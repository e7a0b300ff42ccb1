import GraphQueryCompiler.FilterExpressionInline

/-!
# The operands of the connectives

`fep_visitor` and `fep_visitor_inline` keep the tokens they have visited on `expr_stack` in the
same way, and their visits of `AND` and `OR` take two entries of it for the operands: the one
behind the connective, and the one in a distance that is a power of two.
-/

namespace GraphQueryCompiler

/-- A token on `expr_stack`: its place in the expression, from the token up to the root with
`true` for a right child, the expression that it is the root of, and its `opd_num`. -/
structure Token where
  path : List Bool
  expr : FilterExpr
  opdNum : ℕ

def Token.entry (t : Token) : StackEntry := ⟨t.expr.ftype,t.opdNum⟩

structure ExprStack where
  opdCnt : ℕ
  tokens : List Token

/-- The counter behind a token. A function call does not count. -/
def FilterExpr.nextOpd (n : ℕ) : FilterExpr → ℕ
  | .fct _ => n
  | _ => n+1

namespace ExprStack

def push (s : ExprStack) (path : List Bool) (e : FilterExpr) : ExprStack :=
  ⟨e.nextOpd s.opdCnt,⟨path,e,s.opdCnt⟩ :: s.tokens⟩

def pushAll (s : ExprStack) (xs : List (List Bool × FilterExpr)) : ExprStack :=
  xs.foldl (fun s x => s.push x.1 x.2) s

/-- `lhs_it` and `rhs_it` of `visit(and_predicate)` and `visit(or_predicate)`. There are none if
one of the iterators leaves the stack. -/
def operands (s : ExprStack) : Option (Token × Token) := do
  let rhs ← s.tokens[1]?
  let offset ← FepContext.boolOffset (s.tokens.map Token.entry) 1 0
  let lhs ← s.tokens[2^(2+offset)]?
  return (lhs,rhs)

def FindsChildren (s : ExprStack) (path : List Bool) : Prop :=
  ∃ lhs rhs, s.operands = some (lhs,rhs) ∧ lhs.path = false :: path ∧ rhs.path = true :: path

def along : List (List Bool × FilterExpr) → ExprStack →
    List (List Bool × FilterExpr × ExprStack)
  | [], _ => []
  | x :: xs, s => (x.1,x.2,s.push x.1 x.2) :: along xs (s.push x.1 x.2)

end ExprStack

namespace FilterExpr

def visits : FilterExpr → List Bool → List (List Bool × FilterExpr)
  | .eq l r, path => l.visits (false :: path) ++ (r.visits (true :: path) ++ [(path,.eq l r)])
  | .and l r, path => l.visits (false :: path) ++ (r.visits (true :: path) ++ [(path,.and l r)])
  | .or l r, path => l.visits (false :: path) ++ (r.visits (true :: path) ++ [(path,.or l r)])
  | e, path => [(path,e)]

theorem accept_eq_foldlM {σ : Type*} (vis : ExpressionVisitor σ) (e : FilterExpr) :
    ∀ (path : List Bool) (s : σ), e.accept vis path.length s =
      (e.visits path).foldlM (fun s x => vis.visit x.1.length x.2 s) s := by
  induction e with
  | num | key | str | fct =>
    intro path s
    simp [accept,visits]
  | eq l r ihl ihr | and l r ihl ihr | or l r ihl ihr =>
    intro path s
    simp only [accept,visits,List.foldlM_append,List.foldlM_cons,List.foldlM_nil,bind_pure]
    rw [← ihl (false :: path) s]
    refine congrArg (Option.bind _) (funext fun s₁ => ?_)
    rw [← ihr (true :: path) s₁]
    rfl

def isLeaf : FilterExpr → Bool
  | .eq .. => false
  | .and .. => false
  | .or .. => false
  | _ => true

def Binary : FilterExpr → Prop
  | .eq l r => l.isLeaf = true ∧ r.isLeaf = true
  | .and l r => l.Binary ∧ r.Binary
  | .or l r => l.Binary ∧ r.Binary
  | _ => False

/-- At every visit of an `AND` or `OR` the operands are its children. -/
def FindsChildren (e : FilterExpr) : Prop :=
  ∀ x ∈ ExprStack.along (e.visits []) ⟨0,[]⟩, x.2.1.ftype = some .BOOL_OP →
    x.2.2.FindsChildren x.1

def ComparesRight : FilterExpr → Prop
  | .and l r => l.ComparesRight ∧ r.ftype = some .OP
  | .or l r => l.ComparesRight ∧ r.ftype = some .OP
  | _ => True

end FilterExpr

section Layout
variable {s : ExprStack} {e l r op : FilterExpr} {path : List Bool} {n : ℕ} {lt rt : Token}
  {below : List Token} {xs ys : List (List Bool × FilterExpr)}

theorem ExprStack.along_append (xs : List (List Bool × FilterExpr)) : ∀ {s : ExprStack},
    along (xs ++ ys) s = along xs s ++ along ys (s.pushAll xs) := by
  induction xs with
  | nil => exact rfl
  | cons x xs ih =>
    intro s
    exact congrArg _ ih

theorem ExprStack.pushAll_append : s.pushAll (xs ++ ys) = (s.pushAll xs).pushAll ys :=
  List.foldl_append

theorem FilterExpr.visits_leaf (h : e.isLeaf = true) : e.visits path = [(path,e)] := by
  cases e with
  | num | key | str | fct => rfl
  | eq | and | or => cases h

theorem FilterExpr.ftype_leaf (h : e.isLeaf = true) : e.ftype ≠ some .BOOL_OP := by
  cases e with
  | num | key | str | fct => simp [ftype]
  | eq | and | or => cases h

theorem ExprStack.tokens_leaf (h : e.isLeaf = true) :
    (s.pushAll (e.visits path)).tokens = ⟨path,e,s.opdCnt⟩ :: s.tokens := by
  rw [FilterExpr.visits_leaf h]
  rfl

theorem ExprStack.tokens_eq (hl : l.isLeaf = true) (hr : r.isLeaf = true) :
    ∃ n rt lt, (s.pushAll ((FilterExpr.eq l r).visits path)).tokens =
      ⟨path,.eq l r,n⟩ :: rt :: lt :: s.tokens := by
  rw [FilterExpr.visits,pushAll_append,pushAll_append]
  exact ⟨_,_,_,congrArg (List.cons _) ((tokens_leaf hr).trans (congrArg _ (tokens_leaf hl)))⟩

theorem ExprStack.tokens_visits (e : FilterExpr) : ∀ (path : List Bool) (s : ExprStack),
    ∃ n below, (s.pushAll (e.visits path)).tokens = ⟨path,e,n⟩ :: (below ++ s.tokens) := by
  induction e with
  | num | key | str | fct => exact fun path s => ⟨s.opdCnt,[],rfl⟩
  | eq l r ihl ihr | and l r ihl ihr | or l r ihl ihr =>
    intro path s
    obtain ⟨nl,ls,hls⟩ := ihl (false :: path) s
    obtain ⟨nr,rs,hrs⟩ := ihr (true :: path) (s.pushAll (l.visits (false :: path)))
    rw [FilterExpr.visits,pushAll_append,pushAll_append]
    refine ⟨_,⟨true :: path,r,nr⟩ :: (rs ++ ⟨false :: path,l,nl⟩ :: ls),
      congrArg (List.cons _) ?_⟩
    rw [hrs,hls]
    simp

/-- With a comparison to the right the loop does not run, and the fourth entry behind the
connective is that of the left child. -/
theorem ExprStack.operands_of_op {own a b : Token} {ts : List Token}
    (hs : s.tokens = own :: rt :: a :: b :: lt :: ts) (hrt : rt.expr.ftype = some .OP) :
    s.operands = some (lt,rt) := by
  have hoffset : FepContext.boolOffset (s.tokens.map Token.entry) 1 0 = some 0 := by
    rw [hs,FepContext.boolOffset]
    simp [Token.entry,hrt]
  rw [operands,hoffset,hs]
  rfl

/-- With a connective to the right the loop runs from it to the front and out of the stack. -/
theorem ExprStack.operands_of_boolOp {own : Token} {ts : List Token}
    (hs : s.tokens = own :: rt :: ts) (hown : own.expr.ftype = some .BOOL_OP)
    (hrt : rt.expr.ftype = some .BOOL_OP) : s.operands = none := by
  have hoffset : FepContext.boolOffset (s.tokens.map Token.entry) 1 0 = none := by
    rw [hs,FepContext.boolOffset]
    simp [Token.entry,hrt,hown,FepContext.boolOffset]
  rw [operands,hoffset,hs]
  rfl

theorem ExprStack.findsChildren_push_iff {ls : List Token}
    (hls : s.tokens = ⟨false :: path,l,n⟩ :: ls)
    (hop : op.ftype = some .BOOL_OP) (hr : r.Binary) :
    ((s.pushAll (r.visits (true :: path))).push path op).FindsChildren path ↔
      r.ftype = some .OP := by
  cases r with
  | num | key | str | fct => exact hr.elim
  | eq r₁ r₂ =>
    obtain ⟨nr,a,b,hrs⟩ := @tokens_eq s r₁ r₂ (true :: path) hr.1 hr.2
    rw [hls] at hrs
    exact iff_of_true ⟨_,_,operands_of_op (congrArg (List.cons _) hrs) rfl,rfl,rfl⟩ rfl
  | and r₁ r₂ | or r₁ r₂ =>
    obtain ⟨nr,rs,hrs⟩ := tokens_visits _ (true :: path) s
    refine iff_of_false ?_ (by simp [FilterExpr.ftype])
    rintro ⟨lt,rt,hoperands,-,-⟩
    rw [operands_of_boolOp (congrArg (List.cons _) hrs) hop rfl] at hoperands
    cases hoperands

theorem ExprStack.along_connective (hop : op.ftype = some .BOOL_OP) (hr : r.Binary)
    (hvisits : op.visits path =
      l.visits (false :: path) ++ (r.visits (true :: path) ++ [(path,op)])) :
    (∀ x ∈ along (op.visits path) s, x.2.1.ftype = some .BOOL_OP → x.2.2.FindsChildren x.1) ↔
      (∀ x ∈ along (l.visits (false :: path)) s, x.2.1.ftype = some .BOOL_OP →
        x.2.2.FindsChildren x.1) ∧
      (∀ x ∈ along (r.visits (true :: path)) (s.pushAll (l.visits (false :: path))),
        x.2.1.ftype = some .BOOL_OP → x.2.2.FindsChildren x.1) ∧ r.ftype = some .OP := by
  obtain ⟨n,ls,hls⟩ := tokens_visits l (false :: path) s
  rw [hvisits,along_append,along_append]
  simp only [List.forall_mem_append]
  refine and_congr_right fun _ => and_congr_right fun _ => ?_
  rw [along,along,List.forall_mem_singleton,← findsChildren_push_iff hls hop hr]
  exact ⟨fun h => h hop,fun h _ => h⟩

end Layout

namespace FilterExpr

theorem findsChildren_along (e : FilterExpr) (he : e.Binary) :
    ∀ (path : List Bool) (s : ExprStack),
      (∀ x ∈ ExprStack.along (e.visits path) s, x.2.1.ftype = some .BOOL_OP →
        x.2.2.FindsChildren x.1) ↔ e.ComparesRight := by
  induction e with
  | num | key | str | fct => exact he.elim
  | eq l r =>
    intro path s
    rw [visits,visits_leaf he.1,visits_leaf he.2]
    simp only [List.singleton_append,ExprStack.along,List.forall_mem_cons]
    exact iff_of_true ⟨fun hop => absurd hop (ftype_leaf he.1),
      fun hop => absurd hop (ftype_leaf he.2),(by simp [ftype]),List.forall_mem_nil _⟩ trivial
  | and l r ihl ihr | or l r ihl ihr =>
    intro path s
    rw [ExprStack.along_connective rfl he.2 rfl,ihl he.1,ihr he.2]
    refine and_congr_right fun _ => and_iff_right_of_imp fun hop => ?_
    cases r <;> first | trivial | cases hop

/-- The operands that are found are the children at every `AND` and `OR` exactly if the right
child of each is a comparison. -/
theorem findsChildren_iff (e : FilterExpr) (he : e.Binary) : e.FindsChildren ↔ e.ComparesRight :=
  findsChildren_along e he [] ⟨0,[]⟩

theorem findsChildren_left : FindsChildren (.and
    (.and (.eq (.key 0 "id") (.num 1)) (.eq (.key 0 "age") (.num 2)))
    (.eq (.key 0 "year") (.num 3))) :=
  (findsChildren_iff _ (by simp [Binary,isLeaf])).2 (by simp [ComparesRight,ftype])

/-- `AND(EQ, AND(EQ, EQ))`: the loop leaves the stack at the visit of the outer `AND`. -/
theorem not_findsChildren_right : ¬ FindsChildren (.and (.eq (.key 0 "year") (.num 3))
    (.and (.eq (.key 0 "id") (.num 1)) (.eq (.key 0 "age") (.num 2)))) := by
  rw [findsChildren_iff _ (by simp [Binary,isLeaf])]
  simp [ComparesRight,ftype]

end FilterExpr

namespace ExprStack
variable {σ : Type*} {vis : ExpressionVisitor σ} {cnt : σ → ℕ} {stack : σ → List StackEntry}
  {t : ExprStack} {s s' : σ} {rhs lhs : StackEntry} {offset : ℕ}

structure Tracked (t : ExprStack) (opdCnt : ℕ) (exprStack : List StackEntry) : Prop where
  opdCnt : opdCnt = t.opdCnt
  exprStack : exprStack = t.tokens.map Token.entry

theorem operands_of_entries (hrhs : (t.tokens.map Token.entry)[1]? = some rhs)
    (hoffset : FepContext.boolOffset (t.tokens.map Token.entry) 1 0 = some offset)
    (hlhs : (t.tokens.map Token.entry)[2^(2+offset)]? = some lhs) :
    ∃ l r, t.operands = some (l,r) ∧ l.entry = lhs ∧ r.entry = rhs := by
  rw [List.getElem?_map,Option.map_eq_some_iff] at hrhs hlhs
  obtain ⟨rt,hrt,hr⟩ := hrhs
  obtain ⟨lt,hlt,hl⟩ := hlhs
  exact ⟨lt,rt,by simp [operands,hrt,hoffset,hlt],hl,hr⟩

theorem accept_tracked (hvisit : ∀ {rank : ℕ} {path : List Bool} {e : FilterExpr} {s s' : σ}
      {t : ExprStack}, t.Tracked (cnt s) (stack s) → vis.visit rank e s = some s' →
      (t.push path e).Tracked (cnt s') (stack s'))
    {e : FilterExpr} {path : List Bool} (h : t.Tracked (cnt s) (stack s))
    (hacc : e.accept vis path.length s = some s') :
    (t.pushAll (e.visits path)).Tracked (cnt s') (stack s') := by
  rw [FilterExpr.accept_eq_foldlM] at hacc
  generalize e.visits path = xs at hacc ⊢
  induction xs generalizing s t with
  | nil =>
    obtain rfl := Option.some.inj hacc
    exact h
  | cons x xs ih =>
    obtain ⟨s₁,hx,hacc⟩ := Option.bind_eq_some_iff.1 hacc
    exact ih (hvisit h hx) hacc

end ExprStack

namespace FepContext
variable {ctx : FepContext} {s s' : FepState} {t : ExprStack} {path : List Bool} {e : FilterExpr}
  {n : ℕ}

abbrev Tracks (s : FepState) (t : ExprStack) : Prop := t.Tracked s.opdCnt s.exprStack

theorem compareOperands_frame {rhs : StackEntry} {n : ℕ} {pitem : Expr}
    (h : ctx.compareOperands rhs n pitem s = some s') :
    s'.opdCnt = s.opdCnt ∧ s'.exprStack = s.exprStack := by
  unfold compareOperands at h
  split at h
  · obtain ⟨rhsVal,-,hs⟩ := Option.bind_eq_some_iff.1 h
    obtain rfl := Option.some.inj hs
    exact ⟨rfl,rfl⟩
  · cases h
  · obtain rfl := Option.some.inj h
    exact ⟨rfl,rfl⟩

theorem finishPredicate_tracks {rank : ℕ} {cond : Expr}
    (hs : s.exprStack = t.tokens.map Token.entry)
    (hn : t.opdCnt = n+1) : Tracks (ctx.finishPredicate rank n cond s) t := by
  unfold finishPredicate
  split
  · exact ⟨hn.symm,hs⟩
  · exact ⟨hn.symm,hs⟩

theorem visit_tracks (h : Tracks s t) {rank : ℕ}
    (hvisit : ctx.fepVisitorInline.visit rank e s = some s') : Tracks s' (t.push path e) := by
  cases e with
  | num value =>
    obtain rfl := Option.some.inj hvisit
    exact ⟨congrArg (· + 1) h.opdCnt,congrArg₂ List.cons (congrArg _ h.opdCnt) h.exprStack⟩
  | key qrId k =>
    obtain ⟨roi,-,hs⟩ := Option.bind_eq_some_iff.1 hvisit
    obtain rfl := Option.some.inj hs
    exact ⟨congrArg (· + 1) h.opdCnt,congrArg₂ List.cons (congrArg _ h.opdCnt) h.exprStack⟩
  | str txt =>
    obtain rfl := Option.some.inj hvisit
    exact ⟨congrArg (· + 1) h.opdCnt,congrArg₂ List.cons (congrArg _ h.opdCnt) h.exprStack⟩
  | fct f =>
    obtain ⟨roi,-,hs⟩ := Option.bind_eq_some_iff.1 hvisit
    obtain rfl := Option.some.inj hs
    exact ⟨h.opdCnt,congrArg₂ List.cons (congrArg _ h.opdCnt) h.exprStack⟩
  | eq l r =>
    simp only [fepVisitorInline,visitEq,Option.bind_eq_bind,Option.bind_eq_some_iff] at hvisit
    obtain ⟨rhs,-,lhs,-,pitem,-,s₁,hcompare,hend⟩ := hvisit
    obtain ⟨-,hcompared⟩ := compareOperands_frame hcompare
    have hs₁ : s₁.exprStack = (t.push path (.eq l r)).tokens.map Token.entry :=
      hcompared.trans (congrArg₂ List.cons (congrArg _ h.opdCnt) h.exprStack)
    have hn : (t.push path (.eq l r)).opdCnt = s.opdCnt+1 := congrArg (· + 1) h.opdCnt.symm
    split at hend
    · obtain ⟨cond,-,hs⟩ := Option.bind_eq_some_iff.1 hend
      obtain rfl := Option.some.inj hs
      exact finishPredicate_tracks hs₁ hn
    · obtain rfl := Option.some.inj hend
      exact finishPredicate_tracks hs₁ hn
  | and l r | or l r =>
    simp only [fepVisitorInline,visitBool,Option.bind_eq_bind,Option.bind_eq_some_iff] at hvisit
    obtain ⟨rhs,-,offset,-,lhs,-,lhsVal,-,rhsVal,-,hs⟩ := hvisit
    obtain rfl := Option.some.inj hs
    exact finishPredicate_tracks (congrArg₂ List.cons (congrArg _ h.opdCnt) h.exprStack)
      (congrArg (· + 1) h.opdCnt.symm)

theorem visitBool_operands (h : Tracks s t) {op : Expr → Expr → Expr} {name : ℕ → BlockName}
    {rank : ℕ} (he : e.ftype = some .BOOL_OP) (hvisit : ctx.visitBool op name rank s = some s') :
    ∃ lhs rhs, (t.push path e).operands = some (lhs,rhs) ∧
      (s.genVals lhs.opdNum).isSome = true ∧ (s.genVals rhs.opdNum).isSome = true := by
  have hstack : (⟨some .BOOL_OP,s.opdCnt⟩ :: s.exprStack : List StackEntry) =
      (t.push path e).tokens.map Token.entry :=
    congrArg₂ List.cons (congrArg₂ StackEntry.mk he.symm h.opdCnt) h.exprStack
  simp only [visitBool,Option.bind_eq_bind,Option.bind_eq_some_iff] at hvisit
  obtain ⟨rhs,hrhs,offset,hoffset,lhs,hlhs,lhsVal,hlhsVal,rhsVal,hrhsVal,-⟩ := hvisit
  rw [hstack] at hrhs hoffset hlhs
  obtain ⟨lt,rt,hoperands,rfl,rfl⟩ := ExprStack.operands_of_entries hrhs hoffset hlhs
  exact ⟨lt,rt,hoperands,Option.isSome_of_eq_some hlhsVal,Option.isSome_of_eq_some hrhsVal⟩

theorem accept_tracks (h : Tracks s t)
    (hacc : e.accept ctx.fepVisitorInline path.length s = some s') :
    Tracks s' (t.pushAll (e.visits path)) :=
  ExprStack.accept_tracked (fun h hvisit => visit_tracks h hvisit) h hacc

end FepContext

end GraphQueryCompiler
