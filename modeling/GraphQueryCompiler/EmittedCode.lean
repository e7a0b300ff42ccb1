import GraphQueryCompiler.CodegenFrame

/-!
# The pieces of code

What a visit inserts, piece by piece. Apart from the ends of a scan and the blocks of a limit,
a piece is code inside a pipeline: it neither returns nor finishes, it leaves the result counter
alone, and reads no list of a join that was not visited.
-/

namespace GraphQueryCompiler

/-- A block that any other may branch to: not the entry of a scan, not a block behind the test
of a limit, and not `is_rship`. -/
def BlockName.inside : BlockName → Bool
  | .entry => false
  | .limitReached => false
  | .limitCont => false
  | .isRship _ => false
  | _ => true

def BlockName.plain : BlockName → Bool
  | .limitEntry => false
  | .scanNodesEnd => false
  | n => n.inside

theorem BlockName.inside_of_plain {n : BlockName} (h : n.plain = true) : n.inside = true := by
  cases n <;> first | rfl | exact h

/-- An instruction inside a pipeline, that reads lists of joins below `q` only. `back` is the
block that the operators return to. -/
def Instr.Inner (q : ℕ) (back : Label) : Instr → Prop
  | .store c _ => c.name ≠ .resCounter
  | .applyPexpr _ _ _ _ dst => dst.name ≠ .resCounter
  | .getMatResSize _ jid => jid < q
  | .getJoinTpAt _ jid _ => jid < q
  | .br l => l.name.inside = true ∨ l = back
  | .condBr _ t f => t.name.inside = true ∧ f.name.inside = true
  | .callFinish => False
  | .ret => False
  | _ => True

namespace FepContext
variable {ctx : FepContext} {s s' : FepState} {q : ℕ} {back : Label}

inductive Piece (ctx : FepContext) (q : ℕ) (back : Label) : Label × List Instr → Prop
  | isRship {i : ℕ} : Piece ctx q back (ctx.bb (.isRship i),[.ret])
  | inner {name : BlockName} {is : List Instr} : name.plain = true → (∀ i ∈ is, i.Inner q back) →
      Piece ctx q back (ctx.bb name,is)

structure Guarded (ctx : FepContext) (q : ℕ) (back : Label) (s : FepState) : Prop where
  next : ctx.next.name.inside = true
  endBB : ctx.endBB.name.inside = true
  code : ∀ e ∈ s.code, ctx.Piece q back e
  cur : ∃ name : BlockName, name.plain = true ∧ s.cur = ctx.bb name

theorem Piece.block {l : Label} {is : List Instr}
    (hl : ∃ name : BlockName, name.plain = true ∧ l = ctx.bb name)
    (his : ∀ i ∈ is, i.Inner q back) : ctx.Piece q back (l,is) := by
  obtain ⟨name,hname,rfl⟩ := hl
  exact .inner hname his

theorem keyCode_pieces {cur : Label} {n pcode : ℕ} {roi : Expr}
    (hcur : ∃ name : BlockName, name.plain = true ∧ cur = ctx.bb name)
    (hend : ctx.endBB.name.inside = true) :
    ∀ e ∈ ctx.keyCode cur n roi pcode, ctx.Piece q back e := by
  simp only [keyCode,whileLoopCondition,List.forall_mem_append,List.forall_mem_cons]
  refine ⟨⟨⟨⟨.block hcur ?_,.inner ?_ ?_,.isRship,.inner ?_ ?_,List.forall_mem_nil _⟩,
    .inner ?_ ?_,.inner ?_ ?_,.inner ?_ ?_,.inner ?_ ?_,List.forall_mem_nil _⟩,
    .inner ?_ ?_,.inner ?_ ?_,.inner ?_ ?_,.inner ?_ ?_,List.forall_mem_nil _⟩,
    .inner ?_ ?_,.inner ?_ ?_,.inner ?_ ?_,List.forall_mem_nil _⟩
  all_goals simp [BlockName.plain,BlockName.inside,Instr.Inner,bb,cell]
  exact hend

theorem Guarded.append {code : Code} {cur : Label} {exprStack : List StackEntry}
    {exprRegister : ℕ → Option Expr} {genVals : ℕ → Option Cell} {opdCnt : ℕ}
    (hs : ctx.Guarded q back s) (hcode : ∀ e ∈ code, ctx.Piece q back e)
    (hcur : ∃ name : BlockName, name.plain = true ∧ cur = ctx.bb name) :
    ctx.Guarded q back ⟨s.code ++ code,cur,opdCnt,exprStack,genVals,exprRegister⟩ :=
  ⟨hs.next,hs.endBB,List.forall_mem_append.2 ⟨hs.code,hcode⟩,hcur⟩

theorem finishPredicate_guarded {rank n : ℕ} {cond : Expr} (hs : ctx.Guarded q back s) :
    ctx.Guarded q back (ctx.finishPredicate rank n cond s) := by
  unfold finishPredicate
  split_ifs
  · refine hs.append (List.forall_mem_singleton.2 (.block hs.cur ?_)) hs.cur
    simpa [Instr.Inner] using ⟨hs.next,hs.endBB⟩
  · refine hs.append (List.forall_mem_singleton.2 (.block hs.cur ?_)) ⟨_,?_,rfl⟩
    · simp [Instr.Inner,bb,BlockName.inside]
    · rfl

theorem compareOperands_guarded {rhs : StackEntry} {n : ℕ} {pitem : Expr}
    (h : ctx.compareOperands rhs n pitem s = some s') (hs : ctx.Guarded q back s) :
    ctx.Guarded q back s' := by
  unfold compareOperands at h
  split at h
  · simp only [Option.bind_eq_bind,Option.bind_eq_some_iff,Option.pure_def,
      Option.some.injEq] at h
    obtain ⟨rhsVal,_,rfl⟩ := h
    exact hs.append (List.forall_mem_singleton.2 (.block hs.cur (by simp [Instr.Inner]))) hs.cur
  · simp at h
  · obtain rfl := Option.some.inj h
    exact hs

theorem visitEq_guarded {rank : ℕ} (h : ctx.visitEq rank s = some s') (hs : ctx.Guarded q back s) :
    ctx.Guarded q back s' := by
  simp only [visitEq,Option.bind_eq_bind,Option.bind_eq_some_iff,Option.pure_def] at h
  obtain ⟨rhs,_,lhs,_,pitem,_,s₁,h₁,h₂⟩ := h
  have hs₁ : ctx.Guarded q back s₁ := by
    refine compareOperands_guarded h₁ (hs.append
      (List.forall_mem_singleton.2 (.block hs.cur ?_)) ⟨_,?_,rfl⟩)
    · simp [Instr.Inner,bb,BlockName.inside]
    · rfl
  split_ifs at h₂
  · simp only [Option.bind_eq_some_iff,Option.some.injEq] at h₂
    obtain ⟨cond,_,rfl⟩ := h₂
    exact finishPredicate_guarded hs₁
  · obtain rfl := Option.some.inj h₂
    exact finishPredicate_guarded hs₁

theorem visitBool_guarded {op : Expr → Expr → Expr} {name : ℕ → BlockName} {rank : ℕ}
    (hname : ∀ i, (name i).plain = true) (h : ctx.visitBool op name rank s = some s')
    (hs : ctx.Guarded q back s) : ctx.Guarded q back s' := by
  simp only [visitBool,Option.bind_eq_bind,Option.bind_eq_some_iff,Option.pure_def,
    Option.some.injEq] at h
  obtain ⟨rhs,_,offset,_,lhs,_,lhsVal,_,rhsVal,_,rfl⟩ := h
  apply finishPredicate_guarded
  refine hs.append ?_ ⟨_,hname _,rfl⟩
  rw [List.forall_mem_cons,List.forall_mem_singleton]
  refine ⟨.block hs.cur ?_,.inner (hname _) (by simp [Instr.Inner])⟩
  simp [Instr.Inner,bb,BlockName.inside_of_plain (hname _)]

theorem visit_guarded {rank : ℕ} {e : FilterExpr}
    (h : ctx.fepVisitorInline.visit rank e s = some s') (hs : ctx.Guarded q back s) :
    ctx.Guarded q back s' := by
  have hepilog : ∀ i, (BlockName.epilog i).plain = true := fun _ => rfl
  cases e with
  | num value =>
    obtain rfl := Option.some.inj h
    exact ⟨hs.next,hs.endBB,hs.code,hs.cur⟩
  | key qrId key =>
    simp only [fepVisitorInline,visitKey,Option.bind_eq_bind,Option.bind_eq_some_iff,
      Option.pure_def,Option.some.injEq] at h
    obtain ⟨roi,_,rfl⟩ := h
    exact hs.append (keyCode_pieces hs.cur hs.endBB) ⟨_,hepilog _,rfl⟩
  | str str =>
    obtain rfl := Option.some.inj h
    refine hs.append (List.forall_mem_singleton.2 (.block hs.cur ?_)) ⟨_,hepilog _,rfl⟩
    simp [Instr.Inner,bb,BlockName.inside_of_plain (hepilog s.opdCnt)]
  | fct fct =>
    simp only [fepVisitorInline,visitFct,Option.bind_eq_bind,Option.bind_eq_some_iff,
      Option.pure_def,Option.some.injEq] at h
    obtain ⟨roi,_,rfl⟩ := h
    refine hs.append (List.forall_mem_singleton.2 (.block hs.cur ?_)) hs.cur
    simpa [Instr.Inner] using ⟨hs.next,hs.endBB⟩
  | eq l r => exact visitEq_guarded h hs
  | and l r | or l r =>
    exact visitBool_guarded (fun _ => rfl) h hs

theorem generate_pieces {fexpr : FilterExpr} {name : BlockName} {exprRegister : ℕ → Option Expr}
    {r : Code × (ℕ → Option Expr)}
    (h : ctx.generate fexpr (ctx.bb name) exprRegister = some r) (hname : name.plain = true)
    (hnext : ctx.next.name.inside = true) (hend : ctx.endBB.name.inside = true) :
    ∀ e ∈ r.1, ctx.Piece q back e := by
  simp only [generate,Option.bind_eq_bind,Option.bind_eq_some_iff,Option.pure_def,
    Option.some.injEq] at h
  obtain ⟨s,hs,rfl⟩ := h
  exact (FilterExpr.accept_preserves (P := ctx.Guarded q back)
    (fun _ _ _ _ => visit_guarded) fexpr hs
    ⟨hnext,hend,by simp,_,hname,rfl⟩).code

end FepContext

namespace CodegenInlineVisitor
variable {db : GraphDb} {v v' : CodegenInlineVisitor} {op : Plan} {opId q : ℕ}

inductive Piece (v : CodegenInlineVisitor) (q : ℕ) : Plan → Label × List Instr → Prop
  | closing {op : Plan} {name : BlockName} : name.inside = true →
      Piece v q op (v.prevBb,[.br (v.bb name)])
  | inner {op : Plan} {name : BlockName} {is : List Instr} : name.plain = true →
      (∀ i ∈ is, i.Inner q v.mainReturn) → Piece v q op (v.bb name,is)
  | isRship {fexpr : FilterExpr} {inp : Plan} {i : ℕ} :
      Piece v q (.filter fexpr inp) (v.bb (.isRship i),[.ret])
  | entry {label : String} {indexed : Bool} {inp : Plan} {is : List Instr} :
      (∀ i ∈ is, i.Inner q v.mainReturn) →
      Piece v q (.scan label indexed inp) (v.bb .entry,initFunction v.visits ++ is)
  | finish {label : String} {indexed : Bool} {inp : Plan} : v.entry = none →
      Piece v q (.scan label indexed inp) (v.bb .scanNodesEnd,[.callFinish,.ret])
  | nextScan {label : String} {indexed : Bool} {inp : Plan} {l : Label} : v.entry = some l →
      Piece v q (.scan label indexed inp) (v.bb .scanNodesEnd,[.br l])
  | limitEntry {n : ℤ} {inp : Plan} : Piece v q (.limit n inp) (v.bb .limitEntry,
      [.assign (v.reg .curCnt) (.cell (v.cell .resCounter)),
        .condBr (.icmpEQ (.reg (v.reg .curCnt)) (.const (limitConst n)))
          (v.bb .limitReached) (v.bb .limitCont)])
  | limitReached {n : ℤ} {inp : Plan} :
      Piece v q (.limit n inp) (v.bb .limitReached,[.br v.scanNodesEnd])
  | limitCont {n : ℤ} {inp : Plan} : Piece v q (.limit n inp) (v.bb .limitCont,
      [.store (v.cell .resCounter) (.add (.reg (v.reg .curCnt)) (.const 1))])

theorem Piece.own {op : Plan} {name : BlockName} {is : List Instr}
    (hname : name.plain = true := by rfl)
    (his : ∀ i ∈ is, i.Inner q v.mainReturn := by
      simp [Instr.Inner,BlockName.inside,bb,cell]) : v.Piece q op (v.bb name,is) := .inner hname his

theorem visitScan_pieces (label : String) (indexed : Bool) (inp : Plan) (opId : ℕ) :
    ∃ code, (v.visitScan indexed inp opId).code = v.code ++ code ∧
      ∀ e ∈ code, v.Piece q (.scan label indexed inp) e := by
  have hlast : ∀ last, v.entry = none ∧ last = [.callFinish,.ret] ∨
      (∃ l, v.entry = some l ∧ last = [.br l]) →
      v.Piece q (.scan label indexed inp) (v.bb .scanNodesEnd,last) := by
    rintro last (⟨he,rfl⟩ | ⟨l,he,rfl⟩)
    · exact .finish he
    · exact .nextScan he
  refine ⟨_,rfl,?_⟩
  cases indexed with
  | false =>
    simp only [Bool.false_eq_true,if_false,scanCode,List.forall_mem_cons]
    exact ⟨.entry (by simp [Instr.Inner,BlockName.inside,bb]),.own,.own,.own,.own,
      hlast _ (by cases v.entry <;> simp),List.forall_mem_nil _⟩
  | true =>
    simp only [if_true,indexScanCode,List.forall_mem_cons]
    exact ⟨.entry (by simp [Instr.Inner,BlockName.inside,bb]),
      hlast _ (by cases v.entry <;> simp),List.forall_mem_nil _⟩

theorem projectExpr_inner {i : ℕ} {pe : PrExpr} {r : List Instr × QrValue}
    (h : v.projectExpr i pe = some r) : ∀ i ∈ r.1, i.Inner q back := by
  simp only [projectExpr,Option.bind_eq_bind,Option.bind_eq_some_iff,Option.pure_def] at h
  obtain ⟨q,_,h⟩ := h
  split_ifs at h
  · obtain rfl := Option.some.inj h
    simp
  · simp only [Option.bind_eq_some_iff] at h
    obtain ⟨key,_,h⟩ := h
    obtain rfl := Option.some.inj h
    simp [Instr.Inner,cell]
  · simp at h

theorem projectExprs_inner {pes : List PrExpr} : ∀ {i : ℕ} {r : List Instr × List QrValue},
    v.projectExprs i pes = some r → ∀ i ∈ r.1, i.Inner q back := by
  induction pes with
  | nil =>
    intro i r h
    obtain rfl := Option.some.inj h
    simp
  | cons pe pes ih =>
    intro i r h
    simp only [projectExprs,Option.bind_eq_bind,Option.bind_eq_some_iff,Option.pure_def,
      Option.some.injEq] at h
    obtain ⟨r₁,h₁,r₂,h₂,rfl⟩ := h
    exact List.forall_mem_append.2 ⟨projectExpr_inner h₁,ih h₂⟩

theorem resInstrs_inner {types : List ℕ} : ∀ i ∈ v.resInstrs types, i.Inner q back := by
  intro i hi
  simp only [resInstrs,List.mem_mapIdx] at hi
  obtain ⟨n,_,rfl⟩ := hi
  split_ifs <;> simp [Instr.Inner]

theorem joinCode_pieces {jop : JoinOp} {types : List ℕ} (hq : v.queryIdInline < q) :
    ∀ e ∈ v.joinCode jop types, v.Piece q op e := by
  have hconcat : v.Piece q op (v.bb .concatQrl,
      v.resInstrs types ++ v.concatIncr jop ++ [.br (v.bb .consume)]) := by
    refine .inner rfl ?_
    rw [List.forall_mem_append,List.forall_mem_append]
    refine ⟨⟨resInstrs_inner,?_⟩,by simp [Instr.Inner,bb,BlockName.inside]⟩
    cases jop <;> simp [concatIncr,Instr.Inner,cell]
  have hbody : v.Piece q op (v.bb (.whileBody 0),
      [.assign (v.reg .idx) (.cell (v.cell .curIdx)),
        .getJoinTpAt (v.reg .tp) v.queryIdInline (.reg (v.reg .idx))] ++ v.joinBranch jop) := by
    refine .inner rfl ?_
    cases jop <;> simp [joinBranch,Instr.Inner,bb,BlockName.inside,hq]
  simp only [joinCode,whileLoopCondition,List.forall_mem_append,List.forall_mem_cons]
  exact ⟨⟨⟨.closing rfl,.inner rfl (by simp [Instr.Inner,BlockName.inside,cell,hq]),
    List.forall_mem_nil _⟩,.own,.own,hbody,.own,List.forall_mem_nil _⟩,.own,hconcat,.own,
    List.forall_mem_nil _⟩

theorem joinLoopCode_pieces {jop : JoinOp} {pos : ℕ × ℕ} {code : Code}
    (h : v.joinLoopCode jop pos = some code) : ∀ e ∈ code, v.Piece q op e := by
  cases jop with
  | LEFT_OUTER =>
    obtain ⟨lhs,_,rfl⟩ := Option.map_eq_some_iff.1 h
    simp only [leftOuterCode,whileLoopCondition,List.forall_mem_append,List.forall_mem_cons]
    exact ⟨⟨⟨.own,List.forall_mem_nil _⟩,.own,.own,.own,.own,List.forall_mem_nil _⟩,
      .own,.own,.own,List.forall_mem_nil _⟩
  | CROSS | NESTED_LOOP | HASH_JOIN =>
    obtain rfl := Option.some.inj h
    simp

theorem visit_pieces (h : (codegenInlineVisitor db).visit op opId v = some v')
    (hq : ∀ jop pos lhs rhs, op = .join jop pos lhs rhs → v.queryIdInline < q) :
    ∃ code, v'.code = v.code ++ code ∧ ∀ e ∈ code, v.Piece q op e := by
  cases op with
  | scan label indexed inp =>
    obtain rfl := Option.some.inj h
    exact visitScan_pieces label indexed inp opId
  | foreachRship dir hops label inp =>
    simp only [codegenInlineVisitor,visitForeachRship,Option.bind_eq_bind,Option.bind_eq_some_iff,
      Option.pure_def,Option.some.injEq] at h
    obtain ⟨node,_,rfl⟩ := h
    refine ⟨_,rfl,?_⟩
    split_ifs
    · simp only [foreachVariableCode,feEntry,List.forall_mem_cons]
      exact ⟨.closing rfl,.own,.own,.own,
        .own,List.forall_mem_nil _⟩
    · simp only [foreachRshipCode,whileLoopCondition,feEntry,List.forall_mem_append,
        List.forall_mem_cons]
      exact ⟨⟨⟨.closing rfl,.own,List.forall_mem_nil _⟩,.own,.own,.own,.own,
        List.forall_mem_nil _⟩,.own,.own,List.forall_mem_nil _⟩
  | expand exp label inp =>
    simp only [codegenInlineVisitor,visitExpand,Option.bind_eq_bind,Option.bind_eq_some_iff,
      Option.pure_def,Option.some.injEq] at h
    obtain ⟨rship,_,rfl⟩ := h
    have hfalse : v.Piece q (.expand exp label inp)
        (v.bb .expandFalse,[.br v.mainReturn]) :=
      .own
    refine ⟨_,rfl,?_⟩
    simp only [expandCode,List.forall_mem_append,List.forall_mem_cons]
    refine ⟨⟨⟨.closing rfl,?_,List.forall_mem_nil _⟩,?_⟩,hfalse,List.forall_mem_nil _⟩
    · split_ifs <;> exact .own
    · split_ifs
      · exact List.forall_mem_nil _
      · exact List.forall_mem_singleton.2 .own
  | filter fexpr inp =>
    simp only [codegenInlineVisitor,visitFilter,Option.bind_eq_bind,Option.bind_eq_some_iff,
      Option.pure_def,Option.some.injEq] at h
    obtain ⟨_,_,r,hr,rfl⟩ := h
    have hgen : ∀ e ∈ r.1, (v.fepContext db).Piece q v.mainReturn e :=
      FepContext.generate_pieces hr rfl
        rfl rfl
    refine ⟨_,rfl,?_⟩
    simp only [List.forall_mem_append,List.forall_mem_cons]
    refine ⟨⟨⟨.closing rfl,.own,List.forall_mem_nil _⟩,fun e he => ?_⟩,
      .own,List.forall_mem_nil _⟩
    cases hgen e he with
    | isRship => exact .isRship
    | inner hname his => exact .inner hname his
  | project prexpr inp =>
    simp only [codegenInlineVisitor,visitProject,Option.bind_eq_bind,Option.bind_eq_some_iff,
      Option.pure_def,Option.some.injEq] at h
    obtain ⟨r,hr,rfl⟩ := h
    refine ⟨_,rfl,?_⟩
    simp only [List.forall_mem_cons]
    exact ⟨.closing rfl,
      .inner rfl (projectExprs_inner hr),List.forall_mem_nil _⟩
  | join jop pos lhs rhs =>
    simp only [codegenInlineVisitor,visitJoin,Option.bind_eq_bind,Option.bind_eq_some_iff,
      Option.pure_def,Option.some.injEq] at h
    obtain ⟨loopCode,hloop,rfl⟩ := h
    exact ⟨_,rfl,List.forall_mem_append.2 ⟨joinCode_pieces (hq _ _ _ _ rfl),
      joinLoopCode_pieces hloop⟩⟩
  | sort cmp inp =>
    obtain rfl := Option.some.inj h
    exact ⟨[],by simp [visitSort],List.forall_mem_nil _⟩
  | limit n inp =>
    obtain rfl := Option.some.inj h
    refine ⟨_,rfl,?_⟩
    simp only [List.forall_mem_cons]
    exact ⟨.closing rfl,.limitEntry,.limitReached,.limitCont,List.forall_mem_nil _⟩
  | create => simp [codegenInlineVisitor] at h
  | collect print =>
    obtain rfl := Option.some.inj h
    refine ⟨_,rfl,?_⟩
    simp only [List.forall_mem_cons]
    refine ⟨.closing rfl,
      .inner rfl ?_,List.forall_mem_nil _⟩
    exact List.forall_mem_append.2 ⟨by simp [Instr.Inner],
      by simp [Instr.Inner]⟩
  | endOp =>
    simp only [codegenInlineVisitor,visitEnd] at h
    split at h
    · simp at h
    · obtain rfl := Option.some.inj h
      refine ⟨_,rfl,?_⟩
      simp only [List.forall_mem_cons]
      refine ⟨.closing rfl,
        .inner rfl ?_,List.forall_mem_nil _⟩
      refine List.forall_mem_append.2 ⟨?_,by simp [Instr.Inner]⟩
      rw [List.forall_mem_map]
      intro res _
      split_ifs <;> simp [Instr.Inner]

structure Moves (v v' : CodegenInlineVisitor) : Prop where
  mainReturn : v'.mainReturn = v.mainReturn ∨ ∃ name : BlockName, name.inside = true ∧
    v'.mainReturn = v.bb name
  scanNodesEnd : v'.scanNodesEnd = v.scanNodesEnd ∨ v'.scanNodesEnd = v.bb .scanNodesEnd
  entry : v'.entry = v.entry ∨ v'.entry = some (v.bb .entry)
  prevBb : v'.prevBb = v.prevBb ∨ ∃ name : BlockName, (name.plain = true ∨ name = .limitCont) ∧
    v'.prevBb = v.bb name
  queryIdInline : v.queryIdInline ≤ v'.queryIdInline

theorem visit_moves (h : (codegenInlineVisitor db).visit op opId v = some v') : v.Moves v' := by
  have hown : ∀ (name : BlockName) {l : Label}, name.inside = true → l = v.bb name →
      l = v.mainReturn ∨ ∃ name : BlockName, name.inside = true ∧ l = v.bb name :=
    fun _ _ hname hl => .inr ⟨_,hname,hl⟩
  have hopen : ∀ {name : BlockName} {l : Label}, name.plain = true → l = v.bb name →
      l = v.prevBb ∨ ∃ name : BlockName, (name.plain = true ∨ name = .limitCont) ∧ l = v.bb name :=
    fun hname hl => .inr ⟨_,.inl hname,hl⟩
  cases op with
  | scan label indexed inp =>
    obtain rfl := Option.some.inj h
    refine ⟨?_,.inr rfl,.inr rfl,hopen rfl rfl,le_refl _⟩
    cases indexed with
    | false => exact hown (.whileBodyEpilog 0) rfl rfl
    | true => exact hown .scanNodesEnd rfl rfl
  | foreachRship dir hops label inp =>
    simp only [codegenInlineVisitor,visitForeachRship,Option.bind_eq_bind,Option.bind_eq_some_iff,
      Option.pure_def,Option.some.injEq] at h
    obtain ⟨node,_,rfl⟩ := h
    refine ⟨hown _ ?_ rfl,.inl rfl,.inl rfl,hopen rfl rfl,
      le_refl _⟩
    split_ifs <;> rfl
  | expand | project =>
    simp only [codegenInlineVisitor,visitExpand,visitProject,Option.bind_eq_bind,
      Option.bind_eq_some_iff,Option.pure_def,Option.some.injEq] at h
    obtain ⟨_,_,rfl⟩ := h
    exact ⟨.inl rfl,.inl rfl,.inl rfl,hopen rfl rfl,
      le_refl _⟩
  | filter fexpr inp =>
    simp only [codegenInlineVisitor,visitFilter,Option.bind_eq_bind,Option.bind_eq_some_iff,
      Option.pure_def,Option.some.injEq] at h
    obtain ⟨_,_,r,_,rfl⟩ := h
    exact ⟨.inl rfl,.inl rfl,.inl rfl,hopen rfl rfl,
      le_refl _⟩
  | join jop pos lhs rhs =>
    simp only [codegenInlineVisitor,visitJoin,Option.bind_eq_bind,Option.bind_eq_some_iff,
      Option.pure_def,Option.some.injEq] at h
    obtain ⟨_,_,rfl⟩ := h
    refine ⟨?_,.inl rfl,.inl rfl,hopen rfl rfl,
      Nat.le_succ _⟩
    cases jop with
    | CROSS => exact hown (.whileCondition 0) rfl rfl
    | LEFT_OUTER => exact hown .handleRet rfl rfl
    | NESTED_LOOP | HASH_JOIN => exact .inl rfl
  | sort cmp inp =>
    obtain rfl := Option.some.inj h
    exact ⟨.inl rfl,.inl rfl,.inl rfl,.inl rfl,le_refl _⟩
  | limit n inp =>
    obtain rfl := Option.some.inj h
    exact ⟨.inl rfl,.inl rfl,.inl rfl,.inr ⟨_,.inr rfl,rfl⟩,le_refl _⟩
  | create => simp [codegenInlineVisitor] at h
  | collect print =>
    obtain rfl := Option.some.inj h
    exact ⟨.inl rfl,.inl rfl,.inl rfl,.inl rfl,le_refl _⟩
  | endOp =>
    simp only [codegenInlineVisitor,visitEnd] at h
    split at h
    · simp at h
    · obtain rfl := Option.some.inj h
      exact ⟨.inl rfl,.inl rfl,.inl rfl,.inl rfl,le_refl _⟩

end CodegenInlineVisitor
end GraphQueryCompiler
