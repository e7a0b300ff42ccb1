import GraphQueryCompiler.FepOperands

/-!
# The formulas of consumer functions

The code of a formula leaves its value in a cell for the connective around it. That of the root
goes on behind the filter as the value says.
-/

namespace GraphQueryCompiler
open StepMachine FepVisitor ForwardSearch

variable {env : Env} {fn : BlockName → List FepInstr} {σ σ' : FepCell → Val} {b block : BlockName}
  {c later : FepCode} {n d i j rank : ℕ} {db : GraphDb} {e l r : FilterExpr}
  {s s' s₁ : FepVisitor} {key : String} {cell res pitem rhsAlloc : FepCell} {val : FepOperand}
  {ops : List ℕ} {st : FepSearch} {xs : List Bool} {is : List FepInstr}

namespace FepVisitor

variable {K : FepSearch → List Bool → Bool}

/-- The visits of a formula below the root leave its value in the cell of operand `m`. -/
structure Evaluates (env : Env) (n : ℕ) (e : FilterExpr) (s s' : FepVisitor) (b b' : BlockName)
    (m : ℕ) (c : FepCode) : Prop where
  code : s'.code = s.code ++ c
  cur : s'.cur = some b'
  next : ∀ i ∈ b'.opd, i < s'.opdCnt
  lt : m < s'.opdCnt
  value : (s'.genVals m).isSome
  le : s.opdCnt ≤ s'.opdCnt
  keeps : ∀ i < s.opdCnt, s'.genVals i = s.genVals i
  leads : ∀ ops later K, Leads env n s' b' (m :: ops) later K → Leads env n s b ops (c ++ later)
    (fun st xs => ((e.fepEval env.db st).map fun r => K r.2 (r.1 :: xs)).getD false)

def Inner (env : Env) (n : ℕ) (e : FilterExpr) (rank : ℕ) (s : FepVisitor) (b : BlockName) : Prop :=
  ∃ s' b' m c T, e.accept (fepVisitor env.db) rank s = some s' ∧
    s'.exprStack = ⟨e.ftype,m⟩ :: T ∧ Evaluates env n e s s' b b' m c

def Root (env : Env) (n : ℕ) (e : FilterExpr) (s : FepVisitor) (b : BlockName) : Prop :=
  ∃ s' c, e.accept (fepVisitor env.db) 0 s = some s' ∧ s'.code = s.code ++ c ∧
    ∀ ops, Leads env n s b ops c
      (fun st _ => ((e.fepEval env.db st).map Prod.fst).getD false)

structure Compared (env : Env) (n : ℕ) (k : String) (v : ℤ) (s s₂ : FepVisitor) (b : BlockName)
    (c : FepCode) : Prop where
  code : s₂.code = s.code ++ c
  cur : s₂.cur = some (.epilog s.opdCnt)
  opdCnt : s₂.opdCnt = s.opdCnt+2
  exprStack : s₂.exprStack = ⟨some .INT,s.opdCnt+1⟩ :: ⟨some .KEY,s.opdCnt⟩ :: s.exprStack
  key : s₂.genVals s.opdCnt = some (.pitem k)
  num : s₂.genVals (s.opdCnt+1) = some (.int v)
  keeps : ∀ i < s.opdCnt, s₂.genVals i = s.genVals i
  pitem : .pitem k ∈ s₂.allocStack
  int : .int v ∈ s₂.allocStack
  leads : ∀ ops later K, Leads env n s₂ (.epilog s.opdCnt) ops later K →
    Leads env n s b ops (c ++ later)
      (fun st xs => ((st.lookup env.db k).map fun st => K st xs).getD false)

variable (env n) in
theorem compared (hcur : s.cur = some b) (hb : ∀ i ∈ b.opd, i < s.opdCnt) (rank q : ℕ) (k : String)
    (v : ℤ) : ∃ s₁ s₂ c, (FilterExpr.key q k).accept (fepVisitor env.db) rank s = some s₁ ∧
      (FilterExpr.num v).accept (fepVisitor env.db) rank s₁ = some s₂ ∧
      Compared env n k v s s₂ b c := by
  obtain ⟨s₁,hkey,hl⟩ := visitKey_leaf hcur env.db q k
  obtain ⟨s₂,c,hnum,hl₂,hbody,hother⟩ := visitNumber_leaf hl.cur v
  have hb₁ : ∀ i ∈ (BlockName.epilog s.opdCnt).opd, i < s₁.opdCnt := by
    simp [BlockName.opd,hl.opdCnt]
  refine ⟨s₁,s₂,s.keyCode env.db b k ++ c,hkey,hnum,⟨?_,hl₂.cur,?_,?_,?_,?_,fun i hi => ?_,?_,?_,
    fun ops later K h => ?_⟩⟩
  · rw [hl₂.code,hl.code,List.append_assoc]
  · rw [hl₂.opdCnt,hl.opdCnt]
  · rw [hl₂.exprStack,hl.exprStack,hl.opdCnt]
  · rw [hl₂.genVals_of_lt (hl.opdCnt ▸ Nat.lt_succ_self _),hl.genVals_self]
  · rw [← hl.opdCnt,hl₂.genVals_self]
  · rw [hl₂.genVals_of_lt (hl.opdCnt ▸ Nat.lt_succ_of_lt hi),hl.genVals_of_lt hi]
  · simp [hl₂.mem,hl.mem]
  · simp [hl₂.mem]
  · rw [List.append_assoc]
    exact (Leads.number hl₂ hb₁ hbody hother h).lookup hl hb

theorem Compared.eval {k : String} {v : ℤ} {s₂ : FepVisitor} (h : Compared env n k v s s₂ b c)
    (hs : Holds env n s₂ ops σ st xs) :
    (FepOperand.icmpEQ (.field (.load (.pitem k)) 0) (.load (.int v))).eval env (.node n) σ =
      .bool (st.value k = some (v % 2^64).toNat) := by
  obtain ⟨w,hw⟩ := Option.isSome_iff_exists.1 ((hs.known k).1 h.pitem)
  have hfield : loadField env.db (σ (.pitem k)) 0 = .word w := hs.value k w hw
  have hint : σ (.int v) = .word (v % 2^64).toNat := hs.int v h.int
  simp only [FepOperand.eval,hfield,hint,Val.icmpEQ,hw,Option.some.injEq]

theorem Compared.visitEq {k : String} {v : ℤ} {s₂ : FepVisitor} (h : Compared env n k v s s₂ b c) :
    s₂.visitEq rank l r = s₂.predicate rank (.eq l r) (.cmpEqRes s₂.opdCnt) (.cmpEq s₂.opdCnt)
      (.icmpEQ (.field (.load (.pitem k)) 0) (.load (.int v))) :=
  visitEq_eq h.exprStack h.key h.num

variable (env n) in
theorem evaluates_eq (hcur : s.cur = some b) (hb : ∀ i ∈ b.opd, i < s.opdCnt) (hrank : rank ≠ 0)
    (q : ℕ) (k : String) (v : ℤ) : ∃ s' b' m c x y,
      (FilterExpr.eq (.key q k) (.num v)).accept (fepVisitor env.db) rank s = some s' ∧
      s'.exprStack = ⟨some .OP,m⟩ :: x :: y :: s.exprStack ∧
      Evaluates env n (.eq (.key q k) (.num v)) s s' b b' m c := by
  obtain ⟨s₁,s₂,c,hkey,hnum,hc⟩ := compared env n hcur hb (rank+1) q k v
  have hb₂ : ∀ i ∈ (BlockName.epilog s.opdCnt).opd, i < s₂.opdCnt := by
    simp [BlockName.opd,hc.opdCnt]
  let own : FepCode := [(.epilog s.opdCnt,[.br (.cmpEq s₂.opdCnt)]),(.cmpEq s₂.opdCnt,
    s₂.allocStore (.cmpEqRes s₂.opdCnt) (.icmpEQ (.field (.load (.pitem k)) 0) (.load (.int v))) ++
      [.br (.epilog s₂.opdCnt)])]
  let s' := s₂.afterPredicate (.eq (.key q k) (.num v)) (.cmpEqRes s₂.opdCnt) own
    (some (.epilog s₂.opdCnt))
  have hopd : s'.opdCnt = s₂.opdCnt+1 := opd_afterPredicate rfl
  have hopd₂ := hc.opdCnt
  refine ⟨s',.epilog s₂.opdCnt,s₂.opdCnt,c ++ own,⟨some .INT,s.opdCnt+1⟩,
    ⟨some .KEY,s.opdCnt⟩,?_,?_,⟨?_,rfl,?_,?_,?_,?_,fun i hi => ?_,fun ops later K h => ?_⟩⟩
  · simp only [FilterExpr.accept,Option.bind_eq_bind] at hkey hnum ⊢
    rw [hkey,Option.bind_some,hnum,Option.bind_some]
    exact hc.visitEq.trans (predicate_inner hc.cur hrank)
  · exact exprStack_alloc.trans (congrArg (List.cons _) hc.exprStack)
  · exact (congrArg (· ++ _) hc.code).trans (List.append_assoc ..)
  · simp [BlockName.opd,hopd]
  · omega
  · exact Option.isSome_of_eq_some (Function.update_self ..)
  · omega
  · have hlt : i < s₂.opdCnt := by omega
    exact (Function.update_of_ne (Nat.ne_of_lt hlt) ..).trans
      ((congrFun genVals_alloc i).trans (hc.keeps i hi))
  · have hown := Leads.inner (d := 0) rfl rfl (fun σ st xs => hc.eval) hb₂ rfl (by simp) rfl h
    rw [List.append_assoc]
    have hall := hc.leads ops _ _ hown
    refine cast ?_ hall
    congr 1
    funext st xs
    simp only [FilterExpr.fepEval]
    cases st.lookup env.db k <;> rfl

structure Connective (conn : FilterExpr → FilterExpr → FilterExpr)
    (op : FepOperand → FepOperand → FepOperand) (res : ℕ → FepCell) (block : ℕ → BlockName)
    (f : Bool → Bool → Bool) : Prop where
  nextOpd : ∀ l r n, (conn l r).nextOpd n = n+1
  accept : ∀ (db : GraphDb) rank l r s, (conn l r).accept (fepVisitor db) rank s =
    (l.accept (fepVisitor db) (rank+1) s).bind fun s =>
      (r.accept (fepVisitor db) (rank+1) s).bind fun s => s.visitBool op res block rank (conn l r)
  fepEval : ∀ db l r st, (conn l r).fepEval db st = (l.fepEval db st).bind fun p =>
    (r.fepEval db p.2).map fun q => (f p.1 q.1,q.2)
  result : ∀ n, (res n).resultOf = some n
  opd : ∀ n, (block n).opd = some n
  epilog : ∀ n m, block n ≠ .epilog m
  eval : ∀ env roi σ a a' x x', FepOperand.eval env roi σ a = .bool x →
    FepOperand.eval env roi σ a' = .bool x' → (op a a').eval env roi σ = .bool (f x x')

theorem connective_and : Connective .and .and .cmpAndRes .cmpAnd and where
  nextOpd _ _ _ := rfl
  accept _ _ _ _ _ := rfl
  fepEval db l r st := by
    simp only [FilterExpr.fepEval,Option.map_eq_bind]
    rfl
  result _ := rfl
  opd _ := rfl
  epilog := by simp
  eval env roi σ a a' x x' ha ha' := by simp only [FepOperand.eval,ha,ha',Val.and]

theorem connective_or : Connective .or .or .cmpOrRes .cmpOr or where
  nextOpd _ _ _ := rfl
  accept _ _ _ _ _ := rfl
  fepEval db l r st := by
    simp only [FilterExpr.fepEval,Option.map_eq_bind]
    rfl
  result _ := rfl
  opd _ := rfl
  epilog := by simp
  eval env roi σ a a' x x' ha ha' := by simp only [FepOperand.eval,ha,ha',Val.or]

def connect (f : Bool → Bool → Bool) : List Bool → Bool
  | y :: x :: _ => f x y
  | _ => false

section Connective
variable {conn : FilterExpr → FilterExpr → FilterExpr} {op : FepOperand → FepOperand → FepOperand}
  {res : ℕ → FepCell} {block : ℕ → BlockName} {f : Bool → Bool → Bool} {s₂ : FepVisitor}
  {b₁ b₂ : BlockName} {m₁ m₂ : ℕ} {c₁ c₂ : FepCode} {T : List StackEntry} {x y : StackEntry}
  (hf : Connective conn op res block f)
  (hl : Evaluates env n l s s₁ b b₁ m₁ c₁) (hls : s₁.exprStack = ⟨l.ftype,m₁⟩ :: T)
  (hr : Evaluates env n r s₁ s₂ b₁ b₂ m₂ c₂)
  (hrs : s₂.exprStack = ⟨some .OP,m₂⟩ :: x :: y :: s₁.exprStack)
include hf hl hls hr hrs

theorem Connective.operands : ∃ val,
    (∀ rank, s₂.visitBool op res block rank (conn l r) =
      s₂.predicate rank (conn l r) (res s₂.opdCnt) (block s₂.opdCnt) val) ∧
    ∀ ops σ st xs, Holds env n s₂ (m₂ :: m₁ :: ops) σ st xs →
      val.eval env (.node n) σ = .bool (connect f xs) := by
  obtain ⟨cell₁,hcell₁⟩ := Option.isSome_iff_exists.1 hl.value
  obtain ⟨cell₂,hcell₂⟩ := Option.isSome_iff_exists.1 hr.value
  have hkeep : s₂.genVals m₁ = some cell₁ := (hr.keeps m₁ hl.lt).trans hcell₁
  rw [hls] at hrs
  refine ⟨op (.load cell₁) (.load cell₂),fun rank => visitBool_eq hrs hkeep hcell₂,?_⟩
  intro ops σ st xs hs
  cases hs.results with | @cons _ v _ _ hv hrest =>
  cases hrest with | @cons _ u _ _ hu _ =>
  obtain ⟨-,cell,hcell,-,hval⟩ := hv
  obtain ⟨-,cell',hcell',-,hval'⟩ := hu
  obtain rfl := Option.some.inj (hcell₂.symm.trans hcell)
  obtain rfl := Option.some.inj (hkeep.symm.trans hcell')
  exact hf.eval _ _ _ _ _ _ _ hval' hval

omit hls hrs in
theorem Connective.leads {G : FepSearch → Bool → List Bool → Bool}
    (h : Leads env n s₂ b₂ (m₂ :: m₁ :: ops) later
      (fun st xs => G st (connect f xs) (xs.drop 2))) :
    Leads env n s b ops (c₁ ++ (c₂ ++ later))
      (fun st xs => (((conn l r).fepEval env.db st).map fun p => G p.2 p.1 xs).getD false) := by
  refine cast ?_ (hl.leads ops _ _ (hr.leads (m₁ :: ops) _ _ h))
  congr 1
  funext st xs
  rw [hf.fepEval]
  cases hleft : l.fepEval env.db st with
  | none => rfl
  | some p =>
    cases hright : r.fepEval env.db p.2 with
    | none => simp [hright]
    | some q => simp [hright,connect]

omit hl hls hr hrs in
theorem Connective.inner (h : Inner env n l (rank+1) s b) (hrank : rank ≠ 0) (q : ℕ) (k : String)
    (v : ℤ) : Inner env n (conn l (.eq (.key q k) (.num v))) rank s b := by
  obtain ⟨s₁,b₁,m₁,c₁,T,hal,hls,hl⟩ := h
  obtain ⟨s₂,b₂,m₂,c₂,x,y,har,hrs,hr⟩ :=
    evaluates_eq env n hl.cur hl.next rank.succ_ne_zero q k v
  obtain ⟨val,hvisit,hval⟩ := hf.operands hl hls hr hrs
  let r : FilterExpr := .eq (.key q k) (.num v)
  let own : FepCode := [(b₂,[.br (block s₂.opdCnt)]),(block s₂.opdCnt,
    s₂.allocStore (res s₂.opdCnt) val ++ [.br (.epilog s₂.opdCnt)])]
  let s' := s₂.afterPredicate (conn l r) (res s₂.opdCnt) own (some (.epilog s₂.opdCnt))
  have hopd : s'.opdCnt = s₂.opdCnt+1 := opd_afterPredicate (hf.nextOpd ..)
  have hle := hl.le
  have hle₂ := hr.le
  refine ⟨s',.epilog s₂.opdCnt,s₂.opdCnt,c₁ ++ (c₂ ++ own),s₂.exprStack,?_,exprStack_alloc,
    ⟨?_,rfl,?_,?_,?_,?_,fun i hi => ?_,fun ops later K h => ?_⟩⟩
  · rw [hf.accept,hal,Option.bind_some,har,Option.bind_some,hvisit]
    exact predicate_inner hr.cur hrank
  · refine (congrArg (· ++ own) (hr.code.trans (congrArg (· ++ c₂) hl.code))).trans ?_
    simp only [List.append_assoc]
  · simp [BlockName.opd,hopd]
  · omega
  · exact Option.isSome_of_eq_some (Function.update_self ..)
  · omega
  · have hlt : i < s₂.opdCnt := by omega
    exact (Function.update_of_ne (Nat.ne_of_lt hlt) ..).trans ((congrFun genVals_alloc i).trans
      ((hr.keeps i (by omega)).trans (hl.keeps i hi)))
  · have hown := Leads.inner (d := 2) (hf.result _) (hf.nextOpd l r _) (hval ops) hr.next
      (hf.opd _) (hf.epilog _ _) rfl h
    rw [List.append_assoc,List.append_assoc]
    exact hf.leads hl hr (G := fun st x xs => K st (x :: xs)) hown

omit hl hls hr hrs in
theorem Connective.root (h : Inner env n l 1 s b) (q : ℕ) (k : String) (v : ℤ) :
    Root env n (conn l (.eq (.key q k) (.num v))) s b := by
  obtain ⟨s₁,b₁,m₁,c₁,T,hal,hls,hl⟩ := h
  obtain ⟨s₂,b₂,m₂,c₂,x,y,har,hrs,hr⟩ :=
    evaluates_eq env n hl.cur hl.next Nat.one_ne_zero q k v
  obtain ⟨val,hvisit,hval⟩ := hf.operands hl hls hr hrs
  let r : FilterExpr := .eq (.key q k) (.num v)
  let own : FepCode := [(b₂,[.br (block s₂.opdCnt)]),(block s₂.opdCnt,
    s₂.allocStore (res s₂.opdCnt) val ++
      [.condBr (.load (res s₂.opdCnt)) .filterConsume .filterFalse])]
  refine ⟨s₂.afterPredicate (conn l r) (res s₂.opdCnt) own none,c₁ ++ (c₂ ++ own),?_,?_,
    fun ops => ?_⟩
  · rw [hf.accept,hal,Option.bind_some,har,Option.bind_some,hvisit]
    exact predicate_root hr.cur
  · refine (congrArg (· ++ own) (hr.code.trans (congrArg (· ++ c₂) hl.code))).trans ?_
    simp only [List.append_assoc]
  · exact hf.leads hl hr (G := fun _ x _ => x)
      (Leads.root (hf.result _) (hval ops) hr.next (hf.opd _) rfl)

end Connective

variable (env n) in
theorem inner_of_compares (he : e.Compares) : ∀ {rank : ℕ} {s : FepVisitor} {b : BlockName},
    s.cur = some b → (∀ i ∈ b.opd, i < s.opdCnt) → rank ≠ 0 → Inner env n e rank s b := by
  induction he with
  | @eq q k v =>
    intro rank s b hcur hb hrank
    obtain ⟨s',b',m,c,x,y,haccept,hstack,heval⟩ := evaluates_eq env n hcur hb hrank q k v
    exact ⟨s',b',m,c,_,haccept,hstack,heval⟩
  | @and l q k v _ ih =>
    intro rank s b hcur hb hrank
    exact connective_and.inner (ih hcur hb rank.succ_ne_zero) hrank q k v
  | @or l q k v _ ih =>
    intro rank s b hcur hb hrank
    exact connective_or.inner (ih hcur hb rank.succ_ne_zero) hrank q k v

variable (env n) in
theorem root_eq (hcur : s.cur = some b) (hb : ∀ i ∈ b.opd, i < s.opdCnt) (q : ℕ) (k : String)
    (v : ℤ) : Root env n (.eq (.key q k) (.num v)) s b := by
  obtain ⟨s₁,s₂,c,hkey,hnum,hc⟩ := compared env n hcur hb 1 q k v
  let e : FilterExpr := .eq (.key q k) (.num v)
  let cmp : FepOperand := .icmpEQ (.field (.load (.pitem k)) 0) (.load (.int v))
  have hb₂ : ∀ i ∈ (BlockName.epilog s.opdCnt).opd, i < s₂.opdCnt := by
    simp [BlockName.opd,hc.opdCnt]
  let own : FepCode := [(.epilog s.opdCnt,[.br (.cmpEq s₂.opdCnt)]),(.cmpEq s₂.opdCnt,
    s₂.allocStore (.cmpEqRes s₂.opdCnt) cmp ++
      [.condBr (.load (.cmpEqRes s₂.opdCnt)) .filterConsume .filterFalse])]
  refine ⟨s₂.afterPredicate e (.cmpEqRes s₂.opdCnt) own none,c ++ own,?_,?_,fun ops => ?_⟩
  · simp only [FilterExpr.accept,Option.bind_eq_bind] at hkey hnum ⊢
    rw [hkey,Option.bind_some,hnum,Option.bind_some]
    exact hc.visitEq.trans (predicate_root hc.cur)
  · exact (congrArg (· ++ own) hc.code).trans (List.append_assoc ..)
  · have hown : Leads env n s₂ (.epilog s.opdCnt) ops own
        (fun st _ => decide (st.value k = some (v % 2^64).toNat)) :=
      Leads.root rfl (fun σ st xs => hc.eval) hb₂ (rfl : (BlockName.cmpEq s₂.opdCnt).opd = _) rfl
    refine cast ?_ (hc.leads ops _ _ hown)
    congr 1
    funext st xs
    simp only [FilterExpr.fepEval]
    cases st.lookup env.db k <;> rfl

variable (env n) in
theorem root_of_compares (he : e.Compares) (hcur : s.cur = some b)
    (hb : ∀ i ∈ b.opd, i < s.opdCnt) : Root env n e s b := by
  cases he with
  | @eq q k v => exact root_eq env n hcur hb q k v
  | @and l q k v hl =>
    exact connective_and.root (inner_of_compares env n hl hcur hb Nat.one_ne_zero) q k v
  | @or l q k v hl =>
    exact connective_or.root (inner_of_compares env n hl hcur hb Nat.one_ne_zero) q k v

theorem init_holds (σ : FepCell → Val) :
    Holds env n .init [] σ ⟨fun _ => none,env.db.propertySets n⟩ [] where
  ready := ⟨⟨_,env.db.propertySets_chain n,if_neg List.not_mem_nil⟩,fun hmem => (nomatch hmem)⟩
  known k := by simp [FepVisitor.init]
  value k w hw := nomatch hw
  int c hc := nomatch hc
  fresh cell hcell := nomatch hcell
  results := .nil

end FepVisitor

/-- In every run on the node the filter ends at the block for this result. -/
def FepBranches (env : Env) (n : ℕ) (code : FepCode) (x : Bool) : Prop :=
  ∀ σ, ∃ σ', Reaches (fepStep env (.node n) code.body) (.enter .filterEntry σ)
    (.enter (if x then .filterConsume else .filterFalse) σ')

theorem FilterExpr.Compares.fepBranches (he : e.Compares) (env : Env) (n : ℕ) :
    ∃ code, e.fepCode env.db = some code ∧ FepBranches env n code (e.fepPasses env.db n) := by
  obtain ⟨s,c,haccept,hcode,hleads⟩ :=
    root_of_compares env n (s := .init) he rfl fun i hi => nomatch hi
  refine ⟨c,by rw [fepCode,haccept,Option.map_some,hcode]; rfl,fun σ => ?_⟩
  obtain ⟨σ',hrun⟩ := hleads [] c.body σ _ [] (fun _ _ _ _ => rfl) (init_holds σ)
  exact ⟨σ',Reaches.head rfl hrun⟩

end GraphQueryCompiler
