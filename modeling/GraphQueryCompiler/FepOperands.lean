import GraphQueryCompiler.LookupOrder

/-!
# The values of consumer functions

What the cells of a compiled filter hold at the insertion point of its visitor. A filter looks its
keys up one behind the other, and for a key that occurs twice it keeps the item of the first lookup.
-/

namespace GraphQueryCompiler
open StepMachine FepVisitor ForwardSearch

structure FepSearch where
  value : String → Option ℕ
  left : List ℕ

def GraphDb.keyValue (db : GraphDb) (p : ℕ) (key : String) : Option ℕ :=
  (db.keyIndex p (db.getCode key)).map fun j => ((db.propertySet p).items j).value

def FepSearch.lookup (db : GraphDb) (key : String) (st : FepSearch) : Option FepSearch :=
  match seek db.hasKey key st.left with
  | [] => none
  | p :: l =>
    some ⟨if (st.value key).isSome then st.value
      else Function.update st.value key (db.keyValue p key),p :: l⟩

namespace FilterExpr

/-- A lookup that fails ends the evaluation. -/
def fepEval (db : GraphDb) : FilterExpr → FepSearch → Option (Bool × FepSearch)
  | .eq (.key _ k) (.num c), st => do
    let st ← st.lookup db k
    return (st.value k = some (c % 2^64).toNat,st)
  | .and l r, st => do
    let (x,st) ← l.fepEval db st
    let (y,st) ← r.fepEval db st
    return (x && y,st)
  | .or l r, st => do
    let (x,st) ← l.fepEval db st
    let (y,st) ← r.fepEval db st
    return (x || y,st)
  | _, _ => none

def fepPasses (db : GraphDb) (n : ℕ) (e : FilterExpr) : Bool :=
  ((e.fepEval db ⟨fun _ => none,db.propertySets n⟩).map Prod.fst).getD false

/-- Comparisons of keys with integers, of which every connective has one to its right. -/
inductive Compares : FilterExpr → Prop
  | eq {i : ℕ} {k : String} {c : ℤ} : Compares (.eq (.key i k) (.num c))
  | and {l : FilterExpr} {i : ℕ} {k : String} {c : ℤ} : Compares l →
      Compares (.and l (.eq (.key i k) (.num c)))
  | or {l : FilterExpr} {i : ℕ} {k : String} {c : ℤ} : Compares l →
      Compares (.or l (.eq (.key i k) (.num c)))

end FilterExpr

def FepCell.resultOf : FepCell → Option ℕ
  | .cmpEqRes i | .cmpAndRes i | .cmpOrRes i => some i
  | _ => none

variable {env : Env} {fn : BlockName → List FepInstr} {σ σ' : FepCell → Val} {b block : BlockName}
  {c later : FepCode} {n d i j rank : ℕ} {db : GraphDb} {e l r : FilterExpr}
  {s s' s₁ : FepVisitor} {key : String} {cell res pitem rhsAlloc : FepCell} {val : FepOperand}
  {ops : List ℕ} {st : FepSearch} {xs : List Bool} {is : List FepInstr}

namespace FepVisitor

theorem genVals_alloc : (s.alloc cell).genVals = s.genVals := by
  unfold alloc
  split_ifs <;> rfl

theorem finishBlock_eq {o : Option BlockName} (hcur : s.cur = some b) :
    s.finishBlock is c o = some { s with code := s.code ++ (b,is) :: c, cur := o } := by
  rw [finishBlock,hcur]
  rfl

variable (is) in
theorem insert_eq (hcur : s.cur = some b) : ∃ c, s.insert is =
    some { s with code := s.code ++ c } ∧ c.body b = is ∧ ∀ blk ≠ b, c.body blk = [] := by
  unfold FepVisitor.insert
  split_ifs with his
  · exact ⟨[],by rw [List.append_nil],his.symm,fun _ _ => rfl⟩
  · rw [hcur]
    refine ⟨[(b,is)],rfl,?_,fun blk hblk => ?_⟩
    · rw [FepCode.body_cons_self,FepCode.body_nil,List.append_nil]
    · rw [FepCode.body_cons_of_ne hblk.symm,FepCode.body_nil]

def predicate (s : FepVisitor) (rank : ℕ) (e : FilterExpr) (res : FepCell) (block : BlockName)
    (val : FepOperand) : Option FepVisitor :=
  (((s.push e).alloc res).setGenVal s.opdCnt res).finishPredicate rank s.opdCnt block
    (s.allocStore res val)

theorem visitEq_eq {f : Option FopType} {T : List StackEntry}
    (hstack : s.exprStack = ⟨some .INT,j⟩ :: ⟨f,i⟩ :: T) (hi : s.genVals i = some pitem)
    (hj : s.genVals j = some rhsAlloc) : s.visitEq rank l r =
      s.predicate rank (.eq l r) (.cmpEqRes s.opdCnt) (.cmpEq s.opdCnt)
        (.icmpEQ (.field (.load pitem) 0) (.load rhsAlloc)) := by
  have hpitem : (s.push (.eq l r)).genVals i = some pitem := hi
  have hrhs : (s.push (.eq l r)).genVals j = some rhsAlloc := hj
  have hpush : (s.push (.eq l r)).exprStack =
      ⟨some .OP,s.opdCnt⟩ :: ⟨some .INT,j⟩ :: ⟨f,i⟩ :: T := congrArg (List.cons _) hstack
  simp only [visitEq,hpush,List.getElem?_cons_succ,List.getElem?_cons_zero,Option.bind_eq_bind,
    Option.bind_some,hpitem,hrhs]
  rfl

theorem visitBool_eq {op : FepOperand → FepOperand → FepOperand} {res : ℕ → FepCell}
    {block : ℕ → BlockName} {f : Option FopType} {x y : StackEntry} {T : List StackEntry}
    (hstack : s.exprStack = ⟨some .OP,j⟩ :: x :: y :: ⟨f,i⟩ :: T) (hi : s.genVals i = some pitem)
    (hj : s.genVals j = some rhsAlloc) : s.visitBool op res block rank e =
      s.predicate rank e (res s.opdCnt) (block s.opdCnt) (op (.load pitem) (.load rhsAlloc)) := by
  have hlhs : (s.push e).genVals i = some pitem := hi
  have hrhs : (s.push e).genVals j = some rhsAlloc := hj
  have hpush : (s.push e).exprStack =
      ⟨e.ftype,s.opdCnt⟩ :: ⟨some .OP,j⟩ :: x :: y :: ⟨f,i⟩ :: T := congrArg (List.cons _) hstack
  have hoffset : FepContext.boolOffset (s.push e).exprStack 1 0 = some 0 := by
    rw [hpush,FepContext.boolOffset]
    simp
  simp only [visitBool,hoffset,Option.bind_eq_bind,Option.bind_some]
  simp only [hpush,List.getElem?_cons_succ,List.getElem?_cons_zero,Option.bind_some,hlhs,hrhs,
    Nat.add_zero,Nat.reducePow]
  rfl

def afterPredicate (s : FepVisitor) (e : FilterExpr) (res : FepCell) (code : FepCode)
    (cur : Option BlockName) : FepVisitor :=
  { ((s.push e).alloc res).setGenVal s.opdCnt res with code := s.code ++ code, cur := cur }

theorem predicate_inner (hcur : s.cur = some b) (hrank : rank ≠ 0) :
    s.predicate rank e res block val = some (s.afterPredicate e res
      [(b,[.br block]),(block,s.allocStore res val ++ [.br (.epilog s.opdCnt)])]
      (some (.epilog s.opdCnt))) := by
  have hcur' : (((s.push e).alloc res).setGenVal s.opdCnt res).cur = some b :=
    cur_alloc.trans hcur
  have hcode : (((s.push e).alloc res).setGenVal s.opdCnt res).code = s.code := code_alloc
  rw [predicate,finishPredicate,if_neg hrank,finishBlock_eq hcur',hcode]
  rfl

theorem predicate_root (hcur : s.cur = some b) : s.predicate 0 e res block val =
    some (s.afterPredicate e res [(b,[.br block]),(block,s.allocStore res val ++
      [.condBr (.load res) .filterConsume .filterFalse])] none) := by
  have hcur' : (((s.push e).alloc res).setGenVal s.opdCnt res).cur = some b :=
    cur_alloc.trans hcur
  have hcode : (((s.push e).alloc res).setGenVal s.opdCnt res).code = s.code := code_alloc
  have hval : (((s.push e).alloc res).setGenVal s.opdCnt res).genVals s.opdCnt = some res :=
    Function.update_self ..
  rw [predicate,finishPredicate,if_pos rfl,hval]
  simp only [Option.bind_eq_bind,Option.bind_some]
  rw [finishBlock_eq hcur',hcode]
  rfl

structure Holds (env : Env) (n : ℕ) (s : FepVisitor) (ops : List ℕ) (σ : FepCell → Val)
    (st : FepSearch) (xs : List Bool) : Prop where
  ready : Ready env n s σ st.left
  known : ∀ k, .pitem k ∈ s.allocStack ↔ (st.value k).isSome
  value : ∀ k w, st.value k = some w → loadField env.db (σ (.pitem k)) 0 = .word w
  int : ∀ c, .int c ∈ s.allocStack → σ (.int c) = .word (c % 2^64).toNat
  fresh : ∀ cell ∈ s.allocStack, ∀ i ∈ cell.resultOf, i < s.opdCnt
  results : List.Forall₂ (fun i x => i < s.opdCnt ∧
    ∃ cell, s.genVals i = some cell ∧ cell.resultOf = some i ∧ σ cell = .bool x) ops xs

def Leads (env : Env) (n : ℕ) (s : FepVisitor) (b : BlockName) (ops : List ℕ) (later : FepCode)
    (K : FepSearch → List Bool → Bool) : Prop :=
  ∀ (fn : BlockName → List FepInstr) (σ : FepCell → Val) (st : FepSearch) (xs : List Bool),
    (∀ blk i, blk.opd = some i → s.opdCnt ≤ i → fn blk = later.body blk) →
    Holds env n s ops σ st xs → ∃ σ', Reaches (fepStep env (.node n) fn)
      (.run (later.body b) σ) (.enter (if K st xs then .filterConsume else .filterFalse) σ')

variable {K : FepSearch → List Bool → Bool}

theorem Holds.results_keep (h : Holds env n s ops σ st xs) (hopd : s.opdCnt ≤ s'.opdCnt)
    (hvals : ∀ i < s.opdCnt, s'.genVals i = s.genVals i)
    (hσ : ∀ cell i, cell.resultOf = some i → i < s.opdCnt → σ' cell = σ cell) :
    List.Forall₂ (fun i x => i < s'.opdCnt ∧ ∃ cell, s'.genVals i = some cell ∧
      cell.resultOf = some i ∧ σ' cell = .bool x) ops xs := by
  refine h.results.imp fun i x hx => ?_
  obtain ⟨hi,cell,hcell,hres,hval⟩ := hx
  exact ⟨Nat.lt_of_lt_of_le hi hopd,cell,(hvals i hi).trans hcell,hres,
    (hσ cell i hres hi).trans hval⟩

section Predicate
theorem mem_afterPredicate {cur : Option BlockName} :
    cell ∈ (s.afterPredicate e res c cur).allocStack ↔ cell = res ∨ cell ∈ s.allocStack := mem_alloc

theorem opd_afterPredicate (hnext : e.nextOpd s.opdCnt = s.opdCnt+1) {cur : Option BlockName} :
    (s.afterPredicate e res c cur).opdCnt = s.opdCnt+1 := opdCnt_alloc.trans hnext

theorem br_reaches {roi : Val} (blk : BlockName) (rest : List FepInstr) :
    Reaches (fepStep env roi fn) (.run (.br blk :: rest) σ) (.run (fn blk) σ) :=
  Reaches.head (b := .enter blk σ) rfl (Reaches.single rfl)

variable (hres : res.resultOf = some s.opdCnt) (hnext : e.nextOpd s.opdCnt = s.opdCnt+1)
include hres

theorem Holds.allocStore_fresh (h : Holds env n s ops σ st xs) :
    s.allocStore res val = [.store res val] :=
  if_neg fun hmem => Nat.lt_irrefl _ (h.fresh res hmem s.opdCnt hres)

include hnext in
theorem Holds.afterPredicate (h : Holds env n s ops σ st xs) (d : ℕ) (x : Bool)
    {cur : Option BlockName} : Holds env n (s.afterPredicate e res c cur)
      (s.opdCnt :: ops.drop d) (Function.update σ res (.bool x)) st (x :: xs.drop d) := by
  have hne : ∀ cell, cell.resultOf = none → cell ≠ res := by
    rintro cell hcell rfl
    exact absurd (hcell.symm.trans hres) (by simp)
  have hlt : s.opdCnt < (s.afterPredicate e res c cur).opdCnt := by
    have hopd : (s.afterPredicate e res c cur).opdCnt = e.nextOpd s.opdCnt := opdCnt_alloc
    omega
  have hvals : ∀ i, (s.afterPredicate e res c cur).genVals i =
      Function.update s.genVals s.opdCnt (some res) i := by
    intro i
    exact congrArg (fun f => Function.update f s.opdCnt (some res) i) genVals_alloc
  have hmem : ∀ cell, cell.resultOf = none →
      (cell ∈ (s.afterPredicate e res c cur).allocStack ↔ cell ∈ s.allocStack) := fun cell hcell =>
    mem_afterPredicate.trans (or_iff_right (hne cell hcell))
  have hkeep : ∀ cell i, cell.resultOf = some i → i < s.opdCnt →
      Function.update σ res (.bool x) cell = σ cell := by
    rintro cell i hcell hi
    refine Function.update_of_ne ?_ ..
    rintro rfl
    exact absurd (Option.some.inj (hcell.symm.trans hres)) (by omega)
  refine ⟨h.ready.keeps (hmem _ rfl) (hmem _ rfl)
    (KeepsSearch.update (hne _ rfl).symm (hne _ rfl).symm),fun k => ?_,fun k w hw => ?_,
    fun c hc => ?_,fun cell hcell i hi => ?_,List.Forall₂.cons ?_ ?_⟩
  · rw [hmem _ rfl,h.known]
  · rw [Function.update_of_ne (hne _ rfl)]
    exact h.value k w hw
  · rw [Function.update_of_ne (hne _ rfl)]
    exact h.int c ((hmem _ rfl).1 hc)
  · rcases mem_afterPredicate.1 hcell with rfl | hcell
    · exact Option.some.inj (hres.symm.trans hi) ▸ hlt
    · exact Nat.lt_trans (h.fresh cell hcell i hi) hlt
  · refine ⟨hlt,res,?_,hres,Function.update_self ..⟩
    rw [hvals,Function.update_self]
  · refine List.forall₂_drop d (h.results_keep (Nat.le_of_lt hlt) (fun i hi => ?_) hkeep)
    rw [hvals,Function.update_of_ne (Nat.ne_of_lt hi)]

variable {x : FepSearch → List Bool → Bool}
  (hval : ∀ σ st xs, Holds env n s ops σ st xs → val.eval env (.node n) σ = .bool (x st xs))
include hval

theorem Holds.predicate_reaches (h : Holds env n s ops σ st xs) {t : FepInstr}
    {rest : List FepInstr} (hblock : fn block = s.allocStore res val ++ [t] ++ rest)
    (rest' : List FepInstr) :
    Reaches (fepStep env (.node n) fn) (.run (.br block :: rest') σ)
      (.run (t :: rest) (Function.update σ res (.bool (x st xs)))) := by
  refine (br_reaches block rest').trans ?_
  rw [hblock,h.allocStore_fresh hres,← hval σ st xs h]
  exact Reaches.single rfl

include hnext in
theorem Leads.inner (hb : ∀ i ∈ b.opd, i < s.opdCnt) (hblock : block.opd = some s.opdCnt)
    (hepilog : block ≠ .epilog s.opdCnt)
    (hc : c = [(b,[.br block]),(block,s.allocStore res val ++ [.br (.epilog s.opdCnt)])])
    (h : Leads env n (s.afterPredicate e res c (some (.epilog s.opdCnt))) (.epilog s.opdCnt)
      (s.opdCnt :: ops.drop d) later K) :
    Leads env n s b ops (c ++ later) (fun st xs => K st (x st xs :: xs.drop d)) := by
  have hne : ∀ blk i, blk.opd = some i → s.opdCnt ≤ i → b ≠ blk := by
    rintro blk i hblk hi rfl
    exact absurd (hb i hblk) (by omega)
  intro fn σ st xs hfn hs
  have hown : fn block = s.allocStore res val ++ [.br (.epilog s.opdCnt)] ++ later.body block := by
    rw [hfn block _ hblock (Nat.le_refl _),hc,FepCode.body_append,
      FepCode.body_cons_of_ne (hne _ _ hblock (Nat.le_refl _)),FepCode.body_cons_self,
      FepCode.body_nil,List.append_nil]
  have hrest : ∀ blk i, blk.opd = some i → (s.afterPredicate e res c
      (some (.epilog s.opdCnt))).opdCnt ≤ i → fn blk = later.body blk := by
    intro blk i hblk hi
    rw [opd_afterPredicate hnext] at hi
    have hblk' : block ≠ blk := by
      rintro rfl
      exact absurd (Option.some.inj (hblock.symm.trans hblk)) (by omega)
    rw [hfn blk i hblk (by omega),hc,FepCode.body_append,
      FepCode.body_cons_of_ne (hne _ _ hblk (by omega)),FepCode.body_cons_of_ne hblk',
      FepCode.body_nil,List.nil_append]
  have hend : fn (.epilog s.opdCnt) = later.body (.epilog s.opdCnt) := by
    rw [hfn _ s.opdCnt rfl (Nat.le_refl _),hc,FepCode.body_append,
      FepCode.body_cons_of_ne (hne _ _ rfl (Nat.le_refl _)),FepCode.body_cons_of_ne hepilog,
      FepCode.body_nil,List.nil_append]
  obtain ⟨σ',hrun⟩ := h fn _ st _ hrest (hs.afterPredicate hres hnext d (x st xs))
  rw [hc,FepCode.body_append,FepCode.body_cons_self,List.append_assoc]
  refine ⟨σ',(hs.predicate_reaches hres hval hown _).trans ((br_reaches _ _).trans ?_)⟩
  rw [hend]
  exact hrun

theorem Leads.root (hb : ∀ i ∈ b.opd, i < s.opdCnt) (hblock : block.opd = some s.opdCnt)
    (hc : c = [(b,[.br block]),(block,s.allocStore res val ++
      [.condBr (.load res) .filterConsume .filterFalse])]) : Leads env n s b ops c x := by
  have hne : b ≠ block := by
    rintro rfl
    exact Nat.lt_irrefl _ (hb _ hblock)
  intro fn σ st xs hfn hs
  have hown : fn block = s.allocStore res val ++
      [.condBr (.load res) .filterConsume .filterFalse] ++ [] := by
    rw [hfn block _ hblock (Nat.le_refl _),hc,FepCode.body_cons_of_ne hne,FepCode.body_cons_self,
      FepCode.body_nil]
  have hrun := hs.predicate_reaches hres hval hown (FepCode.body [(block,s.allocStore res val ++
    [.condBr (.load res) .filterConsume .filterFalse])] b)
  rw [hc,FepCode.body_cons_self]
  refine ⟨Function.update σ res (.bool (x st xs)),hrun.trans (Reaches.single ?_)⟩
  cases hx : x st xs with
  | true => simp only [fepStep,FepOperand.eval,Function.update_self,if_true]
  | false => simp only [fepStep,FepOperand.eval,Function.update_self,Bool.false_eq_true,if_false]

end Predicate

structure Leaf (s s₁ : FepVisitor) (f : FopType) (cell : FepCell) (cells : List FepCell)
    (b : BlockName) (c : FepCode) : Prop where
  code : s₁.code = s.code ++ c
  cur : s₁.cur = some b
  opdCnt : s₁.opdCnt = s.opdCnt+1
  exprStack : s₁.exprStack = ⟨some f,s.opdCnt⟩ :: s.exprStack
  genVals : s₁.genVals = Function.update s.genVals s.opdCnt (some cell)
  mem : ∀ cell', cell' ∈ s₁.allocStack ↔ cell' ∈ cell :: cells ∨ cell' ∈ s.allocStack

section Leaf
variable {f : FopType} {cells : List FepCell} {b₁ : BlockName}

theorem Leaf.genVals_of_lt (h : Leaf s s₁ f cell cells b c) (hi : i < s.opdCnt) :
    s₁.genVals i = s.genVals i := by
  rw [h.genVals,Function.update_of_ne (Nat.ne_of_lt hi)]

theorem Leaf.genVals_self (h : Leaf s s₁ f cell cells b c) : s₁.genVals s.opdCnt = some cell := by
  rw [h.genVals,Function.update_self]

theorem Leaf.results (h : Leaf s s₁ f cell cells b c) (hs : Holds env n s ops σ st xs)
    (hσ : ∀ cell i, cell.resultOf = some i → σ' cell = σ cell) :
    List.Forall₂ (fun i x => i < s₁.opdCnt ∧ ∃ cell, s₁.genVals i = some cell ∧
      cell.resultOf = some i ∧ σ' cell = .bool x) ops xs :=
  hs.results_keep (h.opdCnt ▸ Nat.le_succ _) (fun _ => h.genVals_of_lt)
    fun cell i hcell _ => hσ cell i hcell

theorem Leaf.fresh (h : Leaf s s₁ f cell cells b c) (hs : Holds env n s ops σ st xs)
    (hcells : ∀ cell' ∈ cell :: cells, cell'.resultOf = none) :
    ∀ cell' ∈ s₁.allocStack, ∀ i ∈ cell'.resultOf, i < s₁.opdCnt := by
  intro cell' hmem i hi
  rcases (h.mem cell').1 hmem with hnew | hold
  · rw [hcells cell' hnew] at hi
    cases hi
  · have := hs.fresh cell' hold i hi
    have := h.opdCnt
    omega

theorem visitNumber_leaf (hcur : s.cur = some b) (value : ℤ) : ∃ s₁ c,
    s.visitNumber value = some s₁ ∧ Leaf s s₁ .INT (.int value) [] b c ∧
      c.body b = s.allocStore (.int value) (.const (value % 2^64).toNat) ∧
      ∀ blk ≠ b, c.body blk = [] := by
  have hcur' : (((s.push (.num value)).alloc (.int value)).setGenVal s.opdCnt
      (.int value)).cur = some b := cur_alloc.trans hcur
  obtain ⟨c,hins,hbody,hother⟩ := insert_eq
    (s.allocStore (.int value) (.const (value % 2^64).toNat)) hcur'
  refine ⟨_,c,hins,⟨congrArg (· ++ c) code_alloc,hcur',opdCnt_alloc,exprStack_alloc,
    congrArg (fun f => Function.update f s.opdCnt _) genVals_alloc,fun cell' => ?_⟩,hbody,hother⟩
  rw [List.mem_singleton]
  exact mem_alloc

theorem Leads.number {value : ℤ} (hl : Leaf s s₁ .INT (.int value) [] b c)
    (hb : ∀ i ∈ b.opd, i < s.opdCnt)
    (hbody : c.body b = s.allocStore (.int value) (.const (value % 2^64).toNat))
    (hother : ∀ blk ≠ b, c.body blk = []) (h : Leads env n s₁ b ops later K) :
    Leads env n s b ops (c ++ later) K := by
  intro fn σ st xs hfn hs
  let σ₁ := if .int value ∈ s.allocStack then σ
    else Function.update σ (.int value) (.word (value % 2^64).toNat)
  have hrun : Traced (fepStep env (.node n) fn) lookupEvents []
      (.run (s.allocStore (.int value) (.const (value % 2^64).toNat) ++ later.body b) σ)
      (.run (later.body b) σ₁) := allocStore_traced ..
  have hkeep : ∀ cell, cell ≠ .int value → σ₁ cell = σ cell := by
    intro cell hcell
    by_cases hmem : .int value ∈ s.allocStack <;> simp [σ₁,hmem,hcell]
  have hmem : ∀ cell, cell ≠ .int value → (cell ∈ s₁.allocStack ↔ cell ∈ s.allocStack) := by
    intro cell hcell
    rw [hl.mem,List.mem_singleton,or_iff_right hcell]
  have hrest : ∀ blk i, blk.opd = some i → s₁.opdCnt ≤ i → fn blk = later.body blk := by
    intro blk i hblk hi
    rw [hl.opdCnt] at hi
    have hne : blk ≠ b := by
      rintro rfl
      exact absurd (hb i hblk) (by omega)
    rw [hfn blk i hblk (by omega),FepCode.body_append,hother blk hne,List.nil_append]
  have hs₁ : Holds env n s₁ ops σ₁ st xs := by
    refine ⟨hs.ready.keeps (hmem _ (by simp)) (hmem _ (by simp)) ⟨hkeep _ (by simp),
      hkeep _ (by simp)⟩,fun k => ?_,fun k w hw => ?_,fun v hv => ?_,
      hl.fresh hs (List.forall_mem_singleton.2 rfl),hl.results hs fun cell i hcell => hkeep cell ?_⟩
    · rw [hmem _ (by simp),hs.known]
    · rw [hkeep _ (by simp)]
      exact hs.value k w hw
    · by_cases hv' : v = value
      · subst hv'
        by_cases hold : .int v ∈ s.allocStack
        · simpa [σ₁,hold] using hs.int v hold
        · simp [σ₁,hold]
      · rw [hkeep _ (by simpa using hv')]
        exact hs.int v ((hmem _ (by simpa using hv')).1 hv)
    · rintro rfl
      cases hcell
  obtain ⟨σ',hend⟩ := h fn σ₁ st xs hrest hs₁
  rw [FepCode.body_append,hbody]
  exact ⟨σ',hrun.reaches.trans hend⟩

def keyCode (s : FepVisitor) (db : GraphDb) (b : BlockName) (key : String) : FepCode :=
  (b,[.br (.searchPitem s.opdCnt)]) :: keyBlocks s.opdCnt (db.getCode key)
    (s.allocStore .rhsUnknown (.const unknownId)) (s.allocStore .roiPlistAlloc (.field .roi 4))
    (s.allocStore (.pitem key) (.load (.curItem s.opdCnt)))

theorem visitKey_leaf (hcur : s.cur = some b) (db : GraphDb) (qrId : ℕ) (key : String) : ∃ s₁,
    s.visitKey db qrId key = some s₁ ∧ Leaf s s₁ .KEY (.pitem key) [.roiPlistAlloc,.rhsUnknown]
      (.epilog s.opdCnt) (s.keyCode db b key) := by
  let t := (((s.push (.key qrId key)).alloc .rhsUnknown).alloc .roiPlistAlloc).alloc (.pitem key)
  have hcur' : (t.setGenVal s.opdCnt (.pitem key)).cur = some b :=
    cur_alloc.trans (cur_alloc.trans (cur_alloc.trans hcur))
  refine ⟨_,finishBlock_eq hcur',⟨?_,rfl,?_,?_,?_,fun cell' => ?_⟩⟩
  · exact congrArg (· ++ _) (code_alloc.trans (code_alloc.trans code_alloc))
  · exact opdCnt_alloc.trans (opdCnt_alloc.trans opdCnt_alloc)
  · exact exprStack_alloc.trans (exprStack_alloc.trans exprStack_alloc)
  · exact congrArg (fun f => Function.update f s.opdCnt _)
      (genVals_alloc.trans (genVals_alloc.trans genVals_alloc))
  · have hmem : cell' ∈ t.allocStack ↔
        cell' = .pitem key ∨ cell' = .roiPlistAlloc ∨ cell' = .rhsUnknown ∨ cell' ∈ s.allocStack :=
      mem_alloc.trans (or_congr_right (mem_alloc.trans (or_congr_right mem_alloc)))
    simp only [List.mem_cons,List.not_mem_nil,or_false,or_assoc]
    exact hmem

theorem loadField_keyItem {p : ℕ} (h : db.hasKey key p) : ∃ w, db.keyValue p key = some w ∧
    loadField db (db.keyItem p (db.getCode key)) 0 = .word w := by
  obtain ⟨j,hj⟩ := Option.isSome_iff_exists.1 h
  refine ⟨((db.propertySet p).items j).value,?_,?_⟩
  · rw [GraphDb.keyValue,hj]
    rfl
  · rw [GraphDb.keyItem,hj]
    simp [loadField]

theorem Leaf.key_holds {k : String} {p : ℕ} {ps : List ℕ}
    (hl : Leaf s s₁ .KEY (.pitem k) [.roiPlistAlloc,.rhsUnknown] b₁ c)
    (hs : Holds env n s ops σ st xs) (hseek : seek env.db.hasKey k st.left = p :: ps)
    (hready : Ready env n s₁ σ' (p :: ps))
    (hpitem : σ' (.pitem k) = if .pitem k ∈ s.allocStack then σ (.pitem k)
      else env.db.keyItem p (env.db.getCode k))
    (hframe : ∀ c, ¬ c.OfLookup s.opdCnt → c ≠ .pitem k → σ' c = σ c) :
    ∃ st₁, st.lookup env.db k = some st₁ ∧ Holds env n s₁ ops σ' st₁ xs := by
  obtain ⟨w,hw,hfield⟩ := loadField_keyItem (has_of_seek hseek)
  have hmem : ∀ k', .pitem k' ∈ s₁.allocStack ↔ k' = k ∨ .pitem k' ∈ s.allocStack := by
    intro k'
    simp [hl.mem]
  have hint : ∀ v, .int v ∈ s₁.allocStack → σ' (.int v) = .word (v % 2^64).toNat := by
    intro v hv
    rw [hframe _ id (by simp)]
    exact hs.int v (by simpa [hl.mem] using hv)
  have hfresh := hl.fresh hs (by simp [FepCell.resultOf])
  have hkeep : ∀ cell i, FepCell.resultOf cell = some i → σ' cell = σ cell := by
    intro cell i hcell
    cases cell with
    | cmpEqRes | cmpAndRes | cmpOrRes => exact hframe _ id (by simp)
    | _ => cases hcell
  have hresults := hl.results hs hkeep
  refine ⟨_,by rw [FepSearch.lookup,hseek],hready,fun k' => ?_,fun k' w' hw' => ?_,hint,hfresh,
    hresults⟩
  all_goals have hknown := hs.known k
  · rw [hmem,hs.known]
    split_ifs with hk
    · exact or_iff_right_of_imp fun he => he ▸ hk
    · by_cases he : k' = k
      · simp [he,hw]
      · simp [he]
  · split_ifs at hw' with hk
    · by_cases he : k' = k
      · subst he
        rw [hpitem,if_pos (hknown.2 hk)]
        exact hs.value k' w' hw'
      · rw [hframe _ id (by simpa using he)]
        exact hs.value k' w' hw'
    · by_cases he : k' = k
      · subst he
        have hnew : Function.update st.value k' (env.db.keyValue p k') k' = some w :=
          (Function.update_self ..).trans hw
        obtain rfl : w = w' := Option.some.inj (hnew.symm.trans hw')
        rw [hpitem,if_neg (fun h => hk (hknown.1 h))]
        exact hfield
      · rw [hframe _ id (by simpa using he)]
        exact hs.value k' w' (by simpa [he] using hw')

theorem Leads.lookup {k : String} (hl : Leaf s s₁ .KEY (.pitem k) [.roiPlistAlloc,.rhsUnknown]
      (.epilog s.opdCnt) (s.keyCode env.db b k))
    (hb : ∀ i ∈ b.opd, i < s.opdCnt) (h : Leads env n s₁ (.epilog s.opdCnt) ops later K) :
    Leads env n s b ops (s.keyCode env.db b k ++ later)
      (fun st xs => ((st.lookup env.db k).map fun st => K st xs).getD false) := by
  intro fn σ st xs hfn hs
  obtain ⟨hown,hrest⟩ := keyBlocks_body hb hfn
  rw [← hl.opdCnt] at hrest
  obtain ⟨hnone,hsome⟩ := lookup_traced hs.ready
    (lookupBlocks fun blk hblk => ⟨later.body blk,(hown blk hblk).symm⟩) rfl
  have hbegin : ∀ rest, Reaches (fepStep env (.node n) fn)
      (.run (.br (.searchPitem s.opdCnt) :: rest) σ) (.enter (.searchPitem s.opdCnt) σ) :=
    fun rest => Reaches.single rfl
  rw [FepCode.body_append,keyCode,FepCode.body_cons_self,List.append_assoc]
  cases hseek : seek env.db.hasKey k st.left with
  | nil =>
    obtain ⟨σ₁,hrun⟩ := hnone hseek
    have hlookup : st.lookup env.db k = none := by
      rw [FepSearch.lookup,hseek]
    simp only [hlookup]
    exact ⟨σ₁,(hbegin _).trans hrun.reaches⟩
  | cons p ps =>
    obtain ⟨σ₁,hlist,hunknown,hchain,hpitem,hframe,hrun⟩ := hsome p ps hseek
    have hmem : .roiPlistAlloc ∈ s₁.allocStack := by simp [hl.mem]
    have hready : Ready env n s₁ σ₁ (p :: ps) :=
      ⟨⟨p,hchain,by rw [if_pos hmem,hlist]⟩,fun _ => hunknown⟩
    obtain ⟨st₁,hlookup,hs₁⟩ := hl.key_holds hs hseek hready hpitem hframe
    obtain ⟨σ₂,hend⟩ := h fn σ₁ st₁ xs hrest hs₁
    have hepilog : fn (.epilog s.opdCnt) = later.body (.epilog s.opdCnt) := by
      rw [hown _ rfl,FepCode.body_eq_nil,List.nil_append]
      simp [keyBlocks,whileLT]
    rw [hepilog] at hrun
    simp only [hlookup]
    exact ⟨σ₂,(hbegin _).trans (hrun.reaches.trans hend)⟩

end Leaf

end FepVisitor

end GraphQueryCompiler
