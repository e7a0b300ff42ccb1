import GraphQueryCompiler.FepRuns
import GraphQueryCompiler.Lib.ForwardSearch

/-!
# The lookup of a key

The blocks of a key go through the property sets of a node up to the first that has an item with
the key. They begin at the set in `roi_plist_alloc` and leave there the one that they have found.
-/

namespace GraphQueryCompiler
open StepMachine FepVisitor LinkedChain ForwardSearch

namespace GraphDb
variable (db : GraphDb)

def keyIndex (p code : ℕ) : Option (Fin 3) :=
  (List.finRange 3).find? fun j => ((db.propertySet p).items j).key = code

def hasKey (key : String) (p : ℕ) : Bool := (db.keyIndex p (db.getCode key)).isSome

def keyItem (p code : ℕ) : Val := ((db.keyIndex p code).map fun j => .item p j).getD .undef

end GraphDb

def FepCell.OfLookup (n : ℕ) : FepCell → Prop
  | .rhsUnknown | .roiPlistAlloc => True
  | .curItemArr i | .curItem i | .curPset i | .loopCnt i | .maxCntAlloc i => i = n
  | _ => False

variable {env : Env} {roi : Val} {fn : BlockName → List FepInstr} {σ σ' : FepCell → Val}
  {is : List FepInstr} {b b' : BlockName} {c later : FepCode} {n i j p pcode rank : ℕ}
  {db : GraphDb} {e : FilterExpr} {s s' : FepVisitor} {key : String} {l : List ℕ}
  {ru rp pitem : List FepInstr}

variable (env roi) in
theorem enter_prefix (hfn : is <+: fn b) (hquiet : b.Quiet) (σ : FepCell → Val) : ∃ rest,
    Traced (fepStep env roi fn) lookupEvents [] (.enter b σ) (.run (is ++ rest) σ) := by
  obtain ⟨rest,hrest⟩ := hfn
  exact ⟨rest,hrest ▸ enter_traced hquiet⟩

theorem store_traced {cell : FepCell} {val : FepOperand} {v : Val} (rest : List FepInstr)
    (hval : val.eval env roi σ = v) : Traced (fepStep env roi fn) lookupEvents []
      (.run (.store cell val :: rest) σ) (.run rest (Function.update σ cell v)) :=
  hval ▸ .silent rfl rfl .refl

theorem condBr_traced {cond : FepOperand} {t f : BlockName} {x : Bool} (rest : List FepInstr)
    (hcond : cond.eval env roi σ = .bool x) : Traced (fepStep env roi fn) lookupEvents []
      (.run (.condBr cond t f :: rest) σ) (.enter (if x then t else f) σ) := by
  refine .silent ?_ rfl .refl
  cases x with
  | true => simp only [fepStep,hcond,if_true]
  | false => simp only [fepStep,hcond,Bool.false_eq_true,if_false]

variable (env roi fn) in
theorem allocStore_traced (s : FepVisitor) (cell : FepCell) (val : FepOperand)
    (rest : List FepInstr) (σ : FepCell → Val) : Traced (fepStep env roi fn) lookupEvents []
      (.run (s.allocStore cell val ++ rest) σ) (.run rest
        (if cell ∈ s.allocStack then σ else Function.update σ cell (val.eval env roi σ))) := by
  unfold allocStore
  split_ifs
  · exact .refl
  · exact .silent rfl rfl .refl

structure LookupBlocks (fn : BlockName → List FepInstr) (n pcode : ℕ)
    (ru rp pitem : List FepInstr) : Prop where
  searchPitem : ru ++ [.br (.isNode n)] <+: fn (.searchPitem n)
  isNode : rp ++ [.br (.whileCondition (2*n))] <+: fn (.isNode n)
  setCondition : [.condBr (.icmpULT (.load .roiPlistAlloc) (.load .rhsUnknown))
    (.whileBody (2*n)) .filterFalse] <+: fn (.whileCondition (2*n))
  setBody : [.store (.curPset n) (.psetGetItemAt (.load .roiPlistAlloc)),
    .store (.curItemArr n) (.items (.load (.curPset n))), .store (.loopCnt n) (.const 0),
    .br (.forEachPitem n)] <+: fn (.whileBody (2*n))
  forEachPitem : [.store (.maxCntAlloc n) (.const 3), .br (.whileCondition (2*n+1))] <+:
    fn (.forEachPitem n)
  itemCondition : [.condBr (.icmpULT (.load (.loopCnt n)) (.load (.maxCntAlloc n)))
    (.whileBody (2*n+1)) (.nextPropIt n)] <+: fn (.whileCondition (2*n+1))
  itemBody : [.store (.curItem n) (.itemAt (.load (.curItemArr n)) (.load (.loopCnt n))),
    .condBr (.icmpEQ (.field (.itemAt (.load (.curItemArr n)) (.load (.loopCnt n))) 1)
      (.const pcode)) (.pitemFound n) (.forEachIncrement n)] <+: fn (.whileBody (2*n+1))
  forEachIncrement : [.store (.loopCnt n) (.add (.load (.loopCnt n)) (.const 1)),
    .br (.whileCondition (2*n+1))] <+: fn (.forEachIncrement n)
  nextPropIt : [.store .roiPlistAlloc (.field (.load (.curPset n)) 0),
    .br (.whileCondition (2*n))] <+: fn (.nextPropIt n)
  pitemFound : pitem ++ [.br (.epilog n)] <+: fn (.pitemFound n)

theorem lookupBlocks (h : ∀ blk, blk.opd = some n →
    (keyBlocks n pcode ru rp pitem).body blk <+: fn blk) :
    LookupBlocks fn n pcode ru rp pitem where
  searchPitem := by simpa [keyBlocks,whileLT,FepCode.body] using h (.searchPitem n) rfl
  isNode := by simpa [keyBlocks,whileLT,FepCode.body] using h (.isNode n) rfl
  setCondition := by
    simpa [keyBlocks,whileLT,FepCode.body] using h (.whileCondition (2*n)) (by simp [BlockName.opd])
  setBody := by
    simpa [keyBlocks,whileLT,FepCode.body] using h (.whileBody (2*n)) (by simp [BlockName.opd])
  forEachPitem := by simpa [keyBlocks,whileLT,FepCode.body] using h (.forEachPitem n) rfl
  itemCondition := by
    simpa [keyBlocks,whileLT,FepCode.body] using
      h (.whileCondition (2*n+1)) (by simp [BlockName.opd]; omega)
  itemBody := by
    simpa [keyBlocks,whileLT,FepCode.body] using
      h (.whileBody (2*n+1)) (by simp [BlockName.opd]; omega)
  forEachIncrement := by simpa [keyBlocks,whileLT,FepCode.body] using h (.forEachIncrement n) rfl
  nextPropIt := by simpa [keyBlocks,whileLT,FepCode.body] using h (.nextPropIt n) rfl
  pitemFound := by simpa [keyBlocks,whileLT,FepCode.body] using h (.pitemFound n) rfl

section Loops
variable (hb : LookupBlocks fn n pcode ru rp pitem)
include hb

variable (env roi) in
theorem item_traced {j : ℕ} (hlt : j < 3) (harr : σ (.curItemArr n) = .pset p)
    (hmax : σ (.maxCntAlloc n) = .word 3) (hcnt : σ (.loopCnt n) = .word j) :
    Traced (fepStep env roi fn) lookupEvents [] (.enter (.whileCondition (2*n+1)) σ)
      (.enter (if ((env.db.propertySet p).items ⟨j,hlt⟩).key = pcode then .pitemFound n
        else .forEachIncrement n) (Function.update σ (.curItem n) (.item p j))) := by
  obtain ⟨rest,hrun⟩ := enter_prefix env roi hb.itemCondition trivial σ
  obtain ⟨rest',hrun'⟩ := enter_prefix env roi hb.itemBody trivial σ
  have hcond : (FepOperand.icmpULT (.load (.loopCnt n)) (.load (.maxCntAlloc n))).eval env roi
      σ = .bool true := by
    simp [FepOperand.eval,hmax,hcnt,Val.icmpULT,hlt]
  have hitem : (FepOperand.itemAt (.load (.curItemArr n)) (.load (.loopCnt n))).eval env roi σ =
      .item p j := by
    simp [FepOperand.eval,harr,hcnt,Val.itemAt]
  have hcmp : (FepOperand.icmpEQ (.field (.itemAt (.load (.curItemArr n)) (.load (.loopCnt n))) 1)
      (.const pcode)).eval env roi (Function.update σ (.curItem n) (.item p j)) =
        .bool (((env.db.propertySet p).items ⟨j,hlt⟩).key = pcode) := by
    simp [FepOperand.eval,harr,hcnt,Val.itemAt,loadField,hlt,Val.icmpEQ]
  refine hrun.trans ((condBr_traced rest hcond).trans (hrun'.trans
    ((store_traced _ hitem).trans ?_)))
  simpa using condBr_traced rest' hcmp

variable (env roi) in
theorem increment_traced (hcnt : σ (.loopCnt n) = .word j) :
    Traced (fepStep env roi fn) lookupEvents [] (.enter (.forEachIncrement n) σ)
      (.enter (.whileCondition (2*n+1)) (Function.update σ (.loopCnt n) (.word (j+1)))) := by
  obtain ⟨rest,hrun⟩ := enter_prefix env roi hb.forEachIncrement trivial σ
  have hval : (FepOperand.add (.load (.loopCnt n)) (.const 1)).eval env roi σ = .word (j+1) := by
    simp [FepOperand.eval,hcnt,Val.add]
  exact hrun.trans ((store_traced _ hval).trans (.silent rfl rfl .refl))

variable (env roi p) in
theorem items_traced : ∀ (m j : ℕ) (σ : FepCell → Val), j+m = 3 →
    σ (.curItemArr n) = .pset p → σ (.maxCntAlloc n) = .word 3 → σ (.loopCnt n) = .word j →
    ∃ σ' found, (((List.finRange 3).drop j).find? fun j =>
        ((env.db.propertySet p).items j).key = pcode) = found ∧
      (∀ c, c ≠ .loopCnt n → c ≠ .curItem n → σ' c = σ c) ∧
      (∀ x : Fin 3, found = some x → σ' (.curItem n) = .item p x) ∧
      Traced (fepStep env roi fn) lookupEvents [] (.enter (.whileCondition (2*n+1)) σ)
        (.enter (if found.isSome then .pitemFound n else .nextPropIt n) σ') := by
  intro m
  induction m with
  | zero =>
    intro j σ hj harr hmax hcnt
    obtain rfl : j = 3 := hj
    refine ⟨σ,none,rfl,fun _ _ _ => rfl,fun x hx => (nomatch hx),?_⟩
    obtain ⟨rest,hrun⟩ := enter_prefix env roi hb.itemCondition trivial σ
    refine hrun.trans (condBr_traced (x := false) rest ?_)
    simp [FepOperand.eval,hmax,hcnt,Val.icmpULT]
  | succ m ih =>
    intro j σ hj harr hmax hcnt
    have hlt : j < 3 := by omega
    have hdrop : (List.finRange 3).drop j = ⟨j,hlt⟩ :: (List.finRange 3).drop (j+1) := by
      rw [List.drop_eq_getElem_cons (by simpa using hlt)]
      simp
    have hround := item_traced env roi hb hlt harr hmax hcnt
    rw [hdrop]
    by_cases hkey : ((env.db.propertySet p).items ⟨j,hlt⟩).key = pcode
    · rw [if_pos hkey] at hround
      refine ⟨_,some ⟨j,hlt⟩,List.find?_cons_of_pos (by simpa using hkey),?_,?_,hround⟩
      · exact fun c _ hc => Function.update_of_ne hc ..
      · rintro _ ⟨⟩
        exact Function.update_self ..
    · rw [if_neg hkey] at hround
      rw [List.find?_cons_of_neg (by simpa using hkey)]
      let σ₁ := Function.update σ (.curItem n) (.item p j)
      have hnext : Traced (fepStep env roi fn) lookupEvents [] (.enter (.forEachIncrement n) σ₁)
          (.enter (.whileCondition (2*n+1)) (Function.update σ₁ (.loopCnt n) (.word (j+1)))) :=
        increment_traced env roi hb (by simpa [σ₁] using hcnt)
      obtain ⟨σ',found,hfound,hframe,hcur,hrun⟩ :=
        ih (j+1) (Function.update σ₁ (.loopCnt n) (.word (j+1))) (by omega)
          (by simpa [σ₁] using harr) (by simpa [σ₁] using hmax) (Function.update_self ..)
      refine ⟨σ',found,hfound,fun c hc hc' => ?_,hcur,hround.trans (hnext.trans hrun)⟩
      exact (hframe c hc hc').trans
        ((Function.update_of_ne hc ..).trans (Function.update_of_ne hc' ..))

variable (env roi) in
theorem set_traced (hp : IsId p) (hlist : σ .roiPlistAlloc = .word p)
    (hu : σ .rhsUnknown = .word unknownId) :
    ∃ σ', σ' .roiPlistAlloc = .word p ∧ σ' .rhsUnknown = .word unknownId ∧
      σ' (.curPset n) = .pset p ∧ (∀ c, ¬ c.OfLookup n → σ' c = σ c) ∧
      (∀ x : Fin 3, env.db.keyIndex p pcode = some x → σ' (.curItem n) = .item p x) ∧
      Traced (fepStep env roi fn) lookupEvents [] (.enter (.whileCondition (2*n)) σ)
        (.enter (if (env.db.keyIndex p pcode).isSome then .pitemFound n else .nextPropIt n)
          σ') := by
  obtain ⟨rest,hrun⟩ := enter_prefix env roi hb.setCondition trivial σ
  obtain ⟨rest₁,hrun₁⟩ := enter_prefix env roi hb.setBody trivial σ
  let σ₁ := Function.update σ (.curPset n) (.pset p)
  let σ₂ := Function.update σ₁ (.curItemArr n) (.pset p)
  let σ₃ := Function.update σ₂ (.loopCnt n) (.word 0)
  let σ₄ := Function.update σ₃ (.maxCntAlloc n) (.word 3)
  obtain ⟨rest₂,hrun₂⟩ := enter_prefix env roi hb.forEachPitem trivial σ₃
  have hlt : p < unknownId := Nat.lt_trans hp (by simp [unknownRelId,unknownId])
  have hcond : (FepOperand.icmpULT (.load .roiPlistAlloc) (.load .rhsUnknown)).eval env roi σ =
      .bool true := by
    simp [FepOperand.eval,hlist,hu,Val.icmpULT,hlt]
  have hpset : (FepOperand.psetGetItemAt (.load .roiPlistAlloc)).eval env roi σ = .pset p := by
    simp [FepOperand.eval,hlist]
  have hitems : (FepOperand.items (.load (.curPset n))).eval env roi σ₁ = .pset p := by
    simp [FepOperand.eval,σ₁,Val.items]
  have henter : Traced (fepStep env roi fn) lookupEvents [] (.enter (.whileCondition (2*n)) σ)
      (.enter (.forEachPitem n) σ₃) :=
    hrun.trans ((condBr_traced rest hcond).trans (hrun₁.trans ((store_traced _ hpset).trans
      ((store_traced _ hitems).trans ((store_traced _ rfl).trans (.silent rfl rfl .refl))))))
  have hcount : Traced (fepStep env roi fn) lookupEvents [] (.enter (.forEachPitem n) σ₃)
      (.enter (.whileCondition (2*n+1)) σ₄) :=
    hrun₂.trans ((store_traced _ rfl).trans (.silent rfl rfl .refl))
  obtain ⟨σ',found,rfl,hframe,hcur,hloop⟩ := items_traced env roi p hb 3 0 σ₄ rfl
    (by simp [σ₄,σ₃,σ₂]) (by simp [σ₄]) (by simp [σ₄,σ₃])
  refine ⟨σ',?_,?_,?_,fun c hc => ?_,hcur,henter.trans (hcount.trans hloop)⟩
  · rw [hframe _ (by simp) (by simp)]
    simpa [σ₄,σ₃,σ₂,σ₁] using hlist
  · rw [hframe _ (by simp) (by simp)]
    simpa [σ₄,σ₃,σ₂,σ₁] using hu
  · rw [hframe _ (by simp) (by simp)]
    simp [σ₄,σ₃,σ₂,σ₁]
  · have hne : ∀ c', c'.OfLookup n → c ≠ c' := fun c' hc' he => hc (he ▸ hc')
    rw [hframe _ (hne _ rfl) (hne _ rfl)]
    simp only [σ₄,σ₃,σ₂,σ₁,Function.update_of_ne (hne (.maxCntAlloc n) rfl),
      Function.update_of_ne (hne (.loopCnt n) rfl),Function.update_of_ne (hne (.curItemArr n) rfl),
      Function.update_of_ne (hne (.curPset n) rfl)]

variable (env roi) in
theorem nextPropIt_traced (hp : σ (.curPset n) = .pset p) :
    Traced (fepStep env roi fn) lookupEvents [] (.enter (.nextPropIt n) σ)
      (.enter (.whileCondition (2*n))
        (Function.update σ .roiPlistAlloc (.word (env.db.propertySet p).next))) := by
  obtain ⟨rest,hrun⟩ := enter_prefix env roi hb.nextPropIt trivial σ
  have hnext : (FepOperand.field (.load (.curPset n)) 0).eval env roi σ =
      .word (env.db.propertySet p).next := by
    simp [FepOperand.eval,hp,loadField]
  exact hrun.trans ((store_traced _ hnext).trans (.silent rfl rfl .refl))

variable (roi) in
theorem sets_traced (hchain : IsChain (fun p => (env.db.propertySet p).next) unknownId IsId i l)
    (hcode : env.db.getCode key = pcode) : ∀ σ : FepCell → Val,
    σ .roiPlistAlloc = .word i → σ .rhsUnknown = .word unknownId →
    (seek env.db.hasKey key l = [] → ∃ σ', Traced (fepStep env roi fn) lookupEvents []
      (.enter (.whileCondition (2*n)) σ) (.enter .filterFalse σ')) ∧
    ∀ p l', seek env.db.hasKey key l = p :: l' → ∃ σ', σ' .roiPlistAlloc = .word p ∧
      σ' .rhsUnknown = .word unknownId ∧ σ' (.curItem n) = env.db.keyItem p pcode ∧
      (∀ c, ¬ c.OfLookup n → σ' c = σ c) ∧
      IsChain (fun p => (env.db.propertySet p).next) unknownId IsId p (p :: l') ∧
      Traced (fepStep env roi fn) lookupEvents [] (.enter (.whileCondition (2*n)) σ)
        (.enter (.pitemFound n) σ') := by
  induction hchain with
  | nil =>
    intro σ hlist hu
    obtain ⟨rest,hrun⟩ := enter_prefix env roi hb.setCondition trivial σ
    have hcond : (FepOperand.icmpULT (.load .roiPlistAlloc) (.load .rhsUnknown)).eval env roi σ =
        .bool false := by
      simp [FepOperand.eval,hlist,hu,Val.icmpULT]
    exact ⟨fun _ => ⟨σ,hrun.trans (condBr_traced rest hcond)⟩,fun p l' h => (nomatch h)⟩
  | @cons p l hp hl ih =>
    intro σ hlist hu
    obtain ⟨σ',hlist',hu',hpset,hframe,hcur,hround⟩ := set_traced env roi hb hp hlist hu
    cases hfind : env.db.keyIndex p pcode with
    | some x =>
      have hseek : seek env.db.hasKey key (p :: l) = p :: l := by
        simp [seek,GraphDb.hasKey,hcode,hfind]
      rw [hfind] at hround
      refine ⟨fun h => by simp [hseek] at h,fun p' l' h => ?_⟩
      obtain ⟨rfl,rfl⟩ := List.cons_eq_cons.1 (hseek.symm.trans h)
      exact ⟨σ',hlist',hu',by rw [hcur x hfind,GraphDb.keyItem,hfind]; rfl,hframe,.cons hp hl,
        hround⟩
    | none =>
      have hseek : seek env.db.hasKey key (p :: l) = seek env.db.hasKey key l := by
        simp [seek,GraphDb.hasKey,hcode,hfind]
      rw [hfind] at hround
      have hnext := hround.trans (nextPropIt_traced env roi hb hpset)
      obtain ⟨hnone,hsome⟩ := ih (Function.update σ' .roiPlistAlloc
        (.word (env.db.propertySet p).next)) (Function.update_self ..) (by simpa using hu')
      rw [hseek]
      refine ⟨fun h => ?_,fun p' l' h => ?_⟩
      · obtain ⟨σ₁,hrun⟩ := hnone h
        exact ⟨σ₁,hnext.trans hrun⟩
      · obtain ⟨σ₁,h₁,h₂,h₃,hframe₁,h₄,hrun⟩ := hsome p' l' h
        refine ⟨σ₁,h₁,h₂,h₃,fun c hc => ?_,h₄,hnext.trans hrun⟩
        rw [hframe₁ c hc,← hframe c hc]
        exact Function.update_of_ne (fun he => hc (by rw [he]; trivial)) ..

end Loops

structure Ready (env : Env) (n : ℕ) (s : FepVisitor) (σ : FepCell → Val) (l : List ℕ) : Prop where
  head : ∃ i, IsChain (fun p => (env.db.propertySet p).next) unknownId IsId i l ∧
    (if .roiPlistAlloc ∈ s.allocStack then σ .roiPlistAlloc
      else .word (env.db.nodeById n).propertyList) = .word i
  unknown : .rhsUnknown ∈ s.allocStack → σ .rhsUnknown = .word unknownId

theorem Ready.keeps (h : Ready env n s σ l)
    (hroi : .roiPlistAlloc ∈ s'.allocStack ↔ .roiPlistAlloc ∈ s.allocStack)
    (hrhs : .rhsUnknown ∈ s'.allocStack ↔ .rhsUnknown ∈ s.allocStack) (hσ : KeepsSearch σ σ') :
    Ready env n s' σ' l where
  head := by simpa only [hroi,hσ.1] using h.head
  unknown hmem := hσ.2.trans (h.unknown (hrhs.1 hmem))

theorem Ready.inserts (h : Ready env n s σ l) (hs : s.Inserts s' e b c) (hσ : KeepsSearch σ σ') :
    Ready env n s' σ' l := h.keeps hs.roiPlistAlloc hs.rhsUnknown hσ

theorem Ready.begin {k : ℕ} (h : Ready env n s σ l)
    (hb : LookupBlocks fn k pcode (s.allocStore .rhsUnknown (.const unknownId))
      (s.allocStore .roiPlistAlloc (.field .roi 4)) pitem) :
    ∃ σ' i, IsChain (fun p => (env.db.propertySet p).next) unknownId IsId i l ∧
      σ' .roiPlistAlloc = .word i ∧ σ' .rhsUnknown = .word unknownId ∧
      (∀ c, ¬ c.OfLookup k → σ' c = σ c) ∧
      Traced (fepStep env (.node n) fn) lookupEvents [.start k] (.enter (.searchPitem k) σ)
        (.enter (.whileCondition (2*k)) σ') := by
  obtain ⟨i,hchain,hhead⟩ := h.head
  obtain ⟨rest,hsearch⟩ := hb.searchPitem
  let σ₁ := if .rhsUnknown ∈ s.allocStack then σ
    else Function.update σ .rhsUnknown (.word unknownId)
  obtain ⟨rest',hrun'⟩ := enter_prefix env (.node n) hb.isNode trivial σ₁
  have henter : fepStep env (.node n) fn (.enter (.searchPitem k) σ) =
      some (.run (fn (.searchPitem k)) σ) := rfl
  have hstart : Traced (fepStep env (.node n) fn) lookupEvents [.start k]
      (.enter (.searchPitem k) σ) (.run (fn (.searchPitem k)) σ) := Traced.single henter
  rw [← hsearch,List.append_assoc] at hstart
  rw [List.append_assoc] at hrun'
  have hunknown := allocStore_traced env (.node n) fn s .rhsUnknown (.const unknownId)
    ([.br (.isNode k)] ++ rest) σ
  have hlist := allocStore_traced env (.node n) fn s .roiPlistAlloc (.field .roi 4)
    ([.br (.whileCondition (2*k))] ++ rest') σ₁
  have hunknown₁ : σ₁ .rhsUnknown = .word unknownId := by
    by_cases hmem : .rhsUnknown ∈ s.allocStack
    · simpa [σ₁,hmem] using h.unknown hmem
    · simp [σ₁,hmem]
  have hroi : σ₁ .roiPlistAlloc = σ .roiPlistAlloc := by
    by_cases hmem : .rhsUnknown ∈ s.allocStack <;> simp [σ₁,hmem]
  refine ⟨_,i,hchain,?_,?_,fun c hc => ?_,hstart.trans (hunknown.trans (.silent rfl rfl
    (hrun'.trans (hlist.trans (.silent rfl rfl .refl)))))⟩
  · rw [← hhead]
    split_ifs
    · exact hroi
    · exact Function.update_self ..
  · split_ifs
    · exact hunknown₁
    · exact (Function.update_of_ne (by simp) ..).trans hunknown₁
  · have hne : c ≠ .roiPlistAlloc ∧ c ≠ .rhsUnknown := by
      constructor <;> exact fun he => hc (by rw [he]; trivial)
    have hσ₁ : σ₁ c = σ c := by
      by_cases hmem : .rhsUnknown ∈ s.allocStack <;> simp [σ₁,hmem,hne.2]
    split_ifs
    · exact hσ₁
    · exact (Function.update_of_ne hne.1 ..).trans hσ₁

theorem lookup_traced {k : ℕ} (h : Ready env n s σ l)
    (hb : LookupBlocks fn k pcode (s.allocStore .rhsUnknown (.const unknownId))
      (s.allocStore .roiPlistAlloc (.field .roi 4))
      (s.allocStore (.pitem key) (.load (.curItem k))))
    (hcode : env.db.getCode key = pcode) :
    (seek env.db.hasKey key l = [] → ∃ σ', Traced (fepStep env (.node n) fn) lookupEvents [.start k]
      (.enter (.searchPitem k) σ) (.enter .filterFalse σ')) ∧
    ∀ p l', seek env.db.hasKey key l = p :: l' → ∃ σ', σ' .roiPlistAlloc = .word p ∧
      σ' .rhsUnknown = .word unknownId ∧
      IsChain (fun p => (env.db.propertySet p).next) unknownId IsId p (p :: l') ∧
      σ' (.pitem key) =
        (if .pitem key ∈ s.allocStack then σ (.pitem key) else env.db.keyItem p pcode) ∧
      (∀ c, ¬ c.OfLookup k → c ≠ .pitem key → σ' c = σ c) ∧
      Traced (fepStep env (.node n) fn) lookupEvents
        [.start k,.found k (env.db.keyItem p pcode)] (.enter (.searchPitem k) σ)
        (.run (fn (.epilog k)) σ') := by
  obtain ⟨σ₁,i,hchain,hlist,hu,hframe₁,hbegin⟩ := h.begin hb
  obtain ⟨hnone,hsome⟩ := sets_traced (.node n) hb hchain hcode σ₁ hlist hu
  refine ⟨fun hseek => ?_,fun p l' hseek => ?_⟩
  · obtain ⟨σ₂,hrun⟩ := hnone hseek
    exact ⟨σ₂,hbegin.trans hrun⟩
  · obtain ⟨σ₂,hlist₂,hu₂,hitem,hframe₂,hchain₂,hrun⟩ := hsome p l' hseek
    obtain ⟨rest,hfound⟩ := hb.pitemFound
    have henter : fepStep env (.node n) fn (.enter (.pitemFound k) σ₂) =
        some (.run (fn (.pitemFound k)) σ₂) := rfl
    have hevent : Traced (fepStep env (.node n) fn) lookupEvents
        [.found k (env.db.keyItem p pcode)] (.enter (.pitemFound k) σ₂)
        (.run (fn (.pitemFound k)) σ₂) := hitem ▸ Traced.single henter
    rw [← hfound,List.append_assoc] at hevent
    have hstore := allocStore_traced env (.node n) fn s (.pitem key) (.load (.curItem k))
      ([.br (.epilog k)] ++ rest) σ₂
    refine ⟨_,?_,?_,hchain₂,?_,fun c hc hkey => ?_,hbegin.trans (hrun.trans (hevent.trans
      (hstore.trans (br_traced (b := .epilog k) trivial rest))))⟩
    · split_ifs
      · exact hlist₂
      · exact (Function.update_of_ne (by simp) ..).trans hlist₂
    · split_ifs
      · exact hu₂
      · exact (Function.update_of_ne (by simp) ..).trans hu₂
    · split_ifs
      · rw [hframe₂ _ id,hframe₁ _ id]
      · exact (Function.update_self ..).trans hitem
    · split_ifs
      · rw [hframe₂ c hc,hframe₁ c hc]
      · rw [Function.update_of_ne hkey,hframe₂ c hc,hframe₁ c hc]

end GraphQueryCompiler
