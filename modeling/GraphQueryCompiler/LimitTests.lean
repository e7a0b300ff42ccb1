import GraphQueryCompiler.EmittedCode
import GraphQueryCompiler.NestedLoop
import GraphQueryCompiler.PlanSimulation

/-!
# The tests of the limits

All limits of a pipeline jump to the end of its scan, and all count in the one result counter,
which only they store to. The function without the tests lets every tuple pass.
-/

namespace GraphQueryCompiler
open StepMachine

def Plan.limits : Plan → List ℤ
  | .scan _ _ inp => inp.limits
  | .foreachRship _ _ _ inp => inp.limits
  | .expand _ _ inp => inp.limits
  | .filter _ inp => inp.limits
  | .project _ inp => inp.limits
  | .join _ _ lhs rhs => lhs.limits ++ rhs.limits
  | .sort _ inp => inp.limits
  | .limit n inp => n :: inp.limits
  | .create _ _ inp => inp.limits
  | .collect _ => []
  | .endOp => []

theorem Plan.limits_of_input {p inp : Plan} (h : p.input = some inp) : inp.limits ⊆ p.limits := by
  cases p <;> simp only [input,reduceCtorEq,Option.some.injEq] at h <;> subst h <;>
    simp [limits]

abbrev scanEnd : Label := ⟨0,.scanNodesEnd⟩

def limitTest (n : ℤ) (k : ℕ) : List Instr :=
  [.assign ⟨k,.curCnt⟩ (.cell ⟨0,.resCounter⟩),
   .condBr (.icmpEQ (.reg ⟨k,.curCnt⟩) (.const (CodegenInlineVisitor.limitConst n)))
     ⟨k,.limitReached⟩ ⟨k,.limitCont⟩]

def limitCount (k : ℕ) : Instr := .store ⟨0,.resCounter⟩ (.add (.reg ⟨k,.curCnt⟩) (.const 1))

def Plan.opAt (p : Plan) : ℕ → Option Plan
  | 0 => some p
  | k+1 => p.input.bind fun inp => inp.opAt k

def Plan.boundAt (p : Plan) (k : ℕ) : Option ℤ :=
  match p.opAt k with
  | some (.limit n _) => some n
  | _ => none

theorem Plan.boundAt_succ {p inp : Plan} {k : ℕ} (h : p.input = some inp) :
    p.boundAt (k+1) = inp.boundAt k := by
  rw [boundAt,opAt,h,Option.bind_some,boundAt]

theorem Plan.mem_limits_of_boundAt {k : ℕ} : ∀ {p : Plan} {n : ℤ}, p.boundAt k = some n →
    n ∈ p.limits := by
  induction k with
  | zero =>
    intro p n h
    cases p <;> simp only [boundAt,opAt,reduceCtorEq,Option.some.injEq] at h
    subst h
    exact List.mem_cons_self
  | succ k ih =>
    intro p n h
    cases hin : p.input with
    | none => simp [boundAt,opAt,hin] at h
    | some inp =>
      rw [boundAt_succ hin] at h
      exact limits_of_input hin (ih h)

structure Body.LimitedBy (fn : Body) (P : ℕ → ℤ → Prop) : Prop where
  inner : ∀ l : Label, l.name.plain = true → ∀ i ∈ fn l, i.Inner 0 scanEnd
  entry : ∃ is, fn ⟨0,.entry⟩ = CodegenInlineVisitor.initFunction 0 ++ is ∧
    ∀ i ∈ is, i.Inner 0 scanEnd
  ends : fn scanEnd = [.callFinish,.ret]
  ends_nil : ∀ k, k ≠ 0 → fn ⟨k,.scanNodesEnd⟩ = []
  limits : ∀ k, fn ⟨k,.limitEntry⟩ = [] ∨ ∃ n, P k n ∧ fn ⟨k,.limitEntry⟩ = limitTest n k ∧
    fn ⟨k,.limitReached⟩ = [.br scanEnd] ∧
    ∃ is, fn ⟨k,.limitCont⟩ = limitCount k :: is ∧ ∀ i ∈ is, i.Inner 0 scanEnd

theorem Instr.Inner.of_back {i : Instr} {q : ℕ} {back back' : Label} (h : i.Inner q back)
    (hback : back.name.inside = true) : i.Inner q back' := by
  cases i with
  | br l => exact .inl (h.elim id fun hl => hl ▸ hback)
  | _ => exact h

def MiddlePiece (e : Label × List Instr) : Prop :=
  (e.1.name.plain = true ∨ e.1.name = .limitCont) ∧ (∀ i ∈ e.2, i.Inner 0 scanEnd) ∨
    ∃ i, e.1.name = .isRship i

variable {P : ℕ → ℤ → Prop} {c code : Code} {l : Label}

theorem body_inner (hc : ∀ e ∈ c, MiddlePiece e) (hl : l.name.plain = true ∨ l.name = .limitCont) :
    ∀ i ∈ c.body l, i.Inner 0 scanEnd := by
  intro i hi
  simp only [Code.body,List.mem_flatMap] at hi
  obtain ⟨e,he,hi⟩ := hi
  split_ifs at hi with hel
  · subst hel
    rcases hc e he with ⟨_,his⟩ | ⟨j,hj⟩
    · exact his i hi
    · simp [hj,BlockName.plain,BlockName.inside] at hl
  · simp at hi

theorem body_outer (hc : ∀ e ∈ c, MiddlePiece e) (hl : l.name.plain = false)
    (hcont : l.name ≠ .limitCont) (hr : ∀ i, l.name ≠ .isRship i) : c.body l = [] := by
  apply Code.body_eq_nil
  rintro e he rfl
  rcases hc e he with ⟨hname | hname,_⟩ | ⟨i,hi⟩
  · rw [hname] at hl
    cases hl
  · exact hcont hname
  · exact hr i hi

theorem Body.LimitedBy.append (h : (Code.body code).LimitedBy P) (hc : ∀ e ∈ c, MiddlePiece e) :
    (Code.body (code ++ c)).LimitedBy P := by
  have hnil : ∀ (k : ℕ) (name : BlockName), name.plain = false → name ≠ .limitCont →
      (∀ i, name ≠ .isRship i) → (code ++ c).body ⟨k,name⟩ = code.body ⟨k,name⟩ := by
    intro k name hplain hcont hr
    rw [Code.body_append,body_outer hc hplain hcont hr,List.append_nil]
  have hentry := hnil 0 .entry rfl nofun nofun
  have hend : ∀ k, _ := fun k => hnil k .scanNodesEnd rfl nofun nofun
  have htest : ∀ k, _ := fun k => hnil k .limitEntry rfl nofun nofun
  have hreached : ∀ k, _ := fun k => hnil k .limitReached rfl nofun nofun
  refine ⟨fun l hl => ?_,hentry ▸ h.entry,(hend 0).trans h.ends,fun k hk =>
    (hend k).trans (h.ends_nil k hk),fun k => ?_⟩
  · rw [Code.body_append]
    exact List.forall_mem_append.2 ⟨h.inner l hl,body_inner hc (.inl hl)⟩
  · rw [htest,hreached]
    rcases h.limits k with hk | ⟨n,hn,hk,hk',is,his,hall⟩
    · exact .inl hk
    · refine .inr ⟨n,hn,hk,hk',is ++ c.body ⟨k,.limitCont⟩,?_,
        List.forall_mem_append.2 ⟨hall,body_inner hc (.inr rfl)⟩⟩
      rw [Code.body_append,his,List.cons_append]

theorem Body.LimitedBy.limit {n : ℤ} {k : ℕ} (h : (Code.body code).LimitedBy P)
    (hk : ∀ name, code.body ⟨k,name⟩ = []) (hn : P k n) :
    (Code.body (code ++ [(⟨k,.limitEntry⟩,limitTest n k),(⟨k,.limitReached⟩,[.br scanEnd]),
      (⟨k,.limitCont⟩,[limitCount k])])).LimitedBy P := by
  refine ⟨fun l hl => ?_,?_,?_,fun k' hk' => ?_,fun k' => ?_⟩
  · have hne : ∀ name : BlockName, name.plain = false → (⟨k,name⟩ : Label) ≠ l := by
      rintro name hname rfl
      rw [hname] at hl
      cases hl
    simpa [hne .limitEntry rfl,hne .limitReached rfl,hne .limitCont rfl] using h.inner l hl
  · simpa using h.entry
  · simpa using h.ends
  · simpa using h.ends_nil k' hk'
  · by_cases hkk : k = k'
    · subst hkk
      exact .inr ⟨n,hn,by simp [hk],by simp [hk],[],by simp [hk],List.forall_mem_nil _⟩
    · simpa [hkk] using h.limits k'

namespace CodegenInlineVisitor
variable {db : GraphDb} {v v' : CodegenInlineVisitor} {op : Plan} {opId : ℕ}

structure Counted (P : ℕ → ℤ → Prop) (v : CodegenInlineVisitor) : Prop where
  ok : v.Ok
  mainReturn : v.mainReturn.name.inside = true
  scan : v.scan = 0
  scanNodesEnd : v.scanNodesEnd = scanEnd
  entry : v.entry = some ⟨0,.entry⟩
  prevBb : v.prevBb.name.plain = true ∨ v.prevBb.name = .limitCont
  body : (Code.body v.code).LimitedBy P

theorem Piece.middle {e : Label × List Instr} (hop : op.Suffix) (hne : ∀ m inp, op ≠ .limit m inp)
    (he : v.Piece 0 op e) (hv : v.Counted P) : MiddlePiece e := by
  cases he with
  | closing hname =>
    exact .inl ⟨hv.prevBb,List.forall_mem_singleton.2 (.inl hname)⟩
  | inner hname his => exact .inl ⟨.inl hname,fun i hi => (his i hi).of_back hv.mainReturn⟩
  | isRship => exact .inr ⟨_,rfl⟩
  | entry | finish | nextScan => exact absurd hop.1 (by simp)
  | limitEntry | limitReached | limitCont => exact absurd rfl (hne _ _)

theorem visit_counted (hop : op.Suffix) (hj : op.JoinFree)
    (hl : ∀ n, op.boundAt 0 = some n → P v.visits n)
    (h : (codegenInlineVisitor db).visit op opId v = some v') (hv : v.Counted P) :
    v'.Counted P := by
  have hm := visit_moves h
  obtain ⟨hscan,hend,hentry⟩ := visit_keeps h hop
  refine ⟨visit_ok h hv.ok,?_,hscan.trans hv.scan,hend.trans hv.scanNodesEnd,
    hentry.trans hv.entry,?_,?_⟩
  · rcases hm.mainReturn with hl | ⟨name,hname,hl⟩ <;> rw [hl]
    · exact hv.mainReturn
    · exact hname
  · rcases hm.prevBb with hl | ⟨name,hname,hl⟩ <;> rw [hl]
    · exact hv.prevBb
    · exact hname
  · by_cases hlim : ∃ m inp, op = .limit m inp
    · obtain ⟨m,inp,rfl⟩ := hlim
      obtain rfl := Option.some.inj h
      have hclosing : ∀ e ∈ [(v.prevBb,[Instr.br (v.bb .limitEntry)])], MiddlePiece e :=
        List.forall_mem_singleton.2 (.inl ⟨hv.prevBb,by simp [Instr.Inner,bb,BlockName.inside]⟩)
      have hfresh : ∀ name, (v.code ++ [(v.prevBb,[Instr.br (v.bb .limitEntry)])]).body
          ⟨v.visits,name⟩ = [] := by
        intro name
        simp [hv.ok.body_nil,hv.ok.prevBb_ne]
      have hbody := (hv.body.append hclosing).limit hfresh (hl m rfl)
      simpa only [visitLimit,emit,limitTest,limitCount,bb,reg,cell,hv.scan,hv.scanNodesEnd,
        List.append_assoc,List.singleton_append] using hbody
    · have hnone : ∀ jop pos lhs rhs, op = .join jop pos lhs rhs → v.queryIdInline < 0 := by
        rintro jop pos lhs rhs rfl
        exact absurd hj id
      obtain ⟨code,hcode,hpieces⟩ := visit_pieces h hnone
      rw [hcode]
      exact hv.body.append fun e he =>
        (hpieces e he).middle hop (fun m inp hop => hlim ⟨m,inp,hop⟩) hv

theorem codegen_counted {p : Plan} (hp : p.Suffix) (hj : p.JoinFree) : ∀ {opId opId' : ℕ}
    {v v' : CodegenInlineVisitor}, (∀ k n, p.boundAt k = some n → P (v.visits+k) n) →
      p.codegen (codegenInlineVisitor db) opId true v = some (v',opId') → v.Counted P →
        v'.Counted P := by
  induction p with
  | collect | endOp =>
    intro opId opId' v v' hl h hv
    simp only [Plan.codegen,Option.bind_eq_bind,Option.bind_eq_some_iff,Option.pure_def,
      Option.some.injEq,Prod.mk.injEq] at h
    obtain ⟨v₁,h₁,rfl,_⟩ := h
    exact visit_counted hp hj (hl 0) h₁ hv
  | join => exact absurd hj id
  | scan => exact absurd hp.1 (by simp)
  | create => exact absurd hp id
  | _ _ _ =>
    rename_i ih
    intro opId opId' v v' hl h hv
    rw [Plan.codegen_input rfl,Option.bind_eq_some_iff] at h
    obtain ⟨v₁,h₁,h₂⟩ := h
    obtain ⟨_,hc⟩ := visit_inserts h₁
    refine ih hp.2 hj (fun k n hk => ?_) h₂ (visit_counted hp hj (hl 0) h₁ hv)
    have hn := hl (k+1) n hk
    rwa [Nat.add_comm k 1,← Nat.add_assoc,← hc.visits_eq] at hn

theorem visitScan_inner (er : ℕ → Option Expr) (indexed : Bool) (inp : Plan) :
    ∀ e ∈ ((init er).visitScan indexed inp opId).code, e.1.name.plain = true →
      ∀ i ∈ e.2, i.Inner 0 scanEnd := by
  cases indexed <;>
    simp [visitScan,scanCode,indexScanCode,emit,init,bb,BlockName.plain,BlockName.inside,
      Instr.Inner]

theorem visitScan_entry (er : ℕ → Option Expr) (indexed : Bool) (inp : Plan) :
    ∃ is, Code.body ((init er).visitScan indexed inp opId).code ⟨0,.entry⟩ = initFunction 0 ++ is ∧
      ∀ i ∈ is, i.Inner 0 scanEnd := by
  cases indexed with
  | false =>
    refine ⟨[.dictLookupLabel ⟨0,.labelCode⟩ opId,.getVecBegin ⟨0,.nodeBeginIt⟩,
      .br ⟨0,.whileCondition 0⟩],?_,by simp [Instr.Inner,BlockName.inside]⟩
    simp [visitScan,scanCode,emit,init,bb,reg]
  | true =>
    refine ⟨[.indexGetNode ⟨0,.node⟩ opId,
      .condBr (.isNull (.reg ⟨0,.node⟩)) ⟨0,.scanNodesEnd⟩ ⟨0,.consumeNode⟩],?_,
      by simp [Instr.Inner,BlockName.inside]⟩
    simp [visitScan,indexScanCode,emit,init,bb,reg]

theorem visitScan_counted (db : GraphDb) (er : ℕ → Option Expr) (indexed : Bool) (inp : Plan) :
    ((init er).visitScan indexed inp opId).Counted P := by
  refine ⟨visitScan_ok db nofun,?_,rfl,rfl,rfl,.inl rfl,
    ⟨fun l hl i hi => ?_,visitScan_entry er indexed inp,?_,?_,?_⟩⟩
  · cases indexed <;> rfl
  · simp only [Code.body,List.mem_flatMap] at hi
    obtain ⟨e,he,hi⟩ := hi
    split_ifs at hi with hel
    · exact visitScan_inner er indexed inp e he (hel ▸ hl) i hi
    · simp at hi
  · cases indexed <;> rfl
  · intro k hk
    apply Code.body_eq_nil
    cases indexed <;> simp [visitScan,scanCode,indexScanCode,emit,init,bb,Ne.symm hk]
  · refine fun k => .inl (Code.body_eq_nil ?_)
    cases indexed <;> simp [visitScan,scanCode,indexScanCode,emit,init,bb]

end CodegenInlineVisitor

theorem generateStart_limitedBy {db : GraphDb} {er : ℕ → Option Expr} {p : Plan} {fn : Body}
    {entry : Label} (hp : p.AccessPath) (hj : p.JoinFree) (hl : ∀ k n, p.boundAt k = some n → P k n)
    (hgen : generateStart db er p = some (fn,entry)) : fn.LimitedBy P ∧ entry = ⟨0,.entry⟩ := by
  simp only [generateStart,Option.bind_eq_bind,Option.bind_eq_some_iff,Option.pure_def,
    Option.some.injEq,Prod.mk.injEq,Prod.exists] at hgen
  obtain ⟨v,_,hcode,_,hentry,rfl,rfl⟩ := hgen
  cases p with
  | scan label indexed inp =>
    rw [Plan.codegen_input rfl,Option.bind_eq_some_iff] at hcode
    obtain ⟨v₁,h₁,h₂⟩ := hcode
    obtain rfl := Option.some.inj h₁
    have hv := CodegenInlineVisitor.codegen_counted hp.2 hj
      (fun k n hk => Nat.add_comm k 1 ▸ hl (k+1) n hk) h₂
      (CodegenInlineVisitor.visitScan_counted db er indexed inp)
    exact ⟨hv.body,Option.some.inj (hentry.symm.trans hv.entry)⟩
  | create => exact absurd hp id
  | collect | endOp => exact absurd hp (by simp [Plan.Shaped])
  | _ => exact absurd hp.1 (by simp)

/-- The function without the test of its limits: every tuple that reaches one passes. -/
def Body.unlimited (fn : Body) : Body := fun l =>
  if l.name = .limitEntry then
    (fn l).map fun
      | .condBr _ _ f => .br f
      | i => i
  else fn l

def Config.In (name : BlockName) : Config → Prop
  | .at l _ => l.name = name
  | .returned _ => False

instance (name : BlockName) : DecidablePred (Config.In name)
  | .at l _ => inferInstanceAs (Decidable (l.name = name))
  | .returned _ => inferInstanceAs (Decidable False)

variable {env : Env} {fn : Body} {σ σ' : State} {m k : ℕ} {is : List Instr} {P : ℕ → ℤ → Prop}

theorem exec_resCounter {i : Instr} {q : ℕ} {back : Label} (hi : i.Inner q back)
    (h : i.exec env σ = some σ') : σ'.cell ⟨0,.resCounter⟩ = σ.cell ⟨0,.resCounter⟩ := by
  have hset : ∀ {d : Cell} (v : Val), d.name ≠ .resCounter →
      (σ.setCell d v).cell ⟨0,.resCounter⟩ = σ.cell ⟨0,.resCounter⟩ := by
    intro d v hd
    rw [State.setCell_cell,if_neg]
    rintro rfl
    exact hd rfl
  cases i with
  | store d e =>
    obtain rfl := Option.some.inj h
    exact hset _ hi
  | applyPexpr isNode key type e d =>
    simp only [Instr.exec] at h
    split at h
    · obtain rfl := Option.some.inj h
      exact hset _ hi
    · obtain rfl := Option.some.inj h
      exact hset _ hi
    · cases h
  | fevListEnd r =>
    simp only [Instr.exec] at h
    split_ifs at h <;> obtain rfl := Option.some.inj h <;> rfl
  | vecEndReached | getNodeFromIt | getJoinTpAt =>
    simp only [Instr.exec] at h
    split at h
    · obtain ⟨_,_,rfl⟩ := Option.map_eq_some_iff.1 h
      rfl
    · cases h
  | getNextRshipFev | matRegValue =>
    obtain ⟨_,_,rfl⟩ := Option.map_eq_some_iff.1 h
    rfl
  | getVecNext | getValidNode | rshipById | nodeById | psetGetItemAt | matNode | matRship
  | foreachFromVariableRship =>
    simp only [Instr.exec] at h
    split at h <;> first | (obtain rfl := Option.some.inj h; rfl) | cases h
  | getNodeResAt | getRshipResAt =>
    simp only [Instr.exec] at h
    split at h
    · split at h <;> first | (obtain rfl := Option.some.inj h; rfl) | cases h
    · cases h
  | br | condBr | ret => cases h
  | _ =>
    obtain rfl := Option.some.inj h
    rfl

theorem execBlock_inner {c : Config} (his : ∀ i ∈ is, i.Inner 0 scanEnd) :
    ∀ {σ : State}, execBlock env is σ = some c → ∃ l σ', c = .at l σ' ∧ l.name.inside = true ∧
      σ'.cell ⟨0,.resCounter⟩ = σ.cell ⟨0,.resCounter⟩ := by
  induction is with
  | nil => nofun
  | cons i is ih =>
    intro σ h
    obtain ⟨hi,his⟩ := List.forall_mem_cons.1 his
    have hnext : (i.exec env σ).bind (execBlock env is) = some c → ∃ l σ', c = .at l σ' ∧
        l.name.inside = true ∧ σ'.cell ⟨0,.resCounter⟩ = σ.cell ⟨0,.resCounter⟩ := by
      intro h
      obtain ⟨σ₁,h₁,h₂⟩ := Option.bind_eq_some_iff.1 h
      obtain ⟨l,σ',rfl,hl,hσ'⟩ := ih his h₂
      exact ⟨l,σ',rfl,hl,hσ'.trans (exec_resCounter hi h₁)⟩
    cases i with
    | br l =>
      obtain rfl := Option.some.inj h
      exact ⟨l,σ,rfl,hi.elim id (fun hl => hl ▸ rfl),rfl⟩
    | condBr e t f =>
      simp only [execBlock] at h
      split at h
      · obtain rfl := Option.some.inj h
        exact ⟨t,σ,rfl,hi.1,rfl⟩
      · obtain rfl := Option.some.inj h
        exact ⟨f,σ,rfl,hi.2,rfl⟩
      · cases h
    | ret => exact absurd hi id
    | _ => exact hnext h

def Config.Inside (m : ℕ) : Config → Prop
  | .at l σ => l.name.inside = true ∧ σ.cell ⟨0,.resCounter⟩ = .word m
  | .returned _ => True

theorem Config.Inside.not_in {a : Config} {name : BlockName} (h : a.Inside m)
    (hname : name.inside = false) : ¬ a.In name := by
  cases a with
  | returned σ => exact id
  | «at» l σ =>
    rintro rfl
    rw [h.1] at hname
    cases hname

theorem Body.unlimited_of_ne {l : Label} (h : l.name ≠ .limitEntry) : fn.unlimited l = fn l :=
  if_neg h

theorem limitConst_natCast {n : ℕ} (hn : n < 2^31) :
    CodegenInlineVisitor.limitConst n = n := by
  unfold CodegenInlineVisitor.limitConst
  omega

theorem BlockName.plain_of_inside {name : BlockName} (h : name.inside = true)
    (hentry : name ≠ .limitEntry) (hend : name ≠ .scanNodesEnd) : name.plain = true := by
  cases name <;> first | exact h | exact absurd rfl hentry | exact absurd rfl hend

theorem unlimited_limitTest {n : ℤ} (h : fn ⟨k,.limitEntry⟩ = limitTest n k) :
    fn.unlimited.step env (.at ⟨k,.limitEntry⟩ σ) =
      some (.at ⟨k,.limitCont⟩ (σ.setReg ⟨k,.curCnt⟩ (σ.cell ⟨0,.resCounter⟩))) := by
  simp only [Body.step,Body.unlimited,if_true,h]
  rfl

theorem step_limitTest (env : Env) {n k : ℕ} (hn : n < 2^31)
    (h : fn ⟨k,.limitEntry⟩ = limitTest n k)
    (hσ : σ.cell ⟨0,.resCounter⟩ = .word m) :
    fn.step env (.at ⟨k,.limitEntry⟩ σ) =
      some (.at ⟨k,if m = n then .limitReached else .limitCont⟩
        (σ.setReg ⟨k,.curCnt⟩ (.word m))) := by
  rw [Body.step,h]
  by_cases hmn : m = n
  · simp [limitTest,execBlock,Instr.exec,Expr.eval,hσ,Val.icmpEQ,limitConst_natCast hn,hmn]
  · simp [limitTest,execBlock,Instr.exec,Expr.eval,hσ,Val.icmpEQ,limitConst_natCast hn,hmn]

theorem step_limitReached (env : Env) {k : ℕ} (hreached : fn ⟨k,.limitReached⟩ = [.br scanEnd]) :
    fn.step env (.at ⟨k,.limitReached⟩ σ) = some (.at scanEnd σ) := by
  rw [Body.step,hreached]
  rfl

theorem Body.LimitedBy.step_scanEnd (hfn : fn.LimitedBy P) (env : Env) :
    fn.step env (.at scanEnd σ) = some (.returned (σ.emit .finish)) := by
  rw [Body.step,hfn.ends]
  rfl

theorem Body.LimitedBy.cut {k : ℕ} (hfn : fn.LimitedBy P)
    (hreached : fn ⟨k,.limitReached⟩ = [.br scanEnd]) :
    ∃ σ', Counts (fn.step env) (Config.In .limitCont) 0 (.at ⟨k,.limitReached⟩ σ)
      (.returned σ') := by
  exact ⟨_,.skip (by simp [Config.In]) (step_limitReached env hreached)
    (.skip (by simp [Config.In]) (hfn.step_scanEnd env) (.halt rfl))⟩

theorem Body.LimitedBy.step_entry (hfn : fn.LimitedBy P) {b : Config}
    (h : fn.step env (.at ⟨0,.entry⟩ σ) = some b) : b.Inside 0 := by
  obtain ⟨is,hfn,his⟩ := hfn.entry
  rw [Body.step,hfn] at h
  have hrest : ∀ i ∈ (CodegenInlineVisitor.initFunction 0).tail ++ is, i.Inner 0 scanEnd :=
    List.forall_mem_append.2 ⟨by simp [CodegenInlineVisitor.initFunction,Instr.Inner],his⟩
  obtain ⟨l,σ',rfl,hl,hσ'⟩ := execBlock_inner (σ := σ.setCell ⟨0,.resCounter⟩ (.word 0)) hrest h
  exact ⟨hl,by simpa using hσ'⟩

theorem Body.LimitedBy.step_limitCont {k : ℕ} (hfn : fn.LimitedBy P) {b : Config}
    (hk : fn ⟨k,.limitEntry⟩ ≠ []) (hσ : σ.reg ⟨k,.curCnt⟩ = .word m)
    (h : fn.step env (.at ⟨k,.limitCont⟩ σ) = some b) : b.Inside (m+1) := by
  obtain ⟨_,_,_,_,is,hcont,his⟩ := (hfn.limits k).resolve_left hk
  rw [Body.step,hcont] at h
  have hrest : execBlock env is (σ.setCell ⟨0,.resCounter⟩ (.word (m+1))) = some b := by
    rw [← h]
    simp only [limitCount,execBlock,Instr.exec,Expr.eval,hσ,Val.add,Option.bind_some]
  obtain ⟨l,σ',rfl,hl,hσ'⟩ := execBlock_inner his hrest
  exact ⟨hl,by simpa using hσ'⟩

theorem Body.LimitedBy.step_inside (hfn : fn.LimitedBy P) {l : Label} {b : Config}
    (hl : l.name.inside = true) (hne : l.name ≠ .limitEntry) (hσ : σ.cell ⟨0,.resCounter⟩ = .word m)
    (h : fn.step env (.at l σ) = some b) : b.Inside m := by
  obtain ⟨k,name⟩ := l
  by_cases hend : name = .scanNodesEnd
  · subst hend
    by_cases hk : k = 0
    · subst hk
      rw [Body.step,hfn.ends] at h
      obtain rfl := Option.some.inj h
      trivial
    · rw [Body.step,hfn.ends_nil k hk] at h
      cases h
  · have hplain := BlockName.plain_of_inside hl hne hend
    obtain ⟨l,σ',rfl,hl,hσ'⟩ := execBlock_inner (hfn.inner ⟨k,name⟩ hplain) h
    exact ⟨hl,hσ'.trans hσ⟩

end GraphQueryCompiler
