import GraphQueryCompiler.LimitTests
import Mathlib.Algebra.Order.BigOperators.Group.List

/-!
# A limit over several calls

The result counter is an alloca of the start function, which every call sets to zero. A call
therefore lets as many tuples through a limit as if it were the only one, whatever the calls
before it did.
-/

namespace GraphQueryCompiler
open StepMachine

/-- A function with one access path. Apart from the entry and the limits, which all have the
bound `n`, no block stores into the counter. -/
structure Body.Limited (fn : Body) (n : ℤ) : Prop where
  inner : ∀ l : Label, l.name.plain = true → ∀ i ∈ fn l, i.Inner 0 scanEnd
  entry : ∃ is, fn ⟨0,.entry⟩ = CodegenInlineVisitor.initFunction 0 ++ is ∧
    ∀ i ∈ is, i.Inner 0 scanEnd
  ends : fn scanEnd = [.callFinish,.ret]
  ends_nil : ∀ k, k ≠ 0 → fn ⟨k,.scanNodesEnd⟩ = []
  limits : ∀ k, fn ⟨k,.limitEntry⟩ = [] ∨ fn ⟨k,.limitEntry⟩ = limitTest n k ∧
    fn ⟨k,.limitReached⟩ = [.br scanEnd] ∧
    ∃ is, fn ⟨k,.limitCont⟩ = limitCount k :: is ∧ ∀ i ∈ is, i.Inner 0 scanEnd

theorem Body.LimitedBy.limited {fn : Body} {n : ℤ} (h : fn.LimitedBy fun _ m => m = n) :
    fn.Limited n := by
  refine ⟨h.inner,h.entry,h.ends,h.ends_nil,fun k => ?_⟩
  rcases h.limits k with hk | ⟨_,rfl,hk⟩
  · exact .inl hk
  · exact .inr hk

theorem Body.Limited.limitedBy {fn : Body} {n : ℤ} (h : fn.Limited n) :
    fn.LimitedBy fun _ m => m = n :=
  ⟨h.inner,h.entry,h.ends,h.ends_nil,fun k => (h.limits k).imp id fun hk => ⟨n,rfl,hk⟩⟩

theorem generateStart_limited {db : GraphDb} {er : ℕ → Option Expr} {p : Plan} {fn : Body}
    {entry : Label} {n : ℤ} (hp : p.AccessPath) (hj : p.JoinFree) (hl : ∀ m ∈ p.limits, m = n)
    (hgen : generateStart db er p = some (fn,entry)) : fn.Limited n ∧ entry = ⟨0,.entry⟩ := by
  obtain ⟨hfn,rfl⟩ := generateStart_limitedBy (P := fun _ m => m = n) hp hj
    (fun _ m hk => hl m (Plan.mem_limits_of_boundAt hk)) hgen
  exact ⟨hfn.limited,rfl⟩

def Body.Visits (fn : Body) (name : BlockName) (entry : Label) (call : Env × State) (m : ℕ) :
    Prop :=
  ∃ σ, Counts (fn.step call.1) (Config.In name) m (.at entry call.2) (.returned σ)

abbrev Body.Reaches (fn : Body) : Label → Env × State → ℕ → Prop := fn.unlimited.Visits .limitEntry

abbrev Body.Passes (fn : Body) : Label → Env × State → ℕ → Prop := fn.Visits .limitCont

def Body.countVisits (fn : Body) (name : BlockName) (fuel : ℕ) (entry : Label)
    (call : Env × State) : Option ℕ :=
  match countRun (fn.step call.1) (Config.In name) fuel (.at entry call.2) with
  | (m,.returned _) => some m
  | (_,.at _ _) => none

variable {env : Env} {fn : Body} {σ σ' : State} {m k : ℕ} {is : List Instr}

theorem Body.Visits.unique {name : BlockName} {entry : Label} {call : Env × State}
    (h : fn.Visits name entry call m) (h' : fn.Visits name entry call k) : m = k := by
  obtain ⟨_,h⟩ := h
  obtain ⟨_,h'⟩ := h'
  exact (h.unique h').1

theorem Body.visits_of_countVisits {name : BlockName} (fuel : ℕ) {entry : Label}
    {call : Env × State} (h : fn.countVisits name fuel entry call = some m) :
    fn.Visits name entry call m := by
  unfold Body.countVisits at h
  split at h
  · next k σ heq =>
    obtain rfl := Option.some.inj h
    have hhalt : fn.step call.1
        (countRun (fn.step call.1) (Config.In name) fuel (.at entry call.2)).2 = none := by
      rw [heq]
      rfl
    have hc := counts_countRun fuel hhalt
    rw [heq] at hc
    exact ⟨σ,hc⟩
  · cases h

/-- `m` tuples have passed the limits, of which at most `n` may. -/
def Config.Counting (fn : Body) (n m : ℕ) (a : Config) : Prop :=
  m ≤ n ∧ ((∃ σ, a = .at ⟨0,.entry⟩ σ ∧ m = 0) ∨
    (∃ k σ, a = .at ⟨k,.limitCont⟩ σ ∧ m < n ∧ fn ⟨k,.limitEntry⟩ ≠ [] ∧
      σ.reg ⟨k,.curCnt⟩ = .word m) ∨
    a.Inside m)

theorem Body.Limited.step {n : ℕ} (hfn : fn.Limited n) (hn : n < 2^31) {a b : Config}
    (ha : a.Counting fn n m) (h : fn.unlimited.step env a = some b) :
    fn.step env a = some b ∧ (b.In .limitCont ↔ a.In .limitEntry) ∧
        b.Counting fn n (if a.In .limitCont then m+1 else m) ∨
      m = n ∧ ∃ c, Counts (fn.step env) (Config.In .limitCont) 0 a c ∧ ∃ σ, c = .returned σ := by
  obtain ⟨hm,⟨σ,rfl,rfl⟩ | ⟨k,σ,rfl,hlt,hk,hσ⟩ | ha⟩ := ha
  · have h : fn.step env (.at ⟨0,.entry⟩ σ) = some b := by
      rwa [Body.step,Body.unlimited_of_ne (by simp)] at h
    have hb := hfn.limitedBy.step_entry h
    rw [if_neg (by simp [Config.In])]
    exact .inl ⟨h,iff_of_false (hb.not_in rfl) (by simp [Config.In]),hm,.inr (.inr hb)⟩
  · have h : fn.step env (.at ⟨k,.limitCont⟩ σ) = some b := by
      rwa [Body.step,Body.unlimited_of_ne (by simp)] at h
    have hb := hfn.limitedBy.step_limitCont hk hσ h
    have hin : Config.In .limitCont (.at ⟨k,.limitCont⟩ σ) := rfl
    rw [if_pos hin]
    exact .inl ⟨h,iff_of_false (hb.not_in rfl) (by simp [Config.In]),hlt,.inr (.inr hb)⟩
  · rw [if_neg (ha.not_in rfl)]
    cases a with
    | returned σ => cases h
    | «at» l σ =>
      obtain ⟨hl,hσ⟩ := ha
      by_cases htest : l.name = .limitEntry
      · obtain ⟨k,name⟩ := l
        obtain rfl : name = .limitEntry := htest
        rcases hfn.limits k with hk | ⟨hk,hreached,_⟩
        · simp only [Body.step,Body.unlimited,if_true,hk] at h
          cases h
        · rw [unlimited_limitTest hk,hσ] at h
          obtain rfl := Option.some.inj h
          have hs := step_limitTest env hn hk hσ
          by_cases hmn : m = n
          · rw [if_pos hmn] at hs
            obtain ⟨σ',hc⟩ := hfn.limitedBy.cut hreached
            exact .inr ⟨hmn,_,.skip (by simp [Config.In]) hs hc,σ',rfl⟩
          · rw [if_neg hmn] at hs
            refine .inl ⟨hs,iff_of_true rfl rfl,hm,.inr (.inl ⟨k,_,rfl,?_,?_,?_⟩)⟩
            · omega
            · simp [hk,limitTest]
            · simp
      · have h : fn.step env (.at l σ) = some b := by
          rwa [Body.step,Body.unlimited_of_ne htest] at h
        have hb := hfn.limitedBy.step_inside hl htest hσ h
        exact .inl ⟨h,iff_of_false (hb.not_in rfl) htest,hm,.inr (.inr hb)⟩

theorem Body.Limited.passes {n : ℕ} (hfn : fn.Limited n) (hn : n < 2^31) {call : Env × State}
    (h : fn.Reaches ⟨0,.entry⟩ call k) : fn.Passes ⟨0,.entry⟩ call (min n k) := by
  obtain ⟨σ,h⟩ := h
  have hpass : ∀ (m : ℕ) (a : Config), a.Counting fn n m → a.In .limitCont → m < n := by
    rintro m a ⟨_,⟨σ,rfl,_⟩ | ⟨k,σ,rfl,hlt,_⟩ | ha⟩ hp
    · cases hp
    · exact hlt
    · exact absurd hp (ha.not_in rfl)
  have hhalt : ∀ a : Config, (∃ σ, a = .returned σ) →
      fn.step call.1 a = none ∧ ¬ a.In .limitCont := by
    rintro a ⟨σ,rfl⟩
    exact ⟨rfl,id⟩
  obtain ⟨_,hc,σ',rfl⟩ := h.cut (m := 0) hhalt hpass (fun m a b => hfn.step hn) ⟨σ,rfl⟩
    ⟨Nat.zero_le n,.inl ⟨_,rfl,rfl⟩⟩
  rw [if_neg (by simp [Config.In]),Nat.sub_zero,Nat.min_comm] at hc
  exact ⟨σ',hc⟩

theorem sum_map_min_of_le {n : ℕ} {ks : List ℕ} (h : ks.sum ≤ n) :
    (ks.map (min n)).sum = ks.sum := by
  induction ks with
  | nil => rfl
  | cons k ks ih =>
    rw [List.sum_cons] at h
    rw [List.map_cons,List.sum_cons,List.sum_cons,ih (by omega),min_eq_right (by omega)]

theorem min_sum_le_sum_map {n : ℕ} (ks : List ℕ) : min n ks.sum ≤ (ks.map (min n)).sum := by
  induction ks with
  | nil => simp
  | cons k ks ih =>
    rw [List.map_cons,List.sum_cons,List.sum_cons]
    omega

theorem sum_map_min_eq_iff {n : ℕ} {ks : List ℕ} : (ks.map (min n)).sum = min n ks.sum ↔
    n = 0 ∨ ks.sum ≤ n ∨ (ks.filter (· ≠ 0)).length ≤ 1 := by
  induction ks with
  | nil => simp
  | cons k ks ih =>
    rw [List.map_cons,List.sum_cons,List.sum_cons]
    by_cases hk : k = 0
    · simpa [hk] using ih
    · by_cases hks : ks.sum = 0
      · have hzero : (ks.map (min n)).sum = 0 := by rw [sum_map_min_of_le (by omega),hks]
        have hfilter : ks.filter (· ≠ 0) = [] := by
          simpa [List.filter_eq_nil_iff] using List.sum_eq_zero_iff.1 hks
        have hle : (ks.filter (· ≠ 0)).length ≤ 0 := by rw [hfilter]; rfl
        rw [hzero,hks,List.filter_cons_of_pos (by simpa using hk),List.length_cons]
        constructor
        · exact fun _ => .inr (.inr (by omega))
        · exact fun _ => by simp
      · have hlen : 0 < (ks.filter (· ≠ 0)).length := by
          refine List.length_pos_iff.2 fun hnil => hks (List.sum_eq_zero_iff.2 ?_)
          simpa [List.filter_eq_nil_iff] using hnil
        have hmin := min_sum_le_sum_map (n := n) ks
        rw [List.filter_cons_of_pos (by simpa using hk),List.length_cons]
        constructor
        · intro h
          omega
        · rintro (rfl | hle | hone)
          · have hzero : min 0 = fun _ : ℕ => 0 := funext Nat.zero_min
            simp [hzero]
          · rw [sum_map_min_of_le (by omega)]
            omega
          · omega

/-- Over all the calls, with `ks` tuples in front of the limit, as many pass as in one call with
all of them. -/
def Body.LimitsTotal (fn : Body) (entry : Label) (n : ℕ) (calls : List (Env × State))
    (ks : List ℕ) : Prop :=
  ∃ ms, List.Forall₂ (fn.Passes entry) calls ms ∧ ms.sum = min n ks.sum

/-- Every call counts from zero: the bound holds for all of them together only if they do not
reach it together, or at most one of them has tuples in front of the limit. -/
theorem limitsTotal_iff (db : GraphDb) (er : ℕ → Option Expr) (p : Plan) (n : ℕ) (fn : Body)
    (entry : Label) (calls : List (Env × State)) (ks : List ℕ) (hp : p.AccessPath) (hj : p.JoinFree)
    (hl : p.limits = [(n : ℤ)]) (hn : n < 2^31) (hgen : generateStart db er p = some (fn,entry))
    (hks : List.Forall₂ (fn.Reaches entry) calls ks) :
    fn.LimitsTotal entry n calls ks ↔
      n = 0 ∨ ks.sum ≤ n ∨ (ks.filter (· ≠ 0)).length ≤ 1 := by
  have hall : ∀ m ∈ p.limits, m = (n : ℤ) := by rw [hl]; exact fun m hm => List.mem_singleton.1 hm
  obtain ⟨hfn,rfl⟩ := generateStart_limited hp hj hall hgen
  have hcut : List.Forall₂ (fn.Passes ⟨0,.entry⟩) calls (ks.map (min n)) := by
    rw [List.forall₂_map_right_iff]
    exact hks.imp fun _ _ h => hfn.passes hn h
  rw [← sum_map_min_eq_iff]
  constructor
  · rintro ⟨ms,hms,hsum⟩
    have hunique : ms = ks.map (min n) :=
      List.right_unique_forall₂' (fun _ _ _ h h' => h.unique h') hms hcut
    rw [← hunique,hsum]
  · exact fun h => ⟨_,hcut,h⟩

def limitedPersons : Plan := .scan "Person" false (.limit 1 (.collect false))

def chunkCall (first last : ℕ) : Env × State :=
  ({ chunksEnv with first := first, last := last },.fresh)

theorem limitsTotal_limitedPersons : ∃ fn entry,
    generateStart chunksEnv.db (fun _ => none) limitedPersons = some (fn,entry) ∧
      fn.LimitsTotal entry 1 [chunkCall 0 1] [2] := by
  refine ⟨_,_,rfl,(limitsTotal_iff chunksEnv.db (fun _ => none) limitedPersons 1 _ _
    [chunkCall 0 1] [2] ⟨rfl,rfl,rfl⟩ trivial rfl (by decide) rfl ?_).2 (.inr (.inr (by decide)))⟩
  exact .cons (Body.visits_of_countVisits 40 rfl) .nil

/-- One call for each chunk: both let one person pass. -/
theorem not_limitsTotal_chunks : ∃ fn entry,
    generateStart chunksEnv.db (fun _ => none) limitedPersons = some (fn,entry) ∧
      List.Forall₂ (fn.Reaches entry) [chunkCall 0 0,chunkCall 1 2] [1,1] ∧
      ¬ fn.LimitsTotal entry 1 [chunkCall 0 0,chunkCall 1 2] [1,1] := by
  refine ⟨_,_,rfl,.cons (Body.visits_of_countVisits 40 rfl)
    (.cons (Body.visits_of_countVisits 40 rfl) .nil),?_⟩
  rintro ⟨_,_ | ⟨h₁,_ | ⟨h₂,_ | _⟩⟩,hsum⟩
  rw [h₁.unique (Body.visits_of_countVisits 40 rfl),
    h₂.unique (Body.visits_of_countVisits 40 rfl)] at hsum
  exact absurd hsum (by decide)

end GraphQueryCompiler
