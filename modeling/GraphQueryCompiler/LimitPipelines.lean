import GraphQueryCompiler.LimitTests
import GraphQueryCompiler.QueryEngine
import GraphQueryCompiler.Lib.LimitedStream
import GraphQueryCompiler.Lib.TracedRuns

/-!
# Several limits in a pipeline

Every limit of a pipeline tests and increments the one result counter, so it decides by all the
tuples that have arrived at any of them. That is compared with the pipeline in which every limit
takes the first tuples that arrive at it.
-/

namespace GraphQueryCompiler
open StepMachine
open LimitedStream (rows arrivals read FirstAlone NoneFull Agree)

abbrev TupleEvent := LimitedStream.Event ℕ (List QrVal)

def Config.state : Config → State
  | .at _ σ => σ
  | .returned σ => σ

def Config.arrival : Config → List TupleEvent
  | .at ⟨k,.limitEntry⟩ _ => [.arrive k]
  | _ => []

def stepEvents (a b : Config) : List TupleEvent :=
  a.arrival ++ (b.state.collected.drop a.state.collected.length).map .row

def Body.Streams (fn : Body) (entry : Label) (call : Env × State) (es : List TupleEvent) : Prop :=
  ∃ σ, Traced (fn.step call.1) stepEvents es (.at entry call.2) (.returned σ)

def Body.streamRun (fn : Body) (fuel : ℕ) (entry : Label) (call : Env × State) :
    Option (List TupleEvent) :=
  match traceRun (fn.step call.1) stepEvents fuel (.at entry call.2) with
  | (es,.returned _) => some es
  | (_,.at _ _) => none

theorem Body.streams_of_streamRun {fn : Body} (fuel : ℕ) {entry : Label} {call : Env × State}
    {es : List TupleEvent} (h : fn.streamRun fuel entry call = some es) :
    fn.Streams entry call es := by
  unfold Body.streamRun at h
  split at h
  · next es' σ heq =>
    obtain rfl := Option.some.inj h
    have hrun : Traced (fn.step call.1) stepEvents _ _ _ := traced_traceRun fuel (.at entry call.2)
    rw [heq] at hrun
    exact ⟨σ,hrun⟩
  · cases h

theorem Body.Streams.eq_of_streamRun {fn : Body} {entry : Label} {call : Env × State}
    {es es' : List TupleEvent} (h : fn.Streams entry call es) (fuel : ℕ)
    (h' : fn.streamRun fuel entry call = some es') : es = es' := by
  obtain ⟨_,h⟩ := h
  obtain ⟨_,h'⟩ := Body.streams_of_streamRun fuel h'
  exact (h.unique h' rfl rfl).1

def Plan.bound (p : Plan) (k : ℕ) : ℕ := ((p.boundAt k).getD 0).toNat

def Plan.limitVisits (p : Plan) : List ℕ :=
  (List.range p.numVisits).filter fun k => (p.boundAt k).isSome

structure Body.LimitsTake (fn : Body) (entry : Label) (call : Env × State) (bound : ℕ → ℕ)
    (ks : List ℕ) (es : List TupleEvent) : Prop where
  collects : ∃ es', fn.Streams entry call es' ∧ rows es' = rows (read bound ks es)
  decides : ∀ es' k σ b, Traced (fn.step call.1) stepEvents es' (.at entry call.2)
    (.at ⟨k,.limitEntry⟩ σ) → fn.step call.1 (.at ⟨k,.limitEntry⟩ σ) = some b →
      (b.In .limitReached ↔ (arrivals es').count k = bound k)

section Events
variable {a b : Config} {k : ℕ} {σ : State}

theorem arrivals_map_row (ts : List (List QrVal)) :
    arrivals (ts.map .row : List TupleEvent) = [] := by
  induction ts with
  | nil => rfl
  | cons t ts ih => exact ih

theorem arrival_of_not_in (h : ¬ a.In .limitEntry) : a.arrival = [] := by
  cases a with
  | returned => rfl
  | «at» l σ =>
    obtain ⟨k,name⟩ := l
    cases name <;> first | rfl | exact absurd rfl h

theorem arrivals_stepEvents (h : ¬ a.In .limitEntry) : arrivals (stepEvents a b) = [] := by
  rw [stepEvents,arrival_of_not_in h,List.nil_append,arrivals_map_row]

theorem stepEvents_eq_arrival (h : b.state.collected = a.state.collected) :
    stepEvents a b = a.arrival := by
  rw [stepEvents,h,List.drop_length,List.map_nil,List.append_nil]

theorem stepEvents_test (r : Reg) (v : Val) (l : Label) :
    stepEvents (.at ⟨k,.limitEntry⟩ σ) (.at l (σ.setReg r v)) = [.arrive k] :=
  stepEvents_eq_arrival rfl

theorem stepEvents_arrive {l l' : List TupleEvent} (h : stepEvents a b = l ++ .arrive k :: l') :
    (∃ σ, a = .at ⟨k,.limitEntry⟩ σ) ∧ l = [] := by
  have hrows : ∀ {ts : List (List QrVal)} {l : List TupleEvent},
      ts.map .row ≠ l ++ .arrive k :: l' := by
    intro ts l heq
    have hmem : LimitedStream.Event.arrive k ∈ (ts.map .row : List TupleEvent) := by
      rw [heq]
      simp
    simp at hmem
  by_cases ha : a.In .limitEntry
  · cases a with
    | returned => cases ha
    | «at» j σ =>
      obtain ⟨j,name⟩ := j
      obtain rfl : name = .limitEntry := ha
      cases l with
      | nil =>
        obtain ⟨hk,_⟩ := List.cons_eq_cons.1 h
        obtain rfl := LimitedStream.Event.arrive.inj hk
        exact ⟨⟨σ,rfl⟩,rfl⟩
      | cons e l =>
        obtain ⟨_,htail⟩ := List.cons_eq_cons.1 h
        exact absurd htail hrows
  · rw [stepEvents,arrival_of_not_in ha,List.nil_append] at h
    exact absurd h hrows

end Events

def Bounded (bound : ℕ → ℕ) (ks : List ℕ) (k : ℕ) (n : ℤ) : Prop :=
  n = bound k ∧ bound k < 2^31 ∧ k ∈ ks

/-- `m` tuples have arrived at limits, and all have passed. -/
def Config.Passed (fn : Body) (m : ℕ) (a : Config) : Prop :=
  (∃ σ, a = .at ⟨0,.entry⟩ σ ∧ m = 0) ∨
    (∃ k σ j, a = .at ⟨k,.limitCont⟩ σ ∧ m = j+1 ∧ fn ⟨k,.limitEntry⟩ ≠ [] ∧
      σ.reg ⟨k,.curCnt⟩ = .word j) ∨
    a.Inside m

/-- A limit is full, and the call on its way to the end. -/
def Config.Over (fn : Body) : Config → Prop
  | .at l _ => l.name = .limitReached ∧ fn l = [.br scanEnd] ∨ l = scanEnd
  | .returned _ => True

section Counter
variable {env : Env} {fn : Body} {σ : State} {a b : Config} {m k : ℕ} {bound : ℕ → ℕ} {ks : List ℕ}
  {es : List TupleEvent}

theorem unlimited_step (h : ¬ a.In .limitEntry) : fn.unlimited.step env a = fn.step env a := by
  cases a with
  | returned => rfl
  | «at» l σ => rw [Body.step,Body.step,Body.unlimited_of_ne h]

theorem Config.Passed.at_limitEntry (h : Passed fn m (.at ⟨k,.limitEntry⟩ σ)) :
    σ.cell ⟨0,.resCounter⟩ = .word m := by
  rcases h with ⟨_,ha,_⟩ | ⟨_,_,_,ha,_⟩ | h
  · cases ha
  · cases ha
  · exact h.2

theorem Config.Passed.step (hfn : fn.LimitedBy (Bounded bound ks)) (ha : a.Passed fn m)
    (hne : ¬ a.In .limitEntry) (h : fn.step env a = some b) : b.Passed fn m := by
  rcases ha with ⟨σ,rfl,rfl⟩ | ⟨k,σ,j,rfl,rfl,hk,hσ⟩ | ha
  · exact .inr (.inr (hfn.step_entry h))
  · exact .inr (.inr (hfn.step_limitCont hk hσ h))
  · cases a with
    | returned => cases h
    | «at» l σ => exact .inr (.inr (hfn.step_inside ha.1 hne ha.2 h))

theorem Body.LimitedBy.test (hfn : fn.LimitedBy (Bounded bound ks)) (env : Env)
    (hk : fn ⟨k,.limitEntry⟩ ≠ [])
    (hσ : σ.cell ⟨0,.resCounter⟩ = .word m) :
    k ∈ ks ∧ fn ⟨k,.limitReached⟩ = [.br scanEnd] ∧
      fn.step env (.at ⟨k,.limitEntry⟩ σ) =
        some (.at ⟨k,if m = bound k then .limitReached else .limitCont⟩
          (σ.setReg ⟨k,.curCnt⟩ (.word m))) ∧
      fn.unlimited.step env (.at ⟨k,.limitEntry⟩ σ) =
        some (.at ⟨k,.limitCont⟩ (σ.setReg ⟨k,.curCnt⟩ (.word m))) := by
  obtain ⟨_,⟨rfl,hlt,hmem⟩,htest,hreached,_⟩ := (hfn.limits k).resolve_left hk
  refine ⟨hmem,hreached,step_limitTest env hlt htest hσ,?_⟩
  rw [unlimited_limitTest htest,hσ]

theorem Config.Passed.limitCont (hk : fn ⟨k,.limitEntry⟩ ≠ []) :
    Passed fn (m+1) (.at ⟨k,.limitCont⟩ (σ.setReg ⟨k,.curCnt⟩ (.word m))) :=
  .inr (.inl ⟨k,_,m,rfl,rfl,hk,by simp⟩)

theorem ne_nil_of_step {l : Label} (h : fn.unlimited.step env (.at l σ) = some b) : fn l ≠ [] := by
  intro hnil
  rw [Body.step,Body.unlimited,hnil] at h
  split_ifs at h <;> cases h

theorem Body.LimitedBy.over (hfn : fn.LimitedBy (Bounded bound ks)) (env : Env)
    (hreached : fn ⟨k,.limitReached⟩ = [.br scanEnd]) :
    ∃ σ', Traced (fn.step env) stepEvents [] (.at ⟨k,.limitReached⟩ σ) (.returned σ') := by
  have h₁ := step_limitReached (σ := σ) env hreached
  have h₂ := hfn.step_scanEnd (σ := σ) env
  have hev₁ : stepEvents (.at ⟨k,.limitReached⟩ σ) (.at scanEnd σ) = [] := stepEvents_eq_arrival rfl
  have hev₂ : stepEvents (.at scanEnd σ) (.returned (σ.emit .finish)) = [] := by
    apply stepEvents_eq_arrival
    simp [Config.state,State.collected,State.emit]
  have hrun : Traced (fn.step env) stepEvents _ _ _ := (Traced.single h₁).trans (.single h₂)
  rw [hev₁,hev₂] at hrun
  exact ⟨_,hrun⟩

theorem run_map_row (ts : List (List QrVal)) {hist : List ℕ} :
    LimitedStream.run (LimitedStream.shared bound) hist (ts.map .row ++ es) =
      ts.map .row ++ LimitedStream.run (LimitedStream.shared bound) hist es := by
  induction ts with
  | nil => rfl
  | cons t ts ih => exact congrArg (.row t :: ·) ih

/-- The function follows the one without tests up to an arrival at a limit whose bound is the
number of all arrivals before it. -/
theorem Body.LimitedBy.traced_run (hfn : fn.LimitedBy (Bounded bound ks)) {c : Config}
    (h : Traced (fn.unlimited.step env) stepEvents es a c) (hc : ∃ σ, c = .returned σ) :
    ∀ hist : List ℕ, a.Passed fn hist.length → ∃ σ', Traced (fn.step env) stepEvents
      (LimitedStream.run (LimitedStream.shared bound) hist es) a (.returned σ') := by
  induction h with
  | refl =>
    obtain ⟨σ,rfl⟩ := hc
    exact fun _ _ => ⟨σ,.refl⟩
  | @head a b _ es hs _ ih =>
    intro hist ha
    by_cases hin : a.In .limitEntry
    · cases a with
      | returned => cases hin
      | «at» l σ =>
        obtain ⟨k,name⟩ := l
        obtain rfl : name = .limitEntry := hin
        have hk := ne_nil_of_step hs
        obtain ⟨_,hreached,hstep,hpass⟩ := hfn.test env hk ha.at_limitEntry
        obtain rfl := Option.some.inj (Eq.trans (Eq.symm hs) hpass)
        rw [stepEvents_test,List.singleton_append,LimitedStream.run]
        by_cases hfull : LimitedStream.shared bound hist k
        · rw [if_pos hfull]
          rw [if_pos (show hist.length = bound k from hfull)] at hstep
          obtain ⟨σ',hover⟩ := hfn.over env hreached
          have hrun : Traced (fn.step env) stepEvents _ _ _ := .head hstep hover
          rw [stepEvents_test] at hrun
          exact ⟨σ',hrun⟩
        · rw [if_neg hfull]
          rw [if_neg (show ¬ hist.length = bound k from hfull)] at hstep
          have hlen : (hist ++ [k]).length = hist.length + 1 := by simp
          obtain ⟨σ',hrest⟩ := ih hc (hist ++ [k]) (by rw [hlen]; exact .limitCont hk)
          have hrun : Traced (fn.step env) stepEvents _ _ _ := .head hstep hrest
          rw [stepEvents_test] at hrun
          exact ⟨σ',hrun⟩
    · rw [unlimited_step hin] at hs
      obtain ⟨σ',hrest⟩ := ih hc hist (ha.step hfn hin hs)
      refine ⟨σ',?_⟩
      have hrun : Traced (fn.step env) stepEvents _ _ _ := .head hs hrest
      rw [stepEvents,arrival_of_not_in hin,List.nil_append] at hrun ⊢
      rwa [run_map_row]

theorem Body.LimitedBy.mem_of_arrivals (hfn : fn.LimitedBy (Bounded bound ks))
    (h : Traced (fn.unlimited.step env) stepEvents es a b) (ha : a.Passed fn 0) :
    ∀ k ∈ arrivals es, k ∈ ks := by
  let I : List TupleEvent → Config → Prop := fun es a =>
    (∀ k ∈ arrivals es, k ∈ ks) ∧ a.Passed fn (arrivals es).length
  have hstep : ∀ es a b, I es a → fn.unlimited.step env a = some b →
      I (es ++ stepEvents a b) b := by
    rintro es a b ⟨hmem,ha⟩ hs
    by_cases hin : a.In .limitEntry
    · cases a with
      | returned => cases hin
      | «at» l σ =>
        obtain ⟨k,name⟩ := l
        obtain rfl : name = .limitEntry := hin
        have hk := ne_nil_of_step hs
        obtain ⟨hkmem,_,_,hpass⟩ := hfn.test env hk ha.at_limitEntry
        obtain rfl := Option.some.inj (Eq.trans (Eq.symm hs) hpass)
        rw [stepEvents_test]
        refine ⟨?_,?_⟩
        · rw [LimitedStream.arrivals_append]
          exact List.forall_mem_append.2 ⟨hmem,List.forall_mem_singleton.2 hkmem⟩
        · rw [LimitedStream.arrivals_append,List.length_append]
          exact .limitCont hk
    · rw [unlimited_step hin] at hs
      have harr : arrivals (es ++ stepEvents a b) = arrivals es := by
        rw [LimitedStream.arrivals_append,arrivals_stepEvents hin,List.append_nil]
      show (∀ k ∈ arrivals (es ++ stepEvents a b), k ∈ ks) ∧ _
      rw [harr]
      exact ⟨hmem,ha.step hfn hin hs⟩
  have hI := h.invariant [] hstep ⟨by simp,ha⟩
  exact hI.1

theorem Config.Over.step (hfn : fn.LimitedBy (Bounded bound ks)) (ha : a.Over fn)
    (h : fn.step env a = some b) : b.Over fn := by
  cases a with
  | returned => cases h
  | «at» l σ =>
    rcases ha with ⟨_,hl⟩ | rfl
    · rw [Body.step,hl] at h
      obtain rfl := Option.some.inj h
      exact .inr rfl
    · rw [Body.step,hfn.ends] at h
      obtain rfl := Option.some.inj h
      trivial

theorem Config.Over.not_limitEntry (ha : a.Over fn) : ¬ a.In .limitEntry := by
  cases a with
  | returned => exact id
  | «at» l σ =>
    intro (hl : l.name = .limitEntry)
    rcases ha with ⟨hname,_⟩ | rfl
    · rw [hname] at hl
      cases hl
    · cases hl

theorem Body.LimitedBy.traced_passed (hfn : fn.LimitedBy (Bounded bound ks))
    (h : Traced (fn.step env) stepEvents es a b) (ha : a.Passed fn 0) :
    b.Passed fn (arrivals es).length ∨ b.Over fn := by
  let I : List TupleEvent → Config → Prop := fun es a =>
    a.Passed fn (arrivals es).length ∨ a.Over fn
  have hstep : ∀ es a b, I es a → fn.step env a = some b → I (es ++ stepEvents a b) b := by
    rintro es a b (ha | ha) hs
    · by_cases hin : a.In .limitEntry
      · cases a with
        | returned => cases hin
        | «at» l σ =>
          obtain ⟨k,name⟩ := l
          obtain rfl : name = .limitEntry := hin
          have hk : fn ⟨k,.limitEntry⟩ ≠ [] := by
            intro hnil
            rw [Body.step,hnil] at hs
            cases hs
          obtain ⟨_,hreached,hstep,_⟩ := hfn.test env hk ha.at_limitEntry
          obtain rfl := Option.some.inj (Eq.trans (Eq.symm hs) hstep)
          rw [stepEvents_test]
          show Config.Passed fn (arrivals (es ++ [.arrive k])).length _ ∨ _
          rw [LimitedStream.arrivals_append,List.length_append]
          split_ifs
          · exact .inr (.inl ⟨rfl,hreached⟩)
          · exact .inl (.limitCont hk)
      · left
        rw [LimitedStream.arrivals_append,arrivals_stepEvents hin,List.append_nil]
        exact ha.step hfn hin hs
    · exact .inr (ha.step hfn hs)
  exact h.invariant [] hstep (.inl ha)

theorem Body.LimitedBy.decides (hfn : fn.LimitedBy (Bounded bound ks))
    (h : Traced (fn.step env) stepEvents es a (.at ⟨k,.limitEntry⟩ σ)) (ha : a.Passed fn 0)
    (hs : fn.step env (.at ⟨k,.limitEntry⟩ σ) = some b) :
    (b.In .limitReached ↔ (arrivals es).length = bound k) ∧
      stepEvents (.at ⟨k,.limitEntry⟩ σ) b = [.arrive k] := by
  have hpassed := (hfn.traced_passed h ha).resolve_right fun hover => hover.not_limitEntry rfl
  have hk : fn ⟨k,.limitEntry⟩ ≠ [] := by
    intro hnil
    rw [Body.step,hnil] at hs
    cases hs
  obtain ⟨_,_,hstep,_⟩ := hfn.test env hk hpassed.at_limitEntry
  obtain rfl := Option.some.inj (Eq.trans (Eq.symm hs) hstep)
  refine ⟨?_,stepEvents_test _ _ _⟩
  by_cases hfull : (arrivals es).length = bound k
  · rw [if_pos hfull]
    exact iff_of_true rfl hfull
  · rw [if_neg hfull]
    exact iff_of_false (by simp [Config.In]) hfull

end Counter

section Take
variable {fn : Body} {call : Env × State} {bound : ℕ → ℕ} {ks : List ℕ} {es : List TupleEvent}

theorem Body.LimitedBy.limitsTake_iff_agree (hfn : fn.LimitedBy (Bounded bound ks)) (hks : ks.Nodup)
    (hes : fn.unlimited.Streams ⟨0,.entry⟩ call es) :
    fn.LimitsTake ⟨0,.entry⟩ call bound ks es ↔ Agree bound [] (arrivals es) := by
  have hentry : Config.Passed fn 0 (.at ⟨0,.entry⟩ call.2) := .inl ⟨_,rfl,rfl⟩
  obtain ⟨σ,hes⟩ := hes
  obtain ⟨σ',hrun⟩ := hfn.traced_run hes ⟨σ,rfl⟩ [] hentry
  constructor
  · intro h
    apply LimitedStream.agree_iff_run.2
    intro pre k post heq
    rw [heq] at hrun
    obtain ⟨es₁,d,d',l,l',hd,hs,hev,rfl⟩ := hrun.split
    obtain ⟨⟨σ₁,rfl⟩,rfl⟩ := stepEvents_arrive hev
    rw [List.append_nil,List.nil_append]
    exact (hfn.decides hd hentry hs).1.symm.trans (h.decides _ _ _ _ hd hs)
  · intro h
    refine ⟨⟨_,⟨σ',hrun⟩,?_⟩,?_⟩
    · rw [h.run_eq,← LimitedStream.rows_read hks (hfn.mem_of_arrivals hes hentry) (by simp)]
      simp
    · intro es' k σ₁ b hd hs
      obtain ⟨hdec,hev⟩ := hfn.decides hd hentry hs
      obtain ⟨rest,hsplit,hrest⟩ := hd.after hrun rfl
      rw [hdec]
      cases hrest with
      | head hs' hrest =>
        obtain rfl := Option.some.inj (Eq.trans (Eq.symm hs) hs')
        rw [hev,List.singleton_append] at hsplit
        exact LimitedStream.agree_iff_run.1 h es' k _ hsplit

end Take

section Plan
variable {p : Plan} {k : ℕ} {n : ℤ}

theorem Plan.lt_numVisits_of_boundAt (h : p.boundAt k = some n) : k < p.numVisits := by
  induction k generalizing p with
  | zero => cases p <;> simp [numVisits]
  | succ k ih =>
    cases p with
    | collect | endOp | join => simp [boundAt,opAt,input] at h
    | _ =>
      rw [boundAt_succ rfl] at h
      simpa [numVisits] using ih h

theorem Plan.bounded (hl : ∀ n ∈ p.limits, 0 ≤ n ∧ n < 2^31) (h : p.boundAt k = some n) :
    Bounded p.bound p.limitVisits k n := by
  obtain ⟨hzero,hlt⟩ := hl n (mem_limits_of_boundAt h)
  have hbound : p.bound k = n.toNat := by rw [bound,h,Option.getD_some]
  refine ⟨by omega,by omega,?_⟩
  rw [limitVisits,List.mem_filter,List.mem_range,h]
  exact ⟨lt_numVisits_of_boundAt h,rfl⟩

theorem Plan.limitVisits_nodup (p : Plan) : p.limitVisits.Nodup := List.nodup_range.filter _

end Plan

/-- Where the stages of a list are what the function without the tests does, the rows are those that
the stages hand on, each limit the first elements of the list in front of it. -/
theorem limitsTake_through (db : GraphDb) (er : ℕ → Option Expr) (p : Plan) (fn : Body)
    (entry : Label) (call : Env × State) (ss : List (LimitedStream.Stage ℕ (List QrVal)))
    (ts : List (List QrVal)) (hp : p.AccessPath) (hj : p.JoinFree)
    (hl : ∀ n ∈ p.limits, 0 ≤ n ∧ n < 2^31) (hgen : generateStart db er p = some (fn,entry))
    (hss : LimitedStream.limits ss = p.limitVisits)
    (hes : fn.unlimited.Streams entry call (ts.flatMap (LimitedStream.events ss)))
    (hagree : Agree p.bound [] (arrivals (ts.flatMap (LimitedStream.events ss)))) :
    ∃ es, fn.Streams entry call es ∧ rows es = LimitedStream.through p.bound ss ts := by
  obtain ⟨hfn,rfl⟩ := generateStart_limitedBy hp hj (fun _ _ hk => Plan.bounded hl hk) hgen
  obtain ⟨es,hrun,hrows⟩ := ((hfn.limitsTake_iff_agree p.limitVisits_nodup hes).2 hagree).collects
  refine ⟨es,hrun,hrows.trans ?_⟩
  rw [← hss,LimitedStream.rows_read_events (hss ▸ p.limitVisits_nodup)]

/-- The limits share their counter: they take the first tuples that arrive at them only if one
fills up before a tuple has arrived at another, or none of them is full by any count. -/
theorem limitsTake_iff (db : GraphDb) (er : ℕ → Option Expr) (p : Plan) (fn : Body) (entry : Label)
    (call : Env × State) (es : List TupleEvent) (hp : p.AccessPath) (hj : p.JoinFree)
    (hl : ∀ n ∈ p.limits, 0 ≤ n ∧ n < 2^31) (hgen : generateStart db er p = some (fn,entry))
    (hes : fn.unlimited.Streams entry call es) :
    fn.LimitsTake entry call p.bound p.limitVisits es ↔
      FirstAlone p.bound (arrivals es) ∨ NoneFull p.bound (arrivals es) := by
  obtain ⟨hfn,rfl⟩ := generateStart_limitedBy hp hj (fun _ _ hk => Plan.bounded hl hk) hgen
  rw [hfn.limitsTake_iff_agree p.limitVisits_nodup hes,LimitedStream.agree_iff]

def limitedKnown (m n : ℤ) : Plan :=
  .scan "Person" false (.limit m (.foreachRship .TO (0,0) "knows" (.limit n (.collect false))))

def knownEnv : Env := pairEnv fun opId => if opId = 3 then "knows" else "Person"

theorem limitsTake_limitedKnown : ∃ fn entry,
    generateStart knownEnv.db (fun _ => none) (limitedKnown 1 5) = some (fn,entry) ∧
      fn.LimitsTake entry (knownEnv,.fresh) (limitedKnown 1 5).bound (limitedKnown 1 5).limitVisits
        [.arrive 1,.arrive 1,.arrive 3,.row [.node 1,.rship 0]] := by
  refine ⟨_,_,rfl,(limitsTake_iff knownEnv.db (fun _ => none) (limitedKnown 1 5) _ _
    (knownEnv,.fresh) _ ⟨rfl,rfl,rfl,rfl,rfl⟩ trivial (by decide) rfl
    (Body.streams_of_streamRun 60 rfl)).2 (.inl ⟨1,?_⟩)⟩
  decide

def limitedTwice (m n : ℤ) : Plan := .scan "Person" false (.limit m (.limit n (.collect false)))

def twoPersons : List TupleEvent :=
  [.arrive 1,.arrive 2,.row [.node 0],.arrive 1,.arrive 2,.row [.node 1]]

/-- Two limits of one: the first person fills the second limit by passing the first. -/
theorem not_limitsTake_limitedTwice : ∃ fn entry,
    generateStart chunksEnv.db (fun _ => none) (limitedTwice 1 1) = some (fn,entry) ∧
      fn.unlimited.Streams entry (chunksEnv,.fresh) twoPersons ∧
      ¬ fn.LimitsTake entry (chunksEnv,.fresh) (limitedTwice 1 1).bound
        (limitedTwice 1 1).limitVisits
        twoPersons := by
  refine ⟨_,_,rfl,Body.streams_of_streamRun 40 rfl,?_⟩
  rintro ⟨⟨es,hes,hrows⟩,_⟩
  obtain rfl : es = [.arrive 1,.arrive 2] := hes.eq_of_streamRun 40 rfl
  exact absurd hrows (by decide)

end GraphQueryCompiler
