import GraphQueryCompiler.StartFunction

/-!
# The argument slots of later queries

`arg_counter` is a member of the engine that nothing resets. The labels of a query go into
the slots behind those of all queries before it, although the generated code of every query
numbers its arguments from 1 on.
-/

namespace GraphQueryCompiler
open StepMachine

/-- `query_args` and `arg_counter` of an engine that has generated these plans. -/
inductive Extracts : List Plan → Extraction → Prop
  | nil : Extracts [] .init
  | snoc {ps : List Plan} {p : Plan} {e e' : Extraction} : Extracts ps e →
      Returns extractStep (.loop p [] e) (.done e') → Extracts (ps ++ [p]) e'

def Extraction.Stores (e e' : Extraction) (slot : ℕ) (label : String) : Prop :=
  e.argCounter ≤ slot ∧ slot < e'.argCounter ∧ e'.args.PointsTo slot label

/-- The plans are extracted one after the other, and the labels of the last one go into the
slots that a fresh engine stores them in. -/
def StoresAsFirst (ps : List Plan) (p : Plan) : Prop :=
  ∃ e e' e₁, Extracts ps e ∧ Returns extractStep (.loop p [] e) (.done e') ∧
    Returns extractStep (.loop p [] .init) (.done e₁) ∧
    ∀ slot label, e.Stores e' slot label ↔ Extraction.init.Stores e₁ slot label

def allExtracted (ps : List Plan) : List String := ps.flatMap fun p => p.extracted false

section Slots
variable {ps : List Plan} {p : Plan} {e e' : Extraction} {labels ls : List String}

theorem extracts_iff_puts (hs : ∀ p ∈ ps, p.Sources) :
    Extracts ps e ↔ Extraction.init.puts (allExtracted ps) = some e := by
  constructor
  · intro h
    induction h with
    | nil => rfl
    | @snoc ps p e e' _ hret ih =>
      obtain ⟨hps,hp⟩ := List.forall_mem_append.1 hs
      rw [allExtracted,List.flatMap_append,Extraction.puts_append,← allExtracted,ih hps,
        Option.bind_some,List.flatMap_singleton]
      exact (returns_iff_puts (hp p (by simp))).1 hret
  · induction ps using List.reverseRecOn generalizing e with
    | nil =>
      intro h
      obtain rfl : Extraction.init = e := by simpa [allExtracted,Extraction.puts] using h
      exact .nil
    | append_singleton ps p ih =>
      intro h
      obtain ⟨hps,hp⟩ := List.forall_mem_append.1 hs
      rw [allExtracted,List.flatMap_append,Extraction.puts_append,List.flatMap_singleton,
        Option.bind_eq_some_iff] at h
      obtain ⟨e₁,he₁,h⟩ := h
      exact .snoc (ih hps he₁) ((returns_iff_puts (hp p (by simp))).2 h)

theorem HoldsLabels.stores_iff (h : HoldsLabels e labels) (hputs : e.puts ls = some e')
    (slot : ℕ) (label : String) :
    e.Stores e' slot label ↔ ∃ i, slot = labels.length+i+1 ∧ ls[i]? = some label := by
  have h' := h.puts hputs
  rw [Extraction.Stores,h.argCounter,h'.argCounter,h'.pointsTo,List.length_append]
  constructor
  · rintro ⟨hle,hlt,i,rfl,hi⟩
    rw [List.getElem?_append_right (by omega)] at hi
    exact ⟨i-labels.length,by omega,hi⟩
  · rintro ⟨i,rfl,hi⟩
    have hlen : i < ls.length := (List.getElem?_eq_some_iff.1 hi).1
    refine ⟨by omega,by omega,labels.length+i,by omega,?_⟩
    rwa [List.getElem?_append_right (by omega),Nat.add_sub_cancel_left]

theorem shifted_iff {n : ℕ} : (∀ (slot : ℕ) (label : String),
    (∃ i, slot = n+i+1 ∧ ls[i]? = some label) ↔ ∃ i, slot = 0+i+1 ∧ ls[i]? = some label) ↔
      ls = [] ∨ n = 0 := by
  constructor
  · intro h
    cases ls with
    | nil => exact .inl rfl
    | cons l ls =>
      obtain ⟨i,hi,_⟩ := (h 1 l).2 ⟨0,rfl,rfl⟩
      exact .inr (by omega)
  · rintro (rfl | rfl) <;> simp

theorem allExtracted_snoc : allExtracted (ps ++ [p]) = allExtracted ps ++ p.extracted false := by
  simp [allExtracted]

theorem init_puts_isSome : (Extraction.init.puts ls).isSome = true ↔ ls.length ≤ 63 := by
  rw [Extraction.puts_isSome,← List.length_eq_zero_iff]
  simp only [Extraction.init]
  omega

theorem StoresAsFirst.conditions (hps : ∀ q ∈ ps, q.Sources) (hp : p.Sources)
    (h : StoresAsFirst ps p) : (allExtracted (ps ++ [p])).length ≤ 63 ∧
      (p.extracted false = [] ∨ (allExtracted ps).length = 0) := by
  obtain ⟨e,e',e₁,hext,hret,hret₁,hsame⟩ := h
  rw [extracts_iff_puts hps] at hext
  rw [returns_iff_puts hp] at hret hret₁
  have hholds : HoldsLabels e (allExtracted ps) := holdsLabels_init.puts hext
  constructor
  · rw [← init_puts_isSome,allExtracted_snoc,Extraction.puts_append,hext,Option.bind_some,hret]
    rfl
  · refine shifted_iff.1 fun slot label => ?_
    rw [← hholds.stores_iff hret]
    exact (hsame slot label).trans (holdsLabels_init.stores_iff hret₁ slot label)

end Slots

/-- The labels of the last of several plans are stored as on a fresh engine, and nothing
behind the vectors, exactly if all labels together have slots, and either the last plan or
all plans before it have none. -/
theorem storesAsFirst_iff (ps : List Plan) (p : Plan) (hs : ∀ q ∈ ps ++ [p], q.Sources)
    (hfit : ∀ q ∈ ps ++ [p], (q.extracted false).length < 64) :
    StoresAsFirst ps p ↔ (allExtracted (ps ++ [p])).length ≤ 63 ∧
      (p.extracted false = [] ∨ ∀ q ∈ ps, q.extracted false = []) := by
  obtain ⟨hps,hp⟩ := List.forall_mem_append.1 hs
  have hp : p.Sources := hp p (by simp)
  have hlt : (p.extracted false).length < 64 := hfit p (by simp)
  have hnil : (∀ q ∈ ps, q.extracted false = []) ↔ (allExtracted ps).length = 0 := by
    rw [List.length_eq_zero_iff,allExtracted,List.flatMap_eq_nil_iff]
  rw [hnil]
  refine ⟨StoresAsFirst.conditions hps hp,fun ⟨hfits,hshift⟩ => ?_⟩
  rw [allExtracted_snoc,← init_puts_isSome,Extraction.puts_append] at hfits
  obtain ⟨e',he'⟩ := Option.isSome_iff_exists.1 hfits
  obtain ⟨e,hext,hret⟩ := Option.bind_eq_some_iff.1 he'
  obtain ⟨e₁,hret₁⟩ := Option.isSome_iff_exists.1
    (init_puts_isSome.2 (Nat.le_of_lt_succ hlt))
  have hholds : HoldsLabels e (allExtracted ps) := holdsLabels_init.puts hext
  refine ⟨e,e',e₁,(extracts_iff_puts hps).2 hext,(returns_iff_puts hp).2 hret,
    (returns_iff_puts hp).2 hret₁,fun slot label => ?_⟩
  rw [hholds.stores_iff hret]
  exact (shifted_iff.2 hshift slot label).trans (holdsLabels_init.stores_iff hret₁ slot label).symm

theorem storesAsFirst_afterCreate : StoresAsFirst [.create .node (0,0) (.collect false)]
    (.scan "Person" false (.expand .OUT "Book" (.collect false))) :=
  (storesAsFirst_iff [.create .node (0,0) (.collect false)]
    (.scan "Person" false (.expand .OUT "Book" (.collect false)))
    (by simp [Plan.Sources]) (by decide)).2 ⟨by decide,.inr (by decide)⟩

theorem not_storesAsFirst_afterScan : ¬ StoresAsFirst [.scan "Person" false (.collect false)]
    (.scan "Book" false (.collect false)) := by
  intro h
  have hps : ∀ q ∈ [Plan.scan "Person" false (.collect false)], q.Sources := by
    simp [Plan.Sources]
  have hp : (Plan.scan "Book" false (.collect false)).Sources := trivial
  exact absurd (h.conditions hps hp).2 (by decide)

def Call.plan? {β : Type*} : Call β → Option Plan
  | .generate q _ => some q.plan
  | _ => none

theorem Engine.Runs.extracts {β : Type*} {lastUnique : List String → ℕ} {genFuncs : List String}
    {calls : List (Call β)} {s : Engine β} (h : Runs lastUnique (.init genFuncs) calls s) :
    Extracts (calls.filterMap Call.plan?) s.extraction := by
  induction h with
  | nil => exact .nil
  | @snoc calls s s' c _ hstep ih =>
    rw [List.filterMap_append]
    cases c with
    | generate q b =>
      obtain ⟨m,hm⟩ := Compiles.compiled hstep
      exact ih.snoc hm.extraction
    | run cleanupQuery =>
      obtain rfl := hstep
      rw [show [Call.run cleanupQuery].filterMap Call.plan? = [] from rfl,List.append_nil]
      cases cleanupQuery <;> exact ih
    | runParallel | cleanup =>
      obtain rfl := hstep
      exact (List.append_nil _).symm ▸ ih

end GraphQueryCompiler
