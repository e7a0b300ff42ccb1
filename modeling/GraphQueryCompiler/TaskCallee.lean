import GraphQueryCompiler.StartFunction
import GraphQueryCompiler.CompileThread

/-!
# The callee of the scan tasks

`run_parallel` scans a plan without joins while the plan compiles. A thread waits for the
compilation and then replaces `scan_task::callee_`, which the scan calls for every morsel, by
a closure over its own variables and parameters, which are gone when it returns. Nothing but
the caller sets it back.
-/

namespace GraphQueryCompiler

/-- `scan_task::callee_`: `scan_task::scan`, or the closure that a call of `run_parallel` has
made. -/
inductive TaskCallee
  | scan
  | closure (call : ℕ)

inductive Evaluation
  | interpreted (call : ℕ)
  | compiled (start : Option String) (rs : Option ℕ)

structure Process (β : Type*) where
  engine : Engine β
  callee : TaskCallee

/-- `scan_task::callee_` is called, in a scan of the call. A closure refers to the parameters of the
call that has made it: behind that call, nothing is known of its result set. -/
inductive Process.Evaluates {β : Type*} (s : Process β) (call : ℕ) : Evaluation → Prop
  | scan (h : s.callee = .scan) : s.Evaluates call (.interpreted call)
  | closure (h : s.callee = .closure call) :
      s.Evaluates call (.compiled s.engine.start (some call))
  | stale {k : ℕ} {rs : Option ℕ} (h : s.callee = .closure k) (hk : k ≠ call) :
      s.Evaluates call (.compiled s.engine.start rs)

inductive Phase
  | compiling
  | compiled
  | replaced

/-- A call of `generate(q, true)` and of `run_parallel`, with the morsels evaluated so far. -/
structure ParallelRun (β : Type*) where
  process : Process β
  phase : Phase
  morsels : List Evaluation

inductive ParallelRun.Step {β : Type*} (lastUnique : List String → ℕ) (q : QueryPlan) (b : β)
    (call : ℕ) : ParallelRun β → ParallelRun β → Prop
  | compile {s : Process β} {e : Engine β} {es : List Evaluation} :
      s.engine.Compiles lastUnique q b e →
      Step lastUnique q b call ⟨s,.compiling,es⟩ ⟨{ s with engine := e },.compiled,es⟩
  | replace {s : Process β} {es : List Evaluation} :
      Step lastUnique q b call ⟨s,.compiled,es⟩ ⟨{ s with callee := .closure call },.replaced,es⟩
  | morsel {s : Process β} {phase : Phase} {es : List Evaluation} {x : Evaluation} :
      s.Evaluates call x → Step lastUnique q b call ⟨s,phase,es⟩ ⟨s,phase,es ++ [x]⟩

namespace Process
variable {β : Type*}

/-- `generate(q, true)` and `run_parallel`, for a plan without joins: both threads are joined. -/
def Pair (lastUnique : List String → ℕ) (q : QueryPlan) (b : β) (call : ℕ) (s : Process β)
    (morsels : List Evaluation) (s' : Process β) : Prop :=
  q.plan.hasJoin = false ∧
    Relation.ReflTransGen (ParallelRun.Step lastUnique q b call) ⟨s,.compiling,[]⟩
      ⟨s',.replaced,morsels⟩

end Process

/-- What happens in the process: the two calls for a query, `cleanup`, and the assignment of
`&scan_task::scan` to `scan_task::callee_`. -/
inductive ProcessCall (β : Type*)
  | pair (q : QueryPlan) (b : β)
  | cleanup
  | resetCallee

namespace ProcessCall
variable {β : Type*}

def isPair : ProcessCall β → Bool
  | .pair .. => true
  | _ => false

def isCleanup : ProcessCall β → Bool
  | .cleanup => true
  | _ => false

def isReset : ProcessCall β → Bool
  | .resetCallee => true
  | _ => false

def engineCalls : ProcessCall β → List (Call β)
  | .pair q b => [.generate q b,.runParallel]
  | .cleanup => [.cleanup]
  | .resetCallee => []

end ProcessCall

/-- A history of the process. A pair is known by its place in it. -/
inductive Process.Runs {β : Type*} (lastUnique : List String → ℕ) (s₀ : Process β) :
    List (ProcessCall β) → Process β → Prop
  | nil : Runs lastUnique s₀ [] s₀
  | pair {calls : List (ProcessCall β)} {s s' : Process β} {q : QueryPlan} {b : β}
      {morsels : List Evaluation} : Runs lastUnique s₀ calls s →
      s.Pair lastUnique q b calls.length morsels s' →
      Runs lastUnique s₀ (calls ++ [.pair q b]) s'
  | cleanup {calls : List (ProcessCall β)} {s : Process β} : Runs lastUnique s₀ calls s →
      Runs lastUnique s₀ (calls ++ [.cleanup]) { s with engine := s.engine.cleanup }
  | resetCallee {calls : List (ProcessCall β)} {s : Process β} : Runs lastUnique s₀ calls s →
      Runs lastUnique s₀ (calls ++ [.resetCallee]) { s with callee := .scan }

/-- The morsel goes through the interpreter of the call, or through the main function of the
module of its query, into its result set. -/
def Evaluation.Own {β : Type*} (lastUnique : List String → ℕ) (q : QueryPlan) (s : Engine β)
    (call : ℕ) : Evaluation → Prop
  | .interpreted k => k = call
  | .compiled start rs => rs = some call ∧ start ≠ none ∧
      ∃ m, Compilation.module lastUnique ⟨q.plan,q.name,s.genFuncs⟩ s.queryCnt = some m ∧
        start = m.mainFunction

namespace Process
open StepMachine
variable {β : Type*} {lastUnique : List String → ℕ} {q : QueryPlan} {b : β} {call : ℕ}
  {s s' s₀ : Process β} {e : Engine β} {es : List Evaluation} {calls : List (ProcessCall β)}

def InPhase (lastUnique : List String → ℕ) (q : QueryPlan) (b : β) (call : ℕ) (s : Process β)
    (phase : Phase) (s' : Process β) : Prop :=
  match phase with
  | .compiling => s' = s
  | .compiled => ∃ e, s.engine.Compiles lastUnique q b e ∧ s' = { s with engine := e }
  | .replaced => ∃ e, s.engine.Compiles lastUnique q b e ∧ s' = ⟨e,.closure call⟩

theorem step_inPhase {r r' : ParallelRun β} (h : ParallelRun.Step lastUnique q b call r r')
    (hr : s.InPhase lastUnique q b call r.phase r.process) :
    s.InPhase lastUnique q b call r'.phase r'.process := by
  cases h with
  | compile he =>
    obtain rfl : _ = s := hr
    exact ⟨_,he,rfl⟩
  | replace =>
    obtain ⟨e,he,rfl⟩ := hr
    exact ⟨e,he,rfl⟩
  | morsel _ => exact hr

theorem run_inPhase {r : ParallelRun β}
    (h : Relation.ReflTransGen (ParallelRun.Step lastUnique q b call) ⟨s,.compiling,[]⟩ r) :
    s.InPhase lastUnique q b call r.phase r.process := by
  induction h with
  | refl => rfl
  | tail _ hstep ih => exact step_inPhase hstep ih

theorem Pair.process (h : s.Pair lastUnique q b call es s') :
    ∃ e, s.engine.Compiles lastUnique q b e ∧ s' = ⟨e,.closure call⟩ := run_inPhase h.2

theorem Pair.mem_morsels (h : s.Pair lastUnique q b call es s') {x : Evaluation} (hx : x ∈ es) :
    ∃ phase s₁, s.InPhase lastUnique q b call phase s₁ ∧ s₁.Evaluates call x := by
  obtain ⟨_,hrun⟩ := h
  suffices hall : ∀ r, Relation.ReflTransGen (ParallelRun.Step lastUnique q b call)
      ⟨s,.compiling,[]⟩ r → ∀ x ∈ r.morsels,
        ∃ phase s₁, s.InPhase lastUnique q b call phase s₁ ∧ s₁.Evaluates call x from
    hall _ hrun x hx
  intro r hr
  induction hr with
  | refl => simp
  | tail hr hstep ih =>
    have hin := run_inPhase hr
    cases hstep with
    | compile | replace => exact ih
    | morsel heval =>
      intro x hx
      rcases List.mem_append.1 hx with hx | hx
      · exact ih x hx
      · obtain rfl := List.mem_singleton.1 hx
        exact ⟨_,_,hin,heval⟩

theorem steps_morsels {x : Evaluation} (hx : s.Evaluates call x) (phase : Phase) (n : ℕ) :
    ∀ es : List Evaluation,
    Relation.ReflTransGen (ParallelRun.Step lastUnique q b call) ⟨s,phase,es⟩
      ⟨s,phase,es ++ List.replicate n x⟩ := by
  induction n with
  | zero =>
    intro es
    simpa using Relation.ReflTransGen.refl
  | succ n ih =>
    intro es
    have hrest := ih (es ++ [x])
    rw [List.append_assoc,List.singleton_append,← List.replicate_succ] at hrest
    exact Relation.ReflTransGen.head (.morsel hx) hrest

theorem exists_pair {x : Evaluation} (hx : s.Evaluates call x) (hjoin : q.plan.hasJoin = false)
    (he : s.engine.Compiles lastUnique q b e) (n m : ℕ) :
    s.Pair lastUnique q b call (List.replicate n x ++
      List.replicate m (.compiled e.start (some call))) ⟨e,.closure call⟩ := by
  have hbefore : Relation.ReflTransGen (ParallelRun.Step lastUnique q b call) ⟨s,.compiling,[]⟩
      ⟨s,.compiling,List.replicate n x⟩ := steps_morsels hx .compiling n []
  exact ⟨hjoin,((hbefore.tail (.compile he)).tail .replace).trans
    (steps_morsels (s := ⟨e,.closure call⟩) (.closure rfl) .replaced m _)⟩

theorem Pair.step (h : s.Pair lastUnique q b call es s') :
    Engine.Step lastUnique (.generate q b) s.engine s'.engine := by
  obtain ⟨e,he,rfl⟩ := h.process
  exact he

theorem Runs.engine (h : Runs lastUnique s₀ calls s) :
    Engine.Runs lastUnique s₀.engine (calls.flatMap ProcessCall.engineCalls) s.engine := by
  induction h with
  | nil => exact .nil
  | @pair calls s s' q b es _ hpair ih =>
    rw [List.flatMap_append]
    have hgen := Engine.Runs.snoc ih hpair.step
    simpa [ProcessCall.engineCalls,Call.cleans] using
      Engine.Runs.snoc (c := .runParallel) hgen rfl
  | cleanup _ ih =>
    rw [List.flatMap_append]
    exact .snoc (c := .cleanup) ih rfl
  | resetCallee _ ih => simpa [ProcessCall.engineCalls] using ih

theorem Runs.operatorNames_eq_nil (h : Runs lastUnique s₀ calls s)
    (h₀ : s₀.engine.operatorNames = []) : s.engine.operatorNames = [] ↔
      Followed (fun c => c.isPair = true) (fun c => c.isCleanup = true) calls := by
  induction h with
  | nil => simp [h₀,followed_nil]
  | pair _ hpair ih =>
    obtain ⟨m,hm⟩ := Engine.Compiles.compiled hpair.step
    rw [followed_snoc (by simp [ProcessCall.isCleanup]),hm.operatorNames]
    simp [ProcessCall.isPair,ProcessCall.isCleanup]
  | cleanup _ ih =>
    rw [followed_snoc (by simp [ProcessCall.isPair])]
    simp [ProcessCall.isCleanup,Engine.cleanup]
  | resetCallee _ ih =>
    rw [followed_snoc (by simp [ProcessCall.isPair]),ih]
    simp [ProcessCall.isPair,ProcessCall.isCleanup]

theorem Runs.callee (h : Runs lastUnique s₀ calls s) (h₀ : s₀.callee = .scan) :
    (∀ k, s.callee = .closure k → k < calls.length) ∧ (s.callee = .scan ↔
      Followed (fun c => c.isPair = true) (fun c => c.isReset = true) calls) := by
  induction h with
  | nil => simp [h₀,followed_nil]
  | pair _ hpair ih =>
    obtain ⟨e,_,rfl⟩ := hpair.process
    rw [followed_snoc (by simp [ProcessCall.isReset])]
    simp [ProcessCall.isPair,ProcessCall.isReset]
  | cleanup _ ih =>
    rw [followed_snoc (by simp [ProcessCall.isPair]),← ih.2]
    refine ⟨fun k hk => ?_,by simp [ProcessCall.isPair,ProcessCall.isReset]⟩
    have hlt := ih.1 k hk
    simp only [List.length_append,List.length_singleton]
    omega
  | resetCallee _ ih =>
    rw [followed_snoc (by simp [ProcessCall.isPair])]
    simp [ProcessCall.isReset]

theorem own_compiled_iff (he : s.engine.Compiles lastUnique q b e) (hs : s.engine.Defined) :
    (Evaluation.compiled e.start (some call)).Own lastUnique q s.engine call ↔
      s.engine.operatorNames = [] := by
  obtain ⟨m,hm⟩ := he.compiled
  rw [← hm.start_iff hs,← hm.mainFunction]
  constructor
  · rintro ⟨_,_,m',hm',hstart⟩
    obtain rfl : m = m' := Option.some.inj (hm.module.symm.trans hm')
    exact hstart
  · intro hstart
    refine ⟨rfl,?_,m,hm.module,hstart⟩
    rw [hstart,hm.mainFunction]
    simp

/-- Before the compilation has ended, the function in `start_[0]` is of an older query. -/
theorem not_own_older {rs : Option ℕ} (he : s.engine.Compiles lastUnique q b e)
    (hs : s.engine.Loaded) :
    ¬ (Evaluation.compiled s.engine.start rs).Own lastUnique q s.engine call := by
  obtain ⟨m,hm⟩ := he.compiled
  rintro ⟨_,_,m',hm',hstart⟩
  obtain rfl : m = m' := Option.some.inj (hm.module.symm.trans hm')
  rw [hm.mainFunction] at hstart
  exact hm.fresh hm.start_mem (hs _ hstart)

theorem exists_evaluates (hlt : ∀ k, s.callee = .closure k → k < call)
    (he : s.engine.Compiles lastUnique q b e) (hs : s.engine.Loaded) :
    ∃ x, s.Evaluates call x ∧ (x.Own lastUnique q s.engine call → s.callee = .scan) := by
  cases hc : s.callee with
  | scan => exact ⟨_,.scan hc,fun _ => rfl⟩
  | closure k =>
    exact ⟨.compiled s.engine.start (some call),.stale hc (Nat.ne_of_lt (hlt k hc)),
      fun hown => absurd hown (not_own_older he hs)⟩

theorem Evaluates.own_of_scan {x : Evaluation} (h : s.Evaluates call x) (hscan : s.callee = .scan)
    (s₁ : Engine β) : x.Own lastUnique q s₁ call := by
  cases h with
  | scan => rfl
  | closure h | stale h =>
    rw [hscan] at h
    cases h

theorem Evaluates.eq_of_closure {x : Evaluation} (h : s.Evaluates call x)
    (hclosure : s.callee = .closure call) : x = .compiled s.engine.start (some call) := by
  cases h with
  | scan h =>
    rw [hclosure] at h
    cases h
  | closure => rfl
  | stale h hk =>
    rw [hclosure] at h
    exact absurd (TaskCallee.closure.inj h).symm hk

theorem Pair.own (h : s.Pair lastUnique q b call es s') (hs : s.engine.Defined)
    (hscan : s.callee = .scan) (hnames : s.engine.operatorNames = []) :
    ∀ x ∈ es, x.Own lastUnique q s.engine call := by
  intro x hx
  obtain ⟨phase,s₁,hphase,heval⟩ := h.mem_morsels hx
  cases phase with
  | compiling =>
    obtain rfl : s₁ = s := hphase
    exact heval.own_of_scan hscan _
  | compiled =>
    obtain ⟨e,_,rfl⟩ := hphase
    exact heval.own_of_scan hscan _
  | replaced =>
    obtain ⟨e,he,rfl⟩ := hphase
    obtain rfl := heval.eq_of_closure rfl
    exact (own_compiled_iff he hs).2 hnames

end Process

/-- After any history, every morsel of a query without joins goes through the interpreter or the
compiled code of that query, into its result set, whenever the compilation ends, exactly if there
is no morsel, or behind every earlier pair the engine was cleaned up and the callee was reset. -/
theorem morsels_own_iff {β : Type*} (lastUnique : List String → ℕ) (genFuncs : List String)
    (calls : List (ProcessCall β)) (s : Process β) (q : QueryPlan) (b : β) (n : ℕ)
    (hruns : Process.Runs lastUnique ⟨.init genFuncs,.scan⟩ calls s)
    (hjoin : q.plan.hasJoin = false) (hcompiles : ∃ e, s.engine.Compiles lastUnique q b e) :
    (∀ morsels s', s.Pair lastUnique q b calls.length morsels s' → morsels.length = n →
      ∀ x ∈ morsels, x.Own lastUnique q s.engine calls.length) ↔
      n = 0 ∨ StepMachine.Followed (fun c => c.isPair = true) (fun c => c.isCleanup = true) calls ∧
        StepMachine.Followed (fun c => c.isPair = true) (fun c => c.isReset = true) calls := by
  have hdef : s.engine.Defined := hruns.engine.defined (by simp [Engine.Defined,Engine.init])
  have hload : s.engine.Loaded := hruns.engine.loaded (by simp [Engine.Loaded,Engine.init])
  obtain ⟨hlt,hreset⟩ := hruns.callee rfl
  rw [← hruns.operatorNames_eq_nil rfl,← hreset]
  constructor
  · intro h
    by_cases hn : n = 0
    · exact .inl hn
    obtain ⟨e,he⟩ := hcompiles
    obtain ⟨x,hx,hscan⟩ := Process.exists_evaluates hlt he hload
    -- the compilation ends in front of the morsels, or behind them
    have hfirst := h _ _ (Process.exists_pair hx hjoin he 0 n) (by simp)
      (.compiled e.start (some calls.length)) (by simp [hn])
    have hlast := h _ _ (Process.exists_pair hx hjoin he n 0) (by simp) x (by simp [hn])
    exact .inr ⟨(Process.own_compiled_iff he hdef).1 hfirst,hscan hlast⟩
  · rintro (rfl | ⟨hnames,hscan⟩) morsels s' hpair hlen
    · obtain rfl := List.length_eq_zero_iff.1 hlen
      simp
    · exact hpair.own hdef hscan hnames

theorem morsels_own_persons : ∃ e, Engine.Compiles (fun _ => 0) personsQuery ()
      (.init [] : Engine Unit) e ∧
    ∀ n morsels s', Process.Pair (fun _ => 0) personsQuery () 0 ⟨.init [],.scan⟩ morsels s' →
      morsels.length = n → ∀ x ∈ morsels, x.Own (fun _ => 0) personsQuery
        (.init [] : Engine Unit) 0 := by
  obtain ⟨e,he⟩ := Engine.exists_compiles (fun _ => 0) personsQuery (b := ())
    (Engine.named_init []) rfl (StepMachine.returns_of_run 2 rfl)
  exact ⟨e,he,fun n => (morsels_own_iff (fun _ => 0) [] [] _ personsQuery () n .nil rfl ⟨e,he⟩).2
    (.inr ⟨StepMachine.followed_nil,StepMachine.followed_nil⟩)⟩

/-- The first morsel of a second query goes to the closure of the first, which calls the function of
the first query. -/
theorem not_morsels_own_books : ∃ s s' : Process Unit, ∃ morsels,
    Process.Runs (fun _ => 0) ⟨.init [],.scan⟩ [.pair personsQuery ()] s ∧
      s.Pair (fun _ => 0) booksQuery () 1 morsels s' ∧
      ¬ ∀ x ∈ morsels, x.Own (fun _ => 0) booksQuery s.engine 1 := by
  obtain ⟨s,s',hs,hs'⟩ := exists_compiles_persons booksQuery trivial rfl (by decide)
  have hscan : (⟨.init [],.scan⟩ : Process Unit).Evaluates 0 (.interpreted 0) := .scan rfl
  have hfirst : Process.Runs (fun _ => 0) ⟨.init [],.scan⟩ ([] ++ [.pair personsQuery ()])
      ⟨s,.closure 0⟩ :=
    .pair .nil (Process.exists_pair hscan rfl hs 0 0)
  have hstale : Process.Evaluates ⟨s,.closure 0⟩ 1 (.compiled s.start (some 1)) :=
    .stale rfl (by decide)
  have hload : s.Loaded := hfirst.engine.loaded (by simp [Engine.Loaded,Engine.init])
  refine ⟨⟨s,.closure 0⟩,_,_,hfirst,Process.exists_pair hstale rfl hs' 1 0,fun h => ?_⟩
  exact Process.not_own_older (s := ⟨s,.closure 0⟩) hs' hload (h _ List.mem_cons_self)

end GraphQueryCompiler
