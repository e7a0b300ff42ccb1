import GraphQueryCompiler.Interpreter
import GraphQueryCompiler.NestedLoopJoin

/-!
# Runs of the query engine

`query_engine::run` calls the compiled start functions. If the query was generated with the
parallel flag it interprets the plan first, into the same result set, and with an
`arg_builder` of its own. The execution of the interpreted queries is Poseidon's and enters
as a parameter.
-/

namespace GraphQueryCompiler
open StepMachine

def ArgBuilder.queryArgs (b : ArgBuilder) : QueryArgs where
  label opId := (b.stringArgs[opId]?).getD ""
  word opId := (b.intArgs[opId]?).getD 0

def Env.whole (env : Env) : Env := { env with first := 0, last := env.db.numChunks }

def Env.withArgs (env : Env) (args : QueryArgs) : Env := { env with args }

def State.collected (σ : State) : List (List QrVal) :=
  σ.trace.filterMap fun
    | .collect t => some t
    | _ => none

def State.collectAll (σ : State) (rows : List (List QrVal)) : State :=
  { σ with trace := σ.trace ++ rows.map .collect }

structure QueryEngine where
  parallel : Bool
  curQuery : Plan
  start : List (Body × Label)

/-- `query_engine::generate`, with the work of its thread done. -/
def QueryEngine.generate (db : GraphDb) (exprRegister : ℕ → Option Expr) (query : Plan)
    (parallel : Bool) : Option QueryEngine := do
  let fn ← generateStart db exprRegister query
  return ⟨parallel,query,[fn]⟩

def CallStarts (env : Env) : List (Body × Label) → State → State → Prop
  | [], σ, σ' => σ' = σ
  | fn :: fns, σ, σ' =>
    ∃ σ₁, Returns (fn.1.step env) (.at fn.2 σ) (.returned σ₁) ∧ CallStarts env fns σ₁ σ'

/-- What `interprete_visitor::start` collects: the queries it executes, and the members that
the predicates of the queries read. -/
abbrev Execute := List Query → InterpreteFilterVisitor → List (List QrVal)

/-- `query_engine::run` with the arguments of `env`. The start functions are called from the
last to the first; with `parallel_` set, the plan is interpreted before that. -/
def QueryEngine.Run (q : QueryEngine) (execute : Execute) (ifv : InterpreteFilterVisitor)
    (env : Env) (σ σ' : State) : Prop :=
  ∃ σ₁, (if q.parallel then
      ∃ iv n, q.curQuery.codegen (interpreteVisitor env.db .new) 1 true (.init ifv) = some (iv,n) ∧
        σ₁ = σ.collectAll (execute iv.start.1 iv.ifv)
    else σ₁ = σ) ∧ CallStarts env.whole q.start.reverse σ₁ σ'

/-- Interpreting the plan with the `arg_builder` of `run`, if it does not throw, evaluates it with
the labels in that. -/
def Interprets (env : Env) (er : ℕ → Option Expr) (p : Plan) (execute : Execute) : Prop :=
  ∀ ifv iv n, p.codegen (interpreteVisitor env.db .new) 1 true (.init ifv) = some (iv,n) →
    ∃ rows, (execute iv.start.1 iv.ifv).Perm rows ∧
      Evaluates (env.whole.withArgs ArgBuilder.new.queryArgs) er p rows

section Run
variable {env : Env} {er : ℕ → Option Expr} {p : Plan} {rows rows' : List (List QrVal)}
  {parallel : Bool} {q : QueryEngine} {execute : Execute} {ifv : InterpreteFilterVisitor}
  {σ σ' : State}

@[simp] theorem State.collected_collectAll :
    (σ.collectAll rows).collected = σ.collected ++ rows := by
  simp [collected,collectAll,List.filterMap_append,List.filterMap_map]

theorem State.Idle.collectAll (h : σ.Idle) : (σ.collectAll rows).Idle := ⟨h.tp,h.matTuple⟩

theorem State.collected_of_trace (h : σ'.trace = σ.trace ++ rows.map .collect ++ [.finish]) :
    σ'.collected = σ.collected ++ rows := by
  simp [collected,h,List.filterMap_append,List.filterMap_map]

theorem Evaluates.unique (hσ : σ.Idle) (h : Evaluates env er p rows)
    (h' : Evaluates env er p rows') : rows = rows' := by
  obtain ⟨fn,entry,hgen,hruns⟩ := h
  obtain ⟨fn',entry',hgen',hruns'⟩ := h'
  obtain ⟨rfl,rfl⟩ : fn = fn' ∧ entry = entry' := by simpa [hgen] using hgen'
  obtain ⟨σ₁,hret,_,htrace⟩ := hruns σ hσ
  obtain ⟨σ₂,hret₂,_,htrace₂⟩ := hruns' σ hσ
  obtain rfl : σ₁ = σ₂ := by simpa using Returns.unique hret hret₂
  have h := (State.collected_of_trace htrace).symm.trans (State.collected_of_trace htrace₂)
  exact List.append_cancel_left h

theorem callStarts_iff (hq : QueryEngine.generate env.db er p parallel = some q)
    (hrows : Evaluates env.whole er p rows) (hσ : σ.Idle) :
    ∃ σ₁, σ₁.collected = σ.collected ++ rows ∧
      ∀ σ', CallStarts env.whole q.start.reverse σ σ' ↔ σ' = σ₁ := by
  obtain ⟨fn,entry,hgen,hruns⟩ := hrows
  obtain rfl : ⟨parallel,p,[(fn,entry)]⟩ = q := by
    have hgen : generateStart env.db er p = some (fn,entry) := hgen
    simpa [QueryEngine.generate,hgen] using hq
  obtain ⟨σ₁,hret,_,htrace⟩ := hruns σ hσ
  refine ⟨σ₁,State.collected_of_trace htrace,fun σ' => ⟨?_,?_⟩⟩
  · rintro ⟨σ₂,hret₂,rfl⟩
    simpa using Returns.unique hret₂ hret
  · rintro rfl
    exact ⟨σ',hret,rfl⟩

theorem QueryEngine.generate_eq (hq : QueryEngine.generate env.db er p parallel = some q) :
    q.parallel = parallel ∧ q.curQuery = p := by
  simp only [generate,Option.bind_eq_bind,Option.bind_eq_some_iff,Option.pure_def,
    Option.some.injEq] at hq
  obtain ⟨_,_,rfl⟩ := hq
  exact ⟨rfl,rfl⟩

theorem QueryEngine.run_collected (hq : QueryEngine.generate env.db er p parallel = some q)
    (hinterp : parallel = true → Interprets env er p execute)
    (hrows : Evaluates env.whole er p rows)
    (hσ : σ.Idle) (hvisits : parallel = true → ∃ iv n,
      p.codegen (interpreteVisitor env.db .new) 1 true (.init ifv) = some (iv,n)) :
    ∃ first, (∃ σ', q.Run execute ifv env σ σ') ∧
      (∀ σ', q.Run execute ifv env σ σ' → σ'.collected.Perm (σ.collected ++ first ++ rows)) ∧
      if parallel then
        Evaluates (env.whole.withArgs ArgBuilder.new.queryArgs) er p first
      else first = [] := by
  obtain ⟨hpar,hcur⟩ := generate_eq hq
  cases parallel with
  | false =>
    obtain ⟨σ₁,hcoll,hcall⟩ := callStarts_iff hq hrows hσ
    refine ⟨[],⟨σ₁,σ,by simp [hpar],(hcall σ₁).2 rfl⟩,?_,rfl⟩
    rintro σ' ⟨σ₂,hfirst,hrest⟩
    obtain rfl : σ₂ = σ := by simpa [hpar] using hfirst
    obtain rfl := (hcall σ').1 hrest
    simp [hcoll]
  | true =>
    obtain ⟨iv,n,hgen⟩ := hvisits rfl
    obtain ⟨first,hperm,heval⟩ := hinterp rfl ifv iv n hgen
    obtain ⟨σ₁,hcoll,hcall⟩ := callStarts_iff hq hrows
      (hσ.collectAll)
    refine ⟨first,⟨σ₁,_,?_,(hcall σ₁).2 rfl⟩,?_,heval⟩
    · simp only [hpar,if_true,hcur]
      exact ⟨iv,n,hgen,rfl⟩
    · rintro σ' ⟨σ₂,hfirst,hrest⟩
      simp only [hpar,if_true,hcur] at hfirst
      obtain ⟨iv',n',hgen',rfl⟩ := hfirst
      obtain ⟨rfl,rfl⟩ : iv = iv' ∧ n = n' := by simpa [hgen] using hgen'
      obtain rfl := (hcall σ').1 hrest
      rw [hcoll,State.collected_collectAll]
      exact (hperm.append_left _).append_right _

theorem QueryEngine.Run.visits (hq : QueryEngine.generate env.db er p true = some q)
    (h : q.Run execute ifv env σ σ') :
    ∃ iv n, p.codegen (interpreteVisitor env.db .new) 1 true (.init ifv) = some (iv,n) := by
  obtain ⟨hpar,hcur⟩ := generate_eq hq
  obtain ⟨_,hfirst,_⟩ := h
  simp only [hpar,if_true,hcur] at hfirst
  obtain ⟨iv,n,hgen,_⟩ := hfirst
  exact ⟨iv,n,hgen⟩

/-- `run` returns, and leaves exactly these rows in an empty result set. -/
def QueryEngine.RunExact (q : QueryEngine) (execute : Execute) (ifv : InterpreteFilterVisitor)
    (env : Env) (σ : State) (rows : List (List QrVal)) : Prop :=
  (∃ σ', q.Run execute ifv env σ σ') ∧ ∀ σ', q.Run execute ifv env σ σ' → σ'.collected.Perm rows

theorem QueryEngine.RunExact.not_first
    (hq : QueryEngine.generate env.db er p parallel = some q)
    (hinterp : parallel = true → Interprets env er p execute)
    (hrows : Evaluates env.whole er p rows)
    (hj : p.JoinFree) (hσ : σ.Idle) (hempty : σ.collected = [])
    (h : q.RunExact execute ifv env σ rows) : parallel = false ∨
      p.labelSlots ≤ 63 ∧ Evaluates (env.whole.withArgs ArgBuilder.new.queryArgs) er p [] := by
  obtain ⟨σ₁,hrun₁⟩ := h.1
  cases parallel with
  | false => exact .inl rfl
  | true =>
    have hvisits := hrun₁.visits hq
    obtain ⟨first,⟨σ',hrun⟩,hcoll,hfirst⟩ :=
      run_collected hq hinterp hrows hσ fun _ => hvisits
    have hlen := ((hcoll σ' hrun).symm.trans (h.2 σ' hrun)).length_eq
    obtain rfl : first = [] := by simpa [hempty] using hlen
    obtain ⟨iv,n,hgen⟩ := hvisits
    exact .inr ⟨slotPairs_lt_iff_labelSlots.1 (slotPairs_lt hj hgen),hfirst⟩

/-- On an empty result set a run leaves exactly the rows of the plan if and only if it was not
generated with the parallel flag, or its labels fit into the vector and its evaluation with empty
ones has no rows. -/
theorem runExact_iff (env : Env) (er : ℕ → Option Expr) (p : Plan) (parallel : Bool)
    (q : QueryEngine) (execute : Execute) (ifv : InterpreteFilterVisitor) (σ : State)
    (rows : List (List QrVal)) (hp : p.AccessPath) (hj : p.JoinFree) (hl : p.Leaves true)
    (hq : QueryEngine.generate env.db er p parallel = some q)
    (hinterp : parallel = true → Interprets env er p execute)
    (hrows : Evaluates env.whole er p rows)
    (hσ : σ.Idle) (hempty : σ.collected = []) : q.RunExact execute ifv env σ rows ↔
      parallel = false ∨
        p.labelSlots ≤ 63 ∧ Evaluates (env.whole.withArgs ArgBuilder.new.queryArgs) er p [] := by
  refine ⟨fun h => h.not_first hq hinterp hrows hj hσ hempty,fun h => ?_⟩
  have hvisits : parallel = true → ∃ iv n,
      p.codegen (interpreteVisitor env.db .new) 1 true (.init ifv) = some (iv,n) := by
    rintro rfl
    have hslots := (h.resolve_left (by simp)).1
    obtain ⟨iv,n,_,hgen,_⟩ := interprete env.db .new ifv hp hj hl
      (slotPairs_lt_iff_labelSlots.2 hslots)
    exact ⟨iv,n,hgen⟩
  obtain ⟨first,hrun,hcoll,hfirst⟩ := q.run_collected hq hinterp hrows hσ hvisits
  have hnil : first = [] := by
    cases parallel with
    | false => exact hfirst
    | true => exact Evaluates.unique hσ hfirst (h.resolve_left (by simp)).2
  refine ⟨hrun,fun σ' h' => ?_⟩
  simpa [hempty,hnil] using hcoll σ' h'

theorem Plan.Nested.evaluates_nil_iff (hpath : p.AccessPath) (hn : p.Nested true)
    (hj : p.JoinFree) (hσ : σ.Idle) : Evaluates env er p [] ↔ p.rows env 1 [] = [] :=
  ⟨fun h => Evaluates.unique hσ (hn.evaluates hpath hj) h,
    fun h => h ▸ (hn.evaluates hpath hj : Evaluates env er p (p.rows env 1 []))⟩

end Run

def executeScan (db : GraphDb) : Execute
  | [[.allNodes,.hasLabel label,.collect]], _ =>
    ((db.chunks.flatten).filter fun n => (db.nodeById n).nodeLabel = db.getCode label).flatMap
      fun n => [[.node n]]
  | _, _ => []

theorem interprets_scan (env : Env) (er : ℕ → Option Expr) (label : String) (print : Bool) :
    Interprets env er (.scan label false (.collect print)) (executeScan env.db) := by
  intro ifv iv n hgen
  obtain ⟨rfl,rfl⟩ : (⟨2,[],ifv,[[.allNodes,.hasLabel "",.collect]]⟩ : InterpreteVisitor) = iv ∧
    2 = n := Prod.mk.inj (Option.some.inj hgen)
  have hcode : (env.whole.withArgs ArgBuilder.new.queryArgs).db.argLabel
      (env.whole.withArgs ArgBuilder.new.queryArgs).args 1 = env.db.getCode "" := rfl
  refine ⟨(Plan.scan label false (.collect print)).rows
    (env.whole.withArgs ArgBuilder.new.queryArgs) 1 [],?_,
    Plan.Nested.evaluates ⟨rfl,rfl⟩ ⟨rfl,.collect,rfl⟩ trivial⟩
  rw [Plan.rows,hcode]
  simp only [Env.withArgs,Env.whole,GraphDb.range_all]
  exact .refl _

theorem runExact_scan : ∃ q, QueryEngine.generate pairDb (fun _ => none)
    (.scan "Person" false (.collect false)) true = some q ∧ ∀ ifv σ, σ.Idle → σ.collected = [] →
      q.RunExact (executeScan pairDb) ifv (pairEnv fun _ => "Person") σ [[.node 0],[.node 1]] := by
  have hrows : Evaluates (pairEnv fun _ => "Person").whole (fun _ => none)
      (.scan "Person" false (.collect false)) [[.node 0],[.node 1]] :=
    Plan.Nested.evaluates ⟨rfl,rfl⟩ ⟨rfl,.collect,rfl⟩ trivial
  obtain ⟨fn,entry,hgen,_⟩ := id hrows
  have hgen : generateStart pairDb (fun _ => none) (.scan "Person" false (.collect false)) =
    some (fn,entry) := hgen
  have hq : QueryEngine.generate pairDb (fun _ => none) (.scan "Person" false (.collect false))
      true = some ⟨true,.scan "Person" false (.collect false),[(fn,entry)]⟩ := by
    simp [QueryEngine.generate,hgen]
  refine ⟨_,hq,fun ifv σ hσ hempty => ?_⟩
  exact (runExact_iff (pairEnv fun _ => "Person") (fun _ => none)
    (.scan "Person" false (.collect false)) true _ (executeScan pairDb) ifv σ
    [[.node 0],[.node 1]] ⟨rfl,rfl⟩ trivial rfl hq (fun _ => interprets_scan _ _ _ _) hrows hσ
    hempty).2
    (.inr ⟨by decide,Plan.Nested.evaluates ⟨rfl,rfl⟩ ⟨rfl,.collect,rfl⟩ trivial⟩)

def blankDb : GraphDb :=
  { pairDb with
    nodeById := fun n => { pairDb.nodeById n with nodeLabel := 0 }
    nodeById_id := pairDb.nodeById_id
    rshipList_ends := pairDb.rshipList_ends
    propertyList_ends := pairDb.propertyList_ends }

def blankEnv : Env := { pairEnv (fun _ => "") with db := blankDb }

/-- Both passes collect the nodes without labels. -/
theorem not_runExact_blank : ∃ q, QueryEngine.generate blankDb (fun _ => none)
    (.scan "" false (.collect false)) true = some q ∧
      Interprets blankEnv (fun _ => none) (.scan "" false (.collect false)) (executeScan blankDb) ∧
      Evaluates blankEnv.whole (fun _ => none) (.scan "" false (.collect false))
        [[.node 0],[.node 1]] ∧
      ∀ ifv σ, σ.Idle → σ.collected = [] →
        ¬ q.RunExact (executeScan blankDb) ifv blankEnv σ [[.node 0],[.node 1]] := by
  have hrows : Evaluates blankEnv.whole (fun _ => none)
      (.scan "" false (.collect false)) [[.node 0],[.node 1]] :=
    Plan.Nested.evaluates ⟨rfl,rfl⟩ ⟨rfl,.collect,rfl⟩ trivial
  obtain ⟨fn,entry,hgen,_⟩ := id hrows
  have hgen : generateStart blankDb (fun _ => none) (.scan "" false (.collect false)) =
    some (fn,entry) := hgen
  have hq : QueryEngine.generate blankDb (fun _ => none) (.scan "" false (.collect false))
      true = some ⟨true,.scan "" false (.collect false),[(fn,entry)]⟩ := by
    simp [QueryEngine.generate,hgen]
  have hinterp := interprets_scan blankEnv (fun _ => none) "" false
  refine ⟨_,hq,hinterp,hrows,fun ifv σ hσ hempty h => ?_⟩
  have hnil := ((h.not_first (show QueryEngine.generate blankEnv.db _ _ _ = _ from hq)
    (fun _ => hinterp) hrows trivial hσ hempty).resolve_left (by simp)).2
  have hnone := (Plan.Nested.evaluates_nil_iff (p := .scan "" false (.collect false)) ⟨rfl,rfl⟩
    ⟨rfl,.collect,rfl⟩ trivial hσ).1 hnil
  exact absurd hnone (by decide)

end GraphQueryCompiler
