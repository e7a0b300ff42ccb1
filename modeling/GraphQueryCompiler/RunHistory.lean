import GraphQueryCompiler.ListReads
import GraphQueryCompiler.CrossJoinRows
import GraphQueryCompiler.QueryEngine
import GraphQueryCompiler.StartFunction

/-!
# Runs one after another

`joiner::rhs_input_` is static and keyed by join ids that begin at 0 for every query. Nothing in
the engine clears it, so a query whose code reads a list of an earlier run joins its tuples too.
-/

namespace GraphQueryCompiler
open StepMachine

namespace Engine

def code {β : Type*} (s : Engine β) (name : String) : Option β := (s.symbols.lookup name).join

end Engine

/-- The process between two calls: the engine, `cur_query_` with the code generated for it, and
the runtime. -/
structure Session where
  engine : Engine (Body × Label)
  curQuery : Option (QueryPlan × Body × Label)
  state : State

/-- `generate(q, false)`, `run` with the arguments of `env`, `cleanup`, and what a program does
to the lists itself. -/
inductive SessionCall
  | generate (q : QueryPlan)
  | run (env : Env) (cleanupQuery : Bool)
  | cleanup
  | clearRhsInput

namespace Session

/-- The start function in `start_[0]` is called over all chunks, if there is one. Its locals
begin with any content. -/
def Executes (s : Session) (env : Env) (σ' : State) : Prop :=
  match s.engine.start with
  | none => σ' = s.state
  | some f => ∃ fn entry reg cell, s.engine.code f = some (fn,entry) ∧
      Returns (fn.step env.whole) (.at entry { s.state with reg := reg, cell := cell })
        (.returned σ')

def Step (db : GraphDb) (lastUnique : List String → ℕ) (s : Session) :
    SessionCall → Session → Prop
  | .generate q, s' => ∃ exprRegister code engine,
      generateStart db exprRegister q.plan = some code ∧
      s.engine.Compiles lastUnique q code engine ∧ s' = ⟨engine,some (q,code),s.state⟩
  | .run env cleanupQuery, s' => env.db = db ∧ ∃ σ', s.Executes env σ' ∧
      s' = ⟨if cleanupQuery then s.engine.cleanup else s.engine,s.curQuery,σ'⟩
  | .cleanup, s' => s' = { s with engine := s.engine.cleanup }
  | .clearRhsInput, s' => s' = { s with state := { s.state with rhsInput := fun _ => [] } }

inductive Runs (db : GraphDb) (lastUnique : List String → ℕ) (s₀ : Session) :
    List (Session × SessionCall × Session) → Session → Prop
  | nil : Runs db lastUnique s₀ [] s₀
  | snoc {calls : List (Session × SessionCall × Session)} {s s' : Session} {c : SessionCall} :
      Runs db lastUnique s₀ calls s → s.Step db lastUnique c s' →
      Runs db lastUnique s₀ (calls ++ [(s,c,s')]) s'

/-- The run collects what the code of its query collects where nothing has been materialised. -/
def CollectsOwn (env : Env) (s s' : Session) : Prop :=
  ∃ q fn entry reg cell τ, s.curQuery = some (q,fn,entry) ∧
    Returns (fn.step env.whole) (.at entry
      { s.state with reg := reg, cell := cell, rhsInput := fun _ => [] }) (.returned τ) ∧
    s'.state.collected = τ.collected

def CollectsRows (env : Env) (s s' : Session) : Prop :=
  ∃ q code, s.curQuery = some (q,code) ∧
    s'.state.collected = s.state.collected ++ q.plan.rows env.whole 1 []

/-- What is asked of the state before a call: a query is generated after a `cleanup`, and run
before the next, with the lists of its joins empty. -/
def Meets (s : Session) : SessionCall → Prop
  | .generate _ => s.engine.operatorNames = []
  | .run .. => s.engine.start ≠ none ∧
      ∀ q code, s.curQuery = some (q,code) → ∀ i < q.plan.numJoins, s.state.rhsInput i = []
  | _ => True

/-- `start_[0]` is the code of `cur_query_`. -/
structure Valid (db : GraphDb) (s : Session) : Prop where
  generated : ∀ q code, s.curQuery = some (q,code) →
    ∃ exprRegister, generateStart db exprRegister q.plan = some code
  start : ∀ f, s.engine.start = some f →
    ∃ q code, s.curQuery = some (q,code) ∧ s.engine.code f = some code

end Session

namespace Engine
variable {β : Type*} {lastUnique : List String → ℕ} {q : QueryPlan} {b : β} {s s' : Engine β}

@[simp] theorem code_cleanup (s : Engine β) (name : String) : s.cleanup.code name = s.code name :=
  rfl

theorem lookup_map_functions {name : String} {functions : List String} (h : name ∈ functions) :
    (functions.map fun f => (f,some b)).lookup name = some (some b) := by
  induction functions with
  | nil => simp at h
  | cons f fs ih =>
    rw [List.map_cons,List.lookup_cons]
    by_cases hf : name = f
    · simp [hf]
    · rw [beq_eq_false_iff_ne.2 hf]
      exact ih ((List.mem_cons.1 h).resolve_left hf)

theorem Compiled.code_startName {m : ModuleNames} (h : Compiled lastUnique q b m s s') :
    s'.code m.startName = some b := by
  have hold : s.symbols.lookup m.startName = none := by
    rw [List.lookup_eq_none_iff]
    rintro ⟨name,x⟩ hx
    refine bne_iff_ne.2 fun hname => h.fresh h.start_mem ?_
    exact List.mem_map.2 ⟨_,hx,hname.symm⟩
  rw [code,h.symbols,List.lookup_append,hold,Option.none_or,lookup_map_functions h.start_mem]
  rfl

end Engine

theorem Plan.materialized_events {env : Env} (p : Plan) : ∀ {opId jid : ℕ},
    ∀ e ∈ p.materialized env opId jid, ∃ i t, e = .materialize i t := by
  induction p with
  | scan _ _ _ ih | foreachRship _ _ _ _ ih | expand _ _ _ ih | filter _ _ ih => exact ih
  | join jop pos lhs rhs ihl ihr =>
    intro opId jid e he
    simp only [materialized,List.mem_append,List.mem_map] at he
    rcases he with (he | ⟨t,_,rfl⟩) | he
    · exact ihr e he
    · exact ⟨_,_,rfl⟩
    · exact ihl e he
  | _ => simp [materialized]

theorem State.collected_append {σ σ' : State} {es : List Event} (h : σ'.trace = σ.trace ++ es) :
    σ'.collected = σ.collected ++ es.filterMap fun | .collect t => some t | _ => none := by
  rw [collected,h,List.filterMap_append]
  rfl

theorem State.collected_of_materialized {σ σ' : State} {es : List Event} {rows : List (List QrVal)}
    (h : σ'.trace = σ.trace ++ es ++ rows.map .collect ++ [.finish])
    (hes : ∀ e ∈ es, ∃ i t, e = .materialize i t) : σ'.collected = σ.collected ++ rows := by
  rw [List.append_assoc,List.append_assoc] at h
  rw [State.collected_append h,List.filterMap_append,List.filterMap_append,List.filterMap_map,
    List.filterMap_eq_nil_iff.2,List.nil_append]
  · simp
  · intro e he
    obtain ⟨_,_,rfl⟩ := hes e he
    rfl

namespace Session
variable {db : GraphDb} {lastUnique : List String → ℕ} {s s' s₀ : Session} {c : SessionCall}
  {calls : List (Session × SessionCall × Session)} {env : Env} {cleanupQuery : Bool}

theorem Step.valid (h : s.Step db lastUnique c s') (hs : s.Valid db) (hc : s.Meets c) :
    s'.Valid db := by
  cases c with
  | generate q =>
    obtain ⟨er,code,engine,hgen,hcompiles,rfl⟩ := h
    refine ⟨fun q' code' hq => ?_,fun f hf => ⟨q,code,rfl,?_⟩⟩
    · obtain ⟨rfl,rfl⟩ := Prod.mk.inj (Option.some.inj hq)
      exact ⟨er,hgen⟩
    · obtain ⟨m,hm⟩ := hcompiles.compiled
      have hdef : s.engine.Defined := by
        rw [Engine.Defined,show s.engine.operatorNames = [] from hc]
        simp
      obtain rfl : m.startName = f := Option.some.inj (((hm.start_iff hdef).2 hc).symm.trans hf)
      exact hm.code_startName
  | run env cleanupQuery =>
    obtain ⟨_,σ',_,rfl⟩ := h
    cases cleanupQuery with
    | false => exact ⟨hs.generated,hs.start⟩
    | true => exact ⟨hs.generated,by simp [Engine.cleanup]⟩
  | cleanup =>
    obtain rfl := h
    exact ⟨hs.generated,by simp [Engine.cleanup]⟩
  | clearRhsInput =>
    obtain rfl := h
    exact ⟨hs.generated,hs.start⟩

theorem collected_eq {σ τ : State} (h : σ.trace = τ.trace) : σ.collected = τ.collected := by
  rw [State.collected,State.collected,h]

theorem Step.returns (h : s.Step db lastUnique (.run env cleanupQuery) s') (hs : s.Valid db)
    (hstart : s.engine.start ≠ none) : env.db = db ∧ s'.curQuery = s.curQuery ∧
      ∃ q fn entry er reg cell, s.curQuery = some (q,fn,entry) ∧
      generateStart db er q.plan = some (fn,entry) ∧
      Returns (fn.step env.whole) (.at entry { s.state with reg := reg, cell := cell })
        (.returned s'.state) := by
  obtain ⟨hdb,σ',hexec,rfl⟩ := h
  obtain ⟨f,hf⟩ := Option.ne_none_iff_exists'.1 hstart
  obtain ⟨q,⟨fn,entry⟩,hcur,hcode⟩ := hs.start f hf
  obtain ⟨er,hgen⟩ := hs.generated q _ hcur
  rw [Executes,hf] at hexec
  obtain ⟨fn',entry',reg,cell,hcode',hret⟩ := hexec
  obtain ⟨rfl,rfl⟩ : fn = fn' ∧ entry = entry' := by
    simpa using Option.some.inj (hcode.symm.trans hcode')
  exact ⟨hdb,rfl,q,fn,entry,er,reg,cell,hcur,hgen,hret⟩

theorem Step.returns_own (h : s.Step db lastUnique (.run env cleanupQuery) s') (hs : s.Valid db)
    (hc : s.Meets (.run env cleanupQuery)) : env.db = db ∧ s'.curQuery = s.curQuery ∧
      ∃ q fn entry er reg cell τ, s.curQuery = some (q,fn,entry) ∧
      generateStart db er q.plan = some (fn,entry) ∧
      Returns (fn.step env.whole) (.at entry
        { s.state with reg := reg, cell := cell, rhsInput := fun _ => [] }) (.returned τ) ∧
      ∃ g : Global, τ = s'.state.setGlobal g ∧ g.trace = s'.state.trace := by
  obtain ⟨rfl,hcur',q,fn,entry,er,reg,cell,hcur,hgen,hret⟩ := h.returns hs hc.1
  have hwhole : generateStart env.whole.db er q.plan = some (fn,entry) := hgen
  obtain ⟨es,hglobal,hempty⟩ := generateStart_agree hwhole hret
  refine ⟨rfl,hcur',q,fn,entry,er,reg,cell,_,hcur,hgen,hempty ⟨fun _ => [],s.state.trace⟩
    fun i hi => (hc.2 q _ hcur i hi).symm,_,rfl,?_⟩
  have htrace := congrArg Global.trace hglobal
  rw [Global.foldl_emit_trace] at htrace ⊢
  exact htrace.symm

theorem Step.collectsOwn (h : s.Step db lastUnique (.run env cleanupQuery) s') (hs : s.Valid db)
    (hc : s.Meets (.run env cleanupQuery)) : s.CollectsOwn env s' := by
  obtain ⟨_,_,q,fn,entry,_,reg,cell,τ,hcur,_,hret,g,rfl,hg⟩ := h.returns_own hs hc
  exact ⟨q,fn,entry,reg,cell,_,hcur,hret,collected_eq hg.symm⟩

structure NestedLoops (s : Session) : Prop where
  plan : ∀ q code, s.curQuery = some (q,code) → q.plan.AccessPath ∧ q.plan.Nested true
  idle : s.state.Idle

theorem NestedLoops.returns (hn : s.NestedLoops) (hs : s.Valid env.db) {q : QueryPlan} {fn : Body}
    {entry : Label} (hcur : s.curQuery = some (q,fn,entry)) {reg : Reg → Val} {cell : Cell → Val}
    {τ : State} (hret : Returns (fn.step env.whole) (.at entry
      { s.state with reg := reg, cell := cell, rhsInput := fun _ => [] }) (.returned τ)) :
    τ.Idle ∧ τ.collected = s.state.collected ++ q.plan.rows env.whole 1 [] := by
  obtain ⟨er,hgen⟩ := hs.generated q _ hcur
  obtain ⟨hpath,hnested⟩ := hn.plan q _ hcur
  obtain ⟨fn',entry',hgen',hruns⟩ := generateStart_nested env.whole er q.plan hpath hnested
  obtain ⟨rfl,rfl⟩ : fn = fn' ∧ entry = entry' := by
    simpa using Option.some.inj (hgen.symm.trans hgen')
  obtain ⟨τ',hret',hidle,htrace,_⟩ := hruns
    { s.state with reg := reg, cell := cell, rhsInput := fun _ => [] }
    ⟨hn.idle.tp,hn.idle.matTuple⟩ (fun _ => rfl)
  obtain rfl : τ = τ' := by simpa using Returns.unique hret hret'
  exact ⟨hidle,State.collected_of_materialized htrace q.plan.materialized_events⟩

theorem NestedLoops.collectsRows (hn : s.NestedLoops) (hs : s.Valid env.db)
    (h : s.CollectsOwn env s') : s.CollectsRows env s' := by
  obtain ⟨q,fn,entry,reg,cell,τ,hcur,hret,hcollected⟩ := h
  exact ⟨q,_,hcur,hcollected.trans (hn.returns hs hcur hret).2⟩

theorem Step.nestedLoops (h : s.Step db lastUnique c s') (hs : s.Valid db) (hc : s.Meets c)
    (hq : ∀ q, c = .generate q → q.plan.AccessPath ∧ q.plan.Nested true) (hn : s.NestedLoops) :
    s'.NestedLoops := by
  cases c with
  | generate q =>
    obtain ⟨_,code,_,_,_,rfl⟩ := h
    refine ⟨fun q' code' hq' => ?_,hn.idle⟩
    obtain ⟨rfl,rfl⟩ := Prod.mk.inj (Option.some.inj hq')
    exact hq q rfl
  | run env cleanupQuery =>
    obtain ⟨rfl,hcur',q,fn,entry,er,reg,cell,τ,hcur,_,hret,g,rfl,_⟩ := h.returns_own hs hc
    have hidle := (hn.returns hs hcur hret).1
    exact ⟨fun q' code hq' => hn.plan q' code (hcur' ▸ hq'),hidle.tp,hidle.matTuple⟩
  | cleanup =>
    obtain rfl := h
    exact ⟨hn.plan,hn.idle⟩
  | clearRhsInput =>
    obtain rfl := h
    exact ⟨hn.plan,hn.idle.tp,hn.idle.matTuple⟩

theorem Runs.invariant {P : Session → Prop} (h : Runs db lastUnique s₀ calls s) (h₀ : P s₀)
    (hstep : ∀ x ∈ calls, P x.1 → x.1.Step db lastUnique x.2.1 x.2.2 → P x.2.2) :
    P s ∧ ∀ x ∈ calls, P x.1 ∧ x.1.Step db lastUnique x.2.1 x.2.2 := by
  induction h with
  | nil => exact ⟨h₀,List.forall_mem_nil _⟩
  | snoc _ hlast ih =>
    rw [List.forall_mem_append,List.forall_mem_singleton] at hstep
    obtain ⟨hs,hcalls⟩ := ih hstep.1
    exact ⟨hstep.2 hs hlast,
      List.forall_mem_append.2 ⟨hcalls,List.forall_mem_singleton.2 ⟨hs,hlast⟩⟩⟩

end Session

namespace Session
variable {db : GraphDb} {lastUnique : List String → ℕ} {s s' : Session} {q : QueryPlan}
  {fn : Body} {entry : Label} {er : ℕ → Option Expr} {env : Env} {cleanupQuery : Bool}

theorem joined_eq_iff {ls xs rs : List (List QrVal)} :
    joined ls (xs ++ rs) = joined ls rs ↔ ls = [] ∨ xs = [] := by
  constructor
  · intro h
    have hlen := congrArg List.length h
    simp only [joined,List.length_flatMap,List.length_map,List.length_append,List.map_const',
      List.sum_replicate,smul_eq_mul,Nat.mul_add] at hlen
    have hzero : ls.length * xs.length = 0 := by omega
    simpa using hzero
  · rintro (rfl | rfl)
    · rfl
    · rw [List.nil_append]

/-- A run of a cross join collects the rows of the query exactly if it has no left-hand tuple, or
no earlier run left a tuple in list 0. -/
theorem Step.collectsRows_iff (h : s.Step db lastUnique (.run env cleanupQuery) s')
    (hs : s.Valid db) (hstart : s.engine.start ≠ none) {code : Body × Label}
    (hcur : s.curQuery = some (q,code)) (hpath : q.plan.AccessPath) (hn : q.plan.Nested true)
    (hp : q.plan.CrossJoin) (hidle : s.state.Idle)
    (htyped : q.plan.ListsTyped s.state.rhsInput 0) :
    s.CollectsRows env s' ↔ q.plan.lhsRows env.whole 1 [] = [] ∨ s.state.rhsInput 0 = [] := by
  obtain ⟨rfl,_,q',fn,entry,er,reg,cell,hcur',hgen,hret⟩ := h.returns hs hstart
  obtain ⟨rfl,rfl⟩ : q = q' ∧ code = (fn,entry) := by
    simpa using Option.some.inj (hcur.symm.trans hcur')
  obtain ⟨fn',entry',hgen',hruns⟩ := generateStart_crossJoin env.whole er q.plan hpath hn hp
  obtain ⟨rfl,rfl⟩ : fn = fn' ∧ entry = entry' := by
    simpa using Option.some.inj (hgen.symm.trans hgen')
  obtain ⟨σ',hret',_,_,htrace⟩ := hruns { s.state with reg := reg, cell := cell }
    ⟨hidle.tp,hidle.matTuple⟩ htyped
  obtain rfl : s'.state = σ' := by simpa using Returns.unique hret hret'
  have hcollected := State.collected_of_materialized htrace (by simp)
  rw [← joined_eq_iff,← hn.rows_crossJoin hpath hp]
  constructor
  · rintro ⟨q',code,hcur',hrows⟩
    obtain ⟨rfl,_⟩ := Prod.mk.inj (Option.some.inj (hcur.symm.trans hcur'))
    exact List.append_cancel_left (hcollected.symm.trans hrows)
  · intro hrows
    exact ⟨q,_,hcur,by rw [← hrows]; exact hcollected⟩

theorem Valid.exists_run (env : Env) (hs : s.Valid env.db) (hstart : s.engine.start ≠ none)
    {code : Body × Label} (hcur : s.curQuery = some (q,code)) (hn : s.NestedLoops)
    (hp : q.plan.CrossJoin) (htyped : q.plan.ListsTyped s.state.rhsInput 0) :
    ∃ σ', s.Step env.db lastUnique (.run env false) { s with state := σ' } ∧ σ'.Idle ∧
      σ'.rhsInput 0 = s.state.rhsInput 0 ++ q.plan.rhsRows env.whole 1 := by
  obtain ⟨f,hf⟩ := Option.ne_none_iff_exists'.1 hstart
  obtain ⟨q',code',hcur',hcode⟩ := hs.start f hf
  obtain ⟨rfl,rfl⟩ := Prod.mk.inj (Option.some.inj (hcur.symm.trans hcur'))
  obtain ⟨er,hgen⟩ := hs.generated q _ hcur
  obtain ⟨hpath,hnested⟩ := hn.plan q _ hcur
  obtain ⟨fn,entry,hgen',hruns⟩ := generateStart_crossJoin env.whole er q.plan hpath hnested hp
  obtain rfl : code = (fn,entry) := Option.some.inj (hgen.symm.trans hgen')
  obtain ⟨σ',hret,hidle,hlist,_⟩ := hruns s.state hn.idle htyped
  have hexec : s.Executes env σ' := by
    rw [Executes,hf]
    exact ⟨fn,entry,s.state.reg,s.state.cell,hcode,hret⟩
  exact ⟨σ',⟨rfl,σ',hexec,rfl⟩,hidle,hlist⟩

end Session

def Session.init : Session := ⟨.init [],none,.fresh⟩

theorem exists_generated_crossedPersons : ∃ s code,
    Session.init.Step pairDb (fun _ => 0) (.generate crossedPersons) s ∧ s.engine.start ≠ none ∧
      s.curQuery = some (crossedPersons,code) ∧ s.state.rhsInput 0 = [] ∧ s.NestedLoops := by
  have hpath : crossedPersons.plan.AccessPath := ⟨rfl,rfl,rfl,rfl,rfl⟩
  have hn : crossedPersons.plan.Nested true :=
    ⟨rfl,.join ⟨rfl,rfl⟩ .collect,trivial,rfl,rfl,.endOp,rfl⟩
  obtain ⟨fn,entry,hgen⟩ := generateStart_isSome (pairEnv fun _ => "Person") hpath hn
  obtain ⟨e,he⟩ := exists_returns (p := crossedPersons.plan) (e := .init) ⟨trivial,rfl,trivial⟩
    (by decide)
  obtain ⟨engine,hcompiles⟩ := Engine.exists_compiles (fun _ => 0) crossedPersons
    (Engine.named_init []) rfl he (fn,entry)
  obtain ⟨m,hm⟩ := hcompiles.compiled
  refine ⟨_,(fn,entry),⟨fun _ => none,(fn,entry),engine,hgen,hcompiles,rfl⟩,?_,rfl,rfl,?_,rfl,rfl⟩
  · rw [(hm.start_iff (by simp [Engine.Defined,Engine.init])).2 rfl]
    exact Option.some_ne_none _
  · intro q code hq
    obtain ⟨rfl,_⟩ := Prod.mk.inj (Option.some.inj hq)
    exact ⟨hpath,hn⟩

/-- In a history in which every query is generated after a `cleanup`, and run with the lists of
its joins empty, every run collects the rows of its own query. -/
theorem runs_collectsOwn (db : GraphDb) (lastUnique : List String → ℕ) (genFuncs : List String)
    (σ : State) (calls : List (Session × SessionCall × Session)) (s : Session)
    (hruns : Session.Runs db lastUnique ⟨.init genFuncs,none,σ⟩ calls s)
    (hmeets : ∀ x ∈ calls, x.1.Meets x.2.1) (env : Env) (cleanupQuery : Bool) (s₁ s₂ : Session)
    (hmem : (s₁,.run env cleanupQuery,s₂) ∈ calls) :
    s₁.CollectsOwn env s₂ ∧ (σ.Idle → (∀ x ∈ calls, ∀ q, x.2.1 = .generate q →
      q.plan.AccessPath ∧ q.plan.Nested true) → s₁.CollectsRows env s₂) := by
  have hvalid : ∀ x ∈ calls, x.1.Valid db ∧ x.1.Step db lastUnique x.2.1 x.2.2 :=
    (hruns.invariant ⟨nofun,nofun⟩ fun x hx hs hstep => hstep.valid hs (hmeets x hx)).2
  obtain ⟨hs,hstep⟩ := hvalid _ hmem
  have hown := hstep.collectsOwn hs (hmeets _ hmem)
  refine ⟨hown,fun hidle hnested => ?_⟩
  have hn : ∀ x ∈ calls, x.1.NestedLoops ∧ x.1.Step db lastUnique x.2.1 x.2.2 :=
    (hruns.invariant ⟨nofun,hidle⟩ fun x hx hn hstep =>
      hstep.nestedLoops (hvalid x hx).1 (hmeets x hx) (hnested x hx) hn).2
  obtain ⟨rfl,_⟩ := hstep
  exact (hn _ hmem).1.collectsRows hs hown

theorem runs_collectsOwn_cleared : ∃ calls s s₁ s₂,
    Session.Runs pairDb (fun _ => 0) Session.init calls s ∧
      calls.map (·.2.1) = [.generate crossedPersons,.run (pairEnv fun _ => "Person") false,
        .clearRhsInput,.run (pairEnv fun _ => "Person") false] ∧
      (s₁,.run (pairEnv fun _ => "Person") false,s₂) ∈ calls ∧
      s₁.CollectsRows (pairEnv fun _ => "Person") s₂ := by
  obtain ⟨s,code,hgen,hstart,hcur,hempty,hn⟩ := exists_generated_crossedPersons
  have hs : s.Valid pairDb := hgen.valid ⟨nofun,nofun⟩ rfl
  have hplan : ∀ q code, s.curQuery = some (q,code) → q = crossedPersons := fun q code hq =>
    congrArg Prod.fst (Option.some.inj (hq.symm.trans hcur))
  obtain ⟨σ₁,hrun₁,hidle₁,_⟩ := hs.exists_run (pairEnv fun _ => "Person") hstart hcur hn trivial
    ⟨by simp [hempty],trivial⟩
  set s₂ : Session := { s with state := { σ₁ with rhsInput := fun _ => [] } } with hs₂
  obtain ⟨σ₂,hrun₂,_⟩ := Session.Valid.exists_run (s := s₂) (pairEnv fun _ => "Person")
    ⟨hs.generated,hs.start⟩ hstart hcur ⟨hn.plan,hidle₁.tp,hidle₁.matTuple⟩ trivial
    ⟨by simp [hs₂],trivial⟩
  have hruns := Session.Runs.snoc (.snoc (c := .clearRhsInput) (.snoc (.snoc .nil hgen) hrun₁) hs₂)
    hrun₂
  refine ⟨_,_,_,_,hruns,rfl,List.mem_append_right _ List.mem_cons_self,
    (runs_collectsOwn pairDb (fun _ => 0) [] _ _ _ hruns ?_ _ false s₂ _
      (List.mem_append_right _ List.mem_cons_self)).2 ⟨rfl,rfl⟩ ?_⟩
  · simp only [List.nil_append,List.cons_append,List.forall_mem_cons]
    refine ⟨rfl,⟨hstart,fun q code hq i hi => ?_⟩,trivial,⟨hstart,fun _ _ _ _ _ => rfl⟩,
      List.forall_mem_nil _⟩
    obtain rfl := hplan q code hq
    obtain rfl : i = 0 := by simpa [crossedPersons,Plan.numJoins] using hi
    exact hempty
  · simp only [List.nil_append,List.cons_append,List.forall_mem_cons]
    refine ⟨fun q hq => ?_,by simp,by simp,by simp,List.forall_mem_nil _⟩
    obtain rfl := SessionCall.generate.inj hq
    exact hn.plan _ _ hcur

/-- The second run finds the tuples of the first in its list. -/
theorem not_runs_collectsOwn_again : ∃ calls s s₁ s₂,
    Session.Runs pairDb (fun _ => 0) Session.init calls s ∧
      calls.map (·.2.1) = [.generate crossedPersons,.run (pairEnv fun _ => "Person") false,
        .run (pairEnv fun _ => "Person") false] ∧
      (s₁,.run (pairEnv fun _ => "Person") false,s₂) ∈ calls ∧
      ¬ s₁.CollectsOwn (pairEnv fun _ => "Person") s₂ := by
  obtain ⟨s,code,hgen,hstart,hcur,hempty,hn⟩ := exists_generated_crossedPersons
  have hs : s.Valid pairDb := hgen.valid ⟨nofun,nofun⟩ rfl
  obtain ⟨σ₁,hrun₁,hidle₁,hlist⟩ := hs.exists_run (pairEnv fun _ => "Person") hstart hcur hn
    trivial ⟨by simp [hempty],trivial⟩
  replace hlist : σ₁.rhsInput 0 = [[.node 0],[.node 1]] := by
    rw [hlist,hempty]
    rfl
  have htyped : crossedPersons.plan.ListsTyped σ₁.rhsInput 0 := by
    refine ⟨?_,trivial⟩
    rw [hlist]
    simp only [List.forall_mem_cons]
    exact ⟨.cons (.node 0) .nil,.cons (.node 1) .nil,List.forall_mem_nil _⟩
  set s₁ : Session := { s with state := σ₁ } with hs₁
  have hvalid₁ : s₁.Valid pairDb := ⟨hs.generated,hs.start⟩
  have hn₁ : s₁.NestedLoops := ⟨hn.plan,hidle₁⟩
  obtain ⟨σ₂,hrun₂,_⟩ := Session.Valid.exists_run (s := s₁) (pairEnv fun _ => "Person")
    hvalid₁ hstart hcur hn₁ trivial htyped
  refine ⟨_,_,s₁,_,.snoc (.snoc (.snoc .nil hgen) hrun₁) hrun₂,rfl,
    List.mem_append_right _ List.mem_cons_self,fun hown => ?_⟩
  have hrows := hn₁.collectsRows hvalid₁ hown
  rw [hrun₂.collectsRows_iff hvalid₁ hstart hcur (hn.plan _ _ hcur).1 (hn.plan _ _ hcur).2 trivial
    hidle₁ htyped,hlist] at hrows
  exact hrows.elim (by decide) (by simp)

end GraphQueryCompiler
