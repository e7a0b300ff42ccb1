import GraphQueryCompiler.ArgExtraction
import GraphQueryCompiler.QueryEngine
import GraphQueryCompiler.QueryResults

/-!
# Runs with the labels of the query

`query_engine::run` without arguments takes those that the extraction has put into `query_args`.
-/

namespace GraphQueryCompiler
open StepMachine

def Env.own (env : Env) (label : String) : Env := env.withArgs ⟨fun _ => label,env.args.word⟩

namespace Plan

/-- The plan has no join, and reads no arguments but labels. -/
def LabelsOnly : Plan → Prop
  | .scan _ indexed inp => indexed = false ∧ inp.LabelsOnly
  | .foreachRship _ _ _ inp => inp.LabelsOnly
  | .expand _ _ inp => inp.LabelsOnly
  | .project _ inp => inp.LabelsOnly
  | .sort _ inp => inp.LabelsOnly
  | .limit _ inp => inp.LabelsOnly
  | .collect _ => True
  | _ => False

/-- What comes of a tuple by the labels of the plan. -/
def ownEvents (env : Env) : Plan → List QrVal → List TupleEvent
  | .scan label _ inp, _ =>
    ((env.db.range env.first env.last).filter fun n =>
      (env.db.nodeById n).nodeLabel = env.db.getCode label).flatMap fun n =>
        inp.ownEvents env [.node n]
  | .foreachRship dir _ label inp, t =>
    ((env.own label).traversed dir 0 t).flatMap fun u => inp.ownEvents env u
  | .expand exp label inp, t =>
    ((env.own label).expanded exp label 0 t).flatMap fun u => inp.ownEvents env u
  | .limit n inp, t => .arrive (CodegenInlineVisitor.limitConst n) :: inp.ownEvents env t
  | .sort _ inp, t => inp.ownEvents env t
  | .project prexpr inp, t => inp.ownEvents env (projectRow prexpr t)
  | .collect _, t => [.row t]
  | _, _ => []

def ownResults (env : Env) (p : Plan) : List (List QrVal) :=
  LimitedStream.rows (LimitedStream.run (LimitedStream.shared id) [] (p.ownEvents env []))

end Plan

section Labels
variable {env : Env} {er : ℕ → Option Expr} {args : QueryArgs} {p inp : Plan} {opId i : ℕ}
  {t : List QrVal} {dir : RshipDir} {exp : ExpandDir} {label : String} {ts : List ℕ}

def Plan.ReadsOwn (p : Plan) (opId : ℕ) (args : QueryArgs) : Prop :=
  ∀ x ∈ p.numbered opId, ∀ label, x.1.argLabel = some label → args.label x.2 = label

theorem Plan.ReadsOwn.own (h : p.ReadsOwn opId args) (hin : p.input = some inp)
    (hlabel : p.argLabel = some label) : args.label opId = label := by
  refine h (p,opId) ?_ label hlabel
  rw [numbered_input hin]
  exact List.mem_cons_self

theorem Plan.ReadsOwn.input (h : p.ReadsOwn opId args) (hin : p.input = some inp) :
    inp.ReadsOwn (opId + p.nextOffset) args := by
  intro x hx
  apply h
  rw [numbered_input hin]
  exact List.mem_cons_of_mem _ hx

theorem traversed_own (h : args.label opId = label) :
    (env.withArgs args).traversed dir opId t = (env.own label).traversed dir 0 t := by
  subst h
  rfl

theorem expanded_own (h : label ≠ "" → args.label opId = label) :
    (env.withArgs args).expanded exp label opId t = (env.own label).expanded exp label 0 t := by
  by_cases hlabel : label = ""
  · subst hlabel
    simp [Env.expanded,Env.own,Env.withArgs]
  · obtain rfl := h hlabel
    rfl

theorem events_withArgs (hp : p.LabelsOnly) : ∀ {opId t}, p.ReadsOwn opId args →
    p.events (env.withArgs args) opId t = p.ownEvents env t := by
  induction p with
  | scan label indexed inp ih =>
    intro opId t h
    obtain ⟨rfl,hinp⟩ := hp
    have hlabel : args.label opId = label := h.own rfl rfl
    have hrest : ∀ u, inp.events (env.withArgs args) (opId+1) u = inp.ownEvents env u :=
      fun u => ih hinp (h.input rfl)
    simp only [Plan.events,Plan.ownEvents,hrest,← hlabel]
    rfl
  | foreachRship dir hops label inp ih =>
    intro opId t h
    have hrest : ∀ u, inp.events (env.withArgs args) (opId+1) u = inp.ownEvents env u :=
      fun u => ih hp (h.input rfl)
    simp only [Plan.events,Plan.ownEvents,hrest,traversed_own (h.own rfl rfl)]
  | expand exp label inp ih =>
    intro opId t h
    have hrest : ∀ u, inp.events (env.withArgs args) (opId+1) u = inp.ownEvents env u :=
      fun u => ih hp (h.input rfl)
    have hlabel : label ≠ "" → args.label opId = label :=
      fun hne => h.own rfl (if_neg hne)
    simp only [Plan.events,Plan.ownEvents,hrest,expanded_own hlabel]
  | project prexpr inp ih => exact fun h => ih hp (h.input rfl)
  | sort cmp inp ih => exact fun h => ih hp (h.input rfl)
  | limit n inp ih =>
    intro opId t h
    exact congrArg (_ :: ·) (ih hp (h.input rfl))
  | collect => exact fun _ => rfl
  | _ => exact absurd hp id

theorem ArgBuilder.PointsTo.queryArgs {b : ArgBuilder} (h : b.PointsTo opId label) :
    b.queryArgs.label opId = label := by
  obtain ⟨hlt,_,hlabel⟩ := h
  simp [ArgBuilder.queryArgs,hlt,hlabel]

theorem FindsArguments.readsOwn (h : FindsArguments p) :
    ∃ e, Returns extractStep (.loop p [] .init) (.done e) ∧ p.ReadsOwn 1 e.args.queryArgs := by
  obtain ⟨e,hret,hfinds⟩ := h
  exact ⟨e,hret,fun x hx label hlabel =>
    (hfinds _ _ p.codegen_numberVisitor x hx label hlabel).queryArgs⟩

end Labels

section Run
variable {env : Env} {er : ℕ → Option Expr} {p inp : Plan} {label : String} {opId jid : ℕ}

theorem Plan.LabelsOnly.joinFree (h : p.LabelsOnly) : p.JoinFree := by
  induction p with
  | scan _ _ _ ih => exact ih h.2
  | foreachRship _ _ _ _ ih | expand _ _ _ ih => exact ih h
  | project _ _ ih | sort _ _ ih | limit _ _ ih => exact ih h
  | collect => trivial
  | _ => exact absurd h id

theorem Plan.JoinFree.firstRhs (h : p.JoinFree) : ∀ {opId}, p.firstRhs opId = none := by
  induction p with
  | foreachRship _ _ _ _ ih | expand _ _ _ ih => exact ih h
  | filter _ _ ih | sort _ _ ih | limit _ _ ih => exact ih h
  | join => exact absurd h id
  | _ => exact rfl

theorem Plan.Query.evaluates (hq : Plan.Query [0] inp) (hj : inp.JoinFree) :
    Evaluates env er (.scan label false inp) ((Plan.scan label false inp).results env) := by
  obtain ⟨fn,entry,hstart⟩ := hq.start_isSome env er label
  refine ⟨fn,entry,hstart,fun σ hσ => ?_⟩
  obtain ⟨σ',hret,hidle,htrace⟩ := hq.start_returns hstart hσ fun h => absurd hj h
  refine ⟨σ',hret,hidle,?_⟩
  rw [htrace,joinTrace,hj.firstRhs]
  simp

/-- A query that is generated on a fresh engine and run without arguments collects its rows, if
the extraction finds the arguments. -/
theorem run_ownLabels (env : Env) (er : ℕ → Option Expr) (label : String) (inp : Plan)
    (hq : Plan.Query [0] inp) (hl : inp.LabelsOnly)
    (hfinds : FindsArguments (.scan label false inp)) :
    ∃ e q, Returns extractStep (.loop (.scan label false inp) [] .init) (.done e) ∧
      QueryEngine.generate env.db er (.scan label false inp) false = some q ∧
      ∀ execute ifv (σ : State), σ.Idle → ∃ σ',
        (∀ σ₁, q.Run execute ifv (env.withArgs e.args.queryArgs) σ σ₁ ↔ σ₁ = σ') ∧
        σ'.collected = σ.collected ++ (Plan.scan label false inp).ownResults env.whole := by
  obtain ⟨e,hret,hown⟩ := hfinds.readsOwn
  have hrows : Evaluates (env.withArgs e.args.queryArgs).whole er (.scan label false inp)
      ((Plan.scan label false inp).ownResults env.whole) := by
    have hevents : (Plan.scan label false inp).events (env.whole.withArgs e.args.queryArgs) 1 [] =
        (Plan.scan label false inp).ownEvents env.whole [] :=
      events_withArgs (show (Plan.scan label false inp).LabelsOnly from ⟨rfl,hl⟩) hown
    rw [Plan.ownResults,← hevents]
    exact hq.evaluates hl.joinFree
  obtain ⟨fn,entry,hstart⟩ := hq.start_isSome env er label
  have hgen : QueryEngine.generate (env.withArgs e.args.queryArgs).db er (.scan label false inp)
      false = some ⟨false,.scan label false inp,[(fn,entry)]⟩ := by
    simp [QueryEngine.generate,Env.withArgs,hstart]
  refine ⟨e,_,hret,hgen,fun execute ifv σ hσ => ?_⟩
  obtain ⟨σ',hcoll,hcall⟩ := callStarts_iff hgen hrows hσ
  refine ⟨σ',fun σ₁ => ?_,hcoll⟩
  rw [← hcall σ₁]
  simp [QueryEngine.Run]

end Run

def knownPersons : Plan :=
  .foreachRship .FROM (0,0) "knows" (.expand .OUT "Person"
    (.project [⟨0,"id",.INT⟩,⟨2,"id",.INT⟩] (.sort 0 (.limit 10 (.collect false)))))

theorem findsArguments_knownPersons : FindsArguments (.scan "Person" false knownPersons) := by
  have hs : (Plan.scan "Person" false knownPersons).Sources := trivial
  refine (findsArguments_iff_reads hs).2 ⟨by decide,?_⟩
  intro x hx label hlabel
  simp only [knownPersons,Plan.numbered,Bool.false_eq_true,if_false,List.mem_cons,
    List.not_mem_nil,or_false] at hx
  rcases hx with rfl | rfl | rfl | rfl | rfl | rfl | rfl
  all_goals simp only [Plan.argLabel,reduceCtorEq,String.reduceEq,if_false,
    Option.some.injEq] at hlabel
  · exact ⟨0,rfl,congrArg some hlabel⟩
  · exact ⟨1,rfl,congrArg some hlabel⟩
  · exact ⟨2,rfl,congrArg some hlabel⟩

theorem run_ownLabels_knownPersons : ∃ e q,
    Returns extractStep (.loop (.scan "Person" false knownPersons) [] .init) (.done e) ∧
    QueryEngine.generate pairDb (fun _ => none) (.scan "Person" false knownPersons) false =
      some q ∧ ∀ execute ifv, ∃ σ',
      q.Run execute ifv ((pairEnv fun _ => "").withArgs e.args.queryArgs) State.fresh σ' ∧
      σ'.collected = [[.property true 0 "id" .INT,.property true 1 "id" .INT]] := by
  have hp : Projectable [0,1,0] 1 [⟨0,"id",.INT⟩,⟨2,"id",.INT⟩] :=
    ⟨⟨0,rfl,.inr (by decide)⟩,⟨0,rfl,.inr (by decide)⟩,trivial⟩
  have hq : Plan.Query [0] knownPersons :=
    .foreachRship rfl (.expand rfl (.project hp trivial))
  obtain ⟨e,q,hret,hgen,hrun⟩ := run_ownLabels (pairEnv fun _ => "") (fun _ => none) "Person"
    knownPersons hq trivial findsArguments_knownPersons
  refine ⟨e,q,hret,hgen,fun execute ifv => ?_⟩
  obtain ⟨σ',hcall,hcoll⟩ := hrun execute ifv State.fresh State.idle_fresh
  refine ⟨σ',(hcall σ').2 rfl,?_⟩
  rw [hcoll]
  decide

end GraphQueryCompiler
