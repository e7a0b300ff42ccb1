import GraphQueryCompiler.QOperator
import Mathlib.Data.List.TakeWhile

/-!
# The compile thread

`generate` starts `compile_th` and joins it unless the query is generated for a parallel run.
`run` joins it whenever the parallel flag is set, `run_parallel` and the destructor join it
only if it can be joined. `run` and, for a plan with a join, `run_parallel` call the compiled code
between `begin_transaction` and `commit_transaction`, with nothing that catches what it throws.
-/

namespace GraphQueryCompiler

def Plan.hasJoin : Plan → Bool
  | .scan _ _ inp => inp.hasJoin
  | .foreachRship _ _ _ inp => inp.hasJoin
  | .expand _ _ inp => inp.hasJoin
  | .filter _ inp => inp.hasJoin
  | .project _ inp => inp.hasJoin
  | .join .CROSS .. => true
  | .join .LEFT_OUTER .. => true
  | .join _ _ lhs _ => lhs.hasJoin
  | .sort _ inp => inp.hasJoin
  | .limit _ inp => inp.hasJoin
  | .create _ _ inp => inp.hasJoin
  | .collect _ => false
  | .endOp => false

/-- The public calls. `throws` tells whether the interpretation of the plan throws, which
`string_args.at` does if the plan or the caller's arguments have not enough slots, and `fails`
whether the compiled code throws, as its helpers do where a property is missing. -/
inductive EngineCall
  | generate (query : Plan) (parallel : Bool)
  | run (throws fails : Bool)
  | runParallel (throws fails : Bool)
  | destroy

structure CompileThread where
  joinable : Bool
  parallel : Bool
  curQuery : Plan

/-- The assignment of a thread to a joinable one ends the process, joining one that is not
joinable throws, and so may the interpretation and the compiled code behind `begin_transaction`. -/
inductive Violation
  | assigned
  | joined
  | transactionOpen

namespace CompileThread

def assign (s : CompileThread) : Except Violation CompileThread :=
  if s.joinable then .error .assigned else .ok { s with joinable := true }

def join (s : CompileThread) : Except Violation CompileThread :=
  if s.joinable then .ok { s with joinable := false } else .error .joined

def joinIfJoinable (s : CompileThread) : Except Violation CompileThread :=
  if s.joinable then s.join else .ok s

/-- The start functions are called, and `commit_transaction` behind them. What is thrown in a thread
of `run_parallel` ends the process there. -/
def callStarts (fails : Bool) (s : CompileThread) : Except Violation CompileThread :=
  if fails then .error .transactionOpen else .ok s

/-- A call that returns, or throws outside of a transaction, leaves the engine as it is then.
Without a join, the interpretation of `run_parallel` comes before the thread that joins, and opens
no transaction. -/
def step (s : CompileThread) : EngineCall → Except Violation CompileThread
  | .generate query parallel =>
    (assign { s with parallel := parallel, curQuery := query }).bind fun s =>
      if parallel then .ok s else s.join
  | .run throws fails =>
    (if s.parallel then if throws then .error .transactionOpen else s.join else .ok s).bind
      (callStarts fails)
  | .runParallel throws fails =>
    if s.curQuery.hasJoin then s.joinIfJoinable.bind (callStarts fails)
    else if throws then .ok s else s.joinIfJoinable
  | .destroy => s.joinIfJoinable

def steps : CompileThread → List EngineCall → Except Violation CompileThread
  | s, [] => .ok s
  | s, c :: cs => (s.step c).bind fun s => s.steps cs

end CompileThread

namespace EngineCall

def isGenerate : EngineCall → Bool
  | .generate .. => true
  | _ => false

def isRun : EngineCall → Bool
  | .run .. => true
  | _ => false

def isExecution : EngineCall → Bool
  | .run .. => true
  | .runParallel .. => true
  | _ => false

def joins (query : Plan) : EngineCall → Bool
  | .generate .. => false
  | .run throws _ => !throws
  | .runParallel throws _ => query.hasJoin || !throws
  | .destroy => true

def failsInside (query : Plan) : EngineCall → Bool
  | .run _ fails => fails
  | .runParallel _ fails => query.hasJoin && fails
  | _ => false

end EngineCall

def session (calls : List EngineCall) : List EngineCall := calls.takeWhile fun c => !c.isGenerate

/-- Behind a `generate` of the query for a parallel run: a call joins the compilation before the
next `generate`, and a `run` does not throw and is itself the first call that joins. -/
structure Settled (query : Plan) (calls : List EngineCall) : Prop where
  joined : session calls = calls ∨ ∃ c ∈ session calls, c.joins query = true
  run : ∀ pre c post, session calls = pre ++ c :: post → c.isRun = true →
    c.joins query = true ∧ ∀ d ∈ pre, d.joins query = false

/-- Before the next `generate` the compiled code does not throw in a transaction. -/
def Unfailing (query : Plan) (calls : List EngineCall) : Prop :=
  ∀ c ∈ session calls, c.failsInside query = false

/-- Every `generate` for a parallel run is settled, and all compiled code completes. -/
def AllSettled (calls : List EngineCall) : Prop :=
  ∀ pre query parallel post, calls = pre ++ .generate query parallel :: post →
    (parallel = true → Settled query post) ∧ Unfailing query post

def Generated (calls : List EngineCall) : Prop :=
  ∀ pre c post, calls = pre ++ c :: post → c.isExecution = true → ∃ d ∈ pre, d.isGenerate = true

def NoRun (calls : List EngineCall) : Prop := ∀ c ∈ session calls, c.isRun = false

section Session
variable {query : Plan} {c : EngineCall} {cs : List EngineCall}

theorem session_generate {query' : Plan} {parallel : Bool} :
    session (.generate query' parallel :: cs) = [] := rfl

theorem session_cons (hc : c.isGenerate = false) : session (c :: cs) = c :: session cs := by
  simp [session,hc]

theorem not_settled_generate {query' : Plan} {parallel : Bool} :
    ¬ Settled query (.generate query' parallel :: cs) := by
  intro h
  rcases h.joined with h | ⟨_,h,_⟩ <;> simp [session_generate] at h

theorem settled_joins (hc : c.isGenerate = false) (hjoin : c.joins query = true) :
    Settled query (c :: cs) ↔ NoRun cs := by
  constructor
  · intro h d hd
    by_contra hrun
    obtain ⟨pre,post,hsplit⟩ := List.append_of_mem hd
    have hfirst := (h.run (c :: pre) d post (by rw [session_cons hc,hsplit]; rfl)
      (by simpa using hrun)).2
    simp [hjoin] at hfirst
  · intro h
    refine ⟨.inr ⟨c,by simp [session_cons hc],hjoin⟩,fun pre d post hsplit hrun => ?_⟩
    rw [session_cons hc] at hsplit
    cases pre with
    | nil =>
      obtain ⟨rfl,_⟩ := List.cons.inj hsplit
      exact ⟨hjoin,by simp⟩
    | cons d' pre =>
      obtain ⟨rfl,hrest⟩ := List.cons.inj hsplit
      have hnone := h d (by rw [hrest]; simp)
      rw [hrun] at hnone
      cases hnone

theorem settled_skip (hc : c.isGenerate = false) (hjoin : c.joins query = false)
    (hrun : c.isRun = false) : Settled query (c :: cs) ↔ Settled query cs := by
  constructor
  · rintro ⟨hjoined,hruns⟩
    rw [session_cons hc] at hjoined hruns
    refine ⟨hjoined.imp (fun h => (List.cons.inj h).2) ?_,fun pre d post hsplit hd => ?_⟩
    · rintro ⟨d,hd,hdjoin⟩
      rcases List.mem_cons.1 hd with rfl | hd
      · rw [hjoin] at hdjoin
        cases hdjoin
      · exact ⟨d,hd,hdjoin⟩
    · obtain ⟨h₁,h₂⟩ := hruns (c :: pre) d post (by rw [hsplit]; rfl) hd
      exact ⟨h₁,(List.forall_mem_cons.1 h₂).2⟩
  · rintro ⟨hjoined,hruns⟩
    refine ⟨?_,fun pre d post hsplit hd => ?_⟩
    · rw [session_cons hc]
      exact hjoined.imp (fun h => by rw [h]) fun ⟨d,hd,h⟩ => ⟨d,List.mem_cons_of_mem _ hd,h⟩
    · rw [session_cons hc] at hsplit
      cases pre with
      | nil =>
        obtain ⟨rfl,_⟩ := List.cons.inj hsplit
        rw [hrun] at hd
        cases hd
      | cons d' pre =>
        obtain ⟨rfl,hrest⟩ := List.cons.inj hsplit
        obtain ⟨h₁,h₂⟩ := hruns pre d post hrest hd
        exact ⟨h₁,List.forall_mem_cons.2 ⟨hjoin,h₂⟩⟩

theorem not_settled_throws {fails : Bool} : ¬ Settled query (.run true fails :: cs) := by
  intro h
  have hrun := (h.run [] (.run true fails) (session cs) (session_cons rfl) rfl).1
  simp [EngineCall.joins] at hrun

theorem noRun_cons (hc : c.isGenerate = false) : NoRun (c :: cs) ↔ c.isRun = false ∧ NoRun cs := by
  rw [NoRun,session_cons hc,List.forall_mem_cons]
  rfl

theorem noRun_generate {parallel : Bool} : NoRun (.generate query parallel :: cs) := by
  simp [NoRun,session_generate]

theorem unfailing_cons (hc : c.isGenerate = false) :
    Unfailing query (c :: cs) ↔ c.failsInside query = false ∧ Unfailing query cs := by
  rw [Unfailing,session_cons hc,List.forall_mem_cons]
  rfl

theorem unfailing_generate {query' : Plan} {parallel : Bool} :
    Unfailing query (.generate query' parallel :: cs) := by
  simp [Unfailing,session_generate]

theorem allSettled_cons : AllSettled (c :: cs) ↔
    (∀ query parallel, c = .generate query parallel →
      (parallel = true → Settled query cs) ∧ Unfailing query cs) ∧ AllSettled cs := by
  constructor
  · intro h
    exact ⟨fun query parallel hc => h [] query parallel cs (by rw [hc]; rfl),
      fun pre query parallel post heq => h (c :: pre) query parallel post (by rw [heq]; rfl)⟩
  · rintro ⟨hhead,hrest⟩ pre query parallel post heq
    cases pre with
    | nil =>
      obtain ⟨hc,rfl⟩ := List.cons.inj heq
      exact hhead query parallel hc
    | cons d pre => exact hrest pre query parallel post (List.cons.inj heq).2

end Session

namespace CompileThread
variable {s s' : CompileThread} {c : EngineCall} {cs : List EngineCall}

/-- No call of a history is a violation. -/
def Safe (s : CompileThread) (calls : List EngineCall) : Prop := ∃ s', s.steps calls = .ok s'

def Asks (s : CompileThread) (calls : List EngineCall) : Prop :=
  (if s.joinable then Settled s.curQuery calls else s.parallel = true → NoRun calls) ∧
    Unfailing s.curQuery calls

def Valid (s : CompileThread) : Prop := s.joinable = true → s.parallel = true

theorem safe_ok (h : s.step c = .ok s') : s.Safe (c :: cs) ↔ s'.Safe cs := by
  simp only [Safe,steps,h,Except.bind]

theorem not_safe_error {v : Violation} (h : s.step c = .error v) : ¬ s.Safe (c :: cs) := by
  rintro ⟨s',hs'⟩
  simp [steps,h,Except.bind] at hs'

theorem asks_generate {query : Plan} {parallel : Bool} :
    s.Asks (.generate query parallel :: cs) ↔ s.joinable = false := by
  unfold Asks
  cases s.joinable <;> simp [not_settled_generate,noRun_generate,unfailing_generate]

theorem step_generate {query : Plan} {parallel : Bool} (h : s.joinable = false) :
    s.step (.generate query parallel) = .ok ⟨parallel,parallel,query⟩ := by
  cases parallel <;> simp [step,assign,join,h,Except.bind]

theorem joinIfJoinable_eq : s.joinIfJoinable = .ok { s with joinable := false } := by
  obtain ⟨joinable,parallel,curQuery⟩ := s
  cases joinable <;> rfl

theorem callStarts_bind {x : Except Violation CompileThread} {fails : Bool} {s : CompileThread} :
    x.bind (callStarts fails) = .ok s ↔ x = .ok s ∧ fails = false := by
  cases x <;> cases fails <;> simp [Except.bind,callStarts]

theorem asks_joinIfJoinable (hv : s.Valid) (hc : c.isGenerate = false) (hrun : c.isRun = false)
    (hjoin : c.joins s.curQuery = true) :
    s.Asks (c :: cs) ↔ c.failsInside s.curQuery = false ∧ Asks { s with joinable := false } cs := by
  unfold Asks
  cases hj : s.joinable with
  | true => simp [settled_joins hc hjoin,hv hj,unfailing_cons hc,and_left_comm]
  | false => simp [noRun_cons hc,hrun,unfailing_cons hc,and_left_comm]

theorem step_valid (hv : s.Valid) (hc : c.isGenerate = false) (h : s.step c = .ok s') :
    s'.Valid := by
  have hjoined : Valid { s with joinable := false } := nofun
  cases c with
  | generate => simp [EngineCall.isGenerate] at hc
  | run throws fails =>
    have h := (callStarts_bind.1 h).1
    simp only [join] at h
    split_ifs at h
    · obtain rfl := Except.ok.inj h
      exact hjoined
    · obtain rfl := Except.ok.inj h
      exact hv
  | runParallel throws fails =>
    simp only [step,joinIfJoinable_eq] at h
    split_ifs at h
    · obtain rfl := Except.ok.inj (callStarts_bind.1 h).1
      exact hjoined
    · obtain rfl := Except.ok.inj h
      exact hv
    · obtain rfl := Except.ok.inj h
      exact hjoined
  | destroy =>
    rw [step,joinIfJoinable_eq] at h
    obtain rfl := Except.ok.inj h
    exact hjoined

theorem asks_step (hv : s.Valid) (hc : c.isGenerate = false) : s.Asks (c :: cs) ↔
    ∃ s', s.step c = .ok s' ∧ s'.Asks cs := by
  cases c with
  | generate => simp [EngineCall.isGenerate] at hc
  | run throws fails =>
    simp only [step,callStarts_bind]
    unfold Asks join
    rw [unfailing_cons hc]
    cases hj : s.joinable with
    | true =>
      rw [hv hj]
      cases throws with
      | true => simp [not_settled_throws]
      | false =>
        simp [settled_joins hc (c := .run false fails) rfl,EngineCall.failsInside,
          and_left_comm,and_assoc]
    | false =>
      cases hpar : s.parallel with
      | true => cases throws <;> simp [noRun_cons hc,EngineCall.isRun]
      | false => simp [hj,hpar,EngineCall.failsInside,and_assoc]
  | runParallel throws fails =>
    cases hjoin : s.curQuery.hasJoin with
    | true =>
      rw [asks_joinIfJoinable hv hc rfl (by simp [EngineCall.joins,hjoin])]
      simp [step,hjoin,joinIfJoinable_eq,callStarts_bind,EngineCall.failsInside,and_assoc]
    | false =>
      cases throws with
      | true =>
        have hnone : (EngineCall.runParallel true fails).joins s.curQuery = false := by
          simp [EngineCall.joins,hjoin]
        unfold Asks step
        rw [unfailing_cons hc]
        cases hj : s.joinable with
        | true => simp [settled_skip hc hnone rfl,hjoin,hj,EngineCall.failsInside]
        | false => simp [noRun_cons hc,EngineCall.isRun,hjoin,hj,EngineCall.failsInside]
      | false =>
        rw [asks_joinIfJoinable hv hc rfl (by simp [EngineCall.joins])]
        simp [step,hjoin,joinIfJoinable_eq,EngineCall.failsInside]
  | destroy =>
    rw [asks_joinIfJoinable hv hc rfl rfl]
    simp [step,joinIfJoinable_eq,EngineCall.failsInside]

theorem safe_iff (cs : List EngineCall) : ∀ {s : CompileThread}, s.Valid →
    (s.Safe cs ↔ s.Asks cs ∧ AllSettled cs) := by
  induction cs with
  | nil =>
    intro s _
    have hset : Settled s.curQuery [] := ⟨.inl rfl,by simp [session]⟩
    have hasks : s.Asks [] := by
      unfold Asks
      refine ⟨?_,by simp [Unfailing,session]⟩
      split
      · exact hset
      · simp [NoRun,session]
    exact ⟨fun _ => ⟨hasks,by simp [AllSettled]⟩,fun _ => ⟨s,rfl⟩⟩
  | cons c cs ih =>
    intro s hv
    rw [allSettled_cons]
    cases hc : c.isGenerate with
    | true =>
      cases c with
      | generate query parallel =>
        rw [asks_generate]
        cases hj : s.joinable with
        | true =>
          have herr : s.step (.generate query parallel) = .error .assigned := by
            simp [step,assign,hj,Except.bind]
          simp [not_safe_error herr]
        | false =>
          have hv' : Valid ⟨parallel,parallel,query⟩ := id
          rw [safe_ok (step_generate hj),ih hv']
          cases parallel <;> simp [Asks]
      | _ => simp [EngineCall.isGenerate] at hc
    | false =>
      have hno : ∀ query parallel, c ≠ .generate query parallel := by
        rintro query parallel rfl
        simp [EngineCall.isGenerate] at hc
      simp only [hno,false_implies,implies_true,true_and]
      rw [asks_step hv hc]
      cases hstep : s.step c with
      | error v => simp [not_safe_error hstep]
      | ok s' =>
        rw [safe_ok hstep,ih (step_valid hv hc hstep)]
        simp

end CompileThread

theorem Generated.not_isExecution {calls : List EngineCall} (hgen : Generated calls)
    {c : EngineCall} (hc : c ∈ session calls) : c.isExecution = false := by
  by_contra hexec
  obtain ⟨pre,post,hsplit⟩ := List.append_of_mem hc
  have hpre : ∀ d ∈ pre, d.isGenerate = false := by
    intro d hd
    have hall := List.mem_takeWhile_imp (hsplit ▸ List.mem_append_left _ hd)
    simpa using hall
  obtain ⟨rest,hrest⟩ := List.takeWhile_prefix (fun c : EngineCall => !c.isGenerate) (l := calls)
  have hcalls : calls = pre ++ c :: (post ++ rest) := by
    rw [← hrest,← session,hsplit]
    simp
  obtain ⟨d,hd,hdgen⟩ := hgen pre c (post ++ rest) hcalls (by simpa using hexec)
  rw [hpre d hd] at hdgen
  cases hdgen

/-- In a history of public calls on a new engine no thread is assigned to a joinable one, none
is joined that is not joinable, and no transaction is left open, exactly if every `generate` for
a parallel run is settled by the calls behind it, and no compiled code throws in a transaction. -/
theorem compileThread_safe_iff (s : CompileThread) (calls : List EngineCall)
    (hnew : s.joinable = false) (hgen : Generated calls) : s.Safe calls ↔ AllSettled calls := by
  have hv : s.Valid := by
    intro h
    rw [hnew] at h
    cases h
  have hno : NoRun calls := by
    intro c hc
    have hexec := hgen.not_isExecution hc
    cases c <;> simp_all [EngineCall.isRun,EngineCall.isExecution]
  have hunfailing : Unfailing s.curQuery calls := by
    intro c hc
    have hexec := hgen.not_isExecution hc
    cases c <;> simp_all [EngineCall.failsInside,EngineCall.isExecution]
  rw [CompileThread.safe_iff calls hv,CompileThread.Asks,hnew]
  simp [hno,hunfailing]

theorem generated_generate {query : Plan} {parallel : Bool} {cs : List EngineCall} :
    Generated (.generate query parallel :: cs) := by
  intro pre c post heq hc
  cases pre with
  | nil =>
    obtain ⟨rfl,_⟩ := List.cons.inj heq
    simp [EngineCall.isExecution] at hc
  | cons d pre =>
    obtain ⟨rfl,_⟩ := List.cons.inj heq
    exact ⟨_,List.mem_cons_self,rfl⟩

theorem safe_runs : (⟨false,false,.endOp⟩ : CompileThread).Safe
    [.generate (.scan "Person" false (.collect false)) true,.runParallel false false,
      .generate (.scan "Book" false (.collect false)) false,.run false false,.run false false,
      .destroy] := by
  have hnil : AllSettled [] := by simp [AllSettled]
  refine (compileThread_safe_iff ⟨false,false,.endOp⟩ _ rfl generated_generate).2
    (allSettled_cons.2 ⟨fun query parallel heq => ⟨fun _ => ?_,?_⟩,?_⟩)
  · exact (settled_joins rfl (by simp [EngineCall.joins])).2 noRun_generate
  · simp [Unfailing,session,EngineCall.isGenerate,EngineCall.failsInside]
  · simp [allSettled_cons,hnil,Unfailing,session,EngineCall.isGenerate,EngineCall.failsInside]

/-- The second `run` of a query that was generated for a parallel run joins a thread that is not
joinable. -/
theorem not_safe_secondRun : ¬ (⟨false,false,.endOp⟩ : CompileThread).Safe
    [.generate (.scan "Person" false (.collect false)) true,.run false false,
      .run false false] := by
  rintro ⟨s',h⟩
  cases h

end GraphQueryCompiler
