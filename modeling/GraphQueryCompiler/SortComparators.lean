import GraphQueryCompiler.StartFunction

/-!
# The comparator of a finish function

A finish function that the visit of a `Sort` makes calls `sort_op::sort`, which sorts with
`sort_op::cmp_`. That is a static member, and the constructor of every `Sort` writes it.
-/

namespace GraphQueryCompiler
open StepMachine NumberedName

namespace Plan

def cmp? : Plan → Option ℕ
  | .sort cmp _ => some cmp
  | _ => none

def sorts : Plan → List ℕ
  | .scan _ _ inp => inp.sorts
  | .foreachRship _ _ _ inp => inp.sorts
  | .expand _ _ inp => inp.sorts
  | .filter _ inp => inp.sorts
  | .project _ inp => inp.sorts
  | .join _ _ lhs rhs => lhs.sorts ++ rhs.sorts
  | .sort cmp inp => cmp :: inp.sorts
  | .limit _ inp => inp.sorts
  | .create _ _ inp => inp.sorts
  | .collect _ => []
  | .endOp => []

end Plan

def sortFinish (qid : String) : String := "sort_finish_" ++ qid

def madeBySort (lastUnique : List String → ℕ) (qid : String) (op : Plan) (_ : ℕ)
    (m : ModuleNames) : List (String × ℕ) :=
  op.cmp?.toList.map fun cmp => (m.symbol lastUnique (sortFinish qid),cmp)

def Compilation.sortFunctions (lastUnique : List String → ℕ) (s : Compilation) (queryCnt : ℕ) :
    Option (List (String × ℕ)) := do
  let (shape,_) ← s.plan.codegen qidGenerator 1 true ""
  let qid := shape ++ toString queryCnt
  let names := (namesVisitor lastUnique qid s.name).logging (madeBySort lastUnique qid)
  let (m,_) ← s.plan.codegen names 1 true (⟨"",none,[],s.genFuncs⟩,[])
  return m.2

/-- A process: its engine, the operators it has made, `sort_op::cmp_`, and the functions that
sorts have got, each with the comparator of its own operator. -/
structure SortProcess where
  engine : Engine Unit
  made : List Plan
  cmp : Option ℕ
  sortFunctions : List (String × ℕ)

inductive SortEvent
  | construct (op : Plan)
  | call (c : Call Unit)

namespace SortProcess

def init (genFuncs : List String) : SortProcess := ⟨.init genFuncs,[],none,[]⟩

/-- An operator is made from operators that have been made, and a `Sort` writes `cmp_`. A query
that is generated has been made. -/
def Step (lastUnique : List String → ℕ) (s s' : SortProcess) : SortEvent → Prop
  | .construct op => (∀ inp ∈ op.inputs, inp ∈ s.made) ∧
      s' = { s with made := op :: s.made, cmp := op.cmp?.or s.cmp }
  | .call (.generate q _) => q.plan ∈ s.made ∧ ∃ e fs,
      s.engine.Compiles lastUnique q () e ∧
      Compilation.sortFunctions lastUnique ⟨q.plan,q.name,s.engine.genFuncs⟩ s.engine.queryCnt =
        some fs ∧
      s' = { s with engine := e, sortFunctions := s.sortFunctions ++ fs }
  | .call c => ∃ e, Engine.Step lastUnique c s.engine e ∧ s' = { s with engine := e }

inductive Runs (lastUnique : List String → ℕ) (s₀ : SortProcess) :
    List SortEvent → SortProcess → Prop
  | nil : Runs lastUnique s₀ [] s₀
  | snoc {events : List SortEvent} {s s' : SortProcess} {e : SortEvent} :
      Runs lastUnique s₀ events s → Step lastUnique s s' e →
      Runs lastUnique s₀ (events ++ [e]) s'

/-- If `finish_[0]` is the function of a `Sort`, it sorts with the comparator of this `Sort` when
it is called. -/
def SortsOwn (s : SortProcess) : Prop :=
  ∀ f cmp, s.engine.finish = some f → (f,cmp) ∈ s.sortFunctions → s.cmp = some cmp

end SortProcess

def SortEvent.lastCmp (cmp : Option ℕ) : SortEvent → Option ℕ
  | .construct op => op.cmp?.or cmp
  | .call _ => cmp

def SortEvent.ownCmp (cmp : Option ℕ) : SortEvent → Option ℕ
  | .construct _ => cmp
  | .call (.generate q _) => if q.plan.sortFound then q.plan.sorts.head? else none
  | .call c => if c.cleans then none else cmp

def lastCmp (events : List SortEvent) : Option ℕ := events.foldl SortEvent.lastCmp none

def ownCmp (events : List SortEvent) : Option ℕ := events.foldl SortEvent.ownCmp none

section Module
variable {lastUnique : List String → ℕ} {qid name : String} {p op inp : Plan} {m m' : ModuleNames}
  {opId opId' : ℕ} {l l' : List (String × ℕ)} {x : ModuleNames × List (String × ℕ)}

abbrev sortsVisitor (lastUnique : List String → ℕ) (qid name : String) :
    OpVisitor (ModuleNames × List (String × ℕ)) :=
  (namesVisitor lastUnique qid name).logging (madeBySort lastUnique qid)

theorem madeBySort_cmp : (madeBySort lastUnique qid op opId m).map Prod.snd = op.cmp?.toList := by
  simp [madeBySort]

theorem sorts_input (h : p.input = some inp) : p.sorts = p.cmp?.toList ++ inp.sorts := by
  cases p <;> simp only [Plan.input,reduceCtorEq,Option.some.injEq] at h <;> subst h <;> rfl

theorem sortsVisitor_cmp
    (h : (sortsVisitor lastUnique qid name).visit op opId (m,l) = some (m',l')) :
    l'.map Prod.snd = l.map Prod.snd ++ op.cmp?.toList := by
  rw [OpVisitor.logging_visit,Option.map_eq_some_iff] at h
  obtain ⟨m₁,-,heq⟩ := h
  obtain ⟨rfl,rfl⟩ := Prod.mk.inj heq
  rw [List.map_append,madeBySort_cmp]

theorem codegen_sorts (p : Plan) : ∀ {opId opId' : ℕ} {m m' : ModuleNames}
    {l l' : List (String × ℕ)},
    p.codegen (sortsVisitor lastUnique qid name) opId true (m,l) = some ((m',l'),opId') →
    l'.map Prod.snd = l.map Prod.snd ++ p.sorts := by
  induction p with
  | collect | endOp =>
    intro opId opId' m m' l l' h
    obtain ⟨⟨m₁,l₁⟩,hvisit,heq⟩ := Option.bind_eq_some_iff.1 h
    obtain ⟨⟨rfl,rfl⟩,-⟩ := by simpa using heq
    exact sortsVisitor_cmp hvisit
  | join jop pos lhs rhs ihl ihr =>
    intro opId opId' m m' l l' h
    simp only [Plan.codegen,if_true,Option.bind_eq_bind,Option.bind_eq_some_iff,Prod.exists] at h
    obtain ⟨m₁,l₁,hvisit,m₂,l₂,n₂,hl,hr⟩ := h
    rw [ihr hr,ihl hl,sortsVisitor_cmp hvisit,Plan.sorts,List.append_assoc,List.append_assoc]
    rfl
  | _ _ _ =>
    rename_i ih
    intro opId opId' m m' l l' h
    rw [Plan.codegen_input rfl,Option.bind_eq_some_iff] at h
    obtain ⟨⟨m₁,l₁⟩,hvisit,hrest⟩ := h
    rw [ih hrest,sortsVisitor_cmp hvisit,List.append_assoc]
    exact congrArg _ (sorts_input rfl).symm

structure SortNames (qid : String) (x : ModuleNames × List (String × ℕ)) : Prop where
  main : x.1.mainFunction.isSome = true
  names : ∀ f ∈ x.2, f.1 ∈ x.1.functions ∧ ∃ t, f.1 = sortFinish qid ++ t
  taken : sortFinish qid ∈ x.1.functions ↔ x.2 ≠ []
  own : ∀ cmp, (sortFinish qid,cmp) ∈ x.2 ↔ (x.2.map Prod.snd).head? = some cmp

theorem symbol_eq_iff {f : String} :
    m.symbol lastUnique f = f ↔ f ∉ m.functions := by
  unfold ModuleNames.symbol
  split_ifs with hmem
  · refine iff_of_false (fun h => ?_) (not_not_intro hmem)
    have hlen := congrArg String.length h
    have hdot : ".".length = 1 := rfl
    rw [String.length_append,String.length_append,hdot] at hlen
    omega
  · exact iff_of_true rfl hmem

theorem symbol_append (f : String) : ∃ t, m.symbol lastUnique f = f ++ t := by
  unfold ModuleNames.symbol
  split_ifs
  · exact ⟨_,String.append_assoc ..⟩
  · exact ⟨"",String.append_empty.symm⟩

theorem SortNames.sort (h : SortNames qid (m,l)) (cmp : ℕ) :
    SortNames qid (m.add lastUnique (sortFinish qid),
      l ++ [(m.symbol lastUnique (sortFinish qid),cmp)]) := by
  refine ⟨h.main,?_,?_,?_⟩
  · rw [List.forall_mem_append,List.forall_mem_singleton]
    refine ⟨fun f hf => ⟨List.mem_append_left _ (h.names f hf).1,(h.names f hf).2⟩,?_,
      symbol_append _⟩
    exact List.mem_append_right _ (List.mem_singleton_self _)
  · refine iff_of_true ?_ (List.append_ne_nil_of_right_ne_nil _ (List.cons_ne_nil _ _))
    by_cases hmem : sortFinish qid ∈ m.functions
    · exact List.mem_append_left _ hmem
    · exact List.mem_append_right _ (List.mem_singleton.2 (symbol_eq_iff.2 hmem).symm)
  · intro c
    have hfirst : sortFinish qid = m.symbol lastUnique (sortFinish qid) ↔ l = [] := by
      rw [eq_comm,symbol_eq_iff,h.taken,not_not]
    rw [List.mem_append,h.own,List.mem_singleton,Prod.mk.injEq,hfirst]
    cases l <;> simp [eq_comm]

theorem SortNames.of_eq (h : SortNames qid (m,l)) (hmain : m'.mainFunction = m.mainFunction)
    (hfunctions : m'.functions = m.functions) : SortNames qid (m',l ++ []) := by
  rw [List.append_nil]
  obtain ⟨hsome,hnames,htaken,hown⟩ := h
  dsimp only at hsome hnames htaken
  rw [← hmain] at hsome
  rw [← hfunctions] at hnames htaken
  exact ⟨hsome,hnames,htaken,hown⟩

theorem SortNames.visit (h : SortNames qid x) (op : Plan) (opId : ℕ) :
    ∃ x', (sortsVisitor lastUnique qid name).visit op opId x = some x' ∧ SortNames qid x' := by
  obtain ⟨m,l⟩ := x
  obtain ⟨f,hmain⟩ := Option.isSome_iff_exists.1 h.main
  replace hmain : m.mainFunction = some f := hmain
  cases op with
  | sort cmp inp => exact ⟨_,rfl,h.sort cmp⟩
  | scan =>
    have hvisit : SortNames qid ({ m with genFuncs := m.genFuncs ++ [""] },l ++ []) :=
      h.of_eq rfl rfl
    exact ⟨_,by simp [namesVisitor,OpVisitor.logging_visit,hmain,madeBySort,Plan.cmp?],hvisit⟩
  | _ =>
    have hvisit : SortNames qid (m,l ++ []) := h.of_eq rfl rfl
    exact ⟨_,by simp [namesVisitor,OpVisitor.logging_visit,hmain,madeBySort,Plan.cmp?],hvisit⟩

theorem SortNames.visit_default (qid : String) (lastUnique : List String → ℕ) (op : Plan)
    (opId : ℕ) (x : ModuleNames × List (String × ℕ))
    (h : SortNames qid x ∧ "default_finish_" ++ qid ∈ x.1.functions) :
    ∃ x', (sortsVisitor lastUnique qid name).visit op opId x = some x' ∧
      (SortNames qid x' ∧ "default_finish_" ++ qid ∈ x'.1.functions) ∧ True := by
  obtain ⟨x',hvisit,hx'⟩ := h.1.visit op opId
  obtain ⟨m₁,hm₁,rfl⟩ := Option.map_eq_some_iff.1 hvisit
  exact ⟨_,hvisit,⟨hx',visit_subset hm₁ h.2⟩,trivial⟩

theorem startName_ne_sortFinish (q : QueryPlan) (genFuncs : List String) (qid : String) :
    Compilation.startName ⟨q.plan,q.name,genFuncs⟩ qid ≠ sortFinish qid := by
  intro h
  rw [Compilation.startName] at h
  split_ifs at h
  · have hchars := congrArg String.toList h
    simp [sortFinish,String.toList_append] at hchars
  · obtain ⟨label,hlabel⟩ := q.scanned
    obtain ⟨n,hn⟩ := search_eq genFuncs q.name genFuncs.length 0
    obtain ⟨t,ht⟩ := candidate_eq_append q.name n
    rw [funcName,hn,ht,hlabel] at h
    have hchars := congrArg String.toList h
    simp [sortFinish,String.toList_append] at hchars

theorem SortNames.access (lastUnique : List String → ℕ) (q : QueryPlan) (genFuncs : List String)
    (cnt : ℕ) : ∃ m,
      (sortsVisitor lastUnique (q.plan.shape ++ toString cnt) q.name).visit q.plan 1
        (⟨"",none,[],genFuncs⟩,[]) = some (m,[]) ∧
      SortNames (q.plan.shape ++ toString cnt) (m,[]) ∧
      "default_finish_" ++ (q.plan.shape ++ toString cnt) ∈ m.functions := by
  obtain ⟨m,hvisit,-,hmain,hfunctions⟩ := Compilation.visit_access lastUnique
    (q.plan.shape ++ toString cnt) ⟨q.plan,q.name,genFuncs⟩ q.access
  have hnosort : madeBySort lastUnique (q.plan.shape ++ toString cnt) q.plan 1
      ⟨"",none,[],genFuncs⟩ = [] := by
    have haccess := q.access
    cases h : q.plan <;> simp_all [Plan.isAccess,madeBySort,Plan.cmp?]
  refine ⟨m,?_,⟨by rw [hmain]; rfl,List.forall_mem_nil _,?_,by simp⟩,?_⟩
  · dsimp only at hvisit
    rw [OpVisitor.logging_visit,hvisit,hnosort]
    rfl
  · refine iff_of_false ?_ (not_not_intro rfl)
    rw [hfunctions,q.mainSymbol_startName lastUnique genFuncs cnt,List.mem_cons,
      List.mem_singleton]
    rintro (h | h)
    · have hchars := congrArg String.toList h
      simp [sortFinish,String.toList_append] at hchars
    · exact startName_ne_sortFinish q genFuncs _ h.symm
  · rw [hfunctions]
    exact List.mem_cons_self ..

theorem sortFunctions_names (lastUnique : List String → ℕ) (q : QueryPlan)
    (genFuncs : List String) (cnt : ℕ) : ∃ m fs,
      Compilation.module lastUnique ⟨q.plan,q.name,genFuncs⟩ cnt = some m ∧
      Compilation.sortFunctions lastUnique ⟨q.plan,q.name,genFuncs⟩ cnt = some fs ∧
      fs.map Prod.snd = q.plan.sorts ∧ SortNames (q.plan.shape ++ toString cnt) (m,fs) ∧
      "default_finish_" ++ (q.plan.shape ++ toString cnt) ∈ m.functions := by
  obtain ⟨m,hfirst,haccess,hdefault⟩ := SortNames.access lastUnique q genFuncs cnt
  obtain ⟨inp,hin⟩ : ∃ inp, q.plan.input = some inp := by
    have haccess := q.access
    cases h : q.plan <;> simp_all [Plan.isAccess,Plan.input]
  obtain ⟨⟨m',fs⟩,hrest,⟨hnames,hdefault'⟩,-⟩ := inp.codegen_total (R := fun _ _ => True)
    (fun _ _ _ _ _ => trivial)
    (@SortNames.visit_default q.name (q.plan.shape ++ toString cnt) lastUnique)
    (1 + q.plan.nextOffset) (m,[]) ⟨haccess,hdefault⟩
  have hcode : q.plan.codegen (sortsVisitor lastUnique (q.plan.shape ++ toString cnt) q.name) 1
      true (⟨"",none,[],genFuncs⟩,[]) = some ((m',fs),inp.opIdEnd (1 + q.plan.nextOffset)) := by
    rw [Plan.codegen_input hin,hfirst,Option.bind_some,hrest]
  have hlog : (q.plan.codegen (sortsVisitor lastUnique (q.plan.shape ++ toString cnt) q.name) 1
      true (⟨"",none,[],genFuncs⟩,[])).map (fun r => (r.1.1,r.2)) =
        q.plan.codegen (namesVisitor lastUnique (q.plan.shape ++ toString cnt) q.name) 1 true
          ⟨"",none,[],genFuncs⟩ := q.plan.codegen_logging
  refine ⟨m',fs,?_,?_,codegen_sorts q.plan hcode,hnames,hdefault'⟩
  · rw [Compilation.module_eq]
    dsimp only
    rw [← hlog,hcode]
    rfl
  · simp only [Compilation.sortFunctions,q.plan.codegen_qidGenerator,Option.bind_eq_bind,
      Option.bind_some,String.empty_append]
    rw [hcode]
    rfl

theorem sorts_ne_nil (h : p.sortFound = true) : p.sorts ≠ [] := by
  induction p with
  | join jop pos lhs rhs ihl ihr =>
    simp only [Plan.sortFound,Bool.or_eq_true,Bool.and_eq_true] at h
    rcases h with h | h
    · exact List.append_ne_nil_of_left_ne_nil (ihl h) _
    · exact List.append_ne_nil_of_right_ne_nil _ (ihr h.2)
  | sort => exact List.cons_ne_nil _ _
  | collect | endOp => cases h
  | _ _ _ =>
    rename_i ih
    exact ih h

theorem SortNames.finish {old fs : List (String × ℕ)} (h : SortNames qid (m,fs))
    (hsorts : fs.map Prod.snd = p.sorts) (hdefault : "default_finish_" ++ qid ∈ m.functions)
    (hold : ∀ f ∈ old, f.1 ∉ m.functions) (cmp : ℕ) :
    ((if p.sortFound then "sort_finish_" ++ qid else "default_finish_" ++ qid),cmp) ∈ old ++ fs ↔
      (if p.sortFound then p.sorts.head? else none) = some cmp := by
  cases hfound : p.sortFound with
  | true =>
    have hne : fs ≠ [] := by
      rintro rfl
      exact sorts_ne_nil hfound hsorts.symm
    have hmem : ("sort_finish_" ++ qid,cmp) ∉ old := fun hf => hold _ hf (h.taken.2 hne)
    rw [if_pos rfl,if_pos rfl,List.mem_append,or_iff_right hmem,← hsorts]
    exact h.own cmp
  | false =>
    rw [if_neg Bool.false_ne_true,if_neg Bool.false_ne_true,List.mem_append]
    refine iff_of_false ?_ (Option.some_ne_none _).symm
    rintro (hf | hf)
    · exact hold _ hf hdefault
    · obtain ⟨t,ht⟩ := (h.names _ hf).2
      have hchars := congrArg String.toList ht
      simp [sortFinish,String.toList_append] at hchars

end Module

section Runs
variable {lastUnique : List String → ℕ} {events : List SortEvent} {s s' : SortProcess}
  {e : SortEvent}

/-- `cmp_` is the comparator of the last sort that was made, and if `finish_[0]` is the function
of a sort, it is that of the first sort in the plan generated last. -/
structure SortProcess.Follows (events : List SortEvent) (s : SortProcess) : Prop where
  cmp : s.cmp = lastCmp events
  defined : ∀ f ∈ s.sortFunctions, f.1 ∈ s.engine.symbols.map Prod.fst
  own : ∀ cmp, (∃ f, s.engine.finish = some f ∧ (f,cmp) ∈ s.sortFunctions) ↔
    ownCmp events = some cmp

theorem lastCmp_snoc : lastCmp (events ++ [e]) = e.lastCmp (lastCmp events) := by
  simp [lastCmp]

theorem ownCmp_snoc : ownCmp (events ++ [e]) = e.ownCmp (ownCmp events) := by
  simp [ownCmp]

theorem SortProcess.Follows.generate {q : QueryPlan} {b : Unit} (h : s.Follows events)
    (hstep : SortProcess.Step lastUnique s s' (.call (.generate q b))) :
    s'.Follows (events ++ [.call (.generate q b)]) := by
  obtain ⟨-,e',fs,hcompiles,hfs,rfl⟩ := hstep
  obtain ⟨m,hm⟩ := hcompiles.compiled
  obtain ⟨m',fs',hm',hfs',hsorts,hnames,hdefault⟩ := sortFunctions_names lastUnique q
    s.engine.genFuncs s.engine.queryCnt
  obtain rfl : m = m' := Option.some.inj (hm.module.symm.trans hm')
  obtain rfl : fs = fs' := Option.some.inj (hfs.symm.trans hfs')
  have hold : ∀ f ∈ s.sortFunctions, f.1 ∉ m.functions := fun f hf hmem =>
    hm.fresh hmem (h.defined f hf)
  refine ⟨?_,?_,fun cmp => ?_⟩
  · rw [lastCmp_snoc]
    exact h.cmp
  · dsimp only
    rw [hm.symbols,List.map_append,Engine.map_fst_functions,List.forall_mem_append]
    exact ⟨fun f hf => List.mem_append_left _ (h.defined f hf),
      fun f hf => List.mem_append_right _ (hnames.names f hf).1⟩
  · rw [ownCmp_snoc,SortEvent.ownCmp,← hnames.finish hsorts hdefault hold cmp]
    dsimp only
    rw [hm.finish]
    simp

theorem SortProcess.Follows.cleans {cleaned : Bool} (h : s.Follows events)
    (hlast : lastCmp (events ++ [e]) = lastCmp events)
    (hown : ownCmp (events ++ [e]) = if cleaned then none else ownCmp events) :
    SortProcess.Follows (events ++ [e])
      { s with engine := if cleaned then s.engine.cleanup else s.engine } := by
  cases cleaned with
  | true =>
    refine ⟨h.cmp.trans hlast.symm,h.defined,fun cmp => ?_⟩
    rw [hown]
    simp [Engine.cleanup]
  | false =>
    refine ⟨h.cmp.trans hlast.symm,h.defined,fun cmp => ?_⟩
    rw [hown]
    exact h.own cmp

theorem SortProcess.Follows.step (h : s.Follows events)
    (hstep : SortProcess.Step lastUnique s s' e) : s'.Follows (events ++ [e]) := by
  cases e with
  | construct op =>
    obtain ⟨-,rfl⟩ := hstep
    refine ⟨?_,h.defined,fun cmp => ?_⟩
    · rw [lastCmp_snoc,SortEvent.lastCmp,← h.cmp]
    · rw [ownCmp_snoc]
      exact h.own cmp
  | call c =>
    cases c with
    | generate q b => exact h.generate hstep
    | run | runParallel | cleanup =>
      obtain ⟨e',rfl,rfl⟩ := hstep
      exact h.cleans lastCmp_snoc ownCmp_snoc

theorem SortProcess.Runs.follows {genFuncs : List String}
    (h : SortProcess.Runs lastUnique (.init genFuncs) events s) : s.Follows events := by
  induction h with
  | nil => exact ⟨rfl,List.forall_mem_nil _,by simp [SortProcess.init,Engine.init,ownCmp]⟩
  | snoc _ hstep ih => exact ih.step hstep

end Runs

/-- In every history the finish function of a `Sort` sorts with the comparator of this `Sort`
exactly if the last `Sort` that was made has the same. -/
theorem sortsOwn_iff (lastUnique : List String → ℕ) (genFuncs : List String)
    (events : List SortEvent) (s : SortProcess)
    (hruns : SortProcess.Runs lastUnique (.init genFuncs) events s) :
    s.SortsOwn ↔ ∀ cmp, ownCmp events = some cmp → lastCmp events = some cmp := by
  have h := hruns.follows
  unfold SortProcess.SortsOwn
  rw [h.cmp]
  constructor
  · intro hsorts cmp hown
    obtain ⟨f,hfinish,hf⟩ := (h.own cmp).2 hown
    exact hsorts f cmp hfinish hf
  · intro hlast f cmp hfinish hf
    exact hlast cmp ((h.own cmp).1 ⟨f,hfinish,hf⟩)

def booksConstructed : List SortEvent :=
  [.construct (.collect false),.construct (.sort 0 (.collect false)),.construct sortedBooks.plan]

theorem SortProcess.Runs.construct {lastUnique : List String → ℕ} {s₀ s : SortProcess}
    {events : List SortEvent} (h : Runs lastUnique s₀ events s) (op : Plan)
    (hop : ∀ inp ∈ op.inputs, inp ∈ s.made) : Runs lastUnique s₀ (events ++ [.construct op])
      { s with made := op :: s.made, cmp := op.cmp?.or s.cmp } :=
  .snoc h ⟨hop,rfl⟩

theorem runs_booksConstructed : SortProcess.Runs (fun _ => 0) (.init []) booksConstructed
    ⟨.init [],[sortedBooks.plan,.sort 0 (.collect false),.collect false],some 0,[]⟩ := by
  have hinit : SortProcess.Runs (fun _ => 0) (.init []) [] (.init []) := .nil
  have hcollect := hinit.construct (.collect false) (List.forall_mem_nil _)
  have hsort := hcollect.construct (.sort 0 (.collect false)) (by simp [Plan.inputs])
  exact hsort.construct sortedBooks.plan (by simp [Plan.inputs,sortedBooks])

theorem exists_generates {s : SortProcess} (hs : s.engine = .init [])
    (hmade : sortedBooks.plan ∈ s.made) :
    ∃ s', SortProcess.Step (fun _ => 0) s s' (.call (.generate sortedBooks ())) := by
  obtain ⟨e,he⟩ := Engine.exists_compiles (fun _ => 0) sortedBooks (b := ())
    (Engine.named_init []) rfl (returns_of_run 3 rfl)
  obtain ⟨m,fs,-,hfs,-⟩ := sortFunctions_names (fun _ => 0) sortedBooks s.engine.genFuncs
    s.engine.queryCnt
  rw [← hs] at he
  exact ⟨_,hmade,e,fs,he,hfs,rfl⟩

theorem sortsOwn_books : ∃ s, SortProcess.Runs (fun _ => 0) (.init [])
    (booksConstructed ++ [.construct (.sort 1 (.collect false))] ++
      [.construct (.sort 0 (.collect false))] ++ [.call (.generate sortedBooks ())]) s ∧
      s.SortsOwn := by
  obtain ⟨s,hs⟩ := exists_generates (s := ⟨.init [],.sort 0 (.collect false) ::
    .sort 1 (.collect false) :: _,some 0,[]⟩) rfl
    (List.mem_cons_of_mem _ (List.mem_cons_of_mem _ (List.mem_cons_self ..)))
  have hother := runs_booksConstructed.construct (.sort 1 (.collect false)) (by simp [Plan.inputs])
  have hruns := (hother.construct (.sort 0 (.collect false)) ?_).snoc hs
  · exact ⟨s,hruns,(sortsOwn_iff (fun _ => 0) [] _ s hruns).2 fun cmp hown => hown⟩
  · simp [Plan.inputs]

/-- A plan with another comparator has been made between. -/
theorem not_sortsOwn_between : ∃ s, SortProcess.Runs (fun _ => 0) (.init [])
    (booksConstructed ++ [.construct (.sort 1 (.collect false))] ++
      [.call (.generate sortedBooks ())]) s ∧ ¬ s.SortsOwn := by
  obtain ⟨s,hs⟩ := exists_generates (s := ⟨.init [],.sort 1 (.collect false) :: _,some 1,[]⟩) rfl
    (List.mem_cons_of_mem _ (List.mem_cons_self ..))
  have hruns := (runs_booksConstructed.construct (.sort 1 (.collect false))
    (by simp [Plan.inputs])).snoc hs
  refine ⟨s,hruns,fun hsorts => ?_⟩
  have hlast := (sortsOwn_iff (fun _ => 0) [] _ s hruns).1 hsorts 0 rfl
  cases hlast

end GraphQueryCompiler
