import GraphQueryCompiler.EngineState

/-!
# The start function of the last query

`generate` looks the start function up under the first name in `operator_names_[0]`, which
it only appends to. After a query was generated and before `cleanup`, that is the name of the
older query.
-/

namespace GraphQueryCompiler
open StepMachine NumberedName

/-- The calls of the engine, as far as they use its members. `b` is what the compilation
leaves in the module. -/
inductive Call (β : Type*)
  | generate (q : QueryPlan) (b : β)
  | run (cleanupQuery : Bool)
  | runParallel
  | cleanup

def Call.cleans {β : Type*} : Call β → Bool
  | .run cleanupQuery => cleanupQuery
  | .cleanup => true
  | _ => false

namespace Engine
variable {β : Type*}

def Step (lastUnique : List String → ℕ) (c : Call β) (s s' : Engine β) : Prop :=
  match c with
  | .generate q b => s.Compiles lastUnique q b s'
  | c => s' = if c.cleans then s.cleanup else s

inductive Runs (lastUnique : List String → ℕ) (s₀ : Engine β) : List (Call β) → Engine β → Prop
  | nil : Runs lastUnique s₀ [] s₀
  | snoc {calls : List (Call β)} {s s' : Engine β} {c : Call β} :
      Runs lastUnique s₀ calls s → Step lastUnique c s s' → Runs lastUnique s₀ (calls ++ [c]) s'

end Engine

namespace Plan

def hasSort : Plan → Bool
  | .scan _ _ inp => inp.hasSort
  | .foreachRship _ _ _ inp => inp.hasSort
  | .expand _ _ inp => inp.hasSort
  | .filter _ inp => inp.hasSort
  | .project _ inp => inp.hasSort
  | .join _ _ lhs rhs => lhs.hasSort || rhs.hasSort
  | .sort .. => true
  | .limit _ inp => inp.hasSort
  | .create _ _ inp => inp.hasSort
  | .collect _ => false
  | .endOp => false

def finishSymbol (p : Plan) (qid : String) : String :=
  if p.hasSort then "sort_finish_" ++ qid else "default_finish_" ++ qid

end Plan

/-- `start_[0]` and `finish_[0]` are the functions that the compilation of `q` in front of
`s'` has made. -/
def Engine.HoldsFunctions {β : Type*} (lastUnique : List String → ℕ) (q : QueryPlan)
    (s s' : Engine β) : Prop :=
  ∃ m f, Compilation.module lastUnique ⟨q.plan,q.name,s.genFuncs⟩ s.queryCnt = some m ∧
    m.mainFunction = some f ∧ s'.start = some f ∧
    s'.finish = some (q.plan.finishSymbol (q.plan.shape ++ toString s.queryCnt))

/-- Behind every `generate` came a call that cleaned up. -/
def Cleaned {β : Type*} (calls : List (Call β)) : Prop :=
  ∀ pre q b post, calls = pre ++ .generate q b :: post → ∃ c ∈ post, c.cleans = true

section Module
variable {lastUnique : List String → ℕ} {qid name : String} {p : Plan} {mn mn' : ModuleNames}

theorem ModuleNames.mem_add : name ∈ (mn.add lastUnique name).functions := by
  by_cases h : name ∈ mn.functions
  · exact List.mem_append_left _ h
  · simp [add,symbol,h]

theorem visit_subset {op : Plan} {opId : ℕ}
    (h : (namesVisitor lastUnique qid name).visit op opId mn = some mn') :
    mn.functions ⊆ mn'.functions := by
  unfold namesVisitor at h
  dsimp only at h
  split at h
  all_goals first
    | (obtain rfl := Option.some.inj h; simp [ModuleNames.addMain,ModuleNames.add])
    | simp at h

theorem codegen_subset {opId opId' : ℕ} {interpreted : Bool}
    (h : p.codegen (namesVisitor lastUnique qid name) opId interpreted mn = some (mn',opId')) :
    mn.functions ⊆ mn'.functions :=
  p.codegen_rel (R := fun mn mn' => mn.functions ⊆ mn'.functions)
    (fun _ _ _ h₁ h₂ => List.Subset.trans h₁ h₂) (fun _ _ _ _ => visit_subset) h

theorem codegen_sort_mem (p : Plan) : ∀ {opId opId' : ℕ} {mn mn' : ModuleNames},
    p.codegen (namesVisitor lastUnique qid name) opId true mn = some (mn',opId') →
    p.hasSort = true → "sort_finish_" ++ qid ∈ mn'.functions := by
  induction p with
  | collect | endOp => exact fun _ h => absurd h (by simp [Plan.hasSort])
  | sort cmp inp _ =>
    intro opId opId' mn mn' h _
    rw [Plan.codegen_input rfl] at h
    exact codegen_subset h ModuleNames.mem_add
  | join jop pos lhs rhs ihl ihr =>
    intro opId opId' mn mn' h hsort
    simp only [Plan.codegen,if_true,Option.bind_eq_bind,Option.bind_eq_some_iff,Prod.exists] at h
    obtain ⟨_,_,mn₂,_,h₂,h₃⟩ := h
    rcases Bool.or_eq_true_iff.1 hsort with hl | hr
    · exact codegen_subset h₃ (ihl h₂ hl)
    · exact ihr h₃ hr
  | _ _ _ =>
    rename_i ih
    intro opId opId' mn mn' h hsort
    rw [Plan.codegen_input rfl,Option.bind_eq_some_iff] at h
    obtain ⟨_,_,h₂⟩ := h
    exact ih h₂ hsort

theorem Plan.hasSort_of_sortFound (h : p.sortFound = true) : p.hasSort = true := by
  induction p with
  | join jop pos lhs rhs ihl ihr =>
    simp only [sortFound,Bool.or_eq_true,Bool.and_eq_true] at h
    rw [hasSort,Bool.or_eq_true]
    exact h.imp ihl fun h => ihr h.2
  | sort => rfl
  | collect | endOp => exact absurd h (by simp [sortFound])
  | _ _ _ =>
    rename_i ih
    exact ih h

theorem QueryPlan.mainSymbol_startName (lastUnique : List String → ℕ) (q : QueryPlan)
    (genFuncs : List String) (cnt : ℕ) :
    mainSymbol lastUnique (q.plan.shape ++ toString cnt)
        (Compilation.startName ⟨q.plan,q.name,genFuncs⟩ (q.plan.shape ++ toString cnt)) =
      Compilation.startName ⟨q.plan,q.name,genFuncs⟩ (q.plan.shape ++ toString cnt) := by
  rw [Compilation.startName]
  cases q.plan.isCreate with
  | true => exact mainSymbol_queryStart q.plan.endsLeaf_shape
  | false =>
    obtain ⟨label,hlabel⟩ := q.scanned
    obtain ⟨n,hn⟩ := search_eq genFuncs q.name genFuncs.length 0
    obtain ⟨t,ht⟩ := candidate_eq_append q.name n
    refine if_neg fun h => ?_
    have hname : funcName genFuncs q.name = "default_finish_" := by
      simpa using h
    rw [funcName,hn,ht,hlabel] at hname
    have hchars := congrArg String.toList hname
    simp [String.toList_append] at hchars

theorem Compilation.startName_ne_empty (s : Compilation) (cnt : ℕ) :
    s.startName (s.plan.shape ++ toString cnt) ≠ "" := by
  intro h
  have hchars := congrArg String.toList h
  rw [startName] at hchars
  split_ifs at hchars
  · simp at hchars
  · rw [String.toList_append,toList_append_toString] at hchars
    simp at hchars

end Module

namespace Engine
variable {β : Type*} {lastUnique : List String → ℕ} {q : QueryPlan} {b : β} {s s' : Engine β}
  {calls : List (Call β)}

structure Compiled (lastUnique : List String → ℕ) (q : QueryPlan) (b : β) (m : ModuleNames)
    (s s' : Engine β) : Prop where
  module : Compilation.module lastUnique ⟨q.plan,q.name,s.genFuncs⟩ s.queryCnt = some m
  mainFunction : m.mainFunction = some m.startName
  start_mem : m.startName ∈ m.functions
  fresh : m.functions.Disjoint (s.symbols.map Prod.fst)
  symbols : s'.symbols = s.symbols ++ m.functions.map fun f => (f,some b)
  operatorNames : s'.operatorNames = s.operatorNames ++ [m.startName]
  finish : s'.finish = some (if q.plan.sortFound then
    "sort_finish_" ++ (q.plan.shape ++ toString s.queryCnt)
    else "default_finish_" ++ (q.plan.shape ++ toString s.queryCnt))
  start : ∀ n ns, s'.operatorNames = n :: ns → s'.start = (address s'.symbols n).or s.start
  extraction : Returns extractStep (.loop q.plan [] s.extraction) (.done s'.extraction)

theorem map_fst_functions (functions : List String) (b : Option β) :
    (functions.map fun f => (f,b)).map Prod.fst = functions := by
  simp [List.map_map,Function.comp_def]

theorem Compiles.compiled (h : s.Compiles lastUnique q b s') :
    ∃ m, Compiled lastUnique q b m s s' := by
  obtain ⟨m,t,n,ns,hm,hfresh,hret,hnames,rfl⟩ := h
  obtain ⟨m',fs,hm',hstart,hmain,hfs,_⟩ := Compilation.module_names lastUnique
    ⟨q.plan,q.name,s.genFuncs⟩ s.queryCnt q.access
  obtain rfl : m = m' := Option.some.inj (hm.symm.trans hm')
  have hsym := q.mainSymbol_startName lastUnique s.genFuncs s.queryCnt
  rw [← hstart] at hsym
  rw [hsym] at hmain hfs
  have hne : m.startName ≠ "" := by
    rw [hstart]
    exact Compilation.startName_ne_empty ⟨q.plan,q.name,s.genFuncs⟩ s.queryCnt
  obtain ⟨hpush,hfin,hext⟩ := task_done q.access hne hret
  -- the finish function is one of the module
  have hfinmem : t.finishName ∈ m.functions := by
    rw [hfin]
    split_ifs with hfound
    · have hcode := hm
      rw [Compilation.module_eq] at hcode
      obtain ⟨r,hr,hrm⟩ := Option.map_eq_some_iff.1 hcode
      rw [← hrm]
      exact codegen_sort_mem q.plan hr (Plan.hasSort_of_sortFound hfound)
    · rw [hfs]
      simp
  refine ⟨m,hm,hmain,by rw [hfs]; simp,hfresh,rfl,hpush,?_,?_,hext⟩
  · have hmem : t.finishName ∈
        (s.symbols ++ m.functions.map fun f => (f,some b)).map Prod.fst := by
      rw [List.map_append,map_fst_functions]
      exact List.mem_append_right _ hfinmem
    rw [← hfin]
    simp only [address,if_pos hmem,Option.some_or]
  · intro n' ns' hn'
    obtain ⟨rfl,_⟩ := List.cons.inj (hnames.symm.trans hn')
    rfl

def Named (s : Engine β) : Prop :=
  ∀ x ∈ s.symbols.map Prod.fst, Closed x ∨ ∃ n < s.queryCnt, Numbered n x

theorem named_init (genFuncs : List String) : (init genFuncs : Engine β).Named := by
  intro x hx
  have hx : x ∈ hostFunctions := by simpa [init,List.map_map,Function.comp_def] using hx
  exact .inl (closed_hostFunctions x hx).1

theorem Compiles.named (h : s.Compiles lastUnique q b s') (hs : s.Named) : s'.Named := by
  obtain ⟨m,t,n,ns,hm,_,_,_,rfl⟩ := h
  obtain ⟨m₂,hm₂,hdef⟩ := Compilation.module_defines lastUnique ⟨q.plan,q.name,s.genFuncs⟩
    s.queryCnt q.access
  obtain rfl : m = m₂ := Option.some.inj (hm.symm.trans hm₂)
  intro x hx
  rw [List.map_append,map_fst_functions,List.mem_append] at hx
  rcases hx with hx | hx
  · exact (hs x hx).imp_right fun ⟨k,hk,hnum⟩ => ⟨k,Nat.lt_succ_of_lt hk,hnum⟩
  · rcases hdef.numbered x hx with hnum | ⟨rfl,_⟩
    · exact .inr ⟨s.queryCnt,Nat.lt_succ_self _,hnum⟩
    · exact .inl closed_queryStart

theorem exists_compiles (lastUnique : List String → ℕ) (q : QueryPlan) {e : Extraction}
    (hs : s.Named) (hscan : q.plan.isCreate = false)
    (hext : Returns extractStep (.loop q.plan [] s.extraction) (.done e)) (b : β) :
    ∃ s', s.Compiles lastUnique q b s' := by
  obtain ⟨m,hm,hdef⟩ := Compilation.module_defines lastUnique ⟨q.plan,q.name,s.genFuncs⟩
    s.queryCnt q.access
  have hfresh : m.functions.Disjoint (s.symbols.map Prod.fst) := by
    intro x hx hsym
    have hnum : Numbered s.queryCnt x :=
      (hdef.numbered x hx).resolve_right fun ⟨_,hc⟩ => by simp [hscan] at hc
    rcases hs x hsym with hclosed | ⟨k,hk,hnum'⟩
    · exact not_numbered_of_closed hclosed hnum
    · exact absurd (hnum.unique hnum') (by omega)
  have hstart : m.startName ≠ "" := by
    obtain ⟨m',_,hm',hstart,_⟩ := Compilation.module_names lastUnique
      ⟨q.plan,q.name,s.genFuncs⟩ s.queryCnt q.access
    obtain rfl : m = m' := Option.some.inj (hm.symm.trans hm')
    rw [hstart]
    exact Compilation.startName_ne_empty ⟨q.plan,q.name,s.genFuncs⟩ s.queryCnt
  obtain ⟨c,hret,hc⟩ := Returns.exists_of_map
    (taskStep_arguments (q.plan.shape ++ toString s.queryCnt)) (x := .loop q.plan m.startName []
      ⟨s.extraction,s.operatorNames,"default_finish_" ++ (q.plan.shape ++ toString s.queryCnt)⟩)
    hext
  cases c with
  | done t =>
    have hnames := (task_done q.access hstart hret).1
    have hne : t.operatorNames ≠ [] := by
      rw [hnames]
      simp
    obtain ⟨n,ns,hn⟩ := List.exists_cons_of_ne_nil hne
    exact ⟨_,m,t,n,ns,hm,hfresh,hret,hn,rfl⟩
  | loop | undefined => simp [TaskState.arguments] at hc

def Defined (s : Engine β) : Prop := ∀ n ∈ s.operatorNames, n ∈ s.symbols.map Prod.fst

theorem Compiled.defined {m : ModuleNames} (h : Compiled lastUnique q b m s s')
    (hs : s.Defined) : s'.Defined := by
  intro n hn
  rw [h.operatorNames,List.mem_append,List.mem_singleton] at hn
  rw [h.symbols,List.map_append,map_fst_functions,List.mem_append]
  rcases hn with hn | rfl
  · exact .inl (hs n hn)
  · exact .inr h.start_mem

def Loaded (s : Engine β) : Prop := ∀ n, s.start = some n → n ∈ s.symbols.map Prod.fst

theorem Compiled.loaded {m : ModuleNames} (h : Compiled lastUnique q b m s s')
    (hs : s.Loaded) : s'.Loaded := by
  intro n hn
  obtain ⟨n',ns,hnames⟩ : ∃ n' ns, s'.operatorNames = n' :: ns :=
    List.exists_cons_of_ne_nil (by simp [h.operatorNames])
  rw [h.start n' ns hnames,address] at hn
  split_ifs at hn with hmem
  · obtain rfl := Option.some.inj hn
    exact hmem
  · rw [h.symbols,List.map_append,List.mem_append]
    exact .inl (hs n hn)

theorem Step.invariant {P : Engine β → Prop}
    (hcompiled : ∀ {q : QueryPlan} {b : β} {m : ModuleNames} {s s' : Engine β},
      Compiled lastUnique q b m s s' → P s → P s')
    (hclean : ∀ s : Engine β, P s → P s.cleanup) {c : Call β} (h : Step lastUnique c s s')
    (hs : P s) : P s' := by
  cases c with
  | generate q b =>
    obtain ⟨m,hm⟩ := Compiles.compiled h
    exact hcompiled hm hs
  | run cleanupQuery =>
    obtain rfl := h
    cases cleanupQuery
    · exact hs
    · exact hclean s hs
  | runParallel =>
    obtain rfl := h
    exact hs
  | cleanup =>
    obtain rfl := h
    exact hclean s hs

theorem Runs.defined {s₀ : Engine β} (h : Runs lastUnique s₀ calls s) (h₀ : s₀.Defined) :
    s.Defined := by
  induction h with
  | nil => exact h₀
  | snoc _ hstep ih =>
    exact hstep.invariant (fun h hs => h.defined hs) (by simp [Defined,cleanup]) ih

theorem Runs.loaded {s₀ : Engine β} (h : Runs lastUnique s₀ calls s) (h₀ : s₀.Loaded) :
    s.Loaded := by
  induction h with
  | nil => exact h₀
  | snoc _ hstep ih =>
    exact hstep.invariant (fun h hs => h.loaded hs) (by simp [Loaded,cleanup]) ih

theorem cleaned_iff : Cleaned calls ↔
    Followed (fun c => ∃ q b, c = .generate q b) (fun c => c.cleans = true) calls := by
  constructor
  · rintro h pre c post heq ⟨q,b,rfl⟩
    exact h pre q b post heq
  · exact fun h pre q b post heq => h pre _ post heq ⟨q,b,rfl⟩

theorem cleaned_snoc {c : Call β} : Cleaned (calls ++ [c]) ↔
    c.cleans = true ∨ (∀ q b, c ≠ .generate q b) ∧ Cleaned calls := by
  rw [cleaned_iff,cleaned_iff,followed_snoc]
  · simp
  · rintro ⟨q,b,rfl⟩
    simp [Call.cleans]

theorem Runs.operatorNames_eq_nil {s₀ : Engine β} (h : Runs lastUnique s₀ calls s)
    (h₀ : s₀.operatorNames = []) : s.operatorNames = [] ↔ Cleaned calls := by
  induction h with
  | nil => simp [h₀,Cleaned]
  | @snoc calls s s' c _ hstep ih =>
    rw [cleaned_snoc,← ih]
    cases c with
    | generate q b =>
      obtain ⟨m,hm⟩ := Compiles.compiled hstep
      rw [hm.operatorNames]
      simp [Call.cleans]
    | run cleanupQuery =>
      obtain rfl := hstep
      cases cleanupQuery <;> simp [Call.cleans,cleanup]
    | runParallel =>
      obtain rfl := hstep
      simp [Call.cleans]
    | cleanup =>
      obtain rfl := hstep
      simp [Call.cleans,cleanup]

theorem Compiled.start_iff {m : ModuleNames} (h : Compiled lastUnique q b m s s')
    (hs : s.Defined) : s'.start = some m.startName ↔ s.operatorNames = [] := by
  have hown : address s'.symbols m.startName = some m.startName := by
    refine if_pos ?_
    rw [h.symbols,List.map_append,map_fst_functions]
    exact List.mem_append_right _ h.start_mem
  have hnames := h.operatorNames
  cases hn : s.operatorNames with
  | nil =>
    rw [hn,List.nil_append] at hnames
    rw [h.start _ _ hnames,hown,Option.some_or]
    simp
  | cons n ns =>
    rw [hn] at hnames
    have hmem : n ∈ s.symbols.map Prod.fst := hs n (by simp [hn])
    have hold : address s'.symbols n = some n := by
      refine if_pos ?_
      rw [h.symbols,List.map_append]
      exact List.mem_append_left _ hmem
    rw [h.start _ _ hnames,hold,Option.some_or]
    simp only [Option.some.injEq,reduceCtorEq,iff_false]
    rintro rfl
    exact h.fresh h.start_mem hmem

theorem Compiled.holdsFunctions_iff {m : ModuleNames} (h : Compiled lastUnique q b m s s')
    (hs : s.Defined) : HoldsFunctions lastUnique q s s' ↔
      s.operatorNames = [] ∧ (q.plan.hasSort = true → q.plan.sortFound = true) := by
  have hstart := h.start_iff hs
  have hfinish : s'.finish = some (q.plan.finishSymbol (q.plan.shape ++ toString s.queryCnt)) ↔
      (q.plan.hasSort = true → q.plan.sortFound = true) := by
    have hne : ∀ qid : String, "default_finish_" ++ qid ≠ "sort_finish_" ++ qid := by
      simp
    rw [h.finish,Option.some.injEq,Plan.finishSymbol]
    cases hfound : q.plan.sortFound with
    | true => simp [Plan.hasSort_of_sortFound hfound]
    | false => cases q.plan.hasSort <;> simp [hne]
  rw [← hstart,← hfinish]
  refine ⟨?_,fun ⟨h₁,h₂⟩ => ⟨m,_,h.module,h.mainFunction,h₁,h₂⟩⟩
  rintro ⟨m',f,hm',hf,h₁,h₂⟩
  obtain rfl : m = m' := Option.some.inj (h.module.symm.trans hm')
  obtain rfl : m.startName = f := Option.some.inj (h.mainFunction.symm.trans hf)
  exact ⟨h₁,h₂⟩

end Engine

/-- After any history, `generate` leaves the functions of its own query in the engine exactly
if the engine was cleaned up behind every earlier `generate`, and a `Sort` of the query is not
only in the right-hand side of a join of the other two kinds. -/
theorem generate_holdsFunctions_iff {β : Type*} (lastUnique : List String → ℕ)
    (genFuncs : List String) (calls : List (Call β)) (q : QueryPlan) (b : β) (s s' : Engine β)
    (hruns : Engine.Runs lastUnique (.init genFuncs) calls s)
    (hstep : Engine.Step lastUnique (.generate q b) s s') :
    Engine.HoldsFunctions lastUnique q s s' ↔
      Cleaned calls ∧ (q.plan.hasSort = true → q.plan.sortFound = true) := by
  obtain ⟨m,hm⟩ := Engine.Compiles.compiled hstep
  rw [hm.holdsFunctions_iff (hruns.defined (by simp [Engine.Defined,Engine.init])),
    hruns.operatorNames_eq_nil rfl]

def personsQuery : QueryPlan :=
  ⟨.scan "Person" false (.collect false),"Scan_Person",rfl,"Person",rfl⟩

def sortedBooks : QueryPlan :=
  ⟨.scan "Book" false (.sort 0 (.collect false)),"Scan_Book",rfl,"Book",rfl⟩

def booksQuery : QueryPlan := ⟨.scan "Book" false (.collect false),"Scan_Book",rfl,"Book",rfl⟩

def crossedPersons : QueryPlan :=
  ⟨.scan "Person" false (.join .CROSS (0,0) (.collect false) (.scan "Person" false .endOp)),
    "Scan_Person",rfl,"Person",rfl⟩

theorem holdsFunctions_persons : ∃ s' : Engine Unit,
    Engine.Step (fun _ => 0) (.generate personsQuery ()) (.init []) s' ∧
      Engine.HoldsFunctions (fun _ => 0) personsQuery (.init []) s' := by
  obtain ⟨s',hs'⟩ := Engine.exists_compiles (fun _ => 0) personsQuery (b := ())
    (Engine.named_init []) rfl (returns_of_run 2 rfl)
  exact ⟨s',hs',(generate_holdsFunctions_iff (fun _ => 0) [] [] personsQuery () _ s' .nil hs').2
    ⟨by simp [Cleaned],by decide⟩⟩

theorem exists_compiles_persons (q : QueryPlan) (hq : q.plan.Sources)
    (hscan : q.plan.isCreate = false) (hfit : 2 + (q.plan.extracted false).length ≤ 64) :
    ∃ s s' : Engine Unit, Engine.Compiles (fun _ => 0) personsQuery () (.init []) s ∧
      s.Compiles (fun _ => 0) q () s' := by
  have hinit := Engine.named_init (β := Unit) []
  have hpersons : personsQuery.plan.Sources := trivial
  obtain ⟨e,he⟩ := exists_returns (e := .init) hpersons (by decide)
  obtain ⟨s,hs⟩ := Engine.exists_compiles (fun _ => 0) personsQuery hinit rfl he ()
  obtain ⟨m,hm⟩ := hs.compiled
  have hcount := Extraction.argCounter_of_puts ((returns_iff_puts hpersons).1 hm.extraction)
  obtain ⟨e',he'⟩ := exists_returns (e := s.extraction) hq (by rw [hcount]; exact hfit)
  obtain ⟨s',hs'⟩ := Engine.exists_compiles (fun _ => 0) q (hs.named hinit) hscan he' ()
  exact ⟨s,s',hs,hs'⟩

/-- Without `cleanup` in between, `start_[0]` is not the function of the second query. -/
theorem not_holdsFunctions_books : ∃ s s' : Engine Unit,
    Engine.Runs (fun _ => 0) (.init []) [.generate personsQuery (),.run false] s ∧
      Engine.Step (fun _ => 0) (.generate sortedBooks ()) s s' ∧
      ¬ Engine.HoldsFunctions (fun _ => 0) sortedBooks s s' := by
  obtain ⟨s,s',hs,hs'⟩ := exists_compiles_persons sortedBooks trivial rfl (by decide)
  obtain ⟨m,hm⟩ := hs.compiled
  obtain ⟨m',hm'⟩ := hs'.compiled
  have hfirst : Engine.Runs (fun _ => 0) (.init []) ([] ++ [.generate personsQuery ()]) s :=
    .snoc .nil hs
  refine ⟨s,s',.snoc (c := .run false) hfirst rfl,hs',fun hholds => ?_⟩
  have hdef := hm.defined (by simp [Engine.Defined,Engine.init])
  have hnil := ((hm'.holdsFunctions_iff hdef).1 hholds).1
  simp [hm.operatorNames] at hnil

end GraphQueryCompiler
