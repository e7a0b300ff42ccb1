import GraphQueryCompiler.ArgExtraction
import GraphQueryCompiler.SymbolNames

/-!
# The members of the query engine

`compile_task` adds the module of a query to the JIT compiler, walks the plan for its
arguments and names, and looks up the start function and the finish function. What it reads
and writes are members of the engine that outlive the query: only `cleanup` resets some of
them.
-/

namespace GraphQueryCompiler
open StepMachine

/-- A query for `generate`: a plan behind an access path, and `name_` of that operator, which
begins as its constructor made it. -/
structure QueryPlan where
  plan : Plan
  name : String
  access : plan.isAccess = true
  scanned : ∃ label, name = "Scan_" ++ label

/-- What the loop of `compile_task` writes: `query_args` with its counter,
`operator_names_[0]`, and `finish_name`. -/
structure Task where
  extraction : Extraction
  operatorNames : List String
  finishName : String

def Task.push (t : Task) (name : String) : Task :=
  if name = "" then t else { t with operatorNames := t.operatorNames ++ [name] }

def Plan.nameIn (qid : String) : Plan → String
  | .sort .. => "sort_finish_" ++ qid
  | _ => ""

inductive TaskState
  | loop (curOp : Plan) (name : String) (recurList : List Plan) (t : Task)
  | done (t : Task)
  | undefined

def Plan.next (curOp : Plan) (recurList : List Plan) : Option (Plan × List Plan) :=
  match curOp with
  | .join .CROSS _ lhs rhs => some (lhs,rhs :: recurList)
  | .join .LEFT_OUTER _ lhs rhs => some (lhs,rhs :: recurList)
  | op => op.inputs.head?.map fun inp => (inp,recurList)

def Task.visit (t : Task) (op : Plan) (name : String) : Task :=
  match op with
  | .sort .. => { t with finishName := name }
  | _ => t.push name

def taskBody (qid : String) (curOp : Plan) (name : String) (recurList : List Plan) (t : Task) :
    Option TaskState := do
  let e ← extractArg curOp t.extraction
  let x ← popIfLeaf curOp recurList
  let name := if curOp.inputs = [] then x.1.nameIn qid else name
  let y ← x.1.next x.2
  return .loop y.1 (y.1.nameIn qid) y.2 (Task.visit { t with extraction := e } x.1 name)

def taskStep (qid : String) : TaskState → Option TaskState
  | .loop curOp name recurList t =>
    if curOp.inputs = [] ∧ recurList = [] then
      some (.done (if curOp = .endOp then t.push name else t))
    else some ((taskBody qid curOp name recurList t).getD .undefined)
  | .done _ => none
  | .undefined => none

def TaskState.arguments : TaskState → LoopState
  | .loop curOp _ recurList t => .loop curOp recurList t.extraction
  | .done t => .done t.extraction
  | .undefined => .undefined

namespace Plan

def sortFound : Plan → Bool
  | .scan _ _ inp => inp.sortFound
  | .foreachRship _ _ _ inp => inp.sortFound
  | .expand _ _ inp => inp.sortFound
  | .filter _ inp => inp.sortFound
  | .project _ inp => inp.sortFound
  | .join jop _ lhs rhs => lhs.sortFound || (jop.saved && rhs.sortFound)
  | .sort .. => true
  | .limit _ inp => inp.sortFound
  | .create _ _ inp => inp.sortFound
  | .collect _ => false
  | .endOp => false

end Plan

section Loop
variable {qid name fin : String} {p op inp : Plan} {rl rl' : List Plan} {t t' : Task}
  {c c' : TaskState}

theorem descend_eq_next {e : Extraction} :
    descend op rl e = (op.next rl).map fun x => .loop x.1 x.2 e := by
  cases op with
  | join jop pos lhs rhs => cases jop <;> rfl
  | _ => rfl

@[simp] theorem Task.visit_extraction : (t.visit op name).extraction = t.extraction := by
  cases op with
  | sort => rfl
  | _ =>
    simp only [visit,push]
    split_ifs <;> rfl

theorem taskStep_arguments (qid : String) (c : TaskState) :
    (taskStep qid c).map TaskState.arguments = extractStep c.arguments := by
  cases c with
  | done | undefined => rfl
  | loop curOp name rl t =>
    simp only [taskStep,extractStep,TaskState.arguments]
    split_ifs with hstop hend
    · simp only [Option.map_some,TaskState.arguments,Task.push]
      split_ifs <;> rfl
    · rfl
    · simp only [Option.map_some,Option.some.injEq,taskBody,extractBody,Option.bind_eq_bind,
        Option.pure_def,descend_eq_next]
      cases extractArg curOp t.extraction with
      | none => rfl
      | some e =>
        simp only [Option.bind_some]
        cases popIfLeaf curOp rl with
        | none => rfl
        | some x =>
          simp only [Option.bind_some]
          cases x.1.next x.2 with
          | none => rfl
          | some y => simp [TaskState.arguments]

theorem sortFound_next {x : Plan × List Plan} (h : op.next rl = some x)
    (hsort : ∀ cmp inp, op ≠ .sort cmp inp) :
    (x.1.sortFound || x.2.any Plan.sortFound) = (op.sortFound || rl.any Plan.sortFound) := by
  cases op with
  | sort cmp inp => exact absurd rfl (hsort cmp inp)
  | join jop pos lhs rhs =>
    cases jop <;> obtain rfl := Option.some.inj h <;>
      simp [Plan.sortFound,JoinOp.saved,Bool.or_assoc]
  | collect | endOp => simp [Plan.next,Plan.inputs] at h
  | _ =>
    obtain rfl := Option.some.inj h
    rfl

/-- `finish_name` is that of a `Sort` if the loop has met one, or will meet one if it has not,
and no name is added any more. -/
def NamesKept (qid fin : String) (names : List String) (found : Bool) : TaskState → Prop
  | .loop curOp name rl t => name = curOp.nameIn qid ∧ t.operatorNames = names ∧
      ∃ met : Bool, t.finishName = (if met then "sort_finish_" ++ qid else fin) ∧
        (met || (curOp.sortFound || rl.any Plan.sortFound)) = found
  | .done t => t.operatorNames = names ∧
      t.finishName = if found then "sort_finish_" ++ qid else fin
  | .undefined => True

theorem sortFound_of_inputs (h : op.inputs = []) : op.sortFound = false := by
  cases op <;> simp_all [Plan.inputs,Plan.sortFound]

theorem Task.visit_kept {names : List String} {found met : Bool} {x : Plan × List Plan}
    (hnames : t.operatorNames = names)
    (hfin : t.finishName = if met then "sort_finish_" ++ qid else fin)
    (hfound : (met || (op.sortFound || rl.any Plan.sortFound)) = found)
    (hnext : op.next rl = some x) :
    NamesKept qid fin names found (.loop x.1 (x.1.nameIn qid) x.2
      (t.visit op (op.nameIn qid))) := by
  refine ⟨rfl,?_⟩
  by_cases hsort : ∃ cmp inp, op = .sort cmp inp
  · obtain ⟨cmp,inp,rfl⟩ := hsort
    refine ⟨hnames,true,rfl,?_⟩
    simpa [Plan.sortFound] using hfound
  · have hne : ∀ cmp inp, op ≠ .sort cmp inp := fun cmp inp h => hsort ⟨cmp,inp,h⟩
    have hvisit : t.visit op (op.nameIn qid) = t := by
      cases op with
      | sort cmp inp => exact absurd rfl (hne cmp inp)
      | _ => rfl
    rw [hvisit]
    exact ⟨hnames,met,hfin,by rw [sortFound_next hnext hne,hfound]⟩

theorem namesKept_step {names : List String} {found : Bool}
    (hc : NamesKept qid fin names found c) (h : taskStep qid c = some c') :
    NamesKept qid fin names found c' := by
  cases c with
  | done | undefined => simp [taskStep] at h
  | loop curOp name rl t =>
    obtain ⟨rfl,hnames,met,hfin,hfound⟩ := hc
    simp only [taskStep] at h
    split_ifs at h with hstop hend
    · obtain rfl := Option.some.inj h
      subst hend
      obtain ⟨_,rfl⟩ := hstop
      have hmet : met = found := by simpa [Plan.sortFound] using hfound
      exact ⟨hnames,hmet ▸ hfin⟩
    · obtain rfl := Option.some.inj h
      obtain ⟨hleaf,rfl⟩ := hstop
      have hmet : met = found := by simpa [sortFound_of_inputs hleaf] using hfound
      exact ⟨hnames,hmet ▸ hfin⟩
    · obtain rfl := Option.some.inj h
      cases hbody : taskBody qid curOp (curOp.nameIn qid) rl t with
      | none => trivial
      | some c' =>
        simp only [taskBody,Option.bind_eq_bind,Option.bind_eq_some_iff,Option.pure_def,
          Option.some.injEq] at hbody
        obtain ⟨e,_,x,hpop,y,hnext,rfl⟩ := hbody
        -- the operator in hand, which may come from the stack
        have hname : (if curOp.inputs = [] then x.1.nameIn qid else curOp.nameIn qid) =
            x.1.nameIn qid ∧ (x.1.sortFound || x.2.any Plan.sortFound) =
              (curOp.sortFound || rl.any Plan.sortFound) := by
          unfold popIfLeaf at hpop
          split at hpop
          · rename_i hleaf
            obtain rfl := Option.some.inj hpop
            simp [hleaf,sortFound_of_inputs hleaf]
          · simp at hpop
          · obtain rfl := Option.some.inj hpop
            simp
        rw [Option.getD_some,hname.1]
        exact Task.visit_kept hnames hfin (by rw [hname.2,hfound]) hnext

theorem taskStep_access (hp : p.isAccess = true) (hname : name ≠ "") :
    ∃ inp, p.sortFound = inp.sortFound ∧ taskStep qid (.loop p name [] t) =
      some (((extractArg p t.extraction).map fun e => TaskState.loop inp (inp.nameIn qid) []
        ⟨e,t.operatorNames ++ [name],t.finishName⟩).getD .undefined) := by
  cases p with
  | scan label indexed inp =>
    refine ⟨inp,rfl,?_⟩
    simp only [taskStep,taskBody,Plan.inputs,popIfLeaf,Plan.next,Option.bind_eq_bind]
    cases extractArg (.scan label indexed inp) t.extraction <;>
      simp [Task.visit,Task.push,hname]
  | create type srcDes inp =>
    refine ⟨inp,rfl,?_⟩
    simp only [taskStep,taskBody,Plan.inputs,popIfLeaf,Plan.next,Option.bind_eq_bind]
    cases extractArg (.create type srcDes inp) t.extraction <;>
      simp [Task.visit,Task.push,hname]
  | _ => simp [Plan.isAccess] at hp

theorem task_done (hp : p.isAccess = true) (hname : name ≠ "")
    (h : Returns (taskStep qid) (.loop p name [] t) (.done t')) :
    t'.operatorNames = t.operatorNames ++ [name] ∧
      (t'.finishName = if p.sortFound then "sort_finish_" ++ qid else t.finishName) ∧
      Returns extractStep (.loop p [] t.extraction) (.done t'.extraction) := by
  have harg := h.of_map (taskStep_arguments qid)
  obtain ⟨inp,hfound,hstep⟩ := taskStep_access (t := t) hp hname
  have hrest := h.after (Reaches.single hstep)
  cases he : extractArg p t.extraction with
  | none =>
    rw [he] at hrest
    have hund : Returns (taskStep qid) .undefined .undefined := ⟨.refl,rfl⟩
    exact absurd (Returns.unique hrest hund) (by simp)
  | some e =>
    rw [he] at hrest
    obtain ⟨hnames,hfin⟩ : NamesKept qid t.finishName (t.operatorNames ++ [name])
        (inp.sortFound || [].any Plan.sortFound) (.done t') :=
      Reaches.invariant (fun _ _ => namesKept_step) hrest.1 ⟨rfl,rfl,false,rfl,by simp⟩
    exact ⟨hnames,by rw [hfin,hfound]; simp,harg⟩

end Loop

/-- The members of the engine that outlive a query, and with them `query_cnt` and the static
`finish_`, for the first entries of the maps. A function pointer is named by its symbol; `β` is
what a module defines under its symbols. -/
structure Engine (β : Type*) where
  queryCnt : ℕ
  genFuncs : List String
  /-- The symbols in `Main`. -/
  symbols : List (String × Option β)
  /-- `query_args` and `arg_counter` -/
  extraction : Extraction
  operatorNames : List String
  start : Option String
  finish : Option String

namespace Engine
variable {β : Type*}

def init (genFuncs : List String) : Engine β :=
  ⟨0,genFuncs,hostFunctions.map fun f => (f,none),.init,[],none,none⟩

def cleanup (s : Engine β) : Engine β :=
  { s with operatorNames := [], start := none, finish := none }

def address (symbols : List (String × Option β)) (name : String) : Option String :=
  if name ∈ symbols.map Prod.fst then some name else none

/-- `compile_task::operator()`, with `b` in the module. The process exits if a symbol of the
module is defined already, and ends if `operator_names_[0]` is empty. -/
def Compiles (lastUnique : List String → ℕ) (q : QueryPlan) (b : β) (s s' : Engine β) : Prop :=
  ∃ m t n ns, Compilation.module lastUnique ⟨q.plan,q.name,s.genFuncs⟩ s.queryCnt = some m ∧
    m.functions.Disjoint (s.symbols.map Prod.fst) ∧
    Returns (taskStep (q.plan.shape ++ toString s.queryCnt)) (.loop q.plan m.startName []
      ⟨s.extraction,s.operatorNames,"default_finish_" ++ (q.plan.shape ++ toString s.queryCnt)⟩)
      (.done t) ∧
    t.operatorNames = n :: ns ∧
    s' = ⟨s.queryCnt+1,m.genFuncs,s.symbols ++ m.functions.map fun f => (f,some b),t.extraction,
      t.operatorNames,
      (address (s.symbols ++ m.functions.map fun f => (f,some b)) n).or s.start,
      (address (s.symbols ++ m.functions.map fun f => (f,some b)) t.finishName).or s.finish⟩

end Engine
end GraphQueryCompiler
