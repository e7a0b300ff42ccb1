import GraphQueryCompiler.StartFunction

/-!
# The walk of the extraction loop

The loop of `compile_task` walks down `inputs_[0]`, keeps the right-hand sides of joins on a stack,
and takes the next one from it when it comes to a leaf. Beside the arguments and the names it fills
`type_vec_[0]`. The operators it comes by are told apart by their places in the plan.
-/

namespace GraphQueryCompiler
open StepMachine

def Plan.producedType : Plan → ℤ
  | .scan .. => 0
  | .foreachRship .. => 1
  | .expand .. => 0
  | .create .node _ _ => 0
  | .create .rship _ _ => 1
  | _ => -1

def Plan.typeEntry (op : Plan) : Option ℤ :=
  if op.producedType = -1 then none else some op.producedType

structure Occurrence where
  path : List ℕ
  op : Plan

structure Walk where
  task : Task
  typeVec : List ℤ
  visited : List (List ℕ)

def Walk.init (finishName : String) : Walk := ⟨⟨.init,[],finishName⟩,[],[]⟩

/-- The loop in front of its condition, with `name_` of `cur_op`, behind it, or in undefined
behaviour. -/
inductive WalkState
  | loop (curOp : Occurrence) (name : String) (recurList : List Occurrence) (w : Walk)
  | done (w : Walk)
  | undefined

namespace Occurrence

def input (x : Occurrence) (i : ℕ) (inp : Plan) : Occurrence := ⟨x.path ++ [i],inp⟩

def popIfLeaf (x : Occurrence) (recurList : List Occurrence) :
    Option (Occurrence × List Occurrence) :=
  match x.op.inputs, recurList with
  | [], y :: rest => some (y,rest)
  | [], [] => none
  | _, _ => some (x,recurList)

def next (x : Occurrence) (recurList : List Occurrence) : Option (Occurrence × List Occurrence) :=
  match x.op with
  | .join .CROSS _ lhs rhs => some (x.input 0 lhs,x.input 1 rhs :: recurList)
  | .join .LEFT_OUTER _ lhs rhs => some (x.input 0 lhs,x.input 1 rhs :: recurList)
  | op => op.inputs.head?.map fun inp => (x.input 0 inp,recurList)

end Occurrence

/-- What the loop does with an operator; it goes on early with a `Sort`. -/
def Walk.visit (w : Walk) (x : Occurrence) (name : String) : Walk where
  task := w.task.visit x.op name
  typeVec := match x.op with
    | .sort .. => w.typeVec
    | op => w.typeVec ++ op.typeEntry.toList
  visited := w.visited ++ [x.path]

def walkBody (qid : String) (curOp : Occurrence) (name : String) (recurList : List Occurrence)
    (w : Walk) : Option WalkState := do
  let e ← extractArg curOp.op w.task.extraction
  let x ← curOp.popIfLeaf recurList
  let name := if curOp.op.inputs = [] then x.1.op.nameIn qid else name
  let y ← x.1.next x.2
  return .loop y.1 (y.1.op.nameIn qid) y.2
    (Walk.visit { w with task := { w.task with extraction := e } } x.1 name)

def walkStep (qid : String) : WalkState → Option WalkState
  | .loop curOp name recurList w =>
    if curOp.op.inputs = [] ∧ recurList = [] then
      some (.done { w with task := if curOp.op = .endOp then w.task.push name else w.task })
    else some ((walkBody qid curOp name recurList w).getD .undefined)
  | .done _ => none
  | .undefined => none

def WalkState.task : WalkState → TaskState
  | .loop curOp name recurList w => .loop curOp.op name (recurList.map (·.op)) w.task
  | .done w => .done w.task
  | .undefined => .undefined

namespace Plan

def at? : Plan → List ℕ → Option Plan
  | p, [] => some p
  | p, i :: path => (p.inputs[i]?).bind fun inp => inp.at? path

/-- The right-hand sides that the loop saves have inputs. -/
def RhsInputs : Plan → Prop
  | .scan _ _ inp => inp.RhsInputs
  | .foreachRship _ _ _ inp => inp.RhsInputs
  | .expand _ _ inp => inp.RhsInputs
  | .filter _ inp => inp.RhsInputs
  | .project _ inp => inp.RhsInputs
  | .join jop _ lhs rhs =>
    (jop.saved = true → rhs.inputs ≠ []) ∧ lhs.RhsInputs ∧ rhs.RhsInputs
  | .sort _ inp => inp.RhsInputs
  | .limit _ inp => inp.RhsInputs
  | .create _ _ inp => inp.RhsInputs
  | .collect _ => True
  | .endOp => True

def RhsSaved : Plan → Prop
  | .scan _ _ inp => inp.RhsSaved
  | .foreachRship _ _ _ inp => inp.RhsSaved
  | .expand _ _ inp => inp.RhsSaved
  | .filter _ inp => inp.RhsSaved
  | .project _ inp => inp.RhsSaved
  | .join jop _ lhs rhs =>
    lhs.RhsSaved ∧ if jop.saved then rhs.RhsSaved else rhs.inputs = []
  | .sort _ inp => inp.RhsSaved
  | .limit _ inp => inp.RhsSaved
  | .create _ _ inp => inp.RhsSaved
  | .collect _ => True
  | .endOp => True

end Plan

/-- On a fresh engine, in compilation number `cnt`, the loop comes to its end, has visited every
operator with inputs once, has an entry for each of those that produce something, and has the name
of the access path in front of the others. -/
def QueryPlan.Walks (q : QueryPlan) (genFuncs : List String) (cnt : ℕ) : Prop :=
  let qid := q.plan.shape ++ toString cnt
  let name := Compilation.startName ⟨q.plan,q.name,genFuncs⟩ qid
  ∃ w, Returns (walkStep qid) (.loop ⟨[],q.plan⟩ name [] (.init ("default_finish_" ++ qid)))
      (.done w) ∧
    w.visited.Nodup ∧
    (∀ path, path ∈ w.visited ↔ ∃ op, q.plan.at? path = some op ∧ op.inputs ≠ []) ∧
    w.typeVec = w.visited.filterMap (fun path => (q.plan.at? path).bind Plan.typeEntry) ∧
    w.task.operatorNames.head? = some name

namespace Plan
variable {p inp lhs rhs : Plan} {path : List ℕ}

def walk : Plan → List (List ℕ)
  | .scan _ _ inp => [] :: inp.walk.map (0 :: ·)
  | .foreachRship _ _ _ inp => [] :: inp.walk.map (0 :: ·)
  | .expand _ _ inp => [] :: inp.walk.map (0 :: ·)
  | .filter _ inp => [] :: inp.walk.map (0 :: ·)
  | .project _ inp => [] :: inp.walk.map (0 :: ·)
  | .join jop _ lhs rhs =>
    [] :: (lhs.walk.map (0 :: ·) ++ if jop.saved then rhs.walk.map (1 :: ·) else [])
  | .sort _ inp => [] :: inp.walk.map (0 :: ·)
  | .limit _ inp => [] :: inp.walk.map (0 :: ·)
  | .create _ _ inp => [] :: inp.walk.map (0 :: ·)
  | .collect _ => []
  | .endOp => []

theorem walk_input (h : p.input = some inp) : p.walk = [] :: inp.walk.map (0 :: ·) := by
  cases p <;> simp only [input,reduceCtorEq,Option.some.injEq] at h <;> subst h <;> rfl

theorem at?_input (h : p.input = some inp) : p.at? (0 :: path) = inp.at? path := by
  rw [at?,inputs_of_input h]
  rfl

theorem walk_nodup (p : Plan) : p.walk.Nodup := by
  have hmap : ∀ (i : ℕ) {l : List (List ℕ)}, l.Nodup → (l.map (i :: ·)).Nodup := by
    intro i l h
    exact h.map fun _ _ heq => (List.cons.inj heq).2
  have hcons : ∀ {i : ℕ} {l : List (List ℕ)}, [] ∉ l.map (i :: ·) := by simp
  induction p with
  | collect | endOp => exact List.nodup_nil
  | join jop pos lhs rhs ihl ihr =>
    rw [walk,List.nodup_cons]
    cases jop.saved with
    | false =>
      rw [if_neg (by simp),List.append_nil]
      exact ⟨hcons,hmap 0 ihl⟩
    | true =>
      rw [if_pos rfl,List.nodup_append,List.mem_append,not_or]
      refine ⟨⟨hcons,hcons⟩,hmap 0 ihl,hmap 1 ihr,?_⟩
      simp
  | _ _ _ =>
    rename_i ih
    rw [walk_input rfl,List.nodup_cons]
    exact ⟨hcons,hmap 0 ih⟩

def WalksAll (p : Plan) : Prop :=
  ∀ path, path ∈ p.walk ↔ ∃ op, p.at? path = some op ∧ op.inputs ≠ []

theorem walksAll_input (h : p.input = some inp) : p.WalksAll ↔ inp.WalksAll := by
  have hinputs := inputs_of_input h
  have hzero : ∀ path, 0 :: path ∈ p.walk ↔ path ∈ inp.walk := by simp [walk_input h]
  constructor
  · intro hp path
    rw [← hzero,hp,at?_input h]
  · intro hinp path
    cases path with
    | nil => simp [walk_input h,at?,hinputs]
    | cons i path =>
      cases i with
      | zero => rw [hzero,hinp,at?_input h]
      | succ i => simp [walk_input h,at?,hinputs]

theorem walksAll_join {jop : JoinOp} {pos : ℕ × ℕ} : (Plan.join jop pos lhs rhs).WalksAll ↔
    lhs.WalksAll ∧ if jop.saved then rhs.WalksAll else rhs.inputs = [] := by
  have hzero : ∀ path, 0 :: path ∈ (Plan.join jop pos lhs rhs).walk ↔ path ∈ lhs.walk := by
    intro path
    cases h : jop.saved <;> simp [walk,h]
  have hone : ∀ path, 1 :: path ∈ (Plan.join jop pos lhs rhs).walk ↔
      jop.saved = true ∧ path ∈ rhs.walk := by
    intro path
    cases h : jop.saved <;> simp [walk,h]
  have hat : ∀ path, (Plan.join jop pos lhs rhs).at? (0 :: path) = lhs.at? path ∧
      (Plan.join jop pos lhs rhs).at? (1 :: path) = rhs.at? path := fun _ => ⟨rfl,rfl⟩
  constructor
  · intro h
    refine ⟨fun path => ?_,?_⟩
    · rw [← hzero,h,(hat path).1]
    · split_ifs with hsaved
      · intro path
        rw [← (hat path).2,← h,hone]
        simp [hsaved]
      · by_contra hne
        have hmem := (h [1]).2 ⟨rhs,rfl,hne⟩
        exact hsaved ((hone []).1 hmem).1
  · rintro ⟨hl,hr⟩ path
    match path with
    | [] => simp [walk,at?,inputs]
    | 0 :: path => rw [hzero,hl,(hat path).1]
    | 1 :: path =>
      rw [hone,(hat path).2]
      split_ifs at hr with hsaved
      · rw [hr]
        exact and_iff_right hsaved
      · -- nothing below a leaf
        have hnone : ∀ op, rhs.at? path = some op → op.inputs = [] := by
          intro op hop
          cases path with
          | nil =>
            obtain rfl := Option.some.inj hop
            exact hr
          | cons i path => simp [at?,hr] at hop
        refine iff_of_false (fun h => hsaved h.1) ?_
        rintro ⟨op,hop,hne⟩
        exact hne (hnone op hop)
    | (i+2) :: path =>
      refine iff_of_false ?_ ?_
      · cases h : jop.saved <;> simp [walk,h]
      · simp [at?,inputs]

theorem walksAll_iff (p : Plan) : p.WalksAll ↔ p.RhsSaved := by
  induction p with
  | collect | endOp =>
    refine iff_of_true (fun path => ?_) trivial
    cases path <;> simp [walk,at?,inputs]
  | join jop pos lhs rhs ihl ihr =>
    rw [walksAll_join,ihl,RhsSaved]
    cases jop.saved with
    | false => rfl
    | true => rw [if_pos rfl,if_pos rfl,ihr]
  | _ _ _ =>
    rename_i ih
    rw [walksAll_input rfl,ih]
    rfl

def typeEntries (p : Plan) : List ℤ := p.walk.filterMap fun path => (p.at? path).bind typeEntry

theorem typeEntries_input (h : p.input = some inp) :
    p.typeEntries = p.typeEntry.toList ++ inp.typeEntries := by
  have hat : ∀ path, (p.at? (0 :: path)).bind typeEntry = (inp.at? path).bind typeEntry := by
    intro path
    rw [at?_input h]
  have hroot : (p.at? []).bind typeEntry = p.typeEntry := rfl
  rw [typeEntries,walk_input h,List.filterMap_cons,List.filterMap_map]
  simp only [Function.comp_def,hat,hroot]
  cases p.typeEntry <;> rfl

theorem typeEntries_join {jop : JoinOp} {pos : ℕ × ℕ} : (Plan.join jop pos lhs rhs).typeEntries =
    lhs.typeEntries ++ if jop.saved then rhs.typeEntries else [] := by
  rw [typeEntries,walk,List.filterMap_cons]
  have hentry : ((Plan.join jop pos lhs rhs).at? []).bind typeEntry = none := rfl
  rw [hentry,List.filterMap_append,List.filterMap_map]
  cases jop.saved with
  | false => rfl
  | true =>
    simp only [if_true,List.filterMap_map]
    rfl

end Plan

section Loop
variable {qid name name' : String} {p inp lhs rhs : Plan} {x : Occurrence}
  {y : Occurrence × List Occurrence} {rl rl' : List Occurrence} {w : Walk} {c c' : WalkState}
  {path : List ℕ} {visited visited' : List (List ℕ)} {types types' : List ℤ} {e : Extraction}
  {r : Option Extraction}

theorem walkStep_task (qid : String) (c : WalkState) :
    (walkStep qid c).map WalkState.task = taskStep qid c.task := by
  cases c with
  | done | undefined => rfl
  | loop x name rl w =>
    have hnext : ∀ (x : Occurrence) (rl : List Occurrence), x.op.next (rl.map (·.op)) =
        (x.next rl).map fun y => (y.1.op,y.2.map (·.op)) := by
      rintro ⟨path,op⟩ rl
      cases op with
      | join jop pos lhs rhs => cases jop <;> rfl
      | _ => rfl
    have hpop : popIfLeaf x.op (rl.map (·.op)) =
        (x.popIfLeaf rl).map fun y => (y.1.op,y.2.map (·.op)) := by
      unfold popIfLeaf Occurrence.popIfLeaf
      cases x.op.inputs <;> cases rl <;> rfl
    have hnil : rl.map (·.op) = [] ↔ rl = [] := List.map_eq_nil_iff
    simp only [walkStep,taskStep,WalkState.task,hnil]
    by_cases hstop : x.op.inputs = [] ∧ rl = []
    · rw [if_pos hstop,if_pos hstop]
      rfl
    · rw [if_neg hstop,if_neg hstop]
      simp only [Option.map_some,Option.some.injEq,walkBody,taskBody,Option.bind_eq_bind,
        Option.pure_def,hpop]
      cases extractArg x.op w.task.extraction with
      | none => rfl
      | some e =>
        simp only [Option.bind_some]
        cases x.popIfLeaf rl with
        | none => rfl
        | some z =>
          simp only [Option.map_some,Option.bind_some,hnext]
          cases z.1.next z.2 <;> rfl

/-- The loop comes to a leaf with this stack and has written this, or into undefined behaviour. -/
def WalkEnds (qid : String) (recurList : List Occurrence) (c : WalkState)
    (visited : List (List ℕ)) (types : List ℤ) : Option Extraction → Prop
  | some e => ∃ leaf name w, leaf.op.inputs = [] ∧
      Reaches (walkStep qid) c (.loop leaf name recurList w) ∧ w.task.extraction = e ∧
      w.visited = visited ∧ w.typeVec = types
  | none => Reaches (walkStep qid) c .undefined

theorem WalkEnds.head (hstep : walkStep qid c = some c') (h : WalkEnds qid rl c' visited types r) :
    WalkEnds qid rl c visited types r := by
  cases r with
  | none => exact Reaches.head hstep h
  | some e =>
    obtain ⟨leaf,name,w,hleaf,hr,hw⟩ := h
    exact ⟨leaf,name,w,hleaf,Reaches.head hstep hr,hw⟩

theorem WalkEnds.bind {f : Extraction → Option Extraction}
    (h : WalkEnds qid rl' c visited types r)
    (hf : ∀ leaf name w, leaf.op.inputs = [] → w.visited = visited → w.typeVec = types →
      WalkEnds qid rl (.loop leaf name rl' w) visited' types' (f w.task.extraction)) :
    WalkEnds qid rl c visited' types' (r.bind f) := by
  cases r with
  | none => exact h
  | some e =>
    obtain ⟨leaf,name,w,hleaf,hr,rfl,hvisited,htypes⟩ := h
    have hrest := hf leaf name w hleaf hvisited htypes
    rw [Option.bind_some]
    cases hfe : f w.task.extraction with
    | none =>
      rw [hfe] at hrest
      exact Relation.ReflTransGen.trans hr hrest
    | some e' =>
      rw [hfe] at hrest
      obtain ⟨leaf',name',w',hleaf',hr',hw'⟩ := hrest
      exact ⟨leaf',name',w',hleaf',Relation.ReflTransGen.trans hr hr',hw'⟩

theorem puts_extracted (p : Plan) (e : Extraction) : e.puts (p.extracted false) =
    (extractArg p e).bind fun e' => e'.puts (p.extracted true) := by
  cases p <;> rfl

theorem next_isSome (rl : List Occurrence) (h : x.op.inputs ≠ []) : ∃ y, x.next rl = some y := by
  obtain ⟨path,op⟩ := x
  cases op with
  | join jop pos lhs rhs => cases jop <;> exact ⟨_,rfl⟩
  | collect | endOp => exact absurd rfl h
  | _ => exact ⟨_,rfl⟩

theorem walkStep_inputs (h : x.op.inputs ≠ []) (hy : x.next rl = some y) :
    walkStep qid (.loop x name rl w) =
      some (((extractArg x.op w.task.extraction).map fun e => WalkState.loop y.1
        (y.1.op.nameIn qid) y.2
        (Walk.visit { w with task := { w.task with extraction := e } } x name)).getD
          .undefined) := by
  obtain ⟨op,ops,hops⟩ := List.exists_cons_of_ne_nil h
  have hpop : x.popIfLeaf rl = some (x,rl) := by simp only [Occurrence.popIfLeaf,hops]
  simp only [walkStep,h,false_and,if_false,walkBody,Option.bind_eq_bind,hpop,Option.bind_some,hy,
    Option.pure_def]
  cases extractArg x.op w.task.extraction <;> rfl

theorem walkStep_leaf {leaf : Occurrence} (hleaf : leaf.op.inputs = []) (hy : x.next rl = some y) :
    walkStep qid (.loop leaf name (x :: rl) w) =
      some (.loop y.1 (y.1.op.nameIn qid) y.2 (w.visit x (x.op.nameIn qid))) := by
  have harg : extractArg leaf.op w.task.extraction = some w.task.extraction := by
    cases hop : leaf.op <;> simp only [hop,Plan.inputs,reduceCtorEq] at hleaf <;> rfl
  have hpop : leaf.popIfLeaf (x :: rl) = some (x,rl) := by
    simp only [Occurrence.popIfLeaf,hleaf]
  simp only [walkStep,reduceCtorEq,and_false,if_false,walkBody,Option.bind_eq_bind,harg,hpop,
    Option.bind_some,hy,Option.pure_def,hleaf,if_true,Option.getD_some]

def GoesOn (qid : String) (p : Plan) : Prop :=
  ∀ (path : List ℕ) (rl : List Occurrence) (y : Occurrence × List Occurrence) (w : Walk)
    (e : Extraction) (name name' : String), Occurrence.next ⟨path,p⟩ rl = some y →
    WalkEnds qid rl
      (.loop y.1 name' y.2
        (Walk.visit { w with task := { w.task with extraction := e } } ⟨path,p⟩ name))
      (w.visited ++ p.walk.map (path ++ ·)) (w.typeVec ++ p.typeEntries)
      (e.puts (p.extracted true))

theorem GoesOn.walks (h : GoesOn qid p) (path : List ℕ) (name : String) (rl : List Occurrence)
    (w : Walk) : WalkEnds qid rl (.loop ⟨path,p⟩ name rl w) (w.visited ++ p.walk.map (path ++ ·))
      (w.typeVec ++ p.typeEntries) (w.task.extraction.puts (p.extracted false)) := by
  by_cases hin : p.inputs = []
  · have hnone : p.walk = [] ∧ p.typeEntries = [] ∧ p.extracted false = [] := by
      cases p <;> simp only [Plan.inputs,reduceCtorEq] at hin <;> exact ⟨rfl,rfl,rfl⟩
    obtain ⟨hwalk,htypes,hlabels⟩ := hnone
    rw [hwalk,htypes,hlabels,List.map_nil,List.append_nil,List.append_nil]
    exact ⟨_,name,w,hin,.refl,rfl,rfl,rfl⟩
  · obtain ⟨y,hy⟩ := next_isSome (x := ⟨path,p⟩) rl hin
    have hstep : walkStep qid (.loop ⟨path,p⟩ name rl w) = _ := walkStep_inputs hin hy
    rw [puts_extracted]
    cases he : extractArg p w.task.extraction with
    | none =>
      rw [he] at hstep
      exact Reaches.single hstep
    | some e =>
      rw [he] at hstep
      exact (h path rl y w e name _ hy).head hstep

theorem GoesOn.popped (h : GoesOn qid p) (hin : p.inputs ≠ []) (path : List ℕ) (name : String)
    (rl : List Occurrence) (w : Walk) {leaf : Occurrence} (hleaf : leaf.op.inputs = []) :
    WalkEnds qid rl (.loop leaf name (⟨path,p⟩ :: rl) w) (w.visited ++ p.walk.map (path ++ ·))
      (w.typeVec ++ p.typeEntries) (w.task.extraction.puts (p.extracted true)) := by
  obtain ⟨y,hy⟩ := next_isSome (x := ⟨path,p⟩) rl hin
  exact (h path rl y w w.task.extraction (p.nameIn qid) _ hy).head (walkStep_leaf hleaf hy)

theorem visit_typeVec (x : Occurrence) :
    (w.visit x name).typeVec = w.typeVec ++ x.op.typeEntry.toList := by
  obtain ⟨path,op⟩ := x
  cases op with
  | sort => exact (List.append_nil _).symm
  | _ => rfl

theorem goesOn_input (h : p.input = some inp) (ih : GoesOn qid inp) : GoesOn qid p := by
  intro path rl y w e name name' hy
  have hnext : y = (⟨path ++ [0],inp⟩,rl) := by
    cases p <;> simp only [Plan.input,reduceCtorEq,Option.some.injEq] at h <;> subst h <;>
      exact (Option.some.inj hy).symm
  subst hnext
  have hlabels : p.extracted true = inp.extracted false := by
    cases p <;> simp only [Plan.input,reduceCtorEq,Option.some.injEq] at h <;> subst h <;> rfl
  have hrest := ih.walks (path ++ [0]) name' rl
    (Walk.visit { w with task := { w.task with extraction := e } } ⟨path,p⟩ name)
  rw [visit_typeVec] at hrest
  rw [hlabels,Plan.walk_input h,Plan.typeEntries_input h]
  simpa [Walk.visit,Function.comp_def] using hrest

theorem goesOn_join {jop : JoinOp} {pos : ℕ × ℕ} (hrhs : jop.saved = true → rhs.inputs ≠ [])
    (ihl : GoesOn qid lhs) (ihr : GoesOn qid rhs) : GoesOn qid (.join jop pos lhs rhs) := by
  intro path rl y w e name name' hy
  have hnext : y = (⟨path ++ [0],lhs⟩,if jop.saved then ⟨path ++ [1],rhs⟩ :: rl else rl) := by
    cases jop <;> exact (Option.some.inj hy).symm
  subst hnext
  dsimp only
  obtain ⟨w',hw'⟩ : ∃ w', w' = Walk.visit { w with task := { w.task with extraction := e } }
    ⟨path,.join jop pos lhs rhs⟩ name := ⟨_,rfl⟩
  have htypes' : w'.typeVec = w.typeVec := by
    rw [hw',visit_typeVec]
    exact List.append_nil _
  have hvisited' : w'.visited = w.visited ++ [path] := by rw [hw',Walk.visit]
  have hext : w'.task.extraction = e := by simp [hw',Walk.visit]
  have hlhs := ihl.walks (path ++ [0]) name' (if jop.saved then ⟨path ++ [1],rhs⟩ :: rl else rl) w'
  rw [hvisited',htypes',hext] at hlhs
  rw [← hw',Plan.extracted,Extraction.puts_append,Plan.walk,Plan.typeEntries_join]
  refine hlhs.bind fun leaf name₁ w₁ hleaf hvisited htypes => ?_
  cases hsaved : jop.saved with
  | false =>
    refine ⟨leaf,name₁,w₁,hleaf,.refl,rfl,?_,?_⟩
    · rw [hvisited]
      simp [Function.comp_def]
    · rw [htypes]
      simp
  | true =>
    have hpop := ihr.popped (hrhs hsaved) (path ++ [1]) name₁ rl w₁ hleaf
    rw [hvisited,htypes] at hpop
    simpa [Function.comp_def] using hpop

theorem goesOn (qid : String) (hp : p.RhsInputs) : GoesOn qid p := by
  induction p with
  | collect | endOp => exact fun _ _ _ _ _ _ _ h => absurd h nofun
  | join jop pos lhs rhs ihl ihr => exact goesOn_join hp.1 (ihl hp.2.1) (ihr hp.2.2)
  | _ _ _ =>
    rename_i ih
    exact goesOn_input rfl (ih hp)

theorem returns_walk (hp : p.RhsInputs) (qid name fin : String) :
    ((Extraction.init.puts (p.extracted false)).isSome = true → ∃ w,
      Returns (walkStep qid) (.loop ⟨[],p⟩ name [] (.init fin)) (.done w) ∧ w.visited = p.walk ∧
      w.typeVec = p.typeEntries) ∧
    (Extraction.init.puts (p.extracted false) = none →
      Returns (walkStep qid) (.loop ⟨[],p⟩ name [] (.init fin)) .undefined) := by
  have h := (goesOn qid hp).walks [] name [] (.init fin)
  have hinit : (Walk.init fin).task.extraction = Extraction.init := rfl
  have hvisited : (Walk.init fin).visited ++ p.walk.map ([] ++ ·) = p.walk := by
    simp [Walk.init]
  have htypes : (Walk.init fin).typeVec ++ p.typeEntries = p.typeEntries := List.nil_append _
  rw [hinit,hvisited,htypes] at h
  refine ⟨fun hsome => ?_,fun hnone => ?_⟩
  · obtain ⟨e,he⟩ := Option.isSome_iff_exists.1 hsome
    rw [he] at h
    obtain ⟨leaf,name',w,hleaf,hr,_,hv,ht⟩ := h
    refine ⟨{ w with task := if leaf.op = .endOp then w.task.push name' else w.task },
      ⟨hr.tail ?_,rfl⟩,hv,ht⟩
    rw [StepMachine.Step,walkStep,if_pos ⟨hleaf,rfl⟩]
  · rw [hnone] at h
    exact ⟨h,rfl⟩

theorem head_operatorNames (hp : p.isAccess = true) (hname : name ≠ "") {fin : String} {w : Walk}
    (h : Returns (walkStep qid) (.loop ⟨[],p⟩ name [] (.init fin)) (.done w)) :
    w.task.operatorNames.head? = some name := by
  have htask := h.of_map (walkStep_task qid)
  rw [(task_done hp hname htask).1]
  rfl

end Loop

theorem QueryPlan.Walks.fits {q : QueryPlan} {genFuncs : List String} {cnt : ℕ}
    (hrhs : q.plan.RhsInputs) (h : q.Walks genFuncs cnt) :
    q.plan.RhsSaved ∧ (Extraction.init.puts (q.plan.extracted false)).isSome = true := by
  obtain ⟨w,hw,_,hall,_⟩ := h
  obtain ⟨hsome,hnone⟩ := returns_walk hrhs (q.plan.shape ++ toString cnt)
    (Compilation.startName ⟨q.plan,q.name,genFuncs⟩ (q.plan.shape ++ toString cnt))
    ("default_finish_" ++ (q.plan.shape ++ toString cnt))
  have hputs : (Extraction.init.puts (q.plan.extracted false)).isSome = true := by
    rw [← Option.ne_none_iff_isSome]
    exact fun hn => absurd (Returns.unique hw (hnone hn)) (by simp)
  obtain ⟨w',hw',hvisited,_⟩ := hsome hputs
  obtain rfl : w = w' := by simpa using Returns.unique hw hw'
  rw [hvisited] at hall
  exact ⟨q.plan.walksAll_iff.1 hall,hputs⟩

theorem walks_iff (q : QueryPlan) (genFuncs : List String) (cnt : ℕ) (hrhs : q.plan.RhsInputs) :
    q.Walks genFuncs cnt ↔ q.plan.RhsSaved ∧ (q.plan.extracted false).length ≤ 63 := by
  have hfit : (Extraction.init.puts (q.plan.extracted false)).isSome = true ↔
      (q.plan.extracted false).length ≤ 63 := by
    have hinit : Extraction.init.argCounter = 1 := rfl
    rw [Extraction.puts_isSome,← List.length_eq_zero_iff,hinit]
    omega
  rw [← hfit]
  refine ⟨fun h => h.fits hrhs,?_⟩
  rintro ⟨hsaved,hputs⟩
  obtain ⟨w,hw,hvisited,htypes⟩ := (returns_walk hrhs _ _ _).1 hputs
  refine ⟨w,hw,?_,?_,?_,?_⟩
  · rw [hvisited]
    exact q.plan.walk_nodup
  · rw [hvisited]
    exact q.plan.walksAll_iff.2 hsaved
  · rw [htypes,hvisited,Plan.typeEntries]
  · exact head_operatorNames q.access (Compilation.startName_ne_empty _ cnt) hw

theorem walks_crossedPersons : crossedPersons.Walks [] 0 :=
  (walks_iff crossedPersons [] 0 ⟨by simp [Plan.inputs],trivial,trivial⟩).2
    ⟨⟨trivial,trivial⟩,by decide⟩

def nestedPersons : QueryPlan :=
  ⟨.scan "Person" false (.join .NESTED_LOOP (0,0) (.collect false) (.scan "Book" false .endOp)),
    "Scan_Person",rfl,personsQuery.scanned⟩

/-- The right-hand side of a nested loop join is never saved. -/
theorem not_walks_nestedPersons : nestedPersons.plan.RhsInputs ∧ ¬ nestedPersons.Walks [] 0 := by
  have hrhs : nestedPersons.plan.RhsInputs := ⟨nofun,trivial,trivial⟩
  refine ⟨hrhs,fun h => ?_⟩
  have hsaved : nestedPersons.plan.RhsSaved := (h.fits hrhs).1
  simp [nestedPersons,Plan.RhsSaved,JoinOp.saved,Plan.inputs] at hsaved

end GraphQueryCompiler
