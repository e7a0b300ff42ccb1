import GraphQueryCompiler.Interpreter

/-!
# The extraction of the label arguments

Before the compiled code runs, `compile_task` fills `query_args` with the labels of the
plan. Its loop keeps the right-hand sides of the joins on a stack and numbers the labels
with a counter of its own, while the generated code reads the slots that the traversal of
`codegen` numbered.
-/

namespace GraphQueryCompiler
open StepMachine

/-- `query_engine::query_args` and `query_engine::arg_counter`. -/
structure Extraction where
  args : ArgBuilder
  argCounter : ℕ

def Extraction.init : Extraction := ⟨.new,1⟩

def Extraction.put (e : Extraction) (label : String) : Option Extraction :=
  (e.args.arg e.argCounter label).map fun args => ⟨args,e.argCounter+1⟩

def extractArg (op : Plan) (e : Extraction) : Option Extraction :=
  match op with
  | .scan label _ _ => e.put label
  | .foreachRship _ _ label _ => e.put label
  | .expand _ label _ => e.put label
  | _ => some e

def Plan.inputs : Plan → List Plan
  | .scan _ _ inp => [inp]
  | .foreachRship _ _ _ inp => [inp]
  | .expand _ _ inp => [inp]
  | .filter _ inp => [inp]
  | .project _ inp => [inp]
  | .join _ _ lhs rhs => [lhs,rhs]
  | .sort _ inp => [inp]
  | .limit _ inp => [inp]
  | .create _ _ inp => [inp]
  | .collect _ => []
  | .endOp => []

inductive LoopState
  | loop (curOp : Plan) (recurList : List Plan) (e : Extraction)
  | done (e : Extraction)
  | undefined

def popIfLeaf (curOp : Plan) (recurList : List Plan) : Option (Plan × List Plan) :=
  match curOp.inputs, recurList with
  | [], op :: rest => some (op,rest)
  | [], [] => none
  | _, _ => some (curOp,recurList)

/-- The rest of the loop body: `cross_join` and `left_join` save their right-hand side, and
the walk goes on with `inputs_[0]`. -/
def descend (curOp : Plan) (recurList : List Plan) (e : Extraction) : Option LoopState :=
  match curOp with
  | .join .CROSS _ lhs rhs => some (.loop lhs (rhs :: recurList) e)
  | .join .LEFT_OUTER _ lhs rhs => some (.loop lhs (rhs :: recurList) e)
  | op => op.inputs.head?.map fun inp => .loop inp recurList e

def extractBody (curOp : Plan) (recurList : List Plan) (e : Extraction) : Option LoopState := do
  let e ← extractArg curOp e
  let x ← popIfLeaf curOp recurList
  descend x.1 x.2 e

def extractStep : LoopState → Option LoopState
  | .loop curOp recurList e =>
    if curOp.inputs = [] ∧ recurList = [] then some (.done e)
    else some ((extractBody curOp recurList e).getD .undefined)
  | .done _ => none
  | .undefined => none

def Plan.argLabel : Plan → Option String
  | .scan label _ _ => some label
  | .foreachRship _ _ label _ => some label
  | .expand _ label _ => if label = "" then none else some label
  | _ => none

def numberVisitor : OpVisitor (List (Plan × ℕ)) where
  visit op opId l := some (l ++ [(op,opId)])

/-- `args[opId]` points to the string of its slot, which is the given label. -/
def ArgBuilder.PointsTo (b : ArgBuilder) (opId : ℕ) (label : String) : Prop :=
  ∃ h : opId < 64, b.args[opId] = .str ⟨opId,h⟩ ∧ b.stringArgs[opId] = label

/-- After the extraction on a fresh engine, every operator that reads a label finds its own. -/
def FindsArguments (p : Plan) : Prop :=
  ∃ e, Returns extractStep (.loop p [] .init) (.done e) ∧
    ∀ l n, p.codegen numberVisitor 1 true [] = some (l,n) →
      ∀ x ∈ l, ∀ label, x.1.argLabel = some label → e.args.PointsTo x.2 label

def Extraction.puts (e : Extraction) (labels : List String) : Option Extraction :=
  labels.foldlM Extraction.put e

structure HoldsLabels (e : Extraction) (labels : List String) : Prop where
  argCounter : e.argCounter = labels.length+1
  pointsTo : ∀ k label, e.args.PointsTo k label ↔ ∃ i, k = i+1 ∧ labels[i]? = some label

section Table
variable {e e' : Extraction} {label : String} {labels ls : List String}

theorem holdsLabels_init : HoldsLabels .init [] where
  argCounter := rfl
  pointsTo k label := by
    refine ⟨?_,by simp⟩
    rintro ⟨hk,hptr,_⟩
    simp [Extraction.init,ArgBuilder.new] at hptr

theorem ArgBuilder.arg_pointsTo {b b' : ArgBuilder} {opId k : ℕ} {l : String}
    (h : b.arg opId label = some b') :
    b'.PointsTo k l ↔ if k = opId then l = label else b.PointsTo k l := by
  unfold arg at h
  split at h
  · rename_i hlt
    simp only [Option.some.injEq] at h
    subst h
    by_cases hk : k = opId
    · subst hk
      simp [PointsTo,hlt,eq_comm]
    · have hk' : opId ≠ k := fun h => hk h.symm
      rw [if_neg hk]
      refine exists_congr fun hlt' => ?_
      rw [Vector.getElem_set_ne hlt hlt' hk',Vector.getElem_set_ne hlt hlt' hk']
  · exact absurd h (by simp)

theorem HoldsLabels.put (h : HoldsLabels e labels) (hput : e.put label = some e') :
    HoldsLabels e' (labels ++ [label]) := by
  obtain ⟨args,hargs,rfl⟩ := Option.map_eq_some_iff.1 hput
  refine ⟨by simp [h.argCounter],fun k l => ?_⟩
  rw [ArgBuilder.arg_pointsTo hargs,h.argCounter,h.pointsTo]
  split
  · rename_i hk
    subst hk
    simp [eq_comm]
  · rename_i hk
    refine exists_congr fun i => and_congr_right fun hi => ?_
    have hne : i ≠ labels.length := fun h => hk (by omega)
    rcases Nat.lt_or_gt_of_ne hne with hlt | hgt
    · rw [List.getElem?_append_left hlt]
    · rw [List.getElem?_append_right (Nat.le_of_lt hgt),List.getElem?_eq_none (Nat.le_of_lt hgt),
        List.getElem?_eq_none (by simp; omega)]

theorem HoldsLabels.puts (h : HoldsLabels e labels) (hputs : e.puts ls = some e') :
    HoldsLabels e' (labels ++ ls) := by
  induction ls generalizing e labels with
  | nil =>
    obtain rfl : e = e' := by simpa [Extraction.puts] using hputs
    simpa using h
  | cons l ls ih =>
    simp only [Extraction.puts,List.foldlM_cons,Option.bind_eq_bind,
      Option.bind_eq_some_iff] at hputs
    obtain ⟨e₁,hput,hrest⟩ := hputs
    simpa using ih (h.put hput) hrest

theorem Extraction.puts_cons :
    e.puts (label :: ls) = (e.put label).bind fun e₁ => e₁.puts ls := rfl

theorem Extraction.puts_append :
    e.puts (labels ++ ls) = (e.puts labels).bind fun e₁ => e₁.puts ls := by
  rw [puts,List.foldlM_append]
  rfl

theorem Extraction.put_isSome : (e.put label).isSome = true ↔ e.argCounter < 64 := by
  unfold put ArgBuilder.arg
  split <;> simp_all

theorem Extraction.argCounter_of_put (h : e.put label = some e') :
    e'.argCounter = e.argCounter+1 := by
  obtain ⟨_,_,rfl⟩ := Option.map_eq_some_iff.1 h
  rfl

theorem Extraction.puts_isSome :
    (e.puts ls).isSome = true ↔ ls = [] ∨ e.argCounter + ls.length ≤ 64 := by
  induction ls generalizing e with
  | nil => simp [puts]
  | cons l ls ih =>
    rw [puts_cons]
    cases hput : e.put l with
    | none =>
      have h : (e.put l).isSome = true ↔ e.argCounter < 64 := put_isSome
      rw [hput] at h
      simp only [Option.isSome_none,Bool.false_eq_true,false_iff] at h
      simp only [Option.bind_none,Option.isSome_none,Bool.false_eq_true,reduceCtorEq,false_or,
        false_iff,List.length_cons]
      omega
    | some e₁ =>
      have hlt := (put_isSome (e := e)).1 (by rw [hput]; rfl)
      rw [Option.bind_some,ih,argCounter_of_put hput]
      simp only [reduceCtorEq,false_or,List.length_cons,← List.length_eq_zero_iff]
      omega

theorem Extraction.argCounter_of_puts (h : e.puts ls = some e') :
    e'.argCounter = e.argCounter + ls.length := by
  induction ls generalizing e with
  | nil =>
    obtain rfl : e = e' := by simpa [puts] using h
    simp
  | cons l ls ih =>
    rw [puts_cons,Option.bind_eq_some_iff] at h
    obtain ⟨e₁,hput,hrest⟩ := h
    rw [ih hrest,argCounter_of_put hput,List.length_cons]
    omega

end Table

def JoinOp.saved : JoinOp → Bool
  | .CROSS => true
  | .LEFT_OUTER => true
  | .NESTED_LOOP => false
  | .HASH_JOIN => false

namespace Plan

def isScan : Plan → Bool
  | .scan .. => true
  | _ => false

def Sources : Plan → Prop
  | .scan _ _ inp => inp.Sources
  | .foreachRship _ _ _ inp => inp.Sources
  | .expand _ _ inp => inp.Sources
  | .filter _ inp => inp.Sources
  | .project _ inp => inp.Sources
  | .join _ _ lhs rhs => lhs.Sources ∧ rhs.isScan = true ∧ rhs.Sources
  | .sort _ inp => inp.Sources
  | .limit _ inp => inp.Sources
  | .create _ _ inp => inp.Sources
  | .collect _ => True
  | .endOp => True

/-- The labels in the order of the loop. An operator that was popped from `recur_list` is
passed over. -/
def extracted : Plan → Bool → List String
  | .scan label _ inp, popped => (if popped then [] else [label]) ++ inp.extracted false
  | .foreachRship _ _ label inp, popped =>
    (if popped then [] else [label]) ++ inp.extracted false
  | .expand _ label inp, popped => (if popped then [] else [label]) ++ inp.extracted false
  | .filter _ inp, _ => inp.extracted false
  | .project _ inp, _ => inp.extracted false
  | .join jop _ lhs rhs, _ => lhs.extracted false ++ if jop.saved then rhs.extracted true else []
  | .sort _ inp, _ => inp.extracted false
  | .limit _ inp, _ => inp.extracted false
  | .create _ _ inp, _ => inp.extracted false
  | .collect _, _ => []
  | .endOp, _ => []

end Plan

def Ends (recurList : List Plan) (c : LoopState) : Option Extraction → Prop
  | some e => ∃ leaf, leaf.inputs = [] ∧ Reaches extractStep c (.loop leaf recurList e)
  | none => Reaches extractStep c .undefined

section Loop
variable {p inp leaf lhs rhs : Plan} {rl rl' : List Plan} {e e' : Extraction} {c c' : LoopState}
  {r : Option Extraction} {f : Extraction → Option Extraction}

theorem Ends.head (hstep : extractStep c = some c') (h : Ends rl c' r) : Ends rl c r := by
  cases r with
  | none => exact Reaches.head hstep h
  | some e =>
    obtain ⟨leaf,hleaf,hr⟩ := h
    exact ⟨leaf,hleaf,Reaches.head hstep hr⟩

theorem Ends.bind (h : Ends rl' c r)
    (hf : ∀ leaf e, leaf.inputs = [] → Ends rl (.loop leaf rl' e) (f e)) :
    Ends rl c (r.bind f) := by
  cases r with
  | none => exact h
  | some e =>
    obtain ⟨leaf,hleaf,hr⟩ := h
    have hrest := hf leaf e hleaf
    rw [Option.bind_some]
    cases hfe : f e with
    | none =>
      rw [hfe] at hrest
      exact Relation.ReflTransGen.trans hr hrest
    | some e' =>
      rw [hfe] at hrest
      obtain ⟨leaf',hleaf',hr'⟩ := hrest
      exact ⟨leaf',hleaf',Relation.ReflTransGen.trans hr hr'⟩

theorem Plan.inputs_of_input (hin : p.input = some inp) : p.inputs = [inp] := by
  cases p <;> simp only [input,reduceCtorEq,Option.some.injEq] at hin <;> subst hin <;> rfl

theorem puts_extracted_input (hin : p.input = some inp) :
    e.puts (p.extracted false) = (extractArg p e).bind fun e' => e'.puts (inp.extracted false) := by
  cases p <;> simp only [Plan.input,reduceCtorEq,Option.some.injEq] at hin <;> subst hin <;> rfl

theorem extractStep_inputs (hne : p.inputs ≠ [])
    (hd : ∀ e', descend p rl e' = some (.loop inp rl' e')) :
    extractStep (.loop p rl e) =
      some (((extractArg p e).map fun e' => .loop inp rl' e').getD .undefined) := by
  obtain ⟨op,ops,hops⟩ := List.exists_cons_of_ne_nil hne
  have hpop : popIfLeaf p rl = some (p,rl) := by simp only [popIfLeaf,hops]
  simp only [extractStep,hne,false_and,if_false,extractBody,Option.bind_eq_bind,hpop,
    Option.bind_some,hd]
  cases extractArg p e <;> rfl

theorem descend_input (hin : p.input = some inp) : descend p rl e = some (.loop inp rl e) := by
  cases p <;> simp only [Plan.input,reduceCtorEq,Option.some.injEq] at hin <;> subst hin <;> rfl

theorem ends_input (hin : p.input = some inp)
    (ih : ∀ rl e, Ends rl (.loop inp rl e) (e.puts (inp.extracted false))) :
    Ends rl (.loop p rl e) (e.puts (p.extracted false)) := by
  rw [puts_extracted_input hin]
  have hstep : extractStep (.loop p rl e) = _ :=
    extractStep_inputs (by simp [Plan.inputs_of_input hin]) fun e' => descend_input hin
  cases he : extractArg p e with
  | none =>
    rw [he] at hstep
    exact Reaches.single hstep
  | some e' =>
    rw [he] at hstep
    exact (ih rl e').head hstep

theorem descend_join {jop : JoinOp} {pos : ℕ × ℕ} : descend (.join jop pos lhs rhs) rl e =
    some (.loop lhs (if jop.saved then rhs :: rl else rl) e) := by
  cases jop <;> rfl

theorem extractStep_leaf (hleaf : leaf.inputs = []) (hin : p.input = some inp) :
    extractStep (.loop leaf (p :: rl) e) = some (.loop inp rl e) := by
  have harg : extractArg leaf e = some e := by
    cases leaf <;> simp only [Plan.inputs,reduceCtorEq] at hleaf <;> rfl
  have hpop : popIfLeaf leaf (p :: rl) = some (p,rl) := by simp only [popIfLeaf,hleaf]
  simp only [extractStep,reduceCtorEq,and_false,if_false,extractBody,Option.bind_eq_bind,harg,hpop,
    Option.bind_some,descend_input hin,Option.getD_some]

theorem ends_extracted (hs : p.Sources) :
    (∀ rl e, Ends rl (.loop p rl e) (e.puts (p.extracted false))) ∧
    (p.isScan = true → ∀ rl leaf e, leaf.inputs = [] →
      Ends rl (.loop leaf (p :: rl) e) (e.puts (p.extracted true))) := by
  induction p with
  | scan label indexed inp ih =>
    refine ⟨fun rl e => ends_input rfl (ih hs).1,fun _ rl leaf e hleaf => ?_⟩
    exact ((ih hs).1 rl e).head (extractStep_leaf hleaf rfl)
  | join jop pos lhs rhs ihl ihr =>
    refine ⟨fun rl e => ?_,nofun⟩
    have hstep : extractStep (.loop (.join jop pos lhs rhs) rl e) = _ :=
      extractStep_inputs nofun fun e' => descend_join
    have hlhs := (ihl hs.1).1 (if jop.saved then rhs :: rl else rl) e
    rw [Plan.extracted,Extraction.puts_append]
    refine Ends.head hstep (hlhs.bind fun leaf e₁ hleaf => ?_)
    cases jop.saved with
    | false => exact ⟨leaf,hleaf,Relation.ReflTransGen.refl⟩
    | true => exact (ihr hs.2.2).2 hs.2.1 rl leaf e₁ hleaf
  | collect | endOp => exact ⟨fun rl e => ⟨_,rfl,Relation.ReflTransGen.refl⟩,nofun⟩
  | _ _ _ =>
    rename_i ih
    exact ⟨fun rl e => ends_input rfl (ih hs).1,nofun⟩

theorem returns_extracted (hs : p.Sources) : Returns extractStep (.loop p [] e)
    (((e.puts (p.extracted false)).map LoopState.done).getD .undefined) := by
  have h := (ends_extracted hs).1 [] e
  cases hputs : e.puts (p.extracted false) with
  | none =>
    rw [hputs] at h
    exact ⟨h,rfl⟩
  | some e' =>
    rw [hputs] at h
    obtain ⟨leaf,hleaf,hr⟩ := h
    exact ⟨hr.tail (by simp [StepMachine.Step,extractStep,hleaf]),rfl⟩

theorem returns_iff_puts (hs : p.Sources) :
    Returns extractStep (.loop p [] e) (.done e') ↔ e.puts (p.extracted false) = some e' := by
  have h : Returns extractStep (.loop p [] e) _ := returns_extracted hs
  constructor
  · intro h'
    have heq := Returns.unique h h'
    cases hputs : e.puts (p.extracted false) with
    | none => simp [hputs] at heq
    | some e₁ => simpa [hputs] using heq
  · intro hputs
    rwa [hputs] at h

theorem exists_returns (hs : p.Sources) (hfit : e.argCounter + (p.extracted false).length ≤ 64) :
    ∃ e', Returns extractStep (.loop p [] e) (.done e') := by
  obtain ⟨e',he'⟩ := Option.isSome_iff_exists.1 (Extraction.puts_isSome.2 (.inr hfit))
  exact ⟨e',(returns_iff_puts hs).2 he'⟩

end Loop

namespace Plan
variable {p inp lhs rhs : Plan} {opId : ℕ} {popped : Bool} {label : String}
  {pre G R T : List String}

def numbered : Plan → ℕ → List (Plan × ℕ)
  | .scan label indexed inp, opId =>
    (.scan label indexed inp,opId) :: inp.numbered (opId + if indexed then 3 else 1)
  | .foreachRship dir hops label inp, opId =>
    (.foreachRship dir hops label inp,opId) :: inp.numbered (opId+1)
  | .expand exp label inp, opId => (.expand exp label inp,opId) :: inp.numbered (opId+1)
  | .filter fexpr inp, opId => (.filter fexpr inp,opId) :: inp.numbered (opId+1)
  | .project prexpr inp, opId => (.project prexpr inp,opId) :: inp.numbered opId
  | .join jop pos lhs rhs, opId =>
    (.join jop pos lhs rhs,opId) :: (lhs.numbered opId ++ rhs.numbered (lhs.opIdEnd opId))
  | .sort cmp inp, opId => (.sort cmp inp,opId) :: inp.numbered (opId+1)
  | .limit n inp, opId => (.limit n inp,opId) :: inp.numbered (opId+1)
  | .create type srcDes inp, opId => (.create type srcDes inp,opId) :: inp.numbered (opId+2)
  | .collect print, opId => [(.collect print,opId)]
  | .endOp, opId => [(.endOp,opId)]

theorem numberVisitor_visit {op : Plan} {l : List (Plan × ℕ)} :
    numberVisitor.visit op opId l = some (l ++ [(op,opId)]) := rfl

theorem codegen_numberVisitor (p : Plan) : ∀ {opId : ℕ} {l : List (Plan × ℕ)},
    p.codegen numberVisitor opId true l = some (l ++ p.numbered opId,p.opIdEnd opId) := by
  induction p with
  | join jop pos lhs rhs ihl ihr =>
    intro opId l
    simp only [codegen,numberVisitor_visit,if_true,Option.bind_eq_bind,Option.bind_some]
    rw [ihl,Option.bind_some,ihr,numbered,opIdEnd]
    simp
  | collect | endOp => exact rfl
  | _ _ _ =>
    rename_i ih
    intro opId l
    simp only [codegen,numberVisitor_visit,Option.bind_eq_bind,Option.bind_some]
    rw [ih,numbered,opIdEnd]
    simp

theorem numbered_input (hin : p.input = some inp) :
    p.numbered opId = (p,opId) :: inp.numbered (opId + p.nextOffset) := by
  cases p <;> simp only [input,reduceCtorEq,Option.some.injEq] at hin <;> subst hin <;> rfl

theorem le_of_mem_numbered_input (hin : p.input = some inp) {x : Plan × ℕ}
    (ih : ∀ {opId : ℕ}, x ∈ inp.numbered opId → opId ≤ x.2) (hx : x ∈ p.numbered opId) :
    opId ≤ x.2 := by
  rw [numbered_input hin,List.mem_cons] at hx
  rcases hx with rfl | hx
  · exact Nat.le_refl _
  · exact Nat.le_trans (Nat.le_add_right _ _) (ih hx)

def label? : Plan → Option String
  | .scan label _ _ => some label
  | .foreachRship _ _ label _ => some label
  | .expand _ label _ => some label
  | _ => none

theorem extracted_input (hin : p.input = some inp) :
    p.extracted popped = (if popped then [] else p.label?.toList) ++ inp.extracted false := by
  cases p <;> simp only [input,reduceCtorEq,Option.some.injEq] at hin <;> subst hin <;>
    cases popped <;> rfl

theorem label?_length_le (hin : p.input = some inp) : p.label?.toList.length ≤ p.nextOffset := by
  cases p <;> simp only [input,reduceCtorEq,Option.some.injEq] at hin <;>
    simp only [label?,nextOffset,Option.toList] <;> first | exact Nat.zero_le _ | skip
  · split <;> simp
  all_goals exact Nat.le_refl _

theorem extracted_length_input (hin : p.input = some inp)
    (ih : ∀ (popped : Bool) (opId : ℕ),
      opId + (inp.extracted popped).length ≤ inp.opIdEnd opId) :
    opId + (p.extracted popped).length ≤ p.opIdEnd opId := by
  have hlen : (if popped then [] else p.label?.toList).length ≤ p.nextOffset := by
    cases popped
    · exact label?_length_le hin
    · exact Nat.zero_le _
  have hrest := ih false (opId + p.nextOffset)
  rw [extracted_input hin,opIdEnd_input hin,List.length_append]
  omega

theorem extracted_length_le (p : Plan) : ∀ (popped : Bool) (opId : ℕ),
    opId + (p.extracted popped).length ≤ p.opIdEnd opId := by
  induction p with
  | join jop pos lhs rhs ihl ihr =>
    intro popped opId
    have hl := ihl false opId
    have hr := ihr true (lhs.opIdEnd opId)
    rw [extracted,opIdEnd,List.length_append]
    split
    · omega
    · simp only [List.length_nil]
      omega
  | collect | endOp => exact fun _ _ => Nat.le_refl _
  | _ _ _ =>
    rename_i ih
    exact fun _ _ => extracted_length_input rfl ih

theorem extracted_append_lt (p : Plan) {pre : List String} (h : pre.length < opId) :
    (pre ++ p.extracted false).length < p.opIdEnd opId := by
  have hle := p.extracted_length_le false opId
  rw [List.length_append]
  omega

theorem le_of_mem_numbered (p : Plan) : ∀ {opId : ℕ} {x : Plan × ℕ},
    x ∈ p.numbered opId → opId ≤ x.2 := by
  induction p with
  | join jop pos lhs rhs ihl ihr =>
    intro opId x hx
    rw [numbered,List.mem_cons,List.mem_append] at hx
    rcases hx with rfl | hx | hx
    · exact Nat.le_refl _
    · exact ihl hx
    · exact Nat.le_trans (Nat.le_trans (Nat.le_add_right _ _)
        (lhs.extracted_length_le false _)) (ihr hx)
  | collect | endOp =>
    intro opId x hx
    obtain rfl := List.mem_singleton.1 hx
    exact Nat.le_refl _
  | _ _ _ =>
    rename_i ih
    exact le_of_mem_numbered_input rfl ih

def Reads (p : Plan) (opId : ℕ) (G : List String) : Prop :=
  ∀ x ∈ p.numbered opId, ∀ label, x.1.argLabel = some label →
    ∃ i, x.2 = i+1 ∧ G[i]? = some label

def Blank (p : Plan) (opId total : ℕ) : Prop :=
  ∀ x ∈ p.numbered opId, ∀ label, x.1.argLabel = some label → label = "" ∧ x.2 ≤ total

def OwnSlots : Plan → ℕ → ℕ → Prop
  | .scan _ indexed inp, opId, total =>
    if indexed then inp.Blank (opId+3) total else inp.OwnSlots (opId+1) total
  | .foreachRship _ _ _ inp, opId, total => inp.OwnSlots (opId+1) total
  | .expand _ _ inp, opId, total => inp.OwnSlots (opId+1) total
  | .filter _ inp, opId, total => inp.Blank (opId+1) total
  | .project _ inp, opId, total => inp.OwnSlots opId total
  | .join _ _ lhs rhs, opId, total =>
    lhs.OwnSlots opId total ∧ rhs.Blank (lhs.opIdEnd opId) total
  | .sort _ inp, opId, total => inp.Blank (opId+1) total
  | .limit _ inp, opId, total => inp.Blank (opId+1) total
  | .create _ _ inp, opId, total => inp.Blank (opId+2) total
  | .collect _, _, _ => True
  | .endOp, _, _ => True

theorem reads_input (hin : p.input = some inp) : p.Reads opId G ↔
    (∀ label, p.argLabel = some label → ∃ i, opId = i+1 ∧ G[i]? = some label) ∧
      inp.Reads (opId + p.nextOffset) G := by
  rw [Reads,numbered_input hin,List.forall_mem_cons]
  rfl

theorem blank_input {total : ℕ} (hin : p.input = some inp) : p.Blank opId total ↔
    (∀ label, p.argLabel = some label → label = "" ∧ opId ≤ total) ∧
      inp.Blank (opId + p.nextOffset) total := by
  rw [Blank,numbered_input hin,List.forall_mem_cons]
  rfl

theorem reads_join {jop : JoinOp} {pos : ℕ × ℕ} : (join jop pos lhs rhs).Reads opId G ↔
    lhs.Reads opId G ∧ rhs.Reads (lhs.opIdEnd opId) G := by
  rw [Reads,numbered,List.forall_mem_cons,List.forall_mem_append]
  exact and_iff_right nofun

theorem blank_join {jop : JoinOp} {pos : ℕ × ℕ} {total : ℕ} :
    (join jop pos lhs rhs).Blank opId total ↔
      lhs.Blank opId total ∧ rhs.Blank (lhs.opIdEnd opId) total := by
  rw [Blank,numbered,List.forall_mem_cons,List.forall_mem_append]
  exact and_iff_right nofun

theorem label?_eq_empty (h : ∀ label, p.argLabel = some label → label = "") :
    ∀ l ∈ p.label?.toList, l = "" := by
  intro l hl
  rw [Option.mem_toList] at hl
  by_contra hne
  refine hne (h l ?_)
  cases p <;> simp only [label?,reduceCtorEq,Option.some.injEq] at hl <;>
    subst hl <;> simp_all [argLabel]

theorem Blank.extracted {total : ℕ} : ∀ {popped : Bool} {opId : ℕ}, p.Blank opId total →
    ∀ l ∈ p.extracted popped, l = "" := by
  induction p with
  | join jop pos lhs rhs ihl ihr =>
    intro popped opId h l hl
    obtain ⟨hlhs,hrhs⟩ := blank_join.1 h
    rw [Plan.extracted,List.mem_append] at hl
    rcases hl with hl | hl
    · exact ihl hlhs l hl
    · split at hl
      · exact ihr hrhs l hl
      · simp at hl
  | collect | endOp => exact fun _ l hl => absurd hl (by simp [Plan.extracted])
  | _ _ _ =>
    rename_i ih
    intro popped opId h l hl
    obtain ⟨hown,hinp⟩ := (blank_input rfl).1 h
    rw [extracted_input rfl,List.mem_append] at hl
    rcases hl with hl | hl
    · split at hl
      · simp at hl
      · exact label?_eq_empty (fun label hlabel => (hown label hlabel).1) l hl
    · exact ih hinp l hl

theorem reads_iff_blank_of_tail (hpre : pre.length < opId) (hT : ∀ l ∈ T, l = "") :
    p.Reads opId (pre ++ T) ↔ p.Blank opId (pre ++ T).length := by
  refine forall₂_congr fun x hx => forall₂_congr fun label _ => ?_
  have hle := p.le_of_mem_numbered hx
  constructor
  · rintro ⟨i,hi,hget⟩
    obtain ⟨hlt,_⟩ := List.getElem?_eq_some_iff.1 hget
    rw [List.getElem?_append_right (by omega)] at hget
    exact ⟨hT label (List.mem_of_getElem? hget),by omega⟩
  · rintro ⟨rfl,hlt⟩
    refine ⟨x.2-1,by omega,?_⟩
    rw [List.length_append] at hlt
    rw [List.getElem?_append_right (by omega),List.getElem?_eq_getElem (by omega),
      hT _ (List.getElem_mem _)]

theorem isScan_nextOffset (h : p.isScan = true) : 1 ≤ p.nextOffset := by
  cases p <;> simp only [isScan,Bool.false_eq_true] at h
  simp only [nextOffset]
  split <;> omega

theorem Reads.blank_input (hin : p.input = some inp) (hpop : popped = true → p.isScan = true)
    (ih : ∀ {opId : ℕ} {pre : List String}, pre.length+1 < opId →
      inp.Reads opId (pre ++ (inp.extracted false ++ R)) →
        inp.Blank opId (pre ++ (inp.extracted false ++ R)).length)
    (hlt : pre.length + (if popped then 0 else 1) < opId) (hR : ∀ l ∈ R, l = "")
    (h : p.Reads opId (pre ++ (p.extracted popped ++ R))) :
    p.Blank opId (pre ++ (p.extracted popped ++ R)).length := by
  let own := if popped then [] else p.label?.toList
  have hG : pre ++ (p.extracted popped ++ R) = (pre ++ own) ++ (inp.extracted false ++ R) := by
    rw [extracted_input hin,List.append_assoc,List.append_assoc]
  have hlen : (pre ++ own).length < opId ∧ (pre ++ own).length+1 < opId + p.nextOffset := by
    rw [List.length_append]
    cases popped with
    | true =>
      have hoff := isScan_nextOffset (hpop rfl)
      simp only [own,if_true,List.length_nil] at hlt ⊢
      omega
    | false =>
      have hown := label?_length_le hin
      have hone := Option.length_toList_le (o := p.label?)
      simp only [own,Bool.false_eq_true,if_false] at hlt ⊢
      omega
  rw [hG] at h ⊢
  have hblank := ih hlen.2 ((reads_input hin).1 h).2
  exact (reads_iff_blank_of_tail hlen.1
    (List.forall_mem_append.2 ⟨hblank.extracted,hR⟩)).1 h

theorem Reads.blank_rhs {jop : JoinOp} (ih : ∀ {opId : ℕ} {pre : List String}, pre.length < opId →
      rhs.Reads opId (pre ++ (rhs.extracted true ++ R)) →
        rhs.Blank opId (pre ++ (rhs.extracted true ++ R)).length)
    (hlt : pre.length < opId) (hR : ∀ l ∈ R, l = "")
    (h : rhs.Reads opId (pre ++ ((if jop.saved then rhs.extracted true else []) ++ R))) :
    rhs.Blank opId (pre ++ ((if jop.saved then rhs.extracted true else []) ++ R)).length := by
  cases hsaved : jop.saved with
  | true =>
    rw [hsaved] at h
    exact ih hlt h
  | false =>
    rw [hsaved] at h
    exact (reads_iff_blank_of_tail hlt hR).1 h

theorem tail_blank {jop : JoinOp} {total : ℕ} (h : rhs.Blank opId total) (hR : ∀ l ∈ R, l = "") :
    ∀ l ∈ (if jop.saved then rhs.extracted true else []) ++ R, l = "" := by
  refine List.forall_mem_append.2 ⟨fun l hl => ?_,hR⟩
  split at hl
  · exact h.extracted l hl
  · simp at hl

/-- Where the counter of the traversal is ahead, a label that is read is that of a later
operator, so that in the end all of them are empty. -/
theorem Reads.blank (hs : p.Sources) : ∀ {popped : Bool} {opId : ℕ} {pre R : List String},
    (popped = true → p.isScan = true) → pre.length + (if popped then 0 else 1) < opId →
      (∀ l ∈ R, l = "") → p.Reads opId (pre ++ (p.extracted popped ++ R)) →
        p.Blank opId (pre ++ (p.extracted popped ++ R)).length := by
  induction p with
  | join jop pos lhs rhs ihl ihr =>
    intro popped opId pre R hpop hlt hR h
    obtain ⟨hlhs,hrhs⟩ := reads_join.1 h
    rw [extracted,List.append_assoc] at hlhs hrhs ⊢
    have hlen := lhs.extracted_append_lt (show pre.length < opId by omega)
    have hr : rhs.Blank (lhs.opIdEnd opId) (pre ++ (lhs.extracted false ++
        ((if jop.saved then rhs.extracted true else []) ++ R))).length := by
      rw [← List.append_assoc] at hrhs ⊢
      exact blank_rhs (fun hlt => ihr hs.2.2 (fun _ => hs.2.1) (by simpa using hlt) hR) hlen hR hrhs
    have hlt' : pre.length + (if false = true then 0 else 1) < opId := by
      cases popped with
      | true => exact absurd (hpop rfl) (by simp [isScan])
      | false => exact hlt
    exact blank_join.2 ⟨ihl hs.1 nofun hlt' (tail_blank hr hR) hlhs,hr⟩
  | collect | endOp => exact fun _ _ _ _ => by simp [Blank,numbered,argLabel]
  | _ _ _ =>
    rename_i ih
    intro popped opId pre R hpop hlt hR h
    exact blank_input rfl hpop (fun hlt => ih hs nofun hlt hR) hlt hR h

theorem reads_iff_blank (hs : p.Sources) (hpop : popped = true → p.isScan = true)
    (hlt : pre.length + (if popped then 0 else 1) < opId) (hR : ∀ l ∈ R, l = "") :
    p.Reads opId (pre ++ (p.extracted popped ++ R)) ↔
      p.Blank opId (pre ++ (p.extracted popped ++ R)).length :=
  ⟨Reads.blank hs hpop hlt hR,fun h => (reads_iff_blank_of_tail (by omega)
    (List.forall_mem_append.2 ⟨h.extracted,hR⟩)).2 h⟩

theorem reads_iff_input (hin : p.input = some inp) (hpre : pre.length+1 = opId) :
    p.Reads opId (pre ++ (p.extracted false ++ R)) ↔ inp.Reads (opId + p.nextOffset)
      ((pre ++ p.label?.toList) ++ (inp.extracted false ++ R)) := by
  have hG : pre ++ (p.extracted false ++ R) =
      (pre ++ p.label?.toList) ++ (inp.extracted false ++ R) := by
    rw [extracted_input hin,List.append_assoc,List.append_assoc]
    rfl
  rw [reads_input hin,hG]
  refine and_iff_right fun label hlabel => ⟨pre.length,hpre.symm,?_⟩
  have hown : p.label? = some label := by
    cases p <;> simp only [argLabel,reduceCtorEq,Option.some.injEq] at hlabel <;>
      simp_all [label?]
  simp [hown]

theorem reads_iff_input_blank (hin : p.input = some inp) (hs : inp.Sources)
    (hpre : pre.length+1 = opId) (hoff : p.label?.toList.length < p.nextOffset)
    (hR : ∀ l ∈ R, l = "") : p.Reads opId (pre ++ (p.extracted false ++ R)) ↔
      inp.Blank (opId + p.nextOffset) (pre ++ (p.extracted false ++ R)).length := by
  have hlt : (pre ++ p.label?.toList).length + (if false = true then 0 else 1) <
      opId + p.nextOffset := by
    rw [List.length_append]
    simp only [Bool.false_eq_true,if_false]
    omega
  have hpop : false = true → inp.isScan = true := nofun
  rw [reads_iff_input hin hpre,reads_iff_blank hs hpop hlt hR,extracted_input hin]
  simp

theorem reads_iff_ownSlots (hs : p.Sources) : ∀ {opId : ℕ} {pre R : List String},
    pre.length+1 = opId → (∀ l ∈ R, l = "") →
      (p.Reads opId (pre ++ (p.extracted false ++ R)) ↔
        p.OwnSlots opId (pre ++ (p.extracted false ++ R)).length) := by
  induction p with
  | scan label indexed inp ih =>
    intro opId pre R hpre hR
    cases indexed with
    | true => exact reads_iff_input_blank rfl hs hpre (by simp [label?,nextOffset]) hR
    | false =>
      rw [reads_iff_input rfl hpre,ih hs (by simp [label?,nextOffset,← hpre]) hR,OwnSlots]
      simp [label?,nextOffset,extracted]
  | foreachRship _ _ label inp ih | expand _ label inp ih | project _ inp ih =>
    intro opId pre R hpre hR
    rw [reads_iff_input rfl hpre,ih hs (by simp [label?,nextOffset,← hpre]) hR,OwnSlots]
    simp [label?,nextOffset,extracted]
  | filter _ inp | sort _ inp | limit _ inp | create _ _ inp =>
    intro opId pre R hpre hR
    exact reads_iff_input_blank rfl hs hpre (by simp [label?,nextOffset]) hR
  | join jop pos lhs rhs ihl ihr =>
    intro opId pre R hpre hR
    have hlen := lhs.extracted_append_lt (show pre.length < opId by omega)
    rw [reads_join,OwnSlots,extracted,List.append_assoc]
    -- the right-hand side decides first: its labels are what the walk of the left meets last
    have hrhs : rhs.Reads (lhs.opIdEnd opId) (pre ++ (lhs.extracted false ++
        ((if jop.saved then rhs.extracted true else []) ++ R))) ↔
        rhs.Blank (lhs.opIdEnd opId) (pre ++ (lhs.extracted false ++
          ((if jop.saved then rhs.extracted true else []) ++ R))).length := by
      rw [← List.append_assoc]
      exact ⟨Reads.blank_rhs (fun hlt => Reads.blank hs.2.2 (fun _ => hs.2.1) (by simpa using hlt)
        hR) hlen hR,fun h => (reads_iff_blank_of_tail hlen (tail_blank h hR)).2 h⟩
    rw [hrhs]
    exact and_congr_left fun h => ihl hs.1 hpre (tail_blank h hR)
  | collect | endOp => simp [Reads,numbered,argLabel,OwnSlots]

end Plan

theorem findsArguments_iff_reads {p : Plan} (hs : p.Sources) : FindsArguments p ↔
    (p.extracted false).length ≤ 63 ∧ p.Reads 1 (p.extracted false) := by
  have hrun := returns_extracted (e := .init) hs
  have hsome : (Extraction.init.puts (p.extracted false)).isSome = true ↔ _ :=
    Extraction.puts_isSome
  have hfit : (p.extracted false = [] ∨
      Extraction.init.argCounter + (p.extracted false).length ≤ 64)
      ↔ (p.extracted false).length ≤ 63 := by
    rw [← List.length_eq_zero_iff,show Extraction.init.argCounter = 1 from rfl]
    omega
  rw [hfit] at hsome
  cases hputs : Extraction.init.puts (p.extracted false) with
  | none =>
    rw [hputs] at hrun hsome
    refine iff_of_false ?_ fun h => absurd (hsome.2 h.1) (by simp)
    rintro ⟨e,hret,_⟩
    exact absurd (Returns.unique hrun hret) (by simp)
  | some e =>
    rw [hputs] at hrun hsome
    have hholds := holdsLabels_init.puts hputs
    rw [and_iff_right (hsome.1 rfl)]
    constructor
    · rintro ⟨e',hret,hread⟩
      obtain rfl : e = e' := by simpa using Returns.unique hrun hret
      intro x hx label hlabel
      exact (hholds.pointsTo _ _).1 (hread _ _ p.codegen_numberVisitor x hx label hlabel)
    · intro hreads
      refine ⟨e,hrun,fun l n hgen x hx label hlabel => (hholds.pointsTo _ _).2 ?_⟩
      obtain ⟨rfl,_⟩ : p.numbered 1 = l ∧ p.opIdEnd 1 = n := by
        simpa [p.codegen_numberVisitor] using hgen
      exact hreads x hx label hlabel

/-- Every operator finds its label exactly if the labels fit into the table and those that
are read behind an operator the loop does not count, or in the right-hand side of a join,
are all empty. -/
theorem findsArguments_iff (p : Plan) (hs : p.Sources) : FindsArguments p ↔
    (p.extracted false).length ≤ 63 ∧ p.OwnSlots 1 (p.extracted false).length := by
  rw [findsArguments_iff_reads hs]
  have h : p.Reads 1 ([] ++ (p.extracted false ++ [])) ↔
      p.OwnSlots 1 ([] ++ (p.extracted false ++ [])).length :=
    Plan.reads_iff_ownSlots hs rfl nofun
  simp only [List.append_nil,List.nil_append] at h
  rw [h]

theorem findsArguments_knows : FindsArguments (.scan "Person" false
    (.foreachRship .FROM (0,0) "knows" (.expand .OUT "Person" (.collect false)))) :=
  (findsArguments_iff (.scan "Person" false (.foreachRship .FROM (0,0) "knows"
    (.expand .OUT "Person" (.collect false)))) trivial).2 ⟨by decide,trivial⟩

def personsBooks : Plan :=
  .scan "Person" false (.join .CROSS (0,0) (.collect false) (.scan "Book" false .endOp))

theorem not_findsArguments_personsBooks : ¬ FindsArguments personsBooks := by
  rw [findsArguments_iff_reads (p := personsBooks) ⟨trivial,rfl,trivial⟩]
  rintro ⟨_,h⟩
  obtain ⟨i,hi,hget⟩ := h (.scan "Book" false .endOp,2)
    (by simp [personsBooks,Plan.numbered,Plan.opIdEnd]) "Book" rfl
  obtain rfl : i = 1 := by omega
  exact absurd hget (by decide)

end GraphQueryCompiler
