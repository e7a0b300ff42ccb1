import GraphQueryCompiler.Lib.CursorCell
import GraphQueryCompiler.Lib.TracedRuns
import GraphQueryCompiler.OperatorSimulation

/-!
# The loop of `while_rship_exist`

The loop has a pointer to the record of the first relationship, and copies the record of every
other one to it. `rship_by_id` returns a pointer into the graph, so this is a store to the graph.
-/

namespace GraphQueryCompiler
open LinkedChain StepMachine CursorCell CodegenInlineVisitor

structure GraphRecords where
  nodes : ℕ → Node
  rships : ℕ → Relationship

def GraphDb.records (db : GraphDb) : GraphRecords := ⟨db.nodeById,db.rshipById⟩

def Node.load (n : Node) : ℕ → Val
  | 1 => .word n.id
  | 2 => .word n.fromRshipList
  | 3 => .word n.toRshipList
  | 4 => .word n.propertyList
  | 5 => .word n.nodeLabel
  | _ => .undef

def Relationship.load (r : Relationship) : ℕ → Val
  | 1 => .word r.id
  | 2 => .word r.srcNode
  | 3 => .word r.destNode
  | 4 => .word r.nextSrcRship
  | 5 => .word r.nextDestRship
  | 6 => .word r.propertyList
  | 7 => .word r.rshipLabel
  | _ => .undef

inductive WhileRshipBlock
  | entry | whileCondition | initRship | whileBody | whileBodyEpilog | nextRship | whileEnd
  deriving DecidableEq, Repr

/-- `rest` is what is in memory besides the graph. `rshipId` and `nextRshipId` are the two values of
`rship_id`, and `rship` is the relationship whose record the pointer is to. -/
structure WhileRshipState (α : Type) where
  records : GraphRecords
  rest : α
  rshipId : Val
  nextRshipId : Val
  rship : ℕ

inductive WhileRshipConfig (α : Type)
  | at (b : WhileRshipBlock) (s : WhileRshipState α)
  | next (s : WhileRshipState α)

/-- What a run of the code of `loop_body` makes of the memory. It goes to the epilog. -/
abbrev LoopBody (α : Type) := ℕ → GraphRecords → α → GraphRecords × α

def whileRshipExistStep {α : Type} (node nodeGEPidx rshipGEPidx : ℕ) (loopBody : LoopBody α) :
    WhileRshipConfig α → Option (WhileRshipConfig α)
  | .at .entry s =>
    some (.at .whileCondition { s with rshipId := (s.records.nodes node).load nodeGEPidx })
  | .at .whileCondition s =>
    match s.rshipId.icmpULT (.word unknownRelId) with
    | .bool true => some (.at .initRship s)
    | .bool false => some (.at .whileEnd s)
    | _ => none
  | .at .initRship s =>
    match s.rshipId with
    | .word id => some (.at .whileBody { s with rship := id })
    | _ => none
  | .at .whileBody s =>
    let (records,rest) := loopBody s.rship s.records s.rest
    some (.at .whileBodyEpilog { s with records := records, rest := rest })
  | .at .whileBodyEpilog s =>
    let id := (s.records.rships s.rship).load rshipGEPidx
    match id.icmpULT (.word unknownRelId) with
    | .bool true => some (.at .nextRship { s with nextRshipId := id })
    | .bool false => some (.at .whileEnd { s with nextRshipId := id })
    | _ => none
  | .at .nextRship s =>
    match s.nextRshipId with
    | .word id =>
      -- the record is copied to where the pointer is to, which stays the same
      let rships := Function.update s.records.rships s.rship (s.records.rships id)
      some (.at .whileBody { s with records := { s.records with rships := rships } })
    | _ => none
  | .at .whileEnd s => some (.next s)
  | .next _ => none

def whileRshipEvents {α : Type} : WhileRshipConfig α → WhileRshipConfig α → List Relationship
  | .at .whileBody s, _ => [s.records.rships s.rship]
  | _, _ => []

def LoopBody.WritesNothing {α : Type} (loopBody : LoopBody α) : Prop :=
  ∀ rship records rest, (loopBody rship records rest).1 = records

def LoopBody.KeepsLists {α : Type} (loopBody : LoopBody α) (dir : RshipDir) : Prop :=
  ∀ rship records rest r, ((loopBody rship records rest).1.rships r).id = (records.rships r).id ∧
    ((loopBody rship records rest).1.rships r).nextRship dir = (records.rships r).nextRship dir

/-- A body that leaves the list as it is is run for each of its relationships in turn, and the
records are unchanged if the body does not write to them. -/
def VisitsUnchanged (db : GraphDb) (dir : RshipDir) (n : ℕ) : Prop :=
  ∀ (α : Type) (loopBody : LoopBody α) (s : WhileRshipState α), s.records = db.records →
    loopBody.KeepsLists dir → ∃ rs s',
      Traced (whileRshipExistStep n (rshipIdx dir).1 (rshipIdx dir).2 loopBody) whileRshipEvents rs
        (.at .entry s) (.next s') ∧
      rs.map Relationship.id = db.rships dir n ∧
      (loopBody.WritesNothing → s'.records = db.records)

variable {α : Type} {loopBody : LoopBody α} {s : WhileRshipState α} {db : GraphDb} {dir : RshipDir}
  {n i first r : ℕ} {l : List ℕ} {μ : Type} {link : Relationship → μ}

theorem Node.load_rshipIdx (x : Node) (dir : RshipDir) :
    x.load (rshipIdx dir).1 = .word (x.rshipList dir) := by
  cases dir <;> rfl

theorem Relationship.load_rshipIdx (x : Relationship) (dir : RshipDir) :
    x.load (rshipIdx dir).2 = .word (x.nextRship dir) := by
  cases dir <;> rfl

def LoopBody.run (loopBody : LoopBody α) (s : WhileRshipState α) : WhileRshipState α :=
  let (records,rest) := loopBody s.rship s.records s.rest
  { s with records := records, rest := rest }

theorem body_step : whileRshipExistStep n (rshipIdx dir).1 (rshipIdx dir).2 loopBody
    (.at .whileBody s) = some (.at .whileBodyEpilog (loopBody.run s)) := rfl

theorem epilog_load (hnext : ((loopBody.run s).records.rships s.rship).nextRship dir = i) :
    ((loopBody.run s).records.rships (loopBody.run s).rship).load (rshipIdx dir).2 = .word i := by
  rw [Relationship.load_rshipIdx]
  exact congrArg Val.word hnext

theorem not_unknownId_lt : decide (unknownId < unknownRelId) = false := by decide

theorem round_end (hnext : ((loopBody.run s).records.rships s.rship).nextRship dir = unknownId) :
    ∃ s', Traced (whileRshipExistStep n (rshipIdx dir).1 (rshipIdx dir).2 loopBody)
      whileRshipEvents [s.records.rships s.rship] (.at .whileBody s) (.next s') ∧
      s'.records = (loopBody.run s).records := by
  have hepilog : whileRshipExistStep n (rshipIdx dir).1 (rshipIdx dir).2 loopBody
      (.at .whileBodyEpilog (loopBody.run s)) =
        some (.at .whileEnd { loopBody.run s with nextRshipId := .word unknownId }) := by
    have hload := epilog_load hnext
    simp only [whileRshipExistStep,hload,Val.icmpULT,not_unknownId_lt]
  exact ⟨{ loopBody.run s with nextRshipId := .word unknownId },
    .head body_step (.silent hepilog rfl (.silent rfl rfl .refl)),rfl⟩

theorem round_next (hi : IsId i)
    (hnext : ((loopBody.run s).records.rships s.rship).nextRship dir = i) :
    ∃ s', Traced (whileRshipExistStep n (rshipIdx dir).1 (rshipIdx dir).2 loopBody)
      whileRshipEvents [s.records.rships s.rship] (.at .whileBody s) (.at .whileBody s') ∧
      s'.rship = s.rship ∧ s'.records.nodes = (loopBody.run s).records.nodes ∧
      s'.records.rships = Function.update (loopBody.run s).records.rships s.rship
        ((loopBody.run s).records.rships i) := by
  have hepilog : whileRshipExistStep n (rshipIdx dir).1 (rshipIdx dir).2 loopBody
      (.at .whileBodyEpilog (loopBody.run s)) =
        some (.at .nextRship { loopBody.run s with nextRshipId := .word i }) := by
    have hload := epilog_load hnext
    have hlt : decide (i < unknownRelId) = true := decide_eq_true hi
    simp only [whileRshipExistStep,hload,Val.icmpULT,hlt]
  exact ⟨_,.head body_step (.silent hepilog rfl (.silent rfl rfl .refl)),rfl,rfl,rfl⟩

/-- From the body on the loop goes along the rest of the list, and the first cell has each of its
records in turn. -/
theorem visits_traced
    (hlink : ∀ rship records rest b,
      link ((loopBody rship records rest).1.rships b) = link (records.rships b))
    (hids : ∀ x y : Relationship, link x = link y → x.id = y.id ∧ x.nextRship dir = y.nextRship dir)
    (hchain : IsChain (fun r => (db.rshipById r).nextRship dir) unknownId IsId i l) :
    ∀ (r : ℕ) (s : WhileRshipState α), (db.rshipById r).nextRship dir = i → s.rship ∉ l →
      Shows link db.rshipById s.records.rships s.rship r →
      ∃ rs s', Traced (whileRshipExistStep n (rshipIdx dir).1 (rshipIdx dir).2 loopBody)
        whileRshipEvents rs (.at .whileBody s) (.next s') ∧
        rs.map Relationship.id = r :: l ∧
        Shows link db.rshipById s'.records.rships s.rship (l.getLastD r) ∧
        (loopBody.WritesNothing → s'.records.nodes = s.records.nodes) := by
  have hid : ∀ {r : ℕ} {s : WhileRshipState α},
      Shows link db.rshipById s.records.rships s.rship r →
      (s.records.rships s.rship).id = r :=
    fun hshows => (hids _ _ hshows.cell).1.trans (db.rshipById_id _)
  induction hchain with
  | nil =>
    intro r s hr hfirst hshows
    have hrun := hshows.of_link (hlink s.rship s.records s.rest)
    obtain ⟨s',htraced,hs'⟩ := round_end (n := n) ((hids _ _ hrun.cell).2.trans hr)
    refine ⟨_,s',htraced,by rw [List.map_singleton,hid hshows],hs' ▸ hrun,fun hnothing => ?_⟩
    rw [hs']
    exact congrArg GraphRecords.nodes (hnothing s.rship s.records s.rest)
  | @cons i l hi hl ih =>
    intro r s hr hfirst hshows
    obtain ⟨hne,hfirst⟩ := List.ne_and_not_mem_of_not_mem_cons hfirst
    have hrun := hshows.of_link (hlink s.rship s.records s.rest)
    obtain ⟨s₁,htraced,hrship,hnodes,hrships⟩ :=
      round_next (n := n) hi ((hids _ _ hrun.cell).2.trans hr)
    have hshows₁ : Shows link db.rshipById s₁.records.rships s₁.rship i := by
      rw [hrship,hrships]
      exact hrun.copy hne.symm
    obtain ⟨rs,s',htraced',hrs,hshows',hnodes'⟩ := ih i s₁ rfl (hrship ▸ hfirst) hshows₁
    refine ⟨_,s',htraced.trans htraced',?_,?_,fun hnothing => ?_⟩
    · rw [List.map_append,List.map_singleton,hid hshows,hrs]
      rfl
    · rw [List.getLastD_cons,← hrship]
      exact hshows'
    · rw [hnodes' hnothing,hnodes]
      exact congrArg GraphRecords.nodes (hnothing s.rship s.records s.rest)

theorem GraphDb.rships_nodup (db : GraphDb) (dir : RshipDir) (n : ℕ) : (db.rships dir n).Nodup :=
  (db.rships_chain dir n).nodup not_isId_unknownId

theorem entry_step (hs : s.records = db.records) :
    whileRshipExistStep n (rshipIdx dir).1 (rshipIdx dir).2 loopBody (.at .entry s) =
      some (.at .whileCondition { s with rshipId := .word ((db.nodeById n).rshipList dir) }) := by
  rw [whileRshipExistStep,Node.load_rshipIdx,hs]
  rfl

theorem loop_empty (hs : s.records = db.records) (hlist : db.rships dir n = []) :
    ∃ s', Traced (whileRshipExistStep n (rshipIdx dir).1 (rshipIdx dir).2 loopBody)
      whileRshipEvents [] (.at .entry s) (.next s') ∧ s'.records = db.records := by
  have hchain := db.rships_chain dir n
  rw [hlist] at hchain
  have hhead : (db.nodeById n).rshipList dir = unknownId := by
    generalize (db.nodeById n).rshipList dir = i at hchain
    cases hchain
    rfl
  let s₁ : WhileRshipState α := { s with rshipId := .word ((db.nodeById n).rshipList dir) }
  have hcond : whileRshipExistStep n (rshipIdx dir).1 (rshipIdx dir).2 loopBody
      (.at .whileCondition s₁) = some (.at .whileEnd s₁) := by
    simp only [whileRshipExistStep,s₁,hhead,Val.icmpULT,not_unknownId_lt]
  exact ⟨s₁,.silent (entry_step hs) rfl (.silent hcond rfl (.silent rfl rfl .refl)),hs⟩

variable (link) in
theorem loop_traced
    (hlink : ∀ rship records rest b,
      link ((loopBody rship records rest).1.rships b) = link (records.rships b))
    (hids : ∀ x y : Relationship, link x = link y → x.id = y.id ∧ x.nextRship dir = y.nextRship dir)
    (hs : s.records = db.records) (hlist : db.rships dir n = first :: l) :
    ∃ rs s', Traced (whileRshipExistStep n (rshipIdx dir).1 (rshipIdx dir).2 loopBody)
        whileRshipEvents rs (.at .entry s) (.next s') ∧
      rs.map Relationship.id = first :: l ∧
      Shows link db.rshipById s'.records.rships first (l.getLastD first) ∧
      (loopBody.WritesNothing → s'.records.nodes = db.nodeById) := by
  have hchain := db.rships_chain dir n
  have hnodup := db.rships_nodup dir n
  rw [hlist] at hchain hnodup
  obtain ⟨hfirst,-⟩ := List.nodup_cons.1 hnodup
  have hentry : whileRshipExistStep n (rshipIdx dir).1 (rshipIdx dir).2 loopBody (.at .entry s) =
      some (.at .whileCondition { s with rshipId := .word ((db.nodeById n).rshipList dir) }) :=
    entry_step hs
  generalize (db.nodeById n).rshipList dir = i at hchain hentry
  cases hchain with
  | cons hi hl =>
    let s₁ : WhileRshipState α := { s with rshipId := .word first }
    let s₂ : WhileRshipState α := { s₁ with rship := first }
    have hcond : whileRshipExistStep n (rshipIdx dir).1 (rshipIdx dir).2 loopBody
        (.at .whileCondition s₁) = some (.at .initRship s₁) := by
      have hlt : decide (first < unknownRelId) = true := decide_eq_true hi
      simp only [whileRshipExistStep,s₁,Val.icmpULT,hlt]
    have hshows : Shows link db.rshipById s₂.records.rships first first := by
      rw [show s₂.records = db.records from hs]
      exact .refl link db.rshipById first
    obtain ⟨rs,s',htraced,hrs,hshows',hnodes⟩ :=
      visits_traced (n := n) hlink hids hl first s₂ rfl hfirst hshows
    refine ⟨rs,s',.silent hentry rfl (.silent hcond rfl (.silent rfl rfl htraced)),hrs,hshows',
      fun hnothing => ?_⟩
    rw [hnodes hnothing,show s₂.records = db.records from hs]
    rfl

theorem loop_overwrites (hnothing : loopBody.WritesNothing) (hs : s.records = db.records)
    (hlist : db.rships dir n = first :: l) :
    ∃ rs s', Traced (whileRshipExistStep n (rshipIdx dir).1 (rshipIdx dir).2 loopBody)
        whileRshipEvents rs (.at .entry s) (.next s') ∧ s'.records =
      ⟨db.nodeById,Function.update db.rshipById first (db.rshipById (l.getLastD first))⟩ := by
  have hlink : ∀ rship records rest b,
      id ((loopBody rship records rest).1.rships b) = id (records.rships b) := by
    intro rship records rest b
    rw [hnothing]
  have hids : ∀ x y : Relationship, id x = id y →
      x.id = y.id ∧ x.nextRship dir = y.nextRship dir := by
    rintro x _ rfl
    exact ⟨rfl,rfl⟩
  obtain ⟨rs,s',htraced,-,hshows,hnodes⟩ := loop_traced id hlink hids hs hlist
  refine ⟨rs,s',htraced,?_⟩
  rw [← hshows.eq_update,← hnodes hnothing]

theorem traced_next_unique {rs rs' : List Relationship} {c : WhileRshipConfig α}
    {s₁ s₂ : WhileRshipState α}
    (h : Traced (whileRshipExistStep n (rshipIdx dir).1 (rshipIdx dir).2 loopBody)
      whileRshipEvents rs c (.next s₁))
    (h' : Traced (whileRshipExistStep n (rshipIdx dir).1 (rshipIdx dir).2 loopBody)
      whileRshipEvents rs' c (.next s₂)) : s₁ = s₂ :=
  WhileRshipConfig.next.inj (h.unique h' rfl rfl).2

theorem not_visitsUnchanged_of_two (hlist : db.rships dir n = first :: r :: l) :
    ¬ VisitsUnchanged db dir n := by
  intro h
  let loopBody : LoopBody Unit := fun _ records rest => (records,rest)
  let s : WhileRshipState Unit := ⟨db.records,(),.undef,.undef,0⟩
  have hnothing : loopBody.WritesNothing := fun _ _ _ => rfl
  obtain ⟨rs,s₁,hrun,-,hunchanged⟩ := h Unit loopBody s rfl fun _ _ _ _ => ⟨rfl,rfl⟩
  obtain ⟨rs',s₂,hrun',hrecords⟩ := loop_overwrites (s := s) hnothing rfl hlist
  obtain rfl := traced_next_unique hrun hrun'
  have hrships : Function.update db.rshipById first (db.rshipById ((r :: l).getLastD first)) =
      db.rshipById :=
    congrArg GraphRecords.rships (hrecords.symm.trans (hunchanged hnothing))
  have hcell := congrFun hrships first
  rw [Function.update_self] at hcell
  have hlast : (r :: l).getLastD first = first := by
    have hid := congrArg Relationship.id hcell
    rwa [db.rshipById_id,db.rshipById_id] at hid
  have hnodup := db.rships_nodup dir n
  rw [hlist,List.nodup_cons] at hnodup
  refine hnodup.1 ?_
  rw [← hlast,List.getLastD_cons]
  exact List.getLastD_mem_cons

theorem visitsUnchanged_nil (hlist : db.rships dir n = []) : VisitsUnchanged db dir n := by
  intro α loopBody s hs hkeep
  obtain ⟨s',hrun,hs'⟩ := loop_empty hs hlist
  exact ⟨[],s',hrun,hlist.symm,fun _ => hs'⟩

theorem visitsUnchanged_singleton (hlist : db.rships dir n = [first]) :
    VisitsUnchanged db dir n := by
  intro α loopBody s hs hkeep
  have hlink : ∀ rship records rest b,
      (((loopBody rship records rest).1.rships b).id,
        ((loopBody rship records rest).1.rships b).nextRship dir) =
      ((records.rships b).id,(records.rships b).nextRship dir) := by
    intro rship records rest b
    obtain ⟨hid,hnext⟩ := hkeep rship records rest b
    rw [hid,hnext]
  obtain ⟨rs,s',hrun,hrs,-,-⟩ := loop_traced (fun x => (x.id,x.nextRship dir)) hlink
    (fun _ _ => Prod.mk.inj) hs hlist
  refine ⟨rs,s',hrun,hrs.trans hlist.symm,fun hnothing => ?_⟩
  obtain ⟨rs',s'',hrun',hrecords⟩ := loop_overwrites hnothing hs hlist
  obtain rfl := traced_next_unique hrun hrun'
  rw [hrecords,List.getLastD_nil,Function.update_eq_self]
  rfl

/-- The loop visits a list and leaves the graph unchanged exactly if there is at most one
relationship in the list. -/
theorem visitsUnchanged_iff (db : GraphDb) (dir : RshipDir) (n : ℕ) :
    VisitsUnchanged db dir n ↔ (db.rships dir n).length ≤ 1 := by
  cases hlist : db.rships dir n with
  | nil => exact iff_of_true (visitsUnchanged_nil hlist) (Nat.zero_le 1)
  | cons first l =>
    cases l with
    | nil => exact iff_of_true (visitsUnchanged_singleton hlist) (Nat.le_refl 1)
    | cons r l => exact iff_of_false (not_visitsUnchanged_of_two hlist) (by simp)

def twoKnowsRship (r : ℕ) : Relationship :=
  ⟨r,0,1,if r = 0 then 1 else unknownId,if r = 0 then 1 else unknownId,unknownId,5⟩

theorem twoKnows_rships (n : ℕ) (dir : RshipDir) : ∃ l : List ℕ, l.length ≤ 2 ∧
    IsChain (fun r => (twoKnowsRship r).nextRship dir) unknownId IsId
      ((pairDb.nodeById n).rshipList dir) l := by
  have htwo : ∀ dir : RshipDir,
      IsChain (fun r => (twoKnowsRship r).nextRship dir) unknownId IsId 0 [0,1] := by
    intro dir
    cases dir <;> exact .cons (by decide) (.cons (by decide) .nil)
  have hhead : (pairDb.nodeById n).rshipList dir = 0 ∨
      (pairDb.nodeById n).rshipList dir = unknownId := by
    cases dir <;> exact ite_eq_or_eq ..
  rcases hhead with hhead | hhead
  · exact ⟨[0,1],Nat.le_refl 2,hhead ▸ htwo dir⟩
  · exact ⟨[],Nat.zero_le 2,hhead ▸ .nil⟩

theorem twoKnows_properties (n : ℕ) : ∃ l : List ℕ, l.length ≤ 2 ∧
    IsChain (fun p => (pairDb.propertySet p).next) unknownId IsId
      (pairDb.nodeById n).propertyList l := by
  obtain ⟨l,hl,hc⟩ := pairDb.propertyList_ends n
  exact ⟨l,hl.trans (by decide),hc⟩

def twoKnowsDb : GraphDb :=
  { pairDb with
    rshipById := twoKnowsRship
    rshipById_id := fun _ => rfl
    size := 2
    rshipList_ends := twoKnows_rships
    propertyList_ends := twoKnows_properties }

/-- The record of relationship 0 becomes that of relationship 1. -/
theorem not_visitsUnchanged_twoKnows : ¬ VisitsUnchanged twoKnowsDb .FROM 0 := by
  have hlist : twoKnowsDb.rships .FROM 0 = [0,1] := by decide
  exact not_visitsUnchanged_of_two hlist

end GraphQueryCompiler
