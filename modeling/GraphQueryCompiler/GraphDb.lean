import GraphQueryCompiler.Lib.LinkedChain
import Mathlib.Tactic

/-!
# The graph database seen by generated code

The records are those whose layout `PContext` declares for `node`,
`relationship`, `p_item` and `property_set`. The storage engine itself is not part
of the repository: it enters through total and exact lookups by id, a chunked node
list, the dictionary, the index and the enumeration of variable-length paths.
Words are natural numbers; the two sentinels of the code are kept apart.
-/

namespace GraphQueryCompiler
open LinkedChain

/-- `UNKNOWN` of the storage engine and `UNKNOWN_ID` of `PContext`. -/
def unknownId : ℕ := 2^64-1

/-- `UNKNOWN_REL_ID`, the largest signed 64-bit value. -/
def unknownRelId : ℕ := 2^63-1

structure Node where
  id : ℕ
  fromRshipList : ℕ
  toRshipList : ℕ
  propertyList : ℕ
  nodeLabel : ℕ

structure Relationship where
  id : ℕ
  srcNode : ℕ
  destNode : ℕ
  nextSrcRship : ℕ
  nextDestRship : ℕ
  propertyList : ℕ
  rshipLabel : ℕ

/-- `p_item`: the eight value bytes as one word, and the key code. -/
structure PItem where
  value : ℕ
  key : ℕ

/-- `property_set`: a link of a property chain with its three items. -/
structure PropertySet where
  next : ℕ
  owner : ℕ
  items : Fin 3 → PItem

inductive RshipDir
  | FROM
  | TO
  deriving DecidableEq, Repr

inductive ExpandDir
  | IN
  | OUT
  deriving DecidableEq, Repr

def Node.rshipList (n : Node) : RshipDir → ℕ
  | .FROM => n.fromRshipList
  | .TO => n.toRshipList

def Relationship.nextRship (r : Relationship) : RshipDir → ℕ
  | .FROM => r.nextSrcRship
  | .TO => r.nextDestRship

def Relationship.endpoint (r : Relationship) : ExpandDir → ℕ
  | .OUT => r.destNode
  | .IN => r.srcNode

def IsId (i : ℕ) : Prop := i < unknownRelId

instance (i : ℕ) : Decidable (IsId i) := inferInstanceAs (Decidable (i < unknownRelId))

structure GraphDb where
  /-- The nodes of each chunk, in the order of the range iterator. -/
  chunks : List (List ℕ)
  nodeById : ℕ → Node
  rshipById : ℕ → Relationship
  propertySet : ℕ → PropertySet
  getCode : String → ℕ
  indexLookup : String → String → ℕ → List ℕ
  variableFrom : ℕ → ℕ → ℤ → ℤ → List ℕ
  /-- A bound on the number of records, hence on the length of every chain. -/
  size : ℕ
  nodes_nodup : chunks.flatten.Nodup
  nodeById_id : ∀ n, (nodeById n).id = n
  rshipById_id : ∀ r, (rshipById r).id = r
  rshipList_ends : ∀ n dir, ∃ l : List ℕ, l.length ≤ size ∧
    IsChain (fun r => (rshipById r).nextRship dir) unknownId IsId ((nodeById n).rshipList dir) l
  propertyList_ends : ∀ n, ∃ l : List ℕ, l.length ≤ size ∧
    IsChain (fun p => (propertySet p).next) unknownId IsId (nodeById n).propertyList l

/-- The nodes a range iterator over the chunks `first..last` yields. -/
def GraphDb.range (g : GraphDb) (first last : ℕ) : List ℕ :=
  ((g.chunks.take (last+1)).drop first).flatten

def GraphDb.numChunks (g : GraphDb) : ℕ := g.chunks.length

theorem GraphDb.range_all (g : GraphDb) : g.range 0 g.numChunks = g.chunks.flatten := by
  rw [range,List.drop_zero,List.take_of_length_le (by simp [numChunks])]

def GraphDb.rships (g : GraphDb) (dir : RshipDir) (n : ℕ) : List ℕ :=
  walk (fun r => (g.rshipById r).nextRship dir) unknownId g.size ((g.nodeById n).rshipList dir)

def GraphDb.propertySets (g : GraphDb) (n : ℕ) : List ℕ :=
  walk (fun p => (g.propertySet p).next) unknownId g.size (g.nodeById n).propertyList

theorem not_isId_unknownId : ¬ IsId unknownId := by
  simp [IsId,unknownId,unknownRelId]

theorem GraphDb.rships_chain (g : GraphDb) (dir : RshipDir) (n : ℕ) :
    IsChain (fun r => (g.rshipById r).nextRship dir) unknownId IsId
      ((g.nodeById n).rshipList dir) (g.rships dir n) := by
  obtain ⟨l,hl,hc⟩ := g.rshipList_ends n dir
  rw [rships,hc.walk_eq not_isId_unknownId _ hl]
  exact hc

theorem GraphDb.propertySets_chain (g : GraphDb) (n : ℕ) :
    IsChain (fun p => (g.propertySet p).next) unknownId IsId
      (g.nodeById n).propertyList (g.propertySets n) := by
  obtain ⟨l,hl,hc⟩ := g.propertyList_ends n
  rw [propertySets,hc.walk_eq not_isId_unknownId _ hl]
  exact hc

def GraphDb.propertyItems (g : GraphDb) (n : ℕ) : List PItem :=
  (g.propertySets n).flatMap fun p => List.ofFn (g.propertySet p).items

def GraphDb.findProperty (g : GraphDb) (n key : ℕ) : Option PItem :=
  (g.propertyItems n).find? fun it => it.key = key

/-- The argument array handed to the start function: every slot read as a string
(labels) or as a word (filter operands). -/
structure QueryArgs where
  label : ℕ → String
  word : ℕ → ℕ

def GraphDb.argLabel (g : GraphDb) (args : QueryArgs) (opId : ℕ) : ℕ := g.getCode (args.label opId)

/-- Two nodes with the label `Person`, a `knows` from the first to the second, and the
property `id` with value 5 on both. The dictionary counts characters. -/
def pairDb : GraphDb where
  chunks := [[0,1]]
  nodeById n := ⟨n,if n = 0 then 0 else unknownId,if n = 1 then 0 else unknownId,0,6⟩
  rshipById r := ⟨r,0,1,unknownId,unknownId,unknownId,5⟩
  propertySet _ := ⟨unknownId,0,fun _ => ⟨5,2⟩⟩
  getCode := String.length
  indexLookup _ _ _ := []
  variableFrom _ _ _ _ := []
  size := 1
  nodes_nodup := by decide
  nodeById_id _ := rfl
  rshipById_id _ := rfl
  rshipList_ends n dir := by
    have hz : IsId 0 := by decide
    by_cases h : (n = 0 ∧ dir = .FROM) ∨ (n = 1 ∧ dir = .TO)
    · refine ⟨[0],Nat.le_refl 1,?_⟩
      rcases h with ⟨rfl,rfl⟩ | ⟨rfl,rfl⟩ <;> exact .cons hz .nil
    · refine ⟨[],by simp,?_⟩
      have hhead : (⟨n,if n = 0 then 0 else unknownId,if n = 1 then 0 else unknownId,0,6⟩ :
          Node).rshipList dir = unknownId := by
        cases dir <;> simp_all [Node.rshipList]
      rw [hhead]
      exact .nil
  propertyList_ends _ := by
    have hz : IsId 0 := by decide
    exact ⟨[0],Nat.le_refl 1,.cons hz .nil⟩

end GraphQueryCompiler
