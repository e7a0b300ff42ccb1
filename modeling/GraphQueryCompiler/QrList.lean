import GraphQueryCompiler.Lib.DoublyLinked
import GraphQueryCompiler.Lib.StepMachine
import Mathlib.Tactic

/-!
# The lists of query results

The functions that `PContext` generates for lists of query results, on a heap of their nodes and
lists. `malloc` returns a block that is not in use, so a function takes the address of the node that
it makes. An access to a block that does not exist is undefined behaviour, as none.
-/

namespace GraphQueryCompiler
open DoublyLinked LinkedChain StepMachine

abbrev Address := UInt64

structure QrNode (ε : Type) where
  next : Address
  prev : Address
  check : UInt64
  element : ε

structure QrList where
  head : Address
  tail : Address
  size : UInt64

structure QrHeap (ε : Type) where
  nodes : Address → Option (QrNode ε)
  lists : Address → Option QrList

variable {ε : Type}

namespace QrHeap

def storeNode (h : QrHeap ε) (a : Address) (f : QrNode ε → QrNode ε) : Option (QrHeap ε) :=
  (h.nodes a).map fun n => { h with nodes := Function.update h.nodes a (some (f n)) }

def storeList (h : QrHeap ε) (l : Address) (f : QrList → QrList) : Option (QrHeap ε) :=
  (h.lists l).map fun q => { h with lists := Function.update h.lists l (some (f q)) }

def createQrNode (h : QrHeap ε) (node : Address) (element : ε) (prev next : Address) : QrHeap ε :=
  { h with nodes := Function.update h.nodes node (some ⟨next,prev,22401,element⟩) }

def createQrList (h : QrHeap ε) (list : Address) (firstElement : Option (ε × Address)) : QrHeap ε :=
  match firstElement with
  | some (element,node) =>
    let h := h.createQrNode node element 0 0
    { h with lists := Function.update h.lists list (some ⟨node,node,1⟩) }
  | none => { h with lists := Function.update h.lists list (some ⟨0,0,0⟩) }

def qrListAddFront (h : QrHeap ε) (list : Address) (element : ε) (node : Address) :
    Option (QrHeap ε) := do
  let listSizeVal ← (h.lists list).map QrList.size
  let h ← if listSizeVal = 0 then do
      let h := h.createQrNode node element 0 0
      let h ← h.storeList list fun q => { q with head := node }
      h.storeList list fun q => { q with tail := node }
    else do
      let listHead ← (h.lists list).map QrList.head
      let h := h.createQrNode node element 0 listHead
      let h ← h.storeNode listHead fun n => { n with prev := node }
      h.storeList list fun q => { q with head := node }
  h.storeList list fun q => { q with size := listSizeVal+1 }

def qrListGetFront (h : QrHeap ε) (list : Address) : Option Address := do
  let q ← h.lists list
  return if q.size = 0 then 0 else q.head

def qrListGetBack (h : QrHeap ε) (list : Address) : Option Address := do
  let q ← h.lists list
  return if q.size = 0 then 0 else q.tail

def qrListPopBack (h : QrHeap ε) (list : Address) : Option (Address × QrHeap ε) := do
  let listSizeVal ← (h.lists list).map QrList.size
  if listSizeVal = 0 then return (0,h)
  else do
    let h ← h.storeList list fun q => { q with size := listSizeVal-1 }
    let listTail ← (h.lists list).map QrList.tail
    if listSizeVal = 1 then do
      let h ← h.storeList list fun q => { q with tail := 0 }
      let h ← h.storeList list fun q => { q with head := 0 }
      return (listTail,h)
    else do
      let prev ← (h.nodes listTail).map QrNode.prev
      let h ← h.storeNode prev fun n => { n with next := 0 }
      let h ← h.storeList list fun q => { q with tail := prev }
      return (listTail,h)

def qrListPopFront (h : QrHeap ε) (list : Address) : Option (Address × QrHeap ε) := do
  let listSizeVal ← (h.lists list).map QrList.size
  if listSizeVal = 0 then return (0,h)
  else do
    let h ← h.storeList list fun q => { q with size := listSizeVal-1 }
    if listSizeVal = 1 then do
      let listTail ← (h.lists list).map QrList.tail
      let h ← h.storeList list fun q => { q with tail := 0 }
      let h ← h.storeList list fun q => { q with head := 0 }
      return (listTail,h)
    else do
      let listHead ← (h.lists list).map QrList.head
      let next ← (h.nodes listHead).map QrNode.next
      let h ← h.storeNode next fun n => { n with prev := 0 }
      let h ← h.storeList list fun q => { q with head := next }
      return (listHead,h)

end QrHeap

/-- The blocks of `while_qr_list`, with `cur_node` and what else the loop works on. At `next` the
loop has gone to its successor block. -/
inductive WhileQrList (σ : Type*)
  | condition (curNode : Address) (s : σ)
  | body (curNode : Address) (s : σ)
  | epilog (curNode : Address) (s : σ)
  | next (curNode : Address) (s : σ)
  | undefined

/-- `while_qr_list`. The body gives true if it leaves the loop for the successor block. -/
def whileQrList {σ : Type*} (heap : σ → QrHeap ε) (loopBody : Address → σ → Option (σ × Bool)) :
    WhileQrList σ → Option (WhileQrList σ)
  | .condition curNode s => some (if curNode = 0 then .next curNode s else .body curNode s)
  | .body curNode s => some ((loopBody curNode s).elim .undefined fun r =>
      if r.2 then .next curNode r.1 else .epilog curNode r.1)
  | .epilog curNode s => some (((heap s).nodes curNode).elim .undefined fun n =>
      .condition n.next s)
  | .next _ _ => none
  | .undefined => none

/-- The loop of `qr_list_at`, over the heap and `cur_pos`. -/
def qrListAtStep (at' : UInt64) : WhileQrList (QrHeap ε × UInt64) →
    Option (WhileQrList (QrHeap ε × UInt64)) :=
  whileQrList Prod.fst fun _ s => some ((s.1,s.2+1),s.2 = at')

def QrHeap.QrListAt (h : QrHeap ε) (list : Address) (at' : UInt64) (ret : Address) : Prop :=
  ∃ q s, h.lists list = some q ∧
    Returns (qrListAtStep at') (.condition q.head (h,0)) (.next ret s)

/-- A call of a generated function on a list. A new node is made at the address that `malloc`
returns. -/
inductive QrCall (ε : Type)
  | addFront (element : ε) (node : Address)
  | popFront
  | popBack
  | getFront
  | getBack
  | at (pos : UInt64)

namespace QrCall

def Fresh (h : QrHeap ε) : QrCall ε → Prop
  | .addFront _ node => node ≠ 0 ∧ h.nodes node = none
  | _ => True

/-- What the call returns, if anything, and the heap behind it. -/
def Exec (list : Address) (h : QrHeap ε) (ret : Option Address) (h' : QrHeap ε) :
    QrCall ε → Prop
  | .addFront element node => ret = none ∧ h.qrListAddFront list element node = some h'
  | .popFront => ∃ p, ret = some p ∧ h.qrListPopFront list = some (p,h')
  | .popBack => ∃ p, ret = some p ∧ h.qrListPopBack list = some (p,h')
  | .getFront => ∃ p, ret = some p ∧ h.qrListGetFront list = some p ∧ h' = h
  | .getBack => ∃ p, ret = some p ∧ h.qrListGetBack list = some p ∧ h' = h
  | .at pos => ∃ p, ret = some p ∧ h.QrListAt list pos p ∧ h' = h

end QrCall

inductive QrRun (list : Address) (h₀ : QrHeap ε) :
    List (QrCall ε) → List (Option Address) → QrHeap ε → Prop
  | nil : QrRun list h₀ [] [] h₀
  | snoc {cs : List (QrCall ε)} {rets : List (Option Address)} {h h' : QrHeap ε} {c : QrCall ε}
      {ret : Option Address} : QrRun list h₀ cs rets h → c.Fresh h → c.Exec list h ret h' →
      QrRun list h₀ (cs ++ [c]) (rets ++ [ret]) h'

abbrev QrDeque (ε : Type) := List (Address × ε)

namespace QrDeque

def addressAt (xs : QrDeque ε) (i : ℕ) : Address := (xs[i]?.map Prod.fst).getD 0

def front (xs : QrDeque ε) : Address := (xs.head?.map Prod.fst).getD 0

def back (xs : QrDeque ε) : Address := (xs.getLast?.map Prod.fst).getD 0

def create (firstElement : Option (ε × Address)) : QrDeque ε :=
  firstElement.toList.map fun x => (x.2,x.1)

def call (xs : QrDeque ε) : QrCall ε → Option Address × QrDeque ε
  | .addFront element node => (none,(node,element) :: xs)
  | .popFront => (some xs.front,xs.tail)
  | .popBack => (some xs.back,xs.dropLast)
  | .getFront => (some xs.front,xs)
  | .getBack => (some xs.back,xs)
  | .at pos => (some (xs.addressAt pos.toNat),xs)

def calls (xs : QrDeque ε) (cs : List (QrCall ε)) : List (Option Address) × QrDeque ε :=
  cs.foldl (fun r c => (r.1 ++ [(r.2.call c).1],(r.2.call c).2)) ([],xs)

end QrDeque

namespace QrHeap

def next (h : QrHeap ε) (a : Address) : Address := ((h.nodes a).map QrNode.next).getD 0

def prev (h : QrHeap ε) (a : Address) : Address := ((h.nodes a).map QrNode.prev).getD 0

/-- The list in the heap is the sequence: it has its size, `next` leads from the head through its
nodes and `prev` from the tail in the reverse order, and head and tail are null only if it is
empty. -/
structure Represents (h : QrHeap ε) (list : Address) (xs : QrDeque ε) (q : QrList) : Prop where
  list_eq : h.lists list = some q
  size : q.size.toNat = xs.length
  next_chain : IsChain h.next 0 (· ≠ 0) q.head (xs.map Prod.fst)
  prev_chain : IsChain h.prev 0 (· ≠ 0) q.tail (xs.map Prod.fst).reverse
  head_null : q.head = 0 ↔ xs = []
  tail_null : q.tail = 0 ↔ xs = []
  elements : ∀ x ∈ xs, ∃ n, h.nodes x.1 = some n ∧ n.element = x.2

end QrHeap

def madeNodes (firstElement : Option (ε × Address)) (cs : List (QrCall ε)) : List Address :=
  firstElement.toList.map Prod.snd ++ cs.filterMap fun c => match c with
    | .addFront _ node => some node
    | _ => none

namespace QrHeap

structure Holds (h : QrHeap ε) (list : Address) (xs : QrDeque ε) (q : QrList) : Prop where
  list_eq : h.lists list = some q
  size : q.size.toNat = xs.length
  linked : DoublyLinked.Represents h.next h.prev 0 q.head q.tail (xs.map Prod.fst)
  elements : ∀ x ∈ xs, ∃ n, h.nodes x.1 = some n ∧ n.element = x.2

/-- What a call does not change: nodes that it neither finds in the list nor makes, and other
lists. -/
def Same (h h' : QrHeap ε) (list : Address) (nodes : List Address) : Prop :=
  (∀ b, b ∉ nodes → h'.nodes b = h.nodes b) ∧ ∀ l, l ≠ list → h'.lists l = h.lists l

variable {h h' : QrHeap ε} {list a b : Address} {xs : QrDeque ε} {x y : Address × ε} {q : QrList}
  {n : QrNode ε} {e : ε}

theorem Holds.represents (hh : h.Holds list xs q) : h.Represents list xs q where
  list_eq := hh.list_eq
  size := hh.size
  next_chain := hh.linked.next_chain
  prev_chain := hh.linked.prev_chain
  head_null := hh.linked.head_null.trans List.map_eq_nil_iff
  tail_null := hh.linked.tail_null.trans List.map_eq_nil_iff
  elements := hh.elements

theorem length_lt {l : List Address} (h : (0 :: l).Nodup) : l.length < 2^64 := by
  have hnodup : ((0 :: l).map UInt64.toNat).Nodup := h.map fun _ _ => UInt64.toNat_inj.1
  have hsub : (0 :: l).map UInt64.toNat ⊆ List.range (2^64) := by
    intro k hk
    obtain ⟨a,_,rfl⟩ := List.mem_map.1 hk
    exact List.mem_range.2 a.toNat_lt
  have hle := (hnodup.subperm hsub).length_le
  rw [List.length_map,List.length_cons,List.length_range] at hle
  exact hle

theorem Holds.size_eq_zero (hh : h.Holds list xs q) : q.size = 0 ↔ xs = [] := by
  rw [← UInt64.toNat_inj,hh.size]
  exact List.length_eq_zero_iff

theorem Holds.size_eq_one (hh : h.Holds list xs q) : q.size = 1 ↔ xs.length = 1 := by
  rw [← UInt64.toNat_inj,hh.size]
  rfl

theorem createQrList_holds (h : QrHeap ε) (list : Address) (firstElement : Option (ε × Address))
    (hnode : ∀ x ∈ firstElement, x.2 ≠ 0) : ∃ q,
    (h.createQrList list firstElement).Holds list (QrDeque.create firstElement) q := by
  cases firstElement with
  | none =>
    refine ⟨⟨0,0,0⟩,?_,rfl,represents_nil 0,List.forall_mem_nil _⟩
    simp [createQrList]
  | some x =>
    obtain ⟨e,a⟩ := x
    refine ⟨⟨a,a,1⟩,?_,rfl,represents_singleton (hnode (e,a) rfl) ?_ ?_,?_⟩
    · simp [createQrList]
    · simp [next,createQrList,createQrNode]
    · simp [prev,createQrList,createQrNode]
    · simp [QrDeque.create,createQrList,createQrNode]

theorem createQrList_same (h : QrHeap ε) (list : Address) (firstElement : Option (ε × Address)) :
    h.Same (h.createQrList list firstElement) list (madeNodes firstElement []) := by
  cases firstElement with
  | none => exact ⟨fun _ _ => rfl,fun l hl => Function.update_of_ne hl ..⟩
  | some x =>
    refine ⟨fun b hb => Function.update_of_ne ?_ ..,fun l hl => Function.update_of_ne hl ..⟩
    simpa [madeNodes] using hb

theorem addFront_nil (hh : h.Holds list [] q) (ha : a ≠ 0) :
    ∃ h' q', h.qrListAddFront list e a = some h' ∧ h'.Holds list [(a,e)] q' ∧
      h.Same h' list [a] := by
  have hzero : q.size = 0 := hh.size_eq_zero.2 rfl
  refine ⟨⟨Function.update h.nodes a (some ⟨0,0,22401,e⟩),
    Function.update h.lists list (some ⟨a,a,1⟩)⟩,⟨a,a,1⟩,?_,?_,?_⟩
  · simp [qrListAddFront,storeList,createQrNode,hh.list_eq,hzero]
  · refine ⟨by simp,rfl,represents_singleton ha ?_ ?_,?_⟩
    · simp [next]
    · simp [prev]
    · simp
  · refine ⟨fun b hb => ?_,fun l hl => Function.update_of_ne hl ..⟩
    exact Function.update_of_ne (by simpa using hb) ..

theorem Holds.fresh (hh : h.Holds list xs q) (hfresh : h.nodes a = none) :
    a ∉ xs.map Prod.fst := by
  intro hmem
  obtain ⟨x,hx,rfl⟩ := List.mem_map.1 hmem
  obtain ⟨n,hn,_⟩ := hh.elements x hx
  rw [hfresh] at hn
  cases hn

theorem addFront_cons (hh : h.Holds list (x :: xs) q) (ha : a ≠ 0) (hfresh : h.nodes a = none) :
    ∃ h' q', h.qrListAddFront list e a = some h' ∧ h'.Holds list ((a,e) :: x :: xs) q' ∧
      h.Same h' list (a :: (x :: xs).map Prod.fst) := by
  obtain ⟨n,hn,hx⟩ := hh.elements x List.mem_cons_self
  have hhead : q.head = x.1 := hh.linked.head_eq
  have hsize : ¬ q.size = 0 := fun h0 => by simpa using hh.size_eq_zero.1 h0
  have hnew : a ∉ (x :: xs).map Prod.fst := hh.fresh hfresh
  have hxa : x.1 ≠ a := fun heq => hnew (by simp [heq])
  have hax : a ≠ x.1 := hxa.symm
  obtain ⟨h',hh'⟩ : ∃ h', h' = (⟨Function.update (Function.update h.nodes a
    (some ⟨q.head,0,22401,e⟩)) x.1 (some { n with prev := a }),
    Function.update h.lists list (some ⟨a,q.tail,q.size+1⟩)⟩ : QrHeap ε) := ⟨_,rfl⟩
  have hother : ∀ b, b ≠ a → b ≠ x.1 → h'.nodes b = h.nodes b := by
    intro b hba hbx
    simp [hh',hba,hbx]
  have hxs : ∀ b ∈ xs.map Prod.fst, h'.nodes b = h.nodes b := by
    intro b hb
    have hnodup := hh.linked.nodup
    simp only [List.map_cons,List.nodup_cons,List.mem_cons,not_or] at hnodup hnew
    exact hother b (fun heq => hnew.2 (heq ▸ hb)) fun heq => hnodup.2.1 (heq ▸ hb)
  have hnx : h'.next x.1 = h.next x.1 := by simp [next,hh',hn]
  have hlinked : DoublyLinked.Represents h'.next h'.prev 0 a q.tail
      (((a,e) :: x :: xs).map Prod.fst) := by
    refine hh.linked.push_front ?_ ?_ ?_ ?_ ?_ ?_
    · exact fun hmem => (List.mem_cons.1 hmem).elim ha hnew
    · simp [next,hh',hax]
    · simp [prev,hh',hax]
    · refine List.forall_mem_cons.2 ⟨hnx,fun b hb => ?_⟩
      rw [next,next,hxs b hb]
    · simp [prev,hh']
    · intro b hb
      rw [prev,prev,hxs b hb]
  refine ⟨h',⟨a,q.tail,q.size+1⟩,?_,⟨?_,?_,hlinked,?_⟩,?_,?_⟩
  · simp [qrListAddFront,storeList,storeNode,createQrNode,hh.list_eq,hsize,hhead,hh',hxa,hn]
  · simp [hh']
  · have hlt := length_lt hlinked.nodup
    rw [List.length_map,List.length_cons] at hlt
    rw [UInt64.toNat_add,hh.size,List.length_cons]
    exact Nat.mod_eq_of_lt hlt
  · refine List.forall_mem_cons.2 ⟨⟨⟨q.head,0,22401,e⟩,?_,rfl⟩,List.forall_mem_cons.2
      ⟨⟨{ n with prev := a },?_,hx⟩,fun y hy => ?_⟩⟩
    · simp [hh',hax]
    · simp [hh']
    · rw [hxs y.1 (List.mem_map_of_mem hy)]
      exact hh.elements y (List.mem_cons_of_mem x hy)
  · intro b hb
    simp only [List.map_cons,List.mem_cons,not_or] at hb
    exact hother b hb.1 hb.2.1
  · intro l hl
    simp [hh',hl]

theorem Holds.size_sub (hh : h.Holds list xs q) (hne : xs ≠ []) :
    (q.size-1).toNat = xs.length-1 := by
  have hpos := List.length_pos_iff.2 hne
  rw [← hh.size] at hpos
  have hle : (1 : UInt64) ≤ q.size := UInt64.le_iff_toNat_le.2 hpos
  rw [UInt64.toNat_sub_of_le _ _ hle,hh.size]
  rfl

theorem same_refl (h : QrHeap ε) (list : Address) (nodes : List Address) :
    h.Same h list nodes := ⟨fun _ _ => rfl,fun _ _ => rfl⟩

theorem pop_singleton (hh : h.Holds list [x] q) :
    ∃ h' q', h.qrListPopFront list = some (x.1,h') ∧ h.qrListPopBack list = some (x.1,h') ∧
      h'.Holds list [] q' ∧ h.Same h' list [x.1] := by
  have hsize : q.size = 1 := hh.size_eq_one.2 rfl
  have htail : q.tail = x.1 := hh.linked.tail_eq
  refine ⟨⟨h.nodes,Function.update h.lists list (some ⟨0,0,0⟩)⟩,⟨0,0,0⟩,?_,?_,?_,?_⟩
  · simp [qrListPopFront,storeList,hh.list_eq,hsize,htail]
  · simp [qrListPopBack,storeList,hh.list_eq,hsize,htail]
  · exact ⟨by simp,rfl,represents_nil 0,List.forall_mem_nil _⟩
  · exact ⟨fun _ _ => rfl,fun l hl => Function.update_of_ne hl ..⟩

theorem popFront_cons (hh : h.Holds list (x :: y :: xs) q) :
    ∃ h' q', h.qrListPopFront list = some (x.1,h') ∧ h'.Holds list (y :: xs) q' ∧
      h.Same h' list ((x :: y :: xs).map Prod.fst) := by
  obtain ⟨n,hn,_⟩ := hh.elements x List.mem_cons_self
  obtain ⟨n',hn',hy⟩ := hh.elements y (by simp)
  have hhead : q.head = x.1 := hh.linked.head_eq
  have hnext : n.next = y.1 := by
    have hnx : h.next x.1 = y.1 := hh.linked.linked.2.1
    rwa [next,hn] at hnx
  have hzero : ¬ q.size = 0 := fun h0 => by simpa using hh.size_eq_zero.1 h0
  have hone : ¬ q.size = 1 := fun h1 => by simpa using hh.size_eq_one.1 h1
  obtain ⟨h',hh'⟩ : ∃ h', h' = (⟨Function.update h.nodes y.1 (some { n' with prev := 0 }),
    Function.update h.lists list (some ⟨y.1,q.tail,q.size-1⟩)⟩ : QrHeap ε) := ⟨_,rfl⟩
  have hother : ∀ b, b ≠ y.1 → h'.nodes b = h.nodes b := by
    intro b hb
    simp [hh',hb]
  have hxs : ∀ b ∈ xs.map Prod.fst, h'.nodes b = h.nodes b := by
    intro b hb
    have hnodup := hh.linked.nodup
    simp only [List.map_cons,List.nodup_cons] at hnodup
    exact hother b fun heq => hnodup.2.2.1 (heq ▸ hb)
  have hlinked : DoublyLinked.Represents h'.next h'.prev 0 y.1 q.tail
      ((y :: xs).map Prod.fst) := by
    have hnx : h.next x.1 = y.1 := hh.linked.linked.2.1
    rw [← hnx]
    refine hh.linked.pop_front ?_ ?_ ?_
    · refine List.forall_mem_cons.2 ⟨by simp [next,hh',hn'],fun b hb => ?_⟩
      rw [next,next,hxs b hb]
    · simp [prev,hh']
    · intro b hb
      rw [prev,prev,hxs b hb]
  refine ⟨h',⟨y.1,q.tail,q.size-1⟩,?_,⟨?_,hh.size_sub (by simp),hlinked,?_⟩,?_,?_⟩
  · simp [qrListPopFront,storeList,storeNode,hh.list_eq,hzero,hone,hhead,hn,hnext,hn',hh']
  · simp [hh']
  · refine List.forall_mem_cons.2 ⟨⟨{ n' with prev := 0 },by simp [hh'],hy⟩,fun z hz => ?_⟩
    rw [hxs z.1 (List.mem_map_of_mem hz)]
    exact hh.elements z (by simp [hz])
  · intro b hb
    simp only [List.map_cons,List.mem_cons,not_or] at hb
    exact hother b hb.2.1
  · intro l hl
    simp [hh',hl]

theorem popBack_concat (hh : h.Holds list (xs ++ [y,x]) q) :
    ∃ h' q', h.qrListPopBack list = some (x.1,h') ∧ h'.Holds list (xs ++ [y]) q' ∧
      h.Same h' list ((xs ++ [y,x]).map Prod.fst) := by
  obtain ⟨n,hn,_⟩ := hh.elements x (by simp)
  obtain ⟨n',hn',hy⟩ := hh.elements y (by simp)
  have hback : DoublyLinked.Represents h.prev h.next 0 q.tail q.head
      (x.1 :: y.1 :: (xs.map Prod.fst).reverse) := by
    have hreverse := hh.linked.reverse
    rwa [List.map_append,List.reverse_append] at hreverse
  have htail : q.tail = x.1 := hback.head_eq
  have hprev : n.prev = y.1 := by
    have hpx : h.prev x.1 = y.1 := hback.linked.2.1
    rwa [prev,hn] at hpx
  have hzero : ¬ q.size = 0 := fun h0 => by simpa using hh.size_eq_zero.1 h0
  have hone : ¬ q.size = 1 := fun h1 => by simpa using hh.size_eq_one.1 h1
  obtain ⟨h',hh'⟩ : ∃ h', h' = (⟨Function.update h.nodes y.1 (some { n' with next := 0 }),
    Function.update h.lists list (some ⟨q.head,y.1,q.size-1⟩)⟩ : QrHeap ε) := ⟨_,rfl⟩
  have hother : ∀ b, b ≠ y.1 → h'.nodes b = h.nodes b := by
    intro b hb
    simp [hh',hb]
  have hxs : ∀ b ∈ xs.map Prod.fst, h'.nodes b = h.nodes b := by
    intro b hb
    have hnodup := hback.nodup
    simp only [List.nodup_cons] at hnodup
    exact hother b fun heq => hnodup.2.2.1 (List.mem_reverse.2 (heq ▸ hb))
  have hlinked : DoublyLinked.Represents h'.next h'.prev 0 q.head y.1
      ((xs ++ [y]).map Prod.fst) := by
    have hpop : DoublyLinked.Represents h'.prev h'.next 0 (h.prev x.1) q.head
        (y.1 :: (xs.map Prod.fst).reverse) := by
      refine hback.pop_front ?_ ?_ ?_
      · refine List.forall_mem_cons.2 ⟨by simp [prev,hh',hn'],fun b hb => ?_⟩
        rw [prev,prev,hxs b (List.mem_reverse.1 hb)]
      · simp [next,hh']
      · intro b hb
        rw [next,next,hxs b (List.mem_reverse.1 hb)]
    have hreverse := hpop.reverse
    have hpx : h.prev x.1 = y.1 := hback.linked.2.1
    rw [hpx,List.reverse_cons,List.reverse_reverse] at hreverse
    rwa [List.map_append]
  refine ⟨h',⟨q.head,y.1,q.size-1⟩,?_,⟨?_,?_,?_,?_⟩,?_,?_⟩
  · simp [qrListPopBack,storeList,storeNode,hh.list_eq,hzero,hone,htail,hn,hprev,hn',hh']
  · simp [hh']
  · rw [hh.size_sub (by simp)]
    simp
  · simpa using hlinked
  · intro z hz
    rcases List.mem_append.1 hz with hz | hz
    · rw [hxs z.1 (List.mem_map_of_mem hz)]
      exact hh.elements z (List.mem_append_left _ hz)
    · obtain rfl := List.mem_singleton.1 hz
      exact ⟨{ n' with next := 0 },by simp [hh'],hy⟩
  · intro b hb
    refine hother b fun heq => hb ?_
    simp [heq]
  · intro l hl
    simp [hh',hl]

theorem qrListAt_returns (h : QrHeap ε) (i : UInt64) {l : List Address} : ∀ {a : Address}
    {pos : UInt64}, IsChain h.next 0 (· ≠ 0) a l → (∀ b ∈ l, ∃ n, h.nodes b = some n) →
    pos ≤ i → pos.toNat + l.length < 2^64 →
    ∃ s, Returns (qrListAtStep i) (.condition a (h,pos))
      (.next (l[i.toNat-pos.toNat]?.getD 0) s) := by
  induction l with
  | nil =>
    intro a pos hchain _ _ _
    cases hchain
    exact ⟨_,Reaches.single rfl,rfl⟩
  | cons b l ih =>
    intro a pos hchain hnodes hle hlt
    cases hchain with | cons hb hl =>
    obtain ⟨⟨n,hn⟩,hrest⟩ := List.forall_mem_cons.1 hnodes
    have hcond : qrListAtStep i (.condition b (h,pos)) = some (.body b (h,pos)) := by
      simp [qrListAtStep,whileQrList,hb]
    by_cases hpos : pos = i
    · refine ⟨(h,pos+1),Returns.of_reaches (Reaches.single hcond) ⟨Reaches.single ?_,rfl⟩⟩
      simp [qrListAtStep,whileQrList,hpos]
    · have hbody : qrListAtStep i (.body b (h,pos)) = some (.epilog b (h,pos+1)) := by
        simp [qrListAtStep,whileQrList,hpos]
      have hepilog : qrListAtStep i (.epilog b (h,pos+1)) =
          some (.condition (h.next b) (h,pos+1)) := by
        simp [qrListAtStep,whileQrList,next,hn]
      have hlt' : pos.toNat < i.toNat := by
        have hne : pos.toNat ≠ i.toNat := fun heq => hpos (UInt64.toNat_inj.1 heq)
        have := UInt64.le_iff_toNat_le.1 hle
        omega
      have hsucc : (pos+1).toNat = pos.toNat+1 := by
        rw [List.length_cons] at hlt
        rw [UInt64.toNat_add]
        exact Nat.mod_eq_of_lt (by rw [UInt64.toNat_one]; omega)
      have hle' : pos+1 ≤ i := by
        rw [UInt64.le_iff_toNat_le,hsucc]
        exact hlt'
      obtain ⟨s,hs⟩ := ih hl hrest hle' (by rw [hsucc]; rw [List.length_cons] at hlt; omega)
      refine ⟨s,Returns.of_reaches (.head hcond (.head hbody (.single hepilog))) ?_⟩
      have hidx : i.toNat-pos.toNat = i.toNat-(pos+1).toNat+1 := by rw [hsucc]; omega
      rw [hidx,List.getElem?_cons_succ]
      exact hs

theorem qrListAt_holds (hh : h.Holds list xs q) (i : UInt64) :
    h.QrListAt list i (xs.addressAt i.toNat) := by
  have hnodes : ∀ b ∈ xs.map Prod.fst, ∃ n, h.nodes b = some n := by
    intro b hb
    obtain ⟨x,hx,rfl⟩ := List.mem_map.1 hb
    obtain ⟨n,hn,_⟩ := hh.elements x hx
    exact ⟨n,hn⟩
  have hlt : (0 : UInt64).toNat + (xs.map Prod.fst).length < 2^64 := by
    rw [UInt64.toNat_zero,Nat.zero_add]
    exact length_lt hh.linked.nodup
  obtain ⟨s,hs⟩ := qrListAt_returns h i hh.linked.next_chain hnodes (UInt64.zero_le) hlt
  refine ⟨q,s,hh.list_eq,?_⟩
  rw [UInt64.toNat_zero,Nat.sub_zero,List.getElem?_map] at hs
  exact hs

theorem Same.mono {nodes nodes' : List Address} (hsame : h.Same h' list nodes)
    (hsub : nodes ⊆ nodes') : h.Same h' list nodes' :=
  ⟨fun b hb => hsame.1 b fun hmem => hb (hsub hmem),hsame.2⟩

theorem Same.trans {h'' : QrHeap ε} {nodes : List Address} (hsame : h.Same h' list nodes)
    (hsame' : h'.Same h'' list nodes) : h.Same h'' list nodes :=
  ⟨fun b hb => (hsame'.1 b hb).trans (hsame.1 b hb),
    fun l hl => (hsame'.2 l hl).trans (hsame.2 l hl)⟩

theorem popFront_holds (hh : h.Holds list xs q) : ∃ h' q',
    h.qrListPopFront list = some (xs.front,h') ∧ h'.Holds list xs.tail q' ∧
      h.Same h' list (xs.map Prod.fst) := by
  rcases xs with _ | ⟨x,_ | ⟨y,xs⟩⟩
  · have hzero : q.size = 0 := hh.size_eq_zero.2 rfl
    refine ⟨h,q,?_,hh,same_refl ..⟩
    simp [qrListPopFront,hh.list_eq,hzero,QrDeque.front]
  · obtain ⟨h',q',hpop,_,hh',hsame⟩ := pop_singleton hh
    exact ⟨h',q',hpop,hh',hsame⟩
  · exact popFront_cons hh

theorem popBack_holds (hh : h.Holds list xs q) : ∃ h' q',
    h.qrListPopBack list = some (xs.back,h') ∧ h'.Holds list xs.dropLast q' ∧
      h.Same h' list (xs.map Prod.fst) := by
  rcases List.eq_nil_or_concat xs with rfl | ⟨xs,x,rfl⟩
  · have hzero : q.size = 0 := hh.size_eq_zero.2 rfl
    refine ⟨h,q,?_,hh,same_refl ..⟩
    simp [qrListPopBack,hh.list_eq,hzero,QrDeque.back]
  rcases List.eq_nil_or_concat xs with rfl | ⟨xs,y,rfl⟩
  · obtain ⟨h',q',_,hpop,hh',hsame⟩ := pop_singleton hh
    exact ⟨h',q',hpop,hh',hsame⟩
  · have hxs : (xs.concat y).concat x = xs ++ [y,x] := by simp
    rw [hxs] at hh ⊢
    obtain ⟨h',q',hpop,hh',hsame⟩ := popBack_concat hh
    refine ⟨h',q',?_,?_,hsame⟩
    · rw [hpop]
      simp [QrDeque.back]
    · rw [List.dropLast_append_of_ne_nil (by simp)]
      exact hh'

theorem getFront_holds (hh : h.Holds list xs q) : h.qrListGetFront list = some xs.front := by
  cases xs with
  | nil =>
    have hzero : q.size = 0 := hh.size_eq_zero.2 rfl
    simp [qrListGetFront,hh.list_eq,hzero,QrDeque.front]
  | cons x xs =>
    have hsize : ¬ q.size = 0 := fun h0 => by simpa using hh.size_eq_zero.1 h0
    have hhead : q.head = x.1 := hh.linked.head_eq
    simp [qrListGetFront,hh.list_eq,hsize,hhead,QrDeque.front]

theorem getBack_holds (hh : h.Holds list xs q) : h.qrListGetBack list = some xs.back := by
  rcases List.eq_nil_or_concat xs with rfl | ⟨xs,x,rfl⟩
  · have hzero : q.size = 0 := hh.size_eq_zero.2 rfl
    simp [qrListGetBack,hh.list_eq,hzero,QrDeque.back]
  · have hsize : ¬ q.size = 0 := fun h0 => by simpa using hh.size_eq_zero.1 h0
    have htail : q.tail = x.1 := by
      rw [hh.linked.tail_eq]
      simp
    simp [qrListGetBack,hh.list_eq,hsize,htail,QrDeque.back]

theorem Holds.exec (hh : h.Holds list xs q) (c : QrCall ε) (hfresh : c.Fresh h) : ∃ h' q',
    c.Exec list h (xs.call c).1 h' ∧ h'.Holds list (xs.call c).2 q' ∧
      h.Same h' list (madeNodes none [c] ++ xs.map Prod.fst) := by
  have hnone : xs.map Prod.fst ⊆ madeNodes none [c] ++ xs.map Prod.fst :=
    List.subset_append_right ..
  cases c with
  | addFront e a =>
    obtain ⟨ha,hfresh⟩ := hfresh
    cases xs with
    | nil =>
      obtain ⟨h',q',hadd,hh',hsame⟩ := addFront_nil hh ha
      exact ⟨h',q',⟨rfl,hadd⟩,hh',hsame⟩
    | cons x xs =>
      obtain ⟨h',q',hadd,hh',hsame⟩ := addFront_cons hh ha hfresh
      exact ⟨h',q',⟨rfl,hadd⟩,hh',hsame⟩
  | popFront =>
    obtain ⟨h',q',hpop,hh',hsame⟩ := popFront_holds hh
    exact ⟨h',q',⟨_,rfl,hpop⟩,hh',hsame.mono hnone⟩
  | popBack =>
    obtain ⟨h',q',hpop,hh',hsame⟩ := popBack_holds hh
    exact ⟨h',q',⟨_,rfl,hpop⟩,hh',hsame.mono hnone⟩
  | getFront => exact ⟨h,q,⟨_,rfl,getFront_holds hh,rfl⟩,hh,same_refl ..⟩
  | getBack => exact ⟨h,q,⟨_,rfl,getBack_holds hh,rfl⟩,hh,same_refl ..⟩
  | «at» i => exact ⟨h,q,⟨_,rfl,qrListAt_holds hh i,rfl⟩,hh,same_refl ..⟩

theorem exec_unique {c : QrCall ε} {ret ret' : Option Address} {h'' : QrHeap ε}
    (he : c.Exec list h ret h') (he' : c.Exec list h ret' h'') : ret = ret' ∧ h' = h'' := by
  cases c with
  | addFront e a =>
    obtain ⟨rfl,he⟩ := he
    obtain ⟨rfl,he'⟩ := he'
    exact ⟨rfl,Option.some.inj (he.symm.trans he')⟩
  | popFront | popBack =>
    obtain ⟨p,rfl,he⟩ := he
    obtain ⟨p',rfl,he'⟩ := he'
    obtain ⟨rfl,rfl⟩ := Prod.mk.inj (Option.some.inj (he.symm.trans he'))
    exact ⟨rfl,rfl⟩
  | getFront | getBack =>
    obtain ⟨p,rfl,he,rfl⟩ := he
    obtain ⟨p',rfl,he',rfl⟩ := he'
    exact ⟨he.symm.trans he',rfl⟩
  | «at» i =>
    obtain ⟨p,rfl,⟨q,s,hq,hs⟩,rfl⟩ := he
    obtain ⟨p',rfl,⟨q',s',hq',hs'⟩,rfl⟩ := he'
    obtain rfl := Option.some.inj (hq.symm.trans hq')
    have hret := hs.unique hs'
    injection hret with hp _
    exact ⟨congrArg some hp,rfl⟩

end QrHeap

theorem QrDeque.calls_snoc (xs : QrDeque ε) (cs : List (QrCall ε)) (c : QrCall ε) :
    xs.calls (cs ++ [c]) = ((xs.calls cs).1 ++ [((xs.calls cs).2.call c).1],
      ((xs.calls cs).2.call c).2) := by
  rw [calls,List.foldl_append]
  rfl

theorem QrDeque.call_subset (xs : QrDeque ε) (c : QrCall ε) {a : Address}
    (ha : a ∈ (xs.call c).2.map Prod.fst) : a ∈ madeNodes none [c] ∨ a ∈ xs.map Prod.fst := by
  cases c with
  | addFront e b =>
    rcases List.mem_cons.1 ha with rfl | ha
    · exact .inl List.mem_cons_self
    · exact .inr ha
  | popFront => exact .inr (List.map_subset _ (List.tail_subset xs) ha)
  | popBack => exact .inr (List.map_subset _ (List.dropLast_subset xs) ha)
  | getFront | getBack | «at» _ => exact .inr ha

theorem madeNodes_snoc (firstElement : Option (ε × Address)) (cs : List (QrCall ε))
    (c : QrCall ε) :
    madeNodes firstElement (cs ++ [c]) = madeNodes firstElement cs ++ madeNodes none [c] := by
  rw [madeNodes,List.filterMap_append,← List.append_assoc]
  rfl

section
variable {h₀ h : QrHeap ε} {list : Address} {firstElement : Option (ε × Address)}
  {cs : List (QrCall ε)} {rets : List (Option Address)}

/-- What holds behind every sequence of calls. -/
theorem QrRun.holds (hnode : ∀ x ∈ firstElement, x.2 ≠ 0)
    (hrun : QrRun list (h₀.createQrList list firstElement) cs rets h) :
    rets = ((QrDeque.create firstElement).calls cs).1 ∧
    (∃ q, h.Holds list ((QrDeque.create firstElement).calls cs).2 q) ∧
    h₀.Same h list (madeNodes firstElement cs) ∧
    (((QrDeque.create firstElement).calls cs).2.map Prod.fst) ⊆ madeNodes firstElement cs := by
  induction hrun with
  | nil =>
    refine ⟨rfl,QrHeap.createQrList_holds h₀ list firstElement hnode,
      QrHeap.createQrList_same h₀ list firstElement,?_⟩
    cases firstElement <;> exact List.Subset.refl _
  | @snoc cs rets h h' c ret _ hfresh hexec ih =>
    obtain ⟨rfl,⟨q,hh⟩,hsame,hsub⟩ := ih
    obtain ⟨h₁,q',hexec',hh',hsame'⟩ := hh.exec c hfresh
    obtain ⟨rfl,rfl⟩ := QrHeap.exec_unique hexec hexec'
    rw [QrDeque.calls_snoc,madeNodes_snoc]
    refine ⟨rfl,⟨q',hh'⟩,?_,?_⟩
    · have hnodes := List.append_subset.2
        ⟨List.subset_append_right (madeNodes firstElement cs) (madeNodes none [c]),
          List.subset_append_of_subset_left _ hsub⟩
      exact (hsame.mono (List.subset_append_left ..)).trans (hsame'.mono hnodes)
    · intro a ha
      rcases QrDeque.call_subset _ c ha with ha | ha
      · exact List.mem_append_right _ ha
      · exact List.mem_append_left _ (hsub ha)

/-- A list made by `createQrList` represents a deque behind every sequence of calls, which return
what they return on the deque. Nodes that were not made for it stay as they are, as do other lists,
and every further call has a result. -/
theorem qrList_deque (hnode : ∀ x ∈ firstElement, x.2 ≠ 0)
    (hrun : QrRun list (h₀.createQrList list firstElement) cs rets h) :
    rets = ((QrDeque.create firstElement).calls cs).1 ∧
    (∃ q, h.Represents list ((QrDeque.create firstElement).calls cs).2 q) ∧
    (∀ a, a ∉ madeNodes firstElement cs → h.nodes a = h₀.nodes a) ∧
    (∀ l, l ≠ list → h.lists l = h₀.lists l) ∧
    ∀ c : QrCall ε, c.Fresh h → ∃ ret h', c.Exec list h ret h' := by
  obtain ⟨hrets,⟨q,hh⟩,⟨hnodes,hlists⟩,_⟩ := hrun.holds hnode
  refine ⟨hrets,⟨q,hh.represents⟩,hnodes,hlists,fun c hfresh => ?_⟩
  obtain ⟨h',_,hexec,_⟩ := hh.exec c hfresh
  exact ⟨_,h',hexec⟩

end

def emptyQrHeap : QrHeap ε := ⟨fun _ => none,fun _ => none⟩

theorem qrList_deque_two : ∃ h : QrHeap ℕ,
    QrRun 8 (emptyQrHeap.createQrList 8 (some (7,16))) [.addFront 9 32,.popBack]
      [none,some 16] h ∧ ∃ q, h.Represents 8 [(32,9)] q := by
  have hnode : ∀ x ∈ some (7,(16 : Address)), x.2 ≠ 0 := by simp
  have hrun : QrRun 8 ((emptyQrHeap (ε := ℕ)).createQrList 8 (some (7,16))) [] [] _ := .nil
  obtain ⟨_,_,hnodes,_,hexec⟩ := qrList_deque hnode hrun
  have hfresh : (QrCall.addFront 9 32).Fresh
      (emptyQrHeap.createQrList 8 (some (7,(16 : Address)))) := ⟨by decide,hnodes 32 (by decide)⟩
  obtain ⟨ret,h₁,hadd⟩ := hexec (.addFront 9 32) hfresh
  have hrun₁ := hrun.snoc hfresh hadd
  obtain ⟨_,_,_,_,hexec₁⟩ := qrList_deque hnode hrun₁
  obtain ⟨ret',h₂,hpop⟩ := hexec₁ .popBack trivial
  have hrun₂ := hrun₁.snoc (c := .popBack) trivial hpop
  obtain ⟨hrets,hq,_⟩ := qrList_deque hnode hrun₂
  rw [hrets] at hrun₂
  exact ⟨h₂,hrun₂,hq⟩

end GraphQueryCompiler
