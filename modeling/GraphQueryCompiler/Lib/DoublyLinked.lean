import GraphQueryCompiler.Lib.LinkedChain
import Mathlib.Data.List.Nodup
import Mathlib.Tactic.Common

/-!
# Doubly linked lists

A list of cells is linked by `next` in its order and by `prev` in the reverse one. The lemmas say
which cells an operation at an end of the list may change, and how; those for the back are the ones
for the front of the reversed list.
-/

namespace DoublyLinked
open LinkedChain

variable {α : Type*}

def Linked (next prev : α → α) (after : α) : α → List α → Prop
  | _, [] => True
  | before, a :: l => prev a = before ∧ next a = l.headD after ∧ Linked next prev after a l

structure Represents (next prev : α → α) (null head tail : α) (l : List α) : Prop where
  linked : Linked next prev null null l
  head_eq : head = l.headD null
  tail_eq : tail = l.getLastD null
  nodup : (null :: l).Nodup

variable {next prev next' prev' : α → α} {null after before head tail a b : α} {l l' : List α}

theorem headD_append (l l' : List α) (a : α) : (l ++ l').headD a = l.headD (l'.headD a) := by
  cases l <;> rfl

theorem linked_append : Linked next prev after before (l ++ l') ↔
    Linked next prev (l'.headD after) before l ∧ Linked next prev after (l.getLastD before) l' := by
  induction l generalizing before with
  | nil => simp [Linked]
  | cons a l ih =>
    rw [List.cons_append,Linked,Linked,headD_append,ih,List.getLastD_cons]
    tauto

theorem linked_congr (hnext : ∀ a ∈ l, next' a = next a) (hprev : ∀ a ∈ l, prev' a = prev a)
    (h : Linked next prev after before l) : Linked next' prev' after before l := by
  induction l generalizing before with
  | nil => trivial
  | cons a l ih =>
    rw [List.forall_mem_cons] at hnext hprev
    obtain ⟨hp,hn,hl⟩ := h
    exact ⟨hprev.1.trans hp,hnext.1.trans hn,ih hnext.2 hprev.2 hl⟩

theorem Linked.reverse (h : Linked next prev after before l) :
    Linked prev next before after l.reverse := by
  induction l generalizing before with
  | nil => trivial
  | cons a l ih =>
    obtain ⟨hp,hn,hl⟩ := h
    rw [List.reverse_cons,linked_append]
    refine ⟨ih hl,?_,hp,trivial⟩
    rw [hn]
    cases l <;> simp

theorem Represents.reverse (h : Represents next prev null head tail l) :
    Represents prev next null tail head l.reverse where
  linked := h.linked.reverse
  head_eq := by
    rw [h.tail_eq,List.getLastD_eq_getLast?,List.headD_eq_head?_getD,List.head?_reverse]
  tail_eq := by
    rw [h.head_eq]
    cases l <;> simp
  nodup := by
    have hnodup := h.nodup
    rw [List.nodup_cons] at hnodup ⊢
    simpa using hnodup

theorem Represents.next_chain (h : Represents next prev null head tail l) :
    IsChain next null (· ≠ null) head l := by
  have hchain : ∀ before, null ∉ l → Linked next prev null before l →
      IsChain next null (· ≠ null) (l.headD null) l := by
    clear h
    induction l with
    | nil => exact fun _ _ _ => .nil
    | cons a l ih =>
      rintro before hnull ⟨_,hn,hl⟩
      rw [List.mem_cons,not_or] at hnull
      have hrest := ih a hnull.2 hl
      rw [← hn] at hrest
      exact .cons (Ne.symm hnull.1) hrest
  rw [h.head_eq]
  exact hchain null (List.nodup_cons.1 h.nodup).1 h.linked

theorem Represents.prev_chain (h : Represents next prev null head tail l) :
    IsChain prev null (· ≠ null) tail l.reverse := h.reverse.next_chain

theorem Represents.head_null (h : Represents next prev null head tail l) :
    head = null ↔ l = [] := by
  rw [h.head_eq]
  cases l with
  | nil => simp
  | cons a l =>
    have hne : null ≠ a := fun heq => (List.nodup_cons.1 h.nodup).1 (heq ▸ List.mem_cons_self)
    simpa using hne.symm

theorem Represents.tail_null (h : Represents next prev null head tail l) :
    tail = null ↔ l = [] := by
  rw [h.reverse.head_null,List.reverse_eq_nil_iff]

theorem represents_nil (null : α) : Represents next prev null null null [] :=
  ⟨trivial,rfl,rfl,List.nodup_singleton null⟩

theorem represents_singleton (ha : a ≠ null) (hn : next a = null) (hp : prev a = null) :
    Represents next prev null a a [a] :=
  ⟨⟨hp,hn,trivial⟩,rfl,rfl,by simp [ha.symm]⟩

theorem Represents.push_front (h : Represents next prev null head tail (b :: l))
    (ha : a ∉ null :: b :: l) (hna : next' a = head) (hpa : prev' a = null)
    (hnext : ∀ c ∈ b :: l, next' c = next c) (hb : prev' b = a)
    (hprev : ∀ c ∈ l, prev' c = prev c) :
    Represents next' prev' null a tail (a :: b :: l) := by
  obtain ⟨_,hn,hl⟩ := h.linked
  rw [List.forall_mem_cons] at hnext
  refine ⟨⟨hpa,?_,hb,hnext.1.trans hn,linked_congr hnext.2 hprev hl⟩,rfl,?_,?_⟩
  · rw [hna,h.head_eq]
  · rw [h.tail_eq,List.getLastD_cons,List.getLastD_cons,List.getLastD_cons]
  · have hnodup := h.nodup
    rw [List.mem_cons,not_or] at ha
    rw [List.nodup_cons] at hnodup
    rw [List.nodup_cons,List.mem_cons,not_or,List.nodup_cons]
    exact ⟨⟨Ne.symm ha.1,hnodup.1⟩,ha.2,hnodup.2⟩

theorem Represents.pop_front (h : Represents next prev null head tail (a :: b :: l))
    (hnext : ∀ c ∈ b :: l, next' c = next c) (hb : prev' b = null)
    (hprev : ∀ c ∈ l, prev' c = prev c) :
    Represents next' prev' null (next a) tail (b :: l) := by
  obtain ⟨_,hna,_,hn,hl⟩ := h.linked
  rw [List.forall_mem_cons] at hnext
  refine ⟨⟨hb,hnext.1.trans hn,linked_congr hnext.2 hprev hl⟩,hna,?_,?_⟩
  · rw [h.tail_eq,List.getLastD_cons,List.getLastD_cons,List.getLastD_cons]
  · have hnodup := h.nodup
    rw [List.nodup_cons,List.mem_cons,not_or] at hnodup
    exact List.nodup_cons.2 ⟨hnodup.1.2,(List.nodup_cons.1 hnodup.2).2⟩

end DoublyLinked
