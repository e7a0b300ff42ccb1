import Mathlib.Data.List.Flatten
import Mathlib.Data.List.TakeWhile
import Mathlib.Tactic.Common

/-!
# The loop of an outer join

The loop goes over the candidates `a` for one left-hand element and hands on each of the
`m a` matches of a candidate with flag 0. As long as nothing has matched, a candidate
without a match is handed on itself, with flag 1.
-/

namespace OuterLoop
variable {α : Type*} {m : α → ℕ}

def outerLoop (m : α → ℕ) : ℕ → List α → List (α × ℕ)
  | _, [] => []
  | d, a :: l =>
    List.replicate (m a) (a,0) ++ ((if m a = 0 ∧ d = 1 then [(a,1)] else []) ++
      outerLoop m (if m a = 0 then d else 0) l)

theorem filter_zero (l : List α) : ∀ d, ((outerLoop m d l).filter fun x => x.2 = 0) =
    l.flatMap fun a => List.replicate (m a) (a,0) := by
  induction l with
  | nil => exact fun _ => rfl
  | cons a l ih =>
    intro d
    have hreject : ((if m a = 0 ∧ d = 1 then [(a,1)] else []).filter fun x : α × ℕ => x.2 = 0) =
        [] := by
      split_ifs <;> simp
    simp only [outerLoop,List.filter_append,ih,hreject,List.nil_append,List.flatMap_cons]
    simp

theorem length_filter_one (l : List α) : ∀ d, ((outerLoop m d l).filter fun x => x.2 = 1).length =
    if d = 1 then (l.takeWhile fun a => m a = 0).length else 0 := by
  induction l with
  | nil => intro d; simp [outerLoop]
  | cons a l ih =>
    intro d
    simp only [outerLoop,List.filter_append,List.length_append,ih]
    by_cases ha : m a = 0
    · by_cases hd : d = 1
      · simp [ha,hd,Nat.add_comm]
      · simp [ha,hd]
    · simp [ha]

theorem flag_le_one (l : List α) : ∀ d, ∀ x ∈ outerLoop m d l, x.2 = 0 ∨ x.2 = 1 := by
  induction l with
  | nil => simp [outerLoop]
  | cons a l ih =>
    intro d x hx
    simp only [outerLoop,List.mem_append] at hx
    rcases hx with hx | hx | hx
    · rw [List.eq_of_mem_replicate hx]
      exact Or.inl rfl
    · rw [List.mem_ite_nil_right,List.mem_singleton] at hx
      rw [hx.2]
      exact Or.inr rfl
    · exact ih _ x hx

theorem takeWhile_length_iff (l : List α) :
    (l.takeWhile fun a => m a = 0).length = (if ∀ a ∈ l, m a = 0 then 1 else 0) ↔
      ∃ a l', l = a :: l' ∧ (m a ≠ 0 ∨ l' = []) := by
  cases l with
  | nil => simp
  | cons a l =>
    by_cases ha : m a = 0
    · rw [List.takeWhile_cons_of_pos (by simpa using ha),List.length_cons]
      by_cases hall : ∀ b ∈ l, m b = 0
      · have htake : (l.takeWhile fun a => m a = 0) = l :=
          List.takeWhile_eq_self_iff.2 (by simpa using hall)
        have hall' : ∀ b ∈ a :: l, m b = 0 := List.forall_mem_cons.2 ⟨ha,hall⟩
        rw [htake,if_pos hall']
        simp [ha]
      · have hne : l ≠ [] := by
          rintro rfl
          simp at hall
        rw [if_neg fun h => hall (List.forall_mem_cons.1 h).2]
        simp [ha,hne]
    · simp [ha]

end OuterLoop
