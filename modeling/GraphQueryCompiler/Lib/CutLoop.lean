import Mathlib.Data.List.Flatten
import Mathlib.Data.List.Basic

/-!
# Loops that end early

`cutFlatMap f l` concatenates what the body `f` yields for the elements of `l`, up to and
including the first element whose body raises the flag. It is compared with the loop `g`
that goes through the whole list.
-/

namespace CutLoop
variable {α β γ : Type*} {f : α → List β × Bool} {g : α → List β}

def cutFlatMap (f : α → List β × Bool) : List α → List β
  | [] => []
  | a :: l => (f a).1 ++ if (f a).2 then [] else cutFlatMap f l

def FirstThen (flag : α → Bool) (P Q : α → Prop) : List α → Prop
  | [] => True
  | a :: l => if flag a then P a ∧ ∀ b ∈ l, Q b else FirstThen flag P Q l

theorem cutFlatMap_of_flag_false (h : ∀ a, (f a).2 = false) (l : List α) :
    cutFlatMap f l = l.flatMap fun a => (f a).1 := by
  induction l with
  | nil => rfl
  | cons a l ih => simp [cutFlatMap,h a,ih]

theorem cutFlatMap_flatMap (k : β → List γ) (l : List α) :
    cutFlatMap (fun a => ((f a).1.flatMap k,(f a).2)) l = (cutFlatMap f l).flatMap k := by
  induction l with
  | nil => rfl
  | cons a l ih =>
    simp only [cutFlatMap,List.flatMap_append,ih]
    cases (f a).2 <;> simp

theorem flatMap_eq_iff_of_sublist {g' : α → List β} (h : ∀ a, (g a).Sublist (g' a))
    (l : List α) : l.flatMap g = l.flatMap g' ↔ ∀ a ∈ l, g a = g' a := by
  induction l with
  | nil => simp
  | cons a l ih =>
    rw [List.flatMap_cons,List.flatMap_cons,List.forall_mem_cons,← ih]
    refine ⟨fun heq => ?_,fun ⟨ha,hl⟩ => by rw [ha,hl]⟩
    -- neither part can make up for what the other one lacks
    have hlen := congrArg List.length heq
    simp only [List.length_append] at hlen
    have ha := (h a).length_le
    have hsub := List.Sublist.flatMap_right l fun b _ => h b
    have hl := hsub.length_le
    exact ⟨(h a).eq_of_length (by omega),hsub.eq_of_length (by omega)⟩

theorem cutFlatMap_sublist (h : ∀ a, (f a).1.Sublist (g a)) (l : List α) :
    (cutFlatMap f l).Sublist (l.flatMap g) := by
  induction l with
  | nil => exact List.Sublist.refl _
  | cons a l ih =>
    refine (h a).append ?_
    split_ifs
    · exact List.nil_sublist _
    · exact ih

theorem cutFlatMap_eq_flatMap_iff (h : ∀ a, (f a).1.Sublist (g a))
    (hflag : ∀ a, (f a).2 = false → (f a).1 = g a) (l : List α) :
    cutFlatMap f l = l.flatMap g ↔
      FirstThen (fun a => (f a).2) (fun a => (f a).1 = g a) (fun a => g a = []) l := by
  induction l with
  | nil => simp [cutFlatMap,FirstThen]
  | cons a l ih =>
    rw [cutFlatMap,FirstThen,List.flatMap_cons]
    split_ifs with hf
    · rw [List.append_nil,← List.flatMap_eq_nil_iff]
      refine ⟨fun heq => ?_,fun ⟨ha,hl⟩ => by rw [ha,hl,List.append_nil]⟩
      have hlen := congrArg List.length heq
      have ha := (h a).length_le
      rw [List.length_append] at hlen
      exact ⟨(h a).eq_of_length (by omega),List.eq_nil_of_length_eq_zero (by omega)⟩
    · rw [hflag a (by simpa using hf),List.append_cancel_left_eq,ih]

end CutLoop
