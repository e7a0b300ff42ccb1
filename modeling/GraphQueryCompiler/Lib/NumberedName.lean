import Mathlib.Data.List.Basic
import Mathlib.Data.List.Nodup
import Mathlib.Data.List.Perm.Subperm
import Mathlib.Data.Int.Notation
import Mathlib.Tactic.Common

/-!
# Names with a number at the end

A name that ends in the decimal digits of a number determines the number, if the text in
front of the digits does not end in a digit itself. A search numbers a name until it is new.
-/

namespace NumberedName
variable {s t name : String} {used : List String} {m n : ℕ}

def Closed (s : String) : Prop := ∃ l c, s.toList = l ++ [c] ∧ c.isDigit = false

theorem Closed.append (h : Closed t) (s : String) : Closed (s ++ t) := by
  obtain ⟨l,c,ht,hc⟩ := h
  exact ⟨s.toList ++ l,c,by rw [String.toList_append,ht,List.append_assoc],hc⟩

theorem toList_append_toString : (s ++ toString n).toList = s.toList ++ Nat.toDigits 10 n := by
  rw [String.toList_append,Nat.toString_eq_repr,Nat.toList_repr]

theorem isDigit_of_mem {c : Char} (h : c ∈ Nat.toDigits 10 n) : c.isDigit = true :=
  Nat.isDigit_of_mem_toDigits (by decide) (by decide) h

theorem toDigits_inj (h : Nat.toDigits 10 m = Nat.toDigits 10 n) : m = n := by
  have hnum := congrArg (fun ds => Nat.ofDigitChars 10 ds 0) h
  simpa only [Nat.ofDigitChars_ten_toDigits] using hnum

theorem not_closed_append_toString : ¬ Closed (s ++ toString n) := by
  rintro ⟨l,c,h,hc⟩
  rw [toList_append_toString] at h
  have hlast := congrArg List.getLast? h
  rw [List.getLast?_append_of_ne_nil _ Nat.toDigits_ne_nil] at hlast
  have hmem : c ∈ Nat.toDigits 10 n := List.mem_of_getLast? (by simpa using hlast)
  rw [isDigit_of_mem hmem] at hc
  cases hc

theorem append_nil_of_closed {l r : List Char} (ht : Closed t) (hsplit : t.toList = l ++ r)
    (hr : ∀ c ∈ r, c.isDigit = true) : r = [] := by
  obtain ⟨l',c,hl',hc⟩ := ht
  rcases List.eq_nil_or_concat r with rfl | ⟨r',d,rfl⟩
  · rfl
  · rw [List.concat_eq_append] at hsplit hr ⊢
    rw [hl',← List.append_assoc] at hsplit
    obtain ⟨_,hcd⟩ := List.append_inj' hsplit rfl
    obtain rfl : c = d := by simpa using hcd
    rw [hr c (by simp)] at hc
    cases hc

theorem append_toString_inj (hs : Closed s) (ht : Closed t)
    (h : s ++ toString m = t ++ toString n) : s = t ∧ m = n := by
  have hlist := congrArg String.toList h
  rw [toList_append_toString,toList_append_toString] at hlist
  have hst : s.toList = t.toList := by
    rcases List.append_eq_append_iff.1 hlist with ⟨r,ht',hm⟩ | ⟨r,hs',hn⟩
    · have hnil := append_nil_of_closed ht ht' fun c hc =>
        isDigit_of_mem (hm ▸ List.mem_append_left _ hc)
      simp [ht',hnil]
    · have hnil := append_nil_of_closed hs hs' fun c hc =>
        isDigit_of_mem (hn ▸ List.mem_append_left _ hc)
      simp [hs',hnil]
  rw [hst] at hlist
  exact ⟨String.toList_inj.1 hst,toDigits_inj (List.append_cancel_left hlist)⟩

def candidate (name : String) : ℕ → String
  | 0 => name
  | n+1 => name ++ toString (n+1)

def search (used : List String) (name : String) : ℕ → ℕ → String
  | 0, cnt => candidate name cnt
  | fuel+1, cnt =>
    if candidate name cnt ∈ used then search used name fuel (cnt+1) else candidate name cnt

theorem search_eq (used : List String) (name : String) (fuel cnt : ℕ) :
    ∃ n, search used name fuel cnt = candidate name n := by
  induction fuel generalizing cnt with
  | zero => exact ⟨cnt,rfl⟩
  | succ fuel ih =>
    rw [search]
    split_ifs
    · exact ih (cnt+1)
    · exact ⟨cnt,rfl⟩

theorem candidate_eq_append (name : String) (n : ℕ) : ∃ t, candidate name n = name ++ t := by
  cases n with
  | zero => exact ⟨"",String.append_empty.symm⟩
  | succ n => exact ⟨_,rfl⟩

end NumberedName
