import Mathlib.Data.List.TakeWhile
import Mathlib.Tactic

/-!
# Decimal text

The numeric conversions of the C++ library in base ten: they skip white space, read a sign and as
many digits as there are, and reject what is out of range. They read back what `std::to_string`
prints.
-/

namespace DecimalText

def isSpace (c : Char) : Bool := c ∈ [' ','\t','\n','\x0b','\x0c','\r']

def readDigits (l : List Char) : Option ℕ :=
  if l.takeWhile Char.isDigit = [] then none
  else some (Nat.ofDigitChars 10 (l.takeWhile Char.isDigit) 0)

def readNumber (s : String) : Option (Bool × ℕ) :=
  match s.toList.dropWhile isSpace with
  | '-' :: l => (readDigits l).map fun n => (true,n)
  | '+' :: l => (readDigits l).map fun n => (false,n)
  | l => (readDigits l).map fun n => (false,n)

def signed (x : Bool × ℕ) : ℤ := if x.1 then -x.2 else x.2

def stoi (s : String) : Option Int32 :=
  (readNumber s).bind fun x =>
    if -2^31 ≤ signed x ∧ signed x < 2^31 then some (Int32.ofInt (signed x)) else none

/-- `std::stoull`, which takes a minus as the negation of 64-bit words. -/
def stoull (s : String) : Option UInt64 :=
  (readNumber s).bind fun x =>
    if x.2 < 2^64 then some (if x.1 then -UInt64.ofNat x.2 else UInt64.ofNat x.2) else none

section Text
variable {n : ℕ}

theorem toList_toString (n : ℕ) : (toString n).toList = Nat.toDigits 10 n := by
  rw [Nat.toString_eq_repr,Nat.toList_repr]

theorem isDigit_of_mem_digits {c : Char} (h : c ∈ Nat.toDigits 10 n) : c.isDigit = true :=
  Nat.isDigit_of_mem_toDigits (by decide) (by decide) h

theorem readDigits_toDigits : readDigits (Nat.toDigits 10 n) = some n := by
  have hall : (Nat.toDigits 10 n).takeWhile Char.isDigit = Nat.toDigits 10 n :=
    List.takeWhile_eq_self_iff.2 fun c hc => isDigit_of_mem_digits hc
  rw [readDigits,hall,if_neg Nat.toDigits_ne_nil,Nat.ofDigitChars_ten_toDigits]

theorem digit_cases {c : Char} (h : c.isDigit = true) : isSpace c = false ∧ c ≠ '-' ∧ c ≠ '+' := by
  refine ⟨?_,?_,?_⟩
  · rw [← Bool.not_eq_true]
    intro hspace
    simp only [isSpace,List.mem_cons,List.not_mem_nil,or_false,decide_eq_true_eq] at hspace
    rcases hspace with rfl | rfl | rfl | rfl | rfl | rfl <;> exact absurd h (by decide)
  · rintro rfl
    exact absurd h (by decide)
  · rintro rfl
    exact absurd h (by decide)

theorem readNumber_toString (n : ℕ) : readNumber (toString n) = some (false,n) := by
  rw [readNumber,toList_toString]
  obtain ⟨c,l,hl⟩ := List.exists_cons_of_ne_nil (Nat.toDigits_ne_nil (n := n) (b := 10))
  have hc : c.isDigit = true := isDigit_of_mem_digits (n := n) (by simp [hl])
  obtain ⟨hspace,hminus,hplus⟩ := digit_cases hc
  rw [hl,List.dropWhile_cons,if_neg (by simp [hspace]),← hl]
  split
  · rename_i heq
    exact absurd (List.cons.inj (hl.symm.trans heq)).1 hminus
  · rename_i heq
    exact absurd (List.cons.inj (hl.symm.trans heq)).1 hplus
  · rw [readDigits_toDigits]
    rfl

theorem readNumber_toString_neg (n : ℕ) : readNumber ("-" ++ toString n) = some (true,n) := by
  have hminus : ("-" ++ toString n).toList.dropWhile isSpace = '-' :: Nat.toDigits 10 n := by
    rw [String.toList_append,toList_toString]
    rfl
  rw [readNumber,hminus]
  simp only [readDigits_toDigits,Option.map_some]

theorem readNumber_toString_int (i : ℤ) : ∃ x, readNumber (toString i) = some x ∧ signed x = i := by
  cases i with
  | ofNat m => exact ⟨_,readNumber_toString m,rfl⟩
  | negSucc m => exact ⟨_,readNumber_toString_neg (m+1),rfl⟩

theorem stoi_toString (i : Int32) : stoi (toString i.toInt) = some i := by
  have hrange : -2^31 ≤ i.toInt ∧ i.toInt < 2^31 := ⟨i.le_toInt,i.toInt_lt⟩
  obtain ⟨x,hx,hi⟩ := readNumber_toString_int i.toInt
  rw [stoi,hx,Option.bind_some,hi,if_pos hrange,Int32.ofInt_toInt]

theorem stoull_toString (n : UInt64) : stoull (toString n.toNat) = some n := by
  rw [stoull,readNumber_toString,Option.bind_some,if_pos n.toNat_lt]
  simp

end Text

end DecimalText
