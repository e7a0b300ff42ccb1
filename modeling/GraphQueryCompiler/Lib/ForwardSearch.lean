import Mathlib.Data.List.Forall2
import Mathlib.Data.List.Infix
import Mathlib.Data.List.TakeWhile
import Mathlib.Tactic.Common

/-!
# Searches that go on where the last one ended

Keys are looked for in a list, one behind the other. Each search begins at the element at which the
one before has found its key.
-/

namespace ForwardSearch

variable {κ α : Type*} (has : κ → α → Bool)

def seek (k : κ) (l : List α) : List α := l.dropWhile fun a => !has k a

def Finds : List κ → List α → Prop
  | [], _ => True
  | k :: ks, l => seek has k l ≠ [] ∧ Finds ks (seek has k l)

instance Finds.decide : ∀ (ks : List κ) (l : List α), Decidable (Finds has ks l)
  | [], _ => inferInstanceAs (Decidable True)
  | k :: ks, l =>
    have : Decidable (seek has k l ≠ []) :=
      decidable_of_iff ((seek has k l).isEmpty = false) (by simp)
    have : Decidable (Finds has ks (seek has k l)) := Finds.decide ks (seek has k l)
    inferInstanceAs (Decidable (seek has k l ≠ [] ∧ Finds has ks (seek has k l)))

def seekAll (ks : List κ) (l : List α) : List α := ks.foldl (fun l k => seek has k l) l

def Exact (whole : List α) : List κ → List α → Prop
  | [], _ => True
  | k :: ks, l => (seek has k l ≠ [] ↔ ∃ a ∈ whole, has k a) ∧
      (seek has k l ≠ [] → Exact whole ks (seek has k l))

variable {has} {k : κ} {ks : List κ} {l whole : List α}

theorem seek_suffix (has : κ → α → Bool) (k : κ) (l : List α) : seek has k l <:+ l :=
  List.dropWhile_suffix _

theorem seek_ne_nil_iff : seek has k l ≠ [] ↔ ∃ a ∈ l, has k a := by
  rw [seek,ne_eq,List.dropWhile_eq_nil_iff]
  simp

theorem seekAll_suffix (ks : List κ) : ∀ l : List α, seekAll has ks l <:+ l := by
  induction ks with
  | nil => exact fun l => List.suffix_refl l
  | cons k ks ih => exact fun l => (ih (seek has k l)).trans (seek_suffix has k l)

theorem seekAll_append {ks' : List κ} :
    seekAll has (ks ++ ks') l = seekAll has ks' (seekAll has ks l) := List.foldl_append

theorem finds_append {ks' : List κ} : ∀ {l : List α},
    Finds has (ks ++ ks') l ↔ Finds has ks l ∧ Finds has ks' (seekAll has ks l) := by
  induction ks with
  | nil => exact fun {l} => (true_and (Finds has ks' l)).symm ▸ Iff.rfl
  | cons k ks ih =>
    intro l
    rw [List.cons_append,Finds,Finds,ih,and_assoc]
    exact Iff.rfl

theorem has_of_seek {a : α} {l' : List α} (h : seek has k l = a :: l') : has k a := by
  have hhead := List.head?_dropWhile_not (fun a => !has k a) l
  rw [← seek,h] at hhead
  simpa using hhead

theorem exact_iff_finds (hl : l <:+ whole) : Exact has whole ks l ↔
    Finds has (ks.takeWhile fun k => whole.any (has k)) l := by
  induction ks generalizing l with
  | nil => exact Iff.rfl
  | cons k ks ih =>
    have hseek := ih ((seek_suffix has k l).trans hl)
    by_cases hk : ∃ a ∈ whole, has k a
    · rw [Exact,iff_true_right hk,hseek,List.takeWhile_cons_of_pos (by simpa using hk),Finds]
      tauto
    · have hnil : ¬ seek has k l ≠ [] := by
        rw [seek_ne_nil_iff]
        exact fun ⟨a,ha,hka⟩ => hk ⟨a,hl.subset ha,hka⟩
      rw [Exact,List.takeWhile_cons_of_neg (by simpa using hk),Finds]
      exact iff_true_intro ⟨iff_of_false hnil hk,fun hne => absurd hne hnil⟩

theorem seek_drop {c : ℕ} {a : α} (hc : l[c]? = some a) (ha : has k a) : ∀ {d : ℕ}, d ≤ c →
    ∃ c₀ b, d ≤ c₀ ∧ c₀ ≤ c ∧ l[c₀]? = some b ∧ has k b ∧ seek has k (l.drop d) = l.drop c₀ := by
  intro d hd
  induction hd using Nat.decreasingInduction with
  | self =>
    refine ⟨c,a,le_refl c,le_refl c,hc,ha,?_⟩
    obtain ⟨hlt,rfl⟩ := List.getElem?_eq_some_iff.1 hc
    rw [List.drop_eq_getElem_cons hlt,seek,List.dropWhile_cons_of_neg (by simpa using ha)]
  | of_succ d hd ih =>
    obtain ⟨hlt,_⟩ := List.getElem?_eq_some_iff.1 hc
    have hdlt : d < l.length := Nat.lt_trans hd hlt
    cases hb : has k l[d] with
    | true =>
      refine ⟨d,l[d],le_refl d,Nat.le_of_lt hd,List.getElem?_eq_getElem hdlt,hb,?_⟩
      rw [List.drop_eq_getElem_cons hdlt,seek,List.dropWhile_cons_of_neg (by simp [hb])]
    | false =>
      obtain ⟨c₀,b,hdc,hc₀,hget,hkb,hseek⟩ := ih
      refine ⟨c₀,b,Nat.le_of_succ_le hdc,hc₀,hget,hkb,?_⟩
      rw [List.drop_eq_getElem_cons hdlt,seek,List.dropWhile_cons_of_pos (by simp [hb])]
      exact hseek

theorem finds_iff : Finds has ks l ↔ ∃ cs : List ℕ, cs.Pairwise (· ≤ ·) ∧
    List.Forall₂ (fun k c => ∃ a, l[c]? = some a ∧ has k a) ks cs := by
  have hfrom : ∀ d, Finds has ks (l.drop d) ↔ ∃ cs : List ℕ, (∀ c ∈ cs, d ≤ c) ∧
      cs.Pairwise (· ≤ ·) ∧ List.Forall₂ (fun k c => ∃ a, l[c]? = some a ∧ has k a) ks cs := by
    induction ks with
    | nil => exact fun d => ⟨fun _ => ⟨[],List.forall_mem_nil _,.nil,.nil⟩,fun _ => trivial⟩
    | cons k ks ih =>
      intro d
      constructor
      · rintro ⟨hne,hks⟩
        obtain ⟨a,ha,hka⟩ := seek_ne_nil_iff.1 hne
        obtain ⟨j,hj⟩ := List.mem_iff_getElem?.1 ha
        rw [List.getElem?_drop] at hj
        obtain ⟨c,b,hdc,_,hget,hkb,hseek⟩ := seek_drop hj hka (Nat.le_add_right d j)
        rw [hseek] at hks
        obtain ⟨cs,hge,hsorted,hcs⟩ := (ih c).1 hks
        refine ⟨c :: cs,List.forall_mem_cons.2 ⟨hdc,fun x hx => hdc.trans (hge x hx)⟩,
          List.pairwise_cons.2 ⟨hge,hsorted⟩,.cons ⟨b,hget,hkb⟩ hcs⟩
      · rintro ⟨_,hge,hsorted,hcs⟩
        cases hcs with | @cons _ c _ cs hc hcs =>
        obtain ⟨a,hget,hka⟩ := hc
        obtain ⟨hle,hsorted⟩ := List.pairwise_cons.1 hsorted
        obtain ⟨c₀,b,_,hc₀,_,hkb,hseek⟩ := seek_drop hget hka (hge c List.mem_cons_self)
        rw [Finds,hseek]
        refine ⟨?_,(ih c₀).2 ⟨cs,fun x hx => hc₀.trans (hle x hx),hsorted,hcs⟩⟩
        obtain ⟨hlt,_⟩ := List.getElem?_eq_some_iff.1 hget
        exact List.ne_nil_of_length_pos (by rw [List.length_drop]; omega)
  have hzero := hfrom 0
  simpa using hzero

end ForwardSearch
