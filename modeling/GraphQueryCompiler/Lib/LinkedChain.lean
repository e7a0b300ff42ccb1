import Mathlib.Data.List.Basic
import Mathlib.Tactic.Common

/-!
# Lists threaded through a successor function

`IsChain next stop ok a l` says that following `next` from `a` visits exactly the
elements of `l`, all of them `ok`, and then arrives at the sentinel `stop`.
`walk` is the executable traversal with a bound on its length.
-/

namespace LinkedChain
variable {α : Type*}

inductive IsChain (next : α → α) (stop : α) (ok : α → Prop) : α → List α → Prop
  | nil : IsChain next stop ok stop []
  | cons {a : α} {l : List α} :
      ok a → IsChain next stop ok (next a) l → IsChain next stop ok a (a :: l)

def walk [DecidableEq α] (next : α → α) (stop : α) : ℕ → α → List α
  | 0, _ => []
  | n+1, a => if a = stop then [] else a :: walk next stop n (next a)

variable {next : α → α} {stop : α} {ok : α → Prop} {a : α} {l l' : List α}

theorem IsChain.eq_of_stop (hstop : ¬ ok stop) (h : IsChain next stop ok stop l) : l = [] := by
  cases h with
  | nil => rfl
  | cons hok _ => exact absurd hok hstop

theorem IsChain.forall_mem (h : IsChain next stop ok a l) : ∀ b ∈ l, ok b := by
  induction h with
  | nil => exact List.forall_mem_nil _
  | cons hok _ ih => exact List.forall_mem_cons.2 ⟨hok,ih⟩

theorem IsChain.walk_eq [DecidableEq α] (hstop : ¬ ok stop) (h : IsChain next stop ok a l) :
    ∀ n, l.length ≤ n → walk next stop n a = l := by
  induction h with
  | nil =>
    intro n _
    cases n <;> simp [walk]
  | @cons a l hok _ ih =>
    intro n hn
    obtain ⟨n,rfl⟩ : ∃ k, n = k+1 := ⟨n-1,by simp only [List.length_cons] at hn; omega⟩
    have hne : a ≠ stop := fun he => hstop (he ▸ hok)
    simp only [walk,if_neg hne]
    rw [ih n (by simpa using hn)]

theorem IsChain.unique (hstop : ¬ ok stop) (h : IsChain next stop ok a l)
    (h' : IsChain next stop ok a l') : l = l' := by
  induction h generalizing l' with
  | nil => exact (IsChain.eq_of_stop hstop h').symm
  | cons hok _ ih =>
    cases h' with
    | nil => exact absurd hok hstop
    | cons _ hn => rw [ih hn]

theorem IsChain.of_mem (h : IsChain next stop ok a l) {b : α} (hb : b ∈ l) :
    ∃ l', l' <:+ l ∧ IsChain next stop ok b l' := by
  induction h with
  | nil => cases hb
  | @cons a l hok hl ih =>
    rcases List.mem_cons.1 hb with rfl | hb
    · exact ⟨b :: l,List.suffix_refl _,.cons hok hl⟩
    · obtain ⟨l',hsuffix,hl'⟩ := ih hb
      exact ⟨l',hsuffix.trans (List.suffix_cons a l),hl'⟩

theorem IsChain.nodup (hstop : ¬ ok stop) (h : IsChain next stop ok a l) : l.Nodup := by
  induction h with
  | nil => exact List.nodup_nil
  | @cons a l hok hl ih =>
    refine List.nodup_cons.2 ⟨fun hmem => ?_,ih⟩
    obtain ⟨l',hsuffix,hl'⟩ := hl.of_mem hmem
    have hlen := hsuffix.length_le
    rw [hl'.unique hstop (.cons hok hl),List.length_cons] at hlen
    omega

end LinkedChain
