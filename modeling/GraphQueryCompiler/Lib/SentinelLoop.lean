import GraphQueryCompiler.Lib.LinkedChain
import Mathlib.Data.List.Flatten
import Mathlib.Data.List.TakeWhile

/-!
# Loops along a chain up to a sentinel

A loop goes along a chain while the elements are below its sentinel, and yields what it emits for
each of them. `yields` relates its states to what it yields, `at'` says which element it is at.
-/

namespace SentinelLoop
open LinkedChain

variable {α β σ : Type*}

/-- One round of the loop: it is over, or yields what is emitted in front of what it yields from the
next element on. -/
structure Rounds (next : α → α) (below : α → Bool) (emit : α → List β) (at' : α → σ → Prop)
    (yields : σ → List β → Prop) : Prop where
  stop : ∀ {a : α} {s : σ}, at' a s → below a = false → ∀ xs, yields s xs ↔ xs = []
  round : ∀ {a : α} {s : σ} {ys : List β}, at' a s → below a = true →
    (∀ s', at' (next a) s' → ∀ xs, yields s' xs ↔ xs = ys) →
    ∀ xs, yields s xs ↔ xs = emit a ++ ys

variable {next : α → α} {below : α → Bool} {emit : α → List β} {at' : α → σ → Prop}
  {yields : σ → List β → Prop} {stop a : α} {ok : α → Prop} {l : List α} {s : σ} {xs : List β}

theorem Rounds.yields_iff (h : Rounds next below emit at' yields) (hstop : below stop = false)
    (hchain : IsChain next stop ok a l) (hs : at' a s) :
    yields s xs ↔ xs = (l.takeWhile below).flatMap emit := by
  induction hchain generalizing s xs with
  | nil => exact h.stop hs hstop xs
  | @cons a l _ _ ih =>
    cases hb : below a with
    | false =>
      rw [h.stop hs hb,List.takeWhile_cons_of_neg (by simp [hb])]
      rfl
    | true =>
      rw [h.round hs hb fun s' hs' xs => ih hs',List.takeWhile_cons_of_pos hb]
      rfl

theorem Rounds.yields_iff_of_forall (h : Rounds next below emit at' yields)
    (hstop : below stop = false) (hchain : IsChain next stop ok a l) (hs : at' a s)
    (hbelow : ∀ b, ok b → below b = true) : yields s xs ↔ xs = l.flatMap emit := by
  have hall : l.takeWhile below = l :=
    List.takeWhile_eq_self_iff.2 fun b hb => hbelow b (hchain.forall_mem b hb)
  rw [h.yields_iff hstop hchain hs,hall]

theorem flatMap_takeWhile_eq_iff : (l.takeWhile below).flatMap emit = l.flatMap emit ↔
    ∀ a ∈ l.dropWhile below, emit a = [] := by
  have hsplit : l.flatMap emit =
      (l.takeWhile below).flatMap emit ++ (l.dropWhile below).flatMap emit := by
    rw [← List.flatMap_append,List.takeWhile_append_dropWhile]
  rw [hsplit,List.self_eq_append_right,List.flatMap_eq_nil_iff]

end SentinelLoop
