import Mathlib.Logic.Function.Basic
import Mathlib.Tactic.Common

/-!
# A cell for the current record

Records are read one behind the other by copying each of them into the same cell of a memory, which
is one of theirs. `Shows` says which record that cell has; `link` is what is observed of a record.
-/

namespace CursorCell

variable {α ρ μ : Type*}

structure Shows (link : ρ → μ) (mem₀ mem : α → ρ) (a r : α) : Prop where
  cell : link (mem a) = link (mem₀ r)
  others : ∀ b, b ≠ a → link (mem b) = link (mem₀ b)

variable {link : ρ → μ} {mem₀ mem mem' : α → ρ} {a r r' : α}

theorem Shows.refl (link : ρ → μ) (mem : α → ρ) (a : α) : Shows link mem mem a a :=
  ⟨rfl,fun _ _ => rfl⟩

theorem Shows.of_link (h : Shows link mem₀ mem a r) (hlink : ∀ b, link (mem' b) = link (mem b)) :
    Shows link mem₀ mem' a r where
  cell := (hlink a).trans h.cell
  others b hb := (hlink b).trans (h.others b hb)

theorem Shows.copy [DecidableEq α] (h : Shows link mem₀ mem a r) (hr' : r' ≠ a) :
    Shows link mem₀ (Function.update mem a (mem r')) a r' where
  cell := by
    rw [Function.update_self]
    exact h.others r' hr'
  others b hb := by
    rw [Function.update_of_ne hb]
    exact h.others b hb

theorem Shows.eq_update [DecidableEq α] (h : Shows id mem₀ mem a r) :
    mem = Function.update mem₀ a (mem₀ r) :=
  Function.eq_update_iff.2 ⟨h.cell,h.others⟩

end CursorCell
