import Mathlib.Data.Option.Basic
import Mathlib.Logic.Function.Basic
import Mathlib.Tactic.Common

/-!
# Memo tables over a source that changes

A table keeps the answer to the first question with a key, and gives it to all later ones, while
the source that answers goes on changing. What it holds is what the source said at the first
question.
-/

namespace MemoTable

inductive Event (σ α : Type*)
  | change (source : σ)
  | ask (a : α)

variable {σ α κ v : Type*} [DecidableEq κ]

structure State (σ κ v : Type*) where
  source : σ
  table : κ → Option v

section Run
variable (key : α → κ) (f : σ → α → v)

def answer (s : State σ κ v) (a : α) : v := (s.table (key a)).getD (f s.source a)

def step (s : State σ κ v) : Event σ α → State σ κ v
  | .change source => { s with source := source }
  | .ask a => { s with table := Function.update s.table (key a) (some (answer key f s a)) }

def run (s : State σ κ v) (es : List (Event σ α)) : State σ κ v := es.foldl (step key f) s

/-- What the source said at the first question with a key. -/
def first (source : σ) : List (Event σ α) → κ → Option v
  | [], _ => none
  | .change source' :: es, k => first source' es k
  | .ask a :: es, k => if key a = k then some (f source a) else first source es k

variable {key f} {s : State σ κ v} {es : List (Event σ α)}

theorem step_ask_table (s : State σ κ v) (a : α) (k : κ) : (step key f s (.ask a)).table k =
    if key a = k then some (answer key f s a) else s.table k := by
  by_cases hk : key a = k
  · subst hk
    exact (Function.update_self ..).trans (if_pos rfl).symm
  · exact (Function.update_of_ne (Ne.symm hk) ..).trans (if_neg hk).symm

theorem run_table (key : α → κ) (f : σ → α → v) (s : State σ κ v) (es : List (Event σ α)) (k : κ) :
    (run key f s es).table k = (s.table k).or (first key f s.source es k) := by
  induction es generalizing s with
  | nil => exact Option.or_none.symm
  | cons e es ih =>
    have hcons : run key f s (e :: es) = run key f (step key f s e) es := rfl
    rw [hcons,ih]
    cases e with
    | change source => rfl
    | ask a =>
      rw [step_ask_table,first]
      split_ifs with hk
      · subst hk
        rw [answer]
        cases s.table (key a) <;> rfl
      · rfl

end Run

end MemoTable
