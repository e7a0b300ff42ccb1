import Mathlib.Logic.Function.Basic
import Mathlib.Tactic.Common

/-!
# Rows put together in buffers of threads

A thread puts values into a buffer of its own and publishes the buffer as a row of one of the
lists that all threads share. Whatever the order of the calls, each list is a merge of the rows
that the threads have put together on their own.
-/

namespace RowBuffers

variable {ι κ ν ρ : Type*}

inductive Call (κ ν : Type*)
  | put (v : ν)
  | publish (k : κ)

structure Buffers (ι κ ν : Type*) where
  pending : ι → List ν
  shared : κ → List (List ν)

def leftover : List ν → List (Call κ ν) → List ν
  | b, [] => b
  | b, .put v :: cs => leftover (b ++ [v]) cs
  | _, .publish _ :: cs => leftover [] cs

/-- The rows a thread publishes to `k`: the values since its previous publication. -/
def rows [DecidableEq κ] (k : κ) : List ν → List (Call κ ν) → List (List ν)
  | _, [] => []
  | b, .put v :: cs => rows k (b ++ [v]) cs
  | b, .publish k' :: cs => if k' = k then b :: rows k [] cs else rows k [] cs

theorem leftover_append (cs ds : List (Call κ ν)) :
    ∀ b : List ν, leftover b (cs ++ ds) = leftover (leftover b cs) ds := by
  induction cs with
  | nil => exact fun _ => rfl
  | cons c cs ih =>
    intro b
    cases c with
    | put v => exact ih (b ++ [v])
    | publish k => exact ih []

theorem rows_append [DecidableEq κ] (k : κ) (cs ds : List (Call κ ν)) :
    ∀ b : List ν, rows k b (cs ++ ds) = rows k b cs ++ rows k (leftover b cs) ds := by
  induction cs with
  | nil => exact fun _ => rfl
  | cons c cs ih =>
    intro b
    cases c with
    | put v => exact ih (b ++ [v])
    | publish k' =>
      simp only [List.cons_append,rows,leftover,ih]
      split
      · rfl
      · rfl

variable [DecidableEq ι]

def ofThread (i : ι) (l : List (ι × ρ)) : List ρ := (l.filter fun e => e.1 = i).map Prod.snd

def Merges (f : ι → List ρ) (l : List ρ) : Prop :=
  ∃ tagged : List (ι × ρ), tagged.map Prod.snd = l ∧ ∀ i, ofThread i tagged = f i

theorem ofThread_append (i : ι) (l m : List (ι × ρ)) :
    ofThread i (l ++ m) = ofThread i l ++ ofThread i m := by
  simp only [ofThread,List.filter_append,List.map_append]

theorem ofThread_map_self (i : ι) (l : List ρ) : ofThread i (l.map (i,·)) = l := by
  simp [ofThread,List.filter_map,Function.comp_def]

theorem ofThread_map_of_ne {i j : ι} (h : i ≠ j) (l : List ρ) :
    ofThread j (l.map (i,·)) = [] := by
  simp [ofThread,List.filter_map,Function.comp_def,h]

theorem Merges.nil : Merges (fun _ : ι => ([] : List ρ)) [] := ⟨[],rfl,fun _ => rfl⟩

theorem Merges.append {f g : ι → List ρ} {l xs : List ρ} {i : ι} (h : Merges f l)
    (hi : g i = f i ++ xs) (hne : ∀ j, i ≠ j → g j = f j) : Merges g (l ++ xs) := by
  obtain ⟨tagged,rfl,htagged⟩ := h
  refine ⟨tagged ++ xs.map (i,·),by simp [Function.comp_def],fun j => ?_⟩
  rw [ofThread_append,htagged]
  by_cases hij : i = j
  · subst hij
    rw [ofThread_map_self,hi]
  · rw [ofThread_map_of_ne hij,hne j hij,List.append_nil]

variable [DecidableEq κ]

def Buffers.calls (b : Buffers ι κ ν) (i : ι) (cs : List (Call κ ν)) : Buffers ι κ ν where
  pending := Function.update b.pending i (leftover (b.pending i) cs)
  shared k := b.shared k ++ rows k (b.pending i) cs

structure Assembled (b₀ : Buffers ι κ ν) (log : List (ι × Call κ ν)) (b : Buffers ι κ ν) :
    Prop where
  pending : ∀ i, b.pending i = leftover (b₀.pending i) (ofThread i log)
  shared : ∀ k, ∃ l, b.shared k = b₀.shared k ++ l ∧
    Merges (fun i => rows k (b₀.pending i) (ofThread i log)) l

theorem Assembled.start (b : Buffers ι κ ν) : Assembled b [] b :=
  ⟨fun _ => rfl,fun _ => ⟨[],(List.append_nil _).symm,.nil⟩⟩

theorem Assembled.calls {b₀ b : Buffers ι κ ν} {log : List (ι × Call κ ν)}
    (h : Assembled b₀ log b) (i : ι) (cs : List (Call κ ν)) :
    Assembled b₀ (log ++ cs.map (i,·)) (b.calls i cs) := by
  have hself : ofThread i (log ++ cs.map (i,·)) = ofThread i log ++ cs := by
    rw [ofThread_append,ofThread_map_self]
  have hother : ∀ j, i ≠ j → ofThread j (log ++ cs.map (i,·)) = ofThread j log := by
    intro j hij
    rw [ofThread_append,ofThread_map_of_ne hij,List.append_nil]
  refine ⟨fun j => ?_,fun k => ?_⟩
  · by_cases hij : i = j
    · subst hij
      rw [hself,leftover_append,← h.pending]
      exact Function.update_self ..
    · rw [hother j hij,← h.pending]
      exact Function.update_of_ne (Ne.symm hij) ..
  · obtain ⟨l,hl,hmerges⟩ := h.shared k
    refine ⟨l ++ rows k (b.pending i) cs,?_,hmerges.append (i := i) ?_ fun j hij => ?_⟩
    · rw [← List.append_assoc,← hl]
      rfl
    · rw [hself,rows_append,h.pending]
    · rw [hother j hij]

end RowBuffers
