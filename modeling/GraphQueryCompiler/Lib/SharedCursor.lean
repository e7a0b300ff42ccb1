import Mathlib.Data.List.Basic
import Mathlib.Tactic.Common

/-!
# Loops over one list

Loops that append what they run over to a list that all of them share, with a single iterator
that every start puts back to the begin of the list. The list is cleared when a loop finds its
end. What each loop should see is given by the loops of `Loops`, each with its own elements.
-/

namespace SharedCursor

variable {σ τ α β γ : Type*}

def answers (step : σ → α → Option (β × σ)) : σ → List α → Option (List β)
  | _, [] => some []
  | s, a :: as => (step s a).bind fun r => (answers step r.2 as).map (r.1 :: ·)

theorem answers_map {step : σ → α → Option (β × σ)} {step' : τ → γ → Option (β × τ)}
    {f : τ → σ} {g : γ → α}
    (h : ∀ s a, (step' s a).map (fun r => (r.1,f r.2)) = step (f s) (g a)) (as : List γ) :
    ∀ s, answers step' s as = answers step (f s) (as.map g) := by
  induction as with
  | nil => exact fun _ => rfl
  | cons a as ih =>
    intro s
    rw [List.map_cons,answers,answers,← h]
    cases step' s a with
    | none => rfl
    | some r => simp only [Option.map_some,Option.bind_some,ih]

inductive Action (α : Type*)
  | start (found : List α)
  | next
  | abandon

inductive Answer (α : Type*)
  | elem (x : α)
  | ended
  | idle
  deriving DecidableEq

/-- The elements that the open loops have yet to see, the innermost first, and whether loops were
abandoned before their end. -/
structure Loops (α : Type*) where
  rest : List (List α)
  abandoned : Bool

def Loops.next (l : Loops α) : Answer α × Loops α :=
  match l.rest with
  | [] => (.idle,l)
  | [] :: rest => (.ended,{ l with rest := rest })
  | (x :: xs) :: rest => (.elem x,{ l with rest := xs :: rest })

def Loops.step (l : Loops α) : Action α → Answer α × Loops α
  | .start found => Loops.next { l with rest := found :: l.rest }
  | .next => l.next
  | .abandon => (.idle,⟨[],l.abandoned || !l.rest.isEmpty⟩)

structure Loops.Finished (l : Loops α) : Prop where
  rest : l.rest = []
  abandoned : l.abandoned = false

/-- Every loop begins when all before it have run to their end. -/
def OneAtATime : Loops α → List (Action α) → Prop
  | _, [] => True
  | l, .start found :: as => l.Finished ∧ OneAtATime (l.step (.start found)).2 as
  | l, .next :: as => OneAtATime l.next.2 as
  | l, .abandon :: as => OneAtATime (l.step .abandon).2 as

structure Cursor (α : Type*) where
  list : List α
  iter : ℕ
  depth : ℕ

def Cursor.head (c : Cursor α) : Option (Answer α × Cursor α) :=
  if c.iter = c.list.length then some (.ended,⟨[],c.iter,c.depth-1⟩)
  else (c.list[c.iter]?).map fun x => (.elem x,{ c with iter := c.iter+1 })

def Cursor.step (c : Cursor α) : Action α → Option (Answer α × Cursor α)
  | .start found => Cursor.head ⟨c.list ++ found,0,c.depth+1⟩
  | .next => if c.depth = 0 then some (.idle,c) else c.head
  | .abandon => some (.idle,{ c with depth := 0 })

inductive Tracks : Cursor α → Loops α → Prop
  | finished {i : ℕ} : Tracks ⟨[],i,0⟩ ⟨[],false⟩
  | running {xs : List α} {i : ℕ} : xs ≠ [] → i ≤ xs.length →
      Tracks ⟨xs,i,1⟩ ⟨[xs.drop i],false⟩
  | abandoned {xs : List α} {i : ℕ} : xs ≠ [] → Tracks ⟨xs,i,0⟩ ⟨[],true⟩

variable {c : Cursor α} {l : Loops α}

theorem Tracks.finished_iff (h : Tracks c l) : l.Finished ↔ c.list = [] := by
  cases h with
  | finished => exact ⟨fun _ => rfl,fun _ => ⟨rfl,rfl⟩⟩
  | running hne => exact ⟨fun hf => absurd hf.rest (List.cons_ne_nil _ _),fun h => absurd h hne⟩
  | abandoned hne => exact ⟨fun hf => absurd hf.abandoned (by simp),fun h => absurd h hne⟩

theorem head_running {xs : List α} {i : ℕ} (hi : i ≤ xs.length) :
    ∃ c', Cursor.head ⟨xs,i,1⟩ = some ((Loops.next ⟨[xs.drop i],false⟩).1,c') ∧
      Tracks c' (Loops.next ⟨[xs.drop i],false⟩).2 := by
  rcases Nat.lt_or_eq_of_le hi with hlt | rfl
  · refine ⟨⟨xs,i+1,1⟩,?_,?_⟩
    · rw [Cursor.head,if_neg (Nat.ne_of_lt hlt),List.getElem?_eq_getElem hlt,
        List.drop_eq_getElem_cons hlt]
      rfl
    · rw [List.drop_eq_getElem_cons hlt]
      exact .running (List.ne_nil_of_length_pos (by omega)) hlt
  · refine ⟨⟨[],xs.length,0⟩,?_,?_⟩
    · rw [Cursor.head,if_pos rfl,List.drop_length]
      rfl
    · rw [List.drop_length]
      exact .finished

theorem Tracks.step (h : Tracks c l) {a : Action α}
    (ha : ∀ found, a = .start found → l.Finished) :
    ∃ c', c.step a = some ((l.step a).1,c') ∧ Tracks c' (l.step a).2 := by
  cases a with
  | start found =>
    have hl := ha found rfl
    cases h with
    | finished => exact head_running (Nat.zero_le _)
    | running => exact absurd hl.rest (List.cons_ne_nil _ _)
    | abandoned => exact absurd hl.abandoned (by simp)
  | next =>
    cases h with
    | finished => exact ⟨_,rfl,.finished⟩
    | running _ hi => exact head_running hi
    | abandoned hne => exact ⟨_,rfl,.abandoned hne⟩
  | abandon =>
    cases h with
    | finished => exact ⟨_,rfl,.finished⟩
    | running hne => exact ⟨_,rfl,.abandoned hne⟩
    | abandoned hne => exact ⟨_,rfl,.abandoned hne⟩

/-- The loops over one list answer as they should. -/
def Agrees (c : Cursor α) (l : Loops α) (as : List (Action α)) : Prop :=
  answers Cursor.step c as = answers (fun l a => some (l.step a)) l as

theorem agrees_cons {a : Action α} {as : List (Action α)} {c' : Cursor α}
    (h : c.step a = some ((l.step a).1,c')) :
    Agrees c l (a :: as) ↔ Agrees c' (l.step a).2 as := by
  rw [Agrees,Agrees,answers,answers,h,Option.bind_some,Option.bind_some]
  exact (Option.map_injective (List.cons_injective)).eq_iff

theorem OneAtATime.cons_iff {a : Action α} {as : List (Action α)} :
    OneAtATime l (a :: as) ↔
      (∀ found, a = .start found → l.Finished) ∧ OneAtATime (l.step a).2 as := by
  cases a with
  | start found =>
    exact ⟨fun h => ⟨fun _ _ => h.1,h.2⟩,fun h => ⟨h.1 found rfl,h.2⟩⟩
  | next | abandon => exact ⟨fun h => ⟨by simp,h⟩,And.right⟩

theorem Tracks.agrees (h : Tracks c l) {as : List (Action α)} (has : OneAtATime l as) :
    Agrees c l as := by
  induction as generalizing c l with
  | nil => rfl
  | cons a as ih =>
    obtain ⟨ha,has⟩ := OneAtATime.cons_iff.1 has
    obtain ⟨c',hc,ht⟩ := h.step ha
    exact (agrees_cons hc).2 (ih ht has)

theorem OneAtATime.runOn {as p : List (Action α)} (h : OneAtATime l as) (hp : p <+: as) (k : ℕ) :
    OneAtATime l (p ++ List.replicate k .next) := by
  induction p generalizing as l with
  | nil =>
    rw [List.nil_append]
    clear h hp
    induction k generalizing l with
    | zero => trivial
    | succ k ih => exact ih
  | cons a p ih =>
    obtain ⟨q,rfl⟩ := hp
    obtain ⟨ha,has⟩ := OneAtATime.cons_iff.1 h
    exact OneAtATime.cons_iff.2 ⟨ha,ih has (List.prefix_append p q)⟩

theorem answers_next {xs : List α} {d : ℕ} : ∀ {n i : ℕ}, i + n ≤ xs.length →
    answers Cursor.step ⟨xs,i,d+1⟩ (List.replicate n .next) =
      some (((xs.drop i).take n).map .elem)
  | 0, _, _ => by simp [answers]
  | n+1, i, h => by
    have hlt : i < xs.length := by omega
    have hstep : Cursor.step ⟨xs,i,d+1⟩ .next = some (.elem xs[i],⟨xs,i+1,d+1⟩) := by
      rw [Cursor.step,if_neg (Nat.succ_ne_zero d),Cursor.head,if_neg (Nat.ne_of_lt hlt),
        List.getElem?_eq_getElem hlt]
      rfl
    rw [List.replicate_succ,answers,hstep,Option.bind_some,answers_next (by omega),
      List.drop_eq_getElem_cons hlt]
    rfl

theorem ended_mem_answers (xs : List α) (rest : List (List α)) (b : Bool) :
    ∃ bs, answers (fun l a => some (Loops.step l a)) ⟨xs :: rest,b⟩
      (List.replicate (xs.length+1) .next) = some bs ∧ .ended ∈ bs := by
  induction xs with
  | nil => exact ⟨_,rfl,List.mem_singleton_self _⟩
  | cons x xs ih =>
    obtain ⟨bs,hbs,hmem⟩ := ih
    refine ⟨.elem x :: bs,?_,List.mem_cons_of_mem _ hmem⟩
    rw [List.length_cons,List.replicate_succ,answers]
    exact congrArg (Option.map (Answer.elem x :: ·)) hbs

theorem not_agrees_start (h : c.list ≠ []) (found : List α) :
    ¬ Agrees c l (.start found :: List.replicate found.length .next) := by
  intro hagrees
  have hcode : answers Cursor.step c (.start found :: List.replicate found.length .next) =
      answers Cursor.step ⟨c.list ++ found,0,c.depth+1⟩
        (List.replicate (found.length+1) .next) := rfl
  have hspec : answers (fun l a => some (Loops.step l a)) l
      (.start found :: List.replicate found.length .next) =
      answers (fun l a => some (Loops.step l a)) ⟨found :: l.rest,l.abandoned⟩
        (List.replicate (found.length+1) .next) := rfl
  obtain ⟨bs,hbs,hmem⟩ := ended_mem_answers found l.rest l.abandoned
  have hpos := List.length_pos_iff.2 h
  rw [Agrees,hcode,hspec,hbs,answers_next (by rw [List.length_append]; omega)] at hagrees
  rw [← Option.some.inj hagrees] at hmem
  obtain ⟨x,_,hx⟩ := List.mem_map.1 hmem
  cases hx

/-- The loops answer as they should, also if the open one is run on at any moment, exactly if they
run one at a time. -/
theorem agrees_iff (h : Tracks c l) (as : List (Action α)) :
    (∀ p, p <+: as → ∀ k, Agrees c l (p ++ List.replicate k .next)) ↔ OneAtATime l as := by
  refine ⟨fun hagrees => ?_,fun has p hp k => h.agrees (has.runOn hp k)⟩
  induction as generalizing c l with
  | nil => trivial
  | cons a as ih =>
    have ha : ∀ found, a = .start found → l.Finished := by
      rintro found rfl
      by_contra hl
      exact not_agrees_start (mt h.finished_iff.2 hl) found
        (hagrees [.start found] ⟨as,rfl⟩ found.length)
    obtain ⟨c',hc,ht⟩ := h.step ha
    refine OneAtATime.cons_iff.2 ⟨ha,ih ht fun p hp k => ?_⟩
    exact (agrees_cons hc).1 (hagrees (a :: p) (List.cons_prefix_cons.2 ⟨rfl,hp⟩) k)

end SharedCursor
