import Mathlib.Logic.Relation
import Mathlib.Tactic.Common

/-!
# Partial deterministic step functions

A machine is a partial function `step`; a configuration without a successor has
halted. `Reaches` is finite iteration, `Returns` is iteration up to a halted
configuration, and `run` is the fuelled executor of the same machine.
-/

namespace StepMachine
variable {α : Type*} {step : α → Option α} {a b c : α}

def Step (step : α → Option α) (a b : α) : Prop := step a = some b

abbrev Reaches (step : α → Option α) : α → α → Prop := Relation.ReflTransGen (Step step)

def Returns (step : α → Option α) (a b : α) : Prop := Reaches step a b ∧ step b = none

def run (step : α → Option α) : ℕ → α → α
  | 0, a => a
  | n+1, a =>
    match step a with
    | none => a
    | some b => run step n b

theorem Reaches.head (h : step a = some b) (hr : Reaches step b c) : Reaches step a c :=
  Relation.ReflTransGen.head h hr

theorem Reaches.single (h : step a = some b) : Reaches step a b :=
  Relation.ReflTransGen.single h

theorem Returns.of_reaches (h : Reaches step a b) (hr : Returns step b c) : Returns step a c :=
  ⟨h.trans hr.1,hr.2⟩

theorem run_of_halted (h : step a = none) (n : ℕ) : run step n a = a := by
  cases n with
  | zero => rfl
  | succ n => simp only [run,h]

/-- A machine is deterministic, so whatever is reached on the way is also on the
way to the halted configuration. -/
theorem Returns.after (hb : Reaches step a b) (hc : Returns step a c) : Returns step b c := by
  induction hb using Relation.ReflTransGen.head_induction_on with
  | refl => exact hc
  | head hstep _ ih =>
    apply ih
    obtain ⟨hr,hhalt⟩ := hc
    rcases hr.cases_head with rfl | ⟨d,hd,hr'⟩
    · rw [Step,hhalt] at hstep
      exact absurd hstep (by simp)
    · rw [Step] at hd hstep
      obtain rfl : _ = d := Option.some.inj (hstep.symm.trans hd)
      exact ⟨hr',hhalt⟩

theorem Returns.unique (hb : Returns step a b) (hc : Returns step a c) : b = c := by
  obtain ⟨hr,_⟩ := Returns.after hb.1 hc
  rcases hr.cases_head with h | ⟨d,hd,_⟩
  · exact h
  · rw [Step,hb.2] at hd
    exact absurd hd (by simp)

theorem not_returns_of_endless {S : α → Prop}
    (hS : ∀ a, S a → ∃ d b, step a = some d ∧ Reaches step d b ∧ S b) (ha : S a) :
    ¬ Returns step a c := by
  rintro ⟨hr,hhalt⟩
  have hway : ∃ b, Reaches step a b ∧ S b := ⟨a,.refl,ha⟩
  clear ha
  induction hr using Relation.ReflTransGen.head_induction_on with
  | refl =>
    obtain ⟨b,hb,hSb⟩ := hway
    rcases hb.cases_head with rfl | ⟨d,hd,_⟩
    · obtain ⟨d,_,hd,_⟩ := hS _ hSb
      rw [hhalt] at hd
      cases hd
    · rw [Step,hhalt] at hd
      cases hd
  | @head a a' hstep _ ih =>
    apply ih
    obtain ⟨b,hb,hSb⟩ := hway
    rcases hb.cases_head with rfl | ⟨d,hd,hdb⟩
    · obtain ⟨d,b',hd,hdb,hSb'⟩ := hS _ hSb
      obtain rfl : d = a' := Option.some.inj (hd.symm.trans hstep)
      exact ⟨b',hdb,hSb'⟩
    · obtain rfl : d = a' := Option.some.inj (Eq.trans (Eq.symm hd) hstep)
      exact ⟨b,hdb,hSb⟩

theorem Returns.run_eq (h : Returns step a b) : ∃ n, ∀ m ≥ n, run step m a = b := by
  obtain ⟨hr,hhalt⟩ := h
  induction hr using Relation.ReflTransGen.head_induction_on with
  | refl => exact ⟨0,fun m _ => run_of_halted hhalt m⟩
  | head hstep _ ih =>
    obtain ⟨n,hn⟩ := ih
    refine ⟨n+1,fun m hm => ?_⟩
    obtain ⟨m,rfl⟩ : ∃ k, m = k+1 := ⟨m-1,by omega⟩
    rw [Step] at hstep
    simp only [run,hstep]
    exact hn m (by omega)

theorem Reaches.invariant {P : α → Prop} (hstep : ∀ a b, P a → step a = some b → P b)
    (h : Reaches step a b) (ha : P a) : P b := by
  induction h with
  | refl => exact ha
  | tail _ hs ih => exact hstep _ _ ih hs

theorem Returns.of_map {β : Type*} {step' : β → Option β} {f : β → α}
    (hf : ∀ x, (step' x).map f = step (f x)) {x y : β} (h : Returns step' x y) :
    Returns step (f x) (f y) := by
  obtain ⟨hr,hhalt⟩ := h
  refine ⟨?_,by rw [← hf,hhalt]; rfl⟩
  clear hhalt
  induction hr with
  | refl => exact Relation.ReflTransGen.refl
  | @tail y z _ hs ih =>
    refine ih.tail ?_
    rw [Step] at hs
    rw [Step,← hf,hs]
    rfl

theorem Returns.exists_of_map {β : Type*} {step' : β → Option β} {f : β → α}
    (hf : ∀ x, (step' x).map f = step (f x)) {x : β} (h : Returns step (f x) a) :
    ∃ y, Returns step' x y ∧ f y = a := by
  obtain ⟨hr,hhalt⟩ := h
  obtain ⟨c,hc⟩ : ∃ c, c = f x := ⟨_,rfl⟩
  rw [← hc] at hr
  induction hr using Relation.ReflTransGen.head_induction_on generalizing x with
  | refl =>
    refine ⟨x,⟨Relation.ReflTransGen.refl,?_⟩,hc.symm⟩
    rw [hc,← hf] at hhalt
    exact Option.map_eq_none_iff.1 hhalt
  | head hs _ ih =>
    subst hc
    rw [Step,← hf] at hs
    obtain ⟨x₁,hx₁,hfx₁⟩ := Option.map_eq_some_iff.1 hs
    obtain ⟨y,hy,hfy⟩ := ih hfx₁.symm
    exact ⟨y,Returns.of_reaches (Reaches.single hx₁) hy,hfy⟩

theorem reaches_run (n : ℕ) : ∀ a : α, Reaches step a (run step n a) := by
  induction n with
  | zero => exact fun _ => Relation.ReflTransGen.refl
  | succ n ih =>
    intro a
    cases h : step a with
    | none => simp only [run,h]; exact Relation.ReflTransGen.refl
    | some b => simp only [run,h]; exact Reaches.head h (ih b)

theorem returns_of_run (n : ℕ) (h : step (run step n a) = none) :
    Returns step a (run step n a) := ⟨reaches_run n a,h⟩

/-- A run to a halted configuration, with the number of its configurations with `P`. -/
inductive Counts (step : α → Option α) (P : α → Prop) : ℕ → α → α → Prop
  | halt {a : α} : step a = none → Counts step P 0 a a
  | pass {a b c : α} {n : ℕ} : P a → step a = some b → Counts step P n b c →
      Counts step P (n+1) a c
  | skip {a b c : α} {n : ℕ} : ¬ P a → step a = some b → Counts step P n b c →
      Counts step P n a c

theorem Counts.unique {P : α → Prop} {n m : ℕ} (h : Counts step P n a b)
    (h' : Counts step P m a c) : n = m ∧ b = c := by
  induction h generalizing m with
  | halt hhalt =>
    cases h' with
    | halt _ => exact ⟨rfl,rfl⟩
    | pass _ hs _ | skip _ hs _ => exact absurd (hhalt.symm.trans hs) (by simp)
  | pass hp hs _ ih =>
    cases h' with
    | halt hhalt => exact absurd (hhalt.symm.trans hs) (by simp)
    | skip hnp _ _ => exact absurd hp hnp
    | pass _ hs' hc =>
      obtain rfl := Option.some.inj (hs.symm.trans hs')
      obtain ⟨rfl,rfl⟩ := ih hc
      exact ⟨rfl,rfl⟩
  | skip hnp hs _ ih =>
    cases h' with
    | halt hhalt => exact absurd (hhalt.symm.trans hs) (by simp)
    | pass hp _ _ => exact absurd hp hnp
    | skip _ hs' hc =>
      obtain rfl := Option.some.inj (hs.symm.trans hs')
      exact ih hc

theorem Returns.exists_counts (h : Returns step a b) :
    ∃ n, Counts step (fun _ => True) n a b := by
  obtain ⟨hr,hhalt⟩ := h
  induction hr using Relation.ReflTransGen.head_induction_on with
  | refl => exact ⟨0,.halt hhalt⟩
  | head hstep _ ih =>
    obtain ⟨n,hn⟩ := ih
    exact ⟨n+1,.pass trivial hstep hn⟩

theorem Counts.exists_succ {n : ℕ} (h : Counts step (fun _ => True) n a c) (hs : step a = some b) :
    ∃ m, n = m+1 ∧ Counts step (fun _ => True) m b c := by
  cases h with
  | halt hhalt => exact absurd (hhalt.symm.trans hs) (by simp)
  | skip hnot => exact absurd trivial hnot
  | @pass _ _ _ m _ hs' hrest =>
    obtain rfl := Option.some.inj (hs.symm.trans hs')
    exact ⟨m,rfl,hrest⟩

def countRun (step : α → Option α) (P : α → Prop) [DecidablePred P] : ℕ → α → ℕ × α
  | 0, a => (0,a)
  | n+1, a =>
    match step a with
    | none => (0,a)
    | some b =>
      let r := countRun step P n b
      if P a then (r.1+1,r.2) else r

theorem counts_countRun {P : α → Prop} [DecidablePred P] (n : ℕ) : ∀ {a : α},
    step (countRun step P n a).2 = none →
      Counts step P (countRun step P n a).1 a (countRun step P n a).2 := by
  induction n with
  | zero => exact fun h => .halt h
  | succ n ih =>
    intro a h
    cases hs : step a with
    | none =>
      simp only [countRun,hs]
      exact .halt hs
    | some b =>
      by_cases hp : P a
      · simp only [countRun,hs,hp,if_true] at h ⊢
        exact .pass hp hs (ih h)
      · simp only [countRun,hs,hp,if_false] at h ⊢
        exact .skip hp hs (ih h)

/-- `s` runs like `u` until `n` configurations with `Q` are behind it; from there it may also halt
without a further one. They come right behind those with `P`, hence both runs have as many, up to
the bound. -/
theorem Counts.cut {u s : α → Option α} {P Q D : α → Prop} [DecidablePred Q] {I : ℕ → α → Prop}
    {n m k : ℕ} (hhalt : ∀ a, D a → s a = none ∧ ¬ Q a) (hpass : ∀ m a, I m a → Q a → m < n)
    (hstep : ∀ m a b, I m a → u a = some b →
      s a = some b ∧ (Q b ↔ P a) ∧ I (if Q a then m+1 else m) b ∨
        m = n ∧ ∃ c, Counts s Q 0 a c ∧ D c)
    (h : Counts u P k a c) (hc : D c) (ha : I m a) :
    ∃ c', Counts s Q (min (if Q a then k+1 else k) (n-m)) a c' ∧ D c' := by
  have hgo : ∀ {a b : α} {k m : ℕ}, I m a → s a = some b →
      (∃ c', Counts s Q (min k (n-(if Q a then m+1 else m))) b c' ∧ D c') →
      ∃ c', Counts s Q (min (if Q a then k+1 else k) (n-m)) a c' ∧ D c' := by
    intro a b k m ha hs hb
    obtain ⟨c',hc',hd⟩ := hb
    refine ⟨c',?_,hd⟩
    by_cases hq : Q a
    · have hlt := hpass m a ha hq
      rw [if_pos hq] at hc' ⊢
      have hmin : min (k+1) (n-m) = min k (n-(m+1)) + 1 := by omega
      rw [hmin]
      exact .pass hq hs hc'
    · rw [if_neg hq] at hc' ⊢
      exact .skip hq hs hc'
  have hcut : ∀ {a : α} {k m : ℕ}, m = n → (∃ c, Counts s Q 0 a c ∧ D c) →
      ∃ c', Counts s Q (min (if Q a then k+1 else k) (n-m)) a c' ∧ D c' := by
    rintro a k m rfl hb
    rwa [Nat.sub_self,Nat.min_zero]
  induction h generalizing m with
  | halt _ =>
    obtain ⟨hs,hq⟩ := hhalt _ hc
    rw [if_neg hq,Nat.zero_min]
    exact ⟨_,.halt hs,hc⟩
  | pass hp hu _ ih =>
    rcases hstep m _ _ ha hu with ⟨hs,hq,hI⟩ | ⟨hm,hb⟩
    · have hb := ih hc hI
      rw [if_pos (hq.2 hp)] at hb
      exact hgo ha hs hb
    · exact hcut hm hb
  | skip hp hu _ ih =>
    rcases hstep m _ _ ha hu with ⟨hs,hq,hI⟩ | ⟨hm,hb⟩
    · have hb := ih hc hI
      rw [if_neg fun h => hp (hq.1 h)] at hb
      exact hgo ha hs hb
    · exact hcut hm hb

def Followed (P Q : α → Prop) (l : List α) : Prop :=
  ∀ pre a post, l = pre ++ a :: post → P a → ∃ c ∈ post, Q c

theorem followed_nil {P Q : α → Prop} : Followed P Q [] := by
  simp [Followed]

theorem followed_snoc {P Q : α → Prop} {l : List α} (hPQ : P a → ¬ Q a) :
    Followed P Q (l ++ [a]) ↔ Q a ∨ ¬ P a ∧ Followed P Q l := by
  constructor
  · intro h
    by_cases hq : Q a
    · exact .inl hq
    refine .inr ⟨fun hp => ?_,fun pre b post heq hp => ?_⟩
    · obtain ⟨_,hmem,_⟩ := h l a [] rfl hp
      simp at hmem
    · obtain ⟨c,hc,hqc⟩ := h pre b (post ++ [a]) (by simp [heq]) hp
      rcases List.mem_append.1 hc with hc | hc
      · exact ⟨c,hc,hqc⟩
      · obtain rfl := List.mem_singleton.1 hc
        exact absurd hqc hq
  · intro h pre b post heq hp
    rcases List.eq_nil_or_concat post with rfl | ⟨post,d,rfl⟩
    · obtain ⟨rfl,hb⟩ := List.append_inj' heq rfl
      obtain rfl := List.singleton_inj.1 hb
      rcases h with hq | ⟨hnp,_⟩
      · exact absurd hq (hPQ hp)
      · exact absurd hp hnp
    · rw [List.concat_eq_append] at heq ⊢
      have heq : l ++ [a] = (pre ++ b :: post) ++ [d] := by simpa using heq
      obtain ⟨rfl,hd⟩ := List.append_inj' heq rfl
      obtain rfl := List.singleton_inj.1 hd
      rcases h with hq | ⟨_,hl⟩
      · exact ⟨a,by simp,hq⟩
      · obtain ⟨c,hc,hqc⟩ := hl pre b post rfl hp
        exact ⟨c,List.mem_append_left _ hc,hqc⟩

end StepMachine
