import GraphQueryCompiler.Lib.StepMachine
import Mathlib.Algebra.BigOperators.Group.Finset.Basic
import Mathlib.Algebra.BigOperators.Fin
import Mathlib.Algebra.Order.Group.Multiset

/-!
# Threads over shared data

Machines whose configurations have a part that all of them share take steps in any order. If
what one thread reads is never written by another, then each thread runs as it would alone, and
the shared data receive the effects of all of them, in some order.
-/

namespace Interleaving
open StepMachine

variable {ι α γ ε : Type*} [DecidableEq ι]

structure Shared (α γ : Type*) where
  get : α → γ
  put : γ → α → α
  get_put : ∀ g a, get (put g a) = g
  put_get : ∀ a, put (get a) a = a
  put_put : ∀ g g' a, put g (put g' a) = put g a

inductive Step (step : ι → α → Option α) (S : Shared α γ) :
    γ × (ι → α) → γ × (ι → α) → Prop
  | thread {g : γ} {cs : ι → α} {i : ι} {c : α} : step i (S.put g (cs i)) = some c →
      Step step S (g,cs) (S.get c,Function.update cs i c)

abbrev Runs (step : ι → α → Option α) (S : Shared α γ) :
    γ × (ι → α) → γ × (ι → α) → Prop := Relation.ReflTransGen (Step step S)

/-- What steps do to the shared part, as lists of effects, and what they need to know of it. -/
structure Footprint (step : ι → α → Option α) (S : Shared α γ) (ε : Type*) where
  act : γ → ε → γ
  Reads : α → Prop
  reads_put : ∀ {g a}, Reads (S.put g a) → Reads a
  Writes : ε → Prop
  Agree : γ → γ → Prop
  agree_refl : ∀ g, Agree g g
  agree_act : ∀ {g g'} e, Agree g g' → Agree (act g e) (act g' e)
  agree_silent : ∀ {g g'} e, ¬ Writes e → Agree g g' → Agree g (act g' e)
  exec : ∀ {i a b}, step i a = some b → ∃ es : List ε, S.get b = es.foldl act (S.get a) ∧
    ∀ g, (Reads a → Agree g (S.get a)) → step i (S.put g a) = some (S.put (es.foldl act g) b)

variable {step : ι → α → Option α} {S : Shared α γ} {g g₀ : γ} {a cs : ι → α} {c : α} {i : ι}

theorem Runs.of_reaches (hg : S.get (cs i) = g) (h : Reaches (step i) (cs i) c) :
    Runs step S (g,cs) (S.get c,Function.update cs i c) := by
  induction h with
  | refl =>
    rw [Function.update_eq_self,hg]
  | @tail b c _ hstep ih =>
    refine ih.tail ?_
    have h : step i (S.put (S.get b) (Function.update cs i b i)) = some c := by
      rw [Function.update_self,S.put_get]
      exact hstep
    have hthread := Step.thread (S := S) h
    rwa [Function.update_idem] at hthread

theorem Runs.of_returns (h : Returns (step i) (S.put g (cs i)) c)
    (hne : step i (S.put g (cs i)) ≠ none) :
    Runs step S (g,cs) (S.get c,Function.update cs i c) := by
  obtain ⟨b,hb⟩ := Option.ne_none_iff_exists'.1 hne
  have hafter : Reaches (step i) (Function.update cs i b i) c := by
    rw [Function.update_self]
    exact (Returns.after (.single hb) h).1
  have hrest := Runs.of_reaches (S := S) rfl hafter
  rw [Function.update_idem,Function.update_self] at hrest
  exact .head (.thread hb) hrest

namespace Footprint
variable [Fintype ι] (F : Footprint step S ε)

def NeverReads (i : ι) (a : α) : Prop := ∀ d, Reaches (step i) a d → ¬ F.Reads d

def NeverWrites (i : ι) (a : α) : Prop := ∀ d (es : List ε), Reaches (step i) a d →
  S.get d = es.foldl F.act (S.get a) → ∀ e ∈ es, ¬ F.Writes e

/-- Every thread is where it would be alone after the effects `es`, and the shared part has had
the effects `w` of all. -/
structure Follows (a : ι → α) (g₀ g : γ) (cs d : ι → α) (es : ι → List ε) (w : List ε) :
    Prop where
  reaches : ∀ i, Reaches (step i) (a i) (d i)
  get_eq : ∀ i, S.get (d i) = (es i).foldl F.act g₀
  same : ∀ g i, S.put g (cs i) = S.put g (d i)
  shared : g = w.foldl F.act g₀
  effects : (w : Multiset ε) = ∑ i, (es i : Multiset ε)
  agree : ∀ i, F.NeverReads i (a i) ∨ F.Agree (S.get (d i)) g

variable {F} {g' : γ} {cs' d : ι → α} {es : ι → List ε} {w : List ε}

omit [DecidableEq ι] [Fintype ι] in
theorem exists_effects (h : Reaches (step i) (a i) c) :
    ∃ es : List ε, S.get c = es.foldl F.act (S.get (a i)) := by
  induction h with
  | refl => exact ⟨[],rfl⟩
  | tail _ hstep ih =>
    obtain ⟨es,hes⟩ := ih
    obtain ⟨new,hnew,_⟩ := F.exec hstep
    exact ⟨es ++ new,by rw [hnew,hes,List.foldl_append]⟩

omit [DecidableEq ι] [Fintype ι] in
theorem agree_foldl (h : F.Agree g g') (es : List ε) :
    F.Agree (es.foldl F.act g) (es.foldl F.act g') := by
  induction es generalizing g g' with
  | nil => exact h
  | cons e es ih => exact ih (F.agree_act e h)

omit [DecidableEq ι] [Fintype ι] in
theorem agree_foldl_silent (h : F.Agree g g') {es : List ε} (hes : ∀ e ∈ es, ¬ F.Writes e) :
    F.Agree g (es.foldl F.act g') := by
  induction es generalizing g' with
  | nil => exact h
  | cons e es ih =>
    obtain ⟨he,hes⟩ := List.forall_mem_cons.1 hes
    exact ih (F.agree_silent e he h) hes

theorem sum_update (es : ι → List ε) (i : ι) (new : List ε) :
    ∑ j, (Function.update es i (es i ++ new) j : Multiset ε) =
      (∑ j, (es j : Multiset ε)) + (new : Multiset ε) := by
  have hrest : ∀ j ∈ Finset.univ.erase i,
      (Function.update es i (es i ++ new) j : Multiset ε) = (es j : Multiset ε) := by
    intro j hj
    rw [Function.update_of_ne (Finset.ne_of_mem_erase hj)]
  rw [← Finset.add_sum_erase _ _ (Finset.mem_univ i),Finset.sum_congr rfl hrest,
    Function.update_self,← Multiset.coe_add,
    ← Finset.add_sum_erase Finset.univ (fun j => (es j : Multiset ε)) (Finset.mem_univ i)]
  exact add_right_comm _ _ _

theorem Follows.thread (hf : F.Follows a g₀ g cs d es w) (ha : ∀ i, S.get (a i) = g₀)
    (hsep : ∀ i j, i ≠ j → F.NeverReads i (a i) ∨ F.NeverWrites j (a j))
    (hstep : Step step S (g,cs) (g',cs')) : ∃ i b es' w', step i (d i) = some b ∧
      F.Follows a g₀ g' cs' (Function.update d i b) es' w' := by
  cases hstep with
  | @thread _ _ i c h =>
    rw [hf.same] at h
    obtain ⟨new,hget,hframe⟩ := F.exec h
    rw [S.get_put] at hget hframe
    have halone : step i (d i) = some (S.put (new.foldl F.act (S.get (d i))) c) := by
      have hput := hframe (S.get (d i)) fun hreads =>
        (hf.agree i).resolve_left fun hnever => hnever _ (hf.reaches i) (F.reads_put hreads)
      rwa [S.put_put,S.put_get] at hput
    have hreach := (hf.reaches i).tail halone
    have hdone : S.get (S.put (new.foldl F.act (S.get (d i))) c) =
        (es i ++ new).foldl F.act g₀ := by
      rw [S.get_put,hf.get_eq,List.foldl_append]
    refine ⟨i,_,Function.update es i (es i ++ new),w ++ new,halone,fun j => ?_,fun j => ?_,
      fun g j => ?_,?_,?_,fun j => ?_⟩
    · by_cases hj : j = i
      · subst hj
        rwa [Function.update_self]
      · rw [Function.update_of_ne hj]
        exact hf.reaches j
    · by_cases hj : j = i
      · subst hj
        rwa [Function.update_self,Function.update_self]
      · rw [Function.update_of_ne hj,Function.update_of_ne hj]
        exact hf.get_eq j
    · by_cases hj : j = i
      · subst hj
        rw [Function.update_self,Function.update_self,S.put_put]
      · rw [Function.update_of_ne hj,Function.update_of_ne hj]
        exact hf.same g j
    · rw [List.foldl_append,← hf.shared,hget]
    · rw [sum_update,← hf.effects,Multiset.coe_add]
    · rw [hget]
      by_cases hj : j = i
      · subst hj
        rw [Function.update_self,S.get_put]
        exact (hf.agree j).imp_right fun h => agree_foldl h new
      · rw [Function.update_of_ne hj]
        rcases hsep j i hj with hnever | hnever
        · exact .inl hnever
        · refine (hf.agree j).imp_right fun h => agree_foldl_silent h fun e he => ?_
          exact hnever _ _ hreach (by rw [ha]; exact hdone) e (List.mem_append_right _ he)

theorem Follows.next (hf : F.Follows a g₀ g cs d es w) (ha : ∀ i, S.get (a i) = g₀)
    (hsep : ∀ i j, i ≠ j → F.NeverReads i (a i) ∨ F.NeverWrites j (a j))
    (hstep : Step step S (g,cs) (g',cs')) : ∃ d' es' w', F.Follows a g₀ g' cs' d' es' w' := by
  obtain ⟨i,b,es',w',_,hf'⟩ := hf.thread ha hsep hstep
  exact ⟨_,es',w',hf'⟩

/-- Threads that do not interfere run as they would alone, in whatever order they take their
steps. -/
theorem follows_of_runs (ha : ∀ i, S.get (a i) = g₀) (hcs : ∀ g i, S.put g (cs i) = S.put g (a i))
    (hsep : ∀ i j, i ≠ j → F.NeverReads i (a i) ∨ F.NeverWrites j (a j))
    (h : Runs step S (g₀,cs) (g,cs')) : ∃ d es w, F.Follows a g₀ g cs' d es w := by
  refine Relation.ReflTransGen.rec (motive := fun x _ => ∃ d es w, F.Follows a g₀ x.1 x.2 d es w)
    ?_ (fun _ hstep ⟨_,_,_,hf⟩ => hf.next ha hsep hstep) h
  exact ⟨a,fun _ => [],[],fun _ => .refl,ha,hcs,rfl,by simp,fun i => .inr (by
    rw [ha]
    exact F.agree_refl _)⟩

omit [DecidableEq ι] [Fintype ι] in
theorem sum_coe (es : ι → List ε) (l : List ι) :
    (l.map fun i => (es i : Multiset ε)).sum = (l.flatMap es : Multiset ε) := by
  induction l with
  | nil => rfl
  | cons i l ih => rw [List.map_cons,List.sum_cons,ih,List.flatMap_cons,Multiset.coe_add]

theorem Follows.perm {t : ℕ} {step : Fin t → α → Option α} {F : Footprint step S ε}
    {a cs d : Fin t → α} {es : Fin t → List ε} {w : List ε} (h : F.Follows a g₀ g cs d es w) :
    w.Perm ((List.finRange t).flatMap es) := by
  rw [← Multiset.coe_eq_coe,h.effects,← sum_coe,Fin.sum_univ_def]

theorem Follows.halts (hf : F.Follows a g₀ g cs d es w)
    (hsymm : ∀ g g', F.Agree g g' → F.Agree g' g) (hstuck : ∀ s, ¬ Step step S (g,cs) s) (i : ι) :
    step i (d i) = none := by
  cases hstep : step i (d i) with
  | none => rfl
  | some b =>
    obtain ⟨new,_,hframe⟩ := F.exec hstep
    have hput := hframe g fun hreads =>
      hsymm _ _ ((hf.agree i).resolve_left fun hnever => hnever _ (hf.reaches i) hreads)
    rw [← hf.same] at hput
    exact absurd (.thread hput) (hstuck _)

/-- If every thread would come to an end alone, every order of their steps does. -/
theorem Follows.acc (ha : ∀ i, S.get (a i) = g₀)
    (hsep : ∀ i j, i ≠ j → F.NeverReads i (a i) ∨ F.NeverWrites j (a j)) (N : ℕ) :
    ∀ {g : γ} {cs d : ι → α} {es : ι → List ε} {w : List ε} (n : ι → ℕ) (c : ι → α),
      ∑ i, n i = N → (∀ i, Counts (step i) (fun _ => True) (n i) (d i) (c i)) →
      F.Follows a g₀ g cs d es w → Acc (fun s s' => Step step S s' s) (g,cs) := by
  induction N with
  | zero =>
    intro g cs d es w n c hsum hends hf
    refine .intro _ fun s hs => ?_
    obtain ⟨i,b,_,_,hstep,_⟩ := hf.thread ha hsep hs
    obtain ⟨m,hm,_⟩ := (hends i).exists_succ hstep
    have hzero : n i = 0 := Finset.sum_eq_zero_iff.1 hsum i (Finset.mem_univ i)
    omega
  | succ N ih =>
    intro g cs d es w n c hsum hends hf
    refine .intro _ fun s hs => ?_
    obtain ⟨i,b,_,_,hstep,hf'⟩ := hf.thread ha hsep hs
    obtain ⟨m,hm,hrest⟩ := (hends i).exists_succ hstep
    refine ih (Function.update n i m) c ?_ (fun j => ?_) hf'
    · have hout : ∑ j ∈ Finset.univ.erase i, Function.update n i m j =
          ∑ j ∈ Finset.univ.erase i, n j :=
        Finset.sum_congr rfl fun j hj => Function.update_of_ne (Finset.ne_of_mem_erase hj) ..
      rw [← Finset.add_sum_erase _ _ (Finset.mem_univ i),hm] at hsum
      rw [← Finset.add_sum_erase _ _ (Finset.mem_univ i),hout,Function.update_self]
      omega
    · by_cases hj : j = i
      · subst hj
        rwa [Function.update_self,Function.update_self]
      · rw [Function.update_of_ne hj,Function.update_of_ne hj]
        exact hends j

end Footprint
end Interleaving
