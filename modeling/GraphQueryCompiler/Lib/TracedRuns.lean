import GraphQueryCompiler.Lib.StepMachine
import Mathlib.Tactic

/-!
# Runs with events

Every step of a machine can be seen from outside as some events. `Traced` is a run with the list
of them, `traceRun` the fuelled executor that collects them.
-/

namespace StepMachine
variable {α β : Type*} {step : α → Option α} {ev : α → α → List β} {a b c : α} {es es' : List β}

inductive Traced (step : α → Option α) (ev : α → α → List β) : List β → α → α → Prop
  | refl {a : α} : Traced step ev [] a a
  | head {a b c : α} {es : List β} : step a = some b → Traced step ev es b c →
      Traced step ev (ev a b ++ es) a c

theorem Traced.single (h : step a = some b) : Traced step ev (ev a b) a b := by
  have hrun : Traced step ev (ev a b ++ []) a b := .head h .refl
  rwa [List.append_nil] at hrun

theorem Traced.silent (hs : step a = some b) (hev : ev a b = []) (h : Traced step ev es b c) :
    Traced step ev es a c := by
  have hrun : Traced step ev (ev a b ++ es) a c := .head hs h
  rwa [hev] at hrun

theorem Traced.trans (h : Traced step ev es a b) (h' : Traced step ev es' b c) :
    Traced step ev (es ++ es') a c := by
  induction h with
  | refl => exact h'
  | head hs _ ih =>
    rw [List.append_assoc]
    exact .head hs (ih h')

theorem Traced.reaches (h : Traced step ev es a b) : Reaches step a b := by
  induction h with
  | refl => exact .refl
  | head hs _ ih => exact Reaches.head hs ih

theorem Traced.after (h : Traced step ev es a b) (h' : Traced step ev es' a c)
    (hhalt : step c = none) : ∃ es₁, es' = es ++ es₁ ∧ Traced step ev es₁ b c := by
  induction h generalizing es' with
  | refl => exact ⟨es',rfl,h'⟩
  | head hs _ ih =>
    cases h' with
    | refl =>
      rw [hhalt] at hs
      cases hs
    | head hs' h' =>
      obtain rfl := Option.some.inj (Eq.trans (Eq.symm hs) hs')
      obtain ⟨es₁,rfl,h₁⟩ := ih h'
      exact ⟨es₁,by rw [List.append_assoc],h₁⟩

theorem Traced.unique (h : Traced step ev es a b) (h' : Traced step ev es' a c)
    (hb : step b = none) (hc : step c = none) : es = es' ∧ b = c := by
  obtain ⟨es₁,rfl,h₁⟩ := h.after h' hc
  cases h₁ with
  | refl => exact ⟨(List.append_nil es).symm,rfl⟩
  | head hs _ =>
    rw [hb] at hs
    cases hs

theorem Traced.split {pre post : List β} {x : β} (h : Traced step ev (pre ++ x :: post) a c) :
    ∃ es b b' l l', Traced step ev es a b ∧ step b = some b' ∧ ev b b' = l ++ x :: l' ∧
      pre = es ++ l := by
  generalize hes : pre ++ x :: post = es at h
  induction h generalizing pre with
  | refl => simp at hes
  | @head a b c es hs _ ih =>
    rcases List.append_eq_append_iff.1 hes with ⟨l,hev,htail⟩ | ⟨pre',rfl,htail⟩
    · cases l with
      | nil =>
        -- the event is the first one behind this step
        rw [List.append_nil] at hev
        obtain ⟨es₁,d,d',l,l',hd,hstep,hx,hpre⟩ := @ih [] htail
        refine ⟨ev a b ++ es₁,d,d',l,l',.head hs hd,hstep,hx,?_⟩
        rw [hev,List.append_assoc,← hpre,List.append_nil]
      | cons y l =>
        obtain ⟨rfl,_⟩ := List.cons_eq_cons.1 htail
        exact ⟨[],a,b,pre,l,.refl,hs,hev,rfl⟩
    · obtain ⟨es₁,d,d',l,l',hd,hstep,hx,rfl⟩ := ih htail.symm
      exact ⟨ev a b ++ es₁,d,d',l,l',.head hs hd,hstep,hx,by rw [List.append_assoc]⟩

theorem Traced.invariant {I : List β → α → Prop} (es₀ : List β)
    (hstep : ∀ es a b, I es a → step a = some b → I (es ++ ev a b) b) (h : Traced step ev es a b)
    (ha : I es₀ a) : I (es₀ ++ es) b := by
  induction h generalizing es₀ with
  | refl => rwa [List.append_nil]
  | head hs _ ih =>
    rw [← List.append_assoc]
    exact ih _ (hstep _ _ _ ha hs)

def traceRun (step : α → Option α) (ev : α → α → List β) : ℕ → α → List β × α
  | 0, a => ([],a)
  | n+1, a =>
    match step a with
    | none => ([],a)
    | some b => (ev a b ++ (traceRun step ev n b).1,(traceRun step ev n b).2)

theorem traced_traceRun (n : ℕ) : ∀ a : α,
    Traced step ev (traceRun step ev n a).1 a (traceRun step ev n a).2 := by
  induction n with
  | zero => exact fun _ => .refl
  | succ n ih =>
    intro a
    cases hs : step a with
    | none =>
      simp only [traceRun,hs]
      exact .refl
    | some b =>
      simp only [traceRun,hs]
      exact .head hs (ih b)

end StepMachine
