import GraphQueryCompiler.Lib.StepMachine

/-!
# Functions that call each other

A frame is a function that is running. The one on top of the stack acts on a memory that all of
them share, until it returns to the one below.
-/

namespace CallStack
open StepMachine

variable {φ μ : Type*}

inductive Action (φ μ : Type*)
  | next (f : φ) (m : μ)
  | call (callee caller : φ) (m : μ)
  | ret (m : μ)

def step (act : φ → μ → Option (Action φ μ)) : List φ × μ → Option (List φ × μ)
  | ([],_) => none
  | (f :: fs,m) =>
    match act f m with
    | some (.next f m) => some (f :: fs,m)
    | some (.call callee caller m) => some (callee :: caller :: fs,m)
    | some (.ret m) => some (fs,m)
    | none => none

def Within (act : φ → μ → Option (Action φ μ)) (f : φ) (m : μ) (f' : φ) (m' : μ) : Prop :=
  ∀ fs, Reaches (step act) (f :: fs,m) (f' :: fs,m')

def CallReturns (act : φ → μ → Option (Action φ μ)) (f : φ) (m m' : μ) : Prop :=
  ∀ fs, Reaches (step act) (f :: fs,m) (fs,m')

variable {act : φ → μ → Option (Action φ μ)} {f f₁ f₂ g : φ} {m m₁ m₂ m' : μ}

theorem Within.refl : Within act f m f m := fun _ => .refl

theorem Within.trans (h : Within act f m f₁ m₁) (h' : Within act f₁ m₁ f₂ m₂) :
    Within act f m f₂ m₂ := fun fs => (h fs).trans (h' fs)

theorem Within.single (h : act f m = some (.next f₁ m₁)) : Within act f m f₁ m₁ :=
  fun fs => Reaches.single (by simp only [step,h])

theorem CallReturns.ret (h : act f m = some (.ret m')) : CallReturns act f m m' :=
  fun fs => Reaches.single (by simp only [step,h])

theorem CallReturns.of_within (h : Within act f m f₁ m₁) (h' : CallReturns act f₁ m₁ m') :
    CallReturns act f m m' := fun fs => (h fs).trans (h' fs)

theorem CallReturns.next (h : act f m = some (.next f₁ m₁)) (h' : CallReturns act f₁ m₁ m') :
    CallReturns act f m m' := .of_within (.single h) h'

theorem CallReturns.call (h : act f m = some (.call g f₁ m₁)) (hg : CallReturns act g m₁ m₂)
    (h' : CallReturns act f₁ m₂ m') : CallReturns act f m m' := by
  intro fs
  refine Reaches.head (b := (g :: f₁ :: fs,m₁)) (by simp only [step,h]) ?_
  exact (hg (f₁ :: fs)).trans (h' fs)

theorem CallReturns.returns (h : CallReturns act f m m') : Returns (step act) ([f],m) ([],m') :=
  ⟨h [],rfl⟩

end CallStack
