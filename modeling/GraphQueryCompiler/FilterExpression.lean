import Mathlib.Tactic

/-!
# Filter expressions

The token classes of `filter_expression.hpp` and the order in which `accept`
presents them to an `expression_visitor`: operands first, left before right, and
every level of nesting one rank deeper.
-/

namespace GraphQueryCompiler

/-- `number_token`, `key_token`, `str_token`, `fct_call` (a function handle) and the
three predicates. -/
inductive FilterExpr
  | num (value : ℤ)
  | key (qrId : ℕ) (key : String)
  | str (str : String)
  | fct (fct : ℕ)
  | eq (left right : FilterExpr)
  | and (left right : FilterExpr)
  | or (left right : FilterExpr)
  deriving DecidableEq, Repr

/-- `FOP_TYPE`, as the constructors of the tokens set it. `fct_call` leaves it unset;
`none` stands for that. -/
inductive FopType
  | INT
  | DOUBLE
  | STRING
  | DATE
  | TIME
  | OP
  | BOOL_OP
  | KEY
  | UINT64
  deriving DecidableEq, Repr

def FilterExpr.ftype : FilterExpr → Option FopType
  | .num _ => some .INT
  | .key _ _ => some .KEY
  | .str _ => some .STRING
  | .fct _ => none
  | .eq _ _ => some .OP
  | .and _ _ => some .BOOL_OP
  | .or _ _ => some .BOOL_OP

/-- An `expression_visitor` that may fail, with its state as the carrier. -/
structure ExpressionVisitor (σ : Type*) where
  visit : ℕ → FilterExpr → σ → Option σ

def FilterExpr.accept {σ : Type*} (vis : ExpressionVisitor σ) :
    FilterExpr → ℕ → σ → Option σ
  | .eq l r, rank, s => do
    let s ← l.accept vis (rank+1) s
    let s ← r.accept vis (rank+1) s
    vis.visit rank (.eq l r) s
  | .and l r, rank, s => do
    let s ← l.accept vis (rank+1) s
    let s ← r.accept vis (rank+1) s
    vis.visit rank (.and l r) s
  | .or l r, rank, s => do
    let s ← l.accept vis (rank+1) s
    let s ← r.accept vis (rank+1) s
    vis.visit rank (.or l r) s
  | e, rank, s => vis.visit rank e s

theorem FilterExpr.accept_preserves {σ : Type*} {vis : ExpressionVisitor σ} {P : σ → Prop}
    (hvisit : ∀ rank e s s', vis.visit rank e s = some s' → P s → P s') (e : FilterExpr) :
    ∀ {rank : ℕ} {s s' : σ}, e.accept vis rank s = some s' → P s → P s' := by
  induction e with
  | num | key | str | fct => exact fun h hs => hvisit _ _ _ _ h hs
  | eq l r ihl ihr | and l r ihl ihr | or l r ihl ihr =>
    intro rank s s' h hs
    simp only [accept,Option.bind_eq_bind,Option.bind_eq_some_iff] at h
    obtain ⟨s₁,h₁,s₂,h₂,h₃⟩ := h
    exact hvisit _ _ _ _ h₃ (ihr h₂ (ihl h₁ hs))

end GraphQueryCompiler
