import GraphQueryCompiler.GraphDb
import GraphQueryCompiler.FilterExpression

/-!
# Query operators and their traversal

A plan is the tree of operator objects: `inputs_[0]` is the operator that consumes
the tuples of this one, and a join has the access path of its right-hand side as
`inputs_[1]`. `Plan.codegen` is the family of `X::codegen` methods, which number the
operators through one counter passed by reference while they hand every operator to
an `op_visitor`.
-/

namespace GraphQueryCompiler

inductive FType
  | INT
  | DOUBLE
  | STRING
  | DATE
  | TIME
  | BOOLEAN
  | UINT64
  deriving DecidableEq, Repr

def FType.toNat : FType → ℕ
  | .INT => 0
  | .DOUBLE => 1
  | .STRING => 2
  | .DATE => 3
  | .TIME => 4
  | .BOOLEAN => 5
  | .UINT64 => 6

structure PrExpr where
  id : ℕ
  key : String
  type : FType
  deriving DecidableEq, Repr

inductive JoinOp
  | CROSS
  | LEFT_OUTER
  | NESTED_LOOP
  | HASH_JOIN
  deriving DecidableEq, Repr

inductive CreateType
  | node
  | rship
  deriving DecidableEq, Repr

/-- The operator tree. A comparator of `Sort` is a handle of its function object. -/
inductive Plan
  | scan (label : String) (indexed : Bool) (inp : Plan)
  | foreachRship (dir : RshipDir) (hops : ℤ × ℤ) (label : String) (inp : Plan)
  | expand (exp : ExpandDir) (label : String) (inp : Plan)
  | filter (fexpr : FilterExpr) (inp : Plan)
  | project (prexpr : List PrExpr) (inp : Plan)
  | join (jop : JoinOp) (pos : ℕ × ℕ) (lhs rhs : Plan)
  | sort (cmp : ℕ) (inp : Plan)
  | limit (limit : ℤ) (inp : Plan)
  | create (type : CreateType) (srcDes : ℕ × ℕ) (inp : Plan)
  | collect (print : Bool)
  | endOp
  deriving DecidableEq, Repr

def isVariable (hops : ℤ × ℤ) : Bool := ¬ (hops.1 = 0 ∧ hops.2 = 0)

/-- An `op_visitor` that may fail, with its state as the carrier. It receives the
operator together with its `inputs_`, and its `op_id_`. -/
structure OpVisitor (σ : Type*) where
  visit : Plan → ℕ → σ → Option σ

def Plan.nextOffset : Plan → ℕ
  | .scan _ indexed _ => if indexed then 3 else 1
  | .foreachRship .. => 1
  | .expand .. => 1
  | .filter .. => 1
  | .project .. => 0
  | .sort .. => 1
  | .limit .. => 1
  | .create .. => 2
  | _ => 0

/-- `X::codegen(vis, op_id, interpreted)`; the result carries the final value of the
counter. `Sort`, `Limit` and `Create` descend with `interpreted` set, and a join visits
its right-hand side before itself unless it is set. -/
def Plan.codegen {σ : Type*} (vis : OpVisitor σ) : Plan → ℕ → Bool → σ → Option (σ × ℕ)
  | .scan label indexed inp, opId, interpreted, s => do
    let s ← vis.visit (.scan label indexed inp) opId s
    inp.codegen vis (opId + if indexed then 3 else 1) interpreted s
  | .foreachRship dir hops label inp, opId, interpreted, s => do
    let s ← vis.visit (.foreachRship dir hops label inp) opId s
    inp.codegen vis (opId+1) interpreted s
  | .expand exp label inp, opId, interpreted, s => do
    let s ← vis.visit (.expand exp label inp) opId s
    inp.codegen vis (opId+1) interpreted s
  | .filter fexpr inp, opId, interpreted, s => do
    let s ← vis.visit (.filter fexpr inp) opId s
    inp.codegen vis (opId+1) interpreted s
  | .project prexpr inp, opId, interpreted, s => do
    let s ← vis.visit (.project prexpr inp) opId s
    inp.codegen vis opId interpreted s
  | .join jop pos lhs rhs, opId, interpreted, s =>
    if interpreted then do
      let s ← vis.visit (.join jop pos lhs rhs) opId s
      let (s,opId) ← lhs.codegen vis opId true s
      rhs.codegen vis opId true s
    else do
      let (s,opId') ← rhs.codegen vis opId false s
      let s ← vis.visit (.join jop pos lhs rhs) opId s
      lhs.codegen vis opId' false s
  | .sort cmp inp, opId, _, s => do
    let s ← vis.visit (.sort cmp inp) opId s
    inp.codegen vis (opId+1) true s
  | .limit n inp, opId, _, s => do
    let s ← vis.visit (.limit n inp) opId s
    inp.codegen vis (opId+1) true s
  | .create type srcDes inp, opId, _, s => do
    let s ← vis.visit (.create type srcDes inp) opId s
    inp.codegen vis (opId+2) true s
  | .collect print, opId, _, s => do
    let s ← vis.visit (.collect print) opId s
    return (s,opId)
  | .endOp, opId, _, s => do
    let s ← vis.visit .endOp opId s
    return (s,opId)

def Plan.input : Plan → Option Plan
  | .scan _ _ inp => some inp
  | .foreachRship _ _ _ inp => some inp
  | .expand _ _ inp => some inp
  | .filter _ inp => some inp
  | .project _ inp => some inp
  | .sort _ inp => some inp
  | .limit _ inp => some inp
  | .create _ _ inp => some inp
  | _ => none

theorem Plan.codegen_input {σ : Type*} {vis : OpVisitor σ} {p inp : Plan} {opId : ℕ} {s : σ}
    (h : p.input = some inp) :
    p.codegen vis opId true s =
      (vis.visit p opId s).bind (inp.codegen vis (opId + p.nextOffset) true) := by
  cases p <;> simp only [input,reduceCtorEq,Option.some.injEq] at h <;> subst h <;> rfl

def OpVisitor.logging {σ α : Type*} (vis : OpVisitor σ) (log : Plan → ℕ → σ → List α) :
    OpVisitor (σ × List α) where
  visit op opId s := (vis.visit op opId s.1).map fun s' => (s',s.2 ++ log op opId s.1)

theorem OpVisitor.logging_visit {σ α : Type*} (vis : OpVisitor σ) (log : Plan → ℕ → σ → List α)
    (op : Plan) (opId : ℕ) (s : σ) (l : List α) :
    (vis.logging log).visit op opId (s,l) =
      (vis.visit op opId s).map fun s' => (s',l ++ log op opId s) := rfl

theorem Plan.codegen_logging {σ α : Type*} {vis : OpVisitor σ} {log : Plan → ℕ → σ → List α}
    (p : Plan) : ∀ {opId : ℕ} {interpreted : Bool} {s : σ} {l : List α},
      (p.codegen (vis.logging log) opId interpreted (s,l)).map (fun r => (r.1.1,r.2)) =
        p.codegen vis opId interpreted s := by
  induction p with
  | collect | endOp =>
    intro opId interpreted s l
    simp only [codegen,OpVisitor.logging_visit,Option.bind_eq_bind]
    cases vis.visit _ opId s <;> rfl
  | join jop pos lhs rhs ihl ihr =>
    intro opId interpreted s l
    cases interpreted
    · simp only [codegen,Bool.false_eq_true,if_false,Option.bind_eq_bind]
      rw [← ihr (l := l)]
      rcases rhs.codegen (vis.logging log) opId false (s,l) with _ | ⟨⟨s₁,l₁⟩,n₁⟩
      · rfl
      · simp only [Option.bind_some,Option.map_some,OpVisitor.logging_visit]
        cases vis.visit (.join jop pos lhs rhs) opId s₁ with
        | none => rfl
        | some s₂ => exact ihl
    · simp only [codegen,if_true,Option.bind_eq_bind]
      rw [OpVisitor.logging_visit]
      cases vis.visit (.join jop pos lhs rhs) opId s with
      | none => rfl
      | some s₁ =>
        simp only [Option.map_some,Option.bind_some]
        rw [← ihl (l := l ++ log (.join jop pos lhs rhs) opId s)]
        rcases lhs.codegen (vis.logging log) opId true _ with _ | ⟨⟨s₂,l₂⟩,n₂⟩
        · rfl
        · exact ihr
  | _ _ _ =>
    rename_i ih
    intro opId interpreted s l
    simp only [codegen,OpVisitor.logging_visit,Option.bind_eq_bind]
    cases vis.visit _ opId s with
    | none => rfl
    | some s₁ => exact ih

/-- A transitive relation between the states around the visits of all operators of a kind holds
between the states around the traversal of a plan of them. -/
theorem Plan.codegen_rel_of {σ : Type*} {vis : OpVisitor σ} {R : σ → σ → Prop} {Q : Plan → Prop}
    (hinput : ∀ p inp, p.input = some inp → Q p → Q inp)
    (hjoin : ∀ jop pos lhs rhs, Q (.join jop pos lhs rhs) → Q lhs ∧ Q rhs)
    (htrans : ∀ s₁ s₂ s₃, R s₁ s₂ → R s₂ s₃ → R s₁ s₃)
    (hvisit : ∀ op opId s s', Q op → vis.visit op opId s = some s' → R s s') (p : Plan) (hp : Q p) :
    ∀ {opId opId' : ℕ} {interpreted : Bool} {s s' : σ},
      p.codegen vis opId interpreted s = some (s',opId') → R s s' := by
  induction p with
  | collect | endOp =>
    intro opId opId' interpreted s s' h
    simp only [codegen,Option.bind_eq_bind,Option.bind_eq_some_iff,Option.pure_def,
      Option.some.injEq,Prod.mk.injEq] at h
    obtain ⟨s₁,h₁,rfl,_⟩ := h
    exact hvisit _ _ _ _ hp h₁
  | join jop pos lhs rhs ihl ihr =>
    intro opId opId' interpreted s s' h
    obtain ⟨hl,hr⟩ := hjoin _ _ _ _ hp
    cases interpreted <;>
      simp only [codegen,Bool.false_eq_true,if_false,if_true,Option.bind_eq_bind,
        Option.bind_eq_some_iff,Prod.exists] at h
    · obtain ⟨s₁,n₁,h₁,s₂,h₂,h₃⟩ := h
      exact htrans _ _ _ (ihr hr h₁) (htrans _ _ _ (hvisit _ _ _ _ hp h₂) (ihl hl h₃))
    · obtain ⟨s₁,h₁,s₂,n₂,h₂,h₃⟩ := h
      exact htrans _ _ _ (hvisit _ _ _ _ hp h₁) (htrans _ _ _ (ihl hl h₂) (ihr hr h₃))
  | _ _ _ =>
    rename_i ih
    intro opId opId' interpreted s s' h
    simp only [codegen,Option.bind_eq_bind,Option.bind_eq_some_iff] at h
    obtain ⟨s₁,h₁,h₂⟩ := h
    exact htrans _ _ _ (hvisit _ _ _ _ hp h₁) (ih (hinput _ _ rfl hp) h₂)

theorem Plan.codegen_rel {σ : Type*} {vis : OpVisitor σ} {R : σ → σ → Prop}
    (htrans : ∀ s₁ s₂ s₃, R s₁ s₂ → R s₂ s₃ → R s₁ s₃)
    (hvisit : ∀ op opId s s', vis.visit op opId s = some s' → R s s') (p : Plan)
    {opId opId' : ℕ} {interpreted : Bool} {s s' : σ}
    (h : p.codegen vis opId interpreted s = some (s',opId')) : R s s' :=
  p.codegen_rel_of (Q := fun _ => True) (fun _ _ _ _ => trivial)
    (fun _ _ _ _ _ => ⟨trivial,trivial⟩)
    htrans (fun op opId s s' _ => hvisit op opId s s') trivial h

def Plan.opIdEnd : Plan → ℕ → ℕ
  | .scan _ indexed inp, opId => inp.opIdEnd (opId + if indexed then 3 else 1)
  | .foreachRship _ _ _ inp, opId => inp.opIdEnd (opId+1)
  | .expand _ _ inp, opId => inp.opIdEnd (opId+1)
  | .filter _ inp, opId => inp.opIdEnd (opId+1)
  | .project _ inp, opId => inp.opIdEnd opId
  | .join _ _ lhs rhs, opId => rhs.opIdEnd (lhs.opIdEnd opId)
  | .sort _ inp, opId => inp.opIdEnd (opId+1)
  | .limit _ inp, opId => inp.opIdEnd (opId+1)
  | .create _ _ inp, opId => inp.opIdEnd (opId+2)
  | .collect _, opId => opId
  | .endOp, opId => opId

theorem Plan.opIdEnd_input {p inp : Plan} {opId : ℕ} (hin : p.input = some inp) :
    p.opIdEnd opId = inp.opIdEnd (opId + p.nextOffset) := by
  cases p <;> simp only [input,reduceCtorEq,Option.some.injEq] at hin <;> subst hin <;> rfl

theorem Plan.codegen_opId {σ : Type*} {vis : OpVisitor σ} (p : Plan) :
    ∀ {opId opId' : ℕ} {s s' : σ}, p.codegen vis opId true s = some (s',opId') →
      opId' = p.opIdEnd opId := by
  induction p with
  | collect | endOp =>
    intro opId opId' s s' h
    simp only [codegen,Option.bind_eq_bind,Option.bind_eq_some_iff,Option.pure_def,
      Option.some.injEq,Prod.mk.injEq] at h
    obtain ⟨_,_,_,rfl⟩ := h
    rfl
  | join jop pos lhs rhs ihl ihr =>
    intro opId opId' s s' h
    simp only [codegen,if_true,Option.bind_eq_bind,Option.bind_eq_some_iff,Prod.exists] at h
    obtain ⟨_,_,_,_,h₂,h₃⟩ := h
    rw [ihr h₃,ihl h₂,opIdEnd]
  | _ _ _ =>
    rename_i ih
    intro opId opId' s s' h
    simp only [codegen,Option.bind_eq_bind,Option.bind_eq_some_iff] at h
    obtain ⟨_,_,h₂⟩ := h
    exact ih h₂

theorem Plan.codegen_total {σ : Type*} {vis : OpVisitor σ} {I : σ → Prop} {R : σ → σ → Prop}
    (htrans : ∀ s₁ s₂ s₃, R s₁ s₂ → R s₂ s₃ → R s₁ s₃)
    (hvisit : ∀ op opId s, I s → ∃ s', vis.visit op opId s = some s' ∧ I s' ∧ R s s') (p : Plan) :
    ∀ (opId : ℕ) (s : σ), I s →
      ∃ s', p.codegen vis opId true s = some (s',p.opIdEnd opId) ∧ I s' ∧ R s s' := by
  have hunary : ∀ {p inp : Plan}, p.input = some inp →
      (∀ opId s, I s → ∃ s', inp.codegen vis opId true s = some (s',inp.opIdEnd opId) ∧
        I s' ∧ R s s') → ∀ opId s, I s → ∃ s',
        p.codegen vis opId true s = some (s',p.opIdEnd opId) ∧ I s' ∧ R s s' := by
    intro p inp hin ih opId s hs
    obtain ⟨s₁,h₁,hs₁,hr₁⟩ := hvisit p opId s hs
    obtain ⟨s₂,h₂,hs₂,hr₂⟩ := ih (opId + p.nextOffset) s₁ hs₁
    refine ⟨s₂,?_,hs₂,htrans _ _ _ hr₁ hr₂⟩
    rw [codegen_input hin,h₁,Option.bind_some,h₂,opIdEnd_input hin]
  induction p with
  | collect print =>
    intro opId s hs
    obtain ⟨s₁,h₁,hrest⟩ := hvisit (.collect print) opId s hs
    exact ⟨s₁,by simp [codegen,h₁,opIdEnd],hrest⟩
  | endOp =>
    intro opId s hs
    obtain ⟨s₁,h₁,hrest⟩ := hvisit .endOp opId s hs
    exact ⟨s₁,by simp [codegen,h₁,opIdEnd],hrest⟩
  | join jop pos lhs rhs ihl ihr =>
    intro opId s hs
    obtain ⟨s₁,h₁,hs₁,hr₁⟩ := hvisit (.join jop pos lhs rhs) opId s hs
    obtain ⟨s₂,h₂,hs₂,hr₂⟩ := ihl opId s₁ hs₁
    obtain ⟨s₃,h₃,hs₃,hr₃⟩ := ihr (lhs.opIdEnd opId) s₂ hs₂
    refine ⟨s₃,?_,hs₃,htrans _ _ _ hr₁ (htrans _ _ _ hr₂ hr₃)⟩
    simp only [codegen,if_true,Option.bind_eq_bind,h₁,Option.bind_some,h₂,h₃,opIdEnd]
  | _ _ _ =>
    rename_i ih
    exact hunary rfl ih

def Plan.numVisits : Plan → ℕ
  | .scan _ _ inp => inp.numVisits+1
  | .foreachRship _ _ _ inp => inp.numVisits+1
  | .expand _ _ inp => inp.numVisits+1
  | .filter _ inp => inp.numVisits+1
  | .project _ inp => inp.numVisits+1
  | .join _ _ lhs rhs => lhs.numVisits+rhs.numVisits+1
  | .sort _ inp => inp.numVisits+1
  | .limit _ inp => inp.numVisits+1
  | .create _ _ inp => inp.numVisits+1
  | .collect _ => 1
  | .endOp => 1

end GraphQueryCompiler
