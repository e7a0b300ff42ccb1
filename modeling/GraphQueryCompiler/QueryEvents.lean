import GraphQueryCompiler.LeftOuterJoin
import GraphQueryCompiler.LimitedRows
import GraphQueryCompiler.NestedLoopJoin

/-!
# Queries

The plans with traversals, comparisons, limits, one join, a projection and a sort in the main
pipeline, and what they mean: the stream of the tuples that arrive at limits and of the rows, as
it is without the limits.
-/

namespace GraphQueryCompiler
open LimitedStream (rows arrivals stops shared)

variable {env : Env} {ts : List ℕ} {p inp : Plan} {t : List QrVal} {pe : PrExpr}
  {prexpr : List PrExpr} {i : ℕ}

def PrExpr.entry (pe : PrExpr) (t : List QrVal) : Option QrVal :=
  if pe.type = .BOOLEAN then t[pe.id]?
  else match t[pe.id]? with
    | some (.node n) => some (.property true n pe.key pe.type)
    | some (.rship r) => some (.property false r pe.key pe.type)
    | _ => none

def projectRow (prexpr : List PrExpr) (t : List QrVal) : List QrVal :=
  prexpr.filterMap fun pe => pe.entry t

/-- Expressions over registers of the given types, the first of them the `i`-th of its operator.
There are cells for eleven. `con_map` has no function for `DOUBLE`, and `apply_pexpr_rship` does
nothing for `UINT64`. -/
def Projectable (ts : List ℕ) : ℕ → List PrExpr → Prop
  | _, [] => True
  | i, pe :: pes =>
    (∃ type, ts[pe.id]? = some type ∧
      (pe.type = .BOOLEAN ∨ type ≤ 1 ∧ pe.type ≠ .DOUBLE ∧ (pe.type = .UINT64 → type = 0) ∧
        i < 12)) ∧ Projectable ts (i+1) pes

theorem PrExpr.entry_boolean (h : pe.type = .BOOLEAN) : pe.entry t = t[pe.id]? := if_pos h

theorem PrExpr.entry_property (h : pe.type ≠ .BOOLEAN) {type : ℕ} {q : QrVal}
    (hq : t[pe.id]? = some q) (htype : HasType type q) (hle : type ≤ 1) :
    ∃ x, q = (if type = 0 then .node x else .rship x) ∧
      pe.entry t = some (.property (type = 0) x pe.key pe.type) := by
  rw [entry,if_neg h,hq]
  cases htype with
  | node n => exact ⟨n,rfl,rfl⟩
  | rship r => exact ⟨r,rfl,rfl⟩
  | flag d => exact absurd hle (by omega)

theorem projectRow_cons {q : QrVal} (h : pe.entry t = some q) :
    projectRow (pe :: prexpr) t = q :: projectRow prexpr t := List.filterMap_cons_some h

namespace Plan

def Tail : Plan → Prop
  | .sort _ inp => inp.Tail
  | .limit _ inp => inp.Tail
  | .collect _ => True
  | _ => False

/-- What is behind the scan of a query. The list has the types of the registers in front of it;
the right-hand side of a join has cross joins only. -/
inductive Query : List ℕ → Plan → Prop
  | foreachRship {ts : List ℕ} {dir : RshipDir} {label : String} {inp : Plan} :
      ts.getLast? = some 0 → Query (ts ++ [1]) inp →
      Query ts (.foreachRship dir (0,0) label inp)
  | expand {ts : List ℕ} {exp : ExpandDir} {label : String} {inp : Plan} :
      ts.getLast? = some 1 → Query (ts ++ [0]) inp → Query ts (.expand exp label inp)
  | filter {ts : List ℕ} {i : ℕ} {key : String} {c : ℤ} {inp : Plan} :
      ts[i]? = some 0 → Query ts inp → Query ts (.filter (.eq (.key i key) (.num c)) inp)
  | limit {ts : List ℕ} {n : ℤ} {inp : Plan} : Query ts inp → Query ts (.limit n inp)
  | sort {ts : List ℕ} {cmp : ℕ} {inp : Plan} : Query ts inp → Query ts (.sort cmp inp)
  | cross {ts : List ℕ} {pos : ℕ × ℕ} {lhs rhs : Plan} :
      rhs.AccessPath → rhs.Nested false → lhs.JoinFree → Query (ts ++ rhs.rhsType) lhs →
      Query ts (.join .CROSS pos lhs rhs)
  | leftOuter {ts : List ℕ} {pos : ℕ × ℕ} {lhs rhs : Plan} :
      ts[pos.1]? = some 0 → rhs.rhsType[pos.2]? = some 0 →
      rhs.AccessPath → rhs.Nested false → lhs.JoinFree → Query (ts ++ rhs.rhsType ++ [7]) lhs →
      Query ts (.join .LEFT_OUTER pos lhs rhs)
  | project {ts : List ℕ} {prexpr : List PrExpr} {inp : Plan} :
      Projectable ts 1 prexpr → inp.Tail → Query ts (.project prexpr inp)
  | collect {ts : List ℕ} {print : Bool} : Query ts (.collect print)

def events (env : Env) : Plan → ℕ → List QrVal → List TupleEvent
  | .scan _ _ inp, opId, _ =>
    ((env.db.range env.first env.last).filter fun n =>
      (env.db.nodeById n).nodeLabel = env.db.argLabel env.args opId).flatMap fun n =>
        inp.events env (opId+1) [.node n]
  | .foreachRship dir _ _ inp, opId, t =>
    (env.traversed dir opId t).flatMap fun u => inp.events env (opId+1) u
  | .expand exp label inp, opId, t =>
    (env.expanded exp label opId t).flatMap fun u => inp.events env (opId+1) u
  | .filter (.eq (.key i key) (.num _)) inp, opId, t =>
    (env.filtered i key opId t).flatMap fun u => inp.events env (opId+1) u
  | .limit n inp, opId, t =>
    .arrive (CodegenInlineVisitor.limitConst n) :: inp.events env (opId+1) t
  | .sort _ inp, opId, t => inp.events env (opId+1) t
  | .join .CROSS _ lhs rhs, opId, t =>
    (rhs.rows env (lhs.opIdEnd opId) []).flatMap fun r => lhs.events env opId (t ++ r)
  | .join .LEFT_OUTER pos lhs rhs, opId, t =>
    match t[pos.1]? with
    | some (.node n) =>
      (env.outerRows pos.2 n t 1 (rhs.rows env (lhs.opIdEnd opId) [])).flatMap fun u =>
        lhs.events env opId u
    | _ => []
  | .project prexpr inp, opId, t => inp.events env opId (projectRow prexpr t)
  | .collect _, _, t => [.row t]
  | _, _, _ => []

def firstRhs : Plan → ℕ → Option (Plan × ℕ)
  | .foreachRship _ _ _ inp, opId => inp.firstRhs (opId+1)
  | .expand _ _ inp, opId => inp.firstRhs (opId+1)
  | .filter _ inp, opId => inp.firstRhs (opId+1)
  | .limit _ inp, opId => inp.firstRhs (opId+1)
  | .sort _ inp, opId => inp.firstRhs (opId+1)
  | .join _ _ lhs rhs, opId => some (rhs,lhs.opIdEnd opId)
  | _, _ => none

def joinList (env : Env) (p : Plan) (opId : ℕ) : List (List QrVal) :=
  ((p.firstRhs opId).map fun x => x.1.rows env x.2 []).getD []

theorem Tail.joinFree (h : p.Tail) : p.JoinFree := by
  induction p with
  | sort _ _ ih | limit _ _ ih => exact ih h
  | collect => trivial
  | _ => exact absurd h id

theorem Tail.suffix (h : p.Tail) : p.Suffix := by
  induction p with
  | sort _ _ ih | limit _ _ ih => exact ⟨rfl,ih h⟩
  | collect => rfl
  | _ => exact absurd h id

theorem Tail.projectionKeys (h : p.Tail) : p.projectionKeys = [] := by
  induction p with
  | sort _ _ ih | limit _ _ ih => exact ih h
  | collect => rfl
  | _ => exact absurd h id

theorem Query.suffix (h : Query ts p) : p.Suffix := by
  induction h with
  | foreachRship _ _ ih | expand _ _ ih | filter _ _ ih | limit _ ih | sort _ ih => exact ⟨rfl,ih⟩
  | cross hr _ _ _ ih | leftOuter _ _ hr _ _ _ ih => exact ⟨rfl,ih,hr⟩
  | project _ htail => exact ⟨rfl,htail.suffix⟩
  | collect => rfl

end Plan
end GraphQueryCompiler
