import GraphQueryCompiler.PipelineRules
import GraphQueryCompiler.PlanSimulation

/-!
# Nested loops

The meaning of a plan as nested loops over lists, and the plans it is defined for. A tuple
is the list of what its operators produced; the right-hand side of a cross join is
evaluated once and for all.
-/

namespace GraphQueryCompiler
open LinkedChain

namespace Env
variable (env : Env)

/-- A traversal: the relationships of the last node that have the label, in list order. -/
def traversed (dir : RshipDir) (opId : ℕ) (t : List QrVal) : List (List QrVal) :=
  match t.getLast? with
  | some (.node n) =>
    ((env.db.rships dir n).filter fun r =>
      (env.db.rshipById r).rshipLabel = env.db.argLabel env.args opId).map fun r => t ++ [.rship r]
  | _ => []

def expanded (exp : ExpandDir) (label : String) (opId : ℕ) (t : List QrVal) :
    List (List QrVal) :=
  match t.getLast? with
  | some (.rship r) =>
    if label ≠ "" → (env.db.nodeById ((env.db.rshipById r).endpoint exp)).nodeLabel =
        env.db.argLabel env.args opId then
      [t ++ [.node ((env.db.rshipById r).endpoint exp)]]
    else []
  | _ => []

def filtered (i : ℕ) (key : String) (opId : ℕ) (t : List QrVal) : List (List QrVal) :=
  match t[i]? with
  | some (.node n) =>
    if (env.db.findProperty n (env.db.getCode key)).map PItem.value =
        some (env.args.word opId) then [t]
    else []
  | _ => []

variable {env} {dir : RshipDir} {exp : ExpandDir} {label key : String} {i opId : ℕ}
  {t u : List QrVal}

theorem mem_traversed (h : u ∈ env.traversed dir opId t) : ∃ r, u = t ++ [.rship r] := by
  unfold traversed at h
  split at h
  · obtain ⟨r,_,rfl⟩ := List.mem_map.1 h
    exact ⟨r,rfl⟩
  · simp at h

theorem mem_expanded (h : u ∈ env.expanded exp label opId t) : ∃ n, u = t ++ [.node n] := by
  unfold expanded at h
  split at h
  · rw [List.mem_ite_nil_right,List.mem_singleton] at h
    exact ⟨_,h.2⟩
  · simp at h

theorem mem_filtered (h : u ∈ env.filtered i key opId t) : u = t := by
  unfold filtered at h
  split at h
  · rw [List.mem_ite_nil_right,List.mem_singleton] at h
    exact h.2
  · simp at h

end Env

namespace Plan

/-- The rows a plan delivers for a tuple. A scan starts tuples of its own. -/
def rows (env : Env) : Plan → ℕ → List QrVal → List (List QrVal)
  | .scan _ _ inp, opId, _ =>
    ((env.db.range env.first env.last).filter fun n =>
      (env.db.nodeById n).nodeLabel = env.db.argLabel env.args opId).flatMap fun n =>
        inp.rows env (opId+1) [.node n]
  | .foreachRship dir _ _ inp, opId, t =>
    (env.traversed dir opId t).flatMap fun u => inp.rows env (opId+1) u
  | .expand exp label inp, opId, t =>
    (env.expanded exp label opId t).flatMap fun u => inp.rows env (opId+1) u
  | .filter (.eq (.key i key) (.num _)) inp, opId, t =>
    (env.filtered i key opId t).flatMap fun u => inp.rows env (opId+1) u
  | .join .CROSS _ lhs rhs, opId, t =>
    (rhs.rows env (lhs.opIdEnd opId) []).flatMap fun r => lhs.rows env opId (t ++ r)
  | .collect _, _, t => [t]
  | .endOp, _, t => [t]
  | _, _, _ => []

def JoinFree : Plan → Prop
  | .scan _ _ inp => inp.JoinFree
  | .foreachRship _ _ _ inp => inp.JoinFree
  | .expand _ _ inp => inp.JoinFree
  | .filter _ inp => inp.JoinFree
  | .project _ inp => inp.JoinFree
  | .join .. => False
  | .sort _ inp => inp.JoinFree
  | .limit _ inp => inp.JoinFree
  | .create _ _ inp => inp.JoinFree
  | .collect _ => True
  | .endOp => True

theorem JoinFree.of_input {p inp : Plan} (hj : p.JoinFree) (h : p.input = some inp) :
    inp.JoinFree := by
  cases p <;> simp only [input,reduceCtorEq,Option.some.injEq] at h <;> subst h <;> exact hj

/-- What is behind an access path: single-hop traversals from a node, expansions of a
relationship, comparisons with an integer, cross joins, and a leaf. The list has the types
of the registers in front of it. -/
inductive Chain : List ℕ → Plan → Prop
  | foreachRship {ts : List ℕ} {dir : RshipDir} {label : String} {inp : Plan} :
      ts.getLast? = some 0 → Chain (ts ++ [1]) inp →
      Chain ts (.foreachRship dir (0,0) label inp)
  | expand {ts : List ℕ} {exp : ExpandDir} {label : String} {inp : Plan} :
      ts.getLast? = some 1 → Chain (ts ++ [0]) inp → Chain ts (.expand exp label inp)
  | filter {ts : List ℕ} {i : ℕ} {key : String} {c : ℤ} {inp : Plan} :
      ts[i]? = some 0 → Chain ts inp → Chain ts (.filter (.eq (.key i key) (.num c)) inp)
  | join {ts : List ℕ} {pos : ℕ × ℕ} {lhs rhs : Plan} :
      rhs.AccessPath → Chain (ts ++ rhs.rhsType) lhs → Chain ts (.join .CROSS pos lhs rhs)
  | collect {ts : List ℕ} {print : Bool} : Chain ts (.collect print)
  | endOp {ts : List ℕ} : Chain ts .endOp

theorem Chain.suffix {ts : List ℕ} {p : Plan} (h : Chain ts p) : p.Suffix := by
  induction h with
  | foreachRship _ _ ih | expand _ _ ih | filter _ _ ih => exact ⟨rfl,ih⟩
  | join hr _ ih => exact ⟨rfl,ih,hr⟩
  | collect | endOp => rfl

/-- The plans with at most one cross join in every pipeline, of any depth: the leaf is a
`Collect` in the main pipeline (`true`) and an `End` in the others. -/
def Nested : Plan → Bool → Prop
  | .scan _ indexed inp, main => indexed = false ∧ Chain [0] inp ∧ inp.Nested main
  | .foreachRship _ _ _ inp, main => inp.Nested main
  | .expand _ _ inp, main => inp.Nested main
  | .filter _ inp, main => inp.Nested main
  | .join _ _ lhs rhs, main => lhs.JoinFree ∧ lhs.Nested main ∧ rhs.Nested false
  | .collect _, main => main = true
  | .endOp, main => main = false
  | _, _ => False

theorem rhsType_le (p : Plan) : ∀ type ∈ p.rhsType, type ≤ 1 := by
  induction p with
  | join jop _ lhs rhs ihl ihr =>
    cases jop <;> simp only [rhsType,List.mem_append]
    all_goals first | exact ihl | exact fun type h => h.elim (ihr type) (ihl type)
  | scan | foreachRship | expand =>
    simp only [rhsType,List.mem_cons]
    rintro type (rfl | h)
    · simp
    · rename_i ih
      exact ih type h
  | collect | endOp => simp [rhsType]
  | _ => assumption

end Plan

inductive HasType : ℕ → QrVal → Prop
  | node (n : ℕ) : HasType 0 (.node n)
  | rship (r : ℕ) : HasType 1 (.rship r)
  | flag (d : ℕ) : HasType 7 (.int d)

abbrev Typed (ts : List ℕ) (t : List QrVal) : Prop := List.Forall₂ HasType ts t

theorem typed_node (n : ℕ) : Typed [0] [.node n] := .cons (.node n) .nil

theorem typed_nodes (ns : List ℕ) : ∀ r ∈ ns.map fun n => [QrVal.node n], Typed [0] r :=
  List.forall_mem_map.2 fun n _ => typed_node n

def QrVal.toReg (pipe : ℕ) : QrVal → Val × ℕ
  | .node n => (.node n,0)
  | .rship r => (.rship r,1)
  | .int _ => (.cell ⟨pipe,.dangling⟩,7)
  | _ => (.undef,0)

section Typed
variable {ts : List ℕ} {t : List QrVal} {i : ℕ}

theorem getLast?_toReg {q : QrVal} (pipe : ℕ) (h : t.getLast? = some q) :
    (t.map (QrVal.toReg pipe)).getLast? = some (q.toReg pipe) := by
  rw [List.getLast?_map,h]
  rfl

theorem getElem?_toReg {q : QrVal} (pipe : ℕ) (h : t[i]? = some q) :
    (t.map (QrVal.toReg pipe))[i]? = some (q.toReg pipe) := by
  rw [List.getElem?_map,h]
  rfl

theorem Typed.getElem? (h : Typed ts t) {type : ℕ} (hi : ts[i]? = some type) :
    ∃ q, t[i]? = some q ∧ HasType type q := by
  obtain ⟨hlt,rfl⟩ := List.getElem?_eq_some_iff.1 hi
  have hlt' : i < t.length := h.length_eq ▸ hlt
  exact ⟨t[i],List.getElem?_eq_getElem hlt',h.get hlt hlt'⟩

theorem Typed.node (h : Typed ts t) (hi : ts[i]? = some 0) : ∃ n, t[i]? = some (.node n) := by
  obtain ⟨q,hq,hty⟩ := h.getElem? hi
  cases hty
  exact ⟨_,hq⟩

theorem Typed.lastNode (h : Typed ts t) (hl : ts.getLast? = some 0) :
    ∃ n, t.getLast? = some (.node n) := by
  rw [List.getLast?_eq_getElem?] at hl ⊢
  rw [← h.length_eq]
  exact h.node hl

theorem Typed.lastRship (h : Typed ts t) (hl : ts.getLast? = some 1) :
    ∃ r, t.getLast? = some (.rship r) := by
  rw [List.getLast?_eq_getElem?] at hl ⊢
  rw [← h.length_eq]
  obtain ⟨q,hq,hty⟩ := h.getElem? hl
  cases hty
  exact ⟨_,hq⟩

theorem Typed.snoc (h : Typed ts t) {type : ℕ} {q : QrVal} (hq : HasType type q) :
    Typed (ts ++ [type]) (t ++ [q]) :=
  List.rel_append h (.cons hq .nil)

end Typed

/-- A flag in a tuple is the content of its cell; only a `Collect` reads it, and no join
comes in between. -/
def FlagOk (p : Plan) (s : Sink) (sh : Shared) (t : List QrVal) : Prop :=
  ∀ d, QrVal.int d ∈ t → s = .result ∧ p.JoinFree ∧ sh.cell .dangling = .word d

section FlagOk
variable {pipe : ℕ} {ts : List ℕ} {p : Plan} {s : Sink} {t : List QrVal} {sh : Shared}

theorem FlagOk.snoc {q : QrVal} (h : FlagOk p s sh t) (hq : ∀ d, q ≠ .int d) :
    FlagOk p s sh (t ++ [q]) := by
  intro d hd
  rcases List.mem_append.1 hd with hd | hd
  · exact h d hd
  · exact absurd (List.mem_singleton.1 hd).symm (hq d)

theorem Typed.no_flag (ht : Typed ts t) (hts : ∀ type ∈ ts, type ≤ 1) (d : ℕ) :
    QrVal.int d ∉ t := by
  induction ht with
  | nil => simp
  | @cons type q ts t hq _ ih =>
    obtain ⟨hle,hts⟩ := List.forall_mem_cons.1 hts
    rw [List.mem_cons,not_or]
    refine ⟨?_,ih hts⟩
    rintro rfl
    cases hq
    exact absurd hle (by simp)

theorem row_toReg (ht : Typed ts t) (hf : FlagOk p s sh t) :
    sh.row pipe (t.map (QrVal.toReg pipe)) = some t := by
  unfold Shared.row
  induction ht with
  | nil => rfl
  | @cons type q ts t hq _ ih =>
    have hhead : sh.matRegVal pipe (q.toReg pipe).1
        (if (q.toReg pipe).2 = 7 then 2 else (q.toReg pipe).2) = some q := by
      cases hq with
      | node n => rfl
      | rship r => rfl
      | flag d => simp [QrVal.toReg,Shared.matRegVal,CellName.IsShared,(hf d (by simp)).2.2]
    rw [List.map_cons,List.mapM_cons,hhead,ih (fun d hd => hf d (List.mem_cons_of_mem _ hd))]
    rfl

theorem mapM_matEntry_toReg (ht : Typed ts t) (hf : ∀ d, QrVal.int d ∉ t) :
    (t.map (QrVal.toReg pipe)).mapM matEntry = some t := by
  induction ht with
  | nil => rfl
  | @cons type q ts t hq _ ih =>
    have hhead : matEntry (q.toReg pipe) = some q := by
      cases hq with
      | node n => rfl
      | rship r => rfl
      | flag d => exact absurd (List.mem_cons_self) (hf d)
    rw [List.map_cons,List.mapM_cons,hhead,ih (fun d hd => hf d (List.mem_cons_of_mem _ hd))]
    rfl

theorem readRes_toReg (ht : Typed ts t) (hts : ∀ type ∈ ts, type ≤ 1) :
    readRes ts t = some (t.map (QrVal.toReg pipe)) := by
  induction ht with
  | nil => rfl
  | @cons type q ts t hq _ ih =>
    obtain ⟨hle,hts⟩ := List.forall_mem_cons.1 hts
    have hhead : readEntry type q = some (q.toReg pipe) := by
      cases hq with
      | node n => rfl
      | rship r => rfl
      | flag d => exact absurd hle (by simp)
    simp only [readRes,hhead,ih hts,Option.bind_some,Option.map_some,List.map_cons]

end FlagOk
end GraphQueryCompiler
