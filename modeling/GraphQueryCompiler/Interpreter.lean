import GraphQueryCompiler.JoinIds

/-!
# The interpreter

`interprete_visitor` turns a plan into Poseidon queries. A query is the list of the steps
its builder appended. The visitor keeps a query of its own (`query_`) beside the stack
`queries_` that `start` executes, and counts the operators in a global `op_id_` of its own.
-/

namespace GraphQueryCompiler

inductive ArgPtr
  | null
  | int (i : Fin 64)
  | str (i : Fin 64)
  deriving DecidableEq, Repr

/-- `arg_builder`; the property lists are those of `Create`. -/
structure ArgBuilder where
  intArgs : Vector ℕ 64
  stringArgs : Vector String 64
  args : Vector ArgPtr 64

def ArgBuilder.new : ArgBuilder where
  intArgs := Vector.replicate 64 0
  stringArgs := Vector.replicate 64 ""
  args := Vector.replicate 64 .null

def ArgBuilder.arg (b : ArgBuilder) (opId : ℕ) (arg : String) : Option ArgBuilder :=
  if h : opId < 64 then
    some { b with stringArgs := b.stringArgs.set opId arg, args := b.args.set opId (.str ⟨opId,h⟩) }
  else none

inductive ValueType
  | dcodev
  | intv
  | uiv
  | fpv
  deriving DecidableEq, Repr

structure InterpreteFilterVisitor where
  key : String
  valType : ValueType
  intValue : ℕ
  dictValue : ℕ
  deriving DecidableEq, Repr

/-- A predicate is a closure over the visitor: it reads this member when it is called. -/
inductive Pred
  | dictValue
  | intValue
  deriving DecidableEq, Repr

/-- `get_pred`. The last two cases are behind an assertion; no visit sets them. -/
def InterpreteFilterVisitor.getPred (s : InterpreteFilterVisitor) : Pred :=
  match s.valType with
  | .dcodev => .dictValue
  | .intv => .intValue
  | .uiv => .intValue
  | .fpv => .intValue

def interpreteFilterVisitor (db : GraphDb) (args : ArgBuilder) :
    ExpressionVisitor InterpreteFilterVisitor where
  visit _ e s :=
    match e with
    | .num _ => some { s with valType := .intv, intValue := args.intArgs.get 2 }
    | .key _ key => some { s with key }
    | .str str => some { s with valType := .dcodev, dictValue := db.getCode str }
    | .fct _ | .eq _ _ | .and _ _ | .or _ _ => some s

inductive Builtin
  | uint64Property
  | intProperty
  | doubleProperty
  | stringProperty
  | ptimeProperty
  deriving DecidableEq, Repr

structure PExpr where
  id : ℕ
  fct : Builtin
  key : String
  deriving DecidableEq, Repr

/-- The expression of an entry of `prexpr_`. A `BOOLEAN` has no case: its expression is
the one the default constructor leaves. -/
def PrExpr.pexpr (p : PrExpr) : Option PExpr :=
  match p.type with
  | .UINT64 => some ⟨p.id,.uint64Property,p.key⟩
  | .INT => some ⟨p.id,.intProperty,p.key⟩
  | .DOUBLE => some ⟨p.id,.doubleProperty,p.key⟩
  | .STRING => some ⟨p.id,.stringProperty,p.key⟩
  | .DATE => some ⟨p.id,.ptimeProperty,p.key⟩
  | .TIME => some ⟨p.id,.ptimeProperty,p.key⟩
  | .BOOLEAN => none

inductive Step
  | allNodes
  | hasLabel (label : String)
  | toRelationships (hops : Option (ℤ × ℤ)) (label : String)
  | fromRelationships (hops : Option (ℤ × ℤ)) (label : String)
  | fromNode (label : String)
  | toNode (label : String)
  | property (key : String) (pred : Pred)
  | project (pexpr : List (Option PExpr))
  | orderby (cmp : ℕ)
  | limit (n : ℤ)
  | collect
  | crossjoin (rhs : List Step)
  | outerjoin (pos : ℕ × ℕ) (rhs : List Step)

abbrev Query := List Step

/-- `interprete_visitor` with the global `op_id_`; the back of `queries_` is the head. -/
structure InterpreteVisitor where
  opId : ℕ
  query : Query
  ifv : InterpreteFilterVisitor
  queries : List Query

/-- A fresh visitor. The members of its filter visitor are not initialised. -/
def InterpreteVisitor.init (ifv : InterpreteFilterVisitor) : InterpreteVisitor :=
  ⟨1,[],ifv,[]⟩

def InterpreteVisitor.update (s : InterpreteVisitor) (f : Query → Query) :
    Option InterpreteVisitor :=
  match s.queries with
  | q :: qs => some { s with queries := f q :: qs }
  | [] => none

/-- `interprete_visitor::visit`. `string_args.at` throws outside the vector. -/
def interpreteVisitor (db : GraphDb) (args : ArgBuilder) : OpVisitor InterpreteVisitor where
  visit op _ s :=
    match op with
    | .scan _ _ _ => do
      let label ← args.stringArgs[s.opId]?
      return { s with queries := [.allNodes,.hasLabel label] :: s.queries, opId := s.opId+1 }
    | .foreachRship dir hops _ _ => do
      let label ← args.stringArgs[s.opId]?
      let hops := if isVariable hops then some hops else none
      let s ← s.update (· ++ [match dir with
        | .TO => .toRelationships hops label
        | .FROM => .fromRelationships hops label])
      return { s with opId := s.opId+1 }
    | .expand exp _ _ => do
      let label ← args.stringArgs[s.opId]?
      let s ← s.update (· ++ [match exp with
        | .IN => .fromNode label
        | .OUT => .toNode label])
      return { s with opId := s.opId+1 }
    | .filter fexpr _ => do
      let ifv ← fexpr.accept (interpreteFilterVisitor db args) 0 s.ifv
      let s ← { s with ifv }.update (· ++ [Step.property ifv.key ifv.getPred])
      return { s with opId := s.opId+1 }
    | .project prexpr _ => s.update (· ++ [.project (prexpr.map PrExpr.pexpr)])
    | .join jop pos _ _ =>
      match s.queries with
      | rhs :: lhs :: qs =>
        let step := if jop = .CROSS then .crossjoin rhs else .outerjoin pos rhs
        some { s with queries := (lhs ++ [step]) :: rhs :: qs }
      | _ => none
    | .sort cmp _ => some { s with query := s.query ++ [.orderby cmp] }
    | .limit n _ => some { s with query := s.query ++ [.limit n] }
    | .create _ _ _ => some s
    | .collect _ => s.update (· ++ [.collect])
    | .endOp => some s

/-- `interprete_visitor::start`: the queries it executes, in order, and the state it leaves. -/
def InterpreteVisitor.start (s : InterpreteVisitor) : List Query × InterpreteVisitor :=
  (s.queries.reverse,{ s with opId := 1 })

namespace Plan

def readsLabel : Plan → Bool
  | .scan .. => true
  | .foreachRship .. => true
  | .expand .. => true
  | _ => false

/-- What the visit of an operator adds to the interpreter's `op_id_`. -/
def interpOffset : Plan → ℕ
  | .scan .. => 1
  | .foreachRship .. => 1
  | .expand .. => 1
  | .filter .. => 1
  | _ => 0

def operators : Plan → List Plan
  | .scan label indexed inp => .scan label indexed inp :: inp.operators
  | .foreachRship dir hops label inp => .foreachRship dir hops label inp :: inp.operators
  | .expand exp label inp => .expand exp label inp :: inp.operators
  | .filter fexpr inp => .filter fexpr inp :: inp.operators
  | .project prexpr inp => .project prexpr inp :: inp.operators
  | .join jop pos lhs rhs => .join jop pos lhs rhs :: lhs.operators
  | .sort cmp inp => .sort cmp inp :: inp.operators
  | .limit n inp => .limit n inp :: inp.operators
  | .create type srcDes inp => .create type srcDes inp :: inp.operators
  | .collect print => [.collect print]
  | .endOp => [.endOp]

theorem operators_input {p inp : Plan} (h : p.input = some inp) :
    p.operators = p :: inp.operators := by
  cases p <;> simp only [input,reduceCtorEq,Option.some.injEq] at h <;> subst h <;> rfl

def slotPairs : Plan → ℕ → ℕ → List (ℕ × ℕ)
  | .scan _ indexed inp, opId, slot =>
    (opId,slot) :: inp.slotPairs (opId + if indexed then 3 else 1) (slot+1)
  | .foreachRship _ _ _ inp, opId, slot => (opId,slot) :: inp.slotPairs (opId+1) (slot+1)
  | .expand _ _ inp, opId, slot => (opId,slot) :: inp.slotPairs (opId+1) (slot+1)
  | .filter _ inp, opId, slot => inp.slotPairs (opId+1) (slot+1)
  | .project _ inp, opId, slot => inp.slotPairs opId slot
  | .sort _ inp, opId, slot => inp.slotPairs (opId+1) slot
  | .limit _ inp, opId, slot => inp.slotPairs (opId+1) slot
  | .create _ _ inp, opId, slot => inp.slotPairs (opId+2) slot
  | _, _, _ => []

theorem slotPairs_input {p inp : Plan} {opId slot : ℕ} (h : p.input = some inp) :
    p.slotPairs opId slot = (if p.readsLabel then [(opId,slot)] else []) ++
      inp.slotPairs (opId + p.nextOffset) (slot + p.interpOffset) := by
  cases p <;> simp only [input,reduceCtorEq,Option.some.injEq] at h <;> subst h <;> rfl

def labelSlots : Plan → ℕ
  | .scan _ _ inp => inp.labelSlots+1
  | .foreachRship _ _ _ inp => inp.labelSlots+1
  | .expand _ _ inp => inp.labelSlots+1
  | .filter _ inp => if inp.labelSlots = 0 then 0 else inp.labelSlots+1
  | .project _ inp => inp.labelSlots
  | .sort _ inp => inp.labelSlots
  | .limit _ inp => inp.labelSlots
  | .create _ _ inp => inp.labelSlots
  | _ => 0

theorem slotPairs_lt_iff (p : Plan) (bound : ℕ) : ∀ {opId slot : ℕ},
    (∀ x ∈ p.slotPairs opId slot, x.2 < bound) ↔
      p.labelSlots = 0 ∨ slot + p.labelSlots ≤ bound := by
  induction p with
  | scan _ _ inp ih | foreachRship _ _ _ inp ih | expand _ _ inp ih =>
    intro opId slot
    rw [slotPairs,List.forall_mem_cons,ih]
    simp only [labelSlots]
    omega
  | filter _ inp ih =>
    intro opId slot
    rw [slotPairs,ih]
    simp only [labelSlots]
    split <;> omega
  | project _ inp ih | sort _ inp ih | limit _ inp ih | create _ _ inp ih =>
    intro opId slot
    exact ih
  | join | collect | endOp => simp [slotPairs,labelSlots]

def LabelFree (p : Plan) : Prop := ∀ op ∈ p.operators, op.readsLabel = false

/-- No indexed `Scan`, `Sort` or `Limit` in front of an operator that reads a label. -/
def Aligned : Plan → Prop
  | .scan _ indexed inp => if indexed then inp.LabelFree else inp.Aligned
  | .foreachRship _ _ _ inp => inp.Aligned
  | .expand _ _ inp => inp.Aligned
  | .filter _ inp => inp.Aligned
  | .project _ inp => inp.Aligned
  | .sort _ inp => inp.LabelFree
  | .limit _ inp => inp.LabelFree
  | .create _ _ inp => inp.LabelFree
  | _ => True

variable {p inp : Plan} {opId slot : ℕ}

theorem LabelFree.of_input (h : p.input = some inp) :
    p.LabelFree ↔ p.readsLabel = false ∧ inp.LabelFree := by
  rw [LabelFree,operators_input h,List.forall_mem_cons,LabelFree]

theorem slotPairs_eq_iff_of_lt (hj : p.JoinFree) : ∀ {opId slot : ℕ}, slot < opId →
    ((∀ x ∈ p.slotPairs opId slot, x.2 = x.1) ↔ p.LabelFree) := by
  induction p with
  | join => exact absurd hj id
  | collect | endOp => simp [slotPairs,LabelFree,operators,readsLabel]
  | scan _ indexed inp ih =>
    intro opId slot hlt
    rw [LabelFree.of_input rfl,slotPairs,List.forall_mem_cons]
    simp [readsLabel,Nat.ne_of_lt hlt]
  | foreachRship _ _ _ inp ih | expand _ _ inp ih =>
    intro opId slot hlt
    rw [LabelFree.of_input rfl,slotPairs,List.forall_mem_cons]
    simp [readsLabel,Nat.ne_of_lt hlt]
  | filter _ inp ih | project _ inp ih | sort _ inp ih | limit _ inp ih | create _ _ inp ih =>
    intro opId slot hlt
    rw [LabelFree.of_input rfl,slotPairs,ih hj (by omega)]
    simp [readsLabel]

theorem slotPairs_eq_iff (hj : p.JoinFree) : ∀ {slot : ℕ},
    (∀ x ∈ p.slotPairs slot slot, x.2 = x.1) ↔ p.Aligned := by
  induction p with
  | join => exact absurd hj id
  | collect | endOp => simp [slotPairs,Aligned]
  | scan _ indexed inp ih =>
    intro slot
    rw [slotPairs,List.forall_mem_cons,Aligned,eq_self,true_and]
    cases indexed with
    | false => exact ih hj
    | true =>
      have hlt : slot+1 < slot+3 := by omega
      exact slotPairs_eq_iff_of_lt (p := inp) hj hlt
  | foreachRship _ _ _ inp ih | expand _ _ inp ih =>
    intro slot
    rw [slotPairs,List.forall_mem_cons,Aligned,eq_self,true_and]
    exact ih hj
  | filter _ inp ih | project _ inp ih => exact ih hj
  | sort _ inp ih | limit _ inp ih =>
    intro slot
    exact slotPairs_eq_iff_of_lt (p := inp) hj (Nat.lt_succ_self slot)
  | create _ _ inp ih =>
    intro slot
    have hlt : slot < slot+2 := by omega
    exact slotPairs_eq_iff_of_lt (p := inp) hj hlt

theorem Leaves.of_input {main : Bool} (hl : p.Leaves main) (h : p.input = some inp) :
    inp.Leaves main := by
  cases p <;> simp only [input,reduceCtorEq,Option.some.injEq] at h <;> subst h <;> exact hl

theorem JoinFree.codegen_interpreted {σ : Type*} {vis : OpVisitor σ} (hj : p.JoinFree) :
    ∀ {opId : ℕ} {interpreted : Bool} {s : σ},
      p.codegen vis opId interpreted s = p.codegen vis opId true s := by
  induction p with
  | join => exact absurd hj id
  | collect | endOp | sort | limit | create => exact rfl
  | _ _ _ =>
    rename_i ih
    intro opId interpreted s
    simp only [codegen]
    exact congrArg _ (funext fun s₁ => ih hj)

end Plan

/-- An operator at its visit: its number in the traversal, the `op_id_` of the interpreter, and the
number of entries in the tuples that it is given. -/
structure Place where
  op : Plan
  opId : ℕ
  slot : ℕ
  entries : ℕ

namespace Plan

/-- The entries of the tuples behind an operator. Behind a projection there are only values. -/
def entriesAfter (n : ℕ) : Plan → ℕ
  | .scan .. => 1
  | .foreachRship .. => n+1
  | .expand .. => n+1
  | .project .. => 0
  | _ => n

def places : Plan → ℕ → ℕ → ℕ → List Place
  | .scan label indexed inp, opId, slot, n => ⟨.scan label indexed inp,opId,slot,n⟩ ::
    inp.places (opId + if indexed then 3 else 1) (slot+1) 1
  | .foreachRship dir hops label inp, opId, slot, n =>
    ⟨.foreachRship dir hops label inp,opId,slot,n⟩ :: inp.places (opId+1) (slot+1) (n+1)
  | .expand exp label inp, opId, slot, n =>
    ⟨.expand exp label inp,opId,slot,n⟩ :: inp.places (opId+1) (slot+1) (n+1)
  | .filter fexpr inp, opId, slot, n =>
    ⟨.filter fexpr inp,opId,slot,n⟩ :: inp.places (opId+1) (slot+1) n
  | .project prexpr inp, opId, slot, n =>
    ⟨.project prexpr inp,opId,slot,n⟩ :: inp.places opId slot 0
  | .sort cmp inp, opId, slot, n => ⟨.sort cmp inp,opId,slot,n⟩ :: inp.places (opId+1) slot n
  | .limit m inp, opId, slot, n => ⟨.limit m inp,opId,slot,n⟩ :: inp.places (opId+1) slot n
  | .create type srcDes inp, opId, slot, n =>
    ⟨.create type srcDes inp,opId,slot,n⟩ :: inp.places (opId+2) slot n
  | p, opId, slot, n => [⟨p,opId,slot,n⟩]

theorem places_input {p inp : Plan} {opId slot n : ℕ} (h : p.input = some inp) :
    p.places opId slot n = ⟨p,opId,slot,n⟩ ::
      inp.places (opId + p.nextOffset) (slot + p.interpOffset) (p.entriesAfter n) := by
  cases p <;> simp only [input,reduceCtorEq,Option.some.injEq] at h <;> subst h <;> rfl

end Plan

/-- What the visit of an operator appends to the query on top of the stack. The label is the
string in the slot, and a filter installs what its own visits have left. -/
inductive Appends (db : GraphDb) (args : ArgBuilder) : Place → List Step → Prop
  | scan {label l : String} {indexed : Bool} {inp : Plan} {opId slot n : ℕ}
      (hl : args.stringArgs[slot]? = some l) :
      Appends db args ⟨.scan label indexed inp,opId,slot,n⟩ [.allNodes,.hasLabel l]
  | foreachTo {hops : ℤ × ℤ} {label l : String} {inp : Plan} {opId slot n : ℕ}
      (hl : args.stringArgs[slot]? = some l) :
      Appends db args ⟨.foreachRship .TO hops label inp,opId,slot,n⟩
        [.toRelationships (if isVariable hops then some hops else none) l]
  | foreachFrom {hops : ℤ × ℤ} {label l : String} {inp : Plan} {opId slot n : ℕ}
      (hl : args.stringArgs[slot]? = some l) :
      Appends db args ⟨.foreachRship .FROM hops label inp,opId,slot,n⟩
        [.fromRelationships (if isVariable hops then some hops else none) l]
  | expandIn {label l : String} {inp : Plan} {opId slot n : ℕ}
      (hl : args.stringArgs[slot]? = some l) :
      Appends db args ⟨.expand .IN label inp,opId,slot,n⟩ [.fromNode l]
  | expandOut {label l : String} {inp : Plan} {opId slot n : ℕ}
      (hl : args.stringArgs[slot]? = some l) :
      Appends db args ⟨.expand .OUT label inp,opId,slot,n⟩ [.toNode l]
  | filter {fexpr : FilterExpr} {inp : Plan} {opId slot n : ℕ} {ifv ifv' : InterpreteFilterVisitor}
      (h : fexpr.accept (interpreteFilterVisitor db args) 0 ifv = some ifv') :
      Appends db args ⟨.filter fexpr inp,opId,slot,n⟩ [.property ifv'.key ifv'.getPred]
  | project {prexpr : List PrExpr} {inp : Plan} {opId slot n : ℕ} :
      Appends db args ⟨.project prexpr inp,opId,slot,n⟩ [.project (prexpr.map PrExpr.pexpr)]
  | sort {cmp : ℕ} {inp : Plan} {opId slot n : ℕ} : Appends db args ⟨.sort cmp inp,opId,slot,n⟩ []
  | limit {m : ℤ} {inp : Plan} {opId slot n : ℕ} : Appends db args ⟨.limit m inp,opId,slot,n⟩ []
  | collect {print : Bool} {opId slot n : ℕ} :
      Appends db args ⟨.collect print,opId,slot,n⟩ [.collect]

theorem accept_interpreteFilterVisitor (db : GraphDb) (args : ArgBuilder) (e : FilterExpr) :
    ∀ (rank : ℕ) (s : InterpreteFilterVisitor),
      ∃ s', e.accept (interpreteFilterVisitor db args) rank s = some s' := by
  induction e with
  | num | key | str | fct => exact fun _ _ => ⟨_,rfl⟩
  | eq l r ihl ihr | and l r ihl ihr | or l r ihl ihr =>
    intro rank s
    obtain ⟨s₁,h₁⟩ := ihl (rank+1) s
    obtain ⟨s₂,h₂⟩ := ihr (rank+1) s₁
    refine ⟨s₂,?_⟩
    simp only [FilterExpr.accept,h₁,h₂,Option.bind_eq_bind,Option.bind_some]
    rfl

def slots (op : Plan) (opId : ℕ) (s : InterpreteVisitor) : List (ℕ × ℕ) :=
  if op.readsLabel then [(opId,s.opId)] else []

section Visits
variable {db : GraphDb} {args : ArgBuilder} {p inp op : Plan} {opId : ℕ}
  {s s' : InterpreteVisitor} {q : Query} {qs : List Query}

theorem InterpreteVisitor.update_opId {f : Query → Query} (h : s.update f = some s') :
    s'.opId = s.opId := by
  unfold update at h
  split at h
  · simp only [Option.some.injEq] at h
    rw [← h]
  · exact absurd h (by simp)

theorem visit_opId (h : (interpreteVisitor db args).visit op opId s = some s') :
    s'.opId = s.opId + op.interpOffset ∧ (op.readsLabel = true → s.opId < 64) := by
  cases op with
  | scan =>
    simp only [interpreteVisitor,Option.bind_eq_bind,Option.bind_eq_some_iff,Option.pure_def,
      Option.some.injEq,Vector.getElem?_eq_some_iff] at h
    obtain ⟨_,⟨hlt,_⟩,rfl⟩ := h
    exact ⟨rfl,fun _ => hlt⟩
  | foreachRship | expand =>
    simp only [interpreteVisitor,Option.bind_eq_bind,Option.bind_eq_some_iff,Option.pure_def,
      Option.some.injEq,Vector.getElem?_eq_some_iff] at h
    obtain ⟨_,⟨hlt,_⟩,s₁,hs₁,rfl⟩ := h
    exact ⟨congrArg (· + 1) (InterpreteVisitor.update_opId hs₁),fun _ => hlt⟩
  | filter =>
    simp only [interpreteVisitor,Option.bind_eq_bind,Option.bind_eq_some_iff,Option.pure_def,
      Option.some.injEq] at h
    obtain ⟨ifv,_,s₁,hs₁,rfl⟩ := h
    have hid : s₁.opId = ({ s with ifv } : InterpreteVisitor).opId :=
      InterpreteVisitor.update_opId hs₁
    exact ⟨congrArg (· + 1) hid,nofun⟩
  | project | collect => exact ⟨InterpreteVisitor.update_opId h,nofun⟩
  | join =>
    simp only [interpreteVisitor] at h
    split at h
    · simp only [Option.some.injEq] at h
      exact ⟨by rw [← h]; rfl,nofun⟩
    · exact absurd h (by simp)
  | sort | limit | create | endOp =>
    simp only [interpreteVisitor,Option.some.injEq] at h
    exact ⟨by rw [← h]; rfl,nofun⟩

theorem visit_appends (m : ℕ) (hs : op.Suffix) (hj : op.JoinFree) (hl : op.Leaves true)
    (hlt : op.readsLabel = true → s.opId < 64) (hq : s.queries = q :: qs) :
    ∃ s' g, (interpreteVisitor db args).visit op opId s = some s' ∧
      s'.queries = (q ++ g) :: qs ∧ Appends db args ⟨op,opId,s.opId,m⟩ g := by
  cases op with
  | scan => exact absurd hs.1 (by simp)
  | create | join => first | exact absurd hs id | exact absurd hj id
  | endOp => exact absurd hl (by simp [Plan.Leaves])
  | foreachRship dir hops label inp =>
    obtain ⟨l,hlabel⟩ : ∃ l, args.stringArgs[s.opId]? = some l :=
      ⟨_,Vector.getElem?_eq_getElem (hlt rfl)⟩
    refine ⟨_,_,by simp only [interpreteVisitor,hlabel,InterpreteVisitor.update,hq]; rfl,rfl,?_⟩
    cases dir
    · exact .foreachFrom hlabel
    · exact .foreachTo hlabel
  | expand exp label inp =>
    obtain ⟨l,hlabel⟩ : ∃ l, args.stringArgs[s.opId]? = some l :=
      ⟨_,Vector.getElem?_eq_getElem (hlt rfl)⟩
    refine ⟨_,_,by simp only [interpreteVisitor,hlabel,InterpreteVisitor.update,hq]; rfl,rfl,?_⟩
    cases exp
    · exact .expandIn hlabel
    · exact .expandOut hlabel
  | filter fexpr inp =>
    obtain ⟨ifv,hifv⟩ := accept_interpreteFilterVisitor db args fexpr 0 s.ifv
    exact ⟨_,_,by simp only [interpreteVisitor,hifv,InterpreteVisitor.update,hq]; rfl,rfl,
      .filter hifv⟩
  | project prexpr inp =>
    exact ⟨_,_,by simp only [interpreteVisitor,InterpreteVisitor.update,hq]; rfl,rfl,.project⟩
  | sort cmp inp => exact ⟨_,[],rfl,by simpa using hq,.sort⟩
  | limit n inp => exact ⟨_,[],rfl,by simpa using hq,.limit⟩
  | collect print =>
    exact ⟨_,_,by simp only [interpreteVisitor,InterpreteVisitor.update,hq]; rfl,rfl,.collect⟩

theorem codegen_slots_input (hin : p.input = some inp) {n : ℕ} {l l' : List (ℕ × ℕ)}
    (ih : ∀ {opId n : ℕ} {s s' : InterpreteVisitor} {l l' : List (ℕ × ℕ)},
      inp.codegen ((interpreteVisitor db args).logging slots) opId true (s,l) =
        some ((s',l'),n) →
      l' = l ++ inp.slotPairs opId s.opId ∧ ∀ x ∈ inp.slotPairs opId s.opId, x.2 < 64)
    (h : p.codegen ((interpreteVisitor db args).logging slots) opId true (s,l) =
      some ((s',l'),n)) :
    l' = l ++ p.slotPairs opId s.opId ∧ ∀ x ∈ p.slotPairs opId s.opId, x.2 < 64 := by
  rw [Plan.codegen_input hin,OpVisitor.logging_visit,Option.bind_map,Option.bind_eq_some_iff] at h
  obtain ⟨s₁,hvisit,h₂⟩ := h
  obtain ⟨hid,hlt⟩ := visit_opId hvisit
  obtain ⟨hlog,hrest⟩ := ih h₂
  rw [hid] at hlog hrest
  rw [Plan.slotPairs_input hin]
  refine ⟨by rw [hlog,List.append_assoc]; rfl,fun x hx => ?_⟩
  rcases List.mem_append.1 hx with hx | hx
  · obtain ⟨hr,rfl⟩ : p.readsLabel = true ∧ x = (opId,s.opId) := by simpa using hx
    exact hlt hr
  · exact hrest x hx

theorem codegen_slots (hj : p.JoinFree) : ∀ {opId n : ℕ} {s s' : InterpreteVisitor}
    {l l' : List (ℕ × ℕ)},
    p.codegen ((interpreteVisitor db args).logging slots) opId true (s,l) = some ((s',l'),n) →
      l' = l ++ p.slotPairs opId s.opId ∧ ∀ x ∈ p.slotPairs opId s.opId, x.2 < 64 := by
  induction p with
  | join => exact absurd hj id
  | collect | endOp =>
    intro opId n s s' l l' h
    simp only [Plan.codegen,OpVisitor.logging_visit,Option.bind_eq_bind,Option.bind_eq_some_iff,
      Option.map_eq_some_iff,Option.pure_def,Option.some.injEq,Prod.mk.injEq] at h
    obtain ⟨_,⟨_,_,rfl⟩,⟨_,rfl⟩,_⟩ := h
    exact ⟨rfl,List.forall_mem_nil _⟩
  | _ _ _ =>
    rename_i ih
    intro opId n s s' l l' h
    exact codegen_slots_input rfl (ih hj) h

theorem codegen_appends_input (hin : p.input = some inp) (hs : p.Suffix) (hj : p.JoinFree)
    (hl : p.Leaves true)
    (ih : ∀ {opId m : ℕ} {s : InterpreteVisitor} {q : Query}, s.queries = q :: qs →
      (∀ x ∈ inp.slotPairs opId s.opId, x.2 < 64) →
      ∃ s' n gs, inp.codegen (interpreteVisitor db args) opId true s = some (s',n) ∧
        s'.queries = (q ++ gs.flatten) :: qs ∧
        List.Forall₂ (Appends db args) (inp.places opId s.opId m) gs)
    (m : ℕ) (hq : s.queries = q :: qs) (hlt : ∀ x ∈ p.slotPairs opId s.opId, x.2 < 64) :
    ∃ s' n gs, p.codegen (interpreteVisitor db args) opId true s = some (s',n) ∧
      s'.queries = (q ++ gs.flatten) :: qs ∧
      List.Forall₂ (Appends db args) (p.places opId s.opId m) gs := by
  rw [Plan.slotPairs_input hin,List.forall_mem_append] at hlt
  obtain ⟨s₁,g,hvisit,hq₁,hg⟩ := visit_appends m hs hj hl
    (fun hr => hlt.1 (opId,s.opId) (by simp [hr])) hq
  have hid := (visit_opId hvisit).1
  rw [← hid] at hlt
  obtain ⟨s',n,gs,hgen,hq',hgs⟩ := ih (m := p.entriesAfter m) hq₁ hlt.2
  refine ⟨s',n,g :: gs,?_,?_,?_⟩
  · rw [Plan.codegen_input hin,hvisit,Option.bind_some,hgen]
  · rw [hq',List.flatten_cons,List.append_assoc]
  · rw [Plan.places_input hin,← hid]
    exact .cons hg hgs

theorem codegen_appends (hs : p.Suffix) (hj : p.JoinFree) (hl : p.Leaves true) :
    ∀ {opId m : ℕ} {s : InterpreteVisitor} {q : Query}, s.queries = q :: qs →
      (∀ x ∈ p.slotPairs opId s.opId, x.2 < 64) →
      ∃ s' n gs, p.codegen (interpreteVisitor db args) opId true s = some (s',n) ∧
        s'.queries = (q ++ gs.flatten) :: qs ∧
        List.Forall₂ (Appends db args) (p.places opId s.opId m) gs := by
  induction p with
  | scan => exact absurd hs.1 (by simp)
  | join => exact absurd hj id
  | create => exact absurd hs id
  | endOp => exact absurd hl (by simp [Plan.Leaves])
  | collect print =>
    intro opId m s q hq _
    obtain ⟨s',g,hvisit,hq',hg⟩ : ∃ s' g,
        (interpreteVisitor db args).visit (.collect print) opId s = some s' ∧
        s'.queries = (q ++ g) :: qs ∧ Appends db args ⟨.collect print,opId,s.opId,m⟩ g :=
      visit_appends m hs hj hl (by simp [Plan.readsLabel]) hq
    exact ⟨s',opId,[g],by simp [Plan.codegen,hvisit],by simpa using hq',.cons hg .nil⟩
  | _ _ _ =>
    rename_i ih
    intro opId m s q hq hlt
    exact codegen_appends_input rfl hs hj hl (ih hs.2 hj hl) m hq hlt

theorem interprete (db : GraphDb) (args : ArgBuilder) (ifv : InterpreteFilterVisitor)
    (hp : p.AccessPath) (hj : p.JoinFree) (hl : p.Leaves true)
    (hlt : ∀ x ∈ p.slotPairs 1 1, x.2 < 64) :
    ∃ s n gs, p.codegen (interpreteVisitor db args) 1 true (.init ifv) = some (s,n) ∧
      s.queries = [gs.flatten] ∧ List.Forall₂ (Appends db args) (p.places 1 1 0) gs := by
  cases p with
  | scan label indexed inp =>
    have hlabel : args.stringArgs[1]? = some args.stringArgs[1] :=
      Vector.getElem?_eq_getElem (by decide)
    obtain ⟨s',n,gs,hgen,hq,hgs⟩ := codegen_appends
      hp.2 hj hl
      (s := ⟨2,[],ifv,[[.allNodes,.hasLabel args.stringArgs[1]]]⟩) rfl
      (List.forall_mem_cons.1 hlt).2
    refine ⟨s',n,[.allNodes,.hasLabel args.stringArgs[1]] :: gs,?_,hq,.cons (.scan hlabel) hgs⟩
    rw [← hgen]
    simp only [Plan.codegen,interpreteVisitor,InterpreteVisitor.init,hlabel]
    rfl
  | create => exact absurd hp id
  | collect | endOp => exact absurd hp (by simp [Plan.Shaped])
  | _ => exact absurd hp.1 (by simp)

end Visits

/-- In the interpreter's traversal, every label is taken from the slot with the number
(`op->op_id_`) that the traversal gives the operator, which is the slot of its compiled
code. -/
def SameSlots (db : GraphDb) (args : ArgBuilder) (ifv : InterpreteFilterVisitor) (p : Plan)
    (interpreted : Bool) : Prop :=
  ∃ s l n, p.codegen ((interpreteVisitor db args).logging slots) 1 interpreted
      (.init ifv,[]) = some ((s,l),n) ∧ ∀ x ∈ l, x.2 = x.1

section Claims
variable {db : GraphDb} {args : ArgBuilder} {ifv : InterpreteFilterVisitor} {p : Plan}
  {interpreted : Bool} {s : InterpreteVisitor} {n : ℕ}

theorem slotPairs_lt (hj : p.JoinFree)
    (h : p.codegen (interpreteVisitor db args) 1 true (.init ifv) = some (s,n)) :
    ∀ x ∈ p.slotPairs 1 1, x.2 < 64 := by
  rw [← Plan.codegen_logging (l := []),Option.map_eq_some_iff] at h
  obtain ⟨⟨⟨s',l⟩,n'⟩,h,_⟩ := h
  exact (codegen_slots hj h).2

theorem slotPairs_lt_iff_labelSlots :
    (∀ x ∈ p.slotPairs 1 1, x.2 < 64) ↔ p.labelSlots ≤ 63 := by
  rw [Plan.slotPairs_lt_iff]
  omega

theorem SameSlots.conditions (hj : p.JoinFree) (h : SameSlots db args ifv p interpreted) :
    p.Aligned ∧ p.labelSlots ≤ 63 := by
  obtain ⟨s,l,n,hgen,hsame⟩ := h
  rw [hj.codegen_interpreted] at hgen
  obtain ⟨rfl,hlt⟩ := codegen_slots hj hgen
  exact ⟨(Plan.slotPairs_eq_iff hj).1 hsame,slotPairs_lt_iff_labelSlots.1 hlt⟩

/-- The interpreter takes the labels from the slots of the compiled code exactly if no
indexed `Scan`, `Sort` or `Limit` is in front of a later label, and they fit into the vector. -/
theorem sameSlots_iff (db : GraphDb) (args : ArgBuilder) (ifv : InterpreteFilterVisitor)
    (p : Plan) (interpreted : Bool) (hp : p.AccessPath) (hj : p.JoinFree) (hl : p.Leaves true) :
    SameSlots db args ifv p interpreted ↔ p.Aligned ∧ p.labelSlots ≤ 63 := by
  refine ⟨SameSlots.conditions hj,fun ⟨halign,hslots⟩ => ?_⟩
  obtain ⟨s,n,_,hgen,_⟩ := interprete db args ifv hp hj hl
    (slotPairs_lt_iff_labelSlots.2 hslots)
  rw [← Plan.codegen_logging (l := []),Option.map_eq_some_iff] at hgen
  obtain ⟨⟨⟨s',l⟩,n'⟩,hlog,_⟩ := hgen
  refine ⟨s',l,n',by rw [hj.codegen_interpreted,hlog],?_⟩
  rw [(codegen_slots hj hlog).1]
  exact (Plan.slotPairs_eq_iff hj).2 halign

theorem sameSlots_knows : SameSlots pairDb .new ⟨"",.intv,0,0⟩
    (.scan "Person" false (.filter (.eq (.key 0 "id") (.num 5))
      (.foreachRship .FROM (0,0) "knows" (.limit 10 (.collect false))))) true :=
  (sameSlots_iff pairDb .new ⟨"",.intv,0,0⟩ (.scan "Person" false (.filter
    (.eq (.key 0 "id") (.num 5)) (.foreachRship .FROM (0,0) "knows" (.limit 10 (.collect false)))))
    true ⟨rfl,rfl,rfl,rfl,rfl⟩ trivial rfl).2
    ⟨by simp [Plan.Aligned,Plan.LabelFree,Plan.operators,Plan.readsLabel],by decide⟩

def limitedPosts : Plan :=
  .scan "Person" false (.filter (.eq (.key 0 "id") (.num 65)) (.foreachRship .TO (0,0)
    ":hasCreator" (.limit 10 (.expand .IN "Post" (.collect false)))))

theorem not_sameSlots_limitedPosts : ¬ SameSlots pairDb .new ⟨"",.intv,0,0⟩ limitedPosts true :=
  fun h => absurd ((SameSlots.conditions (p := limitedPosts) trivial h).1
    (.expand .IN "Post" (.collect false)) List.mem_cons_self) (by decide)

end Claims

end GraphQueryCompiler
