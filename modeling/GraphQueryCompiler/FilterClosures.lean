import GraphQueryCompiler.Interpreter

/-!
# The predicates of interpreted filters

Every filter installs a closure over the one filter visitor of the plan. The closures are called
when all filters have been visited, so they see the members that the last visits have left; the
integer is always the argument of slot 2.
-/

namespace GraphQueryCompiler

variable {db : GraphDb} {args : ArgBuilder} {p inp op : Plan} {opId n : ℕ} {e : FilterExpr}
  {s s' : InterpreteVisitor} {ifv : InterpreteFilterVisitor}

inductive Operand
  | dict (code : ℕ)
  | int (n : ℕ)
  deriving DecidableEq, Repr

inductive FilterExpr.Single : FilterExpr → Prop
  | int {i : ℕ} {key : String} {c : ℤ} : Single (.eq (.key i key) (.num c))
  | str {i : ℕ} {key txt : String} : Single (.eq (.key i key) (.str txt))

def FilterExpr.comparison (db : GraphDb) (args : ArgBuilder) (opId : ℕ) :
    FilterExpr → Option (String × Operand)
  | .eq (.key _ k) (.num _) => (args.intArgs[opId]?).map fun n => (k,.int n)
  | .eq (.key _ k) (.str txt) => some (k,.dict (db.getCode txt))
  | _ => none

def FilterExpr.str? : FilterExpr → Option String
  | .eq (.key _ _) (.str txt) => some txt
  | _ => none

def FilterExpr.isInt : FilterExpr → Bool
  | .eq (.key _ _) (.num _) => true
  | _ => false

namespace Plan

def filter? (opId : ℕ) : Plan → Option (ℕ × FilterExpr)
  | .filter fexpr _ => some (opId,fexpr)
  | _ => none

def filters : Plan → ℕ → List (ℕ × FilterExpr)
  | .scan _ indexed inp, opId => inp.filters (opId + if indexed then 3 else 1)
  | .foreachRship _ _ _ inp, opId => inp.filters (opId+1)
  | .expand _ _ inp, opId => inp.filters (opId+1)
  | .filter fexpr inp, opId => (opId,fexpr) :: inp.filters (opId+1)
  | .project _ inp, opId => inp.filters opId
  | .sort _ inp, opId => inp.filters (opId+1)
  | .limit _ inp, opId => inp.filters (opId+1)
  | .create _ _ inp, opId => inp.filters (opId+2)
  | _, _ => []

theorem filters_input (h : p.input = some inp) :
    p.filters opId = (p.filter? opId).toList ++ inp.filters (opId + p.nextOffset) := by
  cases p <;> simp only [input,reduceCtorEq,Option.some.injEq] at h <;> subst h <;> rfl

end Plan

def Step.property? : Step → Option (String × Pred)
  | .property key pred => some (key,pred)
  | _ => none

def InterpreteVisitor.properties (s : InterpreteVisitor) : List (String × Pred) :=
  s.start.1.flatten.filterMap Step.property?

def Pred.operand (ifv : InterpreteFilterVisitor) : Pred → Operand
  | .dictValue => .dict ifv.dictValue
  | .intValue => .int ifv.intValue

def InterpreteVisitor.comparisons (s : InterpreteVisitor) : List (String × Operand) :=
  s.properties.map fun x => (x.1,x.2.operand s.ifv)

def FilterExpr.installs : FilterExpr → Option (String × Pred)
  | .eq (.key _ k) (.num _) => some (k,.intValue)
  | .eq (.key _ k) (.str _) => some (k,.dictValue)
  | _ => none

def InterpreteFilterVisitor.after (db : GraphDb) (args : ArgBuilder)
    (ifv : InterpreteFilterVisitor) (fexpr : FilterExpr) : InterpreteFilterVisitor :=
  (fexpr.accept (interpreteFilterVisitor db args) 0 ifv).getD ifv

theorem update_properties {g : List Step} (h : s.update (· ++ g) = some s') :
    s'.properties = s.properties ++ g.filterMap Step.property? ∧ s'.ifv = s.ifv := by
  unfold InterpreteVisitor.update at h
  split at h
  · next q qs hq =>
    obtain rfl := Option.some.inj h
    simp [InterpreteVisitor.properties,InterpreteVisitor.start,hq]
  · cases h

theorem visit_properties (opId : ℕ) (hj : op.JoinFree) (hop : ∀ x ∈ op.filter? opId, x.2.Single)
    (h : (interpreteVisitor db args).visit op opId s = some s') :
    s'.properties = s.properties ++
        (op.filter? opId).toList.filterMap (fun x => x.2.installs) ∧
      s'.ifv = (op.filter? opId).toList.foldl (fun ifv x => ifv.after db args x.2) s.ifv := by
  cases op with
  | join => exact absurd hj id
  | scan label indexed inp =>
    simp only [interpreteVisitor,Option.bind_eq_bind,Option.bind_eq_some_iff,Option.pure_def,
      Option.some.injEq] at h
    obtain ⟨_,_,rfl⟩ := h
    simp [InterpreteVisitor.properties,InterpreteVisitor.start,Step.property?,Plan.filter?]
  | foreachRship dir hops label inp =>
    simp only [interpreteVisitor,Option.bind_eq_bind,Option.bind_eq_some_iff,Option.pure_def,
      Option.some.injEq] at h
    obtain ⟨_,_,s₁,hs₁,rfl⟩ := h
    have h₁ := update_properties hs₁
    cases dir <;> exact h₁
  | expand exp label inp =>
    simp only [interpreteVisitor,Option.bind_eq_bind,Option.bind_eq_some_iff,Option.pure_def,
      Option.some.injEq] at h
    obtain ⟨_,_,s₁,hs₁,rfl⟩ := h
    have h₁ := update_properties hs₁
    cases exp <;> exact h₁
  | filter fexpr inp =>
    simp only [interpreteVisitor,Option.bind_eq_bind,Option.bind_eq_some_iff,Option.pure_def,
      Option.some.injEq] at h
    obtain ⟨ifv,hifv,s₁,hs₁,rfl⟩ := h
    have h₁ := update_properties hs₁
    cases hop _ rfl with
    | int | str =>
      obtain rfl := Option.some.inj hifv
      exact h₁
  | project | collect => exact update_properties h
  | sort | limit | create | endOp =>
    obtain rfl := Option.some.inj h
    exact ⟨(List.append_nil _).symm,rfl⟩

theorem codegen_properties_input (hin : p.input = some inp) (hj : p.JoinFree)
    (ih : ∀ {opId n : ℕ} {s s' : InterpreteVisitor}, (∀ x ∈ inp.filters opId, x.2.Single) →
      inp.codegen (interpreteVisitor db args) opId true s = some (s',n) →
      s'.properties = s.properties ++ (inp.filters opId).filterMap (fun x => x.2.installs) ∧
        s'.ifv = (inp.filters opId).foldl (fun ifv x => ifv.after db args x.2) s.ifv)
    (hf : ∀ x ∈ p.filters opId, x.2.Single)
    (h : p.codegen (interpreteVisitor db args) opId true s = some (s',n)) :
    s'.properties = s.properties ++ (p.filters opId).filterMap (fun x => x.2.installs) ∧
      s'.ifv = (p.filters opId).foldl (fun ifv x => ifv.after db args x.2) s.ifv := by
  rw [Plan.codegen_input hin,Option.bind_eq_some_iff] at h
  obtain ⟨s₁,hvisit,h₂⟩ := h
  rw [Plan.filters_input hin,List.forall_mem_append] at hf
  obtain ⟨hprop₁,hifv₁⟩ := visit_properties opId hj (by simpa using hf.1) hvisit
  obtain ⟨hprop₂,hifv₂⟩ := ih hf.2 h₂
  rw [Plan.filters_input hin,List.filterMap_append,List.foldl_append,← List.append_assoc,
    ← hprop₁,← hifv₁]
  exact ⟨hprop₂,hifv₂⟩

theorem codegen_properties (hj : p.JoinFree) : ∀ {opId n : ℕ} {s s' : InterpreteVisitor},
    (∀ x ∈ p.filters opId, x.2.Single) →
    p.codegen (interpreteVisitor db args) opId true s = some (s',n) →
    s'.properties = s.properties ++ (p.filters opId).filterMap (fun x => x.2.installs) ∧
      s'.ifv = (p.filters opId).foldl (fun ifv x => ifv.after db args x.2) s.ifv := by
  induction p with
  | join => exact absurd hj id
  | collect | endOp =>
    intro opId n s s' _ h
    simp only [Plan.codegen,Option.bind_eq_bind,Option.bind_eq_some_iff,Option.pure_def,
      Option.some.injEq,Prod.mk.injEq] at h
    obtain ⟨_,hvisit,rfl,_⟩ := h
    exact visit_properties opId hj (by simp [Plan.filter?]) hvisit
  | _ _ _ =>
    rename_i ih
    intro opId n s s' hf h
    exact codegen_properties_input rfl hj (ih hj) hf h

/-- At `start`, the predicate of every filter compares the property of its key with its own
operand. -/
def ComparesOwn (db : GraphDb) (args : ArgBuilder) (p : Plan) (s : InterpreteVisitor) : Prop :=
  s.comparisons.map some = (p.filters 1).map fun x => x.2.comparison db args x.1

def Plan.filterStrs (p : Plan) : List String := (p.filters 1).filterMap fun x => x.2.str?

variable {l : List (ℕ × FilterExpr)}

theorem foldl_intValue (h : ∀ x ∈ l, x.2.Single) :
    (l.foldl (fun ifv x => ifv.after db args x.2) ifv).intValue =
      if l.any (fun x => x.2.isInt) then args.intArgs.get 2 else ifv.intValue := by
  induction l generalizing ifv with
  | nil => rfl
  | cons x l ih =>
    obtain ⟨m,e⟩ := x
    obtain ⟨hx,h⟩ := List.forall_mem_cons.1 h
    rw [List.foldl_cons,ih h,List.any_cons]
    cases hx with
    | int => cases l.any fun x => x.2.isInt <;> rfl
    | str => rfl

theorem foldl_dictValue (h : ∀ x ∈ l, x.2.Single) :
    (l.foldl (fun ifv x => ifv.after db args x.2) ifv).dictValue =
      ((l.filterMap fun x => x.2.str?).getLast?).elim ifv.dictValue db.getCode := by
  induction l generalizing ifv with
  | nil => rfl
  | cons x l ih =>
    obtain ⟨m,e⟩ := x
    obtain ⟨hx,h⟩ := List.forall_mem_cons.1 h
    rw [List.foldl_cons,ih h]
    cases hx with
    | int => rfl
    | @str i key txt =>
      have hcons : ((m,FilterExpr.eq (.key i key) (.str txt)) :: l).filterMap (fun x => x.2.str?) =
          txt :: l.filterMap fun x => x.2.str? := rfl
      rw [hcons,List.getLast?_cons]
      cases (l.filterMap fun x => x.2.str?).getLast? <;> rfl

theorem filterMap_installs (h : ∀ x ∈ l, x.2.Single) :
    ((l.filterMap fun x => x.2.installs).map fun y => (y.1,y.2.operand ifv)).map some =
      l.map fun x => x.2.installs.map fun y => (y.1,y.2.operand ifv) := by
  induction l with
  | nil => rfl
  | cons x l ih =>
    obtain ⟨m,e⟩ := x
    obtain ⟨hx,h⟩ := List.forall_mem_cons.1 h
    rw [List.map_cons,← ih h]
    cases hx <;> rfl

theorem forall_comparison_iff (hj : p.JoinFree) (hf : ∀ x ∈ p.filters 1, x.2.Single)
    (h : p.codegen (interpreteVisitor db args) 1 true (.init ifv) = some (s,n)) :
    (∀ x ∈ p.filters 1, (x.2.installs.map fun y => (y.1,y.2.operand s.ifv)) =
        x.2.comparison db args x.1) ↔
      (∀ x ∈ p.filters 1, x.2.isInt → args.intArgs[x.1]? = some (args.intArgs.get 2)) ∧
      ∀ txt ∈ p.filterStrs, ∀ txt' ∈ p.filterStrs, db.getCode txt = db.getCode txt' := by
  have hifv := (codegen_properties hj hf h).2
  have hint := (congrArg InterpreteFilterVisitor.intValue hifv).trans (foldl_intValue hf)
  have hdict := (congrArg InterpreteFilterVisitor.dictValue hifv).trans (foldl_dictValue hf)
  constructor
  · intro hown
    have hstr : ∀ txt ∈ p.filterStrs, s.ifv.dictValue = db.getCode txt := by
      intro txt htxt
      obtain ⟨⟨m,e⟩,hx,he⟩ := List.mem_filterMap.1 htxt
      have heq := hown _ hx
      cases hf _ hx with
      | int => cases he
      | str =>
        obtain rfl := Option.some.inj he
        simpa [FilterExpr.installs,FilterExpr.comparison,Pred.operand] using heq
    refine ⟨?_,fun txt htxt txt' htxt' => (hstr txt htxt).symm.trans (hstr txt' htxt')⟩
    rintro ⟨m,e⟩ hx hisInt
    have hany : (p.filters 1).any (fun x => x.2.isInt) = true := List.any_eq_true.2 ⟨_,hx,hisInt⟩
    rw [if_pos hany] at hint
    have heq := hown _ hx
    cases hf _ hx with
    | @int i key c =>
      obtain ⟨k,hk,hsame⟩ := Option.map_eq_some_iff.1 heq.symm
      obtain rfl : k = s.ifv.intValue := by simpa [Pred.operand] using hsame
      rw [hk,hint]
    | str => cases hisInt
  · rintro ⟨hints,hstrs⟩ ⟨m,e⟩ hx
    cases hf _ hx with
    | @int i key c =>
      have hany : (p.filters 1).any (fun x => x.2.isInt) = true := List.any_eq_true.2 ⟨_,hx,rfl⟩
      rw [if_pos hany] at hint
      simp [FilterExpr.installs,FilterExpr.comparison,Pred.operand,hints _ hx rfl,hint]
    | @str i key txt =>
      have htxt : txt ∈ p.filterStrs := List.mem_filterMap.2 ⟨_,hx,rfl⟩
      obtain ⟨last,hlast⟩ : ∃ last, p.filterStrs.getLast? = some last :=
        Option.isSome_iff_exists.1 (List.getLast?_isSome.2 (List.ne_nil_of_mem htxt))
      have hcode := hstrs last (List.mem_of_getLast? hlast) txt htxt
      rw [Plan.filterStrs] at hlast
      rw [hlast,Option.elim_some,hcode] at hdict
      simp [FilterExpr.installs,FilterExpr.comparison,Pred.operand,hdict]

/-- The filters compare with their own operands exactly if the argument of every integer is that of
slot 2, and all strings have one dictionary code. -/
theorem comparesOwn_iff (db : GraphDb) (args : ArgBuilder) (ifv : InterpreteFilterVisitor)
    (p : Plan) (s : InterpreteVisitor) (n : ℕ) (hj : p.JoinFree)
    (hf : ∀ x ∈ p.filters 1, x.2.Single)
    (h : p.codegen (interpreteVisitor db args) 1 true (.init ifv) = some (s,n)) :
    ComparesOwn db args p s ↔
      (∀ x ∈ p.filters 1, x.2.isInt → args.intArgs[x.1]? = some (args.intArgs.get 2)) ∧
      ∀ txt ∈ p.filterStrs, ∀ txt' ∈ p.filterStrs, db.getCode txt = db.getCode txt' := by
  have hprop : s.properties = (p.filters 1).filterMap fun x => x.2.installs :=
    (codegen_properties hj hf h).1
  rw [ComparesOwn,InterpreteVisitor.comparisons,hprop,filterMap_installs hf,List.map_inj_left]
  exact forall_comparison_iff hj hf h

def personsById : Plan :=
  .scan "Person" false (.filter (.eq (.key 0 "id") (.num 5))
    (.filter (.eq (.key 0 "name") (.str "Ada"))
      (.filter (.eq (.key 0 "num") (.num 5)) (.collect false))))

def idTwice : ArgBuilder :=
  { ArgBuilder.new with intArgs := ((Vector.replicate 64 0).set 2 5).set 4 5 }

theorem comparesOwn_personsById : ∃ s n,
    personsById.codegen (interpreteVisitor pairDb idTwice) 1 true (.init ⟨"",.intv,0,0⟩) =
      some (s,n) ∧ ComparesOwn pairDb idTwice personsById s := by
  obtain ⟨s,n,_,hgen,_⟩ := interprete (p := personsById) pairDb idTwice ⟨"",.intv,0,0⟩
    ⟨rfl,rfl,rfl,rfl,rfl⟩ trivial rfl (by decide)
  have hf : ∀ x ∈ personsById.filters 1, x.2.Single := by
    intro x hx
    simp only [personsById,Plan.filters,List.mem_cons,List.not_mem_nil,or_false] at hx
    rcases hx with rfl | rfl | rfl
    · exact .int
    · exact .str
    · exact .int
  exact ⟨s,n,hgen,(comparesOwn_iff pairDb idTwice ⟨"",.intv,0,0⟩ personsById s n trivial hf
    hgen).2 ⟨by decide,by decide⟩⟩

def personsByIdAndAge : Plan :=
  .scan "Person" false (.filter (.eq (.key 0 "id") (.num 5))
    (.filter (.eq (.key 0 "age") (.num 30)) (.collect false)))

def idAndAge : ArgBuilder :=
  { ArgBuilder.new with intArgs := ((Vector.replicate 64 0).set 2 5).set 3 30 }

/-- The age is compared with 5. -/
theorem not_comparesOwn_age : ∃ s n,
    personsByIdAndAge.codegen (interpreteVisitor pairDb idAndAge) 1 true
      (.init ⟨"",.intv,0,0⟩) = some (s,n) ∧ ¬ ComparesOwn pairDb idAndAge personsByIdAndAge s := by
  obtain ⟨s,n,_,hgen,_⟩ := interprete (p := personsByIdAndAge) pairDb idAndAge ⟨"",.intv,0,0⟩
    ⟨rfl,rfl,rfl,rfl⟩ trivial rfl (by decide)
  have hf : ∀ x ∈ personsByIdAndAge.filters 1, x.2.Single := by
    intro x hx
    rcases List.mem_cons.1 hx with rfl | hx
    · exact .int
    · obtain rfl := List.mem_singleton.1 hx
      exact .int
  refine ⟨s,n,hgen,fun h => ?_⟩
  have hints := ((comparesOwn_iff pairDb idAndAge ⟨"",.intv,0,0⟩ personsByIdAndAge s n trivial hf
    hgen).1 h).1
  exact absurd (hints (3,.eq (.key 0 "age") (.num 30)) (by decide) rfl) (by decide)

end GraphQueryCompiler
