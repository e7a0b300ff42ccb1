import GraphQueryCompiler.FilterClosures

/-!
# The steps of an interpreted plan

The query that `interprete_visitor` leaves is compared with the steps that the operators ask for.
A step takes its label and its integer from the slot with the number of the operator in the
traversal (`op->op_id_`), as the compiled code does, and reads the last entry of the tuple.
-/

namespace GraphQueryCompiler

/-- The steps that an operator asks for, when the predicates read these members. The compiled code
of an `Expand` without a label checks none, and there are none for an index lookup, nor behind a
projection for what reads an entry. -/
inductive StepsOf (db : GraphDb) (args : ArgBuilder) (ifv : InterpreteFilterVisitor) :
    Place → List Step → Prop
  | scan {label l : String} {inp : Plan} {opId slot n : ℕ} (hl : args.stringArgs[opId]? = some l) :
      StepsOf db args ifv ⟨.scan label false inp,opId,slot,n⟩ [.allNodes,.hasLabel l]
  | foreachTo {hops : ℤ × ℤ} {label l : String} {inp : Plan} {opId slot n : ℕ} (hn : 0 < n)
      (hl : args.stringArgs[opId]? = some l) :
      StepsOf db args ifv ⟨.foreachRship .TO hops label inp,opId,slot,n⟩
        [.toRelationships (if isVariable hops then some hops else none) l]
  | foreachFrom {hops : ℤ × ℤ} {label l : String} {inp : Plan} {opId slot n : ℕ} (hn : 0 < n)
      (hl : args.stringArgs[opId]? = some l) :
      StepsOf db args ifv ⟨.foreachRship .FROM hops label inp,opId,slot,n⟩
        [.fromRelationships (if isVariable hops then some hops else none) l]
  | expandIn {label l : String} {inp : Plan} {opId slot n : ℕ} (hn : 0 < n)
      (hl : args.stringArgs[opId]? = some l) (hempty : label = "" → l = "") :
      StepsOf db args ifv ⟨.expand .IN label inp,opId,slot,n⟩ [.fromNode l]
  | expandOut {label l : String} {inp : Plan} {opId slot n : ℕ} (hn : 0 < n)
      (hl : args.stringArgs[opId]? = some l) (hempty : label = "" → l = "") :
      StepsOf db args ifv ⟨.expand .OUT label inp,opId,slot,n⟩ [.toNode l]
  | filter {i : ℕ} {key : String} {c : FilterExpr} {inp : Plan} {opId slot n : ℕ} {pred : Pred}
      (hn : i+1 = n) (h : (FilterExpr.eq (.key i key) c).comparison db args opId =
        some (key,pred.operand ifv)) :
      StepsOf db args ifv ⟨.filter (.eq (.key i key) c) inp,opId,slot,n⟩ [.property key pred]
  | project {prexpr : List PrExpr} {inp : Plan} {opId slot n : ℕ} (hn : 0 < n)
      (htype : ∀ e ∈ prexpr, e.type ≠ .BOOLEAN) :
      StepsOf db args ifv ⟨.project prexpr inp,opId,slot,n⟩ [.project (prexpr.map PrExpr.pexpr)]
  | sort {cmp : ℕ} {inp : Plan} {opId slot n : ℕ} :
      StepsOf db args ifv ⟨.sort cmp inp,opId,slot,n⟩ [.orderby cmp]
  | limit {m : ℤ} {inp : Plan} {opId slot n : ℕ} :
      StepsOf db args ifv ⟨.limit m inp,opId,slot,n⟩ [.limit m]
  | collect {print : Bool} {opId slot n : ℕ} :
      StepsOf db args ifv ⟨.collect print,opId,slot,n⟩ [.collect]

/-- The interpreter leaves one query, and it contains the steps that the operators ask for, in plan
order. -/
def StepEach (db : GraphDb) (args : ArgBuilder) (ifv : InterpreteFilterVisitor) (p : Plan)
    (interpreted : Bool) : Prop :=
  ∃ s n q gs, p.codegen (interpreteVisitor db args) 1 interpreted (.init ifv) = some (s,n) ∧
    s.start.1 = [q] ∧ List.Forall₂ (StepsOf db args s.ifv) (p.places 1 1 0) gs ∧
    gs.flatten.Sublist q

def FilterExpr.ReadsLast (n : ℕ) : FilterExpr → Prop
  | .eq (.key i _) (.num _) => i+1 = n
  | .eq (.key i _) (.str _) => i+1 = n
  | _ => False

def Place.Follows (args : ArgBuilder) (x : Place) : Prop :=
  match x.op with
  | .scan _ indexed _ => indexed = false
  | .foreachRship .. => 0 < x.entries
  | .expand _ label _ => 0 < x.entries ∧ (label = "" → args.stringArgs[x.opId]? = some "")
  | .filter fexpr _ => fexpr.ReadsLast x.entries
  | .project prexpr _ => 0 < x.entries ∧ ∀ e ∈ prexpr, e.type ≠ .BOOLEAN
  | .sort .. => False
  | .limit .. => False
  | _ => True

section Steps
variable {db : GraphDb} {args : ArgBuilder} {ifv : InterpreteFilterVisitor} {p : Plan} {x : Place}
  {xs : List Place} {g : List Step} {gs gs' : List (List Step)} {e : FilterExpr} {opId slot n : ℕ}

theorem FilterExpr.ReadsLast.single (h : e.ReadsLast n) : e.Single := by
  unfold ReadsLast at h
  split at h
  · exact .int
  · exact .str
  · exact h.elim

def Plan.onRows : Plan → Bool
  | .sort .. => true
  | .limit .. => true
  | _ => false

def Step.onRows : Step → Bool
  | .orderby _ => true
  | .limit _ => true
  | _ => false

def Plan.stepCount : Plan → ℕ
  | .scan .. => 2
  | _ => 1

theorem StepsOf.onRows (h : StepsOf db args ifv x g) : g.any Step.onRows = x.op.onRows := by
  cases h <;> rfl

theorem StepsOf.length (h : StepsOf db args ifv x g) : g.length = x.op.stepCount := by
  cases h <;> rfl

theorem Appends.onRows (h : Appends db args x g) : g.any Step.onRows = false := by
  cases h <;> rfl

theorem Appends.length (h : Appends db args x g) (hx : x.op.onRows = false) :
    g.length = x.op.stepCount := by
  cases h <;> first | rfl | cases hx

theorem any_onRows_of_stepsOf (h : List.Forall₂ (StepsOf db args ifv) xs gs) :
    gs.flatten.any Step.onRows = xs.any fun x => x.op.onRows := by
  induction h with
  | nil => rfl
  | cons hg _ ih => rw [List.flatten_cons,List.any_append,List.any_cons,hg.onRows,ih]

theorem any_onRows_of_appends (h : List.Forall₂ (Appends db args) xs gs) :
    gs.flatten.any Step.onRows = false := by
  induction h with
  | nil => rfl
  | cons hg _ ih => rw [List.flatten_cons,List.any_append,hg.onRows,ih]; rfl

theorem lengths_of_stepsOf (h : List.Forall₂ (StepsOf db args ifv) xs gs) :
    gs.map List.length = xs.map fun x => x.op.stepCount := by
  induction h with
  | nil => rfl
  | cons hg _ ih => rw [List.map_cons,List.map_cons,hg.length,ih]

theorem lengths_of_appends (h : List.Forall₂ (Appends db args) xs gs)
    (hnone : ∀ x ∈ xs, x.op.onRows = false) :
    gs.map List.length = xs.map fun x => x.op.stepCount := by
  induction h with
  | nil => rfl
  | cons hg _ ih =>
    obtain ⟨hx,hrest⟩ := List.forall_mem_cons.1 hnone
    rw [List.map_cons,List.map_cons,hg.length hx,ih hrest]

theorem eq_of_flatten_sublist (h : List.Forall₂ (StepsOf db args ifv) xs gs)
    (h' : List.Forall₂ (Appends db args) xs gs') (hsub : gs.flatten.Sublist gs'.flatten) :
    gs = gs' := by
  -- a step that orders or cuts the rows would be in the longer query
  have hnone : ∀ x ∈ xs, x.op.onRows = false := by
    have hany := any_onRows_of_stepsOf h
    have hflat : gs.flatten.any Step.onRows = false :=
      List.any_eq_false.2 fun step hstep =>
        List.any_eq_false.1 (any_onRows_of_appends h') step (hsub.subset hstep)
    rw [hflat] at hany
    simpa using hany.symm
  have hlengths : gs.map List.length = gs'.map List.length :=
    (lengths_of_stepsOf h).trans (lengths_of_appends h' hnone).symm
  have hle : gs'.flatten.length ≤ gs.flatten.length := by
    rw [List.length_flatten,List.length_flatten,hlengths]
  exact List.eq_iff_flatten_eq.2 ⟨hsub.eq_of_length_le hle,hlengths⟩

theorem StepsOf.follows (h : StepsOf db args ifv x g) (h' : Appends db args x g) :
    x.Follows args := by
  cases h with
  | scan => rfl
  | foreachTo hn | foreachFrom hn => exact hn
  | expandIn hn hl hempty | expandOut hn hl hempty =>
    exact ⟨hn,fun hlabel => by rw [hl,hempty hlabel]⟩
  | @filter i key c _ _ _ _ _ hn hc =>
    cases c with
    | num | str => exact hn
    | _ => cases hc
  | project hn htype => exact ⟨hn,htype⟩
  | sort | limit => cases h'
  | collect => trivial

def Place.filter? (x : Place) : Option (ℕ × FilterExpr) := x.op.filter? x.opId

theorem installs_of_accept {ifv' ifv'' : InterpreteFilterVisitor} (he : e.Single)
    (h : e.accept (interpreteFilterVisitor db args) 0 ifv' = some ifv'') :
    e.installs = some (ifv''.key,ifv''.getPred) := by
  cases he with
  | int | str =>
    obtain rfl := Option.some.inj h
    rfl

theorem StepsOf.comparison (h : StepsOf db args ifv x g) (h' : Appends db args x g) :
    ∀ y ∈ x.filter?, (y.2.installs.map fun z => (z.1,z.2.operand ifv)) =
      y.2.comparison db args y.1 := by
  have hfollows := h.follows h'
  cases h with
  | filter hn hc =>
    rintro y hy
    obtain rfl := Option.some.inj hy
    cases h' with
    | filter haccept =>
      rw [installs_of_accept hfollows.single haccept,Option.map_some,hc]
  | _ => exact fun y hy => absurd hy (by simp [Place.filter?,Plan.filter?])

theorem stepsOf_of_follows (h : Appends db args x g) (hslot : x.slot = x.opId)
    (hx : x.Follows args) (hfilter : ∀ y ∈ x.filter?,
      (y.2.installs.map fun z => (z.1,z.2.operand ifv)) = y.2.comparison db args y.1) :
    StepsOf db args ifv x g := by
  obtain ⟨op,opId,slot,n⟩ := x
  obtain rfl : slot = opId := hslot
  cases h with
  | scan hl =>
    obtain rfl : _ = false := hx
    exact .scan hl
  | foreachTo hl => exact .foreachTo hx hl
  | foreachFrom hl => exact .foreachFrom hx hl
  | expandIn hl =>
    exact .expandIn hx.1 hl fun hlabel => Option.some.inj (hl.symm.trans (hx.2 hlabel))
  | expandOut hl =>
    exact .expandOut hx.1 hl fun hlabel => Option.some.inj (hl.symm.trans (hx.2 hlabel))
  | @filter fexpr _ _ _ _ _ _ haccept =>
    have hreads : fexpr.ReadsLast n := hx
    have hown := hfilter (slot,fexpr) rfl
    rw [installs_of_accept hreads.single haccept,Option.map_some] at hown
    cases hreads.single with
    | int | str =>
      obtain rfl := Option.some.inj haccept
      exact .filter hx hown.symm
  | project => exact .project hx.1 hx.2
  | sort | limit => exact hx.elim
  | collect => exact .collect

theorem filters_eq_places (hj : p.JoinFree) : ∀ opId slot n : ℕ,
    p.filters opId = (p.places opId slot n).filterMap Place.filter? := by
  induction p with
  | join => exact absurd hj id
  | collect | endOp => exact fun _ _ _ => rfl
  | filter fexpr inp ih =>
    intro opId slot n
    exact congrArg (List.cons _) (ih hj _ _ _)
  | _ _ _ =>
    rename_i ih
    exact fun _ _ _ => ih hj _ _ _

theorem slot_eq_opId (hs : p.Suffix) (hj : p.JoinFree) : ∀ {k n : ℕ},
    (∀ x ∈ p.places k k n, x.Follows args) → ∀ x ∈ p.places k k n, x.slot = x.opId := by
  induction p with
  | scan => exact absurd hs.1 (by simp)
  | join => exact absurd hj id
  | create => exact absurd hs id
  | collect | endOp =>
    intro k n _ x hx
    obtain rfl := List.mem_singleton.1 hx
    rfl
  | sort | limit => exact fun h => (h _ List.mem_cons_self).elim
  | _ _ _ =>
    rename_i ih
    intro k n h
    exact List.forall_mem_cons.2 ⟨rfl,ih hs.2 hj (List.forall_mem_cons.1 h).2⟩

theorem Plan.AccessPath.slot_eq_opId (hp : p.AccessPath) (hj : p.JoinFree)
    (h : ∀ x ∈ p.places 1 1 0, x.Follows args) : ∀ x ∈ p.places 1 1 0, x.slot = x.opId := by
  cases p with
  | scan label indexed inp =>
    obtain ⟨hscan,hrest⟩ := List.forall_mem_cons.1 h
    obtain rfl : indexed = false := hscan
    exact List.forall_mem_cons.2 ⟨rfl,GraphQueryCompiler.slot_eq_opId hp.2 hj hrest⟩
  | create => exact absurd hp id
  | collect | endOp => exact absurd hp (by simp [Plan.Shaped])
  | _ => exact absurd hp.1 (by simp)

theorem single_of_follows (hj : p.JoinFree) (h : ∀ x ∈ p.places 1 1 0, x.Follows args) :
    ∀ y ∈ p.filters 1, y.2.Single := by
  rw [filters_eq_places hj 1 1 0]
  intro y hy
  obtain ⟨⟨op,opId,slot,n⟩,hx,hfilter⟩ := List.mem_filterMap.1 hy
  cases op with
  | filter fexpr inp =>
    obtain rfl := Option.some.inj hfilter
    have hreads : fexpr.ReadsLast n := h _ hx
    exact hreads.single
  | _ => cases hfilter

theorem follows_of_stepsOf (h : List.Forall₂ (StepsOf db args ifv) xs gs)
    (h' : List.Forall₂ (Appends db args) xs gs) :
    (∀ x ∈ xs, x.Follows args) ∧ ∀ y ∈ xs.filterMap Place.filter?,
      (y.2.installs.map fun z => (z.1,z.2.operand ifv)) = y.2.comparison db args y.1 := by
  induction h with
  | nil => simp
  | @cons x g xs gs hg _ ih =>
    cases h' with
    | cons hg' h' =>
      obtain ⟨hfollows,hown⟩ := ih h'
      refine ⟨List.forall_mem_cons.2 ⟨hg.follows hg',hfollows⟩,fun y hy => ?_⟩
      obtain ⟨z,hz,hzy⟩ := List.mem_filterMap.1 hy
      rcases List.mem_cons.1 hz with rfl | hz
      · exact hg.comparison hg' y hzy
      · exact hown y (List.mem_filterMap.2 ⟨z,hz,hzy⟩)

theorem stepsOf_of_appends (h : List.Forall₂ (Appends db args) xs gs)
    (hslot : ∀ x ∈ xs, x.slot = x.opId) (hfollows : ∀ x ∈ xs, x.Follows args)
    (hown : ∀ y ∈ xs.filterMap Place.filter?,
      (y.2.installs.map fun z => (z.1,z.2.operand ifv)) = y.2.comparison db args y.1) :
    List.Forall₂ (StepsOf db args ifv) xs gs := by
  induction h with
  | nil => exact .nil
  | @cons x g xs gs hg _ ih =>
    obtain ⟨hx,hslot⟩ := List.forall_mem_cons.1 hslot
    obtain ⟨hfx,hfollows⟩ := List.forall_mem_cons.1 hfollows
    refine .cons (stepsOf_of_follows hg hx hfx fun y hy => ?_) (ih hslot hfollows fun y hy => ?_)
    · exact hown y (List.mem_filterMap.2 ⟨x,List.mem_cons_self,hy⟩)
    · obtain ⟨z,hz,hy⟩ := List.mem_filterMap.1 hy
      exact hown y (List.mem_filterMap.2 ⟨z,List.mem_cons_of_mem _ hz,hy⟩)

end Steps

section Claims
variable {db : GraphDb} {args : ArgBuilder} {ifv : InterpreteFilterVisitor} {p : Plan}
  {interpreted : Bool}

theorem StepEach.conditions (hp : p.AccessPath) (hj : p.JoinFree) (hl : p.Leaves true)
    (h : StepEach db args ifv p interpreted) :
    (∀ x ∈ p.places 1 1 0, x.Follows args) ∧ p.labelSlots ≤ 63 ∧
      (∀ x ∈ p.filters 1, x.2.isInt → args.intArgs[x.1]? = some (args.intArgs.get 2)) ∧
      ∀ txt ∈ p.filterStrs, ∀ txt' ∈ p.filterStrs, db.getCode txt = db.getCode txt' := by
  obtain ⟨s,n,q,gs,hgen,hstart,hsteps,hsub⟩ := h
  rw [hj.codegen_interpreted] at hgen
  have hlt := slotPairs_lt hj hgen
  obtain ⟨s',n',gs',hgen',hqueries,happ⟩ := interprete db args ifv hp hj hl hlt
  obtain ⟨rfl,rfl⟩ : s = s' ∧ n = n' := by simpa [hgen] using hgen'
  obtain rfl : gs'.flatten = q := by
    simpa [InterpreteVisitor.start,hqueries] using hstart
  obtain rfl := eq_of_flatten_sublist hsteps happ hsub
  obtain ⟨hfollows,hown⟩ := follows_of_stepsOf hsteps happ
  rw [← filters_eq_places hj 1 1 0] at hown
  exact ⟨hfollows,slotPairs_lt_iff_labelSlots.1 hlt,
    (forall_comparison_iff hj (single_of_follows hj hfollows) hgen).1 hown⟩

/-- The interpreted query has the steps that the operators ask for exactly if the plan has no index
lookup, sorts and cuts no rows, reads nothing behind a projection, compares keys of the last entry
only, all integers with the argument of slot 2 and all strings with one code, and its labels fit
into the vector. -/
theorem stepEach_iff (db : GraphDb) (args : ArgBuilder) (ifv : InterpreteFilterVisitor)
    (p : Plan) (interpreted : Bool) (hp : p.AccessPath) (hj : p.JoinFree) (hl : p.Leaves true) :
    StepEach db args ifv p interpreted ↔
      (∀ x ∈ p.places 1 1 0, x.Follows args) ∧ p.labelSlots ≤ 63 ∧
      (∀ x ∈ p.filters 1, x.2.isInt → args.intArgs[x.1]? = some (args.intArgs.get 2)) ∧
      ∀ txt ∈ p.filterStrs, ∀ txt' ∈ p.filterStrs, db.getCode txt = db.getCode txt' := by
  refine ⟨StepEach.conditions hp hj hl,fun ⟨hfollows,hslots,hconst⟩ => ?_⟩
  obtain ⟨s,n,gs,hgen,hqueries,happ⟩ := interprete db args ifv hp hj hl
    (slotPairs_lt_iff_labelSlots.2 hslots)
  have hown := (forall_comparison_iff hj (single_of_follows hj hfollows) hgen).2 hconst
  rw [filters_eq_places hj 1 1 0] at hown
  refine ⟨s,n,gs.flatten,gs,?_,?_,?_,List.Sublist.refl _⟩
  · rw [hj.codegen_interpreted,hgen]
  · rw [InterpreteVisitor.start,hqueries]
    rfl
  · exact stepsOf_of_appends happ (hp.slot_eq_opId hj hfollows) hfollows hown

def knowingById : Plan :=
  .scan "Person" false (.filter (.eq (.key 0 "id") (.num 5)) (.foreachRship .FROM (0,0) "knows"
    (.expand .OUT "" (.project [⟨0,"name",.STRING⟩] (.collect false)))))

def knowingArgs : ArgBuilder :=
  { ArgBuilder.new with
    intArgs := (Vector.replicate 64 0).setIfInBounds 2 5
    stringArgs := ((Vector.replicate 64 "").setIfInBounds 1 "Person").setIfInBounds 3 "knows" }

theorem stepEach_knows : StepEach pairDb knowingArgs ⟨"",.intv,0,0⟩ knowingById true := by
  refine (stepEach_iff pairDb knowingArgs ⟨"",.intv,0,0⟩ knowingById true
    ⟨rfl,rfl,rfl,rfl,rfl,rfl⟩ trivial rfl).2 ⟨?_,by decide,by decide,by decide⟩
  simp [knowingById,knowingArgs,Plan.places,Place.Follows,FilterExpr.ReadsLast]

theorem not_stepEach_sort : ¬ StepEach pairDb .new ⟨"",.intv,0,0⟩
    (.scan "Person" false (.sort 0 (.collect false))) true :=
  fun h => (StepEach.conditions (p := .scan "Person" false (.sort 0 (.collect false)))
    ⟨rfl,rfl,rfl⟩ trivial rfl h).1 ⟨.sort 0 (.collect false),2,2,1⟩ (by simp [Plan.places])

end Claims

end GraphQueryCompiler
