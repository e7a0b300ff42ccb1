import GraphQueryCompiler.ArgExtraction

/-!
# The keys of the projections

When a `Scan` is visited, `query_length` collects the keys of all `Project`s of its pipeline behind
those of the pipelines before, and `init_function` makes an array of them, and twelve cells for
results. Every `Project` takes its keys and cells from the beginning of both.
-/

namespace GraphQueryCompiler

/-- The members of `codegen_inline_visitor` that a `Project` takes its keys and cells from, a key by
its string. `inits` counts the calls of `init_function`; there is a `main_function` behind the
first. -/
structure ProjectKeys where
  inits : ℕ
  projectString : List String
  projectKeys : List String

namespace ProjectKeys

def init : ProjectKeys := ⟨0,[],[]⟩

def initFunction (u : ProjectKeys) : ProjectKeys :=
  { u with inits := u.inits+1, projectKeys := u.projectString }

/-- What a visit does to these members. A `Create` is an access path only where there is none in
front of it, and collects no keys. -/
def visit (op : Plan) (u : ProjectKeys) : ProjectKeys :=
  match op with
  | .scan _ _ inp => initFunction { u with projectString := u.projectString ++ inp.projectionKeys }
  | .create .. => if u.inits = 0 then u.initFunction else u
  | _ => u

def pv (u : ProjectKeys) (i : ℕ) : Option (ℕ × ℕ) := if i < 12 then some (u.inits,i) else none

/-- The call for every expression of a `Project` passes the key of the expression, and a cell of its
own that the `init_function` of its pipeline made. -/
def Passes (u : ProjectKeys) (pipeline : ℕ) (prexpr : List PrExpr) : Prop :=
  ∀ i pe, prexpr[i]? = some pe → pe.type ≠ .BOOLEAN →
    u.projectKeys[i]? = some pe.key ∧ u.pv (i+1) = some (pipeline,i+1) ∧
      ∀ j, j ≠ i → u.pv (j+1) ≠ u.pv (i+1)

end ProjectKeys

structure ProjectVisit where
  pipeline : ℕ
  prexpr : List PrExpr
  keys : ProjectKeys

namespace Plan

def projectVisits : Plan → ℕ → ProjectKeys → ProjectKeys × List ProjectVisit
  | .scan label indexed inp, _, u =>
    inp.projectVisits (u.inits+1) (u.visit (.scan label indexed inp))
  | .foreachRship _ _ _ inp, pipeline, u => inp.projectVisits pipeline u
  | .expand _ _ inp, pipeline, u => inp.projectVisits pipeline u
  | .filter _ inp, pipeline, u => inp.projectVisits pipeline u
  | .project prexpr inp, pipeline, u =>
    let r := inp.projectVisits pipeline u
    (r.1,⟨pipeline,prexpr,u⟩ :: r.2)
  | .join _ _ lhs rhs, pipeline, u =>
    let l := lhs.projectVisits pipeline u
    let r := rhs.projectVisits 0 l.1
    (r.1,l.2 ++ r.2)
  | .sort _ inp, pipeline, u => inp.projectVisits pipeline u
  | .limit _ inp, pipeline, u => inp.projectVisits pipeline u
  | .create type srcDes inp, pipeline, u =>
    inp.projectVisits (if u.inits = 0 then 1 else pipeline) (u.visit (.create type srcDes inp))
  | .collect _, _, u => (u,[])
  | .endOp, _, u => (u,[])

/-- In the traversal of the plan, every `Project` passes its own keys and cells. -/
def ProjectsPass (p : Plan) : Prop :=
  ∀ x ∈ (p.projectVisits 0 .init).2, x.keys.Passes x.pipeline x.prexpr

def collectedKeys : Plan → List String
  | .scan _ _ inp => inp.projectionKeys ++ inp.collectedKeys
  | .foreachRship _ _ _ inp => inp.collectedKeys
  | .expand _ _ inp => inp.collectedKeys
  | .filter _ inp => inp.collectedKeys
  | .project _ inp => inp.collectedKeys
  | .join _ _ lhs rhs => lhs.collectedKeys ++ rhs.collectedKeys
  | .sort _ inp => inp.collectedKeys
  | .limit _ inp => inp.collectedKeys
  | .create _ _ inp => inp.collectedKeys
  | .collect _ => []
  | .endOp => []

def projections : Plan → Bool → List (Bool × List PrExpr)
  | .scan _ _ inp, _ => inp.projections true
  | .foreachRship _ _ _ inp, scanned => inp.projections scanned
  | .expand _ _ inp, scanned => inp.projections scanned
  | .filter _ inp, scanned => inp.projections scanned
  | .project prexpr inp, scanned => (scanned,prexpr) :: inp.projections scanned
  | .join _ _ lhs rhs, scanned => lhs.projections scanned ++ rhs.projections false
  | .sort _ inp, scanned => inp.projections scanned
  | .limit _ inp, scanned => inp.projections scanned
  | .create _ _ inp, scanned => inp.projections scanned
  | .collect _, _ => []
  | .endOp, _ => []

end Plan

/-- An expression that is no `BOOLEAN` is one of the first eleven, and has the key that was
collected in its position. -/
def TakesOwn (keys : List String) (x : Bool × List PrExpr) : Prop :=
  ∀ i pe, x.2[i]? = some pe → pe.type ≠ .BOOLEAN →
    x.1 = true ∧ i+1 < 12 ∧ keys[i]? = some pe.key

def Plan.KeysAligned (p : Plan) : Prop := ∀ x ∈ p.projections false, TakesOwn p.collectedKeys x

namespace Plan
variable {p inp : Plan}

def nextPipeline (p : Plan) (pipeline : ℕ) (u : ProjectKeys) : ℕ :=
  match p with
  | .scan .. => u.inits+1
  | .create .. => if u.inits = 0 then 1 else pipeline
  | _ => pipeline

def ownVisit (p : Plan) (pipeline : ℕ) (u : ProjectKeys) : List ProjectVisit :=
  match p with
  | .project prexpr _ => [⟨pipeline,prexpr,u⟩]
  | _ => []

theorem projectVisits_input (h : p.input = some inp) (pipeline : ℕ) (u : ProjectKeys) :
    p.projectVisits pipeline u =
      ((inp.projectVisits (p.nextPipeline pipeline u) (u.visit p)).1,
        p.ownVisit pipeline u ++
          (inp.projectVisits (p.nextPipeline pipeline u) (u.visit p)).2) := by
  cases p <;> simp only [input,reduceCtorEq,Option.some.injEq] at h <;> subst h <;> rfl

end Plan

structure CodegenInlineVisitor.Has (v : CodegenInlineVisitor) (u : ProjectKeys) : Prop where
  main : v.entry.isSome ↔ u.inits ≠ 0
  projectString : v.projectString = u.projectString
  projectKeys : v.projectKeys = u.projectKeys

def projectLog (op : Plan) (_ : ℕ) (v : CodegenInlineVisitor) :
    List (List PrExpr × List String) :=
  match op with
  | .project prexpr _ => [(prexpr,v.projectKeys)]
  | _ => []

section Visitor
variable {db : GraphDb} {v v' : CodegenInlineVisitor} {u : ProjectKeys} {op p : Plan} {opId : ℕ}
  {i : ℕ} {pe : PrExpr} {res : List Instr × QrValue}

theorem projectExpr_passes (h : v.projectExpr (i+1) pe = some res) (hbool : pe.type ≠ .BOOLEAN) :
    i+1 < 12 ∧ ∃ key isNode e, v.projectKeys[i]? = some key ∧
      res.1 = [.applyPexpr isNode key pe.type e (v.cell (.pv (i+1)))] := by
  simp only [CodegenInlineVisitor.projectExpr,Option.bind_eq_bind,Option.bind_eq_some_iff,
    if_neg hbool,Nat.add_sub_cancel] at h
  obtain ⟨r,_,key,hkey,h⟩ := h
  split_ifs at h with hlt
  obtain rfl := Option.some.inj h
  exact ⟨hlt,key,_,_,hkey,rfl⟩

theorem has_init (er : ℕ → Option Expr) : (CodegenInlineVisitor.init er).Has .init :=
  ⟨by simp [CodegenInlineVisitor.init,ProjectKeys.init],rfl,rfl⟩

theorem visit_keeps (hop : op.isScan = false)
    (h : (codegenInlineVisitor db).visit op opId v = some v') :
    v'.entry = v.entry ∧ v'.projectString = v.projectString ∧ v'.projectKeys = v.projectKeys := by
  cases op with
  | scan => cases hop
  | foreachRship dir hops label inp =>
    simp only [codegenInlineVisitor,CodegenInlineVisitor.visitForeachRship,Option.bind_eq_bind,
      Option.bind_eq_some_iff,Option.pure_def,Option.some.injEq] at h
    obtain ⟨_,_,rfl⟩ := h
    exact ⟨rfl,rfl,rfl⟩
  | expand exp label inp =>
    obtain ⟨_,_,h⟩ := Option.bind_eq_some_iff.1 h
    obtain rfl := Option.some.inj h
    exact ⟨rfl,rfl,rfl⟩
  | filter fexpr inp =>
    simp only [codegenInlineVisitor,CodegenInlineVisitor.visitFilter,Option.bind_eq_bind,
      Option.bind_eq_some_iff,Option.pure_def,Option.some.injEq] at h
    obtain ⟨_,_,_,_,rfl⟩ := h
    exact ⟨rfl,rfl,rfl⟩
  | project prexpr inp =>
    obtain ⟨_,_,h⟩ := Option.bind_eq_some_iff.1 h
    obtain rfl := Option.some.inj h
    exact ⟨rfl,rfl,rfl⟩
  | join jop pos lhs rhs =>
    obtain ⟨_,_,h⟩ := Option.bind_eq_some_iff.1 h
    obtain rfl := Option.some.inj h
    exact ⟨rfl,rfl,rfl⟩
  | create => cases h
  | endOp =>
    simp only [codegenInlineVisitor,CodegenInlineVisitor.visitEnd] at h
    split at h
    · cases h
    · obtain rfl := Option.some.inj h
      exact ⟨rfl,rfl,rfl⟩
  | sort | limit | collect =>
    obtain rfl := Option.some.inj h
    exact ⟨rfl,rfl,rfl⟩

theorem visit_has (h : (codegenInlineVisitor db).visit op opId v = some v') (hv : v.Has u) :
    v'.Has (u.visit op) := by
  cases hop : op.isScan with
  | true =>
    cases op with
    | scan label indexed inp =>
      obtain rfl := Option.some.inj h
      have hstring : v.projectString ++ inp.projectionKeys =
        u.projectString ++ inp.projectionKeys := by rw [hv.projectString]
      exact ⟨iff_of_true rfl (Nat.succ_ne_zero _),hstring,hstring⟩
    | _ => cases hop
  | false =>
    obtain ⟨hentry,hstring,hkeys⟩ := visit_keeps hop h
    have hu : u.visit op = u := by
      cases op with
      | scan => cases hop
      | create => cases h
      | _ => rfl
    rw [hu]
    exact ⟨by rw [hentry]; exact hv.main,hstring.trans hv.projectString,
      hkeys.trans hv.projectKeys⟩

/-- The visits of the `Project`s in a traversal by the visitor are those of the plan. -/
theorem codegen_projectVisits (p : Plan) : ∀ (pipeline : ℕ) {opId opId' : ℕ} {u : ProjectKeys}
    {v v' : CodegenInlineVisitor} {l l' : List (List PrExpr × List String)},
    p.codegen ((codegenInlineVisitor db).logging projectLog) opId true (v,l) =
      some ((v',l'),opId') → v.Has u →
    v'.Has (p.projectVisits pipeline u).1 ∧
      l' = l ++ (p.projectVisits pipeline u).2.map fun x => (x.prexpr,x.keys.projectKeys) := by
  induction p with
  | collect | endOp =>
    intro pipeline opId opId' u v v' l l' h hv
    simp only [Plan.codegen,OpVisitor.logging_visit,Option.bind_eq_bind,Option.bind_eq_some_iff,
      Option.map_eq_some_iff,Option.pure_def,Option.some.injEq,Prod.mk.injEq] at h
    obtain ⟨_,⟨v₁,hvisit,rfl⟩,⟨rfl,rfl⟩,_⟩ := h
    exact ⟨visit_has hvisit hv,rfl⟩
  | join jop pos lhs rhs ihl ihr =>
    intro pipeline opId opId' u v v' l l' h hv
    simp only [Plan.codegen,if_true,OpVisitor.logging_visit,Option.bind_eq_bind,
      Option.bind_eq_some_iff,Option.map_eq_some_iff,Prod.exists] at h
    obtain ⟨_,_,⟨v₁,hvisit,hlog⟩,v₂,l₂,_,h₂,h₃⟩ := h
    obtain ⟨rfl,rfl⟩ := Prod.mk.inj hlog
    obtain ⟨hv₂,rfl⟩ := ihl pipeline h₂ (visit_has hvisit hv)
    obtain ⟨hv₃,rfl⟩ := ihr 0 h₃ hv₂
    refine ⟨hv₃,?_⟩
    rw [Plan.projectVisits,List.map_append]
    simp [projectLog,ProjectKeys.visit]
  | _ _ _ =>
    rename_i ih
    intro pipeline opId opId' u v v' l l' h hv
    rw [Plan.codegen_input rfl,OpVisitor.logging_visit,Option.bind_eq_some_iff] at h
    obtain ⟨_,h₁,h₂⟩ := h
    obtain ⟨v₁,hvisit,rfl⟩ := Option.map_eq_some_iff.1 h₁
    rw [Plan.projectVisits_input rfl]
    refine (ih _ h₂ (visit_has hvisit hv)).imp_right fun heq => ?_
    rw [heq]
    simp [projectLog,Plan.ownVisit,hv.projectKeys]

/-- The code generator begins with the members of `ProjectsPass`. -/
theorem codegen_projectVisits_init (p : Plan) (er : ℕ → Option Expr) {opId' : ℕ}
    {v' : CodegenInlineVisitor} {l' : List (List PrExpr × List String)}
    (h : p.codegen ((codegenInlineVisitor db).logging projectLog) 1 true (.init er,[]) =
      some ((v',l'),opId')) :
    l' = (p.projectVisits 0 .init).2.map fun x => (x.prexpr,x.keys.projectKeys) :=
  (codegen_projectVisits p 0 h (has_init er)).2

end Visitor

/-- The members in front of an operator: behind a `Scan`, its `init_function` has made the array, of
at least the keys that are to come; without one, there is no array, or that of another pipeline. -/
structure ProjectKeys.Ready (u : ProjectKeys) (scanned : Bool) (pipeline : ℕ)
    (keys : List String) : Prop where
  made : scanned = true → u.inits = pipeline ∧ u.inits ≠ 0 ∧ u.projectKeys = u.projectString ∧
    keys.length ≤ u.projectString.length
  unmade : scanned = false → u.projectKeys = [] ∨ u.inits ≠ pipeline
  fresh : u.inits = 0 → u.projectString = [] ∧ u.projectKeys = []

section Traversal
variable {p inp : Plan} {u : ProjectKeys} {scanned : Bool} {pipeline : ℕ} {keys total : List String}
  {prexpr : List PrExpr}

def Plan.nextScanned (p : Plan) (scanned : Bool) : Bool := p.isScan || scanned

theorem projectString_visit (h : p.input = some inp) :
    (u.visit p).projectString ++ inp.collectedKeys = u.projectString ++ p.collectedKeys := by
  cases p <;> simp only [Plan.input,reduceCtorEq,Option.some.injEq] at h <;> subst h
  case scan => exact List.append_assoc ..
  case create =>
    rw [ProjectKeys.visit]
    split_ifs <;> rfl
  all_goals rfl

theorem fresh_visit (p : Plan) (h : u.inits = 0 → u.projectString = [] ∧ u.projectKeys = []) :
    (u.visit p).inits = 0 → (u.visit p).projectString = [] ∧ (u.visit p).projectKeys = [] := by
  unfold ProjectKeys.visit
  split
  · exact fun h => absurd h (Nat.succ_ne_zero _)
  · split_ifs with hu
    · exact fun h => absurd h (Nat.succ_ne_zero _)
    · exact h
  · exact h

theorem projectVisits_keys (p : Plan) : ∀ (pipeline : ℕ) {u : ProjectKeys},
    (u.inits = 0 → u.projectString = [] ∧ u.projectKeys = []) →
    (p.projectVisits pipeline u).1.projectString = u.projectString ++ p.collectedKeys ∧
      ((p.projectVisits pipeline u).1.inits = 0 →
        (p.projectVisits pipeline u).1.projectString = [] ∧
          (p.projectVisits pipeline u).1.projectKeys = []) := by
  induction p with
  | collect | endOp =>
    intro pipeline u hu
    exact ⟨(List.append_nil _).symm,hu⟩
  | join jop pos lhs rhs ihl ihr =>
    intro pipeline u hu
    obtain ⟨hl,hfresh⟩ := ihl pipeline hu
    obtain ⟨hr,hfresh'⟩ := ihr 0 hfresh
    refine ⟨?_,hfresh'⟩
    rw [Plan.projectVisits,Plan.collectedKeys,hr,hl,List.append_assoc]
  | _ _ _ =>
    rename_i ih
    intro pipeline u hu
    rw [Plan.projectVisits_input rfl,← projectString_visit rfl]
    exact ih _ (fresh_visit _ hu)

theorem ProjectKeys.Ready.visit (hu : u.Ready scanned pipeline p.projectionKeys)
    (h : p.input = some inp) :
    (u.visit p).Ready (p.nextScanned scanned) (p.nextPipeline pipeline u) inp.projectionKeys := by
  refine ⟨?_,?_,fresh_visit p hu.fresh⟩
  · cases p <;> simp only [Plan.input,reduceCtorEq,Option.some.injEq] at h <;> subst h
    case scan =>
      exact fun _ => ⟨rfl,Nat.succ_ne_zero _,rfl,by simp [ProjectKeys.visit,initFunction]⟩
    case create =>
      intro hs
      obtain ⟨hinits,hne,hrest⟩ := hu.made hs
      simp only [ProjectKeys.visit,Plan.nextPipeline,if_neg hne]
      exact ⟨hinits,hne,hrest⟩
    case project prexpr =>
      intro hs
      obtain ⟨hinits,hne,hkeys,hle⟩ := hu.made hs
      rw [Plan.projectionKeys,List.length_append] at hle
      exact ⟨hinits,hne,hkeys,(Nat.le_add_left _ _).trans hle⟩
    all_goals exact hu.made
  · cases p <;> simp only [Plan.input,reduceCtorEq,Option.some.injEq] at h <;> subst h
    case scan => exact fun hs => absurd hs (by simp [Plan.nextScanned,Plan.isScan])
    case create =>
      intro hs
      simp only [ProjectKeys.visit,Plan.nextPipeline]
      split_ifs with hinits
      · exact .inl (hu.fresh hinits).1
      · exact hu.unmade hs
    all_goals exact hu.unmade

theorem ProjectKeys.Ready.passes_iff (hu : u.Ready scanned pipeline keys)
    (hle : prexpr.length ≤ keys.length) (htotal : u.projectString <+: total) :
    u.Passes pipeline prexpr ↔ TakesOwn total (scanned,prexpr) := by
  refine forall₄_congr fun i pe hi _ => ?_
  cases hs : scanned with
  | false =>
    refine iff_of_false ?_ (by simp)
    rintro ⟨hkey,hpv,_⟩
    rcases hu.unmade hs with hnil | hne
    · rw [hnil] at hkey
      cases hkey
    · rw [pv] at hpv
      split_ifs at hpv
      exact hne (Prod.mk.inj (Option.some.inj hpv)).1
  | true =>
    obtain ⟨hinits,_,hkeys,hlen⟩ := hu.made hs
    have hlt : i < u.projectString.length := by
      have hlt := (List.getElem?_eq_some_iff.1 hi).1
      omega
    have hat : u.projectKeys[i]? = total[i]? := by
      obtain ⟨t,rfl⟩ := htotal
      rw [hkeys,List.getElem?_append_left hlt]
    have hpv : u.pv (i+1) = some (pipeline,i+1) ↔ i+1 < 12 := by
      rw [pv,hinits]
      split_ifs with h12 <;> simp [h12]
    have hown : i+1 < 12 → ∀ j, j ≠ i → u.pv (j+1) ≠ u.pv (i+1) := by
      intro h12 j hj
      rw [hpv.2 h12,pv]
      split_ifs
      · simp [hj]
      · simp
    rw [hat,hpv]
    constructor
    · exact fun ⟨hkey,h12,_⟩ => ⟨rfl,h12,hkey⟩
    · exact fun ⟨_,h12,hkey⟩ => ⟨hkey,h12,hown h12⟩

theorem projectVisits_pass (p : Plan) : ∀ {scanned : Bool} {pipeline : ℕ} {u : ProjectKeys},
    u.Ready scanned pipeline p.projectionKeys → u.projectString ++ p.collectedKeys <+: total →
    ((∀ x ∈ (p.projectVisits pipeline u).2, x.keys.Passes x.pipeline x.prexpr) ↔
      ∀ x ∈ p.projections scanned, TakesOwn total x) := by
  induction p with
  | collect | endOp =>
    intro scanned pipeline u _ _
    exact iff_of_true (List.forall_mem_nil _) (List.forall_mem_nil _)
  | join jop pos lhs rhs ihl ihr =>
    intro scanned pipeline u hu htotal
    obtain ⟨hstring,hfresh⟩ := projectVisits_keys lhs pipeline hu.fresh
    rw [Plan.collectedKeys,← List.append_assoc] at htotal
    have hl := ihl hu ((List.prefix_append _ _).trans htotal)
    have hrhs : (lhs.projectVisits pipeline u).1.Ready false 0 rhs.projectionKeys := by
      refine ⟨fun h => absurd h (by simp),fun _ => ?_,hfresh⟩
      by_cases h : (lhs.projectVisits pipeline u).1.inits = 0
      · exact .inl (hfresh h).2
      · exact .inr h
    have hr := ihr hrhs (by rwa [hstring])
    rw [Plan.projectVisits,Plan.projections,List.forall_mem_append,List.forall_mem_append,hl,hr]
  | project prexpr inp ih =>
    intro scanned pipeline u hu htotal
    have hrest := ih (hu.visit (p := .project prexpr inp) rfl) htotal
    have hown : u.Passes pipeline prexpr ↔ TakesOwn total (scanned,prexpr) :=
      hu.passes_iff (by simp [Plan.projectionKeys]) ((List.prefix_append _ _).trans htotal)
    rw [Plan.projectVisits,Plan.projections,List.forall_mem_cons,List.forall_mem_cons]
    exact and_congr hown hrest
  | _ _ _ =>
    rename_i ih
    intro scanned pipeline u hu htotal
    rw [← projectString_visit rfl] at htotal
    exact ih (hu.visit rfl) htotal

theorem ready_init (p : Plan) : ProjectKeys.init.Ready false 0 p.projectionKeys :=
  ⟨fun h => absurd h (by simp),fun _ => .inl rfl,fun _ => ⟨rfl,rfl⟩⟩

end Traversal

/-- The `Project`s of a plan pass their own keys exactly if these stand in the same positions of the
keys of all pipelines. -/
theorem projectsPass_iff (p : Plan) : p.ProjectsPass ↔ p.KeysAligned :=
  projectVisits_pass p (ready_init p) (List.prefix_refl _)

theorem Plan.projectionKeys_eq {p : Plan} (hs : p.Suffix) (hj : p.JoinFree) :
    p.collectedKeys = [] ∧
      p.projectionKeys = (p.projections true).flatMap fun x => x.2.map PrExpr.key := by
  induction p with
  | scan => exact absurd hs.1 (by simp)
  | create => exact absurd hs id
  | join => exact absurd hj id
  | collect | endOp => exact ⟨rfl,rfl⟩
  | project prexpr inp ih =>
    obtain ⟨hcollected,hkeys⟩ := ih hs.2 hj
    refine ⟨hcollected,?_⟩
    rw [projectionKeys,hkeys,projections,List.flatMap_cons]
  | _ _ _ =>
    rename_i ih
    exact ih hs.2 hj

/-- A plan with a single pipeline and a single `Project` passes the keys, unless an expression
stands behind the eleventh. -/
theorem projectsPass_single_iff {p : Plan} {prexpr : List PrExpr} (hp : p.AccessPath)
    (hj : p.JoinFree) (hone : p.projections false = [(true,prexpr)]) : p.ProjectsPass ↔
      ∀ i pe, prexpr[i]? = some pe → pe.type ≠ .BOOLEAN → i+1 ≤ 11 := by
  have hkeys : p.collectedKeys = prexpr.map PrExpr.key := by
    cases p with
    | scan label indexed inp =>
      obtain ⟨hcollected,hown⟩ := Plan.projectionKeys_eq (p := inp) hp.2 hj
      have hone : inp.projections true = [(true,prexpr)] := hone
      rw [Plan.collectedKeys,hcollected,hown,hone]
      simp
    | create => exact absurd hp id
    | collect | endOp => exact absurd hp (by simp [Plan.Shaped])
    | _ => exact absurd hp.1 (by simp)
  have haligned : p.ProjectsPass ↔ p.KeysAligned :=
    projectVisits_pass p (ready_init p) (List.prefix_refl _)
  rw [haligned,Plan.KeysAligned,hone,List.forall_mem_singleton,hkeys]
  refine forall₄_congr fun i pe hi _ => ⟨fun h => by omega,fun h => ⟨rfl,by omega,?_⟩⟩
  rw [List.getElem?_map,hi]
  rfl

def projectedTwice : Plan :=
  .scan "Person" false (.project [⟨0,"id",.INT⟩] (.project [⟨0,"age",.INT⟩] (.collect false)))

/-- The second one passes the key of the first. -/
theorem not_projectsPass_projectedTwice : ¬ projectedTwice.ProjectsPass := by
  intro h
  have hsecond := h ⟨1,[⟨0,"age",.INT⟩],⟨1,["id","age"],["id","age"]⟩⟩ (by simp [projectedTwice,
    Plan.projectVisits,ProjectKeys.visit,ProjectKeys.initFunction,ProjectKeys.init,
    Plan.projectionKeys])
  have hkey := (hsecond 0 ⟨0,"age",.INT⟩ rfl (by simp)).1
  simp at hkey

end GraphQueryCompiler
