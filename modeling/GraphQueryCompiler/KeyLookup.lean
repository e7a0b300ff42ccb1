import GraphQueryCompiler.FilterFormula

/-!
# The properties that a filter looks through

The code for a key reads the head of the property list at field 4 of the object, which is the
property list of a node and `next_src_rship` of a relationship, and compares the first item with
the key that it finds from there on.
-/

namespace GraphQueryCompiler
open StepMachine CodegenInlineVisitor LinkedChain

variable {env : Env} {v v₁ : CodegenInlineVisitor} {fn : Body} {inp : Plan}
  {opId i n p u pcode w : ℕ} {key : String} {c : ℤ} {σ σ₀ : State} {sh : Shared} {roi : QrValue}
  {x : Val} {t : Tuple} {db : GraphDb} {found found' : Option PItem}

def GraphDb.propertyHead (db : GraphDb) : Val → ℕ
  | .node n => (db.nodeById n).propertyList
  | .rship r => (db.rshipById r).propertyList
  | _ => unknownId

def GraphDb.HasProperty (db : GraphDb) (x : Val) (pcode w : ℕ) : Prop :=
  ∃ l, IsChain (fun p => (db.propertySet p).next) unknownId IsId (db.propertyHead x) l ∧
    ∃ it ∈ l.flatMap fun p => List.ofFn (db.propertySet p).items, it.key = pcode ∧ it.value = w

structure FilterCut (fn : Body) (v v₁ : CodegenInlineVisitor) : Prop where
  own : ∀ name, name ≠ .filterConsume → name ≠ .filterFalse →
    fn (v.bb name) = v₁.code.body (v.bb name)
  filterConsume : fn (v.bb .filterConsume) = []
  filterFalse : fn (v.bb .filterFalse) = []

/-- The tuple is consumed if the object has the property with the argument as its value, and
dropped if it has not. -/
def SearchesOwn (fn : Body) (env : Env) (v : CodegenInlineVisitor) (σ : State) (opId : ℕ)
    (key : String) (x : Val) : Prop :=
  (env.db.HasProperty x (env.db.getCode key) (env.args.word opId) →
    ∃ σ₁, Returns (fn.step env) (.at (v.bb .filterEntry) σ) (.at (v.bb .filterConsume) σ₁)) ∧
  (¬ env.db.HasProperty x (env.db.getCode key) (env.args.word opId) →
    ∃ σ₁, Returns (fn.step env) (.at (v.bb .filterEntry) σ) (.at (v.bb .filterFalse) σ₁))

theorem SearchesOwn.exists_returns (h : SearchesOwn fn env v σ opId key x) :
    ∃ name σ₁, Returns (fn.step env) (.at (v.bb .filterEntry) σ) (.at (v.bb name) σ₁) ∧
      (name = .filterConsume ∧ env.db.HasProperty x (env.db.getCode key) (env.args.word opId) ∨
        name = .filterFalse ∧
          ¬ env.db.HasProperty x (env.db.getCode key) (env.args.word opId)) := by
  by_cases hhas : env.db.HasProperty x (env.db.getCode key) (env.args.word opId)
  · obtain ⟨σ₁,hret⟩ := h.1 hhas
    exact ⟨_,σ₁,hret,.inl ⟨rfl,hhas⟩⟩
  · obtain ⟨σ₁,hret⟩ := h.2 hhas
    exact ⟨_,σ₁,hret,.inr ⟨rfl,hhas⟩⟩

theorem PropertySearch.unique (h : PropertySearch db pcode u p found)
    (h' : PropertySearch db pcode u p found') : found = found' := by
  induction h with
  | ended hge =>
    cases h' with
    | ended => rfl
    | found hlt | next hlt => exact absurd hlt hge
  | found hlt hfind =>
    cases h' with
    | ended hge => exact absurd hlt hge
    | found _ hfind' => exact hfind.symm.trans hfind'
    | next _ hfind' => exact absurd (hfind.symm.trans hfind') (by simp)
  | next hlt hfind _ ih =>
    cases h' with
    | ended hge => exact absurd hlt hge
    | found _ hfind' => exact absurd (hfind.symm.trans hfind') (by simp)
    | next _ _ h' => exact ih h'

section Blocks
variable (hown : ∀ name, name ≠ .filterConsume → name ≠ .filterFalse → fn (v.bb name) =
    (v.filterEqCode env.db opId roi.regVal (env.db.getCode key)).body (v.bb name))
  (hok : Ok v) (hb : roi.Below v.visits) (hs : Sim v.scan σ sh)
  (hval : roi.regVal.eval env σ = x) (hfield : loadField env.db x 4 = .word p)
  (hu : σ.cell ⟨v.scan,.rhsAlloca⟩ = .word u)
include hown hok hb hs hval hfield hu

theorem not_returns_of_no_search
    (hno : ∀ found, ¬ PropertySearch env.db (env.db.getCode key) u p found) (d : Config) :
    ¬ Returns (fn.step env) (.at (v.bb .filterEntry) σ) d := by
  intro hret
  obtain ⟨σ₁,hr,hs₁,hp⟩ := filterEq_head hown hok hb hs hval hfield
  have hafter := Returns.after hr hret
  refine not_returns_of_endless (S := fun c => ∃ (σ₁ : State) (p : ℕ),
    c = .at (v.bb (.whileCondition 0)) σ₁ ∧
      Searching v.scan v sh (env.args.word opId) σ σ₁ ∧ σ₁.cell ⟨v.scan,.plistId⟩ = .word p ∧
      ∀ found, ¬ PropertySearch env.db (env.db.getCode key) u p found) ?_
    ⟨σ₁,p,rfl,hs₁,hp,hno⟩ hafter
  rintro _ ⟨σ₂,p,rfl,hs₂,hp,hno⟩
  have hlt : p < u := by
    by_contra hge
    exact hno none (.ended hge)
  have hfind : ((List.ofFn (env.db.propertySet p).items).find? fun it =>
      it.key = env.db.getCode key) = none :=
    Option.eq_none_iff_forall_ne_some.2 fun it hit => hno (some it) (.found hlt hit)
  obtain ⟨σ₃,hs₃,hnext,hstep,hends⟩ := searchPitem_round hown hok hs₂ hu hp hlt hfind
  exact ⟨_,_,hstep,hends.reaches,σ₃,_,rfl,hs₃,hnext rfl,
    fun found h => hno found (.next hlt hfind h)⟩

end Blocks

/-- The code decides right exactly if the search from field 4 finds what the object has. -/
theorem searchesOwn_iff_search (hcut : FilterCut fn v v₁) (hok : Ok v) (hs : Sim v.scan σ sh)
    (hvisit : (codegenInlineVisitor env.db).visit (.filter (.eq (.key i key) (.num c)) inp)
      opId v = some v₁)
    (ht : Holds env σ v.regQueryResults t) {type : ℕ} (hx : t[i]? = some (x,type))
    (hfield : loadField env.db x 4 = .word p) (hu : σ.cell ⟨v.scan,.rhsAlloca⟩ = .word u) :
    SearchesOwn fn env v σ opId key x ↔
      ∃ found, PropertySearch env.db (env.db.getCode key) u p found ∧
        (found.map PItem.value = some (env.args.word opId) ↔
          env.db.HasProperty x (env.db.getCode key) (env.args.word opId)) := by
  obtain ⟨roi,hroi,_,_,_,hcode⟩ := visitFilter_eq hvisit
  obtain ⟨_,hroi',hval,_⟩ := ht.getElem? hx
  obtain rfl := Option.some.inj (hroi.symm.trans hroi')
  have hb := hok.regs _ (List.mem_of_getElem? hroi)
  have hown : ∀ name, name ≠ .filterConsume → name ≠ .filterFalse → fn (v.bb name) =
      (v.filterEqCode env.db opId roi.regVal (env.db.getCode key)).body (v.bb name) := by
    intro name hne hne'
    rw [hcut.own name hne hne',hcode,hok.body_own]
  have hreturns : ∀ found, PropertySearch env.db (env.db.getCode key) u p found →
      ∃ σ₁, Returns (fn.step env) (.at (v.bb .filterEntry) σ)
        (.at (v.bb (if found.map PItem.value = some (env.args.word opId) then .filterConsume
          else .filterFalse)) σ₁) := by
    intro found hsearch
    obtain ⟨σ₁,hr,_⟩ := filterEq_search hown hok hb hs hval hfield hu hsearch
    refine ⟨σ₁,hr,?_⟩
    split_ifs
    · rw [Body.step,hcut.filterConsume]
      rfl
    · rw [Body.step,hcut.filterFalse]
      rfl
  constructor
  · intro h
    obtain ⟨name,σ₁,hret,hname⟩ := h.exists_returns
    by_contra hnone
    refine not_returns_of_no_search hown hok hb hs hval hfield hu (fun found hsearch => ?_) _ hret
    obtain ⟨σ₂,hret₂⟩ := hreturns found hsearch
    have hsame : name = if found.map PItem.value = some (env.args.word opId) then .filterConsume
        else .filterFalse :=
      (Label.mk.inj (Config.at.inj (Returns.unique hret hret₂)).1).2
    refine hnone ⟨found,hsearch,?_⟩
    split_ifs at hsame with hfound
    · exact iff_of_true hfound (hname.resolve_right fun hf => by simp [hsame] at hf).2
    · exact iff_of_false hfound (hname.resolve_left fun hc => by simp [hsame] at hc).2
  · rintro ⟨found,hsearch,hiff⟩
    obtain ⟨σ₁,hret⟩ := hreturns found hsearch
    constructor
    · intro hhas
      rw [if_pos (hiff.2 hhas)] at hret
      exact ⟨σ₁,hret⟩
    · intro hhas
      rw [if_neg (mt hiff.1 hhas)] at hret
      exact ⟨σ₁,hret⟩

theorem GraphDb.hasProperty_of_find (hfind : (db.findProperty n pcode).map PItem.value = some w) :
    db.HasProperty (.node n) pcode w := by
  obtain ⟨it,hit,hw⟩ := Option.map_eq_some_iff.1 hfind
  exact ⟨db.propertySets n,db.propertySets_chain n,it,List.mem_of_find?_eq_some hit,
    by simpa using List.find?_some hit,hw⟩

/-- A filter looks through the properties of a node exactly if the first item with the key decides,
as it does where the key occurs once. -/
theorem searchesOwn_node_iff {n type : ℕ} (hcut : FilterCut fn v v₁) (hok : Ok v)
    (hs : Sim v.scan σ sh)
    (hvisit : (codegenInlineVisitor env.db).visit (.filter (.eq (.key i key) (.num c)) inp)
      opId v = some v₁)
    (ht : Holds env σ v.regQueryResults t) (hx : t[i]? = some (.node n,type)) :
    SearchesOwn fn env v σ opId key (.node n) ↔
      (env.db.HasProperty (.node n) (env.db.getCode key) (env.args.word opId) →
        (env.db.findProperty n (env.db.getCode key)).map PItem.value =
          some (env.args.word opId)) := by
  obtain ⟨u,hu,hcell⟩ := hs.rhsAlloca
  rw [searchesOwn_iff_search hcut hok hs hvisit ht hx rfl hcell]
  have hsearch : PropertySearch env.db (env.db.getCode key) u (env.db.nodeById n).propertyList
      (env.db.findProperty n (env.db.getCode key)) :=
    .of_chain hu (env.db.propertySets_chain n)
  constructor
  · rintro ⟨found,hsearch',hiff⟩
    obtain rfl := hsearch.unique hsearch'
    exact hiff.2
  · exact fun h => ⟨_,hsearch,GraphDb.hasProperty_of_find,h⟩

/-- A filter looks through the properties of the object in its register, exactly if it is a node
of which the first item with the key decides, or a relationship for which the list from its
`next_src_rship` on gives the same. -/
theorem searchesOwn_iff (env : Env) (v v₁ : CodegenInlineVisitor) (inp : Plan) (opId i : ℕ)
    (key : String) (c : ℤ) (t : Tuple) (σ : State) (sh : Shared) (fn : Body) (x : Val) (type : ℕ)
    (hcut : FilterCut fn v v₁) (hok : Ok v) (hs : Sim v.scan σ sh)
    (hvisit : (codegenInlineVisitor env.db).visit (.filter (.eq (.key i key) (.num c)) inp)
      opId v = some v₁)
    (ht : Holds env σ v.regQueryResults t) (hx : t[i]? = some (x,type))
    (hobject : (∃ n, x = .node n) ∨ ∃ r, x = .rship r) :
    SearchesOwn fn env v σ opId key x ↔
      (∃ n, x = .node n ∧
        (env.db.HasProperty x (env.db.getCode key) (env.args.word opId) →
          (env.db.findProperty n (env.db.getCode key)).map PItem.value =
            some (env.args.word opId))) ∨
      ∃ r u found, x = .rship r ∧ σ.cell ⟨v.scan,.rhsAlloca⟩ = .word u ∧
        PropertySearch env.db (env.db.getCode key) u (env.db.rshipById r).nextSrcRship found ∧
        (found.map PItem.value = some (env.args.word opId) ↔
          env.db.HasProperty x (env.db.getCode key) (env.args.word opId)) := by
  obtain ⟨u,hu,hcell⟩ := hs.rhsAlloca
  rcases hobject with ⟨n,rfl⟩ | ⟨r,rfl⟩
  · rw [searchesOwn_node_iff hcut hok hs hvisit ht hx]
    constructor
    · exact fun h => .inl ⟨n,rfl,h⟩
    · rintro (⟨_,⟨⟩,h⟩ | ⟨_,_,_,⟨⟩,_⟩)
      exact h
  · rw [searchesOwn_iff_search hcut hok hs hvisit ht hx rfl hcell]
    constructor
    · rintro ⟨found,hsearch,hiff⟩
      exact .inr ⟨r,u,found,rfl,hcell,hsearch,hiff⟩
    · rintro (⟨_,⟨⟩,_⟩ | ⟨_,u',found,⟨⟩,hcell',hsearch,hiff⟩)
      obtain rfl : u = u' := Val.word.inj (hcell.symm.trans hcell')
      exact ⟨found,hsearch,hiff⟩

def cutBody (v v₁ : CodegenInlineVisitor) : Body := fun l =>
  if l = v.bb .filterConsume ∨ l = v.bb .filterFalse then [] else v₁.code.body l

theorem filterCut_cutBody (v v₁ : CodegenInlineVisitor) : FilterCut (cutBody v v₁) v v₁ where
  own name hne hne' := if_neg (by simp [bb,hne,hne'])
  filterConsume := if_pos (.inl rfl)
  filterFalse := if_pos (.inr rfl)

theorem searchesOwn_node : ∃ v₁, (codegenInlineVisitor oneKeyEnv.db).visit
    (.filter (.eq (.key 0 "id") (.num 5)) .endOp) 1 (typeVisitor [0]) = some v₁ ∧
      SearchesOwn (cutBody (typeVisitor [0]) v₁) oneKeyEnv (typeVisitor [0]) typeState 1 "id"
        (.node 0) := by
  obtain ⟨v₁,hvisit⟩ : ∃ v₁, (codegenInlineVisitor oneKeyEnv.db).visit
      (.filter (.eq (.key 0 "id") (.num 5)) .endOp) 1 (typeVisitor [0]) = some v₁ :=
    visitFilter_isSome rfl
  refine ⟨v₁,hvisit,(searchesOwn_iff oneKeyEnv (typeVisitor [0]) v₁ .endOp 1 0 "id" 5
    (typeTuple [0]) typeState _ _ (.node 0) 0 (filterCut_cutBody _ v₁) (typeVisitor_ok [0])
    typeState_sim hvisit (typeTuple_holds _ _) rfl (.inl ⟨0,rfl⟩)).2 (.inl ⟨0,rfl,fun _ => ?_⟩)⟩
  decide

/-- A relationship with the property `id`, the last in the list of its source. -/
theorem not_searchesOwn_rship : ∃ v₁, (codegenInlineVisitor oneKeyEnv.db).visit
    (.filter (.eq (.key 0 "id") (.num 5)) .endOp) 1 (typeVisitor [1]) = some v₁ ∧
      ¬ SearchesOwn (cutBody (typeVisitor [1]) v₁) oneKeyEnv (typeVisitor [1]) typeState 1 "id"
        (.rship 0) := by
  obtain ⟨v₁,hvisit⟩ : ∃ v₁, (codegenInlineVisitor oneKeyEnv.db).visit
      (.filter (.eq (.key 0 "id") (.num 5)) .endOp) 1 (typeVisitor [1]) = some v₁ :=
    visitFilter_isSome rfl
  refine ⟨v₁,hvisit,fun h => ?_⟩
  rcases (searchesOwn_iff oneKeyEnv (typeVisitor [1]) v₁ .endOp 1 0 "id" 5 (typeTuple [1])
    typeState _ _ (.rship 0) 1 (filterCut_cutBody _ v₁) (typeVisitor_ok [1]) typeState_sim hvisit
    (typeTuple_holds _ _) rfl (.inr ⟨0,rfl⟩)).1 h with ⟨_,⟨⟩,_⟩ | ⟨_,u,found,⟨⟩,hu,hsearch,hiff⟩
  obtain rfl : unknownId = u := Val.word.inj hu
  have hhas : oneKeyEnv.db.HasProperty (.rship 0) 2 5 :=
    ⟨[0],.cons (by decide) .nil,⟨5,2⟩,
      List.mem_flatMap.2 ⟨0,List.mem_singleton_self 0,List.mem_ofFn.2 ⟨0,rfl⟩⟩,rfl,rfl⟩
  obtain rfl : none = found := PropertySearch.unique (.ended (lt_irrefl unknownId)) hsearch
  exact absurd (hiff.2 hhas) (by simp)

end GraphQueryCompiler
