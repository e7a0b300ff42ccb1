import GraphQueryCompiler.FilterSimulation

/-!
# Filter formulas

What the code of a filter formula is to decide, and for which formulas it does. A
connective takes its operands from `gen_vals_`, which no comparison writes, a comparison
with a string leaves its entry of `expr_register` to earlier filters, and the property chain
of a relationship is looked for in the field of a node.
-/

namespace GraphQueryCompiler
open StepMachine CodegenInlineVisitor LinkedChain

def GraphDb.findRshipProperty (g : GraphDb) (r key : ℕ) : Option PItem :=
  ((walk (fun p => (g.propertySet p).next) unknownId g.size
    (g.rshipById r).propertyList).flatMap fun p => List.ofFn (g.propertySet p).items).find?
      fun it => it.key = key

def propertyValue (db : GraphDb) (t : Tuple) (i : ℕ) (key : String) : Option ℕ :=
  match t[i]? with
  | some (.node n,_) => (db.findProperty n (db.getCode key)).map PItem.value
  | some (.rship r,_) => (db.findRshipProperty r (db.getCode key)).map PItem.value
  | _ => none

theorem propertyValue_node {db : GraphDb} {t : Tuple} {i n type : ℕ} {key : String}
    (h : t[i]? = some (.node n,type)) :
    propertyValue db t i key = (db.findProperty n (db.getCode key)).map PItem.value := by
  rw [propertyValue,h]

theorem propertyValue_rship {db : GraphDb} {t : Tuple} {i r type : ℕ} {key : String}
    (h : t[i]? = some (.rship r,type)) :
    propertyValue db t i key = (db.findRshipProperty r (db.getCode key)).map PItem.value := by
  rw [propertyValue,h]

def RegOk : Val × ℕ → Prop
  | (.node _,type) => type = 0
  | (.rship _,type) => type = 1
  | _ => True

namespace FilterExpr

/-- Comparisons of a property with an integer or a string, and their connections. -/
inductive Formula : FilterExpr → Prop
  | eqInt {i : ℕ} {key : String} {c : ℤ} : Formula (.eq (.key i key) (.num c))
  | eqStr {i : ℕ} {key str : String} : Formula (.eq (.key i key) (.str str))
  | and {l r : FilterExpr} : Formula l → Formula r → Formula (.and l r)
  | or {l r : FilterExpr} : Formula l → Formula r → Formula (.or l r)

def keys : FilterExpr → List (ℕ × String)
  | .key i k => [(i,k)]
  | .eq l r => l.keys ++ r.keys
  | .and l r => l.keys ++ r.keys
  | .or l r => l.keys ++ r.keys
  | _ => []

def KeysExist (e : FilterExpr) (db : GraphDb) (t : Tuple) : Prop :=
  ∀ x ∈ e.keys, (propertyValue db t x.1 x.2).isSome

instance (e : FilterExpr) (db : GraphDb) (t : Tuple) : Decidable (e.KeysExist db t) :=
  inferInstanceAs (Decidable (∀ x ∈ e.keys, (propertyValue db t x.1 x.2).isSome))

/-- The truth of a formula. The value supplied for an integer is the argument of the filter,
a string is compared by its dictionary code. -/
def truth : FilterExpr → Env → Tuple → ℕ → Bool
  | .eq (.key i k) (.num _), env, t, opId =>
    propertyValue env.db t i k = some (env.args.word opId)
  | .eq (.key i k) (.str s), env, t, _ => propertyValue env.db t i k = some (env.db.getCode s)
  | .and l r, env, t, opId => l.truth env t opId && r.truth env t opId
  | .or l r, env, t, opId => l.truth env t opId || r.truth env t opId
  | _, _, _, _ => false

end FilterExpr

/-- For registers of these types and whatever was compiled before: the filter is compiled,
and in every function with the blocks of its visit its entry leads to `filter_consume` if the
formula is true, and to `filter_false` otherwise. -/
def FilterBranches (e : FilterExpr) (types : List ℕ) : Prop :=
  ∀ (env : Env) (v : CodegenInlineVisitor) (inp : Plan) (opId : ℕ) (t : Tuple) (σ : State)
    (sh : Shared), Ok v → Sim v.scan σ sh → Holds env σ v.regQueryResults t →
    t.map Prod.snd = types → (∀ x ∈ t, RegOk x) → e.KeysExist env.db t →
    ∃ v₁, (codegenInlineVisitor env.db).visit (.filter e inp) opId v = some v₁ ∧
      ∀ fn : Body, (∀ name, name ≠ .filterConsume → fn (v.bb name) = v₁.code.body (v.bb name)) →
        ∃ σ₁, Reaches (fn.step env) (.at (v.bb .filterEntry) σ)
          (.at (v.bb (if e.truth env t opId then .filterConsume else .filterFalse)) σ₁)

section EqInt
variable {env : Env} {v v₁ : CodegenInlineVisitor} {fn : Body} {inp : Plan} {opId i n p : ℕ}
  {key : String} {c : ℤ} {σ : State} {sh : Shared} {roi : QrValue} {x : Val} {l types : List ℕ}

theorem visitFilter_isSome (hroi : v.regQueryResults[i]? = some roi) :
    ∃ v₁, (codegenInlineVisitor env.db).visit (.filter (.eq (.key i key) (.num c)) inp) opId v =
      some v₁ := by
  obtain ⟨pres,hpres⟩ := Option.isSome_iff_exists.1
    (List.getLast?_isSome.2 (List.ne_nil_of_mem (List.mem_of_getElem? hroi)))
  obtain ⟨⟨code,er⟩,hgen⟩ : ∃ r, (v.fepContext env.db).generate (.eq (.key i key) (.num c))
      (v.bb .filterEntry) v.exprRegister = some r :=
    Option.isSome_iff_exists.1 (FepContext.generate_isSome _ hroi)
  exact ⟨_,by simp only [codegenInlineVisitor,visitFilter,hpres,hgen]; rfl⟩

theorem visitFilter_reaches
    (hvisit : (codegenInlineVisitor env.db).visit (.filter (.eq (.key i key) (.num c)) inp)
      opId v = some v₁)
    (hfn : ∀ name, name ≠ .filterConsume → fn (v.bb name) = v₁.code.body (v.bb name))
    (hok : Ok v) (hs : Sim v.scan σ sh) (hroi : v.regQueryResults[i]? = some roi)
    (hval : roi.regVal.eval env σ = x) (hfield : loadField env.db x 4 = .word p)
    (hc : IsChain (fun p => (env.db.propertySet p).next) unknownId IsId p l) :
    ∃ σ₁, Reaches (fn.step env) (.at (v.bb .filterEntry) σ)
      (.at (v.bb (if ((l.flatMap fun p => List.ofFn (env.db.propertySet p).items).find?
        fun it => it.key = env.db.getCode key).map PItem.value = some (env.args.word opId)
        then .filterConsume else .filterFalse)) σ₁) := by
  obtain ⟨roi',hroi',_,_,_,hcode⟩ := visitFilter_eq hvisit
  obtain rfl := Option.some.inj (hroi.symm.trans hroi')
  have hown : ∀ name, name ≠ .filterConsume → name ≠ .filterFalse → fn (v.bb name) =
      (v.filterEqCode env.db opId roi.regVal (env.db.getCode key)).body (v.bb name) := by
    intro name hne _
    rw [hfn name hne,hcode,hok.body_own]
  obtain ⟨σ₁,hr,_⟩ := filterEq_reaches hown hok (hok.regs _ (List.mem_of_getElem? hroi)) hs hval
    hfield hc
  exact ⟨σ₁,hr⟩

theorem filterBranches_eqInt (hi : types[i]? = some 0) :
    FilterBranches (.eq (.key i key) (.num c)) types := by
  intro env v inp opId t σ sh hok hs ht htypes hregs hkeys
  obtain ⟨⟨x,_⟩,hx,rfl⟩ : ∃ x, t[i]? = some x ∧ x.2 = 0 := by
    simpa [← htypes] using hi
  have hreg := hregs _ (List.mem_of_getElem? hx)
  have hkey := hkeys (i,key) (by simp [FilterExpr.keys])
  obtain ⟨n,hn⟩ : ∃ n, t[i]? = some (.node n,0) := by
    rw [propertyValue,hx] at hkey
    cases x with
    | node n => exact ⟨n,hx⟩
    | rship r => exact absurd hreg (by simp [RegOk])
    | _ => exact absurd hkey (by simp)
  obtain ⟨roi,hroi,hval,_⟩ := ht.getElem? hn
  obtain ⟨v₁,hvisit⟩ := visitFilter_isSome (c := c)
    hroi
  refine ⟨v₁,hvisit,fun fn hfn => ?_⟩
  obtain ⟨σ₁,hr⟩ := visitFilter_reaches hvisit hfn hok hs hroi hval rfl
    (env.db.propertySets_chain n)
  refine ⟨σ₁,?_⟩
  simp only [FilterExpr.truth,propertyValue_node hn,decide_eq_true_eq]
  exact hr

end EqInt

namespace FepContext
variable {ctx : FepContext} {s s' : FepState} {rank : ℕ}

theorem visitBool_none (h : ∀ n, s.genVals n = none) {op : Expr → Expr → Expr}
    {name : ℕ → BlockName} : ctx.visitBool op name rank s = none := by
  simp [visitBool,h]

theorem finishPredicate_genVals {n : ℕ} {cond : Expr} :
    (ctx.finishPredicate rank n cond s).genVals = s.genVals := by
  unfold finishPredicate
  split_ifs <;> rfl

theorem compareOperands_genVals {rhs : StackEntry} {n : ℕ} {pitem : Expr}
    (hcmp : ctx.compareOperands rhs n pitem s = some s') (h : ∀ n, s.genVals n = none) :
    ∀ n, s'.genVals n = none := by
  unfold compareOperands at hcmp
  split at hcmp
  · simp only [Option.bind_eq_bind,Option.bind_eq_some_iff,Option.pure_def,
      Option.some.injEq] at hcmp
    obtain ⟨_,_,rfl⟩ := hcmp
    exact h
  · exact absurd hcmp (by simp)
  · obtain rfl := Option.some.inj hcmp
    exact h

theorem visit_genVals {e : FilterExpr} (hvisit : ctx.fepVisitorInline.visit rank e s = some s')
    (h : ∀ n, s.genVals n = none) : ∀ n, s'.genVals n = none := by
  cases e with
  | num => obtain rfl := Option.some.inj hvisit; exact h
  | str => obtain rfl := Option.some.inj hvisit; exact h
  | key | fct =>
    simp only [fepVisitorInline,visitKey,visitFct,Option.bind_eq_bind,Option.bind_eq_some_iff,
      Option.pure_def,Option.some.injEq] at hvisit
    obtain ⟨_,_,rfl⟩ := hvisit
    exact h
  | eq =>
    simp only [fepVisitorInline,visitEq,Option.bind_eq_bind,Option.bind_eq_some_iff,
      Option.pure_def] at hvisit
    obtain ⟨rhs,_,lhs,_,pitem,_,s₁,hcmp,hfinish⟩ := hvisit
    have h₁ := compareOperands_genVals hcmp h
    split_ifs at hfinish
    · simp only [Option.bind_eq_some_iff,Option.some.injEq] at hfinish
      obtain ⟨cond,_,rfl⟩ := hfinish
      exact finishPredicate_genVals.symm ▸ h₁
    · obtain rfl := Option.some.inj hfinish
      exact finishPredicate_genVals.symm ▸ h₁
  | and | or =>
    simp only [fepVisitorInline,visitBool_none h,reduceCtorEq] at hvisit

theorem accept_genVals {e : FilterExpr} (haccept : e.accept ctx.fepVisitorInline rank s = some s')
    (h : ∀ n, s.genVals n = none) : ∀ n, s'.genVals n = none :=
  e.accept_preserves (P := fun s => ∀ n, s.genVals n = none) (fun _ _ _ _ => visit_genVals)
    haccept h

/-- On an empty `expr_register`, the only formula that is compiled is a comparison with an
integer. -/
theorem eqInt_of_generate {e : FilterExpr} (he : e.Formula) {cur : Label}
    {r : Code × (ℕ → Option Expr)} (h : ctx.generate e cur (fun _ => none) = some r) :
    ∃ i key c, e = .eq (.key i key) (.num c) := by
  cases he with
  | eqInt => exact ⟨_,_,_,rfl⟩
  | @eqStr i key str =>
    cases hroi : ctx.qrRegs[i]? with
    | none => simp [generate,FilterExpr.accept,fepVisitorInline,visitKey,hroi] at h
    | some roi =>
      simp [generate,FilterExpr.accept,fepVisitorInline,visitKey,hroi,visitStr,visitEq,
        compareOperands,Function.update] at h
  | and | or =>
    simp only [generate,FilterExpr.accept,Option.bind_eq_bind,Option.bind_eq_some_iff] at h
    obtain ⟨s,⟨s₁,hl,s₂,hr,hvisit⟩,_⟩ := h
    have h₂ := accept_genVals hr (accept_genVals hl fun _ => rfl)
    simp only [fepVisitorInline,visitBool_none h₂,reduceCtorEq] at hvisit

end FepContext

def oneKeyDb : GraphDb :=
  { pairDb with
    getCode := fun _ => 2
    rshipById := fun r => { pairDb.rshipById r with propertyList := 0 }
    rshipById_id := pairDb.rshipById_id
    rshipList_ends := pairDb.rshipList_ends }

def oneKeyEnv : Env := { pairEnv (fun _ => "Person") with db := oneKeyDb }

def typeVal (type : ℕ) : Val := if type = 0 then .node 0 else if type = 1 then .rship 0 else .undef

def typeReg (type : ℕ) : Reg := ⟨0,if type = 0 then .node else if type = 1 then .rship else .tp⟩

def typeState : State where
  reg r := match r.name with
    | .node => .node 0
    | .rship => .rship 0
    | _ => .undef
  cell c := if c.name = .maxCnt then .word 3 else .word unknownId
  iters := []
  tp := []
  matTuple := []
  rhsInput _ := []
  fevRshipList := []
  fevListIter := 0
  trace := []

def typeVisitor (types : List ℕ) : CodegenInlineVisitor :=
  { init (fun _ => none) with
    visits := 1
    mainReturn := ⟨0,.whileEnd⟩
    regQueryResults := types.map fun type => ⟨.reg (typeReg type),type⟩ }

def typeTuple (types : List ℕ) : Tuple := types.map fun type => (typeVal type,type)

theorem typeVisitor_ok (types : List ℕ) : (typeVisitor types).Ok where
  code := nofun
  prevBb := Nat.one_pos
  scan := Nat.one_pos
  mainReturn := Nat.one_pos
  scanNodesEnd := Nat.one_pos
  regs q hq := by
    obtain ⟨type,_,rfl⟩ := List.mem_map.1 hq
    exact Nat.one_pos

theorem typeState_sim : Sim 0 typeState ⟨fun c => typeState.cell ⟨0,c⟩,fun _ => [],[]⟩ where
  cell _ _ := rfl
  maxCnt := rfl
  rhsAlloca := ⟨unknownId,.inl rfl,rfl⟩
  tp := rfl
  matTuple := rfl
  rhsInput := rfl
  trace := rfl

theorem typeState_reg (type : ℕ) : typeState.reg (typeReg type) = typeVal type := by
  unfold typeState typeReg typeVal
  split_ifs <;> rfl

theorem typeTuple_holds (env : Env) (types : List ℕ) : Holds env typeState
    (typeVisitor types).regQueryResults (typeTuple types) := by
  rw [Holds,typeVisitor,typeTuple]
  induction types with
  | nil => exact .nil
  | cons type types ih => exact .cons ⟨typeState_reg type,rfl⟩ ih

theorem typeTuple_regOk (types : List ℕ) : ∀ x ∈ typeTuple types, RegOk x := by
  intro x hx
  obtain ⟨type,_,rfl⟩ := List.mem_map.1 hx
  unfold typeVal
  split_ifs with h₀ h₁
  · exact h₀
  · exact h₁
  · trivial

section Types
variable {e : FilterExpr} {types : List ℕ} {i : ℕ} {key : String} {c : ℤ}

theorem typeTuple_getElem? :
    (typeTuple types)[i]? = types[i]?.map fun type => (typeVal type,type) :=
  List.getElem?_map

theorem oneKeyDb_keysExist (hreg : ∀ x ∈ e.keys, types[x.1]? = some 0 ∨ types[x.1]? = some 1) :
    e.KeysExist oneKeyDb (typeTuple types) := by
  have hnode : (oneKeyDb.findProperty 0 2).isSome := by decide
  have hrship : (oneKeyDb.findRshipProperty 0 2).isSome := by decide
  intro x hx
  rcases hreg x hx with h | h
  · have hget : (typeTuple types)[x.1]? = some (.node 0,0) := by rw [typeTuple_getElem?,h]; rfl
    rw [propertyValue_node hget,Option.isSome_map]
    exact hnode
  · have hget : (typeTuple types)[x.1]? = some (.rship 0,1) := by rw [typeTuple_getElem?,h]; rfl
    rw [propertyValue_rship hget,Option.isSome_map]
    exact hrship

theorem typeTuple_types : (typeTuple types).map Prod.snd = types := by
  simp [typeTuple,Function.comp_def]

theorem FilterBranches.eqInt (h : FilterBranches e types) (he : e.Formula) (env : Env)
    (hkeys : e.KeysExist env.db (typeTuple types)) : ∃ i key c, e = .eq (.key i key) (.num c) := by
  obtain ⟨v₁,hvisit,_⟩ := h env (typeVisitor types) .endOp 1 _ typeState _ (typeVisitor_ok types)
    typeState_sim (typeTuple_holds env types) typeTuple_types (typeTuple_regOk types) hkeys
  simp only [codegenInlineVisitor,visitFilter,Option.bind_eq_bind,Option.bind_eq_some_iff,
    Option.pure_def,Option.some.injEq,Prod.exists] at hvisit
  obtain ⟨_,_,code,er,hgen,_⟩ := hvisit
  exact FepContext.eqInt_of_generate he hgen

theorem not_filterBranches_rship (hi : types[i]? = some 1) :
    ¬ FilterBranches (.eq (.key i key) (.num c)) types := by
  intro h
  have hx : (typeTuple types)[i]? = some (.rship 0,1) := by
    rw [typeTuple_getElem?,hi]
    rfl
  have hsim : Sim (typeVisitor types).scan typeState _ := typeState_sim
  obtain ⟨v₁,hvisit,hbranch⟩ := h oneKeyEnv (typeVisitor types) .endOp 1 _ typeState _
    (typeVisitor_ok types) hsim (typeTuple_holds _ types) typeTuple_types
    (typeTuple_regOk types) (oneKeyDb_keysExist (by simp [FilterExpr.keys,hi]))
  obtain ⟨roi,hroi,_,_,_,hcode⟩ := visitFilter_eq hvisit
  obtain ⟨_,hroi',hval,_⟩ := (typeTuple_holds oneKeyEnv types).getElem? hx
  obtain rfl := Option.some.inj (hroi'.symm.trans hroi)
  obtain ⟨σ₁,hconsume⟩ := hbranch v₁.code.body fun _ _ => rfl
  obtain ⟨σ₂,hfalse⟩ := visitFilter_reaches hvisit (fun _ _ => rfl)
    (typeVisitor_ok types) hsim hroi hval rfl .nil
  have htruth :
      (FilterExpr.eq (.key i key) (.num c)).truth oneKeyEnv (typeTuple types) 1 = true := by
    have hvalue : (oneKeyDb.findRshipProperty 0 2).map PItem.value = some 5 := by decide
    simp only [FilterExpr.truth,propertyValue_rship hx,decide_eq_true_eq]
    exact hvalue
  rw [htruth,if_pos rfl] at hconsume
  have hcons : v₁.code.body ((typeVisitor types).bb .filterConsume) = [] := by
    rw [hcode]
    simp [typeVisitor,filterEqCode,FepContext.eqCode,FepContext.keyCode,whileLoopCondition,
      fepContext,bb,FepContext.bb,init]
  have hback : Reaches (v₁.code.body.step oneKeyEnv)
      (.at ((typeVisitor types).bb .filterEntry) typeState) (.at ⟨0,.whileEnd⟩ σ₂) := by
    refine hfalse.trans (reaches_block rfl ?_)
    rw [hcode]
    simp [typeVisitor,filterEqCode,FepContext.eqCode,FepContext.keyCode,whileLoopCondition,
      fepContext,bb,FepContext.bb,init,execBlock]
  have hend : v₁.code.body ⟨0,.whileEnd⟩ = [] := by
    rw [hcode]
    simp [typeVisitor,filterEqCode,FepContext.eqCode,FepContext.keyCode,whileLoopCondition,
      fepContext,bb,FepContext.bb,init]
  -- both blocks are open, so the machine would stop in either
  have heq := Returns.unique (⟨hconsume,by simp [Body.step,hcons,execBlock]⟩ : Returns _ _ _)
    ⟨hback,by simp [Body.step,hend,execBlock]⟩
  simp [bb] at heq

/-- The code of a formula decides it, whatever was compiled before, exactly if the formula is
one comparison with an integer, of a property of a node. -/
theorem filterBranches_iff (e : FilterExpr) (types : List ℕ) (he : e.Formula)
    (hreg : ∀ x ∈ e.keys, types[x.1]? = some 0 ∨ types[x.1]? = some 1) :
    FilterBranches e types ↔ ∃ i key c, e = .eq (.key i key) (.num c) ∧ types[i]? = some 0 := by
  constructor
  · intro h
    obtain ⟨i,key,c,rfl⟩ := h.eqInt he oneKeyEnv (oneKeyDb_keysExist hreg)
    refine ⟨i,key,c,rfl,(hreg (i,key) (by simp [FilterExpr.keys])).resolve_right fun hi => ?_⟩
    exact not_filterBranches_rship hi h
  · rintro ⟨i,key,c,rfl,hi⟩
    exact filterBranches_eqInt hi

theorem filterBranches_id : FilterBranches (.eq (.key 0 "id") (.num 5)) [0] :=
  (filterBranches_iff (.eq (.key 0 "id") (.num 5)) [0] .eqInt (by decide)).2 ⟨0,"id",5,rfl,rfl⟩

theorem not_filterBranches_and : ¬ FilterBranches (.and (.eq (.key 0 "id") (.num 5))
    (.eq (.key 1 "id") (.num 5))) [0,0] := by
  intro h
  obtain ⟨_,_,_,he⟩ := h.eqInt (.and .eqInt .eqInt) (pairEnv fun _ => "Person") (by decide)
  exact absurd he (by simp)

end Types

end GraphQueryCompiler
