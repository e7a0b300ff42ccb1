import GraphQueryCompiler.PlanSimulation

/-!
# The index scan

`index_get_node` returns what it wrote last to an uninitialised local, and the generated code takes
the pointer that it gets for the one node of the lookup.
-/

namespace GraphQueryCompiler
open CodegenInlineVisitor

/-- What `index_lookup` reports for the arguments of an index scan. -/
def Env.indexFound (env : Env) (opId : ℕ) : List ℕ :=
  env.db.indexLookup (env.args.label opId) (env.args.label (opId+1)) (env.args.word (opId+2))

inductive IndexConsumes (fn : Body) (env : Env) (v v₁ : CodegenInlineVisitor) :
    Label → State → List Val → Prop
  | done {σ : State} : IndexConsumes fn env v v₁ (v.bb .scanNodesEnd) σ []
  | consume {σ σ' : State} {xs : List Val} : IndexConsumes fn env v v₁ v₁.mainReturn σ' xs →
      IndexConsumes fn env v v₁ (v.bb .consumeNode) σ (σ.reg (v.reg .node) :: xs)
  | step {l l' : Label} {σ σ' : State} {xs : List Val} : l ≠ v.bb .scanNodesEnd →
      l ≠ v.bb .consumeNode → fn.step env (.at l σ) = some (.at l' σ') →
      IndexConsumes fn env v v₁ l' σ' xs → IndexConsumes fn env v v₁ l σ xs

/-- Whatever an uninitialised local has, the code comes to its end, and its consumer has been run
once with every node of the lookup. -/
def ConsumesFound (env : Env) (label : String) (inp : Plan) (opId : ℕ) : Prop :=
  ∀ (uninit : Val) (v v₁ : CodegenInlineVisitor) (σ : State) (fn : Body),
    (∀ e ∈ v.code, e.1.visit < v.visits) →
    (codegenInlineVisitor env.db).visit (.scan label true inp) opId v = some v₁ →
    (∀ name, name ≠ .consumeNode → fn (v.bb name) = v₁.code.body (v.bb name)) →
    (∃ xs, IndexConsumes fn { env with uninit := uninit } v v₁ (v.bb .entry) σ xs) ∧
      ∀ xs, IndexConsumes fn { env with uninit := uninit } v v₁ (v.bb .entry) σ xs →
        xs.Perm ((env.indexFound opId).map .node)

section Scan
variable {env : Env} {label : String} {inp : Plan} {opId n : ℕ} {v v₁ : CodegenInlineVisitor}
  {σ : State} {fn : Body} {uninit : Val} {xs : List Val}

def Env.indexNode (env : Env) (opId : ℕ) : Val :=
  match (env.indexFound opId).getLast? with
  | some n => .node n
  | none => env.uninit

theorem exec_indexGetNode (r : Reg) : (Instr.indexGetNode r opId).exec env σ =
    some (σ.setReg r (env.indexNode opId)) := rfl

theorem execBlock_initFunction (k : ℕ) (is : List Instr) :
    execBlock env (initFunction k ++ is) σ = execBlock env is (((σ.setCell ⟨k,.resCounter⟩
      (.word 0)).setCell ⟨k,.rhsAlloca⟩ (.word unknownId)).setCell ⟨k,.maxCnt⟩ (.word 3)) := rfl

theorem indexEntry (hcode : ∀ e ∈ v.code, e.1.visit < v.visits)
    (h : (codegenInlineVisitor env.db).visit (.scan label true inp) opId v = some v₁)
    (hfn : ∀ name, name ≠ .consumeNode → fn (v.bb name) = v₁.code.body (v.bb name)) :
    v₁.mainReturn = v.bb .scanNodesEnd ∧
    fn (v.bb .entry) = initFunction v.visits ++ [.indexGetNode (v.reg .node) opId,
      .condBr (.isNull (.reg (v.reg .node))) (v.bb .scanNodesEnd) (v.bb .consumeNode)] := by
  simp only [codegenInlineVisitor,visitScan,if_true,Option.some.injEq] at h
  subst h
  have hnil : v.code.body (v.bb .entry) = [] := by
    rw [Code.body,List.flatMap_eq_nil_iff]
    intro e he
    refine if_neg fun heq => ?_
    have hlt := hcode e he
    rw [heq] at hlt
    exact Nat.lt_irrefl _ hlt
  refine ⟨rfl,?_⟩
  rw [hfn .entry (by simp)]
  refine (Code.body_append _ _ _).trans ?_
  rw [hnil]
  simp [indexScanCode,bb]

theorem indexConsumes_iff (hmain : v₁.mainReturn = v.bb .scanNodesEnd)
    (hentry : fn (v.bb .entry) = initFunction v.visits ++ [.indexGetNode (v.reg .node) opId,
      .condBr (.isNull (.reg (v.reg .node))) (v.bb .scanNodesEnd) (v.bb .consumeNode)])
    (hn : env.indexNode opId = .node n) :
    IndexConsumes fn env v v₁ (v.bb .entry) σ xs ↔ xs = [.node n] := by
  let σ₀ := ((σ.setCell ⟨v.visits,.resCounter⟩ (.word 0)).setCell ⟨v.visits,.rhsAlloca⟩
    (.word unknownId)).setCell ⟨v.visits,.maxCnt⟩ (.word 3)
  let σ₁ := σ₀.setReg (v.reg .node) (.node n)
  have hreg : σ₁.reg (v.reg .node) = .node n := by simp [σ₁]
  have hstep : fn.step env (.at (v.bb .entry) σ) = some (.at (v.bb .consumeNode) σ₁) := by
    rw [Body.step,hentry,execBlock_initFunction]
    simp only [execBlock,exec_indexGetNode,Option.bind_some,Expr.eval,State.setReg_reg,if_true,
      hn,Val.isNull,σ₁,σ₀]
  have hend : ∀ {σ : State} {xs : List Val},
      IndexConsumes fn env v v₁ (v.bb .scanNodesEnd) σ xs → xs = [] := by
    intro σ xs h
    generalize hl : v.bb .scanNodesEnd = l at h
    cases h with
    | done => rfl
    | consume => simp [bb] at hl
    | step hne => exact absurd hl.symm hne
  have hconsume : ∀ {σ : State} {xs : List Val},
      IndexConsumes fn env v v₁ (v.bb .consumeNode) σ xs → xs = [σ.reg (v.reg .node)] := by
    intro σ xs h
    generalize hl : v.bb .consumeNode = l at h
    cases h with
    | done => simp [bb] at hl
    | consume hrest =>
      rw [hmain] at hrest
      rw [hend hrest]
    | step _ hne => exact absurd hl.symm hne
  constructor
  · intro h
    generalize hl : v.bb .entry = l at h
    cases h with
    | done | consume => simp [bb] at hl
    | step _ _ hs hrest =>
      subst hl
      obtain ⟨rfl,rfl⟩ := Config.at.inj (Option.some.inj (hstep.symm.trans hs))
      rw [hconsume hrest,hreg]
  · rintro rfl
    refine .step (by simp [bb]) (by simp [bb]) hstep ?_
    have hrest : IndexConsumes fn env v v₁ v₁.mainReturn σ₁ [] := by
      rw [hmain]
      exact .done
    rw [← hreg]
    exact .consume hrest

end Scan

/-- The consumer of an index scan is run once with every node of the lookup only if that is one
node. -/
theorem consumesFound_iff (env : Env) (label : String) (inp : Plan) (opId : ℕ) :
    ConsumesFound env label inp opId ↔ (env.indexFound opId).length = 1 := by
  constructor
  · intro h
    let v := init fun _ => none
    obtain ⟨v₁,hv₁⟩ : ∃ v₁, (codegenInlineVisitor env.db).visit (.scan label true inp) opId v =
      some v₁ := ⟨_,rfl⟩
    have hv : ∀ e ∈ v.code, e.1.visit < v.visits := List.forall_mem_nil _
    have hfn : ∀ name, name ≠ .consumeNode → v₁.code.body (v.bb name) =
      v₁.code.body (v.bb name) := fun _ _ => rfl
    obtain ⟨hmain,hentry⟩ := indexEntry hv hv₁ hfn
    -- garbage in the local, in case the lookup reports no node
    let env' : Env := { env with uninit := .node 0 }
    obtain ⟨n,hn⟩ : ∃ n, env'.indexNode opId = .node n := by
      unfold Env.indexNode
      split
      · exact ⟨_,rfl⟩
      · exact ⟨0,rfl⟩
    have hperm := (h (.node 0) v v₁ State.fresh v₁.code.body hv hv₁ hfn).2 [.node n]
      ((indexConsumes_iff hmain hentry hn).2 rfl)
    simpa using hperm.length_eq.symm
  · intro hlen uninit v v₁ σ fn hv hv₁ hfn
    obtain ⟨n,hfound⟩ := List.length_eq_one_iff.1 hlen
    obtain ⟨hmain,hentry⟩ := indexEntry hv hv₁ hfn
    let env' : Env := { env with uninit := uninit }
    have hn : env'.indexNode opId = .node n := by
      have hfound' : env'.indexFound opId = [n] := hfound
      rw [Env.indexNode,hfound']
      rfl
    have hiff : ∀ xs, IndexConsumes fn env' v v₁ (v.bb .entry) σ xs ↔ xs = [.node n] :=
      fun xs => indexConsumes_iff hmain hentry hn
    refine ⟨⟨_,(hiff _).2 rfl⟩,fun xs hxs => ?_⟩
    rw [(hiff xs).1 hxs,hfound]
    rfl

def indexEnv : Env :=
  { pairEnv fun _ => "Person" with db := { pairDb with indexLookup := fun _ _ value => [value] } }

theorem consumesFound_one : ConsumesFound indexEnv "Person" (.collect false) 1 :=
  (consumesFound_iff indexEnv "Person" (.collect false) 1).2 rfl

/-- The index of `pairDb` is empty, but for the start function of an index scan that finds node 0 in
the local the run of the consumer with it is one. -/
theorem not_consumesFound_none : ¬ ConsumesFound (pairEnv fun _ => "Person") "Person"
    (.collect false) 1 := by
  intro h
  have hperm := (h (.node 0) (init fun _ => none) _ State.fresh _ (List.forall_mem_nil _) rfl
    fun _ _ => rfl).2 [.node 0] ((indexConsumes_iff rfl rfl rfl).2 rfl)
  exact absurd hperm.length_eq (by decide)

end GraphQueryCompiler
