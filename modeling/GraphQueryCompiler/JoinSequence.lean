import GraphQueryCompiler.ProbeLoop
import GraphQueryCompiler.SuffixRun

/-!
# Joins one after another

For given right-hand lists, `joined` are the combinations that the operators between the
joins of a pipeline let through. The emitted code runs the operators behind the last join for
a part of them only, and `NoLoss` says when this part is the whole.
-/

namespace GraphQueryCompiler
open StepMachine CodegenInlineVisitor CutLoop

variable {env : Env} {ts : List ℕ} {p S : Plan} {s : Sink} {opId jid : ℕ} {j : JoinCtx}
  {lists : ℕ → List (List QrVal)} {t : List QrVal} {σ : State} {fn : Body}
  {v v' : CodegenInlineVisitor}

namespace Plan

/-- The combinations for a tuple in lexicographic order, with `lists` as the right-hand lists
and `jid` as the id of the first join. -/
def joined (env : Env) (lists : ℕ → List (List QrVal)) :
    Plan → ℕ → ℕ → List QrVal → List (List QrVal)
  | .foreachRship dir _ _ inp, opId, jid, t =>
    (env.traversed dir opId t).flatMap fun u => inp.joined env lists (opId+1) jid u
  | .expand exp label inp, opId, jid, t =>
    (env.expanded exp label opId t).flatMap fun u => inp.joined env lists (opId+1) jid u
  | .filter (.eq (.key i key) (.num _)) inp, opId, jid, t =>
    (env.filtered i key opId t).flatMap fun u => inp.joined env lists (opId+1) jid u
  | .join .CROSS _ lhs _, opId, jid, t =>
    (lists jid).flatMap fun r => lhs.joined env lists opId (jid+1) (t ++ r)
  | .collect _, _, _, t => [t]
  | .endOp, _, _, t => [t]
  | _, _, _, _ => []

def reachesJoin (env : Env) : Plan → ℕ → List QrVal → Bool
  | .foreachRship dir _ _ inp, opId, t =>
    (env.traversed dir opId t).any fun u => inp.reachesJoin env (opId+1) u
  | .expand exp label inp, opId, t =>
    (env.expanded exp label opId t).any fun u => inp.reachesJoin env (opId+1) u
  | .filter (.eq (.key i key) (.num _)) inp, opId, t =>
    (env.filtered i key opId t).any fun u => inp.reachesJoin env (opId+1) u
  | .join .CROSS _ _ _, _, _ => true
  | _, _, _ => false

/-- At every join, the first tuple of the list that gets through to the next join loses
nothing, and no tuple behind it completes to a combination. -/
def NoLoss (env : Env) (lists : ℕ → List (List QrVal)) : Plan → ℕ → ℕ → List QrVal → Prop
  | .foreachRship dir _ _ inp, opId, jid, t =>
    ∀ u ∈ env.traversed dir opId t, inp.NoLoss env lists (opId+1) jid u
  | .expand exp label inp, opId, jid, t =>
    ∀ u ∈ env.expanded exp label opId t, inp.NoLoss env lists (opId+1) jid u
  | .filter (.eq (.key i key) (.num _)) inp, opId, jid, t =>
    ∀ u ∈ env.filtered i key opId t, inp.NoLoss env lists (opId+1) jid u
  | .join .CROSS _ lhs _, opId, jid, t =>
    FirstThen (fun r => lhs.reachesJoin env opId (t ++ r))
      (fun r => lhs.NoLoss env lists opId (jid+1) (t ++ r))
      (fun r => lhs.joined env lists opId (jid+1) (t ++ r) = []) (lists jid)
  | _, _, _, _ => True

theorem Chain.probed_snd (hc : Chain ts p) : ∀ {opId jid : ℕ} {t : List QrVal},
    (p.probed env lists opId jid t).2 = p.reachesJoin env opId t := by
  induction hc with
  | foreachRship _ _ ih | expand _ _ ih | filter _ _ ih =>
    intro opId jid t
    simp only [probed,reachesJoin,Probed.all,List.any_map,Function.comp_def,ih]
  | join => exact rfl
  | collect | endOp => exact rfl

theorem Chain.probed_of_not_reachesJoin (hc : Chain ts p) :
    ∀ {opId jid : ℕ} {t : List QrVal}, p.reachesJoin env opId t = false →
      (p.probed env lists opId jid t).1 = p.joined env lists opId jid t := by
  induction hc with
  | foreachRship _ _ ih | expand _ _ ih | filter _ _ ih =>
    intro opId jid t h
    simp only [reachesJoin,List.any_eq_false] at h
    simp only [probed,joined,Probed.all,List.flatMap_map]
    exact List.flatMap_congr fun u hu => ih (by simpa using h u hu)
  | join =>
    intro opId jid t h
    exact absurd h (by simp [reachesJoin])
  | collect | endOp =>
    intro opId jid t _
    rfl

theorem Chain.probed_sublist (hc : Chain ts p) : ∀ {opId jid : ℕ} {t : List QrVal},
    (p.probed env lists opId jid t).1.Sublist (p.joined env lists opId jid t) := by
  induction hc with
  | foreachRship _ _ ih | expand _ _ ih | filter _ _ ih =>
    intro opId jid t
    simp only [probed,joined,Probed.all,List.flatMap_map]
    exact List.Sublist.flatMap_right _ fun _ _ => ih
  | join _ _ ih =>
    intro opId jid t
    exact cutFlatMap_sublist (fun _ => ih) _
  | collect | endOp => exact List.Sublist.refl _

theorem Chain.probed_eq_joined_iff (hc : Chain ts p) : ∀ {opId jid : ℕ} {t : List QrVal},
    (p.probed env lists opId jid t).1 = p.joined env lists opId jid t ↔
      p.NoLoss env lists opId jid t := by
  induction hc with
  | foreachRship _ hc ih | expand _ hc ih | filter _ hc ih =>
    intro opId jid t
    simp only [probed,joined,NoLoss,Probed.all,List.flatMap_map]
    rw [flatMap_eq_iff_of_sublist fun _ => hc.probed_sublist]
    simp only [ih]
  | join _ hc ih =>
    intro opId jid t
    simp only [probed,joined,NoLoss]
    rw [cutFlatMap_eq_flatMap_iff (fun _ => hc.probed_sublist)
      fun r hr => hc.probed_of_not_reachesJoin (hc.probed_snd.symm.trans hr)]
    simp only [hc.probed_snd,ih]
  | collect | endOp => exact fun {_ _ _} => iff_of_true rfl trivial

def graft : Plan → Plan → Plan
  | .scan label indexed inp, S => .scan label indexed (inp.graft S)
  | .foreachRship dir hops label inp, S => .foreachRship dir hops label (inp.graft S)
  | .expand exp label inp, S => .expand exp label (inp.graft S)
  | .filter fexpr inp, S => .filter fexpr (inp.graft S)
  | .project prexpr inp, S => .project prexpr (inp.graft S)
  | .join jop pos lhs rhs, S => .join jop pos (lhs.graft S) rhs
  | .sort cmp inp, S => .sort cmp (inp.graft S)
  | .limit n inp, S => .limit n (inp.graft S)
  | .create type srcDes inp, S => .create type srcDes (inp.graft S)
  | .collect _, S => S
  | .endOp, S => S

def leafTypes : Plan → List ℕ → List ℕ
  | .foreachRship _ _ _ inp, ts => inp.leafTypes (ts ++ [1])
  | .expand _ _ inp, ts => inp.leafTypes (ts ++ [0])
  | .filter _ inp, ts => inp.leafTypes ts
  | .join _ _ lhs rhs, ts => lhs.leafTypes (ts ++ rhs.rhsType)
  | _, ts => ts

def leafId : Plan → ℕ → ℕ
  | .foreachRship _ _ _ inp, opId => inp.leafId (opId+1)
  | .expand _ _ inp, opId => inp.leafId (opId+1)
  | .filter _ inp, opId => inp.leafId (opId+1)
  | .join _ _ lhs _, opId => lhs.leafId opId
  | _, opId => opId

def leaf : Plan → Plan
  | .foreachRship _ _ _ inp => inp.leaf
  | .expand _ _ inp => inp.leaf
  | .filter _ inp => inp.leaf
  | .join _ _ lhs _ => lhs.leaf
  | p => p

theorem Chain.graft_leaf (hc : Chain ts p) : p.graft p.leaf = p := by
  induction hc with
  | foreachRship _ _ ih | expand _ _ ih | filter _ _ ih | join _ _ ih =>
    simp only [graft,leaf,ih]
  | collect | endOp => rfl

theorem Chain.leaf_chain (hc : Chain ts p) : ∀ {us : List ℕ}, Chain us p.leaf := by
  induction hc with
  | foreachRship _ _ ih | expand _ _ ih | filter _ _ ih | join _ _ ih => exact ih
  | collect => exact .collect
  | endOp => exact .endOp

theorem Chain.leaf_joinFree (hc : Chain ts p) : p.leaf.JoinFree := by
  induction hc with
  | foreachRship _ _ ih | expand _ _ ih | filter _ _ ih | join _ _ ih => exact ih
  | collect | endOp => trivial

theorem Chain.leaf_rows (hc : Chain ts p) {t : List QrVal} : p.leaf.rows env opId t = [t] := by
  induction hc with
  | foreachRship _ _ ih | expand _ _ ih | filter _ _ ih | join _ _ ih => exact ih
  | collect | endOp => rfl

theorem Chain.graft (hc : Chain ts p) (hS : Chain (p.leafTypes ts) S) : Chain ts (p.graft S) := by
  induction hc with
  | foreachRship hl _ ih => exact .foreachRship hl (ih hS)
  | expand hl _ ih => exact .expand hl (ih hS)
  | filter hi _ ih => exact .filter hi (ih hS)
  | join hr _ ih => exact .join hr (ih hS)
  | collect | endOp => exact hS

theorem Chain.graft_listsTyped (hc : Chain ts p) (hS : S.JoinFree) :
    ∀ {jid : ℕ}, p.ListsTyped lists jid → (p.graft S).ListsTyped lists jid := by
  induction hc with
  | foreachRship _ _ ih | expand _ _ ih | filter _ _ ih => exact ih
  | join _ _ ih => exact fun h => ⟨h.1,ih h.2⟩
  | collect | endOp => exact fun _ => hS.listsTyped

/-- They run once for everything the joins deliver. -/
theorem Chain.graft_probed (hc : Chain ts p) (hS : Chain (p.leafTypes ts) S) (hj : S.JoinFree) :
    ∀ {opId jid : ℕ} {t : List QrVal}, (p.graft S).probed env lists opId jid t =
      ((p.probed env lists opId jid t).1.flatMap fun u => S.rows env (p.leafId opId) u,
        (p.probed env lists opId jid t).2) := by
  induction hc with
  | foreachRship _ _ ih | expand _ _ ih | filter _ _ ih =>
    intro opId jid t
    simp only [Plan.graft,probed,Probed.all,leafId,ih hS,List.flatMap_map,List.flatMap_assoc,
      List.any_map,Function.comp_def]
  | join _ _ ih =>
    intro opId jid t
    simp only [Plan.graft,probed,leafId,ih hS,cutFlatMap_flatMap]
  | collect | endOp =>
    intro opId jid t
    simp only [Plan.graft,probed,leafId,hS.probed_joinFree hj,List.flatMap_singleton]

end Plan

/-- A tuple enters the suffix `p`, whose joins find lists of the types they read; its leaf
does not add to these lists. -/
structure AtJoins (env : Env) (v : CodegenInlineVisitor) (ts : List ℕ) (p : Plan) (opId : ℕ)
    (s : Sink) (t : List QrVal) (σ : State) : Prop where
  inPipeline : InPipeline env v (t.map (QrVal.toReg v.scan)) σ
  chain : Plan.Chain ts p
  types : ∀ type ∈ ts, type ≤ 1
  typed : Typed ts t
  lists : p.ListsTyped σ.rhsInput v.queryIdInline
  sink : p.sink v.joinCtx = some s
  own : ∀ i, v.queryIdInline ≤ i → s ≠ .list i
  gen : ∃ r, p.codegen (codegenInlineVisitor env.db) opId true v = some r

/-- The operators behind the last join, whichever these are, run for all combinations, in
lexicographic order and once for each. -/
def RunsAll (env : Env) (v : CodegenInlineVisitor) (ts : List ℕ) (p : Plan) (opId : ℕ)
    (s : Sink) (t : List QrVal) (σ : State) : Prop :=
  ∀ S : Plan, Plan.Chain (p.leafTypes ts) S → S.JoinFree → (p.graft S).sink v.joinCtx = some s →
    ∀ fn v' opId', (p.graft S).codegen (codegenInlineVisitor env.db) opId true v =
      some (v',opId') → Agrees fn v v' →
    Emits env fn v (p.graft S) σ (σ.trace ++
      ((p.joined env σ.rhsInput opId v.queryIdInline t).flatMap fun u =>
        S.rows env (p.leafId opId) u).map s.event)

theorem Sink.event_injective (s : Sink) : Function.Injective s.event := by
  intro a b h
  cases s with
  | result => exact Event.collect.inj h
  | list jid => exact (Event.materialize.inj h).2

theorem AtJoins.emits (h : AtJoins env v ts p opId s t σ)
    (hS : Plan.Chain (p.leafTypes ts) S) (hj : S.JoinFree)
    (hs : (p.graft S).sink v.joinCtx = some s) {opId' : ℕ}
    (hgen : (p.graft S).codegen (codegenInlineVisitor env.db) opId true v = some (v',opId'))
    (ha : Agrees fn v v') :
    Emits env fn v (p.graft S) σ (σ.trace ++
      ((p.probed env σ.rhsInput opId v.queryIdInline t).1.flatMap fun u =>
        S.rows env (p.leafId opId) u).map s.event) := by
  have hc := h.chain.graft hS
  have hflag : FlagOk (p.graft S) s (σ.shared v.scan) t :=
    fun d hd => absurd hd (h.typed.no_flag h.types d)
  obtain ⟨sh',hexec,hafter⟩ := hc.exec
    hs (fun i hi => ⟨rfl,h.own i hi⟩)
    (h.chain.graft_listsTyped hj h.lists) h.typed hflag
  have hemits := hexec.emits h.inPipeline hc.suffix hgen ha
  rw [hafter.trace,h.chain.graft_probed hS hj] at hemits
  exact hemits

theorem RunsAll.probed_eq (hall : RunsAll env v ts p opId s t σ)
    (h : AtJoins env v ts p opId s t σ) :
    (p.probed env σ.rhsInput opId v.queryIdInline t).1 =
      p.joined env σ.rhsInput opId v.queryIdInline t := by
  obtain ⟨⟨v',opId'⟩,hgen⟩ := h.gen
  have hgraft := h.chain.graft_leaf
  have hjf : p.leaf.JoinFree := h.chain.leaf_joinFree
  have hrows : (fun u => p.leaf.rows env (p.leafId opId) u) = fun u => [u] := by
    funext u
    exact h.chain.leaf_rows
  have hsink : (p.graft p.leaf).sink v.joinCtx = some s := by rw [hgraft,h.sink]
  rw [← hgraft] at hgen
  have hreal := h.emits h.chain.leaf_chain hjf hsink hgen (fun _ _ _ => rfl)
  have hclaim := hall _ h.chain.leaf_chain hjf hsink v'.code.body v' opId' hgen (fun _ _ _ => rfl)
  have htrace := List.append_cancel_left (hreal.unique hclaim)
  rw [hrows,List.flatMap_singleton',List.flatMap_singleton'] at htrace
  exact List.map_injective_iff.2 s.event_injective htrace

/-- Nothing is lost in the emitted code exactly if `NoLoss` holds for the lists. -/
theorem runsAll_iff (h : AtJoins env v ts p opId s t σ) :
    RunsAll env v ts p opId s t σ ↔ p.NoLoss env σ.rhsInput opId v.queryIdInline t := by
  rw [← h.chain.probed_eq_joined_iff]
  refine ⟨fun hall => hall.probed_eq h,fun heq S hS hj hs fn v' opId' hgen ha => ?_⟩
  rw [← heq]
  exact h.emits hS hj hs hgen ha

def twoJoins : Plan :=
  .join .CROSS (0,0) (.join .CROSS (0,0) (.collect false) (.scan "Person" false .endOp))
    (.scan "Person" false .endOp)

theorem atJoins_twoJoins {lists : ℕ → List (List QrVal)} (h₀ : ∀ r ∈ lists 0, Typed [0] r)
    (h₁ : ∀ r ∈ lists 1, Typed [0] r) :
    AtJoins (pairEnv fun _ => "Person") (afterScan twoJoins) [0] twoJoins 2 .result [.node 0]
      (scannedState lists) where
  inPipeline := inPipeline_afterScan _ _ _
  chain := .join ⟨rfl,rfl⟩ (.join ⟨rfl,rfl⟩ .collect)
  types := by simp
  typed := typed_node 0
  lists := ⟨h₀,h₁,trivial⟩
  sink := rfl
  own := by simp
  gen := ⟨_,rfl⟩

theorem runsAll_twoJoins : RunsAll (pairEnv fun _ => "Person") (afterScan twoJoins) [0] twoJoins
    2 .result [.node 0]
    (scannedState fun id => if id = 0 then [[.node 1]] else [[.node 0],[.node 1]]) := by
  refine (runsAll_iff (atJoins_twoJoins (typed_nodes [1]) (typed_nodes [0,1]))).2 ?_
  have hid : (afterScan twoJoins).queryIdInline = 0 := rfl
  rw [hid]
  simp [twoJoins,Plan.NoLoss,Plan.reachesJoin,FirstThen,scannedState]

/-- With two tuples in both lists, the second one of the first list is lost. -/
theorem not_runsAll_twoJoins : ¬ RunsAll (pairEnv fun _ => "Person") (afterScan twoJoins) [0]
    twoJoins 2 .result [.node 0] (scannedState fun _ => [[.node 0],[.node 1]]) := by
  intro h
  have heq := h.probed_eq (atJoins_twoJoins (typed_nodes [0,1]) (typed_nodes [0,1]))
  revert heq
  decide

end GraphQueryCompiler
