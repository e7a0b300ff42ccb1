import GraphQueryCompiler.ProbeLoop
import GraphQueryCompiler.JoinIds

/-!
# Plans with one join in every pipeline

Code generation succeeds for them, the pipelines run innermost first, each of them finds the
list of its join complete, and what it delivers are the rows of the nested loops.
-/

namespace GraphQueryCompiler
open StepMachine CodegenInlineVisitor CutLoop

variable {env : Env} {ts : List ℕ} {op inp p : Plan} {main : Bool}
  {q k opId jid : ℕ} {j : JoinCtx} {lists : ℕ → List (List QrVal)} {g : Global}
  {v v₁ : CodegenInlineVisitor}

theorem Plan.Nested.leaves (hn : p.Nested main) : p.Leaves main := by
  induction p generalizing main with
  | join _ _ lhs rhs ihl ihr => exact ⟨ihl hn.2.1,ihr hn.2.2⟩
  | scan _ _ _ ih => exact ih hn.2.2
  | foreachRship _ _ _ _ ih | expand _ _ _ ih | filter _ _ ih => exact ih hn
  | collect | endOp => exact hn
  | project | sort | limit | create => exact absurd hn id

namespace CodegenInlineVisitor

def types (v : CodegenInlineVisitor) : List ℕ := v.regQueryResults.map QrValue.type

theorem resRegs_types {types : List ℕ} (h : ∀ type ∈ types, type ≤ 1) :
    (v.resRegs types).map QrValue.type = types := by
  refine List.ext_getElem (by simp [resRegs]) fun i h₁ h₂ => ?_
  have hle := h _ (List.getElem_mem h₂)
  simp only [resRegs,List.getElem_map,List.getElem_mapIdx]
  split_ifs <;> omega

theorem visit_entry {db : GraphDb} (h : (codegenInlineVisitor db).visit op opId v = some v₁)
    (he : v.entry.isSome) : v₁.entry.isSome := by
  cases op with
  | scan | sort | limit | collect =>
    obtain rfl := Option.some.inj h
    first | rfl | exact he
  | foreachRship | expand | project | filter | join =>
    simp only [codegenInlineVisitor,visitForeachRship,visitExpand,visitProject,visitFilter,
      visitJoin,Option.bind_eq_bind,Option.bind_eq_some_iff,Option.pure_def,Option.some.injEq] at h
    first
    | obtain ⟨_,_,rfl⟩ := h
      exact he
    | obtain ⟨_,_,_,_,rfl⟩ := h
      exact he
  | create => simp [codegenInlineVisitor] at h
  | endOp =>
    simp only [codegenInlineVisitor,visitEnd] at h
    split at h
    · simp at h
    · obtain rfl := Option.some.inj h
      exact he

theorem codegen_entry {db : GraphDb} {opId' : ℕ} (hp : p.AccessPath)
    (h : p.codegen (codegenInlineVisitor db) opId true v = some (v₁,opId')) :
    v₁.entry.isSome := by
  cases p with
  | scan label indexed inp =>
    rw [Plan.codegen_input rfl,Option.bind_eq_some_iff] at h
    obtain ⟨v₂,h₂,h₃⟩ := h
    have he : v₂.entry.isSome := by
      obtain rfl := Option.some.inj h₂
      rfl
    exact Plan.codegen_rel (R := fun v v' => v.entry.isSome → v'.entry.isSome)
      (fun _ _ _ h₁ h₂ he => h₂ (h₁ he)) (fun _ _ _ _ => visit_entry) inp h₃ he
  | create => exact absurd hp id
  | collect | endOp => exact absurd hp (by simp [Plan.Shaped])
  | _ => exact absurd hp.1 (by simp)

theorem last_of_types (hv : v.types = ts) {type : ℕ} (h : ts.getLast? = some type) :
    ∃ r, v.regQueryResults.getLast? = some r := by
  rw [← hv,types,List.getLast?_map,Option.map_eq_some_iff] at h
  obtain ⟨r,hr,_⟩ := h
  exact ⟨r,hr⟩

end CodegenInlineVisitor

theorem Plan.Nested.codegen_isSome (hn : p.Nested main) :
    (∀ {ts : List ℕ}, Chain ts p → ∀ {opId : ℕ} {v : CodegenInlineVisitor}, v.types = ts →
      (main = false → v.jids ≠ []) →
      ∃ r, p.codegen (codegenInlineVisitor env.db) opId true v = some r) ∧
    (p.AccessPath → ∀ {opId : ℕ} {v : CodegenInlineVisitor}, (main = false → v.jids ≠ []) →
      ∃ r, p.codegen (codegenInlineVisitor env.db) opId true v = some r) := by
  induction p generalizing main with
  | scan label indexed inp ih =>
    refine ⟨nofun,fun _ opId v hj => ?_⟩
    have h : ∃ r, inp.codegen (codegenInlineVisitor env.db) (opId+1) true
        (v.visitScan indexed inp opId) = some r := (ih hn.2.2).1 hn.2.1 rfl hj
    obtain rfl := hn.1
    exact h
  | foreachRship dir hops label inp ih =>
    refine ⟨?_,fun h => absurd h.1 (by simp)⟩
    rintro _ ⟨hl,hc⟩ opId v hv hj
    obtain ⟨r,hr⟩ := last_of_types hv hl
    rw [Plan.codegen_input rfl]
    simp only [codegenInlineVisitor,visitForeachRship,hr,Option.bind_eq_bind,Option.bind_some,
      Option.pure_def]
    exact (ih hn).1 hc (by simp [types,← hv]) hj
  | expand exp label inp ih =>
    refine ⟨?_,fun h => absurd h.1 (by simp)⟩
    rintro _ (_ | ⟨hl,hc⟩) opId v hv hj
    obtain ⟨r,hr⟩ := last_of_types hv hl
    rw [Plan.codegen_input rfl]
    simp only [codegenInlineVisitor,visitExpand,hr,Option.bind_eq_bind,Option.bind_some,
      Option.pure_def]
    exact (ih hn).1 hc (by simp [types,← hv]) hj
  | filter fexpr inp ih =>
    refine ⟨?_,fun h => absurd h.1 (by simp)⟩
    rintro _ (_ | _ | @⟨_,i,key,c,_,hi,hc⟩) opId v hv hj
    have htypes := hv
    rw [← hv,types,List.getElem?_map,Option.map_eq_some_iff] at hi
    obtain ⟨roi,hroi,_⟩ := hi
    have hne : v.regQueryResults ≠ [] := List.ne_nil_of_mem (List.mem_of_getElem? hroi)
    obtain ⟨code,hgen⟩ : ∃ code, (v.fepContext env.db).generate (.eq (.key i key) (.num c))
        (v.bb .filterEntry) v.exprRegister = some code :=
      Option.isSome_iff_exists.1 (FepContext.generate_isSome _ hroi)
    rw [Plan.codegen_input rfl]
    simp only [codegenInlineVisitor,visitFilter,List.getLast?_eq_some_getLast hne,hgen,
      Option.bind_eq_bind,Option.bind_some,Option.pure_def]
    exact (ih hn).1 hc htypes hj
  | join jop pos lhs rhs ihl ihr =>
    refine ⟨?_,fun h => absurd h.1 (by simp)⟩
    rintro _ (_ | _ | _ | ⟨hr,hc⟩) opId v hv hj
    obtain ⟨v₁,h₁⟩ : ∃ v₁, (codegenInlineVisitor env.db).visit (.join .CROSS pos lhs rhs) opId v =
        some v₁ := ⟨_,rfl⟩
    have hctx := visitJoin_joinCtx h₁
    have hjids : v₁.jids = v.jids ++ [v.queryIdInline] := congrArg JoinCtx.jids hctx
    have htypes : v₁.types = v.types ++ rhs.rhsType := by
      obtain rfl := Option.some.inj h₁
      simp [types,danglingRegs,resRegs_types rhs.rhsType_le]
    rw [hv] at htypes
    obtain ⟨⟨v₂,opId₂⟩,h₂⟩ : ∃ r, lhs.codegen (codegenInlineVisitor env.db) opId true v₁ = some r :=
      (ihl hn.2.1).1 hc htypes (by simp [hjids])
    have hjids₂ : v₂.jids ≠ [] := by
      have hend := congrArg JoinCtx.jids ((joinCtx_end lhs h₂).trans
        (hn.1.joinCtxEnd hn.2.1.leaves))
      change v₂.jids = _ at hend
      rw [hend]
      cases main with
      | true => simp [joinCtx,hjids]
      | false =>
        obtain ⟨i,is,his⟩ := List.exists_cons_of_ne_nil (hj rfl)
        simp [joinCtx,hjids,his]
    obtain ⟨r,h₃⟩ : ∃ r, rhs.codegen (codegenInlineVisitor env.db) opId₂ true v₂ = some r :=
      (ihr hn.2.2).2 hr fun _ => hjids₂
    exact ⟨r,by simp [Plan.codegen,h₁,h₂,h₃]⟩
  | collect print => exact ⟨fun _ _ _ _ _ => ⟨_,rfl⟩,fun h => absurd h (by simp [Plan.Shaped])⟩
  | endOp =>
    refine ⟨fun _ opId v _ hj => ?_,fun h => absurd h (by simp [Plan.Shaped])⟩
    obtain ⟨jid,jids,hjids⟩ := List.exists_cons_of_ne_nil (hj hn)
    simp [Plan.codegen,codegenInlineVisitor,visitEnd,hjids]
  | project | sort | limit | create => exact absurd hn id

theorem Plan.Nested.rows_typed (hn : p.Nested main) :
    (∀ {ts : List ℕ}, Chain ts p → ∀ {opId : ℕ} {t : List QrVal}, Typed ts t →
      ∀ r ∈ p.rows env opId t, Typed (ts ++ p.rhsType) r) ∧
    (p.AccessPath → ∀ {opId : ℕ} {t : List QrVal}, ∀ r ∈ p.rows env opId t,
      Typed p.rhsType r) := by
  induction p generalizing main with
  | scan label indexed inp ih =>
    refine ⟨nofun,fun _ opId t r hr => ?_⟩
    simp only [rows,List.mem_flatMap] at hr
    obtain ⟨n,_,hr⟩ := hr
    exact (ih hn.2.2).1 hn.2.1 (typed_node n) r hr
  | foreachRship dir hops label inp ih =>
    refine ⟨?_,fun h => absurd h.1 (by simp)⟩
    rintro ts ⟨hl,hc⟩ opId t ht r hr
    simp only [rows,List.mem_flatMap] at hr
    obtain ⟨u,hu,hr⟩ := hr
    obtain ⟨i,rfl⟩ := Env.mem_traversed hu
    simpa [rhsType] using (ih hn).1 hc (ht.snoc (.rship i)) r hr
  | expand exp label inp ih =>
    refine ⟨?_,fun h => absurd h.1 (by simp)⟩
    rintro ts (_ | ⟨hl,hc⟩) opId t ht r hr
    simp only [rows,List.mem_flatMap] at hr
    obtain ⟨u,hu,hr⟩ := hr
    obtain ⟨n,rfl⟩ := Env.mem_expanded hu
    simpa [rhsType] using (ih hn).1 hc (ht.snoc (.node n)) r hr
  | filter fexpr inp ih =>
    refine ⟨?_,fun h => absurd h.1 (by simp)⟩
    rintro ts (_ | _ | ⟨hi,hc⟩) opId t ht r hr
    simp only [rows,List.mem_flatMap] at hr
    obtain ⟨u,hu,hr⟩ := hr
    obtain rfl := Env.mem_filtered hu
    exact (ih hn).1 hc ht r hr
  | join jop pos lhs rhs ihl ihr =>
    refine ⟨?_,fun h => absurd h.1 (by simp)⟩
    rintro ts (_ | _ | _ | ⟨hpath,hc⟩) opId t ht r hr
    simp only [rows,List.mem_flatMap] at hr
    obtain ⟨u,hu,hr⟩ := hr
    have htu := List.rel_append ht ((ihr hn.2.2).2 hpath u hu)
    simpa [rhsType] using (ihl hn.2.1).1 hc htu r hr
  | collect | endOp =>
    refine ⟨fun _ opId t ht r hr => ?_,fun h => absurd h (by simp [Plan.Shaped])⟩
    obtain rfl := List.mem_singleton.1 hr
    simpa [rhsType] using ht
  | project | sort | limit | create => exact absurd hn id

namespace Plan

def rhsLists (env : Env) : Plan → ℕ → ℕ → List (ℕ × List (List QrVal))
  | .scan _ _ inp, opId, jid => inp.rhsLists env (opId+1) jid
  | .foreachRship _ _ _ inp, opId, jid => inp.rhsLists env (opId+1) jid
  | .expand _ _ inp, opId, jid => inp.rhsLists env (opId+1) jid
  | .filter _ inp, opId, jid => inp.rhsLists env (opId+1) jid
  | .join _ _ lhs rhs, opId, jid =>
    (jid,rhs.rows env (lhs.opIdEnd opId) []) :: lhs.rhsLists env opId (jid+1)
  | _, _, _ => []

/-- The pipelines of a plan whose head is visited as number `k`, in the order they run: the
visit of the scan, and the lists the pipeline needs. -/
def pipelines (env : Env) :
    Plan → ℕ → ℕ → ℕ → List (ℕ × List (ℕ × List (List QrVal)))
  | .scan _ _ inp, k, opId, jid =>
    inp.pipelines env (k+1) (opId+1) jid ++ [(k,inp.rhsLists env (opId+1) jid)]
  | .foreachRship _ _ _ inp, k, opId, jid => inp.pipelines env (k+1) (opId+1) jid
  | .expand _ _ inp, k, opId, jid => inp.pipelines env (k+1) (opId+1) jid
  | .filter _ inp, k, opId, jid => inp.pipelines env (k+1) (opId+1) jid
  | .join _ _ lhs rhs, k, opId, jid =>
    rhs.pipelines env (k+1+lhs.numVisits) (lhs.opIdEnd opId) (jid+1) ++
      lhs.pipelines env (k+1) opId (jid+1)
  | _, _, _, _ => []

/-- What the pipelines below one append to the lists of their joins, in the order they run. -/
def materialized (env : Env) : Plan → ℕ → ℕ → List Event
  | .scan _ _ inp, opId, jid => inp.materialized env (opId+1) jid
  | .foreachRship _ _ _ inp, opId, jid => inp.materialized env (opId+1) jid
  | .expand _ _ inp, opId, jid => inp.materialized env (opId+1) jid
  | .filter _ inp, opId, jid => inp.materialized env (opId+1) jid
  | .join _ _ lhs rhs, opId, jid =>
    rhs.materialized env (lhs.opIdEnd opId) (jid+1) ++
      (rhs.rows env (lhs.opIdEnd opId) []).map (.materialize jid) ++
      lhs.materialized env opId (jid+1)
  | _, _, _ => []

theorem rhsLists_ge (p : Plan) : ∀ {opId jid : ℕ}, ∀ x ∈ p.rhsLists env opId jid, jid ≤ x.1 := by
  induction p with
  | scan _ _ _ ih | foreachRship _ _ _ _ ih | expand _ _ _ ih | filter _ _ ih => exact ih
  | join _ _ lhs rhs ihl _ =>
    intro opId jid x hx
    rcases List.mem_cons.1 hx with rfl | hx
    · exact le_refl _
    · exact Nat.le_of_succ_le (ihl x hx)
  | _ => simp [rhsLists]

theorem pipelines_ge (p : Plan) : ∀ {k opId jid : ℕ}, ∀ x ∈ p.pipelines env k opId jid,
    ∀ y ∈ x.2, jid ≤ y.1 := by
  induction p with
  | scan _ _ inp ih =>
    intro k opId jid x hx
    rcases List.mem_append.1 hx with hx | hx
    · exact ih x hx
    · obtain rfl := List.mem_singleton.1 hx
      exact inp.rhsLists_ge
  | foreachRship _ _ _ _ ih | expand _ _ _ ih | filter _ _ ih => exact ih
  | join _ _ lhs rhs ihl ihr =>
    intro k opId jid x hx y hy
    rcases List.mem_append.1 hx with hx | hx
    · exact Nat.le_of_succ_le (ihr x hx y hy)
    · exact Nat.le_of_succ_le (ihl x hx y hy)
  | _ => simp [pipelines]

/-- With the right lists and one join, nothing of the nested loops is lost. -/
theorem Nested.probed_eq {ts : List ℕ} (hn : p.Nested main) (hc : Chain ts p) :
    ∀ {opId jid : ℕ} {t : List QrVal}, (∀ x ∈ p.rhsLists env opId jid, lists x.1 = x.2) →
      (p.probed env lists opId jid t).1 = p.rows env opId t := by
  induction hc with
  | foreachRship _ _ ih | expand _ _ ih | filter _ _ ih =>
    intro opId jid t hl
    simp only [probed,rows,Probed.all,List.flatMap_map,ih hn hl]
  | @join ts pos lhs rhs hr hlhs _ =>
    intro opId jid t hl
    have hlist : lists jid = rhs.rows env (lhs.opIdEnd opId) [] := hl _ List.mem_cons_self
    simp only [probed,rows,hlhs.probed_joinFree hn.1]
    rw [cutFlatMap_of_flag_false fun _ => rfl,hlist]
  | collect | endOp =>
    intro opId jid t _
    rfl

theorem JoinFree.rhsLists (h : p.JoinFree) : ∀ {opId : ℕ}, p.rhsLists env opId jid = [] := by
  induction p with
  | join => exact absurd h id
  | scan _ _ _ ih | foreachRship _ _ _ _ ih | expand _ _ _ ih | filter _ _ ih => exact ih h
  | _ => exact rfl

theorem JoinFree.materialized (h : p.JoinFree) :
    ∀ {opId : ℕ}, p.materialized env opId jid = [] := by
  induction p with
  | join => exact absurd h id
  | scan _ _ _ ih | foreachRship _ _ _ _ ih | expand _ _ _ ih | filter _ _ ih => exact ih h
  | _ => exact rfl

theorem Chain.joinFree_pipelines (hc : Chain ts p) (h : p.JoinFree) :
    ∀ {k opId : ℕ}, p.pipelines env k opId jid = [] := by
  induction hc with
  | join => exact absurd h id
  | foreachRship _ _ ih | expand _ _ ih | filter _ _ ih => exact ih h
  | collect | endOp => exact rfl

theorem Chain.joinFree_planExec (hc : Chain ts p) (h : p.JoinFree) :
    ∀ {k opId : ℕ}, PlanExec env p k opId j g g [] := by
  induction hc with
  | join => exact absurd h id
  | foreachRship _ _ ih | expand _ _ ih | filter _ _ ih => exact ih h
  | collect | endOp => exact ⟨rfl,rfl⟩

theorem Nested.listsTyped (hn : p.Nested main) {ts : List ℕ} (hc : Chain ts p) :
    ∀ {opId jid : ℕ}, (∀ x ∈ p.rhsLists env opId jid, lists x.1 = x.2) →
      p.ListsTyped lists jid := by
  induction hc with
  | foreachRship _ _ ih | expand _ _ ih | filter _ _ ih => exact ih hn
  | join hr hlhs ih =>
    intro opId jid hl
    refine ⟨fun r hrow => ?_,ih hn.2.1 fun x hx => hl x (List.mem_cons_of_mem _ hx)⟩
    rw [hl _ List.mem_cons_self] at hrow
    exact (hn.2.2.rows_typed).2 hr r hrow
  | collect | endOp => exact fun _ => trivial

end Plan

def Global.Has (g : Global) (lists : List (ℕ × List (List QrVal))) : Prop :=
  ∀ x ∈ lists, g.rhsInput x.1 = x.2

def Global.deliver (g : Global) (s : Sink) (rows : List (List QrVal)) : Global where
  rhsInput := fun i => g.rhsInput i ++ s.added i rows
  trace := g.trace ++ rows.map s.event

theorem Sink.added_ne {s : Sink} {i : ℕ} (h : s ≠ .list i) (rows : List (List QrVal)) :
    s.added i rows = [] := by
  cases s with
  | result => rfl
  | list j =>
    refine if_neg fun hij => h ?_
    rw [hij]

/-- The pipelines of a plan, or of those below a suffix, have run with the given result. -/
structure Ran (env : Env) (p : Plan) (k opId : ℕ) (j : JoinCtx) (s : Sink)
    (rows : List (List QrVal)) (g g' : Global) (starts : List (ℕ × Global)) : Prop where
  exec : PlanExec env p k opId j g g' starts
  trace : g'.trace = g.trace ++ (p.materialized env opId j.queryIdInline ++ rows.map s.event)
  rhsInput : ∀ i < j.queryIdInline, g'.rhsInput i = g.rhsInput i ++ s.added i rows
  lists : g'.Has (p.rhsLists env opId j.queryIdInline)
  starts : ∀ x ∈ p.pipelines env k opId j.queryIdInline,
    ∃ g₁, (x.1,g₁) ∈ starts ∧ g₁.Has x.2 ∧ g'.Has x.2

structure Fresh (main : Bool) (q : ℕ) (j : JoinCtx) (g : Global) : Prop where
  jids : j.jids = if main then [] else [q]
  lists : ∀ i, j.queryIdInline ≤ i → g.rhsInput i = []

theorem Plan.Nested.ran_scan {label : String} {g₁ : Global} {starts : List (ℕ × Global)}
    (hn : (Plan.scan label false inp).Nested main)
    (hjids : j.jids = if main then [] else [q])
    (hq : main = false → q < j.queryIdInline)
    (h : Ran env inp (k+1) (opId+1) j .result [] g g₁ starts) :
    Ran env (.scan label false inp) k opId j (if main then .result else .list q)
      ((Plan.scan label false inp).rows env opId [])
      g (g₁.deliver (if main then .result else .list q)
        ((Plan.scan label false inp).rows env opId [])) (starts ++ [(k,g₁)]) := by
  obtain ⟨hexec,htrace,hinput,hlists,hstarts⟩ := h
  set s : Sink := if main then .result else .list q with hs
  set rows := (Plan.scan label false inp).rows env opId [] with hrows
  have hne : ∀ i, j.queryIdInline ≤ i → s ≠ .list i := by
    intro i hi
    cases main with
    | true => simp [hs]
    | false =>
      have := hq rfl
      simp only [hs,Bool.false_eq_true,if_false,ne_eq,Sink.list.injEq]
      omega
  have hkept : ∀ i, j.queryIdInline ≤ i → (g₁.deliver s rows).rhsInput i = g₁.rhsInput i := by
    intro i hi
    simp [Global.deliver,Sink.added_ne (hne i hi)]
  have hhas : ∀ lists, (∀ x ∈ lists, j.queryIdInline ≤ x.1) → g₁.Has lists →
      (g₁.deliver s rows).Has lists := by
    intro lists hge hl x hx
    rw [hkept _ (hge x hx),hl x hx]
  have hscanned : rows = inp.scanned env g₁.rhsInput (env.db.argLabel env.args opId) (opId+1)
      j.queryIdInline (env.db.range env.first env.last) := by
    rw [hrows,Plan.rows,Plan.scanned]
    congr 1
    funext n
    exact (hn.2.2.probed_eq hn.2.1 hlists).symm
  have hsink : inp.sink j = some s := hn.2.2.leaves.sink fun hm => by simp [hjids,hm]
  refine ⟨⟨rfl,g₁,starts,hexec,rfl,fun pipe cell _ => ?_⟩,?_,?_,hhas _ inp.rhsLists_ge hlists,?_⟩
  · have hfound : ListsFound g₁.rhsInput s j.queryIdInline ⟨cell,g₁.rhsInput,g₁.trace⟩ :=
      fun i hi => ⟨rfl,hne i hi⟩
    obtain ⟨sh',hrun,hinput',htrace'⟩ := hn.2.1.scanExec hsink (hn.2.2.listsTyped hn.2.1 hlists)
      hfound
    rw [← hscanned] at hinput' htrace'
    refine ⟨sh'.cell,?_⟩
    have heq : sh' = ⟨sh'.cell,(g₁.deliver s rows).rhsInput,(g₁.deliver s rows).trace⟩ := by
      rw [← show sh'.rhsInput = (g₁.deliver s rows).rhsInput from hinput',
        ← show sh'.trace = (g₁.deliver s rows).trace from htrace']
    exact heq ▸ hrun
  · rw [Global.deliver,htrace]
    simp [Plan.materialized]
  · intro i hi
    simp [Global.deliver,hinput i hi,Sink.added]
  · intro x hx
    rcases List.mem_append.1 hx with hx | hx
    · obtain ⟨g₂,hg₂,h₂,h₁⟩ := hstarts x hx
      exact ⟨g₂,List.mem_append_left _ hg₂,h₂,hhas _ (inp.pipelines_ge x hx) h₁⟩
    · obtain rfl := List.mem_singleton.1 hx
      exact ⟨g₁,by simp,hlists,hhas _ inp.rhsLists_ge hlists⟩

theorem Ran.leaf (hexec : PlanExec env p k opId j g g [])
    (hm : p.materialized env opId j.queryIdInline = [])
    (hr : p.rhsLists env opId j.queryIdInline = [])
    (hp : p.pipelines env k opId j.queryIdInline = []) : Ran env p k opId j .result [] g g [] :=
  ⟨hexec,by simp [hm],by simp [Sink.added],by simp [hr,Global.Has],by simp [hp]⟩

theorem Plan.Nested.ran (hn : p.Nested main) :
    (∀ {ts : List ℕ}, Chain ts p → ∀ {k opId q : ℕ} {j : JoinCtx} {g : Global},
      Fresh main q j g → ∃ g' starts, Ran env p k opId j .result [] g g' starts) ∧
    (p.AccessPath → ∀ {k opId q : ℕ} {j : JoinCtx} {g : Global}, Fresh main q j g →
      (main = false → q < j.queryIdInline) →
      ∃ g' starts, Ran env p k opId j (if main then .result else .list q) (p.rows env opId [])
        g g' starts) := by
  induction p generalizing main with
  | scan label indexed inp ih =>
    refine ⟨nofun,fun _ k opId q j g hf hq => ?_⟩
    obtain ⟨g₁,starts,h⟩ := (ih hn.2.2).1 hn.2.1 (k := k+1) hf
    obtain rfl := hn.1
    exact ⟨_,_,hn.ran_scan hf.jids hq h⟩
  | foreachRship dir hops label inp ih =>
    refine ⟨?_,fun h => absurd h.1 (by simp)⟩
    rintro ts ⟨_,hc⟩ k opId q j g hf
    obtain ⟨g',starts,h⟩ := (ih hn).1 hc (k := k+1) hf
    exact ⟨g',starts,h.exec,h.trace,h.rhsInput,h.lists,h.starts⟩
  | expand exp label inp ih =>
    refine ⟨?_,fun h => absurd h.1 (by simp)⟩
    rintro ts (_ | ⟨_,hc⟩) k opId q j g hf
    obtain ⟨g',starts,h⟩ := (ih hn).1 hc (k := k+1) hf
    exact ⟨g',starts,h.exec,h.trace,h.rhsInput,h.lists,h.starts⟩
  | filter fexpr inp ih =>
    refine ⟨?_,fun h => absurd h.1 (by simp)⟩
    rintro ts (_ | _ | ⟨_,hc⟩) k opId q j g hf
    obtain ⟨g',starts,h⟩ := (ih hn).1 hc (k := k+1) hf
    exact ⟨g',starts,h.exec,h.trace,h.rhsInput,h.lists,h.starts⟩
  | join jop pos lhs rhs ihl ihr =>
    refine ⟨?_,fun h => absurd h.1 (by simp)⟩
    rintro ts (_ | _ | _ | ⟨hr,hc⟩) k opId q j g hf
    -- the visits before the right-hand side have left the id of this join alone in `jids`
    have hctx : lhs.joinCtxEnd j.push = ⟨j.queryIdInline+1,[j.queryIdInline]⟩ := by
      rw [hn.1.joinCtxEnd hn.2.1.leaves]
      cases main <;> simp [JoinCtx.push,hf.jids]
    have hfresh : Fresh false j.queryIdInline (lhs.joinCtxEnd j.push) g := by
      rw [hctx]
      exact ⟨rfl,fun i hi => hf.lists i (Nat.le_of_succ_le hi)⟩
    obtain ⟨g',starts,hexec,htrace,hinput,_,hstarts⟩ := (ihr hn.2.2).2 hr
      (k := k+1+lhs.numVisits) hfresh (by simp [hctx])
    simp only [hctx] at htrace hinput hstarts
    refine ⟨g',starts,⟨g',starts,[],hexec,hc.joinFree_planExec hn.1,by simp⟩,?_,?_,?_,?_⟩
    · simpa [materialized,hn.1.materialized,Sink.event] using htrace
    · intro i hi
      simp [hinput i (Nat.lt_succ_of_lt hi),Sink.added,Nat.ne_of_lt hi]
    · simp [Global.Has,rhsLists,hn.1.rhsLists,hinput _ (Nat.lt_succ_self _),hf.lists,Sink.added]
    · simpa [pipelines,hc.joinFree_pipelines hn.1] using hstarts
  | collect print | endOp =>
    exact ⟨fun _ _ _ _ _ g _ => ⟨g,[],.leaf ⟨rfl,rfl⟩ rfl rfl rfl⟩,
      fun h => absurd h (by simp [Plan.Shaped])⟩
  | project | sort | limit | create => exact absurd hn id

theorem Plan.Nested.ran_joinFree (hn : p.Nested true) (hpath : p.AccessPath) (hj : p.JoinFree) :
    ∃ g' starts, Ran env p k opId ⟨jid,[]⟩ .result (p.rows env opId []) g g' starts := by
  cases p with
  | scan label indexed inp =>
    obtain rfl := hn.1
    have h : Ran env inp (k+1) (opId+1) ⟨jid,[]⟩ .result [] g g [] :=
      .leaf (hn.2.1.joinFree_planExec hj) hj.materialized hj.rhsLists (hn.2.1.joinFree_pipelines hj)
    exact ⟨_,_,hn.ran_scan (q := 0) rfl (by simp) h⟩
  | create => exact absurd hpath id
  | collect | endOp => exact absurd hpath (by simp [Shaped])
  | _ => exact absurd hpath.1 (by simp)

theorem generateStart_isSome (env : Env) {er : ℕ → Option Expr} (hpath : p.AccessPath)
    (hn : p.Nested true) :
    ∃ fn entry, generateStart env.db er p = some (fn,entry) := by
  obtain ⟨⟨v,opId⟩,hgen⟩ : ∃ r,
      p.codegen (codegenInlineVisitor env.db) 1 true (.init er) = some r :=
    hn.codegen_isSome.2 hpath (by simp)
  obtain ⟨entry,hentry⟩ := Option.isSome_iff_exists.1 (codegen_entry hpath hgen)
  exact ⟨v.code.body,entry,by simp [generateStart,hgen,hentry]⟩

def Evaluates (env : Env) (er : ℕ → Option Expr) (p : Plan) (rows : List (List QrVal)) : Prop :=
  ∃ fn entry, generateStart env.db er p = some (fn,entry) ∧ ∀ σ : State, σ.Idle →
    ∃ σ', Returns (fn.step env) (.at entry σ) (.returned σ') ∧ σ'.Idle ∧
      σ'.trace = σ.trace ++ rows.map .collect ++ [.finish]

theorem Plan.Nested.evaluates {er : ℕ → Option Expr} (hpath : p.AccessPath) (hn : p.Nested true)
    (hj : p.JoinFree) : Evaluates env er p (p.rows env 1 []) := by
  obtain ⟨fn,entry,hgen⟩ := generateStart_isSome env hpath hn
  refine ⟨fn,entry,hgen,fun σ hσ => ?_⟩
  obtain ⟨g',starts,hran⟩ := hn.ran_joinFree hpath hj (g := ⟨σ.rhsInput,σ.trace⟩)
  obtain ⟨σ',hret,hidle,htrace,_⟩ := generateStart_returns hpath hgen hran.exec hσ
  refine ⟨σ',hret,hidle,?_⟩
  rw [htrace,hran.trace,hj.materialized]
  simp [Sink.event]

/-- The start function of a plan without a join hands the rows of the nested loops to
`collect_tuple`, in order, each once. -/
theorem generateStart_joinFree (env : Env) (er : ℕ → Option Expr) (p : Plan)
    (hpath : p.AccessPath) (hn : p.Nested true) (hj : p.JoinFree) :
    ∃ fn entry, generateStart env.db er p = some (fn,entry) ∧ ∀ σ : State, σ.Idle →
      ∃ σ', Returns (fn.step env) (.at entry σ) (.returned σ') ∧ σ'.Idle ∧
        σ'.trace = σ.trace ++ (p.rows env 1 []).map .collect ++ [.finish] :=
  hn.evaluates hpath hj

theorem generateStart_joinFree_pair :
    ∃ fn entry, generateStart pairDb (fun _ => none) (.scan "Person" false
      (.foreachRship .FROM (0,0) "knows" (.expand .OUT "Person"
        (.filter (.eq (.key 2 "id") (.num 5)) (.collect false))))) = some (fn,entry) ∧
      ∀ σ : State, σ.Idle →
      ∃ σ', Returns (fn.step (pairEnv fun i => if i = 2 then "knows" else "Person"))
          (.at entry σ) (.returned σ') ∧ σ'.Idle ∧
        σ'.trace = σ.trace ++ [.collect [.node 0,.rship 0,.node 1],.finish] := by
  obtain ⟨fn,entry,hgen,h⟩ := generateStart_joinFree
    (pairEnv fun i => if i = 2 then "knows" else "Person") (fun _ => none)
    (.scan "Person" false (.foreachRship .FROM (0,0) "knows" (.expand .OUT "Person"
      (.filter (.eq (.key 2 "id") (.num 5)) (.collect false)))))
    ⟨rfl,rfl,rfl,rfl,rfl⟩
    ⟨rfl,.foreachRship rfl (.expand rfl (.filter rfl .collect)),rfl⟩ trivial
  refine ⟨fn,entry,hgen,fun σ hσ => ?_⟩
  obtain ⟨σ',hret,hidle,htrace⟩ := h σ hσ
  exact ⟨σ',hret,hidle,by rw [htrace,List.append_assoc]; rfl⟩

theorem Plan.Nested.returns (env : Env) (er : ℕ → Option Expr) (p : Plan)
    (hpath : p.AccessPath) (hn : p.Nested true) :
    ∃ fn entry, generateStart env.db er p = some (fn,entry) ∧
      ∀ σ : State, σ.Idle → (∀ i, σ.rhsInput i = []) →
      ∃ σ', Returns (fn.step env) (.at entry σ) (.returned σ') := by
  obtain ⟨fn,entry,hgen⟩ := generateStart_isSome env hpath hn
  refine ⟨fn,entry,hgen,fun σ hσ hempty => ?_⟩
  obtain ⟨g',starts,hran⟩ := (hn.ran).2 hpath (k := 0) (q := 0)
    (j := ⟨0,[]⟩) (g := ⟨σ.rhsInput,σ.trace⟩) ⟨rfl,fun i _ => hempty i⟩ (by simp)
  obtain ⟨σ',hret,_⟩ := generateStart_returns hpath hgen hran.exec hσ
  exact ⟨σ',hret⟩

/-- The start function of a plan with at most one cross join in every pipeline, called with
empty lists, collects the rows of the nested loops. Every pipeline is entered with the lists
of its joins as they are in the end. -/
theorem generateStart_nested (env : Env) (er : ℕ → Option Expr) (p : Plan)
    (hpath : p.AccessPath) (hn : p.Nested true) :
    ∃ fn entry, generateStart env.db er p = some (fn,entry) ∧
      ∀ σ : State, σ.Idle → (∀ i, σ.rhsInput i = []) →
      ∃ σ', Returns (fn.step env) (.at entry σ) (.returned σ') ∧ σ'.Idle ∧
        σ'.trace = σ.trace ++ p.materialized env 1 0 ++ (p.rows env 1 []).map .collect ++
          [.finish] ∧
        ∀ x ∈ p.pipelines env 0 1 0, (∃ σ₁, Reaches (fn.step env) (.at entry σ)
            (.at ⟨x.1,.entry⟩ σ₁) ∧ ∀ y ∈ x.2, σ₁.rhsInput y.1 = y.2) ∧
          ∀ y ∈ x.2, σ'.rhsInput y.1 = y.2 := by
  obtain ⟨fn,entry,hgen⟩ := generateStart_isSome env hpath hn
  refine ⟨fn,entry,hgen,fun σ hσ hempty => ?_⟩
  obtain ⟨g',starts,hran⟩ := (hn.ran).2 hpath (k := 0) (q := 0)
    (j := ⟨0,[]⟩) (g := ⟨σ.rhsInput,σ.trace⟩) ⟨rfl,fun i _ => hempty i⟩ (by simp)
  obtain ⟨σ',hret,hidle,htrace,hinput,hent⟩ := generateStart_returns hpath hgen hran.exec hσ
  refine ⟨σ',hret,hidle,?_,fun x hx => ?_⟩
  · rw [htrace,hran.trace]
    simp [Sink.event]
  · obtain ⟨g₁,hg₁,h₁,h'⟩ := hran.starts x hx
    obtain ⟨σ₁,hr₁,hat₁⟩ := hent _ hg₁
    exact ⟨⟨σ₁,hr₁,fun y hy => by rw [hat₁.rhsInput,h₁ y hy]⟩,fun y hy => by rw [hinput,h' y hy]⟩

theorem generateStart_nested_pair :
    ∃ fn entry, generateStart pairDb (fun _ => none) (.scan "Person" false
      (.join .CROSS (0,0) (.collect false) (.scan "Person" false .endOp))) = some (fn,entry) ∧
      ∀ σ : State, σ.Idle → (∀ i, σ.rhsInput i = []) →
      ∃ σ', Returns (fn.step (pairEnv fun _ => "Person")) (.at entry σ) (.returned σ') ∧
        σ'.trace = σ.trace ++ [.materialize 0 [.node 0],.materialize 0 [.node 1],
          .collect [.node 0,.node 0],.collect [.node 0,.node 1],.collect [.node 1,.node 0],
          .collect [.node 1,.node 1],.finish] := by
  obtain ⟨fn,entry,hgen,h⟩ := generateStart_nested (pairEnv fun _ => "Person") (fun _ => none)
    (.scan "Person" false (.join .CROSS (0,0) (.collect false) (.scan "Person" false .endOp)))
    ⟨rfl,rfl,rfl,rfl,rfl⟩
    ⟨rfl,.join ⟨rfl,rfl⟩ .collect,trivial,rfl,rfl,.endOp,rfl⟩
  refine ⟨fn,entry,hgen,fun σ hσ hempty => ?_⟩
  obtain ⟨σ',hret,_,htrace,_⟩ := h σ hσ hempty
  exact ⟨σ',hret,by rw [htrace,List.append_assoc,List.append_assoc]; rfl⟩

end GraphQueryCompiler
