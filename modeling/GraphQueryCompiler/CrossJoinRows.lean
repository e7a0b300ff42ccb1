import GraphQueryCompiler.NestedLoopJoin

/-!
# One cross join

A pipeline whose only join is a cross join in front of its `Collect`, called with a list that
need not be empty: it appends the rows of its right-hand side, and then joins every tuple of the
left-hand side with the whole list.
-/

namespace GraphQueryCompiler
open StepMachine CodegenInlineVisitor CutLoop

namespace Plan

def CrossJoin : Plan → Prop
  | .scan _ _ inp => inp.CrossJoin
  | .foreachRship _ _ _ inp => inp.CrossJoin
  | .expand _ _ inp => inp.CrossJoin
  | .filter _ inp => inp.CrossJoin
  | .join .CROSS _ (.collect _) rhs => rhs.JoinFree
  | _ => False

def lhsRows (env : Env) : Plan → ℕ → List QrVal → List (List QrVal)
  | .scan _ _ inp, opId, _ =>
    ((env.db.range env.first env.last).filter fun n =>
      (env.db.nodeById n).nodeLabel = env.db.argLabel env.args opId).flatMap fun n =>
        inp.lhsRows env (opId+1) [.node n]
  | .foreachRship dir _ _ inp, opId, t =>
    (env.traversed dir opId t).flatMap fun u => inp.lhsRows env (opId+1) u
  | .expand exp label inp, opId, t =>
    (env.expanded exp label opId t).flatMap fun u => inp.lhsRows env (opId+1) u
  | .filter (.eq (.key i key) (.num _)) inp, opId, t =>
    (env.filtered i key opId t).flatMap fun u => inp.lhsRows env (opId+1) u
  | .join .., _, t => [t]
  | _, _, _ => []

def rhsRows (env : Env) : Plan → ℕ → List (List QrVal)
  | .scan _ _ inp, opId => inp.rhsRows env (opId+1)
  | .foreachRship _ _ _ inp, opId => inp.rhsRows env (opId+1)
  | .expand _ _ inp, opId => inp.rhsRows env (opId+1)
  | .filter _ inp, opId => inp.rhsRows env (opId+1)
  | .join _ _ lhs rhs, opId => rhs.rows env (lhs.opIdEnd opId) []
  | _, _ => []

end Plan

def joined (ls rs : List (List QrVal)) : List (List QrVal) := ls.flatMap fun l => rs.map (l ++ ·)

variable {env : Env} {ts : List ℕ} {p rhs : Plan} {lists : ℕ → List (List QrVal)} {g : Global}

namespace Plan

theorem Chain.rows_crossJoin (hc : Chain ts p) (hp : p.CrossJoin) :
    ∀ {opId : ℕ} {t : List QrVal},
      p.rows env opId t = joined (p.lhsRows env opId t) (p.rhsRows env opId) := by
  induction hc with
  | foreachRship _ _ ih | expand _ _ ih | filter _ _ ih =>
    intro opId t
    simp only [rows,lhsRows,rhsRows,joined,List.flatMap_assoc,ih hp]
  | @join ts pos lhs rhs _ _ _ =>
    intro opId t
    cases lhs with
    | collect print =>
      simp only [rows,lhsRows,rhsRows,joined,List.flatMap_singleton]
      rw [← List.map_eq_flatMap]
    | _ => exact absurd hp id
  | collect | endOp => exact absurd hp id

theorem Nested.rows_crossJoin (hn : p.Nested true) (hpath : p.AccessPath) (hp : p.CrossJoin)
    (opId : ℕ) : p.rows env opId [] = joined (p.lhsRows env opId []) (p.rhsRows env opId) := by
  cases p with
  | scan label indexed inp =>
    simp only [rows,lhsRows,rhsRows,joined,List.flatMap_assoc,hn.2.1.rows_crossJoin hp]
  | create => exact absurd hpath id
  | collect | endOp => exact absurd hpath (by simp [Shaped])
  | _ => exact absurd hpath.1 (by simp)

theorem Chain.probed_crossJoin (hc : Chain ts p) (hp : p.CrossJoin) :
    ∀ {opId jid : ℕ} {t : List QrVal},
      (p.probed env lists opId jid t).1 = joined (p.lhsRows env opId t) (lists jid) := by
  induction hc with
  | foreachRship _ _ ih | expand _ _ ih | filter _ _ ih =>
    intro opId jid t
    simp only [probed,Probed.all,lhsRows,joined,List.flatMap_map,List.flatMap_assoc,ih hp]
  | @join ts pos lhs rhs _ _ _ =>
    intro opId jid t
    cases lhs with
    | collect print =>
      simp only [probed,lhsRows,joined,List.flatMap_singleton]
      rw [cutFlatMap_of_flag_false fun _ => rfl,← List.map_eq_flatMap]
    | _ => exact absurd hp id
  | collect | endOp => exact absurd hp id

theorem Nested.planExec_rhs (hn : rhs.Nested false) (hpath : rhs.AccessPath) (hj : rhs.JoinFree)
    (k opId : ℕ) (g : Global) : ∃ starts, PlanExec env rhs k opId ⟨1,[0]⟩ g
      (g.deliver (.list 0) (rhs.rows env opId [])) starts := by
  cases rhs with
  | scan label indexed inp =>
    obtain rfl := hn.1
    have h : Ran env inp (k+1) (opId+1) ⟨1,[0]⟩ .result [] g g [] :=
      .leaf (hn.2.1.joinFree_planExec hj) hj.materialized hj.rhsLists (hn.2.1.joinFree_pipelines hj)
    have hran := hn.ran_scan (q := 0) rfl (fun _ => Nat.one_pos) h
    exact ⟨_,hran.exec⟩
  | create => exact absurd hpath id
  | collect | endOp => exact absurd hpath (by simp [Shaped])
  | _ => exact absurd hpath.1 (by simp)

theorem Chain.planExec_crossJoin (hc : Chain ts p) (hn : p.Nested true) (hp : p.CrossJoin) :
    ∀ (k opId : ℕ) (g : Global), ∃ starts, PlanExec env p k opId ⟨0,[]⟩ g
      (g.deliver (.list 0) (p.rhsRows env opId)) starts := by
  induction hc with
  | foreachRship _ _ ih | expand _ _ ih | filter _ _ ih =>
    exact fun k opId g => ih hn hp (k+1) (opId+1) g
  | @join ts pos lhs rhs hpath _ _ =>
    intro k opId g
    cases lhs with
    | collect print =>
      obtain ⟨starts,h⟩ := hn.2.2.planExec_rhs hpath hp (k+2) opId g
      exact ⟨_,_,_,_,h,⟨rfl,rfl⟩,rfl⟩
    | _ => exact absurd hp id
  | collect | endOp => exact absurd hp id

theorem Chain.listsTyped_crossJoin {lists' : ℕ → List (List QrVal)} (hc : Chain ts p)
    (hn : p.Nested true) (hp : p.CrossJoin) :
    ∀ {opId : ℕ}, lists' 0 = lists 0 ++ p.rhsRows env opId → p.ListsTyped lists 0 →
      p.ListsTyped lists' 0 := by
  induction hc with
  | foreachRship _ _ ih | expand _ _ ih | filter _ _ ih =>
    exact fun hl => ih hn hp hl
  | @join ts pos lhs rhs hpath _ _ =>
    rintro opId hl ⟨htyped,_⟩
    cases lhs with
    | collect print =>
      refine ⟨fun r hr => ?_,trivial⟩
      rw [hl] at hr
      rcases List.mem_append.1 hr with hr | hr
      · exact htyped r hr
      · exact hn.2.2.rows_typed.2 hpath r hr
    | _ => exact absurd hp id
  | collect | endOp => exact absurd hp id

theorem Nested.listsTyped_crossJoin {lists' : ℕ → List (List QrVal)} (hn : p.Nested true)
    (hpath : p.AccessPath) (hp : p.CrossJoin) {opId : ℕ}
    (h : lists' 0 = lists 0 ++ p.rhsRows env opId) (htyped : p.ListsTyped lists 0) :
    p.ListsTyped lists' 0 := by
  cases p with
  | scan label indexed inp => exact hn.2.1.listsTyped_crossJoin hn.2.2 hp h htyped
  | create => exact absurd hpath id
  | collect | endOp => exact absurd hpath (by simp [Shaped])
  | _ => exact absurd hpath.1 (by simp)

theorem Chain.scanExec_crossJoin {label : String} (hc : Chain [0] p) (hn : p.Nested true)
    (hp : p.CrossJoin) (opId pipe : ℕ) (cell : CellName → Val)
    (htyped : p.ListsTyped g.rhsInput 0) :
    ∃ cell', ScanExec env pipe (env.db.argLabel env.args opId) p (opId+1) ⟨0,[]⟩
      (env.db.range env.first env.last) ⟨cell,g.rhsInput,g.trace⟩ ⟨cell',g.rhsInput,g.trace ++
        (joined ((Plan.scan label false p).lhsRows env opId []) (g.rhsInput 0)).map .collect⟩ := by
  have hsink : p.sink ⟨0,[]⟩ = some .result := hn.leaves.sink (q := 0) (by simp)
  have hfound : ListsFound g.rhsInput .result 0 ⟨cell,g.rhsInput,g.trace⟩ :=
    fun i _ => ⟨rfl,by simp⟩
  obtain ⟨sh',hrun,hinput,htrace⟩ : ∃ sh', ScanExec env pipe (env.db.argLabel env.args opId) p
      (opId+1) ⟨0,[]⟩ (env.db.range env.first env.last) ⟨cell,g.rhsInput,g.trace⟩ sh' ∧ _ ∧ _ :=
    hc.scanExec hsink htyped hfound
  have hsh : sh' = ⟨sh'.cell,g.rhsInput,g.trace ++
      (joined ((Plan.scan label false p).lhsRows env opId []) (g.rhsInput 0)).map .collect⟩ := by
    have hrows : sh'.trace = g.trace ++
        (joined ((Plan.scan label false p).lhsRows env opId []) (g.rhsInput 0)).map .collect := by
      rw [htrace]
      simp only [Shared.deliver,Sink.event,scanned,hc.probed_crossJoin hp,lhsRows,joined,
        List.flatMap_assoc]
    have hkept : sh'.rhsInput = g.rhsInput := by simpa [Shared.deliver,Sink.added] using hinput
    rw [← hrows,← hkept]
  exact ⟨sh'.cell,hsh ▸ hrun⟩

end Plan

theorem generateStart_crossJoin (env : Env) (er : ℕ → Option Expr) (p : Plan)
    (hpath : p.AccessPath) (hn : p.Nested true) (hp : p.CrossJoin) :
    ∃ fn entry, generateStart env.db er p = some (fn,entry) ∧ ∀ σ : State, σ.Idle →
      p.ListsTyped σ.rhsInput 0 → ∃ σ', Returns (fn.step env) (.at entry σ) (.returned σ') ∧
        σ'.Idle ∧ σ'.rhsInput 0 = σ.rhsInput 0 ++ p.rhsRows env 1 ∧
        σ'.trace = σ.trace ++ (p.rhsRows env 1).map (.materialize 0) ++
          (joined (p.lhsRows env 1 []) (σ.rhsInput 0 ++ p.rhsRows env 1)).map .collect ++
            [.finish] := by
  obtain ⟨fn,entry,hgen⟩ := generateStart_isSome env hpath hn
  refine ⟨fn,entry,hgen,fun σ hσ htyped => ?_⟩
  cases p with
  | scan label indexed inp =>
    obtain ⟨rfl,hc,hninp⟩ := hn
    set g : Global := Global.deliver ⟨σ.rhsInput,σ.trace⟩ (.list 0) (inp.rhsRows env 2) with hg
    obtain ⟨starts,hexec⟩ : ∃ starts, PlanExec env inp 1 2 ⟨0,[]⟩ ⟨σ.rhsInput,σ.trace⟩ g starts :=
      hc.planExec_crossJoin hninp hp 1 2 ⟨σ.rhsInput,σ.trace⟩
    have hinput : g.rhsInput 0 = σ.rhsInput 0 ++ inp.rhsRows env 2 := by
      simp [hg,Global.deliver,Sink.added]
    have hg' : PlanExec env (.scan label false inp) 0 1 ⟨0,[]⟩ ⟨σ.rhsInput,σ.trace⟩
        ⟨g.rhsInput,g.trace ++ (joined ((Plan.scan label false inp).lhsRows env 1 [])
          (g.rhsInput 0)).map .collect⟩ (starts ++ [(0,g)]) :=
      ⟨rfl,g,starts,hexec,rfl,fun pipe cell _ => hc.scanExec_crossJoin hninp hp 1 pipe cell
        (hc.listsTyped_crossJoin hninp hp hinput htyped)⟩
    obtain ⟨σ',hret,hidle,htrace,hrhs,_⟩ := generateStart_returns hpath hgen hg' hσ
    refine ⟨σ',hret,hidle,?_,?_⟩
    · rw [hrhs]
      exact hinput
    · rw [htrace,hinput]
      simp [hg,Global.deliver,Sink.event,Plan.rhsRows]
  | create => exact absurd hpath id
  | collect | endOp => exact absurd hpath (by simp [Plan.Shaped])
  | _ => exact absurd hpath.1 (by simp)

end GraphQueryCompiler
