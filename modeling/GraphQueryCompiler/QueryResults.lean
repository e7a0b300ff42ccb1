import GraphQueryCompiler.QueryRuns

/-!
# The results of a query

Code generation of a query succeeds. The pipeline below its join runs first, and then the scan
hands its nodes to the operators, until a limit is full.
-/

namespace GraphQueryCompiler
open StepMachine CodegenInlineVisitor
open LimitedStream (arrivals stops shared)

variable {env : Env} {fn : Body} {pipe i k opId opId' : ℕ} {ts : List ℕ} {t : List QrVal}
  {σ : State} {sh : Shared} {j : JoinCtx} {p inp lhs rhs : Plan} {jop : JoinOp} {pos : ℕ × ℕ}
  {v v₁ v' : CodegenInlineVisitor} {hist : List ℕ} {es : List TupleEvent} {g : Global}

namespace Plan

/-- The rows of a query: an arrival at a limit is the last event if as many have come before it as
the limit allows. -/
def results (env : Env) (p : Plan) : List (List QrVal) :=
  LimitedStream.rows (LimitedStream.run (shared id) [] (p.events env 1 []))

def joinTrace (env : Env) (p : Plan) (opId jid : ℕ) : List Event :=
  ((p.firstRhs opId).map fun x => x.1.materialized env x.2 (jid+1) ++
    (x.1.rows env x.2 []).map (.materialize jid)).getD []

theorem Tail.leaves (h : p.Tail) : p.Leaves true := by
  induction p with
  | sort _ _ ih | limit _ _ ih => exact ih h
  | collect => rfl
  | _ => exact absurd h id

theorem Query.leaves (h : Query ts p) : p.Leaves true := by
  induction h with
  | foreachRship _ _ ih | expand _ _ ih | filter _ _ ih | limit _ ih | sort _ ih => exact ih
  | cross _ hn _ _ ih | leftOuter _ _ _ hn _ _ ih => exact ⟨ih,hn.leaves⟩
  | project _ htail => exact htail.leaves
  | collect => rfl

theorem Query.joinCtxEnd (h : Query ts p) (hj : p.JoinFree) : p.joinCtxEnd j = j :=
  (hj.joinCtxEnd h.leaves).trans (if_pos rfl)

theorem Tail.planExec (h : p.Tail) : ∀ {k opId : ℕ}, PlanExec env p k opId j g g [] := by
  induction p with
  | sort _ _ ih | limit _ _ ih => exact ih h
  | collect => exact ⟨rfl,rfl⟩
  | _ => exact absurd h id

theorem Query.planExec_joinFree (h : Query ts p) (hj : p.JoinFree) :
    ∀ {k opId : ℕ}, PlanExec env p k opId j g g [] := by
  induction h with
  | foreachRship _ _ ih | expand _ _ ih | filter _ _ ih | limit _ ih | sort _ ih => exact ih hj
  | cross | leftOuter => exact absurd hj id
  | project _ htail => exact htail.planExec
  | collect => exact ⟨rfl,rfl⟩

structure RanBelow (env : Env) (p : Plan) (k opId : ℕ) (j : JoinCtx) (g g' : Global)
    (starts : List (ℕ × Global)) : Prop where
  exec : PlanExec env p k opId j g g' starts
  trace : g'.trace = g.trace ++ p.joinTrace env opId j.queryIdInline
  list : ¬ p.JoinFree → g'.rhsInput j.queryIdInline = p.joinList env opId

theorem ranBelow_join (hrhs : rhs.AccessPath) (hn : rhs.Nested false) (hlhs : Query ts lhs)
    (hj : lhs.JoinFree) (hjids : j.jids = [])
    (hempty : ∀ i, j.queryIdInline ≤ i → g.rhsInput i = []) :
    ∃ g' starts, RanBelow env (.join jop pos lhs rhs) k opId j g g' starts := by
  have hctx : lhs.joinCtxEnd j.push = ⟨j.queryIdInline+1,[j.queryIdInline]⟩ := by
    rw [hlhs.joinCtxEnd hj,JoinCtx.push,hjids]
    rfl
  have hfresh : Fresh false j.queryIdInline (lhs.joinCtxEnd j.push) g := by
    rw [hctx]
    exact ⟨rfl,fun i hi => hempty i (Nat.le_of_succ_le hi)⟩
  obtain ⟨g',starts,hran⟩ : ∃ g' starts, Ran env rhs (k+1+lhs.numVisits) (lhs.opIdEnd opId)
      (lhs.joinCtxEnd j.push) (.list j.queryIdInline) (rhs.rows env (lhs.opIdEnd opId) []) g g'
      starts := hn.ran.2 hrhs hfresh (by simp [hctx])
  obtain ⟨hexec,htrace,hinput,_,_⟩ := hran
  simp only [hctx] at htrace hinput
  refine ⟨g',starts,⟨g',starts,[],hexec,hlhs.planExec_joinFree hj,by simp⟩,?_,fun _ => ?_⟩
  · rw [htrace]
    simp [joinTrace,firstRhs,Sink.event]
  · rw [hinput _ (Nat.lt_succ_self _),hempty _ le_rfl]
    simp [Sink.added,joinList,firstRhs]

theorem Query.ranBelow (h : Query ts p) (hjids : j.jids = [])
    (hempty : ¬ p.JoinFree → ∀ i, j.queryIdInline ≤ i → g.rhsInput i = []) :
    ∀ (k opId : ℕ), ∃ g' starts, RanBelow env p k opId j g g' starts := by
  induction h with
  | foreachRship _ _ ih | expand _ _ ih | filter _ _ ih | limit _ ih | sort _ ih =>
    intro k opId
    obtain ⟨g',starts,hexec,htrace,hlist⟩ := ih hempty (k+1) (opId+1)
    exact ⟨g',starts,hexec,htrace,hlist⟩
  | cross hrhs hn hj hlhs | leftOuter _ _ hrhs hn hj hlhs =>
    intro k opId
    exact ranBelow_join hrhs hn hlhs hj hjids (hempty id)
  | project _ htail =>
    intro k opId
    exact ⟨g,[],htail.planExec,by simp [joinTrace,firstRhs],fun hj => absurd htail.joinFree hj⟩
  | collect =>
    intro k opId
    exact ⟨g,[],⟨rfl,rfl⟩,by simp [joinTrace,firstRhs],fun hj => absurd trivial hj⟩

theorem Tail.codegen_isSome (h : p.Tail) : ∀ {opId : ℕ} {v : CodegenInlineVisitor},
    ∃ r, p.codegen (codegenInlineVisitor env.db) opId true v = some r := by
  induction p with
  | sort _ _ ih | limit _ _ ih =>
    intro opId v
    exact ih h
  | collect => exact ⟨_,rfl⟩
  | _ => exact absurd h id

theorem projectExprs_isSome {prexpr : List PrExpr} (hv : v.types = ts) :
    ∀ {i : ℕ}, Projectable ts (i+1) prexpr →
      (∀ k pe, prexpr[k]? = some pe → v.projectKeys[i+k]? = some pe.key) →
      ∃ r, v.projectExprs (i+1) prexpr = some r := by
  induction prexpr with
  | nil => exact fun _ _ => ⟨_,rfl⟩
  | cons pe pes ih =>
    intro i hp hkeys
    obtain ⟨⟨type,hty,hfit⟩,hpes⟩ := hp
    obtain ⟨x,hx⟩ := ih hpes fun k pe' hk => by
      rw [Nat.add_assoc,Nat.add_comm 1 k]
      exact hkeys (k+1) pe' hk
    rw [← hv,types,List.getElem?_map,Option.map_eq_some_iff] at hty
    obtain ⟨r,hr,_⟩ := hty
    have hkey : v.projectKeys[i]? = some pe.key := hkeys 0 pe rfl
    obtain ⟨y,hy⟩ : ∃ y, v.projectExpr (i+1) pe = some y := by
      by_cases hbool : pe.type = .BOOLEAN
      · exact ⟨_,by simp [projectExpr,hr,hbool]; rfl⟩
      · have hi := (hfit.resolve_left hbool).2.2.2
        exact ⟨_,by simp [projectExpr,hr,hbool,hkey,hi]; rfl⟩
    exact ⟨_,by simp [projectExprs,hy,hx]; rfl⟩

theorem codegen_join_isSome (hq : Query ts lhs) (hj : lhs.JoinFree) (hrhs : rhs.AccessPath)
    (hn : rhs.Nested false)
    (h₁ : (codegenInlineVisitor env.db).visit (.join jop pos lhs rhs) opId v = some v₁)
    (hlhs : ∃ r, lhs.codegen (codegenInlineVisitor env.db) opId true v₁ = some r) :
    ∃ r, (Plan.join jop pos lhs rhs).codegen (codegenInlineVisitor env.db) opId true v =
      some r := by
  obtain ⟨⟨v₂,opId₂⟩,h₂⟩ := hlhs
  have hjids : v₂.jids ≠ [] := by
    have hend := congrArg JoinCtx.jids ((joinCtx_end lhs h₂).trans (hq.joinCtxEnd hj))
    rw [visitJoin_joinCtx h₁] at hend
    change v₂.jids = v.jids ++ [v.queryIdInline] at hend
    simp [hend]
  obtain ⟨r,h₃⟩ : ∃ r, rhs.codegen (codegenInlineVisitor env.db) opId₂ true v₂ = some r :=
    hn.codegen_isSome.2 hrhs fun _ => hjids
  exact ⟨r,by simp [Plan.codegen,h₁,h₂,h₃]⟩

theorem Query.codegen_isSome (h : Query ts p) : ∀ {opId : ℕ} {v : CodegenInlineVisitor},
    v.types = ts → v.projectKeys = p.projectionKeys →
      ∃ r, p.codegen (codegenInlineVisitor env.db) opId true v = some r := by
  induction h with
  | foreachRship hl _ ih =>
    intro opId v hv hk
    obtain ⟨r,hr⟩ := last_of_types hv hl
    rw [Plan.codegen_input rfl]
    simp only [codegenInlineVisitor,visitForeachRship,hr,Option.bind_eq_bind,Option.bind_some,
      Option.pure_def]
    exact ih (by simp [types,← hv]) hk
  | expand hl _ ih =>
    intro opId v hv hk
    obtain ⟨r,hr⟩ := last_of_types hv hl
    rw [Plan.codegen_input rfl]
    simp only [codegenInlineVisitor,visitExpand,hr,Option.bind_eq_bind,Option.bind_some,
      Option.pure_def]
    exact ih (by simp [types,← hv]) hk
  | @filter ts i key c inp hi _ ih =>
    intro opId v hv hk
    have htypes := hv
    rw [← hv,types,List.getElem?_map,Option.map_eq_some_iff] at hi
    obtain ⟨roi,hroi,_⟩ := hi
    have hne : v.regQueryResults ≠ [] := List.ne_nil_of_mem (List.mem_of_getElem? hroi)
    obtain ⟨code,hgen⟩ : ∃ code, (v.fepContext env.db).generate (.eq (.key i key) (.num c))
        (v.bb .filterEntry) v.exprRegister = some code :=
      Option.isSome_iff_exists.1 (FepContext.generate_isSome _ hroi)
    rw [Plan.codegen_input rfl]
    simp only [codegenInlineVisitor,visitFilter,List.getLast?_eq_some_getLast hne,hgen,
      Option.bind_eq_bind,Option.bind_some,Option.pure_def]
    exact ih htypes hk
  | limit _ ih | sort _ ih =>
    intro opId v hv hk
    rw [Plan.codegen_input rfl]
    exact ih hv hk
  | @cross ts pos lhs rhs hrhs hn hj hlhs ih =>
    intro opId v hv hk
    obtain ⟨v₁,h₁⟩ : ∃ v₁, (codegenInlineVisitor env.db).visit (.join .CROSS pos lhs rhs) opId v =
        some v₁ := ⟨_,rfl⟩
    refine codegen_join_isSome hlhs hj hrhs hn h₁ (ih ?_ ((visit_keeps rfl h₁).2.2.trans hk))
    obtain rfl := Option.some.inj h₁
    simp [types,danglingRegs,resRegs_types rhs.rhsType_le,← hv]
  | @leftOuter ts pos lhs rhs hpos _ hrhs hn hj hlhs ih =>
    intro opId v hv hk
    have hleft := hpos
    rw [← hv,types,List.getElem?_map,Option.map_eq_some_iff] at hleft
    obtain ⟨l,hl,_⟩ := hleft
    obtain ⟨v₁,h₁⟩ : ∃ v₁, (codegenInlineVisitor env.db).visit (.join .LEFT_OUTER pos lhs rhs) opId
        v = some v₁ := ⟨_,by simp [codegenInlineVisitor,visitJoin,joinLoopCode,hl]; rfl⟩
    refine codegen_join_isSome hlhs hj hrhs hn h₁ (ih ?_ ((visit_keeps rfl h₁).2.2.trans hk))
    obtain ⟨_,_,_,_,_,hregs,_⟩ := visitJoin_eq h₁
    rw [types,hregs]
    simp [danglingRegs,resRegs_types rhs.rhsType_le,← hv,types]
  | @project ts prexpr inp hp htail =>
    intro opId v hv hk
    obtain ⟨r,hr⟩ := projectExprs_isSome (i := 0) hv hp fun k pe hpe => by
      rw [hk,Plan.projectionKeys,htail.projectionKeys,List.append_nil,Nat.zero_add,
        List.getElem?_map,hpe]
      rfl
    rw [Plan.codegen_input rfl]
    simp only [codegenInlineVisitor,visitProject,hr,Option.bind_eq_bind,Option.bind_some,
      Option.pure_def]
    exact htail.codegen_isSome
  | collect => exact fun _ _ => ⟨_,rfl⟩

end Plan

theorem queryScan_reaches {code h : ℕ} {last : List Instr} (hq : Plan.Query [0] inp)
    (hown : ∀ name, name ≠ .consumeNode →
      fn (v.bb name) = (v.scanCode opId last).body (v.bb name))
    (hv₁ : v₁ = v.visitScan false inp opId) (hkeys : v₁.projectKeys = inp.projectionKeys)
    (hconsume : ∀ σ, Reaches (fn.step env) (.at (v.bb .consumeNode) σ)
      (.at (inp.entryLabel v₁.visits) σ))
    (hl : Located fn env.db v.visits j inp (opId+1) v₁ v') :
    ∀ (ns hist : List ℕ) {σ sh}, (¬ inp.JoinFree →
        sh.rhsInput j.queryIdInline = inp.joinList env (opId+1)) →
      sh.cell .resCounter = .word hist.length → AtScan v code h ns sh σ →
      ∃ ex sh' σ', Reaches (fn.step env) (.at (scanTest v ns) σ) (.at (v.bb .scanNodesEnd) σ') ∧
        Sim v.visits σ' sh' ∧ sh.Handles id hist
          ((ns.filter fun n => (env.db.nodeById n).nodeLabel = code).flatMap fun n =>
            inp.events env (opId+1) [.node n]) ex sh' := by
  have hbackflow : v₁.exit .backflow = v.bb (.whileBodyEpilog 0) := by rw [hv₁]; rfl
  have hlimit : v₁.exit .limit = v.bb .scanNodesEnd := by rw [hv₁]; rfl
  have hvisits : v₁.visits = v.visits+1 := by rw [hv₁]; rfl
  intro ns
  induction ns with
  | nil =>
    intro hist σ sh _ hc hat
    refine ⟨_,_,σ,reaches_block (hown _ (by simp)) ?_,hat.sim,.nil hc⟩
    simp [scanCode,bb,execBlock]
  | cons n ns ih =>
    intro hist σ sh hlist hc hat
    obtain ⟨σ₁,hr₁,hat₁,hn₁⟩ := scanCheck_reaches hown hat
    by_cases hcode : (env.db.nodeById n).nodeLabel = code
    · rw [List.filter_cons_of_pos (by simpa using hcode),List.flatMap_cons]
      rw [if_pos hcode] at hr₁
      have hholds : Holds env σ₁ v₁.regQueryResults
          ([QrVal.node n].map (QrVal.toReg v.visits)) := by
        rw [hv₁]
        exact .cons ⟨hn₁,rfl⟩ .nil
      have henter : Entered env fn v.visits inp (opId+1) j v₁ v' [0] [.node n] hist σ₁ sh :=
        ⟨hl,hkeys,typed_node n,by simp [FlagOk],hlist,hc,hat₁.sim,hholds⟩
      obtain ⟨ex,sh₁,⟨σ₂,hr₂,hs₂,hf₂⟩,hh,_⟩ := hq.isHandled henter
      cases ex with
      | limit =>
        rw [hlimit] at hr₂
        exact ⟨_,_,σ₂,(hr₁.trans (hconsume σ₁)).trans hr₂,hs₂,hh.append_limit⟩
      | backflow =>
        rw [hbackflow] at hr₂
        rw [hvisits] at hf₂
        have hreg : ∀ name, σ₂.reg ⟨v.visits,name⟩ = σ₁.reg ⟨v.visits,name⟩ :=
          fun name => hf₂.reg _ (Nat.lt_succ_self _)
        have hat₂ := AtScan.mk hs₂ ((hreg _).trans hat₁.labelCode) ((hreg _).trans hat₁.it)
          (hf₂.iters ▸ hat₁.nodes)
        obtain ⟨σ₃,hr₃,hat₃⟩ := scanNext_reaches hown hat₂
        obtain ⟨ex,sh',σ₄,hr₄,hs₄,hh₄⟩ := ih _ (fun hj => by rw [hh.rhsInput,hlist hj])
          (hh.counter hh.goes_on) hat₃
        exact ⟨ex,sh',σ₄,(((hr₁.trans (hconsume σ₁)).trans hr₂).trans hr₃).trans hr₄,hs₄,
          hh.append hh₄⟩
    · rw [List.filter_cons_of_neg (by simpa using hcode)]
      rw [if_neg hcode] at hr₁
      obtain ⟨σ₂,hr₂,hat₂⟩ := scanNext_reaches hown hat₁
      obtain ⟨ex,sh',σ₃,hr₃,hs₃,hh₃⟩ := ih hist hlist hc hat₂
      exact ⟨ex,sh',σ₃,(hr₁.trans hr₂).trans hr₃,hs₃,hh₃⟩

theorem queryStart_reaches {label : String} {fn : Body} {e' : Label} (hq : Plan.Query [0] inp)
    (hcode : v.code = []) (hproject : v.projectString = []) (hentry : v.entry = none)
    (hjids : v.joinCtx = ⟨0,[]⟩)
    (h : (Plan.scan label false inp).codegen (codegenInlineVisitor env.db) opId true v =
      some (v',opId')) (ha : Agrees fn v v') (he' : v'.entry = some e') (hidle : σ.Idle)
    (hempty : ¬ inp.JoinFree → ∀ i, σ.rhsInput i = []) :
    ∃ σ', Reaches (fn.step env) (.at e' σ) (.at (v.bb .scanNodesEnd) σ') ∧ σ'.Idle ∧
      fn (v.bb .scanNodesEnd) = [.callFinish,.ret] ∧
      σ'.trace = σ.trace ++ inp.joinTrace env (opId+1) 0 ++ (LimitedStream.rows
        (LimitedStream.run (shared id) []
          ((Plan.scan label false inp).events env opId []))).map .collect := by
  have hnone : ∀ e ∈ v.code, e.1.visit < v.visits := by simp [hcode]
  have hown : ∀ name, name ≠ .consumeNode →
      fn (v.bb name) = (v.scanCode opId (scanLast v)).body (v.bb name) :=
    fun _ => scan_own hnone h ha
  have hl := Located.scan_input hnone hq.suffix h ha
  rw [Plan.codegen_input rfl,Option.bind_eq_some_iff] at h
  obtain ⟨v₁,h₁,h₂⟩ := h
  have hv₁ : v₁ = v.visitScan false inp opId := (Option.some.inj h₁).symm
  rw [← hv₁] at hl
  have hctx : v₁.joinCtx = v.joinCtx := hl.joinCtx
  have hkeys : v₁.projectKeys = inp.projectionKeys := by
    rw [hv₁]
    simp [visitScan,hproject]
  -- the pipelines below the join
  obtain ⟨g',starts,hbelow⟩ : ∃ g' starts, Plan.RanBelow env inp v₁.visits (opId+1) v₁.joinCtx
      ⟨σ.rhsInput,σ.trace⟩ g' starts :=
    hq.ranBelow (by rw [hctx,hjids]) (fun hj i _ => hempty hj i) _ _
  obtain ⟨e₁,σ₁,he₁,hr₁,hσ₁,_⟩ := (planExec_runs inp).1 hq.suffix hl.ok (e := v.bb .entry)
    (by rw [hv₁]; rfl) h₂ hl.agrees hbelow.exec ⟨hidle,rfl,rfl⟩
  obtain rfl := Option.some.inj (he'.symm.trans he₁)
  have hprev : v₁.prevBb = v.bb .consumeNode := by rw [hv₁]; rfl
  have hopen := hl.prevBb ha (by rw [hprev]; exact le_refl _)
  have hbody : v₁.code.body (v.bb .consumeNode) = [] := by
    have hc : v₁.code = v.code ++ v.scanCode opId (scanLast v) := by rw [hv₁]; rfl
    rw [hc,hcode]
    simp [scanCode,bb]
  rw [hprev,hbody,List.nil_append] at hopen
  obtain ⟨σ₂,cell,hr₂,hat,hcell⟩ := scanEntry_reaches hown hσ₁
  have hlist : ¬ inp.JoinFree →
      g'.rhsInput v.joinCtx.queryIdInline = inp.joinList env (opId+1) := by
    rw [← hctx]
    exact hbelow.list
  obtain ⟨ex,sh',σ₃,hr₃,hs₃,hh⟩ := queryScan_reaches hq hown hv₁ hkeys
    (fun σ => reaches_block hopen rfl) hl _ [] hlist hcell hat
  refine ⟨σ₃,(hr₁.trans hr₂).trans hr₃,⟨hs₃.tp,hs₃.matTuple⟩,?_,?_⟩
  · rw [hown _ (by simp),scanLast,hentry]
    simp [scanCode,bb]
  · have hbefore : g'.trace = σ.trace ++ inp.joinTrace env (opId+1) v₁.joinCtx.queryIdInline :=
      hbelow.trace
    rw [hctx,hjids] at hbefore
    rw [hs₃.trace,hh.trace,hbefore]
    rfl

theorem Plan.Query.start_isSome (hq : Plan.Query [0] inp) (env : Env) (er : ℕ → Option Expr)
    (label : String) :
    ∃ fn entry, generateStart env.db er (.scan label false inp) = some (fn,entry) := by
  obtain ⟨⟨v',opId'⟩,hgen⟩ : ∃ r, (Plan.scan label false inp).codegen
      (codegenInlineVisitor env.db) 1 true (.init er) = some r :=
    hq.codegen_isSome (v := (init er).visitScan false inp 1) rfl (by simp [visitScan,init])
  obtain ⟨entry,hentry⟩ := Option.isSome_iff_exists.1
    (codegen_entry (show (Plan.scan label false inp).AccessPath from ⟨rfl,hq.suffix⟩) hgen)
  exact ⟨v'.code.body,entry,by simp [generateStart,hgen,hentry]⟩

theorem Plan.Query.start_returns {er : ℕ → Option Expr} {label : String} {entry : Label}
    (hq : Plan.Query [0] inp)
    (hstart : generateStart env.db er (.scan label false inp) = some (fn,entry)) (hσ : σ.Idle)
    (hempty : ¬ inp.JoinFree → ∀ i, σ.rhsInput i = []) :
    ∃ σ', Returns (fn.step env) (.at entry σ) (.returned σ') ∧ σ'.Idle ∧
      σ'.trace = σ.trace ++ inp.joinTrace env 2 0 ++
        ((Plan.scan label false inp).results env).map .collect ++ [.finish] := by
  simp only [generateStart,Option.bind_eq_bind,Option.bind_eq_some_iff,Option.pure_def,
    Option.some.injEq,Prod.mk.injEq,Prod.exists] at hstart
  obtain ⟨v',opId',hgen,entry',hentry,rfl,rfl⟩ := hstart
  obtain ⟨σ',hr,hidle,hend,htrace⟩ :=
    queryStart_reaches hq rfl rfl rfl rfl hgen (fun _ _ _ => rfl) hentry hσ hempty
  refine ⟨σ'.emit .finish,⟨hr.trans (reaches_block hend rfl),rfl⟩,⟨hidle.tp,hidle.matTuple⟩,?_⟩
  rw [State.emit,htrace]
  rfl

/-- The start function of a query runs the pipelines below its join, and then collects the results
of the query, in order, each once. -/
theorem generateStart_query (env : Env) (er : ℕ → Option Expr) (label : String) (inp : Plan)
    (hq : Plan.Query [0] inp) :
    ∃ fn entry, generateStart env.db er (.scan label false inp) = some (fn,entry) ∧
      ∀ σ : State, σ.Idle → (¬ inp.JoinFree → ∀ i, σ.rhsInput i = []) →
      ∃ σ', Returns (fn.step env) (.at entry σ) (.returned σ') ∧ σ'.Idle ∧
        σ'.trace = σ.trace ++ inp.joinTrace env 2 0 ++
          ((Plan.scan label false inp).results env).map .collect ++ [.finish] := by
  obtain ⟨fn,entry,hstart⟩ := hq.start_isSome env er label
  exact ⟨fn,entry,hstart,fun σ hσ hempty => hq.start_returns hstart hσ hempty⟩

def outerPairs : Plan :=
  .join .LEFT_OUTER (0,0)
    (.limit 3 (.project [⟨0,"id",.INT⟩,⟨1,"id",.INT⟩,⟨2,"",.BOOLEAN⟩] (.sort 0 (.collect false))))
    (.scan "Person" false .endOp)

theorem generateStart_query_outerPairs : ∃ fn entry,
    generateStart pairDb (fun _ => none) (.scan "Person" false outerPairs) = some (fn,entry) ∧
    ∃ σ', Returns (fn.step (pairEnv fun _ => "Person")) (.at entry State.fresh) (.returned σ') ∧
      σ'.trace = [.materialize 0 [.node 0],.materialize 0 [.node 1],
        .collect [.property true 0 "id" .INT,.property true 0 "id" .INT,.int 1],
        .collect [.property true 0 "id" .INT,.property true 1 "id" .INT,.int 0],
        .collect [.property true 1 "id" .INT,.property true 0 "id" .INT,.int 1],.finish] := by
  have hp : Projectable [0,0,7] 1 [⟨0,"id",.INT⟩,⟨1,"id",.INT⟩,⟨2,"",.BOOLEAN⟩] :=
    ⟨⟨0,rfl,.inr (by decide)⟩,⟨0,rfl,.inr (by decide)⟩,⟨7,rfl,.inl rfl⟩,trivial⟩
  have hq : Plan.Query [0] outerPairs :=
    .leftOuter rfl rfl ⟨rfl,rfl⟩ ⟨rfl,.endOp,rfl⟩ trivial (.limit (.project hp trivial))
  obtain ⟨fn,entry,hgen,hrun⟩ :=
    generateStart_query (pairEnv fun _ => "Person") (fun _ => none) "Person" outerPairs hq
  obtain ⟨σ',hret,_,htrace⟩ := hrun State.fresh State.idle_fresh fun _ _ => rfl
  refine ⟨fn,entry,hgen,σ',hret,?_⟩
  rw [htrace]
  decide

end GraphQueryCompiler
