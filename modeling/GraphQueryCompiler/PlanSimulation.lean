import GraphQueryCompiler.ExecSimulation

/-!
# The start function runs all pipelines of a plan

Code generation visits the main pipeline first, the start function runs it last: every
further scan is entered before the blocks that were there, and its end continues with them.
-/

namespace GraphQueryCompiler
open StepMachine CodegenInlineVisitor

variable {env : Env} {fn : Body} {σ : State} {sh sh' : Shared} {j : JoinCtx} {inp p : Plan}
  {label : String} {opId opId' : ℕ} {v v' : CodegenInlineVisitor} {g g' : Global}

structure State.Idle (σ : State) : Prop where
  tp : σ.tp = []
  matTuple : σ.matTuple = []

def State.fresh : State := ⟨fun _ => .undef,fun _ => .undef,[],[],[],fun _ => [],[],0,[]⟩

theorem State.idle_fresh : State.fresh.Idle := ⟨rfl,rfl⟩

structure AtGlobal (σ : State) (g : Global) : Prop extends σ.Idle where
  rhsInput : σ.rhsInput = g.rhsInput
  trace : σ.trace = g.trace

/-- In the loop of a scan, with the nodes `ns` left. -/
structure AtScan (v : CodegenInlineVisitor) (code h : ℕ) (ns : List ℕ) (sh : Shared)
    (σ : State) : Prop where
  sim : Sim v.visits σ sh
  labelCode : σ.reg ⟨v.visits,.labelCode⟩ = .word code
  it : σ.reg ⟨v.visits,.nodeBeginIt⟩ = .iter h
  nodes : σ.iters[h]? = some ns

section Scan
variable {last : List Instr}
  (hown : ∀ name, name ≠ .consumeNode → fn (v.bb name) = (v.scanCode opId last).body (v.bb name))
include hown

def scanTest (v : CodegenInlineVisitor) (ns : List ℕ) : Label :=
  v.bb (if ns = [] then .whileEnd else .whileBody 0)

theorem scanEntry_reaches (hg : AtGlobal σ g) :
    ∃ σ₁ cell, Reaches (fn.step env) (.at (v.bb .entry) σ)
        (.at (scanTest v (env.db.range env.first env.last)) σ₁) ∧
      AtScan v (env.db.argLabel env.args opId) σ.iters.length
        (env.db.range env.first env.last) ⟨cell,g.rhsInput,g.trace⟩ σ₁ ∧
      cell .resCounter = .word 0 := by
  let ns := env.db.range env.first env.last
  let σ₁ := ((σ.setCell ⟨v.visits,.resCounter⟩ (.word 0)).setCell ⟨v.visits,.rhsAlloca⟩
    (.word unknownId)).setCell ⟨v.visits,.maxCnt⟩ (.word 3)
  let σ₂ := ({ σ₁.setReg ⟨v.visits,.labelCode⟩ (.word (env.db.argLabel env.args opId)) with
    iters := σ.iters ++ [ns] } : State).setReg ⟨v.visits,.nodeBeginIt⟩ (.iter σ.iters.length)
  let σ₃ := σ₂.setReg ⟨v.visits,.endCond⟩ (.bool ns.isEmpty)
  have hentry : Reaches (fn.step env) (.at (v.bb .entry) σ)
      (.at (v.bb (.whileCondition 0)) σ₂) := by
    refine reaches_block (hown _ (by simp)) ?_
    simp [scanCode,initFunction,bb,reg,execBlock,Instr.exec,Expr.eval,σ₁,σ₂,ns]
  have hcond : Reaches (fn.step env) (.at (v.bb (.whileCondition 0)) σ₂)
      (.at (scanTest v ns) σ₃) := by
    refine reaches_block (hown _ (by simp)) ?_
    by_cases hns : ns = []
    all_goals
      simp [scanTest,scanCode,bb,reg,execBlock,Instr.exec,Expr.eval,Val.icmpEQ,hns,σ₁,σ₂,σ₃]
  refine ⟨σ₃,fun c => σ₁.cell ⟨v.visits,c⟩,hentry.trans hcond,
    ⟨⟨fun _ _ => rfl,?_,⟨unknownId,Or.inl rfl,?_⟩,hg.tp,hg.matTuple,hg.rhsInput,hg.trace⟩,
      ?_,?_,?_⟩,?_⟩
  all_goals simp [σ₁,σ₂,σ₃,ns]

theorem scanCheck_reaches {code h n : ℕ} {ns : List ℕ} (hat : AtScan v code h (n :: ns) sh σ) :
    ∃ σ₁, Reaches (fn.step env) (.at (scanTest v (n :: ns)) σ)
        (.at (v.bb (if (env.db.nodeById n).nodeLabel = code then .consumeNode
          else .whileBodyEpilog 0)) σ₁) ∧
      AtScan v code h (n :: ns) sh σ₁ ∧ σ₁.reg ⟨v.visits,.node⟩ = .node n := by
  let σ₁ := (σ.setReg ⟨v.visits,.nodeRaw⟩ (.node n)).setReg ⟨v.visits,.node⟩ (.node n)
  refine ⟨σ₁,reaches_block (hown _ (by simp)) ?_,⟨(hat.sim.setReg _ _).setReg _ _,
    by simpa [σ₁] using hat.labelCode,by simpa [σ₁] using hat.it,hat.nodes⟩,by simp [σ₁]⟩
  by_cases hc : (env.db.nodeById n).nodeLabel = code
  all_goals
    simp [scanCode,bb,reg,execBlock,Instr.exec,Expr.eval,hat.it,hat.nodes,nodeCmpLabel,loadField,
      Val.icmpEQ,hat.labelCode,hc,σ₁]

theorem scanNext_reaches {code h n : ℕ} {ns : List ℕ} (hat : AtScan v code h (n :: ns) sh σ) :
    ∃ σ₁, Reaches (fn.step env) (.at (v.bb (.whileBodyEpilog 0)) σ) (.at (scanTest v ns) σ₁) ∧
      AtScan v code h ns sh σ₁ := by
  obtain ⟨hlt,hget⟩ := List.getElem?_eq_some_iff.1 hat.nodes
  let σ₁ := ({ σ with iters := σ.iters.modify h List.tail } : State).setReg ⟨v.visits,.nextIt⟩
    (.iter h)
  let σ₂ := σ₁.setReg ⟨v.visits,.endCond⟩ (.bool ns.isEmpty)
  have hnodes : σ₁.iters[h]? = some ns := by
    simp [σ₁,hat.nodes]
  have hs : Sim v.visits σ₂ sh := ⟨hat.sim.cell,hat.sim.maxCnt,hat.sim.rhsAlloca,hat.sim.tp,
    hat.sim.matTuple,hat.sim.rhsInput,hat.sim.trace⟩
  refine ⟨σ₂,reaches_block (hown _ (by simp)) ?_,⟨hs,by simpa [σ₁,σ₂] using hat.labelCode,
    by simpa [σ₁,σ₂] using hat.it,hnodes⟩⟩
  by_cases hns : ns = []
  all_goals
    simp [scanTest,scanCode,bb,reg,execBlock,Instr.exec,Expr.eval,hat.it,hat.nodes,Val.icmpEQ,
      hns,σ₁,σ₂]

theorem ScanExec.simulates {code h opId₀ opId₁ : ℕ} {ns : List ℕ} {v₁ : CodegenInlineVisitor}
    (hv₁ : v₁ = v.visitScan false inp opId₀)
    (hconsume : ∀ σ, Reaches (fn.step env) (.at (v.bb .consumeNode) σ)
      (.at (inp.entryLabel v₁.visits) σ))
    (hl : Located fn env.db v.visits j inp opId₁ v₁ v')
    (hexec : ScanExec env v.visits code inp opId₁ j ns sh sh') :
    ∀ {σ : State}, AtScan v code h ns sh σ →
      ∃ σ', Reaches (fn.step env) (.at (scanTest v ns) σ) (.at (v.bb .scanNodesEnd) σ') ∧
        Sim v.visits σ' sh' := by
  have hbackflow : v₁.exit .backflow = v.bb (.whileBodyEpilog 0) := by rw [hv₁]; rfl
  have hlimit : v₁.exit .limit = v.bb .scanNodesEnd := by rw [hv₁]; rfl
  have hvisits : v₁.visits = v.visits+1 := by rw [hv₁]; rfl
  have hholds : ∀ {σ : State} {n : ℕ}, σ.reg ⟨v.visits,.node⟩ = .node n →
      Holds env σ v₁.regQueryResults [(.node n,0)] := by
    intro σ n hn
    rw [hv₁]
    exact .cons ⟨hn,rfl⟩ .nil
  induction hexec with
  | nil =>
    intro σ hat
    refine ⟨σ,reaches_block (hown _ (by simp)) ?_,hat.sim⟩
    simp [scanCode,bb,execBlock]
  | skip hne _ ih =>
    intro σ hat
    obtain ⟨σ₁,hr₁,hat₁,_⟩ := scanCheck_reaches hown hat
    rw [if_neg hne] at hr₁
    obtain ⟨σ₂,hr₂,hat₂⟩ := scanNext_reaches hown hat₁
    obtain ⟨σ₃,hr₃,hs₃⟩ := ih hat₂
    exact ⟨σ₃,(hr₁.trans hr₂).trans hr₃,hs₃⟩
  | hit hcode hrun _ ih =>
    intro σ hat
    obtain ⟨σ₁,hr₁,hat₁,hn₁⟩ := scanCheck_reaches hown hat
    rw [if_pos hcode] at hr₁
    obtain ⟨σ₂,hr₂,hs₂,hf₂⟩ := hrun.simulates v₁ v' σ₁ hl hat₁.sim (hholds hn₁)
    rw [hbackflow] at hr₂
    rw [hvisits] at hf₂
    have hreg : ∀ name, σ₂.reg ⟨v.visits,name⟩ = σ₁.reg ⟨v.visits,name⟩ :=
      fun name => hf₂.reg _ (Nat.lt_succ_self _)
    have hat₂ := AtScan.mk hs₂ ((hreg _).trans hat₁.labelCode) ((hreg _).trans hat₁.it)
      (hf₂.iters ▸ hat₁.nodes)
    obtain ⟨σ₃,hr₃,hat₃⟩ := scanNext_reaches hown hat₂
    obtain ⟨σ₄,hr₄,hs₄⟩ := ih hat₃
    exact ⟨σ₄,(((hr₁.trans (hconsume σ₁)).trans hr₂).trans hr₃).trans hr₄,hs₄⟩
  | exit hcode hrun =>
    intro σ hat
    obtain ⟨σ₁,hr₁,hat₁,hn₁⟩ := scanCheck_reaches hown hat
    rw [if_pos hcode] at hr₁
    obtain ⟨σ₂,hr₂,hs₂,_⟩ := hrun.simulates v₁ v' σ₁ hl hat₁.sim (hholds hn₁)
    rw [hlimit] at hr₂
    exact ⟨σ₂,(hr₁.trans (hconsume σ₁)).trans hr₂,hs₂⟩

end Scan

def scanLast (v : CodegenInlineVisitor) : List Instr :=
  match v.entry with
  | none => [.callFinish,.ret]
  | some nextOp => [.br nextOp]

theorem scan_own (hcode : ∀ e ∈ v.code, e.1.visit < v.visits)
    (h : (Plan.scan label false inp).codegen (codegenInlineVisitor env.db) opId true v =
      some (v',opId')) (ha : Agrees fn v v') {name : BlockName} (hname : name ≠ .consumeNode) :
    fn (v.bb name) = (v.scanCode opId (scanLast v)).body (v.bb name) := by
  obtain ⟨v₁,h₁,he,_⟩ := codegen_visit h
  have hopen : v.bb name ≠ v₁.prevBb := by
    obtain rfl := Option.some.inj h₁
    simpa [visitScan,emit,bb] using hname
  have hlt : v.visits < v'.visits := by
    obtain rfl := Option.some.inj h₁
    exact he.visits_le
  rw [ha _ (le_refl _) hlt,visit_body h₁ he hopen]
  obtain rfl := Option.some.inj h₁
  have hnil : v.code.body (v.bb name) = [] :=
    Code.body_eq_nil fun e hmem hel => absurd (hcode e hmem) (by rw [hel]; exact lt_irrefl _)
  change (v.code ++ v.scanCode opId (scanLast v)).body (v.bb name) = _
  rw [Code.body_append,hnil,List.nil_append]

theorem joinCtx_end (p : Plan) : ∀ {opId opId' : ℕ} {v v' : CodegenInlineVisitor},
    p.codegen (codegenInlineVisitor env.db) opId true v = some (v',opId') →
      v'.joinCtx = p.joinCtxEnd v.joinCtx := by
  induction p with
  | collect =>
    intro opId opId' v v' h
    simp only [Plan.codegen,Option.bind_eq_bind,Option.bind_eq_some_iff,Option.pure_def,
      Option.some.injEq,Prod.mk.injEq] at h
    obtain ⟨_,h₁,rfl,_⟩ := h
    obtain rfl := Option.some.inj h₁
    rfl
  | endOp =>
    intro opId opId' v v' h
    simp only [Plan.codegen,Option.bind_eq_bind,Option.bind_eq_some_iff,Option.pure_def,
      Option.some.injEq,Prod.mk.injEq] at h
    obtain ⟨_,h₁,rfl,_⟩ := h
    simp only [codegenInlineVisitor,visitEnd] at h₁
    split at h₁
    · simp at h₁
    · next jid jids hj =>
      obtain rfl := Option.some.inj h₁
      simp [joinCtx,Plan.joinCtxEnd,hj,emit]
  | join jop pos lhs rhs ihl ihr =>
    intro opId opId' v v' h
    simp only [Plan.codegen,if_true,Option.bind_eq_bind,Option.bind_eq_some_iff,
      Prod.exists] at h
    obtain ⟨v₁,h₁,v₂,_,h₂,h₃⟩ := h
    rw [ihr h₃,ihl h₂,visitJoin_joinCtx h₁,Plan.joinCtxEnd]
  | create => 
    intro opId opId' v v' h
    simp [Plan.codegen,codegenInlineVisitor] at h
  | _ _ _ =>
    rename_i ih
    intro opId opId' v v' h
    rw [Plan.codegen_input rfl,Option.bind_eq_some_iff] at h
    obtain ⟨v₁,h₁,h₂⟩ := h
    rw [ih h₂,visit_joinCtx h₁ rfl,Plan.joinCtxEnd]

theorem Located.scan_input {indexed : Bool} (hcode : ∀ e ∈ v.code, e.1.visit < v.visits)
    (hin : inp.Suffix)
    (h : (Plan.scan label indexed inp).codegen (codegenInlineVisitor env.db) opId true v =
      some (v',opId')) (ha : Agrees fn v v') :
    Located fn env.db v.visits v.joinCtx inp (opId + if indexed then 3 else 1)
      (v.visitScan indexed inp opId) v' := by
  rw [Plan.codegen_input rfl,Option.bind_eq_some_iff] at h
  obtain ⟨v₁,h₁,h₂⟩ := h
  obtain rfl := Option.some.inj h₁
  exact ⟨visitScan_ok env.db hcode,rfl,rfl,hin,⟨opId',h₂⟩,fun l hl => ha l (Nat.le_of_succ_le hl)⟩

theorem Located.join_rhs {pipe : ℕ} {jop : JoinOp} {pos : ℕ × ℕ} {lhs rhs : Plan}
    (hl : Located fn env.db pipe j (.join jop pos lhs rhs) opId v v') :
    ∃ v₂ opId', (∀ e ∈ v₂.code, e.1.visit < v₂.visits) ∧
      v₂.visits = v.visits+1+lhs.numVisits ∧ v₂.joinCtx = lhs.joinCtxEnd j.push ∧
      rhs.codegen (codegenInlineVisitor env.db) (lhs.opIdEnd opId) true v₂ = some (v',opId') ∧
      Agrees fn v₂ v' := by
  obtain ⟨opId',hgen⟩ := hl.gen
  simp only [Plan.codegen,if_true,Option.bind_eq_bind,Option.bind_eq_some_iff,
    Prod.exists] at hgen
  obtain ⟨v₁,h₁,v₂,opId₂,h₂,h₃⟩ := hgen
  obtain rfl := lhs.codegen_opId h₂
  obtain ⟨_,_,_,_,_,_,hvisits⟩ := visitJoin_eq h₁
  have hvisits₂ : v₂.visits = v.visits+1+lhs.numVisits := by rw [codegen_visits lhs h₂,hvisits]
  refine ⟨v₂,opId',(codegen_ok h₂ (visit_ok h₁ hl.ok)).code,hvisits₂,?_,h₃,?_⟩
  · rw [joinCtx_end lhs h₂,visitJoin_joinCtx h₁,hl.joinCtx]
  · exact fun l hle => hl.agrees l (by omega)

def Enters (env : Env) (fn : Body) (l : Label) (σ : State) (starts : List (ℕ × Global)) : Prop :=
  ∀ s ∈ starts, ∃ σ₁, Reaches (fn.step env) (.at l σ) (.at ⟨s.1,.entry⟩ σ₁) ∧ AtGlobal σ₁ s.2

theorem Enters.append {l : Label} {a b : List (ℕ × Global)} (ha : Enters env fn l σ a)
    (hb : Enters env fn l σ b) : Enters env fn l σ (a ++ b) := by
  intro s hs
  rcases List.mem_append.1 hs with hs | hs
  · exact ha s hs
  · exact hb s hs

theorem Enters.of_reaches {l l₁ : Label} {σ₁ : State} {a : List (ℕ × Global)}
    (hr : Reaches (fn.step env) (.at l σ) (.at l₁ σ₁)) (h : Enters env fn l₁ σ₁ a) :
    Enters env fn l σ a := by
  intro s hs
  obtain ⟨σ₂,hr₂,hg₂⟩ := h s hs
  exact ⟨σ₂,hr.trans hr₂,hg₂⟩

/-- The runs of the right-hand sides below a suffix: from the entry of the function as it is
after the suffix to the entry it had before. -/
def RhsRuns (env : Env) (fn : Body) (p : Plan) : Prop :=
  ∀ ⦃v v' : CodegenInlineVisitor⦄ ⦃opId opId' : ℕ⦄ ⦃g g' : Global⦄ ⦃starts : List (ℕ × Global)⦄
    ⦃σ : State⦄ ⦃e : Label⦄, Ok v → v.entry = some e →
    p.codegen (codegenInlineVisitor env.db) opId true v = some (v',opId') → Agrees fn v v' →
    PlanExec env p v.visits opId v.joinCtx g g' starts → AtGlobal σ g →
    ∃ e' σ', v'.entry = some e' ∧ Reaches (fn.step env) (.at e' σ) (.at e σ') ∧
      AtGlobal σ' g' ∧ Enters env fn e' σ starts

/-- The run of an access path, those below it included, up to the end of its scan. -/
def PathRuns (env : Env) (fn : Body) (p : Plan) : Prop :=
  ∀ ⦃v v' : CodegenInlineVisitor⦄ ⦃opId opId' : ℕ⦄ ⦃g g' : Global⦄ ⦃starts : List (ℕ × Global)⦄
    ⦃σ : State⦄, (∀ e ∈ v.code, e.1.visit < v.visits) →
    p.codegen (codegenInlineVisitor env.db) opId true v = some (v',opId') → Agrees fn v v' →
    PlanExec env p v.visits opId v.joinCtx g g' starts → AtGlobal σ g →
    ∃ e' σ', v'.entry = some e' ∧
      Reaches (fn.step env) (.at e' σ) (.at (v.bb .scanNodesEnd) σ') ∧ AtGlobal σ' g' ∧
      Enters env fn e' σ starts ∧ fn (v.bb .scanNodesEnd) = scanLast v

theorem RhsRuns.unary {op inp : Plan} (hi : op.input = some inp) (hop : op.Suffix)
    (hexec : ∀ k opId j g g' starts, PlanExec env op k opId j g g' starts →
      PlanExec env inp (k+1) (opId + op.nextOffset) j g g' starts)
    (ih : RhsRuns env fn inp) : RhsRuns env fn op := by
  intro v v' opId opId' g g' starts σ e hv he h ha hg hσ
  rw [Plan.codegen_input hi,Option.bind_eq_some_iff] at h
  obtain ⟨v₁,h₁,h₂⟩ := h
  have hle : v.visits ≤ v₁.visits := (visit_extends h₁).visits_le
  obtain ⟨_,hc⟩ := visit_inserts h₁
  have hg₁ := hexec _ _ _ _ _ _ hg
  rw [← hc.visits_eq,← visit_joinCtx h₁ hi] at hg₁
  exact ih (visit_ok h₁ hv) ((visit_keeps h₁ hop).2.2.trans he) h₂
    (fun l hl => ha l (le_trans hle hl)) hg₁ hσ

theorem RhsRuns.leaf {op : Plan} (hop : op.Suffix) (hopens : op.opens = false)
    (hname : op.entryName.isSome)
    (hexec : ∀ k opId j g g' starts, PlanExec env op k opId j g g' starts →
      g' = g ∧ starts = []) :
    RhsRuns env fn op := by
  intro v v' opId opId' g g' starts σ e hv he h _ hg hσ
  obtain ⟨v₁,h₁,_,hleaf⟩ := codegen_visit h
  obtain rfl := hleaf hopens hname
  obtain ⟨rfl,rfl⟩ := hexec _ _ _ _ _ _ hg
  exact ⟨e,σ,(visit_keeps h₁ hop).2.2.trans he,.refl,hσ,by simp [Enters]⟩

theorem PathRuns.scan (hin : inp.Suffix) (ih : RhsRuns env fn inp) :
    PathRuns env fn (.scan label false inp) := by
  intro v v' opId opId' g g' starts σ hcode h ha hg hσ
  have hown : ∀ name, name ≠ .consumeNode →
      fn (v.bb name) = (v.scanCode opId (scanLast v)).body (v.bb name) :=
    fun _ => scan_own hcode h ha
  have hl := Located.scan_input hcode hin h ha
  rw [Plan.codegen_input rfl,Option.bind_eq_some_iff] at h
  obtain ⟨v₁,h₁,h₂⟩ := h
  have hv₁ : v₁ = v.visitScan false inp opId := (Option.some.inj h₁).symm
  rw [← hv₁] at hl
  have hctx : v₁.joinCtx = v.joinCtx := hl.joinCtx
  have hvisits : v₁.visits = v.visits+1 := by rw [hv₁]; rfl
  obtain ⟨-,g₁,starts₁,hrhs,rfl,hscan⟩ := hg
  rw [← hvisits,← hctx] at hrhs
  obtain ⟨e',σ₁,he',hr₁,hσ₁,hent₁⟩ := ih hl.ok (e := v.bb .entry) (by rw [hv₁]; rfl) h₂ hl.agrees
    hrhs hσ
  have hprev : v₁.prevBb = v.bb .consumeNode := by rw [hv₁]; rfl
  have hopen := hl.prevBb ha (by rw [hprev]; exact le_refl _)
  have hbody : v₁.code.body (v.bb .consumeNode) = [] := by
    have hnil : v.code.body (v.bb .consumeNode) = [] :=
      Code.body_eq_nil fun e hmem hel => absurd (hcode e hmem) (by rw [hel]; exact lt_irrefl _)
    have hc : v₁.code = v.code ++ v.scanCode opId (scanLast v) := by rw [hv₁]; rfl
    rw [hc,Code.body_append,hnil]
    simp [scanCode,bb]
  rw [hprev,hbody,List.nil_append] at hopen
  obtain ⟨σ₂,cell,hr₂,hat,hcell⟩ := scanEntry_reaches hown hσ₁
  obtain ⟨cell',hexec⟩ := hscan v.visits cell hcell
  obtain ⟨σ₃,hr₃,hs₃⟩ :=
    hexec.simulates hown hv₁ (fun σ => reaches_block hopen rfl) hl hat
  have hent : Enters env fn e' σ [(v.visits,g₁)] := by
    intro s hs
    obtain rfl := List.mem_singleton.1 hs
    exact ⟨σ₁,hr₁,hσ₁⟩
  refine ⟨e',σ₃,he',(hr₁.trans hr₂).trans hr₃,
    ⟨⟨hs₃.tp,hs₃.matTuple⟩,hs₃.rhsInput,hs₃.trace⟩,hent₁.append hent,?_⟩
  rw [hown _ (by simp)]
  simp [scanCode,bb]

theorem planExec_runs (p : Plan) : (p.Suffix → RhsRuns env fn p) ∧
    (p.AccessPath → PathRuns env fn p) := by
  induction p with
  | scan label indexed inp ih =>
    refine ⟨fun h => absurd h.1 (by simp),fun h => ?_⟩
    intro v v' opId opId' g g' starts σ hcode hgen ha hg hσ
    obtain rfl := hg.1
    exact PathRuns.scan h.2 (ih.1 h.2) hcode hgen ha hg hσ
  | join jop pos lhs rhs ihl ihr =>
    refine ⟨fun hp => ?_,fun h => absurd h.1 (by simp)⟩
    intro v v' opId opId' g g' starts σ e hv he h ha hg hσ
    simp only [Plan.codegen,if_true,Option.bind_eq_bind,Option.bind_eq_some_iff,
      Prod.exists] at h
    obtain ⟨v₁,h₁,v₂,opId₂,h₂,h₃⟩ := h
    obtain ⟨g₁,starts₁,starts₂,hrhs,hlhs,rfl⟩ := hg
    have hle : v.visits ≤ v₁.visits := (visit_extends h₁).visits_le
    have hle₂ : v₁.visits ≤ v₂.visits := (codegen_extends h₂).visits_le
    have hle₃ : v₂.visits ≤ v'.visits := (codegen_extends h₃).visits_le
    have hok₁ := visit_ok h₁ hv
    have hok₂ := codegen_ok h₂ hok₁
    obtain ⟨_,_,_,_,_,_,hvisits⟩ := visitJoin_eq h₁
    have hvisits₂ := codegen_visits lhs h₂
    have hctx := visitJoin_joinCtx h₁
    have hid := lhs.codegen_opId h₂
    subst hid
    rw [← hctx,← joinCtx_end lhs h₂,← hvisits,← hvisits₂] at hrhs
    rw [← hctx,← hvisits] at hlhs
    have ha₁ : Agrees fn v₁ v₂ := fun l hl hlt => by
      rw [ha l (le_trans hle hl) (lt_of_lt_of_le hlt hle₃),
        codegen_accessPath_body hp.2.2 h₃ l hlt]
    obtain ⟨e',σ₁,he',hr₁,hσ₁,hent₁,hlast⟩ := ihr.2 hp.2.2 hok₂.code h₃
      (fun l hl => ha l (by omega)) hrhs hσ
    obtain ⟨e₂,σ₂,he₂,hr₂,hσ₂,hent₂⟩ := ihl.1 hp.2.1 hok₁ ((visit_keeps h₁ hp).2.2.trans he) h₂
      ha₁ hlhs hσ₁
    rw [scanLast,he₂] at hlast
    have hnext := hr₁.trans (reaches_block hlast rfl)
    exact ⟨e',σ₂,he',hnext.trans hr₂,hσ₂,hent₁.append (hent₂.of_reaches hnext)⟩
  | create => exact ⟨fun h => absurd h id,fun h => absurd h id⟩
  | collect | endOp =>
    exact ⟨fun h => RhsRuns.leaf h rfl rfl fun _ _ _ _ _ _ h => h,
      fun h => absurd h (by simp [Plan.Shaped])⟩
  | _ _ _ =>
    rename_i ih
    exact ⟨fun h => RhsRuns.unary rfl h (fun _ _ _ _ _ _ h => h) (ih.1 h.2),
      fun h => absurd h.1 (by simp)⟩

theorem generateStart_returns {er : ℕ → Option Expr} {entry : Label} (hp : p.AccessPath)
    (h : generateStart env.db er p = some (fn,entry)) {g' : Global} {starts : List (ℕ × Global)}
    (hexec : PlanExec env p 0 1 ⟨0,[]⟩ ⟨σ.rhsInput,σ.trace⟩ g' starts) (hidle : σ.Idle) :
    ∃ σ', Returns (fn.step env) (.at entry σ) (.returned σ') ∧ σ'.Idle ∧
      σ'.trace = g'.trace ++ [.finish] ∧ σ'.rhsInput = g'.rhsInput ∧
      Enters env fn entry σ starts := by
  simp only [generateStart,Option.bind_eq_bind,Option.bind_eq_some_iff,Option.pure_def,
    Option.some.injEq,Prod.mk.injEq,Prod.exists] at h
  obtain ⟨v',opId',hgen,_,he,rfl,rfl⟩ := h
  have hruns : PathRuns env v'.code.body p := (planExec_runs p).2 hp
  obtain ⟨e',σ₁,he',hr₁,hσ₁,hent,hlast⟩ := hruns (by simp [init]) hgen (fun _ _ _ => rfl) hexec
    ⟨hidle,rfl,rfl⟩
  obtain rfl := Option.some.inj (he.symm.trans he')
  refine ⟨σ₁.emit .finish,⟨hr₁.trans (reaches_block hlast rfl),rfl⟩,
    ⟨hσ₁.tp,hσ₁.matTuple⟩,?_,hσ₁.rhsInput,hent⟩
  simp [State.emit,hσ₁.trace]

end GraphQueryCompiler
