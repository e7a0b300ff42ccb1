import GraphQueryCompiler.Simulation

/-!
# Simulation of joins

A join is a probe loop over the materialised tuples. A cross join hands every tuple to the
operators after it; a left outer join runs a second loop over the relationships of the
left-hand node for each of them.
-/

namespace GraphQueryCompiler
open StepMachine CodegenInlineVisitor

variable {env : Env} {fn : Body} {pipe : ℕ} {σ : State} {sh : Shared} {j : JoinCtx}
  {lhs rhs : Plan} {jop : JoinOp} {pos : ℕ × ℕ} {opId : ℕ} {v v₁ v' : CodegenInlineVisitor}
  {t u : Tuple} {r : List QrVal} {types : List ℕ}

theorem Located.join (h : Located fn env.db pipe j (.join jop pos lhs rhs) opId v v') :
    ∃ v₁ v₂, (codegenInlineVisitor env.db).visit (.join jop pos lhs rhs) opId v = some v₁ ∧
      Extends v₁ v' ∧ Agrees fn v v₂ ∧ Located fn env.db pipe j.push lhs opId v₁ v₂ := by
  obtain ⟨opId',hgen⟩ := h.gen
  simp only [Plan.codegen,if_true,Option.bind_eq_bind,Option.bind_eq_some_iff,
    Prod.exists] at hgen
  obtain ⟨v₁,h₁,v₂,opId₂,h₂,h₃⟩ := hgen
  have he₂ := codegen_extends h₂
  have he₃ := codegen_extends h₃
  have hagrees : Agrees fn v v₂ := by
    intro l hl hlt
    rw [h.agrees l hl (lt_of_lt_of_le hlt he₃.visits_le),
      codegen_accessPath_body h.suffix.2.2 h₃ l hlt]
  have hle : v.visits ≤ v₁.visits := (visit_extends h₁).visits_le
  refine ⟨v₁,v₂,h₁,he₂.trans he₃,hagrees,visit_ok h₁ h.ok,?_,?_,h.suffix.2.1,⟨opId₂,h₂⟩,?_⟩
  · exact (visit_keeps h₁ h.suffix).1.trans h.scan
  · rw [visitJoin_joinCtx h₁,h.joinCtx]
  · exact fun l hl => hagrees l (le_trans hle hl)

theorem visitJoin_eq
    (h : (codegenInlineVisitor env.db).visit (.join jop pos lhs rhs) opId v = some v₁) :
    ∃ loopCode, v.joinLoopCode jop pos = some loopCode ∧
      v₁.code = v.code ++ (v.joinCode jop rhs.rhsType ++ loopCode) ∧
      v₁.prevBb = v.bb .consume ∧ v₁.mainReturn = v.joinReturn jop ∧
      v₁.regQueryResults = v.regQueryResults ++ v.resRegs rhs.rhsType ++ v.danglingRegs jop ∧
      v₁.visits = v.visits+1 := by
  simp only [codegenInlineVisitor,visitJoin,Option.bind_eq_bind,Option.bind_eq_some_iff,
    Option.pure_def,Option.some.injEq] at h
  obtain ⟨loopCode,hloop,rfl⟩ := h
  exact ⟨loopCode,hloop,rfl,rfl,rfl,rfl,rfl⟩

theorem joinLoopCode_body {code : Code} (h : v.joinLoopCode jop pos = some code)
    {name : BlockName} (hname : name = .entryJoinLhs ∨ name = .whileCondition 0 ∨
      name = .whileBody 0 ∨ name = .endJoin ∨ name = .incrLoop ∨ name = .concatQrl ∨
      name = .consume) :
    code.body ⟨v.visits,name⟩ = [] := by
  unfold joinLoopCode at h
  split at h
  · simp only [Option.map_eq_some_iff] at h
    obtain ⟨l,_,rfl⟩ := h
    rcases hname with rfl | rfl | rfl | rfl | rfl | rfl | rfl <;>
      simp [leftOuterCode,whileLoopCondition,bb]
  · obtain rfl := Option.some.inj h
    rfl

theorem Located.probe_own (hl : Located fn env.db pipe j (.join jop pos lhs rhs) opId v v')
    (h₁ : (codegenInlineVisitor env.db).visit (.join jop pos lhs rhs) opId v = some v₁)
    (he : Extends v₁ v') (name : BlockName) (hname : name = .entryJoinLhs ∨
      name = .whileCondition 0 ∨ name = .whileBody 0 ∨ name = .endJoin ∨ name = .incrLoop ∨
      name = .concatQrl) :
    fn (v.bb name) = (v.joinCode jop rhs.rhsType).body (v.bb name) := by
  obtain ⟨code,hloop,hcode,hprev,_⟩ := visitJoin_eq h₁
  rw [hl.own h₁ he hcode (by rw [hprev]; rcases hname with rfl | rfl | rfl | rfl | rfl | rfl <;>
      simp [bb]),Code.body_append,bb,joinLoopCode_body hloop (by tauto),List.append_nil]

def CodegenInlineVisitor.probeStart (v : CodegenInlineVisitor) (jid : ℕ) (σ : State) : State :=
  (((σ.setCell (v.cell .dangling) (.word 1)).setCell (v.cell .curIdx) (.word 0)).setReg (v.reg .ma)
    (.word (σ.rhsInput jid).length)).setCell (v.cell .maxIdx) (.word (σ.rhsInput jid).length)

section Probe
variable (hl : Located fn env.db pipe j (.join jop pos lhs rhs) opId v v')
  (h₁ : (codegenInlineVisitor env.db).visit (.join jop pos lhs rhs) opId v = some v₁)
  (he : Extends v₁ v')
include hl h₁ he

theorem probeStart_reaches : Reaches (fn.step env) (.at (v.bb .entryJoinLhs) σ)
    (.at (v.bb (.whileCondition 0)) (v.probeStart j.queryIdInline σ)) := by
  have hj : v.queryIdInline = j.queryIdInline := congrArg JoinCtx.queryIdInline hl.joinCtx
  refine reaches_block (hl.probe_own h₁ he _ (by simp)) ?_
  simp [joinCode,whileLoopCondition,bb,cell,reg,hl.ok.prevBb_ne,execBlock,Instr.exec,Expr.eval,
    hj,probeStart]

theorem entryJoinLhs_reaches (hs : Sim pipe σ sh) (ht : Holds env σ v.regQueryResults t) :
    ∃ σ₁, Reaches (fn.step env) (.at (v.bb .entryJoinLhs) σ)
        (.at (v.bb (.whileCondition 0)) σ₁) ∧
      Sim pipe σ₁ (sh.enterJoin j.queryIdInline) ∧ Holds env σ₁ v.regQueryResults t ∧
      Frame v.visits pipe σ σ₁ := by
  have hr := probeStart_reaches hl h₁ he (σ := σ)
  obtain rfl := hl.scan
  have hf : Frame v.visits v.scan σ (v.probeStart j.queryIdInline σ) :=
    ((((Frame.refl _ _ σ).setCell_pipe _ _).setCell_pipe _ _).setReg_own _ _).setCell_pipe _ _
  have hs₁ : Sim v.scan (v.probeStart j.queryIdInline σ) (sh.enterJoin j.queryIdInline) := by
    rw [Shared.enterJoin,← hs.rhsInput]
    exact (((hs.setCell_shared rfl _).setCell_shared rfl _).setReg _ _).setCell_shared rfl _
  exact ⟨_,hr,hs₁,ht.frame hl.ok.regs hf,hf⟩

theorem endJoin_completes {cur max : ℕ} (hs : Sim pipe σ sh)
    (hcur : sh.cell .curIdx = .word cur) (hmax : sh.cell .maxIdx = .word max) (hle : max ≤ cur) :
    Completes env fn pipe v (v.bb (.whileCondition 0)) σ .backflow sh := by
  obtain rfl := hl.scan
  rw [← hs.cell _ rfl] at hcur hmax
  have hcond : Reaches (fn.step env) (.at (v.bb (.whileCondition 0)) σ)
      (.at (v.bb .endJoin) σ) := by
    refine reaches_block (hl.probe_own h₁ he _ (by simp)) ?_
    simp [joinCode,whileLoopCondition,bb,cell,hl.ok.prevBb_ne,execBlock,Expr.eval,hcur,hmax,
      Val.icmpULT,Nat.not_lt.2 hle]
  refine .of_reaches (hcond.trans (reaches_block (hl.probe_own h₁ he _ (by simp)) ?_))
    (Frame.refl _ _ _) (.here hs)
  simp [joinCode,whileLoopCondition,bb,hl.ok.prevBb_ne,execBlock,exit]

theorem probeBody_reaches {cur max : ℕ} (hs : Sim pipe σ sh)
    (ht : Holds env σ v.regQueryResults t)
    (hcur : sh.cell .curIdx = .word cur) (hmax : sh.cell .maxIdx = .word max) (hlt : cur < max)
    (hr : (sh.rhsInput j.queryIdInline)[cur]? = some r) {next : Label}
    (hnext : v.joinBranch jop = [.br next]) :
    ∃ σ₁, Reaches (fn.step env) (.at (v.bb (.whileCondition 0)) σ) (.at next σ₁) ∧
      Sim pipe σ₁ sh ∧ Holds env σ₁ v.regQueryResults t ∧ Frame v.visits pipe σ σ₁ ∧
      σ₁.reg ⟨v.visits,.tp⟩ = .tuple r := by
  obtain rfl := hl.scan
  have hj : v.queryIdInline = j.queryIdInline := congrArg JoinCtx.queryIdInline hl.joinCtx
  rw [← hs.cell _ rfl] at hcur hmax
  rw [← hs.rhsInput] at hr
  have hcond : Reaches (fn.step env) (.at (v.bb (.whileCondition 0)) σ)
      (.at (v.bb (.whileBody 0)) σ) := by
    refine reaches_block (hl.probe_own h₁ he _ (by simp)) ?_
    simp [joinCode,whileLoopCondition,bb,cell,hl.ok.prevBb_ne,execBlock,Expr.eval,hcur,hmax,
      Val.icmpULT,hlt]
  let σ₁ := (σ.setReg ⟨v.visits,.idx⟩ (.word cur)).setReg ⟨v.visits,.tp⟩ (.tuple r)
  have hf : Frame v.visits v.scan σ σ₁ := ((Frame.refl _ _ σ).setReg_own _ _).setReg_own _ _
  refine ⟨σ₁,hcond.trans (reaches_block (hl.probe_own h₁ he _ (by simp)) ?_),
    (hs.setReg _ _).setReg _ _,ht.frame hl.ok.regs hf,hf,by simp [σ₁]⟩
  simp [joinCode,whileLoopCondition,bb,cell,reg,hl.ok.prevBb_ne,execBlock,Instr.exec,Expr.eval,
    hcur,hj,hr,hnext,σ₁]

end Probe

theorem execBlock_resInstrs (types : List ℕ) : ∀ {m : ℕ} {σ : State} {qs : List QrVal}
    {u : Tuple}, readRes types qs = some u → (∀ i, qs[i]? = r[i+m]?) →
    Sim pipe σ sh → σ.reg ⟨v.visits,.tp⟩ = .tuple r →
    ∃ σ₁, (∀ rest, execBlock env ((types.mapIdx fun i type =>
        if type = 0 then .getNodeResAt (v.reg (.res (i+m))) (.reg (v.reg .tp)) (i+m)
        else .getRshipResAt (v.reg (.res (i+m))) (.reg (v.reg .tp)) (i+m)) ++ rest) σ =
        execBlock env rest σ₁) ∧
      Sim pipe σ₁ sh ∧ σ₁.cell = σ.cell ∧ Frame v.visits pipe σ σ₁ ∧
      (∀ r' : Reg, (∀ i ≥ m, r' ≠ ⟨v.visits,.res i⟩) → σ₁.reg r' = σ.reg r') ∧
      Holds env σ₁ (types.mapIdx fun i type =>
        ⟨.reg (v.reg (.res (i+m))),if type = 0 then 0 else 1⟩) u := by
  induction types with
  | nil =>
    intro m σ qs u hu _ hs _
    obtain rfl : u = [] := by simpa [readRes] using hu.symm
    exact ⟨σ,fun _ => rfl,hs,rfl,Frame.refl _ _ _,fun _ _ => rfl,.nil⟩
  | cons type types ih =>
    intro m σ qs u hu hqs hs htp
    cases qs with
    | nil => simp [readRes] at hu
    | cons q qs =>
      simp only [readRes,Option.bind_eq_some_iff,Option.map_eq_some_iff] at hu
      obtain ⟨x,hx,xs,hxs,rfl⟩ := hu
      have hq : r[m]? = some q := by simpa using (hqs 0).symm
      let σ₁ := σ.setReg ⟨v.visits,.res m⟩ x.1
      have hone : ∀ rest, execBlock env ((if type = 0 then
          .getNodeResAt (v.reg (.res m)) (.reg (v.reg .tp)) m
          else .getRshipResAt (v.reg (.res m)) (.reg (v.reg .tp)) m) :: rest) σ =
          execBlock env rest σ₁ := by
        intro rest
        unfold readEntry at hx
        split at hx <;>
          simp only [Option.some.injEq,reduceCtorEq] at hx <;> subst hx <;>
          simp [execBlock,Instr.exec,Expr.eval,reg,htp,hq,σ₁]
      have htype : (if type = 0 then 0 else 1) = x.2 := by
        unfold readEntry at hx
        split at hx <;> simp only [Option.some.injEq,reduceCtorEq] at hx <;> subst hx <;> simp
      obtain ⟨σ₂,hexec,hs₂,hcell,hf,hreg,hholds⟩ := ih (m := m+1) (σ := σ₁) hxs
        (fun i => by rw [← Nat.add_assoc,Nat.add_right_comm]; exact hqs (i+1)) (hs.setReg _ _)
        (by simpa [σ₁] using htp)
      refine ⟨σ₂,?_,hs₂,hcell,((Frame.refl _ _ σ).setReg_own _ _).trans hf,?_,?_⟩
      · intro rest
        rw [List.mapIdx_cons,List.cons_append]
        simp only [Nat.zero_add]
        rw [hone,← hexec rest]
        simp only [Nat.add_assoc,Nat.add_comm 1 m]
      · intro r' hr'
        rw [hreg r' (fun i hi => hr' i (by omega))]
        simp [σ₁,hr' m (le_refl _)]
      · rw [List.mapIdx_cons]
        simp only [Nat.zero_add]
        refine .cons ⟨?_,htype⟩ ?_
        · rw [reg,Expr.eval,hreg _ (fun i hi => by simp; omega)]
          simp [σ₁]
        · change Holds env σ₂ _ xs
          simpa only [Nat.add_assoc,Nat.add_comm 1 m] using hholds

theorem concatQrl_reaches (hl : Located fn env.db pipe j (.join jop pos lhs rhs) opId v v')
    (h₁ : (codegenInlineVisitor env.db).visit (.join jop pos lhs rhs) opId v = some v₁)
    (he : Extends v₁ v') (hs : Sim pipe σ sh) (ht : Holds env σ v.regQueryResults t)
    (htp : σ.reg ⟨v.visits,.tp⟩ = .tuple r) (hu : readRes rhs.rhsType r = some u) :
    ∃ σ₁, (∀ c, execBlock env (v.concatIncr jop ++ [.br (v.bb .consume)]) σ₁ = some c →
        Reaches (fn.step env) (.at (v.bb .concatQrl) σ) c) ∧
      Sim pipe σ₁ sh ∧ Frame v.visits pipe σ σ₁ ∧
      Holds env σ₁ (v.regQueryResults ++ v.resRegs rhs.rhsType) (t ++ u) ∧ σ₁.cell = σ.cell ∧
      (∀ name, (∀ i, name ≠ .res i) → σ₁.reg ⟨v.visits,name⟩ = σ.reg ⟨v.visits,name⟩) := by
  obtain ⟨σ₁,hexec,hs₁,hcell,hf,hreg,hholds⟩ :=
    execBlock_resInstrs (m := 0) rhs.rhsType hu (fun _ => rfl) hs htp
  refine ⟨σ₁,fun c hc => reaches_block (hl.probe_own h₁ he _ (by simp)) ?_,hs₁,hf,
    List.rel_append (ht.frame hl.ok.regs hf) hholds,hcell,
    fun name hname => hreg _ fun i _ => by simpa using hname i⟩
  simp only [joinCode,whileLoopCondition,bb,Code.body_append,Code.body_cons,Code.body_nil,
    Label.mk.injEq,hl.ok.prevBb_ne,true_and,reduceCtorEq,if_false,if_true,List.nil_append,
    List.append_nil,List.append_assoc]
  exact (hexec _).trans hc

section Cross
variable (hl : Located fn env.db pipe j (.join .CROSS pos lhs rhs) opId v v')
  (h₁ : (codegenInlineVisitor env.db).visit (.join .CROSS pos lhs rhs) opId v = some v₁)
  (he : Extends v₁ v')
include hl h₁ he

theorem crossBody_reaches {cur max : ℕ} (hs : Sim pipe σ sh)
    (ht : Holds env σ v.regQueryResults t)
    (hcur : sh.cell .curIdx = .word cur) (hmax : sh.cell .maxIdx = .word max) (hlt : cur < max)
    (hr : (sh.rhsInput j.queryIdInline)[cur]? = some r) (hu : readRes rhs.rhsType r = some u) :
    ∃ σ₁, Reaches (fn.step env) (.at (v.bb (.whileCondition 0)) σ) (.at (v.bb .consume) σ₁) ∧
      Sim pipe σ₁ (sh.set .curIdx (.word (cur+1))) ∧ Frame v.visits pipe σ σ₁ ∧
      Holds env σ₁ v₁.regQueryResults (t ++ u) := by
  obtain ⟨_,_,_,_,_,hregs,_⟩ := visitJoin_eq h₁
  obtain ⟨σ₁,hr₁,hs₁,ht₁,hf₁,htp⟩ := probeBody_reaches hl h₁ he hs ht hcur hmax hlt hr rfl
  obtain ⟨σ₂,hr₂,hs₂,hf₂,ht₂,_⟩ := concatQrl_reaches hl h₁ he hs₁ ht₁ htp hu
  obtain rfl := hl.scan
  let σ₃ := σ₂.setCell ⟨v.scan,.curIdx⟩ (.word (cur+1))
  have hf₃ : Frame v.visits v.scan σ₂ σ₃ := (Frame.refl _ _ _).setCell_pipe _ _
  have hok : ∀ q ∈ v.regQueryResults ++ v.resRegs rhs.rhsType, q.Below (v.visits+1) := by
    have := (visit_ok h₁ hl.ok).regs
    obtain ⟨_,_,_,_,_,_,hvisits⟩ := visitJoin_eq h₁
    rw [hregs,hvisits] at this
    exact fun q hq => this q (List.mem_append_left _ hq)
  refine ⟨σ₃,hr₁.trans (hr₂ _ ?_),hs₂.setCell_shared rfl _,(hf₁.trans hf₂).trans hf₃,?_⟩
  · rw [← hs₂.cell _ rfl] at hcur
    simp [concatIncr,execBlock,Instr.exec,Expr.eval,cell,hcur,Val.add,σ₃]
  · have hnil : v.danglingRegs .CROSS = [] := rfl
    rw [hregs,hnil,List.append_nil]
    exact ht₂.frame hok ((Frame.refl (v.visits+1) v.scan σ₂).setCell_pipe _ _)

end Cross

structure AtLeft (env : Env) (pipe : ℕ) (v : CodegenInlineVisitor) (r : List QrVal)
    (rhsId i : ℕ) (t : Tuple) (sh : Shared) (σ : State) : Prop where
  sim : Sim pipe σ sh
  holds : Holds env σ v.regQueryResults t
  tp : σ.reg ⟨v.visits,.tp⟩ = .tuple r
  rhsId : σ.reg ⟨v.visits,.rhsId⟩ = .word rhsId
  ridx : σ.cell ⟨v.visits,.ridx⟩ = .word i

section LeftOuter
variable (hl : Located fn env.db pipe j (.join .LEFT_OUTER pos lhs rhs) opId v v')
  (h₁ : (codegenInlineVisitor env.db).visit (.join .LEFT_OUTER pos lhs rhs) opId v = some v₁)
  (he : Extends v₁ v')
include hl h₁ he

theorem Located.left_own (name : BlockName) (hname : name = .leftOuter ∨
      name = .whileCondition 1 ∨ name = .whileBody 1 ∨ name = .forEachNextRship ∨
      name = .undang ∨ name = .handleRet) :
    ∃ l, v.regQueryResults[pos.1]? = some l ∧
      fn (v.bb name) = (v.leftOuterCode l.regVal pos.2).body (v.bb name) := by
  obtain ⟨code,hloop,hcode,hprev,_⟩ := visitJoin_eq h₁
  simp only [joinLoopCode,Option.map_eq_some_iff] at hloop
  obtain ⟨l,hlreg,rfl⟩ := hloop
  refine ⟨l,hlreg,?_⟩
  rw [hl.own h₁ he hcode (by rw [hprev]; rcases hname with rfl | rfl | rfl | rfl | rfl | rfl <;>
      simp [bb]),Code.body_append,Code.body_eq_nil (c := v.joinCode _ _),List.nil_append]
  intro e hmem
  simp only [joinCode,whileLoopCondition,List.mem_append,List.mem_cons,List.not_mem_nil,
    or_false] at hmem
  rcases hname with rfl | rfl | rfl | rfl | rfl | rfl <;>
    rcases hmem with ((rfl | rfl) | rfl | rfl | rfl | rfl) | rfl | rfl | rfl <;>
    simp [bb,hl.ok.prevBb_ne]

theorem leftOuter_reaches {n b type : ℕ} (hs : Sim pipe σ sh)
    (ht : Holds env σ v.regQueryResults t) (htp : σ.reg ⟨v.visits,.tp⟩ = .tuple r)
    (hb : r[pos.2]? = some (.node b)) (hn : t[pos.1]? = some (.node n,type)) :
    ∃ σ₁, Reaches (fn.step env) (.at (v.bb .leftOuter) σ) (.at (v.bb (.whileCondition 1)) σ₁) ∧
      AtLeft env pipe v r b (env.db.nodeById n).fromRshipList t sh σ₁ ∧
      Frame v.visits pipe σ σ₁ := by
  obtain ⟨l,hlreg,hown⟩ := hl.left_own h₁ he .leftOuter (by simp)
  obtain ⟨_,hlreg',hval,_⟩ := ht.getElem? hn
  obtain rfl := Option.some.inj (hlreg.symm.trans hlreg')
  have hbelow : l.Below v.visits := hl.ok.regs _ (List.mem_of_getElem? hlreg)
  have hpipe := hl.pipe_lt
  obtain rfl := hl.scan
  let list : Val := .word (env.db.nodeById n).fromRshipList
  let σ₁ := (((σ.setReg ⟨v.visits,.rhs⟩ (.node b)).setReg ⟨v.visits,.rhsId⟩ (.word b)).setReg
    ⟨v.visits,.nodeRshipId⟩ list).setCell ⟨v.scan,.crossJoinIdx⟩ list
  let σ₂ := σ₁.setCell ⟨v.visits,.ridx⟩ list
  have hf : Frame v.visits v.scan σ σ₂ :=
    (((((Frame.refl _ _ σ).setReg_own _ _).setReg_own _ _).setReg_own _ _).setCell_pipe
      _ _).setCell_own _ _
  have hs₂ : Sim v.scan σ₂ sh :=
    ((((hs.setReg _ _).setReg _ _).setReg _ _).setCell_scratch rfl _).setCell_other
      (by simp; omega) _
  refine ⟨σ₂,reaches_block hown ?_,
    ⟨hs₂,ht.frame hl.ok.regs hf,by simpa [σ₁,σ₂] using htp,by simp [σ₁,σ₂],
      by simp [σ₁,σ₂,list]⟩,hf⟩
  simp [leftOuterCode,whileLoopCondition,bb,cell,reg,execBlock,Instr.exec,Expr.eval,htp,hb,
    hbelow.eval_setReg,hval,loadField,env.db.nodeById_id,σ₁,σ₂,list]

theorem leftBody_reaches {b i : ℕ} (h : AtLeft env pipe v r b i t sh σ) (hi : IsId i) :
    ∃ σ₁, Reaches (fn.step env) (.at (v.bb (.whileCondition 1)) σ)
        (.at (v.bb (if b = (env.db.rshipById i).destNode then .undang else .forEachNextRship))
          σ₁) ∧
      AtLeft env pipe v r b i t sh σ₁ ∧ σ₁.cell ⟨v.visits,.ra⟩ = .rship i ∧
      Frame v.visits pipe σ σ₁ := by
  obtain ⟨l,_,hown⟩ := hl.left_own h₁ he (.whileCondition 1) (by simp)
  obtain ⟨l',_,hown'⟩ := hl.left_own h₁ he (.whileBody 1) (by simp)
  have hpipe := hl.pipe_lt
  obtain rfl := hl.scan
  have hlt : (σ.cell ⟨v.visits,.ridx⟩).icmpULT (σ.cell ⟨v.scan,.rhsAlloca⟩) = .bool true := by
    rw [h.ridx,h.sim.lt_rhsAlloca _ (Or.inl hi)]
    simp [hi]
  have hcond : Reaches (fn.step env) (.at (v.bb (.whileCondition 1)) σ)
      (.at (v.bb (.whileBody 1)) σ) := by
    refine reaches_block hown ?_
    simp [leftOuterCode,whileLoopCondition,bb,cell,execBlock,Expr.eval,hlt]
  let σ₁ := (((σ.setReg ⟨v.visits,.curId⟩ (.word i)).setReg ⟨v.visits,.rship⟩ (.rship i)).setCell
    ⟨v.visits,.ra⟩ (.rship i)).setReg ⟨v.visits,.toNode⟩ (.word (env.db.rshipById i).destNode)
  have hf : Frame v.visits v.scan σ σ₁ :=
    ((((Frame.refl _ _ σ).setReg_own _ _).setReg_own _ _).setCell_own _ _).setReg_own _ _
  have hs₁ : Sim v.scan σ₁ sh :=
    (((h.sim.setReg _ _).setReg _ _).setCell_other (by simp; omega) _).setReg _ _
  refine ⟨σ₁,hcond.trans (reaches_block hown' ?_),
    ⟨hs₁,h.holds.frame hl.ok.regs hf,by simpa [σ₁] using h.tp,by simpa [σ₁] using h.rhsId,
      by simpa [σ₁] using h.ridx⟩,by simp [σ₁],hf⟩
  by_cases hd : b = (env.db.rshipById i).destNode
  all_goals
    simp [leftOuterCode,whileLoopCondition,bb,cell,reg,execBlock,Instr.exec,Expr.eval,h.ridx,
      h.rhsId,loadField,Val.icmpEQ,hd,σ₁]

theorem forEachNextRship_reaches {b i : ℕ} (hs : Sim pipe σ sh)
    (ht : Holds env σ v.regQueryResults t) (htp : σ.reg ⟨v.visits,.tp⟩ = .tuple r)
    (hid : σ.reg ⟨v.visits,.rhsId⟩ = .word b) (hra : σ.cell ⟨v.visits,.ra⟩ = .rship i) :
    ∃ σ₁, Reaches (fn.step env) (.at (v.bb .forEachNextRship) σ)
        (.at (v.bb (.whileCondition 1)) σ₁) ∧
      AtLeft env pipe v r b (env.db.rshipById i).nextSrcRship t sh σ₁ ∧
      Frame v.visits pipe σ σ₁ := by
  obtain ⟨l,_,hown⟩ := hl.left_own h₁ he .forEachNextRship (by simp)
  have hpipe := hl.pipe_lt
  let next : Val := .word (env.db.rshipById i).nextSrcRship
  let σ₁ := (σ.setReg ⟨v.visits,.nextRshipId⟩ next).setCell ⟨v.visits,.ridx⟩ next
  have hf : Frame v.visits pipe σ σ₁ := ((Frame.refl _ _ σ).setReg_own _ _).setCell_own _ _
  refine ⟨σ₁,reaches_block hown ?_,
    ⟨(hs.setReg _ _).setCell_other (by simp; omega) _,ht.frame hl.ok.regs hf,
      by simpa [σ₁] using htp,by simpa [σ₁] using hid,by simp [σ₁,next]⟩,hf⟩
  simp [leftOuterCode,whileLoopCondition,bb,reg,execBlock,Instr.exec,Expr.eval,hra,loadField,
    σ₁,next]

theorem incrLoop_reaches {b cur d : ℕ} (h : AtLeft env pipe v r b unknownId t sh σ)
    (hcur : sh.cell .curIdx = .word cur) (hd : sh.cell .dangling = .word d) :
    ∃ σ₁, Reaches (fn.step env) (.at (v.bb (.whileCondition 1)) σ)
        (.at (v.bb (if d = 1 then .concatQrl else .whileCondition 0)) σ₁) ∧
      AtLeft env pipe v r b unknownId t (sh.set .curIdx (.word (cur+1))) σ₁ ∧
      Frame v.visits pipe σ σ₁ := by
  obtain ⟨l,_,hown⟩ := hl.left_own h₁ he (.whileCondition 1) (by simp)
  have hpipe := hl.pipe_lt
  obtain rfl := hl.scan
  rw [← h.sim.cell _ rfl] at hcur hd
  have hlt : (σ.cell ⟨v.visits,.ridx⟩).icmpULT (σ.cell ⟨v.scan,.rhsAlloca⟩) = .bool false := by
    rw [h.ridx,h.sim.lt_rhsAlloca _ (Or.inr rfl)]
    simp [not_isId_unknownId]
  have hcond : Reaches (fn.step env) (.at (v.bb (.whileCondition 1)) σ)
      (.at (v.bb .incrLoop) σ) := by
    refine reaches_block hown ?_
    simp [leftOuterCode,whileLoopCondition,bb,cell,execBlock,Expr.eval,hlt]
  let σ₁ := (σ.setCell ⟨v.scan,.curIdx⟩ (.word (cur+1))).setReg ⟨v.visits,.dang⟩ (.word d)
  have hf : Frame v.visits v.scan σ σ₁ := ((Frame.refl _ _ σ).setCell_pipe _ _).setReg_own _ _
  have hs₁ : Sim v.scan σ₁ (sh.set .curIdx (.word (cur+1))) :=
    (h.sim.setCell_shared rfl _).setReg _ _
  refine ⟨σ₁,hcond.trans (reaches_block (hl.probe_own h₁ he _ (by simp)) ?_),
    ⟨hs₁,h.holds.frame hl.ok.regs hf,by simpa [σ₁] using h.tp,by simpa [σ₁] using h.rhsId,
      ?_⟩,hf⟩
  · by_cases hd₁ : d = 1
    all_goals
      simp [joinCode,whileLoopCondition,bb,cell,reg,hl.ok.prevBb_ne,execBlock,Instr.exec,
        Expr.eval,hcur,hd,hd₁,Val.add,Val.icmpEQ,σ₁]
  · have hne : v.visits ≠ v.scan := by omega
    simpa [σ₁,hne] using h.ridx

theorem leftConcat_reaches {b i : ℕ} (h : AtLeft env pipe v r b i t sh σ)
    (hu : readRes rhs.rhsType r = some u) :
    ∃ σ₁, Reaches (fn.step env) (.at (v.bb .concatQrl) σ) (.at (v.bb .consume) σ₁) ∧
      AtLeft env pipe v r b i t sh σ₁ ∧ σ₁.cell = σ.cell ∧ Frame v.visits pipe σ σ₁ ∧
      Holds env σ₁ v₁.regQueryResults (t ++ u ++ [(.cell ⟨pipe,.dangling⟩,7)]) := by
  obtain ⟨_,_,_,_,_,hregs,_⟩ := visitJoin_eq h₁
  obtain ⟨σ₁,hr₁,hs₁,hf₁,ht₁,hcell,hreg⟩ :=
    concatQrl_reaches hl h₁ he h.sim h.holds h.tp hu
  refine ⟨σ₁,hr₁ _ rfl,⟨hs₁,h.holds.frame hl.ok.regs hf₁,?_,?_,?_⟩,hcell,hf₁,?_⟩
  · rw [hreg _ (by simp),h.tp]
  · rw [hreg _ (by simp),h.rhsId]
  · rw [hcell,h.ridx]
  · rw [hregs,← hl.scan]
    exact List.rel_append ht₁ (.cons ⟨rfl,rfl⟩ .nil)

theorem undang_reaches {b i : ℕ} (h : AtLeft env pipe v r b i t sh σ) :
    ∃ σ₁, Reaches (fn.step env) (.at (v.bb .undang) σ) (.at (v.bb .concatQrl) σ₁) ∧
      AtLeft env pipe v r b i t (sh.set .dangling (.word 0)) σ₁ ∧
      σ₁.cell ⟨v.visits,.ra⟩ = σ.cell ⟨v.visits,.ra⟩ ∧ Frame v.visits pipe σ σ₁ := by
  obtain ⟨l,_,hown⟩ := hl.left_own h₁ he .undang (by simp)
  have hpipe := hl.pipe_lt
  obtain rfl := hl.scan
  let σ₁ := σ.setCell ⟨v.scan,.dangling⟩ (.word 0)
  have hf : Frame v.visits v.scan σ σ₁ := (Frame.refl _ _ σ).setCell_pipe _ _
  refine ⟨σ₁,reaches_block hown ?_,⟨h.sim.setCell_shared rfl _,h.holds.frame hl.ok.regs hf,
    h.tp,h.rhsId,by simpa [σ₁] using h.ridx⟩,by simp [σ₁],hf⟩
  simp [leftOuterCode,whileLoopCondition,bb,cell,execBlock,Instr.exec,Expr.eval,σ₁]

omit hl h₁ he in
theorem AtLeft.frame {b i : ℕ} {σ₁ : State} (h : AtLeft env pipe v r b i t sh σ) {sh₁ : Shared}
    (hregs : ∀ q ∈ v.regQueryResults, q.Below v.visits) (hpipe : pipe < v.visits)
    (hs : Sim pipe σ₁ sh₁) (hf : Frame (v.visits+1) pipe σ σ₁) :
    AtLeft env pipe v r b i t sh₁ σ₁ ∧ σ₁.cell ⟨v.visits,.ra⟩ = σ.cell ⟨v.visits,.ra⟩ := by
  have hcell : ∀ name, σ₁.cell ⟨v.visits,name⟩ = σ.cell ⟨v.visits,name⟩ :=
    fun name => hf.cell _ (Nat.lt_succ_self _) (by simp; omega)
  have hreg : ∀ name, σ₁.reg ⟨v.visits,name⟩ = σ.reg ⟨v.visits,name⟩ :=
    fun name => hf.reg _ (Nat.lt_succ_self _)
  exact ⟨⟨hs,h.holds.frame hregs (hf.mono (Nat.le_succ _)),(hreg _).trans h.tp,
    (hreg _).trans h.rhsId,(hcell _).trans h.ridx⟩,hcell _⟩

theorem handleRet_reaches {b i : ℕ} (h : AtLeft env pipe v r b i t sh σ) :
    ∃ σ₁, Reaches (fn.step env) (.at (v.bb .handleRet) σ)
        (.at (v.bb (if i < unknownId then .forEachNextRship else .whileCondition 0)) σ₁) ∧
      AtLeft env pipe v r b i t sh σ₁ ∧
      σ₁.cell ⟨v.visits,.ra⟩ = σ.cell ⟨v.visits,.ra⟩ ∧ Frame v.visits pipe σ σ₁ := by
  obtain ⟨l,_,hown⟩ := hl.left_own h₁ he .handleRet (by simp)
  let σ₁ := σ.setReg ⟨v.visits,.lh⟩ (.word i)
  have hf : Frame v.visits pipe σ σ₁ := (Frame.refl _ _ σ).setReg_own _ _
  refine ⟨σ₁,reaches_block hown ?_,⟨h.sim.setReg _ _,h.holds.frame hl.ok.regs hf,
    by simpa [σ₁] using h.tp,by simpa [σ₁] using h.rhsId,h.ridx⟩,rfl,hf⟩
  by_cases hi : i < unknownId
  all_goals
    simp [leftOuterCode,whileLoopCondition,bb,reg,execBlock,Instr.exec,Expr.eval,h.ridx,
      Val.icmpULT,hi,σ₁]

end LeftOuter
end GraphQueryCompiler
