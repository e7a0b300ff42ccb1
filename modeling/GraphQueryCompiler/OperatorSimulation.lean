import GraphQueryCompiler.Simulation

/-!
# Simulation of the operators without a loop over tuples

One lemma for each stretch of blocks between two points of the structured execution.
-/

namespace GraphQueryCompiler
open StepMachine CodegenInlineVisitor

variable {env : Env} {fn : Body} {pipe : ℕ} {σ : State} {sh : Shared} {j : JoinCtx}
  {inp : Plan} {opId : ℕ} {v v₁ v' : CodegenInlineVisitor} {t : Tuple}

section ForeachRship
variable {dir : RshipDir} {label : String}

theorem visitForeachRship_eq
    (h : (codegenInlineVisitor env.db).visit (.foreachRship dir (0,0) label inp) opId v =
      some v₁) :
    ∃ node, v.regQueryResults.getLast? = some node ∧
      v₁ = { v.emit (v.foreachRshipCode dir opId node.regVal) (v.bb .consumeRship) with
        regQueryResults := v.regQueryResults ++ [⟨.reg (v.reg .rship),1⟩]
        mainReturn := v.bb .nextRship } := by
  simp only [codegenInlineVisitor,visitForeachRship,Option.bind_eq_bind,
    Option.bind_eq_some_iff,Option.pure_def,Option.some.injEq] at h
  obtain ⟨node,hnode,rfl⟩ := h
  exact ⟨node,hnode,rfl⟩

structure AtRships (env : Env) (pipe : ℕ) (v : CodegenInlineVisitor) (code i : ℕ) (t : Tuple)
    (sh : Shared) (σ : State) : Prop where
  sim : Sim pipe σ sh
  holds : Holds env σ v.regQueryResults t
  labelCode : σ.reg ⟨v.visits,.labelCode⟩ = .word code
  lhs : σ.cell ⟨pipe,.lhsAlloca⟩ = .word i

theorem loadField_rshipIdx (g : GraphDb) (n : ℕ) :
    loadField g (.node n) (rshipIdx dir).1 = .word ((g.nodeById n).rshipList dir) := by
  cases dir <;> rfl

theorem loadField_nextRship (g : GraphDb) (r : ℕ) :
    loadField g (.rship r) (rshipIdx dir).2 = .word ((g.rshipById r).nextRship dir) := by
  cases dir <;> rfl

theorem feEntry_reaches
    (hl : Located fn env.db pipe j (.foreachRship dir (0,0) label inp) opId v v')
    (h₁ : (codegenInlineVisitor env.db).visit (.foreachRship dir (0,0) label inp) opId v =
      some v₁) (he : Extends v₁ v') (hs : Sim pipe σ sh)
    (ht : Holds env σ v.regQueryResults t) {n type : ℕ}
    (hlast : t.getLast? = some (.node n,type)) :
    ∃ σ₁, Reaches (fn.step env) (.at (v.bb .feEntry) σ) (.at (v.bb (.whileCondition 0)) σ₁) ∧
      AtRships env pipe v (env.db.argLabel env.args opId) ((env.db.nodeById n).rshipList dir) t
        sh σ₁ ∧ Frame v.visits pipe σ σ₁ := by
  obtain ⟨node,hnode,rfl⟩ := visitForeachRship_eq h₁
  obtain ⟨_,hnode',hval,_⟩ := ht.getLast? hlast
  obtain rfl := Option.some.inj (hnode.symm.trans hnode')
  have hb : node.Below v.visits := hl.ok.regs _ (List.mem_of_getLast? hnode)
  obtain rfl := hl.scan
  let list : Val := .word ((env.db.nodeById n).rshipList dir)
  let σ₁ := (((σ.setCell (v.cell .rhsAlloca) (.word unknownRelId)).setReg (v.reg .labelCode)
    (.word (env.db.argLabel env.args opId))).setReg (v.reg .nodeRshipId) list).setCell
    (v.cell .lhsAlloca) list
  have hf : Frame v.visits v.scan σ σ₁ :=
    ((((Frame.refl _ _ σ).setCell_pipe _ _).setReg_own _ _).setReg_own _ _).setCell_pipe _ _
  have hs₁ : Sim v.scan σ₁ sh :=
    ((hs.setCell_rhsAlloca.setReg _ _).setReg _ _).setCell_scratch rfl _
  refine ⟨σ₁,reaches_block (hl.own h₁ he rfl (by simp [emit,bb])) ?_,
    ⟨hs₁,ht.frame hl.ok.regs hf,by simp [σ₁,reg],by simp [σ₁,cell,list]⟩,hf⟩
  simp [foreachRshipCode,whileLoopCondition,bb,hl.ok.prevBb_ne,feEntry,execBlock,Instr.exec,
    Expr.eval,reg,cell,hb.eval_setReg,hb.eval_setCell,hval,loadField_rshipIdx,σ₁,list]

theorem rships_reaches_check
    (hl : Located fn env.db pipe j (.foreachRship dir (0,0) label inp) opId v v')
    (h₁ : (codegenInlineVisitor env.db).visit (.foreachRship dir (0,0) label inp) opId v =
      some v₁) (he : Extends v₁ v') {code i : ℕ} (h : AtRships env pipe v code i t sh σ)
    (hi : IsId i) :
    ∃ σ₁, Reaches (fn.step env) (.at (v.bb (.whileCondition 0)) σ)
        (.at (v.bb (if (env.db.rshipById i).rshipLabel = code then .consumeRship
          else .nextRship)) σ₁) ∧
      AtRships env pipe v code i t sh σ₁ ∧ σ₁.reg (v.reg .rship) = .rship i ∧
      Frame v.visits pipe σ σ₁ := by
  obtain ⟨node,hnode,rfl⟩ := visitForeachRship_eq h₁
  obtain rfl := hl.scan
  have hlt : (σ.cell ⟨v.scan,.lhsAlloca⟩).icmpULT (σ.cell ⟨v.scan,.rhsAlloca⟩) = .bool true := by
    rw [h.lhs,h.sim.lt_rhsAlloca i (Or.inl hi)]
    simp [hi]
  let σ₁ := (σ.setReg (v.reg .lhs) (.word i)).setReg (v.reg .rship) (.rship i)
  have hf : Frame v.visits v.scan σ σ₁ :=
    ((Frame.refl _ _ σ).setReg_own _ _).setReg_own _ _
  have hcond : Reaches (fn.step env) (.at (v.bb (.whileCondition 0)) σ)
      (.at (v.bb (.whileBody 0)) σ) := by
    refine reaches_block (hl.own h₁ he rfl (by simp [emit,bb])) ?_
    simp [foreachRshipCode,whileLoopCondition,bb,hl.ok.prevBb_ne,execBlock,Expr.eval,cell,hlt]
  refine ⟨σ₁,hcond.trans (reaches_block (hl.own h₁ he rfl (by simp [emit,bb])) ?_),
    ⟨(h.sim.setReg _ _).setReg _ _,h.holds.frame hl.ok.regs hf,?_,h.lhs⟩,by simp [σ₁],hf⟩
  · by_cases hc : (env.db.rshipById i).rshipLabel = code
    all_goals
      simp [foreachRshipCode,whileLoopCondition,bb,hl.ok.prevBb_ne,execBlock,Instr.exec,
        Expr.eval,reg,cell,h.lhs,h.labelCode,rshipCmpLabel,loadField,Val.icmpEQ,hc,σ₁]
  · simpa [σ₁,reg] using h.labelCode

theorem nextRship_reaches
    (hl : Located fn env.db pipe j (.foreachRship dir (0,0) label inp) opId v v')
    (h₁ : (codegenInlineVisitor env.db).visit (.foreachRship dir (0,0) label inp) opId v =
      some v₁) (he : Extends v₁ v') {code i : ℕ} (hs : Sim pipe σ sh)
    (ht : Holds env σ v.regQueryResults t) (hcode : σ.reg ⟨v.visits,.labelCode⟩ = .word code)
    (hr : σ.reg (v.reg .rship) = .rship i) :
    ∃ σ₁, Reaches (fn.step env) (.at (v.bb .nextRship) σ) (.at (v.bb (.whileCondition 0)) σ₁) ∧
      AtRships env pipe v code ((env.db.rshipById i).nextRship dir) t sh σ₁ ∧
      Frame v.visits pipe σ σ₁ := by
  obtain ⟨node,hnode,rfl⟩ := visitForeachRship_eq h₁
  obtain rfl := hl.scan
  let next : Val := .word ((env.db.rshipById i).nextRship dir)
  let σ₁ := (σ.setReg (v.reg .nextRshipId) next).setCell (v.cell .lhsAlloca) next
  have hf : Frame v.visits v.scan σ σ₁ :=
    ((Frame.refl _ _ σ).setReg_own _ _).setCell_pipe _ _
  refine ⟨σ₁,reaches_block (hl.own h₁ he rfl (by simp [emit,bb])) ?_,
    ⟨(hs.setReg _ _).setCell_scratch rfl _,ht.frame hl.ok.regs hf,?_,?_⟩,hf⟩
  · rw [reg] at hr
    simp [foreachRshipCode,whileLoopCondition,bb,hl.ok.prevBb_ne,execBlock,Instr.exec,
      Expr.eval,reg,cell,hr,loadField_nextRship,σ₁,next]
  · simpa [σ₁,reg] using hcode
  · simp [σ₁,cell,next]

theorem foreachRelEnd_completes
    (hl : Located fn env.db pipe j (.foreachRship dir (0,0) label inp) opId v v')
    (h₁ : (codegenInlineVisitor env.db).visit (.foreachRship dir (0,0) label inp) opId v =
      some v₁) (he : Extends v₁ v') {code : ℕ} (h : AtRships env pipe v code unknownId t sh σ) :
    Completes env fn pipe v (v.bb (.whileCondition 0)) σ .backflow sh := by
  obtain ⟨node,hnode,rfl⟩ := visitForeachRship_eq h₁
  obtain rfl := hl.scan
  have hlt : (σ.cell ⟨v.scan,.lhsAlloca⟩).icmpULT (σ.cell ⟨v.scan,.rhsAlloca⟩) = .bool false := by
    rw [h.lhs,h.sim.lt_rhsAlloca _ (Or.inr rfl)]
    simp [not_isId_unknownId]
  have hcond : Reaches (fn.step env) (.at (v.bb (.whileCondition 0)) σ)
      (.at (v.bb .foreachRelEnd) σ) := by
    refine reaches_block (hl.own h₁ he rfl (by simp [emit,bb])) ?_
    simp [foreachRshipCode,whileLoopCondition,bb,hl.ok.prevBb_ne,execBlock,Expr.eval,cell,hlt]
  refine .of_reaches (hcond.trans (reaches_block (hl.own h₁ he rfl (by simp [emit,bb])) ?_))
    (Frame.refl _ _ _) (.here h.sim)
  simp [foreachRshipCode,whileLoopCondition,bb,hl.ok.prevBb_ne,execBlock,exit]

end ForeachRship
section Expand
variable {exp : ExpandDir} {label : String}

theorem visitExpand_eq
    (h : (codegenInlineVisitor env.db).visit (.expand exp label inp) opId v = some v₁) :
    ∃ rship, v.regQueryResults.getLast? = some rship ∧
      v₁ = { v.emit (v.expandCode exp label opId rship.regVal) (v.bb .expandConsume) with
        regQueryResults := v.regQueryResults ++ [⟨.reg (v.reg .node),0⟩] } := by
  simp only [codegenInlineVisitor,visitExpand,Option.bind_eq_bind,Option.bind_eq_some_iff,
    Option.pure_def,Option.some.injEq] at h
  obtain ⟨rship,hrship,rfl⟩ := h
  exact ⟨rship,hrship,rfl⟩

theorem loadField_expId (g : GraphDb) (r : ℕ) :
    loadField g (.rship r) (expId exp) = .word ((g.rshipById r).endpoint exp) := by
  cases exp <;> rfl

theorem expandEntry_reaches (hl : Located fn env.db pipe j (.expand exp label inp) opId v v')
    (h₁ : (codegenInlineVisitor env.db).visit (.expand exp label inp) opId v = some v₁)
    (he : Extends v₁ v') (hs : Sim pipe σ sh) (ht : Holds env σ v.regQueryResults t)
    {r type : ℕ} (hlast : t.getLast? = some (.rship r,type)) :
    ∃ σ₁, Reaches (fn.step env) (.at (v.bb .expandEntry) σ)
        (.at (v.bb (if label ≠ "" →
            (env.db.nodeById ((env.db.rshipById r).endpoint exp)).nodeLabel =
              env.db.argLabel env.args opId then .expandConsume else .expandFalse)) σ₁) ∧
      Sim pipe σ₁ sh ∧ Frame v.visits pipe σ σ₁ ∧
      Holds env σ₁ v₁.regQueryResults
        (t ++ [(.node ((env.db.rshipById r).endpoint exp),0)]) := by
  obtain ⟨rship,hrship,rfl⟩ := visitExpand_eq h₁
  obtain ⟨_,hrship',hval,_⟩ := ht.getLast? hlast
  obtain rfl := Option.some.inj (hrship.symm.trans hrship')
  have hb : rship.Below v.visits := hl.ok.regs _ (List.mem_of_getLast? hrship)
  let n := (env.db.rshipById r).endpoint exp
  let σ₁ := (σ.setReg (v.reg .toNode) (.word n)).setReg (v.reg .node) (.node n)
  let σ₂ := σ₁.setReg (v.reg .labelCode) (.word (env.db.argLabel env.args opId))
  have hf₁ : Frame v.visits pipe σ σ₁ := ((Frame.refl _ _ σ).setReg_own _ _).setReg_own _ _
  have hf₂ : Frame v.visits pipe σ σ₂ := hf₁.setReg_own _ _
  have hs₁ : Sim pipe σ₁ sh := (hs.setReg _ _).setReg _ _
  by_cases hlabel : label = ""
  · subst hlabel
    refine ⟨σ₁,reaches_block (hl.own h₁ he rfl (by simp [emit,bb])) ?_,hs₁,hf₁,
      (ht.frame hl.ok.regs hf₁).concat (by simp [Expr.eval,σ₁,n])⟩
    simp [expandCode,bb,hl.ok.prevBb_ne,execBlock,Instr.exec,Expr.eval,reg,
      hval,loadField_expId,Val.isNull,σ₁,n]
  · have hentry : Reaches (fn.step env) (.at (v.bb .expandEntry) σ)
        (.at (v.bb .checkLabel) σ₂) := by
      refine reaches_block (hl.own h₁ he rfl (by simp [emit,bb])) ?_
      simp [expandCode,bb,hl.ok.prevBb_ne,execBlock,Instr.exec,Expr.eval,reg,
        hval,loadField_expId,Val.isNull,hlabel,σ₁,σ₂,n]
    refine ⟨σ₂,hentry.trans (reaches_block (hl.own h₁ he rfl (by simp [emit,bb])) ?_),
      hs₁.setReg _ _,hf₂,
      (ht.frame hl.ok.regs hf₂).concat (by simp [Expr.eval,σ₁,σ₂,reg,n])⟩
    by_cases hc : (env.db.nodeById n).nodeLabel = env.db.argLabel env.args opId
    all_goals
      simp [expandCode,bb,hl.ok.prevBb_ne,execBlock,Expr.eval,reg,nodeCmpLabel,loadField,
        Val.icmpEQ,hlabel,hc,σ₁,σ₂,n]

theorem expandFalse_completes (hl : Located fn env.db pipe j (.expand exp label inp) opId v v')
    (h₁ : (codegenInlineVisitor env.db).visit (.expand exp label inp) opId v = some v₁)
    (he : Extends v₁ v') (hs : Sim pipe σ sh) :
    Completes env fn pipe v (v.bb .expandFalse) σ .backflow sh := by
  obtain ⟨rship,hrship,rfl⟩ := visitExpand_eq h₁
  refine .of_reaches (reaches_block (hl.own h₁ he rfl (by simp [emit,bb])) ?_)
    (Frame.refl _ _ _) (.here hs)
  by_cases hlabel : label = ""
  all_goals simp [expandCode,bb,hl.ok.prevBb_ne,execBlock,exit,hlabel]

end Expand

section Limit
variable {n : ℤ}

theorem limitReached_completes (hl : Located fn env.db pipe j (.limit n inp) opId v v')
    (h₁ : (codegenInlineVisitor env.db).visit (.limit n inp) opId v = some v₁)
    (he : Extends v₁ v') (hs : Sim pipe σ sh)
    (hc : sh.cell .resCounter = .word (limitConst n)) :
    Completes env fn pipe v (v.bb .limitEntry) σ .limit sh := by
  obtain rfl := Option.some.inj h₁
  obtain rfl := hl.scan
  rw [← hs.cell _ rfl] at hc
  let σ₁ := σ.setReg (v.reg .curCnt) (.word (limitConst n))
  have hentry : Reaches (fn.step env) (.at (v.bb .limitEntry) σ)
      (.at (v.bb .limitReached) σ₁) := by
    refine reaches_block (hl.own h₁ he rfl (by simp [visitLimit,emit,bb])) ?_
    simp [bb,hl.ok.prevBb_ne,execBlock,Instr.exec,Expr.eval,reg,cell,hc,Val.icmpEQ,σ₁]
  have hf : Frame v.visits v.scan σ σ₁ := (Frame.refl _ _ σ).setReg_own _ _
  have hs₁ : Sim v.scan σ₁ sh := hs.setReg _ _
  refine .of_reaches (hentry.trans
    (reaches_block (hl.own h₁ he rfl (by simp [visitLimit,emit,bb])) ?_)) hf (.here hs₁)
  simp [bb,hl.ok.prevBb_ne,execBlock,exit]

theorem limitCont_reaches (hl : Located fn env.db pipe j (.limit n inp) opId v v')
    (h₁ : (codegenInlineVisitor env.db).visit (.limit n inp) opId v = some v₁)
    (he : Extends v₁ v') (hs : Sim pipe σ sh) {c : ℕ}
    (hc : sh.cell .resCounter = .word c) (hne : c ≠ limitConst n)
    {next : Label} (hopen : fn v₁.prevBb = v₁.code.body v₁.prevBb ++ [.br next]) :
    ∃ σ₁, Reaches (fn.step env) (.at (v.bb .limitEntry) σ) (.at next σ₁) ∧
      Sim pipe σ₁ (sh.set .resCounter (.word (c+1))) ∧ Frame v.visits pipe σ σ₁ := by
  obtain rfl := Option.some.inj h₁
  obtain rfl := hl.scan
  rw [← hs.cell _ rfl] at hc
  let σ₁ := σ.setReg (v.reg .curCnt) (.word c)
  let σ₂ := σ₁.setCell (v.cell .resCounter) (.word (c+1))
  have hentry : Reaches (fn.step env) (.at (v.bb .limitEntry) σ) (.at (v.bb .limitCont) σ₁) := by
    refine reaches_block (hl.own h₁ he rfl (by simp [visitLimit,emit,bb])) ?_
    simp [bb,hl.ok.prevBb_ne,execBlock,Instr.exec,Expr.eval,reg,cell,hc,hne,Val.icmpEQ,σ₁]
  refine ⟨σ₂,hentry.trans (reaches_block hopen ?_),(hs.setReg _ _).setCell_shared rfl _,
    ((Frame.refl _ _ σ).setReg_own _ _).setCell_pipe _ _⟩
  simp [visitLimit,emit,bb,hl.ok.prevBb_ne,hl.ok.body_nil,execBlock,Instr.exec,Expr.eval,reg,
    cell,Val.add,σ₁,σ₂]

end Limit

section Leaves

theorem Expr.eval_congr {σ₁ : State} (hreg : σ₁.reg = σ.reg) (hcell : σ₁.cell = σ.cell)
    (e : Expr) : e.eval env σ₁ = e.eval env σ := by
  induction e with
  | const | bool | addr | argWord => rfl
  | reg r => exact congrFun hreg r
  | cell c => exact congrFun hcell c
  | field e i ih | isNull e ih => simp only [Expr.eval,ih]
  | itemAt a b iha ihb | icmpEQ a b iha ihb | icmpULT a b iha ihb | icmpULE a b iha ihb
  | add a b iha ihb | and a b iha ihb | or a b iha ihb => simp only [Expr.eval,iha,ihb]

theorem Sim.matRegVal_eq (hs : Sim pipe σ sh) {x : Val} {type : ℕ} {q : QrVal}
    (h : sh.matRegVal pipe x type = some q) : matRegVal σ x type = some q := by
  unfold Shared.matRegVal at h
  split at h
  · exact h
  · exact h
  · next c n =>
    split_ifs at h with hc
    obtain ⟨rfl,hshared⟩ := hc
    rw [← hs.cell _ hshared] at h
    exact h
  · simp at h

theorem execBlock_matRegValue {regs : List QrValue} {q : List QrVal} (rest : List Instr)
    (hs : Sim pipe σ sh) (ht : Holds env σ regs t) (hq : sh.row pipe t = some q) (tp : List QrVal) :
    execBlock env ((regs.map fun res =>
        .matRegValue res.regVal (if res.type = 7 then 2 else res.type)) ++ rest)
        { σ with tp := tp } =
      execBlock env rest { σ with tp := tp ++ q } := by
  unfold Holds at ht
  unfold Shared.row at hq
  induction ht generalizing tp q with
  | nil =>
    obtain rfl : q = [] := by simpa using hq.symm
    simp
  | @cons r x regs t hx _ ih =>
    obtain ⟨hval,htype⟩ := hx
    rw [List.mapM_cons] at hq
    simp only [Option.bind_eq_bind,Option.bind_eq_some_iff,Option.pure_def,
      Option.some.injEq] at hq
    obtain ⟨y,hy,ys,hys,rfl⟩ := hq
    have hy' : matRegVal { σ with tp := tp } x.1 (if r.type = 7 then 2 else r.type) = some y := by
      rw [htype]
      exact hs.matRegVal_eq hy
    have hsame : r.regVal.eval env { σ with tp := tp } = r.regVal.eval env σ := by
      apply Expr.eval_congr <;> rfl
    have heval := hsame.trans hval
    simp only [List.map_cons,List.cons_append,execBlock,Instr.exec,heval,hy',Option.map_some,
      Option.bind_some]
    rw [ih hys,List.append_assoc]
    rfl

theorem execBlock_matEntry {regs : List QrValue} {q : List QrVal} (rest : List Instr)
    (ht : Holds env σ regs t) (hq : t.mapM matEntry = some q) (mt : List QrVal) :
    execBlock env ((regs.map fun res =>
        if res.type = 0 then .matNode res.regVal else .matRship res.regVal) ++ rest)
        { σ with matTuple := mt } =
      execBlock env rest { σ with matTuple := mt ++ q } := by
  unfold Holds at ht
  induction ht generalizing mt q with
  | nil =>
    obtain rfl : q = [] := by simpa using hq.symm
    simp
  | @cons r x regs t hx _ ih =>
    obtain ⟨hval,htype⟩ := hx
    rw [List.mapM_cons] at hq
    simp only [Option.bind_eq_bind,Option.bind_eq_some_iff,Option.pure_def,
      Option.some.injEq] at hq
    obtain ⟨y,hy,ys,hys,rfl⟩ := hq
    have hsame : r.regVal.eval env { σ with matTuple := mt } = r.regVal.eval env σ := by
      apply Expr.eval_congr <;> rfl
    have heval := hsame.trans hval
    have hone : execBlock env ((if r.type = 0 then .matNode r.regVal else .matRship r.regVal) ::
        ((regs.map fun res =>
          if res.type = 0 then .matNode res.regVal else .matRship res.regVal) ++ rest))
        { σ with matTuple := mt } =
        execBlock env ((regs.map fun res =>
          if res.type = 0 then .matNode res.regVal else .matRship res.regVal) ++ rest)
        { σ with matTuple := mt ++ [y] } := by
      rw [htype]
      unfold matEntry at hy
      split at hy <;> simp_all [execBlock,Instr.exec]
    rw [List.map_cons,List.cons_append,hone,ih hys,List.append_assoc]
    rfl

theorem collect_completes {print : Bool} {q : List QrVal}
    (hl : Located fn env.db pipe j (.collect print) opId v v') (hs : Sim pipe σ sh)
    (ht : Holds env σ v.regQueryResults t) (hq : sh.row pipe t = some q) :
    Completes env fn pipe v (v.bb .collectEntry) σ .backflow (sh.collect q) := by
  obtain ⟨_,hgen⟩ := hl.gen
  obtain ⟨v₁,h₁,he,_⟩ := codegen_visit hgen
  obtain rfl := Option.some.inj h₁
  have hne : v.bb .collectEntry ≠ v.visitCollect.prevBb := (hl.ok.prevBb_ne _).symm
  let σ₁ : State := { σ.emit (.collect q) with tp := [] }
  have hs₁ : Sim pipe σ₁ (sh.collect q) :=
    ⟨hs.cell,hs.maxCnt,hs.rhsAlloca,rfl,hs.matTuple,hs.rhsInput,
      congrArg (· ++ [Event.collect q]) hs.trace⟩
  have hf : Frame v.visits pipe σ σ₁ := ⟨fun _ _ => rfl,fun _ _ _ => rfl,rfl⟩
  refine .of_reaches (reaches_block (hl.own h₁ he rfl hne) ?_) hf (.here hs₁)
  have hrow := execBlock_matRegValue [.collectTuple,.br v.mainReturn] hs ht hq []
  have hσ : ({ σ with tp := [] } : State) = σ := by rw [← hs.tp]
  rw [hσ] at hrow
  simp only [Code.body_cons,Code.body_nil,bb,hl.ok.prevBb_ne,if_false,if_true,List.nil_append,
    List.append_nil]
  rw [hrow]
  simp [execBlock,Instr.exec,State.emit,exit,σ₁]

theorem endOp_completes {jid : ℕ} {q : List QrVal}
    (hl : Located fn env.db pipe j .endOp opId v v') (hs : Sim pipe σ sh)
    (ht : Holds env σ v.regQueryResults t) (hj : j.jids.head? = some jid)
    (hq : t.mapM matEntry = some q) :
    Completes env fn pipe v (v.bb .entryJoinRhs) σ .backflow (sh.materialize jid q) := by
  obtain ⟨_,hgen⟩ := hl.gen
  obtain ⟨v₁,h₁,he,_⟩ := codegen_visit hgen
  have hjids : ∃ js, v.jids = jid :: js := by
    rw [← hl.joinCtx] at hj
    exact List.head?_eq_some_iff.1 hj
  obtain ⟨js,hjs⟩ := hjids
  have h₂ := h₁
  simp only [codegenInlineVisitor,visitEnd,hjs,Option.some.injEq] at h₂
  subst h₂
  let σ₁ : State := { σ.emit (.materialize jid q) with
    rhsInput := fun i => if i = jid then σ.rhsInput i ++ [q] else σ.rhsInput i }
  have hs₁ : Sim pipe σ₁ (sh.materialize jid q) := by
    refine ⟨hs.cell,hs.maxCnt,hs.rhsAlloca,hs.tp,hs.matTuple,?_,
      congrArg (· ++ [Event.materialize jid q]) hs.trace⟩
    simp only [σ₁,Shared.materialize,hs.rhsInput]
  have hf : Frame v.visits pipe σ σ₁ := ⟨fun _ _ => rfl,fun _ _ _ => rfl,rfl⟩
  refine .of_reaches (reaches_block (hl.own h₁ he rfl (hl.ok.prevBb_ne _).symm) ?_) hf (.here hs₁)
  have hrow := execBlock_matEntry [.collectTupleJoin jid,.br v.mainReturn] ht hq []
  have hσ : ({ σ with matTuple := [] } : State) = σ := by rw [← hs.matTuple]
  rw [hσ] at hrow
  simp only [Code.body_cons,Code.body_nil,bb,hl.ok.prevBb_ne,if_false,if_true,List.nil_append,
    List.append_nil]
  rw [hrow]
  simp [execBlock,Instr.exec,State.emit,exit,σ₁,hs.matTuple]

end Leaves

end GraphQueryCompiler
