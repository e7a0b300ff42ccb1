import GraphQueryCompiler.PipelineSemantics

/-!
# From blocks to structured execution

`Sim` relates a machine state to the shared state of a pipeline, `Frame` says what the code
of visits from `k` on leaves alone. Both survive every store of the emitted code, so the
blocks of an operator can be followed one by one.
-/

namespace GraphQueryCompiler
open StepMachine

def CellName.IsScratch : CellName → Bool
  | .lhsAlloca => true
  | .curPset => true
  | .plistId => true
  | .loopCnt => true
  | .crossJoinIdx => true
  | .ra => true
  | .ridx => true
  | .cmpRes _ => true
  | _ => false

theorem CellName.ne_scratch {c d : CellName} (h : c.IsScratch) (hd : d.IsScratch = false) :
    d ≠ c := by
  rintro rfl
  rw [hd] at h
  exact absurd h (by simp)

theorem CellName.IsShared.not_scratch : ∀ {c : CellName}, c.IsShared → c.IsScratch = false := by
  intro c hc
  cases c <;> first | rfl | exact absurd hc (by simp [IsShared])

structure Sim (pipe : ℕ) (σ : State) (sh : Shared) : Prop where
  cell : ∀ c : CellName, c.IsShared → σ.cell ⟨pipe,c⟩ = sh.cell c
  maxCnt : σ.cell ⟨pipe,.maxCnt⟩ = .word 3
  rhsAlloca : ∃ u, (u = unknownId ∨ u = unknownRelId) ∧ σ.cell ⟨pipe,.rhsAlloca⟩ = .word u
  tp : σ.tp = []
  matTuple : σ.matTuple = []
  rhsInput : σ.rhsInput = sh.rhsInput
  trace : σ.trace = sh.trace

structure Frame (k pipe : ℕ) (σ σ' : State) : Prop where
  reg : ∀ r : Reg, r.visit < k → σ'.reg r = σ.reg r
  cell : ∀ c : Cell, c.owner < k → c.owner ≠ pipe → σ'.cell c = σ.cell c
  iters : σ'.iters = σ.iters

def Holds (env : Env) (σ : State) (regs : List QrValue) (t : Tuple) : Prop :=
  List.Forall₂ (fun q x => q.regVal.eval env σ = x.1 ∧ q.type = x.2) regs t

variable {env : Env} {fn : Body} {pipe k k' : ℕ} {σ σ₁ σ₂ : State} {sh sh' : Shared}
  {regs : List QrValue} {t : Tuple}

namespace Sim

theorem setReg (h : Sim pipe σ sh) (r : Reg) (x : Val) : Sim pipe (σ.setReg r x) sh :=
  ⟨h.cell,h.maxCnt,h.rhsAlloca,h.tp,h.matTuple,h.rhsInput,h.trace⟩

theorem setCell_other (h : Sim pipe σ sh) {c : Cell} (hc : c.owner ≠ pipe) (x : Val) :
    Sim pipe (σ.setCell c x) sh := by
  have hne : ∀ d, (⟨pipe,d⟩ : Cell) ≠ c := by rintro d rfl; exact hc rfl
  refine ⟨?_,?_,?_,h.tp,h.matTuple,h.rhsInput,h.trace⟩
  · intro d hd
    rw [State.setCell_cell,if_neg (hne d),h.cell d hd]
  · rw [State.setCell_cell,if_neg (hne _),h.maxCnt]
  · rw [State.setCell_cell,if_neg (hne _)]
    exact h.rhsAlloca

theorem setCell_scratch (h : Sim pipe σ sh) {c : CellName} (hc : c.IsScratch) (x : Val) :
    Sim pipe (σ.setCell ⟨pipe,c⟩ x) sh := by
  have hne : ∀ d, d ≠ c → (⟨pipe,d⟩ : Cell) ≠ ⟨pipe,c⟩ := fun d hd he => hd (Cell.mk.inj he).2
  refine ⟨?_,?_,?_,h.tp,h.matTuple,h.rhsInput,h.trace⟩
  · intro d hd
    rw [State.setCell_cell,if_neg (hne d (CellName.ne_scratch hc
      (CellName.IsShared.not_scratch hd))),h.cell d hd]
  · rw [State.setCell_cell,if_neg (hne _ (CellName.ne_scratch hc rfl)),h.maxCnt]
  · rw [State.setCell_cell,if_neg (hne _ (CellName.ne_scratch hc rfl))]
    exact h.rhsAlloca

theorem setCell_shared (h : Sim pipe σ sh) {c : CellName} (hc : c.IsShared) (x : Val) :
    Sim pipe (σ.setCell ⟨pipe,c⟩ x) (sh.set c x) := by
  refine ⟨?_,?_,?_,h.tp,h.matTuple,h.rhsInput,h.trace⟩
  · intro d hd
    simp only [State.setCell_cell,Shared.set,Cell.mk.injEq,true_and]
    split_ifs
    · rfl
    · exact h.cell d hd
  · rw [State.setCell_cell,if_neg]
    · exact h.maxCnt
    · rintro he
      obtain rfl := (Cell.mk.inj he).2
      exact absurd hc (by simp [CellName.IsShared])
  · rw [State.setCell_cell,if_neg]
    · exact h.rhsAlloca
    · rintro he
      obtain rfl := (Cell.mk.inj he).2
      exact absurd hc (by simp [CellName.IsShared])

theorem setCell_rhsAlloca (h : Sim pipe σ sh) :
    Sim pipe (σ.setCell ⟨pipe,.rhsAlloca⟩ (.word unknownRelId)) sh := by
  refine ⟨?_,?_,⟨unknownRelId,Or.inr rfl,by simp⟩,h.tp,h.matTuple,h.rhsInput,h.trace⟩
  · intro d hd
    rw [State.setCell_cell,if_neg]
    · exact h.cell d hd
    · rintro he
      obtain rfl := (Cell.mk.inj he).2
      exact absurd hd (by simp [CellName.IsShared])
  · simpa using h.maxCnt

theorem lt_rhsAlloca (h : Sim pipe σ sh) (i : ℕ) (hi : IsId i ∨ i = unknownId) :
    Val.icmpULT (.word i) (σ.cell ⟨pipe,.rhsAlloca⟩) = .bool (decide (IsId i)) := by
  obtain ⟨u,hu,hcell⟩ := h.rhsAlloca
  rw [hcell]
  simp only [Val.icmpULT,Val.bool.injEq,decide_eq_decide]
  unfold IsId unknownId unknownRelId at *
  omega

end Sim

namespace Frame

theorem refl (k pipe : ℕ) (σ : State) : Frame k pipe σ σ :=
  ⟨fun _ _ => rfl,fun _ _ _ => rfl,rfl⟩

theorem trans (h₁ : Frame k pipe σ σ₁) (h₂ : Frame k pipe σ₁ σ₂) : Frame k pipe σ σ₂ :=
  ⟨fun r hr => (h₂.reg r hr).trans (h₁.reg r hr),
   fun c hc hp => (h₂.cell c hc hp).trans (h₁.cell c hc hp),h₂.iters.trans h₁.iters⟩

theorem mono (h : Frame k' pipe σ σ₁) (hk : k ≤ k') : Frame k pipe σ σ₁ :=
  ⟨fun r hr => h.reg r (lt_of_lt_of_le hr hk),
   fun c hc hp => h.cell c (lt_of_lt_of_le hc hk) hp,h.iters⟩

theorem setReg (h : Frame k pipe σ σ₁) {r : Reg} (hr : k ≤ r.visit) (x : Val) :
    Frame k pipe σ (σ₁.setReg r x) := by
  refine ⟨fun r' hr' => ?_,h.cell,h.iters⟩
  rw [State.setReg_reg,if_neg (by rintro rfl; omega),h.reg r' hr']

theorem setCell (h : Frame k pipe σ σ₁) {c : Cell} (hc : c.owner = pipe ∨ k ≤ c.owner) (x : Val) :
    Frame k pipe σ (σ₁.setCell c x) := by
  refine ⟨h.reg,fun c' hc' hp => ?_,h.iters⟩
  rw [State.setCell_cell,if_neg,h.cell c' hc' hp]
  rintro rfl
  omega

theorem setReg_own (h : Frame k pipe σ σ₁) (r : RegName) (x : Val) :
    Frame k pipe σ (σ₁.setReg ⟨k,r⟩ x) := h.setReg (le_refl k) x

theorem setCell_pipe (h : Frame k pipe σ σ₁) (c : CellName) (x : Val) :
    Frame k pipe σ (σ₁.setCell ⟨pipe,c⟩ x) := h.setCell (Or.inl rfl) x

theorem setCell_own (h : Frame k pipe σ σ₁) (c : CellName) (x : Val) :
    Frame k pipe σ (σ₁.setCell ⟨k,c⟩ x) := h.setCell (Or.inr (le_refl k)) x

end Frame

section Below
variable {q : QrValue} (hq : q.Below k)
include hq

theorem QrValue.Below.eval_frame (h : Frame k pipe σ σ₁) :
    q.regVal.eval env σ₁ = q.regVal.eval env σ := by
  unfold QrValue.Below at hq
  split at hq
  · next r hr => rw [hr]; exact h.reg r hq
  · next c hc => rw [hc]; rfl
  · exact absurd hq id

theorem QrValue.Below.eval_setReg (r : RegName) (x : Val) :
    q.regVal.eval env (σ.setReg ⟨k,r⟩ x) = q.regVal.eval env σ :=
  hq.eval_frame ((Frame.refl k 0 σ).setReg (r := ⟨k,r⟩) (le_refl k) x)

theorem QrValue.Below.eval_setCell (c : Cell) (x : Val) :
    q.regVal.eval env (σ.setCell c x) = q.regVal.eval env σ :=
  hq.eval_frame ((Frame.refl _ _ σ).setCell (Or.inl rfl) x)

end Below

theorem Holds.frame (h : Holds env σ regs t) (hregs : ∀ q ∈ regs, q.Below k)
    (hf : Frame k pipe σ σ₁) : Holds env σ₁ regs t := by
  unfold Holds at *
  induction h with
  | nil => exact .nil
  | @cons q x regs t hx _ ih =>
    obtain ⟨hq,hregs⟩ := List.forall_mem_cons.1 hregs
    exact .cons ⟨(hq.eval_frame hf).trans hx.1,hx.2⟩ (ih hregs)

theorem Holds.getElem? (h : Holds env σ regs t) {i : ℕ} {x : Val × ℕ} (hx : t[i]? = some x) :
    ∃ q, regs[i]? = some q ∧ q.regVal.eval env σ = x.1 ∧ q.type = x.2 := by
  obtain ⟨hi,rfl⟩ := List.getElem?_eq_some_iff.1 hx
  have hi' : i < regs.length := h.length_eq ▸ hi
  exact ⟨regs[i],List.getElem?_eq_getElem hi',h.get hi' hi⟩

theorem Holds.getLast? (h : Holds env σ regs t) {x : Val × ℕ} (hx : t.getLast? = some x) :
    ∃ q, regs.getLast? = some q ∧ q.regVal.eval env σ = x.1 ∧ q.type = x.2 := by
  rw [List.getLast?_eq_getElem?,h.length_eq] 
  rw [List.getLast?_eq_getElem?] at hx
  exact h.getElem? hx

theorem Holds.concat (h : Holds env σ regs t) {q : QrValue} {x : Val}
    (hx : q.regVal.eval env σ = x) : Holds env σ (regs ++ [q]) (t ++ [(x,q.type)]) :=
  List.rel_append h (.cons ⟨hx,rfl⟩ .nil)

namespace CodegenInlineVisitor

def joinCtx (v : CodegenInlineVisitor) : JoinCtx := ⟨v.queryIdInline,v.jids⟩

def exit (v : CodegenInlineVisitor) : Exit → Label
  | .backflow => v.mainReturn
  | .limit => v.scanNodesEnd

variable {db : GraphDb} {op inp : Plan} {opId : ℕ} {v v₁ v' : CodegenInlineVisitor}

theorem visit_keeps (h : (codegenInlineVisitor db).visit op opId v = some v₁)
    (hop : op.Suffix) :
    v₁.scan = v.scan ∧ v₁.scanNodesEnd = v.scanNodesEnd ∧ v₁.entry = v.entry := by
  cases op with
  | scan => exact absurd hop.1 (by simp)
  | foreachRship | expand | project | join =>
    simp only [codegenInlineVisitor,visitForeachRship,visitExpand,visitProject,visitJoin,
      Option.bind_eq_bind,Option.bind_eq_some_iff,Option.pure_def,Option.some.injEq] at h
    obtain ⟨_,_,rfl⟩ := h
    exact ⟨rfl,rfl,rfl⟩
  | filter =>
    simp only [codegenInlineVisitor,visitFilter,Option.bind_eq_bind,Option.bind_eq_some_iff,
      Option.pure_def,Option.some.injEq] at h
    obtain ⟨_,_,_,_,rfl⟩ := h
    exact ⟨rfl,rfl,rfl⟩
  | sort | limit | collect =>
    obtain rfl := Option.some.inj h
    exact ⟨rfl,rfl,rfl⟩
  | create => exact absurd hop id
  | endOp =>
    simp only [codegenInlineVisitor,visitEnd] at h
    split at h
    · simp at h
    · obtain rfl := Option.some.inj h
      exact ⟨rfl,rfl,rfl⟩

theorem visit_joinCtx (h : (codegenInlineVisitor db).visit op opId v = some v₁)
    (hop : op.input = some inp) : v₁.joinCtx = v.joinCtx := by
  cases op with
  | scan | sort | limit =>
    obtain rfl := Option.some.inj h
    rfl
  | foreachRship | expand | project =>
    simp only [codegenInlineVisitor,visitForeachRship,visitExpand,visitProject,
      Option.bind_eq_bind,Option.bind_eq_some_iff,Option.pure_def,Option.some.injEq] at h
    obtain ⟨_,_,rfl⟩ := h
    rfl
  | filter =>
    simp only [codegenInlineVisitor,visitFilter,Option.bind_eq_bind,Option.bind_eq_some_iff,
      Option.pure_def,Option.some.injEq] at h
    obtain ⟨_,_,_,_,rfl⟩ := h
    rfl
  | create => simp [codegenInlineVisitor] at h
  | join | collect | endOp => simp [Plan.input] at hop

theorem visitJoin_joinCtx {jop : JoinOp} {pos : ℕ × ℕ} {lhs rhs : Plan}
    (h : (codegenInlineVisitor db).visit (.join jop pos lhs rhs) opId v = some v₁) :
    v₁.joinCtx = v.joinCtx.push := by
  simp only [codegenInlineVisitor,visitJoin,Option.bind_eq_bind,Option.bind_eq_some_iff,
    Option.pure_def,Option.some.injEq] at h
  obtain ⟨_,_,rfl⟩ := h
  rfl

end CodegenInlineVisitor

open CodegenInlineVisitor

def Agrees (fn : Body) (v v' : CodegenInlineVisitor) : Prop :=
  ∀ l : Label, v.visits ≤ l.visit → l.visit < v'.visits → fn l = v'.code.body l

/-- The code of the suffix `p` of pipeline `pipe` is the part of `fn` generated from `v`. -/
structure Located (fn : Body) (db : GraphDb) (pipe : ℕ) (j : JoinCtx) (p : Plan) (opId : ℕ)
    (v v' : CodegenInlineVisitor) : Prop where
  ok : Ok v
  scan : v.scan = pipe
  joinCtx : v.joinCtx = j
  suffix : p.Suffix
  gen : ∃ opId', p.codegen (codegenInlineVisitor db) opId true v = some (v',opId')
  agrees : Agrees fn v v'

namespace Located
variable {db : GraphDb} {j : JoinCtx} {op inp : Plan} {opId : ℕ} {v v₁ v' : CodegenInlineVisitor}

theorem pipe_lt (h : Located fn db pipe j op opId v v') : pipe < v.visits :=
  h.scan ▸ h.ok.scan

theorem own (h : Located fn db pipe j op opId v v')
    (h₁ : (codegenInlineVisitor db).visit op opId v = some v₁) (he : Extends v₁ v')
    {code : Code} (hcode : v₁.code = v.code ++ code) {name : BlockName}
    (hopen : v.bb name ≠ v₁.prevBb) : fn (v.bb name) = code.body (v.bb name) := by
  obtain ⟨_,hc⟩ := visit_inserts h₁
  have hlt : v.visits < v'.visits := by
    have := he.visits_le
    rw [hc.visits_eq] at this
    exact this
  rw [h.agrees _ (le_refl _) hlt,visit_body h₁ he hopen,hcode,h.ok.body_own]

theorem input (h : Located fn db pipe j op opId v v') (hi : op.input = some inp)
    (hop : inp.Suffix) :
    ∃ v₁, (codegenInlineVisitor db).visit op opId v = some v₁ ∧ Extends v₁ v' ∧
      Located fn db pipe j inp (opId + op.nextOffset) v₁ v' := by
  obtain ⟨opId',hgen⟩ := h.gen
  rw [Plan.codegen_input hi,Option.bind_eq_some_iff] at hgen
  obtain ⟨v₁,h₁,h₂⟩ := hgen
  have hle : v.visits ≤ v₁.visits := (visit_extends h₁).visits_le
  refine ⟨v₁,h₁,codegen_extends h₂,visit_ok h₁ h.ok,?_,?_,hop,⟨opId',h₂⟩,?_⟩
  · exact (visit_keeps h₁ h.suffix).1.trans h.scan
  · exact (visit_joinCtx h₁ hi).trans h.joinCtx
  · exact fun l hl => h.agrees l (le_trans hle hl)

theorem prevBb (h : Located fn db pipe j op opId v v') {v₀ : CodegenInlineVisitor}
    (ha : Agrees fn v₀ v') (hv : v₀.visits ≤ v.prevBb.visit) :
    fn v.prevBb = v.code.body v.prevBb ++ [.br (op.entryLabel v.visits)] := by
  obtain ⟨opId',hgen⟩ := h.gen
  have hlt := lt_of_lt_of_le h.ok.prevBb (codegen_extends hgen).visits_le
  rw [ha _ hv hlt,codegen_prevBb h.suffix h.ok hgen]

end Located

def Completes (env : Env) (fn : Body) (pipe : ℕ) (v : CodegenInlineVisitor) (l : Label)
    (σ : State) (ex : Exit) (sh' : Shared) : Prop :=
  ∃ σ', Reaches (fn.step env) (.at l σ) (.at (v.exit ex) σ') ∧ Sim pipe σ' sh' ∧
    Frame v.visits pipe σ σ'

namespace Completes
variable {v : CodegenInlineVisitor} {l l₁ : Label} {ex : Exit}

theorem of_reaches (hr : Reaches (fn.step env) (.at l σ) (.at l₁ σ₁))
    (hf : Frame v.visits pipe σ σ₁) (h : Completes env fn pipe v l₁ σ₁ ex sh') :
    Completes env fn pipe v l σ ex sh' := by
  obtain ⟨σ',hr',hs,hf'⟩ := h
  exact ⟨σ',hr.trans hr',hs,hf.trans hf'⟩

theorem here (hs : Sim pipe σ sh') : Completes env fn pipe v (v.exit ex) σ ex sh' :=
  ⟨σ,.refl,hs,Frame.refl _ _ _⟩

end Completes

theorem reaches_block {l : Label} {is : List Instr} {c : Config} (hl : fn l = is)
    (h : execBlock env is σ = some c) : Reaches (fn.step env) (.at l σ) c :=
  Reaches.single (by rw [Body.step,hl]; exact h)

end GraphQueryCompiler
