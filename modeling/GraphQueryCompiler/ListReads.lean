import GraphQueryCompiler.EmittedCode
import GraphQueryCompiler.PlanSimulation

/-!
# What start functions share

The calls of a start function share the lists of `joiner` and the result set. The code of a plan
reads the lists of its own joins only, and their ids begin at 0. From two states that differ in
no list below the number of the joins, a start function runs alike.
-/

namespace GraphQueryCompiler
open StepMachine

def Plan.numJoins : Plan → ℕ
  | .scan _ _ inp => inp.numJoins
  | .foreachRship _ _ _ inp => inp.numJoins
  | .expand _ _ inp => inp.numJoins
  | .filter _ inp => inp.numJoins
  | .project _ inp => inp.numJoins
  | .join _ _ lhs rhs => lhs.numJoins+rhs.numJoins+1
  | .sort _ inp => inp.numJoins
  | .limit _ inp => inp.numJoins
  | .create _ _ inp => inp.numJoins
  | .collect _ => 0
  | .endOp => 0

def Instr.Reads (q : ℕ) : Instr → Prop
  | .getMatResSize _ jid => jid < q
  | .getJoinTpAt _ jid _ => jid < q
  | _ => True

theorem Instr.Reads.mono {i : Instr} {q q' : ℕ} (h : i.Reads q) (hq : q ≤ q') : i.Reads q' := by
  cases i with
  | getMatResSize | getJoinTpAt => exact lt_of_lt_of_le h hq
  | _ => trivial

theorem Plan.joinCtxEnd_queryIdInline (p : Plan) : ∀ j : JoinCtx,
    (p.joinCtxEnd j).queryIdInline = j.queryIdInline + p.numJoins := by
  induction p with
  | join jop pos lhs rhs ihl ihr =>
    intro j
    simp only [joinCtxEnd,numJoins,ihl,ihr,JoinCtx.push]
    omega
  | collect | endOp => exact fun _ => rfl
  | _ _ _ =>
    rename_i ih
    exact ih

namespace CodegenInlineVisitor
variable {db : GraphDb} {v v' : CodegenInlineVisitor} {op : Plan} {opId q : ℕ}

theorem Piece.reads {e : Label × List Instr} (he : v.Piece q op e) : ∀ i ∈ e.2, i.Reads q := by
  have hinner : ∀ {is : List Instr}, (∀ i ∈ is, i.Inner q v.mainReturn) → ∀ i ∈ is, i.Reads q := by
    intro is his i hi
    have hi := his i hi
    cases i with
    | getMatResSize | getJoinTpAt => exact hi
    | _ => trivial
  cases he with
  | inner _ his => exact hinner his
  | entry his => exact List.forall_mem_append.2 ⟨by simp [initFunction,Instr.Reads],hinner his⟩
  | _ => simp [Instr.Reads]

def ReadsOwn (v : CodegenInlineVisitor) : Prop :=
  ∀ e ∈ v.code, ∀ i ∈ e.2, i.Reads v.queryIdInline

theorem visit_readsOwn (h : (codegenInlineVisitor db).visit op opId v = some v') (hv : v.ReadsOwn) :
    v'.ReadsOwn := by
  have hjoin : ∀ jop pos lhs rhs, op = .join jop pos lhs rhs →
      v.queryIdInline < v'.queryIdInline := by
    rintro jop pos lhs rhs rfl
    have hctx := congrArg JoinCtx.queryIdInline (visitJoin_joinCtx h)
    exact lt_of_lt_of_eq (Nat.lt_succ_self _) hctx.symm
  obtain ⟨code,hcode,hpieces⟩ := visit_pieces h hjoin
  intro e he
  rw [hcode] at he
  rcases List.mem_append.1 he with he | he
  · exact fun i hi => (hv e he i hi).mono (visit_moves h).queryIdInline
  · exact (hpieces e he).reads

theorem codegen_readsOwn {p : Plan} {interpreted : Bool} {opId' : ℕ}
    (h : p.codegen (codegenInlineVisitor db) opId interpreted v = some (v',opId'))
    (hv : v.ReadsOwn) : v'.ReadsOwn :=
  p.codegen_rel (R := fun v v' => v.ReadsOwn → v'.ReadsOwn) (fun _ _ _ h₁ h₂ hv => h₂ (h₁ hv))
    (fun _ _ _ _ => visit_readsOwn) h hv

end CodegenInlineVisitor

theorem generateStart_reads {env : Env} {er : ℕ → Option Expr} {p : Plan} {fn : Body}
    {entry : Label}
    (h : generateStart env.db er p = some (fn,entry)) (l : Label) :
    ∀ i ∈ fn l, i.Reads p.numJoins := by
  simp only [generateStart,Option.bind_eq_bind,Option.bind_eq_some_iff,Option.pure_def,
    Option.some.injEq,Prod.mk.injEq,Prod.exists] at h
  obtain ⟨v,_,hcode,_,_,rfl,rfl⟩ := h
  have hreads : v.ReadsOwn := CodegenInlineVisitor.codegen_readsOwn hcode (List.forall_mem_nil _)
  have hq : v.queryIdInline = p.numJoins := by
    have hctx := congrArg JoinCtx.queryIdInline (joinCtx_end p hcode)
    rw [p.joinCtxEnd_queryIdInline] at hctx
    exact hctx.trans (Nat.zero_add _)
  intro i hi
  obtain ⟨e,he,hie⟩ := List.mem_flatMap.1 hi
  rw [← hq]
  split_ifs at hie
  · exact hreads e he i hie
  · simp at hie

def Global.emit (g : Global) (e : Event) : Global where
  rhsInput := match e with
    | .materialize jid t => fun j => if j = jid then g.rhsInput j ++ [t] else g.rhsInput j
    | _ => g.rhsInput
  trace := g.trace ++ [e]

def State.global (σ : State) : Global := ⟨σ.rhsInput,σ.trace⟩

def State.setGlobal (σ : State) (g : Global) : State :=
  { σ with rhsInput := g.rhsInput, trace := g.trace }

def Config.global : Config → Global
  | .at _ σ => σ.global
  | .returned σ => σ.global

def Config.setGlobal (g : Global) : Config → Config
  | .at l σ => .at l (σ.setGlobal g)
  | .returned σ => .returned (σ.setGlobal g)

def Global.AgreeBelow (q : ℕ) (g g' : Global) : Prop := ∀ i < q, g.rhsInput i = g'.rhsInput i

variable {env : Env} {fn : Body} {q : ℕ} {σ σ' : State} {c c' : Config} {g g' : Global}

theorem Global.foldl_emit_trace (es : List Event) :
    (es.foldl Global.emit g).trace = g.trace ++ es := by
  induction es generalizing g with
  | nil => simp
  | cons e es ih => simp [ih,emit]

theorem Global.trace_of_foldl {es : List Event} (h : g' = es.foldl Global.emit g) :
    g'.trace = g.trace ++ es := by
  rw [h,foldl_emit_trace]

theorem Global.AgreeBelow.emit (h : g.AgreeBelow q g') (e : Event) :
    (g.emit e).AgreeBelow q (g'.emit e) := by
  intro i hi
  cases e with
  | materialize jid t => simp only [Global.emit,h i hi]
  | _ => exact h i hi

theorem Global.AgreeBelow.foldl_emit (h : g.AgreeBelow q g') (es : List Event) :
    (es.foldl Global.emit g).AgreeBelow q (es.foldl Global.emit g') := by
  induction es generalizing g g' with
  | nil => exact h
  | cons e es ih => exact ih (h.emit e)

@[simp] theorem Expr.eval_setGlobal (e : Expr) : e.eval env (σ.setGlobal g) = e.eval env σ := by
  apply Expr.eval_congr <;> rfl

@[simp] theorem matRegVal_setGlobal : matRegVal (σ.setGlobal g) = matRegVal σ := by
  funext x type
  cases x <;> rfl

def Instr.usesGlobal : Instr → Bool
  | .collectTuple => true
  | .collectTupleJoin _ => true
  | .getMatResSize .. => true
  | .getJoinTpAt .. => true
  | .callFinish => true
  | _ => false

theorem exec_setGlobal {i : Instr} (hi : i.usesGlobal = false) (g : Global) :
    i.exec env (σ.setGlobal g) = (i.exec env σ).map (·.setGlobal g) := by
  cases i with
  | getMatResSize | getJoinTpAt | collectTupleJoin | collectTuple | callFinish => cases hi
  | vecEndReached | getNodeFromIt =>
    simp only [Instr.exec,Expr.eval_setGlobal]
    split
    · simp only [Option.map_map]
      rfl
    · rfl
  | getNextRshipFev | matRegValue =>
    simp only [Instr.exec,Expr.eval_setGlobal,matRegVal_setGlobal,Option.map_map]
    rfl
  | fevListEnd r =>
    change (if σ.fevListIter = σ.fevRshipList.length then _ else _) = _
    simp only [Instr.exec]
    split_ifs <;> rfl
  | getNodeResAt | getRshipResAt =>
    simp only [Instr.exec,Expr.eval_setGlobal]
    split
    · split <;> rfl
    · rfl
  | _ =>
    simp only [Instr.exec,Expr.eval_setGlobal]
    first | rfl | (split <;> rfl)

theorem exec_emits {i : Instr} (h : i.exec env σ = some σ') : ∃ es : List Event,
    σ'.global = es.foldl Global.emit σ.global ∧ ∀ q g, i.Reads q → g.AgreeBelow q σ.global →
      i.exec env (σ.setGlobal g) = some (σ'.setGlobal (es.foldl Global.emit g)) := by
  cases hu : i.usesGlobal with
  | false =>
    refine ⟨[],?_,fun q g _ _ => by rw [exec_setGlobal hu,h]; rfl⟩
    have hkept : i.exec env σ = (i.exec env σ).map (·.setGlobal σ.global) :=
      exec_setGlobal hu σ.global
    rw [h,Option.map_some] at hkept
    exact (congrArg State.global (Option.some.inj hkept)).trans rfl
  | true =>
    cases i with
    | collectTuple =>
      obtain rfl := Option.some.inj h
      exact ⟨[.collect σ.tp],rfl,fun _ _ _ _ => rfl⟩
    | collectTupleJoin jid =>
      obtain rfl := Option.some.inj h
      exact ⟨[.materialize jid σ.matTuple],rfl,fun _ _ _ _ => rfl⟩
    | callFinish =>
      obtain rfl := Option.some.inj h
      exact ⟨[.finish],rfl,fun _ _ _ _ => rfl⟩
    | getMatResSize r jid =>
      obtain rfl := Option.some.inj h
      refine ⟨[],rfl,fun q g hi hg => ?_⟩
      have hsize : (g.rhsInput jid).length = (σ.rhsInput jid).length := by rw [hg jid hi]; rfl
      simp only [Instr.exec,State.setGlobal,hsize]
      rfl
    | getJoinTpAt r jid pos =>
      simp only [Instr.exec] at h
      split at h
      · next n hn =>
        obtain ⟨t,ht,rfl⟩ := Option.map_eq_some_iff.1 h
        refine ⟨[],rfl,fun q g hi hg => ?_⟩
        have hread : (g.rhsInput jid)[n]? = some t := by rw [hg jid hi]; exact ht
        simp only [Instr.exec,Expr.eval_setGlobal,hn]
        exact congrArg (Option.map _) hread
      · simp at h
    | _ => cases hu

theorem execBlock_emits {is : List Instr} : ∀ {σ : State}, execBlock env is σ = some c →
    ∃ es : List Event, c.global = es.foldl Global.emit σ.global ∧
      ∀ q g, (∀ i ∈ is, i.Reads q) → g.AgreeBelow q σ.global →
        execBlock env is (σ.setGlobal g) = some (c.setGlobal (es.foldl Global.emit g)) := by
  induction is with
  | nil => nofun
  | cons i is ih =>
    intro σ h
    cases i with
    | br l =>
      obtain rfl := Option.some.inj h
      exact ⟨[],rfl,fun _ _ _ _ => rfl⟩
    | condBr e t f =>
      refine ⟨[],?_,fun q g _ _ => ?_⟩
      · simp only [execBlock] at h
        split at h
        · obtain rfl := Option.some.inj h
          rfl
        · obtain rfl := Option.some.inj h
          rfl
        · simp at h
      · simp only [execBlock,Expr.eval_setGlobal] at h ⊢
        split at h
        · obtain rfl := Option.some.inj h
          rfl
        · obtain rfl := Option.some.inj h
          rfl
        · simp at h
    | ret =>
      obtain rfl := Option.some.inj h
      exact ⟨[],rfl,fun _ _ _ _ => rfl⟩
    | _ =>
      obtain ⟨σ₁,hexec,hblock⟩ := Option.bind_eq_some_iff.1 h
      obtain ⟨es₁,hglobal₁,hframe₁⟩ := exec_emits hexec
      obtain ⟨es₂,hglobal₂,hframe₂⟩ := ih hblock
      refine ⟨es₁ ++ es₂,by rw [hglobal₂,hglobal₁,List.foldl_append],fun q g his hg => ?_⟩
      obtain ⟨hi,hrest⟩ := List.forall_mem_cons.1 his
      have hg₁ := hg.foldl_emit es₁
      rw [← hglobal₁] at hg₁
      rw [List.foldl_append]
      exact Option.bind_eq_some_iff.2 ⟨_,hframe₁ q g hi hg,hframe₂ q _ hrest hg₁⟩

theorem step_emits (h : fn.step env c = some c') : ∃ es : List Event,
    c'.global = es.foldl Global.emit c.global ∧
      ∀ q g, (∀ l σ, c = .at l σ → ∀ i ∈ fn l, i.Reads q) → g.AgreeBelow q c.global →
        fn.step env (c.setGlobal g) = some (c'.setGlobal (es.foldl Global.emit g)) := by
  cases c with
  | «at» l σ =>
    obtain ⟨es,hglobal,hframe⟩ := execBlock_emits h
    exact ⟨es,hglobal,fun q g hreads => hframe q g (hreads l σ rfl)⟩
  | returned => simp [Body.step] at h

theorem reaches_emits (h : Reaches (fn.step env) c c') : ∃ es : List Event,
    c'.global = es.foldl Global.emit c.global ∧
      ∀ q g, (∀ l, ∀ i ∈ fn l, i.Reads q) → g.AgreeBelow q c.global →
        Reaches (fn.step env) (c.setGlobal g) (c'.setGlobal (es.foldl Global.emit g)) := by
  induction h using Relation.ReflTransGen.head_induction_on with
  | refl => exact ⟨[],rfl,fun _ _ _ _ => .refl⟩
  | @head c c₁ hstep _ ih =>
    obtain ⟨es₁,hglobal₁,hframe₁⟩ := step_emits hstep
    obtain ⟨es₂,hglobal₂,hframe₂⟩ := ih
    refine ⟨es₁ ++ es₂,by rw [hglobal₂,hglobal₁,List.foldl_append],fun q g hfn hg => ?_⟩
    have hg₁ := hg.foldl_emit es₁
    rw [← hglobal₁] at hg₁
    rw [List.foldl_append]
    exact .head (hframe₁ q g (fun l _ _ => hfn l) hg) (hframe₂ q _ hfn hg₁)

theorem generateStart_agree {er : ℕ → Option Expr} {p : Plan} {entry : Label}
    (h : generateStart env.db er p = some (fn,entry))
    (hret : Returns (fn.step env) (.at entry σ) (.returned σ')) : ∃ es : List Event,
      σ'.global = es.foldl Global.emit σ.global ∧ ∀ g, g.AgreeBelow p.numJoins σ.global →
        Returns (fn.step env) (.at entry (σ.setGlobal g))
          (.returned (σ'.setGlobal (es.foldl Global.emit g))) := by
  obtain ⟨es,hglobal,hframe⟩ := reaches_emits hret.1
  exact ⟨es,hglobal,fun g hg => ⟨hframe _ g (generateStart_reads h) hg,rfl⟩⟩

end GraphQueryCompiler
