import GraphQueryCompiler.FilterFormula
import GraphQueryCompiler.Interpreter
import GraphQueryCompiler.Lib.SharedCursor

/-!
# Traversals of variable length

`foreach_from_variable_rship` appends the relationships it finds to a list of the thread, the loop
of the generated code takes them from there. All traversals of a thread share the list and its
iterator.
-/

namespace GraphQueryCompiler
open SharedCursor StepMachine CodegenInlineVisitor

variable {env : Env} {σ σ' : State} {k : ℕ}

/-- What a thread does with its traversals. A `Limit` leaves all loops that are open. -/
inductive FevAction
  | foreach (node labelCode : ℕ) (hops : ℤ × ℤ)
  | next
  | limitReached
  deriving DecidableEq, Repr

/-- `fev_loop_head`, and `fev_loop_body` if the end is not reached. -/
def fevHead (env : Env) (k : ℕ) (σ : State) : Option (Answer ℕ × State) :=
  ((Instr.fevListEnd ⟨k,.isEnd⟩).exec env σ).bind fun σ₁ =>
    match σ₁.reg ⟨k,.isEnd⟩ with
    | .bool true => some (.ended,σ₁)
    | .bool false =>
      ((Instr.getNextRshipFev ⟨k,.rship⟩).exec env σ₁).bind fun σ₂ =>
        match σ₂.reg ⟨k,.rship⟩ with
        | .rship i => some (.elem i,σ₂)
        | _ => none
    | _ => none

def fevDepth (d : ℕ) : Answer ℕ → ℕ
  | .ended => d-1
  | _ => d

/-- One action of a thread with `d` open loops; the registers are those of visit `k`. -/
def fevStep (env : Env) (k : ℕ) : State × ℕ → FevAction → Option (Answer ℕ × State × ℕ)
  | (σ,d), .foreach node labelCode hops =>
    ((Instr.foreachFromVariableRship (.const labelCode) (.reg ⟨k,.node⟩) hops.1 hops.2).exec env
      (σ.setReg ⟨k,.node⟩ (.node node))).bind fun σ₁ =>
        (fevHead env k σ₁).map fun r => (r.1,r.2,fevDepth (d+1) r.1)
  | (σ,d), .next =>
    if d = 0 then some (.idle,σ,d)
    else (fevHead env k σ).map fun r => (r.1,r.2,fevDepth d r.1)
  | (σ,_), .limitReached => some (.idle,σ,0)

def fevAnswers (env : Env) (k : ℕ) (σ : State) (h : List FevAction) : Option (List (Answer ℕ)) :=
  answers (fevStep env k) (σ,0) h

def FevAction.loop (db : GraphDb) : FevAction → Action ℕ
  | .foreach node labelCode hops => .start (db.variableFrom node labelCode hops.1 hops.2)
  | .next => .next
  | .limitReached => .abandon

/-- What it should get: every loop has relationships of its own. -/
def loopAnswers (db : GraphDb) (h : List FevAction) : Option (List (Answer ℕ)) :=
  answers (fun l a => some (Loops.step l a)) ⟨[],false⟩ (h.map (·.loop db))

def State.fevCursor (x : State × ℕ) : Cursor ℕ := ⟨x.1.fevRshipList,x.1.fevListIter,x.2⟩

@[simp] theorem State.setReg_fevRshipList (r : Reg) (x : Val) :
    (σ.setReg r x).fevRshipList = σ.fevRshipList := rfl
@[simp] theorem State.setReg_fevListIter (r : Reg) (x : Val) :
    (σ.setReg r x).fevListIter = σ.fevListIter := rfl

theorem fevHead_cursor (d : ℕ) :
    (fevHead env k σ).map (fun r => (r.1,State.fevCursor (r.2,fevDepth d r.1))) =
      (State.fevCursor (σ,d)).head := by
  rw [fevHead,Instr.exec,Cursor.head]
  by_cases hend : σ.fevListIter = σ.fevRshipList.length
  · simp [hend,State.fevCursor,fevDepth]
  · cases hi : σ.fevRshipList[σ.fevListIter]? <;>
      simp [hend,hi,Instr.exec,State.fevCursor,fevDepth]

theorem fevStep_cursor (x : State × ℕ) (a : FevAction) :
    (fevStep env k x a).map (fun r => (r.1,State.fevCursor r.2)) =
      (State.fevCursor x).step (a.loop env.db) := by
  obtain ⟨σ,d⟩ := x
  cases a with
  | foreach node labelCode hops =>
    simp only [fevStep,Instr.exec,Expr.eval,State.setReg_reg,if_true,Option.bind_some,
      Option.map_map]
    exact fevHead_cursor (d+1)
  | next =>
    rw [fevStep,FevAction.loop,Cursor.step]
    split
    · next hd => exact (if_pos hd).symm
    · next hd => exact (Option.map_map ..).trans ((fevHead_cursor d).trans (if_neg hd).symm)
  | limitReached => rfl

theorem fevAnswers_eq (h : List FevAction) : fevAnswers env k σ h =
    answers Cursor.step (State.fevCursor (σ,0)) (h.map (·.loop env.db)) :=
  answers_map fevStep_cursor h (σ,0)

/-- The loops get what they should, also if the open one is run on at any moment, exactly if each
traversal begins when all before it have run to their end. -/
theorem traversals_iff (env : Env) (k : ℕ) (σ : State) (hσ : σ.fevRshipList = [])
    (h : List FevAction) :
    (∀ p, p <+: h → ∀ m, fevAnswers env k σ (p ++ List.replicate m .next) =
      loopAnswers env.db (p ++ List.replicate m .next)) ↔
        OneAtATime ⟨[],false⟩ (h.map (·.loop env.db)) := by
  have hstart : Tracks (State.fevCursor (σ,0)) ⟨[],false⟩ := by
    rw [State.fevCursor,hσ]
    exact .finished
  rw [← agrees_iff hstart]
  have hnext : ∀ m, (List.replicate m FevAction.next).map (·.loop env.db) =
      List.replicate m .next := fun m => List.map_replicate
  simp only [fevAnswers_eq,loopAnswers,List.map_append,hnext]
  refine ⟨fun hh p hp => ?_,fun hh p hp => hh _ (hp.map _)⟩
  obtain ⟨q,hq,rfl⟩ := List.prefix_map_iff.1 hp
  exact hh q hq

def variableDb : GraphDb :=
  { pairDb with variableFrom := fun n _ _ _ => if n = 0 then [0] else [] }

def variableEnv : Env := { pairEnv fun _ => "knows" with db := variableDb }

theorem fevAnswers_again : fevAnswers variableEnv 0 State.fresh
    [.foreach 0 5 (1,1),.next,.foreach 0 5 (1,1)] =
      loopAnswers variableDb [.foreach 0 5 (1,1),.next,.foreach 0 5 (1,1)] :=
  (traversals_iff variableEnv 0 State.fresh rfl [.foreach 0 5 (1,1),.next,.foreach 0 5 (1,1)]).2
    ⟨⟨rfl,rfl⟩,⟨rfl,rfl⟩,trivial⟩ _ (List.prefix_refl _) 0

/-- Node 1 has no relationships, but a traversal in the loop over those of node 0 gets one; so does
one behind a loop that a `Limit` has left. -/
theorem not_fevAnswers_nested :
    fevAnswers variableEnv 0 State.fresh [.foreach 0 5 (1,1),.foreach 1 5 (1,1)] ≠
      loopAnswers variableDb [.foreach 0 5 (1,1),.foreach 1 5 (1,1)] ∧
    fevAnswers variableEnv 0 State.fresh [.foreach 0 5 (1,1),.limitReached,.foreach 1 5 (1,1)] ≠
      loopAnswers variableDb [.foreach 0 5 (1,1),.limitReached,.foreach 1 5 (1,1)] := by
  decide

def Step.rships (db : GraphDb) (variableTo : ℕ → ℕ → ℤ → ℤ → List ℕ) (n : ℕ) : Step → List ℕ
  | .fromRelationships (some hops) label => db.variableFrom n (db.getCode label) hops.1 hops.2
  | .toRelationships (some hops) label => variableTo n (db.getCode label) hops.1 hops.2
  | .fromRelationships none label =>
    (db.rships .FROM n).filter fun r => (db.rshipById r).rshipLabel = db.getCode label
  | .toRelationships none label =>
    (db.rships .TO n).filter fun r => (db.rshipById r).rshipLabel = db.getCode label
  | _ => []

inductive Consumes (fn : Body) (env : Env) (v : CodegenInlineVisitor) : State → List ℕ → Prop
  | done {σ σ' : State} :
      fn.step env (.at (v.bb .fevLoopHead) σ) = some (.at (v.bb .foreachRelEnd) σ') →
      Consumes fn env v σ []
  | rship {σ σ₁ σ₂ σ₃ : State} {i : ℕ} {is : List ℕ} :
      fn.step env (.at (v.bb .fevLoopHead) σ) = some (.at (v.bb .fevLoopBody) σ₁) →
      fn.step env (.at (v.bb .fevLoopBody) σ₁) = some (.at (v.bb .consumeRship) σ₂) →
      σ₂.reg (v.reg .rship) = .rship i → σ₃.fevRshipList = σ₂.fevRshipList →
      σ₃.fevListIter = σ₂.fevListIter → Consumes fn env v σ₃ is → Consumes fn env v σ (i :: is)

/-- For this node the compiled operator takes the relationships that the interpreter would. -/
def TakesChosen (env : Env) (variableTo : ℕ → ℕ → ℤ → ℤ → List ℕ) (dir : RshipDir)
    (hops : ℤ × ℤ) (label : String) (opId n : ℕ) : Prop :=
  ∀ (v v₁ : CodegenInlineVisitor) (inp : Plan) (node : QrValue) (σ : State) (fn : Body)
    (args : ArgBuilder) (s s' : InterpreteVisitor) (q : Query) (qs : List Query) (st : Step),
    v.Ok → (codegenInlineVisitor env.db).visit (.foreachRship dir hops label inp) opId v = some v₁ →
    v.regQueryResults.getLast? = some node → node.regVal.eval env σ = .node n →
    σ.fevRshipList = [] →
    (∀ name, name ≠ .consumeRship → fn (v.bb name) = v₁.code.body (v.bb name)) →
    args.stringArgs[s.opId]? = some (env.args.label opId) → s.queries = q :: qs →
    (interpreteVisitor env.db args).visit (.foreachRship dir hops label inp) opId s = some s' →
    s'.queries = (q ++ [st]) :: qs →
    ∃ σ₁, fn.step env (.at (v.bb .feEntry) σ) = some (.at (v.bb .fevLoopHead) σ₁) ∧
      ∀ is, Consumes fn env v σ₁ is ↔ is = st.rships env.db variableTo n

section Rships
variable {fn : Body} {v v₁ : CodegenInlineVisitor} {dir : RshipDir} {hops : ℤ × ℤ} {label : String}
  {inp : Plan} {opId n : ℕ} {node : QrValue}

structure HasLoop (fn : Body) (v : CodegenInlineVisitor) (dir : RshipDir) (hops : ℤ × ℤ)
    (opId : ℕ) (node : Expr) : Prop where
  feEntry : fn (v.bb .feEntry) = v.feEntry dir opId node ++
    [.foreachFromVariableRship (.reg (v.reg .labelCode)) node hops.1 hops.2,
     .br (v.bb .fevLoopHead)]
  fevLoopHead : fn (v.bb .fevLoopHead) = [.fevListEnd (v.reg .isEnd),
    .condBr (.reg (v.reg .isEnd)) (v.bb .foreachRelEnd) (v.bb .fevLoopBody)]
  fevLoopBody : fn (v.bb .fevLoopBody) =
    [.getNextRshipFev (v.reg .rship),.br (v.bb .consumeRship)]

theorem HasLoop.of_visit (hok : v.Ok)
    (h : (codegenInlineVisitor env.db).visit (.foreachRship dir hops label inp) opId v = some v₁)
    (hnode : v.regQueryResults.getLast? = some node) (hvar : isVariable hops = true)
    (hfn : ∀ name, name ≠ .consumeRship → fn (v.bb name) = v₁.code.body (v.bb name)) :
    HasLoop fn v dir hops opId node.regVal := by
  simp only [codegenInlineVisitor,visitForeachRship,Option.bind_eq_bind,
    Option.bind_eq_some_iff,Option.pure_def,Option.some.injEq,hvar,if_true] at h
  obtain ⟨node',hnode',rfl⟩ := h
  obtain rfl := Option.some.inj (hnode.symm.trans hnode')
  have hbody : ∀ name, name ≠ .consumeRship →
      fn (v.bb name) = (v.foreachVariableCode dir hops opId node.regVal).body (v.bb name) := by
    intro name hname
    rw [hfn name hname]
    exact hok.body_own _ name
  constructor
  all_goals
    rw [hbody _ (by simp)]
    simp [foreachVariableCode,bb,hok.prevBb_ne]

section Loop
variable (h : HasLoop fn v dir hops opId node.regVal)
include h

theorem HasLoop.entry_step (hb : node.Below v.visits) (hn : node.regVal.eval env σ = .node n) :
    ∃ σ₁, fn.step env (.at (v.bb .feEntry) σ) = some (.at (v.bb .fevLoopHead) σ₁) ∧
      σ₁.fevRshipList = σ.fevRshipList ++
        env.db.variableFrom n (env.db.argLabel env.args opId) hops.1 hops.2 ∧
      σ₁.fevListIter = 0 := by
  let list : Val := loadField env.db (.node n) (rshipIdx dir).1
  let σ₀ := (((σ.setCell (v.cell .rhsAlloca) (.word unknownRelId)).setReg (v.reg .labelCode)
    (.word (env.db.argLabel env.args opId))).setReg (v.reg .nodeRshipId) list).setCell
    (v.cell .lhsAlloca) list
  refine ⟨{ σ₀ with
    fevRshipList := σ.fevRshipList ++
      env.db.variableFrom n (env.db.argLabel env.args opId) hops.1 hops.2
    fevListIter := 0 },?_,rfl,rfl⟩
  rw [Body.step,h.feEntry]
  simp [CodegenInlineVisitor.feEntry,execBlock,Instr.exec,Expr.eval,reg,hb.eval_setReg,
    hb.eval_setCell,hn,σ₀,list]
  rfl

theorem HasLoop.head_done (env : Env) (hend : σ.fevListIter = σ.fevRshipList.length) : ∃ σ',
    fn.step env (.at (v.bb .fevLoopHead) σ) = some (.at (v.bb .foreachRelEnd) σ') := by
  rw [Body.step,h.fevLoopHead]
  simp [execBlock,Instr.exec,hend,Expr.eval]

theorem HasLoop.head_body (hend : σ.fevListIter ≠ σ.fevRshipList.length) :
    fn.step env (.at (v.bb .fevLoopHead) σ) =
      some (.at (v.bb .fevLoopBody) (σ.setReg (v.reg .isEnd) (.bool false))) := by
  rw [Body.step,h.fevLoopHead]
  simp [execBlock,Instr.exec,hend,Expr.eval]

theorem HasLoop.body_consume : fn.step env (.at (v.bb .fevLoopBody) σ) =
    (σ.fevRshipList[σ.fevListIter]?).map fun i => .at (v.bb .consumeRship)
      ({ σ with fevListIter := σ.fevListIter+1 }.setReg (v.reg .rship) (.rship i)) := by
  rw [Body.step,h.fevLoopBody]
  cases hi : σ.fevRshipList[σ.fevListIter]? <;> simp [execBlock,Instr.exec,hi]

theorem HasLoop.consumes_iff (is : List ℕ) (hi : σ.fevListIter ≤ σ.fevRshipList.length) :
    Consumes fn env v σ is ↔ is = σ.fevRshipList.drop σ.fevListIter := by
  constructor
  · intro hc
    induction hc with
    | @done σ σ' hs =>
      by_cases hend : σ.fevListIter = σ.fevRshipList.length
      · rw [hend,List.drop_length]
      · rw [h.head_body hend] at hs
        simp [bb] at hs
    | @rship σ σ₁ σ₂ σ₃ i is hhead hbody hreg hlist hiter _ ih =>
      by_cases hend : σ.fevListIter = σ.fevRshipList.length
      · obtain ⟨σ',hs⟩ := h.head_done env hend
        rw [hs] at hhead
        simp [bb] at hhead
      · rw [h.head_body hend,Option.some.injEq,Config.at.injEq] at hhead
        obtain ⟨_,rfl⟩ := hhead
        have hlt : σ.fevListIter < σ.fevRshipList.length := Nat.lt_of_le_of_ne hi hend
        rw [h.body_consume,State.setReg_fevRshipList,State.setReg_fevListIter,
          List.getElem?_eq_getElem hlt,Option.map_some,Option.some.injEq,Config.at.injEq] at hbody
        obtain ⟨_,rfl⟩ := hbody
        obtain rfl : σ.fevRshipList[σ.fevListIter] = i := by simpa using hreg
        have hlist' : σ₃.fevRshipList = σ.fevRshipList := hlist
        have hiter' : σ₃.fevListIter = σ.fevListIter+1 := hiter
        rw [ih (by rw [hlist',hiter']; exact hlt),hlist',hiter',← List.drop_eq_getElem_cons hlt]
  · intro his
    induction is generalizing σ with
    | nil =>
      have hend : σ.fevListIter = σ.fevRshipList.length :=
        Nat.le_antisymm hi (List.drop_eq_nil_iff.1 his.symm)
      obtain ⟨σ',hs⟩ := h.head_done env hend
      exact .done hs
    | cons i is ih =>
      have hlt : σ.fevListIter < σ.fevRshipList.length := by
        by_contra hge
        rw [List.drop_eq_nil_of_le (Nat.le_of_not_lt hge)] at his
        cases his
      rw [List.drop_eq_getElem_cons hlt,List.cons.injEq] at his
      obtain ⟨rfl,his⟩ := his
      let σ₁ := σ.setReg (v.reg .isEnd) (.bool false)
      let σ₂ := { σ₁ with fevListIter := σ.fevListIter+1 }.setReg (v.reg .rship)
        (.rship σ.fevRshipList[σ.fevListIter])
      have hbody : fn.step env (.at (v.bb .fevLoopBody) σ₁) =
          some (.at (v.bb .consumeRship) σ₂) := by
        rw [h.body_consume,State.setReg_fevRshipList,State.setReg_fevListIter,
          List.getElem?_eq_getElem hlt]
        rfl
      have hrest : Consumes fn env v σ₂ is := ih (σ := σ₂) hlt his
      exact .rship (h.head_body (Nat.ne_of_lt hlt)) hbody (by simp [σ₂]) rfl rfl hrest

end Loop

def variableStep (hops : ℤ × ℤ) (label : String) : RshipDir → Step
  | .TO => .toRelationships (some hops) label
  | .FROM => .fromRelationships (some hops) label

theorem visit_variableStep (hvar : isVariable hops = true) {args : ArgBuilder}
    {s s' : InterpreteVisitor} {q : Query} {qs : List Query} {st : Step} {label' : String}
    (hlabel : args.stringArgs[s.opId]? = some label') (hq : s.queries = q :: qs)
    (h : (interpreteVisitor env.db args).visit (.foreachRship dir hops label inp) opId s = some s')
    (hst : s'.queries = (q ++ [st]) :: qs) :
    st = variableStep hops label' dir := by
  simp only [interpreteVisitor,hlabel,hvar,if_true,InterpreteVisitor.update,hq,
    Option.bind_eq_bind,Option.bind_some,Option.pure_def,Option.some.injEq] at h
  subst h
  have hsame := (List.append_cancel_left (List.cons.inj hst).1).symm
  rw [(List.cons.inj hsame).1]
  cases dir <;> rfl

theorem exists_visit_variableStep (db : GraphDb) (dir : RshipDir) (label : String) (inp : Plan)
    (opId : ℕ) (hvar : isVariable hops = true) (label' : String) :
    ∃ (args : ArgBuilder) (s s' : InterpreteVisitor),
      args.stringArgs[s.opId]? = some label' ∧ s.queries = [[]] ∧
      (interpreteVisitor db args).visit (.foreachRship dir hops label inp) opId s = some s' ∧
      s'.queries = [[variableStep hops label' dir]] := by
  let args : ArgBuilder := { ArgBuilder.new with stringArgs := Vector.replicate 64 label' }
  let s : InterpreteVisitor := { InterpreteVisitor.init ⟨"",.intv,0,0⟩ with queries := [[]] }
  have hlabel : args.stringArgs[s.opId]? = some label' := by
    simp [args,s,InterpreteVisitor.init]
  let s' : InterpreteVisitor :=
    { s with queries := [[variableStep hops label' dir]], opId := s.opId+1 }
  refine ⟨args,s,s',hlabel,rfl,?_,rfl⟩
  simp only [interpreteVisitor,hlabel,hvar,if_true]
  cases dir <;> rfl

variable {variableTo : ℕ → ℕ → ℤ → ℤ → List ℕ}

theorem takesChosen_of_eq (hvar : isVariable hops = true)
    (h : dir = .FROM ∨ variableTo n (env.db.argLabel env.args opId) hops.1 hops.2 =
      env.db.variableFrom n (env.db.argLabel env.args opId) hops.1 hops.2) :
    TakesChosen env variableTo dir hops label opId n := by
  intro v v₁ inp node σ fn args s s' q qs st hok hvisit hnode hn hlist hfn hlabel hq hint hst
  have hloop := HasLoop.of_visit hok hvisit hnode hvar hfn
  obtain ⟨σ₁,hr,hlist₁,hiter₁⟩ :=
    hloop.entry_step (hok.regs _ (List.mem_of_getLast? hnode)) hn
  refine ⟨σ₁,hr,fun is => ?_⟩
  rw [hloop.consumes_iff is (by rw [hiter₁]; exact Nat.zero_le _),hiter₁,List.drop_zero,hlist₁,
    hlist,List.nil_append,visit_variableStep hvar hlabel hq hint hst]
  cases dir with
  | FROM => rfl
  | TO =>
    have heq := h.resolve_left (by simp)
    rw [← heq]
    rfl

/-- The compiled operator takes what the interpreter would, exactly if the traversal is in the
direction `FROM` or the node has the same relationships in both directions. -/
theorem takesChosen_iff (env : Env) (variableTo : ℕ → ℕ → ℤ → ℤ → List ℕ) (dir : RshipDir)
    (hops : ℤ × ℤ) (label : String) (opId n : ℕ) (hvar : isVariable hops = true) :
    TakesChosen env variableTo dir hops label opId n ↔ dir = .FROM ∨
      variableTo n (env.db.argLabel env.args opId) hops.1 hops.2 =
        env.db.variableFrom n (env.db.argLabel env.args opId) hops.1 hops.2 := by
  refine ⟨fun h => ?_,takesChosen_of_eq hvar⟩
  cases dir with
  | FROM => exact .inl rfl
  | TO =>
    let v := typeVisitor [0]
    let node : QrValue := ⟨.reg (typeReg 0),0⟩
    have hnode : v.regQueryResults.getLast? = some node := rfl
    obtain ⟨v₁,hvisit⟩ : ∃ v₁, (codegenInlineVisitor env.db).visit
        (.foreachRship .TO hops label .endOp) opId v = some v₁ := ⟨_,rfl⟩
    let σ := typeState.setReg (typeReg 0) (.node n)
    have hn : node.regVal.eval env σ = .node n := by simp [node,σ,Expr.eval]
    obtain ⟨args,s,s',hlabel,hq,hint,hst⟩ :=
      exists_visit_variableStep env.db .TO label .endOp opId hvar (env.args.label opId)
    obtain ⟨σ₁,hstep,hiff⟩ := h v v₁ .endOp node σ v₁.code.body args s s' [] [] _
      (typeVisitor_ok [0])
      hvisit hnode hn rfl (fun _ _ => rfl) hlabel hq hint hst
    have hloop := HasLoop.of_visit (typeVisitor_ok [0]) hvisit hnode hvar fun _ _ => rfl
    obtain ⟨σ₂,hstep₂,hlist,hiter⟩ := hloop.entry_step Nat.one_pos hn
    obtain rfl : σ₂ = σ₁ := (Config.at.inj (Option.some.inj (hstep₂.symm.trans hstep))).2
    have htakes : Consumes v₁.code.body env v σ₂ _ :=
      (hloop.consumes_iff _ (by rw [hiter]; exact Nat.zero_le _)).2 rfl
    rw [hiter,List.drop_zero,hlist] at htakes
    exact .inr ((hiff _).1 htakes).symm

end Rships

def pairVariableTo (n _ : ℕ) (_ _ : ℤ) : List ℕ := if n = 1 then [0] else []

theorem takesChosen_from : TakesChosen variableEnv pairVariableTo .FROM (1,1) "knows" 2 0 :=
  (takesChosen_iff variableEnv pairVariableTo .FROM (1,1) "knows" 2 0 rfl).2 (.inl rfl)

/-- No relationship leads to node 0, the compiled operator takes the one that leaves it. -/
theorem not_takesChosen_to : ¬ TakesChosen variableEnv pairVariableTo .TO (1,1) "knows" 2 0 := by
  intro h
  rcases (takesChosen_iff variableEnv pairVariableTo .TO (1,1) "knows" 2 0 rfl).1 h with h | h
  · cases h
  · revert h
    decide

end GraphQueryCompiler
