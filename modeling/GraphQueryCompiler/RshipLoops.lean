import GraphQueryCompiler.FilterFormula
import GraphQueryCompiler.Lib.SentinelLoop
import GraphQueryCompiler.OperatorSimulation

/-!
# The loops over the relationships of one hop

`codegen_visitor` compiles a `ForeachRship` to a consumer function that calls the next one from the
call map, `codegen_inline_visitor` to blocks in front of those of the next operator. Both loops end
at the first id that is not below a sentinel, but not the same one.
-/

namespace GraphQueryCompiler
open LinkedChain SentinelLoop CodegenInlineVisitor

namespace CodegenVisitor

/-- `UNKNOWN_REL_ID` of `codegen_visitor`, the largest signed 32-bit value. -/
def unknownRelId : ℕ := 2^31-1

/-- `qr_tuple_list`, which all consumer functions of a pipeline work on. -/
structure QrTupleList where
  /-- What the first entry points to. -/
  size : ℕ
  entry : ℕ → Val

structure ConsumerArgs where
  oid : ℕ
  prevSize : ℕ
  offset : ℕ

def ConsumerArgs.pres (a : ConsumerArgs) (qrl : QrTupleList) : Val :=
  qrl.entry (a.prevSize+a.offset)

inductive ForeachRshipBlock
  | entry | whileCondition | whileBody | nextRship | consumeRship | foreachRshipEnd
  deriving DecidableEq, Repr

structure ForeachRshipState where
  lhsAlloca : Val
  rhsAlloca : Val
  rshipItAlloca : Val
  qrl : QrTupleList

inductive ForeachRshipConfig
  | at (b : ForeachRshipBlock) (s : ForeachRshipState)
  | call (fct : ℕ) (args : ConsumerArgs) (s : ForeachRshipState)
  | returned (s : ForeachRshipState)

def foreachRshipStep (db : GraphDb) (dir : RshipDir) (label : String) (a : ConsumerArgs) :
    ForeachRshipConfig → Option ForeachRshipConfig
  | .at .entry s =>
    let node := a.pres s.qrl
    some (.at .whileCondition { s with
      rhsAlloca := .word unknownRelId, lhsAlloca := loadField db node (rshipIdx dir).1 })
  | .at .whileCondition s =>
    match s.lhsAlloca.icmpULT s.rhsAlloca with
    | .bool true => some (.at .whileBody s)
    | .bool false => some (.at .foreachRshipEnd s)
    | _ => none
  | .at .whileBody s =>
    match s.lhsAlloca with
    | .word id =>
      match (loadField db (.rship id) 7).icmpEQ (.word (db.getCode label)) with
      | .bool true => some (.at .consumeRship { s with rshipItAlloca := .rship id })
      | .bool false => some (.at .nextRship { s with rshipItAlloca := .rship id })
      | _ => none
    | _ => none
  | .at .nextRship s =>
    some (.at .whileCondition { s with lhsAlloca := loadField db s.rshipItAlloca (rshipIdx dir).2 })
  | .at .consumeRship s =>
    let insertPos := a.prevSize+a.offset+1
    some (.call a.oid ⟨a.oid+1,a.prevSize+1,a.offset⟩ { s with
      qrl := ⟨s.qrl.size+1,Function.update s.qrl.entry insertPos s.rshipItAlloca⟩ })
  | .at .foreachRshipEnd s => some (.returned s)
  | .call .. => none
  | .returned _ => none

/-- What the next consumer function gets in its calls, from a configuration on. It returns, with any
results of its own in the array, and the function goes on behind the call. -/
inductive Calls (db : GraphDb) (dir : RshipDir) (label : String) (a : ConsumerArgs) :
    ForeachRshipConfig → List Val → Prop
  | returned {s : ForeachRshipState} : Calls db dir label a (.returned s) []
  | call {fct : ℕ} {args : ConsumerArgs} {s : ForeachRshipState} {qrl : QrTupleList}
      {xs : List Val} : Calls db dir label a (.at .nextRship { s with qrl := qrl }) xs →
      Calls db dir label a (.call fct args s) (args.pres s.qrl :: xs)
  | step {c c' : ForeachRshipConfig} {xs : List Val} : foreachRshipStep db dir label a c = some c' →
      Calls db dir label a c' xs → Calls db dir label a c xs

end CodegenVisitor

/-- The relationships in the register when the blocks of the next operator are entered, from a point
of control on. They come back with the SSA values of the loop and its bound, all else may differ. -/
inductive EntersNext (fn : Body) (env : Env) (v : CodegenInlineVisitor) :
    Label → State → List Val → Prop
  | done {σ : State} : EntersNext fn env v (v.bb .foreachRelEnd) σ []
  | enter {σ σ' : State} {xs : List Val} :
      (∀ name, σ'.reg (v.reg name) = σ.reg (v.reg name)) →
      σ'.cell (v.cell .rhsAlloca) = σ.cell (v.cell .rhsAlloca) →
      EntersNext fn env v (v.bb .nextRship) σ' xs →
      EntersNext fn env v (v.bb .consumeRship) σ (σ.reg (v.reg .rship) :: xs)
  | step {l l' : Label} {σ σ' : State} {xs : List Val} : l ≠ v.bb .foreachRelEnd →
      l ≠ v.bb .consumeRship → fn.step env (.at l σ) = some (.at l' σ') →
      EntersNext fn env v l' σ' xs → EntersNext fn env v l σ xs

/-- Both loops pass the same relationships of the node on, whatever comes next. -/
def PassSame (env : Env) (dir : RshipDir) (opId n : ℕ) : Prop :=
  ∀ (v v₁ : CodegenInlineVisitor) (inp : Plan) (node : QrValue) (σ : State) (fn : Body)
    (a : CodegenVisitor.ConsumerArgs) (s : CodegenVisitor.ForeachRshipState),
    v.Ok → (codegenInlineVisitor env.db).visit
      (.foreachRship dir (0,0) (env.args.label opId) inp) opId v = some v₁ →
    v.regQueryResults.getLast? = some node → node.regVal.eval env σ = .node n →
    (∀ name, name ≠ .consumeRship → fn (v.bb name) = v₁.code.body (v.bb name)) →
    a.pres s.qrl = .node n →
    ∃ xs, (∀ ys, EntersNext fn env v (v.bb .feEntry) σ ys ↔ ys = xs) ∧
      ∀ ys, CodegenVisitor.Calls env.db dir (env.args.label opId) a (.at .entry s) ys ↔ ys = xs

def GraphDb.passed (db : GraphDb) (code i : ℕ) : List Val :=
  if (db.rshipById i).rshipLabel = code then [.rship i] else []

section
variable {db : GraphDb} {env : Env} {dir : RshipDir} {label : String} {code i : ℕ} {xs : List Val}

namespace CodegenVisitor
variable {a : ConsumerArgs} {s : ForeachRshipState} {c c' : ForeachRshipConfig}

theorem calls_step (h : foreachRshipStep db dir label a c = some c') :
    Calls db dir label a c xs ↔ Calls db dir label a c' xs := by
  refine ⟨fun hc => ?_,.step h⟩
  cases hc with
  | returned | call => cases h
  | step h' hc' =>
    obtain rfl := Option.some.inj (h.symm.trans h')
    exact hc'

theorem calls_returned : Calls db dir label a (.returned s) xs ↔ xs = [] := by
  constructor
  · intro h
    cases h with
    | returned => rfl
    | step h' => cases h'
  · rintro rfl
    exact .returned

theorem calls_call {fct : ℕ} {args : ConsumerArgs} : Calls db dir label a (.call fct args s) xs ↔
    ∃ qrl ys, Calls db dir label a (.at .nextRship { s with qrl := qrl }) ys ∧
      xs = args.pres s.qrl :: ys := by
  constructor
  · intro h
    cases h with
    | @call _ _ _ qrl ys hys => exact ⟨qrl,ys,hys,rfl⟩
    | step h' => cases h'
  · rintro ⟨qrl,ys,hys,rfl⟩
    exact .call hys

theorem calls_rounds (db : GraphDb) (dir : RshipDir) (label : String) (a : ConsumerArgs) :
    Rounds (fun r => (db.rshipById r).nextRship dir) (fun i => decide (i < unknownRelId))
      (db.passed (db.getCode label))
      (fun i s => s.lhsAlloca = .word i ∧ s.rhsAlloca = .word unknownRelId)
      fun s => Calls db dir label a (.at .whileCondition s) where
  stop := by
    rintro i s ⟨hl,hr⟩ hi xs
    have hcond : foreachRshipStep db dir label a (.at .whileCondition s) =
        some (.at .foreachRshipEnd s) := by
      simp only [foreachRshipStep,hl,hr,Val.icmpULT,hi]
    rw [calls_step hcond,calls_step rfl,calls_returned]
  round := by
    rintro i s ys ⟨hl,hr⟩ hi hnext xs
    have hcond : foreachRshipStep db dir label a (.at .whileCondition s) =
        some (.at .whileBody s) := by
      simp only [foreachRshipStep,hl,hr,Val.icmpULT,hi]
    have hback : ∀ s' : ForeachRshipState, s'.rshipItAlloca = .rship i →
        s'.rhsAlloca = .word unknownRelId →
        ∀ xs, Calls db dir label a (.at .nextRship s') xs ↔ xs = ys := by
      intro s' hit hr' xs
      rw [calls_step rfl]
      refine hnext { s' with lhsAlloca := loadField db s'.rshipItAlloca (rshipIdx dir).2 }
        ⟨?_,hr'⟩ xs
      rw [hit]
      exact loadField_nextRship db i
    rw [calls_step hcond]
    by_cases hcode : (db.rshipById i).rshipLabel = db.getCode label
    · have hbody : foreachRshipStep db dir label a (.at .whileBody s) =
          some (.at .consumeRship { s with rshipItAlloca := .rship i }) := by
        simp [foreachRshipStep,hl,loadField,Val.icmpEQ,hcode]
      have hpres : ConsumerArgs.pres ⟨a.oid+1,a.prevSize+1,a.offset⟩ ⟨s.qrl.size+1,
          Function.update s.qrl.entry (a.prevSize+a.offset+1) (.rship i)⟩ = .rship i := by
        rw [ConsumerArgs.pres,Nat.add_right_comm]
        exact Function.update_self ..
      rw [calls_step hbody,calls_step rfl,calls_call,hpres,GraphDb.passed,if_pos hcode]
      constructor
      · rintro ⟨qrl,zs,hzs,rfl⟩
        rw [(hback { s with rshipItAlloca := .rship i, qrl := qrl } rfl hr zs).1 hzs]
        rfl
      · rintro rfl
        exact ⟨s.qrl,ys,(hback { s with rshipItAlloca := .rship i } rfl hr ys).2 rfl,rfl⟩
    · have hbody : foreachRshipStep db dir label a (.at .whileBody s) =
          some (.at .nextRship { s with rshipItAlloca := .rship i }) := by
        simp [foreachRshipStep,hl,loadField,Val.icmpEQ,hcode]
      rw [calls_step hbody,GraphDb.passed,if_neg hcode]
      exact hback { s with rshipItAlloca := .rship i } rfl hr xs

end CodegenVisitor

structure HasRshipLoop (fn : Body) (v : CodegenInlineVisitor) (dir : RshipDir) (opId : ℕ)
    (node : Expr) : Prop where
  feEntry : fn (v.bb .feEntry) = v.feEntry dir opId node ++ [.br (v.bb (.whileCondition 0))]
  whileCondition : fn (v.bb (.whileCondition 0)) =
    [.condBr (.icmpULT (.cell (v.cell .lhsAlloca)) (.cell (v.cell .rhsAlloca)))
      (v.bb (.whileBody 0)) (v.bb .foreachRelEnd)]
  whileBody : fn (v.bb (.whileBody 0)) =
    [.assign (v.reg .lhs) (.cell (v.cell .lhsAlloca)),
     .rshipById (v.reg .rship) (.reg (v.reg .lhs)),
     .condBr (rshipCmpLabel (.reg (v.reg .rship)) (.reg (v.reg .labelCode)))
       (v.bb .consumeRship) (v.bb .nextRship)]
  nextRship : fn (v.bb .nextRship) =
    [.assign (v.reg .nextRshipId) (.field (.reg (v.reg .rship)) (rshipIdx dir).2),
     .store (v.cell .lhsAlloca) (.reg (v.reg .nextRshipId)),
     .br (v.bb (.whileCondition 0))]

variable {fn : Body} {v v₁ : CodegenInlineVisitor} {inp : Plan} {opId n : ℕ} {node : QrValue}
  {σ σ' : State} {L L' : Label}

theorem HasRshipLoop.of_visit (hok : v.Ok)
    (h : (codegenInlineVisitor env.db).visit (.foreachRship dir (0,0) label inp) opId v = some v₁)
    (hnode : v.regQueryResults.getLast? = some node)
    (hfn : ∀ name, name ≠ .consumeRship → fn (v.bb name) = v₁.code.body (v.bb name)) :
    HasRshipLoop fn v dir opId node.regVal := by
  obtain ⟨node',hnode',rfl⟩ := visitForeachRship_eq h
  obtain rfl := Option.some.inj (hnode.symm.trans hnode')
  have hbody : ∀ name, name ≠ .consumeRship →
      fn (v.bb name) = (v.foreachRshipCode dir opId node.regVal).body (v.bb name) := by
    intro name hname
    rw [hfn name hname]
    exact hok.body_own _ name
  constructor
  all_goals
    rw [hbody _ (by simp)]
    simp [foreachRshipCode,whileLoopCondition,bb,hok.prevBb_ne]

theorem entersNext_step (hend : L ≠ v.bb .foreachRelEnd) (hconsume : L ≠ v.bb .consumeRship)
    (h : fn.step env (.at L σ) = some (.at L' σ')) :
    EntersNext fn env v L σ xs ↔ EntersNext fn env v L' σ' xs := by
  refine ⟨fun he => ?_,.step hend hconsume h⟩
  cases he with
  | done => exact absurd rfl hend
  | enter => exact absurd rfl hconsume
  | step _ _ h' he' =>
    obtain ⟨rfl,rfl⟩ := Config.at.inj (Option.some.inj (h.symm.trans h'))
    exact he'

theorem entersNext_done : EntersNext fn env v (v.bb .foreachRelEnd) σ xs ↔ xs = [] := by
  constructor
  · intro h
    generalize hl : v.bb .foreachRelEnd = L at h
    cases h with
    | done => rfl
    | enter => simp [bb] at hl
    | step hne => exact absurd hl.symm hne
  · rintro rfl
    exact .done

theorem entersNext_enter : EntersNext fn env v (v.bb .consumeRship) σ xs ↔
    ∃ σ' ys, (∀ name, σ'.reg (v.reg name) = σ.reg (v.reg name)) ∧
      σ'.cell (v.cell .rhsAlloca) = σ.cell (v.cell .rhsAlloca) ∧
      EntersNext fn env v (v.bb .nextRship) σ' ys ∧ xs = σ.reg (v.reg .rship) :: ys := by
  constructor
  · intro h
    generalize hl : v.bb .consumeRship = L at h
    cases h with
    | done => simp [bb] at hl
    | @enter σ σ' ys hreg hcell hys => exact ⟨σ',ys,hreg,hcell,hys,rfl⟩
    | step _ hne => exact absurd hl.symm hne
  · rintro ⟨σ',ys,hreg,hcell,hys,rfl⟩
    exact .enter hreg hcell hys

theorem HasRshipLoop.rounds (h : HasRshipLoop fn v dir opId node.regVal) (env : Env) (code : ℕ) :
    Rounds (fun r => (env.db.rshipById r).nextRship dir) (fun i => decide (i < unknownRelId))
      (env.db.passed code)
      (fun i σ => σ.reg (v.reg .labelCode) = .word code ∧ σ.cell (v.cell .lhsAlloca) = .word i ∧
        σ.cell (v.cell .rhsAlloca) = .word unknownRelId)
      fun σ => EntersNext fn env v (v.bb (.whileCondition 0)) σ where
  stop := by
    rintro i σ ⟨_,hl,hr⟩ hi xs
    have hcond : fn.step env (.at (v.bb (.whileCondition 0)) σ) =
        some (.at (v.bb .foreachRelEnd) σ) := by
      simp only [Body.step,h.whileCondition,execBlock,Expr.eval,hl,hr,Val.icmpULT,hi]
    rw [entersNext_step (by simp [bb]) (by simp [bb]) hcond,entersNext_done]
  round := by
    rintro i σ ys ⟨hcode,hl,hr⟩ hi hnext xs
    have hcond : fn.step env (.at (v.bb (.whileCondition 0)) σ) =
        some (.at (v.bb (.whileBody 0)) σ) := by
      simp only [Body.step,h.whileCondition,execBlock,Expr.eval,hl,hr,Val.icmpULT,hi]
    have hback : ∀ σ' : State, σ'.reg (v.reg .rship) = .rship i →
        σ'.reg (v.reg .labelCode) = .word code →
        σ'.cell (v.cell .rhsAlloca) = .word unknownRelId →
        ∀ xs, EntersNext fn env v (v.bb .nextRship) σ' xs ↔ xs = ys := by
      intro σ' hreg hcode' hr' xs
      let next : Val := .word ((env.db.rshipById i).nextRship dir)
      let σ₁ := (σ'.setReg (v.reg .nextRshipId) next).setCell (v.cell .lhsAlloca) next
      have hstep : fn.step env (.at (v.bb .nextRship) σ') =
          some (.at (v.bb (.whileCondition 0)) σ₁) := by
        rw [Body.step,h.nextRship]
        simp [execBlock,Instr.exec,Expr.eval,hreg,loadField_nextRship,σ₁,next]
      rw [entersNext_step (by simp [bb]) (by simp [bb]) hstep]
      refine hnext σ₁ ⟨?_,?_,?_⟩ xs
      · simpa [σ₁,reg] using hcode'
      · simp [σ₁,next]
      · simpa [σ₁,cell] using hr'
    let σ₁ := (σ.setReg (v.reg .lhs) (.word i)).setReg (v.reg .rship) (.rship i)
    have hreg : σ₁.reg (v.reg .rship) = .rship i := by simp [σ₁]
    have hcode₁ : σ₁.reg (v.reg .labelCode) = .word code := by simpa [σ₁,reg] using hcode
    have hbody : fn.step env (.at (v.bb (.whileBody 0)) σ) =
        some (.at (v.bb (if (env.db.rshipById i).rshipLabel = code then .consumeRship
          else .nextRship)) σ₁) := by
      have hlabel : σ.reg ⟨v.visits,.labelCode⟩ = .word code := hcode
      rw [Body.step,h.whileBody]
      by_cases hc : (env.db.rshipById i).rshipLabel = code
      all_goals
        simp [execBlock,Instr.exec,Expr.eval,reg,hl,hlabel,rshipCmpLabel,loadField,Val.icmpEQ,hc,
          σ₁]
    rw [entersNext_step (by simp [bb]) (by simp [bb]) hcond,
      entersNext_step (by simp [bb]) (by simp [bb]) hbody,GraphDb.passed]
    split
    · rw [entersNext_enter,hreg]
      constructor
      · rintro ⟨σ',zs,hregs,hcell,hzs,rfl⟩
        rw [(hback σ' (hregs _ ▸ hreg) (hregs _ ▸ hcode₁) (hcell ▸ hr) zs).1 hzs]
        rfl
      · rintro rfl
        exact ⟨σ₁,ys,fun _ => rfl,rfl,(hback σ₁ hreg hcode₁ hr ys).2 rfl,rfl⟩
    · exact hback σ₁ hreg hcode₁ hr xs

theorem HasRshipLoop.entersNext_iff (h : HasRshipLoop fn v dir opId node.regVal)
    (hb : node.Below v.visits) (hn : node.regVal.eval env σ = .node n) :
    EntersNext fn env v (v.bb .feEntry) σ xs ↔
      xs = (env.db.rships dir n).flatMap (env.db.passed (env.db.argLabel env.args opId)) := by
  let list : Val := .word ((env.db.nodeById n).rshipList dir)
  let σ₁ := (((σ.setCell (v.cell .rhsAlloca) (.word unknownRelId)).setReg (v.reg .labelCode)
    (.word (env.db.argLabel env.args opId))).setReg (v.reg .nodeRshipId) list).setCell
    (v.cell .lhsAlloca) list
  have hstep : fn.step env (.at (v.bb .feEntry) σ) =
      some (.at (v.bb (.whileCondition 0)) σ₁) := by
    rw [Body.step,h.feEntry]
    simp [CodegenInlineVisitor.feEntry,execBlock,Instr.exec,Expr.eval,reg,hb.eval_setReg,
      hb.eval_setCell,hn,loadField_rshipIdx,σ₁,list]
  rw [entersNext_step (by simp [bb]) (by simp [bb]) hstep]
  refine (h.rounds env _).yields_iff_of_forall (by decide) (env.db.rships_chain dir n)
    ⟨?_,?_,?_⟩ fun i hi => decide_eq_true hi
  · simp [σ₁,reg]
  · simp [σ₁,list]
  · simp [σ₁,cell]

theorem CodegenVisitor.calls_iff {a : ConsumerArgs} {s : ForeachRshipState}
    (hn : a.pres s.qrl = .node n) : Calls db dir label a (.at .entry s) xs ↔
      xs = ((db.rships dir n).takeWhile fun i => decide (i < unknownRelId)).flatMap
        (db.passed (db.getCode label)) := by
  rw [calls_step rfl]
  refine (calls_rounds db dir label a).yields_iff (by decide) (db.rships_chain dir n) ⟨?_,rfl⟩
  rw [hn]
  exact loadField_rshipIdx db n

/-- What the two loops pass is the same if the second one is not ended by a large id. -/
theorem passSame_eq_iff : PassSame env dir opId n ↔
    ((env.db.rships dir n).takeWhile fun i => decide (i < CodegenVisitor.unknownRelId)).flatMap
        (env.db.passed (env.db.argLabel env.args opId)) =
      (env.db.rships dir n).flatMap (env.db.passed (env.db.argLabel env.args opId)) := by
  constructor
  · intro h
    let v := typeVisitor [0]
    let node : QrValue := ⟨.reg (typeReg 0),0⟩
    obtain ⟨v₁,hvisit⟩ : ∃ v₁, (codegenInlineVisitor env.db).visit
        (.foreachRship dir (0,0) (env.args.label opId) .endOp) opId v = some v₁ := ⟨_,rfl⟩
    let σ := typeState.setReg (typeReg 0) (.node n)
    have hn : node.regVal.eval env σ = .node n := by simp [node,σ,Expr.eval]
    let a : CodegenVisitor.ConsumerArgs := ⟨1,1,0⟩
    let s : CodegenVisitor.ForeachRshipState := ⟨.undef,.undef,.undef,⟨1,fun _ => .node n⟩⟩
    obtain ⟨xs,hinline,hcalls⟩ := h v v₁ .endOp node σ v₁.code.body a s (typeVisitor_ok [0]) hvisit
      rfl hn (fun _ _ => rfl) rfl
    have hloop := HasRshipLoop.of_visit (typeVisitor_ok [0]) hvisit rfl fun _ _ => rfl
    have hxs := (hinline _).1 ((hloop.entersNext_iff Nat.one_pos hn).2 rfl)
    exact ((hcalls _).1 ((CodegenVisitor.calls_iff rfl).2 rfl)).trans hxs.symm
  · intro heq v v₁ inp node σ fn a s hok hvisit hnode hn hfn hpres
    have hloop := HasRshipLoop.of_visit hok hvisit hnode hfn
    have hb : node.Below v.visits := hok.regs _ (List.mem_of_getLast? hnode)
    refine ⟨_,fun ys => hloop.entersNext_iff hb hn,fun ys => ?_⟩
    rw [CodegenVisitor.calls_iff hpres,← heq]
    rfl

end

/-- Both loops pass the same relationships on exactly if none with the label is behind, or at, the
first one with an id that the consumer function takes for the end. -/
theorem passSame_iff (env : Env) (dir : RshipDir) (opId n : ℕ) : PassSame env dir opId n ↔
    ∀ i ∈ (env.db.rships dir n).dropWhile fun i => decide (i < CodegenVisitor.unknownRelId),
      (env.db.rshipById i).rshipLabel ≠ env.db.argLabel env.args opId := by
  rw [passSame_eq_iff,flatMap_takeWhile_eq_iff]
  refine forall₂_congr fun i _ => ?_
  unfold GraphDb.passed
  split
  · next h => simp [h]
  · next h => simp [h]

def largeNode (n : ℕ) : Node :=
  ⟨n,if n = 0 then CodegenVisitor.unknownRelId else unknownId,unknownId,unknownId,6⟩

theorem largeNode_rships (n : ℕ) (dir : RshipDir) : ∃ l : List ℕ, l.length ≤ pairDb.size ∧
    IsChain (fun r => (pairDb.rshipById r).nextRship dir) unknownId IsId
      ((largeNode n).rshipList dir) l := by
  cases dir with
  | FROM =>
    by_cases hn : n = 0
    · subst hn
      exact ⟨[CodegenVisitor.unknownRelId],Nat.le_refl 1,.cons (by decide) .nil⟩
    · refine ⟨[],Nat.zero_le 1,?_⟩
      rw [Node.rshipList,largeNode,if_neg hn]
      exact .nil
  | TO => exact ⟨[],Nat.zero_le 1,.nil⟩

theorem largeNode_properties (n : ℕ) : ∃ l : List ℕ, l.length ≤ pairDb.size ∧
    IsChain (fun p => (pairDb.propertySet p).next) unknownId IsId (largeNode n).propertyList l :=
  ⟨[],Nat.zero_le 1,.nil⟩

def largeDb : GraphDb :=
  { pairDb with
    nodeById := largeNode
    nodeById_id := fun _ => rfl
    rshipList_ends := largeNode_rships
    propertyList_ends := largeNode_properties }

def largeEnv : Env := { pairEnv fun _ => "knows" with db := largeDb }

/-- The consumer function does not pass the relationship of node 0 on. -/
theorem not_passSame_large : ¬ PassSame largeEnv .FROM 1 0 := by
  rw [passSame_eq_iff]
  decide

end GraphQueryCompiler
