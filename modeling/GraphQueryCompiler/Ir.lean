import GraphQueryCompiler.QOperator
import GraphQueryCompiler.Lib.StepMachine

/-!
# The intermediate code and its execution

The fragment of LLVM IR that the inline visitor emits, with one instruction for each
extern function it calls. Basic blocks, SSA values and allocas are named by the visit
that creates them and by the name the source gives them. A block is the list of
instructions inserted into it; it runs up to its first terminator.
-/

namespace GraphQueryCompiler

/-- The basic blocks of the operators. `whileCondition`, `whileBody` and
`whileBodyEpilog` carry the number of the loop within the visit, the blocks of a filter
the operand number `opd_cnt`. -/
inductive BlockName
  | entry | scanNodesEnd | consumeNode
  | whileCondition (i : ℕ) | whileBody (i : ℕ) | whileBodyEpilog (i : ℕ) | whileEnd
  | feEntry | foreachRelEnd | nextRship | consumeRship | fevLoopHead | fevLoopBody
  | projectEntry
  | expandEntry | expandConsume | expandFalse | checkLabel
  | filterEntry | filterConsume | filterFalse
  | searchPitem (i : ℕ) | isNode (i : ℕ) | isRship (i : ℕ) | forEachPitem (i : ℕ)
  | forEachIncrement (i : ℕ) | pitemFound (i : ℕ) | nextPropIt (i : ℕ)
  | epilog (i : ℕ) | cmpEq (i : ℕ) | cmpAnd (i : ℕ) | cmpOr (i : ℕ)
  | collectEntry
  | entryJoinLhs | leftOuter | forEachNextRship | concatQrl | incrLoop | undang
  | handleRet | consume | endJoin
  | limitEntry | limitReached | limitCont
  | entryJoinRhs
  deriving DecidableEq, Repr

inductive RegName
  | labelCode | nodeBeginIt | endCond | nodeRaw | node | nextIt
  | nodeRshipId | lhs | rship | nextRshipId | isEnd
  | arg | plistId (i : ℕ) | pid (i : ℕ) | pset (i : ℕ) | pitemIdx (i : ℕ) | curItem (i : ℕ)
  | idxpp (i : ℕ) | cmp (i : ℕ) | fctRes
  | ma | idx | tp | rhs | rhsId | curId | toNode | lh | dang | res (i : ℕ)
  | curCnt
  deriving DecidableEq, Repr

inductive CellName
  | resCounter | rhsAlloca | lhsAlloca | curPset | plistId | maxIdx | maxCnt | curIdx
  | loopCnt | crossJoinIdx | dangling | pv (i : ℕ)
  | ra | ridx
  | cmpRes (i : ℕ)
  deriving DecidableEq, Repr

structure Label where
  visit : ℕ
  name : BlockName
  deriving DecidableEq, Repr

structure Reg where
  visit : ℕ
  name : RegName
  deriving DecidableEq, Repr

structure Cell where
  owner : ℕ
  name : CellName
  deriving DecidableEq, Repr

/-- An entry of a `qr_tuple`. A projected property is named by its object and key; `ptr` is
the address of a cell that was stored as a relationship. -/
inductive QrVal
  | node (id : ℕ)
  | rship (id : ℕ)
  | int (n : ℕ)
  | property (isNode : Bool) (id : ℕ) (key : String) (type : FType)
  | ptr (c : Cell)
  deriving DecidableEq, Repr

inductive Val
  | undef
  | null
  | word (n : ℕ)
  | bool (b : Bool)
  | node (id : ℕ)
  | rship (id : ℕ)
  | pset (id : ℕ)
  | item (pset idx : ℕ)
  | iter (handle : ℕ)
  | tuple (t : List QrVal)
  | cell (c : Cell)
  | property (isNode : Bool) (id : ℕ) (key : String) (type : FType)
  deriving DecidableEq, Repr

/-- Operands. `cell` loads an alloca, `addr` is the alloca itself, `field e i` loads
`StructGEP(e, i)`, `itemAt` is the address of an array element. -/
inductive Expr
  | const (n : ℕ)
  | bool (b : Bool)
  | reg (r : Reg)
  | cell (c : Cell)
  | addr (c : Cell)
  | argWord (opId : ℕ)
  | field (e : Expr) (i : ℕ)
  | itemAt (e idx : Expr)
  | icmpEQ (a b : Expr)
  | icmpULT (a b : Expr)
  | icmpULE (a b : Expr)
  | add (a b : Expr)
  | and (a b : Expr)
  | or (a b : Expr)
  | isNull (e : Expr)
  deriving DecidableEq, Repr

inductive Instr
  | store (c : Cell) (e : Expr)
  | assign (r : Reg) (e : Expr)
  | dictLookupLabel (r : Reg) (opId : ℕ)
  | getVecBegin (r : Reg)
  | vecEndReached (r : Reg) (it : Expr)
  | getVecNext (r : Reg) (it : Expr)
  | getNodeFromIt (r : Reg) (it : Expr)
  | getValidNode (r : Reg) (n : Expr)
  | indexGetNode (r : Reg) (opId : ℕ)
  | rshipById (r : Reg) (id : Expr)
  | nodeById (r : Reg) (id : Expr)
  | psetGetItemAt (r : Reg) (id : Expr)
  | foreachFromVariableRship (lcode n : Expr) (minHop maxHop : ℤ)
  | fevListEnd (r : Reg)
  | getNextRshipFev (r : Reg)
  | callFct (r : Reg) (fct : ℕ) (e : Expr)
  | applyPexpr (isNode : Bool) (key : String) (type : FType) (e : Expr) (dst : Cell)
  | matRegValue (e : Expr) (type : ℕ)
  | collectTuple
  | matNode (e : Expr)
  | matRship (e : Expr)
  | collectTupleJoin (jid : ℕ)
  | getMatResSize (r : Reg) (jid : ℕ)
  | getJoinTpAt (r : Reg) (jid : ℕ) (pos : Expr)
  | getNodeResAt (r : Reg) (tp : Expr) (pos : ℕ)
  | getRshipResAt (r : Reg) (tp : Expr) (pos : ℕ)
  | callFinish
  | br (l : Label)
  | condBr (c : Expr) (t f : Label)
  | ret
  deriving DecidableEq, Repr

/-- The externally visible effects, in order. -/
inductive Event
  | collect (t : List QrVal)
  | materialize (jid : ℕ) (t : List QrVal)
  | finish
  deriving DecidableEq, Repr

/-- The parameters of one call of the start function: the graph, the argument array, the
chunk range, the functions behind `fct_call` handles, and the content of an
uninitialised local. -/
structure Env where
  db : GraphDb
  args : QueryArgs
  first : ℕ
  last : ℕ
  fct : ℕ → Val → Bool
  uninit : Val

def pairEnv (label : ℕ → String) : Env := ⟨pairDb,⟨label,fun _ => 5⟩,0,1,fun _ _ => false,.undef⟩

def chunksEnv : Env := { pairEnv fun _ => "Person" with db := { pairDb with chunks := [[0],[1]] } }

structure State where
  reg : Reg → Val
  cell : Cell → Val
  /-- The range iterators; the handle of an iterator is its position. -/
  iters : List (List ℕ)
  /-- The thread-local `tp` of `mat_reg_value`. -/
  tp : List QrVal
  /-- The thread-local `mat_tuple` of `mat_node` and `mat_rship`. -/
  matTuple : List QrVal
  /-- `joiner::rhs_input_` -/
  rhsInput : ℕ → List (List QrVal)
  fevRshipList : List ℕ
  fevListIter : ℕ
  trace : List Event

def State.setReg (σ : State) (r : Reg) (v : Val) : State :=
  { σ with reg := fun r' => if r' = r then v else σ.reg r' }

def State.setCell (σ : State) (c : Cell) (v : Val) : State :=
  { σ with cell := fun c' => if c' = c then v else σ.cell c' }

def State.emit (σ : State) (e : Event) : State := { σ with trace := σ.trace ++ [e] }

namespace State
variable (σ : State) (r : Reg) (c : Cell) (v : Val)

@[simp] theorem setReg_reg (r' : Reg) :
    (σ.setReg r v).reg r' = if r' = r then v else σ.reg r' := rfl
@[simp] theorem setReg_cell : (σ.setReg r v).cell = σ.cell := rfl
@[simp] theorem setReg_iters : (σ.setReg r v).iters = σ.iters := rfl
@[simp] theorem setReg_tp : (σ.setReg r v).tp = σ.tp := rfl
@[simp] theorem setReg_matTuple : (σ.setReg r v).matTuple = σ.matTuple := rfl
@[simp] theorem setReg_rhsInput : (σ.setReg r v).rhsInput = σ.rhsInput := rfl
@[simp] theorem setReg_trace : (σ.setReg r v).trace = σ.trace := rfl

@[simp] theorem setCell_cell (c' : Cell) :
    (σ.setCell c v).cell c' = if c' = c then v else σ.cell c' := rfl
@[simp] theorem setCell_reg : (σ.setCell c v).reg = σ.reg := rfl
@[simp] theorem setCell_iters : (σ.setCell c v).iters = σ.iters := rfl
@[simp] theorem setCell_tp : (σ.setCell c v).tp = σ.tp := rfl
@[simp] theorem setCell_matTuple : (σ.setCell c v).matTuple = σ.matTuple := rfl
@[simp] theorem setCell_rhsInput : (σ.setCell c v).rhsInput = σ.rhsInput := rfl
@[simp] theorem setCell_trace : (σ.setCell c v).trace = σ.trace := rfl

end State

/-- A load through a `StructGEP`. A relationship shares the layout of a node up to field 4,
so a cast pointer reads the relationship's own field. -/
def loadField (g : GraphDb) : Val → ℕ → Val
  | .node n, 1 => .word (g.nodeById n).id
  | .node n, 2 => .word (g.nodeById n).fromRshipList
  | .node n, 3 => .word (g.nodeById n).toRshipList
  | .node n, 4 => .word (g.nodeById n).propertyList
  | .node n, 5 => .word (g.nodeById n).nodeLabel
  | .rship r, 1 => .word (g.rshipById r).id
  | .rship r, 2 => .word (g.rshipById r).srcNode
  | .rship r, 3 => .word (g.rshipById r).destNode
  | .rship r, 4 => .word (g.rshipById r).nextSrcRship
  | .rship r, 5 => .word (g.rshipById r).nextDestRship
  | .rship r, 6 => .word (g.rshipById r).propertyList
  | .rship r, 7 => .word (g.rshipById r).rshipLabel
  | .pset p, 0 => .word (g.propertySet p).next
  | .pset p, 1 => .word (g.propertySet p).owner
  | .item p i, 0 => if h : i < 3 then .word ((g.propertySet p).items ⟨i,h⟩).value else .undef
  | .item p i, 1 => if h : i < 3 then .word ((g.propertySet p).items ⟨i,h⟩).key else .undef
  | _, _ => .undef

def Val.isNull : Val → Val
  | .undef => .undef
  | .null => .bool true
  | _ => .bool false

def Val.icmpEQ : Val → Val → Val
  | .word a, .word b => .bool (a = b)
  | .bool a, .bool b => .bool (a = b)
  | _, _ => .undef

def Val.icmpULT : Val → Val → Val
  | .word a, .word b => .bool (a < b)
  | _, _ => .undef

def Val.icmpULE : Val → Val → Val
  | .word a, .word b => .bool (a ≤ b)
  | _, _ => .undef

def Val.add : Val → Val → Val
  | .word a, .word b => .word (a+b)
  | _, _ => .undef

def Val.and : Val → Val → Val
  | .bool a, .bool b => .bool (a && b)
  | _, _ => .undef

def Val.or : Val → Val → Val
  | .bool a, .bool b => .bool (a || b)
  | _, _ => .undef

def Val.itemAt : Val → Val → Val
  | .pset p, .word i => .item p i
  | _, _ => .undef

def Val.items : Val → Val
  | .pset p => .pset p -- an item array is named by its property set
  | _ => .undef

def Expr.eval (env : Env) (σ : State) : Expr → Val
  | .const n => .word n
  | .bool b => .bool b
  | .reg r => σ.reg r
  | .cell c => σ.cell c
  | .addr c => .cell c
  | .argWord opId => .word (env.args.word opId)
  | .field e i => loadField env.db (e.eval env σ) i
  | .itemAt e idx => (e.eval env σ).itemAt (idx.eval env σ)
  | .icmpEQ a b => (a.eval env σ).icmpEQ (b.eval env σ)
  | .icmpULT a b => (a.eval env σ).icmpULT (b.eval env σ)
  | .icmpULE a b => (a.eval env σ).icmpULE (b.eval env σ)
  | .add a b => (a.eval env σ).add (b.eval env σ)
  | .and a b => (a.eval env σ).and (b.eval env σ)
  | .or a b => (a.eval env σ).or (b.eval env σ)
  | .isNull e => (e.eval env σ).isNull

def matRegVal (σ : State) : Val → ℕ → Option QrVal
  | .node n, 0 => some (.node n)
  | .rship r, 1 => some (.rship r)
  | .cell c, _+2 =>
    match σ.cell c with
    | .word n => some (.int n)
    | .property isNode id key type => some (.property isNode id key type)
    | _ => none
  | _, _ => none

/-- The effect of an instruction that is not a terminator; `none` is undefined behaviour. -/
def Instr.exec (env : Env) (σ : State) : Instr → Option State
  | .store c e => some (σ.setCell c (e.eval env σ))
  | .assign r e => some (σ.setReg r (e.eval env σ))
  | .dictLookupLabel r opId => some (σ.setReg r (.word (env.db.argLabel env.args opId)))
  | .getVecBegin r =>
    some ({ σ with iters := σ.iters ++ [env.db.range env.first env.last] }.setReg r
      (.iter σ.iters.length))
  | .vecEndReached r it =>
    match it.eval env σ with
    | .iter h => (σ.iters[h]?).map fun ns => σ.setReg r (.bool ns.isEmpty)
    | _ => none
  | .getVecNext r it =>
    match it.eval env σ with
    | .iter h => some ({ σ with iters := σ.iters.modify h List.tail }.setReg r (.iter h))
    | _ => none
  | .getNodeFromIt r it =>
    match it.eval env σ with
    | .iter h => (σ.iters[h]?.bind List.head?).map fun n => σ.setReg r (.node n)
    | _ => none
  | .getValidNode r n =>
    match n.eval env σ with
    | .node n => some (σ.setReg r (.node n))
    | _ => none
  | .indexGetNode r opId =>
    let found := env.db.indexLookup (env.args.label opId) (env.args.label (opId+1))
      (env.args.word (opId+2))
    some (σ.setReg r (match found.getLast? with | some n => .node n | none => env.uninit))
  | .rshipById r id =>
    match id.eval env σ with
    | .word i => some (σ.setReg r (.rship i))
    | _ => none
  | .nodeById r id =>
    match id.eval env σ with
    | .word i => some (σ.setReg r (.node i))
    | _ => none
  | .psetGetItemAt r id =>
    match id.eval env σ with
    | .word i => some (σ.setReg r (.pset i))
    | _ => none
  | .foreachFromVariableRship lcode n minHop maxHop =>
    match lcode.eval env σ, n.eval env σ with
    | .word l, .node i =>
      let found := env.db.variableFrom i l minHop maxHop
      some { σ with fevRshipList := σ.fevRshipList ++ found, fevListIter := 0 }
    | _, _ => none
  | .fevListEnd r =>
    if σ.fevListIter = σ.fevRshipList.length then
      some ({ σ with fevRshipList := [] }.setReg r (.bool true))
    else some (σ.setReg r (.bool false))
  | .getNextRshipFev r =>
    (σ.fevRshipList[σ.fevListIter]?).map fun i =>
      { σ with fevListIter := σ.fevListIter+1 }.setReg r (.rship i)
  | .callFct r fct e => some (σ.setReg r (.bool (env.fct fct (e.eval env σ))))
  | .applyPexpr isNode key type e dst =>
    match e.eval env σ with
    | .node n => some (σ.setCell dst (.property isNode n key type))
    | .rship r => some (σ.setCell dst (.property isNode r key type))
    | _ => none
  | .matRegValue e type =>
    (matRegVal σ (e.eval env σ) type).map fun v => { σ with tp := σ.tp ++ [v] }
  | .collectTuple => some { σ.emit (.collect σ.tp) with tp := [] }
  | .matNode e =>
    match e.eval env σ with
    | .node n => some { σ with matTuple := σ.matTuple ++ [.node n] }
    | _ => none
  | .matRship e =>
    match e.eval env σ with
    | .rship r => some { σ with matTuple := σ.matTuple ++ [.rship r] }
    | .cell c => some { σ with matTuple := σ.matTuple ++ [.ptr c] }
    | _ => none
  | .collectTupleJoin jid =>
    some { σ.emit (.materialize jid σ.matTuple) with
      rhsInput := fun j => if j = jid then σ.rhsInput j ++ [σ.matTuple] else σ.rhsInput j
      matTuple := [] }
  | .getMatResSize r jid => some (σ.setReg r (.word (σ.rhsInput jid).length))
  | .getJoinTpAt r jid pos =>
    match pos.eval env σ with
    | .word i => ((σ.rhsInput jid)[i]?).map fun t => σ.setReg r (.tuple t)
    | _ => none
  | .getNodeResAt r tp pos =>
    match tp.eval env σ with
    | .tuple t =>
      match t[pos]? with
      | some (.node n) => some (σ.setReg r (.node n))
      | _ => none
    | _ => none
  | .getRshipResAt r tp pos =>
    match tp.eval env σ with
    | .tuple t =>
      match t[pos]? with
      | some (.rship i) => some (σ.setReg r (.rship i))
      | some (.ptr c) => some (σ.setReg r (.cell c))
      | _ => none
    | _ => none
  | .callFinish => some (σ.emit .finish)
  | .br _ => none
  | .condBr .. => none
  | .ret => none

inductive Config
  | at (l : Label) (σ : State)
  | returned (σ : State)

/-- Runs a block up to its terminator; a block that ends without one is malformed. -/
def execBlock (env : Env) : List Instr → State → Option Config
  | [], _ => none
  | .br l :: _, σ => some (.at l σ)
  | .condBr c t f :: _, σ =>
    match c.eval env σ with
    | .bool true => some (.at t σ)
    | .bool false => some (.at f σ)
    | _ => none
  | .ret :: _, σ => some (.returned σ)
  | i :: is, σ => (i.exec env σ).bind (execBlock env is)

abbrev Body := Label → List Instr

def Body.step (fn : Body) (env : Env) : Config → Option Config
  | .at l σ => execBlock env (fn l) σ
  | .returned _ => none

/-- What an `IRBuilder` has inserted so far, and where, in order of insertion. -/
abbrev Code := List (Label × List Instr)

def Code.body (code : Code) : Body := fun l =>
  code.flatMap fun e => if e.1 = l then e.2 else []

inductive WhileCond
  | EQ
  | UEQ
  | LT
  | LE
  | GT
  | GE

/-- `PContext::while_loop_condition`, inserted from block `cur` as loop `i` of visit `k`. Its
result, the condition block, is `⟨k, .whileCondition i⟩`. -/
def whileLoopCondition (cur : Label) (k i : ℕ) (lhs rhs : Cell) (cond : WhileCond)
    (endBB : Label) (loopBody : List Instr) : Code :=
  let body : Label := ⟨k,.whileBody i⟩
  let branch : Instr := match cond with
    | .EQ => .condBr (.icmpEQ (.cell lhs) (.cell rhs)) body endBB
    | .UEQ => .condBr (.icmpEQ (.cell lhs) (.cell rhs)) endBB body
    | .LT => .condBr (.icmpULT (.cell lhs) (.cell rhs)) body endBB
    | .LE => .condBr (.icmpULE (.cell lhs) (.cell rhs)) body endBB
    | .GT => .condBr (.icmpULT (.cell rhs) (.cell lhs)) body endBB
    | .GE => .condBr (.icmpULE (.cell rhs) (.cell lhs)) body endBB
  [(cur,[.br ⟨k,.whileCondition i⟩]),
   (⟨k,.whileCondition i⟩,[branch]),
   (body,loopBody),
   (⟨k,.whileBodyEpilog i⟩,[.br ⟨k,.whileCondition i⟩])]

def nodeCmpLabel (node labelCode : Expr) : Expr := .icmpEQ (.field node 5) labelCode

def rshipCmpLabel (rship labelCode : Expr) : Expr := .icmpEQ (.field rship 7) labelCode

end GraphQueryCompiler
