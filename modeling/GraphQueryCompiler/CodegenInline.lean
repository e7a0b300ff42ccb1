import GraphQueryCompiler.FilterExpressionInline

/-!
# The inline code generator

`codegen_inline_visitor`: all operators of a plan are emitted into one start function.
The visitor remembers the block the next operator continues from (`prevBb`), the block
that asks the previous operators for their next tuple (`mainReturn`) and the registers of
the tuple. Every further scan is put in front of the function and falls through to the
code that was there before.
-/

namespace GraphQueryCompiler

def Plan.projectionKeys : Plan → List String
  | .scan _ _ inp => inp.projectionKeys
  | .foreachRship _ _ _ inp => inp.projectionKeys
  | .expand _ _ inp => inp.projectionKeys
  | .filter _ inp => inp.projectionKeys
  | .project prexpr inp => prexpr.map PrExpr.key ++ inp.projectionKeys
  | .join _ _ lhs _ => lhs.projectionKeys
  | .sort _ inp => inp.projectionKeys
  | .limit _ inp => inp.projectionKeys
  | .create _ _ inp => inp.projectionKeys
  | .collect _ => []
  | .endOp => []

/-- `get_rhs_type`: the register types of the tuples a right-hand side materialises. -/
def Plan.rhsType : Plan → List ℕ
  | .scan _ _ inp => 0 :: inp.rhsType
  | .foreachRship _ _ _ inp => 1 :: inp.rhsType
  | .expand _ _ inp => 0 :: inp.rhsType
  | .filter _ inp => inp.rhsType
  | .project _ inp => inp.rhsType
  | .join .CROSS _ lhs rhs => rhs.rhsType ++ lhs.rhsType
  | .join .LEFT_OUTER _ lhs rhs => rhs.rhsType ++ lhs.rhsType
  | .join _ _ lhs _ => lhs.rhsType
  | .sort _ inp => inp.rhsType
  | .limit _ inp => inp.rhsType
  | .create _ _ inp => inp.rhsType
  | .collect _ => []
  | .endOp => []

/-- The members of `codegen_inline_visitor` that code generation reads. `visits` counts the
calls of `visit` and names what each of them creates; `scan` is the visit whose
`init_function` made the current allocas; `entry` is the first block of `main_function`,
which does not exist before the first access path. -/
structure CodegenInlineVisitor where
  code : Code
  visits : ℕ
  scan : ℕ
  entry : Option Label
  mainReturn : Label
  prevBb : Label
  scanNodesEnd : Label
  queryIdInline : ℕ
  jids : List ℕ
  regQueryResults : List QrValue
  projectString : List String
  projectKeys : List String
  exprRegister : ℕ → Option Expr

namespace CodegenInlineVisitor

def init (exprRegister : ℕ → Option Expr) : CodegenInlineVisitor where
  code := []
  visits := 0
  scan := 0
  entry := none
  mainReturn := ⟨0,.entry⟩
  prevBb := ⟨0,.entry⟩
  scanNodesEnd := ⟨0,.entry⟩
  queryIdInline := 0
  jids := []
  regQueryResults := []
  projectString := []
  projectKeys := []
  exprRegister := exprRegister

variable (v : CodegenInlineVisitor)

def bb (name : BlockName) : Label := ⟨v.visits,name⟩
def reg (name : RegName) : Reg := ⟨v.visits,name⟩
def cell (name : CellName) : Cell := ⟨v.scan,name⟩

/-- Completes a visit: what it inserted, and the block the next operator continues from. -/
def emit (code : Code) (prevBb : Label) : CodegenInlineVisitor :=
  { v with code := v.code ++ code, visits := v.visits+1, prevBb := prevBb }

def initFunction (k : ℕ) : List Instr :=
  [.store ⟨k,.resCounter⟩ (.const 0),
   .store ⟨k,.rhsAlloca⟩ (.const unknownId),
   .store ⟨k,.maxCnt⟩ (.const 3)]

def scanCode (opId : ℕ) (last : List Instr) : Code :=
  let it : Expr := .reg (v.reg .nodeBeginIt)
  let body := v.bb (.whileBody 0)
  let notEnd (l : Label) : Instr :=
    .condBr (.icmpEQ (.reg (v.reg .endCond)) (.bool false)) body l
  [(v.bb .entry,initFunction v.visits ++
    [.dictLookupLabel (v.reg .labelCode) opId,
     .getVecBegin (v.reg .nodeBeginIt),
     .br (v.bb (.whileCondition 0))]),
   (v.bb (.whileCondition 0),
    [.vecEndReached (v.reg .endCond) it,notEnd (v.bb .whileEnd)]),
   (body,
    [.getNodeFromIt (v.reg .nodeRaw) it,
     .getValidNode (v.reg .node) (.reg (v.reg .nodeRaw)),
     .condBr (nodeCmpLabel (.reg (v.reg .node)) (.reg (v.reg .labelCode)))
       (v.bb .consumeNode) (v.bb (.whileBodyEpilog 0))]),
   (v.bb (.whileBodyEpilog 0),
    [.getVecNext (v.reg .nextIt) it,
     .vecEndReached (v.reg .endCond) (.reg (v.reg .nextIt)),notEnd (v.bb .whileEnd)]),
   (v.bb .whileEnd,[.br (v.bb .scanNodesEnd)]),
   (v.bb .scanNodesEnd,last)]

/-- The code of an index scan, which consumes at most one node. -/
def indexScanCode (opId : ℕ) (last : List Instr) : Code :=
  [(v.bb .entry,initFunction v.visits ++
    [.indexGetNode (v.reg .node) opId,
     .condBr (.isNull (.reg (v.reg .node))) (v.bb .scanNodesEnd) (v.bb .consumeNode)]),
   (v.bb .scanNodesEnd,last)]

/-- `visit(scan_op)`. The end of the first access path calls the finish function and
returns, the end of a later one continues with the previous entry block. -/
def visitScan (indexed : Bool) (inp : Plan) (opId : ℕ) : CodegenInlineVisitor :=
  let last : List Instr := match v.entry with
    | none => [.callFinish,.ret]
    | some nextOp => [.br nextOp]
  let projectString := v.projectString ++ inp.projectionKeys
  { v.emit (if indexed then v.indexScanCode opId last else v.scanCode opId last)
      (v.bb .consumeNode) with
    scan := v.visits
    entry := some (v.bb .entry)
    scanNodesEnd := v.bb .scanNodesEnd
    mainReturn := v.bb (if indexed then .scanNodesEnd else .whileBodyEpilog 0)
    regQueryResults := [⟨.reg (v.reg .node),0⟩]
    projectString := projectString
    projectKeys := projectString }

def rshipIdx : RshipDir → ℕ × ℕ
  | .FROM => (2,4)
  | .TO => (3,5)

def feEntry (dir : RshipDir) (opId : ℕ) (node : Expr) : List Instr :=
  [.store (v.cell .rhsAlloca) (.const unknownRelId),
   .dictLookupLabel (v.reg .labelCode) opId,
   .assign (v.reg .nodeRshipId) (.field node (rshipIdx dir).1),
   .store (v.cell .lhsAlloca) (.reg (v.reg .nodeRshipId))]

def foreachRshipCode (dir : RshipDir) (opId : ℕ) (node : Expr) : Code :=
  let rship : Expr := .reg (v.reg .rship)
  [(v.prevBb,[.br (v.bb .feEntry)]),
   (v.bb .feEntry,v.feEntry dir opId node)] ++
  whileLoopCondition (v.bb .feEntry) v.visits 0 (v.cell .lhsAlloca) (v.cell .rhsAlloca) .LT
    (v.bb .foreachRelEnd)
    [.assign (v.reg .lhs) (.cell (v.cell .lhsAlloca)),
     .rshipById (v.reg .rship) (.reg (v.reg .lhs)),
     .condBr (rshipCmpLabel rship (.reg (v.reg .labelCode)))
       (v.bb .consumeRship) (v.bb .nextRship)] ++
  [(v.bb .nextRship,
    [.assign (v.reg .nextRshipId) (.field rship (rshipIdx dir).2),
     .store (v.cell .lhsAlloca) (.reg (v.reg .nextRshipId)),
     .br (v.bb (.whileCondition 0))]),
   (v.bb .foreachRelEnd,[.br v.mainReturn])]

def foreachVariableCode (dir : RshipDir) (hops : ℤ × ℤ) (opId : ℕ) (node : Expr) : Code :=
  [(v.prevBb,[.br (v.bb .feEntry)]),
   (v.bb .feEntry,v.feEntry dir opId node ++
    [.foreachFromVariableRship (.reg (v.reg .labelCode)) node hops.1 hops.2,
     .br (v.bb .fevLoopHead)]),
   (v.bb .fevLoopHead,
    [.fevListEnd (v.reg .isEnd),
     .condBr (.reg (v.reg .isEnd)) (v.bb .foreachRelEnd) (v.bb .fevLoopBody)]),
   (v.bb .fevLoopBody,
    [.getNextRshipFev (v.reg .rship),.br (v.bb .consumeRship)]),
   (v.bb .foreachRelEnd,[.br v.mainReturn])]

def visitForeachRship (dir : RshipDir) (hops : ℤ × ℤ) (opId : ℕ) :
    Option CodegenInlineVisitor := do
  let node ← v.regQueryResults.getLast?
  let code := if isVariable hops then v.foreachVariableCode dir hops opId node.regVal
    else v.foreachRshipCode dir opId node.regVal
  return { v.emit code (v.bb .consumeRship) with
    regQueryResults := v.regQueryResults ++ [⟨.reg (v.reg .rship),1⟩]
    mainReturn := v.bb (if isVariable hops then .fevLoopHead else .nextRship) }

def projectExpr (i : ℕ) (pe : PrExpr) : Option (List Instr × QrValue) := do
  let r ← v.regQueryResults[pe.id]?
  if pe.type = .BOOLEAN then return ([],r)
  else do
    let key ← v.projectKeys[i-1]?
    if i < 12 then
      return ([.applyPexpr (r.type = 0) key pe.type r.regVal (v.cell (.pv i))],
        ⟨.addr (v.cell (.pv i)),pe.type.toNat+2⟩)
    else none

def projectExprs : ℕ → List PrExpr → Option (List Instr × List QrValue)
  | _, [] => some ([],[])
  | i, pe :: pes => do
    let (is,r) ← v.projectExpr i pe
    let (is',rs) ← projectExprs (i+1) pes
    return (is ++ is',r :: rs)

def visitProject (prexpr : List PrExpr) : Option CodegenInlineVisitor := do
  let (is,nqrv) ← v.projectExprs 1 prexpr
  return { v.emit [(v.prevBb,[.br (v.bb .projectEntry)]),(v.bb .projectEntry,is)]
      (v.bb .projectEntry) with
    regQueryResults := nqrv }

def expId : ExpandDir → ℕ
  | .OUT => 3
  | .IN => 2

def expandCode (exp : ExpandDir) (label : String) (opId : ℕ) (rship : Expr) : Code :=
  let node : Expr := .reg (v.reg .node)
  let isNull : Expr := .isNull node
  [(v.prevBb,[.br (v.bb .expandEntry)]),
   (v.bb .expandEntry,
    [.assign (v.reg .toNode) (.field rship (expId exp)),
     .nodeById (v.reg .node) (.reg (v.reg .toNode))] ++
    if label = "" then [.condBr isNull (v.bb .expandFalse) (v.bb .expandConsume)]
    else
      [.dictLookupLabel (v.reg .labelCode) opId,
       .condBr isNull (v.bb .expandFalse) (v.bb .checkLabel)])] ++
  (if label = "" then []
   else [(v.bb .checkLabel,
    [.condBr (nodeCmpLabel node (.reg (v.reg .labelCode)))
      (v.bb .expandConsume) (v.bb .expandFalse)])]) ++
  [(v.bb .expandFalse,[.br v.mainReturn])]

def visitExpand (exp : ExpandDir) (label : String) (opId : ℕ) :
    Option CodegenInlineVisitor := do
  let rship ← v.regQueryResults.getLast?
  return { v.emit (v.expandCode exp label opId rship.regVal) (v.bb .expandConsume) with
    regQueryResults := v.regQueryResults ++ [⟨.reg (v.reg .node),0⟩] }

def fepContext (db : GraphDb) : FepContext :=
  ⟨db,v.visits,v.scan,v.regQueryResults,v.bb .filterConsume,v.bb .filterFalse⟩

def visitFilter (db : GraphDb) (fexpr : FilterExpr) (opId : ℕ) :
    Option CodegenInlineVisitor := do
  let _pres ← v.regQueryResults.getLast?
  let (code,exprRegister) ← (v.fepContext db).generate fexpr (v.bb .filterEntry) v.exprRegister
  return { v.emit
      ([(v.prevBb,[.br (v.bb .filterEntry)]),
        (v.bb .filterEntry,[.assign (v.reg .arg) (.argWord opId)])] ++ code ++
       [(v.bb .filterFalse,[.br v.mainReturn])])
      (v.bb .filterConsume) with
    exprRegister := exprRegister }

def visitCollect : CodegenInlineVisitor :=
  v.emit [(v.prevBb,[.br (v.bb .collectEntry)]),
    (v.bb .collectEntry,
      (v.regQueryResults.map fun res =>
        .matRegValue res.regVal (if res.type = 7 then 2 else res.type)) ++
      [.collectTuple,.br v.mainReturn])]
    v.prevBb

def resRegs (types : List ℕ) : List QrValue :=
  types.mapIdx fun i type => ⟨.reg (v.reg (.res i)),if type = 0 then 0 else 1⟩

def resInstrs (types : List ℕ) : List Instr :=
  types.mapIdx fun i type =>
    if type = 0 then .getNodeResAt (v.reg (.res i)) (.reg (v.reg .tp)) i
    else .getRshipResAt (v.reg (.res i)) (.reg (v.reg .tp)) i

def leftOuterCode (lhs : Expr) (pos : ℕ) : Code :=
  let ra : Cell := ⟨v.visits,.ra⟩
  let ridx : Cell := ⟨v.visits,.ridx⟩
  [(v.bb .leftOuter,
    [.getNodeResAt (v.reg .rhs) (.reg (v.reg .tp)) pos,
     .assign (v.reg .rhsId) (.field (.reg (v.reg .rhs)) 1),
     .assign (v.reg .nodeRshipId) (.field lhs 2),
     .store (v.cell .crossJoinIdx) (.reg (v.reg .nodeRshipId)),
     .store ridx (.reg (v.reg .nodeRshipId))])] ++
  whileLoopCondition (v.bb .leftOuter) v.visits 1 ridx (v.cell .rhsAlloca) .LT
    (v.bb .incrLoop)
    [.assign (v.reg .curId) (.cell ridx),
     .rshipById (v.reg .rship) (.reg (v.reg .curId)),
     .store ra (.reg (v.reg .rship)),
     .assign (v.reg .toNode) (.field (.reg (v.reg .rship)) 3),
     .condBr (.icmpEQ (.reg (v.reg .rhsId)) (.reg (v.reg .toNode)))
       (v.bb .undang) (v.bb .forEachNextRship)] ++
  [(v.bb .forEachNextRship,
    [.assign (v.reg .nextRshipId) (.field (.cell ra) 4),
     .store ridx (.reg (v.reg .nextRshipId)),
     .br (v.bb (.whileCondition 1))]),
   (v.bb .undang,[.store (v.cell .dangling) (.const 0),.br (v.bb .concatQrl)]),
   (v.bb .handleRet,
    [.assign (v.reg .lh) (.cell ridx),
     .condBr (.icmpULT (.reg (v.reg .lh)) (.const unknownId))
       (v.bb .forEachNextRship) (v.bb (.whileCondition 0))])]

def joinBranch (jop : JoinOp) : List Instr :=
  match jop with
  | .CROSS => [.br (v.bb .concatQrl)]
  | .LEFT_OUTER => [.br (v.bb .leftOuter)]
  | _ => []

def concatIncr (jop : JoinOp) : List Instr :=
  match jop with
  | .CROSS | .NESTED_LOOP =>
    [.store (v.cell .curIdx) (.add (.cell (v.cell .curIdx)) (.const 1))]
  | _ => []

/-- The code all joins share: the probe loop over the materialised tuples. -/
def joinCode (jop : JoinOp) (types : List ℕ) : Code :=
  let jid := v.queryIdInline
  let curIdx : Expr := .cell (v.cell .curIdx)
  [(v.prevBb,[.br (v.bb .entryJoinLhs)]),
   (v.bb .entryJoinLhs,
    [.store (v.cell .dangling) (.const 1),
     .store (v.cell .curIdx) (.const 0),
     .getMatResSize (v.reg .ma) jid,
     .store (v.cell .maxIdx) (.reg (v.reg .ma))])] ++
  whileLoopCondition (v.bb .entryJoinLhs) v.visits 0 (v.cell .curIdx) (v.cell .maxIdx) .LT
    (v.bb .endJoin)
    ([.assign (v.reg .idx) curIdx,.getJoinTpAt (v.reg .tp) jid (.reg (v.reg .idx))] ++
      v.joinBranch jop) ++
  [(v.bb .incrLoop,
    [.store (v.cell .curIdx) (.add curIdx (.const 1)),
     .assign (v.reg .dang) (.cell (v.cell .dangling)),
     .condBr (.icmpEQ (.reg (v.reg .dang)) (.const 1))
       (v.bb .concatQrl) (v.bb (.whileCondition 0))]),
   (v.bb .concatQrl,v.resInstrs types ++ v.concatIncr jop ++ [.br (v.bb .consume)]),
   (v.bb .endJoin,[.br v.mainReturn])]

/-- What only some kinds of join emit: the loop over the relationships of the left-hand
register. -/
def joinLoopCode (jop : JoinOp) (pos : ℕ × ℕ) : Option Code :=
  match jop with
  | .LEFT_OUTER => (v.regQueryResults[pos.1]?).map fun lhs => v.leftOuterCode lhs.regVal pos.2
  | _ => some []

def danglingRegs (jop : JoinOp) : List QrValue :=
  match jop with
  | .LEFT_OUTER => [⟨.addr (v.cell .dangling),7⟩]
  | _ => []

def joinReturn (jop : JoinOp) : Label :=
  match jop with
  | .CROSS => v.bb (.whileCondition 0)
  | .LEFT_OUTER => v.bb .handleRet
  | _ => v.mainReturn

def visitJoin (jop : JoinOp) (pos : ℕ × ℕ) (rhs : Plan) : Option CodegenInlineVisitor := do
  let loopCode ← v.joinLoopCode jop pos
  return { v.emit (v.joinCode jop rhs.rhsType ++ loopCode) (v.bb .consume) with
    queryIdInline := v.queryIdInline+1
    jids := v.jids ++ [v.queryIdInline]
    regQueryResults := v.regQueryResults ++ v.resRegs rhs.rhsType ++ v.danglingRegs jop
    mainReturn := v.joinReturn jop }

/-- `visit(sort_op)`: a finish function of its own, nothing in the start function. -/
def visitSort : CodegenInlineVisitor := { v with visits := v.visits+1 }

def limitConst (limit : ℤ) : ℕ := (limit % 2^64).toNat

def visitLimit (limit : ℤ) : CodegenInlineVisitor :=
  v.emit [(v.prevBb,[.br (v.bb .limitEntry)]),
    (v.bb .limitEntry,
     [.assign (v.reg .curCnt) (.cell (v.cell .resCounter)),
      .condBr (.icmpEQ (.reg (v.reg .curCnt)) (.const (limitConst limit)))
        (v.bb .limitReached) (v.bb .limitCont)]),
    (v.bb .limitReached,[.br v.scanNodesEnd]),
    (v.bb .limitCont,
     [.store (v.cell .resCounter) (.add (.reg (v.reg .curCnt)) (.const 1))])]
    (v.bb .limitCont)

/-- `visit(end_op)`: the tuple goes to the list of the join id at the front of `jids`. -/
def visitEnd : Option CodegenInlineVisitor :=
  match v.jids with
  | [] => none
  | jid :: jids =>
    some { v.emit [(v.prevBb,[.br (v.bb .entryJoinRhs)]),
        (v.bb .entryJoinRhs,
          (v.regQueryResults.map fun res =>
            if res.type = 0 then .matNode res.regVal else .matRship res.regVal) ++
          [.collectTupleJoin jid,.br v.mainReturn])]
        v.prevBb with
      jids := jids }

end CodegenInlineVisitor

/-- `codegen_inline_visitor` over the graph its `PContext` belongs to. The visit of a `Create` is
in `createVisitor`. -/
def codegenInlineVisitor (db : GraphDb) : OpVisitor CodegenInlineVisitor where
  visit op opId v := match op with
    | .scan _ indexed inp => some (v.visitScan indexed inp opId)
    | .foreachRship dir hops _ _ => v.visitForeachRship dir hops opId
    | .expand exp label _ => v.visitExpand exp label opId
    | .filter fexpr _ => v.visitFilter db fexpr opId
    | .project prexpr _ => v.visitProject prexpr
    | .join jop pos _ rhs => v.visitJoin jop pos rhs
    | .sort _ _ => some v.visitSort
    | .limit n _ => some (v.visitLimit n)
    | .create _ _ _ => none
    | .collect _ => some v.visitCollect
    | .endOp => v.visitEnd

/-- The start function `compile_task` generates for a plan: its body and its entry block. -/
def generateStart (db : GraphDb) (exprRegister : ℕ → Option Expr) (p : Plan) :
    Option (Body × Label) := do
  let (v,_) ← p.codegen (codegenInlineVisitor db) 1 true (.init exprRegister)
  let entry ← v.entry
  return (v.code.body,entry)

end GraphQueryCompiler
