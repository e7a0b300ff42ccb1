import GraphQueryCompiler.Ir
import Mathlib.Logic.Function.Basic

/-!
# Code generation for filter expressions

`fep_visitor_inline`: operands are numbered by `opd_cnt` and found again by their position
in `expr_stack`. Comparison results go to `expr_register`, which is one map for the whole
process, while the connectives read `gen_vals_`, a map of the visitor.
-/

namespace GraphQueryCompiler

structure QrValue where
  regVal : Expr
  type : ℕ
  deriving DecidableEq, Repr

/-- An entry of `expr_stack`: the token's `ftype_` and its `opd_num`. -/
structure StackEntry where
  ftype : Option FopType
  opdNum : ℕ
  deriving DecidableEq, Repr

/-- What the constructor of `fep_visitor_inline` is given: the visit and the scan whose
allocas it uses, the registers, the two successor blocks. -/
structure FepContext where
  db : GraphDb
  visit : ℕ
  scan : ℕ
  qrRegs : List QrValue
  next : Label
  endBB : Label

structure FepState where
  code : Code
  cur : Label
  opdCnt : ℕ
  exprStack : List StackEntry
  genVals : ℕ → Option Cell
  exprRegister : ℕ → Option Expr

namespace FepContext
variable (ctx : FepContext)

def bb (name : BlockName) : Label := ⟨ctx.visit,name⟩
def reg (name : RegName) : Reg := ⟨ctx.visit,name⟩
def cell (name : CellName) : Cell := ⟨ctx.scan,name⟩

/-- `visit(number_token)`: the operand is the filter's argument, not the literal. -/
def visitNumber (s : FepState) : FepState :=
  { s with
    exprStack := ⟨some .INT,s.opdCnt⟩ :: s.exprStack
    exprRegister := Function.update s.exprRegister s.opdCnt (some (.reg (ctx.reg .arg)))
    opdCnt := s.opdCnt+1 }

/-- The blocks of `visit(key_token)` for operand `n`: two nested loops over the property
sets of the register and the three items of each. -/
def keyCode (cur : Label) (n : ℕ) (roi : Expr) (pcode : ℕ) : Code :=
  let pset : Expr := .reg (ctx.reg (.pset n))
  let loop : Expr := .cell (ctx.cell .loopCnt)
  [(cur,[.br (ctx.bb (.searchPitem n))]),
   (ctx.bb (.searchPitem n),[.br (ctx.bb (.isNode n))]),
   (ctx.bb (.isRship n),[.ret]),
   (ctx.bb (.isNode n),
    [.assign (ctx.reg (.plistId n)) (.field roi 4),
     .store (ctx.cell .plistId) (.reg (ctx.reg (.plistId n)))])] ++
  whileLoopCondition (ctx.bb (.isNode n)) ctx.visit (2*n) (ctx.cell .plistId)
    (ctx.cell .rhsAlloca) .LT ctx.endBB
    [.assign (ctx.reg (.pid n)) (.cell (ctx.cell .plistId)),
     .psetGetItemAt (ctx.reg (.pset n)) (.reg (ctx.reg (.pid n))),
     .store (ctx.cell .curPset) pset,
     .store (ctx.cell .loopCnt) (.const 0),
     .br (ctx.bb (.forEachPitem n))] ++
  whileLoopCondition (ctx.bb (.forEachPitem n)) ctx.visit (2*n+1) (ctx.cell .loopCnt)
    (ctx.cell .maxCnt) .LT (ctx.bb (.nextPropIt n))
    [.assign (ctx.reg (.pitemIdx n)) loop,
     .assign (ctx.reg (.curItem n)) (.itemAt pset (.reg (ctx.reg (.pitemIdx n)))),
     .condBr (.icmpEQ (.field (.reg (ctx.reg (.curItem n))) 1) (.const pcode))
       (ctx.bb (.pitemFound n)) (ctx.bb (.forEachIncrement n))] ++
  [(ctx.bb (.forEachIncrement n),
    [.assign (ctx.reg (.idxpp n)) (.add loop (.const 1)),
     .store (ctx.cell .loopCnt) (.reg (ctx.reg (.idxpp n))),
     .br (ctx.bb (.whileCondition (2*n+1)))]),
   (ctx.bb (.nextPropIt n),
    [.store (ctx.cell .plistId) (.field (.cell (ctx.cell .curPset)) 0),
     .br (ctx.bb (.whileCondition (2*n)))]),
   (ctx.bb (.pitemFound n),[.br (ctx.bb (.epilog n))])]

def visitKey (qrId : ℕ) (key : String) (s : FepState) : Option FepState := do
  let roi ← ctx.qrRegs[qrId]?
  let n := s.opdCnt
  return { s with
    code := s.code ++ ctx.keyCode s.cur n roi.regVal (ctx.db.getCode key)
    cur := ctx.bb (.epilog n)
    exprStack := ⟨some .KEY,n⟩ :: s.exprStack
    exprRegister := Function.update s.exprRegister n (some (.reg (ctx.reg (.curItem n))))
    opdCnt := n+1 }

/-- `visit(str_token)`: the dictionary code is a constant of the code. -/
def visitStr (str : String) (s : FepState) : FepState :=
  let n := s.opdCnt
  { s with
    code := s.code ++ [(s.cur,[.br (ctx.bb (.epilog n))])]
    cur := ctx.bb (.epilog n)
    exprStack := ⟨some .STRING,n⟩ :: s.exprStack
    exprRegister := Function.update s.exprRegister n (some (.const (ctx.db.getCode str)))
    opdCnt := n+1 }

/-- `visit(fct_call)`: always on register 0, and the counter stays. -/
def visitFct (fct : ℕ) (s : FepState) : Option FepState := do
  let roi ← ctx.qrRegs[0]?
  return { s with
    code := s.code ++ [(s.cur,[.callFct (ctx.reg .fctRes) fct roi.regVal,
      .condBr (.reg (ctx.reg .fctRes)) ctx.next ctx.endBB])]
    exprStack := ⟨none,s.opdCnt⟩ :: s.exprStack }

def finishPredicate (rank n : ℕ) (cond : Expr) (s : FepState) : FepState :=
  if rank = 0 then
    { s with code := s.code ++ [(s.cur,[.condBr cond ctx.next ctx.endBB])], opdCnt := n+1 }
  else
    { s with
      code := s.code ++ [(s.cur,[.br (ctx.bb (.epilog n))])]
      cur := ctx.bb (.epilog n)
      opdCnt := n+1 }

/-- The `switch` of `visit(eq_predicate)`: a comparison is emitted for an integer on the
right-hand side only. -/
def compareOperands (rhs : StackEntry) (n : ℕ) (pitem : Expr) (s : FepState) : Option FepState :=
  match rhs.ftype with
  | some .INT => do
    let rhsVal ← s.exprRegister rhs.opdNum
    return { s with
      code := s.code ++
        [(s.cur,[.assign (ctx.reg (.cmp n)) (.icmpEQ (.field pitem 0) rhsVal)])]
      exprRegister := Function.update s.exprRegister n (some (.reg (ctx.reg (.cmp n)))) }
  | none => none
  | _ => some s

/-- `visit(eq_predicate)`. At rank 0 the branch uses whatever `expr_register` then holds for
this operand. -/
def visitEq (rank : ℕ) (s : FepState) : Option FepState := do
  let n := s.opdCnt
  let stack : List StackEntry := ⟨some .OP,n⟩ :: s.exprStack
  let rhs ← stack[1]?
  let lhs ← stack[2]?
  let pitem ← s.exprRegister lhs.opdNum
  let s ← ctx.compareOperands rhs n pitem { s with
    code := s.code ++ [(s.cur,[.br (ctx.bb (.cmpEq n))])]
    cur := ctx.bb (.cmpEq n)
    exprStack := stack }
  if rank = 0 then do
    let cond ← s.exprRegister n
    return ctx.finishPredicate rank n cond s
  else return ctx.finishPredicate rank n (.bool false) s

/-- The loop `while ((*cit)->ftype_ == BOOL_OP) { offset++; cit--; }` of the connectives;
leaving the stack at the front is undefined. -/
def boolOffset (stack : List StackEntry) : ℕ → ℕ → Option ℕ
  | pos, offset =>
    match stack[pos]? with
    | none => none
    | some e =>
      if e.ftype = some .BOOL_OP then
        match pos with
        | 0 => none
        | pos+1 => boolOffset stack pos (offset+1)
      else some offset

/-- `visit(and_predicate)` and `visit(or_predicate)`, which differ in the operation and in
the name of the block. -/
def visitBool (op : Expr → Expr → Expr) (name : ℕ → BlockName) (rank : ℕ) (s : FepState) :
    Option FepState := do
  let n := s.opdCnt
  let stack : List StackEntry := ⟨some .BOOL_OP,n⟩ :: s.exprStack
  let rhs ← stack[1]?
  let offset ← boolOffset stack 1 0
  let lhs ← stack[2^(2+offset)]?
  let lhsVal ← s.genVals lhs.opdNum
  let rhsVal ← s.genVals rhs.opdNum
  let bb := ctx.bb (name n)
  let res : Cell := ⟨ctx.visit,.cmpRes n⟩
  return ctx.finishPredicate rank n (.cell res) { s with
    code := s.code ++ [(s.cur,[.br bb]),(bb,[.store res (op (.cell lhsVal) (.cell rhsVal))])]
    cur := bb
    exprStack := stack
    genVals := Function.update s.genVals n (some res) }

def fepVisitorInline : ExpressionVisitor FepState where
  visit rank e s := match e with
    | .num _ => some (ctx.visitNumber s)
    | .key qrId key => ctx.visitKey qrId key s
    | .str str => some (ctx.visitStr str s)
    | .fct fct => ctx.visitFct fct s
    | .eq _ _ => ctx.visitEq rank s
    | .and _ _ => ctx.visitBool .and .cmpAnd rank s
    | .or _ _ => ctx.visitBool .or .cmpOr rank s

/-- The code of a whole filter expression, inserted from block `cur`, with the process-wide
`expr_register` as it is left behind. -/
def generate (fexpr : FilterExpr) (cur : Label) (exprRegister : ℕ → Option Expr) :
    Option (Code × (ℕ → Option Expr)) := do
  let s ← fexpr.accept ctx.fepVisitorInline 0
    ⟨[],cur,0,[],fun _ => none,exprRegister⟩
  return (s.code,s.exprRegister)

end FepContext
end GraphQueryCompiler
