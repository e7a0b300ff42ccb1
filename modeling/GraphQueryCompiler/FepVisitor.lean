import GraphQueryCompiler.FilterStack
import GraphQueryCompiler.Lib.TracedRuns

/-!
# Filter expressions of consumer functions

`fep_visitor`, by which `codegen_visitor` compiles a filter, keeps its values in allocas. `alloc`
makes one for a name that is new, and only then stores the value.
-/

namespace GraphQueryCompiler

/-- The allocas of a filter: those that `alloc` makes, by their names, and those of every key. -/
inductive FepCell
  | rhsUnknown | roiPlistAlloc | int (value : ℤ) | pitem (key : String)
  | cmpEqRes (i : ℕ) | cmpAndRes (i : ℕ) | cmpOrRes (i : ℕ)
  | curItemArr (i : ℕ) | curItem (i : ℕ) | curPset (i : ℕ) | loopCnt (i : ℕ) | maxCntAlloc (i : ℕ)
  deriving DecidableEq, Repr

/-- Operands. `items` loads the item array of a property set, `itemAt` is an element of it. -/
inductive FepOperand
  | const (n : ℕ)
  | roi
  | load (c : FepCell)
  | field (e : FepOperand) (i : ℕ)
  | psetGetItemAt (id : FepOperand)
  | items (pset : FepOperand)
  | itemAt (arr idx : FepOperand)
  | icmpEQ (a b : FepOperand)
  | icmpULT (a b : FepOperand)
  | add (a b : FepOperand)
  | and (a b : FepOperand)
  | or (a b : FepOperand)
  | callFct (fct : ℕ) (e : FepOperand)

inductive FepInstr
  | store (c : FepCell) (e : FepOperand)
  | br (l : BlockName)
  | condBr (c : FepOperand) (t f : BlockName)
  | ret

abbrev FepCode := List (BlockName × List FepInstr)

def FepCode.body (code : FepCode) (b : BlockName) : List FepInstr :=
  code.flatMap fun e => if e.1 = b then e.2 else []

/-- `cur` is the block of the insertion point; there is none behind a terminator, where LLVM allows
no instruction. -/
structure FepVisitor where
  code : FepCode
  cur : Option BlockName
  opdCnt : ℕ
  exprStack : List StackEntry
  genVals : ℕ → Option FepCell
  allocStack : List FepCell

namespace FepVisitor
variable (s : FepVisitor)

def init : FepVisitor := ⟨[],some .filterEntry,0,[],fun _ => none,[]⟩

def allocStore (c : FepCell) (val : FepOperand) : List FepInstr :=
  if c ∈ s.allocStack then [] else [.store c val]

def alloc (c : FepCell) : FepVisitor :=
  if c ∈ s.allocStack then s else { s with allocStack := c :: s.allocStack }

def insert (is : List FepInstr) : Option FepVisitor :=
  if is = [] then some s else s.cur.map fun b => { s with code := s.code ++ [(b,is)] }

def finishBlock (is : List FepInstr) (blocks : FepCode) (next : Option BlockName) :
    Option FepVisitor :=
  s.cur.map fun b => { s with code := s.code ++ (b,is) :: blocks, cur := next }

def push (e : FilterExpr) : FepVisitor :=
  { s with exprStack := ⟨e.ftype,s.opdCnt⟩ :: s.exprStack, opdCnt := e.nextOpd s.opdCnt }

def setGenVal (i : ℕ) (c : FepCell) : FepVisitor :=
  { s with genVals := Function.update s.genVals i (some c) }

def whileLT (cur : BlockName) (i : ℕ) (lhs rhs : FepCell) (endBB : BlockName)
    (loopBody : List FepInstr) : FepCode :=
  [(cur,[.br (.whileCondition i)]),
   (.whileCondition i,[.condBr (.icmpULT (.load lhs) (.load rhs)) (.whileBody i) endBB]),
   (.whileBody i,loopBody),
   (.whileBodyEpilog i,[.br (.whileCondition i)])]

/-- The blocks of `visit(key_token)` for operand `n`, with the stores that `alloc` inserts. -/
def keyBlocks (n pcode : ℕ) (rhsUnknown roiPlist pitem : List FepInstr) : FepCode :=
  let item : FepOperand := .itemAt (.load (.curItemArr n)) (.load (.loopCnt n))
  let head : FepCode :=
    [(.searchPitem n,rhsUnknown ++ [.br (.isNode n)]),
     (.isRship n,[.ret]),
     (.isNode n,roiPlist)]
  let forEachPitem : FepCode := [(.forEachPitem n,[.store (.maxCntAlloc n) (.const 3)])]
  let rest : FepCode :=
    [(.forEachIncrement n,
      [.store (.loopCnt n) (.add (.load (.loopCnt n)) (.const 1)),
       .br (.whileCondition (2*n+1))]),
     (.nextPropIt n,
      [.store .roiPlistAlloc (.field (.load (.curPset n)) 0),
       .br (.whileCondition (2*n))]),
     (.pitemFound n,pitem ++ [.br (.epilog n)])]
  head ++
  whileLT (.isNode n) (2*n) .roiPlistAlloc .rhsUnknown .filterFalse
    [.store (.curPset n) (.psetGetItemAt (.load .roiPlistAlloc)),
     .store (.curItemArr n) (.items (.load (.curPset n))),
     .store (.loopCnt n) (.const 0),
     .br (.forEachPitem n)] ++
  forEachPitem ++
  whileLT (.forEachPitem n) (2*n+1) (.loopCnt n) (.maxCntAlloc n) (.nextPropIt n)
    [.store (.curItem n) item,
     .condBr (.icmpEQ (.field item 1) (.const pcode)) (.pitemFound n) (.forEachIncrement n)] ++
  rest

def visitKey (db : GraphDb) (qrId : ℕ) (key : String) : Option FepVisitor :=
  let n := s.opdCnt
  let blocks := keyBlocks n (db.getCode key) (s.allocStore .rhsUnknown (.const unknownId))
    (s.allocStore .roiPlistAlloc (.field .roi 4)) (s.allocStore (.pitem key) (.load (.curItem n)))
  ((((s.push (.key qrId key)).alloc .rhsUnknown).alloc .roiPlistAlloc).alloc (.pitem key)).setGenVal
    n (.pitem key) |>.finishBlock [.br (.searchPitem n)] blocks (some (.epilog n))

def visitNumber (value : ℤ) : Option FepVisitor :=
  (((s.push (.num value)).alloc (.int value)).setGenVal s.opdCnt (.int value)).insert
    (s.allocStore (.int value) (.const (value % 2^64).toNat))

def visitStr (db : GraphDb) (str : String) : Option FepVisitor :=
  let dcode := db.getCode str
  (((s.push (.str str)).alloc (.int dcode)).setGenVal s.opdCnt (.int dcode)).finishBlock
    (s.allocStore (.int dcode) (.const dcode) ++ [.br (.epilog s.opdCnt)]) []
    (some (.epilog s.opdCnt))

def visitFct (fct : ℕ) : Option FepVisitor :=
  (s.push (.fct fct)).finishBlock [.condBr (.callFct fct .roi) .filterConsume .filterFalse] [] none

def finishPredicate (rank n : ℕ) (block : BlockName) (is : List FepInstr) : Option FepVisitor :=
  if rank = 0 then do
    let cond ← s.genVals n
    s.finishBlock [.br block]
      [(block,is ++ [.condBr (.load cond) .filterConsume .filterFalse])] none
  else s.finishBlock [.br block] [(block,is ++ [.br (.epilog n)])] (some (.epilog n))

/-- `visit(eq_predicate)`. A comparison is emitted for an integer on the right-hand side only. -/
def visitEq (rank : ℕ) (l r : FilterExpr) : Option FepVisitor := do
  let n := s.opdCnt
  let s := s.push (.eq l r)
  let rhs ← s.exprStack[1]?
  let lhs ← s.exprStack[2]?
  let pitem ← s.genVals lhs.opdNum
  match rhs.ftype with
  | some .INT => do
    let rhsAlloc ← s.genVals rhs.opdNum
    let cmp : FepOperand := .icmpEQ (.field (.load pitem) 0) (.load rhsAlloc)
    ((s.alloc (.cmpEqRes n)).setGenVal n (.cmpEqRes n)).finishPredicate rank n (.cmpEq n)
      (s.allocStore (.cmpEqRes n) cmp)
  | none => none
  | _ => s.finishPredicate rank n (.cmpEq n) []

/-- `visit(and_predicate)` and `visit(or_predicate)`, which differ in the operation and in the names
of the result and of the block. -/
def visitBool (op : FepOperand → FepOperand → FepOperand) (res : ℕ → FepCell)
    (block : ℕ → BlockName) (rank : ℕ) (e : FilterExpr) : Option FepVisitor := do
  let n := s.opdCnt
  let s := s.push e
  let rhs ← s.exprStack[1]?
  let offset ← FepContext.boolOffset s.exprStack 1 0
  let lhs ← s.exprStack[2^(2+offset)]?
  let lhsVal ← s.genVals lhs.opdNum
  let rhsVal ← s.genVals rhs.opdNum
  ((s.alloc (res n)).setGenVal n (res n)).finishPredicate rank n (block n)
    (s.allocStore (res n) (op (.load lhsVal) (.load rhsVal)))

end FepVisitor

open FepVisitor in
def fepVisitor (db : GraphDb) : ExpressionVisitor FepVisitor where
  visit rank e s := match e with
    | .num value => s.visitNumber value
    | .key qrId key => s.visitKey db qrId key
    | .str str => s.visitStr db str
    | .fct fct => s.visitFct fct
    | .eq l r => s.visitEq rank l r
    | .and l r => s.visitBool .and .cmpAndRes .cmpAnd rank (.and l r)
    | .or l r => s.visitBool .or .cmpOrRes .cmpOr rank (.or l r)

namespace FepVisitor
variable {s s' : FepVisitor} {t : ExprStack} {path : List Bool} {e : FilterExpr} {cell : FepCell}
  {is : List FepInstr} {rank n : ℕ} {block : BlockName}

theorem opdCnt_alloc : (s.alloc cell).opdCnt = s.opdCnt := by
  unfold alloc
  split_ifs <;> rfl

theorem exprStack_alloc : (s.alloc cell).exprStack = s.exprStack := by
  unfold alloc
  split_ifs <;> rfl

abbrev Tracks (s : FepVisitor) (t : ExprStack) : Prop := t.Tracked s.opdCnt s.exprStack

theorem Tracks.push (h : s.Tracks t) : (s.push e).Tracks (t.push path e) where
  opdCnt := congrArg (fun n => e.nextOpd n) h.opdCnt
  exprStack := congrArg₂ List.cons (congrArg _ h.opdCnt) h.exprStack

theorem Tracks.alloc (h : s.Tracks t) : (s.alloc cell).Tracks t where
  opdCnt := opdCnt_alloc.trans h.opdCnt
  exprStack := exprStack_alloc.trans h.exprStack

theorem Tracks.setGenVal (h : s.Tracks t) : (s.setGenVal n cell).Tracks t := h

theorem Tracks.finishBlock {blocks : FepCode} {next : Option BlockName} (h : s.Tracks t)
    (hs : s.finishBlock is blocks next = some s') : s'.Tracks t := by
  obtain ⟨b,-,rfl⟩ := Option.map_eq_some_iff.1 hs
  exact h

theorem Tracks.insert (h : s.Tracks t) (hs : s.insert is = some s') : s'.Tracks t := by
  unfold FepVisitor.insert at hs
  split_ifs at hs
  · obtain rfl := Option.some.inj hs
    exact h
  · obtain ⟨b,-,rfl⟩ := Option.map_eq_some_iff.1 hs
    exact h

theorem Tracks.finishPredicate (h : s.Tracks t)
    (hs : s.finishPredicate rank n block is = some s') : s'.Tracks t := by
  unfold FepVisitor.finishPredicate at hs
  split_ifs at hs
  · obtain ⟨cond,-,hs⟩ := Option.bind_eq_some_iff.1 hs
    exact h.finishBlock hs
  · exact h.finishBlock hs

theorem visit_tracks {db : GraphDb} (h : s.Tracks t)
    (hvisit : (fepVisitor db).visit rank e s = some s') : s'.Tracks (t.push path e) := by
  cases e with
  | num value => exact h.push.alloc.setGenVal.insert hvisit
  | key qrId k => exact h.push.alloc.alloc.alloc.setGenVal.finishBlock hvisit
  | str txt => exact h.push.alloc.setGenVal.finishBlock hvisit
  | fct f => exact h.push.finishBlock hvisit
  | eq l r =>
    simp only [fepVisitor,visitEq,Option.bind_eq_bind,Option.bind_eq_some_iff] at hvisit
    obtain ⟨rhs,-,lhs,-,pitem,-,hend⟩ := hvisit
    split at hend
    · obtain ⟨rhsAlloc,-,hend⟩ := Option.bind_eq_some_iff.1 hend
      exact h.push.alloc.setGenVal.finishPredicate hend
    · cases hend
    · exact h.push.finishPredicate hend
  | and l r | or l r =>
    simp only [fepVisitor,visitBool,Option.bind_eq_bind,Option.bind_eq_some_iff] at hvisit
    obtain ⟨rhs,-,offset,-,lhs,-,lhsVal,-,rhsVal,-,hend⟩ := hvisit
    exact h.push.alloc.setGenVal.finishPredicate hend

theorem visitBool_operands (h : s.Tracks t) {op : FepOperand → FepOperand → FepOperand}
    {res : ℕ → FepCell} {block : ℕ → BlockName}
    (hvisit : s.visitBool op res block rank e = some s') :
    ∃ lhs rhs, (t.push path e).operands = some (lhs,rhs) ∧
      (s.genVals lhs.opdNum).isSome = true ∧ (s.genVals rhs.opdNum).isSome = true := by
  simp only [visitBool,Option.bind_eq_bind,Option.bind_eq_some_iff] at hvisit
  obtain ⟨rhs,hrhs,offset,hoffset,lhs,hlhs,lhsVal,hlhsVal,rhsVal,hrhsVal,-⟩ := hvisit
  have hstack : (s.push e).exprStack = (t.push path e).tokens.map Token.entry := h.push.exprStack
  rw [hstack] at hrhs hoffset hlhs
  obtain ⟨lt,rt,hoperands,rfl,rfl⟩ := ExprStack.operands_of_entries hrhs hoffset hlhs
  exact ⟨lt,rt,hoperands,Option.isSome_of_eq_some hlhsVal,Option.isSome_of_eq_some hrhsVal⟩

theorem accept_tracks {db : GraphDb} (h : s.Tracks t)
    (hacc : e.accept (fepVisitor db) path.length s = some s') :
    s'.Tracks (t.pushAll (e.visits path)) :=
  ExprStack.accept_tracked (fun h hvisit => visit_tracks h hvisit) h hacc

end FepVisitor

def FilterExpr.fepCode (db : GraphDb) (e : FilterExpr) : Option FepCode :=
  (e.accept (fepVisitor db) 0 .init).map FepVisitor.code

def FepOperand.eval (env : Env) (roi : Val) (σ : FepCell → Val) : FepOperand → Val
  | .const n => .word n
  | .roi => roi
  | .load c => σ c
  | .field e i => loadField env.db (e.eval env roi σ) i
  | .psetGetItemAt id =>
    match id.eval env roi σ with
    | .word i => .pset i
    | _ => .undef
  | .items pset => (pset.eval env roi σ).items
  | .itemAt arr idx => (arr.eval env roi σ).itemAt (idx.eval env roi σ)
  | .icmpEQ a b => (a.eval env roi σ).icmpEQ (b.eval env roi σ)
  | .icmpULT a b => (a.eval env roi σ).icmpULT (b.eval env roi σ)
  | .add a b => (a.eval env roi σ).add (b.eval env roi σ)
  | .and a b => (a.eval env roi σ).and (b.eval env roi σ)
  | .or a b => (a.eval env roi σ).or (b.eval env roi σ)
  | .callFct fct e => .bool (env.fct fct (e.eval env roi σ))

/-- A configuration: at the beginning of a block, or in front of the rest of one. -/
inductive FepConfig
  | enter (b : BlockName) (σ : FepCell → Val)
  | run (is : List FepInstr) (σ : FepCell → Val)

/-- One instruction. A block without a terminator is that of the operators behind the filter. -/
def fepStep (env : Env) (roi : Val) (fn : BlockName → List FepInstr) :
    FepConfig → Option FepConfig
  | .enter b σ => some (.run (fn b) σ)
  | .run (.store c e :: is) σ => some (.run is (Function.update σ c (e.eval env roi σ)))
  | .run (.br l :: _) σ => some (.enter l σ)
  | .run (.condBr c t f :: _) σ =>
    match c.eval env roi σ with
    | .bool true => some (.enter t σ)
    | .bool false => some (.enter f σ)
    | _ => none
  | .run (.ret :: _) _ => none
  | .run [] _ => none

/-- What the lookups of a filter do: that of operand `i` begins, or has found an item. -/
inductive LookupEvent
  | start (i : ℕ)
  | found (i : ℕ) (item : Val)
  deriving DecidableEq, Repr

def lookupEvents : FepConfig → FepConfig → List LookupEvent
  | .enter (.searchPitem i) _, _ => [.start i]
  | .enter (.pitemFound i) σ, _ => [.found i (σ (.curItem i))]
  | _, _ => []

end GraphQueryCompiler
