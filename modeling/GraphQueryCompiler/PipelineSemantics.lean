import GraphQueryCompiler.CodegenFrame

/-!
# Structured execution of a pipeline

What the emitted blocks of a pipeline do, without blocks: every operator is a loop around
the operators after it. The cells through which the operators of a pipeline influence one
another remain, since each of them is one alloca of the scan: the counters of the probe
loops, the dangling flag, the result counter and the projection results.
-/

namespace GraphQueryCompiler

abbrev Tuple := List (Val × ℕ)

/-- The cells of a pipeline that outlive the operator using them. -/
def CellName.IsShared : CellName → Bool
  | .resCounter => true
  | .maxIdx => true
  | .curIdx => true
  | .dangling => true
  | .pv _ => true
  | _ => false

structure Shared where
  cell : CellName → Val
  rhsInput : ℕ → List (List QrVal)
  trace : List Event

namespace Shared

def set (sh : Shared) (c : CellName) (v : Val) : Shared :=
  { sh with cell := fun c' => if c' = c then v else sh.cell c' }

def collect (sh : Shared) (t : List QrVal) : Shared :=
  { sh with trace := sh.trace ++ [.collect t] }

def materialize (sh : Shared) (jid : ℕ) (t : List QrVal) : Shared :=
  { sh with
    rhsInput := fun j => if j = jid then sh.rhsInput j ++ [t] else sh.rhsInput j
    trace := sh.trace ++ [.materialize jid t] }

def enterJoin (sh : Shared) (jid : ℕ) : Shared :=
  ((sh.set .dangling (.word 1)).set .curIdx (.word 0)).set .maxIdx
    (.word (sh.rhsInput jid).length)

def matRegVal (pipe : ℕ) (sh : Shared) : Val → ℕ → Option QrVal
  | .node n, 0 => some (.node n)
  | .rship r, 1 => some (.rship r)
  | .cell c, _+2 =>
    if c.owner = pipe ∧ c.name.IsShared then
      match sh.cell c.name with
      | .word n => some (.int n)
      | .property isNode id key type => some (.property isNode id key type)
      | _ => none
    else none
  | _, _ => none

def row (pipe : ℕ) (sh : Shared) (t : Tuple) : Option (List QrVal) :=
  t.mapM fun x => sh.matRegVal pipe x.1 (if x.2 = 7 then 2 else x.2)

end Shared

def matEntry : Val × ℕ → Option QrVal
  | (.node n,0) => some (.node n)
  | (.rship r,_+1) => some (.rship r)
  | (.cell c,_+1) => some (.ptr c)
  | _ => none

def readEntry : ℕ → QrVal → Option (Val × ℕ)
  | 0, .node n => some (.node n,0)
  | _+1, .rship r => some (.rship r,1)
  | _+1, .ptr c => some (.cell c,1)
  | _, _ => none

def readRes : List ℕ → List QrVal → Option Tuple
  | [], _ => some []
  | _ :: _, [] => none
  | type :: types, q :: qs =>
    (readEntry type q).bind fun x => (readRes types qs).map fun xs => x :: xs

structure JoinCtx where
  queryIdInline : ℕ
  jids : List ℕ
  deriving DecidableEq, Repr

def JoinCtx.push (j : JoinCtx) : JoinCtx := ⟨j.queryIdInline+1,j.jids ++ [j.queryIdInline]⟩

/-- Where control goes when the operators of a suffix are done with a tuple: back to the
previous operator, or to the end of the scan. -/
inductive Exit
  | backflow
  | limit
  deriving DecidableEq, Repr

/-- A point of control: the entry of a suffix with a tuple, the head of the loop of a
traversal at a relationship, the head of a probe loop, and the head of the loop of a left
outer join over the relationships of the left-hand node, for one right-hand tuple. -/
inductive Point
  | run (p : Plan) (opId : ℕ) (j : JoinCtx) (t : Tuple)
  | rships (dir : RshipDir) (code i : ℕ) (p : Plan) (opId : ℕ) (j : JoinCtx) (t : Tuple)
  | probe (jop : JoinOp) (pos : ℕ × ℕ) (jid : ℕ) (types : List ℕ) (p : Plan) (opId : ℕ)
      (j : JoinCtx) (t : Tuple)
  | leftRships (pos : ℕ × ℕ) (jid : ℕ) (types : List ℕ) (r : List QrVal) (rhsId i : ℕ)
      (p : Plan) (opId : ℕ) (j : JoinCtx) (t : Tuple)

/-- Execution from a point until control leaves the suffix. -/
inductive Exec (env : Env) (pipe : ℕ) : Point → Shared → Exit → Shared → Prop
  | foreachRship {dir : RshipDir} {label : String} {inp : Plan} {opId n type : ℕ} {j : JoinCtx}
      {t : Tuple} {sh sh' : Shared} {ex : Exit} :
      t.getLast? = some (.node n,type) →
      Exec env pipe (.rships dir (env.db.argLabel env.args opId)
        ((env.db.nodeById n).rshipList dir) inp (opId+1) j t) sh ex sh' →
      Exec env pipe (.run (.foreachRship dir (0,0) label inp) opId j t) sh ex sh'
  | rshipsDone {dir : RshipDir} {code opId : ℕ} {p : Plan} {j : JoinCtx} {t : Tuple}
      {sh : Shared} :
      Exec env pipe (.rships dir code unknownId p opId j t) sh .backflow sh
  | rshipsSkip {dir : RshipDir} {code i opId : ℕ} {p : Plan} {j : JoinCtx} {t : Tuple}
      {sh sh' : Shared} {ex : Exit} :
      IsId i → (env.db.rshipById i).rshipLabel ≠ code →
      Exec env pipe (.rships dir code ((env.db.rshipById i).nextRship dir) p opId j t) sh ex sh' →
      Exec env pipe (.rships dir code i p opId j t) sh ex sh'
  | rshipsHit {dir : RshipDir} {code i opId : ℕ} {p : Plan} {j : JoinCtx} {t : Tuple}
      {sh sh₁ sh' : Shared} {ex : Exit} :
      IsId i → (env.db.rshipById i).rshipLabel = code →
      Exec env pipe (.run p opId j (t ++ [(.rship i,1)])) sh .backflow sh₁ →
      Exec env pipe (.rships dir code ((env.db.rshipById i).nextRship dir) p opId j t) sh₁ ex
        sh' →
      Exec env pipe (.rships dir code i p opId j t) sh ex sh'
  | rshipsExit {dir : RshipDir} {code i opId : ℕ} {p : Plan} {j : JoinCtx} {t : Tuple}
      {sh sh' : Shared} :
      IsId i → (env.db.rshipById i).rshipLabel = code →
      Exec env pipe (.run p opId j (t ++ [(.rship i,1)])) sh .limit sh' →
      Exec env pipe (.rships dir code i p opId j t) sh .limit sh'
  | expand {exp : ExpandDir} {label : String} {inp : Plan} {opId r type : ℕ} {j : JoinCtx}
      {t : Tuple} {sh sh' : Shared} {ex : Exit} :
      t.getLast? = some (.rship r,type) →
      (label ≠ "" → (env.db.nodeById ((env.db.rshipById r).endpoint exp)).nodeLabel =
        env.db.argLabel env.args opId) →
      Exec env pipe (.run inp (opId+1) j (t ++ [(.node ((env.db.rshipById r).endpoint exp),0)]))
        sh ex sh' →
      Exec env pipe (.run (.expand exp label inp) opId j t) sh ex sh'
  | expandFalse {exp : ExpandDir} {label : String} {inp : Plan} {opId r type : ℕ} {j : JoinCtx}
      {t : Tuple} {sh : Shared} :
      t.getLast? = some (.rship r,type) → label ≠ "" →
      (env.db.nodeById ((env.db.rshipById r).endpoint exp)).nodeLabel ≠
        env.db.argLabel env.args opId →
      Exec env pipe (.run (.expand exp label inp) opId j t) sh .backflow sh
  | filter {i : ℕ} {key : String} {c : ℤ} {inp : Plan} {opId n type : ℕ} {j : JoinCtx}
      {t : Tuple} {sh sh' : Shared} {ex : Exit} :
      t[i]? = some (.node n,type) →
      (env.db.findProperty n (env.db.getCode key)).map PItem.value = some (env.args.word opId) →
      Exec env pipe (.run inp (opId+1) j t) sh ex sh' →
      Exec env pipe (.run (.filter (.eq (.key i key) (.num c)) inp) opId j t) sh ex sh'
  | filterFalse {i : ℕ} {key : String} {c : ℤ} {inp : Plan} {opId n type : ℕ} {j : JoinCtx}
      {t : Tuple} {sh : Shared} :
      t[i]? = some (.node n,type) →
      (env.db.findProperty n (env.db.getCode key)).map PItem.value ≠ some (env.args.word opId) →
      Exec env pipe (.run (.filter (.eq (.key i key) (.num c)) inp) opId j t) sh .backflow sh
  | sort {cmp : ℕ} {inp : Plan} {opId : ℕ} {j : JoinCtx} {t : Tuple} {sh sh' : Shared}
      {ex : Exit} :
      Exec env pipe (.run inp (opId+1) j t) sh ex sh' →
      Exec env pipe (.run (.sort cmp inp) opId j t) sh ex sh'
  | limitReached {n : ℤ} {inp : Plan} {opId : ℕ} {j : JoinCtx} {t : Tuple} {sh : Shared} :
      sh.cell .resCounter = .word (CodegenInlineVisitor.limitConst n) →
      Exec env pipe (.run (.limit n inp) opId j t) sh .limit sh
  | limit {n : ℤ} {inp : Plan} {opId c : ℕ} {j : JoinCtx} {t : Tuple} {sh sh' : Shared}
      {ex : Exit} :
      sh.cell .resCounter = .word c → c ≠ CodegenInlineVisitor.limitConst n →
      Exec env pipe (.run inp (opId+1) j t) (sh.set .resCounter (.word (c+1))) ex sh' →
      Exec env pipe (.run (.limit n inp) opId j t) sh ex sh'
  | join {jop : JoinOp} {pos : ℕ × ℕ} {lhs rhs : Plan} {opId : ℕ} {j : JoinCtx} {t : Tuple}
      {sh sh' : Shared} {ex : Exit} :
      Exec env pipe (.probe jop pos j.queryIdInline rhs.rhsType lhs opId j.push t)
        (sh.enterJoin j.queryIdInline) ex sh' →
      Exec env pipe (.run (.join jop pos lhs rhs) opId j t) sh ex sh'
  | probeDone {jop : JoinOp} {pos : ℕ × ℕ} {jid opId cur max : ℕ} {types : List ℕ} {p : Plan}
      {j : JoinCtx} {t : Tuple} {sh : Shared} :
      sh.cell .curIdx = .word cur → sh.cell .maxIdx = .word max → max ≤ cur →
      Exec env pipe (.probe jop pos jid types p opId j t) sh .backflow sh
  | probeCross {pos : ℕ × ℕ} {jid opId cur max : ℕ} {types : List ℕ} {p : Plan} {j : JoinCtx}
      {t u : Tuple} {r : List QrVal} {sh sh₁ sh' : Shared} {ex : Exit} :
      sh.cell .curIdx = .word cur → sh.cell .maxIdx = .word max → cur < max →
      (sh.rhsInput jid)[cur]? = some r → readRes types r = some u →
      Exec env pipe (.run p opId j (t ++ u)) (sh.set .curIdx (.word (cur+1))) .backflow sh₁ →
      Exec env pipe (.probe .CROSS pos jid types p opId j t) sh₁ ex sh' →
      Exec env pipe (.probe .CROSS pos jid types p opId j t) sh ex sh'
  | probeCrossExit {pos : ℕ × ℕ} {jid opId cur max : ℕ} {types : List ℕ} {p : Plan}
      {j : JoinCtx} {t u : Tuple} {r : List QrVal} {sh sh' : Shared} :
      sh.cell .curIdx = .word cur → sh.cell .maxIdx = .word max → cur < max →
      (sh.rhsInput jid)[cur]? = some r → readRes types r = some u →
      Exec env pipe (.run p opId j (t ++ u)) (sh.set .curIdx (.word (cur+1))) .limit sh' →
      Exec env pipe (.probe .CROSS pos jid types p opId j t) sh .limit sh'
  | probeLeft {pos : ℕ × ℕ} {jid opId cur max n b type : ℕ} {types : List ℕ} {p : Plan}
      {j : JoinCtx} {t : Tuple} {r : List QrVal} {sh sh' : Shared} {ex : Exit} :
      sh.cell .curIdx = .word cur → sh.cell .maxIdx = .word max → cur < max →
      (sh.rhsInput jid)[cur]? = some r → r[pos.2]? = some (.node b) →
      t[pos.1]? = some (.node n,type) →
      Exec env pipe (.leftRships pos jid types r b (env.db.nodeById n).fromRshipList p opId j t)
        sh ex sh' →
      Exec env pipe (.probe .LEFT_OUTER pos jid types p opId j t) sh ex sh'
  | leftSkip {pos : ℕ × ℕ} {jid opId i b : ℕ} {types : List ℕ} {p : Plan} {j : JoinCtx}
      {t : Tuple} {r : List QrVal} {sh sh' : Shared} {ex : Exit} :
      IsId i → (env.db.rshipById i).destNode ≠ b →
      Exec env pipe (.leftRships pos jid types r b (env.db.rshipById i).nextSrcRship p opId j t)
        sh ex sh' →
      Exec env pipe (.leftRships pos jid types r b i p opId j t) sh ex sh'
  | leftHit {pos : ℕ × ℕ} {jid opId i b : ℕ} {types : List ℕ} {p : Plan} {j : JoinCtx}
      {t u : Tuple} {r : List QrVal} {sh sh₁ sh' : Shared} {ex : Exit} :
      IsId i → (env.db.rshipById i).destNode = b → readRes types r = some u →
      Exec env pipe (.run p opId j (t ++ u ++ [(.cell ⟨pipe,.dangling⟩,7)]))
        (sh.set .dangling (.word 0)) .backflow sh₁ →
      Exec env pipe (.leftRships pos jid types r b (env.db.rshipById i).nextSrcRship p opId j t)
        sh₁ ex sh' →
      Exec env pipe (.leftRships pos jid types r b i p opId j t) sh ex sh'
  | leftHitExit {pos : ℕ × ℕ} {jid opId i b : ℕ} {types : List ℕ} {p : Plan} {j : JoinCtx}
      {t u : Tuple} {r : List QrVal} {sh sh' : Shared} :
      IsId i → (env.db.rshipById i).destNode = b → readRes types r = some u →
      Exec env pipe (.run p opId j (t ++ u ++ [(.cell ⟨pipe,.dangling⟩,7)]))
        (sh.set .dangling (.word 0)) .limit sh' →
      Exec env pipe (.leftRships pos jid types r b i p opId j t) sh .limit sh'
  | leftDone {pos : ℕ × ℕ} {jid opId b cur d : ℕ} {types : List ℕ} {p : Plan} {j : JoinCtx}
      {t : Tuple} {r : List QrVal} {sh sh' : Shared} {ex : Exit} :
      sh.cell .curIdx = .word cur → sh.cell .dangling = .word d → d ≠ 1 →
      Exec env pipe (.probe .LEFT_OUTER pos jid types p opId j t)
        (sh.set .curIdx (.word (cur+1))) ex sh' →
      Exec env pipe (.leftRships pos jid types r b unknownId p opId j t) sh ex sh'
  | leftDangling {pos : ℕ × ℕ} {jid opId b cur : ℕ} {types : List ℕ} {p : Plan} {j : JoinCtx}
      {t u : Tuple} {r : List QrVal} {sh sh₁ sh' : Shared} {ex : Exit} :
      sh.cell .curIdx = .word cur → sh.cell .dangling = .word 1 → readRes types r = some u →
      Exec env pipe (.run p opId j (t ++ u ++ [(.cell ⟨pipe,.dangling⟩,7)]))
        (sh.set .curIdx (.word (cur+1))) .backflow sh₁ →
      Exec env pipe (.probe .LEFT_OUTER pos jid types p opId j t) sh₁ ex sh' →
      Exec env pipe (.leftRships pos jid types r b unknownId p opId j t) sh ex sh'
  | leftDanglingExit {pos : ℕ × ℕ} {jid opId b cur : ℕ} {types : List ℕ} {p : Plan}
      {j : JoinCtx} {t u : Tuple} {r : List QrVal} {sh sh' : Shared} :
      sh.cell .curIdx = .word cur → sh.cell .dangling = .word 1 → readRes types r = some u →
      Exec env pipe (.run p opId j (t ++ u ++ [(.cell ⟨pipe,.dangling⟩,7)]))
        (sh.set .curIdx (.word (cur+1))) .limit sh' →
      Exec env pipe (.leftRships pos jid types r b unknownId p opId j t) sh .limit sh'
  | collect {print : Bool} {opId : ℕ} {j : JoinCtx} {t : Tuple} {q : List QrVal} {sh : Shared} :
      sh.row pipe t = some q →
      Exec env pipe (.run (.collect print) opId j t) sh .backflow (sh.collect q)
  | endOp {opId jid : ℕ} {j : JoinCtx} {t : Tuple} {q : List QrVal} {sh : Shared} :
      j.jids.head? = some jid → t.mapM matEntry = some q →
      Exec env pipe (.run .endOp opId j t) sh .backflow (sh.materialize jid q)

inductive ScanExec (env : Env) (pipe code : ℕ) (p : Plan) (opId : ℕ) (j : JoinCtx) :
    List ℕ → Shared → Shared → Prop
  | nil {sh : Shared} : ScanExec env pipe code p opId j [] sh sh
  | skip {n : ℕ} {ns : List ℕ} {sh sh' : Shared} :
      (env.db.nodeById n).nodeLabel ≠ code → ScanExec env pipe code p opId j ns sh sh' →
      ScanExec env pipe code p opId j (n :: ns) sh sh'
  | hit {n : ℕ} {ns : List ℕ} {sh sh₁ sh' : Shared} :
      (env.db.nodeById n).nodeLabel = code →
      Exec env pipe (.run p opId j [(.node n,0)]) sh .backflow sh₁ →
      ScanExec env pipe code p opId j ns sh₁ sh' →
      ScanExec env pipe code p opId j (n :: ns) sh sh'
  | exit {n : ℕ} {ns : List ℕ} {sh sh' : Shared} :
      (env.db.nodeById n).nodeLabel = code →
      Exec env pipe (.run p opId j [(.node n,0)]) sh .limit sh' →
      ScanExec env pipe code p opId j (n :: ns) sh sh'

structure Global where
  rhsInput : ℕ → List (List QrVal)
  trace : List Event

def Shared.global (sh : Shared) : Global := ⟨sh.rhsInput,sh.trace⟩

def Plan.joinCtxEnd : Plan → JoinCtx → JoinCtx
  | .scan _ _ inp, j => inp.joinCtxEnd j
  | .foreachRship _ _ _ inp, j => inp.joinCtxEnd j
  | .expand _ _ inp, j => inp.joinCtxEnd j
  | .filter _ inp, j => inp.joinCtxEnd j
  | .project _ inp, j => inp.joinCtxEnd j
  | .join _ _ lhs rhs, j => rhs.joinCtxEnd (lhs.joinCtxEnd j.push)
  | .sort _ inp, j => inp.joinCtxEnd j
  | .limit _ inp, j => inp.joinCtxEnd j
  | .create _ _ inp, j => inp.joinCtxEnd j
  | .collect _, j => j
  | .endOp, j => ⟨j.queryIdInline,j.jids.tail⟩

/-- Execution of all pipelines of a plan whose head is visited as number `k`: those of the
right-hand sides below a pipeline run before it, the innermost first. The list has what
each pipeline finds when it starts, under the visit of its scan. An index scan is not
covered. -/
def PlanExec (env : Env) : Plan → ℕ → ℕ → JoinCtx → Global → Global → List (ℕ × Global) → Prop
  | .scan _ indexed inp, k, opId, j, g, g', starts =>
    indexed = false ∧ ∃ g₁ starts₁, PlanExec env inp (k+1) (opId+1) j g g₁ starts₁ ∧
      starts = starts₁ ++ [(k,g₁)] ∧
      ∀ pipe (cell : CellName → Val), cell .resCounter = .word 0 →
        ∃ cell', ScanExec env pipe (env.db.argLabel env.args opId) inp (opId+1) j
          (env.db.range env.first env.last) ⟨cell,g₁.rhsInput,g₁.trace⟩
          ⟨cell',g'.rhsInput,g'.trace⟩
  | .foreachRship _ _ _ inp, k, opId, j, g, g', starts =>
    PlanExec env inp (k+1) (opId+1) j g g' starts
  | .expand _ _ inp, k, opId, j, g, g', starts => PlanExec env inp (k+1) (opId+1) j g g' starts
  | .filter _ inp, k, opId, j, g, g', starts => PlanExec env inp (k+1) (opId+1) j g g' starts
  | .project _ inp, k, opId, j, g, g', starts => PlanExec env inp (k+1) opId j g g' starts
  | .join _ _ lhs rhs, k, opId, j, g, g', starts =>
    ∃ g₁ starts₁ starts₂,
      PlanExec env rhs (k+1+lhs.numVisits) (lhs.opIdEnd opId) (lhs.joinCtxEnd j.push) g g₁
        starts₁ ∧
      PlanExec env lhs (k+1) opId j.push g₁ g' starts₂ ∧ starts = starts₁ ++ starts₂
  | .sort _ inp, k, opId, j, g, g', starts => PlanExec env inp (k+1) (opId+1) j g g' starts
  | .limit _ inp, k, opId, j, g, g', starts => PlanExec env inp (k+1) (opId+1) j g g' starts
  | .create .., _, _, _, _, _, _ => False
  | .collect _, _, _, _, g, g', starts => g' = g ∧ starts = []
  | .endOp, _, _, _, g, g', starts => g' = g ∧ starts = []

end GraphQueryCompiler
