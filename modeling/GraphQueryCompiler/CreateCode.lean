import GraphQueryCompiler.CodegenInline

/-!
# The code of `Create`

`visit(create_op)` of the inline visitor. Its calls change the graph, so that the graph is a part
of the configurations here; all other instructions read it as it is when they run. The iterator
of a scan does not see the nodes that are created while it is on its way: this model is made for
plans whose access path is a `Create`.
-/

namespace GraphQueryCompiler

/-- `graph_db::add_node` and `graph_db::add_relationship`, with the address of the properties and
with the id that they return. -/
structure GraphUpdates where
  addNode : GraphDb → String → ℕ → GraphDb × ℕ
  addRelationship : GraphDb → ℕ → ℕ → String → ℕ → GraphDb × ℕ

inductive CreateInstr
  | of (i : Instr)
  | createNode (r : Reg) (opId : ℕ)
  | createRship (r : Reg) (opId : ℕ) (n1 n2 : Expr)

abbrev CreateBody := Label → List CreateInstr

/-- The blocks that are called `bb` in `visit(create_op)` are in `creates`. -/
structure CreateVisitor where
  inline : CodegenInlineVisitor
  creates : List (Label × List CreateInstr)

def CreateVisitor.block (c : CreateVisitor) (l : Label) : List CreateInstr :=
  c.creates.flatMap fun e => if e.1 = l then e.2 else []

def CreateVisitor.body (c : CreateVisitor) : CreateBody := fun l =>
  (c.inline.code.body l).map .of ++ c.block l

def CodegenInlineVisitor.createCall (v : CodegenInlineVisitor) (opId : ℕ) :
    CreateType → ℕ × ℕ → Option (CreateInstr × QrValue)
  | .node, _ => some (.createNode (v.reg .node) opId,⟨.reg (v.reg .node),0⟩)
  | .rship, srcDes => do
    let n1 ← v.regQueryResults[srcDes.1]?
    let n2 ← v.regQueryResults[srcDes.2]?
    return (.createRship (v.reg .rship) opId n1.regVal n2.regVal,⟨.reg (v.reg .rship),1⟩)

namespace CreateVisitor
variable (c : CreateVisitor)

/-- `visit(create_op)`. An access path leaves the projection keys of its plan out, and returns
from `main_return` (here `whileEnd`) without a call of the finish function. -/
def visitCreate (type : CreateType) (srcDes : ℕ × ℕ) (opId : ℕ) : Option CreateVisitor := do
  let v := c.inline
  let (call,res) ← v.createCall opId type srcDes
  let created (code : Code) : CodegenInlineVisitor :=
    { v.emit code (v.bb .consume) with regQueryResults := v.regQueryResults ++ [res] }
  let bb : List CreateInstr := [call,.of (.br (v.bb .consume))]
  match v.entry with
  | none =>
    return ⟨{ created [(v.bb .whileEnd,[.ret])] with
        scan := v.visits
        entry := some (v.bb .entry)
        mainReturn := v.bb .whileEnd
        projectKeys := v.projectString },
      c.creates ++
        [(v.bb .entry,(CodegenInlineVisitor.initFunction v.visits).map .of ++ bb)]⟩
  | some _ =>
    return ⟨created [(v.prevBb,[.br (v.bb .entry)])],c.creates ++ [(v.bb .entry,bb)]⟩

def visitInline (db : GraphDb) (op : Plan) (opId : ℕ) : Option CreateVisitor :=
  ((codegenInlineVisitor db).visit op opId c.inline).map fun v => { c with inline := v }

end CreateVisitor

def createVisitor (db : GraphDb) : OpVisitor CreateVisitor where
  visit op opId c := match op with
    | .create type srcDes _ => c.visitCreate type srcDes opId
    | .limit _ _ =>
      -- there is no `scan_nodes_end` before the first scan
      if c.inline.scanNodesEnd.name = .scanNodesEnd then c.visitInline db op opId else none
    | _ => c.visitInline db op opId

def generateCreateStart (db : GraphDb) (exprRegister : ℕ → Option Expr) (p : Plan) :
    Option (CreateBody × Label) := do
  let (c,_) ← p.codegen (createVisitor db) 1 true ⟨.init exprRegister,[]⟩
  let entry ← c.inline.entry
  return (c.body,entry)

abbrev Env.withDb (env : Env) (db : GraphDb) : Env := { env with db := db }

def execCreateBlock (up : GraphUpdates) (env : Env) :
    List CreateInstr → GraphDb → State → Option (GraphDb × Config)
  | [], _, _ => none
  | .createNode r opId :: is, db, σ =>
    let x := up.addNode db (env.args.label opId) (env.args.word (opId+1))
    execCreateBlock up env is x.1 (σ.setReg r (.node x.2))
  | .createRship r opId n1 n2 :: is, db, σ =>
    match n1.eval (env.withDb db) σ, n2.eval (env.withDb db) σ with
    | .node a, .node b =>
      let x := up.addRelationship db (db.nodeById a).id (db.nodeById b).id (env.args.label opId)
        (env.args.word (opId+1))
      execCreateBlock up env is x.1 (σ.setReg r (.rship x.2))
    | _, _ => none
  | .of (.br l) :: _, db, σ => some (db,.at l σ)
  | .of (.condBr c t f) :: _, db, σ =>
    match c.eval (env.withDb db) σ with
    | .bool true => some (db,.at t σ)
    | .bool false => some (db,.at f σ)
    | _ => none
  | .of .ret :: _, db, σ => some (db,.returned σ)
  | .of i :: is, db, σ => (i.exec (env.withDb db) σ).bind (execCreateBlock up env is db)

def CreateBody.step (fn : CreateBody) (up : GraphUpdates) (env : Env) :
    GraphDb × Config → Option (GraphDb × Config)
  | (db,.at l σ) => execCreateBlock up env (fn l) db σ
  | (_,.returned _) => none

end GraphQueryCompiler
