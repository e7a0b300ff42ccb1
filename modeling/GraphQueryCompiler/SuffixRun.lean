import GraphQueryCompiler.ExecSimulation

/-!
# The code of a suffix on its own

One tuple enters the operators of a suffix, and their code is run until it asks the operator
in front of them for the next tuple.
-/

namespace GraphQueryCompiler
open StepMachine CodegenInlineVisitor

variable {env : Env} {fn : Body} {p : Plan} {opId opId' : ℕ} {v v' : CodegenInlineVisitor}
  {t : Tuple} {σ : State} {sh' : Shared} {tr tr' : List Event}

def Body.stopAt (fn : Body) (l : Label) : Body := fun l' => if l' = l then [.ret] else fn l'

def State.shared (σ : State) (pipe : ℕ) : Shared :=
  ⟨fun c => σ.cell ⟨pipe,c⟩,σ.rhsInput,σ.trace⟩

def Emits (env : Env) (fn : Body) (v : CodegenInlineVisitor) (p : Plan) (σ : State)
    (tr : List Event) : Prop :=
  ∃ σ', Returns ((fn.stopAt v.mainReturn).step env) (.at (p.entryLabel v.visits) σ)
    (.returned σ') ∧ σ'.trace = tr

theorem Emits.unique (h : Emits env fn v p σ tr) (h' : Emits env fn v p σ tr') : tr = tr' := by
  obtain ⟨σ₁,hr₁,rfl⟩ := h
  obtain ⟨σ₂,hr₂,rfl⟩ := h'
  obtain rfl := Config.returned.inj (hr₁.unique hr₂)
  rfl

structure InPipeline (env : Env) (v : CodegenInlineVisitor) (t : Tuple) (σ : State) : Prop where
  ok : Ok v
  sim : Sim v.scan σ (σ.shared v.scan)
  holds : Holds env σ v.regQueryResults t

theorem Exec.emits (hv : InPipeline env v t σ) (hp : p.Suffix)
    (hgen : p.codegen (codegenInlineVisitor env.db) opId true v = some (v',opId'))
    (ha : Agrees fn v v')
    (h : Exec env v.scan (.run p opId v.joinCtx t) (σ.shared v.scan) .backflow sh') :
    Emits env fn v p σ sh'.trace := by
  have hlt := hv.ok.mainReturn
  have ha' : Agrees (fn.stopAt v.mainReturn) v v' := by
    intro l hl hl'
    have hne : l ≠ v.mainReturn := by
      rintro rfl
      omega
    rw [Body.stopAt,if_neg hne,ha l hl hl']
  have hl : Located (fn.stopAt v.mainReturn) env.db v.scan v.joinCtx p opId v v' :=
    ⟨hv.ok,rfl,rfl,hp,⟨opId',hgen⟩,ha'⟩
  obtain ⟨σ',hr,hs,_⟩ := h.simulates v v' σ hl hv.sim hv.holds
  have hret : (fn.stopAt v.mainReturn) (v.exit .backflow) = [.ret] := if_pos rfl
  exact ⟨σ',⟨hr.trans (reaches_block hret rfl),rfl⟩,hs.trace⟩

def afterScan (inp : Plan) : CodegenInlineVisitor :=
  (CodegenInlineVisitor.init fun _ => none).visitScan false inp 1

def scannedState (lists : ℕ → List (List QrVal)) : State where
  reg _ := .node 0
  cell c := if c.name = .maxCnt then .word 3 else .word unknownId
  iters := []
  tp := []
  matTuple := []
  rhsInput := lists
  fevRshipList := []
  fevListIter := 0
  trace := []

theorem inPipeline_afterScan (env : Env) (inp : Plan) (lists : ℕ → List (List QrVal)) :
    InPipeline env (afterScan inp) [(.node 0,0)] (scannedState lists) :=
  ⟨visitScan_ok env.db (by simp [init]),
    ⟨fun _ _ => rfl,rfl,⟨unknownId,Or.inl rfl,rfl⟩,rfl,rfl,rfl,rfl⟩,.cons ⟨rfl,rfl⟩ .nil⟩

end GraphQueryCompiler
