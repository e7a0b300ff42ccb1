import GraphQueryCompiler.CreateRuns

/-!
# Calls of a start function with `Create`s

A start function whose access path is a `Create` does not look at its range of chunks: every call
makes all objects of the plan again. It does not call the finish function.
-/

namespace GraphQueryCompiler
open StepMachine CodegenInlineVisitor
open LimitedStream (rows)

variable {up : GraphUpdates} {env : Env} {db : GraphDb} {opId : ℕ} {ts : List ℕ} {t : List QrVal}
  {p inp : Plan} {c' : CreateVisitor}

theorem first_continues (er : ℕ → Option Expr) (call : CreateInstr) :
    (CreateVisitor.first ⟨.init er,[]⟩ call ⟨.reg ⟨0,.node⟩,0⟩).Continues 0 := by
  refine ⟨⟨?_,?_,?_,?_,?_,?_⟩,?_,rfl,rfl,rfl,?_,?_,?_⟩
  all_goals simp [CreateVisitor.first,CreateVisitor.body,CreateVisitor.block,init,emit,bb,
    QrValue.Below]

abbrev Env.withRange (env : Env) (r : ℕ × ℕ) : Env := { env with first := r.1, last := r.2 }

theorem Plan.ReadOnly.events_withRange (h : p.ReadOnly) (r : ℕ × ℕ) : ∀ {opId t},
    p.events (env.withRange r) opId t = p.events env opId t := by
  induction p with
  | foreachRship _ _ _ _ ih | expand _ _ _ ih =>
    intro opId t
    simp only [events,ih h]
    rfl
  | sort _ _ ih => exact ih h
  | collect => exact fun {_ _} => rfl
  | _ => exact absurd h id

theorem Plan.Creates.created_withRange (hp : Plan.Creates ts p) (r : ℕ × ℕ) : ∀ {opId db t},
    p.created up (env.withRange r) opId db t = p.created up env opId db t := by
  induction hp with
  | node _ ih => exact ih
  | rship _ _ _ ih =>
    intro opId db t
    simp only [Plan.created,ih]
  | @reads _ p _ hr =>
    intro opId db t
    rw [hr.created_eq,hr.created_eq]
    have hevents : p.events ((env.withDb db).withRange r) opId t =
        p.events (env.withDb db) opId t := hr.events_withRange r
    rw [← hevents]

/-- Calls of a start function for these ranges, one after the other. -/
inductive CreateBody.Calls (fn : CreateBody) (up : GraphUpdates) (env : Env) (entry : Label) :
    List (ℕ × ℕ) → GraphDb × State → GraphDb × State → Prop
  | nil {x : GraphDb × State} : Calls fn up env entry [] x x
  | cons {r : ℕ × ℕ} {rs : List (ℕ × ℕ)} {db db₁ : GraphDb} {σ σ₁ : State} {y : GraphDb × State} :
      Returns (fn.step up (env.withRange r)) (db,.at entry σ) (db₁,.returned σ₁) →
      Calls fn up env entry rs (db₁,σ₁) y → Calls fn up env entry (r :: rs) (db,σ) y

def Plan.createdBy (up : GraphUpdates) (env : Env) (p : Plan) :
    ℕ → GraphDb → GraphDb × List (List QrVal)
  | 0, db => (db,[])
  | k+1, db =>
    let x := p.created up env 1 db []
    let y := p.createdBy up env k x.1
    (y.1,x.2 ++ y.2)

theorem first_blocks {er : ℕ → Option Expr} {call : CreateInstr}
    (h : (CreateVisitor.first ⟨.init er,[]⟩ call ⟨.reg ⟨0,.node⟩,0⟩).Extends c') :
    c'.body ⟨0,.entry⟩ =
        (initFunction 0).map .of ++ [call,.of (.br ⟨0,.consume⟩)] ∧
      c'.body ⟨0,.whileEnd⟩ = [.of .ret] := by
  refine ⟨?_,?_⟩
  all_goals
    rw [h.body_eq (Nat.lt_succ_self 0) (by simp [CreateVisitor.first,emit,bb,init])]
    simp [CreateVisitor.first,CreateVisitor.body,CreateVisitor.block,init,emit,bb]

theorem Plan.Creates.start (hp : Plan.Creates [0] inp) (up : GraphUpdates) (env₀ : Env)
    (er : ℕ → Option Expr) (srcDes : ℕ × ℕ) :
    ∃ fn entry, generateCreateStart env₀.db er (.create .node srcDes inp) = some (fn,entry) ∧
      ∀ (env : Env) (db : GraphDb) (σ : State), σ.Idle →
      ∃ σ', Returns (fn.step up env) (db,.at entry σ)
          (((Plan.create .node srcDes inp).created up env 1 db []).1,.returned σ') ∧ σ'.Idle ∧
        σ'.trace = σ.trace ++
          ((Plan.create .node srcDes inp).created up env 1 db []).2.map .collect := by
  let call : CreateInstr := .createNode ⟨0,.node⟩ 1
  let c₁ := CreateVisitor.first ⟨.init er,[]⟩ call ⟨.reg ⟨0,.node⟩,0⟩
  obtain ⟨c',opId',hgen,hext,hrun⟩ : c₁.Runs env₀.db up 0 [0] inp 3 :=
    hp.runs env₀ (first_continues er call) rfl (by simp)
  have hvisit : (createVisitor env₀.db).visit (.create .node srcDes inp) 1 ⟨.init er,[]⟩ =
      some c₁ := CreateVisitor.visitCreate_none rfl rfl
  have hentry : c'.inline.entry = some ⟨0,.entry⟩ := hext.entry
  refine ⟨c'.body,⟨0,.entry⟩,?_,fun env db σ hσ => ?_⟩
  · simp [generateCreateStart,Plan.codegen,hvisit,hgen,hentry]
  obtain ⟨hfirst,hend⟩ := first_blocks hext
  let x := up.addNode db (env.args.label 1) (env.args.word 2)
  let σ₀ := ((σ.setCell ⟨0,.resCounter⟩ (.word 0)).setCell ⟨0,.rhsAlloca⟩
    (.word unknownId)).setCell ⟨0,.maxCnt⟩ (.word 3)
  let σ₁ := σ₀.setReg ⟨0,.node⟩ (.node x.2)
  let sh : Shared := ⟨fun c => σ₀.cell ⟨0,c⟩,σ.rhsInput,σ.trace⟩
  have h₁ : Reaches (c'.body.step up env) (db,.at ⟨0,.entry⟩ σ) (x.1,.at ⟨0,.consume⟩ σ₁) :=
    reaches_createBlock hfirst rfl
  have hs : Sim 0 σ₁ sh := by
    refine ⟨fun _ _ => rfl,?_,⟨unknownId,.inl rfl,?_⟩,hσ.tp,hσ.matTuple,rfl,rfl⟩
    all_goals simp [σ₁,σ₀]
  have hcount : sh.cell .resCounter = .word 0 := by simp [sh,σ₀]
  have hh : Holds env σ₁ c₁.inline.regQueryResults ([QrVal.node x.2].map (QrVal.toReg 0)) :=
    .cons ⟨by simp [Expr.eval,σ₁,QrVal.toReg],rfl⟩ .nil
  obtain ⟨σ',sh',h₂,hs',htrace⟩ := hrun (typed_node x.2) hs hcount hh
  have h₃ : Reaches (c'.body.step up env) ((inp.created up env 3 x.1 [.node x.2]).1,
      .at ⟨0,.whileEnd⟩ σ') ((inp.created up env 3 x.1 [.node x.2]).1,.returned σ') :=
    reaches_createBlock hend rfl
  exact ⟨σ',⟨(h₁.trans h₂).trans h₃,rfl⟩,⟨hs'.tp,hs'.matTuple⟩,hs'.trace.trans htrace⟩

/-- Every call of a start function whose access path is a `Create` makes all objects of the plan
again, whatever its range of chunks is. The rows of its plan are then collected on the graph that
it has made, and the finish function is not called. -/
theorem generateCreateStart_calls (up : GraphUpdates) (env : Env) (er : ℕ → Option Expr)
    (type : CreateType) (srcDes : ℕ × ℕ) (inp : Plan)
    (hp : Plan.Creates [] (.create type srcDes inp)) :
    ∃ fn entry, generateCreateStart env.db er (.create type srcDes inp) = some (fn,entry) ∧
      ∀ (ranges : List (ℕ × ℕ)) (db : GraphDb) (σ : State), σ.Idle →
        let r := (Plan.create type srcDes inp).createdBy up env ranges.length db
        ∃ σ', fn.Calls up env entry ranges (db,σ) (r.1,σ') ∧ σ'.Idle ∧
          σ'.trace = σ.trace ++ r.2.map .collect := by
  have hcreates := hp
  cases hp with
  | rship hsrc => simp at hsrc
  | reads _ hr => exact absurd hr id
  | node hinp =>
    obtain ⟨fn,entry,hgen,hcall⟩ := hinp.start up env er srcDes
    refine ⟨fn,entry,hgen,fun ranges => ?_⟩
    induction ranges with
    | nil => exact fun db σ hσ => ⟨σ,.nil,hσ,by simp [Plan.createdBy]⟩
    | cons r rs ih =>
      intro db σ hσ
      obtain ⟨σ₁,hret,hσ₁,htrace₁⟩ := hcall (env.withRange r) db σ hσ
      rw [hcreates.created_withRange r] at hret htrace₁
      obtain ⟨σ',hcalls,hσ',htrace⟩ := ih _ σ₁ hσ₁
      refine ⟨σ',.cons hret hcalls,hσ',?_⟩
      rw [htrace,htrace₁,List.append_assoc,← List.map_append]
      rfl

def peopleDb (k m : ℕ) : GraphDb where
  chunks := [List.range k]
  nodeById n := ⟨n,if n % 2 = 0 ∧ n/2 < m ∧ IsId (n/2) then n/2 else unknownId,
    if n % 2 = 1 ∧ n/2 < m ∧ IsId (n/2) then n/2 else unknownId,0,6⟩
  rshipById r := ⟨r,2*r,2*r+1,unknownId,unknownId,unknownId,5⟩
  propertySet _ := ⟨unknownId,0,fun _ => ⟨5,2⟩⟩
  getCode := String.length
  indexLookup _ _ _ := []
  variableFrom _ _ _ _ := []
  size := m+1
  nodes_nodup := by simpa using List.nodup_range
  nodeById_id _ := rfl
  rshipById_id _ := rfl
  rshipList_ends n dir := by
    cases dir
    all_goals
      simp only [Node.rshipList]
      split_ifs with h
      · exact ⟨[n/2],by simp,.cons h.2.2 .nil⟩
      · exact ⟨[],by simp,.nil⟩
  propertyList_ends _ := by
    have hz : IsId 0 := by decide
    exact ⟨[0],by simp,.cons hz .nil⟩

def peopleUpdates : GraphUpdates where
  addNode db _ _ := (peopleDb (db.chunks.flatten.length+1) (db.size-1),db.chunks.flatten.length)
  addRelationship db _ _ _ _ := (peopleDb db.chunks.flatten.length db.size,db.size-1)

def peopleEnv : Env :=
  { pairEnv fun opId => if opId = 5 then "knows" else "Person" with db := peopleDb 0 0 }

def knowingPair : Plan :=
  .create .node (0,0) (.create .node (0,0) (.create .rship (0,1)
    (.expand .OUT "Person" (.collect false))))

theorem generateCreateStart_calls_knowingPair : ∃ fn entry,
    generateCreateStart (peopleDb 0 0) (fun _ => none) knowingPair = some (fn,entry) ∧
    ∃ σ', fn.Calls peopleUpdates peopleEnv entry [(0,0),(1,1)] (peopleDb 0 0,State.fresh)
        (peopleDb 4 2,σ') ∧
      σ'.trace = [.collect [.node 0,.node 1,.rship 0,.node 1],
        .collect [.node 2,.node 3,.rship 1,.node 3]] := by
  have hexpand : Plan.Query [0,0,1] (.expand .OUT "Person" (.collect false)) :=
    .expand rfl .collect
  have hp : Plan.Creates [] knowingPair :=
    .node (.node (.rship rfl rfl (.reads hexpand trivial)))
  obtain ⟨fn,entry,hgen,hrun⟩ :=
    generateCreateStart_calls peopleUpdates peopleEnv (fun _ => none) _ _ _ hp
  obtain ⟨σ',hcalls,_,htrace⟩ :=
    hrun [(0,0),(1,1)] (peopleDb 0 0) State.fresh State.idle_fresh
  refine ⟨fn,entry,hgen,σ',hcalls,?_⟩
  rw [htrace]
  decide

end GraphQueryCompiler
