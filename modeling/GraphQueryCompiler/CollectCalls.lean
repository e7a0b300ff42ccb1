import GraphQueryCompiler.ParallelJoin
import GraphQueryCompiler.Lib.RowBuffers

/-!
# The rows of several threads

`mat_reg_value` and `mat_node` append to buffers of the thread, `collect_tuple` and
`collect_tuple_join` append a buffer to a list of all threads and clear it. In whatever order the
threads make these calls, every list gets their rows whole, each once and in the order of its
thread.
-/

namespace GraphQueryCompiler
open RowBuffers

variable {ι : Type*} {env : Env} {σ σ' : State}

/-- The calls that have to do with the buffers, with what they append. -/
inductive BufferCall
  | matRegValue (v : QrVal)
  | collectTuple
  | matNode (v : QrVal)
  | matRship (v : QrVal)
  | collectTupleJoin (jid : ℕ)

def Instr.bufferCall (env : Env) (σ : State) : Instr → Option BufferCall
  | .matRegValue e type => (matRegVal σ (e.eval env σ) type).map .matRegValue
  | .collectTuple => some .collectTuple
  | .matNode e =>
    match e.eval env σ with
    | .node n => some (.matNode (.node n))
    | _ => none
  | .matRship e =>
    match e.eval env σ with
    | .rship r => some (.matRship (.rship r))
    | .cell c => some (.matRship (.ptr c))
    | _ => none
  | .collectTupleJoin jid => some (.collectTupleJoin jid)
  | _ => none

def BufferCall.result? : BufferCall → Option (Call Unit QrVal)
  | .matRegValue v => some (.put v)
  | .collectTuple => some (.publish ())
  | _ => none

def BufferCall.join? : BufferCall → Option (Call ℕ QrVal)
  | .matNode v => some (.put v)
  | .matRship v => some (.put v)
  | .collectTupleJoin jid => some (.publish jid)
  | _ => none

/-- The rows that the calls of a thread collect, if `tp` has been materialised before them. -/
def resultRows (tp : List QrVal) (calls : List BufferCall) : List (List QrVal) :=
  rows () tp (calls.filterMap BufferCall.result?)

def joinRows (jid : ℕ) (matTuple : List QrVal) (calls : List BufferCall) : List (List QrVal) :=
  rows jid matTuple (calls.filterMap BufferCall.join?)

structure KeepsBuffers (σ σ' : State) : Prop where
  tp : σ'.tp = σ.tp
  matTuple : σ'.matTuple = σ.matTuple
  rhsInput : σ'.rhsInput = σ.rhsInput
  collected : σ'.global.collected = σ.global.collected

theorem exec_keepsBuffers {i : Instr} (h : i.exec env σ = some σ')
    (hi : i.bufferCall env σ = none) : KeepsBuffers σ σ' := by
  cases i with
  | matRegValue e type =>
    obtain ⟨v,hv,rfl⟩ := Option.map_eq_some_iff.1 h
    simp [Instr.bufferCall,hv] at hi
  | collectTuple | collectTupleJoin => simp [Instr.bufferCall] at hi
  | matNode e | matRship e =>
    simp only [Instr.exec,Instr.bufferCall] at h hi
    split at h <;> simp_all
  | br | condBr | ret => simp [Instr.exec] at h
  | callFinish =>
    obtain rfl := Option.some.inj h
    exact ⟨rfl,rfl,rfl,by simp [Global.collected,State.global,State.emit,Event.row?]⟩
  | fevListEnd r =>
    simp only [Instr.exec] at h
    split at h
    all_goals
      obtain rfl := Option.some.inj h
      exact ⟨rfl,rfl,rfl,rfl⟩
  | getNextRshipFev r =>
    obtain ⟨i,_,rfl⟩ := Option.map_eq_some_iff.1 h
    exact ⟨rfl,rfl,rfl,rfl⟩
  | vecEndReached | getNodeFromIt | getJoinTpAt =>
    simp only [Instr.exec] at h
    split at h
    · obtain ⟨_,_,rfl⟩ := Option.map_eq_some_iff.1 h
      exact ⟨rfl,rfl,rfl,rfl⟩
    · cases h
  | _ =>
    simp only [Instr.exec] at h
    repeat' split at h
    all_goals cases h
    all_goals exact ⟨rfl,rfl,rfl,rfl⟩

def BufferCall.apply (σ : State) : BufferCall → State
  | .matRegValue v => { σ with tp := σ.tp ++ [v] }
  | .collectTuple => { σ.emit (.collect σ.tp) with tp := [] }
  | .matNode v => { σ with matTuple := σ.matTuple ++ [v] }
  | .matRship v => { σ with matTuple := σ.matTuple ++ [v] }
  | .collectTupleJoin jid =>
    { σ.emit (.materialize jid σ.matTuple) with
      rhsInput := fun j => if j = jid then σ.rhsInput j ++ [σ.matTuple] else σ.rhsInput j
      matTuple := [] }

theorem exec_of_bufferCall {i : Instr} {c : BufferCall} (h : i.bufferCall env σ = some c) :
    i.exec env σ = some (c.apply σ) := by
  cases i with
  | matRegValue e type =>
    obtain ⟨v,hv,rfl⟩ := Option.map_eq_some_iff.1 h
    simp only [Instr.exec,hv]
    rfl
  | collectTuple | collectTupleJoin =>
    obtain rfl := Option.some.inj h
    rfl
  | matNode e | matRship e =>
    simp only [Instr.bufferCall] at h
    split at h
    all_goals cases h
    all_goals
      next hval =>
      simp only [Instr.exec,hval]
      rfl
  | _ => cases h

theorem BufferCall.apply_result (c : BufferCall) :
    (c.apply σ).tp = leftover σ.tp c.result?.toList ∧
      (c.apply σ).global.collected = σ.global.collected ++ rows () σ.tp c.result?.toList := by
  cases c with
  | collectTuple | collectTupleJoin =>
    simp [apply,result?,leftover,rows,State.global,Global.collected,State.emit,Event.row?]
  | _ => simp [apply,result?,leftover,rows,State.global,Global.collected]

theorem BufferCall.apply_join (c : BufferCall) :
    (c.apply σ).matTuple = leftover σ.matTuple c.join?.toList ∧
      ∀ jid, (c.apply σ).rhsInput jid = σ.rhsInput jid ++ rows jid σ.matTuple c.join?.toList := by
  cases c with
  | collectTupleJoin jid =>
    refine ⟨rfl,fun j => ?_⟩
    by_cases hj : j = jid
    · subst hj
      simp [apply,join?,rows]
    · simp [apply,join?,rows,hj,Ne.symm hj]
  | _ => simp [apply,join?,leftover,rows,State.emit]

theorem exec_buffers {i : Instr} (h : i.exec env σ = some σ') :
    (σ'.tp = leftover σ.tp ((i.bufferCall env σ).bind BufferCall.result?).toList ∧
      σ'.global.collected = σ.global.collected ++
        rows () σ.tp ((i.bufferCall env σ).bind BufferCall.result?).toList) ∧
    (σ'.matTuple = leftover σ.matTuple ((i.bufferCall env σ).bind BufferCall.join?).toList ∧
      ∀ jid, σ'.rhsInput jid = σ.rhsInput jid ++
        rows jid σ.matTuple ((i.bufferCall env σ).bind BufferCall.join?).toList) := by
  cases hc : i.bufferCall env σ with
  | some c =>
    rw [exec_of_bufferCall hc] at h
    obtain rfl := Option.some.inj h
    exact ⟨c.apply_result,c.apply_join⟩
  | none =>
    have hkept := exec_keepsBuffers h hc
    exact ⟨⟨hkept.tp,hkept.collected.trans (List.append_nil _).symm⟩,hkept.matTuple,
      fun jid => (congrFun hkept.rhsInput jid).trans (List.append_nil _).symm⟩

abbrev Threads (ι : Type*) := Global × (ι → State)

def resultBuffers (s : Threads ι) : Buffers ι Unit QrVal :=
  ⟨fun i => (s.2 i).tp,fun _ => s.1.collected⟩

def joinBuffers (s : Threads ι) : Buffers ι ℕ QrVal :=
  ⟨fun i => (s.2 i).matTuple,s.1.rhsInput⟩

variable [DecidableEq ι]

/-- The threads execute instructions in any order; the log has the calls that they make. -/
inductive CallRuns (env : ι → Env) (s : Threads ι) :
    List (ι × BufferCall) → Threads ι → Prop
  | start : CallRuns env s [] s
  | step {log : List (ι × BufferCall)} {g : Global} {cs : ι → State} {σ' : State} (i : ι)
      (ins : Instr) : CallRuns env s log (g,cs) →
      ins.exec (env i) ((cs i).setGlobal g) = some σ' →
      CallRuns env s (log ++ (ins.bufferCall (env i) ((cs i).setGlobal g)).toList.map (i,·))
        (σ'.global,Function.update cs i σ')

variable {envs : ι → Env} {s s' : Threads ι} {log : List (ι × BufferCall)} {κ : Type*}

def logOf (f : BufferCall → Option (Call κ QrVal)) (log : List (ι × BufferCall)) :
    List (ι × Call κ QrVal) :=
  log.filterMap fun e => (f e.2).map (e.1,·)

omit [DecidableEq ι] in
theorem logOf_call (f : BufferCall → Option (Call κ QrVal)) (i : ι) (c : Option BufferCall) :
    logOf f (log ++ c.toList.map (i,·)) = logOf f log ++ (c.bind f).toList.map (i,·) := by
  cases c with
  | none => simp [logOf]
  | some c => cases hc : f c <;> simp [logOf,hc]

theorem ofThread_logOf (f : BufferCall → Option (Call κ QrVal)) (i : ι) :
    ofThread i (logOf f log) = (ofThread i log).filterMap f := by
  induction log with
  | nil => rfl
  | cons e log ih =>
    have hlog : logOf f (e :: log) = (f e.2).toList.map (e.1,·) ++ logOf f log := by
      cases hc : f e.2 <;> simp [logOf,hc]
    rw [hlog,ofThread_append,ih]
    by_cases hi : e.1 = i
    · subst hi
      rw [ofThread_map_self]
      cases hc : f e.2 <;> simp [ofThread,hc]
    · rw [ofThread_map_of_ne hi]
      simp [ofThread,hi]

theorem CallRuns.assembled (h : CallRuns envs s log s') :
    Assembled (resultBuffers s) (logOf BufferCall.result? log) (resultBuffers s') ∧
      Assembled (joinBuffers s) (logOf BufferCall.join? log) (joinBuffers s') := by
  induction h with
  | start => exact ⟨.start _,.start _⟩
  | @step log g cs σ' i ins _ hexec ih =>
    obtain ⟨⟨htp,hcollected⟩,hmat,hlists⟩ := exec_buffers hexec
    rw [logOf_call,logOf_call]
    constructor
    · convert ih.1.calls i _ using 1
      simp only [resultBuffers,Buffers.calls,Buffers.mk.injEq]
      exact ⟨htp ▸ Function.comp_update State.tp cs i σ',funext fun _ => hcollected⟩
    · convert ih.2.calls i _ using 1
      simp only [joinBuffers,Buffers.calls,Buffers.mk.injEq]
      exact ⟨hmat ▸ Function.comp_update State.matTuple cs i σ',funext hlists⟩

/-- Whatever the order of the calls, the result set and the lists of the joins get the rows of the
threads. -/
theorem calls_mergeRows (env : ι → Env) (s s' : Threads ι) (log : List (ι × BufferCall))
    (h : CallRuns env s log s') :
    (∃ l, s'.1.collected = s.1.collected ++ l ∧
      Merges (fun i => resultRows (s.2 i).tp (ofThread i log)) l) ∧
    ∀ jid, ∃ l, s'.1.rhsInput jid = s.1.rhsInput jid ++ l ∧
      Merges (fun i => joinRows jid (s.2 i).matTuple (ofThread i log)) l := by
  obtain ⟨hresult,hjoin⟩ := h.assembled
  simp only [resultRows,joinRows,← ofThread_logOf]
  exact ⟨hresult.shared (),hjoin.shared⟩

theorem calls_mergeRows_two : ∃ (log : List (Fin 2 × BufferCall)) (s' : Threads (Fin 2)),
    CallRuns (fun _ => pairEnv fun _ => "Person") (⟨fun _ => [],[]⟩,fun _ => State.fresh) log s' ∧
      s'.1.collected = [[.node 1],[.node 0]] ∧ ∃ l, s'.1.collected = [] ++ l ∧
        Merges (fun i => resultRows [] (ofThread i log)) l := by
  have hruns : CallRuns (fun _ => pairEnv fun _ => "Person")
      (⟨fun _ => [],[]⟩,fun _ : Fin 2 => State.fresh) _ _ :=
    .step 0 .collectTuple (.step 1 .collectTuple
      (.step 1 (.matRegValue (.reg ⟨0,.node⟩) 0)
      (.step 0 (.matRegValue (.reg ⟨0,.node⟩) 0)
      (.step 1 (.nodeById ⟨0,.node⟩ (.const 1))
      (.step 0 (.nodeById ⟨0,.node⟩ (.const 0)) .start rfl) rfl) rfl) rfl) rfl) rfl
  exact ⟨_,_,hruns,rfl,(calls_mergeRows _ _ _ _ hruns).1⟩

end GraphQueryCompiler
