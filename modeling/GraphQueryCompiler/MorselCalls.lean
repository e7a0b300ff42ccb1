import GraphQueryCompiler.ParallelJoin

/-!
# The morsels of a plan without joins

`run_parallel` scans the chunks for a plan without joins in morsels, in several threads. As long
as the plan compiles they are interpreted, then their ranges go to the start function. All calls
collect into one result set.
-/

namespace GraphQueryCompiler
open StepMachine

/-- A call of `scan_task::callee_`: of the start function, or of the interpreter with the rows that
it has still to collect. -/
inductive MorselCall
  | compiled (c : Config)
  | interpreted (left : List (List QrVal)) (g : Global)

namespace MorselCall

def global : MorselCall → Global
  | .compiled c => c.global
  | .interpreted _ g => g

def setGlobal (g : Global) : MorselCall → MorselCall
  | .compiled c => .compiled (c.setGlobal g)
  | .interpreted left _ => .interpreted left g

def step (fn : Body) (env : Env) : MorselCall → Option MorselCall
  | .compiled c => (fn.step env c).map .compiled
  | .interpreted (r :: left) g => some (.interpreted left (g.emit (.collect r)))
  | .interpreted [] _ => none

def Begins (entry : Label) (rows : List (List QrVal)) : MorselCall → Prop
  | .compiled c => ∃ σ, c = .at entry σ ∧ σ.Idle
  | .interpreted left _ => left.Perm rows

def Done : MorselCall → Prop
  | .compiled c => ∃ σ, c = .returned σ
  | .interpreted left _ => left = []

end MorselCall

def sharedMorsels : Interleaving.Shared MorselCall Global where
  get := MorselCall.global
  put := MorselCall.setGlobal
  get_put g c := by
    cases c with
    | compiled c => exact sharedGlobal.get_put g c
    | interpreted => rfl
  put_get c := by
    cases c with
    | compiled c => exact congrArg MorselCall.compiled (sharedGlobal.put_get c)
    | interpreted => rfl
  put_put g g' c := by
    cases c with
    | compiled c => exact congrArg MorselCall.compiled (sharedGlobal.put_put g g' c)
    | interpreted => rfl

variable {t : ℕ} {env : Env} {fn : Body} {entry : Label} {p : Plan} {er : ℕ → Option Expr}
  {ranges : Fin t → ℕ × ℕ} {g g' : Global} {rows : List (List QrVal)} {call call' : MorselCall}
  {es es' : List Event}

/-- The steps of the calls, in any order. -/
abbrev MorselStep (fn : Body) (env : Env) (ranges : Fin t → ℕ × ℕ) :
    Global × (Fin t → MorselCall) → Global × (Fin t → MorselCall) → Prop :=
  Interleaving.Step (fun i => MorselCall.step fn (threadEnv env ranges i)) sharedMorsels

def morselFootprint (fn : Body) (env : Fin t → Env) :
    Interleaving.Footprint (fun i => MorselCall.step fn (env i)) sharedMorsels Event where
  act := Global.emit
  Reads
    | .compiled c => Reading fn c
    | .interpreted .. => False
  reads_put {g c} h := by
    cases c with
    | compiled c => exact (startFootprint fn env).reads_put (a := c) h
    | interpreted => exact h
  Writes := (startFootprint fn env).Writes
  Agree := (startFootprint fn env).Agree
  agree_refl := (startFootprint fn env).agree_refl
  agree_act := (startFootprint fn env).agree_act
  agree_silent := (startFootprint fn env).agree_silent
  exec {i c c'} h := by
    cases c with
    | compiled c =>
      obtain ⟨d,hd,rfl⟩ := Option.map_eq_some_iff.1 h
      obtain ⟨es,hglobal,hframe⟩ := (startFootprint fn env).exec (i := i) hd
      exact ⟨es,hglobal,fun g hg => congrArg (Option.map MorselCall.compiled) (hframe g hg)⟩
    | interpreted left g =>
      cases left with
      | nil => cases h
      | cons r left =>
        obtain rfl := Option.some.inj h
        exact ⟨[.collect r],rfl,fun _ _ => rfl⟩

theorem MorselCall.done_iff_of_setGlobal (h : call.setGlobal g = call'.setGlobal g) :
    call.Done ↔ call'.Done := by
  cases call with
  | compiled c =>
    cases call' with
    | interpreted => cases h
    | compiled c' =>
      have hc : c.setGlobal g = c'.setGlobal g := MorselCall.compiled.inj h
      cases c <;> cases c' <;> simp_all [Done,Config.setGlobal]
  | interpreted left =>
    cases call' with
    | compiled => cases h
    | interpreted left' =>
      obtain ⟨rfl,_⟩ := MorselCall.interpreted.inj h
      exact Iff.rfl

theorem interpreted_returns (fn : Body) (env : Env) (left : List (List QrVal)) : ∀ g,
    Returns (MorselCall.step fn env) (.interpreted left g)
      (.interpreted [] ((left.map Event.collect).foldl Global.emit g)) := by
  induction left with
  | nil => exact fun g => ⟨.refl,rfl⟩
  | cons r left ih => exact fun g => Returns.of_reaches (.single rfl) (ih _)

theorem collected_map_collect (rows : List (List QrVal)) :
    (rows.map Event.collect).filterMap Event.row? = rows := by
  simp [List.filterMap_map,Function.comp_def,Event.row?]

theorem emit_injective (h : es.foldl Global.emit g = es'.foldl Global.emit g) : es = es' :=
  List.append_cancel_left ((Global.trace_of_foldl rfl).symm.trans
    ((congrArg Global.trace h).trans (Global.trace_of_foldl rfl)))

theorem MorselCall.Begins.returns (env : Env) (hgen : generateStart env.db er p = some (fn,entry))
    (hrows : Evaluates env er p rows) (hb : call.Begins entry rows) (g : Global) :
    ∃ (c : MorselCall) (es : List Event),
      Returns (MorselCall.step fn env) (call.setGlobal g) c ∧ c.Done ∧
        c.global = es.foldl Global.emit g ∧ (es.filterMap Event.row?).Perm rows ∧
          ∀ e ∈ es, ∀ jid u, e ≠ .materialize jid u := by
  cases call with
  | interpreted left =>
    refine ⟨_,left.map .collect,interpreted_returns fn env left g,rfl,rfl,?_,by simp⟩
    rw [collected_map_collect]
    exact hb
  | compiled c =>
    obtain ⟨σ,rfl,hσ⟩ := hb
    obtain ⟨fn',entry',hgen',hruns⟩ := hrows
    obtain ⟨rfl,rfl⟩ : fn = fn' ∧ entry = entry' := by
      simpa using Option.some.inj (hgen.symm.trans hgen')
    obtain ⟨σ',hret,_,htrace⟩ := hruns (σ.setGlobal g) ⟨hσ.tp,hσ.matTuple⟩
    obtain ⟨es,hglobal,_⟩ := reaches_emits hret.1
    have hes : es = rows.map .collect ++ [.finish] := by
      have hbefore : σ'.trace = g.trace ++ es := Global.trace_of_foldl hglobal
      have hafter : σ'.trace = g.trace ++ rows.map .collect ++ [.finish] := htrace
      rw [hbefore,List.append_assoc] at hafter
      exact List.append_cancel_left hafter
    refine ⟨.compiled (.returned σ'),es,
      Returns.of_map (f := MorselCall.compiled) (fun _ => rfl) hret,⟨σ',rfl⟩,hglobal,?_,?_⟩
    · rw [hes,List.filterMap_append,collected_map_collect]
      exact .of_eq (List.append_nil rows)
    · rw [hes]
      intro e he jid u hmat
      simp [hmat] at he

/-- The result set gets the rows of all morsels, whichever of them are interpreted, in whatever
order the calls take their steps; and all orders come to an end. -/
theorem morsels_collectRows (env : Env) (er : ℕ → Option Expr) (p : Plan) (hpath : p.AccessPath)
    (hn : p.Nested true) (hj : p.JoinFree) (t : ℕ) (ranges : Fin t → ℕ × ℕ)
    (hpart : Partitions env ranges) (fn : Body) (entry : Label)
    (hgen : generateStart env.db er p = some (fn,entry)) (calls : Fin t → MorselCall)
    (hcalls : ∀ i, (calls i).Begins entry (p.rows (threadEnv env ranges i) 1 [])) (g₀ : Global) :
    Acc (fun s s' => MorselStep fn env ranges s' s) (g₀,calls) ∧
      ∀ g cs, Relation.ReflTransGen (MorselStep fn env ranges) (g₀,calls) (g,cs) →
        (∀ s, ¬ MorselStep fn env ranges (g,cs) s) →
          (∀ i, (cs i).Done) ∧ g.collected.Perm (g₀.collected ++ p.rows env.whole 1 []) := by
  let a : Fin t → MorselCall := fun i => (calls i).setGlobal g₀
  let F := morselFootprint fn (threadEnv env ranges)
  have ha : ∀ i, sharedMorsels.get (a i) = g₀ := fun i => sharedMorsels.get_put g₀ (calls i)
  have hsame : ∀ g i, sharedMorsels.put g (calls i) = sharedMorsels.put g (a i) :=
    fun g i => (sharedMorsels.put_put g g₀ (calls i)).symm
  choose c es hret hdone hglobal hrows hnone using fun i =>
    (hcalls i).returns (threadEnv env ranges i) hgen (hn.evaluates hpath hj) g₀
  -- a call has no other effects on its way than in the end
  have hwrites : ∀ i, F.NeverWrites i (a i) := by
    intro i d es₁ hr hd e he
    obtain ⟨es₂,hes₂⟩ := F.exists_effects (a := fun _ => d) (i := i) (Returns.after hr (hret i)).1
    have hall : es i = es₁ ++ es₂ := by
      apply emit_injective (g := g₀)
      rw [← hglobal i,List.foldl_append]
      rw [ha] at hd
      exact hes₂.trans (congrArg (List.foldl Global.emit · es₂) hd)
    rintro ⟨jid,u,rfl⟩
    exact hnone i _ (hall ▸ List.mem_append_left _ he) jid u rfl
  have hsep : ∀ i j, i ≠ j → F.NeverReads i (a i) ∨ F.NeverWrites j (a j) :=
    fun _ j _ => .inr (hwrites j)
  constructor
  · choose n hn using fun i => (hret i).exists_counts
    have hstart : F.Follows a g₀ g₀ calls a (fun _ => []) [] :=
      ⟨fun _ => .refl,ha,hsame,rfl,by simp,fun i => .inr (by rw [ha]; rfl)⟩
    exact hstart.acc ha hsep _ n c rfl hn
  · intro g cs hruns hstuck
    obtain ⟨d,es',w,hf⟩ := Interleaving.Footprint.follows_of_runs (F := F) ha hsame hsep hruns
    have hend : ∀ i, d i = c i := fun i =>
      Returns.unique ⟨hf.reaches i,hf.halts (fun _ _ h => h.symm) hstuck i⟩ (hret i)
    have hes : ∀ i, es' i = es i := by
      intro i
      apply emit_injective (g := g₀)
      rw [← hglobal i,← hend i]
      exact (hf.get_eq i).symm
    refine ⟨fun i => ?_,?_⟩
    · rw [MorselCall.done_iff_of_setGlobal (hf.same g₀ i),hend i]
      exact hdone i
    · have hw := hf.perm.filterMap Event.row?
      rw [List.filterMap_flatMap] at hw
      have hmorsels : ((List.finRange t).flatMap fun i => (es' i).filterMap Event.row?).Perm
          ((List.finRange t).flatMap fun i => p.rows (threadEnv env ranges i) 1 []) :=
        List.Perm.flatMap_left _ fun i _ => hes i ▸ hrows i
      rw [Global.collected,Global.trace_of_foldl hf.shared,List.filterMap_append]
      exact (hw.trans (hmorsels.trans (hn.rows_perm hpath hj hpart 1))).append_left _

def personsKnow : Plan :=
  .scan "Person" false (.foreachRship .FROM (0,0) "knows" (.collect false))

def personsKnowEnv : Env := pairEnv fun opId => if opId = 1 then "Person" else "knows"

theorem morsels_collectRows_knows : ∃ (fn : Body) (entry : Label),
    generateStart pairDb (fun _ => none) personsKnow = some (fn,entry) ∧
      ∀ (g : Global) (cs : Fin 2 → MorselCall),
        Relation.ReflTransGen (MorselStep fn personsKnowEnv ![(0,0),(1,1)])
          (⟨fun _ => [],[]⟩,![.interpreted [[.node 0,.rship 0]] ⟨fun _ => [],[]⟩,
            .compiled (.at entry State.fresh)]) (g,cs) →
        (∀ s, ¬ MorselStep fn personsKnowEnv ![(0,0),(1,1)] (g,cs) s) →
          g.collected.Perm [[.node 0,.rship 0]] := by
  have hpath : personsKnow.AccessPath := ⟨rfl,rfl,rfl⟩
  have hn : personsKnow.Nested true := ⟨rfl,.foreachRship rfl .collect,rfl⟩
  have hpart : Partitions personsKnowEnv ![(0,0),(1,1)] := by decide
  obtain ⟨fn,entry,hgen⟩ : ∃ fn entry, generateStart pairDb (fun _ => none) personsKnow =
      some (fn,entry) := generateStart_isSome personsKnowEnv hpath hn
  refine ⟨fn,entry,hgen,fun g cs hruns hstuck => ?_⟩
  refine ((morsels_collectRows personsKnowEnv (fun _ => none) personsKnow hpath hn trivial 2
    ![(0,0),(1,1)] hpart fn entry hgen _ ?_ _).2 g cs hruns hstuck).2
  intro i
  fin_cases i
  · exact .of_eq (by decide)
  · exact ⟨State.fresh,rfl,State.idle_fresh⟩

end GraphQueryCompiler
