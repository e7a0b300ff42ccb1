import GraphQueryCompiler.LimitPipelines

/-!
# The rows of a pipeline with limits

A pipeline of single-hop traversals, expansions, comparisons and limits hands on lists. What its
start function collects is the run of these stages with one count for all limits, hence the rows
of the stages one after the other only if the limits agree with it.
-/

namespace GraphQueryCompiler
open StepMachine LinkedChain
open LimitedStream (Stage rows arrivals stops shared through FirstAlone NoneFull)

variable {env : Env} {pipe k opId : ℕ} {j : JoinCtx} {p inp : Plan} {ts : List ℕ} {t : List QrVal}
  {bound : ℕ → ℕ} {hist : List ℕ} {es es' : List TupleEvent} {sh sh₁ sh' : Shared} {ex : Exit}

/-- What is behind a scan: single-hop traversals from a node, expansions of a relationship,
comparisons with an integer, limits, and a `Collect`. The list has the types of the registers in
front of it. -/
inductive Plan.Pipeline : List ℕ → Plan → Prop
  | foreachRship {ts : List ℕ} {dir : RshipDir} {label : String} {inp : Plan} :
      ts.getLast? = some 0 → Pipeline (ts ++ [1]) inp →
      Pipeline ts (.foreachRship dir (0,0) label inp)
  | expand {ts : List ℕ} {exp : ExpandDir} {label : String} {inp : Plan} :
      ts.getLast? = some 1 → Pipeline (ts ++ [0]) inp → Pipeline ts (.expand exp label inp)
  | filter {ts : List ℕ} {i : ℕ} {key : String} {c : ℤ} {inp : Plan} :
      ts[i]? = some 0 → Pipeline ts inp → Pipeline ts (.filter (.eq (.key i key) (.num c)) inp)
  | limit {ts : List ℕ} {n : ℤ} {inp : Plan} : Pipeline ts inp → Pipeline ts (.limit n inp)
  | collect {ts : List ℕ} {print : Bool} : Pipeline ts (.collect print)

def Plan.stages (env : Env) : Plan → ℕ → ℕ → List (Stage ℕ (List QrVal))
  | .foreachRship dir _ _ inp, k, opId =>
    .each (env.traversed dir opId) :: inp.stages env (k+1) (opId+1)
  | .expand exp label inp, k, opId =>
    .each (env.expanded exp label opId) :: inp.stages env (k+1) (opId+1)
  | .filter (.eq (.key i key) (.num _)) inp, k, opId =>
    .each (env.filtered i key opId) :: inp.stages env (k+1) (opId+1)
  | .limit _ inp, k, opId => .limit k :: inp.stages env (k+1) (opId+1)
  | _, _, _ => []

structure Shared.Handles (bound : ℕ → ℕ) (hist : List ℕ) (es : List TupleEvent) (sh : Shared)
    (ex : Exit) (sh' : Shared) : Prop where
  exit : ex = if stops (shared bound) hist es then .limit else .backflow
  trace : sh'.trace = sh.trace ++
    (rows (LimitedStream.run (shared bound) hist es)).map .collect
  rhsInput : sh'.rhsInput = sh.rhsInput
  counter : stops (shared bound) hist es = false →
    sh'.cell .resCounter = .word (hist ++ arrivals es).length

namespace Shared.Handles

theorem nil (h : sh.cell .resCounter = .word hist.length) :
    sh.Handles bound hist [] .backflow sh :=
  ⟨rfl,by simp [LimitedStream.run],rfl,fun _ => by simpa using h⟩

theorem goes_on (h : sh.Handles bound hist es .backflow sh₁) :
    stops (shared bound) hist es = false := by
  have hexit := h.exit
  split_ifs at hexit with hstops
  simpa using hstops

theorem append (h : sh.Handles bound hist es .backflow sh₁)
    (h' : sh₁.Handles bound (hist ++ arrivals es) es' ex sh') :
    sh.Handles bound hist (es ++ es') ex sh' := by
  obtain ⟨hrun,hstops'⟩ := LimitedStream.run_append es' h.goes_on
  refine ⟨by rw [hstops']; exact h'.exit,?_,h'.rhsInput.trans h.rhsInput,fun hno => ?_⟩
  · rw [h'.trace,h.trace,hrun,LimitedStream.rows_append,List.map_append,List.append_assoc]
  · rw [LimitedStream.arrivals_append,← List.append_assoc]
    exact h'.counter (hstops' ▸ hno)

theorem append_limit (h : sh.Handles bound hist es .limit sh₁) :
    sh.Handles bound hist (es ++ es') .limit sh₁ := by
  have hstops : stops (shared bound) hist es = true := by
    have hexit := h.exit
    split_ifs at hexit with hstops
    exact hstops
  obtain ⟨hrun,hstops'⟩ := LimitedStream.run_append_of_stops es' hstops
  refine ⟨by rw [hstops']; rfl,by rw [h.trace,hrun],h.rhsInput,fun hno => ?_⟩
  rw [hstops'] at hno
  cases hno

end Shared.Handles

def Point.Delivers (env : Env) (pipe : ℕ) (bound : ℕ → ℕ) (pt : Point) (es : List TupleEvent) :
    Prop :=
  ∀ hist sh, sh.cell .resCounter = .word hist.length →
    ∃ ex sh', Exec env pipe pt sh ex sh' ∧ sh.Handles bound hist es ex sh'

theorem rships_delivers {dir : RshipDir} {code i : ℕ} {l : List ℕ} {t : Tuple}
    {f : ℕ → List TupleEvent}
    (hchain : IsChain (fun r => (env.db.rshipById r).nextRship dir) unknownId IsId i l)
    (hbody : ∀ r, (Point.run p opId j (t ++ [(.rship r,1)])).Delivers env pipe bound (f r)) :
    (Point.rships dir code i p opId j t).Delivers env pipe bound
      ((l.filter fun r => (env.db.rshipById r).rshipLabel = code).flatMap f) := by
  induction hchain with
  | nil => exact fun hist sh h => ⟨_,_,.rshipsDone,.nil h⟩
  | @cons r l hr _ ih =>
    intro hist sh h
    by_cases hcode : (env.db.rshipById r).rshipLabel = code
    · rw [List.filter_cons_of_pos (by simpa using hcode),List.flatMap_cons]
      obtain ⟨ex,sh₁,hrun,h₁⟩ := hbody r hist sh h
      cases ex with
      | limit => exact ⟨_,_,.rshipsExit hr hcode hrun,h₁.append_limit⟩
      | backflow =>
        obtain ⟨ex,sh₂,hrest,h₂⟩ := ih _ sh₁ (h₁.counter h₁.goes_on)
        exact ⟨_,_,.rshipsHit hr hcode hrun hrest,h₁.append h₂⟩
    · rw [List.filter_cons_of_neg (by simpa using hcode)]
      obtain ⟨ex,sh₁,hrest,h₁⟩ := ih hist sh h
      exact ⟨_,_,.rshipsSkip hr hcode hrest,h₁⟩

theorem Typed.flagOk (ht : Typed ts t) (hts : ∀ type ∈ ts, type ≤ 1) : FlagOk p .result sh t :=
  fun d hd => absurd hd (ht.no_flag hts d)

theorem forall_mem_snoc {x : ℕ} (hts : ∀ type ∈ ts, type ≤ 1) (hx : x ≤ 1) :
    ∀ type ∈ ts ++ [x], type ≤ 1 :=
  List.forall_mem_append.2 ⟨hts,List.forall_mem_singleton.2 hx⟩

theorem Plan.Pipeline.delivers (hp : Pipeline ts p) : ∀ {k : ℕ} (opId : ℕ) {t : List QrVal},
    (∀ type ∈ ts, type ≤ 1) → Typed ts t →
    (∀ i n, p.boundAt i = some n → CodegenInlineVisitor.limitConst n = bound (k+i)) →
      (Point.run p opId j (t.map (QrVal.toReg pipe))).Delivers env pipe bound
        (LimitedStream.events (p.stages env k opId) t) := by
  have hinput : ∀ {p inp : Plan} {k : ℕ}, p.input = some inp →
      (∀ i n, p.boundAt i = some n → CodegenInlineVisitor.limitConst n = bound (k+i)) →
        ∀ i n, inp.boundAt i = some n → CodegenInlineVisitor.limitConst n = bound (k+1+i) := by
    intro p inp k hin hb i n hn
    rw [← boundAt_succ hin] at hn
    rw [hb _ n hn,Nat.add_assoc,Nat.add_comm 1 i]
  induction hp with
  | @foreachRship ts dir label inp hlast _ ih =>
    intro k opId t hts ht hb hist sh h
    obtain ⟨n,hn⟩ := ht.lastNode hlast
    have hlast' : (t.map (QrVal.toReg pipe)).getLast? = some (.node n,0) :=
      getLast?_toReg pipe hn
    obtain ⟨ex,sh',hrun,hsh'⟩ := rships_delivers (t := t.map (QrVal.toReg pipe))
      (f := fun r => LimitedStream.events (inp.stages env (k+1) (opId+1)) (t ++ [.rship r]))
      (env.db.rships_chain dir n) (fun r => by
        have hr := ih (opId+1) (forall_mem_snoc hts (le_refl 1)) (ht.snoc (.rship r))
          (hinput rfl hb)
        rwa [List.map_append] at hr) hist sh h
    refine ⟨ex,sh',.foreachRship hlast' hrun,?_⟩
    simpa only [stages,LimitedStream.events,Env.traversed,hn,List.flatMap_map] using hsh'
  | @expand ts exp label inp hlast _ ih =>
    intro k opId t hts ht hb hist sh h
    obtain ⟨r,hr⟩ := ht.lastRship hlast
    have hlast' : (t.map (QrVal.toReg pipe)).getLast? = some (.rship r,1) :=
      getLast?_toReg pipe hr
    let n := (env.db.rshipById r).endpoint exp
    by_cases hlabel : label ≠ "" → (env.db.nodeById n).nodeLabel = env.db.argLabel env.args opId
    · have hstep := ih (opId+1) (forall_mem_snoc hts (Nat.zero_le 1)) (ht.snoc (.node n))
        (hinput rfl hb)
      rw [List.map_append] at hstep
      obtain ⟨ex,sh',hrun,hsh'⟩ := hstep hist sh h
      refine ⟨ex,sh',.expand hlast' hlabel hrun,?_⟩
      have hexpanded : env.expanded exp label opId t = [t ++ [.node n]] := by
        simp only [Env.expanded,hr]
        exact if_pos hlabel
      rwa [stages,LimitedStream.events,hexpanded,List.flatMap_singleton]
    · have hexpanded : env.expanded exp label opId t = [] := by
        simp only [Env.expanded,hr]
        exact if_neg hlabel
      rw [Classical.not_imp] at hlabel
      refine ⟨_,_,.expandFalse hlast' hlabel.1 hlabel.2,?_⟩
      rw [stages,LimitedStream.events,hexpanded,List.flatMap_nil]
      exact .nil h
  | @filter ts i key c inp hi _ ih =>
    intro k opId t hts ht hb hist sh h
    obtain ⟨n,hn⟩ := ht.node hi
    have hn' : (t.map (QrVal.toReg pipe))[i]? = some (.node n,0) :=
      getElem?_toReg pipe hn
    by_cases heq : (env.db.findProperty n (env.db.getCode key)).map PItem.value =
        some (env.args.word opId)
    · obtain ⟨ex,sh',hrun,hsh'⟩ := ih (opId+1) hts ht (hinput rfl hb) hist sh h
      refine ⟨ex,sh',.filter hn' heq hrun,?_⟩
      have hfiltered : env.filtered i key opId t = [t] := by
        simp only [Env.filtered,hn]
        exact if_pos heq
      rwa [stages,LimitedStream.events,hfiltered,List.flatMap_singleton]
    · refine ⟨_,_,.filterFalse hn' heq,?_⟩
      have hfiltered : env.filtered i key opId t = [] := by
        simp only [Env.filtered,hn]
        exact if_neg heq
      rw [stages,LimitedStream.events,hfiltered,List.flatMap_nil]
      exact .nil h
  | @limit ts n inp _ ih =>
    intro k opId t hts ht hb hist sh h
    have hn : CodegenInlineVisitor.limitConst n = bound k := hb 0 n rfl
    rw [stages,LimitedStream.events]
    by_cases hfull : shared bound hist k
    · refine ⟨_,_,.limitReached (by rw [h,hn]; exact congrArg Val.word hfull),?_⟩
      refine ⟨by simp [stops,hfull],by simp [LimitedStream.run,hfull],rfl,fun hno => ?_⟩
      simp [stops,hfull] at hno
    · obtain ⟨ex,sh',hrun,hsh'⟩ := ih (opId+1) hts ht (hinput rfl hb) (hist ++ [k])
        (sh.set .resCounter (.word (hist.length+1))) (by simp [Shared.set])
      refine ⟨ex,sh',.limit h (by rw [hn]; exact hfull) hrun,?_⟩
      obtain ⟨hexit,htrace,hinp,hcounter⟩ := hsh'
      refine ⟨?_,?_,hinp,?_⟩
      · rw [hexit,stops,if_neg hfull]
      · rw [htrace,LimitedStream.run,if_neg hfull,LimitedStream.rows_arrive]
        rfl
      · rw [stops,if_neg hfull,LimitedStream.arrivals_arrive]
        simpa using hcounter
  | collect =>
    intro k opId t hts ht _ hist sh h
    refine ⟨_,_,.collect (row_toReg (p := p) ht (ht.flagOk hts)),?_⟩
    exact ⟨rfl,rfl,rfl,fun _ => by simpa [stages,LimitedStream.events,Shared.collect] using h⟩

theorem scan_delivers {code : ℕ} {ns : List ℕ} {f : ℕ → List TupleEvent}
    (hbody : ∀ n, (Point.run p opId j [(.node n,0)]).Delivers env pipe bound (f n)) :
    ∀ hist sh, sh.cell .resCounter = .word hist.length →
      ∃ ex sh', ScanExec env pipe code p opId j ns sh sh' ∧ sh.Handles bound hist
        ((ns.filter fun n => (env.db.nodeById n).nodeLabel = code).flatMap f) ex sh' := by
  induction ns with
  | nil => exact fun hist sh h => ⟨_,_,.nil,.nil h⟩
  | cons n ns ih =>
    intro hist sh h
    by_cases hcode : (env.db.nodeById n).nodeLabel = code
    · rw [List.filter_cons_of_pos (by simpa using hcode),List.flatMap_cons]
      obtain ⟨ex,sh₁,hrun,h₁⟩ := hbody n hist sh h
      cases ex with
      | limit => exact ⟨_,_,.exit hcode hrun,h₁.append_limit⟩
      | backflow =>
        obtain ⟨ex,sh₂,hrest,h₂⟩ := ih _ sh₁ (h₁.counter h₁.goes_on)
        exact ⟨_,_,.hit hcode hrun hrest,h₁.append h₂⟩
    · rw [List.filter_cons_of_neg (by simpa using hcode)]
      obtain ⟨ex,sh₁,hrest,h₁⟩ := ih hist sh h
      exact ⟨_,_,.skip hcode hrest,h₁⟩

namespace Plan.Pipeline

theorem planExec {g : Global} (hp : Pipeline ts p) :
    ∀ {k opId : ℕ}, PlanExec env p k opId j g g [] := by
  induction hp with
  | collect => exact ⟨rfl,rfl⟩
  | foreachRship _ _ ih => exact ih
  | expand _ _ ih => exact ih
  | filter _ _ ih => exact ih
  | limit _ ih => exact ih

theorem limits_stages (hp : Pipeline ts p) : ∀ (k opId : ℕ),
    (∀ i ∈ LimitedStream.limits (p.stages env k opId), k ≤ i) ∧
      (LimitedStream.limits (p.stages env k opId)).Nodup := by
  have hlt : ∀ {k : ℕ} {is : List ℕ}, (∀ i ∈ is, k+1 ≤ i) → ∀ i ∈ is, k ≤ i :=
    fun h i hi => Nat.le_of_succ_le (h i hi)
  induction hp with
  | collect => exact fun _ _ => ⟨by simp [stages,LimitedStream.limits],List.nodup_nil⟩
  | foreachRship _ _ ih | expand _ _ ih | filter _ _ ih =>
    intro k opId
    exact ⟨hlt (ih (k+1) (opId+1)).1,(ih (k+1) (opId+1)).2⟩
  | limit _ ih =>
    intro k opId
    obtain ⟨hle,hnodup⟩ := ih (k+1) (opId+1)
    refine ⟨List.forall_mem_cons.2 ⟨le_rfl,hlt hle⟩,List.nodup_cons.2 ⟨fun hk => ?_,hnodup⟩⟩
    exact Nat.not_succ_le_self k (hle k hk)

end Plan.Pipeline

def Plan.scanEvents (env : Env) (p : Plan) : List TupleEvent :=
  ((env.db.range env.first env.last).filter fun n =>
    (env.db.nodeById n).nodeLabel = env.db.argLabel env.args 1).flatMap fun n =>
      LimitedStream.events (p.stages env 1 2) [.node n]

/-- The start function collects what comes of the nodes up to an arrival at a limit whose bound is
the number of all arrivals before it. -/
theorem generateStart_limitedRows {er : ℕ → Option Expr} {fn : Body} {entry : Label}
    {label : String} {σ : State} (hp : inp.Pipeline [0])
    (hpath : (Plan.scan label false inp).AccessPath) (hl : ∀ n ∈ inp.limits, 0 ≤ n ∧ n < 2^31)
    (hgen : generateStart env.db er (.scan label false inp) = some (fn,entry)) (hσ : σ.Idle) :
    ∃ σ', Returns (fn.step env) (.at entry σ) (.returned σ') ∧ σ'.trace = σ.trace ++
      (rows (LimitedStream.run (shared (Plan.scan label false inp).bound) []
        (inp.scanEvents env))).map .collect ++ [.finish] := by
  set p : Plan := .scan label false inp with hp'
  have hbound : ∀ i n, inp.boundAt i = some n →
      CodegenInlineVisitor.limitConst n = p.bound (1+i) := by
    intro i n hn
    obtain ⟨hzero,hlt⟩ := hl n (Plan.mem_limits_of_boundAt hn)
    have hat : p.bound (1+i) = n.toNat := by
      rw [Plan.bound,Nat.add_comm,hp',Plan.boundAt_succ rfl,hn,Option.getD_some]
    rw [hat,← limitConst_natCast (n := n.toNat) (by omega),Int.toNat_of_nonneg hzero]
  have hscan : ∀ pipe (cell : CellName → Val), cell .resCounter = .word 0 → ∃ cell',
      ScanExec env pipe (env.db.argLabel env.args 1) inp (1+1) ⟨0,[]⟩
        (env.db.range env.first env.last) ⟨cell,σ.rhsInput,σ.trace⟩ ⟨cell',σ.rhsInput,σ.trace ++
          (rows (LimitedStream.run (shared p.bound) [] (inp.scanEvents env))).map .collect⟩ := by
    intro pipe cell hcell
    have hbody : ∀ n, (Point.run inp 2 ⟨0,[]⟩ [(.node n,0)]).Delivers env pipe p.bound
        (LimitedStream.events (inp.stages env 1 2) [.node n]) := fun n =>
      hp.delivers 2 (List.forall_mem_singleton.2 (Nat.zero_le 1)) (typed_node n) hbound
    obtain ⟨ex,⟨cell',rhs,trace⟩,hrun,hsh⟩ := scan_delivers hbody [] ⟨cell,σ.rhsInput,σ.trace⟩ hcell
    obtain rfl : rhs = σ.rhsInput := hsh.rhsInput
    obtain rfl := hsh.trace
    exact ⟨cell',hrun⟩
  have hexec : PlanExec env p 0 1 ⟨0,[]⟩ ⟨σ.rhsInput,σ.trace⟩ ⟨σ.rhsInput,σ.trace ++ (rows
      (LimitedStream.run (shared p.bound) [] (inp.scanEvents env))).map .collect⟩
      [(0,⟨σ.rhsInput,σ.trace⟩)] :=
    ⟨rfl,_,_,hp.planExec,rfl,hscan⟩
  obtain ⟨σ',hret,_,htrace,_⟩ := generateStart_returns hpath hgen hexec hσ
  exact ⟨σ',hret,htrace⟩

/-- Where one count is enough, these are the rows that the stages hand on, each limit the first of
the list in front of it. -/
theorem generateStart_limitedRows_through {er : ℕ → Option Expr} {fn : Body} {entry : Label}
    {label : String} {σ : State} (hp : inp.Pipeline [0])
    (hpath : (Plan.scan label false inp).AccessPath) (hl : ∀ n ∈ inp.limits, 0 ≤ n ∧ n < 2^31)
    (hgen : generateStart env.db er (.scan label false inp) = some (fn,entry)) (hσ : σ.Idle)
    (hone : FirstAlone (Plan.scan label false inp).bound (arrivals (inp.scanEvents env)) ∨
      NoneFull (Plan.scan label false inp).bound (arrivals (inp.scanEvents env))) :
    ∃ σ', Returns (fn.step env) (.at entry σ) (.returned σ') ∧ σ'.trace = σ.trace ++
      (through (Plan.scan label false inp).bound (inp.stages env 1 2)
        (((env.db.range env.first env.last).filter fun n =>
          (env.db.nodeById n).nodeLabel = env.db.argLabel env.args 1).map
            fun n => [.node n])).map .collect ++ [.finish] := by
  obtain ⟨σ',hret,htrace⟩ := generateStart_limitedRows hp hpath hl hgen hσ
  have hnodup : (LimitedStream.limits (inp.stages env 1 2)).Nodup := (hp.limits_stages 1 2).2
  have hmem : ∀ k ∈ arrivals (inp.scanEvents env),
      k ∈ LimitedStream.limits (inp.stages env 1 2) := by
    intro k hk
    simp only [Plan.scanEvents,LimitedStream.arrivals,List.mem_filterMap,List.mem_flatMap] at hk
    obtain ⟨e,⟨n,_,he⟩,hk⟩ := hk
    exact LimitedStream.mem_limits_of_arrivals (List.mem_filterMap.2 ⟨e,he,hk⟩)
  refine ⟨σ',hret,?_⟩
  rw [htrace,(LimitedStream.agree_iff.2 hone).run_eq,
    ← LimitedStream.rows_read hnodup hmem (by simp),
    ← LimitedStream.rows_read_events hnodup,List.flatMap_map]
  simp [Plan.scanEvents]

end GraphQueryCompiler
