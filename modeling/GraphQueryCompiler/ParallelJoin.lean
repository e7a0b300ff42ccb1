import GraphQueryCompiler.JoinReads
import GraphQueryCompiler.QueryEngine
import GraphQueryCompiler.Lib.Interleaving

/-!
# A cross join in several threads

`run_parallel` starts a thread for each range of chunks, and all of them materialise into one
list. A thread joins its own tuples with what the list has at that moment, so it misses whatever
another thread has not materialised yet.
-/

namespace GraphQueryCompiler
open StepMachine

variable {t : ℕ} {env : Env} {fn : Body} {entry : Label} {p : Plan} {er : ℕ → Option Expr}
  {ranges : Fin t → ℕ × ℕ} {g g' : Global} {cs : Fin t → Config}

def sharedGlobal : Interleaving.Shared Config Global where
  get := Config.global
  put := Config.setGlobal
  get_put g c := by cases c <;> rfl
  put_get c := by cases c <;> rfl
  put_put g g' c := by cases c <;> rfl

def threadEnv (env : Env) (ranges : Fin t → ℕ × ℕ) (i : Fin t) : Env :=
  { env with first := (ranges i).1, last := (ranges i).2 }

/-- The threads take the blocks of the start function in any order. A block has at most one call
of `materialize_rhs`, `get_mat_res_size`, `get_join_tp_at` or `collect_tuple`. -/
abbrev ThreadRuns (fn : Body) (env : Env) (ranges : Fin t → ℕ × ℕ) :
    Global × (Fin t → Config) → Global × (Fin t → Config) → Prop :=
  Interleaving.Runs (fun i => fn.step (threadEnv env ranges i)) sharedGlobal

def Event.row? : Event → Option (List QrVal)
  | .collect t => some t
  | _ => none

def Global.collected (g : Global) : List (List QrVal) := g.trace.filterMap Event.row?

def Partitions (env : Env) (ranges : Fin t → ℕ × ℕ) : Prop :=
  ((List.finRange t).flatMap fun i => env.db.range (ranges i).1 (ranges i).2).Perm
    (env.db.range 0 env.db.numChunks)

instance : Decidable (Partitions env ranges) := inferInstanceAs (Decidable (List.Perm _ _))

/-- Whatever the order of the steps, all tuples are joined with all tuples. -/
def CollectsProduct (fn : Body) (entry : Label) (env : Env) (p : Plan)
    (ranges : Fin t → ℕ × ℕ) : Prop :=
  ∀ (σ : Fin t → State) (g₀ g : Global) (cs : Fin t → Config), (∀ i, (σ i).Idle) →
    g₀.rhsInput 0 = [] → ThreadRuns fn env ranges (g₀,fun i => .at entry (σ i)) (g,cs) →
      (∀ i, ∃ σ', cs i = .returned σ') → g.collected.Perm
        (g₀.collected ++ joined (p.lhsRows env.whole 1 []) (p.rhsRows env.whole 1))

theorem exists_reads (is : List Instr) : ∃ q, ∀ i ∈ is, i.Reads q := by
  induction is with
  | nil => exact ⟨0,List.forall_mem_nil _⟩
  | cons i is ih =>
    obtain ⟨q,hq⟩ := ih
    obtain ⟨q',hq'⟩ : ∃ q', i.Reads q' := by
      cases i with
      | getMatResSize _ jid | getJoinTpAt _ jid => exact ⟨jid+1,Nat.lt_succ_self jid⟩
      | _ => exact ⟨0,trivial⟩
    exact ⟨max q q',List.forall_mem_cons.2 ⟨hq'.mono (le_max_right _ _),
      fun i hi => (hq i hi).mono (le_max_left _ _)⟩⟩

def startFootprint (fn : Body) (env : Fin t → Env) :
    Interleaving.Footprint (fun i => fn.step (env i)) sharedGlobal Event where
  act := Global.emit
  Reads := Reading fn
  reads_put {g c} h := by
    cases c with
    | «at» => exact h
    | returned => exact h
  Writes e := ∃ jid t, e = .materialize jid t
  Agree g g' := g.rhsInput = g'.rhsInput
  agree_refl _ := rfl
  agree_act e h := by cases e <;> simp [Global.emit,h]
  agree_silent e he h := by
    cases e with
    | materialize jid t => exact absurd ⟨jid,t,rfl⟩ he
    | _ => exact h
  exec {i c c'} h := by
    obtain ⟨es,hglobal,hframe⟩ := step_emits h
    refine ⟨es,hglobal,fun g hg => ?_⟩
    by_cases hreads : Reading fn c
    · cases c with
      | returned => exact hreads.elim
      | «at» l σ =>
        obtain ⟨q,hq⟩ := exists_reads (fn l)
        refine hframe q g ?_ fun i _ => congrFun (hg hreads) i
        rintro _ _ ⟨⟩
        exact hq
    · refine hframe 0 g ?_ fun i hi => absurd hi (Nat.not_lt_zero i)
      rintro l σ rfl i hi
      by_contra hnot
      exact hreads ⟨i,hi,hnot⟩

namespace Plan

variable {ts : List ℕ}

theorem Chain.rows_range (hc : Chain ts p) (hj : p.JoinFree) (first last : ℕ) :
    ∀ {opId : ℕ} {t : List QrVal},
      p.rows { env with first := first, last := last } opId t = p.rows env opId t := by
  induction hc with
  | foreachRship _ _ ih | expand _ _ ih | filter _ _ ih =>
    intro opId t
    simp only [rows,ih hj]
    rfl
  | join => exact absurd hj id
  | collect | endOp => intros; rfl

theorem Chain.lhsRows_range (hc : Chain ts p) (first last : ℕ) :
    ∀ {opId : ℕ} {t : List QrVal},
      p.lhsRows { env with first := first, last := last } opId t = p.lhsRows env opId t := by
  induction hc with
  | foreachRship _ _ ih | expand _ _ ih | filter _ _ ih =>
    intro opId t
    simp only [lhsRows,ih]
    rfl
  | join | collect | endOp => intros; rfl

def scanRows (env : Env) (opId : ℕ) (f : ℕ → List (List QrVal)) (ns : List ℕ) :
    List (List QrVal) :=
  (ns.filter fun n =>
    (env.db.nodeById n).nodeLabel = env.db.argLabel env.args opId).flatMap f

theorem scanRows_perm {opId : ℕ} {f : ℕ → List (List QrVal)} (hpart : Partitions env ranges) :
    ((List.finRange t).flatMap fun i =>
      scanRows env opId f (env.db.range (ranges i).1 (ranges i).2)).Perm
      (scanRows env opId f (env.db.range 0 env.db.numChunks)) := by
  have hrows : ((List.finRange t).flatMap fun i =>
      scanRows env opId f (env.db.range (ranges i).1 (ranges i).2)) = scanRows env opId f
        ((List.finRange t).flatMap fun i => env.db.range (ranges i).1 (ranges i).2) := by
    simp only [scanRows,List.filter_flatMap,List.flatMap_assoc]
  rw [hrows]
  exact (hpart.filter _).flatMap_right f

theorem Nested.lhsRows_perm (hn : p.Nested true) (hpath : p.AccessPath)
    (hpart : Partitions env ranges) :
    ((List.finRange t).flatMap fun i => p.lhsRows (threadEnv env ranges i) 1 []).Perm
      (p.lhsRows env.whole 1 []) := by
  cases p with
  | scan label indexed inp =>
    have hrows : ∀ first last, (Plan.scan label indexed inp).lhsRows
        { env with first := first, last := last } 1 [] =
          scanRows env 1 (fun n => inp.lhsRows env 2 [.node n]) (env.db.range first last) := by
      intro first last
      simp only [lhsRows,scanRows,hn.2.1.lhsRows_range]
    rw [Env.whole,hrows]
    simp only [threadEnv,hrows]
    exact scanRows_perm hpart
  | create => exact absurd hpath id
  | collect | endOp => exact absurd hpath (by simp [Shaped])
  | _ => exact absurd hpath.1 (by simp)

theorem Nested.rows_perm {main : Bool} (hn : p.Nested main) (hpath : p.AccessPath) (hj : p.JoinFree)
    (hpart : Partitions env ranges) (opId : ℕ) :
    ((List.finRange t).flatMap fun i => p.rows (threadEnv env ranges i) opId []).Perm
      (p.rows env.whole opId []) := by
  cases p with
  | scan label indexed inp =>
    have hrows : ∀ first last, (Plan.scan label indexed inp).rows
        { env with first := first, last := last } opId [] =
          scanRows env opId (fun n => inp.rows env (opId+1) [.node n])
            (env.db.range first last) := by
      intro first last
      simp only [rows,scanRows,hn.2.1.rows_range hj]
    rw [Env.whole,hrows]
    simp only [threadEnv,hrows]
    exact scanRows_perm hpart
  | create => exact absurd hpath id
  | collect | endOp => exact absurd hpath (by simp [Shaped])
  | _ => exact absurd hpath.1 (by simp)

theorem CrossJoin.exists_rhs (p : Plan) (hp : p.CrossJoin) (hn : p.Nested true)
    {main : Bool} (hs : p.Shaped main) (opId : ℕ) : ∃ (rhs : Plan) (opId' : ℕ),
    rhs.AccessPath ∧ rhs.Nested false ∧ rhs.JoinFree ∧
      ∀ env : Env, p.rhsRows env opId = rhs.rows env opId' [] := by
  induction p generalizing opId main with
  | scan _ _ inp ih => exact ih hp hn.2.2 hs.2 (opId+1)
  | foreachRship _ _ _ inp ih | expand _ _ inp ih | filter _ inp ih => exact ih hp hn hs.2 (opId+1)
  | join jop pos lhs rhs _ _ =>
    cases jop with
    | CROSS =>
      cases lhs with
      | collect print => exact ⟨rhs,_,hs.2.2,hn.2.2,hp,fun _ => rfl⟩
      | _ => exact absurd hp id
    | _ => exact absurd hp id
  | _ => exact absurd hp id

theorem CrossJoin.rhsRows_perm (hp : p.CrossJoin) (hn : p.Nested true) (hpath : p.AccessPath)
    (hpart : Partitions env ranges) :
    ((List.finRange t).flatMap fun i => p.rhsRows (threadEnv env ranges i) 1).Perm
      (p.rhsRows env.whole 1) := by
  obtain ⟨rhs,opId,hr,hnr,hj,hrows⟩ := CrossJoin.exists_rhs p hp hn hpath 1
  simp only [hrows]
  exact hnr.rows_perm hr hj hpart opId

end Plan

theorem joined_perm {ls ls' rs rs' : List (List QrVal)} (hl : ls.Perm ls') (hr : rs.Perm rs') :
    (joined ls rs).Perm (joined ls' rs') :=
  (hl.flatMap_right _).trans (List.Perm.flatMap_left ls' fun _ _ => hr.map _)

theorem length_joined (ls rs : List (List QrVal)) :
    (joined ls rs).length = ls.length * rs.length := by
  simp [joined,List.length_flatMap]

theorem flatMap_eq_of_single {f : Fin t → List (List QrVal)} {i : Fin t} {is : List (Fin t)}
    (hi : i ∈ is) (hnodup : is.Nodup) (h : ∀ j, j ≠ i → f j = []) : is.flatMap f = f i := by
  induction is with
  | nil => cases hi
  | cons j is ih =>
    obtain ⟨hj,hnodup⟩ := List.nodup_cons.1 hnodup
    rw [List.flatMap_cons]
    rcases List.mem_cons.1 hi with rfl | hi
    · have hnil : is.flatMap f = [] :=
        List.flatMap_eq_nil_iff.2 fun k hk => h k fun hki => hj (hki ▸ hk)
      rw [hnil,List.append_nil]
    · rw [h j fun hji => hj (hji ▸ hi),List.nil_append]
      exact ih hi hnodup

theorem joined_flatMap {ls rs : Fin t → List (List QrVal)}
    (h : ∀ i j, i ≠ j → ls i = [] ∨ rs j = []) :
    joined ((List.finRange t).flatMap ls) ((List.finRange t).flatMap rs) =
      (List.finRange t).flatMap fun i => joined (ls i) (rs i) := by
  simp only [joined,List.flatMap_assoc]
  refine List.flatMap_congr fun i _ => ?_
  by_cases hi : ls i = []
  · rw [hi]
    rfl
  · rw [flatMap_eq_of_single (List.mem_finRange i) (List.nodup_finRange t) fun j hj =>
      (h i j (Ne.symm hj)).resolve_left hi]

section Threads
variable (ranges : Fin t → ℕ × ℕ) (hpath : p.AccessPath) (hn : p.Nested true)
  (hp : p.CrossJoin) (hgen : generateStart env.db er p = some (fn,entry))
include hpath hn hp hgen

theorem thread_returns (i : Fin t) {τ : State} (hτ : τ.Idle) (htyped : p.ListsTyped g.rhsInput 0) :
    ∃ σ', Returns (fn.step (threadEnv env ranges i)) (.at entry (τ.setGlobal g)) (.returned σ') ∧
      σ'.rhsInput 0 = g.rhsInput 0 ++ p.rhsRows (threadEnv env ranges i) 1 ∧
      σ'.trace = g.trace ++ ((p.rhsRows (threadEnv env ranges i) 1).map (.materialize 0) ++
        (joined (p.lhsRows (threadEnv env ranges i) 1 [])
          (g.rhsInput 0 ++ p.rhsRows (threadEnv env ranges i) 1)).map .collect ++ [.finish]) := by
  obtain ⟨fn',entry',hgen',hruns⟩ :=
    generateStart_crossJoin (threadEnv env ranges i) er p hpath hn hp
  obtain ⟨rfl,rfl⟩ : fn = fn' ∧ entry = entry' := by
    simpa using Option.some.inj (hgen.symm.trans hgen')
  obtain ⟨σ',hret,_,hlist,htrace⟩ := hruns (τ.setGlobal g) ⟨hτ.tp,hτ.matTuple⟩ htyped
  refine ⟨σ',hret,hlist,?_⟩
  rw [htrace]
  simp only [List.append_assoc]
  rfl

theorem thread_neverWrites {i : Fin t} {τ : State} (hτ : τ.Idle) (hempty : g.rhsInput 0 = [])
    (hrows : p.rhsRows (threadEnv env ranges i) 1 = []) :
    (startFootprint fn (threadEnv env ranges)).NeverWrites i (.at entry (τ.setGlobal g)) := by
  intro d es hr hd e he
  obtain ⟨ts,_,hiff⟩ := Plan.CrossJoin.exists_types p hp
  obtain ⟨σ',hret,_,htrace⟩ := thread_returns ranges hpath hn hp hgen i hτ
    ((hiff g.rhsInput).2 (by simp [hempty]))
  obtain ⟨es',hglobal,_⟩ := reaches_emits (Returns.after hr hret).1
  have hbefore : d.global.trace = g.trace ++ es := Global.trace_of_foldl hd
  have hafter : σ'.trace = d.global.trace ++ es' := Global.trace_of_foldl hglobal
  rw [htrace,hbefore,hrows,List.append_assoc g.trace es es'] at hafter
  have hsame := List.append_cancel_left hafter
  have hmem : e ∈ es ++ es' := List.mem_append_left _ he
  rw [← hsame] at hmem
  rintro ⟨jid,u,rfl⟩
  simp at hmem

theorem collectsProduct_of_apart (hpart : Partitions env ranges) (h : ∀ i j, i ≠ j →
      p.lhsRows (threadEnv env ranges i) 1 [] = [] ∨ p.rhsRows (threadEnv env ranges j) 1 = []) :
    CollectsProduct fn entry env p ranges := by
  intro σ g₀ g cs hσ hempty hruns hreturned
  have hsep : ∀ i j, i ≠ j →
      (startFootprint fn (threadEnv env ranges)).NeverReads i (.at entry ((σ i).setGlobal g₀)) ∨
        (startFootprint fn (threadEnv env ranges)).NeverWrites j
          (.at entry ((σ j).setGlobal g₀)) := by
    intro i j hij
    refine (h i j hij).imp (fun hl d hd => ?_) fun hr => ?_
    · exact Plan.CrossJoin.reads_nothing (threadEnv env ranges i)
        (σ := (σ i).setGlobal g₀) hpath hn hp hgen hl ⟨(hσ i).tp,(hσ i).matTuple⟩ hd
    · exact thread_neverWrites ranges hpath hn hp hgen (hσ j) hempty hr
  have hstart : ∀ i, sharedGlobal.get (.at entry ((σ i).setGlobal g₀)) = g₀ := fun _ => rfl
  have hsame : ∀ g i, sharedGlobal.put g (.at entry (σ i)) =
      sharedGlobal.put g (.at entry ((σ i).setGlobal g₀)) := fun _ _ => rfl
  obtain ⟨d,es,w,hf⟩ := Interleaving.Footprint.follows_of_runs
    (F := startFootprint fn (threadEnv env ranges)) hstart hsame hsep hruns
  obtain ⟨ts,_,hiff⟩ := Plan.CrossJoin.exists_types p hp
  have hes : ∀ i, (es i).filterMap Event.row? = joined (p.lhsRows (threadEnv env ranges i) 1 [])
      (p.rhsRows (threadEnv env ranges i) 1) := by
    intro i
    obtain ⟨σ',hret,_,htrace⟩ := thread_returns ranges hpath hn hp hgen i (hσ i)
      ((hiff g₀.rhsInput).2 (by simp [hempty]))
    obtain ⟨τ,hτ⟩ := hreturned i
    have hshape := hf.same g₀ i
    rw [hτ] at hshape
    obtain ⟨τ',hd⟩ : ∃ τ', d i = .returned τ' := by
      cases hdi : d i with
      | «at» => rw [hdi] at hshape; cases hshape
      | returned τ' => exact ⟨τ',rfl⟩
    have hdone := hf.reaches i
    rw [hd] at hdone
    obtain rfl : σ' = τ' := by simpa using Returns.unique hret ⟨hdone,rfl⟩
    have hevents := Global.trace_of_foldl (hf.get_eq i)
    rw [hd] at hevents
    rw [← List.append_cancel_left (htrace.symm.trans hevents),hempty]
    simp [List.filterMap_append,List.filterMap_map,Function.comp_def,Event.row?]
  have hcollected : g.collected = g₀.collected ++ w.filterMap Event.row? := by
    rw [Global.collected,Global.trace_of_foldl hf.shared,List.filterMap_append]
    rfl
  have hw := hf.perm.filterMap Event.row?
  rw [List.filterMap_flatMap,List.flatMap_congr fun i _ => hes i,← joined_flatMap h] at hw
  rw [hcollected]
  exact (hw.trans (joined_perm (hn.lhsRows_perm hpath hpart)
    (hp.rhsRows_perm hn hpath hpart))).append_left _

theorem exists_runs_thread (cs : Fin t → Config) {i : Fin t} {τ : State} (hcs : cs i = .at entry τ)
    (hτ : τ.Idle)
    (htyped : p.ListsTyped g.rhsInput 0) : ∃ g' σ',
    ThreadRuns fn env ranges (g,cs) (g',Function.update cs i (.returned σ')) ∧
      g'.rhsInput 0 = g.rhsInput 0 ++ p.rhsRows (threadEnv env ranges i) 1 ∧
      p.ListsTyped g'.rhsInput 0 ∧
      g'.collected = g.collected ++ joined (p.lhsRows (threadEnv env ranges i) 1 [])
        (g.rhsInput 0 ++ p.rhsRows (threadEnv env ranges i) 1) := by
  obtain ⟨σ',hret,hlist,htrace⟩ := thread_returns ranges hpath hn hp hgen i hτ htyped
  obtain ⟨c,hc⟩ := exists_step hret
  have hput : sharedGlobal.put g (cs i) = .at entry (τ.setGlobal g) := by
    rw [hcs]
    rfl
  rw [← hput] at hret hc
  have hruns : ThreadRuns fn env ranges (g,cs)
      (_,Function.update cs i (.returned σ')) :=
    Interleaving.Runs.of_returns hret (by rw [hc]; exact Option.some_ne_none _)
  refine ⟨_,σ',hruns,hlist,hn.listsTyped_crossJoin hpath hp hlist htyped,?_⟩
  change σ'.trace.filterMap Event.row? = _
  rw [htrace]
  simp [Global.collected,List.filterMap_append,List.filterMap_map,Function.comp_def,Event.row?]

/-- Threads that run one after another join at most every tuple with every tuple. -/
theorem exists_runs_threads {is : List (Fin t)} (hnodup : is.Nodup) : ∀ {g : Global}
    {cs : Fin t → Config}, (∀ i ∈ is, ∃ τ, State.Idle τ ∧ cs i = .at entry τ) →
      p.ListsTyped g.rhsInput 0 → ∃ g' cs', ThreadRuns fn env ranges (g,cs) (g',cs') ∧
        (∀ i ∈ is, ∃ σ', cs' i = .returned σ') ∧ (∀ i ∉ is, cs' i = cs i) ∧
        g'.collected.length ≤ g.collected.length +
          (is.map fun i => (p.lhsRows (threadEnv env ranges i) 1 []).length).sum *
            ((g.rhsInput 0).length +
              (is.map fun i => (p.rhsRows (threadEnv env ranges i) 1).length).sum) := by
  induction is with
  | nil => exact fun _ _ => ⟨_,_,.refl,nofun,fun _ _ => rfl,by simp⟩
  | cons i is ih =>
    intro g cs hcs htyped
    obtain ⟨hi,hnodup⟩ := List.nodup_cons.1 hnodup
    obtain ⟨⟨τ,hτ,hat⟩,hrest⟩ := List.forall_mem_cons.1 hcs
    obtain ⟨g₁,σ₁,hruns₁,hlist₁,htyped₁,hcollected₁⟩ :=
      exists_runs_thread ranges hpath hn hp hgen cs hat hτ htyped
    have hcs₁ : ∀ j ∈ is, ∃ τ, State.Idle τ ∧
        Function.update cs i (.returned σ₁) j = .at entry τ := by
      intro j hj
      rw [Function.update_of_ne fun hji : j = i => hi (hji ▸ hj)]
      exact hrest j hj
    obtain ⟨g',cs',hruns,hdone,hkept,hlen⟩ := ih hnodup hcs₁ htyped₁
    refine ⟨g',cs',hruns₁.trans hruns,List.forall_mem_cons.2 ⟨⟨σ₁,?_⟩,hdone⟩,fun j hj => ?_,?_⟩
    · rw [hkept i hi,Function.update_self]
    · obtain ⟨hji,hj⟩ := not_or.1 (mt List.mem_cons.2 hj)
      rw [hkept j hj,Function.update_of_ne hji]
    · rw [hcollected₁,hlist₁,List.length_append,length_joined,List.length_append] at hlen
      refine hlen.trans ?_
      rw [List.map_cons,List.sum_cons,List.map_cons,List.sum_cons,Nat.add_mul,Nat.add_assoc,
        Nat.add_assoc (g.rhsInput 0).length]
      exact Nat.add_le_add_left
        (Nat.add_le_add_right (Nat.mul_le_mul_left _ (by omega)) _) _

/-- A thread that ends before another begins misses the tuples of that one. -/
theorem exists_runs_missing {i j : Fin t} (hij : i ≠ j)
    (hl : p.lhsRows (threadEnv env ranges i) 1 [] ≠ [])
    (hr : p.rhsRows (threadEnv env ranges j) 1 ≠ []) {σ : Fin t → State} (hσ : ∀ i, (σ i).Idle)
    {g₀ : Global} (hempty : g₀.rhsInput 0 = []) : ∃ g cs,
    ThreadRuns fn env ranges (g₀,fun i => .at entry (σ i)) (g,cs) ∧
      (∀ i, ∃ σ', cs i = .returned σ') ∧ g.collected.length < g₀.collected.length +
        ((List.finRange t).map fun i => (p.lhsRows (threadEnv env ranges i) 1 []).length).sum *
          ((List.finRange t).map fun i => (p.rhsRows (threadEnv env ranges i) 1).length).sum := by
  obtain ⟨ts,_,hiff⟩ := Plan.CrossJoin.exists_types p hp
  obtain ⟨g₁,σ₁,hruns₁,hlist₁,htyped₁,hcollected₁⟩ := exists_runs_thread ranges hpath hn hp hgen
    (fun i => .at entry (σ i)) (i := i) rfl (hσ i) ((hiff g₀.rhsInput).2 (by simp [hempty]))
  have hnodup : ((List.finRange t).erase i).Nodup := (List.nodup_finRange t).erase i
  have hmem : ∀ k, k ≠ i → k ∈ (List.finRange t).erase i := fun k hk =>
    (List.mem_erase_of_ne hk).2 (List.mem_finRange k)
  have hne : ∀ k ∈ (List.finRange t).erase i, k ≠ i := fun k hk =>
    ((List.nodup_finRange t).mem_erase_iff.1 hk).1
  have hcs : ∀ k ∈ (List.finRange t).erase i, ∃ τ, State.Idle τ ∧
      Function.update (fun i => Config.at entry (σ i)) i (.returned σ₁) k = .at entry τ :=
    fun k hk => ⟨σ k,hσ k,by rw [Function.update_of_ne (hne k hk)]⟩
  obtain ⟨g,cs,hruns,hdone,hkept,hlen⟩ :=
    exists_runs_threads ranges hpath hn hp hgen hnodup hcs htyped₁
  refine ⟨g,cs,hruns₁.trans hruns,fun k => ?_,?_⟩
  · by_cases hk : k = i
    · subst hk
      exact ⟨σ₁,by rw [hkept k fun h => hne k h rfl,Function.update_self]⟩
    · exact hdone k (hmem k hk)
  · have hpos : 0 < (((List.finRange t).erase i).map fun i =>
        (p.rhsRows (threadEnv env ranges i) 1).length).sum :=
      List.sum_pos_iff_exists_pos_nat.2
        ⟨_,List.mem_map_of_mem (hmem j (Ne.symm hij)),List.length_pos_iff.2 hr⟩
    have hmiss := Nat.mul_lt_mul_of_pos_left (Nat.lt_add_of_pos_right hpos
      (n := (p.rhsRows (threadEnv env ranges i) 1).length)) (List.length_pos_iff.2 hl)
    rw [hcollected₁,hlist₁,hempty,List.nil_append,List.length_append,length_joined] at hlen
    rw [← List.sum_map_erase _ (List.mem_finRange i),← List.sum_map_erase _ (List.mem_finRange i),
      Nat.add_mul,← Nat.add_assoc]
    exact lt_of_le_of_lt hlen (Nat.add_lt_add_right (Nat.add_lt_add_left hmiss _) _)

theorem not_collectsProduct (hpart : Partitions env ranges) {i j : Fin t} (hij : i ≠ j)
    (hl : p.lhsRows (threadEnv env ranges i) 1 [] ≠ [])
    (hr : p.rhsRows (threadEnv env ranges j) 1 ≠ []) : ¬ CollectsProduct fn entry env p ranges := by
  intro h
  have hempty : (⟨fun _ => [],[]⟩ : Global).rhsInput 0 = [] := rfl
  have hidle : ∀ _ : Fin t, State.fresh.Idle := fun _ => State.idle_fresh
  obtain ⟨g,cs,hruns,hdone,hlt⟩ :=
    exists_runs_missing ranges hpath hn hp hgen hij hl hr hidle hempty
  have hlen := (h _ _ g cs hidle hempty hruns hdone).length_eq
  rw [List.length_append,length_joined,← (hn.lhsRows_perm hpath hpart).length_eq,
    ← (hp.rhsRows_perm hn hpath hpart).length_eq,List.length_flatMap,List.length_flatMap] at hlen
  exact absurd hlen (Nat.ne_of_lt hlt)

end Threads

/-- The threads collect the whole product, whatever the order of their steps, exactly if no thread
has left-hand tuples while another has right-hand tuples. -/
theorem collectsProduct_iff (env : Env) (er : ℕ → Option Expr) (p : Plan) (hpath : p.AccessPath)
    (hn : p.Nested true) (hp : p.CrossJoin) (t : ℕ) (ranges : Fin t → ℕ × ℕ)
    (hpart : Partitions env ranges) (fn : Body) (entry : Label)
    (hgen : generateStart env.db er p = some (fn,entry)) :
    CollectsProduct fn entry env p ranges ↔ ∀ i j, i ≠ j →
      p.lhsRows (threadEnv env ranges i) 1 [] = [] ∨ p.rhsRows (threadEnv env ranges j) 1 = [] := by
  refine ⟨fun h i j hij => ?_,collectsProduct_of_apart ranges hpath hn hp hgen hpart⟩
  by_contra hboth
  obtain ⟨hl,hr⟩ := not_or.1 hboth
  exact not_collectsProduct ranges hpath hn hp hgen hpart hij hl hr h

def personPairs : Plan :=
  .scan "Person" false (.join .CROSS (0,0) (.collect false) (.scan "Person" false .endOp))

theorem personPairs_shape : personPairs.AccessPath ∧ personPairs.Nested true ∧
    personPairs.CrossJoin :=
  ⟨⟨rfl,rfl,rfl,rfl,rfl⟩,⟨rfl,.join ⟨rfl,rfl⟩ .collect,trivial,rfl,rfl,.endOp,rfl⟩,trivial⟩

theorem collectsProduct_personPairs : ∃ fn entry,
    generateStart pairDb (fun _ => none) personPairs = some (fn,entry) ∧
      CollectsProduct fn entry (pairEnv fun _ => "Person") personPairs ![(0,0),(1,1)] := by
  obtain ⟨hpath,hn,hp⟩ := personPairs_shape
  obtain ⟨fn,entry,hgen⟩ := generateStart_isSome (pairEnv fun _ => "Person") hpath hn
  have hpart : Partitions (pairEnv fun _ => "Person") ![(0,0),(1,1)] := by decide
  refine ⟨fn,entry,hgen,(collectsProduct_iff (pairEnv fun _ => "Person") (fun _ => none) personPairs
    hpath hn hp 2 ![(0,0),(1,1)] hpart fn entry hgen).2 ?_⟩
  decide

/-- If the first thread ends before the second begins, no row has node 0 with node 1. -/
theorem not_collectsProduct_chunks : ∃ fn entry,
    generateStart chunksEnv.db (fun _ => none) personPairs = some (fn,entry) ∧
      Partitions chunksEnv ![(0,0),(1,2)] ∧
      ¬ CollectsProduct fn entry chunksEnv personPairs ![(0,0),(1,2)] := by
  obtain ⟨hpath,hn,hp⟩ := personPairs_shape
  obtain ⟨fn,entry,hgen⟩ := generateStart_isSome chunksEnv hpath hn
  have hpart : Partitions chunksEnv ![(0,0),(1,2)] := by decide
  exact ⟨fn,entry,hgen,hpart,not_collectsProduct ![(0,0),(1,2)] hpath hn hp hgen hpart
    (i := 0) (j := 1) (by decide) (by decide) (by decide)⟩

end GraphQueryCompiler
