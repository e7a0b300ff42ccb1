import GraphQueryCompiler.NestedLoop
import GraphQueryCompiler.Lib.CutLoop

/-!
# The probe loops of a pipeline

All cross joins of a pipeline count with the same two cells. A probe loop that hands a tuple
to another join finds the counters of that join behind, equal to each other, and ends. So it
is a `cutFlatMap`, and `probed` is what a suffix delivers with it, for given right-hand lists.
-/

namespace GraphQueryCompiler
open LinkedChain CutLoop

abbrev Probed := List (List QrVal) × Bool

def Probed.then (a b : Probed) : Probed := (a.1 ++ b.1,a.2 || b.2)

def Probed.all (l : List Probed) : Probed := (l.flatMap Prod.fst,l.any Prod.snd)

namespace Plan

def probed (env : Env) (lists : ℕ → List (List QrVal)) :
    Plan → ℕ → ℕ → List QrVal → Probed
  | .foreachRship dir _ _ inp, opId, jid, t =>
    .all ((env.traversed dir opId t).map fun u => inp.probed env lists (opId+1) jid u)
  | .expand exp label inp, opId, jid, t =>
    .all ((env.expanded exp label opId t).map fun u => inp.probed env lists (opId+1) jid u)
  | .filter (.eq (.key i key) (.num _)) inp, opId, jid, t =>
    .all ((env.filtered i key opId t).map fun u => inp.probed env lists (opId+1) jid u)
  | .join .CROSS _ lhs _, opId, jid, t =>
    (cutFlatMap (fun r => lhs.probed env lists opId (jid+1) (t ++ r)) (lists jid),true)
  | .collect _, _, _, t => ([t],false)
  | .endOp, _, _, t => ([t],false)
  | _, _, _, _ => ([],false)

def ListsTyped (lists : ℕ → List (List QrVal)) : Plan → ℕ → Prop
  | .scan _ _ inp, jid => inp.ListsTyped lists jid
  | .foreachRship _ _ _ inp, jid => inp.ListsTyped lists jid
  | .expand _ _ inp, jid => inp.ListsTyped lists jid
  | .filter _ inp, jid => inp.ListsTyped lists jid
  | .project _ inp, jid => inp.ListsTyped lists jid
  | .join _ _ lhs rhs, jid => (∀ r ∈ lists jid, Typed rhs.rhsType r) ∧ lhs.ListsTyped lists (jid+1)
  | .sort _ inp, jid => inp.ListsTyped lists jid
  | .limit _ inp, jid => inp.ListsTyped lists jid
  | .create _ _ inp, jid => inp.ListsTyped lists jid
  | .collect _, _ => True
  | .endOp, _ => True

theorem JoinFree.listsTyped {p : Plan} {lists : ℕ → List (List QrVal)} {jid : ℕ} (h : p.JoinFree) :
    p.ListsTyped lists jid := by
  induction p with
  | join => exact absurd h id
  | collect | endOp => trivial
  | _ => rename_i ih; exact ih h

end Plan

namespace Shared

structure After (sh : Shared) (s : Sink) (res : Probed) (sh' : Shared) : Prop where
  rhsInput : sh'.rhsInput = (sh.deliver s res.1).rhsInput
  trace : sh'.trace = (sh.deliver s res.1).trace
  entered : res.2 = true → ∃ m, sh'.cell .curIdx = .word m ∧ sh'.cell .maxIdx = .word m
  kept : res.2 = false → sh'.cell = sh.cell

variable {sh sh₁ sh₂ : Shared} {s : Sink} {a b : Probed}

theorem After.nil (sh : Shared) (s : Sink) : After sh s ([],false) sh :=
  ⟨by rw [deliver_nil],by rw [deliver_nil],by simp,fun _ => rfl⟩

theorem After.then (h₁ : After sh s a sh₁) (h₂ : After sh₁ s b sh₂) :
    After sh s (a.then b) sh₂ := by
  refine ⟨?_,?_,?_,?_⟩
  · rw [h₂.rhsInput,Probed.then,deliver_append]
    simp only [deliver,h₁.rhsInput]
  · rw [h₂.trace,Probed.then,deliver_append]
    simp only [deliver,h₁.trace]
  · intro h
    cases hb : b.2 with
    | true => exact h₂.entered hb
    | false =>
      rw [h₂.kept hb]
      exact h₁.entered (by simpa [Probed.then,hb] using h)
  · intro h
    simp only [Probed.then,Bool.or_eq_false_iff] at h
    rw [h₂.kept h.2,h₁.kept h.1]

end Shared

theorem Probed.all_cons (a : Probed) (l : List Probed) : Probed.all (a :: l) = a.then (.all l) := by
  simp [all,Probed.then]

theorem Probed.all_of_false {α : Type} (f : α → List (List QrVal)) (l : List α) :
    Probed.all (l.map fun a => (f a,false)) = (l.flatMap f,false) := by
  simp [all,List.flatMap_map]

@[simp] theorem Probed.all_nil : Probed.all [] = ([],false) := rfl

@[simp] theorem Probed.all_singleton (a : Probed) : Probed.all [a] = a := by
  simp [all]

theorem Probed.nil_then (a : Probed) : Probed.then ([],false) a = a := by
  simp [Probed.then]

variable {env : Env} {pipe : ℕ} {ts : List ℕ} {p : Plan} {s : Sink} {sh : Shared} {j : JoinCtx}
  {lists : ℕ → List (List QrVal)} {t : List QrVal}

theorem Plan.Chain.probed_joinFree (hc : Chain ts p) (hj : p.JoinFree) :
    ∀ {opId jid : ℕ} {t : List QrVal},
      p.probed env lists opId jid t = (p.rows env opId t,false) := by
  induction hc with
  | foreachRship _ _ ih | expand _ _ ih | filter _ _ ih =>
    intro opId jid t
    simp only [probed,rows,ih hj,Probed.all_of_false]
  | join => exact absurd hj id
  | collect | endOp => exact rfl

/-- The right-hand lists a suffix finds, which its own leaf does not change. -/
def ListsFound (lists : ℕ → List (List QrVal)) (s : Sink) (jid : ℕ) (sh : Shared) : Prop :=
  ∀ i, jid ≤ i → sh.rhsInput i = lists i ∧ s ≠ .list i

theorem ListsFound.after {jid : ℕ} {sh₁ : Shared} {res : Probed}
    (h : ListsFound lists s jid sh) (ha : sh.After s res sh₁) : ListsFound lists s jid sh₁ := by
  intro i hi
  obtain ⟨hl,hne⟩ := h i hi
  rw [ha.rhsInput,Shared.deliver_rhsInput_ne hne]
  exact ⟨hl,hne⟩

theorem FlagOk.kept {sh₁ : Shared} (h : FlagOk p s sh t)
    (hcell : p.JoinFree → sh₁.cell = sh.cell) : FlagOk p s sh₁ t := by
  intro d hd
  obtain ⟨hs,hj,hd⟩ := h d hd
  exact ⟨hs,hj,by rw [hcell hj,hd]⟩

theorem Exec.cross_rule {pos : ℕ × ℕ} {jid opId : ℕ} {types : List ℕ} {lhs : Plan} {j₁ : JoinCtx}
    {u : Tuple} {f : List QrVal → Probed}
    (hrun : ∀ r sh, r ∈ lists jid → ListsFound lists s jid sh →
      ∃ w sh₁, readRes types r = some w ∧
        Exec env pipe (.run lhs opId j₁ (u ++ w)) sh .backflow sh₁ ∧ sh.After s (f r) sh₁) :
    ∀ (rs : List (List QrVal)) {c : ℕ} {sh : Shared}, (lists jid).drop c = rs →
      c ≤ (lists jid).length → ListsFound lists s jid sh → sh.cell .curIdx = .word c →
      sh.cell .maxIdx = .word (lists jid).length →
      ∃ sh', Exec env pipe (.probe .CROSS pos jid types lhs opId j₁ u) sh .backflow sh' ∧
        sh.After s (cutFlatMap f rs,true) sh' := by
  intro rs
  induction rs with
  | nil =>
    intro c sh hdrop hle _ hcur hmax
    obtain rfl : c = (lists jid).length := by
      have := List.drop_eq_nil_iff.1 hdrop
      omega
    exact ⟨sh,.probeDone hcur hmax (le_refl _),
      ⟨by simp [cutFlatMap],by simp [cutFlatMap],fun _ => ⟨_,hcur,hmax⟩,by simp⟩⟩
  | cons r rs ih =>
    intro c sh hdrop hle hfound hcur hmax
    have hlt : c < (lists jid).length := by
      rcases Nat.lt_or_ge c (lists jid).length with h | h
      · exact h
      · rw [List.drop_of_length_le h] at hdrop
        simp at hdrop
    have hget : (lists jid)[c]? = some r := by
      rw [← List.head?_drop,hdrop,List.head?_cons]
    have hdrop' : (lists jid).drop (c+1) = rs := by
      rw [← List.tail_drop,hdrop,List.tail_cons]
    have hfound' : ListsFound lists s jid (sh.set .curIdx (.word (c+1))) := hfound
    obtain ⟨w,sh₁,hw,hrun₁,hafter₁⟩ := hrun r _ (List.mem_of_getElem? hget) hfound'
    have hget' : (sh.rhsInput jid)[c]? = some r := by rw [(hfound jid (le_refl _)).1,hget]
    cases hran : (f r).2 with
    | true =>
      -- the operators after the join have entered another one: its counters end this loop
      obtain ⟨m,hcur₁,hmax₁⟩ := hafter₁.entered hran
      refine ⟨sh₁,.probeCross hcur hmax hlt hget' hw hrun₁ (.probeDone hcur₁ hmax₁ (le_refl _)),
        ⟨?_,?_,fun _ => ⟨m,hcur₁,hmax₁⟩,by simp⟩⟩
      · simpa [cutFlatMap,hran] using hafter₁.rhsInput
      · simpa [cutFlatMap,hran] using hafter₁.trace
    | false =>
      have hcell := hafter₁.kept hran
      obtain ⟨sh₂,hrest,hafter₂⟩ := ih hdrop' hlt (hfound'.after hafter₁)
        (by rw [hcell]; simp [Shared.set]) (by rw [hcell]; simpa [Shared.set] using hmax)
      have hthen := hafter₁.then hafter₂
      refine ⟨sh₂,.probeCross hcur hmax hlt hget' hw hrun₁ hrest,⟨?_,?_,fun _ =>
        hthen.entered (by simp [Probed.then]),by simp⟩⟩
      · simpa [cutFlatMap,hran,Probed.then] using hthen.rhsInput
      · simpa [cutFlatMap,hran,Probed.then] using hthen.trace

/-- A suffix delivers what `probed` says. -/
theorem Plan.Chain.exec (hc : Chain ts p) :
    ∀ {opId : ℕ} {j : JoinCtx} {t : List QrVal} {sh : Shared}, p.sink j = some s →
      ListsFound lists s j.queryIdInline sh → p.ListsTyped lists j.queryIdInline →
      Typed ts t → FlagOk p s sh t →
      ∃ sh', Exec env pipe (.run p opId j (t.map (QrVal.toReg pipe))) sh .backflow sh' ∧
        sh.After s (p.probed env lists opId j.queryIdInline t) sh' := by
  induction hc with
  | @foreachRship ts dir label inp hlast hinp ih =>
    intro opId j t sh hs hfound hlists ht hf
    obtain ⟨n,hn⟩ := ht.lastNode hlast
    have hlast' : (t.map (QrVal.toReg pipe)).getLast? = some (.node n,0) :=
      getLast?_toReg pipe hn
    let step : ℕ → Probed :=
      fun r => inp.probed env lists (opId+1) j.queryIdInline (t ++ [.rship r])
    let code := env.db.argLabel env.args opId
    let rest : List ℕ → Probed :=
      fun l => .all ((l.filter fun r => (env.db.rshipById r).rshipLabel = code).map step)
    have htotal : (Plan.foreachRship dir (0,0) label inp).probed env lists opId j.queryIdInline t =
        rest (env.db.rships dir n) := by
      simp only [probed,Env.traversed,hn,List.map_map]
      rfl
    obtain ⟨sh',hrun,done,hafter,hdone⟩ := Exec.rships_rule (j := j)
      (p := inp) (t := t.map (QrVal.toReg pipe))
      (env.db.rships_chain dir n)
      (P := fun l sh₁ => ∃ done, sh.After s done sh₁ ∧
        done.then (rest l) = rest (env.db.rships dir n))
      (fun r l sh₁ hne h => by
        obtain ⟨done,hafter,hdone⟩ := h
        refine ⟨done,hafter,?_⟩
        rw [← hdone]
        simp only [rest,List.filter_cons_of_neg (p := fun r =>
          decide ((env.db.rshipById r).rshipLabel = code)) (by simpa using hne)])
      (fun r l sh₁ heq h => by
        obtain ⟨done,hafter,hdone⟩ := h
        have hrest : rest (r :: l) = (step r).then (rest l) := by
          simp only [rest,List.filter_cons_of_pos (p := fun r =>
            decide ((env.db.rshipById r).rshipLabel = code)) (by simpa using heq),
            List.map_cons,Probed.all_cons]
        have hf₁ : FlagOk inp s sh₁ (t ++ [.rship r]) := by
          refine (FlagOk.kept hf fun hj => hafter.kept ?_).snoc (by simp)
          have hfalse : (rest (env.db.rships dir n)).2 = false := by
            rw [← htotal,(Chain.foreachRship hlast hinp).probed_joinFree hj]
          rw [← hdone] at hfalse
          exact (Bool.or_eq_false_iff.1 hfalse).1
        obtain ⟨sh₂,hrun,hafter₂⟩ := ih hs (hfound.after hafter) hlists
          (ht.snoc (.rship r)) hf₁
        rw [List.map_append] at hrun
        refine ⟨sh₂,hrun,done.then (step r),hafter.then hafter₂,?_⟩
        rw [← hdone,hrest]
        simp [Probed.then,Bool.or_assoc])
      ⟨([],false),.nil sh s,Probed.nil_then _⟩
    have hres : done = (Plan.foreachRship dir (0,0) label inp).probed env lists opId
        j.queryIdInline t := by
      rw [htotal,← hdone]
      simp [rest,Probed.all,Probed.then]
    exact ⟨sh',.foreachRship hlast' hrun,hres ▸ hafter⟩
  | @expand ts exp label inp hlast _ ih =>
    intro opId j t sh hs hfound hlists ht hf
    obtain ⟨r,hr⟩ := ht.lastRship hlast
    have hlast' : (t.map (QrVal.toReg pipe)).getLast? = some (.rship r,1) :=
      getLast?_toReg pipe hr
    let n := (env.db.rshipById r).endpoint exp
    by_cases hlabel : label ≠ "" → (env.db.nodeById n).nodeLabel = env.db.argLabel env.args opId
    · have hres : (Plan.expand exp label inp).probed env lists opId j.queryIdInline t =
          inp.probed env lists (opId+1) j.queryIdInline (t ++ [.node n]) := by
        simp only [probed,Env.expanded,hr]
        rw [if_pos hlabel,List.map_singleton,Probed.all_singleton]
      obtain ⟨sh₁,hrun,hafter⟩ := ih hs hfound hlists (ht.snoc (.node n))
        (FlagOk.snoc hf (by simp))
      rw [List.map_append] at hrun
      exact ⟨sh₁,.expand hlast' hlabel hrun,hres ▸ hafter⟩
    · have hres : (Plan.expand exp label inp).probed env lists opId j.queryIdInline t =
          ([],false) := by
        simp only [probed,Env.expanded,hr]
        rw [if_neg hlabel,List.map_nil,Probed.all_nil]
      rw [Classical.not_imp] at hlabel
      exact ⟨sh,.expandFalse hlast' hlabel.1 hlabel.2,hres ▸ .nil sh s⟩
  | @filter ts i key c inp hi _ ih =>
    intro opId j t sh hs hfound hlists ht hf
    obtain ⟨n,hn⟩ := ht.node hi
    have hn' : (t.map (QrVal.toReg pipe))[i]? = some (.node n,0) :=
      getElem?_toReg pipe hn
    by_cases heq : (env.db.findProperty n (env.db.getCode key)).map PItem.value =
        some (env.args.word opId)
    · have hres : (Plan.filter (.eq (.key i key) (.num c)) inp).probed env lists opId
          j.queryIdInline t = inp.probed env lists (opId+1) j.queryIdInline t := by
        simp only [probed,Env.filtered,hn]
        rw [if_pos heq,List.map_singleton,Probed.all_singleton]
      obtain ⟨sh₁,hrun,hafter⟩ := ih hs hfound hlists ht hf
      exact ⟨sh₁,.filter hn' heq hrun,hres ▸ hafter⟩
    · have hres : (Plan.filter (.eq (.key i key) (.num c)) inp).probed env lists opId
          j.queryIdInline t = ([],false) := by
        simp only [probed,Env.filtered,hn]
        rw [if_neg heq,List.map_nil,Probed.all_nil]
      exact ⟨sh,.filterFalse hn' heq,hres ▸ .nil sh s⟩
  | @join ts pos lhs rhs hpath _ ih =>
    intro opId j t sh hs hfound hlists ht hf
    have hnoflag : ∀ d, QrVal.int d ∉ t := fun d hd => (hf d hd).2.1
    obtain ⟨sh',hrun,hafter⟩ := Exec.cross_rule
      (u := t.map (QrVal.toReg pipe))
      (f := fun r => lhs.probed env lists opId (j.queryIdInline+1) (t ++ r))
      (fun r sh₁ hr hfound₁ => by
        have hty := hlists.1 r hr
        have hflag : FlagOk lhs s sh₁ (t ++ r) := by
          intro d hd
          rcases List.mem_append.1 hd with hd | hd
          · exact absurd hd (hnoflag d)
          · exact absurd hd (hty.no_flag rhs.rhsType_le d)
        obtain ⟨sh₂,hrun,hafter⟩ := ih (j := j.push) hs
          (fun i hi => hfound₁ i (Nat.le_of_succ_le hi)) hlists.2 (List.rel_append ht hty) hflag
        rw [List.map_append] at hrun
        exact ⟨_,sh₂,readRes_toReg hty rhs.rhsType_le,hrun,hafter⟩)
      (lists j.queryIdInline) List.drop_zero (by simp)
      (show ListsFound lists s j.queryIdInline (sh.enterJoin j.queryIdInline) from hfound)
      (by simp [Shared.enterJoin,Shared.set])
      (by simp [Shared.enterJoin,Shared.set,(hfound _ (le_refl _)).1])
    exact ⟨sh',.join hrun,⟨hafter.rhsInput,hafter.trace,hafter.entered,by simp [probed]⟩⟩
  | collect =>
    intro opId j t sh hs _ _ ht hf
    obtain rfl := Option.some.inj hs
    refine ⟨_,.collect (row_toReg ht hf),?_⟩
    rw [Shared.collect_eq_deliver]
    exact ⟨rfl,rfl,by simp [probed],fun _ => rfl⟩
  | endOp =>
    intro opId j t sh hs _ _ ht hf
    rw [sink,Option.map_eq_some_iff] at hs
    obtain ⟨jid,hjid,rfl⟩ := hs
    refine ⟨_,.endOp hjid (mapM_matEntry_toReg ht fun d hd => by simpa using (hf d hd).1),?_⟩
    rw [Shared.materialize_eq_deliver]
    exact ⟨rfl,rfl,by simp [probed],fun _ => rfl⟩

def Plan.scanned (env : Env) (lists : ℕ → List (List QrVal)) (p : Plan) (code opId jid : ℕ)
    (ns : List ℕ) : List (List QrVal) :=
  (ns.filter fun n => (env.db.nodeById n).nodeLabel = code).flatMap fun n =>
    (p.probed env lists opId jid [.node n]).1

theorem Plan.Chain.scanExec {code opId : ℕ} {ns : List ℕ} (hc : Chain [0] p)
    (hs : p.sink j = some s) (hlists : p.ListsTyped lists j.queryIdInline)
    (hfound : ListsFound lists s j.queryIdInline sh) :
    ∃ sh', ScanExec env pipe code p opId j ns sh sh' ∧
      sh'.rhsInput =
        (sh.deliver s (p.scanned env lists code opId j.queryIdInline ns)).rhsInput ∧
      sh'.trace = (sh.deliver s (p.scanned env lists code opId j.queryIdInline ns)).trace := by
  let rest := p.scanned env lists code opId j.queryIdInline
  obtain ⟨sh',hrun,done,hinput,htrace,hdone⟩ : ∃ sh', ScanExec env pipe code p opId j ns sh sh' ∧
      ∃ done, sh'.rhsInput = (sh.deliver s done).rhsInput ∧
        sh'.trace = (sh.deliver s done).trace ∧ done ++ rest [] = rest ns := ScanExec.rule
    (P := fun l sh₁ => ∃ done, sh₁.rhsInput = (sh.deliver s done).rhsInput ∧
      sh₁.trace = (sh.deliver s done).trace ∧ done ++ rest l = rest ns)
    (fun n l sh₁ hne h => by
      obtain ⟨done,hinput,htrace,hdone⟩ := h
      refine ⟨done,hinput,htrace,?_⟩
      rw [← hdone]
      simp [rest,scanned,hne])
    (fun n l sh₁ heq h => by
      obtain ⟨done,hinput,htrace,hdone⟩ := h
      have hfound₁ : ListsFound lists s j.queryIdInline sh₁ := by
        intro i hi
        obtain ⟨hl,hne⟩ := hfound i hi
        rw [hinput,Shared.deliver_rhsInput_ne hne]
        exact ⟨hl,hne⟩
      obtain ⟨sh₂,hrun,hafter⟩ : ∃ sh₂, Exec env pipe (.run p opId j [(.node n,0)]) sh₁ .backflow
            sh₂ ∧ sh₁.After s (p.probed env lists opId j.queryIdInline [.node n]) sh₂ :=
        hc.exec (t := [.node n]) hs hfound₁ hlists (typed_node n) (by simp [FlagOk])
      refine ⟨sh₂,hrun,done ++ (p.probed env lists opId j.queryIdInline [.node n]).1,?_,?_,?_⟩
      · rw [hafter.rhsInput,Shared.deliver_append]
        simp only [Shared.deliver,hinput]
      · rw [hafter.trace,Shared.deliver_append]
        simp only [Shared.deliver,htrace]
      · rw [← hdone]
        simp [rest,scanned,heq])
    ⟨[],by simp,by simp,by simp⟩
  obtain rfl : done = rest ns := by simpa [rest,scanned] using hdone
  exact ⟨sh',hrun,hinput,htrace⟩

end GraphQueryCompiler
