import GraphQueryCompiler.CrossJoinRows
import GraphQueryCompiler.ListReads

/-!
# What a cross join reads

The code of a cross join reads the list at the head of the probe loop and in its body, and every
run that goes on from there with a tuple in the list collects a row. A run that collects nothing
from a list with a tuple has therefore read none.
-/

namespace GraphQueryCompiler
open StepMachine CodegenInlineVisitor

variable {env : Env} {fn : Body} {σ σ' : State} {c : Config} {l : Label} {is : List Instr}

namespace CodegenInlineVisitor
variable {db : GraphDb} {v v' : CodegenInlineVisitor} {op p : Plan} {opId opId' : ℕ}
  {P : Label → Prop}

def ReadsAt (v : CodegenInlineVisitor) (P : Label → Prop) : Prop :=
  ∀ e ∈ v.code, (∀ i ∈ e.2, i.Reads 0) ∨ P e.1

theorem visit_readsAt (hop : op.JoinFree) (h : (codegenInlineVisitor db).visit op opId v = some v')
    (hv : v.ReadsAt P) : v'.ReadsAt P := by
  obtain ⟨code,hcode,hpieces⟩ := visit_pieces (q := 0) h (by rintro _ _ _ _ rfl; exact hop.elim)
  rw [ReadsAt,hcode]
  exact List.forall_mem_append.2 ⟨hv,fun e he => .inl (hpieces e he).reads⟩

theorem codegen_readsAt (hp : p.JoinFree) {interpreted : Bool}
    (h : p.codegen (codegenInlineVisitor db) opId interpreted v = some (v',opId'))
    (hv : v.ReadsAt P) : v'.ReadsAt P :=
  p.codegen_rel_of (R := fun v v' => v.ReadsAt P → v'.ReadsAt P) (Q := Plan.JoinFree)
    (fun _ _ hin hp => hp.of_input hin) (fun _ _ _ _ hp => hp.elim)
    (fun _ _ _ h₁ h₂ hv => h₂ (h₁ hv)) (fun _ _ _ _ => visit_readsAt) hp h hv

end CodegenInlineVisitor

theorem Plan.CrossJoin.located {P : Label → Prop} {pipe : ℕ} {j : JoinCtx}
    {v' : CodegenInlineVisitor} (p : Plan) (hp : p.CrossJoin) : ∀ {opId : ℕ}
    {v : CodegenInlineVisitor}, Located fn env.db pipe j p opId v v' → v.ReadsAt P →
      ∃ v₁ opId₁ pos print rhs, rhs.JoinFree ∧ v₁.ReadsAt P ∧
        Located fn env.db pipe j (.join .CROSS pos (.collect print) rhs) opId₁ v₁ v' := by
  induction p with
  | foreachRship _ _ _ inp ih | expand _ _ inp ih | filter _ inp ih =>
    intro opId v hl hv
    obtain ⟨v₁,h₁,_,hl₁⟩ := hl.input rfl hl.suffix.2
    obtain ⟨code,hcode,hpieces⟩ := visit_pieces (q := 0) h₁ nofun
    refine ih hp hl₁ ?_
    rw [ReadsAt,hcode]
    exact List.forall_mem_append.2 ⟨hv,fun e he => .inl (hpieces e he).reads⟩
  | scan => exact fun hl => absurd hl.suffix.1 (by simp)
  | join jop pos lhs rhs _ _ =>
    intro opId v hl hv
    cases jop with
    | CROSS =>
      cases lhs with
      | collect print => exact ⟨v,opId,pos,print,rhs,hp,hv,hl⟩
      | _ => exact absurd hp id
    | _ => exact absurd hp id
  | _ => exact absurd hp id

section Cross
variable {pipe : ℕ} {j : JoinCtx} {pos : ℕ × ℕ} {print : Bool} {rhs : Plan} {opId : ℕ}
  {v v' : CodegenInlineVisitor}

def ReadsJoin (v : CodegenInlineVisitor) (l : Label) : Prop :=
  l = v.bb .entryJoinLhs ∨ l = v.bb (.whileBody 0)

theorem Located.readsJoin
    (hl : Located fn env.db pipe j (.join .CROSS pos (.collect print) rhs) opId v v')
    (hr : rhs.JoinFree) (hv : v.ReadsAt fun _ => False) : v'.ReadsAt (ReadsJoin v) := by
  obtain ⟨opId',hgen⟩ := hl.gen
  simp only [Plan.codegen,if_true,Option.bind_eq_bind,Option.bind_eq_some_iff,Option.pure_def,
    Prod.exists,Option.some.injEq,Prod.mk.injEq] at hgen
  obtain ⟨v₁,h₁,v₂,opId₂,⟨v₃,h₂,rfl,rfl⟩,h₃⟩ := hgen
  have hcollect : (Plan.collect print).JoinFree := trivial
  refine codegen_readsAt hr h₃ (visit_readsAt hcollect h₂ ?_)
  obtain ⟨code,hloop,hcode,_⟩ := visitJoin_eq h₁
  obtain rfl := Option.some.inj hloop
  have hres : ∀ i ∈ v.resInstrs rhs.rhsType, i.Reads 0 := by
    intro i hi
    obtain ⟨n,_,rfl⟩ := List.mem_mapIdx.1 hi
    split_ifs <;> trivial
  rw [ReadsAt,hcode,List.append_nil]
  refine List.forall_mem_append.2 ⟨fun e he => (hv e he).imp_right False.elim,?_⟩
  simp only [joinCode,whileLoopCondition,List.forall_mem_append,List.forall_mem_cons]
  refine ⟨⟨⟨.inl ?_,.inr (.inl rfl),List.forall_mem_nil _⟩,.inl ?_,.inl ?_,.inr (.inr rfl),
    .inl ?_,List.forall_mem_nil _⟩,.inl ?_,.inl ⟨⟨hres,?_⟩,trivial,List.forall_mem_nil _⟩,.inl ?_,
    List.forall_mem_nil _⟩
  all_goals simp [Instr.Reads,concatIncr]

def Instr.isMiddle : Instr → Bool
  | .br _ => false
  | .condBr .. => false
  | .ret => false
  | _ => true

def Collects (env : Env) (fn : Body) (l : Label) (σ : State) : Prop :=
  ∀ σ', Returns (fn.step env) (.at l σ) (.returned σ') →
    ∃ es t, σ'.trace = σ.trace ++ es ∧ Event.collect t ∈ es

theorem Collects.of_reaches {l₁ : Label} {σ₁ : State}
    (hr : Reaches (fn.step env) (.at l σ) (.at l₁ σ₁)) (h : Collects env fn l₁ σ₁) :
    Collects env fn l σ := by
  intro σ' hret
  obtain ⟨es₁,t,htrace₁,ht⟩ := h σ' (Returns.after hr hret)
  obtain ⟨es,hglobal,_⟩ := reaches_emits hr
  have htrace : σ₁.trace = σ.trace ++ es := Global.trace_of_foldl hglobal
  exact ⟨es ++ es₁,t,by rw [htrace₁,htrace,List.append_assoc],List.mem_append_right _ ht⟩

theorem exists_step (hret : Returns (fn.step env) (.at l σ) (.returned σ')) :
    ∃ c, fn.step env (.at l σ) = some c := by
  rcases hret.1.cases_head with heq | ⟨c,hc,_⟩
  · cases heq
  · exact ⟨c,hc⟩

theorem Collects.of_step (h : ∀ c, fn.step env (.at l σ) = some c →
    ∃ l₁ σ₁, c = .at l₁ σ₁ ∧ Collects env fn l₁ σ₁) : Collects env fn l σ := by
  intro σ' hret
  obtain ⟨c,hc⟩ := exists_step hret
  obtain ⟨l₁,σ₁,rfl,hcollects⟩ := h c hc
  exact hcollects.of_reaches (.single hc) σ' hret

theorem Collects.of_collect (h : ∀ c, fn.step env (.at l σ) = some c →
    ∃ t, c.global.trace = σ.trace ++ [.collect t]) : Collects env fn l σ := by
  intro σ' hret
  obtain ⟨c,hc⟩ := exists_step hret
  obtain ⟨t,ht⟩ := h c hc
  obtain ⟨es,hglobal,_⟩ := reaches_emits (Returns.after (.single hc) hret).1
  have htrace : σ'.trace = c.global.trace ++ es := Global.trace_of_foldl hglobal
  exact ⟨.collect t :: es,t,by rw [htrace,ht,List.append_assoc]; rfl,List.mem_cons_self⟩

theorem execBlock_br (his : ∀ i ∈ is, i.isMiddle = true) : ∀ {σ : State},
    execBlock env (is ++ [.br l]) σ = some c → ∃ σ₁, c = .at l σ₁ := by
  induction is with
  | nil => exact fun h => ⟨_,(Option.some.inj h).symm⟩
  | cons i is ih =>
    intro σ h
    obtain ⟨hi,hrest⟩ := List.forall_mem_cons.1 his
    cases i with
    | br | condBr | ret => cases hi
    | _ =>
      obtain ⟨σ₁,_,hblock⟩ := Option.bind_eq_some_iff.1 h
      exact ih hrest hblock

theorem execBlock_collect (regs : List (Expr × ℕ)) : ∀ {σ : State},
    execBlock env ((regs.map fun r => .matRegValue r.1 r.2) ++ [.collectTuple,.br l]) σ = some c →
      ∃ t, c.global.trace = σ.trace ++ [.collect t] := by
  induction regs with
  | nil =>
    intro σ h
    obtain rfl := Option.some.inj h
    exact ⟨σ.tp,rfl⟩
  | cons r regs ih =>
    intro σ h
    obtain ⟨σ₁,hexec,hblock⟩ := Option.bind_eq_some_iff.1 h
    obtain ⟨_,_,rfl⟩ := Option.map_eq_some_iff.1 hexec
    obtain ⟨t,ht⟩ := ih hblock
    exact ⟨t,ht⟩

theorem Located.collectEntry_collects
    (hl : Located fn env.db pipe j (.collect print) opId v v') (σ : State) :
    Collects env fn (v.bb .collectEntry) σ := by
  obtain ⟨_,hgen⟩ := hl.gen
  obtain ⟨v₁,h₁,he,_⟩ := codegen_visit hgen
  obtain rfl := Option.some.inj h₁
  have hne : v.bb .collectEntry ≠ v.visitCollect.prevBb := (hl.ok.prevBb_ne _).symm
  have hown := hl.own h₁ he rfl hne
  refine .of_collect fun c hc => ?_
  rw [Body.step,hown] at hc
  simp only [Code.body_cons,Code.body_nil,bb,hl.ok.prevBb_ne,if_false,if_true,List.nil_append,
    List.append_nil] at hc
  exact execBlock_collect
    (v.regQueryResults.map fun res => (res.regVal,if res.type = 7 then 2 else res.type))
    (by rwa [List.map_map])

theorem Located.readsJoin_collects
    (hl : Located fn env.db pipe j (.join .CROSS pos (.collect print) rhs) opId v v')
    (hl₀ : ReadsJoin v l) (hlist : σ.rhsInput j.queryIdInline ≠ []) : Collects env fn l σ := by
  obtain ⟨v₁,v₂,h₁,he,ha,hl₁⟩ := hl.join
  have hown := fun name hname => hl.probe_own h₁ he name hname
  have hconsume : ∀ σ, Collects env fn (v.bb .consume) σ := fun σ =>
    (hl₁.collectEntry_collects σ).of_reaches (consume_reaches hl h₁ ha hl₁)
  have hconcat : ∀ σ, Collects env fn (v.bb .concatQrl) σ := by
    intro σ
    refine .of_step fun c hc => ?_
    rw [Body.step,hown _ (by simp)] at hc
    simp only [joinCode,whileLoopCondition,bb,Code.body_append,Code.body_cons,Code.body_nil,
      Label.mk.injEq,hl.ok.prevBb_ne,true_and,reduceCtorEq,if_false,if_true,List.nil_append,
      List.append_nil] at hc
    have hmiddle : ∀ i ∈ v.resInstrs rhs.rhsType ++ v.concatIncr .CROSS, i.isMiddle = true := by
      refine List.forall_mem_append.2 ⟨fun i hi => ?_,by simp [concatIncr,Instr.isMiddle]⟩
      obtain ⟨n,_,rfl⟩ := List.mem_mapIdx.1 hi
      split_ifs <;> rfl
    obtain ⟨σ₁,rfl⟩ := execBlock_br hmiddle hc
    exact ⟨_,σ₁,rfl,hconsume σ₁⟩
  have hbody : ∀ σ, Collects env fn (v.bb (.whileBody 0)) σ := by
    intro σ
    refine .of_step fun c hc => ?_
    rw [Body.step,hown _ (by simp)] at hc
    simp only [joinCode,whileLoopCondition,bb,Code.body_append,Code.body_cons,Code.body_nil,
      Label.mk.injEq,hl.ok.prevBb_ne,true_and,reduceCtorEq,if_false,if_true,List.nil_append,
      List.append_nil,joinBranch] at hc
    obtain ⟨σ₁,rfl⟩ := execBlock_br (by simp [Instr.isMiddle]) hc
    exact ⟨_,σ₁,rfl,hconcat σ₁⟩
  rcases hl₀ with rfl | rfl
  · have htest : Reaches (fn.step env)
        (.at (v.bb (.whileCondition 0)) (v.probeStart j.queryIdInline σ))
        (.at (v.bb (.whileBody 0)) (v.probeStart j.queryIdInline σ)) := by
      refine reaches_block (hown _ (by simp)) ?_
      simp [joinCode,whileLoopCondition,bb,cell,reg,hl.ok.prevBb_ne,execBlock,Expr.eval,
        Val.icmpULT,List.length_pos_iff.2 hlist,probeStart]
    exact (hbody _).of_reaches ((probeStart_reaches hl h₁ he).trans htest)
  · exact hbody σ

end Cross

variable {er : ℕ → Option Expr} {entry : Label} {p : Plan} {d : Config} {g : Global}

theorem Global.foldl_emit_ne_nil {j : ℕ} (h : g.rhsInput j ≠ []) (es : List Event) :
    (es.foldl Global.emit g).rhsInput j ≠ [] := by
  induction es generalizing g with
  | nil => exact h
  | cons e es ih =>
    refine ih ?_
    cases e with
    | materialize jid t =>
      simp only [emit]
      split_ifs
      · simp
      · exact h
    | _ => exact h

def Reading (fn : Body) : Config → Prop
  | .at l _ => ∃ i ∈ fn l, ¬ i.Reads 0
  | .returned _ => False

theorem Reaches.reading {j : ℕ} (h : Reaches (fn.step env) c d) (hd : Reading fn d) :
    ∀ {g : Global}, g.rhsInput j ≠ [] → ∃ d' g', Reading fn d' ∧ g'.rhsInput j ≠ [] ∧
      Reaches (fn.step env) (c.setGlobal g) (d'.setGlobal g') := by
  induction h using Relation.ReflTransGen.head_induction_on with
  | refl => exact fun hg => ⟨_,_,hd,hg,.refl⟩
  | @head c c₁ hstep _ ih =>
    intro g hg
    by_cases hc : Reading fn c
    · exact ⟨c,g,hc,hg,.refl⟩
    · obtain ⟨es,_,hframe⟩ := step_emits hstep
      obtain ⟨d',g',hd',hg',hr⟩ := ih (Global.foldl_emit_ne_nil hg es)
      refine ⟨d',g',hd',hg',.head (hframe 0 g ?_ fun i hi => absurd hi (Nat.not_lt_zero i)) hr⟩
      rintro l σ rfl i hi
      by_contra hreads
      exact hc ⟨i,hi,hreads⟩

theorem exists_typed {ts : List ℕ} (h : ∀ type ∈ ts, type ≤ 1) : ∃ t, Typed ts t := by
  induction ts with
  | nil => exact ⟨[],.nil⟩
  | cons type ts ih =>
    obtain ⟨htype,hrest⟩ := List.forall_mem_cons.1 h
    obtain ⟨t,ht⟩ := ih hrest
    interval_cases type
    · exact ⟨_,.cons (.node 0) ht⟩
    · exact ⟨_,.cons (.rship 0) ht⟩

theorem Plan.CrossJoin.exists_types (p : Plan) (hp : p.CrossJoin) :
    ∃ ts, (∀ type ∈ ts, type ≤ 1) ∧
      ∀ lists, p.ListsTyped lists 0 ↔ ∀ r ∈ lists 0, Typed ts r := by
  induction p with
  | scan _ _ inp ih | foreachRship _ _ _ inp ih | expand _ _ inp ih | filter _ inp ih => exact ih hp
  | join jop pos lhs rhs _ _ =>
    cases jop with
    | CROSS =>
      cases lhs with
      | collect print => exact ⟨rhs.rhsType,rhs.rhsType_le,fun _ => and_iff_left trivial⟩
      | _ => exact absurd hp id
    | _ => exact absurd hp id
  | _ => exact absurd hp id

theorem Plan.CrossJoin.reading_collects (hpath : p.AccessPath) (hp : p.CrossJoin)
    (hgen : generateStart env.db er p = some (fn,entry)) (hl : ∃ i ∈ fn l, ¬ i.Reads 0)
    (hlist : σ.rhsInput 0 ≠ []) : Collects env fn l σ := by
  simp only [generateStart,Option.bind_eq_bind,Option.bind_eq_some_iff,Option.pure_def,
    Option.some.injEq,Prod.mk.injEq,Prod.exists] at hgen
  obtain ⟨v',opId',hcode,_,_,rfl,rfl⟩ := hgen
  cases p with
  | scan label indexed inp =>
    obtain ⟨code,hscan,hpieces⟩ :=
      visitScan_pieces (v := .init er) (q := 0) label indexed inp 1
    have hnone : ((init er).visitScan indexed inp 1).ReadsAt fun _ => False := by
      rw [ReadsAt,hscan]
      exact fun e he => .inl (hpieces e he).reads
    obtain ⟨v₁,opId₁,pos,print,rhs,hr,hv₁,hl₁⟩ := Plan.CrossJoin.located inp hp
      (Located.scan_input (by simp [init]) hpath.2 hcode fun _ _ _ => rfl)
      hnone
    refine hl₁.readsJoin_collects ?_ hlist
    obtain ⟨i,hi,hreads⟩ := hl
    obtain ⟨e,he,hie⟩ := List.mem_flatMap.1 hi
    split_ifs at hie with hel
    · rw [← hel]
      exact (hl₁.readsJoin hr hv₁ e he).resolve_left fun h => hreads (h i hie)
    · simp at hie
  | create => exact absurd hpath id
  | collect | endOp => exact absurd hpath (by simp [Plan.Shaped])
  | _ => exact absurd hpath.1 (by simp)

theorem Plan.CrossJoin.reads_nothing (env : Env) (hpath : p.AccessPath) (hn : p.Nested true)
    (hp : p.CrossJoin)
    (hgen : generateStart env.db er p = some (fn,entry)) (hrows : p.lhsRows env 1 [] = [])
    (hσ : σ.Idle) (hr : Reaches (fn.step env) (.at entry σ) d) : ¬ Reading fn d := by
  intro hd
  obtain ⟨ts,hts,hiff⟩ := Plan.CrossJoin.exists_types p hp
  obtain ⟨t,ht⟩ := exists_typed hts
  have htyped : p.ListsTyped (fun _ => [t]) 0 := (hiff _).2 (List.forall_mem_singleton.2 ht)
  obtain ⟨d',g',hd',hg',hr'⟩ := Reaches.reading (j := 0) hr hd
    (g := ⟨fun _ => [t],σ.trace⟩) (List.cons_ne_nil _ _)
  obtain ⟨fn',entry',hgen',hruns⟩ := generateStart_crossJoin env er p hpath hn hp
  obtain ⟨rfl,rfl⟩ : fn = fn' ∧ entry = entry' := by
    simpa using Option.some.inj (hgen.symm.trans hgen')
  obtain ⟨σ',hret,_,_,htrace⟩ := hruns (σ.setGlobal ⟨fun _ => [t],σ.trace⟩)
    ⟨hσ.tp,hσ.matTuple⟩ htyped
  rw [hrows] at htrace
  cases d' with
  | returned => exact hd'
  | «at» l τ =>
    obtain ⟨es₀,hglobal₀,_⟩ := reaches_emits hr'
    have htrace₀ : g'.trace = σ.trace ++ es₀ := Global.trace_of_foldl hglobal₀
    have hcollects := Plan.CrossJoin.reading_collects (σ := τ.setGlobal g') hpath hp hgen hd' hg'
    obtain ⟨es,u,htrace',hu⟩ := hcollects σ' (Returns.after hr' hret)
    have hevents : σ'.trace = σ.trace ++ (es₀ ++ es) := by
      rw [htrace',← List.append_assoc,← htrace₀]
      rfl
    rw [htrace,List.append_assoc,List.append_assoc] at hevents
    have hsame := List.append_cancel_left hevents
    have hmem : Event.collect u ∈ es₀ ++ es := List.mem_append_right _ hu
    rw [← hsame] at hmem
    simp [joined] at hmem

end GraphQueryCompiler
