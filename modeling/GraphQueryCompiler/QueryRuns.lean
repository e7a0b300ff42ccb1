import GraphQueryCompiler.QueryLoops

/-!
# The run of a query

A tuple that enters the operators of a query is handed on as its events say, up to the first full
limit. So is everything that the scan starts, and the start function collects the rows.
-/

namespace GraphQueryCompiler
open StepMachine CodegenInlineVisitor
open LimitedStream (rows arrivals stops shared)

variable {env : Env} {fn : Body} {pipe i opId : ℕ} {ts us : List ℕ} {t u : List QrVal}
  {σ σ₁ : State} {sh sh₁ sh' : Shared} {j : JoinCtx} {p op inp lhs rhs : Plan} {pos : ℕ × ℕ}
  {v v₁ v₂ v' : CodegenInlineVisitor} {hist : List ℕ} {es : List TupleEvent}

theorem Plan.Tail.exec (hp : p.Tail) {t : Tuple} {q : List QrVal} :
    ∀ (opId : ℕ) (hist : List ℕ) {sh : Shared}, sh.cell .resCounter = .word hist.length →
      sh.ShowsFrom i pipe t q →
      ∃ ex sh', Exec env pipe (.run p opId j t) sh ex sh' ∧
        sh.Handles id hist (p.events env opId q) ex sh' ∧ sh.Keeps sh' := by
  induction p with
  | sort cmp inp ih =>
    intro opId hist sh hc hq
    obtain ⟨ex,sh',hexec,hh,hk⟩ := ih hp (opId+1) hist hc hq
    exact ⟨ex,sh',.sort hexec,hh,hk⟩
  | limit n inp ih =>
    intro opId hist sh hc hq
    by_cases hfull : hist.length = limitConst n
    · exact ⟨_,_,.limitReached (by rw [hc,hfull]),.full hfull,.refl _⟩
    · have hc₁ : (sh.set .resCounter (.word (hist.length+1))).cell .resCounter =
          .word (hist ++ [limitConst n]).length := by simp [Shared.set]
      obtain ⟨ex,sh',hexec,hh,hk⟩ := ih hp (opId+1) (hist ++ [limitConst n]) hc₁
        fun sh₂ hd hpv => hq sh₂ hd hpv
      exact ⟨ex,sh',.limit hc hfull hexec,.arrive hfull hh,(Shared.keeps_resCounter _).trans hk⟩
  | collect print =>
    intro opId hist sh hc hq
    exact ⟨_,_,.collect (hq sh rfl fun _ _ => rfl),.row hc,⟨rfl,rfl,rfl⟩⟩
  | _ => exact absurd hp id

theorem visitProject_eq {prexpr : List PrExpr}
    (h₁ : (codegenInlineVisitor env.db).visit (.project prexpr inp) opId v = some v₁) :
    ∃ is rs, v.projectExprs 1 prexpr = some (is,rs) ∧
      v₁ = { v.emit [(v.prevBb,[.br (v.bb .projectEntry)]),(v.bb .projectEntry,is)]
        (v.bb .projectEntry) with regQueryResults := rs } := by
  simp only [codegenInlineVisitor,visitProject,Option.bind_eq_bind,Option.bind_eq_some_iff,
    Option.pure_def,Option.some.injEq,Prod.exists] at h₁
  obtain ⟨is,rs,h,rfl⟩ := h₁
  exact ⟨is,rs,h,rfl⟩

theorem project_handled {prexpr : List PrExpr}
    (hl : Located fn env.db pipe j (.project prexpr inp) opId v v')
    (hkeys : v.projectKeys = (Plan.project prexpr inp).projectionKeys)
    (hp : Projectable ts 1 prexpr) (htail : inp.Tail) (ht : Typed ts t)
    (hf : ∀ d, QrVal.int d ∈ t → sh.cell .dangling = .word d) (hs : Sim pipe σ sh)
    (hh : Holds env σ v.regQueryResults (t.map (QrVal.toReg pipe)))
    (hc : sh.cell .resCounter = .word hist.length) :
    Handled env fn pipe v (v.bb .projectEntry) (.project prexpr inp) hist
      (inp.events env opId (projectRow prexpr t)) σ sh := by
  obtain ⟨v₁,h₁,_,hl₁⟩ := hl.input rfl htail.suffix
  obtain ⟨is,rs,hexprs,rfl⟩ := visitProject_eq h₁
  have hkey : ∀ k pe, prexpr[k]? = some pe → v.projectKeys[0+k]? = some pe.key := by
    intro k pe hk
    rw [hkeys,Plan.projectionKeys,htail.projectionKeys,List.append_nil,Nat.zero_add,
      List.getElem?_map,hk]
    rfl
  obtain ⟨σ₁,sh₁,hto⟩ := projectExprs_projectsTo hl.scan hl.ok.regs ht hp hkey hexprs hs hh hf
  obtain ⟨t₁,ht₁,hshows⟩ := hto.shows
  have hc₁ : sh₁.cell .resCounter = .word hist.length :=
    (hto.kept _ fun _ _ => by simp).trans hc
  obtain ⟨ex,sh',hexec,hhand,hk⟩ := htail.exec (j := j) opId hist hc₁ hshows
  have hcomp := hexec.simulates _ v' σ₁ hl₁ hto.sim ht₁
  have hopen := hl₁.prevBb hl.agrees (le_refl v.visits)
  have hentry : Reaches (fn.step env) (.at (v.bb .projectEntry) σ)
      (.at (inp.entryLabel (v.visits+1)) σ₁) := by
    refine reaches_block hopen ?_
    simp only [emit,hl.ok.body_own]
    have hne : v.prevBb ≠ v.bb .projectEntry := hl.ok.prevBb_ne _
    simp only [Code.body_cons,Code.body_nil,hne,if_false,if_true,List.nil_append,List.append_nil]
    rw [hto.exec]
    rfl
  have hexit : ∀ ex, CodegenInlineVisitor.exit { v.emit [(v.prevBb,[.br (v.bb .projectEntry)]),
      (v.bb .projectEntry,is)] (v.bb .projectEntry) with regQueryResults := rs } ex =
        v.exit ex := by
    intro ex
    cases ex <;> rfl
  refine .of_reaches hentry hto.frame ⟨ex,sh',hcomp.lift (hexit ex) (Nat.le_succ _),
    hhand.of_eq hto.rhsInput hto.trace,fun _ => Shared.Keeps.trans ⟨?_,?_,?_⟩ hk⟩
  all_goals exact hto.kept _ fun _ _ => by simp

structure Entered (env : Env) (fn : Body) (pipe : ℕ) (p : Plan) (opId : ℕ) (j : JoinCtx)
    (v v' : CodegenInlineVisitor) (ts : List ℕ) (t : List QrVal) (hist : List ℕ) (σ : State)
    (sh : Shared) : Prop where
  located : Located fn env.db pipe j p opId v v'
  keys : v.projectKeys = p.projectionKeys
  typed : Typed ts t
  flags : FlagOk p .result sh t
  list : ¬ p.JoinFree → sh.rhsInput j.queryIdInline = p.joinList env opId
  counter : sh.cell .resCounter = .word hist.length
  sim : Sim pipe σ sh
  holds : Holds env σ v.regQueryResults (t.map (QrVal.toReg pipe))

structure SuffixReady (env : Env) (p : Plan) (opId jid : ℕ) (t : List QrVal) (sh : Shared) :
    Prop where
  flags : FlagOk p .result sh t
  list : ¬ p.JoinFree → sh.rhsInput jid = p.joinList env opId

theorem FlagOk.keeps {s : Sink} (h : FlagOk p s sh t) (hk : p.JoinFree → sh.Keeps sh') :
    FlagOk p s sh' t := by
  intro d hd
  obtain ⟨hs,hj,hd⟩ := h d hd
  exact ⟨hs,hj,(hk hj).dangling.trans hd⟩

theorem SuffixReady.kept {jid : ℕ} (h : SuffixReady env p opId jid t sh)
    (hinput : sh'.rhsInput = sh.rhsInput) (hk : p.JoinFree → sh.Keeps sh') :
    SuffixReady env p opId jid t sh' :=
  ⟨h.flags.keeps hk,fun hj => by rw [hinput,h.list hj]⟩

structure Precedes (env : Env) (op inp : Plan) : Prop where
  input : op.input = some inp
  offset : op.nextOffset = 1
  joinFree : op.JoinFree ↔ inp.JoinFree
  keys : op.projectionKeys = inp.projectionKeys
  list : ∀ opId, op.joinList env opId = inp.joinList env (opId+1)

namespace Entered

theorem ready (h : Entered env fn pipe op opId j v v' ts t hist σ sh)
    (hpre : Precedes env op inp) : SuffixReady env inp (opId+1) j.queryIdInline t sh := by
  refine ⟨fun d hd => ?_,fun hj => ?_⟩
  · obtain ⟨hs,hjoin,hd⟩ := h.flags d hd
    exact ⟨hs,hpre.joinFree.1 hjoin,hd⟩
  · rw [h.list fun hjoin => hj (hpre.joinFree.1 hjoin),hpre.list]

theorem next (h : Entered env fn pipe op opId j v v' ts t hist σ sh)
    (hpre : Precedes env op inp) (hinp : inp.Suffix) :
    ∃ v₁, (codegenInlineVisitor env.db).visit op opId v = some v₁ ∧ Extends v₁ v' ∧
      Located fn env.db pipe j inp (opId+1) v₁ v' ∧
      ∀ {us u hist σ sh}, Typed us u → SuffixReady env inp (opId+1) j.queryIdInline u sh →
        sh.cell .resCounter = .word hist.length → Sim pipe σ sh →
        Holds env σ v₁.regQueryResults (u.map (QrVal.toReg pipe)) →
        Entered env fn pipe inp (opId+1) j v₁ v' us u hist σ sh := by
  obtain ⟨v₁,h₁,he,hl₁⟩ := h.located.input hpre.input hinp
  rw [hpre.offset] at hl₁
  have hop : op.isScan = false := by
    cases op with
    | scan => exact absurd h.located.suffix.1 (by simp)
    | _ => rfl
  have hkeys : v₁.projectKeys = inp.projectionKeys := by
    rw [(visit_keeps hop h₁).2.2,h.keys,hpre.keys]
  exact ⟨v₁,h₁,he,hl₁,fun ht hr hc hs hh => ⟨hl₁,hkeys,ht,hr.flags,hr.list,hc,hs,hh⟩⟩

end Entered

/-- Whatever enters the suffix is handled as its events say. -/
def Plan.IsHandled (env : Env) (fn : Body) (pipe : ℕ) (ts : List ℕ) (p : Plan) : Prop :=
  ∀ {opId j v v' t hist σ sh}, Entered env fn pipe p opId j v v' ts t hist σ sh →
    Handled env fn pipe v (p.entryLabel v.visits) p hist (p.events env opId t) σ sh

section Operators

theorem foreachRship_handled {dir : RshipDir} {label : String} (hlast : ts.getLast? = some 0)
    (hinp : inp.Suffix) (ih : inp.IsHandled env fn pipe (ts ++ [1])) :
    (Plan.foreachRship dir (0,0) label inp).IsHandled env fn pipe ts := by
  intro opId j v v' t hist σ sh h
  have hpre : Precedes env (.foreachRship dir (0,0) label inp) inp :=
    ⟨rfl,rfl,Iff.rfl,rfl,fun _ => rfl⟩
  obtain ⟨v₁,h₁,he,hl₁,hnext⟩ := h.next hpre hinp
  obtain ⟨n,hn⟩ := h.typed.lastNode hlast
  obtain ⟨σ₁,hr,hat,hf⟩ :=
    feEntry_reaches h.located h₁ he h.sim h.holds (getLast?_toReg pipe hn)
  have hloop := rships_handled h.located h₁ he hl₁ (env.db.rships_chain dir n)
    (P := fun sh => SuffixReady env inp (opId+1) j.queryIdInline t sh)
    (f := fun r => inp.events env (opId+1) (t ++ [.rship r]))
    (fun _ _ hready hinput hk => hready.kept hinput hk)
    (fun r hist σ sh hready hc hs hh =>
      ih (hnext (h.typed.snoc (.rship r)) ⟨FlagOk.snoc hready.flags (by simp),hready.list⟩ hc hs
        (by rw [List.map_append]; exact hh)))
    (h.ready hpre) h.counter hat
  refine .of_reaches hr hf ?_
  simpa only [Plan.events,Env.traversed,hn,List.flatMap_map] using
    hloop.lift (p := .foreachRship dir (0,0) label inp) (v := v) (fun _ => rfl) le_rfl fun hj => hj

theorem expand_handled {exp : ExpandDir} {label : String} (hlast : ts.getLast? = some 1)
    (hinp : inp.Suffix) (ih : inp.IsHandled env fn pipe (ts ++ [0])) :
    (Plan.expand exp label inp).IsHandled env fn pipe ts := by
  intro opId j v v' t hist σ sh h
  have hpre : Precedes env (.expand exp label inp) inp := ⟨rfl,rfl,Iff.rfl,rfl,fun _ => rfl⟩
  obtain ⟨v₁,h₁,he,hl₁,hnext⟩ := h.next hpre hinp
  obtain ⟨r,hr⟩ := h.typed.lastRship hlast
  obtain ⟨σ₁,hr₁,hs₁,hf₁,ht₁⟩ :=
    expandEntry_reaches h.located h₁ he h.sim h.holds (getLast?_toReg pipe hr)
  by_cases hlabel : label ≠ "" →
      (env.db.nodeById ((env.db.rshipById r).endpoint exp)).nodeLabel =
        env.db.argLabel env.args opId
  · rw [if_pos hlabel] at hr₁
    obtain ⟨rship,_,hv₁⟩ := visitExpand_eq h₁
    have hopen := h.located.open_reaches hl₁ h.located.agrees (σ := σ₁)
      (by rw [hv₁]; rfl) (by rw [hv₁]; rfl)
      (by by_cases hlb : label = "" <;> simp [expandCode,bb,h.located.ok.prevBb_ne,hlb])
    have hready := h.ready hpre
    have hbody := ih (hnext (h.typed.snoc (.node ((env.db.rshipById r).endpoint exp)))
      ⟨FlagOk.snoc hready.flags (by simp),hready.list⟩ h.counter hs₁
      (by rw [List.map_append]; exact ht₁))
    have hevents : (Plan.expand exp label inp).events env opId t =
        inp.events env (opId+1) (t ++ [.node ((env.db.rshipById r).endpoint exp)]) := by
      simp only [Plan.events,Env.expanded,hr]
      rw [if_pos hlabel,List.flatMap_singleton]
    rw [hevents]
    refine .of_reaches (hr₁.trans hopen) hf₁ (hbody.lift (fun ex => ?_) ?_ fun hj => hj)
    · rw [hv₁]
      cases ex <;> rfl
    · exact (visit_extends h₁).visits_le
  · rw [if_neg hlabel] at hr₁
    have hevents : (Plan.expand exp label inp).events env opId t = [] := by
      simp only [Plan.events,Env.expanded,hr]
      rw [if_neg hlabel,List.flatMap_nil]
    rw [hevents]
    exact .of_reaches hr₁ hf₁ ⟨_,_,expandFalse_completes h.located h₁ he hs₁,.nil h.counter,
      fun _ => .refl _⟩

theorem filter_handled {key : String} {c : ℤ} (hi : ts[i]? = some 0) (hinp : inp.Suffix)
    (ih : inp.IsHandled env fn pipe ts) :
    (Plan.filter (.eq (.key i key) (.num c)) inp).IsHandled env fn pipe ts := by
  intro opId j v v' t hist σ sh h
  have hpre : Precedes env (.filter (.eq (.key i key) (.num c)) inp) inp :=
    ⟨rfl,rfl,Iff.rfl,rfl,fun _ => rfl⟩
  obtain ⟨v₁,h₁,he,hl₁,hnext⟩ := h.next hpre hinp
  obtain ⟨n,hn⟩ := h.typed.node hi
  obtain ⟨σ₁,hr₁,hs₁,hf₁⟩ :=
    filterEntry_reaches h.located h₁ he h.sim h.holds (getElem?_toReg pipe hn)
  by_cases heq : (env.db.findProperty n (env.db.getCode key)).map PItem.value =
      some (env.args.word opId)
  · rw [if_pos heq] at hr₁
    obtain ⟨roi,_,hregs,hprev,hret,hcode⟩ := visitFilter_eq h₁
    have hopen := h.located.open_reaches hl₁ h.located.agrees (σ := σ₁) hcode hprev
      (by simp [filterEqCode,FepContext.eqCode,FepContext.keyCode,whileLoopCondition,fepContext,
        bb,FepContext.bb,h.located.ok.prevBb_ne])
    have hbody := ih (hnext h.typed (h.ready hpre) h.counter hs₁
      (by rw [hregs]; exact h.holds.frame h.located.ok.regs hf₁))
    have hevents : (Plan.filter (.eq (.key i key) (.num c)) inp).events env opId t =
        inp.events env (opId+1) t := by
      simp only [Plan.events,Env.filtered,hn]
      rw [if_pos heq,List.flatMap_singleton]
    rw [hevents]
    refine .of_reaches (hr₁.trans hopen) hf₁ (hbody.lift (fun ex => ?_) ?_ fun hj => hj)
    · cases ex with
      | backflow => exact hret
      | limit => exact (h.located.limit_exit h₁).1
    · exact (visit_extends h₁).visits_le
  · rw [if_neg heq] at hr₁
    have hevents : (Plan.filter (.eq (.key i key) (.num c)) inp).events env opId t = [] := by
      simp only [Plan.events,Env.filtered,hn]
      rw [if_neg heq,List.flatMap_nil]
    rw [hevents]
    exact .of_reaches hr₁ hf₁ ⟨_,_,filterFalse_completes h.located h₁ he hs₁,.nil h.counter,
      fun _ => .refl _⟩

theorem sort_handled {cmp : ℕ} (hinp : inp.Suffix) (ih : inp.IsHandled env fn pipe ts) :
    (Plan.sort cmp inp).IsHandled env fn pipe ts := by
  intro opId j v v' t hist σ sh h
  have hpre : Precedes env (.sort cmp inp) inp := ⟨rfl,rfl,Iff.rfl,rfl,fun _ => rfl⟩
  obtain ⟨v₁,h₁,_,_,hnext⟩ := h.next hpre hinp
  obtain rfl := Option.some.inj h₁
  have hbody := ih (hnext h.typed (h.ready hpre) h.counter h.sim h.holds)
  refine hbody.lift (fun ex => ?_) (Nat.le_succ _) fun hj => hj
  cases ex <;> rfl

theorem limit_handled {n : ℤ} (hinp : inp.Suffix) (ih : inp.IsHandled env fn pipe ts) :
    (Plan.limit n inp).IsHandled env fn pipe ts := by
  intro opId j v v' t hist σ sh h
  have hpre : Precedes env (.limit n inp) inp := ⟨rfl,rfl,Iff.rfl,rfl,fun _ => rfl⟩
  obtain ⟨v₁,h₁,he,hl₁,hnext⟩ := h.next hpre hinp
  by_cases hfull : hist.length = limitConst n
  · exact ⟨_,_,limitReached_completes h.located h₁ he h.sim (by rw [h.counter,hfull]),.full hfull,
      fun _ => .refl _⟩
  · have hopen := hl₁.prevBb h.located.agrees
      (by obtain rfl := Option.some.inj h₁; exact le_refl _)
    obtain ⟨σ₁,hr₁,hs₁,hf₁⟩ := limitCont_reaches h.located h₁ he h.sim h.counter hfull hopen
    obtain rfl := Option.some.inj h₁
    have hready : SuffixReady env inp (opId+1) j.queryIdInline t
        (sh.set .resCounter (.word (hist.length+1))) :=
      (h.ready hpre).kept rfl fun _ => Shared.keeps_resCounter _
    have henter : Entered env fn pipe inp (opId+1) j (v.visitLimit n) v' ts t
        (hist ++ [limitConst n]) σ₁ (sh.set .resCounter (.word (hist.length+1))) :=
      hnext h.typed hready (by simp [Shared.set]) hs₁ (h.holds.frame h.located.ok.regs hf₁)
    obtain ⟨ex,sh',hcomp,hh,hk⟩ := ih henter
    refine ⟨ex,sh',.of_reaches hr₁ hf₁ (hcomp.lift ?_ (Nat.le_succ _)),.arrive hfull hh,
      fun hj => (Shared.keeps_resCounter _).trans (hk hj)⟩
    cases ex <;> rfl

theorem Entered.behind {jop : JoinOp}
    (h : Entered env fn pipe (.join jop pos lhs rhs) opId j v v' ts t hist σ sh)
    (hlhs : lhs.JoinFree) :
    ∃ v₁ v₂, (codegenInlineVisitor env.db).visit (.join jop pos lhs rhs) opId v = some v₁ ∧
      Extends v₁ v' ∧ Agrees fn v v₂ ∧ Located fn env.db pipe j.push lhs opId v₁ v₂ ∧
      (∀ d, QrVal.int d ∉ t) ∧
      ∀ {us u hist σ sh}, Typed us u → FlagOk lhs .result sh u →
        sh.cell .resCounter = .word hist.length → Sim pipe σ sh →
        Holds env σ v₁.regQueryResults (u.map (QrVal.toReg pipe)) →
        Entered env fn pipe lhs opId j.push v₁ v₂ us u hist σ sh := by
  obtain ⟨v₁,v₂,h₁,he,ha,hl₁⟩ := h.located.join
  have hkeys : v₁.projectKeys = lhs.projectionKeys := by
    rw [(visit_keeps rfl h₁).2.2,h.keys]
    rfl
  exact ⟨v₁,v₂,h₁,he,ha,hl₁,fun d hd => (h.flags d hd).2.1,
    fun ht hf hc hs hh => ⟨hl₁,hkeys,ht,hf,fun hj => absurd hlhs hj,hc,hs,hh⟩⟩

theorem enterJoin_probing {jid : ℕ} {R : List (List QrVal)} (h : sh.rhsInput jid = R) :
    Probing jid R 0 (sh.enterJoin jid) ∧ (sh.enterJoin jid).cell .dangling = .word 1 ∧
      (sh.enterJoin jid).cell .resCounter = sh.cell .resCounter := by
  refine ⟨⟨h,?_,?_⟩,?_,?_⟩
  all_goals simp [Shared.enterJoin,Shared.set,h]

theorem cross_isHandled (hpath : rhs.AccessPath) (hn : rhs.Nested false) (hlhs : lhs.JoinFree)
    (ih : lhs.IsHandled env fn pipe (ts ++ rhs.rhsType)) :
    (Plan.join .CROSS pos lhs rhs).IsHandled env fn pipe ts := by
  intro opId j v v' t hist σ sh h
  obtain ⟨v₁,v₂,h₁,he,ha,hl₁,hno,hlhsIn⟩ := h.behind hlhs
  have hlist : sh.rhsInput j.queryIdInline = rhs.rows env (lhs.opIdEnd opId) [] := h.list id
  have hR : ∀ r ∈ rhs.rows env (lhs.opIdEnd opId) [], Typed rhs.rhsType r :=
    fun r hr => hn.rows_typed.2 hpath r hr
  obtain ⟨σ₁,hr₁,hs₁,ht₁,hf₁⟩ := entryJoinLhs_reaches h.located h₁ he h.sim h.holds
  obtain ⟨hpr,_,hcounter⟩ := enterJoin_probing hlist
  have hloop := cross_handled h.located h₁ he ha hl₁ hlhs (u := t.map (QrVal.toReg pipe))
    (f := fun r => lhs.events env opId (t ++ r))
    (fun r hr => readRes_toReg (hR r hr) rhs.rhsType_le)
    (fun r hr hist σ sh hc hs hh => by
      refine ih (hlhsIn (List.rel_append h.typed (hR r hr)) (fun d hd => ?_) hc hs
        (by rw [List.map_append]; exact hh))
      rcases List.mem_append.1 hd with hd | hd
      · exact absurd hd (hno d)
      · exact absurd hd ((hR r hr).no_flag rhs.rhsType_le d))
    _ List.drop_zero (Nat.zero_le _) hpr (hcounter.trans h.counter) hs₁ ht₁
  obtain ⟨ex,sh',hcomp,hh,_⟩ := hloop
  exact ⟨ex,sh',.of_reaches hr₁ hf₁ hcomp,hh.of_eq rfl rfl,fun hj => absurd hj id⟩

theorem leftOuter_isHandled (hlhsType : ts[pos.1]? = some 0) (hrhs : rhs.rhsType[pos.2]? = some 0)
    (hpath : rhs.AccessPath) (hn : rhs.Nested false) (hlhs : lhs.JoinFree)
    (ih : lhs.IsHandled env fn pipe (ts ++ rhs.rhsType ++ [7])) :
    (Plan.join .LEFT_OUTER pos lhs rhs).IsHandled env fn pipe ts := by
  intro opId j v v' t hist σ sh h
  obtain ⟨v₁,v₂,h₁,he,ha,hl₁,hno,hlhsIn⟩ := h.behind hlhs
  have hlist : sh.rhsInput j.queryIdInline = rhs.rows env (lhs.opIdEnd opId) [] := h.list id
  have hR : ∀ r ∈ rhs.rows env (lhs.opIdEnd opId) [], Typed rhs.rhsType r :=
    fun r hr => hn.rows_typed.2 hpath r hr
  obtain ⟨n,hnode⟩ := h.typed.node hlhsType
  obtain ⟨σ₁,hr₁,hs₁,ht₁,hf₁⟩ := entryJoinLhs_reaches h.located h₁ he h.sim h.holds
  obtain ⟨hpr,hdang,hcounter⟩ := enterJoin_probing hlist
  have hloop := left_handled h.located h₁ he ha hl₁ hlhs
    (f := fun u => lhs.events env opId u) hnode hrhs hR
    (fun r hr d hist σ sh hd hc hs hh => by
      have htype : Typed (ts ++ rhs.rhsType ++ [7]) (t ++ r ++ [.int d]) :=
        List.rel_append (List.rel_append h.typed (hR r hr)) (.cons (.flag d) .nil)
      refine ih (hlhsIn htype (fun d' hd' => ?_) hc hs (by simpa [QrVal.toReg] using hh))
      simp only [List.mem_append,List.mem_singleton] at hd'
      rcases hd' with (hd' | hd') | hd'
      · exact absurd hd' (hno d')
      · exact absurd hd' ((hR r hr).no_flag rhs.rhsType_le d')
      · obtain rfl := QrVal.int.inj hd'
        exact ⟨rfl,hlhs,hd⟩)
    _ List.drop_zero (Nat.zero_le _) hpr hdang (hcounter.trans h.counter) hs₁ ht₁
  obtain ⟨ex,sh',hcomp,hh,_⟩ := hloop
  refine ⟨ex,sh',.of_reaches hr₁ hf₁ hcomp,?_,fun hj => absurd hj id⟩
  simp only [Plan.events,hnode]
  exact hh.of_eq rfl rfl

end Operators

theorem Plan.Query.isHandled (hq : Plan.Query ts p) : p.IsHandled env fn pipe ts := by
  induction hq with
  | foreachRship hlast hinp ih => exact foreachRship_handled hlast hinp.suffix ih
  | expand hlast hinp ih => exact expand_handled hlast hinp.suffix ih
  | filter hi hinp ih => exact filter_handled hi hinp.suffix ih
  | limit hinp ih => exact limit_handled hinp.suffix ih
  | sort hinp ih => exact sort_handled hinp.suffix ih
  | cross hpath hn hlhs _ ih => exact cross_isHandled hpath hn hlhs ih
  | leftOuter hpos hrhs hpath hn hlhs _ ih =>
    exact leftOuter_isHandled hpos hrhs hpath hn hlhs ih
  | project hp htail =>
    intro opId j v v' t hist σ sh h
    exact project_handled h.located h.keys hp htail h.typed (fun d hd => (h.flags d hd).2.2) h.sim
      h.holds h.counter
  | collect =>
    intro opId j v v' t hist σ sh h
    exact ⟨_,_,collect_completes h.located h.sim h.holds (row_toReg h.typed h.flags),
      .row h.counter,fun _ => ⟨rfl,rfl,rfl⟩⟩

end GraphQueryCompiler
