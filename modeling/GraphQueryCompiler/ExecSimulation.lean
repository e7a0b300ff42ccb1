import GraphQueryCompiler.OperatorSimulation
import GraphQueryCompiler.FilterSimulation
import GraphQueryCompiler.JoinSimulation

/-!
# The emitted code simulates structured execution

The induction is on the derivation of the structured execution. The visitor state is
universally quantified in its hypotheses, since an operator after a join or a traversal is
located behind a later state than the operator itself.
-/

namespace GraphQueryCompiler
open StepMachine CodegenInlineVisitor

variable {env : Env} {fn : Body} {pipe : ℕ} {σ : State} {sh sh' : Shared} {ex : Exit}
  {j j₁ : JoinCtx} {op inp : Plan} {opId opId₁ : ℕ} {v v₁ v₂ v' : CodegenInlineVisitor}

theorem Located.open_reaches (hl : Located fn env.db pipe j op opId v v')
    (hl₁ : Located fn env.db pipe j₁ inp opId₁ v₁ v₂) (ha : Agrees fn v v₂) {code : Code}
    {name : BlockName} (hcode : v₁.code = v.code ++ code) (hprev : v₁.prevBb = v.bb name)
    (hnil : code.body (v.bb name) = []) :
    Reaches (fn.step env) (.at (v.bb name) σ) (.at (inp.entryLabel v₁.visits) σ) := by
  have hopen := hl₁.prevBb ha (by rw [hprev]; exact le_refl _)
  rw [hprev,hcode,hl.ok.body_own,hnil] at hopen
  exact reaches_block hopen rfl

theorem Completes.lift {l : Label} (hexit : v₁.exit ex = v.exit ex) (hle : v.visits ≤ v₁.visits)
    (h : Completes env fn pipe v₁ l σ ex sh') : Completes env fn pipe v l σ ex sh' := by
  obtain ⟨σ',hr,hs,hf⟩ := h
  exact ⟨σ',hexit ▸ hr,hs,hf.mono hle⟩

theorem rships_reaches_input {dir : RshipDir} {label : String} {code i : ℕ} {t : Tuple}
    (hl : Located fn env.db pipe j (.foreachRship dir (0,0) label inp) opId v v')
    (h₁ : (codegenInlineVisitor env.db).visit (.foreachRship dir (0,0) label inp) opId v =
      some v₁) (he : Extends v₁ v') (hl₁ : Located fn env.db pipe j inp opId₁ v₁ v')
    (h : AtRships env pipe v code i t sh σ) (hi : IsId i)
    (hcode : (env.db.rshipById i).rshipLabel = code) :
    ∃ σ₁, Reaches (fn.step env) (.at (v.bb (.whileCondition 0)) σ)
        (.at (inp.entryLabel v₁.visits) σ₁) ∧
      AtRships env pipe v code i t sh σ₁ ∧ σ₁.reg (v.reg .rship) = .rship i ∧
      Frame v.visits pipe σ σ₁ ∧ Holds env σ₁ v₁.regQueryResults (t ++ [(.rship i,1)]) := by
  obtain ⟨σ₁,hr₁,hat₁,hrship,hf₁⟩ := rships_reaches_check hl h₁ he h hi
  rw [if_pos hcode] at hr₁
  obtain ⟨node,_,hv₁⟩ := visitForeachRship_eq h₁
  have hopen := hl.open_reaches hl₁ hl.agrees (σ := σ₁)
    (by rw [hv₁]; rfl) (by rw [hv₁]; rfl)
    (by simp [foreachRshipCode,whileLoopCondition,bb,hl.ok.prevBb_ne])
  refine ⟨σ₁,hr₁.trans hopen,hat₁,hrship,hf₁,?_⟩
  rw [hv₁]
  exact hat₁.holds.concat hrship

section Join
variable {jop : JoinOp} {pos : ℕ × ℕ} {lhs rhs : Plan} {t u : Tuple} {r : List QrVal}

theorem consume_reaches (hl : Located fn env.db pipe j (.join jop pos lhs rhs) opId v v')
    (h₁ : (codegenInlineVisitor env.db).visit (.join jop pos lhs rhs) opId v = some v₁)
    (ha : Agrees fn v v₂) (hl₁ : Located fn env.db pipe j₁ lhs opId v₁ v₂) :
    Reaches (fn.step env) (.at (v.bb .consume) σ) (.at (lhs.entryLabel v₁.visits) σ) := by
  obtain ⟨code,hloop,hcode,hprev,_⟩ := visitJoin_eq h₁
  refine hl.open_reaches hl₁ ha hcode hprev ?_
  rw [Code.body_append,bb,joinLoopCode_body hloop (by simp)]
  simp [joinCode,whileLoopCondition,bb,hl.ok.prevBb_ne]

theorem probeCross_reaches_input {cur max : ℕ}
    (hl : Located fn env.db pipe j (.join .CROSS pos lhs rhs) opId v v')
    (h₁ : (codegenInlineVisitor env.db).visit (.join .CROSS pos lhs rhs) opId v = some v₁)
    (he : Extends v₁ v') (ha : Agrees fn v v₂)
    (hl₁ : Located fn env.db pipe j₁ lhs opId v₁ v₂) (hs : Sim pipe σ sh)
    (ht : Holds env σ v.regQueryResults t)
    (hcur : sh.cell .curIdx = .word cur) (hmax : sh.cell .maxIdx = .word max) (hlt : cur < max)
    (hr : (sh.rhsInput j.queryIdInline)[cur]? = some r) (hu : readRes rhs.rhsType r = some u) :
    ∃ σ₁, Reaches (fn.step env) (.at (v.bb (.whileCondition 0)) σ)
        (.at (lhs.entryLabel v₁.visits) σ₁) ∧
      Sim pipe σ₁ (sh.set .curIdx (.word (cur+1))) ∧ Frame v.visits pipe σ σ₁ ∧
      Holds env σ₁ v₁.regQueryResults (t ++ u) := by
  obtain ⟨σ₁,hr₁,hs₁,hf₁,ht₁⟩ := crossBody_reaches hl h₁ he hs ht hcur hmax hlt hr hu
  exact ⟨σ₁,hr₁.trans (consume_reaches hl h₁ ha hl₁),hs₁,hf₁,ht₁⟩

variable (hl : Located fn env.db pipe j (.join .LEFT_OUTER pos lhs rhs) opId v v')
  (h₁ : (codegenInlineVisitor env.db).visit (.join .LEFT_OUTER pos lhs rhs) opId v = some v₁)
  (he : Extends v₁ v') (ha : Agrees fn v v₂)
  (hl₁ : Located fn env.db pipe j₁ lhs opId v₁ v₂)
include hl h₁ he ha hl₁

theorem leftHit_reaches_input {b i : ℕ} (h : AtLeft env pipe v r b i t sh σ) (hi : IsId i)
    (hd : (env.db.rshipById i).destNode = b) (hu : readRes rhs.rhsType r = some u) :
    ∃ σ₁, Reaches (fn.step env) (.at (v.bb (.whileCondition 1)) σ)
        (.at (lhs.entryLabel v₁.visits) σ₁) ∧
      AtLeft env pipe v r b i t (sh.set .dangling (.word 0)) σ₁ ∧
      σ₁.cell ⟨v.visits,.ra⟩ = .rship i ∧ Frame v.visits pipe σ σ₁ ∧
      Holds env σ₁ v₁.regQueryResults (t ++ u ++ [(.cell ⟨pipe,.dangling⟩,7)]) := by
  obtain ⟨σ₁,hr₁,hat₁,hra₁,hf₁⟩ := leftBody_reaches hl h₁ he h hi
  rw [if_pos hd.symm] at hr₁
  obtain ⟨σ₂,hr₂,hat₂,hra₂,hf₂⟩ := undang_reaches hl h₁ he hat₁
  obtain ⟨σ₃,hr₃,hat₃,hcell₃,hf₃,ht₃⟩ := leftConcat_reaches hl h₁ he hat₂ hu
  exact ⟨σ₃,((hr₁.trans hr₂).trans hr₃).trans (consume_reaches hl h₁ ha hl₁),hat₃,
    by rw [hcell₃,hra₂,hra₁],(hf₁.trans hf₂).trans hf₃,ht₃⟩

theorem leftDangling_reaches_input {b cur : ℕ} (h : AtLeft env pipe v r b unknownId t sh σ)
    (hcur : sh.cell .curIdx = .word cur) (hd : sh.cell .dangling = .word 1)
    (hu : readRes rhs.rhsType r = some u) :
    ∃ σ₁, Reaches (fn.step env) (.at (v.bb (.whileCondition 1)) σ)
        (.at (lhs.entryLabel v₁.visits) σ₁) ∧
      AtLeft env pipe v r b unknownId t (sh.set .curIdx (.word (cur+1))) σ₁ ∧
      Frame v.visits pipe σ σ₁ ∧
      Holds env σ₁ v₁.regQueryResults (t ++ u ++ [(.cell ⟨pipe,.dangling⟩,7)]) := by
  obtain ⟨σ₁,hr₁,hat₁,hf₁⟩ := incrLoop_reaches hl h₁ he h hcur hd
  rw [if_pos rfl] at hr₁
  obtain ⟨σ₂,hr₂,hat₂,_,hf₂,ht₂⟩ := leftConcat_reaches hl h₁ he hat₁ hu
  exact ⟨σ₂,(hr₁.trans hr₂).trans (consume_reaches hl h₁ ha hl₁),hat₂,hf₁.trans hf₂,ht₂⟩

omit ha hl₁ in
theorem handleRet_returns {b i : ℕ} {sh₁ : Shared}
    (h : AtLeft env pipe v r b i t sh σ)
    (hc : Completes env fn pipe v₁ (lhs.entryLabel v₁.visits) σ .backflow sh₁) :
    ∃ σ₁, Reaches (fn.step env) (.at (lhs.entryLabel v₁.visits) σ)
        (.at (v.bb (if i < unknownId then .forEachNextRship else .whileCondition 0)) σ₁) ∧
      AtLeft env pipe v r b i t sh₁ σ₁ ∧
      σ₁.cell ⟨v.visits,.ra⟩ = σ.cell ⟨v.visits,.ra⟩ ∧ Frame v.visits pipe σ σ₁ := by
  obtain ⟨_,_,_,_,hret,_,hvisits⟩ := visitJoin_eq h₁
  obtain ⟨σ₁,hr₁,hs₁,hf₁⟩ := hc
  rw [hvisits] at hf₁
  have hexit : v₁.exit .backflow = v.bb .handleRet := hret
  rw [hexit] at hr₁
  obtain ⟨hat₁,hra₁⟩ := h.frame hl.ok.regs hl.pipe_lt hs₁ hf₁
  obtain ⟨σ₂,hr₂,hat₂,hra₂,hf₂⟩ := handleRet_reaches hl h₁ he hat₁
  exact ⟨σ₂,hr₁.trans hr₂,hat₂,hra₂.trans hra₁,(hf₁.mono (Nat.le_succ _)).trans hf₂⟩

end Join

/-- The blocks that run a point of the structured execution. -/
def Simulates (env : Env) (fn : Body) (pipe : ℕ) (sh : Shared) (ex : Exit) (sh' : Shared) :
    Point → Prop
  | .run p opId j t => ∀ v v' σ, Located fn env.db pipe j p opId v v' → Sim pipe σ sh →
      Holds env σ v.regQueryResults t →
      Completes env fn pipe v (p.entryLabel v.visits) σ ex sh'
  | .rships dir code i p opId j t => ∀ v v' label opId₀ σ, opId = opId₀+1 →
      Located fn env.db pipe j (.foreachRship dir (0,0) label p) opId₀ v v' →
      AtRships env pipe v code i t sh σ →
      Completes env fn pipe v (v.bb (.whileCondition 0)) σ ex sh'
  | .probe jop pos jid types p opId j t => ∀ v v' rhs j₀ σ, types = Plan.rhsType rhs →
      jid = JoinCtx.queryIdInline j₀ → j = j₀.push →
      Located fn env.db pipe j₀ (.join jop pos p rhs) opId v v' → Sim pipe σ sh →
      Holds env σ v.regQueryResults t →
      Completes env fn pipe v (v.bb (.whileCondition 0)) σ ex sh'
  | .leftRships pos jid types r b i p opId j t => ∀ v v' rhs j₀ σ, types = Plan.rhsType rhs →
      jid = JoinCtx.queryIdInline j₀ → j = j₀.push →
      Located fn env.db pipe j₀ (.join .LEFT_OUTER pos p rhs) opId v v' →
      AtLeft env pipe v r b i t sh σ →
      Completes env fn pipe v (v.bb (.whileCondition 1)) σ ex sh'

theorem Exec.simulates {pt : Point} (h : Exec env pipe pt sh ex sh') :
    Simulates env fn pipe sh ex sh' pt := by
  induction h with
  | @foreachRship dir label inp opId n type j t sh sh' ex hlast _ ih =>
    intro v v' σ hl hs ht
    obtain ⟨v₁,h₁,he,_⟩ := hl.input rfl hl.suffix.2
    obtain ⟨σ₁,hr,hat,hf⟩ := feEntry_reaches hl h₁ he hs ht hlast
    exact .of_reaches hr hf (ih v v' label opId σ₁ rfl hl hat)
  | rshipsDone =>
    rintro v v' label opId₀ σ rfl hl hat
    obtain ⟨v₁,h₁,he,_⟩ := hl.input rfl hl.suffix.2
    exact foreachRelEnd_completes hl h₁ he hat
  | rshipsSkip hi hcode _ ih =>
    rintro v v' label opId₀ σ rfl hl hat
    obtain ⟨v₁,h₁,he,_⟩ := hl.input rfl hl.suffix.2
    obtain ⟨σ₁,hr₁,hat₁,hrship,hf₁⟩ := rships_reaches_check hl h₁ he hat hi
    rw [if_neg hcode] at hr₁
    obtain ⟨σ₂,hr₂,hat₂,hf₂⟩ := nextRship_reaches hl h₁ he hat₁.sim hat₁.holds hat₁.labelCode hrship
    exact .of_reaches (hr₁.trans hr₂) (hf₁.trans hf₂) (ih v v' label opId₀ σ₂ rfl hl hat₂)
  | @rshipsHit dir code i opId p j t sh sh₁ sh' ex hi hcode _ _ ih₁ ih₂ =>
    rintro v v' label opId₀ σ rfl hl hat
    obtain ⟨v₁,h₁,he,hl₁⟩ := hl.input rfl hl.suffix.2
    obtain ⟨σ₁,hr₁,hat₁,hrship,hf₁,ht₁⟩ := rships_reaches_input hl h₁ he hl₁ hat hi hcode
    obtain ⟨σ₂,hr₂,hs₂,hf₂⟩ := ih₁ v₁ v' σ₁ hl₁ hat₁.sim ht₁
    obtain ⟨node,_,hv₁⟩ := visitForeachRship_eq h₁
    have hret : v₁.exit .backflow = v.bb .nextRship := by rw [hv₁]; rfl
    have hvisits : v₁.visits = v.visits+1 := by rw [hv₁]; rfl
    rw [hret] at hr₂
    rw [hvisits] at hf₂
    have hreg : ∀ name, σ₂.reg ⟨v.visits,name⟩ = σ₁.reg ⟨v.visits,name⟩ :=
      fun name => hf₂.reg _ (Nat.lt_succ_self _)
    have hf₂' := hf₂.mono (Nat.le_succ v.visits)
    obtain ⟨σ₃,hr₃,hat₃,hf₃⟩ := nextRship_reaches hl h₁ he hs₂ (hat₁.holds.frame hl.ok.regs hf₂')
      ((hreg _).trans hat₁.labelCode) ((hreg _).trans hrship)
    exact .of_reaches ((hr₁.trans hr₂).trans hr₃) ((hf₁.trans hf₂').trans hf₃)
      (ih₂ v v' label opId₀ σ₃ rfl hl hat₃)
  | @rshipsExit dir code i opId p j t sh sh' hi hcode _ ih =>
    rintro v v' label opId₀ σ rfl hl hat
    obtain ⟨v₁,h₁,he,hl₁⟩ := hl.input rfl hl.suffix.2
    obtain ⟨σ₁,hr₁,hat₁,_,hf₁,ht₁⟩ := rships_reaches_input hl h₁ he hl₁ hat hi hcode
    obtain ⟨node,_,hv₁⟩ := visitForeachRship_eq h₁
    exact .of_reaches hr₁ hf₁ ((ih v₁ v' σ₁ hl₁ hat₁.sim ht₁).lift (by rw [hv₁]; rfl)
      (visit_extends h₁).visits_le)
  | @expand exp label inp opId r type j t sh sh' ex hlast hlabel _ ih =>
    intro v v' σ hl hs ht
    obtain ⟨v₁,h₁,he,hl₁⟩ := hl.input rfl hl.suffix.2
    obtain ⟨σ₁,hr₁,hs₁,hf₁,ht₁⟩ := expandEntry_reaches hl h₁ he hs ht hlast
    rw [if_pos hlabel] at hr₁
    obtain ⟨rship,_,hv₁⟩ := visitExpand_eq h₁
    have hopen := hl.open_reaches hl₁ hl.agrees (σ := σ₁)
      (by rw [hv₁]; rfl) (by rw [hv₁]; rfl)
      (by by_cases hlb : label = "" <;> simp [expandCode,bb,hl.ok.prevBb_ne,hlb])
    exact .of_reaches (hr₁.trans hopen) hf₁ ((ih v₁ v' σ₁ hl₁ hs₁ ht₁).lift
      (by rw [hv₁]; cases ex <;> rfl) (visit_extends h₁).visits_le)
  | @expandFalse exp label inp opId r type j t sh hlast hlabel hne =>
    intro v v' σ hl hs ht
    obtain ⟨v₁,h₁,he,_⟩ := hl.input rfl hl.suffix.2
    obtain ⟨σ₁,hr₁,hs₁,hf₁,_⟩ := expandEntry_reaches hl h₁ he hs ht hlast
    rw [if_neg (fun h => hne (h hlabel))] at hr₁
    exact .of_reaches hr₁ hf₁ (expandFalse_completes hl h₁ he hs₁)
  | @filter i key c inp opId n type j t sh sh' ex hn heq _ ih =>
    intro v v' σ hl hs ht
    obtain ⟨v₁,h₁,he,hl₁⟩ := hl.input rfl hl.suffix.2
    obtain ⟨σ₁,hr₁,hs₁,hf₁⟩ := filterEntry_reaches hl h₁ he hs ht hn
    rw [if_pos heq] at hr₁
    obtain ⟨roi,_,hregs,hprev,hret,hcode⟩ := visitFilter_eq h₁
    have hopen := hl.open_reaches hl₁ hl.agrees (σ := σ₁) hcode hprev
      (by simp [filterEqCode,FepContext.eqCode,FepContext.keyCode,whileLoopCondition,fepContext,
        bb,FepContext.bb,hl.ok.prevBb_ne])
    have hexit : v₁.exit ex = v.exit ex := by
      cases ex with
      | backflow => exact hret
      | limit => exact (visit_keeps h₁ hl.suffix).2.1
    exact .of_reaches (hr₁.trans hopen) hf₁ ((ih v₁ v' σ₁ hl₁ hs₁
      (by rw [hregs]; exact ht.frame hl.ok.regs hf₁)).lift hexit (visit_extends h₁).visits_le)
  | @filterFalse i key c inp opId n type j t sh hn hne =>
    intro v v' σ hl hs ht
    obtain ⟨v₁,h₁,he,_⟩ := hl.input rfl hl.suffix.2
    obtain ⟨σ₁,hr₁,hs₁,hf₁⟩ := filterEntry_reaches hl h₁ he hs ht hn
    rw [if_neg hne] at hr₁
    exact .of_reaches hr₁ hf₁ (filterFalse_completes hl h₁ he hs₁)
  | @sort cmp inp opId j t sh sh' ex _ ih =>
    intro v v' σ hl hs ht
    obtain ⟨v₁,h₁,he,hl₁⟩ := hl.input rfl hl.suffix.2
    obtain rfl := Option.some.inj h₁
    exact (ih _ v' σ hl₁ hs ht).lift (by cases ex <;> rfl) (Nat.le_succ _)
  | @limitReached n inp opId j t sh hc =>
    intro v v' σ hl hs ht
    obtain ⟨v₁,h₁,he,_⟩ := hl.input rfl hl.suffix.2
    exact limitReached_completes hl h₁ he hs hc
  | @limit n inp opId c j t sh sh' ex hc hne _ ih =>
    intro v v' σ hl hs ht
    obtain ⟨v₁,h₁,he,hl₁⟩ := hl.input rfl hl.suffix.2
    have hopen := hl₁.prevBb hl.agrees
      (by obtain rfl := Option.some.inj h₁; exact le_refl _)
    obtain ⟨σ₁,hr₁,hs₁,hf₁⟩ := limitCont_reaches hl h₁ he hs hc hne hopen
    obtain rfl := Option.some.inj h₁
    exact .of_reaches hr₁ hf₁ ((ih _ v' σ₁ hl₁ hs₁ (ht.frame hl.ok.regs hf₁)).lift
      (by cases ex <;> rfl) (Nat.le_succ _))
  | @join jop pos lhs rhs opId j t sh sh' ex _ ih =>
    intro v v' σ hl hs ht
    obtain ⟨v₁,_,h₁,he,_,_⟩ := hl.join
    obtain ⟨σ₁,hr₁,hs₁,ht₁,hf₁⟩ := entryJoinLhs_reaches hl h₁ he hs ht
    exact .of_reaches hr₁ hf₁ (ih v v' rhs j σ₁ rfl rfl rfl hl hs₁ ht₁)
  | @probeDone jop pos jid opId cur max types p j t sh hcur hmax hle =>
    rintro v v' rhs j₀ σ rfl rfl rfl hl hs ht
    obtain ⟨v₁,_,h₁,he,_,_⟩ := hl.join
    exact endJoin_completes hl h₁ he hs hcur hmax hle
  | @probeCross pos jid opId cur max types p j t u r sh sh₁ sh' ex hcur hmax hlt hr hu _ _ ih₁
      ih₂ =>
    rintro v v' rhs j₀ σ rfl rfl rfl hl hs ht
    obtain ⟨v₁,v₂,h₁,he,ha,hl₁⟩ := hl.join
    obtain ⟨_,_,_,_,hret,_,_⟩ := visitJoin_eq h₁
    obtain ⟨σ₁,hr₁,hs₁,hf₁,ht₁⟩ :=
      probeCross_reaches_input hl h₁ he ha hl₁ hs ht hcur hmax hlt hr hu
    obtain ⟨σ₂,hr₂,hs₂,hf₂⟩ := ih₁ v₁ v₂ σ₁ hl₁ hs₁ ht₁
    have hexit : v₁.exit .backflow = v.bb (.whileCondition 0) := hret
    rw [hexit] at hr₂
    have hf₂' := hf₁.trans (hf₂.mono (visit_extends h₁).visits_le)
    exact .of_reaches (hr₁.trans hr₂) hf₂'
      (ih₂ v v' rhs j₀ σ₂ rfl rfl rfl hl hs₂ (ht.frame hl.ok.regs hf₂'))
  | @probeCrossExit pos jid opId cur max types p j t u r sh sh' hcur hmax hlt hr hu _ ih =>
    rintro v v' rhs j₀ σ rfl rfl rfl hl hs ht
    obtain ⟨v₁,v₂,h₁,he,ha,hl₁⟩ := hl.join
    obtain ⟨σ₁,hr₁,hs₁,hf₁,ht₁⟩ :=
      probeCross_reaches_input hl h₁ he ha hl₁ hs ht hcur hmax hlt hr hu
    exact .of_reaches hr₁ hf₁ ((ih v₁ v₂ σ₁ hl₁ hs₁ ht₁).lift
      (visit_keeps h₁ hl.suffix).2.1 (visit_extends h₁).visits_le)
  | @probeLeft pos jid opId cur max n b type types p j t r sh sh' ex hcur hmax hlt hr hb hn _ ih =>
    rintro v v' rhs j₀ σ rfl rfl rfl hl hs ht
    obtain ⟨v₁,_,h₁,he,_,_⟩ := hl.join
    obtain ⟨σ₁,hr₁,hs₁,ht₁,hf₁,htp⟩ := probeBody_reaches hl h₁ he hs ht hcur hmax hlt hr rfl
    obtain ⟨σ₂,hr₂,hat₂,hf₂⟩ := leftOuter_reaches hl h₁ he hs₁ ht₁ htp hb hn
    exact .of_reaches (hr₁.trans hr₂) (hf₁.trans hf₂) (ih v v' rhs j₀ σ₂ rfl rfl rfl hl hat₂)
  | @leftSkip pos jid opId i b types p j t r sh sh' ex hi hne _ ih =>
    rintro v v' rhs j₀ σ rfl rfl rfl hl hat
    obtain ⟨v₁,_,h₁,he,_,_⟩ := hl.join
    obtain ⟨σ₁,hr₁,hat₁,hra,hf₁⟩ := leftBody_reaches hl h₁ he hat hi
    rw [if_neg (Ne.symm hne)] at hr₁
    obtain ⟨σ₂,hr₂,hat₂,hf₂⟩ :=
      forEachNextRship_reaches hl h₁ he hat₁.sim hat₁.holds hat₁.tp hat₁.rhsId hra
    exact .of_reaches (hr₁.trans hr₂) (hf₁.trans hf₂) (ih v v' rhs j₀ σ₂ rfl rfl rfl hl hat₂)
  | @leftHit pos jid opId i b types p j t u r sh sh₁ sh' ex hi hd hu _ _ ih₁ ih₂ =>
    rintro v v' rhs j₀ σ rfl rfl rfl hl hat
    obtain ⟨v₁,v₂,h₁,he,ha,hl₁⟩ := hl.join
    obtain ⟨σ₁,hr₁,hat₁,hra₁,hf₁,ht₁⟩ := leftHit_reaches_input hl h₁ he ha hl₁ hat hi hd hu
    obtain ⟨σ₂,hr₂,hat₂,hra₂,hf₂⟩ :=
      handleRet_returns hl h₁ he hat₁ (ih₁ v₁ v₂ σ₁ hl₁ hat₁.sim ht₁)
    rw [if_pos (by unfold IsId at hi; simp only [unknownId,unknownRelId] at *; omega)] at hr₂
    obtain ⟨σ₃,hr₃,hat₃,hf₃⟩ := forEachNextRship_reaches hl h₁ he hat₂.sim hat₂.holds hat₂.tp
      hat₂.rhsId (hra₂.trans hra₁)
    exact .of_reaches ((hr₁.trans hr₂).trans hr₃) ((hf₁.trans hf₂).trans hf₃)
      (ih₂ v v' rhs j₀ σ₃ rfl rfl rfl hl hat₃)
  | @leftHitExit pos jid opId i b types p j t u r sh sh' hi hd hu _ ih =>
    rintro v v' rhs j₀ σ rfl rfl rfl hl hat
    obtain ⟨v₁,v₂,h₁,he,ha,hl₁⟩ := hl.join
    obtain ⟨σ₁,hr₁,hat₁,_,hf₁,ht₁⟩ := leftHit_reaches_input hl h₁ he ha hl₁ hat hi hd hu
    exact .of_reaches hr₁ hf₁ ((ih v₁ v₂ σ₁ hl₁ hat₁.sim ht₁).lift
      (visit_keeps h₁ hl.suffix).2.1 (visit_extends h₁).visits_le)
  | @leftDangling pos jid opId b cur types p j t u r sh sh₁ sh' ex hcur hd hu _ _ ih₁ ih₂ =>
    rintro v v' rhs j₀ σ rfl rfl rfl hl hat
    obtain ⟨v₁,v₂,h₁,he,ha,hl₁⟩ := hl.join
    obtain ⟨σ₁,hr₁,hat₁,hf₁,ht₁⟩ := leftDangling_reaches_input hl h₁ he ha hl₁ hat hcur hd hu
    obtain ⟨σ₂,hr₂,hat₂,_,hf₂⟩ :=
      handleRet_returns hl h₁ he hat₁ (ih₁ v₁ v₂ σ₁ hl₁ hat₁.sim ht₁)
    rw [if_neg (lt_irrefl _)] at hr₂
    exact .of_reaches (hr₁.trans hr₂) (hf₁.trans hf₂)
      (ih₂ v v' rhs j₀ σ₂ rfl rfl rfl hl hat₂.sim hat₂.holds)
  | @leftDanglingExit pos jid opId b cur types p j t u r sh sh' hcur hd hu _ ih =>
    rintro v v' rhs j₀ σ rfl rfl rfl hl hat
    obtain ⟨v₁,v₂,h₁,he,ha,hl₁⟩ := hl.join
    obtain ⟨σ₁,hr₁,hat₁,hf₁,ht₁⟩ := leftDangling_reaches_input hl h₁ he ha hl₁ hat hcur hd hu
    exact .of_reaches hr₁ hf₁ ((ih v₁ v₂ σ₁ hl₁ hat₁.sim ht₁).lift
      (visit_keeps h₁ hl.suffix).2.1 (visit_extends h₁).visits_le)
  | @leftDone pos jid opId b cur d types p j t r sh sh' ex hcur hd hne _ ih =>
    rintro v v' rhs j₀ σ rfl rfl rfl hl hat
    obtain ⟨v₁,_,h₁,he,_,_⟩ := hl.join
    obtain ⟨σ₁,hr₁,hat₁,hf₁⟩ := incrLoop_reaches hl h₁ he hat hcur hd
    rw [if_neg hne] at hr₁
    exact .of_reaches hr₁ hf₁ (ih v v' rhs j₀ σ₁ rfl rfl rfl hl hat₁.sim hat₁.holds)
  | collect hq =>
    intro v v' σ hl hs ht
    exact collect_completes hl hs ht hq
  | endOp hj hq =>
    intro v v' σ hl hs ht
    exact endOp_completes hl hs ht hj hq

end GraphQueryCompiler
