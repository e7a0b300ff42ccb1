import GraphQueryCompiler.ProjectSimulation

/-!
# The loops of a query

What the code of a suffix hands over for one tuple is a stream of events, cut where a limit is
full. A loop puts the streams of its tuples one behind the other.
-/

namespace GraphQueryCompiler
open StepMachine CodegenInlineVisitor LinkedChain
open LimitedStream (rows arrivals stops shared)

variable {env : Env} {fn : Body} {pipe i opId n : ℕ} {ts : List ℕ} {t : List QrVal} {σ σ₁ : State}
  {sh sh₁ sh' : Shared} {ex : Exit} {j j₁ : JoinCtx} {p inp lhs rhs : Plan} {pos : ℕ × ℕ}
  {v v₁ v₂ v' : CodegenInlineVisitor} {hist : List ℕ} {es es' : List TupleEvent} {l : Label}

namespace Shared

structure Keeps (sh sh' : Shared) : Prop where
  curIdx : sh'.cell .curIdx = sh.cell .curIdx
  maxIdx : sh'.cell .maxIdx = sh.cell .maxIdx
  dangling : sh'.cell .dangling = sh.cell .dangling

theorem Keeps.refl (sh : Shared) : sh.Keeps sh := ⟨rfl,rfl,rfl⟩

theorem Keeps.trans (h : sh.Keeps sh₁) (h' : sh₁.Keeps sh') : sh.Keeps sh' :=
  ⟨h'.curIdx.trans h.curIdx,h'.maxIdx.trans h.maxIdx,h'.dangling.trans h.dangling⟩

theorem keeps_resCounter (x : Val) : sh.Keeps (sh.set .resCounter x) := ⟨rfl,rfl,rfl⟩

namespace Handles
variable {bound : ℕ → ℕ}

theorem of_eq (h : sh₁.Handles bound hist es ex sh') (hinput : sh₁.rhsInput = sh.rhsInput)
    (htrace : sh₁.trace = sh.trace) : sh.Handles bound hist es ex sh' :=
  ⟨h.exit,by rw [h.trace,htrace],h.rhsInput.trans hinput,h.counter⟩

theorem full (h : hist.length = n) : sh.Handles id hist (.arrive n :: es) .limit sh := by
  have hfull : shared id hist n := h
  refine ⟨?_,?_,rfl,fun hno => ?_⟩
  · rw [stops,if_pos hfull,if_pos rfl]
  · rw [LimitedStream.run,if_pos hfull]
    simp
  · rw [stops,if_pos hfull] at hno
    cases hno

theorem arrive (hne : hist.length ≠ n)
    (h : (sh.set .resCounter (.word (hist.length+1))).Handles id (hist ++ [n]) es ex sh') :
    sh.Handles id hist (.arrive n :: es) ex sh' := by
  have hfull : ¬ shared id hist n := hne
  obtain ⟨hexit,htrace,hinput,hcounter⟩ := h
  refine ⟨?_,?_,hinput,?_⟩
  · rw [hexit,stops,if_neg hfull]
  · rw [htrace,LimitedStream.run,if_neg hfull,LimitedStream.rows_arrive]
    rfl
  · rw [stops,if_neg hfull,LimitedStream.arrivals_arrive]
    simpa using hcounter

theorem row {q : List QrVal} (h : sh.cell .resCounter = .word hist.length) :
    sh.Handles bound hist [.row q] .backflow (sh.collect q) :=
  ⟨rfl,rfl,rfl,fun _ => by simpa [Shared.collect] using h⟩

end Handles
end Shared

def Handled (env : Env) (fn : Body) (pipe : ℕ) (v : CodegenInlineVisitor) (l : Label) (p : Plan)
    (hist : List ℕ) (es : List TupleEvent) (σ : State) (sh : Shared) : Prop :=
  ∃ ex sh', Completes env fn pipe v l σ ex sh' ∧ sh.Handles id hist es ex sh' ∧
    (p.JoinFree → sh.Keeps sh')

namespace Handled

theorem of_reaches {l₁ : Label} (hr : Reaches (fn.step env) (.at l σ) (.at l₁ σ₁))
    (hf : Frame v.visits pipe σ σ₁) (h : Handled env fn pipe v l₁ p hist es σ₁ sh) :
    Handled env fn pipe v l p hist es σ sh := by
  obtain ⟨ex,sh',hc,hh,hk⟩ := h
  exact ⟨ex,sh',.of_reaches hr hf hc,hh,hk⟩

theorem lift (hexit : ∀ ex, v₁.exit ex = v.exit ex) (hle : v.visits ≤ v₁.visits)
    (hp : p.JoinFree → inp.JoinFree) (h : Handled env fn pipe v₁ l inp hist es σ sh) :
    Handled env fn pipe v l p hist es σ sh := by
  obtain ⟨ex,sh',hc,hh,hk⟩ := h
  exact ⟨ex,sh',hc.lift (hexit ex) hle,hh,fun hj => hk (hp hj)⟩

theorem append {l₁ : Label} (hr : Reaches (fn.step env) (.at l σ) (.at l₁ σ₁))
    (hf : Frame v.visits pipe σ σ₁) (hh : sh.Handles id hist es .backflow sh₁)
    (hk : p.JoinFree → sh.Keeps sh₁)
    (h : Handled env fn pipe v l₁ p (hist ++ arrivals es) es' σ₁ sh₁) :
    Handled env fn pipe v l p hist (es ++ es') σ sh := by
  obtain ⟨ex,sh',hc,hh',hk'⟩ := h
  exact ⟨ex,sh',.of_reaches hr hf hc,hh.append hh',fun hj => (hk hj).trans (hk' hj)⟩

end Handled

theorem Located.limit_exit {op : Plan} (hl : Located fn env.db pipe j op opId v v')
    (h₁ : (codegenInlineVisitor env.db).visit op opId v = some v₁) :
    v₁.exit .limit = v.exit .limit ∧ v.visits ≤ v₁.visits :=
  ⟨(CodegenInlineVisitor.visit_keeps h₁ hl.suffix).2.1,(visit_extends h₁).visits_le⟩

section Rships
variable {dir : RshipDir} {label : String} {code : ℕ} {f : ℕ → List TupleEvent}
  {P : Shared → Prop}

theorem rships_handled {ks : List ℕ} {u : Tuple}
    (hl : Located fn env.db pipe j (.foreachRship dir (0,0) label inp) opId v v')
    (h₁ : (codegenInlineVisitor env.db).visit (.foreachRship dir (0,0) label inp) opId v =
      some v₁) (he : Extends v₁ v') (hl₁ : Located fn env.db pipe j inp (opId+1) v₁ v')
    (hchain : IsChain (fun r => (env.db.rshipById r).nextRship dir) unknownId IsId i ks)
    (hP : ∀ sh sh', P sh → sh'.rhsInput = sh.rhsInput → (inp.JoinFree → sh.Keeps sh') → P sh')
    (hbody : ∀ r hist σ sh, P sh → sh.cell .resCounter = .word hist.length → Sim pipe σ sh →
      Holds env σ v₁.regQueryResults (u ++ [(.rship r,1)]) →
      Handled env fn pipe v₁ (inp.entryLabel v₁.visits) inp hist (f r) σ sh) :
    ∀ {hist σ sh}, P sh → sh.cell .resCounter = .word hist.length →
      AtRships env pipe v code i u sh σ →
      Handled env fn pipe v (v.bb (.whileCondition 0)) inp hist
        ((ks.filter fun r => (env.db.rshipById r).rshipLabel = code).flatMap f) σ sh := by
  obtain ⟨node,_,hv₁⟩ := visitForeachRship_eq h₁
  have hret : v₁.exit .backflow = v.bb .nextRship := by rw [hv₁]; rfl
  have hvisits : v₁.visits = v.visits+1 := by rw [hv₁]; rfl
  obtain ⟨hexit,hle⟩ := hl.limit_exit h₁
  induction hchain with
  | nil =>
    intro hist σ sh _ hc hat
    exact ⟨_,_,foreachRelEnd_completes hl h₁ he hat,.nil hc,fun _ => .refl _⟩
  | @cons r ks hr _ ih =>
    intro hist σ sh hPsh hc hat
    by_cases hcode : (env.db.rshipById r).rshipLabel = code
    · rw [List.filter_cons_of_pos (by simpa using hcode),List.flatMap_cons]
      obtain ⟨σ₁,hr₁,hat₁,hrship,hf₁,ht₁⟩ := rships_reaches_input hl h₁ he hl₁ hat hr hcode
      obtain ⟨ex,sh₁,hcomp,hh,hk⟩ := hbody r hist σ₁ sh hPsh hc hat₁.sim ht₁
      cases ex with
      | limit =>
        exact ⟨_,_,.of_reaches hr₁ hf₁ (hcomp.lift hexit hle),hh.append_limit,hk⟩
      | backflow =>
        obtain ⟨σ₂,hr₂,hs₂,hf₂⟩ := hcomp
        rw [hret] at hr₂
        rw [hvisits] at hf₂
        -- the registers of the traversal itself are those of an earlier visit
        have hreg : ∀ name, σ₂.reg ⟨v.visits,name⟩ = σ₁.reg ⟨v.visits,name⟩ :=
          fun name => hf₂.reg _ (Nat.lt_succ_self _)
        have hf₂' := hf₂.mono (Nat.le_succ v.visits)
        obtain ⟨σ₃,hr₃,hat₃,hf₃⟩ := nextRship_reaches hl h₁ he hs₂
          (hat₁.holds.frame hl.ok.regs hf₂') ((hreg _).trans hat₁.labelCode)
          ((hreg _).trans hrship)
        exact .append ((hr₁.trans hr₂).trans hr₃) ((hf₁.trans hf₂').trans hf₃) hh hk
          (ih (hP _ _ hPsh hh.rhsInput hk) (hh.counter hh.goes_on) hat₃)
    · rw [List.filter_cons_of_neg (by simpa using hcode)]
      obtain ⟨σ₁,hr₁,hat₁,hrship,hf₁⟩ := rships_reaches_check hl h₁ he hat hr
      rw [if_neg hcode] at hr₁
      obtain ⟨σ₂,hr₂,hat₂,hf₂⟩ :=
        nextRship_reaches hl h₁ he hat₁.sim hat₁.holds hat₁.labelCode hrship
      exact .of_reaches (hr₁.trans hr₂) (hf₁.trans hf₂) (ih hPsh hc hat₂)

end Rships

structure Probing (jid : ℕ) (R : List (List QrVal)) (c : ℕ) (sh : Shared) : Prop where
  list : sh.rhsInput jid = R
  curIdx : sh.cell .curIdx = .word c
  maxIdx : sh.cell .maxIdx = .word R.length

namespace Probing
variable {jid c : ℕ} {R : List (List QrVal)}

theorem setCurIdx (h : Probing jid R c sh) (c' : ℕ) :
    Probing jid R c' (sh.set .curIdx (.word c')) :=
  ⟨h.list,by simp [Shared.set],by simpa [Shared.set] using h.maxIdx⟩

theorem setDangling (h : Probing jid R c sh) (x : Val) : Probing jid R c (sh.set .dangling x) :=
  ⟨h.list,by simpa [Shared.set] using h.curIdx,by simpa [Shared.set] using h.maxIdx⟩

theorem kept (h : Probing jid R c sh) (hinput : sh'.rhsInput = sh.rhsInput) (hk : sh.Keeps sh') :
    Probing jid R c sh' :=
  ⟨by rw [hinput,h.list],hk.curIdx.trans h.curIdx,hk.maxIdx.trans h.maxIdx⟩

end Probing

section Cross
variable {R : List (List QrVal)} {f : List QrVal → List TupleEvent} {u : Tuple}

theorem cross_handled (hl : Located fn env.db pipe j (.join .CROSS pos lhs rhs) opId v v')
    (h₁ : (codegenInlineVisitor env.db).visit (.join .CROSS pos lhs rhs) opId v = some v₁)
    (he : Extends v₁ v') (ha : Agrees fn v v₂)
    (hl₁ : Located fn env.db pipe j₁ lhs opId v₁ v₂) (hlhs : lhs.JoinFree)
    (hread : ∀ r ∈ R, readRes rhs.rhsType r = some (r.map (QrVal.toReg pipe)))
    (hbody : ∀ r ∈ R, ∀ hist σ sh, sh.cell .resCounter = .word hist.length → Sim pipe σ sh →
      Holds env σ v₁.regQueryResults (u ++ r.map (QrVal.toReg pipe)) →
      Handled env fn pipe v₁ (lhs.entryLabel v₁.visits) lhs hist (f r) σ sh) :
    ∀ (rs : List (List QrVal)) {c hist σ sh}, R.drop c = rs → c ≤ R.length →
      Probing j.queryIdInline R c sh → sh.cell .resCounter = .word hist.length → Sim pipe σ sh →
      Holds env σ v.regQueryResults u →
      Handled env fn pipe v (v.bb (.whileCondition 0)) (.join .CROSS pos lhs rhs) hist
        (rs.flatMap f) σ sh := by
  obtain ⟨_,_,_,_,hret,_⟩ := visitJoin_eq h₁
  have hback : v₁.exit .backflow = v.bb (.whileCondition 0) := hret
  obtain ⟨hexit,hvisits⟩ := hl.limit_exit h₁
  intro rs
  induction rs with
  | nil =>
    intro c hist σ sh hdrop hle hpr hc hs _
    have hlen := List.drop_eq_nil_iff.1 hdrop
    exact ⟨_,_,endJoin_completes hl h₁ he hs hpr.curIdx hpr.maxIdx hlen,.nil hc,
      fun hj => absurd hj id⟩
  | cons r rs ih =>
    intro c hist σ sh hdrop hle hpr hc hs ht
    have hget : R[c]? = some r := by rw [← List.head?_drop,hdrop,List.head?_cons]
    have hlt : c < R.length := (List.getElem?_eq_some_iff.1 hget).1
    have hdrop' : R.drop (c+1) = rs := by rw [← List.tail_drop,hdrop,List.tail_cons]
    have hmem := List.mem_of_getElem? hget
    obtain ⟨σ₁,hr₁,hs₁,hf₁,ht₁⟩ := probeCross_reaches_input hl h₁ he ha hl₁ hs ht hpr.curIdx
      hpr.maxIdx hlt (by rw [hpr.list,hget]) (hread r hmem)
    obtain ⟨ex,sh₁,hcomp,hh,hk⟩ := hbody r hmem hist σ₁ _ (by simpa [Shared.set] using hc) hs₁ ht₁
    have hh' : sh.Handles id hist (f r) ex sh₁ := hh.of_eq rfl rfl
    rw [List.flatMap_cons]
    cases ex with
    | limit =>
      exact ⟨_,_,.of_reaches hr₁ hf₁ (hcomp.lift hexit hvisits),hh'.append_limit,
        fun hj => absurd hj id⟩
    | backflow =>
      obtain ⟨σ₂,hr₂,hs₂,hf₂⟩ := hcomp
      rw [hback] at hr₂
      have hf := hf₁.trans (hf₂.mono hvisits)
      exact .append (hr₁.trans hr₂) hf hh' (fun hj => absurd hj id)
        (ih hdrop' hlt ((hpr.setCurIdx (c+1)).kept hh.rhsInput (hk hlhs))
          (hh'.counter hh'.goes_on) hs₂ (ht.frame hl.ok.regs hf))

end Cross

section LeftOuter
variable {R : List (List QrVal)} {r : List QrVal} {u w : Tuple} {c b : ℕ} {g : ℕ → List TupleEvent}
  (hl : Located fn env.db pipe j (.join .LEFT_OUTER pos lhs rhs) opId v v')
  (h₁ : (codegenInlineVisitor env.db).visit (.join .LEFT_OUTER pos lhs rhs) opId v = some v₁)
  (he : Extends v₁ v') (ha : Agrees fn v v₂)
  (hl₁ : Located fn env.db pipe j₁ lhs opId v₁ v₂) (hlhs : lhs.JoinFree)
include hl h₁ he ha hl₁ hlhs

theorem leftRships_handled {ks : List ℕ} {E : ℕ → List TupleEvent}
    (hread : readRes rhs.rhsType r = some w)
    (hbody : ∀ d hist σ sh, sh.cell .dangling = .word d → sh.cell .resCounter = .word hist.length →
      Sim pipe σ sh → Holds env σ v₁.regQueryResults (u ++ w ++ [(.cell ⟨pipe,.dangling⟩,7)]) →
      Handled env fn pipe v₁ (lhs.entryLabel v₁.visits) lhs hist (g d) σ sh)
    (hchain : IsChain (fun i => (env.db.rshipById i).nextSrcRship) unknownId IsId i ks)
    (hend : ∀ d hist σ sh, Probing j.queryIdInline R c sh → sh.cell .dangling = .word d →
      sh.cell .resCounter = .word hist.length → AtLeft env pipe v r b unknownId u sh σ →
      Handled env fn pipe v (v.bb (.whileCondition 1)) (.join .LEFT_OUTER pos lhs rhs) hist (E d)
        σ sh) :
    ∀ {d hist σ sh}, Probing j.queryIdInline R c sh → sh.cell .dangling = .word d →
      sh.cell .resCounter = .word hist.length → AtLeft env pipe v r b i u sh σ →
      Handled env fn pipe v (v.bb (.whileCondition 1)) (.join .LEFT_OUTER pos lhs rhs) hist
        (((ks.filter fun i => (env.db.rshipById i).destNode = b).flatMap fun _ => g 0) ++
          E (if ks.any fun i => (env.db.rshipById i).destNode = b then 0 else d)) σ sh := by
  obtain ⟨hexit,hle⟩ := hl.limit_exit h₁
  induction hchain with
  | nil =>
    intro d hist σ sh hpr hd hc hat
    simpa using hend d hist σ sh hpr hd hc hat
  | @cons i ks hi _ ih =>
    intro d hist σ sh hpr hd hc hat
    by_cases hdest : (env.db.rshipById i).destNode = b
    · obtain ⟨σ₁,hr₁,hat₁,hra₁,hf₁,ht₁⟩ :=
        leftHit_reaches_input hl h₁ he ha hl₁ hat hi hdest hread
      obtain ⟨ex,sh₁,hcomp,hh,hk⟩ := hbody 0 hist σ₁ _ (by simp [Shared.set])
        (by simpa [Shared.set] using hc) hat₁.sim ht₁
      have hh' : sh.Handles id hist (g 0) ex sh₁ := hh.of_eq rfl rfl
      have hany : ((i :: ks).any fun i => (env.db.rshipById i).destNode = b) = true := by
        simp [hdest]
      rw [hany,if_pos rfl,List.filter_cons_of_pos (by simpa using hdest),List.flatMap_cons,
        List.append_assoc]
      cases ex with
      | limit =>
        exact ⟨_,_,.of_reaches hr₁ hf₁ (hcomp.lift hexit hle),hh'.append_limit,
          fun hj => absurd hj id⟩
      | backflow =>
        obtain ⟨σ₂,hr₂,hat₂,hra₂,hf₂⟩ := handleRet_returns hl h₁ he hat₁ hcomp
        rw [if_pos (by unfold IsId at hi; simp only [unknownId,unknownRelId] at *; omega)] at hr₂
        obtain ⟨σ₃,hr₃,hat₃,hf₃⟩ := forEachNextRship_reaches hl h₁ he hat₂.sim hat₂.holds hat₂.tp
          hat₂.rhsId (hra₂.trans hra₁)
        have hk' := hk hlhs
        have hrest := ih (d := 0) ((hpr.setDangling _).kept hh.rhsInput hk')
          (hk'.dangling.trans (by simp [Shared.set])) (hh'.counter hh'.goes_on) hat₃
        rw [ite_self] at hrest
        exact .append ((hr₁.trans hr₂).trans hr₃) ((hf₁.trans hf₂).trans hf₃) hh'
          (fun hj => absurd hj id) hrest
    · obtain ⟨σ₁,hr₁,hat₁,hra,hf₁⟩ := leftBody_reaches hl h₁ he hat hi
      rw [if_neg (Ne.symm hdest)] at hr₁
      obtain ⟨σ₂,hr₂,hat₂,hf₂⟩ :=
        forEachNextRship_reaches hl h₁ he hat₁.sim hat₁.holds hat₁.tp hat₁.rhsId hra
      have hrest := ih hpr hd hc hat₂
      refine .of_reaches (hr₁.trans hr₂) (hf₁.trans hf₂) ?_
      simpa [hdest] using hrest

theorem leftEnd_handled {R' : List (List QrVal)} {f : ℕ → List TupleEvent}
    (hread : readRes rhs.rhsType r = some w)
    (hbody : ∀ d hist σ sh, sh.cell .dangling = .word d → sh.cell .resCounter = .word hist.length →
      Sim pipe σ sh → Holds env σ v₁.regQueryResults (u ++ w ++ [(.cell ⟨pipe,.dangling⟩,7)]) →
      Handled env fn pipe v₁ (lhs.entryLabel v₁.visits) lhs hist (g d) σ sh)
    (hrest : ∀ d hist σ sh, Probing j.queryIdInline R' (c+1) sh → sh.cell .dangling = .word d →
      sh.cell .resCounter = .word hist.length → Sim pipe σ sh →
      Holds env σ v.regQueryResults u → Handled env fn pipe v (v.bb (.whileCondition 0))
        (.join .LEFT_OUTER pos lhs rhs) hist (f d) σ sh)
    {d : ℕ} (hpr : Probing j.queryIdInline R' c sh) (hd : sh.cell .dangling = .word d)
    (hc : sh.cell .resCounter = .word hist.length)
    (hat : AtLeft env pipe v r b unknownId u sh σ) :
    Handled env fn pipe v (v.bb (.whileCondition 1)) (.join .LEFT_OUTER pos lhs rhs) hist
      ((if d = 1 then g 1 else []) ++ f d) σ sh := by
  obtain ⟨hexit,hle⟩ := hl.limit_exit h₁
  by_cases hone : d = 1
  · subst hone
    obtain ⟨σ₁,hr₁,hat₁,hf₁,ht₁⟩ :=
      leftDangling_reaches_input hl h₁ he ha hl₁ hat hpr.curIdx hd hread
    obtain ⟨ex,sh₁,hcomp,hh,hk⟩ := hbody 1 hist σ₁ _ (by simpa [Shared.set] using hd)
      (by simpa [Shared.set] using hc) hat₁.sim ht₁
    have hh' : sh.Handles id hist (g 1) ex sh₁ := hh.of_eq rfl rfl
    rw [if_pos rfl]
    cases ex with
    | limit =>
      exact ⟨_,_,.of_reaches hr₁ hf₁ (hcomp.lift hexit hle),hh'.append_limit,
        fun hj => absurd hj id⟩
    | backflow =>
      obtain ⟨σ₂,hr₂,hat₂,_,hf₂⟩ := handleRet_returns hl h₁ he hat₁ hcomp
      rw [if_neg (lt_irrefl _)] at hr₂
      have hk' := hk hlhs
      exact .append (hr₁.trans hr₂) (hf₁.trans hf₂) hh' (fun hj => absurd hj id)
        (hrest 1 _ _ _ ((hpr.setCurIdx (c+1)).kept hh.rhsInput hk')
          (hk'.dangling.trans (by simpa [Shared.set] using hd)) (hh'.counter hh'.goes_on)
          hat₂.sim hat₂.holds)
  · obtain ⟨σ₁,hr₁,hat₁,hf₁⟩ := incrLoop_reaches hl h₁ he hat hpr.curIdx hd
    rw [if_neg hone] at hr₁
    rw [if_neg hone,List.nil_append]
    obtain ⟨ex,sh',hcomp,hh,hk⟩ := hrest d hist σ₁ _ (hpr.setCurIdx (c+1))
      (by simpa [Shared.set] using hd) (by simpa [Shared.set] using hc) hat₁.sim hat₁.holds
    exact ⟨ex,sh',.of_reaches hr₁ hf₁ hcomp,hh.of_eq rfl rfl,fun hj => absurd hj id⟩

theorem left_handled {f : List QrVal → List TupleEvent} (hn : t[pos.1]? = some (.node n))
    (hrhs : rhs.rhsType[pos.2]? = some 0) (hR : ∀ r ∈ R, Typed rhs.rhsType r)
    (hbody : ∀ r ∈ R, ∀ d hist σ sh, sh.cell .dangling = .word d →
      sh.cell .resCounter = .word hist.length → Sim pipe σ sh →
      Holds env σ v₁.regQueryResults (t.map (QrVal.toReg pipe) ++ r.map (QrVal.toReg pipe) ++
        [(.cell ⟨pipe,.dangling⟩,7)]) →
      Handled env fn pipe v₁ (lhs.entryLabel v₁.visits) lhs hist (f (t ++ r ++ [.int d])) σ sh) :
    ∀ (rs : List (List QrVal)) {c d hist σ sh}, R.drop c = rs → c ≤ R.length →
      Probing j.queryIdInline R c sh → sh.cell .dangling = .word d →
      sh.cell .resCounter = .word hist.length → Sim pipe σ sh →
      Holds env σ v.regQueryResults (t.map (QrVal.toReg pipe)) →
      Handled env fn pipe v (v.bb (.whileCondition 0)) (.join .LEFT_OUTER pos lhs rhs) hist
        ((env.outerRows pos.2 n t d rs).flatMap f) σ sh := by
  intro rs
  induction rs with
  | nil =>
    intro c d hist σ sh hdrop hle hpr _ hc hs _
    have hlen := List.drop_eq_nil_iff.1 hdrop
    have hnone : env.outerRows pos.2 n t d [] = [] := by simp [Env.outerRows,OuterLoop.outerLoop]
    rw [hnone,List.flatMap_nil]
    exact ⟨_,_,endJoin_completes hl h₁ he hs hpr.curIdx hpr.maxIdx hlen,.nil hc,
      fun hj => absurd hj id⟩
  | cons r rs ih =>
    intro c d hist σ sh hdrop hle hpr hd hc hs ht
    have hget : R[c]? = some r := by rw [← List.head?_drop,hdrop,List.head?_cons]
    have hlt : c < R.length := (List.getElem?_eq_some_iff.1 hget).1
    have hdrop' : R.drop (c+1) = rs := by rw [← List.tail_drop,hdrop,List.tail_cons]
    have hmem := List.mem_of_getElem? hget
    have hread : readRes rhs.rhsType r = some (r.map (QrVal.toReg pipe)) :=
      readRes_toReg (hR r hmem) rhs.rhsType_le
    obtain ⟨b,hb⟩ := (hR r hmem).node hrhs
    obtain ⟨σ₁,hr₁,hs₁,ht₁,hf₁,htp⟩ := probeBody_reaches hl h₁ he hs ht hpr.curIdx hpr.maxIdx hlt
      (by rw [hpr.list,hget]) rfl
    obtain ⟨σ₂,hr₂,hat₂,hf₂⟩ :=
      leftOuter_reaches hl h₁ he hs₁ ht₁ htp hb (getElem?_toReg pipe hn)
    have hpartners : env.partners pos.2 n r = _ := partners_eq hb
    have hloop := leftRships_handled hl h₁ he ha hl₁ hlhs hread (hbody r hmem)
      (env.db.rships_chain .FROM n)
      (fun d' hist σ sh => leftEnd_handled hl h₁ he ha hl₁ hlhs hread (hbody r hmem)
        (fun d'' hist σ sh hpr hd hc hs ht => ih hdrop' hlt hpr hd hc hs ht))
      hpr hd hc hat₂
    refine .of_reaches (hr₁.trans hr₂) (hf₁.trans hf₂) ?_
    have hany : ((env.db.rships .FROM n).any fun i => (env.db.rshipById i).destNode = b) =
        decide (env.partners pos.2 n r ≠ []) := by
      rw [hpartners]
      simp [List.any_eq]
    rw [hany,← hpartners] at hloop
    rw [outerRows_cons,List.flatMap_append,List.flatMap_append,List.flatMap_map]
    by_cases hnone : env.partners pos.2 n r = []
    · by_cases hone : d = 1 <;> simpa [hnone,hone] using hloop
    · simpa [hnone] using hloop

end LeftOuter
end GraphQueryCompiler
