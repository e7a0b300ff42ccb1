import GraphQueryCompiler.Simulation

/-!
# Simulation of a comparison with an integer

The code of `EQ(Key(i,k), Int)` is two nested loops: over the property sets of a node, and
over the three items of each. Together they are the search for the first item with key `k`
in the list of all items.
-/

namespace GraphQueryCompiler
open StepMachine CodegenInlineVisitor LinkedChain

namespace FepContext
variable (ctx : FepContext)

def eqCode (cur : Label) (roi : Expr) (pcode : ℕ) : Code :=
  ctx.keyCode cur 0 roi pcode ++
  [(ctx.bb (.epilog 0),[.br (ctx.bb (.cmpEq 2))]),
   (ctx.bb (.cmpEq 2),
    [.assign (ctx.reg (.cmp 2)) (.icmpEQ (.field (.reg (ctx.reg (.curItem 0))) 0)
      (.reg (ctx.reg .arg)))]),
   (ctx.bb (.cmpEq 2),[.condBr (.reg (ctx.reg (.cmp 2))) ctx.next ctx.endBB])]

theorem generate_eq {i : ℕ} {key : String} {c : ℤ} {cur : Label} {er : ℕ → Option Expr}
    {r : Code × (ℕ → Option Expr)}
    (h : ctx.generate (.eq (.key i key) (.num c)) cur er = some r) :
    ∃ roi, ctx.qrRegs[i]? = some roi ∧
      r.1 = ctx.eqCode cur roi.regVal (ctx.db.getCode key) := by
  simp only [generate,FilterExpr.accept,fepVisitorInline,visitKey,Option.bind_eq_bind,
    Option.bind_eq_some_iff,Option.pure_def,Option.some.injEq] at h
  obtain ⟨s,⟨s₁,⟨roi,hroi,rfl⟩,s₂,rfl,hs⟩,rfl⟩ := h
  simp [visitEq,visitNumber,compareOperands,finishPredicate,Function.update] at hs
  subst hs
  exact ⟨roi,hroi,by simp [eqCode]⟩

theorem generate_isSome {i : ℕ} {key : String} {c : ℤ} {cur : Label} {er : ℕ → Option Expr}
    {roi : QrValue} (hroi : ctx.qrRegs[i]? = some roi) :
    (ctx.generate (.eq (.key i key) (.num c)) cur er).isSome := by
  simp [generate,FilterExpr.accept,fepVisitorInline,visitKey,hroi,visitEq,visitNumber,
    compareOperands,finishPredicate,Function.update]

end FepContext

variable {env : Env} {fn : Body} {pipe : ℕ} {σ σ₀ : State} {sh : Shared} {j : JoinCtx}
  {inp : Plan} {opId i n w : ℕ} {key : String} {c : ℤ} {v v₁ v' : CodegenInlineVisitor}
  {t : Tuple}

namespace CodegenInlineVisitor

def filterEqCode (v : CodegenInlineVisitor) (db : GraphDb) (opId : ℕ) (roi : Expr)
    (pcode : ℕ) : Code :=
  [(v.prevBb,[.br (v.bb .filterEntry)]),
   (v.bb .filterEntry,[.assign (v.reg .arg) (.argWord opId)])] ++
  (v.fepContext db).eqCode (v.bb .filterEntry) roi pcode ++
  [(v.bb .filterFalse,[.br v.mainReturn])]

theorem visitFilter_eq
    (h : (codegenInlineVisitor env.db).visit (.filter (.eq (.key i key) (.num c)) inp) opId v =
      some v₁) :
    ∃ roi, v.regQueryResults[i]? = some roi ∧ v₁.regQueryResults = v.regQueryResults ∧
      v₁.prevBb = v.bb .filterConsume ∧ v₁.mainReturn = v.mainReturn ∧
      v₁.code = v.code ++ v.filterEqCode env.db opId roi.regVal (env.db.getCode key) := by
  simp only [codegenInlineVisitor,visitFilter,Option.bind_eq_bind,Option.bind_eq_some_iff,
    Option.pure_def,Option.some.injEq,Prod.exists] at h
  obtain ⟨_,_,code,er,hg,rfl⟩ := h
  obtain ⟨roi,hroi,rfl⟩ := (v.fepContext env.db).generate_eq hg
  exact ⟨roi,hroi,rfl,rfl,rfl,rfl⟩

end CodegenInlineVisitor

/-- The search for the key from the property set `p` on, along a list that ends with an id that is
not below `u`. -/
inductive PropertySearch (db : GraphDb) (pcode u : ℕ) : ℕ → Option PItem → Prop
  | ended {p : ℕ} : ¬ p < u → PropertySearch db pcode u p none
  | found {p : ℕ} {it : PItem} : p < u →
      ((List.ofFn (db.propertySet p).items).find? fun it => it.key = pcode) = some it →
      PropertySearch db pcode u p (some it)
  | next {p : ℕ} {found : Option PItem} : p < u →
      ((List.ofFn (db.propertySet p).items).find? fun it => it.key = pcode) = none →
      PropertySearch db pcode u (db.propertySet p).next found →
      PropertySearch db pcode u p found

theorem PropertySearch.of_chain {db : GraphDb} {pcode u p : ℕ} {l : List ℕ}
    (hu : u = unknownId ∨ u = unknownRelId)
    (hc : IsChain (fun p => (db.propertySet p).next) unknownId IsId p l) :
    PropertySearch db pcode u p
      ((l.flatMap fun p => List.ofFn (db.propertySet p).items).find? fun it => it.key = pcode) := by
  induction hc with
  | nil => exact .ended (by unfold unknownId unknownRelId at *; omega)
  | @cons p l hp _ ih =>
    have hlt : p < u := by
      unfold IsId unknownId unknownRelId at *
      omega
    rw [List.flatMap_cons,List.find?_append]
    cases hfind : (List.ofFn (db.propertySet p).items).find? fun it => it.key = pcode with
    | some it => exact .found hlt hfind
    | none => exact .next hlt hfind ih

structure Searching (pipe : ℕ) (v : CodegenInlineVisitor) (sh : Shared) (w : ℕ)
    (σ₀ σ : State) : Prop where
  sim : Sim pipe σ sh
  frame : Frame v.visits pipe σ₀ σ
  arg : σ.reg ⟨v.visits,.arg⟩ = .word w
  rhsAlloca : σ.cell ⟨pipe,.rhsAlloca⟩ = σ₀.cell ⟨pipe,.rhsAlloca⟩

namespace Searching

theorem setReg (h : Searching pipe v sh w σ₀ σ) {r : RegName} (hr : r ≠ .arg) (x : Val) :
    Searching pipe v sh w σ₀ (σ.setReg ⟨v.visits,r⟩ x) := by
  refine ⟨h.sim.setReg _ _,h.frame.setReg_own _ _,?_,h.rhsAlloca⟩
  rw [State.setReg_reg,if_neg,h.arg]
  exact fun he => hr (Reg.mk.inj he).2.symm

theorem setCell (h : Searching pipe v sh w σ₀ σ) {d : CellName} (hd : d.IsScratch) (x : Val) :
    Searching pipe v sh w σ₀ (σ.setCell ⟨pipe,d⟩ x) := by
  refine ⟨h.sim.setCell_scratch hd _,h.frame.setCell_pipe _ _,h.arg,?_⟩
  rw [State.setCell_cell,if_neg,h.rhsAlloca]
  exact fun he => CellName.ne_scratch hd rfl (Cell.mk.inj he).2

end Searching

structure SearchEnds (env : Env) (fn : Body) (v : CodegenInlineVisitor) (missing : BlockName)
    (l : Label) (σ : State) (found : Option PItem) (σ₁ : State) : Prop where
  reaches : Reaches (fn.step env) (.at l σ)
    (.at (v.bb (if found.isSome then .pitemFound 0 else missing)) σ₁)
  value : ∀ it, found = some it →
    loadField env.db (σ₁.reg ⟨v.visits,.curItem 0⟩) 0 = .word it.value

theorem SearchEnds.of_reaches {missing : BlockName} {l l' : Label} {σ' σ₁ : State}
    {found : Option PItem} (hr : Reaches (fn.step env) (.at l' σ') (.at l σ))
    (h : SearchEnds env fn v missing l σ found σ₁) :
    SearchEnds env fn v missing l' σ' found σ₁ := ⟨hr.trans h.reaches,h.value⟩

section Search
variable {roi : QrValue} {pcode : ℕ}
  (hown : ∀ name, name ≠ .filterConsume → name ≠ .filterFalse → fn (v.bb name) =
    (v.filterEqCode env.db opId roi.regVal pcode).body (v.bb name)) (hv : Ok v)
include hown hv

theorem forEachPitem_ends {p : ℕ} (m : ℕ) : ∀ {i : ℕ} {σ : State}, i+m = 3 →
    Searching v.scan v sh w σ₀ σ → σ.reg ⟨v.visits,.pset 0⟩ = .pset p →
    σ.cell ⟨v.scan,.curPset⟩ = .pset p → σ.cell ⟨v.scan,.loopCnt⟩ = .word i →
    ∃ σ₁, Searching v.scan v sh w σ₀ σ₁ ∧ σ₁.cell ⟨v.scan,.curPset⟩ = .pset p ∧
      SearchEnds env fn v (.nextPropIt 0) (v.bb (.whileCondition 1)) σ
        (((List.ofFn (env.db.propertySet p).items).drop i).find? fun it => it.key = pcode) σ₁ := by
  induction m with
  | zero =>
    intro i σ hi h hpset hcur hcnt
    obtain rfl : i = 3 := by omega
    rw [List.drop_of_length_le (by simp)]
    refine ⟨σ,h,hcur,reaches_block (hown _ (by simp) (by simp)) ?_,by simp⟩
    simp [filterEqCode,FepContext.eqCode,FepContext.keyCode,whileLoopCondition,fepContext,bb,
      FepContext.bb,FepContext.cell,hv.prevBb_ne,execBlock,Expr.eval,hcnt,h.sim.maxCnt,
      Val.icmpULT]
  | succ m ih =>
    intro i σ hi h hpset hcur hcnt
    have hlt : i < 3 := by omega
    let it := (env.db.propertySet p).items ⟨i,hlt⟩
    have hdrop : (List.ofFn (env.db.propertySet p).items).drop i =
        it :: (List.ofFn (env.db.propertySet p).items).drop (i+1) := by
      rw [List.drop_eq_getElem_cons (by simpa using hlt),List.getElem_ofFn]
    have hcond : Reaches (fn.step env) (.at (v.bb (.whileCondition 1)) σ)
        (.at (v.bb (.whileBody 1)) σ) := by
      refine reaches_block (hown _ (by simp) (by simp)) ?_
      simp [filterEqCode,FepContext.eqCode,FepContext.keyCode,whileLoopCondition,fepContext,bb,
        FepContext.bb,FepContext.cell,hv.prevBb_ne,execBlock,Expr.eval,hcnt,h.sim.maxCnt,
        Val.icmpULT,hlt]
    let σ₁ := (σ.setReg ⟨v.visits,.pitemIdx 0⟩ (.word i)).setReg ⟨v.visits,.curItem 0⟩
      (.item p i)
    have h₁ : Searching v.scan v sh w σ₀ σ₁ := (h.setReg (by simp) _).setReg (by simp) _
    have hbody : Reaches (fn.step env) (.at (v.bb (.whileBody 1)) σ)
        (.at (v.bb (if it.key = pcode then .pitemFound 0 else .forEachIncrement 0)) σ₁) := by
      refine reaches_block (hown _ (by simp) (by simp)) ?_
      by_cases hk : it.key = pcode
      all_goals
        simp [filterEqCode,FepContext.eqCode,FepContext.keyCode,whileLoopCondition,fepContext,bb,
          FepContext.bb,FepContext.cell,FepContext.reg,hv.prevBb_ne,execBlock,Instr.exec,
          Expr.eval,hcnt,hpset,Val.itemAt,loadField,hlt,Val.icmpEQ,it,hk,σ₁]
    rw [hdrop,List.find?_cons]
    by_cases hk : it.key = pcode
    · rw [if_pos hk] at hbody
      simp only [hk,decide_true]
      refine ⟨σ₁,h₁,hcur,hcond.trans hbody,?_⟩
      rintro _ ⟨rfl⟩
      simp [σ₁,loadField,hlt,it]
    · rw [if_neg hk] at hbody
      simp only [hk,decide_false]
      let σ₂ := (σ₁.setReg ⟨v.visits,.idxpp 0⟩ (.word (i+1))).setCell ⟨v.scan,.loopCnt⟩
        (.word (i+1))
      have h₂ : Searching v.scan v sh w σ₀ σ₂ := (h₁.setReg (by simp) _).setCell rfl _
      have hincr : Reaches (fn.step env) (.at (v.bb (.forEachIncrement 0)) σ₁)
          (.at (v.bb (.whileCondition 1)) σ₂) := by
        refine reaches_block (hown _ (by simp) (by simp)) ?_
        simp [filterEqCode,FepContext.eqCode,FepContext.keyCode,whileLoopCondition,fepContext,bb,
          FepContext.bb,FepContext.cell,FepContext.reg,hv.prevBb_ne,execBlock,Instr.exec,
          Expr.eval,hcnt,Val.add,σ₁,σ₂]
      obtain ⟨σ₃,h₃,hcur₃,hends⟩ := ih (i := i+1) (by omega) h₂ (by simpa [σ₁,σ₂] using hpset)
        (by simpa [σ₁,σ₂] using hcur) (by simp [σ₂])
      exact ⟨σ₃,h₃,hcur₃,hends.of_reaches ((hcond.trans hbody).trans hincr)⟩

theorem searchPitem_round {p u : ℕ} (h : Searching v.scan v sh w σ₀ σ)
    (hu : σ₀.cell ⟨v.scan,.rhsAlloca⟩ = .word u) (hp : σ.cell ⟨v.scan,.plistId⟩ = .word p)
    (hlt : p < u) {found : Option PItem}
    (hfind : ((List.ofFn (env.db.propertySet p).items).find? fun it => it.key = pcode) = found) :
    ∃ σ₁, Searching v.scan v sh w σ₀ σ₁ ∧ (found = none →
        σ₁.cell ⟨v.scan,.plistId⟩ = .word (env.db.propertySet p).next) ∧
      fn.step env (.at (v.bb (.whileCondition 0)) σ) = some (.at (v.bb (.whileBody 0)) σ) ∧
      SearchEnds env fn v (.whileCondition 0) (v.bb (.whileBody 0)) σ found σ₁ := by
  have hcmp : (σ.cell ⟨v.scan,.plistId⟩).icmpULT (σ.cell ⟨v.scan,.rhsAlloca⟩) = .bool true := by
    rw [hp,h.rhsAlloca,hu]
    simp [Val.icmpULT,hlt]
  have hcond : fn.step env (.at (v.bb (.whileCondition 0)) σ) =
      some (.at (v.bb (.whileBody 0)) σ) := by
    rw [Body.step,hown _ (by simp) (by simp)]
    simp [filterEqCode,FepContext.eqCode,FepContext.keyCode,whileLoopCondition,fepContext,bb,
      FepContext.bb,FepContext.cell,hv.prevBb_ne,execBlock,Expr.eval,hcmp]
  let σ₁ := (((σ.setReg ⟨v.visits,.pid 0⟩ (.word p)).setReg ⟨v.visits,.pset 0⟩
    (.pset p)).setCell ⟨v.scan,.curPset⟩ (.pset p)).setCell ⟨v.scan,.loopCnt⟩ (.word 0)
  have h₁ : Searching v.scan v sh w σ₀ σ₁ :=
    (((h.setReg (by simp) _).setReg (by simp) _).setCell rfl _).setCell rfl _
  have hbody : Reaches (fn.step env) (.at (v.bb (.whileBody 0)) σ)
      (.at (v.bb (.forEachPitem 0)) σ₁) := by
    refine reaches_block (hown _ (by simp) (by simp)) ?_
    simp [filterEqCode,FepContext.eqCode,FepContext.keyCode,whileLoopCondition,fepContext,bb,
      FepContext.bb,FepContext.cell,FepContext.reg,hv.prevBb_ne,execBlock,Instr.exec,
      Expr.eval,hp,σ₁]
  have hfor : Reaches (fn.step env) (.at (v.bb (.forEachPitem 0)) σ₁)
      (.at (v.bb (.whileCondition 1)) σ₁) := by
    refine reaches_block (hown _ (by simp) (by simp)) ?_
    simp [filterEqCode,FepContext.eqCode,FepContext.keyCode,whileLoopCondition,fepContext,bb,
      FepContext.bb,hv.prevBb_ne,execBlock]
  obtain ⟨σ₂,h₂,hcur₂,hends₂⟩ := forEachPitem_ends hown hv 3 (p := p) rfl h₁
    (by simp [σ₁]) (by simp [σ₁]) (by simp [σ₁])
  replace hends₂ := hends₂.of_reaches (hbody.trans hfor)
  rw [List.drop_zero,hfind] at hends₂
  cases found with
  | some it => exact ⟨σ₂,h₂,by simp,hcond,hends₂.reaches,hends₂.value⟩
  | none =>
    let σ₃ := σ₂.setCell ⟨v.scan,.plistId⟩ (.word (env.db.propertySet p).next)
    have hnext : Reaches (fn.step env) (.at (v.bb (.nextPropIt 0)) σ₂)
        (.at (v.bb (.whileCondition 0)) σ₃) := by
      refine reaches_block (hown _ (by simp) (by simp)) ?_
      simp [filterEqCode,FepContext.eqCode,FepContext.keyCode,whileLoopCondition,fepContext,bb,
        FepContext.bb,FepContext.cell,hv.prevBb_ne,execBlock,Instr.exec,Expr.eval,hcur₂,
        loadField,σ₃]
    exact ⟨σ₃,h₂.setCell rfl _,fun _ => by simp [σ₃],hcond,hends₂.reaches.trans hnext,by simp⟩

theorem searchPitem_ends {p u : ℕ} {found : Option PItem}
    (hu : σ₀.cell ⟨v.scan,.rhsAlloca⟩ = .word u)
    (hsearch : PropertySearch env.db pcode u p found) :
    ∀ {σ : State}, Searching v.scan v sh w σ₀ σ → σ.cell ⟨v.scan,.plistId⟩ = .word p →
    ∃ σ₁, Searching v.scan v sh w σ₀ σ₁ ∧
      SearchEnds env fn v .filterFalse (v.bb (.whileCondition 0)) σ found σ₁ := by
  induction hsearch with
  | ended hge =>
    intro σ h hp
    refine ⟨σ,h,reaches_block (hown _ (by simp) (by simp)) ?_,by simp⟩
    simp [filterEqCode,FepContext.eqCode,FepContext.keyCode,whileLoopCondition,fepContext,bb,
      FepContext.bb,FepContext.cell,hv.prevBb_ne,execBlock,Expr.eval,hp,h.rhsAlloca,hu,
      Val.icmpULT,hge]
  | found hlt hfind =>
    intro σ h hp
    obtain ⟨σ₁,h₁,_,hcond,hends⟩ := searchPitem_round hown hv h hu hp hlt hfind
    exact ⟨σ₁,h₁,.head hcond hends.reaches,hends.value⟩
  | next hlt hfind _ ih =>
    intro σ h hp
    obtain ⟨σ₁,h₁,hnext,hcond,hends⟩ := searchPitem_round hown hv h hu hp hlt hfind
    obtain ⟨σ₂,h₂,hends₂⟩ := ih h₁ (hnext rfl)
    exact ⟨σ₂,h₂,hends₂.of_reaches (.head hcond hends.reaches)⟩

end Search

theorem filterEq_head {roi : QrValue} {x : Val} {p : ℕ}
    (hown : ∀ name, name ≠ .filterConsume → name ≠ .filterFalse → fn (v.bb name) =
      (v.filterEqCode env.db opId roi.regVal (env.db.getCode key)).body (v.bb name))
    (hok : Ok v) (hb : roi.Below v.visits) (hs : Sim v.scan σ sh)
    (hval : roi.regVal.eval env σ = x) (hfield : loadField env.db x 4 = .word p) :
    ∃ σ₁, Reaches (fn.step env) (.at (v.bb .filterEntry) σ)
        (.at (v.bb (.whileCondition 0)) σ₁) ∧
      Searching v.scan v sh (env.args.word opId) σ σ₁ ∧
      σ₁.cell ⟨v.scan,.plistId⟩ = .word p := by
  let σ₁ := σ.setReg ⟨v.visits,.arg⟩ (.word (env.args.word opId))
  have hs₁ : Searching v.scan v sh (env.args.word opId) σ σ₁ :=
    ⟨hs.setReg _ _,(Frame.refl _ _ σ).setReg_own _ _,by simp [σ₁],rfl⟩
  have hentry : Reaches (fn.step env) (.at (v.bb .filterEntry) σ)
      (.at (v.bb (.searchPitem 0)) σ₁) := by
    refine reaches_block (hown _ (by simp) (by simp)) ?_
    simp [filterEqCode,FepContext.eqCode,FepContext.keyCode,whileLoopCondition,fepContext,bb,
      FepContext.bb,hok.prevBb_ne,execBlock,Instr.exec,Expr.eval,reg,σ₁]
  have hsearch : Reaches (fn.step env) (.at (v.bb (.searchPitem 0)) σ₁)
      (.at (v.bb (.isNode 0)) σ₁) := by
    refine reaches_block (hown _ (by simp) (by simp)) ?_
    simp [filterEqCode,FepContext.eqCode,FepContext.keyCode,whileLoopCondition,fepContext,bb,
      FepContext.bb,hok.prevBb_ne,execBlock]
  let list : Val := .word p
  let σ₂ := (σ₁.setReg ⟨v.visits,.plistId 0⟩ list).setCell ⟨v.scan,.plistId⟩ list
  have hs₂ : Searching v.scan v sh (env.args.word opId) σ σ₂ :=
    (hs₁.setReg (by simp) _).setCell rfl _
  have hnode : Reaches (fn.step env) (.at (v.bb (.isNode 0)) σ₁)
      (.at (v.bb (.whileCondition 0)) σ₂) := by
    refine reaches_block (hown _ (by simp) (by simp)) ?_
    simp [filterEqCode,FepContext.eqCode,FepContext.keyCode,whileLoopCondition,fepContext,bb,
      FepContext.bb,FepContext.cell,FepContext.reg,hok.prevBb_ne,execBlock,Instr.exec,
      Expr.eval,hb.eval_setReg,hval,hfield,σ₁,σ₂,list]
  exact ⟨σ₂,(hentry.trans hsearch).trans hnode,hs₂,by simp [σ₂,list]⟩

/-- The blocks of one integer comparison. The branch is taken on the item that the search finds,
and on the argument of the filter. -/
theorem filterEq_search {roi : QrValue} {x : Val} {p u : ℕ} {found : Option PItem}
    (hown : ∀ name, name ≠ .filterConsume → name ≠ .filterFalse → fn (v.bb name) =
      (v.filterEqCode env.db opId roi.regVal (env.db.getCode key)).body (v.bb name))
    (hok : Ok v) (hb : roi.Below v.visits) (hs : Sim v.scan σ sh)
    (hval : roi.regVal.eval env σ = x) (hfield : loadField env.db x 4 = .word p)
    (hu : σ.cell ⟨v.scan,.rhsAlloca⟩ = .word u)
    (hsearch : PropertySearch env.db (env.db.getCode key) u p found) :
    ∃ σ₁, Reaches (fn.step env) (.at (v.bb .filterEntry) σ)
        (.at (v.bb (if found.map PItem.value = some (env.args.word opId)
          then .filterConsume else .filterFalse)) σ₁) ∧
      Sim v.scan σ₁ sh ∧ Frame v.visits v.scan σ σ₁ := by
  obtain ⟨σ₂,hhead,hs₂,hp⟩ := filterEq_head hown hok hb hs hval hfield
  obtain ⟨σ₃,hs₃,hends⟩ := searchPitem_ends hown hok hu hsearch hs₂ hp
  replace hends := hends.of_reaches hhead
  cases found with
  | none =>
    exact ⟨σ₃,by simpa using hends.reaches,hs₃.sim,hs₃.frame⟩
  | some it =>
    have hvalue := hends.value it rfl
    let σ₄ := σ₃.setReg ⟨v.visits,.cmp 2⟩ (.bool (it.value = env.args.word opId))
    have hs₄ := hs₃.setReg (r := .cmp 2) (by simp) (.bool (it.value = env.args.word opId))
    have hfound : Reaches (fn.step env) (.at (v.bb (.pitemFound 0)) σ₃)
        (.at (v.bb (.epilog 0)) σ₃) := by
      refine reaches_block (hown _ (by simp) (by simp)) ?_
      simp [filterEqCode,FepContext.eqCode,FepContext.keyCode,whileLoopCondition,fepContext,bb,
        FepContext.bb,hok.prevBb_ne,execBlock]
    have hepilog : Reaches (fn.step env) (.at (v.bb (.epilog 0)) σ₃)
        (.at (v.bb (.cmpEq 2)) σ₃) := by
      refine reaches_block (hown _ (by simp) (by simp)) ?_
      simp [filterEqCode,FepContext.eqCode,FepContext.keyCode,whileLoopCondition,fepContext,bb,
        FepContext.bb,hok.prevBb_ne,execBlock]
    have hcmp : Reaches (fn.step env) (.at (v.bb (.cmpEq 2)) σ₃)
        (.at (v.bb (if it.value = env.args.word opId then .filterConsume else .filterFalse))
          σ₄) := by
      refine reaches_block (hown _ (by simp) (by simp)) ?_
      by_cases hw : it.value = env.args.word opId
      all_goals
        simp [filterEqCode,FepContext.eqCode,FepContext.keyCode,whileLoopCondition,fepContext,
          bb,FepContext.bb,FepContext.reg,hok.prevBb_ne,execBlock,Instr.exec,Expr.eval,
          hvalue,hs₃.arg,Val.icmpEQ,hw,σ₄]
    refine ⟨σ₄,?_,hs₄.sim,hs₄.frame⟩
    simpa using ((hends.reaches.trans hfound).trans hepilog).trans hcmp

theorem filterEq_reaches {roi : QrValue} {x : Val} {p : ℕ} {l : List ℕ}
    (hown : ∀ name, name ≠ .filterConsume → name ≠ .filterFalse → fn (v.bb name) =
      (v.filterEqCode env.db opId roi.regVal (env.db.getCode key)).body (v.bb name))
    (hok : Ok v) (hb : roi.Below v.visits) (hs : Sim v.scan σ sh)
    (hval : roi.regVal.eval env σ = x) (hfield : loadField env.db x 4 = .word p)
    (hc : IsChain (fun p => (env.db.propertySet p).next) unknownId IsId p l) :
    ∃ σ₁, Reaches (fn.step env) (.at (v.bb .filterEntry) σ)
        (.at (v.bb (if ((l.flatMap fun p => List.ofFn (env.db.propertySet p).items).find?
          fun it => it.key = env.db.getCode key).map PItem.value = some (env.args.word opId)
          then .filterConsume else .filterFalse)) σ₁) ∧
      Sim v.scan σ₁ sh ∧ Frame v.visits v.scan σ σ₁ := by
  obtain ⟨u,hu,hcell⟩ := hs.rhsAlloca
  exact filterEq_search hown hok hb hs hval hfield hcell (.of_chain hu hc)

theorem filterEntry_reaches
    (hl : Located fn env.db pipe j (.filter (.eq (.key i key) (.num c)) inp) opId v v')
    (h₁ : (codegenInlineVisitor env.db).visit (.filter (.eq (.key i key) (.num c)) inp) opId v =
      some v₁) (he : Extends v₁ v') (hs : Sim pipe σ sh)
    (ht : Holds env σ v.regQueryResults t) {type : ℕ} (hn : t[i]? = some (.node n,type)) :
    ∃ σ₁, Reaches (fn.step env) (.at (v.bb .filterEntry) σ)
        (.at (v.bb (if (env.db.findProperty n (env.db.getCode key)).map PItem.value =
          some (env.args.word opId) then .filterConsume else .filterFalse)) σ₁) ∧
      Sim pipe σ₁ sh ∧ Frame v.visits pipe σ σ₁ := by
  obtain ⟨roi,hroi,_,hprev,_,hcode⟩ := visitFilter_eq h₁
  obtain ⟨_,hroi',hval,_⟩ := ht.getElem? hn
  obtain rfl := Option.some.inj (hroi.symm.trans hroi')
  obtain rfl := hl.scan
  exact filterEq_reaches (fun name hne _ => hl.own h₁ he hcode (by rw [hprev]; simp [bb,hne])) hl.ok
    (hl.ok.regs _ (List.mem_of_getElem? hroi)) hs hval rfl (env.db.propertySets_chain n)

theorem filterFalse_completes
    (hl : Located fn env.db pipe j (.filter (.eq (.key i key) (.num c)) inp) opId v v')
    (h₁ : (codegenInlineVisitor env.db).visit (.filter (.eq (.key i key) (.num c)) inp) opId v =
      some v₁) (he : Extends v₁ v') (hs : Sim pipe σ sh) :
    Completes env fn pipe v (v.bb .filterFalse) σ .backflow sh := by
  obtain ⟨roi,_,_,hprev,_,hcode⟩ := visitFilter_eq h₁
  refine .of_reaches (reaches_block (hl.own h₁ he hcode (by rw [hprev]; simp [bb])) ?_)
    (Frame.refl _ _ _) (.here hs)
  simp [filterEqCode,FepContext.eqCode,FepContext.keyCode,whileLoopCondition,fepContext,bb,
    FepContext.bb,hl.ok.prevBb_ne,execBlock,exit]

end GraphQueryCompiler
