import GraphQueryCompiler.CodegenInline
import Mathlib.Data.List.Forall2
import Mathlib.Tactic

/-!
# What a visit changes

A visit inserts code into blocks of its own and at most one more, the open block of the
previous operator. Blocks that are complete therefore stay as they are for the rest of
code generation, and the registers of a visitor always refer to earlier visits.
-/

namespace GraphQueryCompiler

namespace Code

@[simp] theorem body_nil (l : Label) : body [] l = [] := rfl

@[simp] theorem body_cons (e : Label × List Instr) (c : Code) (l : Label) :
    body (e :: c) l = (if e.1 = l then e.2 else []) ++ body c l := by
  simp only [body,List.flatMap_cons]

@[simp] theorem body_append (c d : Code) (l : Label) : body (c ++ d) l = body c l ++ body d l := by
  simp only [body,List.flatMap_append]

theorem body_eq_nil {c : Code} {l : Label} (h : ∀ e ∈ c, e.1 ≠ l) : body c l = [] := by
  simp only [body,List.flatMap_eq_nil_iff]
  intro e he
  rw [if_neg (h e he)]

end Code

namespace FepContext
variable {ctx : FepContext}

def Local (ctx : FepContext) (s : FepState) : Prop :=
  (∀ e ∈ s.code, e.1.visit = ctx.visit) ∧ s.cur.visit = ctx.visit

theorem keyCode_local {cur : Label} {n pcode : ℕ} {roi : Expr} (hcur : cur.visit = ctx.visit) :
    ∀ e ∈ ctx.keyCode cur n roi pcode, e.1.visit = ctx.visit := by
  simp [keyCode,whileLoopCondition,bb,hcur]

theorem finishPredicate_local {rank n : ℕ} {cond : Expr} {s : FepState} (hs : ctx.Local s) :
    ctx.Local (ctx.finishPredicate rank n cond s) := by
  obtain ⟨hcode,hcur⟩ := hs
  unfold finishPredicate
  split_ifs
  · exact ⟨by simpa [or_imp,forall_and,hcur] using hcode,hcur⟩
  · exact ⟨by simpa [or_imp,forall_and,hcur] using hcode,rfl⟩

theorem visitKey_local {qrId : ℕ} {key : String} {s s' : FepState}
    (h : ctx.visitKey qrId key s = some s') (hs : ctx.Local s) : ctx.Local s' := by
  simp only [visitKey,Option.bind_eq_bind,Option.bind_eq_some_iff,Option.pure_def,
    Option.some.injEq] at h
  obtain ⟨roi,_,rfl⟩ := h
  refine ⟨?_,rfl⟩
  simp only [List.mem_append,or_imp,forall_and]
  exact ⟨hs.1,keyCode_local hs.2⟩

theorem visitFct_local {fct : ℕ} {s s' : FepState} (h : ctx.visitFct fct s = some s')
    (hs : ctx.Local s) : ctx.Local s' := by
  simp only [visitFct,Option.bind_eq_bind,Option.bind_eq_some_iff,Option.pure_def,
    Option.some.injEq] at h
  obtain ⟨roi,_,rfl⟩ := h
  exact ⟨by simpa [or_imp,forall_and,hs.2] using hs.1,hs.2⟩

theorem compareOperands_local {rhs : StackEntry} {n : ℕ} {pitem : Expr} {s s' : FepState}
    (h : ctx.compareOperands rhs n pitem s = some s') (hs : ctx.Local s) : ctx.Local s' := by
  unfold compareOperands at h
  split at h
  · simp only [Option.bind_eq_bind,Option.bind_eq_some_iff,Option.pure_def,
      Option.some.injEq] at h
    obtain ⟨rhsVal,_,rfl⟩ := h
    exact ⟨by simpa [or_imp,forall_and,hs.2] using hs.1,hs.2⟩
  · simp at h
  · obtain rfl := Option.some.inj h
    exact hs

theorem visitEq_local {rank : ℕ} {s s' : FepState} (h : ctx.visitEq rank s = some s')
    (hs : ctx.Local s) : ctx.Local s' := by
  simp only [visitEq,Option.bind_eq_bind,Option.bind_eq_some_iff,Option.pure_def] at h
  obtain ⟨rhs,_,lhs,_,pitem,_,s₁,h₁,h₂⟩ := h
  have hs₁ : ctx.Local s₁ :=
    compareOperands_local h₁ ⟨by simpa [or_imp,forall_and,hs.2] using hs.1,rfl⟩
  split_ifs at h₂
  · simp only [Option.bind_eq_some_iff,Option.some.injEq] at h₂
    obtain ⟨cond,_,rfl⟩ := h₂
    exact finishPredicate_local hs₁
  · obtain rfl := Option.some.inj h₂
    exact finishPredicate_local hs₁

theorem visitBool_local {op : Expr → Expr → Expr} {name : ℕ → BlockName} {rank : ℕ}
    {s s' : FepState} (h : ctx.visitBool op name rank s = some s') (hs : ctx.Local s) :
    ctx.Local s' := by
  simp only [visitBool,Option.bind_eq_bind,Option.bind_eq_some_iff,Option.pure_def,
    Option.some.injEq] at h
  obtain ⟨rhs,_,offset,_,lhs,_,lhsVal,_,rhsVal,_,rfl⟩ := h
  apply finishPredicate_local
  exact ⟨by simpa [or_imp,forall_and,hs.2,bb] using hs.1,rfl⟩

theorem visit_local {rank : ℕ} {e : FilterExpr} {s s' : FepState}
    (h : ctx.fepVisitorInline.visit rank e s = some s') (hs : ctx.Local s) : ctx.Local s' := by
  cases e with
  | num value => obtain rfl := Option.some.inj h; exact hs
  | key qrId key => exact visitKey_local h hs
  | str str =>
    obtain rfl := Option.some.inj h
    exact ⟨by simpa [visitStr,or_imp,forall_and,hs.2] using hs.1,rfl⟩
  | fct fct => exact visitFct_local h hs
  | eq l r => exact visitEq_local h hs
  | and l r => exact visitBool_local h hs
  | or l r => exact visitBool_local h hs

theorem generate_local {fexpr : FilterExpr} {cur : Label} {exprRegister : ℕ → Option Expr}
    {r : Code × (ℕ → Option Expr)} (h : ctx.generate fexpr cur exprRegister = some r)
    (hcur : cur.visit = ctx.visit) : ∀ e ∈ r.1, e.1.visit = ctx.visit := by
  simp only [generate,Option.bind_eq_bind,Option.bind_eq_some_iff,Option.pure_def,
    Option.some.injEq] at h
  obtain ⟨s,hs,rfl⟩ := h
  exact (FilterExpr.accept_preserves (P := ctx.Local) (fun _ _ _ _ => visit_local) fexpr hs
    ⟨by simp,hcur⟩).1

end FepContext

def Plan.entryName : Plan → Option BlockName
  | .foreachRship .. => some .feEntry
  | .expand .. => some .expandEntry
  | .filter .. => some .filterEntry
  | .project .. => some .projectEntry
  | .join .. => some .entryJoinLhs
  | .limit .. => some .limitEntry
  | .collect _ => some .collectEntry
  | .endOp => some .entryJoinRhs
  | .scan .. => none
  | .sort .. => none
  | .create .. => none

def Plan.entryLabel : Plan → ℕ → Label
  | .sort _ inp, k => inp.entryLabel (k+1)
  | p, k => ⟨k,p.entryName.getD .entry⟩

def Plan.opens : Plan → Bool
  | .sort .. => false
  | .collect _ => false
  | .endOp => false
  | _ => true

/-- The plans the inline visitor is made for: an access path (`true`) is a scan and what
consumes its tuples (`false`), and every join has an access path on its right. -/
def Plan.Shaped : Plan → Bool → Prop
  | .scan _ _ inp, path => path = true ∧ inp.Shaped false
  | .foreachRship _ _ _ inp, path => path = false ∧ inp.Shaped false
  | .expand _ _ inp, path => path = false ∧ inp.Shaped false
  | .filter _ inp, path => path = false ∧ inp.Shaped false
  | .project _ inp, path => path = false ∧ inp.Shaped false
  | .join _ _ lhs rhs, path => path = false ∧ lhs.Shaped false ∧ rhs.Shaped true
  | .sort _ inp, path => path = false ∧ inp.Shaped false
  | .limit _ inp, path => path = false ∧ inp.Shaped false
  | .create .., _ => False
  | .collect _, path => path = false
  | .endOp, path => path = false

abbrev Plan.AccessPath (p : Plan) : Prop := p.Shaped true
abbrev Plan.Suffix (p : Plan) : Prop := p.Shaped false

theorem Plan.Shaped.of_input {p inp : Plan} {path : Bool} (hs : p.Shaped path)
    (h : p.input = some inp) : inp.Suffix := by
  cases p <;> simp only [input,reduceCtorEq,Option.some.injEq] at h <;> subst h <;>
    first | exact hs.2 | exact absurd hs id

def QrValue.Below (k : ℕ) (q : QrValue) : Prop :=
  match q.regVal with
  | .reg r => r.visit < k
  | .addr _ => True
  | _ => False

theorem QrValue.Below.mono {k k' : ℕ} {q : QrValue} (h : q.Below k) (hk : k ≤ k') :
    q.Below k' := by
  unfold QrValue.Below at *
  split at h
  · exact lt_of_lt_of_le h hk
  · trivial
  · exact h

namespace CodegenInlineVisitor
variable {db : GraphDb} {op p : Plan} {opId opId' : ℕ} {v v' v₁ v₂ v₃ : CodegenInlineVisitor}

/-- The terminator that a visit inserts into the open block of the previous operator. -/
def closing (v : CodegenInlineVisitor) (op : Plan) : Code :=
  match op.entryName with
  | some name => [(v.prevBb,[.br (v.bb name)])]
  | none => []

structure Inserts (op : Plan) (v v' : CodegenInlineVisitor) (code : Code) : Prop where
  code_eq : v'.code = v.code ++ (v.closing op ++ code)
  labels : ∀ e ∈ code, e.1.visit = v.visits
  visits_eq : v'.visits = v.visits+1
  prevBb_opens : op.opens → v'.prevBb.visit = v.visits
  prevBb_keeps : op.opens = false → v'.prevBb = v.prevBb

theorem joinLoopCode_labels {jop : JoinOp} {pos : ℕ × ℕ} {code : Code}
    (h : v.joinLoopCode jop pos = some code) : ∀ e ∈ code, e.1.visit = v.visits := by
  unfold joinLoopCode at h
  split at h
  · simp only [Option.map_eq_some_iff] at h
    obtain ⟨lhs,_,rfl⟩ := h
    simp [leftOuterCode,whileLoopCondition,bb]
  · obtain rfl := Option.some.inj h
    simp

theorem joinCode_labels {jop : JoinOp} {types : List ℕ} :
    ∀ e ∈ (v.joinCode jop types).tail, e.1.visit = v.visits := by
  simp [joinCode,whileLoopCondition,bb]

theorem visit_inserts (h : (codegenInlineVisitor db).visit op opId v = some v') :
    ∃ code, Inserts op v v' code := by
  cases op with
  | scan label indexed inp =>
    obtain rfl := Option.some.inj h
    cases indexed with
    | false => exact ⟨_,rfl,by simp [bb],rfl,fun _ => rfl,nofun⟩
    | true => exact ⟨_,rfl,by simp [bb],rfl,fun _ => rfl,nofun⟩
  | foreachRship dir hops label inp =>
    simp only [codegenInlineVisitor,visitForeachRship,Option.bind_eq_bind,
      Option.bind_eq_some_iff,Option.pure_def,Option.some.injEq] at h
    obtain ⟨node,_,rfl⟩ := h
    by_cases hv : isVariable hops = true
    · simp only [hv,if_true]
      exact ⟨_,rfl,by simp [bb],rfl,fun _ => rfl,nofun⟩
    · simp only [hv]
      exact ⟨_,rfl,by simp [whileLoopCondition,bb],rfl,fun _ => rfl,nofun⟩
  | expand exp label inp =>
    simp only [codegenInlineVisitor,visitExpand,Option.bind_eq_bind,
      Option.bind_eq_some_iff,Option.pure_def,Option.some.injEq] at h
    obtain ⟨node,_,rfl⟩ := h
    refine ⟨_,rfl,?_,rfl,fun _ => rfl,nofun⟩
    by_cases hl : label = "" <;> simp [hl,bb]
  | filter fexpr inp =>
    simp only [codegenInlineVisitor,visitFilter,Option.bind_eq_bind,
      Option.bind_eq_some_iff,Option.pure_def,Option.some.injEq,Prod.exists] at h
    obtain ⟨node,_,code,exprRegister,hg,rfl⟩ := h
    have hlocal : ∀ e ∈ code, e.1.visit = v.visits := FepContext.generate_local hg rfl
    refine ⟨_,rfl,?_,rfl,fun _ => rfl,nofun⟩
    simp only [List.append_eq,List.nil_append,List.mem_append,List.mem_cons,List.not_mem_nil,
      or_false]
    rintro e (rfl | he | rfl)
    · rfl
    · exact hlocal e he
    · rfl
  | project prexpr inp =>
    simp only [codegenInlineVisitor,visitProject,Option.bind_eq_bind,
      Option.bind_eq_some_iff,Option.pure_def,Option.some.injEq,Prod.exists] at h
    obtain ⟨is,nqrv,_,rfl⟩ := h
    exact ⟨_,rfl,by simp [bb],rfl,fun _ => rfl,nofun⟩
  | join jop pos lhs rhs =>
    simp only [codegenInlineVisitor,visitJoin,Option.bind_eq_bind,
      Option.bind_eq_some_iff,Option.pure_def,Option.some.injEq] at h
    obtain ⟨code,hcode,rfl⟩ := h
    refine ⟨(v.joinCode jop rhs.rhsType).tail ++ code,rfl,?_,rfl,fun _ => rfl,nofun⟩
    intro e he
    rcases List.mem_append.1 he with he | he
    · exact joinCode_labels e he
    · exact joinLoopCode_labels hcode e he
  | sort cmp inp =>
    obtain rfl := Option.some.inj h
    exact ⟨[],by simp [visitSort,closing,Plan.entryName],by simp,rfl,nofun,fun _ => rfl⟩
  | limit n inp =>
    obtain rfl := Option.some.inj h
    exact ⟨_,rfl,by simp [bb],rfl,fun _ => rfl,nofun⟩
  | create type srcDes inp => simp [codegenInlineVisitor] at h
  | collect print =>
    obtain rfl := Option.some.inj h
    exact ⟨_,rfl,by simp [bb],rfl,nofun,fun _ => rfl⟩
  | endOp =>
    simp only [codegenInlineVisitor,visitEnd] at h
    split at h
    · simp at h
    · obtain rfl := Option.some.inj h
      exact ⟨_,rfl,by simp [bb],rfl,nofun,fun _ => rfl⟩

structure Extends (v v' : CodegenInlineVisitor) : Prop where
  visits_le : v.visits ≤ v'.visits
  body_eq : ∀ l : Label, l.visit < v.visits → l ≠ v.prevBb → v'.code.body l = v.code.body l
  prevBb : v'.prevBb = v.prevBb ∨ v.visits ≤ v'.prevBb.visit

theorem Extends.refl (v : CodegenInlineVisitor) : Extends v v :=
  ⟨le_refl _,fun _ _ _ => rfl,Or.inl rfl⟩

theorem Extends.trans (h₁ : Extends v₁ v₂) (h₂ : Extends v₂ v₃) : Extends v₁ v₃ := by
  have hle := h₁.visits_le
  refine ⟨le_trans hle h₂.visits_le,fun l hl hne => ?_,?_⟩
  · have hne₂ : l ≠ v₂.prevBb := by
      rcases h₁.prevBb with h | h
      · rwa [h]
      · rintro rfl; omega
    rw [h₂.body_eq l (lt_of_lt_of_le hl hle) hne₂,h₁.body_eq l hl hne]
  · rcases h₂.prevBb with h | h
    · rw [h]; exact h₁.prevBb
    · exact Or.inr (le_trans hle h)

theorem closing_labels : ∀ e ∈ v.closing op, e.1 = v.prevBb := by
  unfold closing
  split <;> simp

theorem Inserts.body_of_lt {code : Code} (h : Inserts op v v' code) (l : Label)
    (hl : l.visit < v.visits) :
    v'.code.body l = v.code.body l ++ (v.closing op).body l := by
  rw [h.code_eq,Code.body_append,Code.body_append,Code.body_eq_nil (c := code)]
  · rw [List.append_nil]
  · intro e he hel
    have := h.labels e he
    rw [hel] at this
    omega

theorem Inserts.extends {code : Code} (h : Inserts op v v' code) : Extends v v' := by
  refine ⟨by rw [h.visits_eq]; omega,fun l hl hne => ?_,?_⟩
  · rw [h.body_of_lt l hl,Code.body_eq_nil (c := v.closing op),List.append_nil]
    intro e he hel
    exact hne (hel.symm.trans (closing_labels e he))
  · cases ho : op.opens with
    | true => exact Or.inr (le_of_eq (h.prevBb_opens ho).symm)
    | false => exact Or.inl (h.prevBb_keeps ho)

theorem visit_extends (h : (codegenInlineVisitor db).visit op opId v = some v') :
    Extends v v' := by
  obtain ⟨code,hc⟩ := visit_inserts h
  exact hc.extends

theorem codegen_extends {interpreted : Bool}
    (h : p.codegen (codegenInlineVisitor db) opId interpreted v = some (v',opId')) :
    Extends v v' :=
  Plan.codegen_rel (R := Extends) (fun _ _ _ => Extends.trans) (fun _ _ _ _ => visit_extends) p h

theorem codegen_visits (p : Plan) : ∀ {opId opId' : ℕ} {v v' : CodegenInlineVisitor},
    p.codegen (codegenInlineVisitor db) opId true v = some (v',opId') →
      v'.visits = v.visits + p.numVisits := by
  induction p with
  | collect | endOp =>
    intro opId opId' v v' h
    simp only [Plan.codegen,Option.bind_eq_bind,Option.bind_eq_some_iff,Option.pure_def,
      Option.some.injEq,Prod.mk.injEq] at h
    obtain ⟨v₁,h₁,rfl,_⟩ := h
    obtain ⟨_,hc⟩ := visit_inserts h₁
    rw [hc.visits_eq,Plan.numVisits]
  | join jop pos lhs rhs ihl ihr =>
    intro opId opId' v v' h
    simp only [Plan.codegen,if_true,Option.bind_eq_bind,Option.bind_eq_some_iff,
      Prod.exists] at h
    obtain ⟨v₁,h₁,v₂,_,h₂,h₃⟩ := h
    obtain ⟨_,hc⟩ := visit_inserts h₁
    rw [ihr h₃,ihl h₂,hc.visits_eq,Plan.numVisits]
    omega
  | _ _ _ =>
    rename_i ih
    intro opId opId' v v' h
    rw [Plan.codegen_input rfl,Option.bind_eq_some_iff] at h
    obtain ⟨v₁,h₁,h₂⟩ := h
    obtain ⟨_,hc⟩ := visit_inserts h₁
    rw [ih h₂,hc.visits_eq,Plan.numVisits]
    omega

structure Ok (v : CodegenInlineVisitor) : Prop where
  code : ∀ e ∈ v.code, e.1.visit < v.visits
  prevBb : v.prevBb.visit < v.visits
  scan : v.scan < v.visits
  mainReturn : v.mainReturn.visit < v.visits
  scanNodesEnd : v.scanNodesEnd.visit < v.visits
  regs : ∀ q ∈ v.regQueryResults, q.Below v.visits

theorem Inserts.code_below {code : Code} (h : Inserts op v v' code)
    (hcode : ∀ e ∈ v.code, e.1.visit < v.visits)
    (hprev : op.entryName.isSome → v.prevBb.visit < v.visits) :
    ∀ e ∈ v'.code, e.1.visit < v'.visits := by
  rw [h.code_eq,h.visits_eq]
  simp only [List.mem_append]
  rintro e (he | he | he)
  · have := hcode e he
    omega
  · have hs : op.entryName.isSome := by
      unfold closing at he
      split at he
      · next heq => simp [heq]
      · simp at he
    have := hprev hs
    rw [closing_labels e he]
    omega
  · have := h.labels e he
    omega

theorem visitScan_ok (db : GraphDb) {indexed : Bool} {inp : Plan}
    (hcode : ∀ e ∈ v.code, e.1.visit < v.visits) : Ok (v.visitScan indexed inp opId) := by
  have h : (codegenInlineVisitor db).visit (.scan "" indexed inp) opId v =
    some (v.visitScan indexed inp opId) := rfl
  obtain ⟨code,hc⟩ := visit_inserts h
  exact {
    code := hc.code_below hcode (by simp [Plan.entryName])
    prevBb := Nat.lt_succ_self _
    scan := Nat.lt_succ_self _
    mainReturn := Nat.lt_succ_self _
    scanNodesEnd := Nat.lt_succ_self _
    regs := by simp [visitScan,QrValue.Below,emit,reg] }

theorem projectExprs_below {prexpr : List PrExpr} {r : List Instr × List QrValue}
    (hv : ∀ q ∈ v.regQueryResults, q.Below v.visits) :
    ∀ i, v.projectExprs i prexpr = some r → ∀ q ∈ r.2, q.Below v.visits := by
  induction prexpr generalizing r with
  | nil =>
    intro i h
    obtain rfl := Option.some.inj h
    simp
  | cons pe pes ih =>
    intro i h
    simp only [projectExprs,Option.bind_eq_bind,Option.bind_eq_some_iff,Option.pure_def,
      Option.some.injEq,Prod.exists] at h
    obtain ⟨is,q₀,h₀,is',rs,hrs,rfl⟩ := h
    simp only [List.mem_cons,forall_eq_or_imp]
    refine ⟨?_,ih _ hrs⟩
    simp only [projectExpr,Option.bind_eq_bind,Option.bind_eq_some_iff,Option.pure_def] at h₀
    obtain ⟨r₀,hr₀,h₀⟩ := h₀
    split_ifs at h₀ with hb
    · simp only [Option.some.injEq,Prod.mk.injEq] at h₀
      obtain ⟨_,rfl⟩ := h₀
      exact hv _ (List.mem_of_getElem? hr₀)
    · simp only [Option.bind_eq_some_iff,Option.some.injEq,Prod.mk.injEq] at h₀
      obtain ⟨key,_,_,rfl⟩ := h₀
      trivial
    · simp at h₀

theorem visit_ok (h : (codegenInlineVisitor db).visit op opId v = some v') (hv : Ok v) :
    Ok v' := by
  obtain ⟨code,hc⟩ := visit_inserts h
  have hcode := hc.code_below hv.code fun _ => hv.prevBb
  have hregs : ∀ q ∈ v.regQueryResults, q.Below (v.visits+1) :=
    fun q hq => (hv.regs q hq).mono (Nat.le_succ _)
  have h₁ := hv.prevBb
  have h₂ := hv.scan
  have h₃ := hv.mainReturn
  have h₄ := hv.scanNodesEnd
  cases op with
  | scan label indexed inp =>
    obtain rfl := Option.some.inj h
    exact visitScan_ok db hv.code
  | foreachRship dir hops label inp =>
    simp only [codegenInlineVisitor,visitForeachRship,Option.bind_eq_bind,
      Option.bind_eq_some_iff,Option.pure_def,Option.some.injEq] at h
    obtain ⟨node,_,rfl⟩ := h
    refine ⟨hcode,?_,?_,?_,?_,?_⟩ <;> simp only [emit,bb]
    · omega
    · omega
    · omega
    · omega
    · simp only [List.mem_append,List.mem_singleton,or_imp,forall_and,forall_eq]
      exact ⟨hregs,by simp [QrValue.Below,reg]⟩
  | expand exp label inp =>
    simp only [codegenInlineVisitor,visitExpand,Option.bind_eq_bind,
      Option.bind_eq_some_iff,Option.pure_def,Option.some.injEq] at h
    obtain ⟨node,_,rfl⟩ := h
    refine ⟨hcode,?_,?_,?_,?_,?_⟩ <;> simp only [emit,bb]
    · omega
    · omega
    · omega
    · omega
    · simp only [List.mem_append,List.mem_singleton,or_imp,forall_and,forall_eq]
      exact ⟨hregs,by simp [QrValue.Below,reg]⟩
  | filter fexpr inp =>
    simp only [codegenInlineVisitor,visitFilter,Option.bind_eq_bind,
      Option.bind_eq_some_iff,Option.pure_def,Option.some.injEq,Prod.exists] at h
    obtain ⟨node,_,code,exprRegister,_,rfl⟩ := h
    refine ⟨hcode,?_,?_,?_,?_,hregs⟩ <;> simp only [emit,bb] <;> omega
  | project prexpr inp =>
    simp only [codegenInlineVisitor,visitProject,Option.bind_eq_bind,
      Option.bind_eq_some_iff,Option.pure_def,Option.some.injEq,Prod.exists] at h
    obtain ⟨is,nqrv,hp,rfl⟩ := h
    refine ⟨hcode,?_,?_,?_,?_,fun q hq =>
      (projectExprs_below hv.regs 1 hp q hq).mono (Nat.le_succ _)⟩ <;>
      simp only [emit,bb] <;> omega
  | join jop pos lhs rhs =>
    simp only [codegenInlineVisitor,visitJoin,Option.bind_eq_bind,
      Option.bind_eq_some_iff,Option.pure_def,Option.some.injEq] at h
    obtain ⟨code,_,rfl⟩ := h
    refine ⟨hcode,?_,?_,?_,?_,?_⟩ <;> simp only [emit,bb]
    · omega
    · omega
    · cases jop <;> simp only [joinReturn,bb] <;> omega
    · omega
    · simp only [List.mem_append,or_imp,forall_and]
      refine ⟨⟨hregs,?_⟩,?_⟩
      · intro q hq
        obtain ⟨i,hi,rfl⟩ := List.mem_mapIdx.1 hq
        exact Nat.lt_succ_self _
      · cases jop <;> simp [danglingRegs,QrValue.Below]
  | sort cmp inp =>
    obtain rfl := Option.some.inj h
    refine ⟨hcode,?_,?_,?_,?_,hregs⟩ <;> simp only [visitSort] <;> omega
  | limit n inp =>
    obtain rfl := Option.some.inj h
    refine ⟨hcode,?_,?_,?_,?_,hregs⟩ <;> simp only [visitLimit,emit,bb] <;> omega
  | create type srcDes inp => simp [codegenInlineVisitor] at h
  | collect print =>
    obtain rfl := Option.some.inj h
    refine ⟨hcode,?_,?_,?_,?_,hregs⟩ <;> simp only [visitCollect,emit] <;> omega
  | endOp =>
    simp only [codegenInlineVisitor,visitEnd] at h
    split at h
    · simp at h
    · obtain rfl := Option.some.inj h
      refine ⟨hcode,?_,?_,?_,?_,hregs⟩ <;> simp only [emit] <;> omega

theorem codegen_ok {interpreted : Bool}
    (h : p.codegen (codegenInlineVisitor db) opId interpreted v = some (v',opId')) (hv : Ok v) :
    Ok v' :=
  Plan.codegen_rel (R := fun v v' => Ok v → Ok v') (fun _ _ _ h₁ h₂ hv => h₂ (h₁ hv))
    (fun _ _ _ _ => visit_ok) p h hv

theorem Ok.body_nil (hv : Ok v) {l : Label} (hl : v.visits ≤ l.visit) : v.code.body l = [] := by
  apply Code.body_eq_nil
  rintro e he rfl
  have := hv.code e he
  omega

theorem Ok.body_own (hv : Ok v) (code : Code) (name : BlockName) :
    (v.code ++ code).body (v.bb name) = code.body (v.bb name) := by
  rw [Code.body_append,hv.body_nil (Nat.le_refl _),List.nil_append]

theorem Ok.prevBb_ne (hv : Ok v) (name : BlockName) : v.prevBb ≠ ⟨v.visits,name⟩ := by
  intro h
  have := hv.prevBb
  rw [h] at this
  exact absurd this (lt_irrefl _)

theorem visit_body (h : (codegenInlineVisitor db).visit op opId v = some v₁)
    (he : Extends v₁ v') {name : BlockName} (hopen : v.bb name ≠ v₁.prevBb) :
    v'.code.body (v.bb name) = v₁.code.body (v.bb name) := by
  obtain ⟨code,hc⟩ := visit_inserts h
  exact he.body_eq _ (by rw [hc.visits_eq]; exact Nat.lt_succ_self _) hopen

/-- Code generation of an operator is its visit, and then only what extends it. -/
theorem codegen_visit (h : p.codegen (codegenInlineVisitor db) opId true v = some (v',opId')) :
    ∃ v₁, (codegenInlineVisitor db).visit p opId v = some v₁ ∧ Extends v₁ v' ∧
      (p.opens = false → p.entryName.isSome → v₁ = v') := by
  cases p with
  | collect | endOp =>
    simp only [Plan.codegen,Option.bind_eq_bind,Option.bind_eq_some_iff,Option.pure_def,
      Option.some.injEq,Prod.mk.injEq] at h
    obtain ⟨v₁,h₁,rfl,_⟩ := h
    exact ⟨_,h₁,Extends.refl _,fun _ _ => rfl⟩
  | join jop pos lhs rhs =>
    simp only [Plan.codegen,if_true,Option.bind_eq_bind,Option.bind_eq_some_iff,
      Prod.exists] at h
    obtain ⟨v₁,h₁,v₂,_,h₂,h₃⟩ := h
    exact ⟨_,h₁,(codegen_extends h₂).trans (codegen_extends h₃),by simp [Plan.opens]⟩
  | _ _ _ =>
    simp only [Plan.codegen,Option.bind_eq_bind,Option.bind_eq_some_iff] at h
    obtain ⟨v₁,h₁,h₂⟩ := h
    refine ⟨_,h₁,codegen_extends h₂,?_⟩
    simp [Plan.opens,Plan.entryName]

theorem Inserts.closed {code : Code} {name : BlockName} (hc : Inserts op v v₁ code)
    (hv : Ok v) (hname : op.entryName = some name) :
    v₁.code.body v.prevBb = v.code.body v.prevBb ++ [.br (v.bb name)] := by
  rw [hc.body_of_lt _ hv.prevBb]
  simp [closing,hname]

theorem codegen_prevBb (hp : p.Suffix) :
    ∀ {opId opId' : ℕ} {v v' : CodegenInlineVisitor}, Ok v →
      p.codegen (codegenInlineVisitor db) opId true v = some (v',opId') →
      v'.code.body v.prevBb = v.code.body v.prevBb ++ [.br (p.entryLabel v.visits)] := by
  induction p with
  | sort cmp inp ih =>
    intro opId opId' v v' hv h
    simp only [Plan.codegen,Option.bind_eq_bind,Option.bind_eq_some_iff] at h
    obtain ⟨v₁,h₁,h₂⟩ := h
    have hv₁ := visit_ok h₁ hv
    obtain rfl := Option.some.inj h₁
    exact ih hp.2 hv₁ h₂
  | scan => exact absurd hp.1 (by simp)
  | create => exact absurd hp id
  | collect | endOp =>
    intro opId opId' v v' hv h
    obtain ⟨v₁,h₁,_,hleaf⟩ := codegen_visit h
    obtain ⟨code,hc⟩ := visit_inserts h₁
    rw [← hleaf rfl rfl]
    exact hc.closed hv rfl
  | _ =>
    intro opId opId' v v' hv h
    obtain ⟨v₁,h₁,he,_⟩ := codegen_visit h
    obtain ⟨code,hc⟩ := visit_inserts h₁
    have hlt := hv.prevBb
    refine (he.body_eq _ (by rw [hc.visits_eq]; omega) ?_).trans (hc.closed hv rfl)
    intro heq
    rw [heq,hc.prevBb_opens rfl] at hlt
    exact absurd hlt (lt_irrefl _)

theorem codegen_accessPath_body (hp : p.AccessPath)
    (h : p.codegen (codegenInlineVisitor db) opId true v = some (v',opId')) (l : Label)
    (hl : l.visit < v.visits) : v'.code.body l = v.code.body l := by
  obtain ⟨v₁,h₁,he,_⟩ := codegen_visit h
  obtain ⟨code,hc⟩ := visit_inserts h₁
  cases p with
  | scan label indexed inp =>
    have hne : l ≠ v₁.prevBb := by
      rintro rfl
      rw [hc.prevBb_opens rfl] at hl
      exact absurd hl (lt_irrefl _)
    rw [he.body_eq l (by rw [hc.visits_eq]; omega) hne,hc.body_of_lt l hl]
    simp [closing,Plan.entryName]
  | create => exact absurd hp id
  | collect | endOp => exact absurd hp (by simp [Plan.Shaped])
  | _ => exact absurd hp.1 (by simp)

end CodegenInlineVisitor
end GraphQueryCompiler
