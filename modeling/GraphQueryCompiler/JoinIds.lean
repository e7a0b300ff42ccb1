import GraphQueryCompiler.NestedLoop

/-!
# Join ids

A join appends its id to `jids` when it is visited, an `End` takes the id of its list from
the front. The operators behind a join are visited before its right-hand side, so the order
of the ids is that of the joins only as long as no pipeline has two of them.
-/

namespace GraphQueryCompiler
open CodegenInlineVisitor

variable {env : Env} {p lhs rhs : Plan} {main : Bool} {q a : ℕ} {j : JoinCtx} {fn : Body}
  {v v₁ v' : CodegenInlineVisitor} {opId opId' : ℕ}

namespace Plan

/-- The main pipeline ends with a `Collect`, the others with an `End`. -/
def Leaves : Plan → Bool → Prop
  | .scan _ _ inp, main => inp.Leaves main
  | .foreachRship _ _ _ inp, main => inp.Leaves main
  | .expand _ _ inp, main => inp.Leaves main
  | .filter _ inp, main => inp.Leaves main
  | .project _ inp, main => inp.Leaves main
  | .join _ _ lhs rhs, main => lhs.Leaves main ∧ rhs.Leaves false
  | .sort _ inp, main => inp.Leaves main
  | .limit _ inp, main => inp.Leaves main
  | .create _ _ inp, main => inp.Leaves main
  | .collect _, main => main = true
  | .endOp, main => main = false

def SingleJoins : Plan → Prop
  | .scan _ _ inp => inp.SingleJoins
  | .foreachRship _ _ _ inp => inp.SingleJoins
  | .expand _ _ inp => inp.SingleJoins
  | .filter _ inp => inp.SingleJoins
  | .project _ inp => inp.SingleJoins
  | .join _ _ lhs rhs => lhs.JoinFree ∧ rhs.SingleJoins
  | .sort _ inp => inp.SingleJoins
  | .limit _ inp => inp.SingleJoins
  | .create _ _ inp => inp.SingleJoins
  | .collect _ => True
  | .endOp => True

def leafVisit : Plan → ℕ → ℕ
  | .scan _ _ inp, k => inp.leafVisit (k+1)
  | .foreachRship _ _ _ inp, k => inp.leafVisit (k+1)
  | .expand _ _ inp, k => inp.leafVisit (k+1)
  | .filter _ inp, k => inp.leafVisit (k+1)
  | .project _ inp, k => inp.leafVisit (k+1)
  | .join _ _ lhs _, k => lhs.leafVisit (k+1)
  | .sort _ inp, k => inp.leafVisit (k+1)
  | .limit _ inp, k => inp.leafVisit (k+1)
  | .create _ _ inp, k => inp.leafVisit (k+1)
  | .collect _, k => k
  | .endOp, k => k

/-- The joins of a plan: the visit of each, and the visit of the `End` of its right-hand side. -/
def joinVisits : Plan → ℕ → List (ℕ × ℕ)
  | .scan _ _ inp, k => inp.joinVisits (k+1)
  | .foreachRship _ _ _ inp, k => inp.joinVisits (k+1)
  | .expand _ _ inp, k => inp.joinVisits (k+1)
  | .filter _ inp, k => inp.joinVisits (k+1)
  | .project _ inp, k => inp.joinVisits (k+1)
  | .join _ _ lhs rhs, k =>
    (k,rhs.leafVisit (k+1+lhs.numVisits)) ::
      (lhs.joinVisits (k+1) ++ rhs.joinVisits (k+1+lhs.numVisits))
  | .sort _ inp, k => inp.joinVisits (k+1)
  | .limit _ inp, k => inp.joinVisits (k+1)
  | .create _ _ inp, k => inp.joinVisits (k+1)
  | .collect _, _ => []
  | .endOp, _ => []

/-- The id each of them reads from, and where its right-hand side puts its tuples. -/
def joinIds : Plan → JoinCtx → List (ℕ × Option Sink)
  | .scan _ _ inp, j => inp.joinIds j
  | .foreachRship _ _ _ inp, j => inp.joinIds j
  | .expand _ _ inp, j => inp.joinIds j
  | .filter _ inp, j => inp.joinIds j
  | .project _ inp, j => inp.joinIds j
  | .join _ _ lhs rhs, j =>
    (j.queryIdInline,rhs.sink (lhs.joinCtxEnd j.push)) ::
      (lhs.joinIds j.push ++ rhs.joinIds (lhs.joinCtxEnd j.push))
  | .sort _ inp, j => inp.joinIds j
  | .limit _ inp, j => inp.joinIds j
  | .create _ _ inp, j => inp.joinIds j
  | .collect _, _ => []
  | .endOp, _ => []

theorem Leaves.sink (hl : p.Leaves main) : ∀ {j : JoinCtx},
    (main = false → j.jids.head? = some q) →
      p.sink j = some (if main then .result else .list q) := by
  induction p with
  | join _ _ lhs rhs ihl _ =>
    intro j hj
    refine ihl hl.1 fun h => ?_
    simp [JoinCtx.push,List.head?_append,hj h]
  | collect =>
    intro j _
    obtain rfl : main = true := hl
    rfl
  | endOp =>
    intro j hj
    obtain rfl : main = false := hl
    simp [Plan.sink,hj rfl]
  | _ => rename_i ih; exact ih hl

theorem JoinFree.joinCtxEnd (h : p.JoinFree) (hl : p.Leaves main) :
    p.joinCtxEnd j = if main then j else ⟨j.queryIdInline,j.jids.tail⟩ := by
  induction p with
  | join => exact absurd h id
  | collect | endOp =>
    simp only [Leaves] at hl
    simp [Plan.joinCtxEnd,hl]
  | _ => rename_i ih; exact ih h hl

theorem JoinFree.joinIds (h : p.JoinFree) : ∀ {j : JoinCtx}, p.joinIds j = [] := by
  induction p with
  | join => exact absurd h id
  | collect | endOp => exact rfl
  | _ => rename_i ih; exact ih h

def IdsMatch (p : Plan) (j : JoinCtx) : Prop := ∀ y ∈ p.joinIds j, y.2 = some (.list y.1)

/-- If the id of an earlier join is left for it, the last join of a pipeline reads a list that
its right-hand side does not fill. -/
theorem not_idsMatch_of_pending (hj : ¬ p.JoinFree) (hl : p.Leaves main) :
    ∀ {j : JoinCtx}, (if main then j.jids.head? else j.jids.tail.head?) = some a →
      a < j.queryIdInline → ¬ p.IdsMatch j := by
  induction p with
  | join _ _ lhs rhs ihl _ =>
    intro j ha hlt hids
    simp only [IdsMatch,Plan.joinIds,List.forall_mem_cons,List.forall_mem_append] at hids
    obtain ⟨hown,hlhs,_⟩ := hids
    have hpush : (if main then j.push.jids.head? else j.push.jids.tail.head?) = some a := by
      obtain ⟨qi,jids⟩ := j
      cases main <;> cases jids <;> simp_all [JoinCtx.push,List.head?_append]
    by_cases hfree : lhs.JoinFree
    · have hctx := hfree.joinCtxEnd hl.1 (j := j.push)
      have hhead : (lhs.joinCtxEnd j.push).jids.head? = some a := by
        rw [hctx]
        cases main <;> simpa using hpush
      rw [hl.2.sink fun _ => hhead] at hown
      simp only [Bool.false_eq_true,if_false,Option.some.injEq,Sink.list.injEq] at hown
      omega
    · exact ihl hfree hl.1 hpush (Nat.lt_succ_of_lt hlt) hlhs
  | collect | endOp => exact absurd trivial hj
  | _ => rename_i ih; exact ih hj hl

theorem idsMatch_iff (hl : p.Leaves main) : ∀ {j : JoinCtx} {q : ℕ},
    j.jids = (if main then [] else [q]) → (p.IdsMatch j ↔ p.SingleJoins) := by
  induction p generalizing main with
  | join _ _ lhs rhs ihl ihr =>
    intro j q hq
    have hpush : j.push.jids = (if main then [] else [q]) ++ [j.queryIdInline] := by
      rw [JoinCtx.push,hq]
    by_cases hfree : lhs.JoinFree
    · -- the queue is down to the id of this join when its right-hand side is visited
      have hctx : (lhs.joinCtxEnd j.push).jids = [j.queryIdInline] := by
        rw [hfree.joinCtxEnd hl.1]
        cases main <;> simp [hpush]
      have hsink : rhs.sink (lhs.joinCtxEnd j.push) = some (.list j.queryIdInline) :=
        hl.2.sink fun _ => by rw [hctx]; rfl
      have hrhs := ihr hl.2 (j := lhs.joinCtxEnd j.push) (q := j.queryIdInline)
        (by simpa using hctx)
      simp only [IdsMatch] at hrhs
      simp only [IdsMatch,Plan.joinIds,List.forall_mem_cons,List.forall_mem_append,
        hfree.joinIds,hsink,hrhs,SingleJoins,hfree]
      simp
    · refine iff_of_false (fun hids => ?_) fun h => hfree h.1
      simp only [IdsMatch,Plan.joinIds,List.forall_mem_cons,List.forall_mem_append] at hids
      refine not_idsMatch_of_pending hfree hl.1 (a := j.queryIdInline) ?_ (Nat.lt_succ_self _)
        hids.2.1
      rw [hpush]
      cases main <;> simp
  | collect | endOp =>
    intro j q _
    exact iff_of_true (by simp [IdsMatch,Plan.joinIds]) trivial
  | _ => rename_i ih; exact ih hl

end Plan

def Instr.readsJoin : Instr → Option ℕ
  | .getMatResSize _ jid => some jid
  | .getJoinTpAt _ jid _ => some jid
  | _ => none

def Instr.storesJoin : Instr → Option ℕ
  | .collectTupleJoin jid => some jid
  | _ => none

def joinReads (fn : Body) (k : ℕ) : List ℕ :=
  (fn ⟨k,.entryJoinLhs⟩ ++ fn ⟨k,.whileBody 0⟩).filterMap Instr.readsJoin

def joinStores (fn : Body) (k : ℕ) : List ℕ :=
  (fn ⟨k,.entryJoinRhs⟩).filterMap Instr.storesJoin

def Sink.jids : Sink → List ℕ
  | .result => []
  | .list jid => [jid]

def HasId (fn : Body) (x : ℕ × ℕ) (y : ℕ × Option Sink) : Prop :=
  joinReads fn x.1 = [y.1,y.1] ∧ ∃ s, y.2 = some s ∧ joinStores fn x.2 = s.jids

def HasIds (fn : Body) (p : Plan) (k : ℕ) (j : JoinCtx) : Prop :=
  (∃ s, p.sink j = some s ∧ joinStores fn (p.leafVisit k) = s.jids) ∧
  List.Forall₂ (HasId fn) (p.joinVisits k) (p.joinIds j)

theorem Located.reads {pipe : ℕ} {jop : JoinOp} {pos : ℕ × ℕ}
    (hl : Located fn env.db pipe j (.join jop pos lhs rhs) opId v v')
    (h₁ : (codegenInlineVisitor env.db).visit (.join jop pos lhs rhs) opId v = some v₁)
    (he : Extends v₁ v') : joinReads fn v.visits = [j.queryIdInline,j.queryIdInline] := by
  have hj : v.queryIdInline = j.queryIdInline := congrArg JoinCtx.queryIdInline hl.joinCtx
  have hentry := hl.probe_own h₁ he .entryJoinLhs (by simp)
  have hbody := hl.probe_own h₁ he (.whileBody 0) (by simp)
  simp only [bb] at hentry hbody
  rw [joinReads,hentry,hbody]
  cases jop <;>
    (simp [joinCode,whileLoopCondition,bb,hl.ok.prevBb_ne,joinBranch,hj]; rfl)

theorem Located.collect_stores {pipe : ℕ} {print : Bool}
    (hl : Located fn env.db pipe j (.collect print) opId v v') : joinStores fn v.visits = [] := by
  obtain ⟨_,hgen⟩ := hl.gen
  obtain ⟨v₁,h₁,he,_⟩ := codegen_visit hgen
  obtain rfl := Option.some.inj h₁
  have hown := hl.own h₁ he rfl (hl.ok.prevBb_ne .entryJoinRhs).symm
  simp only [bb] at hown
  rw [joinStores,hown]
  simp [hl.ok.prevBb_ne]

theorem Located.end_stores {pipe : ℕ} (hl : Located fn env.db pipe j .endOp opId v v') :
    ∃ jid, j.jids.head? = some jid ∧ joinStores fn v.visits = [jid] := by
  obtain ⟨_,hgen⟩ := hl.gen
  obtain ⟨v₁,h₁,he,_⟩ := codegen_visit hgen
  have h₂ := h₁
  simp only [codegenInlineVisitor,visitEnd] at h₂
  split at h₂
  · simp at h₂
  · next jid jids hjids =>
    obtain rfl := Option.some.inj h₂
    have hown := hl.own h₁ he rfl (hl.ok.prevBb_ne .entryJoinRhs).symm
    simp only [bb] at hown
    refine ⟨jid,?_,?_⟩
    · rw [← hl.joinCtx]
      exact congrArg List.head? hjids
    · rw [joinStores,hown]
      have hmat : ∀ l : List QrValue, (l.map fun res =>
          if res.type = 0 then Instr.matNode res.regVal else .matRship res.regVal).filterMap
            Instr.storesJoin = [] := by
        intro l
        rw [List.filterMap_eq_nil_iff]
        intro i hi
        obtain ⟨res,_,rfl⟩ := List.mem_map.1 hi
        split_ifs <;> rfl
      simp [hl.ok.prevBb_ne,hmat,Instr.storesJoin]

theorem hasIds (p : Plan) :
    (∀ {v v' : CodegenInlineVisitor} {j : JoinCtx} {pipe opId : ℕ},
      Located fn env.db pipe j p opId v v' → HasIds fn p v.visits j) ∧
    (p.AccessPath → ∀ {v v' : CodegenInlineVisitor} {opId opId' : ℕ},
      (∀ e ∈ v.code, e.1.visit < v.visits) →
      p.codegen (codegenInlineVisitor env.db) opId true v = some (v',opId') →
      Agrees fn v v' → HasIds fn p v.visits v.joinCtx) := by
  induction p with
  | scan label indexed inp ih =>
    refine ⟨fun hl => absurd hl.suffix.1 (by simp),fun hp v v' opId opId' hcode h ha => ?_⟩
    exact ih.1 (Located.scan_input hcode hp.2 h ha)
  | create => exact ⟨fun hl => absurd hl.suffix id,fun h => absurd h id⟩
  | collect print =>
    refine ⟨fun {v v' j pipe opId} hl => ?_,fun h => absurd h (by simp [Plan.Shaped])⟩
    exact ⟨⟨.result,rfl,hl.collect_stores⟩,.nil⟩
  | endOp =>
    refine ⟨fun {v v' j pipe opId} hl => ?_,fun h => absurd h (by simp [Plan.Shaped])⟩
    obtain ⟨jid,hjid,hstores⟩ := hl.end_stores
    exact ⟨⟨.list jid,by simp [Plan.sink,hjid],hstores⟩,.nil⟩
  | join jop pos lhs rhs ihl ihr =>
    refine ⟨fun {v v' j pipe opId} hl => ?_,fun h => absurd h.1 (by simp)⟩
    obtain ⟨v₁,v₂,h₁,he,_,hl₁⟩ := hl.join
    obtain ⟨v₃,opId',hcode,hvisits,hctx,hgen,ha⟩ := hl.join_rhs
    obtain ⟨_,hc⟩ := visit_inserts h₁
    have hreads := hl.reads h₁ he
    have hlhs := ihl.1 hl₁
    have hrhs := ihr.2 hl.suffix.2.2 hcode hgen ha
    rw [hc.visits_eq] at hlhs
    rw [hvisits,hctx] at hrhs
    exact ⟨hlhs.1,.cons ⟨hreads,hrhs.1⟩ (List.rel_append hlhs.2 hrhs.2)⟩
  | _ =>
    rename_i ih
    refine ⟨fun {v v' j pipe opId} hl => ?_,fun h => absurd h.1 (by simp)⟩
    obtain ⟨v₁,h₁,_,hl₁⟩ := hl.input rfl hl.suffix.2
    obtain ⟨_,hc⟩ := visit_inserts h₁
    have h := ih.1 hl₁
    rw [hc.visits_eq] at h
    exact h

/-- The join of visit `k` reads the list that the `End` of visit `m` fills. -/
def SameId (fn : Body) (x : ℕ × ℕ) : Prop :=
  ∃ jid, joinReads fn x.1 = [jid,jid] ∧ joinStores fn x.2 = [jid]

theorem HasId.same_iff {x : ℕ × ℕ} {y : ℕ × Option Sink} (h : HasId fn x y) :
    SameId fn x ↔ y.2 = some (.list y.1) := by
  obtain ⟨hreads,s,hs,hstores⟩ := h
  constructor
  · rintro ⟨jid,h₁,h₂⟩
    rw [hreads] at h₁
    rw [hstores] at h₂
    obtain rfl : y.1 = jid := by simpa using h₁
    cases s with
    | result => simp [Sink.jids] at h₂
    | list i => rw [hs,show i = y.1 by simpa [Sink.jids] using h₂]
  · intro hy
    obtain rfl : s = .list y.1 := Option.some.inj (hs.symm.trans hy)
    exact ⟨y.1,hreads,hstores⟩

theorem forall_sameId_iff {xs : List (ℕ × ℕ)} {ys : List (ℕ × Option Sink)}
    (h : List.Forall₂ (HasId fn) xs ys) :
    (∀ x ∈ xs, SameId fn x) ↔ ∀ y ∈ ys, y.2 = some (.list y.1) := by
  induction h with
  | nil => simp
  | cons hxy _ ih => rw [List.forall_mem_cons,List.forall_mem_cons,ih,hxy.same_iff]

theorem generateStart_hasIds {er : ℕ → Option Expr} {entry : Label} (hp : p.AccessPath)
    (h : generateStart env.db er p = some (fn,entry)) : HasIds fn p 0 ⟨0,[]⟩ := by
  simp only [generateStart,Option.bind_eq_bind,Option.bind_eq_some_iff,Option.pure_def,
    Option.some.injEq,Prod.mk.injEq,Prod.exists] at h
  obtain ⟨v',opId',hgen,_,_,rfl,rfl⟩ := h
  exact (hasIds p).2 hp (v := .init er) (by simp [init]) hgen (fun _ _ _ => rfl)

/-- All joins of a plan read the lists of their own right-hand sides exactly if no pipeline
has two joins. -/
theorem sameId_iff (env : Env) (er : ℕ → Option Expr) (p : Plan) (fn : Body) (entry : Label)
    (hp : p.AccessPath) (hl : p.Leaves true) (h : generateStart env.db er p = some (fn,entry)) :
    (∀ x ∈ p.joinVisits 0, SameId fn x) ↔ p.SingleJoins := by
  rw [forall_sameId_iff (generateStart_hasIds hp h).2]
  exact Plan.idsMatch_iff hl (q := 0) rfl

def nestedJoins : Plan :=
  .scan "Person" false (.join .CROSS (0,0) (.collect false)
    (.scan "Person" false (.join .CROSS (0,0) .endOp (.scan "Person" false .endOp))))

theorem sameId_nestedJoins : ∃ fn entry,
    generateStart pairDb (fun _ => none) nestedJoins = some (fn,entry) ∧
      ∀ x ∈ nestedJoins.joinVisits 0, SameId fn x :=
  ⟨_,_,rfl,(sameId_iff (pairEnv fun _ => "Person") (fun _ => none) nestedJoins _ _
    ⟨rfl,rfl,rfl,rfl,rfl,rfl,rfl,rfl⟩ ⟨rfl,rfl,rfl⟩ rfl).2 ⟨trivial,trivial,trivial⟩⟩

def joinsInLine : Plan :=
  .scan "Person" false (.join .CROSS (0,0)
    (.join .CROSS (0,0) (.collect false) (.scan "Person" false .endOp))
    (.scan "Person" false .endOp))

/-- The first join reads list 0, which the right-hand side of the second one fills. -/
theorem not_sameId_joinsInLine : ∃ fn entry,
    generateStart pairDb (fun _ => none) joinsInLine = some (fn,entry) ∧
      ¬ ∀ x ∈ joinsInLine.joinVisits 0, SameId fn x := by
  refine ⟨_,_,rfl,fun hall => ?_⟩
  have haccess : joinsInLine.AccessPath := ⟨rfl,⟨rfl,⟨rfl,rfl,rfl,rfl⟩,rfl,rfl⟩⟩
  have hgen : generateStart (pairEnv fun _ => "Person").db (fun _ => none) joinsInLine =
    some _ := rfl
  have hids := generateStart_hasIds haccess hgen
  have hmatch := (forall_sameId_iff hids.2).1 hall
  revert hmatch
  decide

end GraphQueryCompiler
