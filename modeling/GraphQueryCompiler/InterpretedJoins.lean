import GraphQueryCompiler.ArgExtraction

/-!
# The stack of the interpreter

An interpreted plan is traversed with `interpreted` set, so a join is visited before its two
inputs. Its visit takes the queries of both from the stack, where neither has been pushed.
-/

namespace GraphQueryCompiler

variable {db : GraphDb} {args : ArgBuilder} {p inp op : Plan} {ops : List Plan} {k slot : ℕ}
  {s s' : InterpreteVisitor} {os : List ℕ} {scanned : Bool}

namespace Plan

def visits : Plan → List Plan
  | .scan label indexed inp => .scan label indexed inp :: inp.visits
  | .foreachRship dir hops label inp => .foreachRship dir hops label inp :: inp.visits
  | .expand exp label inp => .expand exp label inp :: inp.visits
  | .filter fexpr inp => .filter fexpr inp :: inp.visits
  | .project prexpr inp => .project prexpr inp :: inp.visits
  | .join jop pos lhs rhs => .join jop pos lhs rhs :: (lhs.visits ++ rhs.visits)
  | .sort cmp inp => .sort cmp inp :: inp.visits
  | .limit n inp => .limit n inp :: inp.visits
  | .create type srcDes inp => .create type srcDes inp :: inp.visits
  | .collect print => [.collect print]
  | .endOp => [.endOp]

theorem visits_input (h : p.input = some inp) : p.visits = p :: inp.visits := by
  cases p <;> simp only [input,reduceCtorEq,Option.some.injEq] at h <;> subst h <;> rfl

def pops : Plan → ℕ
  | .foreachRship .. => 1
  | .expand .. => 1
  | .filter .. => 1
  | .project .. => 1
  | .join .. => 2
  | .collect _ => 1
  | _ => 0

end Plan

theorem codegen_eq_foldlM_input (hin : p.input = some inp)
    (ih : ∀ (opId : ℕ) (s : InterpreteVisitor),
      (inp.codegen (interpreteVisitor db args) opId true s).map Prod.fst =
        inp.visits.foldlM (fun s op => (interpreteVisitor db args).visit op 0 s) s)
    (opId : ℕ) (s : InterpreteVisitor) :
    (p.codegen (interpreteVisitor db args) opId true s).map Prod.fst =
      p.visits.foldlM (fun s op => (interpreteVisitor db args).visit op 0 s) s := by
  rw [Plan.codegen_input hin,Plan.visits_input hin,List.foldlM_cons,Option.map_bind]
  exact congrArg (Option.bind _) (funext fun s₁ => ih _ s₁)

theorem codegen_eq_foldlM (p : Plan) : ∀ (opId : ℕ) (s : InterpreteVisitor),
    (p.codegen (interpreteVisitor db args) opId true s).map Prod.fst =
      p.visits.foldlM (fun s op => (interpreteVisitor db args).visit op 0 s) s := by
  induction p with
  | collect print =>
    intro opId s
    simp only [Plan.codegen,Plan.visits,List.foldlM_cons,List.foldlM_nil,Option.bind_eq_bind,
      Option.map_bind]
    rfl
  | endOp => exact fun _ _ => rfl
  | join jop pos lhs rhs ihl ihr =>
    intro opId s
    simp only [Plan.codegen,if_true,Plan.visits,List.foldlM_cons,List.foldlM_append,
      Option.bind_eq_bind,Option.map_bind]
    refine congrArg (Option.bind _) (funext fun s₁ => ?_)
    rw [← ihl opId s₁,Option.bind_map,Function.comp_apply,Option.map_bind]
    exact congrArg (Option.bind _) (funext fun r : InterpreteVisitor × ℕ => ihr r.2 r.1)
  | _ _ _ =>
    rename_i ih
    exact codegen_eq_foldlM_input rfl ih

/-- The scans that have begun the queries on the stack, by the number of their visit. A join puts
its queries back the other way round. -/
def origins (k : ℕ) : Plan → List ℕ → List ℕ
  | .scan .., os => k :: os
  | .join .., r :: l :: os => l :: r :: os
  | _, os => os

def reached (db : GraphDb) (args : ArgBuilder) :
    List Plan → ℕ → InterpreteVisitor → List ℕ → List (ℕ × Plan × InterpreteVisitor × List ℕ)
  | [], _, _, _ => []
  | op :: ops, k, s, os => (k,op,s,os) ::
    match (interpreteVisitor db args).visit op 0 s with
    | some s' => reached db args ops (k+1) s' (origins k op os)
    | none => []

/-- The visit finds the queries that it takes from the stack, unless the label is outside the
vector, which throws before. -/
def FindsOperands (op : Plan) (s : InterpreteVisitor) : Prop :=
  (op.readsLabel = true → s.opId < 64) → op.pops ≤ s.queries.length

/-- A join with the number `k` joins a query of its lhs, begun in front of the join or within the
visits of the lhs, with that of its rhs, whose visits come behind them. -/
def JoinsInputs (k : ℕ) (os : List ℕ) : Plan → Prop
  | .join _ _ lhs _ => ∃ r l rest, os = r :: l :: rest ∧ l ≤ k + lhs.visits.length ∧
    k + lhs.visits.length < r
  | _ => True

/-- Every visit of the interpretation finds its operands, and every join those of its inputs. -/
def StackSafe (db : GraphDb) (args : ArgBuilder) (ifv : InterpreteFilterVisitor) (p : Plan) :
    Prop :=
  ∀ x ∈ reached db args p.visits 0 (.init ifv) [], FindsOperands x.2.1 x.2.2.1 ∧
    JoinsInputs x.1 x.2.2.2 x.2.1

def Plan.Interpretable : Plan → ℕ → Bool → Prop
  | .scan _ _ inp, slot, _ => slot < 64 → inp.Interpretable (slot+1) true
  | .foreachRship _ _ _ inp, slot, scanned =>
    slot < 64 → scanned = true ∧ inp.Interpretable (slot+1) scanned
  | .expand _ _ inp, slot, scanned =>
    slot < 64 → scanned = true ∧ inp.Interpretable (slot+1) scanned
  | .filter _ inp, slot, scanned => scanned = true ∧ inp.Interpretable (slot+1) scanned
  | .project _ inp, slot, scanned => scanned = true ∧ inp.Interpretable slot scanned
  | .join .., _, _ => False
  | .sort _ inp, slot, scanned => inp.Interpretable slot scanned
  | .limit _ inp, slot, scanned => inp.Interpretable slot scanned
  | .create _ _ inp, slot, scanned => inp.Interpretable slot scanned
  | .collect _, _, scanned => scanned = true
  | .endOp, _, _ => True

theorem Plan.interpretable_input (h : p.input = some inp) :
    p.Interpretable slot scanned ↔ ((p.readsLabel = true → slot < 64) →
      (0 < p.pops → scanned = true) ∧
        inp.Interpretable (slot + p.interpOffset) (scanned || p.isScan)) := by
  cases p <;> simp only [input,reduceCtorEq,Option.some.injEq] at h <;> subst h <;>
    simp [Interpretable,readsLabel,pops,interpOffset,isScan]

theorem update_isSome_iff {f : Query → Query} :
    (s.update f).isSome ↔ 1 ≤ s.queries.length := by
  unfold InterpreteVisitor.update
  split
  · next hq => simp [hq]
  · next hq => simp [hq]

theorem update_bind_isSome_iff {f : Query → Query} {g : InterpreteVisitor → InterpreteVisitor} :
    ((s.update f).bind fun s => some (g s)).isSome ↔ 1 ≤ s.queries.length := by
  rw [← update_isSome_iff (f := f)]
  cases s.update f <;> simp

theorem stringArgs_isSome_iff {i : ℕ} : (args.stringArgs[i]?).isSome ↔ i < 64 := by
  simp

theorem visit_isSome_iff : ((interpreteVisitor db args).visit op 0 s).isSome ↔
    (op.readsLabel = true → s.opId < 64) ∧ op.pops ≤ s.queries.length := by
  cases op with
  | scan =>
    rw [← @stringArgs_isSome_iff args]
    cases hl : args.stringArgs[s.opId]? <;> simp [interpreteVisitor,hl,Plan.readsLabel,Plan.pops]
  | foreachRship | expand =>
    rw [← @stringArgs_isSome_iff args]
    cases hl : args.stringArgs[s.opId]? with
    | none => simp [interpreteVisitor,hl,Plan.readsLabel]
    | some label =>
      simp only [interpreteVisitor,hl,Plan.readsLabel,Plan.pops,Option.isSome_some,true_and,
        imp_self]
      exact update_bind_isSome_iff
  | filter fexpr inp =>
    obtain ⟨ifv,hifv⟩ := accept_interpreteFilterVisitor db args fexpr 0 s.ifv
    simp only [interpreteVisitor,hifv,Plan.readsLabel,Plan.pops,Bool.false_eq_true,false_imp_iff,
      true_and]
    exact update_bind_isSome_iff
  | project | collect =>
    simp [interpreteVisitor,Plan.readsLabel,Plan.pops,update_isSome_iff]
  | join =>
    simp only [interpreteVisitor,Plan.readsLabel,Plan.pops]
    split
    · next hq => simp [hq]
    · next hq =>
      rcases hs : s.queries with _ | ⟨q,_ | ⟨q',qs⟩⟩
      · simp
      · simp
      · exact absurd hs (hq q q' qs)
  | sort | limit | create | endOp => simp [interpreteVisitor,Plan.readsLabel,Plan.pops]

structure Stacked (k slot : ℕ) (scanned : Bool) (s : InterpreteVisitor) (os : List ℕ) : Prop where
  opId : s.opId = slot
  queries : 0 < s.queries.length ↔ scanned = true
  begun : ∀ o ∈ os, o < k

theorem opId_update {f : Query → Query} (h : s.update f = some s') :
    s'.opId = s.opId ∧ s'.queries.length = s.queries.length := by
  unfold InterpreteVisitor.update at h
  split at h
  · next hq =>
    obtain rfl := Option.some.inj h
    simp [hq]
  · cases h

theorem opId_visit (hin : op.input = some inp)
    (h : (interpreteVisitor db args).visit op 0 s = some s') :
    s'.opId = s.opId + op.interpOffset ∧
      s'.queries.length = s.queries.length + if op.isScan then 1 else 0 := by
  cases op with
  | scan =>
    obtain ⟨label,-,hs⟩ := Option.bind_eq_some_iff.1 h
    obtain rfl := Option.some.inj hs
    exact ⟨rfl,rfl⟩
  | foreachRship | expand =>
    obtain ⟨label,-,h⟩ := Option.bind_eq_some_iff.1 h
    obtain ⟨s₁,hupdate,hs⟩ := Option.bind_eq_some_iff.1 h
    obtain rfl := Option.some.inj hs
    exact ⟨congrArg (· + 1) (opId_update hupdate).1,(opId_update hupdate).2⟩
  | filter =>
    obtain ⟨ifv,-,h⟩ := Option.bind_eq_some_iff.1 h
    obtain ⟨s₁,hupdate,hs⟩ := Option.bind_eq_some_iff.1 h
    obtain rfl := Option.some.inj hs
    exact ⟨congrArg (· + 1) (opId_update hupdate).1,(opId_update hupdate).2⟩
  | project => exact opId_update h
  | sort | limit | create =>
    obtain rfl := Option.some.inj h
    exact ⟨rfl,rfl⟩
  | join | collect | endOp => cases hin

theorem begun_origins (hin : op.input = some inp) (h : ∀ o ∈ os, o < k) :
    ∀ o ∈ origins k op os, o < k+1 := by
  have hos : ∀ o ∈ os, o < k+1 := fun o ho => (h o ho).trans k.lt_succ_self
  cases op with
  | scan => exact List.forall_mem_cons.2 ⟨k.lt_succ_self,hos⟩
  | join => cases hin
  | _ => exact hos

theorem Stacked.visit (h : Stacked k slot scanned s os) (hin : op.input = some inp)
    (hvisit : (interpreteVisitor db args).visit op 0 s = some s') :
    Stacked (k+1) (slot + op.interpOffset) (scanned || op.isScan) s' (origins k op os) := by
  obtain ⟨hopId,hqueries⟩ := opId_visit hin hvisit
  refine ⟨by rw [hopId,h.opId],?_,begun_origins hin h.begun⟩
  rw [hqueries,Bool.or_eq_true,← h.queries]
  cases op.isScan <;> simp

theorem pops_le_iff {n : ℕ} (hin : op.input = some inp) :
    op.pops ≤ n ↔ (0 < op.pops → 0 < n) := by
  cases op <;> simp_all [Plan.input,Plan.pops,Nat.one_le_iff_ne_zero,Nat.pos_iff_ne_zero]

theorem safe_input_iff (hin : p.input = some inp) (h : Stacked k slot scanned s os)
    (ih : ∀ {k slot : ℕ} {scanned : Bool} {s : InterpreteVisitor} {os : List ℕ},
      Stacked k slot scanned s os →
      ((∀ x ∈ reached db args inp.visits k s os, FindsOperands x.2.1 x.2.2.1 ∧
        JoinsInputs x.1 x.2.2.2 x.2.1) ↔ inp.Interpretable slot scanned)) :
    (∀ x ∈ reached db args p.visits k s os, FindsOperands x.2.1 x.2.2.1 ∧
      JoinsInputs x.1 x.2.2.2 x.2.1) ↔ p.Interpretable slot scanned := by
  have hjoin : JoinsInputs k os p := by
    cases p <;> trivial
  have hpops : p.pops ≤ s.queries.length ↔ (0 < p.pops → scanned = true) := by
    rw [← h.queries,pops_le_iff hin]
  have hsome := @visit_isSome_iff db args p s
  rw [h.opId,hpops] at hsome
  have hfind : FindsOperands p s ↔
      ((p.readsLabel = true → slot < 64) → 0 < p.pops → scanned = true) := by
    rw [FindsOperands,h.opId,hpops]
  rw [Plan.visits_input hin,Plan.interpretable_input hin,reached,List.forall_mem_cons]
  dsimp only
  rw [hfind]
  cases hvisit : (interpreteVisitor db args).visit p 0 s with
  | some s' =>
    rw [hvisit] at hsome
    obtain ⟨hlabel,hfinds⟩ := hsome.1 rfl
    rw [ih (h.visit hin hvisit)]
    exact ⟨fun hsafe _ => ⟨hfinds,hsafe.2⟩,fun hint => ⟨⟨fun _ => hfinds,hjoin⟩,(hint hlabel).2⟩⟩
  | none =>
    rw [hvisit] at hsome
    have hthrows (hlabel : p.readsLabel = true → slot < 64) (hfinds : 0 < p.pops → scanned = true) :
        False := Bool.false_ne_true (hsome.2 ⟨hlabel,hfinds⟩)
    constructor
    · exact fun hsafe hlabel => (hthrows hlabel (hsafe.1.1 hlabel)).elim
    · intro hint
      refine ⟨⟨fun hlabel => (hint hlabel).1,hjoin⟩,List.forall_mem_nil _⟩

theorem not_joinsInputs (h : ∀ o ∈ os, o < k) : ¬ JoinsInputs k os (.join jop pos lhs rhs) := by
  rintro ⟨r,l,rest,rfl,-,hr⟩
  have hrk := h r (List.mem_cons_self ..)
  omega

theorem safe_iff (p : Plan) : ∀ {k slot : ℕ} {scanned : Bool} {s : InterpreteVisitor}
    {os : List ℕ}, Stacked k slot scanned s os →
    ((∀ x ∈ reached db args p.visits k s os, FindsOperands x.2.1 x.2.2.1 ∧
      JoinsInputs x.1 x.2.2.2 x.2.1) ↔ p.Interpretable slot scanned) := by
  induction p with
  | join jop pos lhs rhs =>
    intro k slot scanned s os h
    rw [Plan.visits,reached,List.forall_mem_cons]
    exact iff_of_false (fun hsafe => not_joinsInputs h.begun hsafe.1.2) id
  | collect print =>
    intro k slot scanned s os h
    have hfind : FindsOperands (.collect print) s ↔ scanned = true := by
      rw [← h.queries]
      simp [FindsOperands,Plan.readsLabel,Plan.pops,Nat.one_le_iff_ne_zero,Nat.pos_iff_ne_zero]
    rw [Plan.visits,reached,List.forall_mem_cons]
    dsimp only
    rw [hfind]
    refine ⟨fun hsafe => hsafe.1.1,fun hscanned => ⟨⟨hscanned,trivial⟩,?_⟩⟩
    split <;> exact List.forall_mem_nil _
  | endOp =>
    intro k slot scanned s os h
    rw [Plan.visits,reached,List.forall_mem_cons]
    refine iff_of_true ⟨⟨fun _ => Nat.zero_le _,trivial⟩,?_⟩ trivial
    split <;> exact List.forall_mem_nil _
  | _ _ _ =>
    rename_i ih
    exact fun h => safe_input_iff rfl h ih

/-- The interpretation of a plan finds its operands, and joins the inputs, exactly if the plan has
no join and a scan in front of what takes a query from the stack. -/
theorem stackSafe_iff (db : GraphDb) (args : ArgBuilder) (ifv : InterpreteFilterVisitor)
    (p : Plan) : StackSafe db args ifv p ↔ p.Interpretable 1 false :=
  safe_iff p ⟨rfl,by simp [InterpreteVisitor.init],List.forall_mem_nil _⟩

/-- `MATCH (a:Person), (b:Person)`: one query is on the stack when the join takes two. -/
theorem not_stackSafe_crossJoin : ¬ StackSafe pairDb .new ⟨"",.intv,0,0⟩
    (.scan "Person" false (.join .CROSS (0,0) (.collect false) (.scan "Person" false .endOp))) := by
  rw [stackSafe_iff]
  exact fun hint => hint (by decide)

end GraphQueryCompiler
