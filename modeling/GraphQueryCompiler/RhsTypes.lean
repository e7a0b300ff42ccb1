import GraphQueryCompiler.ArgExtraction
import GraphQueryCompiler.NestedLoopJoin

/-!
# The layout of a materialised tuple

It is computed twice: by the visits of the operators, which append to the registers that the `End`
of a right-hand side materialises, and by `get_rhs_type`, which walks the same operators for the
join that reads the tuple back. A left outer join appends a register for its flag, which the walk
does not know of.
-/

namespace GraphQueryCompiler
open CodegenInlineVisitor

def Plan.RhsChain : Plan → Prop
  | .scan _ _ inp => inp.RhsChain
  | .foreachRship _ _ _ inp => inp.RhsChain
  | .expand _ _ inp => inp.RhsChain
  | .filter _ inp => inp.RhsChain
  | .limit _ inp => inp.RhsChain
  | .join jop _ lhs rhs => (jop = .CROSS ∨ jop = .LEFT_OUTER) ∧ lhs.RhsChain ∧ rhs.RhsChain
  | .endOp => True
  | _ => False

def endTypes : Plan → ℕ → CodegenInlineVisitor → List (List ℕ)
  | .endOp, _, v => [v.types]
  | _, _, _ => []

def CodegenInlineVisitor.accessor (v : CodegenInlineVisitor) (i : ℕ) : ℕ → Option Instr
  | 0 => some (.getNodeResAt (v.reg (.res i)) (.reg (v.reg .tp)) i)
  | 1 => some (.getRshipResAt (v.reg (.res i)) (.reg (v.reg .tp)) i)
  | _ => none

/-- A join with these types reads every entry of a tuple with the types `regs`, each as what it
is. -/
structure ReadsMaterialised (v : CodegenInlineVisitor) (types regs : List ℕ) : Prop where
  types_eq : types = regs
  reads : (v.resInstrs types).map some = regs.mapIdx v.accessor

def Plan.Flagless : Plan → Prop
  | .scan .. => False
  | .foreachRship _ _ _ inp => inp.Flagless
  | .expand _ _ inp => inp.Flagless
  | .filter _ inp => inp.Flagless
  | .project _ inp => inp.Flagless
  | .join jop _ lhs _ => jop ≠ .LEFT_OUTER ∧ lhs.Flagless
  | .sort _ inp => inp.Flagless
  | .limit _ inp => inp.Flagless
  | .create _ _ inp => inp.Flagless
  | .collect _ => True
  | .endOp => True

def Plan.typesAtEnd : Plan → List ℕ → List ℕ
  | .scan _ _ inp, _ => inp.typesAtEnd [0]
  | .foreachRship _ _ _ inp, ts => inp.typesAtEnd (ts ++ [1])
  | .expand _ _ inp, ts => inp.typesAtEnd (ts ++ [0])
  | .filter _ inp, ts => inp.typesAtEnd ts
  | .limit _ inp, ts => inp.typesAtEnd ts
  | .join jop _ lhs rhs, ts =>
    lhs.typesAtEnd (ts ++ rhs.rhsType ++ if jop = .LEFT_OUTER then [7] else [])
  | _, ts => ts

section Walk
variable {db : GraphDb} {p inp rhs : Plan} {v v' : CodegenInlineVisitor} {ts types : List ℕ}
  {opId n : ℕ} {log log' : List (List ℕ)} {jop : JoinOp} {pos : ℕ × ℕ}

theorem visitJoin_types (h : v.visitJoin jop pos rhs = some v') :
    v'.types = v.types ++ rhs.rhsType ++ if jop = .LEFT_OUTER then [7] else [] := by
  simp only [visitJoin,Option.bind_eq_bind,Option.bind_eq_some_iff,Option.pure_def,
    Option.some.injEq] at h
  obtain ⟨_,_,rfl⟩ := h
  simp only [types,List.map_append,resRegs_types rhs.rhsType_le]
  cases jop <;> rfl

theorem visit_types (hin : p.input = some inp) (hp : p.RhsChain)
    (h : (codegenInlineVisitor db).visit p opId v = some v') :
    inp.RhsChain ∧ p.typesAtEnd v.types = inp.typesAtEnd v'.types := by
  cases p <;> simp only [Plan.input,reduceCtorEq,Option.some.injEq] at hin <;> subst hin <;>
    simp only [codegenInlineVisitor,visitForeachRship,visitExpand,visitFilter,
      Option.bind_eq_bind,Option.bind_eq_some_iff,Option.pure_def,Option.some.injEq,
      Prod.exists] at h
  case scan =>
    subst h
    exact ⟨hp,rfl⟩
  case foreachRship =>
    obtain ⟨_,_,rfl⟩ := h
    exact ⟨hp,by simp [Plan.typesAtEnd,types]⟩
  case expand =>
    obtain ⟨_,_,rfl⟩ := h
    exact ⟨hp,by simp [Plan.typesAtEnd,types]⟩
  case filter =>
    obtain ⟨_,_,_,_,_,rfl⟩ := h
    exact ⟨hp,rfl⟩
  case limit =>
    subst h
    exact ⟨hp,rfl⟩
  all_goals exact absurd hp id

theorem codegen_endTypes (hp : p.RhsChain) : ∀ {opId n : ℕ} {v v' : CodegenInlineVisitor}
    {log log' : List (List ℕ)},
    p.codegen ((codegenInlineVisitor db).logging endTypes) opId true (v,log) =
      some ((v',log'),n) →
    ∃ rest, log' = log ++ p.typesAtEnd v.types :: rest := by
  induction p with
  | collect => exact absurd hp id
  | endOp =>
    intro opId n v v' log log' h
    simp only [Plan.codegen,OpVisitor.logging_visit,Option.bind_eq_bind,Option.bind_eq_some_iff,
      Option.map_eq_some_iff,Option.pure_def,Option.some.injEq,Prod.mk.injEq] at h
    obtain ⟨_,⟨_,_,rfl⟩,⟨rfl,rfl⟩,_⟩ := h
    exact ⟨[],rfl⟩
  | join jop pos lhs rhs ihl ihr =>
    intro opId n v v' log log' h
    obtain ⟨_,hl,hr⟩ := hp
    simp only [Plan.codegen,if_true,OpVisitor.logging_visit,Option.bind_eq_bind,
      Option.bind_eq_some_iff,Option.map_eq_some_iff,Prod.exists] at h
    obtain ⟨_,_,⟨v₁,hvisit,hlog⟩,v₂,log₂,_,h₂,h₃⟩ := h
    obtain ⟨rfl,rfl⟩ := Prod.mk.inj hlog
    obtain ⟨rest₂,rfl⟩ := ihl hl h₂
    obtain ⟨rest₃,rfl⟩ := ihr hr h₃
    have htypes : v₁.types = _ := visitJoin_types hvisit
    rw [htypes,Plan.typesAtEnd]
    simp [endTypes]
  | _ _ _ =>
    rename_i ih
    intro opId n v v' log log' h
    rw [Plan.codegen_input rfl,OpVisitor.logging_visit,Option.bind_eq_some_iff] at h
    obtain ⟨_,h₁,h₂⟩ := h
    obtain ⟨v₁,hvisit,rfl⟩ := Option.map_eq_some_iff.1 h₁
    obtain ⟨hinp,htypes⟩ := visit_types rfl hp hvisit
    obtain ⟨rest,rfl⟩ := ih hinp h₂
    rw [htypes]
    exact ⟨rest,by simp [endTypes]⟩

end Walk

section Types
variable {p inp : Plan} {ts types regs : List ℕ} {v : CodegenInlineVisitor}

/-- Behind an access path the two walks agree, or there is a flag among the registers, or a further
access path has cleared them. -/
theorem Plan.typesAtEnd_cases (hp : p.RhsChain) : ∀ ts : List ℕ,
    p.Flagless ∧ p.typesAtEnd ts = ts ++ p.rhsType ∨
      ¬ p.Flagless ∧ (7 ∈ p.typesAtEnd ts ∨ (p.typesAtEnd ts).length ≤ p.rhsType.length) := by
  induction p with
  | scan label indexed inp ih =>
    intro ts
    refine .inr ⟨id,?_⟩
    rcases ih hp [0] with ⟨_,heq⟩ | ⟨_,hflag | hlen⟩
    · right
      rw [typesAtEnd,heq,rhsType,List.singleton_append]
    · exact .inl hflag
    · right
      exact Nat.le_succ_of_le hlen
  | foreachRship dir hops label inp ih =>
    intro ts
    rcases ih hp (ts ++ [1]) with ⟨hf,heq⟩ | ⟨hf,hflag | hlen⟩
    · left
      refine ⟨hf,?_⟩
      rw [typesAtEnd,heq,rhsType,List.append_assoc,List.singleton_append]
    · exact .inr ⟨hf,.inl hflag⟩
    · exact .inr ⟨hf,.inr (Nat.le_succ_of_le hlen)⟩
  | expand exp label inp ih =>
    intro ts
    rcases ih hp (ts ++ [0]) with ⟨hf,heq⟩ | ⟨hf,hflag | hlen⟩
    · left
      refine ⟨hf,?_⟩
      rw [typesAtEnd,heq,rhsType,List.append_assoc,List.singleton_append]
    · exact .inr ⟨hf,.inl hflag⟩
    · exact .inr ⟨hf,.inr (Nat.le_succ_of_le hlen)⟩
  | filter fexpr inp ih => exact ih hp
  | limit n inp ih => exact ih hp
  | endOp => exact fun ts => .inl ⟨trivial,(List.append_nil ts).symm⟩
  | join jop pos lhs rhs ihl _ =>
    intro ts
    obtain ⟨hjop,hl,_⟩ := hp
    have hih := ihl hl (ts ++ rhs.rhsType ++ if jop = .LEFT_OUTER then [7] else [])
    have hlen : ∀ {n : ℕ}, n ≤ lhs.rhsType.length →
        n ≤ (Plan.join jop pos lhs rhs).rhsType.length := by
      intro n hn
      rcases hjop with rfl | rfl <;> simp only [rhsType,List.length_append] <;> omega
    rcases hih with ⟨hf,heq⟩ | ⟨hf,hflag | hle⟩
    · rcases hjop with rfl | rfl
      · left
        refine ⟨⟨by simp,hf⟩,?_⟩
        rw [typesAtEnd,heq,rhsType]
        simp
      · right
        refine ⟨fun h => h.1 rfl,.inl ?_⟩
        rw [typesAtEnd,heq]
        simp
    · exact .inr ⟨fun h => hf h.2,.inl hflag⟩
    · exact .inr ⟨fun h => hf h.2,.inr (hlen hle)⟩
  | _ => exact absurd hp id

theorem readsMaterialised_self (h : ∀ type ∈ types, type ≤ 1) :
    ReadsMaterialised v types types := by
  refine ⟨rfl,?_⟩
  apply List.ext_getElem
  · simp [resInstrs]
  · intro i hi hi'
    simp only [List.length_mapIdx] at hi'
    have hle := h _ (List.getElem_mem hi')
    simp only [resInstrs,List.getElem_map,List.getElem_mapIdx]
    split_ifs with h0
    · rw [h0]
      rfl
    · obtain hone : types[i] = 1 := by omega
      rw [hone]
      rfl

end Types

/-- `get_rhs_type` has the types of the registers that the `End` of a right-hand side materialises
only if no left outer join is in the chain, and no other access path. -/
theorem rhsType_iff (db : GraphDb) (v v' u : CodegenInlineVisitor) (p : Plan) (opId n : ℕ)
    (log : List (List ℕ)) (hp : p.RhsChain) (hscan : p.isScan = true)
    (hgen : p.codegen ((codegenInlineVisitor db).logging endTypes) opId true (v,[]) =
      some ((v',log),n)) :
    (∃ regs, log.head? = some regs ∧ ReadsMaterialised u p.rhsType regs) ↔
      ∀ inp, p.input = some inp → inp.Flagless := by
  obtain ⟨rest,rfl⟩ := codegen_endTypes hp hgen
  cases p with
  | scan label indexed inp =>
    have hinput : (∀ inp', (Plan.scan label indexed inp).input = some inp' → inp'.Flagless) ↔
        inp.Flagless := by simp [Plan.input]
    have hle := (Plan.scan label indexed inp).rhsType_le
    rw [hinput]
    constructor
    · rintro ⟨regs,hregs,heq,_⟩
      obtain rfl := Option.some.inj hregs
      by_contra hf
      rcases inp.typesAtEnd_cases hp [0] with ⟨h,_⟩ | ⟨_,hflag | hlen⟩
      · exact hf h
      · exact absurd (hle 7 (heq ▸ hflag)) (by simp)
      · have hlength := congrArg List.length heq
        simp only [Plan.rhsType,Plan.typesAtEnd,List.length_cons] at hlength
        omega
    · intro hf
      refine ⟨_,rfl,?_⟩
      rcases inp.typesAtEnd_cases hp [0] with ⟨_,heq⟩ | ⟨h,_⟩
      · rw [Plan.typesAtEnd,heq]
        exact readsMaterialised_self hle
      · exact absurd hf h
  | _ => cases hscan

def personsCrossPersons : Plan :=
  .scan "Person" false (.join .CROSS (0,0) .endOp (.scan "Person" false .endOp))

def behindJoin : CodegenInlineVisitor := { init fun _ => none with queryIdInline := 1, jids := [0] }

theorem rhsType_personsCrossPersons : ∃ v' log n,
    personsCrossPersons.codegen ((codegenInlineVisitor pairDb).logging endTypes) 2 true
        (behindJoin,[]) = some ((v',log),n) ∧
      ∃ regs, log.head? = some regs ∧
        ReadsMaterialised behindJoin personsCrossPersons.rhsType regs := by
  refine ⟨_,_,_,rfl,(rhsType_iff pairDb behindJoin _ behindJoin personsCrossPersons 2 _ _
    ⟨.inl rfl,trivial,trivial⟩ rfl rfl).2 ?_⟩
  rintro _ ⟨⟩
  exact ⟨nofun,trivial⟩

/-- The registers of a left outer join have the flag, the list has not. -/
theorem not_rhsType_leftOuter : ∃ v' log n,
    (Plan.scan "Person" false (.join .LEFT_OUTER (0,0) .endOp
        (.scan "Person" false .endOp))).codegen
        ((codegenInlineVisitor pairDb).logging endTypes) 2 true (behindJoin,[]) =
          some ((v',log),n) ∧
      log.head? = some [0,0,7] ∧
      ¬ ∃ regs, log.head? = some regs ∧ ReadsMaterialised behindJoin
        (Plan.scan "Person" false (.join .LEFT_OUTER (0,0) .endOp
          (.scan "Person" false .endOp))).rhsType regs := by
  refine ⟨_,_,_,rfl,rfl,?_⟩
  rintro ⟨regs,hregs,htypes,_⟩
  obtain rfl := Option.some.inj hregs
  exact absurd htypes (by decide)

end GraphQueryCompiler
