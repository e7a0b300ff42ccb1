import GraphQueryCompiler.ArgExtraction

/-!
# The argument slots of the operators

Every operator that reads the argument array reads a range of slots that starts with its
`op_id_`. The traversal moves the counter past the range before it descends, so no two ranges
of a plan overlap, whatever the visitor does.
-/

namespace GraphQueryCompiler
namespace Plan

def numArgs : Plan → ℕ
  | .scan _ indexed _ => if indexed then 3 else 1
  | .foreachRship .. => 1
  | .expand .. => 1
  | .filter .. => 1
  | .create .. => 2
  | _ => 0

def slots (x : Plan × ℕ) : List ℕ := List.range' x.2 x.1.numArgs

/-- The two operators read no argument in common. -/
def SlotsApart (x y : Plan × ℕ) : Prop := List.Disjoint (slots x) (slots y)

variable {σ : Type*} {vis : OpVisitor σ} {p inp : Plan} {opId k : ℕ} {x : Plan × ℕ}

def SlotsIn (l : List (Plan × ℕ)) (first last : ℕ) : Prop :=
  ∀ x ∈ l, ∀ k ∈ slots x, first ≤ k ∧ k < last

theorem mem_slots : k ∈ slots x ↔ x.2 ≤ k ∧ k < x.2 + x.1.numArgs := List.mem_range'_1

theorem numArgs_le_nextOffset (hin : p.input = some inp) : p.numArgs ≤ p.nextOffset := by
  cases p <;> simp only [input,reduceCtorEq,Option.some.injEq] at hin <;> subst hin <;>
    simp [numArgs,nextOffset]

theorem le_opIdEnd (p : Plan) (opId : ℕ) : opId ≤ p.opIdEnd opId := by
  have h := p.extracted_length_le false opId
  omega

theorem SlotsIn.mono {l : List (Plan × ℕ)} {a a' b b' : ℕ} (h : SlotsIn l a b) (ha : a' ≤ a)
    (hb : b ≤ b') : SlotsIn l a' b' := by
  intro x hx k hk
  have := h x hx k hk
  omega

theorem SlotsIn.apart {l l' : List (Plan × ℕ)} {a b c : ℕ} (h : SlotsIn l a b)
    (h' : SlotsIn l' b c) : ∀ x ∈ l, ∀ y ∈ l', SlotsApart x y := by
  intro x hx y hy k hkx hky
  have := h x hx k hkx
  have := h' y hy k hky
  omega

theorem SlotsIn.cons {l : List (Plan × ℕ)} {a b c : ℕ} (hp : a + p.numArgs ≤ b) (hbc : b ≤ c)
    (h : SlotsIn l b c) : SlotsIn ((p,a) :: l) a c := by
  rw [SlotsIn,List.forall_mem_cons]
  refine ⟨fun k hk => ?_,h.mono (Nat.le_trans (Nat.le_add_right _ _) hp) (le_refl _)⟩
  have hk := mem_slots.1 hk
  dsimp only at hk
  omega

theorem SlotsIn.append {l l' : List (Plan × ℕ)} {a b c : ℕ} (hab : a ≤ b) (hbc : b ≤ c)
    (h : SlotsIn l a b) (h' : SlotsIn l' b c) : SlotsIn (l ++ l') a c :=
  List.forall_mem_append.2 ⟨h.mono (le_refl _) hbc,h'.mono hab (le_refl _)⟩

theorem numbered_slotsIn (p : Plan) : ∀ {opId : ℕ},
    SlotsIn (p.numbered opId) opId (p.opIdEnd opId) := by
  induction p with
  | join jop pos lhs rhs ihl ihr =>
    intro opId
    have hl := lhs.le_opIdEnd opId
    have hr := rhs.le_opIdEnd (lhs.opIdEnd opId)
    exact .cons (le_refl _) (hl.trans hr) (.append hl hr ihl ihr)
  | collect | endOp => exact .cons (le_refl _) (le_refl _) (by simp [SlotsIn])
  | _ _ _ =>
    rename_i inp ih
    intro opId
    rw [numbered_input rfl,opIdEnd_input rfl]
    exact .cons (Nat.add_le_add_left (numArgs_le_nextOffset rfl) _) (le_opIdEnd _ _) ih

theorem numbered_apart_input (hin : p.input = some inp)
    (ih : (inp.numbered (opId + p.nextOffset)).Pairwise SlotsApart) :
    (p.numbered opId).Pairwise SlotsApart := by
  have hown : SlotsIn [(p,opId)] opId (opId + p.nextOffset) :=
    .cons (Nat.add_le_add_left (numArgs_le_nextOffset hin) _) (le_refl _) (by simp [SlotsIn])
  rw [numbered_input hin,List.pairwise_cons]
  exact ⟨hown.apart inp.numbered_slotsIn _ (List.mem_singleton_self _),ih⟩

theorem numbered_apart (p : Plan) : ∀ {opId : ℕ}, (p.numbered opId).Pairwise SlotsApart := by
  induction p with
  | join jop pos lhs rhs ihl ihr =>
    intro opId
    rw [numbered,List.pairwise_cons,List.pairwise_append]
    exact ⟨fun y _ => List.disjoint_nil_left _,ihl,ihr,
      lhs.numbered_slotsIn.apart rhs.numbered_slotsIn⟩
  | collect | endOp => exact List.pairwise_singleton _ _
  | _ _ _ =>
    rename_i ih
    exact numbered_apart_input rfl ih

theorem codegen_numbered (p : Plan) : ∀ {opId n : ℕ} {s s' : σ} {l l' : List (Plan × ℕ)},
    p.codegen (vis.logging fun op opId _ => [(op,opId)]) opId true (s,l) = some ((s',l'),n) →
      l' = l ++ p.numbered opId := by
  induction p with
  | collect | endOp =>
    intro opId n s s' l l' h
    simp only [codegen,OpVisitor.logging_visit,Option.bind_eq_bind,Option.bind_eq_some_iff,
      Option.map_eq_some_iff,Option.pure_def,Option.some.injEq,Prod.mk.injEq] at h
    obtain ⟨_,⟨_,_,rfl⟩,⟨rfl,rfl⟩,_⟩ := h
    rfl
  | join jop pos lhs rhs ihl ihr =>
    intro opId n s s' l l' h
    simp only [codegen,if_true,OpVisitor.logging_visit,Option.bind_eq_bind,
      Option.bind_eq_some_iff,Option.map_eq_some_iff,Prod.exists] at h
    obtain ⟨_,_,⟨_,_,h₁⟩,_,l₂,n₂,h₂,h₃⟩ := h
    obtain ⟨rfl,rfl⟩ := Prod.mk.inj h₁
    obtain rfl := ihl h₂
    have hn : n₂ = lhs.opIdEnd opId := lhs.codegen_opId h₂
    rw [ihr h₃,hn,numbered]
    simp
  | _ _ _ =>
    rename_i ih
    intro opId n s s' l l' h
    rw [codegen_input rfl,OpVisitor.logging_visit,Option.bind_eq_some_iff] at h
    obtain ⟨_,h₁,h₂⟩ := h
    obtain ⟨_,_,rfl⟩ := Option.map_eq_some_iff.1 h₁
    rw [ih h₂,List.append_assoc]
    rfl

end Plan

/-- Numbered from 1, the operators of a plan read argument slots from 1 on, no slot twice. -/
theorem codegen_slotsApart {σ : Type*} (vis : OpVisitor σ) (p : Plan) (s s' : σ)
    (l : List (Plan × ℕ)) (n : ℕ)
    (h : p.codegen (vis.logging fun op opId _ => [(op,opId)]) 1 true (s,[]) = some ((s',l),n)) :
    l.Pairwise Plan.SlotsApart ∧ ∀ x ∈ l, ∀ k ∈ Plan.slots x, 1 ≤ k := by
  obtain rfl := p.codegen_numbered h
  exact ⟨p.numbered_apart,fun x hx k hk => (p.numbered_slotsIn x hx k hk).1⟩

def personsIndexedBook : Plan :=
  .scan "Person" false (.join .CROSS (0,0) (.collect false) (.scan "Book" true .endOp))

theorem codegen_slotsApart_join :
    (personsIndexedBook.numbered 1).Pairwise Plan.SlotsApart ∧
      ∀ x ∈ personsIndexedBook.numbered 1, ∀ k ∈ Plan.slots x, 1 ≤ k :=
  codegen_slotsApart numberVisitor personsIndexedBook [] _ _ _ rfl

end GraphQueryCompiler
