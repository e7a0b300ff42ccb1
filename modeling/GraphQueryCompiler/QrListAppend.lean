import GraphQueryCompiler.QrList

/-!
# Appending to the lists of query results

`qr_list_append` and `qr_list_concat` are two wirings of `while_qr_list`. Their loops make a node
for every element and add it nowhere, since `qr_list_add_end` returns at once and is not called. The
successor of the loop over the second list of `qr_list_concat` is the block in front of it.
-/

namespace GraphQueryCompiler
open LinkedChain StepMachine

variable {ε : Type}

def QrHeap.qrListAddEnd (h : QrHeap ε) (_list : Address) (_element : ε) : QrHeap ε := h

/-- The loop body of `qr_list_append` and of both loops of `qr_list_concat`, with the number of
blocks that the function has made. The blocks that `malloc` returns to it are a sequence. -/
def copyQrNode (malloc : ℕ → Address) (curNode : Address) (s : QrHeap ε × ℕ) :
    Option ((QrHeap ε × ℕ) × Bool) :=
  (s.1.nodes curNode).map fun lnode =>
    ((s.1.createQrNode (malloc s.2) lnode.element 0 0,s.2+1),false)

def copyQrLoop (malloc : ℕ → Address) : WhileQrList (QrHeap ε × ℕ) →
    Option (WhileQrList (QrHeap ε × ℕ)) := whileQrList Prod.fst (copyQrNode malloc)

inductive QrListAppend (ε : Type)
  | loop (w : WhileQrList (QrHeap ε × ℕ))
  | ret (s : QrHeap ε × ℕ)

def qrListAppendStep (malloc : ℕ → Address) : QrListAppend ε → Option (QrListAppend ε)
  | .loop (.next _ s) => some (.ret s)
  | .loop w => (copyQrLoop malloc w).map .loop
  | .ret _ => none

def qrListAppendEntry (malloc : ℕ → Address) (h : QrHeap ε) (llist : Address) (_qrEl : ε) :
    Option (QrListAppend ε) :=
  let h := h.createQrList (malloc 0) none
  (h.lists llist).map fun q => .loop (.condition q.head (h,1))

inductive QrListConcat (ε : Type)
  | left (w : WhileQrList (QrHeap ε × ℕ))
  | rList (s : QrHeap ε × ℕ)
  | right (w : WhileQrList (QrHeap ε × ℕ))
  | ret (s : QrHeap ε × ℕ)
  | undefined

def qrListConcatStep (malloc : ℕ → Address) (qrl2 : Address) :
    QrListConcat ε → Option (QrListConcat ε)
  | .left (.next _ s) => some (.rList s)
  | .left w => (copyQrLoop malloc w).map .left
  | .rList s => some ((s.1.lists qrl2).elim .undefined fun q => .right (.condition q.head s))
  -- the successor block of the second loop is the block in front of it
  | .right (.next _ s) => some (.rList s)
  | .right w => (copyQrLoop malloc w).map .right
  | .ret _ => none
  | .undefined => none

def qrListConcatEntry (malloc : ℕ → Address) (h : QrHeap ε) (qrl1 : Address) (_qrEl : ε) :
    Option (QrListConcat ε) :=
  let h := h.createQrList (malloc 0) none
  (h.lists qrl1).map fun q => .left (.condition q.head (h,1))

structure QrHeap.NewList (h h' : QrHeap ε) (list : Address) (es : List ε) : Prop where
  fresh : h.lists list = none
  elements : ∃ xs q, h'.Represents list xs q ∧ xs.map Prod.snd = es ∧ ∀ x ∈ xs, h.nodes x.1 = none
  lists : ∀ l q, h.lists l = some q → h'.lists l = some q
  nodes : ∀ a n, h.nodes a = some n → h'.nodes a = some n

def QrListAppends (malloc : ℕ → Address) (h : QrHeap ε) (llist : Address) (xs : QrDeque ε)
    (e : ε) : Prop :=
  ∃ c s, qrListAppendEntry malloc h llist e = some c ∧
    Returns (qrListAppendStep malloc) c (.ret s) ∧
    h.NewList s.1 (malloc 0) (xs.map Prod.snd ++ [e])

/-- `qr_list_concat` returns a new list with the element behind those of both lists. -/
def QrListConcats (malloc : ℕ → Address) (h : QrHeap ε) (qrl1 qrl2 : Address)
    (xs ys : QrDeque ε) (e : ε) : Prop :=
  ∃ c s, qrListConcatEntry malloc h qrl1 e = some c ∧
    Returns (qrListConcatStep malloc qrl2) c (.ret s) ∧
    h.NewList s.1 (malloc 0) (xs.map Prod.snd ++ ys.map Prod.snd ++ [e])

def QrListAddsEnd (h : QrHeap ε) (list : Address) (xs : QrDeque ε) (e : ε) : Prop :=
  ∃ node q q', h.lists list = some q ∧
    (h.qrListAddEnd list e).Represents list (xs ++ [(node,e)]) q' ∧ q'.size = q.size+1

def WhileQrList.Forall {σ : Type*} (P : σ → Prop) : WhileQrList σ → Prop
  | .condition _ s | .body _ s | .epilog _ s | .next _ s => P s
  | .undefined => True

def QrListAppend.Forall (P : QrHeap ε × ℕ → Prop) : QrListAppend ε → Prop
  | .loop w => w.Forall P
  | .ret s => P s

theorem whileQrList_forall {σ : Type*} {heap : σ → QrHeap ε} {P : σ → Prop}
    {loopBody : Address → σ → Option (σ × Bool)}
    (hbody : ∀ curNode s r, P s → loopBody curNode s = some r → P r.1) {w w' : WhileQrList σ}
    (hstep : whileQrList heap loopBody w = some w') (hw : w.Forall P) : w'.Forall P := by
  cases w with
  | condition a s =>
    obtain rfl := Option.some.inj hstep
    split <;> exact hw
  | body a s =>
    obtain rfl := Option.some.inj hstep
    cases hr : loopBody a s with
    | none => trivial
    | some r =>
      have hP := hbody a s r hw hr
      simp only [Option.elim_some]
      split <;> exact hP
  | epilog a s =>
    obtain rfl := Option.some.inj hstep
    cases (heap s).nodes a with
    | none => trivial
    | some n => exact hw
  | next _ _ | undefined => cases hstep

section
variable {malloc : ℕ → Address} {h : QrHeap ε} {list llist qrl1 qrl2 a : Address} {e : ε}
  {xs ys : QrDeque ε} {l : List Address} {s : QrHeap ε × ℕ} {q : QrList}

structure QrHeap.Kept (h h' : QrHeap ε) : Prop where
  nodes : ∀ a n, h.nodes a = some n → h'.nodes a = some n
  lists : h'.lists = h.lists

theorem QrHeap.Kept.refl (h : QrHeap ε) : h.Kept h := ⟨fun _ _ hn => hn,rfl⟩

theorem copyQrNode_kept (hmalloc : ∀ k, h.nodes (malloc k) = none) (hs : h.Kept s.1)
    {r : (QrHeap ε × ℕ) × Bool} (hbody : copyQrNode malloc a s = some r) :
    h.Kept r.1.1 ∧ r.2 = false := by
  obtain ⟨n,_,rfl⟩ := Option.map_eq_some_iff.1 hbody
  refine ⟨⟨fun b m hb => ?_,hs.lists⟩,rfl⟩
  have hne : b ≠ malloc s.2 := by
    rintro rfl
    rw [hmalloc] at hb
    cases hb
  exact (Function.update_of_ne hne ..).trans (hs.nodes b m hb)

theorem copyQrLoop_reaches (hmalloc : ∀ k, h.nodes (malloc k) = none)
    (hchain : IsChain h.next 0 (· ≠ 0) a l) (hnodes : ∀ b ∈ l, ∃ n, h.nodes b = some n) :
    ∀ {s : QrHeap ε × ℕ}, h.Kept s.1 → ∃ s', h.Kept s'.1 ∧
      Reaches (copyQrLoop malloc) (.condition a s) (.next 0 s') := by
  induction hchain with
  | nil => exact fun {s} hs => ⟨s,hs,Reaches.single rfl⟩
  | @cons a l ha _ ih =>
    intro s hs
    obtain ⟨⟨n,hn⟩,hrest⟩ := List.forall_mem_cons.1 hnodes
    have hcond : copyQrLoop malloc (.condition a s) = some (.body a s) := by
      simp [copyQrLoop,whileQrList,ha]
    obtain ⟨r,hr⟩ : ∃ r, copyQrNode malloc a s = some r := by
      rw [copyQrNode,hs.nodes a n hn]
      exact ⟨_,rfl⟩
    obtain ⟨hkept,hend⟩ := copyQrNode_kept hmalloc hs hr
    have hbody : copyQrLoop malloc (.body a s) = some (.epilog a r.1) := by
      simp [copyQrLoop,whileQrList,hr,hend]
    have hepilog : copyQrLoop malloc (.epilog a r.1) = some (.condition (h.next a) r.1) := by
      simp [copyQrLoop,whileQrList,hkept.nodes a n hn,QrHeap.next,hn]
    obtain ⟨s',hs',hreach⟩ := ih hrest hkept
    exact ⟨s',hs',.head hcond (.head hbody (.head hepilog hreach))⟩

theorem QrHeap.Represents.copy_reaches (hh : h.Represents list xs q)
    (hmalloc : ∀ k, h.nodes (malloc k) = none) (hs : h.Kept s.1) :
    ∃ s', h.Kept s'.1 ∧ Reaches (copyQrLoop malloc) (.condition q.head s) (.next 0 s') := by
  refine copyQrLoop_reaches hmalloc hh.next_chain ?_ hs
  intro b hb
  obtain ⟨x,hx,rfl⟩ := List.mem_map.1 hb
  obtain ⟨n,hn,_⟩ := hh.elements x hx
  exact ⟨n,hn⟩

theorem createQrList_represents (hh : h.Represents llist xs q) (hlist : h.lists list = none) :
    (h.createQrList list none).Represents llist xs q where
  list_eq := by
    have hne : llist ≠ list := by
      rintro rfl
      rw [hh.list_eq] at hlist
      cases hlist
    exact (Function.update_of_ne hne ..).trans hh.list_eq
  size := hh.size
  next_chain := hh.next_chain
  prev_chain := hh.prev_chain
  head_null := hh.head_null
  tail_null := hh.tail_null
  elements := hh.elements

theorem qrListAppendStep_loop {w w' : WhileQrList (QrHeap ε × ℕ)}
    (hstep : copyQrLoop malloc w = some w') :
    qrListAppendStep malloc (.loop w) = some (.loop w') := by
  cases w with
  | next _ _ => cases hstep
  | _ => exact congrArg (Option.map QrListAppend.loop) hstep

theorem qrListConcatStep_left {w w' : WhileQrList (QrHeap ε × ℕ)}
    (hstep : copyQrLoop malloc w = some w') :
    qrListConcatStep malloc qrl2 (.left w) = some (.left w') := by
  cases w with
  | next _ _ => cases hstep
  | _ => exact congrArg (Option.map QrListConcat.left) hstep

theorem qrListConcatStep_right {w w' : WhileQrList (QrHeap ε × ℕ)}
    (hstep : copyQrLoop malloc w = some w') :
    qrListConcatStep malloc qrl2 (.right w) = some (.right w') := by
  cases w with
  | next _ _ => cases hstep
  | _ => exact congrArg (Option.map QrListConcat.right) hstep

theorem qrListAppendStep_forall {P : QrHeap ε × ℕ → Prop}
    (hP : ∀ curNode s r, P s → copyQrNode malloc curNode s = some r → P r.1)
    (c d : QrListAppend ε) (hc : c.Forall P) (hstep : qrListAppendStep malloc c = some d) :
    d.Forall P := by
  cases c with
  | ret _ => cases hstep
  | loop w =>
    cases hw : copyQrLoop malloc w with
    | some w' =>
      rw [qrListAppendStep_loop hw] at hstep
      obtain rfl := Option.some.inj hstep
      exact whileQrList_forall hP hw hc
    | none =>
      cases w with
      | next _ _ =>
        obtain rfl := Option.some.inj hstep
        exact hc
      | condition _ _ | body _ _ | epilog _ _ => cases hw
      | undefined => cases hstep

theorem qrListAppend_empty {c : QrListAppend ε}
    (hentry : qrListAppendEntry malloc h llist e = some c)
    (hreach : Reaches (qrListAppendStep malloc) c (.ret s)) :
    s.1.lists (malloc 0) = some ⟨0,0,0⟩ := by
  have hkeep : ∀ curNode (s : QrHeap ε × ℕ) r, s.1.lists (malloc 0) = some ⟨0,0,0⟩ →
      copyQrNode malloc curNode s = some r → r.1.1.lists (malloc 0) = some ⟨0,0,0⟩ := by
    intro curNode s r hs hbody
    obtain ⟨n,_,rfl⟩ := Option.map_eq_some_iff.1 hbody
    exact hs
  have hfirst : c.Forall fun s => s.1.lists (malloc 0) = some ⟨0,0,0⟩ := by
    obtain ⟨q,_,rfl⟩ := Option.map_eq_some_iff.1 hentry
    exact Function.update_self ..
  have hlast := Reaches.invariant (P := QrListAppend.Forall _) (qrListAppendStep_forall hkeep)
    hreach hfirst
  exact hlast

theorem qrListAppend_returns (hh : h.Represents llist xs q)
    (hnodes : ∀ k, h.nodes (malloc k) = none) (hlist : h.lists (malloc 0) = none) :
    ∃ c s, qrListAppendEntry malloc h llist e = some c ∧
      Returns (qrListAppendStep malloc) c (.ret s) ∧
      (h.createQrList (malloc 0) none).Kept s.1 := by
  have hh' := createQrList_represents hh hlist
  obtain ⟨s,hs,hreach⟩ := hh'.copy_reaches (s := (h.createQrList (malloc 0) none,1)) hnodes
    (.refl _)
  refine ⟨.loop (.condition q.head (h.createQrList (malloc 0) none,1)),s,?_,⟨?_,rfl⟩,hs⟩
  · rw [qrListAppendEntry,hh'.list_eq]
    rfl
  · have hloop : Reaches (qrListAppendStep malloc) _ (.loop (.next 0 s)) :=
      hreach.lift QrListAppend.loop fun _ _ => qrListAppendStep_loop
    exact hloop.tail rfl

theorem qrListConcatStep_ne_ret (c : QrListConcat ε) (s : QrHeap ε × ℕ) :
    qrListConcatStep malloc qrl2 c ≠ some (.ret s) := by
  intro hstep
  cases c with
  | rList s' =>
    obtain hret := Option.some.inj hstep
    cases hq : s'.1.lists qrl2 with
    | none => rw [hq] at hret; cases hret
    | some q => rw [hq] at hret; cases hret
  | left w =>
    cases hw : copyQrLoop malloc w with
    | some w' =>
      rw [qrListConcatStep_left hw] at hstep
      cases hstep
    | none => cases w <;> cases hstep
  | right w =>
    cases hw : copyQrLoop malloc w with
    | some w' =>
      rw [qrListConcatStep_right hw] at hstep
      cases hstep
    | none => cases w <;> cases hstep
  | ret _ | undefined => cases hstep

theorem qrListConcat_not_ret {c : QrListConcat ε}
    (hentry : qrListConcatEntry malloc h qrl1 e = some c) :
    ¬ Reaches (qrListConcatStep malloc qrl2) c (.ret s) := by
  intro hreach
  rcases hreach.cases_tail with rfl | ⟨d,_,hstep⟩
  · obtain ⟨q,_,hq⟩ := Option.map_eq_some_iff.1 hentry
    cases hq
  · exact qrListConcatStep_ne_ret d s hstep

/-- `qr_list_concat` runs through the second list without end. -/
theorem qrListConcat_endless {q₂ : QrList} (hh : h.Represents qrl1 xs q)
    (hh₂ : h.Represents qrl2 ys q₂) (hnodes : ∀ k, h.nodes (malloc k) = none)
    (hlist : h.lists (malloc 0) = none) :
    ∃ c, qrListConcatEntry malloc h qrl1 e = some c ∧
      ∀ d, ¬ Returns (qrListConcatStep malloc qrl2) c d := by
  have hh' := createQrList_represents hh hlist
  have hh₂' := createQrList_represents hh₂ hlist
  obtain ⟨s,hs,hreach⟩ := hh'.copy_reaches (s := (h.createQrList (malloc 0) none,1)) hnodes
    (.refl _)
  have hleft : Reaches (qrListConcatStep malloc qrl2) _ (.left (.next 0 s)) :=
    hreach.lift QrListConcat.left fun _ _ => qrListConcatStep_left
  refine ⟨.left (.condition q.head (h.createQrList (malloc 0) none,1)),?_,fun d hd => ?_⟩
  · rw [qrListConcatEntry,hh'.list_eq]
    rfl
  have hrList := Returns.after (hleft.tail rfl) hd
  -- every round comes back to the block in front of the second loop
  have hround : ∀ c : QrListConcat ε, (∃ s, c = .rList s ∧
      (h.createQrList (malloc 0) none).Kept s.1) → ∃ d b, qrListConcatStep malloc qrl2 c = some d ∧
      Reaches (qrListConcatStep malloc qrl2) d b ∧
      ∃ s, b = .rList s ∧ (h.createQrList (malloc 0) none).Kept s.1 := by
    rintro _ ⟨s,rfl,hs⟩
    obtain ⟨s',hs',hreach'⟩ := hh₂'.copy_reaches hnodes hs
    have hright : Reaches (qrListConcatStep malloc qrl2) _ (.right (.next 0 s')) :=
      hreach'.lift QrListConcat.right fun _ _ => qrListConcatStep_right
    refine ⟨_,_,?_,hright.tail rfl,s',rfl,hs'⟩
    rw [qrListConcatStep,hs.lists,hh₂'.list_eq]
    rfl
  exact not_returns_of_endless hround ⟨s,rfl,hs⟩ hrList

theorem qrListAppend_not_appends : ¬ QrListAppends malloc h llist xs e := by
  rintro ⟨c,s,hentry,⟨hreach,_⟩,hnew⟩
  obtain ⟨zs,q,hzs,hes,_⟩ := hnew.elements
  obtain rfl := Option.some.inj (hzs.list_eq.symm.trans (qrListAppend_empty hentry hreach))
  obtain rfl : zs = [] := List.length_eq_zero_iff.1 hzs.size.symm
  simp at hes

theorem qrListConcat_not_concats : ¬ QrListConcats malloc h qrl1 qrl2 xs ys e := by
  rintro ⟨c,s,hentry,⟨hreach,_⟩,_⟩
  exact qrListConcat_not_ret hentry hreach

theorem qrListAddEnd_not_addsEnd : ¬ QrListAddsEnd h list xs e := by
  rintro ⟨node,q,q',hq,hadd,hsize⟩
  obtain rfl := Option.some.inj (hq.symm.trans hadd.list_eq)
  simp at hsize

/-- No function does what it is for, on any list. -/
theorem qrLists_not_extended (malloc : ℕ → Address) (h : QrHeap ε) (l₁ l₂ : Address)
    (xs ys : QrDeque ε) (e : ε) :
    ¬ QrListAppends malloc h l₁ xs e ∧ ¬ QrListConcats malloc h l₁ l₂ xs ys e ∧
      ¬ QrListAddsEnd h l₁ xs e :=
  ⟨qrListAppend_not_appends,qrListConcat_not_concats,qrListAddEnd_not_addsEnd⟩

/-- The element 9 is appended to the list of 7. -/
theorem not_qrLists_extended : ∃ h : QrHeap ℕ,
    (∃ q, h.Represents 8 [(16,7)] q) ∧ (∃ q, h.Represents 24 [] q) ∧
    ∀ malloc, ¬ QrListAppends malloc h 8 [(16,7)] 9 ∧
      ¬ QrListConcats malloc h 8 24 [(16,7)] [] 9 ∧ ¬ QrListAddsEnd h 8 [(16,7)] 9 := by
  obtain ⟨q,hq⟩ := QrHeap.createQrList_holds emptyQrHeap 8 (some (7,16)) (by simp)
  obtain ⟨q',hq'⟩ := QrHeap.createQrList_holds (emptyQrHeap.createQrList 8 (some (7,16))) 24 none
    (by simp)
  refine ⟨_,⟨q,createQrList_represents hq.represents ?_⟩,⟨q',hq'.represents⟩,fun malloc =>
    ⟨qrListAppend_not_appends,qrListConcat_not_concats,qrListAddEnd_not_addsEnd⟩⟩
  rfl

end

end GraphQueryCompiler
