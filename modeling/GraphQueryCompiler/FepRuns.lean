import GraphQueryCompiler.FepVisitor

/-!
# Runs of compiled filter expressions

A visit inserts code at the insertion point and makes blocks of its own, which carry its `opd_cnt`.
So the code in front of the insertion point is complete, and what a run does there does not depend
on the visits behind.
-/

namespace GraphQueryCompiler
open StepMachine FepVisitor

def BlockName.opd : BlockName → Option ℕ
  | .searchPitem i | .isNode i | .isRship i | .forEachPitem i | .forEachIncrement i
  | .pitemFound i | .nextPropIt i | .epilog i | .cmpEq i | .cmpAnd i | .cmpOr i => some i
  | .whileCondition i | .whileBody i | .whileBodyEpilog i => some (i/2)
  | _ => none

variable {env : Env} {roi : Val} {fn : BlockName → List FepInstr} {σ σ' : FepCell → Val}
  {is : List FepInstr} {b b' blk : BlockName} {bs : List BlockName} {c c' later : FepCode}
  {o : Option BlockName} {n rank : ℕ} {db : GraphDb} {e : FilterExpr} {s s' s₁ : FepVisitor}

namespace FepCode

@[simp] theorem body_nil (b : BlockName) : body [] b = [] := rfl

theorem body_append : body (c ++ c') b = body c b ++ body c' b := List.flatMap_append

theorem body_cons_self : body ((b,is) :: c) b = is ++ body c b := by
  simp [body]

theorem body_cons_of_ne (h : b' ≠ b) : body ((b',is) :: c) b = body c b := by
  simp [body,h]

theorem body_eq_nil (h : ∀ x ∈ c, x.1 ≠ b) : body c b = [] :=
  List.flatMap_eq_nil_iff.2 fun x hx => if_neg (h x hx)

end FepCode

def Stores (is : List FepInstr) : Prop :=
  ∀ i ∈ is, ∃ c e, i = .store c e ∧ c ≠ .roiPlistAlloc ∧ c ≠ .rhsUnknown

def KeepsSearch (σ σ' : FepCell → Val) : Prop :=
  σ' .roiPlistAlloc = σ .roiPlistAlloc ∧ σ' .rhsUnknown = σ .rhsUnknown

theorem KeepsSearch.trans {σ₁ σ₂ σ₃ : FepCell → Val} (h : KeepsSearch σ₁ σ₂)
    (h' : KeepsSearch σ₂ σ₃) : KeepsSearch σ₁ σ₃ := ⟨h'.1.trans h.1,h'.2.trans h.2⟩

theorem KeepsSearch.update {cell : FepCell} {v : Val} (h : cell ≠ .roiPlistAlloc)
    (h' : cell ≠ .rhsUnknown) : KeepsSearch σ (Function.update σ cell v) :=
  ⟨Function.update_of_ne h.symm ..,Function.update_of_ne h'.symm ..⟩

variable (env roi fn) in
theorem stores_traced (h : Stores is) (rest : List FepInstr) : ∀ σ, ∃ σ', KeepsSearch σ σ' ∧
    Traced (fepStep env roi fn) lookupEvents [] (.run (is ++ rest) σ) (.run rest σ') := by
  induction is with
  | nil => exact fun σ => ⟨σ,⟨rfl,rfl⟩,.refl⟩
  | cons i is ih =>
    intro σ
    obtain ⟨⟨c,e,rfl,hroi,hrhs⟩,hrest⟩ := List.forall_mem_cons.1 h
    obtain ⟨σ',hkeeps,hrun⟩ := ih hrest (Function.update σ c (e.eval env roi σ))
    have hstep : fepStep env roi fn (.run (.store c e :: (is ++ rest)) σ) =
        some (.run (is ++ rest) (Function.update σ c (e.eval env roi σ))) := rfl
    exact ⟨σ',(KeepsSearch.update hroi hrhs).trans hkeeps,.head hstep hrun⟩

def BlockName.Quiet : BlockName → Prop
  | .searchPitem _ | .pitemFound _ => False
  | _ => True

theorem enter_traced (h : b.Quiet) : Traced (fepStep env roi fn) lookupEvents []
    (.enter b σ) (.run (fn b) σ) := by
  have hstep : fepStep env roi fn (.enter b σ) = some (.run (fn b) σ) := rfl
  have hevents : lookupEvents (.enter b σ) (.run (fn b) σ) = [] := by
    cases b with
    | searchPitem | pitemFound => exact h.elim
    | _ => rfl
  exact hevents ▸ Traced.single hstep

theorem br_traced (h : b.Quiet) (rest : List FepInstr) : Traced (fepStep env roi fn) lookupEvents []
    (.run (.br b :: rest) σ) (.run (fn b) σ) := by
  have hstep : fepStep env roi fn (.run (.br b :: rest) σ) = some (.enter b σ) := rfl
  exact .head hstep (enter_traced h)

/-- Code from block `b` on that stores and goes to the blocks `bs` in turn. It ends in front of the
rest of a block, or with a branch behind the filter. -/
inductive Straight : BlockName → List BlockName → FepCode → Option BlockName → Prop
  | done {b : BlockName} : Straight b [] [] (some b)
  | stores {b : BlockName} {bs : List BlockName} {is : List FepInstr} {c : FepCode}
      {o : Option BlockName} : Stores is → b ∉ bs → Straight b bs c o →
      Straight b bs ((b,is) :: c) o
  | br {b blk : BlockName} {bs : List BlockName} {is : List FepInstr} {c : FepCode}
      {o : Option BlockName} : Stores is → blk.Quiet → b ∉ blk :: bs → Straight blk bs c o →
      Straight b (blk :: bs) ((b,is ++ [.br blk]) :: c) o
  | condBr {b : BlockName} {is : List FepInstr} {e : FepOperand} : Stores is →
      Straight b [] [(b,is ++ [.condBr e .filterConsume .filterFalse])] none

theorem stores_nil : Stores [] := List.forall_mem_nil _

theorem Straight.goto (hquiet : blk.Quiet) (hb : b ∉ blk :: bs) (h : Straight blk bs c o) :
    Straight b (blk :: bs) ((b,[.br blk]) :: c) o :=
  Straight.br stores_nil hquiet hb h

theorem Straight.labels (h : Straight b bs c o) : ∀ x ∈ c, x.1 = b ∨ x.1 ∈ bs := by
  induction h with
  | done => exact List.forall_mem_nil _
  | stores _ _ _ ih => exact List.forall_mem_cons.2 ⟨.inl rfl,ih⟩
  | br _ _ _ _ ih =>
    refine List.forall_mem_cons.2 ⟨.inl rfl,fun x hx => .inr ?_⟩
    rcases ih x hx with hx | hx
    · exact hx ▸ List.mem_cons_self
    · exact List.mem_cons_of_mem _ hx
  | condBr => simp

theorem Straight.next (h : Straight b bs c (some b')) : b' = b ∨ b' ∈ bs := by
  generalize ho : some b' = o at h
  induction h with
  | done => exact .inl (Option.some.inj ho)
  | stores _ _ _ ih => exact ih ho
  | br _ _ _ _ ih =>
    rcases ih ho with hb | hb
    · exact .inr (hb ▸ List.mem_cons_self)
    · exact .inr (List.mem_cons_of_mem _ hb)
  | condBr => cases ho

theorem condBr_halts (hconsume : fn .filterConsume = []) (hfalse : fn .filterFalse = [])
    (e : FepOperand) (rest : List FepInstr) (σ : FepCell → Val) :
    ∃ d, Traced (fepStep env roi fn) lookupEvents []
      (.run (.condBr e .filterConsume .filterFalse :: rest) σ) d ∧ fepStep env roi fn d = none := by
  have hhalt : ∀ blk, blk.Quiet → fn blk = [] →
      fepStep env roi fn (.run (.condBr e .filterConsume .filterFalse :: rest) σ) =
        some (.enter blk σ) →
      ∃ d, Traced (fepStep env roi fn) lookupEvents []
        (.run (.condBr e .filterConsume .filterFalse :: rest) σ) d ∧
          fepStep env roi fn d = none := by
    intro blk hquiet hblk hstep
    exact ⟨_,.head hstep (enter_traced hquiet),by rw [hblk]; rfl⟩
  by_cases htrue : e.eval env roi σ = .bool true
  · exact hhalt .filterConsume trivial hconsume (by simp only [fepStep,htrue])
  by_cases hno : e.eval env roi σ = .bool false
  · exact hhalt .filterFalse trivial hfalse (by simp only [fepStep,hno])
  · refine ⟨_,.refl,?_⟩
    rw [fepStep]
    split <;> simp_all

theorem Straight.traced (h : Straight b bs c o)
    (hfn : ∀ blk ∈ bs, fn blk = c.body blk ++ later.body blk) (hconsume : fn .filterConsume = [])
    (hfalse : fn .filterFalse = []) : ∀ σ,
    (∀ b', o = some b' → ∃ σ', KeepsSearch σ σ' ∧ Traced (fepStep env roi fn) lookupEvents []
      (.run (c.body b ++ later.body b) σ) (.run (later.body b') σ')) ∧
    (o = none → ∃ d, Traced (fepStep env roi fn) lookupEvents []
      (.run (c.body b ++ later.body b) σ) d ∧ fepStep env roi fn d = none) := by
  induction h with
  | done =>
    intro σ
    refine ⟨?_,fun ho => (nomatch ho)⟩
    rintro _ ⟨⟩
    exact ⟨σ,⟨rfl,rfl⟩,.refl⟩
  | @stores b bs is c o his hb _ ih =>
    intro σ
    rw [FepCode.body_cons_self,List.append_assoc]
    obtain ⟨σ₁,hkeeps,hrun⟩ := stores_traced env roi fn his (c.body b ++ later.body b) σ
    obtain ⟨hsome,hnone⟩ := ih (fun blk hblk => by
      rw [hfn blk hblk,FepCode.body_cons_of_ne (ne_of_mem_of_not_mem hblk hb).symm]) σ₁
    refine ⟨fun b' ho => ?_,fun ho => ?_⟩
    · obtain ⟨σ₂,hkeeps₂,hrun₂⟩ := hsome b' ho
      exact ⟨σ₂,hkeeps.trans hkeeps₂,hrun.trans hrun₂⟩
    · obtain ⟨d,hrun₂,hd⟩ := hnone ho
      exact ⟨d,hrun.trans hrun₂,hd⟩
  | @br b blk bs is c o his hquiet hb _ ih =>
    intro σ
    obtain ⟨hne,hbs⟩ := List.ne_and_not_mem_of_not_mem_cons hb
    rw [FepCode.body_cons_self,List.append_assoc,List.append_assoc]
    obtain ⟨σ₁,hkeeps,hrun⟩ :=
      stores_traced env roi fn his ([.br blk] ++ (c.body b ++ later.body b)) σ
    have hbr := hrun.trans (br_traced hquiet (c.body b ++ later.body b))
    rw [hfn blk List.mem_cons_self,FepCode.body_cons_of_ne hne] at hbr
    obtain ⟨hsome,hnone⟩ := ih (fun blk' hblk => by
      rw [hfn blk' (List.mem_cons_of_mem _ hblk),
        FepCode.body_cons_of_ne (ne_of_mem_of_not_mem hblk hbs).symm]) σ₁
    refine ⟨fun b' ho => ?_,fun ho => ?_⟩
    · obtain ⟨σ₂,hkeeps₂,hrun₂⟩ := hsome b' ho
      exact ⟨σ₂,hkeeps.trans hkeeps₂,hbr.trans hrun₂⟩
    · obtain ⟨d,hrun₂,hd⟩ := hnone ho
      exact ⟨d,hbr.trans hrun₂,hd⟩
  | @condBr b is e his =>
    intro σ
    refine ⟨fun b' ho => (nomatch ho),fun _ => ?_⟩
    rw [FepCode.body_cons_self,List.append_assoc,List.append_assoc]
    obtain ⟨σ₁,-,hrun⟩ := stores_traced env roi fn his
      ([.condBr e .filterConsume .filterFalse] ++ (FepCode.body [] b ++ later.body b)) σ
    obtain ⟨d,hrun₂,hd⟩ := condBr_halts hconsume hfalse e (FepCode.body [] b ++ later.body b) σ₁
    exact ⟨d,hrun.trans hrun₂,hd⟩

structure FepVisitor.Inserts (s s' : FepVisitor) (e : FilterExpr) (b : BlockName) (c : FepCode) :
    Prop where
  code : s'.code = s.code ++ c
  opdCnt : s'.opdCnt = e.nextOpd s.opdCnt
  straight : ∃ bs, Straight b bs c s'.cur ∧
    ∀ blk ∈ bs, blk.opd = some s.opdCnt ∧ s.opdCnt < s'.opdCnt
  roiPlistAlloc : .roiPlistAlloc ∈ s'.allocStack ↔ .roiPlistAlloc ∈ s.allocStack
  rhsUnknown : .rhsUnknown ∈ s'.allocStack ↔ .rhsUnknown ∈ s.allocStack

structure FepVisitor.Pushes (s s₁ : FepVisitor) (e : FilterExpr) : Prop where
  code : s₁.code = s.code
  cur : s₁.cur = s.cur
  opdCnt : s₁.opdCnt = e.nextOpd s.opdCnt
  roiPlistAlloc : .roiPlistAlloc ∈ s₁.allocStack ↔ .roiPlistAlloc ∈ s.allocStack
  rhsUnknown : .rhsUnknown ∈ s₁.allocStack ↔ .rhsUnknown ∈ s.allocStack

namespace FepVisitor
variable {cell cell' : FepCell} {val : FepOperand} {block : BlockName}

theorem mem_alloc : cell ∈ (s.alloc cell').allocStack ↔ cell = cell' ∨ cell ∈ s.allocStack := by
  unfold alloc
  split_ifs with h
  · exact ⟨.inr,fun hc => hc.elim (fun he => he ▸ h) id⟩
  · exact List.mem_cons

theorem code_alloc : (s.alloc cell).code = s.code := by
  unfold alloc
  split_ifs <;> rfl

theorem cur_alloc : (s.alloc cell).cur = s.cur := by
  unfold alloc
  split_ifs <;> rfl

theorem stores_allocStore (hroi : cell ≠ .roiPlistAlloc) (hrhs : cell ≠ .rhsUnknown) :
    Stores (s.allocStore cell val) := by
  unfold allocStore
  split_ifs
  · exact List.forall_mem_nil _
  · exact List.forall_mem_singleton.2 ⟨cell,val,rfl,hroi,hrhs⟩

theorem pushes_push : s.Pushes (s.push e) e := ⟨rfl,rfl,rfl,.rfl,.rfl⟩

theorem Pushes.alloc (h : s.Pushes s₁ e) (hroi : cell ≠ .roiPlistAlloc)
    (hrhs : cell ≠ .rhsUnknown) : s.Pushes (s₁.alloc cell) e where
  code := code_alloc.trans h.code
  cur := cur_alloc.trans h.cur
  opdCnt := opdCnt_alloc.trans h.opdCnt
  roiPlistAlloc := by rw [mem_alloc,h.roiPlistAlloc,or_iff_right hroi.symm]
  rhsUnknown := by rw [mem_alloc,h.rhsUnknown,or_iff_right hrhs.symm]

theorem Pushes.setGenVal (h : s.Pushes s₁ e) : s.Pushes (s₁.setGenVal n cell) e :=
  ⟨h.code,h.cur,h.opdCnt,h.roiPlistAlloc,h.rhsUnknown⟩

theorem Pushes.insert (h : s.Pushes s₁ e) (hcur : s.cur = some b) (his : Stores is)
    (hins : s₁.insert is = some s') : ∃ c, s.Inserts s' e b c := by
  unfold FepVisitor.insert at hins
  rw [h.cur,hcur] at hins
  split_ifs at hins
  · obtain rfl := Option.some.inj hins
    refine ⟨[],(by rw [h.code,List.append_nil]),h.opdCnt,⟨[],?_,List.forall_mem_nil _⟩,
      h.roiPlistAlloc,h.rhsUnknown⟩
    rw [h.cur,hcur]
    exact .done
  · obtain rfl := Option.some.inj hins
    refine ⟨[(b,is)],congrArg (· ++ [(b,is)]) h.code,h.opdCnt,⟨[],?_,List.forall_mem_nil _⟩,
      h.roiPlistAlloc,h.rhsUnknown⟩
    exact .stores his List.not_mem_nil .done

theorem Pushes.finishBlock (h : s.Pushes s₁ e) (hcur : s.cur = some b) (bs : List BlockName)
    (hins : s₁.finishBlock is c o = some s') (hc : Straight b bs ((b,is) :: c) o)
    (hbs : ∀ blk ∈ bs, blk.opd = some s.opdCnt ∧ s.opdCnt < e.nextOpd s.opdCnt) :
    s.Inserts s' e b ((b,is) :: c) := by
  unfold FepVisitor.finishBlock at hins
  rw [h.cur,hcur] at hins
  obtain rfl := Option.some.inj hins
  exact ⟨congrArg (· ++ (b,is) :: c) h.code,h.opdCnt,
    ⟨bs,hc,fun blk hblk => ⟨(hbs blk hblk).1,h.opdCnt.symm ▸ (hbs blk hblk).2⟩⟩,
    h.roiPlistAlloc,h.rhsUnknown⟩

theorem Pushes.finishPredicate (h : s.Pushes s₁ e) (hcur : s.cur = some b)
    (hins : s₁.finishPredicate rank s.opdCnt block is = some s') (hb : b.opd ≠ some s.opdCnt)
    (hnext : e.nextOpd s.opdCnt = s.opdCnt+1) (hquiet : block.Quiet)
    (hblock : block.opd = some s.opdCnt) (hepilog : block ≠ .epilog s.opdCnt) (his : Stores is) :
    ∃ c, s.Inserts s' e b c := by
  have hlt : s.opdCnt < e.nextOpd s.opdCnt := by omega
  have hown : b ∉ [block] := fun hb' => hb (List.mem_singleton.1 hb' ▸ hblock)
  have hown' : b ∉ [block,.epilog s.opdCnt] := by
    intro hb'
    rcases List.mem_cons.1 hb' with rfl | hb'
    · exact hb hblock
    · exact hb (List.mem_singleton.1 hb' ▸ rfl)
  unfold FepVisitor.finishPredicate at hins
  split_ifs at hins
  · obtain ⟨cond,-,hins⟩ := Option.bind_eq_some_iff.1 hins
    refine ⟨_,h.finishBlock hcur [block] hins (.goto hquiet hown (.condBr his)) ?_⟩
    exact List.forall_mem_singleton.2 ⟨hblock,hlt⟩
  · refine ⟨_,h.finishBlock hcur [block,.epilog s.opdCnt] hins
      (.goto hquiet hown' (.br his trivial (by simpa using hepilog) .done)) ?_⟩
    exact List.forall_mem_cons.2 ⟨⟨hblock,hlt⟩,List.forall_mem_singleton.2 ⟨rfl,hlt⟩⟩

theorem visit_inserts (hcur : s.cur = some b) (hb : b.opd ≠ some s.opdCnt)
    (hkey : ∀ qrId key, e ≠ .key qrId key)
    (hvisit : (fepVisitor db).visit rank e s = some s') : ∃ c, s.Inserts s' e b c := by
  cases e with
  | num value =>
    exact (pushes_push.alloc (by simp) (by simp)).setGenVal.insert hcur
      (stores_allocStore (by simp) (by simp)) hvisit
  | key qrId key => exact absurd rfl (hkey qrId key)
  | str str =>
    refine ⟨_,(pushes_push.alloc (by simp) (by simp)).setGenVal.finishBlock hcur
      [.epilog s.opdCnt] hvisit (.br (stores_allocStore (by simp) (by simp)) trivial ?_ .done) ?_⟩
    · exact fun hb' => hb (List.mem_singleton.1 hb' ▸ rfl)
    · exact List.forall_mem_singleton.2 ⟨rfl,Nat.lt_succ_self _⟩
  | fct fct =>
    exact ⟨_,pushes_push.finishBlock hcur [] hvisit (.condBr stores_nil) (List.forall_mem_nil _)⟩
  | eq l r =>
    simp only [fepVisitor,visitEq,Option.bind_eq_bind,Option.bind_eq_some_iff] at hvisit
    obtain ⟨rhs,-,lhs,-,pitem,-,hvisit⟩ := hvisit
    split at hvisit
    · obtain ⟨rhsAlloc,-,hend⟩ := Option.bind_eq_some_iff.1 hvisit
      exact (pushes_push.alloc (by simp) (by simp)).setGenVal.finishPredicate hcur hend hb rfl
        trivial rfl (by simp) (stores_allocStore (by simp) (by simp))
    · cases hvisit
    · exact pushes_push.finishPredicate hcur hvisit hb rfl trivial rfl (by simp) stores_nil
  | and l r | or l r =>
    simp only [fepVisitor,visitBool,Option.bind_eq_bind,Option.bind_eq_some_iff] at hvisit
    obtain ⟨rhs,-,offset,-,lhs,-,lhsVal,-,rhsVal,-,hend⟩ := hvisit
    exact (pushes_push.alloc (by simp) (by simp)).setGenVal.finishPredicate hcur hend hb rfl
      trivial rfl (by simp) (stores_allocStore (by simp) (by simp))

theorem finishBlock_none (hcur : s.cur = none) : s.finishBlock is c o = none := by
  rw [finishBlock,hcur]
  rfl

theorem finishPredicate_none (hcur : s.cur = none) :
    s.finishPredicate rank n block is = none := by
  unfold finishPredicate
  split_ifs
  · cases s.genVals n with
    | none => rfl
    | some cond => exact finishBlock_none hcur
  · exact finishBlock_none hcur

theorem Pushes.insert_none (h : s.Pushes s₁ e) (hcur : s.cur = none)
    (hins : s₁.insert is = some s') : s'.cur = none ∧ s'.code = s.code := by
  unfold FepVisitor.insert at hins
  split_ifs at hins
  · obtain rfl := Option.some.inj hins
    exact ⟨h.cur.trans hcur,h.code⟩
  · rw [h.cur,hcur] at hins
    cases hins

theorem visit_none (hcur : s.cur = none) (hvisit : (fepVisitor db).visit rank e s = some s') :
    s'.cur = none ∧ s'.code = s.code ∧ ∀ qrId key, e ≠ .key qrId key := by
  have hpush : ∀ cell : FepCell, ((s.push e).alloc cell).cur = none :=
    fun _ => cur_alloc.trans hcur
  cases e with
  | num value =>
    obtain ⟨hnone,hcode⟩ :=
      (pushes_push.alloc (by simp) (by simp)).setGenVal.insert_none hcur hvisit
    exact ⟨hnone,hcode,by simp⟩
  | key qrId key =>
    exact absurd (hvisit.symm.trans
      (finishBlock_none (cur_alloc.trans (cur_alloc.trans (hpush _))))) (by simp)
  | str str => exact absurd (hvisit.symm.trans (finishBlock_none (hpush _))) (by simp)
  | fct fct => exact absurd (hvisit.symm.trans (finishBlock_none hcur)) (by simp)
  | eq l r =>
    simp only [fepVisitor,visitEq,Option.bind_eq_bind,Option.bind_eq_some_iff] at hvisit
    obtain ⟨rhs,-,lhs,-,pitem,-,hvisit⟩ := hvisit
    split at hvisit
    · obtain ⟨rhsAlloc,-,hend⟩ := Option.bind_eq_some_iff.1 hvisit
      exact absurd (hend.symm.trans (finishPredicate_none (hpush _))) (by simp)
    · cases hvisit
    · exact absurd (hvisit.symm.trans (finishPredicate_none hcur)) (by simp)
  | and l r | or l r =>
    simp only [fepVisitor,visitBool,Option.bind_eq_bind,Option.bind_eq_some_iff] at hvisit
    obtain ⟨rhs,-,offset,-,lhs,-,lhsVal,-,rhsVal,-,hend⟩ := hvisit
    exact absurd (hend.symm.trans (finishPredicate_none (hpush _))) (by simp)

end FepVisitor

end GraphQueryCompiler
