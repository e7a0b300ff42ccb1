import GraphQueryCompiler.FepLookup
import GraphQueryCompiler.FilterFormula

/-!
# The order of the lookups of a filter

All keys of a filter are looked up with one alloca for the list of property sets. It gets the head
of the list in front of the first lookup, and every other one goes on at the property set in which
the lookup before has found its item.
-/

namespace GraphQueryCompiler
open StepMachine FepVisitor LinkedChain ForwardSearch

def FilterExpr.keysFrom : ℕ → List (List Bool × FilterExpr) → List (ℕ × String)
  | _, [] => []
  | n, (_,.key _ k) :: xs => (n,k) :: keysFrom (n+1) xs
  | n, (_,e) :: xs => keysFrom (e.nextOpd n) xs

def FilterExpr.keyOperands (e : FilterExpr) : List (ℕ × String) := keysFrom 0 (e.visits [])

def GraphDb.lookups (db : GraphDb) : List (ℕ × String) → List ℕ → List LookupEvent
  | [], _ => []
  | (i,key) :: ks, l =>
    .start i :: match seek db.hasKey key l with
      | [] => []
      | p :: l => .found i (db.keyItem p (db.getCode key)) :: lookups db ks (p :: l)

variable {env : Env} {fn : BlockName → List FepInstr} {σ : FepCell → Val} {b : BlockName}
  {c later : FepCode} {n i pcode rank : ℕ} {db : GraphDb} {e : FilterExpr} {s s' : FepVisitor}
  {key : String} {l : List ℕ} {is ru rp pitem : List FepInstr}

section Visits
variable {xs : List (List Bool × FilterExpr)} {path : List Bool} {ks : List (ℕ × String)}
  {s₁ : FepVisitor} {b₁ blk : BlockName}

def FepVisitor.visitAll (db : GraphDb) (xs : List (List Bool × FilterExpr)) (s : FepVisitor) :
    Option FepVisitor :=
  xs.foldlM (fun s x => (fepVisitor db).visit x.1.length x.2 s) s

namespace FepVisitor

theorem visitAll_cons {x : List Bool × FilterExpr} (h : visitAll db (x :: xs) s = some s') :
    ∃ s₁, (fepVisitor db).visit x.1.length x.2 s = some s₁ ∧ visitAll db xs s₁ = some s' :=
  Option.bind_eq_some_iff.1 h

theorem key_or (e : FilterExpr) :
    (∃ qrId key, e = .key qrId key) ∨ ∀ qrId key, e ≠ .key qrId key := by
  cases e <;> simp

theorem keysFrom_cons (hkey : ∀ qrId key, e ≠ .key qrId key) :
    FilterExpr.keysFrom n ((path,e) :: xs) = FilterExpr.keysFrom (e.nextOpd n) xs := by
  cases e with
  | key qrId key => exact absurd rfl (hkey qrId key)
  | _ => rfl

theorem visitAll_none (xs : List (List Bool × FilterExpr)) : ∀ (n : ℕ) (s : FepVisitor),
    s.cur = none → visitAll db xs s = some s' →
    s'.code = s.code ∧ FilterExpr.keysFrom n xs = [] := by
  induction xs with
  | nil =>
    intro n s hcur h
    obtain rfl := Option.some.inj h
    exact ⟨rfl,rfl⟩
  | cons x xs ih =>
    intro n s hcur h
    obtain ⟨s₁,hvisit,hs₁⟩ := visitAll_cons h
    obtain ⟨hcur₁,hcode,hkey⟩ := visit_none hcur hvisit
    obtain ⟨hcode',hkeys⟩ := ih (x.2.nextOpd n) s₁ hcur₁ hs₁
    exact ⟨hcode'.trans hcode,(keysFrom_cons hkey).trans hkeys⟩

structure Looks (env : Env) (n : ℕ) (s : FepVisitor) (b : BlockName) (ks : List (ℕ × String))
    (later : FepCode) : Prop where
  labels : ∀ x ∈ later, x.1 = b ∨ x.1.opd.isSome
  traced : ∀ (fn : BlockName → List FepInstr) (σ : FepCell → Val) (l : List ℕ),
    (∀ blk i, blk.opd = some i → s.opdCnt ≤ i → fn blk = later.body blk) →
    fn .filterConsume = [] → fn .filterFalse = [] → Ready env n s σ l →
    ∃ d, Traced (fepStep env (.node n) fn) lookupEvents (env.db.lookups ks l)
      (.run (later.body b) σ) d ∧ fepStep env (.node n) fn d = none

theorem le_nextOpd (n : ℕ) (e : FilterExpr) : n ≤ e.nextOpd n := by
  cases e <;> simp [FilterExpr.nextOpd]

theorem Inserts.le (hs : s.Inserts s₁ e b c) : s.opdCnt ≤ s₁.opdCnt := by
  rw [hs.opdCnt]
  exact le_nextOpd ..

theorem Inserts.next_opd (hs : s.Inserts s₁ e b c) (hb : ∀ i ∈ b.opd, i < s.opdCnt)
    (hcur : s₁.cur = some b₁) : ∀ i ∈ b₁.opd, i < s₁.opdCnt := by
  obtain ⟨bs,hc,hbs⟩ := hs.straight
  rw [hcur] at hc
  intro i hi
  rcases hc.next with rfl | hmem
  · exact Nat.lt_of_lt_of_le (hb i hi) hs.le
  · obtain ⟨hopd,hlt⟩ := hbs b₁ hmem
    rw [hopd] at hi
    exact Option.some.inj hi ▸ hlt

theorem Inserts.labels (hs : s.Inserts s₁ e b c) :
    ∀ x ∈ c, x.1 = b ∨ x.1.opd = some s.opdCnt ∧ s.opdCnt < s₁.opdCnt := by
  obtain ⟨bs,hc,hbs⟩ := hs.straight
  exact fun x hx => (hc.labels x hx).imp_right (hbs x.1)

theorem Inserts.body_eq_nil (hs : s.Inserts s₁ e b c) (hb : ∀ i ∈ b.opd, i < s.opdCnt)
    (hblk : blk.opd = some i) (hi : s₁.opdCnt ≤ i) : c.body blk = [] := by
  refine FepCode.body_eq_nil fun x hx he => ?_
  rcases hs.labels x hx with hxb | ⟨hopd,hlt⟩
  · exact absurd (hb i (hxb ▸ he ▸ hblk)) (by have := hs.le; omega)
  · rw [he,hblk,Option.some.injEq] at hopd
    omega

theorem Looks.inserts (hs : s.Inserts s₁ e b c) (hb : ∀ i ∈ b.opd, i < s.opdCnt)
    (hcur : s₁.cur = some b₁) (h : Looks env n s₁ b₁ ks later) :
    Looks env n s b ks (c ++ later) := by
  obtain ⟨bs,hc,hbs⟩ := hs.straight
  rw [hcur] at hc
  refine ⟨List.forall_mem_append.2 ⟨fun x hx => (hs.labels x hx).imp_right fun hopd =>
    Option.isSome_of_eq_some hopd.1,fun x hx => ?_⟩,?_⟩
  · rcases h.labels x hx with hx | hx
    · exact hc.next.imp hx.trans fun hmem => Option.isSome_of_eq_some (hx ▸ (hbs b₁ hmem).1)
    · exact .inr hx
  · intro fn σ l hfn hconsume hfalse hready
    have hown : ∀ blk ∈ bs, fn blk = c.body blk ++ later.body blk := fun blk hblk =>
      (hfn blk s.opdCnt (hbs blk hblk).1 (Nat.le_refl _)).trans FepCode.body_append
    have hrest : ∀ blk i, blk.opd = some i → s₁.opdCnt ≤ i → fn blk = later.body blk := by
      intro blk i hblk hi
      rw [hfn blk i hblk (hs.le.trans hi),FepCode.body_append,hs.body_eq_nil hb hblk hi,
        List.nil_append]
    obtain ⟨σ',hkeeps,hrun⟩ := (hc.traced hown hconsume hfalse σ).1 b₁ rfl
    obtain ⟨d,hrun',hd⟩ := h.traced fn σ' l hrest hconsume hfalse (hready.inserts hs hkeeps)
    rw [FepCode.body_append]
    exact ⟨d,hrun.trans hrun',hd⟩

theorem Looks.inserts_none (hs : s.Inserts s₁ e b c) (hcur : s₁.cur = none) :
    Looks env n s b [] c := by
  obtain ⟨bs,hc,hbs⟩ := hs.straight
  rw [hcur] at hc
  refine ⟨fun x hx => (hs.labels x hx).imp_right fun hopd => Option.isSome_of_eq_some hopd.1,?_⟩
  intro fn σ l hfn hconsume hfalse hready
  have hown : ∀ blk ∈ bs, fn blk = c.body blk ++ FepCode.body [] blk := fun blk hblk => by
    rw [hfn blk s.opdCnt (hbs blk hblk).1 (Nat.le_refl _),FepCode.body_nil,List.append_nil]
  obtain ⟨d,hrun,hd⟩ := (hc.traced hown hconsume hfalse σ).2 rfl
  rw [FepCode.body_nil,List.append_nil] at hrun
  exact ⟨d,hrun,hd⟩

theorem visitKey_eq {qrId : ℕ} (hcur : s.cur = some b)
    (hvisit : (fepVisitor db).visit rank (.key qrId key) s = some s₁) :
    s₁.code = s.code ++ ((b,[.br (.searchPitem s.opdCnt)]) :: keyBlocks s.opdCnt (db.getCode key)
      (s.allocStore .rhsUnknown (.const unknownId)) (s.allocStore .roiPlistAlloc (.field .roi 4))
      (s.allocStore (.pitem key) (.load (.curItem s.opdCnt)))) ∧
    s₁.cur = some (.epilog s.opdCnt) ∧ s₁.opdCnt = s.opdCnt+1 ∧
    .roiPlistAlloc ∈ s₁.allocStack ∧ .rhsUnknown ∈ s₁.allocStack := by
  let t := (((s.push (.key qrId key)).alloc .rhsUnknown).alloc .roiPlistAlloc).alloc (.pitem key)
  have hcur' : t.cur = some b := cur_alloc.trans (cur_alloc.trans (cur_alloc.trans hcur))
  have hcode : t.code = s.code := code_alloc.trans (code_alloc.trans code_alloc)
  have hopd : t.opdCnt = s.opdCnt+1 := opdCnt_alloc.trans (opdCnt_alloc.trans opdCnt_alloc)
  obtain ⟨b',hb',rfl⟩ := Option.map_eq_some_iff.1 hvisit
  obtain rfl : b' = b := Option.some.inj (hb'.symm.trans hcur')
  refine ⟨congrArg (· ++ _) hcode,rfl,hopd,?_,?_⟩
  · exact mem_alloc.2 (.inr (mem_alloc.2 (.inl rfl)))
  · exact mem_alloc.2 (.inr (mem_alloc.2 (.inr (mem_alloc.2 (.inl rfl)))))

theorem keyBlocks_opd : ∀ x ∈ keyBlocks n pcode ru rp pitem, x.1.opd = some n := by
  simp [keyBlocks,whileLT,BlockName.opd]
  omega

theorem keyBlocks_body {k : ℕ} (hb : ∀ i ∈ b.opd, i < k)
    (hfn : ∀ blk i, blk.opd = some i → k ≤ i →
      fn blk = FepCode.body (((b,is) :: keyBlocks k pcode ru rp pitem) ++ later) blk) :
    (∀ blk, blk.opd = some k →
      fn blk = (keyBlocks k pcode ru rp pitem).body blk ++ later.body blk) ∧
    ∀ blk i, blk.opd = some i → k+1 ≤ i → fn blk = later.body blk := by
  refine ⟨fun blk hblk => ?_,fun blk i hblk hi => ?_⟩
  · have hne : b ≠ blk := fun he => Nat.lt_irrefl _ (hb _ (he ▸ hblk))
    rw [hfn blk k hblk (Nat.le_refl _),FepCode.body_append,FepCode.body_cons_of_ne hne]
  · rw [hfn blk i hblk (Nat.le_of_lt hi),FepCode.body_append,FepCode.body_eq_nil,
      List.nil_append]
    refine List.forall_mem_cons.2 ⟨fun he => ?_,fun x hx he => ?_⟩
    · obtain rfl : b = blk := he
      exact absurd (hb i hblk) (by omega)
    · exact absurd (keyBlocks_opd x hx) (by rw [he,hblk]; simp; omega)

theorem Looks.visitKey {qrId : ℕ} (hcur : s.cur = some b) (hb : ∀ i ∈ b.opd, i < s.opdCnt)
    (hvisit : (fepVisitor env.db).visit rank (.key qrId key) s = some s₁)
    (h : Looks env n s₁ (.epilog s.opdCnt) ks later) : ∃ c, s₁.code = s.code ++ c ∧
      Looks env n s b ((s.opdCnt,key) :: ks) (c ++ later) := by
  obtain ⟨hcode,hcur₁,hopd,hlist,hunknown⟩ := visitKey_eq hcur hvisit
  refine ⟨_,hcode,?_,?_⟩
  · refine List.forall_mem_append.2 ⟨List.forall_mem_cons.2 ⟨.inl rfl,fun x hx => ?_⟩,
      fun x hx => .inr ?_⟩
    · exact .inr (Option.isSome_of_eq_some (keyBlocks_opd x hx))
    · exact (h.labels x hx).elim (fun he => by rw [he]; rfl) id
  · intro fn σ l hfn hconsume hfalse hready
    obtain ⟨hown,hrest⟩ := keyBlocks_body hb hfn
    rw [← hopd] at hrest
    obtain ⟨hnone,hsome⟩ := lookup_traced hready
      (lookupBlocks fun blk hblk => ⟨later.body blk,(hown blk hblk).symm⟩) rfl
    have hbegin : ∀ rest, Traced (fepStep env (.node n) fn) lookupEvents []
        (.run (.br (.searchPitem s.opdCnt) :: rest) σ) (.enter (.searchPitem s.opdCnt) σ) :=
      fun rest => .silent rfl rfl .refl
    rw [FepCode.body_append,FepCode.body_cons_self,List.append_assoc,GraphDb.lookups]
    cases hseek : seek env.db.hasKey key l with
    | nil =>
      obtain ⟨σ₁,hrun⟩ := hnone hseek
      refine ⟨_,(hbegin _).trans (hrun.trans (enter_traced trivial)),?_⟩
      rw [hfalse]
      rfl
    | cons p l' =>
      obtain ⟨σ₁,hlist₁,hunknown₁,hchain,_,_,hrun⟩ := hsome p l' hseek
      have hready₁ : Ready env n s₁ σ₁ (p :: l') :=
        ⟨⟨p,hchain,by rw [if_pos hlist,hlist₁]⟩,fun _ => hunknown₁⟩
      obtain ⟨d,hrun₁,hd⟩ := h.traced fn σ₁ (p :: l') hrest hconsume hfalse hready₁
      rw [hown _ rfl,FepCode.body_eq_nil,List.nil_append] at hrun
      · exact ⟨d,(hbegin _).trans (hrun.trans hrun₁),hd⟩
      · simp [keyBlocks,whileLT]

theorem visitAll_looks (env : Env) (n : ℕ) (xs : List (List Bool × FilterExpr)) :
    ∀ (s : FepVisitor) (b : BlockName), s.cur = some b → (∀ i ∈ b.opd, i < s.opdCnt) →
    visitAll env.db xs s = some s' →
    ∃ later, s'.code = s.code ++ later ∧
      Looks env n s b (FilterExpr.keysFrom s.opdCnt xs) later := by
  induction xs with
  | nil =>
    intro s b hcur hb h
    obtain rfl := Option.some.inj h
    exact ⟨[],(List.append_nil _).symm,List.forall_mem_nil _,
      fun fn σ l _ _ _ _ => ⟨_,.refl,rfl⟩⟩
  | cons x xs ih =>
    intro s b hcur hb h
    obtain ⟨path,e⟩ := x
    obtain ⟨s₁,hvisit,hs₁⟩ := visitAll_cons h
    rcases key_or e with ⟨qrId,key,rfl⟩ | hother
    · obtain ⟨hcode,hcur₁,hopd,-,-⟩ := visitKey_eq hcur hvisit
      have hb₁ : ∀ i ∈ (BlockName.epilog s.opdCnt).opd, i < s₁.opdCnt := by
        simp [BlockName.opd,hopd]
      obtain ⟨later,hcode',hlater⟩ := ih s₁ _ hcur₁ hb₁ hs₁
      rw [hopd] at hlater
      obtain ⟨c,hcode,hlooks⟩ := hlater.visitKey hcur hb hvisit
      exact ⟨c ++ later,by rw [hcode',hcode,List.append_assoc],hlooks⟩
    · have hown : b.opd ≠ some s.opdCnt := fun hopd => Nat.lt_irrefl _ (hb _ hopd)
      obtain ⟨c,hs⟩ := visit_inserts hcur hown hother hvisit
      rw [keysFrom_cons hother,← hs.opdCnt]
      cases hcur₁ : s₁.cur with
      | none =>
        obtain ⟨hcode,hkeys⟩ := visitAll_none xs s₁.opdCnt s₁ hcur₁ hs₁
        exact ⟨c,hcode.trans hs.code,hkeys.symm ▸ Looks.inserts_none hs hcur₁⟩
      | some b₁ =>
        obtain ⟨later,hcode,hlooks⟩ := ih s₁ b₁ hcur₁ (hs.next_opd hb hcur₁) hs₁
        exact ⟨c ++ later,by rw [hcode,hs.code,List.append_assoc],hlooks.inserts hs hb hcur₁⟩

end FepVisitor

end Visits

theorem FilterExpr.fepCode_looks (h : e.fepCode env.db = some c) (n : ℕ) :
    Looks env n .init .filterEntry e.keyOperands c := by
  obtain ⟨s,hs,rfl⟩ := Option.map_eq_some_iff.1 h
  have hvisits : visitAll env.db (e.visits []) .init = some s :=
    (e.accept_eq_foldlM (fepVisitor env.db) [] .init).symm.trans hs
  have hb : ∀ i ∈ BlockName.filterEntry.opd, i < FepVisitor.init.opdCnt :=
    fun i hi => (nomatch hi)
  obtain ⟨later,hcode,hlooks⟩ := visitAll_looks env n _ _ .filterEntry rfl hb hvisits
  obtain rfl : s.code = later := hcode
  exact hlooks

theorem FepVisitor.Looks.body_eq_nil {ks : List (ℕ × String)}
    (h : Looks env n .init .filterEntry ks c) {blk : BlockName} (hne : blk ≠ .filterEntry)
    (hopd : blk.opd = none) : c.body blk = [] := by
  refine FepCode.body_eq_nil fun x hx he => ?_
  rcases h.labels x hx with hx | hx
  · exact hne (he.symm.trans hx)
  · rw [he,hopd] at hx
    cases hx

theorem FilterExpr.fepCode_traced (h : e.fepCode env.db = some c) (n : ℕ) (σ : FepCell → Val) :
    ∃ d, Traced (fepStep env (.node n) c.body) lookupEvents
      (env.db.lookups e.keyOperands (env.db.propertySets n)) (.enter .filterEntry σ) d ∧
        fepStep env (.node n) c.body d = none := by
  have hlooks := fepCode_looks h n
  have hready : Ready env n .init σ (env.db.propertySets n) :=
    ⟨⟨_,env.db.propertySets_chain n,if_neg List.not_mem_nil⟩,fun hmem => (nomatch hmem)⟩
  obtain ⟨d,hrun,hd⟩ := hlooks.traced c.body σ _ (fun _ _ _ _ => rfl)
    (hlooks.body_eq_nil (by simp) rfl) (hlooks.body_eq_nil (by simp) rfl) hready
  exact ⟨d,(enter_traced (b := .filterEntry) trivial).trans hrun,hd⟩

def FindsItem (db : GraphDb) (n : ℕ) (x : ℕ × String) (es : List LookupEvent) : Prop :=
  ∃ p ∈ db.propertySets n, ∃ j : Fin 3, ((db.propertySet p).items j).key = db.getCode x.2 ∧
    .found x.1 (.item p j) ∈ es

/-- Every lookup of a run finds an item exactly if the property list of the node has one. -/
def FindsKeys (env : Env) (n : ℕ) (e : FilterExpr) (code : FepCode) : Prop :=
  ∀ σ, ∃ es c, Traced (fepStep env (.node n) code.body) lookupEvents es (.enter .filterEntry σ) c ∧
    fepStep env (.node n) code.body c = none ∧ ∀ x ∈ e.keyOperands, .start x.1 ∈ es →
      (FindsItem env.db n x es ↔ (env.db.findProperty n (env.db.getCode x.2)).isSome)

theorem GraphDb.hasKey_iff {p : ℕ} : db.hasKey key p ↔
    ∃ j : Fin 3, ((db.propertySet p).items j).key = db.getCode key := by
  simp [hasKey,keyIndex,List.find?_isSome]

theorem GraphDb.findProperty_isSome_iff : (db.findProperty n (db.getCode key)).isSome ↔
    ∃ p ∈ db.propertySets n, db.hasKey key p := by
  simp only [findProperty,List.find?_isSome,propertyItems,List.mem_flatMap,List.mem_ofFn,
    hasKey_iff,decide_eq_true_eq]
  constructor
  · rintro ⟨_,⟨p,hp,j,rfl⟩,hkey⟩
    exact ⟨p,hp,j,hkey⟩
  · rintro ⟨p,hp,j,hkey⟩
    exact ⟨_,⟨p,hp,j,rfl⟩,hkey⟩

theorem GraphDb.keyItem_eq {p : ℕ} (h : db.hasKey key p) : ∃ j : Fin 3,
    ((db.propertySet p).items j).key = db.getCode key ∧
      db.keyItem p (db.getCode key) = .item p j := by
  obtain ⟨j,hj⟩ := Option.isSome_iff_exists.1 h
  exact ⟨j,by simpa using List.find?_some hj,by rw [keyItem,hj]; rfl⟩

def LookupEvent.operand : LookupEvent → ℕ
  | .start i => i
  | .found i _ => i

def GraphDb.LookupsRight (db : GraphDb) (n : ℕ) (ks : List (ℕ × String))
    (es : List LookupEvent) : Prop :=
  ∀ x ∈ ks, .start x.1 ∈ es →
    (FindsItem db n x es ↔ (db.findProperty n (db.getCode x.2)).isSome)

theorem GraphDb.lookupsRight_cons {ks : List (ℕ × String)} {ev : LookupEvent}
    {es : List LookupEvent} (h : ∀ x ∈ ks, ev.operand < x.1) :
    db.LookupsRight n ks (ev :: es) ↔ db.LookupsRight n ks es := by
  refine forall₂_congr fun x hx => ?_
  have hmem : ∀ ev' : LookupEvent, ev'.operand = x.1 → (ev' ∈ ev :: es ↔ ev' ∈ es) := by
    intro ev' hop
    rw [List.mem_cons,or_iff_right]
    rintro rfl
    exact absurd (h x hx) (by omega)
  have hfinds : FindsItem db n x (ev :: es) ↔ FindsItem db n x es := by
    simp only [FindsItem,hmem (.found x.1 _) rfl]
  rw [hmem (.start x.1) rfl,hfinds]

theorem GraphDb.lookupsRight_iff (ks : List (ℕ × String)) : ∀ l : List ℕ,
    ks.Pairwise (fun x y => x.1 < y.1) → l <:+ db.propertySets n →
    (db.LookupsRight n ks (db.lookups ks l) ↔
      Exact db.hasKey (db.propertySets n) (ks.map Prod.snd) l) := by
  induction ks with
  | nil => exact fun _ _ _ => iff_of_true (List.forall_mem_nil _) trivial
  | cons x ks ih =>
    intro l hks hl
    obtain ⟨i,key⟩ := x
    obtain ⟨hlt,hks⟩ := List.pairwise_cons.1 hks
    rw [LookupsRight,List.forall_mem_cons,List.map_cons,Exact,← findProperty_isSome_iff,lookups]
    cases hseek : seek db.hasKey key l with
    | nil =>
      refine and_congr ?_ (iff_of_true ?_ fun hne => absurd rfl hne)
      · have hnot : ¬ FindsItem db n (i,key) [.start i] := by
          simp [FindsItem]
        simp [hnot]
      · exact (lookupsRight_cons hlt).2 fun x _ hx => absurd hx List.not_mem_nil
    | cons p l' =>
      have hl' : p :: l' <:+ db.propertySets n := hseek ▸ (seek_suffix db.hasKey key l).trans hl
      obtain ⟨j,hj,hitem⟩ := keyItem_eq (has_of_seek hseek)
      refine and_congr ?_ ?_
      · have hfound : FindsItem db n (i,key) (.start i ::
            .found i (db.keyItem p (db.getCode key)) :: db.lookups ks (p :: l')) :=
          ⟨p,hl'.subset List.mem_cons_self,j,hj,by simp [hitem]⟩
        simp [hfound]
      · rw [← ih (p :: l') hks hl']
        exact (lookupsRight_cons hlt).trans ((lookupsRight_cons hlt).trans (by simp))

theorem FilterExpr.keysFrom_pairwise (xs : List (List Bool × FilterExpr)) : ∀ n,
    (keysFrom n xs).Pairwise (fun x y => x.1 < y.1) ∧ ∀ x ∈ keysFrom n xs, n ≤ x.1 := by
  induction xs with
  | nil => exact fun n => ⟨.nil,List.forall_mem_nil _⟩
  | cons x xs ih =>
    intro n
    obtain ⟨path,e⟩ := x
    rcases key_or e with ⟨qrId,k,rfl⟩ | hother
    · obtain ⟨hsorted,hle⟩ := ih (n+1)
      exact ⟨List.pairwise_cons.2 ⟨hle,hsorted⟩,
        List.forall_mem_cons.2 ⟨Nat.le_refl n,fun y hy => Nat.le_of_succ_le (hle y hy)⟩⟩
    · rw [keysFrom_cons hother]
      obtain ⟨hsorted,hle⟩ := ih (e.nextOpd n)
      exact ⟨hsorted,fun y hy => (le_nextOpd n e).trans (hle y hy)⟩

theorem FilterExpr.keysFrom_append (xs ys : List (List Bool × FilterExpr)) : ∀ n, ∃ m,
    keysFrom n (xs ++ ys) = keysFrom n xs ++ keysFrom m ys := by
  induction xs with
  | nil => exact fun n => ⟨n,rfl⟩
  | cons x xs ih =>
    intro n
    obtain ⟨path,e⟩ := x
    rcases key_or e with ⟨qrId,k,rfl⟩ | hother
    · obtain ⟨m,hm⟩ := ih (n+1)
      exact ⟨m,congrArg (List.cons (n,k)) hm⟩
    · obtain ⟨m,hm⟩ := ih (e.nextOpd n)
      exact ⟨m,by rw [List.cons_append,keysFrom_cons hother,keysFrom_cons hother,hm]⟩

theorem FilterExpr.keysFrom_visits (e : FilterExpr) : ∀ (n : ℕ) (path : List Bool),
    (keysFrom n (e.visits path)).map Prod.snd = e.keys.map Prod.snd := by
  induction e with
  | num | key | str | fct => exact fun _ _ => rfl
  | eq l r ihl ihr | and l r ihl ihr | or l r ihl ihr =>
    intro n path
    obtain ⟨m,hm⟩ := keysFrom_append (l.visits (false :: path)) (r.visits (true :: path) ++ _) n
    obtain ⟨m',hm'⟩ := keysFrom_append (r.visits (true :: path)) [(path,_)] m
    rw [visits,hm,hm',List.map_append,List.map_append,ihl,ihr,keys,List.map_append]
    exact congrArg _ (List.append_nil _)

theorem FilterExpr.keyOperands_pairwise (e : FilterExpr) :
    e.keyOperands.Pairwise fun x y => x.1 < y.1 := (keysFrom_pairwise _ 0).1

theorem FilterExpr.keyOperands_snd (e : FilterExpr) :
    e.keyOperands.map Prod.snd = e.keys.map Prod.snd := keysFrom_visits e 0 []

theorem findsKeys_iff_right (h : e.fepCode env.db = some c) : FindsKeys env n e c ↔
    env.db.LookupsRight n e.keyOperands (env.db.lookups e.keyOperands (env.db.propertySets n)) := by
  constructor
  · intro hfinds
    obtain ⟨es,d,hrun,hd,hright⟩ := hfinds fun _ => .undef
    obtain ⟨d',hrun',hd'⟩ := FilterExpr.fepCode_traced h n fun _ => .undef
    obtain ⟨rfl,-⟩ := hrun.unique hrun' hd hd'
    exact hright
  · intro hright σ
    obtain ⟨d,hrun,hd⟩ := FilterExpr.fepCode_traced h n σ
    exact ⟨_,d,hrun,hd,hright⟩

theorem findsKeys_iff_finds (h : e.fepCode env.db = some c) : FindsKeys env n e c ↔
    Finds env.db.hasKey ((e.keys.map Prod.snd).takeWhile fun key =>
      (env.db.findProperty n (env.db.getCode key)).isSome) (env.db.propertySets n) := by
  have hpresent : (fun key => (env.db.propertySets n).any (env.db.hasKey key)) =
      fun key => (env.db.findProperty n (env.db.getCode key)).isSome := by
    funext key
    rw [Bool.eq_iff_iff,List.any_eq_true,GraphDb.findProperty_isSome_iff]
  rw [findsKeys_iff_right h,GraphDb.lookupsRight_iff _ _ e.keyOperands_pairwise
    (List.suffix_refl _),exact_iff_finds (List.suffix_refl _),hpresent,e.keyOperands_snd]

/-- A filter finds the keys of a node exactly if the keys in front of the first that the node has
not are in property sets that come one behind the other in the order of the lookups. -/
theorem findsKeys_iff (env : Env) (n : ℕ) (e : FilterExpr) (code : FepCode)
    (h : e.fepCode env.db = some code) : FindsKeys env n e code ↔
      ∃ cs : List ℕ, cs.Pairwise (· ≤ ·) ∧ List.Forall₂
        (fun key c => ∃ p, (env.db.propertySets n)[c]? = some p ∧ env.db.hasKey key p)
        ((e.keys.map Prod.snd).takeWhile fun key =>
          (env.db.findProperty n (env.db.getCode key)).isSome) cs :=
  (findsKeys_iff_finds h).trans finds_iff

def twoSetPropertySet (p : ℕ) : PropertySet :=
  if p = 0 then ⟨1,0,fun _ => ⟨5,2⟩⟩ else ⟨unknownId,0,fun _ => ⟨5,3⟩⟩

theorem twoSet_rships (n : ℕ) (dir : RshipDir) : ∃ l : List ℕ, l.length ≤ 2 ∧
    IsChain (fun r => (pairDb.rshipById r).nextRship dir) unknownId IsId
      ((pairDb.nodeById n).rshipList dir) l := by
  obtain ⟨l,hl,hc⟩ := pairDb.rshipList_ends n dir
  exact ⟨l,hl.trans (by decide),hc⟩

theorem twoSet_properties (n : ℕ) : ∃ l : List ℕ, l.length ≤ 2 ∧
    IsChain (fun p => (twoSetPropertySet p).next) unknownId IsId
      (pairDb.nodeById n).propertyList l := by
  have hchain : IsChain (fun p => (twoSetPropertySet p).next) unknownId IsId 0 [0,1] :=
    .cons (by decide) (.cons (by decide) .nil)
  exact ⟨[0,1],Nat.le_refl 2,hchain⟩

def twoSetDb : GraphDb :=
  { pairDb with
    propertySet := twoSetPropertySet
    size := 2
    rshipList_ends := twoSet_rships
    propertyList_ends := twoSet_properties }

def twoSetEnv : Env := { pairEnv fun _ => "Person" with db := twoSetDb }

def keysAnd (key₁ key₂ : String) : FilterExpr :=
  .and (.eq (.key 0 key₁) (.num 5)) (.eq (.key 0 key₂) (.num 5))

theorem keysAnd_compiles (key₁ key₂ : String) (hne : key₂ ≠ key₁) :
    ∃ code, (keysAnd key₁ key₂).fepCode twoSetEnv.db = some code := by
  refine Option.isSome_iff_exists.1 ?_
  simp [keysAnd,FilterExpr.fepCode,FilterExpr.accept,fepVisitor,visitKey,visitNumber,visitEq,
    visitBool,finishPredicate,finishBlock,FepVisitor.insert,push,alloc,setGenVal,FepVisitor.init,
    allocStore,FilterExpr.ftype,FilterExpr.nextOpd,FepContext.boolOffset,hne]

theorem findsKeys_ordered : ∃ code, (keysAnd "id" "age").fepCode twoSetEnv.db = some code ∧
    FindsKeys twoSetEnv 0 (keysAnd "id" "age") code := by
  obtain ⟨code,hcode⟩ := keysAnd_compiles "id" "age" (by decide)
  exact ⟨code,hcode,(findsKeys_iff twoSetEnv 0 _ code hcode).2 ⟨[0,1],by decide,
    .cons ⟨0,by decide,by decide⟩ (.cons ⟨1,by decide,by decide⟩ .nil)⟩⟩

/-- The lookup of `id` begins at the property set in which `age` has been found. -/
theorem not_findsKeys_swapped : ∃ code, (keysAnd "age" "id").fepCode twoSetEnv.db = some code ∧
    ¬ FindsKeys twoSetEnv 0 (keysAnd "age" "id") code := by
  obtain ⟨code,hcode⟩ := keysAnd_compiles "age" "id" (by decide)
  refine ⟨code,hcode,fun hfinds => ?_⟩
  obtain ⟨-,hid,-⟩ := (findsKeys_iff_finds hcode).1 hfinds
  exact absurd hid (by decide)

end GraphQueryCompiler
