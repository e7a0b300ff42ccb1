import GraphQueryCompiler.Lib.MemoTable
import GraphQueryCompiler.Projection

/-!
# Kept descriptions over updates

The descriptions of a thread are never given up, so a projection hands over what an object had at
the first projection of its id on the thread, or of another id with the same low half.
-/

namespace GraphQueryCompiler

structure Projection where
  isNode : Bool
  key : String
  type : FType
  id : ℕ
  cell : Int32

namespace Projection

def description (gdb : Descriptions) (p : Projection) : Description := gdb.of p.isNode p.id

def place (p : Projection) : Bool × Int32 := (p.isNode,Int32.ofNat p.id)

def apply (p : Projection) (gdb : Descriptions) (s : ProjectionThread) : Projected :=
  s.applyPexpr gdb p.isNode p.key p.type p.id p.cell

def HasCase (p : Projection) : Prop := p.type ≠ .DOUBLE ∧ ¬ (p.type = .UINT64 ∧ p.isNode = false)

def Has (p : Projection) (d : Description) (x : Value) : Prop :=
  d.properties p.key = some x ∧ x.hasType p.type = true

/-- The projection returns, and its caller finds the value. -/
def HandsOver (p : Projection) (gdb : Descriptions) (s : ProjectionThread) (x : Value) : Prop :=
  ∃ s' ret, p.apply gdb s = .returned s' ret ∧ s'.delivered p.type ret = some x

/-- The value that `gdb` has for the object and key is handed over, and no other. -/
def Delivers (p : Projection) (gdb : Descriptions) (s : ProjectionThread) : Prop :=
  (∀ x, p.Has (p.description gdb) x → p.HasCase ∧ p.HandsOver gdb s x) ∧
    ∀ x, p.HandsOver gdb s x → p.Has (p.description gdb) x

/-- The projection has a case and an index for a value that `gdb` has, the description that was
first projected in its place has the same value or none like `gdb`, and where no case writes to
the cell there is nothing to be found by it. -/
def Agrees (p : Projection) (gdb : Descriptions) (s : ProjectionThread)
    (first : Option Description) : Prop :=
  (∀ x, p.Has (p.description gdb) x →
    p.HasCase ∧ (p.type ≠ .INT → s.strResCtr ≠ Int32.maxValue)) ∧
  (p.HasCase → (p.type ≠ .INT → s.strResCtr ≠ Int32.maxValue) →
    ∀ d, first = some d → ∀ x, p.Has d x ↔ p.Has (p.description gdb) x) ∧
  (p.type = .UINT64 → p.isNode = false → s.uintResult p.cell = none)

end Projection

def Projected.thread? : Projected → Option ProjectionThread
  | .returned s _ => some s
  | .threw s => some s
  | .undefined => none

abbrev ProjectionEvent := MemoTable.Event Descriptions Projection

def projectionStep (x : Descriptions × ProjectionThread) :
    ProjectionEvent → Option (Descriptions × ProjectionThread)
  | .change gdb => some (gdb,x.2)
  | .ask p => (p.apply x.1 x.2).thread?.map fun s => (x.1,s)

def projectionRun (x : Descriptions × ProjectionThread) (es : List ProjectionEvent) :
    Option (Descriptions × ProjectionThread) := es.foldlM projectionStep x

/-- In a history on a fresh thread, every projection hands over what the graph has at that time. -/
def DeliversCurrent (gdb₀ : Descriptions) (es : List ProjectionEvent) : Prop :=
  ∀ pre p post, es = pre ++ .ask p :: post →
    ∀ gdb s, projectionRun (gdb₀,.init) pre = some (gdb,s) → p.Delivers gdb s

/-- Every projection agrees with the first in its place. -/
def FirstCurrent (gdb₀ : Descriptions) (es : List ProjectionEvent) : Prop :=
  ∀ pre p post, es = pre ++ .ask p :: post →
    ∀ gdb s, projectionRun (gdb₀,.init) pre = some (gdb,s) →
      p.Agrees gdb s (MemoTable.first Projection.place Projection.description gdb₀ pre p.place)

namespace ProjectionThread
variable {s s' : ProjectionThread} {gdb gdb' : Descriptions} {p : Projection}

def table (s : ProjectionThread) (k : Bool × Int32) : Option Description := s.cached k.1 k.2

theorem table_init (k : Bool × Int32) : init.table k = none := by
  obtain ⟨b,i⟩ := k
  cases b <;> rfl

theorem table_writeProperty {d : Description} {key : String} {t : FType} {c : Int32}
    (h : (s.writeProperty d key t c).thread? = some s') : s'.table = s.table := by
  have hindex : ∀ s₁ : ProjectionThread, s₁.returnIndex.thread? = some s' →
      s'.table = s₁.table := by
    intro s₁ h₁
    rw [returnIndex] at h₁
    split_ifs at h₁
    · cases h₁
    · obtain rfl := Option.some.inj h₁
      rfl
  have helim : ∀ {α : Type} (x : Option α) (f : α → Projected),
      (x.elim (.threw s) f).thread? = some s' → s' = s ∨ ∃ a, (f a).thread? = some s' := by
    intro α x f hx
    cases x with
    | none => exact .inl (Option.some.inj hx).symm
    | some a => exact .inr ⟨a,hx⟩
  cases t with
  | DOUBLE | BOOLEAN =>
    obtain rfl := Option.some.inj h
    rfl
  | INT =>
    obtain rfl | ⟨_,h⟩ := helim _ _ h
    · rfl
    · obtain rfl := Option.some.inj h
      rfl
  | UINT64 | STRING | TIME | DATE =>
    obtain rfl | ⟨_,h⟩ := helim _ _ h
    · rfl
    · have htable := hindex _ h
      exact htable

theorem table_keep (s : ProjectionThread) (isNode : Bool) (id : ℕ) (d : Description) :
    (s.keep isNode id d).table =
      Function.update s.table (isNode,Int32.ofNat id) (some d) := by
  funext k
  obtain ⟨b,i⟩ := k
  cases isNode <;> cases b <;>
    simp [table,cached,keep,Function.update_apply]

theorem table_apply (h : (p.apply gdb s).thread? = some s') :
    (⟨gdb,s'.table⟩ : MemoTable.State ..) =
      MemoTable.step Projection.place Projection.description ⟨gdb,s.table⟩ (.ask p) := by
  have hkeep : s'.table =
      (s.keep p.isNode p.id (s.kept gdb p.isNode p.id)).table := by
    by_cases hu : p.type = .UINT64 ∧ p.isNode = false
    · obtain ⟨isNode,key,type,id,cell⟩ := p
      obtain ⟨rfl,rfl⟩ : type = .UINT64 ∧ isNode = false := hu
      rw [Projection.apply,applyPexpr_uint64_rship] at h
      obtain rfl := Option.some.inj h
      rfl
    · rw [Projection.apply,applyPexpr_eq hu] at h
      exact table_writeProperty h
  rw [hkeep,table_keep]
  rfl

theorem projectionStep_memo {e : ProjectionEvent}
    (h : projectionStep (gdb,s) e = some (gdb',s')) :
    (⟨gdb',s'.table⟩ : MemoTable.State ..) =
      MemoTable.step Projection.place Projection.description ⟨gdb,s.table⟩ e := by
  cases e with
  | change gdb₁ =>
    obtain ⟨rfl,rfl⟩ := Prod.mk.inj (Option.some.inj h)
    rfl
  | ask p =>
    obtain ⟨s₁,hs₁,heq⟩ := Option.map_eq_some_iff.1 h
    obtain ⟨rfl,rfl⟩ := Prod.mk.inj heq
    exact table_apply hs₁

theorem projectionRun_memo (es : List ProjectionEvent) : ∀ {gdb : Descriptions}
    {s : ProjectionThread}, projectionRun (gdb,s) es = some (gdb',s') →
    (⟨gdb',s'.table⟩ : MemoTable.State ..) =
      MemoTable.run Projection.place Projection.description ⟨gdb,s.table⟩ es := by
  induction es with
  | nil =>
    intro gdb s h
    obtain ⟨rfl,rfl⟩ := Prod.mk.inj (Option.some.inj h)
    rfl
  | cons e es ih =>
    intro gdb s h
    obtain ⟨⟨gdb₁,s₁⟩,h₁,h₂⟩ := Option.bind_eq_some_iff.1 h
    have hrest := ih h₂
    rw [projectionStep_memo h₁] at hrest
    exact hrest

end ProjectionThread

namespace Projection
variable {p : Projection} {gdb : Descriptions} {s : ProjectionThread} {x : Value}

theorem handsOver_iff (hcase : p.HasCase) : p.HandsOver gdb s x ↔
    p.Has (s.kept gdb p.isNode p.id) x ∧ (p.type ≠ .INT → s.strResCtr ≠ Int32.maxValue) :=
  ProjectionThread.applyPexpr_delivered_iff hcase.1 hcase.2

theorem handsOver_uint64_rship_iff (hp : p.type = .UINT64) (hrship : p.isNode = false) :
    p.HandsOver gdb s x ↔ (s.uintResult p.cell).map Value.uint64 = some x := by
  obtain ⟨isNode,key,type,id,cell⟩ := p
  obtain rfl : type = .UINT64 := hp
  obtain rfl : isNode = false := hrship
  obtain ⟨_,huint,_⟩ := s.keep_eq false id (s.kept gdb false id)
  unfold HandsOver apply
  rw [ProjectionThread.applyPexpr_uint64_rship]
  constructor
  · rintro ⟨s',ret,hret,hdel⟩
    obtain ⟨rfl,rfl⟩ := Projected.returned.inj hret
    rw [ProjectionThread.delivered,huint] at hdel
    exact hdel
  · intro h
    exact ⟨_,_,rfl,by rw [ProjectionThread.delivered,huint]; exact h⟩

theorem not_handsOver_double (hp : p.type = .DOUBLE) : ¬ p.HandsOver gdb s x := by
  rintro ⟨s',ret,_,hdel⟩
  rw [hp] at hdel
  cases hdel

theorem kept_of_handsOver (h : p.HandsOver gdb s x)
    (hcell : p.type = .UINT64 → p.isNode = false → s.uintResult p.cell = none) :
    p.HasCase ∧ p.Has (s.kept gdb p.isNode p.id) x ∧
      (p.type ≠ .INT → s.strResCtr ≠ Int32.maxValue) := by
  have hcase : p.HasCase := by
    refine ⟨fun hdouble => not_handsOver_double hdouble h,fun ⟨huint,hrship⟩ => ?_⟩
    have hold := (handsOver_uint64_rship_iff huint hrship).1 h
    rw [hcell huint hrship] at hold
    cases hold
  exact ⟨hcase,(handsOver_iff hcase).1 h⟩

theorem kept_eq (p : Projection) (gdb : Descriptions) (s : ProjectionThread) :
    s.kept gdb p.isNode p.id = (s.table p.place).getD (p.description gdb) := rfl

theorem agrees_of_delivers (h : p.Delivers gdb s) : p.Agrees gdb s (s.table p.place) := by
  obtain ⟨hall,honly⟩ := h
  refine ⟨fun x hx => ?_,fun hcase hctr d hd x => ⟨fun hx => ?_,fun hx => ?_⟩,
    fun huint hrship => ?_⟩
  · obtain ⟨hcase,hover⟩ := hall x hx
    exact ⟨hcase,((handsOver_iff hcase).1 hover).2⟩
  · refine honly x ((handsOver_iff hcase).2 ⟨?_,hctr⟩)
    rw [kept_eq,hd]
    exact hx
  · have hkept := ((handsOver_iff hcase).1 (hall x hx).2).1
    rw [kept_eq,hd] at hkept
    exact hkept
  · -- an old value in the cell would be handed over, and there is no case for a current one
    cases hold : s.uintResult p.cell with
    | none => rfl
    | some n =>
      have hover : p.HandsOver gdb s (.uint64 n) :=
        (handsOver_uint64_rship_iff huint hrship).2 (by rw [hold]; rfl)
      exact absurd ⟨huint,hrship⟩ (hall _ (honly _ hover)).1.2

theorem delivers_of_agrees (h : p.Agrees gdb s (s.table p.place)) : p.Delivers gdb s := by
  obtain ⟨hindex,hfirst,hcell⟩ := h
  refine ⟨fun x hx => ?_,fun x hover => ?_⟩
  · obtain ⟨hcase,hctr⟩ := hindex x hx
    refine ⟨hcase,(handsOver_iff hcase).2 ⟨?_,hctr⟩⟩
    rw [kept_eq]
    cases hd : s.table p.place with
    | none => exact hx
    | some d => exact (hfirst hcase hctr d hd x).2 hx
  · obtain ⟨hcase,hkept,hctr⟩ := kept_of_handsOver hover hcell
    rw [kept_eq] at hkept
    cases hd : s.table p.place with
    | none =>
      rw [hd] at hkept
      exact hkept
    | some d =>
      rw [hd] at hkept
      exact (hfirst hcase hctr d hd x).1 hkept

/-- A projection hands over what the graph has exactly if it agrees with what is kept. -/
theorem delivers_iff (p : Projection) (gdb : Descriptions) (s : ProjectionThread) :
    p.Delivers gdb s ↔ p.Agrees gdb s (s.table p.place) :=
  ⟨agrees_of_delivers,delivers_of_agrees⟩

end Projection

/-- Projections hand over the current values exactly if every projection agrees with the first in
the same place. -/
theorem deliversCurrent_iff (gdb₀ : Descriptions) (es : List ProjectionEvent) :
    DeliversCurrent gdb₀ es ↔ FirstCurrent gdb₀ es := by
  refine forall₄_congr fun pre p post _ => forall₃_congr fun gdb s hrun => ?_
  have hmemo := ProjectionThread.projectionRun_memo pre hrun
  have htable : s.table p.place = (ProjectionThread.init.table p.place).or
      (MemoTable.first Projection.place Projection.description gdb₀ pre p.place) := by
    have h := MemoTable.run_table Projection.place Projection.description
      ⟨gdb₀,ProjectionThread.init.table⟩ pre p.place
    rw [← hmemo] at h
    exact h
  rw [ProjectionThread.table_init,Option.none_or] at htable
  rw [Projection.delivers_iff,htable]

def agedGraph (age : Int32) : Descriptions :=
  ⟨fun _ => ⟨fun _ => some (.int age),""⟩,fun _ => ⟨fun _ => none,""⟩⟩

def projectAge : Projection := ⟨true,"age",.INT,0,0⟩

/-- An update behind the first projection is not seen by the second. -/
theorem not_deliversCurrent_update : ¬ DeliversCurrent (agedGraph 1)
    [.ask projectAge,.change (agedGraph 2),.ask projectAge] := by
  intro h
  have hsecond := h [.ask projectAge,.change (agedGraph 2)] projectAge [] rfl _ _ rfl
  have hkept := ((Projection.delivers_iff ..).1 hsecond).2.1
    ⟨by simp [projectAge],by simp [projectAge]⟩ (by simp [projectAge]) _ rfl (.int 1)
  have hage := (hkept.1 ⟨rfl,rfl⟩).1
  simp [agedGraph,projectAge,Projection.description,Descriptions.of] at hage

end GraphQueryCompiler
