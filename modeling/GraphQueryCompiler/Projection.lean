import GraphQueryCompiler.CodegenInline
import GraphQueryCompiler.Lib.DecimalText

/-!
# Projections at run time

A projection writes an `int` to the cell of its register. A value of another type goes to a table
of the thread, and the cell gets its index there; `mat_reg_value` finds it again by the type id of
the register. The description of an object is kept on the thread under its id, from the first
projection on.
-/

namespace GraphQueryCompiler
open DecimalText

abbrev Ptime := Option ℤ

/-- What a property holds, and an entry of the tuple that is collected. -/
inductive Value
  | int (i : Int32)
  | double (bits : UInt64)
  | str (s : String)
  | ptime (t : Ptime)
  | uint64 (n : UInt64)
  deriving DecidableEq

namespace Value

/-- The value has the C++ type that is declared as this `FTYPE`. -/
def hasType : Value → FType → Bool
  | .int _, .INT => true
  | .double _, .DOUBLE => true
  | .str _, .STRING => true
  | .ptime _, .DATE => true
  | .ptime _, .TIME => true
  | .uint64 _, .UINT64 => true
  | _, _ => false

def int? : Value → Option Int32
  | .int i => some i
  | _ => none

def str? : Value → Option String
  | .str s => some s
  | _ => none

def ptime? : Value → Option Ptime
  | .ptime t => some t
  | _ => none

def uint64? : Value → Option UInt64
  | .uint64 n => some n
  | _ => none

end Value

structure Description where
  properties : String → Option Value
  text : String

structure Descriptions where
  node : ℕ → Description
  rship : ℕ → Description

def Descriptions.of (gdb : Descriptions) (isNode : Bool) : ℕ → Description :=
  if isNode then gdb.node else gdb.rship

/-- The `thread_local` variables. The keys of the maps are of type `int`. -/
structure ProjectionThread where
  strResult : Int32 → Option String
  uintResult : Int32 → Option UInt64
  timeResult : Int32 → Option Ptime
  strResCtr : Int32
  descs : Int32 → Option Description
  rdescs : Int32 → Option Description
  tp : List Value

/-- A projection returns with the content of the cell, throws, or overflows the counter. -/
inductive Projected
  | returned (s : ProjectionThread) (ret : Int32)
  | threw (s : ProjectionThread)
  | undefined

namespace ProjectionThread

def init : ProjectionThread where
  strResult := fun _ => none
  uintResult := fun _ => none
  timeResult := fun _ => none
  strResCtr := 0
  descs := fun _ => none
  rdescs := fun _ => none
  tp := []

def cached (s : ProjectionThread) (isNode : Bool) : Int32 → Option Description :=
  if isNode then s.descs else s.rdescs

def nodeDescription (s : ProjectionThread) (gdb : Descriptions) (id : ℕ) :
    ProjectionThread × Description :=
  match s.descs (Int32.ofNat id) with
  | some nd => (s,nd)
  | none => ({ s with descs := Function.update s.descs (Int32.ofNat id) (some (gdb.node id)) },
      gdb.node id)

def rshipDescription (s : ProjectionThread) (gdb : Descriptions) (id : ℕ) :
    ProjectionThread × Description :=
  match s.rdescs (Int32.ofNat id) with
  | some rd => (s,rd)
  | none => ({ s with rdescs := Function.update s.rdescs (Int32.ofNat id) (some (gdb.rship id)) },
      gdb.rship id)

def returnIndex (s : ProjectionThread) : Projected :=
  if s.strResCtr = Int32.maxValue then .undefined
  else .returned { s with strResCtr := s.strResCtr+1 } s.strResCtr

/-- The `switch` of a projection. A property that is missing or has another type throws. -/
def writeProperty (s : ProjectionThread) (d : Description) (key : String) (valType : FType)
    (ret : Int32) : Projected :=
  match valType with
  | .INT => ((d.properties key).bind Value.int?).elim (.threw s) fun i => .returned s i
  | .UINT64 => ((d.properties key).bind Value.uint64?).elim (.threw s) fun n =>
    { s with uintResult := Function.update s.uintResult s.strResCtr (some n) }.returnIndex
  | .STRING => ((d.properties key).bind Value.str?).elim (.threw s) fun t =>
    { s with strResult := Function.update s.strResult s.strResCtr (some t) }.returnIndex
  | .TIME => ((d.properties key).bind Value.ptime?).elim (.threw s) fun t =>
    { s with timeResult := Function.update s.timeResult s.strResCtr (some t) }.returnIndex
  | .DATE => ((d.properties key).bind Value.ptime?).elim (.threw s) fun t =>
    { s with timeResult := Function.update s.timeResult s.strResCtr (some t) }.returnIndex
  | .DOUBLE => .returned s ret
  | .BOOLEAN => .returned s ret

def applyPexprNode (s : ProjectionThread) (gdb : Descriptions) (key : String) (valType : FType)
    (id : ℕ) (ret : Int32) : Projected :=
  let x := s.nodeDescription gdb id
  x.1.writeProperty x.2 key valType ret

/-- `apply_pexpr_rship`, whose case for `UINT64` is empty. -/
def applyPexprRship (s : ProjectionThread) (gdb : Descriptions) (key : String) (valType : FType)
    (id : ℕ) (ret : Int32) : Projected :=
  let x := s.rshipDescription gdb id
  if valType = .UINT64 then .returned x.1 ret else x.1.writeProperty x.2 key valType ret

def applyPexpr (s : ProjectionThread) (gdb : Descriptions) (isNode : Bool) :
    String → FType → ℕ → Int32 → Projected :=
  if isNode then s.applyPexprNode gdb else s.applyPexprRship gdb

end ProjectionThread

inductive RegTarget
  | node (id : ℕ)
  | rship (id : ℕ)
  | cell (i : Int32)

namespace ProjectionThread

def strAt (s : ProjectionThread) (i : Int32) : ProjectionThread × String :=
  let x := (s.strResult i).getD ""
  ({ s with strResult := Function.update s.strResult i (some x) },x)

def uintAt (s : ProjectionThread) (i : Int32) : ProjectionThread × UInt64 :=
  let x := (s.uintResult i).getD 0
  ({ s with uintResult := Function.update s.uintResult i (some x) },x)

def timeAt (s : ProjectionThread) (i : Int32) : ProjectionThread × Ptime :=
  let x := (s.timeResult i).getD none
  ({ s with timeResult := Function.update s.timeResult i (some x) },x)

/-- `con_map[type](gdb, reg)`. Where the constructor of `query_engine` has put no function, the
call throws. -/
def conMap (s : ProjectionThread) (gdb : Descriptions) (type : ℕ) (reg : RegTarget) :
    Option (ProjectionThread × String) :=
  match type, reg with
  | 0, .node id => some (s,(gdb.node id).text)
  | 1, .rship id => some (s,(gdb.rship id).text)
  | 2, .cell i => some (s,toString i.toInt)
  | 4, .cell i => some (s.strAt i)
  | 8, .cell i => some ((s.uintAt i).1,toString (s.uintAt i).2.toNat)
  | _, _ => none

def push (s : ProjectionThread) (x : Value) : ProjectionThread := { s with tp := s.tp ++ [x] }

def matRegValue (s : ProjectionThread) (gdb : Descriptions) (reg : RegTarget) (type : ℕ) :
    Option ProjectionThread :=
  if type = 2 then do
    let x ← s.conMap gdb type reg
    let res ← stoi x.2
    return x.1.push (.int res)
  else if type = 5 ∨ type = 6 then
    match reg with
    | .cell i => some ((s.timeAt i).1.push (.ptime (s.timeAt i).2))
    | _ => none
  else if type = 8 then do
    let x ← s.conMap gdb type reg
    let res ← stoull x.2
    return x.1.push (.uint64 res)
  else do
    let x ← s.conMap gdb type reg
    return x.1.push (.str x.2)

end ProjectionThread

/-- The type id that `visit(project)` gives to the register of a projection. -/
def FType.regType (t : FType) : ℕ := t.toNat+2

def collectType (type : ℕ) : ℕ := if type = 7 then 2 else type

/-- A projection to a cell that holds `c`, and then the materialisation of its register, append
the value to the tuple. -/
def ProjectionThread.Projects (s : ProjectionThread) (gdb : Descriptions) (isNode : Bool)
    (key : String) (t : FType) (id : ℕ) (c : Int32) (x : Value) : Prop :=
  ∃ s' ret, s.applyPexpr gdb isNode key t id c = .returned s' ret ∧
    ∃ s'', s'.matRegValue gdb (.cell ret) (collectType t.regType) = some s'' ∧
      s''.tp = s.tp ++ [x]

/-- The description kept for the id, if there is one, has the value, and there is an index for it.
No index is written for a `UINT64` of a relationship: then the old one has to be that of the
value. -/
def ProjectionThread.Keeps (s : ProjectionThread) (isNode : Bool) (key : String) (t : FType)
    (id : ℕ) (c : Int32) (x : Value) : Prop :=
  t ≠ .DOUBLE ∧
    if t = .UINT64 ∧ isNode = false then x = .uint64 ((s.uintResult c).getD 0)
    else (∀ d, s.cached isNode (Int32.ofNat id) = some d → d.properties key = some x) ∧
      (t ≠ .INT → s.strResCtr ≠ Int32.maxValue)

namespace CodegenInlineVisitor
variable {v : CodegenInlineVisitor} {i : ℕ} {pe : PrExpr} {r : QrValue}
  {res : List Instr × QrValue}

theorem projectExpr_type (h : v.projectExpr i pe = some res) (hbool : pe.type ≠ .BOOLEAN)
    (hr : v.regQueryResults[pe.id]? = some r) : res.2.type = pe.type.regType ∧
      ∃ key dst, res.1 = [.applyPexpr (r.type = 0) key pe.type r.regVal dst] := by
  simp only [projectExpr,hr,Option.bind_eq_bind,Option.bind_some,if_neg hbool,
    Option.bind_eq_some_iff] at h
  obtain ⟨key,_,h⟩ := h
  split_ifs at h
  obtain rfl := Option.some.inj h
  exact ⟨rfl,key,_,rfl⟩

end CodegenInlineVisitor

namespace ProjectionThread
variable {s s' : ProjectionThread} {gdb : Descriptions} {isNode : Bool} {d : Description}
  {key : String} {t : FType} {id : ℕ} {c ret : Int32} {x y : Value}

def delivered (s : ProjectionThread) (t : FType) (ret : Int32) : Option Value :=
  match t with
  | .INT => some (.int ret)
  | .UINT64 => (s.uintResult ret).map Value.uint64
  | .STRING => (s.strResult ret).map Value.str
  | .TIME => (s.timeResult ret).map Value.ptime
  | .DATE => (s.timeResult ret).map Value.ptime
  | .DOUBLE => none
  | .BOOLEAN => none

def kept (s : ProjectionThread) (gdb : Descriptions) (isNode : Bool) (id : ℕ) : Description :=
  (s.cached isNode (Int32.ofNat id)).getD (gdb.of isNode id)

def keep (s : ProjectionThread) (isNode : Bool) (id : ℕ) (d : Description) : ProjectionThread :=
  if isNode then { s with descs := Function.update s.descs (Int32.ofNat id) (some d) }
  else { s with rdescs := Function.update s.rdescs (Int32.ofNat id) (some d) }

theorem nodeDescription_eq (s : ProjectionThread) (gdb : Descriptions) (id : ℕ) :
    s.nodeDescription gdb id = (s.keep true id (s.kept gdb true id),s.kept gdb true id) := by
  unfold nodeDescription kept keep cached
  cases h : s.descs (Int32.ofNat id) with
  | none => simp [h,Descriptions.of]
  | some nd =>
    have hself : Function.update s.descs (Int32.ofNat id) (some nd) = s.descs := by
      rw [← h,Function.update_eq_self]
    simp [h,hself]

theorem rshipDescription_eq (s : ProjectionThread) (gdb : Descriptions) (id : ℕ) :
    s.rshipDescription gdb id = (s.keep false id (s.kept gdb false id),s.kept gdb false id) := by
  unfold rshipDescription kept keep cached
  cases h : s.rdescs (Int32.ofNat id) with
  | none => simp [h,Descriptions.of]
  | some rd =>
    have hself : Function.update s.rdescs (Int32.ofNat id) (some rd) = s.rdescs := by
      rw [← h,Function.update_eq_self]
    simp [h,hself]

theorem keep_eq (s : ProjectionThread) (isNode : Bool) (id : ℕ) (d : Description) :
    (s.keep isNode id d).strResult = s.strResult ∧ (s.keep isNode id d).uintResult = s.uintResult ∧
    (s.keep isNode id d).timeResult = s.timeResult ∧
    (s.keep isNode id d).strResCtr = s.strResCtr ∧ (s.keep isNode id d).tp = s.tp := by
  cases isNode <;> exact ⟨rfl,rfl,rfl,rfl,rfl⟩

theorem kept_properties (hx : (gdb.of isNode id).properties key = some x) :
    (s.kept gdb isNode id).properties key = some x ↔
      ∀ d, s.cached isNode (Int32.ofNat id) = some d → d.properties key = some x := by
  unfold kept
  cases s.cached isNode (Int32.ofNat id) <;> simp [hx]

theorem applyPexpr_uint64_rship : s.applyPexpr gdb false key .UINT64 id c =
    .returned (s.keep false id (s.kept gdb false id)) c := by
  simp [applyPexpr,applyPexprRship,rshipDescription_eq]

theorem applyPexpr_eq (h : ¬ (t = .UINT64 ∧ isNode = false)) :
    s.applyPexpr gdb isNode key t id c =
      (s.keep isNode id (s.kept gdb isNode id)).writeProperty (s.kept gdb isNode id) key t c := by
  cases isNode with
  | true => simp [applyPexpr,applyPexprNode,nodeDescription_eq]
  | false =>
    have ht : t ≠ .UINT64 := fun heq => h ⟨heq,rfl⟩
    simp [applyPexpr,applyPexprRship,rshipDescription_eq,ht]

theorem returnIndex_returns (hctr : s.strResCtr ≠ Int32.maxValue)
    (h : s.delivered t s.strResCtr = some y) :
    ∃ s' ret, s.returnIndex = .returned s' ret ∧ s'.delivered t ret = some y ∧ s'.tp = s.tp := by
  refine ⟨{ s with strResCtr := s.strResCtr+1 },s.strResCtr,if_neg hctr,?_,rfl⟩
  cases t <;> exact h

theorem writeProperty_returns (hy : y.hasType t = true) (hd : t ≠ .DOUBLE)
    (hp : d.properties key = some y) (hctr : t ≠ .INT → s.strResCtr ≠ Int32.maxValue) :
    ∃ s' ret, s.writeProperty d key t c = .returned s' ret ∧ s'.delivered t ret = some y ∧
      s'.tp = s.tp := by
  cases t <;> cases y <;> simp only [Value.hasType,Bool.false_eq_true] at hy
  case INT.int i => exact ⟨s,i,by rw [writeProperty,hp]; rfl,rfl,rfl⟩
  case DOUBLE.double => exact absurd rfl hd
  all_goals
    have hmax := hctr (by simp)
    simp only [writeProperty,hp,Option.bind_some,Value.str?,Value.ptime?,Value.uint64?,
      Option.elim_some]
    exact returnIndex_returns hmax (by simp [delivered])

theorem of_writeProperty (hd : t ≠ .DOUBLE) (hb : t ≠ .BOOLEAN)
    (h : s.writeProperty d key t c = .returned s' ret) :
    ∃ y, y.hasType t = true ∧ d.properties key = some y ∧
      (t ≠ .INT → s.strResCtr ≠ Int32.maxValue) ∧ s'.delivered t ret = some y ∧ s'.tp = s.tp := by
  have hindex : ∀ s₁ : ProjectionThread, s₁.returnIndex = .returned s' ret →
      s₁.strResCtr = s.strResCtr → s.strResCtr ≠ Int32.maxValue := by
    intro s₁ hret hctr hmax
    rw [returnIndex,if_pos (hctr.trans hmax)] at hret
    cases hret
  cases hp : d.properties key with
  | none => cases t <;> simp [writeProperty,hp] at h hd hb
  | some y =>
    refine ⟨y,?_⟩
    suffices hfound : y.hasType t = true ∧ (t ≠ .INT → s.strResCtr ≠ Int32.maxValue) by
      obtain ⟨s₁,ret₁,hret₁,hdel₁⟩ := writeProperty_returns (c := c) hfound.1 hd hp hfound.2
      obtain ⟨rfl,rfl⟩ : s₁ = s' ∧ ret₁ = ret := by simpa [h] using hret₁.symm
      exact ⟨hfound.1,rfl,hfound.2,hdel₁⟩
    unfold writeProperty at h
    cases t <;> cases y <;>
      simp only [hp,Option.bind_some,Value.int?,Value.uint64?,Value.str?,Value.ptime?,
        Option.elim_some,Option.elim_none,reduceCtorEq] at h
    case INT.int => exact ⟨rfl,fun hne => absurd rfl hne⟩
    case STRING.str | DATE.ptime | TIME.ptime | UINT64.uint64 =>
      exact ⟨rfl,fun _ => hindex _ h rfl⟩
    all_goals first | exact absurd rfl hd | exact absurd rfl hb

theorem matRegValue_uint64 (gdb : Descriptions) (ret : Int32) :
    s.matRegValue gdb (.cell ret) (collectType FType.UINT64.regType) =
      some ((s.uintAt ret).1.push (.uint64 ((s.uintResult ret).getD 0))) := by
  have htype : collectType FType.UINT64.regType = 8 := rfl
  have hcon : s.conMap gdb 8 (.cell ret) =
    some ((s.uintAt ret).1,toString (s.uintAt ret).2.toNat) := rfl
  rw [htype,matRegValue,if_neg (by decide),if_neg (by decide),if_pos rfl,hcon,
    Option.bind_eq_bind,Option.bind_some,stoull_toString]
  rfl

theorem matRegValue_delivered (gdb : Descriptions) (h : s.delivered t ret = some y) :
    ∃ s', s.matRegValue gdb (.cell ret) (collectType t.regType) = some s' ∧
      s'.tp = s.tp ++ [y] := by
  cases t <;> simp only [delivered,reduceCtorEq,Option.map_eq_some_iff,Option.some.injEq] at h
  case INT =>
    subst h
    have htype : collectType FType.INT.regType = 2 := rfl
    have hcon : s.conMap gdb 2 (.cell ret) = some (s,toString ret.toInt) := rfl
    refine ⟨s.push (.int ret),?_,rfl⟩
    rw [htype,matRegValue,if_pos rfl,hcon,Option.bind_eq_bind,Option.bind_some,stoi_toString]
    rfl
  case STRING =>
    obtain ⟨text,htext,rfl⟩ := h
    refine ⟨(s.strAt ret).1.push (.str text),?_,rfl⟩
    have hcon : s.conMap gdb 4 (.cell ret) = some (s.strAt ret) := rfl
    have hat : (s.strAt ret).2 = text := by rw [strAt,htext,Option.getD_some]
    rw [← hat]
    simp [matRegValue,collectType,FType.regType,FType.toNat,hcon]
  case UINT64 =>
    obtain ⟨n,hn,rfl⟩ := h
    refine ⟨_,matRegValue_uint64 gdb ret,?_⟩
    rw [hn]
    rfl
  all_goals
    obtain ⟨time,htime,rfl⟩ := h
    refine ⟨(s.timeAt ret).1.push (.ptime time),?_,rfl⟩
    simp [matRegValue,collectType,FType.regType,FType.toNat,timeAt,htime]

theorem applyPexpr_delivered_iff (hd : t ≠ .DOUBLE) (hu : ¬ (t = .UINT64 ∧ isNode = false)) :
    (∃ s' ret, s.applyPexpr gdb isNode key t id c = .returned s' ret ∧
      s'.delivered t ret = some x) ↔
    ((s.kept gdb isNode id).properties key = some x ∧ x.hasType t = true) ∧
      (t ≠ .INT → s.strResCtr ≠ Int32.maxValue) := by
  obtain ⟨_,_,_,hctr,_⟩ := s.keep_eq isNode id (s.kept gdb isNode id)
  rw [applyPexpr_eq hu,← hctr]
  constructor
  · rintro ⟨s',ret,hret,hdel⟩
    have hb : t ≠ .BOOLEAN := by
      rintro rfl
      cases hdel
    obtain ⟨y,hy,hp,hmax,hdel',_⟩ := of_writeProperty hd hb hret
    rw [hdel] at hdel'
    obtain rfl := Option.some.inj hdel'
    exact ⟨⟨hp,hy⟩,hmax⟩
  · rintro ⟨⟨hp,htype⟩,hmax⟩
    obtain ⟨s',ret,hret,hdel,_⟩ := writeProperty_returns (c := c) htype hd hp hmax
    exact ⟨s',ret,hret,hdel⟩

theorem applyPexpr_tp (hd : t ≠ .DOUBLE) (hb : t ≠ .BOOLEAN)
    (hu : ¬ (t = .UINT64 ∧ isNode = false))
    (h : s.applyPexpr gdb isNode key t id c = .returned s' ret) :
    ∃ y, s'.delivered t ret = some y ∧ s'.tp = s.tp := by
  obtain ⟨_,_,_,_,htp⟩ := s.keep_eq isNode id (s.kept gdb isNode id)
  rw [applyPexpr_eq hu] at h
  obtain ⟨y,_,_,_,hy,htp'⟩ := of_writeProperty hd hb h
  exact ⟨y,hy,htp'.trans htp⟩

end ProjectionThread

open ProjectionThread in
/-- A projected property arrives in the tuple exactly if the thread keeps it for the object. -/
theorem projects_iff (s : ProjectionThread) (gdb : Descriptions) (isNode : Bool) (key : String)
    (t : FType) (id : ℕ) (c : Int32) (x : Value)
    (hx : (gdb.of isNode id).properties key = some x) (htype : x.hasType t = true) :
    s.Projects gdb isNode key t id c x ↔ s.Keeps isNode key t id c x := by
  have hb : t ≠ .BOOLEAN := by
    rintro rfl
    cases x <;> cases htype
  by_cases hd : t = .DOUBLE
  · -- no function of `con_map`
    subst hd
    refine iff_of_false ?_ fun h => h.1 rfl
    rintro ⟨s',ret,_,s'',hmat,_⟩
    cases hmat
  by_cases hu : t = .UINT64 ∧ isNode = false
  · obtain ⟨rfl,rfl⟩ := hu
    obtain ⟨_,huint,_,_,htp⟩ := s.keep_eq false id (s.kept gdb false id)
    rw [Keeps,if_pos ⟨rfl,rfl⟩,Projects,applyPexpr_uint64_rship,and_iff_right hd]
    have hpush : ∀ s'', (s.keep false id (s.kept gdb false id)).matRegValue gdb (.cell c)
        (collectType FType.UINT64.regType) = some s'' →
          s''.tp = s.tp ++ [.uint64 ((s.uintResult c).getD 0)] := by
      intro s'' hmat
      rw [matRegValue_uint64] at hmat
      obtain rfl := Option.some.inj hmat
      rw [← huint]
      exact congrArg (· ++ _) htp
    constructor
    · rintro ⟨_,_,hret,s'',hmat,htp'⟩
      obtain ⟨rfl,rfl⟩ := Projected.returned.inj hret
      rw [hpush s'' hmat] at htp'
      simpa [eq_comm] using htp'
    · rintro rfl
      exact ⟨_,_,rfl,_,matRegValue_uint64 gdb c,hpush _ (matRegValue_uint64 gdb c)⟩
  · have hdelivered : (∃ s' ret, s.applyPexpr gdb isNode key t id c = .returned s' ret ∧
        s'.delivered t ret = some x) ↔ _ := applyPexpr_delivered_iff hd hu
    rw [and_iff_left htype,kept_properties hx] at hdelivered
    rw [Keeps,if_neg hu,and_iff_right hd,← hdelivered]
    constructor
    · rintro ⟨s',ret,hret,s'',hmat,htp⟩
      obtain ⟨y,hy,htp'⟩ := applyPexpr_tp hd hb hu hret
      obtain ⟨s₁,hmat₁,htp₁⟩ := matRegValue_delivered gdb hy
      obtain rfl := Option.some.inj (hmat.symm.trans hmat₁)
      have hyx : s.tp ++ [y] = s.tp ++ [x] := by rw [← htp',← htp₁,htp,htp']
      obtain rfl : y = x := by simpa using hyx
      exact ⟨s',ret,hret,hy⟩
    · rintro ⟨s',ret,hret,hdel⟩
      obtain ⟨_,_,htp'⟩ := applyPexpr_tp hd hb hu hret
      obtain ⟨s'',hmat,htp⟩ := matRegValue_delivered gdb hdel
      exact ⟨s',ret,hret,s'',hmat,htp.trans (by rw [htp'])⟩

def weightedGraph : Descriptions :=
  let d : Description := ⟨fun key => if key = "age" then some (.int (-7))
    else if key = "weight" then some (.double 0) else none,""⟩
  ⟨fun _ => d,fun _ => d⟩

theorem projects_age :
    ProjectionThread.init.Projects weightedGraph true "age" .INT 3 0 (.int (-7)) :=
  (projects_iff .init weightedGraph true "age" .INT 3 0 (.int (-7)) rfl rfl).2
    ⟨by simp,by simp [ProjectionThread.cached,ProjectionThread.init]⟩

/-- A `DOUBLE` is never written, and the register is read by an empty function. -/
theorem not_projects_weight : (weightedGraph.of true 3).properties "weight" = some (.double 0) ∧
    ¬ ProjectionThread.init.Projects weightedGraph true "weight" .DOUBLE 3 0 (.double 0) := by
  refine ⟨rfl,?_⟩
  rintro ⟨s',ret,_,s'',hmat,_⟩
  cases hmat

end GraphQueryCompiler
