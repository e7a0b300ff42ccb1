import GraphQueryCompiler.Projection

/-!
# Projected rows at run time

The block of a projection calls `apply_pexpr` for all of its expressions, and the block of the
collect then calls `mat_reg_value` for all of its registers. The tables, the descriptions and the
counter of the thread go on from row to row.
-/

namespace GraphQueryCompiler
open DecimalText

namespace ProjectionThread

def applyPexprs (gdb : Descriptions) : ℕ → List QrVal → ProjectionThread → (ℕ → Int32) →
    Option (ProjectionThread × (ℕ → Int32))
  | _, [], s, pv => some (s,pv)
  | i, .property isNode id key t :: q, s, pv =>
    match s.applyPexpr gdb isNode key t id (pv i) with
    | .returned s' ret => applyPexprs gdb (i+1) q s' (Function.update pv i ret)
    | .threw _ => none
    | .undefined => none
  | i, _ :: q, s, pv => applyPexprs gdb (i+1) q s pv

def matEntry (s : ProjectionThread) (gdb : Descriptions) (c : Int32) :
    QrVal → Option ProjectionThread
  | .node n => s.matRegValue gdb (.node n) 0
  | .rship r => s.matRegValue gdb (.rship r) 1
  | .int d => s.matRegValue gdb (.cell (Int32.ofNat d)) (collectType 7)
  | .property _ _ _ t => s.matRegValue gdb (.cell c) (collectType t.regType)
  | .ptr _ => none

def matEntries (gdb : Descriptions) (pv : ℕ → Int32) : ℕ → List QrVal → ProjectionThread →
    Option ProjectionThread
  | _, [], s => some s
  | i, e :: q, s => (s.matEntry gdb (pv i) e).bind (matEntries gdb pv (i+1) q)

/-- Rows, one after the other, with what `collect_tuple` puts into the result set. -/
def collectRows (gdb : Descriptions) : List (List QrVal) → ProjectionThread → (ℕ → Int32) →
    Option (ProjectionThread × List (List Value))
  | [], s, _ => some (s,[])
  | q :: rows, s, pv => do
    let (s₁,pv) ← applyPexprs gdb 1 q s pv
    let s₂ ← matEntries gdb pv 1 q s₁
    let (s',data) ← collectRows gdb rows { s₂ with tp := [] } pv
    return (s',s₂.tp :: data)

def Faithful (s : ProjectionThread) (gdb : Descriptions) : Prop :=
  ∀ isNode id d, id < 2^32 → s.cached isNode (Int32.ofNat id) = some d → d = gdb.of isNode id

end ProjectionThread

namespace QrVal

def value (gdb : Descriptions) : QrVal → Option Value
  | .node n => some (.str (gdb.node n).text)
  | .rship r => some (.str (gdb.rship r).text)
  | .int d => some (.int (Int32.ofNat d))
  | .property isNode id key _ => (gdb.of isNode id).properties key
  | .ptr _ => none

def Readable (gdb : Descriptions) : QrVal → Prop
  | .property isNode id key t => id < 2^32 ∧ t ≠ .DOUBLE ∧ (t = .UINT64 → isNode = true) ∧
    ∃ x, (gdb.of isNode id).properties key = some x ∧ x.hasType t = true
  | .ptr _ => False
  | _ => True

def indexed : QrVal → Bool
  | .property _ _ _ t => t ≠ .INT
  | _ => false

end QrVal

namespace ProjectionThread
variable {s s' : ProjectionThread} {gdb : Descriptions} {isNode : Bool} {d : Description}
  {key : String} {t t' : FType} {id i : ℕ} {c ret : Int32} {x y : Value} {pv pv' : ℕ → Int32}
  {q : List QrVal} {e : QrVal}

def put (s : ProjectionThread) : Value → ProjectionThread
  | .str text => { s with strResult := Function.update s.strResult s.strResCtr (some text) }
  | .ptime time => { s with timeResult := Function.update s.timeResult s.strResCtr (some time) }
  | .uint64 n => { s with uintResult := Function.update s.uintResult s.strResCtr (some n) }
  | _ => s

theorem writeProperty_int (hp : d.properties key = some x) (htype : x.hasType .INT = true) :
    ∃ i, x = .int i ∧ s.writeProperty d key .INT c = .returned s i := by
  cases x <;> simp only [Value.hasType,Bool.false_eq_true] at htype
  exact ⟨_,rfl,by rw [writeProperty,hp]; rfl⟩

theorem writeProperty_put (hp : d.properties key = some x) (htype : x.hasType t = true)
    (hint : t ≠ .INT) (hd : t ≠ .DOUBLE) : s.writeProperty d key t c = (s.put x).returnIndex := by
  cases t <;> cases x <;> simp only [Value.hasType,Bool.false_eq_true] at htype
  case INT.int => exact absurd rfl hint
  case DOUBLE.double => exact absurd rfl hd
  all_goals
    rw [writeProperty,hp]
    rfl

theorem put_eq (s : ProjectionThread) (x : Value) : (s.put x).strResCtr = s.strResCtr ∧
    (s.put x).cached = s.cached ∧ (s.put x).tp = s.tp := by
  cases x <;> exact ⟨rfl,rfl,rfl⟩

theorem delivered_put (htype : x.hasType t = true) (hint : t ≠ .INT) (hd : t ≠ .DOUBLE) :
    (s.put x).delivered t s.strResCtr = some x := by
  cases t <;> cases x <;> simp only [Value.hasType,Bool.false_eq_true] at htype
  case INT.int => exact absurd rfl hint
  case DOUBLE.double => exact absurd rfl hd
  all_goals simp [put,delivered]

theorem delivered_put_of_ne (hne : t ≠ .INT → ret ≠ s.strResCtr) :
    (s.put x).delivered t ret = s.delivered t ret := by
  cases t with
  | INT | DOUBLE | BOOLEAN => rfl
  | STRING | TIME | DATE | UINT64 =>
    have hret := hne (by simp)
    cases x <;> simp [put,delivered,hret]

theorem ofNat_injOn (hi : i < 2^32) (hid : id < 2^32) (h : Int32.ofNat i = Int32.ofNat id) :
    i = id := by
  have h' := congrArg (fun c : Int32 => c.toBitVec.toNat) h
  simp only [Int32.toBitVec_ofNat',BitVec.toNat_ofNat] at h'
  omega

theorem toInt_succ (h : c ≠ Int32.maxValue) : (c+1).toInt = c.toInt+1 := by
  have hne : c.toInt ≠ Int32.maxValue.toInt := fun heq => h (Int32.toInt_inj.1 heq)
  have hmax : Int32.maxValue.toInt = 2^31-1 := by decide
  have hone : (1 : Int32).toInt = 1 := by decide
  have hlo := c.le_toInt
  have hhi := c.toInt_lt
  rw [Int32.toInt_add,hone,Int.bmod_eq_of_le]
  all_goals omega

theorem Faithful.kept (h : s.Faithful gdb) (hid : id < 2^32) :
    s.kept gdb isNode id = gdb.of isNode id := by
  unfold ProjectionThread.kept
  cases hc : s.cached isNode (Int32.ofNat id) with
  | none => rfl
  | some d => exact h isNode id d hid hc

theorem cached_keep (s : ProjectionThread) (isNode b : Bool) (id : ℕ) (d : Description) :
    (s.keep isNode id d).cached b = if b = isNode then
      Function.update (s.cached b) (Int32.ofNat id) (some d) else s.cached b := by
  cases isNode <;> cases b <;> rfl

theorem Faithful.keep (h : s.Faithful gdb) (hid : id < 2^32) :
    (s.keep isNode id (gdb.of isNode id)).Faithful gdb := by
  intro b k d hk hd
  rw [cached_keep] at hd
  split_ifs at hd with hb
  · subst hb
    by_cases hkey : Int32.ofNat k = Int32.ofNat id
    · obtain rfl := ofNat_injOn hk hid hkey
      rw [Function.update_self] at hd
      exact (Option.some.inj hd).symm
    · rw [Function.update_of_ne hkey] at hd
      exact h b k d hk hd
  · exact h b k d hk hd

structure Grows (s s' : ProjectionThread) : Prop where
  delivered : ∀ t ret, (t ≠ .INT → ret.toInt < s.strResCtr.toInt) →
    s'.delivered t ret = s.delivered t ret
  counter : s.strResCtr.toInt ≤ s'.strResCtr.toInt
  tp : s'.tp = s.tp

theorem Grows.refl (s : ProjectionThread) : Grows s s := ⟨fun _ _ _ => rfl,le_rfl,rfl⟩

theorem Grows.trans {s₁ : ProjectionThread} (h : Grows s s₁) (h' : Grows s₁ s') : Grows s s' := by
  refine ⟨fun t ret hlt => ?_,h.counter.trans h'.counter,h'.tp.trans h.tp⟩
  rw [h'.delivered t ret fun ht => (hlt ht).trans_le h.counter,h.delivered t ret hlt]

def Shows (s : ProjectionThread) (gdb : Descriptions) (c : Int32) : QrVal → Prop
  | .property isNode id key t => s.delivered t c = (gdb.of isNode id).properties key ∧
    (t ≠ .INT → c.toInt < s.strResCtr.toInt)
  | _ => True

theorem Shows.grows (h : s.Shows gdb c e) (hg : Grows s s') : s'.Shows gdb c e := by
  cases e with
  | property isNode id key t =>
    exact ⟨(hg.delivered t c h.2).trans h.1,fun ht => (h.2 ht).trans_le hg.counter⟩
  | _ => trivial

theorem applyPexpr_readable (hs : s.Faithful gdb)
    (he : (QrVal.property isNode id key t).Readable gdb)
    (hspace : t ≠ .INT → s.strResCtr ≠ Int32.maxValue) :
    ∃ s' ret, s.applyPexpr gdb isNode key t id c = .returned s' ret ∧ s'.Faithful gdb ∧
      Grows s s' ∧ s'.Shows gdb ret (.property isNode id key t) ∧
      s'.strResCtr.toInt = s.strResCtr.toInt + if t = .INT then 0 else 1 := by
  obtain ⟨hid,hd,hu,x,hx,htype⟩ := he
  have hu' : ¬ (t = .UINT64 ∧ isNode = false) := fun h => by simp [hu h.1] at h
  have hkeep : (s.keep isNode id (gdb.of isNode id)).Faithful gdb := hs.keep hid
  have hgrows : Grows s (s.keep isNode id (gdb.of isNode id)) := by
    obtain ⟨hstr,huint,htime,hctr,htp⟩ := s.keep_eq isNode id (gdb.of isNode id)
    refine ⟨fun t ret _ => ?_,by rw [hctr],htp⟩
    cases t <;> simp [delivered,hstr,huint,htime]
  have hctr : (s.keep isNode id (gdb.of isNode id)).strResCtr = s.strResCtr :=
    (s.keep_eq isNode id _).2.2.2.1
  rw [applyPexpr_eq hu',hs.kept hid]
  set s₁ := s.keep isNode id (gdb.of isNode id)
  by_cases hint : t = .INT
  · subst hint
    obtain ⟨i,rfl,hw⟩ := writeProperty_int (s := s₁) (c := c) hx htype
    exact ⟨s₁,i,hw,hkeep,hgrows,⟨hx.symm,by simp⟩,by simp [hctr]⟩
  · have hmax : s₁.strResCtr ≠ Int32.maxValue := hctr ▸ hspace hint
    obtain ⟨hputctr,hcached,htp⟩ := s₁.put_eq x
    have hsucc : (s₁.strResCtr+1).toInt = s₁.strResCtr.toInt+1 := toInt_succ hmax
    refine ⟨{ s₁.put x with strResCtr := (s₁.put x).strResCtr+1 },(s₁.put x).strResCtr,?_,?_,
      hgrows.trans ⟨fun t' ret hlt => ?_,?_,htp⟩,⟨?_,fun _ => ?_⟩,?_⟩
    · rw [writeProperty_put hx htype hint hd,returnIndex,if_neg (by rw [hputctr]; exact hmax)]
    · intro b k d hk hd'
      refine hkeep b k d hk ?_
      rw [← hd',← hcached]
      rfl
    · have hput : (s₁.put x).delivered t' ret = s₁.delivered t' ret :=
        delivered_put_of_ne fun ht heq => absurd (hlt ht) (by rw [heq]; exact lt_irrefl _)
      rw [← hput]
      cases t' <;> rfl
    · change s₁.strResCtr.toInt ≤ ((s₁.put x).strResCtr+1).toInt
      rw [hputctr,hsucc]
      omega
    · rw [hx,← delivered_put (s := s₁) htype hint hd,hputctr]
      cases t <;> rfl
    · change (s₁.put x).strResCtr.toInt < ((s₁.put x).strResCtr+1).toInt
      rw [hputctr,hsucc]
      omega
    · change ((s₁.put x).strResCtr+1).toInt = _
      rw [hputctr,hsucc,hctr,if_neg hint]

theorem applyPexpr_undefined (hs : s.Faithful gdb)
    (he : (QrVal.property isNode id key t).Readable gdb) (hint : t ≠ .INT)
    (hmax : s.strResCtr = Int32.maxValue) :
    s.applyPexpr gdb isNode key t id c = .undefined := by
  obtain ⟨hid,hd,hu,x,hx,htype⟩ := he
  have hu' : ¬ (t = .UINT64 ∧ isNode = false) := fun h => by simp [hu h.1] at h
  rw [applyPexpr_eq hu',hs.kept hid,writeProperty_put hx htype hint hd,returnIndex,if_pos]
  rw [(put_eq _ _).1,(s.keep_eq isNode id _).2.2.2.1,hmax]

def ShowsRow (s : ProjectionThread) (gdb : Descriptions) (pv : ℕ → Int32) : ℕ → List QrVal → Prop
  | _, [] => True
  | i, e :: q => s.Shows gdb (pv i) e ∧ s.ShowsRow gdb pv (i+1) q

structure Applied (gdb : Descriptions) (i : ℕ) (q : List QrVal) (s : ProjectionThread)
    (pv : ℕ → Int32) (s' : ProjectionThread) (pv' : ℕ → Int32) : Prop where
  faithful : s'.Faithful gdb
  grows : Grows s s'
  counter : s'.strResCtr.toInt = s.strResCtr.toInt + q.countP QrVal.indexed
  cells : ∀ k < i, pv' k = pv k
  shows : s'.ShowsRow gdb pv' i q

theorem Applied.cons {s₁ : ProjectionThread}
    (h : Applied gdb (i+1) q s₁ (Function.update pv i c) s' pv')
    (hg : Grows s s₁) (hshows : s₁.Shows gdb c e)
    (hctr : s₁.strResCtr.toInt = s.strResCtr.toInt + if e.indexed = true then 1 else 0) :
    Applied gdb i (e :: q) s pv s' pv' := by
  refine ⟨h.faithful,hg.trans h.grows,?_,fun k hk => ?_,?_,h.shows⟩
  · rw [h.counter,hctr,List.countP_cons]
    split_ifs <;> push_cast <;> omega
  · rw [h.cells k (Nat.lt_succ_of_lt hk),Function.update_of_ne (Nat.ne_of_lt hk)]
  · rw [h.cells i (Nat.lt_succ_self i),Function.update_self]
    exact hshows.grows h.grows

theorem Applied.skip (h : Applied gdb (i+1) q s pv s' pv') (he : ∀ c, s.Shows gdb c e)
    (hindexed : e.indexed = false) : Applied gdb i (e :: q) s pv s' pv' := by
  refine Applied.cons (c := pv i) ?_ (.refl s) (he (pv i)) (by simp [hindexed])
  rwa [Function.update_eq_self]

theorem applyPexprs_readable (hq : ∀ e ∈ q, e.Readable gdb) : ∀ {i s pv}, s.Faithful gdb →
    (s.strResCtr.toInt + q.countP QrVal.indexed ≤ Int32.maxValue.toInt →
      ∃ s' pv', applyPexprs gdb i q s pv = some (s',pv') ∧ Applied gdb i q s pv s' pv') ∧
    (Int32.maxValue.toInt < s.strResCtr.toInt + q.countP QrVal.indexed →
      applyPexprs gdb i q s pv = none) := by
  induction q with
  | nil =>
    intro i s pv hs
    refine ⟨fun _ => ⟨s,pv,rfl,hs,.refl s,by simp,fun _ _ => rfl,trivial⟩,fun h => ?_⟩
    have hle := s.strResCtr.toInt_le
    rw [List.countP_nil] at h
    have hmax : Int32.maxValue.toInt = 2^31-1 := by decide
    omega
  | cons e q ih =>
    have hq' : ∀ e ∈ q, e.Readable gdb := fun e he => hq e (List.mem_cons_of_mem _ he)
    have he := hq e List.mem_cons_self
    intro i s pv hs
    cases e with
    | property isNode id key t =>
      by_cases hspace : t ≠ .INT → s.strResCtr ≠ Int32.maxValue
      · obtain ⟨s₁,ret,hret,hs₁,hg,hshows,hctr⟩ := applyPexpr_readable (c := pv i) hs he hspace
        have hctr' : s₁.strResCtr.toInt = s.strResCtr.toInt +
            if (QrVal.property isNode id key t).indexed = true then 1 else 0 := by
          rw [hctr]
          by_cases ht : t = .INT <;> simp [QrVal.indexed,ht]
        have hcount : s₁.strResCtr.toInt + q.countP QrVal.indexed = s.strResCtr.toInt +
            (QrVal.property isNode id key t :: q).countP QrVal.indexed := by
          rw [hctr',List.countP_cons]
          split_ifs <;> push_cast <;> omega
        have hstep : applyPexprs gdb i (.property isNode id key t :: q) s pv =
            applyPexprs gdb (i+1) q s₁ (Function.update pv i ret) := by
          rw [applyPexprs,hret]
        rw [hstep,← hcount]
        refine ⟨fun hle => ?_,(ih hq' hs₁).2⟩
        obtain ⟨s',pv',hrun,happ⟩ := (ih hq' hs₁).1 hle
        exact ⟨s',pv',hrun,happ.cons hg hshows hctr'⟩
      · obtain ⟨hint,hmax⟩ := Classical.not_imp.1 hspace
        rw [not_ne_iff] at hmax
        have hcount : (QrVal.property isNode id key t :: q).countP QrVal.indexed =
            q.countP QrVal.indexed + 1 := List.countP_cons_of_pos (by simp [QrVal.indexed,hint])
        refine ⟨fun hle => ?_,fun _ => by rw [applyPexprs,applyPexpr_undefined hs he hint hmax]⟩
        rw [hmax,hcount] at hle
        push_cast at hle
        omega
    | node | rship | int =>
      have hcount : ∀ e : QrVal, e.indexed = false →
          (e :: q).countP QrVal.indexed = q.countP QrVal.indexed :=
        fun e he => List.countP_cons_of_neg (by simp [he])
      rw [applyPexprs,hcount _ rfl]
      · refine ⟨fun hle => ?_,(ih hq' hs).2⟩
        obtain ⟨s',pv',hrun,happ⟩ := (ih hq' hs).1 hle
        exact ⟨s',pv',hrun,happ.skip (fun _ => trivial) rfl⟩
      · exact fun _ _ _ _ h => nomatch h
    | ptr => exact absurd he id

theorem matRegValue_eq (gdb : Descriptions) (h : s.delivered t ret = some y) :
    s.matRegValue gdb (.cell ret) (collectType t.regType) = some (s.push y) := by
  cases t <;> simp only [delivered,reduceCtorEq,Option.map_eq_some_iff,Option.some.injEq] at h
  case INT =>
    subst h
    have hcon : s.conMap gdb 2 (.cell ret) = some (s,toString ret.toInt) := rfl
    rw [show collectType FType.INT.regType = 2 from rfl,matRegValue,if_pos rfl,hcon,
      Option.bind_eq_bind,Option.bind_some,stoi_toString]
    rfl
  case STRING =>
    obtain ⟨text,htext,rfl⟩ := h
    have hat : s.strAt ret = (s,text) := by
      rw [strAt,htext,Option.getD_some,← htext,Function.update_eq_self]
    have hcon : s.conMap gdb 4 (.cell ret) = some (s.strAt ret) := rfl
    simp [matRegValue,collectType,FType.regType,FType.toNat,hcon,hat]
  case UINT64 =>
    obtain ⟨n,hn,rfl⟩ := h
    have hat : s.uintAt ret = (s,n) := by
      rw [uintAt,hn,Option.getD_some,← hn,Function.update_eq_self]
    rw [matRegValue_uint64,hat,hn]
    rfl
  all_goals
    obtain ⟨time,htime,rfl⟩ := h
    have hat : s.timeAt ret = (s,time) := by
      rw [timeAt,htime,Option.getD_some,← htime,Function.update_eq_self]
    simp [matRegValue,collectType,FType.regType,FType.toNat,hat]

theorem matEntry_shows (he : e.Readable gdb) (h : s.Shows gdb c e) :
    ∃ y, e.value gdb = some y ∧ s.matEntry gdb c e = some (s.push y) := by
  cases e with
  | node n => exact ⟨_,rfl,rfl⟩
  | rship r => exact ⟨_,rfl,rfl⟩
  | int d => exact ⟨_,rfl,matRegValue_eq gdb (t := .INT) rfl⟩
  | property isNode id key t =>
    obtain ⟨_,_,_,x,hx,_⟩ := he
    exact ⟨x,hx,matRegValue_eq gdb (h.1.trans hx)⟩
  | ptr => exact absurd he id

theorem ShowsRow.push (h : s.ShowsRow gdb pv i q) (y : Value) :
    (s.push y).ShowsRow gdb pv i q := by
  induction q generalizing i with
  | nil => trivial
  | cons e q ih =>
    refine ⟨?_,ih h.2⟩
    cases e with
    | property isNode id key t =>
      refine ⟨Eq.trans ?_ h.1.1,h.1.2⟩
      cases t <;> rfl
    | _ => trivial

theorem matEntries_shows (hq : ∀ e ∈ q, e.Readable gdb) : ∀ {i s}, s.ShowsRow gdb pv i q →
    ∃ ys : List Value, ys.map some = q.map (QrVal.value gdb) ∧
      matEntries gdb pv i q s = some { s with tp := s.tp ++ ys } := by
  induction q with
  | nil => exact fun _ => ⟨[],rfl,by simp [matEntries]⟩
  | cons e q ih =>
    intro i s h
    obtain ⟨y,hy,hmat⟩ := matEntry_shows (hq e List.mem_cons_self) h.1
    obtain ⟨ys,hys,hmats⟩ := ih (fun e he => hq e (List.mem_cons_of_mem _ he)) (h.2.push y)
    refine ⟨y :: ys,by rw [List.map_cons,List.map_cons,hy,hys],?_⟩
    rw [matEntries,hmat,Option.bind_some,hmats]
    simp [push]

structure Collected (gdb : Descriptions) (rows : List (List QrVal)) (s s' : ProjectionThread)
    (data : List (List Value)) : Prop where
  data : data.map (List.map some) = rows.map (List.map (QrVal.value gdb))
  faithful : s'.Faithful gdb
  tp : s'.tp = []
  counter : s'.strResCtr.toInt = s.strResCtr.toInt + rows.flatten.countP QrVal.indexed

theorem collectRows_readable {rows : List (List QrVal)}
    (hrows : ∀ q ∈ rows, ∀ e ∈ q, e.Readable gdb) :
    ∀ (s : ProjectionThread) (pv : ℕ → Int32), s.Faithful gdb → s.tp = [] →
    (s.strResCtr.toInt + rows.flatten.countP QrVal.indexed ≤ Int32.maxValue.toInt →
      ∃ s' data, collectRows gdb rows s pv = some (s',data) ∧ Collected gdb rows s s' data) ∧
    (Int32.maxValue.toInt < s.strResCtr.toInt + rows.flatten.countP QrVal.indexed →
      collectRows gdb rows s pv = none) := by
  induction rows with
  | nil =>
    intro s pv hs htp
    refine ⟨fun _ => ⟨s,[],rfl,rfl,hs,htp,by simp⟩,fun h => ?_⟩
    have hle := s.strResCtr.toInt_lt
    have hmax : Int32.maxValue.toInt = 2^31-1 := by decide
    rw [List.flatten_nil,List.countP_nil] at h
    omega
  | cons q rows ih =>
    intro s pv hs htp
    have hq : ∀ e ∈ q, e.Readable gdb := hrows q List.mem_cons_self
    have hcount : (q :: rows).flatten.countP QrVal.indexed =
        q.countP QrVal.indexed + rows.flatten.countP QrVal.indexed := by
      rw [List.flatten_cons,List.countP_append]
    rw [hcount]
    push_cast
    by_cases hspace : s.strResCtr.toInt + q.countP QrVal.indexed ≤ Int32.maxValue.toInt
    · obtain ⟨s₁,pv₁,hrun,happ⟩ : ∃ s₁ pv₁, applyPexprs gdb 1 q s pv = some (s₁,pv₁) ∧
          Applied gdb 1 q s pv s₁ pv₁ := (applyPexprs_readable hq hs).1 hspace
      obtain ⟨ys,hys,hmat⟩ := matEntries_shows hq happ.shows
      rw [happ.grows.tp,htp,List.nil_append] at hmat
      have hstep : collectRows gdb (q :: rows) s pv =
          (collectRows gdb rows { s₁ with tp := [] } pv₁).map fun x => (x.1,ys :: x.2) := by
        simp only [collectRows,hrun,hmat,Option.bind_eq_bind,Option.bind_some]
        cases collectRows gdb rows { s₁ with tp := [] } pv₁ <;> rfl
      obtain ⟨hfits,hfull⟩ := ih (fun q hq => hrows q (List.mem_cons_of_mem _ hq))
        { s₁ with tp := [] } pv₁ happ.faithful rfl
      rw [happ.counter] at hfits hfull
      rw [hstep]
      refine ⟨fun hle => ?_,fun hlt => by rw [hfull (by omega)]; rfl⟩
      obtain ⟨s',data,hrest,hdata,hfaithful,htp',hctr⟩ := hfits (by omega)
      refine ⟨s',ys :: data,by rw [hrest]; rfl,?_,hfaithful,htp',?_⟩
      · rw [List.map_cons,List.map_cons,hys,hdata]
      · rw [hctr,happ.counter,hcount]
        push_cast
        omega
    · have hnone : applyPexprs gdb 1 q s pv = none := (applyPexprs_readable hq hs).2 (by omega)
      refine ⟨fun hle => absurd hle (by omega),fun _ => ?_⟩
      simp only [collectRows,hnone,Option.bind_eq_bind,Option.bind_none]

end ProjectionThread

open ProjectionThread in
/-- A thread gets through the rows exactly if its counter does not pass its end, and then every
row is in the result set, in order and with the properties of the graph. -/
theorem collectRows_values (gdb : Descriptions) (rows : List (List QrVal))
    (hrows : ∀ q ∈ rows, ∀ e ∈ q, e.Readable gdb) (s : ProjectionThread) (pv : ℕ → Int32)
    (hs : s.Faithful gdb) (htp : s.tp = []) :
    ((collectRows gdb rows s pv).isSome = true ↔
      s.strResCtr.toInt + rows.flatten.countP QrVal.indexed ≤ Int32.maxValue.toInt) ∧
    ∀ s' data, collectRows gdb rows s pv = some (s',data) →
      data.map (List.map some) = rows.map (List.map (QrVal.value gdb)) ∧ s'.Faithful gdb ∧
        s'.strResCtr.toInt = s.strResCtr.toInt + rows.flatten.countP QrVal.indexed := by
  obtain ⟨hfits,hfull⟩ := collectRows_readable hrows s pv hs htp
  by_cases hspace : s.strResCtr.toInt + rows.flatten.countP QrVal.indexed ≤ Int32.maxValue.toInt
  · obtain ⟨s',data,hrun,hcoll⟩ := hfits hspace
    rw [hrun]
    refine ⟨iff_of_true rfl hspace,fun s₁ data₁ h => ?_⟩
    obtain ⟨rfl,rfl⟩ := Prod.mk.inj (Option.some.inj h)
    exact ⟨hcoll.data,hcoll.faithful,hcoll.counter⟩
  · rw [hfull (by omega)]
    exact ⟨iff_of_false (by simp) hspace,fun _ _ h => nomatch h⟩

def namedGraph : Descriptions :=
  let d : Description := ⟨fun key => if key = "name" then some (.str "Ann")
    else if key = "age" then some (.int 41) else none,""⟩
  ⟨fun _ => d,fun _ => d⟩

def namedRows : List (List QrVal) :=
  [[.property true 0 "name" .STRING,.property false 2 "age" .INT,.int 1],
    [.property true 0 "age" .INT,.property true 1 "name" .STRING,.int 0]]

open ProjectionThread in
theorem collectRows_values_named : ∃ s', s'.strResCtr.toInt = 2 ∧
    collectRows namedGraph namedRows .init (fun _ => 0) =
      some (s',[[.str "Ann",.int 41,.int 1],[.int 41,.str "Ann",.int 0]]) := by
  have hread : ∀ q ∈ namedRows, ∀ e ∈ q, e.Readable namedGraph := by
    simp [namedRows,QrVal.Readable,Descriptions.of,namedGraph,Value.hasType]
  have hempty : init.Faithful namedGraph := by
    intro isNode id d _ hd
    cases isNode <;> simp [cached,init] at hd
  obtain ⟨hsome,hdata⟩ :=
    collectRows_values namedGraph namedRows hread .init (fun _ => 0) hempty rfl
  obtain ⟨⟨s',data⟩,hrun⟩ := Option.isSome_iff_exists.1 (hsome.2 (by decide))
  obtain ⟨hvalues,_,hctr⟩ := hdata s' data hrun
  have hinj : Function.Injective (List.map (List.map (some : Value → Option Value))) :=
    List.map_injective_iff.2 (List.map_injective_iff.2 (Option.some_injective Value))
  obtain rfl : data = [[.str "Ann",.int 41,.int 1],[.int 41,.str "Ann",.int 0]] := by
    apply hinj
    rw [hvalues]
    decide
  exact ⟨s',hctr.trans (by decide),hrun⟩

end GraphQueryCompiler
