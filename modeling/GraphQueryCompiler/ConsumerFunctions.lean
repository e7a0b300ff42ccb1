import GraphQueryCompiler.FepTruth
import GraphQueryCompiler.Lib.CallStack
import GraphQueryCompiler.RshipLoops

/-!
# Consumer functions

`codegen_visitor` compiles every operator behind a scan to a function of its own. The functions of a
query are in the call map in the order of their operators, and each calls the next one for every
tuple that it makes, with the array that all of them write their results to.
-/

namespace GraphQueryCompiler
open StepMachine LinkedChain CallStack
open CodegenInlineVisitor (expId rshipIdx)

namespace CodegenVisitor

inductive ConsumerFct
  | foreachRship (dir : RshipDir) (label : String)
  | expand (exp : ExpandDir) (label : String)
  | filter (code : FepCode)
  | collect

inductive ExpandBlock
  | entry | checkLabel | consume | null
  deriving DecidableEq, Repr

/-- A running function: its arguments, its allocas and where it is. `ret` is in front of the return
behind a call. -/
inductive ConsumerFrame
  | foreachRship (dir : RshipDir) (label : String) (a : ConsumerArgs) (b : ForeachRshipBlock)
      (lhsAlloca rhsAlloca rshipItAlloca : Val)
  | expand (exp : ExpandDir) (label : String) (a : ConsumerArgs) (b : ExpandBlock) (node : Val)
  | filterEntry (code : FepCode) (a : ConsumerArgs)
  | filter (code : FepCode) (a : ConsumerArgs) (pres : Val) (c : FepConfig)
  | collect (a : ConsumerArgs)
  | ret

def ConsumerFct.frame : ConsumerFct → ConsumerArgs → ConsumerFrame
  | .foreachRship dir label, a => .foreachRship dir label a .entry .undef .undef .undef
  | .expand exp label, a => .expand exp label a .entry .undef
  | .filter code, a => .filterEntry code a
  | .collect, a => .collect a

structure ConsumerMemory where
  qrl : QrTupleList
  collected : List (QrTupleList × ℕ)

abbrev ConsumerAction := Action ConsumerFrame ConsumerMemory

def resArrSize : ℕ := 64

def callMapSize : ℕ := 32

def callConsumer (callMap : List ConsumerFct) (fct : ℕ) (args : ConsumerArgs)
    (caller : ConsumerFrame) (m : ConsumerMemory) : Option ConsumerAction :=
  if fct < callMapSize then (callMap[fct]?).map fun f => .call (f.frame args) caller m else none

def foreachRshipAct (db : GraphDb) (callMap : List ConsumerFct) (dir : RshipDir) (label : String)
    (a : ConsumerArgs) (b : ForeachRshipBlock) (lhsAlloca rhsAlloca rshipItAlloca : Val)
    (m : ConsumerMemory) : Option ConsumerAction :=
  let frame (b : ForeachRshipBlock) (s : ForeachRshipState) : ConsumerFrame :=
    .foreachRship dir label a b s.lhsAlloca s.rhsAlloca s.rshipItAlloca
  match foreachRshipStep db dir label a (.at b ⟨lhsAlloca,rhsAlloca,rshipItAlloca,m.qrl⟩) with
  | some (.at b s) => some (.next (frame b s) { m with qrl := s.qrl })
  | some (.call fct args s) =>
    if args.prevSize+args.offset < resArrSize then
      callConsumer callMap fct args (frame .nextRship s) { m with qrl := s.qrl }
    else none
  | some (.returned s) => some (.ret { m with qrl := s.qrl })
  | none => none

def expandAct (db : GraphDb) (callMap : List ConsumerFct) (exp : ExpandDir) (label : String)
    (a : ConsumerArgs) (b : ExpandBlock) (node : Val) (m : ConsumerMemory) :
    Option ConsumerAction :=
  match b with
  | .entry =>
    match loadField db (a.pres m.qrl) (expId exp) with
    | .word id =>
      let node : Val := .node id
      match node.isNull with
      | .bool true => some (.next (.expand exp label a .null node) m)
      | .bool false =>
        some (.next (.expand exp label a (if label = "" then .consume else .checkLabel) node) m)
      | _ => none
    | _ => none
  | .checkLabel =>
    match (loadField db node 5).icmpEQ (.word (db.getCode label)) with
    | .bool true => some (.next (.expand exp label a .consume node) m)
    | .bool false => some (.next (.expand exp label a .null node) m)
    | _ => none
  | .consume =>
    let insertPos := a.prevSize+a.offset+1
    if insertPos < resArrSize then
      callConsumer callMap a.oid ⟨a.oid+1,a.prevSize+1,a.offset⟩ .ret { m with
        qrl := ⟨m.qrl.size+1,Function.update m.qrl.entry insertPos node⟩ }
    else none
  | .null => some (.ret m)

/-- `visit(filter_op)`. The visitor's blocks for the end of the filter are `consume` and `false`. -/
def filterAct (env : Env) (callMap : List ConsumerFct) (code : FepCode) (a : ConsumerArgs)
    (pres : Val) (c : FepConfig) (m : ConsumerMemory) : Option ConsumerAction :=
  match c with
  | .enter .filterConsume _ => callConsumer callMap a.oid ⟨a.oid+1,a.prevSize,a.offset⟩ .ret m
  | .enter .filterFalse _ => some (.ret m)
  | c => (fepStep env pres code.body c).map fun c => .next (.filter code a pres c) m

def consumerAct (env : Env) (callMap : List ConsumerFct) (f : ConsumerFrame)
    (m : ConsumerMemory) : Option ConsumerAction :=
  match f with
  | .foreachRship dir label a b lhsAlloca rhsAlloca rshipItAlloca =>
    foreachRshipAct env.db callMap dir label a b lhsAlloca rhsAlloca rshipItAlloca m
  | .expand exp label a b node => expandAct env.db callMap exp label a b node m
  | .filterEntry code a =>
    let cells (_ : FepCell) : Val := .undef
    some (.next (.filter code a (a.pres m.qrl) (.enter .filterEntry cells)) m)
  | .filter code a pres c => filterAct env callMap code a pres c m
  | .collect a => some (.ret { m with collected := m.collected ++ [(m.qrl,a.prevSize)] })
  | .ret => some (.ret m)

end CodegenVisitor

open CodegenVisitor

def Plan.consumerFcts (db : GraphDb) : Plan → Option (List ConsumerFct)
  | .foreachRship dir hops label inp =>
    if hops.2 = 0 then do return .foreachRship dir label :: (← inp.consumerFcts db) else none
  | .expand exp label inp => do return .expand exp label :: (← inp.consumerFcts db)
  | .filter fexpr inp => do return .filter (← fexpr.fepCode db) :: (← inp.consumerFcts db)
  | .collect _ => some [.collect]
  | _ => none

def QrVal.object : QrVal → Val
  | .node n => .node n
  | .int _ | .property .. | .ptr _ => .undef
  | .rship r => .rship r

/-- The tuples that the operators make of one. A traversal ends at the first large id. -/
def Plan.consumerRows (db : GraphDb) : Plan → List QrVal → List (List QrVal)
  | .foreachRship dir _ label inp, t =>
    match t.getLast? with
    | some (.node n) =>
      ((db.rships dir n).takeWhile fun r => decide (r < CodegenVisitor.unknownRelId)).flatMap
        fun r => if (db.rshipById r).rshipLabel = db.getCode label then
          inp.consumerRows db (t ++ [.rship r]) else []
    | _ => []
  | .expand exp label inp, t =>
    match t.getLast? with
    | some (.rship r) =>
      let n := (db.rshipById r).endpoint exp
      if label ≠ "" → (db.nodeById n).nodeLabel = db.getCode label then
        inp.consumerRows db (t ++ [.node n]) else []
    | _ => []
  | .filter fexpr inp, t =>
    match t.getLast? with
    | some (.node n) => if fexpr.fepPasses db n then inp.consumerRows db t else []
    | _ => []
  | .collect _, t => [t]
  | _, _ => []

/-- The plans behind an access path that are compiled to consumer functions of tuples whose last
entry is a node (`true`) or a relationship. -/
inductive Plan.Consumes : Bool → Plan → Prop
  | foreachRship {dir : RshipDir} {hops : ℤ × ℤ} {label : String} {inp : Plan} : hops.2 = 0 →
      Consumes false inp → Consumes true (.foreachRship dir hops label inp)
  | expand {exp : ExpandDir} {label : String} {inp : Plan} : Consumes true inp →
      Consumes false (.expand exp label inp)
  | filter {fexpr : FilterExpr} {inp : Plan} : fexpr.Compares → Consumes true inp →
      Consumes true (.filter fexpr inp)
  | collect {node print : Bool} : Consumes node (.collect print)

def Plan.consumerEntries : Plan → ℕ
  | .foreachRship _ _ _ inp => inp.consumerEntries+1
  | .expand _ _ inp => inp.consumerEntries+1
  | .filter _ inp => inp.consumerEntries
  | _ => 0

def EndsWith : Bool → List QrVal → Prop
  | true, t => ∃ n, t.getLast? = some (.node n)
  | false, t => ∃ r, t.getLast? = some (.rship r)

namespace CodegenVisitor

def QrTupleList.Has (qrl : QrTupleList) (offset : ℕ) (t : List QrVal) : Prop :=
  ∀ j x, t[j]? = some x → qrl.entry (j+1+offset) = x.object

def Gathers (offset : ℕ) (rows : List (List QrVal)) (m m' : ConsumerMemory) : Prop :=
  ∃ calls, m'.collected = m.collected ++ calls ∧
    List.Forall₂ (fun call row => call.2 = row.length ∧ call.1.Has offset row) calls rows

/-- The functions have collected these rows, and the tuple that they were called with is still
there. -/
structure Delivers (offset len : ℕ) (rows : List (List QrVal)) (m m' : ConsumerMemory) : Prop where
  collected : Gathers offset rows m m'
  keeps : ∀ j ≤ len+offset, m'.qrl.entry j = m.qrl.entry j

variable {env : Env} {callMap : List ConsumerFct} {offset len len' j : ℕ} {t : List QrVal}
  {rows rows' : List (List QrVal)} {m m₁ m₂ : ConsumerMemory} {x : QrVal} {qrl : QrTupleList}

theorem Gathers.refl : Gathers offset [] m m := ⟨[],(List.append_nil _).symm,.nil⟩

theorem Gathers.trans (h : Gathers offset rows m m₁) (h' : Gathers offset rows' m₁ m₂) :
    Gathers offset (rows ++ rows') m m₂ := by
  obtain ⟨calls,hcalls,hrows⟩ := h
  obtain ⟨calls',hcalls',hrows'⟩ := h'
  refine ⟨calls ++ calls',?_,List.rel_append hrows hrows'⟩
  rw [hcalls',hcalls,List.append_assoc]

theorem Delivers.refl : Delivers offset len [] m m := ⟨.refl,fun _ _ => rfl⟩

theorem Delivers.trans (h : Delivers offset len rows m m₁) (h' : Delivers offset len rows' m₁ m₂) :
    Delivers offset len (rows ++ rows') m m₂ := by
  refine ⟨h.collected.trans h'.collected,fun j hj => ?_⟩
  rw [h'.keeps j hj,h.keeps j hj]

theorem Delivers.pushed {v : Val} (h : Delivers offset (len+1) rows
    { m with qrl := ⟨m.qrl.size+1,Function.update m.qrl.entry (len+offset+1) v⟩ } m₁) :
    Delivers offset len rows m m₁ := by
  refine ⟨h.collected,fun j hj => ?_⟩
  rw [h.keeps j (by omega)]
  exact Function.update_of_ne (by omega) ..

theorem QrTupleList.Has.keeps (h : m.qrl.Has offset t) (hd : Delivers offset t.length rows m m₁) :
    m₁.qrl.Has offset t := by
  intro j x hx
  have hlt := (List.getElem?_eq_some_iff.1 hx).1
  rw [hd.keeps _ (by omega),h j x hx]

theorem QrTupleList.Has.pushed {size : ℕ} (h : qrl.Has offset t) :
    QrTupleList.Has ⟨size,Function.update qrl.entry (t.length+offset+1) x.object⟩ offset
      (t ++ [x]) := by
  intro j y hy
  by_cases hj : j < t.length
  · rw [List.getElem?_append_left hj] at hy
    exact (Function.update_of_ne (by omega) ..).trans (h j y hy)
  · have hlt := (List.getElem?_eq_some_iff.1 hy).1
    rw [List.length_append,List.length_singleton] at hlt
    obtain rfl : j = t.length := by omega
    obtain rfl : x = y := by simpa using hy
    rw [show t.length+1+offset = t.length+offset+1 by omega]
    exact Function.update_self ..

theorem QrTupleList.Has.pres (h : qrl.Has offset t) (hlast : t.getLast? = some x) (oid : ℕ) :
    ConsumerArgs.pres ⟨oid,t.length,offset⟩ qrl = x.object := by
  rw [List.getLast?_eq_getElem?] at hlast
  have hlt := (List.getElem?_eq_some_iff.1 hlast).1
  rw [ConsumerArgs.pres,← h _ x hlast]
  exact congrArg qrl.entry (by simp only; omega)

def Serves (env : Env) (callMap : List ConsumerFct) (offset j : ℕ) (t : List QrVal)
    (rows : List (List QrVal)) : Prop :=
  ∃ f, j < callMapSize ∧ callMap[j]? = some f ∧ ∀ m : ConsumerMemory, m.qrl.Has offset t → ∃ m',
    CallReturns (consumerAct env callMap) (f.frame ⟨j+1,t.length,offset⟩) m m' ∧
      Delivers offset t.length rows m m'

def ConsumerMemory.push (m : ConsumerMemory) (pos : ℕ) (v : Val) : ConsumerMemory :=
  { m with qrl := ⟨m.qrl.size+1,Function.update m.qrl.entry pos v⟩ }

theorem Serves.call_pushed {f caller : ConsumerFrame}
    (h : Serves env callMap offset (j+1) (t ++ [x]) rows) (hm : m.qrl.Has offset t)
    (hact : consumerAct env callMap f m = callConsumer callMap (j+1) ⟨j+1+1,t.length+1,offset⟩
      caller (m.push (t.length+offset+1) x.object))
    (hcaller : ∀ m₁ : ConsumerMemory, m₁.qrl.Has offset t → ∃ m',
      CallReturns (consumerAct env callMap) caller m₁ m' ∧ Delivers offset t.length rows' m₁ m') :
    ∃ m', CallReturns (consumerAct env callMap) f m m' ∧
      Delivers offset t.length (rows ++ rows') m m' := by
  obtain ⟨g,hlt,hg,hrun⟩ := h
  obtain ⟨m₁,hcall,hdelivers⟩ := hrun (m.push (t.length+offset+1) x.object) hm.pushed
  rw [List.length_append,List.length_singleton] at hcall hdelivers
  obtain ⟨m₂,hback,hrest⟩ := hcaller m₁ (hm.keeps hdelivers.pushed)
  rw [callConsumer,if_pos hlt,hg] at hact
  exact ⟨m₂,.call hact hcall hback,hdelivers.pushed.trans hrest⟩

section ForeachRship
variable {dir : RshipDir} {label : String} {i : ℕ} {l : List ℕ}
  {next : List QrVal → List (List QrVal)}

def passedRows (db : GraphDb) (label : String) (next : List QrVal → List (List QrVal))
    (t : List QrVal) (r : ℕ) : List (List QrVal) :=
  if (db.rshipById r).rshipLabel = db.getCode label then next (t ++ [.rship r]) else []

theorem foreachRship_stop {it : Val} (hi : decide (i < unknownRelId) = false) :
    CallReturns (consumerAct env callMap) (.foreachRship dir label ⟨j+1,t.length,offset⟩
      .whileCondition (.word i) (.word unknownRelId) it) m m := by
  have hcond : consumerAct env callMap (.foreachRship dir label ⟨j+1,t.length,offset⟩
      .whileCondition (.word i) (.word unknownRelId) it) m =
      some (.next (.foreachRship dir label ⟨j+1,t.length,offset⟩ .foreachRshipEnd (.word i)
        (.word unknownRelId) it) m) := by
    simp only [consumerAct,foreachRshipAct,foreachRshipStep,Val.icmpULT,hi]
  refine .next hcond (.ret ?_)
  simp only [consumerAct,foreachRshipAct,foreachRshipStep]

theorem foreachRship_loop (label : String) (hroom : t.length+1+offset < resArrSize)
    (hnext : ∀ r, Serves env callMap offset (j+1) (t ++ [.rship r]) (next (t ++ [.rship r])))
    (hchain : IsChain (fun r => (env.db.rshipById r).nextRship dir) unknownId IsId i l) :
    ∀ (it : Val) (m : ConsumerMemory), m.qrl.Has offset t → ∃ m',
      CallReturns (consumerAct env callMap) (.foreachRship dir label ⟨j+1,t.length,offset⟩
        .whileCondition (.word i) (.word unknownRelId) it) m m' ∧
      Delivers offset t.length ((l.takeWhile fun r => decide (r < unknownRelId)).flatMap
        (passedRows env.db label next t)) m m' := by
  induction hchain with
  | nil => exact fun it m _ => ⟨m,foreachRship_stop (by decide),.refl⟩
  | @cons i l _ _ ih =>
    intro it m hm
    cases hi : decide (i < unknownRelId) with
    | false =>
      rw [List.takeWhile_cons_of_neg (by simp [hi])]
      exact ⟨m,foreachRship_stop hi,.refl⟩
    | true =>
      rw [List.takeWhile_cons_of_pos (by simpa using hi),List.flatMap_cons]
      let frame (b : ForeachRshipBlock) (it : Val) : ConsumerFrame :=
        .foreachRship dir label ⟨j+1,t.length,offset⟩ b (.word i) (.word unknownRelId) it
      have hcond : consumerAct env callMap (frame .whileCondition it) m =
          some (.next (frame .whileBody it) m) := by
        simp only [frame,consumerAct,foreachRshipAct,foreachRshipStep,Val.icmpULT,hi]
      have hback : ∀ m₁ : ConsumerMemory, m₁.qrl.Has offset t → ∃ m',
          CallReturns (consumerAct env callMap) (frame .nextRship (.rship i)) m₁ m' ∧
          Delivers offset t.length ((l.takeWhile fun r => decide (r < unknownRelId)).flatMap
            (passedRows env.db label next t)) m₁ m' := by
        intro m₁ hm₁
        obtain ⟨m',hrun,hdelivers⟩ := ih (.rship i) m₁ hm₁
        refine ⟨m',.next ?_ hrun,hdelivers⟩
        have hload : loadField env.db (.rship i) (rshipIdx dir).2 = _ :=
          loadField_nextRship env.db i
        simp only [frame,consumerAct,foreachRshipAct,foreachRshipStep,hload]
      by_cases hcode : (env.db.rshipById i).rshipLabel = env.db.getCode label
      · have hbody : consumerAct env callMap (frame .whileBody it) m =
            some (.next (frame .consumeRship (.rship i)) m) := by
          simp [frame,consumerAct,foreachRshipAct,foreachRshipStep,loadField,Val.icmpEQ,hcode]
        have hconsume : consumerAct env callMap (frame .consumeRship (.rship i)) m =
            callConsumer callMap (j+1) ⟨j+1+1,t.length+1,offset⟩ (frame .nextRship (.rship i))
              (m.push (t.length+offset+1) (.rship i)) := by
          simp only [frame,consumerAct,foreachRshipAct,foreachRshipStep,if_pos hroom]
          rfl
        rw [passedRows,if_pos hcode]
        obtain ⟨m',hrun,hdelivers⟩ := (hnext i).call_pushed hm hconsume hback
        exact ⟨m',.next hcond (.next hbody hrun),hdelivers⟩
      · have hbody : consumerAct env callMap (frame .whileBody it) m =
            some (.next (frame .nextRship (.rship i)) m) := by
          simp [frame,consumerAct,foreachRshipAct,foreachRshipStep,loadField,Val.icmpEQ,hcode]
        rw [passedRows,if_neg hcode,List.nil_append]
        obtain ⟨m',hrun,hdelivers⟩ := hback m hm
        exact ⟨m',.next hcond (.next hbody hrun),hdelivers⟩

theorem serves_foreachRship {n : ℕ} (next : List QrVal → List (List QrVal)) (hlt : j < callMapSize)
    (hj : callMap[j]? = some (.foreachRship dir label))
    (hlast : t.getLast? = some (.node n)) (hroom : t.length+1+offset < resArrSize)
    (hnext : ∀ r, Serves env callMap offset (j+1) (t ++ [.rship r]) (next (t ++ [.rship r]))) :
    Serves env callMap offset j t
      (((env.db.rships dir n).takeWhile fun r => decide (r < unknownRelId)).flatMap
        (passedRows env.db label next t)) := by
  refine ⟨_,hlt,hj,fun m hm => ?_⟩
  obtain ⟨m',hrun,hdelivers⟩ := foreachRship_loop label hroom hnext
    (env.db.rships_chain dir n) .undef m hm
  refine ⟨m',.next ?_ hrun,hdelivers⟩
  have hpres : ConsumerArgs.pres ⟨j+1,t.length,offset⟩ m.qrl = .node n := hm.pres hlast (j+1)
  have hload : loadField env.db (.node n) (rshipIdx dir).1 = _ := loadField_rshipIdx env.db n
  simp only [ConsumerFct.frame,consumerAct,foreachRshipAct,foreachRshipStep,hpres,hload]

end ForeachRship

section Expand
variable {exp : ExpandDir} {label : String} {r : ℕ}

theorem serves_expand (next : List QrVal → List (List QrVal)) (hlt : j < callMapSize)
    (hj : callMap[j]? = some (.expand exp label)) (hlast : t.getLast? = some (.rship r))
    (hroom : t.length+1+offset < resArrSize)
    (hnext : ∀ n, Serves env callMap offset (j+1) (t ++ [.node n]) (next (t ++ [.node n]))) :
    Serves env callMap offset j t
      (if label ≠ "" → (env.db.nodeById ((env.db.rshipById r).endpoint exp)).nodeLabel =
          env.db.getCode label then next (t ++ [.node ((env.db.rshipById r).endpoint exp)])
        else []) := by
  refine ⟨_,hlt,hj,fun m hm => ?_⟩
  let n := (env.db.rshipById r).endpoint exp
  let frame (b : ExpandBlock) (node : Val) : ConsumerFrame :=
    .expand exp label ⟨j+1,t.length,offset⟩ b node
  have hentry : consumerAct env callMap (frame .entry .undef) m = some (.next
      (frame (if label = "" then .consume else .checkLabel) (.node n)) m) := by
    have hpres : ConsumerArgs.pres ⟨j+1,t.length,offset⟩ m.qrl = .rship r := hm.pres hlast (j+1)
    simp only [frame,n,consumerAct,expandAct,hpres,loadField_expId,Val.isNull]
  have hconsume : ∃ m', CallReturns (consumerAct env callMap) (frame .consume (.node n)) m m' ∧
      Delivers offset t.length (next (t ++ [.node n]) ++ []) m m' := by
    have hpos : t.length+offset+1 < resArrSize := by omega
    have hact : consumerAct env callMap (frame .consume (.node n)) m =
        callConsumer callMap (j+1) ⟨j+1+1,t.length+1,offset⟩ .ret
          (m.push (t.length+offset+1) (.node n)) := by
      simp only [frame,consumerAct,expandAct,if_pos hpos]
      rfl
    exact (hnext n).call_pushed hm hact fun m₁ _ => ⟨m₁,.ret rfl,.refl⟩
  rw [List.append_nil] at hconsume
  by_cases hlabel : label = ""
  · rw [if_pos fun hne => absurd hlabel hne]
    rw [if_pos hlabel] at hentry
    obtain ⟨m',hrun,hdelivers⟩ := hconsume
    exact ⟨m',.next hentry hrun,hdelivers⟩
  · rw [if_neg hlabel] at hentry
    by_cases hcode : (env.db.nodeById n).nodeLabel = env.db.getCode label
    · have hcheck : consumerAct env callMap (frame .checkLabel (.node n)) m =
          some (.next (frame .consume (.node n)) m) := by
        simp [frame,consumerAct,expandAct,loadField,Val.icmpEQ,hcode]
      rw [if_pos fun _ => hcode]
      obtain ⟨m',hrun,hdelivers⟩ := hconsume
      exact ⟨m',.next hentry (.next hcheck hrun),hdelivers⟩
    · have hcheck : consumerAct env callMap (frame .checkLabel (.node n)) m =
          some (.next (frame .null (.node n)) m) := by
        simp [frame,consumerAct,expandAct,loadField,Val.icmpEQ,hcode]
      rw [if_neg fun h => hcode (h hlabel)]
      exact ⟨m,.next hentry (.next hcheck (.ret rfl)),.refl⟩

end Expand

section Filter
variable {code : FepCode} {n : ℕ} {x : Bool} {c c' : FepConfig} {a : ConsumerArgs}

def FilterEnd : FepConfig → Prop
  | .enter .filterConsume _ => True
  | .enter .filterFalse _ => True
  | _ => False

theorem filter_within {roi : Val} (hconsume : code.body .filterConsume = [])
    (hfalse : code.body .filterFalse = []) (hend : FilterEnd c')
    (h : Reaches (fepStep env roi code.body) c c') (m : ConsumerMemory) :
    Within (consumerAct env callMap) (.filter code a roi c) m (.filter code a roi c') m := by
  induction h using Relation.ReflTransGen.head_induction_on with
  | refl => exact .refl
  | @head c c₁ hstep hreach ih =>
    have hact : filterAct env callMap code a roi c m =
        some (.next (.filter code a roi c₁) m) → Within (consumerAct env callMap)
          (.filter code a roi c) m (.filter code a roi c') m := fun h => (Within.single h).trans ih
    -- behind the end there is no more code
    have hstop : ∀ {blk : BlockName} {σ : FepCell → Val}, code.body blk = [] →
        c = .enter blk σ → False := by
      rintro blk σ hbody rfl
      obtain rfl : FepConfig.run (code.body blk) σ = c₁ := Option.some.inj hstep
      rw [hbody] at hreach
      rcases hreach.cases_head with rfl | ⟨d,hd,-⟩
      · exact hend
      · cases hd
    refine hact ?_
    unfold filterAct
    split
    · exact (hstop hconsume rfl).elim
    · exact (hstop hfalse rfl).elim
    · rw [show fepStep env roi code.body _ = some c₁ from hstep]
      rfl

theorem serves_filter (hlt : j < callMapSize) (hj : callMap[j]? = some (.filter code))
    (hlast : t.getLast? = some (.node n)) (hconsume : code.body .filterConsume = [])
    (hfalse : code.body .filterFalse = []) (hbranches : FepBranches env n code x)
    (hnext : Serves env callMap offset (j+1) t rows) :
    Serves env callMap offset j t (if x then rows else []) := by
  refine ⟨_,hlt,hj,fun m hm => ?_⟩
  obtain ⟨σ,hrun⟩ := hbranches fun _ => .undef
  have hpres : ConsumerArgs.pres ⟨j+1,t.length,offset⟩ m.qrl = .node n := hm.pres hlast (j+1)
  have hentry : consumerAct env callMap (.filterEntry code ⟨j+1,t.length,offset⟩) m =
      some (.next (.filter code ⟨j+1,t.length,offset⟩ (.node n)
        (.enter .filterEntry fun _ => .undef)) m) := by
    simp only [consumerAct,hpres]
  have hwithin : Within (consumerAct env callMap) (.filterEntry code ⟨j+1,t.length,offset⟩) m _ m :=
    (Within.single hentry).trans (filter_within hconsume hfalse (by cases x <;> trivial) hrun m)
  obtain ⟨g,hlt',hg,hcall⟩ := hnext
  cases x with
  | true =>
    obtain ⟨m₁,hreturns,hdelivers⟩ := hcall m hm
    have hact : consumerAct env callMap (.filter code ⟨j+1,t.length,offset⟩ (.node n)
        (.enter .filterConsume σ)) m =
        some (.call (g.frame ⟨j+1+1,t.length,offset⟩) .ret m) := by
      simp only [consumerAct,filterAct,callConsumer,if_pos hlt',hg]
      rfl
    exact ⟨m₁,.of_within hwithin (.call hact hreturns (.ret rfl)),hdelivers⟩
  | false => exact ⟨m,.of_within hwithin (.ret rfl),.refl⟩

end Filter

theorem serves_collect (hlt : j < callMapSize) (hj : callMap[j]? = some .collect) :
    Serves env callMap offset j t [t] := by
  refine ⟨_,hlt,hj,fun m hm => ⟨_,.ret rfl,⟨[(m.qrl,t.length)],rfl,.cons ⟨rfl,hm⟩ .nil⟩,?_⟩⟩
  exact fun _ _ => rfl

end CodegenVisitor

section Plan
variable {p : Plan} {node : Bool} {env : Env} {callMap fs : List ConsumerFct} {offset n : ℕ}
  {f : ConsumerFct}

theorem Plan.Consumes.compiles (h : p.Consumes node) (db : GraphDb) :
    ∃ f fs, p.consumerFcts db = some (f :: fs) := by
  induction h with
  | @foreachRship dir hops label inp hhops _ ih =>
    obtain ⟨f,fs,hfs⟩ := ih
    exact ⟨.foreachRship dir label,f :: fs,by simp [consumerFcts,hhops,hfs]⟩
  | @expand exp label inp _ ih =>
    obtain ⟨f,fs,hfs⟩ := ih
    exact ⟨.expand exp label,f :: fs,by simp [consumerFcts,hfs]⟩
  | @filter fexpr inp he _ ih =>
    obtain ⟨f,fs,hfs⟩ := ih
    obtain ⟨code,hcode,-⟩ := he.fepBranches { pairEnv fun _ => "Person" with db := db } 0
    exact ⟨.filter code,f :: fs,by simp [consumerFcts,hcode,hfs]⟩
  | collect => exact ⟨.collect,[],rfl⟩

theorem callMap_drop {j : ℕ} (h : callMap.drop j = f :: fs) :
    callMap[j]? = some f ∧ callMap.drop (j+1) = fs := by
  constructor
  · rw [← List.head?_drop,h]
    rfl
  · rw [← List.tail_drop,h]
    rfl

theorem callMap_lt {j : ℕ} (hsize : callMap.length ≤ callMapSize)
    (hj : callMap[j]? = some f) : j < callMapSize :=
  (List.getElem?_eq_some_iff.1 hj).1.trans_le hsize

/-- From any index of the call map on, the functions make the rows of the plan behind it. -/
theorem Plan.Consumes.serves (hp : p.Consumes node) (hsize : callMap.length ≤ callMapSize) :
    ∀ {fs : List ConsumerFct} {j : ℕ} {t : List QrVal}, p.consumerFcts env.db = some fs →
      callMap.drop j = fs → EndsWith node t → t.length+p.consumerEntries+offset < resArrSize →
      Serves env callMap offset j t (p.consumerRows env.db t) := by
  induction hp with
  | @foreachRship dir hops label inp hhops _ ih =>
    intro fs j t hfs hj ht hroom
    obtain ⟨n,hn⟩ := ht
    simp only [consumerFcts,if_pos hhops,Option.bind_eq_bind,Option.bind_eq_some_iff] at hfs
    obtain ⟨fs',hinp,hfs⟩ := hfs
    obtain rfl := Option.some.inj hfs
    obtain ⟨hget,hdrop⟩ := callMap_drop hj
    simp only [consumerRows,hn]
    simp only [consumerEntries] at hroom
    refine serves_foreachRship (inp.consumerRows env.db) (callMap_lt hsize hget) hget hn
      (by omega) fun r => ih hinp hdrop ⟨r,List.getLast?_concat⟩ ?_
    rw [List.length_append,List.length_singleton]
    omega
  | @expand exp label inp _ ih =>
    intro fs j t hfs hj ht hroom
    obtain ⟨r,hr⟩ := ht
    simp only [consumerFcts,Option.bind_eq_bind,Option.bind_eq_some_iff] at hfs
    obtain ⟨fs',hinp,hfs⟩ := hfs
    obtain rfl := Option.some.inj hfs
    obtain ⟨hget,hdrop⟩ := callMap_drop hj
    simp only [consumerRows,hr]
    simp only [consumerEntries] at hroom
    refine serves_expand (inp.consumerRows env.db) (callMap_lt hsize hget) hget hr
      (by omega) fun n => ih hinp hdrop ⟨n,List.getLast?_concat⟩ ?_
    rw [List.length_append,List.length_singleton]
    omega
  | @filter fexpr inp he _ ih =>
    intro fs j t hfs hj ht hroom
    obtain ⟨n,hn⟩ := ht
    simp only [consumerFcts,Option.bind_eq_bind,Option.bind_eq_some_iff] at hfs
    obtain ⟨code,hcode,fs',hinp,hfs⟩ := hfs
    obtain rfl := Option.some.inj hfs
    obtain ⟨hget,hdrop⟩ := callMap_drop hj
    obtain ⟨code',hcode',hbranches⟩ := he.fepBranches env n
    obtain rfl := Option.some.inj (hcode.symm.trans hcode')
    have hlooks := FilterExpr.fepCode_looks hcode n
    simp only [consumerRows,hn]
    exact serves_filter (callMap_lt hsize hget) hget hn (hlooks.body_eq_nil (by simp) rfl)
      (hlooks.body_eq_nil (by simp) rfl) hbranches (ih hinp hdrop ⟨n,hn⟩ hroom)
  | collect =>
    intro fs j t hfs hj _ _
    obtain rfl := Option.some.inj hfs
    obtain ⟨hget,-⟩ := callMap_drop hj
    exact serves_collect (callMap_lt hsize hget) hget

theorem CodegenVisitor.Serves.first {rows : List (List QrVal)} {m : ConsumerMemory}
    (h : Serves env fs offset 0 [.node n] rows) (hf : fs.head? = some f)
    (hm : m.qrl.entry (1+offset) = .node n) :
    ∃ m', Returns (step (consumerAct env fs)) ([f.frame ⟨1,1,offset⟩],m) ([],m') ∧
      Delivers offset 1 rows m m' := by
  obtain ⟨g,-,hg,hserves⟩ := h
  obtain rfl : f = g := by
    rw [List.head?_eq_getElem?,hg] at hf
    exact (Option.some.inj hf).symm
  obtain ⟨m',hrun,hdelivers⟩ := hserves m (by
    intro j x hx
    obtain ⟨rfl,rfl⟩ : j = 0 ∧ x = .node n := by
      cases j with
      | zero => exact ⟨rfl,(Option.some.inj hx).symm⟩
      | succ j => simp at hx
    exact hm)
  exact ⟨m',hrun.returns,hdelivers⟩

/-- The call that a scan makes for a node returns, and its rows are collected in the order of the
nested loops. -/
theorem consumers_collectRows (env : Env) (p : Plan) (fs : List ConsumerFct) (f : ConsumerFct)
    (n offset : ℕ) (m : ConsumerMemory) (hp : p.Consumes true)
    (hfs : p.consumerFcts env.db = some fs) (hf : fs.head? = some f)
    (hsize : fs.length ≤ callMapSize) (hroom : 1+p.consumerEntries+offset < resArrSize)
    (hm : m.qrl.entry (1+offset) = .node n) :
    ∃ m', Returns (step (consumerAct env fs)) ([f.frame ⟨1,1,offset⟩],m) ([],m') ∧
      Delivers offset 1 (p.consumerRows env.db [.node n]) m m' := by
  have hserves : Serves env fs offset 0 [.node n] (p.consumerRows env.db [.node n]) :=
    hp.serves hsize hfs (List.drop_zero ..) ⟨n,rfl⟩ hroom
  exact hserves.first hf hm

end Plan

def knownWithId : Plan :=
  .foreachRship .FROM (0,0) "knows" (.expand .OUT "Person"
    (.filter (.eq (.key 2 "id") (.num 5)) (.collect false)))

theorem knownWithId_consumes : knownWithId.Consumes true :=
  .foreachRship rfl (.expand (.filter .eq .collect))

theorem knownWithId_fcts : ∃ f fs, knownWithId.consumerFcts pairDb = some (f :: fs) ∧
    fs.length = 3 := by
  obtain ⟨f,fs,hfs⟩ := knownWithId_consumes.compiles pairDb
  have hlength : (knownWithId.consumerFcts pairDb).map List.length = some 4 := by decide
  rw [hfs] at hlength
  exact ⟨f,fs,hfs,Nat.succ.inj (Option.some.inj hlength)⟩

theorem consumers_collectRows_known : ∃ f fs, knownWithId.consumerFcts pairDb = some (f :: fs) ∧
    ∃ m', Returns (step (consumerAct (pairEnv fun _ => "Person") (f :: fs)))
      ([f.frame ⟨1,1,0⟩],⟨⟨1,fun _ => .node 0⟩,[]⟩) ([],m') ∧
        Delivers 0 1 [[.node 0,.rship 0,.node 1]] ⟨⟨1,fun _ => .node 0⟩,[]⟩ m' := by
  obtain ⟨f,fs,hfs,hlength⟩ := knownWithId_fcts
  exact ⟨f,fs,hfs,consumers_collectRows (pairEnv fun _ => "Person") knownWithId (f :: fs) f 0 0 _
    knownWithId_consumes hfs rfl (by rw [List.length_cons,hlength]; decide) (by decide) rfl⟩

end GraphQueryCompiler
