import GraphQueryCompiler.ConsumerFunctions
import GraphQueryCompiler.NestedLoopJoin

/-!
# Consumer functions and inlined code

The functions of `codegen_visitor` have the labels and integers of their plan, the code of
`codegen_inline_visitor` reads them from its arguments. With these arguments both make the same
rows, as long as no traversal comes to a large id.
-/

namespace GraphQueryCompiler
open StepMachine CallStack ForwardSearch CodegenVisitor

variable {env : Env} {db : GraphDb} {p : Plan} {node : Bool} {opId i n : ℕ} {k : String} {c : ℤ}
  {t : List QrVal}

/-- The arguments are those of the plan. A filter compares a property of the last of the `len`
entries of its tuples. -/
def Plan.Passes (args : QueryArgs) : Plan → ℕ → ℕ → Prop
  | .foreachRship _ _ label inp, opId, len =>
    args.label opId = label ∧ inp.Passes args (opId+1) (len+1)
  | .expand _ label inp, opId, len => args.label opId = label ∧ inp.Passes args (opId+1) (len+1)
  | .filter (.eq (.key i _) (.num c)) inp, opId, len =>
    i+1 = len ∧ args.word opId = (c % 2^64).toNat ∧ inp.Passes args (opId+1) len
  | .collect _, _, _ => True
  | _, _, _ => False

/-- The ids of all relationships are below the sentinel of `codegen_visitor`. -/
def GraphDb.SmallIds (db : GraphDb) : Prop :=
  ∀ n dir, ∀ r ∈ db.rships dir n, r < CodegenVisitor.unknownRelId

theorem flatMap_filter {α β : Type*} (f : α → List β) (q : α → Prop) [DecidablePred q]
    (l : List α) : (l.filter fun a => decide (q a)).flatMap f =
      l.flatMap fun a => if q a then f a else [] := by
  induction l with
  | nil => rfl
  | cons a l ih =>
    rw [List.flatMap_cons,List.filter_cons]
    split_ifs with h h' h'
    · rw [List.flatMap_cons,ih]
    · exact absurd (by simpa using h) h'
    · exact absurd (by simpa using h') h
    · rw [ih,List.nil_append]

theorem GraphDb.findSome?_keyValue (db : GraphDb) (k : String) (l : List ℕ) :
    (l.findSome? fun p => db.keyValue p k) =
      (seek db.hasKey k l).head?.bind fun p => db.keyValue p k := by
  induction l with
  | nil => rfl
  | cons p l ih =>
    cases hp : db.hasKey k p with
    | true =>
      obtain ⟨w,hw⟩ := Option.isSome_iff_exists.1 (GraphDb.keyValue_isSome.2 hp)
      rw [List.findSome?_cons,hw,seek,List.dropWhile_cons_of_neg (by simp [hp])]
      exact hw.symm
    | false =>
      have hnone : db.keyValue p k = none := by
        rw [← Option.not_isSome_iff_eq_none,GraphDb.keyValue_isSome,hp]
        exact Bool.false_ne_true
      rw [List.findSome?_cons,hnone,seek,
        List.dropWhile_cons_of_pos (by simp [hp])]
      exact ih

theorem fepPasses_eqInt (db : GraphDb) (n i : ℕ) (k : String) (c : ℤ) :
    (FilterExpr.eq (.key i k) (.num c)).fepPasses db n =
      decide ((db.findProperty n (db.getCode k)).map PItem.value = some (c % 2^64).toNat) := by
  rw [GraphDb.findProperty_value,GraphDb.findSome?_keyValue,FilterExpr.fepPasses]
  cases hseek : seek db.hasKey k (db.propertySets n) with
  | nil => simp [FilterExpr.fepEval,FepSearch.lookup,hseek]
  | cons p ps =>
    have hstart : (FepSearch.lookup db k ⟨fun _ => none,db.propertySets n⟩) =
        some ⟨Function.update (fun _ => none) k (db.keyValue p k),p :: ps⟩ := by
      simp only [FepSearch.lookup,hseek]
      rfl
    simp only [FilterExpr.fepEval,hstart,Option.bind_eq_bind,Option.bind_some]
    exact decide_eq_decide.2 (by rw [Function.update_self,List.head?_cons,Option.bind_some])

theorem Plan.Consumes.consumerRows_eq (hp : p.Consumes node) (hids : env.db.SmallIds) :
    ∀ {opId : ℕ} {t : List QrVal}, p.Passes env.args opId t.length →
      p.consumerRows env.db t = p.rows env opId t := by
  induction hp with
  | @foreachRship dir hops label inp _ _ ih =>
    rintro opId t ⟨hlabel,hargs⟩
    rw [consumerRows,rows,Env.traversed]
    cases hlast : t.getLast? with
    | none => rfl
    | some x =>
      cases x with
      | node n =>
        simp only
        rw [List.takeWhile_eq_self_iff.2 fun r hr => decide_eq_true (hids n dir r hr),
          List.flatMap_map,flatMap_filter,GraphDb.argLabel,hlabel]
        congr 1
        funext r
        rw [ih (by rw [List.length_append,List.length_singleton]; exact hargs)]
      | _ => rfl
  | @expand exp label inp _ ih =>
    rintro opId t ⟨hlabel,hargs⟩
    rw [consumerRows,rows,Env.expanded]
    cases hlast : t.getLast? with
    | none => rfl
    | some x =>
      cases x with
      | rship r =>
        simp only
        rw [GraphDb.argLabel,hlabel,
          ih (by rw [List.length_append,List.length_singleton]; exact hargs)]
        split_ifs
        · rw [List.flatMap_singleton]
        · rfl
      | _ => rfl
  | @filter fexpr inp he _ ih =>
    intro opId t hargs
    cases he with
    | @eq i k c =>
      obtain ⟨hi,hword,hargs⟩ := hargs
      rw [consumerRows,rows,Env.filtered,List.getLast?_eq_getElem?,← hi,Nat.add_sub_cancel]
      cases hget : t[i]? with
      | none => rfl
      | some x =>
        cases x with
        | node n =>
          simp only [fepPasses_eqInt,hword,decide_eq_true_eq,ih hargs]
          split_ifs
          · rw [List.flatMap_singleton]
          · rfl
        | _ => rfl
    | and | or => exact hargs.elim
  | collect => exact fun _ => rfl

theorem Plan.Consumes.joinFree (hp : p.Consumes node) : p.JoinFree := by
  induction hp with
  | foreachRship _ _ ih | expand _ ih | filter _ _ ih => exact ih
  | collect => trivial

namespace CodegenVisitor

variable {callMap : List ConsumerFct} {f : ConsumerFct} {offset : ℕ} {ns : List ℕ}
  {rows : List (List QrVal)} {m m' : ConsumerMemory}

def scanConsume (offset n : ℕ) (m : ConsumerMemory) : ConsumerMemory :=
  { m with qrl := ⟨1,Function.update m.qrl.entry (1+offset) (.node n)⟩ }

/-- A scan calls the first function for these nodes, for each behind the return of the others. -/
inductive ScanCalls (env : Env) (callMap : List ConsumerFct) (f : ConsumerFct) (offset : ℕ) :
    List ℕ → ConsumerMemory → ConsumerMemory → Prop
  | nil {m : ConsumerMemory} : ScanCalls env callMap f offset [] m m
  | cons {n : ℕ} {ns : List ℕ} {m m₁ m₂ : ConsumerMemory} :
      Returns (step (consumerAct env callMap)) ([f.frame ⟨1,1,offset⟩],scanConsume offset n m)
        ([],m₁) →
      ScanCalls env callMap f offset ns m₁ m₂ → ScanCalls env callMap f offset (n :: ns) m m₂

theorem scanCalls_gather {next : ℕ → List (List QrVal)} (h : ∀ n m, ∃ m',
    Returns (step (consumerAct env callMap)) ([f.frame ⟨1,1,offset⟩],scanConsume offset n m)
      ([],m') ∧ Gathers offset (next n) m m') (ns : List ℕ) :
    ∀ m, ∃ m', ScanCalls env callMap f offset ns m m' ∧ Gathers offset (ns.flatMap next) m m' := by
  induction ns with
  | nil => exact fun m => ⟨m,.nil,.refl⟩
  | cons n ns ih =>
    intro m
    obtain ⟨m₁,hret,hrows⟩ := h n m
    obtain ⟨m₂,hscan,hrows'⟩ := ih m₁
    exact ⟨m₂,.cons hret hscan,hrows.trans hrows'⟩

end CodegenVisitor

/-- A query that is compiled to functions collects what its inlined code does: for the nodes of a
scan, in the order of the scan, the functions collect the tuples that the start function gives
to `collect_tuple`. -/
theorem consumers_collectInlined (env : Env) (er : ℕ → Option Expr) (label : String) (p : Plan)
    (fs : List ConsumerFct) (f : ConsumerFct) (offset : ℕ)
    (hpath : (Plan.scan label false p).AccessPath) (hn : (Plan.scan label false p).Nested true)
    (hp : p.Consumes true) (hlabel : env.args.label 1 = label) (hargs : p.Passes env.args 2 1)
    (hids : env.db.SmallIds) (hfs : p.consumerFcts env.db = some fs) (hf : fs.head? = some f)
    (hsize : fs.length ≤ callMapSize) (hroom : 1+p.consumerEntries+offset < resArrSize) :
    ∃ fn entry, generateStart env.db er (.scan label false p) = some (fn,entry) ∧
      ∀ (σ : State) (m : ConsumerMemory), σ.Idle → ∃ σ' m' rows,
        Returns (fn.step env) (.at entry σ) (.returned σ') ∧
        σ'.trace = σ.trace ++ rows.map .collect ++ [.finish] ∧
        ScanCalls env fs f offset ((env.db.range env.first env.last).filter fun n =>
          (env.db.nodeById n).nodeLabel = env.db.getCode label) m m' ∧
        Gathers offset rows m m' := by
  have hinlined : Evaluates env er (.scan label false p) _ :=
    Plan.Nested.evaluates hpath hn hp.joinFree
  obtain ⟨fn,entry,hgen,hruns⟩ := hinlined
  refine ⟨fn,entry,hgen,fun σ m hσ => ?_⟩
  obtain ⟨σ',hret,-,htrace⟩ := hruns σ hσ
  have hcalls : ∀ n m, ∃ m', Returns (step (consumerAct env fs))
      ([f.frame ⟨1,1,offset⟩],scanConsume offset n m) ([],m') ∧
        Gathers offset (p.rows env 2 [.node n]) m m' := by
    intro n m
    have hserves : Serves env fs offset 0 [.node n] (p.consumerRows env.db [.node n]) :=
      hp.serves hsize hfs (List.drop_zero ..) ⟨n,rfl⟩ hroom
    obtain ⟨m',hrun,hdelivers⟩ := hserves.first (m := scanConsume offset n m) hf
      (Function.update_self ..)
    rw [hp.consumerRows_eq hids hargs] at hdelivers
    exact ⟨m',hrun,hdelivers.collected⟩
  obtain ⟨m',hscan,hcollects⟩ := scanCalls_gather hcalls _ m
  refine ⟨σ',m',_,hret,htrace,hscan,?_⟩
  rw [Plan.rows,GraphDb.argLabel,hlabel]
  exact hcollects

theorem pairDb_smallIds : pairDb.SmallIds := by
  intro n dir r hr
  have hhead : (pairDb.nodeById n).rshipList dir = 0 ∨
      (pairDb.nodeById n).rshipList dir = unknownId := by
    cases dir <;> simp only [pairDb,Node.rshipList] <;> split_ifs <;> simp
  rw [GraphDb.rships] at hr
  rcases hhead with hhead | hhead <;> rw [hhead] at hr
  · obtain rfl : r = 0 := List.mem_singleton.1 hr
    decide
  · exact absurd hr List.not_mem_nil

theorem consumers_collectInlined_known : ∃ f fs,
    knownWithId.consumerFcts pairDb = some (f :: fs) ∧ ∃ fn entry,
      generateStart pairDb (fun _ => none) (.scan "Person" false knownWithId) = some (fn,entry) ∧
      ∀ (σ : State) (m : ConsumerMemory), σ.Idle → ∃ σ' m' rows,
        Returns (fn.step (pairEnv fun i => if i = 2 then "knows" else "Person"))
          (.at entry σ) (.returned σ') ∧
        σ'.trace = σ.trace ++ rows.map .collect ++ [.finish] ∧
        ScanCalls (pairEnv fun i => if i = 2 then "knows" else "Person") (f :: fs) f 0 [0,1] m m' ∧
        Gathers 0 rows m m' := by
  obtain ⟨f,fs,hfs,hlength⟩ := knownWithId_fcts
  exact ⟨f,fs,hfs,consumers_collectInlined (pairEnv fun i => if i = 2 then "knows" else "Person")
    (fun _ => none) "Person" knownWithId (f :: fs) f 0 ⟨rfl,rfl,rfl,rfl,rfl⟩
    ⟨rfl,.foreachRship rfl (.expand rfl (.filter rfl .collect)),rfl⟩ knownWithId_consumes rfl
    ⟨rfl,rfl,rfl,rfl,trivial⟩ pairDb_smallIds hfs rfl (by rw [List.length_cons,hlength]; decide)
    (by decide)⟩

end GraphQueryCompiler
