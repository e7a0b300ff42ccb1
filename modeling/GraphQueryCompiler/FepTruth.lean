import GraphQueryCompiler.FepFormula

/-!
# The truth of formulas in consumer functions

Which formulas `fep_visitor` compiles, and on which nodes their code agrees with the truth of the
formula: the keys are to be found in the order in which they are looked up.
-/

namespace GraphQueryCompiler
open StepMachine FepVisitor ForwardSearch

variable {env : Env} {n i m rank : ℕ} {db : GraphDb} {e l r : FilterExpr} {c : FepCode}
  {s s' s₁ s₂ : FepVisitor} {is : List FepInstr} {block : BlockName} {o : Option BlockName}

namespace FepVisitor

structure Same (s s' : FepVisitor) : Prop where
  exprStack : s'.exprStack = s.exprStack
  opdCnt : s'.opdCnt = s.opdCnt
  genVals : s'.genVals = s.genVals

theorem finishBlock_same (h : s.finishBlock is c o = some s') : s.Same s' := by
  obtain ⟨b,-,rfl⟩ := Option.map_eq_some_iff.1 h
  exact ⟨rfl,rfl,rfl⟩

theorem insert_same (h : s.insert is = some s') : s.Same s' := by
  unfold FepVisitor.insert at h
  split_ifs at h
  · obtain rfl := Option.some.inj h
    exact ⟨rfl,rfl,rfl⟩
  · obtain ⟨b,-,rfl⟩ := Option.map_eq_some_iff.1 h
    exact ⟨rfl,rfl,rfl⟩

theorem finishPredicate_same (h : s.finishPredicate rank n block is = some s') : s.Same s' := by
  unfold finishPredicate at h
  split_ifs at h
  · obtain ⟨cond,-,h⟩ := Option.bind_eq_some_iff.1 h
    exact finishBlock_same h
  · exact finishBlock_same h

structure Visited (e : FilterExpr) (s s' : FepVisitor) : Prop where
  exprStack : s'.exprStack = ⟨e.ftype,s.opdCnt⟩ :: s.exprStack
  opdCnt : s'.opdCnt = e.nextOpd s.opdCnt
  genVals : ∀ i, (s.opdCnt < s'.opdCnt → i ≠ s.opdCnt) → s'.genVals i = s.genVals i

theorem Same.visited {cell : FepCell} (hnext : s.opdCnt < e.nextOpd s.opdCnt)
    (h : (((s.push e).alloc cell).setGenVal s.opdCnt cell).Same s') : Visited e s s' := by
  have hopd : s'.opdCnt = e.nextOpd s.opdCnt := h.opdCnt.trans opdCnt_alloc
  refine ⟨h.exprStack.trans exprStack_alloc,hopd,fun i hi => ?_⟩
  rw [h.genVals]
  exact (Function.update_of_ne (hi (hopd ▸ hnext)) ..).trans (congrFun genVals_alloc i)

theorem Same.visited_push (h : (s.push e).Same s') : Visited e s s' :=
  ⟨h.exprStack,h.opdCnt,fun i _ => congrFun h.genVals i⟩

theorem visit_visited (h : (fepVisitor db).visit rank e s = some s') : Visited e s s' := by
  have hlt : s.opdCnt < s.opdCnt+1 := Nat.lt_succ_self _
  cases e with
  | num value => exact (insert_same h).visited hlt
  | str str => exact (finishBlock_same h).visited hlt
  | fct fct => exact (finishBlock_same h).visited_push
  | key q k =>
    have hs := finishBlock_same h
    have hopd : s'.opdCnt = s.opdCnt+1 :=
      hs.opdCnt.trans (opdCnt_alloc.trans (opdCnt_alloc.trans opdCnt_alloc))
    refine ⟨hs.exprStack.trans ?_,hopd,fun i hi => ?_⟩
    · exact exprStack_alloc.trans (exprStack_alloc.trans exprStack_alloc)
    · rw [hs.genVals]
      exact (Function.update_of_ne (hi (hopd ▸ hlt)) ..).trans
        (congrFun (genVals_alloc.trans (genVals_alloc.trans genVals_alloc)) i)
  | eq l r =>
    simp only [fepVisitor,visitEq,Option.bind_eq_bind,Option.bind_eq_some_iff] at h
    obtain ⟨rhs,-,lhs,-,pitem,-,h⟩ := h
    split at h
    · obtain ⟨rhsAlloc,-,hend⟩ := Option.bind_eq_some_iff.1 h
      exact (finishPredicate_same hend).visited hlt
    · cases h
    · exact (finishPredicate_same h).visited_push
  | and l r | or l r =>
    simp only [fepVisitor,visitBool,Option.bind_eq_bind,Option.bind_eq_some_iff] at h
    obtain ⟨rhs,-,offset,-,lhs,-,lhsVal,-,rhsVal,-,hend⟩ := h
    exact (finishPredicate_same hend).visited hlt

def Free (s : FepVisitor) : Prop := ∀ i ≥ s.opdCnt, s.genVals i = none

theorem Visited.free (h : Visited e s s') (hs : s.Free) : s'.Free := by
  intro i hi
  have hle : s.opdCnt ≤ s'.opdCnt := h.opdCnt ▸ le_nextOpd ..
  rw [h.genVals i (by omega)]
  exact hs i (by omega)

theorem Visited.keeps (h : Visited e s s') : ∀ i < s.opdCnt, s'.genVals i = s.genVals i :=
  fun i hi => h.genVals i fun _ => Nat.ne_of_lt hi

theorem accept_free (h : e.accept (fepVisitor db) rank s = some s') (hs : s.Free) : s'.Free :=
  e.accept_preserves (P := Free) (fun _ _ _ _ hvisit => (visit_visited hvisit).free) h hs

theorem accept_eqStr {q : ℕ} {k str : String} (hs : s.Free)
    (h : (FilterExpr.eq (.key q k) (.str str)).accept (fepVisitor db) rank s = some s') :
    rank ≠ 0 ∧ ∃ m T, s'.exprStack = ⟨some .OP,m⟩ :: T ∧ s'.genVals m = none := by
  simp only [FilterExpr.accept,Option.bind_eq_bind,Option.bind_eq_some_iff] at h
  obtain ⟨s₁,hkey,s₂,hstr,heq⟩ := h
  have hv₁ := visit_visited hkey
  have hv₂ := visit_visited hstr
  have hv := visit_visited heq
  have hfree : s₂.genVals s₂.opdCnt = none := hv₂.free (hv₁.free hs) _ (Nat.le_refl _)
  simp only [fepVisitor,visitEq,Option.bind_eq_bind,Option.bind_eq_some_iff] at heq
  obtain ⟨rhs,hrhs,lhs,-,pitem,-,heq⟩ := heq
  obtain rfl : (⟨some .STRING,s₁.opdCnt⟩ : StackEntry) = rhs := by
    have hpush : (s₂.push (.eq (.key q k) (.str str))).exprStack[1]? = s₂.exprStack[0]? := rfl
    rw [hpush,hv₂.exprStack] at hrhs
    exact Option.some.inj hrhs
  have hsame : (s₂.push (.eq (.key q k) (.str str))).finishPredicate rank s₂.opdCnt
      (.cmpEq s₂.opdCnt) [] = some s' := heq
  refine ⟨?_,s₂.opdCnt,s₂.exprStack,hv.exprStack,?_⟩
  · rintro rfl
    rw [finishPredicate,if_pos rfl] at hsame
    obtain ⟨cond,hcond,-⟩ := Option.bind_eq_some_iff.1 hsame
    exact absurd (hfree.symm.trans hcond) (by simp)
  · rw [(finishPredicate_same hsame).genVals]
    exact hfree

theorem accept_eqInt {q : ℕ} {k : String} {v : ℤ}
    (h : (FilterExpr.eq (.key q k) (.num v)).accept (fepVisitor db) rank s = some s') :
    (∃ m x y, s'.exprStack = ⟨some .OP,m⟩ :: x :: y :: s.exprStack) ∧
      ∀ i < s.opdCnt, s'.genVals i = s.genVals i := by
  simp only [FilterExpr.accept,Option.bind_eq_bind,Option.bind_eq_some_iff] at h
  obtain ⟨s₁,hkey,s₂,hnum,heq⟩ := h
  have hv₁ := visit_visited hkey
  have hv₂ := visit_visited hnum
  have hv := visit_visited heq
  have hopd₁ : s₁.opdCnt = s.opdCnt+1 := hv₁.opdCnt
  have hopd₂ : s₂.opdCnt = s₁.opdCnt+1 := hv₂.opdCnt
  refine ⟨⟨s₂.opdCnt,⟨some .INT,s₁.opdCnt⟩,⟨some .KEY,s.opdCnt⟩,?_⟩,fun i hi => ?_⟩
  · rw [hv.exprStack,hv₂.exprStack,hv₁.exprStack]
    rfl
  · rw [hv.keeps i (by omega),hv₂.keeps i (by omega),hv₁.keeps i hi]

theorem visitBool_needs {op : FepOperand → FepOperand → FepOperand} {res : ℕ → FepCell}
    {block : ℕ → BlockName} {top : StackEntry} {T : List StackEntry} (he : e.ftype = some .BOOL_OP)
    (hstack : s.exprStack = top :: T) (h : s.visitBool op res block rank e = some s') :
    top.ftype ≠ some .BOOL_OP ∧ (s.genVals top.opdNum).isSome ∧
      ∃ lhs, T[2]? = some lhs ∧ (s.genVals lhs.opdNum).isSome := by
  have hpush : (s.push e).exprStack = ⟨e.ftype,s.opdCnt⟩ :: top :: T :=
    congrArg (List.cons _) hstack
  simp only [visitBool,Option.bind_eq_bind,Option.bind_eq_some_iff,hpush] at h
  obtain ⟨rhs,hrhs,offset,hoffset,lhs,hlhs,lhsVal,hlhsVal,rhsVal,hrhsVal,-⟩ := h
  obtain rfl : top = rhs := Option.some.inj hrhs
  have hop : top.ftype ≠ some .BOOL_OP := by
    intro htop
    rw [FepContext.boolOffset] at hoffset
    simp [htop,he,FepContext.boolOffset] at hoffset
  have hzero : offset = 0 := by
    rw [FepContext.boolOffset] at hoffset
    simpa [hop] using hoffset.symm
  subst hzero
  exact ⟨hop,Option.isSome_of_eq_some hrhsVal,lhs,hlhs,Option.isSome_of_eq_some hlhsVal⟩

/-- Its value is not there behind the visits of a formula. -/
def Lost (s' : FepVisitor) : Prop :=
  ∃ m T f, s'.exprStack = ⟨f,m⟩ :: T ∧ m < s'.opdCnt ∧ s'.genVals m = none

theorem connective_compares {op : FepOperand → FepOperand → FepOperand} {res : ℕ → FepCell}
    {block : ℕ → BlockName} (he : e.ftype = some .BOOL_OP) (hr : r.Formula) (hs : s₁.Free)
    (hl : l.Compares ∨ s₁.Lost) (har : r.accept (fepVisitor db) (rank+1) s₁ = some s₂)
    (h : s₂.visitBool op res block rank e = some s') :
    l.Compares ∧ ∃ q k v, r = .eq (.key q k) (.num v) := by
  cases hr with
  | @eqInt q k v =>
    obtain ⟨⟨m,x,y,hstack⟩,hkeeps⟩ := accept_eqInt har
    refine ⟨hl.resolve_right ?_,q,k,v,rfl⟩
    rintro ⟨m₁,T,f,hls,hm₁,hnone⟩
    obtain ⟨-,-,lhs,hlhs,hval⟩ := visitBool_needs he hstack h
    rw [hls] at hlhs
    obtain rfl : (⟨f,m₁⟩ : StackEntry) = lhs := Option.some.inj hlhs
    rw [hkeeps m₁ hm₁,hnone] at hval
    cases hval
  | @eqStr q k str =>
    obtain ⟨-,m,T,hstack,hnone⟩ := accept_eqStr hs har
    obtain ⟨-,hval,-⟩ := visitBool_needs he hstack h
    rw [hnone] at hval
    cases hval
  | and | or =>
    simp only [FilterExpr.accept,Option.bind_eq_bind,Option.bind_eq_some_iff] at har
    obtain ⟨t₁,-,t₂,-,hvisit⟩ := har
    exact absurd rfl (visitBool_needs he (visit_visited hvisit).exprStack h).1

theorem compares_of_accept (he : e.Formula) : ∀ {rank : ℕ} {s s' : FepVisitor}, s.Free →
    e.accept (fepVisitor db) rank s = some s' → e.Compares ∨ rank ≠ 0 ∧ s'.Lost := by
  induction he with
  | eqInt => exact fun _ _ => .inl .eq
  | eqStr =>
    intro rank s s' hs h
    obtain ⟨hrank,m,T,hstack,hnone⟩ := accept_eqStr hs h
    refine .inr ⟨hrank,m,T,_,hstack,?_,hnone⟩
    simp only [FilterExpr.accept,Option.bind_eq_bind,Option.bind_eq_some_iff] at h
    obtain ⟨t₁,-,t₂,-,hvisit⟩ := h
    have hv := visit_visited hvisit
    have htop := hv.exprStack
    rw [hstack,List.cons_eq_cons,StackEntry.mk.injEq] at htop
    have hopd : s'.opdCnt = t₂.opdCnt+1 := hv.opdCnt
    omega
  | @and l r hl hr ihl _ =>
    intro rank s s' hs h
    simp only [FilterExpr.accept,Option.bind_eq_bind,Option.bind_eq_some_iff] at h
    obtain ⟨s₁,hal,s₂,har,hvisit⟩ := h
    obtain ⟨hcl,q,k,v,rfl⟩ := connective_compares rfl hr (accept_free hal hs)
      ((ihl hs hal).imp_right And.right) har hvisit
    exact .inl (.and hcl)
  | @or l r hl hr ihl _ =>
    intro rank s s' hs h
    simp only [FilterExpr.accept,Option.bind_eq_bind,Option.bind_eq_some_iff] at h
    obtain ⟨s₁,hal,s₂,har,hvisit⟩ := h
    obtain ⟨hcl,q,k,v,rfl⟩ := connective_compares rfl hr (accept_free hal hs)
      ((ihl hs hal).imp_right And.right) har hvisit
    exact .inl (.or hcl)

end FepVisitor

theorem FilterExpr.Formula.compares (he : e.Formula) {code : FepCode}
    (h : e.fepCode db = some code) : e.Compares := by
  obtain ⟨s,hs,-⟩ := Option.map_eq_some_iff.1 h
  exact (compares_of_accept he (fun _ _ => rfl) hs).resolve_right fun hlost => hlost.1 rfl

/-- A formula is compiled exactly if its comparisons are with integers and the right operand of
every connective is one of them. -/
theorem fepCode_isSome_iff (e : FilterExpr) (db : GraphDb) (he : e.Formula) :
    (e.fepCode db).isSome ↔ e.Compares := by
  constructor
  · intro h
    obtain ⟨code,hcode⟩ := Option.isSome_iff_exists.1 h
    exact he.compares hcode
  · intro h
    obtain ⟨code,hcode,-⟩ := h.fepBranches { pairEnv fun _ => "Person" with db := db } 0
    exact Option.isSome_of_eq_some hcode

theorem keysAnd_formula (key₁ key₂ : String) : (keysAnd key₁ key₂).Formula := .and .eqInt .eqInt

theorem fepCode_isSome_nested :
    ((FilterExpr.and (keysAnd "id" "age") (.eq (.key 0 "year") (.num 3))).fepCode
      pairDb).isSome ∧
    ¬ ((FilterExpr.and (.eq (.key 0 "year") (.num 3)) (keysAnd "id" "age")).fepCode
      pairDb).isSome := by
  rw [fepCode_isSome_iff _ pairDb (.and (keysAnd_formula ..) .eqInt),
    fepCode_isSome_iff _ pairDb (.and .eqInt (keysAnd_formula ..))]
  exact ⟨.and (.and .eq),fun h => (nomatch h)⟩

/-- The block at which the code of a formula ends, on every node and from all values of its
cells. -/
theorem fepCode_branches (env : Env) (n : ℕ) (e : FilterExpr) (code : FepCode) (he : e.Formula)
    (h : e.fepCode env.db = some code) : FepBranches env n code (e.fepPasses env.db n) := by
  obtain ⟨code',hcode,hbranches⟩ := (he.compares h).fepBranches env n
  obtain rfl := Option.some.inj (h.symm.trans hcode)
  exact hbranches

theorem fepCode_branches_ordered : ∃ code, (keysAnd "id" "age").fepCode twoSetEnv.db = some code ∧
    FepBranches twoSetEnv 0 code true := by
  obtain ⟨code,hcode⟩ := keysAnd_compiles "id" "age" (by decide)
  exact ⟨code,hcode,fepCode_branches twoSetEnv 0 _ code (keysAnd_formula ..) hcode⟩

def FilterExpr.nodeTruth (db : GraphDb) (n : ℕ) : FilterExpr → Bool
  | .eq (.key _ k) (.num c) =>
    (db.findProperty n (db.getCode k)).map PItem.value = some (c % 2^64).toNat
  | .and l r => l.nodeTruth db n && r.nodeTruth db n
  | .or l r => l.nodeTruth db n || r.nodeTruth db n
  | _ => false

def FilterExpr.KeysOnce (e : FilterExpr) (db : GraphDb) (n : ℕ) : Prop :=
  ∀ k ∈ e.keys.map Prod.snd, ∀ p ∈ db.propertySets n, ∀ p' ∈ db.propertySets n,
    db.hasKey k p → db.hasKey k p' → p = p'

instance (e : FilterExpr) (db : GraphDb) (n : ℕ) : Decidable (e.KeysOnce db n) :=
  inferInstanceAs (Decidable (∀ k ∈ e.keys.map Prod.snd, ∀ p ∈ db.propertySets n,
    ∀ p' ∈ db.propertySets n, db.hasKey k p → db.hasKey k p' → p = p'))

section Truth
variable {k : String} {p w : ℕ} {st : FepSearch}

theorem GraphDb.keyValue_isSome : (db.keyValue p k).isSome ↔ db.hasKey k p := by
  rw [keyValue,Option.isSome_map,hasKey]

theorem GraphDb.findProperty_value : (db.findProperty n (db.getCode k)).map PItem.value =
    (db.propertySets n).findSome? fun p => db.keyValue p k := by
  have hset : ∀ p, ((List.ofFn (db.propertySet p).items).find? fun it =>
      it.key = db.getCode k) = (db.keyIndex p (db.getCode k)).map (db.propertySet p).items := by
    intro p
    rw [List.ofFn_eq_map,List.find?_map]
    rfl
  rw [findProperty,propertyItems,List.find?_flatMap,List.map_findSome?]
  congr 1
  funext p
  rw [Function.comp_apply,hset,Option.map_map]
  rfl

theorem GraphDb.findProperty_of_once (hp : p ∈ db.propertySets n)
    (honce : ∀ p' ∈ db.propertySets n, db.hasKey k p' → p' = p) (hw : db.keyValue p k = some w) :
    (db.findProperty n (db.getCode k)).map PItem.value = some w := by
  rw [findProperty_value]
  have hsome : ((db.propertySets n).findSome? fun p => db.keyValue p k).isSome :=
    List.findSome?_isSome_iff.2 ⟨p,hp,Option.isSome_of_eq_some hw⟩
  obtain ⟨w',hw'⟩ := Option.isSome_iff_exists.1 hsome
  obtain ⟨p',hp',hval⟩ := List.exists_of_findSome?_eq_some hw'
  obtain rfl := honce p' hp' (keyValue_isSome.1 (Option.isSome_of_eq_some hval))
  exact hw'.trans (hval.symm.trans hw)

def FepSearch.Right (st : FepSearch) (db : GraphDb) (n : ℕ) : Prop :=
  ∀ k w, st.value k = some w → (db.findProperty n (db.getCode k)).map PItem.value = some w

theorem FepSearch.Right.lookup {ps : List ℕ} (hst : st.Right db n) (hp : p ∈ db.propertySets n)
    (honce : ∀ p' ∈ db.propertySets n, db.hasKey k p' → p' = p)
    (hseek : seek db.hasKey k st.left = p :: ps) : ∃ st₁ w, st.lookup db k = some st₁ ∧
      st₁.left = seek db.hasKey k st.left ∧ st₁.Right db n ∧ st₁.value k = some w := by
  obtain ⟨w,hw,-⟩ := loadField_keyItem (has_of_seek hseek)
  refine ⟨_,if (st.value k).isSome then (st.value k).getD 0 else w,by rw [FepSearch.lookup,hseek],
    hseek.symm,fun k' w' hw' => ?_,?_⟩
  · split_ifs at hw' with hk
    · exact hst k' w' hw'
    · by_cases he : k' = k
      · subst he
        have hnew : Function.update st.value k' (db.keyValue p k') k' = some w :=
          (Function.update_self ..).trans hw
        obtain rfl : w = w' := Option.some.inj (hnew.symm.trans hw')
        exact db.findProperty_of_once hp honce hw
      · exact hst k' w' (by simpa [he] using hw')
  · split_ifs with hk
    · obtain ⟨w',hw'⟩ := Option.isSome_iff_exists.1 hk
      simp [hw']
    · exact (Function.update_self ..).trans hw

/-- The evaluation goes on exactly if all keys of the formula are found in turn, and with its
truth. -/
def FilterExpr.Decides (e : FilterExpr) (db : GraphDb) (n : ℕ) : Prop :=
  ∀ st : FepSearch, st.left <:+ db.propertySets n → st.Right db n →
    (¬ Finds db.hasKey (e.keys.map Prod.snd) st.left → e.fepEval db st = none) ∧
    (Finds db.hasKey (e.keys.map Prod.snd) st.left → ∃ st',
      e.fepEval db st = some (e.nodeTruth db n,st') ∧
        st'.left = seekAll db.hasKey (e.keys.map Prod.snd) st.left ∧ st'.Right db n)

theorem FilterExpr.decides_eq {q : ℕ} {c : ℤ}
    (honce : (FilterExpr.eq (.key q k) (.num c)).KeysOnce db n) :
    (FilterExpr.eq (.key q k) (.num c)).Decides db n := by
  intro st hleft hst
  have hkeys : (FilterExpr.eq (.key q k) (.num c)).keys.map Prod.snd = [k] := rfl
  rw [hkeys]
  cases hseek : seek db.hasKey k st.left with
  | nil =>
    have hlookup : st.lookup db k = none := by
      rw [FepSearch.lookup,hseek]
    refine ⟨fun _ => ?_,fun hfinds => absurd hseek hfinds.1⟩
    simp [fepEval,hlookup]
  | cons p ps =>
    have hsuffix := (seek_suffix db.hasKey k st.left).trans hleft
    have hp : p ∈ db.propertySets n := hsuffix.subset (hseek ▸ List.mem_cons_self)
    obtain ⟨st₁,w,hlookup,hleft₁,hst₁,hw⟩ := hst.lookup hp (fun p' hp' hk =>
      honce k List.mem_cons_self p' hp' p hp hk (has_of_seek hseek)) hseek
    refine ⟨fun hnot => absurd ⟨by simp [hseek],trivial⟩ hnot,fun _ => ⟨st₁,?_,hleft₁,hst₁⟩⟩
    simp [fepEval,nodeTruth,hlookup,hw,hst₁ k w hw]

theorem FilterExpr.Decides.connective {conn : FilterExpr → FilterExpr → FilterExpr}
    {op : FepOperand → FepOperand → FepOperand} {res : ℕ → FepCell} {block : ℕ → BlockName}
    {f : Bool → Bool → Bool} (hf : Connective conn op res block f)
    (hkeys : (conn l r).keys = l.keys ++ r.keys)
    (htruth : (conn l r).nodeTruth db n = f (l.nodeTruth db n) (r.nodeTruth db n))
    (hl : l.Decides db n) (hr : r.Decides db n) : (conn l r).Decides db n := by
  intro st hleft hst
  obtain ⟨hnone,hsome⟩ := hl st hleft hst
  rw [hkeys,List.map_append,finds_append,seekAll_append,hf.fepEval,htruth]
  by_cases hfl : Finds db.hasKey (l.keys.map Prod.snd) st.left
  · obtain ⟨st₁,heval₁,hleft₁,hst₁⟩ := hsome hfl
    have hsuffix : st₁.left <:+ db.propertySets n :=
      hleft₁ ▸ (seekAll_suffix _ st.left).trans hleft
    obtain ⟨hnone₁,hsome₁⟩ := hr st₁ hsuffix hst₁
    rw [← hleft₁,heval₁,Option.bind_some]
    refine ⟨fun hnot => ?_,fun hfinds => ?_⟩
    · rw [hnone₁ fun hfr => hnot ⟨hfl,hfr⟩,Option.map_none]
    · obtain ⟨st₂,heval₂,hleft₂,hst₂⟩ := hsome₁ hfinds.2
      exact ⟨st₂,by rw [heval₂,Option.map_some],hleft₂,hst₂⟩
  · refine ⟨fun _ => ?_,fun hfinds => absurd hfinds.1 hfl⟩
    rw [hnone hfl,Option.bind_none]

theorem FilterExpr.KeysOnce.mono {l : FilterExpr} (h : e.KeysOnce db n) (hl : l.keys ⊆ e.keys) :
    l.KeysOnce db n := fun k hk => h k (List.map_subset Prod.snd hl hk)

theorem FilterExpr.Compares.decides (he : e.Compares) (honce : e.KeysOnce db n) :
    e.Decides db n := by
  induction he with
  | eq => exact decides_eq honce
  | and _ ih =>
    exact .connective connective_and rfl rfl (ih (honce.mono (List.subset_append_left ..)))
      (decides_eq (honce.mono (List.subset_append_right ..)))
  | or _ ih =>
    exact .connective connective_or rfl rfl (ih (honce.mono (List.subset_append_left ..)))
      (decides_eq (honce.mono (List.subset_append_right ..)))

/-- On a node with each key in one property set, the filter goes on exactly if the keys are found
in the order of the lookups and the formula is true. -/
theorem fepPasses_eq (he : e.Compares) (honce : e.KeysOnce db n) : e.fepPasses db n =
    (decide (Finds db.hasKey (e.keys.map Prod.snd) (db.propertySets n)) && e.nodeTruth db n) := by
  obtain ⟨hnone,hsome⟩ := he.decides honce ⟨fun _ => none,db.propertySets n⟩
    (List.suffix_refl _) fun k w hw => nomatch hw
  rw [FilterExpr.fepPasses]
  by_cases hfinds : Finds db.hasKey (e.keys.map Prod.snd) (db.propertySets n)
  · obtain ⟨st,heval,-⟩ := hsome hfinds
    simp [heval,hfinds]
  · simp [hnone hfinds,hfinds]

end Truth

/-- A compiled formula decides its truth on the nodes that have each of its keys in one property
set, in the order of the lookups; on others with each key at most once the filter is false. -/
theorem fepCode_truth (env : Env) (n : ℕ) (e : FilterExpr) (code : FepCode) (he : e.Formula)
    (h : e.fepCode env.db = some code) (honce : e.KeysOnce env.db n) : FepBranches env n code
      (decide (Finds env.db.hasKey (e.keys.map Prod.snd) (env.db.propertySets n)) &&
        e.nodeTruth env.db n) := by
  obtain ⟨code',hcode,hbranches⟩ := (he.compares h).fepBranches env n
  obtain rfl := Option.some.inj (h.symm.trans hcode)
  rw [← fepPasses_eq (he.compares h) honce]
  exact hbranches

theorem fepCode_truth_swapped : ∃ code, (keysAnd "age" "id").fepCode twoSetEnv.db = some code ∧
    (keysAnd "age" "id").nodeTruth twoSetEnv.db 0 = true ∧ FepBranches twoSetEnv 0 code false := by
  obtain ⟨code,hcode⟩ := keysAnd_compiles "age" "id" (by decide)
  exact ⟨code,hcode,by decide,
    fepCode_truth twoSetEnv 0 _ code (keysAnd_formula ..) hcode (by decide)⟩

end GraphQueryCompiler
