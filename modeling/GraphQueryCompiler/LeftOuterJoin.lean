import GraphQueryCompiler.ProbeLoop
import GraphQueryCompiler.SuffixRun
import GraphQueryCompiler.Lib.OuterLoop

/-!
# The left outer join

The dangling flag is set once for a left-hand tuple, cleared at the first match and tested
after every right-hand tuple: what is handed on is an `outerLoop`. It is an outer join only
for some right-hand lists.
-/

namespace GraphQueryCompiler
open StepMachine CodegenInlineVisitor LinkedChain OuterLoop

variable {env : Env} {pipe : ℕ} {ts : List ℕ} {S rhs : Plan} {pos : ℕ × ℕ} {opId jid n : ℕ}
  {j : JoinCtx} {t : List QrVal} {σ : State} {fn : Body} {v v' : CodegenInlineVisitor}

def Env.partners (env : Env) (pos n : ℕ) (r : List QrVal) : List ℕ :=
  (env.db.rships .FROM n).filter fun i => some (.node (env.db.rshipById i).destNode) = r[pos]?

def Env.pairs (env : Env) (pos n : ℕ) (R : List (List QrVal)) : List (List QrVal × ℕ) :=
  R.flatMap fun r => (env.partners pos n r).map fun i => (r,i)

/-- The rows handed on for the left-hand tuple `t`: one with flag 0 for every pair, and one
with flag 1 if and only if there is no pair. -/
structure IsOuterJoin (pairs : List (List QrVal × ℕ)) (t : List QrVal)
    (L : List (List QrVal)) : Prop where
  paired : (L.filter fun u => u.getLast? = some (.int 0)).Perm
    (pairs.map fun x => t ++ x.1 ++ [.int 0])
  dangling : (L.filter fun u => u.getLast? = some (.int 1)).length = if pairs = [] then 1 else 0
  flag : ∀ u ∈ L, u.getLast? = some (.int 0) ∨ u.getLast? = some (.int 1)

def Env.outerRows (env : Env) (pos n : ℕ) (t : List QrVal) (d : ℕ) (R : List (List QrVal)) :
    List (List QrVal) :=
  (outerLoop (fun r => (env.partners pos n r).length) d R).map fun x => t ++ x.1 ++ [.int x.2]

theorem filter_outerRows (d c : ℕ) (R : List (List QrVal)) :
    ((env.outerRows pos.2 n t d R).filter fun u => u.getLast? = some (.int c)) =
      ((outerLoop (fun r => (env.partners pos.2 n r).length) d R).filter fun x => x.2 = c).map
        fun x => t ++ x.1 ++ [.int x.2] := by
  simp [Env.outerRows,List.filter_map,Function.comp_def]

theorem pairs_eq_nil_iff (R : List (List QrVal)) :
    env.pairs pos.2 n R = [] ↔ ∀ r ∈ R, env.partners pos.2 n r = [] := by
  simp [Env.pairs]

theorem isOuterJoin_outerRows_iff (R : List (List QrVal)) :
    IsOuterJoin (env.pairs pos.2 n R) t (env.outerRows pos.2 n t 1 R) ↔
      ∃ r R', R = r :: R' ∧ (env.partners pos.2 n r ≠ [] ∨ R' = []) := by
  have hpaired : ((env.outerRows pos.2 n t 1 R).filter fun u => u.getLast? = some (.int 0)) =
      (env.pairs pos.2 n R).map fun x => t ++ x.1 ++ [.int 0] := by
    rw [filter_outerRows,filter_zero]
    simp [Env.pairs,List.map_flatMap,Function.comp_def]
  have hflag : ∀ u ∈ env.outerRows pos.2 n t 1 R,
      u.getLast? = some (.int 0) ∨ u.getLast? = some (.int 1) := by
    intro u hu
    obtain ⟨x,hx,rfl⟩ := List.mem_map.1 hu
    rcases flag_le_one _ _ x hx with h | h <;> simp [h]
  have hdangling : ((env.outerRows pos.2 n t 1 R).filter fun u =>
      u.getLast? = some (.int 1)).length = (if env.pairs pos.2 n R = [] then 1 else 0) ↔
      ∃ r R', R = r :: R' ∧ (env.partners pos.2 n r ≠ [] ∨ R' = []) := by
    have hcount := takeWhile_length_iff (m := fun r => (env.partners pos.2 n r).length) R
    rw [filter_outerRows,List.length_map,length_filter_one,if_pos rfl]
    simp only [pairs_eq_nil_iff]
    simpa only [List.length_eq_zero_iff,ne_eq] using hcount
  exact ⟨fun h => hdangling.1 h.dangling,fun h => ⟨.of_eq hpaired,hdangling.2 h,hflag⟩⟩

structure OuterAt (sh₀ : Shared) (max c d : ℕ) (done : List (List QrVal)) (sh : Shared) :
    Prop where
  curIdx : sh.cell .curIdx = .word c
  maxIdx : sh.cell .maxIdx = .word max
  dangling : sh.cell .dangling = .word d
  rhsInput : sh.rhsInput = sh₀.rhsInput
  trace : sh.trace = sh₀.trace ++ done.map .collect

namespace OuterAt
variable {sh₀ sh : Shared} {max c d : ℕ} {done : List (List QrVal)}

theorem setDangling (h : OuterAt sh₀ max c d done sh) (d' : ℕ) :
    OuterAt sh₀ max c d' done (sh.set .dangling (.word d')) :=
  ⟨by simpa [Shared.set] using h.curIdx,by simpa [Shared.set] using h.maxIdx,by simp [Shared.set],
    h.rhsInput,h.trace⟩

theorem setCurIdx (h : OuterAt sh₀ max c d done sh) (c' : ℕ) :
    OuterAt sh₀ max c' d done (sh.set .curIdx (.word c')) :=
  ⟨by simp [Shared.set],by simpa [Shared.set] using h.maxIdx,by simpa [Shared.set] using h.dangling,
    h.rhsInput,h.trace⟩

end OuterAt

structure Behind (ts : List ℕ) (S : Plan) (j : JoinCtx) : Prop where
  chain : Plan.Chain ts S
  joinFree : S.JoinFree
  sink : S.sink j = some .result

section Loop
variable {sh₀ sh : Shared} {max c d b : ℕ} {done : List (List QrVal)} {r : List QrVal}
  (hS : Behind (ts ++ rhs.rhsType ++ [7]) S j) (ht : Typed ts t) (hts : ∀ type ∈ ts, type ≤ 1)
  (hr : Typed rhs.rhsType r)
include hS ht hts hr

theorem OuterAt.row (h : OuterAt sh₀ max c d done sh) :
    ∃ sh₁, Exec env pipe (.run S opId j (t.map (QrVal.toReg pipe) ++ r.map (QrVal.toReg pipe) ++
        [(.cell ⟨pipe,.dangling⟩,7)])) sh .backflow sh₁ ∧
      OuterAt sh₀ max c d (done ++ S.rows env opId (t ++ r ++ [.int d])) sh₁ := by
  have htype : Typed (ts ++ rhs.rhsType ++ [7]) (t ++ r ++ [.int d]) :=
    List.rel_append (List.rel_append ht hr) (.cons (.flag d) .nil)
  have hflag : FlagOk S .result sh (t ++ r ++ [.int d]) := by
    intro d' hd'
    simp only [List.mem_append,List.mem_singleton] at hd'
    rcases hd' with (hd' | hd') | hd'
    · exact absurd hd' (ht.no_flag hts d')
    · exact absurd hd' (hr.no_flag rhs.rhsType_le d')
    · obtain rfl := QrVal.int.inj hd'
      exact ⟨rfl,hS.joinFree,h.dangling⟩
  obtain ⟨sh₁,hexec,hafter⟩ := hS.chain.exec
    hS.sink (fun _ _ => ⟨rfl,by simp⟩) hS.joinFree.listsTyped htype hflag
  rw [hS.chain.probed_joinFree hS.joinFree] at hafter
  have hcell := hafter.kept rfl
  refine ⟨sh₁,by simpa [QrVal.toReg] using hexec,by rw [hcell]; exact h.curIdx,
    by rw [hcell]; exact h.maxIdx,by rw [hcell]; exact h.dangling,?_,?_⟩
  · rw [hafter.rhsInput,← h.rhsInput]
    simp [Shared.deliver,Sink.added]
  · rw [hafter.trace]
    simp [Shared.deliver,Sink.event,h.trace]

theorem OuterAt.rships {i : ℕ} {l : List ℕ} {Q : Shared → Prop}
    (hchain : IsChain (fun i => (env.db.rshipById i).nextSrcRship) unknownId IsId i l) :
    ∀ {d done sh}, OuterAt sh₀ max c d done sh →
    (∀ sh₁, OuterAt sh₀ max c (if l.any fun i => (env.db.rshipById i).destNode = b then 0 else d)
      (done ++ ((l.filter fun i => (env.db.rshipById i).destNode = b).flatMap fun _ =>
        S.rows env opId (t ++ r ++ [.int 0]))) sh₁ →
      ∃ sh', Exec env pipe (.leftRships pos jid rhs.rhsType r b unknownId S opId j
        (t.map (QrVal.toReg pipe))) sh₁ .backflow sh' ∧ Q sh') →
    ∃ sh', Exec env pipe (.leftRships pos jid rhs.rhsType r b i S opId j
      (t.map (QrVal.toReg pipe))) sh .backflow sh' ∧ Q sh' := by
  induction hchain with
  | nil =>
    intro d done sh h hend
    exact hend sh (by simpa using h)
  | @cons i l hi _ ih =>
    intro d done sh h hend
    by_cases hdest : (env.db.rshipById i).destNode = b
    · obtain ⟨sh₁,hrow,h₁⟩ := (h.setDangling 0).row hS ht hts hr
      obtain ⟨sh',hrest,hQ⟩ := ih h₁ fun sh₂ h₂ => hend sh₂ (by simpa [hdest] using h₂)
      exact ⟨sh',.leftHit hi hdest (readRes_toReg hr rhs.rhsType_le) hrow hrest,hQ⟩
    · obtain ⟨sh',hrest,hQ⟩ := ih h fun sh₂ h₂ => hend sh₂ (by simpa [hdest] using h₂)
      exact ⟨sh',.leftSkip hi hdest hrest,hQ⟩

end Loop

theorem partners_eq {r : List QrVal} {b : ℕ} (hb : r[pos.2]? = some (.node b)) :
    env.partners pos.2 n r =
      (env.db.rships .FROM n).filter fun i => (env.db.rshipById i).destNode = b := by
  simp [Env.partners,hb]

theorem outerRows_cons (d : ℕ) (r : List QrVal) (R : List (List QrVal)) :
    env.outerRows pos.2 n t d (r :: R) =
      (env.partners pos.2 n r).map (fun _ => t ++ r ++ [.int 0]) ++
        ((if env.partners pos.2 n r = [] ∧ d = 1 then [t ++ r ++ [.int 1]] else []) ++
          env.outerRows pos.2 n t (if env.partners pos.2 n r = [] then d else 0) R) := by
  simp only [Env.outerRows,outerLoop,List.map_append,List.map_replicate,List.map_const',
    List.length_eq_zero_iff]
  congr 2
  split_ifs <;> rfl

theorem OuterAt.probe {sh₀ : Shared} {R : List (List QrVal)}
    (hS : Behind (ts ++ rhs.rhsType ++ [7]) S j) (ht : Typed ts t)
    (hts : ∀ type ∈ ts, type ≤ 1) (hR : ∀ r ∈ R, Typed rhs.rhsType r)
    (hlhs : t[pos.1]? = some (.node n)) (hrhs : rhs.rhsType[pos.2]? = some 0)
    (hinput : sh₀.rhsInput jid = R) :
    ∀ (rs : List (List QrVal)) {c d : ℕ} {done : List (List QrVal)} {sh : Shared},
      R.drop c = rs → c ≤ R.length → OuterAt sh₀ R.length c d done sh →
      ∃ sh', Exec env pipe (.probe .LEFT_OUTER pos jid rhs.rhsType S opId j
          (t.map (QrVal.toReg pipe))) sh .backflow sh' ∧
        sh'.trace = sh₀.trace ++ (done ++ (env.outerRows pos.2 n t d rs).flatMap fun u =>
          S.rows env opId u).map .collect := by
  intro rs
  induction rs with
  | nil =>
    intro c d done sh hdrop hle h
    have hlen := List.drop_eq_nil_iff.1 hdrop
    exact ⟨sh,.probeDone h.curIdx h.maxIdx hlen,by simp [Env.outerRows,outerLoop,h.trace]⟩
  | cons r rs ih =>
    intro c d done sh hdrop hle h
    have hget : R[c]? = some r := by rw [← List.head?_drop,hdrop,List.head?_cons]
    have hlt : c < R.length := (List.getElem?_eq_some_iff.1 hget).1
    have hdrop' : R.drop (c+1) = rs := by rw [← List.tail_drop,hdrop,List.tail_cons]
    have hr := hR r (List.mem_of_getElem? hget)
    obtain ⟨b,hb⟩ := hr.node hrhs
    have hreg : (t.map (QrVal.toReg pipe))[pos.1]? = some (.node n,0) := by
      simp [hlhs,QrVal.toReg]
    have hpartners : env.partners pos.2 n r = _ := partners_eq hb
    have hany : ((env.db.rships .FROM n).any fun i => (env.db.rshipById i).destNode = b) =
        decide (env.partners pos.2 n r ≠ []) := by
      rw [hpartners]
      simp [List.any_eq]
    obtain ⟨sh',hexec,htrace⟩ := h.rships
      hS ht hts hr (env.db.rships_chain .FROM n) (Q := fun sh' =>
        sh'.trace = sh₀.trace ++ (done ++ (env.outerRows pos.2 n t d (r :: rs)).flatMap fun u =>
          S.rows env opId u).map .collect) (by
      intro sh₁ h₁
      rw [hany,← hpartners] at h₁
      rw [outerRows_cons]
      by_cases hnone : env.partners pos.2 n r = []
      · by_cases hd : d = 1
        · -- nothing has matched so far: the tuple is handed on with the flag
          subst hd
          simp only [hnone,ne_eq,not_true_eq_false,decide_false,Bool.false_eq_true,if_false,
            List.flatMap_nil,List.append_nil] at h₁
          obtain ⟨sh₂,hrow,h₂⟩ := (h₁.setCurIdx (c+1)).row hS ht hts hr
          obtain ⟨sh₃,hprobe,htrace⟩ := ih hdrop' hlt h₂
          refine ⟨sh₃,.leftDangling h₁.curIdx h₁.dangling (readRes_toReg hr rhs.rhsType_le) hrow
            hprobe,?_⟩
          rw [htrace]
          simp [hnone]
        · simp only [hnone,ne_eq,not_true_eq_false,decide_false,Bool.false_eq_true,if_false,
            List.flatMap_nil,List.append_nil] at h₁
          obtain ⟨sh₂,hprobe,htrace⟩ := ih hdrop' hlt (h₁.setCurIdx (c+1))
          refine ⟨sh₂,.leftDone h₁.curIdx h₁.dangling hd hprobe,?_⟩
          rw [htrace]
          simp [hnone,hd]
      · simp only [hnone,ne_eq,not_false_eq_true,decide_true,if_true] at h₁
        obtain ⟨sh₂,hprobe,htrace⟩ := ih hdrop' hlt (h₁.setCurIdx (c+1))
        refine ⟨sh₂,.leftDone h₁.curIdx h₁.dangling (by simp) hprobe,?_⟩
        rw [htrace]
        simp only [hnone,false_and,if_false,List.nil_append,List.flatMap_append,List.flatMap_map,
          List.append_assoc])
    have hget' : (sh.rhsInput jid)[c]? = some r := by rw [h.rhsInput,hinput,hget]
    exact ⟨sh',.probeLeft h.curIdx h.maxIdx hlt hget' hb hreg hexec,htrace⟩

structure AtLeftOuter (env : Env) (v : CodegenInlineVisitor) (ts : List ℕ) (pos : ℕ × ℕ)
    (rhs : Plan) (opId : ℕ) (t : List QrVal) (n : ℕ) (σ : State) : Prop where
  inPipeline : InPipeline env v (t.map (QrVal.toReg v.scan)) σ
  types : ∀ type ∈ ts, type ≤ 1
  typed : Typed ts t
  path : rhs.AccessPath
  list : ∀ r ∈ σ.rhsInput v.queryIdInline, Typed rhs.rhsType r
  lhsNode : t[pos.1]? = some (.node n)
  rhsNode : rhs.rhsType[pos.2]? = some 0
  gen : ∃ r, (Plan.join .LEFT_OUTER pos (.collect false) rhs).codegen
    (codegenInlineVisitor env.db) opId true v = some r

/-- The operators behind the join, whichever these are, run for the rows of an outer join. -/
def JoinsOuter (env : Env) (v : CodegenInlineVisitor) (ts : List ℕ) (pos : ℕ × ℕ) (rhs : Plan)
    (opId : ℕ) (t : List QrVal) (n : ℕ) (σ : State) : Prop :=
  ∃ L, IsOuterJoin (env.pairs pos.2 n (σ.rhsInput v.queryIdInline)) t L ∧
    ∀ S : Plan, Behind (ts ++ rhs.rhsType ++ [7]) S v.joinCtx.push →
    ∀ fn v' opId', (Plan.join .LEFT_OUTER pos S rhs).codegen (codegenInlineVisitor env.db) opId
      true v = some (v',opId') → Agrees fn v v' →
    Emits env fn v (.join .LEFT_OUTER pos S rhs) σ
      (σ.trace ++ (L.flatMap fun u => S.rows env opId u).map .collect)

theorem AtLeftOuter.emits {opId' : ℕ} (h : AtLeftOuter env v ts pos rhs opId t n σ)
    (hS : Behind (ts ++ rhs.rhsType ++ [7]) S v.joinCtx.push)
    (hgen : (Plan.join .LEFT_OUTER pos S rhs).codegen (codegenInlineVisitor env.db) opId true v =
      some (v',opId')) (ha : Agrees fn v v') :
    Emits env fn v (.join .LEFT_OUTER pos S rhs) σ (σ.trace ++
      ((env.outerRows pos.2 n t 1 (σ.rhsInput v.queryIdInline)).flatMap fun u =>
        S.rows env opId u).map .collect) := by
  have hat : OuterAt (σ.shared v.scan) (σ.rhsInput v.queryIdInline).length 0 1 []
      ((σ.shared v.scan).enterJoin v.queryIdInline) :=
    ⟨by simp [Shared.enterJoin,Shared.set],by simp [Shared.enterJoin,Shared.set,State.shared],
      by simp [Shared.enterJoin,Shared.set],rfl,by simp [Shared.enterJoin,Shared.set]⟩
  obtain ⟨sh',hexec,htrace⟩ := OuterAt.probe
    hS h.typed h.types h.list h.lhsNode h.rhsNode rfl
    (σ.rhsInput v.queryIdInline) (by simp) (by simp) hat
  have hsuffix : (Plan.join .LEFT_OUTER pos S rhs).Suffix := ⟨rfl,hS.chain.suffix,h.path⟩
  have hemits := Exec.emits h.inPipeline hsuffix hgen ha (.join hexec)
  rw [htrace,List.nil_append] at hemits
  exact hemits

theorem JoinsOuter.outerRows (hj : JoinsOuter env v ts pos rhs opId t n σ)
    (h : AtLeftOuter env v ts pos rhs opId t n σ) :
    IsOuterJoin (env.pairs pos.2 n (σ.rhsInput v.queryIdInline)) t
      (env.outerRows pos.2 n t 1 (σ.rhsInput v.queryIdInline)) := by
  obtain ⟨L,hL,hall⟩ := hj
  obtain ⟨⟨v',opId'⟩,hgen⟩ := h.gen
  have hS : Behind (ts ++ rhs.rhsType ++ [7]) (.collect false) v.joinCtx.push :=
    ⟨.collect,trivial,rfl⟩
  have hreal := h.emits hS hgen (fun _ _ _ => rfl)
  have hclaim := hall _ hS v'.code.body v' opId' hgen (fun _ _ _ => rfl)
  have htrace := List.append_cancel_left (hreal.unique hclaim)
  have hrows := List.map_injective_iff.2 (fun _ _ => Event.collect.inj) htrace
  simp only [Plan.rows,List.flatMap_singleton'] at hrows
  rwa [hrows]

/-- The join is an outer join exactly if its list is not empty and the first tuple has a pair
or is the only one. -/
theorem joinsOuter_iff (h : AtLeftOuter env v ts pos rhs opId t n σ) :
    JoinsOuter env v ts pos rhs opId t n σ ↔ ∃ r R', σ.rhsInput v.queryIdInline = r :: R' ∧
      (env.partners pos.2 n r ≠ [] ∨ R' = []) := by
  rw [← isOuterJoin_outerRows_iff (t := t)]
  exact ⟨fun hj => hj.outerRows h,fun hL => ⟨_,hL,fun S hS fn v' opId' hgen ha =>
    h.emits hS hgen ha⟩⟩

theorem atLeftOuter_scanned {list : List (List QrVal)} (h : ∀ r ∈ list, Typed [0] r) :
    AtLeftOuter (pairEnv fun _ => "Person") (afterScan (.collect false)) [0] (0,0)
      (.scan "Person" false .endOp) 2 [.node 0] 0 (scannedState fun _ => list) where
  inPipeline := inPipeline_afterScan _ _ _
  types := by simp
  typed := typed_node 0
  path := ⟨rfl,rfl⟩
  list := h
  lhsNode := rfl
  rhsNode := rfl
  gen := ⟨_,rfl⟩

theorem joinsOuter_scanned : JoinsOuter (pairEnv fun _ => "Person") (afterScan (.collect false))
    [0] (0,0) (.scan "Person" false .endOp) 2 [.node 0] 0
    (scannedState fun _ => [[.node 1],[.node 0]]) := by
  have htyped : ∀ r ∈ [[QrVal.node 1],[QrVal.node 0]], Typed [0] r := typed_nodes [1,0]
  exact (joinsOuter_iff (atLeftOuter_scanned htyped)).2 ⟨_,_,rfl,Or.inl (by decide)⟩

/-- In the other order, a row with flag 1 comes first. -/
theorem not_joinsOuter_scanned : ¬ JoinsOuter (pairEnv fun _ => "Person")
    (afterScan (.collect false)) [0] (0,0) (.scan "Person" false .endOp) 2 [.node 0] 0
    (scannedState fun _ => [[.node 0],[.node 1]]) := by
  have htyped : ∀ r ∈ [[QrVal.node 0],[QrVal.node 1]], Typed [0] r := typed_nodes [0,1]
  intro h
  have hdangling := (h.outerRows (atLeftOuter_scanned htyped)).dangling
  revert hdangling
  decide

end GraphQueryCompiler
