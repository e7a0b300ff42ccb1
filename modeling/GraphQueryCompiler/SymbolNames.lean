import GraphQueryCompiler.QOperator
import GraphQueryCompiler.Lib.NumberedName

/-!
# The symbols a compilation defines

The external functions of the module of a query are named after the text its
`qid_generator` makes of the plan and the number of the compilation. The start function of a
`Create` is the exception.
-/

namespace GraphQueryCompiler
open NumberedName

def Plan.qidLetter : Plan → String
  | .scan .. => "S"
  | .foreachRship .. => "4"
  | .project .. => "P"
  | .expand .. => "E"
  | .filter .. => "F"
  | .collect .. => "C"
  | .join .. => "J"
  | .sort .. => "S"
  | .limit .. => "L"
  | .endOp => "N"
  | .create .. => "A"

def qidGenerator : OpVisitor String where
  visit op _ qid := some (qid ++ op.qidLetter)

/-- The names in a module while `codegen_inline_visitor` fills it: `name_` of the access path,
the symbol of its main function, its external functions, and `gen_funcs` of the context. -/
structure ModuleNames where
  startName : String
  mainFunction : Option String
  functions : List String
  genFuncs : List String
  deriving DecidableEq

/-- The symbol of a new function. The module appends a number to a name that is taken. -/
def ModuleNames.symbol (lastUnique : List String → ℕ) (m : ModuleNames) (name : String) : String :=
  if name ∈ m.functions then name ++ "." ++ toString (lastUnique m.functions) else name

def ModuleNames.add (lastUnique : List String → ℕ) (m : ModuleNames) (name : String) :
    ModuleNames :=
  { m with functions := m.functions ++ [m.symbol lastUnique name] }

def ModuleNames.addMain (lastUnique : List String → ℕ) (m : ModuleNames) (qid name : String) :
    ModuleNames :=
  let m := m.add lastUnique ("default_finish_" ++ qid)
  { m.add lastUnique name with startName := name, mainFunction := some (m.symbol lastUnique name) }

/-- The function name of the first `Scan`: `name_` with the first number that makes it new. -/
def funcName (genFuncs : List String) (name : String) : String :=
  search genFuncs name genFuncs.length 0

/-- What the visits of `codegen_inline_visitor` do to the names of a module, for a first access
path with this `name_`. `Sort` adds a function of its own, the others add blocks to the main
function. -/
def namesVisitor (lastUnique : List String → ℕ) (qid name : String) : OpVisitor ModuleNames where
  visit op _ m :=
    match op, m.mainFunction with
    | .scan .., none =>
      let start := funcName m.genFuncs name ++ qid
      some { m.addMain lastUnique qid start with genFuncs := m.genFuncs ++ [start] }
    | .scan .., some _ => some { m with genFuncs := m.genFuncs ++ [""] }
    | .create .., none => some (m.addMain lastUnique qid "query_start")
    | .sort .., _ => some (m.add lastUnique ("sort_finish_" ++ qid))
    | _, some _ => some m
    | _, none => none

structure Compilation where
  plan : Plan
  name : String
  genFuncs : List String

/-- The first two steps of `compile_task` in compilation number `query_cnt`. -/
def Compilation.module (lastUnique : List String → ℕ) (s : Compilation) (queryCnt : ℕ) :
    Option ModuleNames := do
  let (shape,_) ← s.plan.codegen qidGenerator 1 true ""
  let names := namesVisitor lastUnique (shape ++ toString queryCnt) s.name
  let (m,_) ← s.plan.codegen names 1 true ⟨"",none,[],s.genFuncs⟩
  return m

def compileAll (lastUnique : List String → ℕ) : ℕ → List Compilation → Option (List (List String))
  | _, [] => some []
  | queryCnt, s :: ss => do
    let m ← s.module lastUnique queryCnt
    let rest ← compileAll lastUnique (queryCnt+1) ss
    return m.functions :: rest

/-- The functions that `p_jit` defines in `Main` before any module. -/
def hostFunctions : List String :=
  ["vec_end_reached","get_vec_begin","get_vec_next","dict_lookup_label","gdb_get_nodes",
    "node_by_id","get_node_from_it","gdb_get_rships","get_rship_from_it","get_vec_begin_r",
    "get_vec_next_r","vec_end_reached_r","rship_by_id","gdb_get_dcode","pset_get_item_at",
    "get_tx","get_valid_node","apply_pexpr","dict_lookup_dcode","create_node","create_ship",
    "foreach_variable_from","mat_reg_value","collect_tuple","obtain_mat_tuple","mat_node",
    "mat_rship","collect_tuple_join","get_join_tp_at","get_node_res_at","get_rship_res_at",
    "get_mat_res_size","index_get_node","apply_pexpr_node","apply_pexpr_rship",
    "retrieve_fev_queue","insert_fev_rship","foreach_from_variable_rship",
    "get_next_rship_fev","fev_list_end"]

namespace Plan

def isCreate : Plan → Bool
  | .create .. => true
  | _ => false

def shape (p : Plan) : String :=
  match p with
  | .scan _ _ inp => p.qidLetter ++ inp.shape
  | .foreachRship _ _ _ inp => p.qidLetter ++ inp.shape
  | .expand _ _ inp => p.qidLetter ++ inp.shape
  | .filter _ inp => p.qidLetter ++ inp.shape
  | .project _ inp => p.qidLetter ++ inp.shape
  | .join _ _ lhs rhs => p.qidLetter ++ lhs.shape ++ rhs.shape
  | .sort _ inp => p.qidLetter ++ inp.shape
  | .limit _ inp => p.qidLetter ++ inp.shape
  | .create _ _ inp => p.qidLetter ++ inp.shape
  | .collect _ => p.qidLetter
  | .endOp => p.qidLetter

theorem qidGenerator_visit {op : Plan} {opId : ℕ} {s : String} :
    qidGenerator.visit op opId s = some (s ++ op.qidLetter) := rfl

theorem codegen_qidGenerator (p : Plan) : ∀ {opId : ℕ} {s : String},
    p.codegen qidGenerator opId true s = some (s ++ p.shape,p.opIdEnd opId) := by
  induction p with
  | join jop pos lhs rhs ihl ihr =>
    intro opId s
    simp only [codegen,qidGenerator_visit,if_true,Option.bind_eq_bind,Option.bind_some]
    rw [ihl,Option.bind_some,ihr,shape,opIdEnd]
    simp only [String.append_assoc]
  | collect | endOp => exact rfl
  | _ _ _ =>
    rename_i ih
    intro opId s
    rw [codegen_input rfl,qidGenerator_visit,Option.bind_some,ih,String.append_assoc]
    rfl

end Plan

def EndsLeaf (s : String) : Prop := ∃ l, s.toList = l ++ ['C'] ∨ s.toList = l ++ ['N']

def Numbered (cnt : ℕ) (name : String) : Prop :=
  ∃ pre, EndsLeaf pre ∧
    (name = pre ++ toString cnt ∨ ∃ k : ℕ, name = pre ++ toString cnt ++ "." ++ toString k)

section Names
variable {s t name qid : String} {cnt m n k : ℕ} {lastUnique : List String → ℕ}

theorem EndsLeaf.closed (h : EndsLeaf s) : Closed s := by
  obtain ⟨l,h | h⟩ := h
  · exact ⟨l,'C',h,by decide⟩
  · exact ⟨l,'N',h,by decide⟩

theorem EndsLeaf.append (h : EndsLeaf t) (s : String) : EndsLeaf (s ++ t) := by
  obtain ⟨l,h⟩ := h
  refine ⟨s.toList ++ l,?_⟩
  simpa [String.toList_append] using h

theorem closed_append_dot : Closed (s ++ ".") := Closed.append ⟨[],'.',rfl,by decide⟩ s

theorem not_endsLeaf_append_dot : ¬ EndsLeaf (s ++ ".") := by
  rintro ⟨l,h | h⟩ <;>
  · rw [String.toList_append] at h
    obtain ⟨_,h⟩ := List.append_inj' h rfl
    exact absurd h (by decide)

theorem Numbered.unique (h : Numbered m s) (h' : Numbered n s) : m = n := by
  obtain ⟨pre,hpre,rfl | ⟨k,rfl⟩⟩ := h
  · obtain ⟨pre',hpre',heq | ⟨k',heq⟩⟩ := h'
    · exact (append_toString_inj hpre.closed hpre'.closed heq).2
    · obtain ⟨rfl,_⟩ := append_toString_inj hpre.closed closed_append_dot heq
      exact absurd hpre not_endsLeaf_append_dot
  · obtain ⟨pre',hpre',heq | ⟨k',heq⟩⟩ := h'
    · obtain ⟨rfl,_⟩ := append_toString_inj closed_append_dot hpre'.closed heq
      exact absurd hpre' not_endsLeaf_append_dot
    · obtain ⟨hdot,_⟩ := append_toString_inj closed_append_dot closed_append_dot heq
      exact (append_toString_inj hpre.closed hpre'.closed (String.append_left_inj _ |>.1 hdot)).2

theorem not_numbered_of_closed (h : Closed s) : ¬ Numbered n s := by
  rintro ⟨pre,_,rfl | ⟨k,rfl⟩⟩
  · exact not_closed_append_toString h
  · exact not_closed_append_toString h

theorem Plan.endsLeaf_shape (p : Plan) : EndsLeaf p.shape := by
  induction p with
  | join jop pos lhs rhs _ ihr => exact ihr.append _
  | collect => exact ⟨[],.inl (by simp [shape,qidLetter])⟩
  | endOp => exact ⟨[],.inr (by simp [shape,qidLetter])⟩
  | _ _ _ =>
    rename_i ih
    exact ih.append _

theorem numbered_symbol {mn : ModuleNames} (h : EndsLeaf s) :
    Numbered cnt (mn.symbol lastUnique (s ++ toString cnt)) := by
  refine ⟨s,h,?_⟩
  unfold ModuleNames.symbol
  split_ifs
  · exact .inr ⟨_,rfl⟩
  · exact .inl rfl

end Names

section Module
variable {lastUnique : List String → ℕ} {shape name f : String} {cnt : ℕ} {mn mn' : ModuleNames}

structure Grown (cnt : ℕ) (mn mn' : ModuleNames) : Prop where
  startName : mn'.startName = mn.startName
  functions : ∃ fs, mn'.functions = mn.functions ++ fs ∧ ∀ x ∈ fs, Numbered cnt x

theorem Grown.refl : Grown cnt mn mn := ⟨rfl,[],by simp,by simp⟩

theorem Grown.trans (mn₁ mn₂ mn₃ : ModuleNames) (h : Grown cnt mn₁ mn₂) (h' : Grown cnt mn₂ mn₃) :
    Grown cnt mn₁ mn₃ := by
  obtain ⟨hstart,fs,hfs,hall⟩ := h
  obtain ⟨hstart',fs',hfs',hall'⟩ := h'
  refine ⟨hstart'.trans hstart,fs ++ fs',?_,List.forall_mem_append.2 ⟨hall,hall'⟩⟩
  rw [hfs',hfs,List.append_assoc]

theorem visit_grown (hshape : EndsLeaf shape) (op : Plan) (opId : ℕ) (mn : ModuleNames)
    (hmain : mn.mainFunction = some f) :
    ∃ mn', (namesVisitor lastUnique (shape ++ toString cnt) name).visit op opId mn = some mn' ∧
      mn'.mainFunction = some f ∧ Grown cnt mn mn' := by
  cases op with
  | scan =>
    exact ⟨{ mn with genFuncs := mn.genFuncs ++ [""] },by simp [namesVisitor,hmain],hmain,
      rfl,[],by simp,by simp⟩
  | sort =>
    refine ⟨_,rfl,hmain,rfl,_,rfl,?_⟩
    rw [List.forall_mem_singleton,← String.append_assoc]
    exact numbered_symbol (hshape.append _)
  | _ => exact ⟨mn,by simp [namesVisitor,hmain],hmain,.refl⟩

theorem codegen_grown (hshape : EndsLeaf shape) (p : Plan) (opId : ℕ)
    (hmain : mn.mainFunction = some f) :
    ∃ mn', p.codegen (namesVisitor lastUnique (shape ++ toString cnt) name) opId true mn =
      some (mn',p.opIdEnd opId) ∧ mn'.mainFunction = some f ∧ Grown cnt mn mn' :=
  p.codegen_total Grown.trans (visit_grown hshape) opId mn hmain

def Plan.isAccess : Plan → Bool
  | .scan .. => true
  | .create .. => true
  | _ => false

def Compilation.startName (s : Compilation) (qid : String) : String :=
  if s.plan.isCreate then "query_start" else funcName s.genFuncs s.name ++ qid

def mainSymbol (lastUnique : List String → ℕ) (qid name : String) : String :=
  if name = "default_finish_" ++ qid then
    name ++ "." ++ toString (lastUnique ["default_finish_" ++ qid])
  else name

theorem Compilation.visit_access (lastUnique : List String → ℕ) (qid : String) (s : Compilation)
    (hs : s.plan.isAccess = true) :
    ∃ mn, (namesVisitor lastUnique qid s.name).visit s.plan 1 ⟨"",none,[],s.genFuncs⟩ = some mn ∧
      mn.startName = s.startName qid ∧
      mn.mainFunction = some (mainSymbol lastUnique qid (s.startName qid)) ∧
      mn.functions = ["default_finish_" ++ qid,mainSymbol lastUnique qid (s.startName qid)] := by
  obtain ⟨p,name,genFuncs⟩ := s
  cases p with
  | scan | create =>
    simp [namesVisitor,ModuleNames.addMain,ModuleNames.add,ModuleNames.symbol,mainSymbol,
      startName,Plan.isCreate]
  | _ => simp [Plan.isAccess] at hs

/-- The functions of a module belong to the compilation, up to the start function of a
`Create`. -/
structure Defines (cnt : ℕ) (p : Plan) (functions : List String) : Prop where
  numbered : ∀ x ∈ functions, Numbered cnt x ∨ x = "query_start" ∧ p.isCreate = true
  queryStart : p.isCreate = true → "query_start" ∈ functions

theorem closed_queryStart : Closed "query_start" :=
  ⟨"query_star".toList,'t',by decide,by decide⟩

theorem mainSymbol_queryStart (hshape : EndsLeaf shape) :
    mainSymbol lastUnique (shape ++ toString cnt) "query_start" = "query_start" := by
  refine if_neg fun h => not_numbered_of_closed (n := cnt) closed_queryStart ?_
  refine ⟨"default_finish_" ++ shape,hshape.append _,.inl ?_⟩
  rw [h,String.append_assoc]

theorem numbered_mainSymbol (hshape : EndsLeaf shape) : Numbered cnt
    (mainSymbol lastUnique (shape ++ toString cnt) (name ++ (shape ++ toString cnt))) := by
  refine ⟨name ++ shape,hshape.append _,?_⟩
  rw [← String.append_assoc,mainSymbol]
  split_ifs
  · exact .inr ⟨_,rfl⟩
  · exact .inl rfl

theorem Compilation.module_eq (s : Compilation) : s.module lastUnique cnt =
    (s.plan.codegen (namesVisitor lastUnique (s.plan.shape ++ toString cnt) s.name) 1 true
      ⟨"",none,[],s.genFuncs⟩).map Prod.fst := by
  simp only [module,s.plan.codegen_qidGenerator,Option.bind_eq_bind,Option.bind_some,
    String.empty_append]
  rw [Option.map_eq_bind]
  rfl

theorem Compilation.module_names (lastUnique : List String → ℕ) (s : Compilation) (cnt : ℕ)
    (hs : s.plan.isAccess = true) : ∃ m fs, s.module lastUnique cnt = some m ∧
      m.startName = s.startName (s.plan.shape ++ toString cnt) ∧
      m.mainFunction = some (mainSymbol lastUnique (s.plan.shape ++ toString cnt) m.startName) ∧
      m.functions = ["default_finish_" ++ (s.plan.shape ++ toString cnt),
        mainSymbol lastUnique (s.plan.shape ++ toString cnt) m.startName] ++ fs ∧
      ∀ x ∈ fs, Numbered cnt x := by
  obtain ⟨mn,hvisit,hstart₁,hmain₁,hfs₁⟩ :=
    s.visit_access lastUnique (s.plan.shape ++ toString cnt) hs
  obtain ⟨inp,hin⟩ : ∃ inp, s.plan.input = some inp := by
    cases h : s.plan <;> simp_all [Plan.isAccess,Plan.input]
  obtain ⟨m,hrest,hmain,hstart,fs,hfs,hnum⟩ := codegen_grown s.plan.endsLeaf_shape inp
    (1 + s.plan.nextOffset) hmain₁
  refine ⟨m,fs,?_,hstart.trans hstart₁,?_,?_,hnum⟩
  · rw [module_eq,Plan.codegen_input hin,hvisit,Option.bind_some,hrest]
    rfl
  · rw [hmain,hstart,hstart₁]
  · rw [hfs,hfs₁,hstart,hstart₁]

theorem Compilation.module_defines (lastUnique : List String → ℕ) (s : Compilation) (cnt : ℕ)
    (hs : s.plan.isAccess = true) :
    ∃ m, s.module lastUnique cnt = some m ∧ Defines cnt s.plan m.functions := by
  have hshape := s.plan.endsLeaf_shape
  obtain ⟨m,fs,hm,hstart,_,hfs,hnum⟩ := s.module_names lastUnique cnt hs
  have hfin : Numbered cnt ("default_finish_" ++ (s.plan.shape ++ toString cnt)) :=
    ⟨_,hshape.append _,.inl (String.append_assoc ..).symm⟩
  have hmain : Numbered cnt (mainSymbol lastUnique (s.plan.shape ++ toString cnt) m.startName) ∧
      s.plan.isCreate = false ∨ mainSymbol lastUnique (s.plan.shape ++ toString cnt) m.startName =
        "query_start" ∧ s.plan.isCreate = true := by
    rw [hstart,startName]
    cases s.plan.isCreate with
    | true => exact .inr ⟨mainSymbol_queryStart hshape,rfl⟩
    | false => exact .inl ⟨numbered_mainSymbol hshape,rfl⟩
  refine ⟨m,hm,?_,fun hc => ?_⟩
  · rw [hfs,List.forall_mem_append,List.forall_mem_cons,List.forall_mem_singleton]
    exact ⟨⟨.inl hfin,hmain.imp_left And.left⟩,fun x hx => .inl (hnum x hx)⟩
  · obtain ⟨hsym,_⟩ := hmain.resolve_left fun ⟨_,h⟩ => by simp [hc] at h
    rw [hfs,hsym]
    simp

theorem Defines.disjoint {m n : ℕ} {p q : Plan} {l l' : List String} (hne : m ≠ n)
    (h : Defines m p l) (h' : Defines n q l') :
    l.Disjoint l' ↔ ¬ (p.isCreate = true ∧ q.isCreate = true) := by
  refine ⟨fun hd ⟨hp,hq⟩ => hd (h.queryStart hp) (h'.queryStart hq),fun hc x hx hx' => ?_⟩
  rcases h.numbered x hx with hnum | ⟨rfl,hp⟩
  · rcases h'.numbered x hx' with hnum' | ⟨rfl,_⟩
    · exact hne (hnum.unique hnum')
    · exact not_numbered_of_closed closed_queryStart hnum
  · rcases h'.numbered _ hx' with hnum' | ⟨_,hq⟩
    · exact not_numbered_of_closed closed_queryStart hnum'
    · exact hc ⟨hp,hq⟩

theorem forall_iff_of_forall₂ {α β : Type*} {R : α → β → Prop} {P : α → Prop} {Q : β → Prop}
    {as : List α} {bs : List β} (h : List.Forall₂ R as bs) (hR : ∀ a b, R a b → (Q b ↔ P a)) :
    (∀ b ∈ bs, Q b) ↔ ∀ a ∈ as, P a := by
  induction h with
  | nil => simp
  | cons hab _ ih => rw [List.forall_mem_cons,List.forall_mem_cons,ih,hR _ _ hab]

def OneCreate (ss : List Compilation) : Prop := ss.countP (fun s => s.plan.isCreate) ≤ 1

instance (ss : List Compilation) : Decidable (OneCreate ss) :=
  inferInstanceAs (Decidable (ss.countP _ ≤ 1))

theorem oneCreate_cons {s : Compilation} {ss : List Compilation} : OneCreate (s :: ss) ↔
    (∀ s' ∈ ss, ¬ (s.plan.isCreate = true ∧ s'.plan.isCreate = true)) ∧ OneCreate ss := by
  unfold OneCreate
  rw [List.countP_cons]
  by_cases hs : s.plan.isCreate = true
  · have hzero : ss.countP (fun s => s.plan.isCreate) = 0 ↔
        ∀ s' ∈ ss, ¬ s'.plan.isCreate = true := List.countP_eq_zero
    simp only [hs,if_true,true_and,← hzero]
    omega
  · simp [hs]

theorem compileAll_defines (lastUnique : List String → ℕ) {ss : List Compilation}
    (hss : ∀ s ∈ ss, s.plan.isAccess = true) : ∀ cnt, ∃ syms,
      compileAll lastUnique cnt ss = some syms ∧
      List.Forall₂ (fun s l => ∃ n ≥ cnt, Defines n s.plan l) ss syms ∧
      (syms.Pairwise List.Disjoint ↔ OneCreate ss) := by
  induction ss with
  | nil => exact fun cnt => ⟨[],rfl,.nil,by simp [OneCreate]⟩
  | cons s ss ih =>
    intro cnt
    obtain ⟨hs,hss⟩ := List.forall_mem_cons.1 hss
    obtain ⟨m,hm,hdef⟩ := s.module_defines lastUnique cnt hs
    obtain ⟨syms,hsyms,hall,hpair⟩ := ih hss (cnt+1)
    have hhead : (∀ l ∈ syms, m.functions.Disjoint l) ↔
        ∀ s' ∈ ss, ¬ (s.plan.isCreate = true ∧ s'.plan.isCreate = true) := by
      refine forall_iff_of_forall₂ hall fun s' l ⟨n,hn,hdef'⟩ => ?_
      exact hdef.disjoint (by omega) hdef'
    refine ⟨m.functions :: syms,?_,.cons ⟨cnt,Nat.le_refl _,hdef⟩ (hall.imp ?_),?_⟩
    · simp only [compileAll,hm,hsyms,Option.bind_eq_bind,Option.bind_some,Option.pure_def]
    · exact fun _ _ ⟨n,hn,hd⟩ => ⟨n,by omega,hd⟩
    · rw [List.pairwise_cons,hhead,hpair,oneCreate_cons]

theorem closed_of_getLast? {s : String} {c : Char} (h : s.toList.getLast? = some c)
    (hc : c.isDigit = false) : Closed s := by
  obtain ⟨l,hl⟩ := List.getLast?_eq_some_iff.1 h
  exact ⟨l,c,hl,hc⟩

theorem closed_hostFunctions : ∀ x ∈ hostFunctions, Closed x ∧ x ≠ "query_start" := by
  have hlast : ∀ x ∈ hostFunctions, x ≠ "query_start" ∧
      x.toList.getLast?.any fun c => !c.isDigit := by decide +kernel
  intro x hx
  obtain ⟨hne,hany⟩ := hlast x hx
  cases hc : x.toList.getLast? with
  | none => simp [hc] at hany
  | some c => exact ⟨closed_of_getLast? hc (by simpa [hc] using hany),hne⟩

theorem Defines.disjoint_hostFunctions {p : Plan} {l : List String} (h : Defines cnt p l) :
    l.Disjoint hostFunctions := by
  intro x hx hhost
  obtain ⟨hclosed,hne⟩ := closed_hostFunctions x hhost
  rcases h.numbered x hx with hnum | ⟨rfl,_⟩
  · exact not_numbered_of_closed hclosed hnum
  · exact hne rfl

end Module

/-- The functions that different compilations define have different names, which are not
those of the host, exactly if at most one of the plans starts with a `Create`. -/
theorem compileAll_disjoint_iff (lastUnique : List String → ℕ) (ss : List Compilation)
    (hss : ∀ s ∈ ss, s.plan.isAccess = true) : ∃ syms, compileAll lastUnique 0 ss = some syms ∧
      ((syms.Pairwise List.Disjoint ∧ ∀ l ∈ syms, l.Disjoint hostFunctions) ↔ OneCreate ss) := by
  obtain ⟨syms,hsyms,hall,hpair⟩ := compileAll_defines lastUnique hss 0
  refine ⟨syms,hsyms,?_⟩
  rw [hpair,and_iff_left]
  refine (forall_iff_of_forall₂ (P := fun _ => True) hall fun _ _ ⟨_,_,hdef⟩ => ?_).2 (by simp)
  exact iff_of_true hdef.disjoint_hostFunctions trivial

theorem compileAll_disjoint_scans : ∃ syms, compileAll (fun _ => 0) 0
    [⟨.scan "Person" false (.sort 0 (.collect false)),"Scan_Person",[]⟩,
      ⟨.scan "Person" false (.sort 0 (.collect false)),"Scan_PersonSSC0",["Scan_PersonSSC0"]⟩,
      ⟨.create .node (0,0) (.collect false),"CreateNode",[]⟩] = some syms ∧
    syms.Pairwise List.Disjoint ∧ ∀ l ∈ syms, l.Disjoint hostFunctions := by
  obtain ⟨syms,hsyms,h⟩ := compileAll_disjoint_iff (fun _ => 0)
    [⟨.scan "Person" false (.sort 0 (.collect false)),"Scan_Person",[]⟩,
      ⟨.scan "Person" false (.sort 0 (.collect false)),"Scan_PersonSSC0",["Scan_PersonSSC0"]⟩,
      ⟨.create .node (0,0) (.collect false),"CreateNode",[]⟩] (by decide)
  exact ⟨syms,hsyms,h.2 (by decide)⟩

/-- Both compilations define `query_start`. -/
theorem not_disjoint_creates : ∃ syms, compileAll (fun _ => 0) 0
    [⟨.create .node (0,0) (.collect false),"CreateNode",[]⟩,
      ⟨.create .node (0,0) (.collect false),"CreateNode",[]⟩] = some syms ∧
    ¬ syms.Pairwise List.Disjoint := by
  refine ⟨[["default_finish_AC0","query_start"],["default_finish_AC1","query_start"]],
    by decide +kernel,fun h => ?_⟩
  obtain ⟨hdisj,_⟩ := List.pairwise_cons.1 h
  exact hdisj ["default_finish_AC1","query_start"] (by simp) (a := "query_start") (by simp)
    (by simp)

end GraphQueryCompiler
