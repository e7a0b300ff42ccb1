import GraphQueryCompiler.QueryEvents
import GraphQueryCompiler.ProjectKeys

/-!
# The code of a projection

The calls of a projection write the cells of the pipeline one after another, and the new registers
are the addresses of these cells. What is behind it hands the entries on.
-/

namespace GraphQueryCompiler
open StepMachine CodegenInlineVisitor
open LimitedStream (rows arrivals stops shared)

variable {env : Env} {fn : Body} {pipe i opId : ℕ} {ts : List ℕ} {t : List QrVal} {σ : State}
  {sh sh' : Shared} {j : JoinCtx} {p inp : Plan} {v v₁ v' : CodegenInlineVisitor} {pe : PrExpr}
  {prexpr : List PrExpr} {is : List Instr} {rs : List QrValue}

theorem Shared.matRegVal_toReg {type : ℕ} {q : QrVal} (hq : HasType type q)
    (hf : ∀ d, q = .int d → sh.cell .dangling = .word d) :
    sh.matRegVal pipe (q.toReg pipe).1
      (if (q.toReg pipe).2 = 7 then 2 else (q.toReg pipe).2) = some q := by
  cases hq with
  | node n => rfl
  | rship r => rfl
  | flag d => simp [QrVal.toReg,matRegVal,CellName.IsShared,hf d rfl]

def Shared.ShowsFrom (i pipe : ℕ) (sh : Shared) (t : Tuple) (q : List QrVal) : Prop :=
  ∀ sh' : Shared, sh'.cell .dangling = sh.cell .dangling →
    (∀ k, i ≤ k → sh'.cell (.pv k) = sh.cell (.pv k)) → sh'.row pipe t = some q

theorem Shared.row_cons {x : Val × ℕ} {xs : Tuple} {q : QrVal} {qs : List QrVal}
    (hx : sh.matRegVal pipe x.1 (if x.2 = 7 then 2 else x.2) = some q)
    (hxs : sh.row pipe xs = some qs) : sh.row pipe (x :: xs) = some (q :: qs) := by
  unfold Shared.row at *
  rw [List.mapM_cons,hx,hxs]
  rfl

structure ProjectsTo (env : Env) (v : CodegenInlineVisitor) (pipe i : ℕ) (is : List Instr)
    (rs : List QrValue) (q : List QrVal) (σ : State) (sh : Shared) (σ' : State) (sh' : Shared) :
    Prop where
  exec : ∀ rest, execBlock env (is ++ rest) σ = execBlock env rest σ'
  sim : Sim pipe σ' sh'
  frame : Frame v.visits pipe σ σ'
  rhsInput : sh'.rhsInput = sh.rhsInput
  trace : sh'.trace = sh.trace
  kept : ∀ c, (∀ k, i ≤ k → c ≠ .pv k) → sh'.cell c = sh.cell c
  shows : ∃ t', Holds env σ' rs t' ∧ sh'.ShowsFrom i pipe t' q

theorem ProjectsTo.boolean {r : QrValue} {type : ℕ} {x : QrVal} {q : List QrVal} {σ' : State}
    (h : ProjectsTo env v pipe (i+1) is rs q σ sh σ' sh') (hr : r.Below v.visits)
    (hval : r.regVal.eval env σ = (x.toReg pipe).1) (htype : r.type = (x.toReg pipe).2)
    (hx : HasType type x) (hf : ∀ d, x = .int d → sh.cell .dangling = .word d) :
    ProjectsTo env v pipe i is (r :: rs) (x :: q) σ sh σ' sh' := by
  obtain ⟨t',ht',hshows⟩ := h.shows
  refine ⟨h.exec,h.sim,h.frame,h.rhsInput,h.trace,fun c hc => h.kept c fun k hk => hc k (by omega),
    x.toReg pipe :: t',.cons ⟨(hr.eval_frame h.frame).trans hval,htype⟩ ht',fun sh₂ hd hpv => ?_⟩
  have hflag : sh₂.cell .dangling = sh.cell .dangling :=
    hd.trans (h.kept _ fun _ _ => by simp)
  apply Shared.row_cons
  · exact Shared.matRegVal_toReg hx fun d hxd => hflag.trans (hf d hxd)
  · exact hshows sh₂ hd fun k hk => hpv k (by omega)

theorem ProjectsTo.property {isNode : Bool} {x type : ℕ} {key : String} {ft : FType} {e : Expr}
    {q : List QrVal} {σ' : State} (he : e.eval env σ = if isNode then .node x else .rship x)
    (htype : type ≠ 7) (h2 : 2 ≤ type)
    (h : ProjectsTo env v pipe (i+1) is rs q
      (σ.setCell ⟨pipe,.pv i⟩ (.property isNode x key ft))
      (sh.set (.pv i) (.property isNode x key ft)) σ' sh') :
    ProjectsTo env v pipe i (.applyPexpr isNode key ft e ⟨pipe,.pv i⟩ :: is)
      (⟨.addr ⟨pipe,.pv i⟩,type⟩ :: rs) (.property isNode x key ft :: q) σ sh σ' sh' := by
  obtain ⟨t',ht',hshows⟩ := h.shows
  have hcell : sh'.cell (.pv i) = .property isNode x key ft := by
    rw [h.kept _ fun k hk hne => by
      have := CellName.pv.inj hne
      omega]
    simp [Shared.set]
  refine ⟨fun rest => ?_,h.sim,?_,h.rhsInput,h.trace,fun c hc => ?_,
    (.cell ⟨pipe,.pv i⟩,type) :: t',.cons ⟨rfl,rfl⟩ ht',fun sh₂ hd hpv => ?_⟩
  · rw [← h.exec rest]
    cases isNode <;> simp [execBlock,Instr.exec,he]
  · exact ((Frame.refl _ _ σ).setCell_pipe _ _).trans h.frame
  · rw [h.kept c fun k hk => hc k (by omega),Shared.set]
    exact if_neg (hc i le_rfl)
  · apply Shared.row_cons
    · obtain ⟨m,rfl⟩ := Nat.exists_eq_add_of_le' h2
      have hi := (hpv i le_rfl).trans hcell
      simp [Shared.matRegVal,CellName.IsShared,htype,hi]
    · exact hshows sh₂ hd fun k hk => hpv k (by omega)

theorem FType.toNat_ne {ft : FType} (h : ft ≠ .BOOLEAN) : ft.toNat+2 ≠ 7 := by
  cases ft <;> first | exact absurd rfl h | decide

theorem projectExprs_projectsTo (hpipe : v.scan = pipe) (hregs : ∀ q ∈ v.regQueryResults,
      q.Below v.visits) (ht : Typed ts t) (hp : Projectable ts (i+1) prexpr)
    (hkeys : ∀ k pe, prexpr[k]? = some pe → v.projectKeys[i+k]? = some pe.key) :
    ∀ {is rs σ sh}, v.projectExprs (i+1) prexpr = some (is,rs) → Sim pipe σ sh →
      Holds env σ v.regQueryResults (t.map (QrVal.toReg pipe)) →
      (∀ d, QrVal.int d ∈ t → sh.cell .dangling = .word d) →
      ∃ σ' sh', ProjectsTo env v pipe (i+1) is rs (projectRow prexpr t) σ sh σ' sh' := by
  induction prexpr generalizing i with
  | nil =>
    intro is rs σ sh h hs _ _
    obtain ⟨rfl,rfl⟩ := Prod.mk.inj (Option.some.inj h)
    exact ⟨σ,sh,fun _ => rfl,hs,Frame.refl _ _ _,rfl,rfl,fun _ _ => rfl,[],.nil,fun _ _ _ => rfl⟩
  | cons pe pes ih =>
    intro is rs σ sh h hs hh hf
    obtain ⟨⟨type,hty,hfit⟩,hpes⟩ := hp
    obtain ⟨q,hq,hqty⟩ := ht.getElem? hty
    obtain ⟨r,hr,hval,hrty⟩ := hh.getElem? (getElem?_toReg pipe hq)
    have hb : r.Below v.visits := hregs r (List.mem_of_getElem? hr)
    have hkey : v.projectKeys[i]? = some pe.key := hkeys 0 pe rfl
    have hkeys' : ∀ k pe, pes[k]? = some pe → v.projectKeys[i+1+k]? = some pe.key := by
      intro k pe' hk
      rw [Nat.add_assoc,Nat.add_comm 1 k]
      exact hkeys (k+1) pe' hk
    simp only [projectExprs,Option.bind_eq_bind,Option.bind_eq_some_iff,Prod.exists,
      Option.pure_def,Option.some.injEq,Prod.mk.injEq] at h
    obtain ⟨is₁,r₁,h₁,is₂,rs₂,h₂,rfl,rfl⟩ := h
    by_cases hbool : pe.type = .BOOLEAN
    · obtain ⟨rfl,rfl⟩ : is₁ = [] ∧ r₁ = r := by
        simp only [projectExpr,hr,hbool,Option.bind_eq_bind,Option.bind_some,if_true,
          Option.pure_def,Option.some.injEq,Prod.mk.injEq] at h₁
        exact ⟨h₁.1.symm,h₁.2.symm⟩
      obtain ⟨σ',sh',hrest⟩ := ih hpes hkeys' h₂ hs hh hf
      rw [projectRow_cons ((PrExpr.entry_boolean hbool).trans hq)]
      exact ⟨σ',sh',hrest.boolean hb hval hrty hqty fun d hd =>
        hf d (hd ▸ List.mem_of_getElem? hq)⟩
    · obtain ⟨hle,_,_,hi⟩ := hfit.resolve_left hbool
      obtain ⟨x,hx,hentry⟩ := PrExpr.entry_property hbool hq hqty hle
      have hrtype : r.type = type := by
        rw [hrty]
        cases hqty with
        | node | rship => rfl
        | flag => exact absurd hle (by omega)
      obtain ⟨rfl,rfl⟩ : is₁ = [.applyPexpr (type = 0) pe.key pe.type r.regVal ⟨pipe,.pv (i+1)⟩] ∧
          r₁ = ⟨.addr ⟨pipe,.pv (i+1)⟩,pe.type.toNat+2⟩ := by
        simp only [projectExpr,hr,hbool,hkey,hi,hrtype,cell,hpipe,Option.bind_eq_bind,
          Option.bind_some,if_false,if_true,Option.pure_def,Option.some.injEq,Prod.mk.injEq,
          Nat.add_sub_cancel] at h₁
        exact ⟨h₁.1.symm,h₁.2.symm⟩
      set val : Val := .property (type = 0) x pe.key pe.type with hvaldef
      obtain ⟨σ',sh',hrest⟩ := ih hpes hkeys' h₂
        (hs.setCell_shared (c := .pv (i+1)) rfl val)
        (hh.frame hregs ((Frame.refl _ _ σ).setCell_pipe _ _))
        (fun d hd => by simpa [Shared.set] using hf d hd)
      rw [projectRow_cons hentry]
      refine ⟨σ',sh',hrest.property ?_ (FType.toNat_ne hbool) (Nat.le_add_left _ _)⟩
      rw [hval,hx]
      by_cases hzero : type = 0 <;> simp [hzero,QrVal.toReg]

end GraphQueryCompiler
