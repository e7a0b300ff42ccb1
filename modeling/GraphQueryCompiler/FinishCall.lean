import GraphQueryCompiler.EmittedCode
import GraphQueryCompiler.NestedLoopJoin
import Mathlib.Data.List.Forall2

/-!
# The call of the finish function

All pipelines of a plan return through the block that ends the first scan, where the finish
function is called. Whatever a plan adds in front of that block, and wherever its limits and
loops jump, no other block returns: the only other `ret` is in a block that nothing branches
to.
-/

namespace GraphQueryCompiler
open StepMachine

variable {db : GraphDb} {env : Env} {l l' : Label} {is js : List Instr} {σ σ' : State} {c : Code}

abbrev BlockName.Entered (n : BlockName) : Prop := ∀ i, n ≠ .isRship i

/-- An instruction that neither returns nor calls the finish function, and does not branch to
`is_rship`. -/
def Instr.Stays : Instr → Prop
  | .br l => l.name.Entered
  | .condBr _ t f => t.name.Entered ∧ f.name.Entered
  | .ret => False
  | .callFinish => False
  | _ => True

inductive Finishing : List Instr → Prop
  | nil : Finishing []
  | stays {i : Instr} {is : List Instr} : i.Stays → Finishing is → Finishing (i :: is)
  | finish {is : List Instr} : Finishing is → Finishing (.callFinish :: .ret :: is)

def FinishPiece (e : Label × List Instr) : Prop := e.1.name.Entered → Finishing e.2

theorem Finishing.append (h : Finishing is) (h' : Finishing js) : Finishing (is ++ js) := by
  induction h with
  | nil => exact h'
  | stays hi _ ih => exact .stays hi ih
  | finish _ ih => exact .finish ih

theorem Finishing.of_stays (h : ∀ i ∈ is, i.Stays) : Finishing is := by
  induction is with
  | nil => exact .nil
  | cons i is ih =>
    obtain ⟨hi,his⟩ := List.forall_mem_cons.1 h
    exact .stays hi (ih his)

theorem finishing_body (hc : ∀ e ∈ c, FinishPiece e) (hl : l.name.Entered) :
    Finishing (c.body l) := by
  induction c with
  | nil => exact .nil
  | cons e c ih =>
    obtain ⟨he,hc⟩ := List.forall_mem_cons.1 hc
    refine .append ?_ (ih hc)
    dsimp only
    split_ifs with hel
    · subst hel
      exact he hl
    · exact .nil

theorem BlockName.entered_of_inside {n : BlockName} (h : n.inside = true) : n.Entered := by
  rintro i rfl
  cases h

theorem Instr.Inner.stays {i : Instr} {q : ℕ} {back : Label} (h : i.Inner q back)
    (hback : back.name.Entered) : i.Stays := by
  cases i with
  | br l => exact h.elim BlockName.entered_of_inside fun hl => hl ▸ hback
  | condBr c t f => exact ⟨BlockName.entered_of_inside h.1,BlockName.entered_of_inside h.2⟩
  | ret | callFinish => exact h
  | _ => trivial

namespace CodegenInlineVisitor
variable {v v' : CodegenInlineVisitor} {op : Plan} {opId : ℕ}

structure Guarded (v : CodegenInlineVisitor) : Prop where
  code : ∀ e ∈ v.code, FinishPiece e
  mainReturn : v.mainReturn.name.Entered
  scanNodesEnd : v.scanNodesEnd.name.Entered
  entry : ∀ l, v.entry = some l → l.name.Entered

theorem Piece.finishes {q : ℕ} {e : Label × List Instr} (he : v.Piece q op e) (hv : v.Guarded) :
    FinishPiece e := by
  intro hentered
  cases he with
  | closing hname =>
    exact .of_stays (by simpa [Instr.Stays,bb] using BlockName.entered_of_inside hname)
  | inner _ his => exact .of_stays fun i hi => (his i hi).stays hv.mainReturn
  | isRship => exact absurd rfl (hentered _)
  | entry his =>
    refine .of_stays (List.forall_mem_append.2 ⟨by simp [initFunction,Instr.Stays],?_⟩)
    exact fun i hi => (his i hi).stays hv.mainReturn
  | finish => exact .finish .nil
  | nextScan hl => exact .of_stays (List.forall_mem_singleton.2 (hv.entry _ hl))
  | limitEntry => exact .of_stays (by simp [Instr.Stays,bb,BlockName.Entered])
  | limitReached => exact .of_stays (List.forall_mem_singleton.2 hv.scanNodesEnd)
  | limitCont => exact .of_stays (by simp [Instr.Stays])

theorem visit_guarded (h : (codegenInlineVisitor db).visit op opId v = some v') (hv : v.Guarded) :
    v'.Guarded := by
  obtain ⟨code,hcode,hpieces⟩ := visit_pieces h fun _ _ _ _ _ => Nat.lt_succ_self _
  have hm := visit_moves h
  refine ⟨?_,?_,?_,?_⟩
  · rw [hcode]
    exact List.forall_mem_append.2 ⟨hv.code,fun e he => (hpieces e he).finishes hv⟩
  · rcases hm.mainReturn with hl | ⟨name,hname,hl⟩ <;> rw [hl]
    · exact hv.mainReturn
    · exact BlockName.entered_of_inside hname
  · rcases hm.scanNodesEnd with hl | hl <;> rw [hl]
    · exact hv.scanNodesEnd
    · simp [bb,BlockName.Entered]
  · rcases hm.entry with hl | hl <;> rw [hl]
    · exact hv.entry
    · simp [bb,BlockName.Entered]

theorem codegen_guarded {p : Plan} {interpreted : Bool} {opId' : ℕ}
    (h : p.codegen (codegenInlineVisitor db) opId interpreted v = some (v',opId'))
    (hv : v.Guarded) : v'.Guarded :=
  p.codegen_rel (R := fun v v' => v.Guarded → v'.Guarded) (fun _ _ _ h₁ h₂ hv => h₂ (h₁ hv))
    (fun _ _ _ _ => visit_guarded) h hv

theorem init_guarded (er : ℕ → Option Expr) : (init er).Guarded :=
  ⟨nofun,nofun,nofun,nofun⟩

end CodegenInlineVisitor

/-- The function is running and has not called `finish`, or it has called it last of all. -/
def FinishedOnce (t : List Event) : Config → Prop
  | .at l σ => l.name.Entered ∧ ∃ evs, σ.trace = t ++ evs ∧ .finish ∉ evs
  | .returned σ => ∃ evs, σ.trace = t ++ evs ++ [.finish] ∧ .finish ∉ evs

theorem exec_stays {i : Instr} (hi : i.Stays) (h : i.exec env σ = some σ') :
    ∃ evs, σ'.trace = σ.trace ++ evs ∧ .finish ∉ evs := by
  cases i with
  | callFinish => exact absurd hi id
  | collectTuple =>
    obtain rfl := Option.some.inj h
    exact ⟨[.collect σ.tp],rfl,by simp⟩
  | collectTupleJoin jid =>
    obtain rfl := Option.some.inj h
    exact ⟨[.materialize jid σ.matTuple],rfl,by simp⟩
  | getNodeFromIt r it =>
    refine ⟨[],?_,by simp⟩
    simp only [Instr.exec] at h
    split at h
    · obtain ⟨_,_,rfl⟩ := Option.map_eq_some_iff.1 h
      simp
    · simp at h
  | matRegValue e type =>
    obtain ⟨_,_,rfl⟩ := Option.map_eq_some_iff.1 h
    exact ⟨[],by simp,by simp⟩
  | _ =>
    refine ⟨[],?_,by simp⟩
    simp only [Instr.exec] at h
    grind [State.setReg_trace,State.setCell_trace]

theorem execBlock_finishedOnce {t : List Event} {r : Config} (h : Finishing is) :
    ∀ {σ : State}, (∃ evs, σ.trace = t ++ evs ∧ .finish ∉ evs) → execBlock env is σ = some r →
      FinishedOnce t r := by
  induction h with
  | nil => nofun
  | @stays i is hi _ ih =>
    intro σ hσ hr
    cases i with
    | br l =>
      obtain rfl := Option.some.inj hr
      exact ⟨hi,hσ⟩
    | condBr c l₁ l₂ =>
      simp only [execBlock] at hr
      split at hr
      · obtain rfl := Option.some.inj hr
        exact ⟨hi.1,hσ⟩
      · obtain rfl := Option.some.inj hr
        exact ⟨hi.2,hσ⟩
      · simp at hr
    | ret => exact absurd hi id
    | _ =>
      obtain ⟨σ₁,hexec,hrest⟩ := Option.bind_eq_some_iff.1 hr
      obtain ⟨evs,htrace,hevs⟩ := hσ
      obtain ⟨evs₁,htrace₁,hevs₁⟩ := exec_stays hi hexec
      refine ih ⟨evs ++ evs₁,?_,by simp [hevs,hevs₁]⟩ hrest
      rw [htrace₁,htrace,List.append_assoc]
  | finish _ _ =>
    intro σ hσ hr
    obtain ⟨evs,htrace,hevs⟩ := hσ
    obtain rfl := Option.some.inj hr
    exact ⟨evs,by simp [State.emit,htrace],hevs⟩

theorem reaches_finishedOnce {t : List Event} {fn : Body} {c c' : Config}
    (hfn : ∀ l, l.name.Entered → Finishing (fn l)) (h : Reaches (fn.step env) c c')
    (hc : FinishedOnce t c) : FinishedOnce t c' := by
  induction h with
  | refl => exact hc
  | @tail c₁ c₂ _ hstep ih =>
    cases c₁ with
    | «at» l σ => exact execBlock_finishedOnce (hfn l ih.1) ih.2 hstep
    | returned σ => exact absurd hstep (by simp [StepMachine.Step,Body.step])

/-- Whenever the start function of a plan returns, it has called the finish function once,
after everything it collected. -/
theorem generateStart_finishedOnce (env : Env) (er : ℕ → Option Expr) (p : Plan) (fn : Body)
    (entry : Label) (σ σ' : State) (hgen : generateStart env.db er p = some (fn,entry))
    (hret : Returns (fn.step env) (.at entry σ) (.returned σ')) :
    ∃ evs, σ'.trace = σ.trace ++ evs ++ [.finish] ∧ .finish ∉ evs := by
  simp only [generateStart,Option.bind_eq_bind,Option.bind_eq_some_iff,Option.pure_def,
    Option.some.injEq,Prod.mk.injEq,Prod.exists] at hgen
  obtain ⟨v,_,hcode,_,hentry,rfl,rfl⟩ := hgen
  have hv := CodegenInlineVisitor.codegen_guarded hcode (CodegenInlineVisitor.init_guarded er)
  exact reaches_finishedOnce (fun _ => finishing_body hv.code) hret.1
    ⟨hv.entry _ hentry,[],by simp,by simp⟩

theorem generateStart_finishedOnce_pair :
    ∃ fn entry, generateStart pairDb (fun _ => none) (.scan "Person" false
      (.join .CROSS (0,0) (.collect false) (.scan "Person" false .endOp))) = some (fn,entry) ∧
      ∀ σ : State, σ.Idle → (∀ i, σ.rhsInput i = []) →
      ∃ σ' evs, Returns (fn.step (pairEnv fun _ => "Person")) (.at entry σ) (.returned σ') ∧
        σ'.trace = σ.trace ++ evs ++ [.finish] ∧ .finish ∉ evs := by
  obtain ⟨fn,entry,hgen,h⟩ := Plan.Nested.returns (pairEnv fun _ => "Person") (fun _ => none)
    (.scan "Person" false (.join .CROSS (0,0) (.collect false) (.scan "Person" false .endOp)))
    ⟨rfl,rfl,rfl,rfl,rfl⟩ ⟨rfl,.join ⟨rfl,rfl⟩ .collect,trivial,rfl,rfl,.endOp,rfl⟩
  refine ⟨fn,entry,hgen,fun σ hσ hempty => ?_⟩
  obtain ⟨σ',hret⟩ := h σ hσ hempty
  obtain ⟨evs,hevs⟩ := generateStart_finishedOnce (pairEnv fun _ => "Person") (fun _ => none) _ fn
    entry σ σ' hgen hret
  exact ⟨σ',evs,hret,hevs⟩

end GraphQueryCompiler
