import GraphQueryCompiler.CreateCode
import GraphQueryCompiler.QueryResults

/-!
# Runs of `Create`s

The objects of a plan are created one after the other, and the operators behind them read the
graph that is there then. These operators are compiled as they are without `Create`s, so that
what is known of their code holds here too.
-/

namespace GraphQueryCompiler
open StepMachine CodegenInlineVisitor
open LimitedStream (rows arrivals)

variable {up : GraphUpdates} {env : Env} {db db₀ db₁ : GraphDb} {fn : Body} {fn' : CreateBody}
  {pipe opId opId' : ℕ} {ts : List ℕ} {t : List QrVal} {σ σ₁ : State} {sh : Shared}
  {p inp : Plan} {srcDes : ℕ × ℕ} {v v' : CodegenInlineVisitor} {c c' : CreateVisitor}
  {call : CreateInstr} {res : QrValue} {is : List Instr} {js : List CreateInstr} {x : Config}

namespace Plan

def ReadOnly : Plan → Prop
  | .foreachRship _ _ _ inp => inp.ReadOnly
  | .expand _ _ inp => inp.ReadOnly
  | .sort _ inp => inp.ReadOnly
  | .collect _ => True
  | _ => False

/-- `Create`s, and what reads the graph behind them. The list has the types of the registers in
front of the plan. -/
inductive Creates : List ℕ → Plan → Prop
  | node {ts : List ℕ} {srcDes : ℕ × ℕ} {inp : Plan} :
      Creates (ts ++ [0]) inp → Creates ts (.create .node srcDes inp)
  | rship {ts : List ℕ} {srcDes : ℕ × ℕ} {inp : Plan} :
      ts[srcDes.1]? = some 0 → ts[srcDes.2]? = some 0 → Creates (ts ++ [1]) inp →
      Creates ts (.create .rship srcDes inp)
  | reads {ts : List ℕ} {p : Plan} : Query ts p → p.ReadOnly → Creates ts p

def created (up : GraphUpdates) (env : Env) :
    Plan → ℕ → GraphDb → List QrVal → GraphDb × List (List QrVal)
  | .create .node _ inp, opId, db, t =>
    let x := up.addNode db (env.args.label opId) (env.args.word (opId+1))
    inp.created up env (opId+2) x.1 (t ++ [.node x.2])
  | .create .rship srcDes inp, opId, db, t =>
    match t[srcDes.1]?, t[srcDes.2]? with
    | some (.node a), some (.node b) =>
      let x := up.addRelationship db a b (env.args.label opId) (env.args.word (opId+1))
      inp.created up env (opId+2) x.1 (t ++ [.rship x.2])
    | _, _ => (db,[])
  | p, opId, db, t => (db,LimitedStream.rows (p.events (env.withDb db) opId t))

namespace ReadOnly

theorem created_eq (h : p.ReadOnly) (t : List QrVal) :
    p.created up env opId db t = (db,LimitedStream.rows (p.events (env.withDb db) opId t)) := by
  cases p with
  | create => exact absurd h id
  | _ => rfl

theorem joinFree (h : p.ReadOnly) : p.JoinFree := by
  induction p with
  | foreachRship _ _ _ _ ih | expand _ _ _ ih | sort _ _ ih => exact ih h
  | collect => trivial
  | _ => exact absurd h id

theorem projectionKeys (h : p.ReadOnly) : p.projectionKeys = [] := by
  induction p with
  | foreachRship _ _ _ _ ih | expand _ _ _ ih | sort _ _ ih => exact ih h
  | collect => rfl
  | _ => exact absurd h id

theorem no_arrivals (h : p.ReadOnly) : ∀ {opId t}, arrivals (p.events env opId t) = [] := by
  induction p with
  | foreachRship _ _ _ _ ih | expand _ _ _ ih =>
    intro opId t
    simp only [events,LimitedStream.arrivals,List.filterMap_flatMap]
    exact List.flatMap_eq_nil_iff.2 fun u _ => ih h
  | sort _ _ ih => exact ih h
  | collect => exact fun {_ _} => rfl
  | _ => exact absurd h id

/-- Behind the `Create`s the visitor inserts what it inserts without them, whatever graph it is
made for. -/
theorem codegen_eq (h : p.ReadOnly) (db db₁ : GraphDb) : ∀ {opId c},
    p.codegen (createVisitor db) opId true c =
      (p.codegen (codegenInlineVisitor db₁) opId true c.inline).map fun x =>
        ({ c with inline := x.1 },x.2) := by
  induction p with
  | foreachRship _ _ _ _ ih | expand _ _ _ ih =>
    intro opId c
    simp only [Plan.codegen,createVisitor,CreateVisitor.visitInline,Option.bind_eq_bind,
      Option.bind_map,Option.map_bind]
    exact congrArg₂ Option.bind rfl (funext fun v => ih h)
  | sort _ _ ih => exact ih h
  | collect => exact fun {_ _} => rfl
  | _ => exact absurd h id

end ReadOnly
end Plan

theorem execCreateBlock_map (h : execBlock (env.withDb db) is σ = some x) :
    execCreateBlock up env (is.map .of ++ js) db σ = some (db,x) := by
  induction is generalizing σ with
  | nil => cases h
  | cons i is ih =>
    cases i with
    | br l => exact congrArg (Option.map (db,·)) h
    | ret => exact congrArg (Option.map (db,·)) h
    | condBr e l l' =>
      simp only [execBlock] at h
      simp only [List.map_cons,List.cons_append,execCreateBlock]
      split at h <;> simp_all
    | _ =>
      obtain ⟨σ₁,h₁,h₂⟩ := Option.bind_eq_some_iff.1 h
      exact Option.bind_eq_some_iff.2 ⟨σ₁,h₁,ih h₂⟩

theorem reaches_of_inline (hfn : ∀ l, ∃ js, fn' l = (fn l).map .of ++ js) {a b : Config}
    (h : Reaches (fn.step (env.withDb db)) a b) :
    Reaches (fn'.step up env) (db,a) (db,b) := by
  refine h.lift (db,·) fun a b hab => ?_
  cases a with
  | returned => cases hab
  | «at» l σ =>
    obtain ⟨js,hjs⟩ := hfn l
    change execCreateBlock up env (fn' l) db σ = some (db,b)
    rw [hjs]
    exact execCreateBlock_map hab

namespace CreateVisitor

def next (c : CreateVisitor) (call : CreateInstr) (res : QrValue) : CreateVisitor :=
  let v := c.inline
  ⟨{ v.emit [(v.prevBb,[.br (v.bb .entry)])] (v.bb .consume) with
      regQueryResults := v.regQueryResults ++ [res] },
    c.creates ++ [(v.bb .entry,[call,.of (.br (v.bb .consume))])]⟩

def first (c : CreateVisitor) (call : CreateInstr) (res : QrValue) : CreateVisitor :=
  let v := c.inline
  ⟨{ v.emit [(v.bb .whileEnd,[.ret])] (v.bb .consume) with
      regQueryResults := v.regQueryResults ++ [res]
      scan := v.visits
      entry := some (v.bb .entry)
      mainReturn := v.bb .whileEnd
      projectKeys := v.projectString },
    c.creates ++ [(v.bb .entry,
      (initFunction v.visits).map .of ++ [call,.of (.br (v.bb .consume))])]⟩

theorem visitCreate_some {e : Label} (h : c.inline.entry = some e) {type : CreateType}
    (hcall : c.inline.createCall opId type srcDes = some (call,res)) :
    c.visitCreate type srcDes opId = some (c.next call res) := by
  simp [visitCreate,h,hcall,next]

theorem visitCreate_none (h : c.inline.entry = none) {type : CreateType}
    (hcall : c.inline.createCall opId type srcDes = some (call,res)) :
    c.visitCreate type srcDes opId = some (c.first call res) := by
  simp [visitCreate,h,hcall,first]

structure Continues (c : CreateVisitor) (pipe : ℕ) : Prop where
  ok : c.inline.Ok
  creates : ∀ e ∈ c.creates, e.1.visit < c.inline.visits
  scan : c.inline.scan = pipe
  entry : c.inline.entry = some ⟨pipe,.entry⟩
  keys : c.inline.projectKeys = []
  openBb : c.body c.inline.prevBb = []
  mainReturn : c.body c.inline.mainReturn = [.of .ret]
  ne : c.inline.mainReturn ≠ c.inline.prevBb

structure Extends (c c' : CreateVisitor) : Prop where
  inline : c.inline.Extends c'.inline
  block : ∀ l : Label, l.visit < c.inline.visits → c'.block l = c.block l
  entry : c'.inline.entry = c.inline.entry

theorem next_code (c : CreateVisitor) (call : CreateInstr) (res : QrValue) (l : Label) :
    (c.next call res).inline.code.body l = c.inline.code.body l ++
      if c.inline.prevBb = l then [.br (c.inline.bb .entry)] else [] := by
  simp [next,emit]

theorem next_block (c : CreateVisitor) (call : CreateInstr) (res : QrValue) (l : Label) :
    (c.next call res).block l = c.block l ++
      if c.inline.bb .entry = l then [call,.of (.br (c.inline.bb .consume))] else [] := by
  simp [next,block]

theorem next_types (c : CreateVisitor) (call : CreateInstr) (res : QrValue) :
    (c.next call res).inline.types = c.inline.types ++ [res.type] := by
  simp [types,next]

namespace Extends

theorem body_eq (h : c.Extends c') {l : Label} (hl : l.visit < c.inline.visits)
    (hne : l ≠ c.inline.prevBb) : c'.body l = c.body l := by
  rw [body,body,h.inline.body_eq l hl hne,h.block l hl]

theorem of_inline (h : c.inline.Extends v') (hentry : v'.entry = c.inline.entry) :
    c.Extends { c with inline := v' } :=
  ⟨h,fun _ _ => rfl,hentry⟩

theorem of_next (h : (c.next call res).Extends c') : c.Extends c' := by
  have hvisits : (c.next call res).inline.visits = c.inline.visits+1 := rfl
  have hnext : c.inline.Extends (c.next call res).inline := by
    refine ⟨Nat.le_succ _,fun l hl hne => ?_,.inr (le_refl _)⟩
    rw [next_code,if_neg (Ne.symm hne),List.append_nil]
  refine ⟨hnext.trans h.inline,fun l hl => ?_,h.entry⟩
  rw [h.block l (by omega),next_block,if_neg,List.append_nil]
  rintro rfl
  exact absurd hl (lt_irrefl _)

end Extends

namespace Continues

theorem block_nil (h : c.Continues pipe) {l : Label} (hl : c.inline.visits ≤ l.visit) :
    c.block l = [] := by
  refine List.flatMap_eq_nil_iff.2 fun e he => if_neg ?_
  rintro rfl
  exact absurd (h.creates e he) (not_lt.2 hl)

theorem body_nil (h : c.Continues pipe) {l : Label} (hl : c.inline.visits ≤ l.visit) :
    c.body l = [] := by
  rw [body,h.ok.body_nil hl,h.block_nil hl]
  rfl

theorem next_blocks (h : c.Continues pipe) (he : (c.next call res).Extends c') :
    c'.body c.inline.prevBb = [.of (.br (c.inline.bb .entry))] ∧
      c'.body (c.inline.bb .entry) = [call,.of (.br (c.inline.bb .consume))] := by
  have hvisits : (c.next call res).inline.visits = c.inline.visits+1 := rfl
  have hlt := h.ok.prevBb
  have hprev : c.inline.prevBb ≠ c.inline.bb .entry := h.ok.prevBb_ne _
  have hopen := List.append_eq_nil_iff.1 h.openBb
  refine ⟨?_,?_⟩
  · rw [he.body_eq (by omega) (h.ok.prevBb_ne _),body,next_code,next_block,
      List.map_eq_nil_iff.1 hopen.1,hopen.2,if_pos rfl,if_neg (Ne.symm hprev)]
    rfl
  · rw [he.body_eq (Nat.lt_succ_self _) (by simp [CreateVisitor.next,bb,emit]),body,next_code,
      next_block,h.ok.body_nil (le_refl _),h.block_nil (le_refl _),if_neg hprev,if_pos rfl]
    rfl

theorem next (h : c.Continues pipe) (hres : res.Below (c.inline.visits+1)) :
    (c.next call res).Continues pipe := by
  have he : c.Extends (c.next call res) := Extends.of_next ⟨.refl _,fun _ _ => rfl,rfl⟩
  have hmain := h.ok.mainReturn
  have hopen : (c.next call res).inline.prevBb = c.inline.bb .consume := rfl
  refine ⟨⟨?_,Nat.lt_succ_self _,Nat.lt_succ_of_lt h.ok.scan,Nat.lt_succ_of_lt hmain,
    Nat.lt_succ_of_lt h.ok.scanNodesEnd,?_⟩,?_,h.scan,h.entry,h.keys,?_,?_,?_⟩
  · intro e he
    rcases List.mem_append.1 he with he | he
    · exact Nat.lt_succ_of_lt (h.ok.code e he)
    · obtain rfl := List.mem_singleton.1 he
      exact Nat.lt_succ_of_lt h.ok.prevBb
  · intro q hq
    rcases List.mem_append.1 hq with hq | hq
    · exact (h.ok.regs q hq).mono (Nat.le_succ _)
    · obtain rfl := List.mem_singleton.1 hq
      exact hres
  · intro e he
    rcases List.mem_append.1 he with he | he
    · exact Nat.lt_succ_of_lt (h.creates e he)
    · obtain rfl := List.mem_singleton.1 he
      exact Nat.lt_succ_self _
  · have hprev : c.inline.prevBb ≠ c.inline.bb .consume := h.ok.prevBb_ne _
    rw [hopen,body,next_code,next_block,h.ok.body_nil (le_refl _),h.block_nil (le_refl _),
      if_neg hprev,if_neg (by simp [bb])]
    rfl
  · change (c.next call res).body c.inline.mainReturn = _
    rw [he.body_eq hmain h.ne,h.mainReturn]
  · rw [hopen]
    exact fun heq => absurd (heq ▸ hmain) (lt_irrefl _)

end Continues
end CreateVisitor

theorem reaches_createBlock (hl : fn' l = js)
    (h : execCreateBlock up env js db σ = some (db₁,x)) :
    Reaches (fn'.step up env) (db,.at l σ) (db₁,x) :=
  Reaches.single (by rw [CreateBody.step,hl]; exact h)

theorem Holds.withDb {regs : List QrValue} {t : Tuple} {k : ℕ} (h : Holds env σ regs t)
    (hregs : ∀ q ∈ regs, q.Below k) : Holds (env.withDb db) σ regs t := by
  unfold Holds at *
  induction h with
  | nil => exact .nil
  | @cons q x regs t hx _ ih =>
    obtain ⟨hq,hregs⟩ := List.forall_mem_cons.1 hregs
    refine .cons ⟨Eq.trans ?_ hx.1,hx.2⟩ (ih hregs)
    unfold QrValue.Below at hq
    split at hq
    · next r hr => rw [hr]; rfl
    · next a ha => rw [ha]; rfl
    · exact absurd hq id

/-- From the open block, control leaves the plan with the rows of a call collected, on the graph
that the call has made. -/
def CreateRun (up : GraphUpdates) (env : Env) (fn : CreateBody) (c : CreateVisitor) (pipe : ℕ)
    (sh : Shared) (db : GraphDb) (σ : State) (r : GraphDb × List (List QrVal)) : Prop :=
  ∃ σ' sh', Reaches (fn.step up env) (db,.at c.inline.prevBb σ) (r.1,.at c.inline.mainReturn σ') ∧
    Sim pipe σ' sh' ∧ sh'.trace = sh.trace ++ r.2.map .collect

theorem Plan.ReadOnly.keeps (h : p.ReadOnly)
    (hgen : p.codegen (codegenInlineVisitor db) opId true v = some (v',opId')) :
    v'.entry = v.entry := by
  have hinput : ∀ p inp : Plan, p.input = some inp → p.ReadOnly → inp.ReadOnly := by
    intro p inp hin hp
    cases p <;> simp only [Plan.input,reduceCtorEq,Option.some.injEq] at hin <;> subst hin <;>
      first | exact hp | exact absurd hp id
  have htrans : ∀ v₁ v₂ v₃ : CodegenInlineVisitor, v₂.entry = v₁.entry → v₃.entry = v₂.entry →
      v₃.entry = v₁.entry := fun _ _ _ h₁ h₂ => h₂.trans h₁
  refine Plan.codegen_rel_of (R := fun v v' => v'.entry = v.entry) hinput
    (fun _ _ _ _ hp => absurd hp id) htrans (fun op _ _ _ hop hvisit => ?_) p h hgen
  refine (visit_keeps ?_ hvisit).1
  cases op <;> first | rfl | exact absurd hop id

def CreateVisitor.Runs (c : CreateVisitor) (db₀ : GraphDb) (up : GraphUpdates) (pipe : ℕ)
    (ts : List ℕ) (p : Plan) (opId : ℕ) : Prop :=
  ∃ c' opId', p.codegen (createVisitor db₀) opId true c = some (c',opId') ∧ c.Extends c' ∧
    ∀ {env db t σ sh}, Typed ts t → Sim pipe σ sh → sh.cell .resCounter = .word 0 →
      Holds env σ c.inline.regQueryResults (t.map (QrVal.toReg pipe)) →
      CreateRun up env c'.body c pipe sh db σ (p.created up env opId db t)

theorem Plan.ReadOnly.runs (hr : p.ReadOnly) (hq : Plan.Query ts p) (hc : c.Continues pipe)
    (hts : c.inline.types = ts) (hle : ∀ type ∈ ts, type ≤ 1) (env₀ : Env) (opId : ℕ) :
    c.Runs env₀.db up pipe ts p opId := by
  obtain ⟨⟨v',opId'⟩,hgen⟩ : ∃ r,
      p.codegen (codegenInlineVisitor env₀.db) opId true c.inline = some r :=
    hq.codegen_isSome hts (hc.keys.trans hr.projectionKeys.symm)
  have hcreate : p.codegen (createVisitor env₀.db) opId true c = _ :=
    hr.codegen_eq env₀.db env₀.db
  rw [hgen] at hcreate
  refine ⟨_,_,hcreate,.of_inline (codegen_extends hgen) (hr.keeps hgen),?_⟩
  intro env db t σ sh ht hs hcount hh
  -- the same code is made for the graph of the run
  have hcode := hcreate.symm.trans (hr.codegen_eq env₀.db db)
  obtain ⟨⟨v₁,opId₁⟩,hgen₁,heq⟩ := Option.map_eq_some_iff.1 hcode.symm
  obtain rfl : v₁ = v' := congrArg (fun x => x.1.inline) heq
  have hl : Located v₁.code.body (env.withDb db).db pipe c.inline.joinCtx p opId c.inline v₁ :=
    ⟨hc.ok,hc.scan,rfl,hq.suffix,⟨_,hgen₁⟩,fun _ _ _ => rfl⟩
  have henter : Entered (env.withDb db) v₁.code.body pipe p opId c.inline.joinCtx c.inline v₁
      ts t [] σ sh :=
    ⟨hl,hc.keys.trans hr.projectionKeys.symm,ht,fun d hd => absurd hd (ht.no_flag hle d),
      fun hj => absurd hr.joinFree hj,hcount,hs,hh.withDb hc.ok.regs⟩
  obtain ⟨ex,sh',⟨σ',hreach,hs',_⟩,hhand,_⟩ := hq.isHandled henter
  have hevents : arrivals (p.events (env.withDb db) opId t) = [] := hr.no_arrivals
  obtain ⟨hrun,hstops⟩ : LimitedStream.run (LimitedStream.shared id) [] _ = _ ∧ _ :=
    LimitedStream.run_of_no_arrivals hevents
  obtain rfl : ex = .backflow := by rw [hhand.exit,hstops]; rfl
  have hinit : Agrees v₁.code.body (.init fun _ => none) v₁ := fun _ _ _ => rfl
  have hopen := hl.prevBb hinit (Nat.zero_le _)
  rw [List.map_eq_nil_iff.1 (List.append_eq_nil_iff.1 hc.openBb).1] at hopen
  have hbranch : Reaches (v₁.code.body.step (env.withDb db)) (.at c.inline.prevBb σ)
      (.at (p.entryLabel c.inline.visits) σ) := reaches_block hopen rfl
  rw [hr.created_eq]
  refine ⟨σ',sh',reaches_of_inline (fun l => ⟨_,rfl⟩) (hbranch.trans hreach),hs',?_⟩
  rw [hhand.trace,hrun]

theorem register_of_types {i type : ℕ} (hv : v.types = ts) (h : ts[i]? = some type) :
    ∃ q, v.regQueryResults[i]? = some q := by
  rw [← hv,types,List.getElem?_map,Option.map_eq_some_iff] at h
  obtain ⟨q,hq,_⟩ := h
  exact ⟨q,hq⟩

theorem CreateVisitor.Runs.next {type : CreateType} {k : ℕ} (hc : c.Continues pipe)
    (hcall : c.inline.createCall opId type srcDes = some (call,res))
    (h : (c.next call res).Runs db₀ up pipe (ts ++ [k]) inp (opId+2))
    (hdo : ∀ {env : Env} (db : GraphDb) {t : List QrVal} {σ : State}, Typed ts t →
      Holds env σ c.inline.regQueryResults (t.map (QrVal.toReg pipe)) →
      ∃ db₁ q r, HasType k q ∧ q.toReg pipe = (r,res.type) ∧
        (Plan.create type srcDes inp).created up env opId db t =
          inp.created up env (opId+2) db₁ (t ++ [q]) ∧
        ∃ reg : RegName, res.regVal = .reg (c.inline.reg reg) ∧
          execCreateBlock up env [call,.of (.br (c.inline.bb .consume))] db σ =
            some (db₁,.at (c.inline.bb .consume) (σ.setReg (c.inline.reg reg) r))) :
    c.Runs db₀ up pipe ts (.create type srcDes inp) opId := by
  obtain ⟨c',opId',hgen,hext,hrun⟩ := h
  refine ⟨c',opId',?_,.of_next hext,?_⟩
  · have hvisit : (createVisitor db₀).visit (.create type srcDes inp) opId c =
        some (c.next call res) := visitCreate_some hc.entry hcall
    simp only [Plan.codegen,hvisit,Option.bind_eq_bind,Option.bind_some,hgen]
  · intro env db t σ sh ht hs hcount hh
    obtain ⟨db₁,q,r,hq,htoReg,hcreated,reg,hreg,hexec⟩ := hdo db ht hh
    obtain ⟨hprev,hbb⟩ := hc.next_blocks hext
    have hframe : Frame c.inline.visits pipe σ (σ.setReg (c.inline.reg reg) r) :=
      (Frame.refl _ _ _).setReg (le_refl c.inline.visits) r
    have hholds : Holds env (σ.setReg (c.inline.reg reg) r) (c.inline.regQueryResults ++ [res])
        ((t ++ [q]).map (QrVal.toReg pipe)) := by
      rw [List.map_append,List.map_singleton,htoReg]
      refine (hh.frame hc.ok.regs hframe).concat ?_
      rw [hreg]
      simp [Expr.eval]
    obtain ⟨σ',sh',hr,hs',htrace⟩ := hrun (ht.snoc hq) (hs.setReg _ _) hcount hholds
    rw [hcreated]
    exact ⟨σ',sh',((reaches_createBlock hprev rfl).trans (reaches_createBlock hbb hexec)).trans hr,
      hs',htrace⟩

theorem Plan.Creates.runs (hp : Plan.Creates ts p) (env₀ : Env) :
    ∀ {opId : ℕ} {c : CreateVisitor}, c.Continues pipe → c.inline.types = ts →
      (∀ type ∈ ts, type ≤ 1) → c.Runs env₀.db up pipe ts p opId := by
  induction hp with
  | @node ts srcDes inp _ ih =>
    intro opId c hc hts hle
    have hbelow : (⟨.reg (c.inline.reg .node),0⟩ : QrValue).Below (c.inline.visits+1) :=
      Nat.lt_succ_self _
    have hle' : ∀ type ∈ ts ++ [0], type ≤ 1 := by
      simpa [or_imp,forall_and] using hle
    refine .next hc rfl (ih (hc.next hbelow) (by rw [CreateVisitor.next_types,hts]) hle') ?_
    intro env db t σ ht hh
    let x := up.addNode db (env.args.label opId) (env.args.word (opId+1))
    exact ⟨x.1,.node x.2,.node x.2,.node x.2,rfl,rfl,.node,rfl,rfl⟩
  | @rship ts srcDes inp hsrc hdes _ ih =>
    intro opId c hc hts hle
    obtain ⟨n1,hn1⟩ := register_of_types hts hsrc
    obtain ⟨n2,hn2⟩ := register_of_types hts hdes
    have hcall : c.inline.createCall opId .rship srcDes =
        some (.createRship (c.inline.reg .rship) opId n1.regVal n2.regVal,
          ⟨.reg (c.inline.reg .rship),1⟩) := by
      simp [createCall,hn1,hn2]
    have hbelow : (⟨.reg (c.inline.reg .rship),1⟩ : QrValue).Below (c.inline.visits+1) :=
      Nat.lt_succ_self _
    have hle' : ∀ type ∈ ts ++ [1], type ≤ 1 := by
      simpa [or_imp,forall_and] using hle
    refine .next hc hcall (ih (hc.next hbelow) (by rw [CreateVisitor.next_types,hts]) hle') ?_
    intro env db t σ ht hh
    obtain ⟨a,ha⟩ := ht.node hsrc
    obtain ⟨b,hb⟩ := ht.node hdes
    have hg : Holds (env.withDb db) σ c.inline.regQueryResults (t.map (QrVal.toReg pipe)) :=
      hh.withDb hc.ok.regs
    have heval : n1.regVal.eval (env.withDb db) σ = .node a ∧
        n2.regVal.eval (env.withDb db) σ = .node b := by
      obtain ⟨q,hq,hqa,_⟩ := hg.getElem? (getElem?_toReg pipe ha)
      obtain ⟨q',hq',hqb,_⟩ := hg.getElem? (getElem?_toReg pipe hb)
      obtain rfl := Option.some.inj (hn1.symm.trans hq)
      obtain rfl := Option.some.inj (hn2.symm.trans hq')
      exact ⟨hqa,hqb⟩
    let x := up.addRelationship db a b (env.args.label opId) (env.args.word (opId+1))
    refine ⟨x.1,.rship x.2,.rship x.2,.rship x.2,rfl,?_,.rship,rfl,?_⟩
    · simp only [Plan.created,ha,hb,x]
    · simp only [execCreateBlock,heval.1,heval.2,GraphDb.nodeById_id,x]
  | reads hq hr =>
    intro opId c hc hts hle
    exact hr.runs hq hc hts hle env₀ opId

end GraphQueryCompiler
