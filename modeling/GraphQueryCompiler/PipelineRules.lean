import GraphQueryCompiler.PipelineSemantics

/-!
# Rules for structured execution

Loop rules with an invariant over the elements that are left, and what a pipeline delivers
to its leaf.
-/

namespace GraphQueryCompiler
open LinkedChain

variable {env : Env} {pipe : ℕ} {j : JoinCtx} {p : Plan} {opId : ℕ} {t : Tuple} {sh : Shared}

theorem Exec.rships_rule {dir : RshipDir} {code i : ℕ} {l : List ℕ}
    (hchain : IsChain (fun r => (env.db.rshipById r).nextRship dir) unknownId IsId i l)
    {P : List ℕ → Shared → Prop}
    (hskip : ∀ r l sh, (env.db.rshipById r).rshipLabel ≠ code → P (r :: l) sh → P l sh)
    (hhit : ∀ r l sh, (env.db.rshipById r).rshipLabel = code → P (r :: l) sh →
      ∃ sh₁, Exec env pipe (.run p opId j (t ++ [(.rship r,1)])) sh .backflow sh₁ ∧ P l sh₁) :
    ∀ {sh : Shared}, P l sh →
      ∃ sh', Exec env pipe (.rships dir code i p opId j t) sh .backflow sh' ∧ P [] sh' := by
  induction hchain with
  | nil => exact fun h => ⟨_,.rshipsDone,h⟩
  | @cons r l hr _ ih =>
    intro sh h
    by_cases hcode : (env.db.rshipById r).rshipLabel = code
    · obtain ⟨sh₁,hrun,h₁⟩ := hhit r l sh hcode h
      obtain ⟨sh₂,hrest,h₂⟩ := ih h₁
      exact ⟨sh₂,.rshipsHit hr hcode hrun hrest,h₂⟩
    · obtain ⟨sh₁,hrest,h₁⟩ := ih (hskip r l sh hcode h)
      exact ⟨sh₁,.rshipsSkip hr hcode hrest,h₁⟩

theorem ScanExec.rule {code : ℕ} {ns : List ℕ} {P : List ℕ → Shared → Prop}
    (hskip : ∀ n ns sh, (env.db.nodeById n).nodeLabel ≠ code → P (n :: ns) sh → P ns sh)
    (hhit : ∀ n ns sh, (env.db.nodeById n).nodeLabel = code → P (n :: ns) sh →
      ∃ sh₁, Exec env pipe (.run p opId j [(.node n,0)]) sh .backflow sh₁ ∧ P ns sh₁) :
    ∀ {sh : Shared}, P ns sh →
      ∃ sh', ScanExec env pipe code p opId j ns sh sh' ∧ P [] sh' := by
  induction ns with
  | nil => exact fun h => ⟨_,.nil,h⟩
  | cons n ns ih =>
    intro sh h
    by_cases hcode : (env.db.nodeById n).nodeLabel = code
    · obtain ⟨sh₁,hrun,h₁⟩ := hhit n ns sh hcode h
      obtain ⟨sh₂,hrest,h₂⟩ := ih h₁
      exact ⟨sh₂,.hit hcode hrun hrest,h₂⟩
    · obtain ⟨sh₁,hrest,h₁⟩ := ih (hskip n ns sh hcode h)
      exact ⟨sh₁,.skip hcode hrest,h₁⟩

inductive Sink
  | result
  | list (jid : ℕ)
  deriving DecidableEq, Repr

def Sink.event : Sink → List QrVal → Event
  | .result => .collect
  | .list jid => .materialize jid

def Sink.added : Sink → ℕ → List (List QrVal) → List (List QrVal)
  | .result, _, _ => []
  | .list jid, i, rows => if i = jid then rows else []

def Plan.sink : Plan → JoinCtx → Option Sink
  | .scan _ _ inp, j => inp.sink j
  | .foreachRship _ _ _ inp, j => inp.sink j
  | .expand _ _ inp, j => inp.sink j
  | .filter _ inp, j => inp.sink j
  | .project _ inp, j => inp.sink j
  | .join _ _ lhs _, j => lhs.sink j.push
  | .sort _ inp, j => inp.sink j
  | .limit _ inp, j => inp.sink j
  | .create _ _ inp, j => inp.sink j
  | .collect _, _ => some .result
  | .endOp, j => j.jids.head?.map .list

namespace Shared

def deliver (sh : Shared) (s : Sink) (rows : List (List QrVal)) : Shared where
  cell := sh.cell
  rhsInput := fun i => sh.rhsInput i ++ s.added i rows
  trace := sh.trace ++ rows.map s.event

variable {s : Sink}

@[simp] theorem deliver_cell (rows : List (List QrVal)) : (sh.deliver s rows).cell = sh.cell := rfl

@[simp] theorem set_deliver_rhsInput (c : CellName) (x : Val) (rows : List (List QrVal)) :
    ((sh.set c x).deliver s rows).rhsInput = (sh.deliver s rows).rhsInput := rfl

@[simp] theorem set_deliver_trace (c : CellName) (x : Val) (rows : List (List QrVal)) :
    ((sh.set c x).deliver s rows).trace = (sh.deliver s rows).trace := rfl

theorem deliver_rhsInput_ne {jid : ℕ} (h : s ≠ .list jid) (rows : List (List QrVal)) :
    (sh.deliver s rows).rhsInput jid = sh.rhsInput jid := by
  cases s with
  | result => simp [deliver,Sink.added]
  | list i =>
    have hne : jid ≠ i := by rintro rfl; exact h rfl
    simp [deliver,Sink.added,hne]

@[simp] theorem deliver_nil : sh.deliver s [] = sh := by
  cases s <;> simp [deliver,Sink.added]

theorem deliver_append (a b : List (List QrVal)) :
    sh.deliver s (a ++ b) = (sh.deliver s a).deliver s b := by
  cases s with
  | result => simp [deliver,Sink.added]
  | list jid =>
    simp only [deliver,Sink.added,List.map_append,List.append_assoc,mk.injEq,true_and,and_true]
    funext i
    split_ifs <;> simp

theorem collect_eq_deliver (q : List QrVal) : sh.collect q = sh.deliver .result [q] := by
  simp [collect,deliver,Sink.added,Sink.event]

theorem materialize_eq_deliver (jid : ℕ) (q : List QrVal) :
    sh.materialize jid q = sh.deliver (.list jid) [q] := by
  simp only [materialize,deliver,Sink.added,Sink.event,List.map_cons,List.map_nil,mk.injEq,
    true_and,and_true]
  funext i
  split_ifs <;> simp

end Shared
end GraphQueryCompiler
