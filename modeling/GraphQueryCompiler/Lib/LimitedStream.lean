import Mathlib.Tactic

/-!
# Limits in a stream

A pipeline with limits is run element by element. Its events are the arrivals of elements at the
limits, and the rows. Read limit by limit, each limit takes the first of the elements that arrive
at it, with what comes of them. In the run a limit decides for each element whether it is full, and
the run ends there if it is. Limits that count what has arrived at themselves decide as they are
read. Limits with one count for all of them do so only for some arrivals.
-/

namespace LimitedStream
variable {α ι : Type*}

inductive Event (ι α : Type*)
  | arrive (k : ι)
  | row (t : α)

def Event.row? : Event ι α → Option α
  | .arrive _ => none
  | .row t => some t

def Event.arrival? : Event ι α → Option ι
  | .arrive k => some k
  | .row _ => none

def rows (es : List (Event ι α)) : List α := es.filterMap Event.row?

def arrivals (es : List (Event ι α)) : List ι := es.filterMap Event.arrival?

section Simp
variable (k : ι) (t : α) (es es' : List (Event ι α))

@[simp] theorem rows_nil : rows ([] : List (Event ι α)) = [] := rfl
@[simp] theorem rows_row : rows (.row t :: es) = t :: rows es := rfl
@[simp] theorem rows_arrive : rows (.arrive k :: es) = rows es := rfl
@[simp] theorem rows_append : rows (es ++ es') = rows es ++ rows es' := List.filterMap_append
@[simp] theorem arrivals_nil : arrivals ([] : List (Event ι α)) = [] := rfl
@[simp] theorem arrivals_row : arrivals (.row t :: es) = arrivals es := rfl
@[simp] theorem arrivals_arrive : arrivals (.arrive k :: es) = k :: arrivals es := rfl
@[simp] theorem arrivals_append : arrivals (es ++ es') = arrivals es ++ arrivals es' :=
  List.filterMap_append

end Simp

section Read
variable [DecidableEq ι]

/-- The events before an element arrives at the limit `k`, and for each element that arrives there
the events up to the next one. -/
def split (k : ι) : List (Event ι α) → List (Event ι α) × List (List (Event ι α))
  | [] => ([],[])
  | .row t :: es => (.row t :: (split k es).1,(split k es).2)
  | .arrive k' :: es =>
    if k' = k then ([],(.arrive k' :: (split k es).1) :: (split k es).2)
    else (.arrive k' :: (split k es).1,(split k es).2)

def take (k : ι) (n : ℕ) (es : List (Event ι α)) : List (Event ι α) :=
  (split k es).1 ++ ((split k es).2.take n).flatten

def read (bound : ι → ℕ) : List ι → List (Event ι α) → List (Event ι α)
  | [], es => es
  | k :: ks, es => read bound ks (take k (bound k) es)

variable {k k' : ι} {n : ℕ} {t : α} {ks : List ι} {es es' : List (Event ι α)} {bound : ι → ℕ}

@[simp] theorem take_nil : take k n ([] : List (Event ι α)) = [] := by simp [take,split]

@[simp] theorem take_row : take k n (.row t :: es) = .row t :: take k n es := by
  simp [take,split]

theorem take_arrive_ne (h : k' ≠ k) : take k n (.arrive k' :: es) = .arrive k' :: take k n es := by
  simp [take,split,h]

@[simp] theorem take_arrive_zero : take k 0 (.arrive k :: es) = [] := by simp [take,split]

@[simp] theorem take_arrive_succ :
    take k (n+1) (.arrive k :: es) = .arrive k :: take k n es := by
  simp [take,split]

@[simp] theorem read_nil : read bound ks ([] : List (Event ι α)) = [] := by
  induction ks with
  | nil => rfl
  | cons k ks ih => rw [read,take_nil,ih]

@[simp] theorem read_row : read bound ks (.row t :: es) = .row t :: read bound ks es := by
  induction ks generalizing es with
  | nil => rfl
  | cons k ks ih => rw [read,take_row,ih,read]

theorem read_arrive_of_notMem (h : k ∉ ks) :
    read bound ks (.arrive k :: es) = .arrive k :: read bound ks es := by
  induction ks generalizing es with
  | nil => rfl
  | cons k' ks ih =>
    rw [List.mem_cons,not_or] at h
    obtain ⟨hne,h⟩ := h
    rw [read,take_arrive_ne hne,ih h,read]

theorem read_arrive_zero (h : k ∈ ks) (hk : bound k = 0) :
    read bound ks (.arrive k :: es) = [] := by
  induction ks generalizing es with
  | nil => cases h
  | cons k' ks ih =>
    by_cases hkk : k = k'
    · subst hkk
      rw [read,hk,take_arrive_zero,read_nil]
    · rw [read,take_arrive_ne hkk,ih ((List.mem_cons.1 h).resolve_left hkk)]

theorem read_congr {bound' : ι → ℕ} (h : ∀ k ∈ ks, bound k = bound' k) :
    read bound ks es = read bound' ks es := by
  induction ks generalizing es with
  | nil => rfl
  | cons k ks ih =>
    obtain ⟨hk,h⟩ := List.forall_mem_cons.1 h
    rw [read,read,hk,ih h]

theorem read_arrive_succ {bound' : ι → ℕ} (h : k ∈ ks) (hks : ks.Nodup)
    (hk : bound k = bound' k + 1) (hne : ∀ k', k' ≠ k → bound k' = bound' k') :
    read bound ks (.arrive k :: es) = .arrive k :: read bound' ks es := by
  induction ks generalizing es with
  | nil => cases h
  | cons k' ks ih =>
    obtain ⟨hk',hks⟩ := List.nodup_cons.1 hks
    by_cases hkk : k = k'
    · subst hkk
      have hrest : ∀ k' ∈ ks, bound k' = bound' k' := by
        intro k' hmem
        apply hne
        rintro rfl
        exact hk' hmem
      rw [read,hk,take_arrive_succ,read_arrive_of_notMem hk',read_congr hrest,read]
    · rw [read,take_arrive_ne hkk,ih ((List.mem_cons.1 h).resolve_left hkk) hks,
        hne k' (Ne.symm hkk),read]

end Read

abbrev Full (ι : Type*) := List ι → ι → Prop

def shared (bound : ι → ℕ) : Full ι := fun ks k => ks.length = bound k

def own [DecidableEq ι] (bound : ι → ℕ) : Full ι := fun ks k => ks.count k = bound k

instance (bound : ι → ℕ) (ks : List ι) (k : ι) : Decidable (shared bound ks k) :=
  inferInstanceAs (Decidable (ks.length = bound k))

instance [DecidableEq ι] (bound : ι → ℕ) (ks : List ι) (k : ι) : Decidable (own bound ks k) :=
  inferInstanceAs (Decidable (ks.count k = bound k))

def run (full : Full ι) [∀ ks k, Decidable (full ks k)] :
    List ι → List (Event ι α) → List (Event ι α)
  | _, [] => []
  | ks, .row t :: es => .row t :: run full ks es
  | ks, .arrive k :: es => .arrive k :: if full ks k then [] else run full (ks ++ [k]) es

def stops (full : Full ι) [∀ ks k, Decidable (full ks k)] : List ι → List (Event ι α) → Bool
  | _, [] => false
  | ks, .row _ :: es => stops full ks es
  | ks, .arrive k :: es => if full ks k then true else stops full (ks ++ [k]) es

section Append
variable {full : Full ι} [∀ ks k, Decidable (full ks k)] {es : List (Event ι α)}
  (es' : List (Event ι α))

theorem run_append_of_stops : ∀ {ks : List ι}, stops full ks es = true →
    run full ks (es ++ es') = run full ks es ∧ stops full ks (es ++ es') = true := by
  induction es with
  | nil => simp [stops]
  | cons e es ih =>
    intro ks h
    cases e with
    | row t => exact ⟨congrArg (Event.row t :: ·) (ih h).1,(ih h).2⟩
    | arrive k =>
      rw [stops] at h
      simp only [List.cons_append,run,stops]
      by_cases hfull : full ks k
      · simp only [if_pos hfull,and_self]
      · rw [if_neg hfull] at h
        obtain ⟨hrun,hstops⟩ := ih h
        simp only [if_neg hfull,hrun,hstops,and_self]

theorem run_append : ∀ {ks : List ι}, stops full ks es = false →
    run full ks (es ++ es') = run full ks es ++ run full (ks ++ arrivals es) es' ∧
      stops full ks (es ++ es') = stops full (ks ++ arrivals es) es' := by
  induction es with
  | nil => simp [run]
  | cons e es ih =>
    intro ks h
    cases e with
    | row t => exact ⟨congrArg (Event.row t :: ·) (ih h).1,(ih h).2⟩
    | arrive k =>
      rw [stops] at h
      simp only [List.cons_append,run,stops]
      by_cases hfull : full ks k
      · rw [if_pos hfull] at h
        cases h
      · rw [if_neg hfull] at h
        obtain ⟨hrun,hstops⟩ := ih h
        simp only [if_neg hfull,hrun,hstops,arrivals_arrive,List.append_assoc,
          List.cons_append,List.nil_append,and_self]

omit es' in
theorem run_of_no_arrivals : ∀ {ks : List ι}, arrivals es = [] →
    run full ks es = es ∧ stops full ks es = false := by
  induction es with
  | nil => exact fun _ => ⟨rfl,rfl⟩
  | cons e es ih =>
    intro ks h
    cases e with
    | row t => exact ⟨congrArg (Event.row t :: ·) (ih h).1,(ih h).2⟩
    | arrive k => cases h

end Append

section Run
variable [DecidableEq ι] {bound : ι → ℕ} {names : List ι} {es : List (Event ι α)}

theorem rows_read (hn : names.Nodup) : ∀ {ks : List ι}, (∀ k ∈ arrivals es, k ∈ names) →
    (∀ k, ks.count k ≤ bound k) →
    rows (read (fun k => bound k - ks.count k) names es) = rows (run (own bound) ks es) := by
  induction es with
  | nil => simp [run]
  | cons e es ih =>
    intro ks hmem hle
    cases e with
    | row t => rw [read_row,rows_row,ih hmem hle,run,rows_row]
    | arrive k =>
      obtain ⟨hk,hmem⟩ := List.forall_mem_cons.1 hmem
      rw [run,rows_arrive]
      by_cases hfull : own bound ks k
      · rw [if_pos hfull,read_arrive_zero hk (Nat.sub_eq_zero_of_le (ge_of_eq hfull))]
      · have hlt : ks.count k < bound k := lt_of_le_of_ne (hle k) hfull
        have hcount : ∀ k', (ks ++ [k]).count k' = ks.count k' + if k = k' then 1 else 0 := by
          intro k'
          rw [List.count_append,List.count_singleton]
          simp
        have hle' : ∀ k', (ks ++ [k]).count k' ≤ bound k' := by
          intro k'
          rw [hcount]
          split_ifs with h
          · rw [← h]
            omega
          · exact hle k'
        have hsucc : read (fun k => bound k - ks.count k) names (.arrive k :: es) =
            .arrive k :: read (fun k' => bound k' - (ks ++ [k]).count k') names es := by
          apply read_arrive_succ hk hn
          · rw [hcount,if_pos rfl]
            omega
          · intro k' hne
            rw [hcount,if_neg (Ne.symm hne),Nat.add_zero]
        rw [if_neg hfull,← ih hmem hle',hsucc,rows_arrive]

/-- On the way of the run with one count, the limits decide as with counts of their own. -/
def Agree (bound : ι → ℕ) : List ι → List ι → Prop
  | _, [] => True
  | ks, k :: A => (shared bound ks k ↔ own bound ks k) ∧
    (¬ shared bound ks k → Agree bound (ks ++ [k]) A)

theorem Agree.run_eq : ∀ {ks : List ι}, Agree bound ks (arrivals es) →
    run (shared bound) ks es = run (own bound) ks es := by
  induction es with
  | nil => exact fun _ => rfl
  | cons e es ih =>
    intro ks h
    cases e with
    | row t => rw [run,run,ih h]
    | arrive k =>
      obtain ⟨hiff,h⟩ := h
      rw [run,run]
      by_cases hfull : shared bound ks k
      · rw [if_pos hfull,if_pos (hiff.1 hfull)]
      · rw [if_neg hfull,if_neg fun hown => hfull (hiff.2 hown),ih (h hfull)]

theorem agree_iff_run : ∀ {ks : List ι}, Agree bound ks (arrivals es) ↔
    ∀ pre k post, run (shared bound) ks es = pre ++ .arrive k :: post →
      (shared bound (ks ++ arrivals pre) k ↔ own bound (ks ++ arrivals pre) k) := by
  induction es with
  | nil => simp [Agree,run]
  | cons e es ih =>
    intro ks
    cases e with
    | row t =>
      rw [arrivals_row,ih,run]
      constructor
      · intro h pre k post heq
        cases pre with
        | nil => cases heq
        | cons e pre =>
          obtain ⟨rfl,htail⟩ := List.cons_eq_cons.1 heq
          exact h pre k post htail
      · intro h pre k post heq
        exact h (.row t :: pre) k post (congrArg (.row t :: ·) heq)
    | arrive k =>
      rw [arrivals_arrive,Agree,run]
      constructor
      · rintro ⟨hiff,h⟩ pre k' post heq
        cases pre with
        | nil =>
          obtain ⟨hkk,_⟩ := List.cons_eq_cons.1 heq
          obtain rfl := Event.arrive.inj hkk
          rwa [arrivals_nil,List.append_nil]
        | cons e pre =>
          obtain ⟨rfl,htail⟩ := List.cons_eq_cons.1 heq
          by_cases hfull : shared bound ks k
          · rw [if_pos hfull] at htail
            simp at htail
          · rw [if_neg hfull] at htail
            have hrest := ih.1 (h hfull) pre k' post htail
            rwa [List.append_assoc] at hrest
      · intro h
        constructor
        · simpa using h [] k _ rfl
        · intro hfull
          apply ih.2
          intro pre k' post heq
          have hrest := h (.arrive k :: pre) k' post (by rw [if_neg hfull,heq]; rfl)
          rwa [arrivals_arrive,← List.singleton_append,← List.append_assoc] at hrest

/-- A limit fills up before an element has arrived at another one. -/
def FirstAlone (bound : ι → ℕ) (A : List ι) : Prop := ∃ k, List.replicate (bound k + 1) k <+: A

/-- No element arrives at a limit with as many arrivals before it as the limit may take, neither of
all arrivals nor of those at the limit. -/
def NoneFull (bound : ι → ℕ) (A : List ι) : Prop :=
  ∀ pre k post, A = pre ++ k :: post → pre.length ≠ bound k ∧ pre.count k ≠ bound k

theorem Agree.full_or_none {A : List ι} : ∀ {ks : List ι}, Agree bound ks A →
    (∃ pre k post, A = pre ++ k :: post ∧ shared bound (ks ++ pre) k ∧ own bound (ks ++ pre) k) ∨
      ∀ pre k post, A = pre ++ k :: post → ¬ shared bound (ks ++ pre) k ∧
        ¬ own bound (ks ++ pre) k := by
  induction A with
  | nil => exact fun _ => .inr (by simp)
  | cons a A ih =>
    rintro ks ⟨hiff,h⟩
    have happend : ∀ pre, ks ++ a :: pre = (ks ++ [a]) ++ pre := by simp
    by_cases hfull : shared bound ks a
    · have hown := hiff.1 hfull
      rw [← List.append_nil ks] at hfull hown
      exact .inl ⟨[],a,A,rfl,hfull,hown⟩
    · rcases ih (h hfull) with ⟨pre,k,post,rfl,hs,ho⟩ | hnone
      · rw [← happend] at hs ho
        exact .inl ⟨a :: pre,k,post,rfl,hs,ho⟩
      · right
        intro pre k post heq
        cases pre with
        | nil =>
          obtain ⟨rfl,_⟩ := List.cons_eq_cons.1 heq
          rw [List.append_nil]
          exact ⟨hfull,fun hown => hfull (hiff.2 hown)⟩
        | cons e pre =>
          obtain ⟨rfl,htail⟩ := List.cons_eq_cons.1 heq
          rw [happend]
          exact hnone pre k post htail

theorem agree_of_none {A : List ι} : ∀ {ks : List ι},
    (∀ pre k post, A = pre ++ k :: post → ¬ shared bound (ks ++ pre) k ∧
      ¬ own bound (ks ++ pre) k) →
      Agree bound ks A := by
  induction A with
  | nil => exact fun _ => trivial
  | cons a A ih =>
    intro ks h
    obtain ⟨hs,ho⟩ := h [] a A rfl
    rw [List.append_nil] at hs ho
    refine ⟨iff_of_false hs ho,fun _ => ih fun pre k post heq => ?_⟩
    have hrest := h (a :: pre) k post (congrArg (a :: ·) heq)
    rwa [← List.singleton_append,← List.append_assoc] at hrest

theorem agree_replicate {k : ι} {A : List ι} (n : ℕ) : ∀ {m : ℕ}, m + n = bound k →
    Agree bound (List.replicate m k) (List.replicate (n+1) k ++ A) := by
  induction n with
  | zero =>
    intro m hm
    have hs : shared bound (List.replicate m k) k := by simpa [shared] using hm
    have ho : own bound (List.replicate m k) k := by simpa [own] using hm
    exact ⟨iff_of_true hs ho,fun h => absurd hs h⟩
  | succ n ih =>
    intro m hm
    have hs : ¬ shared bound (List.replicate m k) k := by
      rw [shared,List.length_replicate]
      omega
    have ho : ¬ own bound (List.replicate m k) k := by
      rw [own,List.count_replicate_self]
      omega
    refine ⟨iff_of_false hs ho,fun _ => ?_⟩
    have hrest := ih (m := m+1) (by omega)
    rwa [List.replicate_succ'] at hrest

theorem agree_iff {A : List ι} : Agree bound [] A ↔ FirstAlone bound A ∨ NoneFull bound A := by
  constructor
  · intro h
    refine h.full_or_none.imp ?_ id
    rintro ⟨pre,k,post,rfl,hs,ho⟩
    have hpre : pre = List.replicate (bound k) k := by
      refine List.eq_replicate_iff.2 ⟨hs,fun k' hk' => ?_⟩
      exact (List.count_eq_length.1 (Eq.trans ho (Eq.symm hs)) k' hk').symm
    refine ⟨k,post,?_⟩
    rw [List.replicate_succ',List.append_assoc,List.singleton_append,← hpre]
  · rintro (⟨k,A,rfl⟩ | h)
    · exact agree_replicate _ (Nat.zero_add _)
    · exact agree_of_none h

end Run

inductive Stage (ι α : Type*)
  | each (f : α → List α)
  | limit (k : ι)

def through (bound : ι → ℕ) : List (Stage ι α) → List α → List α
  | [], ts => ts
  | .each f :: ss, ts => through bound ss (ts.flatMap f)
  | .limit k :: ss, ts => through bound ss (ts.take (bound k))

def events : List (Stage ι α) → α → List (Event ι α)
  | [], t => [.row t]
  | .each f :: ss, t => (f t).flatMap (events ss)
  | .limit k :: ss, t => .arrive k :: events ss t

def limits : List (Stage ι α) → List ι
  | [] => []
  | .each _ :: ss => limits ss
  | .limit k :: ss => k :: limits ss

theorem mem_limits_of_arrivals {ss : List (Stage ι α)} : ∀ {t : α} {k : ι},
    k ∈ arrivals (events ss t) → k ∈ limits ss := by
  induction ss with
  | nil => simp [events,arrivals,Event.arrival?]
  | cons s ss ih =>
    intro t k h
    cases s with
    | each f =>
      simp only [arrivals,events,List.mem_filterMap,List.mem_flatMap] at h
      obtain ⟨e,⟨u,_,he⟩,hk⟩ := h
      exact ih (List.mem_filterMap.2 ⟨e,he,hk⟩)
    | limit k' =>
      rw [events,arrivals_arrive,List.mem_cons] at h
      rw [limits,List.mem_cons]
      exact h.imp id ih

section Stages
variable [DecidableEq ι] {k : ι} {n : ℕ} {bound : ι → ℕ} {ks : List ι} {es es' : List (Event ι α)}
  {ss : List (Stage ι α)} {ts : List α}

theorem take_append_of_notMem (h : k ∉ arrivals es) :
    take k n (es ++ es') = es ++ take k n es' := by
  induction es with
  | nil => rfl
  | cons e es ih =>
    cases e with
    | row t => rw [List.cons_append,take_row,ih h,List.cons_append]
    | arrive k' =>
      rw [arrivals_arrive,List.mem_cons,not_or] at h
      rw [List.cons_append,take_arrive_ne (Ne.symm h.1),ih h.2,List.cons_append]

theorem take_flatMap_arrive (h : k ∉ limits ss) : ∀ {n : ℕ},
    take k n (ts.flatMap fun t => .arrive k :: events ss t) =
      (ts.take n).flatMap fun t => .arrive k :: events ss t := by
  induction ts with
  | nil => simp
  | cons t ts ih =>
    intro n
    rw [List.flatMap_cons,List.cons_append]
    cases n with
    | zero => simp
    | succ n =>
      rw [take_arrive_succ,take_append_of_notMem fun hk => h (mem_limits_of_arrivals hk),ih]
      simp

def without (k : ι) (es : List (Event ι α)) : List (Event ι α) :=
  es.filter fun e => e.arrival? ≠ some k

theorem rows_without : rows (without k es) = rows es := by
  induction es with
  | nil => rfl
  | cons e es ih =>
    cases e with
    | row t =>
      rw [rows_row,← ih]
      rfl
    | arrive k' =>
      rw [rows_arrive,← ih,without,List.filter_cons]
      split_ifs <;> rfl

theorem without_take {k' : ι} (h : k' ≠ k) : ∀ {n : ℕ},
    without k (take k' n es) = take k' n (without k es) := by
  induction es with
  | nil => simp [without]
  | cons e es ih =>
    intro n
    cases e with
    | row t =>
      have hcons : ∀ es : List (Event ι α), without k (.row t :: es) = .row t :: without k es :=
        fun _ => List.filter_cons_of_pos (by simp [Event.arrival?])
      rw [take_row,hcons,hcons,take_row,ih]
    | arrive j =>
      by_cases hj : j = k
      · subst hj
        have hcons : ∀ es : List (Event ι α), without j (.arrive j :: es) = without j es :=
          fun _ => List.filter_cons_of_neg (by simp [Event.arrival?])
        rw [take_arrive_ne (Ne.symm h),hcons,hcons,ih]
      · have hcons : ∀ es : List (Event ι α), without k (.arrive j :: es) =
          .arrive j :: without k es :=
          fun _ => List.filter_cons_of_pos (by simpa [Event.arrival?] using hj)
        by_cases hk' : j = k'
        · subst hk'
          cases n with
          | zero => rw [take_arrive_zero,hcons,take_arrive_zero]; rfl
          | succ n => rw [take_arrive_succ,hcons,hcons,take_arrive_succ,ih]
        · rw [take_arrive_ne hk',hcons,hcons,take_arrive_ne hk',ih]

theorem without_read (h : k ∉ ks) :
    without k (read bound ks es) = read bound ks (without k es) := by
  induction ks generalizing es with
  | nil => rfl
  | cons k' ks ih =>
    rw [List.mem_cons,not_or] at h
    rw [read,ih h.2,without_take (Ne.symm h.1),read]

theorem rows_read_events (hn : (limits ss).Nodup) : ∀ {ts : List α},
    rows (read bound (limits ss) (ts.flatMap (events ss))) = through bound ss ts := by
  induction ss with
  | nil =>
    intro ts
    induction ts with
    | nil => rfl
    | cons t ts ih => exact congrArg (t :: ·) ih
  | cons s ss ih =>
    intro ts
    cases s with
    | each f =>
      rw [limits] at hn
      rw [through,← ih hn,List.flatMap_assoc]
      rfl
    | limit k =>
      obtain ⟨hk,hn⟩ := List.nodup_cons.1 hn
      have harrive : ∀ ts : List α,
          without k (ts.flatMap fun t => .arrive k :: events ss t) =
            without k (ts.flatMap (events ss)) := by
        intro ts
        simp only [without,List.filter_flatMap]
        refine congrArg (List.flatMap · ts) (funext fun t => ?_)
        exact List.filter_cons_of_neg (by simp [Event.arrival?])
      rw [limits,read,through,← ih hn]
      simp only [events]
      rw [take_flatMap_arrive hk,← rows_without (k := k),without_read hk,harrive,← without_read hk,
        rows_without]

end Stages

end LimitedStream
