import Mathlib.Tactic

/-!
# The ranges of the threads

`run_parallel` starts a thread for each range of chunks if the plan has a join. The number of
chunks is a `size_t`, the number of the threads an `unsigned`, the first chunk of the next range
an `int`. A range is inclusive, and the iterator over it ends with the last chunk there is.
-/

namespace GraphQueryCompiler

/-- What the closure of a thread captures. -/
structure ChunkRange where
  curStart : BitVec 32
  last : BitVec 64
  deriving DecidableEq, Repr

def ChunkRange.Covers (r : ChunkRange) (chunk : ℕ) : Prop :=
  (r.curStart.signExtend 64).toNat ≤ chunk ∧ chunk ≤ r.last.toNat

instance (r : ChunkRange) (chunk : ℕ) : Decidable (r.Covers chunk) :=
  inferInstanceAs (Decidable (_ ∧ _))

def curStart (chunksz : BitVec 64) : ℕ → BitVec 32
  | 0 => 0
  | i+1 => ((curStart chunksz i).signExtend 64 + chunksz).setWidth 32

def threadRange (numChunks : BitVec 64) (threadNum : BitVec 32) (i : ℕ) : ChunkRange :=
  let chunksz := numChunks / threadNum.setWidth 64
  let maxChunksz := numChunks
  let start := curStart chunksz i
  ⟨start,if BitVec.ofNat 32 i = threadNum - 1 then maxChunksz
    else start.signExtend 64 + chunksz - 1⟩

/-- Every chunk is scanned by one thread. -/
def CoversOnce (numChunks : BitVec 64) (threadNum : BitVec 32) : Prop :=
  ∀ chunk < numChunks.toNat,
    ∃! i, i < threadNum.toNat ∧ (threadRange numChunks threadNum i).Covers chunk

theorem toNat_signExtend (x : BitVec 32) : (x.signExtend 64).toNat =
    if x.toNat < 2^31 then x.toNat else x.toNat + (2^64 - 2^32) := by
  have hx := x.isLt
  rw [BitVec.toNat_signExtend,BitVec.toNat_setWidth,BitVec.msb_eq_decide]
  by_cases h : x.toNat < 2^31
  · simp only [h,if_true,decide_eq_true_eq]
    rw [if_neg (by omega)]
    omega
  · simp only [h,if_false,decide_eq_true_eq]
    rw [if_pos (by omega)]
    omega

theorem toNat_curStart (c : BitVec 64) (i : ℕ) : (curStart c i).toNat = i * c.toNat % 2^32 := by
  induction i with
  | zero => simp [curStart]
  | succ i ih =>
    have hstep : (curStart c (i+1)).toNat = ((curStart c i).toNat + c.toNat) % 2^32 := by
      rw [curStart,BitVec.toNat_setWidth,BitVec.toNat_add,toNat_signExtend]
      split_ifs <;> omega
    rw [hstep,ih,Nat.add_mul,Nat.one_mul]
    omega

theorem toNat_chunksz (n : BitVec 64) (t : BitVec 32) :
    (n / t.setWidth 64).toNat = n.toNat / t.toNat := by
  have ht := t.isLt
  rw [BitVec.toNat_udiv,BitVec.toNat_setWidth,Nat.mod_eq_of_lt (by omega)]

variable {n : BitVec 64} {t : BitVec 32} {i k : ℕ}

theorem ofNat_eq_last_iff (ht : 1 ≤ t.toNat) (hi : i < t.toNat) :
    BitVec.ofNat 32 i = t - 1 ↔ i + 1 = t.toNat := by
  have hlt := t.isLt
  have hone : (1 : BitVec 32).toNat = 1 := rfl
  rw [← BitVec.toNat_inj,BitVec.toNat_ofNat,BitVec.toNat_sub,hone]
  omega

theorem covers_iff {c : ℕ} (hc : n.toNat / t.toNat = c) (hpos : 0 < c) (hi : i < t.toNat)
    (hlt : i * c < 2^31) : (threadRange n t i).Covers k ↔
      i * c ≤ k ∧ (if i + 1 = t.toNat then k ≤ n.toNat else k < i * c + c) := by
  have hchunksz : (n / t.setWidth 64).toNat = c := by rw [toNat_chunksz,hc]
  have hstart : ((curStart (n / t.setWidth 64) i).signExtend 64).toNat = i * c := by
    rw [toNat_signExtend,toNat_curStart,hchunksz,Nat.mod_eq_of_lt (by omega),if_pos hlt]
  have hle : c ≤ n.toNat := hc ▸ Nat.div_le_self _ _
  have hn := n.isLt
  have hone : (1 : BitVec 64).toNat = 1 := rfl
  simp only [ChunkRange.Covers,threadRange,hstart,ofNat_eq_last_iff (by omega) hi]
  refine and_congr_right fun _ => ?_
  by_cases hlast : i + 1 = t.toNat
  · rw [if_pos hlast,if_pos hlast]
  · have hmul : (i+2) * c ≤ t.toNat * c := Nat.mul_le_mul_right c (by omega)
    have hdiv : t.toNat * c ≤ n.toNat := hc ▸ Nat.mul_div_le _ _
    rw [Nat.add_mul] at hmul
    rw [if_neg hlast,if_neg hlast,BitVec.toNat_sub,BitVec.toNat_add,hstart,hchunksz,hone]
    omega

theorem coversOnce_of_lt {c : ℕ} (hc : n.toNat / t.toNat = c) (hpos : 0 < c)
    (ht : 1 ≤ t.toNat) (hlt : (t.toNat - 1) * c < 2^31) : CoversOnce n t := by
  intro k hk
  have hstart : ∀ i, i < t.toNat → i * c < 2^31 := fun i hi =>
    lt_of_le_of_lt (Nat.mul_le_mul_right c (by omega)) hlt
  have hmul : k / c * c ≤ k := Nat.div_mul_le_self k c
  have hmod : k < k / c * c + c := by
    have := Nat.lt_div_mul_add hpos (a := k)
    omega
  have hunique : ∀ i, i + 1 ≠ t.toNat → i < t.toNat → (threadRange n t i).Covers k → i = k / c := by
    intro i hne hi hcov
    rw [covers_iff hc hpos hi (hstart i hi),if_neg hne] at hcov
    refine (Nat.div_eq_of_lt_le hcov.1 ?_).symm
    rw [Nat.add_mul,Nat.one_mul]
    exact hcov.2
  by_cases hlast : k / c + 1 < t.toNat
  · refine ⟨k/c,⟨by omega,?_⟩,fun i ⟨hi,hcov⟩ => ?_⟩
    · rw [covers_iff hc hpos (by omega) (hstart _ (by omega)),if_neg (by omega)]
      exact ⟨hmul,hmod⟩
    · by_cases hne : i + 1 = t.toNat
      · rw [covers_iff hc hpos hi (hstart i hi)] at hcov
        have hle : (k/c+1) * c ≤ i * c := Nat.mul_le_mul_right c (by omega)
        rw [Nat.add_mul,Nat.one_mul] at hle
        omega
      · exact hunique i hne hi hcov
  · refine ⟨t.toNat-1,⟨by omega,?_⟩,fun i ⟨hi,hcov⟩ => ?_⟩
    · have hle : (t.toNat-1) * c ≤ k/c * c := Nat.mul_le_mul_right c (by omega)
      rw [covers_iff hc hpos (by omega) (hstart _ (by omega)),if_pos (by omega)]
      omega
    · by_cases hne : i + 1 = t.toNat
      · omega
      · have := hunique i hne hi hcov
        omega

theorem covers_of_small (hc : n.toNat / t.toNat = 0) (hi : i < t.toNat) (hk : k ≤ n.toNat) :
    (threadRange n t i).Covers k := by
  have hchunksz : (n / t.setWidth 64).toNat = 0 := by rw [toNat_chunksz,hc]
  have hstart : ((curStart (n / t.setWidth 64) i).signExtend 64).toNat = 0 := by
    rw [toNat_signExtend,toNat_curStart,hchunksz]
    rfl
  have hn := n.isLt
  have hone : (1 : BitVec 64).toNat = 1 := rfl
  simp only [ChunkRange.Covers,threadRange,hstart,ofNat_eq_last_iff (by omega) hi]
  refine ⟨Nat.zero_le k,?_⟩
  split_ifs
  · exact hk
  · rw [BitVec.toNat_sub,BitVec.toNat_add,hstart,hchunksz,hone]
    omega

theorem coversOnce_one (ht : t.toNat = 1) : CoversOnce n t := by
  intro k hk
  refine ⟨0,⟨by omega,?_⟩,fun i ⟨hi,_⟩ => by omega⟩
  have hlast : BitVec.ofNat 32 0 = t - 1 := (ofNat_eq_last_iff (by omega) (by omega)).2 ht.symm
  simp only [ChunkRange.Covers,threadRange,if_pos hlast]
  exact ⟨Nat.zero_le k,hk.le⟩

/-- The first thread whose start is no `int` either leaves its first chunk out or begins in the
block of another. -/
theorem not_coversOnce_of_le {c : ℕ} (hc : n.toNat / t.toNat = c) (hpos : 0 < c)
    (ht : 2 ≤ t.toNat) (hle : 2^31 ≤ (t.toNat - 1) * c) : ¬ CoversOnce n t := by
  intro h
  have hex : ∃ i, 2^31 ≤ i * c := ⟨_,hle⟩
  obtain ⟨i,hi,hfirst⟩ : ∃ i, 2^31 ≤ i * c ∧ ∀ j, j < i → j * c < 2^31 :=
    ⟨Nat.find hex,Nat.find_spec hex,fun j hj => Nat.lt_of_not_le (Nat.find_min hex hj)⟩
  have hit : i < t.toNat := by
    by_contra hge
    have := hfirst (t.toNat-1) (by omega)
    omega
  have hdiv : t.toNat * c ≤ n.toNat := hc ▸ Nat.mul_div_le _ _
  have htwo : 2 * c ≤ t.toNat * c := Nat.mul_le_mul_right c ht
  have hic : (i+1) * c ≤ t.toNat * c := Nat.mul_le_mul_right c hit
  have hipos : 0 < i := by
    rcases Nat.eq_zero_or_pos i with rfl | hpos
    · simp at hi
    · exact hpos
  have hprev := hfirst (i-1) (by omega)
  have hsucc : (i-1+1) * c = i * c := by rw [Nat.sub_add_cancel hipos]
  rw [Nat.add_mul,Nat.one_mul] at hic hsucc
  have hn := n.isLt
  obtain ⟨j,⟨hj,hcov⟩,_⟩ := h (i*c) (by omega)
  by_cases hji : j < i
  · rw [covers_iff hc hpos hj (hfirst j hji),if_neg (by omega)] at hcov
    have hblock : (j+1) * c ≤ i * c := Nat.mul_le_mul_right c hji
    rw [Nat.add_mul,Nat.one_mul] at hblock
    omega
  · obtain ⟨s,hs⟩ : ∃ s, s = (curStart (n / t.setWidth 64) j).toNat := ⟨_,rfl⟩
    have hstart := toNat_signExtend (curStart (n / t.setWidth 64) j)
    rw [← hs] at hstart
    have hle : ((curStart (n / t.setWidth 64) j).signExtend 64).toNat ≤ i * c := hcov.1
    by_cases hint : s < 2^31
    · rw [if_pos hint] at hstart
      have hmul : s / c * c ≤ s := Nat.div_mul_le_self s c
      have hown : s / c < i := by
        by_contra hge
        have := Nat.mul_le_mul_right c (Nat.le_of_not_lt hge)
        omega
      have hmod : s < s / c * c + c := by
        have := Nat.lt_div_mul_add hpos (a := s)
        omega
      have hfor : (threadRange n t (s/c)).Covers s := by
        rw [covers_iff hc hpos (by omega) (hfirst _ hown),if_neg (by omega)]
        exact ⟨hmul,hmod⟩
      have hagain : (threadRange n t j).Covers s := ⟨hstart.le,by have := hcov.2; omega⟩
      have heq := (h s (by omega)).unique ⟨by omega,hfor⟩ ⟨hj,hagain⟩
      omega
    · rw [if_neg hint] at hstart
      omega

/-- The ranges cover every chunk once exactly if there is no chunk or only one thread, or there
are enough chunks for all threads and the start of the last range is an `int`. -/
theorem coversOnce_iff (n : BitVec 64) (t : BitVec 32) (ht : 1 ≤ t.toNat) : CoversOnce n t ↔
    n.toNat = 0 ∨ t.toNat = 1 ∨
      t.toNat ≤ n.toNat ∧ (t.toNat - 1) * (n.toNat / t.toNat) < 2^31 := by
  constructor
  · intro h
    by_cases hn : n.toNat = 0
    · exact .inl hn
    by_cases hone : t.toNat = 1
    · exact .inr (.inl hone)
    by_cases hsmall : n.toNat < t.toNat
    · have hc : n.toNat / t.toNat = 0 := Nat.div_eq_of_lt hsmall
      have h₀ : 0 < t.toNat := by omega
      have h₁ : 1 < t.toNat := by omega
      have heq := (h 0 (by omega)).unique ⟨h₀,covers_of_small hc h₀ (Nat.zero_le _)⟩
        ⟨h₁,covers_of_small hc h₁ (Nat.zero_le _)⟩
      omega
    · refine .inr (.inr ⟨by omega,Nat.lt_of_not_le fun hle => ?_⟩)
      exact not_coversOnce_of_le rfl (Nat.div_pos (by omega) ht) (by omega) hle h
  · rintro (hn | hone | ⟨hle,hlt⟩)
    · intro k hk
      omega
    · exact coversOnce_one hone
    · exact coversOnce_of_lt rfl (Nat.div_pos hle ht) ht hlt

theorem coversOnce_five_two : CoversOnce 5 2 :=
  (coversOnce_iff 5 2 (by decide)).2 (.inr (.inr (by decide)))

/-- One chunk for two threads. -/
theorem not_coversOnce_one_two : ¬ CoversOnce 1 2 := by
  intro h
  have h₀ : (threadRange 1 2 0).Covers 0 := by decide
  have h₁ : (threadRange 1 2 1).Covers 0 := by decide
  have heq := (h 0 (by decide)).unique ⟨by decide,h₀⟩ ⟨by decide,h₁⟩
  exact absurd heq (by decide)

end GraphQueryCompiler
