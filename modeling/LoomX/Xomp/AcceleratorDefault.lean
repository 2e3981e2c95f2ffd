import LoomX.Xomp.LoopDefault

namespace LoomX.Xomp

/-- On the device a failed check of the direction is passed over. -/
def xompCudaLoopDefaultInternal (lower upper stride numThreads threadId : Int) : Int × Int :=
  threadBounds lower upper stride numThreads threadId

/-- The bounds of a thread, found in the bounds of its block. -/
def xompAcceleratorLoopDefault (lower upper stride gridDim blockDim blockIdx threadIdx : Int) :
    Int × Int :=
  let block := xompCudaLoopDefaultInternal lower upper stride gridDim blockIdx
  xompCudaLoopDefaultInternal block.1 block.2 stride blockDim threadIdx

/-- The accelerator's schedule shares out the loop among the threads of all blocks. -/
def AcceleratorSharesOut (lower upper stride gridDim blockDim : Int) : Prop :=
  Partitions {bt : Int × Int | (0 ≤ bt.1 ∧ bt.1 < gridDim) ∧ 0 ≤ bt.2 ∧ bt.2 < blockDim}
    (fun bt => xompAcceleratorLoopDefault lower upper stride gridDim blockDim bt.1 bt.2) lower upper
    stride

def iterations (lower upper stride : Int) : Int := |upper - lower| / |stride| + 1

def iterationsPerBlock (lower upper stride gridDim : Int) : Int :=
  (iterations lower upper stride + gridDim - 1) / gridDim

/-- How many iterations after the last one a block starts. -/
def surplus (lower upper stride gridDim b : Int) : Int :=
  iterationsPerBlock lower upper stride gridDim * b - iterations lower upper stride -
    if stride ∣ upper - lower then 0 else 1

/-- The threads of a block without iterations do nothing. -/
def Idle (stride blockDim e : Int) : Prop :=
  let k := if |stride| = 1 then 2 else 1
  e = k * blockDim ∨ (k + 1) * blockDim ≤ e

/-- Blocks without iterations are idle, and none that counts down has only the loop's bound. -/
def EvenBlocks (lower upper stride gridDim blockDim : Int) : Prop :=
  (∀ b, 0 ≤ b → b < gridDim →
    iterations lower upper stride ≤ iterationsPerBlock lower upper stride gridDim * b →
    Idle stride blockDim (surplus lower upper stride gridDim b)) ∧
  (stride < 0 → stride ∣ upper - lower →
    ¬iterationsPerBlock lower upper stride gridDim ∣ iterations lower upper stride - 1)

section

variable {lower upper stride gridDim blockDim : Int}

theorem iterCount_eq (hs : 0 < stride) (hle : lower ≤ upper) :
    iterCount lower upper stride = iterations lower upper stride := by
  have hsum : stride + upper - lower = upper - lower + 1 * stride := by ring
  rw [iterCount, iterations, Int.tdiv_eq_ediv_of_nonneg (by omega), hsum,
    Int.add_mul_ediv_right _ _ hs.ne', abs_of_nonneg (by omega), abs_of_pos hs]

theorem iterations_pos (lower upper stride : Int) : 0 < iterations lower upper stride := by
  have hnonneg : 0 ≤ |upper - lower| / |stride| := Int.ediv_nonneg (abs_nonneg _) (abs_nonneg _)
  rw [iterations]
  omega

theorem chunkSize_eq {n numThreads : Int} (hn : 0 < n) (hT : 1 ≤ numThreads) :
    chunkSize n numThreads = (n + numThreads - 1) / numThreads := by
  have hT' : 0 < numThreads := by omega
  have hmod := Int.emod_add_mul_ediv n numThreads
  have hlo := Int.emod_nonneg n hT'.ne'
  have hhi := Int.emod_lt_of_pos n hT'
  rw [chunkSize, Int.tdiv_eq_ediv_of_nonneg hn.le]
  set q := n / numThreads
  have hcomm : q * numThreads = numThreads * q := mul_comm _ _
  split
  next hne =>
    have hsum : n + numThreads - 1 = n % numThreads - 1 + (q + 1) * numThreads := by linarith
    rw [hsum, Int.add_mul_ediv_right _ _ hT'.ne', Int.ediv_eq_zero_of_lt (by omega) (by omega)]
    ring
  next heq =>
    have hsum : n + numThreads - 1 = numThreads - 1 + q * numThreads := by omega
    rw [hsum, Int.add_mul_ediv_right _ _ hT'.ne', Int.ediv_eq_zero_of_lt (by omega) (by omega)]

/-- The chunks when the count of iterations is negative. -/
theorem chunkSize_neg {e numThreads : Int} (he : 0 ≤ e) (k : Int)
    (hT : 1 ≤ numThreads) :
    chunkSize (-e) numThreads ≤ -k ↔ e = k * numThreads ∨ (k + 1) * numThreads ≤ e := by
  have hT' : 0 < numThreads := by omega
  rw [chunkSize, Int.neg_tdiv, Int.tdiv_eq_ediv_of_nonneg he]
  have hmod := Int.emod_add_mul_ediv e numThreads
  have hlo := Int.emod_nonneg e hT'.ne'
  have hhi := Int.emod_lt_of_pos e hT'
  set q := e / numThreads
  have hq : numThreads * q = q * numThreads := mul_comm _ _
  have hle : ∀ m, m ≤ q ↔ m * numThreads ≤ e := fun m => Int.le_ediv_iff_mul_le hT'
  rw [neg_mul]
  constructor
  · intro h
    split at h
    next hne => exact .inr ((hle (k + 1)).mp (by omega))
    next heq =>
      have heq' : q * numThreads = e := by omega
      rcases eq_or_lt_of_le (show k ≤ q by omega) with hkq | hkq
      · exact .inl (by rw [hkq, heq'])
      · exact .inr ((hle (k + 1)).mp (by omega))
  · rintro (rfl | h)
    · have hkq : q = k := Int.mul_ediv_cancel k hT'.ne'
      rw [hkq, if_neg (by simp)]
      omega
    · have hkq := (hle (k + 1)).mpr h
      split <;> omega

/-- The iterations counted in a block that starts after the loop's end. -/
theorem iterCount_of_lt (hs : 0 < stride) (hle : lower ≤ upper) {m : Int}
    (hm : iterations lower upper stride ≤ m) :
    iterCount (lower + m * stride) upper stride =
      -max 0 (m - iterations lower upper stride - if stride ∣ upper - lower then 0 else 1) := by
  obtain ⟨j, hj⟩ := Int.eq_ofNat_of_zero_le (sub_nonneg.mpr hm)
  have hmod := Int.emod_add_mul_ediv (upper - lower) stride
  have hlo := Int.emod_nonneg (upper - lower) hs.ne'
  have hhi := Int.emod_lt_of_pos (upper - lower) hs
  have hN : iterations lower upper stride = (upper - lower) / stride + 1 := by
    rw [iterations, abs_of_nonneg (by omega), abs_of_pos hs]
  have hdvd := Int.dvd_iff_emod_eq_zero (a := stride) (b := upper - lower)
  rw [iterCount]
  set r := (upper - lower) % stride
  set q := (upper - lower) / stride
  have hmj : m = q + 1 + j := by omega
  have hsum : stride + upper - (lower + m * stride) = -(j * stride - r) := by
    rw [hmj, add_mul, add_mul, one_mul]
    have hcomm : stride * q = q * stride := mul_comm _ _
    omega
  have hsub : m - iterations lower upper stride = j := by omega
  rw [hsum, hsub, Int.neg_tdiv]
  congr 1
  by_cases hr : r = 0
  · rw [if_pos (hdvd.mpr hr), hr, sub_zero, sub_zero, Int.mul_tdiv_cancel _ hs.ne', max_eq_right (by omega)]
  · rw [if_neg (mt hdvd.mp hr)]
    obtain - | j := j
    · rw [Nat.cast_zero, zero_mul, zero_sub, Int.neg_tdiv,
        Int.tdiv_eq_zero_of_lt hlo hhi]
      rfl
    · have hnonneg : 0 ≤ (j : Int) * stride := mul_nonneg (by omega) hs.le
      have hsum' : ((j + 1 : Nat) : Int) * stride - r = stride - r + j * stride := by
        push_cast
        ring
      rw [hsum', Int.tdiv_eq_ediv_of_nonneg (by omega), Int.add_mul_ediv_right _ _ hs.ne',
        Int.ediv_eq_zero_of_lt (by omega) (by omega)]
      push_cast
      omega

theorem idle_iff {e : Int} (hs : 0 < stride) (hB : 1 ≤ blockDim) :
    Idle stride blockDim e ↔ chunkSize (-max 0 e) blockDim * stride < -1 := by
  have hpos : ∀ k : Int, 0 < k → (e = k * blockDim ∨ (k + 1) * blockDim ≤ e ↔
      chunkSize (-max 0 e) blockDim ≤ -k) := by
    intro k hk
    have hk₁ : 0 < k * blockDim := mul_pos hk (by omega)
    have hk₂ : 0 < (k + 1) * blockDim := mul_pos (by omega) (by omega)
    rw [chunkSize_neg (le_max_left 0 e) k hB]
    constructor <;> rintro (h | h) <;> omega
  simp only [Idle, abs_of_pos hs]
  set c := chunkSize (-max 0 e) blockDim
  split
  next hone =>
    rw [hpos 2 (by decide), hone, mul_one]
    omega
  next hne =>
    rw [hpos 1 (by decide)]
    constructor
    · intro h
      have hmul := mul_le_mul_of_nonneg_right h hs.le
      omega
    · intro h
      by_contra hc
      have hmul := mul_nonneg (show 0 ≤ c by omega) hs.le
      omega

/-- The count goes down with the distance to the end. -/
theorem iterCount_empty (hs : 0 < stride) (hlt : upper < lower) :
    ∃ e, 0 ≤ e ∧ iterCount lower upper stride = -e ∧ e * stride < lower - upper := by
  have hsum : stride + upper - lower = -(lower - upper - stride) := by ring
  rw [iterCount, hsum, Int.neg_tdiv]
  rcases le_or_gt stride (lower - upper) with hge | hgt
  · have hnonneg : 0 ≤ lower - upper - stride := by omega
    refine ⟨(lower - upper - stride) / stride, Int.ediv_nonneg hnonneg hs.le, ?_, ?_⟩
    · rw [Int.tdiv_eq_ediv_of_nonneg hnonneg]
    · have hmul := Int.ediv_mul_le (lower - upper - stride) hs.ne'
      omega
  · refine ⟨0, le_rfl, ?_, by omega⟩
    have hneg : lower - upper - stride = -(stride - (lower - upper)) := by ring
    rw [hneg, Int.neg_tdiv, Int.tdiv_eq_zero_of_lt (by omega) (by omega)]
    rfl

theorem neg_le_chunkSize {e : Int} (he : 0 ≤ e) : -(e / blockDim) ≤ chunkSize (-e) blockDim := by
  rw [chunkSize, Int.neg_tdiv, Int.tdiv_eq_ediv_of_nonneg he]
  split <;> omega

/-- Threads whose chunks are negative enough do nothing. -/
theorem threadBounds_empty (hs : 0 < stride) (hlt : upper < lower) (hB : 1 ≤ blockDim)
    (hc : chunkSize (iterCount lower upper stride) blockDim * stride < -1) {t v : Int}
    (ht : 0 ≤ t) (htB : t < blockDim) :
    v ∉ indexValues (threadBounds lower upper stride blockDim t).1
      (threadBounds lower upper stride blockDim t).2 stride := by
  obtain ⟨e, he, hiter, hdist⟩ := iterCount_empty hs hlt
  have hlow : -(e / blockDim) ≤ chunkSize (iterCount lower upper stride) blockDim := by
    rw [hiter]
    exact neg_le_chunkSize he
  rw [mem_indexValues_of_pos hs]
  simp only [threadBounds, if_pos hlt]
  set c := chunkSize (iterCount lower upper stride) blockDim
  have hstart : upper < lower + c * t * stride := by
    have hchunk : -c * t * stride ≤ e / blockDim * blockDim * stride := by
      have hq : 0 ≤ e / blockDim := Int.ediv_nonneg he (by omega)
      gcongr
      omega
    have hall := mul_le_mul_of_nonneg_right
      (Int.ediv_mul_le e (show blockDim ≠ 0 by omega)) hs.le
    have hsign : -c * t * stride = -(c * t * stride) := by ring
    omega
  rintro ⟨k, rfl, hle⟩
  have hk : 0 ≤ (k : Int) * stride := mul_nonneg (by omega) hs.le
  split at hle <;> omega

theorem mem_threadBounds_zero (hs : 0 < stride) (hlt : upper < lower)
    (hc : -1 ≤ chunkSize (iterCount lower upper stride) blockDim * stride) :
    lower ∈ indexValues (threadBounds lower upper stride blockDim 0).1
      (threadBounds lower upper stride blockDim 0).2 stride := by
  refine (mem_indexValues_of_pos hs).mpr ⟨0, by simp [threadBounds], ?_⟩
  simp only [threadBounds, if_pos hlt, mul_zero, zero_mul, add_zero]
  split <;> omega

theorem Partitions.nested {ι κ : Type} {outer : Set ι} {ranges : ι → Int × Int} {inner : Set κ}
    {f : ι → κ → Int × Int} (hout : Partitions outer ranges lower upper stride)
    (hin : ∀ i ∈ outer, Partitions inner (f i) (ranges i).1 (ranges i).2 stride) :
    Partitions {p : ι × κ | p.1 ∈ outer ∧ p.2 ∈ inner} (fun p => f p.1 p.2) lower upper stride := by
  intro v
  refine ⟨fun hv => ?_, fun p hp hv => (hout v).2 p.1 hp.1 ((hin p.1 hp.1 v).2 p.2 hp.2 hv)⟩
  obtain ⟨i, ⟨hi, hvi⟩, huniq⟩ := (hout v).1 hv
  obtain ⟨j, ⟨hj, hvj⟩, huniq'⟩ := (hin i hi v).1 hvi
  refine ⟨(i, j), ⟨⟨hi, hj⟩, hvj⟩, ?_⟩
  rintro ⟨i', j'⟩ ⟨⟨hi', hj'⟩, hv'⟩
  obtain rfl := huniq i' ⟨hi', (hin i' hi' v).2 j' hj' hv'⟩
  rw [huniq' j' ⟨hj', hv'⟩]

theorem iterCount_block (hs : 0 < stride) (hle : lower ≤ upper) (hG : 1 ≤ gridDim) :
    chunkSize (iterCount lower upper stride) gridDim =
      iterationsPerBlock lower upper stride gridDim := by
  rw [iterCount_eq hs hle, chunkSize_eq (iterations_pos lower upper stride) hG, iterationsPerBlock]

/-- A block that starts after the loop's end gets the loop's bound. -/
theorem block_of_lt (hs : 0 < stride) (hle : lower ≤ upper) (hG : 1 ≤ gridDim) {b : Int}
    (hb : iterations lower upper stride ≤ iterationsPerBlock lower upper stride gridDim * b) :
    upper < lower + iterationsPerBlock lower upper stride gridDim * b * stride ∧
      xompCudaLoopDefaultInternal lower upper stride gridDim b =
        (lower + iterationsPerBlock lower upper stride gridDim * b * stride, upper) := by
  have hcount := iterCount_eq hs hle
  have hchunk := iterCount_block hs hle hG
  have hpos := (chunkSize_spec (iterCount_pos hs hle) hG).1
  have hnonneg : 0 ≤ iterations lower upper stride := (iterations_pos lower upper stride).le
  obtain ⟨k, hk⟩ := Int.eq_ofNat_of_zero_le hnonneg
  have hstart : upper < lower + iterationsPerBlock lower upper stride gridDim * b * stride := by
    have hlast := (iterCount_spec hs hle k).not.mp (by omega)
    have hmul := mul_le_mul_of_nonneg_right hb hs.le
    rw [hk] at hmul
    omega
  refine ⟨hstart, ?_⟩
  rw [hchunk] at hpos
  have hstep := mul_pos hpos hs
  simp only [xompCudaLoopDefaultInternal, threadBounds, hchunk, if_neg (show ¬upper < lower by omega)]
  rw [if_neg (by omega)]

/-- A block that starts in the loop gets a range that counts up. -/
theorem block_of_le (hs : 0 < stride) (hle : lower ≤ upper) (hG : 1 ≤ gridDim) {b : Int}
    (hb0 : 0 ≤ b)
    (hb : iterationsPerBlock lower upper stride gridDim * b < iterations lower upper stride) :
    (xompCudaLoopDefaultInternal lower upper stride gridDim b).1 ≤
      (xompCudaLoopDefaultInternal lower upper stride gridDim b).2 := by
  have hcount := iterCount_eq hs hle
  have hchunk := iterCount_block hs hle hG
  have hpos := (chunkSize_spec (iterCount_pos hs hle) hG).1
  rw [hchunk] at hpos
  obtain ⟨k, hk⟩ := Int.eq_ofNat_of_zero_le (mul_nonneg hpos.le hb0)
  have hstart := (iterCount_spec hs hle k).mp (by omega)
  have hstep := mul_pos hpos hs
  simp only [xompCudaLoopDefaultInternal, threadBounds, hchunk, if_neg (show ¬upper < lower by omega)]
  rw [hk]
  split <;> omega

theorem acceleratorSharesOut_of_pos (hs : 0 < stride) (hle : lower ≤ upper) (hG : 1 ≤ gridDim)
    (hB : 1 ≤ blockDim) :
    AcceleratorSharesOut lower upper stride gridDim blockDim ↔
      ∀ b, 0 ≤ b → b < gridDim →
        iterations lower upper stride ≤ iterationsPerBlock lower upper stride gridDim * b →
        Idle stride blockDim (surplus lower upper stride gridDim b) := by
  have hidle : ∀ b, iterations lower upper stride ≤
      iterationsPerBlock lower upper stride gridDim * b →
      (Idle stride blockDim (surplus lower upper stride gridDim b) ↔
        chunkSize (iterCount (lower + iterationsPerBlock lower upper stride gridDim * b * stride)
          upper stride) blockDim * stride < -1) := by
    intro b hb
    rw [idle_iff hs hB, iterCount_of_lt hs hle hb, surplus]
  constructor
  · intro hshare b hb0 hbG hb
    obtain ⟨hstart, hblock⟩ := block_of_lt hs hle hG hb
    by_contra hbusy
    rw [hidle b hb, not_lt] at hbusy
    have hfirst := mem_threadBounds_zero hs hstart hbusy
    have hmem := (hshare _).2 (b, 0) ⟨⟨hb0, hbG⟩, le_rfl, by omega⟩
      (by
        simp only [xompAcceleratorLoopDefault, hblock]
        exact hfirst)
    obtain ⟨k, -, hk⟩ := (mem_indexValues_of_pos hs).mp hmem
    omega
  · intro hall
    have hinner : ∀ b ∈ {b | 0 ≤ b ∧ b < gridDim}, Partitions {t | 0 ≤ t ∧ t < blockDim}
        (xompAcceleratorLoopDefault lower upper stride gridDim blockDim b)
        (xompCudaLoopDefaultInternal lower upper stride gridDim b).1
        (xompCudaLoopDefaultInternal lower upper stride gridDim b).2 stride := by
      rintro b ⟨hb0, hbG⟩
      rcases lt_or_ge (iterationsPerBlock lower upper stride gridDim * b)
        (iterations lower upper stride) with hlt | hge
      · exact partitions_of_pos hs (block_of_le hs hle hG hb0 hlt) hB
      · obtain ⟨hstart, hblock⟩ := block_of_lt hs hle hG hge
        have hc := (hidle b hge).mp (hall b hb0 hbG hge)
        simp only [Partitions, xompAcceleratorLoopDefault, hblock]
        refine fun v => ⟨fun hv => ?_, fun t ht hv =>
          absurd hv (threadBounds_empty hs hstart hB hc ht.1 ht.2)⟩
        obtain ⟨k, rfl, hk⟩ := (mem_indexValues_of_pos hs).mp hv
        have hnonneg : 0 ≤ (k : Int) * stride := mul_nonneg (by omega) hs.le
        omega
    exact (partitions_of_pos hs hle hG).nested hinner

theorem iterations_neg : iterations (-lower) (-upper) (-stride) = iterations lower upper stride := by
  have hsum : -upper - -lower = -(upper - lower) := by ring
  rw [iterations, hsum, abs_neg, abs_neg]
  rfl

theorem iterationsPerBlock_neg :
    iterationsPerBlock (-lower) (-upper) (-stride) gridDim =
      iterationsPerBlock lower upper stride gridDim := by
  rw [iterationsPerBlock, iterations_neg]
  rfl

theorem surplus_neg (b : Int) :
    surplus (-lower) (-upper) (-stride) gridDim b = surplus lower upper stride gridDim b := by
  have hsum : -upper - -lower = -(upper - lower) := by ring
  simp only [surplus, iterations_neg, iterationsPerBlock_neg, hsum, Int.neg_dvd, Int.dvd_neg]

theorem idle_neg (e : Int) : Idle (-stride) blockDim e ↔ Idle stride blockDim e := by
  rw [Idle, abs_neg]
  rfl

theorem partitions_neg {ι : Type} {workers : Set ι} {ranges : ι → Int × Int} (hs : stride < 0) :
    Partitions workers ranges lower upper stride ↔
      Partitions workers (fun i => (-(ranges i).1, -(ranges i).2)) (-lower) (-upper) (-stride) := by
  simp only [Partitions, mem_indexValues_neg hs]
  constructor
  · intro h v
    obtain ⟨hone, hsub⟩ := h (-v)
    rw [neg_neg] at hone hsub
    exact ⟨hone, hsub⟩
  · exact fun h v => h (-v)

/-- A range with one index, given to the threads as one that counts up. -/
theorem mem_threadBounds_single (hs : stride < 0) (hB : 1 ≤ blockDim) :
    lower + stride ∈ indexValues (threadBounds lower lower stride blockDim 0).1
      (threadBounds lower lower stride blockDim 0).2 stride := by
  have hcount : iterCount lower lower stride = 1 := by
    rw [iterCount, add_sub_cancel_right, Int.tdiv_self hs.ne]
  have hchunk : chunkSize 1 blockDim = 1 := by
    have hsum : 1 + blockDim - 1 = blockDim := by ring
    rw [chunkSize_eq one_pos hB, hsum, Int.ediv_self (by omega)]
  refine (mem_indexValues_of_neg hs).mpr ⟨1, ?_⟩
  simp only [threadBounds, hcount, hchunk, lt_irrefl, if_false, mul_zero, zero_mul, add_zero,
    Nat.cast_one, one_mul, true_and]
  split <;> omega

theorem chunkSize_block_neg (hs : stride < 0) (hlt : upper < lower) (hG : 1 ≤ gridDim) :
    chunkSize (iterCount lower upper stride) gridDim =
      iterationsPerBlock lower upper stride gridDim := by
  have hpos : 0 < -stride := by omega
  rw [← iterCount_neg, iterCount_block hpos (by omega) hG, iterationsPerBlock_neg]

theorem iterationsPerBlock_spec (lower upper stride : Int) (hG : 1 ≤ gridDim) :
    0 < iterationsPerBlock lower upper stride gridDim ∧
      iterations lower upper stride ≤ iterationsPerBlock lower upper stride gridDim * gridDim := by
  have hspec := chunkSize_spec (iterations_pos lower upper stride) hG
  rwa [chunkSize_eq (iterations_pos lower upper stride) hG] at hspec

/-- A single index counted down is taken for a loop that counts up. -/
theorem not_acceleratorSharesOut_self (hs : stride < 0) (hG : 1 ≤ gridDim) (hB : 1 ≤ blockDim) :
    ¬AcceleratorSharesOut lower lower stride gridDim blockDim := by
  intro hshare
  have hcount : iterCount lower lower stride = 1 := by
    rw [iterCount, add_sub_cancel_right, Int.tdiv_self hs.ne]
  have hchunk : chunkSize 1 gridDim = 1 := by
    have hsum : 1 + gridDim - 1 = gridDim := by ring
    rw [chunkSize_eq one_pos hG, hsum, Int.ediv_self (by omega)]
  have hblock : xompCudaLoopDefaultInternal lower lower stride gridDim 0 =
      (lower, lower + stride - 1) := by
    simp only [xompCudaLoopDefaultInternal, threadBounds, hcount, hchunk, lt_irrefl, if_false,
      mul_zero, zero_mul, add_zero, one_mul]
    rw [if_pos (by omega)]
    rfl
  have hmem : lower + stride ∈ indexValues lower (lower + stride - 1) stride :=
    (mem_indexValues_of_neg hs).mpr ⟨1, by simp, by omega⟩
  obtain ⟨t, ⟨ht, hvt⟩, -⟩ := (partitions_of_neg hs (by omega) hB _).1 hmem
  have hin := (hshare _).2 (0, t) ⟨⟨le_rfl, by omega⟩, ht⟩
    (by
      simp only [xompAcceleratorLoopDefault, hblock]
      exact hvt)
  obtain ⟨k, -, hk⟩ := (mem_indexValues_of_neg hs).mp hin
  omega

/-- The last iteration alone in its block is followed by one after the loop. -/
theorem not_acceleratorSharesOut_last (hs : stride < 0) (hlt : upper < lower) (hG : 1 ≤ gridDim)
    (hB : 1 ≤ blockDim) (hdvd : stride ∣ upper - lower)
    (hlast : iterationsPerBlock lower upper stride gridDim ∣ iterations lower upper stride - 1) :
    ¬AcceleratorSharesOut lower upper stride gridDim blockDim := by
  intro hshare
  obtain ⟨hpos, htotal⟩ := iterationsPerBlock_spec lower upper stride hG
  have hchunk := chunkSize_block_neg hs hlt hG
  obtain ⟨b, hb⟩ := hlast
  obtain ⟨q, hq⟩ := hdvd
  have hN : iterations lower upper stride = q + 1 := by
    rw [iterations, hq, abs_mul, Int.mul_ediv_cancel_left _ (abs_ne_zero.mpr hs.ne),
      abs_of_nonneg]
    by_contra hneg
    have hmul := mul_pos_of_neg_of_neg hs (not_le.mp hneg)
    omega
  have hq0 : 0 ≤ q := by
    have hiter := iterations_pos lower upper stride
    omega
  have hb0 : 0 ≤ b := by
    by_contra hneg
    have hmul := mul_neg_of_pos_of_neg hpos (not_le.mp hneg)
    omega
  have hbG : b < gridDim := by
    by_contra hge
    have hmul := mul_le_mul_of_nonneg_left (not_lt.mp hge) hpos.le
    omega
  have hstep := mul_neg_of_pos_of_neg hpos hs
  have hstart : lower + iterationsPerBlock lower upper stride gridDim * b * stride = upper := by
    rw [← hb, hN, add_sub_cancel_right, mul_comm]
    omega
  have hblock : xompCudaLoopDefaultInternal lower upper stride gridDim b = (upper, upper) := by
    simp only [xompCudaLoopDefaultInternal, threadBounds, hchunk, if_pos hlt, hstart]
    rw [if_neg (by omega)]
  have hin := (hshare _).2 (b, 0) ⟨⟨hb0, hbG⟩, le_rfl, by omega⟩
    (by
      simp only [xompAcceleratorLoopDefault, hblock]
      exact mem_threadBounds_single hs hB)
  obtain ⟨k, -, hk⟩ := (mem_indexValues_of_neg hs).mp hin
  omega

theorem block_ne (hs : stride < 0) (hlt : upper < lower) (hG : 1 ≤ gridDim)
    (hlast : stride ∣ upper - lower →
      ¬iterationsPerBlock lower upper stride gridDim ∣ iterations lower upper stride - 1) (b : Int) :
    (xompCudaLoopDefaultInternal lower upper stride gridDim b).1 ≠
      (xompCudaLoopDefaultInternal lower upper stride gridDim b).2 := by
  obtain ⟨hpos, -⟩ := iterationsPerBlock_spec lower upper stride hG
  have hchunk := chunkSize_block_neg hs hlt hG
  simp only [xompCudaLoopDefaultInternal, threadBounds, hchunk, if_pos hlt]
  set c := iterationsPerBlock lower upper stride gridDim
  intro heq
  split at heq
  next =>
    have hunit : c = 1 := by
      refine Int.eq_one_of_dvd_one hpos.le ⟨-stride, ?_⟩
      rw [mul_neg]
      omega
    have hstride : stride = -1 := by
      rw [hunit, one_mul] at heq
      omega
    refine hlast ⟨lower - upper, by rw [hstride]; ring⟩ ⟨iterations lower upper stride - 1, ?_⟩
    rw [hunit, one_mul]
  next =>
    have hq : upper - lower = stride * (c * b) := by
      rw [mul_comm]
      omega
    refine hlast ⟨c * b, hq⟩ ⟨b, ?_⟩
    rw [iterations, hq, abs_mul, Int.mul_ediv_cancel_left _ (abs_ne_zero.mpr hs.ne), abs_of_nonneg,
      add_sub_cancel_right]
    by_contra hneg
    have hmul := mul_pos_of_neg_of_neg hs (not_le.mp hneg)
    omega

/-- The accelerator's schedule shares out a loop exactly when its blocks are even. -/
theorem acceleratorSharesOut_iff
    (hloop : 0 < stride ∧ lower ≤ upper ∨ stride < 0 ∧ upper ≤ lower) (hG : 1 ≤ gridDim)
    (hB : 1 ≤ blockDim) :
    AcceleratorSharesOut lower upper stride gridDim blockDim ↔
      EvenBlocks lower upper stride gridDim blockDim := by
  rcases hloop with ⟨hs, hle⟩ | ⟨hs, hle⟩
  · rw [acceleratorSharesOut_of_pos hs hle hG hB, EvenBlocks]
    exact ⟨fun h => ⟨h, fun hneg => absurd hs (not_lt.mpr hneg.le)⟩, fun h => h.1⟩
  · rcases eq_or_lt_of_le hle with rfl | hlt
    · refine iff_of_false (not_acceleratorSharesOut_self hs hG hB) fun h => h.2 hs (by simp) ?_
      simp [iterations]
    · by_cases hlast : stride ∣ upper - lower ∧
          iterationsPerBlock lower upper stride gridDim ∣ iterations lower upper stride - 1
      · exact iff_of_false (not_acceleratorSharesOut_last hs hlt hG hB hlast.1 hlast.2)
          fun h => h.2 hs hlast.1 hlast.2
      · have hne := block_ne hs hlt hG (not_and.mp hlast)
        have hpos : 0 < -stride := by omega
        have hmirror := acceleratorSharesOut_of_pos hpos (show -lower ≤ -upper by omega) hG hB
        simp only [iterations_neg, iterationsPerBlock_neg, surplus_neg, idle_neg] at hmirror
        have hranges : (fun bt : Int × Int =>
            xompAcceleratorLoopDefault (-lower) (-upper) (-stride) gridDim blockDim bt.1 bt.2) =
            fun bt => (-(xompAcceleratorLoopDefault lower upper stride gridDim blockDim bt.1 bt.2).1,
              -(xompAcceleratorLoopDefault lower upper stride gridDim blockDim bt.1 bt.2).2) := by
          funext bt
          have hblock := hne bt.1
          simp only [xompAcceleratorLoopDefault, xompCudaLoopDefaultInternal] at hblock ⊢
          rw [threadBounds_neg hlt.ne', ← threadBounds_neg hblock]
        rw [AcceleratorSharesOut, partitions_neg hs, ← hranges]
        rw [AcceleratorSharesOut] at hmirror
        rw [hmirror, EvenBlocks]
        exact ⟨fun h => ⟨h, fun _ => not_and.mp hlast⟩, fun h => h.1⟩

theorem acceleratorSharesOut_hundred : AcceleratorSharesOut 0 99 1 4 8 := by
  refine (acceleratorSharesOut_iff (.inl ⟨by decide, by decide⟩) (by decide) (by decide)).mpr ⟨?_, ?_⟩
  · intro b hb hb' hge
    have hN : iterations 0 99 1 = 100 := by decide
    have hC : iterationsPerBlock 0 99 1 4 = 25 := by decide
    rw [hN, hC] at hge
    omega
  · exact fun hneg => absurd hneg (by decide)

/-- In a grid larger than the loop, the block after its end runs on. -/
theorem largeGrid_overruns : ¬AcceleratorSharesOut 0 3 1 3 1 := by
  intro hshare
  have hin := (hshare 4).2 (2, 0) (by decide)
    ((mem_indexValues_of_pos (by decide)).mpr ⟨0, by decide, by decide⟩)
  obtain ⟨k, -, hk⟩ := (mem_indexValues_of_pos (by decide)).mp hin
  omega

end

end LoomX.Xomp
