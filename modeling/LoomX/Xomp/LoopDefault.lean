import Mathlib

namespace LoomX.Xomp

/-- The values of the index of a loop with inclusive bounds. -/
def indexValues (lower upper stride : Int) : Set Int :=
  {v | ∃ k : Nat, v = lower + k * stride ∧ if 0 < stride then v ≤ upper else upper ≤ v}

/-- Every value of the loop is in the range of exactly one worker, and no other value is in any. -/
def Partitions {ι : Type} (workers : Set ι) (ranges : ι → Int × Int) (lower upper stride : Int) :
    Prop :=
  ∀ v, (v ∈ indexValues lower upper stride →
      ∃! i, i ∈ workers ∧ v ∈ indexValues (ranges i).1 (ranges i).2 stride) ∧
    ∀ i ∈ workers, v ∈ indexValues (ranges i).1 (ranges i).2 stride →
      v ∈ indexValues lower upper stride

def iterCount (lower upper stride : Int) : Int := (stride + upper - lower).tdiv stride

def chunkSize (iterCount numThreads : Int) : Int :=
  (if iterCount.tdiv numThreads * numThreads ≠ iterCount then 1 else 0) + iterCount.tdiv numThreads

/-- The bounds of one thread, where no `int` overflows. -/
def threadBounds (lower upper stride numThreads threadId : Int) : Int × Int :=
  let addOne := if upper < lower then 1 else -1
  let chunk := chunkSize (iterCount lower upper stride) numThreads
  let pLower := lower + chunk * threadId * stride
  let pUpper := pLower + chunk * stride + addOne
  (pLower,
    if upper < lower then if upper < pUpper then pUpper else upper
    else if pUpper < upper then pUpper else upper)

/-- A failed check of the direction aborts. -/
def xompLoopDefault (lower upper stride numThreads threadId : Int) : Option (Int × Int) :=
  if upper < lower then
    if 0 < stride then none else some (threadBounds lower upper stride numThreads threadId)
  else if stride < 0 then none
  else some (threadBounds lower upper stride numThreads threadId)

section

variable {lower upper stride numThreads threadId v : Int}

theorem mem_indexValues_of_pos (hs : 0 < stride) :
    v ∈ indexValues lower upper stride ↔ ∃ k : Nat, v = lower + k * stride ∧ v ≤ upper := by
  simp only [indexValues, Set.mem_ofPred_eq, if_pos hs]

theorem mem_indexValues_of_neg (hs : stride < 0) :
    v ∈ indexValues lower upper stride ↔ ∃ k : Nat, v = lower + k * stride ∧ upper ≤ v := by
  simp only [indexValues, Set.mem_ofPred_eq, if_neg (not_lt.mpr hs.le)]

/-- A loop that counts down is one that counts up the other way round. -/
theorem mem_indexValues_neg (hs : stride < 0) :
    v ∈ indexValues lower upper stride ↔ -v ∈ indexValues (-lower) (-upper) (-stride) := by
  rw [mem_indexValues_of_neg hs, mem_indexValues_of_pos (by omega)]
  refine exists_congr fun k => ?_
  rw [mul_neg]
  constructor
  · rintro ⟨rfl, hle⟩
    exact ⟨by ring, by omega⟩
  · rintro ⟨heq, hle⟩
    exact ⟨by omega, by omega⟩

theorem iterCount_neg : iterCount (-lower) (-upper) (-stride) = iterCount lower upper stride := by
  have hsum : -stride + -upper - -lower = -(stride + upper - lower) := by ring
  rw [iterCount, hsum, Int.neg_tdiv, Int.tdiv_neg, neg_neg]
  rfl

theorem threadBounds_neg (hne : lower ≠ upper) :
    threadBounds (-lower) (-upper) (-stride) numThreads threadId =
      (-(threadBounds lower upper stride numThreads threadId).1,
        -(threadBounds lower upper stride numThreads threadId).2) := by
  simp only [threadBounds, iterCount_neg, Prod.mk.injEq, mul_neg]
  refine ⟨by ring, ?_⟩
  rcases lt_or_gt_of_ne hne with hlt | hlt
  · rw [if_pos (by omega : -upper < -lower), if_neg (by omega : ¬upper < lower)]
    simp only [if_pos (show -upper < -lower by omega), if_neg (show ¬upper < lower by omega)]
    split <;> split <;> omega
  · rw [if_neg (by omega : ¬-upper < -lower), if_pos (by omega : upper < lower)]
    simp only [if_neg (show ¬-upper < -lower by omega), if_pos (show upper < lower by omega)]
    split <;> split <;> omega

/-- The iterations of a loop that counts up. -/
theorem iterCount_spec (hs : 0 < stride) (hle : lower ≤ upper) (k : Nat) :
    (k : Int) < iterCount lower upper stride ↔ lower + k * stride ≤ upper := by
  have hnonneg : 0 ≤ stride + upper - lower := by omega
  rw [iterCount, Int.tdiv_eq_ediv_of_nonneg hnonneg, Int.lt_iff_add_one_le,
    Int.le_ediv_iff_mul_le hs, add_mul, one_mul]
  constructor <;> intro h <;> omega

theorem iterCount_pos (hs : 0 < stride) (hle : lower ≤ upper) : 0 < iterCount lower upper stride := by
  have h := (iterCount_spec hs hle 0).mpr (by simpa using hle)
  exact_mod_cast h

/-- The chunks of all threads together take every iteration. -/
theorem chunkSize_spec {n : Int} (hn : 0 < n) (hT : 1 ≤ numThreads) :
    0 < chunkSize n numThreads ∧ n ≤ chunkSize n numThreads * numThreads := by
  have hT' : 0 < numThreads := by omega
  have hdiv := Int.ediv_mul_le n hT'.ne'
  have hlt := Int.lt_ediv_add_one_mul_self n hT'
  have hnonneg := Int.ediv_nonneg hn.le hT'.le
  rw [chunkSize, Int.tdiv_eq_ediv_of_nonneg hn.le]
  split
  next hne => exact ⟨by omega, by rw [add_comm]; exact hlt.le⟩
  next heq =>
    rw [not_not] at heq
    refine ⟨?_, by rw [zero_add]; exact heq.ge⟩
    rw [zero_add]
    by_contra hzero
    have hz : n / numThreads = 0 := by omega
    rw [hz] at heq
    omega

/-- A thread of a loop that counts up takes the iterations of its chunk. -/
theorem mem_threadBounds_iff (hs : 0 < stride) (hle : lower ≤ upper) (hT : 1 ≤ numThreads)
    (ht : 0 ≤ threadId) :
    v ∈ indexValues (threadBounds lower upper stride numThreads threadId).1
        (threadBounds lower upper stride numThreads threadId).2 stride ↔
      ∃ k : Nat, v = lower + k * stride ∧ v ≤ upper ∧
        chunkSize (iterCount lower upper stride) numThreads * threadId ≤ k ∧
        k < chunkSize (iterCount lower upper stride) numThreads * (threadId + 1) := by
  obtain ⟨hpos, -⟩ := chunkSize_spec (iterCount_pos hs hle) hT
  rw [mem_indexValues_of_pos hs]
  simp only [threadBounds, if_neg (show ¬upper < lower by omega)]
  set c := chunkSize (iterCount lower upper stride) numThreads
  have hbound : ∀ w : Int, w ≤ (if lower + c * threadId * stride + c * stride + -1 < upper then
      lower + c * threadId * stride + c * stride + -1 else upper) ↔
      w < lower + c * (threadId + 1) * stride ∧ w ≤ upper := by
    intro w
    have hexpand : lower + c * (threadId + 1) * stride =
        lower + c * threadId * stride + c * stride := by ring
    rw [hexpand]
    split <;> constructor <;> intro h <;> omega
  constructor
  · rintro ⟨j, rfl, hj⟩
    obtain ⟨hlt, hle'⟩ := (hbound _).mp hj
    obtain ⟨m, hm⟩ := Int.eq_ofNat_of_zero_le (mul_nonneg hpos.le ht)
    refine ⟨m + j, ?_, hle', ?_, ?_⟩
    · push_cast
      rw [hm]
      ring
    · push_cast
      omega
    · have hmul : (c * threadId + j) * stride < c * (threadId + 1) * stride := by
        rw [add_mul]
        omega
      have hlt' := lt_of_mul_lt_mul_right hmul hs.le
      push_cast
      omega
  · rintro ⟨k, rfl, hle', hlo, hhi⟩
    obtain ⟨j, hj⟩ := Int.eq_ofNat_of_zero_le (sub_nonneg.mpr hlo)
    refine ⟨j, ?_, (hbound _).mpr ⟨?_, hle'⟩⟩
    · have hk : (k : Int) = c * threadId + j := by omega
      rw [hk]
      ring
    · have hmul := mul_lt_mul_of_pos_right hhi hs
      omega

/-- The threads share out a loop that counts up. -/
theorem partitions_of_pos (hs : 0 < stride) (hle : lower ≤ upper) (hT : 1 ≤ numThreads) :
    Partitions {t | 0 ≤ t ∧ t < numThreads} (threadBounds lower upper stride numThreads) lower upper
      stride := by
  obtain ⟨hpos, htotal⟩ := chunkSize_spec (iterCount_pos hs hle) hT
  intro v
  refine ⟨fun hv => ?_, fun t ht hv => ?_⟩
  · obtain ⟨k, rfl, hk⟩ := (mem_indexValues_of_pos hs).mp hv
    set c := chunkSize (iterCount lower upper stride) numThreads
    have hcount := (iterCount_spec hs hle k).mpr hk
    have hdiv : c * (k / c) ≤ k := Int.mul_ediv_self_le hpos.ne'
    have hlt : (k : Int) < c * (k / c + 1) := Int.lt_mul_ediv_self_add hpos |>.trans_eq (by ring)
    have hnonneg : 0 ≤ (k : Int) / c := Int.ediv_nonneg (by omega) hpos.le
    refine ⟨k / c, ⟨⟨hnonneg, ?_⟩, ?_⟩, ?_⟩
    · rw [Int.ediv_lt_iff_lt_mul hpos, mul_comm]
      omega
    · exact (mem_threadBounds_iff hs hle hT hnonneg).mpr ⟨k, rfl, hk, hdiv, hlt⟩
    · rintro t ⟨ht, hmem⟩
      obtain ⟨k', heq, -, hlo, hhi⟩ := (mem_threadBounds_iff hs hle hT ht.1).mp hmem
      have hkk : (k : Int) = k' := by
        have hmul : (k : Int) * stride = k' * stride := by omega
        exact mul_right_cancel₀ hs.ne' hmul
      rw [← hkk] at hlo hhi
      have hle₁ : t ≤ k / c := (Int.le_ediv_iff_mul_le hpos).mpr (by rw [mul_comm]; exact hlo)
      have hle₂ : k / c < t + 1 := (Int.ediv_lt_iff_lt_mul hpos).mpr (by rw [mul_comm]; exact hhi)
      omega
  · obtain ⟨k, rfl, hk, -, -⟩ := (mem_threadBounds_iff hs hle hT ht.1).mp hv
    exact (mem_indexValues_of_pos hs).mpr ⟨k, rfl, hk⟩

end

/-- Loops that count down are shared out as those that count up. -/
theorem partitions_of_neg {lower upper stride numThreads : Int} (hs : stride < 0)
    (hlt : upper < lower) (hT : 1 ≤ numThreads) :
    Partitions {t | 0 ≤ t ∧ t < numThreads} (threadBounds lower upper stride numThreads) lower upper
      stride := by
  have hpos : Partitions {t | 0 ≤ t ∧ t < numThreads}
      (threadBounds (-lower) (-upper) (-stride) numThreads) (-lower) (-upper) (-stride) :=
    partitions_of_pos (by omega) (by omega) hT
  have hmem : ∀ t v, v ∈ indexValues (threadBounds lower upper stride numThreads t).1
      (threadBounds lower upper stride numThreads t).2 stride ↔
      -v ∈ indexValues (threadBounds (-lower) (-upper) (-stride) numThreads t).1
        (threadBounds (-lower) (-upper) (-stride) numThreads t).2 (-stride) := by
    intro t v
    rw [mem_indexValues_neg hs, threadBounds_neg (by omega)]
  intro v
  obtain ⟨hone, hsub⟩ := hpos (-v)
  have hneg : v ∈ indexValues lower upper stride ↔ -v ∈ indexValues (-lower) (-upper) (-stride) :=
    mem_indexValues_neg hs
  simp only [hneg, hmem]
  exact ⟨hone, hsub⟩

/-- The default schedule shares out the loop among the threads of a team. -/
def SharesOut (lower upper stride numThreads : Int) : Prop :=
  ∃ bounds : Int → Int × Int,
    (∀ t, 0 ≤ t → t < numThreads →
      xompLoopDefault lower upper stride numThreads t = some (bounds t)) ∧
    Partitions {t | 0 ≤ t ∧ t < numThreads} bounds lower upper stride

theorem sharesOut_iff {lower upper stride numThreads : Int} (hs : stride ≠ 0)
    (hT : 1 ≤ numThreads) :
    SharesOut lower upper stride numThreads ↔
      0 < stride ∧ lower ≤ upper ∨ stride < 0 ∧ upper < lower := by
  constructor
  · rintro ⟨bounds, hbounds, -⟩
    have hzero := hbounds 0 le_rfl (by omega)
    rw [xompLoopDefault] at hzero
    split at hzero
    next hlt =>
      split at hzero
      · exact absurd hzero (by simp)
      · exact .inr ⟨by omega, hlt⟩
    next hle =>
      split at hzero
      · exact absurd hzero (by simp)
      · exact .inl ⟨by omega, by omega⟩
  · rintro (⟨hpos, hle⟩ | ⟨hneg, hlt⟩)
    · refine ⟨threadBounds lower upper stride numThreads, fun t _ _ => ?_,
        partitions_of_pos hpos hle hT⟩
      rw [xompLoopDefault, if_neg (by omega), if_neg (by omega)]
    · refine ⟨threadBounds lower upper stride numThreads, fun t _ _ => ?_,
        partitions_of_neg hneg hlt hT⟩
      rw [xompLoopDefault, if_pos hlt, if_neg (by omega)]

theorem sharesOut_ten : SharesOut 0 9 2 3 :=
  (sharesOut_iff (by decide) (by decide)).mpr (.inl ⟨by decide, by decide⟩)

/-- A loop that runs zero times aborts. -/
theorem emptyLoop_aborts : ¬SharesOut 0 (-1) 1 1 := by
  rintro ⟨bounds, hbounds, -⟩
  have hzero := hbounds 0 le_rfl (by decide)
  exact absurd hzero (by simp [xompLoopDefault])

end LoomX.Xomp
