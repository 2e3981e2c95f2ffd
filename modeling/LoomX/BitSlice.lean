import Mathlib.Data.Nat.Bitwise

namespace LoomX.BitSlice

/-- The bits of a number from `lo` up to `hi`. -/
def slice (a lo hi : Nat) : Nat := a / 2 ^ lo % 2 ^ (hi - lo)

variable {a b s lo hi : Nat}

theorem testBit_slice (a lo hi i : Nat) :
    (slice a lo hi).testBit i = (decide (i < hi - lo) && a.testBit (i + lo)) := by
  rw [slice, Nat.testBit_mod_two_pow, Nat.testBit_div_two_pow]

theorem slice_lt (a lo hi : Nat) : slice a lo hi < 2 ^ (hi - lo) :=
  Nat.mod_lt _ (Nat.two_pow_pos _)

theorem slice_empty (h : hi ≤ lo) : slice a lo hi = 0 := by
  rw [slice, Nat.sub_eq_zero_of_le h]
  simp [Nat.mod_one]

theorem slice_all (h : a < 2 ^ hi) : slice a 0 hi = a := by
  rw [slice, Nat.pow_zero, Nat.div_one, Nat.sub_zero, Nat.mod_eq_of_lt h]

theorem slice_slice {lo' hi' : Nat} (h : hi' ≤ hi - lo) :
    slice (slice a lo hi) lo' hi' = slice a (lo + lo') (lo + hi') := by
  apply Nat.eq_of_testBit_eq
  intro i
  simp only [testBit_slice, Nat.add_sub_add_left, Nat.add_assoc, Nat.add_comm lo' lo]
  by_cases hwidth : i < hi' - lo'
  · have hin : i + lo' < hi - lo := by omega
    simp [hin]
  · simp [hwidth]

/-- A slice within the low part of a number. -/
theorem slice_low (hb : b < 2 ^ s) (h : hi ≤ s) : slice (2 ^ s * a + b) lo hi = slice b lo hi := by
  apply Nat.eq_of_testBit_eq
  intro i
  simp only [testBit_slice, Nat.testBit_two_pow_mul_add a hb]
  by_cases hwidth : i < hi - lo
  · rw [if_pos (by omega)]
  · simp [hwidth]

/-- A slice within the high part of a number. -/
theorem slice_high (hb : b < 2 ^ s) (h : s ≤ lo) :
    slice (2 ^ s * a + b) lo hi = slice a (lo - s) (hi - s) := by
  apply Nat.eq_of_testBit_eq
  intro i
  have hwidth : hi - s - (lo - s) = hi - lo := by omega
  have hplace : i + lo - s = i + (lo - s) := by omega
  simp only [testBit_slice, Nat.testBit_two_pow_mul_add a hb, hwidth, hplace]
  rw [if_neg (by omega)]

/-- A slice over the border of two parts of a number. -/
theorem slice_across (hb : b < 2 ^ s) (hlo : lo ≤ s) (hhi : s ≤ hi) :
    slice (2 ^ s * a + b) lo hi = 2 ^ (s - lo) * slice a 0 (hi - s) + slice b lo s := by
  apply Nat.eq_of_testBit_eq
  intro i
  rw [testBit_slice, Nat.testBit_two_pow_mul_add a hb,
    Nat.testBit_two_pow_mul_add _ (slice_lt b lo s)]
  by_cases hi' : i < s - lo
  · have hin : i < hi - lo := by omega
    have hlow : i + lo < s := by omega
    rw [if_pos hi', if_pos hlow, testBit_slice]
    simp [hin, hi']
  · have hhigh : ¬ i + lo < s := by omega
    have hplace : i - (s - lo) = i + lo - s := by omega
    rw [if_neg hi', if_neg hhigh, testBit_slice, hplace]
    by_cases hin : i < hi - lo
    · have hin' : i + lo - s < hi - s := by omega
      simp [hin, hin']
    · have hout : ¬ i + lo - s < hi - s := by omega
      simp [hin, hout]

/-- A slice that starts in the low part of a number, cut at the border of the parts. -/
theorem slice_cut (hb : b < 2 ^ s) (hlo : lo ≤ s) :
    slice (2 ^ s * a + b) lo hi = 2 ^ (min hi s - lo) * slice a 0 (hi - s) + slice b lo (min hi s) := by
  rcases Nat.le_total hi s with hle | hle
  · rw [slice_low hb hle, slice_empty (a := a) (by omega), Nat.min_eq_left hle]
    simp
  · rw [slice_across hb hlo hle, Nat.min_eq_right hle]

/-- Neighbouring slices of a number as one. -/
theorem slice_append {mid : Nat} (hlo : lo ≤ mid) (hhi : mid ≤ hi) :
    2 ^ (mid - lo) * slice a mid hi + slice a lo mid = slice a lo hi := by
  apply Nat.eq_of_testBit_eq
  intro i
  rw [Nat.testBit_two_pow_mul_add _ (slice_lt a lo mid)]
  simp only [testBit_slice]
  by_cases hi' : i < mid - lo
  · have hin : i < hi - lo := by omega
    simp [hi', hin]
  · rw [if_neg hi']
    have hplace : i - (mid - lo) + mid = i + lo := by omega
    have hwidth : i - (mid - lo) < hi - mid ↔ i < hi - lo := by omega
    simp only [hplace, hwidth]

end LoomX.BitSlice
