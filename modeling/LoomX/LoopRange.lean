import Mathlib.Tactic.Linarith
import Mathlib.Tactic.Ring

namespace LoomX

inductive LoopTest
  | lt
  | le
  | gt
  | ge
  deriving DecidableEq, Repr

def LoopTest.holds : LoopTest → Int → Int → Prop
  | .lt, i, u => i < u
  | .le, i, u => i ≤ u
  | .gt, i, u => u < i
  | .ge, i, u => u ≤ i

/-- `for (i = l; i rel u; i += d)` runs its body exactly `n` times. -/
def Iterations (rel : LoopTest) (l u d : Int) (n : Nat) : Prop :=
  (∀ k : Nat, k < n → rel.holds (l + k * d) u) ∧ ¬rel.holds (l + n * d) u

theorem iterations_le_iff {l u d : Int} {n : Nat} :
    Iterations .le l u d n ↔ Iterations .lt l (u + 1) d n := by
  simp only [Iterations, LoopTest.holds, Int.lt_add_one_iff]

theorem iterations_gt_iff {l u d : Int} {n : Nat} :
    Iterations .gt l u d n ↔ Iterations .lt (-l) (-u) (-d) n := by
  have flip : ∀ k : Int, u < l + k * d ↔ -l + k * -d < -u := by
    intro k
    constructor <;> intro h <;> linarith
  simp only [Iterations, LoopTest.holds, flip]

theorem iterations_ge_iff {l u d : Int} {n : Nat} :
    Iterations .ge l u d n ↔ Iterations .lt (-l) (-u + 1) (-d) n := by
  have flip : ∀ k : Int, u ≤ l + k * d ↔ -l + k * -d < -u + 1 := by
    intro k
    rw [Int.lt_add_one_iff]
    constructor <;> intro h <;> linarith
  simp only [Iterations, LoopTest.holds, flip]

theorem test_lt_iff_lt_ceil {l u d k : Int} (hd : 0 < d) :
    l + k * d < u ↔ k < (u - l + d - 1) / d := by
  rw [← Int.add_one_le_iff, ← Int.add_one_le_iff (a := k), Int.le_ediv_iff_mul_le hd]
  constructor <;> intro h <;> linarith

/-- An ascending loop with an exclusive bound runs ceil(span / step) times. -/
theorem iterations_lt_pos {l u d : Int} {n : Nat} (hd : 0 < d) :
    Iterations .lt l u d n ↔ (n : Int) = max 0 ((u - l + d - 1) / d) := by
  simp only [Iterations, LoopTest.holds, test_lt_iff_lt_ceil hd]
  constructor
  · rintro ⟨hall, hstop⟩
    rcases Nat.eq_zero_or_pos n with h0 | hpos
    · omega
    · have hlast := hall (n - 1) (by omega)
      omega
  · intro h
    refine ⟨fun k hk => ?_, ?_⟩ <;> omega

/-- With a step that never moves towards the bound the loop is empty or does not stop. -/
theorem iterations_lt_nonpos {l u d : Int} {n : Nat} (hd : d ≤ 0) :
    Iterations .lt l u d n ↔ n = 0 ∧ u ≤ l := by
  constructor
  · rintro ⟨hall, hstop⟩
    have hn : n = 0 := by
      by_contra hne
      have h0 : l + ((0 : Nat) : Int) * d < u := hall 0 (Nat.pos_of_ne_zero hne)
      have hmono : (n : Int) * d ≤ 0 := Int.mul_nonpos_of_nonneg_of_nonpos (by omega) hd
      exact hstop (by simp only [LoopTest.holds]; push_cast at h0; linarith)
    subst hn
    exact ⟨rfl, by simpa [LoopTest.holds] using hstop⟩
  · rintro ⟨rfl, h⟩
    exact ⟨by simp, by simpa [LoopTest.holds] using h⟩

/-- The header of a source loop at a valuation: relation, bounds and increment. -/
structure LoopRange where
  rel : LoopTest
  lower : Int
  upper : Int
  delta : Int

def LoopRange.Runs (r : LoopRange) (n : Nat) : Prop := Iterations r.rel r.lower r.upper r.delta n

/-- The bounds and steps at which the trip expression of one dimension is the number of
iterations. Descending loops with a non-unit step are right only by coincidence. -/
def TripExact (unit : Bool) (r : LoopRange) : Prop :=
  let span := r.upper - r.lower
  let size := -r.delta
  match r.rel, unit with
  | .lt, true => if r.delta = 1 then 0 ≤ span else span = 0
  | .le, true => if r.delta = 1 then -1 ≤ span else span = -1
  | .gt, true => span = 0
  | .ge, true => False
  | .lt, false => 0 < r.delta ∧ 2 - 2 * r.delta ≤ span
  | .le, false => 0 < r.delta ∧ (0 ≤ span ∨ -2 * r.delta < span ∧ span ≤ -r.delta)
  | .gt, false => 0 < r.delta ∧ span = 0 ∨
      r.delta < 0 ∧ (span < 0 ∧ (-span - 1) % size + 2 < size ∨ 2 ≤ span ∧ span ≤ 2 * size)
  | .ge, false => r.delta < 0 ∧
      (span ≤ 0 ∧ (-span + 1) % size ≠ 0 ∨ 2 ≤ span ∧ span ≤ 2 * size)

/-- The value of `tripText`, `none` at a zero step. -/
def tripValue (unit exclusive : Bool) (lower upper step : Int) : Option Int :=
  if unit then some (if exclusive then upper - lower else upper - lower + 1)
  else if step = 0 then none
  else some (if exclusive then (upper - lower + step - 1).tdiv step
    else (upper - lower).tdiv step + 1)

theorem tdiv_of_nonpos {a : Int} (b : Int) (ha : a ≤ 0) : a.tdiv b = -(-a / b) := by
  rw [← Int.tdiv_eq_ediv_of_nonneg (by omega : 0 ≤ -a), Int.neg_tdiv, Int.neg_neg]

theorem tdiv_eq_zero_iff {a b : Int} (hb : 0 < b) : a.tdiv b = 0 ↔ -b < a ∧ a < b := by
  rcases Int.le_total 0 a with h | h
  · rw [Int.tdiv_eq_ediv_of_nonneg h, Int.ediv_eq_iff_of_pos hb]
    omega
  · have hz : -(-a / b) = 0 ↔ -a / b = 0 := by omega
    rw [tdiv_of_nonpos b h, hz, Int.ediv_eq_iff_of_pos hb]
    omega

theorem exists_runs_of_pos {l u d t : Int} (hd : 0 < d) :
    (∃ n : Nat, Iterations .lt l u d n ∧ t = n) ↔ t = max 0 ((u - l + d - 1) / d) := by
  simp only [iterations_lt_pos hd]
  constructor
  · rintro ⟨n, hn, rfl⟩
    exact hn
  · intro h
    exact ⟨t.toNat, by omega, by omega⟩

theorem exists_runs_of_nonpos {l u d t : Int} (hd : d ≤ 0) :
    (∃ n : Nat, Iterations .lt l u d n ∧ t = n) ↔ u ≤ l ∧ t = 0 := by
  simp only [iterations_lt_nonpos hd]
  constructor
  · rintro ⟨n, ⟨rfl, h⟩, rfl⟩
    exact ⟨h, rfl⟩
  · rintro ⟨h, rfl⟩
    exact ⟨0, ⟨rfl, h⟩, rfl⟩

theorem ceil_trip_exact {span d : Int} (hd : 0 < d) :
    (span + d - 1).tdiv d = max 0 ((span + d - 1) / d) ↔ 2 - 2 * d ≤ span := by
  rcases Int.le_total 0 (span + d - 1) with h | h
  · have hq : 0 ≤ (span + d - 1) / d := Int.ediv_nonneg h hd.le
    rw [Int.tdiv_eq_ediv_of_nonneg h]
    omega
  · rcases Int.lt_or_eq_of_le h with hneg | h0
    · have hq : (span + d - 1) / d < 0 := Int.ediv_neg_of_neg_of_pos hneg hd
      have hz := tdiv_eq_zero_iff (a := span + d - 1) hd
      rw [max_eq_left hq.le, hz]
      omega
    · simp [h0]
      omega

theorem floor_trip_exact {span d : Int} (hd : 0 < d) :
    span.tdiv d + 1 = max 0 ((span + 1 + d - 1) / d) ↔
      0 ≤ span ∨ -2 * d < span ∧ span ≤ -d := by
  have hshift : (span + 1 + d - 1) / d = span / d + 1 := by
    rw [show span + 1 + d - 1 = span + d by ring, Int.add_ediv_of_dvd_right (dvd_refl d),
      Int.ediv_self hd.ne']
  rcases lt_or_ge span 0 with h | h
  · have hq : span / d < 0 := Int.ediv_neg_of_neg_of_pos h hd
    have hone : -(-span / d) + 1 = 0 ↔ -span / d = 1 := by omega
    rw [hshift, max_eq_left (by omega), tdiv_of_nonpos d h.le, hone, Int.ediv_eq_iff_of_pos hd]
    omega
  · have hq : 0 ≤ span / d := Int.ediv_nonneg h hd.le
    rw [hshift, Int.tdiv_eq_ediv_of_nonneg h]
    omega

theorem descending_empty {dist a : Int} (ha : 0 < a) :
    (dist + a + 1).tdiv a = 0 ↔ -2 * a ≤ dist ∧ dist ≤ -2 := by
  rw [tdiv_eq_zero_iff ha]
  omega

theorem descending_gt_exact {dist a : Int} (ha : 0 < a) :
    (dist + a + 1).tdiv a = max 0 ((dist + a - 1) / a) ↔
      0 < dist ∧ (dist - 1) % a + 2 < a ∨ -2 * a ≤ dist ∧ dist ≤ -2 := by
  rcases lt_trichotomy dist 0 with h | h | h
  · have hq : (dist + a - 1) / a ≤ 0 := by
      have := Int.ediv_le_ediv ha (show dist + a - 1 ≤ a - 1 by omega)
      rwa [Int.ediv_eq_zero_of_lt (by omega : 0 ≤ a - 1) (by omega)] at this
    rw [max_eq_left hq, descending_empty ha]
    omega
  · subst h
    have hq : (0 + a - 1) / a = 0 := Int.ediv_eq_zero_of_lt (by omega) (by omega)
    rw [hq, max_self, tdiv_eq_zero_iff ha]
    omega
  · have hsplit := Int.emod_add_mul_ediv (dist - 1) a
    have hr0 := Int.emod_nonneg (dist - 1) ha.ne'
    have hra := Int.emod_lt_of_pos (dist - 1) ha
    have hq0 : 0 ≤ (dist - 1) / a := Int.ediv_nonneg (by omega) ha.le
    have hlow : (dist + a - 1) / a = (dist - 1) / a + 1 := by
      rw [show dist + a - 1 = dist - 1 + a by ring, Int.add_ediv_of_dvd_right (dvd_refl a),
        Int.ediv_self ha.ne']
    rw [hlow, max_eq_right (by omega), Int.tdiv_eq_ediv_of_nonneg (by omega),
      Int.ediv_eq_iff_of_pos ha]
    have hmul : ((dist - 1) / a + 1) * a = a * ((dist - 1) / a) + a := by ring
    omega

theorem descending_ge_exact {dist a : Int} (ha : 0 < a) :
    (dist + a + 1).tdiv a = max 0 ((dist + 1 + a - 1) / a) ↔
      0 ≤ dist ∧ (dist + 1) % a ≠ 0 ∨ -2 * a ≤ dist ∧ dist ≤ -2 := by
  have hhigh : (dist + 1 + a - 1) / a = dist / a + 1 := by
    rw [show dist + 1 + a - 1 = dist + a by ring, Int.add_ediv_of_dvd_right (dvd_refl a),
      Int.ediv_self ha.ne']
  rw [hhigh]
  rcases lt_or_ge dist 0 with h | h
  · have hq : dist / a < 0 := Int.ediv_neg_of_neg_of_pos h ha
    rw [max_eq_left (by omega), descending_empty ha]
    omega
  · have hsplit := Int.emod_add_mul_ediv dist a
    have hr0 := Int.emod_nonneg dist ha.ne'
    have hra := Int.emod_lt_of_pos dist ha
    have hq0 : 0 ≤ dist / a := Int.ediv_nonneg h ha.le
    have hmod : (dist + 1) % a = (dist % a + 1) % a := by
      rw [← Int.emod_add_emod]
    have hlast : (dist % a + 1) % a ≠ 0 ↔ dist % a + 1 < a := by
      rcases lt_or_eq_of_le (show dist % a + 1 ≤ a by omega) with hlt | heq
      · rw [Int.emod_eq_of_lt (by omega) hlt]
        omega
      · simp [heq]
    rw [max_eq_right (by omega), Int.tdiv_eq_ediv_of_nonneg (by omega),
      Int.ediv_eq_iff_of_pos ha, hmod, hlast]
    have hmul : (dist / a + 1) * a = a * (dist / a) + a := by ring
    omega

theorem unit_trip_exact {r : LoopRange} {step : Int} (hd : r.delta = 1 ∨ r.delta = -1) :
    (∃ n : Nat, r.Runs n ∧ tripValue true (r.rel != .le) r.lower r.upper step = some (n : Int)) ↔
      TripExact true r := by
  obtain ⟨rel, l, u, d⟩ := r
  simp only [LoopRange.Runs, tripValue, TripExact, if_true, Option.some.injEq] at *
  rcases hd with rfl | rfl
  · cases rel
    · simp only [exists_runs_of_pos Int.one_pos, Int.ediv_one]
      simp
    · simp only [iterations_le_iff, exists_runs_of_pos Int.one_pos, Int.ediv_one]
      simp
      omega
    · simp only [iterations_gt_iff, exists_runs_of_nonpos (show (-1 : Int) ≤ 0 by decide)]
      simp
      omega
    · simp only [iterations_ge_iff, exists_runs_of_nonpos (show (-1 : Int) ≤ 0 by decide)]
      simp
      omega
  · cases rel
    · simp only [exists_runs_of_nonpos (show (-1 : Int) ≤ 0 by decide)]
      simp
      omega
    · simp only [iterations_le_iff, exists_runs_of_nonpos (show (-1 : Int) ≤ 0 by decide)]
      simp
      omega
    · simp only [iterations_gt_iff, Int.neg_neg, exists_runs_of_pos Int.one_pos, Int.ediv_one]
      simp
      omega
    · simp only [iterations_ge_iff, Int.neg_neg, exists_runs_of_pos Int.one_pos, Int.ediv_one]
      simp
      omega

theorem zero_step_not_exact {r : LoopRange} (hd : r.delta = 0) : ¬TripExact false r := by
  obtain ⟨rel, l, u, d⟩ := r
  simp only at hd
  cases rel <;> simp [TripExact, hd]

theorem tripValue_exclusive {l u d : Int} (hd : d ≠ 0) :
    tripValue false true l u d = some ((u - l + d - 1).tdiv d) := by simp [tripValue, hd]

theorem tripValue_inclusive {l u d : Int} (hd : d ≠ 0) :
    tripValue false false l u d = some ((u - l).tdiv d + 1) := by simp [tripValue, hd]

theorem ascending_trip_exact {r : LoopRange} (hd : 0 < r.delta) :
    (∃ n : Nat, r.Runs n ∧
      tripValue false (r.rel != .le) r.lower r.upper r.delta = some (n : Int)) ↔
      TripExact false r := by
  obtain ⟨rel, l, u, d⟩ := r
  have hnd : ¬d < 0 := by simp only at hd; omega
  have hneg : -d ≤ 0 := by simp only at hd; omega
  simp only at hd
  cases rel with
  | lt =>
    simp only [LoopRange.Runs, TripExact, show (LoopTest.lt != .le) = true from rfl,
      tripValue_exclusive hd.ne', Option.some.injEq, exists_runs_of_pos hd, ceil_trip_exact hd,
      hd, true_and]
  | le =>
    have hspan : u + 1 - l = u - l + 1 := by ring
    simp only [LoopRange.Runs, TripExact, show (LoopTest.le != .le) = false from rfl,
      tripValue_inclusive hd.ne', Option.some.injEq, iterations_le_iff, exists_runs_of_pos hd,
      hspan, floor_trip_exact hd, hd, true_and]
  | gt =>
    simp only [LoopRange.Runs, TripExact, show (LoopTest.gt != .le) = true from rfl,
      tripValue_exclusive hd.ne', Option.some.injEq, iterations_gt_iff,
      exists_runs_of_nonpos hneg, tdiv_eq_zero_iff hd, hd, hnd, true_and, false_and, or_false]
    omega
  | ge =>
    simp only [LoopRange.Runs, TripExact, show (LoopTest.ge != .le) = true from rfl,
      tripValue_exclusive hd.ne', Option.some.injEq, iterations_ge_iff,
      exists_runs_of_nonpos hneg, tdiv_eq_zero_iff hd, hnd, false_and, iff_false]
    omega

theorem descending_trip_exact {r : LoopRange} (hd : r.delta < 0) :
    (∃ n : Nat, r.Runs n ∧
      tripValue false (r.rel != .le) r.lower r.upper r.delta = some (n : Int)) ↔
      TripExact false r := by
  obtain ⟨rel, l, u, d⟩ := r
  simp only at hd
  have hnd : ¬0 < d := by omega
  have hsize : 0 < -d := by omega
  have hflip : (u - l + d - 1).tdiv d = (l - u + -d + 1).tdiv (-d) := by
    rw [← Int.neg_tdiv_neg]
    congr 1
    ring
  cases rel with
  | lt =>
    simp only [LoopRange.Runs, TripExact, show (LoopTest.lt != .le) = true from rfl,
      tripValue_exclusive hd.ne, Option.some.injEq, exists_runs_of_nonpos hd.le, hflip,
      tdiv_eq_zero_iff hsize, hnd, false_and, iff_false]
    omega
  | le =>
    simp only [LoopRange.Runs, TripExact, show (LoopTest.le != .le) = false from rfl,
      tripValue_inclusive hd.ne, Option.some.injEq, iterations_le_iff,
      exists_runs_of_nonpos hd.le, hnd, false_and, iff_false]
    rintro ⟨hle, ht⟩
    have hpos : (u - l).tdiv d = (l - u) / -d := by
      rw [← Int.neg_tdiv_neg, Int.neg_sub, Int.tdiv_eq_ediv_of_nonneg (by omega)]
    have := Int.ediv_nonneg (show 0 ≤ l - u by omega) hsize.le
    omega
  | gt =>
    have hspan : -u - -l = l - u := by ring
    have hmod : -(u - l) - 1 = l - u - 1 := by ring
    simp only [LoopRange.Runs, TripExact, show (LoopTest.gt != .le) = true from rfl,
      tripValue_exclusive hd.ne, Option.some.injEq, iterations_gt_iff, exists_runs_of_pos hsize,
      hspan, hmod, hflip, descending_gt_exact hsize, hd, hnd, true_and, false_and, false_or]
    omega
  | ge =>
    have hspan : -u + 1 - -l = l - u + 1 := by ring
    have hmod : -(u - l) + 1 = l - u + 1 := by ring
    simp only [LoopRange.Runs, TripExact, show (LoopTest.ge != .le) = true from rfl,
      tripValue_exclusive hd.ne, Option.some.injEq, iterations_ge_iff, exists_runs_of_pos hsize,
      hspan, hmod, hflip, descending_ge_exact hsize, hd, true_and]
    omega

/-- One dimension, over every relation, sign of the increment and pair of bounds. -/
theorem trip_exact_iff {unit : Bool} {r : LoopRange} (step : Int)
    (hunit : unit = true → r.delta = 1 ∨ r.delta = -1) (hstep : unit = false → step = r.delta) :
    (∃ n : Nat, r.Runs n ∧ tripValue unit (r.rel != .le) r.lower r.upper step = some (n : Int)) ↔
      TripExact unit r := by
  cases unit with
  | true => exact unit_trip_exact (hunit rfl)
  | false =>
    rw [hstep rfl]
    rcases lt_trichotomy r.delta 0 with hd | hd | hd
    · exact descending_trip_exact hd
    · have hno := zero_step_not_exact hd
      simp [tripValue, hd, hno]
    · exact ascending_trip_exact hd

end LoomX
