import LoomX.ArrayAccess

namespace LoomX.LongGcd

/-- `std::llabs`, which has no value for the least number. -/
def llabs (a : Int64) : Option Int64 := if a = .minValue then none else some a.abs

/-- `%`, which traps where the quotient is no number. -/
def remainder (a b : Int64) : Option Int64 :=
  if b = 0 ∨ a = .minValue ∧ b = -1 then none else some (a % b)

/-- The loop of `gcd`. -/
def gcdLoop (a b : Int64) : Option Int64 :=
  if b = 0 then some a
  else if (remainder a b).isNone then none
  else gcdLoop b (a % b)
termination_by b.toInt.natAbs
decreasing_by
  rw [Int64.toInt_mod, Int.natAbs_tmod]
  refine Nat.mod_lt _ (Int.natAbs_pos.mpr fun h => ?_)
  exact absurd (Int64.toInt.inj h) ‹_›

def gcd (a b : Int64) : Option Int64 := do
  gcdLoop (← llabs a) (← llabs b)

def gcdTest (c1 c2 delta : Int64) : Option Bool := do
  let g ← gcd c1 c2
  if g = 0 then some (delta = 0)
  else (remainder delta g).map fun r => r = 0

theorem toInt_eq_zero {a : Int64} : a.toInt = 0 ↔ a = 0 :=
  ⟨fun h => Int64.toInt.inj h, fun h => by rw [h]; rfl⟩

/-- No remainder traps whose divisor is positive. -/
theorem remainder_of_pos {a b : Int64} (hb : 0 < b.toInt) : remainder a b = some (a % b) := by
  have hzero : b ≠ 0 := by
    rintro rfl
    exact absurd hb (by decide)
  have hone : b ≠ -1 := by
    rintro rfl
    exact absurd hb (by decide)
  simp [remainder, hzero, hone]

/-- The divisors of the loop stay positive, so that it comes to the greatest common divisor. -/
theorem gcdLoop_eq (a b : Int64) (ha : 0 ≤ a.toInt) (hb : 0 ≤ b.toInt) :
    ∃ g, gcdLoop a b = some g ∧ g.toInt = Int.gcd a.toInt b.toInt := by
  induction a, b using gcdLoop.induct with
  | case1 a =>
    refine ⟨a, by rw [gcdLoop, if_pos rfl], ?_⟩
    show a.toInt = Int.gcd a.toInt 0
    rw [Int.gcd_zero_right, Int.natAbs_of_nonneg ha]
  | case2 a b hzero htrap =>
    have hpos : 0 < b.toInt := lt_of_le_of_ne hb fun h => hzero (toInt_eq_zero.mp h.symm)
    rw [remainder_of_pos hpos] at htrap
    cases htrap
  | case3 a b hzero htrap ih =>
    have hmod : (a % b).toInt = a.toInt.tmod b.toInt := Int64.toInt_mod a b
    obtain ⟨g, hg, hvalue⟩ := ih hb (by rw [hmod]; exact Int.tmod_nonneg _ ha)
    refine ⟨g, by rw [gcdLoop, if_neg hzero, if_neg htrap, hg], ?_⟩
    rw [hvalue, hmod, Int.tmod_eq_emod_of_nonneg ha, Int.gcd_comm, Int.gcd_emod]

theorem llabs_eq {a : Int64} (ha : a ≠ .minValue) :
    ∃ b, llabs a = some b ∧ b.toInt = a.toInt.natAbs := by
  refine ⟨a.abs, if_neg ha, ?_⟩
  show a.toBitVec.abs.toInt = a.toBitVec.toInt.natAbs
  rw [BitVec.toInt_abs_eq_natAbs, if_neg]
  exact fun h => ha (Int64.toBitVec_inj.mp h)

theorem gcd_eq {a b : Int64} (ha : a ≠ .minValue) (hb : b ≠ .minValue) :
    ∃ g, gcd a b = some g ∧ g.toInt = Int.gcd a.toInt b.toInt := by
  obtain ⟨x, hx, hxvalue⟩ := llabs_eq ha
  obtain ⟨y, hy, hyvalue⟩ := llabs_eq hb
  obtain ⟨g, hg, hvalue⟩ := gcdLoop_eq x y (by omega) (by omega)
  refine ⟨g, by simp [gcd, hx, hy, hg], ?_⟩
  rw [hvalue, hxvalue, hyvalue, Int.gcd, Int.natAbs_natCast, Int.natAbs_natCast, Int.gcd]

/-- The test is for whether the greatest common divisor divides the difference. -/
theorem gcdTest_eq {c1 c2 : Int64} (h1 : c1 ≠ .minValue) (h2 : c2 ≠ .minValue) (delta : Int64) :
    gcdTest c1 c2 delta = some (LoomX.gcdTest c1.toInt c2.toInt delta.toInt) := by
  obtain ⟨g, hg, hvalue⟩ := gcd_eq h1 h2
  have hdvd := @gcdTest_iff_dvd c1.toInt c2.toInt delta.toInt
  rw [← hvalue] at hdvd
  simp only [gcdTest, hg, Option.bind_eq_bind, Option.bind_some]
  split
  next hzero =>
    rw [hzero] at hdvd
    refine congrArg some (Bool.eq_iff_iff.mpr ?_)
    rw [hdvd, decide_eq_true_eq, ← toInt_eq_zero]
    exact zero_dvd_iff.symm
  next hzero =>
    have hpos : 0 < g.toInt :=
      lt_of_le_of_ne (by omega) fun h => hzero (toInt_eq_zero.mp h.symm)
    rw [remainder_of_pos hpos, Option.map_some]
    refine congrArg some (Bool.eq_iff_iff.mpr ?_)
    rw [hdvd, decide_eq_true_eq, ← toInt_eq_zero, Int64.toInt_mod]
    exact Int.dvd_iff_tmod_eq_zero.symm

theorem gcd_minValue {c1 c2 : Int64} (h : c1 = .minValue ∨ c2 = .minValue) : gcd c1 c2 = none := by
  rcases h with rfl | rfl
  · rfl
  · show (llabs c1).bind (fun _ => none) = none
    cases llabs c1 <;> rfl

/-- The test answers for all coefficients but the least number, whose absolute value is no number,
and it then reports a dependence exactly where the equation of the subscripts has a solution. -/
theorem gcdTest_exact_iff (c1 c2 delta : Int64) :
    (∃ reported, gcdTest c1 c2 delta = some reported ∧
      (reported = true ↔ ∃ x y : Int, c1.toInt * x - c2.toInt * y = delta.toInt)) ↔
      c1 ≠ .minValue ∧ c2 ≠ .minValue := by
  constructor
  · rintro ⟨reported, h, -⟩
    rw [← not_or]
    intro hmin
    rw [gcdTest, gcd_minValue hmin] at h
    cases h
  · rintro ⟨h1, h2⟩
    exact ⟨_, gcdTest_eq h1 h2 delta, gcdTest_iff⟩

/-- `gcdTest(LLONG_MIN, 5, LLONG_MIN)` has no result, although the equation has a solution. -/
theorem leastCoefficient_not_tested :
    gcdTest .minValue 5 .minValue = none ∧
      ∃ x y : Int, Int64.minValue.toInt * x - (5 : Int64).toInt * y = Int64.minValue.toInt :=
  ⟨rfl, 1, 0, by decide⟩

end LoomX.LongGcd
