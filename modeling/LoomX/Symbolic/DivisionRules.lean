import LoomX.Symbolic.Expression
import Mathlib.Data.Int.ModEq
import Mathlib.Tactic.Positivity
import Mathlib.Tactic.Zify

namespace LoomX.Symbolic

namespace BitVector

/-- `toInteger` of at most 64 bits. -/
def toInteger (a : BitVector) : Nat := a.value

/-- An unsigned 64-bit integer converted to a signed one. -/
def toInt64 (u : Nat) : Int := if u < 2 ^ 63 then u else u - 2 ^ 64

/-- A signed 64-bit integer converted to an unsigned one. -/
def toUInt64 (n : Int) : Nat := (n % 2 ^ 64).toNat

/-- `toSignedInteger` of at most 64 bits; one bit stands for zero or one. -/
def toSignedInteger (a : BitVector) : Int :=
  let u := a.toInteger
  let isNegative := 1 < a.size ∧ a.size < 64 ∧ u &&& 2 ^ (a.size - 1) ≠ 0
  -- `-1` shifted left sets the bits from the size on
  toInt64 (if isNegative then u ||| (2 ^ 64 - 2 ^ a.size) else u)

end BitVector

/-- What a simplifier makes of an expression; signed overflow has no defined result. -/
inductive Folding
  | unchanged
  | folded (n : Node)
  | overflow
  deriving DecidableEq

/-- The quotient of signed 64-bit integers if it is one. -/
def divide64 (a b : Int) : Option Int :=
  if -2 ^ 63 ≤ a.tdiv b ∧ a.tdiv b < 2 ^ 63 then some (a.tdiv b) else none

/-- The remainder of signed 64-bit integers; it is undefined if the quotient is. -/
def remainder64 (a b : Int) : Option Int := (divide64 a b).map fun _ => a.tmod b

/-- A division of constants of at most 64 bits by one that is not zero. -/
def foldDivision (divide : BitVector → BitVector → Option BitVector) : Node → Folding
  | .interior _ _ [.constant a _, .constant b _] f =>
    if b.isEqualToZero then .unchanged
    else if a.size ≤ 64 ∧ b.size ≤ 64 then
      match divide a b with
      | some c => .folded (.constant c f)
      | none => .overflow
    else .unchanged
  | _ => .unchanged

def sdivRewrite : Node → Folding :=
  foldDivision fun a b => (divide64 a.toSignedInteger b.toSignedInteger).map fun q =>
    .fromInteger a.size (BitVector.toUInt64 q)

def smodRewrite : Node → Folding :=
  foldDivision fun a b => (remainder64 a.toSignedInteger b.toSignedInteger).map fun r =>
    .fromInteger b.size (BitVector.toUInt64 r)

def udivRewrite : Node → Folding :=
  foldDivision fun a b => some (.fromInteger a.size (a.toInteger / b.toInteger))

def umodRewrite : Node → Folding :=
  foldDivision fun a b => some (.fromInteger b.size (a.toInteger % b.toInteger))

namespace BitVector

variable {a b : BitVector}

theorem fromInteger_toUInt64 {size : Nat} (h : size ≤ 64) (n : Int) :
    fromInteger size (toUInt64 n) = fromSigned size n := by
  have hpos : (0 : Int) < 2 ^ size := by positivity
  have hdvd : (2 : Int) ^ size ∣ 2 ^ 64 := pow_dvd_pow 2 h
  have hnonneg := Int.emod_nonneg n (show (2 : Int) ^ 64 ≠ 0 by decide)
  have hnonneg' := Int.emod_nonneg n hpos.ne'
  ext
  · rfl
  · show toUInt64 n % 2 ^ size = (n % 2 ^ size).toNat % 2 ^ size
    zify
    rw [toUInt64, Int.toNat_of_nonneg hnonneg, Int.toNat_of_nonneg hnonneg',
      Int.emod_emod_of_dvd _ hdvd, Int.emod_emod]

/-- Integers have the same low bits if they differ by a multiple of the power. -/
theorem fromSigned_eq_iff {size : Nat} {m n : Int} :
    fromSigned size m = fromSigned size n ↔ (2 : Int) ^ size ∣ m - n := by
  have hpos : (0 : Int) < 2 ^ size := by positivity
  have hm := Int.emod_nonneg m hpos.ne'
  have hn := Int.emod_nonneg n hpos.ne'
  have hvalue (k : Int) : (fromSigned size k).value = (k % 2 ^ size).toNat := by
    apply fromInteger_value_of_lt
    have hlt := Int.emod_lt_of_pos k hpos
    have hcast : ((2 ^ size : Nat) : Int) = 2 ^ size := by push_cast; rfl
    omega
  have hmod : fromSigned size m = fromSigned size n ↔ n % 2 ^ size = m % 2 ^ size := by
    constructor
    · intro h
      have hv : (fromSigned size m).value = (fromSigned size n).value := by rw [h]
      rw [hvalue, hvalue] at hv
      omega
    · intro h
      rw [fromSigned, fromSigned, h]
  rw [hmod]
  exact Int.modEq_iff_dvd

theorem signBit_iff {u k : Nat} (h : u < 2 ^ (k + 1)) : u &&& 2 ^ k ≠ 0 ↔ 2 ^ k ≤ u := by
  have hpos := Nat.two_pow_pos k
  rw [Nat.and_two_pow]
  by_cases hle : 2 ^ k ≤ u
  · rw [Nat.testBit_of_two_pow_le_and_two_pow_add_one_gt hle h]
    simp [hle]
  · rw [Nat.testBit_lt_two_pow (by omega)]
    simp [hle]

/-- Setting the bits from a size on adds them. -/
theorem signExtended {u size : Nat} (hu : u < 2 ^ size) (hsize : size ≤ 64) :
    u ||| (2 ^ 64 - 2 ^ size) = 2 ^ 64 - 2 ^ size + u := by
  have hsplit : 2 ^ 64 - 2 ^ size = 2 ^ size * (2 ^ (64 - size) - 1) := by
    rw [Nat.mul_sub, ← Nat.pow_add, Nat.add_sub_cancel' hsize, Nat.mul_one]
  rw [hsplit, Nat.or_comm, ← Nat.two_pow_add_eq_or_of_lt hu]

/-- The sign of a single bit is not extended. -/
theorem toSignedInteger_eq (h : a.size ≤ 64) :
    a.toSignedInteger = if a.size = 1 then (a.value : Int) else a.toInt := by
  have hlt := a.isLt
  have hsigned : a.toSignedInteger = toInt64 (if 1 < a.size ∧ a.size < 64 ∧
      a.value &&& 2 ^ (a.size - 1) ≠ 0 then a.value ||| (2 ^ 64 - 2 ^ a.size) else a.value) := rfl
  rw [hsigned, toInt]
  by_cases hone : a.size = 1
  · have hno : ¬(1 < a.size ∧ a.size < 64 ∧ a.value &&& 2 ^ (a.size - 1) ≠ 0) := by omega
    rw [if_neg hno, if_pos hone, toInt64, if_pos]
    rw [hone] at hlt
    omega
  · rw [if_neg hone]
    obtain hsize | hsize := Nat.eq_or_lt_of_le h
    · have hno : ¬(1 < a.size ∧ a.size < 64 ∧ a.value &&& 2 ^ (a.size - 1) ≠ 0) := by omega
      rw [if_neg hno, toInt64, hsize]
      split <;> split <;> omega
    · have hpow : 2 ^ a.size ≤ 2 ^ 63 := Nat.pow_le_pow_right (by decide) (by omega)
      by_cases hneg : 1 < a.size ∧ 2 * a.value ≥ 2 ^ a.size
      · obtain ⟨k, hk⟩ : ∃ k, a.size = k + 1 := ⟨a.size - 1, by omega⟩
        have hbit : a.value &&& 2 ^ (a.size - 1) ≠ 0 := by
          rw [hk, Nat.add_sub_cancel]
          rw [hk] at hlt hneg
          exact (signBit_iff hlt).mpr (by omega)
        rw [if_pos ⟨hneg.1, hsize, hbit⟩, signExtended hlt h, toInt64, if_neg (by omega),
          if_neg (by omega)]
        have hcast : ((2 ^ a.size : Nat) : Int) = 2 ^ a.size := by push_cast; rfl
        omega
      · have hno : ¬(1 < a.size ∧ a.size < 64 ∧ a.value &&& 2 ^ (a.size - 1) ≠ 0) := by
          rintro ⟨h1, -, hbit⟩
          obtain ⟨k, hk⟩ : ∃ k, a.size = k + 1 := ⟨a.size - 1, by omega⟩
          rw [hk, Nat.add_sub_cancel] at hbit
          rw [hk] at hlt hneg
          have hle := (signBit_iff hlt).mp hbit
          omega
        have hsmall : 2 * a.value < 2 ^ a.size := by
          by_cases hzero : a.size = 0
          · rw [hzero] at hlt ⊢
            omega
          · omega
        rw [if_neg hno, if_pos hsmall, toInt64, if_pos (by omega)]

/-- The sign of a single set bit is lost, and nothing else. -/
theorem toSignedInteger_cases (h : a.size ≤ 64) :
    a.toSignedInteger = a.toInt ∧ (a.size = 1 → a.value = 0) ∨
      a.size = 1 ∧ a.value = 1 ∧ a.toInt = -1 ∧ a.toSignedInteger = 1 := by
  have hlt := a.isLt
  rw [toSignedInteger_eq h]
  by_cases hone : a.size = 1
  · rw [if_pos hone, toInt]
    rw [hone] at hlt ⊢
    by_cases hzero : a.value = 0
    · exact Or.inl ⟨by rw [hzero]; rfl, fun _ => hzero⟩
    · have hset : a.value = 1 := by omega
      exact Or.inr ⟨rfl, hset, by rw [hset]; rfl, by rw [hset]; rfl⟩
  · rw [if_neg hone]
    exact Or.inl ⟨rfl, fun h => absurd h hone⟩

theorem toInt_eq_zero_iff : a.toInt = 0 ↔ a.value = 0 := by
  have hlt := a.isLt
  have hcast : ((2 ^ a.size : Nat) : Int) = 2 ^ a.size := by push_cast; rfl
  unfold toInt
  split <;> omega

theorem toSignedInteger_bounds (h : a.size ≤ 64) :
    -2 ^ 63 ≤ a.toSignedInteger ∧ a.toSignedInteger < 2 ^ 63 := by
  obtain ⟨heq, -⟩ | ⟨-, -, -, heq⟩ := toSignedInteger_cases h
  · rw [heq]
    by_cases hzero : a.size = 0
    · have hlt := a.isLt
      rw [hzero] at hlt
      rw [toInt_eq_zero_iff.mpr (by omega)]
      decide
    · have hbounds := toInt_bounds a (by omega)
      have hpow : (2 : Int) ^ (a.size - 1) ≤ 2 ^ 63 := pow_le_pow_right₀ (by decide) (by omega)
      omega
  · rw [heq]
    decide

end BitVector

/-- The quotient is no 64-bit integer exactly for the least dividend and the divisor minus one. -/
theorem divide64_eq {a b : Int} (ha : -2 ^ 63 ≤ a ∧ a < 2 ^ 63) :
    divide64 a b = if a = -2 ^ 63 ∧ b = -1 then none else some (a.tdiv b) := by
  unfold divide64
  by_cases hover : a = -2 ^ 63 ∧ b = -1
  · rw [if_pos hover, hover.1, hover.2]
    decide
  · rw [if_neg hover, if_pos]
    have hquotient : (a.tdiv b).natAbs = a.natAbs / b.natAbs := Int.natAbs_tdiv a b
    by_cases hone : b.natAbs = 1
    · obtain rfl | rfl := Int.natAbs_eq_iff.mp hone
      · rw [Nat.cast_one, Int.tdiv_one]
        exact ha
      · rw [Nat.cast_one] at hover ⊢
        rw [Int.tdiv_neg, Int.tdiv_one]
        omega
    · have hhalf : a.natAbs / b.natAbs ≤ a.natAbs / 2 := by
        by_cases hzero : b.natAbs = 0
        · rw [hzero, Nat.div_zero]
          exact Nat.zero_le _
        · exact Nat.div_le_div_left (by omega) (by decide)
      omega

namespace BitVector

variable {a b : BitVector}

/-- A divisor of a single bit is minus one, and taken for one. -/
theorem divisor_cases (hb : b.size ≤ 64) (hzero : b.isEqualToZero = false) :
    b.size ≠ 1 ∧ b.toSignedInteger = b.toInt ∨
      b.size = 1 ∧ b.toInt = -1 ∧ b.toSignedInteger = 1 := by
  have hvalue : b.value ≠ 0 := by simpa [isEqualToZero] using hzero
  obtain ⟨heq, hone⟩ | ⟨hsize, -, htoInt, heq⟩ := toSignedInteger_cases hb
  · exact Or.inl ⟨fun h => hvalue (hone h), heq⟩
  · exact Or.inr ⟨hsize, htoInt, heq⟩

theorem two_le_size (hone : b.size ≠ 1) (hzero : b.isEqualToZero = false) : 2 ≤ b.size := by
  have hvalue : b.value ≠ 0 := by simpa [isEqualToZero] using hzero
  have hlt := b.isLt
  have hsize : b.size ≠ 0 := fun h => by
    rw [h] at hlt
    omega
  omega

/-- A vector is its own negative if it is zero or the least one of its size. -/
theorem dvd_double_iff :
    (2 : Int) ^ a.size ∣ a.toInt - -a.toInt ↔ a.value = 0 ∨ 2 * a.value = 2 ^ a.size := by
  have hlt := a.isLt
  have hcast : ((2 ^ a.size : Nat) : Int) = 2 ^ a.size := by push_cast; rfl
  have hpos : (0 : Int) < 2 ^ a.size := by positivity
  unfold toInt
  constructor
  · rintro ⟨k, hk⟩
    have hlow : 2 ^ a.size * (-2) < 2 ^ a.size * k := by split at hk <;> omega
    have hhigh : 2 ^ a.size * k < 2 ^ a.size * 2 := by split at hk <;> omega
    have hk1 := Int.lt_of_mul_lt_mul_left hlow hpos.le
    have hk2 := Int.lt_of_mul_lt_mul_left hhigh hpos.le
    obtain rfl | rfl | rfl : k = -1 ∨ k = 0 ∨ k = 1 := by omega
    all_goals split at hk <;> omega
  · rintro (h | h)
    · rw [if_pos (by omega), h]
      exact ⟨0, by simp⟩
    · rw [if_neg (by omega)]
      exact ⟨-1, by omega⟩

end BitVector

/-- One divided by what is neither zero nor a unit is left. -/
theorem tmod_one_of_ne {n : Int} (hzero : n ≠ 0) (hunit : ¬(n = 1 ∨ n = -1)) :
    Int.tmod 1 n = 1 := by
  by_cases hpos : 0 < n
  · exact Int.tmod_eq_of_lt (by decide) (by omega)
  · have hneg := Int.tmod_neg 1 (-n)
    rw [Int.neg_neg] at hneg
    rw [hneg]
    exact Int.tmod_eq_of_lt (by decide) (by omega)

section

variable {a b : BitVector} (w fa fb f : Nat) (ha : a.size ≤ 64) (hb : b.size ≤ 64)
  (hzero : b.isEqualToZero = false)
include ha hb hzero

theorem foldDivision_eq (divide : BitVector → BitVector → Option BitVector) (op : Operator) :
    foldDivision divide (.interior op w [.constant a fa, .constant b fb] f) =
      match divide a b with
      | some c => .folded (.constant c f)
      | none => .overflow := by
  simp only [foldDivision, hzero, ha, hb, Bool.false_eq_true, if_false, and_self, if_true]

/-- A signed quotient is right unless it overflows, or the divisor is the single bit minus one and
taken for one. -/
theorem sdivRewrite_iff (op : Operator) :
    sdivRewrite (.interior op w [.constant a fa, .constant b fb] f) =
        .folded (.constant (.fromSigned a.size (a.toInt.tdiv b.toInt)) f) ↔
      ¬(a.toInt = -2 ^ 63 ∧ b.toInt = -1 ∧ b.size ≠ 1) ∧
        (b.size = 1 → a.value = 0 ∨ 2 * a.value = 2 ^ a.size) := by
  have hbounds := BitVector.toSignedInteger_bounds ha
  rw [sdivRewrite, foldDivision_eq w fa fb f ha hb hzero, divide64_eq hbounds]
  obtain ⟨hb1, hbeq⟩ | ⟨hb1, hbInt, hbeq⟩ := BitVector.divisor_cases hb hzero
  · rw [hbeq]
    obtain ⟨haeq, -⟩ | ⟨ha1, -, haInt, haeq⟩ := BitVector.toSignedInteger_cases ha
    · rw [haeq]
      by_cases hover : a.toInt = -2 ^ 63 ∧ b.toInt = -1
      · simp [hover, hb1]
      · have hfine : ¬(a.toInt = -2 ^ 63 ∧ b.toInt = -1 ∧ b.size ≠ 1) :=
          fun h => hover ⟨h.1, h.2.1⟩
        rw [if_neg hover]
        simp only [Option.map_some, BitVector.fromInteger_toUInt64 ha, hfine, hb1]
        simp
    · -- the quotients of minus one and of one by the divisor have the same lowest bit
      have hsame : BitVector.fromSigned a.size (Int.tdiv 1 b.toInt) =
          .fromSigned a.size (Int.tdiv (-1) b.toInt) := by
        rw [BitVector.fromSigned_eq_iff, ha1, Int.neg_tdiv]
        exact ⟨Int.tdiv 1 b.toInt, by omega⟩
      have hover : ¬((1 : Int) = -2 ^ 63 ∧ b.toInt = -1) := by omega
      have hfine : ¬((-1 : Int) = -2 ^ 63 ∧ b.toInt = -1 ∧ b.size ≠ 1) := by omega
      rw [haeq, haInt, if_neg hover]
      simp only [Option.map_some, BitVector.fromInteger_toUInt64 ha, hsame, hfine, hb1]
      simp
  · have hover : ¬(a.toSignedInteger = -2 ^ 63 ∧ (1 : Int) = -1) := by omega
    have hsame : (2 : Int) ^ a.size ∣ a.toSignedInteger - -a.toInt ↔
        a.value = 0 ∨ 2 * a.value = 2 ^ a.size := by
      obtain ⟨haeq, -⟩ | ⟨ha1, haset, haInt, haeq⟩ := BitVector.toSignedInteger_cases ha
      · rw [haeq]
        exact BitVector.dvd_double_iff
      · rw [haeq, haInt, ha1, haset]
        decide
    rw [hbeq, if_neg hover, hbInt, Int.tdiv_neg, Int.tdiv_one, Int.tdiv_one]
    simp only [Option.map_some, BitVector.fromInteger_toUInt64 ha, Folding.folded.injEq,
      Node.constant.injEq, and_true, BitVector.fromSigned_eq_iff, hsame, hb1]
    simp

/-- A signed remainder is right unless the quotient overflows, or the dividend is the single bit
minus one, taken for one, and not divided. -/
theorem smodRewrite_iff (op : Operator) :
    smodRewrite (.interior op w [.constant a fa, .constant b fb] f) =
        .folded (.constant (.fromSigned b.size (a.toInt.tmod b.toInt)) f) ↔
      ¬(a.toInt = -2 ^ 63 ∧ b.toInt = -1 ∧ b.size ≠ 1) ∧
        (a.size = 1 → a.value = 0 ∨ b.toInt = 1 ∨ b.toInt = -1) := by
  have hbounds := BitVector.toSignedInteger_bounds ha
  rw [smodRewrite, foldDivision_eq w fa fb f ha hb hzero, remainder64, divide64_eq hbounds]
  obtain ⟨haeq, ha1⟩ | ⟨ha1, haset, haInt, haeq⟩ := BitVector.toSignedInteger_cases ha
  · rw [haeq]
    obtain ⟨hb1, hbeq⟩ | ⟨hb1, hbInt, hbeq⟩ := BitVector.divisor_cases hb hzero
    · rw [hbeq]
      by_cases hover : a.toInt = -2 ^ 63 ∧ b.toInt = -1
      · simp [hover, hb1]
      · have hfine : ¬(a.toInt = -2 ^ 63 ∧ b.toInt = -1 ∧ b.size ≠ 1) :=
          fun h => hover ⟨h.1, h.2.1⟩
        have hbit : a.size = 1 → a.value = 0 ∨ b.toInt = 1 ∨ b.toInt = -1 :=
          fun h => Or.inl (ha1 h)
        rw [if_neg hover]
        simp only [Option.map_some, BitVector.fromInteger_toUInt64 hb, hfine]
        simpa using hbit
    · have hover : ¬(a.toInt = -2 ^ 63 ∧ (1 : Int) = -1) := by omega
      rw [hbeq, if_neg hover, hbInt, Int.tmod_neg, Int.tmod_one]
      simp only [Option.map_some, BitVector.fromInteger_toUInt64 hb]
      simp [hb1]
  · have hover : ¬((1 : Int) = -2 ^ 63 ∧ b.toSignedInteger = -1) := by omega
    have hfine : ¬((-1 : Int) = -2 ^ 63 ∧ b.toInt = -1 ∧ b.size ≠ 1) := by omega
    rw [haeq, if_neg hover, haInt]
    simp only [Option.map_some, BitVector.fromInteger_toUInt64 hb, Folding.folded.injEq,
      Node.constant.injEq, and_true, BitVector.fromSigned_eq_iff, hfine, ha1, haset]
    obtain ⟨hb1, hbeq⟩ | ⟨hb1, hbInt, hbeq⟩ := BitVector.divisor_cases hb hzero
    · rw [hbeq, Int.neg_tmod]
      constructor
      · intro hdvd
        refine ⟨not_false, fun _ => Or.inr ?_⟩
        by_contra hunit
        have hne : b.toInt ≠ 0 := fun h => by
          rw [BitVector.toInt_eq_zero_iff] at h
          simp [BitVector.isEqualToZero, h] at hzero
        have hfour : (2 : Int) ^ 2 ∣ 2 ^ b.size := pow_dvd_pow 2 (BitVector.two_le_size hb1 hzero)
        have hdouble := hfour.trans hdvd
        rw [tmod_one_of_ne hne hunit] at hdouble
        omega
      · rintro ⟨-, h⟩
        obtain h | h | h := h trivial
        · omega
        · simp [h]
        · simp [h]
    · rw [hbeq, hbInt, Int.tmod_neg, Int.tmod_one, Int.tmod_one]
      simp

/-- The unsigned quotient and remainder are always right. -/
theorem udivRewrite_eq (op : Operator) :
    udivRewrite (.interior op w [.constant a fa, .constant b fb] f) =
      .folded (.constant (.fromInteger a.size (a.value / b.value)) f) := by
  rw [udivRewrite, foldDivision_eq w fa fb f ha hb hzero]
  rfl

theorem umodRewrite_eq (op : Operator) :
    umodRewrite (.interior op w [.constant a fa, .constant b fb] f) =
      .folded (.constant (.fromInteger b.size (a.value % b.value)) f) := by
  rw [umodRewrite, foldDivision_eq w fa fb f ha hb hzero]
  rfl

end

/-- Which divisions of constants of at most 64 bits are folded to the two's complement quotient and
remainder: all unsigned ones, and the signed ones that neither overflow nor read a single set bit as
one where this matters. -/
theorem division_folds {a b : BitVector} (w fa fb f : Nat) (op : Operator) (ha : a.size ≤ 64)
    (hb : b.size ≤ 64) (hzero : b.isEqualToZero = false) :
    (sdivRewrite (.interior op w [.constant a fa, .constant b fb] f) =
        .folded (.constant (.fromSigned a.size (a.toInt.tdiv b.toInt)) f) ↔
      ¬(a.toInt = -2 ^ 63 ∧ b.toInt = -1 ∧ b.size ≠ 1) ∧
        (b.size = 1 → a.value = 0 ∨ 2 * a.value = 2 ^ a.size)) ∧
    (smodRewrite (.interior op w [.constant a fa, .constant b fb] f) =
        .folded (.constant (.fromSigned b.size (a.toInt.tmod b.toInt)) f) ↔
      ¬(a.toInt = -2 ^ 63 ∧ b.toInt = -1 ∧ b.size ≠ 1) ∧
        (a.size = 1 → a.value = 0 ∨ b.toInt = 1 ∨ b.toInt = -1)) ∧
    udivRewrite (.interior op w [.constant a fa, .constant b fb] f) =
      .folded (.constant (.fromInteger a.size (a.value / b.value)) f) ∧
    umodRewrite (.interior op w [.constant a fa, .constant b fb] f) =
      .folded (.constant (.fromInteger b.size (a.value % b.value)) f) :=
  ⟨sdivRewrite_iff w fa fb f ha hb hzero op, smodRewrite_iff w fa fb f ha hb hzero op,
    udivRewrite_eq w fa fb f ha hb hzero op, umodRewrite_eq w fa fb f ha hb hzero op⟩

theorem division_folds_minus_seven :
    (sdivRewrite (.interior (.other 18) 8
        [.constant (.fromInteger 8 249) 0, .constant (.fromInteger 4 2) 0] 0) =
      .folded (.constant (.fromSigned 8 (Int.tdiv (-7) 2)) 0) ↔
      ¬((-7 : Int) = -2 ^ 63 ∧ (2 : Int) = -1 ∧ 4 ≠ 1) ∧ (4 = 1 → 249 = 0 ∨ 2 * 249 = 2 ^ 8)) ∧
    (smodRewrite (.interior (.other 18) 8
        [.constant (.fromInteger 8 249) 0, .constant (.fromInteger 4 2) 0] 0) =
      .folded (.constant (.fromSigned 4 (Int.tmod (-7) 2)) 0) ↔
      ¬((-7 : Int) = -2 ^ 63 ∧ (2 : Int) = -1 ∧ 4 ≠ 1) ∧
        (8 = 1 → 249 = 0 ∨ (2 : Int) = 1 ∨ (2 : Int) = -1)) ∧
    udivRewrite (.interior (.other 18) 8
        [.constant (.fromInteger 8 249) 0, .constant (.fromInteger 4 2) 0] 0) =
      .folded (.constant (.fromInteger 8 (249 / 2)) 0) ∧
    umodRewrite (.interior (.other 18) 8
        [.constant (.fromInteger 8 249) 0, .constant (.fromInteger 4 2) 0] 0) =
      .folded (.constant (.fromInteger 4 (249 % 2)) 0) :=
  division_folds (a := .fromInteger 8 249) (b := .fromInteger 4 2) 8 0 0 0 (.other 18) (by decide)
    (by decide) (by decide)

/-- The least 64-bit dividend and the divisor minus one overflow, and two divided by the single bit
minus one stays two. -/
theorem division_overflows :
    sdivRewrite (.interior (.other 18) 64
        [.constant (.fromInteger 64 (2 ^ 63)) 0, .constant (.fromInteger 64 (2 ^ 64 - 1)) 0] 0) =
      .overflow ∧
    sdivRewrite (.interior (.other 18) 8
        [.constant (.fromInteger 8 2) 0, .constant (.fromInteger 1 1) 0] 0) =
      .folded (.constant (.fromInteger 8 2) 0) ∧
    (BitVector.fromInteger 1 1).toInt = -1 := by
  decide

end LoomX.Symbolic
