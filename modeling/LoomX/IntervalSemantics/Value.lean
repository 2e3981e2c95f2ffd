import LoomX.IntervalSet

namespace LoomX.IntegerOps

/-- Unsigned arithmetic wraps at 64 bits. -/
def u64 (x : Nat) : Nat := x % 2 ^ 64

theorem u64_eq {x : Nat} (h : x < 2 ^ 64) : u64 x = x := Nat.mod_eq_of_lt h

def neg (x : Nat) : Nat := u64 (2 ^ 64 - x)

def inv (x : Nat) : Nat := x ^^^ (2 ^ 64 - 1)

def shl1 (n : Nat) : Nat := if 64 ≤ n then 0 else 2 ^ n

def genMask (n : Nat) : Nat := u64 (shl1 n + (2 ^ 64 - 1))

/-- Shifts of 64-bit numbers by 64 or more are undefined. -/
def shr (x count : Nat) : Option Nat := if count < 64 then some (x >>> count) else none

def shl (x count : Nat) : Option Nat := if count < 64 then some (u64 (x <<< count)) else none

def signBit2 (value width : Nat) : Option Bool :=
  if 0 < width ∧ width ≤ 64 then some (value &&& shl1 (width - 1) ≠ 0) else none

def signExtend2 (value fromWidth toWidth : Nat) : Option Nat :=
  if fromWidth ≤ 64 ∧ toWidth ≤ 64 then
    (signBit2 value fromWidth).map fun sign =>
      value ||| if sign then genMask toWidth ^^^ genMask fromWidth else 0
  else none

def shiftLeft2 (value count width : Nat) : Option Nat :=
  if 0 < width ∧ width ≤ 64 then some (u64 (value * shl1 count) &&& genMask width) else none

def shiftRightLogical2 (value count width : Nat) : Option Nat :=
  if 0 < width ∧ width ≤ 64 then some (if width ≤ count then 0 else value >>> count) else none

theorem shl1_eq {n : Nat} (h : n < 64) : shl1 n = 2 ^ n := if_neg (by omega)

theorem genMask_eq {n : Nat} (h : n ≤ 64) : genMask n = 2 ^ n - 1 := by
  rcases h.lt_or_eq with hlt | rfl
  · have hpos := Nat.two_pow_pos n
    have hle : 2 ^ n ≤ 2 ^ 63 := Nat.pow_le_pow_right (by omega) (by omega)
    rw [genMask, shl1_eq hlt, u64]
    omega
  · rfl

theorem genMask_of_le {n : Nat} (h : 64 ≤ n) : genMask n = 2 ^ 64 - 1 := by
  rw [genMask, shl1, if_pos h]
  rfl

theorem genMask_lt (n : Nat) : genMask n < 2 ^ 64 := Nat.mod_lt _ (Nat.two_pow_pos 64)

theorem le_genMask {n x : Nat} (h : n ≤ 64) : x ≤ genMask n ↔ x < 2 ^ n := by
  have hpos := Nat.two_pow_pos n
  rw [genMask_eq h]
  omega

theorem genMask_mono {m n : Nat} (h : m ≤ n) : genMask m ≤ genMask n := by
  rcases Nat.lt_or_ge 64 n with hn | hn
  · rw [genMask_of_le hn.le]
    have hlt := genMask_lt m
    omega
  · rw [genMask_eq hn, genMask_eq (by omega)]
    have hpow : 2 ^ m ≤ 2 ^ n := Nat.pow_le_pow_right (by omega) h
    omega

/-- Masking keeps the low bits. -/
theorem and_genMask {n : Nat} (h : n ≤ 64) (x : Nat) : x &&& genMask n = x % 2 ^ n := by
  rw [genMask_eq h, Nat.and_two_pow_sub_one_eq_mod]

theorem u64_mod {n : Nat} (h : n ≤ 64) (x : Nat) : u64 x % 2 ^ n = x % 2 ^ n :=
  Nat.mod_mod_of_dvd x (Nat.pow_dvd_pow 2 h)

theorem testBit_genMask {n : Nat} (h : n ≤ 64) (i : Nat) : (genMask n).testBit i = decide (i < n) := by
  rw [genMask_eq h, Nat.testBit_two_pow_sub_one]

theorem and_shl1 {n : Nat} (h : n < 64) (x : Nat) : (x &&& shl1 n ≠ 0) ↔ x.testBit n = true := by
  rw [shl1_eq h, Nat.and_two_pow]
  cases x.testBit n <;> simp

/-- The top bit of a number is set from half of its range on. -/
theorem testBit_top {x n : Nat} (hpos : 0 < n) (hx : x < 2 ^ n) :
    x.testBit (n - 1) = decide (2 ^ (n - 1) ≤ x) := by
  have hpow : 2 ^ n = 2 * 2 ^ (n - 1) := by
    rw [← pow_succ']
    congr 1
    omega
  rw [Nat.testBit_eq_decide_div_mod_eq, decide_eq_decide]
  have hpos := Nat.two_pow_pos (n - 1)
  by_cases hle : 2 ^ (n - 1) ≤ x
  · have hdiv : x / 2 ^ (n - 1) = 1 := Nat.div_eq_of_lt_le (by omega) (by omega)
    simp [hdiv, hle]
  · have hdiv : x / 2 ^ (n - 1) = 0 := Nat.div_eq_of_lt (by omega)
    simp [hdiv, hle]

theorem signBit2_eq {x n : Nat} (hpos : 0 < n) (h : n ≤ 64) :
    signBit2 x n = some (x.testBit (n - 1)) := by
  rw [signBit2, if_pos ⟨hpos, h⟩]
  congr 1
  rw [Bool.eq_iff_iff, decide_eq_true_eq]
  exact and_shl1 (by omega) x

theorem two_pow_split {n : Nat} (h : n ≤ 64) : 2 ^ 64 = 2 ^ n * 2 ^ (64 - n) := by
  rw [← pow_add]
  congr 1
  omega

theorem neg_and_genMask {x n : Nat} (h : n ≤ 64) (hx : x < 2 ^ n) :
    neg x &&& genMask n = (2 ^ n - x) % 2 ^ n := by
  have hpow := Nat.two_pow_pos (64 - n)
  have hsplit : 2 ^ 64 - x = 2 ^ n - x + 2 ^ n * (2 ^ (64 - n) - 1) := by
    rw [two_pow_split h, Nat.mul_sub, mul_one]
    have hle : 2 ^ n ≤ 2 ^ n * 2 ^ (64 - n) := Nat.le_mul_of_pos_right _ hpow
    omega
  rw [and_genMask h, neg, u64_mod h, hsplit, Nat.add_mul_mod_self_left]

theorem inv_eq {x : Nat} (hx : x < 2 ^ 64) : inv x = 2 ^ 64 - 1 - x := by
  have hnot : (~~~BitVec.ofNat 64 x).toNat = 2 ^ 64 - 1 - (BitVec.ofNat 64 x).toNat :=
    BitVec.toNat_not
  rw [BitVec.not_def, BitVec.toNat_xor, BitVec.toNat_allOnes, BitVec.toNat_ofNat,
    Nat.mod_eq_of_lt hx, Nat.xor_comm] at hnot
  exact hnot

theorem inv_and_genMask {x n : Nat} (h : n ≤ 64) (hx : x < 2 ^ n) :
    inv x &&& genMask n = 2 ^ n - 1 - x := by
  have hpow := Nat.two_pow_pos (64 - n)
  have hle : 2 ^ n ≤ 2 ^ n * 2 ^ (64 - n) := Nat.le_mul_of_pos_right _ hpow
  have hlt : x < 2 ^ 64 := by
    rw [two_pow_split h]
    omega
  have hsplit : 2 ^ 64 - 1 - x = 2 ^ n - 1 - x + 2 ^ n * (2 ^ (64 - n) - 1) := by
    rw [two_pow_split h, Nat.mul_sub, mul_one]
    omega
  rw [and_genMask h, inv_eq hlt, hsplit, Nat.add_mul_mod_self_left, Nat.mod_eq_of_lt]
  omega

end LoomX.IntegerOps

namespace LoomX.IntervalSemantics

open IntegerOps

def maxComplexity : Nat := 50

theorem mem_hull_zero {a m : Nat} : a ∈ IntervalSet.insertHull .empty 0 m ↔ a ≤ m := by
  rw [IntervalSet.mem_insertHull, Interval.mem_hull (Nat.zero_le m)]
  simp

theorem mem_hull_zero_left {m : Nat} : 0 ∈ IntervalSet.insertHull .empty 0 m :=
  mem_hull_zero.mpr (Nat.zero_le m)

theorem mem_single {a b : Nat} : a ∈ IntervalSet.insert .empty b ↔ a = b := by simp

/-- The numbers a value of some width may have. -/
structure SValue where
  nBits : Nat
  intervals : IntervalSet
  isBottom : Bool
  nonempty : intervals.isEmpty = false
  bounded : intervals.greatest ≤ genMask nBits

namespace SValue

instance : Membership Nat SValue := ⟨fun v a => a ∈ v.intervals⟩

instance (a : Nat) (v : SValue) : Decidable (a ∈ v) := inferInstanceAs (Decidable (a ∈ v.intervals))

/-- A value made of intervals, where they pass the assertions. -/
def instanceIntervals (nbits : Nat) (intervals : IntervalSet) : Option SValue :=
  if h : intervals.isEmpty = false ∧ intervals.greatest ≤ genMask nbits then
    some ⟨nbits, intervals, false, h.1, h.2⟩
  else none

def instanceUndefined (nbits : Nat) : SValue where
  nBits := nbits
  intervals := .insertHull .empty 0 (genMask nbits)
  isBottom := false
  nonempty := IntervalSet.isEmpty_eq_false mem_hull_zero_left
  bounded := IntervalSet.greatest_le fun _ ha => (mem_hull_zero.mp ha)

def instanceBottom (nbits : Nat) : SValue := { instanceUndefined nbits with isBottom := true }

def number (nbits number : Nat) : SValue where
  nBits := nbits
  intervals := .insert .empty (number &&& genMask nbits)
  isBottom := false
  nonempty := IntervalSet.isEmpty_eq_false (IntervalSet.mem_insert.mpr (.inl rfl))
  bounded := IntervalSet.greatest_le fun a ha => by
    rw [mem_single.mp ha]
    exact Nat.and_le_right

def boolean (b : Bool) : SValue := number 1 b.toNat

def isConcrete (v : SValue) : Bool := v.intervals.size = 1

def toUnsigned (v : SValue) : Option Nat :=
  if v.isConcrete && v.nBits ≤ 64 then some v.intervals.least else none

def mustEqual (v w : SValue) : Bool :=
  if v.nBits ≠ w.nBits then false
  else if v.isBottom || w.isBottom then false
  else v.toUnsigned.isSome && v.toUnsigned = w.toUnsigned

/-- The bits that may be set in an interval, besides those found already. -/
def possibleBitsOf (nbits bits : Nat) (interval : Interval) : Nat :=
  (List.range nbits).foldl (fun bits bitno =>
    if bits &&& shl1 bitno = 0 then
      let base := interval.lo &&& inv (genMask bitno)
      if u64 (base + shl1 bitno) ∈ interval then bits ||| shl1 bitno else bits
    else bits) (bits ||| (interval.lo ||| interval.hi))

def possibleBits (v : SValue) : Nat :=
  v.intervals.intervals.foldl (possibleBitsOf v.nBits) 0

/-- How many bits are set, and the lowest and the highest of them. -/
def bitRange (nbits possibleBits : Nat) : Nat × Nat × Nat :=
  (List.range nbits).foldl (fun (nset, lobit, hibit) i =>
    if possibleBits &&& shl1 i ≠ 0 then (nset + 1, min lobit i, max hibit i)
    else (nset, lobit, hibit)) (0, nbits, 0)

/-- The bits of a number at the positions of the possible bits. -/
def spread (nbits possibleBits i : Nat) : Nat :=
  ((List.range nbits).foldl (fun (lo, tmp) j =>
    if possibleBits &&& shl1 j ≠ 0 then (lo ||| (tmp &&& 1) <<< j, tmp >>> 1) else (lo, tmp))
    (0, i)).1

def instanceFromBits (nbits possibleBits : Nat) : Option SValue :=
  let possibleBits := possibleBits &&& genMask nbits
  let (nset, lobit, hibit) := bitRange nbits possibleBits
  if possibleBits = genMask nset then
    instanceIntervals nbits (.insertHull .empty 0 possibleBits)
  else if maxComplexity < shl1 nset then
    instanceIntervals nbits (.insertHull .empty 0 (genMask (hibit + 1) ^^^ genMask lobit))
  else
    instanceIntervals nbits
      ((List.range (shl1 nset)).foldl (fun retval i => retval.insert (spread nbits possibleBits i))
        .empty)

variable {v : SValue} {n a k : Nat}

theorem mem_iff : a ∈ v ↔ a ∈ v.intervals := Iff.rfl

theorem le_genMask (h : a ∈ v) : a ≤ genMask v.nBits :=
  (IntervalSet.le_greatest h).trans v.bounded

theorem lt_two_pow (hn : v.nBits ≤ 64) (h : a ∈ v) : a < 2 ^ v.nBits :=
  (IntegerOps.le_genMask hn).mp (le_genMask h)

theorem lt_u64 (h : a ∈ v) : a < 2 ^ 64 := (le_genMask h).trans_lt (genMask_lt _)

theorem exists_mem (v : SValue) : ∃ a, a ∈ v := ⟨_, IntervalSet.least_mem v.nonempty⟩

theorem mem_undefined : a ∈ instanceUndefined n ↔ a ≤ genMask n := by
  rw [mem_iff, instanceUndefined, mem_hull_zero]

theorem mem_number {x : Nat} : a ∈ number n x ↔ a = x &&& genMask n := by
  rw [mem_iff, number, mem_single]

theorem mem_number_of_le {x : Nat} (hn : n ≤ 64) : a ∈ number n x ↔ a = x % 2 ^ n := by
  rw [mem_number, and_genMask hn]

theorem instanceIntervals_spec {intervals : IntervalSet} (hne : ∃ a, a ∈ intervals)
    (hle : ∀ a ∈ intervals, a ≤ genMask n) :
    ∃ w, instanceIntervals n intervals = some w ∧ w.nBits = n ∧ w.isBottom = false ∧
      ∀ a, a ∈ w ↔ a ∈ intervals := by
  have hempty : intervals.isEmpty = false := by
    obtain ⟨a, ha⟩ := hne
    by_contra h
    rw [Bool.not_eq_false, IntervalSet.isEmpty_iff] at h
    exact h a ha
  have hgreatest := hle _ (IntervalSet.greatest_mem hempty)
  rw [instanceIntervals, dif_pos ⟨hempty, hgreatest⟩]
  exact ⟨_, rfl, rfl, rfl, fun a => Iff.rfl⟩

/-- A result that is a proper value of some width and has a number in it. -/
def Contains (result : Option SValue) (n x : Nat) : Prop :=
  ∃ v, result = some v ∧ v.nBits = n ∧ v.isBottom = false ∧ x ∈ v

theorem contains_intervals {intervals : IntervalSet} {x : Nat} :
    Contains (instanceIntervals n intervals) n x ↔
      x ∈ intervals ∧ ∀ a ∈ intervals, a ≤ genMask n := by
  constructor
  · rintro ⟨w, hw, -, -, hx⟩
    rw [instanceIntervals] at hw
    split at hw
    next h =>
      rw [← Option.some.inj hw] at hx
      exact ⟨hx, fun a ha => (IntervalSet.le_greatest ha).trans h.2⟩
    next => cases hw
  · rintro ⟨hx, hle⟩
    obtain ⟨w, hw, hn, hbottom, hmem⟩ := instanceIntervals_spec ⟨x, hx⟩ hle
    exact ⟨w, hw, hn, hbottom, (hmem x).mpr hx⟩

theorem contains_some {w : SValue} {x : Nat} (hn : w.nBits = n) (hbottom : w.isBottom = false) :
    Contains (some w) n x ↔ x ∈ w := by
  constructor
  · rintro ⟨v, hv, -, -, hx⟩
    rw [← Option.some.inj hv] at hx
    exact hx
  · exact fun hx => ⟨w, rfl, hn, hbottom, hx⟩

theorem toUnsigned_eq_some {x : Nat} (hn : v.nBits ≤ 64) :
    v.toUnsigned = some x ↔ ∀ a, a ∈ v ↔ a = x := by
  have hleast := IntervalSet.least_mem v.nonempty
  rw [toUnsigned, isConcrete, decide_eq_true hn, Bool.and_true]
  constructor
  · intro h
    split at h
    next hsize =>
      obtain ⟨b, hb⟩ := IntervalSet.size_eq_one.mp (of_decide_eq_true hsize)
      have hx : v.intervals.least = x := Option.some.inj h
      have hlb := (hb _).mp hleast
      intro a
      rw [mem_iff, hb, ← hlb, hx]
    next => cases h
  · intro h
    have hsize : v.intervals.size = 1 := IntervalSet.size_eq_one.mpr ⟨x, h⟩
    rw [if_pos (decide_eq_true hsize), (h _).mp hleast]

theorem toUnsigned_mem {x : Nat} (h : v.toUnsigned = some x) : ∀ a, a ∈ v ↔ a = x := by
  have hn : v.nBits ≤ 64 := by
    rw [toUnsigned] at h
    split at h
    next hc =>
      rw [Bool.and_eq_true, decide_eq_true_eq] at hc
      exact hc.2
    next => cases h
  exact (toUnsigned_eq_some hn).mp h

end SValue

end LoomX.IntervalSemantics
