import LoomX.BitOps
import Mathlib.Order.Bounds.Basic

namespace LoomX

theorem isGreatest_div_mul (v x : Nat) : IsGreatest {m | v ∣ m ∧ m ≤ x} (x / v * v) := by
  refine ⟨⟨Nat.dvd_mul_left v _, Nat.div_mul_le_self x v⟩, ?_⟩
  rintro m ⟨⟨k, rfl⟩, hle⟩
  rw [Nat.mul_comm v k]
  rcases Nat.eq_zero_or_pos v with rfl | hv
  · exact Nat.zero_le _
  · exact Nat.mul_le_mul_right v ((Nat.le_div_iff_mul_le hv).2 (by rwa [Nat.mul_comm]))

theorem isLeast_div_mul {v : Nat} (hv : 0 < v) (x : Nat) :
    IsLeast {m | v ∣ m ∧ x ≤ m} ((x + v - 1) / v * v) := by
  have hdiv := Nat.div_add_mod (x + v - 1) v
  have hmod := Nat.mod_lt (x + v - 1) hv
  rw [Nat.mul_comm] at hdiv
  refine ⟨⟨Nat.dvd_mul_left v _, by omega⟩, ?_⟩
  rintro m ⟨⟨k, rfl⟩, hle⟩
  have hk : (x + v - 1) / v < k + 1 := by
    rw [Nat.div_lt_iff_lt_mul hv, Nat.add_mul, Nat.one_mul, Nat.mul_comm k v]
    omega
  rw [Nat.mul_comm v k]
  exact Nat.mul_le_mul_right v (Nat.le_of_lt_succ hk)

/-- An alignment of zero cannot be made, and a width is that of an address unless the alignment is
default-constructed. -/
structure Alignment where
  value : BitVec 64
  nBits : Nat
  value_pos : 0 < value.toNat
  nBits_range : nBits = 0 ∨ 8 ≤ nBits ∧ nBits ≤ 64

namespace Alignment

inductive Failure
  | exception
  | fault (f : BitOps.Fault)
  deriving DecidableEq

def defaultConstructed : Alignment := ⟨1, 0, by decide, .inl rfl⟩

/-- `std::max` of the alignment and one. -/
def atLeastOne (alignment : BitVec 64) : BitVec 64 := if alignment = 0 then 1 else alignment

theorem atLeastOne_pos (alignment : BitVec 64) : 0 < (atLeastOne alignment).toNat := by
  unfold atLeastOne
  split
  · decide
  · next h => exact Nat.pos_of_ne_zero fun hzero => h (BitVec.eq_of_toNat_eq hzero)

def make (alignment : BitVec 64) (nBits : Nat) : Except Failure Alignment :=
  if h : 8 ≤ nBits ∧ nBits ≤ 64 then
    .ok ⟨atLeastOne alignment, nBits, atLeastOne_pos alignment, .inr h⟩
  else .error (.fault .assertion)

def set (a : Alignment) (v : BitVec 64) : Except Failure Alignment := do
  let b ← make v a.nBits
  return { a with value := b.value, value_pos := b.value_pos }

def setNBits (a : Alignment) (n : Nat) : Except Failure Alignment := do
  let b ← make 1 n
  return { a with nBits := b.nBits, nBits_range := b.nBits_range }

def maxValue (a : Alignment) : Except Failure (BitVec 64) :=
  (BitOps.lowMask .uint64 a.nBits).mapError .fault

def alignDown (a : Alignment) (x : BitVec 64) : Except Failure (BitVec 64) :=
  if a.nBits = 0 then .error .exception
  else do
    let maxValue ← a.maxValue
    return (if maxValue < x then maxValue else x) / a.value * a.value

def alignUp (a : Alignment) (x : BitVec 64) : Except Failure (Option (BitVec 64)) :=
  if a.nBits = 0 then .error .exception
  else do
    let retval := (x + a.value - 1) / a.value * a.value
    let maxValue ← a.maxValue
    return if x ≤ retval ∧ retval ≤ maxValue then some retval else none

def isAligned (a : Alignment) (x : BitVec 64) : Except Failure Bool := do
  return (← a.alignDown x) = x

/-- The greatest value of the width. -/
theorem maxValue_eq (a : Alignment) : ∃ m, a.maxValue = .ok m ∧ m.toNat = 2 ^ a.nBits - 1 := by
  have hle : a.nBits ≤ BitOps.UnsignedType.uint64.nBits := by
    have hrange := a.nBits_range
    change a.nBits ≤ 64
    omega
  obtain ⟨m, hm, hval⟩ := BitOps.toNat_lowMask hle
  exact ⟨m, congrArg (Except.mapError Failure.fault) hm, hval⟩

theorem toNat_div_mul {x v : BitVec 64} : (x / v * v).toNat = x.toNat / v.toNat * v.toNat := by
  have hlt : x.toNat / v.toNat * v.toNat < 2 ^ 64 :=
    Nat.lt_of_le_of_lt (Nat.div_mul_le_self _ _) x.isLt
  rw [BitVec.toNat_mul, BitVec.toNat_udiv, Nat.mod_eq_of_lt hlt]

theorem alignDown_eq (a : Alignment) (h : a.nBits ≠ 0) (x : BitVec 64) :
    ∃ d, a.alignDown x = .ok d ∧
      d.toNat = min x.toNat (2 ^ a.nBits - 1) / a.value.toNat * a.value.toNat := by
  obtain ⟨m, hm, hval⟩ := a.maxValue_eq
  rw [alignDown, if_neg h, hm]
  refine ⟨_, rfl, ?_⟩
  rw [toNat_div_mul, ← hval]
  split
  next hlt =>
    have hlt' : m.toNat < x.toNat := BitVec.lt_def.1 hlt
    rw [Nat.min_eq_right (Nat.le_of_lt hlt')]
  next hge =>
    have hge' : x.toNat ≤ m.toNat := Nat.le_of_not_lt fun hlt => hge (BitVec.lt_def.2 hlt)
    rw [Nat.min_eq_left hge']

/-- Rounding up wraps around to zero when the sum before the division does. -/
theorem toNat_roundedUp (x v : BitVec 64) (hv : 0 < v.toNat) :
    ((x + v - 1) / v * v).toNat =
      if 2 ^ 64 < x.toNat + v.toNat then 0
      else (x.toNat + v.toNat - 1) / v.toNat * v.toNat := by
  have hx := x.isLt
  have hv' := v.isLt
  have hsum : (x + v - 1).toNat = (x.toNat + v.toNat - 1) % 2 ^ 64 := by
    rw [BitVec.toNat_sub, BitVec.toNat_add]
    change (2 ^ 64 - 1 + (x.toNat + v.toNat) % 2 ^ 64) % 2 ^ 64 = _
    omega
  rw [toNat_div_mul, hsum]
  split
  next hwrap =>
    have hsmall : (x.toNat + v.toNat - 1) % 2 ^ 64 < v.toNat := by omega
    rw [Nat.div_eq_of_lt hsmall, Nat.zero_mul]
  next hwrap => rw [Nat.mod_eq_of_lt (by omega)]

/-- The least multiple that is not below a value. -/
def leastMultiple (a : Alignment) (x : BitVec 64) : Nat :=
  (x.toNat + a.value.toNat - 1) / a.value.toNat * a.value.toNat

theorem alignUp_eq (a : Alignment) (h : a.nBits ≠ 0) (x : BitVec 64) :
    ∃ u, a.alignUp x = .ok u ∧
      u.map BitVec.toNat =
        if ¬2 ^ 64 < x.toNat + a.value.toNat ∧ a.leastMultiple x ≤ 2 ^ a.nBits - 1 then
          some (a.leastMultiple x)
        else none := by
  have hv := a.value.isLt
  have hround := toNat_roundedUp x a.value a.value_pos
  obtain ⟨m, hm, hval⟩ := a.maxValue_eq
  rw [alignUp, if_neg h, hm]
  refine ⟨_, rfl, ?_⟩
  generalize (x + a.value - 1) / a.value * a.value = retval at hround ⊢
  simp only [BitVec.le_def, hval]
  by_cases hwrap : 2 ^ 64 < x.toNat + a.value.toNat
  · rw [if_pos hwrap] at hround
    have hbelow : ¬(x.toNat ≤ retval.toNat ∧ retval.toNat ≤ 2 ^ a.nBits - 1) := by omega
    rw [if_neg hbelow, if_neg fun hno => hno.1 hwrap]
    rfl
  · rw [if_neg hwrap] at hround
    have hleast := (isLeast_div_mul a.value_pos x.toNat).1.2
    rw [← hround] at hleast
    have hmult : a.leastMultiple x = retval.toNat := hround.symm
    by_cases hmax : retval.toNat ≤ 2 ^ a.nBits - 1
    · rw [hmult, if_pos ⟨hleast, hmax⟩, if_pos ⟨hwrap, hmax⟩]
      rfl
    · rw [hmult, if_neg fun hno => hmax hno.2, if_neg fun hno => hmax hno.2]
      rfl

/-- The sum wraps around before an aligned address: there is one below the end of 64 bits, and the
value and the alignment together are beyond it. -/
def WrapsBeforeMultiple (a : Alignment) (x : BitVec 64) : Prop :=
  a.nBits = 64 ∧ 2 ^ 64 < x.toNat + a.value.toNat ∧
    x.toNat ≤ (2 ^ 64 - 1) / a.value.toNat * a.value.toNat

/-- The multiple that is missed fits into the width. Below 64 bits there is none, as the alignment
would be half of all values at least. -/
theorem wrapsBeforeMultiple_iff (a : Alignment) (x : BitVec 64) :
    a.WrapsBeforeMultiple x ↔
      2 ^ 64 < x.toNat + a.value.toNat ∧ a.leastMultiple x ≤ 2 ^ a.nBits - 1 := by
  obtain ⟨⟨hdvd, hle⟩, hleast⟩ := isLeast_div_mul a.value_pos x.toNat
  obtain ⟨⟨hdvd', hle'⟩, hgreatest⟩ := isGreatest_div_mul a.value.toNat (2 ^ 64 - 1)
  change a.value.toNat ∣ a.leastMultiple x at hdvd
  change x.toNat ≤ a.leastMultiple x at hle
  constructor
  · rintro ⟨hbits, hwrap, hbelow⟩
    refine ⟨hwrap, ?_⟩
    rw [hbits]
    exact (hleast ⟨hdvd', hbelow⟩).trans hle'
  · rintro ⟨hwrap, hfits⟩
    have hv := a.value.isLt
    have hpos : 0 < a.leastMultiple x := by omega
    have hvle := Nat.le_of_dvd hpos hdvd
    have hbits : a.nBits = 64 := by
      by_contra hne
      have hrange := a.nBits_range
      have hpow : 2 ^ a.nBits ≤ 2 ^ 63 := Nat.pow_le_pow_right (by decide) (by omega)
      omega
    rw [hbits] at hfits
    exact ⟨hbits, hwrap, hle.trans (hgreatest ⟨hdvd, hfits⟩)⟩

/-- What the functions are to do, in terms of multiples of the alignment. -/
structure RoundsExactly (a : Alignment) (x : BitVec 64) : Prop where
  down : ∃ d, a.alignDown x = .ok d ∧
    IsGreatest {m | a.value.toNat ∣ m ∧ m ≤ min x.toNat (2 ^ a.nBits - 1)} d.toNat
  up : ∃ u, a.alignUp x = .ok u ∧ ∀ m, IsLeast {m | a.value.toNat ∣ m ∧ x.toNat ≤ m} m →
    u.map BitVec.toNat = if m ≤ 2 ^ a.nBits - 1 then some m else none
  aligned : ∃ b, a.isAligned x = .ok b ∧
    (b = true ↔ a.value.toNat ∣ x.toNat ∧ x.toNat ≤ 2 ^ a.nBits - 1)

theorem isAligned_iff (a : Alignment) (h : a.nBits ≠ 0) (x : BitVec 64) :
    ∃ b, a.isAligned x = .ok b ∧
      (b = true ↔ a.value.toNat ∣ x.toNat ∧ x.toNat ≤ 2 ^ a.nBits - 1) := by
  obtain ⟨d, hd, hval⟩ := a.alignDown_eq h x
  obtain ⟨⟨hdvd, hle⟩, hgreatest⟩ :=
    isGreatest_div_mul a.value.toNat (min x.toNat (2 ^ a.nBits - 1))
  rw [← hval] at hdvd hle hgreatest
  rw [isAligned, hd]
  refine ⟨_, rfl, ?_⟩
  rw [decide_eq_true_iff]
  constructor
  · rintro rfl
    exact ⟨hdvd, hle.trans (Nat.min_le_right _ _)⟩
  · rintro ⟨hx, hmax⟩
    have hge := hgreatest ⟨hx, le_min le_rfl hmax⟩
    exact BitVec.eq_of_toNat_eq (Nat.le_antisymm (hle.trans (Nat.min_le_left _ _)) hge)

/-- All of it holds unless rounding up misses an aligned address near the end of 64 bits. -/
theorem roundsExactly_iff (a : Alignment) (h : a.nBits ≠ 0) (x : BitVec 64) :
    a.RoundsExactly x ↔ ¬a.WrapsBeforeMultiple x := by
  have hleast : IsLeast {m | a.value.toNat ∣ m ∧ x.toNat ≤ m} (a.leastMultiple x) :=
    isLeast_div_mul a.value_pos x.toNat
  obtain ⟨u, hu, hval⟩ := a.alignUp_eq h x
  rw [wrapsBeforeMultiple_iff]
  constructor
  · rintro ⟨-, ⟨u', hu', hup⟩, -⟩ ⟨hwrap, hfits⟩
    obtain rfl : u = u' := Except.ok.inj (hu.symm.trans hu')
    have hsome := hup _ hleast
    rw [if_pos hfits, hval, if_neg fun hno => hno.1 hwrap] at hsome
    cases hsome
  · intro hno
    obtain ⟨d, hd, hdown⟩ := a.alignDown_eq h x
    refine ⟨⟨d, hd, hdown ▸ isGreatest_div_mul _ _⟩, ⟨u, hu, ?_⟩, a.isAligned_iff h x⟩
    intro m hm
    obtain rfl : m = a.leastMultiple x := hm.unique hleast
    rw [hval]
    by_cases hfits : a.leastMultiple x ≤ 2 ^ a.nBits - 1
    · rw [if_pos ⟨fun hwrap => hno ⟨hwrap, hfits⟩, hfits⟩, if_pos hfits]
    · rw [if_neg fun hand => hfits hand.2, if_neg hfits]

theorem roundsExactly_iff_page :
    RoundsExactly ⟨4096, 64, by decide, .inr (by decide)⟩ 5000 ↔
      ¬WrapsBeforeMultiple ⟨4096, 64, by decide, .inr (by decide)⟩ 5000 :=
  roundsExactly_iff ⟨4096, 64, by decide, .inr (by decide)⟩ (by decide) 5000

/-- The last value is a multiple of three, and nothing is returned for it. -/
theorem alignUp_last :
    3 ∣ (BitVec.allOnes 64).toNat ∧
      alignUp ⟨3, 64, by decide, .inr (by decide)⟩ (BitVec.allOnes 64) = .ok none := by
  decide

end Alignment

end LoomX
