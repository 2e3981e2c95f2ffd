import Mathlib.Algebra.Order.Ring.Int
import Mathlib.Tactic.NormNum

namespace LoomX

/-- The integer types of C, where `long` has 64 bits and `char` is signed. -/
inductive CInteger where
  | bool | char | signedChar | unsignedChar | short | unsignedShort | int | unsignedInt
  | long | unsignedLong | longLong | unsignedLongLong
  deriving DecidableEq

/-- What makes an operation undefined. -/
inductive Undefined where
  | divideByZero | shift | overflow
  deriving DecidableEq

namespace CInteger

def width : CInteger → Nat
  | bool => 1
  | char | signedChar | unsignedChar => 8
  | short | unsignedShort => 16
  | int | unsignedInt => 32
  | long | unsignedLong | longLong | unsignedLongLong => 64

def signed : CInteger → Bool
  | char | signedChar | short | int | long | longLong => true
  | bool | unsignedChar | unsignedShort | unsignedInt | unsignedLong | unsignedLongLong => false

def minValue (t : CInteger) : Int := if t.signed then -2 ^ (t.width - 1) else 0

/-- The first value that is too large. -/
def limit (t : CInteger) : Int := t.minValue + 2 ^ t.width

def InRange (t : CInteger) (x : Int) : Prop := t.minValue ≤ x ∧ x < t.limit

instance (t : CInteger) (x : Int) : Decidable (t.InRange x) :=
  inferInstanceAs (Decidable (_ ∧ _))

/-- The value of a type that a value converts to: modulo the width, but every value that is not
zero is true. -/
def convert (t : CInteger) (x : Int) : Int :=
  if t = bool then (if x = 0 then 0 else 1) else (x - t.minValue) % 2 ^ t.width + t.minValue

/-- The integer promotions. -/
def promote : CInteger → CInteger
  | bool | char | signedChar | unsignedChar | short | unsignedShort => int
  | t => t

def rank : CInteger → Nat
  | bool => 0
  | char | signedChar | unsignedChar => 1
  | short | unsignedShort => 2
  | int | unsignedInt => 3
  | long | unsignedLong => 4
  | longLong | unsignedLongLong => 5

def toUnsigned : CInteger → CInteger
  | char | signedChar => unsignedChar
  | short => unsignedShort
  | int => unsignedInt
  | long => unsignedLong
  | longLong => unsignedLongLong
  | t => t

/-- The common type of a signed and an unsigned operand. -/
def mixed (s u : CInteger) : CInteger :=
  if s.rank ≤ u.rank then u else if u.limit ≤ s.limit then s else s.toUnsigned

/-- The usual arithmetic conversions. -/
def common (t u : CInteger) : CInteger :=
  if t.promote = u.promote then t.promote
  else if t.promote.signed = u.promote.signed then
    (if t.promote.rank < u.promote.rank then u.promote else t.promote)
  else if t.promote.signed then mixed t.promote u.promote
  else mixed u.promote t.promote

/-- What an operation gives in a type: a signed type must have the value. -/
def result (t : CInteger) (x : Int) : Except Undefined Int :=
  if t.signed then (if t.InRange x then .ok x else .error .overflow) else .ok (t.convert x)

def divide (t : CInteger) (x y : Int) : Except Undefined Int :=
  if y = 0 then .error .divideByZero else t.result (x.tdiv y)

/-- The remainder is undefined where the quotient is. -/
def modulo (t : CInteger) (x y : Int) : Except Undefined Int := do
  let _ ← t.divide x y
  t.result (x.tmod y)

/-- No count that a type of this width can be shifted by. -/
def badShift (t : CInteger) (y : Int) : Prop := y < 0 ∨ (t.width : Int) ≤ y

instance (t : CInteger) (y : Int) : Decidable (t.badShift y) :=
  inferInstanceAs (Decidable (_ ∨ _))

def shiftLeft (t : CInteger) (x y : Int) : Except Undefined Int :=
  if t.badShift y then .error .shift
  else if t.signed ∧ x < 0 then .error .overflow
  else t.result (x * 2 ^ y.toNat)

/-- The right shift, which copies the sign. -/
def shiftRight (t : CInteger) (x y : Int) : Except Undefined Int :=
  if t.badShift y then .error .shift else t.result (x / 2 ^ y.toNat)

/-- An operation on the bits in the two's complement. -/
def bitwise (t : CInteger) (f : BitVec t.width → BitVec t.width → BitVec t.width) (x y : Int) :
    Int :=
  if t.signed then (f (.ofInt _ x) (.ofInt _ y)).toInt else (f (.ofInt _ x) (.ofInt _ y)).toNat

def bitAnd (t : CInteger) : Int → Int → Int := t.bitwise (· &&& ·)

def bitOr (t : CInteger) : Int → Int → Int := t.bitwise (· ||| ·)

def bitXor (t : CInteger) : Int → Int → Int := t.bitwise (· ^^^ ·)

section
variable {t : CInteger} {x y v : Int}

theorem width_pos (t : CInteger) : 0 < t.width := by
  cases t <;> decide

theorem convert_of_inRange (h : t.InRange x) : t.convert x = x := by
  obtain ⟨hmin, hlimit⟩ := h
  unfold convert
  split
  next hbool =>
    subst hbool
    have hlimit : x < 2 := hlimit
    have hmin : 0 ≤ x := hmin
    split
    next => omega
    next => omega
  next =>
    unfold limit at hlimit
    rw [Int.emod_eq_of_lt (by omega) (by omega)]
    omega

theorem inRange_convert (t : CInteger) (x : Int) : t.InRange (t.convert x) := by
  unfold convert
  split
  next hbool =>
    subst hbool
    split
    next => decide
    next => decide
  next =>
    have hpos : (0 : Int) < 2 ^ t.width := by positivity
    have hnonneg := Int.emod_nonneg (x - t.minValue) hpos.ne'
    have hlt := Int.emod_lt_of_pos (x - t.minValue) hpos
    unfold InRange limit
    omega

/-- A promoted type has all values of the type. -/
theorem InRange.promote (h : t.InRange x) : t.promote.InRange x := by
  cases t <;> simp only [CInteger.promote] <;> first | exact h | skip
  all_goals
    simp only [InRange, limit, minValue, signed, width] at h ⊢
    norm_num at h ⊢
    omega

@[simp] theorem promote_promote (t : CInteger) : t.promote.promote = t.promote := by
  cases t <;> rfl

@[simp] theorem common_self (t : CInteger) : t.common t = t.promote := if_pos rfl

theorem inRange_of_result (h : t.result x = .ok v) : t.InRange v := by
  unfold result at h
  split at h
  next =>
    split at h
    next hrange =>
      obtain rfl := Except.ok.inj h
      exact hrange
    next => cases h
  next =>
    obtain rfl := Except.ok.inj h
    exact inRange_convert t x

theorem inRange_of_divide (h : t.divide x y = .ok v) : t.InRange v := by
  unfold divide at h
  split at h
  next => cases h
  next => exact inRange_of_result h

theorem inRange_of_modulo (h : t.modulo x y = .ok v) : t.InRange v := by
  unfold modulo at h
  cases hdiv : t.divide x y with
  | error => rw [hdiv] at h; cases h
  | ok _ =>
    rw [hdiv] at h
    exact inRange_of_result h

theorem inRange_of_shiftLeft (h : t.shiftLeft x y = .ok v) : t.InRange v := by
  unfold shiftLeft at h
  split at h
  next => cases h
  next =>
    split at h
    next => cases h
    next => exact inRange_of_result h

theorem inRange_of_shiftRight (h : t.shiftRight x y = .ok v) : t.InRange v := by
  unfold shiftRight at h
  split at h
  next => cases h
  next => exact inRange_of_result h

theorem inRange_bitwise (f : BitVec t.width → BitVec t.width → BitVec t.width) :
    t.InRange (t.bitwise f x y) := by
  unfold bitwise InRange limit minValue
  split
  next =>
    have hle := BitVec.le_toInt (f (.ofInt _ x) (.ofInt _ y))
    have hlt := BitVec.toInt_lt (x := f (.ofInt _ x) (.ofInt _ y))
    have hpow : (2 : Int) ^ t.width = 2 ^ (t.width - 1) + 2 ^ (t.width - 1) := by
      rw [← two_mul, ← pow_succ', Nat.sub_add_cancel t.width_pos]
    rw [hpow]
    omega
  next =>
    have hlt : ((f (.ofInt _ x) (.ofInt _ y)).toNat : Int) < 2 ^ t.width :=
      mod_cast (f (.ofInt _ x) (.ofInt _ y)).isLt
    omega

end

end CInteger

end LoomX
