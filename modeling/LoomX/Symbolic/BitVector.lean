import Mathlib.Data.Nat.Bitwise
import Mathlib.Algebra.Order.Ring.Int

namespace LoomX.Symbolic

/-- A `Sawyer::Container::BitVector`, given by its bits as an unsigned integer. -/
@[ext]
structure BitVector where
  size : Nat
  value : Nat
  isLt : value < 2 ^ size
  deriving DecidableEq

namespace BitVector

/-- `fromInteger`: further bits are cut off, missing ones cleared. -/
def fromInteger (size n : Nat) : BitVector := ⟨size, n % 2 ^ size, Nat.mod_lt _ (Nat.two_pow_pos size)⟩

def toInt (a : BitVector) : Int :=
  if 2 * a.value < 2 ^ a.size then a.value else a.value - 2 ^ a.size

/-- The low bits of the two's complement of an integer. -/
def fromSigned (size : Nat) (n : Int) : BitVector := fromInteger size (n % 2 ^ size).toNat

def isEqualToZero (a : BitVector) : Bool := a.value == 0

def isAllSet (a : BitVector) : Bool := a.value + 1 == 2 ^ a.size

def resize (a : BitVector) (size : Nat) : BitVector := fromInteger size a.value

def decrement (a : BitVector) : BitVector := fromInteger a.size (a.value + (2 ^ a.size - 1))

def negate (a : BitVector) : BitVector := fromInteger a.size (2 ^ a.size - a.value)

def invert (a : BitVector) : BitVector := fromInteger a.size (2 ^ a.size - 1 - a.value)

def add (a b : BitVector) : BitVector := fromInteger a.size (a.value + b.value)

def bitwiseAnd (a b : BitVector) : BitVector := fromInteger a.size (a.value &&& b.value)

def bitwiseOr (a b : BitVector) : BitVector := fromInteger a.size (a.value ||| b.value)

def bitwiseXor (a b : BitVector) : BitVector := fromInteger a.size (a.value ^^^ b.value)

def multiply (a b : BitVector) : BitVector := fromInteger (a.size + b.size) (a.value * b.value)

def multiplySigned (a b : BitVector) : BitVector :=
  fromSigned (a.size + b.size) (a.toInt * b.toInt)

/-- `copy` of the bits from `lo` up to `hi` into a vector of their own. -/
def extract (a : BitVector) (lo hi : Nat) : BitVector := fromInteger (hi - lo) (a.value / 2 ^ lo)

def signExtend (a : BitVector) (size : Nat) : BitVector := fromSigned size a.toInt

/-- As many set bits as said, if the bits are set. -/
def fill (n : Nat) (newBits : Bool) : Nat := if newBits then 2 ^ n - 1 else 0

def shiftLeft (a : BitVector) (n : Nat) (newBits : Bool) : BitVector :=
  fromInteger a.size
    (if n < a.size then a.value * 2 ^ n + fill n newBits else fill a.size newBits)

def shiftRight (a : BitVector) (n : Nat) (newBits : Bool) : BitVector :=
  fromInteger a.size
    (if n < a.size then a.value / 2 ^ n + 2 ^ (a.size - n) * fill n newBits
    else fill a.size newBits)

def shiftRightArithmetic (a : BitVector) (n : Nat) : BitVector :=
  a.shiftRight n (a.value.testBit (a.size - 1))

def rotateRight (a : BitVector) (n : Nat) : BitVector :=
  fromInteger a.size
    (a.value / 2 ^ (n % a.size) + 2 ^ (a.size - n % a.size) * (a.value % 2 ^ (n % a.size)))

def rotateLeft (a : BitVector) (n : Nat) : BitVector := a.rotateRight (a.size - n % a.size)

/-- The vectors one after another as an integer, the first one most significant. -/
def joined : List BitVector → Nat
  | [] => 0
  | a :: as => a.value * 2 ^ (as.map size).sum + joined as

def concat (as : List BitVector) : BitVector := fromInteger (as.map size).sum (joined as)

@[simp] theorem fromInteger_size (size n : Nat) : (fromInteger size n).size = size := rfl

@[simp] theorem fromInteger_value (size n : Nat) : (fromInteger size n).value = n % 2 ^ size := rfl

theorem fromInteger_value_of_lt {size n : Nat} (h : n < 2 ^ size) :
    (fromInteger size n).value = n := Nat.mod_eq_of_lt h

@[simp] theorem fromInteger_self (a : BitVector) : fromInteger a.size a.value = a := by
  ext
  · rfl
  · exact Nat.mod_eq_of_lt a.isLt

theorem toInt_bounds (a : BitVector) (h : 0 < a.size) :
    -(2 ^ (a.size - 1)) ≤ a.toInt ∧ a.toInt < 2 ^ (a.size - 1) := by
  have hlt := a.isLt
  obtain ⟨k, hk⟩ : ∃ k, a.size = k + 1 := ⟨a.size - 1, by omega⟩
  unfold toInt
  rw [hk] at hlt ⊢
  rw [Nat.pow_succ] at hlt
  have hcast : ((2 ^ k : Nat) : Int) = 2 ^ k := by push_cast; rfl
  rw [Nat.add_sub_cancel, Nat.pow_succ, pow_succ]
  split <;> omega

/-- An integer in the signed range of a width is read back from its low bits. -/
theorem toInt_fromSigned {size : Nat} {n : Int} (hsize : 0 < size) (hlo : -(2 ^ (size - 1)) ≤ n)
    (hhi : n < 2 ^ (size - 1)) : (fromSigned size n).toInt = n := by
  obtain ⟨k, rfl⟩ : ∃ k, size = k + 1 := ⟨size - 1, by omega⟩
  rw [Nat.add_sub_cancel] at hlo hhi
  have hpos : (0 : Int) < 2 ^ (k + 1) := by exact_mod_cast Nat.two_pow_pos (k + 1)
  have hpow : (2 : Int) ^ (k + 1) = 2 * 2 ^ k := by rw [pow_succ]; omega
  have hcast : ((2 ^ (k + 1) : Nat) : Int) = 2 ^ (k + 1) := by push_cast; rfl
  have hnonneg := Int.emod_nonneg n hpos.ne'
  have hless := Int.emod_lt_of_pos n hpos
  have hvalue : (fromSigned (k + 1) n).value = (n % 2 ^ (k + 1)).toNat := by
    apply fromInteger_value_of_lt
    omega
  have htoInt : (fromSigned (k + 1) n).toInt = if 2 * (n % 2 ^ (k + 1)).toNat < 2 ^ (k + 1) then
      ((n % 2 ^ (k + 1)).toNat : Int) else (n % 2 ^ (k + 1)).toNat - 2 ^ (k + 1) := by
    unfold toInt
    rw [hvalue]
    rfl
  rw [htoInt]
  by_cases hn : 0 ≤ n
  · rw [Int.emod_eq_of_lt hn (by omega)]
    split <;> omega
  · have hneg : n % 2 ^ (k + 1) = n + 2 ^ (k + 1) := by
      rw [← Int.add_emod_right, Int.emod_eq_of_lt (by omega) (by omega)]
    rw [hneg]
    split <;> omega

end BitVector

end LoomX.Symbolic
