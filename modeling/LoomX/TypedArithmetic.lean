import LoomX.Syntax
import Mathlib.Algebra.Order.Ring.Int
import Mathlib.Data.Int.Bitwise

namespace LoomX

namespace CType

def contains : CType → Int → Prop
  | integer bits true, n => -2 ^ (bits - 1) ≤ n ∧ n < 2 ^ (bits - 1)
  | integer bits false, n => 0 ≤ n ∧ n < 2 ^ bits
  | _, _ => True

instance : (t : CType) → (n : Int) → Decidable (t.contains n)
  | integer _ true, _ => inferInstanceAs (Decidable (_ ∧ _))
  | integer _ false, _ => inferInstanceAs (Decidable (_ ∧ _))
  | floating, _ | pointer, _ | array, _ | record, _ => inferInstanceAs (Decidable True)

/-- Conversion to a type: integers are reduced modulo the size of the type. -/
def convert : CType → Int → Int
  | integer bits true, n => (n + 2 ^ (bits - 1)) % 2 ^ bits - 2 ^ (bits - 1)
  | integer bits false, n => n % 2 ^ bits
  | _, n => n

def isSigned : CType → Bool
  | integer _ signed => signed
  | _ => true

/-- The integer promotions. -/
def promote : CType → CType
  | integer bits signed => if bits < 32 then integer 32 true else integer bits signed
  | t => t

/-- The common type of the usual arithmetic conversions, for promoted types. -/
def common : CType → CType → CType
  | integer bits signed, integer bits' signed' =>
    if bits < bits' then integer bits' signed'
    else if bits' < bits then integer bits signed
    else integer bits (signed && signed')
  | integer _ _, u => u
  | t, _ => t

/-- The type in which an operation on two operands is done. -/
def arithmetic (t u : CType) : CType := t.promote.common u.promote

/-- What an operation gives whose value is `n`: unsigned arithmetic wraps around, the overflow of
signed arithmetic is undefined. -/
def result (t : CType) (n : Int) : Option Int :=
  if t.isSigned then (if t.contains n then some n else none) else some (t.convert n)

variable {t : CType} {n m : Int}

theorem contains_zero : t.contains 0 := by
  cases t with
  | integer bits signed => cases signed <;> simp [contains]
  | _ => trivial

theorem result_eq_some (h : t.result n = some m) (hsigned : t.isSigned = true) : m = n := by
  rw [result, if_pos hsigned] at h
  split at h
  next => exact (Option.some.inj h).symm
  next => cases h

theorem convert_of_contains (ht : t ≠ integer 0 true) (h : t.contains n) : t.convert n = n := by
  cases t with
  | integer bits signed =>
    cases signed with
    | false => exact Int.emod_eq_of_lt h.1 h.2
    | true =>
      obtain ⟨b, rfl⟩ : ∃ b, bits = b + 1 := Nat.exists_eq_succ_of_ne_zero fun h0 => ht (by rw [h0])
      obtain ⟨hlow, hhigh⟩ := h
      have hdouble : (2 : Int) ^ (b + 1) = 2 ^ b + 2 ^ b := by rw [Int.pow_succ]; omega
      rw [Nat.add_sub_cancel] at hlow hhigh
      rw [convert, Nat.add_sub_cancel, Int.emod_eq_of_lt (by omega) (by omega), Int.add_sub_cancel]
  | _ => rfl

/-- Operations are done in types of 32 bits at least. -/
theorem arithmetic_ne (t u : CType) : t.arithmetic u ≠ integer 0 true := by
  have hpromote : ∀ t : CType, t.promote ≠ integer 0 true := by
    intro t
    cases t with
    | integer bits signed =>
      rw [promote]
      split <;> simp
      omega
    | _ => simp [promote]
  have ht := hpromote t
  have hu := hpromote u
  unfold arithmetic
  generalize t.promote = t at *
  generalize u.promote = u at *
  cases t <;> cases u <;> simp_all [common]
  split_ifs <;> simp_all

theorem result_of_contains (h : t.contains n) : t.result n = some n := by
  by_cases hsigned : t.isSigned = true
  · rw [result, if_pos hsigned, if_pos h]
  · rw [result, if_neg hsigned]
    cases t with
    | integer bits signed =>
      obtain rfl : signed = false := by simpa [isSigned] using hsigned
      rw [convert, Int.emod_eq_of_lt h.1 h.2]
    | _ => rfl

end CType

/-- An operation done in the type `t`, to which the operands are converted. Division by zero and
quotients out of range are undefined. -/
def BinOp.typed (op : BinOp) (t : CType) (x y : Int) : Option Int :=
  let a := t.convert x
  let b := t.convert y
  match op with
  | add => t.result (x + y)
  | sub => t.result (x - y)
  | mul => t.result (x * y)
  | div => if b = 0 then none else t.result (a.tdiv b)
  | mod => if b = 0 then none else (t.result (a.tdiv b)).bind fun _ => t.result (a.tmod b)
  | band => t.result (a.land b)
  | bor => t.result (a.lor b)
  | bxor => t.result (a.xor b)
  | _ => none

end LoomX
