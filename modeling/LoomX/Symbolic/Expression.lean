import Mathlib.Data.List.Basic
import LoomX.Symbolic.BitVector

namespace LoomX.Symbolic

/-- The operators of which the simplifiers below speak; the rest by their place in the
enumeration. -/
inductive Operator
  | add | and | asr | concat | extract | invert | ite | negate | or | rol | ror | sextend
  | shl0 | shl1 | shr0 | shr1 | smul | uextend | umul | xor
  | other (position : Nat)
  deriving DecidableEq

def Operator.position : Operator → Nat
  | add => 0
  | and => 1
  | asr => 2
  | concat => 3
  | extract => 5
  | invert => 6
  | ite => 7
  | negate => 12
  | or => 14
  | rol => 16
  | ror => 17
  | sextend => 20
  | shl0 => 23
  | shl1 => 24
  | shr0 => 25
  | shr1 => 26
  | smul => 30
  | uextend => 32
  | umul => 38
  | xor => 40
  | other p => p

/-- Expressions of integer type, without comments: no floating-point or memory types, no `poisonNan`,
and no node that `adjustWidth` throws for. -/
inductive Node
  | var (id nBits flags : Nat)
  | constant (bits : BitVector) (flags : Nat)
  | interior (op : Operator) (nBits : Nat) (children : List Node) (flags : Nat)

namespace Node

def nBits : Node → Nat
  | var _ w _ => w
  | constant b _ => b.size
  | interior _ w _ _ => w

def flags : Node → Nat
  | var _ _ f | constant _ f | interior _ _ _ f => f

def isIntegerConstant : Node → Bool
  | constant _ _ => true
  | _ => false

def isInterior : Node → Bool
  | interior _ _ _ _ => true
  | _ => false

def bits? : Node → Option BitVector
  | constant b _ => some b
  | _ => none

def isOperator (op : Operator) : Node → Bool
  | interior op' _ _ _ => op' == op
  | _ => false

mutual

def isEquivalentTo : Node → Node → Bool
  | var i w f, var i' w' f' => w == w' && f == f' && i == i'
  | constant b f, constant b' f' => f == f' && b == b'
  | interior op w cs f, interior op' w' cs' f' =>
    w == w' && f == f' && op == op' && allEquivalentTo cs cs'
  | _, _ => false

def allEquivalentTo : List Node → List Node → Bool
  | [], [] => true
  | c :: cs, c' :: cs' => c.isEquivalentTo c' && allEquivalentTo cs cs'
  | _, _ => false

end

mutual

theorem isEquivalentTo_iff : ∀ a b : Node, a.isEquivalentTo b = true ↔ a = b
  | var i w f, b => by
    cases b <;> simp [isEquivalentTo]
    tauto
  | constant x f, b => by
    cases b <;> simp [isEquivalentTo, and_comm]
  | interior op w cs f, b => by
    cases b with
    | interior op' w' cs' f' =>
      simp only [isEquivalentTo, Bool.and_eq_true, beq_iff_eq, allEquivalentTo_iff cs cs',
        interior.injEq]
      tauto
    | _ => simp [isEquivalentTo]

theorem allEquivalentTo_iff : ∀ l l' : List Node, allEquivalentTo l l' = true ↔ l = l'
  | [], l' => by cases l' <;> simp [allEquivalentTo]
  | c :: cs, l' => by
    cases l' with
    | nil => simp [allEquivalentTo]
    | cons c' cs' =>
      simp only [allEquivalentTo, Bool.and_eq_true, isEquivalentTo_iff c c',
        allEquivalentTo_iff cs cs', List.cons.injEq]

end

instance : DecidableEq Node := fun a b => decidable_of_iff _ (isEquivalentTo_iff a b)

mutual

/-- `expr_cmp`: interior nodes come first, integer constants last. -/
def exprCmp : Node → Node → Ordering
  | interior op _ cs _, interior op' _ cs' _ =>
    (compare op.position op'.position).then (exprCmpAll cs cs')
  | interior _ _ _ _, _ => .lt
  | _, interior _ _ _ _ => .gt
  | var i _ _, var i' _ _ => compare i i'
  | var _ _ _, constant _ _ => .lt
  | constant _ _, var _ _ _ => .gt
  | constant b _, constant b' _ => compare b.value b'.value

def exprCmpAll : List Node → List Node → Ordering
  | [], [] => .eq
  | [], _ :: _ => .lt
  | _ :: _, [] => .gt
  | c :: cs, c' :: cs' => (exprCmp c c').then (exprCmpAll cs cs')

end

/-- `commutative_order`, where nodes that compare equal are ordered by their addresses. -/
def commutativeOrder (address : Node → Nat) (a b : Node) : Ordering :=
  (exprCmp a b).then (compare (address a) (address b))

end Node

/-- A solver that may hold assertions; `refutesNe` says that it finds no solution for the two
nodes being different. -/
structure SmtSolver where
  nAssertions : Nat
  satisfied : (Nat → Nat) → Prop
  refutesNe : Node → Node → Bool

def mustEqual (solver : Option SmtSolver) (a b : Node) : Bool :=
  let refuted := solver.any fun s => s.refutesNe a b
  match a with
  | .interior _ _ _ _ => a.isEquivalentTo b || refuted
  | _ =>
    if a.isEquivalentTo b then true
    else if a.flags ≠ b.flags then false
    else
      match a, b with
      | _, .interior _ _ _ _ => refuted
      | .constant x _, .constant y _ => x.value == y.value
      | _, _ =>
        if solver.any fun s => 0 < s.nAssertions then refuted
        else
          match a, b with
          | .var i _ _, .var i' _ _ => i == i'
          | _, _ => false

/-- The width that `adjustWidth` gives a node of the operator. -/
def adjustWidth (op : Operator) (children : List Node) : Nat :=
  match op, children with
  | .ite, [_, a, _] => a.nBits
  | .uextend, .constant n _ :: _ | .sextend, .constant n _ :: _ => n.value
  | .extract, .constant lo _ :: .constant hi _ :: _ => hi.value - lo.value
  | .asr, [_, a] | .rol, [_, a] | .ror, [_, a] | .shl0, [_, a] | .shl1, [_, a] | .shr0, [_, a]
  | .shr1, [_, a] => a.nBits
  | .concat, cs => (cs.map Node.nBits).sum
  | .smul, cs | .umul, cs => (cs.map Node.nBits).sum
  | .add, c :: _ | .and, c :: _ | .or, c :: _ | .xor, c :: _ | .invert, c :: _
  | .negate, c :: _ => c.nBits
  | _, _ => 0

/-- The constructor of `Interior` for a given type. -/
def newInteriorOf (nBits : Nat) (op : Operator) (children : List Node) (flags : Nat) : Node :=
  .interior op nBits children (children.foldl (fun f c => f ||| c.flags) flags)

/-- The constructor of `Interior` for the type that `adjustWidth` finds. -/
def newInterior (op : Operator) (children : List Node) (flags : Nat) : Node :=
  newInteriorOf (adjustWidth op children) op children flags

/-- The constant operands that `adjustWidth` reads as widths or positions. -/
def isPosition : Node → Bool
  | .constant b _ => decide (b.size ≤ 64)
  | _ => false

/-- The greatest width of a type. -/
def maxBits : Nat := 0x7fff

/-- The constructor throws no exception; the operators that are not modelled are not checked. -/
def accepts (op : Operator) (nBits : Nat) (children : List Node) : Bool :=
  (match op, children with
  | .other _, _ => true
  | .ite, [c, a, b] => c.nBits == 1 && a.nBits == b.nBits
  | .uextend, [n, _] | .sextend, [n, _] => isPosition n
  | .extract, [.constant lo _, .constant hi _, _] =>
    decide (lo.size ≤ 64) && decide (hi.size ≤ 64) && decide (lo.value < hi.value)
  | .asr, [_, _] | .rol, [_, _] | .ror, [_, _] | .shl0, [_, _] | .shl1, [_, _] | .shr0, [_, _]
  | .shr1, [_, _] | .negate, [_] => true
  | .concat, _ :: _ | .smul, _ :: _ | .umul, _ :: _ => true
  | .add, c :: cs | .and, c :: cs | .or, c :: cs | .xor, c :: cs | .invert, c :: cs =>
    cs.all fun c' => c'.nBits == c.nBits
  | _, _ => false) &&
  (match op with
  | .other _ => true
  | _ => adjustWidth op children == nBits && decide (0 < nBits) && decide (nBits ≤ maxBits))

namespace Operator

/-- The value of an n-ary operator before it is cut to the width. -/
def total (w : Nat) (vals : List BitVector) : Operator → Nat
  | add => (vals.map BitVector.value).sum
  | and => (vals.map BitVector.value).foldr (· &&& ·) (2 ^ w - 1)
  | or => (vals.map BitVector.value).foldr (· ||| ·) 0
  | xor => (vals.map BitVector.value).foldr (· ^^^ ·) 0
  | umul => (vals.map BitVector.value).prod
  | smul => ((vals.map BitVector.toInt).prod % 2 ^ w).toNat
  | _ => 0

/-- What a node of the operator and the width means; `other` interprets the operators that are
not modelled. -/
def meaning (other : Nat → Nat → List BitVector → Nat) (w : Nat) (vals : List BitVector)
    (op : Operator) : BitVector :=
  BitVector.fromInteger w <|
    match op, vals with
    | .other p, vals => other p w vals
    | invert, [a] => a.invert.value
    | negate, [a] => a.negate.value
    | ite, [c, a, b] => if c.isEqualToZero then b.value else a.value
    | uextend, [_, a] => a.value
    | sextend, [_, a] => (a.signExtend w).value
    | extract, [lo, _, a] => a.value / 2 ^ lo.value
    | concat, vals => BitVector.joined vals
    | asr, [n, a] => (a.shiftRightArithmetic n.value).value
    | shl0, [n, a] => (a.shiftLeft n.value false).value
    | shl1, [n, a] => (a.shiftLeft n.value true).value
    | shr0, [n, a] => (a.shiftRight n.value false).value
    | shr1, [n, a] => (a.shiftRight n.value true).value
    | rol, [n, a] => (a.rotateLeft n.value).value
    | ror, [n, a] => (a.rotateRight n.value).value
    | op, vals => op.total w vals

end Operator

namespace Node

section

variable (other : Nat → Nat → List BitVector → Nat) (env : Nat → Nat)

mutual

/-- The bits of an expression under an assignment to the variables. -/
def eval : Node → BitVector
  | var id w _ => .fromInteger w (env id)
  | constant b _ => b
  | interior op w cs _ => op.meaning other w (evalAll cs)

def evalAll : List Node → List BitVector
  | [] => []
  | c :: cs => c.eval :: evalAll cs

end

theorem evalAll_eq_map (cs : List Node) : evalAll other env cs = cs.map (eval other env) := by
  induction cs with
  | nil => rfl
  | cons c cs ih => simp only [evalAll, List.map_cons, ih]

theorem eval_interior (op : Operator) (w : Nat) (cs : List Node) (f : Nat) :
    (interior op w cs f).eval other env = op.meaning other w (cs.map (eval other env)) := by
  rw [eval, evalAll_eq_map]

@[simp] theorem eval_size (n : Node) : (n.eval other env).size = n.nBits := by
  cases n with
  | var id w f => rfl
  | constant b f => rfl
  | interior op w cs f =>
    rw [eval_interior]
    rfl

end

end Node

end LoomX.Symbolic
