import LoomX.Symbolic.DivisionRules
import LoomX.Symbolic.LayoutRules

namespace LoomX.Symbolic

open RecursiveCalls

def addFold : List BitVector → BitVector := accumulate (fun b => .fromInteger b.size 0) .add

def andFold : List BitVector → BitVector :=
  accumulate (fun b => .fromInteger b.size (2 ^ b.size - 1)) .bitwiseAnd

def orFold : List BitVector → BitVector := accumulate (fun b => .fromInteger b.size 0) .bitwiseOr

def xorFold : List BitVector → BitVector := accumulateFrom .bitwiseXor

def smulFold : List BitVector → BitVector := accumulateFrom .multiplySigned

def umulFold : List BitVector → BitVector := accumulateFrom .multiply

/-- Whether the nodes cancel out in a sum; `true` when their sum is the inverse of zero, which
the adjustment accounts for. -/
def areDuals (a b : Node) : Option Bool :=
  let (a, b) := match b with
    | .interior _ _ _ _ => (a, b)
    | _ => (b, a)
  match b with
  | .interior .negate _ (c :: _) _ => if a.isEquivalentTo c then some false else none
  | .interior .invert _ (c :: _) _ => if a.isEquivalentTo c then some true else none
  | _ => none

/-- The operands after `a` without its dual; the search ends at a removed operand. -/
def cancelDual (a : Node) : List (Option Node) → Option (Bool × List (Option Node))
  | some b :: rest =>
    match areDuals a b with
    | some inverted => some (inverted, none :: rest)
    | none => (cancelDual a rest).map fun r => (r.1, some b :: r.2)
  | _ => none

/-- The operands that are left, with the adjustment; as many steps as there are operands. -/
def cancelDuals : Nat → List (Option Node) → BitVector → List Node × BitVector
  | 0, _, adjustment | _, [], adjustment => ([], adjustment)
  | steps + 1, none :: rest, adjustment => cancelDuals steps rest adjustment
  | steps + 1, some a :: rest, adjustment =>
    match cancelDual a rest with
    | some (inverted, rest') =>
      cancelDuals steps rest' (if inverted then adjustment.decrement else adjustment)
    | none =>
      let r := cancelDuals steps rest adjustment
      (a :: r.1, r.2)

/-- The summands of a negated sum. -/
def negatedSummands : Node → Option (List Node)
  | .interior .negate _ [.interior .add _ (c :: cs) _] _ => some (c :: cs)
  | _ => none

/-- The operands with the negated sums distributed. -/
def distributed (E : Engine) : List Node → Program (List Node)
  | [] => return []
  | c :: cs =>
    match negatedSummands c with
    | none => do
      let rest ← distributed E cs
      return c :: rest
    | some summands => do
      let negated ← Calls.invokeAll (summands.map fun d => (E, newInterior .negate [d] 0))
      let rest ← distributed E cs
      return negated ++ rest

def distributeNegations (E : Engine) (cs : List Node) : Program (Option Node) :=
  if cs.any fun c => (negatedSummands c).isSome then do
    let cs' ← distributed E cs
    let m ← makeInstance E .add cs'
    return some m
  else return none

/-- The sum of an `ite` and another node as an `ite` of sums. -/
def hoistIte (E : Engine) : Stage
  | .interior _ _ [.interior .ite _ [c, x, y] _, b] _ =>
    if b.isOperator .ite then return none
    else do
      let s ← makeAdd E x b
      let t ← makeAdd E y b
      let m ← makeIte E c s t
      return some m
  | .interior _ _ [a, .interior .ite _ [c, x, y] _] _ => do
    let s ← makeAdd E a x
    let t ← makeAdd E a y
    let m ← makeIte E c s t
    return some m
  | _ => return none

/-- What is left of a sum after `cancelDuals`. -/
def sumOf (E : Engine) (w : Nat) : List Node → Program (Option Node)
  | [] => return some (makeIntegerConstant w 0)
  | [c] => return some c
  | cs => do
    let m ← makeInstance E .add cs
    return some m

def dropDuals (E : Engine) : Stage
  | .interior _ w cs _ =>
    let (rest, adjustment) := cancelDuals cs.length (cs.map some) (.fromInteger w 0)
    if rest.length = cs.length then distributeNegations E cs
    else sumOf E w (if adjustment.isEqualToZero then rest else rest ++ [.constant adjustment 0])
  | _ => return none

def rewriteAdd (E : Engine) : Stage := (hoistIte E).orElse (dropDuals E)

def isZeroConstant : Node → Bool
  | .constant b _ => b.isEqualToZero
  | _ => false

def isAllSetConstant : Node → Bool
  | .constant b _ => b.isAllSet
  | _ => false

def rewriteAnd : Node → Option Node
  | .interior _ w cs _ =>
    match cs.find? isZeroConstant, cs with
    | some c, _ => some (.constant (.fromInteger w 0) c.flags)
    | none, c :: rest => if rest.all (c.isEquivalentTo ·) then some c else none
    | none, [] => none
  | _ => none

/-- What `OrSimplifier` and `XorSimplifier` make of the operands they keep. -/
def rebuild (E : Engine) (op : Operator) (w : Nat) (cs cs' : List Node) : Program (Option Node) :=
  match cs' with
  | [] => return some (makeIntegerConstant w 0)
  | [c] => return some c
  | _ =>
    if cs'.length = cs.length then return none
    else do
      let m ← Calls.invoke (E, newInteriorOf w op cs' 0)
      return some m

def rewriteOr (E : Engine) : Stage
  | .interior op w cs _ =>
    match cs.find? isAllSetConstant with
    | some c => return some c
    | none => rebuild E op w cs (cs.filter fun c => !isZeroConstant c)
  | _ => return none

/-- The operands without zeros and without pairs that must be equal; as many steps as there are
operands. -/
def cancelPairs (E : Engine) : Nat → List Node → List Node
  | 0, _ | _, [] => []
  | steps + 1, c :: cs =>
    if isZeroConstant c then cancelPairs E steps cs
    else if cs.any (mustEqual E.solver c) then
      cancelPairs E steps (cs.eraseP (mustEqual E.solver c))
    else c :: cancelPairs E steps cs

def rewriteXor (E : Engine) : Stage
  | .interior op w cs _ => rebuild E op w cs (cancelPairs E cs.length cs)
  | _ => return none

def rewriteInvert : Node → Option Node
  | .interior _ _ (.constant b _ :: _) f => some (.constant b.invert f)
  | _ => none

def rewriteNegate : Node → Option Node
  | .interior _ _ (.constant b _ :: _) f => some (.constant b.negate f)
  | _ => none

def simplifyAdd (E : Engine) : Stage :=
  (((rewriteAdd E).orElse
    (Stage.andThen associative (Stage.andThen (commutative E) (identity E 0)))).orElse
      (Stage.pure unaryNoOp)).orElse (Stage.pure (foldConstants addFold))

def simplifyAnd (E : Engine) : Stage :=
  ((Stage.andThen associative (Stage.andThen (commutative E)
    (Stage.andThen (idempotent E) (identity E (2 ^ 64 - 1))))).orElse
      (Stage.pure (foldConstants andFold))).orElse (Stage.pure rewriteAnd)

def simplifyOr (E : Engine) : Stage :=
  ((Stage.andThen associative (Stage.andThen (commutative E)
    (Stage.andThen (idempotent E) (identity E 0)))).orElse
      (Stage.pure (foldConstants orFold))).orElse (rewriteOr E)

def simplifyXor (E : Engine) : Stage :=
  ((Stage.andThen associative (Stage.andThen (commutative E) (identity E 0))).orElse
    (Stage.pure (foldConstants xorFold))).orElse (rewriteXor E)

def simplifyUmul (E : Engine) : Stage :=
  (Stage.andThen associative (Stage.andThen (commutative E) (identity E 1))).orElse
    (Stage.pure (foldConstants umulFold))

def simplifySmul (E : Engine) : Stage :=
  Stage.pure (andThenPure associative (andThenPure (commutative E) (foldConstants smulFold)))

def simplifyInvert : Stage := (Stage.pure involutary).orElse (Stage.pure rewriteInvert)

def simplifyNegate : Stage := (Stage.pure involutary).orElse (Stage.pure rewriteNegate)

open RecursiveCalls

def makeBooleanConstant (b : Bool) (f : Nat) : Node :=
  .constant (.fromInteger 1 (if b then 1 else 0)) f

/-- The simplifiers of the comparisons: those of constants are folded, and some hold between operands
that must be equal. -/
def foldComparison (holds : BitVector → BitVector → Bool) (ifEqual : Bool) : Node → Option Node
  | .interior _ _ (.constant a _ :: .constant b _ :: _) f => some (makeBooleanConstant (holds a b) f)
  | .interior _ _ (a :: b :: _) f =>
    if ifEqual && mustEqual none a b then some (makeBooleanConstant true f) else none
  | _ => none

def rewriteEq : Node → Option Node := foldComparison (fun a b => a.value == b.value) true

def rewriteSge : Node → Option Node := foldComparison (fun a b => decide (b.toInt ≤ a.toInt)) true

def rewriteSgt : Node → Option Node := foldComparison (fun a b => decide (b.toInt < a.toInt)) false

def rewriteSle : Node → Option Node := foldComparison (fun a b => decide (a.toInt ≤ b.toInt)) true

def rewriteSlt : Node → Option Node := foldComparison (fun a b => decide (a.toInt < b.toInt)) false

def rewriteUge : Node → Option Node := foldComparison (fun a b => decide (b.value ≤ a.value)) true

def rewriteUgt : Node → Option Node := foldComparison (fun a b => decide (b.value < a.value)) false

def rewriteUle : Node → Option Node := foldComparison (fun a b => decide (a.value ≤ b.value)) true

def rewriteUlt : Node → Option Node := foldComparison (fun a b => decide (a.value < b.value)) false

def rewriteZerop : Node → Option Node
  | .interior _ _ (.constant a _ :: _) f => some (makeBooleanConstant a.isEqualToZero f)
  | _ => none

/-- The position of a bit of a constant, which has no flags unless there is none. -/
def foldPosition (position : BitVector → Option Nat) : Node → Option Node
  | .interior _ w (.constant a _ :: _) f =>
    match position a with
    | some idx => some (makeIntegerConstant w idx)
    | none => some (.constant (.fromInteger w 0) f)
  | _ => none

def rewriteLssb : Node → Option Node :=
  foldPosition fun a => (List.range a.size).find? fun i => a.value.testBit i

def rewriteMssb : Node → Option Node :=
  foldPosition fun a => if a.value = 0 then none else some (Nat.log2 a.value)

/-- What folding has given, if the quotient is defined. -/
def foldingStage (rewrite : Node → Folding) : Stage := fun n =>
  match rewrite n with
  | .unchanged => .ret none
  | .folded m => .ret (some m)
  | .overflow => .throw

/-- The nodes that are not equivalent to an earlier one. -/
def distinct (elements : List Node) : List Node → List Node
  | [] => []
  | c :: cs =>
    if elements.any (c.isEquivalentTo ·) then distinct elements cs
    else c :: distinct (elements ++ [c]) cs

def rewriteSet (E : Engine) : Stage
  | .interior _ _ [c] _ => return some c
  | .interior op w cs _ =>
    let elements := distinct [] cs
    if elements.length = cs.length then return none
    else
      match elements with
      | [c] => return some c
      | _ => do
        let m ← Calls.invoke (E, newInteriorOf w op elements 0)
        return some m
  | _ => return none

/-- A conversion of integers extends them or leaves the low bits. -/
def rewriteConvert (E : Engine) : Stage
  | .interior _ w (a :: _) f =>
    if w = a.nBits then return some a
    else if a.nBits < w then do
      let m ← Calls.invoke (E, newInterior .uextend [makeIntegerConstant 16 w, a] f)
      return some m
    else do
      let m ← Calls.invoke (E, newInterior .extract
        [makeIntegerConstant 16 0, makeIntegerConstant 16 w, a] f)
      return some m
  | _ => return none

/-- An integer interpreted as an integer is as wide. -/
def rewriteReinterpret : Node → Option Node
  | .interior _ w (a :: _) _ => if w = a.nBits then some a else none
  | _ => none

/-- A round for the operators that are given by their positions. The floating-point ones are left
alone, as no operand is a floating-point constant. -/
def simplifyOther (E : Engine) : Nat → Stage
  | 4 => (Stage.pure (commutative E)).orElse (Stage.pure rewriteEq)
  | 9 => Stage.pure rewriteLssb
  | 10 => Stage.pure rewriteMssb
  | 11 => Stage.pure (commutative E)
  | 13 => Stage.pure unaryNoOp
  | 18 => foldingStage sdivRewrite
  | 19 => (Stage.pure (andThenPure associative (commutative E))).orElse (rewriteSet E)
  | 21 => Stage.pure rewriteSge
  | 22 => Stage.pure rewriteSgt
  | 27 => Stage.pure rewriteSle
  | 28 => Stage.pure rewriteSlt
  | 29 => foldingStage smodRewrite
  | 31 => foldingStage udivRewrite
  | 33 => Stage.pure rewriteUge
  | 34 => Stage.pure rewriteUgt
  | 35 => Stage.pure rewriteUle
  | 36 => Stage.pure rewriteUlt
  | 37 => foldingStage umodRewrite
  | 41 => Stage.pure rewriteZerop
  | 65 => rewriteConvert E
  | 66 => Stage.pure rewriteReinterpret
  | _ => fun _ => .ret none

open RecursiveCalls

def isPowerOfTwo (n : Nat) : Bool := decide (2 ^ Nat.log2 n = n)

/-- `log2max`: the position of the first power of two that is not below. -/
def log2max (n : Nat) : Nat := if isPowerOfTwo n then Nat.log2 n else Nat.log2 n + 1

/-- The sum of two shift amounts, unless it takes more than 64 bits. -/
def combineStrengths (E : Engine) (strength1 strength2 : Node) (valueWidth : Nat) :
    Program (Option Node) :=
  let widest := max strength1.nBits strength2.nBits
  let sumWidth := max (if isPowerOfTwo valueWidth then widest else widest + 1)
    (log2max valueWidth + 1)
  if 64 < sumWidth then return none
  else do
    let a ← extendTo sumWidth strength1
    let b ← extendTo sumWidth strength2
    let m ← makeAdd E a b
    return some m
where
  extendTo (sumWidth : Nat) (a : Node) : Program Node :=
    if a.nBits < sumWidth then makeExtend E (makeIntegerConstant 32 sumWidth) a else return a

/-- `toUnsigned`: from a vector of more than 64 bits it reads the bit above the most significant
one that is set. -/
def toUnsigned (b : BitVector) : Option Nat :=
  if b.size ≤ 64 then some b.value
  else if b.value < 2 ^ 64 then some (b.value / 2 ^ (Nat.log2 b.value + 1) % 2)
  else none

/-- The amount of a shift of a vector, at most the width of the vector. -/
def effectiveShift (w : Nat) : Node → Option Nat
  | .constant b _ => some (min w (if b.value < 2 ^ 64 then b.value else w))
  | _ => none

/-- The amount of a rotation, if it is known. -/
def effectiveRotation (w : Nat) : Node → Option Nat
  | .constant b _ =>
    if b.size ≤ 64 ∨ b.value < 2 ^ 64 then some b.value
    else if isPowerOfTwo w then some (b.value % 2 ^ (Nat.log2 w + 1))
    else none
  | _ => none

def rewriteAsr : Stage
  | .interior _ _ [.constant n _, .constant b _] f =>
    match toUnsigned n with
    | some sa => return some (.constant (b.shiftRightArithmetic sa) f)
    | none => .throw
  | _ => return none

/-- The new bits of a shift, at most 64 of them set. -/
def fillConstant (sa : Nat) (newBits : Bool) : Node :=
  makeIntegerConstant sa (if newBits then 2 ^ 64 - 1 else 0)

def foldShift (shift : BitVector → Nat → BitVector) : Node → Option Node
  | .interior _ w [n, .constant b _] f =>
    (effectiveShift w n).map fun sa => .constant (shift b sa) f
  | _ => none

/-- Two shifts of the same kind, with the amounts added in as many bits as the sum takes. -/
def combineShifts (E : Engine) : Stage
  | .interior op w [n, .interior op' w' [n', x] _] _ =>
    if op' = op then do
      match ← combineStrengths E n n' w' with
      | none => return none
      | some strength =>
        let m ← Calls.invoke (E, newInteriorOf w op [strength, x] 0)
        return some m
    else return none
  | _ => return none

/-- A shift to the left whose amount is known. -/
def knownShl (E : Engine) (newBits : Bool) : Stage
  | .interior _ w [n, a] _ =>
    match effectiveShift w n with
    | none => return none
    | some sa =>
      if w ≤ sa then return some (.constant (.fromInteger w (BitVector.fill w newBits)) 0)
      else if sa = 0 then return some a
      else do
        let hiBits ← makeExtract E (makeIntegerConstant 32 0) (makeIntegerConstant 32 (w - sa)) a
        let m ← makeConcat E hiBits (fillConstant sa newBits)
        return some m
  | _ => return none

/-- A shift to the right whose amount is known. -/
def knownShr (E : Engine) (newBits : Bool) : Stage
  | .interior _ w [n, a] f =>
    match effectiveShift w n with
    | none => return none
    | some sa =>
      if w ≤ sa then return some (.constant (.fromInteger w (BitVector.fill w newBits)) f)
      else if sa = 0 then return some a
      else do
        let loBits ← makeExtract E (makeIntegerConstant 32 sa) (makeIntegerConstant 32 w) a
        let m ← makeConcat E (fillConstant sa newBits) loBits
        return some m
  | _ => return none

def rewriteShl (E : Engine) (newBits : Bool) : Stage :=
  ((Stage.pure (foldShift fun b sa => b.shiftLeft sa newBits)).orElse (combineShifts E)).orElse
    (knownShl E newBits)

def rewriteShr (E : Engine) (newBits : Bool) : Stage :=
  ((Stage.pure (foldShift fun b sa => b.shiftRight sa newBits)).orElse (combineShifts E)).orElse
    (knownShr E newBits)

/-- `RolSimplifier` and `RorSimplifier`, with what they do to a constant. -/
def rewriteRotation (E : Engine) (rotate : BitVector → Nat → BitVector) : Stage
  | .interior op w [n, a] f =>
    match effectiveRotation w n with
    | none => return none
    | some sa =>
      match a with
      | .constant b _ => return some (.constant (rotate b sa) f)
      | _ =>
        if sa % w = 0 then return some a
        else if w < sa then do
          let m ← Calls.invoke (E, newInteriorOf w op
            [.constant (.fromInteger n.nBits (sa % w)) n.flags, a] f)
          return some m
        else return none
  | _ => return none

def rewriteRol (E : Engine) : Stage := rewriteRotation E .rotateLeft

def rewriteRor (E : Engine) : Stage := rewriteRotation E .rotateRight

/-- One round of the loop of `simplifyTop`. -/
def simplifyRound (E : Engine) (n : Node) : Program (Option Node) :=
  match n with
  | .interior .add _ _ _ => simplifyAdd E n
  | .interior .and _ _ _ => simplifyAnd E n
  | .interior .asr _ _ _ => ((additiveNesting E).orElse rewriteAsr) n
  | .interior .concat _ _ _ => simplifyConcat E n
  | .interior .extract _ _ _ => rewriteExtract E n
  | .interior .invert _ _ _ => simplifyInvert n
  | .interior .ite _ _ _ => rewriteIte E n
  | .interior .negate _ _ _ => simplifyNegate n
  | .interior .or _ _ _ => simplifyOr E n
  | .interior .rol _ _ _ => rewriteRol E n
  | .interior .ror _ _ _ => rewriteRor E n
  | .interior .sextend _ _ _ => rewriteSextend E n
  | .interior .shl0 _ _ _ => ((additiveNesting E).orElse (rewriteShl E false)) n
  | .interior .shl1 _ _ _ => ((additiveNesting E).orElse (rewriteShl E true)) n
  | .interior .shr0 _ _ _ => ((additiveNesting E).orElse (rewriteShr E false)) n
  | .interior .shr1 _ _ _ => ((additiveNesting E).orElse (rewriteShr E true)) n
  | .interior .smul _ _ _ => simplifySmul E n
  | .interior .uextend _ _ _ => rewriteUextend E n
  | .interior .umul _ _ _ => simplifyUmul E n
  | .interior .xor _ _ _ => simplifyXor E n
  | .interior (.other p) _ _ _ => simplifyOther E p n
  | _ => .ret none

/-- The loop of `simplifyTop`, of which each further round is a call, after the constructor. -/
def simplifyLoop : Engine × Node → Program Node
  | (E, .interior op w cs f) =>
    if accepts op w cs then do
      match ← simplifyRound E (.interior op w cs f) with
      | none => return .interior op w cs f
      | some m => Calls.invoke (E, m)
    else .throw
  | (_, n) => return n

/-- `simplifyTop` with as much fuel as it may nest calls and rounds. -/
def simplifyTop (fuel : Nat) (E : Engine) (n : Node) : Option Node :=
  evaluate simplifyLoop fuel (E, n)

end LoomX.Symbolic
