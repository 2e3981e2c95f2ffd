import LoomX.Symbolic.Simplifiers

namespace LoomX.Symbolic

open RecursiveCalls

/-- The condition that all nodes choose by, with what they choose from. -/
def commonCondition (solver : Option SmtSolver) :
    Option Node → List Node → Option (Node × List Node × List Node)
  | condition, [] => condition.map fun c => (c, [], [])
  | condition, .interior .ite _ [c, x, y] _ :: cs =>
    if (condition.map fun c' => mustEqual solver c c').getD true then
      (commonCondition solver (some (condition.getD c)) cs).map fun r =>
        (r.1, x :: r.2.1, y :: r.2.2)
    else none
  | _, _ => none

/-- The position from which an `extract` with known limits reads. -/
def lowLimit : Node → Option Nat
  | .interior .extract _ [.constant lo _, .constant hi _, _] _ =>
    if lo.size ≤ 64 ∧ hi.size ≤ 64 then some lo.value else none
  | _ => none

/-- The operands of the `extract` that joins an argument to the previous one. -/
def joinable (solver : Option SmtSolver) (prevLo : Nat) :
    Node → Node → Option (Node × Node × Node)
  | .interior _ _ (_ :: hi' :: a' :: _) _, .interior .extract _ [.constant lo f, .constant hi _, a] _ =>
    if lo.size ≤ 64 ∧ hi.size ≤ 64 ∧ hi.value = prevLo ∧ a'.nBits = a.nBits ∧
        mustEqual solver a' a then
      some (.constant lo f, hi', a)
    else none
  | _, _ => none

/-- The arguments with neighbouring extracts joined; the last argument comes first in `newArgs`
and is an extract if it stands in `prev`. -/
def joinExtracts (E : Engine) (newArgs : List Node) (prev : Option Node) (prevLo : Nat) :
    List Node → Program (List Node)
  | [] => return newArgs.reverse
  | arg :: args =>
    match prev.bind fun p => joinable E.solver prevLo p arg with
    | some (lo, hi, a) => do
      let m ← makeExtract E lo hi a
      joinExtracts E (m :: newArgs.tail) (if m.isInterior then some m else none)
        ((lowLimit arg).getD 0) args
    | none =>
      joinExtracts E (arg :: newArgs) (if (lowLimit arg).isSome then some arg else none)
        ((lowLimit arg).getD 0) args

/-- A concatenation of nodes that choose by the same condition as a choice of concatenations. -/
def hoistConcat (E : Engine) : Stage
  | .interior _ _ cs _ =>
    match commonCondition E.solver none cs with
    | some (c, xs, ys) => do
      let x ← makeInstance E .concat xs
      let y ← makeInstance E .concat ys
      let m ← makeIte E c x y
      return some m
    | none => return none
  | _ => return none

/-- What `ConcatSimplifier` makes of the arguments it has joined; `n` is their number before. -/
def concatOf (E : Engine) (op : Operator) (w f n : Nat) : List Node → Program (Option Node)
  | [a] => do
    let m ← newFlags E f a
    return some m
  | newArgs =>
    if newArgs.length = n then return none
    else do
      let m ← Calls.invoke (E, newInteriorOf w op newArgs f)
      return some m

def joinArguments (E : Engine) : Stage
  | .interior op w cs f => do
    let newArgs ← joinExtracts E [] none 0 cs
    concatOf E op w f cs.length newArgs
  | _ => return none

def rewriteConcat (E : Engine) : Stage := (hoistConcat E).orElse (joinArguments E)

/-- The bits from `lo` up to `hi` of parts of which the least significant comes first and starts
at bit `partAt`, as parts in the same order. -/
def takeParts (E : Engine) (partAt lo hi : Nat) : List Node → Program (List Node)
  | [] => return []
  | part :: parts =>
    let partEnd := partAt + part.nBits
    if partEnd ≤ lo then takeParts E partEnd lo hi parts
    else if hi ≤ partAt then return []
    else if partAt < lo ∧ hi < partEnd then do
      let m ← makeExtract E (makeIntegerConstant 32 (lo - partAt))
        (makeIntegerConstant 32 (hi - partAt)) part
      let rest ← takeParts E partEnd (lo + (hi - lo)) hi parts
      return m :: rest
    else if partAt < lo then do
      let m ← makeExtract E (makeIntegerConstant 32 (lo - partAt))
        (makeIntegerConstant 32 part.nBits) part
      let rest ← takeParts E partEnd (lo + (partEnd - lo)) hi parts
      return m :: rest
    else if hi < partEnd then do
      let m ← makeExtract E (makeIntegerConstant 32 0) (makeIntegerConstant 32 (hi - lo)) part
      return [m]
    else do
      let rest ← takeParts E partEnd partEnd hi parts
      return part :: rest

def extractConcat (E : Engine) (lo hi : Nat) (parts : List Node) : Program (Option Node) := do
  let newChildren ← takeParts E 0 lo hi parts.reverse
  match newChildren with
  | [] => .throw
  | [a] => return some a
  | _ => do
    let m ← makeInstance E .concat newChildren.reverse
    return some m

/-- The bits from `lo` up to `hi` of an operand that is neither constant nor wanted whole. -/
def extractFrom (E : Engine) (lo hi : Nat) : Stage
  | .interior .concat _ parts _ => extractConcat E lo hi parts
  | .interior .extract _ [.constant lo' _, .constant _ _, a] _ => do
    let m ← makeExtract E (makeIntegerConstant 32 (lo'.value + lo))
      (makeIntegerConstant 32 (lo'.value + hi)) a
    return some m
  | .interior .uextend w [_, a] _ =>
    if lo = 0 ∧ hi ≤ w ∧ a.nBits = hi then return some a else return none
  | _ => return none

def rewriteExtract (E : Engine) : Stage
  | .interior _ _ [.constant lo _, .constant hi _, operand] f =>
    if hi.value ≤ lo.value ∨ operand.nBits < hi.value then return none
    else
      match operand with
      | .constant b _ => return some (.constant (b.extract lo.value hi.value) f)
      | _ =>
        if lo.value = 0 ∧ hi.value = operand.nBits then return some operand
        else extractFrom E lo.value hi.value operand
  | _ => return none

/-- An operand that is made narrower. -/
def shrink (E : Engine) : Stage
  | .interior _ w [_, a] _ =>
    if w < a.nBits then do
      let m ← makeExtract E (makeIntegerConstant 32 0) (makeIntegerConstant 32 w) a
      return some m
    else return none
  | _ => return none

/-- An operand that has the width already, or is constant. -/
def foldExtend (extend : BitVector → Nat → BitVector) : Node → Option Node
  | .interior _ w [_, a] f =>
    if a.nBits = w then some a
    else
      match a with
      | .constant b _ => some (.constant (extend b w) f)
      | _ => none
  | _ => none

/-- An extension of an extension, or what is left of it. -/
def nestedExtend (E : Engine) : Stage
  | .interior _ w [n, .interior .uextend w' [_, c] _] _ =>
    if w' ≤ w ∧ c.nBits ≤ w' ∨ c.nBits ≤ w ∧ w ≤ w' then do
      let m ← makeExtend E n c
      return some m
    else return none
  | _ => return none

def rewriteUextend (E : Engine) : Stage :=
  ((Stage.pure (foldExtend BitVector.resize)).orElse (nestedExtend E)).orElse (shrink E)

def rewriteSextend (E : Engine) : Stage :=
  (Stage.pure (foldExtend BitVector.signExtend)).orElse (shrink E)

/-- A choice by a constant. -/
def knownIte : Stage
  | .interior _ _ [.constant b _, x, y] _ =>
    if b.size = 1 then return some (if b.isEqualToZero then y else x) else .throw
  | _ => return none

def sameIte : Node → Option Node
  | .interior _ _ [_, x, y] _ => if x.isEquivalentTo y then some x else none
  | _ => none

/-- Two extracts at the same positions of operands as wide as each other. -/
def sameExtracts (solver : Option SmtSolver) : Node → Node → Option (Node × Node × Node × Node)
  | .interior .extract w [lo, hi, a] _, .interior .extract w' [lo', hi', a'] _ =>
    if w = w' ∧ mustEqual solver lo lo' ∧ mustEqual solver hi hi' ∧ a.nBits = a'.nBits then
      some (lo, hi, a, a')
    else none
  | _, _ => none

def hoistExtracts (E : Engine) : Stage
  | .interior _ _ [c, x, y] _ =>
    match sameExtracts E.solver x y with
    | some (lo, hi, a, a') => do
      let r ← makeIte E c a a'
      let m ← makeExtract E lo hi r
      return some m
    | none => return none
  | _ => return none

/-- A negative condition is made positive. -/
def swapIte (E : Engine) : Stage
  | .interior _ _ [.interior .invert _ (c :: _) _, x, y] f => do
    let m ← Calls.invoke (E, newInterior .ite [c, y, x] f)
    return some m
  | _ => return none

def rewriteIte (E : Engine) : Stage :=
  ((knownIte.orElse (Stage.pure sameIte)).orElse (hoistExtracts E)).orElse (swapIte E)

def simplifyConcat (E : Engine) : Stage :=
  (Stage.pure (andThenPure associative (foldConstants BitVector.concat))).orElse (rewriteConcat E)

end LoomX.Symbolic
