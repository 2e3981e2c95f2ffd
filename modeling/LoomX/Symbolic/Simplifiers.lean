import LoomX.RecursiveCalls
import LoomX.Symbolic.Expression

namespace LoomX.Symbolic

open RecursiveCalls

/-- What the simplification depends on besides the expression: the addresses of the nodes, and
the solver if there is one. -/
structure Engine where
  address : Node → Nat
  solver : Option SmtSolver

def Engine.withoutSolver (E : Engine) : Engine := { E with solver := none }

/-- A computation on the way to a simplified node; the calls are those of `simplifyTop`. -/
abbrev Program := Calls (Engine × Node) Node

/-- A stage of `simplifyTop`; `none` is the node itself. -/
abbrev Stage := Node → Program (Option Node)

/-- A stage that makes no node with `instance`. -/
def Stage.pure (f : Node → Option Node) : Stage := fun n => .ret (f n)

/-- The second stage on the result of the first. -/
def Stage.andThen (f : Node → Option Node) (g : Stage) : Stage := fun n =>
  match f n with
  | none => g n
  | some m => do
    let r ← g m
    return some (r.getD m)

/-- The second stage if the first has left the node alone. -/
def Stage.orElse (f g : Stage) : Stage := fun n => do
  match ← f n with
  | none => g n
  | some m => return some m

/-- The second of two stages, both without `instance`, on the result of the first. -/
def andThenPure (f g : Node → Option Node) (n : Node) : Option Node :=
  match f n with
  | none => g n
  | some m => some ((g m).getD m)

def makeInstance (E : Engine) (op : Operator) (children : List Node) : Program Node :=
  .invoke (E, newInterior op children 0)

def makeExtend (E : Engine) (newSize a : Node) : Program Node := makeInstance E .uextend [newSize, a]

def makeAdd (E : Engine) (a b : Node) : Program Node := makeInstance E .add [a, b]

def makeNegate (E : Engine) (a : Node) : Program Node := makeInstance E .negate [a]

def makeExtract (E : Engine) (lo hi a : Node) : Program Node := makeInstance E .extract [lo, hi, a]

def makeConcat (E : Engine) (hi lo : Node) : Program Node := makeInstance E .concat [hi, lo]

def makeIte (E : Engine) (c a b : Node) : Program Node := makeInstance E .ite [c, a, b]

def makeIntegerConstant (nBits value : Nat) : Node := .constant (.fromInteger nBits value) 0

/-- The node with other flags, made anew without a solver. -/
def newFlags (E : Engine) (f : Nat) (n : Node) : Program Node :=
  if n.flags = f then return n
  else
    match n with
    | .interior op w cs _ => .invoke (E.withoutSolver, newInteriorOf w op cs f)
    | .var i w _ => return .var i w f
    | .constant b _ => return .constant b f

mutual

/-- The operands with nested operations of the same operator opened. -/
def Node.flatten (op : Operator) : Node → List Node
  | .interior op' w cs f => if op' = op then flattenAll op cs else [.interior op' w cs f]
  | .var i w f => [.var i w f]
  | .constant b f => [.constant b f]

def flattenAll (op : Operator) : List Node → List Node
  | [] => []
  | c :: cs => c.flatten op ++ flattenAll op cs

end

def associative : Node → Option Node
  | .interior op w cs _ =>
    if cs.any (·.isOperator op) then some (newInteriorOf w op (flattenAll op cs) 0) else none
  | _ => none

def sortOperands (address : Node → Nat) (cs : List Node) : List Node :=
  cs.mergeSort fun a b => (Node.commutativeOrder address a b).isLE

def commutative (E : Engine) : Node → Option Node
  | .interior op w cs _ =>
    if sortOperands E.address cs = cs then none
    else some (newInteriorOf w op (sortOperands E.address cs) 0)
  | _ => none

/-- Leaves out what must equal the operand kept last. -/
def keepNew (E : Engine) (last : Node) : List Node → List Node
  | [] => []
  | c :: cs => if mustEqual E.solver last c then keepNew E last cs else c :: keepNew E c cs

def dropRepeats (E : Engine) : List Node → List Node
  | [] => []
  | c :: cs => c :: keepNew E c cs

def idempotent (E : Engine) : Node → Option Node
  | .interior op w cs _ =>
    if dropRepeats E cs = cs then none else some (newInteriorOf w op (dropRepeats E cs) 0)
  | _ => none

def involutary : Node → Option Node
  | .interior op _ [.interior op' _ [c] _] _ => if op' = op then some c else none
  | _ => none

/-- The operand as wide as said; the width is cut to eight bits. -/
def widenTo (E : Engine) (nBits : Nat) (a : Node) : Program Node :=
  if a.nBits = nBits then return a else makeExtend E (makeIntegerConstant 8 nBits) a

/-- Two shifts of the same kind as one. -/
def additiveNesting (E : Engine) : Stage
  | .interior op w [a, .interior op' _ [b, x] _] _ =>
    if op' = op then do
      let sa ← widenTo E (max a.nBits b.nBits) a
      let sb ← widenTo E (max a.nBits b.nBits) b
      let s ← makeAdd E sa sb
      return some (newInteriorOf w op [s, x] 0)
    else return none
  | _ => return none

/-- A constant with the 64-bit value `ident` converted to its width. -/
def isIdentity (ident : Nat) : Node → Bool
  | .constant b _ => b.value == (BitVector.fromInteger b.size ident).value
  | _ => false

def identity (E : Engine) (ident : Nat) : Stage
  | .interior op w cs _ =>
    let args := cs.filter fun c => !isIdentity ident c
    if args.length = cs.length then return none
    else
      match args with
      | [] => return some (makeIntegerConstant w ident)
      | [a] =>
        if a.nBits ≠ w then do
          let m ← makeExtend E (makeIntegerConstant 8 w) a
          return some m
        else return some a
      | _ => if (newInterior op args 0).nBits ≠ w then return none else return some (newInterior op args 0)
  | _ => return none

def unaryNoOp : Node → Option Node
  | .interior _ _ [c] _ => some c
  | _ => none

/-- A run of constants, folded when there are several. -/
def foldRun (fold : List BitVector → BitVector) : List Node → List Node
  | [] => []
  | [c] => [c]
  | cs => [.constant (fold (cs.filterMap Node.bits?)) (cs.foldl (fun f c => f ||| c.flags) 0)]

/-- The operands with every run of constants folded; `run` is the one being collected. -/
def foldRuns (fold : List BitVector → BitVector) (run : List Node) : List Node → List Node
  | [] => foldRun fold run
  | c :: cs =>
    if c.isIntegerConstant then foldRuns fold (run ++ [c]) cs
    else foldRun fold run ++ c :: foldRuns fold [] cs

def foldConstants (fold : List BitVector → BitVector) : Node → Option Node
  | .interior op w cs _ =>
    match foldRuns fold [] cs with
    | [c] => if cs.length = 1 then none else some c
    | cs' => if cs'.length = cs.length then none else some (newInteriorOf w op cs' 0)
  | _ => none

/-- The accumulator of a `fold`, started from the first operand as `start` says. -/
def accumulate (start : BitVector → BitVector) (step : BitVector → BitVector → BitVector) :
    List BitVector → BitVector
  | [] => .fromInteger 0 0
  | b :: bs => (b :: bs).foldl step (start b)

/-- The accumulator of a `fold` that begins with the first operand itself. -/
def accumulateFrom (step : BitVector → BitVector → BitVector) : List BitVector → BitVector
  | [] => .fromInteger 0 0
  | b :: bs => bs.foldl step b

end LoomX.Symbolic
