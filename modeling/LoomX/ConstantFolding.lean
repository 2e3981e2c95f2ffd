import LoomX.CInteger

namespace LoomX

namespace ConstantFolding

/-- The value expressions of integer types. -/
inductive ValueKind where
  | boolValExp | charVal | signedCharVal | unsignedCharVal | shortVal | unsignedShortVal | intVal
  | unsignedIntVal | longIntVal | unsignedLongVal | longLongIntVal | unsignedLongLongIntVal
  | enumVal | wcharVal | char16Val | char32Val
  deriving DecidableEq

/-- The type of a value expression in C, where enumerators and wide characters are integers. -/
def ValueKind.type : ValueKind → CInteger
  | boolValExp => .bool
  | charVal => .char
  | signedCharVal => .signedChar
  | unsignedCharVal => .unsignedChar
  | shortVal => .short
  | unsignedShortVal | char16Val => .unsignedShort
  | intVal | enumVal | wcharVal => .int
  | unsignedIntVal | char32Val => .unsignedInt
  | longIntVal => .long
  | unsignedLongVal => .unsignedLong
  | longLongIntVal => .longLong
  | unsignedLongLongIntVal => .unsignedLongLong

structure ValueExp where
  kind : ValueKind
  value : Int
  inRange : kind.type.InRange value
  deriving DecidableEq

/-- The value expression that a constructor makes of a number. -/
def ValueExp.new (kind : ValueKind) (x : Int) : ValueExp :=
  ⟨kind, kind.type.convert x, kind.type.inRange_convert x⟩

/-- The binary operators of C on integers. -/
inductive BinaryOp where
  | modOp | lshiftOp | rshiftOp | bitAndOp | bitOrOp | bitXorOp | addOp | subtractOp | multiplyOp
  | divideOp | andOp | orOp | equalityOp | notEqualOp | greaterOrEqualOp | greaterThanOp
  | lessOrEqualOp | lessThanOp | commaOpExp
  deriving DecidableEq

inductive Expression where
  | value (v : ValueExp)
  | binary (op : BinaryOp) (lhs rhs : Expression)
  | minus (operand : Expression)
  | conditional (cond trueExp falseExp : Expression)
  deriving DecidableEq

/-- What stops the traversal: its own arithmetic is undefined, or an assertion fails. -/
inductive Fault where
  | undefined (u : Undefined)
  | assertion
  deriving DecidableEq

def truth (p : Prop) [Decidable p] : Int := if p then 1 else 0

/-- The left shift of C++, which may shift into the sign bit. -/
def calculateLshift (t : CInteger) (x y : Int) : Except Undefined Int :=
  if t.badShift y then .error .shift
  else if t.signed ∧ (x < 0 ∨ 2 ^ t.width ≤ x * 2 ^ y.toNat) then .error .overflow
  else .ok (t.convert (x * 2 ^ y.toNat))

/-- `calculate_t` for operands of a type, which C++ promotes. The switch has no case for the comma
and leaves the value as it was initialised. -/
def calculate (t : CInteger) (op : BinaryOp) (lhs rhs : Int) : Except Undefined Int :=
  match op with
  | .modOp => t.convert <$> t.promote.modulo lhs rhs
  | .lshiftOp => t.convert <$> calculateLshift t.promote lhs rhs
  | .rshiftOp => t.convert <$> t.promote.shiftRight lhs rhs
  | .bitAndOp => .ok (t.convert (t.promote.bitAnd lhs rhs))
  | .bitOrOp => .ok (t.convert (t.promote.bitOr lhs rhs))
  | .bitXorOp => .ok (t.convert (t.promote.bitXor lhs rhs))
  | .addOp => t.convert <$> t.promote.result (lhs + rhs)
  | .subtractOp => t.convert <$> t.promote.result (lhs - rhs)
  | .multiplyOp => t.convert <$> t.promote.result (lhs * rhs)
  | .divideOp => t.convert <$> t.promote.divide lhs rhs
  | .andOp => .ok (truth (lhs ≠ 0 ∧ rhs ≠ 0))
  | .orOp => .ok (truth (lhs ≠ 0 ∨ rhs ≠ 0))
  | .equalityOp => .ok (truth (lhs = rhs))
  | .notEqualOp => .ok (truth (lhs ≠ rhs))
  | .greaterOrEqualOp => .ok (truth (rhs ≤ lhs))
  | .greaterThanOp => .ok (truth (rhs < lhs))
  | .lessOrEqualOp => .ok (truth (lhs ≤ rhs))
  | .lessThanOp => .ok (truth (lhs < rhs))
  | .commaOpExp => .ok 0

/-- `calculate_u_t` of a minus. -/
def calculateMinus (t : CInteger) (x : Int) : Except Undefined Int :=
  t.convert <$> t.promote.result (-x)

/-- The value expression of a number that was calculated. -/
def build (kind : ValueKind) : Except Undefined Int → Except Fault (Option ValueExp)
  | .error u => .error (.undefined u)
  | .ok x => .ok (some (.new kind x))

/-- Both operands are cast to the class of the result. -/
def buildResultValueExp (kind : ValueKind) (op : BinaryOp) (lhs rhs : ValueExp) :
    Except Fault (Option ValueExp) :=
  if lhs.kind = kind ∧ rhs.kind = kind then
    build kind (calculate kind.type op lhs.value rhs.value)
  else .error .assertion

def buildResultValueExpMinus (kind : ValueKind) (v : ValueExp) : Except Fault (Option ValueExp) :=
  if v.kind = kind then build kind (calculateMinus kind.type v.value) else .error .assertion

def Expression.isValueExp : Expression → Option ValueExp
  | .value v => some v
  | _ => none

/-- The switch over the class of two operands of the same class. -/
def evaluateValues (op : BinaryOp) (lhs rhs : ValueExp) : Except Fault (Option ValueExp) :=
  match lhs.kind with
  | .boolValExp => build .intVal (calculate .int op lhs.value rhs.value)
  | .charVal => buildResultValueExp .charVal op lhs rhs
  | .enumVal => buildResultValueExp .intVal op lhs rhs
  | .intVal => buildResultValueExp .intVal op lhs rhs
  | .longIntVal => buildResultValueExp .longIntVal op lhs rhs
  | .longLongIntVal => buildResultValueExp .longLongIntVal op lhs rhs
  | .shortVal => buildResultValueExp .shortVal op lhs rhs
  | .unsignedCharVal => buildResultValueExp .unsignedCharVal op lhs rhs
  | .signedCharVal => buildResultValueExp .signedCharVal op lhs rhs
  | .unsignedIntVal => buildResultValueExp .unsignedIntVal op lhs rhs
  | .unsignedLongLongIntVal => buildResultValueExp .unsignedLongLongIntVal op lhs rhs
  | .unsignedLongVal => buildResultValueExp .unsignedLongVal op lhs rhs
  | .unsignedShortVal => buildResultValueExp .unsignedShortVal op lhs rhs
  | .wcharVal | .char16Val | .char32Val => .ok none

def evaluateBinaryOp (op : BinaryOp) (lhs rhs : Expression) : Except Fault (Option ValueExp) :=
  match lhs.isValueExp, rhs.isValueExp with
  | some l, some r => if l.kind = r.kind then evaluateValues op l r else .ok none
  | _, _ => .ok none

/-- The switch over the class of the operand of a minus. -/
def evaluateUnaryValue (v : ValueExp) : Except Fault (Option ValueExp) :=
  match v.kind with
  | .boolValExp => build .intVal (calculateMinus .int v.value)
  | .enumVal => buildResultValueExpMinus .intVal v
  | .intVal => buildResultValueExpMinus .intVal v
  | .longIntVal => buildResultValueExpMinus .longIntVal v
  | .longLongIntVal => buildResultValueExpMinus .longLongIntVal v
  | .shortVal => buildResultValueExpMinus .shortVal v
  | .unsignedIntVal => buildResultValueExpMinus .unsignedIntVal v
  | .unsignedLongLongIntVal => buildResultValueExpMinus .unsignedLongLongIntVal v
  | .unsignedLongVal => buildResultValueExpMinus .unsignedLongVal v
  | .unsignedShortVal => buildResultValueExpMinus .unsignedShortVal v
  | .charVal | .signedCharVal | .unsignedCharVal | .wcharVal | .char16Val | .char32Val => .ok none

def evaluateUnaryOp (operand : Expression) : Except Fault (Option ValueExp) :=
  match operand.isValueExp with
  | some v => evaluateUnaryValue v
  | none => .ok none

/-- The classes that a condition is taken of. -/
def ValueKind.isCondition : ValueKind → Bool
  | charVal | shortVal | boolValExp | enumVal | intVal => true
  | _ => false

def evaluateConditionalExp (cond trueExp falseExp : Expression) : Option ValueExp :=
  match cond.isValueExp with
  | some v =>
    if v.kind.isCondition then
      (if v.value ≠ 0 then trueExp.isValueExp else falseExp.isValueExp)
    else none
  | none => none

/-- An operand after it is replaced by the value of its subtree, if there is one. -/
def replaced (subtree : Expression × Option ValueExp) : Expression :=
  match subtree.2 with
  | some v => .value v
  | none => subtree.1

/-- The traversal, which gives the expression with its operands replaced and the new value
expression. -/
def traverse : Expression → Except Fault (Expression × Option ValueExp)
  | .value v => .ok (.value v, none)
  | .binary op lhs rhs => do
    let l ← traverse lhs
    let r ← traverse rhs
    let newValueExp ← evaluateBinaryOp op (replaced l) (replaced r)
    .ok (.binary op (replaced l) (replaced r), newValueExp)
  | .minus operand => do
    let e ← traverse operand
    let newValueExp ← evaluateUnaryOp (replaced e)
    .ok (.minus (replaced e), newValueExp)
  | .conditional cond trueExp falseExp => do
    let c ← traverse cond
    let t ← traverse trueExp
    let f ← traverse falseExp
    .ok (.conditional (replaced c) (replaced t) (replaced f),
      evaluateConditionalExp (replaced c) (replaced t) (replaced f))

/-- The type of a binary expression in C. -/
def BinaryOp.type (op : BinaryOp) (t u : CInteger) : CInteger :=
  match op with
  | modOp | bitAndOp | bitOrOp | bitXorOp | addOp | subtractOp | multiplyOp | divideOp =>
    t.common u
  | lshiftOp | rshiftOp => t.promote
  | andOp | orOp | equalityOp | notEqualOp | greaterOrEqualOp | greaterThanOp | lessOrEqualOp
  | lessThanOp => .int
  | commaOpExp => u

/-- The value of a binary expression in C, where both operands are evaluated. -/
def BinaryOp.operate (op : BinaryOp) (t u : CInteger) (x y : Int) : Except Undefined Int :=
  let c := t.common u
  match op with
  | modOp => c.modulo (c.convert x) (c.convert y)
  | lshiftOp => t.promote.shiftLeft x y
  | rshiftOp => t.promote.shiftRight x y
  | bitAndOp => .ok (c.bitAnd (c.convert x) (c.convert y))
  | bitOrOp => .ok (c.bitOr (c.convert x) (c.convert y))
  | bitXorOp => .ok (c.bitXor (c.convert x) (c.convert y))
  | addOp => c.result (c.convert x + c.convert y)
  | subtractOp => c.result (c.convert x - c.convert y)
  | multiplyOp => c.result (c.convert x * c.convert y)
  | divideOp => c.divide (c.convert x) (c.convert y)
  | andOp => .ok (truth (x ≠ 0 ∧ y ≠ 0))
  | orOp => .ok (truth (x ≠ 0 ∨ y ≠ 0))
  | equalityOp => .ok (truth (c.convert x = c.convert y))
  | notEqualOp => .ok (truth (c.convert x ≠ c.convert y))
  | greaterOrEqualOp => .ok (truth (c.convert y ≤ c.convert x))
  | greaterThanOp => .ok (truth (c.convert y < c.convert x))
  | lessOrEqualOp => .ok (truth (c.convert x ≤ c.convert y))
  | lessThanOp => .ok (truth (c.convert x < c.convert y))
  | commaOpExp => .ok y

/-- The right operand is not evaluated. -/
def BinaryOp.stops (op : BinaryOp) (x : Int) : Prop := op = andOp ∧ x = 0 ∨ op = orOp ∧ x ≠ 0

instance (op : BinaryOp) (x : Int) : Decidable (op.stops x) :=
  inferInstanceAs (Decidable (_ ∨ _))

namespace Expression

/-- The type of an expression in C. -/
def type : Expression → CInteger
  | value v => v.kind.type
  | binary op lhs rhs => op.type lhs.type rhs.type
  | minus operand => operand.type.promote
  | conditional _ trueExp falseExp => trueExp.type.common falseExp.type

/-- The value of an expression in C, if its evaluation is defined. -/
def eval : Expression → Option Int
  | value v => some v.value
  | binary op lhs rhs => do
    let x ← lhs.eval
    if op.stops x then some (truth (op = .orOp)) else do
      let y ← rhs.eval
      (op.operate lhs.type rhs.type x y).toOption
  | minus operand => do
    let x ← operand.eval
    (operand.type.promote.result (-x)).toOption
  | conditional cond trueExp falseExp => do
    let x ← cond.eval
    let y ← (if x ≠ 0 then trueExp.eval else falseExp.eval)
    some ((trueExp.type.common falseExp.type).convert y)

def subexpressions : Expression → List Expression
  | value v => [value v]
  | binary op lhs rhs => binary op lhs rhs :: (lhs.subexpressions ++ rhs.subexpressions)
  | minus operand => minus operand :: operand.subexpressions
  | conditional c t f =>
    conditional c t f :: (c.subexpressions ++ (t.subexpressions ++ f.subexpressions))

end Expression

end ConstantFolding

end LoomX
