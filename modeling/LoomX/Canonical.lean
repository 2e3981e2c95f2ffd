import LoomX.Syntax
import LoomX.LoopRange

namespace LoomX

inductive NonCanonicalReason
  | noInit
  | noTest
  | noIncrement
  | nonIntegerIterator
  | nonLiteralOrParameterBound
  | nonIdiomaticIncrement
  | loopVarModifiedInBody
  deriving DecidableEq, Repr

structure CanonicalResult where
  indexVar : Var
  lowerBound : Expr
  upperBound : Expr
  stride : Expr
  isUpperExclusive : Bool
  deriving DecidableEq, Repr

namespace Expr

/-- The variable is assigned or stepped by a node of the expression, seen from the reference:
its parent is an assignment with the reference on the left, or `++`/`--`. -/
def modifies (v : Var) : Expr → Bool
  | intVal _ _ | exprNil | varRef _ => false
  | deref e | member e _ | addrOf e | cast _ e | unary _ e | call _ e => e.modifies v
  | plusPlus e | minusMinus e => e == varRef v || e.modifies v
  | assign a b | compound _ a b => a == varRef v || a.modifies v || b.modifies v
  | arrRef a b | binary _ a b | exprCons a b => a.modifies v || b.modifies v
  | cond a b c => a.modifies v || b.modifies v || c.modifies v

end Expr

namespace Stmt

def modifies (v : Var) : Stmt → Bool
  | empty | breakStmt | continueStmt | decl _ none | returnStmt none => false
  | expr e | decl _ (some e) | returnStmt (some e) => e.modifies v
  | seq s t => s.modifies v || t.modifies v
  | ite c s t => c.modifies v || s.modifies v || t.modifies v
  | whileLoop c s => c.modifies v || s.modifies v
  | forLoop i c u s => i.modifies v || c.modifies v || u.modifies v || s.modifies v

/-- `break` statements that leave the loop around the statement. -/
def hasLoopBreak : Stmt → Bool
  | breakStmt => true
  | seq s t | ite _ s t => s.hasLoopBreak || t.hasLoopBreak
  | _ => false

/-- `SgNodeHelper::loopRelevantBreakStmtNodes` of a loop body, whose traversal starts below it: a
body that is a `break` has none, and one that is a loop has those of its own body. -/
def bodyHasBreak : Stmt → Bool
  | breakStmt => false
  | whileLoop _ s | forLoop _ _ _ s => s.hasLoopBreak
  | s => s.hasLoopBreak

end Stmt

/-- The initialisation of `SageInterface::isCanonicalForLoop`: index variable and lower bound. The
right side of a compound assignment counts as the lower bound, too. -/
def canonicalInit : Stmt → Option (Var × Expr)
  | .decl v (some e) => some (v, e)
  | .expr e =>
    match e.assignment with
    | some (lhs, rhs) =>
      match lhs.skipCasts with
      | .varRef v => some (v, rhs)
      | _ => none
    | none => none
  | _ => none

/-- The test of a canonical loop: relation, tested variable and bound. -/
def canonicalTest : Expr → Option (LoopTest × Var × Expr)
  | .binary op lhs rhs =>
    match lhs.skipCasts, op with
    | .varRef v, .lt => some (.lt, v, rhs)
    | .varRef v, .le => some (.le, v, rhs)
    | .varRef v, .gt => some (.gt, v, rhs)
    | .varRef v, .ge => some (.ge, v, rhs)
    | _, _ => none
  | _ => none

/-- The variable `isCanonicalForLoop` takes for the stepped one. In the assignment form it is
the variable operand of the sum and the left side only when there is none. -/
def canonicalIncrementVar : Expr → Option Var
  | .compound .add lhs _ | .compound .sub lhs _ =>
    match lhs.skipCasts with
    | .varRef v => some v
    | _ => none
  | .plusPlus e | .minusMinus e =>
    match e.skipCasts with
    | .varRef v => some v
    | _ => none
  | .assign lhs rhs =>
    match lhs.skipCasts, rhs.skipCasts with
    | .varRef w, .binary .add a b =>
      match a.skipCasts, b.skipCasts with
      | .varRef v, _ => some v
      | _, .varRef v => some v
      | _, _ => some w
    | .varRef w, .binary .sub a b =>
      match a.skipCasts, b.skipCasts with
      | .varRef v, _ => some v
      | _, _ => some w
    | _, _ => none
  | _ => none

/-- No `char` and no `bool`. -/
def isStrictIntegerType : CType → Bool
  | .integer bits _ => bits ∈ [16, 32, 64]
  | _ => false

/-- The types that `LoopCanonicalChecker` wants of an iterator, `unsigned short` not among them. -/
def isIteratorType : CType → Bool
  | .integer bits signed => (bits ∈ [8, 16] && signed) || bits ∈ [32, 64]
  | _ => false

def isCanonicalForLoop (loop : ForStatement) : Option (Var × Expr × LoopTest × Expr) :=
  match canonicalInit loop.init, canonicalTest loop.test with
  | some (v, lower), some (rel, w, upper) =>
    if isStrictIntegerType v.type && w == v && canonicalIncrementVar loop.increment == some v &&
        !loop.body.bodyHasBreak then some (v, lower, rel, upper)
    else none
  | _, _ => none

/-- `incrementIsSimple`: the stride expression. Both `++` and `--` give the literal `1`. -/
def incrementIsSimple (iter : Var) : Expr → Option Expr
  | .plusPlus e | .minusMinus e =>
    if e.skipCasts = .varRef iter then some (.intVal .int 1) else none
  | .compound op lhs rhs =>
    if lhs.skipCasts = .varRef iter then
      match op with
      | .add => some rhs
      | .sub => some (.unary .minus rhs)
      | _ => none
    else none
  | .assign lhs rhs =>
    if lhs.skipCasts = .varRef iter then
      match rhs with
      | .binary .add a b =>
        if a.skipCasts = .varRef iter then some b
        else if b.skipCasts = .varRef iter then some a
        else none
      | .binary .sub a b => if a.skipCasts = .varRef iter then some (.unary .minus b) else none
      | _ => none
    else none
  | _ => none

/-- `LoopCanonicalChecker::analyze`. -/
def canonicalAnalyze (loop : ForStatement) :
    Except (NonCanonicalReason × String) CanonicalResult :=
  match isCanonicalForLoop loop with
  | none => .error (.nonLiteralOrParameterBound, "ROSE isCanonicalForLoop returned false")
  | some (v, lower, rel, upper) =>
    if !isIteratorType v.type then
      .error (.nonIntegerIterator, "Loop iterator is not an integral type")
    else if loop.body.modifies v then
      .error (.loopVarModifiedInBody, "Loop iterator is modified inside the loop body")
    else
      match incrementIsSimple v loop.increment with
      | none => .error (.nonIdiomaticIncrement,
          "Increment is not a simple +/- of the loop iterator")
      | some stride => .ok ⟨v, lower, upper, stride, rel != .le⟩

/-- No compound assignment. -/
def Stmt.isPlainInit : Stmt → Bool
  | .expr (.compound _ _ _) => false
  | _ => true

theorem ne_of_isStrictIntegerType {t : CType} (h : isStrictIntegerType t = true) :
    t ≠ .integer 0 true := by
  rintro rfl
  simp [isStrictIntegerType] at h

theorem isCanonicalForLoop_some {loop : ForStatement} {iter : Var} {lower upper : Expr}
    {rel : LoopTest} (h : isCanonicalForLoop loop = some (iter, lower, rel, upper)) :
    canonicalInit loop.init = some (iter, lower) ∧ isStrictIntegerType iter.type = true ∧
      ∃ w, canonicalTest loop.test = some (rel, w, upper) ∧ w = iter := by
  unfold isCanonicalForLoop at h
  split at h
  next v low rel' w up hinit htest =>
    obtain ⟨hcond, h⟩ := Option.ite_none_right_eq_some.mp h
    simp only [Prod.mk.injEq, Option.some.injEq] at h
    obtain ⟨rfl, rfl, rfl, rfl⟩ := h
    simp only [Bool.and_eq_true, beq_iff_eq] at hcond
    exact ⟨hinit, hcond.1.1.1, w, htest, hcond.1.1.2⟩
  next => simp at h

theorem canonicalAnalyze_ok {loop : ForStatement} {c : CanonicalResult}
    (h : canonicalAnalyze loop = .ok c) :
    ∃ rel, isCanonicalForLoop loop = some (c.indexVar, c.lowerBound, rel, c.upperBound) ∧
      incrementIsSimple c.indexVar loop.increment = some c.stride ∧
      c.isUpperExclusive = (rel != .le) := by
  unfold canonicalAnalyze at h
  split at h
  next => simp at h
  next iter lower rel upper hc =>
    split_ifs at h
    split at h
    next => simp at h
    next stride hs =>
      cases Except.ok.inj h
      exact ⟨rel, hc, hs, rfl⟩

end LoomX
