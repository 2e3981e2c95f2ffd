import LoomX.PureFunctionInliner
import LoomX.ReductionSound

namespace LoomX.ReductionHelper

/-- The statements a helper may consist of. -/
inductive HelperStmt
  | decl (v : Var) (init : Option Expr)
  | expr (e : Expr)
  deriving DecidableEq, Repr

/-- The statements of a body with declarations and expression statements only. -/
def helperStatements : Stmt → Option (List HelperStmt)
  | .decl v init => some [.decl v init]
  | .expr e => some [.expr e]
  | .seq a b => do
    let l ← helperStatements a
    let l' ← helperStatements b
    return l ++ l'
  | _ => none

def HelperStmt.expression : HelperStmt → Option Expr
  | decl _ _ => none
  | expr e => some e

/-- The only expression statement. -/
def reductionStmt (stmts : List HelperStmt) : Option Expr :=
  match stmts.filterMap HelperStmt.expression with
  | [e] => some e
  | _ => none

def isGlobalVariable (v : Var) : Bool := v.storage == .global

/-- What the left side of the update refers to: `*p`, or a global variable. -/
inductive ReducedVar
  | param (p : Var)
  | global (g : Var)
  deriving DecidableEq, Repr

def ReducedVar.var : ReducedVar → Var
  | param p => p
  | global g => g

def reducedVarOf (lhs : Expr) : Option ReducedVar :=
  match lhs.skipCasts with
  | .deref e =>
    match e.skipCasts with
    | .varRef p => some (.param p)
    | _ => none
  | .varRef g => if isGlobalVariable g then some (.global g) else none
  | _ => none

/-- The operand beside the reduced variable; both have to be variables. -/
def otherOperand (reduced : Var) (lhs rhs : Expr) : Option Expr :=
  match lhs.skipCasts, rhs.skipCasts with
  | .varRef l, .varRef r =>
    if l = reduced then some (.varRef r) else if r = reduced then some (.varRef l) else none
  | _, _ => none

def detect (reduced : Var) (e : Expr) : Option (ReductionOp × Expr) :=
  match e.skipCasts with
  | .binary .add l r => (otherOperand reduced l r).map (.add, ·)
  | .binary .mul l r => (otherOperand reduced l r).map (.mul, ·)
  | _ => none

structure Update where
  reduced : ReducedVar
  op : ReductionOp
  rhsExpr : Expr
  deriving DecidableEq, Repr

/-- `*p += e` and `global += e`, or `*p = *p + e` and `global = global + e`. -/
def updateOf : Expr → Option Update
  | .compound op lhs rhs => do
    let reduced ← reducedVarOf lhs
    let op ← detectCompoundAssignOp op
    return ⟨reduced, op, rhs⟩
  | .assign lhs rhs => do
    let reduced ← reducedVarOf lhs
    let (op, other) ← detect reduced.var rhs
    return ⟨reduced, op, other⟩
  | _ => none

/-- A write that the pass accepts: not of a whole variable outside the function, unless it is
the reduced one. -/
def isLocalWrite (f : Callee) (reduced : ReducedVar) : Expr → Bool
  | .varRef v => f.params.contains v || f.body.declared.contains v || .global v == reduced
  | _ => true

def isMathFunction (name : Option String) : Bool :=
  match name with
  | some name => ["sqrt", "sin", "cos", "exp", "log"].contains name
  | none => false

/-- Which argument names the target, or the global variable that is the target. -/
inductive ReductionTarget
  | param (idx : Nat)
  | global (g : Var)
  deriving DecidableEq, Repr

def reductionTarget (params : List Var) : ReducedVar → Option ReductionTarget
  | .param p =>
    if p ∈ params ∧ p.type.isPointerOrArray = true then some (.param (params.idxOf p)) else none
  | .global g => some (.global g)

structure ReductionHelperInfo where
  decl : FunctionDefinition
  target : ReductionTarget
  op : ReductionOp
  rhsExpr : Expr

def isReductionHelperFunction (f : FunctionDefinition) : Option ReductionHelperInfo := do
  let stmts ← helperStatements f.body
  let e ← reductionStmt stmts
  let u ← updateOf e
  let target ← reductionTarget f.params u.reduced
  if f.body.writeRefs.all (isLocalWrite f.toCallee u.reduced) &&
      f.body.calls.all fun call => isMathFunction call.1 then
    return ⟨f, target, u.op, u.rhsExpr⟩
  else none

/-- The helper of a name: of several definitions the last one that is a helper. -/
def findHelper (project : List FunctionDefinition) (name : String) : Option ReductionHelperInfo :=
  project.reverse.findSome? fun f => if f.name = name then isReductionHelperFunction f else none

/-- The variable in `&var`. -/
def variableFromAddressOf (e : Expr) : Option Var :=
  match e.skipCasts with
  | .addrOf e =>
    match e.skipCasts with
    | .varRef v => some v
    | _ => none
  | _ => none

/-- The parameters in the map `paramToArg`, with the arguments beside them. -/
def ReductionTarget.others {α : Type} (target : ReductionTarget) (l : List α) : List α :=
  match target with
  | param idx => l.eraseIdx idx
  | global _ => l

def ReductionTarget.variable (target : ReductionTarget) (args : List Expr) : Option Var :=
  match target with
  | param idx => args[idx]?.bind variableFromAddressOf
  | global g => some g

def assignmentOp : ReductionOp → Option BinOp
  | .add => some .add
  | .mul => some .mul
  | .sub => some .sub
  | .bitAnd => some .band
  | .bitOr => some .bor
  | .bitXor => some .bxor
  | .min | .max => none

/-- A call to rewrite: its helper and arguments, the target and the operator of the new
assignment. -/
structure InlinedCall where
  info : ReductionHelperInfo
  args : Expr
  reducedVar : Var
  op : BinOp

namespace InlinedCall

/-- The argument of a parameter other than the reduced pointer. -/
def argument (c : InlinedCall) : Var → Option Expr :=
  paramToArg (c.info.target.others c.info.decl.params) (c.info.target.others c.args.exprList)

/-- `substituteAndCopy` of the right side. -/
def newRhs (c : InlinedCall) : Expr :=
  c.info.rhsExpr.replaceRefs fun v => (c.argument v).getD (.varRef v)

/-- The expression of the new statement. -/
def replacement (c : InlinedCall) : Expr := .compound c.op (.varRef c.reducedVar) c.newRhs

end InlinedCall

/-- An expression statement that is a call to rewrite. -/
def inlinedCall (project : List FunctionDefinition) (e : Expr) : Option InlinedCall :=
  match e.skipCasts with
  | .call (some name) args => do
    let info ← findHelper project name
    let reducedVar ← info.target.variable args.exprList
    let op ← assignmentOp info.op
    return ⟨info, args, reducedVar, op⟩
  | _ => none

/-- Conditions are expression statements as well. -/
def inlineInStatement (inlineCall : Expr → Expr) : Stmt → Stmt
  | .expr e => .expr (inlineCall e)
  | .seq a b => .seq (inlineInStatement inlineCall a) (inlineInStatement inlineCall b)
  | .ite c a b =>
    .ite (inlineCall c) (inlineInStatement inlineCall a) (inlineInStatement inlineCall b)
  | .whileLoop c b => .whileLoop (inlineCall c) (inlineInStatement inlineCall b)
  | .forLoop i c u b =>
    .forLoop (inlineInStatement inlineCall i) (inlineCall c) u (inlineInStatement inlineCall b)
  | s => s

def inlineCall (project : List FunctionDefinition) (e : Expr) : Expr :=
  match inlinedCall project e with
  | some c => c.replacement
  | none => e

def inlineReductionHelpers (project : List FunctionDefinition) : List FunctionDefinition :=
  project.map fun f => f.withBody (inlineInStatement (inlineCall project) f.body)

end LoomX.ReductionHelper
