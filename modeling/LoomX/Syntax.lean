import Mathlib.Data.List.Basic

namespace LoomX

inductive CType
  | integer (bits : Nat) (signed : Bool)
  | floating
  | pointer
  | array
  | record
  deriving DecidableEq, Repr

def CType.int : CType := .integer 32 true

def CType.isPointerOrArray : CType → Bool
  | .pointer | .array => true
  | _ => false

inductive Storage
  | automatic
  | static
  | global
  deriving DecidableEq, Repr

/-- An `SgInitializedName`: `id` is the identity of the declaration, the rest is what the
analyses ask of it. -/
structure Var where
  id : Nat
  name : String
  type : CType
  storage : Storage
  deriving DecidableEq, Repr

def Var.isScalarVariable (v : Var) : Bool := !v.type.isPointerOrArray

def Var.isSharedScalarStorage (v : Var) : Bool := v.storage != .automatic

inductive IntKind
  | int
  | long
  | longLong
  | other
  deriving DecidableEq, Repr

inductive UnOp
  | minus
  | lnot
  | bnot
  deriving DecidableEq, Repr

inductive BinOp
  | add | sub | mul | div | mod
  | band | bor | bxor | shl | shr
  | lt | le | gt | ge | eq | ne
  | land | lor | comma
  deriving DecidableEq, Repr

/-- Expressions. A multi-dimensional reference `a[i][j]` is `arrRef (arrRef a i) j`, as in the
`SgPntrArrRefExp` chain; an argument list is the `SgExprListExp` chain `exprCons`/`exprNil`. -/
inductive Expr
  | intVal (kind : IntKind) (n : Int)
  | varRef (v : Var)
  | arrRef (base index : Expr)
  | deref (e : Expr)
  | member (e : Expr) (field : String)
  | addrOf (e : Expr)
  | cast (type : CType) (e : Expr)
  | unary (op : UnOp) (e : Expr)
  | binary (op : BinOp) (lhs rhs : Expr)
  | cond (test onTrue onFalse : Expr)
  | assign (lhs rhs : Expr)
  | compound (op : BinOp) (lhs rhs : Expr)
  | plusPlus (e : Expr)
  | minusMinus (e : Expr)
  | call (callee : Option String) (args : Expr)
  | exprNil
  | exprCons (head tail : Expr)
  deriving DecidableEq, Repr

inductive Stmt
  | empty
  | expr (e : Expr)
  | decl (v : Var) (init : Option Expr)
  | seq (first second : Stmt)
  | ite (test : Expr) (onTrue onFalse : Stmt)
  | whileLoop (test : Expr) (body : Stmt)
  | forLoop (init : Stmt) (test increment : Expr) (body : Stmt)
  | breakStmt
  | continueStmt
  | returnStmt (e : Option Expr)
  deriving DecidableEq, Repr

namespace Expr

/-- Every `SgVarRefExp` below the expression, as `NodeQuery::querySubTree` lists them. -/
def varRefs : Expr → List Var
  | intVal _ _ | exprNil => []
  | varRef v => [v]
  | deref e | member e _ | addrOf e | cast _ e | unary _ e | plusPlus e | minusMinus e
  | call _ e => e.varRefs
  | arrRef a b | binary _ a b | assign a b | compound _ a b | exprCons a b =>
    a.varRefs ++ b.varRefs
  | cond a b c => a.varRefs ++ b.varRefs ++ c.varRefs

def containsVar (e : Expr) (v : Var) : Bool := v ∈ e.varRefs

/-- Every `SgFunctionCallExp` below the expression: resolved callee name and argument list. -/
def calls : Expr → List (Option String × Expr)
  | intVal _ _ | exprNil | varRef _ => []
  | deref e | member e _ | addrOf e | cast _ e | unary _ e | plusPlus e | minusMinus e => e.calls
  | call f e => (f, e) :: e.calls
  | arrRef a b | binary _ a b | assign a b | compound _ a b | exprCons a b => a.calls ++ b.calls
  | cond a b c => a.calls ++ b.calls ++ c.calls

def skipCasts : Expr → Expr
  | cast _ e => e.skipCasts
  | e => e

def isValueExp : Expr → Bool
  | intVal _ _ => true
  | _ => false

/-- The elements of an argument list. -/
def exprList : Expr → List Expr
  | exprCons e es => e :: es.exprList
  | _ => []

end Expr

namespace Stmt

def varRefs : Stmt → List Var
  | empty | breakStmt | continueStmt | decl _ none | returnStmt none => []
  | expr e | decl _ (some e) | returnStmt (some e) => e.varRefs
  | seq s t => s.varRefs ++ t.varRefs
  | ite c s t => c.varRefs ++ s.varRefs ++ t.varRefs
  | whileLoop c s => c.varRefs ++ s.varRefs
  | forLoop i c u s => i.varRefs ++ c.varRefs ++ u.varRefs ++ s.varRefs

/-- Variables whose declaration lies in the statement. -/
def declared : Stmt → List Var
  | empty | breakStmt | continueStmt | returnStmt _ | expr _ => []
  | decl v _ => [v]
  | seq s t | ite _ s t => s.declared ++ t.declared
  | whileLoop _ s => s.declared
  | forLoop i _ _ s => i.declared ++ s.declared

def calls : Stmt → List (Option String × Expr)
  | empty | breakStmt | continueStmt | decl _ none | returnStmt none => []
  | expr e | decl _ (some e) | returnStmt (some e) => e.calls
  | seq s t => s.calls ++ t.calls
  | ite c s t => c.calls ++ s.calls ++ t.calls
  | whileLoop c s => c.calls ++ s.calls
  | forLoop i c u s => i.calls ++ c.calls ++ u.calls ++ s.calls

end Stmt

/-- An `SgForStatement`. -/
structure ForStatement where
  init : Stmt
  test : Expr
  increment : Expr
  body : Stmt
  deriving DecidableEq, Repr

namespace Stmt

def forStatements : Stmt → List ForStatement
  | empty | breakStmt | continueStmt | decl _ _ | returnStmt _ | expr _ => []
  | seq s t | ite _ s t => s.forStatements ++ t.forStatements
  | whileLoop _ s => s.forStatements
  | forLoop i c u s => ⟨i, c, u, s⟩ :: (i.forStatements ++ s.forStatements)

/-- Every `SgExprStatement`, in source order; the tests of `if`, `while` and `for` are ones. -/
def exprStatements : Stmt → List Expr
  | empty | breakStmt | continueStmt | decl _ _ | returnStmt _ => []
  | expr e => [e]
  | seq s t => s.exprStatements ++ t.exprStatements
  | ite c s t => c :: (s.exprStatements ++ t.exprStatements)
  | whileLoop c s => c :: s.exprStatements
  | forLoop i c _ s => i.exprStatements ++ c :: s.exprStatements

end Stmt

/-- The leftmost leaf of a comma list. -/
def Expr.commaHead : Expr → Expr
  | binary .comma l _ => l.commaHead
  | e => e

/-- `SageInterface::isAssignmentStatement`: both sides of an assignment. All compound assignments
count but the shifts. -/
def Expr.assignment : Expr → Option (Expr × Expr)
  | assign l r => some (l, r)
  | compound op l r =>
    if op ∈ [.add, .sub, .band, .bor, .mul, .div, .mod, .bxor] then some (l, r) else none
  | _ => none

/-- `SageInterface::getLoopIndexVariable`: the declared name, the left side of the
initialising assignment, or that of the first assignment of a comma list. -/
def getLoopIndexVariable (loop : ForStatement) : Option Var :=
  match loop.init with
  | .decl v _ => some v
  | .expr e =>
    match e.assignment with
    | some (lhs, _) =>
      match lhs.skipCasts with
      | .varRef v => some v
      | _ => none
    | none =>
      match e.commaHead with
      | .assign (.varRef v) _ => some v
      | _ => none
  | _ => none

def isDeclaredInsideLoopBody (v : Var) (loop : ForStatement) : Bool :=
  v ∈ loop.body.declared

end LoomX
