import LoomX.ArrayAccess

namespace LoomX

/-- Variables whose address is not taken, memory cells, and the cells that the function itself has
stored so far, each with the l-value that named it. -/
structure State where
  vars : Var → Int
  mem : Int → Int
  log : List (Expr × Int)

namespace State

def setVar (s : State) (v : Var) (n : Int) : State :=
  { s with vars := fun w => if w = v then n else s.vars w }

def setCell (s : State) (target : Expr) (a n : Int) : State :=
  { s with mem := fun b => if b = a then n else s.mem b, log := (target, a) :: s.log }

def withLog (s : State) (log : List (Expr × Int)) : State := { s with log := log }

@[simp] theorem setVar_mem (s : State) (v : Var) (n : Int) : (s.setVar v n).mem = s.mem := rfl

@[simp] theorem setVar_log (s : State) (v : Var) (n : Int) : (s.setVar v n).log = s.log := rfl

@[simp] theorem setVar_self (s : State) (v : Var) (n : Int) : (s.setVar v n).vars v = n := by
  simp [setVar]

@[simp] theorem setVar_setVar (s : State) (v : Var) (n m : Int) :
    (s.setVar v n).setVar v m = s.setVar v m := by
  simp only [setVar]
  congr 1
  funext w
  split <;> rfl

theorem setVar_of_ne {v w : Var} (h : w ≠ v) (s : State) (n : Int) :
    (s.setVar v n).vars w = s.vars w := by
  simp [setVar, h]

theorem setVar_comm {v w : Var} (h : w ≠ v) (s : State) (n m : Int) :
    (s.setVar v n).setVar w m = (s.setVar w m).setVar v n := by
  simp only [setVar]
  congr 1
  funext u
  by_cases hu : u = w
  · simp [hu, h]
  · simp [hu]

@[simp] theorem setVar_vars_self (s : State) (v : Var) : s.setVar v (s.vars v) = s := by
  obtain ⟨vars, mem, log⟩ := s
  simp only [setVar]
  congr 1
  funext w
  split
  next h => rw [h]
  next => rfl

end State

/-- What the language leaves to the implementation and the rest of the program: the addresses of
arrays and records, the offsets of members, which `++` and `--` stand before their operand, and
the called functions. -/
structure Platform where
  base : Var → Int
  offset : String → Int
  isPrefixed : Expr → Bool
  call : Option String → List Int → State → Int × State

inductive Loc
  | var (v : Var)
  | cell (a : Int)
  deriving DecidableEq, Repr

def CType.inMemory : CType → Bool
  | array | record => true
  | _ => false

def UnOp.apply : UnOp → Int → Int
  | minus, n => -n
  | lnot, n => if n = 0 then 1 else 0
  | bnot, n => -n - 1

def BinOp.apply : BinOp → Int → Int → Int
  | add, a, b => a + b
  | sub, a, b => a - b
  | mul, a, b => a * b
  | div, a, b => a.tdiv b
  | mod, a, b => a.tmod b
  | band, a, b => a.land b
  | bor, a, b => a.lor b
  | bxor, a, b => a.xor b
  | shl, a, b => a * 2 ^ b.toNat
  | shr, a, b => a / 2 ^ b.toNat
  | lt, a, b => if a < b then 1 else 0
  | le, a, b => if a ≤ b then 1 else 0
  | gt, a, b => if b < a then 1 else 0
  | ge, a, b => if b ≤ a then 1 else 0
  | eq, a, b => if a = b then 1 else 0
  | ne, a, b => if a = b then 0 else 1
  | land, a, b => if a = 0 ∨ b = 0 then 0 else 1
  | lor, a, b => if a = 0 ∧ b = 0 then 0 else 1
  | comma, _, b => b

/-- Whether the right operand is evaluated, given the value of the left one. -/
def BinOp.goesOn : BinOp → Int → Bool
  | land, a => a ≠ 0
  | lor, a => a = 0
  | _, _ => true

def State.read (P : Platform) (s : State) : Loc → Int
  | .var v => if v.type.inMemory then P.base v else s.vars v
  | .cell a => s.mem a

def State.write (s : State) (target : Expr) : Loc → Int → State
  | .var v, n => s.setVar v n
  | .cell a, n => s.setCell target a n

def Loc.address (P : Platform) : Loc → Int
  | .var v => P.base v
  | .cell a => a

namespace Expr

mutual

/-- The value of an expression over the integers, operands from left to right. -/
def eval (P : Platform) : Expr → State → Int × State
  | intVal _ n, s => (n, s)
  | varRef v, s => (s.read P (.var v), s)
  | arrRef b i, s =>
    let (a, s) := b.eval P s
    let (k, s) := i.eval P s
    (s.mem (a + k), s)
  | deref e, s =>
    let (a, s) := e.eval P s
    (s.mem a, s)
  | member e f, s =>
    let (l, s) := e.locate P s
    (s.mem (l.address P + P.offset f), s)
  | addrOf e, s =>
    let (l, s) := e.locate P s
    (l.address P, s)
  | cast t e, s =>
    let (n, s) := e.eval P s
    (t.convert n, s)
  | unary op e, s =>
    let (n, s) := e.eval P s
    (op.apply n, s)
  | binary op a b, s =>
    let (n, s) := a.eval P s
    if op.goesOn n then
      let (m, s) := b.eval P s
      (op.apply n m, s)
    else (op.apply n n, s)
  | cond c a b, s =>
    let (n, s) := c.eval P s
    if n ≠ 0 then a.eval P s else b.eval P s
  | assign l r, s =>
    let (loc, s) := l.locate P s
    let (n, s) := r.eval P s
    (n, s.write l loc n)
  | compound op l r, s =>
    let (loc, s) := l.locate P s
    let (n, s) := r.eval P s
    let m := op.apply (s.read P loc) n
    (m, s.write l loc m)
  | plusPlus e, s =>
    let (loc, s) := e.locate P s
    let n := s.read P loc
    (if P.isPrefixed (plusPlus e) then n + 1 else n, s.write e loc (n + 1))
  | minusMinus e, s =>
    let (loc, s) := e.locate P s
    let n := s.read P loc
    (if P.isPrefixed (minusMinus e) then n - 1 else n, s.write e loc (n - 1))
  | call f args, s =>
    let (ns, s) := args.evalArgs P s
    ((P.call f ns s).1, (P.call f ns s).2.withLog s.log)
  | exprNil, s | exprCons _ _, s => (0, s)

/-- The location an l-value names; a row of a multi-dimensional array is a pointer. -/
def locate (P : Platform) : Expr → State → Loc × State
  | varRef v, s => (if v.type.inMemory then .cell (P.base v) else .var v, s)
  | arrRef b i, s =>
    let (a, s) := b.eval P s
    let (k, s) := i.eval P s
    (.cell (a + k), s)
  | deref e, s =>
    let (a, s) := e.eval P s
    (.cell a, s)
  | member e f, s =>
    let (l, s) := e.locate P s
    (.cell (l.address P + P.offset f), s)
  | cast _ e, s => e.locate P s
  | _, s => (.cell 0, s)

def evalArgs (P : Platform) : Expr → State → List Int × State
  | exprCons e es, s =>
    let (n, s) := e.eval P s
    let (ns, s) := es.evalArgs P s
    (n :: ns, s)
  | _, s => ([], s)

end

end Expr

inductive Outcome
  | normal
  | broken
  | continued
  | returned
  deriving DecidableEq, Repr

/-- A loop, at most `fuel` rounds of it. -/
def runLoop (test : State → Int × State) (body : State → Option (Outcome × State))
    (step : State → State) : Nat → State → Option (Outcome × State)
  | 0, _ => none
  | fuel + 1, s =>
    let (n, s) := test s
    if n ≠ 0 then
      match body s with
      | none => none
      | some (.broken, s) => some (.normal, s)
      | some (.returned, s) => some (.returned, s)
      | some (.normal, s) | some (.continued, s) => runLoop test body step fuel (step s)
    else some (.normal, s)

/-- Runs a statement; `none` when some loop does not end within `fuel` rounds. -/
def Stmt.exec (P : Platform) (fuel : Nat) : Stmt → State → Option (Outcome × State)
  | .empty, s => some (.normal, s)
  | .expr e, s => some (.normal, (e.eval P s).2)
  | .decl v none, s => some (.normal, s.setVar v 0)
  | .decl v (some e), s => some (.normal, (e.eval P s).2.setVar v (e.eval P s).1)
  | .seq a b, s =>
    match a.exec P fuel s with
    | some (.normal, s) => b.exec P fuel s
    | result => result
  | .ite c a b, s =>
    let (n, s) := c.eval P s
    if n ≠ 0 then a.exec P fuel s else b.exec P fuel s
  | .whileLoop c b, s => runLoop (c.eval P) (b.exec P fuel) id fuel s
  | .forLoop i c u b, s =>
    match i.exec P fuel s with
    | some (.normal, s) => runLoop (c.eval P) (b.exec P fuel) (fun s => (u.eval P s).2) fuel s
    | result => result
  | .breakStmt, s => some (.broken, s)
  | .continueStmt, s => some (.continued, s)
  | .returnStmt none, s => some (.returned, s)
  | .returnStmt (some e), s => some (.returned, (e.eval P s).2)

end LoomX
