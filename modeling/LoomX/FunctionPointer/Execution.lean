import LoomX.Semantics

namespace LoomX.FunctionPointer

/-- The types the pass tells apart. -/
inductive SgType
  | integer (bits : Nat) (signed : Bool)
  | record
  | function
  | pointer (base : SgType)
  | array (base : SgType)
  | typedef (base : SgType)
  | modifier (base : SgType)
  deriving DecidableEq, Repr

namespace SgType

def stripTypedefType : SgType → SgType
  | typedef t => t.stripTypedefType
  | t => t

def findBaseType : SgType → SgType
  | pointer t | array t | typedef t | modifier t => t.findBaseType
  | t => t

def isArray : SgType → Bool
  | array _ => true
  | typedef t | modifier t => t.isArray
  | _ => false

/-- Conversion of an integer to the type. -/
def convert : SgType → Int → Int
  | integer bits signed, n => (CType.integer bits signed).convert n
  | typedef t, n | modifier t, n => t.convert n
  | _, n => n

end SgType

/-- An `SgInitializedName`; `id` is the identity of the declaration. -/
structure InitializedName where
  id : Nat
  name : String
  type : SgType
  storage : Storage
  deriving DecidableEq, Repr

/-- Expressions in which functions are values; the callee of a call is an expression. -/
inductive Expr
  | intVal (n : Int)
  | functionRef (name : String)
  | varRef (v : InitializedName)
  | arrRef (base index : Expr)
  | deref (e : Expr)
  | member (e : Expr) (field : String)
  | addrOf (e : Expr)
  | cast (type : SgType) (e : Expr)
  | unary (op : UnOp) (e : Expr)
  | binary (op : BinOp) (lhs rhs : Expr)
  | cond (test onTrue onFalse : Expr)
  | assign (lhs rhs : Expr)
  | compound (op : BinOp) (lhs rhs : Expr)
  | plusPlus (before : Bool) (e : Expr)
  | minusMinus (before : Bool) (e : Expr)
  | call (callee args : Expr)
  | exprNil
  | exprCons (head tail : Expr)
  deriving DecidableEq, Repr

inductive Stmt
  | empty
  | expr (e : Expr)
  | decl (v : InitializedName) (init : Option Expr)
  | block (body : Stmt)
  | seq (first second : Stmt)
  | ite (test : Expr) (onTrue onFalse : Stmt)
  | whileLoop (test : Expr) (body : Stmt)
  | forLoop (init : Stmt) (test increment : Expr) (body : Stmt)
  | breakStmt
  | continueStmt
  | returnStmt (e : Option Expr)
  deriving DecidableEq, Repr

/-- An object of one activation of a function (of activation 0 if it is static), and the place in
it. -/
structure Address where
  activation : Nat
  object : InitializedName
  offset : Int
  deriving DecidableEq, Repr

inductive Val
  | int (n : Int)
  | function (name : String)
  | pointer (a : Address)
  deriving DecidableEq, Repr

abbrev Memory := Address → Val

/-- An activation and the declarations visible in it, the innermost first. -/
structure Frame where
  activation : Nat
  visible : List InitializedName
  deriving DecidableEq, Repr

inductive Event
  | stored
  /-- The initialiser, evaluated from the memory `start`, has been stored. -/
  | initialised (v : InitializedName) (start : Memory)
  /-- The callee of a call designates a function. -/
  | called (callee : Expr) (f : Val)

structure Step where
  event : Event
  frame : Frame
  after : Memory

/-- The memory, the activations so far, and the steps of the run, the last one first. -/
structure State where
  mem : Memory
  count : Nat
  trace : List Step

/-- A computation; without a result when it is undefined or runs out of rounds. -/
def Run (α : Type) := State → Option α × State

namespace Run

variable {α β : Type}

instance : Monad Run where
  pure a s := (some a, s)
  bind x f s :=
    match x s with
    | (some a, s) => f a s
    | (none, s) => (none, s)

def lift (a : Option α) : Run α := fun s => (a, s)

def fail : Run α := lift none

def memory : Run Memory := fun s => (some s.mem, s)

def enter : Run Nat := fun s => (some (s.count + 1), { s with count := s.count + 1 })

def step (fr : Frame) (event : Event) (f : Memory → Memory) : Run Unit := fun s =>
  (some (), { s with mem := f s.mem, trace := ⟨event, fr, f s.mem⟩ :: s.trace })

theorem pure_apply (a : α) (s : State) : (pure a : Run α) s = (some a, s) := rfl

theorem bind_apply (x : Run α) (f : α → Run β) (s : State) :
    (x >>= f) s = match x s with
      | (some a, t) => f a t
      | (none, t) => (none, t) := rfl

theorem bind_of_eq {x : Run α} {s t : State} {a : α} (h : x s = (some a, t)) (f : α → Run β) :
    (x >>= f) s = f a t := by
  rw [bind_apply, h]

theorem exists_of_bind_eq_some {x : Run α} {f : α → Run β} {s t : State} {b : β}
    (h : (x >>= f) s = (some b, t)) : ∃ a s', x s = (some a, s') ∧ f a s' = (some b, t) := by
  rw [bind_apply] at h
  rcases hx : x s with ⟨_ | a, s'⟩
  · rw [hx] at h
    simp at h
  · rw [hx] at h
    exact ⟨a, s', rfl, h⟩

end Run

namespace Val

def truthy : Val → Bool
  | int n => n ≠ 0
  | _ => true

def convert (t : SgType) : Val → Val
  | int n => int (t.convert n)
  | v => v

/-- What a pointer designates; a function designator is the function itself. -/
def load (m : Memory) : Val → Option Val
  | pointer a => some (m a)
  | function f => some (function f)
  | int _ => none

def unary (op : UnOp) : Val → Option Val
  | int n => some (int (op.apply n))
  | _ => if op = .lnot then some (int 0) else none

def add (offset : Int) : Val → Option Val
  | pointer a => some (pointer { a with offset := a.offset + offset })
  | _ => none

def binary : BinOp → Val → Val → Option Val
  | .comma, _, w => some w
  | .land, v, w => some (int (if v.truthy && w.truthy then 1 else 0))
  | .lor, v, w => some (int (if v.truthy || w.truthy then 1 else 0))
  | .eq, v, w => some (int (if v = w then 1 else 0))
  | .ne, v, w => some (int (if v = w then 0 else 1))
  | op, int n, int m => some (int (op.apply n m))
  | .add, pointer a, int n => (pointer a).add n
  | .sub, pointer a, int n => (pointer a).add (-n)
  | _, _, _ => none

/-- Whether the right operand is evaluated, given the value of the left one. -/
def goesOn (op : BinOp) (v : Val) : Bool := op.goesOn (if v.truthy then 1 else 0)

end Val

namespace Frame

def object (fr : Frame) (v : InitializedName) : Address :=
  ⟨if v.storage = .automatic then fr.activation else 0, v, 0⟩

def find (fr : Frame) (name : String) : Option InitializedName :=
  fr.visible.find? (·.name == name)

/-- What the name of the variable means in the frame. -/
def lookup (fr : Frame) (v : InitializedName) : InitializedName := (fr.find v.name).getD v

def declare (fr : Frame) (v : InitializedName) : Frame := { fr with visible := v :: fr.visible }

def value (fr : Frame) (m : Memory) (v : InitializedName) : Val :=
  if v.type.isArray then .pointer (fr.object v) else m (fr.object v)

end Frame

/-- The offsets of members and the functions that the program does not define. -/
structure Platform where
  offset : String → Int
  external : String → List Val → Memory → Val × Memory

open Run

def load (p : Val) : Run Val := fun s => (p.load s.mem, s)

def store (fr : Frame) (p v : Val) : Run Unit :=
  match p with
  | .pointer a => step fr .stored fun m => Function.update m a v
  | _ => fail

def readName (fr : Frame) (v : InitializedName) : Run Val := fun s => (some (fr.value s.mem v), s)

/-- `++` and `--`: the operand's new value, or the old one. -/
def bump (fr : Frame) (op : BinOp) (before : Bool) (p : Val) : Run Val := do
  let old ← load p
  let new ← lift (Val.binary op old (.int 1))
  store fr p new
  pure (if before then new else old)

namespace Expr

mutual

/-- The value of an expression as its text reads in the frame, operands from left to right. -/
def eval (P : Platform) (call : String → List Val → Run Val) (fr : Frame) : Expr → Run Val
  | intVal n => pure (.int n)
  | functionRef f =>
    match fr.find f with
    | none => pure (.function f)
    | some v => readName fr v
  | varRef v => readName fr (fr.lookup v)
  | arrRef b i => do
    let p ← b.eval P call fr
    let k ← i.eval P call fr
    let a ← lift (Val.binary .add p k)
    load a
  | deref e => do
    let p ← e.eval P call fr
    load p
  | member e f => do
    let p ← e.locate P call fr
    let a ← lift (p.add (P.offset f))
    load a
  | addrOf e => e.locate P call fr
  | cast t e => do
    let v ← e.eval P call fr
    pure (v.convert t)
  | unary op e => do
    let v ← e.eval P call fr
    lift (v.unary op)
  | binary op a b => do
    let v ← a.eval P call fr
    if v.goesOn op then do
      let w ← b.eval P call fr
      lift (Val.binary op v w)
    else lift (Val.binary op v v)
  | cond c a b => do
    let v ← c.eval P call fr
    if v.truthy then a.eval P call fr else b.eval P call fr
  | assign l r => do
    let p ← l.locate P call fr
    let v ← r.eval P call fr
    store fr p v
    pure v
  | compound op l r => do
    let p ← l.locate P call fr
    let w ← r.eval P call fr
    let v ← load p
    let u ← lift (Val.binary op v w)
    store fr p u
    pure u
  | plusPlus before e => do
    let p ← e.locate P call fr
    bump fr .add before p
  | minusMinus before e => do
    let p ← e.locate P call fr
    bump fr .sub before p
  | .call f args => do
    let v ← f.eval P call fr
    step fr (.called f v) id
    let vs ← args.evalArgs P call fr
    match v with
    | .function name => call name vs
    | _ => fail
  | exprNil | exprCons _ _ => fail

/-- A pointer to what an l-value names; `&f` is the function `f`. -/
def locate (P : Platform) (call : String → List Val → Run Val) (fr : Frame) : Expr → Run Val
  | functionRef f =>
    match fr.find f with
    | none => pure (.function f)
    | some v => pure (.pointer (fr.object v))
  | varRef v => pure (.pointer (fr.object (fr.lookup v)))
  | arrRef b i => do
    let p ← b.eval P call fr
    let k ← i.eval P call fr
    lift (Val.binary .add p k)
  | deref e => e.eval P call fr
  | member e f => do
    let p ← e.locate P call fr
    lift (p.add (P.offset f))
  | cast _ e => e.locate P call fr
  | _ => fail

def evalArgs (P : Platform) (call : String → List Val → Run Val) (fr : Frame) :
    Expr → Run (List Val)
  | exprNil => pure []
  | exprCons e es => do
    let v ← e.eval P call fr
    let vs ← es.evalArgs P call fr
    pure (v :: vs)
  | _ => fail

end

end Expr

inductive Outcome
  | normal
  | broken
  | continued
  | returned (v : Val)

/-- A loop, at most `fuel` rounds of it. -/
def runLoop (test : Run Val) (body : Run Outcome) (increment : Run Unit) : Nat → Run Outcome
  | 0 => fail
  | fuel + 1 => do
    let v ← test
    if v.truthy then do
      let o ← body
      match o with
      | .broken => pure .normal
      | .returned w => pure (.returned w)
      | .normal | .continued => do
        increment
        runLoop test body increment fuel
    else pure .normal

/-- The initialiser of a declaration; the declared name is visible in it. -/
def initialise (P : Platform) (call : String → List Val → Run Val) (fr : Frame)
    (v : InitializedName) (init : Expr) : Run Unit := do
  let start ← memory
  let x ← init.eval P call (fr.declare v)
  step (fr.declare v) (.initialised v start) fun m => Function.update m (fr.object v) x

namespace Stmt

/-- The frame after the statement. -/
def opened : Stmt → Frame → Frame
  | decl v _, fr => fr.declare v
  | seq a b, fr => b.opened (a.opened fr)
  | _, fr => fr

def exec (P : Platform) (call : String → List Val → Run Val) (fuel : Nat) :
    Stmt → Frame → Run Outcome
  | empty, _ | decl _ none, _ => pure .normal
  | expr e, fr => do
    let _ ← e.eval P call fr
    pure .normal
  | decl v (some e), fr =>
    if v.storage = .automatic then do
      initialise P call fr v e
      pure .normal
    else pure .normal
  | block b, fr => b.exec P call fuel fr
  | seq a b, fr => do
    let o ← a.exec P call fuel fr
    match o with
    | .normal => b.exec P call fuel (a.opened fr)
    | o => pure o
  | ite c a b, fr => do
    let v ← c.eval P call fr
    if v.truthy then a.exec P call fuel fr else b.exec P call fuel fr
  | whileLoop c b, fr => runLoop (c.eval P call fr) (b.exec P call fuel fr) (pure ()) fuel
  | forLoop i c u b, fr => do
    let _ ← i.exec P call fuel fr
    let inner := i.opened fr
    runLoop (c.eval P call inner) (b.exec P call fuel inner)
      (do let _ ← u.eval P call inner; pure ()) fuel
  | breakStmt, _ => pure .broken
  | continueStmt, _ => pure .continued
  | returnStmt none, _ => pure (.returned (.int 0))
  | returnStmt (some e), fr => do
    let v ← e.eval P call fr
    pure (.returned v)

/-- Every declaration in the statement, in source order. -/
def declarations : Stmt → List (InitializedName × Option Expr)
  | decl v init => [(v, init)]
  | block b | whileLoop _ b => b.declarations
  | seq a b | ite _ a b => a.declarations ++ b.declarations
  | forLoop i _ _ b => i.declarations ++ b.declarations
  | _ => []

end Stmt

structure FunctionDefinition where
  name : String
  params : List InitializedName
  body : Stmt

/-- The declarations outside of functions, and the functions. -/
structure Program where
  globals : List (InitializedName × Option Expr)
  functions : List FunctionDefinition
  declared_once : ((globals ++ functions.flatMap (·.body.declarations)).map Prod.fst).Nodup

namespace Program

def declarations (prog : Program) : List (InitializedName × Option Expr) :=
  prog.globals ++ prog.functions.flatMap (·.body.declarations)

def fileScope (prog : Program) : List InitializedName := (prog.globals.map Prod.fst).reverse

end Program

/-- The arguments become the values of the parameters. -/
def passArguments (fr : Frame) : List (InitializedName × Val) → Run Unit
  | [] => pure ()
  | (p, v) :: rest => do
    step fr .stored fun m => Function.update m (fr.object p) v
    passArguments fr rest

/-- A function that the program does not define. -/
def callExternal (P : Platform) (name : String) (args : List Val) : Run Val := do
  let m ← memory
  step ⟨0, []⟩ .stored fun _ => (P.external name args m).2
  pure (P.external name args m).1

/-- A call, with at most `fuel` nested calls and rounds of a loop. -/
def Program.call (P : Platform) (prog : Program) : Nat → String → List Val → Run Val
  | 0, _, _ => fail
  | fuel + 1, name, args =>
    match prog.functions.find? (·.name == name) with
    | none => callExternal P name args
    | some f => do
      let k ← enter
      let fr : Frame := ⟨k, f.params.reverse ++ prog.fileScope⟩
      passArguments fr (f.params.zip args)
      let o ← f.body.exec P (prog.call P fuel) fuel fr
      match o with
      | .returned v => pure v
      | _ => pure (.int 0)

/-- The initialisers of static objects. -/
def initialiseStatics (P : Platform) (call : String → List Val → Run Val) (fr : Frame) :
    List (InitializedName × Option Expr) → Run Unit
  | [] => pure ()
  | (v, some e) :: rest =>
    if v.storage = .automatic then initialiseStatics P call fr rest
    else do
      initialise P call fr v e
      initialiseStatics P call fr rest
  | (_, none) :: rest => initialiseStatics P call fr rest

/-- A whole run: static objects first, then the entry function. -/
def Program.run (P : Platform) (prog : Program) (fuel : Nat) (entry : String) (args : List Val) :
    Run Val := do
  initialiseStatics P (prog.call P fuel) ⟨0, prog.fileScope⟩ prog.declarations
  prog.call P fuel entry args

end LoomX.FunctionPointer
