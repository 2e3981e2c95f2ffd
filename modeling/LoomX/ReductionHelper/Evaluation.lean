import LoomX.Semantics

namespace LoomX.ReductionHelper

/-- What an address lies in: the memory of a variable, or anything else. -/
inductive Block
  | variable (v : Var)
  | other (n : Nat)
  deriving DecidableEq, Repr

structure Address where
  block : Block
  offset : Int
  deriving DecidableEq, Repr

/-- A value with its type; those of floating-point types are left to the platform. -/
inductive Value (F : Type)
  | integer (bits : Nat) (signed : Bool) (n : Int)
  | floating (x : F)
  | pointer (a : Address)
  | undefined
  deriving DecidableEq, Repr

/-- Where an object lies: variables of scalar type whose address is not taken are in registers. -/
inductive Loc
  | register (v : Var)
  | cell (a : Address)
  deriving DecidableEq, Repr

structure State (F : Type) where
  register : Var → Value F
  mem : Address → Value F

/-- What the language leaves to the implementation and the rest of the program: the variables
that are in memory, the offsets of members, which `++` and `--` stand before their operand,
floating-point arithmetic, and the called functions. -/
structure Platform (F : Type) where
  inMemory : Var → Bool
  offset : String → Int
  isPrefixed : Expr → Bool
  ofInt : Int → F
  toInt : F → Int
  negate : F → F
  arithmetic : BinOp → F → F → F
  compare : BinOp → F → F → Bool
  call : Option String → List (Value F) → State F → Value F × State F

def isComparison : BinOp → Bool
  | .lt | .le | .gt | .ge | .eq | .ne => true
  | _ => false

/-- The integer promotions. -/
def promote (bits : Nat) (signed : Bool) : Nat × Bool :=
  if bits < 32 then (32, true) else (bits, signed)

/-- The common type of the usual arithmetic conversions. -/
def commonType (s t : Nat × Bool) : Nat × Bool :=
  if s.1 < t.1 then t else if t.1 < s.1 then s else (s.1, s.2 && t.2)

variable {F : Type}

namespace Value

def ofBool (b : Bool) : Value F := integer 32 true (if b then 1 else 0)

/-- The value of an integer type that an integer is converted to. -/
def ofInteger (t : Nat × Bool) (n : Int) : Value F :=
  integer t.1 t.2 ((CType.integer t.1 t.2).convert n)

def constant : IntKind → Int → Value F
  | .long, n | .longLong, n => integer 64 true n
  | .int, n | .other, n => integer 32 true n

def convert (P : Platform F) : CType → Value F → Value F
  | .integer bits signed, integer _ _ n => ofInteger (bits, signed) n
  | .integer bits signed, floating x => ofInteger (bits, signed) (P.toInt x)
  | .floating, integer _ _ n => floating (P.ofInt n)
  | _, v => v

@[simp] theorem convert_pointer (P : Platform F) (t : CType) (a : Address) :
    (pointer a : Value F).convert P t = pointer a := by
  cases t <;> rfl

/-- What an object that holds `old` holds after `v` is stored: it keeps its type. -/
def storedOver (P : Platform F) : Value F → Value F → Value F
  | integer bits signed _, v => v.convert P (.integer bits signed)
  | floating _, v => v.convert P .floating
  | _, v => v

def truthy (P : Platform F) : Value F → Bool
  | integer _ _ n => n ≠ 0
  | floating x => P.compare .ne x (P.ofInt 0)
  | pointer _ => true
  | undefined => false

def unary (P : Platform F) : UnOp → Value F → Value F
  | .lnot, v => ofBool !v.truthy P
  | op, integer bits signed n => ofInteger (promote bits signed) (op.apply n)
  | .minus, floating x => floating (P.negate x)
  | _, _ => undefined

def add (n : Int) : Value F → Value F
  | pointer a => pointer { a with offset := a.offset + n }
  | _ => undefined

/-- An operation on integers of one type. -/
def integerOperation (op : BinOp) (t : Nat × Bool) (n m : Int) : Value F :=
  let n := (CType.integer t.1 t.2).convert n
  let m := (CType.integer t.1 t.2).convert m
  if isComparison op then integer 32 true (op.apply n m) else ofInteger t (op.apply n m)

def floatingOperation (P : Platform F) (op : BinOp) (x y : F) : Value F :=
  if isComparison op then ofBool (P.compare op x y) else floating (P.arithmetic op x y)

/-- A binary operation, after the usual arithmetic conversions. -/
def binary (P : Platform F) : BinOp → Value F → Value F → Value F
  | .comma, _, w => w
  | .land, v, w => ofBool (v.truthy P && w.truthy P)
  | .lor, v, w => ofBool (v.truthy P || w.truthy P)
  | .shl, integer b s n, integer _ _ m => ofInteger (promote b s) (BinOp.shl.apply n m)
  | .shr, integer b s n, integer _ _ m => ofInteger (promote b s) (BinOp.shr.apply n m)
  | op, integer b s n, integer b' s' m =>
    integerOperation op (commonType (promote b s) (promote b' s')) n m
  | op, integer _ _ n, floating y => floatingOperation P op (P.ofInt n) y
  | op, floating x, integer _ _ m => floatingOperation P op x (P.ofInt m)
  | op, floating x, floating y => floatingOperation P op x y
  | .add, pointer a, integer _ _ n => (pointer a).add n
  | .add, integer _ _ n, pointer a => (pointer a).add n
  | .sub, pointer a, integer _ _ n => (pointer a).add (-n)
  | .eq, pointer a, pointer b => ofBool (a = b)
  | .ne, pointer a, pointer b => ofBool (a ≠ b)
  | _, _, _ => undefined

/-- Whether the right operand is evaluated, given the value of the left one. -/
def goesOn (P : Platform F) (op : BinOp) (v : Value F) : Bool :=
  op.goesOn (if v.truthy P then 1 else 0)

end Value

def Platform.locate (P : Platform F) (v : Var) : Loc :=
  if P.inMemory v then .cell ⟨.variable v, 0⟩ else .register v

namespace State

def load (s : State F) : Loc → Value F
  | .register v => s.register v
  | .cell a => s.mem a

def put (s : State F) : Loc → Value F → State F
  | .register v, x => { s with register := Function.update s.register v x }
  | .cell a, x => { s with mem := Function.update s.mem a x }

end State

/-- What an expression designates: a value, an object, an array, or the values of a list. -/
inductive Result (F : Type)
  | value (v : Value F)
  | object (l : Loc)
  | array (a : Address)
  | values (vs : List (Value F))

namespace Result

/-- The value of the expression; an array is the pointer to its first element. -/
def read (s : State F) : Result F → Value F
  | value v => v
  | object l => s.load l
  | array a => .pointer a
  | values _ => .undefined

def addressOf : Result F → Value F
  | object (.cell a) | array a => .pointer a
  | _ => .undefined

def list : Result F → List (Value F)
  | values vs => vs
  | _ => []

/-- What a pointer points to. -/
def pointee : Value F → Result F
  | .pointer a => object (.cell a)
  | _ => value .undefined

end Result

/-- Assignment: the value of the expression, and the state after it. -/
def assign (P : Platform F) (r : Result F) (v : Value F) (s : State F) : Value F × State F :=
  match r with
  | .object l => ((s.load l).storedOver P v, s.put l ((s.load l).storedOver P v))
  | _ => (.undefined, s)

/-- What the expression designates and the state after it, operands from left to right. -/
def eval (P : Platform F) : Expr → State F → Result F × State F
  | .intVal k n, s => (.value (.constant k n), s)
  | .varRef v, s =>
    (if v.type = .array then .array ⟨.variable v, 0⟩ else .object (P.locate v), s)
  | .arrRef b i, s =>
    let (base, s₁) := eval P b s
    let (index, s₂) := eval P i s₁
    (.pointee (.binary P .add (base.read s₁) (index.read s₂)), s₂)
  | .deref e, s =>
    let (r, s₁) := eval P e s
    (.pointee (r.read s₁), s₁)
  | .member e f, s =>
    let (r, s₁) := eval P e s
    (.pointee (r.addressOf.add (P.offset f)), s₁)
  | .addrOf e, s =>
    let (r, s₁) := eval P e s
    (.value r.addressOf, s₁)
  | .cast t e, s =>
    let (r, s₁) := eval P e s
    (.value ((r.read s₁).convert P t), s₁)
  | .unary op e, s =>
    let (r, s₁) := eval P e s
    (.value ((r.read s₁).unary P op), s₁)
  | .binary op a b, s =>
    let (ra, s₁) := eval P a s
    let v := ra.read s₁
    if v.goesOn P op then
      let (rb, s₂) := eval P b s₁
      (.value (.binary P op v (rb.read s₂)), s₂)
    else (.value (.binary P op v v), s₁)
  | .cond c a b, s =>
    let (rc, s₁) := eval P c s
    let (r, s₂) := if (rc.read s₁).truthy P then eval P a s₁ else eval P b s₁
    (.value (r.read s₂), s₂)
  | .assign l r, s =>
    let (target, s₁) := eval P l s
    let (source, s₂) := eval P r s₁
    let (v, s₃) := assign P target (source.read s₂) s₂
    (.value v, s₃)
  | .compound op l r, s =>
    let (target, s₁) := eval P l s
    let (source, s₂) := eval P r s₁
    let (v, s₃) := assign P target (.binary P op (target.read s₂) (source.read s₂)) s₂
    (.value v, s₃)
  | .plusPlus e, s => bump (.plusPlus e) .add (eval P e s)
  | .minusMinus e, s => bump (.minusMinus e) .sub (eval P e s)
  | .call f args, s =>
    let (r, s₁) := eval P args s
    let (v, s₂) := P.call f r.list s₁
    (.value v, s₂)
  | .exprNil, s => (.values [], s)
  | .exprCons e es, s =>
    let (r, s₁) := eval P e s
    let (rs, s₂) := eval P es s₁
    (.values (r.read s₁ :: rs.list), s₂)
where
  /-- `++` and `--`: the operand's new value, or the old one. -/
  bump (e : Expr) (op : BinOp) : Result F × State F → Result F × State F
    | (target, s) =>
      let old := target.read s
      let (new, s₁) := assign P target (.binary P op old (.integer 32 true 1)) s
      (.value (if P.isPrefixed e then new else old), s₁)

/-- What `l op= r` stores in the object `l`, after the evaluation of `r`. -/
def stored (P : Platform F) (op : BinOp) (l : Loc) (r : Result F × State F) : Value F :=
  (r.2.load l).storedOver P (.binary P op (r.2.load l) (r.1.read r.2))

section

variable {P : Platform F}

theorem eval_scalar {v : Var} (hv : v.type.inMemory = false) (s : State F) :
    eval P (.varRef v) s = (.object (P.locate v), s) := by
  have hne : v.type ≠ .array := by
    intro h
    rw [h] at hv
    exact absurd hv (by decide)
  rw [eval, if_neg hne]

theorem state_skipCasts (P : Platform F) (e : Expr) (s : State F) :
    (eval P e s).2 = (eval P e.skipCasts s).2 := by
  induction e with
  | cast t e ih => exact ih
  | _ => rfl

/-- Casts leave pointers as they are. -/
theorem read_of_skipCasts {e : Expr} {s : State F} {a : Address}
    (h : (eval P e.skipCasts s).1.read (eval P e.skipCasts s).2 = .pointer a) :
    (eval P e s).1.read (eval P e s).2 = .pointer a := by
  induction e with
  | cast t e ih =>
    have hread := ih h
    rw [← Value.convert_pointer P t a, ← hread]
    rfl
  | _ => exact h

/-- The state after `l op= r`. -/
theorem state_compound {l : Expr} {loc : Loc} {s : State F} (hl : eval P l s = (.object loc, s))
    (op : BinOp) (r : Expr) : (eval P (.compound op l r) s).2 =
      (eval P r s).2.put loc (stored P op loc (eval P r s)) := by
  simp only [eval, hl]
  rfl

/-- The state after `l = r`. -/
theorem state_assign {l r : Expr} {loc : Loc} {s : State F} (hl : eval P l s = (.object loc, s))
    (hr : (eval P r s).2 = s) : (eval P (.assign l r) s).2 =
      s.put loc ((s.load loc).storedOver P ((eval P r s).1.read s)) := by
  simp only [eval, hl, hr]
  rfl

end

/-- A variable gets a value, converted to its type. -/
def initialise (P : Platform F) (v : Var) (x : Value F) (s : State F) : State F :=
  s.put (P.locate v) (x.convert P v.type)

end LoomX.ReductionHelper
