import LoomX.CheckedLong
import LoomX.TypedArithmetic
import Mathlib.Data.Int.GCD
import Mathlib.Tactic.Ring

namespace LoomX

/-- How the side-effect traversal meets a node: as a value, as the target of an assignment, or
as the base of an array reference. -/
inductive RefMode
  | value
  | target
  | base
  deriving DecidableEq, Repr

namespace Expr

def isPntrArrRef : Expr → Bool
  | arrRef _ _ => true
  | _ => false

/-- `getBaseVariable` of an array reference. -/
def arrayBase : Expr → Option Var
  | arrRef b _ => b.arrayBase
  | varRef v => some v
  | _ => none

/-- `collectSubscripts`: indices from the leftmost dimension to the rightmost. -/
def subscripts : Expr → List Expr
  | arrRef b i => b.subscripts ++ [i]
  | _ => []

/-- The read references of `collectReadWriteRefs`. An array reference is reported whole and its
subscripts are visited, its base is not; nothing is visited below a member selection except the
subscripts of the selected element. -/
def readRefs : RefMode → Expr → List Expr
  | _, intVal _ _ | _, exprNil => []
  | mode, varRef v => if mode = .value then [varRef v] else []
  | mode, arrRef b i =>
    (if mode = .value then [arrRef b i] else []) ++ b.readRefs .base ++ i.readRefs .value
  | .base, _ => []
  | mode, member e f =>
    (if mode = .value then [member e f] else []) ++ e.readRefs .base
  | _, deref e | _, addrOf e | _, cast _ e | _, unary _ e | _, call _ e => e.readRefs .value
  | _, binary _ a b | _, exprCons a b => a.readRefs .value ++ b.readRefs .value
  | _, cond a b c => a.readRefs .value ++ b.readRefs .value ++ c.readRefs .value
  | _, assign l r => l.readRefs .target ++ r.readRefs .value
  | _, compound _ l r => l.readRefs .value ++ r.readRefs .value
  | _, plusPlus e | _, minusMinus e => e.readRefs .value

/-- Operands of address-of arguments, which a pointer parameter may write. -/
def outArgs : Expr → List Expr
  | exprCons a rest =>
    (match a.skipCasts with
      | addrOf e => [e]
      | _ => []) ++ rest.outArgs
  | _ => []

def isShift : BinOp → Bool
  | .shl | .shr => true
  | _ => false

/-- The write references of `collectReadWriteRefs`. The shift assignments are not among the
assignments it knows. -/
def writeRefs : RefMode → Expr → List Expr
  | _, intVal _ _ | _, exprNil | _, varRef _ => []
  | _, arrRef b i => b.writeRefs .base ++ i.writeRefs .value
  | .base, _ => []
  | _, member e _ => e.writeRefs .base
  | _, deref e | _, addrOf e | _, cast _ e | _, unary _ e => e.writeRefs .value
  | _, call _ e => e.writeRefs .value ++ e.outArgs
  | _, binary _ a b | _, exprCons a b => a.writeRefs .value ++ b.writeRefs .value
  | _, cond a b c => a.writeRefs .value ++ b.writeRefs .value ++ c.writeRefs .value
  | _, assign l r => l.writeRefs .target ++ r.writeRefs .value ++ [l]
  | _, compound op l r =>
    l.writeRefs .value ++ r.writeRefs .value ++ if isShift op then [] else [l]
  | _, plusPlus e | _, minusMinus e => e.writeRefs .value ++ [e]

/-- The l-values that the evaluation of an expression assigns. -/
def stores : Expr → List Expr
  | intVal _ _ | exprNil | varRef _ => []
  | deref e | member e _ | addrOf e | cast _ e | unary _ e | call _ e => e.stores
  | arrRef a b | binary _ a b | exprCons a b => a.stores ++ b.stores
  | cond a b c => a.stores ++ b.stores ++ c.stores
  | assign l r | compound _ l r => l :: (l.stores ++ r.stores)
  | plusPlus e | minusMinus e => e :: e.stores

end Expr

namespace Stmt

def readRefs : Stmt → List Expr
  | empty | breakStmt | continueStmt | decl _ none | returnStmt none => []
  | expr e | decl _ (some e) | returnStmt (some e) => e.readRefs .value
  | seq s t => s.readRefs ++ t.readRefs
  | ite c s t => c.readRefs .value ++ s.readRefs ++ t.readRefs
  | whileLoop c s => c.readRefs .value ++ s.readRefs
  | forLoop i c u s => i.readRefs ++ c.readRefs .value ++ u.readRefs .value ++ s.readRefs

def writeRefs : Stmt → List Expr
  | empty | breakStmt | continueStmt | decl _ none | returnStmt none => []
  | expr e | decl _ (some e) | returnStmt (some e) => e.writeRefs .value
  | seq s t => s.writeRefs ++ t.writeRefs
  | ite c s t => c.writeRefs .value ++ s.writeRefs ++ t.writeRefs
  | whileLoop c s => c.writeRefs .value ++ s.writeRefs
  | forLoop i c u s => i.writeRefs ++ c.writeRefs .value ++ u.writeRefs .value ++ s.writeRefs

def stores : Stmt → List Expr
  | empty | breakStmt | continueStmt | decl _ none | returnStmt none => []
  | expr e | decl _ (some e) | returnStmt (some e) => e.stores
  | seq s t => s.stores ++ t.stores
  | ite c s t => c.stores ++ s.stores ++ t.stores
  | whileLoop c s => c.stores ++ s.stores
  | forLoop i c u s => i.stores ++ c.stores ++ u.stores ++ s.stores

end Stmt

structure ArrayReference where
  baseVariable : Option Var
  subscripts : List Expr
  isWrite : Bool
  deriving DecidableEq, Repr

def arrayReference (isWrite : Bool) (e : Expr) : Option ArrayReference :=
  if e.isPntrArrRef then some ⟨e.arrayBase, e.subscripts, isWrite⟩ else none

def collectArrayReferences (loop : ForStatement) : List ArrayReference :=
  loop.body.readRefs.filterMap (arrayReference false) ++
    loop.body.writeRefs.filterMap (arrayReference true)

def collectNestedLoopIndexVariables (loop : ForStatement) : List Var :=
  loop.body.forStatements.filterMap getLoopIndexVariable

/-- `extractAffineSubscript`: coefficient of the loop index and constant, which are `long long`
numbers. The other induction variables of the nest count as zero. Where the arithmetic of
`long long` overflows there is no form. -/
def extractAffineSubscript (knownLoopVars : List Var) (loopVar : Var) : Expr → Option (Int × Int)
  | .cast _ e => extractAffineSubscript knownLoopVars loopVar e
  | .varRef v =>
    if v = loopVar then some (1, 0) else if v ∈ knownLoopVars then some (0, 0) else none
  | .intVal .other _ => none
  | .intVal _ n => some (0, n)
  | .binary op a b => do
    let (c, k) ← extractAffineSubscript knownLoopVars loopVar a
    let (c', k') ← extractAffineSubscript knownLoopVars loopVar b
    match op with
    | .add => some (← checked (c + c'), ← checked (k + k'))
    | .sub => some (← checked (c - c'), ← checked (k - k'))
    | .mul =>
      if c = 0 ∧ c' = 0 then some (0, ← checked (k * k'))
      else if c = 0 ∧ c' = 1 ∧ k' = 0 then some (k, 0)
      else if c' = 0 ∧ c = 1 ∧ k = 0 then some (k', 0)
      else none
    | _ => none
  | .unary .minus e => do
    let (c, k) ← extractAffineSubscript knownLoopVars loopVar e
    some (← checked (-c), ← checked (-k))
  | _ => none

def gcdTest (c1 c2 delta : Int) : Bool :=
  if Int.gcd c1 c2 = 0 then delta = 0 else delta.tmod (Int.gcd c1 c2) = 0

def hasLoopCarriedDependence (knownLoopVars : List Var) (loopVar : Var) (sub1 sub2 : Expr) :
    Bool :=
  match extractAffineSubscript knownLoopVars loopVar sub1,
    extractAffineSubscript knownLoopVars loopVar sub2 with
  | some (c1, k1), some (c2, k2) =>
    -- the difference and the absolute values must be `long long` numbers
    if ¬InLong (k2 - k1) ∨ c1 = -2 ^ 63 ∨ c2 = -2 ^ 63 then true
    else if !gcdTest c1 c2 (k2 - k1) then false
    else if c1 = c2 ∧ k1 = k2 then false
    else true
  | _, _ => true

structure DependenceResult where
  hasLoopCarriedDependence : Bool
  description : String
  deriving DecidableEq, Repr

/-- The guard for outer loops: a write to an outer array that a nested index subscripts and the
index of this loop does not. -/
def nestedWrite (loop : ForStatement) (loopVar : Var) (nestedLoopVars : List Var)
    (ref : ArrayReference) : Option String :=
  match ref.baseVariable with
  | none => none
  | some base =>
    if ref.isWrite && !ref.subscripts.any (·.containsVar loopVar) &&
        ref.subscripts.any (fun sub => nestedLoopVars.any (sub.containsVar ·)) &&
        !isDeclaredInsideLoopBody base loop
    then some ("write indexed by nested loop variable on " ++ base.name) else none

/-- The comparison of two references of the pairwise scan. -/
def comparePair (knownLoopVars : List Var) (loopVar : Var) (r1 r2 : ArrayReference) :
    Option String :=
  match r1.baseVariable with
  | none => none
  | some base =>
    if !r1.isWrite && !r2.isWrite then none
    else if r1.baseVariable ≠ r2.baseVariable then none
    else if r1.subscripts.length ≠ r2.subscripts.length then some ("rank mismatch on " ++ base.name)
    else if (r1.subscripts.zip r2.subscripts).any
        (fun p => hasLoopCarriedDependence knownLoopVars loopVar p.1 p.2)
    then some ("loop-carried dependence detected on " ++ base.name)
    else none

def comparePairs (knownLoopVars : List Var) (loopVar : Var) : List ArrayReference → Option String
  | [] => none
  | r :: rest =>
    (rest.findSome? (comparePair knownLoopVars loopVar r)).or
      (comparePairs knownLoopVars loopVar rest)

/-- `LoopDependenceAnalysis::analyze`, in a nest whose enclosing loops have the given index
variables. -/
def dependenceAnalyze (enclosing : List Var) (loop : ForStatement) : DependenceResult :=
  match getLoopIndexVariable loop with
  | none => ⟨true, "could not determine loop index variable"⟩
  | some loopVar =>
    let nested := collectNestedLoopIndexVariables loop
    let known := enclosing ++ loopVar :: nested
    let refs := collectArrayReferences loop
    match refs.findSome? (nestedWrite loop loopVar nested) with
    | some description => ⟨true, description⟩
    | none =>
      match comparePairs known loopVar refs with
      | some description => ⟨true, description⟩
      | none => ⟨false, "no loop-carried dependence detected"⟩

theorem comparePairs_none {known : List Var} {loopVar : Var} {refs : List ArrayReference}
    (h : comparePairs known loopVar refs = none) {r1 r2 : ArrayReference} (h1 : r1 ∈ refs)
    (h2 : r2 ∈ refs) (hne : r1 ≠ r2) :
    comparePair known loopVar r1 r2 = none ∨ comparePair known loopVar r2 r1 = none := by
  induction refs with
  | nil => simp at h1
  | cons r rest ih =>
    obtain ⟨hfirst, hrest⟩ := Option.or_eq_none_iff.mp h
    have hr := fun x hx => List.findSome?_eq_none_iff.mp hfirst x hx
    rcases List.mem_cons.mp h1 with rfl | hmem1
    · rcases List.mem_cons.mp h2 with rfl | hmem2
      · exact absurd rfl hne
      · exact Or.inl (hr r2 hmem2)
    · rcases List.mem_cons.mp h2 with rfl | hmem2
      · exact Or.inr (hr r1 hmem1)
      · exact ih hrest hmem1 hmem2

theorem gcdTest_iff_dvd {c1 c2 delta : Int} :
    gcdTest c1 c2 delta = true ↔ (Int.gcd c1 c2 : Int) ∣ delta := by
  unfold gcdTest
  split
  next hzero => simp [hzero]
  next => simp [Int.dvd_iff_tmod_eq_zero]

theorem gcdTest_iff {c1 c2 delta : Int} :
    gcdTest c1 c2 delta = true ↔ ∃ x y, c1 * x - c2 * y = delta := by
  rw [gcdTest_iff_dvd]
  constructor
  · rintro ⟨m, rfl⟩
    refine ⟨Int.gcdA c1 c2 * m, -(Int.gcdB c1 c2 * m), ?_⟩
    rw [Int.gcd_eq_gcd_ab]
    ring
  · rintro ⟨x, y, rfl⟩
    exact Int.dvd_sub (Dvd.dvd.mul_right (Int.gcd_dvd_left ..) x)
      (Dvd.dvd.mul_right (Int.gcd_dvd_right ..) y)

/-- The type of a literal; that of a literal of some other kind is not known and counts as `int`. -/
def IntKind.type : IntKind → CType
  | int | other => .integer 32 true
  | long | longLong => .integer 64 true

/-- The type of a subscript built from literals, variables, casts, `+`, `-`, `*` and unary
minus. -/
def Expr.subscriptType : Expr → CType
  | .intVal kind _ => kind.type
  | .varRef v => v.type
  | .cast t _ => t
  | .unary _ e => e.subscriptType.promote
  | .binary _ a b => a.subscriptType.arithmetic b.subscriptType
  | _ => .integer 32 true

/-- The value of a subscript built from literals, variables, casts, `+`, `-`, `*` and unary
minus; none where signed arithmetic overflows. -/
def Expr.subscriptValue (ρ : Var → Int) : Expr → Option Int
  | .intVal _ n => some n
  | .varRef v => some (ρ v)
  | .cast t e => (e.subscriptValue ρ).map t.convert
  | .unary .minus e => do
    e.subscriptType.promote.result (-(← e.subscriptValue ρ))
  | .binary op a b => do
    let n ← a.subscriptValue ρ
    let m ← b.subscriptValue ρ
    match op with
    | .add => (a.subscriptType.arithmetic b.subscriptType).result (n + m)
    | .sub => (a.subscriptType.arithmetic b.subscriptType).result (n - m)
    | .mul => (a.subscriptType.arithmetic b.subscriptType).result (n * m)
    | _ => none
  | _ => none

/-- How the evaluation of an expression uses the object its value comes from. -/
inductive Use
  | read
  | write
  | update
  | address
  deriving DecidableEq, Repr

structure Access where
  base : Var
  subscripts : List Expr
  isWrite : Bool
  deriving DecidableEq, Repr

def accessesOf (base : Option Var) (subscripts : List Expr) (use : Use) : List Access :=
  match base with
  | none => []
  | some v =>
    match use with
    | .read => [⟨v, subscripts, false⟩]
    | .write => [⟨v, subscripts, true⟩]
    | .update => [⟨v, subscripts, false⟩, ⟨v, subscripts, true⟩]
    | .address => []

namespace Expr

/-- The array elements the evaluation of an expression reads and writes. -/
def accesses : Use → Expr → List Access
  | _, intVal _ _ | _, exprNil | _, varRef _ => []
  | use, arrRef b i =>
    accessesOf (arrRef b i).arrayBase (arrRef b i).subscripts use ++
      b.accesses (if b.isPntrArrRef then .address else use) ++ i.accesses .read
  | use, member e _ => e.accesses use
  | _, addrOf e => e.accesses .address
  | _, deref e | _, cast _ e | _, unary _ e | _, call _ e => e.accesses .read
  | _, binary _ a b | _, exprCons a b => a.accesses .read ++ b.accesses .read
  | _, cond a b c => a.accesses .read ++ b.accesses .read ++ c.accesses .read
  | _, assign l r => l.accesses .write ++ r.accesses .read
  | _, compound _ l r => l.accesses .update ++ r.accesses .read
  | _, plusPlus e | _, minusMinus e => e.accesses .update

end Expr

namespace Stmt

def accesses : Stmt → List Access
  | empty | breakStmt | continueStmt | decl _ none | returnStmt none => []
  | expr e | decl _ (some e) | returnStmt (some e) => e.accesses .read
  | seq s t => s.accesses ++ t.accesses
  | ite c s t => c.accesses .read ++ s.accesses ++ t.accesses
  | whileLoop c s => c.accesses .read ++ s.accesses
  | forLoop i c u s => i.accesses ++ c.accesses .read ++ u.accesses .read ++ s.accesses

end Stmt

end LoomX
