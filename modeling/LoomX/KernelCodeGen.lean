import LoomX.HeaderRun

namespace LoomX

/-- Arithmetic the generator emits around bound and step expressions of the source loops. -/
inductive CExpr
  | operand (e : Expr)
  | lit (n : Int)
  | loo
  | add (a b : CExpr)
  | sub (a b : CExpr)
  | mul (a b : CExpr)
  | div (a b : CExpr)
  | mod (a b : CExpr)
  deriving DecidableEq, Repr

namespace CExpr

/-- `__loo` is a `long`. -/
def type (v : Valuation) : CExpr → CType
  | operand e => v.type e
  | lit _ => .int
  | loo => .integer 64 true
  | add a b | sub a b | mul a b | div a b | mod a b => (a.type v).arithmetic (b.type v)

/-- C evaluation at a value of `__loo`. -/
def eval (v : Valuation) (n : Int) : CExpr → Option Int
  | operand e => some (v.val e)
  | lit k => some k
  | loo => some n
  | add a b => do
    BinOp.add.typed ((a.type v).arithmetic (b.type v)) (← a.eval v n) (← b.eval v n)
  | sub a b => do
    BinOp.sub.typed ((a.type v).arithmetic (b.type v)) (← a.eval v n) (← b.eval v n)
  | mul a b => do
    BinOp.mul.typed ((a.type v).arithmetic (b.type v)) (← a.eval v n) (← b.eval v n)
  | div a b => do
    BinOp.div.typed ((a.type v).arithmetic (b.type v)) (← a.eval v n) (← b.eval v n)
  | mod a b => do
    BinOp.mod.typed ((a.type v).arithmetic (b.type v)) (← a.eval v n) (← b.eval v n)

/-- The value over the integers: division truncates and must not be by zero. -/
def integerValue (v : Valuation) (n : Int) : CExpr → Option Int
  | operand e => some (v.val e)
  | lit k => some k
  | loo => some n
  | add a b => do pure ((← a.integerValue v n) + (← b.integerValue v n))
  | sub a b => do pure ((← a.integerValue v n) - (← b.integerValue v n))
  | mul a b => do pure ((← a.integerValue v n) * (← b.integerValue v n))
  | div a b => do
    let x ← a.integerValue v n
    let y ← b.integerValue v n
    if y = 0 then none else pure (x.tdiv y)
  | mod a b => do
    let x ← a.integerValue v n
    let y ← b.integerValue v n
    if y = 0 then none else pure (x.tmod y)

/-- Every result is in the range of its type, and so are the operands of divisions. -/
def Fits (v : Valuation) (n : Int) : CExpr → Prop
  | operand _ | lit _ | loo => True
  | add a b => a.Fits v n ∧ b.Fits v n ∧
      ∀ k ∈ (add a b).integerValue v n, ((a.type v).arithmetic (b.type v)).contains k
  | sub a b => a.Fits v n ∧ b.Fits v n ∧
      ∀ k ∈ (sub a b).integerValue v n, ((a.type v).arithmetic (b.type v)).contains k
  | mul a b => a.Fits v n ∧ b.Fits v n ∧
      ∀ k ∈ (mul a b).integerValue v n, ((a.type v).arithmetic (b.type v)).contains k
  | div a b | mod a b => a.Fits v n ∧ b.Fits v n ∧
      ∀ x ∈ a.integerValue v n, ∀ y ∈ b.integerValue v n,
        let t := (a.type v).arithmetic (b.type v)
        t.contains x ∧ t.contains y ∧ t.contains (x.tdiv y) ∧ t.contains (x.tmod y)

instance decidableFits (v : Valuation) (n : Int) : (e : CExpr) → Decidable (e.Fits v n)
  | operand _ | lit _ | loo => inferInstanceAs (Decidable True)
  | add a b | sub a b | mul a b | div a b | mod a b =>
    have := decidableFits v n a
    have := decidableFits v n b
    inferInstanceAs (Decidable (_ ∧ _ ∧ _))

end CExpr

structure DimInfo where
  lower : Expr
  upper : Expr
  upperExclusive : Bool
  indexName : String
  step : Expr
  unitStep : Bool
  indexType : CType
  deriving DecidableEq, Repr

/-- The stride is unit when it prints as `1`, which only the plain literal does. -/
def dimInfo (c : CanonicalResult) : DimInfo :=
  ⟨c.lowerBound, c.upperBound, c.isUpperExclusive, c.indexVar.name, c.stride,
    c.stride = .intVal .int 1, c.indexVar.type⟩

def onlyLoopInBody : Stmt → Option ForStatement
  | .seq (.forLoop i c u s) .empty => some ⟨i, c, u, s⟩
  | .forLoop i c u s => some ⟨i, c, u, s⟩
  | _ => none

/-- `collectLoopChain`: the perfect nest below `loop`, at most `collapseDepth` loops. -/
def collectLoopChain (loop : ForStatement) : Nat → List ForStatement
  | 0 | 1 => [loop]
  | depth + 2 =>
    match onlyLoopInBody loop.body with
    | some inner => loop :: collectLoopChain inner (depth + 1)
    | none => [loop]

def exprReferencesAny (e : Expr) (vars : List Var) : Bool := e.varRefs.any (· ∈ vars)

/-- Index variables of the loop and of every loop nested in it. -/
def nestIndexVars (loop : ForStatement) : List Var :=
  (loop :: loop.body.forStatements).filterMap getLoopIndexVariable

/-- The dimensions `KernelCodeGen::generate` collapses, or `none` where it refuses the nest:
every loop canonical, and no inner bound or stride that mentions an index of the nest. -/
def collapsedDims (loop : ForStatement) (collapseDepth : Nat) :
    Option (List (ForStatement × DimInfo)) :=
  let indexVars := nestIndexVars loop
  let dim (inner : Bool) (l : ForStatement) : Option (ForStatement × DimInfo) :=
    match canonicalAnalyze l with
    | .error _ => none
    | .ok c =>
      if inner && (exprReferencesAny c.lowerBound indexVars ||
          exprReferencesAny c.upperBound indexVars || exprReferencesAny c.stride indexVars)
      then none else some (l, dimInfo c)
  match collectLoopChain loop collapseDepth with
  | [] => none
  | front :: rest => do
    let d ← dim false front
    let ds ← rest.mapM (dim true)
    pure (d :: ds)

/-- The number of values the induction variable takes, as the generator spells it. -/
def tripText (d : DimInfo) : CExpr :=
  let span := CExpr.sub (.operand d.upper) (.operand d.lower)
  if d.unitStep then
    if d.upperExclusive then span else .add span (.lit 1)
  else if d.upperExclusive then
    .div (.sub (.add span (.operand d.step)) (.lit 1)) (.operand d.step)
  else .add (.div span (.operand d.step)) (.lit 1)

def totalTrip : List DimInfo → CExpr
  | [] => .lit 1
  | d :: ds => ds.foldl (fun acc e => .mul acc (tripText e)) (tripText d)

/-- A component of the linear id times the step, the product elided for unit steps. -/
def stepMul (d : DimInfo) (component : CExpr) : CExpr :=
  if d.unitStep then component else .mul (.operand d.step) component

/-- One line of the prologue: the declaration of an index, and `__loo /= ...` after it for
every dimension but the outermost. -/
structure IndexDecl where
  name : String
  type : CType
  value : CExpr
  divisor : Option CExpr
  deriving DecidableEq, Repr

/-- The index declarations, innermost first. -/
def indexPrologue : List DimInfo → List IndexDecl
  | [] => []
  | front :: rest =>
    rest.reverse.map (fun d =>
      ⟨d.indexName, d.indexType, .add (.operand d.lower) (stepMul d (.mod .loo (tripText d))),
        some (tripText d)⟩) ++
    [⟨front.indexName, front.indexType, .add (.operand front.lower) (stepMul front .loo), none⟩]

/-- The variables that a kernel has declared so far, with their values. -/
abbrev Locals := List (String × Int)

/-- What the source expressions are worth in a kernel, whose own declarations hide the variables
of the same names. -/
structure LaunchState where
  values : Locals → Valuation
  frame : ∀ locals e, (∀ w ∈ e.varRefs, w.name ∉ locals.map Prod.fst) →
    (values locals).val e = (values []).val e ∧ (values locals).type e = (values []).type e
  hides : ∀ locals w n, locals.lookup w.name = some n → (values locals).val (.varRef w) = n

/-- Runs the declarations and collects the index values, outermost first. An initialiser already
sees the variable that it initialises, whose value is `garbage`. -/
def runIndexPrologue (S : LaunchState) (garbage : Int) :
    List IndexDecl → Locals → Int → List Int → Option (List Int)
  | [], _, _, indices => some indices
  | s :: rest, locals, loo, indices => do
    let i := s.type.convert (← s.value.eval (S.values ((s.name, garbage) :: locals)) loo)
    let locals := (s.name, i) :: locals
    match s.divisor with
    | none => runIndexPrologue S garbage rest locals loo (i :: indices)
    | some t => do
      let loo ← (CExpr.div .loo t).eval (S.values locals) loo
      runIndexPrologue S garbage rest locals (CType.convert (.integer 64 true) loo) (i :: indices)

inductive ThreadResult
  | returned
  | indices (is : List Int)
  | undefined
  deriving DecidableEq, Repr

/-- What one device thread does before the kernel body. -/
def runThread (S : LaunchState) (garbage : Int) (dims : List DimInfo) (id : Nat) : ThreadResult :=
  match (totalTrip dims).eval (S.values []) 0 with
  | none => .undefined
  | some tot =>
    if (id : Int) ≥ CType.convert (.integer 64 true) tot then .returned
    else
      match runIndexPrologue S garbage (indexPrologue dims) [] id [] with
      | none => .undefined
      | some is => .indices is

theorem CExpr.eval_of_fits {v : Valuation} {n : Int} {e : CExpr} (h : e.Fits v n) :
    e.eval v n = e.integerValue v n := by
  induction e with
  | operand | lit | loo => rfl
  | add a b iha ihb | sub a b iha ihb | mul a b iha ihb =>
    obtain ⟨ha, hb, hfits⟩ := h
    simp only [eval, integerValue, iha ha, ihb hb]
    simp only [integerValue] at hfits
    cases hx : a.integerValue v n with
    | none => rfl
    | some x =>
      cases hy : b.integerValue v n with
      | none => rfl
      | some y =>
        simp only [hx, hy] at hfits
        exact CType.result_of_contains (hfits _ rfl)
  | div a b iha ihb | mod a b iha ihb =>
    obtain ⟨ha, hb, hfits⟩ := h
    simp only [eval, integerValue, iha ha, ihb hb]
    cases hx : a.integerValue v n with
    | none => rfl
    | some x =>
      cases hy : b.integerValue v n with
      | none => rfl
      | some y =>
        have hne := CType.arithmetic_ne (a.type v) (b.type v)
        obtain ⟨hcx, hcy, hdiv, hmod⟩ := hfits x hx y hy
        simp only [Option.bind_eq_bind, Option.bind_some, BinOp.typed,
          CType.convert_of_contains hne hcx, CType.convert_of_contains hne hcy,
          CType.result_of_contains hdiv, CType.result_of_contains hmod]
        rfl

end LoomX
