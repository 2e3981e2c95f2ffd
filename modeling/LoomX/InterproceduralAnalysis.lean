import LoomX.ArrayAccess
import Mathlib.Data.String.Basic
import LoomX.SortedMap
import LoomX.Worklist

namespace LoomX

namespace Expr

/-- `getBaseVariable`: the variable under a dereference; of a binary operation the left operand
is tried first. -/
def getBaseVariable : Expr → Option Var
  | varRef v => some v
  | arrRef b _ => b.getBaseVariable
  | deref e | cast _ e | member e _ => e.getBaseVariable
  | binary _ a b | assign a b | compound _ a b =>
    match a.getBaseVariable with
    | some v => some v
    | none => b.getBaseVariable
  | _ => none

/-- `extractPointerArithmeticIndex`: the index of `*(p + idx)` or `*(idx + p)`. -/
def extractPointerArithmeticIndex (e : Expr) (base : Var) : Option Expr :=
  match e.skipCasts with
  | binary .add a b =>
    let lhs := a.skipCasts
    let rhs := b.skipCasts
    if lhs.getBaseVariable = some base ∧ rhs.getBaseVariable ≠ some base then some rhs
    else if rhs.getBaseVariable = some base ∧ lhs.getBaseVariable ≠ some base then some lhs
    else none
  | _ => none

/-- `extractSubscriptIndex`: the subscript without a constant offset. -/
def extractSubscriptIndex (e : Expr) : Expr :=
  match e.skipCasts with
  | binary .add a b =>
    if a.skipCasts.isValueExp && !b.skipCasts.isValueExp then b.skipCasts
    else if b.skipCasts.isValueExp && !a.skipCasts.isValueExp then a.skipCasts
    else binary .add a b
  | binary .sub a b =>
    if b.skipCasts.isValueExp && !a.skipCasts.isValueExp then a.skipCasts else binary .sub a b
  | e' => e'

/-- The write references of `collectReadWriteRefs`, each with the answer of
`isDereferenceWrite`: whether it stands below an element or dereference that is itself written.
`target` says that the expression is the left side of an assignment or the operand of `++` or
`--`, `below` that such an element or dereference was passed on the way down. -/
def writeRefsBelow : RefMode → (target below : Bool) → Expr → List (Expr × Bool)
  | _, _, _, intVal _ _ | _, _, _, exprNil | _, _, _, varRef _ => []
  | _, target, below, arrRef b i =>
    b.writeRefsBelow .base false (below || target) ++ i.writeRefsBelow .value false (below || target)
  | .base, _, _, _ => []
  | _, _, below, member e _ => e.writeRefsBelow .base false below
  | _, target, below, deref e => e.writeRefsBelow .value false (below || target)
  | _, _, below, addrOf e | _, _, below, cast _ e | _, _, below, unary _ e =>
    e.writeRefsBelow .value false below
  | _, _, below, call _ e => e.writeRefsBelow .value false below ++ e.outArgs.map (·, below)
  | _, _, below, binary _ a b | _, _, below, exprCons a b =>
    a.writeRefsBelow .value false below ++ b.writeRefsBelow .value false below
  | _, _, below, cond a b c =>
    a.writeRefsBelow .value false below ++ b.writeRefsBelow .value false below ++
      c.writeRefsBelow .value false below
  | _, _, below, assign l r =>
    l.writeRefsBelow .target true below ++ r.writeRefsBelow .value false below ++ [(l, below)]
  | _, _, below, compound op l r =>
    l.writeRefsBelow .value true below ++ r.writeRefsBelow .value false below ++
      if isShift op then [] else [(l, below)]
  | _, _, below, plusPlus e | _, _, below, minusMinus e =>
    e.writeRefsBelow .value true below ++ [(e, below)]

end Expr

namespace Stmt

def writeRefsBelow : Stmt → List (Expr × Bool)
  | empty | breakStmt | continueStmt | decl _ none | returnStmt none => []
  | expr e | decl _ (some e) | returnStmt (some e) => e.writeRefsBelow .value false false
  | seq s t => s.writeRefsBelow ++ t.writeRefsBelow
  | ite c s t => c.writeRefsBelow .value false false ++ s.writeRefsBelow ++ t.writeRefsBelow
  | whileLoop c s => c.writeRefsBelow .value false false ++ s.writeRefsBelow
  | forLoop i c u s =>
    i.writeRefsBelow ++ c.writeRefsBelow .value false false ++
      u.writeRefsBelow .value false false ++ s.writeRefsBelow

end Stmt

/-- A pointer parameter is written; `indexParamIdx` is the scalar parameter its subscript is, or
`none` (the source's `-1`). -/
structure PointerWritePattern where
  pointerParamIdx : Nat
  indexParamIdx : Option Nat
  deriving DecidableEq, Repr

def paramIndex (params : List Var) (v : Var) : Option Nat := params.idxOf? v

/-- The scalar parameter that an index expression is. -/
def indexParam (params : List Var) (index : Option Expr) : Option Nat :=
  match index with
  | none => none
  | some e =>
    match e.skipCasts with
    | .varRef v => if v.type.isPointerOrArray then none else paramIndex params v
    | _ => none

/-- The written variable, whether it is written through, and the index of the write. -/
def writtenThrough (ref : Expr) (below : Bool) : Option (Var × Bool × Option Expr) :=
  match ref with
  | .varRef v => some (v, v.type.isPointerOrArray && below, none)
  | .arrRef b i => (Expr.arrRef b i).getBaseVariable.map (·, true, some i.extractSubscriptIndex)
  | .deref e =>
    (Expr.deref e).getBaseVariable.map fun v => (v, true, e.extractPointerArithmeticIndex v)
  | _ => none

/-- The pattern `collectParameterAccess` records for a write reference. -/
def patternOf (params : List Var) (ref : Expr × Bool) : Option PointerWritePattern :=
  match writtenThrough ref.1 ref.2 with
  | some (v, true, index) =>
    if v.type.isPointerOrArray then
      (paramIndex params v).map (⟨·, indexParam params index⟩)
    else none
  | _ => none

def pointerWritePatterns (params : List Var) (body : Stmt) : List PointerWritePattern :=
  body.writeRefsBelow.filterMap (patternOf params)

/-- An `SgFunctionDeclaration`; `definition` is the body of a defining declaration. -/
structure FunctionDeclaration where
  name : String
  params : List Var
  definition : Option Stmt
  deriving DecidableEq, Repr

def pureStdlibFunctions : List String :=
  ["sin", "sinf", "cos", "cosf", "tan", "tanf",
    "asin", "asinf", "acos", "acosf", "atan", "atanf", "atan2", "atan2f",
    "sinh", "sinhf", "cosh", "coshf", "tanh", "tanhf",
    "asinh", "asinhf", "acosh", "acoshf", "atanh", "atanhf",
    "exp", "expf", "exp2", "exp2f", "expm1", "expm1f",
    "log", "logf", "log2", "log2f", "log10", "log10f", "log1p", "log1pf",
    "sqrt", "sqrtf", "cbrt", "cbrtf", "fabs", "fabsf", "ceil", "ceilf",
    "floor", "floorf", "round", "roundf", "trunc", "truncf",
    "fmod", "fmodf", "remainder", "remainderf", "pow", "powf",
    "hypot", "hypotf", "ldexp", "ldexpf", "scalbn", "scalbnf",
    "fmax", "fmaxf", "fmin", "fminf",
    "abs", "labs", "llabs",
    "strlen", "strcmp", "strncmp", "strchr", "strrchr", "strstr",
    "memcmp"]

def impureStdlibFunctions : List String :=
  ["printf", "fprintf", "sprintf", "snprintf",
    "scanf", "fscanf", "sscanf",
    "puts", "gets", "fgets", "fputs",
    "getchar", "putchar",
    "malloc", "calloc", "realloc", "free",
    "memcpy", "memmove", "memset",
    "exit", "abort", "system"]

def isStandardLibraryPureFunction (name : String) : Bool := pureStdlibFunctions.contains name

def isStandardLibraryImpureFunction (name : String) : Bool := impureStdlibFunctions.contains name

def isStandardLibraryFunction (name : String) : Bool :=
  isStandardLibraryPureFunction name || isStandardLibraryImpureFunction name

structure FunctionSummary where
  name : String
  hasDefinition : Bool
  hasIOSideEffects : Bool := false
  hasGlobalWrites : Bool := false
  writesThroughPointer : Bool := false
  hasTransitiveSideEffects : Bool := false
  inRecursiveCycle : Bool := false
  pointerWritePatterns : List PointerWritePattern := []
  callees : List String := []
  callers : List String := []
  deriving DecidableEq, Repr

abbrev Summaries := SortedMap String FunctionSummary

/-- The callee names of `collectCallees`: unresolved targets and library functions are left
out. -/
def collectCallees (body : Stmt) : List String :=
  (body.calls.filterMap fun c =>
    match c.1 with
    | some name => if isStandardLibraryFunction name then none else some name
    | none => none).foldr insertOrdered []

def hasIOSideEffects (body : Stmt) : Bool :=
  body.calls.any fun c => c.1.any isStandardLibraryImpureFunction

/-- A write that `hasGlobalWrites` counts: of a whole variable at file scope. -/
def isGlobalWrite (params : List Var) (body : Stmt) : Expr → Bool
  | .varRef v =>
    !params.contains v && !body.declared.contains v && v.storage == .global
  | _ => false

def hasGlobalWrites (params : List Var) (body : Stmt) : Bool :=
  body.writeRefs.any (isGlobalWrite params body)

/-- The summary `analyzeFunction` makes of one declaration. -/
def localSummary (decl : FunctionDeclaration) : FunctionSummary :=
  if isStandardLibraryPureFunction decl.name then
    ⟨decl.name, decl.definition.isSome, false, false, false, false, false, [], [], []⟩
  else if isStandardLibraryImpureFunction decl.name then
    ⟨decl.name, decl.definition.isSome, true, false, false, false, false, [], [], []⟩
  else
    match decl.definition with
    | none => ⟨decl.name, false, false, false, false, false, false, [], [], []⟩
    | some body =>
      { name := decl.name
        hasDefinition := true
        hasIOSideEffects := hasIOSideEffects body
        hasGlobalWrites := hasGlobalWrites decl.params body
        writesThroughPointer := !(pointerWritePatterns decl.params body).isEmpty
        pointerWritePatterns := pointerWritePatterns decl.params body
        callees := collectCallees body }

/-- The first definition of a name is kept, a declaration without one is replaced. -/
def analyzeFunction (summaries : Summaries) (decl : FunctionDeclaration) : Summaries :=
  match summaries.find? decl.name with
  | some s => if s.hasDefinition then summaries
    else summaries.insertWith (fun _ new => new) decl.name (localSummary decl)
  | none => summaries.insertWith (fun _ new => new) decl.name (localSummary decl)

def collectSummaries (program : List FunctionDeclaration) : Summaries :=
  program.foldl analyzeFunction .empty

/-- `buildCallGraphEdges`: the callers of a summarised function, in the order of the map. -/
def callersOf (summaries : Summaries) (name : String) : List String :=
  (summaries.entries.filter fun e => e.2.callees.contains name).map Prod.fst

/-- The variables of `findRecursiveCycles`, with the functions found to be in a cycle. -/
structure CycleSearch where
  index : SortedMap String Nat
  lowlink : SortedMap String Nat
  stack : List String
  currentIndex : Nat
  recursive : List String

namespace CycleSearch

def start : CycleSearch := ⟨.empty, .empty, [], 0, []⟩

def enter (s : CycleSearch) (node : String) : CycleSearch :=
  { s with
    index := s.index.insertWith (fun _ new => new) node s.currentIndex
    lowlink := s.lowlink.insertWith (fun _ new => new) node s.currentIndex
    stack := node :: s.stack
    currentIndex := s.currentIndex + 1 }

def lower (s : CycleSearch) (node : String) (value : Option Nat) : CycleSearch :=
  match value with
  | some n => { s with lowlink := s.lowlink.insertWith min node n }
  | none => s

/-- Pops the component of `node` off the stack, which has it and what lies above it. -/
def popComponent (s : CycleSearch) (node : String) (selfCall : Bool) : CycleSearch :=
  let component := node :: s.stack.takeWhile (· ≠ node)
  { s with
    stack := (s.stack.dropWhile (· ≠ node)).tail
    recursive := if component.length > 1 || selfCall then component ++ s.recursive
      else s.recursive }

end CycleSearch

def calleesOf (summaries : Summaries) (name : String) : List String :=
  match summaries.find? name with
  | some s => s.callees
  | none => []

/-- `dfsSCC`; every nested call enters a further function, so the number of functions bounds
the depth. -/
def dfsSCC (summaries : Summaries) : Nat → String → CycleSearch → CycleSearch
  | 0, _, s => s
  | depth + 1, node, s =>
    let visited := (calleesOf summaries node).foldl (fun s callee =>
      if (summaries.find? callee).isNone then s
      else
        match s.index.find? callee with
        | none =>
          let s' := dfsSCC summaries depth callee s
          s'.lower node (s'.lowlink.find? callee)
        | some i => if s.stack.contains callee then s.lower node (some i) else s) (s.enter node)
    if visited.lowlink.find? node = visited.index.find? node then
      visited.popComponent node ((calleesOf summaries node).contains node)
    else visited

def findRecursiveCycles (summaries : Summaries) : List String :=
  (summaries.entries.foldl (fun s e =>
    if (s.index.find? e.1).isNone then dfsSCC summaries summaries.entries.length e.1 s
    else s) CycleSearch.start).recursive

def hasUnanalyzablePointerWrites (s : FunctionSummary) : Bool :=
  s.writesThroughPointer &&
    (s.pointerWritePatterns.isEmpty || s.pointerWritePatterns.any (·.indexParamIdx.isNone))

/-- Unsafe regardless of the call site. -/
def hasLocalSideEffects (s : FunctionSummary) : Bool :=
  s.hasIOSideEffects || s.hasGlobalWrites || hasUnanalyzablePointerWrites s

/-- `propagateSideEffects`: the functions with side effects of their own or of a callee, and the
callers of recursive ones. -/
def propagateSideEffects (summaries : Summaries) (recursive : List String) :
    Propagation String :=
  let unsafeNames := (summaries.entries.filter fun e => hasLocalSideEffects e.2).map Prod.fst
  let waiting := (summaries.entries.filter fun e =>
    hasLocalSideEffects e.2 || recursive.contains e.1).map Prod.fst
  Propagation.run (callersOf summaries) (2 * summaries.entries.length) ⟨unsafeNames, waiting⟩

/-- The state of an `InterproceduralAnalysis` after `analyzeProject`. -/
structure InterproceduralAnalysis where
  summaries : Summaries
  recursive : List String
  sideEffects : List String
  intraproceduralBaseline : Bool

def analyzeProject (program : List FunctionDeclaration) (baseline : Bool) :
    InterproceduralAnalysis :=
  let summaries := collectSummaries program
  let recursive := findRecursiveCycles summaries
  ⟨summaries, recursive, (propagateSideEffects summaries recursive).marked, baseline⟩

def InterproceduralAnalysis.getSummary (ipa : InterproceduralAnalysis) (name : String) :
    Option FunctionSummary :=
  (ipa.summaries.find? name).map fun s =>
    { s with
      hasTransitiveSideEffects := ipa.sideEffects.contains name
      inRecursiveCycle := ipa.recursive.contains name
      callers := callersOf ipa.summaries name }

/-- The variable an argument is, up to casts. -/
def getArgumentVariable (e : Expr) : Option Var :=
  match e.skipCasts with
  | .varRef v => some v
  | _ => none

def pointerWritesAreLoopDisjoint (summary : FunctionSummary) (args : Expr) (loopVar : Var) : Bool :=
  !summary.pointerWritePatterns.isEmpty &&
    summary.pointerWritePatterns.all fun pattern =>
      match pattern.indexParamIdx with
      | none => false
      | some i =>
        match args.exprList[i]? with
        | none => false
        | some arg => getArgumentVariable arg == some loopVar

/-- `isSafeForParallelLoop`; a call is its resolved callee and its argument list. -/
def InterproceduralAnalysis.isSafeForParallelLoop (ipa : InterproceduralAnalysis)
    (call : Option String × Expr) (loopVar : Option Var) : Bool :=
  match call.1 with
  | none => false
  | some name =>
    if isStandardLibraryPureFunction name then true
    else
      match ipa.getSummary name with
      | none => false
      | some summary =>
        if !summary.hasDefinition || summary.hasTransitiveSideEffects ||
          summary.hasGlobalWrites || summary.inRecursiveCycle then false
        else if !summary.writesThroughPointer then true
        else if ipa.intraproceduralBaseline then false
        else
          match loopVar with
          | none => false
          | some v => pointerWritesAreLoopDisjoint summary call.2 v

end LoomX
