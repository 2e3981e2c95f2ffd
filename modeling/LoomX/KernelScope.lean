import LoomX.AtomicReductions

namespace LoomX

namespace Stmt

/-- A `break`, `continue` or `return` in the statement. -/
def leaves : Stmt → Bool
  | breakStmt | continueStmt | returnStmt _ => true
  | empty | expr _ | decl _ _ => false
  | seq s t | ite _ s t => s.leaves || t.leaves
  | whileLoop _ s => s.leaves
  | forLoop i _ _ s => i.leaves || s.leaves

/-- The variables that the outermost block of a statement declares. -/
def topDeclared : Stmt → List Var
  | decl v _ => [v]
  | seq s t => s.topDeclared ++ t.topDeclared
  | _ => []

/-- What each of the blocks in a statement declares. -/
def blocks : Stmt → List (List Var)
  | seq s t => s.blocks ++ t.blocks
  | ite _ s t => s.topDeclared :: t.topDeclared :: (s.blocks ++ t.blocks)
  | whileLoop _ s => s.topDeclared :: s.blocks
  | forLoop i _ _ s => i.topDeclared :: s.topDeclared :: (i.blocks ++ s.blocks)
  | _ => []

end Stmt

/-- The variables have different names. -/
def NamesApart (vs : List Var) : Prop := (vs.map Var.name).Nodup

instance (vs : List Var) : Decidable (NamesApart vs) := inferInstanceAs (Decidable (List.Nodup _))

/-- What the types of the variables say. There are no dimensions where `arrayDims` fails. -/
structure TypeInfo where
  arrayDims : Var → List Expr
  elementTypeName : Var → String

/-- The variable under a chain of references. -/
def Expr.chainBase : Expr → Option Var
  | .arrRef lhs _ => lhs.chainBase
  | e => e.namedVar

/-- The subscripts of a chain of references, the one of the last dimension first. -/
def Expr.chainIndices : Expr → List Expr
  | .arrRef lhs rhs => rhs :: lhs.chainIndices
  | _ => []

def subscriptTerm (index : Expr) (strides : List Expr) : Expr :=
  strides.foldl (fun t stride => .binary .mul t stride) index

def flatSubscript : List Expr → List Expr → Option Expr → Option Expr
  | index :: indices, _ :: dims, none => flatSubscript indices dims (some (subscriptTerm index dims))
  | index :: indices, _ :: dims, some sum =>
    flatSubscript indices dims (some (.binary .add sum (subscriptTerm index dims)))
  | _, _, sum => sum

/-- The flat reference that a chain of references is replaced by. -/
def flatReference (arrayDims : Var → List Expr) (top : Expr) : Option Expr :=
  top.chainBase.bind fun v =>
    let dims := arrayDims v
    let indices := top.chainIndices.reverse
    if dims.length < 2 then none
    else if indices.length ≠ dims.length then none
    else (flatSubscript indices dims none).map (.arrRef (.varRef v))

/-- Only the outermost reference of a chain is replaced; `below` under a reference. -/
def Expr.linearize (arrayDims : Var → List Expr) (below : Bool) : Expr → Expr
  | .intVal k n => .intVal k n
  | .varRef v => .varRef v
  | .exprNil => .exprNil
  | .deref e => .deref (e.linearize arrayDims false)
  | .member e f => .member (e.linearize arrayDims false) f
  | .addrOf e => .addrOf (e.linearize arrayDims false)
  | .cast t e => .cast t (e.linearize arrayDims false)
  | .unary op e => .unary op (e.linearize arrayDims false)
  | .plusPlus e => .plusPlus (e.linearize arrayDims false)
  | .minusMinus e => .minusMinus (e.linearize arrayDims false)
  | .call f e => .call f (e.linearize arrayDims false)
  | .arrRef a b =>
    let kept := .arrRef (a.linearize arrayDims true) (b.linearize arrayDims true)
    if below then kept else (flatReference arrayDims (.arrRef a b)).getD kept
  | .binary op a b => .binary op (a.linearize arrayDims false) (b.linearize arrayDims false)
  | .exprCons a b => .exprCons (a.linearize arrayDims false) (b.linearize arrayDims false)
  | .cond a b c => .cond (a.linearize arrayDims false) (b.linearize arrayDims false)
      (c.linearize arrayDims false)
  | .assign a b => .assign (a.linearize arrayDims false) (b.linearize arrayDims false)
  | .compound op a b => .compound op (a.linearize arrayDims false) (b.linearize arrayDims false)

def linearizeBody (arrayDims : Var → List Expr) (arrayVars : List Var) (body : Stmt) : Stmt :=
  if arrayVars.isEmpty then body else body.rewriteExprs (·.linearize arrayDims false)

def allowedDeviceCallees : List String :=
  ["sin", "cos", "tan", "asin", "acos", "atan", "atan2", "sinh", "cosh", "tanh", "asinh", "acosh",
    "atanh", "exp", "exp2", "expm1", "log", "log2", "log10", "log1p", "sqrt", "cbrt", "pow",
    "hypot", "erf", "erfc", "tgamma", "lgamma", "fabs", "fmin", "fmax", "fmod", "floor", "ceil",
    "round", "trunc", "fma"]

def isAllowedDeviceCallee (name : String) : Bool := name ∈ allowedDeviceCallees

inductive KernelParamKind
  | array
  | scalar
  | reduction
  deriving DecidableEq, Repr

structure KernelParam where
  kind : KernelParamKind
  var : Var
  deriving DecidableEq, Repr

def paramRank : KernelParamKind → Nat
  | .array => 0
  | .scalar => 1
  | .reduction => 2

/-- The order of the parameters: by kind, then by name. -/
def paramBefore (a b : KernelParam) : Bool :=
  if paramRank a.kind ≠ paramRank b.kind then paramRank a.kind < paramRank b.kind
  else !(b.var.name < a.var.name)

/-- A loop that is to become a kernel. `readAfter` are the variables that its function reads on
later lines. -/
structure KernelSource where
  loop : ForStatement
  collapseDepth : Nat
  reductions : List ReductionInfo
  backend : CodeGenBackend
  id : Nat
  types : TypeInfo
  readAfter : Var → Bool

/-- A generated kernel: its parameters, the collapsed loops with the outermost first, the inner
indices that the prologue declares, and the body after the rewriting. -/
structure Kernel where
  params : List KernelParam
  dims : List (ForStatement × DimInfo)
  innerIndices : List Var
  targets : List ReductionTarget
  body : Stmt
  backend : CodeGenBackend
  id : Nat

namespace KernelSource

/-- The loops that are collapsed. -/
def chain (N : KernelSource) : List ForStatement :=
  collectLoopChain N.loop (if N.collapseDepth > 0 then N.collapseDepth else 1)

def body (N : KernelSource) : Stmt := ((N.chain.getLast?).getD N.loop).body

def indexVars (N : KernelSource) : List Var := nestIndexVars N.loop

def collapsedIndexVars (N : KernelSource) : List Var := N.chain.filterMap getLoopIndexVariable

/-- Declared inside the body: stays local in the kernel. -/
def isLocal (N : KernelSource) (v : Var) : Bool := v ∈ N.body.declared

def hasLiveOutScalar (N : KernelSource) : Bool :=
  let reductionVars := N.reductions.map (·.var)
  let written := N.loop.body.writeRefs.filterMap fun e =>
    match e with
    | .varRef v => some v
    | _ => none
  let writtenScalars := written.filter fun v =>
    v ∉ N.indexVars && v ∉ reductionVars && !v.type.isPointerOrArray && v ∉ N.loop.body.declared
  writtenScalars.any N.readAfter

/-- The references in the bounds and strides of the collapsed loops. -/
def boundRefs (N : KernelSource) : List Var :=
  N.chain.flatMap fun l =>
    match canonicalAnalyze l with
    | .ok c => c.lowerBound.varRefs ++ c.upperBound.varRefs ++ c.stride.varRefs
    | .error _ => []

def insertVar (vars : List Var) (v : Var) : List Var := if v ∈ vars then vars else vars ++ [v]

/-- The variables in the extents of an array that the kernel needs as well. -/
def extentRefs (N : KernelSource) (v : Var) : List Var :=
  if v ∈ N.indexVars then []
  else ((N.types.arrayDims v).flatMap Expr.varRefs).filter fun w =>
    w ∉ N.indexVars && !N.isLocal w

def growPass (N : KernelSource) (vars : List Var) : List Var :=
  (vars.flatMap N.extentRefs).foldl insertVar vars

/-- Grows the set until a pass adds nothing. -/
def grow (N : KernelSource) : Nat → List Var → Option (List Var)
  | 0, _ => none
  | fuel + 1, vars =>
    let next := N.growPass vars
    if next.length = vars.length then some vars else N.grow fuel next

def startVars (N : KernelSource) : List Var := (N.body.varRefs ++ N.boundRefs).foldl insertVar []

/-- The parameter that a variable becomes; no kernel is generated for some. -/
def classify (N : KernelSource) (targets : List ReductionTarget) (v : Var) : Option KernelParam :=
  let isTarget := targets.any (·.var = v)
  if N.types.arrayDims v ≠ [] then
    if isTarget then none
    else if N.types.elementTypeName v = "" then none
    else some ⟨.array, v⟩
  else if v.type = .pointer then none
  else if isTarget then some ⟨.reduction, v⟩
  else some ⟨.scalar, v⟩

/-- The variables that are no index and not local. -/
def passed (N : KernelSource) (vars : List Var) : List Var :=
  vars.filter fun v => v ∉ N.indexVars && !N.isLocal v

/-- The indices of the inner loops that need a declaration, once for each loop. -/
def innerIndices (N : KernelSource) : List Var :=
  (N.body.forStatements.filterMap getLoopIndexVariable).filter fun v =>
    v ∉ N.collapsedIndexVars && !N.isLocal v

/-- `KernelCodeGen::generate`, with the fuel of the loop that grows the set of variables. -/
def generate (N : KernelSource) (fuel : Nat) : Option Kernel := do
  let dims ← collapsedDims N.loop (if N.collapseDepth > 0 then N.collapseDepth else 1)
  guard (N.body ≠ .empty)
  guard (!N.body.leaves)
  guard (N.body.calls.all fun c => c.1.all fun f => f = "" || isAllowedDeviceCallee f)
  guard (!N.hasLiveOutScalar)
  let targets ← resolveReductions N.types.elementTypeName N.body N.reductions
  let allVars ← N.grow fuel N.startVars
  let params ← (N.passed allVars).mapM (N.classify targets)
  guard (dims.all fun d => d.2.indexName ≠ "")
  let arrayVars := (params.filter (·.kind = .array)).map (·.var)
  return { params := params.insertionSort fun a b => paramBefore a b
           dims := dims
           innerIndices := N.innerIndices
           targets := targets
           body := linearizeBody N.types.arrayDims arrayVars
             (rewriteReductions N.backend targets N.body)
           backend := N.backend
           id := N.id }

end KernelSource

section
variable {f : Expr → Expr} {s : Stmt} {v : Var}

theorem declared_rewriteExprs (f : Expr → Expr) (s : Stmt) :
    (s.rewriteExprs f).declared = s.declared := by
  induction s with
  | seq s t ihs iht | ite _ s t ihs iht =>
    simp only [Stmt.rewriteExprs, Stmt.declared, ihs, iht]
  | whileLoop _ s ih => simpa only [Stmt.rewriteExprs, Stmt.declared] using ih
  | forLoop i _ _ s ihi ihs => simp only [Stmt.rewriteExprs, Stmt.declared, ihi, ihs]
  | _ => rfl

theorem topDeclared_rewriteExprs (f : Expr → Expr) (s : Stmt) :
    (s.rewriteExprs f).topDeclared = s.topDeclared := by
  induction s with
  | seq s t ihs iht => simp only [Stmt.rewriteExprs, Stmt.topDeclared, ihs, iht]
  | _ => rfl

theorem blocks_rewriteExprs (f : Expr → Expr) (s : Stmt) : (s.rewriteExprs f).blocks = s.blocks := by
  induction s with
  | seq s t ihs iht => simp only [Stmt.rewriteExprs, Stmt.blocks, ihs, iht]
  | ite _ s t ihs iht =>
    simp only [Stmt.rewriteExprs, Stmt.blocks, ihs, iht, topDeclared_rewriteExprs]
  | whileLoop _ s ih => simp only [Stmt.rewriteExprs, Stmt.blocks, ih, topDeclared_rewriteExprs]
  | forLoop i _ _ s ihi ihs =>
    simp only [Stmt.rewriteExprs, Stmt.blocks, ihi, ihs, topDeclared_rewriteExprs]
  | _ => rfl

theorem topDeclared_subset (s : Stmt) : s.topDeclared ⊆ s.declared := by
  induction s with
  | decl v init => exact fun _ h => h
  | seq s t ihs iht =>
    intro v hv
    rw [Stmt.topDeclared, List.mem_append] at hv
    rw [Stmt.declared, List.mem_append]
    exact hv.imp (fun h => ihs h) fun h => iht h
  | _ => exact List.nil_subset _

theorem varRefs_eq_flatMap (s : Stmt) : s.varRefs = s.expressions.flatMap Expr.varRefs := by
  induction s with
  | decl v init => cases init <;> simp [Stmt.varRefs, Stmt.expressions]
  | returnStmt e => cases e <;> simp [Stmt.varRefs, Stmt.expressions]
  | _ => simp_all [Stmt.varRefs, Stmt.expressions]

theorem mem_varRefs_rewriteExprs :
    v ∈ (s.rewriteExprs f).varRefs ↔ ∃ e ∈ s.expressions, v ∈ (f e).varRefs := by
  rw [varRefs_eq_flatMap, expressions_rewriteExprs]
  simp

end

section
variable {arrayDims : Var → List Expr} {e : Expr} {v w : Var}

theorem varRefs_namedVar (h : e.namedVar = some v) : v ∈ e.varRefs := by
  induction e with
  | varRef w =>
    obtain rfl := Option.some.inj h
    exact List.mem_singleton_self _
  | cast _ e ih => exact ih h
  | _ => simp [Expr.namedVar, Expr.skipCasts] at h

theorem varRefs_chainBase (h : e.chainBase = some v) : v ∈ e.varRefs := by
  induction e with
  | arrRef a b iha ihb => exact List.mem_append_left _ (iha h)
  | _ => exact varRefs_namedVar h

theorem varRefs_chainIndices {index : Expr} (h : index ∈ e.chainIndices) (hv : v ∈ index.varRefs) :
    v ∈ e.varRefs := by
  induction e with
  | arrRef a b iha ihb =>
    rw [Expr.varRefs, List.mem_append]
    obtain rfl | h := List.mem_cons.mp h
    · exact Or.inr hv
    · exact Or.inl (iha h)
  | _ => simp [Expr.chainIndices] at h

theorem varRefs_subscriptTerm {index : Expr} {strides : List Expr}
    (h : v ∈ (subscriptTerm index strides).varRefs) :
    v ∈ index.varRefs ∨ ∃ stride ∈ strides, v ∈ stride.varRefs := by
  induction strides generalizing index with
  | nil => exact Or.inl h
  | cons stride strides ih =>
    obtain h | ⟨stride', hmem, h⟩ := ih h
    · rw [Expr.varRefs, List.mem_append] at h
      exact h.imp id fun h => ⟨stride, List.mem_cons_self, h⟩
    · exact Or.inr ⟨stride', List.mem_cons_of_mem _ hmem, h⟩

theorem varRefs_flatSubscript {indices dims : List Expr} {sum : Option Expr} {flat : Expr}
    (h : flatSubscript indices dims sum = some flat) (hv : v ∈ flat.varRefs) :
    (∃ e ∈ sum, v ∈ e.varRefs) ∨ (∃ index ∈ indices, v ∈ index.varRefs) ∨
      ∃ dim ∈ dims, v ∈ dim.varRefs := by
  induction indices generalizing dims sum with
  | nil => exact Or.inl ⟨flat, by simpa [flatSubscript] using h, hv⟩
  | cons index indices ih =>
    cases dims with
    | nil => exact Or.inl ⟨flat, by simpa [flatSubscript] using h, hv⟩
    | cons dim dims =>
      have hterm : ∀ {t : Expr}, v ∈ t.varRefs → t = subscriptTerm index dims →
          (∃ i ∈ index :: indices, v ∈ i.varRefs) ∨ ∃ d ∈ dim :: dims, v ∈ d.varRefs := by
        rintro t ht rfl
        obtain ht | ⟨stride, hmem, ht⟩ := varRefs_subscriptTerm ht
        · exact Or.inl ⟨index, List.mem_cons_self, ht⟩
        · exact Or.inr ⟨stride, List.mem_cons_of_mem _ hmem, ht⟩
      have hlater : ((∃ i ∈ indices, v ∈ i.varRefs) ∨ ∃ d ∈ dims, v ∈ d.varRefs) →
          (∃ i ∈ index :: indices, v ∈ i.varRefs) ∨ ∃ d ∈ dim :: dims, v ∈ d.varRefs := by
        rintro (⟨i, hi, hv⟩ | ⟨d, hd, hv⟩)
        · exact Or.inl ⟨i, List.mem_cons_of_mem _ hi, hv⟩
        · exact Or.inr ⟨d, List.mem_cons_of_mem _ hd, hv⟩
      cases sum with
      | none =>
        obtain ⟨e, he, hv⟩ | hrest := ih h
        · exact Or.inr (hterm hv (Option.some.inj he).symm)
        · exact Or.inr (hlater hrest)
      | some sum =>
        obtain ⟨e, he, hv⟩ | hrest := ih h
        · obtain rfl := Option.some.inj he
          rw [Expr.varRefs, List.mem_append] at hv
          obtain hv | hv := hv
          · exact Or.inl ⟨sum, rfl, hv⟩
          · exact Or.inr (hterm hv rfl)
        · exact Or.inr (hlater hrest)

/-- The expression mentions the variable, or an array with the variable in its extent. -/
def MentionsVar (arrayDims : Var → List Expr) (e : Expr) (w : Var) : Prop :=
  w ∈ e.varRefs ∨ ∃ a ∈ e.varRefs, ∃ dim ∈ arrayDims a, w ∈ dim.varRefs

theorem MentionsVar.mono {e' : Expr} (h : MentionsVar arrayDims e w)
    (hsub : e.varRefs ⊆ e'.varRefs) : MentionsVar arrayDims e' w := by
  obtain h | ⟨a, ha, hdim⟩ := h
  · exact Or.inl (hsub h)
  · exact Or.inr ⟨a, hsub ha, hdim⟩

theorem mentions_flatReference {top flat : Expr} (h : flatReference arrayDims top = some flat)
    (hw : w ∈ flat.varRefs) : MentionsVar arrayDims top w := by
  obtain ⟨v, hbase, h⟩ := Option.bind_eq_some_iff.mp h
  dsimp only at h
  split at h
  next => simp at h
  next =>
    split at h
    next => simp at h
    next =>
      obtain ⟨sum, hsum, rfl⟩ := Option.map_eq_some_iff.mp h
      have hv := varRefs_chainBase hbase
      rw [Expr.varRefs, Expr.varRefs, List.singleton_append, List.mem_cons] at hw
      obtain rfl | hw := hw
      · exact Or.inl hv
      · obtain ⟨e, he, -⟩ | ⟨index, hi, hw⟩ | ⟨dim, hd, hw⟩ := varRefs_flatSubscript hsum hw
        · simp at he
        · exact Or.inl (varRefs_chainIndices (List.mem_reverse.mp hi) hw)
        · exact Or.inr ⟨v, hv, dim, hd, hw⟩

/-- Linearising adds only variables in the extents of the arrays. -/
theorem mentions_linearize {below : Bool} (hw : w ∈ (e.linearize arrayDims below).varRefs) :
    MentionsVar arrayDims e w := by
  induction e generalizing below with
  | intVal | varRef | exprNil => exact Or.inl hw
  | deref e ih | member e _ ih | addrOf e ih | cast _ e ih | unary _ e ih | plusPlus e ih
  | minusMinus e ih | call _ e ih => exact ih hw
  | arrRef a b iha ihb =>
    have hkept : w ∈ (a.linearize arrayDims true).varRefs ++ (b.linearize arrayDims true).varRefs →
        MentionsVar arrayDims (.arrRef a b) w := by
      intro hw
      obtain hw | hw := List.mem_append.mp hw
      · exact (iha hw).mono (List.subset_append_left _ _)
      · exact (ihb hw).mono (List.subset_append_right _ _)
    cases below with
    | true => exact hkept hw
    | false =>
      rw [Expr.linearize, if_neg Bool.false_ne_true] at hw
      cases hflat : flatReference arrayDims (.arrRef a b) with
      | none =>
        rw [hflat, Option.getD_none] at hw
        exact hkept hw
      | some flat =>
        rw [hflat, Option.getD_some] at hw
        exact mentions_flatReference hflat hw
  | binary _ a b iha ihb | exprCons a b iha ihb | assign a b iha ihb | compound _ a b iha ihb =>
    rw [Expr.linearize, Expr.varRefs, List.mem_append] at hw
    obtain hw | hw := hw
    · exact (iha hw).mono (List.subset_append_left _ _)
    · exact (ihb hw).mono (List.subset_append_right _ _)
  | cond a b c iha ihb ihc =>
    rw [Expr.linearize, Expr.varRefs, List.mem_append, List.mem_append] at hw
    obtain (hw | hw) | hw := hw
    · exact (iha hw).mono fun _ h => List.mem_append_left _ (List.mem_append_left _ h)
    · exact (ihb hw).mono fun _ h => List.mem_append_left _ (List.mem_append_right _ h)
    · exact (ihc hw).mono fun _ h => List.mem_append_right _ h

end

section
variable {targets : List ReductionTarget} {backend : CodeGenBackend} {e : Expr} {v : Var}

theorem varRefs_accumulated {x : Var} {rhs other : Expr} {negate : Bool}
    (h : accumulated x rhs = some (other, negate)) : other.varRefs ⊆ rhs.varRefs := by
  rw [← varRefs_skipCasts rhs]
  unfold accumulated at h
  split at h
  next a b hrhs =>
    rw [hrhs, Expr.varRefs]
    split at h
    next =>
      obtain ⟨rfl, -⟩ := Prod.mk.inj (Option.some.inj h)
      exact List.subset_append_right _ _
    next =>
      split at h
      next =>
        obtain ⟨rfl, -⟩ := Prod.mk.inj (Option.some.inj h)
        exact List.subset_append_left _ _
      next => simp at h
  next a b hrhs =>
    rw [hrhs, Expr.varRefs]
    split at h
    next =>
      obtain ⟨rfl, -⟩ := Prod.mk.inj (Option.some.inj h)
      exact List.subset_append_right _ _
    next => simp at h
  next => simp at h

theorem targetOf_var {t : ReductionTarget} (h : targetOf targets e = some t) : t.var ∈ e.varRefs := by
  obtain ⟨x, hx, hfind⟩ := Option.bind_eq_some_iff.mp h
  have hvar : t.var = x := by simpa using List.find?_some hfind
  exact hvar ▸ varRefs_namedVar hx

theorem varRefs_rewriteUpdate : (rewriteUpdate backend targets e).varRefs ⊆ e.varRefs := by
  have hcall : ∀ {t : ReductionTarget} {lhs rhs other : Expr} {negate : Bool},
      targetOf targets lhs = some t → other.varRefs ⊆ rhs.varRefs →
      (atomicCall backend t other negate).varRefs ⊆ lhs.varRefs ++ rhs.varRefs := by
    intro t lhs rhs other negate ht hsub x hx
    have hmem : x = t.var ∨ x ∈ other.varRefs := by
      cases negate <;> simpa [atomicCall, Expr.varRefs] using hx
    obtain rfl | hx := hmem
    · exact List.mem_append_left _ (targetOf_var ht)
    · exact List.mem_append_right _ (hsub hx)
  unfold rewriteUpdate
  split
  next t other negate hupdate =>
    unfold reductionUpdate at hupdate
    split at hupdate
    next lhs rhs =>
      obtain ⟨t', ht, heq⟩ := Option.map_eq_some_iff.mp hupdate
      cases heq
      exact hcall ht (List.Subset.refl _)
    next lhs rhs =>
      obtain ⟨t', ht, heq⟩ := Option.map_eq_some_iff.mp hupdate
      cases heq
      exact hcall ht (List.Subset.refl _)
    next lhs rhs =>
      obtain ⟨t', ht, heq⟩ := Option.bind_eq_some_iff.mp hupdate
      obtain ⟨p, hacc, heq⟩ := Option.map_eq_some_iff.mp heq
      obtain ⟨rfl, rfl⟩ := Prod.mk.inj heq
      exact hcall ht (varRefs_accumulated hacc)
    next => simp at hupdate
  next => exact (List.Subset.refl _)

/-- The rewritten reductions mention no further variables. -/
theorem varRefs_rewriteReductions : (e.rewriteReductions backend targets).varRefs ⊆ e.varRefs := by
  induction e with
  | intVal | varRef | exprNil => exact (List.Subset.refl _)
  | deref e ih | member e _ ih | addrOf e ih | cast _ e ih | unary _ e ih | plusPlus e ih
  | minusMinus e ih | call _ e ih => exact ih
  | arrRef a b iha ihb | binary _ a b iha ihb | exprCons a b iha ihb =>
    intro x hx
    obtain hx | hx := List.mem_append.mp hx
    · exact List.mem_append_left _ (iha hx)
    · exact List.mem_append_right _ (ihb hx)
  | cond a b c iha ihb ihc =>
    intro x hx
    rw [Expr.rewriteReductions, Expr.varRefs, List.mem_append, List.mem_append] at hx
    rw [Expr.varRefs, List.mem_append, List.mem_append]
    exact hx.imp (fun h => h.imp (fun h => iha h) fun h => ihb h) fun h => ihc h
  | assign a b => exact varRefs_rewriteUpdate
  | compound op a b => exact varRefs_rewriteUpdate

end

end LoomX
