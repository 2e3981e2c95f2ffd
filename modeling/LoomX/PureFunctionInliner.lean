import LoomX.PointerDisjoint

namespace LoomX

/-- What a name means where `scope` is visible, the innermost declaration first. -/
def lookup (scope : List Var) (v : Var) : Var :=
  (scope.find? fun w => w.name == v.name).getD v

namespace Expr

/-- Replaces every variable reference. -/
def replaceRefs (g : Var → Expr) : Expr → Expr
  | intVal k n => intVal k n
  | varRef v => g v
  | arrRef b i => arrRef (b.replaceRefs g) (i.replaceRefs g)
  | deref e => deref (e.replaceRefs g)
  | member e f => member (e.replaceRefs g) f
  | addrOf e => addrOf (e.replaceRefs g)
  | cast t e => cast t (e.replaceRefs g)
  | unary op e => unary op (e.replaceRefs g)
  | binary op a b => binary op (a.replaceRefs g) (b.replaceRefs g)
  | cond c a b => cond (c.replaceRefs g) (a.replaceRefs g) (b.replaceRefs g)
  | assign l r => assign (l.replaceRefs g) (r.replaceRefs g)
  | compound op l r => compound op (l.replaceRefs g) (r.replaceRefs g)
  | plusPlus e => plusPlus (e.replaceRefs g)
  | minusMinus e => minusMinus (e.replaceRefs g)
  | call f args => call f (args.replaceRefs g)
  | exprNil => exprNil
  | exprCons e es => exprCons (e.replaceRefs g) (es.replaceRefs g)

/-- The expression as it is read again from its text. -/
def resolve (scope : List Var) (e : Expr) : Expr := e.replaceRefs fun v => varRef (lookup scope v)

theorem replaceRefs_eq_self {g : Var → Expr} {e : Expr} :
    e.replaceRefs g = e ↔ ∀ v ∈ e.varRefs, g v = varRef v := by
  induction e with
  | intVal | exprNil => simp [replaceRefs, varRefs]
  | varRef v => simp [replaceRefs, varRefs]
  | deref e ih | member e f ih | addrOf e ih | cast t e ih | unary op e ih | plusPlus e ih
  | minusMinus e ih | call f e ih => simp [replaceRefs, varRefs, ih]
  | arrRef a b iha ihb | binary op a b iha ihb | assign a b iha ihb | compound op a b iha ihb
  | exprCons a b iha ihb =>
    simp only [replaceRefs, varRefs, arrRef.injEq, binary.injEq, assign.injEq, compound.injEq,
      exprCons.injEq, true_and, iha, ihb, List.mem_append, or_imp, forall_and]
  | cond c a b ihc iha ihb =>
    simp only [replaceRefs, varRefs, cond.injEq, ihc, iha, ihb, List.mem_append, or_imp,
      forall_and, and_assoc]

theorem varRefs_replaceRefs (g : Var → Expr) (e : Expr) :
    (e.replaceRefs g).varRefs = e.varRefs.flatMap fun v => (g v).varRefs := by
  induction e with
  | intVal | exprNil => rfl
  | varRef v => simp [replaceRefs, varRefs]
  | deref e ih | member e f ih | addrOf e ih | cast t e ih | unary op e ih | plusPlus e ih
  | minusMinus e ih | call f e ih => simpa only [replaceRefs, varRefs] using ih
  | arrRef a b iha ihb | binary op a b iha ihb | assign a b iha ihb | compound op a b iha ihb
  | exprCons a b iha ihb => simp only [replaceRefs, varRefs, iha, ihb, List.flatMap_append]
  | cond c a b ihc iha ihb =>
    simp only [replaceRefs, varRefs, ihc, iha, ihb, List.flatMap_append]

theorem resolve_eq_self {scope : List Var} {e : Expr} :
    e.resolve scope = e ↔ ∀ v ∈ e.varRefs, lookup scope v = v := by
  simp only [resolve, replaceRefs_eq_self, varRef.injEq]

/-- The text put for each reference means, where the reference stands, what it meant. -/
def Uncaptured (g : Var → Expr) (scope : List Var) (e : Expr) : Prop :=
  ∀ v ∈ e.varRefs, ∀ w ∈ (g v).varRefs, lookup scope w = w

theorem resolve_replaceRefs {g : Var → Expr} {scope : List Var} {e : Expr} :
    (e.replaceRefs g).resolve scope = e.replaceRefs g ↔ e.Uncaptured g scope := by
  rw [resolve_eq_self, varRefs_replaceRefs]
  simp only [List.mem_flatMap, forall_exists_index, and_imp, Uncaptured]
  exact ⟨fun h v hv w hw => h w v hv hw, fun h w v hv hw => h v hv w hw⟩

end Expr

namespace Stmt

/-- The declarations visible after the statement. -/
def opened : Stmt → List Var → List Var
  | decl v _, scope => v :: scope
  | seq a b, scope => b.opened (a.opened scope)
  | _, scope => scope

def replaceRefs (g : Var → Expr) : Stmt → Stmt
  | empty => empty
  | expr e => expr (e.replaceRefs g)
  | decl v init => decl v (init.map (·.replaceRefs g))
  | seq a b => seq (a.replaceRefs g) (b.replaceRefs g)
  | ite c a b => ite (c.replaceRefs g) (a.replaceRefs g) (b.replaceRefs g)
  | whileLoop c b => whileLoop (c.replaceRefs g) (b.replaceRefs g)
  | forLoop i c u b =>
    forLoop (i.replaceRefs g) (c.replaceRefs g) (u.replaceRefs g) (b.replaceRefs g)
  | breakStmt => breakStmt
  | continueStmt => continueStmt
  | returnStmt e => returnStmt (e.map (·.replaceRefs g))

/-- The statement as it is read again from its text; a declared name is visible in its own
initialiser, and those of a branch or a loop end with it. -/
def resolve : List Var → Stmt → Stmt
  | _, empty => empty
  | scope, expr e => expr (e.resolve scope)
  | scope, decl v init => decl v (init.map (·.resolve (v :: scope)))
  | scope, seq a b => seq (a.resolve scope) (b.resolve (a.opened scope))
  | scope, ite c a b => ite (c.resolve scope) (a.resolve scope) (b.resolve scope)
  | scope, whileLoop c b => whileLoop (c.resolve scope) (b.resolve scope)
  | scope, forLoop i c u b =>
    forLoop (i.resolve scope) (c.resolve (i.opened scope)) (u.resolve (i.opened scope))
      (b.resolve (i.opened scope))
  | _, breakStmt => breakStmt
  | _, continueStmt => continueStmt
  | scope, returnStmt e => returnStmt (e.map (·.resolve scope))

/-- No name in the text that replaces the references is captured. -/
def Uncaptured (g : Var → Expr) : List Var → Stmt → Prop
  | _, empty | _, breakStmt | _, continueStmt => True
  | scope, expr e => e.Uncaptured g scope
  | scope, decl v init => ∀ e ∈ init, e.Uncaptured g (v :: scope)
  | scope, seq a b => a.Uncaptured g scope ∧ b.Uncaptured g (a.opened scope)
  | scope, ite c a b => c.Uncaptured g scope ∧ a.Uncaptured g scope ∧ b.Uncaptured g scope
  | scope, whileLoop c b => c.Uncaptured g scope ∧ b.Uncaptured g scope
  | scope, forLoop i c u b => i.Uncaptured g scope ∧ c.Uncaptured g (i.opened scope) ∧
    u.Uncaptured g (i.opened scope) ∧ b.Uncaptured g (i.opened scope)
  | scope, returnStmt e => ∀ e' ∈ e, e'.Uncaptured g scope

theorem opened_replaceRefs (g : Var → Expr) (s : Stmt) (scope : List Var) :
    (s.replaceRefs g).opened scope = s.opened scope := by
  induction s generalizing scope with
  | seq a b iha ihb => simp only [replaceRefs, opened, iha, ihb]
  | _ => rfl

theorem resolve_replaceRefs {g : Var → Expr} {s : Stmt} {scope : List Var} :
    (s.replaceRefs g).resolve scope = s.replaceRefs g ↔ s.Uncaptured g scope := by
  induction s generalizing scope with
  | empty | breakStmt | continueStmt => simp [replaceRefs, resolve, Uncaptured]
  | expr e => simp only [replaceRefs, resolve, Uncaptured, expr.injEq, Expr.resolve_replaceRefs]
  | decl v init =>
    cases init with
    | none => simp [replaceRefs, resolve, Uncaptured]
    | some e => simp [replaceRefs, resolve, Uncaptured, Expr.resolve_replaceRefs]
  | returnStmt e =>
    cases e with
    | none => simp [replaceRefs, resolve, Uncaptured]
    | some e => simp [replaceRefs, resolve, Uncaptured, Expr.resolve_replaceRefs]
  | seq a b iha ihb =>
    simp only [replaceRefs, resolve, Uncaptured, seq.injEq, opened_replaceRefs, iha, ihb]
  | ite c a b iha ihb =>
    simp only [replaceRefs, resolve, Uncaptured, ite.injEq, Expr.resolve_replaceRefs, iha, ihb]
  | whileLoop c b ih =>
    simp only [replaceRefs, resolve, Uncaptured, whileLoop.injEq, Expr.resolve_replaceRefs, ih]
  | forLoop i c u b ihi ihb =>
    simp only [replaceRefs, resolve, Uncaptured, forLoop.injEq, opened_replaceRefs,
      Expr.resolve_replaceRefs, ihi, ihb]

/-- A nested block: its declarations end with it. -/
def block (s : Stmt) : Stmt := ite (.intVal .int 1) s empty

end Stmt

/-- An `SgFunctionDefinition`; `astNodeCount` is the number of nodes below it. -/
structure FunctionDefinition extends Callee where
  name : String
  returnsVoid : Bool
  astNodeCount : Nat

def FunctionDefinition.withBody (f : FunctionDefinition) (body : Stmt) : FunctionDefinition :=
  { f with body := body }

/-- `paramToArg`: the argument written to the map last for a parameter. -/
def paramToArg (params : List Var) (args : List Expr) (v : Var) : Option Expr :=
  (params.zip args).reverse.lookup v

/-- The deep copy of the argument for a parameter, any other reference as it is. -/
def copyOfArg (params : List Var) (args : List Expr) (v : Var) : Expr :=
  (paramToArg params args v).getD (.varRef v)

theorem varRefs_of_mem_exprList {e args : Expr} (he : e ∈ args.exprList) :
    ∀ v ∈ e.varRefs, v ∈ args.varRefs := by
  induction args with
  | exprCons a b _ ih =>
    intro v hv
    simp only [Expr.exprList, List.mem_cons] at he
    rcases he with rfl | he
    · simp [Expr.varRefs, hv]
    · simp [Expr.varRefs, ih he v hv]
  | _ => simp [Expr.exprList] at he

theorem paramToArg_isSome {params : List Var} {args : List Expr}
    (hlen : args.length = params.length) {v : Var} (h : paramToArg params args v = none) :
    v ∉ params := by
  intro hv
  have hmem : v ∈ (params.zip args).map Prod.fst := by
    rw [List.map_fst_zip (by omega)]
    exact hv
  obtain ⟨p, hp, rfl⟩ := List.mem_map.mp hmem
  have hne := List.lookup_eq_none_iff.mp h p (List.mem_reverse.mpr hp)
  simp at hne

theorem mem_of_paramToArg {params : List Var} {args : List Expr} {v : Var} {arg : Expr}
    (h : paramToArg params args v = some arg) : arg ∈ args := by
  obtain ⟨l, r, hl, _⟩ := List.lookup_eq_some_iff.mp h
  have hmem : (v, arg) ∈ params.zip args := by
    rw [← List.mem_reverse, hl]
    simp
  exact (List.of_mem_zip hmem).2

def isCandidate (ipa : InterproceduralAnalysis) (f : FunctionDefinition) : Bool :=
  f.returnsVoid &&
    match ipa.getSummary f.name with
    | none => false
    | some summary =>
      summary.hasDefinition && !summary.inRecursiveCycle && !summary.hasIOSideEffects &&
        !summary.hasGlobalWrites && decide (f.astNodeCount ≤ 5000)

def candidates (ipa : InterproceduralAnalysis) (project : List FunctionDefinition) :
    List String :=
  (project.filter (isCandidate ipa)).map (·.name)

/-- The copied statements of the body, with the arguments in place of the parameters. -/
def inlineBlock (callee : Callee) (args : List Expr) : Stmt :=
  .block (callee.body.replaceRefs (copyOfArg callee.params args))

/-- The callee and the argument list of a call that is the whole expression of a statement and
is rewritten. -/
def inlinedCallee (names : List String) (project : List FunctionDefinition) (e : Expr) :
    Option (FunctionDefinition × Expr) :=
  match e.skipCasts with
  | .call (some name) args =>
    if names.contains name then
      match project.find? (·.name == name) with
      | some callee =>
        if args.exprList.length = callee.params.length then some (callee, args) else none
      | none => none
    else none
  | _ => none

/-- The calls of one loop, replaced in the statement. -/
def inlineCalls (names : List String) (project : List FunctionDefinition) : Stmt → Stmt
  | .expr e =>
    match inlinedCallee names project e with
    | some (callee, args) => inlineBlock callee.toCallee args.exprList
    | none => .expr e
  | .seq a b => .seq (inlineCalls names project a) (inlineCalls names project b)
  | .ite c a b => .ite c (inlineCalls names project a) (inlineCalls names project b)
  | .whileLoop c b => .whileLoop c (inlineCalls names project b)
  | .forLoop i c u b => .forLoop (inlineCalls names project i) c u (inlineCalls names project b)
  | s => s

/-- The loops of a function, outer ones first: a statement is visited once for each loop of the
original text around it. -/
def inlineLoops (names : List String) (project : List FunctionDefinition) : Nat → Stmt → Stmt
  | depth, .seq a b => .seq (inlineLoops names project depth a) (inlineLoops names project depth b)
  | depth, .ite c a b =>
    .ite c (inlineLoops names project depth a) (inlineLoops names project depth b)
  | depth, .whileLoop c b => .whileLoop c (inlineLoops names project depth b)
  | depth, .forLoop i c u b =>
    .forLoop (inlineLoops names project (depth + 1) i) c u
      (inlineLoops names project (depth + 1) b)
  | depth, s => (inlineCalls names project)^[depth] s

def inlineFrom (names : List String) : List FunctionDefinition → List FunctionDefinition →
    List FunctionDefinition
  | done, [] => done
  | done, f :: rest =>
    inlineFrom names
      (done ++ [f.withBody (inlineLoops names (done ++ f :: rest) 0 f.body)]) rest

/-- The functions after the pass; a callee is copied as the pass has left it by then. -/
def inlinePureHelperFunctions (ipa : InterproceduralAnalysis)
    (project : List FunctionDefinition) : List FunctionDefinition :=
  inlineFrom (candidates ipa project) [] project

end LoomX
