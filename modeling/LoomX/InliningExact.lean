import LoomX.FaithfulInlining

namespace LoomX

namespace Callee

/-- What keeps a rewritten call in `s` right up to the end of the body: the arguments are
expressions of the caller without effects, the locals live in the call only, every name means in
the block what it meant, and the parameters are read as the values of their arguments and never
changed. -/
structure InlinesCleanly (P : Platform) (fuel : Nat) (callee : Callee) (args : Expr)
    (scope : List Var) (s : State) : Prop where
  outside : ∀ v ∈ args.varRefs, v ∉ callee.params
  automatic : ∀ v ∈ callee.body.declared, v.storage = .automatic
  uncaptured : callee.body.Uncaptured (copyOfArg callee.params args.exprList) scope
  pure : (args.evalArgs P s).2 = s
  faithful : callee.body.Faithful P (paramToArg callee.params args.exprList) fuel
    (callee.entry P args s)

/-- The body runs to its end, and not into a `return`. -/
def RunsToEnd (P : Platform) (fuel : Nat) (callee : Callee) (args : Expr) (s : State) : Prop :=
  ∀ o t, callee.body.exec P fuel (callee.entry P args s) = some (o, t) → o = .normal

end Callee

theorem replacedWell_paramToArg {P : Platform} {params : List Var} {args : List Expr}
    (hP : P.Hides params) (hlen : args.length = params.length)
    (houtside : ∀ arg ∈ args, ∀ v ∈ arg.varRefs, v ∉ params) (v : Var) :
    Expr.ReplacedWell P params (paramToArg params args) v := by
  refine ⟨fun {s t} hagree hs => ?_, paramToArg_isSome hlen⟩
  cases harg : paramToArg params args v with
  | none =>
    have hv : (Loc.var v).Visible params := paramToArg_isSome hlen harg
    exact ⟨hagree.read hv, hagree⟩
  | some arg =>
    have heval := hs arg harg
    obtain ⟨hval, hst⟩ := Expr.agree_eval hP (houtside arg (mem_of_paramToArg harg)) hagree
    rw [heval] at hval hst
    exact ⟨hval, hst⟩

theorem SameRun.rel_iff {callee : Callee} {called inlined : Option (Outcome × State)}
    (h : SameRun callee.params called inlined) :
    Option.Rel (fun r t => r.1 = .normal ∧ callee.SameForCaller r.2 t) inlined
      (called.map Prod.snd) ↔ ∀ o t, called = some (o, t) → o = .normal := by
  cases h with
  | none => exact ⟨fun _ o t ht => by simp at ht, fun _ => Option.Rel.none⟩
  | some hsame =>
    rename_i r r'
    obtain ⟨ho, hst⟩ := hsame
    constructor
    · intro hpreserved o t heq
      cases Option.some.inj heq
      cases hpreserved with
      | some hnormal => exact ho.trans hnormal.1
    · intro hend
      have hnormal := hend r.1 r.2 rfl
      refine Option.Rel.some ⟨ho.symm.trans hnormal, hst.mem.symm, fun v hv => ?_⟩
      exact (hst.vars v fun hparam => hv (List.mem_append_left _ hparam)).symm

theorem Callee.preservedAt_iff {P : Platform} {fuel : Nat} {callee : Callee} {args : Expr}
    {scope : List Var} {s : State} (hP : P.Hides callee.params)
    (hfix : P.KeepsFixity (copyOfArg callee.params args.exprList))
    (hlen : args.exprList.length = callee.params.length)
    (h : callee.InlinesCleanly P fuel args scope s) :
    callee.PreservedAt P fuel args scope s ↔ callee.RunsToEnd P fuel args s := by
  have hresolve : (inlineBlock callee args.exprList).resolve scope =
      inlineBlock callee args.exprList :=
    congrArg Stmt.block (Stmt.resolve_replaceRefs.mpr h.uncaptured)
  have hagree : Agree callee.params (callee.entry P args s) s := by
    have hentry := agree_entry P callee args s
    rw [h.pure] at hentry
    exact hentry
  have hrun := sameRun_replaceRefs hP hfix
    (replacedWell_paramToArg hP hlen fun arg harg v hv =>
      h.outside v (varRefs_of_mem_exprList harg v hv)) fuel hagree h.faithful
  unfold PreservedAt callByValue RunsToEnd
  rw [hresolve, inlineBlock, Stmt.exec_block]
  exact hrun.rel_iff

theorem length_of_inlinedCallee {names : List String} {project : List FunctionDefinition}
    {e args : Expr} {callee : FunctionDefinition}
    (h : inlinedCallee names project e = some (callee, args)) :
    args.exprList.length = callee.params.length := by
  unfold inlinedCallee at h
  split at h
  next =>
    split_ifs at h
    split at h
    next =>
      split_ifs at h with hlen
      cases Option.some.inj h
      exact hlen
    next => simp at h
  next => simp at h

def FunctionDefinition.declaration (f : FunctionDefinition) : FunctionDeclaration :=
  ⟨f.name, f.params, some f.body⟩

def calledNames (project : List FunctionDefinition) : List String :=
  candidates (analyzeProject (project.map (·.declaration)) false) project

namespace Helpers

def intVar (id : Nat) (name : String) : Var := ⟨id, name, .integer 32 true, .automatic⟩

def a : Var := intVar 1 "a"
def k : Var := intVar 2 "k"
def q : Var := ⟨3, "q", .pointer, .automatic⟩
def x : Var := intVar 4 "x"
def i : Var := intVar 5 "i"
def p : Var := ⟨6, "p", .pointer, .automatic⟩

/-- `void clear(int *p, int i)`: `p[i] = 0;` -/
def clear : FunctionDefinition :=
  { name := "clear", returnsVoid := true, astNodeCount := 20, params := [p, i]
    body := .expr (.assign (.arrRef (.varRef p) (.varRef i)) (.intVal .int 0))
    adjusted := by decide }

/-- `void bump(int x)`: `x = x + 1;` -/
def bump : FunctionDefinition :=
  { name := "bump", returnsVoid := true, astNodeCount := 20, params := [x]
    body := .expr (.assign (.varRef x) (.binary .add (.varRef x) (.intVal .int 1)))
    adjusted := by decide }

/-- `void check(int x)`: `if (x < 0) return;` -/
def check : FunctionDefinition :=
  { name := "check", returnsVoid := true, astNodeCount := 20, params := [x]
    body := .ite (.binary .lt (.varRef x) (.intVal .int 0)) (.returnStmt none) .empty
    adjusted := by decide }

/-- `void copy(int *p, int x)`: `p[0] = 1; p[1] = x;` -/
def copy : FunctionDefinition :=
  { name := "copy", returnsVoid := true, astNodeCount := 30, params := [p, x]
    body := .seq (.expr (.assign (.arrRef (.varRef p) (.intVal .int 0)) (.intVal .int 1)))
      (.expr (.assign (.arrRef (.varRef p) (.intVal .int 1)) (.varRef x)))
    adjusted := by decide }

/-- `void add(int *p, int x)`: `int a = 1; p[0] = x + a;` -/
def add : FunctionDefinition :=
  { name := "add", returnsVoid := true, astNodeCount := 30, params := [p, x]
    body := .seq (.decl (intVar 7 "a") (some (.intVal .int 1)))
      (.expr (.assign (.arrRef (.varRef p) (.intVal .int 0))
        (.binary .add (.varRef x) (.varRef (intVar 7 "a")))))
    adjusted := by decide }

def clearArgs : Expr := .exprCons (.varRef q) (.exprCons (.varRef k) .exprNil)

def scalarArgs : Expr := .exprCons (.varRef a) .exprNil

def copyArgs : Expr :=
  .exprCons (.varRef q) (.exprCons (.arrRef (.varRef q) (.intVal .int 0)) .exprNil)

def addArgs : Expr := .exprCons (.varRef q) (.exprCons (.varRef a) .exprNil)

/-- `for (k = 0; k < 4; k = k + 1)` with the calls `clear(q, k)`, `bump(a)`, `check(a)`,
`copy(q, q[0])` and `add(q, a)`. -/
def caller : FunctionDefinition :=
  { name := "caller", returnsVoid := true, astNodeCount := 60, params := []
    body := .forLoop (.expr (.assign (.varRef k) (.intVal .int 0)))
      (.binary .lt (.varRef k) (.intVal .int 4))
      (.assign (.varRef k) (.binary .add (.varRef k) (.intVal .int 1)))
      (.seq (.expr (.call (some "clear") clearArgs))
        (.seq (.expr (.call (some "bump") scalarArgs))
          (.seq (.expr (.call (some "check") scalarArgs))
            (.seq (.expr (.call (some "copy") copyArgs))
              (.expr (.call (some "add") addArgs))))))
    adjusted := by decide }

def project : List FunctionDefinition := [clear, bump, check, copy, add, caller]

def platform : Platform where
  base _ := 0
  offset _ := 0
  isPrefixed _ := true
  call _ _ s := (0, s)

theorem platform_hides (hidden : List Var) : platform.Hides hidden := fun _ _ _ _ h => ⟨rfl, h⟩

theorem platform_keepsFixity (g : Var → Expr) : platform.KeepsFixity g := fun _ => rfl

def start (n : Int) : State := ⟨fun _ => n, fun _ => 0, []⟩

end Helpers

/-- The call is rewritten, and what stands for it does something else from `s`. -/
def Helpers.Miscompiled (callee : FunctionDefinition) (args : Expr) (s : State) : Prop :=
  inlinedCallee (calledNames project) project (.call (some callee.name) args) =
      some (callee, args) ∧
    ¬callee.PreservedAt platform 0 args [k, q, a] s

end LoomX
