import LoomX.ReductionHelper.Inliner
import LoomX.ReductionHelper.Substitution

namespace LoomX.ReductionHelper

variable {F : Type}

def runStmt (P : Platform F) (s : State F) : HelperStmt → State F
  | .decl v (some e) =>
    let (r, s₁) := eval P e s
    if v.storage = .automatic then initialise P v (r.read s₁) s₁ else s
  | .decl _ none => s
  | .expr e => (eval P e s).2

def runStmts (P : Platform F) (stmts : List HelperStmt) (s : State F) : State F :=
  stmts.foldl (runStmt P) s

def initialiseAll (P : Platform F) (l : List (Var × Value F)) (s : State F) : State F :=
  l.foldl (fun t p => initialise P p.1 p.2 t) s

/-- The state in which the body starts: the parameters have the values of the arguments. -/
def entry (P : Platform F) (params : List Var) (args : Expr) (s : State F) : State F :=
  let (r, s₁) := eval P args s
  initialiseAll P (params.zip r.list) s₁

/-- The variables of one activation of the function. -/
def ownVars (f : Callee) : List Var := f.params ++ f.body.declared

/-- The statements of a helper. -/
def statements (f : Callee) : List HelperStmt := (helperStatements f.body).getD []

/-- The update that the helper makes. -/
def update (f : Callee) : Expr := (reductionStmt (statements f)).getD .exprNil

def before (f : Callee) : List HelperStmt :=
  (statements f).takeWhile fun stmt => stmt.expression.isNone

def after (f : Callee) : List HelperStmt :=
  ((statements f).dropWhile fun stmt => stmt.expression.isNone).tail

/-- The state in which the helper makes its update. -/
def atUpdate (P : Platform F) (f : Callee) (args : Expr) (s : State F) : State F :=
  runStmts P (before f) (entry P f.params args s)

/-- The state after the call of a function that consists of declarations and expression
statements. -/
def afterCall (P : Platform F) (f : Callee) (args : Expr) (s : State F) : Option (State F) :=
  (helperStatements f.body).map fun stmts => runStmts P stmts (entry P f.params args s)

theorem append_of_reductionStmt {stmts : List HelperStmt} {e : Expr}
    (h : reductionStmt stmts = some e) :
    stmts = (stmts.takeWhile fun stmt => stmt.expression.isNone) ++
      .expr e :: (stmts.dropWhile fun stmt => stmt.expression.isNone).tail := by
  induction stmts with
  | nil => simp [reductionStmt] at h
  | cons stmt rest ih =>
    cases stmt with
    | decl v init =>
      have hrest := ih h
      simpa [HelperStmt.expression] using hrest
    | expr e' =>
      unfold reductionStmt at h
      simp only [List.filterMap_cons, HelperStmt.expression] at h
      split at h
      next e'' hone =>
        obtain ⟨rfl, -⟩ := List.cons.inj hone
        obtain rfl := Option.some.inj h
        simp [HelperStmt.expression]
      next => simp at h

theorem afterCall_eq {f : Callee} {stmts : List HelperStmt} {e : Expr}
    (hstmts : helperStatements f.body = some stmts) (he : reductionStmt stmts = some e)
    (P : Platform F) (args : Expr) (s : State F) :
    afterCall P f args s =
      some (runStmts P (after f) (eval P (update f) (atUpdate P f args s)).2) := by
  have hsplit := append_of_reductionStmt he
  have hf : statements f = stmts := by simp [statements, hstmts]
  have hu : update f = e := by simp [update, hf, he]
  rw [afterCall, hstmts, Option.map_some, atUpdate, before, after, hu, hf]
  conv_lhs => rw [hsplit]
  simp only [runStmts, List.foldl_append, List.foldl_cons, runStmt]

section

variable {P : Platform F} {hidden : List Var}

theorem initialise_register {v : Var} (hv : P.inMemory v = false) (x : Value F) (s : State F) :
    initialise P v x s = s.put (.register v) (x.convert P v.type) := by
  simp only [initialise, Platform.locate, hv, Bool.false_eq_true, if_false]

/-- Registers of hidden variables are initialised. -/
theorem agree_initialiseAll {l : List (Var × Value F)} {s t : State F}
    (hl : ∀ q ∈ l, q.1 ∈ hidden ∧ P.inMemory q.1 = false) (h : Agree hidden s t) :
    Agree hidden (initialiseAll P l s) t := by
  induction l generalizing s with
  | nil => exact h
  | cons q rest ih =>
    obtain ⟨hhidden, hregister⟩ := hl q List.mem_cons_self
    have hput := h.put_hidden hhidden (q.2.convert P q.1.type)
    rw [← initialise_register hregister] at hput
    exact ih (fun r hr => hl r (List.mem_cons_of_mem _ hr)) hput

theorem agree_entry {params : List Var}
    (hparams : ∀ p ∈ params, p ∈ hidden ∧ P.inMemory p = false) (args : Expr) (s : State F) :
    Agree hidden (entry P params args s) (eval P args s).2 :=
  agree_initialiseAll (fun _ hq => hparams _ (List.of_mem_zip hq).1) (.refl _)

/-- Every value of a list is that of its expression in some state. -/
theorem getElem?_list (P : Platform F) (args : Expr) (i : Nat) {arg : Expr}
    (h : args.exprList[i]? = some arg) (s : State F) :
    ∃ t, (eval P args s).1.list[i]? = some ((eval P arg t).1.read (eval P arg t).2) := by
  induction args generalizing i s with
  | exprCons a b _ ihb =>
    cases i with
    | zero =>
      obtain rfl := Option.some.inj h
      exact ⟨s, rfl⟩
    | succ i => exact ihb i h _
  | _ => simp [Expr.exprList] at h

/-- The initialised registers hold their values. -/
theorem register_initialiseAll {params : List Var} {vs : List (Value F)} (hnodup : params.Nodup)
    (hregister : ∀ p ∈ params, P.inMemory p = false) {i : Nat} {p : Var} {x : Value F}
    (hp : params[i]? = some p) (hx : vs[i]? = some x) (s : State F) :
    (initialiseAll P (params.zip vs) s).register p = x.convert P p.type := by
  induction params generalizing vs i s with
  | nil => simp at hp
  | cons q rest ih =>
    obtain ⟨hq, hnodup⟩ := List.nodup_cons.mp hnodup
    cases vs with
    | nil => simp at hx
    | cons y vs =>
      have hfirst := initialise_register (hregister q List.mem_cons_self) y s
      cases i with
      | zero =>
        obtain rfl := Option.some.inj hp
        obtain rfl := Option.some.inj hx
        -- no later parameter is this one
        have hrest := @agree_initialiseAll F P rest (rest.zip vs) (initialise P q y s) _
          (fun r hr => ⟨(List.of_mem_zip hr).1,
            hregister _ (List.mem_cons_of_mem _ (List.of_mem_zip hr).1)⟩) (.refl _)
        refine (hrest.register q hq).trans ?_
        rw [hfirst]
        simp [State.put]
      | succ i => exact ih hnodup (fun r hr => hregister r (List.mem_cons_of_mem _ hr)) hp hx _

end

variable {F : Type}

/-- The name of the variable is declared where the declarations `scope` are visible, and means
this variable. -/
def DeclaredIn (scope : List Var) (v : Var) : Prop :=
  scope.find? (fun w => w.name == v.name) = some v

instance (scope : List Var) (v : Var) : Decidable (DeclaredIn scope v) :=
  inferInstanceAs (Decidable (_ = _))

theorem mem_scope_of_declaredIn {scope : List Var} {v : Var} (h : DeclaredIn scope v) :
    v ∈ scope := List.mem_of_find?_eq_some h

theorem resolve_of_declaredIn {scope : List Var} {e : Expr}
    (h : ∀ v ∈ e.varRefs, DeclaredIn scope v) : e.resolve scope = e :=
  Expr.resolve_eq_self.mpr fun v hv => by
    have hfind : scope.find? (fun w => w.name == v.name) = some v := h v hv
    rw [lookup, hfind, Option.getD_some]

/-- The left side of an assignment. -/
def leftSide : Expr → Expr
  | .assign l _ | .compound _ l _ => l
  | e => e

namespace InlinedCall

variable (P : Platform F) (c : InlinedCall) (s : State F)

/-- Run in `s`, the expression put for the call, as it is read where the call stands, leaves the
memory and the variables of the caller as the call does. -/
def PreservedAt (callee : Callee) (scope : List Var) : Prop :=
  ∃ t, afterCall P callee c.args s = some t ∧
    Agree (ownVars callee) t (eval P (c.replacement.resolve scope) s).2

def helper : Callee := c.info.decl.toCallee

/-- The states of the call before the first statement, at the update and after it. -/
def entered : State F := entry P c.helper.params c.args s

def reached : State F := atUpdate P c.helper c.args s

def updated : State F := (eval P (update c.helper) (c.reached P s)).2

/-- What the language and the compiler say of the call: the names in its arguments are declared,
those of the helper's own variables are not, an argument stands for each parameter, what is
assigned or has its address taken is an l-value, and a variable whose address is taken is in
memory. -/
structure WellFormed (scope : List Var) : Prop where
  arguments : ∀ v ∈ c.args.varRefs, DeclaredIn scope v
  own : ∀ v ∈ ownVars c.helper, v ∉ scope
  params : c.helper.params.Nodup
  arity : c.args.exprList.length = c.helper.params.length
  assigned : (leftSide (update c.helper)).skipCasts = leftSide (update c.helper)
  addressed : ∀ arg ∈ c.args.exprList, ∀ e, arg.skipCasts = .addrOf e → e.skipCasts = e
  inMemory : ∀ arg ∈ c.args.exprList, ∀ v, variableFromAddressOf arg = some v →
    P.inMemory v = true

/-- The parameters are read as the texts of their arguments. Either the arguments have no effects,
or one argument has all of them and its parameter is what the right side reads first. -/
def Passed : Prop :=
  ((eval P c.args s).2 = s ∧ Faithful P c.argument c.info.rhsExpr (c.reached P s)) ∨
    ∃ v arg, c.argument v = some arg ∧ (eval P arg s).2 = (eval P c.args s).2 ∧
      (eval P arg s).1.read (eval P arg s).2 =
        (eval P (.varRef v) (c.reached P s)).1.read (c.reached P s) ∧
      ReadsFirst P c.argument v c.info.rhsExpr (c.reached P s)

/-- What a rewritten call needs, whatever form the update has. -/
structure InlinesCleanly (callee : FunctionDefinition) (scope : List Var) : Prop where
  /-- The helper is the function that is called. -/
  called : c.info.decl = callee
  /-- The names in the new expression are declared where the call stands. -/
  names : ∀ v ∈ c.replacement.varRefs, DeclaredIn scope v
  /-- The helper takes the address of none of its own variables. -/
  registers : ∀ v ∈ ownVars c.helper, P.inMemory v = false
  /-- The target is no array and no record. -/
  scalar : c.reducedVar.type.inMemory = false
  /-- The declarations before the update change the helper's own variables only. -/
  declarations : Agree (ownVars c.helper) (c.reached P s) (c.entered P s)
  /-- They leave the pointer to the target alone. -/
  pointer : ∀ idx, c.info.target = .param idx → ∀ p, c.helper.params[idx]? = some p →
    (c.reached P s).register p = (c.entered P s).register p
  passed : c.Passed P s
  /-- The declarations after the update change the helper's own variables only. -/
  trailing : Agree (ownVars c.helper) (runStmts P (after c.helper) (c.updated P s)) (c.updated P s)

/-- An update `*p = e` or `global = e` stores what the operator gives for the target and the
operand that the pass finds in `e`: the conversions in `e` make no difference. -/
def Joined : Prop :=
  ∀ l r, update c.helper = .assign l r →
    ((c.reached P s).load (P.locate c.reducedVar)).storedOver P
        ((eval P r (c.reached P s)).1.read (c.reached P s)) =
      stored P c.op (P.locate c.reducedVar) (eval P c.info.rhsExpr (c.reached P s))

end InlinedCall

section Recognition

theorem assignmentOp_of_compound {op op' : BinOp} {rop : ReductionOp}
    (h : detectCompoundAssignOp op = some rop) (h' : assignmentOp rop = some op') : op' = op := by
  cases op <;> simp [detectCompoundAssignOp] at h <;> subst h <;>
    simp [assignmentOp] at h' <;> exact h'.symm

/-- What the pass knows of a call that it rewrites. -/
structure Recognised (c : InlinedCall) : Prop where
  helper : isReductionHelperFunction c.info.decl = some c.info
  target : c.info.target.variable c.args.exprList = some c.reducedVar
  op : assignmentOp c.info.op = some c.op

theorem decl_of_isReductionHelperFunction {f : FunctionDefinition} {info : ReductionHelperInfo}
    (h : isReductionHelperFunction f = some info) : info.decl = f := by
  unfold isReductionHelperFunction at h
  simp only [Option.bind_eq_bind, Option.bind_eq_some_iff] at h
  obtain ⟨_, _, _, _, _, _, _, _, h⟩ := h
  split at h
  next =>
    cases Option.some.inj h
    rfl
  next => simp at h

theorem recognised_of_inlinedCall {project : List FunctionDefinition} {e : Expr} {c : InlinedCall}
    (h : inlinedCall project e = some c) : Recognised c := by
  unfold inlinedCall at h
  split at h
  next name args hcall =>
    simp only [Option.bind_eq_bind, Option.bind_eq_some_iff] at h
    obtain ⟨info, hinfo, reducedVar, htarget, op, hop, h⟩ := h
    cases Option.some.inj h
    obtain ⟨f, -, hf⟩ := List.exists_of_findSome?_eq_some hinfo
    split at hf
    next =>
      have hdecl := decl_of_isReductionHelperFunction hf
      exact ⟨by rw [hdecl]; exact hf, htarget, hop⟩
    next => simp at hf
  next => simp at h

/-- The update of a helper. -/
theorem exists_update {f : FunctionDefinition} {info : ReductionHelperInfo}
    (h : isReductionHelperFunction f = some info) : ∃ stmts u,
      helperStatements f.body = some stmts ∧ reductionStmt stmts = some (update f.toCallee) ∧
      updateOf (update f.toCallee) = some u ∧
      reductionTarget f.params u.reduced = some info.target ∧ info.op = u.op ∧
      info.rhsExpr = u.rhsExpr := by
  unfold isReductionHelperFunction at h
  simp only [Option.bind_eq_bind, Option.bind_eq_some_iff] at h
  obtain ⟨stmts, hstmts, e, he, u, hu, target, htarget, h⟩ := h
  have hupdate : update f.toCallee = e := by simp [update, statements, hstmts, he]
  split at h
  next =>
    cases Option.some.inj h
    rw [hupdate]
    exact ⟨stmts, u, hstmts, he, hu, htarget, rfl, rfl⟩
  next => simp at h

end Recognition

end LoomX.ReductionHelper
