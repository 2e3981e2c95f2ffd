import LoomX.CanonicalDescription
import LoomX.LoopSelection
import LoomX.ReductionSound

namespace LoomX

/-- The reductions that are supported atomically, with the type of the variable. -/
structure ReductionTarget where
  var : Var
  elemType : String
  opKind : String
  deriving DecidableEq, Repr

/-- The variable that an expression is a reference to, below casts. -/
def Expr.namedVar (e : Expr) : Option Var :=
  match e.skipCasts with
  | .varRef v => some v
  | _ => none

def targetOf (targets : List ReductionTarget) (e : Expr) : Option ReductionTarget :=
  e.namedVar.bind fun v => targets.find? (·.var = v)

/-- `targets[r.variable] = t`. -/
def insertTarget (t : ReductionTarget) (targets : List ReductionTarget) : List ReductionTarget :=
  t :: targets.filter (·.var ≠ t.var)

def reductionTarget (elementTypeName : Var → String) (r : ReductionInfo) :
    Option ReductionTarget :=
  let elem := elementTypeName r.var
  if r.isArrayElement then none
  else if r.op ≠ .add ∧ r.op ≠ .sub then none
  else if elem ≠ "int" ∧ elem ≠ "float" ∧ elem ≠ "double" then none
  else some ⟨r.var, elem, if r.op = .sub then "sub" else "add"⟩

def reductionTargets (elementTypeName : Var → String) (reductions : List ReductionInfo) :
    Option (List ReductionTarget) :=
  reductions.foldlM (fun targets r =>
    (reductionTarget elementTypeName r).map (insertTarget · targets)) []

/-- The assignments that the first pass accepts for a variable: `x = x + e`, `x = e + x` and
`x = x - e`. -/
def isAccumulation (v : Var) (rhs : Expr) : Bool :=
  match rhs.skipCasts with
  | .binary .add a b =>
    a.namedVar == some v && b.namedVar != some v || b.namedVar == some v && a.namedVar != some v
  | .binary .sub a _ => a.namedVar == some v
  | _ => false

/-- No assignment to a reduction variable has another shape. -/
def shapeAccepted (targets : List ReductionTarget) : Expr → Bool
  | .compound op lhs _ => (targetOf targets lhs).isNone || op == .add || op == .sub
  | .assign lhs rhs => (targetOf targets lhs).all fun t => isAccumulation t.var rhs
  | _ => true

/-- Every assignment at or below the expression. -/
def Expr.assignments : Expr → List Expr
  | .intVal _ _ | .varRef _ | .exprNil => []
  | .deref e | .member e _ | .addrOf e | .cast _ e | .unary _ e | .plusPlus e | .minusMinus e
  | .call _ e => e.assignments
  | .arrRef a b | .binary _ a b | .exprCons a b => a.assignments ++ b.assignments
  | .cond a b c => a.assignments ++ b.assignments ++ c.assignments
  | .assign a b => .assign a b :: (a.assignments ++ b.assignments)
  | .compound op a b => .compound op a b :: (a.assignments ++ b.assignments)

/-- The expression is a reference to a reduction variable, without a cast. -/
def isTargetRef (targets : List ReductionTarget) : Expr → Bool
  | .varRef v => targets.any (·.var = v)
  | _ => false

/-- Every reference to a reduction variable that is written stands inside an accepted assignment;
`inside` if the expression does. -/
def Expr.writesInside (targets : List ReductionTarget) (inside : Bool) : Expr → Bool
  | .intVal _ _ | .varRef _ | .exprNil => true
  | .deref e | .member e _ | .addrOf e | .cast _ e | .unary _ e | .call _ e =>
    e.writesInside targets inside
  | .arrRef a b | .binary _ a b | .exprCons a b =>
    a.writesInside targets inside && b.writesInside targets inside
  | .cond a b c => a.writesInside targets inside && b.writesInside targets inside &&
      c.writesInside targets inside
  | .assign a b | .compound _ a b =>
    let inside := inside || (targetOf targets a).isSome
    (inside || !isTargetRef targets a) && a.writesInside targets inside &&
      b.writesInside targets inside
  | .plusPlus e | .minusMinus e =>
    (inside || !isTargetRef targets e) && e.writesInside targets inside

namespace Stmt

/-- The expressions of a statement that are not part of another one. -/
def expressions : Stmt → List Expr
  | empty | breakStmt | continueStmt | decl _ none | returnStmt none => []
  | expr e | decl _ (some e) | returnStmt (some e) => [e]
  | seq s t => s.expressions ++ t.expressions
  | ite c s t => c :: (s.expressions ++ t.expressions)
  | whileLoop c s => c :: s.expressions
  | forLoop i c u s => i.expressions ++ c :: u :: s.expressions

def rewriteExprs (f : Expr → Expr) : Stmt → Stmt
  | empty => empty
  | expr e => expr (f e)
  | decl v init => decl v (init.map f)
  | seq s t => seq (s.rewriteExprs f) (t.rewriteExprs f)
  | ite c s t => ite (f c) (s.rewriteExprs f) (t.rewriteExprs f)
  | whileLoop c s => whileLoop (f c) (s.rewriteExprs f)
  | forLoop i c u s => forLoop (i.rewriteExprs f) (f c) (f u) (s.rewriteExprs f)
  | breakStmt => breakStmt
  | continueStmt => continueStmt
  | returnStmt e => returnStmt (e.map f)

end Stmt

/-- The reduction variables of a body, where every write to one of them is accepted. -/
def resolveReductions (elementTypeName : Var → String) (body : Stmt)
    (reductions : List ReductionInfo) : Option (List ReductionTarget) := do
  let targets ← reductionTargets elementTypeName reductions
  if targets.isEmpty then return targets
  else if !body.expressions.all fun e => e.assignments.all (shapeAccepted targets) then none
  else if !body.expressions.all fun e => e.writesInside targets false then none
  else return targets

def atomicName (backend : CodeGenBackend) (t : ReductionTarget) : String :=
  if backend = .cuda then "atomicAdd"
  else if t.elemType = "int" then "loomXAtomicAddInt"
  else if t.elemType = "float" then "loomXAtomicAddFloat"
  else "loomXAtomicAddDouble"

/-- What an assignment adds to its variable, and whether it is taken from it. -/
def accumulated (v : Var) (rhs : Expr) : Option (Expr × Bool) :=
  match rhs.skipCasts with
  | .binary .add a b =>
    if a.namedVar = some v ∧ b.namedVar ≠ some v then some (b, false)
    else if b.namedVar = some v ∧ a.namedVar ≠ some v then some (a, false)
    else none
  | .binary .sub a b => if a.namedVar = some v then some (b, true) else none
  | _ => none

/-- The update of a reduction variable that an assignment is. -/
def reductionUpdate (targets : List ReductionTarget) :
    Expr → Option (ReductionTarget × Expr × Bool)
  | .compound .add lhs rhs => (targetOf targets lhs).map (·, rhs, false)
  | .compound .sub lhs rhs => (targetOf targets lhs).map (·, rhs, true)
  | .assign lhs rhs => (targetOf targets lhs).bind fun t => (accumulated t.var rhs).map (t, ·)
  | _ => none

def atomicCall (backend : CodeGenBackend) (t : ReductionTarget) (rhs : Expr) (negate : Bool) :
    Expr :=
  let value := if negate then .unary .minus rhs else rhs
  .call (some (atomicName backend t))
    (.exprCons (.addrOf (.varRef t.var)) (.exprCons value .exprNil))

def rewriteUpdate (backend : CodeGenBackend) (targets : List ReductionTarget) (e : Expr) : Expr :=
  match reductionUpdate targets e with
  | some (t, rhs, negate) => atomicCall backend t rhs negate
  | none => e

/-- Only an update that stands in no other assignment is replaced. -/
def Expr.rewriteReductions (backend : CodeGenBackend) (targets : List ReductionTarget) :
    Expr → Expr
  | .intVal k n => .intVal k n
  | .varRef v => .varRef v
  | .exprNil => .exprNil
  | .deref e => .deref (e.rewriteReductions backend targets)
  | .member e f => .member (e.rewriteReductions backend targets) f
  | .addrOf e => .addrOf (e.rewriteReductions backend targets)
  | .cast t e => .cast t (e.rewriteReductions backend targets)
  | .unary op e => .unary op (e.rewriteReductions backend targets)
  | .plusPlus e => .plusPlus (e.rewriteReductions backend targets)
  | .minusMinus e => .minusMinus (e.rewriteReductions backend targets)
  | .call f e => .call f (e.rewriteReductions backend targets)
  | .arrRef a b => .arrRef (a.rewriteReductions backend targets) (b.rewriteReductions backend targets)
  | .binary op a b =>
    .binary op (a.rewriteReductions backend targets) (b.rewriteReductions backend targets)
  | .exprCons a b =>
    .exprCons (a.rewriteReductions backend targets) (b.rewriteReductions backend targets)
  | .cond a b c => .cond (a.rewriteReductions backend targets)
      (b.rewriteReductions backend targets) (c.rewriteReductions backend targets)
  | .assign a b => rewriteUpdate backend targets (.assign a b)
  | .compound op a b => rewriteUpdate backend targets (.compound op a b)

def rewriteReductions (backend : CodeGenBackend) (targets : List ReductionTarget)
    (body : Stmt) : Stmt :=
  if targets.isEmpty then body else body.rewriteExprs (·.rewriteReductions backend targets)

/-- The l-values that are assigned inside of another assignment. -/
def Expr.nestedStores : Expr → List Expr
  | .intVal _ _ | .varRef _ | .exprNil => []
  | .deref e | .member e _ | .addrOf e | .cast _ e | .unary _ e | .plusPlus e | .minusMinus e
  | .call _ e => e.nestedStores
  | .arrRef a b | .binary _ a b | .exprCons a b => a.nestedStores ++ b.nestedStores
  | .cond a b c => a.nestedStores ++ b.nestedStores ++ c.nestedStores
  | .assign a b | .compound _ a b => a.stores ++ b.stores

def Stmt.nestedStores (s : Stmt) : List Expr := s.expressions.flatMap Expr.nestedStores

section
variable {targets : List ReductionTarget} {backend : CodeGenBackend} {e : Expr} {v : Var}

theorem varRefs_skipCasts (e : Expr) : e.skipCasts.varRefs = e.varRefs := by
  induction e with
  | cast _ e ih => exact ih
  | _ => rfl

theorem stores_skipCasts (e : Expr) : e.skipCasts.stores = e.stores := by
  induction e with
  | cast _ e ih => exact ih
  | _ => rfl

theorem stores_of_namedVar (h : e.namedVar = some v) : e.stores = [] := by
  rw [← stores_skipCasts]
  unfold Expr.namedVar at h
  split at h
  next hvar => rw [hvar, Expr.stores]
  next => simp at h

/-- Both passes look for the same shapes. -/
theorem isAccumulation_eq (v : Var) (rhs : Expr) :
    isAccumulation v rhs = (accumulated v rhs).isSome := by
  unfold isAccumulation accumulated
  split
  next a b _ =>
    by_cases ha : a.namedVar = some v
    · by_cases hb : b.namedVar = some v <;> simp [ha, hb]
    · by_cases hb : b.namedVar = some v <;> simp [ha, hb]
  next a b _ => by_cases ha : a.namedVar = some v <;> simp [ha]
  next => rfl

/-- What is added holds all writes of the right side. -/
theorem stores_accumulated {rhs other : Expr} {negate : Bool}
    (h : accumulated v rhs = some (other, negate)) : other.stores = rhs.stores := by
  rw [← stores_skipCasts rhs]
  unfold accumulated at h
  split at h
  next a b hrhs =>
    rw [hrhs, Expr.stores]
    split at h
    next hvar =>
      obtain ⟨rfl, -⟩ := Prod.mk.inj (Option.some.inj h)
      rw [stores_of_namedVar hvar.1, List.nil_append]
    next =>
      split at h
      next hvar =>
        obtain ⟨rfl, -⟩ := Prod.mk.inj (Option.some.inj h)
        rw [stores_of_namedVar hvar.1, List.append_nil]
      next => simp at h
  next a b hrhs =>
    rw [hrhs, Expr.stores]
    split at h
    next hvar =>
      obtain ⟨rfl, -⟩ := Prod.mk.inj (Option.some.inj h)
      rw [stores_of_namedVar hvar, List.nil_append]
    next => simp at h
  next => simp at h

theorem stores_atomicCall (t : ReductionTarget) (rhs : Expr) (negate : Bool) :
    (atomicCall backend t rhs negate).stores = rhs.stores := by
  cases negate <;> simp [atomicCall, Expr.stores]

theorem targetOf_varRef_isSome (hv : ∃ t ∈ targets, t.var = v) :
    (targetOf targets (.varRef v)).isSome = true := by
  obtain ⟨t, ht, rfl⟩ := hv
  show (targets.find? (·.var = t.var)).isSome = true
  rw [List.find?_isSome]
  exact ⟨t, ht, by simp⟩

theorem stores_of_targetOf {t : ReductionTarget} (h : targetOf targets e = some t) :
    e.stores = [] := by
  obtain ⟨v, hv, -⟩ := Option.bind_eq_some_iff.mp h
  exact stores_of_namedVar hv

/-- An assignment in its place is replaced, or it writes to no reduction variable itself. -/
theorem mem_stores_rewriteUpdate (hv : ∃ t ∈ targets, t.var = v) {lhs rhs : Expr}
    (he : e = .assign lhs rhs ∨ ∃ op, e = .compound op lhs rhs)
    (hshape : shapeAccepted targets e = true) :
    Expr.varRef v ∈ (rewriteUpdate backend targets e).stores ↔
      Expr.varRef v ∈ lhs.stores ++ rhs.stores := by
  have hstores : e.stores = lhs :: (lhs.stores ++ rhs.stores) := by
    obtain rfl | ⟨op, rfl⟩ := he <;> rfl
  cases hlhs : targetOf targets lhs with
  | none =>
    have hnone : reductionUpdate targets e = none := by
      obtain rfl | ⟨op, rfl⟩ := he
      · simp [reductionUpdate, hlhs]
      · cases op <;> simp [reductionUpdate, hlhs]
    have hne : Expr.varRef v ≠ lhs := by
      rintro rfl
      simpa [hlhs] using targetOf_varRef_isSome hv
    simp [rewriteUpdate, hnone, hstores, hne]
  | some t =>
    have hupdate : ∃ other negate, reductionUpdate targets e = some (t, other, negate) ∧
        other.stores = rhs.stores := by
      obtain rfl | ⟨op, rfl⟩ := he
      · have hacc : (accumulated t.var rhs).isSome = true := by
          rw [← isAccumulation_eq]
          simpa [shapeAccepted, hlhs] using hshape
        obtain ⟨⟨other, negate⟩, hother⟩ := Option.isSome_iff_exists.mp hacc
        refine ⟨other, negate, ?_, stores_accumulated hother⟩
        simp [reductionUpdate, hlhs, hother]
      · have hop : op = .add ∨ op = .sub := by simpa [shapeAccepted, hlhs] using hshape
        obtain rfl | rfl := hop
        · exact ⟨rhs, false, by simp [reductionUpdate, hlhs], rfl⟩
        · exact ⟨rhs, true, by simp [reductionUpdate, hlhs], rfl⟩
    obtain ⟨other, negate, hupdate, hother⟩ := hupdate
    simp [rewriteUpdate, hupdate, stores_atomicCall, hother, stores_of_targetOf hlhs]

theorem rewriteReductions_eq_varRef (h : e.rewriteReductions backend targets = .varRef v) :
    e = .varRef v := by
  cases e with
  | varRef w => exact h
  | assign a b =>
    simp only [Expr.rewriteReductions, rewriteUpdate, atomicCall] at h
    split at h <;> simp at h
  | compound op a b =>
    simp only [Expr.rewriteReductions, rewriteUpdate, atomicCall] at h
    split at h <;> simp at h
  | _ => simp [Expr.rewriteReductions] at h

theorem isTargetRef_of_rewrite (hv : ∃ t ∈ targets, t.var = v)
    (h : Expr.varRef v = e.rewriteReductions backend targets) : isTargetRef targets e = true := by
  rw [rewriteReductions_eq_varRef h.symm]
  obtain ⟨t, ht, hvar⟩ := hv
  exact List.any_eq_true.mpr ⟨t, ht, by simp [hvar]⟩

/-- The writes to reduction variables that the rewriting leaves are those inside of other
assignments. -/
theorem mem_stores_rewriteReductions (hv : ∃ t ∈ targets, t.var = v)
    (hshape : ∀ n ∈ e.assignments, shapeAccepted targets n = true)
    (hwrites : e.writesInside targets false = true) :
    Expr.varRef v ∈ (e.rewriteReductions backend targets).stores ↔
      Expr.varRef v ∈ e.nestedStores := by
  induction e with
  | intVal | varRef | exprNil => rfl
  | deref e ih | member e f ih | addrOf e ih | cast t e ih | unary op e ih | call f e ih =>
    exact ih hshape hwrites
  | plusPlus e ih | minusMinus e ih =>
    simp only [Expr.writesInside, Bool.false_or, Bool.and_eq_true, Bool.not_eq_true'] at hwrites
    have hne : Expr.varRef v ≠ e.rewriteReductions backend targets := by
      intro h
      simp [isTargetRef_of_rewrite hv h] at hwrites
    simp only [Expr.rewriteReductions, Expr.stores, List.mem_cons, hne, false_or,
      Expr.nestedStores]
    exact ih hshape hwrites.2
  | arrRef a b iha ihb | binary op a b iha ihb | exprCons a b iha ihb =>
    simp only [Expr.writesInside, Bool.and_eq_true] at hwrites
    simp only [Expr.assignments, List.mem_append] at hshape
    simp only [Expr.rewriteReductions, Expr.stores, Expr.nestedStores, List.mem_append,
      iha (fun n hn => hshape n (Or.inl hn)) hwrites.1,
      ihb (fun n hn => hshape n (Or.inr hn)) hwrites.2]
  | cond a b c iha ihb ihc =>
    simp only [Expr.writesInside, Bool.and_eq_true] at hwrites
    simp only [Expr.assignments, List.mem_append] at hshape
    simp only [Expr.rewriteReductions, Expr.stores, Expr.nestedStores, List.mem_append,
      iha (fun n hn => hshape n (Or.inl (Or.inl hn))) hwrites.1.1,
      ihb (fun n hn => hshape n (Or.inl (Or.inr hn))) hwrites.1.2,
      ihc (fun n hn => hshape n (Or.inr hn)) hwrites.2]
  | assign a b =>
    exact mem_stores_rewriteUpdate hv (Or.inl rfl) (hshape _ (List.mem_cons_self))
  | compound op a b =>
    exact mem_stores_rewriteUpdate hv (Or.inr ⟨op, rfl⟩) (hshape _ (List.mem_cons_self))

theorem stores_eq_flatMap (s : Stmt) : s.stores = s.expressions.flatMap Expr.stores := by
  induction s with
  | decl v init => cases init <;> simp [Stmt.stores, Stmt.expressions]
  | returnStmt e => cases e <;> simp [Stmt.stores, Stmt.expressions]
  | _ => simp_all [Stmt.stores, Stmt.expressions]

theorem expressions_rewriteExprs (f : Expr → Expr) (s : Stmt) :
    (s.rewriteExprs f).expressions = s.expressions.map f := by
  induction s with
  | decl v init => cases init <;> rfl
  | returnStmt e => cases e <;> rfl
  | seq s t ihs iht => simp only [Stmt.rewriteExprs, Stmt.expressions, ihs, iht, List.map_append]
  | ite c s t ihs iht =>
    simp only [Stmt.rewriteExprs, Stmt.expressions, ihs, iht, List.map_cons, List.map_append]
  | whileLoop c s ih => simp only [Stmt.rewriteExprs, Stmt.expressions, ih, List.map_cons]
  | forLoop i c u s ihi ihs =>
    simp only [Stmt.rewriteExprs, Stmt.expressions, ihi, ihs, List.map_cons, List.map_append]
  | _ => rfl

theorem mem_insertTarget_var {t : ReductionTarget} :
    (∃ t' ∈ insertTarget t targets, t'.var = v) ↔ v = t.var ∨ ∃ t' ∈ targets, t'.var = v := by
  by_cases hv : v = t.var
  · simp [insertTarget, hv]
  · have hne : t.var ≠ v := Ne.symm hv
    simp only [insertTarget, List.mem_cons, exists_eq_or_imp, hne, hv, false_or, List.mem_filter,
      decide_eq_true_eq]
    refine exists_congr fun t' => ?_
    constructor
    · exact fun h => ⟨h.1.1, h.2⟩
    · exact fun h => ⟨⟨h.1, h.2 ▸ hv⟩, h.2⟩

theorem reductionTarget_var {elementTypeName : Var → String} {r : ReductionInfo}
    {t : ReductionTarget} (h : reductionTarget elementTypeName r = some t) : t.var = r.var := by
  simp only [reductionTarget] at h
  split at h
  next => simp at h
  next =>
    split at h
    next => simp at h
    next =>
      split at h
      next => simp at h
      next => rw [← Option.some.inj h]

/-- The targets are those of the reductions. -/
theorem target_of_reduction {elementTypeName : Var → String} {reductions : List ReductionInfo}
    (h : reductionTargets elementTypeName reductions = some targets) {r : ReductionInfo}
    (hr : r ∈ reductions) : ∃ t ∈ targets, t.var = r.var := by
  suffices hall : ∀ {acc targets : List ReductionTarget},
      reductions.foldlM (fun targets r =>
        (reductionTarget elementTypeName r).map (insertTarget · targets)) acc = some targets →
      ∀ v, (∃ t ∈ acc, t.var = v) ∨ (∃ r ∈ reductions, r.var = v) → ∃ t ∈ targets, t.var = v from
    hall h r.var (Or.inr ⟨r, hr, rfl⟩)
  clear h hr
  induction reductions with
  | nil =>
    intro acc targets h v hv
    obtain rfl : acc = targets := Option.some.inj h
    simpa using hv
  | cons r rs ih =>
    intro acc targets h v hv
    rw [List.foldlM_cons, Option.bind_eq_bind, Option.bind_eq_some_iff] at h
    obtain ⟨next, hnext, hrest⟩ := h
    obtain ⟨t, ht, rfl⟩ := Option.map_eq_some_iff.mp hnext
    refine ih hrest v ?_
    rw [mem_insertTarget_var, reductionTarget_var ht]
    obtain hv | ⟨r', hr', hv⟩ := hv
    · exact Or.inl (Or.inr hv)
    · obtain rfl | hr' := List.mem_cons.mp hr'
      · exact Or.inl (Or.inl hv.symm)
      · exact Or.inr ⟨r', hr', hv⟩

theorem resolveReductions_eq_some {elementTypeName : Var → String} {body : Stmt}
    {reductions : List ReductionInfo}
    (h : resolveReductions elementTypeName body reductions = some targets) :
    reductionTargets elementTypeName reductions = some targets ∧
      (targets = [] ∨ ∀ e ∈ body.expressions,
        (∀ n ∈ e.assignments, shapeAccepted targets n = true) ∧
          e.writesInside targets false = true) := by
  obtain ⟨targets', ht, h⟩ := Option.bind_eq_some_iff.mp h
  split at h
  next hempty =>
    obtain rfl := Option.some.inj h
    exact ⟨ht, Or.inl (List.isEmpty_iff.mp hempty)⟩
  next =>
    split at h
    next => simp at h
    next hshape =>
      split at h
      next => simp at h
      next hwrites =>
        obtain rfl := Option.some.inj h
        simp only [Bool.not_eq_true', Bool.not_eq_false, List.all_eq_true] at hshape hwrites
        exact ⟨ht, Or.inr fun e he => ⟨hshape e he, hwrites e he⟩⟩

end

/-- After the rewriting of an accepted body, all reduction variables are written atomically exactly
when none of them was written inside of another assignment. -/
theorem reductions_atomic_iff {elementTypeName : Var → String} {body : Stmt}
    {reductions : List ReductionInfo} {targets : List ReductionTarget}
    (h : resolveReductions elementTypeName body reductions = some targets)
    (backend : CodeGenBackend) :
    (∀ r ∈ reductions, Expr.varRef r.var ∉ (rewriteReductions backend targets body).stores) ↔
      ∀ r ∈ reductions, Expr.varRef r.var ∉ body.nestedStores := by
  obtain ⟨htargets, haccepted⟩ := resolveReductions_eq_some h
  refine forall₂_congr fun r hr => not_congr ?_
  have hv := target_of_reduction htargets hr
  obtain rfl | haccepted := haccepted
  · simp at hv
  · have hne : targets.isEmpty = false := by
      obtain ⟨t, ht, -⟩ := hv
      exact List.isEmpty_eq_false_iff_exists_mem.mpr ⟨t, ht⟩
    simp only [rewriteReductions, hne, Bool.false_eq_true, if_false, stores_eq_flatMap,
      expressions_rewriteExprs, List.flatMap_map, Stmt.nestedStores, List.mem_flatMap]
    refine exists_congr fun e => and_congr_right fun he => ?_
    exact mem_stores_rewriteReductions hv (haccepted e he).1 (haccepted e he).2

def sumVar : Var := ⟨1, "sum", .floating, .automatic⟩

/-- `sum += name[i]` -/
def addElement (id : Nat) (name : String) : Expr :=
  .compound .add (.varRef sumVar)
    (.arrRef (.varRef ⟨id, name, .array, .automatic⟩) (.varRef (intVar 0 "i")))

/-- `sum += a[i];` -/
theorem plainUpdate_atomic :
    resolveReductions (fun _ => "double") (.expr (addElement 2 "a"))
        [⟨sumVar, .add, false, none⟩] = some [⟨sumVar, "double", "add"⟩] ∧
      ∀ r ∈ [ReductionInfo.mk sumVar .add false none], Expr.varRef r.var ∉
        (rewriteReductions .cuda [⟨sumVar, "double", "add"⟩] (.expr (addElement 2 "a"))).stores := by
  have h : resolveReductions (fun _ => "double") (.expr (addElement 2 "a"))
      [⟨sumVar, .add, false, none⟩] = some [⟨sumVar, "double", "add"⟩] := by decide
  exact ⟨h, (reductions_atomic_iff h .cuda).mpr (by decide)⟩

/-- `for (i = 0; i < 10; i++) { sum += a[i]; x[i] = (sum += b[i]); }` keeps its second update. -/
theorem nestedUpdate_not_atomic :
    let target := Expr.arrRef (.varRef ⟨4, "x", .array, .automatic⟩) (.varRef (intVar 0 "i"))
    let loop := { countingLoop 0 10 .lt .plusPlus with
      body := .seq (.expr (addElement 2 "a")) (.expr (.assign target (addElement 3 "b"))) }
    resolveReductions (fun _ => "double") loop.body (detectReductions loop) =
        some [⟨sumVar, "double", "add"⟩] ∧
      ∃ r ∈ detectReductions loop, Expr.varRef r.var ∈
        (rewriteReductions .cuda [⟨sumVar, "double", "add"⟩] loop.body).stores := by
  decide

end LoomX
