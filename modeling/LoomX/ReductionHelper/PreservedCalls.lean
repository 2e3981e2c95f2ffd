import LoomX.ReductionHelper.InlinedUpdate

namespace LoomX.ReductionHelper

variable {F : Type} {P : Platform F}

section Target

theorem locate_visible {hidden : List Var} {v : Var} (hv : v ∉ hidden) :
    (P.locate v).Visible hidden := by
  unfold Platform.locate
  split
  next => trivial
  next => exact hv

/-- The value of `&var`. -/
theorem read_addressOf {arg : Expr} {v : Var} (hv : variableFromAddressOf arg = some v)
    (hlvalue : ∀ e, arg.skipCasts = .addrOf e → e.skipCasts = e)
    (hscalar : v.type.inMemory = false) (hmem : P.inMemory v = true) (s : State F) :
    (eval P arg s).1.read (eval P arg s).2 = .pointer ⟨.variable v, 0⟩ := by
  apply read_of_skipCasts
  unfold variableFromAddressOf at hv
  split at hv
  next e harg =>
    rw [hlvalue e harg] at hv
    split at hv
    next w =>
      obtain rfl := Option.some.inj hv
      rw [harg, eval, eval_scalar hscalar, Platform.locate, if_pos hmem]
      rfl
    next => simp at hv
  next => simp at hv

/-- What a pointer in a register designates. -/
theorem eval_deref {e : Expr} {p v : Var} {s : State F} (hbase : e.skipCasts = .varRef p)
    (harray : p.type ≠ .array) (hregister : P.inMemory p = false)
    (hpointer : s.register p = .pointer ⟨.variable v, 0⟩) (hmem : P.inMemory v = true) :
    eval P (.deref e) s = (.object (P.locate v), s) := by
  have hvalue : eval P (.varRef p) s = (.object (.register p), s) := by
    rw [eval, if_neg harray, Platform.locate, hregister]
    rfl
  have hstate : (eval P e s).2 = s := by
    rw [state_skipCasts, hbase, hvalue]
  have hread : (eval P e s).1.read (eval P e s).2 = .pointer ⟨.variable v, 0⟩ := by
    apply read_of_skipCasts
    rw [hbase, hvalue]
    exact hpointer
  rw [hstate] at hread
  rw [Platform.locate, if_pos hmem]
  simp only [eval, hstate, hread, Result.pointee]

variable {c : InlinedCall} {scope : List Var} {s : State F} {callee : FunctionDefinition}

/-- The pointer of the helper holds the address of the target when the update is made. -/
theorem pointer_reached (hc : Recognised c) (hwf : c.WellFormed P scope)
    (h : c.InlinesCleanly P s callee scope) {idx : Nat} (htarget : c.info.target = .param idx)
    {p : Var} (hp : c.helper.params[idx]? = some p) :
    (c.reached P s).register p = .pointer ⟨.variable c.reducedVar, 0⟩ ∧
      P.inMemory c.reducedVar = true := by
  have hvar := hc.target
  rw [htarget, ReductionTarget.variable] at hvar
  obtain ⟨arg, harg, hvar⟩ := Option.bind_eq_some_iff.mp hvar
  have hmem := hwf.inMemory arg (List.mem_of_getElem? harg) _ hvar
  refine ⟨?_, hmem⟩
  obtain ⟨t, ht⟩ := getElem?_list P c.args idx harg s
  rw [read_addressOf hvar (hwf.addressed arg (List.mem_of_getElem? harg)) h.scalar hmem] at ht
  rw [h.pointer idx htarget p hp]
  refine (register_initialiseAll hwf.params
    (fun q hq => h.registers q (List.mem_append_left _ hq)) hp ht _).trans ?_
  exact Value.convert_pointer P p.type _

theorem eval_leftSide (hc : Recognised c) (hwf : c.WellFormed P scope)
    (h : c.InlinesCleanly P s callee scope) {u : Update}
    (hreduced : reducedVarOf (leftSide (update c.helper)) = some u.reduced)
    (htarget : reductionTarget c.helper.params u.reduced = some c.info.target) :
    eval P (leftSide (update c.helper)) (c.reached P s) =
      (.object (P.locate c.reducedVar), c.reached P s) := by
  unfold reducedVarOf at hreduced
  rw [hwf.assigned] at hreduced
  split at hreduced
  next e hleft =>
    split at hreduced
    next p hbase =>
      rw [← Option.some.inj hreduced, reductionTarget] at htarget
      obtain ⟨⟨hmem, -⟩, htarget⟩ := Option.ite_none_right_eq_some.mp htarget
      have hp : c.helper.params[c.helper.params.idxOf p]? = some p := by
        rw [List.getElem?_eq_getElem (List.idxOf_lt_length_of_mem hmem), List.getElem_idxOf]
      obtain ⟨hpointer, htaken⟩ :=
        pointer_reached hc hwf h (Option.some.inj htarget).symm hp
      rw [hleft]
      exact eval_deref hbase (c.helper.adjusted p hmem)
        (h.registers p (List.mem_append_left _ hmem)) hpointer htaken
    next => simp at hreduced
  next g hleft =>
    obtain ⟨-, hreduced⟩ := Option.ite_none_right_eq_some.mp hreduced
    rw [← Option.some.inj hreduced, reductionTarget] at htarget
    have hvar := hc.target
    rw [← Option.some.inj htarget, ReductionTarget.variable] at hvar
    obtain rfl := Option.some.inj hvar
    rw [hleft, eval_scalar h.scalar]
  next => simp at hreduced

end Target

section Update

theorem otherOperand_some {v : Var} {l r e : Expr} (h : otherOperand v l r = some e) :
    ∃ x y z, l.skipCasts = .varRef x ∧ r.skipCasts = .varRef y ∧ e = .varRef z := by
  unfold otherOperand at h
  split at h
  next x y hl hr =>
    split_ifs at h
    · exact ⟨x, y, y, hl, hr, (Option.some.inj h).symm⟩
    · exact ⟨x, y, x, hl, hr, (Option.some.inj h).symm⟩
  next => simp at h

theorem state_varRef {e : Expr} {v : Var} (h : e.skipCasts = .varRef v) (s : State F) :
    (eval P e s).2 = s := by
  rw [state_skipCasts, h]
  rfl

/-- The right side of `global = global + e` has no effects. -/
theorem state_detect {v : Var} {r e : Expr} {op : ReductionOp} (h : detect v r = some (op, e))
    (s : State F) : (eval P r s).2 = s ∧ ∃ z, e = .varRef z := by
  have hoperands : ∀ {bop : BinOp} {a b : Expr}, r.skipCasts = .binary bop a b →
      otherOperand v a b = some e → (eval P r s).2 = s ∧ ∃ z, e = .varRef z := by
    intro bop a b hr he
    obtain ⟨x, y, z, ha, hb, hz⟩ := otherOperand_some he
    refine ⟨?_, z, hz⟩
    rw [state_skipCasts, hr]
    simp only [eval]
    split
    · rw [state_varRef hb, state_varRef ha]
    · exact state_varRef ha s
  unfold detect at h
  split at h
  next a b hr =>
    obtain ⟨e', he, heq⟩ := Option.map_eq_some_iff.mp h
    exact hoperands hr (by rw [he, (Prod.mk.inj heq).2])
  next a b hr =>
    obtain ⟨e', he, heq⟩ := Option.map_eq_some_iff.mp h
    exact hoperands hr (by rw [he, (Prod.mk.inj heq).2])
  next => simp at h

variable {c : InlinedCall} {scope : List Var} {s : State F} {callee : FunctionDefinition}

theorem notMem_ownVars (hwf : c.WellFormed P scope) {v : Var} (hv : DeclaredIn scope v) :
    v ∉ ownVars c.helper := fun h => hwf.own v h (mem_scope_of_declaredIn hv)

theorem argument_spec {v : Var} {arg : Expr} (h : c.argument v = some arg) :
    arg ∈ c.args.exprList := by
  have hmem := mem_of_paramToArg h
  unfold ReductionTarget.others at hmem
  split at hmem
  · exact List.mem_of_mem_eraseIdx hmem
  · exact hmem

/-- Up to the update the call has changed nothing of the caller but what the arguments change. -/
theorem agree_reached (h : c.InlinesCleanly P s callee scope) :
    Agree (ownVars c.helper) (c.reached P s) (eval P c.args s).2 :=
  h.declarations.trans
    (agree_entry (fun p hp => ⟨List.mem_append_left _ hp,
      h.registers p (List.mem_append_left _ hp)⟩) c.args s)

/-- A parameter that is read faithfully and its argument. -/
theorem simulated_argument {hidden : List Var} (hP : P.Hides hidden) {σ : Var → Option Expr}
    {v : Var} {arg : Expr} (harg : σ v = some arg) (hvisible : ∀ w ∈ arg.varRefs, w ∉ hidden) :
    Simulated P hidden σ (.varRef v) arg := by
  intro d t hdt hd
  obtain ⟨hpure, hvalue⟩ := hd arg harg
  have hsame := sameEval_of_visible hP hvisible hdt
  have hread := hsame.value
  have hstate := hsame.state
  rw [hpure] at hread hstate
  refine ⟨hvalue.symm.trans hread, hstate, fun hkept => ?_⟩
  have hnone := hkept v rfl
  rw [harg] at hnone
  exact absurd hnone (by simp)

theorem sameEval_rhs (hP : P.Hides (ownVars c.helper))
    (hfix : P.KeepsFixity fun v => (c.argument v).getD (.varRef v)) (hwf : c.WellFormed P scope)
    (h : c.InlinesCleanly P s callee scope) :
    SameEval P (ownVars c.helper) (Kept c.argument c.info.rhsExpr) c.info.rhsExpr c.newRhs
      (c.reached P s) s := by
  have hagree := agree_reached h
  have href : ∀ v ∈ c.info.rhsExpr.varRefs, Simulated P (ownVars c.helper) c.argument
      (.varRef v) ((c.argument v).getD (.varRef v)) := by
    intro v hv
    cases harg : c.argument v with
    | none =>
      have hnew : v ∈ c.newRhs.varRefs := by
        rw [InlinedCall.newRhs, Expr.varRefs_replaceRefs]
        exact List.mem_flatMap.mpr ⟨v, hv, by simp [harg, Expr.varRefs]⟩
      exact simulated_varRef (notMem_ownVars hwf (h.names v (List.mem_cons_of_mem _ hnew)))
    | some arg =>
      exact simulated_argument hP harg fun w hw => notMem_ownVars hwf
        (hwf.arguments w (varRefs_of_mem_exprList (argument_spec harg) w hw))
  rcases h.passed with ⟨hpure, hfaithful⟩ | ⟨v, arg, harg, hstate, hvalue, hfirst⟩
  · rw [hpure] at hagree
    exact simulated_replaceRefs hP hfix href _ _ hagree hfaithful
  · rw [← hstate] at hagree
    exact sameEval_readsFirst hP hfix harg ⟨hvalue.symm, hagree, False.elim⟩ href hfirst

/-- The helper stores in the target what the new expression stores there, if the operand is
joined. -/
theorem exists_updated_eq (hc : Recognised c) (hwf : c.WellFormed P scope)
    (h : c.InlinesCleanly P s callee scope) : ∃ x,
      c.updated P s = (eval P c.info.rhsExpr (c.reached P s)).2.put (P.locate c.reducedVar) x ∧
      (x = stored P c.op (P.locate c.reducedVar) (eval P c.info.rhsExpr (c.reached P s)) ↔
        c.Joined P s) := by
  obtain ⟨stmts, u, -, -, hu, htarget, hop, hrhs⟩ := exists_update hc.helper
  have hassigned := hc.op
  have hleft := fun hreduced => eval_leftSide hc hwf h hreduced htarget
  unfold InlinedCall.updated InlinedCall.Joined
  change updateOf (update c.helper) = some u at hu
  revert hu hleft
  generalize update c.helper = e
  intro hleft hu
  unfold updateOf at hu
  simp only [Option.bind_eq_bind] at hu
  split at hu
  next op lhs rhs =>
    obtain ⟨reduced, hreduced, hu⟩ := Option.bind_eq_some_iff.mp hu
    obtain ⟨rop, hrop, hu⟩ := Option.bind_eq_some_iff.mp hu
    obtain rfl := Option.some.inj hu
    rw [hop] at hassigned
    obtain rfl : c.op = op := assignmentOp_of_compound hrop hassigned
    rw [hrhs]
    exact ⟨_, state_compound (hleft hreduced) _ _, iff_of_true rfl fun _ _ => nofun⟩
  next lhs r =>
    obtain ⟨reduced, hreduced, hu⟩ := Option.bind_eq_some_iff.mp hu
    obtain ⟨⟨rop, other⟩, hdetect, hu⟩ := Option.bind_eq_some_iff.mp hu
    obtain rfl := Option.some.inj hu
    obtain ⟨hstate, z, rfl⟩ := @state_detect F P _ _ _ _ hdetect (c.reached P s)
    have hother : (eval P c.info.rhsExpr (c.reached P s)).2 = c.reached P s := by
      rw [hrhs]
      rfl
    rw [hother]
    refine ⟨_, state_assign (hleft hreduced) hstate, ?_⟩
    constructor
    · intro heq l r' hassign
      obtain ⟨-, rfl⟩ := Expr.assign.inj hassign
      exact heq
    · exact fun hjoined => hjoined lhs r rfl
  next => simp at hu

end Update

namespace Accumulate

def localVar (id : Nat) (name : String) (type : CType) : Var := ⟨id, name, type, .automatic⟩

def intType : CType := .integer 32 true

def x : Var := localVar 1 "x" intType
def small : Var := localVar 2 "x" (.integer 8 true)
def p : Var := localVar 3 "p" .pointer
def temporary : Var := localVar 4 "t" intType
def sum : Var := localVar 5 "sum" intType
def i : Var := localVar 6 "i" intType
def t : Var := localVar 7 "t" intType

/-- `void addSquare(int x, int *p)`: `*p += x * x;` -/
def addSquare : FunctionDefinition :=
  { name := "addSquare", returnsVoid := true, astNodeCount := 20, params := [x, p]
    body := .expr (.compound .add (.deref (.varRef p)) (.binary .mul (.varRef x) (.varRef x)))
    adjusted := by decide }

/-- `void addSquareLater(int x, int *p)`: `int t = x * x; *p += t;` -/
def addSquareLater : FunctionDefinition :=
  { name := "addSquareLater", returnsVoid := true, astNodeCount := 30, params := [x, p]
    body := .seq (.decl temporary (some (.binary .mul (.varRef x) (.varRef x))))
      (.expr (.compound .add (.deref (.varRef p)) (.varRef temporary)))
    adjusted := by decide }

/-- `void addNarrow(signed char x, int *p)`: `*p += x;` -/
def addNarrow : FunctionDefinition :=
  { name := "addNarrow", returnsVoid := true, astNodeCount := 20, params := [small, p]
    body := .expr (.compound .add (.deref (.varRef p)) (.varRef small))
    adjusted := by decide }

def project : List FunctionDefinition := [addSquare, addSquareLater, addNarrow]

/-- Called with `arg` and `&sum`. -/
def arguments (arg : Expr) : Expr := .exprCons arg (.exprCons (.addrOf (.varRef sum)) .exprNil)

def site (f : FunctionDefinition) (rhs arg : Expr) : InlinedCall :=
  ⟨⟨f, .param 1, .add, rhs⟩, arguments arg, sum, .add⟩

/-- No floating-point arithmetic. -/
def platform : Platform Unit where
  inMemory v := v = sum
  offset _ := 0
  isPrefixed _ := false
  ofInt _ := ()
  toInt _ := 0
  negate _ := ()
  arithmetic _ _ _ := ()
  compare _ _ _ := false
  call _ _ s := (.undefined, s)

def start (n : Int) : State Unit :=
  ⟨fun v => .integer 32 true (if v = i then n else 0), fun _ => .integer 32 true 0⟩

def scope : List Var := [t, i, sum]

end Accumulate

/-- The call is rewritten, and what stands for it does something else from `s`. -/
def Accumulate.Miscompiled (f : FunctionDefinition) (rhs arg : Expr) (s : State Unit) : Prop :=
  inlinedCall project (.call (some f.name) (arguments arg)) = some (site f rhs arg) ∧
    ¬(site f rhs arg).PreservedAt platform s f.toCallee scope

end LoomX.ReductionHelper
