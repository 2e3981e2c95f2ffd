import LoomX.ReductionSound

namespace LoomX

/-- `op` combines its right operand into the left one as `rop` does; `+` and `-` go together. -/
def BinOp.foldsAs (op : BinOp) (rop : ReductionOp) : Bool :=
  match op, rop with
  | .add, .add | .add, .sub | .sub, .add | .sub, .sub | .mul, .mul => true
  | .band, .bitAnd | .bor, .bitOr | .bxor, .bitXor => true
  | _, _ => false

namespace Expr

/-- The value is that of `x` with further values combined in. -/
def accumulator (x : Var) (rop : ReductionOp) : Expr → Bool
  | varRef v => v = x && !v.type.inMemory
  | binary op l r =>
    op.foldsAs rop && (l.accumulator x rop && !r.containsVar x ||
      op != .sub && !l.containsVar x && r.accumulator x rop)
  | _ => false

/-- An update of `x` that reads `x` for nothing else. -/
def updates (x : Var) (rop : ReductionOp) : Expr → Bool
  | assign l r => l = varRef x && !x.type.inMemory && r.accumulator x rop
  | compound op l r => l = varRef x && !x.type.inMemory && op.foldsAs rop && !r.containsVar x
  | plusPlus e | minusMinus e => e = varRef x && !x.type.inMemory && BinOp.foldsAs .add rop
  | _ => false

end Expr

/-- `x` occurs only in updates by `rop`. -/
def Stmt.accumulates (x : Var) (rop : ReductionOp) : Stmt → Bool
  | .empty | .breakStmt | .continueStmt | .returnStmt none => true
  | .expr e => e.updates x rop || !e.containsVar x
  | .decl v none => v ≠ x
  | .decl v (some e) => v ≠ x && !e.containsVar x
  | .returnStmt (some e) => !e.containsVar x
  | .seq a b => a.accumulates x rop && b.accumulates x rop
  | .ite c a b => !c.containsVar x && a.accumulates x rop && b.accumulates x rop
  | .whileLoop c b => !c.containsVar x && b.accumulates x rop
  | .forLoop i c u b =>
    i.accumulates x rop && !c.containsVar x && !u.containsVar x && b.accumulates x rop

theorem foldsAs_apply {op : BinOp} {rop : ReductionOp} (h : op.foldsAs rop = true) :
    (∀ m n, op.apply m n = rop.combine m n) ∨ op = .sub ∧ ∀ m n, op.apply m n = rop.combine m (-n) := by
  cases op <;> cases rop <;> simp only [BinOp.foldsAs, Bool.false_eq_true] at h
  case sub.add | sub.sub => exact Or.inr ⟨rfl, fun m n => Int.sub_eq_add_neg⟩
  all_goals exact Or.inl fun m n => rfl

theorem apply_combine {op : BinOp} {rop : ReductionOp} (h : op.foldsAs rop = true) (a v n : Int) :
    op.apply (rop.combine a v) n = rop.combine a (op.apply v n) := by
  rcases foldsAs_apply h with happly | ⟨_, happly⟩
  · rw [happly, happly, rop.combine_assoc]
  · rw [happly, happly, rop.combine_assoc]

theorem apply_comm {op : BinOp} {rop : ReductionOp} (h : op.foldsAs rop = true) (hsub : op ≠ .sub)
    (m n : Int) : op.apply m n = op.apply n m := by
  rcases foldsAs_apply h with happly | ⟨heq, _⟩
  · rw [happly, happly, rop.combine_comm]
  · exact absurd heq hsub

theorem goesOn_of_foldsAs {op : BinOp} {rop : ReductionOp} (h : op.foldsAs rop = true) (n : Int) :
    op.goesOn n = true := by
  cases op <;> cases rop <;> simp_all [BinOp.foldsAs, BinOp.goesOn]

section
variable {P : Platform} {x : Var} {rop : ReductionOp} (hP : Framed P x)
include hP

theorem blind_of_containsVar {e : Expr} (g : Int → Int) (h : (!e.containsVar x) = true) :
    Blind P x g e :=
  blind_of_not_mem hP g (by simpa [Expr.containsVar] using h)

theorem accumulator_eval {e : Expr} (h : e.accumulator x rop = true) (a : Int) (s : State) :
    e.eval P (s.mapVar x (rop.combine a)) =
      (rop.combine a (e.eval P s).1, (e.eval P s).2.mapVar x (rop.combine a)) := by
  induction e generalizing s with
  | varRef v =>
    simp only [Expr.accumulator, Bool.and_eq_true, decide_eq_true_eq, Bool.not_eq_true'] at h
    obtain ⟨rfl, hmem⟩ := h
    simp [Expr.eval, State.read, hmem]
  | binary op l r ihl ihr =>
    simp only [Expr.accumulator, Bool.and_eq_true, Bool.or_eq_true, bne_iff_ne] at h
    obtain ⟨hop, hside⟩ := h
    simp only [Expr.eval, goesOn_of_foldsAs hop, if_true]
    rcases hside with ⟨hl, hr⟩ | ⟨⟨hsub, hl⟩, hr⟩
    · have hblind := blind_of_containsVar hP (rop.combine a) hr
      rw [ihl hl]
      simp only [hblind.eval, apply_combine hop]
    · have hblind := blind_of_containsVar hP (rop.combine a) hl
      rw [hblind.eval]
      simp only [ihr hr]
      rw [apply_comm hop hsub, apply_combine hop, apply_comm hop hsub]
  | _ => simp [Expr.accumulator] at h

theorem updates_eval {e : Expr} (h : e.updates x rop = true) (a : Int) (s : State) :
    (e.eval P (s.mapVar x (rop.combine a))).2 =
      (e.eval P s).2.mapVar x (rop.combine a) := by
  have hwrite : ∀ (t : State) (m : Int), (t.mapVar x (rop.combine a)).setVar x (rop.combine a m) =
      (t.setVar x m).mapVar x (rop.combine a) := by
    intro t m
    simp [State.mapVar]
  cases e with
  | assign l r =>
    simp only [Expr.updates, Bool.and_eq_true, decide_eq_true_eq, Bool.not_eq_true'] at h
    obtain ⟨⟨rfl, hmem⟩, hr⟩ := h
    simp only [Expr.eval, Expr.locate, hmem, Bool.false_eq_true, if_false,
      accumulator_eval hP hr, State.write, hwrite]
  | compound op l r =>
    simp only [Expr.updates, Bool.and_eq_true, decide_eq_true_eq] at h
    obtain ⟨⟨⟨rfl, hmem⟩, hop⟩, hr⟩ := h
    have hmem' : x.type.inMemory = false := by simpa using hmem
    have hblind := blind_of_containsVar hP (rop.combine a) hr
    simp only [Expr.eval, Expr.locate, hmem', Bool.false_eq_true, if_false, hblind.eval,
      State.write, State.read, State.mapVar_self, apply_combine hop, hwrite]
  | plusPlus e =>
    simp only [Expr.updates, Bool.and_eq_true, decide_eq_true_eq, Bool.not_eq_true'] at h
    obtain ⟨⟨rfl, hmem⟩, hop⟩ := h
    have happly := apply_combine hop a (s.vars x) 1
    simp only [BinOp.apply] at happly
    simp only [Expr.eval, Expr.locate, hmem, Bool.false_eq_true, if_false, State.write, State.read,
      State.mapVar_self, happly, hwrite]
  | minusMinus e =>
    simp only [Expr.updates, Bool.and_eq_true, decide_eq_true_eq, Bool.not_eq_true'] at h
    obtain ⟨⟨rfl, hmem⟩, hop⟩ := h
    have happly := apply_combine hop a (s.vars x) (-1)
    simp only [BinOp.apply, ← Int.sub_eq_add_neg] at happly
    simp only [Expr.eval, Expr.locate, hmem, Bool.false_eq_true, if_false, State.write, State.read,
      State.mapVar_self, happly, hwrite]
  | _ => simp [Expr.updates] at h

/-- A body in which `x` occurs only in updates commutes with combining a value into `x`. -/
theorem commutes_of_accumulates {b : Stmt} (h : b.accumulates x rop = true) (fuel : Nat) (a : Int) :
    Commutes x (rop.combine a) (b.exec P fuel) := by
  induction b with
  | empty | breakStmt | continueStmt => exact fun s => rfl
  | expr e =>
    intro s
    simp only [Stmt.accumulates, Bool.or_eq_true] at h
    rcases h with h | h
    · simp only [Stmt.exec, updates_eval hP h, Option.map_some]
    · simp only [Stmt.exec, (blind_of_containsVar hP _ h).eval, Option.map_some]
  | decl v init =>
    intro s
    cases init with
    | none =>
      have hv : v ≠ x := by simpa [Stmt.accumulates] using h
      simp only [Stmt.exec, State.mapVar_setVar hv, Option.map_some]
    | some e =>
      simp only [Stmt.accumulates, Bool.and_eq_true, decide_eq_true_eq] at h
      simp only [Stmt.exec, (blind_of_containsVar hP _ h.2).eval, State.mapVar_setVar h.1,
        Option.map_some]
  | returnStmt e =>
    intro s
    cases e with
    | none => rfl
    | some e =>
      simp only [Stmt.accumulates] at h
      simp only [Stmt.exec, (blind_of_containsVar hP _ h).eval, Option.map_some]
  | seq b c ihb ihc =>
    intro s
    simp only [Stmt.accumulates, Bool.and_eq_true] at h
    simp only [Stmt.exec, ihb h.1 s]
    cases b.exec P fuel s with
    | none => rfl
    | some r =>
      obtain ⟨outcome, t⟩ := r
      cases outcome with
      | normal => exact ihc h.2 t
      | _ => rfl
  | ite c b d ihb ihd =>
    intro s
    simp only [Stmt.accumulates, Bool.and_eq_true] at h
    simp only [Stmt.exec, (blind_of_containsVar hP _ h.1.1).eval]
    split
    next => exact ihb h.1.2 _
    next => exact ihd h.2 _
  | whileLoop c b ih =>
    simp only [Stmt.accumulates, Bool.and_eq_true] at h
    exact commutes_runLoop (blind_of_containsVar hP _ h.1).eval (ih h.2) (fun s => rfl) fuel
  | forLoop i c u b ihi ihb =>
    intro s
    simp only [Stmt.accumulates, Bool.and_eq_true] at h
    have hstep : ∀ t : State, (u.eval P (t.mapVar x (rop.combine a))).2 =
        (u.eval P t).2.mapVar x (rop.combine a) := fun t => by
      rw [(blind_of_containsVar hP _ h.1.2).eval]
    simp only [Stmt.exec, ihi h.1.1.1 s]
    cases i.exec P fuel s with
    | none => rfl
    | some r =>
      obtain ⟨outcome, t⟩ := r
      cases outcome with
      | normal =>
        exact commutes_runLoop (blind_of_containsVar hP _ h.1.1.2).eval (ihb h.2) hstep fuel t
      | _ => rfl

theorem accumulates_of_forms {b : Stmt} {i : Var} (hi : i ≠ x)
    (h : b.accumulates x rop = true) : Accumulates P b i x rop := by
  intro fuel k s a m
  have hset : s.setVar x (rop.combine a m) = (s.setVar x m).mapVar x (rop.combine a) := by
    simp [State.mapVar]
  have hrun := commutes_of_accumulates hP h fuel a ((s.setVar x m).setVar i k)
  simp only [reductionStep, iteration]
  rw [hset, State.mapVar_setVar hi, hrun]
  cases b.exec P fuel ((s.setVar x m).setVar i k) with
  | none => rfl
  | some r =>
    obtain ⟨outcome, t⟩ := r
    cases outcome <;> simp [State.mapVar]

end

/-- Iterations that do not change what others make of `x` may run in any order. -/
theorem orderFree_of_independent {P : Platform} {b : Stmt} {i x : Var} {rop : ReductionOp}
    (hacc : Accumulates P b i x rop)
    (hind : ∀ fuel, (reductionStep P fuel b i x).Independent) : OrderFree P b i x := by
  intro fuel ks ks' s s' hks hperm hrun
  obtain ⟨e, he, _⟩ := rop.exists_identity (s.vars x) (s.vars x)
  have hm := ReductionOp.combine_identity he
  have hvalue := AccStep.runAll_value rop.combine_right_comm (hacc fuel) (hind fuel) hm hks s
  have hvalue' := AccStep.runAll_value rop.combine_right_comm (hacc fuel) (hind fuel) hm
    (hperm.nodup_iff.mpr hks) s
  have : RightCommutative (AccStep.addContribution rop.combine (reductionStep P fuel b i x) s e) :=
    ⟨AccStep.addContribution_right_comm rop.combine_right_comm s e⟩
  rw [hperm.foldl_eq, ← hvalue, runAll_reductionStep, runAll_reductionStep,
    State.setVar_vars_self, hrun] at hvalue'
  obtain ⟨t, ht, htx⟩ := Option.map_eq_some_iff.mp hvalue'
  exact ⟨t, ht, htx⟩

/-- Two operators that one binary operator folds as combine in the same way. -/
theorem combine_of_foldsAs {op : BinOp} {rop rop' : ReductionOp} (h : op.foldsAs rop = true)
    (h' : op.foldsAs rop' = true) (m n : Int) : rop.combine m n = rop'.combine m n := by
  cases op <;> cases rop <;> simp only [BinOp.foldsAs, Bool.false_eq_true] at h <;>
    cases rop' <;> first | rfl | simp [BinOp.foldsAs] at h'

theorem scalarReduction_some {loop : ForStatement} {v : Var} {rop : Option ReductionOp}
    {info : ReductionInfo} (h : scalarReduction loop v rop = some info) :
    info.var = v ∧ info.isArrayElement = false ∧ rop = some info.op := by
  unfold scalarReduction at h
  split at h
  next => simp at h
  next =>
    obtain ⟨op, hop, rfl⟩ := Option.map_eq_some_iff.mp h
    exact ⟨rfl, rfl, hop⟩

theorem arrayBase_mem {e : Expr} {v : Var} (h : e.arrayBase = some v) : v ∈ e.varRefs := by
  induction e with
  | varRef w => simpa [Expr.arrayBase, Expr.varRefs, eq_comm] using h
  | arrRef b i ihb => exact List.mem_append_left _ (ihb h)
  | _ => simp [Expr.arrayBase] at h

theorem elementReduction_some {loop : ForStatement} {l : Expr} {op : Var → Option ReductionOp}
    {info : ReductionInfo} (h : elementReduction loop l op = some info) :
    info.var ∈ l.varRefs ∧ op info.var = some info.op := by
  unfold elementReduction at h
  obtain ⟨i, -, h⟩ := Option.bind_eq_some_iff.mp h
  obtain ⟨⟨base, index⟩, helement, h⟩ := Option.bind_eq_some_iff.mp h
  dsimp only at h
  split at h
  next => simp at h
  next =>
    obtain ⟨op', hop, rfl⟩ := Option.map_eq_some_iff.mp h
    unfold isLoopInvariantArrayElement at helement
    split at helement
    next b k =>
      split at helement
      next => simp at helement
      next =>
        obtain ⟨v, hv, heq⟩ := Option.map_eq_some_iff.mp helement
        exact ⟨(Prod.mk.inj heq).1 ▸ arrayBase_mem hv, hop⟩
    next => simp at helement

section
variable {loop : ForStatement} {info : ReductionInfo} {l r e : Expr} {bop : BinOp}

theorem foldsAs_of_compoundOp {rop : ReductionOp} (h : detectCompoundAssignOp bop = some rop) :
    bop.foldsAs rop = true := by
  cases bop <;> simp only [detectCompoundAssignOp, Option.some.injEq, reduceCtorEq] at h <;>
    subst h <;> rfl

theorem foldsAs_of_detected {v : Var} {a b : Expr} {rop : ReductionOp}
    (h : detectBinaryReductionOp v (.binary bop a b) = some rop) : bop.foldsAs rop = true := by
  cases bop <;> simp only [detectBinaryReductionOp, Option.ite_none_right_eq_some,
    Option.some.injEq, reduceCtorEq, and_false] at h <;> obtain ⟨-, rfl⟩ := h <;> rfl

/-- The operator reported for `op=` is that of the statement. -/
theorem foldsAs_of_compound (h : reductionOf loop (.compound bop l r) = some info) :
    bop.foldsAs info.op = true := by
  simp only [reductionOf] at h
  split at h
  next => exact foldsAs_of_compoundOp (scalarReduction_some h).2.2
  next =>
    obtain ⟨-, hop⟩ := elementReduction_some h
    exact foldsAs_of_compoundOp hop

/-- The operator reported for an assignment is the top one of its right side. -/
theorem foldsAs_of_assign {a b : Expr}
    (h : reductionOf loop (.assign l (.binary bop a b)) = some info) :
    bop.foldsAs info.op = true := by
  simp only [reductionOf] at h
  split at h
  next v op hassign =>
    obtain rfl : op = info.op := Option.some.inj (scalarReduction_some h).2.2
    unfold isReductionAssignment at hassign
    split at hassign
    next =>
      obtain ⟨op', hop, heq⟩ := Option.map_eq_some_iff.mp hassign
      rw [← (Prod.mk.inj heq).2]
      exact foldsAs_of_detected (by simpa [detectMinMaxOp] using hop)
    next => simp at hassign
  next =>
    obtain ⟨-, hop⟩ := elementReduction_some h
    unfold detectArrayElementReductionOp at hop
    exact foldsAs_of_detected (Option.ite_none_right_eq_some.mp hop).2

theorem op_of_plusPlus (h : reductionOf loop (.plusPlus e) = some info) : info.op = .add := by
  simp only [reductionOf] at h
  split at h
  next => exact (Option.some.inj (scalarReduction_some h).2.2).symm
  next => simp at h

theorem op_of_minusMinus (h : reductionOf loop (.minusMinus e) = some info) : info.op = .sub := by
  simp only [reductionOf] at h
  split at h
  next => exact (Option.some.inj (scalarReduction_some h).2.2).symm
  next => simp at h

/-- A reduction is reported for a variable of the statement. -/
theorem contains_of_reported (h : reductionOf loop e = some info) :
    e.containsVar info.var = true := by
  have hleft : ∀ {l : Expr} {v : Var}, l.skipCasts = .varRef v → v ∈ l.varRefs := by
    intro l v hv
    induction l with
    | varRef w => simpa [Expr.skipCasts, Expr.varRefs, eq_comm] using hv
    | cast t l ih => exact ih hv
    | _ => simp [Expr.skipCasts] at hv
  suffices hmem : info.var ∈ e.varRefs by simpa [Expr.containsVar] using hmem
  cases e with
  | compound op l r =>
    simp only [reductionOf] at h
    split at h
    next v hv => simp [Expr.varRefs, (scalarReduction_some h).1, hleft hv]
    next => exact List.mem_append_left _ (elementReduction_some h).1
  | assign l r =>
    simp only [reductionOf] at h
    split at h
    next v op hassign =>
      unfold isReductionAssignment at hassign
      split at hassign
      next w hw =>
        obtain ⟨op', -, heq⟩ := Option.map_eq_some_iff.mp hassign
        obtain rfl := (Prod.mk.inj heq).1
        simp [Expr.varRefs, (scalarReduction_some h).1, hleft hw]
      next => simp at hassign
    next => exact List.mem_append_left _ (elementReduction_some h).1
  | plusPlus l | minusMinus l =>
    simp only [reductionOf] at h
    split at h
    next v hv => simp [Expr.varRefs, (scalarReduction_some h).1, hleft hv]
    next => simp at h
  | _ => simp [reductionOf] at h

/-- The operator reported for an update is the one of the update. -/
theorem combine_of_updates {x : Var} {rop : ReductionOp} (h : reductionOf loop e = some info)
    (hupdates : e.updates x rop = true) (m n : Int) :
    rop.combine m n = info.op.combine m n := by
  cases e with
  | assign l r =>
    simp only [Expr.updates, Bool.and_eq_true, decide_eq_true_eq] at hupdates
    obtain ⟨⟨rfl, -⟩, hr⟩ := hupdates
    cases r with
    | binary bop a b =>
      simp only [Expr.accumulator, Bool.and_eq_true] at hr
      exact combine_of_foldsAs hr.1 (foldsAs_of_assign h) m n
    | varRef v =>
      simp [reductionOf, isReductionAssignment, Expr.skipCasts, detectMinMaxOp,
        detectBinaryReductionOp, elementReduction, isLoopInvariantArrayElement] at h
    | _ => simp [Expr.accumulator] at hr
  | compound bop l r =>
    simp only [Expr.updates, Bool.and_eq_true] at hupdates
    exact combine_of_foldsAs hupdates.1.2 (foldsAs_of_compound h) m n
  | plusPlus l =>
    simp only [Expr.updates, Bool.and_eq_true] at hupdates
    rw [op_of_plusPlus h]
    exact combine_of_foldsAs hupdates.2 rfl m n
  | minusMinus l =>
    simp only [Expr.updates, Bool.and_eq_true] at hupdates
    rw [op_of_minusMinus h]
    exact combine_of_foldsAs hupdates.2 rfl m n
  | _ => simp [Expr.updates] at hupdates

theorem updates_of_accumulates {x : Var} {rop : ReductionOp} {s : Stmt}
    (h : s.accumulates x rop = true) (he : e ∈ s.exprStatements) (hx : e.containsVar x = true) :
    e.updates x rop = true := by
  induction s with
  | expr e' =>
    obtain rfl := List.mem_singleton.mp he
    simpa [Stmt.accumulates, hx] using h
  | seq a b iha ihb =>
    simp only [Stmt.accumulates, Bool.and_eq_true] at h
    rcases List.mem_append.mp he with he | he
    · exact iha h.1 he
    · exact ihb h.2 he
  | ite c a b iha ihb =>
    simp only [Stmt.accumulates, Bool.and_eq_true] at h
    rcases List.mem_cons.mp he with rfl | he
    · simp [hx] at h
    · rcases List.mem_append.mp he with he | he
      · exact iha h.1.2 he
      · exact ihb h.2 he
  | whileLoop c b ih =>
    simp only [Stmt.accumulates, Bool.and_eq_true] at h
    rcases List.mem_cons.mp he with rfl | he
    · simp [hx] at h
    · exact ih h.2 he
  | forLoop i c u b ihi ihb =>
    simp only [Stmt.accumulates, Bool.and_eq_true] at h
    rcases List.mem_append.mp he with he | he
    · exact ihi h.1.1.1 he
    · rcases List.mem_cons.mp he with rfl | he
      · simp [hx] at h
      · exact ihb h.2 he
  | _ => simp [Stmt.exprStatements] at he

end

/-- The variable occurs in the body only in updates of one class, and no iteration changes what
another one contributes to it. -/
structure OnlyUpdated (P : Platform) (loop : ForStatement) (i x : Var) : Prop where
  framed : Framed P x
  other : i ≠ x
  updates : ∃ rop, loop.body.accumulates x rop = true
  independent : ∀ fuel, (reductionStep P fuel loop.body i x).Independent

/-- A variable that is only updated accumulates by the operator that is reported for it. -/
theorem accumulates_of_reported {loop : ForStatement} {info : ReductionInfo} {i : Var}
    {P : Platform} (hreport : info ∈ detectReductions loop) (h : OnlyUpdated P loop i info.var) :
    Accumulates P loop.body i info.var info.op := by
  obtain ⟨rop, honly⟩ := h.updates
  obtain ⟨e, he, hreported⟩ := List.mem_filterMap.mp hreport
  have hupdates := updates_of_accumulates honly he (contains_of_reported hreported)
  have hcombine : rop.combine = info.op.combine :=
    funext fun m => funext fun n => combine_of_updates hreported hupdates m n
  intro fuel
  rw [← hcombine]
  exact accumulates_of_forms h.framed h.other honly fuel

def sumI : Var := ⟨0, "i", .integer 32 true, .automatic⟩

def sumS : Var := ⟨1, "s", .integer 64 true, .automatic⟩

def sumA : Var := ⟨2, "a", .array, .automatic⟩

def sumB : Var := ⟨3, "b", .array, .automatic⟩

/-- The loop `for (i = 0; i < 10; i++) \x7b s += a[i]; rest \x7d`. -/
def sumLoop (rest : Stmt) : ForStatement :=
  ⟨.expr (.assign (.varRef sumI) (.intVal .int 0)),
    .binary .lt (.varRef sumI) (.intVal .int 10), .plusPlus (.varRef sumI),
    .seq (.expr (.compound .add (.varRef sumS) (.arrRef (.varRef sumA) (.varRef sumI)))) rest⟩

def sumPlatform : Platform :=
  ⟨fun v => if v = sumB then 100 else 0, fun _ => 0, fun _ => false, fun _ _ s => (0, s)⟩

theorem sumLoop_iteration (fuel : Nat) (k : Int) (s : State) :
    iteration sumPlatform fuel (sumLoop .empty).body sumI k s =
      some ((s.setVar sumI k).setVar sumS (s.vars sumS + s.mem k)) := by
  have hcell : sumPlatform.base sumA + k = k := Int.zero_add k
  show some (((s.setVar sumI k).setVar sumS
    (s.vars sumS + s.mem (sumPlatform.base sumA + k)))) = _
  rw [hcell]

theorem sumLoop_onlyUpdated : OnlyUpdated sumPlatform (sumLoop .empty) sumI sumS := by
  refine ⟨fun _ _ _ _ => rfl, by decide, ⟨.add, by decide⟩, fun fuel k l s m p _ hrun n => ?_⟩
  simp only [reductionStep, sumLoop_iteration, Option.map_some, Option.some.injEq] at hrun ⊢
  subst hrun
  rfl

end LoomX
