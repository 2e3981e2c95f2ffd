import LoomX.ParallelFold
import LoomX.StoreTrace

namespace LoomX

inductive ReductionOp
  | add | sub | mul
  | min | max
  | bitAnd | bitOr | bitXor
  deriving DecidableEq, Repr

structure ReductionInfo where
  var : Var
  op : ReductionOp
  isArrayElement : Bool
  arrayIndex : Option Expr
  deriving DecidableEq, Repr

/-- Every `SgPntrArrRefExp` below the expression. -/
def Expr.arrRefs : Expr → List Expr
  | .intVal _ _ | .exprNil | .varRef _ => []
  | .deref e | .member e _ | .addrOf e | .cast _ e | .unary _ e | .plusPlus e | .minusMinus e
  | .call _ e => e.arrRefs
  | .arrRef a b => .arrRef a b :: (a.arrRefs ++ b.arrRefs)
  | .binary _ a b | .assign a b | .compound _ a b | .exprCons a b => a.arrRefs ++ b.arrRefs
  | .cond a b c => a.arrRefs ++ b.arrRefs ++ c.arrRefs

/-- The base and the last subscript of an element whose reference does not mention the loop
variable. -/
def isLoopInvariantArrayElement (e : Expr) (loopVar : Var) : Option (Var × Expr) :=
  match e with
  | .arrRef b i =>
    if (Expr.arrRef b i).containsVar loopVar then none
    else (Expr.arrRef b i).arrayBase.map (·, i)
  | _ => none

def isLoopLocalVariable (v : Var) (loop : ForStatement) : Bool :=
  loop.init.declared.contains v || loop.body.declared.contains v

def detectCompoundAssignOp : BinOp → Option ReductionOp
  | .add => some .add
  | .sub => some .sub
  | .mul => some .mul
  | .band => some .bitAnd
  | .bor => some .bitOr
  | .bxor => some .bitXor
  | _ => none

def detectBinaryReductionOp (v : Var) : Expr → Option ReductionOp
  | .binary .sub l _ => if l.containsVar v then some .sub else none
  | .binary op l r => if l.containsVar v || r.containsVar v then
      match op with
      | .add => some .add
      | .mul => some .mul
      | .band => some .bitAnd
      | .bor => some .bitOr
      | .bxor => some .bitXor
      | _ => none
    else none
  | _ => none

/-- The right side must hold the same element; its operator decides. -/
def detectArrayElementReductionOp (lhs rhs : Expr) (base : Var) : Option ReductionOp :=
  if rhs.arrRefs.any fun r => r.arrayBase == some base && r == lhs then
    detectBinaryReductionOp base rhs
  else none

def detectMinMaxOp (v : Var) : Expr → Option ReductionOp
  | .cond test onTrue onFalse =>
    if onTrue.containsVar v && onFalse.containsVar v then
      match test with
      | .binary .lt l _ => if l.containsVar v then some .min else none
      | .binary .gt l _ => if l.containsVar v then some .max else none
      | _ => none
    else none
  | _ => none

def isReductionAssignment (lhs rhs : Expr) : Option (Var × ReductionOp) :=
  match lhs.skipCasts with
  | .varRef v => ((detectMinMaxOp v rhs).or (detectBinaryReductionOp v rhs)).map (v, ·)
  | _ => none

def scalarReduction (loop : ForStatement) (v : Var) (op : Option ReductionOp) :
    Option ReductionInfo :=
  if isLoopLocalVariable v loop then none else op.map (⟨v, ·, false, none⟩)

/-- The reduction on a loop-invariant array element `lhs`, when `op` finds an operator for its
base. -/
def elementReduction (loop : ForStatement) (lhs : Expr) (op : Var → Option ReductionOp) :
    Option ReductionInfo := do
  let loopVar ← getLoopIndexVariable loop
  let (base, index) ← isLoopInvariantArrayElement lhs loopVar
  if isLoopLocalVariable base loop then none else (op base).map (⟨base, ·, true, some index⟩)

/-- The reduction found in one expression statement. -/
def reductionOf (loop : ForStatement) : Expr → Option ReductionInfo
  | .compound op lhs _ =>
    match lhs.skipCasts with
    | .varRef v => scalarReduction loop v (detectCompoundAssignOp op)
    | _ => elementReduction loop lhs fun _ => detectCompoundAssignOp op
  | .assign lhs rhs =>
    match isReductionAssignment lhs rhs with
    | some (v, op) => scalarReduction loop v (some op)
    | none => elementReduction loop lhs (detectArrayElementReductionOp lhs rhs)
  | .plusPlus e =>
    match e.skipCasts with
    | .varRef v => scalarReduction loop v (some .add)
    | _ => none
  | .minusMinus e =>
    match e.skipCasts with
    | .varRef v => scalarReduction loop v (some .sub)
    | _ => none
  | _ => none

/-- `ReductionDetector::analyze`. -/
def detectReductions (loop : ForStatement) : List ReductionInfo :=
  loop.body.exprStatements.filterMap (reductionOf loop)

/-- `LoopSummary::getReductionVariables`. -/
def getReductionVariables (loop : ForStatement) : List Var :=
  (detectReductions loop).map (·.var)

theorem int_eq_of_testBit {a b : Int} (h : ∀ k, a.testBit k = b.testBit k) : a = b := by
  have hmixed : ∀ m n : Nat, ¬∀ k, (Int.ofNat m).testBit k = (Int.negSucc n).testBit k := by
    intro m n hall
    have hm : m.testBit (m + n) = false :=
      Nat.testBit_lt_two_pow (Nat.lt_of_le_of_lt (Nat.le_add_right m n) Nat.lt_two_pow_self)
    have hn : n.testBit (m + n) = false :=
      Nat.testBit_lt_two_pow (Nat.lt_of_le_of_lt (Nat.le_add_left n m) Nat.lt_two_pow_self)
    have hk := hall (m + n)
    simp [Int.testBit, hm, hn] at hk
  cases a with
  | ofNat m =>
    cases b with
    | ofNat n => exact congrArg Int.ofNat (Nat.eq_of_testBit_eq h)
    | negSucc n => exact absurd h (hmixed m n)
  | negSucc m =>
    cases b with
    | ofNat n => exact absurd (fun k => (h k).symm) (hmixed n m)
    | negSucc n =>
      refine congrArg Int.negSucc (Nat.eq_of_testBit_eq fun k => ?_)
      have hk := h k
      simpa [Int.testBit] using hk

/-- How the partial results of a reduction are combined; those of `-` are added. -/
def ReductionOp.combine : ReductionOp → Int → Int → Int
  | add, a, b | sub, a, b => a + b
  | mul, a, b => a * b
  | min, a, b => if a ≤ b then a else b
  | max, a, b => if a ≤ b then b else a
  | bitAnd, a, b => a.land b
  | bitOr, a, b => a.lor b
  | bitXor, a, b => a.xor b

theorem ReductionOp.combine_assoc (op : ReductionOp) (a b c : Int) :
    op.combine (op.combine a b) c = op.combine a (op.combine b c) := by
  cases op with
  | add | sub => simp only [combine]; omega
  | mul => exact Int.mul_assoc a b c
  | min | max =>
    simp only [combine]
    split_ifs <;> omega
  | bitAnd | bitOr | bitXor =>
    apply int_eq_of_testBit
    intro k
    simp only [combine, Int.testBit_land, Int.testBit_lor, Int.testBit_lxor]
    cases a.testBit k <;> cases b.testBit k <;> cases c.testBit k <;> rfl

theorem ReductionOp.combine_comm (op : ReductionOp) (a b : Int) :
    op.combine a b = op.combine b a := by
  cases op with
  | add | sub => exact Int.add_comm a b
  | mul => exact Int.mul_comm a b
  | min | max =>
    simp only [combine]
    split_ifs <;> omega
  | bitAnd | bitOr | bitXor =>
    apply int_eq_of_testBit
    intro k
    simp only [combine, Int.testBit_land, Int.testBit_lor, Int.testBit_lxor]
    cases a.testBit k <;> cases b.testBit k <;> rfl

theorem ReductionOp.combine_right_comm (op : ReductionOp) (a b c : Int) :
    op.combine (op.combine a b) c = op.combine (op.combine a c) b := by
  rw [op.combine_assoc, op.combine_comm b c, ← op.combine_assoc]

/-- The value a partial result starts from; for `min` and `max` any value beyond the initial one
of the variable will do. -/
def ReductionOp.isIdentity : ReductionOp → Int → Int → Prop
  | add, _, e | sub, _, e | bitOr, _, e | bitXor, _, e => e = 0
  | mul, _, e => e = 1
  | bitAnd, _, e => e = -1
  | min, n, e => n ≤ e
  | max, n, e => e ≤ n

theorem ReductionOp.combine_identity {op : ReductionOp} {n e : Int} (h : op.isIdentity n e) :
    op.combine n e = n := by
  cases op with
  | add | sub => simp only [isIdentity] at h; simp [combine, h]
  | mul => simp only [isIdentity] at h; simp [combine, h]
  | min => simp only [isIdentity] at h; simp [combine, h]
  | max =>
    simp only [isIdentity] at h
    simp only [combine]
    split_ifs <;> omega
  | bitAnd | bitOr | bitXor =>
    simp only [isIdentity] at h
    subst h
    apply int_eq_of_testBit
    intro k
    have hzero : (0 : Int).testBit k = false := Nat.zero_testBit k
    have hones : (-1 : Int).testBit k = true := by
      show (!Nat.testBit 0 k) = true
      rw [Nat.zero_testBit]
      rfl
    simp only [combine, Int.testBit_land, Int.testBit_lor, Int.testBit_lxor, hzero, hones,
      Bool.and_true, Bool.or_false, Bool.xor_false]

/-- Two values have a common identity. -/
theorem ReductionOp.exists_identity (op : ReductionOp) (n m : Int) :
    ∃ e, op.isIdentity n e ∧ op.isIdentity m e := by
  cases op with
  | add | sub | bitOr | bitXor => exact ⟨0, rfl, rfl⟩
  | mul => exact ⟨1, rfl, rfl⟩
  | bitAnd => exact ⟨-1, rfl, rfl⟩
  | min =>
    rcases Int.le_total n m with h | h
    · exact ⟨m, h, Int.le_refl m⟩
    · exact ⟨n, Int.le_refl n, h⟩
  | max =>
    rcases Int.le_total n m with h | h
    · exact ⟨n, Int.le_refl n, h⟩
    · exact ⟨m, h, Int.le_refl m⟩

/-- One iteration: the body with the index set; it must end by falling through or by
`continue`. -/
def iteration (P : Platform) (fuel : Nat) (body : Stmt) (i : Var) (k : Int) (s : State) :
    Option State :=
  match body.exec P fuel (s.setVar i k) with
  | some (.normal, t) | some (.continued, t) => some t
  | _ => none

def runIterations (P : Platform) (fuel : Nat) (body : Stmt) (i : Var) :
    List Int → State → Option State
  | [], s => some s
  | k :: ks, s => (iteration P fuel body i k s).bind (runIterations P fuel body i ks)

/-- An iteration that gets the value of `x` from outside and hands it back. -/
def reductionStep (P : Platform) (fuel : Nat) (body : Stmt) (i x : Var) : AccStep Int State Int :=
  fun k s n =>
    (iteration P fuel body i k (s.setVar x n)).map fun t => (t.setVar x 0, t.vars x)

/-- Threads that run their iterations from the identity and combine what they get leave `x` with
the value of the sequential loop, and nothing else in the loop depends on `x`. -/
structure ReductionSound (P : Platform) (body : Stmt) (i x : Var) (op : ReductionOp) : Prop where
  value : ∀ fuel s ks s', ks.Nodup → runIterations P fuel body i ks s = some s' →
    ∀ e, op.isIdentity (s.vars x) e → ∀ n schedule, (∀ p ∈ schedule, p.1 < n) →
      (schedule.map Prod.snd).Perm ks →
        ∃ p, (reductionStep P fuel body i x).runThreads schedule s (fun _ => e) = some p ∧
          combineThreads op.combine (s.vars x) p.2 n = s'.vars x
  unobserved : ∀ fuel k (s : State) a b,
    (iteration P fuel body i k (s.setVar x a)).map (·.setVar x 0) =
      (iteration P fuel body i k (s.setVar x b)).map (·.setVar x 0)

/-- Every iteration only combines values into `x`. -/
def Accumulates (P : Platform) (body : Stmt) (i x : Var) (op : ReductionOp) : Prop :=
  ∀ fuel, (reductionStep P fuel body i x).Translates op.combine

/-- Every order of the iterations gives `x` the same value. -/
def OrderFree (P : Platform) (body : Stmt) (i x : Var) : Prop :=
  ∀ fuel ks ks' s s', ks.Nodup → ks'.Perm ks → runIterations P fuel body i ks s = some s' →
    ∃ t, runIterations P fuel body i ks' s = some t ∧ t.vars x = s'.vars x

section
variable {P : Platform} {fuel : Nat} {body : Stmt} {i x : Var} {op : ReductionOp}

theorem runAll_reductionStep (ks : List Int) (s : State) (n : Int) :
    ((reductionStep P fuel body i x).runAll ks s n).map Prod.snd =
      (runIterations P fuel body i ks (s.setVar x n)).map (·.vars x) := by
  induction ks generalizing s n with
  | nil => simp [AccStep.runAll, runIterations]
  | cons k ks ih =>
    simp only [AccStep.runAll, runIterations, reductionStep]
    cases iteration P fuel body i k (s.setVar x n) with
    | none => rfl
    | some t =>
      simp only [Option.map_some, Option.bind_some]
      rw [ih, State.setVar_setVar, State.setVar_vars_self]

/-- One thread for every scheduled iteration of an accumulating loop adds up to the run in the
order of the schedule. -/
theorem runThreads_value_of_accumulates (hacc : Accumulates P body i x op) {s : State} {e : Int}
    (he : op.isIdentity (s.vars x) e) {n : Nat} {schedule : List (Nat × Int)}
    (hn : ∀ p ∈ schedule, p.1 < n) :
    ((reductionStep P fuel body i x).runThreads schedule s fun _ => e).map
        (fun p => combineThreads op.combine (s.vars x) p.2 n) =
      (runIterations P fuel body i (schedule.map Prod.snd) s).map (·.vars x) := by
  have hthreads := AccStep.runAll_eq_runThreads op.combine_right_comm (hacc fuel) (s.vars x) hn s
    fun _ => e
  rw [combineThreads_const (ReductionOp.combine_identity he)] at hthreads
  have hvalue : ((reductionStep P fuel body i x).runAll (schedule.map Prod.snd) s (s.vars x)).map
      Prod.snd = _ := runAll_reductionStep _ _ _
  rw [State.setVar_vars_self, hthreads, Option.map_map] at hvalue
  exact hvalue

theorem reductionStep_fst (k : Int) (s : State) (n : Int) :
    (reductionStep P fuel body i x k s n).map Prod.fst =
      (iteration P fuel body i k (s.setVar x n)).map (·.setVar x 0) := by
  rw [reductionStep, Option.map_map]
  rfl

theorem sound_of_accumulates (hacc : Accumulates P body i x op) (horder : OrderFree P body i x) :
    ReductionSound P body i x op := by
  refine ⟨?_, ?_⟩
  · intro fuel s ks s' hks hrun e he n schedule hn hperm
    obtain ⟨t, ht, htx⟩ := horder fuel ks _ s s' hks hperm hrun
    have hvalue : ((reductionStep P fuel body i x).runThreads schedule s fun _ => e).map _ = _ :=
      runThreads_value_of_accumulates hacc he hn
    rw [ht, Option.map_some] at hvalue
    obtain ⟨p, hp, hcombine⟩ := Option.map_eq_some_iff.mp hvalue
    exact ⟨p, hp, hcombine.trans htx⟩
  · intro fuel k s a b
    obtain ⟨e, ha, hb⟩ := op.exists_identity a b
    have hstart : ∀ n, op.isIdentity n e →
        (reductionStep P fuel body i x k s n).map Prod.fst =
          (reductionStep P fuel body i x k s e).map Prod.fst := by
      intro n hne
      have hF := hacc fuel k s n e
      rw [ReductionOp.combine_identity hne] at hF
      rw [hF, Option.map_map]
      rfl
    rw [← reductionStep_fst, ← reductionStep_fst, hstart a ha, hstart b hb]

end

end LoomX
