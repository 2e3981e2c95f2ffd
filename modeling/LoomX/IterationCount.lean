import LoomX.CanonicalDescription

namespace LoomX

/-- `evaluateExpression` at given values of the variables, `-1` for what is not known. C has no
literals of type `short`. -/
def Expr.evaluateWith (valueOf : Var → Option Int) : Expr → Option Int
  | .intVal .other _ => some (-1)
  | .intVal _ n => some n
  | .cast _ e => e.evaluateWith valueOf
  | .varRef v => valueOf v
  | .unary .minus e => do
    let value ← e.evaluateWith valueOf
    if 0 ≤ value then checked (-value) else some (-1)
  | .binary op a b => do
    let lhs ← a.evaluateWith valueOf
    let rhs ← b.evaluateWith valueOf
    if lhs < 0 ∨ rhs < 0 then some (-1)
    else
      match op with
      | .add => checked (lhs + rhs)
      | .sub => checked (lhs - rhs)
      | .mul => checked (lhs * rhs)
      | .div => if rhs = 0 then some (-1) else some (lhs.tdiv rhs)
      | .mod => if rhs = 0 then some (-1) else some (lhs.tmod rhs)
      | _ => some (-1)
  -- Binary operations for the evaluation too: their operands are evaluated first.
  | .arrRef a b | .assign a b | .compound _ a b => do
    let _ ← a.evaluateWith valueOf
    let _ ← b.evaluateWith valueOf
    some (-1)
  | .member e _ => do
    let _ ← e.evaluateWith valueOf
    some (-1)
  | _ => some (-1)

/-- The value of a variable is that of its initialiser. A chain of more initialisers than `depth`
has none. -/
def variableValue (initializer : Var → Option Expr) : Nat → Var → Option Int
  | 0, _ => none
  | depth + 1, v =>
    match initializer v with
    | none => some (-1)
    | some e => e.evaluateWith (variableValue initializer depth)

def evaluateExpression (initializer : Var → Option Expr) (depth : Nat) (e : Expr) : Option Int :=
  e.evaluateWith (variableValue initializer depth)

def defaultForSymbolicBound : Int := 100000

/-- The size of the stride, `1` in place of zero. -/
def strideSize (stride : Int) : Option Int :=
  let strideVal := if stride = 0 then 1 else stride
  if strideVal < 0 then checked (-strideVal) else some strideVal

def inclusiveUpper (isUpperExclusive : Bool) (upper : Int) : Option Int :=
  if isUpperExclusive then checked (upper - 1) else some upper

/-- The estimate from the values of the bounds and the stride. -/
def estimateRange (exactLiteral isUpperExclusive : Bool) (lower upper stride : Int) :
    Option Int := do
  let strideVal ← strideSize stride
  if upper < 0 then
    some (if exactLiteral then -1 else defaultForSymbolicBound)
  else
    let inclusiveUpper ← inclusiveUpper isUpperExclusive upper
    let span ← checked (inclusiveUpper - lower)
    let range ← checked (span + 1)
    if range ≤ 0 then some 0
    else
      let sum ← checked (range + strideVal)
      let sum ← checked (sum - 1)
      some (sum.tdiv strideVal)

/-- `IterationCountEstimator::estimate`, without a value where its arithmetic overflows. -/
def estimate (initializer : Var → Option Expr) (depth : Nat) (loop : ForStatement)
    (exactLiteral : Bool) : Option Int :=
  match canonicalAnalyze loop with
  | .error _ => some (-1)
  | .ok canonical => do
    let lower ← evaluateExpression initializer depth canonical.lowerBound
    let upper ← evaluateExpression initializer depth canonical.upperBound
    let stride ← evaluateExpression initializer depth canonical.stride
    estimateRange exactLiteral canonical.isUpperExclusive lower upper stride

/-- An integer literal with its signs and casts. -/
def Expr.isLiteral : Expr → Bool
  | .intVal kind n => kind == .other || decide (InLong n)
  | .cast _ e | .unary .minus e => e.isLiteral
  | _ => false

/-- What the evaluation reads in a literal: a literal of another than a signed type, and a sign
before a negative value, count as `-1`, and casts change nothing. -/
def Expr.literalRead : Expr → Int
  | .intVal .other _ => -1
  | .intVal _ n => n
  | .cast _ e => e.literalRead
  | .unary .minus e => if 0 ≤ e.literalRead then -e.literalRead else -1
  | _ => -1

section
variable {e : Expr}

theorem inLong_literalRead (h : e.isLiteral = true) : InLong e.literalRead := by
  induction e with
  | intVal kind n =>
    cases kind with
    | other => exact (by decide : InLong (-1))
    | _ => simpa [Expr.isLiteral, Expr.literalRead] using h
  | cast t e ih => exact ih h
  | unary op e ih =>
    cases op with
    | minus =>
      have hread := ih h
      rw [Expr.literalRead]
      split
      next => unfold InLong at *; omega
      next => decide
    | lnot => simp [Expr.isLiteral] at h
    | bnot => simp [Expr.isLiteral] at h
  | _ => simp [Expr.isLiteral] at h

theorem evaluateWith_literal (valueOf : Var → Option Int) (h : e.isLiteral = true) :
    e.evaluateWith valueOf = some e.literalRead := by
  induction e with
  | intVal kind n => cases kind <;> rfl
  | cast t e ih => exact ih h
  | unary op e ih =>
    cases op with
    | minus =>
      have hread := inLong_literalRead (e := .unary .minus e) h
      rw [Expr.literalRead] at hread ⊢
      simp only [Expr.evaluateWith, ih h, Option.bind_eq_bind, Option.bind_some]
      split
      next hsign => rw [checked_of_inLong (by rwa [if_pos hsign] at hread)]
      next => rfl
    | lnot => simp [Expr.isLiteral] at h
    | bnot => simp [Expr.isLiteral] at h
  | _ => simp [Expr.isLiteral] at h

end

/-- The step the estimate divides by. -/
def strideStep (stride : Int) : Int := if stride = 0 then 1 else |stride|

/-- The values from the lower bound on, without the excluded one. -/
def rangeLength (isUpperExclusive : Bool) (lower upper : Int) : Int :=
  upper - lower + if isUpperExclusive then 0 else 1

/-- The length of a range divided by the step, rounded up; `0` for an empty range. -/
def rangeQuotient (isUpperExclusive : Bool) (lower upper stride : Int) : Int :=
  if rangeLength isUpperExclusive lower upper ≤ 0 then 0
  else (rangeLength isUpperExclusive lower upper + strideStep stride - 1) / strideStep stride

/-- The length of the range, and its sum with the step, are 64-bit numbers. -/
def RangeFits (isUpperExclusive : Bool) (lower upper stride : Int) : Prop :=
  let length := rangeLength isUpperExclusive lower upper
  InLong (length - 1) ∧ InLong length ∧ (0 < length → InLong (length + strideStep stride))

theorem strideStep_pos (stride : Int) : 0 < strideStep stride := by
  unfold strideStep
  split
  next => decide
  next h => exact abs_pos.mpr h

theorem strideSize_eq {stride : Int} (h : InLong stride) :
    strideSize stride = checked (strideStep stride) := by
  unfold strideSize strideStep
  rcases lt_trichotomy stride 0 with hneg | rfl | hpos
  · simp [hneg.ne, hneg, abs_of_neg hneg]
  · simp [checked_of_inLong (show InLong 1 by decide)]
  · simp [hpos.ne', not_lt.mpr hpos.le, abs_of_pos hpos, checked_of_inLong h]

theorem inclusiveUpper_eq {isUpperExclusive : Bool} {upper : Int} (h : InLong upper)
    (hupper : 0 ≤ upper) :
    inclusiveUpper isUpperExclusive upper =
      some (upper - if isUpperExclusive then 1 else 0) := by
  have hin : InLong (upper - 1) := by
    unfold InLong at *
    omega
  cases isUpperExclusive with
  | true => exact checked_of_inLong hin
  | false => simp [inclusiveUpper]

theorem estimateRange_eq_some {exactLiteral isUpperExclusive : Bool} {lower upper stride t : Int}
    (hupper : InLong upper) (hstride : InLong stride) :
    estimateRange exactLiteral isUpperExclusive lower upper stride = some t ↔
      InLong (strideStep stride) ∧
        if upper < 0 then t = if exactLiteral then -1 else defaultForSymbolicBound
        else RangeFits isUpperExclusive lower upper stride ∧
          t = rangeQuotient isUpperExclusive lower upper stride := by
  have hstep := strideStep_pos stride
  simp only [estimateRange, strideSize_eq hstride, Option.bind_eq_bind]
  by_cases hin : InLong (strideStep stride)
  · rw [checked_of_inLong hin, Option.bind_some]
    by_cases hneg : upper < 0
    · simp [hin, hneg, eq_comm]
    · have hlength : upper - (if isUpperExclusive then 1 else 0) - lower + 1 =
          rangeLength isUpperExclusive lower upper := by
        unfold rangeLength
        cases isUpperExclusive
        · simp
        · simp
          omega
      have hspan : upper - (if isUpperExclusive then 1 else 0) - lower =
          rangeLength isUpperExclusive lower upper - 1 := by omega
      rw [if_neg hneg, if_neg hneg, inclusiveUpper_eq hupper (not_lt.mp hneg)]
      simp only [Option.bind_some, hspan, RangeFits, rangeQuotient, hin, true_and]
      generalize rangeLength isUpperExclusive lower upper = length
      generalize strideStep stride = step at *
      simp only [checked_bind, Int.sub_add_cancel]
      by_cases hspan : InLong (length - 1)
      · by_cases hrange : InLong length
        · by_cases hempty : length ≤ 0
          · simp [hspan, hrange, hempty, not_lt.mpr hempty, eq_comm]
          · by_cases hsum : InLong (length + step)
            · have hlast : InLong (length + step - 1) :=
                inLong_of_le (by omega) (by omega) hsum
              have hdiv : (length + step - 1).tdiv step = (length + step - 1) / step :=
                Int.tdiv_eq_ediv_of_nonneg (by omega)
              simp [hspan, hrange, hempty, hsum, hlast, hdiv, eq_comm]
            · simp [hspan, hrange, hempty, hsum, not_le.mp hempty]
        · simp [hspan, hrange]
      · simp [hspan]
  · simp [hin, checked]

/-- The loops that the estimate counts right when it knows their bounds and their stride: those
that go up to their bound and those without an iteration. -/
def DirectionCounted (r : LoopRange) : Prop :=
  match r.rel with
  | .lt => 0 < r.delta ∨ r.upper ≤ r.lower
  | .le => 0 < r.delta ∨ r.upper < r.lower
  | .gt => r.lower = r.upper
  | .ge => False

theorem rangeQuotient_eq_zero {x : Bool} {l u s : Int} :
    rangeQuotient x l u s = 0 ↔ rangeLength x l u ≤ 0 := by
  have hstep := strideStep_pos s
  unfold rangeQuotient
  split
  next h => simp [h]
  next h =>
    have hpos : 1 ≤ (rangeLength x l u + strideStep s - 1) / strideStep s := by
      rw [Int.le_ediv_iff_mul_le hstep]
      omega
    omega

theorem strideStep_of_pos {s : Int} (hs : 0 < s) : strideStep s = s := by
  rw [strideStep, if_neg hs.ne', abs_of_pos hs]

/-- An empty range gives nothing anyway. -/
theorem rangeQuotient_eq_max (x : Bool) (l u s : Int) :
    rangeQuotient x l u s = max 0 ((rangeLength x l u + strideStep s - 1) / strideStep s) := by
  have hstep := strideStep_pos s
  unfold rangeQuotient
  split
  next h =>
    have hlt : (rangeLength x l u + strideStep s - 1) / strideStep s < 1 := by
      rw [Int.ediv_lt_iff_lt_mul hstep]
      omega
    omega
  next h =>
    have hnonneg : 0 ≤ (rangeLength x l u + strideStep s - 1) / strideStep s :=
      Int.ediv_nonneg (by omega) hstep.le
    omega

theorem quotient_eq_zero (span : Int) {d : Int} (hd : 0 < d) :
    max 0 ((span + d - 1) / d) = 0 ↔ span ≤ 0 := by
  have hlt : (span + d - 1) / d < 1 ↔ span ≤ 0 := by
    rw [Int.ediv_lt_iff_lt_mul hd]
    omega
  omega

theorem directionCounted_iff {rel : LoopTest} {l u d s : Int} (hd : d = s ∨ d = -1 ∧ s = 1) :
    (∃ n : Nat, Iterations rel l u d n ∧ rangeQuotient (rel != .le) l u s = n) ↔
      DirectionCounted ⟨rel, l, u, d⟩ := by
  have hexclusive : rel ≠ .le → rangeLength (rel != .le) l u = u - l := by
    intro h
    simp [rangeLength, h]
  have hle : rangeLength (LoopTest.le != .le) l u = u + 1 - l := by
    simp [rangeLength]
    omega
  rcases lt_or_ge 0 d with hpos | hnonpos
  · obtain rfl : d = s := by omega
    cases rel with
    | lt =>
      have hlt := hexclusive (by simp)
      simp [exists_runs_of_pos hpos, rangeQuotient_eq_max, strideStep_of_pos hpos, hlt,
        DirectionCounted, hpos]
    | le =>
      simp only [iterations_le_iff, exists_runs_of_pos hpos, rangeQuotient_eq_max,
        strideStep_of_pos hpos, hle, DirectionCounted, hpos, true_or]
    | gt =>
      have hgt := hexclusive (by simp)
      simp only [iterations_gt_iff, exists_runs_of_nonpos (show -d ≤ 0 by omega),
        rangeQuotient_eq_zero, hgt, DirectionCounted]
      omega
    | ge =>
      have hge := hexclusive (by simp)
      simp only [iterations_ge_iff, exists_runs_of_nonpos (show -d ≤ 0 by omega),
        rangeQuotient_eq_zero, hge, DirectionCounted, iff_false]
      omega
  · have hnot : ¬0 < d := by omega
    have hcount := rangeQuotient_eq_zero (x := rel != .le) (l := l) (u := u) (s := s)
    cases rel with
    | lt =>
      have hlt := hexclusive (by simp)
      simp only [exists_runs_of_nonpos hnonpos, rangeQuotient_eq_zero, hlt, DirectionCounted, hnot,
        false_or]
      omega
    | le =>
      simp only [iterations_le_iff, exists_runs_of_nonpos hnonpos, rangeQuotient_eq_zero, hle,
        DirectionCounted, hnot, false_or]
      omega
    | gt =>
      -- The estimate takes the distance upwards: one of both counts is zero and the other is not.
      rw [hexclusive (by simp)] at hcount
      simp only [iterations_gt_iff, DirectionCounted]
      rcases lt_or_eq_of_le hnonpos with hneg | rfl
      · have hruns := quotient_eq_zero (-u - -l) (show 0 < -d by omega)
        rw [exists_runs_of_pos (show 0 < -d by omega)]
        generalize max 0 ((-u - -l + -d - 1) / -d) = count at *
        omega
      · rw [Int.neg_zero, exists_runs_of_nonpos le_rfl]
        omega
    | ge =>
      rw [hexclusive (by simp)] at hcount
      simp only [iterations_ge_iff, DirectionCounted, iff_false]
      rcases lt_or_eq_of_le hnonpos with hneg | rfl
      · have hruns := quotient_eq_zero (-u + 1 - -l) (show 0 < -d by omega)
        rw [exists_runs_of_pos (show 0 < -d by omega)]
        generalize max 0 ((-u + 1 - -l + -d - 1) / -d) = count at *
        omega
      · rw [Int.neg_zero, exists_runs_of_nonpos le_rfl]
        omega

/-- The loop upwards over the values that are read for the bounds and the stride. -/
def CanonicalResult.readRange (c : CanonicalResult) : LoopRange :=
  ⟨if c.isUpperExclusive then .lt else .le, c.lowerBound.literalRead, c.upperBound.literalRead,
    strideStep c.stride.literalRead⟩

theorem readRange_runs_iff {c : CanonicalResult} {n : Nat} :
    c.readRange.Runs n ↔ (n : Int) = rangeQuotient c.isUpperExclusive c.lowerBound.literalRead
      c.upperBound.literalRead c.stride.literalRead := by
  have hstep := strideStep_pos c.stride.literalRead
  unfold LoopRange.Runs CanonicalResult.readRange
  cases hx : c.isUpperExclusive with
  | true =>
    simp only [if_true, iterations_lt_pos hstep, rangeQuotient_eq_max, rangeLength, Int.add_zero]
  | false =>
    have hlength : c.upperBound.literalRead - c.lowerBound.literalRead + 1 =
        c.upperBound.literalRead + 1 - c.lowerBound.literalRead := by omega
    simp [iterations_le_iff, iterations_lt_pos hstep, rangeQuotient_eq_max, rangeLength, hlength]

/-- The literals for which the estimate is exact. The header has the values of `r`, and `stride` is
that of the recorded stride. -/
def CountedExactly (exactLiteral : Bool) (c : CanonicalResult) (r : LoopRange)
    (stride : Int) : Prop :=
  InLong (strideStep c.stride.literalRead) ∧
    if 0 ≤ c.upperBound.literalRead then
      RangeFits c.isUpperExclusive c.lowerBound.literalRead c.upperBound.literalRead
          c.stride.literalRead ∧
        if c.lowerBound.literalRead = r.lower ∧ c.upperBound.literalRead = r.upper ∧
            c.stride.literalRead = stride then DirectionCounted r
        else ∃ n, r.Runs n ∧ c.readRange.Runs n
    else exactLiteral = false ∧ r.Runs 100000

theorem estimate_literal {initializer : Var → Option Expr} {depth : Nat} {loop : ForStatement}
    {exactLiteral : Bool} {c : CanonicalResult} (hc : canonicalAnalyze loop = .ok c)
    (hlower : c.lowerBound.isLiteral = true) (hupper : c.upperBound.isLiteral = true)
    (hstride : c.stride.isLiteral = true) :
    estimate initializer depth loop exactLiteral =
      estimateRange exactLiteral c.isUpperExclusive c.lowerBound.literalRead
        c.upperBound.literalRead c.stride.literalRead := by
  simp [estimate, hc, evaluateExpression, evaluateWith_literal _ hlower,
    evaluateWith_literal _ hupper, evaluateWith_literal _ hstride]

theorem exists_default_iff {runs : Nat → Prop} {exactLiteral : Bool} :
    (∃ n : Nat, runs n ∧ (n : Int) = if exactLiteral then -1 else defaultForSymbolicBound) ↔
      exactLiteral = false ∧ runs 100000 := by
  cases exactLiteral with
  | true =>
    have hneg : ∀ n : Nat, (n : Int) ≠ -1 := by omega
    simp [hneg]
  | false =>
    have hdefault : ∀ n : Nat, (n : Int) = defaultForSymbolicBound ↔ n = 100000 := by
      intro n
      unfold defaultForSymbolicBound
      omega
    simp [hdefault]

/-- Over the integers, the estimate is the number of iterations exactly for the literals of
`CountedExactly`. -/
theorem estimateRange_exact_iff {c : CanonicalResult} {exactLiteral : Bool} {rel : LoopTest}
    {l u d s : Int} (hx : c.isUpperExclusive = (rel != .le)) (hd : d = s ∨ d = -1 ∧ s = 1)
    (hupper : InLong c.upperBound.literalRead) (hstride : InLong c.stride.literalRead) :
    (∃ n : Nat, LoopRange.Runs ⟨rel, l, u, d⟩ n ∧
      estimateRange exactLiteral c.isUpperExclusive c.lowerBound.literalRead
        c.upperBound.literalRead c.stride.literalRead = some (n : Int)) ↔
      CountedExactly exactLiteral c ⟨rel, l, u, d⟩ s := by
  simp only [estimateRange_eq_some hupper hstride, CountedExactly]
  by_cases hstep : InLong (strideStep c.stride.literalRead)
  · simp only [hstep, true_and]
    by_cases hneg : c.upperBound.literalRead < 0
    · simp only [hneg, if_true, not_le.mpr hneg, if_false]
      exact exists_default_iff
    · simp only [hneg, if_false, not_lt.mp hneg, if_true]
      by_cases hfits : RangeFits c.isUpperExclusive c.lowerBound.literalRead
          c.upperBound.literalRead c.stride.literalRead
      · simp only [hfits, true_and]
        split
        next hread =>
          rw [hread.1, hread.2.1, hread.2.2, hx]
          simp only [← directionCounted_iff hd, LoopRange.Runs, eq_comm]
        next => simp only [readRange_runs_iff]
      · simp [hfits]
  · simp [hstep]

/-- For literal bounds and strides, the estimate is the number of iterations exactly when the loop
goes up to a bound that is not negative, or has no iteration, and the sums of its range stay within
64 bits; a bound that is negative or of another type than a signed one counts as not known. -/
theorem estimate_exact_iff {loop : ForStatement} {c : CanonicalResult}
    (hc : canonicalAnalyze loop = .ok c) (hlower : c.lowerBound.isLiteral = true)
    (hupper : c.upperBound.isLiteral = true) (hstride : c.stride.isLiteral = true)
    (initializer : Var → Option Expr) (depth : Nat) (exactLiteral : Bool) {r : HeaderRun}
    (hsteady : SteadyLoop r.entry loop r) :
    (∃ run n, headerRun r loop = some run ∧ run.Runs n ∧
      estimate initializer depth loop exactLiteral = some (n : Int)) ↔
      ∃ range, loopRange r.entry loop = some range ∧
        CountedExactly exactLiteral c range (r.entry.val c.stride) := by
  obtain ⟨rel, hform, hsimple, hx⟩ := canonicalAnalyze_ok hc
  have hrange : loopRange r.entry loop = some ⟨rel, r.entry.val c.lowerBound,
      r.entry.val c.upperBound, incrementDelta r.entry c.indexVar loop.increment⟩ := by
    simp [loopRange, hform]
  have hd : incrementDelta r.entry c.indexVar loop.increment = r.entry.val c.stride ∨
      incrementDelta r.entry c.indexVar loop.increment = -1 ∧ r.entry.val c.stride = 1 := by
    rcases incrementDelta_of_simple hsimple hsteady.negates with ⟨hone, hback⟩ | hd
    · exact Or.inr ⟨hback, by rw [hone, r.entry.val_intVal]⟩
    · exact Or.inl hd
  have hruns := fun n => steady_runs_iff hsteady hrange (n := n)
  simp only [hrange, Option.some.injEq, exists_eq_left', estimate_literal hc hlower hupper hstride,
    ← estimateRange_exact_iff hx hd (inLong_literalRead hupper) (inLong_literalRead hstride),
    ← hruns]
  constructor
  · rintro ⟨run, n, hrun, hn, he⟩
    exact ⟨n, ⟨run, hrun, hn⟩, he⟩
  · rintro ⟨n, ⟨run, hrun, hn⟩, he⟩
    exact ⟨run, n, hrun, hn, he⟩

/-- A plain run with literal bounds and a step of one is steady. -/
theorem countRun_steady {index : Nat → Int} {lower upper : Int} {op : BinOp}
    {increment : Expr → Expr} {c : CanonicalResult}
    (hc : canonicalAnalyze (countingLoop lower upper op increment) = .ok c)
    (h : DescribablyRun (countRun index) (countingLoop lower upper op increment) c)
    (hdelta : ∀ v v', incrementDelta v c.indexVar (countingLoop lower upper op increment).increment =
      incrementDelta v' c.indexVar (countingLoop lower upper op increment).increment)
    (hbounds : c.lowerBound = .intVal .int lower ∧ c.upperBound = .intVal .int upper) :
    SteadyLoop (countRun index).entry (countingLoop lower upper op increment) (countRun index) := by
  obtain ⟨rel, hform, -, -⟩ := canonicalAnalyze_ok hc
  refine ⟨h.negates 0 fun j hj => absurd hj (Nat.not_lt_zero j), fun iter l rel' u hc' => ?_⟩
  obtain ⟨rfl, rfl, rfl, rfl⟩ : c.indexVar = iter ∧ c.lowerBound = l ∧ rel = rel' ∧
      c.upperBound = u := by
    simpa [hform] using hc'
  refine ⟨h.executes, h.plain rel hform, rfl, fun k _ => ?_, fun k _ => hdelta _ _⟩
  rw [hbounds.2, Valuation.val_intVal, Valuation.val_intVal]

/-- `for (i = 0; i < 10; i++)` -/
theorem estimate_countUp :
    ∃ run n, headerRun (countRun fun k => min k 10) (countingLoop 0 10 .lt .plusPlus) = some run ∧
      run.Runs n ∧
      estimate (fun _ => none) 1 (countingLoop 0 10 .lt .plusPlus) false = some (n : Int) := by
  have hc : canonicalAnalyze (countingLoop 0 10 .lt .plusPlus) =
      .ok ⟨intVar 0 "i", .intVal .int 0, .intVal .int 10, .intVal .int 1, true⟩ := rfl
  have hsteady := countRun_steady hc countUp_describably (fun _ _ => rfl) ⟨rfl, rfl⟩
  refine (estimate_exact_iff hc (by decide) (by decide) (by decide) (fun _ => none) 1 false
    hsteady).mpr ⟨⟨.lt, 0, 10, 1⟩, rfl, by decide, ?_⟩
  rw [if_pos (by decide), if_pos ⟨rfl, rfl, rfl⟩]
  refine ⟨?_, Or.inl (by decide)⟩
  simp [RangeFits, rangeLength, InLong, strideStep_of_pos, Expr.literalRead]

/-- `for (i = 10; i > 0; i--)` counts as a loop without an iteration. -/
theorem estimate_countDown :
    ∃ c run, canonicalAnalyze (countingLoop 10 0 .gt .minusMinus) = .ok c ∧
      c.lowerBound.isLiteral = true ∧ c.upperBound.isLiteral = true ∧ c.stride.isLiteral = true ∧
      SteadyLoop (countRun fun k => max (10 - k) 0).entry (countingLoop 10 0 .gt .minusMinus)
        (countRun fun k => max (10 - k) 0) ∧
      headerRun (countRun fun k => max (10 - k) 0) (countingLoop 10 0 .gt .minusMinus) = some run ∧
      run.Runs 10 ∧
      ∀ exactLiteral, estimate (fun _ => none) 1 (countingLoop 10 0 .gt .minusMinus) exactLiteral =
        some 0 := by
  have hc : canonicalAnalyze (countingLoop 10 0 .gt .minusMinus) =
      .ok ⟨intVar 0 "i", .intVal .int 10, .intVal .int 0, .intVal .int 1, true⟩ := rfl
  have hsteady := countRun_steady hc countDown_describably (fun _ _ => rfl) ⟨rfl, rfl⟩
  have hten : LoopRange.Runs ⟨.gt, 10, 0, -1⟩ 10 := by
    rw [LoopRange.Runs, iterations_gt_iff, iterations_lt_pos (by decide)]
    decide
  obtain ⟨run, hrun, hruns⟩ := (steady_runs_iff (n := 10) hsteady rfl).mpr hten
  exact ⟨_, run, hc, by decide, by decide, by decide, hsteady, hrun, hruns, by decide⟩

end LoomX
