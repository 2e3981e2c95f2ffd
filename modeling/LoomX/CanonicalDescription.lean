import LoomX.KernelTrip

namespace LoomX

/-- The test that a stride and an exclusive or inclusive bound stand for. -/
def describedTest (stride : Int) (isUpperExclusive : Bool) : LoopTest :=
  if stride < 0 then if isUpperExclusive then .gt else .ge
  else if isUpperExclusive then .lt else .le

/-- The index values that the recorded bounds and stride describe. -/
def CanonicalResult.describedRun (c : CanonicalResult) (r : HeaderRun) : IndexRun :=
  let index := indexAt (r.entry.val c.lowerBound) fun k => (r.atStep k).val c.stride
  ⟨index, fun k => (describedTest ((r.atTest k).val c.stride) c.isUpperExclusive).holds (index k)
    ((r.atTest k).val c.upperBound)⟩

/-- The direction of the test is the one of the stride, or the loop ends at once. The bound of
`>=` counts as exclusive, so that a loop must not come to it. -/
def DirectionFits (rel : LoopTest) (stride i u : Int) : Prop :=
  match rel with
  | .lt | .le => 0 ≤ stride ∨ i = u
  | .gt => stride < 0 ∨ i = u
  | .ge => stride < 0 ∧ i ≠ u

/-- A loop with `--`, whose stride is recorded as `1`, has one iteration at most; `u'` is its bound
at the second test. -/
def StepsBackOnce (rel : LoopTest) (l u u' : Int) : Prop :=
  match rel with
  | .lt => u ≤ l ∨ u' < l
  | .le => u < l ∨ u' + 1 < l
  | .gt => l = u
  | .ge => False

/-- The loops and values for which the description is right: wherever the test is reached, its
direction fits what the increment adds. -/
def WellDescribed (r : HeaderRun) (loop : ForStatement) : Prop :=
  match isCanonicalForLoop loop with
  | some (iter, lower, rel, upper) =>
    match loop.increment with
    | .minusMinus _ => StepsBackOnce rel (r.entry.val lower) ((r.atTest 0).val upper)
        ((r.atTest 1).val upper)
    | increment =>
      let index := indexAt (r.entry.val lower) fun k => incrementDelta (r.atStep k) iter increment
      ∀ q, (∀ k < q, rel.holds (index k) ((r.atTest k).val upper)) →
        DirectionFits rel (incrementDelta (r.atTest q) iter increment) (index q)
          ((r.atTest q).val upper)
  | none => False

theorem describedTest_iff {rel : LoopTest} {stride i u : Int} :
    (rel.holds i u ↔ (describedTest stride (rel != .le)).holds i u) ↔
      DirectionFits rel stride i u := by
  rcases lt_or_ge stride 0 with h | h
  · have hn : ¬0 ≤ stride := by omega
    cases rel <;> simp [describedTest, DirectionFits, LoopTest.holds, h, hn] <;> omega
  · have hn : ¬stride < 0 := by omega
    cases rel <;> simp [describedTest, DirectionFits, LoopTest.holds, h, hn] <;> omega

/-- Two runs that differ in all their steps are the same if the second test ends them. -/
theorem stepsBackOnce_iff {rel : LoopTest} {r s : IndexRun} {l u u' : Int}
    (hr : r.index = indexAt l fun _ => -1) (hs : s.index = indexAt l fun _ => 1)
    (hr0 : r.holds 0 ↔ rel.holds l u) (hr1 : r.holds 1 ↔ rel.holds (l - 1) u')
    (hs0 : s.holds 0 ↔ (describedTest 1 (rel != .le)).holds l u)
    (hs1 : s.holds 1 ↔ (describedTest 1 (rel != .le)).holds (l + 1) u') :
    r.Same s ↔ StepsBackOnce rel l u u' := by
  have hfirst : (r.holds 0 ↔ s.holds 0) ↔ DirectionFits rel 1 l u := by
    rw [hr0, hs0]
    exact describedTest_iff
  have hindex : r.index 1 ≠ s.index 1 := by
    simp only [hr, hs, indexAt]
    omega
  have hsecond : r.Same s ↔
      (r.holds 0 ↔ s.holds 0) ∧ (r.holds 0 → ¬r.holds 1 ∧ ¬s.holds 1) := by
    rw [IndexRun.same_iff]
    constructor
    · intro h
      refine ⟨(h 0 (by simp)).1, fun h0 => ?_⟩
      have h1 := h 1 (by simpa using h0)
      have hno : ¬r.holds 1 := fun hholds => hindex (h1.2 hholds)
      exact ⟨hno, fun hholds => hno (h1.1.mpr hholds)⟩
    · intro h q hq
      rcases q with _ | _ | q
      · exact ⟨h.1, fun _ => by simp [hr, hs, indexAt]⟩
      · obtain ⟨hno, hno'⟩ := h.2 (hq 0 (by omega))
        exact ⟨iff_of_false hno hno', fun hholds => absurd hholds hno⟩
      · exact absurd (hq 1 (by omega)) (h.2 (hq 0 (by omega))).1
  rw [hsecond, hfirst, hr0, hr1, hs1]
  cases rel <;> simp [DirectionFits, StepsBackOnce, LoopTest.holds, describedTest] <;> omega

theorem indexAt_congr {l : Int} {d d' : Nat → Int} {q : Nat} (h : ∀ k < q, d k = d' k) :
    indexAt l d q = indexAt l d' q := by
  induction q with
  | zero => rfl
  | succ q ih => rw [indexAt, indexAt, ih fun k hk => h k (by omega), h q (by omega)]

/-- A plain run of a canonical loop, where a subtracted step can be negated at the tests, too. -/
structure DescribablyRun (r : HeaderRun) (loop : ForStatement) (c : CanonicalResult) : Prop where
  executes : r.Executes loop c.indexVar
  plain : ∀ rel, isCanonicalForLoop loop = some (c.indexVar, c.lowerBound, rel, c.upperBound) →
    r.Plain loop c.indexVar c.lowerBound rel c.upperBound
  negates : ∀ k, r.Tested loop k → Negates (r.atTest k) loop.increment

/-- Over the integers, the description is right exactly when the direction of the test fits the
increment. -/
theorem integerRun_described_iff {r : HeaderRun} {loop : ForStatement} {c : CanonicalResult}
    {rel : LoopTest} (hc : isCanonicalForLoop loop = some (c.indexVar, c.lowerBound, rel, c.upperBound))
    (hs : incrementIsSimple c.indexVar loop.increment = some c.stride)
    (hexclusive : c.isUpperExclusive = (rel != .le))
    (hneg : ∀ q, (integerRun r c.indexVar c.lowerBound rel c.upperBound loop.increment).Reaches q →
      Negates (r.atStep q) loop.increment)
    (hneg' : ∀ q, (∀ k < q,
      (integerRun r c.indexVar c.lowerBound rel c.upperBound loop.increment).holds k) →
      Negates (r.atTest q) loop.increment) :
    (integerRun r c.indexVar c.lowerBound rel c.upperBound loop.increment).Same
      (c.describedRun r) ↔ WellDescribed r loop := by
  simp only [WellDescribed, hc, CanonicalResult.describedRun, hexclusive]
  by_cases hback : ∃ e, loop.increment = .minusMinus e
  · obtain ⟨e, he⟩ := hback
    rw [he] at hs
    have hstride := stride_of_minusMinus hs
    have hdelta : ∀ k, incrementDelta (r.atStep k) c.indexVar (.minusMinus e) = -1 := fun _ => rfl
    simp only [integerRun, he, hdelta]
    refine stepsBackOnce_iff rfl ?_ Iff.rfl ?_ ?_ ?_
    · simp [hstride, Valuation.val_intVal]
    · simp [indexAt, Int.sub_eq_add_neg]
    · simp [indexAt, hstride, Valuation.val_intVal]
    · simp [indexAt, hstride, Valuation.val_intVal]
  · have hdelta {v : Valuation} (hv : Negates v loop.increment) :=
      incrementDelta_eq_stride hs (fun e he => hback ⟨e, he⟩) hv
    split
    next e he => exact absurd ⟨e, he⟩ hback
    next =>
      rw [IndexRun.same_iff]
      refine forall_congr' fun q => forall_congr' fun hq => ?_
      have hindex : indexAt (r.entry.val c.lowerBound) (fun k => (r.atStep k).val c.stride) q =
          indexAt (r.entry.val c.lowerBound)
            (fun k => incrementDelta (r.atStep k) c.indexVar loop.increment) q :=
        indexAt_congr fun k hk => (hdelta (hneg k fun j hj => hq j (by omega))).symm
      have hiff : ∀ i u, (rel.holds i u ↔
          (describedTest ((r.atTest q).val c.stride) (rel != .le)).holds i u) ↔
          DirectionFits rel (incrementDelta (r.atTest q) c.indexVar loop.increment) i u := by
        intro i u
        rw [hdelta (hneg' q hq)]
        exact describedTest_iff
      dsimp only [integerRun]
      rw [hindex, hiff]
      exact and_iff_left fun _ => rfl

/-- In a plain run, the recorded bounds and stride describe the index values of a loop exactly when
the direction of its test fits its increment wherever the test is reached. -/
theorem canonical_description_iff {loop : ForStatement} {c : CanonicalResult}
    (h : canonicalAnalyze loop = .ok c) {r : HeaderRun} (hrun : DescribablyRun r loop c) :
    (∃ run, headerRun r loop = some run ∧ run.Same (c.describedRun r)) ↔ WellDescribed r loop := by
  obtain ⟨rel, hc, hs, hexclusive⟩ := canonicalAnalyze_ok h
  have hplain := hrun.plain rel hc
  obtain ⟨run, hheader, hsame⟩ := headerRun_same_of_plain hc hrun.executes hplain
  have htested : ∀ q, (∀ k < q,
      (integerRun r c.indexVar c.lowerBound rel c.upperBound loop.increment).holds k) →
      r.Tested loop q := by
    intro q hq
    simp only [headerRun, hc, Option.some.injEq] at hheader
    subst hheader
    exact tested_of_holds hplain fun k hk =>
      (hsame.reaches k).mpr (fun j hj => hq j (by omega)) k le_rfl
  have hstep : ∀ q, (integerRun r c.indexVar c.lowerBound rel c.upperBound loop.increment).Reaches q →
      Negates (r.atStep q) loop.increment := fun q hq =>
    (hplain.step q (htested (q + 1) fun k hk => hq k (by omega))).2.negates
  rw [← integerRun_described_iff hc hs hexclusive hstep fun q hq => hrun.negates q (htested q hq)]
  simp only [hheader, Option.some.injEq, exists_eq_left']
  exact ⟨hsame.symm.trans, hsame.trans⟩

def countingLoop (lower upper : Int) (op : BinOp) (increment : Expr → Expr) : ForStatement :=
  let i := Expr.varRef (intVar 0 "i")
  ⟨.expr (.assign i (.intVal .int lower)), .binary op i (.intVal .int upper), increment i, .empty⟩

/-- The index takes the given values, and so does every other variable. -/
def countRun (index : Nat → Int) : HeaderRun :=
  let values (k : Nat) : Valuation := .ofVars fun _ => index k
  ⟨values 0, values, values, fun _ => False⟩

/-- A loop with literal bounds runs as its header says if the index stays between `0` and `10`. -/
theorem countRun_describably {index : Nat → Int} {lower upper d : Int} {op : BinOp}
    (rel : LoopTest) {increment : Expr → Expr} {c : CanonicalResult}
    (hc : isCanonicalForLoop (countingLoop lower upper op increment) =
      some (intVar 0 "i", .intVal .int lower, rel, .intVal .int upper))
    (hresult : c.indexVar = intVar 0 "i" ∧ c.lowerBound = .intVal .int lower ∧
      c.upperBound = .intVal .int upper)
    (htest : ∀ k, testHolds ((countRun index).atTest k) (countingLoop lower upper op increment).test ↔
      rel.holds (CType.int.convert (index k)) (CType.int.convert upper))
    (hvalue : ∀ v, stepValue v (intVar 0 "i") (increment (.varRef (intVar 0 "i"))) =
      CType.int.result (v.val (.varRef (intVar 0 "i")) + d))
    (hdelta : ∀ v, incrementDelta v (intVar 0 "i") (increment (.varRef (intVar 0 "i"))) = d)
    (hneg : ∀ v, Negates v (increment (.varRef (intVar 0 "i"))))
    (hrange : ∀ k, 0 ≤ index k ∧ index k ≤ 10) (hupper : 0 ≤ upper ∧ upper ≤ 10)
    (hstart : index 0 = lower)
    (hnext : ∀ k, rel.holds (index k) upper → index (k + 1) = index k + d) :
    DescribablyRun (countRun index) (countingLoop lower upper op increment) c := by
  have hcontains : ∀ n : Int, 0 ≤ n ∧ n ≤ 10 → CType.int.contains n := fun n hn => by
    rw [int_contains_iff]
    omega
  have hplainTest : ∀ k, testHolds ((countRun index).atTest k)
      (countingLoop lower upper op increment).test ↔ rel.holds (index k) upper := by
    intro k
    rw [htest, CType.convert_of_contains (by decide) (hcontains _ (hrange k)),
      CType.convert_of_contains (by decide) (hcontains _ hupper)]
  have hadd : ∀ k, (countRun index).Tested (countingLoop lower upper op increment) (k + 1) →
      index (k + 1) = index k + d := fun k hk => hnext k ((hplainTest k).mp (hk k (by omega)).1)
  have hin : ∀ k, (countRun index).Tested (countingLoop lower upper op increment) (k + 1) →
      CType.int.contains (index k + d) := fun k hk => hadd k hk ▸ hcontains _ (hrange (k + 1))
  have hsteps : ∀ k, (countRun index).Tested (countingLoop lower upper op increment) (k + 1) →
      stepValue ((countRun index).atStep k) (intVar 0 "i")
        (countingLoop lower upper op increment).increment = some (index k + d) := fun k hk =>
    (hvalue _).trans (CType.result_of_contains (hin k hk))
  have hentry : CType.int.contains lower := hstart ▸ hcontains _ (hrange 0)
  refine ⟨?_, fun rel' hc' => ?_, fun _ _ => hneg _⟩
  · rw [hresult.1]
    refine ⟨fun k => ⟨rfl, rfl⟩, ?_, fun k hk => ⟨_, hsteps k hk, ?_⟩⟩
    · show some (CType.int.convert lower) = some (index 0)
      rw [CType.convert_of_contains (by decide) hentry, hstart]
    · show index (k + 1) = CType.int.convert (index k + d)
      rw [CType.convert_of_contains (by decide) (hin k hk), hadd k hk]
  · rw [hc, hresult.1, hresult.2.1, hresult.2.2] at hc'
    obtain rfl : rel = rel' := by simpa using hc'
    rw [hresult.1, hresult.2.1, hresult.2.2]
    refine ⟨rfl, hentry, fun k _ => ⟨id, hplainTest k⟩, fun k hk => ⟨rfl, ?_, ?_, hneg _⟩⟩
    · exact (hsteps k hk).trans (congrArg (fun n => some (index k + n)) (hdelta _).symm)
    · show CType.int.contains (index k + _)
      rw [show incrementDelta _ _ (countingLoop lower upper op increment).increment = d from hdelta _]
      exact hin k hk

theorem countUp_describably : DescribablyRun (countRun fun k => min k 10)
    (countingLoop 0 10 .lt .plusPlus)
    ⟨intVar 0 "i", .intVal .int 0, .intVal .int 10, .intVal .int 1, true⟩ := by
  refine countRun_describably (d := 1) .lt rfl ⟨rfl, rfl, rfl⟩ (fun k => Iff.rfl)
    (fun v => rfl) (fun v => rfl) (fun v => trivial) (fun k => ⟨by omega, by omega⟩) (by decide) rfl
    fun k hk => ?_
  simp only [LoopTest.holds] at hk
  push_cast
  omega

theorem countDown_describably : DescribablyRun (countRun fun k => max (10 - k) 0)
    (countingLoop 10 0 .gt .minusMinus)
    ⟨intVar 0 "i", .intVal .int 10, .intVal .int 0, .intVal .int 1, true⟩ := by
  refine countRun_describably (d := -1) .gt rfl ⟨rfl, rfl, rfl⟩ (fun k => Iff.rfl)
    (fun v => rfl) (fun v => rfl) (fun v => trivial) (fun k => ⟨by omega, by omega⟩) (by decide) rfl
    fun k hk => ?_
  simp only [LoopTest.holds] at hk
  push_cast
  omega

theorem countUp_described :
    ∃ run, headerRun (countRun fun k => min k 10) (countingLoop 0 10 .lt .plusPlus) = some run ∧
      run.Same (CanonicalResult.describedRun ⟨intVar 0 "i", .intVal .int 0, .intVal .int 10,
        .intVal .int 1, true⟩ (countRun fun k => min k 10)) := by
  have hc : canonicalAnalyze (countingLoop 0 10 .lt .plusPlus) =
      .ok ⟨intVar 0 "i", .intVal .int 0, .intVal .int 10, .intVal .int 1, true⟩ := rfl
  refine (canonical_description_iff hc countUp_describably).mpr fun q _ => ?_
  exact Or.inl (show (0 : Int) ≤ 1 by decide)

/-- `for (i = 10; i > 0; i--)` is recorded with the stride `1`. -/
theorem countDown_not_described :
    ∃ c, canonicalAnalyze (countingLoop 10 0 .gt .minusMinus) = .ok c ∧
      c.stride = .intVal .int 1 ∧
      DescribablyRun (countRun fun k => max (10 - k) 0) (countingLoop 10 0 .gt .minusMinus) c ∧
      ¬∃ run, headerRun (countRun fun k => max (10 - k) 0) (countingLoop 10 0 .gt .minusMinus) =
        some run ∧ run.Same (c.describedRun (countRun fun k => max (10 - k) 0)) := by
  refine ⟨_, rfl, rfl, countDown_describably, ?_⟩
  rintro ⟨run, hrun, hsame⟩
  obtain rfl := Option.some.inj hrun
  have hfirst : testHolds ((countRun fun k => max (10 - k) 0).atTest 0)
      (countingLoop 10 0 .gt .minusMinus).test := by
    show CType.int.convert 0 < CType.int.convert (max (10 - (0 : Nat)) 0)
    decide
  have hstart : (describedTest 1 true).holds 10 0 := by
    refine (hsame.reaches 0).mp (fun k hk => ?_) 0 le_rfl
    obtain rfl : k = 0 := by omega
    exact ⟨hfirst, fun j hj => absurd hj (Nat.not_lt_zero j)⟩
  simp [describedTest, LoopTest.holds] at hstart

end LoomX
