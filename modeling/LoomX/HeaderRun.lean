import LoomX.ArrayAccess
import LoomX.Canonical

namespace LoomX

/-- The types of the source expressions and their values at one time. What C leaves undefined has
any value. -/
structure Valuation where
  type : Expr → CType
  val : Expr → Int
  type_intVal : ∀ kind n, kind ≠ .other → type (.intVal kind n) = kind.type
  type_cast : ∀ t e, type (.cast t e) = t
  type_minus : ∀ e, type (.unary .minus e) = (type e).promote
  val_intVal : ∀ kind n, val (.intVal kind n) = n
  val_cast : ∀ t e, val (.cast t e) = t.convert (val e)
  val_minus : ∀ e n, (type e).promote.result (-val e) = some n → val (.unary .minus e) = n

/-- The value of an arithmetic expression, `0` where it overflows. -/
def Expr.value (ρ : Var → Int) : Expr → Int
  | .intVal _ n => n
  | .varRef v => ρ v
  | .cast t e => t.convert (e.value ρ)
  | .unary .minus e => (e.subscriptType.promote.result (-e.value ρ)).getD 0
  | .binary op a b =>
    (op.typed (a.subscriptType.arithmetic b.subscriptType) (a.value ρ) (b.value ρ)).getD 0
  | _ => 0

theorem value_congr {ρ ρ' : Var → Int} {e : Expr} (h : ∀ w ∈ e.varRefs, ρ w = ρ' w) :
    e.value ρ = e.value ρ' := by
  induction e with
  | varRef v => exact h v (by simp [Expr.varRefs])
  | cast t e ih => simp only [Expr.value, ih h]
  | unary op e ih => cases op <;> simp only [Expr.value, ih h]
  | binary op a b iha ihb =>
    have ha := iha fun w hw => h w (by simp [Expr.varRefs, hw])
    have hb := ihb fun w hw => h w (by simp [Expr.varRefs, hw])
    simp only [Expr.value, ha, hb]
  | _ => rfl

def Valuation.ofVars (ρ : Var → Int) : Valuation where
  type := Expr.subscriptType
  val := Expr.value ρ
  type_intVal _ _ _ := rfl
  type_cast _ _ := rfl
  type_minus _ := rfl
  val_intVal _ _ := rfl
  val_cast _ _ := rfl
  val_minus e n h := by rw [Expr.value, h, Option.getD_some]

/-- The index at each test of a loop, and whether the test holds there. -/
structure IndexRun where
  index : Nat → Int
  holds : Nat → Prop

namespace IndexRun

/-- The iteration after `q` others takes place. -/
def Reaches (r : IndexRun) (q : Nat) : Prop := ∀ k ≤ q, r.holds k

/-- The body is executed exactly `n` times. -/
def Runs (r : IndexRun) (n : Nat) : Prop := (∀ k < n, r.holds k) ∧ ¬r.holds n

/-- The same iterations take place, at the same values of the index. -/
structure Same (r s : IndexRun) : Prop where
  reaches : ∀ q, r.Reaches q ↔ s.Reaches q
  index : ∀ q, r.Reaches q → r.index q = s.index q

variable {r s t : IndexRun}

theorem reaches_iff {q : Nat} (h : ∀ k < q, r.holds k) : r.Reaches q ↔ r.holds q := by
  refine ⟨fun hq => hq q le_rfl, fun hq k hk => ?_⟩
  rcases Nat.lt_or_eq_of_le hk with hlt | rfl
  · exact h k hlt
  · exact hq

/-- Two runs are the same if no test that is reached tells them apart. -/
theorem same_iff : r.Same s ↔ ∀ q, (∀ k < q, r.holds k) →
    (r.holds q ↔ s.holds q) ∧ (r.holds q → r.index q = s.index q) := by
  constructor
  · intro h q hq
    have hs : ∀ k < q, s.holds k := by
      intro k hk
      have hreach : r.Reaches k := fun j hj => hq j (by omega)
      exact (h.reaches k).mp hreach k le_rfl
    rw [← reaches_iff hq, ← reaches_iff hs]
    exact ⟨h.reaches q, h.index q⟩
  · intro h
    have hreaches : ∀ q, r.Reaches q ↔ s.Reaches q := by
      intro q
      induction q using Nat.strong_induction_on with
      | _ q ih =>
        constructor
        · intro hr k hk
          exact ((h k fun j hj => hr j (by omega)).1).mp (hr k hk)
        · intro hs
          have hbefore : ∀ k < q, r.holds k := fun k hk =>
            (ih k hk).mpr (fun j hj => hs j (by omega)) k le_rfl
          exact (reaches_iff hbefore).mpr ((h q hbefore).1.mpr (hs q le_rfl))
    exact ⟨hreaches, fun q hq => (h q fun k hk => hq k (by omega)).2 (hq q le_rfl)⟩

theorem Same.symm (h : r.Same s) : s.Same r :=
  ⟨fun q => (h.reaches q).symm, fun q hq => (h.index q ((h.reaches q).mpr hq)).symm⟩

theorem Same.trans (h : r.Same s) (h' : s.Same t) : r.Same t :=
  ⟨fun q => (h.reaches q).trans (h'.reaches q), fun q hq =>
    (h.index q hq).trans (h'.index q ((h.reaches q).mp hq))⟩

theorem runs_iff {n : Nat} : r.Runs n ↔ (∀ q < n, r.Reaches q) ∧ ¬r.Reaches n := by
  constructor
  · rintro ⟨hall, hstop⟩
    exact ⟨fun q hq k hk => hall k (by omega), fun hn => hstop (hn n le_rfl)⟩
  · rintro ⟨hall, hstop⟩
    have hholds : ∀ k < n, r.holds k := fun k hk => hall k hk k le_rfl
    exact ⟨hholds, fun hn => hstop ((reaches_iff hholds).mpr hn)⟩

/-- The same runs have the same number of iterations. -/
theorem Same.runs_iff (h : r.Same s) {n : Nat} : r.Runs n ↔ s.Runs n := by
  simp only [IndexRun.runs_iff, h.reaches]

end IndexRun

/-- What the expressions of a header are worth before the loop, at each of its tests and at each
of its increments, and whether the body leaves the loop in between. The body can change them. -/
structure HeaderRun where
  entry : Valuation
  atTest : Nat → Valuation
  atStep : Nat → Valuation
  leaves : Nat → Prop

/-- The value that the initialisation stores in the index. -/
def initialValue (v : Valuation) (iter : Var) : Stmt → Option Int
  | .decl _ (some e) | .expr (.assign _ e) => some (iter.type.convert (v.val e))
  | .expr (.compound op _ e) =>
    (op.typed (iter.type.arithmetic (v.type e)) (v.val (.varRef iter)) (v.val e)).map
      iter.type.convert
  | _ => none

/-- The comparison of a loop, in the common type of its operands. -/
def testHolds (v : Valuation) : Expr → Prop
  | .binary op a b =>
    let t := (v.type a).arithmetic (v.type b)
    match op with
    | .lt => LoopTest.lt.holds (t.convert (v.val a)) (t.convert (v.val b))
    | .le => LoopTest.le.holds (t.convert (v.val a)) (t.convert (v.val b))
    | .gt => LoopTest.gt.holds (t.convert (v.val a)) (t.convert (v.val b))
    | .ge => LoopTest.ge.holds (t.convert (v.val a)) (t.convert (v.val b))
    | _ => False
  | _ => False

/-- What the increment computes before it is stored in the index. -/
def stepValue (v : Valuation) (iter : Var) : Expr → Option Int
  | .plusPlus _ => BinOp.add.typed (iter.type.arithmetic .int) (v.val (.varRef iter)) 1
  | .minusMinus _ => BinOp.sub.typed (iter.type.arithmetic .int) (v.val (.varRef iter)) 1
  | .compound op _ e =>
    op.typed (iter.type.arithmetic (v.type e)) (v.val (.varRef iter)) (v.val e)
  | .assign _ (.binary op a b) => op.typed ((v.type a).arithmetic (v.type b)) (v.val a) (v.val b)
  | _ => none

namespace HeaderRun

variable (r : HeaderRun) (loop : ForStatement) (iter : Var)

def index (k : Nat) : Int := (r.atTest k).val (.varRef iter)

/-- The test is reached after `k` iterations. -/
def Tested (k : Nat) : Prop := ∀ j < k, testHolds (r.atTest j) loop.test ∧ ¬r.leaves j

/-- The index is initialised and stepped as the header says. -/
structure Executes : Prop where
  typed : ∀ k, (r.atTest k).type (.varRef iter) = iter.type ∧
    (r.atStep k).type (.varRef iter) = iter.type
  init : initialValue r.entry iter loop.init = some (r.index iter 0)
  step : ∀ k, r.Tested loop (k + 1) → ∃ n, stepValue (r.atStep k) iter loop.increment = some n ∧
    r.index iter (k + 1) = iter.type.convert n

end HeaderRun

/-- The index values of a canonical loop. -/
def headerRun (r : HeaderRun) (loop : ForStatement) : Option IndexRun :=
  match isCanonicalForLoop loop with
  | some (iter, _) =>
    some ⟨r.index iter, fun k => testHolds (r.atTest k) loop.test ∧ ∀ j < k, ¬r.leaves j⟩
  | none => none

/-- What the increment of a canonical loop adds to its index, over the integers. -/
def incrementDelta (v : Valuation) (iter : Var) : Expr → Int
  | .plusPlus _ => 1
  | .minusMinus _ => -1
  | .compound .add _ e => v.val e
  | .compound .sub _ e => -v.val e
  | .assign _ (.binary .add a b) => if a.skipCasts = .varRef iter then v.val b else v.val a
  | .assign _ (.binary .sub _ b) => -v.val b
  | _ => 0

/-- What is subtracted can be negated in its type. -/
def Negates (v : Valuation) : Expr → Prop
  | .compound .sub _ e | .assign _ (.binary .sub _ e) => v.val (.unary .minus e) = -v.val e
  | _ => True

/-- The increment adds its summand: nothing wraps around, and no cast changes the index. -/
structure StepFits (v : Valuation) (iter : Var) (increment : Expr) : Prop where
  value : stepValue v iter increment =
    some (v.val (.varRef iter) + incrementDelta v iter increment)
  contains : iter.type.contains (v.val (.varRef iter) + incrementDelta v iter increment)
  negates : Negates v increment

/-- The header means over the integers what it means in its types: a plain initialisation, a
comparison and a step that convert nothing to another value, and a body that leaves the index
alone and does not leave the loop. -/
structure HeaderRun.Plain (r : HeaderRun) (loop : ForStatement) (iter : Var) (lower : Expr)
    (rel : LoopTest) (upper : Expr) : Prop where
  init : loop.init.isPlainInit = true
  entry : iter.type.contains (r.entry.val lower)
  test : ∀ k, r.Tested loop k → ¬r.leaves k ∧
    (testHolds (r.atTest k) loop.test ↔ rel.holds (r.index iter k) ((r.atTest k).val upper))
  step : ∀ k, r.Tested loop (k + 1) → (r.atStep k).val (.varRef iter) = r.index iter k ∧
    StepFits (r.atStep k) iter loop.increment

/-- The index after `k` steps. -/
def indexAt (l : Int) (d : Nat → Int) : Nat → Int
  | 0 => l
  | k + 1 => indexAt l d k + d k

/-- The index values of a canonical loop over the integers. -/
def integerRun (r : HeaderRun) (iter : Var) (lower : Expr) (rel : LoopTest) (upper increment : Expr) :
    IndexRun :=
  let index := indexAt (r.entry.val lower) fun k => incrementDelta (r.atStep k) iter increment
  ⟨index, fun k => rel.holds (index k) ((r.atTest k).val upper)⟩

section

variable {r : HeaderRun} {loop : ForStatement} {iter : Var} {lower upper : Expr} {rel : LoopTest}

theorem initialValue_of_plain {v : Valuation} {init : Stmt} (h : canonicalInit init = some (iter, lower))
    (hplain : init.isPlainInit = true) :
    initialValue v iter init = some (iter.type.convert (v.val lower)) := by
  cases init with
  | decl w e =>
    cases e with
    | none => simp [canonicalInit] at h
    | some e =>
      obtain ⟨rfl, rfl⟩ := Prod.mk.inj (Option.some.inj h)
      rfl
  | expr e =>
    cases e with
    | assign l e =>
      simp only [canonicalInit, Expr.assignment] at h
      split at h
      next =>
        obtain ⟨rfl, rfl⟩ := Prod.mk.inj (Option.some.inj h)
        rfl
      next => simp at h
    | compound => simp [Stmt.isPlainInit] at hplain
    | _ => simp [canonicalInit, Expr.assignment] at h
  | _ => simp [canonicalInit] at h

/-- Where the test is reached, the index is the one over the integers. -/
theorem index_eq_of_plain (hc : isCanonicalForLoop loop = some (iter, lower, rel, upper))
    (hexec : r.Executes loop iter) (hplain : r.Plain loop iter lower rel upper) {k : Nat}
    (hk : r.Tested loop k) : r.index iter k =
      indexAt (r.entry.val lower) (fun j => incrementDelta (r.atStep j) iter loop.increment) k := by
  obtain ⟨hinit, hstrict, -⟩ := isCanonicalForLoop_some hc
  have htype := ne_of_isStrictIntegerType hstrict
  induction k with
  | zero =>
    have hentry := hexec.init
    rw [initialValue_of_plain hinit hplain.init, CType.convert_of_contains htype hplain.entry]
      at hentry
    exact (Option.some.inj hentry).symm
  | succ k ih =>
    obtain ⟨n, hn, hindex⟩ := hexec.step k hk
    obtain ⟨hkept, hfits⟩ := hplain.step k hk
    obtain rfl := Option.some.inj (hn.symm.trans hfits.value)
    rw [hindex, CType.convert_of_contains htype hfits.contains, hkept,
      ih fun j hj => hk j (by omega), indexAt]

/-- Iterations that take place lead to the next test. -/
theorem tested_of_holds (hplain : r.Plain loop iter lower rel upper) {q : Nat}
    (h : ∀ k < q, testHolds (r.atTest k) loop.test ∧ ∀ j < k, ¬r.leaves j) : r.Tested loop q := by
  suffices hall : ∀ k ≤ q, r.Tested loop k from hall q le_rfl
  intro k
  induction k with
  | zero => exact fun _ j hj => absurd hj (Nat.not_lt_zero j)
  | succ k ih =>
    intro hk j hj
    rcases Nat.lt_succ_iff_lt_or_eq.mp hj with hlt | rfl
    · exact ih (by omega) j hlt
    · exact ⟨(h j hk).1, (hplain.test j (ih (by omega))).1⟩

/-- A plain run is the one over the integers. -/
theorem headerRun_same_of_plain (hc : isCanonicalForLoop loop = some (iter, lower, rel, upper))
    (hexec : r.Executes loop iter) (hplain : r.Plain loop iter lower rel upper) :
    ∃ run, headerRun r loop = some run ∧
      run.Same (integerRun r iter lower rel upper loop.increment) := by
  simp only [headerRun, hc, Option.some.injEq, exists_eq_left', IndexRun.same_iff]
  intro q hq
  have hreached := tested_of_holds hplain hq
  have hindex := index_eq_of_plain hc hexec hplain hreached
  have htest := (hplain.test q hreached).2
  refine ⟨?_, fun _ => hindex⟩
  rw [htest, and_iff_left fun j hj => (hreached j hj).2, hindex]
  rfl

end

end LoomX
