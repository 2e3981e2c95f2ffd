import LoomX.IntervalSemantics.Value

namespace LoomX.IntervalSemantics

open IntegerOps

theorem and_genMask_self {n x : Nat} (h : x ≤ genMask n) : x &&& genMask n = x := by
  rcases Nat.lt_or_ge 64 n with hn | hn
  · have hmask : genMask n = genMask 64 := genMask_of_le hn.le
    rw [hmask, IntegerOps.le_genMask le_rfl] at h
    rw [hmask, and_genMask le_rfl, Nat.mod_eq_of_lt h]
  · rw [IntegerOps.le_genMask hn] at h
    rw [and_genMask hn, Nat.mod_eq_of_lt h]

namespace SValue

/-- A value of the numbers between two others, where these are in order. -/
def instanceHull (nbits v1 v2 : Nat) : Option SValue :=
  let v1 := v1 &&& genMask nbits
  let v2 := v2 &&& genMask nbits
  if v1 ≤ v2 then instanceIntervals nbits (.insertHull .empty v1 v2) else none

/-- What merging another value into this one makes, if that is a change. The outer option is
empty where an assertion fails. -/
def createOptionalMerge (v other : SValue) : Option (Option SValue) :=
  if v.nBits ≠ other.nBits then none
  else if v.isBottom then some none
  else if other.isBottom then some (some (instanceBottom v.nBits))
  else
    let newIntervals := v.intervals.insertMultiple other.intervals
    -- no change, by comparison with the other value
    if newIntervals.intervals = other.intervals.intervals then some none
    else if maxComplexity < newIntervals.intervals.length then
      (instanceHull v.nBits newIntervals.least newIntervals.greatest).map some
    else (instanceIntervals v.nBits newIntervals).map some

def mayEqual (v other : SValue) : Bool :=
  if v.nBits ≠ other.nBits then false
  else if v.isBottom || other.isBottom then true
  else if v.mustEqual other then true
  else v.intervals.containsAll other.intervals

variable {v w : SValue} {n : Nat}

theorem instanceHull_spec {l g : Nat} (hlg : l ≤ g) (hg : g ≤ genMask n) :
    ∃ m, instanceHull n l g = some m ∧ ∀ a, a ∈ m ↔ l ≤ a ∧ a ≤ g := by
  have hmem : ∀ a, a ∈ IntervalSet.insertHull .empty l g ↔ l ≤ a ∧ a ≤ g := by
    intro a
    rw [IntervalSet.mem_insertHull, Interval.mem_hull hlg]
    simp
  obtain ⟨m, hm, -, -, hin⟩ := instanceIntervals_spec (n := n)
    ⟨l, (hmem l).mpr ⟨le_rfl, hlg⟩⟩ fun a ha => ((hmem a).mp ha).2.trans hg
  refine ⟨m, ?_, fun a => (hin a).trans (hmem a)⟩
  rw [instanceHull, and_genMask_self (hlg.trans hg), and_genMask_self hg,
    if_pos hlg, hm]

theorem mustEqual_iff (hn : v.nBits = w.nBits) (hv : v.isBottom = false) (hw : w.isBottom = false) :
    v.mustEqual w = true ↔ ∃ x, v.toUnsigned = some x ∧ w.toUnsigned = some x := by
  rw [mustEqual, if_neg (by omega), hv, hw, Bool.or_false, if_neg Bool.false_ne_true,
    Bool.and_eq_true, decide_eq_true_eq, Option.isSome_iff_exists]
  constructor
  · intro ⟨⟨x, hx⟩, heq⟩
    exact ⟨x, hx, heq ▸ hx⟩
  · intro ⟨x, hx, hx'⟩
    exact ⟨⟨x, hx⟩, hx.trans hx'.symm⟩

/-- Values that must be equal are one number. -/
theorem single_of_mustEqual (h : v.mustEqual w = true) :
    ∃ x, (∀ a, a ∈ v ↔ a = x) ∧ ∀ a, a ∈ w ↔ a = x := by
  have hn : v.nBits = w.nBits := by
    by_contra hne
    rw [mustEqual, if_pos hne] at h
    exact Bool.false_ne_true h
  have hb : (v.isBottom || w.isBottom) = false := by
    by_contra hb
    rw [Bool.not_eq_false] at hb
    rw [mustEqual, if_neg (by omega), if_pos hb] at h
    exact Bool.false_ne_true h
  rw [Bool.or_eq_false_iff] at hb
  obtain ⟨x, hx, hx'⟩ := (mustEqual_iff hn hb.1 hb.2).mp h
  exact ⟨x, toUnsigned_mem hx, toUnsigned_mem hx'⟩

theorem mayEqual_of_isBottom (hn : v.nBits = w.nBits)
    (hb : v.isBottom = true ∨ w.isBottom = true) : v.mayEqual w = true := by
  rw [mayEqual, if_neg (by omega), if_pos (by rwa [Bool.or_eq_true])]

/-- Neither value is bottom: one may equal the other where it holds all of its numbers. -/
theorem mayEqual_iff (hn : v.nBits = w.nBits) (hv : v.isBottom = false) (hw : w.isBottom = false) :
    v.mayEqual w = true ↔ ∀ a ∈ w, a ∈ v := by
  rw [mayEqual, if_neg (by omega), hv, hw, Bool.or_false, if_neg Bool.false_ne_true]
  split
  next hmust =>
    obtain ⟨x, hx, hx'⟩ := single_of_mustEqual hmust
    refine iff_of_true rfl fun a ha => ?_
    rw [hx, ← hx']
    exact ha
  next => exact IntervalSet.containsAll_iff

theorem le_genMask_of_mem_or {a : Nat} (hn : v.nBits = w.nBits) (ha : a ∈ v ∨ a ∈ w) :
    a ≤ genMask v.nBits := by
  rcases ha with ha | ha
  · exact le_genMask ha
  · rw [hn]
    exact le_genMask ha

/-- A change is a value with the numbers of both; there is none where this value is bottom, or
has no number that the other lacks. -/
theorem createOptionalMerge_spec (hn : v.nBits = w.nBits) :
    ∃ r, v.createOptionalMerge w = some r ∧
      (∀ m, r = some m → ∀ a, a ∈ v ∨ a ∈ w → a ∈ m) ∧
      (r = none ↔ v.isBottom = true ∨ w.isBottom = false ∧ ∀ a ∈ v, a ∈ w) := by
  rw [createOptionalMerge, if_neg (by omega)]
  cases hv : v.isBottom with
  | true => exact ⟨none, rfl, fun m hm => (by cases hm), by simp⟩
  | false =>
    rw [if_neg Bool.false_ne_true]
    cases hw : w.isBottom with
    | true =>
      refine ⟨some (instanceBottom v.nBits), rfl, fun m hm a ha => ?_, by simp⟩
      rw [← Option.some.inj hm]
      exact mem_hull_zero.mpr (le_genMask_of_mem_or hn ha)
    | false =>
      rw [if_neg Bool.false_ne_true]
      dsimp only
      have hmem : ∀ a, a ∈ v.intervals.insertMultiple w.intervals ↔ a ∈ v ∨ a ∈ w :=
        fun a => IntervalSet.mem_insertMultiple
      have hle : ∀ a ∈ v.intervals.insertMultiple w.intervals, a ≤ genMask v.nBits :=
        fun a ha => le_genMask_of_mem_or hn ((hmem a).mp ha)
      obtain ⟨b, hb⟩ := v.exists_mem
      have hne : (v.intervals.insertMultiple w.intervals).isEmpty = false :=
        IntervalSet.isEmpty_eq_false ((hmem b).mpr (.inl hb))
      split
      next heq =>
        rw [IntervalSet.intervals_eq_iff] at heq
        refine ⟨none, rfl, fun m hm => (by cases hm), iff_of_true rfl (.inr ⟨rfl, ?_⟩)⟩
        exact fun a ha => (heq a).mp ((hmem a).mpr (.inl ha))
      next hchange =>
        have hnot : ¬∀ a ∈ v, a ∈ w := by
          intro hsub
          refine hchange (IntervalSet.intervals_eq_iff.mpr fun a => ?_)
          rw [hmem]
          exact ⟨fun h => h.elim (hsub a) id, .inr⟩
        have hnone : ¬(false = true ∨ false = false ∧ ∀ a ∈ v, a ∈ w) := by
          intro h
          rcases h with h | h
          · exact Bool.false_ne_true h
          · exact hnot h.2
        split
        next =>
          obtain ⟨m, hm, hin⟩ := instanceHull_spec (n := v.nBits)
            (IntervalSet.least_le (IntervalSet.greatest_mem hne))
            (hle _ (IntervalSet.greatest_mem hne))
          refine ⟨some m, by rw [hm]; rfl, fun m' hm' a ha => ?_, iff_of_false nofun hnone⟩
          have ha := (hmem a).mpr ha
          rw [← Option.some.inj hm', hin]
          exact ⟨IntervalSet.least_le ha, IntervalSet.le_greatest ha⟩
        next =>
          obtain ⟨m, hm, -, -, hin⟩ := instanceIntervals_spec ⟨b, (hmem b).mpr (.inl hb)⟩ hle
          refine ⟨some m, by rw [hm]; rfl, fun m' hm' a ha => ?_, iff_of_false nofun hnone⟩
          rw [← Option.some.inj hm', hin, hmem]
          exact ha

/-- Merging loses no number, and comparison is for a common number. -/
structure SoundJoin (v w : SValue) : Prop where
  merge : ∃ r, v.createOptionalMerge w = some r ∧
    (∀ m, r = some m → ∀ a, a ∈ v ∨ a ∈ w → a ∈ m) ∧ (r = none → ∀ a ∈ w, a ∈ v)
  may : (∃ a, a ∈ v ∧ a ∈ w) → v.mayEqual w = true
  symm : v.mayEqual w = w.mayEqual v
  must : v.mustEqual w = true → ∃ x, (∀ a, a ∈ v ↔ a = x) ∧ ∀ a, a ∈ w ↔ a = x

/-- The values are sound exactly where they have the same numbers or none in common; a bottom
value into which another is merged has to hold its numbers. -/
theorem soundJoin_iff (hn : v.nBits = w.nBits) :
    SoundJoin v w ↔
      (v.isBottom = true → ∀ a ∈ w, a ∈ v) ∧
        (v.isBottom = false → w.isBottom = false →
          (∀ a, a ∈ v ↔ a ∈ w) ∨ ∀ a ∈ v, a ∉ w) := by
  obtain ⟨r, hr, hcover, hnone⟩ := createOptionalMerge_spec hn
  constructor
  · intro h
    obtain ⟨r', hr', -, hlost⟩ := h.merge
    have heq : r = r' := Option.some.inj (hr.symm.trans hr')
    subst heq
    refine ⟨fun hv => hlost (hnone.mpr (.inl hv)), fun hv hw => ?_⟩
    have hmay := mayEqual_iff hn hv hw
    have hmay' := mayEqual_iff hn.symm hw hv
    by_cases hcommon : ∃ a, a ∈ v ∧ a ∈ w
    · have hsub := hmay.mp (h.may hcommon)
      have hsub' := hmay'.mp (h.symm ▸ h.may hcommon)
      exact .inl fun a => ⟨hsub' a, hsub a⟩
    · exact .inr fun a ha ha' => hcommon ⟨a, ha, ha'⟩
  · intro ⟨hbottom, hrest⟩
    by_cases hb : v.isBottom = true ∨ w.isBottom = true
    · refine ⟨⟨r, hr, hcover, fun hrn => ?_⟩, fun _ => mayEqual_of_isBottom hn hb, ?_,
        single_of_mustEqual⟩
      · rcases hnone.mp hrn with hv | ⟨hw, -⟩
        · exact hbottom hv
        · exact hbottom (hb.resolve_right (by rw [hw]; exact Bool.false_ne_true))
      · rw [mayEqual_of_isBottom hn hb, mayEqual_of_isBottom hn.symm hb.symm]
    · rw [not_or, Bool.not_eq_true, Bool.not_eq_true] at hb
      obtain ⟨hv, hw⟩ := hb
      have hmay := mayEqual_iff hn hv hw
      have hmay' := mayEqual_iff hn.symm hw hv
      rcases hrest hv hw with hsame | hdisjoint
      · have htrue := hmay.mpr fun a => (hsame a).mpr
        have htrue' := hmay'.mpr fun a => (hsame a).mp
        exact ⟨⟨r, hr, hcover, fun _ a => (hsame a).mpr⟩, fun _ => htrue, htrue.trans htrue'.symm,
          single_of_mustEqual⟩
      · obtain ⟨a, ha⟩ := v.exists_mem
        obtain ⟨b, hb⟩ := w.exists_mem
        refine ⟨⟨r, hr, hcover, fun hrn => ?_⟩, fun ⟨c, hc, hc'⟩ => absurd hc' (hdisjoint c hc), ?_,
          single_of_mustEqual⟩
        · rcases hnone.mp hrn with hbot | ⟨-, hsub⟩
          · rw [hv] at hbot
            exact absurd hbot Bool.false_ne_true
          · exact absurd (hsub a ha) (hdisjoint a ha)
        · have hfalse := Bool.eq_false_iff.mpr fun h => hdisjoint b (hmay.mp h b hb) hb
          have hfalse' := Bool.eq_false_iff.mpr fun h => hdisjoint a ha (hmay'.mp h a ha)
          exact hfalse.trans hfalse'.symm

theorem soundJoin_iff_numbers : SoundJoin (number 8 1) (number 8 2) := by
  have hn : (number 8 1).nBits = (number 8 2).nBits := rfl
  refine (soundJoin_iff hn).mpr ⟨fun hb => absurd hb Bool.false_ne_true, fun _ _ => .inr ?_⟩
  intro a ha ha'
  have hone : a = 1 := mem_number.mp ha
  have htwo : a = 2 := mem_number.mp ha'
  omega

/-- Every number merged into one is no change. -/
theorem merge_loses_numbers :
    ¬∀ v w : SValue, v.nBits = w.nBits → SoundJoin v w := by
  intro h
  obtain ⟨r, hr, -, hlost⟩ := (h (number 8 1) (instanceUndefined 8) rfl).merge
  have hnone : (number 8 1).createOptionalMerge (instanceUndefined 8) = some none := rfl
  rw [hnone] at hr
  have hzero := hlost (Option.some.inj hr).symm 0 (mem_undefined.mpr (Nat.zero_le _))
  have hone : 0 = 1 := mem_number.mp hzero
  omega

end SValue

end LoomX.IntervalSemantics
