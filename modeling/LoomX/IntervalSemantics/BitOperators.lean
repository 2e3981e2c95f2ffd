import LoomX.IntervalSemantics.ShiftAmounts

namespace LoomX.IntervalSemantics

open IntegerOps

variable {a b : SValue} {x y : Nat} {f : Nat → Nat → Nat}

theorem shiftLeft_sound (hn : a.nBits ≤ 64) (ha : a.isBottom = false) (hb : b.isBottom = false) :
    ∀ x ∈ a, ∀ y ∈ b,
      SValue.Contains (shiftLeft a b) a.nBits (BitVec.ofNat a.nBits x <<< y).toNat := by
  have hshift : ∀ x y, (BitVec.ofNat a.nBits x <<< y).toNat = x <<< y % 2 ^ a.nBits := by
    intro x y
    rw [BitVec.toNat_shiftLeft, BitVec.toNat_ofNat, Nat.shiftLeft_eq, Nat.shiftLeft_eq,
      Nat.mod_mul_mod]
  rw [shiftLeft]
  by_cases hconst : a.toUnsigned = none ∨ b.toUnsigned = none
  · refine (byAmount_sound_iff (copiesBits_shiftLeft a.nBits) (fun x y => BitVec.isLt _) hn ha hb hconst
      fun v _ i hi _ => ?_).mpr fun x hx y hy hyn => ?_
    · rw [shl_eq (by omega), Option.map_some, hshift, and_genMask hn, u64_mod hn]
    · obtain ⟨bits, -, -, hreach⟩ := overAmounts_reached (b := b) (fun i => some _)
        (copiesBits_shiftLeft a.nBits) (fun x y => BitVec.isLt _) hn fun i _ _ => rfl
      refine ⟨bits, hreach, .inl fun k hk => ?_⟩
      dsimp only at hk
      rw [BitVec.shiftLeft_eq_zero hyn] at hk
      simp at hk
  · obtain ⟨x, y, hx, hy⟩ := constants_of_not hconst
    refine (byAmount_constant hn ha hb hx hy).mpr ?_
    split
    next hyn => exact ⟨_, shl_eq (by omega), by rw [hshift, u64_mod hn]⟩
    next hyn =>
      refine ⟨0, rfl, ?_⟩
      rw [BitVec.shiftLeft_eq_zero (by omega)]
      simp

/-- Constants are shifted by less than 64, and past the width only where they are not negative. -/
structure ArithmeticShiftHolds (a b : SValue) : Prop where
  constants : ∀ x y, a.toUnsigned = some x → b.toUnsigned = some y →
    0 < a.nBits ∧ y < 64 ∧ (y ≤ a.nBits ∨ x.testBit (a.nBits - 1) = false)
  amounts : a.toUnsigned = none ∨ b.toUnsigned = none →
    AmountsCovered (fun x y => ((BitVec.ofNat a.nBits x).sshiftRight y).toNat) a b

theorem shiftRightArithmetic_sound_iff (hn : a.nBits ≤ 64) (ha : a.isBottom = false)
    (hb : b.isBottom = false) :
    (∀ x ∈ a, ∀ y ∈ b, SValue.Contains (shiftRightArithmetic a b) a.nBits
      ((BitVec.ofNat a.nBits x).sshiftRight y).toNat) ↔ ArithmeticShiftHolds a b := by
  rw [shiftRightArithmetic]
  by_cases hconst : a.toUnsigned = none ∨ b.toUnsigned = none
  · refine (byAmount_sound_iff (copiesBits_sshiftRight a.nBits) (fun x y => BitVec.isLt _) hn ha hb
      hconst fun v hv i hi _ => ?_).trans
      ⟨fun h => ⟨fun x y hx hy => by simp [hx, hy] at hconst, fun _ => h⟩, fun h => h.amounts hconst⟩
    obtain ⟨fill, hfill, hlt, -⟩ := signFill_eq (x := v) (y := i) hn (by omega) (by omega)
    have hlow : ∀ k, ((v >>> i) &&& genMask (a.nBits - i)).testBit k = v.testBit (i + k) := by
      intro k
      rw [testBit_and_genMask (by omega), Nat.testBit_shiftRight]
      by_cases hk : k < a.nBits - i
      · rw [decide_eq_true hk, Bool.true_and]
      · rw [testBit_of_ge hv (by omega), Bool.and_false]
    have hmod := or_signFill_mod hn (by omega) hv (by omega) hfill (fun k _ => hlow k) (.inl hi.le)
    have hlowLt : (v >>> i) &&& genMask (a.nBits - i) < 2 ^ a.nBits :=
      Nat.and_lt_two_pow _ ((IntegerOps.le_genMask hn).mp (genMask_mono (Nat.sub_le _ _)))
    rw [Nat.mod_eq_of_lt (Nat.or_lt_two_pow hlowLt (hlt hi.le))] at hmod
    rw [shr_eq (by omega), hfill, u64Sub_of_le (by omega) hi.le]
    simp only [Option.bind_eq_bind, Option.bind_some, hmod]
  · obtain ⟨x, y, hx, hy⟩ := constants_of_not hconst
    have hxn := toUnsigned_lt hn hx
    rw [byAmount_constant hn ha hb hx hy]
    constructor
    · rintro ⟨r, hr, hmod⟩
      obtain ⟨result, hresult, hr⟩ := Option.bind_eq_some_iff.mp hr
      obtain ⟨fill, hfill, hr⟩ := Option.bind_eq_some_iff.mp hr
      obtain rfl := Option.some.inj hr
      have hy64 : y < 64 := by
        by_contra hge
        rw [shr, if_neg hge] at hresult
        cases hresult
      have hpos : 0 < a.nBits := by
        by_contra hzero
        rw [signFill, signBit2, if_neg (by omega)] at hfill
        cases hfill
      rw [shr_eq hy64] at hresult
      obtain rfl := Option.some.inj hresult
      refine ⟨fun x' y' hx' hy' => ?_, fun hnone => absurd hnone hconst⟩
      obtain rfl := Option.some.inj (hx.symm.trans hx')
      obtain rfl := Option.some.inj (hy.symm.trans hy')
      refine ⟨hpos, hy64, ?_⟩
      by_contra hnot
      rw [not_or, not_le, Bool.not_eq_false] at hnot
      obtain ⟨fill', hfill', -, hbits⟩ := signFill_eq (x := x) (y := y) hn hpos hy64
      obtain rfl := Option.some.inj (hfill.symm.trans hfill')
      have hzero := congrArg (Nat.testBit · 0) hmod
      rw [Nat.testBit_mod_two_pow, Nat.testBit_or, hbits 0 hpos, Nat.testBit_shiftRight,
        testBit_of_ge hxn (by omega), testBit_sshiftRight hxn hpos, hnot.2,
        decide_eq_true hpos, decide_eq_true (by omega : a.nBits ≤ y + 0),
        decide_eq_false (by omega : ¬(a.nBits ≤ 0 + y ∧ y ≤ a.nBits))] at hzero
      simp at hzero
    · intro h
      obtain ⟨hpos, hy64, hsign⟩ := h.constants x y hx hy
      obtain ⟨fill, hfill, -⟩ := signFill_eq (x := x) (y := y) hn hpos hy64
      refine ⟨x >>> y ||| fill, ?_, or_signFill_mod hn hpos hxn hy64 hfill
        (fun k _ => Nat.testBit_shiftRight x) hsign⟩
      rw [shr_eq hy64, hfill]
      rfl

/-- Rotations are by constants up to the width or by covered amounts, and shift by less than 64. -/
structure RotateHolds (f : Nat → Nat → Nat) (a b : SValue) : Prop where
  constants : ∀ x y, a.toUnsigned = some x → b.toUnsigned = some y →
    y ≤ a.nBits ∧ y < 64 ∧ a.nBits - y < 64
  defined : a.toUnsigned = none ∨ b.toUnsigned = none → 64 ≤ a.nBits → 0 ∉ b
  amounts : a.toUnsigned = none ∨ b.toUnsigned = none → AmountsCovered f a b

theorem rotate_sound_iff {op : Nat → Nat → Option Nat} (hf : CopiesBits f)
    (hlt : ∀ x y, f x y < 2 ^ a.nBits) (hn : a.nBits ≤ 64) (ha : a.isBottom = false)
    (hb : b.isBottom = false)
    (hop : ∀ x y, op x y = if y ≤ a.nBits ∧ y < 64 ∧ a.nBits - y < 64 then some (f x y) else none) :
    (∀ x ∈ a, ∀ y ∈ b, SValue.Contains (byAmount op op a b) a.nBits (f x y)) ↔
      RotateHolds f a b := by
  by_cases hconst : a.toUnsigned = none ∨ b.toUnsigned = none
  · by_cases hzero : 64 ≤ a.nBits ∧ 0 ∈ b
    · refine ⟨fun h => ?_, fun h => absurd hzero.2 (h.defined hconst hzero.1)⟩
      obtain ⟨x, hx⟩ := a.exists_mem
      obtain ⟨w, hw, -⟩ := h x hx 0 hzero.2
      rw [byAmount_bits ha hb hconst, overAmounts_eq_none hn (by omega) hzero.2
        (by rw [hop, if_neg (by omega)])] at hw
      cases hw
    · refine (byAmount_sound_iff hf hlt hn ha hb hconst fun v _ i hi hin => ?_).trans
        ⟨fun h => ⟨fun x y hx hy => by simp [hx, hy] at hconst,
          fun _ hwide hin => hzero ⟨hwide, hin⟩, fun _ => h⟩, fun h => h.amounts hconst⟩
      have hpos : 64 ≤ a.nBits → i ≠ 0 := by
        rintro hwide rfl
        exact hzero ⟨hwide, hin⟩
      rw [hop, if_pos (by omega)]
  · obtain ⟨x, y, hx, hy⟩ := constants_of_not hconst
    rw [byAmount_constant hn ha hb hx hy]
    constructor
    · rintro ⟨r, hr, -⟩
      rw [hop] at hr
      split at hr
      next hle =>
        refine ⟨fun x' y' hx' hy' => ?_, fun h => absurd h hconst, fun h => absurd h hconst⟩
        obtain rfl := Option.some.inj (hy.symm.trans hy')
        exact hle
      next => cases hr
    · intro h
      exact ⟨f x y, by rw [hop, if_pos (h.constants x y hx hy)], Nat.mod_eq_of_lt (hlt x y)⟩

theorem rotateLeft_sound_iff (hn : a.nBits ≤ 64) (ha : a.isBottom = false) (hb : b.isBottom = false) :
    (∀ x ∈ a, ∀ y ∈ b, SValue.Contains (rotateLeft a b) a.nBits
      ((BitVec.ofNat a.nBits x).rotateLeft y).toNat) ↔
      RotateHolds (fun x y => ((BitVec.ofNat a.nBits x).rotateLeft y).toNat) a b :=
  rotate_sound_iff (copiesBits_rotateLeft a.nBits) (fun _ _ => BitVec.isLt _) hn ha hb
    fun _ _ => rotateLeftBits_eq hn

theorem rotateRight_sound_iff (hn : a.nBits ≤ 64) (ha : a.isBottom = false)
    (hb : b.isBottom = false) :
    (∀ x ∈ a, ∀ y ∈ b, SValue.Contains (rotateRight a b) a.nBits
      ((BitVec.ofNat a.nBits x).rotateRight y).toNat) ↔
      RotateHolds (fun x y => ((BitVec.ofNat a.nBits x).rotateRight y).toNat) a b :=
  rotate_sound_iff (copiesBits_rotateRight a.nBits) (fun _ _ => BitVec.isLt _) hn ha hb
    fun _ _ => rotateRightBits_eq hn

theorem shiftRight_le {z : Nat} (h : x ≤ y) : x >>> z ≤ y >>> z := by
  rw [Nat.shiftRight_eq_div_pow, Nat.shiftRight_eq_div_pow]
  exact Nat.div_le_div_right h

/-- An interval of a value, shifted. -/
theorem shiftInterval_eq {i : Interval} (hi : i.lo ≤ i.hi) (hy : y < 64) (s : IntervalSet) :
    ∃ t, (do
      let lo ← shr i.lo y
      let hi ← shr i.hi y
      some (s.insertHull lo hi)) = some t ∧ ∀ v, v ∈ t ↔ v ∈ s ∨ i.lo >>> y ≤ v ∧ v ≤ i.hi >>> y := by
  have hle : i.lo >>> y ≤ i.hi >>> y := shiftRight_le hi
  rw [shr_eq hy, shr_eq hy]
  refine ⟨_, rfl, fun v => ?_⟩
  rw [IntervalSet.mem_insertHull, Interval.mem_hull hle, or_comm]

theorem toNat_ushiftRight_of_mem (hn : a.nBits ≤ 64) (hx : x ∈ a) :
    (BitVec.ofNat a.nBits x >>> y).toNat = x >>> y := by
  rw [BitVec.toNat_ushiftRight, BitVec.toNat_ofNat, Nat.mod_eq_of_lt (SValue.lt_two_pow hn hx)]

theorem shiftRight_lt (hn : a.nBits ≤ 64) (hx : x ∈ a) : x >>> y < 2 ^ a.nBits :=
  (Nat.shiftRight_le x y).trans_lt (SValue.lt_two_pow hn hx)

theorem shiftRight_out (hn : a.nBits ≤ 64) (hx : x ∈ a) (hy : a.nBits ≤ y) : x >>> y = 0 :=
  Nat.shiftRight_eq_zero x y ((SValue.lt_two_pow hn hx).trans_le
    (Nat.pow_le_pow_right (by omega) hy))

theorem hi_mem {i : Interval} (hi : i ∈ a.intervals.intervals) : i.hi ∈ a :=
  ⟨i, hi, a.intervals.nonempty i hi, le_rfl⟩

theorem shiftRight_constant (hn : a.nBits ≤ 64) (ha : a.isBottom = false) (hb : b.isBottom = false)
    (hconst : b.toUnsigned = some y) (hx : x ∈ a) :
    SValue.Contains (shiftRight a b) a.nBits (x >>> y) := by
  rw [shiftRight, if_neg (by simp [ha, hb]), hconst]
  dsimp only
  split
  next hyn => rw [contains_number hn, Nat.zero_mod, shiftRight_out hn hx hyn]
  next hyn =>
    cases hconst' : a.toUnsigned with
    | some aNum =>
      obtain rfl := (SValue.toUnsigned_mem hconst' x).mp hx
      dsimp only
      rw [shr_eq (by omega), Option.map_some, contains_number hn, Nat.mod_eq_of_lt (shiftRight_lt hn hx)]
    | none =>
      obtain ⟨t, ht, hmem⟩ := IntervalSet.mem_foldlM (s := .empty) (l := a.intervals.intervals)
        fun s i hi => shiftInterval_eq (a.intervals.nonempty i hi) (by omega : y < 64) s
      dsimp only
      rw [ht]
      refine SValue.contains_intervals.mpr ⟨?_, fun v hv => ?_⟩
      · obtain ⟨i, hi, hlo, hhi⟩ := hx
        exact (hmem _).mpr (.inr ⟨i, hi, shiftRight_le hlo, shiftRight_le hhi⟩)
      · obtain ⟨i, hi, -, hle⟩ := ((hmem v).mp hv).resolve_left IntervalSet.not_mem_empty
        rw [IntegerOps.le_genMask hn]
        exact hle.trans_lt (shiftRight_lt hn (hi_mem hi))

/-- The numbers that an amount which is not known gives are those between shifted ends. -/
theorem shiftRight_unknown (hn : a.nBits ≤ 64) (ha : a.isBottom = false) (hb : b.isBottom = false)
    (hconst : b.toUnsigned = none) {v : Nat} :
    SValue.Contains (shiftRight a b) a.nBits v ↔ ∃ i ∈ a.intervals.intervals, ∃ j ∈ b, j < a.nBits ∧
      i.lo >>> j ≤ v ∧ v ≤ i.hi >>> j := by
  obtain ⟨t, ht, hmem⟩ := IntervalSet.mem_foldlM_foldlM (s := .empty) (l := a.intervals.intervals)
    (m := List.range a.nBits) (P := fun i j v => j ∈ b ∧ i.lo >>> j ≤ v ∧ v ≤ i.hi >>> j)
    (f := fun s i j => if j ∈ b.intervals then do
      let lo ← shr i.lo j
      let hi ← shr i.hi j
      some (s.insertHull lo hi)
    else some s) fun s i hi j hj => by
      have hjn := List.mem_range.mp hj
      split
      next hin =>
        obtain ⟨t, ht, hmem⟩ := shiftInterval_eq (a.intervals.nonempty i hi) (by omega : j < 64) s
        refine ⟨t, ht, fun v => (hmem v).trans (or_congr_right ⟨fun h => ⟨hin, h⟩, fun h => h.2⟩)⟩
      next hout => exact ⟨s, rfl, fun v => (or_iff_left fun h => hout h.1).symm⟩
  rw [shiftRight, if_neg (by simp [ha, hb]), hconst]
  dsimp only
  rw [ht]
  simp only [Option.bind_eq_bind, Option.bind_some, SValue.contains_intervals]
  have hexact : ∀ v, v ∈ t ↔ ∃ i ∈ a.intervals.intervals, ∃ j ∈ b, j < a.nBits ∧
      i.lo >>> j ≤ v ∧ v ≤ i.hi >>> j := by
    intro v
    rw [hmem, or_iff_right IntervalSet.not_mem_empty]
    constructor
    · rintro ⟨i, hi, j, hj, hin, hv⟩
      exact ⟨i, hi, j, hin, List.mem_range.mp hj, hv⟩
    · rintro ⟨i, hi, j, hin, hj, hv⟩
      exact ⟨i, hi, j, List.mem_range.mpr hj, hin, hv⟩
  rw [hexact]
  refine and_iff_left fun v hv => ?_
  obtain ⟨i, hi, j, -, -, -, hle⟩ := (hexact v).mp hv
  rw [IntegerOps.le_genMask hn]
  exact hle.trans_lt (shiftRight_lt hn (hi_mem hi))

/-- A shift by an amount that is not known is sound where the amounts are below the width, or one of
them shifts some member to 0. -/
theorem shiftRight_sound_iff (hn : a.nBits ≤ 64) (ha : a.isBottom = false) (hb : b.isBottom = false) :
    (∀ x ∈ a, ∀ y ∈ b, SValue.Contains (shiftRight a b) a.nBits
      (BitVec.ofNat a.nBits x >>> y).toNat) ↔
      (b.toUnsigned = none → (∀ y ∈ b, y < a.nBits) ∨
        ∃ x ∈ a, ∃ y ∈ b, y < a.nBits ∧ x >>> y = 0) := by
  cases hconst : b.toUnsigned with
  | some bNum =>
    refine ⟨fun _ h => (by cases h), fun _ x hx y hy => ?_⟩
    obtain rfl := (SValue.toUnsigned_mem hconst y).mp hy
    rw [toNat_ushiftRight_of_mem hn hx]
    exact shiftRight_constant hn ha hb hconst hx
  | none =>
    have hreach : ∀ x ∈ a, ∀ y ∈ b, y < a.nBits →
        SValue.Contains (shiftRight a b) a.nBits (x >>> y) := by
      rintro x ⟨i, hi, hlo, hhi⟩ y hy hyn
      exact (shiftRight_unknown hn ha hb hconst).mpr
        ⟨i, hi, y, hy, hyn, shiftRight_le hlo, shiftRight_le hhi⟩
    constructor
    · intro h _
      by_cases hall : ∀ y ∈ b, y < a.nBits
      · exact .inl hall
      · push Not at hall
        obtain ⟨y, hy, hyn⟩ := hall
        obtain ⟨x, hx⟩ := a.exists_mem
        have hzero := h x hx y hy
        rw [toNat_ushiftRight_of_mem hn hx, shiftRight_out hn hx hyn,
          shiftRight_unknown hn ha hb hconst] at hzero
        obtain ⟨i, hi, j, hj, hjn, hlo, -⟩ := hzero
        exact .inr ⟨i.lo, ⟨i, hi, le_rfl, a.intervals.nonempty i hi⟩, j, hj, hjn,
          Nat.le_zero.mp hlo⟩
    · intro h x hx y hy
      rw [toNat_ushiftRight_of_mem hn hx]
      rcases Nat.lt_or_ge y a.nBits with hyn | hyn
      · exact hreach x hx y hy hyn
      · rw [shiftRight_out hn hx hyn]
        rcases h rfl with hall | ⟨x', hx', y', hy', hyn', hzero⟩
        · have hlt := hall y hy
          omega
        · rw [← hzero]
          exact hreach x' hx' y' hy' hyn'

/-- The results of bitwise operators, of tests and choices, and of shifts hold the members' results. -/
structure BitOperatorsSound (a b c s : SValue) : Prop where
  and_ : ∀ x ∈ a, ∀ y ∈ b, SValue.Contains (and_ a b) a.nBits (x &&& y)
  or_ : ∀ x ∈ a, ∀ y ∈ b, SValue.Contains (or_ a b) a.nBits (x ||| y)
  xor_ : ∀ x ∈ a, ∀ y ∈ b, SValue.Contains (xor_ a b) a.nBits (x ^^^ y)
  leastSignificantSetBit : ∀ x ∈ a, ∀ k, LowestBit x k →
    SValue.Contains (leastSignificantSetBit a) a.nBits k
  mostSignificantSetBit : ∀ x ∈ a, ∀ k, HighestBit x k →
    SValue.Contains (mostSignificantSetBit a) a.nBits k
  equalToZero : ∀ x ∈ a, SValue.Contains (equalToZero a) 1 (decide (x = 0)).toNat
  iteWithStatus : ∀ z ∈ c, ∀ x ∈ a, ∀ y ∈ b,
    SValue.Contains ((iteWithStatus c a b).map Prod.fst) a.nBits (if z ≠ 0 then x else y)
  shiftLeft : ∀ x ∈ a, ∀ y ∈ s,
    SValue.Contains (shiftLeft a s) a.nBits (BitVec.ofNat a.nBits x <<< y).toNat
  shiftRight : ∀ x ∈ a, ∀ y ∈ s,
    SValue.Contains (shiftRight a s) a.nBits (BitVec.ofNat a.nBits x >>> y).toNat
  shiftRightArithmetic : ∀ x ∈ a, ∀ y ∈ s,
    SValue.Contains (shiftRightArithmetic a s) a.nBits ((BitVec.ofNat a.nBits x).sshiftRight y).toNat
  rotateLeft : ∀ x ∈ a, ∀ y ∈ s,
    SValue.Contains (rotateLeft a s) a.nBits ((BitVec.ofNat a.nBits x).rotateLeft y).toNat
  rotateRight : ∀ x ∈ a, ∀ y ∈ s,
    SValue.Contains (rotateRight a s) a.nBits ((BitVec.ofNat a.nBits x).rotateRight y).toNat

/-- The members have no common bit, a constant that is not 0 has its top bit, and shifts meet their
conditions on the amounts. -/
structure BitOperatorsHold (a b s : SValue) : Prop where
  and_ : ∀ x ∈ a, ∀ y ∈ b, x &&& y = 0
  mostSignificantSetBit : ∀ x, a.toUnsigned = some x → x ≠ 0 → x.testBit (a.nBits - 1) = true
  shiftRight : s.toUnsigned = none → (∀ y ∈ s, y < a.nBits) ∨
    ∃ x ∈ a, ∃ y ∈ s, y < a.nBits ∧ x >>> y = 0
  shiftRightArithmetic : ArithmeticShiftHolds a s
  rotateLeft : RotateHolds (fun x y => ((BitVec.ofNat a.nBits x).rotateLeft y).toNat) a s
  rotateRight : RotateHolds (fun x y => ((BitVec.ofNat a.nBits x).rotateRight y).toNat) a s

theorem bitOperatorsSound_iff (a b c s : SValue) (hab : a.nBits = b.nBits) (hc : c.nBits = 1)
    (hn : a.nBits ≤ 64) (ha : a.isBottom = false) (hb : b.isBottom = false)
    (hcb : c.isBottom = false) (hs : s.isBottom = false) :
    BitOperatorsSound a b c s ↔ BitOperatorsHold a b s := by
  constructor
  · intro h
    exact ⟨(and_sound_iff hab hn ha hb).mp h.and_,
      (mostSignificantSetBit_sound_iff hn ha).mp h.mostSignificantSetBit,
      (shiftRight_sound_iff hn ha hs).mp h.shiftRight,
      (shiftRightArithmetic_sound_iff hn ha hs).mp h.shiftRightArithmetic,
      (rotateLeft_sound_iff hn ha hs).mp h.rotateLeft,
      (rotateRight_sound_iff hn ha hs).mp h.rotateRight⟩
  · intro h
    exact
      { and_ := (and_sound_iff hab hn ha hb).mpr h.and_
        or_ := fun _ hx _ hy => or_sound hab hn ha hb hx hy
        xor_ := fun _ hx _ hy => xor_sound hab hn ha hb hx hy
        leastSignificantSetBit := fun _ hx _ hk => leastSignificantSetBit_sound hn ha hx hk
        mostSignificantSetBit :=
          (mostSignificantSetBit_sound_iff hn ha).mpr h.mostSignificantSetBit
        equalToZero := fun _ hx => equalToZero_sound ha hx
        iteWithStatus := fun _ hz _ hx _ hy => iteWithStatus_sound hc hab hn hcb ha hb hz hx hy
        shiftLeft := shiftLeft_sound hn ha hs
        shiftRight := (shiftRight_sound_iff hn ha hs).mpr h.shiftRight
        shiftRightArithmetic := (shiftRightArithmetic_sound_iff hn ha hs).mpr h.shiftRightArithmetic
        rotateLeft := (rotateLeft_sound_iff hn ha hs).mpr h.rotateLeft
        rotateRight := (rotateRight_sound_iff hn ha hs).mpr h.rotateRight }

theorem RotateHolds.of_constants {m : Nat} (hx : a.toUnsigned = some x) (hy : b.toUnsigned = some m)
    (hle : m ≤ a.nBits ∧ m < 64 ∧ a.nBits - m < 64) : RotateHolds f a b where
  constants _ _ _ hy' := Option.some.inj (hy.symm.trans hy') ▸ hle
  defined h := by simp [hx, hy] at h
  amounts h := by simp [hx, hy] at h

/-- The top bit and two low bits, and a shift by one. -/
theorem bitOperatorsSound_topBit :
    BitOperatorsSound (.number 4 8) (.number 4 3) (.number 1 1) (.number 4 1) := by
  have hx : (SValue.number 4 8).toUnsigned = some 8 := by decide
  have hy : (SValue.number 4 3).toUnsigned = some 3 := by decide
  have hs : (SValue.number 4 1).toUnsigned = some 1 := by decide
  refine (bitOperatorsSound_iff (.number 4 8) (.number 4 3) (.number 1 1) (.number 4 1) rfl rfl
    (by decide) rfl rfl rfl rfl).mpr
    ⟨fun x hx' y hy' => ?_, fun x hx' _ => ?_, fun h => ?_, ⟨fun x y _ hs' => ?_, fun h => ?_⟩,
      .of_constants hx hs (by decide), .of_constants hx hs (by decide)⟩
  · rw [(SValue.toUnsigned_mem hx x).mp hx', (SValue.toUnsigned_mem hy y).mp hy']
    rfl
  · rw [← Option.some.inj (hx.symm.trans hx')]
    rfl
  · simp [hs] at h
  · rw [← Option.some.inj (hs.symm.trans hs')]
    exact ⟨by decide, by decide, .inl (by decide)⟩
  · simp [hx, hs] at h

/-- The conjunction of a number with itself is lost. -/
theorem and_losesBits : ¬BitOperatorsSound (.number 4 5) (.number 4 5) (.number 1 1) (.number 4 1) := by
  intro h
  have hin := h.and_ 5 (by decide) 5 (by decide)
  rw [and_eq rfl (by decide) rfl rfl] at hin
  cases hin

end LoomX.IntervalSemantics
