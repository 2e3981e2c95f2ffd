import LoomX.IntervalSemantics.Extension

namespace LoomX.IntervalSemantics

open IntegerOps

def multiplyIntervals (result : IntervalSet) (av bv : Interval) : Option IntervalSet :=
  let lo := u64 (av.lo * bv.lo)
  let hi := u64 (av.hi * bv.hi)
  if hi < lo then none else some (result.insertHull lo hi)

def unsignedMultiply (a b : SValue) : Option SValue :=
  if a.isBottom || b.isBottom then some (.instanceBottom (a.nBits + b.nBits))
  else do
    let result ← a.intervals.intervals.foldlM (fun result av =>
      b.intervals.intervals.foldlM (fun result bv => multiplyIntervals result av bv) result) .empty
    SValue.instanceIntervals (a.nBits + b.nBits) result

def divideIntervals (nBitsA : Nat) (result : IntervalSet) (av bv : Interval) : Option IntervalSet :=
  let lo := av.lo / max bv.hi 1
  let hi := av.hi / max bv.lo 1
  if genMask nBitsA < lo then none
  else if genMask nBitsA < hi then none
  else if hi < lo then none
  else some (result.insertHull lo hi)

def unsignedDivide (a b : SValue) : Option SValue :=
  if a.isBottom || b.isBottom then some (.instanceBottom a.nBits)
  else do
    let result ← a.intervals.intervals.foldlM (fun result av =>
      b.intervals.intervals.foldlM (fun result bv => divideIntervals a.nBits result av bv) result)
      .empty
    SValue.instanceIntervals a.nBits result

def unsignedModulo (a b : SValue) : Option SValue :=
  if a.isBottom || b.isBottom then some (.instanceBottom b.nBits)
  else match b.toUnsigned with
    | some bNum =>
      let limit := genMask a.nBits
      match (List.range b.nBits).find? fun i => bNum = shl1 i with
      | some i => SValue.instanceIntervals b.nBits (a.intervals.eraseHull (shl1 i) limit)
      | none => some (.instanceUndefined b.nBits)
    | none => some (.instanceUndefined b.nBits)

/-- A signed operator is the unsigned one where no member is negative, and else knows nothing. -/
def signedOperator (width : Nat) (unsigned : SValue → SValue → Option SValue) (a b : SValue) :
    Option SValue :=
  if a.isBottom || b.isBottom then some (.instanceBottom width)
  else do
    if ← signBit2 a.possibleBits a.nBits then some (.instanceUndefined width)
    else if ← signBit2 b.possibleBits b.nBits then some (.instanceUndefined width)
    else unsigned a b

def signedDivide (a b : SValue) : Option SValue := signedOperator a.nBits unsignedDivide a b

def signedModulo (a b : SValue) : Option SValue := signedOperator b.nBits unsignedModulo a b

def signedMultiply (a b : SValue) : Option SValue :=
  signedOperator (a.nBits + b.nBits) unsignedMultiply a b

/-- An operation on the signed values of two numbers of some widths. -/
def signedResult (op : Int → Int → Int) (width n m x y : Nat) : Nat :=
  (BitVec.ofInt width (op (BitVec.ofNat n x).toInt (BitVec.ofNat m y).toInt)).toNat

variable {a b : SValue} {n x y : Nat}

theorem unsignedMultiply_sound (hab : a.nBits + b.nBits ≤ 64) (ha : a.isBottom = false)
    (hb : b.isBottom = false) (hx : x ∈ a) (hy : y ∈ b) :
    SValue.Contains (unsignedMultiply a b) (a.nBits + b.nBits) (x * y) := by
  have hlt : ∀ v w, v < 2 ^ a.nBits → w < 2 ^ b.nBits → v * w < 2 ^ (a.nBits + b.nBits) := by
    intro v w hv hw
    rw [pow_add]
    exact Nat.mul_lt_mul_of_lt_of_lt hv hw
  have hpow : 2 ^ (a.nBits + b.nBits) ≤ 2 ^ 64 := Nat.pow_le_pow_right (by omega) hab
  obtain ⟨t, ht, hmem⟩ := IntervalSet.mem_foldlM_foldlM (s := .empty) (l := a.intervals.intervals)
    (m := b.intervals.intervals) (P := fun i j v => i.lo * j.lo ≤ v ∧ v ≤ i.hi * j.hi)
    (f := multiplyIntervals) fun s i hi j hj => by
      obtain ⟨hile, hilt⟩ := interval_lt (by omega) hi
      obtain ⟨hjle, hjlt⟩ := interval_lt (by omega) hj
      have hle : i.lo * j.lo ≤ i.hi * j.hi := Nat.mul_le_mul hile hjle
      have hlt := hlt i.hi j.hi hilt hjlt
      rw [multiplyIntervals, u64_eq (by omega), u64_eq (by omega), if_neg (by omega)]
      refine ⟨_, rfl, fun v => ?_⟩
      rw [IntervalSet.mem_insertHull, Interval.mem_hull hle, or_comm]
  rw [unsignedMultiply, if_neg (by simp [ha, hb]), ht]
  refine SValue.contains_intervals.mpr ⟨?_, fun v hv => ?_⟩
  · obtain ⟨i, hi, hxlo, hxhi⟩ := hx
    obtain ⟨j, hj, hylo, hyhi⟩ := hy
    exact (hmem _).mpr
      (.inr ⟨i, hi, j, hj, Nat.mul_le_mul hxlo hylo, Nat.mul_le_mul hxhi hyhi⟩)
  · obtain ⟨i, hi, j, hj, -, hle⟩ := ((hmem v).mp hv).resolve_left IntervalSet.not_mem_empty
    rw [IntegerOps.le_genMask hab]
    exact hle.trans_lt (hlt _ _ (interval_lt (by omega) hi).2 (interval_lt (by omega) hj).2)

theorem unsignedDivide_sound (hn : a.nBits ≤ 64) (ha : a.isBottom = false) (hb : b.isBottom = false)
    (hx : x ∈ a) (hy : y ∈ b) (hne : y ≠ 0) :
    SValue.Contains (unsignedDivide a b) a.nBits (x / y) := by
  obtain ⟨t, ht, hmem⟩ := IntervalSet.mem_foldlM_foldlM (s := .empty) (l := a.intervals.intervals)
    (m := b.intervals.intervals) (P := fun i j v => i.lo / max j.hi 1 ≤ v ∧ v ≤ i.hi / max j.lo 1)
    (f := divideIntervals a.nBits) fun s i hi j hj => by
      obtain ⟨hile, hilt⟩ := interval_lt hn hi
      have hjle := b.intervals.nonempty j hj
      have hle : i.lo / max j.hi 1 ≤ i.hi / max j.lo 1 :=
        Nat.div_le_div hile (max_le_max_right 1 hjle) (by omega)
      have hhi : i.hi / max j.lo 1 ≤ genMask a.nBits :=
        (Nat.div_le_self _ _).trans ((IntegerOps.le_genMask hn).mpr hilt)
      rw [divideIntervals, if_neg (by omega), if_neg (by omega), if_neg (by omega)]
      refine ⟨_, rfl, fun v => ?_⟩
      rw [IntervalSet.mem_insertHull, Interval.mem_hull hle, or_comm]
  rw [unsignedDivide, if_neg (by simp [ha, hb]), ht]
  refine SValue.contains_intervals.mpr ⟨?_, fun v hv => ?_⟩
  · obtain ⟨i, hi, hxlo, hxhi⟩ := hx
    obtain ⟨j, hj, hylo, hyhi⟩ := hy
    exact (hmem _).mpr (.inr ⟨i, hi, j, hj, Nat.div_le_div hxlo (by omega) (by omega),
      Nat.div_le_div hxhi (by omega) (by omega)⟩)
  · obtain ⟨i, hi, j, hj, -, hle⟩ := ((hmem v).mp hv).resolve_left IntervalSet.not_mem_empty
    rw [IntegerOps.le_genMask hn]
    exact hle.trans_lt ((Nat.div_le_self _ _).trans_lt (interval_lt hn hi).2)

/-- A divisor that is one power of two keeps the members below it, and drops the greatest number of
the dividend's width where the divisor is beyond it. -/
def ModuloHolds (a b : SValue) : Prop :=
  ∀ i, b.toUnsigned = some (2 ^ i) → (i < a.nBits → ∀ x ∈ a, x % 2 ^ i ∈ a) ∧
    (a.nBits ≤ i → 2 ^ a.nBits - 1 ∉ a)

theorem unsignedModulo_sound_iff (hn : a.nBits ≤ 64) (hm : b.nBits ≤ 64) (ha : a.isBottom = false)
    (hb : b.isBottom = false) :
    (∀ x ∈ a, ∀ y ∈ b, y ≠ 0 → SValue.Contains (unsignedModulo a b) b.nBits (x % y)) ↔
      ModuloHolds a b := by
  have hundefined : ∀ x ∈ a, ∀ y ∈ b, y ≠ 0 →
      SValue.Contains (some (.instanceUndefined b.nBits)) b.nBits (x % y) := fun x _ y hy hne =>
    contains_undefined hm ((Nat.mod_lt _ (by omega)).trans (SValue.lt_two_pow hm hy))
  rw [unsignedModulo, if_neg (by simp [ha, hb])]
  cases hconst : b.toUnsigned with
  | none => exact ⟨fun _ i hi => by simp [hconst] at hi, fun _ => hundefined⟩
  | some bNum =>
    have honly := SValue.toUnsigned_mem hconst
    dsimp only
    cases hfind : (List.range b.nBits).find? fun i => decide (bNum = shl1 i) with
    | none =>
      refine ⟨fun _ i hi => ?_, fun _ => hundefined⟩
      obtain rfl : bNum = 2 ^ i := Option.some.inj (hconst.symm.trans hi)
      have hib : i < b.nBits := by
        have hlt := SValue.lt_two_pow hm ((honly _).mpr rfl)
        exact (Nat.pow_lt_pow_iff_right (by omega)).mp hlt
      have hnone := List.find?_eq_none.mp hfind i (List.mem_range.mpr hib)
      simp [shl1_eq (by omega : i < 64)] at hnone
    | some i =>
      have hib := List.mem_range.mp (List.mem_of_find?_eq_some hfind)
      have hi : bNum = shl1 i := by simpa using List.find?_some hfind
      rw [shl1_eq (by omega)] at hi
      subst hi
      have hmem : ∀ v, v ∈ a.intervals.eraseHull (shl1 i) (genMask a.nBits) ↔
          v ∈ a ∧ if i < a.nBits then v < 2 ^ i else v ≠ 2 ^ a.nBits - 1 := by
        intro v
        have hpos := Nat.two_pow_pos a.nBits
        rw [IntervalSet.mem_eraseHull, shl1_eq (by omega), genMask_eq hn, SValue.mem_iff]
        refine and_congr_right fun hv => ?_
        have hlt := SValue.lt_two_pow hn hv
        split
        next hia =>
          have hpow : 2 ^ i < 2 ^ a.nBits := Nat.pow_lt_pow_right (by omega) hia
          rw [Interval.mem_hull (by omega)]
          omega
        next hia =>
          have hpow : 2 ^ a.nBits ≤ 2 ^ i := Nat.pow_le_pow_right (by omega) (by omega)
          rw [Interval.mem_iff, Interval.hull]
          dsimp only
          omega
      have hibPow : 2 ^ i < 2 ^ b.nBits := Nat.pow_lt_pow_right (by omega) hib
      have hle : ∀ v ∈ a.intervals.eraseHull (shl1 i) (genMask a.nBits), v ≤ genMask b.nBits := by
        intro v hv
        obtain ⟨hva, hv⟩ := (hmem v).mp hv
        rw [IntegerOps.le_genMask hm]
        split at hv
        next => omega
        next hia =>
          have hpow : 2 ^ a.nBits ≤ 2 ^ i := Nat.pow_le_pow_right (by omega) (by omega)
          have hlt := SValue.lt_two_pow hn hva
          omega
      dsimp only
      simp only [SValue.contains_intervals]
      constructor
      · intro h j hj
        obtain rfl : i = j := Nat.pow_right_injective le_rfl (Option.some.inj (hconst.symm.trans hj))
        have hyb : 2 ^ i ∈ b := (honly _).mpr rfl
        have hne := (Nat.two_pow_pos i).ne'
        refine ⟨fun hia x hx => ((hmem _).mp (h x hx _ hyb hne).1).1, fun hai hx => ?_⟩
        have hpow : 2 ^ a.nBits ≤ 2 ^ i := Nat.pow_le_pow_right (by omega) hai
        have hpos := Nat.two_pow_pos a.nBits
        have hin := ((hmem _).mp (h _ hx _ hyb hne).1).2
        rw [if_neg (by omega), Nat.mod_eq_of_lt (by omega)] at hin
        exact hin rfl
      · intro h x hx y hy hne
        obtain ⟨hlow, hhigh⟩ := h i hconst
        rw [(honly y).mp hy]
        refine ⟨(hmem _).mpr ?_, hle⟩
        by_cases hia : i < a.nBits
        · rw [if_pos hia]
          exact ⟨hlow hia x hx, Nat.mod_lt _ (Nat.two_pow_pos i)⟩
        · have hpow : 2 ^ a.nBits ≤ 2 ^ i := Nat.pow_le_pow_right (by omega) (by omega)
          have hlt := SValue.lt_two_pow hn hx
          rw [if_neg hia, Nat.mod_eq_of_lt (by omega)]
          refine ⟨hx, ?_⟩
          rintro rfl
          exact hhigh (by omega) hx

/-- The sign bit that some member of a value has. -/
theorem signBit2_possibleBits (hpos : 0 < a.nBits) (hn : a.nBits ≤ 64) :
    ∃ sign, signBit2 a.possibleBits a.nBits = some sign ∧
      (sign = true ↔ ∃ x ∈ a, 2 ^ (a.nBits - 1) ≤ x) := by
  refine ⟨_, signBit2_eq hpos hn, ?_⟩
  rw [testBit_possibleBits hn (by omega)]
  refine exists_congr fun x => and_congr_right fun hx => ?_
  rw [testBit_top hpos (SValue.lt_two_pow hn hx), decide_eq_true_eq]

theorem toInt_of_nonneg (hpos : 0 < n) (hx : x < 2 ^ (n - 1)) : (BitVec.ofNat n x).toInt = x := by
  have hpow : 2 ^ n = 2 * 2 ^ (n - 1) := by
    rw [← pow_succ', Nat.sub_add_cancel hpos]
  have hmod : x % 2 ^ n = x := Nat.mod_eq_of_lt (by omega)
  rw [BitVec.toInt_eq_toNat_of_lt (by rw [BitVec.toNat_ofNat, hmod]; omega), BitVec.toNat_ofNat, hmod]

/-- Signed operations on numbers that are not negative are the unsigned ones. -/
theorem signedResult_of_nonneg {op : Int → Int → Int} {uop : Nat → Nat → Nat} {width m : Nat}
    (hop : ∀ x y : Nat, op x y = uop x y) (hn : 0 < n) (hm : 0 < m) (hx : x < 2 ^ (n - 1))
    (hy : y < 2 ^ (m - 1)) (hlt : uop x y < 2 ^ width) :
    signedResult op width n m x y = uop x y := by
  rw [signedResult, toInt_of_nonneg hn hx, toInt_of_nonneg hm hy, hop, BitVec.toNat_ofInt]
  norm_cast
  exact Nat.mod_eq_of_lt hlt

/-- A signed operator is sound where a member may be negative, and else where the unsigned one is. -/
theorem signedOperator_sound_iff (op : Int → Int → Int) (uop : Nat → Nat → Nat)
    (unsigned : SValue → SValue → Option SValue) (Q : Nat → Prop) {width : Nat}
    (hop : ∀ x y : Nat, op x y = uop x y) (hw : width ≤ 64) (hn : a.nBits ≤ 64)
    (hapos : 0 < a.nBits) (hbpos : 0 < b.nBits) (ha : a.isBottom = false) (hb : b.isBottom = false)
    (hlt : ∀ x ∈ a, ∀ y ∈ b, Q y → uop x y < 2 ^ width) :
    (∀ x ∈ a, ∀ y ∈ b, Q y → SValue.Contains (signedOperator width unsigned a b) width
      (signedResult op width a.nBits b.nBits x y)) ↔
      (∃ x ∈ a, 2 ^ (a.nBits - 1) ≤ x) ∨ (∀ y ∈ b, ¬Q y) ∨ b.nBits ≤ 64 ∧
        ((∃ y ∈ b, 2 ^ (b.nBits - 1) ≤ y) ∨
          ∀ x ∈ a, ∀ y ∈ b, Q y → SValue.Contains (unsigned a b) width (uop x y)) := by
  obtain ⟨signA, hsignA, hA⟩ := signBit2_possibleBits hapos hn
  have hundefined : ∀ x y, SValue.Contains (some (.instanceUndefined width)) width
      (signedResult op width a.nBits b.nBits x y) := fun x y =>
    contains_undefined hw (BitVec.isLt _)
  rw [signedOperator, if_neg (by simp [ha, hb]), hsignA]
  simp only [Option.bind_eq_bind, Option.bind_some]
  cases signA with
  | true =>
    rw [if_pos rfl]
    exact ⟨fun _ => .inl (hA.mp rfl), fun _ x _ y _ _ => hundefined x y⟩
  | false =>
    have hnonneg : ¬∃ x ∈ a, 2 ^ (a.nBits - 1) ≤ x := fun h => Bool.false_ne_true (hA.mpr h)
    rw [if_neg Bool.false_ne_true, or_iff_right hnonneg]
    by_cases hm : b.nBits ≤ 64
    · obtain ⟨signB, hsignB, hB⟩ := signBit2_possibleBits hbpos hm
      rw [hsignB, Option.bind_some]
      cases signB with
      | true =>
        rw [if_pos rfl]
        exact ⟨fun _ => .inr ⟨hm, .inl (hB.mp rfl)⟩, fun _ x _ y _ _ => hundefined x y⟩
      | false =>
        have hnonneg' : ¬∃ y ∈ b, 2 ^ (b.nBits - 1) ≤ y := fun h => Bool.false_ne_true (hB.mpr h)
        have heq : ∀ x ∈ a, ∀ y ∈ b, Q y →
            signedResult op width a.nBits b.nBits x y = uop x y := fun x hx y hy hq =>
          signedResult_of_nonneg hop hapos hbpos (not_le.mp fun h => hnonneg ⟨x, hx, h⟩)
            (not_le.mp fun h => hnonneg' ⟨y, hy, h⟩) (hlt x hx y hy hq)
        rw [if_neg Bool.false_ne_true]
        constructor
        · exact fun h => .inr ⟨hm, .inr fun x hx y hy hq => heq x hx y hy hq ▸ h x hx y hy hq⟩
        · rintro (hnone | ⟨-, h⟩) x hx y hy hq
          · exact absurd hq (hnone y hy)
          · rw [heq x hx y hy hq]
            exact (h.resolve_left hnonneg') x hx y hy hq
    · rw [signBit2, if_neg (by omega), Option.bind_none]
      constructor
      · intro h
        refine .inl fun y hy hq => ?_
        obtain ⟨x, hx⟩ := a.exists_mem
        obtain ⟨w, hw, -⟩ := h x hx y hy hq
        cases hw
      · rintro (hnone | ⟨hm', -⟩) x hx y hy hq
        · exact absurd hq (hnone y hy)
        · exact absurd hm' hm

/-- The results of width changes, products and quotients hold the members' results. -/
structure ConversionsSound (a b : SValue) (beginBit endBit width : Nat) : Prop where
  extract : ∀ x ∈ a, SValue.Contains (extract a beginBit endBit) (endBit - beginBit)
    (x / 2 ^ beginBit % 2 ^ (endBit - beginBit))
  concat : a.nBits + b.nBits ≤ 64 → ∀ x ∈ a, ∀ y ∈ b,
    SValue.Contains (concat a b) (a.nBits + b.nBits) (x + 2 ^ a.nBits * y)
  unsignedExtend : ∀ x ∈ a, SValue.Contains (unsignedExtend a width) width (x % 2 ^ width)
  signExtend : a.nBits < width → ∀ x ∈ a,
    SValue.Contains (signExtend a width) width ((BitVec.ofNat a.nBits x).signExtend width).toNat
  unsignedMultiply : a.nBits + b.nBits ≤ 64 → ∀ x ∈ a, ∀ y ∈ b,
    SValue.Contains (unsignedMultiply a b) (a.nBits + b.nBits) (x * y)
  signedMultiply : a.nBits + b.nBits ≤ 64 → ∀ x ∈ a, ∀ y ∈ b,
    SValue.Contains (signedMultiply a b) (a.nBits + b.nBits)
      (signedResult (· * ·) (a.nBits + b.nBits) a.nBits b.nBits x y)
  unsignedDivide : a.nBits ≤ 64 → ∀ x ∈ a, ∀ y ∈ b, y ≠ 0 →
    SValue.Contains (unsignedDivide a b) a.nBits (x / y)
  signedDivide : a.nBits ≤ 64 → ∀ x ∈ a, ∀ y ∈ b, y ≠ 0 →
    SValue.Contains (signedDivide a b) a.nBits
      (signedResult Int.tdiv a.nBits a.nBits b.nBits x y)
  unsignedModulo : b.nBits ≤ 64 → ∀ x ∈ a, ∀ y ∈ b, y ≠ 0 →
    SValue.Contains (unsignedModulo a b) b.nBits (x % y)
  signedModulo : b.nBits ≤ 64 → ∀ x ∈ a, ∀ y ∈ b, y ≠ 0 →
    SValue.Contains (signedModulo a b) b.nBits
      (signedResult Int.tmod b.nBits a.nBits b.nBits x y)

/-- Where no bits are lost: narrow operands, a second operand of zero, and reductions that stay within
the first. -/
structure ConversionsHold (a b : SValue) (width : Nat) : Prop where
  narrow : a.nBits ≤ 64
  concat : a.nBits + b.nBits ≤ 64 → ∀ y ∈ b, y = 0
  truncate : width < a.nBits → ∀ x ∈ a, x % 2 ^ width ∈ a
  divisor : b.nBits ≤ 64 ∨ (∃ x ∈ a, 2 ^ (a.nBits - 1) ≤ x) ∨ ∀ y ∈ b, y = 0
  modulo : b.nBits ≤ 64 → ModuloHolds a b

/-- Width changes, products and quotients are sound just where no bits are lost. -/
theorem conversionsSound_iff {beginBit endBit width : Nat} (hbe : beginBit < endBit)
    (hen : endBit ≤ a.nBits) (hes : endBit - beginBit ≤ 64) (hw : width ≤ 64)
    (hbpos : 0 < b.nBits) (ha : a.isBottom = false) (hb : b.isBottom = false) :
    ConversionsSound a b beginBit endBit width ↔ ConversionsHold a b width := by
  have hapos : 0 < a.nBits := by omega
  have hdiv : a.nBits ≤ 64 → ((∀ x ∈ a, ∀ y ∈ b, y ≠ 0 →
      SValue.Contains (signedDivide a b) a.nBits
        (signedResult Int.tdiv a.nBits a.nBits b.nBits x y)) ↔
      b.nBits ≤ 64 ∨ (∃ x ∈ a, 2 ^ (a.nBits - 1) ≤ x) ∨ ∀ y ∈ b, y = 0) := by
    intro hn
    rw [signedDivide, signedOperator_sound_iff Int.tdiv (· / ·) unsignedDivide (· ≠ 0)
      (fun x y => (Int.ofNat_tdiv x y).symm) hn hn hapos hbpos ha hb
      fun x hx y _ _ => (Nat.div_le_self x y).trans_lt (SValue.lt_two_pow hn hx)]
    have hall : ∀ x ∈ a, ∀ y ∈ b, y ≠ 0 → SValue.Contains (unsignedDivide a b) a.nBits (x / y) :=
      fun x hx y hy hne => unsignedDivide_sound hn ha hb hx hy hne
    simp only [not_not]
    rw [and_iff_left (.inr hall), ← or_assoc, or_comm]
  constructor
  · intro h
    have hn := (extract_sound_iff ha hbe hen hes).mp h.extract
    exact ⟨hn, fun hab => (concat_sound_iff hab hapos ha hb).mp (h.concat hab),
      (unsignedExtend_sound_iff hn ha).mp h.unsignedExtend, (hdiv hn).mp (h.signedDivide hn),
      fun hm => (unsignedModulo_sound_iff hn hm ha hb).mp (h.unsignedModulo hm)⟩
  · intro h
    have hn := h.narrow
    have hmod := fun hm => (unsignedModulo_sound_iff hn hm ha hb).mpr (h.modulo hm)
    refine ⟨(extract_sound_iff ha hbe hen hes).mpr hn,
      fun hab => (concat_sound_iff hab hapos ha hb).mpr (h.concat hab),
      (unsignedExtend_sound_iff hn ha).mpr h.truncate,
      fun haw x hx => signExtend_sound hapos hw haw ha hx,
      fun hab x hx y hy => unsignedMultiply_sound hab ha hb hx hy, fun hab => ?_,
      fun _ x hx y hy hne => unsignedDivide_sound hn ha hb hx hy hne,
      fun _ => (hdiv hn).mpr h.divisor, hmod, fun hm => ?_⟩
    · have hmul := (signedOperator_sound_iff (· * ·) (· * ·) IntervalSemantics.unsignedMultiply
        (fun _ => True) (fun x y => (Nat.cast_mul x y).symm) hab hn hapos hbpos ha hb fun x hx y hy _ => by
          rw [pow_add]
          exact Nat.mul_lt_mul_of_lt_of_lt (SValue.lt_two_pow hn hx)
            (SValue.lt_two_pow (by omega) hy)).mpr
        (.inr (.inr ⟨by omega, .inr fun x hx y hy _ => unsignedMultiply_sound hab ha hb hx hy⟩))
      exact fun x hx y hy => hmul x hx y hy trivial
    · exact (signedOperator_sound_iff Int.tmod (· % ·) IntervalSemantics.unsignedModulo
        (· ≠ 0) (fun x y => (Int.ofNat_tmod x y).symm) hm hn hapos hbpos ha hb fun x hx y hy hne =>
          (Nat.mod_lt x (by omega)).trans (SValue.lt_two_pow hm hy)).mpr
        (.inr (.inr ⟨hm, .inr (hmod hm)⟩))

/-- The operands are too wide to be concatenated; the remainder by four keeps the three. -/
theorem conversionsSound_three : ConversionsSound (.number 40 3) (.number 40 4) 1 3 2 := by
  have hthree : ∀ x, x ∈ SValue.number 40 3 ↔ x = 3 := fun x => SValue.mem_number_of_le (by decide)
  have hkeeps : ∀ x ∈ SValue.number 40 3, x % 2 ^ 2 ∈ SValue.number 40 3 := by
    intro x hx
    rw [(hthree x).mp hx]
    exact (hthree 3).mpr rfl
  refine (conversionsSound_iff (by decide) (by decide) (by decide) (by decide) (by decide) rfl rfl).mpr
    ⟨by decide, fun h => absurd h (by decide), fun _ => hkeeps, .inl (by decide), fun _ i hi => ?_⟩
  have hfour : SValue.toUnsigned (.number 40 4) = some (2 ^ 2) := by decide
  obtain rfl : 2 = i := Nat.pow_right_injective le_rfl (Option.some.inj (hfour.symm.trans hi))
  exact ⟨fun _ => hkeeps, fun h => absurd h (by decide)⟩

theorem concat_losesHighBits : ¬ConversionsSound (.number 1 1) (.number 1 1) 0 1 1 := by
  intro h
  obtain ⟨w, hw, -, -, i, hi, hmem⟩ := h.concat (by decide) 1 (by decide) 1 (by decide)
  have hone : (concat (.number 1 1) (.number 1 1)).map (fun w => w.intervals.intervals) =
      some [⟨1, 1⟩] := by decide
  rw [hw] at hone
  have hintervals : w.intervals.intervals = [⟨1, 1⟩] := by simpa using hone
  rw [hintervals, List.mem_singleton] at hi
  subst hi
  revert hmem
  decide

end LoomX.IntervalSemantics
