import LoomX.IntervalSemantics.Addition

namespace LoomX.IntervalSemantics

open IntegerOps

/-- The loop of an extraction, which ends when all numbers are possible. -/
def extractIntervals (nBits beginBit endBit : Nat) :
    IntervalSet → List Interval → Option IntervalSet
  | result, [] => some result
  | result, iv :: rest => do
    let discardMask := inv (genMask endBit)
    let srcMask := genMask nBits
    let dstMask := genMask (endBit - beginBit)
    let d1 ← shiftRightLogical2 (iv.lo &&& discardMask) endBit nBits
    let d2 ← shiftRightLogical2 (iv.hi &&& discardMask) endBit nBits
    let k1 := (← shiftRightLogical2 (iv.lo &&& srcMask) beginBit nBits) &&& dstMask
    let k2 := (← shiftRightLogical2 (iv.hi &&& srcMask) beginBit nBits) &&& dstMask
    if d1 = d2 then
      if k2 < k1 then none
      else extractIntervals nBits beginBit endBit (result.insertHull k1 k2) rest
    else if d1 + 1 < d2 ∨ k1 < k2 then some (result.insertHull 0 dstMask)
    else
      let result := (result.insertHull 0 k2).insertHull k1 dstMask
      extractIntervals nBits beginBit endBit result rest

def extract (a : SValue) (beginBit endBit : Nat) : Option SValue :=
  if a.nBits < endBit then none
  else if endBit ≤ beginBit then none
  else if a.isBottom then some (.instanceBottom a.nBits)
  else (extractIntervals a.nBits beginBit endBit .empty a.intervals.intervals).bind
    (SValue.instanceIntervals (endBit - beginBit))

/-- The width of the result goes where the shift's count belongs, and the other way round. -/
def concatIntervals (nBitsA nBitsB : Nat) (result : IntervalSet) (av bv : Interval) :
    Option IntervalSet := do
  let retsize := nBitsA + nBitsB
  let maskA := genMask nBitsA
  let maskB := genMask nBitsB
  let lo := (← shiftLeft2 (bv.lo &&& maskB) retsize nBitsA) ||| (av.lo &&& maskA)
  let hi := (← shiftLeft2 (bv.hi &&& maskB) retsize nBitsA) ||| (av.hi &&& maskA)
  some (result.insertHull lo hi)

def concat (a b : SValue) : Option SValue :=
  if a.isBottom || b.isBottom then some (.instanceBottom (a.nBits + b.nBits))
  else do
    let result ← a.intervals.intervals.foldlM (fun result av =>
      b.intervals.intervals.foldlM (fun result bv =>
        concatIntervals a.nBits b.nBits result av bv) result) .empty
    SValue.instanceIntervals (a.nBits + b.nBits) result

def signExtendInterval (nBits newWidth : Nat) (result : IntervalSet) (av : Interval) :
    Option IntervalSet := do
  let oldSignbit := shl1 (nBits - 1)
  let newSignbit := shl1 (newWidth - 1)
  let lo ← signExtend2 av.lo nBits newWidth
  let hi ← signExtend2 av.hi nBits newWidth
  if lo &&& newSignbit = 0 ∧ hi &&& newSignbit ≠ 0 then
    some ((result.insertHull lo (genMask (nBits - 1))).insertHull oldSignbit hi)
  else some (result.insertHull lo hi)

def signExtend (a : SValue) (newWidth : Nat) : Option SValue :=
  if a.nBits = newWidth then some a
  else if a.isBottom then some (.instanceBottom newWidth)
  else do
    let result ← a.intervals.intervals.foldlM (signExtendInterval a.nBits newWidth) .empty
    SValue.instanceIntervals newWidth result

variable {a b : SValue} {n x y : Nat}

/-- The high bits of a number that an extraction discards. -/
theorem discard_eq {v e : Nat} (hn : n ≤ 64) (hpos : 0 < n) (he : e ≤ n) (hv : v < 2 ^ n) :
    shiftRightLogical2 (v &&& inv (genMask e)) e n = some (v / 2 ^ e) := by
  have hv64 : v < 2 ^ 64 := hv.trans_le (Nat.pow_le_pow_right (by omega) hn)
  rw [shiftRightLogical2, if_pos ⟨hpos, hn⟩, and_inv_genMask hv64 (by omega)]
  split
  next h =>
    obtain rfl : e = n := by omega
    rw [Nat.div_eq_of_lt hv]
  next h =>
    rw [Nat.shiftRight_eq_div_pow, Nat.mul_div_cancel_left _ (Nat.two_pow_pos e)]

theorem keep_eq {v s : Nat} (hn : n ≤ 64) (hs : s < n) (hv : v < 2 ^ n) :
    shiftRightLogical2 (v &&& genMask n) s n = some (v / 2 ^ s) := by
  rw [shiftRightLogical2, if_pos ⟨by omega, hn⟩, if_neg (by omega), and_genMask hn,
    Nat.mod_eq_of_lt hv, Nat.shiftRight_eq_div_pow]

/-- A number without its low bits is what is discarded of it and what is kept. -/
theorem div_eq_discard_add_keep (v : Nat) {s e : Nat} (hse : s < e) :
    v / 2 ^ s = v / 2 ^ e * 2 ^ (e - s) + v / 2 ^ s % 2 ^ (e - s) := by
  have hpow : 2 ^ e = 2 ^ s * 2 ^ (e - s) := by
    rw [← pow_add]
    congr 1
    omega
  rw [hpow, ← Nat.div_div_eq_div_mul, Nat.mul_comm, Nat.div_add_mod]

theorem extractIntervals_spec {s e : Nat} (hn : n ≤ 64) (hse : s < e) (hen : e ≤ n)
    {l : List Interval} (hl : ∀ i ∈ l, i.lo ≤ i.hi ∧ i.hi < 2 ^ n) (r : IntervalSet) :
    ∃ t, extractIntervals n s e r l = some t ∧ (∀ v ∈ r, v ∈ t) ∧
      (∀ i ∈ l, ∀ v ∈ i, v / 2 ^ s % 2 ^ (e - s) ∈ t) ∧ ∀ v ∈ t, v ∈ r ∨ v < 2 ^ (e - s) := by
  induction l generalizing r with
  | nil => exact ⟨r, rfl, fun v hv => hv, by simp, fun v hv => .inl hv⟩
  | cons iv rest ih =>
    obtain ⟨⟨hle, hlt⟩, hrest⟩ := List.forall_mem_cons.mp hl
    have hM := Nat.two_pow_pos (e - s)
    have hkeep := fun v => Nat.mod_lt (v / 2 ^ s) hM
    have hlo := div_eq_discard_add_keep iv.lo hse
    have hhi := div_eq_discard_add_keep iv.hi hse
    have hends : iv.lo / 2 ^ s ≤ iv.hi / 2 ^ s := Nat.div_le_div_right hle
    have hdiscard : iv.lo / 2 ^ e ≤ iv.hi / 2 ^ e := Nat.div_le_div_right hle
    rw [extractIntervals, discard_eq hn (by omega) hen (by omega), discard_eq hn (by omega) hen hlt,
      keep_eq hn (by omega) (by omega), keep_eq hn (by omega) hlt]
    simp only [Option.bind_eq_bind, Option.bind_some, and_genMask (by omega : e - s ≤ 64)]
    rw [genMask_eq (by omega : e - s ≤ 64)]
    have hklo := hkeep iv.lo
    have hkhi := hkeep iv.hi
    by_cases hsame : iv.lo / 2 ^ e = iv.hi / 2 ^ e
    · rw [← hsame] at hhi
      have hk : iv.lo / 2 ^ s % 2 ^ (e - s) ≤ iv.hi / 2 ^ s % 2 ^ (e - s) := by omega
      rw [if_pos hsame, if_neg (by omega)]
      obtain ⟨t, ht, hsub, hmem, hbound⟩ := ih hrest (r.insertHull
        (iv.lo / 2 ^ s % 2 ^ (e - s)) (iv.hi / 2 ^ s % 2 ^ (e - s)))
      refine ⟨t, ht, fun v hv => hsub v (IntervalSet.mem_insertHull.mpr (.inr hv)), ?_, fun v hv => ?_⟩
      · refine List.forall_mem_cons.mpr ⟨fun v hv => hsub _ ?_, hmem⟩
        obtain ⟨hvlo, hvhi⟩ := hv
        have hv := div_eq_discard_add_keep v hse
        have hd : v / 2 ^ e = iv.lo / 2 ^ e :=
          le_antisymm ((Nat.div_le_div_right hvhi).trans hsame.ge) (Nat.div_le_div_right hvlo)
        have h1 : iv.lo / 2 ^ s ≤ v / 2 ^ s := Nat.div_le_div_right hvlo
        have h2 : v / 2 ^ s ≤ iv.hi / 2 ^ s := Nat.div_le_div_right hvhi
        rw [hd] at hv
        rw [IntervalSet.mem_insertHull, Interval.mem_hull hk]
        omega
      · rcases hbound v hv with hv | hv
        · rw [IntervalSet.mem_insertHull, Interval.mem_hull hk] at hv
          rcases hv with hv | hv
          · exact .inr (by omega)
          · exact .inl hv
        · exact .inr hv
    · rw [if_neg hsame]
      by_cases hall : iv.lo / 2 ^ e + 1 < iv.hi / 2 ^ e ∨
          iv.lo / 2 ^ s % 2 ^ (e - s) < iv.hi / 2 ^ s % 2 ^ (e - s)
      · rw [if_pos hall]
        have hfull : ∀ v, v < 2 ^ (e - s) → v ∈ r.insertHull 0 (2 ^ (e - s) - 1) := by
          intro v hv
          rw [IntervalSet.mem_insertHull, Interval.mem_hull (Nat.zero_le _)]
          omega
        refine ⟨_, rfl, fun v hv => IntervalSet.mem_insertHull.mpr (.inr hv),
          fun i _ v _ => hfull _ (hkeep v), fun v hv => ?_⟩
        rw [IntervalSet.mem_insertHull, Interval.mem_hull (Nat.zero_le _)] at hv
        rcases hv with hv | hv
        · exact .inr (by omega)
        · exact .inl hv
      · rw [if_neg hall]
        have hnext : iv.hi / 2 ^ e = iv.lo / 2 ^ e + 1 := by omega
        have hin : ∀ v, v ∈ (r.insertHull 0 (iv.hi / 2 ^ s % 2 ^ (e - s))).insertHull
            (iv.lo / 2 ^ s % 2 ^ (e - s)) (2 ^ (e - s) - 1) ↔
            (iv.lo / 2 ^ s % 2 ^ (e - s) ≤ v ∧ v ≤ 2 ^ (e - s) - 1) ∨
              (0 ≤ v ∧ v ≤ iv.hi / 2 ^ s % 2 ^ (e - s)) ∨ v ∈ r := by
          intro v
          rw [IntervalSet.mem_insertHull, IntervalSet.mem_insertHull,
            Interval.mem_hull (by omega), Interval.mem_hull (Nat.zero_le _)]
        obtain ⟨t, ht, hsub, hmem, hbound⟩ := ih hrest
          ((r.insertHull 0 (iv.hi / 2 ^ s % 2 ^ (e - s))).insertHull
            (iv.lo / 2 ^ s % 2 ^ (e - s)) (2 ^ (e - s) - 1))
        refine ⟨t, ht, fun v hv => hsub v ((hin v).mpr (.inr (.inr hv))), ?_, fun v hv => ?_⟩
        · refine List.forall_mem_cons.mpr ⟨fun v hv => hsub _ ((hin _).mpr ?_), hmem⟩
          obtain ⟨hvlo, hvhi⟩ := hv
          have hv := div_eq_discard_add_keep v hse
          have hd1 : iv.lo / 2 ^ e ≤ v / 2 ^ e := Nat.div_le_div_right hvlo
          have hd2 : v / 2 ^ e ≤ iv.hi / 2 ^ e := Nat.div_le_div_right hvhi
          have h1 : iv.lo / 2 ^ s ≤ v / 2 ^ s := Nat.div_le_div_right hvlo
          have h2 : v / 2 ^ s ≤ iv.hi / 2 ^ s := Nat.div_le_div_right hvhi
          have hkv := hkeep v
          by_cases hd : v / 2 ^ e = iv.lo / 2 ^ e
          · rw [hd] at hv
            exact .inl (by omega)
          · have hd : v / 2 ^ e = iv.hi / 2 ^ e := by omega
            rw [hd] at hv
            exact .inr (.inl (by omega))
        · rcases hbound v hv with hv | hv
          · rcases (hin v).mp hv with hv | hv | hv
            · exact .inr (by omega)
            · exact .inr (by omega)
            · exact .inl hv
          · exact .inr hv

/-- An extraction is sound at the widths that its shifts allow. -/
theorem extract_sound_iff {s e : Nat} (ha : a.isBottom = false) (hse : s < e) (hen : e ≤ a.nBits)
    (hes : e - s ≤ 64) :
    (∀ x ∈ a, SValue.Contains (extract a s e) (e - s) (x / 2 ^ s % 2 ^ (e - s))) ↔
      a.nBits ≤ 64 := by
  rw [extract, if_neg (by omega), if_neg (by omega), if_neg (by simp [ha])]
  constructor
  · intro h
    by_contra hwide
    obtain ⟨x, hx⟩ := a.exists_mem
    obtain ⟨w, hw, -⟩ := h x hx
    obtain ⟨i, hi, -⟩ := hx
    obtain ⟨iv, rest, hl⟩ := List.exists_cons_of_ne_nil (List.ne_nil_of_mem hi)
    rw [hl, extractIntervals, shiftRightLogical2, if_neg (by omega)] at hw
    cases hw
  · intro hn x hx
    obtain ⟨t, ht, -, hmem, hbound⟩ :=
      extractIntervals_spec hn hse hen (fun i hi => interval_lt hn hi) .empty
    rw [ht, Option.bind_some]
    obtain ⟨i, hi, hxi⟩ := hx
    refine SValue.contains_intervals.mpr ⟨hmem i hi x hxi, fun v hv => ?_⟩
    rw [IntegerOps.le_genMask hes]
    exact (hbound v hv).resolve_left IntervalSet.not_mem_empty

/-- The second operand's bits are all lost. -/
theorem concatIntervals_eq {m : Nat} (hpos : 0 < n) (hnm : n + m ≤ 64) {i j : Interval}
    (hi : i.lo ≤ i.hi ∧ i.hi < 2 ^ n) (r : IntervalSet) :
    concatIntervals n m r i j = some (r.insertHull i.lo i.hi) := by
  have hzero : ∀ v, shiftLeft2 v (n + m) n = some 0 := by
    intro v
    rw [shiftLeft2, if_pos ⟨hpos, by omega⟩, and_genMask (by omega), u64_mod (by omega), shl1]
    split
    next => rw [Nat.mul_zero, Nat.zero_mod]
    next =>
      rw [pow_add, Nat.mul_left_comm, Nat.mul_mod_right]
  have hmask : ∀ v, v < 2 ^ n → v &&& genMask n = v := by
    intro v hv
    rw [and_genMask (by omega), Nat.mod_eq_of_lt hv]
  rw [concatIntervals, hzero, hzero, hmask _ (by omega), hmask _ hi.2]
  simp only [Option.bind_eq_bind, Option.bind_some, Nat.zero_or]

theorem concat_sound_iff (hab : a.nBits + b.nBits ≤ 64) (hpos : 0 < a.nBits)
    (ha : a.isBottom = false) (hb : b.isBottom = false) :
    (∀ x ∈ a, ∀ y ∈ b,
      SValue.Contains (concat a b) (a.nBits + b.nBits) (x + 2 ^ a.nBits * y)) ↔ ∀ y ∈ b, y = 0 := by
  have hn : a.nBits ≤ 64 := by omega
  obtain ⟨t, ht, hmem⟩ := IntervalSet.mem_foldlM_foldlM (s := .empty) (l := a.intervals.intervals)
    (m := b.intervals.intervals) (P := fun i _ v => i.lo ≤ v ∧ v ≤ i.hi)
    (f := concatIntervals a.nBits b.nBits) fun s i hi j _ => by
      refine ⟨_, concatIntervals_eq hpos hab (interval_lt hn hi) s, fun v => ?_⟩
      rw [IntervalSet.mem_insertHull, Interval.mem_hull (interval_lt hn hi).1, or_comm]
  have hta : ∀ v, v ∈ t ↔ v ∈ a := by
    intro v
    rw [hmem]
    obtain ⟨y, j, hj, -⟩ := b.exists_mem
    constructor
    · intro h
      obtain ⟨i, hi, -, -, hv⟩ := h.resolve_left IntervalSet.not_mem_empty
      exact ⟨i, hi, hv⟩
    · rintro ⟨i, hi, hv⟩
      exact .inr ⟨i, hi, j, hj, hv⟩
  have hle : ∀ v ∈ t, v ≤ genMask (a.nBits + b.nBits) := fun v hv =>
    (SValue.le_genMask ((hta v).mp hv)).trans (genMask_mono (by omega))
  rw [concat, if_neg (by simp [ha, hb]), ht]
  simp only [Option.bind_eq_bind, Option.bind_some]
  constructor
  · intro h y hy
    obtain ⟨x, hx⟩ := a.exists_mem
    obtain ⟨hxy, -⟩ := SValue.contains_intervals.mp (h x hx y hy)
    have hlt := SValue.lt_two_pow hn ((hta _).mp hxy)
    by_contra hne
    have hle : 2 ^ a.nBits ≤ 2 ^ a.nBits * y := Nat.le_mul_of_pos_right _ (by omega)
    omega
  · intro h x hx y hy
    rw [h y hy, Nat.mul_zero, Nat.add_zero]
    exact SValue.contains_intervals.mpr ⟨(hta x).mpr hx, hle⟩

/-- A narrower value keeps the members that fit, whatever the others are cut to. -/
theorem unsignedExtend_sound_iff {w : Nat} (hn : a.nBits ≤ 64) (ha : a.isBottom = false) :
    (∀ x ∈ a, SValue.Contains (unsignedExtend a w) w (x % 2 ^ w)) ↔
      (w < a.nBits → ∀ x ∈ a, x % 2 ^ w ∈ a) := by
  by_cases hw : w < a.nBits
  · have hmem : ∀ v, v ∈ a.intervals.eraseHull (shl1 w) (genMask a.nBits) ↔ v ∈ a ∧ v < 2 ^ w := by
      intro v
      have hpow : 2 ^ w < 2 ^ a.nBits := Nat.pow_lt_pow_right (by omega) hw
      rw [IntervalSet.mem_eraseHull, shl1_eq (by omega), genMask_eq hn, Interval.mem_hull (by omega),
        SValue.mem_iff]
      refine and_congr_right fun hv => ?_
      have hlt := SValue.lt_two_pow hn hv
      omega
    rw [unsignedExtend, if_neg (by omega), if_neg (by simp [ha]), if_pos hw]
    simp only [SValue.contains_intervals, hmem]
    refine ⟨fun h _ x hx => (h x hx).1.1, fun h x hx =>
      ⟨⟨h hw x hx, Nat.mod_lt _ (Nat.two_pow_pos w)⟩, fun v hv => ?_⟩⟩
    exact (IntegerOps.le_genMask (by omega)).mpr hv.2
  · refine ⟨fun _ h => absurd h hw, fun _ x hx => ?_⟩
    obtain ⟨r, hr, hrn, hrb, hmem⟩ := unsignedExtend_wide (by omega : a.nBits ≤ w) ha
    have hlt : x < 2 ^ w :=
      (SValue.lt_two_pow hn hx).trans_le (Nat.pow_le_pow_right (by omega) (by omega))
    rw [Nat.mod_eq_of_lt hlt]
    exact ⟨r, hr, hrn, hrb, (hmem x).mpr hx⟩

/-- A number of some bits as it is after sign extension. -/
def signExtended (n w v : Nat) : Nat := v + if 2 ^ (n - 1) ≤ v then 2 ^ w - 2 ^ n else 0

theorem signExtend2_eq {w v : Nat} (hpos : 0 < n) (hnw : n < w) (hw : w ≤ 64) (hv : v < 2 ^ n) :
    signExtend2 v n w = some (signExtended n w v) := by
  rw [signExtend2, if_pos ⟨by omega, hw⟩, signBit2_eq hpos (by omega), Option.map_some,
    testBit_top hpos hv, signExtended]
  simp only [decide_eq_true_eq]
  split
  next =>
    have hmask := genMask_xor (l := n) (h := w - 1) (by omega) (by omega)
    rw [Nat.sub_add_cancel (by omega)] at hmask
    have hhigh : 2 ^ w - 2 ^ n = 2 ^ n * (2 ^ (w - n) - 1) := by
      rw [Nat.mul_sub, ← pow_add, mul_one]
      congr 2
      omega
    rw [hmask, hhigh, Nat.or_comm, ← Nat.two_pow_add_eq_or_of_lt hv, Nat.add_comm]
  next => rw [Nat.or_zero, Nat.add_zero]

theorem toNat_signExtend {w v : Nat} (hpos : 0 < n) (hnw : n ≤ w) (hv : v < 2 ^ n) :
    ((BitVec.ofNat n v).signExtend w).toNat = signExtended n w v := by
  have hvw : v < 2 ^ w := hv.trans_le (Nat.pow_le_pow_right (by omega) hnw)
  rw [BitVec.toNat_signExtend, BitVec.toNat_setWidth, BitVec.toNat_ofNat, Nat.mod_eq_of_lt hv,
    Nat.mod_eq_of_lt hvw, BitVec.msb_eq_getLsbD_last, BitVec.getLsbD_ofNat,
    decide_eq_true (by omega : n - 1 < n), Bool.true_and, testBit_top hpos hv, signExtended]
  simp only [decide_eq_true_eq]

theorem signExtended_lt {w v : Nat} (hnw : n ≤ w) (hv : v < 2 ^ n) : signExtended n w v < 2 ^ w := by
  have hpow : 2 ^ n ≤ 2 ^ w := Nat.pow_le_pow_right (by omega) hnw
  rw [signExtended]
  split <;> omega

/-- The top bit of an extended number is that of the number. -/
theorem signExtended_sign {w v : Nat} (hpos : 0 < n) (hnw : n < w) (hv : v < 2 ^ n) :
    2 ^ (w - 1) ≤ signExtended n w v ↔ 2 ^ (n - 1) ≤ v := by
  have hhalf : 2 ^ n = 2 * 2 ^ (n - 1) := by
    rw [← pow_succ', Nat.sub_add_cancel hpos]
  have hhalf' : 2 ^ w = 2 * 2 ^ (w - 1) := by
    rw [← pow_succ', Nat.sub_add_cancel (by omega)]
  have hpow : 2 ^ n ≤ 2 ^ (w - 1) := Nat.pow_le_pow_right (by omega) (by omega)
  rw [signExtended]
  split <;> omega

theorem signExtendInterval_spec {w : Nat} (hpos : 0 < n) (hnw : n < w) (hw : w ≤ 64) {i : Interval}
    (hi : i.lo ≤ i.hi ∧ i.hi < 2 ^ n) (r : IntervalSet) :
    ∃ t, signExtendInterval n w r i = some t ∧ ∀ v, v ∈ t ↔ v ∈ r ∨
      if i.lo < 2 ^ (n - 1) ∧ 2 ^ (n - 1) ≤ i.hi then
        i.lo ≤ v ∧ v < 2 ^ (n - 1) ∨ 2 ^ (n - 1) ≤ v ∧ v ≤ signExtended n w i.hi
      else signExtended n w i.lo ≤ v ∧ v ≤ signExtended n w i.hi := by
  obtain ⟨hle, hlt⟩ := hi
  have hlow : i.lo < 2 ^ n := by omega
  have hsign : ∀ v, v < 2 ^ n → (signExtended n w v &&& shl1 (w - 1) ≠ 0 ↔ 2 ^ (n - 1) ≤ v) := by
    intro v hv
    rw [and_shl1 (by omega), testBit_top (by omega) (signExtended_lt (by omega) hv),
      decide_eq_true_eq, signExtended_sign hpos hnw hv]
  have hslo := hsign i.lo hlow
  have hshi := hsign i.hi hlt
  have hhalf := Nat.two_pow_pos (n - 1)
  rw [signExtendInterval, signExtend2_eq hpos hnw hw hlow, signExtend2_eq hpos hnw hw hlt,
    shl1_eq (by omega : n - 1 < 64), genMask_eq (by omega : n - 1 ≤ 64)]
  simp only [Option.bind_eq_bind, Option.bind_some]
  by_cases hcross : i.lo < 2 ^ (n - 1) ∧ 2 ^ (n - 1) ≤ i.hi
  · have hlo : signExtended n w i.lo = i.lo := by
      rw [signExtended, if_neg (by omega), Nat.add_zero]
    have hhi : i.hi ≤ signExtended n w i.hi := Nat.le_add_right _ _
    rw [if_pos ⟨not_not.mp (mt hslo.mp (by omega)), hshi.mpr hcross.2⟩]
    refine ⟨_, rfl, fun v => ?_⟩
    rw [if_pos hcross, hlo, IntervalSet.mem_insertHull, IntervalSet.mem_insertHull,
      Interval.mem_hull (by omega), Interval.mem_hull (by omega), ← or_assoc, or_comm]
    exact or_congr_right (by omega)
  · have hneg : ¬(signExtended n w i.lo &&& shl1 (w - 1) = 0 ∧
        signExtended n w i.hi &&& shl1 (w - 1) ≠ 0) := by
      rw [hshi]
      rintro ⟨hzero, hge⟩
      have hlo := mt hslo.mpr (not_not.mpr hzero)
      omega
    have hmono : signExtended n w i.lo ≤ signExtended n w i.hi := by
      rw [signExtended, signExtended]
      split <;> split <;> omega
    rw [if_neg hneg]
    refine ⟨_, rfl, fun v => ?_⟩
    rw [if_neg hcross, IntervalSet.mem_insertHull, Interval.mem_hull hmono, or_comm]

theorem signExtend_sound {w : Nat} (hpos : 0 < a.nBits) (hw : w ≤ 64) (haw : a.nBits < w)
    (ha : a.isBottom = false) (hx : x ∈ a) :
    SValue.Contains (signExtend a w) w ((BitVec.ofNat a.nBits x).signExtend w).toNat := by
  have hn : a.nBits ≤ 64 := by omega
  have hxn := SValue.lt_two_pow hn hx
  obtain ⟨t, ht, hmem⟩ := IntervalSet.mem_foldlM (s := .empty) fun s i hi =>
    signExtendInterval_spec hpos haw hw (interval_lt hn hi) s
  rw [toNat_signExtend hpos haw.le hxn, signExtend, if_neg (by omega), if_neg (by simp [ha]), ht]
  refine SValue.contains_intervals.mpr ⟨?_, fun v hv => ?_⟩
  · obtain ⟨i, hi, hlo, hhi⟩ := hx
    refine (hmem _).mpr (.inr ⟨i, hi, ?_⟩)
    simp only [signExtended]
    split_ifs <;> omega
  · rw [IntegerOps.le_genMask hw]
    obtain ⟨i, hi, hv⟩ := ((hmem v).mp hv).resolve_left IntervalSet.not_mem_empty
    have hlt := signExtended_lt haw.le (interval_lt hn hi).2
    have hpow : 2 ^ (a.nBits - 1) < 2 ^ w := Nat.pow_lt_pow_right (by omega) (by omega)
    split at hv <;> omega

end LoomX.IntervalSemantics
