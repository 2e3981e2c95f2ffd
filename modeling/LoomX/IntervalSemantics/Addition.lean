import LoomX.IntervalSemantics.Bits

namespace LoomX.IntervalSemantics

open IntegerOps

/-- The complements of an interval's numbers. -/
def invertInterval (mask : Nat) (result : IntervalSet) (interval : Interval) : IntervalSet :=
  result.insertHull (inv interval.hi &&& mask) (inv interval.lo &&& mask)

def invert (a : SValue) : Option SValue :=
  if a.isBottom then some (.instanceBottom a.nBits)
  else
    SValue.instanceIntervals a.nBits
      (a.intervals.intervals.foldl (invertInterval (genMask a.nBits)) .empty)

def unsignedExtend (a : SValue) (newWidth : Nat) : Option SValue :=
  if a.nBits = newWidth then some a
  else if a.isBottom then some (.instanceBottom a.nBits)
  else if newWidth < a.nBits then
    SValue.instanceIntervals newWidth (a.intervals.eraseHull (shl1 newWidth) (genMask a.nBits))
  else SValue.instanceIntervals newWidth a.intervals

/-- The sums of two intervals' numbers, cut off at a mask. -/
def addIntervals (mask : Nat) (result : IntervalSet) (av bv : Interval) : IntervalSet :=
  let lo := u64 (av.lo + bv.lo) &&& mask
  let hi := u64 (av.hi + bv.hi) &&& mask
  if lo < av.lo ∨ lo < bv.lo then result.insertHull lo hi
  else if hi < av.hi ∨ hi < bv.hi then (result.insertHull lo mask).insertHull 0 hi
  else result.insertHull lo hi

def add (a b : SValue) : Option SValue :=
  if a.nBits ≠ b.nBits then none
  else if a.isBottom || b.isBottom then some (.instanceBottom a.nBits)
  else
    SValue.instanceIntervals a.nBits (a.intervals.intervals.foldl (fun result av =>
      b.intervals.intervals.foldl (fun result bv => addIntervals (genMask a.nBits) result av bv)
        result) .empty)

/-- The negatives of an interval's numbers, with the assertions on its ends. -/
def negateInterval (mask : Nat) (result : IntervalSet) (iv : Interval) : Option IntervalSet :=
  let lo := neg iv.hi &&& mask
  let hi := neg iv.lo &&& mask
  if hi = 0 then
    if iv.lo ≠ 0 then none
    else if lo ≠ 0 then
      if iv.hi = 0 then none else some ((result.insert 0).insertHull lo mask)
    else some (result.insert 0)
  else if hi < lo then none
  else some (result.insertHull lo hi)

def negate (a : SValue) : Option SValue :=
  if a.isBottom then some (.instanceBottom a.nBits)
  else do
    let result ← a.intervals.intervals.foldlM (negateInterval (genMask a.nBits)) .empty
    SValue.instanceIntervals a.nBits result

inductive Carry where
  | cFalse
  | cTrue
  | cUnknown
  deriving DecidableEq

/-- The carry into the next bit, and the known and the possible carries so far. -/
structure CarryScan where
  cin : Carry
  knownCo : Nat
  unkwnCo : Nat

/-- The bits of a value that is known, or the bits that may be set in one that is not. -/
def knownBits (v : SValue) : Nat := v.toUnsigned.getD 0

def unkwnBits (v : SValue) : Nat := if v.toUnsigned.isSome then 0 else v.possibleBits

/-- How many of three numbers have a bit set. -/
def bitSum (x y z i : Nat) : Nat := (x >>> i &&& 1) + (y >>> i &&& 1) + (z >>> i &&& 1)

def CarryScan.step (a b c : SValue) (s : CarryScan) (i : Nat) : CarryScan :=
  let knownSum := bitSum (knownBits a) (knownBits b) (knownBits c) i +
    if s.cin = .cTrue then 1 else 0
  let unkwnSum := bitSum (unkwnBits a) (unkwnBits b) (unkwnBits c) i +
    if s.cin = .cUnknown then 1 else 0
  if 1 < knownSum then { s with knownCo := s.knownCo ||| shl1 i, cin := .cTrue }
  else if 1 < knownSum + unkwnSum then { s with unkwnCo := s.unkwnCo ||| shl1 i, cin := .cUnknown }
  else s

/-- The state of the scan for carries after some bits. -/
def carryScan (a b c : SValue) (n : Nat) : CarryScan :=
  (List.range n).foldl (CarryScan.step a b c) ⟨.cFalse, 0, 0⟩

/-- The sum, and the carries out of each bit unless an operand is bottom. -/
def addWithCarries (a b c : SValue) : Option (SValue × Option SValue) :=
  if a.nBits ≠ b.nBits then none
  else if c.nBits ≠ 1 then none
  else if a.isBottom || b.isBottom || c.isBottom then some (.instanceBottom a.nBits, none)
  else do
    let wideCarry ← unsignedExtend c a.nBits
    let sum ← add a b
    let retval ← add sum wideCarry
    let scan := carryScan a b c a.nBits
    if scan.unkwnCo ≠ 0 then
      let carryOut ← SValue.instanceFromBits a.nBits (scan.knownCo ||| scan.unkwnCo)
      some (retval, some carryOut)
    else some (retval, some (.number a.nBits scan.knownCo))

variable {a b c : SValue}

/-- The ends of an interval of a value fit its width. -/
theorem interval_lt (hn : a.nBits ≤ 64) {i : Interval} (hi : i ∈ a.intervals.intervals) :
    i.lo ≤ i.hi ∧ i.hi < 2 ^ a.nBits :=
  ⟨a.intervals.nonempty i hi,
    SValue.lt_two_pow hn (a := i.hi) ⟨i, hi, a.intervals.nonempty i hi, le_rfl⟩⟩

theorem invert_sound (hn : a.nBits ≤ 64) (ha : a.isBottom = false) {x : Nat} (hx : x ∈ a) :
    SValue.Contains (invert a) a.nBits (~~~BitVec.ofNat a.nBits x).toNat := by
  have hxn := SValue.lt_two_pow hn hx
  have hone : ∀ s : IntervalSet, ∀ i ∈ a.intervals.intervals, ∀ y,
      y ∈ invertInterval (genMask a.nBits) s i ↔
        y ∈ s ∨ 2 ^ a.nBits - 1 - i.hi ≤ y ∧ y ≤ 2 ^ a.nBits - 1 - i.lo := by
    intro s i hi y
    obtain ⟨hle, hlt⟩ := interval_lt hn hi
    rw [invertInterval, IntervalSet.mem_insertHull, inv_and_genMask hn hlt,
      inv_and_genMask hn (by omega), Interval.mem_hull (by omega), or_comm]
  rw [BitVec.toNat_not, BitVec.toNat_ofNat, Nat.mod_eq_of_lt hxn, invert, if_neg (by simp [ha])]
  refine SValue.contains_intervals.mpr ⟨?_, fun y hy => ?_⟩
  · rw [IntervalSet.mem_foldl hone]
    obtain ⟨i, hi, hlo, hhi⟩ := hx
    exact .inr ⟨i, hi, by omega, by omega⟩
  · rw [IntervalSet.mem_foldl hone] at hy
    obtain ⟨i, -, -, hle⟩ := hy.resolve_left IntervalSet.not_mem_empty
    rw [IntegerOps.le_genMask hn]
    omega

theorem neg_mod {n y : Nat} (hy : y < 2 ^ n) :
    (2 ^ n - y) % 2 ^ n = if y = 0 then 0 else 2 ^ n - y := by
  split
  next h => rw [h, Nat.sub_zero, Nat.mod_self]
  next h => exact Nat.mod_eq_of_lt (by omega)

theorem negateInterval_spec {n : Nat} (hn : n ≤ 64) {i : Interval} (hle : i.lo ≤ i.hi)
    (hlt : i.hi < 2 ^ n) (s : IntervalSet) :
    ∃ t, negateInterval (genMask n) s i = some t ∧ ∀ y, y ∈ t ↔
      y ∈ s ∨ (i.lo = 0 ∧ y = 0 ∨ y < 2 ^ n ∧ 2 ^ n - i.hi ≤ y ∧ y ≤ 2 ^ n - i.lo) := by
  rw [negateInterval]
  rw [neg_and_genMask hn hlt, neg_and_genMask hn (hle.trans_lt hlt), neg_mod hlt,
    neg_mod (hle.trans_lt hlt), genMask_eq hn]
  by_cases hlo : i.lo = 0
  · by_cases hhi : i.hi = 0
    · refine ⟨s.insert 0, by simp [hlo, hhi], fun y => ?_⟩
      rw [IntervalSet.mem_insert, hlo, hhi, or_comm]
      refine or_congr_right ⟨fun h => .inl ⟨rfl, h⟩, ?_⟩
      rintro (h | h) <;> omega
    · refine ⟨(s.insert 0).insertHull (2 ^ n - i.hi) (2 ^ n - 1), ?_, fun y => ?_⟩
      · rw [if_pos hlo, if_pos rfl, if_neg (by omega), if_neg hhi, if_pos (by omega), if_neg hhi]
      · rw [IntervalSet.mem_insertHull, IntervalSet.mem_insert, Interval.mem_hull (by omega),
          ← or_assoc, or_comm]
        refine or_congr_right ⟨?_, ?_⟩
        · rintro (h | h) <;> omega
        · rintro (h | h) <;> omega
  · refine ⟨s.insertHull (2 ^ n - i.hi) (2 ^ n - i.lo), ?_, fun y => ?_⟩
    · rw [if_neg hlo, if_neg (by omega : ¬i.hi = 0), if_neg (by omega), if_neg (by omega)]
    · rw [IntervalSet.mem_insertHull, Interval.mem_hull (by omega), or_comm]
      refine or_congr_right ⟨fun h => .inr ⟨by omega, h⟩, ?_⟩
      rintro (h | h) <;> omega

theorem negate_sound (hn : a.nBits ≤ 64) (ha : a.isBottom = false) {x : Nat} (hx : x ∈ a) :
    SValue.Contains (negate a) a.nBits (-BitVec.ofNat a.nBits x).toNat := by
  have hxn := SValue.lt_two_pow hn hx
  obtain ⟨t, ht, hmem⟩ := IntervalSet.mem_foldlM (s := .empty) fun s i hi =>
    negateInterval_spec hn (interval_lt hn hi).1 (interval_lt hn hi).2 s
  rw [BitVec.toNat_neg, BitVec.toNat_ofNat, Nat.mod_eq_of_lt hxn, neg_mod hxn, negate,
    if_neg (by simp [ha]), ht]
  refine SValue.contains_intervals.mpr ⟨?_, fun y hy => ?_⟩
  · rw [hmem]
    obtain ⟨i, hi, hlo, hhi⟩ := hx
    refine .inr ⟨i, hi, ?_⟩
    split
    next h => exact .inl ⟨by omega, rfl⟩
    next h => exact .inr ⟨by omega, by omega, by omega⟩
  · rw [IntegerOps.le_genMask hn]
    obtain ⟨i, -, h⟩ := ((hmem y).mp hy).resolve_left IntervalSet.not_mem_empty
    rcases h with h | h
    · rw [h.2]
      exact Nat.two_pow_pos _
    · exact h.1

theorem add_and_genMask {n x y : Nat} (hn : n ≤ 64) (hx : x < 2 ^ n) (hy : y < 2 ^ n) :
    u64 (x + y) &&& genMask n = if x + y < 2 ^ n then x + y else x + y - 2 ^ n := by
  rw [and_genMask hn, u64_mod hn]
  split
  next h => exact Nat.mod_eq_of_lt h
  next h => rw [Nat.mod_eq_sub_mod (by omega), Nat.mod_eq_of_lt (by omega)]

/-- The sums of two intervals' numbers, as far as they fit and as far as they wrap. -/
theorem mem_addIntervals {n : Nat} (hn : n ≤ 64) {i j : Interval} (hi : i.lo ≤ i.hi ∧ i.hi < 2 ^ n)
    (hj : j.lo ≤ j.hi ∧ j.hi < 2 ^ n) (s : IntervalSet) (y : Nat) :
    y ∈ addIntervals (genMask n) s i j ↔ y ∈ s ∨ y < 2 ^ n ∧
      (i.lo + j.lo ≤ y ∧ y ≤ i.hi + j.hi ∨ i.lo + j.lo ≤ y + 2 ^ n ∧ y + 2 ^ n ≤ i.hi + j.hi) := by
  obtain ⟨hi, hi'⟩ := hi
  obtain ⟨hj, hj'⟩ := hj
  rw [addIntervals, add_and_genMask hn (by omega) (by omega), add_and_genMask hn hi' hj',
    genMask_eq hn]
  by_cases hlo : i.lo + j.lo < 2 ^ n
  · rw [if_pos hlo, if_neg (by omega)]
    by_cases hhi : i.hi + j.hi < 2 ^ n
    · rw [if_pos hhi, if_neg (by omega), IntervalSet.mem_insertHull, Interval.mem_hull (by omega),
        or_comm]
      exact or_congr_right (by omega)
    · rw [if_neg hhi, if_pos (by omega), IntervalSet.mem_insertHull, IntervalSet.mem_insertHull,
        Interval.mem_hull (by omega), Interval.mem_hull (by omega), ← or_assoc, or_comm]
      exact or_congr_right (by omega)
  · rw [if_neg hlo, if_pos (by omega), if_neg (by omega), IntervalSet.mem_insertHull,
      Interval.mem_hull (by omega), or_comm]
    exact or_congr_right (by omega)

theorem add_spec (hn : a.nBits ≤ 64) (hab : a.nBits = b.nBits) (ha : a.isBottom = false)
    (hb : b.isBottom = false) : ∃ r, add a b = some r ∧ r.nBits = a.nBits ∧ r.isBottom = false ∧
      ∀ x ∈ a, ∀ y ∈ b, (x + y) % 2 ^ a.nBits ∈ r := by
  have hbn : ∀ j ∈ b.intervals.intervals, j.lo ≤ j.hi ∧ j.hi < 2 ^ a.nBits := by
    intro j hj
    rw [hab]
    exact interval_lt (hab ▸ hn) hj
  have hmem : ∀ z, z ∈ a.intervals.intervals.foldl (fun result av => b.intervals.intervals.foldl
      (fun result bv => addIntervals (genMask a.nBits) result av bv) result) .empty ↔
      z ∈ IntervalSet.empty ∨ ∃ i ∈ a.intervals.intervals, ∃ j ∈ b.intervals.intervals,
        z < 2 ^ a.nBits ∧ (i.lo + j.lo ≤ z ∧ z ≤ i.hi + j.hi ∨
          i.lo + j.lo ≤ z + 2 ^ a.nBits ∧ z + 2 ^ a.nBits ≤ i.hi + j.hi) := by
    exact fun z => IntervalSet.mem_foldl_foldl fun s i hi j hj z =>
      mem_addIntervals hn (interval_lt hn hi) (hbn j hj) s z
  have hsum : ∀ x ∈ a, ∀ y ∈ b, (x + y) % 2 ^ a.nBits ∈ a.intervals.intervals.foldl
      (fun result av => b.intervals.intervals.foldl
        (fun result bv => addIntervals (genMask a.nBits) result av bv) result) .empty := by
    intro x hx y hy
    have hxn := SValue.lt_two_pow hn hx
    have hyn := SValue.lt_two_pow (hab ▸ hn) hy
    rw [← hab] at hyn
    rw [hmem, ← u64_mod hn, ← and_genMask hn, add_and_genMask hn hxn hyn]
    obtain ⟨i, hi, hx, hx'⟩ := hx
    obtain ⟨j, hj, hy, hy'⟩ := hy
    refine .inr ⟨i, hi, j, hj, ?_⟩
    split <;> omega
  obtain ⟨x, hx⟩ := a.exists_mem
  obtain ⟨y, hy⟩ := b.exists_mem
  obtain ⟨r, hr, hrn, hrb, hrmem⟩ := SValue.instanceIntervals_spec (n := a.nBits)
    ⟨_, hsum x hx y hy⟩ fun z hz => by
      obtain ⟨i, -, j, -, hlt, -⟩ := ((hmem z).mp hz).resolve_left IntervalSet.not_mem_empty
      exact (IntegerOps.le_genMask hn).mpr hlt
  rw [add, if_neg (by simp [hab]), if_neg (by simp [ha, hb])]
  exact ⟨r, hr, hrn, hrb, fun x hx y hy => (hrmem _).mpr (hsum x hx y hy)⟩

theorem unsignedExtend_wide {w : Nat} (hw : a.nBits ≤ w) (ha : a.isBottom = false) :
    ∃ r, unsignedExtend a w = some r ∧ r.nBits = w ∧ r.isBottom = false ∧ ∀ x, x ∈ r ↔ x ∈ a := by
  rw [unsignedExtend]
  split
  next h => exact ⟨a, rfl, h, ha, fun x => Iff.rfl⟩
  next h =>
    rw [if_neg (by simp [ha]), if_neg (by omega)]
    exact SValue.instanceIntervals_spec a.exists_mem fun x hx =>
      (SValue.le_genMask hx).trans (genMask_mono hw)

end LoomX.IntervalSemantics
