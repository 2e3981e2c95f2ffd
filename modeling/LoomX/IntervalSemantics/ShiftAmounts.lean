import LoomX.IntervalSemantics.Bitwise

namespace LoomX.IntervalSemantics

open IntegerOps

def u64Sub (x y : Nat) : Nat := u64 (x + neg y)

/-- The bits set for some amount below the width. No more are sought once all are set. -/
def overAmounts (nbits : Nat) (amounts : IntervalSet) (term : Nat → Option Nat) : Option Nat :=
  (List.range nbits).foldlM (fun rbits i =>
    if rbits ≠ genMask nbits ∧ i ∈ amounts then (term i).map (rbits ||| ·) else some rbits) 0

/-- Operators that compute once on two constants, and else on the possible bits for each amount. -/
def byAmount (constant term : Nat → Nat → Option Nat) (a b : SValue) : Option SValue :=
  if a.isBottom || b.isBottom then some (.instanceBottom a.nBits)
  else match a.toUnsigned, b.toUnsigned with
    | some aNum, some bNum => (constant aNum bNum).map (.number a.nBits)
    | _, _ => do
      let rbits ← overAmounts a.nBits b.intervals (term a.possibleBits)
      SValue.instanceFromBits a.nBits rbits

def rotateLeftBits (nbits abits i : Nat) : Option Nat := do
  let high ← shl abits i
  let low ← shr abits (u64Sub nbits i)
  some ((high &&& genMask nbits) ||| (low &&& genMask i))

def rotateLeft (a b : SValue) : Option SValue :=
  byAmount (rotateLeftBits a.nBits) (rotateLeftBits a.nBits) a b

def rotateRightBits (nbits abits i : Nat) : Option Nat := do
  let low ← shr abits i
  let high ← shl abits (u64Sub nbits i)
  some ((low &&& genMask (u64Sub nbits i)) ||| (high &&& genMask nbits))

def rotateRight (a b : SValue) : Option SValue :=
  byAmount (rotateRightBits a.nBits) (rotateRightBits a.nBits) a b

def shiftLeft (a b : SValue) : Option SValue :=
  byAmount (fun aNum bNum => if bNum < a.nBits then shl aNum bNum else some 0)
    (fun abits i => (shl abits i).map (· &&& genMask a.nBits)) a b

def shiftRight (a b : SValue) : Option SValue :=
  if a.isBottom || b.isBottom then some (.instanceBottom a.nBits)
  else match b.toUnsigned with
    | some bNum =>
      if a.nBits ≤ bNum then some (.number a.nBits 0)
      else match a.toUnsigned with
        | some aNum => (shr aNum bNum).map (.number a.nBits)
        | none => do
          let result ← a.intervals.intervals.foldlM (fun result av => do
            let lo ← shr av.lo bNum
            let hi ← shr av.hi bNum
            some (result.insertHull lo hi)) IntervalSet.empty
          SValue.instanceIntervals a.nBits result
    | none => do
      let result ← a.intervals.intervals.foldlM (fun result av =>
        (List.range a.nBits).foldlM (fun result i =>
          if i ∈ b.intervals then do
            let lo ← shr av.lo i
            let hi ← shr av.hi i
            some (result.insertHull lo hi)
          else some result) result) IntervalSet.empty
      SValue.instanceIntervals a.nBits result

/-- The bits above those shifted down, where the sign bit is set. -/
def signFill (nbits abits i : Nat) : Option Nat :=
  (signBit2 abits nbits).map fun sign =>
    if sign then genMask nbits ^^^ genMask (u64Sub nbits i) else 0

def shiftRightArithmetic (a b : SValue) : Option SValue :=
  byAmount
    (fun aNum bNum => do
      let result ← shr aNum bNum
      let fill ← signFill a.nBits aNum bNum
      some (result ||| fill))
    (fun abits i => do
      let result ← shr abits i
      let fill ← signFill a.nBits abits i
      some ((result &&& genMask (u64Sub a.nBits i)) ||| fill)) a b

variable {n x y k : Nat}

theorem u64Sub_of_le (hx : x < 2 ^ 64) (h : y ≤ x) : u64Sub x y = x - y := by
  rw [u64Sub, neg, u64, u64]
  omega

/-- A difference below 0 wraps to an amount too great to shift by. -/
theorem u64Sub_of_lt (hy : y < 64) (h : x < y) : 64 ≤ u64Sub x y := by
  rw [u64Sub, neg, u64, u64]
  omega

theorem shr_eq (hy : y < 64) : shr x y = some (x >>> y) := if_pos hy

theorem shl_eq (hy : y < 64) : shl x y = some (u64 (x <<< y)) := if_pos hy

theorem testBit_and_genMask (hn : n ≤ 64) :
    (x &&& genMask n).testBit k = (decide (k < n) && x.testBit k) := by
  rw [Nat.testBit_and, testBit_genMask hn, Bool.and_comm]

theorem testBit_u64 (x k : Nat) : (u64 x).testBit k = (decide (k < 64) && x.testBit k) :=
  Nat.testBit_mod_two_pow x 64 k

theorem testBit_of_ge (hx : x < 2 ^ n) (hk : n ≤ k) : x.testBit k = false :=
  Nat.testBit_lt_two_pow (hx.trans_le (Nat.pow_le_pow_right (by omega) hk))

theorem testBit_ofNat (n x k : Nat) : (BitVec.ofNat n x).getLsbD k = (decide (k < n) && x.testBit k) :=
  BitVec.getLsbD_ofNat n x k

theorem rotateLeftBits_of_le (hn : n ≤ 64) (hyn : y ≤ n) (hy : y < 64) (hny : n - y < 64) :
    rotateLeftBits n x y = some ((BitVec.ofNat n x).rotateLeft y).toNat := by
  rw [rotateLeftBits, u64Sub_of_le (by omega) hyn, shl_eq hy, shr_eq hny]
  simp only [Option.bind_eq_bind, Option.bind_some, Option.some.injEq]
  refine Nat.eq_of_testBit_eq fun k => ?_
  rw [BitVec.testBit_toNat, BitVec.getLsbD_rotateLeft, testBit_ofNat, testBit_ofNat, Nat.testBit_or,
    testBit_and_genMask hn, testBit_and_genMask (by omega), testBit_u64, Nat.testBit_shiftLeft,
    Nat.testBit_shiftRight]
  rcases hyn.lt_or_eq with hlt | rfl
  · rw [Nat.mod_eq_of_lt hlt]
    by_cases hk : k < y
    · have h1 : ¬y ≤ k := by omega
      have h2 : n - y + k < n := by omega
      simp [hk, h1, h2]
    · by_cases hkn : k < n
      · have h1 : y ≤ k := by omega
        have h2 : k < 64 := by omega
        have h3 : k - y < n := by omega
        simp [hk, hkn, h1, h2, h3]
      · simp [hk, hkn]
  · rw [Nat.mod_self]
    by_cases hk : k < y
    · have h1 : ¬y ≤ k := by omega
      simp [hk, h1]
    · simp [hk]

theorem rotateRightBits_of_le (hn : n ≤ 64) (hyn : y ≤ n) (hy : y < 64) (hny : n - y < 64) :
    rotateRightBits n x y = some ((BitVec.ofNat n x).rotateRight y).toNat := by
  rw [rotateRightBits, u64Sub_of_le (by omega) hyn, shl_eq hny, shr_eq hy]
  simp only [Option.bind_eq_bind, Option.bind_some, Option.some.injEq]
  refine Nat.eq_of_testBit_eq fun k => ?_
  rw [BitVec.testBit_toNat, BitVec.getLsbD_rotateRight, testBit_ofNat, testBit_ofNat, Nat.testBit_or,
    testBit_and_genMask hn, testBit_and_genMask (by omega), testBit_u64, Nat.testBit_shiftLeft,
    Nat.testBit_shiftRight]
  rcases hyn.lt_or_eq with hlt | rfl
  · rw [Nat.mod_eq_of_lt hlt]
    by_cases hk : k < n - y
    · have h1 : ¬n - y ≤ k := by omega
      have h2 : y + k < n := by omega
      simp [hk, h1, h2]
    · by_cases hkn : k < n
      · have h1 : n - y ≤ k := by omega
        have h2 : k < 64 := by omega
        have h3 : k - (n - y) < n := by omega
        simp [hk, hkn, h1, h2, h3]
      · simp [hk, hkn]
  · rw [Nat.mod_self]
    by_cases hk : k < y
    · have h1 : k < 64 := by omega
      simp [hk, h1]
    · simp [hk]

/-- The differences that a rotation can shift by. -/
theorem u64Sub_lt (hn : n ≤ 64) (hy : y < 64) (h : u64Sub n y < 64) : y ≤ n ∧ n - y < 64 := by
  rcases Nat.lt_or_ge n y with hny | hyn
  · have hwrap := u64Sub_of_lt hy hny
    omega
  · rw [u64Sub_of_le (by omega) hyn] at h
    exact ⟨hyn, h⟩

theorem rotateLeftBits_eq (hn : n ≤ 64) : rotateLeftBits n x y =
    if y ≤ n ∧ y < 64 ∧ n - y < 64 then some ((BitVec.ofNat n x).rotateLeft y).toNat else none := by
  split
  next h => exact rotateLeftBits_of_le hn h.1 h.2.1 h.2.2
  next h =>
    rw [rotateLeftBits, shl, shr]
    by_cases hy : y < 64
    · have hsub : ¬u64Sub n y < 64 := fun hlt => by
        have hle := u64Sub_lt hn hy hlt
        exact h ⟨hle.1, hy, hle.2⟩
      rw [if_pos hy, if_neg hsub]
      rfl
    · rw [if_neg hy]
      rfl

theorem rotateRightBits_eq (hn : n ≤ 64) : rotateRightBits n x y =
    if y ≤ n ∧ y < 64 ∧ n - y < 64 then some ((BitVec.ofNat n x).rotateRight y).toNat else none := by
  split
  next h => exact rotateRightBits_of_le hn h.1 h.2.1 h.2.2
  next h =>
    rw [rotateRightBits, shl, shr]
    by_cases hy : y < 64
    · have hsub : ¬u64Sub n y < 64 := fun hlt => by
        have hle := u64Sub_lt hn hy hlt
        exact h ⟨hle.1, hy, hle.2⟩
      rw [if_pos hy, if_neg hsub]
      rfl
    · rw [if_neg hy]
      rfl

theorem signFill_eq (hn : n ≤ 64) (hpos : 0 < n) (hy : y < 64) :
    ∃ fill, signFill n x y = some fill ∧ (y ≤ n → fill < 2 ^ n) ∧
      ∀ k < n, fill.testBit k = (decide (n ≤ k + y ∧ y ≤ n) && x.testBit (n - 1)) := by
  rw [signFill, signBit2_eq hpos hn, Option.map_some]
  cases x.testBit (n - 1) with
  | false => exact ⟨0, rfl, fun _ => Nat.two_pow_pos n, by simp⟩
  | true =>
    rw [if_pos rfl]
    refine ⟨_, rfl, fun hyn => ?_, fun k hk => ?_⟩
    · rw [u64Sub_of_le (by omega) hyn]
      exact Nat.xor_lt_two_pow ((IntegerOps.le_genMask hn).mp le_rfl)
        ((IntegerOps.le_genMask hn).mp (genMask_mono (Nat.sub_le n y)))
    · rw [Nat.testBit_xor, testBit_genMask hn, decide_eq_true hk, Bool.and_true]
      rcases Nat.lt_or_ge n y with hny | hyn
      · have hwrap := genMask_of_le (u64Sub_of_lt hy hny)
        rw [hwrap, Nat.testBit_two_pow_sub_one, decide_eq_true (by omega : k < 64),
          decide_eq_false (by omega)]
        rfl
      · rw [u64Sub_of_le (by omega) hyn, testBit_genMask (by omega)]
        by_cases hlow : k < n - y
        · rw [decide_eq_true hlow, decide_eq_false (by omega)]
          rfl
        · rw [decide_eq_false hlow, decide_eq_true (by omega)]
          rfl

theorem testBit_sshiftRight (hx : x < 2 ^ n) (hpos : 0 < n) :
    ((BitVec.ofNat n x).sshiftRight y).toNat.testBit k =
      (decide (k < n) && (x.testBit (y + k) || decide (n ≤ y + k) && x.testBit (n - 1))) := by
  rw [BitVec.testBit_toNat, BitVec.getLsbD_sshiftRight, BitVec.msb_eq_getLsbD_last, testBit_ofNat,
    testBit_ofNat]
  by_cases hk : k < n
  · have hnk : ¬n ≤ k := by omega
    by_cases hyk : y + k < n
    · have hge : ¬n ≤ y + k := by omega
      simp [hk, hnk, hyk, hge]
    · have hge : n ≤ y + k := by omega
      have hlast : n - 1 < n := by omega
      simp [hk, hnk, hyk, hge, hlast, testBit_of_ge hx hge]
  · simp [hk, not_lt.mp hk]

/-- What is shifted down, with or without a mask on it, and filled up with the sign. -/
theorem or_signFill_mod (hn : n ≤ 64) (hpos : 0 < n) (hx : x < 2 ^ n) (hy : y < 64) {low fill : Nat}
    (hfill : signFill n x y = some fill)
    (hlow : ∀ k < n, low.testBit k = x.testBit (y + k)) (hsign : y ≤ n ∨ x.testBit (n - 1) = false) :
    (low ||| fill) % 2 ^ n = ((BitVec.ofNat n x).sshiftRight y).toNat := by
  obtain ⟨fill', hfill', -, hbits⟩ := signFill_eq (x := x) hn hpos hy
  obtain rfl := Option.some.inj (hfill.symm.trans hfill')
  refine Nat.eq_of_testBit_eq fun k => ?_
  rw [Nat.testBit_mod_two_pow, testBit_sshiftRight hx hpos, Nat.testBit_or]
  by_cases hk : k < n
  · rw [hlow k hk, hbits k hk]
    rcases hsign with hyn | hsign
    · simp [hyn, Nat.add_comm]
    · simp [hsign]
  · simp [hk]

open IntegerOps

variable {a b : SValue} {n x y k : Nat} {f : Nat → Nat → Nat}

/-- Each bit of a result is a fixed bit of the operand, or always clear. -/
def CopiesBits (f : Nat → Nat → Nat) : Prop :=
  ∀ y k, ∃ (copied : Bool) (j : Nat), ∀ x, (f x y).testBit k = (copied && x.testBit j)

/-- A bit that some member of a value has after some amount below the width. -/
def ReachedBit (f : Nat → Nat → Nat) (a b : SValue) (k : Nat) : Prop :=
  ∃ x ∈ a, ∃ y ∈ b, y < a.nBits ∧ (f x y).testBit k = true

/-- The results of amounts from the width on are made of the bits that smaller amounts reach. -/
def AmountsCovered (f : Nat → Nat → Nat) (a b : SValue) : Prop :=
  ∀ x ∈ a, ∀ y ∈ b, a.nBits ≤ y →
    ∃ bits, (∀ k, bits.testBit k = true ↔ ReachedBit f a b k) ∧ Filled a.nBits bits (f x y)

theorem copiesBits_shiftLeft (n : Nat) : CopiesBits fun x y => (BitVec.ofNat n x <<< y).toNat := by
  intro y k
  refine ⟨decide (k < n) && !decide (k < y) && decide (k - y < n), k - y, fun x => ?_⟩
  rw [BitVec.testBit_toNat, BitVec.getLsbD_shiftLeft, testBit_ofNat]
  simp only [Bool.and_assoc]

theorem copiesBits_sshiftRight (n : Nat) :
    CopiesBits fun x y => ((BitVec.ofNat n x).sshiftRight y).toNat := by
  intro y k
  by_cases hyk : y + k < n
  · refine ⟨!decide (n ≤ k) && decide (y + k < n), y + k, fun x => ?_⟩
    rw [BitVec.testBit_toNat, BitVec.getLsbD_sshiftRight, testBit_ofNat, if_pos hyk, Bool.and_assoc]
  · refine ⟨!decide (n ≤ k) && decide (n - 1 < n), n - 1, fun x => ?_⟩
    rw [BitVec.testBit_toNat, BitVec.getLsbD_sshiftRight, if_neg hyk, BitVec.msb_eq_getLsbD_last,
      testBit_ofNat, Bool.and_assoc]

theorem copiesBits_rotateLeft (n : Nat) :
    CopiesBits fun x y => ((BitVec.ofNat n x).rotateLeft y).toNat := by
  intro y k
  by_cases hk : k < y % n
  · refine ⟨decide (n - y % n + k < n), n - y % n + k, fun x => ?_⟩
    rw [BitVec.testBit_toNat, BitVec.getLsbD_rotateLeft, testBit_ofNat, decide_eq_true hk, cond_true]
  · refine ⟨decide (k < n) && decide (k - y % n < n), k - y % n, fun x => ?_⟩
    rw [BitVec.testBit_toNat, BitVec.getLsbD_rotateLeft, testBit_ofNat, testBit_ofNat,
      decide_eq_false hk, cond_false, Bool.and_assoc]

theorem copiesBits_rotateRight (n : Nat) :
    CopiesBits fun x y => ((BitVec.ofNat n x).rotateRight y).toNat := by
  intro y k
  by_cases hk : k < n - y % n
  · refine ⟨decide (y % n + k < n), y % n + k, fun x => ?_⟩
    rw [BitVec.testBit_toNat, BitVec.getLsbD_rotateRight, testBit_ofNat, decide_eq_true hk, cond_true]
  · refine ⟨decide (k < n) && decide (k - (n - y % n) < n), k - (n - y % n), fun x => ?_⟩
    rw [BitVec.testBit_toNat, BitVec.getLsbD_rotateRight, testBit_ofNat, testBit_ofNat,
      decide_eq_false hk, cond_false, Bool.and_assoc]

/-- The loop over the amounts finds the bits of each, also where it stops early. -/
theorem overAmounts_spec (amounts : IntervalSet) {term : Nat → Option Nat} {t : Nat → Nat}
    (hn : n ≤ 64) (hterm : ∀ i < n, i ∈ amounts → term i = some (t i) ∧ t i < 2 ^ n) :
    ∃ bits, overAmounts n amounts term = some bits ∧ bits < 2 ^ n ∧
      ∀ k, bits.testBit k = true ↔ ∃ i < n, i ∈ amounts ∧ (t i).testBit k = true := by
  have hloop : ∀ m ≤ n, ∃ bits, (List.range m).foldlM (fun rbits i =>
      if rbits ≠ genMask n ∧ i ∈ amounts then (term i).map (rbits ||| ·) else some rbits) 0 =
        some bits ∧ bits < 2 ^ n ∧
      ∀ k, bits.testBit k = true ↔ ∃ i < m, i ∈ amounts ∧ (t i).testBit k = true := by
    intro m hm
    induction m with
    | zero => exact ⟨0, rfl, Nat.two_pow_pos n, by simp⟩
    | succ m ih =>
      obtain ⟨bits, hbits, hlt, hmem⟩ := ih (by omega)
      have hsplit : ∀ k, (∃ i < m + 1, i ∈ amounts ∧ (t i).testBit k = true) ↔
          bits.testBit k = true ∨ m ∈ amounts ∧ (t m).testBit k = true := by
        intro k
        rw [hmem]
        constructor
        · rintro ⟨i, hi, h⟩
          rcases Nat.lt_succ_iff_lt_or_eq.mp hi with hi | rfl
          · exact .inl ⟨i, hi, h⟩
          · exact .inr h
        · rintro (⟨i, hi, h⟩ | h)
          · exact ⟨i, by omega, h⟩
          · exact ⟨m, by omega, h⟩
      rw [List.range_succ, List.foldlM_append, hbits, Option.bind_eq_bind, Option.bind_some,
        List.foldlM_cons]
      split
      next hmore =>
        obtain ⟨hval, htlt⟩ := hterm m (by omega) hmore.2
        refine ⟨bits ||| t m, by rw [hval]; rfl, Nat.or_lt_two_pow hlt htlt, fun k => ?_⟩
        rw [hsplit, Nat.testBit_or, Bool.or_eq_true]
        exact or_congr_right ⟨fun h => ⟨hmore.2, h⟩, fun h => h.2⟩
      next hdone =>
        refine ⟨bits, rfl, hlt, fun k => ?_⟩
        rw [hsplit, eq_comm, iff_comm, or_iff_left_iff_imp]
        rintro ⟨hin, hset⟩
        have hfull : bits = genMask n := by
          by_contra hne
          exact hdone ⟨hne, hin⟩
        have hkn := lt_of_testBit (hterm m (by omega) hin).2 hset
        rw [hfull, testBit_genMask hn, decide_eq_true hkn]
  exact hloop n le_rfl

theorem overAmounts_eq_none {amounts : IntervalSet} {term : Nat → Option Nat} (hn : n ≤ 64)
    (hpos : 0 < n) (hin : 0 ∈ amounts) (hterm : term 0 = none) : overAmounts n amounts term = none := by
  obtain ⟨m, rfl⟩ := Nat.exists_eq_succ_of_ne_zero hpos.ne'
  have hmask : 0 ≠ genMask (m + 1) := by
    rw [genMask_eq hn]
    have hpow : 2 ^ 1 ≤ 2 ^ (m + 1) := Nat.pow_le_pow_right (by omega) (by omega)
    omega
  rw [overAmounts, Nat.succ_eq_add_one, List.range_succ_eq_map, List.foldlM_cons,
    if_pos ⟨hmask, hin⟩, hterm]
  rfl

/-- Two constants. -/
theorem byAmount_constant {constant term : Nat → Nat → Option Nat} (hn : a.nBits ≤ 64)
    (ha : a.isBottom = false) (hb : b.isBottom = false) (hx : a.toUnsigned = some x)
    (hy : b.toUnsigned = some y) :
    (∀ x ∈ a, ∀ y ∈ b, SValue.Contains (byAmount constant term a b) a.nBits (f x y)) ↔
      ∃ r, constant x y = some r ∧ r % 2 ^ a.nBits = f x y := by
  have hxmem := SValue.toUnsigned_mem hx
  have hymem := SValue.toUnsigned_mem hy
  rw [byAmount, if_neg (by simp [ha, hb]), hx, hy]
  simp only [hxmem, hymem, forall_eq]
  constructor
  · rintro h
    cases hr : constant x y with
    | none =>
      rw [hr] at h
      obtain ⟨w, hw, -⟩ := h
      cases hw
    | some r =>
      rw [hr, Option.map_some, contains_number hn] at h
      exact ⟨r, rfl, h.symm⟩
  · rintro ⟨r, hr, hmod⟩
    rw [hr, Option.map_some, contains_number hn, hmod]

/-- Operands that are not both constants. -/
theorem byAmount_bits {constant term : Nat → Nat → Option Nat} (ha : a.isBottom = false)
    (hb : b.isBottom = false) (hconst : a.toUnsigned = none ∨ b.toUnsigned = none) :
    byAmount constant term a b = (overAmounts a.nBits b.intervals (term a.possibleBits)).bind
      (SValue.instanceFromBits a.nBits) := by
  rw [byAmount, if_neg (by simp [ha, hb])]
  split
  next hx hy => simp [hx, hy] at hconst
  next => rfl

/-- The possible bits, shifted, are the bits of the shifted members. -/
theorem testBit_copied (hf : CopiesBits f) (hn : a.nBits ≤ 64) :
    (f a.possibleBits y).testBit k = true ↔ ∃ x ∈ a, (f x y).testBit k = true := by
  obtain ⟨copied, j, hcopy⟩ := hf y k
  simp only [hcopy, Bool.and_eq_true]
  constructor
  · rintro ⟨hcopied, hj⟩
    have hjn := lt_of_testBit (possibleBits_lt hn) hj
    obtain ⟨x, hx, hj⟩ := (testBit_possibleBits hn hjn).mp hj
    exact ⟨x, hx, hcopied, hj⟩
  · rintro ⟨x, hx, hcopied, hj⟩
    exact ⟨hcopied, testBit_possibleBits_of_mem hn hx hj⟩

/-- Where a term is the operator on bits, the loop finds the bits that amounts below the width
reach. -/
theorem overAmounts_reached (term : Nat → Option Nat) (hf : CopiesBits f)
    (hlt : ∀ x y, f x y < 2 ^ a.nBits) (hn : a.nBits ≤ 64)
    (hterm : ∀ i < a.nBits, i ∈ b → term i = some (f a.possibleBits i)) :
    ∃ bits, overAmounts a.nBits b.intervals term = some bits ∧ bits < 2 ^ a.nBits ∧
      ∀ k, bits.testBit k = true ↔ ReachedBit f a b k := by
  obtain ⟨bits, hbits, hbitsLt, hmem⟩ := overAmounts_spec b.intervals
    (t := f a.possibleBits) hn fun i hi hin => ⟨hterm i hi hin, hlt a.possibleBits i⟩
  refine ⟨bits, hbits, hbitsLt, fun k => ?_⟩
  rw [hmem]
  constructor
  · rintro ⟨i, hi, hin, hset⟩
    obtain ⟨x, hx, hset⟩ := (testBit_copied hf hn).mp hset
    exact ⟨x, hx, i, hin, hi, hset⟩
  · rintro ⟨x, hx, i, hin, hi, hset⟩
    exact ⟨i, hi, hin, (testBit_copied hf hn).mpr ⟨x, hx, hset⟩⟩

/-- An operator on operands that are not both constants is sound if the amounts that the loop leaves
out are covered. -/
theorem byAmount_sound_iff {constant term : Nat → Nat → Option Nat} (hf : CopiesBits f)
    (hlt : ∀ x y, f x y < 2 ^ a.nBits) (hn : a.nBits ≤ 64) (ha : a.isBottom = false)
    (hb : b.isBottom = false) (hconst : a.toUnsigned = none ∨ b.toUnsigned = none)
    (hterm : ∀ v < 2 ^ a.nBits, ∀ i < a.nBits, i ∈ b → term v i = some (f v i)) :
    (∀ x ∈ a, ∀ y ∈ b, SValue.Contains (byAmount constant term a b) a.nBits (f x y)) ↔
      AmountsCovered f a b := by
  obtain ⟨bits, hbits, hbitsLt, hreach⟩ := overAmounts_reached (term a.possibleBits) hf hlt hn
    fun i hi hin => hterm _ (possibleBits_lt hn) i hi hin
  rw [byAmount_bits ha hb hconst, hbits, Option.bind_some]
  simp only [contains_fromBits hn hbitsLt]
  constructor
  · exact fun h x hx y hy _ => ⟨bits, hreach, h x hx y hy⟩
  · intro h x hx y hy
    rcases Nat.lt_or_ge y a.nBits with hyn | hyn
    · exact .inl fun k hk => (hreach k).mpr ⟨x, hx, y, hy, hyn, hk⟩
    · obtain ⟨bits', hreach', hfilled⟩ := h x hx y hy hyn
      have heq : bits' = bits := Nat.eq_of_testBit_eq fun k => by
        rw [Bool.eq_iff_iff, hreach', hreach]
      exact heq ▸ hfilled

/-- Operands that are both constants. -/
theorem constants_of_not (h : ¬(a.toUnsigned = none ∨ b.toUnsigned = none)) :
    ∃ x y, a.toUnsigned = some x ∧ b.toUnsigned = some y := by
  rw [not_or, ← ne_eq, ← ne_eq, Option.ne_none_iff_exists', Option.ne_none_iff_exists'] at h
  obtain ⟨⟨x, hx⟩, y, hy⟩ := h
  exact ⟨x, y, hx, hy⟩

theorem toUnsigned_lt {v : SValue} (hn : v.nBits ≤ 64) (hx : v.toUnsigned = some x) :
    x < 2 ^ v.nBits := SValue.lt_two_pow hn ((SValue.toUnsigned_mem hx x).mpr rfl)

end LoomX.IntervalSemantics
