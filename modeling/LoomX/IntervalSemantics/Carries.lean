import LoomX.IntervalSemantics.Addition

namespace LoomX.IntervalSemantics

open IntegerOps

/-- The word whose bits are the carries out of the bits of an addition. -/
def carryWord (n x y z : Nat) : Nat :=
  Nat.ofBits fun i : Fin n => BitVec.carry (i + 1) (.ofNat n x) (.ofNat n y) (z.testBit 0)

/-- How many operands are known to have a bit set. -/
def knownSum (a b c : SValue) (i : Nat) : Nat := bitSum (knownBits a) (knownBits b) (knownBits c) i

/-- How many operands are not known, and may have a bit set. -/
def unkwnSum (a b c : SValue) (i : Nat) : Nat := bitSum (unkwnBits a) (unkwnBits b) (unkwnBits c) i

/-- Whether some lower bit is known to be set in two operands. -/
def generated (a b c : SValue) (i : Nat) : Bool :=
  (List.range i).any fun j => 2 ≤ knownSum a b c j

/-- With a carry into it from every bit above one that is known to be set twice, and into no other,
whether a carry comes out of a bit is open. -/
def Undecided (a b c : SValue) (i : Nat) : Prop :=
  knownSum a b c i + (generated a b c i).toNat ≤ 1 ∧
    2 ≤ knownSum a b c i + (generated a b c i).toNat + unkwnSum a b c i

variable {a b c : SValue} {n m i x y z : Nat}

theorem shiftRight_and_one (x i : Nat) : x >>> i &&& 1 = (x.testBit i).toNat := by
  rw [Nat.toNat_testBit, Nat.and_one_is_mod, Nat.shiftRight_eq_div_pow]

theorem bitSum_eq (x y z i : Nat) :
    bitSum x y z i = (x.testBit i).toNat + (y.testBit i).toNat + (z.testBit i).toNat := by
  simp only [bitSum, shiftRight_and_one]

theorem toNat_le {p q : Bool} (h : p = true → q = true) : p.toNat ≤ q.toNat := by
  cases p <;> cases q <;> simp_all

/-- The bits of a known operand are those of its only member. -/
theorem knownBits_le (hx : x ∈ a) : ((knownBits a).testBit i).toNat ≤ (x.testBit i).toNat := by
  rw [knownBits]
  cases h : a.toUnsigned with
  | none => simp
  | some v =>
    rw [(SValue.toUnsigned_mem h x).mp hx]
    exact le_rfl

theorem le_knownBits_add (hn : a.nBits ≤ 64) (hx : x ∈ a) :
    (x.testBit i).toNat ≤ ((knownBits a).testBit i).toNat + ((unkwnBits a).testBit i).toNat := by
  rw [knownBits, unkwnBits]
  cases h : a.toUnsigned with
  | none =>
    rw [Option.isSome_none, if_neg Bool.false_ne_true]
    refine (toNat_le fun hbit => ?_).trans (Nat.le_add_left _ _)
    exact (testBit_possibleBits hn (lt_of_testBit (SValue.lt_two_pow hn hx) hbit)).mpr ⟨x, hx, hbit⟩
  | some v =>
    rw [(SValue.toUnsigned_mem h x).mp hx]
    exact Nat.le_add_right _ _

theorem knownSum_le (hx : x ∈ a) (hy : y ∈ b) (hz : z ∈ c) : knownSum a b c i ≤ bitSum x y z i := by
  rw [knownSum, bitSum_eq, bitSum_eq]
  exact Nat.add_le_add (Nat.add_le_add (knownBits_le hx) (knownBits_le hy)) (knownBits_le hz)

theorem bitSum_le (ha : a.nBits ≤ 64) (hb : b.nBits ≤ 64) (hc : c.nBits ≤ 64) (hx : x ∈ a)
    (hy : y ∈ b) (hz : z ∈ c) : bitSum x y z i ≤ knownSum a b c i + unkwnSum a b c i := by
  have hxi := le_knownBits_add (i := i) ha hx
  have hyi := le_knownBits_add (i := i) hb hy
  have hzi := le_knownBits_add (i := i) hc hz
  rw [knownSum, unkwnSum, bitSum_eq, bitSum_eq, bitSum_eq]
  omega

theorem atLeastTwo_iff (p q r : Bool) :
    Bool.atLeastTwo p q r = true ↔ 2 ≤ p.toNat + q.toNat + r.toNat := by
  cases p <;> cases q <;> cases r <;> decide

/-- The carry into a bit of an addition. -/
def carryIn (n x y z i : Nat) : Bool :=
  BitVec.carry i (BitVec.ofNat n x) (BitVec.ofNat n y) (z.testBit 0)

/-- A carry comes out of a bit where at least two of its inputs are set. -/
theorem carryIn_succ (hi : i < n) : carryIn n x y z (i + 1) = true ↔
    2 ≤ (x.testBit i).toNat + (y.testBit i).toNat + (carryIn n x y z i).toNat := by
  rw [carryIn, BitVec.carry_succ, atLeastTwo_iff, BitVec.getLsbD_ofNat, BitVec.getLsbD_ofNat,
    decide_eq_true hi, Bool.true_and, Bool.true_and, carryIn]

theorem testBit_carryWord (hi : i < n) :
    (carryWord n x y z).testBit i = carryIn n x y z (i + 1) := by
  rw [carryWord, Nat.testBit_ofBits_lt _ _ hi, carryIn]

/-- The bits that go into a carry besides the operands': the carry in is an operand of bit 0. -/
theorem carry_of_bitSum (hz : z < 2) (hi : i < n) : carryIn n x y z (i + 1) = true ↔
    2 ≤ bitSum x y z i + if i = 0 then 0 else (carryIn n x y z i).toNat := by
  rw [carryIn_succ hi, bitSum_eq]
  cases i with
  | zero => simp [carryIn]
  | succ i =>
    have hbit : z.testBit (i + 1) = false :=
      Nat.testBit_lt_two_pow (hz.trans_le (Nat.le_self_pow (by omega) 2))
    simp [hbit]

theorem carryScan_succ : carryScan a b c (m + 1) = (carryScan a b c m).step a b c m := by
  rw [carryScan, List.range_succ, List.foldl_append]
  rfl

theorem step_eq (s : CarryScan) (i : Nat) : s.step a b c i =
    if 1 < knownSum a b c i + (if s.cin = .cTrue then 1 else 0) then
      { s with knownCo := s.knownCo ||| shl1 i, cin := .cTrue }
    else if 1 < knownSum a b c i + (if s.cin = .cTrue then 1 else 0) +
        (unkwnSum a b c i + if s.cin = .cUnknown then 1 else 0) then
      { s with unkwnCo := s.unkwnCo ||| shl1 i, cin := .cUnknown }
    else s := rfl

/-- A step adds the bit to the known or to the possible carries, or to neither. -/
theorem step_cases (a b c : SValue) (s : CarryScan) (i : Nat) :
    s.step a b c i = { s with knownCo := s.knownCo ||| shl1 i, cin := .cTrue } ∨
      s.step a b c i = { s with unkwnCo := s.unkwnCo ||| shl1 i, cin := .cUnknown } ∨
      s.step a b c i = s := by
  rw [step_eq]
  generalize (if s.cin = .cTrue then 1 else 0) = fromTrue
  split
  · exact .inl rfl
  · generalize (if s.cin = .cUnknown then 1 else 0) = fromUnknown
    split
    · exact .inr (.inl rfl)
    · exact .inr (.inr rfl)

/-- A carry of an addition of members is found, known or possible. -/
theorem carryScan_covers (ha : a.nBits ≤ 64) (hab : a.nBits = b.nBits) (hc : c.nBits = 1)
    (hx : x ∈ a) (hy : y ∈ b) (hz : z ∈ c) (hm : m ≤ a.nBits) :
    (∀ i < m, carryIn a.nBits x y z (i + 1) = true →
      ((carryScan a b c m).knownCo ||| (carryScan a b c m).unkwnCo).testBit i = true) ∧
      (m ≠ 0 → carryIn a.nBits x y z m = true → (carryScan a b c m).cin ≠ .cFalse) := by
  have hz2 : z < 2 := by simpa [hc] using SValue.lt_two_pow (hc ▸ by omega) hz
  induction m with
  | zero => simp
  | succ m ih =>
    obtain ⟨hbits, hcin⟩ := ih (by omega)
    have hle := bitSum_le (i := m) ha (hab ▸ ha) (by omega) hx hy hz
    have hcarry := carry_of_bitSum (n := a.nBits) (x := x) (y := y) hz2 (i := m) (by omega)
    have hin : (if m = 0 then 0 else (carryIn a.nBits x y z m).toNat) ≤
        (if (carryScan a b c m).cin = .cTrue then 1 else 0) +
          if (carryScan a b c m).cin = .cUnknown then 1 else 0 := by
      split
      next => omega
      next hne =>
        cases hbit : carryIn a.nBits x y z m with
        | false => simp
        | true =>
          have hcin := hcin hne hbit
          cases hstate : (carryScan a b c m).cin with
          | cFalse => exact absurd hstate hcin
          | cTrue => simp
          | cUnknown => simp
    rw [carryScan_succ, step_eq]
    generalize carryScan a b c m = s at hbits hcin hin ⊢
    generalize (if s.cin = .cTrue then 1 else 0) = fromTrue at hin ⊢
    generalize (if s.cin = .cUnknown then 1 else 0) = fromUnknown at hin ⊢
    have hold : ∀ bits : Nat, (∀ k, (s.knownCo ||| s.unkwnCo).testBit k = true → bits.testBit k = true) →
        bits.testBit m = true → ∀ i < m + 1, carryIn a.nBits x y z (i + 1) = true →
          bits.testBit i = true := by
      intro bits hsub hset i hi hout
      rcases Nat.lt_succ_iff_lt_or_eq.mp hi with hi | rfl
      · exact hsub i (hbits i hi hout)
      · exact hset
    split
    next =>
      refine ⟨hold _ (fun k hk => ?_) ?_, fun _ _ => by simp⟩
      · rw [Nat.testBit_or, Bool.or_eq_true] at hk ⊢
        exact hk.imp_left fun hk => by rw [testBit_or_shl1 (by omega), hk]; rfl
      · rw [Nat.testBit_or, testBit_or_shl1 (by omega)]
        simp
    next hknown =>
      split
      next =>
        refine ⟨hold _ (fun k hk => ?_) ?_, fun _ _ => by simp⟩
        · rw [Nat.testBit_or, Bool.or_eq_true] at hk ⊢
          exact hk.imp_right fun hk => by rw [testBit_or_shl1 (by omega), hk]; rfl
        · rw [Nat.testBit_or, testBit_or_shl1 (by omega)]
          simp
      next hunkwn =>
        have hnone : ¬carryIn a.nBits x y z (m + 1) = true := by
          rw [hcarry]
          omega
        refine ⟨fun i hi hout => ?_, fun _ hout => absurd hout hnone⟩
        rcases Nat.lt_succ_iff_lt_or_eq.mp hi with hi | rfl
        · exact hbits i hi hout
        · exact absurd hout hnone

theorem carryScan_lt (hn : a.nBits ≤ 64) (hm : m ≤ a.nBits) :
    (carryScan a b c m).knownCo < 2 ^ a.nBits ∧ (carryScan a b c m).unkwnCo < 2 ^ a.nBits := by
  induction m with
  | zero => exact ⟨Nat.two_pow_pos _, Nat.two_pow_pos _⟩
  | succ m ih =>
    obtain ⟨hknown, hunkwn⟩ := ih (by omega)
    have hbit : shl1 m < 2 ^ a.nBits := by
      rw [shl1_eq (by omega)]
      exact Nat.pow_lt_pow_right (by omega) hm
    rw [carryScan_succ]
    rcases step_cases a b c (carryScan a b c m) m with h | h | h <;> rw [h]
    · exact ⟨Nat.or_lt_two_pow hknown hbit, hunkwn⟩
    · exact ⟨hknown, Nat.or_lt_two_pow hunkwn hbit⟩
    · exact ⟨hknown, hunkwn⟩

theorem generated_succ : generated a b c (m + 1) = (generated a b c m || decide (2 ≤ knownSum a b c m)) := by
  rw [generated, List.range_succ, List.any_append, generated]
  simp

/-- As long as nothing is undecided, the scan knows every carry. -/
theorem carryScan_decided (hm : m ≤ 64) (h : ∀ i < m, ¬Undecided a b c i) :
    (carryScan a b c m).unkwnCo = 0 ∧
      (carryScan a b c m).cin = (if generated a b c m then .cTrue else .cFalse) ∧
      ∀ i, (carryScan a b c m).knownCo.testBit i = true ↔
        i < m ∧ 2 ≤ knownSum a b c i + (generated a b c i).toNat := by
  induction m with
  | zero => simp [carryScan, generated]
  | succ m ih =>
    obtain ⟨hunkwn, hcin, hknown⟩ := ih (by omega) fun i hi => h i (by omega)
    have hdecided := h m (by omega)
    rw [Undecided, not_and_or, not_le, not_le] at hdecided
    have htrue : (if (carryScan a b c m).cin = .cTrue then 1 else 0) =
        (generated a b c m).toNat := by
      rw [hcin]
      cases generated a b c m <;> rfl
    have hfalse : (if (carryScan a b c m).cin = .cUnknown then 1 else 0) = 0 := by
      rw [hcin]
      cases generated a b c m <;> rfl
    rw [carryScan_succ, step_eq, htrue, hfalse, Nat.add_zero]
    have hbits : ∀ i, i < m + 1 ↔ i < m ∨ m = i := by omega
    split
    next hset =>
      refine ⟨hunkwn, ?_, fun i => ?_⟩
      · have hgen : generated a b c (m + 1) = true := by
          rw [generated_succ]
          cases hg : generated a b c m with
          | false =>
            rw [hg, Bool.toNat_false] at hset
            rw [Bool.false_or, decide_eq_true_eq]
            omega
          | true => rfl
        rw [hgen, if_pos rfl]
      · rw [testBit_or_shl1 (by omega), Bool.or_eq_true, hknown, decide_eq_true_eq, hbits, or_and_right]
        refine or_congr_right ⟨?_, fun h => h.1⟩
        rintro rfl
        exact ⟨rfl, hset⟩
    next hclear =>
      rw [if_neg (by omega)]
      refine ⟨hunkwn, ?_, fun i => ?_⟩
      · rw [hcin, generated_succ, decide_eq_false (by omega), Bool.or_false]
      · rw [hknown, hbits, or_and_right]
        refine ⟨.inl, fun h => h.resolve_right ?_⟩
        rintro ⟨rfl, h⟩
        omega

/-- A possible carry stays one. -/
theorem carryScan_undecided (hm : m ≤ 64) (h : ∃ i < m, Undecided a b c i) :
    (carryScan a b c m).unkwnCo ≠ 0 := by
  induction m with
  | zero =>
    obtain ⟨i, hi, -⟩ := h
    omega
  | succ m ih =>
    have hor : ∀ bits : Nat, bits ||| shl1 m ≠ 0 := by
      intro bits hzero
      have hbit : (bits ||| shl1 m).testBit m = (bits.testBit m || decide (m = m)) :=
        testBit_or_shl1 (by omega)
      rw [hzero] at hbit
      simp at hbit
    rw [carryScan_succ]
    by_cases hold : ∃ i < m, Undecided a b c i
    · have hne := ih (by omega) hold
      rcases step_cases a b c (carryScan a b c m) m with h | h | h <;> rw [h]
      · exact hne
      · exact hor _
      · exact hne
    · obtain ⟨i, hi, hundecided⟩ := h
      have him : i = m := by
        by_contra hne
        exact hold ⟨i, by omega, hundecided⟩
      subst him
      obtain ⟨-, hcin, -⟩ := carryScan_decided (by omega : i ≤ 64)
        fun j hj hu => hold ⟨j, hj, hu⟩
      have htrue : (if (carryScan a b c i).cin = .cTrue then 1 else 0) =
          (generated a b c i).toNat := by
        rw [hcin]
        cases generated a b c i <;> rfl
      obtain ⟨hle, hge⟩ := hundecided
      rw [step_eq, htrue, if_neg (by omega), if_pos (by omega)]
      exact hor _

/-- A position known to be set once, above one known to be set twice, has a carry out of it in every
addition of members, unless a carry is open. -/
def CarriesKept (a b c : SValue) : Prop :=
  (∃ i < a.nBits, Undecided a b c i) ∨ ∀ x ∈ a, ∀ y ∈ b, ∀ z ∈ c, ∀ i < a.nBits,
    generated a b c i = true → knownSum a b c i = 1 → carryIn a.nBits x y z (i + 1) = true

/-- The results of addition, negation and complement hold the members' results and carries. -/
structure AdditionSound (a b c : SValue) : Prop where
  add : ∀ x ∈ a, ∀ y ∈ b, SValue.Contains (add a b) a.nBits ((x + y) % 2 ^ a.nBits)
  negate : ∀ x ∈ a, SValue.Contains (negate a) a.nBits (-BitVec.ofNat a.nBits x).toNat
  invert : ∀ x ∈ a, SValue.Contains (invert a) a.nBits (~~~BitVec.ofNat a.nBits x).toNat
  addWithCarries : ∃ sum carryOut, addWithCarries a b c = some (sum, some carryOut) ∧
    sum.nBits = a.nBits ∧ carryOut.nBits = a.nBits ∧ ∀ x ∈ a, ∀ y ∈ b, ∀ z ∈ c,
      (x + y + z) % 2 ^ a.nBits ∈ sum ∧ carryWord a.nBits x y z ∈ carryOut

theorem addWithCarries_eq (hn : a.nBits ≤ 64) (hpos : 0 < a.nBits) (hab : a.nBits = b.nBits)
    (hc : c.nBits = 1) (ha : a.isBottom = false) (hb : b.isBottom = false)
    (hc' : c.isBottom = false) : ∃ sum, sum.nBits = a.nBits ∧
      (∀ x ∈ a, ∀ y ∈ b, ∀ z ∈ c, (x + y + z) % 2 ^ a.nBits ∈ sum) ∧
      addWithCarries a b c = if (carryScan a b c a.nBits).unkwnCo ≠ 0 then
          (SValue.instanceFromBits a.nBits ((carryScan a b c a.nBits).knownCo |||
            (carryScan a b c a.nBits).unkwnCo)).map fun carryOut => (sum, some carryOut)
        else some (sum, some (.number a.nBits (carryScan a b c a.nBits).knownCo)) := by
  obtain ⟨wide, hwide, hwn, hwb, hwmem⟩ := unsignedExtend_wide (a := c) (w := a.nBits) (by omega) hc'
  obtain ⟨ab, hadd, habn, habb, habmem⟩ := add_spec hn hab ha hb
  obtain ⟨sum, hsum, hsn, hsb, hsmem⟩ := add_spec (habn ▸ hn) (habn.trans hwn.symm) habb hwb
  rw [habn] at hsn hsmem
  refine ⟨sum, hsn, fun x hx y hy z hz => ?_, ?_⟩
  · have hmem := hsmem _ (habmem x hx y hy) z ((hwmem z).mpr hz)
    rwa [Nat.mod_add_mod] at hmem
  · rw [addWithCarries, if_neg (by simp [hab]), if_neg (by simp [hc]), if_neg (by simp [ha, hb, hc']),
      hwide, hadd]
    simp only [Option.bind_eq_bind, Option.bind_some, hsum]
    split
    · cases SValue.instanceFromBits a.nBits _ <;> rfl
    · rfl

theorem carryWord_lt (n x y z : Nat) : carryWord n x y z < 2 ^ n := Nat.ofBits_lt_two_pow _

/-- Where every carry is decided, the ones missed are those of positions known to be set once. -/
theorem carryWord_eq_known_iff (hn : a.nBits ≤ 64) (hab : a.nBits = b.nBits) (hc : c.nBits = 1)
    (hdecided : ∀ i < a.nBits, ¬Undecided a b c i) (hx : x ∈ a) (hy : y ∈ b) (hz : z ∈ c) :
    carryWord a.nBits x y z = (carryScan a b c a.nBits).knownCo ↔ ∀ i < a.nBits,
      generated a b c i = true → knownSum a b c i = 1 → carryIn a.nBits x y z (i + 1) = true := by
  obtain ⟨hunkwn, -, hknown⟩ := carryScan_decided hn hdecided
  obtain ⟨hcovers, -⟩ := carryScan_covers hn hab hc hx hy hz le_rfl
  rw [hunkwn, Nat.or_zero] at hcovers
  have hz2 : z < 2 := by simpa [hc] using SValue.lt_two_pow (hc ▸ by omega) hz
  constructor
  · intro heq i hi hgen hsum
    rw [← testBit_carryWord hi, heq, hknown, hgen, hsum]
    exact ⟨hi, le_rfl⟩
  · intro h
    refine Nat.eq_of_testBit_eq fun i => ?_
    by_cases hi : i < a.nBits
    · rw [testBit_carryWord hi, Bool.eq_iff_iff]
      refine ⟨hcovers i hi, fun hbit => ?_⟩
      obtain ⟨-, hset⟩ := (hknown i).mp hbit
      have hle := knownSum_le (i := i) hx hy hz
      by_cases htwo : 2 ≤ knownSum a b c i
      · rw [carry_of_bitSum hz2 hi]
        omega
      · cases hgen : generated a b c i with
        | false =>
          rw [hgen, Bool.toNat_false] at hset
          omega
        | true =>
          rw [hgen, Bool.toNat_true] at hset
          exact h i hi hgen (by omega)
    · have hlow := carryScan_lt (c := c) (b := b) hn (le_refl a.nBits)
      have hle : 2 ^ a.nBits ≤ 2 ^ i := Nat.pow_le_pow_right (by omega) (by omega)
      rw [Nat.testBit_lt_two_pow ((carryWord_lt _ _ _ _).trans_le hle),
        Nat.testBit_lt_two_pow (hlow.1.trans_le hle)]

/-- The sum always holds the members' sums, and the carries out do when they are kept. -/
theorem addWithCarries_sound_iff (hn : a.nBits ≤ 64) (hpos : 0 < a.nBits) (hab : a.nBits = b.nBits)
    (hc : c.nBits = 1) (ha : a.isBottom = false) (hb : b.isBottom = false)
    (hc' : c.isBottom = false) :
    (∃ sum carryOut, addWithCarries a b c = some (sum, some carryOut) ∧
      sum.nBits = a.nBits ∧ carryOut.nBits = a.nBits ∧ ∀ x ∈ a, ∀ y ∈ b, ∀ z ∈ c,
        (x + y + z) % 2 ^ a.nBits ∈ sum ∧ carryWord a.nBits x y z ∈ carryOut) ↔
      CarriesKept a b c := by
  obtain ⟨sum, hsn, hsum, heq⟩ := addWithCarries_eq hn hpos hab hc ha hb hc'
  by_cases hopen : ∃ i < a.nBits, Undecided a b c i
  · refine ⟨fun _ => .inl hopen, fun _ => ?_⟩
    rw [if_pos (carryScan_undecided hn hopen)] at heq
    obtain ⟨hknown, hunkwn⟩ := carryScan_lt (c := c) (b := b) hn (le_refl a.nBits)
    obtain ⟨w, hw, hwn, -, hmem⟩ := instanceFromBits_spec hn (Nat.or_lt_two_pow hknown hunkwn)
    rw [hw] at heq
    refine ⟨sum, w, heq, hsn, hwn, fun x hx y hy z hz => ⟨hsum x hx y hy z hz, ?_⟩⟩
    refine (hmem _).mpr (.inl fun k hk => ?_)
    have hkn := lt_of_testBit (carryWord_lt _ _ _ _) hk
    rw [testBit_carryWord hkn] at hk
    exact (carryScan_covers hn hab hc hx hy hz le_rfl).1 k hkn hk
  · have hdecided : ∀ i < a.nBits, ¬Undecided a b c i := fun i hi hu => hopen ⟨i, hi, hu⟩
    obtain ⟨hunkwn, -, -⟩ := carryScan_decided hn hdecided
    rw [if_neg (by simp [hunkwn])] at heq
    have hlow := carryScan_lt (c := c) (b := b) hn (le_refl a.nBits)
    have hmem : ∀ w, w ∈ SValue.number a.nBits (carryScan a b c a.nBits).knownCo ↔
        w = (carryScan a b c a.nBits).knownCo := by
      intro w
      rw [SValue.mem_number_of_le hn, Nat.mod_eq_of_lt hlow.1]
    constructor
    · rintro ⟨sum', w, hw, -, -, hall⟩
      rw [heq] at hw
      obtain ⟨rfl, rfl⟩ : sum = sum' ∧ SValue.number a.nBits _ = w := by simpa using hw
      refine .inr fun x hx y hy z hz => ?_
      exact (carryWord_eq_known_iff hn hab hc hdecided hx hy hz).mp
        ((hmem _).mp (hall x hx y hy z hz).2)
    · intro hkept
      have hkept := hkept.resolve_left hopen
      refine ⟨sum, _, heq, hsn, rfl, fun x hx y hy z hz => ⟨hsum x hx y hy z hz, ?_⟩⟩
      exact (hmem _).mpr ((carryWord_eq_known_iff hn hab hc hdecided hx hy hz).mpr
        (hkept x hx y hy z hz))

/-- Addition and complement are sound but for carries that have died out. -/
theorem additionSound_iff (hn : a.nBits ≤ 64) (hpos : 0 < a.nBits) (hab : a.nBits = b.nBits)
    (hc : c.nBits = 1) (ha : a.isBottom = false) (hb : b.isBottom = false)
    (hc' : c.isBottom = false) : AdditionSound a b c ↔ CarriesKept a b c := by
  rw [← addWithCarries_sound_iff hn hpos hab hc ha hb hc']
  refine ⟨AdditionSound.addWithCarries, fun h => ⟨fun x hx y hy => ?_,
    fun x hx => negate_sound hn ha hx, fun x hx => invert_sound hn ha hx, h⟩⟩
  obtain ⟨r, hr, hrn, hrb, hmem⟩ := add_spec hn hab ha hb
  exact ⟨r, hr, hrn, hrb, hmem x hx y hy⟩

theorem additionSound_three : AdditionSound (.number 4 3) (.number 4 1) (.number 1 0) ↔
    CarriesKept (.number 4 3) (.number 4 1) (.number 1 0) :=
  additionSound_iff (by decide) (by decide) rfl rfl rfl rfl rfl

theorem deadCarry_missed : ¬AdditionSound (.number 4 5) (.number 4 1) (.number 1 0) := by
  rintro ⟨-, -, -, sum, carryOut, heq, -, -, hall⟩
  have hfive : (addWithCarries (.number 4 5) (.number 4 1) (.number 1 0)).map
      (fun r => r.2.map fun carryOut => carryOut.intervals.intervals) = some (some [⟨5, 5⟩]) := by
    decide
  rw [heq] at hfive
  have hcarries : carryOut.intervals.intervals = [⟨5, 5⟩] := by simpa using hfive
  obtain ⟨-, i, hi, hmem⟩ := hall 5 (by decide) 1 (by decide) 0 (by decide)
  rw [hcarries, List.mem_singleton] at hi
  subst hi
  revert hmem
  decide

end LoomX.IntervalSemantics
