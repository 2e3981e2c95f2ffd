import LoomX.IntervalSemantics.Value

namespace LoomX.IntervalSemantics

open IntegerOps

/-- The least number from a bound on that has a bit the bound lacks. -/
def nextWithBit (lo k : Nat) : Nat := u64 ((lo &&& inv (genMask k)) + shl1 k)

theorem and_inv_genMask {x k : Nat} (hx : x < 2 ^ 64) (hk : k ≤ 64) :
    x &&& inv (genMask k) = 2 ^ k * (x / 2 ^ k) := by
  refine Nat.eq_of_testBit_eq fun i => ?_
  rw [inv, Nat.testBit_and, Nat.testBit_xor, testBit_genMask hk, Nat.testBit_two_pow_sub_one,
    Nat.testBit_two_pow_mul, Nat.testBit_div_two_pow]
  by_cases hik : k ≤ i
  · rw [decide_eq_false (by omega : ¬i < k), decide_eq_true hik, Nat.sub_add_cancel hik]
    by_cases hi : i < 64
    · simp [hi]
    · have hout : x.testBit i = false :=
        Nat.testBit_lt_two_pow (hx.trans_le (Nat.pow_le_pow_right (by omega) (by omega)))
      simp [hout]
  · have hi : i < 64 := by omega
    simp [hik, hi, not_le.mp hik]

/-- A number has a bit just where its quotient by the bit is odd. -/
theorem testBit_iff (x k : Nat) : x.testBit k = true ↔ x / 2 ^ k % 2 = 1 := by
  rw [Nat.testBit_eq_decide_div_mod_eq, decide_eq_true_eq]

theorem nextWithBit_eq {lo k : Nat} (hlo : lo < 2 ^ 64) (hk : k < 64) (hbit : lo.testBit k = false) :
    nextWithBit lo k = 2 ^ k * (lo / 2 ^ k + 1) := by
  rw [nextWithBit, and_inv_genMask hlo hk.le, shl1_eq hk]
  have hpow := two_pow_split hk.le
  have heven : 2 ^ (64 - k) = 2 * 2 ^ (63 - k) := by
    rw [← pow_succ']
    congr 1
    omega
  have hodd : ¬lo / 2 ^ k % 2 = 1 := by
    rw [← testBit_iff, hbit]
    exact Bool.false_ne_true
  have hquot : lo / 2 ^ k < 2 ^ (64 - k) := by
    rw [Nat.div_lt_iff_lt_mul (Nat.two_pow_pos k), Nat.mul_comm, ← hpow]
    exact hlo
  have hlt : 2 ^ k * (lo / 2 ^ k + 1) < 2 ^ 64 := by
    rw [hpow]
    exact Nat.mul_lt_mul_of_pos_left (by omega) (Nat.two_pow_pos k)
  rw [← Nat.mul_succ, u64_eq hlt]

theorem testBit_interval {i : Interval} {k : Nat} (hi : i.lo ≤ i.hi) (hlt : i.hi < 2 ^ 64)
    (hk : k < 64) :
    (i.lo.testBit k = true ∨ i.hi.testBit k = true ∨ nextWithBit i.lo k ∈ i) ↔
      ∃ a ∈ i, a.testBit k = true := by
  constructor
  · rintro (h | h | h)
    · exact ⟨i.lo, ⟨le_rfl, hi⟩, h⟩
    · exact ⟨i.hi, ⟨hi, le_rfl⟩, h⟩
    · by_cases hbit : i.lo.testBit k = true
      · exact ⟨i.lo, ⟨le_rfl, hi⟩, hbit⟩
      · refine ⟨_, h, ?_⟩
        rw [Bool.not_eq_true] at hbit
        have hodd : ¬i.lo / 2 ^ k % 2 = 1 := by
          rw [← testBit_iff, hbit]
          exact Bool.false_ne_true
        rw [nextWithBit_eq (hi.trans_lt hlt) hk hbit, testBit_iff,
          Nat.mul_div_cancel_left _ (Nat.two_pow_pos k)]
        omega
  · rintro ⟨a, ⟨hlo, hhi⟩, ha⟩
    by_cases hbit : i.lo.testBit k = true
    · exact .inl hbit
    · rw [Bool.not_eq_true] at hbit
      have hodd : ¬i.lo / 2 ^ k % 2 = 1 := by
        rw [← testBit_iff, hbit]
        exact Bool.false_ne_true
      rw [testBit_iff] at ha
      have hquot : i.lo / 2 ^ k ≤ a / 2 ^ k := Nat.div_le_div_right hlo
      have hbase := Nat.div_add_mod i.lo (2 ^ k)
      have hmod := Nat.mod_lt i.lo (Nat.two_pow_pos k)
      have hnext : 2 ^ k * (i.lo / 2 ^ k + 1) ≤ a := by
        calc 2 ^ k * (i.lo / 2 ^ k + 1) ≤ 2 ^ k * (a / 2 ^ k) :=
              Nat.mul_le_mul_left _ (by omega)
          _ ≤ a := Nat.mul_div_le a _
      refine .inr (.inr ?_)
      rw [nextWithBit_eq (hi.trans_lt hlt) hk hbit, Interval.mem_iff]
      rw [Nat.mul_succ] at hnext ⊢
      omega

theorem testBit_or_shl1 {bits k m : Nat} (hm : m < 64) :
    (bits ||| shl1 m).testBit k = (bits.testBit k || decide (m = k)) := by
  rw [shl1_eq hm, Nat.testBit_or, Nat.testBit_two_pow]

/-- A bit is found in an interval where it was found before, or a member has it. -/
theorem testBit_possibleBitsOf {nbits bits k : Nat} {i : Interval} (hn : nbits ≤ 64) (hk : k < nbits)
    (hi : i.lo ≤ i.hi) (hlt : i.hi < 2 ^ 64) :
    (SValue.possibleBitsOf nbits bits i).testBit k = true ↔
      bits.testBit k = true ∨ ∃ a ∈ i, a.testBit k = true := by
  have hfold : ∀ m ≤ nbits, ∀ start : Nat, ((List.range m).foldl (fun bits bitno =>
      if bits &&& shl1 bitno = 0 then
        if nextWithBit i.lo bitno ∈ i then bits ||| shl1 bitno else bits
      else bits) start).testBit k = true ↔
        start.testBit k = true ∨ k < m ∧ nextWithBit i.lo k ∈ i := by
    intro m hm start
    induction m with
    | zero => simp
    | succ m ih =>
      have ih := ih (by omega)
      rw [List.range_succ, List.foldl_append, List.foldl_cons, List.foldl_nil]
      generalize (List.range m).foldl _ start = bits at ih ⊢
      have hset := and_shl1 (n := m) (by omega) bits
      split
      next hzero =>
        rw [← not_iff_not, not_not] at hset
        have hclear := hset.mp hzero
        split
        next hmem =>
          rw [testBit_or_shl1 (by omega), Bool.or_eq_true, ih, decide_eq_true_eq]
          constructor
          · rintro ((h | h) | rfl)
            · exact .inl h
            · exact .inr ⟨by omega, h.2⟩
            · exact .inr ⟨by omega, hmem⟩
          · rintro (h | ⟨hlt, h⟩)
            · exact .inl (.inl h)
            · rcases Nat.lt_succ_iff_lt_or_eq.mp hlt with hlt | rfl
              · exact .inl (.inr ⟨hlt, h⟩)
              · exact .inr rfl
        next hmem =>
          rw [ih]
          refine or_congr_right ⟨fun h => ⟨by omega, h.2⟩, fun ⟨hlt, h⟩ => ⟨?_, h⟩⟩
          rcases Nat.lt_succ_iff_lt_or_eq.mp hlt with hlt | rfl
          · exact hlt
          · exact absurd h hmem
      next hzero =>
        have hbit := hset.mp hzero
        rw [ih]
        constructor
        · rintro (h | ⟨hlt, h⟩)
          · exact .inl h
          · exact .inr ⟨by omega, h⟩
        · rintro (h | ⟨hlt, h⟩)
          · exact .inl h
          · rcases Nat.lt_succ_iff_lt_or_eq.mp hlt with hlt | rfl
            · exact .inr ⟨hlt, h⟩
            · exact ih.mp hbit
  have hstart := hfold nbits le_rfl (bits ||| (i.lo ||| i.hi))
  rw [SValue.possibleBitsOf]
  refine hstart.trans ?_
  rw [← testBit_interval hi hlt (by omega), Nat.testBit_or, Nat.testBit_or, Bool.or_eq_true,
    Bool.or_eq_true]
  tauto

/-- The possible bits are those that some member has. -/
theorem testBit_possibleBits {v : SValue} {k : Nat} (hn : v.nBits ≤ 64) (hk : k < v.nBits) :
    v.possibleBits.testBit k = true ↔ ∃ a ∈ v, a.testBit k = true := by
  have hfold : ∀ (l : List Interval) (bits : Nat), (∀ i ∈ l, i.lo ≤ i.hi ∧ i.hi < 2 ^ 64) →
      ((l.foldl (SValue.possibleBitsOf v.nBits) bits).testBit k = true ↔
        bits.testBit k = true ∨ ∃ i ∈ l, ∃ a ∈ i, a.testBit k = true) := by
    intro l
    induction l with
    | nil => simp
    | cons i rest ih =>
      intro bits hl
      obtain ⟨⟨hi, hlt⟩, hrest⟩ := List.forall_mem_cons.mp hl
      rw [List.foldl_cons, ih _ hrest, testBit_possibleBitsOf hn hk hi hlt,
        List.exists_mem_cons_iff, or_assoc]
  rw [SValue.possibleBits, hfold _ _ fun i hi => ⟨v.intervals.nonempty i hi,
    SValue.lt_u64 (a := i.hi) ⟨i, hi, v.intervals.nonempty i hi, le_rfl⟩⟩]
  simp only [Nat.zero_testBit, Bool.false_eq_true, false_or]
  constructor
  · rintro ⟨i, hi, a, ha, hbit⟩
    exact ⟨a, ⟨i, hi, ha⟩, hbit⟩
  · rintro ⟨a, ⟨i, hi, ha⟩, hbit⟩
    exact ⟨i, hi, a, ha, hbit⟩

theorem possibleBitsOf_lt {nbits bits : Nat} {i : Interval} (hn : nbits ≤ 64) (hbits : bits < 2 ^ nbits)
    (hi : i.lo ≤ i.hi) (hlt : i.hi < 2 ^ nbits) : SValue.possibleBitsOf nbits bits i < 2 ^ nbits := by
  rw [SValue.possibleBitsOf]
  refine List.foldlRecOn (motive := fun bits => bits < 2 ^ nbits) (List.range nbits) _
    (Nat.or_lt_two_pow hbits (Nat.or_lt_two_pow (hi.trans_lt hlt) hlt)) fun bits hbits m hm => ?_
  have hm := List.mem_range.mp hm
  split
  · dsimp only
    split
    · refine Nat.or_lt_two_pow hbits ?_
      rw [shl1_eq (by omega)]
      exact Nat.pow_lt_pow_right (by omega) hm
    · exact hbits
  · exact hbits

theorem possibleBits_lt {v : SValue} (hn : v.nBits ≤ 64) : v.possibleBits < 2 ^ v.nBits := by
  rw [SValue.possibleBits]
  refine List.foldlRecOn (motive := fun bits => bits < 2 ^ v.nBits) v.intervals.intervals _
    (Nat.two_pow_pos _) fun bits hbits i hi => ?_
  have hne := v.intervals.nonempty i hi
  exact possibleBitsOf_lt hn hbits hne (SValue.lt_two_pow hn (a := i.hi) ⟨i, hi, hne, le_rfl⟩)

/-- The lowest and the highest bit of a number. -/
structure Ends (bits l h : Nat) : Prop where
  low : bits.testBit l = true
  high : bits.testBit h = true
  between : ∀ k, bits.testBit k = true → l ≤ k ∧ k ≤ h

/-- The numbers that possible bits stand for: those with no other bits, and where there are more
than a few, all up to one with every bit between the lowest and the highest. -/
def Filled (n bits x : Nat) : Prop :=
  (∀ k, x.testBit k = true → bits.testBit k = true) ∨
    6 ≤ (List.range n).countP bits.testBit ∧ ∃ l h, Ends bits l h ∧ x ≤ 2 ^ (h + 1) - 2 ^ l

theorem le_of_testBit {x y : Nat} (h : ∀ k, x.testBit k = true → y.testBit k = true) : x ≤ y := by
  have hand : x &&& y = x := by
    refine Nat.eq_of_testBit_eq fun k => ?_
    rw [Nat.testBit_and]
    have hk := h k
    cases hx : x.testBit k with
    | false => rfl
    | true => rw [hk hx]; rfl
  rw [← hand]
  exact Nat.and_le_right

theorem lt_of_testBit {n bits k : Nat} (hbits : bits < 2 ^ n) (hk : bits.testBit k = true) : k < n := by
  by_contra hge
  rw [Nat.testBit_lt_two_pow (hbits.trans_le (Nat.pow_le_pow_right (by omega) (by omega)))] at hk
  cases hk

/-- What a scan of the bits below a position has found. -/
structure RangeBelow (n bits m : Nat) (found : Nat × Nat × Nat) : Prop where
  count : found.1 = (List.range m).countP bits.testBit
  between : ∀ k < m, bits.testBit k = true → found.2.1 ≤ k ∧ k ≤ found.2.2
  ends : (∀ k < m, bits.testBit k = false) ∧ found.2 = (n, 0) ∨
    bits.testBit found.2.1 = true ∧ bits.testBit found.2.2 = true

theorem RangeBelow.set {n bits m nset lobit hibit : Nat} (h : RangeBelow n bits m (nset, lobit, hibit))
    (hm : m < n) (hbit : bits.testBit m = true) :
    RangeBelow n bits (m + 1) (nset + 1, min lobit m, max hibit m) where
  count := by
    rw [List.range_succ, List.countP_append, List.countP_singleton, if_pos hbit, ← h.count]
  between k hk hkb := by
    rcases Nat.lt_succ_iff_lt_or_eq.mp hk with hk | rfl
    · have hk := h.between k hk hkb
      dsimp only at hk ⊢
      omega
    · exact ⟨min_le_right _ _, le_max_right _ _⟩
  ends := by
    rcases h.ends with ⟨-, hnone⟩ | ⟨hlow, hhigh⟩
    · obtain ⟨rfl, rfl⟩ := Prod.mk.inj hnone
      dsimp only
      rw [min_eq_right hm.le, max_eq_right (Nat.zero_le m)]
      exact .inr ⟨hbit, hbit⟩
    · refine .inr ⟨?_, ?_⟩
      · dsimp only
        rcases min_choice lobit m with h | h <;> rw [h] <;> assumption
      · dsimp only
        rcases max_choice hibit m with h | h <;> rw [h] <;> assumption

theorem RangeBelow.clear {n bits m : Nat} {found : Nat × Nat × Nat} (h : RangeBelow n bits m found)
    (hbit : bits.testBit m = false) : RangeBelow n bits (m + 1) found where
  count := by
    rw [List.range_succ, List.countP_append, List.countP_singleton,
      if_neg (by rw [hbit]; exact Bool.false_ne_true), ← h.count, Nat.add_zero]
  between k hk hkb := by
    rcases Nat.lt_succ_iff_lt_or_eq.mp hk with hk | rfl
    · exact h.between k hk hkb
    · rw [hbit] at hkb
      cases hkb
  ends := by
    refine h.ends.imp_left fun hends => ⟨fun k hk => ?_, hends.2⟩
    rcases Nat.lt_succ_iff_lt_or_eq.mp hk with hk | rfl
    · exact hends.1 k hk
    · exact hbit

theorem rangeBelow_bitRange {n : Nat} (bits : Nat) (hn : n ≤ 64) :
    RangeBelow n bits n (SValue.bitRange n bits) := by
  obtain ⟨f, hrange, hf⟩ : ∃ f : Nat × Nat × Nat → Nat → Nat × Nat × Nat,
      SValue.bitRange n bits = (List.range n).foldl f (0, n, 0) ∧ ∀ found i, f found i =
        if bits &&& shl1 i ≠ 0 then (found.1 + 1, min found.2.1 i, max found.2.2 i) else found :=
    ⟨_, rfl, fun _ _ => rfl⟩
  have hscan : ∀ m ≤ n, RangeBelow n bits m ((List.range m).foldl f (0, n, 0)) := by
    intro m hm
    induction m with
    | zero => exact ⟨rfl, by simp, .inl ⟨by simp, rfl⟩⟩
    | succ m ih =>
      have hset := and_shl1 (n := m) (by omega) bits
      rw [List.range_succ, List.foldl_append, List.foldl_cons, List.foldl_nil, hf]
      split
      next h => exact (ih (by omega)).set (by omega) (hset.mp h)
      next h => exact (ih (by omega)).clear (Bool.eq_false_iff.mpr (mt hset.mpr h))
  rw [hrange]
  exact hscan n le_rfl

theorem bitRange_spec {n bits : Nat} (hn : n ≤ 64) (hbits : bits < 2 ^ n) :
    (SValue.bitRange n bits).1 = (List.range n).countP bits.testBit ∧
      (bits ≠ 0 → Ends bits (SValue.bitRange n bits).2.1 (SValue.bitRange n bits).2.2) := by
  have hrange := rangeBelow_bitRange bits hn
  refine ⟨hrange.count, fun hne => ?_⟩
  rcases hrange.ends with ⟨hnone, -⟩ | ⟨hlow, hhigh⟩
  · refine absurd (Nat.eq_of_testBit_eq fun k => ?_) hne
    rw [Nat.zero_testBit]
    by_contra hk
    rw [Bool.not_eq_false] at hk
    exact absurd (hnone k (lt_of_testBit hbits hk)) (by simp [hk])
  · exact ⟨hlow, hhigh, fun k hk => hrange.between k (lt_of_testBit hbits hk) hk⟩

/-- The bits of a number put at given positions, from the lowest bit on. -/
def spreadOver (positions : List Nat) (lo tmp : Nat) : Nat × Nat :=
  positions.foldl (fun (lo, tmp) j => (lo ||| (tmp &&& 1) <<< j, tmp >>> 1)) (lo, tmp)

theorem spreadOver_cons (j : Nat) (rest : List Nat) (lo tmp : Nat) :
    spreadOver (j :: rest) lo tmp = spreadOver rest (lo ||| (tmp &&& 1) <<< j) (tmp >>> 1) := rfl

theorem spread_eq {n bits : Nat} (hn : n ≤ 64) (i : Nat) :
    SValue.spread n bits i = (spreadOver ((List.range n).filter bits.testBit) 0 i).1 := by
  rw [SValue.spread, spreadOver, List.foldl_filter]
  refine congrArg Prod.fst (List.foldl_ext _ _ _ fun acc j hj => ?_)
  have hset := and_shl1 (n := j) (by have hj := List.mem_range.mp hj; omega) bits
  obtain ⟨lo, tmp⟩ := acc
  dsimp only
  by_cases hbit : bits.testBit j = true
  · rw [if_pos (hset.mpr hbit), if_pos hbit]
  · rw [if_neg (mt hset.mp hbit), if_neg hbit]

theorem testBit_mod_two_shiftLeft (x j k : Nat) :
    ((x % 2) <<< j).testBit k = (decide (k = j) && x.testBit 0) := by
  rw [Nat.testBit_shiftLeft]
  by_cases hjk : j ≤ k
  · have hmod : x % 2 = x % 2 ^ 1 := by rw [pow_one]
    rw [decide_eq_true hjk, Bool.true_and, hmod, Nat.testBit_mod_two_pow]
    by_cases hk : k = j
    · subst hk
      simp
    · rw [decide_eq_false (by omega : ¬k - j < 1), decide_eq_false hk]
      rfl
  · rw [decide_eq_false hjk, decide_eq_false (by omega)]
    rfl

theorem testBit_spreadOver {positions : List Nat} {lo tmp k : Nat}
    (h : (spreadOver positions lo tmp).1.testBit k = true) : lo.testBit k = true ∨ k ∈ positions := by
  induction positions generalizing lo tmp with
  | nil => exact .inl h
  | cons j rest ih =>
    rw [spreadOver_cons] at h
    rcases ih h with h | h
    · rw [Nat.testBit_or, Nat.and_one_is_mod, testBit_mod_two_shiftLeft, Bool.or_eq_true,
        Bool.and_eq_true, decide_eq_true_eq] at h
      rcases h with h | ⟨rfl, -⟩
      · exact .inl h
      · exact .inr (by simp)
    · exact .inr (by simp [h])

/-- Every number with bits at the positions only is spread over them from some number. -/
theorem exists_spreadOver {positions : List Nat} (hnodup : positions.Nodup) {x : Nat}
    (hx : ∀ k, x.testBit k = true → k ∈ positions) :
    ∃ i < 2 ^ positions.length, ∀ lo, (spreadOver positions lo i).1 = lo ||| x := by
  induction positions generalizing x with
  | nil =>
    have hzero : x = 0 := by
      refine Nat.eq_of_testBit_eq fun k => ?_
      rw [Nat.zero_testBit]
      by_contra hk
      rw [Bool.not_eq_false] at hk
      exact absurd (hx k hk) (by simp)
    exact ⟨0, by simp, fun lo => by simp [spreadOver, hzero]⟩
  | cons j rest ih =>
    obtain ⟨hj, hrest⟩ := List.nodup_cons.mp hnodup
    obtain ⟨b, hb⟩ : ∃ b, b = (x.testBit j).toNat := ⟨_, rfl⟩
    obtain ⟨y, hy⟩ : ∃ y : Nat, ∀ k, y.testBit k = (x.testBit k && decide (k ≠ j)) := by
      refine ⟨x ^^^ (x &&& 2 ^ j), fun k => ?_⟩
      rw [Nat.testBit_xor, Nat.testBit_and, Nat.testBit_two_pow]
      by_cases hk : j = k
      · simp [hk]
      · simp [hk, Ne.symm hk]
    obtain ⟨i, hi, hspread⟩ := ih hrest (x := y) fun k hk => by
      rw [hy, Bool.and_eq_true, decide_eq_true_eq] at hk
      exact (List.mem_cons.mp (hx k hk.1)).resolve_left hk.2
    have hb2 : b < 2 := by
      rw [hb]
      exact Bool.toNat_lt _
    refine ⟨2 * i + b, by rw [List.length_cons, pow_succ]; omega, fun lo => ?_⟩
    have hhalf : (2 * i + b) >>> 1 = i := by
      rw [Nat.shiftRight_one]
      omega
    have hbit : (2 * i + b).testBit 0 = x.testBit j := by
      rw [Nat.testBit_zero, hb]
      cases x.testBit j <;> simp
    rw [spreadOver_cons, hhalf]
    refine (hspread _).trans (Nat.eq_of_testBit_eq fun k => ?_)
    rw [Nat.testBit_or, Nat.testBit_or, Nat.testBit_or, Nat.and_one_is_mod,
      testBit_mod_two_shiftLeft, hbit, hy]
    by_cases hk : k = j
    · subst hk
      simp
    · simp [hk]

/-- The numbers spread over a number's bits are those with no others. -/
theorem exists_spread_iff {n bits x : Nat} (hn : n ≤ 64) (hbits : bits < 2 ^ n) :
    (∃ i < 2 ^ (List.range n).countP bits.testBit, x = SValue.spread n bits i) ↔
      ∀ k, x.testBit k = true → bits.testBit k = true := by
  have hmem : ∀ k, k ∈ (List.range n).filter bits.testBit ↔ bits.testBit k = true := by
    intro k
    rw [List.mem_filter, List.mem_range]
    refine ⟨fun h => h.2, fun h => ⟨?_, h⟩⟩
    by_contra hge
    rw [Nat.testBit_lt_two_pow (hbits.trans_le (Nat.pow_le_pow_right (by omega) (by omega)))] at h
    cases h
  constructor
  · rintro ⟨i, -, rfl⟩ k hk
    rw [spread_eq hn] at hk
    rcases testBit_spreadOver hk with hk | hk
    · simp at hk
    · exact (hmem k).mp hk
  · intro h
    obtain ⟨i, hi, hspread⟩ := exists_spreadOver (List.nodup_range.filter _) fun k hk =>
      (hmem k).mpr (h k hk)
    rw [← List.countP_eq_length_filter] at hi
    exact ⟨i, hi, by rw [spread_eq hn, hspread, Nat.zero_or]⟩

theorem genMask_xor {l h : Nat} (hlh : l ≤ h) (hh : h < 64) :
    genMask (h + 1) ^^^ genMask l = 2 ^ (h + 1) - 2 ^ l := by
  have hmask : ∀ k, (genMask (h + 1) ^^^ genMask l).testBit k = (decide (l ≤ k) && decide (k ≤ h)) := by
    intro k
    rw [Nat.testBit_xor, testBit_genMask (by omega), testBit_genMask (by omega)]
    by_cases hk : k < l
    · simp [hk, (by omega : k < h + 1)]
    · simp [hk, (by omega : l ≤ k)]
  have hdiff : 2 ^ (h + 1) - 2 ^ l = 2 ^ l * (2 ^ (h + 1 - l) - 1) := by
    rw [Nat.mul_sub, ← pow_add, mul_one]
    congr 2
    omega
  refine Nat.eq_of_testBit_eq fun k => ?_
  rw [hmask, hdiff, Nat.testBit_two_pow_mul, Nat.testBit_two_pow_sub_one]
  by_cases hk : l ≤ k
  · simp only [hk, decide_true, Bool.true_and, decide_eq_decide]
    omega
  · simp [hk]

theorem Ends.le {bits l h x : Nat} (hends : Ends bits l h) (hh : h < 64)
    (hx : ∀ k, x.testBit k = true → bits.testBit k = true) : x ≤ 2 ^ (h + 1) - 2 ^ l := by
  have hlh := (hends.between l hends.low).2
  rw [← genMask_xor hlh hh]
  refine le_of_testBit fun k hk => ?_
  obtain ⟨hl, hh'⟩ := hends.between k (hx k hk)
  rw [Nat.testBit_xor, testBit_genMask (by omega), testBit_genMask (by omega)]
  rw [decide_eq_true (by omega : k < h + 1), decide_eq_false (by omega : ¬k < l)]
  rfl

theorem Ends.unique {bits l h l' h' : Nat} (hends : Ends bits l h) (hends' : Ends bits l' h') :
    l = l' ∧ h = h' := by
  have hl := hends.between l' hends'.low
  have hl' := hends'.between l hends.low
  have hh := hends.between h' hends'.high
  have hh' := hends'.between h hends.high
  omega

/-- Where the low bits are the possible ones, every number up to the greatest is filled. -/
theorem filled_lowBits {n m x : Nat} : Filled n (2 ^ m - 1) x ↔ x ≤ 2 ^ m - 1 := by
  have hpos := Nat.two_pow_pos m
  constructor
  · rintro (hsub | ⟨-, l, h, hends, hx⟩)
    · exact le_of_testBit hsub
    · have hh := hends.high
      rw [Nat.testBit_two_pow_sub_one, decide_eq_true_eq] at hh
      have hpow : 2 ^ (h + 1) ≤ 2 ^ m := Nat.pow_le_pow_right (by omega) hh
      have hl := Nat.two_pow_pos l
      omega
  · intro hx
    refine .inl fun k hk => ?_
    rw [Nat.testBit_two_pow_sub_one, decide_eq_true_eq]
    exact lt_of_testBit (by omega) hk

theorem filled_many {n bits l h x : Nat} (hh : h < 64) (hends : Ends bits l h)
    (hsix : 6 ≤ (List.range n).countP bits.testBit) :
    Filled n bits x ↔ x ≤ 2 ^ (h + 1) - 2 ^ l := by
  constructor
  · rintro (hsub | ⟨-, l', h', hends', hx⟩)
    · exact hends.le hh hsub
    · obtain ⟨rfl, rfl⟩ := hends.unique hends'
      exact hx
  · exact fun hx => .inr ⟨hsix, l, h, hends, hx⟩

theorem filled_few {n bits x : Nat} (hfew : (List.range n).countP bits.testBit < 6) :
    Filled n bits x ↔ ∀ k, x.testBit k = true → bits.testBit k = true :=
  or_iff_left fun h => by omega

/-- As many bits as a width of 64 has are the mask of the width. -/
theorem eq_genMask_of_countP {n bits : Nat} (hn : n ≤ 64) (hbits : bits < 2 ^ n)
    (hcount : 64 ≤ (List.range n).countP bits.testBit) :
    bits = genMask ((List.range n).countP bits.testBit) := by
  have hle : (List.range n).countP bits.testBit ≤ n :=
    List.countP_le_length.trans_eq List.length_range
  have hlen : (List.range n).countP bits.testBit = (List.range n).length := by
    rw [List.length_range]
    omega
  have hall : ∀ k < n, bits.testBit k = true := fun k hk =>
    List.countP_eq_length.mp hlen k (List.mem_range.mpr hk)
  refine Nat.eq_of_testBit_eq fun k => ?_
  rw [testBit_genMask (by omega)]
  by_cases hk : k < n
  · rw [hall k hk, decide_eq_true (by omega)]
  · rw [decide_eq_false (by omega)]
    by_contra hset
    rw [Bool.not_eq_false] at hset
    exact hk (lt_of_testBit hbits hset)

theorem mem_spreads {n bits nset x : Nat} (hn : n ≤ 64) (hbits : bits < 2 ^ n)
    (hcount : nset = (List.range n).countP bits.testBit) :
    x ∈ (List.range (2 ^ nset)).foldl (fun retval i => retval.insert (SValue.spread n bits i))
        IntervalSet.empty ↔ ∀ k, x.testBit k = true → bits.testBit k = true := by
  rw [IntervalSet.mem_foldl (fun s i _ a => by rw [IntervalSet.mem_insert, or_comm]),
    ← exists_spread_iff hn hbits, ← hcount]
  simp

/-- Values of all numbers up to a greatest one. -/
theorem instanceIntervals_upTo {n m : Nat} (hm : m ≤ genMask n) :
    ∃ w, SValue.instanceIntervals n (.insertHull .empty 0 m) = some w ∧ w.nBits = n ∧
      w.isBottom = false ∧ ∀ x, x ∈ w ↔ x ≤ m := by
  obtain ⟨w, hw, hwn, hwb, hmem⟩ := SValue.instanceIntervals_spec (n := n)
    ⟨0, mem_hull_zero_left (m := m)⟩ fun a ha => (mem_hull_zero.mp ha).trans hm
  exact ⟨w, hw, hwn, hwb, fun x => (hmem x).trans mem_hull_zero⟩

/-- Numbers made from possible bits. -/
theorem instanceFromBits_spec {n bits : Nat} (hn : n ≤ 64) (hbits : bits < 2 ^ n) :
    ∃ w, SValue.instanceFromBits n bits = some w ∧ w.nBits = n ∧ w.isBottom = false ∧
      ∀ x, x ∈ w ↔ Filled n bits x := by
  obtain ⟨hcount, hends⟩ := bitRange_spec hn hbits
  have hmask : bits &&& genMask n = bits := by rw [and_genMask hn, Nat.mod_eq_of_lt hbits]
  have hle : bits ≤ genMask n := (IntegerOps.le_genMask hn).mpr hbits
  rw [SValue.instanceFromBits, hmask]
  generalize SValue.bitRange n bits = range at hcount hends
  obtain ⟨nset, lobit, hibit⟩ := range
  dsimp only at hcount hends ⊢
  have hcountLe : nset ≤ n := by
    rw [hcount]
    exact List.countP_le_length.trans_eq List.length_range
  split
  next heasy =>
    obtain ⟨w, hw, hwn, hwb, hmem⟩ := instanceIntervals_upTo hle
    rw [genMask_eq (by omega)] at heasy
    refine ⟨w, hw, hwn, hwb, fun x => ?_⟩
    rw [hmem, heasy, filled_lowBits]
  next hhard =>
    have hnset : nset < 64 := by
      by_contra hge
      rw [hcount] at hge hhard
      exact hhard (eq_genMask_of_countP hn hbits (by omega))
    rw [shl1_eq hnset]
    split
    next hmany =>
      have hsix : 6 ≤ nset := by
        by_contra hfew
        have hpow : 2 ^ nset ≤ 2 ^ 5 := Nat.pow_le_pow_right (by omega) (by omega)
        rw [maxComplexity] at hmany
        omega
      have hne : bits ≠ 0 := by
        rintro rfl
        have hzero : nset = 0 := by simp [hcount]
        omega
      have hends := hends hne
      have hhn := lt_of_testBit hbits hends.high
      have hpow : 2 ^ (hibit + 1) ≤ 2 ^ n := Nat.pow_le_pow_right (by omega) hhn
      have hl := Nat.two_pow_pos lobit
      rw [genMask_xor (hends.between lobit hends.low).2 (by omega)]
      obtain ⟨w, hw, hwn, hwb, hmem⟩ := instanceIntervals_upTo (n := n)
        (m := 2 ^ (hibit + 1) - 2 ^ lobit) (by rw [genMask_eq hn]; omega)
      refine ⟨w, hw, hwn, hwb, fun x => ?_⟩
      rw [hmem, filled_many (by omega) hends (hcount ▸ hsix)]
    next hfew =>
      have hfive : nset < 6 := by
        by_contra hmany
        have hpow : 2 ^ 6 ≤ 2 ^ nset := Nat.pow_le_pow_right (by omega) (by omega)
        rw [maxComplexity] at hfew
        omega
      obtain ⟨w, hw, hwn, hwb, hmem⟩ := SValue.instanceIntervals_spec (n := n)
        ⟨0, (mem_spreads hn hbits hcount).mpr (by simp)⟩
        fun a ha => (le_of_testBit ((mem_spreads hn hbits hcount).mp ha)).trans hle
      refine ⟨w, hw, hwn, hwb, fun x => ?_⟩
      rw [hmem, mem_spreads hn hbits hcount, filled_few (hcount ▸ hfive)]

variable {n x : Nat}

theorem contains_undefined (hn : n ≤ 64) (hx : x < 2 ^ n) :
    SValue.Contains (some (.instanceUndefined n)) n x :=
  (SValue.contains_some rfl rfl).mpr (SValue.mem_undefined.mpr ((IntegerOps.le_genMask hn).mpr hx))

theorem contains_number (hn : n ≤ 64) {v : Nat} :
    SValue.Contains (some (.number n v)) n x ↔ x = v % 2 ^ n :=
  (SValue.contains_some rfl rfl).trans (SValue.mem_number_of_le hn)

theorem contains_fromBits {bits : Nat} (hn : n ≤ 64) (hbits : bits < 2 ^ n) :
    SValue.Contains (SValue.instanceFromBits n bits) n x ↔ Filled n bits x := by
  obtain ⟨w, hw, hwn, hwb, hmem⟩ := instanceFromBits_spec hn hbits
  rw [hw, SValue.contains_some hwn hwb, hmem]

/-- Bits from the width of the result on are masked away. -/
theorem fromBits_mod (hn : n ≤ 64) (w : Nat) :
    SValue.instanceFromBits n w = SValue.instanceFromBits n (w % 2 ^ n) := by
  have hmask : w % 2 ^ n &&& genMask n = w &&& genMask n := by
    rw [and_genMask hn, and_genMask hn, Nat.mod_mod]
  unfold SValue.instanceFromBits
  rw [hmask]

theorem contains_fromBits_of_subset (hn : n ≤ 64) {w : Nat} (hx : x < 2 ^ n)
    (hsub : ∀ k, x.testBit k = true → w.testBit k = true) :
    SValue.Contains (SValue.instanceFromBits n w) n x := by
  rw [fromBits_mod hn, contains_fromBits hn (Nat.mod_lt w (Nat.two_pow_pos n))]
  refine .inl fun k hk => ?_
  rw [Nat.testBit_mod_two_pow, decide_eq_true (lt_of_testBit hx hk), hsub k hk, Bool.and_self]

theorem testBit_possibleBits_iff {v : SValue} (hn : v.nBits ≤ 64) (k : Nat) :
    v.possibleBits.testBit k = true ↔ ∃ a ∈ v, a.testBit k = true := by
  by_cases hk : k < v.nBits
  · exact testBit_possibleBits hn hk
  · constructor
    · intro h
      exact absurd (lt_of_testBit (possibleBits_lt hn) h) hk
    · intro ⟨a, ha, hbit⟩
      exact absurd (lt_of_testBit (SValue.lt_two_pow hn ha) hbit) hk

/-- The possible bits of a value are exact, and a value made from bits has all numbers of them. -/
theorem possibleBits_exact_fromBits_cover (hn : n ≤ 64) :
    (∀ v : SValue, v.nBits = n → ∀ k,
      v.possibleBits.testBit k = true ↔ ∃ a ∈ v, a.testBit k = true) ∧
    ∀ w x : Nat, x < 2 ^ n → (∀ k, x.testBit k = true → w.testBit k = true) →
      SValue.Contains (SValue.instanceFromBits n w) n x := by
  refine ⟨fun v hv k => ?_, fun w x hx hsub => contains_fromBits_of_subset hn hx hsub⟩
  exact testBit_possibleBits_iff (by omega) k

theorem possibleBits_exact_fromBits_cover_byte :
    (SValue.number 8 5).possibleBits.testBit 2 = true ∧
      SValue.Contains (SValue.instanceFromBits 8 5) 8 4 := by
  obtain ⟨hexact, hcover⟩ := possibleBits_exact_fromBits_cover (n := 8) (by omega)
  refine ⟨(hexact (SValue.number 8 5) rfl 2).mpr ⟨5, ?_, rfl⟩, hcover 5 4 (by omega) fun k hk => ?_⟩
  · exact SValue.mem_number.mpr rfl
  · have hpow : (2 ^ 2).testBit k = true := hk
    rw [Nat.testBit_two_pow, decide_eq_true_eq] at hpow
    rw [← hpow]
    rfl

end LoomX.IntervalSemantics
