import LoomX.IntervalSemantics.Addition

namespace LoomX.IntervalSemantics

open IntegerOps

/-- The known bits of an operand are 0 where its possible bits are not. -/
def and_ (a b : SValue) : Option SValue :=
  if a.nBits ≠ b.nBits then none
  else if a.isBottom || b.isBottom then some (.instanceBottom a.nBits)
  else
    let ak := a.toUnsigned.getD 0
    let bk := b.toUnsigned.getD 0
    let au := if a.isConcrete then 0 else a.possibleBits
    let bu := if b.isConcrete then 0 else b.possibleBits
    let r := ak &&& bk &&& au &&& bu
    if au ≠ 0 ∨ bu ≠ 0 then SValue.instanceFromBits a.nBits r
    else some (.number a.nBits r)

/-- An operator on two numbers that sets no bit but those of its operands. -/
def combineBits (op : Nat → Nat → Nat) (a b : SValue) : Option SValue :=
  if a.nBits ≠ b.nBits then none
  else if a.isBottom || b.isBottom then some (.instanceBottom a.nBits)
  else match a.toUnsigned, b.toUnsigned with
    | some aNum, some bNum => some (.number a.nBits (op aNum bNum))
    | _, _ => SValue.instanceFromBits a.nBits (a.possibleBits ||| b.possibleBits)

def or_ (a b : SValue) : Option SValue := combineBits (· ||| ·) a b

def xor_ (a b : SValue) : Option SValue := combineBits (· ^^^ ·) a b

/-- Zero, and the numbers between the least and the greatest position of a possible bit. -/
def setBitNumbers (nbits abits : Nat) (positions : List Nat) : Option SValue :=
  if abits = 0 then none
  else
    let (lo, hi) := positions.foldl (fun (lo, hi) i =>
      if abits &&& shl1 i ≠ 0 then (min lo i, max hi i) else (lo, hi)) (nbits, 0)
    SValue.instanceIntervals nbits ((IntervalSet.insert .empty 0).insertHull lo hi)

def leastSignificantSetBit (a : SValue) : Option SValue :=
  if a.isBottom then some (.instanceBottom a.nBits)
  else match a.toUnsigned with
    | some av =>
      if av ≠ 0 then
        match (List.range a.nBits).find? fun i => av &&& shl1 i ≠ 0 with
        | some i => some (.number a.nBits i)
        | none => some (.number a.nBits 0)
      else some (.number a.nBits 0)
    | none => setBitNumbers a.nBits a.possibleBits (List.range a.nBits)

/-- The loop over a constant asks that the constant and the bit are not 0, each for itself. -/
def mostSignificantSetBit (a : SValue) : Option SValue :=
  if a.isBottom then some (.instanceBottom a.nBits)
  else match a.toUnsigned with
    | some av =>
      if av ≠ 0 then
        match (List.range a.nBits).reverse.find? fun i => av ≠ 0 && shl1 i ≠ 0 with
        | some i => some (.number a.nBits i)
        | none => some (.number a.nBits 0)
      else some (.number a.nBits 0)
    | none => setBitNumbers a.nBits a.possibleBits (List.range a.nBits).reverse

def equalToZero (a : SValue) : Option SValue :=
  if a.isBottom then some (.instanceBottom 1)
  else match a.toUnsigned with
    | some aNum => some (.boolean (0 = aNum))
    | none => if 0 ∉ a.intervals then some (.boolean false) else some (.instanceUndefined 1)

/-- The operands that the result is formed from. -/
inductive IteStatus where
  | neither
  | a
  | b
  | both
  deriving DecidableEq

def iteWithStatus (cond a b : SValue) : Option (SValue × IteStatus) :=
  if 1 ≠ cond.nBits then none
  else if a.nBits ≠ b.nBits then none
  else if cond.isBottom then
    if a.mustEqual b then some (a, .neither) else some (.instanceBottom a.nBits, .both)
  else match cond.toUnsigned with
    | some condVal => if condVal ≠ 0 then some (a, .a) else some (b, .b)
    | none =>
      (SValue.instanceIntervals a.nBits (a.intervals.insertMultiple b.intervals)).map
        fun result => (result, .both)

variable {a b c : SValue} {n x y k : Nat}

theorem eq_zero_of_testBit (h : ∀ k, x.testBit k = false) : x = 0 :=
  Nat.eq_of_testBit_eq fun k => by rw [h, Nat.zero_testBit]

theorem filled_zero : Filled n 0 x ↔ x = 0 := by
  constructor
  · rintro (h | ⟨-, l, h, hends, -⟩)
    · exact eq_zero_of_testBit fun k => by simpa using h k
    · simpa using hends.low
  · rintro rfl
    exact .inl fun k hk => hk

/-- A conjunction is always the number 0. -/
theorem and_eq (hab : a.nBits = b.nBits) (hn : a.nBits ≤ 64) (ha : a.isBottom = false)
    (hb : b.isBottom = false) (v : Nat) : SValue.Contains (and_ a b) a.nBits v ↔ v = 0 := by
  have hzero : a.toUnsigned.getD 0 &&& b.toUnsigned.getD 0 &&&
      (if a.isConcrete then 0 else a.possibleBits) &&&
      (if b.isConcrete then 0 else b.possibleBits) = 0 := by
    cases hconst : a.isConcrete with
    | true => simp
    | false =>
      have hnone : a.toUnsigned = none := by simp [SValue.toUnsigned, hconst]
      simp [hnone]
  rw [and_, if_neg (by simpa using hab), if_neg (by simp [ha, hb])]
  dsimp only
  rw [hzero]
  generalize (if a.isConcrete then 0 else a.possibleBits) = au
  generalize (if b.isConcrete then 0 else b.possibleBits) = bu
  split
  next => rw [contains_fromBits hn (Nat.two_pow_pos _), filled_zero]
  next => rw [contains_number hn, Nat.zero_mod]

theorem and_sound_iff (hab : a.nBits = b.nBits) (hn : a.nBits ≤ 64) (ha : a.isBottom = false)
    (hb : b.isBottom = false) :
    (∀ x ∈ a, ∀ y ∈ b, SValue.Contains (and_ a b) a.nBits (x &&& y)) ↔
      ∀ x ∈ a, ∀ y ∈ b, x &&& y = 0 := by
  simp only [and_eq hab hn ha hb]

/-- The possible bits hold those of each member. -/
theorem testBit_possibleBits_of_mem (hn : a.nBits ≤ 64) (hx : x ∈ a) (hk : x.testBit k = true) :
    a.possibleBits.testBit k = true :=
  (testBit_possibleBits hn (lt_of_testBit (SValue.lt_two_pow hn hx) hk)).mpr ⟨x, hx, hk⟩

theorem combineBits_sound {op : Nat → Nat → Nat}
    (hop : ∀ x y k, (op x y).testBit k = true → x.testBit k = true ∨ y.testBit k = true)
    (hab : a.nBits = b.nBits) (hn : a.nBits ≤ 64) (ha : a.isBottom = false)
    (hb : b.isBottom = false) (hx : x ∈ a) (hy : y ∈ b) :
    SValue.Contains (combineBits op a b) a.nBits (op x y) := by
  have hm : b.nBits ≤ 64 := hab ▸ hn
  have hbits : SValue.Contains (SValue.instanceFromBits a.nBits (a.possibleBits ||| b.possibleBits))
      a.nBits (op x y) := by
    have hlt : b.possibleBits < 2 ^ a.nBits := hab ▸ possibleBits_lt hm
    rw [contains_fromBits hn (Nat.or_lt_two_pow (possibleBits_lt hn) hlt)]
    refine .inl fun k hk => ?_
    rw [Nat.testBit_or, Bool.or_eq_true]
    rcases hop x y k hk with hk | hk
    · exact .inl (testBit_possibleBits_of_mem hn hx hk)
    · exact .inr (testBit_possibleBits_of_mem hm hy hk)
  rw [combineBits, if_neg (by simpa using hab), if_neg (by simp [ha, hb])]
  split
  next aNum bNum hconst hconst' =>
    have hlt : op x y < 2 ^ a.nBits := by
      refine Nat.lt_pow_two_of_testBit _ fun k hk => ?_
      by_contra hset
      rw [Bool.not_eq_false] at hset
      rcases hop x y k hset with hset | hset
      · have hlt := lt_of_testBit (SValue.lt_two_pow hn hx) hset
        omega
      · have hlt := lt_of_testBit (SValue.lt_two_pow hm hy) hset
        omega
    rw [contains_number hn, ← (SValue.toUnsigned_mem hconst x).mp hx,
      ← (SValue.toUnsigned_mem hconst' y).mp hy, Nat.mod_eq_of_lt hlt]
  next => exact hbits

theorem or_sound (hab : a.nBits = b.nBits) (hn : a.nBits ≤ 64) (ha : a.isBottom = false)
    (hb : b.isBottom = false) (hx : x ∈ a) (hy : y ∈ b) :
    SValue.Contains (or_ a b) a.nBits (x ||| y) :=
  combineBits_sound (fun x y k hk => by rwa [Nat.testBit_or, Bool.or_eq_true] at hk) hab hn ha hb hx hy

theorem xor_sound (hab : a.nBits = b.nBits) (hn : a.nBits ≤ 64) (ha : a.isBottom = false)
    (hb : b.isBottom = false) (hx : x ∈ a) (hy : y ∈ b) :
    SValue.Contains (xor_ a b) a.nBits (x ^^^ y) := by
  refine combineBits_sound (fun x y k hk => ?_) hab hn ha hb hx hy
  rw [Nat.testBit_xor] at hk
  by_contra hnot
  rw [not_or, Bool.not_eq_true, Bool.not_eq_true] at hnot
  simp [hnot.1, hnot.2] at hk

/-- The position of the lowest bit of a number, 0 where it has none. -/
def LowestBit (x k : Nat) : Prop :=
  x = 0 ∧ k = 0 ∨ x.testBit k = true ∧ ∀ j, x.testBit j = true → k ≤ j

/-- The position of the highest bit of a number, 0 where it has none. -/
def HighestBit (x k : Nat) : Prop :=
  x = 0 ∧ k = 0 ∨ x.testBit k = true ∧ ∀ j, x.testBit j = true → j ≤ k

/-- A number other than 0 is a member of a value that is not known. -/
theorem exists_mem_ne_zero (hn : a.nBits ≤ 64) (hconst : a.toUnsigned = none) : ∃ x ∈ a, x ≠ 0 := by
  by_contra hnone
  have hall : ∀ x ∈ a, x = 0 := fun x hx => by
    by_contra hne
    exact hnone ⟨x, hx, hne⟩
  have hzero : a.toUnsigned = some 0 := (SValue.toUnsigned_eq_some hn).mpr fun x => by
    refine ⟨hall x, ?_⟩
    rintro rfl
    obtain ⟨y, hy⟩ := a.exists_mem
    rwa [← hall y hy]
  rw [hconst] at hzero
  cases hzero

/-- The scan for the least and the greatest set position passes over none. -/
theorem setBit_hull (abits : Nat) (positions : List Nat) (acc : Nat × Nat) {m : Nat} (hm : m ≤ 64)
    (hpos : ∀ k ∈ positions, k < m) (hacc : acc.2 < m) :
    let ends := positions.foldl (fun (lo, hi) i =>
      if abits &&& shl1 i ≠ 0 then (min lo i, max hi i) else (lo, hi)) acc
    ends.2 < m ∧ ends.1 ≤ acc.1 ∧ acc.2 ≤ ends.2 ∧
      ∀ k ∈ positions, abits.testBit k = true → ends.1 ≤ k ∧ k ≤ ends.2 := by
  induction positions generalizing acc with
  | nil => exact ⟨hacc, le_rfl, le_rfl, by simp⟩
  | cons i rest ih =>
    obtain ⟨hi, hrest⟩ := List.forall_mem_cons.mp hpos
    obtain ⟨lo, hi'⟩ := acc
    have hset := and_shl1 (n := i) (by omega) abits
    dsimp only at hacc
    rw [List.foldl_cons]
    dsimp only
    split
    next hbit =>
      obtain ⟨hlt, hlo, hhi, hall⟩ := ih (min lo i, max hi' i) hrest (by dsimp only; omega)
      dsimp only at hlo hhi
      refine ⟨hlt, by omega, by omega, List.forall_mem_cons.mpr ⟨fun _ => by omega, hall⟩⟩
    next hbit =>
      obtain ⟨hlt, hlo, hhi, hall⟩ := ih (lo, hi') hrest hacc
      refine ⟨hlt, hlo, hhi, List.forall_mem_cons.mpr ⟨fun h => absurd (hset.mpr h) hbit, hall⟩⟩

/-- The positions of a member's bits are found, in whatever order they are scanned. -/
theorem setBitNumbers_sound {positions : List Nat} (hn : a.nBits ≤ 64) (hconst : a.toUnsigned = none)
    (hpos : ∀ k, k ∈ positions ↔ k < a.nBits) (hx : x ∈ a)
    (hk : x = 0 ∧ k = 0 ∨ x.testBit k = true) :
    SValue.Contains (setBitNumbers a.nBits a.possibleBits positions) a.nBits k := by
  obtain ⟨y, hy, hne⟩ := exists_mem_ne_zero hn hconst
  obtain ⟨j, hj⟩ := Nat.exists_testBit_of_ne_zero hne
  have hjn := lt_of_testBit (SValue.lt_two_pow hn hy) hj
  have hjbits := testBit_possibleBits_of_mem hn hy hj
  have hbits : a.possibleBits ≠ 0 := fun hzero => by
    rw [hzero] at hjbits
    simp at hjbits
  obtain ⟨hlt, -, -, hall⟩ := setBit_hull a.possibleBits positions (a.nBits, 0) hn (fun k hk => (hpos k).mp hk) (by dsimp only; omega)
  rw [setBitNumbers, if_neg hbits]
  generalize positions.foldl _ _ = ends at hlt hall ⊢
  obtain ⟨lo, hi⟩ := ends
  dsimp only at hlt hall ⊢
  have hlohi := hall j ((hpos j).mpr hjn) hjbits
  rw [SValue.contains_intervals, IntervalSet.mem_insertHull, mem_single,
    Interval.mem_hull (by omega)]
  constructor
  · rcases hk with ⟨-, rfl⟩ | hk
    · exact .inr rfl
    · have hkn := lt_of_testBit (SValue.lt_two_pow hn hx) hk
      exact .inl (hall k ((hpos k).mpr hkn) (testBit_possibleBits_of_mem hn hx hk))
  · intro v hv
    rw [IntervalSet.mem_insertHull, mem_single, Interval.mem_hull (by omega)] at hv
    rw [IntegerOps.le_genMask hn]
    have hpow : a.nBits < 2 ^ a.nBits := Nat.lt_two_pow_self
    omega

theorem leastSignificantSetBit_sound (hn : a.nBits ≤ 64) (ha : a.isBottom = false) (hx : x ∈ a)
    (hk : LowestBit x k) : SValue.Contains (leastSignificantSetBit a) a.nBits k := by
  have hxn := SValue.lt_two_pow hn hx
  rw [leastSignificantSetBit, if_neg (by simp [ha])]
  cases hconst : a.toUnsigned with
  | none =>
    exact setBitNumbers_sound hn hconst (fun _ => List.mem_range) hx (hk.imp_right And.left)
  | some av =>
    obtain rfl := (SValue.toUnsigned_mem hconst x).mp hx
    dsimp only
    rcases hk with ⟨rfl, rfl⟩ | ⟨hbit, hleast⟩
    · rw [if_neg (by simp), contains_number hn, Nat.zero_mod]
    · have hne : x ≠ 0 := by
        rintro rfl
        simp at hbit
      have hkn := lt_of_testBit hxn hbit
      have hset : ∀ j < a.nBits, (x &&& shl1 j ≠ 0 ↔ x.testBit j = true) := fun j hj =>
        and_shl1 (by omega) x
      rw [if_pos hne]
      cases hfind : (List.range a.nBits).find? fun i => decide (x &&& shl1 i ≠ 0) with
      | none =>
        have hclear := List.find?_eq_none.mp hfind k (List.mem_range.mpr hkn)
        exact absurd (decide_eq_true ((hset k hkn).mpr hbit)) hclear
      | some i =>
        obtain ⟨hi, hbefore⟩ := List.find?_range_eq_some.mp hfind
        obtain ⟨hin, hbefore⟩ := hbefore
        have hin := List.mem_range.mp hin
        have hik : i = k := by
          refine le_antisymm ?_ (hleast i ((hset i hin).mp (of_decide_eq_true hi)))
          by_contra hlt
          have hclear := hbefore k (by omega)
          simp only [decide_not, Bool.not_not, decide_eq_true_eq] at hclear
          exact (hset k hkn).mpr hbit hclear
        dsimp only
        rw [contains_number hn, hik, Nat.mod_eq_of_lt (hkn.trans Nat.lt_two_pow_self)]

/-- A constant other than 0 is taken to have its top bit. -/
theorem mostSignificantSetBit_sound_iff (hn : a.nBits ≤ 64) (ha : a.isBottom = false) :
    (∀ x ∈ a, ∀ k, HighestBit x k → SValue.Contains (mostSignificantSetBit a) a.nBits k) ↔
      ∀ x, a.toUnsigned = some x → x ≠ 0 → x.testBit (a.nBits - 1) = true := by
  rw [mostSignificantSetBit, if_neg (by simp [ha])]
  cases hconst : a.toUnsigned with
  | none =>
    refine ⟨fun _ x hx => (by cases hx), fun _ x hx k hk => ?_⟩
    exact setBitNumbers_sound hn hconst (fun _ => by simp) hx (hk.imp_right And.left)
  | some av =>
    have honly := SValue.toUnsigned_mem hconst
    have hav := (honly av).mpr rfl
    have hlt := SValue.lt_two_pow hn hav
    dsimp only
    by_cases hzero : av = 0
    · subst hzero
      refine ⟨fun _ x hx hne => absurd (Option.some.inj hx).symm hne, fun _ x hx k hk => ?_⟩
      obtain rfl := (honly x).mp hx
      rw [if_neg (by simp), contains_number hn, Nat.zero_mod]
      rcases hk with ⟨-, rfl⟩ | ⟨hbit, -⟩
      · rfl
      · simp at hbit
    · obtain ⟨m, hm⟩ : ∃ m, a.nBits = m + 1 := by
        refine Nat.exists_eq_succ_of_ne_zero fun hwidth => hzero ?_
        rw [hwidth] at hlt
        omega
      have hshl : shl1 m ≠ 0 := by
        rw [shl1_eq (by omega)]
        exact (Nat.two_pow_pos m).ne'
      have hfind : ((List.range a.nBits).reverse.find? fun i => decide (av ≠ 0) && decide (shl1 i ≠ 0)) =
          some m := by
        rw [hm, List.range_succ, List.reverse_append, List.reverse_singleton, List.singleton_append,
          List.find?_cons_of_pos (by simp [hzero, hshl])]
      rw [if_pos hzero, hfind]
      dsimp only
      simp only [contains_number hn]
      have hmod : m % 2 ^ a.nBits = m := Nat.mod_eq_of_lt ((by omega : m < a.nBits).trans
        Nat.lt_two_pow_self)
      rw [hmod, hm, Nat.add_sub_cancel]
      constructor
      · intro h x hx hne
        obtain rfl := Option.some.inj hx
        obtain ⟨k, hbit, habove⟩ := Nat.exists_most_significant_bit hne
        have hkm := h av hav k (.inr ⟨hbit, fun j hj => by
          by_contra hlt
          rw [habove j (by omega)] at hj
          cases hj⟩)
        rwa [← hkm]
      · intro h x hx k hk
        obtain rfl := (honly x).mp hx
        rcases hk with ⟨hx0, -⟩ | ⟨hbit, hmost⟩
        · exact absurd hx0 hzero
        · have hkm := hmost m (h x rfl hzero)
          have hkn := lt_of_testBit hlt hbit
          omega

theorem equalToZero_sound (ha : a.isBottom = false) (hx : x ∈ a) :
    SValue.Contains (equalToZero a) 1 (decide (x = 0)).toNat := by
  have hbit : ∀ p : Bool, p.toNat % 2 ^ 1 = p.toNat := by decide
  rw [equalToZero, if_neg (by simp [ha])]
  cases hconst : a.toUnsigned with
  | some aNum =>
    obtain rfl := (SValue.toUnsigned_mem hconst x).mp hx
    dsimp only
    rw [SValue.boolean, contains_number (by omega), hbit]
    simp only [eq_comm]
  | none =>
    dsimp only
    split
    next hzero =>
      have hne : x ≠ 0 := by
        rintro rfl
        exact hzero hx
      rw [SValue.boolean, contains_number (by omega), hbit, decide_eq_false hne]
    next =>
      exact contains_undefined (by omega) (Bool.toNat_lt _)

theorem iteWithStatus_sound (hc : c.nBits = 1) (hab : a.nBits = b.nBits) (hn : a.nBits ≤ 64)
    (hcb : c.isBottom = false) (ha : a.isBottom = false) (hb : b.isBottom = false) {z : Nat}
    (hz : z ∈ c) (hx : x ∈ a) (hy : y ∈ b) :
    SValue.Contains ((iteWithStatus c a b).map Prod.fst) a.nBits (if z ≠ 0 then x else y) := by
  have hm : b.nBits ≤ 64 := hab ▸ hn
  rw [iteWithStatus, if_neg (by simp [hc]), if_neg (by simpa using hab), if_neg (by simp [hcb])]
  cases hconst : c.toUnsigned with
  | some condVal =>
    obtain rfl := (SValue.toUnsigned_mem hconst z).mp hz
    dsimp only
    split
    next => exact (SValue.contains_some rfl ha).mpr hx
    next => exact (SValue.contains_some hab.symm hb).mpr hy
  | none =>
    dsimp only
    rw [Option.map_map, show (Prod.fst ∘ fun result : SValue => (result, IteStatus.both)) = id from rfl,
      Option.map_id, id, SValue.contains_intervals, IntervalSet.mem_insertMultiple]
    constructor
    · split
      next => exact .inl hx
      next => exact .inr hy
    · intro v hv
      rcases IntervalSet.mem_insertMultiple.mp hv with hv | hv
      · exact SValue.le_genMask (v := a) hv
      · exact hab ▸ SValue.le_genMask (v := b) hv

end LoomX.IntervalSemantics
