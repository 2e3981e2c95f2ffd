import LoomX.CellMemory.Covering

namespace LoomX.CellMemory

/-- A number of some width. -/
structure ConcreteValue where
  width : Nat
  bits : BitVec width

namespace ConcreteValue

def ofBool (b : Bool) : ConcreteValue := ⟨1, BitVec.ofBool b⟩

theorem eq_ofBool {v : ConcreteValue} {b : Bool} (hw : v.width = 1) (hb : v.bits.getLsbD 0 = b) :
    v = ofBool b := by
  obtain ⟨width, bits⟩ := v
  dsimp only at hw
  subst hw
  have hbits : bits = BitVec.ofBool b := by
    refine BitVec.eq_of_getLsbD_eq fun i hi => ?_
    have hzero : i = 0 := by omega
    subst hzero
    rw [hb]
    cases b <;> rfl
  rw [ofBool, hbits]

end ConcreteValue

open ConcreteValue

/-- Operators that compute on numbers, but for merging. -/
def exactOperators (createMerged : ConcreteValue → ConcreteValue → ConcreteValue) :
    RiscOperators ConcreteValue where
  nBits a := a.width
  mayEqual a b := a.bits.toNat = b.bits.toNat
  mustEqual a b := a.bits.toNat = b.bits.toNat
  createMerged := createMerged
  isTrue a := a.bits.toNat ≠ 0
  undefined n := ⟨n, 0#n⟩
  number n v := ⟨n, BitVec.ofNat n v⟩
  boolean := ofBool
  and a b := ⟨a.width, a.bits &&& b.bits.setWidth a.width⟩
  or a b := ⟨a.width, a.bits ||| b.bits.setWidth a.width⟩
  xor a b := ⟨a.width, a.bits ^^^ b.bits.setWidth a.width⟩
  invert a := ⟨a.width, ~~~a.bits⟩
  extract a lo hi := ⟨hi - lo, a.bits.extractLsb' lo (hi - lo)⟩
  unsignedExtend a n := ⟨n, a.bits.setWidth n⟩
  add a b := ⟨a.width, a.bits + b.bits.setWidth a.width⟩
  addWithCarries a b c :=
    let ae := a.bits.setWidth (a.width + 1)
    let be := b.bits.setWidth (a.width + 1)
    let se := ae + be + c.bits.setWidth (a.width + 1)
    (⟨a.width, se.setWidth a.width⟩, ⟨a.width, ((ae ^^^ be ^^^ se) >>> 1).setWidth a.width⟩)

variable (createMerged : ConcreteValue → ConcreteValue → ConcreteValue) {w : Nat}

theorem extract_bit (v : ConcreteValue) {lo hi : Nat} (h : hi = lo + 1) :
    (exactOperators createMerged).extract v lo hi = ofBool (v.bits.getLsbD lo) := by
  refine eq_ofBool (by show hi - lo = 1; omega) ?_
  show (v.bits.extractLsb' lo (hi - lo)).getLsbD 0 = v.bits.getLsbD lo
  rw [BitVec.getLsbD_extractLsb', Nat.add_zero, decide_eq_true (by omega), Bool.true_and]

theorem xor_ofBool (a b : Bool) :
    (exactOperators createMerged).xor (ofBool a) (ofBool b) = ofBool (a ^^ b) := by
  cases a <;> cases b <;> rfl

theorem invert_ofBool (a : Bool) :
    (exactOperators createMerged).invert (ofBool a) = ofBool !a := by
  cases a <;> rfl

theorem isTrue_or_ofBool (a b : Bool) :
    (exactOperators createMerged).isTrue ((exactOperators createMerged).or (ofBool a) (ofBool b)) =
      (a || b) := by
  cases a <;> cases b <;> rfl

theorem isTrue_and_ofBool (a b : Bool) :
    (exactOperators createMerged).isTrue ((exactOperators createMerged).and (ofBool a) (ofBool b)) =
      (a && b) := by
  cases a <;> cases b <;> rfl

theorem carry_setWidth {i : Nat} (x y : BitVec w) (c : Bool) :
    BitVec.carry i (x.setWidth (w + 1)) (y.setWidth (w + 1)) c = BitVec.carry i x y c := by
  rw [BitVec.carry, BitVec.carry, BitVec.toNat_setWidth_of_le (by omega),
    BitVec.toNat_setWidth_of_le (by omega)]

/-- The carries of a sum, below its width. -/
theorem carries_getLsbD {i : Nat} (x y : BitVec w) (c : Bool) (h : i < w) :
    ((exactOperators createMerged).addWithCarries ⟨w, x⟩ ⟨w, y⟩ (ofBool c)).2.bits.getLsbD i =
      BitVec.carry (i + 1) x y c := by
  show ((_ ^^^ _ ^^^ (x.setWidth (w + 1) + y.setWidth (w + 1) +
    (BitVec.ofBool c).setWidth (w + 1))) >>> 1 |>.setWidth w).getLsbD i = _
  rw [BitVec.getLsbD_setWidth, decide_eq_true h, Bool.true_and, BitVec.getLsbD_ushiftRight,
    Nat.add_comm 1 i, BitVec.getLsbD_xor, BitVec.getLsbD_xor,
    BitVec.getLsbD_add_add_bool (by omega), carry_setWidth x y c]
  generalize BitVec.getLsbD (x.setWidth (w + 1)) (i + 1) = p
  generalize BitVec.getLsbD (y.setWidth (w + 1)) (i + 1) = q
  generalize BitVec.carry (i + 1) x y c = r
  cases p <;> cases q <;> cases r <;> rfl

theorem sum_getLsbD {i : Nat} (x y : BitVec w) (c : Bool) (h : i < w) :
    ((exactOperators createMerged).addWithCarries ⟨w, x⟩ ⟨w, y⟩ (ofBool c)).1.bits.getLsbD i =
      (x.getLsbD i ^^ (y.getLsbD i ^^ BitVec.carry i x y c)) := by
  show ((x.setWidth (w + 1) + y.setWidth (w + 1) +
    (BitVec.ofBool c).setWidth (w + 1)).setWidth w).getLsbD i = _
  rw [BitVec.getLsbD_setWidth, decide_eq_true h, Bool.true_and,
    BitVec.getLsbD_add_add_bool (by omega), carry_setWidth x y c,
    BitVec.getLsbD_setWidth, BitVec.getLsbD_setWidth, decide_eq_true (by omega : i < w + 1),
    Bool.true_and, Bool.true_and]

/-- The flags of the subtraction compare as signed numbers. -/
theorem notLess_exact (hw : 2 ≤ w) (x y : BitVec w) :
    MemoryCell.notLess (exactOperators createMerged) w ⟨w, x⟩ ⟨w, y⟩ =
      ofBool (decide (y.toInt ≤ x.toInt)) := by
  have hsf := sum_getLsbD createMerged x (~~~y) true (i := w - 1) (by omega)
  have hcarry := carries_getLsbD createMerged x (~~~y) true (i := w - 1) (by omega)
  have hcarry' := carries_getLsbD createMerged x (~~~y) true (i := w - 2) (by omega)
  rw [Nat.sub_add_cancel (by omega : 1 ≤ w)] at hcarry
  rw [(by omega : w - 2 + 1 = w - 1)] at hcarry'
  have hslt : x.slt y = ((x.msb == y.msb) ^^ BitVec.carry w x (~~~y) true) := BitVec.slt_eq_not_carry
  have hnot : (~~~y).getLsbD (w - 1) = !y.getLsbD (w - 1) := by
    rw [BitVec.getLsbD_not, decide_eq_true (by omega), Bool.true_and]
  have hle : decide (y.toInt ≤ x.toInt) = !x.slt y := by
    rw [BitVec.slt_eq_decide, ← decide_not]
    exact decide_eq_decide.mpr not_lt.symm
  rw [BitVec.msb_eq_getLsbD_last, BitVec.msb_eq_getLsbD_last] at hslt
  show (exactOperators createMerged).invert ((exactOperators createMerged).xor
    ((exactOperators createMerged).extract _ (w - 1) w) ((exactOperators createMerged).xor
      ((exactOperators createMerged).extract _ (w - 1) w)
      ((exactOperators createMerged).extract _ (w - 2) (w - 1)))) = _
  rw [extract_bit _ _ (by omega : w = w - 1 + 1), extract_bit _ _ (by omega : w = w - 1 + 1),
    extract_bit _ _ (by omega : w - 1 = w - 2 + 1), xor_ofBool, xor_ofBool, invert_ofBool, hle, hslt]
  refine congrArg ofBool ?_
  refine (congrArg not (congrArg₂ xor hsf (congrArg₂ xor hcarry hcarry'))).trans ?_
  rw [hnot]
  generalize x.getLsbD (w - 1) = p
  generalize y.getLsbD (w - 1) = q
  generalize BitVec.carry (w - 1) x (~~~y) true = r
  generalize BitVec.carry w x (~~~y) true = s
  cases p <;> cases q <;> cases r <;> cases s <;> rfl

/-- A place of an address space as a signed number, from the middle of the space on a negative one;
the end of the space is at zero. -/
def signedAt (size x : Nat) : Int := if 2 * x < size then x else x - size

/-- Ranges that share a byte overlap as signed ranges where neither reaches the middle. -/
theorem signedAt_shared {size l g l' g' : Nat} (hl : l < g) (hl' : l' < g') (hg : g ≤ size)
    (hg' : g' ≤ size) (h : l < g') (h' : l' < g) :
    (signedAt size l' < signedAt size g ∧ signedAt size l < signedAt size g') ↔
      ¬(2 * l < size ∧ size ≤ 2 * g) ∧ ¬(2 * l' < size ∧ size ≤ 2 * g') := by
  unfold signedAt
  split_ifs <;> omega

/-- A range below another one is apart from it as a signed range, closed or not. -/
theorem signedAt_apart {size l g l' g' : Nat} (hl : l < g) (hl' : l' < g') (hg' : g' ≤ size)
    (h : g ≤ l') :
    (signedAt size g ≤ signedAt size l' ∨ signedAt size g' ≤ signedAt size l) ∧
        ¬(signedAt size l ≤ signedAt size g' ∧ signedAt size l' ≤ signedAt size g) ↔
      ¬(g = l' ∧ (size ≤ 2 * l ∨ 2 * g' < size)) ∧
        ¬(l = 0 ∧ g' = size ∧ (g = l' ∨ 2 * g < size ∧ size ≤ 2 * l')) := by
  unfold signedAt
  split_ifs <;> omega

/-- A cell of some bytes at a concrete address, which end within the address space. -/
structure ConcreteCell (w : Nat) where
  address : BitVec w
  bytes : Nat
  value : BitVec (8 * bytes)
  pos : 0 < bytes
  fits : address.toNat + bytes ≤ 2 ^ w

namespace ConcreteCell

def toCell (c : ConcreteCell w) : MemoryCell ConcreteValue :=
  MemoryCell.create ⟨w, c.address⟩ ⟨8 * c.bytes, c.value⟩

def lo (c : ConcreteCell w) : Nat := c.address.toNat

def hi (c : ConcreteCell w) : Nat := c.lo + c.bytes

def SharesByte (c d : ConcreteCell w) : Prop := ∃ x, (c.lo ≤ x ∧ x < c.hi) ∧ d.lo ≤ x ∧ x < d.hi

/-- The comparison takes the two highest carries, and fails an assertion where there is one. -/
def Comparable (c d : ConcreteCell w) : Prop := c.bytes = 1 ∧ d.bytes = 1 ∨ 2 ≤ w

instance (c d : ConcreteCell w) : Decidable (Comparable c d) :=
  inferInstanceAs (Decidable (_ ∨ _))

def mayAlias (c d : ConcreteCell w) : Option Bool :=
  if Comparable c d then some (c.toCell.mayAlias (exactOperators createMerged) d.toCell) else none

def mustAlias (c d : ConcreteCell w) : Option Bool :=
  if Comparable c d then some (c.toCell.mustAlias (exactOperators createMerged) d.toCell) else none

/-- The end of a cell as a signed number. -/
def signedHi (c : ConcreteCell w) : Int := (c.address + BitVec.ofNat w c.bytes).toInt

theorem toInt_lo (c : ConcreteCell w) : c.address.toInt = signedAt (2 ^ w) c.lo := by
  rw [BitVec.toInt_eq_toNat_cond]
  rfl

theorem signedHi_eq (c : ConcreteCell w) : c.signedHi = signedAt (2 ^ w) c.hi := by
  have hfits : c.hi ≤ 2 ^ w := c.fits
  have hpos := Nat.two_pow_pos w
  have hmod : (c.address + BitVec.ofNat w c.bytes).toNat = c.hi % 2 ^ w := by
    rw [BitVec.toNat_add, BitVec.toNat_ofNat, Nat.add_mod_mod, hi, lo]
  rw [signedHi, BitVec.toInt_eq_toNat_cond, hmod, signedAt]
  rcases hfits.lt_or_eq with hlt | heq
  · rw [Nat.mod_eq_of_lt hlt]
  · rw [heq, Nat.mod_self, if_pos (by omega), if_neg (by omega)]
    omega

theorem hi_toCell (c : ConcreteCell w) :
    c.toCell.hi (exactOperators createMerged) = ⟨w, c.address + BitVec.ofNat w c.bytes⟩ := by
  show ConcreteValue.mk w (c.address + (BitVec.ofNat w (8 * c.bytes / 8)).setWidth w) = _
  rw [Nat.mul_div_cancel_left c.bytes (by omega), BitVec.setWidth_eq]

/-- Byte cells are compared by their addresses alone. -/
theorem alias_bytes {c d : ConcreteCell w} (hc : c.bytes = 1) (hd : d.bytes = 1) :
    mayAlias createMerged c d = some (decide (c.lo = d.lo)) ∧
      mustAlias createMerged c d = some (decide (c.lo = d.lo)) := by
  have hbits : (exactOperators createMerged).nBits c.toCell.value = 8 ∧
      (exactOperators createMerged).nBits d.toCell.value = 8 := by
    show 8 * c.bytes = 8 ∧ 8 * d.bytes = 8
    omega
  rw [mayAlias, mustAlias, if_pos (.inl ⟨hc, hd⟩), if_pos (.inl ⟨hc, hd⟩), MemoryCell.mayAlias,
    MemoryCell.mustAlias, if_pos hbits, if_pos hbits]
  exact ⟨rfl, rfl⟩

/-- Other cells are compared as ranges of signed numbers. -/
theorem alias_ranges {c d : ConcreteCell w} (hbytes : ¬(c.bytes = 1 ∧ d.bytes = 1)) (hw : 2 ≤ w) :
    mayAlias createMerged c d =
        some (!(decide (c.signedHi ≤ d.address.toInt) || decide (d.signedHi ≤ c.address.toInt))) ∧
      mustAlias createMerged c d =
        some (decide (c.address.toInt ≤ d.signedHi) && decide (d.address.toInt ≤ c.signedHi)) := by
  have hbits : ¬((exactOperators createMerged).nBits c.toCell.value = 8 ∧
      (exactOperators createMerged).nBits d.toCell.value = 8) := by
    show ¬(8 * c.bytes = 8 ∧ 8 * d.bytes = 8)
    omega
  have hless : ∀ x y : BitVec w, MemoryCell.notLess (exactOperators createMerged)
      ((exactOperators createMerged).nBits c.toCell.address) ⟨w, x⟩ ⟨w, y⟩ =
        ofBool (decide (y.toInt ≤ x.toInt)) := notLess_exact createMerged hw
  rw [mayAlias, mustAlias, if_pos (.inr hw), if_pos (.inr hw), MemoryCell.mayAlias,
    MemoryCell.mustAlias, if_neg hbits, if_neg hbits]
  dsimp only
  rw [hi_toCell, hi_toCell]
  constructor
  · refine congrArg (fun b => some !b) ?_
    refine Eq.trans ?_ (isTrue_or_ofBool createMerged _ _)
    exact congrArg _ (congrArg₂ _ (hless _ _) (hless _ _))
  · refine congrArg some ?_
    refine Eq.trans ?_ (isTrue_and_ofBool createMerged _ _)
    exact congrArg _ (congrArg₂ _ (hless _ _) (hless _ _))

theorem sharesByte_iff {c d : ConcreteCell w} : SharesByte c d ↔ c.lo < d.hi ∧ d.lo < c.hi := by
  have hc := c.pos
  have hd := d.pos
  constructor
  · intro ⟨x, hx, hx'⟩
    omega
  · intro h
    refine ⟨max c.lo d.lo, ?_, ?_⟩
    · simp only [hi] at h ⊢
      omega
    · simp only [hi] at h ⊢
      omega

/-- Aliasing is told exactly, and in either order. -/
structure AliasExact (c d : ConcreteCell w) : Prop where
  may : ∃ b, mayAlias createMerged c d = some b ∧ mayAlias createMerged d c = some b ∧
    (b = true ↔ SharesByte c d)
  must : ∃ b, mustAlias createMerged c d = some b ∧ mustAlias createMerged d c = some b ∧
    (b = true → SharesByte c d)

/-- A cell that begins in the lower half of the address space and reaches its middle. -/
def ReachesMiddle (c : ConcreteCell w) : Prop := 2 * c.lo < 2 ^ w ∧ 2 ^ w ≤ 2 * c.hi

/-- A cell right below another one, where they do not have the middle between their ends. -/
def TouchesWithinHalf (c d : ConcreteCell w) : Prop :=
  c.hi = d.lo ∧ (2 ^ w ≤ 2 * c.lo ∨ 2 * d.hi < 2 ^ w)

/-- A cell at the bottom of the address space and one at its top, which touch or have the middle
between them. -/
def SpansSpace (c d : ConcreteCell w) : Prop :=
  c.lo = 0 ∧ d.hi = 2 ^ w ∧ (c.hi = d.lo ∨ 2 * c.hi < 2 ^ w ∧ 2 ^ w ≤ 2 * d.lo)

/-- The cells are exact for signed comparison with closed ends. -/
structure WellPlaced (c d : ConcreteCell w) : Prop where
  width : 2 ≤ w
  shared : SharesByte c d → ¬ReachesMiddle c ∧ ¬ReachesMiddle d
  touches : ¬TouchesWithinHalf c d ∧ ¬TouchesWithinHalf d c
  spans : ¬SpansSpace c d ∧ ¬SpansSpace d c

theorem aliasExact_bytes {c d : ConcreteCell w} (hc : c.bytes = 1) (hd : d.bytes = 1) :
    AliasExact createMerged c d := by
  obtain ⟨hmay, hmust⟩ := alias_bytes createMerged hc hd
  obtain ⟨hmay', hmust'⟩ := alias_bytes createMerged hd hc
  have hshare : decide (c.lo = d.lo) = true ↔ SharesByte c d := by
    rw [decide_eq_true_eq, sharesByte_iff, hi, hi, hc, hd]
    omega
  have hsymm : decide (d.lo = c.lo) = decide (c.lo = d.lo) := decide_eq_decide.mpr eq_comm
  rw [hsymm] at hmay' hmust'
  exact ⟨⟨_, hmay, hmay', hshare⟩, ⟨_, hmust, hmust', hshare.mp⟩⟩

theorem sharesByte_comm {c d : ConcreteCell w} : SharesByte c d ↔ SharesByte d c := by
  rw [sharesByte_iff, sharesByte_iff, and_comm]

theorem WellPlaced.symm {c d : ConcreteCell w} (h : WellPlaced c d) : WellPlaced d c where
  width := h.width
  shared hs := (h.shared (sharesByte_comm.mp hs)).symm
  touches := h.touches.symm
  spans := h.spans.symm

theorem wellPlaced_comm {c d : ConcreteCell w} : WellPlaced c d ↔ WellPlaced d c :=
  ⟨WellPlaced.symm, WellPlaced.symm⟩

theorem lo_lt_hi (c : ConcreteCell w) : c.lo < c.hi := Nat.lt_add_of_pos_right c.pos

theorem wellPlaced_shared {c d : ConcreteCell w} (hw : 2 ≤ w) (h : SharesByte c d) :
    WellPlaced c d ↔ d.address.toInt < c.signedHi ∧ c.address.toInt < d.signedHi := by
  have hc := c.lo_lt_hi
  have hd := d.lo_lt_hi
  have hboth := sharesByte_iff.mp h
  rw [toInt_lo, toInt_lo, signedHi_eq, signedHi_eq,
    signedAt_shared hc hd c.fits d.fits hboth.1 hboth.2]
  constructor
  · exact fun hwell => hwell.shared h
  · intro hmiddle
    refine ⟨hw, fun _ => hmiddle, ⟨fun ht => ?_, fun ht => ?_⟩, fun hs => ?_, fun hs => ?_⟩
    · have hend := ht.1
      omega
    · have hend := ht.1
      omega
    · have hend := hs.2.2
      omega
    · have hend := hs.2.2
      omega

theorem wellPlaced_apart {c d : ConcreteCell w} (hw : 2 ≤ w) (h : c.hi ≤ d.lo) :
    WellPlaced c d ↔
      (c.signedHi ≤ d.address.toInt ∨ d.signedHi ≤ c.address.toInt) ∧
        ¬(c.address.toInt ≤ d.signedHi ∧ d.address.toInt ≤ c.signedHi) := by
  have hc := c.lo_lt_hi
  have hd := d.lo_lt_hi
  rw [toInt_lo, toInt_lo, signedHi_eq, signedHi_eq, signedAt_apart hc hd d.fits h]
  constructor
  · exact fun hwell => ⟨hwell.touches.1, hwell.spans.1⟩
  · intro ⟨htouch, hspan⟩
    refine ⟨hw, fun hs => ?_, ⟨htouch, fun ht => ?_⟩, hspan, fun hs => ?_⟩
    · have hboth := sharesByte_iff.mp hs
      omega
    · have hend := ht.1
      omega
    · have hend := hs.2.2
      omega

/-- The comparison of signed numbers is exact for cells that are well placed. -/
theorem signed_exact_iff {c d : ConcreteCell w} (hw : 2 ≤ w) :
    ((¬(c.signedHi ≤ d.address.toInt ∨ d.signedHi ≤ c.address.toInt) ↔ SharesByte c d) ∧
        (c.address.toInt ≤ d.signedHi ∧ d.address.toInt ≤ c.signedHi → SharesByte c d)) ↔
      WellPlaced c d := by
  by_cases hshare : SharesByte c d
  · rw [wellPlaced_shared hw hshare, iff_true_right hshare, not_or, not_le, not_le]
    exact and_iff_left fun _ => hshare
  · rw [iff_false_right hshare, not_not]
    have hfalse : (c.address.toInt ≤ d.signedHi ∧ d.address.toInt ≤ c.signedHi → SharesByte c d) ↔
        ¬(c.address.toInt ≤ d.signedHi ∧ d.address.toInt ≤ c.signedHi) :=
      ⟨fun h hboth => hshare (h hboth), fun h hboth => absurd hboth h⟩
    rw [hfalse]
    rw [sharesByte_iff] at hshare
    by_cases hbelow : c.hi ≤ d.lo
    · exact (wellPlaced_apart hw hbelow).symm
    · rw [wellPlaced_comm, wellPlaced_apart hw (by omega : d.hi ≤ c.lo), or_comm,
        and_comm (a := d.address.toInt ≤ c.signedHi)]

/-- Telling aliases from the flags is exact where both cells are bytes, or they are well placed. -/
theorem aliasExact_iff (c d : ConcreteCell w) :
    AliasExact createMerged c d ↔ c.bytes = 1 ∧ d.bytes = 1 ∨ WellPlaced c d := by
  by_cases hbytes : c.bytes = 1 ∧ d.bytes = 1
  · exact iff_of_true (aliasExact_bytes createMerged hbytes.1 hbytes.2) (.inl hbytes)
  · rw [or_iff_right hbytes]
    by_cases hw : 2 ≤ w
    · obtain ⟨hmay, hmust⟩ := alias_ranges createMerged hbytes hw
      obtain ⟨hmay', hmust'⟩ := alias_ranges createMerged (mt And.symm hbytes) hw
      rw [Bool.or_comm] at hmay'
      rw [Bool.and_comm] at hmust'
      rw [← signed_exact_iff hw]
      constructor
      · intro ⟨⟨b, hb, _, hexact⟩, ⟨b', hb', _, hshare⟩⟩
        rw [hmay] at hb
        rw [hmust] at hb'
        rw [← Option.some.inj hb] at hexact
        rw [← Option.some.inj hb'] at hshare
        simpa using And.intro hexact hshare
      · intro ⟨hexact, hshare⟩
        exact ⟨⟨_, hmay, hmay', by simpa using hexact⟩, ⟨_, hmust, hmust', by simpa using hshare⟩⟩
    · refine iff_of_false (fun h => ?_) fun h => hw h.width
      have hnot : ¬Comparable c d := not_or.mpr ⟨hbytes, hw⟩
      obtain ⟨b, hb, -⟩ := h.may
      rw [mayAlias, if_neg hnot] at hb
      cases hb

/-- Two bytes at an address of eight bits. -/
def wordAt (address : BitVec 8) (h : address.toNat + 2 ≤ 2 ^ 8) : ConcreteCell 8 :=
  ⟨address, 2, 0, by omega, h⟩

/-- Words next to each other must alias by the flags, and words that share the middle byte of the
address space may not. -/
theorem alias_wrong :
    mustAlias (fun a _ => a) (wordAt 4 (by decide)) (wordAt 6 (by decide)) = some true ∧
      mayAlias (fun a _ => a) (wordAt 127 (by decide)) (wordAt 128 (by decide)) = some false ∧
      ¬∀ (w : Nat) (c d : ConcreteCell w), AliasExact (fun a _ => a) c d := by
  have hmust :
      mustAlias (fun a _ => a) (wordAt 4 (by decide)) (wordAt 6 (by decide)) = some true := rfl
  refine ⟨hmust, rfl, fun h => ?_⟩
  obtain ⟨b, hb, -, hshare⟩ := (h 8 (wordAt 4 (by decide)) (wordAt 6 (by decide))).must
  rw [hmust] at hb
  have hboth := sharesByte_iff.mp (hshare (Option.some.inj hb).symm)
  exact absurd hboth.2 (by decide)

end ConcreteCell

end LoomX.CellMemory
