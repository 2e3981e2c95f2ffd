import LoomX.SRecord.Record
import Mathlib.Data.Nat.Digits.Lemmas
import Mathlib.Tactic.Ring

namespace LoomX.DigitText

variable {base : Nat}

/-- The last `width` digits of a number, most significant digit first. -/
def digits (base : Nat) : Nat → Nat → List Nat
  | 0, _ => []
  | width + 1, n => digits base width (n / base) ++ [n % base]

@[simp] theorem length_digits (width n : Nat) : (digits base width n).length = width := by
  induction width generalizing n with
  | zero => rfl
  | succ width ih => simp [digits, ih]

theorem lt_of_mem_digits (hb : 0 < base) {width n d : Nat} (hd : d ∈ digits base width n) :
    d < base := by
  induction width generalizing n with
  | zero => simp [digits] at hd
  | succ width ih =>
    rcases List.mem_append.mp hd with hd | hd
    · exact ih hd
    · rw [List.mem_singleton.mp hd]
      exact Nat.mod_lt n hb

theorem digits_zero (width : Nat) : digits base width 0 = List.replicate width 0 := by
  induction width with
  | zero => rfl
  | succ width ih => simp [digits, ih, List.replicate_succ']

/-- Zero-padding the shortest numeral to the full width gives the digits of that width. -/
theorem leftpad_toDigits (hb : 1 < base) {width n : Nat} (hn : n < base ^ (width + 1)) :
    (Nat.toDigits base n).leftpad (width + 1) '0' =
      (digits base (width + 1) n).map Nat.digitChar := by
  induction width generalizing n with
  | zero =>
    have hn' : n < base := by simpa using hn
    simp [Nat.toDigits_of_lt_base hn', digits, Nat.mod_eq_of_lt hn', List.leftpad]
  | succ width ih =>
    rw [digits, List.map_append, List.map_singleton]
    by_cases h : n < base
    · rw [Nat.toDigits_of_lt_base h, Nat.div_eq_of_lt h, Nat.mod_eq_of_lt h, digits_zero]
      simp [List.leftpad]
    · have hq : n / base < base ^ (width + 1) :=
        Nat.div_lt_of_lt_mul (by rwa [Nat.pow_succ'] at hn)
      rw [← ih hq, Nat.toDigits_of_base_le hb (by omega), List.leftpad, List.leftpad]
      simp

/-- Reading the digits of a width after an accumulator scales it and adds the number. -/
theorem foldl_digits (v : Nat) {width n : Nat} (hn : n < base ^ width) :
    (digits base width n).foldl (fun v d => v * base + d) v = v * base ^ width + n := by
  induction width generalizing n with
  | zero =>
    have hn0 : n = 0 := by simpa using hn
    simp [digits, hn0]
  | succ width ih =>
    have hq : n / base < base ^ width := Nat.div_lt_of_lt_mul (by rwa [Nat.pow_succ'] at hn)
    have hn' := Nat.div_add_mod n base
    rw [digits, List.foldl_append, ih hq, List.foldl_cons, List.foldl_nil, Nat.pow_succ]
    calc (v * base ^ width + n / base) * base + n % base
        = v * (base ^ width * base) + (base * (n / base) + n % base) := by ring
      _ = v * (base ^ width * base) + n := by rw [hn']

end LoomX.DigitText

namespace LoomX.SRecord

open DigitText

theorem hexadecimalToInt_digitChar {d : Nat} (hd : d < 16) :
    isxdigit d.digitChar ∧ hexadecimalToInt d.digitChar = d := by
  revert d
  decide

theorem hexadecimalToInt_upper {d : Nat} (hd : d < 16) :
    isxdigit d.digitChar.toUpper ∧ hexadecimalToInt d.digitChar.toUpper = d := by
  revert d
  decide

theorem pushDigit_eq {v : Address} {c : Char} (hv : v.toNat < 2 ^ 60) (hc : isxdigit c)
    (hd : hexadecimalToInt c < 16) :
    pushDigit v c = some (BitVec.ofNat 64 (v.toNat * 16 + hexadecimalToInt c)) := by
  have htop : v >>> 60 = 0#64 := by
    apply BitVec.eq_of_toNat_eq
    rw [BitVec.toNat_ushiftRight, Nat.shiftRight_eq_div_pow, Nat.div_eq_of_lt hv]
    rfl
  have hpush : (v <<< 4) ||| BitVec.ofNat 64 (hexadecimalToInt c) =
      BitVec.ofNat 64 (v.toNat * 16 + hexadecimalToInt c) := by
    apply BitVec.eq_of_toNat_eq
    rw [BitVec.toNat_or, BitVec.toNat_shiftLeft, BitVec.toNat_ofNat, BitVec.toNat_ofNat,
      Nat.mod_eq_of_lt (by rw [Nat.shiftLeft_eq]; omega), Nat.mod_eq_of_lt (by omega),
      Nat.mod_eq_of_lt (by omega), ← Nat.shiftLeft_add_eq_or_of_lt (by omega : _ < 2 ^ 4),
      Nat.shiftLeft_eq]
  simp [pushDigit, hc, htop, hpush]

/-- A fixed-width numeral written with a faithful digit alphabet is read as its number. -/
theorem foldlM_pushDigit {f : Nat → Char}
    (hf : ∀ d < 16, isxdigit (f d) ∧ hexadecimalToInt (f d) = d) {v : Address} {k : Nat}
    {ds : List Nat} (hds : ∀ d ∈ ds, d < 16) (hv : v.toNat < 16 ^ k) (hk : k + ds.length ≤ 16) :
    (ds.map f).foldlM pushDigit v =
      some (BitVec.ofNat 64 (ds.foldl (fun v d => v * 16 + d) v.toNat)) := by
  induction ds generalizing v k with
  | nil => simp
  | cons d ds ih =>
    obtain ⟨hd, hds⟩ := List.forall_mem_cons.mp hds
    obtain ⟨hx, hval⟩ := hf d hd
    rw [List.length_cons] at hk
    have hk15 : 16 ^ k ≤ 16 ^ 15 := Nat.pow_le_pow_right (by omega) (by omega)
    have hstep := pushDigit_eq (by omega : v.toNat < 2 ^ 60) hx (by omega)
    rw [hval] at hstep
    have hv' : (BitVec.ofNat 64 (v.toNat * 16 + d)).toNat = v.toNat * 16 + d := by
      rw [BitVec.toNat_ofNat, Nat.mod_eq_of_lt (by omega)]
    rw [List.map_cons, List.foldlM_cons, hstep, Option.bind_eq_bind, Option.bind_some,
      ih hds (k := k + 1) (by rw [hv', Nat.pow_succ]; omega) (by omega), hv']
    rfl

theorem hexLower_eq {width n : Nat} (hn : n < 16 ^ (width + 1)) :
    hexLower (width + 1) n = (digits 16 (width + 1) n).map Nat.digitChar :=
  leftpad_toDigits (by omega) hn

theorem hexUpper_eq {width n : Nat} (hn : n < 16 ^ (width + 1)) :
    hexUpper (width + 1) n = (digits 16 (width + 1) n).map fun d => d.digitChar.toUpper := by
  rw [hexUpper, hexLower_eq hn, List.map_map]
  rfl

theorem read_digits {f : Nat → Char}
    (hf : ∀ d < 16, isxdigit (f d) ∧ hexadecimalToInt (f d) = d) {width n : Nat}
    (hw : width ≤ 16) (hn : n < 16 ^ width) :
    ((digits 16 width n).map f).foldlM pushDigit 0 = some (BitVec.ofNat 64 n) := by
  rw [foldlM_pushDigit hf (fun d hd => lt_of_mem_digits (by omega) hd) (k := 0)
    (by simp) (by simpa using hw), foldl_digits _ hn]
  simp

/-- `text` is a numeral of `n` with `width` digits, as the parser reads it. -/
def Spells (text : Text) (width n : Nat) : Prop :=
  text.length = width ∧ text.foldlM pushDigit 0 = some (BitVec.ofNat 64 n)

theorem spells_lower {width n : Nat} (h0 : 0 < width) (hw : width ≤ 16) (hn : n < 16 ^ width) :
    Spells (hexLower width n) width n := by
  obtain ⟨width, rfl⟩ := Nat.exists_eq_succ_of_ne_zero h0.ne'
  rw [Nat.succ_eq_add_one] at hn hw ⊢
  rw [hexLower_eq hn]
  exact ⟨by simp, read_digits (fun d => hexadecimalToInt_digitChar) hw hn⟩

theorem spells_upper {width n : Nat} (h0 : 0 < width) (hw : width ≤ 16) (hn : n < 16 ^ width) :
    Spells (hexUpper width n) width n := by
  obtain ⟨width, rfl⟩ := Nat.exists_eq_succ_of_ne_zero h0.ne'
  rw [Nat.succ_eq_add_one] at hn hw ⊢
  rw [hexUpper_eq hn]
  exact ⟨by simp, read_digits (fun d => hexadecimalToInt_upper) hw hn⟩

theorem spells_byte (byte : Byte) : Spells (hexUpper 2 byte.toNat) 2 byte.toNat :=
  spells_upper (by omega) (by omega) byte.isLt

theorem field_append (pre text post : Text) :
    field (pre ++ (text ++ post)) pre.length text.length = text := by
  simp [field]

/-- A numeral inside a line is read where it stands. -/
theorem parse_spelled {pre text post : Text} {start width n : Nat} (h : Spells text width n)
    (hstart : pre.length = start) :
    parseBigEndianInteger (pre ++ (text ++ post)) start width = some (BitVec.ofNat 64 n) := by
  obtain ⟨hlen, hread⟩ := h
  subst hstart hlen
  have hroom : ¬ pre.length + text.length > (pre ++ (text ++ post)).length := by
    simp only [List.length_append]
    omega
  rw [parseBigEndianInteger, if_neg hroom, field_append, hread]

theorem parseBigEndianInteger_append {s t : Text} {start nChars : Nat}
    (h : start + nChars ≤ s.length) :
    parseBigEndianInteger (s ++ t) start nChars = parseBigEndianInteger s start nChars := by
  have hfield : field (s ++ t) start nChars = field s start nChars := by
    rw [field, field, List.drop_append_of_le_length (by omega),
      List.take_append_of_le_length (by simp; omega)]
  rw [parseBigEndianInteger, parseBigEndianInteger, hfield,
    if_neg (by simp only [List.length_append]; omega), if_neg (by omega)]

theorem sumPairs_append {s t : Text} {start n : Nat} (h : start + 2 * n ≤ s.length) :
    sumPairs (s ++ t) start n = sumPairs s start n := by
  induction n generalizing start with
  | zero => rfl
  | succ n ih =>
    rw [sumPairs, sumPairs, parseBigEndianInteger_append (by omega), ih (by omega)]

/-- The checksum depends only on the characters it covers. -/
theorem checksum_append {family : Syntax} {s t : Text} {start nChars : Nat}
    (h : start + nChars ≤ s.length) :
    checksum family (s ++ t) start nChars = checksum family s start nChars := by
  rw [checksum, checksum, sumPairs_append (by omega)]

theorem checksum_isSome {family : Syntax} (hf : family ≠ .unknown) {s : Text}
    {start nChars : Nat} (h : nChars % 2 = 0) : ∃ sum, checksum family s start nChars = some sum := by
  cases family with
  | motorola => exact ⟨_, by rw [checksum, if_neg (by omega)]⟩
  | intel => exact ⟨_, by rw [checksum, if_neg (by omega)]⟩
  | unknown => exact absurd rfl hf

/-- The printed data bytes are read back. -/
theorem parseBytes_flatMap (pre post : Text) (data : List Byte) {start : Nat}
    (hstart : pre.length = start) :
    parseBytes (pre ++ (data.flatMap (fun byte => hexUpper 2 byte.toNat) ++ post)) start data.length
      = (data, true) := by
  induction data generalizing pre start with
  | nil => rfl
  | cons byte data ih =>
    have hb := spells_byte byte
    have hread := @parse_spelled pre _ (data.flatMap (fun byte => hexUpper 2 byte.toNat) ++ post)
      _ _ _ hb hstart
    have hlen : (pre ++ hexUpper 2 byte.toNat).length = start + 2 := by
      rw [List.length_append, hb.1, hstart]
    have hrest := ih (pre ++ hexUpper 2 byte.toNat) hlen
    rw [List.append_assoc] at hrest
    rw [List.flatMap_cons, List.append_assoc, List.length_cons, parseBytes, hread]
    simp only [hrest, Prod.mk.injEq, List.cons.injEq, and_true]
    apply BitVec.eq_of_toNat_eq
    have := byte.isLt
    simp only [BitVec.toNat_setWidth, BitVec.toNat_ofNat]
    omega

theorem length_flatMap_bytes (data : List Byte) :
    (data.flatMap fun byte => hexUpper 2 byte.toNat).length = 2 * data.length := by
  induction data with
  | nil => rfl
  | cons byte data ih =>
    rw [List.flatMap_cons, List.length_append, ih, (spells_byte byte).1, List.length_cons]
    omega

end LoomX.SRecord

namespace LoomX.SRecord

/-- The payload size of the Intel types that carry a fixed value. -/
def intelPayload : RecordType → Option Nat
  | .iEnd => some 0
  | .iExtendedSA | .iStartSA | .iExtendedLA => some 2
  | .iStartLA => some 4
  | _ => none

/-- What an Intel type asks of its address and payload size. -/
def IntelShape (type : RecordType) (addr : Address) (size : Nat) : Prop :=
  match intelPayload type with
  | none => addr.toNat < 256 ^ 2 ∧ size ≤ 255
  | some n => addr = 0 ∧ size = n

/-- A type with an address in its range and data of an allowed length. -/
def Record.Valid (r : Record) : Prop :=
  match r.type.family with
  | .motorola =>
    r.addr.toNat < 256 ^ addressNBytes r.type ∧ addressNBytes r.type + r.data.length + 1 ≤ 255
  | .intel => IntelShape r.type r.addr r.data.length
  | .unknown => False

def Record.RoundTrips (r : Record) : Prop :=
  ∃ line, r.toString = .ok line ∧ (parse line).type = r.type ∧ (parse line).addr = r.addr ∧
    (parse line).data = r.data ∧ (parse line).error = ""

theorem toNat_lowMask {n : Nat} (hn : n < 64) : (lowMask n).toNat = 2 ^ n - 1 := by
  have hp : 2 ^ n < 2 ^ 64 := Nat.pow_lt_pow_right (by omega) hn
  have h1 : 1 ≤ 2 ^ n := Nat.one_le_two_pow
  rw [lowMask, if_neg (by omega), BitVec.toNat_sub, BitVec.toNat_shiftLeft]
  simp only [BitVec.toNat_ofNat, Nat.shiftLeft_eq, Nat.one_mod, Nat.one_mul, Nat.mod_eq_of_lt hp]
  omega

theorem and_lowMask {addr : Address} {n : Nat} (hn : n < 64) (h : addr.toNat < 2 ^ n) :
    addr &&& lowMask n = addr := by
  apply BitVec.eq_of_toNat_eq
  rw [BitVec.toNat_and, toNat_lowMask hn, Nat.and_two_pow_sub_one_eq_mod, Nat.mod_eq_of_lt h]

theorem getLsbD_highBits {n i : Nat} (hn : 0 < n) (hn' : n < 64) :
    (highBits n).getLsbD i = (decide (i < 64) && decide (n ≤ i)) := by
  have hmask : (lowMask (63 - n + 1)).getLsbD (i - n) = decide (i - n < 63 - n + 1) := by
    rw [BitVec.getLsbD, toNat_lowMask (by omega), Nat.testBit_two_pow_sub_one]
  rw [highBits, BitVec.getLsbD_shiftLeft, hmask]
  by_cases hi : i < 64 <;> by_cases hin : n ≤ i <;> simp [hi, hin]
  omega

/-- Sign extension leaves an address of the width alone exactly when its top bit is clear. -/
theorem signExtend_eq_iff {addr : Address} {n : Nat} (hn : 0 < n) (hn' : n < 64)
    (h : addr.toNat < 2 ^ n) : signExtend addr n = addr ↔ addr.toNat < 2 ^ (n - 1) := by
  have hhigh (i : Nat) (hi : n ≤ i) : addr.getLsbD i = false :=
    Nat.testBit_lt_two_pow (lt_of_lt_of_le h (Nat.pow_le_pow_right (by omega) hi))
  rw [signExtend, if_pos hn', msbLsb, if_pos hn]
  by_cases htop : addr.getLsbD (n - 1)
  · have hge : 2 ^ (n - 1) ≤ addr.toNat := Nat.ge_two_pow_of_testBit htop
    rw [if_pos htop]
    refine ⟨fun heq => ?_, fun hlt => by omega⟩
    have hbit := congrArg (fun v : Address => v.getLsbD n) heq
    simp only [BitVec.getLsbD_or, getLsbD_highBits hn hn', hhigh n le_rfl, hn'] at hbit
    simp at hbit
  · rw [if_neg htop]
    have hlt : addr.toNat < 2 ^ (n - 1) := by
      apply Nat.lt_pow_two_of_testBit
      intro i hi
      rcases Nat.lt_or_ge (n - 1) i with hi' | hi'
      · exact hhigh i (by omega)
      · have hi0 : i = n - 1 := by omega
        subst hi0
        simpa [BitVec.getLsbD] using htop
    refine ⟨fun _ => hlt, fun _ => BitVec.eq_of_getLsbD_eq fun i hi => ?_⟩
    rw [BitVec.getLsbD_and, BitVec.getLsbD_not, getLsbD_highBits hn hn']
    by_cases hin : n ≤ i
    · simp [hhigh i hin]
    · simp [hin, hi]

/-- A line whose checksum is printed over its own text passes the tail of the parser. -/
theorem checkTail_line {s : Text} {srec : Record} {start eof : Nat} {sum : Byte}
    (hsum : checksum srec.type.family s start (s.length - start) = some sum)
    (hstart : start ≤ s.length) (heof : eof = s.length + 2) :
    checkTail (s ++ hexUpper 2 sum.toNat) srec eof start = .ok srec := by
  have hread := @parse_spelled s _ [] _ _ _ (spells_byte sum) rfl
  rw [List.append_nil] at hread
  have hlen : (s ++ hexUpper 2 sum.toNat).length = eof := by
    rw [List.length_append, (spells_byte sum).1, heof]
  have hpos : eof - 2 = s.length := by omega
  have hcount : eof - start - 2 = s.length - start := by omega
  rw [checkTail, hpos, hread, hcount, checksum_append (by omega), hsum,
    List.drop_eq_nil_of_le hlen.le]
  simp [pure, Except.pure]

theorem motorolaDigit_read {type : RecordType} {digit : Char} (h : motorolaDigit type = some digit) :
    hexadecimalToInt digit < 10 ∧ Spells [digit] 1 (hexadecimalToInt digit) ∧
      motorolaType (hexadecimalToInt digit) = .ok type := by
  cases type <;> cases h <;> exact ⟨by decide, ⟨rfl, rfl⟩, rfl⟩

theorem motorolaDigit_isSome {type : RecordType} (h : type.family = .motorola) :
    ∃ digit, motorolaDigit type = some digit := by
  cases type <;> first | exact ⟨_, rfl⟩ | cases h

theorem addressNBytes_le (type : RecordType) : addressNBytes type ≤ 4 := by
  cases type <;> decide

/-- What a Motorola line is put together from. -/
def motorolaLine (r : Record) (digit : Char) : Text :=
  ['S', digit] ++ hexUpper 2 (addressNBytes r.type + r.data.length + 1) ++
    hexLower (2 * addressNBytes r.type) r.addr.toNat ++
    r.data.flatMap fun byte => hexUpper 2 byte.toNat

theorem header_motorola {r : Record} {digit : Char} (hd : motorolaDigit r.type = some digit)
    (hn : r.addr.toNat < 256 ^ addressNBytes r.type)
    (hsize : addressNBytes r.type + r.data.length + 1 ≤ 255) :
    r.header = .ok (['S', digit] ++ hexUpper 2 (addressNBytes r.type + r.data.length + 1) ++
      hexLower (2 * addressNBytes r.type) r.addr.toNat, 2) := by
  have hle := addressNBytes_le r.type
  have hmask : r.addr &&& lowMask (8 * addressNBytes r.type) = r.addr :=
    and_lowMask (by omega) (by rwa [Nat.pow_mul])
  simp only [Record.header, hd, hmask]
  rw [if_neg (by omega), if_neg (by simp)]

theorem length_motorolaLine {r : Record} {digit : Char} (h0 : 0 < addressNBytes r.type)
    (hn : r.addr.toNat < 256 ^ addressNBytes r.type)
    (hsize : addressNBytes r.type + r.data.length + 1 ≤ 255) :
    (motorolaLine r digit).length = 2 + 2 * (addressNBytes r.type + r.data.length + 1) := by
  have hle := addressNBytes_le r.type
  have hs : Spells (hexUpper 2 (addressNBytes r.type + r.data.length + 1)) 2 _ :=
    spells_upper (by omega) (by omega) (by omega)
  have ha : Spells (hexLower (2 * addressNBytes r.type) r.addr.toNat) _ _ :=
    spells_lower (by omega) (by omega) (by rwa [Nat.pow_mul])
  simp only [motorolaLine, List.length_append, hs.1, ha.1, length_flatMap_bytes, List.length_cons,
    List.length_nil]
  omega

/-- The Motorola parser reads back everything but the address, which it sign extends. -/
theorem parseMotorola_line {r : Record} {digit : Char} {sum : Byte}
    (hd : motorolaDigit r.type = some digit) (h0 : 0 < addressNBytes r.type)
    (hn : r.addr.toNat < 256 ^ addressNBytes r.type)
    (hsize : addressNBytes r.type + r.data.length + 1 ≤ 255)
    (hsum : checksum r.type.family (motorolaLine r digit) 2 ((motorolaLine r digit).length - 2) =
      some sum) :
    parseMotorola (motorolaLine r digit ++ hexUpper 2 sum.toNat) =
      .ok ⟨r.type, signExtend r.addr (8 * addressNBytes r.type), r.data, ""⟩ := by
  have hle := addressNBytes_le r.type
  have hlen := @length_motorolaLine r digit h0 hn hsize
  obtain ⟨hd10, hdigit, htype⟩ := motorolaDigit_read hd
  have hs : Spells (hexUpper 2 (addressNBytes r.type + r.data.length + 1)) 2 _ :=
    spells_upper (by omega) (by omega) (by omega)
  have ha : Spells (hexLower (2 * addressNBytes r.type) r.addr.toNat) _ _ :=
    spells_lower (by omega) (by omega) (by rwa [Nat.pow_mul])
  have htail : checkTail (motorolaLine r digit ++ hexUpper 2 sum.toNat)
      ⟨r.type, signExtend r.addr (8 * addressNBytes r.type), r.data, ""⟩
      (2 + 2 + 2 * (addressNBytes r.type + r.data.length + 1)) 2 = .ok _ :=
    checkTail_line hsum (by omega) (by omega)
  have hline : motorolaLine r digit ++ hexUpper 2 sum.toNat =
      ['S'] ++ ([digit] ++ (hexUpper 2 (addressNBytes r.type + r.data.length + 1) ++
        (hexLower (2 * addressNBytes r.type) r.addr.toNat ++
          (r.data.flatMap (fun byte => hexUpper 2 byte.toNat) ++ hexUpper 2 sum.toNat)))) := by
    simp [motorolaLine]
  have hll : (motorolaLine r digit ++ hexUpper 2 sum.toNat).length =
      2 + 2 + 2 * (addressNBytes r.type + r.data.length + 1) := by
    rw [List.length_append, hlen, (spells_byte sum).1]
    omega
  have hhead : (motorolaLine r digit ++ hexUpper 2 sum.toNat).head? = some 'S' := by
    rw [hline]
    rfl
  generalize motorolaLine r digit ++ hexUpper 2 sum.toNat = line at *
  have hread1 : parseBigEndianInteger line 1 1 = some (BitVec.ofNat 64 (hexadecimalToInt digit)) := by
    rw [hline]
    exact parse_spelled hdigit rfl
  have hread2 : parseBigEndianInteger line 2 2 =
      some (BitVec.ofNat 64 (addressNBytes r.type + r.data.length + 1)) := by
    rw [hline, ← List.append_assoc]
    exact parse_spelled hs rfl
  have hread3 : parseBigEndianInteger line 4 (2 * addressNBytes r.type) = some r.addr := by
    rw [hline, ← List.append_assoc, ← List.append_assoc,
      parse_spelled ha (by simp [hs.1])]
    simp
  have hread4 : parseBytes line (1 + 1 + 2 + 2 * addressNBytes r.type) r.data.length =
      (r.data, true) := by
    rw [hline, ← List.append_assoc, ← List.append_assoc, ← List.append_assoc]
    refine parseBytes_flatMap _ _ _ ?_
    simp only [List.length_append, List.length_cons, List.length_nil, hs.1, ha.1]
  have hd' : (BitVec.ofNat 64 (hexadecimalToInt digit)).toNat = hexadecimalToInt digit := by
    rw [BitVec.toNat_ofNat, Nat.mod_eq_of_lt (by omega)]
  have hsz : (BitVec.ofNat 64 (addressNBytes r.type + r.data.length + 1)).toNat =
      addressNBytes r.type + r.data.length + 1 := by
    rw [BitVec.toNat_ofNat, Nat.mod_eq_of_lt (by omega)]
  have hcount : addressNBytes r.type + r.data.length + 1 - addressNBytes r.type - 1 =
      r.data.length := by omega
  simp only [parseMotorola, hread1, hread2, hread3, hhead, hd', htype, hsz, hcount, hread4,
    Option.elim]
  rw [if_neg (by omega), if_neg (by simp), if_neg (by omega), if_neg (by omega), if_neg (by simp)]
  exact htail

theorem parse_motorola {line : Text} {srec : Record} (h : parseMotorola line = .ok srec) :
    parse line = srec := by
  have hhead : line.head? = some 'S' := by
    by_contra hne
    rw [parseMotorola] at h
    split at h
    next => simp [Record.fail, throw, throwThe, MonadExceptOf.throw] at h
    next => simp [Record.fail, throw, throwThe, MonadExceptOf.throw] at h
  rw [parse, if_pos hhead, h]

theorem intelDigits_read {type : RecordType} {digits : Text} (h : intelDigits type = some digits) :
    ∃ t < 6, Spells digits 2 t ∧
      ∀ size addr, IntelShape type addr size → intelType size addr t = (type, none) := by
  cases type <;> cases h
  · exact ⟨0, by decide, ⟨rfl, rfl⟩, fun _ _ _ => rfl⟩
  · exact ⟨1, by decide, ⟨rfl, rfl⟩, by rintro _ _ ⟨rfl, rfl⟩; rfl⟩
  · exact ⟨2, by decide, ⟨rfl, rfl⟩, by rintro _ _ ⟨rfl, rfl⟩; rfl⟩
  · exact ⟨3, by decide, ⟨rfl, rfl⟩, by rintro _ _ ⟨rfl, rfl⟩; rfl⟩
  · exact ⟨4, by decide, ⟨rfl, rfl⟩, by rintro _ _ ⟨rfl, rfl⟩; rfl⟩
  · exact ⟨5, by decide, ⟨rfl, rfl⟩, by rintro _ _ ⟨rfl, rfl⟩; rfl⟩

theorem intelDigits_isSome {type : RecordType} (h : type.family = .intel) :
    motorolaDigit type = none ∧ ∃ digits, intelDigits type = some digits := by
  cases type <;> first | exact ⟨rfl, _, rfl⟩ | cases h

def intelLine (r : Record) (digits : Text) : Text :=
  ':' :: hexUpper 2 r.data.length ++ hexUpper 4 r.addr.toNat ++ digits ++
    r.data.flatMap fun byte => hexUpper 2 byte.toNat

theorem IntelShape.bounds {type : RecordType} {addr : Address} {size : Nat}
    (h : IntelShape type addr size) : addr.toNat < 256 ^ 2 ∧ size ≤ 255 := by
  cases type <;> first
    | exact h
    | exact ⟨by rw [h.1]; decide, by rw [h.2]; decide⟩

theorem header_intel {r : Record} {digits : Text} (hm : motorolaDigit r.type = none)
    (hd : intelDigits r.type = some digits) (hn : r.addr.toNat < 256 ^ 2)
    (hsize : r.data.length ≤ 255) :
    r.header = .ok (':' :: hexUpper 2 r.data.length ++ hexUpper 4 r.addr.toNat ++ digits, 1) := by
  simp only [Record.header, hm, hd]
  rw [if_neg (by omega), if_neg (by omega)]

theorem length_intelLine {r : Record} {digits : Text} (hd : digits.length = 2)
    (hn : r.addr.toNat < 256 ^ 2) (hsize : r.data.length ≤ 255) :
    (intelLine r digits).length = 9 + 2 * r.data.length := by
  have hs : Spells (hexUpper 2 r.data.length) 2 _ :=
    spells_upper (by omega) (by omega) (by omega)
  have ha : Spells (hexUpper 4 r.addr.toNat) 4 _ :=
    spells_upper (by omega) (by omega) (by omega)
  simp only [intelLine, List.length_append, List.length_cons, hs.1, ha.1, hd, length_flatMap_bytes]

theorem parseIntel_line {r : Record} {digits : Text} {sum : Byte}
    (hd : intelDigits r.type = some digits) (hshape : IntelShape r.type r.addr r.data.length)
    (hn : r.addr.toNat < 256 ^ 2) (hsize : r.data.length ≤ 255)
    (hsum : checksum r.type.family (intelLine r digits) 1 ((intelLine r digits).length - 1) =
      some sum) :
    parseIntel (intelLine r digits ++ hexUpper 2 sum.toNat) =
      .ok ⟨r.type, r.addr, r.data, ""⟩ := by
  obtain ⟨t, ht6, hdigits, htype⟩ := intelDigits_read hd
  have hlen := length_intelLine hdigits.1 hn hsize
  have hs : Spells (hexUpper 2 r.data.length) 2 _ :=
    spells_upper (by omega) (by omega) (by omega)
  have ha : Spells (hexUpper 4 r.addr.toNat) 4 _ :=
    spells_upper (by omega) (by omega) (by omega)
  have htail : checkTail (intelLine r digits ++ hexUpper 2 sum.toNat)
      ⟨r.type, r.addr, r.data, ""⟩ (1 + 2 + 4 + 2 + 2 * r.data.length + 2) 1 = .ok _ :=
    checkTail_line hsum (by omega) (by omega)
  have hline : intelLine r digits ++ hexUpper 2 sum.toNat =
      [':'] ++ (hexUpper 2 r.data.length ++ (hexUpper 4 r.addr.toNat ++ (digits ++
        (r.data.flatMap (fun byte => hexUpper 2 byte.toNat) ++ hexUpper 2 sum.toNat)))) := by
    simp [intelLine]
  have hll : (intelLine r digits ++ hexUpper 2 sum.toNat).length =
      1 + 2 + 4 + 2 + 2 * r.data.length + 2 := by
    rw [List.length_append, hlen, (spells_byte sum).1]
  have hhead : (intelLine r digits ++ hexUpper 2 sum.toNat).head? = some ':' := by
    rw [hline]
    rfl
  generalize intelLine r digits ++ hexUpper 2 sum.toNat = line at *
  have hread1 : parseBigEndianInteger line 1 2 = some (BitVec.ofNat 64 r.data.length) := by
    rw [hline]
    exact parse_spelled hs rfl
  have hread3 : parseBigEndianInteger line 3 4 = some r.addr := by
    rw [hline, ← List.append_assoc, parse_spelled ha (by simp [hs.1])]
    simp
  have hread7 : parseBigEndianInteger line 7 2 = some (BitVec.ofNat 64 t) := by
    rw [hline, ← List.append_assoc, ← List.append_assoc]
    exact parse_spelled hdigits (by simp [hs.1, ha.1])
  have hread9 : parseBytes line (1 + 2 + 4 + 2) r.data.length = (r.data, true) := by
    rw [hline, ← List.append_assoc, ← List.append_assoc, ← List.append_assoc]
    refine parseBytes_flatMap _ _ _ ?_
    simp only [List.length_append, List.length_cons, List.length_nil, hs.1, ha.1, hdigits.1]
  have ht : (BitVec.ofNat 64 t).toNat = t := by
    rw [BitVec.toNat_ofNat, Nat.mod_eq_of_lt (by omega)]
  have hsz : (BitVec.ofNat 64 r.data.length).toNat = r.data.length := by
    rw [BitVec.toNat_ofNat, Nat.mod_eq_of_lt (by omega)]
  simp only [parseIntel, hread1, hread3, hread7, hhead, ht, hsz, hread9, Option.elim,
    htype _ _ hshape]
  rw [if_neg (by omega), if_neg (by simp), if_neg (by omega), if_neg (by simp)]
  exact htail

theorem parse_intel {line : Text} {srec : Record} (h : parseIntel line = .ok srec) :
    parse line = srec := by
  have hhead : line.head? = some ':' := by
    by_contra hne
    rw [parseIntel] at h
    split at h
    next => simp [Record.fail, throw, throwThe, MonadExceptOf.throw] at h
    next => simp [Record.fail, throw, throwThe, MonadExceptOf.throw] at h
  rw [parse, hhead, if_neg (by simp), if_pos rfl, h]

theorem roundTrips_of_line {r : Record} {addr : Address} {line : Text}
    (hprint : r.toString = .ok line) (hparse : parse line = ⟨r.type, addr, r.data, ""⟩) :
    r.RoundTrips ↔ addr = r.addr := by
  constructor
  · rintro ⟨line', hprint', -, haddr, -, -⟩
    rw [hprint] at hprint'
    cases hprint'
    rw [hparse] at haddr
    exact haddr
  · intro haddr
    exact ⟨line, hprint, by rw [hparse], by rw [hparse, haddr], by rw [hparse], by rw [hparse]⟩

theorem toString_eq {r : Record} {s : Text} {offset : Nat} (h : r.header = .ok (s, offset))
    {sum : Byte} (hsum : checksum r.type.family
      (s ++ r.data.flatMap fun byte => hexUpper 2 byte.toNat) offset
      ((s ++ r.data.flatMap fun byte => hexUpper 2 byte.toNat).length - offset) = some sum) :
    r.toString = .ok (s ++ (r.data.flatMap fun byte => hexUpper 2 byte.toNat) ++
      hexUpper 2 sum.toNat) := by
  simp only [Record.toString, h, hsum]

/-- A reserved record prints half a byte of address, on which the checksum's assertion fails. -/
theorem toString_reserved {r : Record} (hr : addressNBytes r.type = 0)
    (hf : r.type.family = .motorola) (hv : r.Valid) : r.toString = .error .assertion := by
  obtain ⟨digit, hd⟩ := motorolaDigit_isSome hf
  simp only [Record.Valid, hf, hr] at hv
  have haddr : r.addr.toNat = 0 := by omega
  have hh := header_motorola hd (by rw [hr]; omega) (by omega)
  have hs : Spells (hexUpper 2 (addressNBytes r.type + r.data.length + 1)) 2 _ :=
    spells_upper (by omega) (by omega) (by omega)
  have hzero : (hexLower (2 * addressNBytes r.type) r.addr.toNat).length = 1 := by
    rw [hr, haddr]
    decide
  simp only [Record.toString, hh]
  rw [checksum, if_pos]
  simp only [List.length_append, hs.1, hzero, length_flatMap_bytes, List.length_cons,
    List.length_nil]
  omega

/-- A valid record survives printing and parsing unless it is a Motorola record whose address has
its top bit set or has no width. -/
theorem roundTrips_iff {r : Record} (hv : r.Valid) :
    r.RoundTrips ↔ (r.type.family = .motorola →
      0 < addressNBytes r.type ∧ r.addr.toNat < 2 ^ (8 * addressNBytes r.type - 1)) := by
  have hle := addressNBytes_le r.type
  cases hf : r.type.family with
  | motorola =>
    simp only [forall_const]
    rcases Nat.eq_zero_or_pos (addressNBytes r.type) with h0 | h0
    · have hfail := toString_reserved h0 hf hv
      refine ⟨?_, fun h => absurd h.1 (by omega)⟩
      rintro ⟨line, hprint, -⟩
      rw [hfail] at hprint
      cases hprint
    · obtain ⟨digit, hd⟩ := motorolaDigit_isSome hf
      simp only [Record.Valid, hf] at hv
      obtain ⟨hn, hsize⟩ := hv
      have hlen := @length_motorolaLine r digit h0 hn hsize
      obtain ⟨sum, hsum⟩ : ∃ sum, checksum r.type.family (motorolaLine r digit) 2
          ((motorolaLine r digit).length - 2) = some sum :=
        checksum_isSome (by rw [hf]; decide) (by omega)
      have hprint := toString_eq (header_motorola hd hn hsize) hsum
      have hparse := parse_motorola (parseMotorola_line hd h0 hn hsize hsum)
      have hn' : r.addr.toNat < 2 ^ (8 * addressNBytes r.type) := by rwa [Nat.pow_mul]
      rw [roundTrips_of_line hprint hparse, signExtend_eq_iff (by omega) (by omega) hn']
      simp [h0]
  | intel =>
    obtain ⟨hm, digits, hd⟩ := intelDigits_isSome hf
    obtain ⟨t, -, hdigits, -⟩ := intelDigits_read hd
    have hshape : IntelShape r.type r.addr r.data.length := by simpa only [Record.Valid, hf] using hv
    obtain ⟨hn, hsize⟩ := hshape.bounds
    have hlen := length_intelLine hdigits.1 hn hsize
    obtain ⟨sum, hsum⟩ : ∃ sum, checksum r.type.family (intelLine r digits) 1
        ((intelLine r digits).length - 1) = some sum :=
      checksum_isSome (by rw [hf]; decide) (by omega)
    have hprint := toString_eq (header_intel hm hd hn hsize) hsum
    have hparse := parse_intel (parseIntel_line hd hshape hn hsize hsum)
    rw [roundTrips_of_line hprint hparse]
    simp
  | unknown => simp [Record.Valid, hf] at hv

theorem roundTrips_iff_header : (⟨.mHeader, 0x7fff, [0x48, 0x44, 0x52], ""⟩ : Record).RoundTrips ↔
    (RecordType.mHeader.family = .motorola →
      0 < addressNBytes .mHeader ∧ (0x7fff#64).toNat < 2 ^ (8 * addressNBytes .mHeader - 1)) :=
  roundTrips_iff (show _ ∧ _ from ⟨by decide, by decide⟩)

/-- A 16-bit address comes back with its sign extended, and a reserved record does not print. -/
theorem not_roundTrips :
    ((⟨.mData16, 0x8000, [0x41], ""⟩ : Record).Valid ∧
      ¬ (⟨.mData16, 0x8000, [0x41], ""⟩ : Record).RoundTrips) ∧
    (⟨.mReserved, 0, [], ""⟩ : Record).Valid ∧
      ¬ (⟨.mReserved, 0, [], ""⟩ : Record).RoundTrips := by
  refine ⟨⟨show _ ∧ _ from ⟨by decide, by decide⟩, ?_⟩, show _ ∧ _ from ⟨by decide, by decide⟩, ?_⟩
  · rintro ⟨line, hprint, -, haddr, -⟩
    have hline : (⟨.mData16, 0x8000, [0x41], ""⟩ : Record).toString = .ok "S1048000413A".toList := by
      decide +kernel
    rw [hline] at hprint
    cases hprint
    revert haddr
    decide +kernel
  · rintro ⟨line, hprint, -⟩
    have hfail : (⟨.mReserved, 0, [], ""⟩ : Record).toString = .error .assertion := by
      decide +kernel
    rw [hfail] at hprint
    cases hprint

end LoomX.SRecord
