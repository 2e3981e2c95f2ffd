import LoomX.StringUtility.Escape
import Mathlib.Data.Nat.Bitwise
import Mathlib.Tactic.Ring

namespace LoomX.StringUtility

/-- An `unsigned` has 32 bits. -/
def shl1 (n : Nat) : Nat := if 32 ≤ n then 0 else 2 ^ n

def genMask (n : Nat) : Nat := (shl1 n + (2 ^ 32 - 1)) % 2 ^ 32

def shiftLeft2 (value count : Nat) : Nat := value * shl1 count % 2 ^ 32 &&& genMask 32

def shiftRightLogical2 (value count : Nat) : Nat := if 32 ≤ count then 0 else value >>> count

/-- `A` to `Z`, `a` to `z`, `0` to `9`, `+` and `/`. -/
def digits : Bytes :=
  (List.range 26).map (fun n => UInt8.ofNat (65 + n)) ++
    (List.range 26).map (fun n => UInt8.ofNat (97 + n)) ++
    (List.range 10).map (fun n => UInt8.ofNat (48 + n)) ++ [43, 47]

def digitAt (val count : Nat) : UInt8 := digits.getD (shiftRightLogical2 val count &&& 0x3f) 0

structure Encoder where
  s : Bytes
  val : Nat
  i : Nat

def Encoder.next (e : Encoder) (byte : UInt8) : Encoder :=
  match e.i % 3 with
  | 0 => { e with val := shiftLeft2 byte.toNat 16, i := e.i + 1 }
  | 1 => { e with val := e.val ||| shiftLeft2 byte.toNat 8, i := e.i + 1 }
  | _ =>
    let val := e.val ||| byte.toNat
    ⟨e.s ++ [digitAt val 18, digitAt val 12, digitAt val 6, digitAt val 0], val, e.i + 1⟩

/-- The digits of an incomplete group. -/
def encodeTail (nbytes val : Nat) (doPad : Bool) : Bytes :=
  match nbytes % 3 with
  | 0 => []
  | 1 => [digitAt val 18, digitAt val 12] ++ if doPad then [61, 61] else []
  | _ => [digitAt val 18, digitAt val 12, digitAt val 6] ++ if doPad then [61] else []

def encodeBase64 (data : Bytes) (doPad : Bool) : Bytes :=
  let e := data.foldl Encoder.next ⟨[], 0, 0⟩
  e.s ++ encodeTail data.length e.val doPad

def digitValue (ch : UInt8) : Option Nat :=
  if 65 ≤ ch ∧ ch ≤ 90 then some (ch.toNat - 65)
  else if 97 ≤ ch ∧ ch ≤ 122 then some (ch.toNat - 97 + 26)
  else if 48 ≤ ch ∧ ch ≤ 57 then some (ch.toNat - 48 + 52)
  else if ch = 43 then some 62
  else if ch = 47 then some 63
  else none

structure Decoder where
  retval : Bytes
  val : Nat
  ndigits : Nat

def byteAt (val count : Nat) : UInt8 := UInt8.ofNat (shiftRightLogical2 val count &&& 0xff)

def Decoder.next (d : Decoder) (ch : UInt8) : Decoder :=
  match digitValue ch with
  | none => d
  | some digit =>
    let val := d.val ||| shiftLeft2 digit (18 - 6 * d.ndigits)
    if d.ndigits + 1 = 4 then ⟨d.retval ++ [byteAt val 16, byteAt val 8, byteAt val 0], 0, 0⟩
    else ⟨d.retval, val, d.ndigits + 1⟩

/-- The bytes of an incomplete group; one digit alone fails an assertion. -/
def Decoder.finish (d : Decoder) : Option Bytes :=
  if d.ndigits = 0 ∨ d.ndigits = 2 ∨ d.ndigits = 3 then
    if d.ndigits = 3 then some (d.retval ++ [byteAt d.val 16, byteAt d.val 8])
    else if 2 ≤ d.ndigits then some (d.retval ++ [byteAt d.val 16])
    else some d.retval
  else none

def decodeBase64 (s : Bytes) : Option Bytes := (s.foldl Decoder.next ⟨[], 0, 0⟩).finish

/-- Three bytes as one number. -/
def groupValue (a b c : UInt8) : Nat := 65536 * a.toNat + 256 * b.toNat + c.toNat

/-- The text of three bytes at a time. -/
def encodeGroups (doPad : Bool) : Bytes → Bytes
  | [] => []
  | [a] => encodeTail 1 (groupValue a 0 0) doPad
  | [a, b] => encodeTail 2 (groupValue a b 0) doPad
  | a :: b :: c :: data =>
    [18, 12, 6, 0].map (digitAt (groupValue a b c)) ++ encodeGroups doPad data

theorem digitValue_digits {n : Nat} (h : n < 64) : digitValue (digits.getD n 0) = some n := by
  revert n
  decide

theorem not_between {ch : UInt8} (first last : UInt8)
    (h : ch ∉ (List.range (last.toNat - first.toNat + 1)).map
      (fun n => UInt8.ofNat (first.toNat + n))) : ¬(first ≤ ch ∧ ch ≤ last) := by
  rintro ⟨hle, hge⟩
  have hle' : first.toNat ≤ ch.toNat := UInt8.le_iff_toNat_le.1 hle
  have hge' : ch.toNat ≤ last.toNat := UInt8.le_iff_toNat_le.1 hge
  refine h (List.mem_map.2 ⟨ch.toNat - first.toNat, List.mem_range.2 (by omega), ?_⟩)
  rw [Nat.add_sub_cancel' hle', UInt8.ofNat_toNat]

theorem digitValue_of_not_mem {ch : UInt8} (h : ch ∉ digits) : digitValue ch = none := by
  simp only [digits, List.mem_append, not_or] at h
  obtain ⟨⟨⟨hupper, hlower⟩, hnumber⟩, hother⟩ := h
  have hplus : ch ≠ 43 := fun heq => hother (heq ▸ List.mem_cons_self)
  have hslash : ch ≠ 47 := fun heq => hother (heq ▸ List.mem_cons_of_mem _ List.mem_cons_self)
  rw [digitValue, if_neg (not_between 65 90 hupper), if_neg (not_between 97 122 hlower),
    if_neg (not_between 48 57 hnumber), if_neg hplus, if_neg hslash]

theorem shiftLeft2_eq {value count : Nat} (hcount : count < 32) (h : value * 2 ^ count < 2 ^ 32) :
    shiftLeft2 value count = value * 2 ^ count := by
  have hmask : genMask 32 = 2 ^ 32 - 1 := rfl
  rw [shiftLeft2, shl1, if_neg (by omega), hmask, Nat.and_two_pow_sub_one_eq_mod,
    Nat.mod_eq_of_lt (Nat.mod_lt _ (by decide)), Nat.mod_eq_of_lt h]

theorem digitAt_eq {count : Nat} (h : count < 32) (val : Nat) :
    digitAt val count = digits.getD (val / 2 ^ count % 64) 0 := by
  rw [digitAt, shiftRightLogical2, if_neg (by omega), Nat.shiftRight_eq_div_pow]
  exact congrArg (digits.getD · 0) (Nat.and_two_pow_sub_one_eq_mod _ 6)

theorem byteAt_eq {count : Nat} (h : count < 32) (val : Nat) :
    byteAt val count = UInt8.ofNat (val / 2 ^ count % 256) := by
  rw [byteAt, shiftRightLogical2, if_neg (by omega), Nat.shiftRight_eq_div_pow]
  exact congrArg UInt8.ofNat (Nat.and_two_pow_sub_one_eq_mod _ 8)

theorem or_eq_add {a b k : Nat} (ha : 2 ^ k ∣ a) (hb : b < 2 ^ k) : a ||| b = a + b := by
  obtain ⟨c, rfl⟩ := ha
  exact (Nat.two_pow_add_eq_or_of_lt hb c).symm

/-- The next six bits of a number after those above them. -/
theorem or_digit (val k : Nat) :
    val / 2 ^ (k + 6) * 2 ^ (k + 6) ||| val / 2 ^ k % 64 * 2 ^ k = val / 2 ^ k * 2 ^ k := by
  have hlow : val / 2 ^ k % 64 * 2 ^ k < 2 ^ (k + 6) := by
    rw [Nat.pow_add, Nat.mul_comm]
    exact Nat.mul_lt_mul_of_pos_left (Nat.mod_lt _ (by decide)) (Nat.two_pow_pos k)
  have hpow : 2 ^ (k + 6) = 2 ^ k * 64 := Nat.pow_add 2 k 6
  rw [or_eq_add (Nat.dvd_mul_left _ _) hlow, hpow, ← Nat.div_div_eq_div_mul]
  generalize val / 2 ^ k = high
  have hsplit := Nat.div_add_mod high 64
  calc high / 64 * (2 ^ k * 64) + high % 64 * 2 ^ k
      = (64 * (high / 64) + high % 64) * 2 ^ k := by ring
    _ = high * 2 ^ k := by rw [hsplit]

/-- The decoder after the first digits of a group that stands for `val`. -/
def Decoder.reading (retval : Bytes) (val ndigits : Nat) : Decoder :=
  ⟨retval, val / 2 ^ (24 - 6 * ndigits) * 2 ^ (24 - 6 * ndigits), ndigits⟩

theorem Decoder.reading_zero (retval : Bytes) {val : Nat} (h : val < 2 ^ 24) :
    reading retval val 0 = ⟨retval, 0, 0⟩ := by
  rw [reading, Nat.div_eq_of_lt h, Nat.zero_mul]

theorem Decoder.next_of_not_digit {ch : UInt8} (h : digitValue ch = none) (d : Decoder) :
    d.next ch = d := by
  rw [next, h]

theorem digitValue_digitAt {count : Nat} (h : count < 32) (val : Nat) :
    digitValue (digitAt val count) = some (val / 2 ^ count % 64) := by
  rw [digitAt_eq h]
  exact digitValue_digits (Nat.mod_lt _ (by decide))

theorem or_shiftLeft2_digit (val : Nat) {ndigits : Nat} (h : ndigits ≤ 3) :
    val / 2 ^ (24 - 6 * ndigits) * 2 ^ (24 - 6 * ndigits) |||
        shiftLeft2 (val / 2 ^ (18 - 6 * ndigits) % 64) (18 - 6 * ndigits) =
      val / 2 ^ (18 - 6 * ndigits) * 2 ^ (18 - 6 * ndigits) := by
  have hsplit : 24 - 6 * ndigits = 18 - 6 * ndigits + 6 := by omega
  have hbound : val / 2 ^ (18 - 6 * ndigits) % 64 * 2 ^ (18 - 6 * ndigits) < 2 ^ 32 := by
    calc val / 2 ^ (18 - 6 * ndigits) % 64 * 2 ^ (18 - 6 * ndigits)
        < 2 ^ 6 * 2 ^ (18 - 6 * ndigits) :=
          Nat.mul_lt_mul_of_pos_right (Nat.mod_lt _ (by decide)) (Nat.two_pow_pos _)
      _ = 2 ^ (6 + (18 - 6 * ndigits)) := (Nat.pow_add 2 6 _).symm
      _ ≤ 2 ^ 32 := Nat.pow_le_pow_right (by decide) (by omega)
  rw [shiftLeft2_eq (by omega) hbound, hsplit]
  exact or_digit val (18 - 6 * ndigits)

theorem Decoder.next_reading (retval : Bytes) (val : Nat) {ndigits : Nat} (h : ndigits < 3) :
    (reading retval val ndigits).next (digitAt val (18 - 6 * ndigits)) =
      reading retval val (ndigits + 1) := by
  have hor := or_shiftLeft2_digit val (Nat.le_of_lt h)
  have hnext : 24 - 6 * (ndigits + 1) = 18 - 6 * ndigits := by omega
  rw [next, digitValue_digitAt (by omega)]
  simp only [reading, hor, hnext, if_neg (show ¬ndigits + 1 = 4 by omega)]

/-- The bytes of a number below `2 ^ 24`. -/
def groupBytes (val : Nat) : Bytes := [byteAt val 16, byteAt val 8, byteAt val 0]

theorem Decoder.next_reading_three (retval : Bytes) (val : Nat) :
    (reading retval val 3).next (digitAt val 0) = ⟨retval ++ groupBytes val, 0, 0⟩ := by
  have hor := or_shiftLeft2_digit val (le_refl 3)
  simp only [Nat.reduceMul, Nat.reduceSub, Nat.pow_zero, Nat.div_one, Nat.mul_one] at hor
  have hdigit := digitValue_digitAt (show 0 < 32 by decide) val
  rw [Nat.pow_zero, Nat.div_one] at hdigit
  rw [next, hdigit]
  simp only [reading, Nat.reduceMul, Nat.reduceSub, Nat.reduceAdd, ↓reduceIte, hor, groupBytes]

theorem groupValue_lt (a b c : UInt8) : groupValue a b c < 2 ^ 24 := by
  have ha := a.toNat_lt
  have hb := b.toNat_lt
  have hc := c.toNat_lt
  unfold groupValue
  omega

theorem groupBytes_groupValue (a b c : UInt8) : groupBytes (groupValue a b c) = [a, b, c] := by
  have ha := a.toNat_lt
  have hb := b.toNat_lt
  have hc := c.toNat_lt
  have hhigh : groupValue a b c / 2 ^ 16 % 256 = a.toNat := by unfold groupValue; omega
  have hmid : groupValue a b c / 2 ^ 8 % 256 = b.toNat := by unfold groupValue; omega
  have hlow : groupValue a b c / 2 ^ 0 % 256 = c.toNat := by unfold groupValue; omega
  rw [groupBytes, byteAt_eq (by decide), byteAt_eq (by decide), byteAt_eq (by decide), hhigh, hmid,
    hlow, UInt8.ofNat_toNat, UInt8.ofNat_toNat, UInt8.ofNat_toNat]

theorem Decoder.foldl_group (retval : Bytes) (a b c : UInt8) :
    ([18, 12, 6, 0].map (digitAt (groupValue a b c))).foldl next ⟨retval, 0, 0⟩ =
      ⟨retval ++ [a, b, c], 0, 0⟩ := by
  rw [← reading_zero retval (groupValue_lt a b c), ← groupBytes_groupValue a b c,
    ← next_reading_three]
  simp only [List.map_cons, List.map_nil, List.foldl_cons, List.foldl_nil]
  rw [next_reading retval _ (show 0 < 3 by decide), next_reading retval _ (show 1 < 3 by decide),
    next_reading retval _ (show 2 < 3 by decide)]

theorem Decoder.foldl_pads (d : Decoder) (doPad : Bool) (pads : Bytes) (h : ∀ ch ∈ pads, ch = 61) :
    (if doPad then pads else []).foldl next d = d := by
  cases doPad with
  | false => rfl
  | true =>
    change pads.foldl next d = d
    induction pads with
    | nil => rfl
    | cons ch pads ih =>
      obtain ⟨hch, hpads⟩ := List.forall_mem_cons.1 h
      have hnone : digitValue ch = none := by
        rw [hch]
        rfl
      rw [List.foldl_cons, next_of_not_digit hnone, ih hpads]

/-- One byte is two digits, and two bytes are three. -/
theorem Decoder.foldl_tail_one (retval : Bytes) (a : UInt8) (doPad : Bool) :
    ((encodeTail 1 (groupValue a 0 0) doPad).foldl next ⟨retval, 0, 0⟩).finish =
      some (retval ++ [a]) := by
  have hlt := groupValue_lt a 0 0
  have hval : groupValue a 0 0 / 2 ^ 12 * 2 ^ 12 = groupValue a 0 0 := by
    unfold groupValue
    have h0 : (0 : UInt8).toNat = 0 := rfl
    omega
  have hbyte : byteAt (groupValue a 0 0) 16 = a := by
    have hb := groupBytes_groupValue a 0 0
    exact (List.cons.inj hb).1
  rw [← reading_zero retval hlt]
  change (List.foldl next _ (digitAt _ 18 :: digitAt _ 12 :: (if doPad then [61, 61] else []))).finish
    = _
  rw [List.foldl_cons, List.foldl_cons, next_reading retval _ (show 0 < 3 by decide),
    next_reading retval _ (show 1 < 3 by decide), foldl_pads _ _ _ (by simp)]
  simp only [finish, reading, Nat.reduceMul, Nat.reduceSub, Nat.reduceAdd, hval, hbyte]
  rfl

theorem Decoder.foldl_tail_two (retval : Bytes) (a b : UInt8) (doPad : Bool) :
    ((encodeTail 2 (groupValue a b 0) doPad).foldl next ⟨retval, 0, 0⟩).finish =
      some (retval ++ [a, b]) := by
  have hlt := groupValue_lt a b 0
  have hval : groupValue a b 0 / 2 ^ 6 * 2 ^ 6 = groupValue a b 0 := by
    unfold groupValue
    have h0 : (0 : UInt8).toNat = 0 := rfl
    omega
  obtain ⟨ha, hb⟩ := List.cons.inj (groupBytes_groupValue a b 0)
  have hb' := (List.cons.inj hb).1
  rw [← reading_zero retval hlt]
  change (List.foldl next _
    (digitAt _ 18 :: digitAt _ 12 :: digitAt _ 6 :: (if doPad then [61] else []))).finish = _
  rw [List.foldl_cons, List.foldl_cons, List.foldl_cons,
    next_reading retval _ (show 0 < 3 by decide), next_reading retval _ (show 1 < 3 by decide),
    next_reading retval _ (show 2 < 3 by decide), foldl_pads _ _ _ (by simp)]
  simp only [finish, reading, Nat.reduceMul, Nat.reduceSub, Nat.reduceAdd, hval, ha, hb']
  rfl

theorem Decoder.foldl_encodeGroups (doPad : Bool) (data retval : Bytes) :
    ((encodeGroups doPad data).foldl next ⟨retval, 0, 0⟩).finish = some (retval ++ data) := by
  induction data using encodeGroups.induct generalizing retval with
  | case1 => exact congrArg some (List.append_nil retval).symm
  | case2 a => exact foldl_tail_one retval a doPad
  | case3 a b => exact foldl_tail_two retval a b doPad
  | case4 a b c data ih =>
    rw [encodeGroups, List.foldl_append, foldl_group, ih, List.append_assoc]
    rfl

theorem shiftLeft2_byte (b : UInt8) {count : Nat} (h : count ≤ 16) :
    shiftLeft2 b.toNat count = b.toNat * 2 ^ count := by
  apply shiftLeft2_eq (by omega)
  calc b.toNat * 2 ^ count < 2 ^ 8 * 2 ^ count :=
        Nat.mul_lt_mul_of_pos_right b.toNat_lt (Nat.two_pow_pos count)
    _ = 2 ^ (8 + count) := (Nat.pow_add 2 8 count).symm
    _ ≤ 2 ^ 32 := Nat.pow_le_pow_right (by decide) (by omega)

theorem Encoder.next_first {e : Encoder} (h : e.i % 3 = 0) (a : UInt8) :
    e.next a = ⟨e.s, groupValue a 0 0, e.i + 1⟩ := by
  have hval : groupValue a 0 0 = a.toNat * 2 ^ 16 := by
    change 65536 * a.toNat + 256 * 0 + 0 = _
    omega
  rw [next, h, hval, ← shiftLeft2_byte a (le_refl 16)]
  rfl

theorem Encoder.next_second {e : Encoder} {a : UInt8} (h : e.i % 3 = 1)
    (hval : e.val = groupValue a 0 0) (b : UInt8) :
    e.next b = ⟨e.s, groupValue a b 0, e.i + 1⟩ := by
  have hb := b.toNat_lt
  have hor : e.val ||| b.toNat * 2 ^ 8 = groupValue a b 0 := by
    have hdvd : 2 ^ 16 ∣ groupValue a 0 0 := ⟨a.toNat, by change 65536 * a.toNat + 256 * 0 + 0 = _; omega⟩
    rw [hval, or_eq_add hdvd (by omega)]
    change 65536 * a.toNat + 256 * 0 + 0 + b.toNat * 2 ^ 8 = 65536 * a.toNat + 256 * b.toNat + 0
    omega
  rw [next, h]
  simp only [shiftLeft2_byte b (show 8 ≤ 16 by decide), hor]

theorem Encoder.next_third {e : Encoder} {a b : UInt8} (h : e.i % 3 = 2)
    (hval : e.val = groupValue a b 0) (c : UInt8) :
    e.next c =
      ⟨e.s ++ [18, 12, 6, 0].map (digitAt (groupValue a b c)), groupValue a b c, e.i + 1⟩ := by
  have hc := c.toNat_lt
  have hor : e.val ||| c.toNat = groupValue a b c := by
    have hdvd : 2 ^ 8 ∣ groupValue a b 0 :=
      ⟨256 * a.toNat + b.toNat, by change 65536 * a.toNat + 256 * b.toNat + 0 = _; omega⟩
    rw [hval, or_eq_add hdvd hc]
    rfl
  rw [next, h]
  simp only [hor]
  rfl

theorem Encoder.next_group {e : Encoder} (h : e.i % 3 = 0) (a b c : UInt8) :
    ((e.next a).next b).next c =
      ⟨e.s ++ [18, 12, 6, 0].map (digitAt (groupValue a b c)), groupValue a b c, e.i + 3⟩ := by
  have hi : (e.i + 1) % 3 = 1 := by omega
  have hi' : (e.i + 1 + 1) % 3 = 2 := by omega
  have hsecond := next_second (e := ⟨e.s, groupValue a 0 0, e.i + 1⟩) hi rfl b
  have hthird := next_third (e := ⟨e.s, groupValue a b 0, e.i + 1 + 1⟩) hi' rfl c
  rw [next_first h, hsecond, hthird]

/-- The text does not depend on what was left of the last whole group. -/
theorem Encoder.foldl_encodeGroups (doPad : Bool) (data : Bytes) (e : Encoder) (h : e.i % 3 = 0) :
    (data.foldl next e).s ++ encodeTail data.length (data.foldl next e).val doPad =
      e.s ++ encodeGroups doPad data := by
  induction data using encodeGroups.induct generalizing e with
  | case1 => rfl
  | case2 a =>
    rw [List.foldl_cons, List.foldl_nil, next_first h]
    rfl
  | case3 a b =>
    have hi : (e.i + 1) % 3 = 1 := by omega
    rw [List.foldl_cons, List.foldl_cons, List.foldl_nil, next_first h, next_second hi rfl]
    rfl
  | case4 a b c data ih =>
    have hlen (val : Nat) : encodeTail (a :: b :: c :: data).length val doPad =
        encodeTail data.length val doPad := by
      have hmod : (data.length + 1 + 1 + 1) % 3 = data.length % 3 := by omega
      simp only [encodeTail, List.length_cons, hmod]
    rw [hlen, List.foldl_cons, List.foldl_cons, List.foldl_cons, next_group h,
      ih _ (show (e.i + 3) % 3 = 0 by omega), encodeGroups, List.append_assoc]

theorem encodeBase64_eq (data : Bytes) (doPad : Bool) :
    encodeBase64 data doPad = encodeGroups doPad data :=
  (Encoder.foldl_encodeGroups doPad data ⟨[], 0, 0⟩ rfl).trans (List.nil_append _)

theorem foldl_filter_digits (s : Bytes) (d : Decoder) :
    (s.filter (· ∈ digits)).foldl Decoder.next d = s.foldl Decoder.next d := by
  induction s generalizing d with
  | nil => rfl
  | cons ch s ih =>
    by_cases hch : ch ∈ digits
    · rw [List.filter_cons_of_pos (by simpa using hch), List.foldl_cons, List.foldl_cons, ih]
    · rw [List.filter_cons_of_neg (by simpa using hch), List.foldl_cons,
        Decoder.next_of_not_digit (digitValue_of_not_mem hch), ih]

/-- The bytes come back from their text with and without pads, and from whatever has the same
characters of the alphabet. -/
theorem decodeBase64_encodeBase64 (data : Bytes) (doPad : Bool) (s : Bytes) :
    decodeBase64 (encodeBase64 data doPad) = some data ∧
      decodeBase64 s = decodeBase64 (s.filter (· ∈ digits)) := by
  constructor
  · rw [encodeBase64_eq, decodeBase64, Decoder.foldl_encodeGroups, List.nil_append]
  · rw [decodeBase64, decodeBase64, foldl_filter_digits]

end LoomX.StringUtility
