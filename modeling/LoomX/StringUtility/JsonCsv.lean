import LoomX.StringUtility.Escape

namespace LoomX.StringUtility

/-- A digit of what `snprintf` writes for `%x`. -/
def hexadecimalDigit (n : UInt8) : UInt8 := if n < 10 then 48 + n else 87 + n

/-- What `snprintf` writes for `\u%04x`. -/
def unicodeEscape (ch : UInt8) : Bytes :=
  [92, 117, 48, 48, hexadecimalDigit (ch / 16), hexadecimalDigit (ch % 16)]

/-- `jsonEscape` of one byte. -/
def jsonEscapeByte (ch : UInt8) : Bytes :=
  match ch with
  | 34 => [92, 34]
  | 92 => [92, 92]
  | 8 => [92, 98]
  | 12 => [92, 102]
  | 10 => [92, 110]
  | 13 => [92, 114]
  | 9 => [92, 116]
  | _ => if ch < 32 then unicodeEscape ch else [ch]

def jsonEscape (s : Bytes) : Bytes := s.flatMap jsonEscapeByte

/-- One of the characters that a field has within quotes only. -/
def isCsvSpecial (ch : UInt8) : Prop := ch ∈ [44, 13, 10, 34]

instance (ch : UInt8) : Decidable (isCsvSpecial ch) := inferInstanceAs (Decidable (ch ∈ _))

def needsCsvQuotes (s : Bytes) : Prop := ∃ ch ∈ s, isCsvSpecial ch

instance (s : Bytes) : Decidable (needsCsvQuotes s) := List.decidableBEx _ s

def csvEscape (s : Bytes) : Bytes :=
  let quote : Bytes := if needsCsvQuotes s then [34] else []
  quote ++ replaceAllCopy s 34 [34, 34] ++ quote

/-- What a text is made of: its units have codes, and an ASCII character is one unit with its own
code. -/
structure TextUnit (α : Type) where
  code : α → Nat
  ascii : UInt8 → α
  encode : Char → List α
  code_ascii : ∀ b < 128, code (ascii b) = b.toNat
  ascii_code : ∀ u, code u < 128 → ascii (UInt8.ofNat (code u)) = u
  encode_ascii : ∀ b < 128, encode (Char.ofUInt8 b) = [ascii b]

/-- A text as its characters. -/
def characters : TextUnit Char where
  code := Char.toNat
  ascii := Char.ofUInt8
  encode := fun c => [c]
  code_ascii := fun _ _ => rfl
  ascii_code := by
    intro u hu
    apply Char.toNat_inj.1
    change (UInt8.ofNat u.toNat).toNat = u.toNat
    rw [UInt8.toNat_ofNat', Nat.mod_eq_of_lt (by omega)]
  encode_ascii := fun _ _ => rfl

/-- A text as the bytes of its UTF-8 form. -/
def octets : TextUnit UInt8 where
  code := UInt8.toNat
  ascii := id
  encode := String.utf8EncodeChar
  code_ascii := fun _ _ => rfl
  ascii_code := fun u _ => UInt8.ofNat_toNat
  encode_ascii := by
    intro b hb
    have hb' : b.toNat ≤ 127 := Nat.le_of_lt_succ (UInt8.lt_iff_toNat_lt.1 hb)
    change (if b.toNat ≤ 127 then [UInt8.ofNat b.toNat] else _) = [b]
    rw [if_pos hb', UInt8.ofNat_toNat]

section Grammar

variable {α : Type} (U : TextUnit α)

def hexadecimalValue (code : Nat) : Option Nat :=
  if 48 ≤ code ∧ code ≤ 57 then some (code - 48)
  else if 97 ≤ code ∧ code ≤ 102 then some (code - 87)
  else if 65 ≤ code ∧ code ≤ 70 then some (code - 55)
  else none

def readHexadecimals : List α → Option (Nat × List α)
  | a :: b :: c :: d :: s => do
    let a ← hexadecimalValue (U.code a)
    let b ← hexadecimalValue (U.code b)
    let c ← hexadecimalValue (U.code c)
    let d ← hexadecimalValue (U.code d)
    return (4096 * a + 256 * b + 16 * c + d, s)
  | _ => none

/-- The characters of a backslash, a letter and four digits; those above the first plane are pairs
of them. -/
def readUnicode (s : List α) : Option (Char × List α) := do
  let (value, s) ← readHexadecimals U s
  if value < 0xd800 ∨ 0xdfff < value then return (Char.ofNat value, s)
  else if value < 0xdc00 then
    match s with
    | x :: y :: s =>
      if U.code x = 92 ∧ U.code y = 117 then do
        let (low, s) ← readHexadecimals U s
        if 0xdc00 ≤ low ∧ low ≤ 0xdfff then
          return (Char.ofNat (0x10000 + 0x400 * (value - 0xd800) + (low - 0xdc00)), s)
        else none
      else none
    | _ => none
  else none

def escapedChar (code : Nat) : Option Char :=
  match code with
  | 34 => some '"'
  | 92 => some '\\'
  | 47 => some '/'
  | 98 => some (Char.ofUInt8 8)
  | 102 => some (Char.ofUInt8 12)
  | 110 => some '\n'
  | 114 => some '\r'
  | 116 => some '\t'
  | _ => none

/-- What follows a backslash. -/
def readEscape : List α → Option (Char × List α)
  | [] => none
  | e :: s =>
    if U.code e = 117 then readUnicode U s else (escapedChar (U.code e)).map fun c => (c, s)

theorem readHexadecimals_length {s t : List α} {value : Nat}
    (h : readHexadecimals U s = some (value, t)) : t.length < s.length := by
  unfold readHexadecimals at h
  split at h
  next a b c d s =>
    simp only [Option.bind_eq_bind, Option.bind_eq_some_iff] at h
    obtain ⟨_, _, _, _, _, _, _, _, h⟩ := h
    obtain ⟨-, rfl⟩ := Prod.mk.inj (Option.some.inj h)
    simp only [List.length_cons]
    omega
  next => cases h

theorem readUnicode_length {s t : List α} {c : Char} (h : readUnicode U s = some (c, t)) :
    t.length < s.length := by
  obtain ⟨⟨value, s'⟩, hs', h⟩ := Option.bind_eq_some_iff.1 h
  have hlen := readHexadecimals_length U hs'
  simp only at h
  split at h
  next =>
    obtain ⟨-, rfl⟩ := Prod.mk.inj (Option.some.inj h)
    exact hlen
  next =>
    split at h
    next =>
      split at h
      next x y s'' =>
        split at h
        next =>
          obtain ⟨⟨low, s₃⟩, hs₃, h⟩ := Option.bind_eq_some_iff.1 h
          have hlen' := readHexadecimals_length U hs₃
          simp only at h
          split at h
          next =>
            obtain ⟨-, rfl⟩ := Prod.mk.inj (Option.some.inj h)
            simp only [List.length_cons] at hlen
            omega
          next => cases h
        next => cases h
      next => cases h
    next => cases h

theorem readEscape_length {s t : List α} {c : Char} (h : readEscape U s = some (c, t)) :
    t.length < s.length := by
  cases s with
  | nil => cases h
  | cons e s =>
    rw [readEscape] at h
    split at h
    · exact (readUnicode_length U h).trans (Nat.lt_succ_self _)
    · obtain ⟨c', -, h⟩ := Option.map_eq_some_iff.1 h
      obtain ⟨-, rfl⟩ := Prod.mk.inj h
      exact Nat.lt_succ_self _

/-- A string from after its first quote: what it stands for and what follows it. -/
def readChars : List α → Option (List α × List α)
  | [] => none
  | u :: s =>
    if U.code u = 34 then some ([], s)
    else if U.code u = 92 then
      match _h : readEscape U s with
      | none => none
      | some (c, t) => (readChars t).map fun r => (U.encode c ++ r.1, r.2)
    else if U.code u < 32 then none
    else (readChars s).map fun r => (u :: r.1, r.2)
termination_by s => s.length
decreasing_by
  · have := readEscape_length U _h
    simp only [List.length_cons]
    omega
  · simp

/-- A string of the grammar of RFC 8259. -/
def readString : List α → Option (List α × List α)
  | [] => none
  | u :: s => if U.code u = 34 then readChars U s else none

theorem readChars_verbatim {u : α} (hquote : U.code u ≠ 34) (hslash : U.code u ≠ 92)
    (hcontrol : 32 ≤ U.code u) (s : List α) :
    readChars U (u :: s) = (readChars U s).map fun r => (u :: r.1, r.2) := by
  rw [readChars, if_neg hquote, if_neg hslash, if_neg (by omega)]

theorem readChars_escape {s t : List α} {c : Char} (h : readEscape U s = some (c, t)) :
    readChars U (U.ascii 92 :: s) = (readChars U t).map fun r => (U.encode c ++ r.1, r.2) := by
  have hcode : U.code (U.ascii 92) = 92 := U.code_ascii 92 (by decide)
  rw [readChars, if_neg (by omega), if_pos hcode]
  split
  next hnone => exact absurd (hnone.symm.trans h) (by simp)
  next c' t' hsome =>
    obtain ⟨rfl, rfl⟩ := Prod.mk.inj (Option.some.inj (hsome.symm.trans h))
    rfl

theorem readChars_letter {b letter : UInt8} (hb : b < 128) (hl : letter < 128)
    (hu : letter.toNat ≠ 117) (h : escapedChar letter.toNat = some (Char.ofUInt8 b)) (s : List α) :
    readChars U (U.ascii 92 :: U.ascii letter :: s) =
      (readChars U s).map fun r => (U.ascii b :: r.1, r.2) := by
  have hread : readEscape U (U.ascii letter :: s) = some (Char.ofUInt8 b, s) := by
    rw [readEscape, U.code_ascii letter hl, if_neg hu, h]
    rfl
  rw [readChars_escape U hread, U.encode_ascii b hb]
  rfl

set_option maxRecDepth 4000 in
theorem hexadecimalValue_digit {n : UInt8} (hn : n < 16) :
    hexadecimalDigit n < 128 ∧ hexadecimalValue (hexadecimalDigit n).toNat = some n.toNat := by
  revert n
  apply forall_byte
  decide

theorem readEscape_unicodeEscape {b : UInt8} (hb : b < 32) (s : List α) :
    readEscape U (((unicodeEscape b).map U.ascii).tail ++ s) = some (Char.ofUInt8 b, s) := by
  have hb' : b.toNat < 32 := UInt8.lt_iff_toNat_lt.1 hb
  have hdigit (n : UInt8) (hn : n.toNat < 16) :
      hexadecimalValue (U.code (U.ascii (hexadecimalDigit n))) = some n.toNat := by
    obtain ⟨hascii, hvalue⟩ := hexadecimalValue_digit (UInt8.lt_iff_toNat_lt.2 hn)
    rw [U.code_ascii _ hascii, hvalue]
  have hzero : hexadecimalValue (U.code (U.ascii 48)) = some 0 := hdigit 0 (by decide)
  have hhigh := hdigit (b / 16) (by rw [UInt8.toNat_div]; change b.toNat / 16 < 16; omega)
  have hlow := hdigit (b % 16) (by rw [UInt8.toNat_mod]; exact Nat.mod_lt _ (by decide))
  have hvalue : 4096 * 0 + 256 * 0 + 16 * (b / 16).toNat + (b % 16).toNat = b.toNat := by
    rw [UInt8.toNat_div, UInt8.toNat_mod]
    change 4096 * 0 + 256 * 0 + 16 * (b.toNat / 16) + b.toNat % 16 = b.toNat
    omega
  have hread : readHexadecimals U (U.ascii 48 :: U.ascii 48 :: U.ascii (hexadecimalDigit (b / 16)) ::
      U.ascii (hexadecimalDigit (b % 16)) :: s) = some (b.toNat, s) := by
    simp only [readHexadecimals, hzero, hhigh, hlow, Option.bind_eq_bind, Option.bind_some, hvalue]
    rfl
  have hletter : U.code (U.ascii 117) = 117 := U.code_ascii 117 (by decide)
  change readEscape U (U.ascii 117 :: U.ascii 48 :: U.ascii 48 ::
    U.ascii (hexadecimalDigit (b / 16)) :: U.ascii (hexadecimalDigit (b % 16)) :: s) = _
  rw [readEscape, if_pos hletter, readUnicode, hread]
  have hplane : b.toNat < 0xd800 ∨ 0xdfff < b.toNat := .inl (by omega)
  have hchar : Char.ofNat b.toNat = Char.ofUInt8 b := Char.ofNat_toNat (Char.ofUInt8 b)
  simp only [Option.bind_eq_bind, Option.bind_some, if_pos hplane, hchar]
  rfl

/-- An escaped ASCII character is read back. -/
theorem readChars_jsonEscapeByte {b : UInt8} (hb : b < 128) (s : List α) :
    readChars U ((jsonEscapeByte b).map U.ascii ++ s) =
      (readChars U s).map fun r => (U.ascii b :: r.1, r.2) := by
  unfold jsonEscapeByte
  split
  case h_1 | h_2 | h_3 | h_4 | h_5 | h_6 | h_7 =>
    exact readChars_letter U (by decide) (by decide) (by decide) rfl s
  case h_8 hquote hslash _ _ _ _ _ =>
    split
    case isTrue hcontrol =>
      change readChars U (U.ascii 92 :: (((unicodeEscape b).map U.ascii).tail ++ s)) = _
      rw [readChars_escape U (readEscape_unicodeEscape U hcontrol s), U.encode_ascii b hb]
      rfl
    case isFalse hcontrol =>
      have hcode := U.code_ascii b hb
      refine readChars_verbatim U ?_ ?_ ?_ s
      · rw [hcode]
        exact fun h => hquote (UInt8.toNat_inj.1 h)
      · rw [hcode]
        exact fun h => hslash (UInt8.toNat_inj.1 h)
      · rw [hcode]
        exact Nat.le_of_not_lt fun h => hcontrol (UInt8.lt_iff_toNat_lt.2 h)

/-- `jsonEscape` for any units: only ASCII characters are escaped. -/
def escapeUnit (u : α) : List α :=
  if U.code u < 128 then (jsonEscapeByte (UInt8.ofNat (U.code u))).map U.ascii else [u]

theorem readChars_escapeUnit (u : α) (s : List α) :
    readChars U (escapeUnit U u ++ s) = (readChars U s).map fun r => (u :: r.1, r.2) := by
  unfold escapeUnit
  split
  next hascii =>
    have hlt : UInt8.ofNat (U.code u) < 128 := by
      rw [UInt8.lt_iff_toNat_lt, UInt8.toNat_ofNat', Nat.mod_eq_of_lt (by omega)]
      exact hascii
    rw [readChars_jsonEscapeByte U hlt, U.ascii_code u hascii]
  next hascii => exact readChars_verbatim U (by omega) (by omega) (by omega) s

theorem readString_flatMap_escapeUnit (s rest : List α) :
    readString U (U.ascii 34 :: (s.flatMap (escapeUnit U) ++ U.ascii 34 :: rest)) =
      some (s, rest) := by
  have hquote : U.code (U.ascii 34) = 34 := U.code_ascii 34 (by decide)
  rw [readString, if_pos hquote]
  induction s with
  | nil =>
    change readChars U (U.ascii 34 :: rest) = _
    rw [readChars, if_pos hquote]
  | cons u s ih =>
    rw [List.flatMap_cons, List.append_assoc, readChars_escapeUnit, ih]
    rfl

end Grammar

def utf8 (text : List Char) : Bytes := text.flatMap String.utf8EncodeChar

theorem jsonEscapeByte_of_le {b : UInt8} (h : 128 ≤ b) : jsonEscapeByte b = [b] := by
  unfold jsonEscapeByte
  split
  case h_1 | h_2 | h_3 | h_4 | h_5 | h_6 | h_7 => exact absurd h (by decide)
  case h_8 =>
    have hcontrol : ¬b < 32 := UInt8.not_lt.2 (UInt8.le_trans (by decide) h)
    exact if_neg hcontrol

theorem jsonEscapeByte_ascii {b : UInt8} (h : b < 128) : ∀ b' ∈ jsonEscapeByte b, b' < 128 := by
  unfold jsonEscapeByte
  split
  case h_1 | h_2 | h_3 | h_4 | h_5 | h_6 | h_7 =>
    exact List.forall_mem_cons.2 ⟨by decide, List.forall_mem_cons.2 ⟨by decide, nofun⟩⟩
  case h_8 =>
    split
    case isTrue hcontrol =>
      have hlt : b.toNat < 32 := UInt8.lt_iff_toNat_lt.1 hcontrol
      have hhigh : b / 16 < 16 := UInt8.lt_iff_toNat_lt.2 (by
        rw [UInt8.toNat_div]
        change b.toNat / 16 < 16
        omega)
      have hlow : b % 16 < 16 := UInt8.mod_lt b (by decide)
      simp only [unicodeEscape, List.forall_mem_cons, List.not_mem_nil, false_imp_iff, implies_true,
        and_true]
      exact ⟨by decide, by decide, by decide, by decide, (hexadecimalValue_digit hhigh).1,
        (hexadecimalValue_digit hlow).1⟩
    case isFalse => simpa using h

theorem escapeUnit_octets (b : UInt8) : escapeUnit octets b = jsonEscapeByte b := by
  unfold escapeUnit
  split
  next =>
    change (jsonEscapeByte (UInt8.ofNat b.toNat)).map id = jsonEscapeByte b
    rw [List.map_id, UInt8.ofNat_toNat]
  next h =>
    exact (jsonEscapeByte_of_le (UInt8.le_iff_toNat_le.2 (Nat.le_of_not_lt h))).symm

theorem utf8EncodeChar_not_ascii {c : Char} (h : 128 ≤ c.toNat) :
    ∀ b ∈ String.utf8EncodeChar c, 128 ≤ b := by
  have hbyte (n : Nat) (hn : 128 ≤ n) (hn' : n < 256) : 128 ≤ UInt8.ofNat n := by
    rw [UInt8.le_iff_toNat_le, UInt8.toNat_ofNat', Nat.mod_eq_of_lt hn']
    exact hn
  change 128 ≤ c.val.toNat at h
  intro b hb
  unfold String.utf8EncodeChar at hb
  simp only [if_neg (show ¬c.val.toNat ≤ 127 by omega)] at hb
  split at hb
  next =>
    simp only [List.mem_cons, List.not_mem_nil, or_false] at hb
    rcases hb with rfl | rfl <;> exact hbyte _ (by omega) (by omega)
  next =>
    split at hb
    next =>
      simp only [List.mem_cons, List.not_mem_nil, or_false] at hb
      rcases hb with rfl | rfl | rfl <;> exact hbyte _ (by omega) (by omega)
    next =>
      simp only [List.mem_cons, List.not_mem_nil, or_false] at hb
      rcases hb with rfl | rfl | rfl | rfl <;> exact hbyte _ (by omega) (by omega)

theorem utf8_map_ascii {s : Bytes} (h : ∀ b ∈ s, b < 128) :
    utf8 (s.map Char.ofUInt8) = s := by
  have hunit : ∀ b ∈ s, String.utf8EncodeChar (Char.ofUInt8 b) = [b] := by
    intro b hb
    exact octets.encode_ascii b (h b hb)
  rw [utf8, List.flatMap_map, List.flatMap_congr hunit, List.flatMap_singleton']

theorem jsonEscape_utf8EncodeChar (c : Char) :
    jsonEscape (String.utf8EncodeChar c) = utf8 (escapeUnit characters c) := by
  unfold escapeUnit
  split
  next hascii =>
    have hchar := characters.ascii_code c hascii
    have hlt : UInt8.ofNat (characters.code c) < 128 := by
      rw [UInt8.lt_iff_toNat_lt, UInt8.toNat_ofNat', Nat.mod_eq_of_lt (by omega)]
      exact hascii
    have hunit : String.utf8EncodeChar c = [UInt8.ofNat (characters.code c)] := by
      have henc := octets.encode_ascii _ hlt
      change String.utf8EncodeChar (characters.ascii _) = _ at henc
      rwa [hchar] at henc
    rw [hunit, jsonEscape, List.flatMap_singleton]
    exact (utf8_map_ascii (jsonEscapeByte_ascii hlt)).symm
  next hascii =>
    have hkept : ∀ b ∈ String.utf8EncodeChar c, jsonEscapeByte b = [b] := by
      intro b hb
      exact jsonEscapeByte_of_le (utf8EncodeChar_not_ascii (Nat.le_of_not_lt hascii) b hb)
    rw [jsonEscape, List.flatMap_congr hkept, List.flatMap_singleton', utf8,
      List.flatMap_singleton]

theorem jsonEscape_utf8 (text : List Char) :
    jsonEscape (utf8 text) = utf8 (text.flatMap (escapeUnit characters)) := by
  induction text with
  | nil => rfl
  | cons c text ih =>
    have hsplit : jsonEscape (utf8 (c :: text)) =
        jsonEscape (String.utf8EncodeChar c) ++ jsonEscape (utf8 text) := by
      simp only [jsonEscape, utf8, List.flatMap_cons, List.flatMap_append]
    rw [hsplit, jsonEscape_utf8EncodeChar, ih]
    simp only [utf8, List.flatMap_cons, List.flatMap_append]

/-- A comma, the end of a line or the end of the table. -/
def EndsField (rest : Bytes) : Prop := ∀ ch ∈ rest.head?, ch ∈ [44, 13, 10]

instance (rest : Bytes) : Decidable (EndsField rest) :=
  match rest with
  | [] => .isTrue (fun _ h => nomatch h)
  | ch :: _ => decidable_of_iff (ch ∈ [44, 13, 10]) (by simp [EndsField])

/-- A field from after its first quote: two quotes are one character, and one quote closes it. -/
def readQuoted : Bytes → Option (Bytes × Bytes)
  | [] => none
  | [ch] => if ch = 34 then some ([], []) else none
  | ch :: ch' :: s =>
    if ch = 34 then
      if ch' = 34 then (readQuoted s).map fun r => (34 :: r.1, r.2) else some ([], ch' :: s)
    else (readQuoted (ch' :: s)).map fun r => (ch :: r.1, r.2)

/-- A field of the grammar of RFC 4180 and what follows it. -/
def readField (s : Bytes) : Option (Bytes × Bytes) := do
  let r ← if s.head? = some 34 then readQuoted s.tail
    else some (s.takeWhile (¬isCsvSpecial ·), s.dropWhile (¬isCsvSpecial ·))
  if EndsField r.2 then return r else none

theorem readQuoted_verbatim {ch : UInt8} (h : ch ≠ 34) (s : Bytes) :
    readQuoted (ch :: s) = (readQuoted s).map fun r => (ch :: r.1, r.2) := by
  cases s with
  | nil => exact if_neg h
  | cons ch' s => rw [readQuoted, if_neg h]

theorem readQuoted_close {rest : Bytes} (h : rest.head? ≠ some 34) :
    readQuoted (34 :: rest) = some ([], rest) := by
  cases rest with
  | nil => rfl
  | cons ch rest =>
    have hch : ch ≠ 34 := fun heq => h (heq ▸ rfl)
    rw [readQuoted, if_pos rfl, if_neg hch]

theorem readQuoted_replaceAllCopy {rest : Bytes} (h : rest.head? ≠ some 34) (s : Bytes) :
    readQuoted (replaceAllCopy s 34 [34, 34] ++ 34 :: rest) = some (s, rest) := by
  induction s with
  | nil => exact readQuoted_close h
  | cons ch s ih =>
    rw [replaceAllCopy_cons]
    by_cases hch : ch = 34
    · subst ch
      change readQuoted (34 :: 34 :: (replaceAllCopy s 34 [34, 34] ++ 34 :: rest)) = _
      rw [readQuoted, if_pos rfl, if_pos rfl, ih]
      rfl
    · rw [if_neg hch]
      change readQuoted (ch :: (replaceAllCopy s 34 [34, 34] ++ 34 :: rest)) = _
      rw [readQuoted_verbatim hch, ih]
      rfl

theorem takeWhile_of_endsField {rest : Bytes} (h : EndsField rest) :
    rest.takeWhile (¬isCsvSpecial ·) = [] ∧ rest.dropWhile (¬isCsvSpecial ·) = rest := by
  cases rest with
  | nil => exact ⟨rfl, rfl⟩
  | cons ch rest =>
    have hch : isCsvSpecial ch := List.mem_append_left [34] (h ch rfl)
    have hstop : ¬decide (¬isCsvSpecial ch) = true := by simpa using hch
    exact ⟨List.takeWhile_cons_of_neg hstop, List.dropWhile_cons_of_neg hstop⟩

theorem readField_csvEscape {rest : Bytes} (h : EndsField rest) (s : Bytes) :
    readField (csvEscape s ++ rest) = some (s, rest) := by
  have hquote : rest.head? ≠ some 34 := by
    intro heq
    exact absurd (h 34 heq) (by decide)
  by_cases hspecial : needsCsvQuotes s
  case pos =>
    have hescape : csvEscape s = 34 :: (replaceAllCopy s 34 [34, 34] ++ [34]) := by
      rw [csvEscape, if_pos hspecial]
      rfl
    rw [hescape, List.cons_append, List.append_assoc, List.singleton_append, readField]
    simp only [List.head?_cons, List.tail_cons, ↓reduceIte, readQuoted_replaceAllCopy hquote s]
    exact if_pos h
  case neg =>
    have hplain : ∀ ch ∈ s, ¬isCsvSpecial ch := fun ch hch hbad => hspecial ⟨ch, hch, hbad⟩
    have hnone : 34 ∉ s := fun hmem => hplain 34 hmem (by decide)
    have hescape : csvEscape s = s := by
      rw [csvEscape, if_neg hspecial, replaceAllCopy_of_not_mem _ hnone]
      exact List.append_nil s
    have hhead : (s ++ rest).head? ≠ some 34 := by
      cases s with
      | nil => exact hquote
      | cons ch s =>
        intro heq
        exact hnone (Option.some.inj heq ▸ List.mem_cons_self)
    obtain ⟨htake, hdrop⟩ := takeWhile_of_endsField h
    have hplain' : ∀ ch ∈ s, decide (¬isCsvSpecial ch) = true := fun ch hch =>
      decide_eq_true (hplain ch hch)
    rw [hescape, readField, if_neg hhead, List.takeWhile_append_of_pos hplain',
      List.dropWhile_append_of_pos hplain', htake, hdrop, List.append_nil]
    exact if_pos h

/-- Both texts are read as the string they were made from, whatever follows them: the JSON string
as bytes and, where the bytes are UTF-8, as characters. -/
theorem jsonEscape_csvEscape_read (s rest : Bytes) (text : List Char) (h : EndsField rest) :
    readString octets (34 :: (jsonEscape s ++ 34 :: rest)) = some (s, rest) ∧
      (∃ escaped : List Char, jsonEscape (utf8 text) = utf8 escaped ∧
        ∀ after, readString characters ('"' :: (escaped ++ '"' :: after)) = some (text, after)) ∧
      readField (csvEscape s ++ rest) = some (s, rest) := by
  have hbytes := readString_flatMap_escapeUnit octets s rest
  rw [funext escapeUnit_octets] at hbytes
  exact ⟨hbytes, ⟨_, jsonEscape_utf8 text, readString_flatMap_escapeUnit characters text⟩,
    readField_csvEscape h s⟩

theorem jsonEscape_csvEscape_read_quote :
    readString octets (34 :: (jsonEscape [34, 1, 44] ++ [34, 44])) = some ([34, 1, 44], [44]) ∧
      (∃ escaped : List Char, jsonEscape (utf8 ['é']) = utf8 escaped ∧
        ∀ after, readString characters ('"' :: (escaped ++ '"' :: after)) = some (['é'], after)) ∧
      readField (csvEscape [34, 1, 44] ++ [44]) = some ([34, 1, 44], [44]) :=
  jsonEscape_csvEscape_read [34, 1, 44] [44] ['é'] (by decide)

end LoomX.StringUtility
