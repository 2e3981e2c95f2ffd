import Mathlib.Data.Fintype.EquivFin
import Mathlib.Data.List.Basic

namespace LoomX.StringUtility

/-- A `std::string`, whose bytes are written by their ASCII codes. -/
abbrev Bytes := List UInt8

/-- A property of bytes that is checked for one after the other. -/
theorem forall_byte {P : UInt8 → Prop} (h : ∀ n : Fin 256, P (UInt8.ofFin n)) (ch : UInt8) : P ch :=
  h ch.toFin

def isdigit (ch : UInt8) : Bool := decide (48 ≤ ch ∧ ch ≤ 57)

def isupper (ch : UInt8) : Bool := decide (65 ≤ ch ∧ ch ≤ 90)

def islower (ch : UInt8) : Bool := decide (97 ≤ ch ∧ ch ≤ 122)

def isalnum (ch : UInt8) : Bool := isdigit ch || isupper ch || islower ch

def isprint (ch : UInt8) : Bool := decide (32 ≤ ch ∧ ch ≤ 126)

def isxdigit (ch : UInt8) : Bool :=
  isdigit ch || decide (65 ≤ ch ∧ ch ≤ 70) || decide (97 ≤ ch ∧ ch ≤ 102)

def hexadecimalToInt (ch : UInt8) : UInt8 :=
  if isxdigit ch then
    if isdigit ch then ch - 48 else if isupper ch then ch - 65 + 10 else ch - 97 + 10
  else 0

/-- What `snprintf` writes for `\%03o`. -/
def octalEscape (ch : UInt8) : Bytes := [92, 48 + ch / 64, 48 + ch / 8 % 8, 48 + ch % 8]

/-- `cEscape` of one character. -/
def cEscapeChar (ch context : UInt8) : Bytes :=
  match ch with
  | 7 => [92, 97]
  | 8 => [92, 98]
  | 9 => [92, 116]
  | 10 => [92, 110]
  | 11 => [92, 118]
  | 12 => [92, 102]
  | 13 => [92, 114]
  | 34 => if 34 = context then [92, 34] else [ch]
  | 39 => if 39 = context then [92, 39] else [ch]
  | 92 => [92, 92]
  | _ => if isprint ch then [ch] else octalEscape ch

def cEscape (s : Bytes) (context : UInt8) : Bytes := s.flatMap (cEscapeChar · context)

/-- The digits after a backslash and an `x`: the byte they make and what follows them. -/
def hexadecimalByte (byte : UInt8) : Bytes → UInt8 × Bytes
  | [] => (byte, [])
  | ch :: s =>
    if isxdigit ch then hexadecimalByte (16 * byte + hexadecimalToInt ch) s else (byte, ch :: s)

/-- `strchr` over the octal digits, which finds the terminating NUL as well. -/
def isOctal (ch : UInt8) : Bool := decide (48 ≤ ch ∧ ch ≤ 55 ∨ ch = 0)

/-- At most `nchars` digits: the byte they make and what follows them. -/
def octalByte : Nat → UInt8 → Bytes → UInt8 × Bytes
  | 0, byte, s => (byte, s)
  | _ + 1, byte, [] => (byte, [])
  | nchars + 1, byte, ch :: s =>
    if isOctal ch then octalByte nchars (8 * byte + ch - 48) s else (byte, ch :: s)

theorem hexadecimalByte_length (byte : UInt8) (s : Bytes) :
    (hexadecimalByte byte s).2.length ≤ s.length := by
  induction s generalizing byte with
  | nil => exact le_rfl
  | cons ch s ih =>
    rw [hexadecimalByte]
    split
    · exact (ih _).trans (Nat.le_succ _)
    · exact le_rfl

theorem octalByte_length (nchars : Nat) (byte : UInt8) (s : Bytes) :
    (octalByte nchars byte s).2.length ≤ s.length := by
  induction nchars generalizing byte s with
  | zero => exact le_rfl
  | succ nchars ih =>
    cases s with
    | nil => exact le_rfl
    | cons ch s =>
      rw [octalByte]
      split
      · exact (ih _ _).trans (Nat.le_succ _)
      · exact le_rfl

/-- The character that a letter stands for after a backslash. -/
def unescapedChar (ch : UInt8) : Option UInt8 :=
  match ch with
  | 63 => some 63
  | 34 => some 34
  | 39 => some 39
  | 97 => some 7
  | 98 => some 8
  | 102 => some 12
  | 110 => some 10
  | 114 => some 13
  | 116 => some 9
  | 118 => some 11
  | _ => none

def cUnescape : Bytes → Bytes
  | [] => []
  | [ch] => [ch]
  | ch :: ch' :: s =>
    if ch = 92 then
      match unescapedChar ch' with
      | some c => c :: cUnescape s
      | none =>
        if ch' = 120 then
          (hexadecimalByte 0 s).1 :: cUnescape (hexadecimalByte 0 s).2
        else if 48 ≤ ch' ∧ ch' ≤ 55 then
          (octalByte 3 0 (ch' :: s)).1 :: cUnescape (octalByte 3 0 (ch' :: s)).2
        else
          -- Unicode escapes and all others keep their backslash
          92 :: ch' :: cUnescape s
    else ch :: cUnescape (ch' :: s)
termination_by s => s.length
decreasing_by
  · simp only [List.length_cons]
    omega
  · have := hexadecimalByte_length 0 s
    simp only [List.length_cons]
    omega
  · have := octalByte_length 3 0 (ch' :: s)
    simp only [List.length_cons] at this ⊢
    omega
  · simp only [List.length_cons]
    omega
  · simp

theorem cUnescape_verbatim {ch : UInt8} (h : ch ≠ 92) (s : Bytes) :
    cUnescape (ch :: s) = ch :: cUnescape s := by
  cases s with
  | nil => rw [cUnescape, cUnescape]
  | cons ch' s => rw [cUnescape, if_neg h]

theorem cUnescape_letter {ch c : UInt8} (h : unescapedChar ch = some c) (s : Bytes) :
    cUnescape (92 :: ch :: s) = c :: cUnescape s := by
  rw [cUnescape, if_pos rfl, h]

theorem cUnescape_backslash (s : Bytes) :
    cUnescape (92 :: 92 :: s) = 92 :: 92 :: cUnescape s := by
  rw [cUnescape, if_pos rfl]
  simp [unescapedChar]

set_option maxRecDepth 4000 in
theorem octalEscape_digits (ch : UInt8) :
    let d := 48 + ch / 64
    let e := 48 + ch / 8 % 8
    let f := 48 + ch % 8
    ((48 ≤ d ∧ d ≤ 51) ∧ (48 ≤ e ∧ e ≤ 55) ∧ (48 ≤ f ∧ f ≤ 55)) ∧ unescapedChar d = none ∧
      d ≠ 120 ∧ 8 * (8 * (8 * 0 + d - 48) + e - 48) + f - 48 = ch := by
  revert ch
  apply forall_byte
  decide

theorem octalByte_digits {d e f : UInt8} (hd : 48 ≤ d ∧ d ≤ 55) (he : 48 ≤ e ∧ e ≤ 55)
    (hf : 48 ≤ f ∧ f ≤ 55) (s : Bytes) :
    octalByte 3 0 (d :: e :: f :: s) = (8 * (8 * (8 * 0 + d - 48) + e - 48) + f - 48, s) := by
  simp only [octalByte, isOctal, hd, he, hf, and_self, true_or, decide_true, ↓reduceIte]

theorem cUnescape_octalEscape (ch : UInt8) (s : Bytes) :
    cUnescape (octalEscape ch ++ s) = ch :: cUnescape s := by
  obtain ⟨⟨hd, he, hf⟩, hletter, hx, hvalue⟩ := octalEscape_digits ch
  have hd' : 48 ≤ 48 + ch / 64 ∧ 48 + ch / 64 ≤ 55 := ⟨hd.1, UInt8.le_trans hd.2 (by decide)⟩
  change cUnescape (92 :: (48 + ch / 64) :: (48 + ch / 8 % 8) :: (48 + ch % 8) :: s) = _
  rw [cUnescape, if_pos rfl, hletter]
  simp only [if_neg hx, if_pos hd', octalByte_digits hd' he hf]
  rw [hvalue]

/-- `boost::replace_all_copy` where one character is searched for. -/
def replaceAllCopy (s : Bytes) (search : UInt8) (format : Bytes) : Bytes :=
  s.flatMap fun ch => if ch = search then format else [ch]

theorem replaceAllCopy_cons (ch : UInt8) (s : Bytes) (search : UInt8) (format : Bytes) :
    replaceAllCopy (ch :: s) search format =
      (if ch = search then format else [ch]) ++ replaceAllCopy s search format :=
  List.flatMap_cons

theorem replaceAllCopy_of_not_mem {s : Bytes} {search : UInt8} (format : Bytes)
    (h : search ∉ s) : replaceAllCopy s search format = s := by
  have hkept : ∀ ch ∈ s, (if ch = search then format else [ch]) = [ch] := by
    intro ch hch
    have hne : ch ≠ search := fun heq => h (heq ▸ hch)
    exact if_neg hne
  rw [replaceAllCopy, List.flatMap_congr hkept, List.flatMap_singleton']

theorem replaceAllCopy_doubled_length (s : Bytes) (search : UInt8) :
    (replaceAllCopy s search [search, search]).length = s.length + s.count search := by
  induction s with
  | nil => rfl
  | cons ch s ih =>
    rw [replaceAllCopy_cons, List.length_append, ih, List.length_cons, List.count_cons]
    by_cases h : ch = search
    · simp only [h, ↓reduceIte, List.length_cons, List.length_nil, beq_self_eq_true]
      omega
    · simp only [h, ↓reduceIte, List.length_cons, List.length_nil, beq_iff_eq]
      omega

/-- A text in which a character is doubled is the same text only when it does not have it. -/
theorem replaceAllCopy_doubled_iff (s : Bytes) (search : UInt8) :
    replaceAllCopy s search [search, search] = s ↔ search ∉ s := by
  constructor
  · intro h
    have hlen := congrArg List.length h
    rw [replaceAllCopy_doubled_length] at hlen
    exact List.count_eq_zero.1 (by omega)
  · exact replaceAllCopy_of_not_mem _

theorem cUnescape_cEscapeChar (ch context : UInt8) (s : Bytes) :
    cUnescape (cEscapeChar ch context ++ s) =
      (if ch = 92 then [92, 92] else [ch]) ++ cUnescape s := by
  unfold cEscapeChar
  split
  case h_1 | h_2 | h_3 | h_4 | h_5 | h_6 | h_7 => exact cUnescape_letter rfl s
  case h_8 =>
    split
    · exact cUnescape_letter rfl s
    · exact cUnescape_verbatim (by decide) s
  case h_9 =>
    split
    · exact cUnescape_letter rfl s
    · exact cUnescape_verbatim (by decide) s
  case h_10 => exact cUnescape_backslash s
  case h_11 hslash =>
    rw [if_neg hslash]
    split
    · exact cUnescape_verbatim hslash s
    · exact cUnescape_octalEscape ch s

/-- The unescaper knows no escaped backslash and leaves it as it is. -/
theorem cUnescape_cEscape (s : Bytes) (context : UInt8) :
    cUnescape (cEscape s context) = replaceAllCopy s 92 [92, 92] := by
  induction s with
  | nil => simp [cEscape, cUnescape, replaceAllCopy]
  | cons ch s ih =>
    rw [cEscape] at ih ⊢
    rw [List.flatMap_cons, cUnescape_cEscapeChar, ih, replaceAllCopy_cons]

/-- A string comes back exactly when there is no backslash in it. -/
theorem cUnescape_cEscape_iff (s : Bytes) (context : UInt8) :
    cUnescape (cEscape s context) = s ↔ 92 ∉ s := by
  rw [cUnescape_cEscape]
  exact replaceAllCopy_doubled_iff s 92

theorem cUnescape_cEscape_backslash : cUnescape (cEscape [92] 34) ≠ [92] := by
  rw [cUnescape_cEscape]
  decide

end LoomX.StringUtility
