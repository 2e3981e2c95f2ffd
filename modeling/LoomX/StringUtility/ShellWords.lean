import LoomX.StringUtility.Escape

namespace LoomX.StringUtility

/-- Some character is non-printing or a single quote. -/
def needsEscapes (s : Bytes) : Prop := ∃ ch ∈ s, isprint ch = false ∨ ch = 39

instance (s : Bytes) : Decidable (needsEscapes s) := List.decidableBEx _ s

/-- A character that needs no quotes, or the NUL that `strchr` finds as well. -/
def isBare (ch : UInt8) : Bool := isalnum ch || decide (ch ∈ [95, 45, 43, 46, 47, 61, 0])

/-- Some character is special to the shell. -/
def needsQuotes (s : Bytes) : Prop := ∃ ch ∈ s, isBare ch = false

instance (s : Bytes) : Decidable (needsQuotes s) := List.decidableBEx _ s

def bourneEscape (s : Bytes) : Bytes :=
  if s = [] then [39, 39]
  else if needsEscapes s then [36, 39] ++ cEscape s 39 ++ [39]
  else if needsQuotes s then [39] ++ replaceAllCopy s 92 [92, 92] ++ [39]
  else s

/-- The Bourne shell, which has no quotes `$'…'`, or Bash. -/
inductive Shell
  | bourne
  | bash
  deriving DecidableEq

/-- Where a shell is that reads a line: between words, in a word outside of quotes, after a
backslash, within quotes of one kind, or within an escape sequence of the quotes `$'…'`. -/
inductive Quoting
  | blank
  | bare
  | escaped
  | single
  | double
  | doubleEscaped
  | dollar
  | ansi
  | ansiEscaped
  | octal (value : UInt8) (left : Nat)
  | hexadecimal (value : UInt8) (left : Nat)
  deriving DecidableEq

/-- The characters other than quotes, `$` and blanks that may mean something outside of quotes. -/
def isSpecial (ch : UInt8) : Bool :=
  decide (ch ∈ [10, 33, 35, 38, 40, 41, 42, 59, 60, 62, 63, 91, 93, 94, 96, 123, 124, 125, 126])

def readBare (ch : UInt8) : Option (Quoting × Bytes) :=
  if ch = 39 then some (.single, [])
  else if ch = 34 then some (.double, [])
  else if ch = 92 then some (.escaped, [])
  else if ch = 36 then some (.dollar, [])
  else if ch = 32 ∨ ch = 9 then some (.blank, [])
  else if isSpecial ch then none
  else some (.bare, [ch])

def readDouble (ch : UInt8) : Option (Quoting × Bytes) :=
  if ch = 34 then some (.bare, [])
  else if ch = 92 then some (.doubleEscaped, [])
  else if ch = 36 ∨ ch = 96 then none
  else some (.double, [ch])

def readAnsi (ch : UInt8) : Option (Quoting × Bytes) :=
  if ch = 39 then some (.bare, [])
  else if ch = 92 then some (.ansiEscaped, [])
  else some (.ansi, [ch])

/-- The character that a letter stands for after a backslash within `$'…'`. -/
def ansiLetter (ch : UInt8) : Option UInt8 :=
  match ch with
  | 92 => some 92
  | 101 => some 27
  | 69 => some 27
  | _ => unescapedChar ch

/-- A number was read; an argument has no NUL. -/
def readNumber (value : UInt8) : Option (Quoting × Bytes) :=
  if value = 0 then none else some (.ansi, [value])

/-- A number was complete before the character. -/
def readAfterNumber (value ch : UInt8) : Option (Quoting × Bytes) := do
  let (_, number) ← readNumber value
  let (quoting, found) ← readAnsi ch
  return (quoting, number ++ found)

def readAnsiEscaped (ch : UInt8) : Option (Quoting × Bytes) :=
  if 48 ≤ ch ∧ ch ≤ 55 then some (.octal (ch - 48) 2, [])
  else if ch = 120 then some (.hexadecimal 0 2, [])
  -- escapes of Unicode and of control characters are not read
  else if ch = 117 ∨ ch = 85 ∨ ch = 99 then none
  else match ansiLetter ch with
    | some found => some (.ansi, [found])
    | none => some (.ansi, [92, ch])

def readOctal (value : UInt8) (left : Nat) (ch : UInt8) : Option (Quoting × Bytes) :=
  if 48 ≤ ch ∧ ch ≤ 55 then
    if left = 1 then readNumber (8 * value + ch - 48)
    else some (.octal (8 * value + ch - 48) (left - 1), [])
  else readAfterNumber value ch

def readHexadecimal (value : UInt8) (left : Nat) (ch : UInt8) : Option (Quoting × Bytes) :=
  if isxdigit ch then
    if left = 1 then readNumber (16 * value + hexadecimalToInt ch)
    else some (.hexadecimal (16 * value + hexadecimalToInt ch) (left - 1), [])
  else if left = 2 then none
  else readAfterNumber value ch

/-- A quote after a `$`: the Bourne shell takes the `$` as it is. -/
def openDollar : Shell → Quoting × Bytes
  | .bourne => (.single, [36])
  | .bash => (.ansi, [])

/-- Where the shell is after a character, and what it adds to the word. -/
def readShell (shell : Shell) : Quoting → UInt8 → Option (Quoting × Bytes)
  | .blank, ch => readBare ch
  | .bare, ch => readBare ch
  | .escaped, ch => if ch = 10 then none else some (.bare, [ch])
  | .single, ch => if ch = 39 then some (.bare, []) else some (.single, [ch])
  | .double, ch => readDouble ch
  | .doubleEscaped, ch =>
    if ch = 10 then some (.double, [])
    else if ch ∈ [34, 36, 92, 96] then some (.double, [ch])
    else some (.double, [92, ch])
  | .dollar, ch => if ch = 39 then some (openDollar shell) else none
  | .ansi, ch => readAnsi ch
  | .ansiEscaped, ch => readAnsiEscaped ch
  | .octal value left, ch => readOctal value left ch
  | .hexadecimal value left, ch => readHexadecimal value left ch

def prependWord (found : Bytes) : List Bytes → List Bytes
  | [] => []
  | word :: words => (found ++ word) :: words

/-- The arguments that a shell finds in the rest of a line, the first one of them from where it
is. A word that would be expanded any further is not read. -/
def readArguments (shell : Shell) : Quoting → Bytes → Option (List Bytes)
  | .blank, [] => some []
  | .bare, [] => some [[]]
  | _, [] => none
  | quoting, ch :: s => do
    let (quoting', found) ← readShell shell quoting ch
    let words ← readArguments shell quoting' s
    if quoting' = .blank ∧ quoting ≠ .blank then return [] :: words
    else return prependWord found words

def shellArguments (shell : Shell) (s : Bytes) : Option (List Bytes) :=
  readArguments shell .blank s

variable {shell : Shell}

@[simp] theorem prependWord_nil (words : List Bytes) : prependWord [] words = words := by
  cases words <;> rfl

theorem prependWord_prependWord (s t : Bytes) (words : List Bytes) :
    prependWord s (prependWord t words) = prependWord (s ++ t) words := by
  cases words with
  | nil => rfl
  | cons word words => simp only [prependWord, List.append_assoc]

/-- A character that leaves the shell within a word. -/
theorem readArguments_cons {quoting quoting' : Quoting} {ch : UInt8} {found : Bytes}
    (h : readShell shell quoting ch = some (quoting', found)) (hword : quoting' ≠ .blank)
    (s : Bytes) :
    readArguments shell quoting (ch :: s) =
      (readArguments shell quoting' s).map (prependWord found) := by
  rw [readArguments, h]
  cases hs : readArguments shell quoting' s <;> simp [hs, hword]

theorem readArguments_single {s : Bytes} (h : 39 ∉ s) (t : Bytes) :
    readArguments shell .single (s ++ 39 :: t) =
      (readArguments shell .bare t).map (prependWord s) := by
  induction s with
  | nil => exact readArguments_cons rfl (by decide) t
  | cons ch s ih =>
    obtain ⟨hch, hs⟩ : ¬39 = ch ∧ 39 ∉ s := by simpa only [List.mem_cons, not_or] using h
    have hstep : readShell shell .single ch = some (.single, [ch]) := if_neg (Ne.symm hch)
    rw [List.cons_append, readArguments_cons hstep (by decide), ih hs, Option.map_map]
    exact congrArg₂ _ (funext fun words => prependWord_prependWord [ch] s words) rfl

set_option maxRecDepth 4000 in
theorem readShell_isBare {ch : UInt8} (hprint : isprint ch = true) (hbare : isBare ch = true) :
    readShell shell .bare ch = some (.bare, [ch]) := by
  change readBare ch = some (.bare, [ch])
  revert ch
  apply forall_byte
  decide

theorem readArguments_bare {s : Bytes} (h : ∀ ch ∈ s, isprint ch = true ∧ isBare ch = true) :
    readArguments shell .bare s = some [s] := by
  induction s with
  | nil => rfl
  | cons ch s ih =>
    obtain ⟨hch, hs⟩ := List.forall_mem_cons.1 h
    rw [readArguments_cons (readShell_isBare hch.1 hch.2) (by decide), ih hs]
    rfl

theorem readShell_ansi_backslash : readShell shell .ansi 92 = some (.ansiEscaped, []) := rfl

theorem readArguments_letter {ch found : UInt8}
    (h : readShell shell .ansiEscaped ch = some (.ansi, [found])) (t : Bytes) :
    readArguments shell .ansi (92 :: ch :: t) =
      (readArguments shell .ansi t).map (prependWord [found]) := by
  rw [readArguments_cons readShell_ansi_backslash (by decide), readArguments_cons h (by decide)]
  simp [Function.comp_def]

theorem readArguments_ansi_verbatim {ch : UInt8} (hquote : ch ≠ 39) (hslash : ch ≠ 92)
    (t : Bytes) :
    readArguments shell .ansi (ch :: t) = (readArguments shell .ansi t).map (prependWord [ch]) := by
  have hstep : readShell shell .ansi ch = some (.ansi, [ch]) := by
    rw [readShell, readAnsi, if_neg hquote, if_neg hslash]
  exact readArguments_cons hstep (by decide) t

theorem readArguments_octalEscape {ch : UInt8} (hch : ch ≠ 0) (t : Bytes) :
    readArguments shell .ansi (octalEscape ch ++ t) =
      (readArguments shell .ansi t).map (prependWord [ch]) := by
  obtain ⟨⟨hd, he, hf⟩, -, -, hvalue⟩ := octalEscape_digits ch
  have hd' : 48 ≤ 48 + ch / 64 ∧ 48 + ch / 64 ≤ 55 := ⟨hd.1, UInt8.le_trans hd.2 (by decide)⟩
  have hfirst : readShell shell .ansiEscaped (48 + ch / 64) =
      some (.octal (48 + ch / 64 - 48) 2, []) :=
    if_pos hd'
  have hsecond (value : UInt8) : readShell shell (.octal value 2) (48 + ch / 8 % 8) =
      some (.octal (8 * value + (48 + ch / 8 % 8) - 48) 1, []) :=
    if_pos he
  have hthird (value : UInt8) (hlast : 8 * value + (48 + ch % 8) - 48 = ch) :
      readShell shell (.octal value 1) (48 + ch % 8) = some (.ansi, [ch]) := by
    rw [readShell, readOctal, if_pos hf, if_pos rfl, readNumber, hlast, if_neg hch]
  change readArguments shell .ansi
    (92 :: (48 + ch / 64) :: (48 + ch / 8 % 8) :: (48 + ch % 8) :: t) = _
  rw [readArguments_cons readShell_ansi_backslash (by decide)]
  rw [readArguments_cons hfirst (by simp), readArguments_cons (hsecond _) (by simp)]
  rw [readArguments_cons (hthird _ _) (by simp)]
  · simp [Function.comp_def]
  · simpa using hvalue

theorem readArguments_cEscapeChar {ch : UInt8} (hch : ch ≠ 0) (t : Bytes) :
    readArguments shell .ansi (cEscapeChar ch 39 ++ t) =
      (readArguments shell .ansi t).map (prependWord [ch]) := by
  unfold cEscapeChar
  split
  case h_1 | h_2 | h_3 | h_4 | h_5 | h_6 | h_7 | h_10 => exact readArguments_letter rfl t
  case h_8 => exact readArguments_ansi_verbatim (by decide) (by decide) t
  case h_9 => exact readArguments_letter rfl t
  case h_11 hquote hslash =>
    split
    · exact readArguments_ansi_verbatim hquote hslash t
    · exact readArguments_octalEscape hch t

theorem readArguments_cEscape {s : Bytes} (h : 0 ∉ s) (t : Bytes) :
    readArguments shell .ansi (cEscape s 39 ++ t) =
      (readArguments shell .ansi t).map (prependWord s) := by
  induction s with
  | nil => simp [cEscape, show prependWord [] = id from funext prependWord_nil]
  | cons ch s ih =>
    obtain ⟨hch, hs⟩ : ¬0 = ch ∧ 0 ∉ s := by simpa only [List.mem_cons, not_or] using h
    rw [cEscape] at ih ⊢
    rw [List.flatMap_cons, List.append_assoc, readArguments_cEscapeChar (Ne.symm hch), ih hs,
      Option.map_map]
    exact congrArg₂ _ (funext fun words => prependWord_prependWord [ch] s words) rfl

/-- Whatever the first character of a word is, the word may start in the blanks before it. -/
theorem shellArguments_of_bare {s : Bytes} {word : Bytes} (hs : s ≠ [])
    (h : readArguments shell .bare s = some [word])
    (hstep : ∀ ch ∈ s.head?, ∃ r, readShell shell .bare ch = some r ∧ r.1 ≠ .blank) :
    shellArguments shell s = some [word] := by
  cases s with
  | nil => exact absurd rfl hs
  | cons ch s =>
    obtain ⟨⟨quoting, found⟩, hr, hword⟩ := hstep ch rfl
    have hblank : readShell shell .blank ch = some (quoting, found) := hr
    rw [readArguments_cons hr hword] at h
    rw [shellArguments, readArguments_cons hblank hword, h]

/-- The words of `$'…'` and `'…'`. -/
theorem shellArguments_ansi {s : Bytes} (h : 0 ∉ s) :
    shellArguments .bash ([36, 39] ++ cEscape s 39 ++ [39]) = some [s] := by
  have hdollar : readShell .bash .blank 36 = some (.dollar, []) := rfl
  have hopen : readShell .bash .dollar 39 = some (.ansi, []) := rfl
  have hclose : readArguments .bash .ansi [39] = some [[]] := rfl
  change readArguments .bash .blank (36 :: 39 :: (cEscape s 39 ++ [39])) = _
  rw [readArguments_cons hdollar (by decide), readArguments_cons hopen (by decide),
    readArguments_cEscape h, hclose]
  simp [prependWord]

theorem shellArguments_single {s : Bytes} (h : 39 ∉ s) :
    shellArguments shell ([39] ++ s ++ [39]) = some [s] := by
  have hopen : readShell shell .blank 39 = some (.single, []) := rfl
  have hclose : readArguments shell .bare [] = some [[]] := rfl
  change readArguments shell .blank (39 :: (s ++ [39])) = _
  rw [readArguments_cons hopen (by decide), readArguments_single h, hclose]
  simp [prependWord]

/-- A text that is written character by character, a backslash and a quote with a backslash
before it. -/
inductive EscapedText : Bytes → Prop
  | nil : EscapedText []
  | verbatim {ch : UInt8} {s : Bytes} (hquote : ch ≠ 39) (hslash : ch ≠ 92)
      (hs : EscapedText s) : EscapedText (ch :: s)
  | escaped (ch : UInt8) {s : Bytes} (hs : EscapedText s) : EscapedText (92 :: ch :: s)

theorem escapedText_octalEscape (ch : UInt8) {s : Bytes} (hs : EscapedText s) :
    EscapedText (octalEscape ch ++ s) := by
  obtain ⟨⟨-, he, hf⟩, -, -, -⟩ := octalEscape_digits ch
  have hdigit {d : UInt8} (hd : 48 ≤ d ∧ d ≤ 55) : d ≠ 39 ∧ d ≠ 92 := by
    constructor
    · rintro rfl
      exact absurd hd.1 (by decide)
    · rintro rfl
      exact absurd hd.2 (by decide)
  exact .escaped _ (.verbatim (hdigit he).1 (hdigit he).2
    (.verbatim (hdigit hf).1 (hdigit hf).2 hs))

theorem escapedText_cEscapeChar (ch : UInt8) {s : Bytes} (hs : EscapedText s) :
    EscapedText (cEscapeChar ch 39 ++ s) := by
  unfold cEscapeChar
  split
  case h_1 | h_2 | h_3 | h_4 | h_5 | h_6 | h_7 | h_9 | h_10 => exact .escaped _ hs
  case h_8 => exact .verbatim (by decide) (by decide) hs
  case h_11 hquote hslash =>
    split
    · exact .verbatim hquote hslash hs
    · exact escapedText_octalEscape ch hs

theorem escapedText_cEscape (s : Bytes) : EscapedText (cEscape s 39) := by
  induction s with
  | nil => exact .nil
  | cons ch s ih => exact escapedText_cEscapeChar ch ih

theorem length_le_cEscape (s : Bytes) : s.length ≤ (cEscape s 39).length := by
  have hpos (ch : UInt8) : 1 ≤ (cEscapeChar ch 39).length := by
    unfold cEscapeChar
    split <;> try split
    all_goals simp [octalEscape]
  induction s with
  | nil => exact Nat.zero_le _
  | cons ch s ih =>
    rw [cEscape, List.flatMap_cons, List.length_append, List.length_cons, Nat.add_comm]
    exact Nat.add_le_add (hpos ch) ih

theorem readArguments_of_unread {quoting : Quoting} {ch : UInt8} {s : Bytes}
    (h : ∀ r, readShell shell quoting ch = some r → readArguments shell r.1 s = none) :
    readArguments shell quoting (ch :: s) = none := by
  rw [readArguments]
  cases hr : readShell shell quoting ch with
  | none => rfl
  | some r => simp [h r hr]

/-- Where a shell is that has closed the single quotes, escape sequences read whole. -/
def Quoting.isUnquoted : Quoting → Prop
  | .blank | .bare | .double | .dollar => True
  | _ => False

theorem readBare_isUnquoted {ch : UInt8} {r : Quoting × Bytes} (hquote : ch ≠ 39)
    (hslash : ch ≠ 92) (h : readBare ch = some r) : r.1.isUnquoted := by
  unfold readBare at h
  rw [if_neg hquote] at h
  split_ifs at h
  all_goals cases h; trivial

theorem readDouble_isUnquoted {ch : UInt8} {r : Quoting × Bytes} (hslash : ch ≠ 92)
    (h : readDouble ch = some r) : r.1.isUnquoted := by
  unfold readDouble at h
  split_ifs at h
  all_goals cases h; trivial

/-- The quote at the end opens what nothing closes. -/
theorem readArguments_unterminated {quoting : Quoting} {s : Bytes} (hs : EscapedText s)
    (hquoting : quoting.isUnquoted) : readArguments .bourne quoting (s ++ [39]) = none := by
  induction hs generalizing quoting with
  | nil =>
    match quoting, hquoting with
    | .blank, _ | .bare, _ | .double, _ | .dollar, _ => rfl
  | @verbatim ch s hquote hslash _ ih =>
    apply readArguments_of_unread
    intro r hr
    apply ih
    match quoting, hquoting with
    | .blank, _ | .bare, _ => exact readBare_isUnquoted hquote hslash hr
    | .double, _ => exact readDouble_isUnquoted hslash hr
    | .dollar, _ => simp [readShell, hquote] at hr
  | @escaped ch s _ ih =>
    apply readArguments_of_unread
    intro r hr
    apply readArguments_of_unread
    intro r' hr'
    apply ih
    match quoting, hquoting with
    | .blank, _ | .bare, _ =>
      cases hr
      simp only [readShell] at hr'
      split_ifs at hr'
      cases hr'
      trivial
    | .double, _ =>
      cases hr
      simp only [readShell] at hr'
      split_ifs at hr'
      all_goals cases hr'; trivial
    | .dollar, _ => simp [readShell] at hr

/-- Within plain single quotes a backslash keeps no quote from closing them. -/
theorem readArguments_single_unterminated {s : Bytes} (hs : EscapedText s) (hmem : 39 ∈ s) :
    readArguments .bourne .single (s ++ [39]) = none := by
  induction hs with
  | nil => exact absurd hmem (List.not_mem_nil)
  | @verbatim ch s hquote hslash _ ih =>
    apply readArguments_of_unread
    intro r hr
    have hs : 39 ∈ s := (List.mem_cons.1 hmem).resolve_left (Ne.symm hquote)
    simp only [readShell, hquote, if_false] at hr
    cases hr
    exact ih hs
  | @escaped ch s hs ih =>
    apply readArguments_of_unread
    intro r hr
    cases hr
    apply readArguments_of_unread
    intro r' hr'
    by_cases hch : ch = 39
    · subst ch
      cases hr'
      exact readArguments_unterminated hs trivial
    · simp only [readShell, hch, if_false] at hr'
      cases hr'
      apply ih
      simpa [Ne.symm hch] using hmem

/-- The Bourne shell keeps the `$`, and the first quote that is written as `'` ends its quotes. -/
theorem shellArguments_bourne_ansi (s : Bytes) :
    shellArguments .bourne ([36, 39] ++ cEscape s 39 ++ [39]) ≠ some [s] := by
  have hdollar : readShell .bourne .blank 36 = some (.dollar, []) := rfl
  have hopen : readShell .bourne .dollar 39 = some (.single, [36]) := rfl
  have hclose : readArguments .bourne .bare [] = some [[]] := rfl
  change readArguments .bourne .blank (36 :: 39 :: (cEscape s 39 ++ [39])) ≠ _
  rw [readArguments_cons hdollar (by decide), readArguments_cons hopen (by decide)]
  by_cases hquote : 39 ∈ cEscape s 39
  · rw [readArguments_single_unterminated (escapedText_cEscape s) hquote]
    simp
  · rw [readArguments_single hquote, hclose]
    intro heq
    have hword : 36 :: cEscape s 39 = s := by simpa [prependWord] using heq
    have hlength := congrArg List.length hword
    have hle := length_le_cEscape s
    rw [List.length_cons] at hlength
    omega

theorem mem_replaceAllCopy {ch search : UInt8} {s format : Bytes}
    (h : ch ∈ replaceAllCopy s search format) : ch ∈ s ∨ ch ∈ format := by
  obtain ⟨ch', hch', hmem⟩ := List.mem_flatMap.1 h
  split at hmem
  · exact .inr hmem
  · exact .inl (List.mem_singleton.1 hmem ▸ hch')

theorem isprint_of_not_needsEscapes {s : Bytes} (h : ¬needsEscapes s) :
    39 ∉ s ∧ ∀ ch ∈ s, isprint ch = true := by
  refine ⟨fun hmem => h ⟨39, hmem, .inr rfl⟩, ?_⟩
  intro ch hch
  by_contra hbad
  exact h ⟨ch, hch, .inl (Bool.eq_false_iff.2 hbad)⟩

theorem not_backslash_of_not_needsQuotes {s : Bytes} (h : ¬needsQuotes s) : 92 ∉ s := by
  intro hslash
  exact h ⟨92, hslash, rfl⟩

/-- Bash reads every string back but those whose backslash is within plain single quotes, where it
is not special and needs no other one before it; the Bourne shell has no quotes `$'…'`. -/
theorem shellArguments_bourneEscape (shell : Shell) (s : Bytes) (h : 0 ∉ s) :
    shellArguments shell (bourneEscape s) = some [s] ↔
      if needsEscapes s then shell = .bash else 92 ∉ s := by
  unfold bourneEscape
  split
  case isTrue hnil =>
    subst s
    rw [if_neg (by decide)]
    exact iff_of_true rfl List.not_mem_nil
  case isFalse hne =>
    split
    case isTrue hescapes =>
      cases shell with
      | bourne => exact iff_of_false (shellArguments_bourne_ansi s) (by decide)
      | bash => exact iff_of_true (shellArguments_ansi h) rfl
    case isFalse hescapes =>
      obtain ⟨hquote, hprint⟩ := isprint_of_not_needsEscapes hescapes
      split
      case isTrue hspecial =>
        have hquote' : 39 ∉ replaceAllCopy s 92 [92, 92] := by
          intro hmem
          rcases mem_replaceAllCopy hmem with hmem | hmem
          · exact hquote hmem
          · exact absurd hmem (by decide)
        rw [shellArguments_single hquote', Option.some_inj, List.singleton_inj]
        exact replaceAllCopy_doubled_iff s 92
      case isFalse hbare =>
        have hchars : ∀ ch ∈ s, isprint ch = true ∧ isBare ch = true := by
          intro ch hch
          refine ⟨hprint ch hch, ?_⟩
          by_contra hbad
          exact hbare ⟨ch, hch, Bool.eq_false_iff.2 hbad⟩
        have hword : shellArguments shell s = some [s] := by
          refine shellArguments_of_bare hne (readArguments_bare hchars) ?_
          intro ch hch
          obtain ⟨hp, hb⟩ := hchars ch (List.mem_of_mem_head? hch)
          exact ⟨_, readShell_isBare hp hb, by simp⟩
        simp only [hword, not_backslash_of_not_needsQuotes hbare, not_false_eq_true]

theorem shellArguments_bourneEscape_blank :
    shellArguments .bourne (bourneEscape [97, 32, 98]) = some [[97, 32, 98]] :=
  (shellArguments_bourneEscape .bourne [97, 32, 98] (by decide)).2 (by decide)

/-- The one backslash of `a\b` comes back as two, and for the Bourne shell the quotes of `it's` do
not end. -/
theorem shellArguments_bourneEscape_backslash :
    0 ∉ ([97, 92, 98] : Bytes) ∧
      shellArguments .bourne (bourneEscape [97, 92, 98]) ≠ some [[97, 92, 98]] ∧
      0 ∉ ([105, 116, 39, 115] : Bytes) ∧
      shellArguments .bourne (bourneEscape [105, 116, 39, 115]) = none := by
  decide

end LoomX.StringUtility
