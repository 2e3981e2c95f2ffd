import Mathlib.Data.List.Basic

namespace LoomX

def literalChar (c : Char) : List Char :=
  if c = '\\' ∨ c = '"' then ['\\', c]
  else if c = '\n' then ['\\', 'n', '"', '\n', '"']
  else if c = '\r' ∨ c = '\t' then [' ']
  else [c]

/-- The text as string literals, one for each line. -/
def toCStringLiteral (text : List Char) : List Char :=
  '"' :: (text.flatMap literalChar ++ ['"'])

/-- Where a reader of string literals is: between two of them, inside of one, after a backslash, or
among the digits of an escape sequence, with the value so far. -/
inductive LiteralState
  | outside
  | inside
  | escape
  | octal (value left : Nat)
  | hexadecimal (value : Option Nat)
  deriving DecidableEq

def simpleEscape : Char → Option Char
  | '\'' => some '\''
  | '"' => some '"'
  | '?' => some '?'
  | '\\' => some '\\'
  | 'a' => some (Char.ofNat 7)
  | 'b' => some (Char.ofNat 8)
  | 'f' => some (Char.ofNat 12)
  | 'n' => some '\n'
  | 'r' => some '\r'
  | 't' => some '\t'
  | 'v' => some (Char.ofNat 11)
  | _ => none

def octalDigit (c : Char) : Option Nat :=
  if '0' ≤ c ∧ c ≤ '7' then some (c.toNat - '0'.toNat) else none

def hexadecimalDigit (c : Char) : Option Nat :=
  if c.isDigit then some (c.toNat - '0'.toNat)
  else if 'a' ≤ c ∧ c ≤ 'f' then some (c.toNat - 'a'.toNat + 10)
  else if 'A' ≤ c ∧ c ≤ 'F' then some (c.toNat - 'A'.toNat + 10)
  else none

/-- A character inside of a literal that no digits wait for; a literal ends on its line. -/
def readInside (c : Char) : Option (LiteralState × List Char) :=
  if c = '"' then some (.outside, [])
  else if c = '\\' then some (.escape, [])
  else if c = '\n' then none
  else some (.inside, [c])

/-- The number is complete before the character. -/
def readAfter (value : Nat) (c : Char) : Option (LiteralState × List Char) :=
  (readInside c).map fun r => (r.1, Char.ofNat value :: r.2)

/-- Where the reader is after a character, and which characters it has found. -/
def readLiteral : LiteralState → Char → Option (LiteralState × List Char)
  | .outside, c =>
    if c = '"' then some (.inside, []) else if c.isWhitespace then some (.outside, []) else none
  | .inside, c => readInside c
  | .escape, c =>
    match simpleEscape c, octalDigit c with
    | some d, _ => some (.inside, [d])
    | none, some n => some (.octal n 2, [])
    | none, none => if c = 'x' then some (.hexadecimal none, []) else none
  | .octal value (left + 1), c =>
    match octalDigit c with
    | some n => some (.octal (8 * value + n) left, [])
    | none => readAfter value c
  | .octal value 0, c => readAfter value c
  | .hexadecimal none, c => (hexadecimalDigit c).map fun n => (.hexadecimal (some n), [])
  | .hexadecimal (some value), c =>
    match hexadecimalDigit c with
    | some n => some (.hexadecimal (some (16 * value + n)), [])
    | none => readAfter value c

def decodeFrom : LiteralState → List Char → Option (List Char)
  | state, [] => if state = .outside then some [] else none
  | state, c :: s => do
    let (state', found) ← readLiteral state c
    let rest ← decodeFrom state' s
    return found ++ rest

/-- What adjacent string literals stand for. -/
def decodeLiterals (s : List Char) : Option (List Char) := decodeFrom .outside s

/-- Tabs and carriage returns become blanks. -/
def embeddedChar (c : Char) : Char := if c = '\r' ∨ c = '\t' then ' ' else c

/-- A character is read back, and the reader is inside of a literal again. -/
theorem decodeFrom_literalChar (c : Char) (s : List Char) :
    decodeFrom .inside (literalChar c ++ s) =
      (decodeFrom .inside s).map (embeddedChar c :: ·) := by
  by_cases hslash : c = '\\'
  · subst c
    cases h : decodeFrom .inside s <;>
      simp [literalChar, decodeFrom, readLiteral, readInside, simpleEscape, embeddedChar, h]
  by_cases hquote : c = '"'
  · subst c
    cases h : decodeFrom .inside s <;>
      simp [literalChar, decodeFrom, readLiteral, readInside, simpleEscape, embeddedChar, h]
  by_cases hline : c = '\n'
  · -- the literal is closed after the escape and another one is opened on the next line
    subst c
    cases h : decodeFrom .inside s <;>
      simp [literalChar, decodeFrom, readLiteral, readInside, simpleEscape, embeddedChar, h]
  by_cases hblank : c = '\r' ∨ c = '\t'
  · cases h : decodeFrom .inside s <;>
      simp [literalChar, decodeFrom, readLiteral, readInside, embeddedChar, hslash, hquote, hline,
        hblank, h]
  · cases h : decodeFrom .inside s <;>
      simp [literalChar, decodeFrom, readLiteral, readInside, embeddedChar, hslash, hquote, hline,
        hblank, h]

theorem decodeFrom_flatMap (text : List Char) :
    decodeFrom .inside (text.flatMap literalChar ++ ['"']) = some (text.map embeddedChar) := by
  induction text with
  | nil => rfl
  | cons c text ih =>
    rw [List.flatMap_cons, List.append_assoc, decodeFrom_literalChar, ih]
    rfl

/-- A text embedded as string literals is read back, with blanks for tabs and carriage returns. -/
theorem decode_toCStringLiteral (text : List Char) :
    decodeLiterals (toCStringLiteral text) = some (text.map embeddedChar) := by
  have hopen : decodeLiterals (toCStringLiteral text) =
      decodeFrom .inside (text.flatMap literalChar ++ ['"']) := by
    simp [decodeLiterals, toCStringLiteral, decodeFrom, readLiteral]
  rw [hopen, decodeFrom_flatMap]

end LoomX
