import LoomX.MapMerge

namespace LoomX

/-- Regular expressions over character classes, matched against whole texts. -/
inductive Regex
  | empty
  | epsilon
  | charClass (p : Char → Bool)
  | seq (r s : Regex)
  | alt (r s : Regex)
  | star (r : Regex)

namespace Regex

def plus (r : Regex) : Regex := seq r (star r)

def optional (r : Regex) : Regex := alt r epsilon

def literal (s : List Char) : Regex := s.foldr (fun c r => seq (charClass (· == c)) r) epsilon

def nullable : Regex → Bool
  | empty | charClass _ => false
  | epsilon | star _ => true
  | seq r s => r.nullable && s.nullable
  | alt r s => r.nullable || s.nullable

/-- Sequence with the trivial cases removed, so that derivatives stay small. -/
def andThen : Regex → Regex → Regex
  | empty, _ => empty
  | epsilon, s => s
  | r, s => seq r s

def orElse : Regex → Regex → Regex
  | empty, s => s
  | r, empty => r
  | r, s => alt r s

def deriv (c : Char) : Regex → Regex
  | empty | epsilon => empty
  | charClass p => if p c then epsilon else empty
  | seq r s =>
    if r.nullable then orElse ((r.deriv c).andThen s) (s.deriv c) else (r.deriv c).andThen s
  | alt r s => orElse (r.deriv c) (s.deriv c)
  | star r => (r.deriv c).andThen (star r)

def accepts (r : Regex) : List Char → Bool
  | [] => r.nullable
  | c :: s => (r.deriv c).accepts s

@[simp] theorem accepts_empty (s : List Char) : empty.accepts s = false := by
  induction s with
  | nil => rfl
  | cons c s ih => exact ih

end Regex

/-- The classes `\s` and `\w` of the ECMAScript grammar. -/
def isRegexSpace (c : Char) : Bool :=
  c == ' ' || c == '\t' || c == '\n' || c == '\r' || c == '\x0b' || c == '\x0c'

def isWordChar (c : Char) : Bool := c.isAlphanum || c == '_'

def text (s : List Cell) : List Char := s.map Prod.fst

def isBlankOrNewline (c : Char) : Bool := c == ' ' || c == '\t' || c == '\n'

/-- The blanks a text starts with, and the rest. -/
def spanBlank (s : List Cell) : List Cell × List Cell :=
  (s.takeWhile fun c => isBlankOrNewline c.1, s.dropWhile fun c => isBlankOrNewline c.1)

/-- The text up to and including the next newline, and the rest. -/
def splitLine : List Cell → List Cell × List Cell
  | [] => ([], [])
  | c :: s => if c.1 = '\n' then ([c], s) else (c :: (splitLine s).1, (splitLine s).2)

/-- The pattern `^\s*(?:const\s+|volatile\s+)*(?:\w+\s+)+(?:\*\s*)*\w+(?:\s*=\s*[^;]+)?\s*;\s*$` -/
def declarationRegex : Regex :=
  let spaces := Regex.star (.charClass isRegexSpace)
  let spaces1 := Regex.plus (.charClass isRegexSpace)
  let word := Regex.plus (.charClass isWordChar)
  .seq spaces <|
    .seq (.star (.alt (.seq (.literal "const".toList) spaces1)
      (.seq (.literal "volatile".toList) spaces1))) <|
    .seq (.plus (.seq word spaces1)) <|
    .seq (.star (.seq (.literal "*".toList) spaces)) <|
    .seq word <|
    .seq (.optional (.seq spaces (.seq (.literal "=".toList)
      (.seq spaces (.plus (.charClass (· ≠ ';'))))))) <|
    .seq spaces (.seq (.literal ";".toList) spaces)

def isMovableDeclarationLine (line : List Char) : Bool := declarationRegex.accepts line

/-- What the scan between loops skips. -/
inductive GapPiece
  | blank (cells : List Cell)
  | comment (cells : List Cell)
  | decl (cells : List Cell)
  deriving DecidableEq, Repr

def GapPiece.cells : GapPiece → List Cell
  | blank cs | comment cs | decl cs => cs

def GapPiece.declCells : GapPiece → List Cell
  | decl cs => cs
  | _ => []

def GapPiece.commentCells : GapPiece → List Cell
  | comment cs => cs
  | _ => []

/-- `skipBlankCommentsAndDeclarations`: what is skipped and the text it stops at. -/
def skipGapFrom : Nat → List Cell → List GapPiece × List Cell
  | 0, s => ([], s)
  | fuel + 1, s =>
    let (blank, rest) := spanBlank s
    if rest = [] then ([.blank blank], [])
    else
      let (line, after) := splitLine rest
      if "//".toList.isPrefixOf (text rest) then
        let (pieces, stop) := skipGapFrom fuel after
        (.blank blank :: .comment line :: pieces, stop)
      else if isMovableDeclarationLine (text line) then
        let (pieces, stop) := skipGapFrom fuel after
        (.blank blank :: .decl line :: pieces, stop)
      else ([.blank blank], rest)

def skipGap (s : List Cell) : List GapPiece × List Cell := skipGapFrom (s.length + 1) s

/-- The pragma up to the newline that ends it; one after a backslash does not. -/
def splitPragma (previous : Char) : List Cell → List Cell × List Cell
  | [] => ([], [])
  | c :: s =>
    if c.1 = '\n' ∧ previous ≠ '\\' then ([], c :: s)
    else (c :: (splitPragma c.1 s).1, (splitPragma c.1 s).2)

def lineStartsForLoop (line : List Char) : Bool :=
  "for".toList.isPrefixOf (line.dropWhile isRegexSpace)

/-- A statement up to the semicolon outside braces and parentheses. -/
def splitStatement (braces parens : Nat) : List Cell → List Cell × List Cell
  | [] => ([], [])
  | c :: s =>
    let next (braces parens : Nat) :=
      (c :: (splitStatement braces parens s).1, (splitStatement braces parens s).2)
    if c.1 = '\x7b' then next (braces + 1) parens
    else if c.1 = '\x7d' then next (braces - 1) parens
    else if c.1 = '(' then next braces (parens + 1)
    else if c.1 = ')' then next braces (parens - 1)
    else if c.1 = ';' ∧ braces = 0 ∧ parens = 0 then ([c], s)
    else next braces parens

/-- `findForStatementEnd`: the statement and what follows it. A header or a body that does not
end takes the whole text. -/
def splitFor (s : List Cell) : List Cell × List Cell :=
  match s.dropWhile (·.1 ≠ '(') with
  | [] => (s, [])
  | o :: inner =>
    match cutAtClose Prod.fst '(' ')' 1 inner with
    | none => (s, [])
    | some (header, close, after) =>
      match spanBlank after with
      | (_, []) => (s, [])
      | (blank, b :: body) =>
        let front := s.takeWhile (·.1 ≠ '(') ++ o :: header ++ close :: blank
        if b.1 = '\x7b' then
          match cutAtClose Prod.fst '\x7b' '\x7d' 1 body with
          | none => (s, [])
          | some (block, brace, rest) => (front ++ b :: block ++ [brace], rest)
        else
          let (statement, rest) := splitStatement 0 0 (b :: body)
          (front ++ statement, rest)

def targetPragma : List Char := "#pragma omp target teams distribute parallel for".toList

def startsTargetPragma (s : List Cell) : Bool := targetPragma.isPrefixOf (text s)

/-- A pragma and its loop in a gathered run, with everything skipped on the way to them. -/
structure GatheredLoop where
  gap : List GapPiece
  pragma : List Cell
  newline : List Cell
  lead : List GapPiece
  loop : List Cell
  deriving DecidableEq, Repr

namespace GatheredLoop

def gapCells (l : GatheredLoop) : List Cell := l.gap.flatMap GapPiece.cells

/-- What is copied for the loop: all that stands between its pragma and its end. -/
def body (l : GatheredLoop) : List Cell := l.lead.flatMap GapPiece.cells ++ l.loop

def cells (l : GatheredLoop) : List Cell := l.gapCells ++ l.pragma ++ l.newline ++ l.body

def gapDecls (l : GatheredLoop) : List Cell := l.gap.flatMap GapPiece.declCells

def leadDecls (l : GatheredLoop) : List Cell := l.lead.flatMap GapPiece.declCells

end GatheredLoop

/-- The gathered run from a text on: its loops, the declarations skipped after the last of them
and the text that follows it. -/
def gatherFrom : Nat → List Cell → List GatheredLoop × List Cell × List Cell
  | 0, s => ([], [], s)
  | fuel + 1, s =>
    let (gap, atPragma) := skipGap s
    if startsTargetPragma atPragma then
      let (pragma, afterPragma) := splitPragma ' ' atPragma
      let (lead, atFor) := skipGap afterPragma.tail
      if lineStartsForLoop (text (atFor.take 10)) then
        let (loop, after) := splitFor atFor
        let (loops, trailing, rest) := gatherFrom fuel after
        (⟨gap, pragma, afterPragma.take 1, lead, loop⟩ :: loops, trailing, rest)
      else ([], gap.flatMap GapPiece.declCells ++ lead.flatMap GapPiece.declCells, s)
    else ([], gap.flatMap GapPiece.declCells, s)

/-- A coalesced target data region of the output. -/
structure Region where
  blank : List Cell
  loops : List GatheredLoop
  trailing : List Cell
  deriving DecidableEq, Repr

/-- The pieces the output is built from. -/
inductive Chunk
  | dropped (cells : List Cell)
  | verbatim (cells : List Cell)
  | region (r : Region)
  deriving DecidableEq, Repr

def regionVars (loops : List GatheredLoop) : MappedVars :=
  mergeMappedVars (loops.map fun l => text l.pragma)

/-- The loop of `hoistTargetDataRegions`. -/
def hoistFrom : Nat → List Cell → List Chunk
  | 0, _ => []
  | fuel + 1, s =>
    let (blank, rest) := spanBlank s
    if rest = [] then [.dropped blank]
    else if startsTargetPragma rest then
      let (loops, trailing, after) := gatherFrom rest.length rest
      match loops with
      | [] => .verbatim (blank ++ rest.take targetPragma.length) ::
          hoistFrom fuel (rest.drop targetPragma.length)
      | [l] => .verbatim (blank ++ l.cells) :: hoistFrom fuel after
      | l :: ls =>
        if (regionVars (l :: ls)).entries = [] then
          .verbatim (blank ++ (l :: ls).flatMap GatheredLoop.cells) :: hoistFrom fuel after
        else .region ⟨blank, l :: ls, trailing⟩ :: hoistFrom fuel after
    else .verbatim (blank ++ (splitLine rest).1) :: hoistFrom fuel (splitLine rest).2

def hoistChunks (source : List Char) : List Chunk :=
  hoistFrom (source.length + 1) source.zipIdx

/-- A character of the output and the source position it was copied from, if any. -/
abbrev OutCell := Char × Option Nat

def copied (cells : List Cell) : List OutCell := cells.map fun c => (c.1, some c.2)

def inserted (s : List Char) : List OutCell := s.map fun c => (c, none)

def closeLine (cells : List Cell) : List OutCell :=
  if cells ≠ [] ∧ (text cells).getLast? ≠ some '\n' then inserted "\n".toList else []

namespace Region

/-- The declarations moved before the region, in the order the scan met them. -/
def movedDecls (r : Region) : List Cell :=
  r.loops.flatMap (fun l => l.gapDecls ++ l.leadDecls) ++ r.trailing

def emit (r : Region) : List OutCell :=
  copied r.movedDecls ++ closeLine r.movedDecls ++
  inserted ("#pragma omp target data ".toList ++ buildTargetDataMapClause (regionVars r.loops) ++
    "\n\x7b\n".toList) ++
  r.loops.flatMap (fun l => inserted (stripTargetAndMap (text l.pragma) ++ "\n".toList) ++
    copied l.body ++ closeLine l.body) ++
  inserted "\x7d\n".toList

def cells (r : Region) : List Cell := r.blank ++ r.loops.flatMap GatheredLoop.cells

end Region

namespace Chunk

def cells : Chunk → List Cell
  | dropped cs | verbatim cs => cs
  | region r => r.cells

def emit : Chunk → List OutCell
  | dropped _ => []
  | verbatim cs => copied cs
  | region r => r.emit

end Chunk

def hoistTargetDataRegions (source : List Char) : List OutCell :=
  (hoistChunks source).flatMap Chunk.emit

def regions (source : List Char) : List Region :=
  (hoistChunks source).filterMap fun
    | .region r => some r
    | _ => none

end LoomX
