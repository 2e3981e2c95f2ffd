import LoomX.Hoist

namespace LoomX

/-- A blank or a comment. -/
inductive Trivia
  | blank (c : Char)
  | lineComment (chars : List Char)
  | blockComment (chars : List Char)
  deriving DecidableEq, Repr

/-- A piece of a C text. A character of a literal or of a comment is no code. -/
inductive Lexeme
  | code (c : Char)
  | trivia (t : Trivia)
  | stringLiteral (chars : List Char)
  | charLiteral (chars : List Char)
  deriving DecidableEq, Repr

def Trivia.text : Trivia → List Char
  | .blank c => [c]
  | .lineComment chars => "//".toList ++ chars ++ ['\n']
  | .blockComment chars => "/*".toList ++ chars ++ "*/".toList

namespace Lexeme

def text : Lexeme → List Char
  | .code c => [c]
  | .trivia t => t.text
  | .stringLiteral chars => '"' :: chars ++ ['"']
  | .charLiteral chars => '\'' :: chars ++ ['\'']

def codeText : Lexeme → List Char
  | .code c => [c]
  | _ => []

/-- Only code holds brackets and semicolons. -/
def Neutral : Lexeme → Prop
  | .code _ => True
  | l => ∀ x ∈ l.text, isMark x = false

end Lexeme

def textOf (ls : List Lexeme) : List Char := ls.flatMap Lexeme.text

def codeOf (ls : List Lexeme) : List Char := ls.flatMap Lexeme.codeText

abbrev Gap := List Trivia

namespace Gap

def lexemes (g : Gap) : List Lexeme := g.map .trivia

def text (g : Gap) : List Char := g.flatMap Trivia.text

end Gap

def wordLexemes (s : List Char) : List Lexeme := s.map .code

def isBlankOrReturn (c : Char) : Bool := isBlankOrNewline c || c == '\r'

/-- Tokens whose brackets match, as between the parentheses of a header. -/
structure Tokens where
  lexemes : List Lexeme
  nested : Nested (codeOf lexemes)

/-- The tokens of an expression, a declaration, a jump or a label. -/
structure SimpleTokens extends Tokens where
  semicolons : semicolonsAt 0 (codeOf lexemes) = 0
  start : ((codeOf lexemes).dropWhile isBlankOrReturn).head? ≠ some '\x7b'

inductive Guard
  | ifThen
  | whileLoop
  | forLoop
  | switchOn
  deriving DecidableEq, Repr

def Guard.keyword : Guard → List Char
  | .ifThen => "if".toList
  | .whileLoop => "while".toList
  | .forLoop => "for".toList
  | .switchOn => "switch".toList

mutual

/-- A statement of C with the blanks and comments before and between its tokens. -/
inductive Statement
  | simple (tokens : SimpleTokens)
  | block (lead : Gap) (items : Items) (close : Gap)
  | guarded (lead : Gap) (guard : Guard) (gap : Gap) (condition : Tokens) (body : Statement)
  | ifElse (lead gap : Gap) (condition : Tokens) (thenBranch : Statement) (elseLead : Gap)
      (elseBranch : Statement)
  | doWhile (lead : Gap) (body : Statement) (whileLead gap : Gap) (condition : Tokens)
      (close : Gap)
  | labeled (label : SimpleTokens) (body : Statement)

/-- What stands in a block. -/
inductive Items
  | nil
  | cons (s : Statement) (rest : Items)

end

/-- A header in parentheses. -/
def headerLexemes (gap : Gap) (header : Tokens) : List Lexeme :=
  gap.lexemes ++ (.code '(' :: (header.lexemes ++ [.code ')']))

mutual

def Statement.lexemes : Statement → List Lexeme
  | .simple tokens => tokens.lexemes ++ [.code ';']
  | .block lead items close =>
    lead.lexemes ++ .code '\x7b' :: (items.lexemes ++ close.lexemes ++ [.code '\x7d'])
  | .guarded lead guard gap condition body =>
    lead.lexemes ++ (wordLexemes guard.keyword ++ (headerLexemes gap condition ++ body.lexemes))
  | .ifElse lead gap condition thenBranch elseLead elseBranch =>
    lead.lexemes ++ (wordLexemes "if".toList ++ (headerLexemes gap condition ++
      (thenBranch.lexemes ++ (elseLead.lexemes ++
        (wordLexemes "else".toList ++ elseBranch.lexemes)))))
  | .doWhile lead body whileLead gap condition close =>
    lead.lexemes ++ (wordLexemes "do".toList ++ (body.lexemes ++ (whileLead.lexemes ++
      (wordLexemes "while".toList ++ (headerLexemes gap condition ++
        (close.lexemes ++ [.code ';']))))))
  | .labeled label body => label.lexemes ++ (.code ':' :: body.lexemes)

def Items.lexemes : Items → List Lexeme
  | .nil => []
  | .cons s rest => s.lexemes ++ rest.lexemes

end

/-- The semicolons of a statement outside of its blocks and headers. -/
def Statement.semicolons : Statement → Nat
  | .simple _ => 1
  | .block .. => 0
  | .guarded _ _ _ _ body => body.semicolons
  | .ifElse _ _ _ thenBranch _ elseBranch => thenBranch.semicolons + elseBranch.semicolons
  | .doWhile _ body _ _ _ _ => body.semicolons + 1
  | .labeled _ body => body.semicolons

def Statement.endsInSemicolon : Statement → Bool
  | .simple _ => true
  | .block .. => false
  | .guarded _ _ _ _ body => body.endsInSemicolon
  | .ifElse _ _ _ _ _ elseBranch => elseBranch.endsInSemicolon
  | .doWhile .. => true
  | .labeled _ body => body.endsInSemicolon

structure LoopStatement where
  gap : Gap
  header : Tokens
  body : Statement

namespace LoopStatement

def lexemes (f : LoopStatement) : List Lexeme :=
  wordLexemes "for".toList ++ (headerLexemes f.gap f.header ++ f.body.lexemes)

def text (f : LoopStatement) : List Char := textOf f.lexemes

/-- No literal and no comment holds a bracket or a semicolon. -/
def Neutral (f : LoopStatement) : Prop := ∀ l ∈ f.lexemes, l.Neutral

end LoopStatement

section
variable {ls ms : List Lexeme} {s t : List Char} {m n : Nat}

theorem textOf_append (ls ms : List Lexeme) : textOf (ls ++ ms) = textOf ls ++ textOf ms :=
  List.flatMap_append

theorem codeOf_append (ls ms : List Lexeme) : codeOf (ls ++ ms) = codeOf ls ++ codeOf ms :=
  List.flatMap_append

theorem textOf_cons (l : Lexeme) (ls : List Lexeme) : textOf (l :: ls) = l.text ++ textOf ls := rfl

theorem codeOf_cons (l : Lexeme) (ls : List Lexeme) :
    codeOf (l :: ls) = l.codeText ++ codeOf ls := rfl

theorem textOf_word (s : List Char) : textOf (wordLexemes s) = s := by
  induction s with
  | nil => rfl
  | cons c s ih =>
    show c :: textOf (wordLexemes s) = c :: s
    rw [ih]

theorem codeOf_word (s : List Char) : codeOf (wordLexemes s) = s := by
  induction s with
  | nil => rfl
  | cons c s ih =>
    show c :: codeOf (wordLexemes s) = c :: s
    rw [ih]

theorem Gap.textOf (g : Gap) : textOf g.lexemes = g.text := by
  rw [LoomX.textOf, Gap.lexemes, List.flatMap_map]
  rfl

theorem Gap.codeOf (g : Gap) : codeOf g.lexemes = [] := by
  induction g with
  | nil => rfl
  | cons t g ih => exact ih

theorem codeOf_header (gap : Gap) (header : Tokens) :
    codeOf (headerLexemes gap header) = '(' :: (codeOf header.lexemes ++ [')']) := by
  rw [headerLexemes, codeOf_append, Gap.codeOf, List.nil_append, codeOf_cons, codeOf_append]
  rfl

theorem textOf_header (gap : Gap) (header : Tokens) :
    textOf (headerLexemes gap header) = gap.text ++ '(' :: (textOf header.lexemes ++ [')']) := by
  rw [headerLexemes, textOf_append, Gap.textOf, textOf_cons, textOf_append]
  rfl

theorem enclosing_gap (g : Gap) : Enclosing (codeOf g.lexemes) 0 := by
  rw [g.codeOf]
  exact enclosing_nil

theorem enclosing_word (h : ∀ x ∈ s, isMark x = false) : Enclosing (codeOf (wordLexemes s)) 0 := by
  rw [codeOf_word]
  exact enclosing_plain h

theorem enclosing_header (gap : Gap) (header : Tokens) :
    Enclosing (codeOf (headerLexemes gap header)) 0 := by
  rw [codeOf_header]
  exact header.nested.inParens

theorem Guard.keyword_plain (g : Guard) : ∀ x ∈ g.keyword, isMark x = false := by
  have hif : ∀ x ∈ ['i', 'f'], isMark x = false := by simp [isMark]
  have hwhile : ∀ x ∈ ['w', 'h', 'i', 'l', 'e'], isMark x = false := by simp [isMark]
  have hfor : ∀ x ∈ ['f', 'o', 'r'], isMark x = false := by simp [isMark]
  have hswitch : ∀ x ∈ ['s', 'w', 'i', 't', 'c', 'h'], isMark x = false := by simp [isMark]
  cases g with
  | ifThen => exact hif
  | whileLoop => exact hwhile
  | forLoop => exact hfor
  | switchOn => exact hswitch

theorem SimpleTokens.enclosing (tokens : SimpleTokens) : Enclosing (codeOf tokens.lexemes) 0 :=
  ⟨tokens.nested, tokens.semicolons⟩

/-- Lexemes that follow each other, with the semicolons of both. -/
theorem enclosing_append (hs : Enclosing (codeOf ls) m) (ht : Enclosing (codeOf ms) n) :
    Enclosing (codeOf (ls ++ ms)) (m + n) := by
  rw [codeOf_append]
  exact hs.append ht

theorem enclosing_skip (hs : Enclosing (codeOf ls) 0) (ht : Enclosing (codeOf ms) n) :
    Enclosing (codeOf (ls ++ ms)) n := by
  have h := enclosing_append hs ht
  rwa [Nat.zero_add] at h

mutual

/-- Read as code, a statement is nested and has its semicolons outside of the brackets. -/
theorem Statement.enclosing : ∀ s : Statement, Enclosing (codeOf s.lexemes) s.semicolons
  | .simple tokens => by
    have hend : Enclosing (codeOf [.code ';']) 1 := enclosing_semicolon
    simpa only [Statement.lexemes, Statement.semicolons] using
      enclosing_skip tokens.enclosing hend
  | .block lead items close => by
    have hinner := (Items.nested items).append (enclosing_gap close).nested
    have hblock : Enclosing
        (codeOf (.code '\x7b' :: (items.lexemes ++ close.lexemes ++ [.code '\x7d']))) 0 := by
      rw [codeOf_cons, codeOf_append, codeOf_append]
      exact hinner.inBraces
    simpa only [Statement.lexemes, Statement.semicolons] using
      enclosing_skip (enclosing_gap lead) hblock
  | .guarded lead guard gap condition body => by
    simpa only [Statement.lexemes, Statement.semicolons] using
      enclosing_skip (enclosing_gap lead) <| enclosing_skip (enclosing_word guard.keyword_plain) <|
        enclosing_skip (enclosing_header gap condition) body.enclosing
  | .ifElse lead gap condition thenBranch elseLead elseBranch => by
    have helse := enclosing_skip (enclosing_gap elseLead) <|
      enclosing_skip (enclosing_word (s := "else".toList) (by simp [isMark])) elseBranch.enclosing
    simpa only [Statement.lexemes, Statement.semicolons] using
      enclosing_skip (enclosing_gap lead) <|
        enclosing_skip (enclosing_word (s := "if".toList) (by simp [isMark])) <|
          enclosing_skip (enclosing_header gap condition) <|
            enclosing_append thenBranch.enclosing helse
  | .doWhile lead body whileLead gap condition close => by
    have hend : Enclosing (codeOf [.code ';']) 1 := enclosing_semicolon
    have hwhile := enclosing_skip (enclosing_gap whileLead) <|
      enclosing_skip (enclosing_word (s := "while".toList) (by simp [isMark])) <|
        enclosing_skip (enclosing_header gap condition) <| enclosing_skip (enclosing_gap close) hend
    simpa only [Statement.lexemes, Statement.semicolons] using
      enclosing_skip (enclosing_gap lead) <|
        enclosing_skip (enclosing_word (s := "do".toList) (by simp [isMark])) <|
          enclosing_append body.enclosing hwhile
  | .labeled label body => by
    have hcolon : Enclosing (codeOf [.code ':']) 0 :=
      enclosing_word (s := [':']) (by simp [isMark])
    simpa only [Statement.lexemes, Statement.semicolons, List.singleton_append] using
      enclosing_skip label.enclosing (enclosing_skip hcolon body.enclosing)

theorem Items.nested : ∀ items : Items, Nested (codeOf items.lexemes)
  | .nil => by
    simp only [Items.lexemes]
    exact nested_nil
  | .cons s rest => by
    simp only [Items.lexemes]
    rw [codeOf_append]
    exact s.enclosing.nested.append (Items.nested rest)

end

/-- The last token of a statement is the brace of its last block or a semicolon. -/
theorem Statement.lexemes_last (s : Statement) : ∃ front,
    s.lexemes = front ++ [.code (bif s.endsInSemicolon then ';' else '\x7d')] := by
  induction s using Statement.rec (motive_2 := fun _ => True) with
  | simple tokens => exact ⟨tokens.lexemes, by simp [Statement.lexemes, Statement.endsInSemicolon]⟩
  | block lead items close =>
    exact ⟨lead.lexemes ++ .code '\x7b' :: (items.lexemes ++ close.lexemes),
      by simp [Statement.lexemes, Statement.endsInSemicolon]⟩
  | guarded lead guard gap condition body ih =>
    obtain ⟨front, hbody⟩ := ih
    refine ⟨lead.lexemes ++ (wordLexemes guard.keyword ++ (headerLexemes gap condition ++ front)), ?_⟩
    simp only [Statement.lexemes, Statement.endsInSemicolon, hbody, List.append_assoc]
  | ifElse lead gap condition thenBranch elseLead elseBranch _ ih =>
    obtain ⟨front, helse⟩ := ih
    refine ⟨lead.lexemes ++ (wordLexemes "if".toList ++ (headerLexemes gap condition ++
      (thenBranch.lexemes ++ (elseLead.lexemes ++ (wordLexemes "else".toList ++ front))))), ?_⟩
    simp only [Statement.lexemes, Statement.endsInSemicolon, helse, List.append_assoc]
  | doWhile lead body whileLead gap condition close _ =>
    refine ⟨lead.lexemes ++ (wordLexemes "do".toList ++ (body.lexemes ++ (whileLead.lexemes ++
      (wordLexemes "while".toList ++ (headerLexemes gap condition ++ close.lexemes))))), ?_⟩
    simp only [Statement.lexemes, Statement.endsInSemicolon, List.append_assoc, cond_true]
  | labeled label body ih =>
    obtain ⟨front, hbody⟩ := ih
    refine ⟨label.lexemes ++ (.code ':' :: front), ?_⟩
    simp only [Statement.lexemes, Statement.endsInSemicolon, hbody, List.append_assoc,
      List.cons_append]
  | nil => trivial
  | cons => trivial

theorem textOf_filter (h : ∀ l ∈ ls, l.Neutral) :
    (textOf ls).filter isMark = (codeOf ls).filter isMark := by
  induction ls with
  | nil => rfl
  | cons l ls ih =>
    obtain ⟨hl, hls⟩ := List.forall_mem_cons.mp h
    rw [textOf_cons, codeOf_cons, List.filter_append, List.filter_append, ih hls]
    cases l with
    | code c => rfl
    | trivia t => rw [List.filter_eq_nil_iff.mpr fun x hx => by simp [hl x hx]]; rfl
    | stringLiteral chars => rw [List.filter_eq_nil_iff.mpr fun x hx => by simp [hl x hx]]; rfl
    | charLiteral chars => rw [List.filter_eq_nil_iff.mpr fun x hx => by simp [hl x hx]]; rfl

/-- Neutral literals and comments leave the brackets as they are in the code. -/
theorem enclosing_text (h : ∀ l ∈ ls, l.Neutral) (hcode : Enclosing (codeOf ls) n) :
    Enclosing (textOf ls) n := by
  rw [← enclosing_filter, textOf_filter h]
  exact enclosing_filter.mpr hcode

theorem head_dropWhile_neutral {p : Char → Bool} (h : ∀ x ∈ s, isMark x = false)
    (ht : (t.dropWhile p).head? ≠ some '\x7b') : ((s ++ t).dropWhile p).head? ≠ some '\x7b' := by
  rw [List.dropWhile_append]
  split
  next => exact ht
  next hne =>
    intro hhead
    cases hs : s.dropWhile p with
    | nil => simp [hs] at hne
    | cons x rest =>
      have hx : x ∈ s := (List.dropWhile_sublist p).subset (hs ▸ List.mem_cons_self)
      rw [hs, List.cons_append, List.head?_cons, Option.some.injEq] at hhead
      exact absurd (h x hx) (by simp [hhead, isMark])

/-- The first token of the text is no brace if none of the code before another token is. -/
theorem head_textOf {k : Char} (h : ∀ l ∈ ls, l.Neutral)
    (hstart : ((codeOf ls).dropWhile isBlankOrReturn).head? ≠ some '\x7b')
    (hk : k ≠ '\x7b') (hblank : isBlankOrReturn k = false) :
    ((textOf (ls ++ .code k :: ms)).dropWhile isBlankOrReturn).head? ≠ some '\x7b' := by
  induction ls with
  | nil =>
    show ((k :: textOf ms).dropWhile isBlankOrReturn).head? ≠ some '\x7b'
    rw [List.dropWhile_cons_of_neg (by simp [hblank])]
    simpa using hk
  | cons l ls ih =>
    obtain ⟨hl, hls⟩ := List.forall_mem_cons.mp h
    have hrest := ih hls
    rw [List.cons_append, textOf_cons]
    cases l with
    | code c =>
      show ((c :: textOf (ls ++ .code k :: ms)).dropWhile isBlankOrReturn).head? ≠ some '\x7b'
      change ((c :: codeOf ls).dropWhile isBlankOrReturn).head? ≠ some '\x7b' at hstart
      cases hc : isBlankOrReturn c with
      | true =>
        rw [List.dropWhile_cons_of_pos hc] at hstart ⊢
        exact hrest hstart
      | false =>
        rw [List.dropWhile_cons_of_neg (by simp [hc])] at hstart ⊢
        exact hstart
    | trivia t => exact head_dropWhile_neutral hl (hrest hstart)
    | stringLiteral chars => exact head_dropWhile_neutral hl (hrest hstart)
    | charLiteral chars => exact head_dropWhile_neutral hl (hrest hstart)

theorem head_codeOf_gap (g : Gap) :
    ((codeOf g.lexemes).dropWhile isBlankOrReturn).head? ≠ some '\x7b' := by
  rw [g.codeOf]
  simp

theorem head_keyword {c : Char} {word : List Char} (g : Gap) (hneutral : ∀ l ∈ g.lexemes, l.Neutral)
    (hc : c ≠ '\x7b') (hblank : isBlankOrReturn c = false) :
    ((textOf (g.lexemes ++ (wordLexemes (c :: word) ++ ms))).dropWhile isBlankOrReturn).head? ≠
      some '\x7b' := head_textOf hneutral (head_codeOf_gap g) hc hblank

/-- The text of a statement that is no block does not start with a brace. -/
theorem Statement.head_text (s : Statement) (hneutral : ∀ l ∈ s.lexemes, l.Neutral)
    (hblock : ∀ lead items close, s ≠ .block lead items close) :
    ((textOf s.lexemes).dropWhile isBlankOrReturn).head? ≠ some '\x7b' := by
  have hleft : ∀ {a b : List Lexeme}, s.lexemes = a ++ b → ∀ l ∈ a, l.Neutral := by
    intro a b heq l hl
    exact hneutral l (heq ▸ List.mem_append_left b hl)
  cases s with
  | simple tokens =>
    simp only [Statement.lexemes] at hleft ⊢
    exact head_textOf (hleft rfl) tokens.start (by decide) (by decide)
  | block lead items close => exact absurd rfl (hblock lead items close)
  | guarded lead guard gap condition body =>
    simp only [Statement.lexemes] at hleft ⊢
    cases guard with
    | ifThen => exact head_keyword lead (hleft rfl) (by decide) (by decide)
    | whileLoop => exact head_keyword lead (hleft rfl) (by decide) (by decide)
    | forLoop => exact head_keyword lead (hleft rfl) (by decide) (by decide)
    | switchOn => exact head_keyword lead (hleft rfl) (by decide) (by decide)
  | ifElse lead gap condition thenBranch elseLead elseBranch =>
    simp only [Statement.lexemes] at hleft ⊢
    exact head_keyword lead (hleft rfl) (by decide) (by decide)
  | doWhile lead body whileLead gap condition close =>
    simp only [Statement.lexemes] at hleft ⊢
    exact head_keyword lead (hleft rfl) (by decide) (by decide)
  | labeled label body =>
    simp only [Statement.lexemes] at hleft ⊢
    exact head_textOf (hleft rfl) label.start (by decide) (by decide)

end

end LoomX
