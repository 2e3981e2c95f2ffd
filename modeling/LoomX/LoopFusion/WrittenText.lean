import LoomX.Syntax
import LoomX.ForGrammar
import LoomX.TextReplace
import LoomX.LoopFusion.PragmaTail

namespace LoomX.LoopFusion

/-- `arr[iv]`, as it is searched for. -/
def arrayRead (arr iv : List Char) : List Char := arr ++ '[' :: (iv ++ [']'])

structure IsIdentifier (s : List Char) : Prop where
  start : ∀ c ∈ s.head?, c.isDigit = false
  chars : ∀ c ∈ s, isIdentChar c = true
  ne : s ≠ []

/-- Blanks and comments, none of which holds the text `old`. -/
structure IsGap (old s : List Char) : Prop where
  trivia : ∃ g : Gap, s = g.text ∧ ∀ c, .blank c ∈ g → isSpace c = true
  free : ¬old <:+: s

def operatorText : BinOp → List Char
  | .add => ['+']
  | .sub => ['-']
  | .mul => ['*']
  | .div => ['/']
  | .mod => ['%']
  | .band => ['&']
  | .bor => ['|']
  | .bxor => ['^']
  | .shl => ['<', '<']
  | .shr => ['>', '>']
  | .lt => ['<']
  | .le => ['<', '=']
  | .gt => ['>']
  | .ge => ['>', '=']
  | .eq => ['=', '=']
  | .ne => ['!', '=']
  | .land => ['&', '&']
  | .lor => ['|', '|']
  | .comma => [',']

def decimalValue (digits : List Char) : Nat :=
  digits.foldl (fun n c => 10 * n + (c.toNat - '0'.toNat)) 0

def kindSuffix : IntKind → List Char
  | .int => []
  | .long => ['L']
  | .longLong => ['L', 'L']
  | .other => ['U']

/-- What stands before an operand. -/
inductive Before : (Expr → Expr) → List Char → Prop
  | deref : Before .deref ['*']
  | addrOf : Before .addrOf ['&']
  | minus : Before (.unary .minus) ['-']
  | lnot : Before (.unary .lnot) ['!']
  | bnot : Before (.unary .bnot) ['~']
  | plusPlus : Before .plusPlus ['+', '+']
  | minusMinus : Before .minusMinus ['-', '-']
  | cast {t : CType} {name : List Char} (h : '[' ∉ name) : Before (.cast t) ('(' :: (name ++ [')']))

/-- What stands between two operands. -/
inductive Between : (Expr → Expr → Expr) → List Char → Prop
  | binary {op : BinOp} : Between (.binary op) (operatorText op)
  | assign : Between .assign ['=']
  | compound {op : BinOp} : Between (.compound op) (operatorText op ++ ['='])

/-- What stands after an operand. -/
inductive After : (Expr → Expr) → List Char → Prop
  | plusPlus : After .plusPlus ['+', '+']
  | minusMinus : After .minusMinus ['-', '-']

def isArrayRead (arr iv : List Char) : Expr → Bool
  | .arrRef (.varRef v) (.varRef w) => v.name.toList == arr && w.name.toList == iv
  | _ => false

inductive Level
  | primary
  | full
  | arguments

/-- The texts an expression can be written as, with blanks and comments after its tokens. If it is
tight, a read of `arr[iv]` is written without any inside. -/
inductive Written (arr iv : List Char) (tight : Bool) : Level → Expr → List Char → Prop
  | varRef {v : Var} {g : List Char} (hname : IsIdentifier v.name.toList)
      (hg : IsGap (arrayRead arr iv) g) : Written arr iv tight .primary (.varRef v) (v.name.toList ++ g)
  | intVal {kind : IntKind} {digits g : List Char} (hne : digits ≠ [])
      (hdigits : ∀ c ∈ digits, c.isDigit = true) (hg : IsGap (arrayRead arr iv) g) :
      Written arr iv tight .primary (.intVal kind (decimalValue digits))
        ((digits ++ kindSuffix kind) ++ g)
  | paren {e : Expr} {s g g' : List Char} (he : Written arr iv tight .full e s)
      (hg : IsGap (arrayRead arr iv) g) (hg' : IsGap (arrayRead arr iv) g') :
      Written arr iv tight .primary e ((['('] ++ g) ++ (s ++ ([')'] ++ g')))
  | arrRef {b i : Expr} {s t g g' : List Char} (hb : Written arr iv tight .primary b s)
      (hi : Written arr iv tight .full i t) (hg : IsGap (arrayRead arr iv) g)
      (hg' : IsGap (arrayRead arr iv) g')
      (hread : tight = true → isArrayRead arr iv (.arrRef b i) = true → s = arr ∧ g = [] ∧ t = iv) :
      Written arr iv tight .primary (.arrRef b i) (s ++ ('[' :: (g ++ (t ++ (']' :: g')))))
  | member {e : Expr} {f : String} {s op g g' : List Char} (he : Written arr iv tight .primary e s)
      (hop : op = ['.'] ∨ op = ['-', '>']) (hf : IsIdentifier f.toList)
      (hg : IsGap (arrayRead arr iv) g) (hg' : IsGap (arrayRead arr iv) g') :
      Written arr iv tight .primary (.member e f) (s ++ ((op ++ g) ++ (f.toList ++ g')))
  | call {callee : Option String} {args : Expr} {f t g g' g'' : List Char}
      (hcallee : ∀ n ∈ callee, n.toList = f) (hf : IsIdentifier f)
      (hargs : Written arr iv tight .arguments args t) (hg : IsGap (arrayRead arr iv) g)
      (hg' : IsGap (arrayRead arr iv) g') (hg'' : IsGap (arrayRead arr iv) g'') :
      Written arr iv tight .primary (.call callee args)
        (f ++ ((g ++ (['('] ++ g')) ++ (t ++ ([')'] ++ g''))))
  | after {node : Expr → Expr} {e : Expr} {s op g : List Char} (hnode : After node op)
      (he : Written arr iv tight .primary e s) (hg : IsGap (arrayRead arr iv) g) :
      Written arr iv tight .primary (node e) (s ++ (op ++ g))
  | primary {e : Expr} {s : List Char} (he : Written arr iv tight .primary e s) :
      Written arr iv tight .full e s
  | before {node : Expr → Expr} {e : Expr} {s op g : List Char} (hnode : Before node op)
      (he : Written arr iv tight .full e s) (hg : IsGap (arrayRead arr iv) g) :
      Written arr iv tight .full (node e) ((op ++ g) ++ s)
  | between {node : Expr → Expr → Expr} {a b : Expr} {s t op g : List Char}
      (hnode : Between node op) (ha : Written arr iv tight .full a s) (hb : Written arr iv tight .full b t)
      (hg : IsGap (arrayRead arr iv) g) :
      Written arr iv tight .full (node a b) (s ++ ((op ++ g) ++ t))
  | cond {c a b : Expr} {s t u g g' : List Char} (hc : Written arr iv tight .full c s)
      (ha : Written arr iv tight .full a t) (hb : Written arr iv tight .full b u)
      (hg : IsGap (arrayRead arr iv) g) (hg' : IsGap (arrayRead arr iv) g') :
      Written arr iv tight .full (.cond c a b) (s ++ ((['?'] ++ g) ++ (t ++ (([':'] ++ g') ++ u))))
  | noArguments : Written arr iv tight .arguments .exprNil []
  | lastArgument {e : Expr} {s : List Char} (he : Written arr iv tight .full e s) :
      Written arr iv tight .arguments (.exprCons e .exprNil) s
  | moreArguments {e e' es : Expr} {s t g : List Char} (he : Written arr iv tight .full e s)
      (hes : Written arr iv tight .arguments (.exprCons e' es) t) (hg : IsGap (arrayRead arr iv) g) :
      Written arr iv tight .arguments (.exprCons e (.exprCons e' es)) (s ++ (([','] ++ g) ++ t))

/-- The expression with `e` for every read of `arr[iv]`. -/
def contract (arr iv : List Char) (e : Expr) : Expr → Expr
  | .intVal kind n => .intVal kind n
  | .varRef v => .varRef v
  | .arrRef b i =>
    if isArrayRead arr iv (.arrRef b i) then e
    else .arrRef (contract arr iv e b) (contract arr iv e i)
  | .deref x => .deref (contract arr iv e x)
  | .member x f => .member (contract arr iv e x) f
  | .addrOf x => .addrOf (contract arr iv e x)
  | .cast t x => .cast t (contract arr iv e x)
  | .unary op x => .unary op (contract arr iv e x)
  | .binary op a b => .binary op (contract arr iv e a) (contract arr iv e b)
  | .cond c a b => .cond (contract arr iv e c) (contract arr iv e a) (contract arr iv e b)
  | .assign a b => .assign (contract arr iv e a) (contract arr iv e b)
  | .compound op a b => .compound op (contract arr iv e a) (contract arr iv e b)
  | .plusPlus x => .plusPlus (contract arr iv e x)
  | .minusMinus x => .minusMinus (contract arr iv e x)
  | .call callee args => .call callee (contract arr iv e args)
  | .exprNil => .exprNil
  | .exprCons x xs => .exprCons (contract arr iv e x) (contract arr iv e xs)

/-- Text that ends in a member access. -/
def AfterMember (old w : List Char) : Prop :=
  ∃ s op g, w = s ++ (op ++ g) ∧ (op = ['.'] ∨ op = ['-', '>']) ∧ IsGap old g

/-- Every occurrence of `arr[iv]` is a whole identifier, and none the name of a member. -/
structure CleanOccurrences (arr iv s : List Char) : Prop where
  words : WordOccurrences isIdentChar (arrayRead arr iv) s
  members : ∀ w u, s = w ++ (arrayRead arr iv ++ u) → ¬AfterMember (arrayRead arr iv) w

/-- A character that is in no identifier and no square bracket. -/
def isPlain (c : Char) : Bool := !isIdentChar c && c != '[' && c != ']'

section
variable {arr iv s t u w g h : List Char} {c d : Char} {tight : Bool}

theorem isPlain_iff : isPlain c = true ↔ isIdentChar c = false ∧ c ≠ '[' ∧ c ≠ ']' := by
  simp [isPlain, and_assoc]

theorem isPlain_of_isSpace (h : isSpace c = true) : isPlain c = true := by
  refine isPlain_iff.mpr ⟨isSpace_notIdent h, fun hc => ?_, fun hc => ?_⟩
  · rw [hc] at h
    exact absurd h (by decide)
  · rw [hc] at h
    exact absurd h (by decide)

theorem mem_arrayRead (harr : IsIdentifier arr) (hiv : IsIdentifier iv) (h : c ∈ arrayRead arr iv) :
    isIdentChar c = true ∨ c = '[' ∨ c = ']' := by
  simp only [arrayRead, List.mem_append, List.mem_cons, List.not_mem_nil, or_false] at h
  obtain h | h | h | h := h
  · exact Or.inl (harr.chars c h)
  · exact Or.inr (Or.inl h)
  · exact Or.inl (hiv.chars c h)
  · exact Or.inr (Or.inr h)

theorem not_mem_arrayRead (harr : IsIdentifier arr) (hiv : IsIdentifier iv) (h : isPlain c = true) :
    c ∉ arrayRead arr iv := by
  obtain ⟨hident, hopen, hclose⟩ := isPlain_iff.mp h
  intro hmem
  obtain h | h | h := mem_arrayRead harr hiv hmem
  · rw [hident] at h
    cases h
  · exact hopen h
  · exact hclose h

theorem open_mem_arrayRead (arr iv : List Char) : '[' ∈ arrayRead arr iv := by simp [arrayRead]

theorem not_infix_of_no_open (h : '[' ∉ s) : ¬arrayRead arr iv <:+: s :=
  fun hin => h (hin.subset (open_mem_arrayRead arr iv))

/-- Glue, as far as it matters to what stands around it. -/
structure PlainEnds (s : List Char) : Prop where
  first : ∃ c rest, s = c :: rest ∧ isPlain c = true
  last : ∃ front c, s = front ++ [c] ∧ isPlain c = true

theorem PlainEnds.append (hs : PlainEnds s) (ht : t = [] ∨ PlainEnds t) : PlainEnds (s ++ t) := by
  obtain rfl | ht := ht
  · rwa [List.append_nil]
  · obtain ⟨c, rest, rfl, hc⟩ := hs.first
    obtain ⟨front, d, rfl, hd⟩ := ht.last
    exact ⟨⟨c, rest ++ (front ++ [d]), rfl, hc⟩, c :: rest ++ front, d, by simp, hd⟩

theorem plainEnds_of_all (hne : s ≠ []) (hs : s.all isPlain = true) : PlainEnds s := by
  rw [List.all_eq_true] at hs
  obtain ⟨c, rest, rfl⟩ := List.exists_cons_of_ne_nil hne
  refine ⟨⟨c, rest, rfl, hs c List.mem_cons_self⟩, _, (c :: rest).getLast hne,
    (List.dropLast_append_getLast hne).symm, hs _ (List.getLast_mem hne)⟩

theorem PlainEnds.glue (harr : IsIdentifier arr) (hiv : IsIdentifier iv) (hs : PlainEnds s)
    (hnone : ¬arrayRead arr iv <:+: s) : Glue (arrayRead arr iv) s := by
  obtain ⟨c, rest, hfirst, hc⟩ := hs.first
  obtain ⟨front, d, hlast, hd⟩ := hs.last
  refine ⟨by simp [hfirst], fun x hx => ?_, fun x hx => ?_, hnone⟩
  · obtain rfl : c = x := by simpa [hfirst] using hx
    exact not_mem_arrayRead harr hiv hc
  · obtain rfl : d = x := by simpa [hlast] using hx
    exact not_mem_arrayRead harr hiv hd

theorem Trivia.first_plain {t : Trivia} (h : ∀ c, t = .blank c → isSpace c = true) :
    ∃ c rest, t.text = c :: rest ∧ isPlain c = true := by
  cases t with
  | blank c => exact ⟨c, [], rfl, isPlain_of_isSpace (h c rfl)⟩
  | lineComment chars => exact ⟨'/', _, rfl, by decide⟩
  | blockComment chars => exact ⟨'/', _, rfl, by decide⟩

theorem Trivia.last_plain {t : Trivia} (h : ∀ c, t = .blank c → isSpace c = true) :
    ∃ front c, t.text = front ++ [c] ∧ isPlain c = true := by
  cases t with
  | blank c => exact ⟨[], c, rfl, isPlain_of_isSpace (h c rfl)⟩
  | lineComment chars => exact ⟨_, '\n', rfl, by decide⟩
  | blockComment chars =>
    exact ⟨"/*".toList ++ chars ++ ['*'], '/', by simp [Trivia.text], by decide⟩

theorem IsGap.ends {old : List Char} (hg : IsGap old g) : g = [] ∨ PlainEnds g := by
  obtain ⟨ts, htext, hblank⟩ := hg.trivia
  cases ts with
  | nil => exact Or.inl htext
  | cons t ts =>
    obtain ⟨front, t', hconcat⟩ := (List.eq_nil_or_concat (t :: ts)).resolve_left (List.cons_ne_nil t ts)
    rw [List.concat_eq_append] at hconcat
    obtain ⟨c, rest, hfirst, hc⟩ := Trivia.first_plain (t := t) fun c hc => hblank c (by simp [hc])
    obtain ⟨a, d, hlast, hd⟩ := Trivia.last_plain (t := t') fun c hc =>
      hblank c (by rw [hconcat, hc]; simp)
    refine Or.inr ⟨⟨c, rest ++ ts.flatMap Trivia.text, ?_, hc⟩,
      front.flatMap Trivia.text ++ a, d, ?_, hd⟩
    · rw [htext, Gap.text, List.flatMap_cons, hfirst, List.cons_append]
    · rw [htext, Gap.text, hconcat, List.flatMap_append, List.flatMap_singleton, hlast,
        List.append_assoc]

/-- Plain text, followed by a gap. -/
theorem PlainEnds.glue_gap (harr : IsIdentifier arr) (hiv : IsIdentifier iv) (hs : PlainEnds s)
    (hopen : '[' ∉ s) (hg : IsGap (arrayRead arr iv) g) : Glue (arrayRead arr iv) (s ++ g) := by
  have hglue := hs.glue harr hiv (not_infix_of_no_open hopen)
  exact hglue.append (hg.ends.imp_right fun h => h.glue harr hiv hg.free)

theorem isGap_nil (arr iv : List Char) : IsGap (arrayRead arr iv) [] :=
  ⟨⟨[], rfl, by simp⟩, not_infix_of_no_open (by simp)⟩

/-- The first character that is in no identifier. -/
def firstOther (s : List Char) : Option Char := (s.dropWhile isIdentChar).head?

theorem firstOther_append (hc : isIdentChar c = false) (hcd : c ≠ d) (hs : firstOther s ≠ some d) :
    firstOther (s ++ c :: t) ≠ some d := by
  rw [firstOther, List.dropWhile_append]
  split
  next =>
    rw [List.dropWhile_cons_of_neg (by simp [hc])]
    simpa using hcd
  next hne =>
    rw [firstOther] at hs
    obtain ⟨x, rest, hx⟩ := List.exists_cons_of_ne_nil (l := s.dropWhile isIdentChar)
      (by simpa using hne)
    rw [hx] at hs ⊢
    exact hs

theorem firstOther_ident (h : ∀ c ∈ s, isIdentChar c = true) : firstOther s = none := by
  rw [firstOther, List.dropWhile_eq_nil_iff.mpr h]
  rfl

/-- Text that follows an opening bracket of its own: neither does it close another one right after
an identifier, nor does it leave one open before an identifier. -/
structure Closed (s : List Char) : Prop where
  start : firstOther s ≠ some ']'
  stop : firstOther s.reverse ≠ some '['

theorem PlainEnds.before (hg : PlainEnds g) (hs : Closed s) : Closed (g ++ s) := by
  obtain ⟨c, rest, hfirst, hc⟩ := hg.first
  obtain ⟨front, d, hlast, hd⟩ := hg.last
  obtain ⟨hident, -, hclose⟩ := isPlain_iff.mp hc
  obtain ⟨hident', hopen, -⟩ := isPlain_iff.mp hd
  refine ⟨?_, ?_⟩
  · rw [hfirst]
    exact firstOther_append (s := []) hident hclose (by simp [firstOther])
  · rw [hlast, List.append_assoc, List.reverse_append, List.reverse_append, List.reverse_singleton,
      List.append_assoc]
    exact firstOther_append hident' hopen hs.stop

theorem closed_reverse_cons (hd : isPlain d = true) : firstOther (d :: t) ≠ some '[' := by
  obtain ⟨hident, hopen, -⟩ := isPlain_iff.mp hd
  exact firstOther_append (s := []) hident hopen (by simp [firstOther])

theorem PlainEnds.after (hg : PlainEnds g) (hs : Closed s) : Closed (s ++ g) := by
  obtain ⟨c, rest, hfirst, hc⟩ := hg.first
  obtain ⟨front, d, hlast, hd⟩ := hg.last
  obtain ⟨hident, -, hclose⟩ := isPlain_iff.mp hc
  refine ⟨?_, ?_⟩
  · rw [hfirst]
    exact firstOther_append hident hclose hs.start
  · rw [hlast, ← List.append_assoc, List.reverse_append, List.reverse_singleton]
    exact closed_reverse_cons hd

theorem PlainEnds.amid (hg : PlainEnds g) (hs : Closed s) (ht : Closed t) :
    Closed (s ++ (g ++ t)) := by
  obtain ⟨c, rest, hfirst, hc⟩ := hg.first
  obtain ⟨hident, -, hclose⟩ := isPlain_iff.mp hc
  refine ⟨?_, ?_⟩
  · rw [hfirst]
    exact firstOther_append hident hclose hs.start
  · have hstop := (hg.before ht).stop
    obtain ⟨front, d, hlast, hd⟩ := hg.last
    obtain ⟨hident', hopen, -⟩ := isPlain_iff.mp hd
    rw [hlast]
    simp only [List.reverse_append, List.append_assoc, List.reverse_singleton]
    exact firstOther_append hident' hopen ht.stop

theorem closed_ident (h : ∀ c ∈ s, isIdentChar c = true) : Closed s := by
  refine ⟨?_, ?_⟩
  · rw [firstOther_ident h]
    simp
  · rw [firstOther_ident fun c hc => h c (List.mem_reverse.mp hc)]
    simp

theorem plainEnds_single (h : isPlain c = true) : PlainEnds [c] :=
  plainEnds_of_all (List.cons_ne_nil c []) (by simpa using h)

theorem no_open_of_all (h : s.all isPlain = true) : '[' ∉ s := by
  intro hmem
  exact (isPlain_iff.mp (List.all_eq_true.mp h _ hmem)).2.1 rfl

theorem operatorText_plain (op : BinOp) :
    operatorText op ≠ [] ∧ (operatorText op).all isPlain = true := by
  cases op <;> exact ⟨List.cons_ne_nil _ _, rfl⟩

theorem Before.ends {node : Expr → Expr} {op : List Char} (h : Before node op) :
    PlainEnds op ∧ '[' ∉ op := by
  cases h with
  | cast hname =>
    rename_i name
    exact ⟨⟨⟨'(', name ++ [')'], rfl, rfl⟩, '(' :: name, ')', rfl, rfl⟩, by simpa using hname⟩
  | _ => exact ⟨plainEnds_of_all (List.cons_ne_nil _ _) rfl, no_open_of_all rfl⟩

theorem Between.ends {node : Expr → Expr → Expr} {op : List Char} (h : Between node op) :
    PlainEnds op ∧ '[' ∉ op := by
  have hplain : op ≠ [] ∧ op.all isPlain = true := by
    cases h with
    | binary => exact operatorText_plain _
    | assign => exact ⟨List.cons_ne_nil _ _, rfl⟩
    | compound =>
      rename_i o
      refine ⟨by simp, ?_⟩
      rw [List.all_append, (operatorText_plain o).2]
      rfl
  exact ⟨plainEnds_of_all hplain.1 hplain.2, no_open_of_all hplain.2⟩

theorem After.ends {node : Expr → Expr} {op : List Char} (h : After node op) :
    PlainEnds op ∧ '[' ∉ op := by
  cases h <;> exact ⟨plainEnds_of_all (List.cons_ne_nil _ _) rfl, no_open_of_all rfl⟩

theorem memberOp_ends {op : List Char} (h : op = ['.'] ∨ op = ['-', '>']) :
    PlainEnds op ∧ '[' ∉ op := by
  obtain rfl | rfl := h <;>
    exact ⟨plainEnds_of_all (List.cons_ne_nil _ _) rfl, no_open_of_all rfl⟩

theorem isIdentChar_of_isDigit (h : c.isDigit = true) : isIdentChar c = true := by
  simp [isIdentChar, Char.isAlphanum, h]

theorem kindSuffix_ident (kind : IntKind) : ∀ c ∈ kindSuffix kind, isIdentChar c = true := by
  rw [← List.all_eq_true]
  cases kind <;> rfl

theorem closed_gap {old : List Char} (hs : Closed s) (hg : IsGap old g) : Closed (s ++ g) := by
  obtain rfl | hg := hg.ends
  · rwa [List.append_nil]
  · exact hg.after hs

/-- Square brackets are closed in the order in which they are opened. -/
theorem Written.closed {l : Level} {x : Expr} (h : Written arr iv tight l x s) : Closed s := by
  induction h with
  | varRef hname hg => exact closed_gap (closed_ident hname.chars) hg
  | @intVal kind digits g hne hdigits hg =>
    refine closed_gap (closed_ident fun c hc => ?_) hg
    obtain hc | hc := List.mem_append.mp hc
    · exact isIdentChar_of_isDigit (hdigits c hc)
    · exact kindSuffix_ident kind c hc
  | paren he hg hg' ih =>
    have hopen := (plainEnds_single (c := '(') (by decide)).append hg.ends
    have hclose := (plainEnds_single (c := ')') (by decide)).append hg'.ends
    exact hopen.before (hclose.after ih)
  | @arrRef b i s t g g' hb hi hg hg' hread ihb ihi =>
    refine ⟨firstOther_append (by decide) (by decide) ihb.start, ?_⟩
    rw [List.reverse_append]
    obtain rfl | hends := hg'.ends
    · simp only [List.reverse_cons, List.reverse_append, List.reverse_nil, List.nil_append,
        List.append_assoc, List.singleton_append]
      exact firstOther_append (s := []) (by decide) (by decide) (by simp [firstOther])
    · obtain ⟨front, d, rfl, hd⟩ := hends.last
      simp only [List.reverse_cons, List.reverse_append, List.append_assoc, List.reverse_nil,
        List.nil_append, List.cons_append]
      exact closed_reverse_cons hd
  | member he hop hf hg hg' ih =>
    have hends := (memberOp_ends hop).1.append hg.ends
    exact hends.amid ih (closed_gap (closed_ident hf.chars) hg')
  | @call callee args f t g g' g'' hcallee hf hargs hg hg' hg'' ih =>
    have hopen := (plainEnds_single (c := '(') (by decide)).append hg'.ends
    have hends : PlainEnds (g ++ (['('] ++ g')) := by
      obtain rfl | hgends := hg.ends
      · exact hopen
      · exact hgends.append (Or.inr hopen)
    have hclose := (plainEnds_single (c := ')') (by decide)).append hg''.ends
    exact hends.amid (closed_ident hf.chars) (hclose.after ih)
  | after hnode he hg ih => exact (hnode.ends.1.append hg.ends).after ih
  | primary he ih => exact ih
  | before hnode he hg ih => exact (hnode.ends.1.append hg.ends).before ih
  | between hnode ha hb hg iha ihb => exact (hnode.ends.1.append hg.ends).amid iha ihb
  | cond hc ha hb hg hg' ihc iha ihb =>
    have htest := (plainEnds_single (c := '?') (by decide)).append hg.ends
    have helse := (plainEnds_single (c := ':') (by decide)).append hg'.ends
    exact htest.amid ihc (helse.amid iha ihb)
  | noArguments => exact closed_ident (by simp)
  | lastArgument he ih => exact ih
  | moreArguments he hes hg ihe ihes =>
    exact ((plainEnds_single (c := ',') (by decide)).append hg.ends).amid ihe ihes

theorem no_open_of_ident (h : ∀ c ∈ s, isIdentChar c = true) : '[' ∉ s :=
  fun hmem => absurd (h _ hmem) (by decide)

theorem no_close_of_ident (h : ∀ c ∈ s, isIdentChar c = true) : ']' ∉ s :=
  fun hmem => absurd (h _ hmem) (by decide)

theorem firstOther_ident_append (hs : ∀ c ∈ s, isIdentChar c = true) (hc : isIdentChar c = false) :
    firstOther (s ++ c :: t) = some c := by
  rw [firstOther, List.dropWhile_append_of_pos hs, List.dropWhile_cons_of_neg (by simp [hc])]
  rfl

theorem split_at_only (hs : c ∉ s) (hu : c ∉ u) (h : s ++ c :: u = w ++ c :: t) :
    s = w ∧ u = t := by
  obtain ⟨a, rfl, ha⟩ | ⟨a, rfl, ha⟩ := List.append_eq_append_iff.mp h
  · cases a with
    | nil => exact ⟨(List.append_nil s).symm, (List.cons.inj ha).2⟩
    | cons d a => exact absurd (by rw [(List.cons.inj ha).2]; simp) hu
  · cases a with
    | nil => exact ⟨List.append_nil w, (List.cons.inj ha).2.symm⟩
    | cons d a => exact absurd (by rw [← (List.cons.inj ha).1]; simp) hs

theorem arrayRead_ne (arr iv : List Char) : arrayRead arr iv ≠ [] := by simp [arrayRead]

theorem arrayRead_head (harr : IsIdentifier arr) (hc : isIdentChar c = false) :
    (arrayRead arr iv).head? ≠ some c := by
  obtain ⟨d, rest, rfl⟩ := List.exists_cons_of_ne_nil harr.ne
  intro hhead
  obtain rfl : d = c := by simpa [arrayRead] using hhead
  rw [harr.chars d List.mem_cons_self] at hc
  cases hc

theorem arrayRead_split (harr : IsIdentifier arr) (hiv : IsIdentifier iv)
    (h : arrayRead arr iv = u ++ '[' :: t) : u = arr ∧ t = iv ++ [']'] := by
  have hinside : '[' ∉ iv ++ [']'] := by simpa using no_open_of_ident hiv.chars
  obtain ⟨rfl, rfl⟩ := split_at_only (no_open_of_ident harr.chars) hinside h
  exact ⟨rfl, rfl⟩

theorem arrayRead_split_close (harr : IsIdentifier arr) (hiv : IsIdentifier iv)
    (h : arrayRead arr iv = u ++ ']' :: t) : u = arr ++ '[' :: iv := by
  have hfront : ']' ∉ arr ++ '[' :: iv := by
    simpa using ⟨no_close_of_ident harr.chars, no_close_of_ident hiv.chars⟩
  have heq : (arr ++ '[' :: iv) ++ ']' :: [] = u ++ ']' :: t := by
    rw [← h]
    simp [arrayRead]
  exact (split_at_only hfront (by simp) heq).1.symm

theorem arrayRead_unbordered (harr : IsIdentifier arr) (hiv : IsIdentifier iv) :
    Unbordered (arrayRead arr iv) := by
  intro u hpre hsuf
  obtain ⟨r, hr⟩ := hpre
  obtain ⟨w, hw⟩ := hsuf
  obtain rfl | ⟨front, c, hu⟩ := List.eq_nil_or_concat u
  · exact Or.inl rfl
  · rw [List.concat_eq_append] at hu
    have hlast : (w ++ front) ++ [c] = (arr ++ '[' :: iv) ++ [']'] := by
      rw [List.append_assoc, ← hu, hw]
      simp [arrayRead]
    obtain rfl := List.singleton_inj.mp (List.append_inj' hlast rfl).2
    have hfront := arrayRead_split_close harr hiv (u := front) (t := r) (by rw [← hr, hu]; simp)
    refine Or.inr ?_
    rw [hu, hfront]
    simp [arrayRead]

/-- What stands before and after an opening bracket is rewritten apart unless `arr[iv]` is around
it. -/
theorem noCross_open (harr : IsIdentifier arr) (hiv : IsIdentifier iv)
    (hg : IsGap (arrayRead arr iv) g) (ht : Closed t)
    (h : ∀ w, s = w ++ arr → g = [] → t ≠ iv) (r : List Char) :
    NoCross (arrayRead arr iv) s ('[' :: (g ++ (t ++ ']' :: r))) := by
  intro u v _ hv heq ⟨w, hw⟩ hpre
  obtain ⟨d, v, rfl⟩ := List.exists_cons_of_ne_nil hv
  obtain ⟨rfl, hinner⟩ := List.cons_prefix_cons.mp hpre
  obtain ⟨rfl, rfl⟩ := arrayRead_split harr hiv heq
  have hgap : g = [] := by
    obtain hnil | hends := hg.ends
    · exact hnil
    · obtain ⟨c, rest, rfl, hc⟩ := hends.first
      obtain ⟨e, iv, rfl⟩ := List.exists_cons_of_ne_nil hiv.ne
      obtain ⟨rfl, -⟩ := List.cons_prefix_cons.mp hinner
      have hident := hiv.chars e List.mem_cons_self
      rw [(isPlain_iff.mp hc).1] at hident
      cases hident
  subst hgap
  obtain ⟨q, hq⟩ := hinner
  have hstart := ht.start
  rw [List.nil_append, List.append_assoc, List.singleton_append] at hq
  obtain ⟨a, ha, hrest⟩ | ⟨a, ha, hrest⟩ := List.append_eq_append_iff.mp hq
  · cases a with
    | nil => exact h w hw.symm rfl (by rw [ha, List.append_nil])
    | cons e a =>
      obtain ⟨rfl, -⟩ := List.cons.inj hrest
      rw [ha, firstOther_ident_append hiv.chars (by decide)] at hstart
      exact hstart rfl
  · cases a with
    | nil => exact h w hw.symm rfl (by rw [ha, List.append_nil])
    | cons e a =>
      obtain ⟨rfl, -⟩ := List.cons.inj hrest
      exact no_close_of_ident hiv.chars (by rw [ha]; simp)

theorem noCross_close (harr : IsIdentifier arr) (hiv : IsIdentifier iv) (ht : Closed t)
    (r : List Char) : NoCross (arrayRead arr iv) t (']' :: r) := by
  intro u v _ hv heq ⟨w, hw⟩ hpre
  obtain ⟨d, v, rfl⟩ := List.exists_cons_of_ne_nil hv
  obtain ⟨rfl, -⟩ := List.cons_prefix_cons.mp hpre
  have hstop := ht.stop
  rw [← hw, arrayRead_split_close harr hiv heq] at hstop
  simp only [List.reverse_append, List.reverse_cons, List.append_assoc, List.cons_append] at hstop
  rw [firstOther_ident_append (fun c hc => hiv.chars c (List.mem_reverse.mp hc)) (by decide)] at hstop
  exact hstop rfl

theorem IsIdentifier.no_plain (hs : IsIdentifier s) (hc : c ∈ s) (hplain : isPlain c = true) :
    False := by
  have := (isPlain_iff.mp hplain).1
  rw [hs.chars c hc] at this
  cases this

theorem PlainEnds.mem (hg : PlainEnds g) : ∃ c ∈ g, isPlain c = true := by
  obtain ⟨c, rest, rfl, hc⟩ := hg.first
  exact ⟨c, List.mem_cons_self, hc⟩

/-- An expression written as one identifier is a variable. -/
theorem Written.eq_varRef {l : Level} {x : Expr} (h : Written arr iv tight l x s) (hl : l ≠ .arguments)
    (hs : IsIdentifier s) : ∃ v, x = .varRef v ∧ v.name.toList = s := by
  have hmark : ∀ {c : Char}, isIdentChar c = false → c ∉ s := by
    intro c hc hmem
    rw [hs.chars c hmem] at hc
    cases hc
  have hends : ∀ {op : List Char}, PlainEnds op → ¬∀ c ∈ op, c ∈ s := by
    intro op hop hsub
    obtain ⟨c, hc, hplain⟩ := hop.mem
    exact hs.no_plain (hsub c hc) hplain
  induction h with
  | @varRef v g hname hg =>
    obtain rfl | hg := hg.ends
    · exact ⟨v, rfl, (List.append_nil _).symm⟩
    · exact absurd (fun c hc => List.mem_append_right _ hc) (hends hg)
  | @intVal kind digits g hne hdigits hg =>
    obtain ⟨c, rest, rfl⟩ := List.exists_cons_of_ne_nil hne
    have hstart := hs.start c rfl
    rw [hdigits c List.mem_cons_self] at hstart
    cases hstart
  | paren => exact absurd (by simp) (hmark (c := '(') (by decide))
  | arrRef => exact absurd (by simp) (hmark (c := '[') (by decide))
  | member he hop hf hg hg' =>
    exact absurd (fun c hc => by simp [hc]) (hends (memberOp_ends hop).1)
  | call => exact absurd (by simp) (hmark (c := '(') (by decide))
  | after hnode => exact absurd (fun c hc => by simp [hc]) (hends hnode.ends.1)
  | primary he ih => exact ih (by simp) hs hmark hends
  | before hnode => exact absurd (fun c hc => by simp [hc]) (hends hnode.ends.1)
  | between hnode => exact absurd (fun c hc => by simp [hc]) (hends hnode.ends.1)
  | cond => exact absurd (by simp) (hmark (c := '?') (by decide))
  | noArguments => exact absurd rfl hl
  | lastArgument => exact absurd rfl hl
  | moreArguments => exact absurd rfl hl

theorem IsIdentifier.last (h : IsIdentifier s) :
    ∃ front c, s = front ++ [c] ∧ isIdentChar c = true :=
  ⟨s.dropLast, s.getLast h.ne, (List.dropLast_append_getLast h.ne).symm,
    h.chars _ (List.getLast_mem h.ne)⟩

theorem ident_end (harr : IsIdentifier arr) (hd : isIdentChar d = false) : t ++ [d] ≠ w ++ arr := by
  intro heq
  obtain ⟨front, c, rfl, hc⟩ := harr.last
  rw [← List.append_assoc] at heq
  obtain rfl := List.singleton_inj.mp (List.append_inj' heq rfl).2
  rw [hc] at hd
  cases hd

theorem plain_end (harr : IsIdentifier arr) (hg : PlainEnds g) : t ++ g ≠ w ++ arr := by
  obtain ⟨front, d, rfl, hd⟩ := hg.last
  rw [← List.append_assoc]
  exact ident_end harr (isPlain_iff.mp hd).1

theorem word_start (hs : ∀ c ∈ s, isIdentChar c = true) (h : s = w ++ arr)
    (hword : endsInWord isIdentChar false w = false) : w = [] := by
  obtain rfl | ⟨front, c, hw⟩ := List.eq_nil_or_concat w
  · rfl
  · rw [List.concat_eq_append] at hw
    subst hw
    rw [endsInWord, List.getLast?_concat, Option.map_some, Option.getD_some] at hword
    rw [hs c (by rw [h]; simp)] at hword
    cases hword

/-- An operand of a subscript that ends in the name is the name. -/
theorem Written.base_varRef {b : Expr} (harr : IsIdentifier arr)
    (h : Written arr iv tight .primary b s) (hs : s = w ++ arr)
    (hword : endsInWord isIdentChar false w = false)
    (hmember : ¬AfterMember (arrayRead arr iv) w) : ∃ v, b = .varRef v ∧ v.name.toList = arr := by
  cases h with
  | @varRef v g hname hg =>
    obtain rfl | hg := hg.ends
    · rw [List.append_nil] at hs
      obtain rfl := word_start hname.chars hs hword
      exact ⟨v, rfl, hs⟩
    · exact absurd hs (plain_end harr hg)
  | @intVal kind digits g hne hdigits hg =>
    obtain rfl | hg := hg.ends
    · have hident : ∀ c ∈ digits ++ kindSuffix kind, isIdentChar c = true := by
        intro c hc
        obtain hc | hc := List.mem_append.mp hc
        · exact isIdentChar_of_isDigit (hdigits c hc)
        · exact kindSuffix_ident kind c hc
      rw [List.append_nil] at hs
      obtain rfl := word_start hident hs hword
      obtain ⟨c, rest, rfl⟩ := List.exists_cons_of_ne_nil hne
      have hstart := harr.start c (by rw [← List.nil_append arr, ← hs]; rfl)
      rw [hdigits c List.mem_cons_self] at hstart
      cases hstart
    · exact absurd hs (plain_end harr hg)
  | paren he hg hg' =>
    rw [← List.append_assoc] at hs
    exact absurd hs (plain_end harr ((plainEnds_single (by decide)).append hg'.ends))
  | @arrRef b i s t g g' hb hi hg hg' hread =>
    obtain rfl | hends := hg'.ends
    · have hs : (s ++ '[' :: (g ++ t)) ++ [']'] = w ++ arr := by rw [← hs]; simp
      exact absurd hs (ident_end harr (by decide))
    · have hs : (s ++ '[' :: (g ++ (t ++ [']']))) ++ g' = w ++ arr := by rw [← hs]; simp
      exact absurd hs (plain_end harr hends)
  | @member e f s op g g' he hop hf hg hg' =>
    obtain rfl | hends := hg'.ends
    · have hs : (s ++ (op ++ g)) ++ f.toList = w ++ arr := by rw [← hs]; simp
      obtain ⟨a, ha, hf'⟩ | ⟨a, ha, hf'⟩ := List.append_eq_append_iff.mp hs
      · obtain rfl | hne := eq_or_ne a []
        · rw [List.append_nil] at ha
          exact absurd ⟨s, op, g, ha, hop, hg⟩ hmember
        · rw [ha, endsInWord, List.getLast?_append_of_ne_nil _ hne] at hword
          exact absurd (word_start hf.chars hf' hword) hne
      · obtain rfl | hne := eq_or_ne a []
        · rw [List.append_nil] at ha
          exact absurd ⟨s, op, g, ha.symm, hop, hg⟩ hmember
        · obtain ⟨c, rest, rfl⟩ := List.exists_cons_of_ne_nil hne
          have hfront : IsIdentifier (c :: rest) :=
            ⟨fun d hd => harr.start d (by rw [hf']; exact hd),
              fun d hd => harr.chars d (by rw [hf']; exact List.mem_append_left _ hd), hne⟩
          exact absurd ha (plain_end hfront ((memberOp_ends hop).1.append hg.ends))
    · have hs : (s ++ ((op ++ g) ++ f.toList)) ++ g' = w ++ arr := by rw [← hs]; simp
      exact absurd hs (plain_end harr hends)
  | @call callee args f t g g' g'' hcallee hf hargs hg hg' hg'' =>
    have hs : (f ++ ((g ++ (['('] ++ g')) ++ t)) ++ ([')'] ++ g'') = w ++ arr := by rw [← hs]; simp
    exact absurd hs (plain_end harr ((plainEnds_single (by decide)).append hg''.ends))
  | after hnode he hg => exact absurd hs (plain_end harr (hnode.ends.1.append hg.ends))

theorem CleanOccurrences.part (h : CleanOccurrences arr iv (s ++ (t ++ u))) :
    CleanOccurrences arr iv t := by
  refine ⟨fun w r heq => ?_, fun w r heq hmember => ?_⟩
  · have hword := h.words (s ++ w) (r ++ u) (by rw [heq]; simp)
    obtain rfl | hne := eq_or_ne w []
    · rfl
    · rwa [endsInWord, List.getLast?_append_of_ne_nil _ hne] at hword
  · obtain ⟨a, op, g, rfl, hop, hg⟩ := hmember
    exact h.members (s ++ (a ++ (op ++ g))) (r ++ u) (by rw [heq]; simp)
      ⟨s ++ a, op, g, by simp, hop, hg⟩

theorem CleanOccurrences.left (h : CleanOccurrences arr iv (s ++ t)) : CleanOccurrences arr iv s :=
  CleanOccurrences.part (s := []) h

theorem CleanOccurrences.right (h : CleanOccurrences arr iv (s ++ t)) :
    CleanOccurrences arr iv t :=
  CleanOccurrences.part (u := []) (by rwa [List.append_nil])

theorem CleanOccurrences.arrRef_index
    (h : CleanOccurrences arr iv (s ++ '[' :: (g ++ (t ++ ']' :: u)))) :
    CleanOccurrences arr iv t := by
  refine CleanOccurrences.part (s := s ++ '[' :: g) (u := ']' :: u) ?_
  simpa using h

theorem Before.contract {node : Expr → Expr} {op : List Char} (h : Before node op) (e x : Expr) :
    LoopFusion.contract arr iv e (node x) = node (LoopFusion.contract arr iv e x) := by
  cases h <;> rfl

theorem Between.contract {node : Expr → Expr → Expr} {op : List Char} (h : Between node op)
    (e a b : Expr) : LoopFusion.contract arr iv e (node a b) =
      node (LoopFusion.contract arr iv e a) (LoopFusion.contract arr iv e b) := by
  cases h <;> rfl

theorem After.contract {node : Expr → Expr} {op : List Char} (h : After node op) (e x : Expr) :
    LoopFusion.contract arr iv e (node x) = node (LoopFusion.contract arr iv e x) := by
  cases h <;> rfl

theorem replaceAll_ident {new : List Char} (h : ∀ c ∈ s, isIdentChar c = true) :
    replaceAll (arrayRead arr iv) new s = s :=
  replaceAll_of_free (not_infix_of_no_open (no_open_of_ident h))

theorem replaceAll_gap {new : List Char} (harr : IsIdentifier arr) (hiv : IsIdentifier iv)
    (hg : IsGap (arrayRead arr iv) g) (s : List Char) :
    replaceAll (arrayRead arr iv) new (s ++ g) = replaceAll (arrayRead arr iv) new s ++ g := by
  obtain rfl | hends := hg.ends
  · rw [List.append_nil, List.append_nil]
  · exact replaceAll_glue_last (hends.glue harr hiv hg.free) s

theorem replaceAll_gap_first {new : List Char} (harr : IsIdentifier arr) (hiv : IsIdentifier iv)
    (hg : IsGap (arrayRead arr iv) g) (s : List Char) :
    replaceAll (arrayRead arr iv) new (g ++ s) = g ++ replaceAll (arrayRead arr iv) new s := by
  obtain rfl | hends := hg.ends
  · rfl
  · exact replaceAll_glue_first (hends.glue harr hiv hg.free) s

theorem isArrayRead_varRefs {v w : Var} (hv : v.name.toList = arr) (hw : w.name.toList = iv) :
    isArrayRead arr iv (.arrRef (.varRef v) (.varRef w)) = true := by
  simp [isArrayRead, hv, hw]

/-- Rewriting the text of an expression gives a text of the rewritten expression. -/
theorem Written.contract {l : Level} {x e : Expr} {rhs : List Char} (harr : IsIdentifier arr)
    (hiv : IsIdentifier iv) (he : Written arr iv false .full e rhs) (h : Written arr iv true l x s)
    (hclean : CleanOccurrences arr iv s) : Written arr iv false l (LoopFusion.contract arr iv e x)
      (replaceAll (arrayRead arr iv) ('(' :: (rhs ++ [')'])) s) := by
  induction h with
  | varRef hname hg =>
    rw [replaceAll_gap harr hiv hg, replaceAll_ident hname.chars]
    exact .varRef hname hg
  | @intVal kind digits g hne hdigits hg =>
    have hident : ∀ c ∈ digits ++ kindSuffix kind, isIdentChar c = true := by
      intro c hc
      obtain hc | hc := List.mem_append.mp hc
      · exact isIdentChar_of_isDigit (hdigits c hc)
      · exact kindSuffix_ident kind c hc
    rw [replaceAll_gap harr hiv hg, replaceAll_ident hident]
    exact .intVal hne hdigits hg
  | paren hx hg hg' ih =>
    have hopen := (plainEnds_single (c := '(') (by decide)).glue_gap harr hiv (by decide) hg
    have hclose := (plainEnds_single (c := ')') (by decide)).glue_gap harr hiv (by decide) hg'
    rw [replaceAll_glue_first hopen, replaceAll_glue_last hclose]
    exact .paren (ih hclean.part) hg hg'
  | @arrRef b i s t g g' hb hi hg hg' hread ihb ihi =>
    by_cases hcase : isArrayRead arr iv (.arrRef b i) = true
    · obtain ⟨rfl, rfl, rfl⟩ := hread rfl hcase
      have htext : s ++ '[' :: ([] ++ (t ++ ']' :: g')) = arrayRead s t ++ g' := by
        simp [arrayRead]
      rw [htext, replaceAll_occurrence (arrayRead_ne s t), replaceAll_of_free hg'.free,
        LoopFusion.contract, if_pos hcase]
      have hparen := Written.paren he (isGap_nil s t) hg'
      simpa using hparen
    · have hstart : ∀ w, s = w ++ arr → g = [] → t ≠ iv := by
        intro w hs hgap ht
        subst hs hgap ht
        have htext : w ++ arr ++ '[' :: ([] ++ (t ++ ']' :: g')) = w ++ (arrayRead arr t ++ g') := by
          simp [arrayRead]
        obtain ⟨v, rfl, hv⟩ := hb.base_varRef harr rfl (hclean.words w g' htext)
          (hclean.members w g' htext)
        obtain ⟨u, rfl, hu⟩ := hi.eq_varRef (by simp) hiv
        exact hcase (isArrayRead_varRefs hv hu)
      rw [replaceAll_append (noCross_open harr hiv hg hi.closed hstart g'),
        replaceAll_cons (arrayRead_ne arr iv) (arrayRead_head harr (by decide)),
        replaceAll_gap_first harr hiv hg,
        replaceAll_append (noCross_close harr hiv hi.closed g'),
        replaceAll_cons (arrayRead_ne arr iv) (arrayRead_head harr (by decide)),
        replaceAll_of_free hg'.free, LoopFusion.contract, if_neg hcase]
      exact .arrRef (ihb hclean.left) (ihi hclean.arrRef_index) hg hg' (by simp)
  | @member x f s op g g' hx hop hf hg hg' ih =>
    have hends := memberOp_ends hop
    rw [replaceAll_glue (hends.1.glue_gap harr hiv hends.2 hg), replaceAll_gap harr hiv hg',
      replaceAll_ident hf.chars]
    exact .member (ih hclean.left) hop hf hg hg'
  | @call callee args f t g g' g'' hcallee hf hargs hg hg' hg'' ih =>
    have hopen := (plainEnds_single (c := '(') (by decide)).glue_gap harr hiv (by decide) hg'
    have hclose := (plainEnds_single (c := ')') (by decide)).glue_gap harr hiv (by decide) hg''
    have hmid : Glue (arrayRead arr iv) (g ++ (['('] ++ g')) := by
      obtain rfl | hends := hg.ends
      · exact hopen
      · exact (hends.glue harr hiv hg.free).append (Or.inr hopen)
    rw [replaceAll_glue hmid, replaceAll_glue_last hclose, replaceAll_ident hf.chars]
    exact .call hcallee hf (ih hclean.right.part) hg hg' hg''
  | after hnode hx hg ih =>
    have hends := hnode.ends
    rw [replaceAll_glue_last (hends.1.glue_gap harr hiv hends.2 hg), hnode.contract]
    exact .after hnode (ih hclean.left) hg
  | primary hx ih => exact .primary (ih hclean)
  | before hnode hx hg ih =>
    have hends := hnode.ends
    rw [replaceAll_glue_first (hends.1.glue_gap harr hiv hends.2 hg), hnode.contract]
    exact .before hnode (ih hclean.right) hg
  | between hnode ha hb hg iha ihb =>
    have hends := hnode.ends
    rw [replaceAll_glue (hends.1.glue_gap harr hiv hends.2 hg), hnode.contract]
    exact .between hnode (iha hclean.left) (ihb hclean.right.right) hg
  | cond hc ha hb hg hg' ihc iha ihb =>
    have htest := (plainEnds_single (c := '?') (by decide)).glue_gap harr hiv (by decide) hg
    have helse := (plainEnds_single (c := ':') (by decide)).glue_gap harr hiv (by decide) hg'
    rw [replaceAll_glue htest, replaceAll_glue helse]
    have hrest := hclean.right.right
    exact .cond (ihc hclean.left) (iha hrest.left) (ihb hrest.right.right) hg hg'
  | noArguments => exact .noArguments
  | lastArgument hx ih => exact .lastArgument (ih hclean)
  | moreArguments hx hxs hg ihx ihxs =>
    have hcomma := (plainEnds_single (c := ',') (by decide)).glue_gap harr hiv (by decide) hg
    rw [replaceAll_glue hcomma]
    exact .moreArguments (ihx hclean.left) (ihxs hclean.right.right) hg

end

end LoomX.LoopFusion
