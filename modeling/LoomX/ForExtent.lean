import LoomX.ForScan

namespace LoomX

def findForStatementEnd (source : List Char) (forStart : Nat) : Nat :=
  forStart + (splitFor (source.zipIdx.drop forStart)).1.length

/-- A bracket depth that never falls below zero. -/
def clampStep (openChar closeChar : Char) (depth : Nat) (x : Char) : Nat :=
  if x = openChar then depth + 1 else if x = closeChar then depth - 1 else depth

/-- A body that is a block after blanks, with braces that match character by character. -/
def BracedEnd (r : List Char) : Prop :=
  ∃ gap block, r = gap ++ '\x7b' :: (block ++ ['\x7d']) ∧
    (∀ x ∈ gap, isBlankOrNewline x = true) ∧ Balanced '\x7b' '\x7d' block

/-- A body whose one semicolon outside of brackets is its last character. -/
structure SemicolonEnd (r : List Char) : Prop where
  enclosing : Enclosing r 1
  last : ∃ e, r = e ++ [';']
  start : (r.dropWhile isBlankOrReturn).head? ≠ some '\x7b'

/-- The header of a loop is what its first parenthesis encloses. -/
structure Headed (s front header r : List Char) : Prop where
  eq : s = front ++ '(' :: (header ++ ')' :: r)
  first : '(' ∉ front
  header : Balanced '(' ')' header

/-- Read character by character, literals and comments like code, the text is a loop with a header
in parentheses and a body that ends with the text. -/
def EndsWhereRead (s : List Char) : Prop :=
  ∃ front header r, Headed s front header r ∧ (BracedEnd r ∨ SemicolonEnd r)

namespace LoopStatement

/-- Both scanners return the position after the statement. -/
structure EndFound (f : LoopStatement) (before after : List Char) : Prop where
  hoist : findForStatementEnd (before ++ (f.text ++ after)) before.length =
    before.length + f.text.length
  fusion : (LoopFusion.parseLoop (before ++ (f.text ++ after)) before.length).map
    LoopFusion.LoopText.forEnd = some (before.length + f.text.length)

/-- The body is a block, with no comment before its brace. -/
def PlainBlock (f : LoopStatement) : Prop :=
  ∃ lead items close, f.body = .block lead items close ∧ ∀ x ∈ lead.text, isBlankOrNewline x = true

end LoopStatement

section
variable {o c : Char} {s t r u v : List Char} {b q n : Nat} {d : Int}

theorem clampStep_plain {x : Char} (ho : isMark o = true) (hc : isMark c = true)
    (hx : isMark x = false) (n : Nat) : clampStep o c n x = n := by
  have hxo : x ≠ o := fun h => by rw [h, ho] at hx; cases hx
  have hxc : x ≠ c := fun h => by rw [h, hc] at hx; cases hx
  rw [clampStep, if_neg hxo, if_neg hxc]

theorem clamp_plain (ho : isMark o = true) (hc : isMark c = true) (h : ∀ x ∈ s, isMark x = false) :
    s.foldl (clampStep o c) n = n := by
  induction s with
  | nil => rfl
  | cons x s ih =>
    obtain ⟨hx, hs⟩ := List.forall_mem_cons.mp h
    rw [List.foldl_cons, clampStep_plain ho hc hx, ih hs]

theorem step_le_clampStep (o c : Char) (n : Nat) (x : Char) :
    (n : Int) + bracketStep o c 0 x ≤ clampStep o c n x := by
  unfold clampStep bracketStep
  split_ifs <;> omega

theorem depth_le_clamp (o c : Char) (n : Nat) (s : List Char) :
    (n : Int) + depthOf o c s ≤ s.foldl (clampStep o c) n := by
  induction s generalizing n with
  | nil => simp [depthOf]
  | cons x s ih =>
    have hstep := step_le_clampStep o c n x
    have hrest := ih (clampStep o c n x)
    rw [List.foldl_cons, depthOf_cons]
    omega

/-- A clamped depth that is the true one at the end was never clamped. -/
theorem nonneg_of_clamp (h : ((s.foldl (clampStep o c) n : Nat) : Int) = n + depthOf o c s) :
    ∀ p, p <+: s → 0 ≤ (n : Int) + depthOf o c p := by
  induction s generalizing n with
  | nil =>
    intro p hp
    rw [List.prefix_nil.mp hp]
    simp [depthOf]
  | cons x s ih =>
    rw [List.foldl_cons, depthOf_cons] at h
    have hstep := step_le_clampStep o c n x
    have hrest := depth_le_clamp o c (clampStep o c n x) s
    have heq : (clampStep o c n x : Int) = n + bracketStep o c 0 x := by omega
    intro p hp
    cases p with
    | nil => simp [depthOf]
    | cons y p =>
      obtain ⟨rfl, hprefix⟩ := List.cons_prefix_cons.mp hp
      have hpos := ih (n := clampStep o c n y) (by omega) p hprefix
      rw [depthOf_cons]
      omega

theorem splitAtSemicolon_cons (d : Int) (c : Char) (s : List Char) :
    LoopFusion.splitAtSemicolon d (c :: s) =
      if c = ';' ∧ d = 0 then ([c], s)
      else (c :: (LoopFusion.splitAtSemicolon (nestStep d c) s).1,
        (LoopFusion.splitAtSemicolon (nestStep d c) s).2) := by
  rw [LoopFusion.splitAtSemicolon, nestStep]
  split_ifs <;> simp_all

theorem splitAtSemicolon_append (h : semicolonsAt d s = 0) (t : List Char) :
    LoopFusion.splitAtSemicolon d (s ++ t) =
      (s ++ (LoopFusion.splitAtSemicolon (d + nestDepth s) t).1,
        (LoopFusion.splitAtSemicolon (d + nestDepth s) t).2) := by
  induction s generalizing d with
  | nil => simp [nestDepth, depthOf]
  | cons x s ih =>
    rw [semicolonsAt, Nat.add_eq_zero_iff] at h
    have hno : ¬(x = ';' ∧ d = 0) := fun hx => by simp [if_pos hx] at h
    have hdepth : d + nestDepth (x :: s) = nestStep d x + nestDepth s := by
      rw [nestDepth_cons, nestStep_add d]
      omega
    rw [List.cons_append, splitAtSemicolon_cons, if_neg hno, ih h.2, hdepth, List.cons_append]

theorem splitAtSemicolon_end (ht : t ≠ [])
    (h : (LoopFusion.splitAtSemicolon d (s ++ t)).1.length = s.length) :
    ∃ e, s = e ++ [';'] ∧ semicolonsAt d e = 0 ∧ d + nestDepth e = 0 := by
  induction s generalizing d with
  | nil =>
    obtain ⟨y, t, rfl⟩ := List.exists_cons_of_ne_nil ht
    rw [List.nil_append, splitAtSemicolon_cons] at h
    split at h <;> simp at h
  | cons x s ih =>
    rw [List.cons_append, splitAtSemicolon_cons] at h
    split at h
    next hx =>
      have hs : s = [] := by simpa using h.symm
      exact ⟨[], by simp [hs, hx.1], rfl, by simp [nestDepth, depthOf, hx.2]⟩
    next hx =>
      obtain ⟨e, rfl, he, hd⟩ := ih (by simpa using h)
      refine ⟨x :: e, rfl, by rw [semicolonsAt, if_neg hx, he], ?_⟩
      rw [nestDepth_cons]
      rw [nestStep_add d] at hd
      omega

theorem splitStatement_cons (b q : Nat) (x : Cell) (s : List Cell) :
    splitStatement b q (x :: s) =
      if x.1 = ';' ∧ b = 0 ∧ q = 0 then ([x], s)
      else
        let rest := splitStatement (clampStep '\x7b' '\x7d' b x.1) (clampStep '(' ')' q x.1) s
        (x :: rest.1, rest.2) := by
  rw [splitStatement, clampStep, clampStep]
  split_ifs <;> simp_all

theorem clampStep_eq {x : Char} (h : 0 ≤ (n : Int) + bracketStep o c 0 x) :
    (clampStep o c n x : Int) = n + bracketStep o c 0 x := by
  unfold clampStep bracketStep at *
  split_ifs at * <;> omega

theorem splitStatement_front {e : List Cell} (hsemi : semicolonsAt (b + q : Int) (text e) = 0)
    (hbraces : ∀ p, p <+: text e → 0 ≤ (b : Int) + depthOf '\x7b' '\x7d' p)
    (hparens : ∀ p, p <+: text e → 0 ≤ (q : Int) + depthOf '(' ')' p) (t : List Cell) :
    ∃ b' q' : Nat, (b' : Int) = b + depthOf '\x7b' '\x7d' (text e) ∧
      (q' : Int) = q + depthOf '(' ')' (text e) ∧
      splitStatement b q (e ++ t) =
        (e ++ (splitStatement b' q' t).1, (splitStatement b' q' t).2) := by
  induction e generalizing b q with
  | nil => exact ⟨b, q, by simp [text, depthOf], by simp [text, depthOf], rfl⟩
  | cons x e ih =>
    change semicolonsAt _ (x.1 :: text e) = 0 at hsemi
    change ∀ p, p <+: x.1 :: text e → _ at hbraces hparens
    rw [semicolonsAt, Nat.add_eq_zero_iff] at hsemi
    have hno : ¬(x.1 = ';' ∧ b = 0 ∧ q = 0) := by
      rintro ⟨hx, hb, hq⟩
      simp [hx, hb, hq] at hsemi
    have hfirst : [x.1] <+: x.1 :: text e := ⟨text e, rfl⟩
    have hb := hbraces _ hfirst
    have hq := hparens _ hfirst
    rw [depthOf_cons, depthOf, List.foldl_nil, Int.add_zero] at hb hq
    have hb := clampStep_eq hb
    have hq := clampStep_eq hq
    have hnext : nestStep (b + q : Int) x.1 =
        (clampStep '\x7b' '\x7d' b x.1 : Int) + clampStep '(' ')' q x.1 := by
      rw [nestStep_eq, hb, hq]
      omega
    have hdeeper : ∀ {o c : Char} {m k : Nat}, (k : Int) = m + bracketStep o c 0 x.1 →
        (∀ p, p <+: x.1 :: text e → 0 ≤ (m : Int) + depthOf o c p) →
        ∀ p, p <+: text e → 0 ≤ (k : Int) + depthOf o c p := by
      intro o c m k hk hall p hp
      have := hall (x.1 :: p) (List.cons_prefix_cons.mpr ⟨rfl, hp⟩)
      rw [depthOf_cons] at this
      omega
    obtain ⟨b', q', hb', hq', hsplit⟩ := ih (by rw [← hnext]; exact hsemi.2)
      (hdeeper hb hbraces) (hdeeper hq hparens)
    refine ⟨b', q', ?_, ?_, ?_⟩
    · show (b' : Int) = b + depthOf _ _ (x.1 :: text e)
      rw [depthOf_cons]
      omega
    · show (q' : Int) = q + depthOf _ _ (x.1 :: text e)
      rw [depthOf_cons]
      omega
    · rw [List.cons_append, splitStatement_cons, if_neg hno, hsplit]
      rfl

theorem splitStatement_end {s t : List Cell} (ht : t ≠ [])
    (h : (splitStatement b q (s ++ t)).1.length = s.length) :
    ∃ e x, s = e ++ [x] ∧ x.1 = ';' ∧ (text e).foldl (clampStep '\x7b' '\x7d') b = 0 ∧
      (text e).foldl (clampStep '(' ')') q = 0 := by
  induction s generalizing b q with
  | nil =>
    obtain ⟨y, t, rfl⟩ := List.exists_cons_of_ne_nil ht
    rw [List.nil_append, splitStatement_cons] at h
    split at h <;> simp at h
  | cons x s ih =>
    rw [List.cons_append, splitStatement_cons] at h
    split at h
    next hx =>
      have hs : s = [] := by simpa using h.symm
      exact ⟨[], x, by simp [hs], hx.1, hx.2.1, hx.2.2⟩
    next hx =>
      obtain ⟨e, y, rfl, hy, hb, hq⟩ := ih (by simpa using h)
      exact ⟨x :: e, y, rfl, hy, hb, hq⟩

theorem isBlankOrReturn_of {x : Char} (h : isBlankOrNewline x = true) : isBlankOrReturn x = true := by
  rw [isBlankOrReturn, h, Bool.true_or]

theorem isMark_blank {x : Char} (h : isBlankOrReturn x = true) : isMark x = false := by
  simp only [isBlankOrReturn, isBlankOrNewline, Bool.or_eq_true, beq_iff_eq] at h
  obtain ((rfl | rfl) | rfl) | rfl := h <;> rfl

/-- A body that ends at the first semicolon outside of brackets, without the semicolon. -/
structure SemicolonFront (e : List Char) : Prop where
  nested : Nested e
  semicolons : semicolonsAt 0 e = 0

theorem SemicolonFront.enclosing {e : List Char} (h : SemicolonFront e) : Enclosing (e ++ [';']) 1 := by
  have hfront : Enclosing e 0 := ⟨h.nested, h.semicolons⟩
  have := hfront.append enclosing_semicolon
  rwa [Nat.zero_add] at this

theorem nested_front {e : List Char} (h : Nested (e ++ [';'])) : Nested e := by
  have hfront : ∀ {o c : Char}, ';' ≠ o → ';' ≠ c → Balanced o c (e ++ [';']) → Balanced o c e := by
    intro o c ho hc hb
    refine ⟨?_, fun p hp => hb.nonneg p (hp.trans (List.prefix_append e [';']))⟩
    have hclosed := hb.closed
    rw [depthOf_append, depthOf_other ho hc] at hclosed
    simpa [depthOf] using hclosed
  exact ⟨hfront (by decide) (by decide) h.parens, hfront (by decide) (by decide) h.braces⟩

/-- What follows the blanks of such a body. -/
theorem SemicolonEnd.front {gap : List Char} (h : SemicolonEnd (gap ++ u))
    (hgap : ∀ x ∈ gap, isMark x = false) (hu : u ≠ []) : ∃ e, u = e ++ [';'] ∧ SemicolonFront e := by
  obtain ⟨e, he⟩ := h.last
  obtain ⟨e', x, hconcat⟩ := (List.eq_nil_or_concat u).resolve_left hu
  rw [List.concat_eq_append] at hconcat
  subst hconcat
  rw [← List.append_assoc] at he
  obtain ⟨rfl, hx⟩ := List.append_inj' he rfl
  obtain rfl := List.singleton_inj.mp hx
  have hfilter : (gap ++ (e' ++ [';'])).filter isMark = (e' ++ [';']).filter isMark := by
    rw [List.filter_append, List.filter_eq_nil_iff.mpr fun x hx => by simp [hgap x hx]]
    rfl
  have henc := enclosing_filter.mpr h.enclosing
  rw [hfilter] at henc
  have henc := enclosing_filter.mp henc
  have hnested := nested_front henc.nested
  have hsemi := henc.semicolons
  rw [semicolonsAt_append, hnested.nestDepth] at hsemi
  exact ⟨e', rfl, hnested, by simpa [semicolonsAt] using hsemi⟩

/-- Where both scans end at the last semicolon, no bracket before it is open or closed alone. -/
theorem semicolonFront_of_clamp {e : List Char} (hsemi : semicolonsAt 0 e = 0)
    (hdepth : nestDepth e = 0) (hbraces : e.foldl (clampStep '\x7b' '\x7d') 0 = 0)
    (hparens : e.foldl (clampStep '(' ')') 0 = 0) : SemicolonFront e := by
  have hb := depth_le_clamp '\x7b' '\x7d' 0 e
  have hp := depth_le_clamp '(' ')' 0 e
  rw [hbraces] at hb
  rw [hparens] at hp
  unfold nestDepth at hdepth
  have hbzero : depthOf '\x7b' '\x7d' e = 0 := by omega
  have hpzero : depthOf '(' ')' e = 0 := by omega
  have hbpos := nonneg_of_clamp (s := e) (n := 0) (o := '\x7b') (c := '\x7d')
    (by rw [hbraces, hbzero]; rfl)
  have hppos := nonneg_of_clamp (s := e) (n := 0) (o := '(') (c := ')')
    (by rw [hparens, hpzero]; rfl)
  refine ⟨⟨⟨hpzero, fun p hprefix => ?_⟩, ⟨hbzero, fun p hprefix => ?_⟩⟩, hsemi⟩
  · simpa using hppos p hprefix
  · simpa using hbpos p hprefix

theorem statementLength_front {e t : List Cell} {x : Cell} (h : SemicolonFront (text e))
    (hx : x.1 = ';') : statementLength (e ++ x :: t) = (e ++ [x]).length := by
  obtain ⟨b', q', hb', hq', hsplit⟩ := splitStatement_front (b := 0) (q := 0) (e := e)
    h.semicolons (fun p hp => by simpa using h.nested.braces.nonneg p hp)
    (fun p hp => by simpa using h.nested.parens.nonneg p hp) (x :: t)
  rw [h.nested.braces.closed] at hb'
  rw [h.nested.parens.closed] at hq'
  obtain rfl : b' = 0 := by omega
  obtain rfl : q' = 0 := by omega
  rw [statementLength, hsplit, splitStatement_cons, if_pos ⟨hx, rfl, rfl⟩]

theorem loopStatementLength_front {e t : List Char} (h : SemicolonFront e) :
    LoopFusion.statementLength (e ++ ';' :: t) = (e ++ [';']).length := by
  rw [LoopFusion.statementLength, splitAtSemicolon_append h.semicolons, h.nested.nestDepth,
    splitAtSemicolon_cons, if_pos ⟨rfl, rfl⟩]

theorem isMark_blanks {gap : List Char} (h : ∀ x ∈ gap, isBlankOrReturn x = true) :
    ∀ x ∈ gap, isMark x = false := fun x hx => isMark_blank (h x hx)

theorem text_blanks {gap : List Cell} (h : ∀ x ∈ gap, isBlankOrNewline x.1 = true) :
    ∀ x ∈ text gap, isBlankOrNewline x = true := by
  intro x hx
  obtain ⟨y, hy, rfl⟩ := List.mem_map.mp hx
  exact h y hy

theorem SemicolonEnd.split {α : Type} {char : α → Char} {blank : Char → Bool} {r : List α}
    (h : SemicolonEnd (r.map char)) (hblank : ∀ x, blank x = true → isBlankOrReturn x = true) :
    ∃ gap b body, r = gap ++ b :: body ∧ (∀ x ∈ gap, blank (char x) = true) ∧
      blank (char b) = false ∧ char b ≠ '\x7b' ∧
      ∃ e x, b :: body = e ++ [x] ∧ char x = ';' ∧ SemicolonFront (e.map char) := by
  cases hdrop : r.dropWhile fun x => blank (char x) with
  | nil =>
    obtain ⟨e, he⟩ := h.last
    have hmem : ';' ∈ r.map char := by rw [he]; simp
    obtain ⟨x, hx, hsemi⟩ := List.mem_map.mp hmem
    have hx := hblank _ (List.dropWhile_eq_nil_iff.mp hdrop x hx)
    rw [hsemi] at hx
    exact absurd hx (by decide)
  | cons b body =>
    obtain ⟨heq, hgap, hb⟩ := dropWhile_cons_eq hdrop
    generalize r.takeWhile (fun x => blank (char x)) = gap at heq hgap
    subst heq
    have hgap' : ∀ x ∈ gap.map char, isBlankOrReturn x = true := by
      intro x hx
      obtain ⟨y, hy, rfl⟩ := List.mem_map.mp hx
      exact hblank _ (hgap y hy)
    rw [List.map_append, List.map_cons] at h
    refine ⟨gap, b, body, rfl, hgap, hb, fun hopen => ?_, ?_⟩
    · have hstart := h.start
      rw [hopen, (takeWhile_dropWhile_cons hgap' (by decide)).2] at hstart
      exact hstart rfl
    · obtain ⟨e, he, hfront⟩ := h.front (isMark_blanks hgap') (List.cons_ne_nil _ _)
      rw [← List.map_cons] at he
      obtain ⟨e', last, hbody, rfl, hlast⟩ := List.map_eq_append_iff.mp he
      obtain ⟨x, rfl⟩ := List.length_eq_one_iff.mp (by simpa using congrArg List.length hlast)
      exact ⟨e', x, hbody, by simpa using hlast, hfront⟩

theorem BracedEnd.split {α : Type} {char : α → Char} {blank : Char → Bool} {r : List α}
    (h : BracedEnd (r.map char)) (hblank : ∀ x, isBlankOrNewline x = true → blank x = true) :
    InBraces char blank r := by
  obtain ⟨gap, block, hr, hgap, hblock⟩ := h
  obtain ⟨gap, rest, rfl, rfl, hrest⟩ := List.map_eq_append_iff.mp hr
  obtain ⟨op, rest, rfl, hop, hrest⟩ := List.map_eq_cons_iff.mp hrest
  obtain ⟨block, last, rfl, rfl, hlast⟩ := List.map_eq_append_iff.mp hrest
  obtain ⟨cl, rfl⟩ := List.length_eq_one_iff.mp (by simpa using congrArg List.length hlast)
  refine ⟨gap, op, block, cl, rfl, fun x hx => ?_, hop, by simpa using hlast, hblock⟩
  exact hblank _ (hgap (char x) (List.mem_map_of_mem hx))

theorem cellScan_pos (b : Cell) (body : List Cell) : 0 < statementLength (b :: body) := by
  rw [statementLength, splitStatement_cons]
  split <;> exact Nat.succ_pos _

theorem charScan_pos (b : Char) (body : List Char) : 0 < LoopFusion.statementLength (b :: body) := by
  rw [LoopFusion.statementLength, splitAtSemicolon_cons]
  split <;> exact Nat.succ_pos _

/-- What it means for `findForStatementEnd` to end a body where the text ends. -/
theorem cellBody_end {r t : List Cell} (ht : t ≠ [])
    (h : bodyExtent (fun c : Cell => c.1) isBlankOrNewline statementLength (r ++ t) =
      some r.length) :
    BracedEnd (text r) ∨ ∃ e, text r = e ++ [';'] ∧
      e.foldl (clampStep '\x7b' '\x7d') 0 = 0 ∧ e.foldl (clampStep '(' ')') 0 = 0 := by
  obtain ⟨gap, op, block, cl, rfl, hgap, hop, hcl, hblock⟩ |
    ⟨gap, b, body, rfl, hgap, hb, hopen, hend⟩ := (bodyExtent_iff (by decide) cellScan_pos).mp h
  · refine Or.inl ⟨text gap, text block, ?_, text_blanks hgap, hblock⟩
    rw [← hop, ← hcl]
    simp [text]
  · obtain ⟨e, x, hbody, hx, hbraces, hparens⟩ := splitStatement_end ht hend
    have hplain := isMark_blanks fun x hx => isBlankOrReturn_of (text_blanks hgap x hx)
    refine Or.inr ⟨text gap ++ text e, ?_, ?_, ?_⟩
    · rw [hbody, ← hx]
      simp [text]
    · rw [List.foldl_append, clamp_plain (by decide) (by decide) hplain, hbraces]
    · rw [List.foldl_append, clamp_plain (by decide) (by decide) hplain, hparens]

/-- What it means for `parseLoop` to end a body where the text ends. -/
theorem charBody_end {r t : List Char} (ht : t ≠ [])
    (h : bodyExtent id isBlankOrReturn LoopFusion.statementLength (r ++ t) = some r.length) :
    (∃ e, r = e ++ ['\x7d']) ∨ ∃ e, r = e ++ [';'] ∧ semicolonsAt 0 e = 0 ∧ nestDepth e = 0 ∧
      (r.dropWhile isBlankOrReturn).head? ≠ some '\x7b' := by
  obtain ⟨gap, op, block, cl, rfl, hgap, hop, hcl, hblock⟩ |
    ⟨gap, b, body, rfl, hgap, hb, hopen, hend⟩ := (bodyExtent_iff (by decide) charScan_pos).mp h
  · obtain rfl : cl = '\x7d' := hcl
    exact Or.inl ⟨gap ++ op :: block, by simp⟩
  · obtain ⟨e, hbody, hsemi, hdepth⟩ := splitAtSemicolon_end ht hend
    have hplain := isMark_blanks hgap
    have hgapDepth : nestDepth gap = 0 := (enclosing_plain hplain).nested.nestDepth
    refine Or.inr ⟨gap ++ e, by rw [hbody, List.append_assoc], ?_, ?_, ?_⟩
    · rw [semicolonsAt_append, (enclosing_plain hplain).semicolons, hgapDepth, Int.add_zero, hsemi]
    · rw [nestDepth_append, hgapDepth]
      exact hdepth
    · have hdrop := (takeWhile_dropWhile_cons (p := isBlankOrReturn) (x := b) (u := body) hgap hb).2
      rw [hdrop]
      simpa using hopen

theorem cellBody_of {r t : List Cell} (h : BracedEnd (text r) ∨ SemicolonEnd (text r)) :
    bodyExtent (fun c : Cell => c.1) isBlankOrNewline statementLength (r ++ t) =
      some r.length := by
  rw [bodyExtent_iff (by decide) cellScan_pos]
  obtain h | h := h
  · exact Or.inl (h.split fun x hx => hx)
  · obtain ⟨gap, b, body, hr, hgap, hb, hopen, e, x, hbody, hx, hfront⟩ :=
      h.split fun x hx => isBlankOrReturn_of hx
    refine Or.inr ⟨gap, b, body, hr, hgap, hb, hopen, ?_⟩
    rw [hbody, List.append_assoc]
    exact statementLength_front hfront hx

theorem charBody_of {r t : List Char} (h : BracedEnd r ∨ SemicolonEnd r) :
    bodyExtent id isBlankOrReturn LoopFusion.statementLength (r ++ t) = some r.length := by
  rw [bodyExtent_iff (by decide) charScan_pos]
  rw [← List.map_id r] at h
  obtain h | h := h
  · exact Or.inl (h.split fun x hx => isBlankOrReturn_of hx)
  · obtain ⟨gap, b, body, hr, hgap, hb, hopen, e, x, hbody, hx, hfront⟩ := h.split fun x hx => hx
    refine Or.inr ⟨gap, b, body, hr, hgap, hb, hopen, ?_⟩
    obtain rfl : x = ';' := hx
    rw [List.map_id] at hfront
    rw [hbody, List.append_assoc]
    exact loopStatementLength_front hfront

/-- Both scans end a body where the text ends. -/
theorem bodyEnd_of_scans {r : List Char} (hcell : BracedEnd r ∨ ∃ e, r = e ++ [';'] ∧
      e.foldl (clampStep '\x7b' '\x7d') 0 = 0 ∧ e.foldl (clampStep '(' ')') 0 = 0)
    (hchar : (∃ e, r = e ++ ['\x7d']) ∨ ∃ e, r = e ++ [';'] ∧ semicolonsAt 0 e = 0 ∧
      nestDepth e = 0 ∧ (r.dropWhile isBlankOrReturn).head? ≠ some '\x7b') :
    BracedEnd r ∨ SemicolonEnd r := by
  obtain h | ⟨e, rfl, hbraces, hparens⟩ := hcell
  · exact Or.inl h
  · obtain ⟨e', he⟩ | ⟨e', he, hsemi, hdepth, hstart⟩ := hchar
    · have := (List.append_inj' he rfl).2
      simp at this
    · obtain rfl := (List.append_inj' he rfl).1
      have hfront := semicolonFront_of_clamp hsemi hdepth hbraces hparens
      exact Or.inr ⟨hfront.enclosing, ⟨e, rfl⟩, hstart⟩

theorem takeWhile_first {front rest : List Char} (h : '(' ∉ front) :
    (front ++ '(' :: rest).takeWhile (fun x => decide (x ≠ '(')) = front ∧
      (front ++ '(' :: rest).dropWhile (fun x => decide (x ≠ '(')) = '(' :: rest := by
  refine takeWhile_dropWhile_cons (fun x hx => ?_) (by simp)
  exact decide_eq_true fun heq => h (heq ▸ hx)

theorem Headed.unique {f h r' f' h' : List Char} (h1 : Headed s f h r) (h2 : Headed s f' h' r') :
    f = f' ∧ h = h' ∧ r = r' := by
  have heq := h1.eq.symm.trans h2.eq
  have htake := congrArg (List.takeWhile fun x => decide (x ≠ '(')) heq
  rw [(takeWhile_first h1.first).1, (takeWhile_first h2.first).1] at htake
  subst htake
  have hrest := List.append_cancel_left heq
  have hcut := congrArg (cutAtClose id '(' ')' 1) (List.cons.inj hrest).2
  rw [h1.header.cutAtClose (by decide), h2.header.cutAtClose (by decide)] at hcut
  obtain ⟨hh, hr⟩ := Prod.mk.inj (Option.some.inj hcut)
  exact ⟨rfl, hh, (Prod.mk.inj hr).2⟩

theorem text_zipIdx (s : List Char) (k : Nat) : text (s.zipIdx k) = s := List.zipIdx_map_fst k s

theorem cells_of_source (before s after : List Char) :
    (before ++ (s ++ after)).zipIdx.drop before.length =
      s.zipIdx before.length ++ after.zipIdx (before.length + s.length) := by
  rw [List.zipIdx_append, List.zipIdx_append, Nat.zero_add]
  exact List.drop_left' List.length_zipIdx

theorem findForStatementEnd_iff {before after : List Char} (hafter : after ≠ []) :
    findForStatementEnd (before ++ (s ++ after)) before.length = before.length + s.length ↔
      forExtent (fun c : Cell => c.1) isBlankOrNewline statementLength
        (s.zipIdx before.length ++ after.zipIdx (before.length + s.length)) =
          some (s.zipIdx before.length).length := by
  have hpos := List.length_pos_of_ne_nil hafter
  rw [findForStatementEnd, cells_of_source, splitFor_length, List.length_append,
    List.length_zipIdx, List.length_zipIdx, Nat.add_left_cancel_iff]
  cases forExtent (fun c : Cell => c.1) isBlankOrNewline statementLength
    (s.zipIdx before.length ++ after.zipIdx (before.length + s.length)) with
  | none =>
    simp only [Option.getD_none, reduceCtorEq, iff_false]
    omega
  | some n => simp

theorem parseLoop_iff {before after : List Char} :
    (LoopFusion.parseLoop (before ++ (s ++ after)) before.length).map
        LoopFusion.LoopText.forEnd = some (before.length + s.length) ↔
      forExtent id isBlankOrReturn LoopFusion.statementLength (s ++ after) = some s.length := by
  rw [LoopFusion.parseLoop_forEnd, List.drop_left' rfl, Option.map_eq_some_iff]
  refine ⟨fun ⟨n, hn, heq⟩ => ?_, fun h => ⟨_, h, rfl⟩⟩
  rw [hn, Nat.add_left_cancel heq]

/-- The scanners find the end of a text exactly if it ends where it does read as brackets and
semicolons alone. -/
theorem scanners_iff {before after : List Char} (hafter : after ≠ []) :
    (findForStatementEnd (before ++ (s ++ after)) before.length = before.length + s.length ∧
      (LoopFusion.parseLoop (before ++ (s ++ after)) before.length).map
        LoopFusion.LoopText.forEnd = some (before.length + s.length)) ↔ EndsWhereRead s := by
  rw [findForStatementEnd_iff hafter, parseLoop_iff, forExtent_iff, forExtent_iff]
  have hcells : after.zipIdx (before.length + s.length) ≠ [] := by
    intro hnil
    have := congrArg List.length hnil
    rw [List.length_zipIdx] at this
    exact hafter (List.eq_nil_of_length_eq_zero this)
  refine ⟨fun h => ?_, fun ⟨front, header, r, hs, hend⟩ => ?_⟩
  · obtain ⟨⟨front, op, header, cl, r, hs, hfront, hop, hcl, hheader, hbody⟩,
      front', op', header', cl', r', hs', hfront', hop', hcl', hheader', hbody'⟩ := h
    have hfirst : Headed s (text front) (text header) (text r) := by
      refine ⟨?_, fun hmem => ?_, hheader⟩
      · rw [← text_zipIdx s before.length, hs, ← hop, ← hcl]
        simp [text]
      · obtain ⟨x, hx, heq⟩ := List.mem_map.mp hmem
        exact hfront x hx heq
    have hsecond : Headed s front' header' r' := by
      obtain rfl : op' = '(' := hop'
      obtain rfl : cl' = ')' := hcl'
      rw [List.map_id] at hheader'
      exact ⟨hs', fun hmem => hfront' _ hmem rfl, hheader'⟩
    obtain ⟨-, -, rfl⟩ := hfirst.unique hsecond
    exact ⟨_, _, _, hfirst, bodyEnd_of_scans (cellBody_end hcells hbody) (charBody_end hafter hbody')⟩
  · refine ⟨?_, front, '(', header, ')', r, hs.eq, ?_, rfl, rfl, ?_, charBody_of hend⟩
    · have htext := text_zipIdx s before.length
      rw [hs.eq] at htext
      obtain ⟨front, fromOpen, hcells, rfl, hopen⟩ := List.map_eq_append_iff.mp htext
      obtain ⟨op, inside, rfl, hop, hinside⟩ := List.map_eq_cons_iff.mp hopen
      obtain ⟨header, fromClose, rfl, rfl, hclose⟩ := List.map_eq_append_iff.mp hinside
      obtain ⟨cl, r, rfl, hcl, rfl⟩ := List.map_eq_cons_iff.mp hclose
      rw [← hs.eq] at hcells
      refine ⟨front, op, header, cl, r, hcells, fun x hx heq => ?_, hop, hcl, hs.header,
        cellBody_of hend⟩
      exact hs.first (heq ▸ List.mem_map_of_mem hx)
    · intro x hx heq
      obtain rfl : x = '(' := heq
      exact hs.first hx
    · rw [List.map_id]
      exact hs.header

section
variable {f : LoopStatement}

theorem LoopStatement.text_eq (f : LoopStatement) : f.text = ("for".toList ++ f.gap.text) ++
    '(' :: (textOf f.header.lexemes ++ ')' :: textOf f.body.lexemes) := by
  rw [LoopStatement.text, LoopStatement.lexemes, textOf_append, textOf_append, textOf_word,
    textOf_header]
  simp

theorem LoopStatement.body_neutral (h : f.Neutral) : ∀ l ∈ f.body.lexemes, l.Neutral :=
  fun l hl => h l (List.mem_append_right _ (List.mem_append_right _ hl))

theorem LoopStatement.headed (h : f.Neutral) :
    Headed f.text ("for".toList ++ f.gap.text) (textOf f.header.lexemes)
      (textOf f.body.lexemes) := by
  have hhead : ∀ l ∈ headerLexemes f.gap f.header, l.Neutral :=
    fun l hl => h l (List.mem_append_right _ (List.mem_append_left _ hl))
  have hgap : ∀ l ∈ f.gap.lexemes, l.Neutral := fun l hl => hhead l (List.mem_append_left _ hl)
  have hheader : ∀ l ∈ f.header.lexemes, l.Neutral := fun l hl =>
    hhead l (List.mem_append_right _ (List.mem_cons_of_mem _ (List.mem_append_left _ hl)))
  refine ⟨f.text_eq, fun hmem => ?_, ?_⟩
  · have hmark : '(' ∈ (textOf f.gap.lexemes).filter isMark := by
      rw [Gap.textOf]
      refine List.mem_filter.mpr ⟨?_, rfl⟩
      simpa using hmem
    rw [textOf_filter hgap, Gap.codeOf] at hmark
    cases hmark
  · have hnested : Nested ((codeOf f.header.lexemes).filter isMark) :=
      nested_filter.mpr f.header.nested
    rw [← textOf_filter hheader] at hnested
    exact (nested_filter.mp hnested).parens

theorem LoopStatement.last (f : LoopStatement) : ∃ e, textOf f.body.lexemes =
    e ++ [bif f.body.endsInSemicolon then ';' else '\x7d'] := by
  obtain ⟨front, hfront⟩ := f.body.lexemes_last
  refine ⟨textOf front, ?_⟩
  rw [hfront, textOf_append]
  rfl

theorem lead_eq_gap {lead gap s t : List Char} (hlead : '\x7b' ∉ lead) (hgap : '\x7b' ∉ gap)
    (h : lead ++ '\x7b' :: s = gap ++ '\x7b' :: t) : lead = gap := by
  have hcut : ∀ {u v : List Char}, '\x7b' ∉ u →
      (u ++ '\x7b' :: v).takeWhile (fun x => decide (x ≠ '\x7b')) = u := by
    intro u v hu
    refine (takeWhile_dropWhile_cons (fun x hx => ?_) (by simp)).1
    exact decide_eq_true fun heq => hu (heq ▸ hx)
  rw [← hcut hlead, h, hcut hgap]

/-- The body is taken as a block exactly if it is one, after blanks. -/
theorem LoopStatement.bracedEnd_iff (h : f.Neutral) :
    BracedEnd (textOf f.body.lexemes) ↔ f.PlainBlock := by
  have hbody := LoopStatement.body_neutral h
  refine ⟨fun ⟨gap, block, heq, hgap, hblock⟩ => ?_, fun ⟨lead, items, close, hf, hlead⟩ => ?_⟩
  · by_cases hcase : ∃ lead items close, f.body = .block lead items close
    · obtain ⟨lead, items, close, hf⟩ := hcase
      refine ⟨lead, items, close, hf, ?_⟩
      rw [hf] at heq hbody
      simp only [Statement.lexemes] at heq hbody
      rw [textOf_append, Gap.textOf, textOf_cons] at heq
      have hleadCode : '\x7b' ∉ lead.text := by
        intro hmem
        have hmark : '\x7b' ∈ (textOf lead.lexemes).filter isMark := by
          rw [Gap.textOf]
          exact List.mem_filter.mpr ⟨hmem, rfl⟩
        rw [textOf_filter fun l hl => hbody l (List.mem_append_left _ hl), Gap.codeOf] at hmark
        cases hmark
      have hgapCode : '\x7b' ∉ gap := fun hmem => absurd (hgap _ hmem) (by decide)
      rw [lead_eq_gap hleadCode hgapCode heq]
      exact hgap
    · have hhead := f.body.head_text hbody fun lead items close hf => hcase ⟨lead, items, close, hf⟩
      rw [heq, (takeWhile_dropWhile_cons (fun x hx => isBlankOrReturn_of (hgap x hx))
        (by decide)).2] at hhead
      exact absurd rfl hhead
  · refine ⟨lead.text, textOf (items.lexemes ++ close.lexemes), ?_, hlead, ?_⟩
    · rw [hf]
      simp only [Statement.lexemes]
      rw [textOf_append, Gap.textOf, textOf_cons, textOf_append]
      rfl
    · rw [hf] at hbody
      simp only [Statement.lexemes] at hbody
      have hinner : ∀ l ∈ items.lexemes ++ close.lexemes, l.Neutral := fun l hl =>
        hbody l (List.mem_append_right _ (List.mem_cons_of_mem _ (List.mem_append_left _ hl)))
      have hnested : Nested ((codeOf (items.lexemes ++ close.lexemes)).filter isMark) := by
        rw [codeOf_append]
        exact nested_filter.mpr ((Items.nested items).append (enclosing_gap close).nested)
      rw [← textOf_filter hinner] at hnested
      exact (nested_filter.mp hnested).braces

theorem LoopStatement.semicolonEnd_iff (h : f.Neutral) :
    SemicolonEnd (textOf f.body.lexemes) ↔
      f.body.semicolons = 1 ∧ f.body.endsInSemicolon = true := by
  have hbody := LoopStatement.body_neutral h
  have hcode := enclosing_text hbody f.body.enclosing
  obtain ⟨e, he⟩ := f.last
  refine ⟨fun hend => ⟨?_, ?_⟩, fun ⟨hone, hlast⟩ => ⟨?_, ⟨e, ?_⟩, ?_⟩⟩
  · rw [← hcode.semicolons, hend.enclosing.semicolons]
  · obtain ⟨e', he'⟩ := hend.last
    rw [he] at he'
    have hlast := List.singleton_inj.mp (List.append_inj' he' rfl).2
    cases hs : f.body.endsInSemicolon with
    | true => rfl
    | false => simp [hs] at hlast
  · rw [← hone]
    exact hcode
  · rw [he, hlast]
    rfl
  · refine f.body.head_text hbody fun lead items close hf => ?_
    rw [hf] at hone
    simp [Statement.semicolons] at hone

theorem LoopStatement.endsWhereRead_iff (h : f.Neutral) : EndsWhereRead f.text ↔
    f.PlainBlock ∨ (f.body.semicolons = 1 ∧ f.body.endsInSemicolon = true) := by
  rw [← LoopStatement.bracedEnd_iff h, ← LoopStatement.semicolonEnd_iff h]
  refine ⟨fun ⟨front, header, r, hr, hend⟩ => ?_, fun hend => ⟨_, _, _, LoopStatement.headed h, hend⟩⟩
  obtain ⟨-, -, rfl⟩ := hr.unique (LoopStatement.headed h)
  exact hend

/-- The two scanners return the end of a loop exactly if its brackets and semicolons end there when
they are read with no regard to literals and comments. With none of them in a literal or comment,
the body is a block right after the header, or ends at the only semicolon outside of its blocks. -/
theorem LoopStatement.endFound_iff (f : LoopStatement) (before : List Char) {after : List Char}
    (hafter : after ≠ []) : (f.EndFound before after ↔ EndsWhereRead f.text) ∧
      (f.Neutral → (EndsWhereRead f.text ↔
        f.PlainBlock ∨ (f.body.semicolons = 1 ∧ f.body.endsInSemicolon = true))) := by
  refine ⟨?_, LoopStatement.endsWhereRead_iff⟩
  rw [← scanners_iff hafter]
  exact ⟨fun h => ⟨h.hoist, h.fusion⟩, fun h => ⟨h.1, h.2⟩⟩

end

end

/-- `for(;;) x=1;` -/
def oneAssignment : LoopStatement where
  gap := []
  header := ⟨wordLexemes [';', ';'], by decide⟩
  body := .simple
    ⟨⟨.trivia (.blank ' ') :: wordLexemes ['x', '=', '1'], by decide⟩, by decide, by decide⟩

theorem oneAssignment_endFound : oneAssignment.EndFound [] ['\x7d'] := by
  have hneutral : oneAssignment.Neutral := by
    intro l hl
    have hl : l ∈ wordLexemes "for(;;)".toList ++
        (.trivia (.blank ' ') :: (wordLexemes ['x', '=', '1'] ++ [.code ';'])) := hl
    simp only [wordLexemes, List.mem_append, List.mem_map, List.mem_cons, List.not_mem_nil,
      or_false] at hl
    obtain ⟨c, -, rfl⟩ | rfl | ⟨c, -, rfl⟩ | rfl := hl
    · trivial
    · simp [Lexeme.Neutral, Lexeme.text, Trivia.text, isMark]
    · trivial
    · trivial
  obtain ⟨hfound, hshape⟩ := oneAssignment.endFound_iff []
    (show ['\x7d'] ≠ [] from List.cons_ne_nil _ _)
  exact hfound.mpr ((hshape hneutral).mpr (Or.inr ⟨rfl, rfl⟩))

/-- `for(;;) if(c)x=1;else y=2;` -/
def branchingLoop : LoopStatement where
  gap := []
  header := ⟨wordLexemes [';', ';'], by decide⟩
  body := .ifElse [.blank ' '] [] ⟨wordLexemes ['c'], by decide⟩
    (.simple ⟨⟨wordLexemes ['x', '=', '1'], by decide⟩, by decide, by decide⟩) []
    (.simple
      ⟨⟨.trivia (.blank ' ') :: wordLexemes ['y', '=', '2'], by decide⟩, by decide, by decide⟩)

theorem branchingLoop_cutAtElse : branchingLoop.text = "for(;;) if(c)x=1;else y=2;".toList ∧
    findForStatementEnd (branchingLoop.text ++ ['\x7d']) 0 = 17 ∧
    ¬branchingLoop.EndFound [] ['\x7d'] := by
  have hend : findForStatementEnd (branchingLoop.text ++ ['\x7d']) 0 = 17 := by decide
  refine ⟨by decide, hend, fun h => ?_⟩
  have hlength : branchingLoop.text.length = 26 := by decide
  have hfound : findForStatementEnd (branchingLoop.text ++ ['\x7d']) 0 =
    0 + branchingLoop.text.length := h.hoist
  rw [hend, hlength] at hfound
  exact absurd hfound (by decide)

end LoomX
