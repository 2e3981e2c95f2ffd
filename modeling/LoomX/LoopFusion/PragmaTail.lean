import LoomX.LoopFusion.MapRoundTrip

namespace LoomX.LoopFusion

def mapBaseName (item : List Char) : List Char := item.takeWhile isIdentChar

/-- The character stands only inside of parentheses or square brackets. -/
def Sheltered (sep : Char) (s : List Char) : Prop :=
  ∀ p, p ++ [sep] <+: s → depthOf '(' ')' p ≠ 0 ∨ depthOf '[' ']' p ≠ 0

instance (sep : Char) (s : List Char) : Decidable (Sheltered sep s) :=
  decidable_of_iff (∀ p ∈ s.inits, p ++ [sep] <+: s → depthOf '(' ')' p ≠ 0 ∨ depthOf '[' ']' p ≠ 0)
    ⟨fun h p hp => h p ((List.mem_inits p s).mpr ((List.prefix_append p [sep]).trans hp)) hp,
      fun h p _ => h p⟩

/-- A clause of a pragma: a `map` clause, with what stands before its colon and its items as they
are written, or another clause. -/
inductive Clause
  | map (direction : Option (List Char)) (items : List (List Char))
  | other (text : List Char)

def mapInside (direction : Option (List Char)) (items : List (List Char)) : List Char :=
  match direction with
  | none => List.intercalate [','] items
  | some d => d ++ ':' :: List.intercalate [','] items

namespace Clause

def text : Clause → List Char
  | .map direction items => "map(".toList ++ (mapInside direction items ++ [')'])
  | .other text => text

/-- An item names a variable. Its sections may hold commas and colons. -/
structure ItemText (s : List Char) : Prop where
  enclosed : Enclosed s
  colons : Sheltered ':' s
  base : mapBaseName (normalize s) ≠ []

def WellFormed : Clause → Prop
  | .map direction items =>
    (∀ d ∈ direction, Balanced '(' ')' d ∧ Sheltered ':' d) ∧ items ≠ [] ∧ ∀ s ∈ items, ItemText s
  | .other text => (∃ c rest, text = c :: rest ∧ isSpace c = false) ∧ ¬"map(".toList <+: text

end Clause

/-- A map type is the last word before the colon, after the modifiers. Without one it is
`tofrom`. -/
def mapType : Option (List Char) → List Char
  | none => tofrom
  | some d => ((normalize d).reverse.takeWhile isIdentChar).reverse

/-- The text of the clauses, each after some blanks. -/
def renderTail : List (List Char × Clause) → List Char → List Char
  | [], trailing => trailing
  | (gap, c) :: clauses, trailing => gap ++ (c.text ++ renderTail clauses trailing)

/-- Two clauses with no blank between them are two because a word ends before the second. -/
def Apart (p q : List Char × Clause) : Prop :=
  q.1 = [] → ∀ c, p.2.text.getLast? = some c → isIdentChar c = false

structure TailWellFormed (clauses : List (List Char × Clause)) (trailing : List Char) : Prop where
  gaps : ∀ p ∈ clauses, ∀ c ∈ p.1, isSpace c = true
  blanks : ∀ c ∈ trailing, isSpace c = true
  each : ∀ p ∈ clauses, p.2.WellFormed
  apart : clauses.IsChain Apart

/-- What follows the construct of a pragma. -/
structure PragmaTail where
  clauses : List (List Char × Clause)
  trailing : List Char
  wellFormed : TailWellFormed clauses trailing

namespace PragmaTail

def text (t : PragmaTail) : List Char := renderTail t.clauses t.trailing

def contents (t : PragmaTail) : List Clause := t.clauses.map Prod.snd

end PragmaTail

section
variable {s t : List Char} {started pending : Bool}

/-- What `normalize` keeps in mind after a text. -/
def normalizeState (state : Bool × Bool) (s : List Char) : Bool × Bool :=
  s.foldl (fun state c => if isSpace c then (state.1, state.1) else (true, false)) state

theorem normalizeFrom_append (started pending : Bool) (s t : List Char) :
    normalizeFrom started pending (s ++ t) = normalizeFrom started pending s ++
      normalizeFrom (normalizeState (started, pending) s).1
        (normalizeState (started, pending) s).2 t := by
  induction s generalizing started pending with
  | nil => rfl
  | cons c s ih =>
    rw [List.cons_append, normalizeFrom, normalizeFrom]
    split
    next hc =>
      have hstate : normalizeState (started, pending) (c :: s) =
          normalizeState (started, started) s := by
        rw [normalizeState, List.foldl_cons, if_pos hc]
        rfl
      rw [hstate, ih]
    next hc =>
      have hstate : normalizeState (started, pending) (c :: s) = normalizeState (true, false) s := by
        rw [normalizeState, List.foldl_cons, if_neg hc]
        rfl
      rw [hstate, ih]
      split <;> rfl

theorem normalize_suffix (started pending : Bool) (s : List Char) :
    normalize s <:+ normalizeFrom started pending s := by
  induction s generalizing started pending with
  | nil => exact List.nil_suffix
  | cons c s ih =>
    rw [normalizeFrom]
    split
    next hc =>
      have hskip : normalize (c :: s) = normalize s := by
        rw [normalize, normalizeFrom, if_pos hc]
        rfl
      rw [hskip]
      exact ih started started
    next hc =>
      have hkeep : normalize (c :: s) = c :: normalizeFrom true false s := by
        rw [normalize, normalizeFrom, if_neg hc, if_neg (by decide)]
      rw [hkeep]
      split
      next => exact List.suffix_cons _ _
      next => exact List.suffix_rfl

/-- A part of a text is still a part of it when white space is collapsed. -/
theorem normalize_within (h : s <:+: t) : normalize s <:+: normalize t := by
  obtain ⟨before, after, rfl⟩ := h
  have hsplit : ∃ front back, normalize (before ++ s ++ after) =
      front ++ normalizeFrom (normalizeState (false, false) before).1
        (normalizeState (false, false) before).2 s ++ back := by
    rw [List.append_assoc, normalize, normalizeFrom_append, normalizeFrom_append,
      ← List.append_assoc]
    exact ⟨_, _, rfl⟩
  obtain ⟨front, back, hsplit⟩ := hsplit
  rw [hsplit]
  exact (normalize_suffix _ _ s).isInfix.trans (List.infix_append _ _ _)

theorem normalizeFrom_pending (s : List Char) :
    normalizeFrom true true s = [] ∨ ∃ rest, normalizeFrom true true s = ' ' :: rest := by
  induction s with
  | nil => exact Or.inl rfl
  | cons c s ih =>
    rw [normalizeFrom]
    split
    next => exact ih
    next => exact Or.inr ⟨_, rfl⟩

theorem prefix_of_normalizeFrom {u : List Char} (hu : ∀ c ∈ u, isSpace c = false)
    (h : u <+: normalizeFrom true false s) : u <+: s := by
  induction s generalizing u with
  | nil => exact h
  | cons c s ih =>
    cases u with
    | nil => exact List.nil_prefix
    | cons x u =>
      obtain ⟨hx, hu⟩ := List.forall_mem_cons.mp hu
      rw [normalizeFrom] at h
      split at h
      next =>
        -- the blank that is kept does not start a word
        obtain hnil | ⟨rest, hblank⟩ := normalizeFrom_pending s
        · rw [hnil] at h
          exact absurd h (by simp)
        · rw [hblank] at h
          obtain rfl := (List.cons_prefix_cons.mp h).1
          exact absurd hx (by decide)
      next =>
        obtain ⟨rfl, hrest⟩ := List.cons_prefix_cons.mp h
        exact List.cons_prefix_cons.mpr ⟨rfl, ih hu hrest⟩

/-- A word of the normalised text is one of the text. -/
theorem infix_of_normalizeFrom {u : List Char} (hne : u ≠ []) (hu : ∀ c ∈ u, isSpace c = false)
    (h : u <:+: normalizeFrom started pending s) : u <:+: s := by
  induction s generalizing started pending with
  | nil => exact absurd (List.infix_nil.mp h) hne
  | cons c s ih =>
    have hword : u <:+: c :: normalizeFrom true false s → u <:+: c :: s := by
      intro h
      obtain hpre | hin := List.infix_cons_iff.mp h
      · obtain ⟨x, u, rfl⟩ := List.exists_cons_of_ne_nil hne
        obtain ⟨rfl, hrest⟩ := List.cons_prefix_cons.mp hpre
        have hrest := prefix_of_normalizeFrom (List.forall_mem_cons.mp hu).2 hrest
        exact (List.cons_prefix_cons.mpr ⟨rfl, hrest⟩).isInfix
      · exact List.infix_cons (ih hin)
    rw [normalizeFrom] at h
    split at h
    next => exact List.infix_cons (ih h)
    next =>
      split at h
      next =>
        obtain hpre | hin := List.infix_cons_iff.mp h
        · obtain ⟨x, u, rfl⟩ := List.exists_cons_of_ne_nil hne
          obtain rfl := (List.cons_prefix_cons.mp hpre).1
          exact absurd (hu ' ' (by simp)) (by decide)
        · exact hword hin
      next => exact hword h

end

section
variable {s t : List Char}

/-- `map(` stands in one of two texts, or the second starts inside of it. -/
theorem infix_map_append (h : "map(".toList <:+: s ++ t) :
    "map(".toList <:+: s ∨ "map(".toList <:+: t ∨
      (∃ c, s.getLast? = some c ∧ isIdentChar c = true) ∧
        ∃ c, t.head? = some c ∧ (c = 'a' ∨ c = 'p' ∨ c = '(') := by
  obtain h | h | ⟨l, r, hl, hr, heq, ⟨x, rfl⟩, ⟨y, rfl⟩⟩ := List.infix_append_iff_ne_nil.mp h
  · exact Or.inl h
  · exact Or.inr (Or.inl h)
  · refine Or.inr (Or.inr ?_)
    have hmap : "map(".toList = ['m', 'a', 'p', '('] := rfl
    rw [hmap] at heq
    obtain - | ⟨c1, - | ⟨c2, - | ⟨c3, - | ⟨c4, l⟩⟩⟩⟩ := l
    · exact absurd rfl hl
    · simp at heq
      obtain ⟨rfl, rfl⟩ := heq
      exact ⟨⟨'m', by simp, by decide⟩, 'a', by simp, by simp⟩
    · simp at heq
      obtain ⟨rfl, rfl, rfl⟩ := heq
      exact ⟨⟨'a', by simp, by decide⟩, 'p', by simp, by simp⟩
    · simp at heq
      obtain ⟨rfl, rfl, rfl, rfl⟩ := heq
      exact ⟨⟨'p', by simp, by decide⟩, '(', by simp, by simp⟩
    · simp at heq
      exact absurd heq.2.2.2.2.2 hr

theorem isPrefixOf_map_iff : "map(".toList.isPrefixOf s = true ↔ "map(".toList <+: s :=
  List.isPrefixOf_iff_prefix

theorem cutAtMap_noMap (s : List Char) : ¬"map(".toList <:+: (cutAtMap s).1 := by
  induction s with
  | nil => simp [cutAtMap]
  | cons c s ih =>
    rw [cutAtMap]
    split
    next => simp
    next hno =>
      rw [isPrefixOf_map_iff] at hno
      rw [List.infix_cons_iff, not_or]
      refine ⟨fun hpre => hno ?_, ih⟩
      have hcut : ∀ s : List Char, (cutAtMap s).1 ++ (cutAtMap s).2 = s := by
        intro s
        induction s with
        | nil => rfl
        | cons c s ih =>
          rw [cutAtMap]
          split
          next => rfl
          next => rw [List.cons_append, ih]
      have hfront : c :: (cutAtMap s).1 <+: c :: s :=
        List.cons_prefix_cons.mpr ⟨rfl, ⟨_, hcut s⟩⟩
      exact hpre.trans hfront

/-- A text without `map(` is cut off before the next one. -/
theorem cutAtMap_append (hs : ¬"map(".toList <:+: s) (ht : t = [] ∨ "map(".toList <+: t) :
    cutAtMap (s ++ t) = (s, t) := by
  induction s with
  | nil =>
    obtain rfl | ht := ht
    · rfl
    · cases t with
      | nil => rfl
      | cons c t => rw [List.nil_append, cutAtMap, if_pos (isPrefixOf_map_iff.mpr ht)]
  | cons c s ih =>
    have hno : ¬"map(".toList <+: c :: (s ++ t) := by
      intro hpre
      obtain hpre | ⟨q, hq, heq⟩ := prefix_append_cases (s := c :: s) hpre
      · exact hs hpre.isInfix
      · obtain rfl | ⟨rest, rfl⟩ := ht
        · rw [List.prefix_nil.mp hq, List.append_nil] at heq
          exact hs (heq ▸ List.infix_rfl)
        · -- the second text would have to start inside of `map(`
          cases q with
          | nil =>
            rw [List.append_nil] at heq
            exact hs (heq ▸ List.infix_rfl)
          | cons d q =>
            obtain ⟨r, hr⟩ := hq
            have hd : d = 'm' := (List.cons.inj hr).1
            subst hd
            have hmap : "map(".toList = ['m', 'a', 'p', '('] := rfl
            rw [hmap] at heq
            have hmem : 'm' ∈ ['a', 'p', '('] := by
              have htail : ['a', 'p', '('] = s ++ 'm' :: q := (List.cons.inj heq).2
              rw [htail]
              simp
            exact absurd hmem (by decide)
    rw [List.cons_append, cutAtMap, if_neg (fun h => hno (isPrefixOf_map_iff.mp h)),
      ih fun h => hs (List.infix_cons h)]

theorem noMap_of_spaces (h : ∀ c ∈ s, isSpace c = true) : ¬"map(".toList <:+: s := by
  intro hin
  have hm : 'm' ∈ s := hin.subset (by decide)
  exact absurd (h _ hm) (by decide)

end

/-- The text of the clauses up to the next `map` clause. -/
def runText : List (List Char × Clause) → List Char → List Char
  | [], trailing => trailing
  | (gap, .map _ _) :: _, _ => gap
  | (gap, .other text) :: clauses, trailing => gap ++ (text ++ runText clauses trailing)

/-- The clauses from the next `map` clause on. -/
def afterRun : List (List Char × Clause) → List (List Char × Clause)
  | [] => []
  | (_, .map direction items) :: clauses => ([], .map direction items) :: clauses
  | (_, .other _) :: clauses => afterRun clauses

/-- The blanks at the end, unless they belong to the run. -/
def trailingAfter (clauses : List (List Char × Clause)) (trailing : List Char) : List Char :=
  if (afterRun clauses).isEmpty then [] else trailing

section
variable {clauses : List (List Char × Clause)} {trailing gap text : List Char} {fuel : Nat}

theorem renderTail_run (clauses : List (List Char × Clause)) (trailing : List Char) :
    renderTail clauses trailing =
      runText clauses trailing ++ renderTail (afterRun clauses) (trailingAfter clauses trailing) := by
  induction clauses with
  | nil => simp [renderTail, runText, afterRun, trailingAfter]
  | cons p clauses ih =>
    obtain ⟨gap, c⟩ := p
    cases c with
    | map direction items => simp [renderTail, runText, afterRun, trailingAfter]
    | other text =>
      have htrailing : trailingAfter ((gap, .other text) :: clauses) trailing =
          trailingAfter clauses trailing := rfl
      rw [renderTail, ih, runText, afterRun, htrailing, Clause.text]
      simp only [List.append_assoc]

theorem renderTail_afterRun (clauses : List (List Char × Clause)) (trailing : List Char) :
    renderTail (afterRun clauses) (trailingAfter clauses trailing) = [] ∨
      "map(".toList <+: renderTail (afterRun clauses) (trailingAfter clauses trailing) := by
  induction clauses with
  | nil => exact Or.inl rfl
  | cons p clauses ih =>
    obtain ⟨gap, c⟩ := p
    cases c with
    | map direction items =>
      refine Or.inr ?_
      rw [afterRun, renderTail, Clause.text, List.nil_append, List.append_assoc]
      exact List.prefix_append _ _
    | other text => exact ih

theorem TailWellFormed.tail {p : List Char × Clause} (h : TailWellFormed (p :: clauses) trailing) :
    TailWellFormed clauses trailing :=
  ⟨(List.forall_mem_cons.mp h.gaps).2, h.blanks, (List.forall_mem_cons.mp h.each).2, h.apart.tail⟩

theorem TailWellFormed.afterRun (h : TailWellFormed clauses trailing) :
    TailWellFormed (afterRun clauses) (trailingAfter clauses trailing) := by
  induction clauses with
  | nil => exact ⟨by simp [LoopFusion.afterRun], by simp [trailingAfter, LoopFusion.afterRun],
      by simp [LoopFusion.afterRun], .nil⟩
  | cons p clauses ih =>
    obtain ⟨gap, c⟩ := p
    cases c with
    | map direction items =>
      obtain ⟨hc, hclauses⟩ := List.forall_mem_cons.mp h.each
      have hgaps := (List.forall_mem_cons.mp h.gaps).2
      refine ⟨List.forall_mem_cons.mpr ⟨by simp, hgaps⟩, h.blanks,
        List.forall_mem_cons.mpr ⟨hc, hclauses⟩, ?_⟩
      have hapart := h.apart
      rw [List.isChain_cons] at hapart
      exact List.isChain_cons.mpr hapart
    | other text => exact ih h.tail

theorem noMap_append {s t : List Char} (hs : ¬"map(".toList <:+: s) (ht : ¬"map(".toList <:+: t)
    (h : ∀ c, s.getLast? = some c → isIdentChar c = true → ∀ d, t.head? = some d →
      isSpace d = true) : ¬"map(".toList <:+: s ++ t := by
  intro hin
  obtain hin | hin | ⟨⟨c, hlast, hc⟩, d, hhead, hd⟩ := infix_map_append hin
  · exact hs hin
  · exact ht hin
  · have hspace := h c hlast hc d hhead
    obtain rfl | rfl | rfl := hd <;> exact absurd hspace (by decide)

theorem isSpace_notIdent {c : Char} (h : isSpace c = true) : isIdentChar c = false := by
  have hrange : c.toNat = 32 ∨ 9 ≤ c.toNat ∧ c.toNat ≤ 13 := by
    rw [isSpace, Bool.or_eq_true, Bool.and_eq_true, beq_iff_eq, decide_eq_true_eq,
      decide_eq_true_eq, Char.le_def, Char.le_def, UInt32.le_iff_toNat_le,
      UInt32.le_iff_toNat_le] at h
    obtain rfl | h := h
    · exact Or.inl rfl
    · exact Or.inr h
  have hunder : c ≠ '_' := by
    rintro rfl
    simp at hrange
  simp only [isIdentChar, Char.isAlphanum, Char.isAlpha, Char.isUpper, Char.isLower, Char.isDigit,
    Bool.or_eq_false_iff, Bool.and_eq_false_iff, decide_eq_false_iff_not, ge_iff_le,
    UInt32.le_iff_toNat_le, beq_eq_false_iff_ne]
  refine ⟨⟨⟨?_, ?_⟩, ?_⟩, hunder⟩ <;> simp only [Char.toNat_val] <;> simp <;> omega

/-- A run of clauses without `map(` has none between them either. -/
theorem noMap_run (h : TailWellFormed ((gap, .other text) :: clauses) trailing)
    (hno : ∀ t, .other t ∈ (.other text :: clauses.map Prod.snd) → ¬"map(".toList <:+: t) :
    ¬"map(".toList <:+: text ++ runText clauses trailing := by
  induction clauses generalizing gap text with
  | nil =>
    refine noMap_append (hno text (by simp)) (noMap_of_spaces h.blanks) ?_
    exact fun c _ _ d hd => h.blanks d (List.mem_of_head? hd)
  | cons p clauses ih =>
    obtain ⟨gap', c⟩ := p
    have hgap' := (List.forall_mem_cons.mp h.tail.gaps).1
    cases c with
    | map direction items =>
      refine noMap_append (hno text (by simp)) (noMap_of_spaces hgap') ?_
      exact fun c _ _ d hd => hgap' d (List.mem_of_head? hd)
    | other text' =>
      have hrest := ih h.tail fun t ht => hno t (List.mem_cons_of_mem _ ht)
      have hafter : ¬"map(".toList <:+: gap' ++ (text' ++ runText clauses trailing) := by
        refine noMap_append (noMap_of_spaces hgap') hrest ?_
        intro c hlast hc
        rw [isSpace_notIdent (hgap' c (List.mem_of_getLast? hlast))] at hc
        exact absurd hc (by decide)
      refine noMap_append (hno text (by simp)) hafter ?_
      intro c hlast hc d hd
      cases gap' with
      | nil =>
        have hapart := (List.isChain_cons_cons.mp h.apart).1 rfl c hlast
        rw [hapart] at hc
        exact absurd hc (by decide)
      | cons x gap' =>
        obtain rfl := Option.some.inj hd
        exact hgap' x (by simp)

theorem clausePieces_other {c : Char} {s t : List Char} (hgap : ∀ c ∈ gap, isSpace c = true)
    (hc : isSpace c = false) (hs : ¬"map(".toList <:+: c :: s)
    (ht : t = [] ∨ "map(".toList <+: t) :
    clausePieces (fuel + 1) (gap ++ (c :: s ++ t)) = .other (c :: s) :: clausePieces fuel t := by
  have hstart : (gap ++ (c :: s ++ t)).dropWhile isSpace = c :: (s ++ t) := by
    rw [dropWhile_gap hgap, List.cons_append, List.dropWhile_cons_of_neg (by simp [hc])]
  have hno : ¬"map(".toList.isPrefixOf (c :: (s ++ t)) = true := by
    intro hpre
    have hcut := cutAtMap_append hs ht
    rw [List.cons_append, cutAtMap, if_pos hpre] at hcut
    exact absurd (Prod.mk.inj hcut).1 (by simp)
  have hcut := cutAtMap_append (fun h => hs (List.infix_cons h)) ht
  rw [clausePieces, hstart]
  dsimp only
  rw [if_neg hno, hcut]

theorem afterRun_suffix (clauses : List (List Char × Clause)) :
    (afterRun clauses).map Prod.snd <:+ clauses.map Prod.snd := by
  induction clauses with
  | nil => exact List.suffix_rfl
  | cons p clauses ih =>
    obtain ⟨gap, c⟩ := p
    cases c with
    | map _ _ => exact List.suffix_rfl
    | other text => exact ih.trans (List.suffix_cons _ _)

theorem mem_afterRun_map {direction : Option (List Char)} {items : List (List Char)} :
    .map direction items ∈ (afterRun clauses).map Prod.snd ↔
      .map direction items ∈ clauses.map Prod.snd := by
  induction clauses with
  | nil => rfl
  | cons p clauses ih =>
    obtain ⟨gap, c⟩ := p
    cases c with
    | map _ _ => rfl
    | other text =>
      rw [afterRun, ih, List.map_cons, List.mem_cons]
      simp

theorem mem_run_or_after (trailing : List Char) (h : .other text ∈ clauses.map Prod.snd) :
    text <:+: runText clauses trailing ∨ .other text ∈ (afterRun clauses).map Prod.snd := by
  induction clauses with
  | nil => exact absurd h (by simp)
  | cons p clauses ih =>
    obtain ⟨gap, c⟩ := p
    cases c with
    | map _ _ => exact Or.inr h
    | other text' =>
      rw [List.map_cons, List.mem_cons] at h
      rw [runText]
      obtain h | h := h
      · obtain rfl := Clause.other.inj h
        exact Or.inl (List.infix_append' _ _ _)
      · obtain hin | hin := ih h
        · exact Or.inl (List.infix_append_of_infix_right (List.infix_append_of_infix_right hin))
        · exact Or.inr hin

theorem balanced_mapInside {direction : Option (List Char)} {items : List (List Char)}
    (h : (Clause.map direction items).WellFormed) : Balanced '(' ')' (mapInside direction items) := by
  obtain ⟨hdirection, -, hitems⟩ := h
  have hjoined : Balanced '(' ')' (List.intercalate [','] items) :=
    Balanced.intercalate (balanced_of_forall (by simp)) fun s hs => (hitems s hs).enclosed.parens
  cases direction with
  | none => exact hjoined
  | some d =>
    have hcolon : Balanced '(' ')' [':'] := balanced_of_forall (by simp)
    exact (hdirection d rfl).1.append (hcolon.append hjoined)

theorem pieces_of_tail (h : TailWellFormed clauses trailing)
    (hno : ∀ t, .other t ∈ clauses.map Prod.snd → ¬"map(".toList <:+: t)
    (hfuel : (renderTail clauses trailing).length < fuel) :
    (∀ inside, .map inside ∈ clausePieces fuel (renderTail clauses trailing) ↔
        ∃ d items, .map d items ∈ clauses.map Prod.snd ∧ mapInside d items = inside) ∧
      ∀ t, .other t ∈ clauses.map Prod.snd →
        ∃ run, .other run ∈ clausePieces fuel (renderTail clauses trailing) ∧ t <:+: run := by
  induction fuel generalizing clauses trailing with
  | zero => omega
  | succ fuel ih =>
    cases clauses with
    | nil =>
      have hblank : (trailing ++ []).dropWhile isSpace = [] := by
        rw [dropWhile_gap h.blanks]
        rfl
      rw [List.append_nil] at hblank
      rw [renderTail, clausePieces, hblank]
      simp
    | cons p clauses =>
      obtain ⟨gap, c⟩ := p
      have hgap := (List.forall_mem_cons.mp h.gaps).1
      have hc := (List.forall_mem_cons.mp h.each).1
      cases c with
      | map d items =>
        obtain ⟨hmaps, hothers⟩ := ih h.tail
          (fun t ht => hno t (List.mem_cons_of_mem _ ht))
          (by simp [renderTail, Clause.text] at hfuel; omega)
        have htext : renderTail ((gap, .map d items) :: clauses) trailing =
            gap ++ ("map(".toList ++ (mapInside d items ++ ')' :: renderTail clauses trailing)) := by
          rw [renderTail, Clause.text]
          simp only [List.append_assoc, List.singleton_append]
        rw [htext, clausePieces_map _ hgap (balanced_mapInside hc)]
        refine ⟨fun inside => ?_, fun t ht => ?_⟩
        · rw [List.mem_cons, hmaps]
          constructor
          · rintro (hin | ⟨d', items', hmem, heq⟩)
            · exact ⟨d, items, by simp, (ClausePiece.map.inj hin).symm⟩
            · exact ⟨d', items', List.mem_cons_of_mem _ hmem, heq⟩
          · rintro ⟨d', items', hmem, heq⟩
            obtain hmem | hmem := List.mem_cons.mp hmem
            · obtain ⟨rfl, rfl⟩ := Clause.map.inj hmem
              exact Or.inl (by rw [heq])
            · exact Or.inr ⟨d', items', hmem, heq⟩
        · obtain hmem | hmem := List.mem_cons.mp ht
          · exact absurd hmem (by simp)
          · obtain ⟨run, hrun, hin⟩ := hothers t hmem
            exact ⟨run, List.mem_cons_of_mem _ hrun, hin⟩
      | other text =>
        obtain ⟨⟨c, rest, htext, hspace⟩, -⟩ := hc
        have hclean := noMap_run h hno
        have hrender : renderTail ((gap, .other text) :: clauses) trailing =
            gap ++ (c :: (rest ++ runText clauses trailing) ++
              renderTail (afterRun clauses) (trailingAfter clauses trailing)) := by
          rw [renderTail, renderTail_run clauses, Clause.text, htext]
          simp only [List.append_assoc, List.cons_append]
        rw [htext, List.cons_append] at hclean
        rw [hrender] at hfuel ⊢
        rw [clausePieces_other hgap hspace hclean (renderTail_afterRun clauses trailing)]
        obtain ⟨hmaps, hothers⟩ := ih h.tail.afterRun
          (fun t ht => hno t (List.mem_cons_of_mem _ ((afterRun_suffix clauses).subset ht)))
          (by simp only [List.length_append, List.length_cons] at hfuel; omega)
        refine ⟨fun inside => ?_, fun t ht => ?_⟩
        · rw [List.mem_cons, hmaps]
          simp only [mem_afterRun_map, List.map_cons, List.mem_cons, reduceCtorEq, false_or]
        · have hrun : t <:+: c :: (rest ++ runText clauses trailing) ∨
              .other t ∈ (afterRun clauses).map Prod.snd := by
            rw [← List.cons_append, ← htext]
            obtain hmem | hmem := List.mem_cons.mp ht
            · obtain rfl := Clause.other.inj hmem
              exact Or.inl List.infix_append_left
            · obtain hin | hmem := mem_run_or_after trailing hmem
              · exact Or.inl (List.infix_append_of_infix_right hin)
              · exact Or.inr hmem
          obtain hin | hmem := hrun
          · exact ⟨_, List.mem_cons_self, hin⟩
          · obtain ⟨run, hrun, hin⟩ := hothers t hmem
            exact ⟨run, List.mem_cons_of_mem _ hrun, hin⟩

end

end LoomX.LoopFusion
