import Mathlib.Data.List.Basic
import Mathlib.Data.List.Infix
import Mathlib.Tactic.Common

namespace LoomX

/-- A character of a source text and its position there. -/
abbrev Cell := Char × Nat

/-- Cuts at the delimiter that closes the `depth` open ones: what stands before it, the
delimiter and what follows. -/
def cutAtClose {α : Type} (char : α → Char) (openChar closeChar : Char) :
    Nat → List α → Option (List α × α × List α)
  | _, [] => none
  | depth, c :: rest =>
    if char c = openChar then
      (cutAtClose char openChar closeChar (depth + 1) rest).map fun p => (c :: p.1, p.2)
    else if char c = closeChar then
      if depth = 1 then some ([], c, rest)
      else (cutAtClose char openChar closeChar (depth - 1) rest).map fun p => (c :: p.1, p.2)
    else (cutAtClose char openChar closeChar depth rest).map fun p => (c :: p.1, p.2)

theorem cutAtClose_eq {α : Type} {char : α → Char} {o c : Char} {depth : Nat} {s before after : List α}
    {close : α} (h : cutAtClose char o c depth s = some (before, close, after)) :
    s = before ++ close :: after := by
  induction s generalizing depth before with
  | nil => simp [cutAtClose] at h
  | cons x s ih =>
    unfold cutAtClose at h
    split at h
    next =>
      obtain ⟨⟨b, l, a⟩, hrest, heq⟩ := Option.map_eq_some_iff.mp h
      cases heq
      simp [ih hrest]
    next =>
      split at h
      next =>
        split at h
        next =>
          cases Option.some.inj h
          rfl
        next =>
          obtain ⟨⟨b, l, a⟩, hrest, heq⟩ := Option.map_eq_some_iff.mp h
          cases heq
          simp [ih hrest]
      next =>
        obtain ⟨⟨b, l, a⟩, hrest, heq⟩ := Option.map_eq_some_iff.mp h
        cases heq
        simp [ih hrest]

/-- How a character changes the nesting depth of one kind of bracket. -/
def bracketStep (openChar closeChar : Char) (depth : Int) (x : Char) : Int :=
  if x = openChar then depth + 1 else if x = closeChar then depth - 1 else depth

/-- The depth at the end of a text. -/
def depthOf (openChar closeChar : Char) (s : List Char) : Int :=
  s.foldl (bracketStep openChar closeChar) 0

/-- Every bracket of one kind is closed, and none before it is opened. -/
structure Balanced (openChar closeChar : Char) (s : List Char) : Prop where
  closed : depthOf openChar closeChar s = 0
  nonneg : ∀ p, p <+: s → 0 ≤ depthOf openChar closeChar p

instance (o c : Char) (s : List Char) : Decidable (Balanced o c s) :=
  decidable_of_iff (depthOf o c s = 0 ∧ ∀ p ∈ s.inits, 0 ≤ depthOf o c p)
    ⟨fun h => ⟨h.1, fun p hp => h.2 p ((List.mem_inits p s).mpr hp)⟩,
      fun h => ⟨h.closed, fun p hp => h.nonneg p ((List.mem_inits p s).mp hp)⟩⟩

section
variable {o c : Char} {s t p : List Char}

theorem foldl_bracketStep (o c : Char) (depth : Int) (s : List Char) :
    s.foldl (bracketStep o c) depth = depth + depthOf o c s := by
  induction s generalizing depth with
  | nil => simp [depthOf]
  | cons x s ih =>
    have hstep : bracketStep o c depth x = depth + bracketStep o c 0 x := by
      unfold bracketStep
      split
      next => omega
      next => split <;> omega
    rw [depthOf, List.foldl_cons, List.foldl_cons, ih, ih (bracketStep o c 0 x), hstep]
    omega

theorem depthOf_append (o c : Char) (s t : List Char) :
    depthOf o c (s ++ t) = depthOf o c s + depthOf o c t := by
  rw [depthOf, List.foldl_append, foldl_bracketStep]
  rfl

theorem depthOf_cons (o c x : Char) (s : List Char) :
    depthOf o c (x :: s) = bracketStep o c 0 x + depthOf o c s := by
  rw [depthOf, List.foldl_cons, foldl_bracketStep]

theorem depthOf_open (o c : Char) (s : List Char) : depthOf o c (o :: s) = depthOf o c s + 1 := by
  rw [depthOf_cons, bracketStep, if_pos rfl]
  omega

theorem depthOf_close (hne : o ≠ c) (s : List Char) :
    depthOf o c (c :: s) = depthOf o c s - 1 := by
  rw [depthOf_cons, bracketStep, if_neg (Ne.symm hne), if_pos rfl]
  omega

theorem depthOf_other {x : Char} (ho : x ≠ o) (hc : x ≠ c) (s : List Char) :
    depthOf o c (x :: s) = depthOf o c s := by
  rw [depthOf_cons, bracketStep, if_neg ho, if_neg hc]
  omega

theorem balanced_nil (o c : Char) : Balanced o c [] :=
  ⟨rfl, fun p hp => by simp [List.prefix_nil.mp hp, depthOf]⟩

theorem prefix_append_cases {α : Type} {p s t : List α} (h : p <+: s ++ t) :
    p <+: s ∨ ∃ q, q <+: t ∧ p = s ++ q := by
  obtain hp | ⟨q, rfl⟩ := List.prefix_or_prefix_of_prefix h (List.prefix_append s t)
  · exact Or.inl hp
  · exact Or.inr ⟨q, (List.prefix_append_right_inj s).mp h, rfl⟩

theorem Balanced.append (hs : Balanced o c s) (ht : Balanced o c t) : Balanced o c (s ++ t) := by
  refine ⟨by rw [depthOf_append, hs.closed, ht.closed]; rfl, fun p hp => ?_⟩
  obtain hp | ⟨q, hq, rfl⟩ := prefix_append_cases hp
  · exact hs.nonneg p hp
  · rw [depthOf_append, hs.closed]
    have := ht.nonneg q hq
    omega

/-- Text without brackets is balanced. -/
theorem balanced_of_forall (h : ∀ x ∈ s, x ≠ o ∧ x ≠ c) : Balanced o c s := by
  have hzero : ∀ {p : List Char}, (∀ x ∈ p, x ≠ o ∧ x ≠ c) → depthOf o c p = 0 := by
    intro p hp
    induction p with
    | nil => rfl
    | cons x p ih =>
      obtain ⟨hx, hp⟩ := List.forall_mem_cons.mp hp
      rw [depthOf_other hx.1 hx.2, ih hp]
  refine ⟨hzero h, fun p hp => ?_⟩
  exact Int.le_of_eq (hzero fun x hx => h x (hp.subset hx)).symm

theorem intercalate_cons_cons {α : Type} (sep a b : List α) (l : List (List α)) :
    List.intercalate sep (a :: b :: l) = a ++ (sep ++ List.intercalate sep (b :: l)) := by
  simp [List.intercalate]

theorem Balanced.intercalate {sep : List Char} {ss : List (List Char)} (hsep : Balanced o c sep)
    (h : ∀ s ∈ ss, Balanced o c s) : Balanced o c (List.intercalate sep ss) := by
  induction ss with
  | nil => exact balanced_nil o c
  | cons s ss ih =>
    obtain ⟨hs, hss⟩ := List.forall_mem_cons.mp h
    cases ss with
    | nil => simpa [List.intercalate] using hs
    | cons t ss =>
      rw [intercalate_cons_cons]
      exact hs.append (hsep.append (ih hss))

/-- The cut runs past text in which the outer bracket stays open. -/
theorem cutAtClose_append {n : Nat} (h : ∀ p, p <+: s → 0 < (n : Int) + depthOf o c p)
    (t : List Char) : cutAtClose id o c n (s ++ t) =
      (cutAtClose id o c ((n : Int) + depthOf o c s).toNat t).map fun r => (s ++ r.1, r.2) := by
  induction s generalizing n with
  | nil => simp [depthOf]
  | cons x s ih =>
    have hrest : ∀ {m : Nat}, (m : Int) = n + bracketStep o c 0 x →
        cutAtClose id o c m (s ++ t) =
          (cutAtClose id o c ((n : Int) + depthOf o c (x :: s)).toNat t).map
            fun r => (s ++ r.1, r.2) := by
      intro m hm
      have hdepth : (n : Int) + depthOf o c (x :: s) = m + depthOf o c s := by
        rw [depthOf_cons]
        omega
      rw [hdepth]
      refine ih fun p hp => ?_
      have hpos := h (x :: p) (List.cons_prefix_cons.mpr ⟨rfl, hp⟩)
      rw [depthOf_cons] at hpos
      omega
    rw [List.cons_append, cutAtClose]
    split
    next hx =>
      have hx : x = o := hx
      rw [hrest (by simp [bracketStep, hx]), Option.map_map]
      rfl
    next hno =>
      have hno : x ≠ o := hno
      split
      next hx =>
        have hx : x = c := hx
        have hpos := h [x] ⟨s, rfl⟩
        rw [hx, depthOf_close (fun heq => hno (hx.trans heq.symm)), depthOf, List.foldl_nil] at hpos
        have hstep : bracketStep o c 0 x = -1 := by rw [bracketStep, if_neg hno, if_pos hx, Int.zero_sub]
        rw [if_neg (by omega), hrest (by omega), Option.map_map]
        rfl
      next hnc =>
        have hnc : x ≠ c := hnc
        rw [hrest (by simp [bracketStep, hno, hnc]), Option.map_map]
        rfl

theorem Balanced.cutAtClose (h : Balanced o c s) (hne : o ≠ c) (t : List Char) :
    cutAtClose id o c 1 (s ++ c :: t) = some (s, c, t) := by
  rw [cutAtClose_append]
  · rw [h.closed]
    simp [LoomX.cutAtClose, Ne.symm hne]
  · intro p hp
    have := h.nonneg p hp
    omega

end

section
variable {σ : Type} {step : σ → Char → σ} {isTop : σ → Bool} {sep : Char} {start : σ}

/-- Splits a text at the separators at which the state is a top-level one. -/
def splitOutside (step : σ → Char → σ) (isTop : σ → Bool) (sep : Char) (state : σ)
    (current : List Char) : List Char → List (List Char)
  | [] => [current]
  | x :: rest =>
    let state := step state x
    if x = sep ∧ isTop state = true then current :: splitOutside step isTop sep state [] rest
    else splitOutside step isTop sep state (current ++ [x]) rest

/-- No separator of the text is a top-level one, and the state is the same after it as before. -/
structure Unsplit (step : σ → Char → σ) (isTop : σ → Bool) (sep : Char) (start : σ)
    (s : List Char) : Prop where
  closed : s.foldl step start = start
  inner : ∀ p, p ++ [sep] <+: s → isTop ((p ++ [sep]).foldl step start) = false

theorem splitOutside_append {s : List Char} {state : σ} (current t : List Char)
    (h : ∀ p, p ++ [sep] <+: s → isTop ((p ++ [sep]).foldl step state) = false) :
    splitOutside step isTop sep state current (s ++ t) =
      splitOutside step isTop sep (s.foldl step state) (current ++ s) t := by
  induction s generalizing state current with
  | nil => simp
  | cons x s ih =>
    have hno : ¬(x = sep ∧ isTop (step state x) = true) := by
      intro ⟨hx, htop⟩
      have := h [] ⟨s, by simp [hx]⟩
      simp [← hx, htop] at this
    rw [List.cons_append, splitOutside, if_neg hno, ih]
    · simp
    · intro p hp
      simpa using h (x :: p) (List.cons_prefix_cons.mpr ⟨rfl, hp⟩)

/-- A text of pieces between separators is split into the pieces. -/
theorem splitOutside_intercalate {s : List Char} {ss : List (List Char)}
    (hsep : step start sep = start) (htop : isTop start = true)
    (h : ∀ t ∈ s :: ss, Unsplit step isTop sep start t) :
    splitOutside step isTop sep start [] (List.intercalate [sep] (s :: ss)) = s :: ss := by
  induction ss generalizing s with
  | nil =>
    have hs := h s (by simp)
    have hsplit := splitOutside_append [] [] hs.inner
    simpa [List.intercalate, splitOutside] using hsplit
  | cons t ss ih =>
    obtain ⟨hs, hrest⟩ := List.forall_mem_cons.mp h
    rw [intercalate_cons_cons, splitOutside_append _ _ hs.inner, hs.closed, List.singleton_append,
      splitOutside, hsep, if_pos ⟨rfl, htop⟩, ih hrest, List.nil_append]

end

/-- How a character changes the number of open parentheses and braces. -/
def nestStep (depth : Int) (x : Char) : Int :=
  if x = '(' ∨ x = '\x7b' then depth + 1 else if x = ')' ∨ x = '\x7d' then depth - 1 else depth

def nestDepth (s : List Char) : Int := depthOf '(' ')' s + depthOf '\x7b' '\x7d' s

/-- The semicolons that stand outside of parentheses and braces. -/
def semicolonsAt (depth : Int) : List Char → Nat
  | [] => 0
  | x :: s => (if x = ';' ∧ depth = 0 then 1 else 0) + semicolonsAt (nestStep depth x) s

structure Nested (s : List Char) : Prop where
  parens : Balanced '(' ')' s
  braces : Balanced '\x7b' '\x7d' s

instance (s : List Char) : Decidable (Nested s) :=
  decidable_of_iff (Balanced '(' ')' s ∧ Balanced '\x7b' '\x7d' s)
    ⟨fun h => ⟨h.1, h.2⟩, fun h => ⟨h.parens, h.braces⟩⟩

/-- The text is nested, with `n` semicolons outside of the brackets. -/
structure Enclosing (s : List Char) (n : Nat) : Prop where
  nested : Nested s
  semicolons : semicolonsAt 0 s = n

/-- The characters the extent of a statement depends on. -/
def isMark (x : Char) : Bool := x == '(' || x == ')' || x == '\x7b' || x == '\x7d' || x == ';'

section
variable {o c x : Char} {s t p : List Char} {m n : Nat}

theorem nestStep_eq (depth : Int) (x : Char) :
    nestStep depth x = depth + (bracketStep '(' ')' 0 x + bracketStep '\x7b' '\x7d' 0 x) := by
  unfold nestStep bracketStep
  split_ifs <;> simp_all <;> omega

theorem nestDepth_cons (x : Char) (s : List Char) : nestDepth (x :: s) = nestStep 0 x + nestDepth s := by
  rw [nestDepth, depthOf_cons, depthOf_cons, nestStep_eq, nestDepth]
  omega

theorem nestDepth_append (s t : List Char) : nestDepth (s ++ t) = nestDepth s + nestDepth t := by
  rw [nestDepth, depthOf_append, depthOf_append, nestDepth, nestDepth]
  omega

theorem nestStep_add (depth : Int) (x : Char) : nestStep depth x = depth + nestStep 0 x := by
  rw [nestStep_eq, nestStep_eq 0]
  omega

theorem semicolonsAt_append (depth : Int) (s t : List Char) :
    semicolonsAt depth (s ++ t) = semicolonsAt depth s + semicolonsAt (depth + nestDepth s) t := by
  induction s generalizing depth with
  | nil => simp [semicolonsAt, nestDepth, depthOf]
  | cons x s ih =>
    rw [List.cons_append, semicolonsAt, ih, semicolonsAt, nestDepth_cons, nestStep_add depth x,
      Int.add_assoc, Nat.add_assoc]

theorem nested_nil : Nested [] := ⟨balanced_nil _ _, balanced_nil _ _⟩

theorem Nested.append (hs : Nested s) (ht : Nested t) : Nested (s ++ t) :=
  ⟨hs.parens.append ht.parens, hs.braces.append ht.braces⟩

theorem Nested.nestDepth (h : Nested s) : nestDepth s = 0 := by
  rw [LoomX.nestDepth, h.parens.closed, h.braces.closed]
  rfl

theorem Nested.nonneg (h : Nested s) (hp : p <+: s) : 0 ≤ LoomX.nestDepth p := by
  have h1 := h.parens.nonneg p hp
  have h2 := h.braces.nonneg p hp
  unfold LoomX.nestDepth
  omega

/-- Brackets around a balanced text are balanced. -/
theorem Balanced.wrap (h : Balanced o c s) (hne : o ≠ c) : Balanced o c (o :: (s ++ [c])) := by
  refine ⟨?_, fun p hp => ?_⟩
  · rw [depthOf_open, depthOf_append, h.closed, depthOf_close hne]
    rfl
  · cases p with
    | nil => exact Int.le_refl 0
    | cons x p =>
      obtain ⟨hx, hrest⟩ := List.cons_prefix_cons.mp hp
      rw [hx, depthOf_open]
      obtain hs | ⟨q, hq, rfl⟩ := prefix_append_cases hrest
      · have := h.nonneg p hs
        omega
      · rw [depthOf_append, h.closed]
        obtain hq | hq := List.prefix_concat_iff.mp (by simpa using hq : q <+: [] ++ [c])
        · rw [hq, List.nil_append, depthOf_close hne]
          exact Int.le_refl 0
        · rw [List.prefix_nil.mp hq]
          exact Int.one_nonneg

theorem Balanced.around {y : Char} (h : Balanced o c s) (hx : x ≠ o ∧ x ≠ c) (hy : y ≠ o ∧ y ≠ c) :
    Balanced o c (x :: (s ++ [y])) := by
  have hfirst : Balanced o c [x] := balanced_of_forall (by simpa using hx)
  have hlast : Balanced o c [y] := balanced_of_forall (by simpa using hy)
  exact hfirst.append (h.append hlast)

theorem semicolonsAt_inside {depth : Int} (h : ∀ p, p <+: s → 0 < depth + nestDepth p) :
    semicolonsAt depth s = 0 := by
  induction s generalizing depth with
  | nil => rfl
  | cons x s ih =>
    have hdepth := h [] (List.nil_prefix)
    have hrest : semicolonsAt (nestStep depth x) s = 0 := by
      refine ih fun p hp => ?_
      have := h (x :: p) (List.cons_prefix_cons.mpr ⟨rfl, hp⟩)
      rw [nestDepth_cons] at this
      rw [nestStep_add]
      omega
    have hzero : ¬(x = ';' ∧ depth = 0) := by
      intro ⟨_, hd⟩
      simp [nestDepth, depthOf, hd] at hdepth
    rw [semicolonsAt, if_neg hzero, hrest]

theorem Enclosing.append (hs : Enclosing s m) (ht : Enclosing t n) : Enclosing (s ++ t) (m + n) := by
  refine ⟨hs.nested.append ht.nested, ?_⟩
  rw [semicolonsAt_append, hs.nested.nestDepth, Int.add_zero, hs.semicolons, ht.semicolons]

theorem enclosing_nil : Enclosing [] 0 := ⟨nested_nil, rfl⟩

theorem Nested.inside (h : Nested s) : semicolonsAt 1 s = 0 :=
  semicolonsAt_inside fun p hp => by
    have := h.nonneg hp
    omega

theorem Nested.inParens (h : Nested s) : Enclosing ('(' :: (s ++ [')'])) 0 := by
  refine ⟨⟨h.parens.wrap (by decide), h.braces.around (by decide) (by decide)⟩, ?_⟩
  have hopen : nestStep 0 '(' = 1 := rfl
  rw [semicolonsAt, hopen, semicolonsAt_append, h.inside, h.nestDepth]
  rfl

theorem Nested.inBraces (h : Nested s) : Enclosing ('\x7b' :: (s ++ ['\x7d'])) 0 := by
  refine ⟨⟨h.parens.around (by decide) (by decide), h.braces.wrap (by decide)⟩, ?_⟩
  have hopen : nestStep 0 '\x7b' = 1 := rfl
  rw [semicolonsAt, hopen, semicolonsAt_append, h.inside, h.nestDepth]
  rfl

theorem enclosing_semicolon : Enclosing [';'] 1 :=
  ⟨⟨balanced_of_forall (by simp), balanced_of_forall (by simp)⟩, rfl⟩

theorem not_isMark : isMark x = false ↔
    x ≠ '(' ∧ x ≠ ')' ∧ x ≠ '\x7b' ∧ x ≠ '\x7d' ∧ x ≠ ';' := by
  simp [isMark, and_assoc]

theorem nestStep_plain (h : isMark x = false) (depth : Int) : nestStep depth x = depth := by
  obtain ⟨h1, h2, h3, h4, -⟩ := not_isMark.mp h
  simp [nestStep, h1, h2, h3, h4]

theorem bracketStep_plain (ho : isMark o = true) (hc : isMark c = true) (hx : isMark x = false)
    (depth : Int) : bracketStep o c depth x = depth := by
  have hxo : x ≠ o := fun h => by rw [h, ho] at hx; cases hx
  have hxc : x ≠ c := fun h => by rw [h, hc] at hx; cases hx
  rw [bracketStep, if_neg hxo, if_neg hxc]

/-- Only the marks count. -/
theorem depthOf_filter (ho : isMark o = true) (hc : isMark c = true) (s : List Char) :
    depthOf o c (s.filter isMark) = depthOf o c s := by
  induction s with
  | nil => rfl
  | cons x s ih =>
    cases hx : isMark x with
    | true => rw [List.filter_cons_of_pos hx, depthOf_cons, ih, depthOf_cons]
    | false =>
      rw [List.filter_cons_of_neg (by simp [hx]), ih, depthOf_cons, bracketStep_plain ho hc hx]
      omega

theorem semicolonsAt_filter (depth : Int) (s : List Char) :
    semicolonsAt depth (s.filter isMark) = semicolonsAt depth s := by
  induction s generalizing depth with
  | nil => rfl
  | cons x s ih =>
    cases hx : isMark x with
    | true => rw [List.filter_cons_of_pos hx, semicolonsAt, ih, semicolonsAt]
    | false =>
      have hne : ¬(x = ';' ∧ depth = 0) := fun h => (not_isMark.mp hx).2.2.2.2 h.1
      rw [List.filter_cons_of_neg (by simp [hx]), ih, semicolonsAt, if_neg hne,
        nestStep_plain hx, Nat.zero_add]

theorem balanced_filter (ho : isMark o = true) (hc : isMark c = true) :
    Balanced o c (s.filter isMark) ↔ Balanced o c s := by
  refine ⟨fun h => ⟨?_, fun p hp => ?_⟩, fun h => ⟨?_, fun p hp => ?_⟩⟩
  · rw [← depthOf_filter ho hc, h.closed]
  · rw [← depthOf_filter ho hc]
    exact h.nonneg _ (hp.filter isMark)
  · rw [depthOf_filter ho hc, h.closed]
  · obtain ⟨q, hq, rfl⟩ := List.prefix_filter_iff.mp hp
    rw [depthOf_filter ho hc]
    exact h.nonneg q hq

theorem nested_filter : Nested (s.filter isMark) ↔ Nested s := by
  have hparens := balanced_filter (s := s) (show isMark '(' = true from rfl) (show isMark ')' = true from rfl)
  have hbraces := balanced_filter (s := s) (show isMark '\x7b' = true from rfl)
    (show isMark '\x7d' = true from rfl)
  exact ⟨fun h => ⟨hparens.mp h.parens, hbraces.mp h.braces⟩,
    fun h => ⟨hparens.mpr h.parens, hbraces.mpr h.braces⟩⟩

theorem enclosing_filter : Enclosing (s.filter isMark) n ↔ Enclosing s n := by
  refine ⟨fun h => ⟨nested_filter.mp h.nested, ?_⟩, fun h => ⟨nested_filter.mpr h.nested, ?_⟩⟩
  · rw [← semicolonsAt_filter, h.semicolons]
  · rw [semicolonsAt_filter, h.semicolons]

theorem enclosing_plain (h : ∀ x ∈ s, isMark x = false) : Enclosing s 0 := by
  have hnone : s.filter isMark = [] := List.filter_eq_nil_iff.mpr fun x hx => by simp [h x hx]
  exact enclosing_filter.mp (hnone ▸ enclosing_nil)

end

end LoomX
