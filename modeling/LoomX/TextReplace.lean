import Mathlib.Data.List.Infix
import Mathlib.Tactic.Common

namespace LoomX

variable {α : Type}

section
variable [BEq α]

/-- Puts `new` for the occurrences of `old`, from left to right. The first `skip` characters
belong to an occurrence that has its replacement already. -/
def replaceFrom (old new : List α) : Nat → List α → List α
  | _, [] => []
  | skip + 1, _ :: s => replaceFrom old new skip s
  | 0, c :: s =>
    if old.isPrefixOf (c :: s) then new ++ replaceFrom old new (old.length - 1) s
    else c :: replaceFrom old new 0 s

def replaceAll (old new s : List α) : List α := replaceFrom old new 0 s

/-- As `replaceFrom`, for the occurrences that do not stand right after a character of a word. -/
def replaceWordsFrom (isPart : α → Bool) (old new : List α) (afterPart : Bool) :
    Nat → List α → List α
  | _, [] => []
  | skip + 1, c :: s => replaceWordsFrom isPart old new (isPart c) skip s
  | 0, c :: s =>
    if !afterPart && old.isPrefixOf (c :: s) then
      new ++ replaceWordsFrom isPart old new (isPart c) (old.length - 1) s
    else c :: replaceWordsFrom isPart old new (isPart c) 0 s

def replaceWords (isPart : α → Bool) (old new s : List α) : List α :=
  replaceWordsFrom isPart old new false 0 s

end

/-- No occurrence starts in the first text and ends in the second. -/
def NoCross (old s t : List α) : Prop :=
  ∀ u v, u ≠ [] → v ≠ [] → old = u ++ v → u <:+ s → ¬v <+: t

/-- Whether the last character of a text is one of a word; `before` tells it of what is before an
empty text. -/
def endsInWord (isPart : α → Bool) (before : Bool) (s : List α) : Bool :=
  (s.getLast?.map isPart).getD before

/-- No occurrence stands right after a character of a word. -/
def WordOccurrences (isPart : α → Bool) (old s : List α) : Prop :=
  ∀ w u, s = w ++ (old ++ u) → endsInWord isPart false w = false

/-- Two occurrences never overlap. -/
def Unbordered (old : List α) : Prop := ∀ u, u <+: old → u <:+ old → u = [] ∨ u = old

/-- A part of a text that holds no occurrence and that no occurrence crosses into. -/
structure Glue (old g : List α) : Prop where
  ne : g ≠ []
  first : ∀ c ∈ g.head?, c ∉ old
  last : ∀ c ∈ g.getLast?, c ∉ old
  none : ¬old <:+: g

section
variable {old new s t u w : List α} {c : α} {k : Nat}

theorem NoCross.tail (h : NoCross old (c :: s) t) : NoCross old s t :=
  fun u v hu hv heq hs => h u v hu hv heq (hs.trans (List.suffix_cons c s))

theorem noCross_of_head (h : ∀ c ∈ t.head?, c ∉ old) : NoCross old s t := by
  intro u v _ hv heq _ hpre
  obtain ⟨c, v, rfl⟩ := List.exists_cons_of_ne_nil hv
  obtain ⟨r, rfl⟩ := hpre
  exact h c rfl (by rw [heq]; simp)

theorem noCross_of_last (h : ∀ c ∈ s.getLast?, c ∉ old) : NoCross old s t := by
  intro u v hu _ heq hsuf _
  obtain ⟨r, rfl⟩ := hsuf
  have hlast := List.getLast?_append_of_ne_nil r hu
  have hmem : u.getLast hu ∈ old := by
    rw [heq]
    exact List.mem_append_left v (List.getLast_mem hu)
  refine h (u.getLast hu) ?_ hmem
  rw [hlast, List.getLast?_eq_some_getLast hu]
  rfl

theorem endsInWord_cons {isPart : α → Bool} {before : Bool} (c : α) (w : List α) :
    endsInWord isPart before (c :: w) = endsInWord isPart (isPart c) w := by
  unfold endsInWord
  cases h : w.getLast? with
  | none => simp [List.getLast?_eq_none_iff.mp h]
  | some d => simp [List.getLast?_cons, h]

theorem Unbordered.length_le (h : Unbordered old) (hpre : old <+: s) (hs : s = w ++ (old ++ u))
    (hw : w ≠ []) : old.length ≤ w.length := by
  refine Nat.le_of_not_lt fun hlt => ?_
  have hwpre : w <+: old :=
    List.prefix_of_prefix_length_le ⟨old ++ u, hs.symm⟩ hpre (Nat.le_of_lt hlt)
  obtain ⟨v, hv⟩ := hwpre
  obtain ⟨r, hr⟩ := hpre
  have hrest : v ++ r = old ++ u := by
    rw [hs, ← hv, List.append_assoc] at hr
    rw [← hv]
    exact List.append_cancel_left hr
  have hlen : v.length ≤ old.length := by
    have := congrArg List.length hv
    rw [List.length_append] at this
    omega
  have hprefix : v <+: old :=
    List.prefix_of_prefix_length_le ⟨r, rfl⟩ (hrest ▸ List.prefix_append old u) hlen
  obtain rfl | rfl := h v hprefix ⟨w, hv⟩
  · rw [List.append_nil] at hv
    rw [hv] at hlt
    exact Nat.lt_irrefl _ hlt
  · have hnil : w = [] := List.append_left_eq_self.mp hv
    exact hw hnil

/-- An occurrence at the start of two texts is in the first one. -/
theorem NoCross.length_le (h : NoCross old s t) (hs : s ≠ []) (hold : old <+: s ++ t) :
    old.length ≤ s.length := by
  refine Nat.le_of_not_lt fun hlt => ?_
  obtain ⟨v, rfl⟩ | ⟨v, rfl⟩ := List.prefix_or_prefix_of_prefix hold (List.prefix_append s t)
  · rw [List.length_append] at hlt
    omega
  · have hv : v ≠ [] := by
      intro hv
      simp [hv] at hlt
    refine h s v hs hv rfl (List.suffix_refl s) ?_
    exact (List.prefix_append_right_inj s).mp hold

end

section
variable {old g h s t : List α}

theorem Glue.noCross_left (hg : Glue old g) (s t : List α) : NoCross old s (g ++ t) := by
  refine noCross_of_head fun c hc => hg.first c ?_
  obtain ⟨d, g, rfl⟩ := List.exists_cons_of_ne_nil hg.ne
  exact hc

theorem Glue.noCross_right (hg : Glue old g) (t : List α) : NoCross old g t :=
  noCross_of_last hg.last

theorem not_infix_append (hcross : NoCross old s t) (hs : ¬old <:+: s) (ht : ¬old <:+: t) :
    ¬old <:+: s ++ t := by
  intro ⟨w, u, heq⟩
  rw [List.append_assoc] at heq
  obtain ⟨r, hr, hrest⟩ | ⟨r, hr, hrest⟩ := List.append_eq_append_iff.mp heq
  · obtain ⟨v, rfl, hv⟩ | ⟨v, rfl, hv⟩ := List.append_eq_append_iff.mp hrest
    · exact hs ⟨w, v, by rw [hr, List.append_assoc]⟩
    · obtain rfl | hrne := eq_or_ne r []
      · exact ht ⟨[], u, by simpa using hv.symm⟩
      · obtain rfl | hvne := eq_or_ne v []
        · exact hs ⟨w, [], by rw [hr]; simp⟩
        · exact hcross r v hrne hvne rfl ⟨w, hr.symm⟩ ⟨u, hv.symm⟩
  · exact ht ⟨r, u, by rw [List.append_assoc]; exact hrest.symm⟩

/-- Glue that is followed by more of it. -/
theorem Glue.append (hg : Glue old g) (hh : h = [] ∨ Glue old h) : Glue old (g ++ h) := by
  obtain rfl | hh := hh
  · rwa [List.append_nil]
  · obtain ⟨c, g', rfl⟩ := List.exists_cons_of_ne_nil hg.ne
    refine ⟨List.cons_ne_nil _ _, hg.first, fun d hd => hh.last d ?_, ?_⟩
    · rwa [List.getLast?_append_of_ne_nil _ hh.ne] at hd
    · exact not_infix_append (hg.noCross_right h) hg.none hh.none

end

section
variable [BEq α] [LawfulBEq α] {old new s t u w : List α} {c : α} {k : Nat}

theorem replaceFrom_append (h : NoCross old s t) (hk : k ≤ s.length) :
    replaceFrom old new k (s ++ t) = replaceFrom old new k s ++ replaceFrom old new 0 t := by
  induction s generalizing k with
  | nil =>
    obtain rfl : k = 0 := by simpa using hk
    rfl
  | cons c s ih =>
    cases k with
    | succ k => exact ih h.tail (Nat.le_of_succ_le_succ hk)
    | zero =>
      rw [List.cons_append, replaceFrom, replaceFrom]
      have hiff : old.isPrefixOf (c :: (s ++ t)) = old.isPrefixOf (c :: s) := by
        rw [Bool.eq_iff_iff, List.isPrefixOf_iff_prefix, List.isPrefixOf_iff_prefix]
        refine ⟨fun hpre => ?_, fun hpre => hpre.trans (List.prefix_append (c :: s) t)⟩
        exact List.prefix_of_prefix_length_le hpre (List.prefix_append (c :: s) t)
          (h.length_le (List.cons_ne_nil c s) hpre)
      rw [hiff]
      split
      next hpre =>
        have hlen := (List.isPrefixOf_iff_prefix.mp hpre).length_le
        rw [ih h.tail (by rw [List.length_cons] at hlen; omega), List.append_assoc]
      next => rw [ih h.tail (Nat.zero_le _), List.cons_append]

/-- The parts of a text are rewritten apart if no occurrence crosses from one to the other. -/
theorem replaceAll_append (h : NoCross old s t) :
    replaceAll old new (s ++ t) = replaceAll old new s ++ replaceAll old new t :=
  replaceFrom_append h (Nat.zero_le _)

omit [LawfulBEq α] in
theorem replaceFrom_skip (s t : List α) :
    replaceFrom old new s.length (s ++ t) = replaceFrom old new 0 t := by
  induction s with
  | nil => rfl
  | cons c s ih => exact ih

theorem replaceAll_occurrence (hold : old ≠ []) (t : List α) :
    replaceAll old new (old ++ t) = new ++ replaceAll old new t := by
  obtain ⟨c, rest, rfl⟩ := List.exists_cons_of_ne_nil hold
  rw [replaceAll, List.cons_append, replaceFrom, if_pos (by simp [List.isPrefixOf_iff_prefix])]
  rw [List.length_cons, Nat.add_sub_cancel, replaceFrom_skip]
  rfl

theorem replaceAll_cons (hold : old ≠ []) (hc : old.head? ≠ some c) (s : List α) :
    replaceAll old new (c :: s) = c :: replaceAll old new s := by
  obtain ⟨d, rest, rfl⟩ := List.exists_cons_of_ne_nil hold
  have hpre : ¬(d :: rest).isPrefixOf (c :: s) = true := by
    intro hpre
    obtain ⟨rfl, -⟩ := List.cons_prefix_cons.mp (List.isPrefixOf_iff_prefix.mp hpre)
    exact hc rfl
  rw [replaceAll, replaceFrom, if_neg hpre]
  rfl

theorem replaceAll_of_free (h : ¬old <:+: s) : replaceAll old new s = s := by
  induction s with
  | nil => rfl
  | cons c s ih =>
    have hpre : ¬old.isPrefixOf (c :: s) = true :=
      fun hpre => h (List.isPrefixOf_iff_prefix.mp hpre).isInfix
    rw [replaceAll, replaceFrom, if_neg hpre]
    exact congrArg (c :: ·) (ih fun hs => h (hs.trans (List.suffix_cons c s).isInfix))

/-- What stands on both sides of glue is rewritten apart. -/
theorem replaceAll_glue {g : List α} (hg : Glue old g) (s t : List α) :
    replaceAll old new (s ++ (g ++ t)) = replaceAll old new s ++ (g ++ replaceAll old new t) := by
  rw [replaceAll_append (hg.noCross_left s t), replaceAll_append (hg.noCross_right t),
    replaceAll_of_free hg.none]

theorem replaceAll_glue_first {g : List α} (hg : Glue old g) (t : List α) :
    replaceAll old new (g ++ t) = g ++ replaceAll old new t := replaceAll_glue hg [] t

theorem replaceAll_glue_last {g : List α} (hg : Glue old g) (s : List α) :
    replaceAll old new (s ++ g) = replaceAll old new s ++ g := by
  have h : replaceAll old new (s ++ (g ++ [])) = replaceAll old new s ++ (g ++ []) :=
    replaceAll_glue hg s []
  rwa [List.append_nil] at h

theorem replaceFrom_eq_iff {isPart : α → Bool} {afterPart : Bool} (hold : old ≠ [])
    (hborder : Unbordered old) (hhead : new.head? ≠ old.head?) (hnew : new ≠ []) :
    replaceFrom old new k s = replaceWordsFrom isPart old new afterPart k s ↔
      ∀ w u, s = w ++ (old ++ u) → k ≤ w.length → endsInWord isPart afterPart w = false := by
  induction s generalizing k afterPart with
  | nil => simp [replaceFrom, replaceWordsFrom, hold]
  | cons c s ih =>
    -- what the occurrences after the first character are, seen from there
    have hshift : ∀ {m : Nat}, (∀ w u, s = w ++ (old ++ u) → m ≤ w.length →
          endsInWord isPart (isPart c) w = false) ↔
        ∀ w u, c :: s = w ++ (old ++ u) → m + 1 ≤ w.length →
          endsInWord isPart afterPart w = false := by
      intro m
      refine ⟨fun h w u heq hlen => ?_, fun h w u heq hlen => ?_⟩
      · obtain ⟨d, w, rfl⟩ := List.exists_cons_of_length_pos (Nat.lt_of_lt_of_le m.succ_pos hlen)
        obtain ⟨hc, htail⟩ := List.cons.inj heq
        rw [endsInWord_cons, ← hc]
        exact h w u htail (Nat.le_of_succ_le_succ hlen)
      · have hend := h (c :: w) u (by rw [heq]; rfl) (Nat.succ_le_succ hlen)
        rwa [endsInWord_cons] at hend
    cases k with
    | succ k => rw [replaceFrom, replaceWordsFrom, ih, hshift]
    | zero =>
      rw [replaceFrom, replaceWordsFrom]
      by_cases hpre : old.isPrefixOf (c :: s) = true
      · obtain ⟨u, hu⟩ := List.isPrefixOf_iff_prefix.mp hpre
        cases afterPart with
        | false =>
          have hpos := List.length_pos_of_ne_nil hold
          rw [if_pos hpre, if_pos (by simpa using hpre), List.append_cancel_left_eq, ih, hshift]
          refine ⟨fun h w u' heq _ => ?_, fun h w u' heq _ => h w u' heq (Nat.zero_le _)⟩
          obtain rfl | hw := eq_or_ne w []
          · rfl
          · have := hborder.length_le ⟨u, hu⟩ heq hw
            exact h w u' heq (by omega)
        | true =>
          rw [if_pos hpre, if_neg (by simp)]
          refine ⟨fun h => ?_, fun h => ?_⟩
          · obtain ⟨d, new, rfl⟩ := List.exists_cons_of_ne_nil hnew
            obtain ⟨rfl, -⟩ := List.cons.inj h
            obtain ⟨e, old, rfl⟩ := List.exists_cons_of_ne_nil hold
            obtain ⟨rfl, -⟩ := List.cons.inj hu
            exact absurd rfl hhead
          · exact absurd (h [] u hu.symm (Nat.zero_le _)) (by simp [endsInWord])
      · rw [if_neg hpre, if_neg (by simp [hpre]), List.cons_eq_cons, ih, hshift]
        refine ⟨fun h w u heq _ => ?_, fun h => ⟨rfl, fun w u heq _ => h w u heq (Nat.zero_le _)⟩⟩
        obtain rfl | hw := eq_or_ne w []
        · exact absurd (List.isPrefixOf_iff_prefix.mpr ⟨u, heq.symm⟩) hpre
        · exact h.2 w u heq (List.length_pos_of_ne_nil hw)

/-- All occurrences are rewritten like those of words exactly if all are words. -/
theorem replaceAll_eq_iff {isPart : α → Bool} (hold : old ≠ []) (hborder : Unbordered old)
    (hhead : new.head? ≠ old.head?) (hnew : new ≠ []) :
    replaceAll old new s = replaceWords isPart old new s ↔ WordOccurrences isPart old s := by
  rw [replaceAll, replaceWords, replaceFrom_eq_iff hold hborder hhead hnew]
  exact ⟨fun h w u heq => h w u heq (Nat.zero_le _), fun h w u heq _ => h w u heq⟩

end

end LoomX
