import LoomX.EditDistance.EditScript

namespace LoomX.EditDistance

variable {α : Type}

/-- `LevenshteinStack`: keys with their values. -/
abbrev LevenshteinStack (α : Type) := List (α × Nat)

namespace LevenshteinStack

variable [DecidableEq α]

def uniquePushZero (s : LevenshteinStack α) (key : α) : LevenshteinStack α :=
  if s.any (·.1 = key) then s else (key, 0) :: s

/-- `operator[]` as it is read; a key that is missing aborts. -/
def get : LevenshteinStack α → α → Option Nat
  | [], _ => none
  | (k, v) :: s, key => if k = key then some v else get s key

/-- `operator[]` as it is assigned. -/
def assign : LevenshteinStack α → α → Nat → Option (LevenshteinStack α)
  | [], _, _ => none
  | (k, v) :: s, key, value =>
    if k = key then some ((k, value) :: s) else (assign s key value).map ((k, v) :: ·)

/-- The stack with the elements of both vectors. -/
def pushAll (src tgt : List α) : LevenshteinStack α :=
  tgt.foldl uniquePushZero (src.foldl uniquePushZero [])

theorem any_iff_get (s : LevenshteinStack α) (key : α) :
    s.any (·.1 = key) = true ↔ s.get key ≠ none := by
  induction s with
  | nil => simp [get]
  | cons p s ih =>
    obtain ⟨k, v⟩ := p
    rw [List.any_cons, get]
    split
    next hk => simp [hk]
    next hk => simpa [hk] using ih

theorem get_uniquePushZero (s : LevenshteinStack α) (key b : α) :
    (s.uniquePushZero key).get b = if key = b ∧ s.get b = none then some 0 else s.get b := by
  unfold uniquePushZero
  split
  next hany =>
    rw [if_neg]
    rintro ⟨rfl, hnone⟩
    exact (any_iff_get s key).mp hany hnone
  next hany =>
    have hnone : s.get key = none := by
      by_contra hsome
      exact hany ((any_iff_get s key).mpr hsome)
    rw [get]
    by_cases hk : key = b
    · subst hk
      simp [hnone]
    · simp [hk]

/-- Every key that is pushed is there, with the value zero. -/
theorem get_foldl {s : LevenshteinStack α} (hs : ∀ b, s.get b = none ∨ s.get b = some 0)
    (keys : List α) (b : α) :
    (keys.foldl uniquePushZero s).get b = if b ∈ keys then some 0 else s.get b := by
  induction keys generalizing s with
  | nil => simp
  | cons key keys ih =>
    have hpush : ∀ c, (s.uniquePushZero key).get c = none ∨ (s.uniquePushZero key).get c = some 0 := by
      intro c
      rw [get_uniquePushZero]
      split
      next => exact Or.inr rfl
      next => exact hs c
    rw [List.foldl_cons, ih hpush, get_uniquePushZero]
    by_cases hmem : b ∈ keys
    · simp [hmem]
    · by_cases hb : key = b
      · subst hb
        rcases hs key with hnone | hzero
        · simp [hnone]
        · simp [hzero]
      · have hne : ¬ b = key := fun h => hb h.symm
        simp [hmem, hb, hne]

theorem get_pushAll {src tgt : List α} {b : α} (h : b ∈ src ∨ b ∈ tgt) :
    (pushAll src tgt).get b = some 0 := by
  have hsrc := get_foldl (s := ([] : LevenshteinStack α)) (fun _ => Or.inl rfl) src
  rw [pushAll, get_foldl, hsrc]
  · split
    next => rfl
    next htgt => rw [if_pos (h.resolve_right htgt)]
  · intro c
    rw [hsrc]
    split
    next => exact Or.inr rfl
    next => exact Or.inl rfl

theorem assign_of_get {s : LevenshteinStack α} {key : α} (h : s.get key ≠ none) (value : Nat) :
    ∃ s', s.assign key value = some s' ∧
      ∀ b, s'.get b = if key = b then some value else s.get b := by
  induction s with
  | nil => exact absurd rfl h
  | cons p s ih =>
    obtain ⟨k, v⟩ := p
    rw [get] at h
    by_cases hk : k = key
    · subst hk
      refine ⟨(k, value) :: s, if_pos rfl, fun b => ?_⟩
      rw [get, get]
      split <;> rfl
    · rw [if_neg hk] at h
      obtain ⟨s', hs', hget⟩ := ih h
      refine ⟨(k, v) :: s', by rw [assign, if_neg hk, hs']; rfl, fun b => ?_⟩
      rw [get, get]
      by_cases hb : k = b
      · subst hb
        have hne : ¬ key = k := fun heq => hk heq.symm
        simp [hne]
      · simp [hb, hget]

end LevenshteinStack

/-- `score`, which has a row and a column before those of the empty vectors. -/
abbrev Table := Nat → Nat → Nat

namespace Table

/-- The table before the loops; the further entries are zero. -/
def initial (x y : Nat) : Table
  | 0, _ => x + y
  | _, 0 => x + y
  | i + 1, 1 => i
  | 1, j + 1 => j
  | _, _ => 0

def set (t : Table) (i j value : Nat) : Table := fun i' j' =>
  if i' = i ∧ j' = j then value else t i' j'

/-- The entry for the elements with the numbers `i` and `j`, without swaps. -/
def edited (t : Table) (i j : Nat) (same : Bool) : Nat :=
  if same then t i j else min (t i j) (min (t (i + 1) j) (t i (j + 1))) + 1

end Table

section

variable [DecidableEq α]

/-- The inner loop from the column `j` on, for the row `i` of the element `a`. -/
def levenshteinColumns (a : α) (i : Nat) : Nat → List α → Table → Table
  | _, [], score => score
  | j, b :: tgt, score =>
    levenshteinColumns a i (j + 1) tgt (score.set (i + 1) (j + 1) (score.edited i j (a = b)))

/-- The outer loop from the row `i` on. -/
def levenshteinRows (tgt : List α) : Nat → List α → Table → LevenshteinStack α → Option Table
  | _, [], score, _ => some score
  | i, a :: src, score, dict => do
    let dict ← dict.assign a i
    levenshteinRows tgt (i + 1) src (levenshteinColumns a i 1 tgt score) dict

def levenshteinDistance (src tgt : List α) : Option Nat :=
  if src = [] ∨ tgt = [] then some (max src.length tgt.length)
  else do
    let score ← levenshteinRows tgt 1 src (.initial src.length tgt.length) (.pushAll src tgt)
    return score (src.length + 1) (tgt.length + 1)

end

section

variable {swaps : Prop} {a b : List α} {x y : α} {n d d₁ d₂ d₃ : Nat}

/-- The least number of edits by blocks. -/
def Least (swaps : Prop) (a b : List α) (d : Nat) : Prop := IsLeast {n | Blocks swaps a b n} d

theorem Least.le_of_within (h : Least swaps a b d) (hwithin : Within swaps a b n) : d ≤ n := by
  obtain ⟨m, hm, hblocks⟩ := hwithin
  exact (h.2 hblocks).trans hm

theorem Least.within (h : Least swaps a b d) : Within swaps a b d := Blocks.within h.1

theorem least_of_within (h : Within swaps a b d) (hle : ∀ n, Blocks swaps a b n → d ≤ n) :
    Least swaps a b d := by
  obtain ⟨m, hm, hblocks⟩ := h
  have heq := le_antisymm hm (hle m hblocks)
  exact ⟨heq ▸ hblocks, fun n hn => hle n hn⟩

theorem Blocks.length_le (h : Blocks swaps a b n) : b.length ≤ a.length + n := by
  induction h with
  | nil => simp
  | swap x y u v _ _ ih =>
    simp only [List.length_cons, List.length_append]
    omega
  | _ =>
    simp only [List.length_cons]
    omega

theorem least_nil_left (b : List α) : Least swaps [] b b.length := by
  refine least_of_within ?_ fun n hn => by simpa using hn.length_le
  simpa using Blocks.nil.within.insertAll b

theorem least_nil_right (a : List α) : Least swaps a [] a.length := by
  refine least_of_within ?_ fun n hn => by simpa using hn.symm.length_le
  simpa using Blocks.nil.within.deleteAll a

theorem Blocks.cons_cons_cases (h : Blocks swaps (x :: a) (y :: b) n) :
    x = y ∧ Blocks swaps a b n ∨
      (∃ m, n = m + 1 ∧ (Blocks swaps a b m ∨ Blocks swaps a (y :: b) m ∨
        Blocks swaps (x :: a) b m)) ∨
      (swaps ∧ ∃ u v a' b' m, a = u ++ y :: a' ∧ b = v ++ x :: b' ∧ Blocks swaps a' b' m ∧
        n = m + u.length + v.length + 1) := by
  generalize hs : x :: a = s at h
  generalize ht : y :: b = t at h
  cases h with
  | nil => cases hs
  | keep z h =>
    cases hs
    cases ht
    exact Or.inl ⟨rfl, h⟩
  | substitute _ _ h =>
    cases hs
    cases ht
    exact Or.inr (Or.inl ⟨_, rfl, Or.inl h⟩)
  | delete _ h =>
    cases hs
    subst ht
    exact Or.inr (Or.inl ⟨_, rfl, Or.inr (Or.inl h)⟩)
  | insert _ h =>
    cases ht
    subst hs
    exact Or.inr (Or.inl ⟨_, rfl, Or.inr (Or.inr h)⟩)
  | swap _ _ u v hswaps h =>
    cases hs
    cases ht
    exact Or.inr (Or.inr ⟨hswaps, u, v, _, _, _, rfl, rfl, h, rfl⟩)

/-- The same first element on both sides may as well be kept. -/
theorem Blocks.keep_inv (h : Blocks swaps (x :: a) (x :: b) n) : Within swaps a b n := by
  rcases h.cons_cons_cases with ⟨-, hrest⟩ | ⟨m, hn, hrest | hrest | hrest⟩ |
    ⟨-, u, v, a', b', m, rfl, rfl, hrest, hn⟩
  · exact hrest.within
  · exact hrest.within.mono (by omega)
  · exact hrest.tail.mono (by omega)
  · exact hrest.symm.tail.symm.mono (by omega)
  · have hkept := ((hrest.within.keep x).deleteAll u).insertAll v
    exact hkept.mono (by omega)

end

section

variable [DecidableEq α] {swaps : Prop} {a b : List α} {x y : α} {n i j : Nat} {t : Table}

section

variable (hd : Least swaps a b (t i j)) (h₁ : Least swaps (x :: a) b (t (i + 1) j))
  (h₂ : Least swaps a (y :: b) (t i (j + 1)))
include hd h₁ h₂

theorem within_edited : Within swaps (x :: a) (y :: b) (t.edited i j (x = y)) := by
  unfold Table.edited
  split
  next hsame =>
    cases of_decide_eq_true hsame
    exact hd.within.keep x
  next =>
    rcases Nat.le_total (t i j) (min (t (i + 1) j) (t i (j + 1))) with hle | hle
    · rw [Nat.min_eq_left hle]
      exact hd.within.substitute x y
    · rw [Nat.min_eq_right hle]
      rcases Nat.le_total (t (i + 1) j) (t i (j + 1)) with hle | hle
      · rw [Nat.min_eq_left hle]
        exact h₁.within.insert y
      · rw [Nat.min_eq_right hle]
        exact h₂.within.delete x

/-- The entry is least unless a block swaps the first elements. -/
theorem edited_le (h : Blocks swaps (x :: a) (y :: b) n) : t.edited i j (x = y) ≤ n ∨
      (swaps ∧ ∃ u v a' b' m, a = u ++ y :: a' ∧ b = v ++ x :: b' ∧ Blocks swaps a' b' m ∧
        n = m + u.length + v.length + 1) := by
  by_cases hsame : x = y
  · subst hsame
    have hle := hd.le_of_within h.keep_inv
    exact Or.inl (by simpa [Table.edited] using hle)
  · rcases h.cons_cons_cases with ⟨hxy, -⟩ | ⟨m, hn, hrest⟩ | hswap
    · exact absurd hxy hsame
    · refine Or.inl ?_
      simp only [Table.edited, hsame, decide_false, Bool.false_eq_true, if_false]
      rcases hrest with hrest | hrest | hrest
      · have hle := hd.2 hrest
        omega
      · have hle := h₂.2 hrest
        omega
      · have hle := h₁.2 hrest
        omega
    · exact Or.inr hswap

end

end

section

/-- The entries before the row `i`, and those of the row before the column `j`, are least. -/
structure Filled (swaps : Prop) (src tgt : List α) (i j : Nat) (t : Table) : Prop where
  ceilRow : ∀ c, t 0 c = src.length + tgt.length
  ceilColumn : ∀ r, t r 0 = src.length + tgt.length
  entry : ∀ r c, r ≤ src.length → c ≤ tgt.length → (r < i ∨ c = 0 ∨ r = i ∧ c < j) →
    Least swaps (src.take r).reverse (tgt.take c).reverse (t (r + 1) (c + 1))

variable {swaps : Prop} {src tgt : List α} {value i j : Nat} {t : Table}

theorem filled_initial (src tgt : List α) :
    Filled swaps src tgt 1 1 (.initial src.length tgt.length) where
  ceilRow c := rfl
  ceilColumn r := by cases r <;> rfl
  entry r c hr hc hdone := by
    rcases Nat.eq_zero_or_pos c with rfl | hpos
    · have hleast : Least swaps (src.take r).reverse [] (src.take r).reverse.length :=
        least_nil_right _
      have hlength : (src.take r).reverse.length = r := by simp [hr]
      rw [hlength] at hleast
      cases r <;> exact hleast
    · have hzero : r = 0 := by omega
      subst hzero
      have hleast : Least swaps [] (tgt.take c).reverse (tgt.take c).reverse.length :=
        least_nil_left _
      have hlength : (tgt.take c).reverse.length = c := by simp [hc]
      rw [hlength] at hleast
      cases c with
      | zero => exact hleast
      | succ c => exact hleast

theorem Filled.set (h : Filled swaps src tgt i j t)
    (hvalue : Least swaps (src.take i).reverse (tgt.take j).reverse value) :
    Filled swaps src tgt i (j + 1) (t.set (i + 1) (j + 1) value) where
  ceilRow c := by
    rw [Table.set, if_neg (by omega), h.ceilRow]
  ceilColumn r := by
    rw [Table.set, if_neg (by omega), h.ceilColumn]
  entry r c hr hc hdone := by
    rw [Table.set]
    by_cases hnew : r = i ∧ c = j
    · obtain ⟨rfl, rfl⟩ := hnew
      simpa using hvalue
    · rw [if_neg (by omega)]
      exact h.entry r c hr hc (by omega)

theorem Filled.nextRow (h : Filled swaps src tgt i (tgt.length + 1) t) :
    Filled swaps src tgt (i + 1) 1 t where
  ceilRow := h.ceilRow
  ceilColumn := h.ceilColumn
  entry r c hr hc hdone := h.entry r c hr hc (by omega)

/-- The last entry is the distance. -/
theorem Filled.isLeast (h : Filled swaps src tgt (src.length + 1) 1 t) :
    IsLeast {k | Script swaps k src tgt} (t (src.length + 1) (tgt.length + 1)) := by
  have hleast := h.entry src.length tgt.length le_rfl le_rfl (Or.inl (Nat.lt_succ_self _))
  rw [List.take_length, List.take_length] at hleast
  have hscript := isLeast_script_iff.mpr hleast
  simpa only [script_reverse_iff] using hscript

variable {a b : α} {doneS restS doneT restT : List α}

theorem reverse_take (done : List α) (a : α) (rest : List α) :
    ((done ++ a :: rest).take done.length).reverse = done.reverse ∧
      ((done ++ a :: rest).take (done.length + 1)).reverse = a :: done.reverse := by
  constructor
  · rw [List.take_left']
    rfl
  · rw [List.append_cons, List.take_left' (by simp), List.reverse_append]
    rfl

/-- The entries that the one for the elements `a` and `b` is made from. -/
theorem Filled.around (hsrc : src = doneS ++ a :: restS) (htgt : tgt = doneT ++ b :: restT)
    (h : Filled swaps src tgt (doneS.length + 1) (doneT.length + 1) t) :
    Least swaps doneS.reverse doneT.reverse (t (doneS.length + 1) (doneT.length + 1)) ∧
      Least swaps (a :: doneS.reverse) doneT.reverse
        (t (doneS.length + 1 + 1) (doneT.length + 1)) ∧
      Least swaps doneS.reverse (b :: doneT.reverse)
        (t (doneS.length + 1) (doneT.length + 1 + 1)) := by
  obtain ⟨hS, hS'⟩ := reverse_take doneS a restS
  obtain ⟨hT, hT'⟩ := reverse_take doneT b restT
  rw [← hsrc] at hS hS'
  rw [← htgt] at hT hT'
  have hrow : doneS.length + 1 ≤ src.length := by simp [hsrc]
  have hcolumn : doneT.length + 1 ≤ tgt.length := by simp [htgt]
  refine ⟨?_, ?_, ?_⟩
  · have hentry := h.entry doneS.length doneT.length (by omega) (by omega) (by omega)
    rwa [hS, hT] at hentry
  · have hentry := h.entry (doneS.length + 1) doneT.length (by omega) (by omega) (by omega)
    rwa [hS', hT] at hentry
  · have hentry := h.entry doneS.length (doneT.length + 1) (by omega) (by omega) (by omega)
    rwa [hS, hT'] at hentry

theorem Filled.next (hsrc : src = doneS ++ a :: restS) (htgt : tgt = doneT ++ b :: restT)
    (h : Filled swaps src tgt (doneS.length + 1) (doneT.length + 1) t)
    (hvalue : Least swaps (a :: doneS.reverse) (b :: doneT.reverse) value) :
    Filled swaps src tgt (doneS.length + 1) ((doneT ++ [b]).length + 1)
      (t.set (doneS.length + 1 + 1) (doneT.length + 1 + 1) value) := by
  rw [List.length_append, List.length_singleton]
  refine h.set ?_
  rw [hsrc, htgt, (reverse_take doneS a restS).2, (reverse_take doneT b restT).2]
  exact hvalue

end

section

variable [DecidableEq α] {a : α} {src tgt restS restT : List α} {t : Table}

theorem filled_levenshteinColumns (doneS doneT : List α) (hsrc : src = doneS ++ a :: restS)
    (htgt : tgt = doneT ++ restT)
    (h : Filled False src tgt (doneS.length + 1) (doneT.length + 1) t) :
    Filled False src tgt (doneS.length + 1) (tgt.length + 1)
      (levenshteinColumns a (doneS.length + 1) (doneT.length + 1) restT t) := by
  induction restT generalizing doneT t with
  | nil =>
    rw [List.append_nil] at htgt
    subst htgt
    exact h
  | cons b restT ih =>
    obtain ⟨hd, h₁, h₂⟩ := h.around hsrc htgt
    have hvalue : Least False (a :: doneS.reverse) (b :: doneT.reverse)
        (t.edited (doneS.length + 1) (doneT.length + 1) (a = b)) :=
      least_of_within (within_edited hd h₁ h₂) fun n hn =>
        (edited_le hd h₁ h₂ hn).resolve_right fun hswap => hswap.1
    have hnext := ih (doneT ++ [b]) (by simp [htgt]) (h.next hsrc htgt hvalue)
    rwa [List.length_append, List.length_singleton] at hnext

theorem filled_levenshteinRows (doneS : List α) {dict : LevenshteinStack α}
    (hsrc : src = doneS ++ restS) (hdict : ∀ a ∈ restS, dict.get a ≠ none)
    (h : Filled False src tgt (doneS.length + 1) 1 t) :
    ∃ t', levenshteinRows tgt (doneS.length + 1) restS t dict = some t' ∧
      Filled False src tgt (src.length + 1) 1 t' := by
  induction restS generalizing doneS t dict with
  | nil =>
    rw [List.append_nil] at hsrc
    subst hsrc
    exact ⟨t, rfl, h⟩
  | cons a restS ih =>
    obtain ⟨dict', hassign, hget⟩ :=
      LevenshteinStack.assign_of_get (hdict a List.mem_cons_self) (doneS.length + 1)
    have hdict' : ∀ c ∈ restS, dict'.get c ≠ none := by
      intro c hc
      rw [hget]
      split
      next => simp
      next => exact hdict c (List.mem_cons_of_mem a hc)
    have hrow := filled_levenshteinColumns doneS [] hsrc rfl h
    obtain ⟨t', ht', hfilled⟩ := ih (doneS ++ [a]) (by simp [hsrc]) hdict'
      (by simpa using hrow.nextRow)
    refine ⟨t', ?_, hfilled⟩
    rw [levenshteinRows, hassign]
    simpa using ht'

/-- The result is the least number of insertions, deletions and substitutions. -/
theorem levenshteinDistance_exact (src tgt : List α) :
    ∃ d, levenshteinDistance src tgt = some d ∧ IsLeast {k | Script False k src tgt} d := by
  unfold levenshteinDistance
  split
  next hempty =>
    refine ⟨_, rfl, isLeast_script_iff.mpr ?_⟩
    rcases hempty with rfl | rfl
    · rw [List.length_nil, Nat.zero_max]
      exact least_nil_left tgt
    · rw [List.length_nil, Nat.max_zero]
      exact least_nil_right src
  next =>
    have hdict : ∀ a ∈ src, (LevenshteinStack.pushAll src tgt).get a ≠ none := by
      intro a ha
      simp [LevenshteinStack.get_pushAll (Or.inl ha)]
    obtain ⟨t, ht, hfilled⟩ := filled_levenshteinRows [] rfl hdict
      (filled_initial src tgt)
    refine ⟨_, ?_, hfilled.isLeast⟩
    have hrows : levenshteinRows tgt 1 src (.initial src.length tgt.length) (.pushAll src tgt) =
        some t := ht
    rw [hrows]
    rfl

end

end LoomX.EditDistance
