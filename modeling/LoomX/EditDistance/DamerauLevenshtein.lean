import LoomX.EditDistance.Levenshtein

namespace LoomX.EditDistance

variable {α : Type}

/-- The entry with a swap of the elements `i` and `i₁` of the source for `j₁` and `j` of the
target; those between are deleted and inserted. The earlier numbers are less, so nothing wraps. -/
def Table.swapped (t : Table) (i j i₁ j₁ : Nat) : Nat := t i₁ j₁ + (i - i₁ - 1) + 1 + (j - j₁ - 1)

section

variable [DecidableEq α]

/-- The inner loop from the column `j` on; `db` is the last column before with the element `a`. -/
def damerauColumns (dict : LevenshteinStack α) (a : α) (i : Nat) :
    Nat → List α → Nat → Table → Option Table
  | _, [], _, score => some score
  | j, b :: tgt, db, score => do
    let i₁ ← dict.get b
    let value := min (score.edited i j (a = b)) (score.swapped i j i₁ db)
    damerauColumns dict a i (j + 1) tgt (if a = b then j else db) (score.set (i + 1) (j + 1) value)

/-- The outer loop from the row `i` on. -/
def damerauRows (tgt : List α) : Nat → List α → Table → LevenshteinStack α → Option Table
  | _, [], score, _ => some score
  | i, a :: src, score, dict => do
    let score ← damerauColumns dict a i 1 tgt 0 score
    let dict ← dict.assign a i
    damerauRows tgt (i + 1) src score dict

def damerauLevenshteinDistance (src tgt : List α) : Option Nat :=
  if src = [] ∨ tgt = [] then some (max src.length tgt.length)
  else do
    let score ← damerauRows tgt 1 src (.initial src.length tgt.length) (.pushAll src tgt)
    return score (src.length + 1) (tgt.length + 1)

end

/-- The number of the last element that is `b`, of those that are listed from the last one on. -/
def Seen (l : List α) (b : α) (k : Nat) : Prop :=
  b ∉ l ∧ k = 0 ∨ ∃ u rest, l = u ++ b :: rest ∧ b ∉ u ∧ k = rest.length + 1

theorem seen_nil (b : α) : Seen [] b 0 := Or.inl ⟨List.not_mem_nil, rfl⟩

theorem Seen.cons [DecidableEq α] {l : List α} {b : α} {k : Nat} (h : Seen l b k) (c : α) :
    Seen (c :: l) b (if c = b then l.length + 1 else k) := by
  split
  next heq =>
    subst heq
    exact Or.inr ⟨[], l, rfl, List.not_mem_nil, rfl⟩
  next hne =>
    have hne' : ¬ b = c := fun heq => hne heq.symm
    rcases h with ⟨hmem, rfl⟩ | ⟨u, rest, rfl, hmem, rfl⟩
    · exact Or.inl ⟨by simp [hmem, hne'], rfl⟩
    · exact Or.inr ⟨c :: u, rest, rfl, by simp [hmem, hne'], rfl⟩

/-- What follows the first occurrence of an element ends as what follows any occurrence. -/
theorem append_of_first {b : α} {u u' rest rest' : List α} (hmem : b ∉ u)
    (h : u ++ b :: rest = u' ++ b :: rest') :
    ∃ w, rest = w ++ rest' ∧ u'.length = u.length + w.length := by
  induction u generalizing u' with
  | nil =>
    cases u' with
    | nil =>
      cases h
      exact ⟨[], rfl, rfl⟩
    | cons c u' =>
      cases h
      exact ⟨u' ++ [b], by simp, by simp⟩
  | cons c u ih =>
    cases u' with
    | nil =>
      cases h
      exact absurd List.mem_cons_self hmem
    | cons c' u' =>
      obtain ⟨hc, hrest⟩ := List.cons.inj h
      obtain ⟨w, hw, hlength⟩ := ih (fun hb => hmem (List.mem_cons_of_mem c hb)) hrest
      refine ⟨w, hw, ?_⟩
      rw [List.length_cons, List.length_cons, hlength]
      omega

theorem Within.all {swaps : Prop} (a b : List α) : Within swaps a b (a.length + b.length) := by
  have hnil : Within swaps ([] : List α) [] 0 := Blocks.nil.within
  have hall := (hnil.insertAll b).deleteAll a
  rw [List.append_nil, List.append_nil] at hall
  exact hall.mono (by omega)

section

variable {a b : List α} {x y : α} {i₁ j₁ : Nat} {t : Table}

section

variable (hbefore : ∀ u v a' b', a = u ++ y :: a' → b = v ++ x :: b' →
  Least True a' b' (t (a'.length + 1) (b'.length + 1)))
  (hi : Seen a y i₁) (hj : Seen b x j₁)
include hbefore hi hj

theorem within_swapped (hrow : ∀ c, a.length + b.length + 2 ≤ t 0 c)
    (hcolumn : ∀ r, a.length + b.length + 2 ≤ t r 0) :
    Within True (x :: a) (y :: b) (t.swapped (a.length + 1) (b.length + 1) i₁ j₁) := by
  have hall : Within True (x :: a) (y :: b) _ := .all (x :: a) (y :: b)
  rw [List.length_cons, List.length_cons] at hall
  unfold Table.swapped
  rcases hi with ⟨-, rfl⟩ | ⟨u, a', hu, hmemu, rfl⟩
  · have hceil := hrow j₁
    exact hall.mono (by omega)
  · rcases hj with ⟨-, rfl⟩ | ⟨v, b', hv, hmemv, rfl⟩
    · have hceil := hcolumn (a'.length + 1)
      exact hall.mono (by omega)
    · have hswap := (hbefore u v a' b' hu hv).within.swap x y u v trivial
      rw [← hu, ← hv] at hswap
      refine hswap.mono ?_
      rw [hu, hv]
      simp only [List.length_append, List.length_cons]
      omega

/-- A swap with the last elements that it is possible with is best. -/
theorem swapped_le {u v a' b' : List α} {m : Nat} (hu : a = u ++ y :: a') (hv : b = v ++ x :: b')
    (h : Blocks True a' b' m) :
    t.swapped (a.length + 1) (b.length + 1) i₁ j₁ ≤ m + u.length + v.length + 1 := by
  rcases hi with ⟨hmem, -⟩ | ⟨u₀, a₀, hu₀, hmemu, rfl⟩
  · exact absurd (by simp [hu]) hmem
  rcases hj with ⟨hmem, -⟩ | ⟨v₀, b₀, hv₀, hmemv, rfl⟩
  · exact absurd (by simp [hv]) hmem
  obtain ⟨w, hw, hlengthu⟩ := append_of_first hmemu (hu₀.symm.trans hu)
  obtain ⟨z, hz, hlengthv⟩ := append_of_first hmemv (hv₀.symm.trans hv)
  have hwithin := (h.within.insertAll z).deleteAll w
  rw [← hw, ← hz] at hwithin
  have hle := (hbefore u₀ v₀ a₀ b₀ hu₀ hv₀).le_of_within hwithin
  have hlengtha := congrArg List.length hu₀
  have hlengthb := congrArg List.length hv₀
  simp only [List.length_append, List.length_cons] at hlengtha hlengthb
  unfold Table.swapped
  omega

theorem least_damerau [DecidableEq α] (hrow : ∀ c, a.length + b.length + 2 ≤ t 0 c)
    (hcolumn : ∀ r, a.length + b.length + 2 ≤ t r 0)
    (hd : Least True a b (t (a.length + 1) (b.length + 1)))
    (h₁ : Least True (x :: a) b (t (a.length + 1 + 1) (b.length + 1)))
    (h₂ : Least True a (y :: b) (t (a.length + 1) (b.length + 1 + 1))) :
    Least True (x :: a) (y :: b) (min (t.edited (a.length + 1) (b.length + 1) (x = y))
      (t.swapped (a.length + 1) (b.length + 1) i₁ j₁)) := by
  refine least_of_within ?_ fun n hn => ?_
  · rcases Nat.le_total (t.edited (a.length + 1) (b.length + 1) (x = y))
      (t.swapped (a.length + 1) (b.length + 1) i₁ j₁) with hle | hle
    · rw [Nat.min_eq_left hle]
      exact within_edited hd h₁ h₂
    · rw [Nat.min_eq_right hle]
      exact within_swapped hbefore hi hj hrow hcolumn
  · rcases edited_le hd h₁ h₂ hn with hle | ⟨-, u, v, a', b', m, hu, hv, hblocks, rfl⟩
    · exact (Nat.min_le_left _ _).trans hle
    · exact (Nat.min_le_right _ _).trans (swapped_le hbefore hi hj hu hv hblocks)

end

end

section

variable {src tgt restS restT p q : List α} {i j : Nat} {a : α} {t : Table}

/-- An entry for prefixes of the vectors, of which the one of the source ends before the row. -/
theorem Filled.before (hsrc : src = p.reverse ++ restS) (htgt : tgt = q.reverse ++ restT)
    (h : Filled True src tgt i j t) (hp : p.length < i) :
    Least True p q (t (p.length + 1) (q.length + 1)) := by
  have hentry := h.entry p.length q.length (by simp [hsrc]) (by simp [htgt]) (Or.inl hp)
  rw [hsrc, htgt, List.take_left' (by simp), List.take_left' (by simp)] at hentry
  simpa using hentry

variable [DecidableEq α] {dict : LevenshteinStack α}

omit [DecidableEq α] in
theorem reverse_eq_append {l u rest : List α} {b : α} (h : l.reverse = u ++ b :: rest) :
    l = rest.reverse ++ b :: u.reverse := by
  rw [← List.reverse_reverse l, h]
  simp

/-- The entry that the inner loop makes is least. -/
theorem Filled.damerau {doneS doneT : List α} {b : α} (hsrc : src = doneS ++ a :: restS)
    (htgt : tgt = doneT ++ b :: restT) {i₁ db : Nat} (hi : Seen doneS.reverse b i₁)
    (hdb : Seen doneT.reverse a db)
    (h : Filled True src tgt (doneS.length + 1) (doneT.length + 1) t) :
    Least True (a :: doneS.reverse) (b :: doneT.reverse)
      (min (t.edited (doneS.length + 1) (doneT.length + 1) (a = b))
        (t.swapped (doneS.length + 1) (doneT.length + 1) i₁ db)) := by
  obtain ⟨hd, h₁, h₂⟩ := h.around hsrc htgt
  have hlengthS : doneS.length + 1 ≤ src.length := by simp [hsrc]
  have hlengthT : doneT.length + 1 ≤ tgt.length := by simp [htgt]
  have hbefore : ∀ u v a' b', doneS.reverse = u ++ b :: a' → doneT.reverse = v ++ a :: b' →
      Least True a' b' (t (a'.length + 1) (b'.length + 1)) := by
    intro u v a' b' hu hv
    have hu' := reverse_eq_append hu
    have hv' := reverse_eq_append hv
    rw [hu', List.append_assoc] at hsrc
    rw [hv', List.append_assoc] at htgt
    refine h.before hsrc htgt ?_
    rw [hu', List.length_append, List.length_reverse]
    omega
  have hleast := least_damerau (t := t) hbefore hi hdb
    (fun c => by rw [h.ceilRow, List.length_reverse, List.length_reverse]; omega)
    (fun r => by rw [h.ceilColumn, List.length_reverse, List.length_reverse]; omega)
  simp only [List.length_reverse] at hleast
  exact hleast hd h₁ h₂

theorem filled_damerauColumns (doneS doneT : List α) (hsrc : src = doneS ++ a :: restS)
    (htgt : tgt = doneT ++ restT)
    (hdict : ∀ b ∈ restT, ∃ k, dict.get b = some k ∧ Seen doneS.reverse b k) {db : Nat}
    (hdb : Seen doneT.reverse a db)
    (h : Filled True src tgt (doneS.length + 1) (doneT.length + 1) t) :
    ∃ t', damerauColumns dict a (doneS.length + 1) (doneT.length + 1) restT db t = some t' ∧
      Filled True src tgt (doneS.length + 1) (tgt.length + 1) t' := by
  induction restT generalizing doneT t db with
  | nil =>
    rw [List.append_nil] at htgt
    subst htgt
    exact ⟨t, rfl, h⟩
  | cons b restT ih =>
    obtain ⟨i₁, hget, hi⟩ := hdict b List.mem_cons_self
    have hvalue := h.damerau hsrc htgt hi hdb
    have hdb' : Seen (doneT ++ [b]).reverse a (if a = b then doneT.length + 1 else db) := by
      have hcons := hdb.cons b
      simp only [List.length_reverse, eq_comm (a := b)] at hcons
      rw [List.reverse_append]
      exact hcons
    obtain ⟨t', ht', hfilled⟩ := ih (doneT ++ [b]) (by simp [htgt])
      (fun c hc => hdict c (List.mem_cons_of_mem b hc)) hdb' (h.next hsrc htgt hvalue)
    refine ⟨t', ?_, hfilled⟩
    rw [damerauColumns, hget]
    rw [List.length_append, List.length_singleton] at ht'
    exact ht'

theorem filled_damerauRows (doneS : List α) (hsrc : src = doneS ++ restS)
    (hdict : ∀ b, b ∈ restS ∨ b ∈ tgt → ∃ k, dict.get b = some k ∧ Seen doneS.reverse b k)
    (h : Filled True src tgt (doneS.length + 1) 1 t) :
    ∃ t', damerauRows tgt (doneS.length + 1) restS t dict = some t' ∧
      Filled True src tgt (src.length + 1) 1 t' := by
  induction restS generalizing doneS t dict with
  | nil =>
    rw [List.append_nil] at hsrc
    subst hsrc
    exact ⟨t, rfl, h⟩
  | cons a restS ih =>
    obtain ⟨t₁, ht₁, hrow⟩ := filled_damerauColumns doneS [] hsrc rfl
      (fun b hb => hdict b (Or.inr hb)) (seen_nil a) h
    obtain ⟨k, hk, -⟩ := hdict a (Or.inl List.mem_cons_self)
    obtain ⟨dict', hassign, hget⟩ :=
      LevenshteinStack.assign_of_get (by simp [hk] : dict.get a ≠ none) (doneS.length + 1)
    have hdict' : ∀ b, b ∈ restS ∨ b ∈ tgt →
        ∃ k, dict'.get b = some k ∧ Seen (doneS ++ [a]).reverse b k := by
      intro b hb
      obtain ⟨k, hk, hseen⟩ := hdict b (hb.imp_left (List.mem_cons_of_mem a))
      have hcons := hseen.cons a
      rw [List.length_reverse] at hcons
      refine ⟨if a = b then doneS.length + 1 else k, ?_, ?_⟩
      · rw [hget, hk]
        split <;> rfl
      · rw [List.reverse_append]
        exact hcons
    obtain ⟨t', ht', hfilled⟩ := ih (doneS ++ [a]) (by simp [hsrc]) hdict'
      (by simpa using hrow.nextRow)
    refine ⟨t', ?_, hfilled⟩
    have hcolumns : damerauColumns dict a (doneS.length + 1) 1 tgt 0 t = some t₁ := ht₁
    rw [List.length_append, List.length_singleton] at ht'
    rw [damerauRows, hcolumns, Option.bind_eq_bind, Option.bind_some, hassign]
    exact ht'

/-- The result is the least number of insertions, deletions, substitutions and swaps of adjacent
elements. -/
theorem damerauLevenshteinDistance_exact (src tgt : List α) :
    ∃ d, damerauLevenshteinDistance src tgt = some d ∧ IsLeast {k | Script True k src tgt} d := by
  unfold damerauLevenshteinDistance
  split
  next hempty =>
    refine ⟨_, rfl, isLeast_script_iff.mpr ?_⟩
    rcases hempty with rfl | rfl
    · rw [List.length_nil, Nat.zero_max]
      exact least_nil_left tgt
    · rw [List.length_nil, Nat.max_zero]
      exact least_nil_right src
  next =>
    have hdict : ∀ b, b ∈ src ∨ b ∈ tgt →
        ∃ k, (LevenshteinStack.pushAll src tgt).get b = some k ∧ Seen [] b k :=
      fun b hb => ⟨0, LevenshteinStack.get_pushAll hb, seen_nil b⟩
    obtain ⟨t, ht, hfilled⟩ := filled_damerauRows [] rfl hdict (filled_initial src tgt)
    refine ⟨_, ?_, hfilled.isLeast⟩
    have hrows : damerauRows tgt 1 src (.initial src.length tgt.length) (.pushAll src tgt) =
        some t := ht
    rw [hrows]
    rfl

/-- An element inserted between swapped ones costs no swap of its own. -/
example : damerauLevenshteinDistance [3, 1] [1, 2, 3] = some 2 := by decide

end

end LoomX.EditDistance
