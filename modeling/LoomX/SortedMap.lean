import Mathlib

namespace LoomX

/-- A finite map as an association list in strictly increasing key order. -/
structure SortedMap (α β : Type) [LinearOrder α] where
  entries : List (α × β)
  sorted : entries.Pairwise fun a b => a.1 < b.1

namespace SortedMap

variable {α β : Type} [LinearOrder α]

/-- Adds `v` under `k`, combining it with the value already there. -/
def insertEntry (f : β → β → β) (k : α) (v : β) : List (α × β) → List (α × β)
  | [] => [(k, v)]
  | (k', v') :: rest =>
    if k < k' then (k, v) :: (k', v') :: rest
    else if k = k' then (k', f v' v) :: rest
    else (k', v') :: insertEntry f k v rest

theorem mem_insertEntry_key {f : β → β → β} {k : α} {v : β} {l : List (α × β)} {e : α × β}
    (h : e ∈ insertEntry f k v l) : e.1 = k ∨ ∃ e' ∈ l, e'.1 = e.1 := by
  induction l with
  | nil => simp_all [insertEntry]
  | cons p l ih =>
    obtain ⟨k', v'⟩ := p
    unfold insertEntry at h
    split at h
    next => grind
    next =>
      split at h
      next => grind
      next => grind

theorem insertEntry_sorted {f : β → β → β} {k : α} {v : β} {l : List (α × β)}
    (h : l.Pairwise fun a b => a.1 < b.1) :
    (insertEntry f k v l).Pairwise fun a b => a.1 < b.1 := by
  induction l with
  | nil => simp [insertEntry]
  | cons p l ih =>
    obtain ⟨k', v'⟩ := p
    obtain ⟨hp, hl⟩ := List.pairwise_cons.mp h
    unfold insertEntry
    split
    next hlt =>
      refine List.pairwise_cons.mpr ⟨?_, h⟩
      intro e he
      rcases List.mem_cons.mp he with rfl | he
      · exact hlt
      · exact hlt.trans (hp e he)
    next hnlt =>
      split
      next => exact List.pairwise_cons.mpr ⟨hp, hl⟩
      next hne =>
        refine List.pairwise_cons.mpr ⟨?_, ih hl⟩
        intro e he
        rcases mem_insertEntry_key he with hk | ⟨e', he', hk⟩
        · exact hk ▸ lt_of_le_of_ne (not_lt.mp hnlt) (Ne.symm hne)
        · exact hk ▸ hp e' he'

def empty : SortedMap α β := ⟨[], .nil⟩

def insertWith (f : β → β → β) (m : SortedMap α β) (k : α) (v : β) : SortedMap α β :=
  ⟨insertEntry f k v m.entries, insertEntry_sorted m.sorted⟩

def find? (m : SortedMap α β) (k : α) : Option β := m.entries.lookup k

/-- Combines a further value into the one found so far. -/
def combine (f : β → β → β) (found : Option β) (v : β) : Option β :=
  match found with
  | none => some v
  | some w => some (f w v)

theorem lookup_cons_if (q k : α) (v : β) (l : List (α × β)) :
    ((k, v) :: l).lookup q = if q = k then some v else l.lookup q := by
  by_cases h : q = k
  · simp [h]
  · have hb : (q == k) = false := by simpa using h
    simp [List.lookup_cons, hb, h]

theorem lookup_eq_none_of_lt {l : List (α × β)} {k : α} (h : ∀ e ∈ l, k < e.1) :
    l.lookup k = none := by
  rw [List.lookup_eq_none_iff]
  intro e he
  simpa using (h e he).ne

theorem find?_insertWith (f : β → β → β) (m : SortedMap α β) (k : α) (v : β) (q : α) :
    (m.insertWith f k v).find? q = if q = k then combine f (m.find? q) v else m.find? q := by
  obtain ⟨l, hl⟩ := m
  simp only [find?, insertWith]
  induction l with
  | nil => simp [insertEntry, lookup_cons_if, combine]
  | cons p l ih =>
    obtain ⟨k', v'⟩ := p
    obtain ⟨hp, hl⟩ := List.pairwise_cons.mp hl
    unfold insertEntry
    split
    next hlt =>
      by_cases hq : q = k
      · subst hq
        have hnone : ((k', v') :: l).lookup q = none := by
          apply lookup_eq_none_of_lt
          intro e he
          rcases List.mem_cons.mp he with rfl | he
          · exact hlt
          · exact hlt.trans (hp e he)
        simp [hnone, combine]
      · simp [lookup_cons_if, hq]
    next hnlt =>
      split
      next heq =>
        subst heq
        by_cases hq : q = k <;> simp [lookup_cons_if, hq, combine]
      next hne =>
        by_cases hq : q = k'
        · subst hq
          simp [Ne.symm hne]
        · simp only [lookup_cons_if, hq, if_false, ih hl]

theorem mem_entries_iff {m : SortedMap α β} {k : α} {v : β} :
    (k, v) ∈ m.entries ↔ m.find? k = some v := by
  obtain ⟨l, hl⟩ := m
  simp only [find?]
  induction l with
  | nil => simp
  | cons p l ih =>
    obtain ⟨k', v'⟩ := p
    obtain ⟨hp, hl⟩ := List.pairwise_cons.mp hl
    have hnotin : k = k' → (k, v) ∉ l := fun h hmem => (hp _ hmem).ne (h ▸ rfl)
    by_cases hk : k = k'
    · subst hk
      simp [hnotin rfl, eq_comm]
    · simp [lookup_cons_if, hk, ih hl]

def erase (m : SortedMap α β) (k : α) : SortedMap α β :=
  ⟨m.entries.filter fun e => e.1 ≠ k, m.sorted.filter _⟩

theorem find?_erase (m : SortedMap α β) (k q : α) :
    (m.erase k).find? q = if q = k then none else m.find? q := by
  obtain ⟨l, hl⟩ := m
  simp only [find?, erase]
  clear hl
  induction l with
  | nil => simp
  | cons p l ih =>
    obtain ⟨k', v'⟩ := p
    by_cases hk : k' = k
    · subst hk
      rw [List.filter_cons_of_neg (by simp), ih, lookup_cons_if]
      split <;> rfl
    · rw [List.filter_cons_of_pos (by simp [hk]), lookup_cons_if, lookup_cons_if, ih]
      by_cases hq : q = k'
      · subst hq
        simp [hk]
      · simp [hq]

/-- What a run of insertions leaves under a key: its values combined in order. -/
theorem find?_foldl [DecidableEq α] (f : β → β → β) (items : List (α × β)) (m : SortedMap α β) (q : α) :
    (items.foldl (fun m e => m.insertWith f e.1 e.2) m).find? q =
      ((items.filter fun e => e.1 = q).map Prod.snd).foldl (combine f) (m.find? q) := by
  induction items generalizing m with
  | nil => rfl
  | cons e items ih =>
    rw [List.foldl_cons, ih, find?_insertWith]
    by_cases hq : e.1 = q
    · simp [hq]
    · simp [hq, Ne.symm hq]

theorem foldl_combine_some (f : β → β → β) (vs : List β) (w : β) :
    vs.foldl (combine f) (some w) = some (vs.foldl f w) := by
  induction vs generalizing w with
  | nil => rfl
  | cons v vs ih => exact ih (f w v)

theorem foldl_assoc {f : β → β → β} (hf : ∀ a b c, f (f a b) c = f a (f b c)) (a b : β)
    (vs : List β) : vs.foldl f (f a b) = f a (vs.foldl f b) := by
  induction vs generalizing b with
  | nil => rfl
  | cons v vs ih => rw [List.foldl_cons, hf, ih, List.foldl_cons]

/-- Combining a list that was combined first is combining its values one by one. -/
theorem foldl_combine_toList {f : β → β → β} (hf : ∀ a b c, f (f a b) c = f a (f b c))
    (vs : List β) (found : Option β) :
    (vs.foldl (combine f) none).toList.foldl (combine f) found = vs.foldl (combine f) found := by
  cases vs with
  | nil => rfl
  | cons v vs =>
    have hv : (v :: vs).foldl (combine f) none = some (vs.foldl f v) := foldl_combine_some f vs v
    rw [hv]
    cases found with
    | none => exact hv.symm
    | some w =>
      have hw : (v :: vs).foldl (combine f) (some w) = some (vs.foldl f (f w v)) :=
        foldl_combine_some f vs (f w v)
      rw [hw, foldl_assoc hf]
      rfl

theorem filter_key [DecidableEq α] (m : SortedMap α β) (q : α) :
    m.entries.filter (fun e => e.1 = q) = (m.find? q).toList.map (q, ·) := by
  obtain ⟨l, hl⟩ := m
  simp only [find?]
  induction l with
  | nil => rfl
  | cons p l ih =>
    obtain ⟨k, v⟩ := p
    obtain ⟨hp, hl⟩ := List.pairwise_cons.mp hl
    by_cases hk : k = q
    · subst hk
      have hnone := lookup_eq_none_of_lt hp
      have hrest : l.filter (fun e => e.1 = k) = [] := by rw [ih hl, hnone]; rfl
      simp [hrest]
    · simp [lookup_cons_if, hk, Ne.symm hk, ih hl]

/-- Maps with the same values are the same. -/
theorem ext_find? {m n : SortedMap α β} (h : ∀ k, m.find? k = n.find? k) : m = n := by
  have hmem : ∀ e, e ∈ m.entries ↔ e ∈ n.entries := by
    intro ⟨k, v⟩
    rw [mem_entries_iff, mem_entries_iff, h]
  have hnodup : ∀ s : SortedMap α β, s.entries.Nodup := fun s =>
    s.sorted.imp fun hlt heq => (heq ▸ hlt).false
  have hperm : m.entries.Perm n.entries :=
    (List.perm_ext_iff_of_nodup (hnodup m) (hnodup n)).mpr hmem
  have hentries : m.entries = n.entries :=
    hperm.eq_of_pairwise (fun _ _ _ _ hab hba => absurd hba hab.asymm) m.sorted n.sorted
  obtain ⟨l, hl⟩ := m
  obtain ⟨l', hl'⟩ := n
  obtain rfl : l = l' := hentries
  rfl

/-- The values of all groups, each with the key of its group. -/
def members (groups : List (α × List β)) : List (α × β) :=
  groups.flatMap fun g => g.2.map fun v => (g.1, v)

theorem members_insertEntry (k : α) (v : β) (groups : List (α × List β)) :
    (members (insertEntry (· ++ ·) k [v] groups)).Perm ((k, v) :: members groups) := by
  induction groups with
  | nil => exact .refl _
  | cons g groups ih =>
    obtain ⟨k', vs⟩ := g
    unfold insertEntry
    split
    next => exact .refl _
    next =>
      split
      next heq =>
        subst heq
        simp only [members, List.flatMap_cons, List.map_append, List.map_cons, List.map_nil,
          List.append_assoc]
        exact List.perm_middle
      next =>
        simp only [members, List.flatMap_cons] at ih ⊢
        exact (ih.append_left _).trans List.perm_middle

theorem insertEntry_nonempty {k : α} {v : β} {groups : List (α × List β)}
    (h : ∀ g ∈ groups, g.2 ≠ []) : ∀ g ∈ insertEntry (· ++ ·) k [v] groups, g.2 ≠ [] := by
  induction groups with
  | nil => simp [insertEntry]
  | cons g groups ih =>
    obtain ⟨k', vs⟩ := g
    obtain ⟨hg, hgroups⟩ := List.forall_mem_cons.mp h
    unfold insertEntry
    split
    next => exact List.forall_mem_cons.mpr ⟨by simp, h⟩
    next =>
      split
      next => exact List.forall_mem_cons.mpr ⟨by simp, hgroups⟩
      next => exact List.forall_mem_cons.mpr ⟨hg, ih hgroups⟩

/-- Sorting values into groups keeps them all. -/
theorem members_foldl {ι : Type} (key : ι → α) (val : ι → β) (items : List ι)
    (groups : SortedMap α (List β)) :
    (members (items.foldl (fun groups e => groups.insertWith (· ++ ·) (key e) [val e])
      groups).entries).Perm (items.map (fun e => (key e, val e)) ++ members groups.entries) := by
  induction items generalizing groups with
  | nil => exact .refl _
  | cons e items ih =>
    rw [List.foldl_cons]
    refine (ih _).trans ?_
    exact ((members_insertEntry (key e) (val e) groups.entries).append_left _).trans
      List.perm_middle

end SortedMap

end LoomX
