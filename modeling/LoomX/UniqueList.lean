import Mathlib

namespace LoomX

/-- A list whose items have increasing keys. -/
def UniqueSorted {α κ : Type} [LinearOrder κ] (key : α → κ) (xs : List α) : Prop :=
  xs.Pairwise fun a b => key a < key b

section

variable {α : Type}

def lowerBound (cmp : α → α → Bool) (container : List α) (item : α) : List α × List α :=
  (container.takeWhile (cmp · item), container.dropWhile (cmp · item))

def equalUnique (cmp : α → α → Bool) (a b : α) : Bool := !cmp a b && !cmp b a

def insertUnique (cmp : α → α → Bool) (container : List α) (item : α) : List α :=
  let (before, after) := lowerBound cmp container item
  match after with
  | lb :: rest => if equalUnique cmp lb item then container else before ++ item :: lb :: rest
  | [] => before ++ [item]

def eraseUnique (cmp : α → α → Bool) (container : List α) (item : α) : List α :=
  let (before, after) := lowerBound cmp container item
  match after with
  | lb :: rest => if equalUnique cmp lb item then before ++ rest else container
  | [] => container

variable {κ : Type} [LinearOrder κ] {key : α → κ} {cmp : α → α → Bool} {xs : List α} {item : α}

theorem lowerBound_append (cmp : α → α → Bool) (xs : List α) (item : α) :
    (lowerBound cmp xs item).1 ++ (lowerBound cmp xs item).2 = xs :=
  List.takeWhile_append_dropWhile

/-- The lower bound divides a sorted list at a key. -/
theorem lowerBound_spec (hcmp : ∀ a b, cmp a b = true ↔ key a < key b)
    (hsorted : UniqueSorted key xs) (item : α) :
    (∀ x ∈ (lowerBound cmp xs item).1, key x < key item) ∧
      ∀ x ∈ (lowerBound cmp xs item).2, key item ≤ key x := by
  refine ⟨fun x hx => ?_, ?_⟩
  · have hlt : cmp x item = true := List.mem_takeWhile_imp (p := (cmp · item)) hx
    exact (hcmp x item).mp hlt
  induction xs with
  | nil => simp [lowerBound]
  | cons a rest ih =>
    obtain ⟨ha, hrest⟩ := List.pairwise_cons.mp hsorted
    simp only [lowerBound, List.dropWhile_cons] at ih ⊢
    split
    next => exact ih hrest
    next hge =>
      rw [hcmp, not_lt] at hge
      intro x hx
      rcases List.mem_cons.mp hx with rfl | hx
      · exact hge
      · exact hge.trans (ha x hx).le

theorem equalUnique_iff (hcmp : ∀ a b, cmp a b = true ↔ key a < key b) {a b : α} :
    equalUnique cmp a b = true ↔ key a = key b := by
  rw [equalUnique, Bool.and_eq_true, Bool.not_eq_true', Bool.not_eq_true', ← Bool.not_eq_true,
    ← Bool.not_eq_true, hcmp, hcmp, not_lt, not_lt]
  exact ⟨fun h => le_antisymm h.2 h.1, fun h => ⟨h.ge, h.le⟩⟩

/-- A sorted list at a key: the key is not there, or it is its lower bound's. -/
theorem lowerBound_cases (hcmp : ∀ a b, cmp a b = true ↔ key a < key b)
    (hsorted : UniqueSorted key xs) (item : α) :
    ∃ before after, lowerBound cmp xs item = (before, after) ∧ xs = before ++ after ∧
      (∀ x ∈ before, key x < key item) ∧
      ((∀ x ∈ after, key item < key x) ∨
        ∃ lb rest, after = lb :: rest ∧ key lb = key item ∧ ∀ x ∈ rest, key item < key x) := by
  obtain ⟨hbefore, hafter⟩ := lowerBound_spec hcmp hsorted item
  have happend := lowerBound_append cmp xs item
  generalize lowerBound cmp xs item = parts at hbefore hafter happend ⊢
  obtain ⟨before, after⟩ := parts
  dsimp only at hbefore hafter happend
  refine ⟨before, after, rfl, happend.symm, hbefore, ?_⟩
  rw [← happend] at hsorted
  have hsorted' := (List.pairwise_append.mp hsorted).2.1
  cases after with
  | nil => exact .inl (by simp)
  | cons lb rest =>
    obtain ⟨hlb, -⟩ := List.pairwise_cons.mp hsorted'
    rcases eq_or_lt_of_le (hafter lb (by simp)) with heq | hlt
    · exact .inr ⟨lb, rest, rfl, heq.symm, fun x hx => heq ▸ hlb x hx⟩
    · refine .inl fun x hx => ?_
      rcases List.mem_cons.mp hx with rfl | hx
      · exact hlt
      · exact hlt.trans (hlb x hx)

theorem uniqueSorted_insert {before after : List α} (hsorted : UniqueSorted key (before ++ after))
    (hbefore : ∀ x ∈ before, key x < key item) (hafter : ∀ x ∈ after, key item < key x) :
    UniqueSorted key (before ++ item :: after) := by
  obtain ⟨hb, ha, hba⟩ := List.pairwise_append.mp hsorted
  refine List.pairwise_append.mpr ⟨hb, List.pairwise_cons.mpr ⟨hafter, ha⟩, fun x hx y hy => ?_⟩
  rcases List.mem_cons.mp hy with rfl | hy
  · exact hbefore x hx
  · exact hba x hx y hy

theorem uniqueSorted_erase {before rest : List α} {lb : α}
    (hsorted : UniqueSorted key (before ++ lb :: rest)) : UniqueSorted key (before ++ rest) :=
  hsorted.sublist (by simp)

theorem uniqueSorted_insertUnique (hcmp : ∀ a b, cmp a b = true ↔ key a < key b)
    (hsorted : UniqueSorted key xs) : UniqueSorted key (insertUnique cmp xs item) := by
  obtain ⟨before, after, hlb, rfl, hbefore, hafter | ⟨lb, rest, rfl, heq, -⟩⟩ :=
    lowerBound_cases hcmp hsorted item
  · have hinsert := uniqueSorted_insert hsorted hbefore hafter
    simp only [insertUnique, hlb]
    split
    · split
      · exact hsorted
      · exact hinsert
    · exact hinsert
  · simp only [insertUnique, hlb]
    rw [if_pos ((equalUnique_iff hcmp).mpr heq)]
    exact hsorted

theorem mem_insertUnique (hcmp : ∀ a b, cmp a b = true ↔ key a < key b)
    (hsorted : UniqueSorted key xs) {x : α} :
    x ∈ insertUnique cmp xs item ↔ x ∈ xs ∨ x = item ∧ ∀ y ∈ xs, key y ≠ key item := by
  obtain ⟨before, after, hlb, rfl, hbefore, hafter | ⟨lb, rest, rfl, heq, -⟩⟩ :=
    lowerBound_cases hcmp hsorted item
  · have hnew : ∀ y ∈ before ++ after, key y ≠ key item := by
      intro y hy
      rcases List.mem_append.mp hy with hy | hy
      · exact (hbefore y hy).ne
      · exact (hafter y hy).ne'
    have hinsert : insertUnique cmp (before ++ after) item = before ++ item :: after := by
      simp only [insertUnique, hlb]
      cases after with
      | nil => rfl
      | cons lb rest => exact if_neg (mt (equalUnique_iff hcmp).mp (hnew lb (by simp)))
    rw [hinsert]
    simp only [List.mem_append, List.mem_cons]
    constructor
    · rintro (h | rfl | h)
      · exact .inl (.inl h)
      · exact .inr ⟨rfl, fun y hy => hnew y (List.mem_append.mpr hy)⟩
      · exact .inl (.inr h)
    · rintro ((h | h) | ⟨rfl, -⟩)
      · exact .inl h
      · exact .inr (.inr h)
      · exact .inr (.inl rfl)
  · have hinsert : insertUnique cmp (before ++ lb :: rest) item = before ++ lb :: rest := by
      simp only [insertUnique, hlb]
      exact if_pos ((equalUnique_iff hcmp).mpr heq)
    rw [hinsert]
    refine ⟨.inl, ?_⟩
    rintro (h | ⟨-, hnone⟩)
    · exact h
    · exact absurd heq (hnone lb (by simp))

theorem insertUnique_ne_nil (cmp : α → α → Bool) (xs : List α) (item : α) :
    insertUnique cmp xs item ≠ [] := by
  have happend := lowerBound_append cmp xs item
  simp only [insertUnique]
  split
  next heq =>
    rw [heq] at happend
    split
    · rw [← happend]
      simp
    · simp
  next => simp

theorem uniqueSorted_eraseUnique (hcmp : ∀ a b, cmp a b = true ↔ key a < key b)
    (hsorted : UniqueSorted key xs) : UniqueSorted key (eraseUnique cmp xs item) := by
  obtain ⟨before, after, hlb, rfl, -, -⟩ := lowerBound_cases hcmp hsorted item
  simp only [eraseUnique, hlb]
  split
  · split
    · exact uniqueSorted_erase hsorted
    · exact hsorted
  · exact hsorted

theorem mem_eraseUnique (hcmp : ∀ a b, cmp a b = true ↔ key a < key b)
    (hsorted : UniqueSorted key xs) {x : α} :
    x ∈ eraseUnique cmp xs item ↔ x ∈ xs ∧ key x ≠ key item := by
  obtain ⟨before, after, hlb, rfl, hbefore, hafter | ⟨lb, rest, rfl, heq, hrest⟩⟩ :=
    lowerBound_cases hcmp hsorted item
  · have hnone : ∀ y ∈ before ++ after, key y ≠ key item := by
      intro y hy
      rcases List.mem_append.mp hy with hy | hy
      · exact (hbefore y hy).ne
      · exact (hafter y hy).ne'
    have herase : eraseUnique cmp (before ++ after) item = before ++ after := by
      simp only [eraseUnique, hlb]
      cases after with
      | nil => rfl
      | cons lb rest => exact if_neg (mt (equalUnique_iff hcmp).mp (hnone lb (by simp)))
    rw [herase]
    exact ⟨fun h => ⟨h, hnone x h⟩, And.left⟩
  · have herase : eraseUnique cmp (before ++ lb :: rest) item = before ++ rest := by
      simp only [eraseUnique, hlb]
      exact if_pos ((equalUnique_iff hcmp).mpr heq)
    rw [herase]
    simp only [List.mem_append, List.mem_cons]
    constructor
    · rintro (h | h)
      · exact ⟨.inl h, (hbefore x h).ne⟩
      · exact ⟨.inr (.inr h), (hrest x h).ne'⟩
    · rintro ⟨h | rfl | h, hne⟩
      · exact .inl h
      · exact absurd heq hne
      · exact .inr h

end

end LoomX
