import Mathlib.Data.List.Perm.Basic

namespace LoomX.LinkedListSort

variable {α : Type} {f : α → α → Int}

/-- One pass of `Sort` from the end of the list to the entry `h`, which carries the least entry
along, and whether it moved an entry. -/
def bubble (f : α → α → Int) : List α → List α × Bool
  | [] => ([], false)
  | x :: xs =>
    match bubble f xs with
    | ([], _) => ([x], false)
    | (y :: ys, moved) => if f y x < 0 then (y :: x :: ys, true) else (x :: y :: ys, moved)

theorem bubble_perm (f : α → α → Int) (l : List α) : (bubble f l).1.Perm l := by
  induction l with
  | nil => exact .nil
  | cons x xs ih =>
    unfold bubble
    split
    next heq =>
      rw [heq] at ih
      rw [ih.symm.eq_nil]
    next y ys moved heq =>
      rw [heq] at ih
      split
      · exact (List.Perm.swap x y ys).trans (ih.cons x)
      · exact ih.cons x

/-- `Sort` of a doubly linked list; the entries before `h` are through. -/
def sortList (f : α → α → Int) (l : List α) : List α :=
  match _h : bubble f l with
  | ([], _) => []
  | (y :: ys, true) => y :: sortList f ys
  | (y :: ys, false) => y :: ys
termination_by l.length
decreasing_by
  have hlength := (bubble_perm f l).length_eq
  rw [_h] at hlength
  simp only [List.length_cons] at hlength
  omega

variable {key : α → Nat}

/-- A pass brings a least entry to the front; without a move the list was in order. -/
theorem bubble_spec (hf : ∀ x y, f x y < 0 ↔ key x < key y) (l : List α) :
    (∀ y ys, (bubble f l).1 = y :: ys → ∀ x ∈ ys, key y ≤ key x) ∧
      ((bubble f l).2 = false → (bubble f l).1.Pairwise (key · ≤ key ·)) := by
  induction l with
  | nil =>
    refine ⟨fun y ys h => ?_, fun _ => .nil⟩
    cases h
  | cons x xs ih =>
    obtain ⟨hleast, hsorted⟩ := ih
    unfold bubble
    split
    next heq =>
      refine ⟨fun y ys h => ?_, fun _ => List.pairwise_singleton _ _⟩
      cases h
      simp
    next y ys moved heq =>
      rw [heq] at hleast hsorted
      have hys := hleast y ys rfl
      split
      next hlt =>
        rw [hf] at hlt
        refine ⟨fun z zs h => ?_, fun h => ?_⟩
        · cases h
          exact List.forall_mem_cons.mpr ⟨Nat.le_of_lt hlt, hys⟩
        · cases h
      next hnot =>
        rw [hf, Nat.not_lt] at hnot
        have hall : ∀ z ∈ y :: ys, key x ≤ key z :=
          List.forall_mem_cons.mpr ⟨hnot, fun z hz => Nat.le_trans hnot (hys z hz)⟩
        refine ⟨fun z zs h => ?_, fun h => ?_⟩
        · cases h
          exact hall
        · exact List.pairwise_cons.mpr ⟨hall, hsorted h⟩

theorem sortList_perm (f : α → α → Int) (l : List α) : (sortList f l).Perm l := by
  fun_induction sortList f l with
  | case1 l moved h =>
    have hperm := bubble_perm f l
    rw [h] at hperm
    exact hperm
  | case2 l y ys h ih =>
    have hperm := bubble_perm f l
    rw [h] at hperm
    exact (ih.cons y).trans hperm
  | case3 l y ys h =>
    have hperm := bubble_perm f l
    rw [h] at hperm
    exact hperm

theorem sortList_sorted (hf : ∀ x y, f x y < 0 ↔ key x < key y) (l : List α) :
    (sortList f l).Pairwise (key · ≤ key ·) := by
  fun_induction sortList f l with
  | case1 l moved h => exact .nil
  | case2 l y ys h ih =>
    have hleast := (bubble_spec hf l).1
    rw [h] at hleast
    refine List.pairwise_cons.mpr ⟨fun x hx => ?_, ih⟩
    exact hleast y ys rfl x ((sortList_perm f ys).mem_iff.mp hx)
  | case3 l y ys h =>
    have hsorted := (bubble_spec hf l).2
    rw [h] at hsorted
    exact hsorted rfl

end LoomX.LinkedListSort
