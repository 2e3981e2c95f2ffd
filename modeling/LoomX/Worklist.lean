import Mathlib

namespace LoomX

variable {α : Type} [LinearOrder α]

/-- Inserts into an ascending list without repetition. -/
def insertOrdered (a : α) : List α → List α
  | [] => [a]
  | b :: l => if a < b then a :: b :: l else if a = b then b :: l else b :: insertOrdered a l

@[simp] theorem mem_insertOrdered {a b : α} {l : List α} :
    b ∈ insertOrdered a l ↔ b = a ∨ b ∈ l := by
  induction l with
  | nil => simp [insertOrdered]
  | cons c l ih =>
    unfold insertOrdered
    split
    next => simp
    next =>
      split
      next heq =>
        subst heq
        simp
      next =>
        simp only [List.mem_cons, ih]
        exact or_left_comm

theorem length_insertOrdered_le (a : α) (l : List α) :
    (insertOrdered a l).length ≤ l.length + 1 := by
  induction l with
  | nil => simp [insertOrdered]
  | cons c l ih =>
    unfold insertOrdered
    split_ifs <;> simp only [List.length_cons] <;> omega

/-- The marked elements, and those whose predecessors are still to be marked. -/
structure Propagation (α : Type) where
  marked : List α
  worklist : List α

namespace Propagation

def mark (p : Propagation α) (a : α) : Propagation α :=
  if a ∈ p.marked then p else ⟨insertOrdered a p.marked, insertOrdered a p.worklist⟩

/-- Takes the least element off the worklist and marks its predecessors, `fuel` times or until
the worklist is empty. -/
def run (preds : α → List α) : Nat → Propagation α → Propagation α
  | 0, p => p
  | fuel + 1, p =>
    match p.worklist with
    | [] => p
    | a :: rest => run preds fuel ((preds a).foldl mark ⟨p.marked, rest⟩)

theorem mark_marked_subset (p : Propagation α) (a : α) : p.marked ⊆ (p.mark a).marked := by
  intro b hb
  unfold mark
  split
  next => exact hb
  next => simp [hb]

theorem mark_worklist_subset (p : Propagation α) (a : α) : p.worklist ⊆ (p.mark a).worklist := by
  intro b hb
  unfold mark
  split
  next => exact hb
  next => simp [hb]

theorem mem_mark_marked (p : Propagation α) (a : α) : a ∈ (p.mark a).marked := by
  unfold mark
  split
  next h => exact h
  next => simp

theorem mem_worklist_of_new {p : Propagation α} {a b : α} (hb : b ∈ (p.mark a).marked) :
    b ∈ p.marked ∨ b ∈ (p.mark a).worklist := by
  unfold mark at hb ⊢
  split at hb
  next => exact Or.inl hb
  next h =>
    rw [if_neg h]
    rcases mem_insertOrdered.mp hb with rfl | hb
    · right
      simp
    · exact Or.inl hb

theorem foldl_mark_spec (as : List α) (p : Propagation α) :
    p.marked ⊆ (as.foldl mark p).marked ∧ p.worklist ⊆ (as.foldl mark p).worklist ∧
      as ⊆ (as.foldl mark p).marked ∧
      ∀ b ∈ (as.foldl mark p).marked, b ∈ p.marked ∨ b ∈ (as.foldl mark p).worklist := by
  induction as generalizing p with
  | nil => exact ⟨fun _ h => h, fun _ h => h, by simp, fun _ h => Or.inl h⟩
  | cons a as ih =>
    obtain ⟨hmarked, hwork, hall, hnew⟩ := ih (p.mark a)
    refine ⟨fun b hb => hmarked (p.mark_marked_subset a hb),
      fun b hb => hwork (p.mark_worklist_subset a hb), ?_, ?_⟩
    · intro b hb
      rcases List.mem_cons.mp hb with rfl | hb
      · exact hmarked (p.mem_mark_marked b)
      · exact hall hb
    · intro b hb
      rcases hnew b hb with hb | hb
      · rcases mem_worklist_of_new hb with hb | hb
        · exact Or.inl hb
        · exact Or.inr (hwork hb)
      · exact Or.inr hb

/-- Everything of interest is still waiting or has had its predecessors marked. -/
def Settled (preds : α → List α) (start : List α) (p : Propagation α) : Prop :=
  ∀ a, a ∈ p.marked ∨ a ∈ start → a ∈ p.worklist ∨ preds a ⊆ p.marked

theorem settled_step {preds : α → List α} {start rest : List α} {p : Propagation α} {a : α}
    (h : p.Settled preds start) (hw : p.worklist = a :: rest) :
    ((preds a).foldl mark ⟨p.marked, rest⟩).Settled preds start := by
  obtain ⟨hmarked, hwork, hall, hnew⟩ := foldl_mark_spec (preds a) ⟨p.marked, rest⟩
  have hold : ∀ b, b ∈ p.marked ∨ b ∈ start →
      b ∈ ((preds a).foldl mark ⟨p.marked, rest⟩).worklist ∨
        preds b ⊆ ((preds a).foldl mark ⟨p.marked, rest⟩).marked := by
    intro b hb
    rcases h b hb with hb | hb
    · rw [hw] at hb
      rcases List.mem_cons.mp hb with rfl | hb
      · exact Or.inr hall
      · exact Or.inl (hwork hb)
    · exact Or.inr fun c hc => hmarked (hb hc)
  intro b hb
  rcases hb with hb | hb
  · rcases hnew b hb with hb | hb
    · exact hold b (Or.inl hb)
    · exact Or.inl hb
  · exact hold b (Or.inr hb)

/-- What is left to do: waiting elements and nodes not marked yet. -/
def pending (nodes : List α) (p : Propagation α) : Nat :=
  p.worklist.length + (nodes.filter fun a => a ∉ p.marked).length

theorem filter_unmarked_lt {nodes marked : List α} {a : α} (ha : a ∈ nodes)
    (hnew : a ∉ marked) :
    (nodes.filter fun b => b ∉ insertOrdered a marked).length <
      (nodes.filter fun b => b ∉ marked).length := by
  have hsub : (nodes.filter fun b => b ∉ insertOrdered a marked) =
      (nodes.filter fun b => b ∉ marked).filter fun b => b ≠ a := by
    rw [List.filter_filter]
    apply List.filter_congr
    intro b _
    by_cases hb : b = a <;> simp [hb]
  rw [hsub]
  apply List.length_filter_lt_length_iff_exists.mpr
  exact ⟨a, List.mem_filter.mpr ⟨ha, by simpa using hnew⟩, by simp⟩

theorem pending_mark_le {nodes : List α} {p : Propagation α} {a : α} (ha : a ∈ nodes) :
    (p.mark a).pending nodes ≤ p.pending nodes := by
  unfold mark
  split
  next => exact Nat.le_refl _
  next hnew =>
    have hlen := length_insertOrdered_le a p.worklist
    have hlt := filter_unmarked_lt ha hnew
    simp only [pending]
    omega

theorem pending_foldl_mark_le {nodes as : List α} (has : as ⊆ nodes) (p : Propagation α) :
    (as.foldl mark p).pending nodes ≤ p.pending nodes := by
  induction as generalizing p with
  | nil => exact Nat.le_refl _
  | cons a as ih =>
    obtain ⟨ha, has⟩ := List.cons_subset.mp has
    exact Nat.le_trans (ih has (p.mark a)) (pending_mark_le ha)

theorem run_spec {preds : α → List α} {start nodes : List α}
    (hpreds : ∀ a, preds a ⊆ nodes) (fuel : Nat) (p : Propagation α)
    (hfuel : p.pending nodes ≤ fuel) (h : p.Settled preds start) :
    p.marked ⊆ (run preds fuel p).marked ∧ (run preds fuel p).worklist = [] ∧
      (run preds fuel p).Settled preds start := by
  induction fuel generalizing p with
  | zero =>
    have hempty : p.worklist = [] := by
      apply List.length_eq_zero_iff.mp
      simp only [pending] at hfuel
      omega
    exact ⟨fun _ h => h, hempty, h⟩
  | succ fuel ih =>
    unfold run
    split
    next hw => exact ⟨fun _ h => h, hw, h⟩
    next a rest hw =>
      have hpop : (⟨p.marked, rest⟩ : Propagation α).pending nodes + 1 = p.pending nodes := by
        simp only [pending, hw, List.length_cons]
        omega
      have hle := pending_foldl_mark_le (hpreds a) ⟨p.marked, rest⟩
      obtain ⟨hmarked, hwork, hset⟩ := ih _ (by omega) (settled_step h hw)
      exact ⟨fun b hb => hmarked ((foldl_mark_spec (preds a) ⟨p.marked, rest⟩).1 hb), hwork, hset⟩

theorem mem_mark {p : Propagation α} {a b : α} :
    (b ∈ (p.mark a).marked → b = a ∨ b ∈ p.marked) ∧
      (b ∈ (p.mark a).worklist → b = a ∨ b ∈ p.worklist) := by
  unfold mark
  split
  next => exact ⟨Or.inr, Or.inr⟩
  next => exact ⟨mem_insertOrdered.mp, mem_insertOrdered.mp⟩

section
variable {preds : α → List α} {Mark Wait : α → Prop}

/-- What may be marked and what may wait, for every state the propagation reaches. -/
def Within (Mark Wait : α → Prop) (p : Propagation α) : Prop :=
  (∀ a ∈ p.marked, Mark a) ∧ ∀ a ∈ p.worklist, Wait a

theorem within_foldl_mark (hwait : ∀ a, Mark a → Wait a) {as : List α} (has : ∀ a ∈ as, Mark a)
    {p : Propagation α} (h : p.Within Mark Wait) : (as.foldl mark p).Within Mark Wait := by
  induction as generalizing p with
  | nil => exact h
  | cons a as ih =>
    have ha := has a List.mem_cons_self
    apply ih (fun b hb => has b (List.mem_cons_of_mem a hb))
    constructor
    · intro b hb
      rcases mem_mark.1 hb with rfl | hb
      · exact ha
      · exact h.1 b hb
    · intro b hb
      rcases mem_mark.2 hb with rfl | hb
      · exact hwait b ha
      · exact h.2 b hb

/-- The marks are the least: whatever holds of the start and is carried over to predecessors
holds of every mark. -/
theorem within_run (hwait : ∀ a, Mark a → Wait a) (hpreds : ∀ a, Wait a → ∀ b ∈ preds a, Mark b)
    (fuel : Nat) {p : Propagation α} (h : p.Within Mark Wait) :
    (run preds fuel p).Within Mark Wait := by
  induction fuel generalizing p with
  | zero => exact h
  | succ fuel ih =>
    unfold run
    split
    next => exact h
    next a rest hw =>
      obtain ⟨hmarked, hwork⟩ := h
      rw [hw] at hwork
      apply ih
      apply within_foldl_mark hwait (hpreds a (hwork a List.mem_cons_self))
      exact ⟨hmarked, fun b hb => hwork b (List.mem_cons_of_mem a hb)⟩

end

omit [LinearOrder α] in
theorem settled_start {preds : α → List α} {p : Propagation α} (h : p.marked ⊆ p.worklist) :
    p.Settled preds p.worklist := by
  intro b hb
  rcases hb with hb | hb
  · exact Or.inl (h hb)
  · exact Or.inl hb

section
variable {preds : α → List α} {nodes : List α} {fuel : Nat} {p : Propagation α}

theorem marked_subset_run (hpreds : ∀ a, preds a ⊆ nodes) (hfuel : p.pending nodes ≤ fuel)
    (hstart : p.marked ⊆ p.worklist) : p.marked ⊆ (run preds fuel p).marked :=
  (run_spec hpreds fuel p hfuel (settled_start hstart)).1

/-- With enough fuel the marks are closed: whatever was waiting or is marked has all its
predecessors marked. -/
theorem run_closed (hpreds : ∀ a, preds a ⊆ nodes) (hfuel : p.pending nodes ≤ fuel)
    (hstart : p.marked ⊆ p.worklist) {a : α}
    (ha : a ∈ p.worklist ∨ a ∈ (run preds fuel p).marked) :
    preds a ⊆ (run preds fuel p).marked := by
  obtain ⟨_, hempty, hset⟩ := run_spec hpreds fuel p hfuel (settled_start hstart)
  rcases hset a ha.symm with hw | hsub
  · simp [hempty] at hw
  · exact hsub

end

end Propagation

end LoomX
