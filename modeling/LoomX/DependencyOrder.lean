import Mathlib

namespace LoomX

variable {α : Type*} {Edge : α → α → Prop}

/-- A path from the element enters a cycle. -/
def ReachesCycle (Edge : α → α → Prop) (v : α) : Prop :=
  ∃ u, Relation.ReflTransGen Edge v u ∧ Relation.TransGen Edge u u

/-- Whatever reaches a cycle has a successor that does. -/
theorem ReachesCycle.successor {v : α} (h : ReachesCycle Edge v) :
    ∃ u, Edge v u ∧ ReachesCycle Edge u := by
  obtain ⟨c, hv, hc⟩ := h
  rcases hv.cases_head with heq | ⟨u, he, hu⟩
  · obtain ⟨u, he, hu⟩ := Relation.TransGen.head'_iff.mp hc
    exact ⟨u, heq ▸ he, c, hu, hc⟩
  · exact ⟨u, he, c, hu, hc⟩

theorem not_reachesCycle_of_acc {v : α} (h : Acc (flip Edge) v) : ¬ReachesCycle Edge v := by
  induction h with
  | intro v _ ih =>
    intro hv
    obtain ⟨u, he, hu⟩ := hv.successor
    exact ih u he hu

/-- In a finite graph the paths from an element that reaches no cycle are bounded. -/
theorem acc_of_not_reachesCycle [Finite α] {v : α} (h : ¬ReachesCycle Edge v) :
    Acc (flip Edge) v := by
  let below : {u // Relation.ReflTransGen Edge v u} → {u // Relation.ReflTransGen Edge v u} → Prop :=
    fun a b => Relation.TransGen Edge b.1 a.1
  have htrans : IsTrans _ below := ⟨fun _ _ _ hab hbc => hbc.trans hab⟩
  have hirrefl : Std.Irrefl below := ⟨fun a ha => h ⟨a.1, a.2, ha⟩⟩
  have hwf : WellFounded below := Finite.wellFounded_of_trans_of_irrefl below
  have hall : ∀ a : {u // Relation.ReflTransGen Edge v u}, Acc (flip Edge) a.1 := by
    intro a
    induction a using hwf.induction with
    | h a ih =>
      refine ⟨_, fun b hb => ?_⟩
      exact ih ⟨b, a.2.tail hb⟩ (.single hb)
  exact hall ⟨v, .refl⟩

theorem acc_iff_not_reachesCycle [Finite α] {v : α} :
    Acc (flip Edge) v ↔ ¬ReachesCycle Edge v :=
  ⟨not_reachesCycle_of_acc, acc_of_not_reachesCycle⟩

/-- What is done when nothing more can be: an element as soon as its successors are, and
only in their order. -/
theorem done_iff_not_reachesCycle [Finite α] (done : Set α)
    (hacc : ∀ v ∈ done, Acc (flip Edge) v)
    (hdone : ∀ v, (∀ u, Edge v u → u ∈ done) → v ∈ done) {v : α} :
    v ∈ done ↔ ¬ReachesCycle Edge v := by
  rw [← acc_iff_not_reachesCycle]
  constructor
  · exact hacc v
  · intro h
    induction h with
    | intro v _ ih => exact hdone v ih

/-- An edge stays open exactly in a graph with a cycle. -/
theorem exists_open_iff [Finite α] (done : Set α)
    (hdone : ∀ v, v ∈ done ↔ ¬ReachesCycle Edge v) :
    (∃ v u, Edge v u ∧ u ∉ done) ↔ ∃ v, Relation.TransGen Edge v v := by
  constructor
  · rintro ⟨_, u, _, hu⟩
    obtain ⟨c, _, hc⟩ := not_not.mp (mt (hdone u).mpr hu)
    exact ⟨c, hc⟩
  · rintro ⟨c, hc⟩
    obtain ⟨u, he, hu⟩ := ReachesCycle.successor ⟨c, .refl, hc⟩
    exact ⟨c, u, he, fun h => (hdone u).mp h hu⟩

end LoomX
