import Mathlib.Logic.Relation
import Mathlib.Data.List.Basic

namespace LoomX

open Relation

/-- A depth-first search: the visited nodes in the order `rank` of their visits, the next free
rank, and the visited nodes whose component is not complete yet. -/
structure Search (α : Type) where
  visited : α → Prop
  rank : α → Nat
  next : Nat
  stack : List α

namespace Search

variable {α : Type} {Edge : α → α → Prop} {path : List α} {s t : Search α}

/-- The invariant of the search while the nodes of `path` wait for their successors. -/
structure Valid (Edge : α → α → Prop) (path : List α) (s : Search α) : Prop where
  rank_lt : ∀ v, s.visited v → s.rank v < s.next
  stack_visited : ∀ v ∈ s.stack, s.visited v
  sorted : s.stack.Pairwise fun u v => s.rank v < s.rank u
  path_subset : ∀ v ∈ path, v ∈ s.stack
  closed : ∀ u v, s.visited u → u ∉ path → Edge u v → s.visited v
  complete : ∀ u v, s.visited u → u ∉ s.stack → Edge u v → v ∉ s.stack
  from_path : ∀ u ∈ path, ∀ v ∈ s.stack, s.rank u ≤ s.rank v → ReflTransGen Edge u v
  to_path : ∀ v ∈ s.stack, ∃ u ∈ path, s.rank u ≤ s.rank v ∧ ReflTransGen Edge v u

/-- What a part of the search leaves as it was: visits, their ranks and the old stack. -/
structure Extends (s t : Search α) : Prop where
  visited : ∀ v, s.visited v → t.visited v
  rank : ∀ v, s.visited v → t.rank v = s.rank v
  next : s.next ≤ t.next
  fresh : ∀ v, t.visited v → s.visited v ∨ s.next ≤ t.rank v
  stack : ∃ above, t.stack = above ++ s.stack ∧ ∀ v ∈ above, ¬s.visited v

theorem Extends.refl (s : Search α) : Extends s s :=
  ⟨fun _ h => h, fun _ _ => rfl, Nat.le_refl _, fun _ h => Or.inl h, [], rfl, by simp⟩

theorem Extends.trans {r : Search α} (h : Extends r s) (h' : Extends s t) : Extends r t := by
  obtain ⟨above, hs, hnew⟩ := h.stack
  obtain ⟨above', ht, hnew'⟩ := h'.stack
  refine ⟨fun v hv => h'.visited v (h.visited v hv), ?_, Nat.le_trans h.next h'.next, ?_,
    above' ++ above, ?_, ?_⟩
  · intro v hv
    rw [h'.rank v (h.visited v hv), h.rank v hv]
  · intro v hv
    rcases h'.fresh v hv with hv | hv
    · rcases h.fresh v hv with hr | hr
      · exact Or.inl hr
      · right
        rw [h'.rank v hv]
        exact hr
    · exact Or.inr (Nat.le_trans h.next hv)
  · rw [ht, hs, List.append_assoc]
  · intro v hv
    rcases List.mem_append.mp hv with hv | hv
    · exact fun hr => hnew' v hv (h.visited v hr)
    · exact hnew v hv

theorem Extends.mem_stack (h : Extends s t) {v : α} (hv : v ∈ s.stack) : v ∈ t.stack := by
  obtain ⟨above, ht, _⟩ := h.stack
  rw [ht]
  exact List.mem_append_right above hv

theorem Extends.mem_of_visited (h : Extends s t) {v : α} (hv : v ∈ t.stack) (hs : s.visited v) :
    v ∈ s.stack := by
  obtain ⟨above, ht, hnew⟩ := h.stack
  rw [ht] at hv
  rcases List.mem_append.mp hv with hv | hv
  · exact absurd hs (hnew v hv)
  · exact hv

namespace Valid

theorem nodup (h : Valid Edge path s) : s.stack.Nodup :=
  h.sorted.imp fun hlt heq => absurd hlt (by rw [heq]; omega)

/-- A complete node only reaches complete nodes. -/
theorem complete_reach (h : Valid Edge path s) {u v : α} (hu : s.visited u) (hs : u ∉ s.stack)
    (hr : ReflTransGen Edge u v) : s.visited v ∧ v ∉ s.stack := by
  induction hr with
  | refl => exact ⟨hu, hs⟩
  | tail _ hedge ih =>
    have hpath : ∀ w, w ∉ s.stack → w ∉ path := fun w hw hp => hw (h.path_subset w hp)
    exact ⟨h.closed _ _ ih.1 (hpath _ ih.2) hedge, h.complete _ _ ih.1 ih.2 hedge⟩

end Valid

section
variable [DecidableEq α]

def enter (s : Search α) (node : α) : Search α where
  visited v := v = node ∨ s.visited v
  rank v := if v = node then s.next else s.rank v
  next := s.next + 1
  stack := node :: s.stack

variable {node : α}

theorem extends_enter (hnew : ¬s.visited node) : Extends s (s.enter node) := by
  have hne : ∀ v, s.visited v → v ≠ node := fun v hv heq => hnew (heq ▸ hv)
  refine ⟨fun v hv => Or.inr hv, ?_, Nat.le_succ _, ?_, [node], rfl, by simpa using hnew⟩
  · intro v hv
    simp [enter, hne v hv]
  · rintro v (rfl | hv)
    · right
      simp [enter]
    · exact Or.inl hv

/-- Entering an unvisited successor of the path keeps the invariant. -/
theorem Valid.enter (h : Valid Edge path s) (hnew : ¬s.visited node)
    (hpath : ∀ u ∈ path, ReflTransGen Edge u node) :
    Valid Edge (node :: path) (s.enter node) := by
  have hne : ∀ v, s.visited v → v ≠ node := fun v hv heq => hnew (heq ▸ hv)
  have hrank : ∀ v, s.visited v → (s.enter node).rank v = s.rank v := by
    intro v hv
    simp [Search.enter, hne v hv]
  have hself : (s.enter node).rank node = s.next := by simp [Search.enter]
  constructor
  case rank_lt =>
    rintro v (rfl | hv)
    · simp [Search.enter]
    · rw [hrank v hv]
      exact Nat.lt_succ_of_lt (h.rank_lt v hv)
  case stack_visited =>
    intro v hv
    rcases List.mem_cons.mp hv with rfl | hv
    · exact Or.inl rfl
    · exact Or.inr (h.stack_visited v hv)
  case sorted =>
    refine List.pairwise_cons.mpr ⟨?_, ?_⟩
    · intro v hv
      have hvis := h.stack_visited v hv
      rw [hrank v hvis, hself]
      exact h.rank_lt v hvis
    · refine h.sorted.imp_of_mem ?_
      intro u v hu hv hlt
      rw [hrank u (h.stack_visited u hu), hrank v (h.stack_visited v hv)]
      exact hlt
  case path_subset =>
    intro v hv
    rcases List.mem_cons.mp hv with rfl | hv
    · exact List.mem_cons_self
    · exact List.mem_cons_of_mem _ (h.path_subset v hv)
  case closed =>
    intro u v hu hp hedge
    rcases hu with rfl | hu
    · simp at hp
    · exact Or.inr (h.closed u v hu (fun hm => hp (List.mem_cons_of_mem _ hm)) hedge)
  case complete =>
    intro u v hu hs hedge hv
    have hs' : u ∉ s.stack := fun hm => hs (List.mem_cons_of_mem _ hm)
    rcases hu with rfl | hu
    · exact hs List.mem_cons_self
    · rcases List.mem_cons.mp hv with rfl | hv
      · exact hnew (h.closed u v hu (fun hm => hs' (h.path_subset u hm)) hedge)
      · exact h.complete u v hu hs' hedge hv
  case from_path =>
    intro u hu v hv hle
    rcases List.mem_cons.mp hv with rfl | hv
    · rcases List.mem_cons.mp hu with rfl | hu
      · exact ReflTransGen.refl
      · exact hpath u hu
    · have hvis := h.stack_visited v hv
      rw [hrank v hvis] at hle
      rcases List.mem_cons.mp hu with rfl | hu
      · rw [hself] at hle
        have := h.rank_lt v hvis
        omega
      · rw [hrank u (h.stack_visited u (h.path_subset u hu))] at hle
        exact h.from_path u hu v hv hle
  case to_path =>
    intro v hv
    rcases List.mem_cons.mp hv with rfl | hv
    · exact ⟨v, List.mem_cons_self, Nat.le_refl _, ReflTransGen.refl⟩
    · obtain ⟨u, hu, hle, hr⟩ := h.to_path v hv
      refine ⟨u, List.mem_cons_of_mem _ hu, ?_, hr⟩
      rw [hrank u (h.stack_visited u (h.path_subset u hu)), hrank v (h.stack_visited v hv)]
      exact hle

end

/-- The node whose successors are all visited, the last of the path; `above` lies over it. -/
structure Explored (Edge : α → α → Prop) (path : List α) (s : Search α) (node : α)
    (above base : List α) : Prop where
  valid : Valid Edge (node :: path) s
  stack : s.stack = above ++ node :: base
  path_subset : ∀ v ∈ path, v ∈ base
  successors : ∀ v, Edge node v → s.visited v

section
variable {node : α} {above base : List α}

theorem Explored.rank_lt (h : Explored Edge path s node above base) {v : α} (hv : v ∈ base) :
    s.rank v < s.rank node := by
  have hs := h.valid.sorted
  rw [h.stack] at hs
  exact (List.pairwise_cons.mp (List.pairwise_append.mp hs).2.1).1 v hv

theorem Explored.rank_ge (h : Explored Edge path s node above base) {v : α}
    (hv : v ∈ node :: above) : s.rank node ≤ s.rank v := by
  rcases List.mem_cons.mp hv with rfl | hv
  · exact Nat.le_refl _
  · have hs := h.valid.sorted
    rw [h.stack] at hs
    exact Nat.le_of_lt ((List.pairwise_append.mp hs).2.2 v hv node List.mem_cons_self)

theorem Explored.mem_stack (h : Explored Edge path s node above base) {v : α} :
    v ∈ s.stack ↔ v ∈ node :: above ∨ v ∈ base := by
  rw [h.stack]
  simp only [List.mem_append, List.mem_cons]
  tauto

theorem Explored.closed (h : Explored Edge path s node above base) {u v : α} (hu : s.visited u)
    (hp : u ∉ path) (hedge : Edge u v) : s.visited v := by
  by_cases heq : u = node
  · exact h.successors v (heq ▸ hedge)
  · refine h.valid.closed u v hu ?_ hedge
    intro hm
    rcases List.mem_cons.mp hm with hm | hm
    · exact heq hm
    · exact hp hm

/-- A node from which the path can be left downwards stays on the stack. -/
theorem Explored.keep (h : Explored Edge path s node above base)
    (hdown : ∃ v ∈ base, ReflTransGen Edge node v) : Valid Edge path s := by
  have hv := h.valid
  refine ⟨hv.rank_lt, hv.stack_visited, hv.sorted, ?_, fun u v hu => h.closed hu, hv.complete,
    fun u hu => hv.from_path u (List.mem_cons_of_mem _ hu), ?_⟩
  · exact fun v hm => hv.path_subset v (List.mem_cons_of_mem _ hm)
  · intro v hm
    obtain ⟨u, hu, hle, hr⟩ := hv.to_path v hm
    rcases List.mem_cons.mp hu with rfl | hu
    · obtain ⟨w, hw, hnode⟩ := hdown
      obtain ⟨u', hu', hle', hr'⟩ := hv.to_path w (h.mem_stack.mpr (Or.inr hw))
      have hlt := h.rank_lt hw
      rcases List.mem_cons.mp hu' with rfl | hu'
      · omega
      · exact ⟨u', hu', by omega, hr.trans (hnode.trans hr')⟩
    · exact ⟨u, hu, hle, hr⟩

/-- No edge leads from the node, or from what lies above it, below it. -/
def Isolated (Edge : α → α → Prop) (node : α) (above base : List α) : Prop :=
  ∀ u ∈ node :: above, ∀ v ∈ base, ¬Edge u v

theorem Explored.not_mem_base (h : Explored Edge path s node above base) {v : α}
    (hv : v ∈ node :: above) : v ∉ base := by
  intro hb
  have hlt := h.rank_lt hb
  have hge := h.rank_ge hv
  omega

theorem Explored.pop (h : Explored Edge path s node above base)
    (hiso : Isolated Edge node above base) : Valid Edge path { s with stack := base } := by
  have hv := h.valid
  have hbase : ∀ v ∈ base, v ∈ s.stack := fun v hb => h.mem_stack.mpr (Or.inr hb)
  constructor
  case rank_lt => exact hv.rank_lt
  case stack_visited => exact fun v hb => hv.stack_visited v (hbase v hb)
  case sorted =>
    have hs := hv.sorted
    rw [h.stack] at hs
    exact (List.pairwise_cons.mp (List.pairwise_append.mp hs).2.1).2
  case path_subset => exact h.path_subset
  case closed => exact fun u v hu => h.closed hu
  case complete =>
    intro u v hu hs hedge hb
    by_cases hm : u ∈ s.stack
    · rcases h.mem_stack.mp hm with hc | hc
      · exact hiso u hc v hb hedge
      · exact hs hc
    · exact hv.complete u v hu hm hedge (hbase v hb)
  case from_path =>
    exact fun u hu v hb => hv.from_path u (List.mem_cons_of_mem _ hu) v (hbase v hb)
  case to_path =>
    intro v hb
    obtain ⟨u, hu, hle, hr⟩ := hv.to_path v (hbase v hb)
    rcases List.mem_cons.mp hu with rfl | hu
    · have := h.rank_lt hb
      omega
    · exact ⟨u, hu, hle, hr⟩

/-- From the isolated nodes only these and complete ones are reached. -/
theorem Explored.reach (h : Explored Edge path s node above base)
    (hiso : Isolated Edge node above base) {u v : α} (hu : u ∈ node :: above)
    (hr : ReflTransGen Edge u v) : v ∈ node :: above ∨ s.visited v ∧ v ∉ s.stack := by
  induction hr with
  | refl => exact Or.inl hu
  | @tail w v _ hedge ih =>
    have hpath : ∀ x ∈ node :: above, x ∉ path := by
      exact fun x hx hp => h.not_mem_base hx (h.path_subset x hp)
    rcases ih with hw | ⟨hw, hs⟩
    · have hvis := h.valid.stack_visited w (h.mem_stack.mpr (Or.inl hw))
      have hvv := h.closed hvis (hpath w hw) hedge
      by_cases hm : v ∈ s.stack
      · rcases h.mem_stack.mp hm with hc | hc
        · exact Or.inl hc
        · exact absurd hedge (hiso w hw v hc)
      · exact Or.inr ⟨hvv, hm⟩
    · exact Or.inr (h.valid.complete_reach hw hs (ReflTransGen.single hedge))

theorem Explored.reach_node (h : Explored Edge path s node above base)
    (hiso : Isolated Edge node above base) {v : α} (hv : v ∈ node :: above) :
    ReflTransGen Edge v node := by
  obtain ⟨u, hu, _, hr⟩ := h.valid.to_path v (h.mem_stack.mpr (Or.inl hv))
  rcases List.mem_cons.mp hu with rfl | hu
  · exact hr
  · have hbase := h.path_subset u hu
    rcases h.reach hiso hv hr with hc | ⟨_, hs⟩
    · exact absurd hbase (h.not_mem_base hc)
    · exact absurd (h.mem_stack.mpr (Or.inr hbase)) hs

theorem Explored.reach_from_node (h : Explored Edge path s node above base) {v : α}
    (hv : v ∈ node :: above) : ReflTransGen Edge node v :=
  h.valid.from_path node List.mem_cons_self v (h.mem_stack.mpr (Or.inl hv)) (h.rank_ge hv)

/-- An isolated component has a cycle through each of its nodes, unless it is one node without
a self loop. -/
theorem Explored.onCycle_iff (h : Explored Edge path s node above base)
    (hiso : Isolated Edge node above base) {v : α} (hv : v ∈ node :: above) :
    TransGen Edge v v ↔ above ≠ [] ∨ Edge node node := by
  constructor
  · intro hcycle
    by_cases hne : above = []
    · subst hne
      obtain rfl : v = node := by simpa using hv
      right
      obtain ⟨w, hedge, hr⟩ := TransGen.head'_iff.mp hcycle
      rcases h.reach hiso List.mem_cons_self (ReflTransGen.single hedge) with hw | ⟨hw, hs⟩
      · obtain rfl : w = v := by simpa using hw
        exact hedge
      · exact absurd (h.mem_stack.mpr (Or.inl List.mem_cons_self))
          (h.valid.complete_reach hw hs hr).2
    · exact Or.inl hne
  · rintro (hne | hedge)
    · obtain ⟨w, hw, hvw⟩ : ∃ w ∈ node :: above, v ≠ w := by
        by_cases heq : v = node
        · obtain ⟨w, hw⟩ := List.exists_mem_of_ne_nil above hne
          refine ⟨w, List.mem_cons_of_mem _ hw, ?_⟩
          rintro rfl
          have hnodup := h.valid.nodup
          rw [h.stack] at hnodup
          exact (List.nodup_append.mp hnodup).2.2 node (heq ▸ hw) node List.mem_cons_self rfl
        · exact ⟨node, List.mem_cons_self, heq⟩
      have hforth := (h.reach_node hiso hv).trans (h.reach_from_node hw)
      have hback := (h.reach_node hiso hw).trans (h.reach_from_node hv)
      rcases reflTransGen_iff_eq_or_transGen.mp hforth with heq | htrans
      · exact absurd heq.symm hvw
      · exact htrans.trans_left hback
    · exact ((TransGen.single hedge).trans_right (h.reach_node hiso hv)).trans_left
        (h.reach_from_node hv)

end

end Search

end LoomX
