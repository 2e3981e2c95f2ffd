import LoomX.ComponentSearch
import Mathlib.Order.Nat

namespace LoomX.Search

open Relation

variable {α : Type} {Edge : α → α → Prop} {path processed : List α} {node next : α}
  {s t t' : Search α} {low low' : α → Nat}

/-- A lowlink points to no old node, or to one on the old stack that the node reaches. -/
def LowValue (Edge : α → α → Prop) (s : Search α) (node : α) (l : Nat) : Prop :=
  s.next ≤ l ∨ ∃ v ∈ s.stack, s.rank v = l ∧ ReflTransGen Edge node v

/-- What the search from an unvisited node achieves; `low` and `low'` are the lowlinks before
and after it. -/
structure Explores (Edge : α → α → Prop) (path : List α) (node : α) (s t : Search α)
    (low low' : α → Nat) : Prop where
  valid : Valid Edge path t
  extended : s.Extends t
  visited : t.visited node
  low_old : ∀ v, s.visited v → low' v = low v
  low_value : LowValue Edge s node (low' node)
  low_le : ∀ u ∈ t.stack, ¬s.visited u → ∀ v ∈ s.stack, Edge u v → low' node ≤ s.rank v

section
variable [DecidableEq α]

/-- The state of the loop over the successors of `node` once it is through with `processed`. -/
structure Scans (Edge : α → α → Prop) (path : List α) (node : α) (s : Search α)
    (processed : List α) (t : Search α) (low low' : α → Nat) : Prop where
  before : Valid Edge path s
  new : ¬s.visited node
  valid : Valid Edge (node :: path) t
  extended : (s.enter node).Extends t
  successors : ∀ v ∈ processed, t.visited v
  low_old : ∀ v, s.visited v → low' v = low v
  low_bound : low' node ≤ s.next
  low_value : LowValue Edge s node (low' node)
  low_own : ∀ v ∈ processed, v ∈ s.stack → low' node ≤ s.rank v
  low_above : ∀ u ∈ t.stack, u ≠ node → ¬s.visited u → ∀ v ∈ s.stack, Edge u v →
    low' node ≤ s.rank v

namespace Scans

theorem enter (h : Valid Edge path s) (hnew : ¬s.visited node)
    (hpath : ∀ u ∈ path, ReflTransGen Edge u node) (hold : ∀ v, v ≠ node → low' v = low v)
    (hlow : low' node = s.next) : Scans Edge path node s [] (s.enter node) low low' := by
  refine ⟨h, hnew, h.enter hnew hpath, .refl _, by simp, ?_, hlow.le, Or.inl hlow.ge, by simp, ?_⟩
  · exact fun v hv => hold v fun heq => hnew (heq ▸ hv)
  · intro u hu hun hnv
    rcases List.mem_cons.mp hu with rfl | hu
    · exact absurd rfl hun
    · exact absurd (h.stack_visited u hu) hnv

theorem extends_start (h : Scans Edge path node s processed t low low') : s.Extends t :=
  (extends_enter h.new).trans h.extended

theorem visited_node (h : Scans Edge path node s processed t low low') : t.visited node :=
  h.extended.visited node (Or.inl rfl)

theorem rank_node (h : Scans Edge path node s processed t low low') : t.rank node = s.next := by
  rw [h.extended.rank node (Or.inl rfl)]
  exact if_pos rfl

/-- A node on the stack while `node` is scanned gives a lowlink of `node`. -/
theorem lowValue (h : Scans Edge path node s processed t low low') {v : α} (hv : v ∈ t.stack)
    (hr : ReflTransGen Edge node v) : LowValue Edge s node (t.rank v) := by
  have hext := h.extends_start
  rcases hext.fresh v (h.valid.stack_visited v hv) with hold | hle
  · exact Or.inr ⟨v, hext.mem_of_visited hv hold, (hext.rank v hold).symm, hr⟩
  · exact Or.inl hle

/-- A visited successor that is complete, or ranks above the lowlink, changes nothing. -/
theorem skip (h : Scans Edge path node s processed t low low') (hvis : t.visited next)
    (hlow : next ∈ t.stack → low' node ≤ t.rank next) :
    Scans Edge path node s (processed ++ [next]) t low low' := by
  refine ⟨h.before, h.new, h.valid, h.extended, ?_, h.low_old, h.low_bound, h.low_value, ?_,
    h.low_above⟩
  · intro v hv
    rcases List.mem_append.mp hv with hv | hv
    · exact h.successors v hv
    · obtain rfl := List.mem_singleton.mp hv
      exact hvis
  · intro v hv hs
    rcases List.mem_append.mp hv with hv | hv
    · exact h.low_own v hv hs
    · obtain rfl := List.mem_singleton.mp hv
      rw [← h.extends_start.rank v (h.before.stack_visited v hs)]
      exact hlow (h.extends_start.mem_stack hs)

/-- A successor on the stack lowers the lowlink to its rank. -/
theorem lower (h : Scans Edge path node s processed t low low') {low'' : α → Nat}
    (hstack : next ∈ t.stack) (hedge : Edge node next) (hlt : t.rank next < low' node)
    (hold : ∀ v, v ≠ node → low'' v = low' v) (hlow : low'' node = t.rank next) :
    Scans Edge path node s (processed ++ [next]) t low low'' := by
  have hne : ∀ v, s.visited v → v ≠ node := fun v hv heq => h.new (heq ▸ hv)
  refine ⟨h.before, h.new, h.valid, h.extended, ?_, ?_, ?_, ?_, ?_, ?_⟩
  · intro v hv
    rcases List.mem_append.mp hv with hv | hv
    · exact h.successors v hv
    · obtain rfl := List.mem_singleton.mp hv
      exact h.valid.stack_visited v hstack
  · exact fun v hv => (hold v (hne v hv)).trans (h.low_old v hv)
  · have := h.low_bound
    omega
  · rw [hlow]
    exact h.lowValue hstack (.single hedge)
  · intro v hv hs
    rw [hlow]
    rcases List.mem_append.mp hv with hv | hv
    · exact hlt.le.trans (h.low_own v hv hs)
    · obtain rfl := List.mem_singleton.mp hv
      exact (h.extends_start.rank v (h.before.stack_visited v hs)).le
  · intro u hu hun hnv v hv he
    rw [hlow]
    exact hlt.le.trans (h.low_above u hu hun hnv v hv he)

/-- An unvisited successor is searched and hands its lowlink on. -/
theorem explore (h : Scans Edge path node s processed t low low') {low₁ low'' : α → Nat}
    (hexp : Explores Edge (node :: path) next t t' low' low₁) (hnew : ¬t.visited next)
    (hedge : Edge node next) (hold : ∀ v, v ≠ node → low'' v = low₁ v)
    (hlow : low'' node = min (low₁ node) (low₁ next)) :
    Scans Edge path node s (processed ++ [next]) t' low low'' := by
  have hne : ∀ v, s.visited v → v ≠ node := fun v hv heq => h.new (heq ▸ hv)
  have hext := h.extends_start
  have hnode : low₁ node = low' node := hexp.low_old node h.visited_node
  rw [hnode] at hlow
  refine ⟨h.before, h.new, hexp.valid, h.extended.trans hexp.extended, ?_, ?_, ?_, ?_, ?_, ?_⟩
  · intro v hv
    rcases List.mem_append.mp hv with hv | hv
    · exact hexp.extended.visited v (h.successors v hv)
    · obtain rfl := List.mem_singleton.mp hv
      exact hexp.visited
  · intro v hv
    rw [hold v (hne v hv), hexp.low_old v (hext.visited v hv), h.low_old v hv]
  · have := h.low_bound
    omega
  · rw [hlow]
    rcases Nat.le_total (low' node) (low₁ next) with hle | hle
    · rw [Nat.min_eq_left hle]
      exact h.low_value
    · rw [Nat.min_eq_right hle]
      rcases hexp.low_value with hge | ⟨v, hv, hrank, hr⟩
      · exact Or.inl (hext.next.trans hge)
      · rw [← hrank]
        exact h.lowValue hv (.head hedge hr)
  · intro v hv hs
    rw [hlow]
    rcases List.mem_append.mp hv with hv | hv
    · exact (Nat.min_le_left _ _).trans (h.low_own v hv hs)
    · obtain rfl := List.mem_singleton.mp hv
      exact absurd (hext.visited v (h.before.stack_visited v hs)) hnew
  · intro u hu hun hnv v hv he
    rw [hlow]
    by_cases hut : t.visited u
    · exact (Nat.min_le_left _ _).trans
        (h.low_above u (hexp.extended.mem_of_visited hu hut) hun hnv v hv he)
    · rw [← hext.rank v (h.before.stack_visited v hv)]
      exact (Nat.min_le_right _ _).trans (hexp.low_le u hu hut v (hext.mem_stack hv) he)

/-- The state of the loop at its end: the successors of the node are visited. -/
theorem explored (h : Scans Edge path node s processed t low low')
    (hall : ∀ v, Edge node v → v ∈ processed) :
    ∃ above, Explored Edge path t node above s.stack ∧ ∀ v ∈ above, ¬s.visited v := by
  obtain ⟨above, hstack, hnew⟩ := h.extended.stack
  exact ⟨above, ⟨h.valid, hstack, h.before.path_subset, fun v hv => h.successors v (hall v hv)⟩,
    fun v hv hs => hnew v hv (Or.inr hs)⟩

/-- A lowlink that is still the rank of the node isolates its component. -/
theorem isolated (h : Scans Edge path node s processed t low low')
    (hall : ∀ v, Edge node v → v ∈ processed) (hlink : low' node = s.next) {above : List α}
    (hex : Explored Edge path t node above s.stack) (habove : ∀ v ∈ above, ¬s.visited v) :
    Isolated Edge node above s.stack := by
  intro u hu v hv hedge
  have hlt := h.before.rank_lt v (h.before.stack_visited v hv)
  have hle : low' node ≤ s.rank v := by
    by_cases heq : u = node
    · subst heq
      exact h.low_own v (hall v hedge) hv
    · have hmem : u ∈ above := by simpa [heq] using hu
      exact h.low_above u (hex.mem_stack.mpr (Or.inl hu)) heq (habove u hmem) v hv hedge
  omega

/-- The component of a node that keeps its rank is taken off the stack. -/
theorem pop (h : Scans Edge path node s processed t low low')
    (hall : ∀ v, Edge node v → v ∈ processed) (hlink : low' node = s.next) :
    Explores Edge path node s { t with stack := s.stack } low low' := by
  obtain ⟨above, hex, habove⟩ := h.explored hall
  have hext := h.extends_start
  refine ⟨hex.pop (h.isolated hall hlink hex habove),
    ⟨hext.visited, hext.rank, hext.next, hext.fresh, [], rfl, by simp⟩, h.visited_node,
    h.low_old, h.low_value, ?_⟩
  exact fun u hu hnv => absurd (h.before.stack_visited u hu) hnv

/-- A node with a lower link stays on the stack. -/
theorem keep (h : Scans Edge path node s processed t low low')
    (hall : ∀ v, Edge node v → v ∈ processed) (hlink : low' node ≠ s.next) :
    Explores Edge path node s t low low' := by
  obtain ⟨above, hex, habove⟩ := h.explored hall
  have hlt : low' node < s.next := lt_of_le_of_ne h.low_bound hlink
  have hdown : ∃ v ∈ s.stack, ReflTransGen Edge node v := by
    rcases h.low_value with hge | ⟨v, hv, _, hr⟩
    · omega
    · exact ⟨v, hv, hr⟩
  refine ⟨hex.keep hdown, h.extends_start, h.visited_node, h.low_old, h.low_value, ?_⟩
  intro u hu hnv v hv hedge
  by_cases heq : u = node
  · subst heq
    exact h.low_own v (hall v hedge) hv
  · exact h.low_above u hu heq hnv v hv hedge

end Scans

end

/-- Each of two nodes reaches the other. -/
def Mutual (Edge : α → α → Prop) (u v : α) : Prop :=
  ReflTransGen Edge u v ∧ ReflTransGen Edge v u

/-- The components taken off the stack so far, in their order. -/
structure Emitted (Edge : α → α → Prop) (s : Search α) (sccs : List (List α)) : Prop where
  mem_iff : ∀ v, v ∈ sccs.flatten ↔ s.visited v ∧ v ∉ s.stack
  nodup : sccs.flatten.Nodup
  nonempty : ∀ scc ∈ sccs, scc ≠ []
  strong : ∀ scc ∈ sccs, ∀ u ∈ scc, ∀ v, v ∈ scc ↔ Mutual Edge u v
  ordered : sccs.Pairwise fun scc later => ∀ u ∈ scc, ∀ v ∈ later, ¬ReflTransGen Edge u v

theorem Emitted.enter [DecidableEq α] {sccs : List (List α)} (h : Emitted Edge s sccs)
    (hnew : ¬s.visited node) : Emitted Edge (s.enter node) sccs := by
  refine ⟨fun v => ?_, h.nodup, h.nonempty, h.strong, h.ordered⟩
  rw [h.mem_iff v]
  by_cases hv : v = node
  · subst hv
    simp [Search.enter, hnew]
  · simp [Search.enter, hv]

/-- The nodes above an isolated one form its component. -/
theorem Explored.mutual_iff {above base : List α} (h : Explored Edge path t node above base)
    (hiso : Isolated Edge node above base) {u v : α} (hu : u ∈ node :: above) :
    v ∈ node :: above ↔ Mutual Edge u v := by
  constructor
  · intro hv
    exact ⟨(h.reach_node hiso hu).trans (h.reach_from_node hv),
      (h.reach_node hiso hv).trans (h.reach_from_node hu)⟩
  · rintro ⟨huv, hvu⟩
    rcases h.reach hiso hu huv with hv | ⟨hv, hs⟩
    · exact hv
    · exact absurd (h.mem_stack.mpr (Or.inl hu)) (h.valid.complete_reach hv hs hvu).2

theorem Explored.emit {above base : List α} {sccs : List (List α)}
    (h : Explored Edge path t node above base) (hiso : Isolated Edge node above base)
    (hsccs : Emitted Edge t sccs) :
    Emitted Edge { t with stack := base } (sccs ++ [above ++ [node]]) := by
  have hperm (v : α) : v ∈ above ++ [node] ↔ v ∈ node :: above := by
    simp only [List.mem_append, List.mem_cons, List.not_mem_nil, or_false]
    exact or_comm
  have hold {v : α} (hv : v ∈ sccs.flatten) : v ∉ node :: above := fun hmem =>
    ((hsccs.mem_iff v).mp hv).2 (h.mem_stack.mpr (Or.inl hmem))
  refine ⟨fun v => ?_, ?_, ?_, ?_, ?_⟩
  · rw [List.flatten_append, List.mem_append, List.flatten_singleton, hperm, hsccs.mem_iff v,
      h.mem_stack]
    have hvis : v ∈ node :: above → t.visited v := fun hv =>
      h.valid.stack_visited v (h.mem_stack.mpr (Or.inl hv))
    have hbase := fun hv : v ∈ node :: above => h.not_mem_base hv
    show t.visited v ∧ ¬(v ∈ node :: above ∨ v ∈ base) ∨ v ∈ node :: above ↔
      t.visited v ∧ v ∉ base
    tauto
  · rw [List.flatten_append, List.flatten_singleton, List.nodup_append]
    have hnodup := h.valid.nodup
    rw [h.stack, List.append_cons] at hnodup
    refine ⟨hsccs.nodup, (List.nodup_append.mp hnodup).1, fun u hu v hv heq => ?_⟩
    subst heq
    exact hold hu ((hperm u).mp hv)
  · intro scc hscc
    rcases List.mem_append.mp hscc with hscc | hscc
    · exact hsccs.nonempty scc hscc
    · rw [List.mem_singleton.mp hscc]
      simp
  · intro scc hscc u hu v
    rcases List.mem_append.mp hscc with hscc | hscc
    · exact hsccs.strong scc hscc u hu v
    · rw [List.mem_singleton.mp hscc] at hu ⊢
      rw [hperm]
      exact h.mutual_iff hiso ((hperm u).mp hu)
  · refine List.pairwise_append.mpr ⟨hsccs.ordered, List.pairwise_singleton _ _, ?_⟩
    intro scc hscc later hlater u hu v hv hr
    rw [List.mem_singleton.mp hlater] at hv
    obtain ⟨hvis, hstack⟩ := (hsccs.mem_iff u).mp (List.mem_flatten_of_mem hscc hu)
    exact (h.valid.complete_reach hvis hstack hr).2 (h.mem_stack.mpr (Or.inl ((hperm v).mp hv)))

end LoomX.Search
