import LoomX.ComponentSearch
import LoomX.InterproceduralAnalysis

namespace LoomX

open Relation

/-- A summarised function has a call of another one, or of itself. -/
def Calls (summaries : Summaries) (caller callee : String) : Prop :=
  callee ∈ calleesOf summaries caller ∧ (summaries.find? callee).isSome

def OnCallCycle (summaries : Summaries) (name : String) : Prop :=
  TransGen (Calls summaries) name name

namespace CycleSearch

def view (s : CycleSearch) : Search String where
  visited v := (s.index.find? v).isSome
  rank v := (s.index.find? v).getD 0
  next := s.currentIndex
  stack := s.stack

@[simp] theorem view_stack (s : CycleSearch) : s.view.stack = s.stack := rfl

@[simp] theorem view_next (s : CycleSearch) : s.view.next = s.currentIndex := rfl

theorem find?_of_visited {s : CycleSearch} {v : String} (h : s.view.visited v) :
    s.index.find? v = some (s.view.rank v) := by
  obtain ⟨i, hi⟩ := Option.isSome_iff_exists.mp h
  simp [view, hi]

theorem view_enter (s : CycleSearch) (node : String) :
    (s.enter node).view = s.view.enter node := by
  have hfind : ∀ v, (s.enter node).index.find? v =
      if v = node then some s.currentIndex else s.index.find? v := by
    intro v
    simp only [enter, SortedMap.find?_insertWith]
    split
    next heq =>
      subst heq
      cases s.index.find? v <;> rfl
    next => rfl
  simp only [view, Search.enter, Search.mk.injEq]
  refine ⟨?_, ?_, rfl, rfl⟩
  · funext v
    rw [hfind]
    by_cases h : v = node <;> simp [h]
  · funext v
    rw [hfind]
    by_cases h : v = node <;> simp [h]

@[simp] theorem view_lower (s : CycleSearch) (node : String) (value : Option Nat) :
    (s.lower node value).view = s.view := by
  cases value <;> rfl

@[simp] theorem lower_stack (s : CycleSearch) (node : String) (value : Option Nat) :
    (s.lower node value).stack = s.stack := by
  cases value <;> rfl

@[simp] theorem lower_recursive (s : CycleSearch) (node : String) (value : Option Nat) :
    (s.lower node value).recursive = s.recursive := by
  cases value <;> rfl

theorem find?_lower_self {s : CycleSearch} {node : String} {l n : Nat}
    (h : s.lowlink.find? node = some l) :
    (s.lower node (some n)).lowlink.find? node = some (min l n) := by
  simp [lower, SortedMap.find?_insertWith, h, SortedMap.combine]

theorem find?_lower_of_ne {s : CycleSearch} {node v : String} (n : Nat) (h : v ≠ node) :
    (s.lower node (some n)).lowlink.find? v = s.lowlink.find? v := by
  simp [lower, SortedMap.find?_insertWith, h]

theorem find?_lowlink_enter (s : CycleSearch) (node : String) :
    (s.enter node).lowlink.find? node = some s.currentIndex := by
  simp only [enter, SortedMap.find?_insertWith, if_pos]
  cases s.lowlink.find? node <;> rfl

theorem find?_lowlink_enter_of_ne (s : CycleSearch) {node v : String} (h : v ≠ node) :
    (s.enter node).lowlink.find? v = s.lowlink.find? v := by
  simp [enter, SortedMap.find?_insertWith, h]

theorem popComponent_eq {s : CycleSearch} {node : String} {above base : List String}
    (hstack : s.stack = above ++ node :: base) (hnode : node ∉ above) (selfCall : Bool) :
    s.popComponent node selfCall =
      { s with
        stack := base
        recursive := if above ≠ [] ∨ selfCall = true then (node :: above) ++ s.recursive
          else s.recursive } := by
  have hne : ∀ v ∈ above, decide (v ≠ node) = true := by
    intro v hv
    simp only [decide_eq_true_eq]
    exact fun heq => hnode (heq ▸ hv)
  have htake : s.stack.takeWhile (· ≠ node) = above := by
    rw [hstack, List.takeWhile_append_of_pos hne]
    simp
  have hdrop : s.stack.dropWhile (· ≠ node) = node :: base := by
    rw [hstack, List.dropWhile_append_of_pos hne]
    simp
  unfold popComponent
  simp only [htake, hdrop, List.tail_cons]
  cases above <;> cases selfCall <;> simp

/-- The functions recorded so far are those of complete components with a cycle. -/
def Detected (summaries : Summaries) (s : CycleSearch) : Prop :=
  ∀ v, v ∈ s.recursive ↔ (s.view.visited v ∧ v ∉ s.stack) ∧ OnCallCycle summaries v

end CycleSearch

/-- The body of the loop of `dfsSCC` over the callees. -/
def visitCallee (summaries : Summaries) (search : String → CycleSearch → CycleSearch)
    (node : String) (s : CycleSearch) (callee : String) : CycleSearch :=
  if (summaries.find? callee).isNone then s
  else
    match s.index.find? callee with
    | none => (search callee s).lower node ((search callee s).lowlink.find? callee)
    | some i => if s.stack.contains callee then s.lower node (some i) else s

def finishNode (summaries : Summaries) (node : String) (s : CycleSearch) : CycleSearch :=
  if s.lowlink.find? node = s.index.find? node then
    s.popComponent node ((calleesOf summaries node).contains node)
  else s

theorem dfsSCC_succ (summaries : Summaries) (depth : Nat) (node : String) (s : CycleSearch) :
    dfsSCC summaries (depth + 1) node s =
      finishNode summaries node ((calleesOf summaries node).foldl
        (visitCallee summaries (dfsSCC summaries depth) node) (s.enter node)) := rfl

section
variable (summaries : Summaries)

/-- A lowlink points to no old function, or to one on the old stack the node reaches. -/
def LowValue (s : CycleSearch) (node : String) (l : Nat) : Prop :=
  s.currentIndex ≤ l ∨
    ∃ v ∈ s.stack, s.view.rank v = l ∧ ReflTransGen (Calls summaries) node v

/-- What a call of `dfsSCC` for an unvisited function achieves. -/
structure Explores (path : List String) (node : String) (s t : CycleSearch) : Prop where
  valid : Search.Valid (Calls summaries) path t.view
  extended : s.view.Extends t.view
  detected : t.Detected summaries
  visited : t.view.visited node
  lowlink_old : ∀ v, s.view.visited v → t.lowlink.find? v = s.lowlink.find? v
  lowlink : ∃ l, t.lowlink.find? node = some l ∧ LowValue summaries s node l ∧
    ∀ u ∈ t.stack, ¬s.view.visited u → ∀ v ∈ s.stack, Calls summaries u v → l ≤ s.view.rank v

/-- The state of the loop over the callees of `node` once it is through with `processed`. -/
structure Scans (path : List String) (node : String) (s : CycleSearch) (processed : List String)
    (t : CycleSearch) : Prop where
  before : Search.Valid (Calls summaries) path s.view
  new : ¬s.view.visited node
  valid : Search.Valid (Calls summaries) (node :: path) t.view
  extended : (s.enter node).view.Extends t.view
  detected : t.Detected summaries
  successors : ∀ v ∈ processed, (summaries.find? v).isSome → t.view.visited v
  lowlink_old : ∀ v, s.view.visited v → t.lowlink.find? v = s.lowlink.find? v
  lowlink : ∃ l, t.lowlink.find? node = some l ∧ l ≤ s.currentIndex ∧
    LowValue summaries s node l ∧
    (∀ v ∈ processed, (summaries.find? v).isSome → v ∈ s.stack → l ≤ s.view.rank v) ∧
    ∀ u ∈ t.stack, u ≠ node → ¬s.view.visited u → ∀ v ∈ s.stack, Calls summaries u v →
      l ≤ s.view.rank v

end

section
variable {summaries : Summaries} {path processed : List String} {node callee : String}
  {s t t' : CycleSearch}

theorem LowValue.min {l l' : Nat} (h : LowValue summaries s node l)
    (h' : LowValue summaries s node l') : LowValue summaries s node (Min.min l l') := by
  rcases Nat.le_total l l' with hle | hle
  · rwa [Nat.min_eq_left hle]
  · rwa [Nat.min_eq_right hle]

theorem scans_enter (h : Search.Valid (Calls summaries) path s.view)
    (hdet : s.Detected summaries) (hnew : ¬s.view.visited node)
    (hpath : ∀ u ∈ path, ReflTransGen (Calls summaries) u node) :
    Scans summaries path node s [] (s.enter node) := by
  have hne : ∀ v, s.view.visited v → v ≠ node := fun v hv heq => hnew (heq ▸ hv)
  refine ⟨h, hnew, ?_, Search.Extends.refl _, ?_, by simp, ?_, ?_⟩
  · rw [CycleSearch.view_enter]
    exact h.enter hnew hpath
  · intro v
    have hd := hdet v
    have hv := hne v
    rw [CycleSearch.view_enter]
    simp only [CycleSearch.enter, Search.enter, List.mem_cons, not_or]
    rw [hd]
    tauto
  · exact fun v hv => s.find?_lowlink_enter_of_ne (hne v hv)
  · refine ⟨_, s.find?_lowlink_enter node, Nat.le_refl _, Or.inl (Nat.le_refl _), by simp, ?_⟩
    intro u hu hun hnv
    rcases List.mem_cons.mp hu with rfl | hu
    · exact absurd rfl hun
    · exact absurd (h.stack_visited u hu) hnv

namespace Scans

theorem extends_start (h : Scans summaries path node s processed t) :
    s.view.Extends t.view :=
  (Search.extends_enter h.new).trans (s.view_enter node ▸ h.extended)

theorem visited_node (h : Scans summaries path node s processed t) : t.view.visited node := by
  apply h.extended.visited
  rw [CycleSearch.view_enter]
  exact Or.inl rfl

/-- A function on the stack while `node` is scanned gives a lowlink of `node`. -/
theorem lowValue (h : Scans summaries path node s processed t) {v : String} (hv : v ∈ t.stack)
    (hr : ReflTransGen (Calls summaries) node v) :
    LowValue summaries s node (t.view.rank v) := by
  have hext := h.extends_start
  rcases hext.fresh v (h.valid.stack_visited v hv) with hold | hle
  · exact Or.inr ⟨v, hext.mem_of_visited hv hold, (hext.rank v hold).symm, hr⟩
  · exact Or.inl hle

/-- An unknown callee, or one of a complete component, changes nothing. -/
theorem skip (h : Scans summaries path node s processed t)
    (hcallee : (summaries.find? callee).isSome → t.view.visited callee ∧ callee ∉ t.stack) :
    Scans summaries path node s (processed ++ [callee]) t := by
  obtain ⟨l, hl, hle, hlow, hown, habove⟩ := h.lowlink
  refine ⟨h.before, h.new, h.valid, h.extended, h.detected, ?_, h.lowlink_old,
    l, hl, hle, hlow, ?_, habove⟩
  · intro v hv hsome
    rcases List.mem_append.mp hv with hv | hv
    · exact h.successors v hv hsome
    · obtain rfl := List.mem_singleton.mp hv
      exact (hcallee hsome).1
  · intro v hv hsome hs
    rcases List.mem_append.mp hv with hv | hv
    · exact hown v hv hsome hs
    · obtain rfl := List.mem_singleton.mp hv
      exact absurd (h.extends_start.mem_stack hs) (hcallee hsome).2

/-- After a callee was searched, or found on the stack, the lowlink is lowered to `n`. -/
theorem lower (h : Scans summaries path node s processed t)
    (hvalid : Search.Valid (Calls summaries) (node :: path) t'.view)
    (hext : t.view.Extends t'.view) (hdet : t'.Detected summaries)
    (hvis : t'.view.visited callee)
    (hold : ∀ v, t.view.visited v → t'.lowlink.find? v = t.lowlink.find? v)
    {n : Nat} (hn : LowValue summaries s node n)
    (hcallee : callee ∈ s.stack → n ≤ s.view.rank callee)
    (hfresh : ∀ u ∈ t'.stack, ¬t.view.visited u → ∀ v ∈ s.stack, Calls summaries u v →
      n ≤ s.view.rank v) :
    Scans summaries path node s (processed ++ [callee]) (t'.lower node (some n)) := by
  have hne : ∀ v, s.view.visited v → v ≠ node := fun v hv heq => h.new (heq ▸ hv)
  obtain ⟨l, hl, hle, hlow, hown, habove⟩ := h.lowlink
  have hl' : t'.lowlink.find? node = some l := by rw [hold node h.visited_node, hl]
  refine ⟨h.before, h.new, ?_, ?_, ?_, ?_, ?_, Min.min l n, CycleSearch.find?_lower_self hl',
    by omega, hlow.min hn, ?_, ?_⟩
  · rw [CycleSearch.view_lower]
    exact hvalid
  · rw [CycleSearch.view_lower]
    exact h.extended.trans hext
  · intro v
    rw [CycleSearch.lower_recursive, CycleSearch.view_lower]
    exact hdet v
  · intro v hv hsome
    rw [CycleSearch.view_lower]
    rcases List.mem_append.mp hv with hv | hv
    · exact hext.visited v (h.successors v hv hsome)
    · obtain rfl := List.mem_singleton.mp hv
      exact hvis
  · intro v hv
    rw [CycleSearch.find?_lower_of_ne _ (hne v hv), hold v (h.extends_start.visited v hv),
      h.lowlink_old v hv]
  · intro v hv hsome hs
    rcases List.mem_append.mp hv with hv | hv
    · exact Nat.le_trans (Nat.min_le_left _ _) (hown v hv hsome hs)
    · obtain rfl := List.mem_singleton.mp hv
      exact Nat.le_trans (Nat.min_le_right _ _) (hcallee hs)
  · intro u hu hun hnv v hv hedge
    rw [CycleSearch.lower_stack] at hu
    by_cases hut : t.view.visited u
    · exact Nat.le_trans (Nat.min_le_left _ _)
        (habove u (hext.mem_of_visited hu hut) hun hnv v hv hedge)
    · exact Nat.le_trans (Nat.min_le_right _ _) (hfresh u hu hut v hv hedge)

/-- The state of the loop at its end: the successors of the node are visited. -/
theorem explored (h : Scans summaries path node s (calleesOf summaries node) t) :
    ∃ above, Search.Explored (Calls summaries) path t.view node above s.stack ∧
      ∀ v ∈ above, ¬s.view.visited v := by
  obtain ⟨above, hstack, hnew⟩ := h.extended.stack
  rw [CycleSearch.view_enter] at hstack hnew
  refine ⟨above, ⟨h.valid, hstack, h.before.path_subset, ?_⟩, ?_⟩
  · exact fun v hv => h.successors v hv.1 hv.2
  · exact fun v hv hs => hnew v hv (Or.inr hs)

/-- A lowlink that is still the index of the node isolates its component. -/
theorem isolated (h : Scans summaries path node s (calleesOf summaries node) t)
    (hlink : t.lowlink.find? node = some s.currentIndex) {above : List String}
    (hex : Search.Explored (Calls summaries) path t.view node above s.stack)
    (habove : ∀ v ∈ above, ¬s.view.visited v) :
    Search.Isolated (Calls summaries) node above s.stack := by
  obtain ⟨l, hl, _, _, hown, hedges⟩ := h.lowlink
  obtain rfl : l = s.currentIndex := by simpa [hl] using hlink
  intro u hu v hv hedge
  have hlt := h.before.rank_lt v (h.before.stack_visited v hv)
  have hle : s.currentIndex ≤ s.view.rank v := by
    by_cases heq : u = node
    · subst heq
      exact hown v hedge.1 hedge.2 hv
    · have hmem : u ∈ above := by simpa [heq] using hu
      exact hedges u (hex.mem_stack.mpr (Or.inl hu)) heq (habove u hmem) v hv hedge
  rw [CycleSearch.view_next] at hlt
  omega

end Scans

theorem explores_pop (h : Scans summaries path node s (calleesOf summaries node) t)
    (hnode : (summaries.find? node).isSome)
    (hlink : t.lowlink.find? node = some s.currentIndex) :
    Explores summaries path node s
      (t.popComponent node ((calleesOf summaries node).contains node)) := by
  obtain ⟨above, hex, habove⟩ := h.explored
  have hiso := h.isolated hlink hex habove
  have hnot : node ∉ above := by
    have hnodup := h.valid.nodup
    rw [hex.stack] at hnodup
    exact fun hm => (List.nodup_append.mp hnodup).2.2 node hm node List.mem_cons_self rfl
  have hext := h.extends_start
  rw [CycleSearch.popComponent_eq hex.stack hnot]
  refine ⟨hex.pop hiso, ⟨hext.visited, hext.rank, hext.next, hext.fresh, [], rfl, by simp⟩, ?_,
    h.visited_node, h.lowlink_old, s.currentIndex, hlink, Or.inl (Nat.le_refl _), ?_⟩
  · intro v
    have hself : (calleesOf summaries node).contains node = true ↔ Calls summaries node node := by
      simp [Calls, hnode]
    have hd := h.detected v
    show v ∈ (if above ≠ [] ∨ (calleesOf summaries node).contains node = true
        then (node :: above) ++ t.recursive else t.recursive) ↔
      (t.view.visited v ∧ v ∉ s.stack) ∧ OnCallCycle summaries v
    by_cases hv : v ∈ node :: above
    · have hmem : v ∈ t.stack := hex.mem_stack.mpr (Or.inl hv)
      have hvis := h.valid.stack_visited v hmem
      have hbase := hex.not_mem_base hv
      have hold : v ∉ t.recursive := fun hr => (hd.mp hr).1.2 hmem
      rw [OnCallCycle, hex.onCycle_iff hiso hv, ← hself]
      split
      next hc => exact ⟨fun _ => ⟨⟨hvis, hbase⟩, hc⟩, fun _ => List.mem_append_left _ hv⟩
      next hc => exact ⟨fun hr => absurd hr hold, fun hcycle => absurd hcycle.2 hc⟩
    · have hiff : v ∈ t.stack ↔ v ∈ s.stack := by
        rw [← CycleSearch.view_stack t, hex.mem_stack]
        exact or_iff_right hv
      rw [hiff] at hd
      split
      next => simp only [List.mem_append, hv, false_or, hd]
      next => exact hd
  · intro u hu hnv
    exact absurd (h.before.stack_visited u hu) hnv

theorem explores_keep (h : Scans summaries path node s (calleesOf summaries node) t)
    (hlink : t.lowlink.find? node ≠ some s.currentIndex) :
    Explores summaries path node s t := by
  obtain ⟨above, hex, habove⟩ := h.explored
  obtain ⟨l, hl, hle, hlow, hown, hedges⟩ := h.lowlink
  have hlt : l < s.currentIndex := by
    apply Nat.lt_of_le_of_ne hle
    rintro rfl
    exact hlink hl
  have hdown : ∃ v ∈ s.stack, ReflTransGen (Calls summaries) node v := by
    rcases hlow with hge | ⟨v, hv, _, hr⟩
    · omega
    · exact ⟨v, hv, hr⟩
  refine ⟨hex.keep hdown, h.extends_start, h.detected, h.visited_node, h.lowlink_old,
    l, hl, hlow, ?_⟩
  intro u hu hnv v hv hedge
  by_cases heq : u = node
  · subst heq
    exact hown v hedge.1 hedge.2 hv
  · exact hedges u hu heq hnv v hv hedge

theorem explores_finish (h : Scans summaries path node s (calleesOf summaries node) t)
    (hnode : (summaries.find? node).isSome) :
    Explores summaries path node s (finishNode summaries node t) := by
  have hindex : t.index.find? node = some s.currentIndex := by
    have hvis : (s.enter node).view.visited node := by
      rw [CycleSearch.view_enter]
      exact Or.inl rfl
    rw [CycleSearch.find?_of_visited h.visited_node, h.extended.rank node hvis,
      CycleSearch.view_enter]
    simp [Search.enter]
  unfold finishNode
  rw [hindex]
  split
  next hlink => exact explores_pop h hnode hlink
  next hlink => exact explores_keep h hlink

end

end LoomX
