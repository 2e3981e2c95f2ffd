import LoomX.Graph.FusionInvariant
import LoomX.LowlinkSearch

namespace LoomX.Graph

structure SCCNodeStatus where
  lowlink : Nat := 0
  dfnumber : Nat := 0
  inStack : Bool := false
  mark : Bool := false

/-- The state of the search, with the components handed to the operator so far. -/
structure LowLinkState (Node : Type) where
  status : Node → SCCNodeStatus
  nodeStack : List Node
  count : Nat
  sccs : List (List Node)

namespace LowLinkState

variable {Node : Type} [DecidableEq Node]

def initial : LowLinkState Node where
  status _ := {}
  nodeStack := []
  count := 0
  sccs := []

/-- A new node is marked, numbered and pushed on the stack. -/
def enter (s : LowLinkState Node) (v : Node) : LowLinkState Node where
  status := Function.update s.status v
    { lowlink := s.count + 1, dfnumber := s.count + 1, inStack := true, mark := true }
  nodeStack := v :: s.nodeStack
  count := s.count + 1
  sccs := s.sccs

def setLowlink (s : LowLinkState Node) (v : Node) (n : Nat) : LowLinkState Node :=
  { s with status := Function.update s.status v { s.status v with lowlink := n } }

/-- The nodes popped until a node comes off, and the stack left. -/
def popUntil (v : Node) : List Node → Option (List Node × List Node)
  | [] => none
  | x :: rest =>
    if x = v then some ([x], rest)
    else do
      let (popped, left) ← popUntil v rest
      return (x :: popped, left)

/-- The nodes above a node with its own lowlink leave the stack as a component. -/
def finish (s : LowLinkState Node) (v : Node) : Option (LowLinkState Node) :=
  if (s.status v).lowlink = (s.status v).dfnumber then do
    let (popped, left) ← popUntil v s.nodeStack
    return { s with
      status := fun x => if x ∈ popped then { s.status x with inStack := false } else s.status x
      nodeStack := left
      sccs := s.sccs ++ [popped] }
  else some s

end LowLinkState

section
variable {Node Edge : Type} [DecidableEq Node] (dg : GraphAccess Node Edge)

/-- The body of the loop of `SCCAnalHelp` over the out edges of a node. -/
def sccVisitEdge (search : Node → LowLinkState Node → Option (LowLinkState Node)) (v : Node)
    (s : LowLinkState Node) (e : Edge) : Option (LowLinkState Node) :=
  let w := dg.sink e
  if !(s.status w).mark then do
    let s ← search w s
    if (s.status v).lowlink > (s.status w).lowlink then
      return s.setLowlink v (s.status w).lowlink
    else return s
  else if (s.status w).dfnumber < (s.status v).lowlink ∧ (s.status w).inStack = true then
    some (s.setLowlink v (s.status w).dfnumber)
  else some s

/-- The depth-first search from an unmarked node; it gives up when the fuel runs out. -/
def sccAnalHelp : Nat → Node → LowLinkState Node → Option (LowLinkState Node)
  | 0, _, _ => none
  | fuel + 1, v, s => do
    let s ← (dg.outEdges v).foldlM (sccVisitEdge dg (sccAnalHelp fuel) v) (s.enter v)
    s.finish v

def sccAnalysis : Option (LowLinkState Node) :=
  dg.nodes.foldlM (fun s n =>
    if !(s.status n).mark then sccAnalHelp dg dg.nodes.length n s else some s) .initial

/-- The index of the component a node was added to. -/
def getSCCNode (sccs : List (List Node)) (n : Node) : Nat :=
  sccs.findIdx (n ∈ ·)

/-- The edges of the graph of components, each with the edge it stands for. -/
def sccGraphCreate (sccs : List (List Node)) : List (Nat × Nat × Edge) :=
  sccs.zipIdx.flatMap fun (scc, i) =>
    scc.flatMap fun src =>
      (dg.outEdges src).filterMap fun e =>
        if i ≠ getSCCNode sccs (dg.sink e) then some (i, getSCCNode sccs (dg.sink e), e) else none

end

open Relation

variable {Node Edge : Type} [DecidableEq Node]

namespace LowLinkState

def view (s : LowLinkState Node) : Search Node where
  visited v := (s.status v).mark = true
  rank v := (s.status v).dfnumber
  next := s.count + 1
  stack := s.nodeStack

def low (s : LowLinkState Node) (v : Node) : Nat :=
  (s.status v).lowlink

theorem view_enter (s : LowLinkState Node) (v : Node) : (s.enter v).view = s.view.enter v := by
  simp only [view, enter, Search.enter, Search.mk.injEq]
  refine ⟨?_, ?_, trivial, trivial⟩
  · funext u
    by_cases h : u = v
    · subst h
      simp
    · simp [h]
  · funext u
    by_cases h : u = v
    · subst h
      simp
    · simp [h]

@[simp] theorem view_setLowlink (s : LowLinkState Node) (v : Node) (n : Nat) :
    (s.setLowlink v n).view = s.view := by
  simp only [view, setLowlink, Search.mk.injEq]
  refine ⟨?_, ?_, trivial, trivial⟩
  · funext u
    by_cases h : u = v
    · subst h
      simp
    · simp [h]
  · funext u
    by_cases h : u = v
    · subst h
      simp
    · simp [h]

theorem low_setLowlink_self (s : LowLinkState Node) (v : Node) (n : Nat) :
    (s.setLowlink v n).low v = n := by
  simp [low, setLowlink]

theorem low_setLowlink_of_ne (s : LowLinkState Node) {u v : Node} (n : Nat) (h : u ≠ v) :
    (s.setLowlink v n).low u = s.low u := by
  simp [low, setLowlink, h]

/-- The flags of the status mark the nodes on the stack, and the components are exact so far. -/
structure Sound (dg : GraphAccess Node Edge) (s : LowLinkState Node) : Prop where
  flags : ∀ v, (s.status v).inStack = true ↔ v ∈ s.nodeStack
  emitted : s.view.Emitted dg.Step s.sccs
  mem_nodes : ∀ v, s.view.visited v → v ∈ dg.nodes

variable {dg : GraphAccess Node Edge} {s t : LowLinkState Node} {v : Node}

theorem Sound.enter (h : Sound dg s) (hv : v ∈ dg.nodes) (hnew : ¬s.view.visited v) :
    Sound dg (s.enter v) := by
  refine ⟨fun u => ?_, ?_, fun u hu => ?_⟩
  · by_cases hu : u = v
    · subst hu
      simp [LowLinkState.enter]
    · simpa [LowLinkState.enter, hu] using h.flags u
  · rw [view_enter]
    exact h.emitted.enter hnew
  · rw [view_enter] at hu
    rcases hu with rfl | hu
    · exact hv
    · exact h.mem_nodes u hu

theorem Sound.setLowlink (h : Sound dg s) (n : Nat) : Sound dg (s.setLowlink v n) := by
  refine ⟨fun u => ?_, ?_, ?_⟩
  · by_cases hu : u = v
    · subst hu
      simpa [LowLinkState.setLowlink] using h.flags u
    · simpa [LowLinkState.setLowlink, hu] using h.flags u
  · rw [view_setLowlink]
    exact h.emitted
  · rw [view_setLowlink]
    exact h.mem_nodes

theorem popUntil_eq {above base : List Node} (h : v ∉ above) :
    popUntil v (above ++ v :: base) = some (above ++ [v], base) := by
  induction above with
  | nil => simp [popUntil]
  | cons x above ih =>
    rw [List.mem_cons, not_or] at h
    simp [popUntil, Ne.symm h.1, ih h.2]

end LowLinkState

open LowLinkState

variable {dg : GraphAccess Node Edge} {path : List Node} {v : Node} {s : LowLinkState Node}

/-- The end of a search: the component of its root leaves the stack, or the root stays. -/
theorem finish_explores {t : LowLinkState Node} {processed : List Node}
    (h : Search.Scans dg.Step path v s.view processed t.view s.low t.low)
    (hall : ∀ w, dg.Step v w → w ∈ processed) (hsound : Sound dg t) :
    ∃ t', t.finish v = some t' ∧ Sound dg t' ∧
      Search.Explores dg.Step path v s.view t'.view s.low t'.low := by
  have hrank : (t.status v).dfnumber = s.view.next := h.rank_node
  unfold LowLinkState.finish
  split
  next hlink =>
    have hlow : t.low v = s.view.next := hlink.trans hrank
    obtain ⟨above, hex, habove⟩ := h.explored hall
    have hiso := h.isolated hall hlow hex habove
    have hstack : t.nodeStack = above ++ v :: s.view.stack := hex.stack
    have hnodup := h.valid.nodup
    rw [hex.stack] at hnodup
    have hnot : v ∉ above := fun hm =>
      (List.nodup_append.mp hnodup).2.2 v hm v List.mem_cons_self rfl
    have hmem (u : Node) : u ∈ above ++ [v] ↔ u ∈ v :: above := by
      simp only [List.mem_append, List.mem_cons, List.not_mem_nil, or_false]
      exact or_comm
    rw [hstack, popUntil_eq hnot]
    have hview : LowLinkState.view { t with
        status := fun x => if x ∈ above ++ [v] then { t.status x with inStack := false } else t.status x
        nodeStack := s.view.stack
        sccs := t.sccs ++ [above ++ [v]] } = { t.view with stack := s.view.stack } := by
      simp only [LowLinkState.view, Search.mk.injEq]
      refine ⟨?_, ?_, trivial, trivial⟩
      · funext u
        split <;> rfl
      · funext u
        split <;> rfl
    have hlowlink (u : Node) : LowLinkState.low { t with
        status := fun x => if x ∈ above ++ [v] then { t.status x with inStack := false } else t.status x
        nodeStack := s.view.stack
        sccs := t.sccs ++ [above ++ [v]] } u = t.low u := by
      simp only [LowLinkState.low]
      split <;> rfl
    refine ⟨_, rfl, ⟨fun u => ?_, ?_, ?_⟩, ?_⟩
    · have hflag := hsound.flags u
      rw [hstack] at hflag
      have hbase := hex.not_mem_base (v := u)
      by_cases hu : u ∈ above ++ [v]
      · simp only [if_pos hu]
        exact ⟨nofun, fun hmem' => absurd hmem' (hbase ((hmem u).mp hu))⟩
      · simp only [if_neg hu, hflag]
        rw [List.append_cons, List.mem_append]
        exact or_iff_right hu
    · rw [hview]
      exact hex.emit hiso hsound.emitted
    · rw [hview]
      exact hsound.mem_nodes
    · rw [hview, show LowLinkState.low _ = t.low from funext hlowlink]
      exact h.pop hall hlow
  next hlink =>
    exact ⟨t, rfl, hsound, h.keep hall fun hlow => hlink (hlow.trans hrank.symm)⟩

/-- What the search of a successor has to achieve for the loop over the out edges. -/
def SearchSpec (dg : GraphAccess Node Edge) (path : List Node)
    (search : Node → LowLinkState Node → Option (LowLinkState Node)) : Prop :=
  ∀ w s, w ∈ dg.nodes → ¬s.view.visited w → Search.Valid dg.Step path s.view → Sound dg s →
    (∀ u ∈ path, ReflTransGen dg.Step u w) →
    ∃ t, search w s = some t ∧ Sound dg t ∧
      Search.Explores dg.Step path w s.view t.view s.low t.low

theorem visitEdge_scans {search : Node → LowLinkState Node → Option (LowLinkState Node)}
    (hsearch : SearchSpec dg (v :: path) search) (hpath : ∀ u ∈ path, ReflTransGen dg.Step u v)
    {processed : List Node} {t : LowLinkState Node} {e : Edge} (he : dg.source e = v)
    (h : Search.Scans dg.Step path v s.view processed t.view s.low t.low) (hsound : Sound dg t) :
    ∃ t', sccVisitEdge dg search v t e = some t' ∧ Sound dg t' ∧
      Search.Scans dg.Step path v s.view (processed ++ [dg.sink e]) t'.view s.low t'.low := by
  have hedge : dg.Step v (dg.sink e) := ⟨e, he, rfl⟩
  unfold sccVisitEdge
  by_cases hmark : (t.status (dg.sink e)).mark = true
  · simp only [hmark, Bool.not_true, Bool.false_eq_true, if_false]
    split
    next hlow =>
      have hstack := (hsound.flags _).mp hlow.2
      refine ⟨_, rfl, hsound.setLowlink _, ?_⟩
      rw [view_setLowlink]
      exact h.lower hstack hedge hlow.1 (fun u hu => t.low_setLowlink_of_ne _ hu)
        (t.low_setLowlink_self _ _)
    next hlow =>
      refine ⟨t, rfl, hsound, h.skip hmark fun hstack => ?_⟩
      by_contra hlt
      exact hlow ⟨not_le.mp hlt, (hsound.flags _).mpr hstack⟩
  · have hreach (u : Node) (hu : u ∈ v :: path) : ReflTransGen dg.Step u (dg.sink e) := by
      rcases List.mem_cons.mp hu with rfl | hu
      · exact .single hedge
      · exact (hpath u hu).tail hedge
    obtain ⟨t₁, hrun, hsound₁, hexp⟩ := hsearch _ t (dg.sink_mem e) hmark h.valid hsound hreach
    simp only [Bool.eq_false_iff.mpr hmark, Bool.not_false, if_true, hrun, Option.bind_eq_bind,
      Option.bind_some, Option.pure_def]
    split
    next hgt =>
      refine ⟨_, rfl, hsound₁.setLowlink _, ?_⟩
      rw [view_setLowlink]
      refine h.explore hexp hmark hedge (fun u hu => t₁.low_setLowlink_of_ne _ hu) ?_
      rw [t₁.low_setLowlink_self]
      exact (Nat.min_eq_right (Nat.le_of_lt hgt)).symm
    next hgt =>
      refine ⟨t₁, rfl, hsound₁, h.explore hexp hmark hedge (fun _ _ => rfl) ?_⟩
      exact (Nat.min_eq_left (not_lt.mp hgt)).symm

theorem visitEdges_scans {search : Node → LowLinkState Node → Option (LowLinkState Node)}
    (hsearch : SearchSpec dg (v :: path) search) (hpath : ∀ u ∈ path, ReflTransGen dg.Step u v)
    {edges : List Edge} (hedges : ∀ e ∈ edges, dg.source e = v) {processed : List Node}
    {t : LowLinkState Node}
    (h : Search.Scans dg.Step path v s.view processed t.view s.low t.low) (hsound : Sound dg t) :
    ∃ t', edges.foldlM (sccVisitEdge dg search v) t = some t' ∧ Sound dg t' ∧
      Search.Scans dg.Step path v s.view (processed ++ edges.map dg.sink) t'.view s.low t'.low := by
  induction edges generalizing processed t with
  | nil => exact ⟨t, rfl, hsound, by simpa using h⟩
  | cons e edges ih =>
    obtain ⟨t₁, hvisit, hsound₁, h₁⟩ := visitEdge_scans hsearch hpath
      (hedges e List.mem_cons_self) h hsound
    obtain ⟨t', hfold, hsound', h'⟩ := ih (fun e he => hedges e (List.mem_cons_of_mem _ he))
      h₁ hsound₁
    refine ⟨t', ?_, hsound', by simpa using h'⟩
    rw [List.foldlM_cons, hvisit]
    exact hfold

/-- The depth of the search is bounded by the nodes that are not on the path. -/
theorem sccAnalHelp_spec {fuel : Nat} (hnodup : path.Nodup) (hsub : ∀ u ∈ path, u ∈ dg.nodes)
    (hfuel : dg.nodes.length ≤ path.length + fuel) :
    SearchSpec dg path (sccAnalHelp dg fuel) := by
  induction fuel generalizing path with
  | zero =>
    intro w s hw hnew hvalid _ _
    have hpath : w ∉ path := fun hm =>
      hnew (hvalid.stack_visited w (hvalid.path_subset w hm))
    have hle := (List.subperm_of_subset (List.nodup_cons.mpr ⟨hpath, hnodup⟩)
      (List.cons_subset.mpr ⟨hw, hsub⟩)).length_le
    rw [List.length_cons] at hle
    omega
  | succ fuel ih =>
    intro w s hw hnew hvalid hsound hpath
    have hnot : w ∉ path := fun hm => hnew (hvalid.stack_visited w (hvalid.path_subset w hm))
    have hsearch := ih (List.nodup_cons.mpr ⟨hnot, hnodup⟩) (fun u hu => by
        rcases List.mem_cons.mp hu with rfl | hu
        · exact hw
        · exact hsub u hu) (by rw [List.length_cons]; omega)
    have henter : Search.Scans dg.Step path w s.view [] (s.enter w).view s.low (s.enter w).low := by
      rw [view_enter]
      refine .enter hvalid hnew hpath (fun u hu => ?_) ?_
      · simp [LowLinkState.low, LowLinkState.enter, hu]
      · simp [LowLinkState.low, LowLinkState.enter, LowLinkState.view]
    obtain ⟨t, hfold, hsound', hscans⟩ := visitEdges_scans hsearch hpath
      (fun e (he : e ∈ dg.outEdges w) => (dg.mem_outEdges w e).mp he) henter
      (hsound.enter hw hnew)
    obtain ⟨t', hfinish, hsound'', hexp⟩ := finish_explores hscans (fun u hu => by
      obtain ⟨e, he, rfl⟩ := hu
      exact List.mem_append_right _ (List.mem_map_of_mem ((dg.mem_outEdges w e).mpr he))) hsound'
    refine ⟨t', ?_, hsound'', hexp⟩
    simp [sccAnalHelp, hfold, hfinish]

omit [DecidableEq Node] in
theorem sound_initial (dg : GraphAccess Node Edge) :
    Sound dg .initial ∧ Search.Valid dg.Step [] (LowLinkState.initial : LowLinkState Node).view := by
  refine ⟨⟨fun _ => ⟨nofun, nofun⟩, ⟨fun _ => ⟨nofun, nofun⟩, List.nodup_nil, nofun, nofun,
    List.Pairwise.nil⟩, nofun⟩, ?_⟩
  exact ⟨nofun, nofun, List.Pairwise.nil, nofun, nofun, nofun, nofun, nofun⟩

theorem sccAnalysis_nodes {l : List Node} (hl : ∀ n ∈ l, n ∈ dg.nodes) (hsound : Sound dg s)
    (hvalid : Search.Valid dg.Step [] s.view) :
    ∃ t, l.foldlM (fun s n =>
        if !(s.status n).mark then sccAnalHelp dg dg.nodes.length n s else some s) s = some t ∧
      Sound dg t ∧ Search.Valid dg.Step [] t.view ∧ s.view.Extends t.view ∧
      ∀ n ∈ l, t.view.visited n := by
  induction l generalizing s with
  | nil => exact ⟨s, rfl, hsound, hvalid, .refl _, nofun⟩
  | cons n l ih =>
    have hrest (m : Node) (hm : m ∈ l) : m ∈ dg.nodes := hl m (List.mem_cons_of_mem n hm)
    rw [List.foldlM_cons]
    by_cases hmark : (s.status n).mark = true
    · obtain ⟨t, hfold, hsound', hvalid', hext, hvis⟩ := ih hrest hsound hvalid
      refine ⟨t, by simpa [hmark] using hfold, hsound', hvalid', hext, fun m hm => ?_⟩
      rcases List.mem_cons.mp hm with rfl | hm
      · exact hext.visited m hmark
      · exact hvis m hm
    · obtain ⟨t₁, hrun, hsound₁, hexp⟩ := sccAnalHelp_spec List.nodup_nil nofun
        (show dg.nodes.length ≤ ([] : List Node).length + dg.nodes.length by simp) n s (hl n List.mem_cons_self) hmark hvalid hsound nofun
      obtain ⟨t, hfold, hsound', hvalid', hext, hvis⟩ := ih hrest hsound₁ hexp.valid
      refine ⟨t, by simpa [hmark, hrun] using hfold, hsound', hvalid',
        hexp.extended.trans hext, fun m hm => ?_⟩
      rcases List.mem_cons.mp hm with rfl | hm
      · exact hext.visited m hexp.visited
      · exact hvis m hm

theorem getSCCNode_spec {sccs : List (List Node)} {n : Node} (h : n ∈ sccs.flatten) :
    ∃ scc, sccs[getSCCNode sccs n]? = some scc ∧ n ∈ scc := by
  obtain ⟨scc, hscc, hn⟩ := List.mem_flatten.mp h
  have hlt : getSCCNode sccs n < sccs.length :=
    List.findIdx_lt_length.mpr ⟨scc, hscc, by simpa using hn⟩
  have hfound := List.findIdx_getElem (p := fun scc => decide (n ∈ scc)) (w := hlt)
  exact ⟨_, List.getElem?_eq_getElem hlt, of_decide_eq_true hfound⟩

/-- An edge of the graph of components leads to one that was emitted earlier. -/
theorem sccGraphCreate_descends {dg : GraphAccess Node Edge} {sccs : List (List Node)}
    (hall : ∀ n ∈ dg.nodes, n ∈ sccs.flatten)
    (hordered : sccs.Pairwise fun scc later => ∀ u ∈ scc, ∀ v ∈ later, ¬dg.Reach u v)
    {i j : Nat} {e : Edge} (h : (i, j, e) ∈ sccGraphCreate dg sccs) : j < i := by
  simp only [sccGraphCreate, List.mem_flatMap, List.mem_filterMap, Prod.exists] at h
  obtain ⟨scc, k, hscc, src, hsrc, e', he', hij⟩ := h
  split at hij
  next hne =>
    cases hij
    obtain ⟨later, hlater, hsink⟩ := getSCCNode_spec (hall _ (dg.sink_mem e))
    have hscc := List.mk_mem_zipIdx_iff_getElem?.mp hscc
    by_contra hge
    have hlt : i < getSCCNode sccs (dg.sink e) := lt_of_le_of_ne (not_lt.mp hge) hne
    obtain ⟨hi, hscc⟩ := List.getElem?_eq_some_iff.mp hscc
    obtain ⟨hj, hlater⟩ := List.getElem?_eq_some_iff.mp hlater
    have hno := List.pairwise_iff_getElem.mp hordered _ _ hi hj hlt
    rw [hscc, hlater] at hno
    exact hno src hsrc _ hsink (.single ⟨e, (dg.mem_outEdges src e).mp he', rfl⟩)
  next => contradiction

/-- The analysis splits the nodes into the classes of mutual reachability, later classes first,
and the graph of the classes has no cycle. -/
theorem sccAnalysis_exact (dg : GraphAccess Node Edge) :
    ∃ s, sccAnalysis dg = some s ∧
      s.sccs.flatten.Perm dg.nodes ∧
      (∀ scc ∈ s.sccs, ∀ u ∈ scc, ∀ v, v ∈ scc ↔ dg.Reach u v ∧ dg.Reach v u) ∧
      s.sccs.Pairwise (fun scc later => ∀ u ∈ scc, ∀ v ∈ later, ¬dg.Reach u v) ∧
      ∀ i, ¬TransGen (fun i j => ∃ e, (i, j, e) ∈ sccGraphCreate dg s.sccs) i i := by
  obtain ⟨hsound, hvalid⟩ := sound_initial dg
  obtain ⟨s, hrun, hsound, hvalid, _, hvis⟩ := sccAnalysis_nodes (fun n hn => hn) hsound hvalid
  have hstack (v : Node) : v ∉ s.view.stack := fun hv => by
    obtain ⟨u, hu, _⟩ := hvalid.to_path v hv
    contradiction
  have hmem (v : Node) : v ∈ s.sccs.flatten ↔ v ∈ dg.nodes := by
    rw [hsound.emitted.mem_iff v]
    exact ⟨fun h => hsound.mem_nodes v h.1, fun h => ⟨hvis v h, hstack v⟩⟩
  refine ⟨s, hrun, (List.perm_ext_iff_of_nodup hsound.emitted.nodup dg.nodes_nodup).mpr hmem,
    hsound.emitted.strong, hsound.emitted.ordered, fun i hcycle => ?_⟩
  have hlt {i j : Nat}
      (h : TransGen (fun i j => ∃ e, (i, j, e) ∈ sccGraphCreate dg s.sccs) i j) : j < i := by
    have hstep {i j : Nat} (h : ∃ e, (i, j, e) ∈ sccGraphCreate dg s.sccs) : j < i := by
      obtain ⟨e, he⟩ := h
      exact sccGraphCreate_descends (fun n hn => (hmem n).mpr hn) hsound.emitted.ordered he
    induction h with
    | single h => exact hstep h
    | tail _ h ih => exact (hstep h).trans ih
  exact lt_irrefl i (hlt hcycle)

end LoomX.Graph
