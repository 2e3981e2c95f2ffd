import LoomX.LinkedListSort
import LoomX.Graph.TopoOrder

namespace LoomX.Graph

open LinkedListSort

namespace GraphAccess

def empty : GraphAccess Empty Empty where
  nodes := []
  outEdges := fun _ => []
  inEdges := fun _ => []
  source := id
  sink := id
  nodes_nodup := .nil
  outEdges_nodup := fun _ => .nil
  inEdges_nodup := fun _ => .nil
  mem_outEdges := fun n => n.elim
  mem_inEdges := fun n => n.elim
  source_mem := fun e => e.elim
  sink_mem := fun e => e.elim

variable {Node Edge : Type} (dg : GraphAccess Node Edge)

/-- A new node, without edges. -/
def newNode : GraphAccess (Option Node) Edge where
  nodes := dg.nodes.map some ++ [none]
  outEdges := fun n => n.elim [] dg.outEdges
  inEdges := fun n => n.elim [] dg.inEdges
  source := fun e => some (dg.source e)
  sink := fun e => some (dg.sink e)
  nodes_nodup := by
    refine List.Nodup.append (dg.nodes_nodup.map (Option.some_injective _))
      (List.nodup_singleton _) ?_
    simp
  outEdges_nodup := by
    rintro (_ | n)
    · exact .nil
    · exact dg.outEdges_nodup n
  inEdges_nodup := by
    rintro (_ | n)
    · exact .nil
    · exact dg.inEdges_nodup n
  mem_outEdges := by
    rintro (_ | n) e
    · simp
    · simp [dg.mem_outEdges n e]
  mem_inEdges := by
    rintro (_ | n) e
    · simp
    · simp [dg.mem_inEdges n e]
  source_mem := fun e => by simp [dg.source_mem e]
  sink_mem := fun e => by simp [dg.sink_mem e]

/-- A new edge at the end of the edge lists of its end points. -/
def newEdge [DecidableEq Node] (src snk : Node) (hsrc : src ∈ dg.nodes) (hsnk : snk ∈ dg.nodes) :
    GraphAccess Node (Option Edge) where
  nodes := dg.nodes
  outEdges := fun n => (dg.outEdges n).map some ++ if n = src then [none] else []
  inEdges := fun n => (dg.inEdges n).map some ++ if n = snk then [none] else []
  source := fun e => e.elim src dg.source
  sink := fun e => e.elim snk dg.sink
  nodes_nodup := dg.nodes_nodup
  outEdges_nodup := fun n => by
    refine List.Nodup.append ((dg.outEdges_nodup n).map (Option.some_injective _)) ?_ ?_
    all_goals split <;> simp
  inEdges_nodup := fun n => by
    refine List.Nodup.append ((dg.inEdges_nodup n).map (Option.some_injective _)) ?_ ?_
    all_goals split <;> simp
  mem_outEdges := by
    rintro n (_ | e)
    · by_cases h : src = n <;> simp [h, eq_comm]
    · by_cases h : n = src <;> simp [h, dg.mem_outEdges]
  mem_inEdges := by
    rintro n (_ | e)
    · by_cases h : snk = n <;> simp [h, eq_comm]
    · by_cases h : n = snk <;> simp [h, dg.mem_inEdges]
  source_mem := by
    rintro (_ | e)
    · exact hsrc
    · exact dg.source_mem e
  sink_mem := by
    rintro (_ | e)
    · exact hsnk
    · exact dg.sink_mem e

/-- `SortNodes` puts the nodes of a graph in another order. -/
def sortNodes (f : Node → Node → Int) : GraphAccess Node Edge :=
  { dg with
    nodes := sortList f dg.nodes
    nodes_nodup := (sortList_perm f dg.nodes).nodup_iff.mpr dg.nodes_nodup
    source_mem := fun e => (sortList_perm f dg.nodes).mem_iff.mpr (dg.source_mem e)
    sink_mem := fun e => (sortList_perm f dg.nodes).mem_iff.mpr (dg.sink_mem e) }

/-- `NodeIncomingEdgeLessThan`. -/
def incomingEdgeLessThan (n1 n2 : Node) : Int :=
  let i1 := (dg.inEdges n1).length
  let i2 := (dg.inEdges n2).length
  if i1 = i2 then 0 else if i1 < i2 then -1 else 1

theorem incomingEdgeLessThan_neg (u v : Node) :
    dg.incomingEdgeLessThan u v < 0 ↔ (dg.inEdges u).length < (dg.inEdges v).length := by
  unfold incomingEdgeLessThan
  dsimp only
  split
  · omega
  · split <;> omega

theorem sortNodes_sorted :
    (dg.sortNodes dg.incomingEdgeLessThan).nodes.Pairwise
      fun u v => (dg.inEdges u).length ≤ (dg.inEdges v).length :=
  sortList_sorted dg.incomingEdgeLessThan_neg dg.nodes

end GraphAccess

/-- A graph with its marks, which are a valid order of it when it is `ordered`. -/
structure DAG (Node Edge : Type) where
  graph : GraphAccess Node Edge
  marks : Marks Node Edge
  ordered : Bool
  valid : ordered = true → TopoOrdered graph marks

namespace DAG

def empty : DAG Empty Empty where
  graph := .empty
  marks := ⟨Empty.elim, Empty.elim, Empty.elim⟩
  ordered := true
  valid := fun _ => ⟨⟨fun n => n.elim, fun n => n.elim, fun k hk => by
    have hempty : k ∈ Set.Icc 1 0 := hk
    exact absurd (hempty.1.trans hempty.2) (by omega)⟩, fun e => e.elim⟩

section
variable {Node Edge : Type} (dag : DAG Node Edge)

/-- The constructor of `DAGNode`: the new node takes the last number. -/
def newNode : DAG (Option Node) Edge where
  graph := dag.graph.newNode
  marks :=
    { ordNo := fun n => n.elim (dag.graph.nodes.length + 1) dag.marks.ordNo
      visitNo := fun n => n.elim 0 dag.marks.visitNo
      isBackEdge := dag.marks.isBackEdge }
  ordered := dag.ordered
  valid := fun hordered => by
    obtain ⟨⟨hmaps, hinj, hsurj⟩, hup⟩ := dag.valid hordered
    have hlength : dag.graph.newNode.nodes.length = dag.graph.nodes.length + 1 := by
      simp [GraphAccess.newNode]
    have hold : ∀ {n}, some n ∈ dag.graph.newNode.nodes → n ∈ dag.graph.nodes := by
      simp [GraphAccess.newNode]
    refine ⟨⟨?_, ?_, fun k hk => ?_⟩, hup⟩
    · rintro (_ | n) hn
      · exact ⟨Nat.succ_pos _, hlength.ge⟩
      · exact ⟨(hmaps (hold hn)).1, (hmaps (hold hn)).2.trans (hlength ▸ Nat.le_succ _)⟩
    · rintro (_ | u) hu (_ | v) hv huv
      · rfl
      · exact absurd huv (Nat.lt_succ_of_le (hmaps (hold hv)).2).ne'
      · exact absurd huv (Nat.lt_succ_of_le (hmaps (hold hu)).2).ne
      · exact congrArg some (hinj (hold hu) (hold hv) huv)
    · rcases Nat.lt_or_ge dag.graph.nodes.length k with hlt | hle
      · refine ⟨none, by simp [GraphAccess.newNode], ?_⟩
        exact le_antisymm hlt (hlength ▸ hk.2)
      · obtain ⟨n, hn, hnk⟩ := hsurj ⟨hk.1, hle⟩
        have hmem : n ∈ dag.graph.nodes := hn
        exact ⟨some n, by simp [GraphAccess.newNode, hmem], hnk⟩

/-- The constructor of `DAGEdge`: an edge that does not go up makes the order invalid. -/
def newEdge [DecidableEq Node] (src snk : Node) (hsrc : src ∈ dag.graph.nodes)
    (hsnk : snk ∈ dag.graph.nodes) : DAG Node (Option Edge) where
  graph := dag.graph.newEdge src snk hsrc hsnk
  marks := { dag.marks with isBackEdge := fun e => e.elim false dag.marks.isBackEdge }
  ordered := dag.ordered && dag.marks.ordNo src < dag.marks.ordNo snk
  valid := fun hordered => by
    rw [Bool.and_eq_true, decide_eq_true_eq] at hordered
    obtain ⟨hbij, hup⟩ := dag.valid hordered.1
    refine ⟨hbij, ?_⟩
    rintro (_ | e) he
    · exact hordered.2
    · exact hup e he

end

section
variable {Node Edge : Type} [DecidableEq Node] [DecidableEq Edge] {dg : GraphAccess Node Edge}
  {m m' : Marks Node Edge}

/-- The numbering of the nodes sorted by their incoming edges. -/
def orderNodes (dg : GraphAccess Node Edge) (m : Marks Node Edge) :
    Option (Nat × Marks Node Edge) :=
  topoOrderLoop dg dg.nodes.length dg.nodes 0 m.reset

theorem orderNodes_spec (dg : GraphAccess Node Edge) (m : Marks Node Edge)
    (hsorted : dg.nodes.Pairwise fun u v => (dg.inEdges u).length ≤ (dg.inEdges v).length) :
    ∃ bound done last m', orderNodes dg m = some (last, m') ∧
      Numbered dg m.isBackEdge bound [] done last m' ∧ (dg.Acyclic → bound = 0) := by
  have hfuel : (unnumbered dg m.reset).card ≤ dg.nodes.length := by
    refine (Finset.card_filter_le _ _).trans ?_
    exact List.toFinset_card_le dg.nodes
  exact topoOrderLoop_spec (fun _ hn => hn) hsorted (numbered_reset dg m) hfuel

theorem orderNodes_topoOrdered {last : Nat}
    (h : orderNodes (dg.sortNodes dg.incomingEdgeLessThan) m = some (last, m')) :
    TopoOrdered (dg.sortNodes dg.incomingEdgeLessThan) m' := by
  obtain ⟨bound, done, last', m'', hrun, hm, -⟩ :=
    orderNodes_spec (dg.sortNodes _) m dg.sortNodes_sorted
  rw [h] at hrun
  cases hrun
  exact hm.topoOrdered

/-- `TopoOrderNodes` of a graph. -/
def topoOrderNodes (dag : DAG Node Edge) : Option (DAG Node Edge) :=
  if dag.ordered then some dag
  else
    match h : orderNodes (dag.graph.sortNodes dag.graph.incomingEdgeLessThan) dag.marks with
    | none => none
    | some (_, m) =>
      some ⟨dag.graph.sortNodes dag.graph.incomingEdgeLessThan, m, true,
        fun _ => orderNodes_topoOrdered h⟩

theorem topoOrderNodes_eq {dag : DAG Node Edge} (hordered : dag.ordered = false) {last : Nat}
    (h : orderNodes (dag.graph.sortNodes dag.graph.incomingEdgeLessThan) dag.marks =
      some (last, m)) :
    dag.topoOrderNodes = some ⟨dag.graph.sortNodes dag.graph.incomingEdgeLessThan, m, true,
      fun _ => orderNodes_topoOrdered h⟩ := by
  unfold topoOrderNodes
  rw [if_neg (by simp [hordered])]
  split
  next hrun => rw [h] at hrun; cases hrun
  next hrun => rw [h] at hrun; cases hrun; rfl

/-- `TopoOrderNodes` numbers the nodes from 1 on without gaps and marks as back edges exactly those
that do not go up. -/
theorem topoOrderNodes_exact (dag : DAG Node Edge) (h : ∀ e, dag.marks.isBackEdge e = false) :
    ∃ dag', dag.topoOrderNodes = some dag' ∧
      Set.BijOn dag'.marks.ordNo {n | n ∈ dag.graph.nodes} (Set.Icc 1 dag.graph.nodes.length) ∧
      (∀ e, dag'.marks.isBackEdge e = true ↔
        dag'.marks.ordNo (dag.graph.sink e) ≤ dag'.marks.ordNo (dag.graph.source e)) ∧
      (dag.graph.Acyclic → ∀ e, dag'.marks.isBackEdge e = false) := by
  cases hordered : dag.ordered
  case true =>
    obtain ⟨hbij, hup⟩ := dag.valid hordered
    refine ⟨dag, by simp [topoOrderNodes, hordered], hbij, fun e => ?_, fun _ => h⟩
    have hlt := hup e (h e)
    simp only [h e, Bool.false_eq_true, false_iff, Nat.not_le]
    exact hlt
  case false =>
    obtain ⟨bound, done, last, m', hrun, hm, hacyclic⟩ :=
      orderNodes_spec (dag.graph.sortNodes _) dag.marks dag.graph.sortNodes_sorted
    refine ⟨_, topoOrderNodes_eq hordered hrun, ?_, fun e => ?_, fun hdag e => ?_⟩
    · have hperm := sortList_perm dag.graph.incomingEdgeLessThan dag.graph.nodes
      have hbij := hm.bijOn
      have hnodes : {n | n ∈ (dag.graph.sortNodes dag.graph.incomingEdgeLessThan).nodes} =
          {n | n ∈ dag.graph.nodes} := Set.ext fun n => hperm.mem_iff
      rw [hnodes] at hbij
      rw [← hperm.length_eq]
      exact hbij
    · have hiff := hm.isBackEdge_iff e
      rw [h e] at hiff
      simp only [Bool.false_eq_true, false_or] at hiff
      exact hiff
    · obtain rfl := hacyclic hdag
      exact (hm.isBackEdge_eq e).trans (h e)

/-- Two nodes with an edge each way. -/
def cycle : DAG (Option (Option Empty)) (Option (Option Empty)) :=
  ((empty.newNode.newNode.newEdge (some none) none (by decide) (by decide)).newEdge
    none (some none) (by decide) (by decide))

theorem topoOrderNodes_cycle :
    ∃ dag', cycle.topoOrderNodes = some dag' ∧
      Set.BijOn dag'.marks.ordNo {n | n ∈ cycle.graph.nodes}
        (Set.Icc 1 cycle.graph.nodes.length) ∧
      (∀ e, dag'.marks.isBackEdge e = true ↔
        dag'.marks.ordNo (cycle.graph.sink e) ≤ dag'.marks.ordNo (cycle.graph.source e)) ∧
      (cycle.graph.Acyclic → ∀ e, dag'.marks.isBackEdge e = false) :=
  topoOrderNodes_exact cycle fun
    | none => rfl
    | some none => rfl

end

end DAG

end LoomX.Graph
