import Mathlib

namespace LoomX.TreeEditDistance

inductive EditType
  | insert | delete | substitute
  deriving DecidableEq

/-- A single edit operation; a node that it has no use for is null. -/
structure Edit (ν K : Type) where
  editType : EditType
  sourceNode : Option ν
  targetNode : Option ν
  cost : K
  deriving DecidableEq

/-- The settings of the analysis, with the nodes of the two trees in pre-order and their depths. -/
structure Analysis (ν K : Type) where
  insertionCost : K
  deletionCost : K
  substitutionCost : K
  substitutionPredicate : Option (ν → ν → Bool)
  source : List (ν × Nat)
  target : List (ν × Nat)

structure Edge (K : Type) where
  source : Nat
  target : Nat
  weight : K
  deriving DecidableEq

/-- `totalCost_` and `predecessors_`. -/
structure ShortestPaths (K : Type) where
  totalCost : Nat → K
  predecessors : Nat → Nat

/-- `Coord2d`: coordinates in a matrix as one index, row by row. -/
structure Coord2d where
  nRows : Nat
  nCols : Nat

namespace Coord2d

def size (m : Coord2d) : Nat := m.nRows * m.nCols

def index (m : Coord2d) (row col : Nat) : Nat := row * m.nCols + col

def index2d (m : Coord2d) (idx : Nat) : Nat × Nat := (idx / m.nCols, idx % m.nCols)

theorem index2d_index {m : Coord2d} {row col : Nat} (h : col < m.nCols) :
    m.index2d (m.index row col) = (row, col) := by
  have hdiv : (row * m.nCols + col) / m.nCols = row := by
    rw [Nat.mul_comm, Nat.mul_add_div (by omega), Nat.div_eq_of_lt h, Nat.add_zero]
  have hmod : (row * m.nCols + col) % m.nCols = col := by
    rw [Nat.mul_comm, Nat.mul_add_mod, Nat.mod_eq_of_lt h]
  exact Prod.ext hdiv hmod

end Coord2d

/-- A node of a tree; the vector of them begins with a null pointer. -/
def nodesOf {ν : Type} (nodes : List (ν × Nat)) (i : Nat) : Option ν :=
  (none :: nodes.map fun p => some p.1).getD i none

/-- The depth of a node; the vector of them begins with a zero. -/
def depthsOf {ν : Type} (nodes : List (ν × Nat)) (i : Nat) : Nat :=
  (0 :: nodes.map Prod.snd).getD i 0

namespace Analysis

variable {ν K : Type}

section

variable (a : Analysis ν K)

def nodes1 (i : Nat) : Option ν := nodesOf a.source i

def nodes2 (j : Nat) : Option ν := nodesOf a.target j

def depths1 (i : Nat) : Nat := depthsOf a.source i

def depths2 (j : Nat) : Nat := depthsOf a.target j

def matrix : Coord2d := ⟨a.source.length + 1, a.target.length + 1⟩

/-- Whether the predicate, if there is one, lets the nodes be substituted. -/
def maySubstitute (i j : Nat) : Bool :=
  a.substitutionPredicate.all fun p =>
    match a.nodes1 i, a.nodes2 j with
    | some n, some m => p n m
    | _, _ => false

/-- The edges from a vertex that is neither in the last row nor in the last column. -/
def internalEdges (i j : Nat) : List (Edge K) :=
  (if a.depths2 (j + 1) ≤ a.depths1 (i + 1) then
    [⟨a.matrix.index i j, a.matrix.index (i + 1) j, a.deletionCost⟩] else []) ++
  (if a.depths1 (i + 1) ≤ a.depths2 (j + 1) then
    [⟨a.matrix.index i j, a.matrix.index i (j + 1), a.insertionCost⟩] else []) ++
  (if a.depths1 (i + 1) = a.depths2 (j + 1) ∧ a.maySubstitute (i + 1) (j + 1) then
    [⟨a.matrix.index i j, a.matrix.index (i + 1) (j + 1), a.substitutionCost⟩] else [])

/-- The graph that `compute` builds. -/
def graph : List (Edge K) :=
  let n1 := a.source.length
  let n2 := a.target.length
  ((List.range n1).map fun i => ⟨a.matrix.index i n2, a.matrix.index (i + 1) n2, a.deletionCost⟩) ++
  ((List.range n2).map fun j =>
    ⟨a.matrix.index n1 j, a.matrix.index n1 (j + 1), a.insertionCost⟩) ++
  (List.range n1).flatMap fun i => (List.range n2).flatMap fun j => a.internalEdges i j

/-- `compute`, given what the shortest-path algorithm does. -/
def compute (dijkstra : List (Edge K) → Nat → ShortestPaths K) : ShortestPaths K :=
  dijkstra a.graph 0

def cost (r : ShortestPaths K) : K := r.totalCost (a.matrix.size - 1)

/-- The loop of `edits` from a vertex back to the first one. Each edit is put in front of those
found before, as the list is reversed at the end; there is none if the path is not properly formed. -/
def editsFrom (r : ShortestPaths K) : Nat → Nat → List (Edit ν K) → Option (List (Edit ν K))
  | _, 0, edits => some edits
  | 0, _ + 1, _ => none
  | fuel + 1, previous + 1, edits =>
    let (i, j) := a.matrix.index2d (previous + 1)
    let predecessor := r.predecessors (previous + 1)
    let (pi, pj) := a.matrix.index2d predecessor
    if pi + 1 = i ∧ pj + 1 = j then
      editsFrom r fuel predecessor
        (⟨.substitute, a.nodes1 i, a.nodes2 j, a.substitutionCost⟩ :: edits)
    else if pi = i ∧ pj + 1 = j then
      editsFrom r fuel predecessor (⟨.insert, none, a.nodes2 j, a.insertionCost⟩ :: edits)
    else if pi + 1 = i ∧ pj = j then
      editsFrom r fuel predecessor (⟨.delete, a.nodes1 i, none, a.deletionCost⟩ :: edits)
    else none

/-- `edits`, where the loop goes round at most `fuel` times. -/
def edits (r : ShortestPaths K) (fuel : Nat) : Option (List (Edit ν K)) :=
  a.editsFrom r fuel (a.matrix.size - 1) []

end

end Analysis

/-- An edge of the graph. -/
def Adjacent {K : Type} (g : List (Edge K)) (u v : Nat) : Prop := ∃ w, (⟨u, v, w⟩ : Edge K) ∈ g

/-- The predecessors are those of a shortest-path tree with the source as its root. -/
structure ShortestPathTree {K : Type} [Zero K] [Add K] [LE K] (g : List (Edge K)) (source : Nat)
    (r : ShortestPaths K) : Prop where
  root : r.totalCost source = 0
  tree : ∀ v, Relation.ReflTransGen (Adjacent g) source v → v ≠ source →
    Relation.ReflTransGen (Adjacent g) source (r.predecessors v) ∧
      ∃ w, ⟨r.predecessors v, v, w⟩ ∈ g ∧ r.totalCost v = r.totalCost (r.predecessors v) + w
  shortest : ∀ e ∈ g, Relation.ReflTransGen (Adjacent g) source e.source →
    r.totalCost e.target ≤ r.totalCost e.source + e.weight

/-- The edits, read in order, consume the nodes of the source and produce those of the target, and
substitute only nodes of the same depth. -/
inductive Transforms {ν K : Type} : List (ν × Nat) → List (ν × Nat) → List (Edit ν K) → Prop
  | nil : Transforms [] [] []
  | insert {s t : List (ν × Nat)} {es : List (Edit ν K)} (m : ν) (d : Nat) (c : K) :
    Transforms s t es → Transforms s ((m, d) :: t) (⟨.insert, none, some m, c⟩ :: es)
  | delete {s t : List (ν × Nat)} {es : List (Edit ν K)} (n : ν) (d : Nat) (c : K) :
    Transforms s t es → Transforms ((n, d) :: s) t (⟨.delete, some n, none, c⟩ :: es)
  | substitute {s t : List (ν × Nat)} {es : List (Edit ν K)} (n m : ν) (d : Nat) (c : K) :
    Transforms s t es →
      Transforms ((n, d) :: s) ((m, d) :: t) (⟨.substitute, some n, some m, c⟩ :: es)

theorem Transforms.append {ν K : Type} {s t s' t' : List (ν × Nat)} {es es' : List (Edit ν K)}
    (h : Transforms s t es) (h' : Transforms s' t' es') :
    Transforms (s ++ s') (t ++ t') (es ++ es') := by
  induction h with
  | nil => exact h'
  | insert m d c _ ih => exact .insert m d c ih
  | delete n d c _ ih => exact .delete n d c ih
  | substitute n m d c _ ih => exact .substitute n m d c ih

variable {ν K : Type}

/-- The edges in terms of rows and columns. -/
inductive Step (a : Analysis ν K) : Nat → Nat → Nat → Nat → K → Prop
  | delete {i j : Nat} : i < a.source.length → j ≤ a.target.length →
    (j < a.target.length → a.depths2 (j + 1) ≤ a.depths1 (i + 1)) →
    Step a i j (i + 1) j a.deletionCost
  | insert {i j : Nat} : i ≤ a.source.length → j < a.target.length →
    (i < a.source.length → a.depths1 (i + 1) ≤ a.depths2 (j + 1)) →
    Step a i j i (j + 1) a.insertionCost
  | substitute {i j : Nat} : i < a.source.length → j < a.target.length →
    a.depths1 (i + 1) = a.depths2 (j + 1) → a.maySubstitute (i + 1) (j + 1) = true →
    Step a i j (i + 1) (j + 1) a.substitutionCost

section

variable {a : Analysis ν K} {i j i' j' : Nat} {w : K}

theorem Step.bounds (h : Step a i j i' j' w) : i ≤ a.source.length ∧ j ≤ a.target.length ∧
    i' ≤ a.source.length ∧ j' ≤ a.target.length := by
  cases h <;> omega

theorem mem_internalEdges {e : Edge K} (hi : i < a.source.length) (hj : j < a.target.length) :
    e ∈ a.internalEdges i j ↔ ∃ i' j' w, Step a i j i' j' w ∧
      e = ⟨a.matrix.index i j, a.matrix.index i' j', w⟩ := by
  unfold Analysis.internalEdges
  simp only [List.mem_append]
  constructor
  · rintro ((h | h) | h)
    · split at h
      next hle => exact ⟨_, _, _, .delete hi (Nat.le_of_lt hj) fun _ => hle, List.mem_singleton.mp h⟩
      next => cases h
    · split at h
      next hle => exact ⟨_, _, _, .insert (Nat.le_of_lt hi) hj fun _ => hle, List.mem_singleton.mp h⟩
      next => cases h
    · split at h
      next hsame => exact ⟨_, _, _, .substitute hi hj hsame.1 hsame.2, List.mem_singleton.mp h⟩
      next => cases h
  · rintro ⟨i', j', w, hstep, rfl⟩
    cases hstep with
    | delete _ _ hle => simp [hle hj]
    | insert _ _ hle => simp [hle hi]
    | substitute _ _ hsame hmay => simp [hsame, hmay]

/-- The edges of the graph are the steps. -/
theorem mem_graph {e : Edge K} : e ∈ a.graph ↔ ∃ i j i' j' w, Step a i j i' j' w ∧
    e = ⟨a.matrix.index i j, a.matrix.index i' j', w⟩ := by
  unfold Analysis.graph
  simp only [List.mem_append, List.mem_map, List.mem_flatMap, List.mem_range]
  constructor
  · rintro ((⟨i, hi, rfl⟩ | ⟨j, hj, rfl⟩) | ⟨i, hi, j, hj, h⟩)
    · exact ⟨_, _, _, _, _, .delete hi le_rfl fun h => absurd h (Nat.lt_irrefl _), rfl⟩
    · exact ⟨_, _, _, _, _, .insert le_rfl hj fun h => absurd h (Nat.lt_irrefl _), rfl⟩
    · exact ⟨i, j, (mem_internalEdges hi hj).mp h⟩
  · rintro ⟨i, j, i', j', w, hstep, rfl⟩
    obtain ⟨hi, hj, -, -⟩ := hstep.bounds
    by_cases hinner : i < a.source.length ∧ j < a.target.length
    · exact Or.inr ⟨i, hinner.1, j, hinner.2,
        (mem_internalEdges hinner.1 hinner.2).mpr ⟨i', j', w, hstep, rfl⟩⟩
    · refine Or.inl ?_
      cases hstep with
      | delete hi =>
        have hlast : j = a.target.length := by omega
        exact Or.inl ⟨i, hi, by rw [hlast]⟩
      | insert _ hj =>
        have hlast : i = a.source.length := by omega
        exact Or.inr ⟨j, hj, by rw [hlast]⟩
      | substitute hi hj => exact absurd ⟨hi, hj⟩ hinner

/-- From every vertex but the last one there is an edge down or to the right. -/
theorem exists_step (hi : i ≤ a.source.length) (hj : j ≤ a.target.length)
    (h : i < a.source.length ∨ j < a.target.length) :
    ∃ w, Step a i j (i + 1) j w ∨ Step a i j i (j + 1) w := by
  by_cases hlast : j = a.target.length
  · exact ⟨_, Or.inl (.delete (by omega) hj (by omega))⟩
  · rcases Nat.lt_or_ge i a.source.length with hlt | hge
    · rcases Nat.le_total (a.depths2 (j + 1)) (a.depths1 (i + 1)) with hle | hle
      · exact ⟨_, Or.inl (.delete hlt hj fun _ => hle)⟩
      · exact ⟨_, Or.inr (.insert hi (by omega) fun _ => hle)⟩
    · exact ⟨_, Or.inr (.insert hi (by omega) (by omega))⟩

theorem adjacent_of_step (h : Step a i j i' j' w) :
    Adjacent a.graph (a.matrix.index i j) (a.matrix.index i' j') :=
  ⟨w, mem_graph.mpr ⟨i, j, i', j', w, h, rfl⟩⟩

theorem last_index : a.matrix.size - 1 = a.matrix.index a.source.length a.target.length := by
  simp only [Analysis.matrix, Coord2d.size, Coord2d.index, Nat.succ_mul]
  omega

theorem reachable_last {u k : Nat} (hk : a.source.length - i + (a.target.length - j) = k)
    (hi : i ≤ a.source.length) (hj : j ≤ a.target.length)
    (h : Relation.ReflTransGen (Adjacent a.graph) u (a.matrix.index i j)) :
    Relation.ReflTransGen (Adjacent a.graph) u (a.matrix.size - 1) := by
  induction k generalizing i j with
  | zero =>
    have hlast : i = a.source.length ∧ j = a.target.length := by omega
    rw [last_index, ← hlast.1, ← hlast.2]
    exact h
  | succ k ih =>
    obtain ⟨w, hstep | hstep⟩ := exists_step hi hj (by omega)
    · have hbounds := hstep.bounds
      exact ih (by omega) hbounds.2.2.1 hj (h.tail (adjacent_of_step hstep))
    · have hbounds := hstep.bounds
      exact ih (by omega) hi hbounds.2.2.2 (h.tail (adjacent_of_step hstep))

theorem index_unique (hj : j ≤ a.target.length) (hj' : j' ≤ a.target.length)
    (h : a.matrix.index i j = a.matrix.index i' j') : i = i' ∧ j = j' := by
  have heq := congrArg a.matrix.index2d h
  rw [Coord2d.index2d_index (Nat.lt_succ_of_le hj),
    Coord2d.index2d_index (Nat.lt_succ_of_le hj')] at heq
  exact Prod.mk.inj heq

theorem take_node {nodes : List (ν × Nat)} (h : i < nodes.length) :
    nodesOf nodes (i + 1) = some nodes[i].1 ∧ depthsOf nodes (i + 1) = nodes[i].2 ∧
      nodes.take (i + 1) = nodes.take i ++ [(nodes[i].1, nodes[i].2)] := by
  refine ⟨?_, ?_, ?_⟩
  · simp [nodesOf, h]
  · simp [depthsOf, h]
  · exact List.take_succ_eq_append_getElem h

end

section

variable {a : Analysis ν K} {i j i' j' : Nat} {w : K} {es : List (Edit ν K)}

theorem Step.index_lt (h : Step a i j i' j' w) : a.matrix.index i j < a.matrix.index i' j' := by
  cases h with
  | delete =>
    simp only [Coord2d.index, Nat.succ_mul, Analysis.matrix]
    omega
  | insert =>
    simp only [Coord2d.index]
    omega
  | substitute =>
    simp only [Coord2d.index, Nat.succ_mul]
    omega

/-- The edit for an edge, after those on the way to it. -/
theorem Step.transforms (h : Step a i j i' j' w)
    (hes : Transforms (a.source.take i) (a.target.take j) es) :
    ∃ e : Edit ν K, e.cost = w ∧ Transforms (a.source.take i') (a.target.take j') (es ++ [e]) ∧
      ∀ (r : ShortestPaths K) fuel vertex edits, a.matrix.index2d (vertex + 1) = (i', j') →
        a.matrix.index2d (r.predecessors (vertex + 1)) = (i, j) →
        a.editsFrom r (fuel + 1) (vertex + 1) edits =
          a.editsFrom r fuel (r.predecessors (vertex + 1)) (e :: edits) := by
  cases h with
  | delete hi hj hle =>
    obtain ⟨hnode, hdepth, htake⟩ := take_node hi
    refine ⟨⟨.delete, some a.source[i].1, none, a.deletionCost⟩, rfl, ?_, ?_⟩
    · have happ := hes.append (.delete a.source[i].1 a.source[i].2 a.deletionCost .nil)
      rw [htake]
      rwa [List.append_nil] at happ
    · intro r fuel vertex edits hvertex hpred
      simp [Analysis.editsFrom, hvertex, hpred, Analysis.nodes1, hnode]
  | insert hi hj hle =>
    obtain ⟨hnode, hdepth, htake⟩ := take_node hj
    refine ⟨⟨.insert, none, some a.target[j].1, a.insertionCost⟩, rfl, ?_, ?_⟩
    · have happ := hes.append (.insert a.target[j].1 a.target[j].2 a.insertionCost .nil)
      rw [htake]
      rwa [List.append_nil] at happ
    · intro r fuel vertex edits hvertex hpred
      simp [Analysis.editsFrom, hvertex, hpred, Analysis.nodes2, hnode]
  | substitute hi hj hsame hmay =>
    obtain ⟨hnode, hdepth, htake⟩ := take_node hi
    obtain ⟨hnode', hdepth', htake'⟩ := take_node hj
    have hdepths : a.source[i].2 = a.target[j].2 := by
      rw [← hdepth, ← hdepth']
      exact hsame
    refine ⟨⟨.substitute, some a.source[i].1, some a.target[j].1, a.substitutionCost⟩, rfl, ?_, ?_⟩
    · rw [htake, htake', hdepths]
      exact hes.append (.substitute _ _ a.target[j].2 a.substitutionCost .nil)
    · intro r fuel vertex edits hvertex hpred
      simp [Analysis.editsFrom, hvertex, hpred, Analysis.nodes1, Analysis.nodes2, hnode, hnode']

theorem weight_nonneg [Zero K] [LE K] (hcosts : 0 ≤ a.insertionCost ∧ 0 ≤ a.deletionCost ∧
    0 ≤ a.substitutionCost) : ∀ e ∈ a.graph, 0 ≤ e.weight := by
  intro e he
  obtain ⟨i, j, i', j', w, hstep, rfl⟩ := mem_graph.mp he
  cases hstep with
  | delete => exact hcosts.2.1
  | insert => exact hcosts.1
  | substitute => exact hcosts.2.2

variable [Zero K] [Add K] [LE K] {r : ShortestPaths K}

/-- The costs of the edits, added up in order. -/
def totalCost (es : List (Edit ν K)) : K := es.foldl (fun sum e => sum + e.cost) 0

/-- The way back from a vertex, by induction on its number: predecessors have smaller ones. -/
theorem editsFrom_of_tree (htree : ShortestPathTree a.graph 0 r) (hj : j ≤ a.target.length)
    (hreach : Relation.ReflTransGen (Adjacent a.graph) 0 (a.matrix.index i j)) :
    ∃ es, (∀ fuel edits, a.matrix.index i j ≤ fuel →
        a.editsFrom r fuel (a.matrix.index i j) edits = some (es ++ edits)) ∧
      Transforms (a.source.take i) (a.target.take j) es ∧
      totalCost es = r.totalCost (a.matrix.index i j) := by
  generalize hvertex : a.matrix.index i j = vertex at hreach ⊢
  induction vertex using Nat.strong_induction_on generalizing i j with
  | _ vertex ih =>
    cases vertex with
    | zero =>
      have hzero : a.matrix.index 0 0 = 0 := by simp [Coord2d.index]
      obtain ⟨rfl, rfl⟩ := index_unique hj (Nat.zero_le _) (hvertex.trans hzero.symm)
      refine ⟨[], fun fuel edits _ => ?_, .nil, htree.root.symm⟩
      cases fuel <;> rfl
    | succ previous =>
      obtain ⟨hpred, w, hmem, hcost⟩ := htree.tree _ hreach (by omega)
      obtain ⟨pi, pj, i', j', w', hstep, hedge⟩ := mem_graph.mp hmem
      obtain ⟨hsource, htarget, rfl⟩ := Edge.mk.inj hedge
      obtain ⟨hpi, hpj, hi', hj'⟩ := hstep.bounds
      obtain ⟨rfl, rfl⟩ := index_unique hj hj' (hvertex.trans htarget)
      have hless := hstep.index_lt
      obtain ⟨es, hes, htransforms, htotal⟩ :=
        ih _ (by omega) hpj hsource.symm hpred
      obtain ⟨e, rfl, htransforms', hround⟩ := hstep.transforms htransforms
      refine ⟨es ++ [e], fun fuel edits hfuel => ?_, htransforms', ?_⟩
      · have hindex : a.matrix.index2d (previous + 1) = (i, j) := by
          rw [← hvertex]
          exact Coord2d.index2d_index (Nat.lt_succ_of_le hj)
        have hindex' : a.matrix.index2d (r.predecessors (previous + 1)) = (pi, pj) := by
          rw [hsource]
          exact Coord2d.index2d_index (Nat.lt_succ_of_le hpj)
        obtain ⟨fuel, rfl⟩ : ∃ k, fuel = k + 1 := ⟨fuel - 1, by omega⟩
        rw [hround r fuel previous edits hindex hindex', hes fuel _ (by omega)]
        simp
      · rw [hcost, ← htotal]
        simp [totalCost]

end

/-- The last vertex is reachable, and `edits` ends with edits that make the target from the source
at the cost that is reported. -/
theorem edits_wellFormed [Zero K] [Add K] [LE K] (a : Analysis ν K)
    (dijkstra : List (Edge K) → Nat → ShortestPaths K)
    (hcosts : 0 ≤ a.insertionCost ∧ 0 ≤ a.deletionCost ∧ 0 ≤ a.substitutionCost)
    (hdijkstra : (∀ e ∈ a.graph, 0 ≤ e.weight) →
      ShortestPathTree a.graph 0 (dijkstra a.graph 0)) :
    Relation.ReflTransGen (Adjacent a.graph) 0 (a.matrix.size - 1) ∧
      ∃ es, (∀ fuel, a.matrix.size ≤ fuel → a.edits (a.compute dijkstra) fuel = some es) ∧
        Transforms a.source a.target es ∧ totalCost es = a.cost (a.compute dijkstra) := by
  have htree := hdijkstra (weight_nonneg hcosts)
  have hreach : Relation.ReflTransGen (Adjacent a.graph) 0 (a.matrix.size - 1) := by
    apply reachable_last (i := 0) (j := 0) rfl (Nat.zero_le _) (Nat.zero_le _)
    simp [Coord2d.index, Relation.ReflTransGen.refl]
  have hlast := last_index (a := a)
  rw [hlast] at hreach
  obtain ⟨es, hes, htransforms, htotal⟩ := editsFrom_of_tree htree le_rfl hreach
  rw [List.take_length, List.take_length] at htransforms
  refine ⟨by rwa [hlast], es, fun fuel hfuel => ?_, htransforms, ?_⟩
  · have hedits := hes fuel [] (by omega)
    rwa [List.append_nil, ← hlast] at hedits
  · rw [htotal, Analysis.cost, hlast]
    rfl

/-- A root with one child, and one with two children. -/
def smallTrees : Analysis Nat Nat where
  insertionCost := 1
  deletionCost := 1
  substitutionCost := 1
  substitutionPredicate := none
  source := [(1, 0), (2, 1)]
  target := [(1, 0), (3, 1), (4, 1)]

/-- The shortest paths of their graph. -/
def smallPaths (_ : List (Edge Nat)) (_ : Nat) : ShortestPaths Nat where
  totalCost := fun v => [0, 1, 2, 3, 1, 1, 2, 3, 2, 2, 2, 3].getD v 0
  predecessors := fun v => [0, 0, 1, 2, 0, 0, 5, 6, 4, 5, 5, 6].getD v 0

theorem smallPaths_tree :
    ShortestPathTree smallTrees.graph 0 (smallPaths smallTrees.graph 0) := by
  have hedges : ∀ e ∈ smallTrees.graph,
      (smallPaths smallTrees.graph 0).predecessors e.target < e.target ∧
        ((smallPaths smallTrees.graph 0).predecessors e.target = 0 ∨
          ∃ e' ∈ smallTrees.graph,
            e'.target = (smallPaths smallTrees.graph 0).predecessors e.target) ∧
        ⟨(smallPaths smallTrees.graph 0).predecessors e.target, e.target, 1⟩ ∈ smallTrees.graph ∧
        (smallPaths smallTrees.graph 0).totalCost e.target =
          (smallPaths smallTrees.graph 0).totalCost
            ((smallPaths smallTrees.graph 0).predecessors e.target) + 1 := by
    decide
  have hreach : ∀ v, ∀ e ∈ smallTrees.graph, e.target = v →
      Relation.ReflTransGen (Adjacent smallTrees.graph) 0
        ((smallPaths smallTrees.graph 0).predecessors v) := by
    intro v
    induction v using Nat.strong_induction_on with
    | _ v ih =>
      rintro e he rfl
      obtain ⟨hlt, hzero | ⟨e', he', htarget⟩, -⟩ := hedges e he
      · rw [hzero]
      · obtain ⟨-, -, hmem, -⟩ := hedges e' he'
        rw [htarget] at hmem
        exact (ih _ hlt e' he' htarget).tail ⟨1, hmem⟩
  refine ⟨rfl, fun v hv hne => ?_, fun e he _ => ?_⟩
  · obtain rfl | ⟨u, -, w, hmem⟩ := hv.cases_tail
    · exact absurd rfl hne
    · obtain ⟨-, -, hedge, hcost⟩ := hedges _ hmem
      exact ⟨hreach v _ hmem rfl, 1, hedge, hcost⟩
  · have hshort : ∀ e ∈ smallTrees.graph, (smallPaths smallTrees.graph 0).totalCost e.target ≤
        (smallPaths smallTrees.graph 0).totalCost e.source + e.weight := by decide
    exact hshort e he

theorem edits_wellFormed_small :
    Relation.ReflTransGen (Adjacent smallTrees.graph) 0 (smallTrees.matrix.size - 1) ∧
      ∃ es, (∀ fuel, smallTrees.matrix.size ≤ fuel →
          smallTrees.edits (smallTrees.compute smallPaths) fuel = some es) ∧
        Transforms smallTrees.source smallTrees.target es ∧
        totalCost es = smallTrees.cost (smallTrees.compute smallPaths) :=
  edits_wellFormed smallTrees smallPaths ⟨by decide, by decide, by decide⟩
    fun _ => smallPaths_tree

end LoomX.TreeEditDistance
