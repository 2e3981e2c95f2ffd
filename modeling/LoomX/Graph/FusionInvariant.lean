import Mathlib.Logic.Relation
import Mathlib.Data.List.Nodup
import Mathlib.Data.Set.Finite.Basic
import Mathlib.Data.Fintype.Card
import Mathlib.Order.Nat

namespace LoomX.Graph

/-- The access interface of a directed graph; several edges may join the same nodes. -/
structure GraphAccess (Node Edge : Type) where
  nodes : List Node
  outEdges : Node → List Edge
  inEdges : Node → List Edge
  source : Edge → Node
  sink : Edge → Node
  nodes_nodup : nodes.Nodup
  outEdges_nodup : ∀ n, (outEdges n).Nodup
  inEdges_nodup : ∀ n, (inEdges n).Nodup
  mem_outEdges : ∀ n e, e ∈ outEdges n ↔ source e = n
  mem_inEdges : ∀ n e, e ∈ inEdges n ↔ sink e = n
  source_mem : ∀ e, source e ∈ nodes
  sink_mem : ∀ e, sink e ∈ nodes

namespace GraphAccess

variable {Node Edge : Type} (dg : GraphAccess Node Edge)

def Step (u v : Node) : Prop :=
  ∃ e, dg.source e = u ∧ dg.sink e = v

def Reach : Node → Node → Prop :=
  Relation.ReflTransGen dg.Step

def Acyclic : Prop :=
  ∀ v, ¬Relation.TransGen dg.Step v v

/-- Induction along the edges of an acyclic graph. -/
theorem induction_of_acyclic (hacyclic : dg.Acyclic) {P : Node → Prop}
    (h : ∀ n ∈ dg.nodes, (∀ e ∈ dg.inEdges n, P (dg.source e)) → P n) : ∀ n ∈ dg.nodes, P n := by
  let r : { n // n ∈ dg.nodes } → { n // n ∈ dg.nodes } → Prop :=
    fun u v => Relation.TransGen dg.Step u v
  have : IsTrans _ r := ⟨fun _ _ _ => Relation.TransGen.trans⟩
  have : Std.Irrefl r := ⟨fun u => hacyclic u⟩
  have : Finite { n // n ∈ dg.nodes } := (List.finite_toSet dg.nodes).to_subtype
  have hwf : WellFounded r := Finite.wellFounded_of_trans_of_irrefl r
  intro n hn
  refine hwf.induction (C := fun n => P n.1) ⟨n, hn⟩ fun m ih => h m.1 m.2 fun e he => ?_
  exact ih ⟨_, dg.source_mem e⟩ (.single ⟨e, rfl, (dg.mem_inEdges _ e).mp he⟩)

end GraphAccess

open Relation

variable {Node Edge : Type}

/-- Groups numbered so that each node lies above every bound its predecessors put on it, and in
the first such group. -/
structure FusionLevels (dg : GraphAccess Node Edge) (fusible : Node → Prop) (prevent : Edge → Prop)
    (group bad : Node → Nat) : Prop where
  through : ∀ e, ¬fusible (dg.source e) → bad (dg.source e) ≤ bad (dg.sink e)
  keep : ∀ e, fusible (dg.source e) → fusible (dg.sink e) → ¬prevent e →
    bad (dg.source e) ≤ bad (dg.sink e)
  apart : ∀ e, fusible (dg.source e) → (fusible (dg.sink e) → prevent e) →
    group (dg.source e) ≤ bad (dg.sink e)
  above : ∀ v, v ∈ dg.nodes → fusible v → bad v < group v
  first : ∀ u v, u ∈ dg.nodes → v ∈ dg.nodes → fusible u → fusible v → bad u < group v →
    group u ≤ group v

/-- The groups that a marking generates. -/
def SameGroup (marks : List (Node × Node)) : Node → Node → Prop :=
  EqvGen fun u v => (u, v) ∈ marks

/-- An edge between two different groups. -/
def Contracted (dg : GraphAccess Node Edge) (same : Node → Node → Prop) (u v : Node) : Prop :=
  ∃ e, same u (dg.source e) ∧ same (dg.sink e) v ∧ ¬same u v

namespace FusionLevels

variable {dg : GraphAccess Node Edge} {fusible : Node → Prop} {prevent : Edge → Prop}
  {group bad : Node → Nat}

open Classical in
/-- The position of a node in the order of the groups and of the nodes between them. -/
noncomputable def level (fusible : Node → Prop) (group bad : Node → Nat) (v : Node) : Nat :=
  if fusible v then 2 * group v else 2 * bad v + 1

theorem level_of_fusible {v : Node} (h : fusible v) : level fusible group bad v = 2 * group v :=
  if_pos h

theorem level_of_not_fusible {v : Node} (h : ¬fusible v) :
    level fusible group bad v = 2 * bad v + 1 :=
  if_neg h

theorem level_step (h : FusionLevels dg fusible prevent group bad) (e : Edge) :
    level fusible group bad (dg.source e) ≤ level fusible group bad (dg.sink e) ∧
      (level fusible group bad (dg.source e) = level fusible group bad (dg.sink e) →
        (¬fusible (dg.source e) ∧ ¬fusible (dg.sink e)) ∨
          (fusible (dg.source e) ∧ fusible (dg.sink e) ∧ ¬prevent e)) := by
  by_cases hsource : fusible (dg.source e) <;> by_cases hsink : fusible (dg.sink e)
  · rw [level_of_fusible hsource, level_of_fusible hsink]
    have habove := h.above _ (dg.sink_mem e) hsink
    by_cases hprevent : prevent e
    · have := h.apart e hsource fun _ => hprevent
      omega
    · have := h.first _ _ (dg.source_mem e) (dg.sink_mem e) hsource hsink
        (lt_of_le_of_lt (h.keep e hsource hsink hprevent) habove)
      exact ⟨by omega, fun _ => Or.inr ⟨hsource, hsink, hprevent⟩⟩
  · rw [level_of_fusible hsource, level_of_not_fusible hsink]
    have := h.apart e hsource fun hs => absurd hs hsink
    omega
  · rw [level_of_not_fusible hsource, level_of_fusible hsink]
    have := h.above _ (dg.sink_mem e) hsink
    have := h.through e hsource
    omega
  · rw [level_of_not_fusible hsource, level_of_not_fusible hsink]
    have := h.through e hsource
    exact ⟨by omega, fun _ => Or.inl ⟨hsource, hsink⟩⟩

theorem level_reach (h : FusionLevels dg fusible prevent group bad) {u v : Node}
    (hreach : dg.Reach u v) : level fusible group bad u ≤ level fusible group bad v := by
  induction hreach with
  | refl => exact le_rfl
  | tail _ hstep ih =>
    obtain ⟨e, rfl, rfl⟩ := hstep
    exact ih.trans (h.level_step e).1

theorem fusible_of_level {u w : Node} (hu : fusible u)
    (hlevel : level fusible group bad w = level fusible group bad u) :
    fusible w ∧ group w = group u := by
  rw [level_of_fusible hu] at hlevel
  by_cases hw : fusible w
  · rw [level_of_fusible hw] at hlevel
    exact ⟨hw, by omega⟩
  · rw [level_of_not_fusible hw] at hlevel
    omega

variable {same : Node → Node → Prop}

theorem reach_antisymm (hacyclic : dg.Acyclic) {u v : Node} (huv : dg.Reach u v)
    (hvu : dg.Reach v u) : u = v := by
  rcases reflTransGen_iff_eq_or_transGen.mp huv with heq | htrans
  · exact heq.symm
  · exact absurd (TransGen.trans_left htrans hvu) (hacyclic u)

/-- No path between two nodes of a group uses a fusion-preventing edge. -/
theorem not_prevent (h : FusionLevels dg fusible prevent group bad) (hacyclic : dg.Acyclic)
    (hsame : ∀ u v, same u v ↔ u = v ∨ (fusible u ∧ fusible v ∧ group u = group v))
    {u v : Node} (huv : same u v) {e : Edge} (hsource : dg.Reach u (dg.source e))
    (hsink : dg.Reach (dg.sink e) v) : ¬prevent e := by
  rcases (hsame u v).mp huv with rfl | ⟨hu, hv, hgroup⟩
  · exact absurd (TransGen.trans_right hsource (TransGen.head' ⟨e, rfl, rfl⟩ hsink)) (hacyclic u)
  · have hfirst := h.level_reach hsource
    have hlast := h.level_reach hsink
    obtain ⟨hmid, hstrict⟩ := h.level_step e
    have hends : level fusible group bad u = level fusible group bad v := by
      rw [level_of_fusible hu, level_of_fusible hv, hgroup]
    have hlevel : level fusible group bad (dg.source e) = level fusible group bad u := by omega
    obtain ⟨hfusible, _⟩ := fusible_of_level hu hlevel
    rcases hstrict (by omega) with hneither | hboth
    · exact absurd hfusible hneither.1
    · exact hboth.2.2

/-- Every node on a path between two nodes of a group is in the group. -/
theorem same_of_between (h : FusionLevels dg fusible prevent group bad) (hacyclic : dg.Acyclic)
    (hsame : ∀ u v, same u v ↔ u = v ∨ (fusible u ∧ fusible v ∧ group u = group v))
    {u v w : Node} (huv : same u v) (huw : dg.Reach u w) (hwv : dg.Reach w v) : same u w := by
  rcases (hsame u v).mp huv with rfl | ⟨hu, hv, hgroup⟩
  · exact (hsame u w).mpr (Or.inl (reach_antisymm hacyclic huw hwv))
  · have hfirst := h.level_reach huw
    have hlast := h.level_reach hwv
    have hends : level fusible group bad u = level fusible group bad v := by
      rw [level_of_fusible hu, level_of_fusible hv, hgroup]
    have hlevel : level fusible group bad w = level fusible group bad u := by omega
    obtain ⟨hw, heq⟩ := fusible_of_level hu hlevel
    exact (hsame u w).mpr (Or.inr ⟨hu, hw, heq.symm⟩)

theorem level_contracted (h : FusionLevels dg fusible prevent group bad)
    (hsame : ∀ u v, same u v ↔ u = v ∨ (fusible u ∧ fusible v ∧ group u = group v))
    {u v : Node} (hcontracted : Contracted dg same u v) :
    level fusible group bad u < level fusible group bad v ∨
      level fusible group bad u = level fusible group bad v ∧ dg.Step u v := by
  have hlevel {x y : Node} (hxy : same x y) :
      level fusible group bad x = level fusible group bad y := by
    rcases (hsame x y).mp hxy with rfl | ⟨hx, hy, hgroup⟩
    · rfl
    · rw [level_of_fusible hx, level_of_fusible hy, hgroup]
  obtain ⟨e, hsource, hsink, hnot⟩ := hcontracted
  obtain ⟨hmid, hstrict⟩ := h.level_step e
  rw [hlevel hsource, ← hlevel hsink]
  rcases lt_or_eq_of_le hmid with hlt | heq
  · exact Or.inl hlt
  refine Or.inr ⟨heq, ?_⟩
  rcases hstrict heq with ⟨hs, ht⟩ | ⟨hs, ht, _⟩
  · have hu : u = dg.source e :=
      ((hsame _ _).mp hsource).resolve_right fun h => hs h.2.1
    have hv : dg.sink e = v :=
      ((hsame _ _).mp hsink).resolve_right fun h => ht h.1
    exact ⟨e, hu.symm, hv⟩
  · have hu : fusible u ∧ group u = group (dg.source e) := by
      rcases (hsame _ _).mp hsource with rfl | hsource
      · exact ⟨hs, rfl⟩
      · exact ⟨hsource.1, hsource.2.2⟩
    have hv : fusible v ∧ group (dg.sink e) = group v := by
      rcases (hsame _ _).mp hsink with rfl | hsink
      · exact ⟨ht, rfl⟩
      · exact ⟨hsink.2.1, hsink.2.2⟩
    rw [level_of_fusible hs, level_of_fusible ht] at heq
    exact absurd ((hsame u v).mpr (Or.inr ⟨hu.1, hv.1, by omega⟩)) hnot

/-- Contracting the groups leaves an acyclic graph. -/
theorem contracted_acyclic (h : FusionLevels dg fusible prevent group bad)
    (hacyclic : dg.Acyclic)
    (hsame : ∀ u v, same u v ↔ u = v ∨ (fusible u ∧ fusible v ∧ group u = group v)) (u : Node) :
    ¬TransGen (Contracted dg same) u u := by
  have hrun {v : Node} (hpath : TransGen (Contracted dg same) u v) :
      level fusible group bad u < level fusible group bad v ∨
        level fusible group bad u = level fusible group bad v ∧ TransGen dg.Step u v := by
    induction hpath with
    | single hstep =>
      rcases h.level_contracted hsame hstep with hlt | ⟨heq, hstep⟩
      · exact Or.inl hlt
      · exact Or.inr ⟨heq, .single hstep⟩
    | tail _ hstep ih =>
      rcases h.level_contracted hsame hstep with hlt | ⟨heq, hstep⟩
      · rcases ih with ih | ⟨ih, _⟩ <;> exact Or.inl (by omega)
      · rcases ih with ih | ⟨ih, hpath⟩
        · exact Or.inl (by omega)
        · exact Or.inr ⟨by omega, .tail hpath hstep⟩
  intro hcycle
  rcases hrun hcycle with hlt | ⟨_, hpath⟩
  · omega
  · exact hacyclic u hpath

end FusionLevels

structure TypedFusionOperator (Node Edge : Type) where
  getNodeType : Node → Int
  preventFusion : Node → Node → Edge → Bool

structure FusionAnalInfo where
  num : Nat
  maxBadPrev : Nat
  count : Int
  next : Nat
  type : Int

/-- The variables of one call; `marks` lists the calls of `MarkFuseNodes`. -/
structure FusionState (Node : Type) where
  infoMap : Node → FusionAnalInfo
  infoVec : List Node
  workStack : List Node
  lastnum : Nat
  fused : Nat
  lastfused : Nat
  marks : List (Node × Node)

namespace TypedFusion

variable {Node Edge : Type} [DecidableEq Node] (dg : GraphAccess Node Edge)
  (fuseOp : TypedFusionOperator Node Edge) (fusetype : Int)

def update (s : FusionState Node) (n : Node) (f : FusionAnalInfo → FusionAnalInfo) :
    FusionState Node :=
  { s with infoMap := Function.update s.infoMap n (f (s.infoMap n)) }

def initial : FusionState Node where
  infoMap n := {
    num := dg.nodes.idxOf n + 1
    maxBadPrev := 0
    count := (dg.inEdges n).length
    next := 0
    type := fuseOp.getNodeType n }
  infoVec := dg.nodes
  workStack := dg.nodes.filter fun n => (dg.inEdges n).length = 0
  lastnum := 0
  fused := 0
  lastfused := 0
  marks := []

/-- The group a node is put into, 0 for a new one. -/
def chooseGroup (s : FusionState Node) (n : Node) : Option Nat :=
  if (s.infoMap n).type = fusetype then
    if (s.infoMap n).maxBadPrev = 0 then some s.fused
    else do
      let leader ← s.infoVec[(s.infoMap n).maxBadPrev - 1]?
      return (s.infoMap leader).next
  else some 0

/-- A node joins the group of the leader at a position. -/
def joinGroup (s : FusionState Node) (n : Node) (p : Nat) : Option (FusionState Node) := do
  let leader ← s.infoVec[p - 1]?
  let info1 := s.infoMap leader
  let s := update s n fun info => { info with
    num := info1.num
    maxBadPrev := if info1.maxBadPrev > info.maxBadPrev then info1.maxBadPrev else info.maxBadPrev }
  return { s with marks := s.marks ++ [(leader, n)] }

/-- A node takes the next position and the node there takes the node's. -/
def swapIn (s : FusionState Node) (n : Node) : Option (FusionState Node) :=
  if (s.infoMap n).num ≠ s.lastnum then do
    let other ← s.infoVec[s.lastnum - 1]?
    let num := (s.infoMap n).num
    let s := { s with infoVec := (s.infoVec.set (s.lastnum - 1) n).set (num - 1) other }
    let s := update s other fun info => { info with num := num }
    return update s n fun info => { info with num := s.lastnum }
  else some s

/-- A new group is linked behind the last one. -/
def linkGroup (s : FusionState Node) : Option (FusionState Node) :=
  if s.lastfused = 0 then some { s with fused := s.lastnum, lastfused := s.lastnum }
  else do
    let last ← s.infoVec[s.lastfused - 1]?
    let s := update s last fun info => { info with next := s.lastnum }
    return { s with lastfused := s.lastnum }

def newGroup (s : FusionState Node) (n : Node) : Option (FusionState Node) := do
  let s ← swapIn { s with lastnum := s.lastnum + 1 } n
  if (s.infoMap n).type = fusetype then linkGroup s else some s

def placeNode (s : FusionState Node) (n : Node) : Option (FusionState Node) := do
  let p ← chooseGroup fusetype s n
  if p ≠ 0 then joinGroup s n p else newGroup fusetype s n

/-- The bound an edge from a placed node puts on the groups its sink can join. -/
def badPrev (s : FusionState Node) (n m : Node) (e : Edge) : Nat :=
  if (s.infoMap n).type ≠ fusetype then (s.infoMap n).maxBadPrev
  else if (s.infoMap m).type ≠ fusetype then (s.infoMap n).num
  else if !fuseOp.preventFusion n m e then (s.infoMap n).maxBadPrev
  else (s.infoMap n).num

def visitEdge (n : Node) (s : FusionState Node) (e : Edge) : FusionState Node :=
  let m := dg.sink e
  let s := update s m fun info => { info with count := info.count - 1 }
  let s := if (s.infoMap m).count = 0 then { s with workStack := s.workStack ++ [m] } else s
  let bad := badPrev fuseOp fusetype s n m e
  if (s.infoMap m).maxBadPrev < bad then update s m fun info => { info with maxBadPrev := bad }
  else s

/-- One round of the loop, with the first waiting node taken out. -/
def visitNode (s : FusionState Node) (n : Node) : Option (FusionState Node) := do
  let s ← placeNode fusetype s n
  return (dg.outEdges n).foldl (visitEdge dg fuseOp fusetype n) s

/-- The loop, which gives up when a position is out of range or the fuel runs out. -/
def loop : Nat → FusionState Node → Option (FusionState Node)
  | fuel, s =>
    match s.workStack, fuel with
    | [], _ => some s
    | _ :: _, 0 => none
    | n :: rest, fuel + 1 => do
      let s ← visitNode dg fuseOp fusetype { s with workStack := rest } n
      loop fuel s

/-- The pairs a call marks as fused. -/
def run : Option (List (Node × Node)) :=
  if dg.nodes.length ≤ 1 then some []
  else (loop dg fuseOp fusetype dg.nodes.length (initial dg fuseOp)).map FusionState.marks

end TypedFusion

end LoomX.Graph

namespace LoomX.Graph.TypedFusion

variable {Node Edge : Type} [DecidableEq Node] {dg : GraphAccess Node Edge}
  {fuseOp : TypedFusionOperator Node Edge} {fusetype : Int}

def Fusible (fuseOp : TypedFusionOperator Node Edge) (fusetype : Int) (n : Node) : Prop :=
  fuseOp.getNodeType n = fusetype

def Prevents (dg : GraphAccess Node Edge) (fuseOp : TypedFusionOperator Node Edge) (e : Edge) :
    Prop :=
  fuseOp.preventFusion (dg.source e) (dg.sink e) e = true

/-- The first of the increasing positions above a bound, 0 when there is none. -/
def firstAbove (heads : List Nat) (bound : Nat) : Nat :=
  (heads.find? (bound < ·)).getD 0

theorem firstAbove_append {heads : List Nat} {last : Nat} (bound : Nat) :
    firstAbove (heads ++ [last]) bound =
      if firstAbove heads bound = 0 ∧ bound < last then last else firstAbove heads bound := by
  unfold firstAbove
  rw [List.find?_append]
  cases hfind : heads.find? (bound < ·) with
  | none => by_cases hlast : bound < last <;> simp [hlast]
  | some k =>
    have hk : bound < k := by simpa using List.find?_some hfind
    simp
    omega

theorem firstAbove_spec {heads : List Nat} {bound : Nat} (hsorted : heads.Pairwise (· < ·)) 
    (h : firstAbove heads bound ≠ 0) :
    firstAbove heads bound ∈ heads ∧ bound < firstAbove heads bound ∧
      ∀ k ∈ heads, bound < k → firstAbove heads bound ≤ k := by
  unfold firstAbove at *
  induction heads with
  | nil => exact absurd rfl h
  | cons k heads ih =>
    obtain ⟨hk, hsorted⟩ := List.pairwise_cons.mp hsorted
    rw [List.find?_cons] at *
    by_cases hbound : bound < k
    · simp only [hbound, decide_true, Option.getD_some] at *
      refine ⟨List.mem_cons_self, trivial, fun j hj _ => ?_⟩
      rcases List.mem_cons.mp hj with rfl | hj
      · exact le_rfl
      · exact (hk j hj).le
    · simp only [decide_eq_false hbound] at *
      obtain ⟨hmem, hlt, hfirst⟩ := ih hsorted h
      refine ⟨List.mem_cons_of_mem k hmem, hlt, fun j hj hlt => ?_⟩
      rcases List.mem_cons.mp hj with rfl | hj
      · exact absurd hlt hbound
      · exact hfirst j hj hlt

theorem le_of_firstAbove_eq_zero {heads : List Nat} {bound : Nat} (hpos : ∀ k ∈ heads, 0 < k)
    (h : firstAbove heads bound = 0) : ∀ k ∈ heads, k ≤ bound := by
  intro k hk
  by_contra hlt
  unfold firstAbove at h
  cases hfind : heads.find? (bound < ·) with
  | none =>
    have := List.find?_eq_none.mp hfind k hk
    simp at this
    omega
  | some j =>
    rw [hfind, Option.getD_some] at h
    have := hpos j (List.mem_of_find?_eq_some hfind)
    omega

theorem firstAbove_eq_zero {heads : List Nat} {bound : Nat} (h : ∀ k ∈ heads, k ≤ bound) :
    firstAbove heads bound = 0 := by
  have hnone : heads.find? (bound < ·) = none := by
    rw [List.find?_eq_none]
    intro k hk
    simpa using h k hk
  rw [firstAbove, hnone, Option.getD_none]

/-- The placed nodes, their groups and the groups' leaders between two steps. -/
structure Placed (dg : GraphAccess Node Edge) (fuseOp : TypedFusionOperator Node Edge)
    (fusetype : Int) (done : List Node) (heads : List Nat) (group : Node → Nat)
    (s : FusionState Node) : Prop where
  type_eq : ∀ n, (s.infoMap n).type = fuseOp.getNodeType n
  vec_inj : ∀ (i j : Nat) (n : Node), s.infoVec[i]? = some n → s.infoVec[j]? = some n → i = j
  waiting : ∀ n ∈ dg.nodes, n ∉ done →
    s.lastnum < (s.infoMap n).num ∧ s.infoVec[(s.infoMap n).num - 1]? = some n ∧
      (s.infoMap n).next = 0
  heads_sorted : heads.Pairwise (· < ·)
  heads_le : ∀ k ∈ heads, 0 < k ∧ k ≤ s.lastnum
  leader : ∀ k ∈ heads, ∃ l ∈ done, s.infoVec[k - 1]? = some l ∧ (s.infoMap l).num = k ∧
    Fusible fuseOp fusetype l ∧ group l = k ∧ (s.infoMap l).next = firstAbove heads k
  fused_eq : s.fused = firstAbove heads 0
  lastfused_eq : s.lastfused = heads.getLast?.getD 0
  bad_mem : ∀ n, (s.infoMap n).maxBadPrev = 0 ∨ (s.infoMap n).maxBadPrev ∈ heads
  group_spec : ∀ n ∈ done, Fusible fuseOp fusetype n → group n ∈ heads ∧
    (s.infoMap n).maxBadPrev < group n ∧
    ∀ k ∈ heads, (s.infoMap n).maxBadPrev < k → group n ≤ k
  marks_same : ∀ p ∈ s.marks, p.1 ∈ done ∧ p.2 ∈ done ∧ Fusible fuseOp fusetype p.1 ∧
    Fusible fuseOp fusetype p.2 ∧ group p.1 = group p.2
  joined : ∀ n ∈ done, Fusible fuseOp fusetype n → ∀ l, s.infoVec[group n - 1]? = some l →
    SameGroup s.marks l n

/-- The edges followed so far, the nodes they made ready and the bounds they put on groups. -/
structure Followed (dg : GraphAccess Node Edge) (fuseOp : TypedFusionOperator Node Edge)
    (fusetype : Int) [DecidableEq Edge] (done : List Node) (handled : List Edge)
    (group : Node → Nat) (s : FusionState Node) : Prop where
  nodup : (done ++ s.workStack).Nodup
  mem_nodes : ∀ n ∈ done ++ s.workStack, n ∈ dg.nodes
  source_done : ∀ e ∈ handled, dg.source e ∈ done
  count_eq : ∀ n, (s.infoMap n).count = ((dg.inEdges n).filter (· ∉ handled)).length
  ready : ∀ n ∈ dg.nodes, n ∈ done ++ s.workStack ↔ ∀ e ∈ dg.inEdges n, e ∈ handled
  through : ∀ e ∈ handled, ¬Fusible fuseOp fusetype (dg.source e) →
    (s.infoMap (dg.source e)).maxBadPrev ≤ (s.infoMap (dg.sink e)).maxBadPrev
  keep : ∀ e ∈ handled, Fusible fuseOp fusetype (dg.source e) →
    Fusible fuseOp fusetype (dg.sink e) → ¬Prevents dg fuseOp e →
    (s.infoMap (dg.source e)).maxBadPrev ≤ (s.infoMap (dg.sink e)).maxBadPrev
  apart : ∀ e ∈ handled, Fusible fuseOp fusetype (dg.source e) →
    (Fusible fuseOp fusetype (dg.sink e) → Prevents dg fuseOp e) →
    group (dg.source e) ≤ (s.infoMap (dg.sink e)).maxBadPrev

end LoomX.Graph.TypedFusion
