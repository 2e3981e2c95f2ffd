import LoomX.Graph.FusionInvariant
import Mathlib.Data.Finset.Basic
import Mathlib.Data.List.Count
import Mathlib.Data.Set.Function
import Mathlib.Order.Interval.Finset.Nat
import Mathlib.Order.Interval.Set.Basic

namespace LoomX.Graph

/-- The members of the nodes and edges that the numbering writes. -/
structure Marks (Node Edge : Type) where
  ordNo : Node → Nat
  visitNo : Node → Nat
  isBackEdge : Edge → Bool

namespace Marks

variable {Node Edge : Type}

/-- The loop that resets the nodes. -/
def reset (m : Marks Node Edge) : Marks Node Edge :=
  { m with ordNo := fun _ => 0, visitNo := fun _ => 0 }

section
variable [DecidableEq Node] (m : Marks Node Edge) (n : Node) (k : Nat)

def setOrdNo : Marks Node Edge :=
  { m with ordNo := Function.update m.ordNo n k }

def visit : Marks Node Edge :=
  { m with visitNo := Function.update m.visitNo n (m.visitNo n + 1) }

@[simp] theorem setOrdNo_self : (m.setOrdNo n k).ordNo n = k := Function.update_self ..

theorem setOrdNo_of_ne {u : Node} (h : u ≠ n) : (m.setOrdNo n k).ordNo u = m.ordNo u :=
  Function.update_of_ne h ..

@[simp] theorem setOrdNo_visitNo : (m.setOrdNo n k).visitNo = m.visitNo := rfl

@[simp] theorem setOrdNo_isBackEdge : (m.setOrdNo n k).isBackEdge = m.isBackEdge := rfl

@[simp] theorem visit_self : (m.visit n).visitNo n = m.visitNo n + 1 := Function.update_self ..

theorem visit_of_ne {u : Node} (h : u ≠ n) : (m.visit n).visitNo u = m.visitNo u :=
  Function.update_of_ne h ..

@[simp] theorem visit_ordNo : (m.visit n).ordNo = m.ordNo := rfl

@[simp] theorem visit_isBackEdge : (m.visit n).isBackEdge = m.isBackEdge := rfl

end

section
variable [DecidableEq Edge] (m : Marks Node Edge) (e : Edge)

def setBackEdge : Marks Node Edge :=
  { m with isBackEdge := Function.update m.isBackEdge e true }

@[simp] theorem setBackEdge_self : (m.setBackEdge e).isBackEdge e = true := Function.update_self ..

theorem setBackEdge_of_ne {d : Edge} (h : d ≠ e) :
    (m.setBackEdge e).isBackEdge d = m.isBackEdge d :=
  Function.update_of_ne h ..

@[simp] theorem setBackEdge_ordNo : (m.setBackEdge e).ordNo = m.ordNo := rfl

@[simp] theorem setBackEdge_visitNo : (m.setBackEdge e).visitNo = m.visitNo := rfl

end

end Marks

section
variable {Node Edge : Type} [DecidableEq Node] [DecidableEq Edge] (dg : GraphAccess Node Edge)

/-- The body of the loop over the outgoing edges of a node, with the index given last. -/
def visitEdge (topo : Node → Marks Node Edge → Option (Nat × Marks Node Edge)) (e : Edge)
    (sortIndex : Nat) (m : Marks Node Edge) : Option (Nat × Marks Node Edge) :=
  let snk := dg.sink e
  if m.ordNo snk ≠ 0 then some (sortIndex, m.setBackEdge e)
  else
    let m := m.visit snk
    if m.visitNo snk = (dg.inEdges snk).length then topo snk (m.setOrdNo snk (sortIndex + 1))
    else some (sortIndex, m)

def visitEdges (topo : Node → Marks Node Edge → Option (Nat × Marks Node Edge)) :
    List Edge → Nat → Marks Node Edge → Option (Nat × Marks Node Edge)
  | [], sortIndex, m => some (sortIndex, m)
  | e :: es, sortIndex, m => do
    let (sortIndex, m) ← visitEdge dg topo e sortIndex m
    visitEdges topo es sortIndex m

/-- `TopoOrderNodes` for a node that has its number, where the calls nest less deep than the
fuel. -/
def topoOrderFrom : Nat → Node → Marks Node Edge → Option (Nat × Marks Node Edge)
  | 0, _, _ => none
  | fuel + 1, node, m =>
    visitEdges dg (topoOrderFrom fuel) (dg.outEdges node) (m.ordNo node) m

/-- The loop over the sorted nodes. -/
def topoOrderLoop (fuel : Nat) :
    List Node → Nat → Marks Node Edge → Option (Nat × Marks Node Edge)
  | [], sortIndex, m => some (sortIndex, m)
  | node :: rest, sortIndex, m =>
    if m.ordNo node = 0 then do
      let (sortIndex, m) ← topoOrderFrom dg fuel node (m.setOrdNo node (sortIndex + 1))
      topoOrderLoop fuel rest sortIndex m
    else topoOrderLoop fuel rest sortIndex m

end

/-- The state of the numbering: the nodes are numbered up to `last`, the edges in `done` have been
looked at, and `flags` are the back edges at the start. A node that got its number before all its
incoming edges were looked at has one up to `bound`. -/
structure Numbering {Node Edge : Type} [DecidableEq Edge] (dg : GraphAccess Node Edge)
    (flags : Edge → Bool) (bound : Nat) (done : Finset Edge) (last : Nat) (m : Marks Node Edge) :
    Prop where
  mem : ∀ n, m.ordNo n ≠ 0 → n ∈ dg.nodes
  le : ∀ n, m.ordNo n ≤ last
  injective : ∀ u v, m.ordNo u ≠ 0 → m.ordNo u = m.ordNo v → u = v
  surjective : ∀ k, 0 < k → k ≤ last → ∃ n, m.ordNo n = k
  visits : ∀ n, m.ordNo n = 0 → m.visitNo n = (dg.inEdges n).countP (· ∈ done)
  source : ∀ e ∈ done, m.ordNo (dg.source e) ≠ 0
  flagged : ∀ e ∈ done, m.isBackEdge e = true ↔
    flags e = true ∨ m.ordNo (dg.sink e) ≠ 0 ∧ m.ordNo (dg.sink e) ≤ m.ordNo (dg.source e)
  unseen : ∀ e, e ∉ done → m.isBackEdge e = flags e
  excused : ∀ e, m.ordNo (dg.sink e) ≠ 0 → e ∈ done ∨ m.ordNo (dg.sink e) ≤ bound
  backward : ∀ e ∈ done, m.ordNo (dg.sink e) ≠ 0 →
    m.ordNo (dg.sink e) ≤ m.ordNo (dg.source e) → m.ordNo (dg.sink e) ≤ bound
  bound_le : bound ≤ last

/-- A node without a number has an incoming edge that was not looked at, if it has any. -/
def Waiting {Node Edge : Type} (dg : GraphAccess Node Edge) (done : Finset Edge)
    (m : Marks Node Edge) : Prop :=
  ∀ n, m.ordNo n = 0 → dg.inEdges n ≠ [] → ∃ e ∈ dg.inEdges n, e ∉ done

section
variable {Node Edge : Type} [DecidableEq Edge] {dg : GraphAccess Node Edge} {flags : Edge → Bool}
  {bound bound' last : Nat} {done : Finset Edge} {m : Marks Node Edge} {e : Edge} {n : Node}

theorem countP_mem_insert {l : List Edge} (hl : l.Nodup) (he : e ∉ done) :
    l.countP (· ∈ insert e done) = l.countP (· ∈ done) + if e ∈ l then 1 else 0 := by
  induction l with
  | nil => rfl
  | cons d l ih =>
    obtain ⟨hd, hl⟩ := List.nodup_cons.mp hl
    rw [List.countP_cons, List.countP_cons, ih hl]
    by_cases hde : d = e
    · subst d
      simp [hd, he]
    · simp [hde, Ne.symm hde]
      omega

namespace Numbering

theorem visits_insert (h : Numbering dg flags bound done last m) (he : e ∉ done)
    (hn : m.ordNo n = 0) (hne : n ≠ dg.sink e) :
    m.visitNo n = (dg.inEdges n).countP (· ∈ insert e done) := by
  have hout : e ∉ dg.inEdges n := fun hin => hne ((dg.mem_inEdges n e).mp hin).symm
  rw [countP_mem_insert (dg.inEdges_nodup n) he, if_neg hout, Nat.add_zero, h.visits n hn]

/-- An edge to a node that has its number goes back to it. -/
theorem backEdge (h : Numbering dg flags bound done last m) (he : e ∉ done)
    (hsource : m.ordNo (dg.source e) ≠ 0) (hbound : bound ≤ m.ordNo (dg.source e))
    (hsink : m.ordNo (dg.sink e) ≠ 0) :
    Numbering dg flags bound (insert e done) last (m.setBackEdge e) := by
  have hle : m.ordNo (dg.sink e) ≤ bound := (h.excused e hsink).resolve_left he
  refine ⟨h.mem, h.le, h.injective, h.surjective, fun n hn => ?_, ?_, ?_, fun d hd => ?_,
    fun d hd => ?_, ?_, h.bound_le⟩
  · refine h.visits_insert he hn fun heq => ?_
    subst heq
    exact hsink hn
  · simp only [Finset.forall_mem_insert]
    exact ⟨hsource, h.source⟩
  · simp only [Finset.forall_mem_insert]
    refine ⟨iff_of_true (m.setBackEdge_self e) (.inr ⟨hsink, hle.trans hbound⟩), fun d hd => ?_⟩
    have hne : d ≠ e := fun heq => he (heq ▸ hd)
    rw [m.setBackEdge_of_ne e hne]
    exact h.flagged d hd
  · rw [Finset.mem_insert, not_or] at hd
    rw [m.setBackEdge_of_ne e hd.1]
    exact h.unseen d hd.2
  · exact (h.excused d hd).imp_left (Finset.mem_insert_of_mem)
  · simp only [Finset.forall_mem_insert]
    exact ⟨fun _ _ => hle, h.backward⟩

variable [DecidableEq Node]

/-- An edge to a node without a number adds to its count of visits. -/
theorem visit (h : Numbering dg flags bound done last m) (he : e ∉ done)
    (hsource : m.ordNo (dg.source e) ≠ 0) (hsink : m.ordNo (dg.sink e) = 0) :
    Numbering dg flags bound (insert e done) last (m.visit (dg.sink e)) := by
  refine ⟨h.mem, h.le, h.injective, h.surjective, fun n hn => ?_, ?_, ?_, fun d hd => ?_,
    fun d hd => ?_, ?_, h.bound_le⟩
  · by_cases hne : n = dg.sink e
    · subst n
      have hin : e ∈ dg.inEdges (dg.sink e) := (dg.mem_inEdges _ e).mpr rfl
      rw [Marks.visit_self, countP_mem_insert (dg.inEdges_nodup _) he, if_pos hin, h.visits _ hn]
    · rw [m.visit_of_ne _ hne]
      exact h.visits_insert he hn hne
  · simp only [Finset.forall_mem_insert]
    exact ⟨hsource, h.source⟩
  · simp only [Finset.forall_mem_insert]
    refine ⟨?_, h.flagged⟩
    simp [h.unseen e he, hsink]
  · rw [Finset.mem_insert, not_or] at hd
    exact h.unseen d hd.2
  · exact (h.excused d hd).imp_left (Finset.mem_insert_of_mem)
  · simp only [Finset.forall_mem_insert]
    exact ⟨fun hne => absurd hsink hne, h.backward⟩

/-- A node gets the next number, before or after all its incoming edges were looked at. -/
theorem number (h : Numbering dg flags bound done last m) (hn : n ∈ dg.nodes)
    (hzero : m.ordNo n = 0) (hbound : bound ≤ bound') (hbound' : bound' ≤ last + 1)
    (hin : ∀ d ∈ dg.inEdges n, d ∈ done ∨ last + 1 ≤ bound') :
    Numbering dg flags bound' done (last + 1) (m.setOrdNo n (last + 1)) := by
  have hold : ∀ u, m.ordNo u ≠ 0 → (m.setOrdNo n (last + 1)).ordNo u = m.ordNo u :=
    fun u hu => m.setOrdNo_of_ne n _ fun heq => hu (heq ▸ hzero)
  have hsame : ∀ u, u ≠ n → (m.setOrdNo n (last + 1)).ordNo u = m.ordNo u :=
    fun u hu => m.setOrdNo_of_ne n _ hu
  have hnew := m.setOrdNo_self n (last + 1)
  -- an edge that was looked at starts from a node with an earlier number
  have hsource : ∀ d ∈ done, (m.setOrdNo n (last + 1)).ordNo (dg.source d) ≤ last := by
    intro d hd
    rw [hold _ (h.source d hd)]
    exact h.le _
  refine ⟨fun u hu => ?_, fun u => ?_, fun u v hu huv => ?_, fun k hk hle => ?_, fun u hu => ?_,
    fun d hd => ?_, fun d hd => ?_, h.unseen, fun d hd => ?_, fun d hd hsink hle => ?_, hbound'⟩
  · by_cases hun : u = n
    · exact hun ▸ hn
    · rw [hsame u hun] at hu
      exact h.mem u hu
  · by_cases hun : u = n
    · rw [hun, hnew]
    · rw [hsame u hun]
      exact (h.le u).trans (Nat.le_succ last)
  · have hu' := h.le u
    have hv' := h.le v
    by_cases hun : u = n
    · by_cases hvn : v = n
      · rw [hun, hvn]
      · rw [hun, hnew, hsame v hvn] at huv
        omega
    · by_cases hvn : v = n
      · rw [hvn, hnew, hsame u hun] at huv
        omega
      · rw [hsame u hun] at hu huv
        rw [hsame v hvn] at huv
        exact h.injective u v hu huv
  · by_cases hklast : k ≤ last
    · obtain ⟨u, hu⟩ := h.surjective k hk hklast
      exact ⟨u, by rw [hold u (by omega), hu]⟩
    · exact ⟨n, by rw [hnew]; omega⟩
  · have hun : u ≠ n := fun heq => by rw [heq, hnew] at hu; omega
    rw [hsame u hun] at hu
    exact h.visits u hu
  · rw [hold _ (h.source d hd)]
    exact h.source d hd
  · have hd' := hsource d hd
    rw [Marks.setOrdNo_isBackEdge, h.flagged d hd]
    by_cases hsink : dg.sink d = n
    · rw [hsink, hnew]
      simp only [hzero, ne_eq, not_true_eq_false, false_and, or_false]
      constructor
      · exact .inl
      · rintro (hflag | ⟨-, hle⟩)
        · exact hflag
        · omega
    · rw [hsame _ hsink, hold _ (h.source d hd)]
  · by_cases hsink : dg.sink d = n
    · rcases hin d ((dg.mem_inEdges n d).mpr hsink) with hdone | hlast
      · exact .inl hdone
      · exact .inr (by rw [hsink, hnew]; exact hlast)
    · rw [hsame _ hsink] at hd ⊢
      exact (h.excused d hd).imp_right hbound.trans'
  · have hd' := hsource d hd
    have hne : dg.sink d ≠ n := fun heq => by rw [heq, hnew] at hle; omega
    rw [hsame _ hne] at hsink hle ⊢
    rw [hold _ (h.source d hd)] at hle
    exact (h.backward d hd hsink hle).trans hbound

end Numbering

namespace Waiting

theorem backEdge (h : Waiting dg done m) (hsink : m.ordNo (dg.sink e) ≠ 0) :
    Waiting dg (insert e done) (m.setBackEdge e) := by
  intro n hn hne
  obtain ⟨d, hd, hdone⟩ := h n hn hne
  refine ⟨d, hd, fun hmem => ?_⟩
  rcases Finset.mem_insert.mp hmem with heq | hmem
  · rw [← heq, (dg.mem_inEdges n d).mp hd] at hsink
    exact hsink hn
  · exact hdone hmem

variable [DecidableEq Node]

/-- The count of visits tells whether all the incoming edges were looked at. -/
theorem visit (h : Waiting dg done m)
    (hm : Numbering dg flags bound (insert e done) last (m.visit (dg.sink e)))
    (hsink : m.ordNo (dg.sink e) = 0)
    (hcount : (m.visit (dg.sink e)).visitNo (dg.sink e) ≠ (dg.inEdges (dg.sink e)).length) :
    Waiting dg (insert e done) (m.visit (dg.sink e)) := by
  intro n hn hne
  by_cases heq : n = dg.sink e
  · rw [hm.visits _ hsink] at hcount
    by_contra hall
    apply hcount
    rw [List.countP_eq_length, ← heq]
    intro d hd
    rw [decide_eq_true_eq]
    exact not_not.mp fun hdone => hall ⟨d, hd, hdone⟩
  · obtain ⟨d, hd, hdone⟩ := h n hn hne
    refine ⟨d, hd, fun hmem => ?_⟩
    rcases Finset.mem_insert.mp hmem with hde | hmem
    · rw [← hde] at heq
      exact heq ((dg.mem_inEdges n d).mp hd).symm
    · exact hdone hmem

omit [DecidableEq Edge] in
theorem number (h : Waiting dg done m) (k : Nat) : Waiting dg done (m.setOrdNo n (k + 1)) := by
  intro u hu hne
  have hun : u ≠ n := fun heq => by rw [heq, m.setOrdNo_self] at hu; omega
  rw [m.setOrdNo_of_ne n _ hun] at hu
  exact h u hu hne

/-- The visited node gets its number with the last of its incoming edges. -/
theorem visit_number (h : Waiting dg done m) (k : Nat) :
    Waiting dg (insert e done) ((m.visit (dg.sink e)).setOrdNo (dg.sink e) (k + 1)) := by
  intro u hu hne
  have hun : u ≠ dg.sink e := fun heq => by rw [heq, Marks.setOrdNo_self] at hu; omega
  rw [Marks.setOrdNo_of_ne _ _ _ hun] at hu
  obtain ⟨d, hd, hdone⟩ := h u hu hne
  refine ⟨d, hd, fun hmem => ?_⟩
  rcases Finset.mem_insert.mp hmem with hde | hmem
  · rw [← hde] at hun
    exact hun ((dg.mem_inEdges u d).mp hd).symm
  · exact hdone hmem

end Waiting

end

/-- What a part of the traversal over the edges `es` leaves as it was and what it adds; a node
that it numbers has all its outgoing edges looked at. -/
structure Grown {Node Edge : Type} (dg : GraphAccess Node Edge) (es : List Edge)
    (done : Finset Edge) (m : Marks Node Edge) (done' : Finset Edge) (m' : Marks Node Edge) :
    Prop where
  ordNo : ∀ u, m.ordNo u ≠ 0 → m'.ordNo u = m.ordNo u
  subset : done ⊆ done'
  seen : ∀ e ∈ es, e ∈ done'
  whole : ∀ u, m.ordNo u = 0 → m'.ordNo u ≠ 0 → ∀ e ∈ dg.outEdges u, e ∈ done'
  only : ∀ e ∈ done', e ∈ done ∨ e ∈ es ∨ m.ordNo (dg.source e) = 0

namespace Grown

variable {Node Edge : Type} {dg : GraphAccess Node Edge} {es es' : List Edge}
  {done done' done'' : Finset Edge} {m m' m'' : Marks Node Edge}

theorem refl : Grown dg [] done m done m :=
  ⟨fun _ _ => rfl, Finset.Subset.refl _, by simp, fun _ hu hne => absurd hu hne,
    fun _ he => .inl he⟩

theorem append (h : Grown dg es done m done' m') (h' : Grown dg es' done' m' done'' m'') :
    Grown dg (es ++ es') done m done'' m'' := by
  refine ⟨fun u hu => ?_, h.subset.trans h'.subset, fun e he => ?_, fun u hu hne => ?_,
    fun e he => ?_⟩
  · rw [h'.ordNo u (by rw [h.ordNo u hu]; exact hu), h.ordNo u hu]
  · rcases List.mem_append.mp he with he | he
    · exact h'.subset (h.seen e he)
    · exact h'.seen e he
  · by_cases hu' : m'.ordNo u = 0
    · exact h'.whole u hu' hne
    · exact fun e he => h'.subset (h.whole u hu hu' e he)
  · rcases h'.only e he with he | he | he
    · exact (h.only e he).imp_right fun he => he.imp_left (List.mem_append_left _)
    · exact .inr (.inl (List.mem_append_right _ he))
    · refine .inr (.inr (not_not.mp fun hne => ?_))
      rw [h.ordNo _ hne] at he
      exact hne he

theorem ordNo_ne_zero (h : Grown dg es done m done' m') {u : Node} (hu : m.ordNo u ≠ 0) :
    m'.ordNo u ≠ 0 := by
  rw [h.ordNo u hu]
  exact hu

end Grown

section
variable {Node Edge : Type} [DecidableEq Node] {dg : GraphAccess Node Edge} {es : List Edge}
  {done done' : Finset Edge} {m m' : Marks Node Edge} {n : Node}

/-- The nodes that have no number yet. -/
def unnumbered (dg : GraphAccess Node Edge) (m : Marks Node Edge) : Finset Node :=
  dg.nodes.toFinset.filter (m.ordNo · = 0)

theorem mem_unnumbered : n ∈ unnumbered dg m ↔ n ∈ dg.nodes ∧ m.ordNo n = 0 := by
  rw [unnumbered, Finset.mem_filter, List.mem_toFinset]

theorem Grown.card_unnumbered_le (h : Grown dg es done m done' m') :
    (unnumbered dg m').card ≤ (unnumbered dg m).card := by
  refine Finset.card_le_card fun u hu => ?_
  rw [mem_unnumbered] at hu ⊢
  exact ⟨hu.1, not_not.mp fun hne => h.ordNo_ne_zero hne hu.2⟩

theorem card_unnumbered_setOrdNo_lt (hn : n ∈ dg.nodes) (hzero : m.ordNo n = 0) (k : Nat) :
    (unnumbered dg (m.setOrdNo n (k + 1))).card < (unnumbered dg m).card := by
  refine Finset.card_lt_card (Finset.ssubset_iff_of_subset (fun u hu => ?_) |>.mpr ⟨n, ?_, ?_⟩)
  · rw [mem_unnumbered] at hu ⊢
    have hun : u ≠ n := fun heq => by rw [heq, m.setOrdNo_self] at hu; omega
    rw [m.setOrdNo_of_ne n _ hun] at hu
    exact hu
  · exact mem_unnumbered.mpr ⟨hn, hzero⟩
  · rw [mem_unnumbered, m.setOrdNo_self]
    omega

/-- A node that gets its number and is traversed. -/
theorem Grown.number (hzero : m.ordNo n = 0) {k : Nat}
    (h : Grown dg (dg.outEdges n) done (m.setOrdNo n k) done' m') : Grown dg [] done m done' m' := by
  have hold : ∀ u, u ≠ n → (m.setOrdNo n k).ordNo u = m.ordNo u := fun u => m.setOrdNo_of_ne n k
  refine ⟨fun u hu => ?_, h.subset, by simp, fun u hu hne => ?_, fun e he => ?_⟩
  · have hun : u ≠ n := fun heq => hu (heq ▸ hzero)
    rw [h.ordNo u (by rw [hold u hun]; exact hu), hold u hun]
  · by_cases hun : u = n
    · exact hun ▸ h.seen
    · exact h.whole u (by rw [hold u hun]; exact hu) hne
  · rcases h.only e he with he | he | he
    · exact .inl he
    · rw [dg.mem_outEdges] at he
      exact .inr (.inr (he ▸ hzero))
    · by_cases hun : dg.source e = n
      · exact .inr (.inr (hun ▸ hzero))
      · rw [hold _ hun] at he
        exact .inr (.inr he)

end

section
variable {Node Edge : Type} [DecidableEq Edge] {dg : GraphAccess Node Edge} {flags : Edge → Bool}
  {bound last fuel : Nat} {done : Finset Edge} {m m' : Marks Node Edge} {e : Edge} {es : List Edge}

theorem Grown.insert (hm : m'.ordNo = m.ordNo) : Grown dg [e] done m (insert e done) m' := by
  refine ⟨fun u _ => by rw [hm], Finset.subset_insert e done, by simp, fun u hu hne => ?_,
    fun d hd => ?_⟩
  · rw [hm] at hne
    exact absurd hu hne
  · rcases Finset.mem_insert.mp hd with hd | hd
    · exact .inr (.inl (List.mem_singleton.mpr hd))
    · exact .inl hd

/-- The state in the middle of the traversal, where the edges `es` of numbered nodes come next. -/
structure Traversing (dg : GraphAccess Node Edge) (flags : Edge → Bool) (bound : Nat)
    (es : List Edge) (done : Finset Edge) (last : Nat) (m : Marks Node Edge) : Prop
    extends Numbering dg flags bound done last m where
  waiting : Waiting dg done m
  nodup : es.Nodup
  unlooked : ∀ e ∈ es, e ∉ done
  numbered : ∀ e ∈ es, m.ordNo (dg.source e) ≠ 0
  above : ∀ e ∈ es, bound ≤ m.ordNo (dg.source e)

/-- The traversal of the edges `es` comes to an end and has looked at them. -/
def Traversed (dg : GraphAccess Node Edge) (flags : Edge → Bool) (bound : Nat) (es : List Edge)
    (done : Finset Edge) (m : Marks Node Edge) (result : Option (Nat × Marks Node Edge)) : Prop :=
  ∃ last' m' done', result = some (last', m') ∧ Numbering dg flags bound done' last' m' ∧
    Waiting dg done' m' ∧ Grown dg es done m done' m'

/-- The edges that come after are still to look at. -/
theorem Traversing.next (h : Traversing dg flags bound (e :: es) done last m)
    {done' : Finset Edge} {last' : Nat} (hm : Numbering dg flags bound done' last' m')
    (hwaiting : Waiting dg done' m') (hgrown : Grown dg [e] done m done' m') :
    Traversing dg flags bound es done' last' m' := by
  obtain ⟨hnotin, hnodup⟩ := List.nodup_cons.mp h.nodup
  refine ⟨hm, hwaiting, hnodup, fun d hd hdone => ?_, fun d hd => ?_, fun d hd => ?_⟩
  · have hmem := List.mem_cons_of_mem e hd
    rcases hgrown.only d hdone with hold | heq | hzero
    · exact h.unlooked d hmem hold
    · exact hnotin (List.mem_singleton.mp heq ▸ hd)
    · exact h.numbered d hmem hzero
  · exact hgrown.ordNo_ne_zero (h.numbered d (List.mem_cons_of_mem e hd))
  · rw [hgrown.ordNo _ (h.numbered d (List.mem_cons_of_mem e hd))]
    exact h.above d (List.mem_cons_of_mem e hd)

/-- The state between the calls of `TopoOrderNodes`, where the nodes `ns` come next. -/
structure Numbered (dg : GraphAccess Node Edge) (flags : Edge → Bool) (bound : Nat)
    (ns : List Node) (done : Finset Edge) (last : Nat) (m : Marks Node Edge) : Prop
    extends Numbering dg flags bound done last m where
  waiting : Waiting dg done m
  whole : ∀ u, m.ordNo u ≠ 0 → ∀ e ∈ dg.outEdges u, e ∈ done
  rest : ∀ u ∈ dg.nodes, u ∈ ns ∨ m.ordNo u ≠ 0

namespace Numbered

variable {n : Node} {ns : List Node}

/-- In an acyclic graph all the nodes are numbered once those without incoming edges are. -/
theorem ordNo_ne_zero (h : Numbered dg flags bound ns done last m) (hacyclic : dg.Acyclic)
    (hroots : ∀ u ∈ dg.nodes, dg.inEdges u = [] → m.ordNo u ≠ 0) :
    ∀ u ∈ dg.nodes, m.ordNo u ≠ 0 := by
  apply dg.induction_of_acyclic hacyclic (P := (m.ordNo · ≠ 0))
  intro u hu ih hzero
  by_cases hin : dg.inEdges u = []
  · exact hroots u hu hin hzero
  · obtain ⟨e, he, hdone⟩ := h.waiting u hzero hin
    exact hdone (h.whole _ (ih e he) e ((dg.mem_outEdges _ e).mpr rfl))

theorem skip (h : Numbered dg flags bound (n :: ns) done last m) (hn : m.ordNo n ≠ 0) :
    Numbered dg flags bound ns done last m := by
  refine ⟨h.toNumbering, h.waiting, h.whole, fun u hu => ?_⟩
  rcases h.rest u hu with hmem | hne
  · rcases List.mem_cons.mp hmem with rfl | hmem
    · exact .inr hn
    · exact .inl hmem
  · exact .inr hne

end Numbered

variable [DecidableEq Node]

/-- A node that just got the last number is ready to be traversed. -/
theorem Traversing.start {n : Node} {k : Nat} {bound' : Nat}
    (hm : Numbering dg flags bound' done (k + 1) (m.setOrdNo n (k + 1)))
    (hwaiting : Waiting dg done (m.setOrdNo n (k + 1)))
    (hsource : ∀ e ∈ done, m.ordNo (dg.source e) ≠ 0) (hzero : m.ordNo n = 0) :
    Traversing dg flags bound' (dg.outEdges n) done (k + 1) (m.setOrdNo n (k + 1)) := by
  have hlast : ∀ e ∈ dg.outEdges n, (m.setOrdNo n (k + 1)).ordNo (dg.source e) = k + 1 := by
    intro e he
    rw [(dg.mem_outEdges n e).mp he, m.setOrdNo_self]
  refine ⟨hm, hwaiting, dg.outEdges_nodup n, fun e he hdone => ?_, fun e he => ?_, fun e he => ?_⟩
  · apply hsource e hdone
    rw [(dg.mem_outEdges n e).mp he]
    exact hzero
  · rw [hlast e he]
    omega
  · rw [hlast e he]
    exact hm.bound_le

/-- What `TopoOrderNodes` does for a node with the last number. -/
def TopoOrders (dg : GraphAccess Node Edge) (flags : Edge → Bool) (bound fuel : Nat) : Prop :=
  ∀ n done last m, m.ordNo n = last → (unnumbered dg m).card < fuel →
    Traversing dg flags bound (dg.outEdges n) done last m →
    Traversed dg flags bound (dg.outEdges n) done m (topoOrderFrom dg fuel n m)

theorem visitEdge_spec (htopo : TopoOrders dg flags bound fuel)
    (h : Traversing dg flags bound (e :: es) done last m)
    (hfuel : (unnumbered dg m).card ≤ fuel) :
    Traversed dg flags bound [e] done m (visitEdge dg (topoOrderFrom dg fuel) e last m) := by
  have he := h.unlooked e List.mem_cons_self
  have hsource := h.numbered e List.mem_cons_self
  have habove := h.above e List.mem_cons_self
  unfold visitEdge
  dsimp only
  split
  next hsink =>
    exact ⟨_, _, _, rfl, h.backEdge he hsource habove hsink, h.waiting.backEdge hsink,
      Grown.insert rfl⟩
  next hsink =>
    have hzero : m.ordNo (dg.sink e) = 0 := not_not.mp hsink
    have hvisit := h.visit he hsource hzero
    split
    next hcount =>
      rw [hvisit.visits _ hzero, List.countP_eq_length] at hcount
      have hnumber := hvisit.number (dg.sink_mem e) hzero le_rfl
        (hvisit.bound_le.trans (Nat.le_succ last)) fun d hd => .inl (of_decide_eq_true (hcount d hd))
      have hstart := Traversing.start hnumber (h.waiting.visit_number last) hvisit.source hzero
      have hlt := card_unnumbered_setOrdNo_lt (m := m.visit (dg.sink e)) (dg.sink_mem e) hzero last
      obtain ⟨last', m', done', hrun, hm, hwaiting, hgrown⟩ :=
        htopo _ _ _ _ (Marks.setOrdNo_self ..) (hlt.trans_le hfuel) hstart
      have hfirst : Grown dg [e] done m (insert e done) (m.visit (dg.sink e)) := Grown.insert rfl
      have hbelow : Grown dg [] (insert e done) (m.visit (dg.sink e)) done' m' :=
        hgrown.number hzero
      exact ⟨last', m', done', hrun, hm, hwaiting, hfirst.append hbelow⟩
    next hcount =>
      exact ⟨_, _, _, rfl, hvisit, h.waiting.visit hvisit hzero hcount, Grown.insert rfl⟩

theorem visitEdges_spec (htopo : TopoOrders dg flags bound fuel)
    (h : Traversing dg flags bound es done last m) (hfuel : (unnumbered dg m).card ≤ fuel) :
    Traversed dg flags bound es done m (visitEdges dg (topoOrderFrom dg fuel) es last m) := by
  induction es generalizing done last m with
  | nil => exact ⟨last, m, done, rfl, h.toNumbering, h.waiting, Grown.refl⟩
  | cons e es ih =>
    obtain ⟨last', m', done', hrun, hm, hwaiting, hgrown⟩ := visitEdge_spec htopo h hfuel
    obtain ⟨last'', m'', done'', hrun', hm', hwaiting', hgrown'⟩ :=
      ih (h.next hm hwaiting hgrown) (hgrown.card_unnumbered_le.trans hfuel)
    refine ⟨last'', m'', done'', ?_, hm', hwaiting', hgrown.append hgrown'⟩
    unfold visitEdges
    rw [hrun]
    exact hrun'

theorem topoOrderFrom_spec (dg : GraphAccess Node Edge) (flags : Edge → Bool) (bound fuel : Nat) :
    TopoOrders dg flags bound fuel := by
  induction fuel with
  | zero => exact fun n done last m _ hfuel _ => absurd hfuel (Nat.not_lt_zero _)
  | succ fuel ih =>
    intro n done last m hn hfuel h
    unfold topoOrderFrom
    rw [hn]
    exact visitEdges_spec ih h (Nat.le_of_lt_succ hfuel)

namespace Numbered

variable {n : Node} {ns : List Node}

/-- The next node without a number starts a traversal of its own. -/
theorem root (h : Numbered dg flags bound (n :: ns) done last m) (hn : n ∈ dg.nodes)
    (hzero : m.ordNo n = 0) (hfuel : (unnumbered dg m).card ≤ fuel) :
    ∃ bound' done' last' m',
      topoOrderFrom dg fuel n (m.setOrdNo n (last + 1)) = some (last', m') ∧
        Numbered dg flags bound' ns done' last' m' ∧
        (unnumbered dg m').card ≤ fuel ∧ (dg.inEdges n = [] → bound' = bound) := by
  have hnumber : ∃ bound', Numbering dg flags bound' done (last + 1) (m.setOrdNo n (last + 1)) ∧
      (dg.inEdges n = [] → bound' = bound) := by
    by_cases hin : dg.inEdges n = []
    · refine ⟨bound, h.number hn hzero le_rfl (h.bound_le.trans (Nat.le_succ last)) ?_, fun _ => rfl⟩
      simp [hin]
    · exact ⟨last + 1, h.number hn hzero (h.bound_le.trans (Nat.le_succ last)) le_rfl
        fun _ _ => .inr le_rfl, fun heq => absurd heq hin⟩
  obtain ⟨bound', hnumber, hbound⟩ := hnumber
  have hlt := (card_unnumbered_setOrdNo_lt hn hzero last).trans_le hfuel
  obtain ⟨last', m', done', hrun, hm, hwaiting, hgrown⟩ :=
    topoOrderFrom_spec dg flags bound' fuel n done (last + 1) _ (m.setOrdNo_self n (last + 1)) hlt
      (.start hnumber (h.waiting.number last) h.source hzero)
  have hall := hgrown.number hzero
  refine ⟨bound', done', last', m', hrun, ⟨hm, hwaiting, fun u hu => ?_, fun u hu => ?_⟩,
    hgrown.card_unnumbered_le.trans hlt.le, hbound⟩
  · by_cases hold : m.ordNo u = 0
    · exact hall.whole u hold hu
    · exact fun e he => hall.subset (h.whole u hold e he)
  · rcases h.rest u hu with hmem | hne
    · rcases List.mem_cons.mp hmem with rfl | hmem
      · refine .inr (hgrown.ordNo_ne_zero ?_)
        rw [m.setOrdNo_self]
        omega
      · exact .inl hmem
    · exact .inr (hall.ordNo_ne_zero hne)

end Numbered

/-- The loop numbers all the nodes. In an acyclic graph it starts only from nodes without incoming
edges, where the nodes are sorted. -/
theorem topoOrderLoop_spec {ns : List Node} (hmem : ∀ n ∈ ns, n ∈ dg.nodes)
    (hsorted : ns.Pairwise fun u v => (dg.inEdges u).length ≤ (dg.inEdges v).length)
    (h : Numbered dg flags bound ns done last m) (hfuel : (unnumbered dg m).card ≤ fuel) :
    ∃ bound' done' last' m', topoOrderLoop dg fuel ns last m = some (last', m') ∧
      Numbered dg flags bound' [] done' last' m' ∧ (dg.Acyclic → bound' = bound) := by
  induction ns generalizing bound done last m with
  | nil => exact ⟨bound, done, last, m, rfl, h, fun _ => rfl⟩
  | cons n ns ih =>
    obtain ⟨hn, hmem⟩ := List.forall_mem_cons.mp hmem
    obtain ⟨hleast, hsorted⟩ := List.pairwise_cons.mp hsorted
    unfold topoOrderLoop
    split
    next hzero =>
      obtain ⟨bound', done', last', m', hrun, h', hfuel', hbound⟩ := h.root hn hzero hfuel
      obtain ⟨bound'', done'', last'', m'', hrun', h'', hbound'⟩ := ih hmem hsorted h' hfuel'
      refine ⟨bound'', done'', last'', m'', ?_, h'', fun hacyclic => ?_⟩
      · rw [hrun]
        exact hrun'
      · rw [hbound' hacyclic]
        apply hbound
        -- otherwise the nodes without incoming edges are numbered, and with them all the others
        by_contra hin
        refine h.ordNo_ne_zero hacyclic (fun u hu hroot => ?_) n hn hzero
        rcases h.rest u hu with hu | hne
        · exfalso
          apply hin
          have hle : (dg.inEdges n).length ≤ (dg.inEdges u).length := by
            rcases List.mem_cons.mp hu with rfl | hu
            · exact le_rfl
            · exact hleast u hu
          rw [hroot] at hle
          exact List.length_eq_zero_iff.mp (Nat.le_zero.mp hle)
        · exact hne
    next hne => exact ih hmem hsorted (h.skip hne) hfuel

end

/-- A valid order: the nodes are numbered from 1 on, and an edge that is no back edge goes up. -/
structure TopoOrdered {Node Edge : Type} (dg : GraphAccess Node Edge) (m : Marks Node Edge) :
    Prop where
  bijOn : Set.BijOn m.ordNo {n | n ∈ dg.nodes} (Set.Icc 1 dg.nodes.length)
  upward : ∀ e, m.isBackEdge e = false → m.ordNo (dg.source e) < m.ordNo (dg.sink e)

section
variable {Node Edge : Type} [DecidableEq Edge] {dg : GraphAccess Node Edge}
  {flags : Edge → Bool} {bound last : Nat} {done : Finset Edge} {m : Marks Node Edge}

/-- The nodes without marks, before the loop. -/
theorem numbered_reset (dg : GraphAccess Node Edge) (m : Marks Node Edge) :
    Numbered dg m.isBackEdge 0 dg.nodes ∅ 0 m.reset :=
  { mem := fun _ hne => absurd rfl hne
    le := fun _ => le_rfl
    injective := fun _ _ hne _ => absurd rfl hne
    surjective := fun _ hk hle => absurd (Nat.le_zero.mp hle) hk.ne'
    visits := fun n _ => by simp [Marks.reset]
    source := fun e he => absurd he (Finset.notMem_empty e)
    flagged := fun e he => absurd he (Finset.notMem_empty e)
    unseen := fun _ _ => rfl
    excused := fun _ hne => absurd rfl hne
    backward := fun e he => absurd he (Finset.notMem_empty e)
    bound_le := le_rfl
    waiting := fun n _ hne => by
      obtain ⟨e, he⟩ := List.exists_mem_of_ne_nil _ hne
      exact ⟨e, he, Finset.notMem_empty e⟩
    whole := fun _ hne => absurd rfl hne
    rest := fun _ hu => .inl hu }

namespace Numbered

theorem numbered (h : Numbered dg flags bound [] done last m) :
    ∀ n ∈ dg.nodes, m.ordNo n ≠ 0 :=
  fun n hn => (h.rest n hn).resolve_left List.not_mem_nil

theorem all_done (h : Numbered dg flags bound [] done last m) (e : Edge) : e ∈ done :=
  h.whole _ (h.numbered _ (dg.source_mem e)) e ((dg.mem_outEdges _ e).mpr rfl)

/-- At the end of the loop the flag of an edge tells its direction. -/
theorem isBackEdge_iff (h : Numbered dg flags bound [] done last m) (e : Edge) :
    m.isBackEdge e = true ↔
      flags e = true ∨ m.ordNo (dg.sink e) ≤ m.ordNo (dg.source e) := by
  rw [h.flagged e (h.all_done e)]
  simp only [h.numbered _ (dg.sink_mem e), ne_eq, not_false_eq_true, true_and]

theorem bijOn (h : Numbered dg flags bound [] done last m) :
    Set.BijOn m.ordNo {n | n ∈ dg.nodes} (Set.Icc 1 dg.nodes.length) := by
  have hbij : Set.BijOn m.ordNo {n | n ∈ dg.nodes} (Set.Icc 1 last) := by
    refine ⟨fun n hn => ?_, fun u hu v _ huv => ?_, fun k hk => ?_⟩
    · exact ⟨Nat.one_le_iff_ne_zero.mpr (h.numbered n hn), h.le n⟩
    · exact h.injective u v (h.numbered u hu) huv
    · obtain ⟨n, hn⟩ := h.surjective k hk.1 hk.2
      refine ⟨n, h.mem n ?_, hn⟩
      rw [hn]
      exact Nat.one_le_iff_ne_zero.mp hk.1
  have hlast : last = dg.nodes.length := by
    classical
    have hnodes : {n | n ∈ dg.nodes} = (dg.nodes.toFinset : Set Node) := by
      rw [List.coe_toFinset]
    have hcard := hbij
    rw [hnodes, ← Finset.coe_Icc] at hcard
    have hcard := hcard.finsetCard_eq
    rw [List.toFinset_card_of_nodup dg.nodes_nodup, Nat.card_Icc] at hcard
    omega
  rw [← hlast]
  exact hbij

theorem topoOrdered (h : Numbered dg flags bound [] done last m) : TopoOrdered dg m := by
  refine ⟨h.bijOn, fun e he => ?_⟩
  have hiff := h.isBackEdge_iff e
  rw [he] at hiff
  simp only [Bool.false_eq_true, false_iff, not_or, Nat.not_le] at hiff
  exact hiff.2

/-- No edge goes back when only nodes without incoming edges got their numbers early. -/
theorem isBackEdge_eq (h : Numbered dg flags 0 [] done last m) (e : Edge) :
    m.isBackEdge e = flags e := by
  have hsink := h.numbered _ (dg.sink_mem e)
  have hup : ¬m.ordNo (dg.sink e) ≤ m.ordNo (dg.source e) := fun hle =>
    hsink (Nat.le_zero.mp (h.backward e (h.all_done e) hsink hle))
  rw [Bool.eq_iff_iff, h.isBackEdge_iff e]
  exact or_iff_left hup

end Numbered

end

end LoomX.Graph
