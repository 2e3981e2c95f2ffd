import LoomX.Graph.FusionPlacement

namespace LoomX.Graph.TypedFusion

variable {Node Edge : Type} [DecidableEq Node] {dg : GraphAccess Node Edge}
  {fuseOp : TypedFusionOperator Node Edge} {fusetype : Int} {done : List Node} {heads : List Nat}
  {group : Node → Nat} {s : FusionState Node} {n : Node}

/-- A placed node joins the first group above its bound, or takes a new position. -/
theorem Placed.place (h : Placed dg fuseOp fusetype done heads group s) (hn : n ∈ dg.nodes)
    (hdone : n ∉ done) :
    ∃ s' heads' group', placeNode fusetype s n = some s' ∧
      Placed dg fuseOp fusetype (n :: done) heads' group' s' ∧
      Frame fuseOp fusetype n group group' s s' := by
  unfold placeNode
  by_cases hf : Fusible fuseOp fusetype n
  · simp only [h.chooseGroup_eq hf, Option.bind_eq_bind, Option.bind_some]
    by_cases hzero : firstAbove heads (s.infoMap n).maxBadPrev = 0
    · rw [if_neg (not_not.mpr hzero)]
      obtain ⟨s', heads', hnew, hplaced, hframe⟩ := h.new hn hdone fun _ => hzero
      exact ⟨s', heads', _, hnew, hplaced, hframe⟩
    · rw [if_pos hzero]
      obtain ⟨s', hjoin, hplaced, hframe⟩ := h.join hdone hf rfl hzero
      exact ⟨s', heads, _, hjoin, hplaced, hframe⟩
  · have hchoose : chooseGroup fusetype s n = some 0 := by
      unfold chooseGroup
      rw [if_neg fun htype => hf ((h.type_eq n).symm.trans htype)]
    simp only [hchoose, Option.bind_eq_bind, Option.bind_some, ne_eq, not_true_eq_false, if_false]
    obtain ⟨s', heads', hnew, hplaced, hframe⟩ := h.new hn hdone fun hf' => absurd hf' hf
    exact ⟨s', heads', _, hnew, hplaced, hframe⟩

omit [DecidableEq Node] in
theorem Placed.setWorkStack (h : Placed dg fuseOp fusetype done heads group s) (l : List Node) :
    Placed dg fuseOp fusetype done heads group { s with workStack := l } :=
  ⟨h.type_eq, h.vec_inj, h.waiting, h.heads_sorted, h.heads_le, h.leader, h.fused_eq,
    h.lastfused_eq, h.bad_mem, h.group_spec, h.marks_same, h.joined⟩

section

variable (dg fuseOp fusetype s n) (e : Edge)

theorem visitEdge_infoMap (hn : n ≠ dg.sink e) (m : Node) :
    (visitEdge dg fuseOp fusetype n s e).infoMap m =
      if m = dg.sink e then
        { s.infoMap m with
          count := (s.infoMap m).count - 1
          maxBadPrev := max (s.infoMap m).maxBadPrev (badPrev fuseOp fusetype s n (dg.sink e) e) }
      else s.infoMap m := by
  have hbad : ∀ s' : FusionState Node, s'.infoMap = (update s (dg.sink e) fun info =>
      { info with count := info.count - 1 }).infoMap →
        badPrev fuseOp fusetype s' n (dg.sink e) e = badPrev fuseOp fusetype s n (dg.sink e) e :=
    fun s' h => by simp only [badPrev, h, update_infoMap_self, update_infoMap_of_ne _ _ _ hn]
  unfold visitEdge
  dsimp only
  rw [hbad _ (by split <;> rfl)]
  by_cases hm : m = dg.sink e
  · subst hm
    -- whether the sink goes on the work stack does not matter here
    split
    all_goals
      split
      case isTrue hlt =>
        simp only [update_infoMap_self] at hlt ⊢
        simp [max_eq_right hlt.le]
      case isFalse hge =>
        simp only [update_infoMap_self] at hge ⊢
        simp [max_eq_left (not_lt.mp hge)]
  · split <;> split <;> simp [hm]

theorem visitEdge_workStack :
    (visitEdge dg fuseOp fusetype n s e).workStack =
      if (s.infoMap (dg.sink e)).count - 1 = 0 then s.workStack ++ [dg.sink e]
      else s.workStack := by
  unfold visitEdge
  dsimp only
  split_ifs <;> simp_all

theorem visitEdge_kept :
    (visitEdge dg fuseOp fusetype n s e).infoVec = s.infoVec ∧
      (visitEdge dg fuseOp fusetype n s e).lastnum = s.lastnum ∧
      (visitEdge dg fuseOp fusetype n s e).fused = s.fused ∧
      (visitEdge dg fuseOp fusetype n s e).lastfused = s.lastfused ∧
      (visitEdge dg fuseOp fusetype n s e).marks = s.marks := by
  unfold visitEdge
  dsimp only
  split_ifs <;> simp

end

/-- Following an edge to a node that is not placed yet keeps the groups. -/
theorem Placed.visitEdge (h : Placed dg fuseOp fusetype done heads group s) {e : Edge}
    (hn : n ∈ done) (hsink : dg.sink e ∉ done)
    (hnum : Fusible fuseOp fusetype n → (s.infoMap n).num = group n) :
    Placed dg fuseOp fusetype done heads group (visitEdge dg fuseOp fusetype n s e) := by
  have hne : n ≠ dg.sink e := fun heq => hsink (heq ▸ hn)
  have hinfo := visitEdge_infoMap dg fuseOp fusetype s n e hne
  obtain ⟨hvec, hlastnum, hfused, hlastfused, hmarks⟩ := visitEdge_kept dg fuseOp fusetype s n e
  have hold {m : Node} (hm : m ∈ done) :
      (TypedFusion.visitEdge dg fuseOp fusetype n s e).infoMap m = s.infoMap m := by
    rw [hinfo m, if_neg fun heq : m = dg.sink e => hsink (heq ▸ hm)]
  have hsame (m : Node) :
      (TypedFusion.visitEdge dg fuseOp fusetype n s e).infoMap m =
        { s.infoMap m with
          count := ((TypedFusion.visitEdge dg fuseOp fusetype n s e).infoMap m).count
          maxBadPrev := ((TypedFusion.visitEdge dg fuseOp fusetype n s e).infoMap m).maxBadPrev } := by
    rw [hinfo m]
    split <;> rfl
  have hbad : badPrev fuseOp fusetype s n (dg.sink e) e = 0 ∨
      badPrev fuseOp fusetype s n (dg.sink e) e ∈ heads := by
    have hnumber (htype : ¬(s.infoMap n).type ≠ fusetype) : (s.infoMap n).num ∈ heads := by
      have hf : Fusible fuseOp fusetype n := (h.type_eq n).symm.trans (not_not.mp htype)
      rw [hnum hf]
      exact (h.group_spec n hn hf).1
    unfold badPrev
    split_ifs with h1 h2 h3
    · exact h.bad_mem n
    · exact Or.inr (hnumber h1)
    · exact h.bad_mem n
    · exact Or.inr (hnumber h1)
  refine {
    type_eq := fun m => ?_
    vec_inj := by rw [hvec]; exact h.vec_inj
    waiting := fun m hm hmd => ?_
    heads_sorted := h.heads_sorted
    heads_le := by rw [hlastnum]; exact h.heads_le
    leader := fun k hk => ?_
    fused_eq := hfused.trans h.fused_eq
    lastfused_eq := hlastfused.trans h.lastfused_eq
    bad_mem := fun m => ?_
    group_spec := fun m hm => ?_
    marks_same := by rw [hmarks]; exact h.marks_same
    joined := by rw [hmarks, hvec]; exact h.joined }
  · rw [hsame m]
    exact h.type_eq m
  · rw [hvec, hlastnum, hsame m]
    exact h.waiting m hm hmd
  · obtain ⟨l, hl, hleader⟩ := h.leader k hk
    refine ⟨l, hl, ?_⟩
    rw [hvec, hold hl]
    exact hleader
  · rw [hinfo m]
    split
    next =>
      rcases Nat.le_total (badPrev fuseOp fusetype s n (dg.sink e) e)
        (s.infoMap m).maxBadPrev with hle | hle
      · simpa only [Nat.max_eq_left hle] using h.bad_mem m
      · simpa only [Nat.max_eq_right hle] using hbad
    next => exact h.bad_mem m
  · rw [hold hm]
    exact h.group_spec m hm

variable [DecidableEq Edge] {handled : List Edge}

omit [DecidableEq Node] in
theorem length_filter_handled {l : List Edge} (hl : l.Nodup) {e : Edge} (he : e ∈ l)
    (hnew : e ∉ handled) :
    ((l.filter (· ∉ handled)).length : Int) - 1 = (l.filter (· ∉ e :: handled)).length := by
  have herase : l.filter (· ∉ e :: handled) = (l.filter (· ∉ handled)).erase e := by
    rw [(hl.filter _).erase_eq_filter, List.filter_filter]
    congr 1
    funext x
    by_cases hx : x = e <;> simp [hx]
  have hmem : e ∈ l.filter (· ∉ handled) := by simp [he, hnew]
  have hpos := List.length_pos_of_mem hmem
  rw [herase, List.length_erase_of_mem hmem]
  omega

omit [DecidableEq Node] in
theorem filter_handled_of_notMem {l : List Edge} {e : Edge} (he : e ∉ l) :
    l.filter (· ∉ e :: handled) = l.filter (· ∉ handled) := by
  apply List.filter_congr
  intro x hx
  have hne : x ≠ e := fun heq => he (heq ▸ hx)
  simp [hne]

omit [DecidableEq Node] in
theorem length_filter_eq_zero {l : List Edge} :
    ((l.filter (· ∉ handled)).length : Int) = 0 ↔ ∀ e ∈ l, e ∈ handled := by
  rw [Int.natCast_eq_zero, List.length_eq_zero_iff, List.filter_eq_nil_iff]
  simp only [decide_eq_true_eq, not_not]

/-- Following one more edge of a placed node. -/
theorem Followed.visitEdge (h : Followed dg fuseOp fusetype done handled group s) {e : Edge}
    (hn : dg.source e ∈ done) (hnew : e ∉ handled)
    (htype : ∀ n, (s.infoMap n).type = fuseOp.getNodeType n)
    (hnum : Fusible fuseOp fusetype (dg.source e) →
      (s.infoMap (dg.source e)).num = group (dg.source e)) :
    Followed dg fuseOp fusetype done (e :: handled) group
      (visitEdge dg fuseOp fusetype (dg.source e) s e) ∧ dg.sink e ∉ done := by
  have hin : e ∈ dg.inEdges (dg.sink e) := (dg.mem_inEdges _ e).mpr rfl
  have hwait : dg.sink e ∉ done ++ s.workStack := fun hmem =>
    hnew ((h.ready _ (dg.sink_mem e)).mp hmem e hin)
  have hsink : dg.sink e ∉ done := fun hmem => hwait (List.mem_append_left _ hmem)
  refine ⟨?_, hsink⟩
  have hne {m : Node} (hm : m ∈ done) : m ≠ dg.sink e := fun heq => hsink (heq ▸ hm)
  have hinfo := visitEdge_infoMap dg fuseOp fusetype s _ e (hne hn)
  have hold {m : Node} (hm : m ∈ done) :
      (TypedFusion.visitEdge dg fuseOp fusetype (dg.source e) s e).infoMap m = s.infoMap m := by
    rw [hinfo m, if_neg (hne hm)]
  have hbad (m : Node) : (s.infoMap m).maxBadPrev ≤
      ((TypedFusion.visitEdge dg fuseOp fusetype (dg.source e) s e).infoMap m).maxBadPrev := by
    rw [hinfo m]
    split
    next => exact Nat.le_max_left _ _
    next => exact le_rfl
  have hbadsink : badPrev fuseOp fusetype s (dg.source e) (dg.sink e) e ≤
      ((TypedFusion.visitEdge dg fuseOp fusetype (dg.source e) s e).infoMap
        (dg.sink e)).maxBadPrev := by
    rw [hinfo, if_pos rfl]
    exact Nat.le_max_right _ _
  have hcount (m : Node) :
      ((TypedFusion.visitEdge dg fuseOp fusetype (dg.source e) s e).infoMap m).count =
        ((dg.inEdges m).filter (· ∉ e :: handled)).length := by
    rw [hinfo m]
    by_cases hm : m = dg.sink e
    · subst hm
      rw [if_pos rfl]
      simp only [h.count_eq]
      exact length_filter_handled (dg.inEdges_nodup _) hin hnew
    · rw [if_neg hm, h.count_eq, filter_handled_of_notMem]
      intro hmem
      exact hm ((dg.mem_inEdges m e).mp hmem).symm
  have hallhandled (m : Node) : (∀ e' ∈ dg.inEdges m, e' ∈ e :: handled) ↔
      ((TypedFusion.visitEdge dg fuseOp fusetype (dg.source e) s e).infoMap m).count = 0 := by
    rw [hcount m, length_filter_eq_zero]
  have hwork := visitEdge_workStack dg fuseOp fusetype s (dg.source e) e
  have hcountsink : (s.infoMap (dg.sink e)).count - 1 =
      ((TypedFusion.visitEdge dg fuseOp fusetype (dg.source e) s e).infoMap (dg.sink e)).count := by
    rw [hinfo, if_pos rfl]
  rw [hcountsink] at hwork
  refine {
    nodup := ?_
    mem_nodes := fun m hm => ?_
    source_done := fun e' he' => ?_
    count_eq := hcount
    ready := fun m hm => ?_
    through := fun e' he' hf => ?_
    keep := fun e' he' hf hf' hprevent => ?_
    apart := fun e' he' hf hprevent => ?_ }
  · rw [hwork]
    split
    next =>
      rw [← List.append_assoc, List.nodup_append]
      refine ⟨h.nodup, List.nodup_singleton _, fun x hx y hy => ?_⟩
      rw [List.mem_singleton.mp hy]
      exact fun heq => hwait (heq ▸ hx)
    next => exact h.nodup
  · rw [hwork] at hm
    split at hm
    next =>
      rw [← List.append_assoc, List.mem_append] at hm
      rcases hm with hm | hm
      · exact h.mem_nodes m hm
      · rw [List.mem_singleton.mp hm]
        exact dg.sink_mem e
    next => exact h.mem_nodes m hm
  · rcases List.mem_cons.mp he' with rfl | he'
    · exact hn
    · exact h.source_done e' he'
  · by_cases hms : m = dg.sink e
    · subst hms
      rw [hallhandled, hwork]
      split
      next hzero => simp [hzero]
      next hzero => simp only [hwait, hzero]
    · rw [hallhandled, hinfo m, if_neg hms]
      have hold : (s.infoMap m).count = 0 ↔ ∀ e' ∈ dg.inEdges m, e' ∈ handled := by
        rw [h.count_eq m, length_filter_eq_zero]
      rw [hold, ← h.ready m hm, hwork]
      split <;> simp [hms]
  · rcases List.mem_cons.mp he' with rfl | he'
    · refine le_trans ?_ hbadsink
      rw [hold hn]
      unfold badPrev
      rw [if_pos fun heq => hf ((htype _).symm.trans heq)]
    · rw [hold (h.source_done e' he')]
      exact (h.through e' he' hf).trans (hbad _)
  · rcases List.mem_cons.mp he' with rfl | he'
    · refine le_trans ?_ hbadsink
      rw [hold hn]
      unfold badPrev
      rw [if_neg (not_not.mpr ((htype _).trans hf)), if_neg (not_not.mpr ((htype _).trans hf'))]
      split
      next => exact le_rfl
      next hp => exact absurd (show Prevents dg fuseOp e' by simpa [Prevents] using hp) hprevent
    · rw [hold (h.source_done e' he')]
      exact (h.keep e' he' hf hf' hprevent).trans (hbad _)
  · rcases List.mem_cons.mp he' with rfl | he'
    · refine le_trans ?_ hbadsink
      rw [← hnum hf]
      unfold badPrev
      rw [if_neg (not_not.mpr ((htype _).trans hf))]
      split_ifs with htype' hp
      · exact le_rfl
      · have := hprevent ((htype _).symm.trans (not_not.mp htype'))
        rw [Prevents] at this
        simp [this] at hp
      · exact le_rfl
    · exact (h.apart e' he' hf hprevent).trans (hbad _)

end LoomX.Graph.TypedFusion

namespace LoomX.Graph.TypedFusion

open Relation

variable {Node Edge : Type} [DecidableEq Node] [DecidableEq Edge] {dg : GraphAccess Node Edge}
  {fuseOp : TypedFusionOperator Node Edge} {fusetype : Int} {done : List Node}
  {s : FusionState Node} {n : Node}

/-- The state between two rounds of the loop. -/
def Between (dg : GraphAccess Node Edge) (fuseOp : TypedFusionOperator Node Edge)
    (fusetype : Int) (done : List Node) (s : FusionState Node) : Prop :=
  ∃ handled heads group, Placed dg fuseOp fusetype done heads group s ∧
    Followed dg fuseOp fusetype done handled group s ∧
    ∀ e, e ∈ handled ↔ dg.source e ∈ done

theorem visitEdges {heads : List Nat} {group : Node → Nat} (hn : n ∈ done) {l : List Edge}
    (hsource : ∀ e ∈ l, dg.source e = n) (hl : l.Nodup) {s : FusionState Node}
    {handled : List Edge} (hnew : ∀ e ∈ l, e ∉ handled)
    (hplaced : Placed dg fuseOp fusetype done heads group s)
    (hfollowed : Followed dg fuseOp fusetype done handled group s)
    (hnum : Fusible fuseOp fusetype n → (s.infoMap n).num = group n) :
    ∃ handled', Placed dg fuseOp fusetype done heads group
        (l.foldl (visitEdge dg fuseOp fusetype n) s) ∧
      Followed dg fuseOp fusetype done handled' group
        (l.foldl (visitEdge dg fuseOp fusetype n) s) ∧
      ∀ e, e ∈ handled' ↔ e ∈ l ∨ e ∈ handled := by
  induction l generalizing s handled with
  | nil => exact ⟨handled, hplaced, hfollowed, by simp⟩
  | cons e l ih =>
    obtain ⟨he, hl⟩ := List.nodup_cons.mp hl
    have hen := hsource e List.mem_cons_self
    subst hen
    obtain ⟨hfollowed', hsink⟩ := hfollowed.visitEdge hn (hnew e List.mem_cons_self)
      hplaced.type_eq hnum
    have hne : dg.source e ≠ dg.sink e := fun heq => hsink (heq ▸ hn)
    have hrest : ∀ e' ∈ l, e' ∉ e :: handled := by
      intro e' he'
      rw [List.mem_cons, not_or]
      exact ⟨fun heq => he (heq ▸ he'), hnew e' (List.mem_cons_of_mem e he')⟩
    obtain ⟨handled', hp, hf, hiff⟩ := ih
      (fun e' he' => hsource e' (List.mem_cons_of_mem e he')) hl hrest
      (hplaced.visitEdge hn hsink hnum) hfollowed' (fun hf => by
        rw [visitEdge_infoMap dg fuseOp fusetype s _ e hne, if_neg hne]
        exact hnum hf)
    refine ⟨handled', hp, hf, fun e' => ?_⟩
    rw [hiff e']
    simp only [List.mem_cons]
    exact ⟨fun h => by tauto, fun h => by tauto⟩

/-- One round takes the first waiting node out, places it and follows its edges. -/
theorem Between.visitNode {rest : List Node} (h : Between dg fuseOp fusetype done s)
    (hwork : s.workStack = n :: rest) :
    n ∉ done ∧ ∃ s', visitNode dg fuseOp fusetype { s with workStack := rest } n = some s' ∧
      Between dg fuseOp fusetype (n :: done) s' := by
  obtain ⟨handled, heads, group, hplaced, hfollowed, hhandled⟩ := h
  have hnodup := hfollowed.nodup
  rw [hwork] at hnodup
  have hperm : (done ++ n :: rest).Perm (n :: done ++ rest) := List.perm_middle
  have hnodup' := hperm.nodup hnodup
  have hdone : n ∉ done := fun hmem =>
    (List.nodup_cons.mp hnodup').1 (List.mem_append_left _ hmem)
  refine ⟨hdone, ?_⟩
  have hn : n ∈ dg.nodes := hfollowed.mem_nodes n (by simp [hwork])
  obtain ⟨s₁, heads', group', hplace, hplaced', hframe⟩ :=
    (hplaced.setWorkStack rest).place hn hdone
  have hsourcene {e : Edge} (he : e ∈ handled) : dg.source e ≠ n := fun heq =>
    hdone (heq ▸ hfollowed.source_done e he)
  have hbad (m : Node) : (s.infoMap m).maxBadPrev ≤ (s₁.infoMap m).maxBadPrev := by
    by_cases hm : m = n
    · subst hm
      exact hframe.bad_self
    · exact (hframe.bad m hm).ge
  have hfollowed₁ : Followed dg fuseOp fusetype (n :: done) handled group' s₁ := by
    refine {
      nodup := by rw [hframe.workStack]; exact hnodup'
      mem_nodes := fun m hm => ?_
      source_done := fun e he => List.mem_cons_of_mem n (hfollowed.source_done e he)
      count_eq := fun m => (hframe.count m).trans (hfollowed.count_eq m)
      ready := fun m hm => ?_
      through := fun e he hf => ?_
      keep := fun e he hf hf' hp => ?_
      apart := fun e he hf hp => ?_ }
    · rw [hframe.workStack] at hm
      exact hfollowed.mem_nodes m (by rw [hwork]; exact hperm.mem_iff.mpr hm)
    · rw [hframe.workStack, ← hfollowed.ready m hm, hwork]
      exact hperm.mem_iff.symm
    · rw [hframe.bad _ (hsourcene he)]
      exact (hfollowed.through e he hf).trans (hbad _)
    · rw [hframe.bad _ (hsourcene he)]
      exact (hfollowed.keep e he hf hf' hp).trans (hbad _)
    · rw [hframe.group_eq _ (hsourcene he)]
      exact (hfollowed.apart e he hf hp).trans (hbad _)
  obtain ⟨handled', hplaced₂, hfollowed₂, hiff⟩ := visitEdges (l := dg.outEdges n)
    List.mem_cons_self (fun e he => (dg.mem_outEdges n e).mp he) (dg.outEdges_nodup n)
    (fun e he hmem => hsourcene hmem ((dg.mem_outEdges n e).mp he)) hplaced' hfollowed₁
    hframe.num_eq
  refine ⟨_, ?_, handled', heads', group', hplaced₂, hfollowed₂, fun e => ?_⟩
  · unfold TypedFusion.visitNode
    rw [hplace]
    rfl
  · rw [hiff e, dg.mem_outEdges, hhandled e, List.mem_cons]

theorem between_initial (dg : GraphAccess Node Edge) (fuseOp : TypedFusionOperator Node Edge)
    (fusetype : Int) : Between dg fuseOp fusetype [] (initial dg fuseOp) := by
  refine ⟨[], [], fun _ => 0, ?_, ?_, by simp⟩
  · refine {
      type_eq := fun _ => rfl
      vec_inj := fun i j n hi hj => ?_
      waiting := fun n hn _ => ⟨Nat.succ_pos _, ?_, rfl⟩
      heads_sorted := List.Pairwise.nil
      heads_le := nofun
      leader := nofun
      fused_eq := rfl
      lastfused_eq := rfl
      bad_mem := fun _ => Or.inl rfl
      group_spec := nofun
      marks_same := nofun
      joined := nofun }
    · exact (List.getElem?_inj (List.getElem?_eq_some_iff.mp hi).1 dg.nodes_nodup).mp (hi.trans hj.symm)
    · exact List.getElem?_idxOf hn
  · refine {
      nodup := dg.nodes_nodup.filter _
      mem_nodes := fun n hn => (List.mem_filter.mp hn).1
      source_done := nofun
      count_eq := fun n => by simp [initial]
      ready := fun n hn => ?_
      through := nofun
      keep := nofun
      apart := nofun }
    simp [initial, hn, List.eq_nil_iff_forall_not_mem]

omit [DecidableEq Node] in
theorem Between.length_lt {rest : List Node} (h : Between dg fuseOp fusetype done s)
    (hwork : s.workStack = n :: rest) : done.length < dg.nodes.length := by
  obtain ⟨_, _, _, _, hfollowed, _⟩ := h
  have hle := (List.subperm_of_subset hfollowed.nodup hfollowed.mem_nodes).length_le
  rw [hwork, List.length_append, List.length_cons] at hle
  omega

/-- The loop ends with every node whose predecessors are all placed. -/
theorem loop_between {fuel : Nat} (hfuel : dg.nodes.length ≤ done.length + fuel)
    (h : Between dg fuseOp fusetype done s) :
    ∃ done' s', loop dg fuseOp fusetype fuel s = some s' ∧
      Between dg fuseOp fusetype done' s' ∧ s'.workStack = [] := by
  induction fuel generalizing done s with
  | zero =>
    cases hwork : s.workStack with
    | nil => exact ⟨done, s, by simp [loop, hwork], h, hwork⟩
    | cons n rest =>
      have := h.length_lt hwork
      omega
  | succ fuel ih =>
    cases hwork : s.workStack with
    | nil => exact ⟨done, s, by simp [loop, hwork], h, hwork⟩
    | cons n rest =>
      obtain ⟨_, s₁, hvisit, h₁⟩ := h.visitNode hwork
      obtain ⟨done', s', hloop, h', hnil⟩ := ih
        (by rw [List.length_cons]; omega) h₁
      refine ⟨done', s', ?_, h', hnil⟩
      unfold loop
      simp only [hwork, hvisit, Option.bind_eq_bind, Option.bind_some, hloop]

omit [DecidableEq Node] in
/-- An acyclic graph is placed as a whole. -/
theorem Between.all_done (h : Between dg fuseOp fusetype done s) (hacyclic : dg.Acyclic)
    (hnil : s.workStack = []) : ∀ n ∈ dg.nodes, n ∈ done := by
  obtain ⟨handled, _, _, _, hfollowed, hhandled⟩ := h
  apply dg.induction_of_acyclic hacyclic (P := (· ∈ done))
  intro n hn ih
  have hready := (hfollowed.ready n hn).mpr fun e he => (hhandled e).mpr (ih e he)
  simpa [hnil] using hready

omit [DecidableEq Node] [DecidableEq Edge] in
theorem sameGroup_iff {heads : List Nat} {group : Node → Nat}
    (h : Placed dg fuseOp fusetype done heads group s) (hdone : ∀ n ∈ dg.nodes, n ∈ done)
    (hnodes : ∀ n ∈ done, n ∈ dg.nodes) (u v : Node) :
    SameGroup s.marks u v ↔ u = v ∨ ((u ∈ dg.nodes ∧ Fusible fuseOp fusetype u) ∧
      (v ∈ dg.nodes ∧ Fusible fuseOp fusetype v) ∧ group u = group v) := by
  constructor
  · intro hsame
    induction hsame with
    | rel u v hmark =>
      obtain ⟨hu, hv, hfu, hfv, heq⟩ := h.marks_same _ hmark
      exact Or.inr ⟨⟨hnodes u hu, hfu⟩, ⟨hnodes v hv, hfv⟩, heq⟩
    | refl u => exact Or.inl rfl
    | symm u v _ ih =>
      rcases ih with rfl | ⟨hu, hv, heq⟩
      · exact Or.inl rfl
      · exact Or.inr ⟨hv, hu, heq.symm⟩
    | trans u v w _ _ ihuv ihvw =>
      rcases ihuv with rfl | ⟨hu, _, huv⟩
      · exact ihvw
      · rcases ihvw with rfl | ⟨_, hw, hvw⟩
        · exact Or.inr ⟨hu, by assumption, huv⟩
        · exact Or.inr ⟨hu, hw, huv.trans hvw⟩
  · rintro (rfl | ⟨⟨hu, hfu⟩, ⟨hv, hfv⟩, heq⟩)
    · exact .refl _
    · have hgroup := (h.group_spec u (hdone u hu) hfu).1
      obtain ⟨l, _, hvec, _⟩ := h.leader _ hgroup
      have hlu := h.joined u (hdone u hu) hfu l hvec
      have hlv := h.joined v (hdone v hv) hfv l (by rw [← heq]; exact hvec)
      exact .trans _ _ _ (.symm _ _ hlu) hlv

omit [DecidableEq Edge] in
/-- Fusing by types keeps apart what a path through a fusion-preventing edge or through another
group joins, and the fused graph stays acyclic. -/
theorem run_legal (dg : GraphAccess Node Edge) (fuseOp : TypedFusionOperator Node Edge)
    (fusetype : Int) (hacyclic : dg.Acyclic) :
    ∃ marks, run dg fuseOp fusetype = some marks ∧
      (∀ u v e, SameGroup marks u v → dg.Reach u (dg.source e) → dg.Reach (dg.sink e) v →
        fuseOp.preventFusion (dg.source e) (dg.sink e) e = false) ∧
      (∀ u v w, SameGroup marks u v → dg.Reach u w → dg.Reach w v → SameGroup marks u w) ∧
      ∀ u, ¬TransGen (Contracted dg (SameGroup marks)) u u := by
  classical
  have hlegal {marks : List (Node × Node)} {fusible : Node → Prop} {group bad : Node → Nat}
      (hlevels : FusionLevels dg fusible (Prevents dg fuseOp) group bad)
      (hsame : ∀ u v, SameGroup marks u v ↔
        u = v ∨ (fusible u ∧ fusible v ∧ group u = group v)) :
      (∀ u v e, SameGroup marks u v → dg.Reach u (dg.source e) → dg.Reach (dg.sink e) v →
        fuseOp.preventFusion (dg.source e) (dg.sink e) e = false) ∧
      (∀ u v w, SameGroup marks u v → dg.Reach u w → dg.Reach w v → SameGroup marks u w) ∧
      ∀ u, ¬TransGen (Contracted dg (SameGroup marks)) u u :=
    ⟨fun u v e huv hu hv =>
        Bool.eq_false_iff.mpr (hlevels.not_prevent hacyclic hsame huv hu hv),
      fun u v w huv hu hv => hlevels.same_of_between hacyclic hsame huv hu hv,
      fun u => hlevels.contracted_acyclic hacyclic hsame u⟩
  unfold run
  split
  next =>
    refine ⟨[], rfl, @hlegal [] (fun _ => False) (fun _ => 0) (fun _ => 0)
      ⟨fun _ _ => le_rfl, fun _ h => h.elim, fun _ h => h.elim, fun _ _ h => h.elim,
        fun _ _ _ _ h => h.elim⟩ fun u v => ⟨fun hsame => Or.inl ?_, ?_⟩⟩
    · induction hsame with
      | rel _ _ hmark => contradiction
      | refl => rfl
      | symm _ _ _ ih => exact ih.symm
      | trans _ _ _ _ _ ih ih' => exact ih.trans ih'
    · rintro (rfl | ⟨h, _⟩)
      · exact .refl _
      · exact h.elim
  next =>
    obtain ⟨done, s, hloop, hbetween, hnil⟩ := loop_between
      (show dg.nodes.length ≤ ([] : List Node).length + dg.nodes.length by simp)
      (between_initial dg fuseOp fusetype)
    have hdone := hbetween.all_done hacyclic hnil
    obtain ⟨handled, heads, group, hplaced, hfollowed, hhandled⟩ := hbetween
    have hnodes (n : Node) (hn : n ∈ done) : n ∈ dg.nodes :=
      hfollowed.mem_nodes n (List.mem_append_left _ hn)
    have hall (e : Edge) : e ∈ handled := (hhandled e).mpr (hdone _ (dg.source_mem e))
    refine ⟨s.marks, by rw [hloop]; rfl, @hlegal s.marks _ _ (fun n => (s.infoMap n).maxBadPrev) ?_
      (sameGroup_iff hplaced hdone hnodes)⟩
    refine ⟨fun e hf => hfollowed.through e (hall e) fun h => hf ⟨dg.source_mem e, h⟩,
      fun e hf hf' => hfollowed.keep e (hall e) hf.2 hf'.2,
      fun e hf hp => hfollowed.apart e (hall e) hf.2 fun h => hp ⟨dg.sink_mem e, h⟩,
      fun v hv hf => (hplaced.group_spec v (hdone v hv) hf.2).2.1,
      fun u v hu hv hf hf' hlt => ?_⟩
    exact (hplaced.group_spec u (hdone u hu) hf.2).2.2 _
      (hplaced.group_spec v (hdone v hv) hf'.2).1 hlt

/-- Three loops in a row, with a dependence from the first to the others. -/
def loops : GraphAccess (Fin 3) (Fin 2) where
  nodes := [0, 1, 2]
  outEdges n := if n = 0 then [0, 1] else []
  inEdges n := if n = 1 then [0] else if n = 2 then [1] else []
  source _ := 0
  sink e := e.succ
  nodes_nodup := by decide
  outEdges_nodup := by decide
  inEdges_nodup := by decide
  mem_outEdges := by decide
  mem_inEdges := by decide
  source_mem := by decide
  sink_mem := by decide

def loopsOperator : TypedFusionOperator (Fin 3) (Fin 2) where
  getNodeType _ := 1
  preventFusion _ _ e := e = 1

theorem loops_acyclic : loops.Acyclic := by
  have hlt {u v : Fin 3} (h : TransGen loops.Step u v) : u < v := by
    induction h with
    | single hstep =>
      obtain ⟨e, rfl, rfl⟩ := hstep
      exact Fin.succ_pos e
    | tail _ hstep ih =>
      obtain ⟨e, rfl, rfl⟩ := hstep
      exact absurd ih (Fin.not_lt_zero _)
  exact fun v h => lt_irrefl v (hlt h)

example : run loops loopsOperator 1 = some [(0, 1)] := by decide

theorem loops_legal : ∃ marks, run loops loopsOperator 1 = some marks ∧
    (∀ u v e, SameGroup marks u v → loops.Reach u (loops.source e) →
      loops.Reach (loops.sink e) v →
      loopsOperator.preventFusion (loops.source e) (loops.sink e) e = false) ∧
    (∀ u v w, SameGroup marks u v → loops.Reach u w → loops.Reach w v → SameGroup marks u w) ∧
    ∀ u, ¬TransGen (Contracted loops (SameGroup marks)) u u :=
  run_legal loops loopsOperator 1 loops_acyclic

end LoomX.Graph.TypedFusion
