import LoomX.Graph.FusionInvariant

namespace LoomX.Graph.TypedFusion

variable {Node Edge : Type} [DecidableEq Node] {dg : GraphAccess Node Edge}
  {fuseOp : TypedFusionOperator Node Edge} {fusetype : Int}

section

variable (s : FusionState Node) (n : Node) (f : FusionAnalInfo → FusionAnalInfo)

@[simp] theorem update_infoMap_self : (update s n f).infoMap n = f (s.infoMap n) :=
  Function.update_self n _ _

@[simp] theorem update_infoMap_of_ne {m : Node} (h : m ≠ n) :
    (update s n f).infoMap m = s.infoMap m :=
  Function.update_of_ne h _ _

@[simp] theorem update_infoVec : (update s n f).infoVec = s.infoVec := rfl

@[simp] theorem update_workStack : (update s n f).workStack = s.workStack := rfl

@[simp] theorem update_lastnum : (update s n f).lastnum = s.lastnum := rfl

@[simp] theorem update_fused : (update s n f).fused = s.fused := rfl

@[simp] theorem update_lastfused : (update s n f).lastfused = s.lastfused := rfl

@[simp] theorem update_marks : (update s n f).marks = s.marks := rfl

end

/-- What placing a node leaves as it was, and the number the node gets. -/
structure Frame (fuseOp : TypedFusionOperator Node Edge) (fusetype : Int) (n : Node)
    (group group' : Node → Nat) (s s' : FusionState Node) : Prop where
  workStack : s'.workStack = s.workStack
  count : ∀ m, (s'.infoMap m).count = (s.infoMap m).count
  bad : ∀ m, m ≠ n → (s'.infoMap m).maxBadPrev = (s.infoMap m).maxBadPrev
  bad_self : (s.infoMap n).maxBadPrev ≤ (s'.infoMap n).maxBadPrev
  group_eq : ∀ m, m ≠ n → group' m = group m
  num_eq : Fusible fuseOp fusetype n → (s'.infoMap n).num = group' n

variable {done : List Node} {heads : List Nat} {group : Node → Nat} {s : FusionState Node}
  {n : Node}

namespace Placed

omit [DecidableEq Node] in
theorem chooseGroup_eq (h : Placed dg fuseOp fusetype done heads group s)
    (hfusible : Fusible fuseOp fusetype n) :
    chooseGroup fusetype s n = some (firstAbove heads (s.infoMap n).maxBadPrev) := by
  have htype : (s.infoMap n).type = fusetype := (h.type_eq n).trans hfusible
  unfold chooseGroup
  rw [if_pos htype]
  split
  next hzero => rw [h.fused_eq, hzero]
  next hzero =>
    obtain ⟨l, _, hvec, _, _, _, hnext⟩ := h.leader _ ((h.bad_mem n).resolve_left hzero)
    simp [hvec, hnext]

theorem join (h : Placed dg fuseOp fusetype done heads group s) (hn : n ∉ done)
    (hfusible : Fusible fuseOp fusetype n) {p : Nat}
    (hp : firstAbove heads (s.infoMap n).maxBadPrev = p) (hpos : p ≠ 0) :
    ∃ s', joinGroup s n p = some s' ∧
      Placed dg fuseOp fusetype (n :: done) heads (Function.update group n p) s' ∧
      Frame fuseOp fusetype n group (Function.update group n p) s s' := by
  obtain ⟨hmem, hlt, hfirst⟩ := firstAbove_spec h.heads_sorted (hp ▸ hpos)
  rw [hp] at hmem hlt hfirst
  obtain ⟨l, hl, hvec, hnum, hlfusible, hlgroup, hnext⟩ := h.leader p hmem
  have hlbad := (h.group_spec l hl hlfusible).2.1
  have hne {m : Node} (hm : m ∈ done) : m ≠ n := fun heq => hn (heq ▸ hm)
  have hgroup {m : Node} (hm : m ∈ done) : Function.update group n p m = group m :=
    Function.update_of_ne (hne hm) _ _
  unfold joinGroup
  simp only [hvec, Option.bind_eq_bind, Option.bind_some, Option.pure_def]
  refine ⟨_, rfl, ?_, ?_⟩
  · refine {
      type_eq := fun m => ?_
      vec_inj := h.vec_inj
      waiting := fun m hm hmd => ?_
      heads_sorted := h.heads_sorted
      heads_le := h.heads_le
      leader := fun k hk => ?_
      fused_eq := h.fused_eq
      lastfused_eq := h.lastfused_eq
      bad_mem := fun m => ?_
      group_spec := fun m hm hmf => ?_
      marks_same := fun q hq => ?_
      joined := fun m hm hmf l' hl' => ?_ }
    · by_cases hm : m = n
      · subst hm
        simpa using h.type_eq m
      · simpa [hm] using h.type_eq m
    · rw [List.mem_cons, not_or] at hmd
      obtain ⟨hmn, hmd⟩ := hmd
      simpa [hmn] using h.waiting m hm hmd
    · obtain ⟨l', hl', hvec', hnum', hf', hg', hnext'⟩ := h.leader k hk
      refine ⟨l', List.mem_cons_of_mem n hl', hvec', ?_, hf', (hgroup hl').trans hg', ?_⟩
      · simpa [hne hl'] using hnum'
      · simpa [hne hl'] using hnext'
    · by_cases hm : m = n
      · subst hm
        simp only [update_infoMap_self]
        split
        next => exact h.bad_mem l
        next => exact h.bad_mem m
      · simpa [hm] using h.bad_mem m
    · by_cases hmn : m = n
      · subst hmn
        rw [Function.update_self]
        simp only [update_infoMap_self]
        refine ⟨hmem, ?_, fun k hk hlow => hfirst k hk ?_⟩
        · split <;> omega
        · split at hlow <;> omega
      · have hmd := (List.mem_cons.mp hm).resolve_left hmn
        rw [hgroup hmd]
        simpa [hmn] using h.group_spec m hmd hmf
    · rcases List.mem_append.mp hq with hq | hq
      · obtain ⟨h1, h2, hf1, hf2, hsame⟩ := h.marks_same q hq
        rw [hgroup h1, hgroup h2]
        exact ⟨List.mem_cons_of_mem n h1, List.mem_cons_of_mem n h2, hf1, hf2, hsame⟩
      · cases List.mem_singleton.mp hq
        rw [hgroup hl, Function.update_self]
        exact ⟨List.mem_cons_of_mem n hl, List.mem_cons_self, hlfusible, hfusible, hlgroup⟩
    · by_cases hmn : m = n
      · subst hmn
        rw [Function.update_self] at hl'
        cases Option.some.inj (hvec.symm.trans hl')
        exact .rel _ _ (List.mem_append_right _ List.mem_cons_self)
      · have hmd := (List.mem_cons.mp hm).resolve_left hmn
        rw [hgroup hmd] at hl'
        exact (h.joined m hmd hmf l' hl').mono fun _ _ => List.mem_append_left _
  · refine ⟨rfl, fun m => ?_, fun m hm => ?_, ?_, fun m hm => ?_, fun _ => ?_⟩
    · by_cases hm : m = n
      · subst hm
        simp
      · simp [hm]
    · simp [hm]
    · simp
      split <;> omega
    · exact Function.update_of_ne hm _ _
    · simp [hnum]

/-- What the exchange of two positions achieves for the node moved to the front. -/
structure Swapped (dg : GraphAccess Node Edge) (done : List Node) (n : Node)
    (s s' : FusionState Node) : Prop where
  workStack : s'.workStack = s.workStack
  marks : s'.marks = s.marks
  fused : s'.fused = s.fused
  lastfused : s'.lastfused = s.lastfused
  lastnum : s'.lastnum = s.lastnum + 1
  infoMap : ∀ m, s'.infoMap m = { s.infoMap m with num := (s'.infoMap m).num }
  num_self : (s'.infoMap n).num = s.lastnum + 1
  vec_self : s'.infoVec[s.lastnum]? = some n
  vec_low : ∀ i < s.lastnum, s'.infoVec[i]? = s.infoVec[i]?
  num_low : ∀ m i, i < s.lastnum → s.infoVec[i]? = some m → (s'.infoMap m).num = (s.infoMap m).num
  vec_inj : ∀ (i j : Nat) (m : Node), s'.infoVec[i]? = some m → s'.infoVec[j]? = some m → i = j
  waiting : ∀ m ∈ dg.nodes, m ∉ done → m ≠ n →
    s.lastnum + 1 < (s'.infoMap m).num ∧ s'.infoVec[(s'.infoMap m).num - 1]? = some m

theorem swap (h : Placed dg fuseOp fusetype done heads group s) (hn : n ∈ dg.nodes)
    (hdone : n ∉ done) :
    ∃ s', swapIn { s with lastnum := s.lastnum + 1 } n = some s' ∧ Swapped dg done n s s' := by
  obtain ⟨hnum, hvec, _⟩ := h.waiting n hn hdone
  unfold swapIn
  split
  next hne =>
    have hne : (s.infoMap n).num ≠ s.lastnum + 1 := hne
    have hlength : s.lastnum < s.infoVec.length := by
      have := (List.getElem?_eq_some_iff.mp hvec).1
      omega
    obtain ⟨other, hother⟩ : ∃ other, s.infoVec[s.lastnum]? = some other :=
      ⟨_, List.getElem?_eq_getElem hlength⟩
    have hotherne : other ≠ n := by
      rintro rfl
      have := h.vec_inj _ _ _ hvec hother
      omega
    have hget (i : Nat) : ((s.infoVec.set s.lastnum n).set ((s.infoMap n).num - 1) other)[i]? =
        if i = (s.infoMap n).num - 1 then some other
        else if i = s.lastnum then some n else s.infoVec[i]? := by
      have hlast := (List.getElem?_eq_some_iff.mp hvec).1
      rw [List.getElem?_set, List.getElem?_set, List.length_set]
      split_ifs <;> first | rfl | omega
    simp only [Nat.add_sub_cancel, hother, Option.bind_eq_bind, Option.bind_some, Option.pure_def]
    refine ⟨_, rfl, rfl, rfl, rfl, rfl, rfl, fun m => ?_, ?_, ?_, fun i hi => ?_,
      fun m i hi hm => ?_, fun i j m hi hj => ?_, fun m hm hmd hmn => ?_⟩
    · by_cases hmn : m = n
      · subst hmn
        simp [hotherne.symm]
      · by_cases hmo : m = other
        · subst hmo
          simp [hmn]
        · simp [hmn, hmo]
    · simp
    · simp only [update_infoVec, hget]
      rw [if_neg (by omega), if_pos trivial]
    · simp only [update_infoVec, hget]
      rw [if_neg (by omega), if_neg (by omega)]
    · have hmn : m ≠ n := by
        rintro rfl
        have := h.vec_inj _ _ _ hvec hm
        omega
      have hmo : m ≠ other := by
        rintro rfl
        have := h.vec_inj _ _ _ hother hm
        omega
      simp [hmn, hmo]
    · simp only [update_infoVec, hget] at hi hj
      have hfixed {k : Nat} (hk : s.infoVec[k]? = some m) (hkn : k ≠ (s.infoMap n).num - 1)
          (hko : k ≠ s.lastnum) : m ≠ n ∧ m ≠ other := by
        constructor
        · rintro rfl
          exact hkn (h.vec_inj _ _ _ hk hvec)
        · rintro rfl
          exact hko (h.vec_inj _ _ _ hk hother)
      split_ifs at hi hj with hi1 hj1 hj2 hi2 hj1 hj2 hj1 hj2
      · omega
      · simp_all
      · exact absurd (Option.some.inj hi).symm (hfixed hj hj1 hj2).2
      · simp_all
      · omega
      · exact absurd (Option.some.inj hi).symm (hfixed hj hj1 hj2).1
      · exact absurd (Option.some.inj hj).symm (hfixed hi hi1 hi2).2
      · exact absurd (Option.some.inj hj).symm (hfixed hi hi1 hi2).1
      · exact h.vec_inj _ _ _ hi hj
    · obtain ⟨hmnum, hmvec, _⟩ := h.waiting m hm hmd
      by_cases hmo : m = other
      · subst hmo
        simp only [update_infoMap_of_ne _ _ _ hmn, update_infoMap_self, update_infoVec, hget]
        exact ⟨by omega, if_pos trivial⟩
      · have hmL : (s.infoMap m).num - 1 ≠ s.lastnum := by
          intro heq
          rw [heq, hother] at hmvec
          exact hmo (Option.some.inj hmvec).symm
        have hmq : (s.infoMap m).num - 1 ≠ (s.infoMap n).num - 1 := by
          intro heq
          rw [heq, hvec] at hmvec
          exact hmn (Option.some.inj hmvec).symm
        simp only [update_infoMap_of_ne _ _ _ hmn, update_infoMap_of_ne _ _ _ hmo, update_infoVec,
          hget]
        rw [if_neg hmq, if_neg hmL]
        exact ⟨by omega, hmvec⟩
  next heq =>
    have heq : (s.infoMap n).num = s.lastnum + 1 := not_not.mp heq
    refine ⟨_, rfl, ⟨rfl, rfl, rfl, rfl, rfl, fun _ => rfl, heq, ?_, fun _ _ => rfl,
      fun _ _ _ _ => rfl, h.vec_inj, fun m hm hmd hmn => ?_⟩⟩
    · simpa [heq] using hvec
    · obtain ⟨hmnum, hmvec, _⟩ := h.waiting m hm hmd
      refine ⟨lt_of_le_of_ne hmnum fun hsame => hmn ?_, hmvec⟩
      rw [heq] at hvec
      rw [← hsame] at hmvec
      exact Option.some.inj (hmvec.symm.trans hvec)

omit [DecidableEq Node] in
theorem bad_le (h : Placed dg fuseOp fusetype done heads group s) (m : Node) :
    (s.infoMap m).maxBadPrev ≤ s.lastnum := by
  rcases h.bad_mem m with hzero | hmem
  · omega
  · exact (h.heads_le _ hmem).2

/-- A node on a position of its own, whether or not it starts a group. -/
theorem placed_of_swapped (h : Placed dg fuseOp fusetype done heads group s) (hdone : n ∉ done)
    {s₁ s' : FusionState Node} (hs : Swapped dg done n s s₁) {heads' : List Nat}
    (hheads : heads' = heads ∧ ¬Fusible fuseOp fusetype n ∨
      heads' = heads ++ [s.lastnum + 1] ∧ Fusible fuseOp fusetype n ∧
        firstAbove heads (s.infoMap n).maxBadPrev = 0)
    (hvec : s'.infoVec = s₁.infoVec) (hmarks : s'.marks = s₁.marks)
    (hlastnum : s'.lastnum = s₁.lastnum)
    (hmap : ∀ m, s'.infoMap m = { s₁.infoMap m with next := (s'.infoMap m).next })
    (hfresh : ∀ m, m ∉ done → (s'.infoMap m).next = (s.infoMap m).next)
    (hnext : ∀ k ∈ heads', ∀ l, s₁.infoVec[k - 1]? = some l →
      (s'.infoMap l).next = firstAbove heads' k)
    (hfused : s'.fused = firstAbove heads' 0)
    (hlast : s'.lastfused = heads'.getLast?.getD 0) :
    Placed dg fuseOp fusetype (n :: done) heads' (Function.update group n (s.lastnum + 1)) s' := by
  have hne {m : Node} (hm : m ∈ done) : m ≠ n := fun heq => hdone (heq ▸ hm)
  have hgroup {m : Node} (hm : m ∈ done) :
      Function.update group n (s.lastnum + 1) m = group m :=
    Function.update_of_ne (hne hm) _ _
  have hsub {k : Nat} (hk : k ∈ heads) : k ∈ heads' := by
    rcases hheads with ⟨rfl, _⟩ | ⟨rfl, _⟩
    · exact hk
    · exact List.mem_append_left _ hk
  have hnew {k : Nat} (hk : k ∈ heads') :
      k ∈ heads ∨ k = s.lastnum + 1 ∧ Fusible fuseOp fusetype n := by
    rcases hheads with ⟨rfl, _⟩ | ⟨rfl, hf, _⟩
    · exact Or.inl hk
    · exact (List.mem_append.mp hk).imp_right fun hk => ⟨List.mem_singleton.mp hk, hf⟩
  have hinfo (m : Node) : s'.infoMap m =
      { s.infoMap m with num := (s₁.infoMap m).num, next := (s'.infoMap m).next } := by
    rw [hmap m, hs.infoMap m]
  have hbad (m : Node) : (s'.infoMap m).maxBadPrev = (s.infoMap m).maxBadPrev := by rw [hinfo m]
  have hnum (m : Node) : (s'.infoMap m).num = (s₁.infoMap m).num := by rw [hinfo m]
  refine {
    type_eq := fun m => ?_
    vec_inj := by rw [hvec]; exact hs.vec_inj
    waiting := fun m hm hmd => ?_
    heads_sorted := ?_
    heads_le := fun k hk => ?_
    leader := fun k hk => ?_
    fused_eq := hfused
    lastfused_eq := hlast
    bad_mem := fun m => ?_
    group_spec := fun m hm hmf => ?_
    marks_same := fun q hq => ?_
    joined := fun m hm hmf l hl => ?_ }
  · rw [hinfo m]
    exact h.type_eq m
  · rw [List.mem_cons, not_or] at hmd
    have hmwait := hs.waiting m hm hmd.2 hmd.1
    rw [hvec, hlastnum, hnum m, hs.lastnum, hfresh m hmd.2]
    exact ⟨hmwait.1, hmwait.2, (h.waiting m hm hmd.2).2.2⟩
  · rcases hheads with ⟨rfl, _⟩ | ⟨rfl, _⟩
    · exact h.heads_sorted
    · refine List.pairwise_append.mpr ⟨h.heads_sorted, List.pairwise_singleton _ _, ?_⟩
      intro k hk j hj
      cases List.mem_singleton.mp hj
      have := (h.heads_le k hk).2
      omega
  · rw [hlastnum, hs.lastnum]
    rcases hnew hk with hk | ⟨rfl, _⟩
    · have := h.heads_le k hk
      omega
    · omega
  · rcases hnew hk with hkold | ⟨rfl, hf⟩
    · obtain ⟨l, hl, hlvec, hlnum, hlf, hlg, _⟩ := h.leader k hkold
      have hkle := h.heads_le k hkold
      have hlvec' := (hs.vec_low (k - 1) (by omega)).trans hlvec
      refine ⟨l, List.mem_cons_of_mem n hl, by rw [hvec]; exact hlvec', ?_, hlf,
        (hgroup hl).trans hlg, hnext k hk l hlvec'⟩
      rw [hnum l, hs.num_low l (k - 1) (by omega) hlvec, hlnum]
    · refine ⟨n, List.mem_cons_self, by rw [hvec]; exact hs.vec_self, ?_, hf,
        Function.update_self n _ _, hnext _ hk n hs.vec_self⟩
      rw [hnum n, hs.num_self]
  · rw [hbad m]
    exact (h.bad_mem m).imp_right hsub
  · rw [hbad m]
    by_cases hmn : m = n
    · subst hmn
      rw [Function.update_self]
      rcases hheads with ⟨_, hnf⟩ | ⟨rfl, _, hnone⟩
      · exact absurd hmf hnf
      · have hle := le_of_firstAbove_eq_zero (fun k hk => (h.heads_le k hk).1) hnone
        have hlow := h.bad_le m
        refine ⟨List.mem_append_right _ List.mem_cons_self, by omega, fun k hk hlt => ?_⟩
        rcases List.mem_append.mp hk with hk | hk
        · have := hle k hk
          omega
        · rw [List.mem_singleton.mp hk]
    · have hmd := (List.mem_cons.mp hm).resolve_left hmn
      obtain ⟨hmem, hlt, hfirst⟩ := h.group_spec m hmd hmf
      rw [hgroup hmd]
      refine ⟨hsub hmem, hlt, fun k hk hlow => ?_⟩
      rcases hnew hk with hk | ⟨rfl, _⟩
      · exact hfirst k hk hlow
      · have := (h.heads_le _ hmem).2
        omega
  · rw [hmarks, hs.marks] at hq
    obtain ⟨h1, h2, hf1, hf2, hsame⟩ := h.marks_same q hq
    rw [hgroup h1, hgroup h2]
    exact ⟨List.mem_cons_of_mem n h1, List.mem_cons_of_mem n h2, hf1, hf2, hsame⟩
  · rw [hvec] at hl
    rw [hmarks, hs.marks]
    by_cases hmn : m = n
    · subst hmn
      rw [Function.update_self, Nat.add_sub_cancel, hs.vec_self] at hl
      cases Option.some.inj hl
      exact .refl _
    · have hmd := (List.mem_cons.mp hm).resolve_left hmn
      rw [hgroup hmd] at hl
      have hpos := h.heads_le _ (h.group_spec m hmd hmf).1
      rw [hs.vec_low _ (by omega)] at hl
      exact h.joined m hmd hmf l hl

/-- A node that no group takes starts a new one when it is fusible. -/
theorem new (h : Placed dg fuseOp fusetype done heads group s) (hn : n ∈ dg.nodes)
    (hdone : n ∉ done)
    (hnone : Fusible fuseOp fusetype n → firstAbove heads (s.infoMap n).maxBadPrev = 0) :
    ∃ s' heads', newGroup fusetype s n = some s' ∧
      Placed dg fuseOp fusetype (n :: done) heads' (Function.update group n (s.lastnum + 1)) s' ∧
      Frame fuseOp fusetype n group (Function.update group n (s.lastnum + 1)) s s' := by
  obtain ⟨s₁, hswap, hs⟩ := h.swap hn hdone
  have hinfo (m : Node) : s₁.infoMap m = { s.infoMap m with num := (s₁.infoMap m).num } :=
    hs.infoMap m
  have htype : (s₁.infoMap n).type = fuseOp.getNodeType n := by
    rw [hinfo n]
    exact h.type_eq n
  have hnext₁ (m : Node) : (s₁.infoMap m).next = (s.infoMap m).next := by rw [hinfo m]
  have hleader {k : Nat} (hk : k ∈ heads) {l : Node} (hl : s₁.infoVec[k - 1]? = some l) :
      l ∈ done ∧ (s.infoMap l).next = firstAbove heads k ∧ (s.infoMap l).num = k := by
    have hkle := h.heads_le k hk
    rw [hs.vec_low _ (by omega)] at hl
    obtain ⟨l', hmem, hvec, hnum, _, _, hnext⟩ := h.leader k hk
    cases Option.some.inj (hvec.symm.trans hl)
    exact ⟨hmem, hnext, hnum⟩
  have hframe (s' : FusionState Node) (hwork : s'.workStack = s₁.workStack)
      (hmap : ∀ m, s'.infoMap m = { s₁.infoMap m with next := (s'.infoMap m).next }) :
      Frame fuseOp fusetype n group (Function.update group n (s.lastnum + 1)) s s' := by
    refine ⟨hwork.trans hs.workStack, fun m => ?_, fun m _ => ?_, ?_,
      fun m hm => Function.update_of_ne hm _ _, fun _ => ?_⟩
    · rw [hmap m, hinfo m]
    · rw [hmap m, hinfo m]
    · rw [hmap n, hinfo n]
    · rw [hmap n, Function.update_self]
      exact hs.num_self
  unfold newGroup
  simp only [hswap, Option.bind_eq_bind, Option.bind_some, htype]
  by_cases hf : fuseOp.getNodeType n = fusetype
  · have hnone := hnone hf
    rw [if_pos hf]
    unfold linkGroup
    have hlastfused := hs.lastfused.trans h.lastfused_eq
    rcases heads.eq_nil_or_concat' with rfl | ⟨init, last, rfl⟩
    · rw [if_pos (by simpa using hlastfused)]
      refine ⟨_, [s.lastnum + 1], rfl, ?_, hframe _ rfl fun _ => rfl⟩
      refine h.placed_of_swapped hdone hs (Or.inr ⟨rfl, hf, hnone⟩) rfl rfl rfl (fun _ => rfl)
        (fun m _ => hnext₁ m) (fun k hk l hl => ?_) ?_ ?_
      · cases List.mem_singleton.mp hk
        rw [Nat.add_sub_cancel, hs.vec_self] at hl
        cases Option.some.inj hl
        rw [hnext₁, (h.waiting _ hn hdone).2.2]
        simp [firstAbove]
      · simp [firstAbove, hs.lastnum]
      · simp [hs.lastnum]
    · have hpos := h.heads_le last (by simp)
      have hmax (k : Nat) (hk : k ∈ init) : k < last :=
        (List.pairwise_append.mp h.heads_sorted).2.2 k hk last List.mem_cons_self
      have hlast : s₁.lastfused = last := by simpa using hlastfused
      obtain ⟨l, hl, hvec, hnum, _, _, hnext⟩ := h.leader last (by simp)
      have hvec₁ := (hs.vec_low _ (by omega)).trans hvec
      rw [if_neg (by omega)]
      simp only [hlast, hvec₁, Option.bind_eq_bind, Option.bind_some, Option.pure_def]
      have hmap (m : Node) :
          (update s₁ l fun info => { info with next := s₁.lastnum }).infoMap m =
            { s₁.infoMap m with
              next := ((update s₁ l fun info => { info with next := s₁.lastnum }).infoMap m).next } := by
        by_cases hml : m = l
        · subst hml
          simp
        · simp [hml]
      refine ⟨_, init ++ [last] ++ [s.lastnum + 1], rfl, ?_, hframe _ rfl hmap⟩
      refine h.placed_of_swapped hdone hs (Or.inr ⟨rfl, hf, hnone⟩) rfl rfl rfl
        hmap (fun m hm => ?_) (fun k hk l' hl' => ?_) ?_ ?_
      · have hml : m ≠ l := fun heq => hm (heq ▸ hl)
        simpa [hml] using hnext₁ m
      · rw [firstAbove_append]
        rcases List.mem_append.mp hk with hk | hk
        · have hkle := h.heads_le k hk
          obtain ⟨_, hnext', hnum'⟩ := hleader hk hl'
          by_cases hkl : k = last
          · subst hkl
            cases Option.some.inj (hvec₁.symm.trans hl')
            have hzero : firstAbove (init ++ [k]) k = 0 := by
              apply firstAbove_eq_zero
              intro j hj
              rcases List.mem_append.mp hj with hj | hj
              · exact (hmax j hj).le
              · rw [List.mem_singleton.mp hj]
            rw [if_pos ⟨hzero, by omega⟩]
            simp [hs.lastnum]
          · have hml : l' ≠ l := by
              rintro rfl
              omega
            have hklt := hmax k ((List.mem_append.mp hk).resolve_right fun h =>
              hkl (List.mem_singleton.mp h))
            have hne : firstAbove (init ++ [last]) k ≠ 0 := fun hzero =>
              absurd (le_of_firstAbove_eq_zero (fun j hj => (h.heads_le j hj).1) hzero last
                (by simp)) (by omega)
            rw [if_neg fun hand => hne hand.1]
            simpa [hml, hnext₁] using hnext'
        · cases List.mem_singleton.mp hk
          rw [Nat.add_sub_cancel, hs.vec_self] at hl'
          cases Option.some.inj hl'
          have hnl : n ≠ l := fun heq => hdone (heq ▸ hl)
          have hzero : firstAbove (init ++ [last]) (s.lastnum + 1) = 0 :=
            firstAbove_eq_zero fun j hj => by
              have := (h.heads_le j hj).2
              omega
          rw [if_neg (by omega), hzero]
          simpa [hnl, hnext₁] using (h.waiting n hn hdone).2.2
      · have hne : firstAbove (init ++ [last]) 0 ≠ 0 := fun hzero =>
          absurd (le_of_firstAbove_eq_zero (fun j hj => (h.heads_le j hj).1) hzero last
            (by simp)) (by omega)
        rw [firstAbove_append, if_neg fun hand => hne hand.1]
        exact hs.fused.trans h.fused_eq
      · simp [hs.lastnum]
  · rw [if_neg hf]
    refine ⟨s₁, heads, rfl, ?_, hframe s₁ rfl fun _ => rfl⟩
    refine h.placed_of_swapped hdone hs (Or.inl ⟨rfl, hf⟩) rfl rfl rfl (fun _ => rfl)
      (fun m _ => hnext₁ m) (fun k hk l hl => ?_) (hs.fused.trans h.fused_eq)
      (hs.lastfused.trans h.lastfused_eq)
    rw [hnext₁]
    exact (hleader hk hl).2.1

end Placed

end LoomX.Graph.TypedFusion
