import LoomX.PhaseCoupling

namespace LoomX

open LoomX.Tree (IsAncestor)

/-- What a loop of a batch is marked with: the first and the last loop of the batch. -/
structure BatchMark where
  batchLeader : Nat
  batchEnd : Nat
  deriving DecidableEq, Repr

namespace BatchMark

def covers (b : BatchMark) (k : Nat) : Bool := b.batchLeader ≤ k && k ≤ b.batchEnd

end BatchMark

namespace LoopSummary

variable {loops : List LoopSummary}

def isLarge (s : LoopSummary) : Bool :=
  0 ≤ s.facts.iterationCount && 50000 ≤ s.facts.iterationCount

/-- The loop reads an array of the write set or writes one of the two sets. -/
def overlaps (s : LoopSummary) (readSet writeSet : List String) : Bool :=
  (s.facts.reads.any fun r => r ∈ writeSet) ||
    s.facts.writes.any fun w => w ∈ readSet || w ∈ writeSet

/-- The loop stands inside one of the loops before position `j`. -/
def isInner (loops : List LoopSummary) (j : Nat) (s : LoopSummary) : Bool :=
  (loops.take j).any fun outer => IsAncestor outer.loop s.loop

/-- The search for the last loop of a batch, from position `j` on. -/
def lookAhead (loops : List LoopSummary) (j : Nat) (readSet writeSet : List String)
    (batchEnd : Nat) : List LoopSummary → Nat
  | [] => batchEnd
  | s :: later =>
    if !s.isGpu then
      if s.overlaps readSet writeSet then batchEnd
      else lookAhead loops (j + 1) readSet writeSet batchEnd later
    else if s.isLarge then batchEnd
    else if s.facts.hasReductions then lookAhead loops (j + 1) readSet writeSet batchEnd later
    else if isInner loops j s then lookAhead loops (j + 1) readSet writeSet batchEnd later
    else if !s.overlaps readSet writeSet then batchEnd
    else
      lookAhead loops (j + 1) (readSet ++ s.facts.reads) (writeSet ++ s.facts.writes) j later

/-- The batches that start at position `i` or later. The loops before `next` are processed. -/
def batchesFrom (loops : List LoopSummary) (i next : Nat) : List LoopSummary → List BatchMark
  | [] => []
  | s :: later =>
    if i < next then batchesFrom loops (i + 1) next later
    else if !s.isGpu then batchesFrom loops (i + 1) next later
    else if s.isLarge then batchesFrom loops (i + 1) next later
    else
      let batchEnd := lookAhead loops (i + 1) s.facts.reads s.facts.writes i later
      if i < batchEnd then
        ⟨i, batchEnd⟩ :: batchesFrom loops (i + 1) (batchEnd + 1) later
      else batchesFrom loops (i + 1) next later

/-- Every loop from the leader to the end of a batch is marked. -/
def markBatch (marks : List (Option BatchMark)) (b : BatchMark) : List (Option BatchMark) :=
  marks.mapIdx fun k mark => if b.covers k then some b else mark

/-- The marks of the loops. -/
def horizontalSubBatch (loops : List LoopSummary) : List (Option BatchMark) :=
  let unmarked := loops.map fun _ => none
  if loops.length < 2 then unmarked else (batchesFrom loops 0 0 loops).foldl markBatch unmarked

/-- The loop is marked as one of the batch. -/
def Marked (loops : List LoopSummary) (b : BatchMark) (k : Nat) : Prop :=
  (horizontalSubBatch loops)[k]? = some (some b)

/-- One of the two loops writes an array that the other one reads or writes. -/
def Conflicts (loops : List LoopSummary) (m k : Nat) : Prop :=
  ∃ s l, loops[m]? = some s ∧ loops[k]? = some l ∧
    l.overlaps s.facts.reads s.facts.writes = true

/-- Batches are disjoint intervals of loops on the GPU, and a loop on the CPU in between conflicts
with none of them. -/
structure LegalBatches (loops : List LoopSummary) : Prop where
  onGpu : ∀ b k, Marked loops b k → OnGpu loops k
  interval : ∀ b k, Marked loops b k →
    b.batchLeader ≤ k ∧ k ≤ b.batchEnd ∧ ∀ m, b.batchLeader ≤ m → m ≤ b.batchEnd → Marked loops b m
  free : ∀ b k m, b.batchLeader ≤ k → k ≤ b.batchEnd → ¬OnGpu loops k → Marked loops b m →
    OnGpu loops m → ¬Conflicts loops m k

/-- A loop that a batch can take in: a small one on the GPU, without reductions and not in another
loop. -/
def Eligible (loops : List LoopSummary) (j : Nat) : Prop :=
  ∃ s, loops[j]? = some s ∧ s.isGpu = true ∧ s.isLarge = false ∧ s.facts.hasReductions = false ∧
    isInner loops j s = false

/-- Loop `j` conflicts with loop `i` or with a loop in between that a batch can take in. -/
def Meets (loops : List LoopSummary) (i j : Nat) : Prop :=
  ∃ m, (m = i ∨ i < m ∧ m < j ∧ Eligible loops m) ∧ Conflicts loops m j

/-- The search that starts at loop `i` goes on after loop `k`. -/
def Passes (loops : List LoopSummary) (i k : Nat) : Prop :=
  ∃ s, loops[k]? = some s ∧
    if s.isGpu then s.isLarge = false ∧ (Eligible loops k → Meets loops i k)
    else ¬Meets loops i k

/-- Loop `j` is added to the batch of loop `i`. -/
def Joins (loops : List LoopSummary) (i j : Nat) : Prop :=
  i < j ∧ Eligible loops j ∧ Meets loops i j ∧ ∀ k, i < k → k < j → Passes loops i k

/-- A small loop on the GPU that no batch opened earlier reaches. -/
def Opens (loops : List LoopSummary) (i : Nat) : Prop :=
  (∃ s, loops[i]? = some s ∧ s.isGpu = true ∧ s.isLarge = false) ∧
    ∀ i' < i, Opens loops i' → ∀ j, Joins loops i' j → j < i

def IsBatch (loops : List LoopSummary) (b : BatchMark) : Prop :=
  Opens loops b.batchLeader ∧ Joins loops b.batchLeader b.batchEnd ∧
    ∀ k, Joins loops b.batchLeader k → k ≤ b.batchEnd

theorem overlaps_append (s : LoopSummary) (R R' W W' : List String) :
    s.overlaps (R ++ R') (W ++ W') = (s.overlaps R W || s.overlaps R' W') := by
  rw [Bool.eq_iff_iff]
  simp only [overlaps, Bool.or_eq_true, List.any_eq_true, List.mem_append, decide_eq_true_eq]
  constructor
  · rintro (⟨r, hr, hw | hw⟩ | ⟨w, hw, (h | h) | h | h⟩)
    · exact Or.inl (Or.inl ⟨r, hr, hw⟩)
    · exact Or.inr (Or.inl ⟨r, hr, hw⟩)
    · exact Or.inl (Or.inr ⟨w, hw, Or.inl h⟩)
    · exact Or.inr (Or.inr ⟨w, hw, Or.inl h⟩)
    · exact Or.inl (Or.inr ⟨w, hw, Or.inr h⟩)
    · exact Or.inr (Or.inr ⟨w, hw, Or.inr h⟩)
  · rintro ((⟨r, hr, hw⟩ | ⟨w, hw, h | h⟩) | ⟨r, hr, hw⟩ | ⟨w, hw, h | h⟩)
    · exact Or.inl ⟨r, hr, Or.inl hw⟩
    · exact Or.inr ⟨w, hw, Or.inl (Or.inl h)⟩
    · exact Or.inr ⟨w, hw, Or.inr (Or.inl h)⟩
    · exact Or.inl ⟨r, hr, Or.inr hw⟩
    · exact Or.inr ⟨w, hw, Or.inl (Or.inr h)⟩
    · exact Or.inr ⟨w, hw, Or.inr (Or.inr h)⟩

/-- The sets hold the arrays of the loop `i` and of the loops up to `j` that joined it. -/
def Gathered (loops : List LoopSummary) (i j : Nat) (readSet writeSet : List String) : Prop :=
  ∀ l : LoopSummary, l.overlaps readSet writeSet = true ↔
    ∃ m s, (m = i ∨ i < m ∧ m < j ∧ Eligible loops m) ∧ loops[m]? = some s ∧
      l.overlaps s.facts.reads s.facts.writes = true

theorem gathered_start {i : Nat} {s : LoopSummary} (h : loops[i]? = some s) :
    Gathered loops i (i + 1) s.facts.reads s.facts.writes := by
  refine fun l => ⟨fun hl => ⟨i, s, Or.inl rfl, h, hl⟩, ?_⟩
  rintro ⟨m, s', rfl | ⟨him, hmi, -⟩, hs', hl⟩
  · cases Option.some.inj (h.symm.trans hs')
    exact hl
  · omega

theorem Gathered.skip {i j : Nat} {R W : List String} (h : Gathered loops i j R W)
    (hj : ¬Eligible loops j) : Gathered loops i (j + 1) R W := by
  refine fun l => (h l).trans ⟨?_, ?_⟩
  · rintro ⟨m, s, hm, hs, hl⟩
    exact ⟨m, s, hm.imp_right fun ⟨him, hmj, he⟩ => ⟨him, by omega, he⟩, hs, hl⟩
  · rintro ⟨m, s, rfl | ⟨him, hmj, he⟩, hs, hl⟩
    · exact ⟨m, s, Or.inl rfl, hs, hl⟩
    · have hne : m ≠ j := by
        rintro rfl
        exact hj he
      exact ⟨m, s, Or.inr ⟨him, by omega, he⟩, hs, hl⟩

theorem Gathered.join {i j : Nat} {R W : List String} {s : LoopSummary}
    (h : Gathered loops i j R W) (hij : i < j) (hs : loops[j]? = some s) (hj : Eligible loops j) :
    Gathered loops i (j + 1) (R ++ s.facts.reads) (W ++ s.facts.writes) := by
  intro l
  rw [overlaps_append, Bool.or_eq_true, h l]
  constructor
  · rintro (⟨m, s', hm, hs', hl⟩ | hl)
    · exact ⟨m, s', hm.imp_right fun ⟨him, hmj, he⟩ => ⟨him, by omega, he⟩, hs', hl⟩
    · exact ⟨j, s, Or.inr ⟨hij, by omega, hj⟩, hs, hl⟩
  · rintro ⟨m, s', hm, hs', hl⟩
    by_cases hmj : m = j
    · subst hmj
      cases Option.some.inj (hs.symm.trans hs')
      exact Or.inr hl
    · exact Or.inl ⟨m, s', hm.imp_right fun ⟨him, hlt, he⟩ => ⟨him, by omega, he⟩, hs', hl⟩

theorem Gathered.meets_iff {i j : Nat} {R W : List String} {l : LoopSummary}
    (h : Gathered loops i j R W) (hl : loops[j]? = some l) :
    Meets loops i j ↔ l.overlaps R W = true := by
  rw [h l]
  constructor
  · rintro ⟨m, hm, s, l', hs, hl', hover⟩
    cases Option.some.inj (hl.symm.trans hl')
    exact ⟨m, s, hm, hs, hover⟩
  · rintro ⟨m, s, hm, hs, hover⟩
    exact ⟨m, hm, s, l, hs, hl, hover⟩

/-- The end of the batch that loop `i` opens, or `i` where no loop joins. -/
def IsLast (loops : List LoopSummary) (i e : Nat) : Prop :=
  (e = i ∨ Joins loops i e) ∧ ∀ k, Joins loops i k → k ≤ e

/-- The search is at position `j`: every loop before it was passed, and `e` joined last. -/
structure Searched (loops : List LoopSummary) (i j e : Nat) (readSet writeSet : List String) :
    Prop where
  ahead : i < j
  gathered : Gathered loops i j readSet writeSet
  passes : ∀ k, i < k → k < j → Passes loops i k
  joined : e = i ∨ Joins loops i e
  last : ∀ k, Joins loops i k → k < j → k ≤ e

theorem Searched.isLast_of_stop {i j e : Nat} {R W : List String}
    (h : Searched loops i j e R W) (hstop : ¬Passes loops i j) (hjoin : ¬Joins loops i j) :
    IsLast loops i e := by
  refine ⟨h.joined, fun k hk => ?_⟩
  rcases Nat.lt_trichotomy k j with hkj | rfl | hjk
  · exact h.last k hk hkj
  · exact absurd hk hjoin
  · exact absurd (hk.2.2.2 j h.ahead hjk) hstop

theorem Searched.skip {i j e : Nat} {R W : List String} (h : Searched loops i j e R W)
    (hpass : Passes loops i j) (hj : ¬Eligible loops j) : Searched loops i (j + 1) e R W := by
  refine ⟨by have := h.ahead; omega, h.gathered.skip hj, fun k hik hkj => ?_, h.joined,
    fun k hk hkj => ?_⟩
  · by_cases hkj' : k = j
    · exact hkj' ▸ hpass
    · exact h.passes k hik (by omega)
  · have hne : k ≠ j := by
      rintro rfl
      exact hj hk.2.1
    exact h.last k hk (by omega)

theorem Searched.join {i j e : Nat} {R W : List String} {s : LoopSummary}
    (h : Searched loops i j e R W) (hs : loops[j]? = some s) (hj : Eligible loops j)
    (hmeets : Meets loops i j) (hpass : Passes loops i j) :
    Searched loops i (j + 1) j (R ++ s.facts.reads) (W ++ s.facts.writes) := by
  refine ⟨by have := h.ahead; omega, h.gathered.join h.ahead hs hj, fun k hik hkj => ?_,
    Or.inr ⟨h.ahead, hj, hmeets, h.passes⟩, fun k _ hkj => by omega⟩
  by_cases hkj' : k = j
  · exact hkj' ▸ hpass
  · exact h.passes k hik (by omega)

theorem getElem?_of_drop {j : Nat} {s : LoopSummary} {later : List LoopSummary}
    (h : loops.drop j = s :: later) : loops[j]? = some s := by
  have hfirst := congrArg (·[0]?) h
  simpa [List.getElem?_drop] using hfirst

theorem lookAhead_isLast {i j e : Nat} {R W : List String} (h : Searched loops i j e R W) :
    IsLast loops i (lookAhead loops j R W e (loops.drop j)) := by
  generalize hlater : loops.drop j = later
  induction later generalizing j e R W with
  | nil =>
    refine ⟨h.joined, fun k hk => h.last k hk ?_⟩
    obtain ⟨-, ⟨s, hs, -⟩, -⟩ := hk
    have hk := (List.getElem?_eq_some_iff.mp hs).1
    have hj := List.drop_eq_nil_iff.mp hlater
    omega
  | cons s later ih =>
    have hs : loops[j]? = some s := getElem?_of_drop hlater
    have hnext : loops.drop (j + 1) = later := by
      rw [← List.drop_drop, hlater]
      rfl
    have hmeets := h.gathered.meets_iff hs
    have heligible : Eligible loops j ↔ s.isGpu = true ∧ s.isLarge = false ∧
        s.facts.hasReductions = false ∧ isInner loops j s = false := by
      simp [Eligible, hs]
    have hpass : Passes loops i j ↔ if s.isGpu then s.isLarge = false ∧
        (Eligible loops j → Meets loops i j) else ¬Meets loops i j := by
      simp [Passes, hs]
    rw [heligible, hmeets] at hpass
    rw [lookAhead]
    by_cases hgpu : s.isGpu = true
    · by_cases hlarge : s.isLarge = true
      · rw [if_neg (by simp [hgpu]), if_pos hlarge]
        refine h.isLast_of_stop (by simp [hpass, hgpu, hlarge]) fun hj => ?_
        simpa [hlarge] using (heligible.mp hj.2.1).2.1
      by_cases hskip : s.facts.hasReductions = true ∨ isInner loops j s = true
      · have hj : ¬Eligible loops j := by
          rw [heligible]
          rcases hskip with hred | hinner
          · simp [hred]
          · simp [hinner]
        have hgo := ih (h.skip (hpass.mpr ?_) hj) hnext
        · rw [if_neg (by simp [hgpu]), if_neg hlarge]
          rcases hskip with hred | hinner
          · rwa [if_pos hred]
          · rw [if_pos hinner, ite_self]
            exact hgo
        · rw [if_pos hgpu, ← heligible]
          exact ⟨by simpa using hlarge, fun hj' => absurd hj' hj⟩
      rw [not_or] at hskip
      have hj : Eligible loops j :=
        heligible.mpr ⟨hgpu, by simpa using hlarge, by simpa using hskip.1, by simpa using hskip.2⟩
      rw [if_neg (by simp [hgpu]), if_neg hlarge, if_neg hskip.1, if_neg hskip.2]
      by_cases hover : s.overlaps R W = true
      · rw [if_neg (by simp [hover])]
        refine ih (h.join hs hj (hmeets.mpr hover) (hpass.mpr ?_)) hnext
        rw [if_pos hgpu]
        exact ⟨by simpa using hlarge, fun _ => hover⟩
      · rw [if_pos (by simpa using hover)]
        refine h.isLast_of_stop (fun hp => ?_) fun hjoin => hover (hmeets.mp hjoin.2.2.1)
        rw [hpass, if_pos hgpu] at hp
        exact hover (hp.2 (heligible.mp hj))
    · have hj : ¬Eligible loops j := fun hj => hgpu (heligible.mp hj).1
      rw [if_pos (by simpa using hgpu)]
      by_cases hover : s.overlaps R W = true
      · rw [if_pos hover]
        refine h.isLast_of_stop (by simp [hpass, hgpu, hover]) fun hjoin => hj hjoin.2.1
      · rw [if_neg hover]
        exact ih (h.skip (hpass.mpr (by rwa [if_neg hgpu])) hj) hnext

theorem opens_iff (i : Nat) :
    Opens loops i ↔ (∃ s, loops[i]? = some s ∧ s.isGpu = true ∧ s.isLarge = false) ∧
      ∀ i' < i, Opens loops i' → ∀ j, Joins loops i' j → j < i := by
  rw [Opens]

theorem Opens.onGpu {i : Nat} (h : Opens loops i) : OnGpu loops i := by
  rw [opens_iff] at h
  obtain ⟨⟨s, hs, hgpu, -⟩, -⟩ := h
  exact ⟨s, hs, hgpu⟩

theorem Eligible.onGpu {j : Nat} (h : Eligible loops j) : OnGpu loops j := by
  obtain ⟨s, hs, hgpu, -⟩ := h
  exact ⟨s, hs, hgpu⟩

theorem isLast_leader {i : Nat} {s : LoopSummary} (hs : loops[i]? = some s) :
    IsLast loops i (lookAhead loops (i + 1) s.facts.reads s.facts.writes i (loops.drop (i + 1))) :=
  lookAhead_isLast ⟨by omega, gathered_start hs, fun k _ _ => by omega, Or.inl rfl,
    fun k hk hki => absurd hk.1 (by omega)⟩

theorem exists_isBatch {i j : Nat} (hi : Opens loops i) (hj : Joins loops i j) :
    ∃ e, j ≤ e ∧ IsBatch loops ⟨i, e⟩ := by
  obtain ⟨s, hs, -⟩ := hi.onGpu
  obtain ⟨he, hlast⟩ := isLast_leader hs
  have hje := hlast j hj
  refine ⟨_, hje, hi, he.resolve_left fun heq => ?_, hlast⟩
  have := hj.1
  omega

/-- The loops from `i` on that lie in a batch opened before are those below `next`. -/
def Processed (loops : List LoopSummary) (i next : Nat) : Prop :=
  ∀ x, i ≤ x → (x < next ↔ ∃ i' < i, Opens loops i' ∧ ∃ j, Joins loops i' j ∧ x ≤ j)

theorem Processed.step {i next : Nat} (h : Processed loops i next)
    (hi : ∀ j, Opens loops i → ¬Joins loops i j) : Processed loops (i + 1) next := by
  refine fun x hx => (h x (by omega)).trans ⟨?_, ?_⟩
  · rintro ⟨i', hi', hopens, hj⟩
    exact ⟨i', by omega, hopens, hj⟩
  · rintro ⟨i', hi', hopens, j, hj, hxj⟩
    have hne : i' ≠ i := by
      rintro rfl
      exact hi j hopens hj
    exact ⟨i', by omega, hopens, j, hj, hxj⟩

theorem Processed.not_opens {i next : Nat} (h : Processed loops i next) (hi : i < next) :
    ¬Opens loops i := by
  intro hopens
  obtain ⟨i', hi', hopens', j, hj, hij⟩ := (h i le_rfl).mp hi
  have := ((opens_iff i).mp hopens).2 i' hi' hopens' j hj
  omega

theorem Processed.opens_iff {i next : Nat} (h : Processed loops i next) (hi : ¬i < next) :
    Opens loops i ↔ ∃ s, loops[i]? = some s ∧ s.isGpu = true ∧ s.isLarge = false := by
  rw [LoopSummary.opens_iff, and_iff_left]
  intro i' hi' hopens' j hj
  by_contra hji
  exact hi ((h i le_rfl).mpr ⟨i', hi', hopens', j, hj, by omega⟩)

theorem Processed.batch {i next e : Nat} (h : Processed loops i next) (hi : ¬i < next)
    (hbatch : IsBatch loops ⟨i, e⟩) : Processed loops (i + 1) (e + 1) := by
  intro x hx
  constructor
  · intro hxe
    exact ⟨i, by omega, hbatch.1, e, hbatch.2.1, by omega⟩
  · rintro ⟨i', hi', hopens, j, hj, hxj⟩
    by_cases heq : i' = i
    · subst heq
      have := hbatch.2.2 j hj
      simp only at this
      omega
    · exact absurd ((h i le_rfl).mpr ⟨i', by omega, hopens, j, hj, by omega⟩) hi

/-- The batches found from position `i` on. -/
theorem mem_batchesFrom {i next : Nat} (h : Processed loops i next) (b : BatchMark) :
    b ∈ batchesFrom loops i next (loops.drop i) ↔ i ≤ b.batchLeader ∧ IsBatch loops b := by
  generalize hlater : loops.drop i = later
  induction later generalizing i next with
  | nil =>
    rw [batchesFrom]
    refine iff_of_false List.not_mem_nil ?_
    rintro ⟨hi, hopens, -⟩
    obtain ⟨s, hs, -⟩ := hopens.onGpu
    have hk := (List.getElem?_eq_some_iff.mp hs).1
    have hj := List.drop_eq_nil_iff.mp hlater
    omega
  | cons s later ih =>
    have hs : loops[i]? = some s := getElem?_of_drop hlater
    have hnext : loops.drop (i + 1) = later := by
      rw [← List.drop_drop, hlater]
      rfl
    -- A loop that opens no batch is the leader of none.
    have hskip : (∀ j, Opens loops i → ¬Joins loops i j) →
        (b ∈ batchesFrom loops (i + 1) next later ↔ i ≤ b.batchLeader ∧ IsBatch loops b) := by
      intro hnone
      rw [ih (h.step hnone) hnext]
      refine ⟨fun ⟨hlt, hb⟩ => ⟨by omega, hb⟩, fun ⟨hle, hb⟩ => ⟨?_, hb⟩⟩
      have hne : b.batchLeader ≠ i := fun heq => hnone b.batchEnd (heq ▸ hb.1) (heq ▸ hb.2.1)
      omega
    rw [batchesFrom]
    by_cases hprocessed : i < next
    · rw [if_pos hprocessed]
      exact hskip fun _ hopens => absurd hopens (h.not_opens hprocessed)
    have hopens : Opens loops i ↔ s.isGpu = true ∧ s.isLarge = false := by
      simp [h.opens_iff hprocessed, hs]
    rw [if_neg hprocessed]
    by_cases hgpu : s.isGpu = true
    · by_cases hlarge : s.isLarge = true
      · rw [if_neg (by simp [hgpu]), if_pos hlarge]
        exact hskip fun _ hopens' => by simp [hopens, hlarge] at hopens'
      rw [if_neg (by simp [hgpu]), if_neg hlarge]
      have hopen : Opens loops i := hopens.mpr ⟨hgpu, by simpa using hlarge⟩
      have hlast := isLast_leader hs
      rw [hnext] at hlast
      generalize lookAhead loops (i + 1) s.facts.reads s.facts.writes i later = e at hlast ⊢
      by_cases he : i < e
      · have hbatch : IsBatch loops ⟨i, e⟩ :=
          ⟨hopen, hlast.1.resolve_left (by omega), hlast.2⟩
        simp only [if_pos he, List.mem_cons, ih (h.batch hprocessed hbatch) hnext]
        constructor
        · rintro (rfl | ⟨hlt, hb⟩)
          · exact ⟨le_rfl, hbatch⟩
          · exact ⟨by omega, hb⟩
        · rintro ⟨hle, hb⟩
          by_cases heq : b.batchLeader = i
          · left
            obtain ⟨leader, e'⟩ := b
            subst heq
            congr 1
            exact le_antisymm (hlast.2 e' hb.2.1) (hb.2.2 e hbatch.2.1)
          · exact Or.inr ⟨by omega, hb⟩
      · simp only [if_neg he]
        refine hskip fun j _ hj => ?_
        have := hlast.2 j hj
        have := hj.1
        omega
    · rw [if_pos (by simpa using hgpu)]
      exact hskip fun _ hopens' => absurd (hopens.mp hopens').1 hgpu

theorem IsBatch.leader_lt {b : BatchMark} (h : IsBatch loops b) : b.batchLeader < b.batchEnd :=
  h.2.1.1

/-- Two batches with a loop in common are one. -/
theorem IsBatch.eq_of_covers {b b' : BatchMark} {k : Nat} (h : IsBatch loops b)
    (h' : IsBatch loops b') (hk : b.covers k = true) (hk' : b'.covers k = true) : b = b' := by
  simp only [BatchMark.covers, Bool.and_eq_true, decide_eq_true_eq] at hk hk'
  have hle : ∀ {b b' : BatchMark}, IsBatch loops b → IsBatch loops b' → b'.batchLeader ≤ k →
      k ≤ b.batchEnd → b'.batchLeader ≤ b.batchLeader := by
    intro b b' h h' hk' hk
    by_contra hlt
    have := ((opens_iff _).mp h'.1).2 b.batchLeader (by omega) h.1 b.batchEnd h.2.1
    omega
  have hleader : b.batchLeader = b'.batchLeader :=
    le_antisymm (hle h' h hk.1 hk'.2) (hle h h' hk'.1 hk.2)
  obtain ⟨leader, e⟩ := b
  obtain ⟨leader', e'⟩ := b'
  simp only at hleader
  subst hleader
  congr 1
  exact le_antisymm (h'.2.2 e h.2.1) (h.2.2 e' h'.2.1)

theorem length_foldl_markBatch (bs : List BatchMark) (marks : List (Option BatchMark)) :
    (bs.foldl markBatch marks).length = marks.length := by
  induction bs generalizing marks with
  | nil => rfl
  | cons b bs ih => exact (ih _).trans (by simp [markBatch])

/-- The last batch that covers a loop decides its mark. -/
theorem getElem?_foldl_markBatch (bs : List BatchMark) {marks : List (Option BatchMark)} {k : Nat}
    {mark : Option BatchMark} (h : marks[k]? = some mark) :
    (bs.foldl markBatch marks)[k]? =
      some (bs.foldl (fun m b => if b.covers k then some b else m) mark) := by
  induction bs generalizing marks mark with
  | nil => exact h
  | cons b bs ih => exact ih (by simp [markBatch, h])

theorem foldl_covers_eq_some {bs : List BatchMark} {k : Nat}
    (hbs : ∀ b ∈ bs, ∀ b' ∈ bs, b.covers k = true → b'.covers k = true → b = b')
    (mark : Option BatchMark) (b : BatchMark) :
    bs.foldl (fun m b => if b.covers k then some b else m) mark = some b ↔
      (b ∈ bs ∧ b.covers k = true) ∨ (mark = some b ∧ ∀ b' ∈ bs, b'.covers k = false) := by
  induction bs generalizing mark with
  | nil => simp
  | cons b' bs ih =>
    rw [List.foldl_cons, ih fun c hc c' hc' =>
      hbs c (List.mem_cons_of_mem _ hc) c' (List.mem_cons_of_mem _ hc')]
    by_cases hb' : b'.covers k = true
    · rw [if_pos hb']
      constructor
      · rintro (⟨hb, hcov⟩ | ⟨heq, -⟩)
        · exact Or.inl ⟨List.mem_cons_of_mem _ hb, hcov⟩
        · cases heq
          exact Or.inl ⟨List.mem_cons_self, hb'⟩
      · rintro (⟨hb, hcov⟩ | ⟨-, hnone⟩)
        · have heq := hbs b hb b' List.mem_cons_self hcov hb'
          by_cases hmem : b ∈ bs
          · exact Or.inl ⟨hmem, hcov⟩
          · refine Or.inr ⟨congrArg some heq.symm, fun c hc => Bool.eq_false_iff.mpr fun hc' => ?_⟩
            exact hmem (hbs b hb c (List.mem_cons_of_mem _ hc) hcov hc' ▸ hc)
        · simp [hnone b' List.mem_cons_self] at hb'
    · rw [if_neg hb']
      simp only [List.mem_cons, forall_eq_or_imp, Bool.eq_false_iff.mpr hb', true_and]
      refine or_congr_left ⟨fun ⟨hb, hcov⟩ => ⟨Or.inr hb, hcov⟩, fun ⟨hb, hcov⟩ => ⟨?_, hcov⟩⟩
      rcases hb with rfl | hb
      · exact absurd hcov hb'
      · exact hb

theorem isBatch_end_lt {b : BatchMark} (h : IsBatch loops b) : b.batchEnd < loops.length := by
  obtain ⟨s, hs, -⟩ := h.2.1.2.1
  exact (List.getElem?_eq_some_iff.mp hs).1

/-- The loops that are marked are those from the leader of a batch to its end. -/
theorem marked_iff (b : BatchMark) (k : Nat) :
    Marked loops b k ↔ IsBatch loops b ∧ b.batchLeader ≤ k ∧ k ≤ b.batchEnd := by
  have hmem : ∀ b, b ∈ batchesFrom loops 0 0 loops ↔ IsBatch loops b := by
    intro b
    have hprocessed : Processed loops 0 0 := fun x _ => by simp
    have h := mem_batchesFrom hprocessed b
    simpa using h
  have hcovers : b.covers k = true ↔ b.batchLeader ≤ k ∧ k ≤ b.batchEnd := by
    simp [BatchMark.covers]
  rw [Marked, horizontalSubBatch]
  by_cases hlen : loops.length < 2
  · rw [if_pos hlen]
    refine iff_of_false (by simp [List.getElem?_replicate]) ?_
    rintro ⟨hb, -⟩
    have := isBatch_end_lt hb
    have := hb.leader_lt
    omega
  rw [if_neg hlen]
  by_cases hk : k < loops.length
  · have hdisjoint : ∀ b ∈ batchesFrom loops 0 0 loops, ∀ b' ∈ batchesFrom loops 0 0 loops,
        b.covers k = true → b'.covers k = true → b = b' := by
      intro b hb b' hb'
      exact ((hmem b).mp hb).eq_of_covers ((hmem b').mp hb')
    have hunmarked : (loops.map fun _ => (none : Option BatchMark))[k]? = some none := by simp [hk]
    rw [getElem?_foldl_markBatch _ hunmarked, Option.some.injEq, foldl_covers_eq_some hdisjoint,
      hmem, hcovers]
    simp
  · refine iff_of_false ?_ ?_
    · rw [List.getElem?_eq_none (by simp [length_foldl_markBatch]; omega)]
      simp
    · rintro ⟨hb, -, hke⟩
      have := isBatch_end_lt hb
      omega

/-- The batches are legal exactly when no batch reaches over a loop on the CPU. -/
theorem legalBatches_iff (loops : List LoopSummary) :
    LegalBatches loops ↔
      ∀ i j k, Opens loops i → Joins loops i j → i < k → k < j → OnGpu loops k := by
  constructor
  · intro h i j k hi hj hik hkj
    obtain ⟨e, hje, hbatch⟩ := exists_isBatch hi hj
    exact h.onGpu ⟨i, e⟩ k ((marked_iff _ k).mpr ⟨hbatch, by simp only; omega, by simp only; omega⟩)
  · intro h
    have hgpu : ∀ b k, IsBatch loops b → b.batchLeader ≤ k → k ≤ b.batchEnd → OnGpu loops k := by
      intro b k hb hlo hhi
      by_cases hleader : k = b.batchLeader
      · exact hleader ▸ hb.1.onGpu
      by_cases hend : k = b.batchEnd
      · exact hend ▸ hb.2.1.2.1.onGpu
      exact h b.batchLeader b.batchEnd k hb.1 hb.2.1 (by omega) (by omega)
    refine ⟨fun b k hk => ?_, fun b k hk => ?_, fun b k m hlo hhi hcpu hm => ?_⟩
    · obtain ⟨hb, hlo, hhi⟩ := (marked_iff b k).mp hk
      exact hgpu b k hb hlo hhi
    · obtain ⟨hb, hlo, hhi⟩ := (marked_iff b k).mp hk
      exact ⟨hlo, hhi, fun m hlo hhi => (marked_iff b m).mpr ⟨hb, hlo, hhi⟩⟩
    · exact absurd (hgpu b k ((marked_iff b m).mp hm).1 hlo hhi) hcpu

/-- A small loop on the GPU, a loop on the CPU between them and another one on the GPU. -/
def interruptedBatch : List LoopSummary :=
  [{ arrayLoop false ["A"] ["B"] with loop := [0], target := .gpuOffload },
    { arrayLoop false ["D"] ["D"] with loop := [1] },
    { arrayLoop false ["B"] ["D"] with loop := [2], target := .gpuOffload }]

/-- The loop on the CPU is marked as one of the batch, and it conflicts with the last loop. -/
theorem interruptedBatch_illegal : ¬LegalBatches interruptedBatch := by
  intro h
  exact absurd (h.onGpu ⟨0, 2⟩ 1 (by unfold Marked; decide)) (by decide)

end LoopSummary

end LoomX
