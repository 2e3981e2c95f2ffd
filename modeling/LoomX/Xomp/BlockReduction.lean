import LoomX.BarrierThreads
import Mathlib.Algebra.BigOperators.Fin
import Mathlib.Logic.Equiv.Fin.Basic

namespace LoomX.Xomp

open BarrierThreads

def xompReductionPlus : Nat := 6

def xompReductionMinus : Nat := 7

/-- The elements of the shared data of a block, and the results of all blocks. -/
inductive Cell where
  | sdata (i : Nat)
  | gridLevelResults (i : Nat)
  deriving DecidableEq

section
variable {M : Type} [Add M]

/-- `sdata[i] += sdata[j]` where the operation is a sum. -/
def accumulate (reductionOp i j : Nat) (next : Code Cell M) : Code Cell M :=
  if reductionOp = xompReductionPlus ∨ reductionOp = xompReductionMinus then
    .load (.sdata i) fun x => .load (.sdata j) fun y => .store (.sdata i) (x + y) next
  else next

/-- A thread of the lower half adds the element of the upper half. -/
def addUpperHalf (reductionOp ii offset : Nat) (next : Code Cell M) : Code Cell M :=
  if ii < offset then accumulate reductionOp ii (ii + offset) next else next

/-- Thread (0,0) adds the left element of an odd range. -/
def addLeftElement (reductionOp ii offset : Nat) (isEvenSize : Bool) (next : Code Cell M) :
    Code Cell M :=
  if ii = 0 ∧ isEvenSize = false then accumulate reductionOp 0 (2 * offset) next else next

/-- The loop that folds the range in halves. -/
def foldHalves (reductionOp ii : Nat) (last : Code Cell M) (offset : Nat) (isEvenSize : Bool) :
    Code Cell M :=
  if _h : offset = 0 then last
  else
    addUpperHalf reductionOp ii offset <| addLeftElement reductionOp ii offset isEvenSize <|
      .sync (foldHalves reductionOp ii last (offset / 2) (offset % 2 == 0))
termination_by offset

/-- Thread (0,0) writes the sum of the block. -/
def writeResult (ii slot : Nat) : Code Cell M :=
  if ii = 0 then .load (.sdata 0) fun v => .store (.gridLevelResults slot) v .done else .done

/-- `xomp_inner_block_reduction` in a thread of a block with `dimX` times `dimY` threads. -/
def xompInnerBlockReduction {dimX dimY : Nat} (threadIdx : Fin dimX × Fin dimY)
    (blockIdx gridDim : Nat × Nat) (reductionOp : Nat) (localValue : M) : Code Cell M :=
  let ii := threadIdx.1 * dimY + threadIdx.2
  let nn := dimX * dimY
  .store (.sdata ii) localValue <| .sync <|
    foldHalves reductionOp ii (writeResult ii (blockIdx.1 * gridDim.2 + blockIdx.2)) (nn / 2)
      (nn % 2 == 0)

end

/-- The threads of a block as one range. -/
def linear {dimX dimY : Nat} (t : Fin dimX × Fin dimY) : Nat := t.1 * dimY + t.2

section
variable {dimX dimY : Nat}

theorem linear_eq (t : Fin dimX × Fin dimY) : linear t = finProdFinEquiv t := by
  rw [linear, finProdFinEquiv_apply_val, Nat.mul_comm, Nat.add_comm]

theorem linear_injective : Function.Injective (@linear dimX dimY) := by
  intro t u h
  rw [linear_eq, linear_eq] at h
  exact finProdFinEquiv.injective (Fin.ext h)

theorem exists_linear {i : Nat} (hi : i < dimX * dimY) : ∃ t : Fin dimX × Fin dimY, linear t = i :=
  ⟨finProdFinEquiv.symm ⟨i, hi⟩, by rw [linear_eq, Equiv.apply_symm_apply]⟩

theorem sum_linear {M : Type} [AddCommMonoid M] (f : Nat → M) :
    ∑ t : Fin dimX × Fin dimY, f (linear t) = ∑ i ∈ Finset.range (dimX * dimY), f i := by
  simp only [linear_eq]
  rw [finProdFinEquiv.sum_comp fun i : Fin (dimX * dimY) => f i, Fin.sum_univ_eq_sum_range]

end

section
variable {M : Type} [Add M] {reductionOp i j ii offset : Nat} {isEvenSize : Bool} {slot : Nat}
  {next last : Code Cell M} {a : Cell} {m : Cell → M}

theorem writes_accumulate (h : a ∈ (accumulate reductionOp i j next).Writes) :
    a = .sdata i ∨ a ∈ next.Writes := by
  unfold accumulate at h
  split at h
  · obtain ⟨_, _, h⟩ := h
    exact h
  · exact .inr h

theorem reads_accumulate (h : a ∈ (accumulate reductionOp i j next).Reads) :
    a = .sdata i ∨ a = .sdata j ∨ a ∈ next.Reads := by
  unfold accumulate at h
  split at h
  · obtain h | ⟨_, h | ⟨_, h⟩⟩ := h
    · exact .inl h
    · exact .inr (.inl h)
    · exact .inr (.inr h)
  · exact .inr (.inr h)

theorem solo_accumulate
    (hop : reductionOp = xompReductionPlus ∨ reductionOp = xompReductionMinus) :
    (accumulate reductionOp i j next).solo m =
      next.solo (Function.update m (.sdata i) (m (.sdata i) + m (.sdata j))) := by
  rw [accumulate, if_pos hop]
  rfl

/-- A thread in the lower half writes its own element. -/
theorem writes_foldHalves (hoffset : offset ≠ 0)
    (h : a ∈ (foldHalves reductionOp ii last offset isEvenSize).Writes) :
    a = .sdata ii ∧ ii < offset := by
  have hpos : 0 < offset := Nat.pos_of_ne_zero hoffset
  unfold foldHalves addUpperHalf at h
  rw [dif_neg hoffset] at h
  have hleft : ∀ next : Code Cell M, next.Writes = ∅ →
      a ∈ (addLeftElement reductionOp ii offset isEvenSize next).Writes →
      a = .sdata ii ∧ ii < offset := by
    intro next hnext h
    unfold addLeftElement at h
    split at h
    next hzero =>
      rw [hzero.1]
      exact ⟨(writes_accumulate h).resolve_right (by simp [hnext]), hpos⟩
    next => exact absurd h (by simp [hnext])
  split at h
  next hlt =>
    rcases writes_accumulate h with heq | h
    · exact ⟨heq, hlt⟩
    · exact hleft _ rfl h
  next => exact hleft _ rfl h

/-- A thread reads its own element and some of the upper half. -/
theorem reads_foldHalves (hoffset : offset ≠ 0)
    (h : a ∈ (foldHalves reductionOp ii last offset isEvenSize).Reads) :
    a = .sdata ii ∨ ∃ j, offset ≤ j ∧ a = .sdata j := by
  unfold foldHalves addUpperHalf at h
  rw [dif_neg hoffset] at h
  have hleft : ∀ next : Code Cell M, next.Reads = ∅ →
      a ∈ (addLeftElement reductionOp ii offset isEvenSize next).Reads →
      a = .sdata ii ∨ ∃ j, offset ≤ j ∧ a = .sdata j := by
    intro next hnext h
    unfold addLeftElement at h
    split at h
    next hzero =>
      rw [hzero.1]
      refine (reads_accumulate h).imp_right fun h => ⟨2 * offset, by omega, ?_⟩
      exact h.resolve_right (by simp [hnext])
    next => exact absurd h (by simp [hnext])
  split at h
  next =>
    rcases reads_accumulate h with heq | heq | h
    · exact .inl heq
    · exact .inr ⟨ii + offset, by omega, heq⟩
    · exact hleft _ rfl h
  next => exact hleft _ rfl h

omit [Add M] in
theorem writes_writeResult (h : a ∈ (writeResult (M := M) ii slot).Writes) :
    a = .gridLevelResults slot ∧ ii = 0 := by
  unfold writeResult at h
  split at h
  next hzero =>
    obtain ⟨_, h | h⟩ := h
    · exact ⟨h, hzero⟩
    · exact absurd h id
  next => exact absurd h id

omit [Add M] in
theorem reads_writeResult (h : a ∈ (writeResult (M := M) ii slot).Reads) : a = .sdata 0 := by
  unfold writeResult at h
  split at h
  next =>
    obtain h | ⟨_, h⟩ := h
    · exact h
    · exact absurd h id
  next => exact absurd h id

end

section
variable {M : Type} [AddCommMonoid M] {reductionOp i j ii offset : Nat} {isEvenSize : Bool}
  {slot : Nat} {next last : Code Cell M} {m : Cell → M}

theorem foldHalves_eq (hoffset : offset ≠ 0) :
    foldHalves reductionOp ii last offset isEvenSize =
      addUpperHalf reductionOp ii offset (addLeftElement reductionOp ii offset isEvenSize
        (.sync (foldHalves reductionOp ii last (offset / 2) (offset % 2 == 0)))) := by
  rw [foldHalves, dif_neg hoffset]

/-- A round of a thread leaves the sum of what it adds in its own element. -/
theorem solo_round (hop : reductionOp = xompReductionPlus ∨ reductionOp = xompReductionMinus)
    (hoffset : offset ≠ 0) {c : Code Cell M}
    (hc : c = addUpperHalf reductionOp ii offset
      (addLeftElement reductionOp ii offset isEvenSize (.sync next))) :
    (c.solo m).2 = .sync next ∧
      (ii < offset → .sdata ii ∈ c.Writes ∧
        (c.solo m).1 (.sdata ii) = m (.sdata ii) + m (.sdata (ii + offset)) +
          if ii = 0 ∧ isEvenSize = false then m (.sdata (2 * offset)) else 0) := by
  subst hc
  unfold addUpperHalf
  split
  next hlt =>
    have hwrites : ∀ next : Code Cell M,
        .sdata ii ∈ (accumulate reductionOp ii (ii + offset) next).Writes := by
      intro next
      rw [accumulate, if_pos hop]
      exact ⟨0, 0, .inl rfl⟩
    rw [solo_accumulate hop]
    unfold addLeftElement
    split
    next hleft =>
      obtain ⟨rfl, rfl⟩ := hleft
      rw [solo_accumulate hop]
      refine ⟨rfl, fun _ => ⟨hwrites _, ?_⟩⟩
      have hne : Cell.sdata (2 * offset) ≠ .sdata 0 := by simp [hoffset]
      simp [Code.solo, Function.update_of_ne hne]
    next =>
      refine ⟨rfl, fun _ => ⟨hwrites _, ?_⟩⟩
      simp [Code.solo]
  next hge =>
    refine ⟨?_, fun hlt => absurd hlt hge⟩
    unfold addLeftElement
    rw [if_neg fun hleft : ii = 0 ∧ isEvenSize = false => hge (by omega)]
    rfl

/-- The size of the range that a round folds. -/
def rangeSize (offset : Nat) (isEvenSize : Bool) : Nat := 2 * offset + if isEvenSize then 0 else 1

theorem rangeSize_half (n : Nat) : rangeSize (n / 2) (n % 2 == 0) = n := by
  unfold rangeSize
  split
  next h => rw [beq_iff_eq] at h; omega
  next h => rw [beq_iff_eq] at h; omega

/-- A round keeps the sum of the range. -/
theorem sum_folded (hoffset : offset ≠ 0) (f : Nat → M) :
    ∑ i ∈ Finset.range offset,
        (f i + f (i + offset) + if i = 0 ∧ isEvenSize = false then f (2 * offset) else 0) =
      ∑ i ∈ Finset.range (rangeSize offset isEvenSize), f i := by
  have hhalves : ∑ i ∈ Finset.range (2 * offset), f i =
      ∑ i ∈ Finset.range offset, f i + ∑ i ∈ Finset.range offset, f (i + offset) := by
    rw [two_mul, Finset.sum_range_add]
    simp only [Nat.add_comm offset]
  rw [Finset.sum_add_distrib, Finset.sum_add_distrib, ← hhalves]
  cases isEvenSize with
  | true => simp [rangeSize]
  | false => simp [rangeSize, Finset.sum_range_succ, Nat.pos_of_ne_zero hoffset]

/-- The start of a phase of the reduction: the local values are to be stored, or the range that a
round folds sums up to them. -/
def PhaseStart {dimX dimY : Nat} (reductionOp slot : Nat)
    (localValue : Fin dimX × Fin dimY → M) (before : Cell → M)
    (s : BlockState (Fin dimX × Fin dimY) Cell M) : Prop :=
  (∀ j, s.memory (.gridLevelResults j) = before (.gridLevelResults j)) ∧
    ((∀ t, s.code t = .store (.sdata (linear t)) (localValue t) (.sync
        (foldHalves reductionOp (linear t) (writeResult (linear t) slot) (dimX * dimY / 2)
          (dimX * dimY % 2 == 0)))) ∨
      ∃ offset isEvenSize, 0 < rangeSize offset isEvenSize ∧
        rangeSize offset isEvenSize ≤ dimX * dimY ∧
        ∑ i ∈ Finset.range (rangeSize offset isEvenSize), s.memory (.sdata i) =
          ∑ t, localValue t ∧
        ∀ t, s.code t =
          foldHalves reductionOp (linear t) (writeResult (linear t) slot) offset isEvenSize)

/-- The slot of the block has the sum, and the slots of the others are as before. -/
def Reduced {T : Type} [Fintype T] (slot : Nat) (localValue : T → M) (before memory : Cell → M) :
    Prop :=
  memory (.gridLevelResults slot) = ∑ t, localValue t ∧
    ∀ j, j ≠ slot → memory (.gridLevelResults j) = before (.gridLevelResults j)

section
variable {dimX dimY : Nat} {localValue : Fin dimX × Fin dimY → M} {before memory : Cell → M}
  {s : BlockState (Fin dimX × Fin dimY) Cell M}

theorem PhaseStart.noRace (h : PhaseStart reductionOp slot localValue before s) :
    NoRace s.code := by
  obtain ⟨-, hcode | ⟨offset, isEvenSize, -, -, -, hcode⟩⟩ := h
  · intro t u htu a ha
    rw [hcode t] at ha
    rw [hcode u]
    have ha : a = .sdata (linear t) := ha.resolve_right id
    refine ⟨id, fun hu => htu (linear_injective ?_)⟩
    have hu : a = .sdata (linear u) := hu.resolve_right id
    exact Cell.sdata.inj (ha.symm.trans hu)
  · intro t u htu a ha
    rw [hcode t] at ha
    rw [hcode u]
    have hne : linear t ≠ linear u := fun heq => htu (linear_injective heq)
    by_cases hoffset : offset = 0
    · subst hoffset
      rw [foldHalves, dif_pos rfl] at ha ⊢
      obtain ⟨rfl, hzero⟩ := writes_writeResult ha
      refine ⟨fun hu => ?_, fun hu => ?_⟩
      · cases reads_writeResult hu
      · exact hne (hzero.trans (writes_writeResult hu).2.symm)
    · obtain ⟨rfl, hlt⟩ := writes_foldHalves hoffset ha
      refine ⟨fun hu => ?_, fun hu => ?_⟩
      · rcases reads_foldHalves hoffset hu with heq | ⟨j, hj, heq⟩
        · exact hne (Cell.sdata.inj heq)
        · have := Cell.sdata.inj heq
          omega
      · exact hne (Cell.sdata.inj (writes_foldHalves hoffset hu).1)

/-- The local values in the shared data. -/
theorem PhaseStart.stored (hdim : 0 < dimX * dimY)
    (hresults : ∀ j, s.memory (.gridLevelResults j) = before (.gridLevelResults j))
    (hcode : ∀ t, s.code t = .store (.sdata (linear t)) (localValue t) (.sync
      (foldHalves reductionOp (linear t) (writeResult (linear t) slot) (dimX * dimY / 2)
        (dimX * dimY % 2 == 0))))
    (hsettled : Settled s memory) :
    PhaseStart reductionOp slot localValue before ⟨memory, fun t =>
      foldHalves reductionOp (linear t) (writeResult (linear t) slot) (dimX * dimY / 2)
        (dimX * dimY % 2 == 0)⟩ := by
  refine ⟨fun j => ?_, .inr ⟨_, _, ?_, ?_, ?_, fun _ => rfl⟩⟩
  · refine (hsettled.kept _ fun t ht => ?_).trans (hresults j)
    rw [hcode t] at ht
    cases ht.resolve_right id
  · rw [rangeSize_half]
    exact hdim
  · rw [rangeSize_half]
  · rw [rangeSize_half, ← sum_linear fun i => memory (.sdata i)]
    refine Finset.sum_congr rfl fun t _ => ?_
    rw [hsettled.written t (.sdata (linear t)) (by rw [hcode t]; exact .inl rfl), hcode t]
    exact Function.update_self ..

/-- A round folds the range to its lower half. -/
theorem PhaseStart.folded
    (hop : reductionOp = xompReductionPlus ∨ reductionOp = xompReductionMinus)
    (hresults : ∀ j, s.memory (.gridLevelResults j) = before (.gridLevelResults j))
    (hoffset : offset ≠ 0) (hle : rangeSize offset isEvenSize ≤ dimX * dimY)
    (hsum : ∑ i ∈ Finset.range (rangeSize offset isEvenSize), s.memory (.sdata i) =
      ∑ t, localValue t)
    (hcode : ∀ t, s.code t =
      foldHalves reductionOp (linear t) (writeResult (linear t) slot) offset isEvenSize)
    (hsettled : Settled s memory) :
    PhaseStart reductionOp slot localValue before ⟨memory, fun t =>
      foldHalves reductionOp (linear t) (writeResult (linear t) slot) (offset / 2)
        (offset % 2 == 0)⟩ := by
  have hlt : offset ≤ dimX * dimY := by
    unfold rangeSize at hle
    omega
  refine ⟨fun j => ?_, .inr ⟨_, _, ?_, ?_, ?_, fun _ => rfl⟩⟩
  · refine (hsettled.kept _ fun t ht => ?_).trans (hresults j)
    rw [hcode t] at ht
    cases (writes_foldHalves hoffset ht).1
  · rw [rangeSize_half]
    exact Nat.pos_of_ne_zero hoffset
  · rw [rangeSize_half]
    exact hlt
  · rw [rangeSize_half, ← hsum, ← sum_folded hoffset]
    refine Finset.sum_congr rfl fun i hi => ?_
    have hi' : i < dimX * dimY := (Finset.mem_range.mp hi).trans_le hlt
    obtain ⟨t, rfl⟩ := exists_linear hi'
    have hround := solo_round (m := s.memory) hop hoffset
      ((hcode t).trans (foldHalves_eq hoffset))
    obtain ⟨hmem, hvalue⟩ := hround.2 (Finset.mem_range.mp hi)
    exact (hsettled.written t _ hmem).trans hvalue

/-- The last phase writes the sum to the slot. -/
theorem PhaseStart.written (hdim : 0 < dimX * dimY)
    (hresults : ∀ j, s.memory (.gridLevelResults j) = before (.gridLevelResults j))
    (hsize : 0 < rangeSize 0 isEvenSize)
    (hsum : ∑ i ∈ Finset.range (rangeSize 0 isEvenSize), s.memory (.sdata i) = ∑ t, localValue t)
    (hcode : ∀ t, s.code t = writeResult (linear t) slot) (hsettled : Settled s memory) :
    Reduced slot localValue before memory := by
  obtain rfl : isEvenSize = false := by
    cases isEvenSize with
    | true => exact absurd hsize (by simp [rangeSize])
    | false => rfl
  obtain ⟨t, ht⟩ := exists_linear hdim
  have hslot : .gridLevelResults slot ∈ (s.code t).Writes := by
    rw [hcode t, writeResult, if_pos ht]
    exact ⟨0, .inl rfl⟩
  refine ⟨?_, fun j hj => ?_⟩
  · rw [hsettled.written t _ hslot, hcode t, writeResult, if_pos ht, ← hsum]
    simp [Code.solo, rangeSize]
  · refine (hsettled.kept _ fun t ht => ?_).trans (hresults j)
    rw [hcode t] at ht
    exact hj (Cell.gridLevelResults.inj (writes_writeResult ht).1)

theorem phaseStart_invariant (hdim : 0 < dimX * dimY)
    (hop : reductionOp = xompReductionPlus ∨ reductionOp = xompReductionMinus) :
    PhaseInvariant (PhaseStart reductionOp slot localValue before)
      (Reduced slot localValue before) := by
  refine ⟨fun s h => h.noRace, fun s h memory hsettled => ?_⟩
  obtain ⟨hresults, hcode | ⟨offset, isEvenSize, hsize, hle, hsum, hcode⟩⟩ := h
  · refine .inl ⟨_, fun t => ?_, PhaseStart.stored hdim hresults hcode hsettled⟩
    rw [hcode t]
    rfl
  · by_cases hoffset : offset = 0
    · subst hoffset
      have hlast : ∀ t, s.code t = writeResult (linear t) slot := by
        intro t
        rw [hcode t, foldHalves, dif_pos rfl]
      refine .inr ⟨fun t => ?_, PhaseStart.written hdim hresults hsize hsum hlast hsettled⟩
      rw [hlast t, writeResult]
      split <;> rfl
    · refine .inl ⟨_, fun t => ?_, PhaseStart.folded hop hresults hoffset hle hsum hcode hsettled⟩
      exact (solo_round hop hoffset ((hcode t).trans (foldHalves_eq hoffset))).1

/-- The threads of a block at the call of the reduction. -/
def blockStart (localValue : Fin dimX × Fin dimY → M) (blockIdx gridDim : Nat × Nat)
    (reductionOp : Nat) (before : Cell → M) : BlockState (Fin dimX × Fin dimY) Cell M where
  memory := before
  code t := xompInnerBlockReduction t blockIdx gridDim reductionOp (localValue t)

/-- Whatever the order of the threads, the reduction comes to its end with the sum of the local
values in the slot of the block, and no thread reads between two barriers what another writes. -/
theorem blockReduction_sums (localValue : Fin dimX × Fin dimY → M) (blockIdx gridDim : Nat × Nat)
    (before : Cell → M) (hdim : 0 < dimX * dimY)
    (hop : reductionOp = xompReductionPlus ∨ reductionOp = xompReductionMinus) :
    (WellFounded fun s' s : BlockState (Fin dimX × Fin dimY) Cell M => ∃ e, Step s e s') ∧
      ∀ es s, Runs (blockStart localValue blockIdx gridDim reductionOp before) es s →
        (s.Complete ∨ ∃ e s', Step s e s') ∧
        (s.Complete →
          Reduced (blockIdx.1 * gridDim.2 + blockIdx.2) localValue before s.memory) ∧
        ∀ segment s', Runs s segment s' → .barrier ∉ segment →
          ∀ t u a, .read t a ∈ segment → .write u a ∈ segment → t = u := by
  have hinv : PhaseInvariant
      (PhaseStart reductionOp (blockIdx.1 * gridDim.2 + blockIdx.2) localValue before)
      (Reduced (blockIdx.1 * gridDim.2 + blockIdx.2) localValue before) :=
    phaseStart_invariant hdim hop
  have hstart : PhaseStart reductionOp (blockIdx.1 * gridDim.2 + blockIdx.2) localValue before
      (blockStart localValue blockIdx gridDim reductionOp before) :=
    ⟨fun _ => rfl, .inl fun _ => rfl⟩
  obtain ⟨t, -⟩ := exists_linear hdim
  have : Nonempty (Fin dimX × Fin dimY) := ⟨t⟩
  refine ⟨step_wf, fun es s h => ⟨hinv.progress hstart h, hinv.complete hstart h, ?_⟩⟩
  exact fun segment s' hsegment hbarrier t u a => hinv.no_race hstart h hsegment hbarrier

end

end

/-- The local values of three threads, where the range is odd. -/
def threeValues (t : Fin 3 × Fin 1) : Int := t.1 + 1

theorem blockReduction_three :
    (WellFounded fun s' s : BlockState (Fin 3 × Fin 1) Cell Int => ∃ e, Step s e s') ∧
      ∀ es s, Runs (blockStart threeValues (0, 0) (1, 1) xompReductionPlus fun _ => 0) es s →
        (s.Complete ∨ ∃ e s', Step s e s') ∧
        (s.Complete → Reduced (0 * 1 + 0) threeValues (fun _ => 0) s.memory) ∧
        ∀ segment s', Runs s segment s' → .barrier ∉ segment →
          ∀ t u a, .read t a ∈ segment → .write u a ∈ segment → t = u :=
  blockReduction_sums threeValues (0, 0) (1, 1) _ (by decide) (.inl rfl)

end LoomX.Xomp
