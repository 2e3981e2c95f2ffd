import Mathlib

namespace LoomX.ParallelSort

variable {α : Type}

/-- A range of the values, from its begin up to its end. -/
structure Work where
  start : Nat
  stop : Nat
  deriving DecidableEq

def Work.Covers (w : Work) (k : Nat) : Prop := w.start ≤ k ∧ k < w.stop

instance (w : Work) (k : Nat) : Decidable (w.Covers k) :=
  inferInstanceAs (Decidable (w.start ≤ k ∧ k < w.stop))

def swap (mem : Nat → α) (i j : Nat) : Nat → α := mem ∘ Equiv.swap i j

/-- The first memory's values at other positions of the range, the rest in place. -/
def PermutedWithin (w : Work) (mem mem' : Nat → α) : Prop :=
  ∃ σ : Equiv.Perm Nat, (∀ k, ¬w.Covers k → σ k = k) ∧ mem' = mem ∘ σ

namespace PermutedWithin

variable {w : Work} {mem mem' mem'' : Nat → α}

theorem refl (w : Work) (mem : Nat → α) : PermutedWithin w mem mem :=
  ⟨1, fun _ _ => rfl, rfl⟩

theorem trans (h : PermutedWithin w mem mem') (h' : PermutedWithin w mem' mem'') :
    PermutedWithin w mem mem'' := by
  obtain ⟨σ, hσ, rfl⟩ := h
  obtain ⟨τ, hτ, rfl⟩ := h'
  refine ⟨σ * τ, fun k hk => ?_, rfl⟩
  rw [Equiv.Perm.mul_apply, hτ k hk, hσ k hk]

theorem swap {i j : Nat} (hi : w.Covers i) (hj : w.Covers j) :
    PermutedWithin w mem (ParallelSort.swap mem i j) := by
  refine ⟨Equiv.swap i j, fun k hk => Equiv.swap_apply_of_ne_of_ne ?_ ?_, rfl⟩
  · rintro rfl
    exact hk hi
  · rintro rfl
    exact hk hj

theorem mono {v : Work} (hsub : ∀ k, w.Covers k → v.Covers k) (h : PermutedWithin w mem mem') :
    PermutedWithin v mem mem' := by
  obtain ⟨σ, hσ, rfl⟩ := h
  exact ⟨σ, fun k hk => hσ k fun hw => hk (hsub k hw), rfl⟩

theorem outside (h : PermutedWithin w mem mem') {k : Nat} (hk : ¬w.Covers k) : mem' k = mem k := by
  obtain ⟨σ, hσ, rfl⟩ := h
  rw [Function.comp_apply, hσ k hk]

/-- A value of the range comes from the range. -/
theorem inside (h : PermutedWithin w mem mem') {k : Nat} (hk : w.Covers k) :
    ∃ j, w.Covers j ∧ mem' k = mem j := by
  obtain ⟨σ, hσ, rfl⟩ := h
  refine ⟨σ k, ?_, rfl⟩
  by_contra hout
  have hfix : σ k = k := σ.injective (hσ _ hout)
  rw [hfix] at hout
  exact hout hk

theorem list_perm {n : Nat} (h : PermutedWithin ⟨0, n⟩ mem mem') :
    ((List.range n).map mem').Perm ((List.range n).map mem) := by
  obtain ⟨σ, hσ, rfl⟩ := h
  have hrange : ((List.range n).map σ).Perm (List.range n) := by
    refine (List.perm_ext_iff_of_nodup ((List.nodup_map_iff σ.injective).mpr List.nodup_range)
      List.nodup_range).mpr fun k => ?_
    rw [List.mem_map, List.mem_range]
    constructor
    · rintro ⟨j, hj, rfl⟩
      by_contra hk
      have hfix : σ j = j := σ.injective (hσ (σ j) fun hw => hk hw.2)
      rw [hfix] at hk
      exact hk (List.mem_range.mp hj)
    · intro hk
      refine ⟨σ.symm k, ?_, σ.apply_symm_apply k⟩
      by_contra hj
      have hfix := hσ (σ.symm k) fun hw => hj (List.mem_range.mpr hw.2)
      rw [σ.apply_symm_apply] at hfix
      rw [← hfix] at hj
      exact hj (List.mem_range.mpr hk)
  rw [← List.map_map]
  exact hrange.map mem

end PermutedWithin

variable (compare : α → α → Bool)

/-- The values below the last one are brought to the front. -/
def partitionLoop (stop : Nat) (mem : Nat → α) (i pivot : Nat) : Nat × (Nat → α) :=
  if i + 1 < stop then
    if compare (mem i) (mem (stop - 1)) then
      partitionLoop stop (swap mem i pivot) (i + 1) (pivot + 1)
    else partitionLoop stop mem (i + 1) pivot
  else (pivot, mem)
termination_by stop - i

def partition (mem : Nat → α) (w : Work) (pivot : Nat) : Nat × (Nat → α) :=
  let mem := swap mem pivot (w.stop - 1)
  let (pivot, mem) := partitionLoop compare w.stop mem w.start w.start
  (pivot, swap mem (w.stop - 1) pivot)

variable {compare}

theorem swap_apply_left (mem : Nat → α) (i j : Nat) : swap mem i j i = mem j := by
  simp [swap]

theorem swap_apply_right (mem : Nat → α) (i j : Nat) : swap mem i j j = mem i := by
  simp [swap]

theorem swap_apply_of_ne {mem : Nat → α} {i j k : Nat} (hi : k ≠ i) (hj : k ≠ j) :
    swap mem i j k = mem k := by
  simp [swap, Equiv.swap_apply_of_ne_of_ne hi hj]

/-- The values up to the pivot are below the last one, the others scanned are not. -/
structure Scanned (compare : α → α → Bool) (w : Work) (mem : Nat → α) (i pivot : Nat) : Prop where
  start_le : w.start ≤ pivot
  le : pivot ≤ i
  lt : i < w.stop
  below : ∀ k, w.start ≤ k → k < pivot → compare (mem k) (mem (w.stop - 1)) = true
  above : ∀ k, pivot ≤ k → k < i → compare (mem k) (mem (w.stop - 1)) = false

theorem Scanned.swap {w : Work} {mem : Nat → α} {i pivot : Nat} (h : Scanned compare w mem i pivot)
    (hi : i + 1 < w.stop) (hlt : compare (mem i) (mem (w.stop - 1)) = true) :
    Scanned compare w (swap mem i pivot) (i + 1) (pivot + 1) := by
  obtain ⟨hstart, hle, -, hbelow, habove⟩ := h
  have hlast : ParallelSort.swap mem i pivot (w.stop - 1) = mem (w.stop - 1) :=
    swap_apply_of_ne (by omega) (by omega)
  refine ⟨by omega, by omega, hi, fun k hk hkp => ?_, fun k hk hki => ?_⟩
  · rw [hlast]
    rcases Nat.lt_or_ge k pivot with hlt' | hge
    · rw [swap_apply_of_ne (by omega) (by omega)]
      exact hbelow k hk hlt'
    · have heq : k = pivot := by omega
      rw [heq, swap_apply_right]
      exact hlt
  · rw [hlast]
    rcases Nat.lt_or_ge k i with hlt' | hge
    · rw [swap_apply_of_ne (by omega) (by omega)]
      exact habove k (by omega) hlt'
    · have heq : k = i := by omega
      rw [heq, swap_apply_left]
      exact habove pivot le_rfl (by omega)

theorem Scanned.skip {w : Work} {mem : Nat → α} {i pivot : Nat} (h : Scanned compare w mem i pivot)
    (hi : i + 1 < w.stop) (hge : compare (mem i) (mem (w.stop - 1)) = false) :
    Scanned compare w mem (i + 1) pivot := by
  obtain ⟨hstart, hle, -, hbelow, habove⟩ := h
  refine ⟨hstart, by omega, hi, hbelow, fun k hk hki => ?_⟩
  rcases Nat.lt_or_ge k i with hlt | hge'
  · exact habove k hk hlt
  · have heq : k = i := by omega
    rw [heq]
    exact hge

theorem partitionLoop_spec {w : Work} {mem : Nat → α} {i pivot : Nat}
    (h : Scanned compare w mem i pivot) :
    Scanned compare w (partitionLoop compare w.stop mem i pivot).2 (w.stop - 1)
        (partitionLoop compare w.stop mem i pivot).1 ∧
      PermutedWithin w mem (partitionLoop compare w.stop mem i pivot).2 := by
  have hi := h.lt
  induction mem, i, pivot using partitionLoop.induct compare w.stop with
  | case1 mem i pivot hlt hcmp ih =>
    obtain ⟨hscan, hperm⟩ := ih (h.swap hlt hcmp) hlt
    rw [partitionLoop, if_pos hlt, if_pos hcmp]
    have hstart := h.start_le
    have hle := h.le
    exact ⟨hscan, (PermutedWithin.swap ⟨by omega, by omega⟩ ⟨by omega, by omega⟩).trans hperm⟩
  | case2 mem i pivot hlt hcmp ih =>
    rw [partitionLoop, if_pos hlt, if_neg hcmp]
    exact ih (h.skip hlt (by simpa using hcmp)) hlt
  | case3 mem i pivot hge =>
    rw [partitionLoop, if_neg hge]
    have heq : i = w.stop - 1 := by omega
    exact ⟨heq ▸ h, .refl w mem⟩

/-- What a partition leaves: the values before the pivot are below it, those after are not. -/
theorem partition_spec (compare : α → α → Bool) {w : Work} (mem : Nat → α) {pivot : Nat}
    (hpivot : w.Covers pivot) :
    w.Covers (partition compare mem w pivot).1 ∧
      PermutedWithin w mem (partition compare mem w pivot).2 ∧
      (∀ k, w.start ≤ k → k < (partition compare mem w pivot).1 →
        compare ((partition compare mem w pivot).2 k)
          ((partition compare mem w pivot).2 (partition compare mem w pivot).1) = true) ∧
      ∀ k, (partition compare mem w pivot).1 < k → k < w.stop →
        compare ((partition compare mem w pivot).2 k)
          ((partition compare mem w pivot).2 (partition compare mem w pivot).1) = false := by
  obtain ⟨hstart, hstop⟩ := hpivot
  have hlast : w.Covers (w.stop - 1) := ⟨by omega, by omega⟩
  have hinit : Scanned compare w (swap mem pivot (w.stop - 1)) w.start w.start :=
    ⟨le_rfl, le_rfl, by omega, fun k _ _ => by omega, fun k _ _ => by omega⟩
  obtain ⟨hscan, hperm⟩ := partitionLoop_spec hinit
  simp only [partition]
  generalize partitionLoop compare w.stop (swap mem pivot (w.stop - 1)) w.start w.start = result
    at hscan hperm
  obtain ⟨p, mem'⟩ := result
  dsimp only at hscan hperm ⊢
  obtain ⟨hstart', hle, -, hbelow, habove⟩ := hscan
  have hp : w.Covers p := ⟨hstart', by omega⟩
  refine ⟨hp, (PermutedWithin.swap ⟨hstart, hstop⟩ hlast).trans (hperm.trans (.swap hlast hp)),
    fun k hk hkp => ?_, fun k hpk hk => ?_⟩
  · rw [swap_apply_right, swap_apply_of_ne (by omega) (by omega)]
    exact hbelow k hk hkp
  · rw [swap_apply_right]
    rcases Nat.lt_or_ge k (w.stop - 1) with hlt | hge
    · rw [swap_apply_of_ne (by omega) (by omega)]
      exact habove k hpk.le hlt
    · have heq : k = w.stop - 1 := by omega
      rw [heq, swap_apply_left]
      exact habove p le_rfl (by omega)

end LoomX.ParallelSort
