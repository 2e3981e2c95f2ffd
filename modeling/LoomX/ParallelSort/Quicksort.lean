import LoomX.ParallelSort.Partition

namespace LoomX.ParallelSort

variable {α : Type} {N : Nat}

def multiThreshold : Nat := 10000

/-- Where a worker is between two of its steps. -/
inductive Phase where
  | idle
  | sorting (w : Work)
  | splitting (w : Work) (pivot : Nat)
  | finishing
  | returned

namespace Phase

/-- The ranges a worker has in progress. -/
def ranges : Phase → List Work
  | sorting w => [w]
  | splitting w pivot => [⟨w.start, pivot⟩, ⟨pivot + 1, w.stop⟩]
  | _ => []

/-- A worker is pending from taking a range to the end of its work on it. -/
def pending : Phase → Nat
  | sorting _ => 1
  | splitting _ _ => 1
  | finishing => 1
  | _ => 0

end Phase

structure State (α : Type) (N : Nat) where
  mem : Nat → α
  worklist : List Work
  npending : Nat
  workers : Fin N → Phase

/-- A step of one worker, between whose steps any others may step. -/
inductive Step (compare : α → α → Bool) : State α N → State α N → Prop where
  | take {s : State α N} {i : Fin N} {w : Work} {rest : List Work} (hidle : s.workers i = .idle)
      (hwork : s.worklist = w :: rest) :
      Step compare s { s with
        worklist := rest
        npending := s.npending + 1
        workers := Function.update s.workers i (.sorting w) }
  | leave {s : State α N} {i : Fin N} (hidle : s.workers i = .idle) (hwork : s.worklist = [])
      (hpending : s.npending = 0) :
      Step compare s { s with workers := Function.update s.workers i .returned }
  | skip {s : State α N} {i : Fin N} {w : Work} (hsort : s.workers i = .sorting w)
      (hsize : w.stop - w.start ≤ 1) :
      Step compare s { s with workers := Function.update s.workers i .finishing }
  | sort {s : State α N} {i : Fin N} {w : Work} {mem : Nat → α} (hsort : s.workers i = .sorting w)
      (hsize : 1 < w.stop - w.start) (hsmall : w.stop - w.start < multiThreshold)
      (hperm : PermutedWithin w s.mem mem)
      (hsorted : ∀ j k, w.Covers j → w.Covers k → j < k → compare (mem k) (mem j) = false) :
      Step compare s { s with
        mem := mem
        workers := Function.update s.workers i .finishing }
  | partition {s : State α N} {i : Fin N} {w : Work} {pivot : Nat} {mem : Nat → α}
      (hsort : s.workers i = .sorting w) (hlarge : multiThreshold ≤ w.stop - w.start)
      (hpartition : ParallelSort.partition compare s.mem w (w.start + (w.stop - w.start) / 2) =
        (pivot, mem)) :
      Step compare s { s with
        mem := mem
        workers := Function.update s.workers i (.splitting w pivot) }
  | addWork {s : State α N} {i : Fin N} {w : Work} {pivot : Nat}
      (hsplit : s.workers i = .splitting w pivot) :
      Step compare s { s with
        worklist := s.worklist ++ [⟨pivot + 1, w.stop⟩]
        workers := Function.update s.workers i (.sorting ⟨w.start, pivot⟩) }
  | finish {s : State α N} {i : Fin N} (hfinish : s.workers i = .finishing) :
      Step compare s { s with
        npending := s.npending - 1
        workers := Function.update s.workers i .idle }

/-- The whole range is added as work before the workers start. -/
def initial (input : Nat → α) (n nThreads : Nat) : State α (max nThreads 1) where
  mem := input
  worklist := [⟨0, n⟩]
  npending := 0
  workers := fun _ => .idle

def Reachable (compare : α → α → Bool) (input : Nat → α) (n nThreads : Nat) :
    State α (max nThreads 1) → Prop :=
  Relation.ReflTransGen (Step compare) (initial input n nThreads)

/-- The ranges on the work list and in progress. -/
def State.outstanding (s : State α N) : List Work :=
  s.worklist ++ (List.finRange N).flatMap fun i => (s.workers i).ranges

theorem sum_update {ι : Type} [Fintype ι] [DecidableEq ι] (f : Phase → Nat) (g : ι → Phase) (i : ι)
    (x : Phase) : ∑ j, f (Function.update g i x j) + f (g i) = ∑ j, f (g j) + f x := by
  have hold := Finset.add_sum_erase Finset.univ (fun j => f (g j)) (Finset.mem_univ i)
  have hnew := Finset.add_sum_erase Finset.univ (fun j => f (Function.update g i x j))
    (Finset.mem_univ i)
  have hsame : ∑ j ∈ Finset.univ.erase i, f (Function.update g i x j) =
      ∑ j ∈ Finset.univ.erase i, f (g j) :=
    Finset.sum_congr rfl fun j hj => by rw [Function.update_of_ne (Finset.ne_of_mem_erase hj)]
  rw [Function.update_self] at hnew
  omega

theorem countP_outstanding (s : State α N) (q : Work → Bool) :
    s.outstanding.countP q = s.worklist.countP q + ∑ i, (s.workers i).ranges.countP q := by
  rw [State.outstanding, List.countP_append, List.countP_flatMap, Fin.sum_univ_def]
  rfl

/-- The outstanding ranges after a worker's change of phase. -/
theorem countP_update (s : State α N) (mem : Nat → α) (worklist : List Work) (npending : Nat)
    (i : Fin N) (phase : Phase) (q : Work → Bool) :
    (State.mk mem worklist npending (Function.update s.workers i phase)).outstanding.countP q +
        (s.worklist.countP q + (s.workers i).ranges.countP q) =
      s.outstanding.countP q + (worklist.countP q + phase.ranges.countP q) := by
  have hsum := sum_update (fun phase => phase.ranges.countP q) s.workers i phase
  rw [countP_outstanding, countP_outstanding]
  dsimp only at hsum ⊢
  omega

theorem mem_outstanding {s : State α N} {v : Work} :
    v ∈ s.outstanding ↔ v ∈ s.worklist ∨ ∃ i, v ∈ (s.workers i).ranges := by
  simp [State.outstanding]

theorem mem_outstanding_update {s : State α N} {mem : Nat → α} {npending : Nat} {i : Fin N}
    {phase : Phase} {v : Work} (h : v ∈ (State.mk mem s.worklist npending
      (Function.update s.workers i phase)).outstanding) : v ∈ s.outstanding ∨ v ∈ phase.ranges := by
  rcases mem_outstanding.mp h with h | ⟨j, hj⟩
  · exact .inl (mem_outstanding.mpr (.inl h))
  · dsimp only at hj
    by_cases hji : j = i
    · subst hji
      rw [Function.update_self] at hj
      exact .inr hj
    · rw [Function.update_of_ne hji] at hj
      exact .inl (mem_outstanding.mpr (.inr ⟨j, hj⟩))

theorem outstanding_update {s : State α N} (mem : Nat → α) (npending : Nat) {i : Fin N}
    (phase : Phase) {v : Work} (h : v ∈ s.outstanding) :
    v ∈ (s.workers i).ranges ∨
      v ∈ (State.mk mem s.worklist npending (Function.update s.workers i phase)).outstanding := by
  rcases mem_outstanding.mp h with h | ⟨j, hj⟩
  · exact .inr (mem_outstanding.mpr (.inl h))
  · by_cases hji : j = i
    · exact .inl (hji ▸ hj)
    · refine .inr (mem_outstanding.mpr (.inr ⟨j, ?_⟩))
      dsimp only
      rwa [Function.update_of_ne hji]

/-- Two positions some outstanding range still holds both. -/
def Work.Joins (w : Work) (j k : Nat) : Prop := w.Covers j ∧ w.Covers k

/-- What holds between any two steps. -/
structure Invariant (compare : α → α → Bool) (input : Nat → α) (n : Nat) (s : State α N) : Prop where
  pending : s.npending = ∑ i, (s.workers i).pending
  bounded : ∀ w ∈ s.outstanding, w.stop ≤ n
  disjoint : ∀ k, s.outstanding.countP (·.Covers k) ≤ 1
  permuted : PermutedWithin ⟨0, n⟩ input s.mem
  ordered : ∀ j k, j < k → k < n → (∀ w ∈ s.outstanding, ¬w.Joins j k) →
    compare (s.mem k) (s.mem j) = false
  returned : (∃ i, s.workers i = .returned) → s.worklist = [] ∧ s.npending = 0

section

variable {compare : α → α → Bool} {input : Nat → α} {n : Nat} {s : State α N}

/-- Ranges that cover every position at most once are pairwise disjoint. -/
theorem pairwise_of_countP {ws : List Work} (hone : ∀ k, ws.countP (·.Covers k) ≤ 1) :
    ws.Pairwise fun v w => ∀ k, ¬(v.Covers k ∧ w.Covers k) := by
  induction ws with
  | nil => exact .nil
  | cons v ws ih =>
    refine List.pairwise_cons.mpr ⟨fun w hw k hk => ?_, ih fun k => ?_⟩
    · have hcount := hone k
      have hpos : 0 < ws.countP (·.Covers k) :=
        List.countP_pos_iff.mpr ⟨w, hw, by simpa using hk.2⟩
      rw [List.countP_cons_of_pos (by simpa using hk.1)] at hcount
      omega
    · have hcount := hone k
      rw [List.countP_cons] at hcount
      omega

theorem eq_of_covers (hinv : Invariant compare input n s) {v w : Work} (hv : v ∈ s.outstanding)
    (hw : w ∈ s.outstanding) {k : Nat} (hvk : v.Covers k) (hwk : w.Covers k) : v = w := by
  by_contra hne
  have hsymm : Std.Symm fun v w : Work => ∀ k, ¬(v.Covers k ∧ w.Covers k) :=
    ⟨fun v w h k hk => h k hk.symm⟩
  exact (pairwise_of_countP hinv.disjoint).forall hv hw hne k ⟨hvk, hwk⟩

/-- The ranges in progress are those of workers that are pending. -/
theorem ranges_of_pending {phase : Phase} (h : phase.pending = 0) : phase.ranges = [] := by
  cases phase <;> simp_all [Phase.pending, Phase.ranges]

theorem pending_le (hinv : Invariant compare input n s) (i : Fin N) :
    (s.workers i).pending ≤ s.npending := by
  rw [hinv.pending]
  exact Finset.single_le_sum (f := fun i => (s.workers i).pending) (fun _ _ => Nat.zero_le _)
    (Finset.mem_univ i)

theorem pending_update (hinv : Invariant compare input n s) (i : Fin N) (phase : Phase) :
    ∑ j, (Function.update s.workers i phase j).pending + (s.workers i).pending =
      s.npending + phase.pending := by
  rw [hinv.pending]
  exact sum_update Phase.pending s.workers i phase

/-- Only idle workers leave, and so once one has returned no other is pending. -/
theorem not_returned (hinv : Invariant compare input n s) {i : Fin N}
    (hpending : (s.workers i).pending = 1) (j : Fin N) : s.workers j ≠ .returned := by
  intro hj
  have hzero := (hinv.returned ⟨j, hj⟩).2
  have hle := pending_le hinv i
  omega

theorem not_returned_update (hinv : Invariant compare input n s) {i : Fin N}
    (hpending : (s.workers i).pending = 1) {phase : Phase} (hphase : phase ≠ .returned) :
    ¬∃ j, Function.update s.workers i phase j = .returned := by
  rintro ⟨j, hj⟩
  by_cases hji : j = i
  · rw [hji, Function.update_self] at hj
    exact hphase hj
  · rw [Function.update_of_ne hji] at hj
    exact not_returned hinv hpending j hj

theorem mem_of_sorting {i : Fin N} {w : Work} (hsort : s.workers i = .sorting w) :
    w ∈ s.outstanding := by
  refine mem_outstanding.mpr (.inr ⟨i, ?_⟩)
  rw [hsort]
  exact List.mem_singleton_self w

/-- A worker's range gives way to parts of it, with its values put in order between them. -/
theorem Invariant.refine (hinv : Invariant compare input n s) {i : Fin N} {w : Work}
    (hsort : s.workers i = .sorting w) {phase : Phase} (hphase : phase.pending = 1)
    (hsub : ∀ v ∈ phase.ranges, ∀ k, v.Covers k → w.Covers k)
    (hbound : ∀ v ∈ phase.ranges, v.stop ≤ w.stop)
    (hdisjoint : ∀ k, phase.ranges.countP (·.Covers k) ≤ 1) {mem : Nat → α}
    (hperm : PermutedWithin w s.mem mem)
    (hord : ∀ j k, j < k → w.Joins j k → (∀ v ∈ phase.ranges, ¬v.Joins j k) →
      compare (mem k) (mem j) = false) :
    Invariant compare input n
      { s with mem := mem, workers := Function.update s.workers i phase } where
  pending := by
    have hsum := pending_update hinv i phase
    have hone : (Phase.sorting w).pending = 1 := rfl
    rw [hsort, hphase, hone] at hsum
    dsimp only
    omega
  bounded v hv := by
    rcases mem_outstanding_update hv with hv | hv
    · exact hinv.bounded v hv
    · exact (hbound v hv).trans (hinv.bounded w (mem_of_sorting hsort))
  disjoint k := by
    have hcount := countP_update s mem s.worklist s.npending i phase (·.Covers k)
    have hold := hinv.disjoint k
    have hnew := hdisjoint k
    rw [hsort] at hcount
    by_cases hwk : w.Covers k
    · have hone : (Phase.sorting w).ranges.countP (·.Covers k) = 1 := by simp [Phase.ranges, hwk]
      omega
    · have hzero : phase.ranges.countP (·.Covers k) = 0 :=
        List.countP_eq_zero.mpr fun v hv => by simpa using fun hvk => hwk (hsub v hv k hvk)
      omega
  permuted := by
    have hstop := hinv.bounded w (mem_of_sorting hsort)
    exact hinv.permuted.trans (hperm.mono fun k hk => ⟨Nat.zero_le k, hk.2.trans_le hstop⟩)
  ordered j k hjk hkn hnone := by
    have hw := mem_of_sorting hsort
    have hstop := hinv.bounded w hw
    have hparts : ∀ v ∈ phase.ranges, ¬v.Joins j k := fun v hv => hnone v (mem_outstanding.mpr
      (.inr ⟨i, by
        dsimp only
        rwa [Function.update_self]⟩))
    by_cases hwj : w.Covers j <;> by_cases hwk : w.Covers k
    · exact hord j k hjk ⟨hwj, hwk⟩ hparts
    · obtain ⟨j', hj', hmem⟩ := hperm.inside hwj
      have hkw : w.stop ≤ k := by
        by_contra hlt
        exact hwk ⟨hwj.1.trans hjk.le, by omega⟩
      dsimp only
      rw [hmem, hperm.outside hwk]
      refine hinv.ordered j' k (hj'.2.trans_le hkw) hkn fun v hv hvjk => hwk ?_
      rw [← eq_of_covers hinv hv hw hvjk.1 hj']
      exact hvjk.2
    · obtain ⟨k', hk', hmem⟩ := hperm.inside hwk
      have hjw : j < w.start := by
        by_contra hge
        exact hwj ⟨by omega, hjk.trans hwk.2⟩
      dsimp only
      rw [hmem, hperm.outside hwj]
      refine hinv.ordered j k' (hjw.trans_le hk'.1) (hk'.2.trans_le hstop) fun v hv hvjk => hwj ?_
      rw [← eq_of_covers hinv hv hw hvjk.2 hk']
      exact hvjk.1
    · dsimp only
      rw [hperm.outside hwj, hperm.outside hwk]
      refine hinv.ordered j k hjk hkn fun v hv => ?_
      rcases outstanding_update mem s.npending phase hv with hv | hv
      · rw [hsort] at hv
        rw [List.mem_singleton.mp hv]
        exact fun h => hwj h.1
      · exact hnone v hv
  returned := by
    intro h
    refine absurd h (not_returned_update hinv (by rw [hsort]; rfl) ?_)
    rintro rfl
    exact absurd hphase (by simp [Phase.pending])

/-- Phases change without a change of the outstanding ranges. -/
theorem Invariant.keep (hinv : Invariant compare input n s) {s' : State α N} (hmem : s'.mem = s.mem)
    (hcount : ∀ q : Work → Bool, s'.outstanding.countP q = s.outstanding.countP q)
    (hpending : s'.npending = ∑ i, (s'.workers i).pending)
    (hreturned : (∃ i, s'.workers i = .returned) → s'.worklist = [] ∧ s'.npending = 0) :
    Invariant compare input n s' := by
  have hmem_iff : ∀ v, v ∈ s'.outstanding ↔ v ∈ s.outstanding := by
    intro v
    have h := hcount (· = v)
    have hiff : ∀ ws : List Work, v ∈ ws ↔ 0 < ws.countP (· = v) := by
      intro ws
      rw [List.countP_pos_iff]
      simp
    rw [hiff, hiff, h]
  refine ⟨hpending, fun v hv => hinv.bounded v ((hmem_iff v).mp hv), fun k => ?_, hmem ▸ hinv.permuted,
    fun j k hjk hkn hnone => ?_, hreturned⟩
  · rw [hcount]
    exact hinv.disjoint k
  · rw [hmem]
    exact hinv.ordered j k hjk hkn fun v hv => hnone v ((hmem_iff v).mpr hv)

/-- Around the pivot a partition leaves only the order within its two sides open. -/
theorem partition_ordered (hcompare : IsStrictWeakOrder α fun a b => compare a b = true) {w : Work}
    {mem mem' : Nat → α} {start pivot : Nat} (hstart : w.Covers start)
    (hpartition : ParallelSort.partition compare mem w start = (pivot, mem')) {j k : Nat}
    (hjk : j < k) (hw : w.Joins j k)
    (hnone : ∀ v ∈ (Phase.splitting w pivot).ranges, ¬v.Joins j k) :
    compare (mem' k) (mem' j) = false := by
  obtain ⟨-, -, hbelow, habove⟩ := partition_spec compare mem hstart
  rw [hpartition] at hbelow habove
  dsimp only at hbelow habove
  obtain ⟨hj, hk⟩ := hw
  have hleft : ¬k < pivot := fun hlt =>
    hnone ⟨w.start, pivot⟩ (by simp [Phase.ranges]) ⟨⟨hj.1, hjk.trans hlt⟩, hk.1, hlt⟩
  have hright : ¬pivot < j := fun hlt =>
    hnone ⟨pivot + 1, w.stop⟩ (by simp [Phase.ranges]) ⟨⟨hlt, hj.2⟩, hlt.trans hjk, hk.2⟩
  rcases Nat.lt_or_ge j pivot with hlt | hge
  · have hjp := hbelow j hj.1 hlt
    by_contra hkj
    rw [Bool.not_eq_false] at hkj
    rcases Nat.lt_or_ge pivot k with hpk | hpk
    · have hkp : compare (mem' k) (mem' pivot) = true := trans_of
        (fun a b => compare a b = true) hkj hjp
      rw [habove k hpk hk.2] at hkp
      exact absurd hkp (by simp)
    · have heq : k = pivot := by omega
      rw [heq] at hkj
      exact asymm_of (fun a b => compare a b = true) hjp hkj
  · have heq : j = pivot := by omega
    rw [heq]
    exact habove k (by omega) hk.2

theorem Invariant.step (hcompare : IsStrictWeakOrder α fun a b => compare a b = true)
    (hinv : Invariant compare input n s) {s' : State α N} (h : Step compare s s') :
    Invariant compare input n s' := by
  cases h with
  | @take i w rest hidle hwork =>
    refine hinv.keep rfl (fun q => ?_) ?_ ?_
    · have hcount := countP_update s s.mem rest (s.npending + 1) i (.sorting w) q
      rw [hidle, hwork, List.countP_cons] at hcount
      simp only [Phase.ranges, List.countP_cons, List.countP_nil] at hcount
      omega
    · have hsum := pending_update hinv i (.sorting w)
      rw [hidle] at hsum
      exact hsum.symm
    · rintro ⟨j, hj⟩
      dsimp only at hj
      have hji : j ≠ i := by
        rintro rfl
        rw [Function.update_self] at hj
        exact absurd hj (by simp)
      rw [Function.update_of_ne hji] at hj
      have hempty := (hinv.returned ⟨j, hj⟩).1
      exact absurd hempty (by simp [hwork])
  | @leave i hidle hwork hpending =>
    refine hinv.keep rfl (fun q => ?_) ?_ fun _ => ⟨hwork, hpending⟩
    · have hcount := countP_update s s.mem s.worklist s.npending i .returned q
      rw [hidle] at hcount
      simp only [Phase.ranges] at hcount
      omega
    · have hsum := pending_update hinv i .returned
      rw [hidle] at hsum
      exact hsum.symm
  | @skip i w hsort hsize =>
    refine hinv.refine hsort rfl (by simp [Phase.ranges]) (by simp [Phase.ranges])
      (by simp [Phase.ranges]) (.refl w s.mem) fun j k hjk hw _ => ?_
    have hj := hw.1
    have hk := hw.2
    simp only [Work.Covers] at hj hk
    omega
  | @sort i w mem hsort hsize hsmall hperm hsorted =>
    exact hinv.refine hsort rfl (by simp [Phase.ranges]) (by simp [Phase.ranges])
      (by simp [Phase.ranges]) hperm fun j k hjk hw _ => hsorted j k hw.1 hw.2 hjk
  | @partition i w pivot mem hsort hlarge hpartition =>
    have hstart : w.Covers (w.start + (w.stop - w.start) / 2) := by
      simp only [multiThreshold] at hlarge
      exact ⟨by omega, by omega⟩
    obtain ⟨hpivot, hperm, -, -⟩ := partition_spec compare s.mem hstart
    rw [hpartition] at hpivot hperm
    dsimp only at hpivot hperm
    refine hinv.refine hsort rfl ?_ ?_ ?_ hperm fun j k hjk hw hnone =>
      partition_ordered hcompare hstart hpartition hjk hw hnone
    · intro v hv k hk
      obtain ⟨hwp, hpw⟩ := hpivot
      rcases List.mem_cons.mp hv with rfl | hv
      · exact ⟨hk.1, hk.2.trans hpw⟩
      · rw [List.mem_singleton.mp hv] at hk
        exact ⟨hwp.trans ((Nat.le_succ pivot).trans hk.1), hk.2⟩
    · intro v hv
      rcases List.mem_cons.mp hv with rfl | hv
      · exact hpivot.2.le
      · rw [List.mem_singleton.mp hv]
    · intro k
      by_cases hleft : Work.Covers ⟨w.start, pivot⟩ k
      · have hright : ¬Work.Covers ⟨pivot + 1, w.stop⟩ k := fun hright =>
          absurd hleft.2 (not_lt.mpr ((Nat.le_succ pivot).trans hright.1))
        simp [Phase.ranges, hleft, hright]
      · simp only [Phase.ranges, List.countP_cons, List.countP_nil, hleft, decide_false]
        split <;> simp
  | @addWork i w pivot hsplit =>
    refine hinv.keep rfl (fun q => ?_) ?_ fun h => absurd h
      (not_returned_update hinv (by rw [hsplit]; rfl) (by simp))
    · have hcount := countP_update s s.mem (s.worklist ++ [⟨pivot + 1, w.stop⟩]) s.npending i
        (.sorting ⟨w.start, pivot⟩) q
      rw [hsplit, List.countP_append] at hcount
      simp only [Phase.ranges, List.countP_cons, List.countP_nil] at hcount
      omega
    · have hsum := pending_update hinv i (.sorting ⟨w.start, pivot⟩)
      rw [hsplit] at hsum
      exact (Nat.add_right_cancel hsum).symm
  | @finish i hfinish =>
    have hone : (s.workers i).pending = 1 := by
      rw [hfinish]
      rfl
    refine hinv.keep rfl (fun q => ?_) ?_ fun h => absurd h
      (not_returned_update hinv hone (by simp))
    · have hcount := countP_update s s.mem s.worklist (s.npending - 1) i .idle q
      rw [hfinish] at hcount
      simp only [Phase.ranges] at hcount
      omega
    · have hsum := pending_update hinv i .idle
      rw [hone] at hsum
      have hidle : Phase.idle.pending = 0 := rfl
      dsimp only
      omega

theorem Invariant.initial (compare : α → α → Bool) (input : Nat → α) (n nThreads : Nat) :
    Invariant compare input n (initial input n nThreads) := by
  have houtstanding : (ParallelSort.initial input n nThreads).outstanding = [⟨0, n⟩] := by
    simp [State.outstanding, ParallelSort.initial, Phase.ranges]
  refine ⟨by simp [ParallelSort.initial, Phase.pending], ?_, fun k => ?_, .refl _ _, ?_, ?_⟩
  · rw [houtstanding]
    simp
  · rw [houtstanding, List.countP_singleton]
    split <;> omega
  · intro j k hjk hkn hnone
    rw [houtstanding] at hnone
    exact absurd ⟨⟨Nat.zero_le j, hjk.trans hkn⟩, Nat.zero_le k, hkn⟩ (hnone ⟨0, n⟩ (by simp))
  · rintro ⟨i, hi⟩
    exact absurd hi (by simp [ParallelSort.initial])

theorem Invariant.reachable (hcompare : IsStrictWeakOrder α fun a b => compare a b = true)
    {nThreads : Nat} {s : State α (max nThreads 1)}
    (hreach : Reachable compare input n nThreads s) : Invariant compare input n s := by
  induction hreach with
  | refl => exact .initial compare input n nThreads
  | tail _ hstep ih => exact ih.step hcompare hstep

/-- A worker that has returned leaves nothing queued or in progress. -/
theorem outstanding_of_returned (hinv : Invariant compare input n s) {i : Fin N}
    (hi : s.workers i = .returned) : s.outstanding = [] := by
  obtain ⟨hempty, hzero⟩ := hinv.returned ⟨i, hi⟩
  rw [State.outstanding, hempty, List.nil_append, List.flatMap_eq_nil_iff]
  intro j _
  have hle := pending_le hinv j
  exact ranges_of_pending (by omega)

end

/-- Under every schedule the outstanding ranges stay disjoint, a worker returns only when there
are none, and the values are a permutation of the input, sorted once the workers have returned. -/
theorem quicksort_sorts {compare : α → α → Bool}
    (hcompare : IsStrictWeakOrder α fun a b => compare a b = true) {input : Nat → α} {n nThreads : Nat}
    {s : State α (max nThreads 1)} (hreach : Reachable compare input n nThreads s) :
    (s.outstanding.Pairwise fun v w => ∀ k, ¬(v.Covers k ∧ w.Covers k)) ∧
    ((∃ i, s.workers i = .returned) →
      s.outstanding = [] ∧ s.npending = 0 ∧ ∀ j, (s.workers j).pending = 0) ∧
    ((List.range n).map s.mem).Perm ((List.range n).map input) ∧
    ((∀ i, s.workers i = .returned) →
      ((List.range n).map s.mem).Pairwise fun a b => compare b a = false) := by
  have hinv := Invariant.reachable hcompare hreach
  refine ⟨pairwise_of_countP hinv.disjoint, ?_, hinv.permuted.list_perm, fun hall => ?_⟩
  · rintro ⟨i, hi⟩
    have hzero := (hinv.returned ⟨i, hi⟩).2
    refine ⟨outstanding_of_returned hinv hi, hzero, fun j => ?_⟩
    have hle := pending_le hinv j
    omega
  · have hnone := outstanding_of_returned hinv (hall ⟨0, by omega⟩)
    refine List.pairwise_map.mpr ((List.pairwise_lt_range).imp_of_mem fun hj hk hjk => ?_)
    refine hinv.ordered _ _ hjk (List.mem_range.mp hk) fun w hw => ?_
    rw [hnone] at hw
    simp at hw

section

variable {compare : α → α → Bool} {input : Nat → α} {n : Nat}

/-- A least value of a range. -/
theorem exists_least (hcompare : IsStrictWeakOrder α fun a b => compare a b = true)
    (mem : Nat → α) {w : Work} (hsize : w.start < w.stop) :
    ∃ p, w.Covers p ∧ ∀ k, w.Covers k → compare (mem k) (mem p) = false := by
  have hstrict : IsStrictOrder Nat (Order.Preimage mem fun a b => compare a b = true) :=
    inferInstance
  obtain ⟨⟨p, hp⟩, -, hleast⟩ := ((Set.finite_Ico w.start w.stop).wellFoundedOn
    (r := Order.Preimage mem fun a b => compare a b = true)).has_min Set.univ
      ⟨⟨w.start, le_rfl, hsize⟩, trivial⟩
  exact ⟨p, hp, fun k hk => by simpa using hleast ⟨k, hk⟩ trivial⟩

/-- A range can be put in order. -/
theorem exists_sorted (hcompare : IsStrictWeakOrder α fun a b => compare a b = true)
    (mem : Nat → α) (w : Work) : ∃ mem', PermutedWithin w mem mem' ∧
      ∀ j k, w.Covers j → w.Covers k → j < k → compare (mem' k) (mem' j) = false := by
  obtain ⟨start, stop⟩ := w
  induction hsize : stop - start generalizing start mem with
  | zero =>
    refine ⟨mem, .refl _ mem, fun j k hj hk hjk => ?_⟩
    simp only [Work.Covers] at hj hk
    omega
  | succ m ih =>
    have hlt : start < stop := by omega
    obtain ⟨p, hp, hleast⟩ := exists_least hcompare mem (w := ⟨start, stop⟩) hlt
    obtain ⟨mem', hperm, hsorted⟩ := ih (swap mem start p) (start + 1) (by omega)
    have hswap : PermutedWithin ⟨start, stop⟩ mem mem' := by
      refine (PermutedWithin.swap ⟨le_rfl, hlt⟩ hp).trans (hperm.mono ?_)
      exact fun k hk => ⟨(Nat.le_succ start).trans hk.1, hk.2⟩
    refine ⟨mem', hswap, fun j k hj hk hjk => ?_⟩
    have hk' : Work.Covers ⟨start + 1, stop⟩ k := ⟨Nat.succ_le_of_lt (hj.1.trans_lt hjk), hk.2⟩
    rcases hj.1.eq_or_lt with heq | hlt'
    · dsimp only at heq
      obtain ⟨k', hk', hvalue⟩ := hswap.inside hk
      have hfirst : mem' j = mem p := by
        rw [← heq, hperm.outside fun h => absurd h.1 (by simp), swap_apply_left]
      rw [hvalue, hfirst]
      exact hleast k' hk'
    · exact hsorted j k ⟨hlt', hj.2⟩ hk' hjk

/-- A pending worker can go on. -/
theorem exists_step_of_pending (hcompare : IsStrictWeakOrder α fun a b => compare a b = true)
    {s : State α N} {i : Fin N} (hpending : 0 < (s.workers i).pending) :
    ∃ s', Step compare s s' := by
  cases hphase : s.workers i with
  | sorting w =>
    by_cases hsize : w.stop - w.start ≤ 1
    · exact ⟨_, .skip hphase hsize⟩
    by_cases hsmall : w.stop - w.start < multiThreshold
    · obtain ⟨mem, hperm, hsorted⟩ := exists_sorted hcompare s.mem w
      exact ⟨_, .sort hphase (by omega) hsmall hperm hsorted⟩
    · exact ⟨_, .partition hphase (by omega) rfl⟩
  | splitting w pivot => exact ⟨_, .addWork hphase⟩
  | finishing => exact ⟨_, .finish hphase⟩
  | idle => simp [hphase, Phase.pending] at hpending
  | returned => simp [hphase, Phase.pending] at hpending

/-- An idle worker takes work or leaves unless it has to wait for a pending one. -/
theorem exists_step (hcompare : IsStrictWeakOrder α fun a b => compare a b = true)
    {s : State α N} (hinv : Invariant compare input n s) {i : Fin N}
    (hi : s.workers i ≠ .returned) : ∃ s', Step compare s s' := by
  by_cases hpending : ∃ j, 0 < (s.workers j).pending
  · obtain ⟨j, hj⟩ := hpending
    exact exists_step_of_pending hcompare hj
  have hzero : ∀ j, (s.workers j).pending = 0 := fun j =>
    Nat.eq_zero_of_not_pos fun hj => hpending ⟨j, hj⟩
  cases hphase : s.workers i with
  | idle =>
    cases hwork : s.worklist with
    | nil => exact ⟨_, .leave hphase hwork (hinv.pending.trans (Finset.sum_eq_zero fun j _ => hzero j))⟩
    | cons w rest => exact ⟨_, .take hphase hwork⟩
  | returned => exact absurd hphase hi
  | _ => exact absurd (hzero i) (by simp [hphase, Phase.pending])

/-- How many steps a range takes at most once it is being worked on. -/
def Work.remaining (w : Work) : Nat := 5 * (w.stop - w.start) + 3

def Phase.remaining : Phase → Nat
  | idle => 1
  | sorting w => w.remaining
  | splitting w pivot => Work.remaining ⟨w.start, pivot⟩ + Work.remaining ⟨pivot + 1, w.stop⟩ + 1
  | finishing => 2
  | returned => 0

/-- A bound on the steps that are left, of all the workers. -/
def State.remaining (s : State α N) : Nat :=
  (s.worklist.map Work.remaining).sum + ∑ i, (s.workers i).remaining

/-- The bound after a worker's change of phase. -/
theorem remaining_update (s : State α N) (mem : Nat → α) (worklist : List Work) (npending : Nat)
    (i : Fin N) (phase : Phase) :
    (State.mk mem worklist npending (Function.update s.workers i phase)).remaining +
        ((s.worklist.map Work.remaining).sum + (s.workers i).remaining) =
      s.remaining + ((worklist.map Work.remaining).sum + phase.remaining) := by
  have hsum := sum_update Phase.remaining s.workers i phase
  rw [State.remaining, State.remaining]
  dsimp only at hsum ⊢
  omega

theorem Step.remaining_lt {s s' : State α N} (h : Step compare s s') : s'.remaining < s.remaining := by
  cases h with
  | @take i w rest hidle hwork =>
    have h := remaining_update s s.mem rest (s.npending + 1) i (.sorting w)
    rw [hidle, hwork, List.map_cons, List.sum_cons] at h
    simp only [Phase.remaining] at h
    omega
  | @leave i hidle _ _ =>
    have h := remaining_update s s.mem s.worklist s.npending i .returned
    rw [hidle] at h
    simp only [Phase.remaining] at h
    omega
  | @skip i w hsort _ =>
    have h := remaining_update s s.mem s.worklist s.npending i .finishing
    rw [hsort] at h
    simp only [Phase.remaining, Work.remaining] at h
    omega
  | @sort i w mem hsort _ _ _ _ =>
    have h := remaining_update s mem s.worklist s.npending i .finishing
    rw [hsort] at h
    simp only [Phase.remaining, Work.remaining] at h
    omega
  | @partition i w pivot mem hsort hlarge hpartition =>
    have h := remaining_update s mem s.worklist s.npending i (.splitting w pivot)
    have hstart : w.Covers (w.start + (w.stop - w.start) / 2) := by
      simp only [multiThreshold] at hlarge
      exact ⟨by omega, by omega⟩
    obtain ⟨⟨hle, hlt⟩, -⟩ := partition_spec compare s.mem hstart
    rw [hpartition] at hle hlt
    rw [hsort] at h
    -- the pivot itself is in neither part, which pays for the second one
    simp only [Phase.remaining, Work.remaining] at h
    dsimp only at hle hlt
    omega
  | @addWork i w pivot hsplit =>
    have h := remaining_update s s.mem (s.worklist ++ [⟨pivot + 1, w.stop⟩]) s.npending i
      (.sorting ⟨w.start, pivot⟩)
    rw [hsplit, List.map_append, List.sum_append, List.map_singleton, List.sum_singleton] at h
    simp only [Phase.remaining] at h
    omega
  | @finish i hfinish =>
    have h := remaining_update s s.mem s.worklist (s.npending - 1) i .idle
    rw [hfinish] at h
    simp only [Phase.remaining] at h
    omega

theorem exists_returned (hcompare : IsStrictWeakOrder α fun a b => compare a b = true)
    {nThreads : Nat} {s : State α (max nThreads 1)} (hreach : Reachable compare input n nThreads s) :
    ∃ s', Relation.ReflTransGen (Step compare) s s' ∧ ∀ i, s'.workers i = .returned := by
  induction hbound : s.remaining using Nat.strong_induction_on generalizing s with
  | _ bound ih =>
    by_cases hall : ∀ i, s.workers i = .returned
    · exact ⟨s, .refl, hall⟩
    · obtain ⟨i, hi⟩ := not_forall.mp hall
      obtain ⟨s₁, hstep⟩ := exists_step hcompare (.reachable hcompare hreach) hi
      obtain ⟨s', hrun, hdone⟩ := ih _ (hbound ▸ hstep.remaining_lt) (hreach.tail hstep) rfl
      exact ⟨s', .head hstep hrun, hdone⟩

/-- Under every schedule one of the workers can go on until all have returned, and they come to
that after a bounded number of steps. -/
theorem quicksort_returns (hcompare : IsStrictWeakOrder α fun a b => compare a b = true)
    {nThreads : Nat} {s : State α (max nThreads 1)} (hreach : Reachable compare input n nThreads s) :
    (∀ s', Step compare s s' → s'.remaining < s.remaining) ∧
      ((∀ s', ¬Step compare s s') → ∀ i, s.workers i = .returned) := by
  refine ⟨fun s' h => h.remaining_lt, fun hstuck i => ?_⟩
  by_contra hi
  obtain ⟨s', h⟩ := exists_step hcompare (.reachable hcompare hreach) hi
  exact hstuck s' h

end

/-- Two workers each sort a part that a partition has left, and return. -/
theorem quicksort_sorts_partitioned :
    ∃ (pivot : Nat) (s s' : State Nat (max 2 1)),
      Reachable (fun a b => decide (a < b)) (9999 - ·) 10000 2 s ∧
      s.workers ⟨0, by decide⟩ = .sorting ⟨0, pivot⟩ ∧
      s.workers ⟨1, by decide⟩ = .sorting ⟨pivot + 1, 10000⟩ ∧
      Relation.ReflTransGen (Step fun a b => decide (a < b)) s s' ∧
      (∀ i, s'.workers i = .returned) ∧
      ((List.range 10000).map s'.mem).Perm ((List.range 10000).map (9999 - ·)) ∧
      ((List.range 10000).map s'.mem).Pairwise fun a b => decide (b < a) = false := by
  have horder : IsStrictWeakOrder Nat fun a b => decide (a < b) = true := by
    simp only [decide_eq_true_eq]
    exact isStrictWeakOrder_of_isOrderConnected
  have hrun : ∃ pivot s, Reachable (fun a b => decide (a < b)) (9999 - ·) 10000 2 s ∧
      s.workers ⟨0, by decide⟩ = .sorting ⟨0, pivot⟩ ∧
      s.workers ⟨1, by decide⟩ = .sorting ⟨pivot + 1, 10000⟩ := by
    obtain ⟨⟨pivot, mem⟩, hpartition⟩ : ∃ p, ParallelSort.partition (fun a b => decide (a < b))
        (9999 - ·) ⟨0, 10000⟩ (0 + (10000 - 0) / 2) = p := ⟨_, rfl⟩
    have htake : Step (fun a b => decide (a < b)) (initial (9999 - ·) 10000 2) _ :=
      .take (i := ⟨0, by decide⟩) rfl rfl
    have hpart := (Relation.ReflTransGen.single htake).tail
      (.partition (i := ⟨0, by decide⟩) rfl (by decide) hpartition)
    have hadd := hpart.tail (.addWork (i := ⟨0, by decide⟩) rfl)
    exact ⟨pivot, _, hadd.tail (.take (i := ⟨1, by decide⟩) rfl rfl), rfl, rfl⟩
  obtain ⟨pivot, s, hreach, hleft, hright⟩ := hrun
  obtain ⟨s', hmore, hall⟩ := exists_returned horder hreach
  obtain ⟨-, -, hperm, hdone⟩ := quicksort_sorts horder (hreach.trans hmore)
  exact ⟨pivot, s, s', hreach, hleft, hright, hmore, hall, hperm, hdone hall⟩

end LoomX.ParallelSort
