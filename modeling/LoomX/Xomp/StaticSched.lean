import LoomX.Xomp.LoopDefault

namespace LoomX.Xomp

/-- The variables of a thread that the schedule keeps. -/
structure LoopSched where
  loopChunkSize : Int
  loopSchedIndex : Int
  loopStride : Int

/-- `XOMP_static_sched_init`, where no `int` overflows. -/
def xompStaticSchedInit (lb _up step origChunkSize numThreads threadId : Int) : LoopSched :=
  let nthds := numThreads
  let loopChunkSize := origChunkSize * step
  if nthds = 1 then
    { loopSchedIndex := lb
      loopChunkSize := loopChunkSize
      loopStride := loopChunkSize * nthds }
  else
    { loopChunkSize := loopChunkSize
      loopSchedIndex := lb + loopChunkSize * threadId
      loopStride := loopChunkSize * nthds }

/-- The end of a loop from inclusive to exclusive. -/
def exclusiveEnd (loopEnd step : Int) : Int := if 0 < step then loopEnd + 1 else loopEnd - 1

/-- `XOMP_static_sched_next`: the next index of the schedule, and the bounds unless it returns 0. -/
def xompStaticSchedNext (loopSchedIndex loopEnd origStep loopStride loopChunkSize numThreads : Int) :
    Int × Option (Int × Int) :=
  let b := loopSchedIndex
  let loopEnd := exclusiveEnd loopEnd origStep
  if numThreads = 1 then
    let e := loopEnd
    -- `*ub --` and `*ub ++` move the pointer and not the bound
    if b = e then (loopSchedIndex, none) else (e, some (b, e))
  else
    let loopSchedIndex := loopSchedIndex + loopStride
    let e := b + loopChunkSize
    let e := if 0 < origStep then e - 1 else e + 1
    if 0 < loopChunkSize then
      if loopEnd ≤ b then (loopSchedIndex, none)
      else (loopSchedIndex, some (b, if loopEnd ≤ e then loopEnd else e))
    else
      if b ≤ loopEnd then (loopSchedIndex, none) else (loopSchedIndex, some (b, e))

section
variable (lower upper step chunk numThreads t : Int)

/-- A call of a thread with the index that the calls before left. -/
def schedCall (index : Int) : Int × Option (Int × Int) :=
  let sched := xompStaticSchedInit lower upper step chunk numThreads t
  xompStaticSchedNext index upper step sched.loopStride sched.loopChunkSize numThreads

/-- The index of the schedule of a thread after some calls. -/
def schedIndex : Nat → Int
  | 0 => (xompStaticSchedInit lower upper step chunk numThreads t).loopSchedIndex
  | m + 1 => (schedCall lower upper step chunk numThreads t (schedIndex m)).1

/-- The bounds that the call number `m` of a thread gives. -/
def schedBounds (m : Nat) : Option (Int × Int) :=
  (schedCall lower upper step chunk numThreads t (schedIndex lower upper step chunk numThreads t m)).2

/-- The calls after which a thread runs its body. -/
def schedRuns : Set (Int × Nat) :=
  {p | 0 ≤ p.1 ∧ p.1 < numThreads ∧
    ∀ j ≤ p.2, (schedBounds lower upper step chunk numThreads p.1 j).isSome}

/-- Every thread stops, and the threads together run every iteration once. -/
def SharesRoundRobin : Prop :=
  (∀ t, 0 ≤ t → t < numThreads → ∃ m, schedBounds lower upper step chunk numThreads t m = none) ∧
    Partitions (schedRuns lower upper step chunk numThreads)
      (fun p => (schedBounds lower upper step chunk numThreads p.1 p.2).getD (0, 0))
      lower upper step

/-- The iterations of a loop. -/
def trips : Nat :=
  if 0 < step then ((upper - lower) / step + 1).toNat else ((lower - upper) / -step + 1).toNat

/-- No chunk goes on after the end of the loop. -/
def EndsInside : Prop :=
  trips lower upper step = 0 ∨
    if numThreads = 1 then ¬step ∣ exclusiveEnd upper step - lower
    else chunk ∣ trips lower upper step ∨ 0 < step ∧ ¬step ∣ exclusiveEnd upper step - lower

end

section
variable {lower upper step chunk numThreads v : Int}

theorem lt_trips_of_pos (hs : 0 < step) (k : Nat) :
    k < trips lower upper step ↔ lower + k * step < exclusiveEnd upper step := by
  rw [trips, if_pos hs, exclusiveEnd, if_pos hs, Int.lt_toNat, Int.lt_add_one_iff,
    Int.le_ediv_iff_mul_le hs]
  constructor <;> intro h <;> omega

theorem lt_trips_of_neg (hs : step < 0) (k : Nat) :
    k < trips lower upper step ↔ exclusiveEnd upper step < lower + k * step := by
  rw [trips, if_neg (by omega), exclusiveEnd, if_neg (by omega), Int.lt_toNat, Int.lt_add_one_iff,
    Int.le_ediv_iff_mul_le (by omega), mul_neg]
  constructor <;> intro h <;> omega

theorem mem_indexValues_iff (hs : step ≠ 0) :
    v ∈ indexValues lower upper step ↔ ∃ k : Nat, v = lower + k * step ∧ k < trips lower upper step := by
  rcases lt_or_gt_of_ne hs with hneg | hpos
  · rw [mem_indexValues_of_neg hneg]
    refine exists_congr fun k => and_congr_right fun hv => ?_
    rw [lt_trips_of_neg hneg, exclusiveEnd, if_neg (by omega), hv]
    omega
  · rw [mem_indexValues_of_pos hpos]
    refine exists_congr fun k => and_congr_right fun hv => ?_
    rw [lt_trips_of_pos hpos, exclusiveEnd, if_pos hpos, hv]
    omega

variable {t : Int}

theorem schedIndex_eq (hT : numThreads ≠ 1) (m : Nat) :
    schedIndex lower upper step chunk numThreads t m =
      lower + chunk * (t + m * numThreads) * step := by
  induction m with
  | zero =>
    rw [schedIndex, xompStaticSchedInit, if_neg hT]
    push_cast
    ring
  | succ m ih =>
    have hnext : ∀ index, (schedCall lower upper step chunk numThreads t index).1 =
        index + chunk * step * numThreads := by
      intro index
      simp only [schedCall, xompStaticSchedNext, xompStaticSchedInit, if_neg hT]
      split <;> split <;> rfl
    rw [schedIndex, hnext, ih]
    push_cast
    ring

/-- The bounds of a chunk of a loop that counts up, which may end one after the loop. -/
theorem schedBounds_pos (hT : numThreads ≠ 1) (hc : 0 < chunk) (hs : 0 < step) (m : Nat)
    {b : Int} (hb : b = lower + chunk * (t + m * numThreads) * step) :
    schedBounds lower upper step chunk numThreads t m =
      if exclusiveEnd upper step ≤ b then none
      else some (b, min (exclusiveEnd upper step) (b + chunk * step - 1)) := by
  simp only [schedBounds, schedCall, xompStaticSchedNext, xompStaticSchedInit, if_neg hT,
    schedIndex_eq hT, if_pos hs, if_pos (mul_pos hc hs), ← hb, min_def]
  split <;> rfl

/-- The bounds of a chunk of a loop that counts down, which do not look at its end. -/
theorem schedBounds_neg (hT : numThreads ≠ 1) (hc : 0 < chunk) (hs : step < 0) (m : Nat)
    {b : Int} (hb : b = lower + chunk * (t + m * numThreads) * step) :
    schedBounds lower upper step chunk numThreads t m =
      if b ≤ exclusiveEnd upper step then none else some (b, b + chunk * step + 1) := by
  have hneg := mul_neg_of_pos_of_neg hc hs
  simp only [schedBounds, schedCall, xompStaticSchedNext, xompStaticSchedInit, if_neg hT,
    schedIndex_eq hT, if_neg (show ¬0 < step by omega), if_neg (show ¬0 < chunk * step by omega),
    ← hb]
  split <;> rfl

end

section
variable {lower upper step v : Int} {chunk numThreads t m : Nat}

/-- A thread of a team makes a call as long as its chunk starts in the loop. -/
theorem isSome_schedBounds (hT : numThreads ≠ 1) (hc : 0 < chunk) (hs : step ≠ 0) :
    (schedBounds lower upper step chunk numThreads t m).isSome ↔
      chunk * (t + m * numThreads) < trips lower upper step := by
  have hT' : (numThreads : Int) ≠ 1 := by exact_mod_cast hT
  have hc' : (0 : Int) < chunk := by exact_mod_cast hc
  rcases lt_or_gt_of_ne hs with hneg | hpos
  · rw [schedBounds_neg hT' hc' hneg m rfl, lt_trips_of_neg hneg]
    push_cast
    split
    next hle => simpa using hle
    next hlt => simpa using hlt
  · rw [schedBounds_pos hT' hc' hpos m rfl, lt_trips_of_pos hpos]
    push_cast
    split
    next hle => simpa using hle
    next hlt => simpa using hlt

/-- The iterations of a chunk, counted from its start and from the start of the loop. -/
theorem exists_in_chunk (hc : 0 < chunk) {n : Nat} :
    (∃ i : Nat, v = lower + chunk * n * step + i * step ∧ i < chunk) ↔
      ∃ k : Nat, v = lower + k * step ∧ k / chunk = n := by
  constructor
  · rintro ⟨i, rfl, hi⟩
    refine ⟨chunk * n + i, ?_, ?_⟩
    · push_cast
      ring
    · rw [Nat.mul_add_div (by omega), Nat.div_eq_of_lt hi, Nat.add_zero]
  · rintro ⟨k, rfl, rfl⟩
    refine ⟨k % chunk, ?_, Nat.mod_lt k hc⟩
    have hk : (k : Int) = chunk * (k / chunk : Nat) + (k % chunk : Nat) := by
      exact_mod_cast (Nat.div_add_mod k chunk).symm
    rw [add_assoc, ← add_mul, ← hk]

/-- The iterations that a chunk runs. -/
theorem mem_schedBounds (hT : numThreads ≠ 1) (hc : 0 < chunk) (hs : step ≠ 0)
    {r : Int × Int} (hr : schedBounds lower upper step chunk numThreads t m = some r) :
    v ∈ indexValues r.1 r.2 step ↔ ∃ k : Nat, v = lower + k * step ∧
      k / chunk = t + m * numThreads ∧ (0 < step → v ≤ exclusiveEnd upper step) := by
  have hT' : (numThreads : Int) ≠ 1 := by exact_mod_cast hT
  have hc' : (0 : Int) < chunk := by exact_mod_cast hc
  have hstart : lower + chunk * (t + m * numThreads) * step =
      lower + chunk * (t + m * numThreads : Nat) * step := by
    push_cast
    ring
  simp only [← and_assoc, exists_and_right]
  rw [← exists_in_chunk hc]
  rcases lt_or_gt_of_ne hs with hneg | hpos
  · rw [schedBounds_neg hT' hc' hneg m hstart.symm] at hr
    split at hr
    next => cases hr
    next =>
      cases hr
      rw [mem_indexValues_of_neg hneg]
      simp only [show ¬0 < step by omega, false_imp_iff, and_true]
      refine exists_congr fun i => and_congr_right fun hv => ?_
      have hlt : chunk * step < i * step ↔ (i : Int) < chunk := mul_lt_mul_right_of_neg hneg
      omega
  · rw [schedBounds_pos hT' hc' hpos m hstart.symm] at hr
    split at hr
    next => cases hr
    next =>
      cases hr
      rw [mem_indexValues_of_pos hpos]
      simp only [hpos, true_imp_iff, ← exists_and_right]
      refine exists_congr fun i => ?_
      have hlt : i * step < chunk * step ↔ (i : Int) < chunk := mul_lt_mul_iff_left₀ hpos
      rw [le_min_iff, and_assoc]
      refine and_congr_right fun hv => ?_
      omega

/-- The threads of a team run the chunks that start in the loop. -/
theorem mem_schedRuns (hT : numThreads ≠ 1) (hc : 0 < chunk) (hs : step ≠ 0) :
    ((t : Int), m) ∈ schedRuns lower upper step chunk numThreads ↔
      t < numThreads ∧ chunk * (t + m * numThreads) < trips lower upper step := by
  simp only [schedRuns, Set.mem_ofPred_eq, isSome_schedBounds hT hc hs, Int.natCast_nonneg,
    true_and, Nat.cast_lt]
  refine and_congr_right fun _ => ⟨fun h => h m le_rfl, fun h j hj => ?_⟩
  exact (Nat.mul_le_mul_left _ (Nat.add_le_add_left (Nat.mul_le_mul_right _ hj) _)).trans_lt h

/-- The chunk of an iteration is run by one thread of the team. -/
theorem mem_schedRuns_of_lt (hT : 1 < numThreads) (hc : 0 < chunk) (hs : step ≠ 0) {k : Nat}
    (hk : chunk * (k / chunk) < trips lower upper step) :
    (((k / chunk % numThreads : Nat) : Int), k / chunk / numThreads) ∈
      schedRuns lower upper step chunk numThreads := by
  rw [mem_schedRuns hT.ne' hc hs, Nat.mod_add_div']
  exact ⟨Nat.mod_lt _ (by omega), hk⟩

/-- The values for which a thread of a team runs its body after a call. -/
theorem mem_run (hT : numThreads ≠ 1) (hc : 0 < chunk) (hs : step ≠ 0)
    (hrun : ((t : Int), m) ∈ schedRuns lower upper step chunk numThreads) :
    v ∈ indexValues ((schedBounds lower upper step chunk numThreads t m).getD (0, 0)).1
        ((schedBounds lower upper step chunk numThreads t m).getD (0, 0)).2 step ↔
      ∃ k : Nat, v = lower + k * step ∧ k / chunk = t + m * numThreads ∧
        (0 < step → v ≤ exclusiveEnd upper step) := by
  obtain ⟨r, hr⟩ := Option.isSome_iff_exists.mp (hrun.2.2 m le_rfl)
  rw [hr, Option.getD_some]
  exact mem_schedBounds hT hc hs hr

/-- Every thread of a team stops. -/
theorem exists_schedBounds_none (hT : 1 < numThreads) (hc : 0 < chunk) (hs : step ≠ 0) :
    ∃ m, schedBounds lower upper step chunk numThreads t m = none := by
  refine ⟨trips lower upper step, ?_⟩
  rw [← Option.not_isSome_iff_eq_none, isSome_schedBounds (by omega) hc hs, not_lt]
  calc trips lower upper step ≤ trips lower upper step * numThreads :=
        Nat.le_mul_of_pos_right _ (by omega)
    _ ≤ t + trips lower upper step * numThreads := Nat.le_add_left _ _
    _ ≤ chunk * (t + trips lower upper step * numThreads) := Nat.le_mul_of_pos_left _ hc

/-- An iteration of the chunk at the end of the loop that is no iteration of the loop. -/
def Overruns (lower upper step : Int) (chunk k : Nat) : Prop :=
  trips lower upper step ≤ k ∧ chunk * (k / chunk) < trips lower upper step ∧
    (0 < step → lower + k * step ≤ exclusiveEnd upper step)

theorem sharesRoundRobin_team (hT : 1 < numThreads) (hc : 0 < chunk) (hs : step ≠ 0) :
    SharesRoundRobin lower upper step chunk numThreads ↔
      ∀ k, ¬Overruns lower upper step chunk k := by
  have hT' : numThreads ≠ 1 := hT.ne'
  constructor
  · rintro ⟨-, hparts⟩ k ⟨hk, hchunk, hend⟩
    have hrun := mem_schedRuns_of_lt hT hc hs hchunk
    have hin := (hparts (lower + k * step)).2 _ hrun
      ((mem_run hT' hc hs hrun).mpr ⟨k, rfl, (Nat.mod_add_div' _ _).symm, hend⟩)
    obtain ⟨j, hj, hlt⟩ := (mem_indexValues_iff hs).mp hin
    have heq : (k : Int) = j := mul_right_cancel₀ hs (by omega)
    omega
  · intro hover
    refine ⟨fun t ht _ => ?_, fun v => ⟨fun hv => ?_, ?_⟩⟩
    · obtain ⟨t, rfl⟩ := Int.eq_ofNat_of_zero_le ht
      exact exists_schedBounds_none hT hc hs
    · obtain ⟨k, rfl, hk⟩ := (mem_indexValues_iff hs).mp hv
      have hrun := mem_schedRuns_of_lt hT hc hs ((Nat.mul_div_le k chunk).trans_lt hk)
      have hin := mem_run hT' hc hs hrun (v := lower + k * step)
      refine ⟨_, ⟨hrun, hin.mpr ⟨k, rfl, (Nat.mod_add_div' _ _).symm, fun hpos => ?_⟩⟩, ?_⟩
      · exact ((lt_trips_of_pos hpos k).mp hk).le
      · rintro ⟨t, m⟩ ⟨hrun', hv'⟩
        obtain ⟨t, rfl⟩ := Int.eq_ofNat_of_zero_le hrun'.1
        obtain ⟨j, hj, hchunk, -⟩ := (mem_run hT' hc hs hrun').mp hv'
        have hkj : (k : Int) = j := mul_right_cancel₀ hs (by omega)
        have ht := ((mem_schedRuns hT' hc hs).mp hrun').1
        rw [show k = j by omega, hchunk, Nat.add_mul_mod_self_right, Nat.mod_eq_of_lt ht,
          Nat.add_mul_div_right _ _ (by omega), Nat.div_eq_of_lt ht, Nat.zero_add]
    · rintro ⟨t, m⟩ hrun hv
      obtain ⟨t, rfl⟩ := Int.eq_ofNat_of_zero_le hrun.1
      obtain ⟨k, rfl, hchunk, hend⟩ := (mem_run hT' hc hs hrun).mp hv
      refine (mem_indexValues_iff hs).mpr ⟨k, rfl, ?_⟩
      by_contra hk
      refine hover k ⟨not_lt.mp hk, ?_, hend⟩
      rw [hchunk]
      exact ((mem_schedRuns hT' hc hs).mp hrun).2

theorem forall_not_overruns_iff (hc : 0 < chunk) :
    (∀ k, ¬Overruns lower upper step chunk k) ↔
      trips lower upper step = 0 ∨ chunk ∣ trips lower upper step ∨
        0 < step ∧ ¬step ∣ exclusiveEnd upper step - lower := by
  constructor
  · intro h
    by_contra hnot
    simp only [not_or, not_and, not_not] at hnot
    obtain ⟨hzero, hdvd, hend⟩ := hnot
    -- the first iteration after the loop is in the same chunk as the last one of the loop
    refine h (trips lower upper step) ⟨le_rfl, ?_, fun hpos => ?_⟩
    · refine (Nat.mul_div_le _ _).lt_of_ne fun heq => hdvd ⟨_, heq.symm⟩
    · obtain ⟨q, hq⟩ := hend hpos
      obtain ⟨n, hn⟩ := Nat.exists_eq_succ_of_ne_zero hzero
      have hlast : lower + n * step < exclusiveEnd upper step :=
        (lt_trips_of_pos hpos n).mp (by omega)
      have hq' : n * step < q * step := by
        rw [mul_comm q]
        omega
      have hlt := (mul_lt_mul_iff_left₀ hpos).mp hq'
      have hle : (trips lower upper step : Int) * step ≤ q * step :=
        mul_le_mul_of_nonneg_right (by omega) hpos.le
      rw [mul_comm q] at hle
      omega
  · rintro h k ⟨hk, hchunk, hend⟩
    rcases h with hzero | ⟨d, hd⟩ | ⟨hpos, hend'⟩
    · omega
    · rw [hd] at hk hchunk
      have hlt := Nat.lt_of_mul_lt_mul_left hchunk
      exact absurd ((Nat.le_div_iff_mul_le hc).mpr (by rwa [mul_comm])) (not_le.mpr hlt)
    · have hge := (lt_trips_of_pos hpos k).not.mp (not_lt.mpr hk)
      exact hend' ⟨k, by rw [mul_comm]; have := hend hpos; omega⟩

end

section
variable {lower upper step chunk t v : Int}

theorem schedBounds_zero_single :
    schedBounds lower upper step chunk 1 t 0 =
      if lower = exclusiveEnd upper step then none
      else some (lower, exclusiveEnd upper step) := by
  simp only [schedBounds, schedCall, schedIndex, xompStaticSchedInit, xompStaticSchedNext, if_true]
  split <;> rfl

/-- A single thread makes one call at most. -/
theorem schedBounds_one_single : schedBounds lower upper step chunk 1 t 1 = none := by
  have hindex : schedIndex lower upper step chunk 1 t 1 = exclusiveEnd upper step := by
    simp only [schedIndex, schedCall, xompStaticSchedInit, xompStaticSchedNext, if_true]
    split
    next heq => exact heq
    next => rfl
  simp only [schedBounds, hindex, schedCall, xompStaticSchedNext, if_true]

theorem mem_schedRuns_single {p : Int × Nat} :
    p ∈ schedRuns lower upper step chunk 1 ↔ p = (0, 0) ∧ lower ≠ exclusiveEnd upper step := by
  obtain ⟨t, m⟩ := p
  constructor
  · rintro ⟨ht, ht', hall⟩
    have hzero := hall 0 (Nat.zero_le _)
    rw [schedBounds_zero_single] at hzero
    split at hzero
    next => cases hzero
    next hne =>
      refine ⟨?_, hne⟩
      have hm : m = 0 := by
        by_contra hm
        have hone := hall 1 (Nat.one_le_iff_ne_zero.mpr hm)
        rw [schedBounds_one_single] at hone
        cases hone
      ext <;> simp <;> omega
  · rintro ⟨heq, hne⟩
    cases heq
    refine ⟨le_rfl, one_pos, fun j hj => ?_⟩
    obtain rfl := Nat.le_zero.mp hj
    rw [schedBounds_zero_single, if_neg hne]
    rfl

/-- A single thread runs up to the exclusive end. -/
theorem mem_exclusiveEnd (hs : step ≠ 0) :
    v ∈ indexValues lower (exclusiveEnd upper step) step ↔
      ∃ k : Nat, v = lower + k * step ∧
        (k < trips lower upper step ∨ v = exclusiveEnd upper step) := by
  rcases lt_or_gt_of_ne hs with hneg | hpos
  · rw [mem_indexValues_of_neg hneg]
    refine exists_congr fun k => and_congr_right fun hv => ?_
    rw [lt_trips_of_neg hneg, hv]
    omega
  · rw [mem_indexValues_of_pos hpos]
    refine exists_congr fun k => and_congr_right fun hv => ?_
    rw [lt_trips_of_pos hpos, hv]
    omega

theorem ne_exclusiveEnd_of_lt (hs : step ≠ 0) {k : Nat} (hk : k < trips lower upper step) :
    lower + k * step ≠ exclusiveEnd upper step := by
  rcases lt_or_gt_of_ne hs with hneg | hpos
  · exact ((lt_trips_of_neg hneg k).mp hk).ne'
  · exact ((lt_trips_of_pos hpos k).mp hk).ne

/-- The values for which a single thread runs its body. -/
theorem mem_run_single (hs : step ≠ 0) {p : Int × Nat}
    (hp : p ∈ schedRuns lower upper step chunk 1) :
    v ∈ indexValues ((schedBounds lower upper step chunk 1 p.1 p.2).getD (0, 0)).1
        ((schedBounds lower upper step chunk 1 p.1 p.2).getD (0, 0)).2 step ↔
      ∃ k : Nat, v = lower + k * step ∧
        (k < trips lower upper step ∨ v = exclusiveEnd upper step) := by
  obtain ⟨rfl, hne⟩ := mem_schedRuns_single.mp hp
  rw [schedBounds_zero_single, if_neg hne]
  exact mem_exclusiveEnd hs

theorem eq_exclusiveEnd_of_trips_eq_zero (hs : step ≠ 0) (hzero : trips lower upper step = 0)
    {k : Nat} (hk : exclusiveEnd upper step = lower + k * step) :
    lower = exclusiveEnd upper step := by
  rcases lt_or_gt_of_ne hs with hneg | hpos
  · have hle := (lt_trips_of_neg hneg 0).not.mp hzero.not_gt
    have hk' : k * step ≤ 0 := mul_nonpos_of_nonneg_of_nonpos (Int.natCast_nonneg k) hneg.le
    push_cast at hle
    omega
  · have hle := (lt_trips_of_pos hpos 0).not.mp hzero.not_gt
    have hk' : 0 ≤ k * step := mul_nonneg (Int.natCast_nonneg k) hpos.le
    push_cast at hle
    omega

/-- The exclusive end comes after the values of the loop. -/
theorem exists_exclusiveEnd (hs : step ≠ 0) (hpos : 0 < trips lower upper step)
    (hdvd : step ∣ exclusiveEnd upper step - lower) :
    ∃ k : Nat, exclusiveEnd upper step = lower + k * step := by
  obtain ⟨q, hq⟩ := hdvd
  have hnonneg : 0 ≤ q := by
    rcases lt_or_gt_of_ne hs with hs | hs
    · have hlt := (lt_trips_of_neg hs 0).mp hpos
      exact (pos_of_mul_neg_right (a := step) (by push_cast at hlt; omega) hs.le).le
    · have hlt := (lt_trips_of_pos hs 0).mp hpos
      exact (pos_of_mul_pos_right (a := step) (by push_cast at hlt; omega) hs.le).le
  obtain ⟨k, rfl⟩ := Int.eq_ofNat_of_zero_le hnonneg
  exact ⟨k, by rw [mul_comm]; omega⟩

theorem sharesRoundRobin_single (hs : step ≠ 0) :
    SharesRoundRobin lower upper step chunk 1 ↔
      trips lower upper step = 0 ∨ ¬step ∣ exclusiveEnd upper step - lower := by
  constructor
  · rintro ⟨-, hparts⟩
    by_contra hnot
    obtain ⟨hzero, hdvd⟩ := not_or.mp hnot
    have hpos := Nat.pos_of_ne_zero hzero
    obtain ⟨k, hk⟩ := exists_exclusiveEnd hs hpos (not_not.mp hdvd)
    have hne : lower ≠ exclusiveEnd upper step := by simpa using ne_exclusiveEnd_of_lt hs hpos
    have hrun : (0, 0) ∈ schedRuns lower upper step chunk 1 := mem_schedRuns_single.mpr ⟨rfl, hne⟩
    have hin := (hparts (exclusiveEnd upper step)).2 _ hrun
      ((mem_run_single hs hrun).mpr ⟨k, hk, .inr rfl⟩)
    obtain ⟨j, hj, hlt⟩ := (mem_indexValues_iff hs).mp hin
    exact ne_exclusiveEnd_of_lt hs hlt hj.symm
  · intro h
    refine ⟨fun t _ _ => ⟨1, schedBounds_one_single⟩, fun v => ⟨fun hv => ?_, fun p hp => ?_⟩⟩
    · obtain ⟨k, hk, hlt⟩ := (mem_indexValues_iff hs).mp hv
      have hne : lower ≠ exclusiveEnd upper step := by
        simpa using ne_exclusiveEnd_of_lt hs (Nat.zero_lt_of_lt hlt)
      have hrun : (0, 0) ∈ schedRuns lower upper step chunk 1 :=
        mem_schedRuns_single.mpr ⟨rfl, hne⟩
      exact ⟨_, ⟨hrun, (mem_run_single hs hrun).mpr ⟨k, hk, .inl hlt⟩⟩, fun p hp =>
        (mem_schedRuns_single.mp hp.1).1⟩
    · intro hv
      obtain ⟨k, hk, hlt | hend⟩ := (mem_run_single hs hp).mp hv
      · exact (mem_indexValues_iff hs).mpr ⟨k, hk, hlt⟩
      · exfalso
        rw [hend] at hk
        rcases h with hzero | hdvd
        · exact (mem_schedRuns_single.mp hp).2 (eq_exclusiveEnd_of_trips_eq_zero hs hzero hk)
        · exact hdvd ⟨k, by rw [mul_comm]; omega⟩

/-- The round-robin schedule shares out the loop exactly when no chunk goes on after its end. -/
theorem sharesRoundRobin_iff {numThreads : Int} (hs : step ≠ 0) (hc : 1 ≤ chunk)
    (hT : 1 ≤ numThreads) :
    SharesRoundRobin lower upper step chunk numThreads ↔
      EndsInside lower upper step chunk numThreads := by
  unfold EndsInside
  split
  next hone =>
    subst hone
    exact sharesRoundRobin_single hs
  next hone =>
    obtain ⟨c, rfl⟩ := Int.eq_ofNat_of_zero_le (by omega : 0 ≤ chunk)
    obtain ⟨n, rfl⟩ := Int.eq_ofNat_of_zero_le (by omega : 0 ≤ numThreads)
    rw [Int.natCast_dvd_natCast, sharesRoundRobin_team (by omega) (by omega) hs,
      forall_not_overruns_iff (by omega)]

/-- Five chunks of two iterations for three threads. -/
theorem sharesRoundRobin_ten : SharesRoundRobin 0 9 1 2 3 :=
  (sharesRoundRobin_iff (by decide) (by decide) (by decide)).mpr (.inr (.inl (by decide)))

/-- A single thread runs one iteration too many. -/
theorem singleThread_overruns : ¬SharesRoundRobin 0 9 1 1 1 := by
  rintro ⟨-, hparts⟩
  have hrun : ((0 : Int), 0) ∈ schedRuns 0 9 1 1 1 :=
    ⟨le_rfl, by decide, fun j hj => by obtain rfl := Nat.le_zero.mp hj; decide⟩
  obtain ⟨k, hk, hle⟩ := (hparts 10).2 _ hrun ⟨10, by decide, by decide⟩
  simp at hle

end

end LoomX.Xomp
