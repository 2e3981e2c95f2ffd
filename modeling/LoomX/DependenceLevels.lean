import LoomX.DepInfo

namespace LoomX

inductive DepType
  | unknown
  | trueDep
  | anti
  | output
  | scalar
  | backScalar
  | input
  | array
  | io
  | data
  | ctrl
  | backCtrl
  | all
  | trans
  deriving DecidableEq

/-- A dependence matrix with the type that `GetDepType` gives. -/
structure TypedDepInfo extends DepInfo where
  depType : DepType

namespace DepRel

/-- What `IsValidDep` finds out from one relation, if anything. -/
def verdict (r : DepRel) : Option Bool :=
  match r.getDirType with
  | .none => some true
  | .le | .eq => if r.getMaxAlign < 0 then some true else none
  | .ge | .all => some false
  | .ne => none

/-- Whether a dependence may be carried by the level of the relation, and may be not. -/
def carries (r : DepRel) : Bool × Bool :=
  match r.getDirType with
  | .eq =>
    if r.getMinAlign = 0 ∧ r.getMaxAlign = 0 then (false, true)
    else if 0 < r.getMinAlign ∨ r.getMaxAlign < 0 then (true, false)
    else (true, true)
  | .le => if r.getMaxAlign < 0 then (true, false) else (true, true)
  | .ge => if 0 < r.getMinAlign then (false, false) else (true, true)
  | _ => (true, true)

end DepRel

namespace DepInfo

/-- The loop of `IsValidDep` over the levels that remain. -/
def validFrom (d : DepInfo) (level : Nat) : Nat → Bool
  | 0 => true
  | remaining + 1 =>
    match (d.entry level level).verdict with
    | some valid => valid
    | none => d.validFrom (level + 1) remaining

/-- The loop of `CarryLevels` over the levels that remain, with the bounds so far. -/
def carryFrom (d : DepInfo) (level : Nat) : Nat → Int × Int → Int × Int
  | 0, bounds => bounds
  | remaining + 1, (minLevel, _) =>
    let (carry, notcarry) := (d.entry level level).carries
    -- the upper bound is set in all branches
    let bounds := (if carry ∧ minLevel < 0 then (level : Int) else minLevel, (level : Int))
    if notcarry then d.carryFrom (level + 1) remaining bounds else bounds

/-- A vector of distances that the diagonal relations allow. -/
def OnDiagonal (d : DepInfo) (num : Nat) (v : Nat → Int) : Prop :=
  ∀ i < num, v i ∈ (d.entry i i).members

end DepInfo

/-- The vector is zero, or its first component that is not zero is negative. -/
def IsForward (num : Nat) (v : Nat → Int) : Prop :=
  (∀ i < num, v i = 0) ∨ ∃ k < num, (∀ i < k, v i = 0) ∧ v k < 0

namespace TypedDepInfo

def isValidDep (d : TypedDepInfo) (num : Nat) : Bool :=
  if d.depType = .io then true else d.validFrom 0 num

def carryLevels (d : TypedDepInfo) : Int × Int :=
  let num := d.commonLevel
  let (minLevel, maxLevel) := d.carryFrom 0 num (-1, -1)
  if minLevel < 0 then
    if d.depType = .backScalar then ((num : Int) - 1, (num : Int) - 1) else ((num : Int), (num : Int))
  else (minLevel, maxLevel)

end TypedDepInfo

theorem isForward_iff {num : Nat} {v : Nat → Int} :
    IsForward num v ↔ ∀ k < num, (∀ i < k, v i = 0) → v k ≤ 0 := by
  constructor
  · intro h k hk hzero
    obtain h | ⟨l, _, hbefore, hneg⟩ := h
    · exact (h k hk).le
    · obtain hlt | rfl | hgt := Nat.lt_trichotomy k l
      · exact (hbefore k hlt).le
      · exact hneg.le
      · rw [hzero l hgt] at hneg
        exact absurd hneg (Int.lt_irrefl 0)
  · intro h
    by_cases hall : ∀ i < num, v i = 0
    · exact Or.inl hall
    · push Not at hall
      obtain ⟨⟨hk, hne⟩, hfirst⟩ := Nat.find_spec hall, fun i => Nat.find_min (m := i) hall
      have hbefore : ∀ i < Nat.find hall, v i = 0 := fun i hi => by
        by_contra hvi
        exact hfirst i hi ⟨hi.trans hk, hvi⟩
      have hle := h _ hk hbefore
      exact Or.inr ⟨_, hk, hbefore, lt_of_le_of_ne hle hne⟩

namespace DepRel

variable {r : DepRel} {x : Int}

/-- A relation that decides nothing bounds its distances from above, not by a negative number. -/
theorem bounded_of_verdict (h : r.verdict = none) :
    (r.getDirType = .le ∨ r.getDirType = .eq) ∧ 0 ≤ r.getMaxAlign := by
  have hne := getDirType_ne_ne r
  unfold verdict at h
  cases ht : r.getDirType with
  | le | eq =>
    rw [ht] at h
    simpa using h
  | ne => exact absurd ht hne
  | none | ge | all =>
    rw [ht] at h
    cases h

theorem le_max_of_verdict (h : r.verdict = none) (hx : x ∈ r.members) : x ≤ r.getMaxAlign := by
  obtain ⟨ht | ht, -⟩ := bounded_of_verdict h
  · exact (mem_iff.mp hx).2.2 (by rw [ht]; rfl)
  · exact (mem_iff.mp hx).2.2 (by rw [ht]; rfl)

/-- The greatest distance of such a relation is one of its distances. -/
theorem max_mem_of_verdict (h : r.verdict = none) (hx : x ∈ r.members) :
    r.getMaxAlign ∈ r.members := by
  have hle := le_max_of_verdict h hx
  obtain ⟨hne, hmin, -⟩ := mem_iff.mp hx
  exact mem_iff.mpr ⟨hne, fun hb => (hmin hb).trans hle, fun _ => Int.le_refl _⟩

/-- A relation with a distance that is not negative does not make a dependence valid. -/
theorem verdict_ne_true (hx : x ∈ r.members) (hnonneg : 0 ≤ x) : r.verdict ≠ some true := by
  obtain ⟨hne, -, hmax⟩ := mem_iff.mp hx
  unfold verdict
  cases ht : r.getDirType with
  | none => exact absurd ht hne
  | le | eq =>
    have hle : x ≤ r.getMaxAlign := hmax (by rw [ht]; rfl)
    have hmaxnonneg : ¬r.getMaxAlign < 0 := by omega
    simp [hmaxnonneg]
  | ge | ne | all => simp

theorem notcarry_of_zero_mem (h : 0 ∈ r.members) : r.carries.2 = true := by
  obtain ⟨hne, hmin, hmax⟩ := mem_iff.mp h
  unfold carries
  cases ht : r.getDirType with
  | none => exact absurd ht hne
  | eq =>
    have hlo : r.getMinAlign ≤ 0 := hmin (by rw [ht]; rfl)
    have hhi : 0 ≤ r.getMaxAlign := hmax (by rw [ht]; rfl)
    have hno : ¬(0 < r.getMinAlign ∨ r.getMaxAlign < 0) := by omega
    simp only [hno, if_false]
    split <;> rfl
  | le =>
    have hhi : 0 ≤ r.getMaxAlign := hmax (by rw [ht]; rfl)
    have hno : ¬r.getMaxAlign < 0 := by omega
    simp [hno]
  | ge =>
    have hlo : r.getMinAlign ≤ 0 := hmin (by rw [ht]; rfl)
    have hno : ¬0 < r.getMinAlign := by omega
    simp [hno]
  | ne | all => rfl

theorem carry_of_negative_mem (h : x ∈ r.members) (hx : x < 0) : r.carries.1 = true := by
  obtain ⟨hne, hmin, -⟩ := mem_iff.mp h
  unfold carries
  cases ht : r.getDirType with
  | none => exact absurd ht hne
  | eq =>
    have hlo : r.getMinAlign ≤ x := hmin (by rw [ht]; rfl)
    have hno : ¬(r.getMinAlign = 0 ∧ r.getMaxAlign = 0) := by omega
    simp only [hno, if_false]
    split <;> rfl
  | ge =>
    have hlo : r.getMinAlign ≤ x := hmin (by rw [ht]; rfl)
    have hno : ¬0 < r.getMinAlign := by omega
    simp [hno]
  | le =>
    dsimp only
    split <;> rfl
  | ne | all => rfl

end DepRel

namespace DepInfo

variable {d : DepInfo} {v : Nat → Int}

/-- A scan that accepts meets no relation that rejects before one that accepts. -/
theorem verdict_of_validFrom {level remaining k : Nat} (h : d.validFrom level remaining = true)
    (hlevel : level ≤ k) (hk : k < level + remaining)
    (hbefore : ∀ i, level ≤ i → i < k → (d.entry i i).verdict = none) :
    (d.entry k k).verdict ≠ some false := by
  induction remaining generalizing level with
  | zero => omega
  | succ remaining ih =>
    obtain rfl | hlt := Nat.eq_or_lt_of_le hlevel
    · intro hfalse
      simp [validFrom, hfalse] at h
    · rw [validFrom, hbefore level (Nat.le_refl level) hlt] at h
      exact ih h hlt (by omega) fun i hi hik => hbefore i (by omega) hik

/-- An accepted scan decides nothing at levels with zero distances, nor at a positive one. -/
theorem verdict_none_of_validFrom {num k : Nat} (h : d.validFrom 0 num = true) (hk : k < num)
    (hv : d.OnDiagonal num v) (hzero : ∀ i < k, v i = 0) (hpos : 0 ≤ v k) :
    ∀ i ≤ k, (d.entry i i).verdict = none := by
  intro i
  induction i using Nat.strong_induction_on with
  | _ i ih =>
    intro hi
    have hnonneg : 0 ≤ v i := by
      obtain rfl | hlt := Nat.eq_or_lt_of_le hi
      · exact hpos
      · exact (hzero i hlt).ge
    have htrue := DepRel.verdict_ne_true (hv i (by omega)) hnonneg
    have hfalse := verdict_of_validFrom h (Nat.zero_le i) (by omega)
      fun j _ hj => ih j hj (by omega)
    cases hverdict : (d.entry i i).verdict with
    | none => rfl
    | some valid =>
      cases valid with
      | true => exact absurd hverdict htrue
      | false => exact absurd hverdict hfalse

/-- The first positive greatest distance that a scan passes over, with zeros before it. -/
theorem exists_positive {num : Nat} (hmembers : ∀ i < num, ∃ x, x ∈ (d.entry i i).members)
    (h : ∃ i < num, (∀ j ≤ i, (d.entry j j).verdict = none) ∧ 0 < (d.entry i i).getMaxAlign) :
    ∃ v, d.OnDiagonal num v ∧ ∃ k < num, (∀ i < k, v i = 0) ∧ 0 < v k := by
  classical
  obtain ⟨⟨hk, hverdict, hpos⟩, hfirst⟩ := Nat.find_spec h, fun i => Nat.find_min (m := i) h
  generalize Nat.find h = k at hk hverdict hpos hfirst
  have hmax : ∀ i < k, (d.entry i i).getMaxAlign = 0 := fun i hi => by
    have hnone := hverdict i hi.le
    have hnonneg := (DepRel.bounded_of_verdict hnone).2
    by_contra hne
    exact hfirst i hi ⟨hi.trans hk, fun j hj => hverdict j (by omega), by omega⟩
  choose x hx using hmembers
  let v : Nat → Int := fun i =>
    if i ≤ k then (d.entry i i).getMaxAlign else if hi : i < num then x i hi else 0
  refine ⟨v, fun i hi => ?_, k, hk, fun i hi => ?_, ?_⟩
  · by_cases hle : i ≤ k
    · have hvi : v i = (d.entry i i).getMaxAlign := if_pos hle
      rw [hvi]
      exact DepRel.max_mem_of_verdict (hverdict i hle) (hx i hi)
    · have hvi : v i = x i hi := by simp [v, hle, hi]
      rw [hvi]
      exact hx i hi
  · have hvi : v i = (d.entry i i).getMaxAlign := if_pos hi.le
    rw [hvi, hmax i hi]
  · have hvk : v k = (d.entry k k).getMaxAlign := if_pos (Nat.le_refl k)
    rwa [hvk]

theorem carryFrom_fst {level remaining : Nat} {bounds : Int × Int} (h : 0 ≤ bounds.1) :
    (d.carryFrom level remaining bounds).1 = bounds.1 := by
  induction remaining generalizing level bounds with
  | zero => rfl
  | succ remaining ih =>
    have hno : ¬bounds.1 < 0 := by omega
    simp only [carryFrom, hno, and_false, if_false]
    split
    · have hrest := @ih (level + 1) (bounds.1, (level : Int)) h
      exact hrest
    · rfl

theorem le_carryFrom_snd {level remaining : Nat} {bounds : Int × Int} (h : bounds.2 ≤ level) :
    bounds.2 ≤ (d.carryFrom level remaining bounds).2 := by
  induction remaining generalizing level bounds with
  | zero => exact Int.le_refl _
  | succ remaining ih =>
    simp only [carryFrom]
    split
    · exact h.trans (ih (by simp))
    · exact h

/-- The scan reaches the level of the first distance that is not zero, and takes it as carrying. -/
theorem carryFrom_bracket {level remaining k : Nat} {bounds : Int × Int} (hlevel : level ≤ k)
    (hk : k < level + remaining) (hmin : bounds.1 ≤ k)
    (hzero : ∀ i, level ≤ i → i < k → 0 ∈ (d.entry i i).members) {x : Int}
    (hx : x ∈ (d.entry k k).members) (hneg : x < 0) :
    0 ≤ (d.carryFrom level remaining bounds).1 ∧ (d.carryFrom level remaining bounds).1 ≤ k ∧
      k ≤ (d.carryFrom level remaining bounds).2 := by
  induction remaining generalizing level bounds with
  | zero => omega
  | succ remaining ih =>
    obtain ⟨minLevel, maxLevel⟩ := bounds
    obtain rfl | hlt := Nat.eq_or_lt_of_le hlevel
    · have hcarry := DepRel.carry_of_negative_mem hx hneg
      obtain ⟨lo, hlo⟩ : ∃ lo, (if (d.entry level level).carries.1 = true ∧ minLevel < 0
          then (level : Int) else minLevel) = lo := ⟨_, rfl⟩
      have hlomin : 0 ≤ lo ∧ lo ≤ level := by
        rw [← hlo]
        simp only [hcarry, true_and]
        dsimp only at hmin
        split <;> omega
      simp only [carryFrom, hlo]
      split
      · have hfst := @carryFrom_fst d (level + 1) remaining (lo, (level : Int)) hlomin.1
        have hsnd := @le_carryFrom_snd d (level + 1) remaining (lo, (level : Int)) (by simp)
        rw [hfst]
        exact ⟨hlomin.1, hlomin.2, hsnd⟩
      · exact ⟨hlomin.1, hlomin.2, Int.le_refl _⟩
    · have hnotcarry := DepRel.notcarry_of_zero_mem (hzero level (Nat.le_refl level) hlt)
      simp only [carryFrom, hnotcarry, if_true]
      refine ih hlt (by omega) ?_ fun i hi hik => hzero i (by omega) hik
      dsimp only at hmin ⊢
      split <;> omega

end DepInfo

/-- An accepted dependence is forward exactly if it has no distances at all, or the relations that
the scan passes over allow no positive one. -/
theorem isValidDep_forward_iff {d : TypedDepInfo} {num : Nat} (htype : d.depType ≠ .io)
    (hvalid : d.isValidDep num = true) :
    (∀ v, d.OnDiagonal num v → IsForward num v) ↔
      (∃ i < num, (d.entry i i).members = ∅) ∨
        ∀ i < num, (∀ j ≤ i, (d.entry j j).verdict = none) → (d.entry i i).getMaxAlign ≤ 0 := by
  rw [TypedDepInfo.isValidDep, if_neg htype] at hvalid
  constructor
  · intro hforward
    by_contra hno
    push Not at hno
    obtain ⟨hmembers, hpositive⟩ := hno
    obtain ⟨v, hv, k, hk, hzero, hpos⟩ := DepInfo.exists_positive hmembers hpositive
    have hle := isForward_iff.mp (hforward v hv) k hk hzero
    omega
  · intro h v hv
    obtain ⟨i, hi, hempty⟩ | hmax := h
    · have hvi := hv i hi
      rw [hempty] at hvi
      exact absurd hvi (Set.notMem_empty _)
    · refine isForward_iff.mpr fun k hk hzero => ?_
      by_contra hpos
      have hnone := DepInfo.verdict_none_of_validFrom hvalid hk hv hzero (by omega)
      have hle := DepRel.le_max_of_verdict (hnone k (Nat.le_refl k)) (hv k hk)
      have hlast := hmax k hk hnone
      omega

/-- A matrix with one relation. -/
def oneLevel (r : DepRel) : TypedDepInfo where
  toDepInfo := { DepInfo.getDepInfo 1 1 true 1 (by decide) (by decide) with entry := fun _ _ => r }
  depType := .trueDep

/-- The same iteration of the outer loop and an earlier one of the inner loop. -/
def innerDecreasing : TypedDepInfo where
  toDepInfo := { DepInfo.getDepInfo 2 2 true 2 (by decide) (by decide) with
    entry := fun i _ => if i = 0 then .reset .eq 0 0 else .reset .le 0 (-1) }
  depType := .trueDep

theorem isValidDep_forward_decreasing :
    innerDecreasing.isValidDep 2 = true ∧
      ∀ v, innerDecreasing.OnDiagonal 2 v → IsForward 2 v := by
  have hvalid : innerDecreasing.isValidDep 2 = true := by decide
  refine ⟨hvalid, (isValidDep_forward_iff (by decide) hvalid).mpr (Or.inr fun i hi hnone => ?_)⟩
  match i, hi with
  | 0, _ => decide
  | 1, _ => exact absurd (hnone 1 (Nat.le_refl 1)) (by decide)

/-- The distance one is accepted. -/
theorem isValidDep_increasing :
    (oneLevel (.reset .eq 1 1)).isValidDep 1 = true ∧
      (oneLevel (.reset .eq 1 1)).OnDiagonal 1 (fun _ => 1) ∧ ¬IsForward 1 (fun _ => 1) := by
  have hmem : (1 : Int) ∈ (DepRel.reset .eq 1 1).members :=
    DepRel.mem_iff.mpr ⟨by decide, fun _ => by decide, fun _ => by decide⟩
  refine ⟨by decide, fun i hi => hmem, fun h => ?_⟩
  · exact absurd (isForward_iff.mp h 0 (by decide) (by simp)) (by decide)

/-- The carry levels bracket the level of each dependence that is carried. -/
theorem carryLevels_bracket {d : TypedDepInfo} {v : Nat → Int} {k : Nat}
    (hv : d.OnDiagonal d.commonLevel v) (hk : k < d.commonLevel) (hzero : ∀ i < k, v i = 0)
    (hneg : v k < 0) : d.carryLevels.1 ≤ k ∧ k ≤ d.carryLevels.2 := by
  have hmembers : ∀ i, 0 ≤ i → i < k → 0 ∈ (d.entry i i).members := fun i _ hi => by
    have hmem := hv i (hi.trans hk)
    rwa [hzero i hi] at hmem
  obtain ⟨hnonneg, hmin, hmax⟩ := @DepInfo.carryFrom_bracket d.toDepInfo 0 d.commonLevel k (-1, -1)
    (Nat.zero_le k) (by omega) (by dsimp only; omega) hmembers _ (hv k hk) hneg
  have hno : ¬(d.carryFrom 0 d.commonLevel (-1, -1)).1 < 0 := by omega
  simp only [TypedDepInfo.carryLevels, hno, if_false]
  exact ⟨hmin, hmax⟩

theorem carryLevels_bracket_decreasing :
    innerDecreasing.carryLevels.1 ≤ (1 : Nat) ∧
      ((1 : Nat) : Int) ≤ innerDecreasing.carryLevels.2 := by
  have hzero : (0 : Int) ∈ (DepRel.reset .eq 0 0).members :=
    DepRel.mem_iff.mpr ⟨by decide, fun _ => by decide, fun _ => by decide⟩
  have hnegative : (-1 : Int) ∈ (DepRel.reset .le 0 (-1)).members :=
    DepRel.mem_iff.mpr ⟨by decide, fun h => absurd h (by decide), fun _ => by decide⟩
  have hdiagonal : innerDecreasing.OnDiagonal 2 fun i => if i = 0 then 0 else -1 := by
    intro i hi
    match i, hi with
    | 0, _ => exact hzero
    | 1, _ => exact hnegative
  exact carryLevels_bracket hdiagonal (by decide) (by decide) (by decide)

end LoomX
