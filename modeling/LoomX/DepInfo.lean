import LoomX.DepRelSound
import Mathlib.Logic.Relation

namespace LoomX

/-- A dependence matrix between the loops of two statements. -/
structure DepInfo where
  rows : Nat
  cols : Nat
  precise : Bool
  commonLevel : Nat
  commonLevel_le_rows : commonLevel ≤ rows
  commonLevel_le_cols : commonLevel ≤ cols
  entry : Nat → Nat → DepRel

namespace DepInfo

/-- A matrix of default relations. -/
def getDepInfo (nr nc : Nat) (p : Bool) (commLevel : Nat) (hr : commLevel ≤ nr)
    (hc : commLevel ≤ nc) : DepInfo where
  rows := nr
  cols := nc
  precise := p
  commonLevel := commLevel
  commonLevel_le_rows := hr
  commonLevel_le_cols := hc
  entry _ _ := .reset .all 0 0

/-- The comparison `operator ==`. -/
def equals (d1 d2 : DepInfo) : Bool :=
  d1.rows = d2.rows && d1.cols = d2.cols && d1.commonLevel = d2.commonLevel &&
    (List.range d1.rows).all fun i => (List.range d1.cols).all fun j => d1.entry i j = d2.entry i j

/-- One intermediate level of a composed entry. -/
def mulStep (info1 info2 : DepInfo) (i j : Nat) (e : DepRel) (k : Nat) : Option DepRel := do
  let r ← (info1.entry i k).mul (info2.entry k j)
  e.and r

def mulEntry (info1 info2 : DepInfo) (i j : Nat) : Option DepRel :=
  (List.range info1.cols).foldlM (mulStep info1 info2 i j) (.reset .all 0 0)

/-- The composed matrix and whether it differs from the first factor, `operator *=`. -/
def mulUpdate (info1 info2 : DepInfo) : Option (DepInfo × Bool) :=
  if info1.cols = 0 then some (info1, false)
  else if info1.cols ≠ info2.rows then none
  else if (List.range info1.rows).all fun i =>
      (List.range info2.cols).all fun j => (mulEntry info1 info2 i j).isSome then
    let start := getDepInfo info1.rows info2.cols true (min info1.commonLevel info2.commonLevel)
      ((Nat.min_le_left _ _).trans info1.commonLevel_le_rows)
      ((Nat.min_le_right _ _).trans info2.commonLevel_le_cols)
    let info := { start with
      entry := fun i j => (mulEntry info1 info2 i j).getD (start.entry i j) }
    some (info, !info1.equals info)
  else none

def mul (info1 info2 : DepInfo) : Option DepInfo :=
  (info1.mulUpdate info2).map Prod.fst

/-- The matrix with every entry closed and whether it was modified. -/
def closureEntries (info : DepInfo) : DepInfo × Bool :=
  ({ info with entry := fun i j => (info.entry i j).closure },
    (List.range info.rows).any fun i => (List.range info.cols).any fun j =>
      (info.entry i j).closureUpdate.2)

def closure (info : DepInfo) : DepInfo :=
  info.closureEntries.1

/-- The pairs of iteration vectors whose distances a matrix allows. -/
def Relates (info : DepInfo) (x y : Nat → Int) : Prop :=
  ∀ i < info.rows, ∀ j < info.cols, x i - y j ∈ (info.entry i j).members

theorem foldlM_mulStep {info1 info2 : DepInfo} {i j : Nat} {ks : List Nat}
    (hwithin : ∀ k ∈ ks, DepRel.SumsWithin (info1.entry i k) (info2.entry k j)) {e : DepRel}
    (he : e.Within) :
    ∃ r, ks.foldlM (mulStep info1 info2 i j) e = some r ∧
      ∀ x ∈ e.members, (∀ k ∈ ks, ∃ a ∈ (info1.entry i k).members,
        ∃ b ∈ (info2.entry k j).members, x = a + b) → x ∈ r.members := by
  induction ks generalizing e with
  | nil => exact ⟨e, rfl, fun x hx _ => hx⟩
  | cons k ks ih =>
    have hk := hwithin k List.mem_cons_self
    obtain ⟨r, hr, hmul⟩ := DepRel.mem_mul hk.1 hk.2.1
    have hrwithin := DepRel.within_mul hk hr
    obtain ⟨e', he', hand⟩ := DepRel.mem_and he hrwithin
    obtain ⟨r', hr', hfold⟩ := ih (fun k hk => hwithin k (List.mem_cons_of_mem _ hk))
      (DepRel.within_and he hrwithin he')
    refine ⟨r', ?_, fun x hx hall => ?_⟩
    · simpa [List.foldlM_cons, mulStep, hr, he'] using hr'
    · obtain ⟨a, ha, b, hb, rfl⟩ := hall k List.mem_cons_self
      exact hfold _ (hand ⟨hx, hmul a ha b hb⟩) fun k hk => hall k (List.mem_cons_of_mem _ hk)

/-- Composing two matrices covers the composition of their steps. -/
theorem relates_mul {info1 info2 : DepInfo} (hsize : info1.cols = info2.rows)
    (hwithin : ∀ i < info1.rows, ∀ k < info1.cols, ∀ j < info2.cols,
      DepRel.SumsWithin (info1.entry i k) (info2.entry k j)) :
    ∃ info, info1.mul info2 = some info ∧
      ∀ x y z, info1.Relates x y → info2.Relates y z → info.Relates x z := by
  unfold mul mulUpdate
  by_cases hcols : info1.cols = 0
  · rw [if_pos hcols]
    refine ⟨info1, rfl, fun x y z _ _ i hi j hj => ?_⟩
    omega
  have hentry (i : Nat) (hi : i < info1.rows) (j : Nat) (hj : j < info2.cols) :=
    foldlM_mulStep (e := .reset .all 0 0) (fun k hk => hwithin i hi k (List.mem_range.mp hk) j hj)
      (DepRel.within_reset nofun nofun)
  have hall : ((List.range info1.rows).all fun i =>
      (List.range info2.cols).all fun j => (mulEntry info1 info2 i j).isSome) = true := by
    simp only [List.all_eq_true, List.mem_range]
    intro i hi j hj
    obtain ⟨r, hr, _⟩ := hentry i hi j hj
    exact Option.isSome_of_eq_some hr
  rw [if_neg hcols, if_neg (not_not.mpr hsize), if_pos hall]
  refine ⟨_, rfl, fun x y z hxy hyz i hi j hj => ?_⟩
  obtain ⟨r, hr, hmem⟩ := hentry i hi j hj
  have hget : (mulEntry info1 info2 i j).getD (.reset .all 0 0) = r := by
    rw [mulEntry, hr, Option.getD_some]
  show x i - z j ∈ ((mulEntry info1 info2 i j).getD (.reset .all 0 0)).members
  rw [hget]
  apply hmem
  · rw [DepRel.members_reset_all]
    trivial
  · intro k hk
    have hk := List.mem_range.mp hk
    exact ⟨_, hxy i hi k hk, _, hyz k (by omega) j hj, by omega⟩

theorem relates_closure {info : DepInfo} {x y : Nat → Int} (h : info.Relates x y) :
    info.closure.Relates x y :=
  fun i hi j hj => (info.entry i j).closure_absorbs.1 (h i hi j hj)

/-- An entry whose closure absorbs the steps of its row, or of its column, covers every run. -/
theorem closure_entry_of_transGen {info : DepInfo} (hsquare : info.rows = info.cols) {i j : Nat}
    (hi : i < info.rows) (hj : j < info.cols)
    (habsorb : (∀ a ∈ (info.entry i i).members, ∀ b ∈ (info.closure.entry i j).members,
        a + b ∈ (info.closure.entry i j).members) ∨
      (∀ a ∈ (info.closure.entry i j).members, ∀ b ∈ (info.entry j j).members,
        a + b ∈ (info.closure.entry i j).members))
    {x z : Nat → Int} (h : Relation.TransGen info.Relates x z) :
    x i - z j ∈ (info.closure.entry i j).members := by
  rcases habsorb with hleft | hright
  · induction h using Relation.TransGen.head_induction_on with
    | single hxz => exact relates_closure hxz i hi j hj
    | @head x y hxy _ ih =>
      have hstep := hleft _ (hxy i hi i (by omega)) _ ih
      rwa [sub_add_sub_cancel] at hstep
  · induction h with
    | single hxz => exact relates_closure hxz i hi j hj
    | @tail y z _ hyz ih =>
      have hstep := hright _ ih _ (hyz j (by omega) j hj)
      rwa [sub_add_sub_cancel] at hstep

/-- Composition covers the steps of two matrices, and an entry of the closure those of a run
when it absorbs the diagonal of its row or of its column. -/
theorem compose_and_close :
    (∀ info1 info2 : DepInfo, info1.cols = info2.rows →
      (∀ i < info1.rows, ∀ k < info1.cols, ∀ j < info2.cols,
        DepRel.SumsWithin (info1.entry i k) (info2.entry k j)) →
      ∃ info, info1.mul info2 = some info ∧
        ∀ x y z, info1.Relates x y → info2.Relates y z → info.Relates x z) ∧
    ∀ info : DepInfo, info.rows = info.cols →
      ∀ x z, Relation.TransGen info.Relates x z → ∀ i < info.rows,
        x i - z i ∈ (info.closure.entry i i).members ∧
        ∀ j < info.cols,
          (∀ a ∈ (info.entry i i).members, ∀ b ∈ (info.closure.entry i j).members,
            a + b ∈ (info.closure.entry i j).members) ∨
          (∀ a ∈ (info.closure.entry i j).members, ∀ b ∈ (info.entry j j).members,
            a + b ∈ (info.closure.entry i j).members) →
          x i - z j ∈ (info.closure.entry i j).members :=
  ⟨fun _ _ hsize hwithin => relates_mul hsize hwithin, fun info hsquare _ _ h i hi =>
    ⟨closure_entry_of_transGen hsquare hi (by omega)
      (Or.inl (info.entry i i).closure_absorbs.2) h,
    fun _ hj habsorb => closure_entry_of_transGen hsquare hi hj habsorb h⟩⟩

def single (e : DepRel) : DepInfo :=
  { getDepInfo 1 1 true 0 (by decide) (by decide) with entry := fun _ _ => e }

/-- The second loop starts where the first one was, and nothing else is known. -/
def swapping : DepInfo :=
  { getDepInfo 2 2 true 0 (by decide) (by decide) with
    entry := fun i j => if i = 0 ∧ j = 1 then .reset .eq 0 0 else .reset .all 0 0 }

theorem compose_and_close_single :
    (∃ info, (single (.reset .eq 1 1)).mul (single (.reset .le 0 2)) = some info ∧
      ∀ x y z, (single (.reset .eq 1 1)).Relates x y → (single (.reset .le 0 2)).Relates y z →
        info.Relates x z) ∧
    ∀ x z, Relation.TransGen (single (.reset .eq 1 1)).Relates x z →
      x 0 - z 0 ∈ ((single (.reset .eq 1 1)).closure.entry 0 0).members :=
  ⟨compose_and_close.1 _ _ rfl fun i _ k _ j _ => by
      show DepRel.SumsWithin (.reset .eq 1 1) (.reset .le 0 2)
      decide,
    fun x z h => (compose_and_close.2 (single (.reset .eq 1 1)) rfl x z h 0 (by decide)).1⟩

theorem swapping_relates {x y : Nat → Int} (h : x 0 = y 1) : swapping.Relates x y := by
  intro i _ j _
  by_cases hij : i = 0 ∧ j = 1
  · simp only [swapping, if_pos hij]
    rw [hij.1, hij.2, h]
    exact DepRel.range_subset_reset .eq 0 0 (by simp [DepDirType.range])
  · simp only [swapping, if_neg hij, DepRel.members_reset_all]
    trivial

/-- A bound at the infinite value is not added to, and the closure of one entry ignores the
paths through the others. -/
theorem not_compose_nor_close :
    ¬(∀ info1 info2 : DepInfo, info1.cols = info2.rows →
      ∃ info, info1.mul info2 = some info ∧
        ∀ x y z, info1.Relates x y → info2.Relates y z → info.Relates x z) ∧
    ¬(∀ info : DepInfo, info.rows = info.cols →
      ∀ x z, Relation.TransGen info.Relates x z → info.closure.Relates x z) := by
  constructor
  · intro h
    have hle (x : Int) : x ∈ (DepRel.reset .le 0 NEG_INFTY).members ↔ x ≤ -32767 := by
      rw [DepRel.members_reset_le (by decide)]
      rfl
    obtain ⟨info, hmul, hrel⟩ := h (single (.reset .le 0 NEG_INFTY)) (single (.reset .eq 3 3)) rfl
    have hshape : (some info).map (fun d => (d.rows, d.cols, d.entry 0 0)) =
        some (1, 1, .reset .le 0 NEG_INFTY) := by
      rw [← hmul]
      decide
    simp only [Option.map_some, Option.some.injEq, Prod.mk.injEq] at hshape
    have hx := hrel (fun _ => -32767) (fun _ => 0) (fun _ => -3)
      (fun _ _ _ _ => (hle (-32767 - 0)).mpr (by omega))
      (fun _ _ _ _ => DepRel.range_subset_reset .eq 3 3
        (show (0 - -3 : Int) ∈ Set.Icc 3 3 from ⟨by omega, by omega⟩))
      0 (by omega) 0 (by omega)
    rw [hshape.2.2, hle] at hx
    contradiction
  · intro h
    have hrun : Relation.TransGen swapping.Relates (fun _ => 0) (fun i => if i = 1 then 5 else 0) :=
      .tail (.single (swapping_relates (y := fun i => if i = 0 then 5 else 0) rfl))
        (swapping_relates rfl)
    have hmem := h swapping rfl _ _ hrun 0 (by decide) 1 (by decide)
    have hclosed : (swapping.closure.entry 0 1) = .reset .eq 0 0 := by decide
    rw [hclosed] at hmem
    have hzero : (-5 : Int) ∈ DepDirType.eq.range 0 0 := hmem
    simp [DepDirType.range] at hzero

end DepInfo

end LoomX
