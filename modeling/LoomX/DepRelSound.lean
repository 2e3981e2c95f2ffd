import Mathlib
import LoomX.DepRel

namespace LoomX

/-- A set that contains another one and stays closed when its elements are added. -/
def AbsorbsSums {α : Type*} [Add α] (t s : Set α) : Prop :=
  s ⊆ t ∧ ∀ x ∈ s, ∀ y ∈ t, x + y ∈ t

namespace AbsorbsSums

variable {α : Type*} {s t : Set α}

theorem sum_mem [AddMonoid α] (h : AbsorbsSums t s) {l : List α} (hl : l ≠ [])
    (hs : ∀ x ∈ l, x ∈ s) : l.sum ∈ t := by
  induction l with
  | nil => contradiction
  | cons x l ih =>
    rcases eq_or_ne l [] with rfl | hne
    · simpa using h.1 (hs x List.mem_cons_self)
    · rw [List.sum_cons]
      exact h.2 x (hs x List.mem_cons_self) _ (ih hne fun y hy => hs y (List.mem_cons_of_mem x hy))

theorem univ [Add α] (s : Set α) : AbsorbsSums Set.univ s :=
  ⟨Set.subset_univ s, fun _ _ _ _ => trivial⟩

theorem of_subset_zero [AddMonoid α] (h : s ⊆ {0}) : AbsorbsSums s s := by
  refine ⟨subset_rfl, fun x hx y hy => ?_⟩
  rw [Set.mem_singleton_iff.mp (h hx), zero_add]
  exact hy

section

variable [AddMonoid α] [Preorder α] [AddRightMono α]

theorem Ici {lo : α} (hlo : 0 ≤ lo) (h : s ⊆ Set.Ici lo) : AbsorbsSums (Set.Ici lo) s :=
  ⟨h, fun _ hx _ hy => le_add_of_nonneg_of_le (hlo.trans (h hx)) hy⟩

theorem Iic {hi : α} (hhi : hi ≤ 0) (h : s ⊆ Set.Iic hi) : AbsorbsSums (Set.Iic hi) s :=
  ⟨h, fun _ hx _ hy => add_le_of_nonpos_of_le (le_trans (h hx) hhi) hy⟩

end

end AbsorbsSums

namespace DepDirType

def boundedBelow : DepDirType → Bool
  | .eq | .ge => true
  | .none | .le | .ne | .all => false

def boundedAbove : DepDirType → Bool
  | .eq | .le => true
  | .none | .ge | .ne | .all => false

/-- The integers between two bounds in the direction of a relation type. -/
def range (t : DepDirType) (min max : Int) : Set Int :=
  match t with
  | .none => ∅
  | .eq => Set.Icc min max
  | .le => Set.Iic max
  | .ge => Set.Ici min
  | .ne | .all => Set.univ

theorem mem_range {t : DepDirType} {min max x : Int} :
    x ∈ t.range min max ↔
      t ≠ .none ∧ (t.boundedBelow → min ≤ x) ∧ (t.boundedAbove → x ≤ max) := by
  cases t <;> simp [range, boundedBelow, boundedAbove]

/-- Joining two directions drops every bound one of them lacks. -/
theorem ofCode_or {t1 t2 : DepDirType} (h1 : t1 ≠ .ne) (h2 : t2 ≠ .ne) :
    ∃ t, ofCode (t1.code ||| t2.code) = some t ∧ (t = .none → t1 = .none ∧ t2 = .none) ∧
      (t.boundedBelow → (t1 = .none ∨ t1.boundedBelow) ∧ (t2 = .none ∨ t2.boundedBelow)) ∧
      (t.boundedAbove → (t1 = .none ∨ t1.boundedAbove) ∧ (t2 = .none ∨ t2.boundedAbove)) := by
  cases t1 <;> cases t2 <;> first | contradiction | exact ⟨_, rfl, by decide⟩

/-- Intersecting two directions keeps a bound only if one of them has it. -/
theorem ofCode_and {t1 t2 : DepDirType} (h1 : t1 ≠ .ne) (h2 : t2 ≠ .ne) :
    ∃ t, ofCode (t1.code &&& t2.code) = some t ∧ t ≠ .ne ∧
      (t = .none ↔ t1 = .none ∨ t2 = .none) ∧
      (t.boundedBelow → t1.boundedBelow ∨ t2.boundedBelow) ∧
      (t.boundedAbove → t1.boundedAbove ∨ t2.boundedAbove) := by
  cases t1 <;> cases t2 <;> first | contradiction | exact ⟨_, rfl, by decide⟩

end DepDirType

namespace DepRel

/-- The integers a relation stands for. -/
def members (e : DepRel) : Set Int :=
  e.getDirType.range e.getMinAlign e.getMaxAlign

/-- The alignments that bound the relation lie strictly between the infinite ones. -/
def Within (e : DepRel) : Prop :=
  (e.getDirType.boundedBelow → NEG_INFTY < e.getMinAlign ∧ e.getMinAlign < POS_INFTY) ∧
    (e.getDirType.boundedAbove → NEG_INFTY < e.getMaxAlign ∧ e.getMaxAlign < POS_INFTY)

instance (e : DepRel) : Decidable e.Within := by
  unfold Within
  infer_instance

@[simp] theorem relType_packed (t : DepDirType) (align size : Int) :
    (packed t align size).relType = t :=
  Option.get_of_eq_some _ (getRelType_entryType t size)

@[simp] theorem rangeSize_packed (t : DepDirType) (align size : Int) :
    (packed t align size).rangeSize = size :=
  alignRangeSize_entryType t size

@[simp] theorem align_packed (t : DepDirType) (align size : Int) :
    (packed t align size).align = align :=
  rfl

theorem mem_packed {t : DepDirType} {align size x : Int} :
    x ∈ (packed t align size).members ↔ x ∈ t.range align (align + size - 1) := by
  cases t <;> simp [members, getDirType, getMinAlign, getMaxAlign, DepDirType.range]

/-- Resetting a relation can only widen the range it is given. -/
theorem range_subset_reset (t : DepDirType) (min max : Int) :
    t.range min max ⊆ (reset t min max).members := by
  intro x hx
  cases t with
  | none => exact absurd hx (Set.notMem_empty x)
  | all => exact mem_packed.mpr trivial
  | ne =>
    simp only [reset]
    split <;> exact mem_packed.mpr trivial
  | eq =>
    obtain ⟨hmin, hmax⟩ := hx
    simp only [reset]
    split_ifs <;> rw [mem_packed] <;> simp only [DepDirType.range, Set.mem_univ, Set.mem_Iic,
      Set.mem_Ici, Set.mem_Icc] <;> omega
  | le =>
    have hmax : x ≤ max := hx
    simp only [reset]
    split_ifs <;> rw [mem_packed] <;> simp only [DepDirType.range, Set.mem_univ, Set.mem_Iic]
    omega
  | ge =>
    have hmin : min ≤ x := hx
    simp only [reset]
    split_ifs <;> rw [mem_packed] <;> simp only [DepDirType.range, Set.mem_univ, Set.mem_Ici]
    exact hmin

theorem within_packed {t : DepDirType} {align size : Int}
    (hmin : t.boundedBelow → NEG_INFTY < align ∧ align < POS_INFTY)
    (hmax : t.boundedAbove → NEG_INFTY < align + size - 1 ∧ align + size - 1 < POS_INFTY) :
    (packed t align size).Within := by
  unfold Within getDirType getMinAlign getMaxAlign
  cases t <;> simp [DepDirType.boundedBelow, DepDirType.boundedAbove] at * <;> omega

theorem within_reset {t : DepDirType} {min max : Int}
    (hmin : t.boundedBelow → NEG_INFTY < min ∧ min < POS_INFTY)
    (hmax : t.boundedAbove → NEG_INFTY < max ∧ max < POS_INFTY) : (reset t min max).Within := by
  have hall : (packed .all 0 1).Within := within_packed nofun nofun
  have hle (h : t.boundedAbove) : (packed .le max 1).Within :=
    within_packed nofun fun _ => by have := hmax h; omega
  have hge (h : t.boundedBelow) : (packed .ge min 1).Within :=
    within_packed (fun _ => hmin h) nofun
  cases t with
  | none => exact within_packed nofun nofun
  | all => exact hall
  | eq =>
    simp only [reset]
    split_ifs
    · exact hall
    · exact hle rfl
    · exact hge rfl
    · exact within_packed (fun _ => hmin rfl) fun _ => by have := hmax rfl; omega
  | le =>
    simp only [reset]
    split_ifs
    · exact hall
    · exact hle rfl
  | ge =>
    simp only [reset]
    split_ifs
    · exact hall
    · exact hge rfl
  | ne =>
    simp only [reset]
    split_ifs
    · exact hall
    · exact within_packed nofun nofun

theorem mem_iff {e : DepRel} {x : Int} :
    x ∈ e.members ↔ e.getDirType ≠ .none ∧ (e.getDirType.boundedBelow → e.getMinAlign ≤ x) ∧
      (e.getDirType.boundedAbove → x ≤ e.getMaxAlign) :=
  DepDirType.mem_range

theorem getDirType_ne_ne (e : DepRel) : e.getDirType ≠ .ne := by
  unfold getDirType
  cases e.relType <;> simp

theorem isTop_iff {e : DepRel} : e.isTop = true ↔ e.getDirType = .none := by
  unfold isTop getDirType
  cases e.relType <;> simp

theorem getDirType_of_isBottom {e : DepRel} (h : e.isBottom = true) : e.getDirType = .all := by
  have hall : e.relType = .all := by simpa [isBottom] using h
  simp [getDirType, hall]

theorem getMinAlign_of_unbounded {e : DepRel} (hne : e.getDirType ≠ .none)
    (h : ¬e.getDirType.boundedBelow) : e.getMinAlign = NEG_INFTY := by
  unfold getDirType at *
  unfold getMinAlign
  cases hk : e.relType <;> simp [hk, DepDirType.boundedBelow] at *

theorem getMaxAlign_of_unbounded {e : DepRel} (hne : e.getDirType ≠ .none)
    (h : ¬e.getDirType.boundedAbove) : e.getMaxAlign = POS_INFTY := by
  unfold getDirType at *
  unfold getMaxAlign
  cases hk : e.relType <;> simp [hk, DepDirType.boundedAbove] at *

theorem mem_or (e1 e2 : DepRel) :
    ∃ r, e1.or e2 = some r ∧ e1.members ∪ e2.members ⊆ r.members := by
  obtain ⟨t, ht, hnone, hbelow, habove⟩ :=
    DepDirType.ofCode_or e1.getDirType_ne_ne e2.getDirType_ne_ne
  unfold or unionUpdate
  simp only [ht, Option.bind_eq_bind, Option.bind_some, Option.pure_def, Option.map_some]
  refine ⟨_, rfl, ?_⟩
  apply subset_trans ?_ (range_subset_reset t _ _)
  rintro x (hx | hx)
  · obtain ⟨hne, hmin, hmax⟩ := mem_iff.mp hx
    apply DepDirType.mem_range.mpr ⟨fun h => hne (hnone h).1, fun h => ?_, fun h => ?_⟩
    · have := hmin ((hbelow h).1.resolve_left hne)
      split <;> omega
    · have := hmax ((habove h).1.resolve_left hne)
      split <;> omega
  · obtain ⟨hne, hmin, hmax⟩ := mem_iff.mp hx
    apply DepDirType.mem_range.mpr ⟨fun h => hne (hnone h).2, fun h => ?_, fun h => ?_⟩
    · have := hmin ((hbelow h).2.resolve_left hne)
      split <;> omega
    · have := hmax ((habove h).2.resolve_left hne)
      split <;> omega

theorem lower_cases {e : DepRel} (h : e.Within) (hne : e.getDirType ≠ .none) :
    e.getDirType.boundedBelow ∧ NEG_INFTY < e.getMinAlign ∧ e.getMinAlign < POS_INFTY ∨
      ¬e.getDirType.boundedBelow ∧ e.getMinAlign = NEG_INFTY := by
  by_cases hbelow : e.getDirType.boundedBelow
  · exact Or.inl ⟨hbelow, h.1 hbelow⟩
  · exact Or.inr ⟨hbelow, getMinAlign_of_unbounded hne hbelow⟩

theorem upper_cases {e : DepRel} (h : e.Within) (hne : e.getDirType ≠ .none) :
    e.getDirType.boundedAbove ∧ NEG_INFTY < e.getMaxAlign ∧ e.getMaxAlign < POS_INFTY ∨
      ¬e.getDirType.boundedAbove ∧ e.getMaxAlign = POS_INFTY := by
  by_cases habove : e.getDirType.boundedAbove
  · exact Or.inl ⟨habove, h.2 habove⟩
  · exact Or.inr ⟨habove, getMaxAlign_of_unbounded hne habove⟩

/-- The intersection in terms of the larger lower and the smaller upper bound. -/
theorem and_eq (e1 e2 : DepRel) : ∃ t : DepDirType,
    (t = .none ↔ e1.getDirType = .none ∨ e2.getDirType = .none) ∧
    (t.boundedBelow → e1.getDirType.boundedBelow ∨ e2.getDirType.boundedBelow) ∧
    (t.boundedAbove → e1.getDirType.boundedAbove ∨ e2.getDirType.boundedAbove) ∧
    e1.and e2 = some (
      if t = .eq ∧ min e1.getMaxAlign e2.getMaxAlign < max e1.getMinAlign e2.getMinAlign then
        reset .none 0 0
      else reset t (max e1.getMinAlign e2.getMinAlign) (min e1.getMaxAlign e2.getMaxAlign)) := by
  obtain ⟨t, ht, htne, hnone, hbelow, habove⟩ :=
    DepDirType.ofCode_and e1.getDirType_ne_ne e2.getDirType_ne_ne
  refine ⟨t, hnone, hbelow, habove, ?_⟩
  have hlo : (if e1.getMinAlign < e2.getMinAlign then e2.getMinAlign else e1.getMinAlign) =
      max e1.getMinAlign e2.getMinAlign := by split <;> omega
  have hhi : (if e1.getMaxAlign < e2.getMaxAlign then e1.getMaxAlign else e2.getMaxAlign) =
      min e1.getMaxAlign e2.getMaxAlign := by split <;> omega
  unfold and intersectUpdate
  simp only [ht, hlo, hhi, Option.bind_eq_bind, Option.bind_some, Option.pure_def,
    Option.map_some]
  cases t with
  | ne => exact absurd rfl htne
  | _ => simp

theorem mem_and {e1 e2 : DepRel} (h1 : e1.Within) (h2 : e2.Within) :
    ∃ r, e1.and e2 = some r ∧ e1.members ∩ e2.members ⊆ r.members := by
  obtain ⟨t, hnone, hbelow, habove, hand⟩ := and_eq e1 e2
  refine ⟨_, hand, ?_⟩
  rintro x ⟨hx1, hx2⟩
  obtain ⟨hne1, hmin1, hmax1⟩ := mem_iff.mp hx1
  obtain ⟨hne2, hmin2, hmax2⟩ := mem_iff.mp hx2
  have hrange : x ∈ t.range (max e1.getMinAlign e2.getMinAlign)
      (min e1.getMaxAlign e2.getMaxAlign) := by
    refine DepDirType.mem_range.mpr ⟨fun h => ?_, fun h => ?_, fun h => ?_⟩
    · exact (hnone.mp h).elim hne1 hne2
    · rcases lower_cases h1 hne1 with ⟨hb1, hlow1⟩ | ⟨hb1, hlow1⟩ <;>
        rcases lower_cases h2 hne2 with ⟨hb2, hlow2⟩ | ⟨hb2, hlow2⟩ <;>
        grind
    · rcases upper_cases h1 hne1 with ⟨hb1, hup1⟩ | ⟨hb1, hup1⟩ <;>
        rcases upper_cases h2 hne2 with ⟨hb2, hup2⟩ | ⟨hb2, hup2⟩ <;>
        grind
  split
  next hempty =>
    rw [hempty.1] at hrange
    exact absurd (le_trans hrange.1 hrange.2) (not_le.mpr hempty.2)
  next => exact range_subset_reset _ _ _ hrange

theorem within_and {e1 e2 r : DepRel} (h1 : e1.Within) (h2 : e2.Within)
    (h : e1.and e2 = some r) : r.Within := by
  obtain ⟨t, hnone, hbelow, habove, hand⟩ := and_eq e1 e2
  cases (hand.symm.trans h)
  split
  next => exact within_reset nofun nofun
  next =>
    by_cases hne : e1.getDirType = .none ∨ e2.getDirType = .none
    · rw [hnone.mpr hne]
      exact within_reset nofun nofun
    obtain ⟨hne1, hne2⟩ := not_or.mp hne
    refine within_reset (fun h => ?_) fun h => ?_
    · have hlow1 := lower_cases h1 hne1
      have hlow2 := lower_cases h2 hne2
      grind [NEG_INFTY, POS_INFTY]
    · have hup1 := upper_cases h1 hne1
      have hup2 := upper_cases h2 hne2
      grind [NEG_INFTY, POS_INFTY]

theorem addConst_eq {a b : Int} (ha : NEG_INFTY < a ∧ a < POS_INFTY)
    (hb : NEG_INFTY < b ∧ b < POS_INFTY) : addConst a b = a + b := by
  unfold addConst
  rw [if_neg (by omega), if_neg (by omega)]

theorem mem_mul {e1 e2 : DepRel} (h1 : e1.Within) (h2 : e2.Within) :
    ∃ r, e1.mul e2 = some r ∧
      ∀ x ∈ e1.members, ∀ y ∈ e2.members, x + y ∈ r.members := by
  unfold mul
  split
  next htop =>
    exact ⟨e1, rfl, fun x hx => absurd (isTop_iff.mp htop) (mem_iff.mp hx).1⟩
  split
  next htop =>
    exact ⟨e2, rfl, fun x _ y hy => absurd (isTop_iff.mp htop) (mem_iff.mp hy).1⟩
  obtain ⟨t, ht, hnone, hbelow, habove⟩ :=
    DepDirType.ofCode_or e1.getDirType_ne_ne e2.getDirType_ne_ne
  simp only [ht, Option.bind_eq_bind, Option.bind_some, Option.pure_def]
  refine ⟨_, rfl, fun x hx y hy => range_subset_reset _ _ _ ?_⟩
  have hne1 := (mem_iff.mp hx).1
  have hne2 := (mem_iff.mp hy).1
  refine DepDirType.mem_range.mpr ⟨fun h => hne1 (hnone h).1, fun h => ?_, fun h => ?_⟩
  · have hb1 := (hbelow h).1.resolve_left hne1
    have hb2 := (hbelow h).2.resolve_left hne2
    rw [addConst_eq (h1.1 hb1) (h2.1 hb2)]
    exact add_le_add ((mem_iff.mp hx).2.1 hb1) ((mem_iff.mp hy).2.1 hb2)
  · have hb1 := (habove h).1.resolve_left hne1
    have hb2 := (habove h).2.resolve_left hne2
    rw [addConst_eq (h1.2 hb1) (h2.2 hb2)]
    exact add_le_add ((mem_iff.mp hx).2.2 hb1) ((mem_iff.mp hy).2.2 hb2)

/-- The bounds of two relations and the sums of these bounds stay finite. -/
def SumsWithin (e1 e2 : DepRel) : Prop :=
  e1.Within ∧ e2.Within ∧
    (e1.getDirType.boundedBelow → e2.getDirType.boundedBelow →
      NEG_INFTY < e1.getMinAlign + e2.getMinAlign ∧ e1.getMinAlign + e2.getMinAlign < POS_INFTY) ∧
    (e1.getDirType.boundedAbove → e2.getDirType.boundedAbove →
      NEG_INFTY < e1.getMaxAlign + e2.getMaxAlign ∧ e1.getMaxAlign + e2.getMaxAlign < POS_INFTY)

instance (e1 e2 : DepRel) : Decidable (SumsWithin e1 e2) := by
  unfold SumsWithin
  infer_instance

theorem within_mul {e1 e2 r : DepRel} (h12 : SumsWithin e1 e2) (h : e1.mul e2 = some r) :
    r.Within := by
  obtain ⟨h1, h2, hmin, hmax⟩ := h12
  unfold mul at h
  split at h
  next =>
    cases h
    exact h1
  next htop1 =>
    split at h
    next =>
      cases h
      exact h2
    next htop2 =>
      obtain ⟨t, ht, hnone, hbelow, habove⟩ :=
        DepDirType.ofCode_or e1.getDirType_ne_ne e2.getDirType_ne_ne
      simp only [ht, Option.bind_eq_bind, Option.bind_some, Option.pure_def] at h
      cases h
      have hne1 : ¬e1.getDirType = .none := fun h => htop1 (isTop_iff.mpr h)
      have hne2 : ¬e2.getDirType = .none := fun h => htop2 (isTop_iff.mpr h)
      refine within_reset (fun h => ?_) fun h => ?_
      · have hb1 := (hbelow h).1.resolve_left hne1
        have hb2 := (hbelow h).2.resolve_left hne2
        rw [addConst_eq (h1.1 hb1) (h2.1 hb2)]
        exact hmin hb1 hb2
      · have hb1 := (habove h).1.resolve_left hne1
        have hb2 := (habove h).2.resolve_left hne2
        rw [addConst_eq (h1.2 hb1) (h2.2 hb2)]
        exact hmax hb1 hb2

theorem mem_reverse {e : DepRel} {x : Int} (hx : x ∈ e.members) : -x ∈ e.reverse.members := by
  unfold reverse
  have hx' := hx
  unfold members at hx'
  split <;> rename_i hdir
  · rw [hdir] at hx'
    exact range_subset_reset _ _ _ ⟨neg_le_neg hx'.2, neg_le_neg hx'.1⟩
  · exact absurd hdir e.getDirType_ne_ne
  · rw [hdir] at hx'
    exact range_subset_reset _ _ _ (Set.mem_Ici.mpr (neg_le_neg hx'))
  · rw [hdir] at hx'
    exact range_subset_reset _ _ _ (Set.mem_Iic.mpr (neg_le_neg hx'))
  · rw [hdir] at hx'
    exact absurd hx' (Set.notMem_empty x)
  · simp [members, hdir, DepDirType.range]

theorem members_reset_ge {lo : Int} (h : 0 ≤ lo) (max : Int) :
    (reset .ge lo max).members = Set.Ici lo := by
  have hreset : reset .ge lo max = packed .ge lo 1 := if_neg (by unfold MIN_ALIGN; omega)
  ext x
  rw [hreset, mem_packed]
  rfl

theorem members_reset_le {hi : Int} (h : hi ≤ 0) (min : Int) :
    (reset .le min hi).members = Set.Iic hi := by
  have hreset : reset .le min hi = packed .le hi 1 := if_neg (by unfold MAX_ALIGN; omega)
  ext x
  rw [hreset, mem_packed]
  simp [DepDirType.range]

theorem members_reset_all (min max : Int) : (reset .all min max).members = Set.univ := by
  ext x
  exact mem_packed

theorem closure_absorbs (e : DepRel) : AbsorbsSums e.closure.members e.members := by
  unfold closure closureUpdate
  dsimp only
  split
  next hdir =>
    have hmem : e.members = Set.Icc e.getMinAlign e.getMaxAlign := by
      simp [members, hdir, DepDirType.range]
    split_ifs with hzero hlo hhi
    · apply AbsorbsSums.of_subset_zero
      rw [hmem, ← hzero.1, hzero.2, Set.Icc_self]
    · rw [members_reset_ge hlo, hmem]
      exact .Ici hlo Set.Icc_subset_Ici_self
    · rw [members_reset_le hhi, hmem]
      exact .Iic hhi Set.Icc_subset_Iic_self
    · rw [members_reset_all]
      exact .univ _
  next hdir =>
    split
    next =>
      rw [members_reset_all]
      exact .univ _
    next hbound =>
      unfold members
      cases hd : e.getDirType with
      | eq => exact absurd hd hdir
      | ne => exact absurd hd e.getDirType_ne_ne
      | none => exact .of_subset_zero (Set.empty_subset _)
      | all => exact .univ _
      | le =>
        have hhi : e.getMaxAlign ≤ 0 := by
          by_contra hlt
          exact hbound (Or.inr (Or.inl ⟨hd, not_le.mp hlt⟩))
        exact .Iic hhi subset_rfl
      | ge =>
        have hlo : 0 ≤ e.getMinAlign := by
          by_contra hlt
          exact hbound (Or.inr (Or.inr ⟨hd, not_le.mp hlt⟩))
        exact .Ici hlo subset_rfl

theorem members_subset_of_lessThan {e1 e2 : DepRel} (h : lessThan e1 e2 = true) :
    e1.members ⊆ e2.members := by
  intro x hx
  obtain ⟨hne, hmin, hmax⟩ := mem_iff.mp hx
  unfold lessThan at h
  split at h
  next htop =>
    rcases (Bool.or_eq_true _ _).mp htop with htop | hbottom
    · exact absurd (isTop_iff.mp htop) hne
    · simp [members, getDirType_of_isBottom hbottom, DepDirType.range]
  split at h
  next => contradiction
  obtain ⟨t, ht, hnone, hbelow, habove⟩ :=
    DepDirType.ofCode_or e1.getDirType_ne_ne e2.getDirType_ne_ne
  simp only [ht] at h
  split at h
  next => contradiction
  next heq =>
    cases not_not.mp heq
    refine mem_iff.mpr ⟨fun h => hne (hnone h).1, fun h2 => ?_, fun h2 => ?_⟩
    · have := hmin ((hbelow h2).1.resolve_left hne)
      split_ifs at h <;> grind [DepDirType.boundedBelow]
    · have := hmax ((habove h2).1.resolve_left hne)
      split_ifs at h <;> grind [DepDirType.boundedAbove]

/-- The algebra of dependence relations over-approximates that of the sets of distances. -/
theorem algebra_sound {e1 e2 : DepRel} (h1 : e1.Within) (h2 : e2.Within) :
    (∃ r, e1.or e2 = some r ∧ e1.members ∪ e2.members ⊆ r.members) ∧
    (∃ r, e1.and e2 = some r ∧ e1.members ∩ e2.members ⊆ r.members) ∧
    (∃ r, e1.mul e2 = some r ∧ ∀ x ∈ e1.members, ∀ y ∈ e2.members, x + y ∈ r.members) ∧
    (∀ x ∈ e1.members, -x ∈ e1.reverse.members) ∧
    (∀ l : List Int, l ≠ [] → (∀ x ∈ l, x ∈ e1.members) → l.sum ∈ e1.closure.members) ∧
    (lessThan e1 e2 = true → e1.members ⊆ e2.members) :=
  ⟨mem_or e1 e2, mem_and h1 h2, mem_mul h1 h2, fun _ => mem_reverse,
    fun _ => e1.closure_absorbs.sum_mem, members_subset_of_lessThan⟩

/-- Between `=[-2,1]` and `<=3`. -/
theorem algebra_sound_eq_le :
    (∃ r, (reset .eq (-2) 1).or (reset .le 0 3) = some r ∧
      (reset .eq (-2) 1).members ∪ (reset .le 0 3).members ⊆ r.members) ∧
    (∃ r, (reset .eq (-2) 1).mul (reset .le 0 3) = some r ∧
      ∀ x ∈ (reset .eq (-2) 1).members, ∀ y ∈ (reset .le 0 3).members, x + y ∈ r.members) :=
  have hsound := @algebra_sound (reset .eq (-2) 1) (reset .le 0 3) (by decide) (by decide)
  ⟨hsound.1, hsound.2.2.1⟩

end DepRel

end LoomX
