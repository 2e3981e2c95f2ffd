import Mathlib

namespace LoomX

/-- A closed range of numbers, empty when the ends are crossed. -/
structure Interval where
  lo : Nat
  hi : Nat
  deriving DecidableEq

namespace Interval

instance : Membership Nat Interval := ⟨fun i a => i.lo ≤ a ∧ a ≤ i.hi⟩

instance (a : Nat) (i : Interval) : Decidable (a ∈ i) :=
  inferInstanceAs (Decidable (i.lo ≤ a ∧ a ≤ i.hi))

theorem mem_iff {a : Nat} {i : Interval} : a ∈ i ↔ i.lo ≤ a ∧ a ≤ i.hi := Iff.rfl

def isEmpty (i : Interval) : Bool := i.hi < i.lo

def size (i : Interval) : Nat := i.hi + 1 - i.lo

def baseSize (lo size : Nat) : Interval := if size = 0 then ⟨1, 0⟩ else ⟨lo, lo + size - 1⟩

/-- The smallest interval over two numbers. -/
def hull (a b : Nat) : Interval := ⟨min a b, max a b⟩

def intersection (i j : Interval) : Interval := ⟨max i.lo j.lo, min i.hi j.hi⟩

/-- What is left of an interval outside a hole. -/
def without (i hole : Interval) : List Interval :=
  if (i.intersection hole).isEmpty then [i]
  else
    (if i.lo < hole.lo then [⟨i.lo, hole.lo - 1⟩] else []) ++
      if hole.hi < i.hi then [⟨hole.hi + 1, i.hi⟩] else []

@[simp] theorem mem_intersection {a : Nat} {i j : Interval} :
    a ∈ i.intersection j ↔ a ∈ i ∧ a ∈ j := by
  simp only [mem_iff, intersection, sup_le_iff, le_inf_iff]
  tauto

theorem mem_baseSize {a lo size : Nat} : a ∈ baseSize lo size ↔ lo ≤ a ∧ a < lo + size := by
  rw [baseSize]
  split <;> simp only [mem_iff] <;> omega

theorem mem_hull {a b c : Nat} (h : a ≤ b) : c ∈ hull a b ↔ a ≤ c ∧ c ≤ b := by
  rw [mem_iff, hull, min_eq_left h, max_eq_right h]

theorem not_isEmpty {i j : Interval} :
    ¬(i.intersection j).isEmpty = true ↔ max i.lo j.lo ≤ min i.hi j.hi := by
  rw [isEmpty, decide_eq_true_eq, not_lt]
  rfl

/-- Whether two intervals share a number. -/
theorem overlap_isEmpty {i j : Interval} :
    (i.intersection j).isEmpty = true ↔ ∀ k, ¬(k ∈ i ∧ k ∈ j) := by
  rw [isEmpty, decide_eq_true_eq]
  constructor
  · intro hlt k hk
    have hmem := mem_intersection.mpr hk
    rw [mem_iff] at hmem
    omega
  · intro hnone
    by_contra hle
    exact hnone (i.intersection j).lo (mem_intersection.mp ⟨le_rfl, by omega⟩)

/-- Every piece left outside a hole lies in the interval, on one side of the hole. -/
theorem without_sub {i hole j : Interval} (hi : i.lo ≤ i.hi) (hhole : hole.lo ≤ hole.hi)
    (hj : j ∈ i.without hole) :
    i.lo ≤ j.lo ∧ j.lo ≤ j.hi ∧ j.hi ≤ i.hi ∧ (j.hi < hole.lo ∨ hole.hi < j.lo) := by
  rw [without] at hj
  split at hj
  next hempty =>
    rw [isEmpty, decide_eq_true_eq] at hempty
    simp only [intersection] at hempty
    rw [List.mem_singleton.mp hj]
    omega
  next hoverlap =>
    rw [not_isEmpty] at hoverlap
    rcases List.mem_append.mp hj with hj | hj
    · split at hj
      next hlt =>
        rw [List.mem_singleton.mp hj]
        dsimp only
        omega
      next => simp at hj
    · split at hj
      next hlt =>
        rw [List.mem_singleton.mp hj]
        dsimp only
        omega
      next => simp at hj

theorem mem_without {i hole : Interval} {a : Nat} :
    (∃ j ∈ i.without hole, a ∈ j) ↔ a ∈ i ∧ a ∉ hole := by
  rw [without]
  split
  next hempty =>
    have hnone := overlap_isEmpty.mp hempty a
    simp only [List.mem_singleton, exists_eq_left]
    tauto
  next hoverlap =>
    rw [not_isEmpty] at hoverlap
    constructor
    · rintro ⟨j, hj, ha⟩
      rw [mem_iff] at ha ⊢
      rw [mem_iff]
      rcases List.mem_append.mp hj with hj | hj
      all_goals
        split at hj
        next =>
          rw [List.mem_singleton.mp hj] at ha
          dsimp only at ha
          omega
        next => simp at hj
    · rintro ⟨ha, hout⟩
      rw [mem_iff] at ha hout
      by_cases hlow : a < hole.lo
      · exact ⟨⟨i.lo, hole.lo - 1⟩, by simp; omega, by rw [mem_iff]; dsimp only; omega⟩
      · exact ⟨⟨hole.hi + 1, i.hi⟩, by simp; omega, by rw [mem_iff]; dsimp only; omega⟩

end Interval

/-- Numbers held as intervals in increasing order, with a gap between any two. -/
structure IntervalSet where
  intervals : List Interval
  nonempty : ∀ i ∈ intervals, i.lo ≤ i.hi
  separated : intervals.Pairwise fun i j => i.hi + 1 < j.lo

namespace IntervalSet

variable {s : IntervalSet} {i j : Interval} {l : List Interval} {a : Nat}

instance : Membership Nat IntervalSet := ⟨fun s a => ∃ i ∈ s.intervals, a ∈ i⟩

theorem mem_iff : a ∈ s ↔ ∃ i ∈ s.intervals, a ∈ i := Iff.rfl

instance (a : Nat) (s : IntervalSet) : Decidable (a ∈ s) :=
  inferInstanceAs (Decidable (∃ i ∈ s.intervals, a ∈ i))

def empty : IntervalSet := ⟨[], by simp, .nil⟩

@[simp] theorem not_mem_empty : a ∉ empty := by
  rintro ⟨i, hi, -⟩
  cases hi

def isEmpty (s : IntervalSet) : Bool := s.intervals.isEmpty

theorem isEmpty_iff : s.isEmpty = true ↔ ∀ a, a ∉ s := by
  rw [isEmpty, List.isEmpty_iff]
  constructor
  · rintro h a ⟨i, hi, -⟩
    rw [h] at hi
    cases hi
  · intro h
    rw [List.eq_nil_iff_forall_not_mem]
    intro i hi
    exact h i.lo ⟨i, hi, le_rfl, s.nonempty i hi⟩

/-- Insertion merges every interval that overlaps or touches the new one. -/
def insertInterval (i : Interval) : List Interval → List Interval
  | [] => [i]
  | j :: rest =>
    if i.hi + 1 < j.lo then i :: j :: rest
    else if j.hi + 1 < i.lo then j :: insertInterval i rest
    else insertInterval ⟨min i.lo j.lo, max i.hi j.hi⟩ rest

theorem nonempty_insertInterval (hi : i.lo ≤ i.hi) (hl : ∀ j ∈ l, j.lo ≤ j.hi) :
    ∀ j ∈ insertInterval i l, j.lo ≤ j.hi := by
  induction l generalizing i with
  | nil => simpa [insertInterval] using hi
  | cons j rest ih =>
    obtain ⟨hj, hrest⟩ := List.forall_mem_cons.mp hl
    rw [insertInterval]
    split
    next => exact List.forall_mem_cons.mpr ⟨hi, hl⟩
    next =>
      split
      next => exact List.forall_mem_cons.mpr ⟨hj, ih hi hrest⟩
      next => exact ih (by dsimp only; omega) hrest

theorem insertInterval_above {b : Nat} (hi : b < i.lo) (hl : ∀ j ∈ l, b < j.lo) :
    ∀ j ∈ insertInterval i l, b < j.lo := by
  induction l generalizing i with
  | nil => simpa [insertInterval] using hi
  | cons j rest ih =>
    obtain ⟨hj, hrest⟩ := List.forall_mem_cons.mp hl
    rw [insertInterval]
    split
    next => exact List.forall_mem_cons.mpr ⟨hi, hl⟩
    next =>
      split
      next => exact List.forall_mem_cons.mpr ⟨hj, ih hi hrest⟩
      next => exact ih (by dsimp only; omega) hrest

theorem separated_insertInterval (hi : i.lo ≤ i.hi) (hl : ∀ j ∈ l, j.lo ≤ j.hi)
    (hs : l.Pairwise fun i j => i.hi + 1 < j.lo) :
    (insertInterval i l).Pairwise fun i j => i.hi + 1 < j.lo := by
  induction l generalizing i with
  | nil => simp [insertInterval]
  | cons j rest ih =>
    obtain ⟨hj, hrest⟩ := List.forall_mem_cons.mp hl
    obtain ⟨hgap, hs⟩ := List.pairwise_cons.mp hs
    rw [insertInterval]
    split
    next hlt =>
      refine List.pairwise_cons.mpr ⟨List.forall_mem_cons.mpr ⟨hlt, fun k hk => ?_⟩,
        List.pairwise_cons.mpr ⟨hgap, hs⟩⟩
      have hk := hgap k hk
      omega
    next =>
      split
      next hlt =>
        exact List.pairwise_cons.mpr ⟨insertInterval_above hlt hgap, ih hi hrest hs⟩
      next => exact ih (by dsimp only; omega) hrest hs

theorem mem_insertInterval (hi : i.lo ≤ i.hi) (hl : ∀ j ∈ l, j.lo ≤ j.hi) :
    (∃ j ∈ insertInterval i l, a ∈ j) ↔ a ∈ i ∨ ∃ j ∈ l, a ∈ j := by
  induction l generalizing i with
  | nil => simp [insertInterval]
  | cons j rest ih =>
    obtain ⟨hj, hrest⟩ := List.forall_mem_cons.mp hl
    rw [insertInterval]
    split
    next => simp
    next =>
      split
      next => simp only [List.exists_mem_cons_iff, ih hi hrest, or_left_comm]
      next =>
        have hmerge : a ∈ (⟨min i.lo j.lo, max i.hi j.hi⟩ : Interval) ↔ a ∈ i ∨ a ∈ j := by
          simp only [Interval.mem_iff]
          omega
        rw [ih (by dsimp only; omega) hrest, hmerge, List.exists_mem_cons_iff, or_assoc]

/-- Adds the numbers between two others. -/
def insertHull (s : IntervalSet) (b c : Nat) : IntervalSet where
  intervals := insertInterval (.hull b c) s.intervals
  nonempty := nonempty_insertInterval min_le_max s.nonempty
  separated := separated_insertInterval min_le_max s.nonempty s.separated

theorem mem_insertHull {b c : Nat} : a ∈ s.insertHull b c ↔ a ∈ Interval.hull b c ∨ a ∈ s :=
  mem_insertInterval min_le_max s.nonempty

def insert (s : IntervalSet) (b : Nat) : IntervalSet := s.insertHull b b

@[simp] theorem mem_insert {b : Nat} : a ∈ s.insert b ↔ a = b ∨ a ∈ s := by
  rw [insert, mem_insertHull, Interval.mem_hull le_rfl]
  constructor <;> rintro (h | h) <;> first | exact .inl (by omega) | exact .inr h

/-- What a loop that adds some numbers for each element has added at its end. -/
theorem mem_foldl {ι : Type} {f : IntervalSet → ι → IntervalSet} {P : ι → Nat → Prop} {l : List ι}
    (h : ∀ s, ∀ i ∈ l, ∀ a, a ∈ f s i ↔ a ∈ s ∨ P i a) :
    a ∈ l.foldl f s ↔ a ∈ s ∨ ∃ i ∈ l, P i a := by
  induction l generalizing s with
  | nil => simp
  | cons i rest ih =>
    rw [List.foldl_cons, ih fun s j hj => h s j (by simp [hj]), h s i (by simp),
      List.exists_mem_cons_iff, or_assoc]

/-- As two nested loops. -/
theorem mem_foldl_foldl {ι κ : Type} {f : IntervalSet → ι → κ → IntervalSet}
    {P : ι → κ → Nat → Prop} {l : List ι} {m : List κ}
    (h : ∀ s, ∀ i ∈ l, ∀ j ∈ m, ∀ a, a ∈ f s i j ↔ a ∈ s ∨ P i j a) :
    a ∈ l.foldl (fun s i => m.foldl (fun s j => f s i j) s) s ↔
      a ∈ s ∨ ∃ i ∈ l, ∃ j ∈ m, P i j a := by
  have hinner : ∀ s, ∀ i ∈ l, ∀ a, a ∈ m.foldl (fun s j => f s i j) s ↔
      a ∈ s ∨ ∃ j ∈ m, P i j a :=
    fun s i hi a => mem_foldl fun s j hj a => h s i hi j hj a
  exact mem_foldl hinner

/-- As a loop with assertions that all hold. -/
theorem mem_foldlM {ι : Type} {f : IntervalSet → ι → Option IntervalSet} {P : ι → Nat → Prop}
    {l : List ι} (h : ∀ s, ∀ i ∈ l, ∃ t, f s i = some t ∧ ∀ a, a ∈ t ↔ a ∈ s ∨ P i a) :
    ∃ t, l.foldlM f s = some t ∧ ∀ a, a ∈ t ↔ a ∈ s ∨ ∃ i ∈ l, P i a := by
  induction l generalizing s with
  | nil => exact ⟨s, rfl, by simp⟩
  | cons i rest ih =>
    obtain ⟨t, ht, hmem⟩ := h s i (by simp)
    obtain ⟨u, hu, hmem'⟩ := ih (s := t) fun s j hj => h s j (by simp [hj])
    refine ⟨u, by rw [List.foldlM_cons, ht]; exact hu, fun a => ?_⟩
    rw [hmem', hmem, List.exists_mem_cons_iff, or_assoc]

/-- As two nested loops with assertions that all hold. -/
theorem mem_foldlM_foldlM {ι κ : Type} {f : IntervalSet → ι → κ → Option IntervalSet}
    {P : ι → κ → Nat → Prop} {l : List ι} {m : List κ}
    (h : ∀ s, ∀ i ∈ l, ∀ j ∈ m, ∃ t, f s i j = some t ∧ ∀ a, a ∈ t ↔ a ∈ s ∨ P i j a) :
    ∃ t, l.foldlM (fun s i => m.foldlM (fun s j => f s i j) s) s = some t ∧
      ∀ a, a ∈ t ↔ a ∈ s ∨ ∃ i ∈ l, ∃ j ∈ m, P i j a :=
  mem_foldlM fun _ i hi => mem_foldlM fun s j hj => h s i hi j hj

def insertMultiple (s t : IntervalSet) : IntervalSet :=
  t.intervals.foldl (fun s i => s.insertHull i.lo i.hi) s

@[simp] theorem mem_insertMultiple {t : IntervalSet} : a ∈ s.insertMultiple t ↔ a ∈ s ∨ a ∈ t :=
  mem_foldl fun _ i hi a => by
    rw [mem_insertHull, Interval.mem_hull (t.nonempty i hi), or_comm, Interval.mem_iff]

theorem separated_without {b c : Nat} (hl : ∀ i ∈ l, i.lo ≤ i.hi)
    (hs : l.Pairwise fun i j => i.hi + 1 < j.lo) :
    (l.flatMap (·.without (.hull b c))).Pairwise fun i j => i.hi + 1 < j.lo := by
  induction l with
  | nil => exact .nil
  | cons i rest ih =>
    obtain ⟨hi, hrest⟩ := List.forall_mem_cons.mp hl
    obtain ⟨hgap, hs⟩ := List.pairwise_cons.mp hs
    rw [List.flatMap_cons, List.pairwise_append]
    refine ⟨?_, ih hrest hs, fun j hj k hk => ?_⟩
    · rw [Interval.without]
      split
      next => exact List.pairwise_singleton _ _
      next =>
        rw [List.pairwise_append]
        refine ⟨by split <;> simp, by split <;> simp, fun j hj k hk => ?_⟩
        split at hj
        next hlow =>
          split at hk
          next =>
            rw [List.mem_singleton.mp hj, List.mem_singleton.mp hk]
            have hle : (Interval.hull b c).lo ≤ (Interval.hull b c).hi := min_le_max
            dsimp only
            omega
          next => simp at hk
        next => simp at hj
    · obtain ⟨i', hi', hk⟩ := List.mem_flatMap.mp hk
      have hleft := Interval.without_sub hi min_le_max hj
      have hright := Interval.without_sub (hrest i' hi') min_le_max hk
      have hij := hgap i' hi'
      omega

theorem nonempty_without {b c : Nat} (hl : ∀ i ∈ l, i.lo ≤ i.hi) :
    ∀ j ∈ l.flatMap (·.without (.hull b c)), j.lo ≤ j.hi := by
  intro j hj
  obtain ⟨i, hi, hj⟩ := List.mem_flatMap.mp hj
  exact (Interval.without_sub (hl i hi) min_le_max hj).2.1

/-- Removes the numbers between two others. -/
def eraseHull (s : IntervalSet) (b c : Nat) : IntervalSet where
  intervals := s.intervals.flatMap (·.without (.hull b c))
  nonempty := nonempty_without s.nonempty
  separated := separated_without s.nonempty s.separated

theorem mem_eraseHull {b c : Nat} : a ∈ s.eraseHull b c ↔ a ∈ s ∧ a ∉ Interval.hull b c := by
  simp only [mem_iff, eraseHull, List.mem_flatMap]
  constructor
  · rintro ⟨j, ⟨i, hi, hj⟩, ha⟩
    obtain ⟨hin, hout⟩ := Interval.mem_without.mp ⟨j, hj, ha⟩
    exact ⟨⟨i, hi, hin⟩, hout⟩
  · rintro ⟨⟨i, hi, hin⟩, hout⟩
    obtain ⟨j, hj, ha⟩ := Interval.mem_without.mpr ⟨hin, hout⟩
    exact ⟨j, ⟨i, hi, hj⟩, ha⟩

def eraseMultiple (s t : IntervalSet) : IntervalSet :=
  t.intervals.foldl (fun s i => s.eraseHull i.lo i.hi) s

theorem mem_eraseMultiple {t : IntervalSet} : a ∈ s.eraseMultiple t ↔ a ∈ s ∧ a ∉ t := by
  have hfold : ∀ (l : List Interval) (s : IntervalSet), (∀ i ∈ l, i.lo ≤ i.hi) →
      (a ∈ l.foldl (fun s i => s.eraseHull i.lo i.hi) s ↔ a ∈ s ∧ ∀ i ∈ l, a ∉ i) := by
    intro l
    induction l with
    | nil => simp
    | cons i rest ih =>
      intro s hl
      obtain ⟨hi, hrest⟩ := List.forall_mem_cons.mp hl
      rw [List.foldl_cons, ih _ hrest, mem_eraseHull, Interval.mem_hull hi, List.forall_mem_cons,
        and_assoc]
      rfl
  rw [eraseMultiple, hfold _ _ t.nonempty, mem_iff (s := t)]
  simp only [not_exists, not_and]

/-- The numbers that are in both sets. -/
def inter (s t : IntervalSet) : IntervalSet := s.eraseMultiple (s.eraseMultiple t)

theorem mem_inter {t : IntervalSet} : a ∈ s.inter t ↔ a ∈ s ∧ a ∈ t := by
  rw [inter, mem_eraseMultiple, mem_eraseMultiple]
  tauto

/-- Whether all numbers of an interval are held. -/
def contains (s : IntervalSet) (i : Interval) : Bool := (List.range' i.lo i.size).all (· ∈ s)

theorem contains_iff : s.contains i = true ↔ ∀ a ∈ i, a ∈ s := by
  simp only [contains, List.all_eq_true, List.mem_range'_1, decide_eq_true_eq, Interval.mem_iff,
    Interval.size]
  constructor
  · intro h a ha
    exact h a (by omega)
  · intro h a ha
    exact h a (by omega)

/-- Whether all numbers of another set are held. -/
def containsAll (s t : IntervalSet) : Bool := t.intervals.all s.contains

theorem containsAll_iff {t : IntervalSet} : s.containsAll t = true ↔ ∀ a ∈ t, a ∈ s := by
  simp only [containsAll, List.all_eq_true, contains_iff]
  constructor
  · intro h a ⟨i, hi, ha⟩
    exact h i hi a ha
  · intro h i hi a ha
    exact h a ⟨i, hi, ha⟩

/-- The number of numbers held. -/
def size (s : IntervalSet) : Nat := (s.intervals.map Interval.size).sum

def least (s : IntervalSet) : Nat := (s.intervals.head?.map Interval.lo).getD 0

def greatest (s : IntervalSet) : Nat := (s.intervals.getLast?.map Interval.hi).getD 0

theorem size_eq_one : s.size = 1 ↔ ∃ b, ∀ a, a ∈ s ↔ a = b := by
  obtain ⟨l, hne, hs⟩ := s
  cases l with
  | nil =>
    refine ⟨fun h => by simp [size] at h, ?_⟩
    rintro ⟨b, hb⟩
    obtain ⟨i, hi, -⟩ := (hb b).mpr rfl
    cases hi
  | cons i rest =>
    obtain ⟨hi, hrest⟩ := List.forall_mem_cons.mp hne
    cases rest with
    | nil =>
      simp only [size, mem_iff, List.map_cons, List.map_nil, List.sum_cons, List.sum_nil,
        List.mem_singleton, exists_eq_left, Interval.size, Interval.mem_iff]
      constructor
      · intro h
        exact ⟨i.lo, fun a => by omega⟩
      · rintro ⟨b, hb⟩
        have hlo := (hb i.lo).mp ⟨le_rfl, hi⟩
        have hhi := (hb i.hi).mp ⟨hi, le_rfl⟩
        omega
    | cons j rest =>
      have hj := hrest j (by simp)
      constructor
      · intro h
        simp only [size, List.map_cons, List.sum_cons, Interval.size] at h
        omega
      · rintro ⟨b, hb⟩
        have hgap := (List.pairwise_cons.mp hs).1 j (by simp)
        have hlo := (hb i.lo).mp ⟨i, by simp, le_rfl, hi⟩
        have hlo' := (hb j.lo).mp ⟨j, by simp, le_rfl, hj⟩
        omega

/-- The intervals of a set are determined by the numbers in it. -/
theorem intervals_unique {m : List Interval} (hl : ∀ i ∈ l, i.lo ≤ i.hi)
    (hls : l.Pairwise fun i j => i.hi + 1 < j.lo) (hm : ∀ i ∈ m, i.lo ≤ i.hi)
    (hms : m.Pairwise fun i j => i.hi + 1 < j.lo)
    (h : ∀ a, (∃ i ∈ l, a ∈ i) ↔ ∃ i ∈ m, a ∈ i) : l = m := by
  induction l generalizing m with
  | nil =>
    cases m with
    | nil => rfl
    | cons j rest =>
      obtain ⟨i, hi, -⟩ := (h j.lo).mpr ⟨j, by simp, le_rfl, hm j (by simp)⟩
      cases hi
  | cons i rest ih =>
    cases m with
    | nil =>
      obtain ⟨j, hj, -⟩ := (h i.lo).mp ⟨i, by simp, le_rfl, hl i (by simp)⟩
      cases hj
    | cons j rest' =>
      obtain ⟨hi, hrest⟩ := List.forall_mem_cons.mp hl
      obtain ⟨hj, hrest'⟩ := List.forall_mem_cons.mp hm
      obtain ⟨hgap, hsep⟩ := List.pairwise_cons.mp hls
      obtain ⟨hgap', hsep'⟩ := List.pairwise_cons.mp hms
      simp only [List.exists_mem_cons_iff, Interval.mem_iff] at h
      -- the first intervals begin and end at the same numbers
      have hlo : j.lo ≤ i.lo := by
        rcases (h i.lo).mp (.inl ⟨le_rfl, hi⟩) with hin | ⟨k, hk, hin⟩
        · exact hin.1
        · have hk := hgap' k hk
          omega
      have hlo' : i.lo ≤ j.lo := by
        rcases (h j.lo).mpr (.inl ⟨le_rfl, hj⟩) with hin | ⟨k, hk, hin⟩
        · exact hin.1
        · have hk := hgap k hk
          omega
      have hhi : j.hi ≤ i.hi := by
        by_contra hlt
        rcases (h (i.hi + 1)).mpr (.inl ⟨by omega, by omega⟩) with hin | ⟨k, hk, hin⟩
        · omega
        · have hk := hgap k hk
          omega
      have hhi' : i.hi ≤ j.hi := by
        by_contra hlt
        rcases (h (j.hi + 1)).mp (.inl ⟨by omega, by omega⟩) with hin | ⟨k, hk, hin⟩
        · omega
        · have hk := hgap' k hk
          omega
      have heq : i = j := by
        cases i
        cases j
        dsimp only at hlo hlo' hhi hhi'
        rw [le_antisymm hlo' hlo, le_antisymm hhi' hhi]
      subst heq
      refine congrArg (i :: ·) (ih hrest hsep hrest' hsep' fun a => ?_)
      constructor
      · intro ⟨k, hk, ha⟩
        have hlt := hgap k hk
        refine ((h a).mp (.inr ⟨k, hk, ha⟩)).resolve_left fun hin => ?_
        rw [Interval.mem_iff] at ha
        omega
      · intro ⟨k, hk, ha⟩
        have hlt := hgap' k hk
        refine ((h a).mpr (.inr ⟨k, hk, ha⟩)).resolve_left fun hin => ?_
        rw [Interval.mem_iff] at ha
        omega

theorem intervals_eq_iff {t : IntervalSet} :
    s.intervals = t.intervals ↔ ∀ a, a ∈ s ↔ a ∈ t := by
  constructor
  · intro h a
    rw [mem_iff, mem_iff, h]
  · intro h
    exact intervals_unique s.nonempty s.separated t.nonempty t.separated h

theorem least_mem (h : s.isEmpty = false) : s.least ∈ s := by
  obtain ⟨l, hne, hs⟩ := s
  cases l with
  | nil => simp [isEmpty] at h
  | cons i rest => exact ⟨i, by simp, le_rfl, hne i (by simp)⟩

theorem least_le (h : a ∈ s) : s.least ≤ a := by
  obtain ⟨l, hne, hs⟩ := s
  obtain ⟨i, hi, ha⟩ := h
  cases l with
  | nil => cases hi
  | cons j rest =>
    show j.lo ≤ a
    rw [Interval.mem_iff] at ha
    rcases List.mem_cons.mp hi with rfl | hi
    · exact ha.1
    · have hgap := (List.pairwise_cons.mp hs).1 i hi
      have hj := hne j (by simp)
      omega

theorem le_greatest (h : a ∈ s) : a ≤ s.greatest := by
  obtain ⟨l, hne, hs⟩ := s
  obtain ⟨i, hi, -, ha⟩ := h
  have hsome : l.getLast?.isSome := by
    rw [List.getLast?_isSome]
    exact List.ne_nil_of_mem hi
  obtain ⟨last, hlast⟩ := Option.isSome_iff_exists.mp hsome
  have hmem : last ∈ l := List.mem_of_getLast? hlast
  rw [greatest, hlast]
  dsimp only [Option.map_some, Option.getD_some]
  obtain ⟨front, rfl⟩ := List.getLast?_eq_some_iff.mp hlast
  rcases List.mem_append.mp hi with hi | hi
  · have hgap := (List.pairwise_append.mp hs).2.2 i hi last (by simp)
    have hle := hne last (by simp)
    omega
  · rw [← List.mem_singleton.mp hi]
    exact ha

theorem greatest_mem (h : s.isEmpty = false) : s.greatest ∈ s := by
  obtain ⟨l, hne, hs⟩ := s
  have hsome : l.getLast?.isSome := by
    rw [List.getLast?_isSome]
    rintro rfl
    simp [isEmpty] at h
  obtain ⟨last, hlast⟩ := Option.isSome_iff_exists.mp hsome
  have hmem : last ∈ l := List.mem_of_getLast? hlast
  rw [greatest, hlast]
  exact ⟨last, hmem, hne last hmem, le_rfl⟩

theorem isEmpty_eq_false (h : a ∈ s) : s.isEmpty = false := by
  by_contra hempty
  rw [Bool.not_eq_false, isEmpty_iff] at hempty
  exact hempty a h

theorem greatest_le {m : Nat} (h : ∀ a ∈ s, a ≤ m) : s.greatest ≤ m := by
  cases hempty : s.isEmpty with
  | false => exact h _ (greatest_mem hempty)
  | true =>
    have hnil : s.intervals = [] := List.isEmpty_iff.mp hempty
    rw [greatest, hnil]
    exact Nat.zero_le m

end IntervalSet

end LoomX
