import Mathlib.Data.List.Basic
import Mathlib.Data.List.NodupEquivFin
import Mathlib.Logic.Function.Basic

namespace LoomX.CountedHandles

/-- An object and how many handles refer to it. -/
structure Cell (α : Type) where
  value : α
  count : Nat

/-- Handles that share counted objects until one of them is written to. -/
structure Store (α : Type) where
  cells : Nat → Option (Cell α)
  fresh : Nat
  handles : List Nat

namespace Store

variable {α : Type}

def empty : Store α := ⟨fun _ => none, 0, []⟩

/-- A handle for a new object. -/
def create (s : Store α) (value : α) : Store α :=
  ⟨Function.update s.cells s.fresh (some ⟨value, 1⟩), s.fresh + 1, s.handles ++ [s.fresh]⟩

/-- Another handle for the object of handle `i`. -/
def copy (s : Store α) (i : Nat) : Option (Store α) := do
  let r ← s.handles[i]?
  let cell ← s.cells r
  some { s with
    cells := Function.update s.cells r (some { cell with count := cell.count + 1 })
    handles := s.handles ++ [r] }

/-- Handle `i` gets an object of its own if it shares one. -/
def unshare (s : Store α) (i : Nat) : Option (Store α) := do
  let r ← s.handles[i]?
  let cell ← s.cells r
  if cell.count > 1 then
    let released := Function.update s.cells r (some { cell with count := cell.count - 1 })
    some ⟨Function.update released s.fresh (some ⟨cell.value, 1⟩), s.fresh + 1,
      s.handles.set i s.fresh⟩
  else some s

def value (s : Store α) (i : Nat) : Option α := do
  let r ← s.handles[i]?
  let cell ← s.cells r
  some cell.value

/-- The object of handle `i` is written to. -/
def update (s : Store α) (i : Nat) (f : α → Option α) : Option (Store α) := do
  let s ← s.unshare i
  let r ← s.handles[i]?
  let cell ← s.cells r
  let value ← f cell.value
  some { s with cells := Function.update s.cells r (some { cell with value }) }

/-- The handles refer to the values, and each object knows how many of them refer to it. -/
structure Holds (s : Store α) (vs : List α) : Prop where
  length : s.handles.length = vs.length
  cell : ∀ (i r : Nat) (v : α), s.handles[i]? = some r → vs[i]? = some v →
    r < s.fresh ∧ s.cells r = some ⟨v, s.handles.count r⟩

variable {s : Store α} {vs : List α} {i r : Nat} {v w : α}

theorem holds_empty : (empty : Store α).Holds [] := ⟨rfl, fun i r v h => by cases h⟩

theorem Holds.exists_handle (h : s.Holds vs) (hv : vs[i]? = some v) :
    ∃ r, s.handles[i]? = some r := by
  obtain ⟨hi, -⟩ := List.getElem?_eq_some_iff.mp hv
  exact ⟨_, List.getElem?_eq_getElem (h.length ▸ hi)⟩

theorem Holds.exists_value (h : s.Holds vs) (hr : s.handles[i]? = some r) :
    ∃ v, vs[i]? = some v := by
  obtain ⟨hi, -⟩ := List.getElem?_eq_some_iff.mp hr
  exact ⟨_, List.getElem?_eq_getElem (h.length ▸ hi)⟩

theorem Holds.lt_fresh (h : s.Holds vs) (hr : r ∈ s.handles) : r < s.fresh := by
  obtain ⟨i, hi⟩ := List.mem_iff_getElem?.mp hr
  obtain ⟨v, hv⟩ := h.exists_value hi
  exact (h.cell i r v hi hv).1

theorem Holds.fresh_notMem (h : s.Holds vs) : s.fresh ∉ s.handles :=
  fun hmem => Nat.lt_irrefl _ (h.lt_fresh hmem)

theorem Holds.value_eq (h : s.Holds vs) (hv : vs[i]? = some v) : s.value i = some v := by
  obtain ⟨r, hr⟩ := h.exists_handle hv
  simp only [value, hr, (h.cell i r v hr hv).2, Option.bind_eq_bind, Option.bind_some]

/-- What is known about a list that another entry is put behind. -/
theorem getElem?_concat {β : Type} {l : List β} {x y : β} (h : (l ++ [x])[i]? = some y) :
    l[i]? = some y ∨ i = l.length ∧ x = y := by
  rcases Nat.lt_trichotomy i l.length with hlt | rfl | hgt
  · rw [List.getElem?_append_left hlt] at h
    exact .inl h
  · rw [List.getElem?_concat_length] at h
    exact .inr ⟨rfl, Option.some.inj h⟩
  · rw [List.getElem?_eq_none (by rw [List.length_append, List.length_singleton]; omega)] at h
    cases h

theorem create_holds (h : s.Holds vs) : (s.create v).Holds (vs ++ [v]) where
  length := by simp only [create, List.length_append, h.length, List.length_singleton]
  cell := by
    intro i r w hr hw
    show r < s.fresh + 1 ∧ _
    simp only [create] at hr ⊢
    have hcount : (s.handles ++ [s.fresh]).count r =
        s.handles.count r + if s.fresh = r then 1 else 0 := by
      rw [List.count_append, List.count_singleton]
      simp only [beq_iff_eq]
    rcases getElem?_concat hr with hr | ⟨rfl, rfl⟩
    · have hlt := h.lt_fresh (List.mem_of_getElem? hr)
      rw [Function.update_of_ne (Nat.ne_of_lt hlt), hcount, if_neg (Nat.ne_of_gt hlt)]
      rcases getElem?_concat hw with hw | ⟨rfl, -⟩
      · exact ⟨Nat.lt_succ_of_lt hlt, (h.cell i r w hr hw).2⟩
      · rw [← h.length, List.getElem?_eq_none (Nat.le_refl _)] at hr
        cases hr
    · rw [h.length, List.getElem?_concat_length] at hw
      obtain rfl := Option.some.inj hw
      rw [Function.update_self, hcount, if_pos rfl, List.count_eq_zero.mpr h.fresh_notMem]
      exact ⟨Nat.lt_succ_self _, rfl⟩

theorem copy_holds (h : s.Holds vs) (hv : vs[i]? = some v) :
    ∃ s', s.copy i = some s' ∧ s'.Holds (vs ++ [v]) := by
  obtain ⟨r, hr⟩ := h.exists_handle hv
  obtain ⟨hlt, hcell⟩ := h.cell i r v hr hv
  simp only [copy, hr, hcell, Option.bind_eq_bind, Option.bind_some]
  refine ⟨_, rfl, ?_, ?_⟩
  · simp only [List.length_append, h.length, List.length_singleton]
  · intro j q w hq hw
    have hcount : (s.handles ++ [r]).count q = s.handles.count q + if r = q then 1 else 0 := by
      rw [List.count_append, List.count_singleton]
      simp only [beq_iff_eq]
    -- the entry behind the others is the one of handle `i` again
    have hold : ∃ k : Nat, s.handles[k]? = some q ∧ vs[k]? = some w := by
      rcases getElem?_concat hq with hq | ⟨rfl, rfl⟩
      · rcases getElem?_concat hw with hw | ⟨rfl, -⟩
        · exact ⟨j, hq, hw⟩
        · rw [← h.length, List.getElem?_eq_none (Nat.le_refl _)] at hq
          cases hq
      · rw [h.length, List.getElem?_concat_length] at hw
        obtain rfl := Option.some.inj hw
        exact ⟨i, hr, hv⟩
    obtain ⟨k, hk, hkw⟩ := hold
    obtain ⟨hq, hqcell⟩ := h.cell k q w hk hkw
    refine ⟨hq, ?_⟩
    dsimp only
    rw [hcount]
    by_cases hsame : r = q
    · subst hsame
      obtain ⟨rfl, -⟩ := Cell.mk.inj (Option.some.inj (hcell.symm.trans hqcell))
      rw [Function.update_self, if_pos rfl]
    · rw [Function.update_of_ne (Ne.symm hsame), if_neg hsame, hqcell]
      rfl

/-- A handle of its own that no other handle refers with. -/
theorem index_unique {l : List Nat} {i j : Nat} (hi : l[i]? = some r) (hj : l[j]? = some r)
    (hcount : l.count r = 1) : i = j := by
  by_contra hne
  have htwo : 2 ≤ l.count r := by
    apply List.duplicate_iff_two_le_count.mp
    apply List.duplicate_iff_exists_distinct_get.mpr
    obtain ⟨hi', hi⟩ := List.getElem?_eq_some_iff.mp hi
    obtain ⟨hj', hj⟩ := List.getElem?_eq_some_iff.mp hj
    rcases Nat.lt_or_gt_of_ne hne with hlt | hgt
    · exact ⟨⟨i, hi'⟩, ⟨j, hj'⟩, hlt, hi.symm, hj.symm⟩
    · exact ⟨⟨j, hj'⟩, ⟨i, hi'⟩, hgt, hj.symm, hi.symm⟩
  omega

theorem unshare_holds (h : s.Holds vs) (hv : vs[i]? = some v) :
    ∃ s', s.unshare i = some s' ∧ s'.Holds vs ∧
      ∃ r, s'.handles[i]? = some r ∧ s'.handles.count r = 1 := by
  obtain ⟨r, hr⟩ := h.exists_handle hv
  obtain ⟨hlt, hcell⟩ := h.cell i r v hr hv
  have hmem : r ∈ s.handles := List.mem_of_getElem? hr
  have hpos : 0 < s.handles.count r := List.count_pos_iff.mpr hmem
  obtain ⟨hi, hget⟩ := List.getElem?_eq_some_iff.mp hr
  simp only [unshare, hr, hcell, Option.bind_eq_bind, Option.bind_some]
  split
  next hshared =>
    have hcount : ∀ q, (s.handles.set i s.fresh).count q =
        s.handles.count q - (if r = q then 1 else 0) + if s.fresh = q then 1 else 0 := by
      intro q
      rw [List.count_set hi, hget]
      simp only [beq_iff_eq]
    have hself : (s.handles.set i s.fresh)[i]? = some s.fresh := by
      rw [List.getElem?_set_self hi]
    have hone : (s.handles.set i s.fresh).count s.fresh = 1 := by
      rw [hcount, List.count_eq_zero.mpr h.fresh_notMem, if_pos rfl]
      omega
    refine ⟨_, rfl, ⟨?_, ?_⟩, s.fresh, hself, hone⟩
    · rw [List.length_set, h.length]
    · intro j q w hq hw
      by_cases hij : i = j
      · subst hij
        obtain rfl := Option.some.inj (hself.symm.trans hq)
        obtain rfl := Option.some.inj (hv.symm.trans hw)
        dsimp only
        rw [Function.update_self, hone]
        exact ⟨Nat.lt_succ_self _, rfl⟩
      · dsimp only at hq ⊢
        rw [List.getElem?_set_ne hij] at hq
        obtain ⟨hq', hqcell⟩ := h.cell j q w hq hw
        rw [Function.update_of_ne (Nat.ne_of_lt hq'), hcount, if_neg (Nat.ne_of_gt hq'),
          Nat.add_zero]
        refine ⟨Nat.lt_succ_of_lt hq', ?_⟩
        by_cases hsame : r = q
        · subst hsame
          obtain ⟨rfl, -⟩ := Cell.mk.inj (Option.some.inj (hcell.symm.trans hqcell))
          rw [Function.update_self, if_pos rfl, Nat.add_zero]
        · rw [Function.update_of_ne (Ne.symm hsame), if_neg hsame, hqcell]
          rfl
  next hown => exact ⟨s, rfl, h, r, hr, by omega⟩

/-- Writing through one handle changes its value only. -/
theorem update_holds (h : s.Holds vs) (hv : vs[i]? = some v) {f : α → Option α}
    (hf : f v = some w) : ∃ s', s.update i f = some s' ∧ s'.Holds (vs.set i w) := by
  obtain ⟨s₁, hunshared, h₁, r, hr, hcount⟩ := unshare_holds h hv
  obtain ⟨hlt, hcell⟩ := h₁.cell i r v hr hv
  simp only [update, hunshared, hr, hcell, hf, Option.bind_eq_bind, Option.bind_some]
  refine ⟨_, rfl, ?_, ?_⟩
  · rw [List.length_set, h₁.length]
  · intro j q x hq hx
    dsimp only at hq ⊢
    by_cases hij : i = j
    · subst hij
      obtain rfl := Option.some.inj (hr.symm.trans hq)
      rw [List.getElem?_set_self (List.getElem?_eq_some_iff.mp hv).1] at hx
      obtain rfl := Option.some.inj hx
      rw [Function.update_self]
      exact ⟨hlt, rfl⟩
    · rw [List.getElem?_set_ne hij] at hx
      obtain ⟨hq', hqcell⟩ := h₁.cell j q x hq hx
      have hother : q ≠ r := by
        rintro rfl
        exact hij (index_unique hr hq hcount)
      rw [Function.update_of_ne hother]
      exact ⟨hq', hqcell⟩

end Store

end LoomX.CountedHandles
