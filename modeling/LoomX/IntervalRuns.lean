import Mathlib.Data.List.Basic
import Mathlib.Order.Lattice

namespace LoomX.IntervalRuns

/-- Half-open intervals. -/
abbrev Runs := List (Nat × Nat)

/-- The run contains the address. -/
def Covers (runs : Runs) (a : Nat) : Prop := ∃ r ∈ runs, r.1 ≤ a ∧ a < r.2

/-- Nonempty intervals in increasing order with a gap between any two. -/
def Separated : Runs → Prop
  | [] => True
  | r :: rest => r.1 < r.2 ∧ (∀ r' ∈ rest, r.2 < r'.1) ∧ Separated rest

/-- Insertion merges every interval that overlaps or touches the new one. -/
def insertRun (lo hi : Nat) : Runs → Runs
  | [] => [(lo, hi)]
  | (l, h) :: rest =>
    if hi < l then (lo, hi) :: (l, h) :: rest
    else if h < lo then (l, h) :: insertRun lo hi rest
    else insertRun (min lo l) (max hi h) rest

@[simp] theorem covers_nil (a : Nat) : ¬ Covers [] a := by
  rintro ⟨r, hr, -⟩
  cases hr

@[simp] theorem covers_cons {r : Nat × Nat} {rest : Runs} {a : Nat} :
    Covers (r :: rest) a ↔ (r.1 ≤ a ∧ a < r.2) ∨ Covers rest a := by
  simp [Covers]

theorem covers_insertRun {lo hi : Nat} {runs : Runs} (h : lo ≤ hi) (hs : Separated runs) (a : Nat) :
    Covers (insertRun lo hi runs) a ↔ (lo ≤ a ∧ a < hi) ∨ Covers runs a := by
  induction runs generalizing lo hi with
  | nil => simp [insertRun]
  | cons r rest ih =>
    obtain ⟨l, e⟩ := r
    obtain ⟨hle, -, hrest⟩ := hs
    simp only at hle
    rw [insertRun]
    split
    next => simp
    next hge =>
      split
      next => simp only [covers_cons, ih h hrest, or_left_comm]
      next hge' =>
        rw [ih (by omega) hrest, covers_cons, ← or_assoc]
        have hmerge : (min lo l ≤ a ∧ a < max hi e) ↔ (lo ≤ a ∧ a < hi) ∨ (l ≤ a ∧ a < e) := by
          omega
        rw [hmerge]

theorem insertRun_above {b lo hi : Nat} {runs : Runs} (hlo : b < lo) (h : ∀ r ∈ runs, b < r.1) :
    ∀ r ∈ insertRun lo hi runs, b < r.1 := by
  induction runs generalizing lo hi with
  | nil => simpa [insertRun] using hlo
  | cons r rest ih =>
    obtain ⟨hr, hrest⟩ := List.forall_mem_cons.mp h
    rw [insertRun]
    split
    next => exact List.forall_mem_cons.mpr ⟨hlo, h⟩
    next =>
      split
      next => exact List.forall_mem_cons.mpr ⟨hr, ih hlo hrest⟩
      next => exact ih (by omega) hrest

theorem separated_insertRun {lo hi : Nat} {runs : Runs} (h : lo < hi) (hs : Separated runs) :
    Separated (insertRun lo hi runs) := by
  induction runs generalizing lo hi with
  | nil => exact ⟨h, by simp, trivial⟩
  | cons r rest ih =>
    obtain ⟨l, e⟩ := r
    obtain ⟨hle, hgap, hrest⟩ := hs
    simp only at hle hgap
    rw [insertRun]
    split
    next hlt =>
      refine ⟨h, List.forall_mem_cons.mpr ⟨hlt, fun r hr => ?_⟩, hle, hgap, hrest⟩
      have := hgap r hr
      omega
    next =>
      split
      next hlt => exact ⟨hle, insertRun_above hlt hgap, ih h hrest⟩
      next => exact ih (by omega) hrest

/-- The union of intervals, none of which is empty. -/
def unionRuns (intervals : List (Nat × Nat)) : Runs :=
  intervals.foldl (fun runs r => insertRun r.1 r.2 runs) []

theorem unionRuns_spec {intervals : List (Nat × Nat)} (h : ∀ r ∈ intervals, r.1 < r.2) :
    Separated (unionRuns intervals) ∧
      ∀ a, Covers (unionRuns intervals) a ↔ ∃ r ∈ intervals, r.1 ≤ a ∧ a < r.2 := by
  have hfold (runs : Runs) (hs : Separated runs) :
      Separated (intervals.foldl (fun runs r => insertRun r.1 r.2 runs) runs) ∧
        ∀ a, Covers (intervals.foldl (fun runs r => insertRun r.1 r.2 runs) runs) a ↔
          Covers runs a ∨ ∃ r ∈ intervals, r.1 ≤ a ∧ a < r.2 := by
    induction intervals generalizing runs with
    | nil => exact ⟨hs, by simp⟩
    | cons r rest ih =>
      obtain ⟨hr, hrest⟩ := List.forall_mem_cons.mp h
      obtain ⟨hsep, hcov⟩ := ih hrest _ (separated_insertRun hr hs)
      refine ⟨hsep, fun a => ?_⟩
      rw [List.foldl_cons, hcov, covers_insertRun hr.le hs]
      simp only [List.mem_cons, exists_eq_or_imp]
      exact ⟨by rintro ((h | h) | h) <;> simp [h], by rintro (h | h | h) <;> simp [h]⟩
  have hnil := hfold [] trivial
  refine ⟨hnil.1, fun a => ?_⟩
  rw [unionRuns, hnil.2]
  simp

end LoomX.IntervalRuns
