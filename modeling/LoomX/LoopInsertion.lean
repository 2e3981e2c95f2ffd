import LoomX.DepInfo
import Mathlib.Data.List.ProdSigma

namespace LoomX

inductive DepDirection
  | src
  | sink
  | srcSink
  deriving DecidableEq

namespace DepDirection

def srcIncr : DepDirection → Nat
  | .sink => 0
  | .src | .srcSink => 1

def sinkIncr : DepDirection → Nat
  | .src => 0
  | .sink | .srcSink => 1

end DepDirection

namespace DepInfo

def setEntry (e : Nat → Nat → DepRel) (i j : Nat) (r : DepRel) : Nat → Nat → DepRel :=
  fun i' j' => if i' = i ∧ j' = j then r else e i' j'

/-- Two nested loops that copy entries, the columns of one row after another. -/
def copyEntries (rows cols : List Nat) (toRow toCol : Nat → Nat) (tmp e : Nat → Nat → DepRel) :
    Nat → Nat → DepRel :=
  (rows.product cols).foldl (fun e p => setEntry e (toRow p.1) (toCol p.2) (tmp p.1 p.2)) e

def setRow (level n : Nat) (r : DepRel) (e : Nat → Nat → DepRel) : Nat → Nat → DepRel :=
  (List.range n).foldl (fun e j => setEntry e level j r) e

def setCol (level n : Nat) (r : DepRel) (e : Nat → Nat → DepRel) : Nat → Nat → DepRel :=
  (List.range n).foldl (fun e i => setEntry e i level r) e

/-- Where an index of a dimension stands after an insertion. -/
def insertedIndex (level size incr i : Nat) : Nat :=
  if level < size ∧ i < level then i else i + incr

/-- Where an index of a dimension stands after a removal. -/
def removedIndex (level incr i : Nat) : Nat :=
  if i < level then i else i - incr

def keptIndices (level size incr : Nat) : List Nat :=
  (List.range size).filter fun i => i < level ∨ level + incr ≤ i

/-- The last assertion of `InsertLoop` and `RemoveLoop`. -/
def checked (d : DepInfo) (rows cols commonLevel : Nat) (entry : Nat → Nat → DepRel) :
    Option DepInfo :=
  if h : commonLevel ≤ rows ∧ commonLevel ≤ cols then
    some
      { rows := rows
        cols := cols
        precise := d.precise
        commonLevel := commonLevel
        commonLevel_le_rows := h.1
        commonLevel_le_cols := h.2
        entry := entry }
  else none

/-- `left` is what the matrix holds after `Reset`. -/
def insertLoop (left : Nat → Nat → DepRel) (d : DepInfo) (level : Nat) (dir : DepDirection) :
    Option DepInfo :=
  let d1 := d.rows
  let d2 := d.cols
  let incr1 := dir.srcIncr
  let incr2 := dir.sinkIncr
  if ¬((incr1 = 0 ∨ level < d1) ∧ (incr2 = 0 ∨ level < d2)) then none
  else if d1 = 0 ∨ d2 = 0 then
    some { d with
      rows := d1 + incr1
      cols := d2 + incr2
      commonLevel_le_rows := d.commonLevel_le_rows.trans (Nat.le_add_right _ _)
      commonLevel_le_cols := d.commonLevel_le_cols.trans (Nat.le_add_right _ _)
      entry := left }
  else
    let entry := copyEntries (List.range d1) (List.range d2) (insertedIndex level d1 incr1)
      (insertedIndex level d2 incr2) d.entry left
    let entry := if incr1 = 0 then entry else setRow level (d2 + incr2) (.reset .all 0 0) entry
    let entry := if incr2 = 0 then entry else setCol level (d1 + incr1) (.reset .all 0 0) entry
    let commonLevel :=
      if level ≤ d.commonLevel ∧ incr1 ≠ 0 ∧ incr2 ≠ 0 then d.commonLevel + 1 else d.commonLevel
    d.checked (d1 + incr1) (d2 + incr2) commonLevel entry

def removeLoop (left : Nat → Nat → DepRel) (d : DepInfo) (level : Nat) (dir : DepDirection) :
    Option DepInfo :=
  let d1 := d.rows
  let d2 := d.cols
  let commonLevel := if level < d.commonLevel then d.commonLevel - 1 else d.commonLevel
  let incr1 := dir.srcIncr
  let incr2 := dir.sinkIncr
  if ¬(incr1 ≤ d1 ∧ incr2 ≤ d2) then none
  else
    let entry := copyEntries (keptIndices level d1 incr1) (keptIndices level d2 incr2)
      (removedIndex level incr1) (removedIndex level incr2) d.entry left
    d.checked (d1 - incr1) (d2 - incr2) commonLevel entry

theorem setEntry_self (e : Nat → Nat → DepRel) (i j : Nat) (r : DepRel) :
    setEntry e i j r i j = r :=
  if_pos ⟨rfl, rfl⟩

theorem setEntry_of_ne {e : Nat → Nat → DepRel} {i j i' j' : Nat} {r : DepRel}
    (h : i' ≠ i ∨ j' ≠ j) : setEntry e i j r i' j' = e i' j' :=
  if_neg (by omega)

theorem setRow_of_ne {level n i : Nat} (j : Nat) {r : DepRel} {e : Nat → Nat → DepRel}
    (h : i ≠ level) : setRow level n r e i j = e i j := by
  unfold setRow
  refine List.foldlRecOn (motive := fun e' : Nat → Nat → DepRel => e' i j = e i j) _ _ rfl
    fun e' he' k _ => ?_
  rw [setEntry_of_ne (Or.inl h), he']

theorem setCol_of_ne {level n j : Nat} (i : Nat) {r : DepRel} {e : Nat → Nat → DepRel}
    (h : j ≠ level) : setCol level n r e i j = e i j := by
  unfold setCol
  refine List.foldlRecOn (motive := fun e' : Nat → Nat → DepRel => e' i j = e i j) _ _ rfl
    fun e' he' k _ => ?_
  rw [setEntry_of_ne (Or.inr h), he']

/-- A copied entry is not written again with another value. -/
theorem copyEntries_apply {rows cols : List Nat} {toRow toCol : Nat → Nat}
    {tmp e : Nat → Nat → DepRel} {i j : Nat} (hi : i ∈ rows) (hj : j ∈ cols)
    (hrow : ∀ i' ∈ rows, toRow i' = toRow i → i' = i)
    (hcol : ∀ j' ∈ cols, toCol j' = toCol j → j' = j) :
    copyEntries rows cols toRow toCol tmp e (toRow i) (toCol j) = tmp i j := by
  have hmem : (i, j) ∈ rows.product cols := List.mem_product.mpr ⟨hi, hj⟩
  obtain ⟨before, after, hsplit⟩ := List.append_of_mem hmem
  rw [copyEntries, hsplit, List.foldl_append, List.foldl_cons]
  refine List.foldlRecOn (motive := fun e' : Nat → Nat → DepRel =>
    e' (toRow i) (toCol j) = tmp i j) after _ (setEntry_self _ _ _ _) fun e' he' p hp => ?_
  have hp : p ∈ rows.product cols := by
    rw [hsplit]
    exact List.mem_append_right _ (List.mem_cons_of_mem _ hp)
  obtain ⟨hp1, hp2⟩ := List.mem_product.mp hp
  by_cases hsame : toRow i = toRow p.1 ∧ toCol j = toCol p.2
  · rw [hsame.1, hsame.2, setEntry_self, hrow _ hp1 hsame.1.symm, hcol _ hp2 hsame.2.symm]
  · rw [setEntry_of_ne (by omega), he']

/-- An index is kept by the removal that follows its insertion, and comes back. -/
theorem removedIndex_insertedIndex {level size incr i : Nat} (hlevel : incr = 0 ∨ level < size)
    (hi : i < size) :
    insertedIndex level size incr i ∈ keptIndices level (size + incr) incr ∧
      removedIndex level incr (insertedIndex level size incr i) = i := by
  rw [keptIndices, List.mem_filter, List.mem_range, decide_eq_true_iff, removedIndex, insertedIndex]
  split <;> split <;> omega

theorem removedIndex_injOn {level size incr i i' : Nat} (hi : i ∈ keptIndices level size incr)
    (hi' : i' ∈ keptIndices level size incr)
    (h : removedIndex level incr i' = removedIndex level incr i) :
    i' = i := by
  rw [keptIndices, List.mem_filter, decide_eq_true_iff] at hi hi'
  have hi := hi.2
  have hi' := hi'.2
  unfold removedIndex at h
  split at h <;> split at h <;> omega

theorem insertedIndex_injective {level size incr i i' : Nat}
    (h : insertedIndex level size incr i' = insertedIndex level size incr i) : i' = i := by
  unfold insertedIndex at h
  split at h <;> split at h <;> omega

theorem insertedIndex_ne {level size incr i : Nat} (hincr : incr ≠ 0) (hlevel : level < size) :
    insertedIndex level size incr i ≠ level := by
  unfold insertedIndex
  split <;> omega

theorem checked_eq_some {d : DepInfo} {rows cols commonLevel : Nat} {entry : Nat → Nat → DepRel}
    (hr : commonLevel ≤ rows) (hc : commonLevel ≤ cols) :
    ∃ d', d.checked rows cols commonLevel entry = some d' ∧ d'.rows = rows ∧ d'.cols = cols ∧
      d'.precise = d.precise ∧ d'.commonLevel = commonLevel ∧ d'.entry = entry :=
  ⟨_, dif_pos ⟨hr, hc⟩, rfl, rfl, rfl, rfl, rfl⟩

/-- What an insertion does: each entry moves, and the common level only grows with both sides. -/
theorem insertLoop_spec {d : DepInfo} {level : Nat} {dir : DepDirection}
    (left : Nat → Nat → DepRel) (hsrc : dir.srcIncr = 0 ∨ level < d.rows)
    (hsink : dir.sinkIncr = 0 ∨ level < d.cols) :
    ∃ d', d.insertLoop left level dir = some d' ∧ d'.rows = d.rows + dir.srcIncr ∧
      d'.cols = d.cols + dir.sinkIncr ∧ d'.precise = d.precise ∧
      d'.commonLevel = (if level ≤ d.commonLevel ∧ dir = .srcSink then d.commonLevel + 1
        else d.commonLevel) ∧
      ∀ i < d.rows, ∀ j < d.cols, d'.entry (insertedIndex level d.rows dir.srcIncr i)
        (insertedIndex level d.cols dir.sinkIncr j) = d.entry i j := by
  have hr := d.commonLevel_le_rows
  have hc := d.commonLevel_le_cols
  unfold insertLoop
  rw [if_neg (not_not.mpr ⟨hsrc, hsink⟩)]
  by_cases hempty : d.rows = 0 ∨ d.cols = 0
  · rw [if_pos hempty]
    refine ⟨_, rfl, rfl, rfl, rfl, ?_, fun i hi j hj => by omega⟩
    have hone : ¬(level ≤ d.commonLevel ∧ dir = .srcSink) := fun h => by
      rw [h.2] at hsrc hsink
      simp only [DepDirection.srcIncr, DepDirection.sinkIncr] at hsrc hsink
      omega
    rw [if_neg hone]
  · rw [if_neg hempty]
    have hboth : (level ≤ d.commonLevel ∧ dir.srcIncr ≠ 0 ∧ dir.sinkIncr ≠ 0) ↔
        (level ≤ d.commonLevel ∧ dir = .srcSink) := by
      cases dir <;> simp [DepDirection.srcIncr, DepDirection.sinkIncr]
    simp only [hboth]
    have hgrow : (if level ≤ d.commonLevel ∧ dir = .srcSink then d.commonLevel + 1
        else d.commonLevel) ≤ d.commonLevel + min dir.srcIncr dir.sinkIncr := by
      split
      next h =>
        rw [h.2]
        exact Nat.le_refl _
      next => exact Nat.le_add_right _ _
    obtain ⟨d', hd', hrows, hcols, hprecise, hcommon, hentry⟩ := @checked_eq_some d
      (d.rows + dir.srcIncr) (d.cols + dir.sinkIncr)
      (if level ≤ d.commonLevel ∧ dir = .srcSink then d.commonLevel + 1 else d.commonLevel) _
      (by omega) (by omega)
    refine ⟨d', hd', hrows, hcols, hprecise, hcommon, fun i hi j hj => ?_⟩
    have hcopy := @copyEntries_apply (List.range d.rows) (List.range d.cols)
      (insertedIndex level d.rows dir.srcIncr) (insertedIndex level d.cols dir.sinkIncr) d.entry left
      i j (List.mem_range.mpr hi) (List.mem_range.mpr hj) (fun i' _ => insertedIndex_injective)
      fun j' _ => insertedIndex_injective
    rw [hentry, ← hcopy]
    -- the new row and the new column leave the entries that were moved
    by_cases h1 : dir.srcIncr = 0 <;> by_cases h2 : dir.sinkIncr = 0
    · rw [if_pos h1, if_pos h2]
    · rw [if_pos h1, if_neg h2, setCol_of_ne]
      exact insertedIndex_ne h2 (by omega)
    · rw [if_neg h1, if_pos h2, setRow_of_ne]
      exact insertedIndex_ne h1 (by omega)
    · rw [if_neg h1, if_neg h2, setCol_of_ne, setRow_of_ne]
      · exact insertedIndex_ne h1 (by omega)
      · exact insertedIndex_ne h2 (by omega)

/-- Removing an inserted level gives the matrix back, and the common level unless a level below it
was inserted on one side only; it is then one smaller. -/
theorem removeLoop_insertLoop {d : DepInfo} {level : Nat} {dir : DepDirection}
    (left left' : Nat → Nat → DepRel) (hsrc : dir.srcIncr = 0 ∨ level < d.rows)
    (hsink : dir.sinkIncr = 0 ∨ level < d.cols) :
    ∃ d' d'', d.insertLoop left level dir = some d' ∧ d'.removeLoop left' level dir = some d'' ∧
      d''.rows = d.rows ∧ d''.cols = d.cols ∧ d''.precise = d.precise ∧
      (∀ i < d.rows, ∀ j < d.cols, d''.entry i j = d.entry i j) ∧
      d''.commonLevel =
        if dir = .srcSink ∨ d.commonLevel ≤ level then d.commonLevel else d.commonLevel - 1 := by
  obtain ⟨d', hd', hrows, hcols, hprecise, hcommon, hentry⟩ := insertLoop_spec left hsrc hsink
  have hr := d.commonLevel_le_rows
  have hc := d.commonLevel_le_cols
  have hback : (if level < d'.commonLevel then d'.commonLevel - 1 else d'.commonLevel) =
      if dir = .srcSink ∨ d.commonLevel ≤ level then d.commonLevel else d.commonLevel - 1 := by
    by_cases hdir : dir = .srcSink
    · rw [if_pos (Or.inl hdir)]
      by_cases hlevel : level ≤ d.commonLevel
      · rw [if_pos ⟨hlevel, hdir⟩] at hcommon
        rw [if_pos (by omega), hcommon, Nat.add_sub_cancel]
      · rw [if_neg (fun h => hlevel h.1)] at hcommon
        rw [if_neg (by omega), hcommon]
    · rw [if_neg (fun h => hdir h.2)] at hcommon
      simp only [hdir, false_or]
      split <;> split <;> omega
  have hle : (if dir = .srcSink ∨ d.commonLevel ≤ level then d.commonLevel
      else d.commonLevel - 1) ≤ d.commonLevel := by
    split <;> omega
  obtain ⟨d'', hd'', hrows', hcols', hprecise', hcommon', hentry'⟩ := @checked_eq_some d'
    (d'.rows - dir.srcIncr) (d'.cols - dir.sinkIncr)
    (if level < d'.commonLevel then d'.commonLevel - 1 else d'.commonLevel)
    (copyEntries (keptIndices level d'.rows dir.srcIncr) (keptIndices level d'.cols dir.sinkIncr)
      (removedIndex level dir.srcIncr) (removedIndex level dir.sinkIncr) d'.entry left')
    (by omega) (by omega)
  refine ⟨d', d'', hd', ?_, by omega, by omega, hprecise'.trans hprecise, fun i hi j hj => ?_,
    hcommon'.trans hback⟩
  · unfold removeLoop
    rw [if_neg (not_not.mpr ⟨by omega, by omega⟩)]
    exact hd''
  · obtain ⟨hikept, hiback⟩ := removedIndex_insertedIndex hsrc hi
    obtain ⟨hjkept, hjback⟩ := removedIndex_insertedIndex hsink hj
    rw [← hrows] at hikept
    rw [← hcols] at hjkept
    have hcopy := @copyEntries_apply _ _ (removedIndex level dir.srcIncr)
      (removedIndex level dir.sinkIncr) d'.entry left' _ _ hikept hjkept
      (fun i' hi' => removedIndex_injOn hikept hi') fun j' hj' => removedIndex_injOn hjkept hj'
    rw [hiback, hjback] at hcopy
    rw [hentry', hcopy, hentry i hi j hj]

/-- A common level below which a loop was inserted on both sides. -/
theorem removeLoop_insertLoop_outermost :
    ∃ d' d'', (getDepInfo 1 1 true 1 (by decide) (by decide)).insertLoop
        (fun _ _ => .reset .none 0 0) 0 .srcSink = some d' ∧
      d'.removeLoop (fun _ _ => .reset .none 0 0) 0 .srcSink = some d'' ∧ d''.rows = 1 ∧
      d''.cols = 1 ∧ d''.precise = true ∧
      (∀ i < 1, ∀ j < 1, d''.entry i j = .reset .all 0 0) ∧ d''.commonLevel = 1 :=
  removeLoop_insertLoop (d := .getDepInfo 1 1 true 1 (by decide) (by decide)) _ _
    (Or.inr (by decide)) (Or.inr (by decide))

/-- A loop inserted for the source alone takes a common level with it. -/
theorem removeLoop_insertLoop_source :
    (((getDepInfo 1 1 true 1 (by decide) (by decide)).insertLoop
      (fun _ _ => .reset .none 0 0) 0 .src).bind
        (·.removeLoop (fun _ _ => .reset .none 0 0) 0 .src)).map (·.commonLevel) = some 0 ∧
      (getDepInfo 1 1 true 1 (by decide) (by decide)).commonLevel = 1 := by
  decide

end DepInfo

end LoomX
