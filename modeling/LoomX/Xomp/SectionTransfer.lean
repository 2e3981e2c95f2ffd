import LoomX.RowCopies
import Mathlib.Tactic.GCongr

namespace LoomX.Xomp

open RowCopies

/-- The range of an `int`. -/
def InInt (x : Int) : Prop := -2 ^ 31 ≤ x ∧ x < 2 ^ 31

instance (x : Int) : Decidable (InInt x) := inferInstanceAs (Decidable (_ ∧ _))

/-- A result of type `int`; overflow is undefined. -/
def int (x : Int) : Option Int := if InInt x then some x else none

/-- A row of an array section in the host array and in the device buffer, in bytes. -/
structure SectionRow where
  host : Int
  buffer : Int
  n : Int

def SectionRow.toDevice (r : SectionRow) : Copy := ⟨r.buffer, r.host, r.n⟩

def SectionRow.toHost (r : SectionRow) : Copy := ⟨r.host, r.buffer, r.n⟩

section
variable (vsize voffset vDimSize : Nat → Int) (typeSize : Int)

/-- The arguments of a copy from the offsets of a row in elements. -/
def sectionRow (host buffer length : Int) : Option SectionRow := do
  let host ← int (host * typeSize)
  let buffer ← int (buffer * typeSize)
  let n ← int (length * typeSize)
  some ⟨host, buffer, n⟩

/-- The row of a one-dimensional section. -/
def lineRow : Option SectionRow := do
  let host ← int (voffset 0 * typeSize)
  let n ← int (vsize 0 * typeSize)
  some ⟨host, 0, n⟩

/-- A row of a two-dimensional section, where `vsize[1]` is the fastest dimension. -/
def matrixRow (j : Int) : Option SectionRow := do
  let row ← int (j + voffset 0)
  let row ← int (row * vDimSize 1)
  let host ← int (voffset 1 + row)
  let buffer ← int (j * vsize 1)
  sectionRow typeSize host buffer (vsize 1)

/-- The offsets before the first row of a plane in `xomp_memGatherDeviceToHost`. -/
def gatherPlane (j : Int) : Option (Int × Int) := do
  let plane ← int (j + voffset 2)
  let plane ← int (vDimSize 1 * plane)
  let plane ← int (voffset 1 + plane)
  let plane ← int (vDimSize 0 * plane)
  let plane ← int (voffset 0 + plane)
  let host ← int (plane - vDimSize 0)
  let plane ← int (j * vsize 2)
  let plane ← int (vsize 1 * plane)
  let buffer ← int (plane - vsize 0)
  some (host, buffer)

/-- The offsets before the first row of a plane in `xomp_memScatterHostToDevice`. -/
def scatterPlane (j : Int) : Option (Int × Int) := do
  let plane ← int (j + voffset 2)
  let plane ← int (plane * vDimSize 0)
  let plane ← int (plane * vDimSize 1)
  let row ← int (voffset 1 * vDimSize 0)
  let plane ← int (plane + row)
  let plane ← int (plane + voffset 0)
  let host ← int (plane - vDimSize 0)
  let plane ← int (j * vsize 1)
  let plane ← int (plane * vsize 2)
  let buffer ← int (plane - vsize 0)
  some (host, buffer)

/-- The loop over the rows of a plane. -/
def planeRows : Nat → Int → Int → Option (List SectionRow)
  | 0, _, _ => some []
  | count + 1, host, buffer => do
    let host ← int (host + vDimSize 0)
    let buffer ← int (buffer + vsize 0)
    let row ← sectionRow typeSize host buffer (vsize 0)
    let rows ← planeRows count host buffer
    some (row :: rows)

/-- The rows of a plane, from the offsets that `planeStart` gives before its first row. -/
def planeAt (planeStart : Int → Option (Int × Int)) (j : Int) : Option (List SectionRow) := do
  let (host, buffer) ← planeStart j
  planeRows vsize vDimSize typeSize (vsize 1).toNat host buffer

/-- The rows that are copied. -/
def sectionRows (planeStart : Int → Option (Int × Int)) (ndim : Nat) : Option (List SectionRow) :=
  match ndim with
  | 0 => some []
  | 1 => (lineRow vsize voffset typeSize).map fun row => [row]
  | 2 => (List.range (vsize 0).toNat).mapM fun j : Nat =>
      matrixRow vsize voffset vDimSize typeSize j
  | 3 => ((List.range (vsize 2).toNat).mapM fun j : Nat =>
      planeAt vsize vDimSize typeSize planeStart j).map List.flatten
  | _ => none

variable {Byte : Type}

def xompMemGatherDeviceToHost (ndim : Nat) (dest src : Int → Byte) : Option (Int → Byte) := do
  let rows ← sectionRows vsize voffset vDimSize typeSize (gatherPlane vsize voffset vDimSize) ndim
  some (runAll (rows.map SectionRow.toHost) src dest)

def xompMemScatterHostToDevice (ndim : Nat) (dest src : Int → Byte) : Option (Int → Byte) := do
  let rows ← sectionRows vsize voffset vDimSize typeSize (scatterPlane vsize voffset vDimSize) ndim
  some (runAll (rows.map SectionRow.toDevice) src dest)

end

theorem int_bind_eq_some {α : Type} {x : Int} {f : Int → Option α} {y : α} :
    (int x).bind f = some y ↔ InInt x ∧ f x = some y := by
  unfold int
  split
  next h => simp [h]
  next h => simp [h]

theorem inInt_natCast {n : Nat} : InInt n ↔ n < 2 ^ 31 := by
  unfold InInt
  omega

/-- A difference of two numbers is in range when they are. -/
theorem inInt_sub {m n : Nat} (hm : m < 2 ^ 31) (hn : n < 2 ^ 31) : InInt (m - n : Int) := by
  unfold InInt
  omega

section
variable {α β : Type} {P : α → Prop} {f : α → Option β} {g : α → β}

theorem mapM_eq_some_iff {l : List α} (h : ∀ x ∈ l, ∀ y, f x = some y ↔ P x ∧ y = g x)
    {ys : List β} : l.mapM f = some ys ↔ (∀ x ∈ l, P x) ∧ ys = l.map g := by
  induction l generalizing ys with
  | nil => simp [eq_comm]
  | cons x l ih =>
    obtain ⟨hx, hl⟩ := List.forall_mem_cons.mp h
    simp only [List.mapM_cons, Option.bind_eq_bind, Option.bind_eq_some_iff, hx, ih hl,
      Option.pure_def, Option.some.injEq, List.forall_mem_cons, List.map_cons]
    constructor
    · rintro ⟨_, ⟨hx, rfl⟩, _, ⟨hl, rfl⟩, rfl⟩
      exact ⟨⟨hx, hl⟩, rfl⟩
    · rintro ⟨⟨hx, hl⟩, rfl⟩
      exact ⟨_, ⟨hx, rfl⟩, _, ⟨hl, rfl⟩, rfl⟩

end

section
variable (size offset dimSize : Nat → Nat) (ndim width : Nat)

/-- The rows of an array section, by their index in the slower dimensions. -/
def lines : Nat → List (Nat × Nat)
  | 1 => [(0, 0)]
  | 2 => (List.range (size 0)).map (0, ·)
  | 3 => (List.range (size 2)).flatMap fun z => (List.range (size 1)).map (z, ·)
  | _ => []

def rowLength : Nat → Nat
  | 2 => size 1
  | _ => size 0

/-- Where a row starts in the host array, in elements. -/
def hostStart : Nat → Nat × Nat → Nat
  | 1, _ => offset 0
  | 2, (_, y) => offset 1 + (y + offset 0) * dimSize 1
  | 3, (z, y) => offset 0 + dimSize 0 * (offset 1 + y + dimSize 1 * (z + offset 2))
  | _, _ => 0

/-- Where the code puts a row in the device buffer, in elements. -/
def bufferStart : Nat → Nat × Nat → Nat
  | 2, (_, y) => y * size 1
  | 3, (z, y) => z * size 1 * size 2 + y * size 0
  | _, _ => 0

/-- The rows as the code copies them. -/
def rowAt (l : Nat × Nat) : SectionRow :=
  ⟨hostStart offset dimSize ndim l * width, bufferStart size ndim l * width,
    rowLength size ndim * width⟩

/-- The largest offsets fit in an `int`. -/
def OffsetsFit : Nat → Prop
  | 1 => offset 0 * width < 2 ^ 31 ∧ size 0 * width < 2 ^ 31
  | 2 => size 0 = 0 ∨
      (offset 1 + (size 0 - 1 + offset 0) * dimSize 1) * width < 2 ^ 31 ∧ size 1 * width < 2 ^ 31
  | 3 => size 2 = 0 ∨
      offset 1 + dimSize 1 * (size 2 - 1 + offset 2) < 2 ^ 31 ∧
      (size 2 - 1 + offset 2) * dimSize 0 < 2 ^ 31 ∧
      offset 0 + dimSize 0 * (offset 1 + dimSize 1 * (size 2 - 1 + offset 2)) < 2 ^ 31 ∧
      (size 2 - 1) * size 2 < 2 ^ 31 ∧ (size 2 - 1) * size 1 * size 2 < 2 ^ 31 ∧
      (size 1 = 0 ∨
        hostStart offset dimSize 3 (size 2 - 1, size 1 - 1) * width < 2 ^ 31 ∧
        bufferStart size 3 (size 2 - 1, size 1 - 1) * width < 2 ^ 31 ∧
        size 0 * width < 2 ^ 31)
  | _ => True

variable {size offset dimSize width}

theorem sectionRow_eq_some {host buffer length : Nat} {r : SectionRow} :
    sectionRow width host buffer length = some r ↔
      (host * width < 2 ^ 31 ∧ buffer * width < 2 ^ 31 ∧ length * width < 2 ^ 31) ∧
        r = ⟨host * width, buffer * width, length * width⟩ := by
  rw [eq_comm (a := r)]
  simp only [sectionRow, Option.bind_eq_bind, int_bind_eq_some, ← Nat.cast_mul, inInt_natCast,
    Option.some.injEq, and_assoc]

theorem matrixRow_eq_some (hwidth : 0 < width) {j : Nat} (hj : j + offset 0 < 2 ^ 31)
    {r : SectionRow} :
    matrixRow (fun i => size i) (fun i => offset i) (fun i => dimSize i) width j = some r ↔
      ((offset 1 + (j + offset 0) * dimSize 1) * width < 2 ^ 31 ∧ j * size 1 * width < 2 ^ 31 ∧
        size 1 * width < 2 ^ 31) ∧ r = rowAt size offset dimSize 2 width (0, j) := by
  have hhost := Nat.le_mul_of_pos_right (offset 1 + (j + offset 0) * dimSize 1) hwidth
  have hbuffer := Nat.le_mul_of_pos_right (j * size 1) hwidth
  simp only [matrixRow, Option.bind_eq_bind, int_bind_eq_some, ← Nat.cast_mul, ← Nat.cast_add,
    inInt_natCast, sectionRow_eq_some]
  constructor
  · rintro ⟨-, -, -, -, hfits, rfl⟩
    exact ⟨hfits, rfl⟩
  · rintro ⟨hfits, rfl⟩
    exact ⟨hj, by omega, by omega, by omega, hfits, rfl⟩

/-- The rows of a two-dimensional section. -/
theorem sectionRows_two (hwidth : 0 < width) (hzero : offset 0 + size 0 ≤ dimSize 0)
    (hone : offset 1 + size 1 ≤ dimSize 1) (hdim : dimSize 0 < 2 ^ 31)
    {planeStart : Int → Option (Int × Int)} {rows : List SectionRow} :
    sectionRows (fun i => size i) (fun i => offset i) (fun i => dimSize i) width planeStart 2 =
        some rows ↔
      OffsetsFit size offset dimSize width 2 ∧
        rows = (lines size 2).map (rowAt size offset dimSize 2 width) := by
  show List.mapM _ (List.range (Int.toNat (size 0))) = _ ↔ _
  rw [Int.toNat_natCast, mapM_eq_some_iff (g := fun j => rowAt size offset dimSize 2 width (0, j))
    fun j hj r => matrixRow_eq_some hwidth (by have := List.mem_range.mp hj; omega)]
  refine and_congr ?_ (by rw [lines, List.map_map]; rfl)
  simp only [List.mem_range, OffsetsFit]
  constructor
  · intro h
    rcases Nat.eq_zero_or_pos (size 0) with hempty | hpos
    · exact .inl hempty
    · obtain ⟨hhost, -, hlength⟩ := h (size 0 - 1) (by omega)
      exact .inr ⟨hhost, hlength⟩
  · rintro (hempty | ⟨hhost, hlength⟩) j hj
    · omega
    · have hrow : (j + offset 0) * dimSize 1 ≤ (size 0 - 1 + offset 0) * dimSize 1 :=
        Nat.mul_le_mul_right _ (by omega)
      have hbuffer : j * size 1 ≤ (j + offset 0) * dimSize 1 :=
        Nat.mul_le_mul (by omega) (by omega)
      refine ⟨(Nat.mul_le_mul_right width ?_).trans_lt hhost,
        (Nat.mul_le_mul_right width ?_).trans_lt hhost, hlength⟩
      · omega
      · omega

/-- The row of a one-dimensional section. -/
theorem sectionRows_one {planeStart : Int → Option (Int × Int)} {rows : List SectionRow} :
    sectionRows (fun i => size i) (fun i => offset i) (fun i => dimSize i) width planeStart 1 =
        some rows ↔
      OffsetsFit size offset dimSize width 1 ∧
        rows = (lines size 1).map (rowAt size offset dimSize 1 width) := by
  rw [eq_comm (a := rows)]
  simp only [sectionRows, lineRow, Option.bind_eq_bind, Option.map_eq_some_iff, int_bind_eq_some,
    ← Nat.cast_mul, inInt_natCast, Option.some.injEq, OffsetsFit, lines, List.map_cons,
    List.map_nil, rowAt, hostStart, bufferStart, rowLength, zero_mul, Nat.cast_zero]
  constructor
  · rintro ⟨row, ⟨hhost, hlength, rfl⟩, rfl⟩
    exact ⟨⟨hhost, hlength⟩, rfl⟩
  · rintro ⟨⟨hhost, hlength⟩, rfl⟩
    exact ⟨_, ⟨hhost, hlength, rfl⟩, rfl⟩

theorem hostStart_succ (z y : Nat) :
    hostStart offset dimSize 3 (z, y + 1) = hostStart offset dimSize 3 (z, y) + dimSize 0 := by
  simp only [hostStart]
  ring

theorem bufferStart_succ (z y : Nat) :
    bufferStart size 3 (z, y + 1) = bufferStart size 3 (z, y) + size 0 := by
  simp only [bufferStart]
  ring

/-- The rows of a plane, from the offsets before one of them. -/
theorem planeRows_eq_some (hwidth : 0 < width) {z y count : Nat} {rows : List SectionRow} :
    planeRows (fun i => size i) (fun i => dimSize i) width count
        (hostStart offset dimSize 3 (z, y) - dimSize 0) (bufferStart size 3 (z, y) - size 0) =
        some rows ↔
      (∀ i < count, hostStart offset dimSize 3 (z, y + i) * width < 2 ^ 31 ∧
        bufferStart size 3 (z, y + i) * width < 2 ^ 31 ∧ size 0 * width < 2 ^ 31) ∧
        rows = (List.range' y count).map fun i => rowAt size offset dimSize 3 width (z, i) := by
  induction count generalizing y rows with
  | zero => simp [planeRows, eq_comm]
  | succ count ih =>
    have hhost := Nat.le_mul_of_pos_right (hostStart offset dimSize 3 (z, y)) hwidth
    have hbuffer := Nat.le_mul_of_pos_right (bufferStart size 3 (z, y)) hwidth
    have hnext := @ih (y + 1)
    rw [hostStart_succ, bufferStart_succ, Nat.cast_add, Nat.cast_add, add_sub_cancel_right,
      add_sub_cancel_right] at hnext
    simp only [Nat.add_assoc, Nat.add_comm 1] at hnext
    simp only [planeRows, Option.bind_eq_bind, int_bind_eq_some, sub_add_cancel, inInt_natCast]
    simp only [Option.bind_eq_some_iff, sectionRow_eq_some, hnext, Option.some.injEq,
      Nat.forall_lt_succ_left, List.range'_succ, List.map_cons, Nat.add_zero]
    constructor
    · rintro ⟨-, -, _, ⟨hfirst, rfl⟩, _, ⟨hrest, rfl⟩, rfl⟩
      exact ⟨⟨hfirst, hrest⟩, rfl⟩
    · rintro ⟨⟨hfirst, hrest⟩, rfl⟩
      have hhost' := hhost.trans_lt hfirst.1
      have hbuffer' := hbuffer.trans_lt hfirst.2.1
      exact ⟨hhost', hbuffer', _, ⟨hfirst, rfl⟩, _, ⟨hrest, rfl⟩, rfl⟩

/-- The offsets of a row fit in an `int`, in bytes. -/
def RowFits (size offset dimSize : Nat → Nat) (width : Nat) (l : Nat × Nat) : Prop :=
  hostStart offset dimSize 3 l * width < 2 ^ 31 ∧ bufferStart size 3 l * width < 2 ^ 31 ∧
    size 0 * width < 2 ^ 31

/-- The offsets before the first row of a plane. -/
def planeOffsets (size offset dimSize : Nat → Nat) (j : Nat) : Int × Int :=
  (hostStart offset dimSize 3 (j, 0) - dimSize 0, bufferStart size 3 (j, 0) - size 0)

theorem gatherPlane_eq_some {j : Nat} (hj : j + offset 2 < 2 ^ 31) (hdim : dimSize 0 < 2 ^ 31)
    (hsize : size 0 < 2 ^ 31) {p : Int × Int} :
    gatherPlane (fun i => size i) (fun i => offset i) (fun i => dimSize i) j = some p ↔
      (offset 1 + dimSize 1 * (j + offset 2) < 2 ^ 31 ∧
        offset 0 + dimSize 0 * (offset 1 + dimSize 1 * (j + offset 2)) < 2 ^ 31 ∧
        j * size 2 < 2 ^ 31 ∧ j * size 1 * size 2 < 2 ^ 31) ∧
        p = planeOffsets size offset dimSize j := by
  have hbuffer : size 1 * (j * size 2) = j * size 1 * size 2 := by ring
  rw [eq_comm (a := p)]
  simp only [gatherPlane, Option.bind_eq_bind, int_bind_eq_some, ← Nat.cast_mul, ← Nat.cast_add,
    inInt_natCast, Option.some.injEq, hbuffer, planeOffsets, hostStart, bufferStart, Nat.zero_mul,
    Nat.add_zero]
  constructor
  · rintro ⟨-, -, hrow, -, hhost, -, hcount, hbuffer, -, rfl⟩
    exact ⟨⟨hrow, hhost, hcount, hbuffer⟩, rfl⟩
  · rintro ⟨⟨hrow, hhost, hcount, hbuffer⟩, rfl⟩
    exact ⟨hj, by omega, hrow, by omega, hhost, inInt_sub hhost hdim, hcount, hbuffer,
      inInt_sub hbuffer hsize, rfl⟩

theorem scatterPlane_eq_some {j : Nat} (hj : j + offset 2 < 2 ^ 31) (hdim : dimSize 0 < 2 ^ 31)
    (hsize : size 0 < 2 ^ 31) (hplanes : j < size 2) {p : Int × Int} :
    scatterPlane (fun i => size i) (fun i => offset i) (fun i => dimSize i) j = some p ↔
      ((j + offset 2) * dimSize 0 < 2 ^ 31 ∧
        offset 0 + dimSize 0 * (offset 1 + dimSize 1 * (j + offset 2)) < 2 ^ 31 ∧
        j * size 1 * size 2 < 2 ^ 31) ∧
        p = planeOffsets size offset dimSize j := by
  have hhost : (j + offset 2) * dimSize 0 * dimSize 1 + offset 1 * dimSize 0 + offset 0 =
      offset 0 + dimSize 0 * (offset 1 + dimSize 1 * (j + offset 2)) := by ring
  have hbuffer := Nat.le_mul_of_pos_right (j * size 1) (Nat.zero_lt_of_lt hplanes)
  rw [eq_comm (a := p)]
  simp only [scatterPlane, Option.bind_eq_bind, int_bind_eq_some, ← Nat.cast_mul, ← Nat.cast_add,
    inInt_natCast, Option.some.injEq, hhost, planeOffsets, hostStart, bufferStart, Nat.zero_mul,
    Nat.add_zero]
  constructor
  · rintro ⟨-, hplane, -, -, -, hhost, -, -, hbuffer, -, rfl⟩
    exact ⟨⟨hplane, hhost, hbuffer⟩, rfl⟩
  · rintro ⟨⟨hplane, hhost', hbuffer'⟩, rfl⟩
    refine ⟨hj, hplane, ?_, ?_, ?_, hhost', inInt_sub hhost' hdim, by omega, hbuffer',
      inInt_sub hbuffer' hsize, rfl⟩
    all_goals omega

/-- The rows of a three-dimensional section, where `Q` tells when the offsets of a plane fit. -/
theorem sectionRows_three (hwidth : 0 < width) {planeStart : Int → Option (Int × Int)}
    {Q : Nat → Prop}
    (hplane : ∀ j < size 2, ∀ p,
      planeStart j = some p ↔ Q j ∧ p = planeOffsets size offset dimSize j)
    {rows : List SectionRow} :
    sectionRows (fun i => size i) (fun i => offset i) (fun i => dimSize i) width planeStart 3 =
        some rows ↔
      (∀ j < size 2, Q j ∧ ∀ i < size 1, RowFits size offset dimSize width (j, i)) ∧
        rows = (lines size 3).map (rowAt size offset dimSize 3 width) := by
  have hrows : ∀ j ∈ List.range (size 2), ∀ rows,
      planeAt (fun i => size i) (fun i => dimSize i) width planeStart j = some rows ↔
        (Q j ∧ ∀ i < size 1, RowFits size offset dimSize width (j, i)) ∧
          rows = (List.range (size 1)).map fun i => rowAt size offset dimSize 3 width (j, i) := by
    intro j hj rows
    have hplaneRows := @planeRows_eq_some size offset dimSize width hwidth j 0 (size 1) rows
    simp only [Nat.zero_add, ← List.range_eq_range'] at hplaneRows
    simp only [planeAt, Option.bind_eq_bind, Option.bind_eq_some_iff,
      hplane j (List.mem_range.mp hj), Int.toNat_natCast]
    constructor
    · rintro ⟨_, ⟨hQ, rfl⟩, hsome⟩
      obtain ⟨hfits, rfl⟩ := hplaneRows.mp hsome
      exact ⟨⟨hQ, hfits⟩, rfl⟩
    · rintro ⟨⟨hQ, hfits⟩, hrows⟩
      exact ⟨_, ⟨hQ, rfl⟩, hplaneRows.mpr ⟨hfits, hrows⟩⟩
  show Option.map _ (List.mapM _ (List.range (Int.toNat (size 2)))) = _ ↔ _
  rw [Int.toNat_natCast, Option.map_eq_some_iff]
  simp only [mapM_eq_some_iff hrows, List.mem_range]
  have hflat : (lines size 3).map (rowAt size offset dimSize 3 width) =
      ((List.range (size 2)).map fun j =>
        (List.range (size 1)).map fun i => rowAt size offset dimSize 3 width (j, i)).flatten := by
    simp only [lines, List.flatMap_def, List.map_flatten, List.map_map, Function.comp_def]
  rw [hflat]
  constructor
  · rintro ⟨_, ⟨hfits, rfl⟩, rfl⟩
    exact ⟨hfits, rfl⟩
  · rintro ⟨hfits, rfl⟩
    exact ⟨_, ⟨hfits, rfl⟩, rfl⟩

/-- The offsets of all planes of a three-dimensional section fit when the last ones do. -/
theorem offsetsFit_three :
    OffsetsFit size offset dimSize width 3 ↔
      (∀ j < size 2, (offset 1 + dimSize 1 * (j + offset 2) < 2 ^ 31 ∧
        offset 0 + dimSize 0 * (offset 1 + dimSize 1 * (j + offset 2)) < 2 ^ 31 ∧
        j * size 2 < 2 ^ 31 ∧ j * size 1 * size 2 < 2 ^ 31) ∧
        ∀ i < size 1, RowFits size offset dimSize width (j, i)) ∧
      ∀ j < size 2, ((j + offset 2) * dimSize 0 < 2 ^ 31 ∧
        offset 0 + dimSize 0 * (offset 1 + dimSize 1 * (j + offset 2)) < 2 ^ 31 ∧
        j * size 1 * size 2 < 2 ^ 31) ∧
        ∀ i < size 1, RowFits size offset dimSize width (j, i) := by
  unfold OffsetsFit
  constructor
  · rintro (hempty | ⟨hrow, hplane, hhost, hcount, hbuffer, hrows⟩)
    · exact ⟨fun j hj => by omega, fun j hj => by omega⟩
    · have hfits : ∀ j < size 2, ∀ i < size 1, RowFits size offset dimSize width (j, i) := by
        intro j hj i hi
        rcases hrows with hempty | ⟨hlastHost, hlastBuffer, hlength⟩
        · omega
        · have hj' : j ≤ size 2 - 1 := by omega
          have hi' : i ≤ size 1 - 1 := by omega
          refine ⟨lt_of_le_of_lt ?_ hlastHost, lt_of_le_of_lt ?_ hlastBuffer, hlength⟩
          · simp only [hostStart]
            gcongr
          · simp only [bufferStart]
            gcongr
      have hlast : ∀ j < size 2, j ≤ size 2 - 1 := fun j hj => by omega
      refine ⟨fun j hj => ⟨⟨?_, ?_, ?_, ?_⟩, hfits j hj⟩, fun j hj => ⟨⟨?_, ?_, ?_⟩, hfits j hj⟩⟩
      all_goals have hj' := hlast j hj
      · exact lt_of_le_of_lt (by gcongr) hrow
      · exact lt_of_le_of_lt (by gcongr) hhost
      · exact lt_of_le_of_lt (by gcongr) hcount
      · exact lt_of_le_of_lt (by gcongr) hbuffer
      · exact lt_of_le_of_lt (by gcongr) hplane
      · exact lt_of_le_of_lt (by gcongr) hhost
      · exact lt_of_le_of_lt (by gcongr) hbuffer
  · rintro ⟨hgather, hscatter⟩
    rcases Nat.eq_zero_or_pos (size 2) with hempty | hpos
    · exact .inl hempty
    · obtain ⟨⟨hrow, hhost, hcount, hbuffer⟩, hrows⟩ := hgather (size 2 - 1) (by omega)
      obtain ⟨⟨hplane, -, -⟩, -⟩ := hscatter (size 2 - 1) (by omega)
      refine .inr ⟨hrow, hplane, hhost, hcount, hbuffer, ?_⟩
      rcases Nat.eq_zero_or_pos (size 1) with hempty | hpos
      · exact .inl hempty
      · exact .inr (hrows (size 1 - 1) (by omega))

end

end LoomX.Xomp
