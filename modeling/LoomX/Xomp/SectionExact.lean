import LoomX.Xomp.SectionTransfer
import Mathlib.Algebra.BigOperators.Group.Finset.Basic
import Mathlib.Algebra.Order.BigOperators.Group.Finset
import Mathlib.Tactic.Linarith
import Mathlib.Tactic.Tauto

namespace LoomX.Xomp

open RowCopies

/-- The rows as they are copied to the device buffer. -/
def deviceRows (size offset dimSize : Nat → Nat) (ndim : Nat) : Rows (Nat × Nat) :=
  ⟨lines size ndim, bufferStart size ndim, hostStart offset dimSize ndim, rowLength size ndim⟩

/-- The rows as they are copied to the host array. -/
def hostRows (size offset dimSize : Nat → Nat) (ndim : Nat) : Rows (Nat × Nat) :=
  ⟨lines size ndim, hostStart offset dimSize ndim, bufferStart size ndim, rowLength size ndim⟩

/-- The elements of an array section, by their row and their index in it. -/
def sectionElements (size : Nat → Nat) (ndim : Nat) : Set ((Nat × Nat) × Nat) :=
  {e | e.1 ∈ lines size ndim ∧ e.2 < rowLength size ndim}

/-- The index of an element in the host array. -/
def hostIndex (offset dimSize : Nat → Nat) (ndim : Nat) (e : (Nat × Nat) × Nat) : Nat :=
  hostStart offset dimSize ndim e.1 + e.2

/-- The transfer of a section to the device, with sizes and offsets that are not negative. -/
def scatterSection {Byte : Type} (size offset dimSize : Nat → Nat) (width ndim : Nat)
    (device host : Int → Byte) : Option (Int → Byte) :=
  xompMemScatterHostToDevice (fun i => size i) (fun i => offset i) (fun i => dimSize i) width ndim
    device host

/-- The transfer of a section from the device. -/
def gatherSection {Byte : Type} (size offset dimSize : Nat → Nat) (width ndim : Nat)
    (host device : Int → Byte) : Option (Int → Byte) :=
  xompMemGatherDeviceToHost (fun i => size i) (fun i => offset i) (fun i => dimSize i) width ndim
    host device

/-- The elements of the section fill the device buffer, and come back from it. -/
def TransfersExactly (size offset dimSize : Nat → Nat) (width ndim : Nat) : Prop :=
  ∃ pos : (Nat × Nat) × Nat → Nat,
    Set.BijOn pos (sectionElements size ndim) (Set.Iio (∏ i ∈ Finset.range ndim, size i)) ∧
    ∀ host device : Int → UInt8,
      (∃ device', scatterSection size offset dimSize width ndim device host = some device' ∧
        (∀ e ∈ sectionElements size ndim, ∀ b < width,
          device' (pos e * width + b : Nat) =
            host (hostIndex offset dimSize ndim e * width + b : Nat)) ∧
        ∀ a : Int, a < 0 ∨ ((∏ i ∈ Finset.range ndim, size i) * width : Nat) ≤ a →
          device' a = device a) ∧
      ∃ host', gatherSection size offset dimSize width ndim host device = some host' ∧
        (∀ e ∈ sectionElements size ndim, ∀ b < width,
          host' (hostIndex offset dimSize ndim e * width + b : Nat) =
            device (pos e * width + b : Nat)) ∧
        ∀ a : Int, (∀ e ∈ sectionElements size ndim, ∀ b < width,
          a ≠ (hostIndex offset dimSize ndim e * width + b : Nat)) → host' a = host a

section
variable {size offset dimSize : Nat → Nat} {width ndim : Nat} {Byte : Type}
  {host device host' device' : Int → Byte}

/-- Both transfers have the rows of the section as long as their offsets fit. -/
theorem sectionRows_iff (hndim : ndim = 1 ∨ ndim = 2 ∨ ndim = 3) (hwidth : 0 < width)
    (hin : ∀ i < ndim, offset i + size i ≤ dimSize i) (hdim : ∀ i < ndim, dimSize i < 2 ^ 31)
    {rows rows' : List SectionRow} :
    sectionRows (fun i => size i) (fun i => offset i) (fun i => dimSize i) width
        (gatherPlane (fun i => size i) (fun i => offset i) (fun i => dimSize i)) ndim = some rows ∧
      sectionRows (fun i => size i) (fun i => offset i) (fun i => dimSize i) width
        (scatterPlane (fun i => size i) (fun i => offset i) (fun i => dimSize i)) ndim =
        some rows' ↔
      OffsetsFit size offset dimSize width ndim ∧
        rows = (lines size ndim).map (rowAt size offset dimSize ndim width) ∧
        rows' = (lines size ndim).map (rowAt size offset dimSize ndim width) := by
  rcases hndim with rfl | rfl | rfl
  · rw [sectionRows_one, sectionRows_one]
    tauto
  · have hzero := hin 0 (by omega)
    have hone := hin 1 (by omega)
    have hdim' := hdim 0 (by omega)
    rw [sectionRows_two hwidth hzero hone hdim', sectionRows_two hwidth hzero hone hdim']
    tauto
  · have hzero := hin 0 (by omega)
    have htwo := hin 2 (by omega)
    have hdim' := hdim 0 (by omega)
    have hdim'' := hdim 2 (by omega)
    rw [sectionRows_three hwidth fun j hj p => gatherPlane_eq_some (by omega) hdim' (by omega),
      sectionRows_three hwidth fun j hj p => scatterPlane_eq_some (by omega) hdim' (by omega) hj,
      offsetsFit_three]
    tauto

/-- The transfers copy the rows of the section. -/
theorem sections_eq_some (hndim : ndim = 1 ∨ ndim = 2 ∨ ndim = 3) (hwidth : 0 < width)
    (hin : ∀ i < ndim, offset i + size i ≤ dimSize i) (hdim : ∀ i < ndim, dimSize i < 2 ^ 31) :
    scatterSection size offset dimSize width ndim device host = some device' ∧
      gatherSection size offset dimSize width ndim host device = some host' ↔
      OffsetsFit size offset dimSize width ndim ∧
        device' = runAll ((deviceRows size offset dimSize ndim).copies width) host device ∧
        host' = runAll ((hostRows size offset dimSize ndim).copies width) device host := by
  have hdevice : (deviceRows size offset dimSize ndim).copies width =
      ((lines size ndim).map (rowAt size offset dimSize ndim width)).map SectionRow.toDevice := by
    rw [List.map_map]
    rfl
  have hhost : (hostRows size offset dimSize ndim).copies width =
      ((lines size ndim).map (rowAt size offset dimSize ndim width)).map SectionRow.toHost := by
    rw [List.map_map]
    rfl
  have hrows := fun rows rows' => @sectionRows_iff size offset dimSize width ndim hndim hwidth hin
    hdim rows rows'
  simp only [scatterSection, gatherSection, xompMemScatterHostToDevice, xompMemGatherDeviceToHost,
    Option.bind_eq_bind, Option.bind_eq_some_iff, Option.some.injEq, hdevice, hhost]
  constructor
  · rintro ⟨⟨rows', hrows', rfl⟩, rows, hrows'', rfl⟩
    obtain ⟨hfits, rfl, rfl⟩ := (hrows rows rows').mp ⟨hrows'', hrows'⟩
    exact ⟨hfits, rfl, rfl⟩
  · rintro ⟨hfits, rfl, rfl⟩
    obtain ⟨hgather, hscatter⟩ := (hrows _ _).mpr ⟨hfits, rfl, rfl⟩
    exact ⟨⟨_, hscatter, rfl⟩, _, hgather, rfl⟩

theorem mem_elements_one {e : (Nat × Nat) × Nat} :
    e ∈ sectionElements size 1 ↔ e.1 = (0, 0) ∧ e.2 < size 0 := by
  simp [sectionElements, lines, rowLength]

theorem mem_elements_two {e : (Nat × Nat) × Nat} :
    e ∈ sectionElements size 2 ↔ e.1.1 = 0 ∧ e.1.2 < size 0 ∧ e.2 < size 1 := by
  obtain ⟨⟨z, y⟩, x⟩ := e
  simp only [sectionElements, lines, rowLength, Set.mem_ofPred_eq, List.mem_map, List.mem_range,
    Prod.mk.injEq]
  constructor
  · rintro ⟨⟨_, hy, rfl, rfl⟩, hx⟩
    exact ⟨rfl, hy, hx⟩
  · rintro ⟨rfl, hy, hx⟩
    exact ⟨⟨_, hy, rfl, rfl⟩, hx⟩

theorem mem_elements_three {e : (Nat × Nat) × Nat} :
    e ∈ sectionElements size 3 ↔ e.1.1 < size 2 ∧ e.1.2 < size 1 ∧ e.2 < size 0 := by
  obtain ⟨⟨z, y⟩, x⟩ := e
  simp only [sectionElements, lines, rowLength, Set.mem_ofPred_eq, List.mem_flatMap, List.mem_map,
    List.mem_range, Prod.mk.injEq]
  constructor
  · rintro ⟨⟨_, hz, _, hy, rfl, rfl⟩, hx⟩
    exact ⟨hz, hy, hx⟩
  · rintro ⟨hz, hy, hx⟩
    exact ⟨⟨_, hz, _, hy, rfl, rfl⟩, hx⟩

/-- The digits of a number are unique. -/
theorem digits_unique {a b a' b' d : Nat} (ha : a < d) (ha' : a' < d)
    (h : a + d * b = a' + d * b') : a = a' ∧ b = b' := by
  have hmod := congrArg (· % d) h
  have hdiv := congrArg (· / d) h
  simp only [Nat.add_mul_mod_self_left, Nat.mod_eq_of_lt ha, Nat.mod_eq_of_lt ha'] at hmod
  simp only [Nat.add_mul_div_left _ _ (Nat.zero_lt_of_lt ha), Nat.div_eq_of_lt ha,
    Nat.div_eq_of_lt ha', Nat.zero_add] at hdiv
  exact ⟨hmod, hdiv⟩

/-- The elements of a section lie in different places of the host array. -/
theorem hostIndex_injOn (hndim : ndim = 1 ∨ ndim = 2 ∨ ndim = 3)
    (hin : ∀ i < ndim, offset i + size i ≤ dimSize i) :
    Set.InjOn (hostIndex offset dimSize ndim) (sectionElements size ndim) := by
  rintro ⟨⟨z, y⟩, x⟩ he ⟨⟨z', y'⟩, x'⟩ he' h
  rcases hndim with rfl | rfl | rfl
  · rw [mem_elements_one] at he he'
    simp only [hostIndex, hostStart] at h
    ext <;> simp_all
  · have hone := hin 1 (by omega)
    obtain ⟨hz, hy, hx⟩ := mem_elements_two.mp he
    obtain ⟨hz', hy', hx'⟩ := mem_elements_two.mp he'
    dsimp only at hz hy hx hz' hy' hx'
    have hsum : (offset 1 + x) + dimSize 1 * (y + offset 0) =
        (offset 1 + x') + dimSize 1 * (y' + offset 0) := by
      simp only [hostIndex, hostStart] at h
      linarith
    obtain ⟨hxx, hyy⟩ := digits_unique (by omega) (by omega) hsum
    rw [hz, hz', show x = x' by omega, show y = y' by omega]
  · have hzero := hin 0 (by omega)
    have hone := hin 1 (by omega)
    obtain ⟨hz, hy, hx⟩ := mem_elements_three.mp he
    obtain ⟨hz', hy', hx'⟩ := mem_elements_three.mp he'
    dsimp only at hz hy hx hz' hy' hx'
    have hsum : (offset 0 + x) + dimSize 0 * (offset 1 + y + dimSize 1 * (z + offset 2)) =
        (offset 0 + x') + dimSize 0 * (offset 1 + y' + dimSize 1 * (z' + offset 2)) := by
      simp only [hostIndex, hostStart] at h
      linarith
    obtain ⟨hxx, hrow⟩ := digits_unique (by omega) (by omega) hsum
    obtain ⟨hyy, hzz⟩ := digits_unique (by omega) (by omega) hrow
    rw [show x = x' by omega, show y = y' by omega, show z = z' by omega]

/-- The planes of a section lie densely in the buffer: the code strides over them by the product of
the last two sizes. -/
def DensePlanes (size : Nat → Nat) : Prop :=
  size 0 = 0 ∨ size 1 = 0 ∨ size 2 ≤ 1 ∨ size 2 = size 0

theorem digits_lt {a b d n : Nat} (ha : a < d) (hb : b < n) : a + d * b < d * n :=
  calc a + d * b < d + d * b := Nat.add_lt_add_right ha _
    _ = d * (b + 1) := by ring
    _ ≤ d * n := Nat.mul_le_mul_left d hb

theorem destIndex_two {e : (Nat × Nat) × Nat} :
    (deviceRows size offset dimSize 2).destIndex e = e.2 + size 1 * e.1.2 := by
  simp only [Rows.destIndex, deviceRows, bufferStart]
  ring

theorem destIndex_three {e : (Nat × Nat) × Nat} :
    (deviceRows size offset dimSize 3).destIndex e =
      e.1.1 * size 1 * size 2 + e.1.2 * size 0 + e.2 := rfl

/-- The places of the elements where the planes lie densely. -/
theorem destIndex_dense (hdense : DensePlanes size) {e : (Nat × Nat) × Nat}
    (he : e ∈ sectionElements size 3) :
    (deviceRows size offset dimSize 3).destIndex e =
      e.2 + size 0 * (e.1.2 + size 1 * e.1.1) := by
  obtain ⟨hz, hy, hx⟩ := mem_elements_three.mp he
  rw [destIndex_three]
  rcases hdense with hempty | hempty | hsingle | hsame
  · omega
  · omega
  · have hfirst : e.1.1 = 0 := by omega
    rw [hfirst]
    ring
  · rw [hsame]
    ring

/-- The elements fill the buffer when its planes lie densely. -/
theorem destIndex_bijOn (hndim : ndim = 1 ∨ ndim = 2 ∨ ndim = 3)
    (hdense : ndim = 3 → DensePlanes size) :
    Set.BijOn (deviceRows size offset dimSize ndim).destIndex (sectionElements size ndim)
      (Set.Iio (∏ i ∈ Finset.range ndim, size i)) := by
  rcases hndim with rfl | rfl | rfl
  · rw [Finset.prod_range_one]
    refine ⟨fun e he => ?_, fun e he e' he' h => ?_, fun q hq => ?_⟩
    · obtain ⟨-, hx⟩ := mem_elements_one.mp he
      simpa [Rows.destIndex, deviceRows, bufferStart] using hx
    · obtain ⟨hl, -⟩ := mem_elements_one.mp he
      obtain ⟨hl', -⟩ := mem_elements_one.mp he'
      refine Prod.ext (hl.trans hl'.symm) ?_
      simpa [Rows.destIndex, deviceRows, bufferStart] using h
    · exact ⟨((0, 0), q), mem_elements_one.mpr ⟨rfl, hq⟩, Nat.zero_add q⟩
  · rw [Finset.prod_range_succ, Finset.prod_range_one, Nat.mul_comm]
    refine ⟨fun e he => ?_, fun e he e' he' h => ?_, fun q hq => ?_⟩
    · obtain ⟨-, hy, hx⟩ := mem_elements_two.mp he
      rw [destIndex_two]
      exact digits_lt hx hy
    · obtain ⟨hz, -, hx⟩ := mem_elements_two.mp he
      obtain ⟨hz', -, hx'⟩ := mem_elements_two.mp he'
      rw [destIndex_two, destIndex_two] at h
      obtain ⟨hxx, hyy⟩ := digits_unique hx hx' h
      exact Prod.ext (Prod.ext (hz.trans hz'.symm) hyy) hxx
    · have hlt : q < size 1 * size 0 := hq
      have hpos : 0 < size 1 := Nat.pos_of_lt_mul_right hlt
      refine ⟨((0, q / size 1), q % size 1), mem_elements_two.mpr ⟨rfl, ?_, ?_⟩, ?_⟩
      · exact Nat.div_lt_of_lt_mul hlt
      · exact Nat.mod_lt q hpos
      · rw [destIndex_two]
        exact Nat.mod_add_div q (size 1)
  · have hplanes := hdense rfl
    rw [Finset.prod_range_succ, Finset.prod_range_succ, Finset.prod_range_one, Nat.mul_assoc]
    refine ⟨fun e he => ?_, fun e he e' he' h => ?_, fun q hq => ?_⟩
    · obtain ⟨hz, hy, hx⟩ := mem_elements_three.mp he
      rw [destIndex_dense hplanes he]
      exact digits_lt hx (digits_lt hy hz)
    · obtain ⟨-, hy, hx⟩ := mem_elements_three.mp he
      obtain ⟨-, hy', hx'⟩ := mem_elements_three.mp he'
      rw [destIndex_dense hplanes he, destIndex_dense hplanes he'] at h
      obtain ⟨hxx, hrow⟩ := digits_unique hx hx' h
      obtain ⟨hyy, hzz⟩ := digits_unique hy hy' hrow
      exact Prod.ext (Prod.ext hzz hyy) hxx
    · have hlt : q < size 0 * (size 1 * size 2) := hq
      have hrow : q / size 0 < size 1 * size 2 := Nat.div_lt_of_lt_mul hlt
      have he : ((q / size 0 / size 1, q / size 0 % size 1), q % size 0) ∈
          sectionElements size 3 := by
        refine mem_elements_three.mpr ⟨?_, ?_, ?_⟩
        · exact Nat.div_lt_of_lt_mul hrow
        · exact Nat.mod_lt _ (Nat.pos_of_lt_mul_right hrow)
        · exact Nat.mod_lt _ (Nat.pos_of_lt_mul_right hlt)
      refine ⟨_, he, ?_⟩
      rw [destIndex_dense hplanes he]
      dsimp only
      rw [Nat.mod_add_div, Nat.mod_add_div]

/-- The code fills the buffer only when its planes lie densely. -/
theorem densePlanes_of_fills
    (h : ∀ q, q < ∏ i ∈ Finset.range 3, size i ↔ ∃ e ∈ sectionElements size 3,
      (deviceRows size offset dimSize 3).destIndex e = q) : DensePlanes size := by
  rw [Finset.prod_range_succ, Finset.prod_range_succ, Finset.prod_range_one] at h
  by_contra hnot
  unfold DensePlanes at hnot
  push Not at hnot
  obtain ⟨hzero, hone, htwo, hne⟩ := hnot
  obtain ⟨x, hx⟩ := Nat.exists_eq_succ_of_ne_zero hzero
  obtain ⟨y, hy⟩ := Nat.exists_eq_succ_of_ne_zero hone
  obtain ⟨z, hz⟩ := Nat.exists_eq_add_of_lt htwo
  -- the last element has to have the last place
  have hlast : ((z + 1, y), x) ∈ sectionElements size 3 :=
    mem_elements_three.mpr ⟨by dsimp only; omega, by dsimp only; omega, by dsimp only; omega⟩
  have hlt := (h _).mpr ⟨_, hlast, rfl⟩
  have hpos : 0 < size 0 * size 1 * size 2 := Nat.zero_lt_of_lt hlt
  obtain ⟨e, he, hq⟩ := (h (size 0 * size 1 * size 2 - 1)).mp (by omega)
  obtain ⟨hez, hey, hex⟩ := mem_elements_three.mp he
  rw [destIndex_three] at hq hlt
  have hplane : e.1.1 * size 1 * size 2 ≤ (z + 1) * size 1 * size 2 := by
    gcongr
    omega
  have hrow : e.1.2 * size 0 ≤ y * size 0 := by
    gcongr
    omega
  have hsum : (z + 1) * size 1 * size 2 + y * size 0 + size 0 = size 0 * size 1 * size 2 := by
    dsimp only at hlt
    omega
  have hfactor : (y + 1) * (z + 1) * size 2 = (y + 1) * (z + 1) * size 0 := by
    have htwo' : size 2 = z + 2 := by omega
    have hone' : size 1 = y + 1 := by omega
    rw [htwo', hone'] at hsum
    rw [htwo']
    linarith
  exact hne (Nat.eq_of_mul_eq_mul_left (by positivity) hfactor)

/-- The code writes nothing but the buffer, and all of it, when the transfer is exact. -/
theorem fills_of_transfersExactly (hndim : ndim = 1 ∨ ndim = 2 ∨ ndim = 3) (hwidth : 0 < width)
    (hin : ∀ i < ndim, offset i + size i ≤ dimSize i) (hdim : ∀ i < ndim, dimSize i < 2 ^ 31)
    (h : TransfersExactly size offset dimSize width ndim) :
    OffsetsFit size offset dimSize width ndim ∧
      ∀ q, q < ∏ i ∈ Finset.range ndim, size i ↔ ∃ e ∈ sectionElements size ndim,
        (deviceRows size offset dimSize ndim).destIndex e = q := by
  obtain ⟨pos, hpos, htransfer⟩ := h
  obtain ⟨⟨device', hscatter, hdevice, hframe⟩, host', hgather, -⟩ :=
    htransfer (fun _ => 1) fun _ => 0
  obtain ⟨hfits, rfl, -⟩ := (sections_eq_some hndim hwidth hin hdim).mp ⟨hscatter, hgather⟩
  refine ⟨hfits, fun q => ⟨fun hq => ?_, ?_⟩⟩
  · obtain ⟨e, he, rfl⟩ := hpos.surjOn hq
    have hwritten := hdevice e he 0 hwidth
    obtain ⟨e', he', b, hb, haddress⟩ := Rows.exists_of_ne hwidth
      (ne_of_eq_of_ne hwritten (by decide))
    refine ⟨e', he', ?_⟩
    have hplace : 0 + width * pos e = b + width * (deviceRows size offset dimSize ndim).destIndex e' := by
      have := Int.natCast_inj.mp haddress
      linarith
    exact (digits_unique hwidth hb hplace).2.symm
  · rintro ⟨e, he, rfl⟩
    by_contra hq
    have hwritten : runAll ((deviceRows size offset dimSize ndim).copies width) (fun _ => 1)
        (fun _ => 0) ((deviceRows size offset dimSize ndim).destIndex e * width + 0 : Nat) =
          (1 : UInt8) := Rows.runAll_const he hwidth
    rw [hframe _ (.inr ?_)] at hwritten
    · exact absurd hwritten (by decide)
    · exact_mod_cast Nat.mul_le_mul_right width (Nat.not_lt.mp hq)

/-- The transfers of a section are exact as long as its offsets fit in an `int` and the planes of a
three-dimensional section lie densely in the buffer. -/
theorem transfersExactly_iff (hndim : ndim = 1 ∨ ndim = 2 ∨ ndim = 3) (hwidth : 0 < width)
    (hin : ∀ i < ndim, offset i + size i ≤ dimSize i) (hdim : ∀ i < ndim, dimSize i < 2 ^ 31) :
    TransfersExactly size offset dimSize width ndim ↔
      OffsetsFit size offset dimSize width ndim ∧ (ndim = 3 → DensePlanes size) := by
  constructor
  · intro h
    obtain ⟨hfits, hfills⟩ := fills_of_transfersExactly hndim hwidth hin hdim h
    refine ⟨hfits, ?_⟩
    rintro rfl
    exact densePlanes_of_fills hfills
  · rintro ⟨hfits, hdense⟩
    have hbij : Set.BijOn (deviceRows size offset dimSize ndim).destIndex
        (sectionElements size ndim) (Set.Iio (∏ i ∈ Finset.range ndim, size i)) :=
      destIndex_bijOn hndim hdense
    refine ⟨_, hbij, fun host device => ?_⟩
    obtain ⟨hscatter, hgather⟩ :=
      (@sections_eq_some size offset dimSize width ndim UInt8 host device _ _ hndim hwidth hin
        hdim).mpr ⟨hfits, rfl, rfl⟩
    refine ⟨⟨_, hscatter, fun e he b hb => ?_, fun a ha => ?_⟩, _, hgather, fun e he b hb => ?_,
      fun a ha => ?_⟩
    · exact Rows.runAll_element hbij.injOn he hb
    · by_contra hne
      obtain ⟨e, he, b, hb, rfl⟩ := Rows.exists_of_ne hwidth hne
      have hplace := digits_lt hb (hbij.mapsTo he)
      rw [Nat.mul_comm width, Nat.mul_comm width] at hplace
      omega
    · exact Rows.runAll_element (r := hostRows size offset dimSize ndim)
        (hostIndex_injOn hndim hin) he hb
    · by_contra hne
      obtain ⟨e, he, b, hb, hplace⟩ := Rows.exists_of_ne hwidth hne
      exact ha e he b hb hplace

end

/-- A section of four planes of two rows of four elements. -/
theorem transfersExactly_four :
    TransfersExactly (fun i => if i = 1 then 2 else 4) (fun _ => 1) (fun _ => 5) 8 3 := by
  apply (transfersExactly_iff (.inr (.inr rfl)) (by decide) (by decide) fun _ _ => by decide).mpr
  constructor
  · refine .inr ⟨by decide, by decide, by decide, by decide, by decide, .inr ?_⟩
    exact ⟨by decide, by decide, by decide⟩
  · intro _
    exact .inr (.inr (.inr rfl))

/-- Three planes of one row of two elements do not fit in their buffer: the third one starts at
index six, past its end. -/
theorem threePlanes_overrun :
    ¬TransfersExactly (fun i => if i = 0 then 2 else if i = 1 then 1 else 3) (fun _ => 0)
      (fun i => if i = 0 then 2 else if i = 1 then 1 else 3) 4 3 := by
  intro h
  obtain ⟨-, hfills⟩ := fills_of_transfersExactly (.inr (.inr rfl)) (by decide) (by decide)
    (by decide) h
  have hplace := (hfills 6).mpr ⟨((2, 0), 0), mem_elements_three.mpr (by decide), rfl⟩
  exact absurd hplace (by decide)

end LoomX.Xomp
