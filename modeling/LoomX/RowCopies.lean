import Mathlib.Data.Set.Function
import Mathlib.Logic.Nontrivial.Basic
import Mathlib.Order.Interval.Set.Basic
import Mathlib.Tactic.Positivity
import Mathlib.Tactic.Ring

namespace LoomX.RowCopies

/-- A run of bytes that is copied from one memory to another. -/
structure Copy where
  dest : Int
  src : Int
  n : Int

section
variable {Byte : Type}

def Copy.Covers (c : Copy) (a : Int) : Prop := c.dest ≤ a ∧ a < c.dest + c.n

instance (c : Copy) (a : Int) : Decidable (c.Covers a) := inferInstanceAs (Decidable (_ ∧ _))

def Copy.run (c : Copy) (source dest : Int → Byte) (a : Int) : Byte :=
  if c.Covers a then source (c.src + (a - c.dest)) else dest a

def runAll (cs : List Copy) (source dest : Int → Byte) : Int → Byte :=
  cs.foldl (fun dest c => c.run source dest) dest

variable {cs : List Copy} {source dest : Int → Byte} {a : Int} {v : Byte}

theorem runAll_of_not_covered (h : ∀ c ∈ cs, ¬c.Covers a) : runAll cs source dest a = dest a := by
  induction cs generalizing dest with
  | nil => rfl
  | cons c cs ih =>
    obtain ⟨hc, hcs⟩ := List.forall_mem_cons.mp h
    exact (ih hcs).trans (if_neg hc)

/-- Copies that agree on what an address gets leave it there. -/
theorem runAll_of_covered (hcovered : ∃ c ∈ cs, c.Covers a)
    (hagree : ∀ c ∈ cs, c.Covers a → source (c.src + (a - c.dest)) = v) :
    runAll cs source dest a = v := by
  induction cs generalizing dest with
  | nil =>
    obtain ⟨c, hc, -⟩ := hcovered
    cases hc
  | cons c cs ih =>
    obtain ⟨hc, hcs⟩ := List.forall_mem_cons.mp hagree
    by_cases hlater : ∃ c ∈ cs, c.Covers a
    · exact ih hlater hcs
    · have hnot : ∀ d ∈ cs, ¬d.Covers a := fun d hd hda => hlater ⟨d, hd, hda⟩
      have hfirst : c.Covers a := by
        obtain ⟨d, hd, hda⟩ := hcovered
        rcases List.mem_cons.mp hd with rfl | hd
        · exact hda
        · exact absurd hda (hnot d hd)
      refine (runAll_of_not_covered hnot).trans ?_
      rw [← hc hfirst]
      exact if_pos hfirst

end

/-- Rows of `length` elements each, with where every row starts in the two memories. -/
structure Rows (Line : Type) where
  lines : List Line
  dest : Line → Nat
  src : Line → Nat
  length : Nat

namespace Rows

variable {Line : Type} (r : Rows Line)

/-- The copies of the rows where an element has `width` bytes. -/
def copies (width : Nat) : List Copy :=
  r.lines.map fun l => ⟨r.dest l * width, r.src l * width, r.length * width⟩

def elements : Set (Line × Nat) := {e | e.1 ∈ r.lines ∧ e.2 < r.length}

def destIndex (e : Line × Nat) : Nat := r.dest e.1 + e.2

def srcIndex (e : Line × Nat) : Nat := r.src e.1 + e.2

variable {r} {width : Nat} {Byte : Type} {source dest : Int → Byte}

/-- The addresses of a row are the bytes of its elements. -/
theorem covers_iff {d l q b : Nat} (hb : b < width) {s : Int} :
    (⟨d * width, s, l * width⟩ : Copy).Covers (q * width + b : Nat) ↔ d ≤ q ∧ q < d + l := by
  have hpos : 0 < width := by omega
  have hq : (q * width + b) / width = q := by
    rw [Nat.mul_comm, Nat.mul_add_div hpos, Nat.div_eq_of_lt hb, Nat.add_zero]
  have hle := Nat.le_div_iff_mul_le (x := d) (y := q * width + b) hpos
  have hlt := Nat.div_lt_iff_lt_mul (x := q * width + b) (y := d + l) hpos
  rw [hq] at hle hlt
  rw [hle, hlt]
  unfold Copy.Covers
  dsimp only
  rw [add_mul]
  norm_cast

theorem exists_of_covers (hpos : 0 < width) {d l : Nat} {s a : Int}
    (h : (⟨d * width, s, l * width⟩ : Copy).Covers a) :
    ∃ q b, b < width ∧ a = (q * width + b : Nat) ∧ d ≤ q ∧ q < d + l := by
  have hnonneg : 0 ≤ a := (by positivity : (0 : Int) ≤ d * width).trans h.1
  obtain ⟨n, rfl⟩ := Int.eq_ofNat_of_zero_le hnonneg
  have hn : n = n / width * width + n % width := (Nat.div_add_mod' n width).symm
  refine ⟨n / width, n % width, Nat.mod_lt n hpos, congrArg _ hn, ?_⟩
  rw [hn] at h
  exact (covers_iff (Nat.mod_lt n hpos)).mp h

theorem mem_copies {c : Copy} :
    c ∈ r.copies width ↔
      ∃ l ∈ r.lines, (⟨r.dest l * width, r.src l * width, r.length * width⟩ : Copy) = c :=
  List.mem_map

theorem exists_covers {e : Line × Nat} (he : e ∈ r.elements) {b : Nat} (hb : b < width) :
    ∃ c ∈ r.copies width, c.Covers (r.destIndex e * width + b : Nat) := by
  refine ⟨_, mem_copies.mpr ⟨e.1, he.1, rfl⟩, (covers_iff hb).mpr ⟨?_, ?_⟩⟩
  · exact Nat.le_add_right _ _
  · exact Nat.add_lt_add_left he.2 _

/-- Every element is brought to its place. -/
theorem runAll_element (hinj : Set.InjOn r.destIndex r.elements) {e : Line × Nat}
    (he : e ∈ r.elements) {b : Nat} (hb : b < width) :
    runAll (r.copies width) source dest (r.destIndex e * width + b : Nat) =
      source (r.srcIndex e * width + b : Nat) := by
  apply runAll_of_covered (exists_covers he hb)
  intro c hc hcovers
  obtain ⟨l, x⟩ := e
  obtain ⟨l', hl', rfl⟩ := mem_copies.mp hc
  obtain ⟨hle, hlt⟩ := (covers_iff hb).mp hcovers
  -- an element has one place only
  have hsame : (l', r.destIndex (l, x) - r.dest l') = (l, x) := by
    refine hinj ⟨hl', ?_⟩ he ?_
    · show r.destIndex (l, x) - r.dest l' < r.length
      omega
    · show r.dest l' + (r.destIndex (l, x) - r.dest l') = r.destIndex (l, x)
      omega
  obtain ⟨rfl, -⟩ := Prod.mk.inj hsame
  apply congrArg source
  unfold destIndex srcIndex
  push_cast
  ring

/-- An address that the copies change is a byte of an element. -/
theorem exists_of_ne (hpos : 0 < width) {a : Int}
    (h : runAll (r.copies width) source dest a ≠ dest a) :
    ∃ e ∈ r.elements, ∃ b < width, a = (r.destIndex e * width + b : Nat) := by
  by_contra hnot
  apply h
  apply runAll_of_not_covered
  intro c hc hcovers
  obtain ⟨l, hl, rfl⟩ := mem_copies.mp hc
  obtain ⟨q, b, hb, rfl, hle, hlt⟩ := exists_of_covers hpos hcovers
  refine hnot ⟨(l, q - r.dest l), ⟨hl, ?_⟩, b, hb, ?_⟩
  · show q - r.dest l < r.length
    omega
  · unfold destIndex
    dsimp only
    rw [Nat.add_sub_cancel' hle]

/-- What the copies bring from a memory of one byte only. -/
theorem runAll_const {v : Byte} {e : Line × Nat} (he : e ∈ r.elements) {b : Nat} (hb : b < width) :
    runAll (r.copies width) (fun _ => v) dest (r.destIndex e * width + b : Nat) = v :=
  runAll_of_covered (exists_covers he hb) fun _ _ _ => rfl

end Rows

end LoomX.RowCopies
