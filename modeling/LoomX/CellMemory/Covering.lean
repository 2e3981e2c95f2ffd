import Mathlib

namespace LoomX.CellMemory

inductive InputOutputProperty where
  | read
  | write
  | init
  | readBeforeWrite
  | readAfterWrite
  | readUninitialized
  deriving DecidableEq

/-- The operations of a semantic domain on its values. -/
structure RiscOperators (S : Type) where
  nBits : S → Nat
  mayEqual : S → S → Bool
  mustEqual : S → S → Bool
  createMerged : S → S → S
  isTrue : S → Bool
  undefined : Nat → S
  number : Nat → Nat → S
  boolean : Bool → S
  and : S → S → S
  or : S → S → S
  xor : S → S → S
  invert : S → S
  extract : S → Nat → Nat → S
  unsignedExtend : S → Nat → S
  add : S → S → S
  addWithCarries : S → S → S → S × S

structure MemoryCell (S : Type) where
  address : S
  value : S
  writers : Finset Nat
  ioProperties : Finset InputOutputProperty

variable {S : Type} (ops : RiscOperators S)

namespace MemoryCell

def create (address value : S) : MemoryCell S := ⟨address, value, ∅, ∅⟩

def isByte (cell : MemoryCell S) : Prop := ops.nBits cell.value = 8

/-- Whether a value is at least another one, told from the flags of the subtraction. -/
def notLess (nBits : Nat) (a b : S) : S :=
  let (diff, carries) := ops.addWithCarries a (ops.invert b) (ops.boolean true)
  let sf := ops.extract diff (nBits - 1) nBits
  let of := ops.xor (ops.extract carries (nBits - 1) nBits) (ops.extract carries (nBits - 2) (nBits - 1))
  ops.invert (ops.xor sf of)

def hi (cell : MemoryCell S) : S :=
  ops.add cell.address (ops.number (ops.nBits cell.address) (ops.nBits cell.value / 8))

def mayAlias (cell other : MemoryCell S) : Bool :=
  if ops.nBits cell.value = 8 ∧ ops.nBits other.value = 8 then
    ops.mayEqual cell.address other.address
  else
    let nBits := ops.nBits cell.address
    let cond1 := notLess ops nBits other.address (cell.hi ops)
    let cond2 := notLess ops nBits cell.address (other.hi ops)
    !ops.isTrue (ops.or cond1 cond2)

def mustAlias (cell other : MemoryCell S) : Bool :=
  if ops.nBits cell.value = 8 ∧ ops.nBits other.value = 8 then
    ops.mustEqual cell.address other.address
  else
    let nBits := ops.nBits cell.address
    let cond1 := notLess ops nBits (other.hi ops) cell.address
    let cond2 := notLess ops nBits (cell.hi ops) other.address
    ops.isTrue (ops.and cond1 cond2)

def readProperties (cell : MemoryCell S) : MemoryCell S :=
  let props := insert .read cell.ioProperties
  let props := insert (if .write ∈ props then .readAfterWrite else .readBeforeWrite) props
  { cell with ioProperties := if .init ∈ props then props else insert .readUninitialized props }

@[simp] theorem readProperties_address (cell : MemoryCell S) :
    cell.readProperties.address = cell.address := rfl

@[simp] theorem readProperties_value (cell : MemoryCell S) :
    cell.readProperties.value = cell.value := rfl

end MemoryCell

structure MemoryCellList (S : Type) where
  cells : List (MemoryCell S)
  occlusionsErased : Bool

namespace MemoryCellList

/-- The cells that may alias, up to one that must, and the list from the cursor on. -/
def scan (tempCell : MemoryCell S) : List (MemoryCell S) → List (MemoryCell S) × List (MemoryCell S)
  | [] => ([], [])
  | cell :: rest =>
    if tempCell.mayAlias ops cell then
      if tempCell.mustAlias ops cell then ([cell], cell :: rest)
      else (cell :: (scan tempCell rest).1, (scan tempCell rest).2)
    else scan tempCell rest

/-- The scanned cells are changed where they are. -/
def updateReadProperties (tempCell : MemoryCell S) : List (MemoryCell S) → List (MemoryCell S)
  | [] => []
  | cell :: rest =>
    if tempCell.mayAlias ops cell then
      cell.readProperties ::
        if tempCell.mustAlias ops cell then rest else updateReadProperties tempCell rest
    else cell :: updateReadProperties tempCell rest

def mergeCellValues (cells : List (MemoryCell S)) (dflt : S) : S :=
  match cells.map fun cell => ops.unsignedExtend cell.value (ops.nBits dflt) with
  | [] => dflt
  | value :: rest => rest.foldl ops.createMerged value

def mergeCellWriters (cells : List (MemoryCell S)) : Finset Nat :=
  cells.foldl (fun writers cell => writers ∪ cell.writers) ∅

def mergeCellProperties (cells : List (MemoryCell S)) : Finset InputOutputProperty :=
  cells.foldl (fun props cell => props ∪ cell.ioProperties) ∅

def insertReadCell (m : MemoryCellList S) (addr value : S) (writers : Finset Nat)
    (props : Finset InputOutputProperty) : MemoryCellList S :=
  { m with cells := ⟨addr, value, writers, props⟩ :: m.cells }

def readMemory (m : MemoryCellList S) (addr dflt : S) : S × MemoryCellList S :=
  let tempCell := MemoryCell.create addr (ops.undefined (ops.nBits dflt))
  let (found, cursor) := scan ops tempCell m.cells
  let retval := mergeCellValues ops found dflt
  let m := { m with cells := updateReadProperties ops tempCell m.cells }
  let found := found.map MemoryCell.readProperties
  match found, cursor with
  | [], _ => (retval, m.insertReadCell addr retval ∅ {.read, .readBeforeWrite, .readUninitialized})
  | found, [] =>
    let retval := ops.createMerged retval dflt
    (retval, m.insertReadCell addr retval (mergeCellWriters found) (mergeCellProperties found))
  | [_], _ => (retval, m)
  | found, _ =>
    (retval, m.insertReadCell addr retval (mergeCellWriters found) (mergeCellProperties found))

def peekMemory (m : MemoryCellList S) (addr dflt : S) : S × MemoryCellList S :=
  let tempCell := MemoryCell.create addr (ops.undefined (ops.nBits dflt))
  let (found, cursor) := scan ops tempCell m.cells
  let retval := mergeCellValues ops found dflt
  match found, cursor with
  | _ :: _, [] => (ops.createMerged retval dflt, m)
  | _, _ => (retval, m)

def writeMemory (m : MemoryCellList S) (addr value : S) (currentInstruction : Bool) :
    MemoryCellList S :=
  let newCell := { MemoryCell.create addr value with
    ioProperties := if currentInstruction then {.write} else {.init} }
  let cells := if m.occlusionsErased then
      m.cells.filter fun oldCell => !newCell.mustAlias ops oldCell
    else m.cells
  { m with cells := newCell :: cells }

end MemoryCellList

end LoomX.CellMemory

namespace LoomX.CellMemory

variable {S V L : Type} {ops : RiscOperators S} {loc : V → S → L} {covers : S → S → Prop}

/-- What the memory relies on: every valuation gives an address its location. -/
structure Sound (ops : RiscOperators S) (loc : V → S → L) (covers : S → S → Prop) : Prop where
  mayEqual : ∀ ρ a b, loc ρ a = loc ρ b → ops.mayEqual a b = true
  mustEqual : ∀ ρ a b, ops.mustEqual a b = true → loc ρ a = loc ρ b
  refl : ∀ a, covers a a
  trans : ∀ a b c, covers a b → covers b c → covers a c
  merged_left : ∀ a b, covers (ops.createMerged a b) a
  merged_right : ∀ a b, covers (ops.createMerged a b) b
  extend : ∀ a, covers (ops.unsignedExtend a (ops.nBits a)) a
  nBits_merged : ∀ a b, ops.nBits a = ops.nBits b → ops.nBits (ops.createMerged a b) = ops.nBits a
  nBits_extend : ∀ a n, ops.nBits (ops.unsignedExtend a n) = n
  nBits_undefined : ∀ n, ops.nBits (ops.undefined n) = n

theorem mayAlias_of_loc (hsound : Sound ops loc covers) {ρ : V} {a b : MemoryCell S}
    (ha : a.isByte ops) (hb : b.isByte ops) (h : loc ρ a.address = loc ρ b.address) :
    a.mayAlias ops b = true := by
  rw [MemoryCell.mayAlias, if_pos ⟨ha, hb⟩]
  exact hsound.mayEqual ρ _ _ h

theorem loc_of_mustAlias (hsound : Sound ops loc covers) (ρ : V) {a b : MemoryCell S}
    (ha : a.isByte ops) (hb : b.isByte ops) (h : a.mustAlias ops b = true) :
    loc ρ a.address = loc ρ b.address := by
  rw [MemoryCell.mustAlias, if_pos ⟨ha, hb⟩] at h
  exact hsound.mustEqual ρ _ _ h

theorem create_isByte (hsound : Sound ops loc covers) (addr : S) {dflt : S}
    (hd : ops.nBits dflt = 8) :
    (MemoryCell.create addr (ops.undefined (ops.nBits dflt))).isByte ops := by
  rw [MemoryCell.isByte, MemoryCell.create, hsound.nBits_undefined, hd]

namespace MemoryCellList

theorem map_updateReadProperties (ops : RiscOperators S) (tempCell : MemoryCell S) (cells : List (MemoryCell S)) :
    (updateReadProperties ops tempCell cells).map (fun cell => (cell.address, cell.value)) =
      cells.map fun cell => (cell.address, cell.value) := by
  induction cells with
  | nil => rfl
  | cons first rest ih =>
    rw [updateReadProperties]
    split
    · split <;> simp [ih]
    · simp [ih]

theorem foldl_createMerged_covers (hsound : Sound ops loc covers) (value : S) (values : List S) :
    covers (values.foldl ops.createMerged value) value ∧
      ∀ w ∈ values, covers (values.foldl ops.createMerged value) w := by
  induction values generalizing value with
  | nil => exact ⟨hsound.refl value, by simp⟩
  | cons next rest ih =>
    obtain ⟨hmerged, hrest⟩ := ih (ops.createMerged value next)
    rw [List.foldl_cons]
    refine ⟨hsound.trans _ _ _ hmerged (hsound.merged_left value next), fun w hw => ?_⟩
    rcases List.mem_cons.mp hw with rfl | hw
    · exact hsound.trans _ _ _ hmerged (hsound.merged_right value w)
    · exact hrest w hw

theorem nBits_foldl_createMerged (hsound : Sound ops loc covers) {n : Nat} {value : S}
    {values : List S} (hvalue : ops.nBits value = n) (hall : ∀ w ∈ values, ops.nBits w = n) :
    ops.nBits (values.foldl ops.createMerged value) = n := by
  induction values generalizing value with
  | nil => exact hvalue
  | cons next rest ih =>
    rw [List.foldl_cons]
    refine ih ?_ fun w hw => hall w (by simp [hw])
    rw [hsound.nBits_merged _ _ (hvalue.trans (hall next (by simp)).symm), hvalue]

/-- Merging covers every found cell. -/
theorem mergeCellValues_covers (hsound : Sound ops loc covers) {dflt : S}
    {cells : List (MemoryCell S)} {cell : MemoryCell S} (hmem : cell ∈ cells)
    (hbits : ops.nBits cell.value = ops.nBits dflt) :
    covers (mergeCellValues ops cells dflt) cell.value := by
  have hextend := hsound.extend cell.value
  rw [hbits] at hextend
  have hvalue : ops.unsignedExtend cell.value (ops.nBits dflt) ∈
      cells.map fun cell => ops.unsignedExtend cell.value (ops.nBits dflt) :=
    List.mem_map.mpr ⟨cell, hmem, rfl⟩
  rw [mergeCellValues]
  split
  next heq => simp [heq] at hvalue
  next value rest heq =>
    rw [heq] at hvalue
    obtain ⟨hfirst, hrest⟩ := foldl_createMerged_covers hsound value rest
    rcases List.mem_cons.mp hvalue with h | h
    · rw [h] at hextend
      exact hsound.trans _ _ _ hfirst hextend
    · exact hsound.trans _ _ _ (hrest _ h) hextend

theorem nBits_mergeCellValues (hsound : Sound ops loc covers) (cells : List (MemoryCell S))
    (dflt : S) : ops.nBits (mergeCellValues ops cells dflt) = ops.nBits dflt := by
  have hall : ∀ w ∈ cells.map fun cell => ops.unsignedExtend cell.value (ops.nBits dflt),
      ops.nBits w = ops.nBits dflt := by
    intro w hw
    obtain ⟨cell, -, rfl⟩ := List.mem_map.mp hw
    exact hsound.nBits_extend _ _
  rw [mergeCellValues]
  split
  next => rfl
  next value rest heq =>
    rw [heq] at hall
    exact nBits_foldl_createMerged hsound (hall value (by simp)) fun w hw => hall w (by simp [hw])

section

variable [DecidableEq L]

/-- The newest cell of each written location covers its value. -/
def Covered (loc : V → S → L) (covers : S → S → Prop) (ρ : V) (cells : List (MemoryCell S))
    (store : L → Option S) : Prop :=
  ∀ x v, store x = some v →
    ∃ cell, cells.find? (fun cell => loc ρ cell.address = x) = some cell ∧ covers cell.value v

/-- The newest cell of a location is found by every scan for it. -/
theorem mem_scan (hsound : Sound ops loc covers) {ρ : V} {tempCell cell : MemoryCell S}
    (htemp : tempCell.isByte ops) {cells : List (MemoryCell S)}
    (hbyte : ∀ cell ∈ cells, cell.isByte ops)
    (h : cells.find? (fun cell => loc ρ cell.address = loc ρ tempCell.address) = some cell) :
    cell ∈ (scan ops tempCell cells).1 := by
  induction cells with
  | nil => simp at h
  | cons first rest ih =>
    have hfirst := hbyte first (by simp)
    have hrest := fun cell hcell => hbyte cell (List.mem_cons_of_mem first hcell)
    rw [scan]
    by_cases hloc : loc ρ first.address = loc ρ tempCell.address
    · rw [List.find?_cons_of_pos (by simpa using hloc), Option.some.injEq] at h
      rw [if_pos (mayAlias_of_loc hsound htemp hfirst hloc.symm), ← h]
      split <;> simp
    · rw [List.find?_cons_of_neg (by simpa using hloc)] at h
      have hmust : ¬tempCell.mustAlias ops first = true := fun hmust =>
        hloc (loc_of_mustAlias hsound ρ htemp hfirst hmust).symm
      rw [if_neg hmust]
      split
      · exact List.mem_cons_of_mem _ (ih hrest h)
      · exact ih hrest h

/-- Only the addresses and the values matter. -/
theorem covered_iff {ρ : V} {cells : List (MemoryCell S)} {store : L → Option S} :
    Covered loc covers ρ cells store ↔ ∀ x v, store x = some v →
      ∃ p, (cells.map fun cell => (cell.address, cell.value)).find? (fun p => loc ρ p.1 = x) =
        some p ∧ covers p.2 v := by
  simp only [Covered, List.find?_map, Option.map_eq_some_iff]
  constructor
  · intro h x v hx
    obtain ⟨cell, hcell, hcov⟩ := h x v hx
    exact ⟨_, ⟨cell, hcell, rfl⟩, hcov⟩
  · intro h x v hx
    obtain ⟨-, ⟨cell, hcell, rfl⟩, hcov⟩ := h x v hx
    exact ⟨cell, hcell, hcov⟩

theorem covered_updateReadProperties (ops : RiscOperators S) {ρ : V} {cells : List (MemoryCell S)}
    {store : L → Option S} (tempCell : MemoryCell S) (h : Covered loc covers ρ cells store) :
    Covered loc covers ρ (updateReadProperties ops tempCell cells) store := by
  rw [covered_iff, map_updateReadProperties, ← covered_iff]
  exact h

/-- A new cell that covers what was written at its own location. -/
theorem covered_cons {ρ : V} {cell : MemoryCell S} {cells : List (MemoryCell S)}
    {store : L → Option S} (h : Covered loc covers ρ cells store)
    (hcell : ∀ v, store (loc ρ cell.address) = some v → covers cell.value v) :
    Covered loc covers ρ (cell :: cells) store := by
  intro x v hx
  by_cases hloc : loc ρ cell.address = x
  · exact ⟨cell, List.find?_cons_of_pos (by simpa using hloc), hcell v (hloc ▸ hx)⟩
  · obtain ⟨old, hold, hcov⟩ := h x v hx
    exact ⟨old, by rwa [List.find?_cons_of_neg (by simpa using hloc)], hcov⟩

theorem covered_writeMemory (hsound : Sound ops loc covers) {ρ : V} {m : MemoryCellList S}
    (hbyte : ∀ cell ∈ m.cells, cell.isByte ops) {store : L → Option S}
    (h : Covered loc covers ρ m.cells store) (addr : S) {value : S} (hvalue : ops.nBits value = 8)
    (currentInstruction : Bool) :
    Covered loc covers ρ (m.writeMemory ops addr value currentInstruction).cells
      (Function.update store (loc ρ addr) (some value)) := by
  intro x v hx
  rw [writeMemory]
  by_cases hloc : loc ρ addr = x
  · subst hloc
    rw [Function.update_self, Option.some.injEq] at hx
    exact ⟨_, List.find?_cons_of_pos (by simp [MemoryCell.create]), hx ▸ hsound.refl _⟩
  · rw [Function.update_of_ne (Ne.symm hloc)] at hx
    obtain ⟨old, hold, hcov⟩ := h x v hx
    refine ⟨old, ?_, hcov⟩
    rw [List.find?_cons_of_neg (by simp [MemoryCell.create, hloc])]
    split
    · rw [List.find?_filter, ← hold]
      refine List.find?_congr fun cell hcell => ?_
      by_cases hx' : loc ρ cell.address = x
      · have hmust := mt (loc_of_mustAlias hsound ρ (a := { MemoryCell.create addr value with
          ioProperties := if currentInstruction then {.write} else {.init} }) hvalue (hbyte cell hcell))
          (by simpa [MemoryCell.create, hx'] using hloc)
        simp [hx', hmust]
      · simp [hx']
    · exact hold

/-- A read covers what was written, and what it inserts hides no more than it covers. -/
theorem covered_readMemory (hsound : Sound ops loc covers) {ρ : V} {m : MemoryCellList S}
    (hbyte : ∀ cell ∈ m.cells, cell.isByte ops) {store : L → Option S}
    (h : Covered loc covers ρ m.cells store) (addr : S) {dflt : S} (hd : ops.nBits dflt = 8) :
    (∀ v, store (loc ρ addr) = some v → covers (m.readMemory ops addr dflt).1 v) ∧
      Covered loc covers ρ (m.readMemory ops addr dflt).2.cells store := by
  have htemp := create_isByte hsound addr hd
  have hupdate := covered_updateReadProperties ops
    (MemoryCell.create addr (ops.undefined (ops.nBits dflt))) h
  have hvalue : ∀ v, store (loc ρ addr) = some v →
      covers (mergeCellValues ops (scan ops
        (MemoryCell.create addr (ops.undefined (ops.nBits dflt))) m.cells).1 dflt) v := by
    intro v hv
    obtain ⟨cell, hcell, hcov⟩ := h _ v hv
    have hmem := mem_scan hsound htemp hbyte hcell
    have hbits := hbyte cell (List.mem_of_find?_eq_some hcell)
    exact hsound.trans _ _ _ (mergeCellValues_covers hsound hmem (hbits.trans hd.symm)) hcov
  have hmerged : ∀ v, store (loc ρ addr) = some v →
      covers (ops.createMerged (mergeCellValues ops (scan ops
        (MemoryCell.create addr (ops.undefined (ops.nBits dflt))) m.cells).1 dflt) dflt) v :=
    fun v hv => hsound.trans _ _ _ (hsound.merged_left _ _) (hvalue v hv)
  simp only [readMemory]
  split
  · exact ⟨hvalue, covered_cons hupdate hvalue⟩
  · exact ⟨hmerged, covered_cons hupdate hmerged⟩
  · exact ⟨hvalue, hupdate⟩
  · exact ⟨hvalue, covered_cons hupdate hvalue⟩

end

theorem isByte_updateReadProperties (tempCell : MemoryCell S) {cells : List (MemoryCell S)}
    (hbyte : ∀ cell ∈ cells, cell.isByte ops) :
    ∀ cell ∈ updateReadProperties ops tempCell cells, cell.isByte ops := by
  intro cell hcell
  have hpair : (cell.address, cell.value) ∈ cells.map fun cell => (cell.address, cell.value) := by
    rw [← map_updateReadProperties ops tempCell]
    exact List.mem_map.mpr ⟨cell, hcell, rfl⟩
  obtain ⟨old, hold, heq⟩ := List.mem_map.mp hpair
  have hbits := hbyte old hold
  rw [MemoryCell.isByte, ← (Prod.mk.inj heq).2]
  exact hbits

theorem isByte_readMemory (hsound : Sound ops loc covers) {m : MemoryCellList S}
    (hbyte : ∀ cell ∈ m.cells, cell.isByte ops) (addr : S) {dflt : S} (hd : ops.nBits dflt = 8) :
    ∀ cell ∈ (m.readMemory ops addr dflt).2.cells, cell.isByte ops := by
  have hold := isByte_updateReadProperties
    (MemoryCell.create addr (ops.undefined (ops.nBits dflt))) hbyte
  have hvalue : ops.nBits (mergeCellValues ops (scan ops
      (MemoryCell.create addr (ops.undefined (ops.nBits dflt))) m.cells).1 dflt) = 8 := by
    rw [nBits_mergeCellValues hsound, hd]
  have hmerged : ops.nBits (ops.createMerged (mergeCellValues ops (scan ops
      (MemoryCell.create addr (ops.undefined (ops.nBits dflt))) m.cells).1 dflt) dflt) = 8 := by
    rw [hsound.nBits_merged _ _ (hvalue.trans hd.symm), hvalue]
  simp only [readMemory]
  split
  · exact List.forall_mem_cons.mpr ⟨hvalue, hold⟩
  · exact List.forall_mem_cons.mpr ⟨hmerged, hold⟩
  · exact hold
  · exact List.forall_mem_cons.mpr ⟨hvalue, hold⟩

theorem isByte_writeMemory {m : MemoryCellList S} (hbyte : ∀ cell ∈ m.cells, cell.isByte ops)
    (addr : S) {value : S} (hvalue : ops.nBits value = 8) (currentInstruction : Bool) :
    ∀ cell ∈ (m.writeMemory ops addr value currentInstruction).cells, cell.isByte ops := by
  simp only [writeMemory]
  refine List.forall_mem_cons.mpr ⟨hvalue, fun cell hcell => ?_⟩
  split at hcell
  · exact hbyte cell (List.mem_of_mem_filter hcell)
  · exact hbyte cell hcell

theorem peekMemory_eq (m : MemoryCellList S) (addr dflt : S) :
    m.peekMemory ops addr dflt = ((m.readMemory ops addr dflt).1, m) := by
  simp only [peekMemory, readMemory]
  generalize scan ops (MemoryCell.create addr (ops.undefined (ops.nBits dflt))) m.cells = found
  obtain ⟨_ | ⟨cell, _ | ⟨next, rest⟩⟩, _ | ⟨first, cursor⟩⟩ := found <;> rfl

end MemoryCellList

inductive Request (S : Type) where
  | write (addr value : S) (currentInstruction : Bool)
  | read (addr dflt : S)
  | occlusionsErased (b : Bool)

namespace Request

def isByte (ops : RiscOperators S) : Request S → Prop
  | write _ value _ => ops.nBits value = 8
  | read _ dflt => ops.nBits dflt = 8
  | occlusionsErased _ => True

def apply (ops : RiscOperators S) (m : MemoryCellList S) : Request S → MemoryCellList S
  | write addr value currentInstruction => m.writeMemory ops addr value currentInstruction
  | read addr dflt => (m.readMemory ops addr dflt).2
  | occlusionsErased b => { m with occlusionsErased := b }

/-- What a valuation's locations hold after a request. -/
def written [DecidableEq L] (loc : V → S → L) (ρ : V) (store : L → Option S) :
    Request S → L → Option S
  | write addr value _ => Function.update store (loc ρ addr) (some value)
  | _ => store

end Request

def run (ops : RiscOperators S) (requests : List (Request S)) (occlusionsErased : Bool) :
    MemoryCellList S :=
  requests.foldl (Request.apply ops) ⟨[], occlusionsErased⟩

/-- The values last written. -/
def lastWritten [DecidableEq L] (loc : V → S → L) (ρ : V) (requests : List (Request S)) :
    L → Option S :=
  requests.foldl (Request.written loc ρ) fun _ => none

section

variable [DecidableEq L]

theorem covered_apply (hsound : Sound ops loc covers) {ρ : V} {m : MemoryCellList S}
    (hbyte : ∀ cell ∈ m.cells, cell.isByte ops) {store : L → Option S}
    (h : MemoryCellList.Covered loc covers ρ m.cells store) {request : Request S}
    (hrequest : request.isByte ops) :
    (∀ cell ∈ (request.apply ops m).cells, cell.isByte ops) ∧
      MemoryCellList.Covered loc covers ρ (request.apply ops m).cells
        (request.written loc ρ store) := by
  cases request with
  | write addr value currentInstruction =>
    exact ⟨MemoryCellList.isByte_writeMemory hbyte addr hrequest currentInstruction,
      MemoryCellList.covered_writeMemory hsound hbyte h addr hrequest currentInstruction⟩
  | read addr dflt =>
    exact ⟨MemoryCellList.isByte_readMemory hsound hbyte addr hrequest,
      (MemoryCellList.covered_readMemory hsound hbyte h addr hrequest).2⟩
  | occlusionsErased b => exact ⟨hbyte, h⟩

theorem covered_run (hsound : Sound ops loc covers) (ρ : V) {requests : List (Request S)}
    (hrequests : ∀ request ∈ requests, request.isByte ops) (occlusionsErased : Bool) :
    (∀ cell ∈ (run ops requests occlusionsErased).cells, cell.isByte ops) ∧
      MemoryCellList.Covered loc covers ρ (run ops requests occlusionsErased).cells
        (lastWritten loc ρ requests) := by
  induction requests using List.reverseRecOn with
  | nil => exact ⟨by simp [run], fun x v hx => by simp [lastWritten] at hx⟩
  | append_singleton requests request ih =>
    obtain ⟨hbyte, hcovered⟩ := ih fun r hr => hrequests r (by simp [hr])
    simp only [run, lastWritten, List.foldl_append, List.foldl_cons, List.foldl_nil]
    exact covered_apply hsound hbyte hcovered (hrequests request (by simp))

/-- Reads after any requests cover what was last written, under every valuation. -/
theorem readMemory_covers (hsound : Sound ops loc covers) {requests : List (Request S)}
    (hrequests : ∀ request ∈ requests, request.isByte ops) (occlusionsErased : Bool) (addr : S)
    {dflt : S} (hd : ops.nBits dflt = 8) :
    (∀ ρ v, lastWritten loc ρ requests (loc ρ addr) = some v →
      covers ((run ops requests occlusionsErased).readMemory ops addr dflt).1 v) ∧
      (run ops requests occlusionsErased).peekMemory ops addr dflt =
        (((run ops requests occlusionsErased).readMemory ops addr dflt).1,
          run ops requests occlusionsErased) := by
  refine ⟨fun ρ => ?_, MemoryCellList.peekMemory_eq _ addr dflt⟩
  obtain ⟨hbyte, hcovered⟩ := covered_run hsound ρ hrequests occlusionsErased
  exact (MemoryCellList.covered_readMemory hsound hbyte hcovered addr hd).1

end

/-- Values are known or not, and no operation but merging looks into them. -/
def constants : RiscOperators (Nat × Option Nat) where
  nBits a := a.1
  mayEqual a b := a.2.isNone || b.2.isNone || a.2 = b.2
  mustEqual a b := a.2.isSome && a.2 = b.2
  createMerged a b := if a = b then a else (a.1, none)
  isTrue a := a.2 = some 1
  undefined n := (n, none)
  number n v := (n, some (v % 2 ^ n))
  boolean b := (1, some b.toNat)
  and a _ := (a.1, none)
  or a _ := (a.1, none)
  xor a _ := (a.1, none)
  invert a := (a.1, none)
  extract _ lo hi := (hi - lo, none)
  unsignedExtend a n := (n, if n < a.1 then none else a.2)
  add a _ := (a.1, none)
  addWithCarries a _ _ := ((a.1, none), (a.1, none))

theorem constants_sound :
    Sound constants (fun (ρ : Nat) a => a.2.getD ρ) fun a b => a.2 = none ∨ a.2 = b.2 where
  mayEqual ρ a b h := by
    rcases a with ⟨n, _ | a⟩ <;> rcases b with ⟨m, _ | b⟩ <;> simp_all [constants]
  mustEqual ρ a b h := by
    rcases a with ⟨n, _ | a⟩ <;> rcases b with ⟨m, _ | b⟩ <;> simp_all [constants]
  refl a := .inr rfl
  trans a b c hab hbc := by
    rcases hab with hab | hab
    · exact .inl hab
    · rw [hab]
      exact hbc
  merged_left a b := by
    by_cases h : a = b <;> simp [constants, h]
  merged_right a b := by
    by_cases h : a = b <;> simp [constants, h]
  extend a := by simp [constants]
  nBits_merged a b _ := by
    by_cases h : a = b <;> simp [constants, h]
  nBits_extend a n := rfl
  nBits_undefined n := rfl

/-- A byte written at address 4 may be hidden by one at an unknown address. -/
theorem readMemory_covers_hidden :
    (∀ ρ : Nat, ∀ v, lastWritten (fun ρ a => a.2.getD ρ) ρ
        [.write (32, some 4) (8, some 7) true, .write (32, none) (8, some 9) true] (4 : Nat) = some v →
      ((run constants [.write (32, some 4) (8, some 7) true, .write (32, none) (8, some 9) true]
        false).readMemory constants (32, some 4) (8, none)).1.2 = none ∨
      ((run constants [.write (32, some 4) (8, some 7) true, .write (32, none) (8, some 9) true]
        false).readMemory constants (32, some 4) (8, none)).1.2 = v.2) ∧
    (run constants [.write (32, some 4) (8, some 7) true, .write (32, none) (8, some 9) true]
        false).peekMemory constants (32, some 4) (8, none) =
      (((run constants [.write (32, some 4) (8, some 7) true, .write (32, none) (8, some 9) true]
        false).readMemory constants (32, some 4) (8, none)).1,
        run constants [.write (32, some 4) (8, some 7) true, .write (32, none) (8, some 9) true]
          false) :=
  readMemory_covers constants_sound (by simp [Request.isByte, constants]) false (32, some 4) rfl

end LoomX.CellMemory
