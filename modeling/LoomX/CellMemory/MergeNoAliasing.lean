import LoomX.CellMemory.Covering

namespace LoomX.CellMemory

variable {S : Type} (ops : RiscOperators S) (createOptionalMerge : S → S → Option S)

namespace MemoryCellList

/-- A destination cell after a source cell of its address, and whether it has changed. -/
def mergeMatching (otherCell thisCell : MemoryCell S) : MemoryCell S × Bool :=
  let mergedValue := createOptionalMerge thisCell.value otherCell.value
  -- the writers of this cell are taken from the other cell
  let thisWriters := otherCell.writers
  let mergedWriters := otherCell.writers ∪ thisWriters
  let mergedProps := otherCell.ioProperties ∪ thisCell.ioProperties
  if mergedValue.isSome ∨ mergedWriters ≠ thisWriters ∨ mergedProps ≠ thisCell.ioProperties then
    -- setting the writers inserts them
    ({ thisCell with
      value := mergedValue.getD thisCell.value
      writers := thisCell.writers ∪ mergedWriters
      ioProperties := mergedProps }, true)
  else (thisCell, false)

/-- Merges into the first cell of the address, where there is one. -/
def mergeFirst (otherCell : MemoryCell S) : List (MemoryCell S) → Option (List (MemoryCell S) × Bool)
  | [] => none
  | thisCell :: rest =>
    if ops.mustEqual otherCell.address thisCell.address then
      let merged := mergeMatching createOptionalMerge otherCell thisCell
      some (merged.1 :: rest, merged.2)
    else (mergeFirst otherCell rest).map fun merged => (thisCell :: merged.1, merged.2)

/-- Merges one source cell, which is inserted where no cell has its address. -/
def mergeCell (currentInstruction : Bool) (otherCell : MemoryCell S) (s : MemoryCellList S × Bool) :
    MemoryCellList S × Bool :=
  match mergeFirst ops createOptionalMerge otherCell s.1.cells with
  | some (cells, cellChanged) => ({ s.1 with cells }, s.2 || cellChanged)
  | none =>
    let m := s.1.writeMemory ops otherCell.address otherCell.value currentInstruction
    ({ m with
      cells := m.cells.modifyHead fun newCell =>
        { newCell with
          writers := newCell.writers ∪ otherCell.writers
          ioProperties := otherCell.ioProperties } }, true)

/-- Whether a newer cell has the address of the one at an index. -/
def isOccluded (cells : List (MemoryCell S)) (cell : MemoryCell S × Nat) : Bool :=
  (cells.take cell.2).any fun newer => ops.mustEqual cell.1.address newer.address

/-- Merges the cells of another list, from the oldest on, and says whether this one has changed. -/
def mergeNoAliasing (currentInstruction : Bool) (m other : MemoryCellList S) :
    MemoryCellList S × Bool :=
  other.cells.zipIdx.reverse.foldl (fun s otherCell =>
    if isOccluded ops other.cells otherCell then s
    else mergeCell ops createOptionalMerge currentInstruction otherCell.1 s) (m, false)

/-- The newest cell of an address. -/
def newest (cells : List (MemoryCell S)) (address : S) : Option (MemoryCell S) :=
  cells.find? fun cell => ops.mustEqual address cell.address

end MemoryCellList

/-- What merging relies on: a merge covers both values, and there is none just where the other
value adds nothing; addresses that must be equal are an equivalence. -/
structure MergeLaws {C : Type} (ops : RiscOperators S) (createOptionalMerge : S → S → Option S)
    (members : S → Set C) : Prop where
  covers : ∀ a b m, createOptionalMerge a b = some m → members a ⊆ members m ∧ members b ⊆ members m
  none_iff : ∀ a b, createOptionalMerge a b = none ↔ members b ⊆ members a
  nBits : ∀ a b m, createOptionalMerge a b = some m → ops.nBits a = ops.nBits b →
    ops.nBits m = ops.nBits a
  equivalence : Equivalence fun a b => ops.mustEqual a b = true

namespace MemoryCellList

variable {ops createOptionalMerge} {C : Type} {members : S → Set C} {c d : MemoryCell S}
  {cells : List (MemoryCell S)} {m : MemoryCellList S} {a : S} {currentInstruction : Bool}

/-- The value or the properties of a source cell are new to a destination cell. -/
def Adds (members : S → Set C) (c d : MemoryCell S) : Prop :=
  ¬(members c.value ⊆ members d.value ∧ c.ioProperties ⊆ d.ioProperties)

theorem mergeMatching_of_adds (h : MergeLaws ops createOptionalMerge members)
    (hadds : Adds members c d) :
    mergeMatching createOptionalMerge c d =
      ({ d with
        value := (createOptionalMerge d.value c.value).getD d.value
        writers := d.writers ∪ c.writers
        ioProperties := c.ioProperties ∪ d.ioProperties }, true) := by
  have hchange : (createOptionalMerge d.value c.value).isSome ∨ c.writers ∪ c.writers ≠ c.writers ∨
      c.ioProperties ∪ d.ioProperties ≠ d.ioProperties := by
    by_contra hnone
    rw [not_or, not_or, not_not, not_not, Option.not_isSome_iff_eq_none, h.none_iff] at hnone
    exact hadds ⟨hnone.1, Finset.union_eq_right.mp hnone.2.2⟩
  unfold mergeMatching
  dsimp only
  rw [if_pos hchange, Finset.union_idempotent]

theorem mergeMatching_of_not_adds (h : MergeLaws ops createOptionalMerge members)
    (hadds : ¬Adds members c d) : mergeMatching createOptionalMerge c d = (d, false) := by
  rw [Adds, not_not] at hadds
  have hsame : ¬((createOptionalMerge d.value c.value).isSome ∨ c.writers ∪ c.writers ≠ c.writers ∨
      c.ioProperties ∪ d.ioProperties ≠ d.ioProperties) := by
    rw [not_or, not_or, not_not, not_not, Option.not_isSome_iff_eq_none, h.none_iff]
    exact ⟨hadds.1, Finset.union_idempotent _, Finset.union_eq_right.mpr hadds.2⟩
  unfold mergeMatching
  dsimp only
  rw [if_neg hsame]

/-- A merged cell has the address of the destination cell, and covers both values. -/
theorem mergeMatching_covers (h : MergeLaws ops createOptionalMerge members) :
    (mergeMatching createOptionalMerge c d).1.address = d.address ∧
      members c.value ⊆ members (mergeMatching createOptionalMerge c d).1.value ∧
      members d.value ⊆ members (mergeMatching createOptionalMerge c d).1.value ∧
      (mergeMatching createOptionalMerge c d).1.ioProperties = c.ioProperties ∪ d.ioProperties := by
  by_cases hadds : Adds members c d
  · rw [mergeMatching_of_adds h hadds]
    cases hmerge : createOptionalMerge d.value c.value with
    | none => exact ⟨rfl, (h.none_iff _ _).mp hmerge, subset_rfl, rfl⟩
    | some value => exact ⟨rfl, (h.covers _ _ _ hmerge).2, (h.covers _ _ _ hmerge).1, rfl⟩
  · rw [mergeMatching_of_not_adds h hadds]
    rw [Adds, not_not] at hadds
    exact ⟨rfl, hadds.1, subset_rfl, (Finset.union_eq_right.mpr hadds.2).symm⟩

theorem mergeMatching_ne (h : MergeLaws ops createOptionalMerge members) (hadds : Adds members c d) :
    (mergeMatching createOptionalMerge c d).1 ≠ d := by
  intro heq
  obtain ⟨-, hvalue, -, hprops⟩ := mergeMatching_covers (c := c) (d := d) h
  rw [heq] at hvalue hprops
  exact hadds ⟨hvalue, Finset.union_eq_right.mp hprops.symm⟩

/-- What is at the address of a source cell after it was merged. -/
def mergedWith (createOptionalMerge : S → S → Option S) (c : MemoryCell S) :
    Option (MemoryCell S) → MemoryCell S
  | none => c
  | some d => (mergeMatching createOptionalMerge c d).1

/-- Whether merging a source cell changes what is at its address. -/
def Changes (members : S → Set C) (c : MemoryCell S) (previous : Option (MemoryCell S)) : Prop :=
  ∀ d, previous = some d → Adds members c d

theorem not_changes_mergedWith (h : MergeLaws ops createOptionalMerge members)
    (previous : Option (MemoryCell S)) :
    ¬Changes members c (some (mergedWith createOptionalMerge c previous)) := by
  intro hchanges
  refine hchanges _ rfl ?_
  cases previous with
  | none => exact ⟨subset_rfl, subset_rfl⟩
  | some d =>
    obtain ⟨-, hvalue, -, hprops⟩ := mergeMatching_covers (c := c) (d := d) h
    refine ⟨hvalue, ?_⟩
    show c.ioProperties ⊆ (mergeMatching createOptionalMerge c d).1.ioProperties
    rw [hprops]
    exact Finset.subset_union_left

theorem newest_cons (c : MemoryCell S) (cells : List (MemoryCell S)) (a : S) :
    newest ops (c :: cells) a =
      if ops.mustEqual a c.address then some c else newest ops cells a := by
  unfold newest
  rw [List.find?_cons]
  split
  next h => rw [if_pos h]
  next h => rw [if_neg (by rw [h]; exact Bool.false_ne_true)]

theorem mergeFirst_eq_none (hnone : newest ops cells c.address = none) :
    mergeFirst ops createOptionalMerge c cells = none := by
  induction cells with
  | nil => rfl
  | cons first rest ih =>
    rw [newest_cons] at hnone
    split at hnone
    next => cases hnone
    next hne => rw [mergeFirst, if_neg hne, ih hnone, Option.map_none]

theorem isByte_mergeMatching (h : MergeLaws ops createOptionalMerge members) (hc : c.isByte ops)
    (hd : d.isByte ops) : (mergeMatching createOptionalMerge c d).1.isByte ops := by
  by_cases hadds : Adds members c d
  · rw [mergeMatching_of_adds h hadds]
    show ops.nBits ((createOptionalMerge d.value c.value).getD d.value) = 8
    cases hmerge : createOptionalMerge d.value c.value with
    | none => exact hd
    | some value => exact (h.nBits _ _ _ hmerge (hd.trans hc.symm)).trans hd
  · rw [mergeMatching_of_not_adds h hadds]
    exact hd

/-- Merging into the first cell of an address changes what is at that address only. -/
theorem mergeFirst_spec (h : MergeLaws ops createOptionalMerge members) (hc : c.isByte ops)
    (hbyte : ∀ cell ∈ cells, cell.isByte ops) (hsome : newest ops cells c.address = some d) :
    ∃ cells', mergeFirst ops createOptionalMerge c cells =
        some (cells', (mergeMatching createOptionalMerge c d).2) ∧
      newest ops cells' c.address = some (mergeMatching createOptionalMerge c d).1 ∧
      (∀ a, ¬ops.mustEqual c.address a = true → newest ops cells' a = newest ops cells a) ∧
      (∀ cell ∈ cells', cell.isByte ops) ∧
      ((mergeMatching createOptionalMerge c d).1 = d → cells' = cells) := by
  induction cells with
  | nil => cases hsome
  | cons first rest ih =>
    obtain ⟨hfirst, hrest⟩ := List.forall_mem_cons.mp hbyte
    rw [newest_cons] at hsome
    split at hsome
    next hmatch =>
      have hd : first = d := Option.some.inj hsome
      subst hd
      have haddress := (mergeMatching_covers (c := c) (d := first) h).1
      refine ⟨(mergeMatching createOptionalMerge c first).1 :: rest, ?_, ?_, fun a ha => ?_,
        List.forall_mem_cons.mpr ⟨isByte_mergeMatching h hc hfirst, hrest⟩, fun heq => ?_⟩
      · rw [mergeFirst, if_pos hmatch]
      · rw [newest_cons, haddress, if_pos hmatch]
      · have hne : ¬ops.mustEqual a first.address = true := fun heq =>
          ha (h.equivalence.trans hmatch (h.equivalence.symm heq))
        rw [newest_cons, newest_cons, haddress, if_neg hne, if_neg hne]
      · rw [heq]
    next hne =>
      obtain ⟨cells', hmerge, hnew, hothers, hbyte', hsame⟩ := ih hrest hsome
      refine ⟨first :: cells', ?_, ?_, fun a ha => ?_, List.forall_mem_cons.mpr ⟨hfirst, hbyte'⟩,
        fun heq => ?_⟩
      · rw [mergeFirst, if_neg hne, hmerge, Option.map_some]
      · rw [newest_cons, if_neg hne, hnew]
      · rw [newest_cons, newest_cons, hothers a ha]
      · rw [hsame heq]

/-- What merging one source cell does. -/
structure CellMerged (ops : RiscOperators S) (createOptionalMerge : S → S → Option S)
    (members : S → Set C) (c : MemoryCell S) (s s' : MemoryCellList S × Bool) : Prop where
  here : newest ops s'.1.cells c.address =
    some (mergedWith createOptionalMerge c (newest ops s.1.cells c.address))
  elsewhere : ∀ a, ¬ops.mustEqual c.address a = true →
    newest ops s'.1.cells a = newest ops s.1.cells a
  byte : ∀ cell ∈ s'.1.cells, cell.isByte ops
  flag : s'.2 = true ↔ s.2 = true ∨ Changes members c (newest ops s.1.cells c.address)
  same : ¬Changes members c (newest ops s.1.cells c.address) → s'.1 = s.1

/-- A new cell erases none, as there is none of its address. -/
theorem cells_writeMemory (currentInstruction : Bool) (hc : c.isByte ops)
    (hbyte : ∀ cell ∈ m.cells, cell.isByte ops) (hnone : newest ops m.cells c.address = none) :
    ∃ props, (m.writeMemory ops c.address c.value currentInstruction).cells =
      ⟨c.address, c.value, ∅, props⟩ :: m.cells := by
  have hkeep : ∀ props, (m.cells.filter fun oldCell =>
      !MemoryCell.mustAlias ops ⟨c.address, c.value, ∅, props⟩ oldCell) = m.cells := by
    intro props
    refine List.filter_eq_self.mpr fun cell hcell => ?_
    have hne := List.find?_eq_none.mp hnone cell hcell
    rw [MemoryCell.mustAlias, if_pos ⟨hc, hbyte cell hcell⟩, Bool.not_eq_true']
    exact Bool.not_eq_true _ ▸ hne
  refine ⟨if currentInstruction then {.write} else {.init}, ?_⟩
  rw [writeMemory]
  cases m.occlusionsErased with
  | true => exact congrArg _ (hkeep _)
  | false => rfl

theorem mergeCell_spec (currentInstruction : Bool)
    (h : MergeLaws ops createOptionalMerge members) (hc : c.isByte ops)
    {s : MemoryCellList S × Bool} (hbyte : ∀ cell ∈ s.1.cells, cell.isByte ops) :
    CellMerged ops createOptionalMerge members c s
      (mergeCell ops createOptionalMerge currentInstruction c s) := by
  unfold mergeCell
  cases hprevious : newest ops s.1.cells c.address with
  | some d =>
    obtain ⟨cells', hmerge, hnew, hothers, hbyte', hsame⟩ := mergeFirst_spec h hc hbyte hprevious
    rw [hmerge]
    refine ⟨?_, hothers, hbyte', ?_, ?_⟩
    · rw [hprevious]
      exact hnew
    · rw [hprevious]
      by_cases hadds : Adds members c d
      · rw [mergeMatching_of_adds h hadds]
        exact iff_of_true (Bool.or_true _) (.inr fun d' hd' => Option.some.inj hd' ▸ hadds)
      · rw [mergeMatching_of_not_adds h hadds]
        show (s.2 || false) = true ↔ _
        rw [Bool.or_false]
        exact (or_iff_left fun hchanges => hadds (hchanges d rfl)).symm
    · rw [hprevious]
      intro hchanges
      have hadds : ¬Adds members c d := fun hadds =>
        hchanges fun d' hd' => Option.some.inj hd' ▸ hadds
      rw [mergeMatching_of_not_adds h hadds] at hsame
      show ({ s.1 with cells := cells' } : MemoryCellList S) = s.1
      rw [hsame rfl]
  | none =>
    rw [mergeFirst_eq_none hprevious]
    obtain ⟨props, hcells⟩ := cells_writeMemory currentInstruction hc hbyte hprevious
    dsimp only
    rw [hcells, List.modifyHead_cons]
    have hcell : (⟨c.address, c.value, ∅ ∪ c.writers, c.ioProperties⟩ : MemoryCell S) = c := by
      rw [Finset.empty_union]
    refine ⟨?_, fun a ha => ?_, ?_, ?_, ?_⟩
    · show newest ops (⟨c.address, c.value, ∅ ∪ c.writers, c.ioProperties⟩ :: s.1.cells) _ = _
      rw [hcell, newest_cons, if_pos (h.equivalence.refl c.address), hprevious]
      rfl
    · show newest ops (⟨c.address, c.value, ∅ ∪ c.writers, c.ioProperties⟩ :: s.1.cells) _ = _
      rw [hcell, newest_cons, if_neg fun heq => ha (h.equivalence.symm heq)]
    · exact List.forall_mem_cons.mpr ⟨hc, hbyte⟩
    · rw [hprevious]
      exact iff_of_true rfl (.inr nofun)
    · rw [hprevious]
      exact fun hchanges => absurd nofun hchanges

/-- What merging some source cells of different addresses does. -/
structure CellsMerged (ops : RiscOperators S) (createOptionalMerge : S → S → Option S)
    (members : S → Set C) (sources : List (MemoryCell S)) (m : MemoryCellList S)
    (s : MemoryCellList S × Bool) : Prop where
  here : ∀ c ∈ sources, newest ops s.1.cells c.address =
    some (mergedWith createOptionalMerge c (newest ops m.cells c.address))
  elsewhere : ∀ a, (∀ c ∈ sources, ¬ops.mustEqual c.address a = true) →
    newest ops s.1.cells a = newest ops m.cells a
  byte : ∀ cell ∈ s.1.cells, cell.isByte ops
  flag : s.2 = true ↔ ∃ c ∈ sources, Changes members c (newest ops m.cells c.address)
  same : (∀ c ∈ sources, ¬Changes members c (newest ops m.cells c.address)) → s.1 = m

theorem mergeCells_spec (currentInstruction : Bool)
    (h : MergeLaws ops createOptionalMerge members)
    {sources : List (MemoryCell S)} (hsources : ∀ c ∈ sources, c.isByte ops)
    (hdiffer : sources.Pairwise fun c d => ¬ops.mustEqual c.address d.address = true)
    (hbyte : ∀ cell ∈ m.cells, cell.isByte ops) :
    CellsMerged ops createOptionalMerge members sources m
      (sources.foldr (mergeCell ops createOptionalMerge currentInstruction) (m, false)) := by
  induction sources with
  | nil =>
    refine ⟨nofun, fun _ _ => rfl, hbyte, iff_of_false Bool.false_ne_true ?_, fun _ => rfl⟩
    exact fun ⟨_, hc, _⟩ => List.not_mem_nil hc
  | cons c rest ih =>
    obtain ⟨hc, hrest⟩ := List.forall_mem_cons.mp hsources
    obtain ⟨hfirst, hdiffer⟩ := List.pairwise_cons.mp hdiffer
    have hdone := ih hrest hdiffer
    rw [List.foldr_cons]
    generalize rest.foldr (mergeCell ops createOptionalMerge currentInstruction) (m, false) = s
      at hdone ⊢
    have hstep := mergeCell_spec currentInstruction h hc hdone.byte
    have hhere : newest ops s.1.cells c.address = newest ops m.cells c.address :=
      hdone.elsewhere _ fun d hd heq => hfirst d hd (h.equivalence.symm heq)
    refine ⟨List.forall_mem_cons.mpr ⟨?_, fun d hd => ?_⟩, fun a ha => ?_, hstep.byte, ?_,
      fun hnone => ?_⟩
    · rw [hstep.here, hhere]
    · rw [hstep.elsewhere _ (hfirst d hd), hdone.here d hd]
    · obtain ⟨hca, hresta⟩ := List.forall_mem_cons.mp ha
      rw [hstep.elsewhere a hca, hdone.elsewhere a hresta]
    · rw [hstep.flag, hhere, hdone.flag, List.exists_mem_cons_iff, or_comm]
    · obtain ⟨hcn, hrestn⟩ := List.forall_mem_cons.mp hnone
      rw [hstep.same (hhere ▸ hcn), hdone.same hrestn]

/-- The source cells that no newer one occludes. -/
def visible (ops : RiscOperators S) (cells : List (MemoryCell S)) : List (MemoryCell S) :=
  (cells.zipIdx.filter fun cell => !isOccluded ops cells cell).map Prod.fst

theorem mergeNoAliasing_eq (other : MemoryCellList S) :
    mergeNoAliasing ops createOptionalMerge currentInstruction m other =
      (visible ops other.cells).foldr (mergeCell ops createOptionalMerge currentInstruction)
        (m, false) := by
  rw [mergeNoAliasing, List.foldl_reverse, visible, List.foldr_map, List.foldr_filter]
  refine congrArg (fun f => other.cells.zipIdx.foldr f (m, false)) ?_
  funext cell s
  cases isOccluded ops other.cells cell with
  | true => rfl
  | false => rfl

theorem visible_differ (h : MergeLaws ops createOptionalMerge members) (cells : List (MemoryCell S)) :
    (visible ops cells).Pairwise fun c d => ¬ops.mustEqual c.address d.address = true := by
  rw [visible, List.pairwise_map, List.pairwise_filter, List.pairwise_iff_getElem]
  intro i j hi hj hij _ hvisible
  rw [List.getElem_zipIdx, List.getElem_zipIdx] at *
  rw [Bool.not_eq_true', isOccluded, List.any_eq_false] at hvisible
  dsimp only at hvisible ⊢
  intro heq
  refine hvisible _ (List.mem_take_iff_getElem.mpr ⟨i, ?_, rfl⟩) (h.equivalence.symm heq)
  rw [List.length_zipIdx] at hi hj
  omega

/-- Merging keeps what both lists know of an address, says whether it has changed anything, and
changes nothing the second time. -/
structure MergesWithoutLoss (ops : RiscOperators S) (createOptionalMerge : S → S → Option S)
    (members : S → Set C) (currentInstruction : Bool) (m other : MemoryCellList S) : Prop where
  merged : ∀ c ∈ visible ops other.cells, ∃ d,
    newest ops (mergeNoAliasing ops createOptionalMerge currentInstruction m other).1.cells c.address =
      some d ∧
    members c.value ⊆ members d.value ∧
    (∀ old, newest ops m.cells c.address = some old → members old.value ⊆ members d.value) ∧
    d.writers = c.writers ∪ (newest ops m.cells c.address).elim ∅ MemoryCell.writers ∧
    d.ioProperties = c.ioProperties ∪ (newest ops m.cells c.address).elim ∅ MemoryCell.ioProperties
  changed : (mergeNoAliasing ops createOptionalMerge currentInstruction m other).2 = true ↔
    (mergeNoAliasing ops createOptionalMerge currentInstruction m other).1 ≠ m
  again : (mergeNoAliasing ops createOptionalMerge currentInstruction
    (mergeNoAliasing ops createOptionalMerge currentInstruction m other).1 other).2 = false

/-- Where a source cell adds no value and no property, its writers are known already. -/
def WritersKnown (ops : RiscOperators S) (members : S → Set C) (m other : MemoryCellList S) : Prop :=
  ∀ c ∈ visible ops other.cells, ∀ d, newest ops m.cells c.address = some d →
    members c.value ⊆ members d.value → c.ioProperties ⊆ d.ioProperties → c.writers ⊆ d.writers

/-- The writers of a merged cell are those of both where something is added, or they are known. -/
theorem mergedWith_writers (h : MergeLaws ops createOptionalMerge members)
    (previous : Option (MemoryCell S)) :
    (mergedWith createOptionalMerge c previous).writers =
        c.writers ∪ previous.elim ∅ MemoryCell.writers ↔
      ∀ d, previous = some d → members c.value ⊆ members d.value →
        c.ioProperties ⊆ d.ioProperties → c.writers ⊆ d.writers := by
  cases previous with
  | none => exact iff_of_true (Finset.union_empty _).symm nofun
  | some d =>
    show (mergeMatching createOptionalMerge c d).1.writers = c.writers ∪ d.writers ↔ _
    by_cases hadds : Adds members c d
    · rw [mergeMatching_of_adds h hadds]
      refine iff_of_true (Finset.union_comm _ _) fun d' hd' hvalue hprops => ?_
      rw [← Option.some.inj hd'] at hvalue hprops
      exact absurd ⟨hvalue, hprops⟩ hadds
    · rw [mergeMatching_of_not_adds h hadds]
      rw [Adds, not_not] at hadds
      show d.writers = c.writers ∪ d.writers ↔ _
      rw [eq_comm, Finset.union_eq_right]
      constructor
      · intro hsub d' hd' _ _
        rw [← Option.some.inj hd']
        exact hsub
      · exact fun hknown => hknown d rfl hadds.1 hadds.2

theorem mergedWith_covers (h : MergeLaws ops createOptionalMerge members)
    (previous : Option (MemoryCell S)) :
    members c.value ⊆ members (mergedWith createOptionalMerge c previous).value ∧
      (∀ old, previous = some old →
        members old.value ⊆ members (mergedWith createOptionalMerge c previous).value) ∧
      (mergedWith createOptionalMerge c previous).ioProperties =
        c.ioProperties ∪ previous.elim ∅ MemoryCell.ioProperties := by
  cases previous with
  | none => exact ⟨subset_rfl, nofun, (Finset.union_empty _).symm⟩
  | some d =>
    obtain ⟨-, hvalue, hold, hprops⟩ := mergeMatching_covers (c := c) (d := d) h
    refine ⟨hvalue, fun old heq => ?_, hprops⟩
    rw [← Option.some.inj heq]
    exact hold

theorem mergedWith_ne (h : MergeLaws ops createOptionalMerge members)
    {previous : Option (MemoryCell S)} (hchanges : Changes members c previous) :
    some (mergedWith createOptionalMerge c previous) ≠ previous := by
  cases previous with
  | none => exact Option.some_ne_none _
  | some d => exact fun heq => mergeMatching_ne h (hchanges d rfl) (Option.some.inj heq)

/-- Merging byte cells loses nothing exactly where the writers that it leaves out are known. -/
theorem mergesWithoutLoss_iff (h : MergeLaws ops createOptionalMerge members)
    {m other : MemoryCellList S} (hm : ∀ cell ∈ m.cells, cell.isByte ops)
    (hother : ∀ cell ∈ other.cells, cell.isByte ops) :
    MergesWithoutLoss ops createOptionalMerge members currentInstruction m other ↔
      WritersKnown ops members m other := by
  have hsources : ∀ c ∈ visible ops other.cells, c.isByte ops := by
    intro c hc
    obtain ⟨p, hp, rfl⟩ := List.mem_map.mp hc
    exact hother p.1 (List.fst_mem_of_mem_zipIdx (List.mem_filter.mp hp).1)
  have hdiffer := visible_differ h other.cells
  have hfirst := mergeCells_spec currentInstruction h hsources hdiffer hm
  have hsecond := mergeCells_spec currentInstruction h hsources hdiffer hfirst.byte
  rw [← mergeNoAliasing_eq] at hfirst hsecond
  rw [← mergeNoAliasing_eq] at hsecond
  constructor
  · intro hloss c hc
    obtain ⟨d, hd, -, -, hwriters, -⟩ := hloss.merged c hc
    rw [hfirst.here c hc] at hd
    rw [← Option.some.inj hd] at hwriters
    exact (mergedWith_writers h _).mp hwriters
  · intro hknown
    refine ⟨fun c hc => ?_, ?_, ?_⟩
    · obtain ⟨hvalue, hold, hprops⟩ := mergedWith_covers (c := c) h (newest ops m.cells c.address)
      exact ⟨_, hfirst.here c hc, hvalue, hold, (mergedWith_writers h _).mpr (hknown c hc), hprops⟩
    · rw [hfirst.flag]
      constructor
      · intro ⟨c, hc, hchanges⟩ heq
        have hhere := hfirst.here c hc
        rw [heq] at hhere
        exact mergedWith_ne h hchanges hhere.symm
      · intro hne
        by_contra hnone
        exact hne (hfirst.same fun c hc hchanges => hnone ⟨c, hc, hchanges⟩)
    · rw [← Bool.not_eq_true, hsecond.flag]
      intro ⟨c, hc, hchanges⟩
      rw [hfirst.here c hc] at hchanges
      exact not_changes_mergedWith h _ hchanges

end MemoryCellList

/-- Values that are known or not, and are equal as addresses where they are the same. -/
def sameTerms : RiscOperators (Nat × Option Nat) :=
  { constants with mustEqual := fun a b => decide (a = b) }

/-- Different known values merge to an unknown one. -/
def mergeTerms (a b : Nat × Option Nat) : Option (Nat × Option Nat) :=
  if a.2 = none ∨ a.2 = b.2 then none else some (a.1, none)

def termMembers (a : Nat × Option Nat) : Set Nat := {x | a.2 = none ∨ a.2 = some x}

theorem termMembers_subset {a b : Nat × Option Nat} :
    termMembers b ⊆ termMembers a ↔ a.2 = none ∨ a.2 = b.2 := by
  obtain ⟨n, _ | v⟩ := a
  · exact iff_of_true (fun _ _ => .inl rfl) (.inl rfl)
  · obtain ⟨k, _ | u⟩ := b
    · refine iff_of_false (fun hsub => ?_) (by simp)
      have hnext : v + 1 ∈ termMembers (n, some v) := hsub (.inl rfl)
      simp [termMembers] at hnext
    · constructor
      · intro hsub
        have hu : u ∈ termMembers (n, some v) := hsub (.inr rfl)
        simpa [termMembers, eq_comm] using hu
      · intro heq x hx
        simpa [termMembers, (by simpa using heq : v = u)] using hx

theorem mergeTerms_laws : MergeLaws sameTerms mergeTerms termMembers where
  covers a b m hm := by
    rw [mergeTerms] at hm
    split at hm
    next => cases hm
    next =>
      rw [← Option.some.inj hm, termMembers_subset, termMembers_subset]
      exact ⟨.inl rfl, .inl rfl⟩
  none_iff a b := by
    rw [termMembers_subset, mergeTerms]
    split
    next h => exact iff_of_true rfl h
    next h => exact iff_of_false (Option.some_ne_none _) h
  nBits a b m hm _ := by
    rw [mergeTerms] at hm
    split at hm
    next => cases hm
    next =>
      rw [← Option.some.inj hm]
      rfl
  equivalence := by
    refine ⟨fun a => decide_eq_true rfl, fun h => ?_, fun h h' => ?_⟩
    · exact decide_eq_true (of_decide_eq_true h).symm
    · exact decide_eq_true ((of_decide_eq_true h).trans (of_decide_eq_true h'))

/-- A byte at address 4 with the value 5. -/
def byteWrittenBy (writer : Nat) : MemoryCellList (Nat × Option Nat) :=
  ⟨[⟨(32, some 4), (8, some 5), {writer}, {.write}⟩], false⟩

theorem byteWrittenBy_isByte (writer : Nat) :
    ∀ cell ∈ (byteWrittenBy writer).cells, cell.isByte sameTerms :=
  List.forall_mem_singleton.mpr rfl

theorem mergesWithoutLoss_iff_same :
    MemoryCellList.MergesWithoutLoss sameTerms mergeTerms termMembers true (byteWrittenBy 1)
      (byteWrittenBy 1) := by
  refine (MemoryCellList.mergesWithoutLoss_iff mergeTerms_laws (byteWrittenBy_isByte 1)
    (byteWrittenBy_isByte 1)).mpr fun c hc d hd _ _ => ?_
  have hcell : c = ⟨(32, some 4), (8, some 5), {1}, {.write}⟩ := List.mem_singleton.mp hc
  rw [hcell] at hd ⊢
  rw [← Option.some.inj hd]

/-- The writer of an equal byte is lost. -/
theorem mergeNoAliasing_loses_writer :
    MergeLaws sameTerms mergeTerms termMembers ∧
      (∀ writer, ∀ cell ∈ (byteWrittenBy writer).cells, cell.isByte sameTerms) ∧
      ¬MemoryCellList.MergesWithoutLoss sameTerms mergeTerms termMembers true (byteWrittenBy 1)
        (byteWrittenBy 2) := by
  refine ⟨mergeTerms_laws, byteWrittenBy_isByte, fun h => ?_⟩
  obtain ⟨d, hd, -, -, hwriters, -⟩ := h.merged ⟨(32, some 4), (8, some 5), {2}, {.write}⟩
    (List.mem_singleton.mpr rfl)
  have hkept : d = ⟨(32, some 4), (8, some 5), {1}, {.write}⟩ := (Option.some.inj hd).symm
  rw [hkept] at hwriters
  exact absurd hwriters (by decide)

end LoomX.CellMemory
