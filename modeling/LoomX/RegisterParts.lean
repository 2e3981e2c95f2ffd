import LoomX.RegisterState.BitStore
import LoomX.SortedMap
import Mathlib.Data.Prod.Lex
import Mathlib.Data.Set.Lattice

namespace LoomX

open RegisterState (RegisterDescriptor)

/-- Major and minor number of a family of registers, compared in this order. -/
abbrev MajorMinor := Nat ×ₗ Nat

/-- The bits that are held of each family of registers. -/
abbrev RegisterParts := SortedMap MajorMinor IntervalSet

/-- The constructor of a descriptor, whose assertions are about the ranges of its properties; the
major number has four bits. -/
def makeDescriptor (majr minr offset width : Nat) : Option RegisterDescriptor :=
  if majr ≤ 16 ∧ minr ≤ 1023 ∧ offset < 512 ∧ offset + width ≤ 512 then
    some ⟨majr % 16, minr, offset, width⟩
  else none

namespace RegisterParts

def key (reg : RegisterDescriptor) : MajorMinor := toLex reg.store

/-- A register that has no bits fails the assertion. -/
def bitRange (reg : RegisterDescriptor) : Option Interval :=
  if reg.nBits = 0 then none else some reg.location

def existsAll (m : RegisterParts) (reg : RegisterDescriptor) : Option Bool :=
  match m.find? (key reg) with
  | none => some false
  | some bits => do
    let range ← bitRange reg
    some (bits.contains range)

/-- The bits of a family are added to, after they are stored as none if they are not there. -/
def insertMaybeDefault (m : RegisterParts) (k : MajorMinor) (add : IntervalSet → IntervalSet) :
    RegisterParts :=
  m.insertWith (fun bits _ => add bits) k (add .empty)

def insert (m : RegisterParts) (reg : RegisterDescriptor) : Option RegisterParts := do
  let range ← bitRange reg
  some (m.insertMaybeDefault (key reg) fun bits => bits.insertHull range.lo range.hi)

/-- The constructor from a register. -/
def ofRegister (reg : RegisterDescriptor) : Option RegisterParts := insert .empty reg

def erase (m : RegisterParts) (reg : RegisterDescriptor) : Option RegisterParts :=
  match m.find? (key reg) with
  | none => some m
  | some bits => do
    let range ← bitRange reg
    let rest := bits.eraseHull range.lo range.hi
    if rest.isEmpty then some (SortedMap.erase m (key reg))
    else some (m.insertWith (fun _ new => new) (key reg) rest)

/-- The loop over the nodes of a map and the intervals of each. -/
def pieces (m : RegisterParts) : List (MajorMinor × Interval) :=
  m.entries.flatMap fun node => node.2.intervals.map fun bits => (node.1, bits)

def pieceDescriptor (piece : MajorMinor × Interval) : Option RegisterDescriptor :=
  makeDescriptor (ofLex piece.1).1 (ofLex piece.1).2 piece.2.lo piece.2.size

/-- `operator-`. -/
def difference (m other : RegisterParts) : Option RegisterParts :=
  other.pieces.foldlM (fun m piece => do
    let reg ← pieceDescriptor piece
    m.erase reg) m

/-- `operator|`. -/
def union (m other : RegisterParts) : RegisterParts :=
  other.entries.foldl (fun m node =>
    insertMaybeDefault m node.1 fun bits => bits.insertMultiple node.2) m

/-- What a node and the other map have in common. -/
def insertCommon (other newmap : RegisterParts) (node : MajorMinor × IntervalSet) :
    RegisterParts :=
  match other.find? node.1 with
  | none => newmap
  | some bits =>
    if (node.2.inter bits).isEmpty then newmap
    else newmap.insertWith (fun _ new => new) node.1 (node.2.inter bits)

/-- `operator&`. -/
def intersection (m other : RegisterParts) : RegisterParts :=
  m.entries.foldl (insertCommon other) .empty

/-- The loop over the registers of the dictionary, with those found so far. -/
def extractNamed (m : RegisterParts) (retval : List RegisterDescriptor) :
    List RegisterDescriptor → Option (List RegisterDescriptor × RegisterParts)
  | [] => some (retval, m)
  | reg :: regs => do
    let all ← m.existsAll reg
    if all then do
      let m ← m.erase reg
      if m.entries.isEmpty then some (retval ++ [reg], m)
      else extractNamed m (retval ++ [reg]) regs
    else extractNamed m retval regs

/-- A sort by decreasing size, which leaves the order of registers of one size open. -/
structure SortBySize (sort : List RegisterDescriptor → List RegisterDescriptor) : Prop where
  perm : ∀ regs, (sort regs).Perm regs
  descending : ∀ regs, (sort regs).Pairwise fun a b => b.nBits ≤ a.nBits

/-- Registers by decreasing size. -/
def sortBySize (regs : List RegisterDescriptor) : List RegisterDescriptor :=
  regs.insertionSort fun a b => b.nBits ≤ a.nBits

/-- Extraction, where `sort` is the sort of the registers. -/
def extract (sort : List RegisterDescriptor → List RegisterDescriptor) (m : RegisterParts)
    (regDict : Option (List RegisterDescriptor)) (extractAll : Bool) :
    Option (List RegisterDescriptor × RegisterParts) :=
  if m.entries.isEmpty then some ([], m)
  else do
    let (retval, m) ← (match regDict with
      | none => some ([], m)
      | some registers => m.extractNamed [] (sort registers))
    if regDict.isNone || extractAll then do
      let rest ← m.pieces.mapM pieceDescriptor
      some (retval ++ rest, .empty)
    else some (retval, m)

/-- The triples of major number, minor number and bit that are held. -/
def triples (m : RegisterParts) : Set (Nat × Nat × Nat) :=
  {t | ∃ bits, m.find? (toLex (t.1, t.2.1)) = some bits ∧ t.2.2 ∈ bits}

/-- The triples of a register. -/
def registerTriples (reg : RegisterDescriptor) : Set (Nat × Nat × Nat) :=
  {t | (t.1, t.2.1) = reg.store ∧ t.2.2 ∈ reg.location}

/-- No family is stored without bits, and all numbers are in the ranges of a descriptor. -/
def WellFormed (m : RegisterParts) : Prop :=
  ∀ k bits, m.find? k = some bits → bits.isEmpty = false ∧
    (ofLex k).1 < 16 ∧ (ofLex k).2 ≤ 1023 ∧ ∀ b ∈ bits, b < 512

section
variable {m m' other : RegisterParts} {reg : RegisterDescriptor} {k : MajorMinor}
  {bits : IntervalSet} {t : Nat × Nat × Nat}

theorem mem_triples :
    t ∈ m.triples ↔ ∃ bits, m.find? (toLex (t.1, t.2.1)) = some bits ∧ t.2.2 ∈ bits := Iff.rfl

theorem mem_registerTriples :
    t ∈ registerTriples reg ↔ toLex (t.1, t.2.1) = key reg ∧ t.2.2 ∈ reg.location := Iff.rfl

theorem wellFormed_empty : WellFormed (.empty : RegisterParts) := by
  intro k bits h
  cases h

theorem triples_eq_empty (h : m.entries = []) : m.triples = ∅ := by
  rw [Set.eq_empty_iff_forall_notMem]
  rintro t ⟨bits, hfind, -⟩
  have hmem := SortedMap.mem_entries_iff.mpr hfind
  rw [h] at hmem
  cases hmem

theorem bitRange_eq_some {range : Interval} :
    bitRange reg = some range ↔ reg.nBits ≠ 0 ∧ range = reg.location := by
  unfold bitRange
  split
  next h => simp [h]
  next h => simp [h, eq_comm]

theorem location_hull (h : reg.nBits ≠ 0) {b : Nat} :
    b ∈ Interval.hull reg.location.lo reg.location.hi ↔ b ∈ reg.location := by
  have hle : reg.location.lo ≤ reg.location.hi := by
    simp only [RegisterDescriptor.location, Interval.baseSize, if_neg h]
    omega
  rw [Interval.mem_hull hle, Interval.mem_iff]

/-- The map that results has these bits for a family, and none at all where there are none. -/
def Stores (m : RegisterParts) (k : MajorMinor) (bits : IntervalSet) (m' : RegisterParts) : Prop :=
  ∀ q, m'.find? q = if q = k then (if bits.isEmpty then none else some bits) else m.find? q

theorem Stores.mem_triples (h : Stores m k bits m') :
    t ∈ m'.triples ↔
      (if toLex (t.1, t.2.1) = k then t.2.2 ∈ bits else t ∈ m.triples) := by
  rw [RegisterParts.mem_triples, h]
  split
  next hk =>
    split
    next hempty => simp [IntervalSet.isEmpty_iff.mp hempty t.2.2]
    next => simp
  next hk => rfl

theorem Stores.wellFormed (h : Stores m k bits m') (hm : m.WellFormed)
    (hk : (ofLex k).1 < 16 ∧ (ofLex k).2 ≤ 1023 ∧ ∀ b ∈ bits, b < 512) : m'.WellFormed := by
  intro q found hfound
  rw [h] at hfound
  split at hfound
  next hq =>
    split at hfound
    next => cases hfound
    next hne =>
      obtain rfl := Option.some.inj hfound
      exact ⟨eq_false_of_ne_true hne, hq ▸ hk⟩
  next => exact hm q found hfound

theorem stores_insertWith {f : IntervalSet → IntervalSet → IntervalSet} {new : IntervalSet}
    (hnew : SortedMap.combine f (m.find? k) new = some bits) (hne : bits.isEmpty = false) :
    Stores m k bits (m.insertWith f k new) := by
  intro q
  rw [SortedMap.find?_insertWith, hne]
  split
  next hq =>
    subst hq
    exact hnew
  next => rfl

theorem stores_erase (hempty : bits.isEmpty = true) : Stores m k bits (SortedMap.erase m k) := by
  intro q
  rw [SortedMap.find?_erase, hempty]
  rfl

/-- What is erased of a family that is stored. -/
theorem erase_eq_some (hfind : m.find? (key reg) = some bits) :
    m.erase reg = some m' → reg.nBits ≠ 0 ∧
      Stores m (key reg) (bits.eraseHull reg.location.lo reg.location.hi) m' := by
  intro h
  simp only [erase, hfind] at h
  obtain ⟨range, hrange, h⟩ := Option.bind_eq_some_iff.mp h
  obtain ⟨hbits, rfl⟩ := bitRange_eq_some.mp hrange
  refine ⟨hbits, ?_⟩
  split at h
  next hempty =>
    obtain rfl := Option.some.inj h
    exact stores_erase hempty
  next hne =>
    obtain rfl := Option.some.inj h
    exact stores_insertWith (by rw [hfind]; rfl) (eq_false_of_ne_true hne)

/-- Erasing removes the triples of the register. -/
theorem erase_spec (hm : m.WellFormed) (h : m.erase reg = some m') :
    m'.WellFormed ∧ m'.triples = m.triples \ registerTriples reg := by
  cases hfind : m.find? (key reg) with
  | none =>
    simp only [erase, hfind] at h
    obtain rfl := Option.some.inj h
    refine ⟨hm, Set.ext fun t => ⟨fun ht => ⟨ht, fun hreg => ?_⟩, fun ht => ht.1⟩⟩
    obtain ⟨bits, hbits, -⟩ := ht
    rw [(mem_registerTriples.mp hreg).1, hfind] at hbits
    cases hbits
  | some bits =>
    obtain ⟨hbits, hstores⟩ := erase_eq_some hfind h
    obtain ⟨-, hmajor, hminor, hbelow⟩ := hm _ _ hfind
    refine ⟨hstores.wellFormed hm ⟨hmajor, hminor, fun b hb => ?_⟩, Set.ext fun t => ?_⟩
    · exact hbelow b (IntervalSet.mem_eraseHull.mp hb).1
    · rw [hstores.mem_triples, Set.mem_sdiff, mem_registerTriples, IntervalSet.mem_eraseHull,
        location_hull hbits, mem_triples]
      split
      next hkey => simp [hkey, hfind]
      next hkey => simp [hkey]

theorem erase_isSome (hbits : reg.nBits ≠ 0) : ∃ m', m.erase reg = some m' := by
  unfold erase
  split
  next => exact ⟨m, rfl⟩
  next bits _ =>
    rw [bitRange_eq_some.mpr ⟨hbits, rfl⟩, Option.bind_eq_bind, Option.bind_some]
    dsimp only
    split
    next => exact ⟨_, rfl⟩
    next => exact ⟨_, rfl⟩

/-- A family that is stored with no bits first if it is not there. -/
theorem stores_insertMaybeDefault {add : IntervalSet → IntervalSet}
    (hne : (add ((m.find? k).getD .empty)).isEmpty = false) :
    Stores m k (add ((m.find? k).getD .empty)) (m.insertMaybeDefault k add) := by
  apply stores_insertWith _ hne
  cases m.find? k with
  | none => rfl
  | some bits => rfl

theorem mem_getD {b : Nat} :
    b ∈ (m.find? k).getD .empty ↔ ∃ bits, m.find? k = some bits ∧ b ∈ bits := by
  cases m.find? k with
  | none => simp
  | some bits => simp

/-- Adding bits to a family adds their triples. -/
theorem insertMaybeDefault_spec (hm : m.WellFormed) {add : IntervalSet → IntervalSet}
    {P : Nat → Prop} (hadd : ∀ bits b, b ∈ add bits ↔ b ∈ bits ∨ P b) (hsome : ∃ b, P b)
    (hk : (ofLex k).1 < 16 ∧ (ofLex k).2 ≤ 1023 ∧ ∀ b, P b → b < 512) :
    (m.insertMaybeDefault k add).WellFormed ∧ (m.insertMaybeDefault k add).triples =
      m.triples ∪ {t | toLex (t.1, t.2.1) = k ∧ P t.2.2} := by
  obtain ⟨b, hb⟩ := hsome
  have hstores : Stores m k (add ((m.find? k).getD .empty)) (m.insertMaybeDefault k add) :=
    stores_insertMaybeDefault (IntervalSet.isEmpty_eq_false ((hadd _ b).mpr (.inr hb)))
  refine ⟨hstores.wellFormed hm ⟨hk.1, hk.2.1, fun b hb => ?_⟩, Set.ext fun t => ?_⟩
  · rcases (hadd _ b).mp hb with hb | hb
    · obtain ⟨bits, hfind, hb⟩ := mem_getD.mp hb
      exact (hm k bits hfind).2.2.2 b hb
    · exact hk.2.2 b hb
  · rw [hstores.mem_triples, Set.mem_union, mem_triples, hadd, mem_getD]
    split
    next hkey =>
      subst hkey
      simp only [Set.mem_ofPred_eq, true_and]
    next hkey => simp [hkey]

/-- Inserting a register adds its triples. -/
theorem insert_spec (hm : m.WellFormed) (hreg : reg.majorNumber < 16 ∧ reg.minorNumber ≤ 1023 ∧
    reg.offset + reg.nBits ≤ 512) (h : m.insert reg = some m') :
    m'.WellFormed ∧ m'.triples = m.triples ∪ registerTriples reg := by
  obtain ⟨range, hrange, h⟩ := Option.bind_eq_some_iff.mp h
  obtain ⟨hbits, rfl⟩ := bitRange_eq_some.mp hrange
  obtain rfl := Option.some.inj h
  have hadd : ∀ (bits : IntervalSet) b,
      b ∈ bits.insertHull reg.location.lo reg.location.hi ↔ b ∈ bits ∨ b ∈ reg.location := by
    intro bits b
    rw [IntervalSet.mem_insertHull, location_hull hbits, or_comm]
  have hmem : ∀ b, b ∈ reg.location ↔ reg.offset ≤ b ∧ b < reg.offset + reg.nBits :=
    fun b => Interval.mem_baseSize
  refine insertMaybeDefault_spec hm hadd ⟨reg.offset, (hmem _).mpr (by omega)⟩ ?_
  refine ⟨hreg.1, hreg.2.1, fun b hb => ?_⟩
  have := (hmem b).mp hb
  omega

/-- The nodes have the triples of the map. -/
theorem exists_node_iff :
    (∃ node ∈ m.entries, toLex (t.1, t.2.1) = node.1 ∧ t.2.2 ∈ node.2) ↔ t ∈ m.triples := by
  constructor
  · rintro ⟨node, hnode, hkey, hb⟩
    exact ⟨node.2, hkey ▸ SortedMap.mem_entries_iff.mp hnode, hb⟩
  · rintro ⟨bits, hfind, hb⟩
    exact ⟨(toLex (t.1, t.2.1), bits), SortedMap.mem_entries_iff.mpr hfind, rfl, hb⟩

/-- The union has the triples of both. -/
theorem union_spec (hm : m.WellFormed) (hother : other.WellFormed) :
    (m.union other).WellFormed ∧ (m.union other).triples = m.triples ∪ other.triples := by
  have hfold : ∀ (nodes : List (MajorMinor × IntervalSet)) (m : RegisterParts),
      (∀ node ∈ nodes, other.find? node.1 = some node.2) → m.WellFormed →
      WellFormed (nodes.foldl (fun m node =>
        insertMaybeDefault m node.1 fun bits => bits.insertMultiple node.2) m) ∧
      triples (nodes.foldl (fun m node =>
        insertMaybeDefault m node.1 fun bits => bits.insertMultiple node.2) m) =
        m.triples ∪ {t | ∃ node ∈ nodes, toLex (t.1, t.2.1) = node.1 ∧ t.2.2 ∈ node.2} := by
    intro nodes
    induction nodes with
    | nil =>
      intro m _ hm
      exact ⟨hm, by simp⟩
    | cons node nodes ih =>
      intro m hnodes hm
      obtain ⟨hnode, hnodes⟩ := List.forall_mem_cons.mp hnodes
      obtain ⟨hne, hmajor, hminor, hbelow⟩ := hother _ _ hnode
      have hadd : ∀ (bits : IntervalSet) b,
          b ∈ bits.insertMultiple node.2 ↔ b ∈ bits ∨ b ∈ node.2 :=
        fun bits b => IntervalSet.mem_insertMultiple
      obtain ⟨hstep, htriples⟩ := insertMaybeDefault_spec (k := node.1) hm hadd
        ⟨_, IntervalSet.least_mem hne⟩ ⟨hmajor, hminor, hbelow⟩
      obtain ⟨hrest, hrestTriples⟩ := ih _ hnodes hstep
      refine ⟨hrest, hrestTriples.trans ?_⟩
      rw [htriples, Set.union_assoc]
      congr 1
      ext t
      simp only [Set.mem_union, Set.mem_ofPred_eq, List.exists_mem_cons_iff]
  obtain ⟨hwell, htriples⟩ := hfold other.entries m
    (fun node hnode => SortedMap.mem_entries_iff.mp hnode) hm
  refine ⟨hwell, htriples.trans ?_⟩
  congr 1
  ext t
  exact exists_node_iff

theorem insertCommon_spec (other : RegisterParts) {newmap : RegisterParts}
    {node : MajorMinor × IntervalSet}
    (hm : m.WellFormed) (hnode : m.find? node.1 = some node.2)
    (hnone : newmap.find? node.1 = none) (hnew : newmap.WellFormed) :
    (insertCommon other newmap node).WellFormed ∧
      (∀ q, q ≠ node.1 → (insertCommon other newmap node).find? q = newmap.find? q) ∧
      (insertCommon other newmap node).triples = newmap.triples ∪
        {t | (toLex (t.1, t.2.1) = node.1 ∧ t.2.2 ∈ node.2) ∧ t ∈ other.triples} := by
  have hstays : (∀ b ∈ node.2, ∀ bits, other.find? node.1 = some bits → b ∉ bits) →
      newmap.triples = newmap.triples ∪
        {t | (toLex (t.1, t.2.1) = node.1 ∧ t.2.2 ∈ node.2) ∧ t ∈ other.triples} := by
    intro hdisjoint
    rw [eq_comm, Set.union_eq_left]
    rintro t ⟨⟨hkey, hb⟩, bits, hfind, hb'⟩
    exact absurd hb' (hdisjoint _ hb bits (hkey ▸ hfind))
  unfold insertCommon
  split
  next hfind =>
    refine ⟨hnew, fun q _ => rfl, hstays fun b _ bits hbits => ?_⟩
    rw [hfind] at hbits
    cases hbits
  next bits hfind =>
    split
    next hempty =>
      refine ⟨hnew, fun q _ => rfl, hstays fun b hb found hfound hmem => ?_⟩
      obtain rfl := Option.some.inj (hfind.symm.trans hfound)
      exact IntervalSet.isEmpty_iff.mp hempty b (IntervalSet.mem_inter.mpr ⟨hb, hmem⟩)
    next hne =>
      obtain ⟨-, hmajor, hminor, hbelow⟩ := hm _ _ hnode
      have hstores : Stores newmap node.1 (node.2.inter bits)
          (newmap.insertWith (fun _ new => new) node.1 (node.2.inter bits)) :=
        stores_insertWith (by rw [hnone]; rfl) (eq_false_of_ne_true hne)
      refine ⟨hstores.wellFormed hnew ⟨hmajor, hminor, fun b hb => ?_⟩, fun q hq => ?_,
        Set.ext fun t => ?_⟩
      · exact hbelow b (IntervalSet.mem_inter.mp hb).1
      · rw [hstores q, if_neg hq]
      · rw [hstores.mem_triples, Set.mem_union, Set.mem_ofPred_eq, IntervalSet.mem_inter,
          mem_triples, mem_triples]
        split
        next hkey => simp [hkey, hnone, hfind]
        next hkey => simp [hkey]

/-- The intersection has the triples that are in both. -/
theorem intersection_spec (hm : m.WellFormed) :
    (m.intersection other).WellFormed ∧
      (m.intersection other).triples = m.triples ∩ other.triples := by
  have hfold : ∀ (nodes : List (MajorMinor × IntervalSet)) (newmap : RegisterParts),
      (∀ node ∈ nodes, m.find? node.1 = some node.2) →
      nodes.Pairwise (fun node later => node.1 < later.1) →
      (∀ node ∈ nodes, newmap.find? node.1 = none) → newmap.WellFormed →
      (nodes.foldl (insertCommon other) newmap).WellFormed ∧
        (nodes.foldl (insertCommon other) newmap).triples = newmap.triples ∪
          {t | (∃ node ∈ nodes, toLex (t.1, t.2.1) = node.1 ∧ t.2.2 ∈ node.2) ∧
            t ∈ other.triples} := by
    intro nodes
    induction nodes with
    | nil =>
      intro newmap _ _ _ hnew
      exact ⟨hnew, by simp⟩
    | cons node nodes ih =>
      intro newmap hnodes hsorted hnone hnew
      obtain ⟨hnode, hnodes⟩ := List.forall_mem_cons.mp hnodes
      obtain ⟨hfirst, hsorted⟩ := List.pairwise_cons.mp hsorted
      obtain ⟨hnone, hnones⟩ := List.forall_mem_cons.mp hnone
      obtain ⟨hstep, hkept, htriples⟩ := insertCommon_spec other hm hnode hnone hnew
      obtain ⟨hrest, hrestTriples⟩ := ih _ hnodes hsorted
        (fun later hlater => (hkept _ (hfirst later hlater).ne').trans (hnones later hlater)) hstep
      refine ⟨hrest, hrestTriples.trans ?_⟩
      rw [htriples, Set.union_assoc]
      congr 1
      ext t
      simp only [Set.mem_union, Set.mem_ofPred_eq, List.exists_mem_cons_iff, or_and_right]
  obtain ⟨hwell, htriples⟩ := hfold m.entries .empty
    (fun node hnode => SortedMap.mem_entries_iff.mp hnode) m.sorted (fun _ _ => rfl)
    wellFormed_empty
  refine ⟨hwell, htriples.trans ?_⟩
  rw [triples_eq_empty rfl, Set.empty_union]
  ext t
  rw [Set.mem_inter_iff, Set.mem_ofPred_eq, exists_node_iff]

theorem mapM_eq_some {α β : Type} {f : α → Option β} {g : α → β} {l : List α}
    (h : ∀ x ∈ l, f x = some (g x)) : l.mapM f = some (l.map g) := by
  induction l with
  | nil => rfl
  | cons x l ih =>
    obtain ⟨hx, hl⟩ := List.forall_mem_cons.mp h
    rw [List.mapM_cons, hx, ih hl]
    rfl

/-- The register that a piece is. -/
def pieceRegister (piece : MajorMinor × Interval) : RegisterDescriptor :=
  ⟨(ofLex piece.1).1, (ofLex piece.1).2, piece.2.lo, piece.2.size⟩

theorem mem_pieces {piece : MajorMinor × Interval} :
    piece ∈ m.pieces ↔ ∃ bits, m.find? piece.1 = some bits ∧ piece.2 ∈ bits.intervals := by
  simp only [pieces, List.mem_flatMap, List.mem_map]
  constructor
  · rintro ⟨⟨k, bits⟩, hnode, i, hi, rfl⟩
    exact ⟨bits, SortedMap.mem_entries_iff.mp hnode, hi⟩
  · rintro ⟨bits, hfind, hi⟩
    exact ⟨(piece.1, bits), SortedMap.mem_entries_iff.mpr hfind, piece.2, hi, rfl⟩

/-- Every piece is a register with the bits of its interval. -/
theorem pieceRegister_spec (hm : m.WellFormed) {piece : MajorMinor × Interval}
    (hpiece : piece ∈ m.pieces) :
    pieceDescriptor piece = some (pieceRegister piece) ∧ (pieceRegister piece).nBits ≠ 0 ∧
      ∀ t, t ∈ registerTriples (pieceRegister piece) ↔
        toLex (t.1, t.2.1) = piece.1 ∧ t.2.2 ∈ piece.2 := by
  obtain ⟨bits, hfind, hi⟩ := mem_pieces.mp hpiece
  obtain ⟨-, hmajor, hminor, hbelow⟩ := hm _ _ hfind
  have hle := bits.nonempty _ hi
  have hlo := hbelow _ ⟨piece.2, hi, Nat.le_refl _, hle⟩
  have hhi := hbelow _ ⟨piece.2, hi, hle, Nat.le_refl _⟩
  have hsize : piece.2.size = piece.2.hi + 1 - piece.2.lo := rfl
  refine ⟨?_, ?_, fun t => ?_⟩
  · unfold pieceDescriptor makeDescriptor
    rw [if_pos ⟨by omega, hminor, hlo, by omega⟩, Nat.mod_eq_of_lt hmajor]
    rfl
  · show piece.2.size ≠ 0
    omega
  · rw [mem_registerTriples, RegisterDescriptor.location, Interval.mem_baseSize, Interval.mem_iff]
    show toLex (t.1, t.2.1) = piece.1 ∧ piece.2.lo ≤ t.2.2 ∧
      t.2.2 < piece.2.lo + piece.2.size ↔ _
    rw [hsize]
    apply and_congr_right
    intro _
    omega

/-- The pieces have the triples of the map. -/
theorem exists_piece_iff :
    (∃ piece ∈ m.pieces, toLex (t.1, t.2.1) = piece.1 ∧ t.2.2 ∈ piece.2) ↔ t ∈ m.triples := by
  constructor
  · rintro ⟨piece, hpiece, hkey, hb⟩
    obtain ⟨bits, hfind, hi⟩ := mem_pieces.mp hpiece
    exact ⟨bits, hkey ▸ hfind, piece.2, hi, hb⟩
  · rintro ⟨bits, hfind, i, hi, hb⟩
    exact ⟨(toLex (t.1, t.2.1), i), mem_pieces.mpr ⟨bits, hfind, hi⟩, rfl, hb⟩

/-- The difference has the triples that are in the first only. -/
theorem difference_spec (hm : m.WellFormed) (hother : other.WellFormed) :
    ∃ d, m.difference other = some d ∧ d.WellFormed ∧ d.triples = m.triples \ other.triples := by
  have hfold : ∀ (pieces : List (MajorMinor × Interval)) (m : RegisterParts),
      (∀ piece ∈ pieces, piece ∈ other.pieces) → m.WellFormed →
      ∃ d : RegisterParts, pieces.foldlM (fun m piece => do
          let reg ← pieceDescriptor piece
          RegisterParts.erase m reg) m = some d ∧ d.WellFormed ∧
        d.triples = m.triples \
          {t | ∃ piece ∈ pieces, toLex (t.1, t.2.1) = piece.1 ∧ t.2.2 ∈ piece.2} := by
    intro pieces
    induction pieces with
    | nil =>
      intro m _ hm
      exact ⟨m, rfl, hm, by simp⟩
    | cons piece pieces ih =>
      intro m hpieces hm
      obtain ⟨hpiece, hpieces⟩ := List.forall_mem_cons.mp hpieces
      obtain ⟨hreg, hbits, hmem⟩ := pieceRegister_spec hother hpiece
      obtain ⟨m₁, herase⟩ := erase_isSome (m := m) hbits
      obtain ⟨hwell, htriples⟩ := erase_spec hm herase
      obtain ⟨d, hd, hdwell, hdtriples⟩ := ih m₁ hpieces hwell
      refine ⟨d, ?_, hdwell, hdtriples.trans ?_⟩
      · rw [List.foldlM_cons, hreg, Option.bind_eq_bind, Option.bind_eq_bind, Option.bind_some,
          herase]
        exact hd
      · ext t
        rw [htriples]
        simp only [Set.mem_sdiff, hmem, Set.mem_ofPred_eq, List.exists_mem_cons_iff, not_or,
          and_assoc]
  obtain ⟨d, hd, hwell, htriples⟩ := hfold other.pieces m (fun _ h => h) hm
  refine ⟨d, hd, hwell, htriples.trans ?_⟩
  ext t
  rw [Set.mem_sdiff, Set.mem_sdiff, Set.mem_ofPred_eq, exists_piece_iff]

/-- Different pieces have no triple in common. -/
theorem pieces_disjoint (hm : m.WellFormed) :
    (m.pieces.map pieceRegister).Pairwise fun reg later =>
      Disjoint (registerTriples reg) (registerTriples later) := by
  have hapart : m.pieces.Pairwise fun piece later =>
      ∀ t : Nat × Nat × Nat, toLex (t.1, t.2.1) = piece.1 ∧ t.2.2 ∈ piece.2 →
        ¬(toLex (t.1, t.2.1) = later.1 ∧ t.2.2 ∈ later.2) := by
    rw [pieces, List.pairwise_flatMap]
    constructor
    · intro node _
      rw [List.pairwise_map]
      refine node.2.separated.imp fun hgap t hi hj => ?_
      have hle := hi.2.2
      have hge := hj.2.1
      dsimp only at hle hge
      omega
    · refine m.sorted.imp fun hlt piece hpiece later hlater t hi hj => ?_
      obtain ⟨_, _, rfl⟩ := List.mem_map.mp hpiece
      obtain ⟨_, _, rfl⟩ := List.mem_map.mp hlater
      exact hlt.ne (hi.1.symm.trans hj.1)
  rw [List.pairwise_map]
  refine hapart.imp_of_mem fun hpiece hlater h => ?_
  rw [Set.disjoint_left]
  intro t ht ht'
  exact h t (((pieceRegister_spec hm hpiece).2.2 t).mp ht)
    (((pieceRegister_spec hm hlater).2.2 t).mp ht')

/-- Registers that share no triple with each other and have all the given ones. -/
structure Covers (regs : List RegisterDescriptor) (s : Set (Nat × Nat × Nat)) : Prop where
  disjoint : regs.Pairwise fun reg later => Disjoint (registerTriples reg) (registerTriples later)
  union : ∀ t, t ∈ s ↔ ∃ reg ∈ regs, t ∈ registerTriples reg

theorem Covers.append {regs rest : List RegisterDescriptor} {s s' : Set (Nat × Nat × Nat)}
    (h : Covers regs s) (h' : Covers rest s') (hapart : Disjoint s s') :
    Covers (regs ++ rest) (s ∪ s') where
  disjoint := by
    rw [List.pairwise_append]
    refine ⟨h.disjoint, h'.disjoint, fun reg hreg later hlater => ?_⟩
    refine hapart.mono (fun t ht => ?_) fun t ht => ?_
    · exact (h.union t).mpr ⟨reg, hreg, ht⟩
    · exact (h'.union t).mpr ⟨later, hlater, ht⟩
  union := by
    intro t
    rw [Set.mem_union, h.union, h'.union]
    simp only [List.mem_append, or_and_right, exists_or]

theorem covers_nil : Covers [] ∅ := ⟨.nil, fun t => by simp⟩

theorem covers_singleton (reg : RegisterDescriptor) : Covers [reg] (registerTriples reg) :=
  ⟨List.pairwise_singleton _ _, fun t => by simp⟩

/-- The pieces that are left cover what is left. -/
theorem leftovers_spec (hm : m.WellFormed) :
    ∃ rest, m.pieces.mapM pieceDescriptor = some rest ∧ Covers rest m.triples := by
  refine ⟨_, mapM_eq_some fun piece hpiece => (pieceRegister_spec hm hpiece).1,
    pieces_disjoint hm, fun t => ?_⟩
  rw [← exists_piece_iff]
  simp only [List.mem_map, exists_exists_and_eq_and]
  constructor
  · rintro ⟨piece, hpiece, ht⟩
    exact ⟨piece, hpiece, ((pieceRegister_spec hm hpiece).2.2 t).mpr ht⟩
  · rintro ⟨piece, hpiece, ht⟩
    exact ⟨piece, hpiece, ((pieceRegister_spec hm hpiece).2.2 t).mp ht⟩

/-- Whether a register is there completely. -/
theorem existsAll_eq_some {all : Bool} (h : m.existsAll reg = some all) (hall : all = true) :
    reg.nBits ≠ 0 ∧ registerTriples reg ⊆ m.triples := by
  unfold existsAll at h
  split at h
  next =>
    obtain rfl := Option.some.inj h
    cases hall
  next bits hfind =>
    obtain ⟨range, hrange, h⟩ := Option.bind_eq_some_iff.mp h
    obtain ⟨hbits, rfl⟩ := bitRange_eq_some.mp hrange
    rw [hall, Option.some.injEq, IntervalSet.contains_iff] at h
    refine ⟨hbits, fun t ht => ?_⟩
    obtain ⟨hkey, hb⟩ := mem_registerTriples.mp ht
    exact ⟨bits, hkey ▸ hfind, h _ hb⟩

theorem existsAll_of_bits (hbits : reg.nBits ≠ 0) :
    ∃ all, m.existsAll reg = some all ∧ (all = true ↔ registerTriples reg ⊆ m.triples) := by
  obtain ⟨all, hall⟩ : ∃ all, m.existsAll reg = some all := by
    unfold existsAll
    split
    next => exact ⟨false, rfl⟩
    next => exact ⟨_, by rw [bitRange_eq_some.mpr ⟨hbits, rfl⟩]; rfl⟩
  refine ⟨all, hall, fun htrue => (existsAll_eq_some hall htrue).2, fun hsubset => ?_⟩
  have hlocation : ∀ b ∈ reg.location, ∃ bits, m.find? (key reg) = some bits ∧ b ∈ bits :=
    fun b hb => hsubset (a := (reg.store.1, reg.store.2, b)) ⟨rfl, hb⟩
  obtain ⟨bits, hfind, -⟩ := hlocation reg.offset (Interval.mem_baseSize.mpr (by omega))
  unfold existsAll at hall
  simp only [hfind, bitRange_eq_some.mpr ⟨hbits, rfl⟩, Option.bind_eq_bind, Option.bind_some,
    Option.some.injEq] at hall
  rw [← hall, IntervalSet.contains_iff]
  intro b hb
  obtain ⟨found, hfound, hmem⟩ := hlocation b hb
  obtain rfl := Option.some.inj (hfind.symm.trans hfound)
  exact hmem

/-- What one register that is there completely leaves. -/
theorem erase_of_existsAll (hm : m.WellFormed) (h : m.existsAll reg = some true) :
    ∃ m₁, m.erase reg = some m₁ ∧ m₁.WellFormed ∧
      m.triples = registerTriples reg ∪ m₁.triples ∧ Disjoint (registerTriples reg) m₁.triples := by
  obtain ⟨hbits, hsubset⟩ := existsAll_eq_some h rfl
  obtain ⟨m₁, herase⟩ := erase_isSome (m := m) hbits
  obtain ⟨hwell, htriples⟩ := erase_spec hm herase
  refine ⟨m₁, herase, hwell, ?_, ?_⟩
  · rw [htriples, Set.union_sdiff_cancel hsubset]
  · rw [htriples]
    exact Set.disjoint_sdiff_right

/-- The registers that the loop finds, and what it leaves. -/
theorem extractNamed_some (hm : m.WellFormed) {retval out : List RegisterDescriptor}
    {regs : List RegisterDescriptor} (h : m.extractNamed retval regs = some (out, m')) :
    ∃ named s, out = retval ++ named ∧ m'.WellFormed ∧ Covers named s ∧
      m.triples = s ∪ m'.triples ∧ Disjoint s m'.triples := by
  induction regs generalizing m retval with
  | nil =>
    obtain ⟨rfl, rfl⟩ := Prod.mk.inj (Option.some.inj h)
    exact ⟨[], ∅, (List.append_nil _).symm, hm, covers_nil, (Set.empty_union _).symm,
      Set.empty_disjoint _⟩
  | cons reg regs ih =>
    obtain ⟨all, hall, h⟩ := Option.bind_eq_some_iff.mp h
    split at h
    next htrue =>
      subst htrue
      obtain ⟨m₁, herase, hwell, htriples, hapart⟩ := erase_of_existsAll hm hall
      rw [herase, Option.bind_eq_bind, Option.bind_some] at h
      split at h
      next hempty =>
        obtain ⟨rfl, rfl⟩ := Prod.mk.inj (Option.some.inj h)
        exact ⟨[reg], _, rfl, hwell, covers_singleton reg, htriples, hapart⟩
      next =>
        obtain ⟨named, s, rfl, hwell', hcovers, hrest, hapart'⟩ := ih hwell h
        rw [hrest] at hapart htriples
        refine ⟨reg :: named, registerTriples reg ∪ s, ?_, hwell', ?_, ?_, ?_⟩
        · rw [List.append_assoc]
          rfl
        · exact (covers_singleton reg).append hcovers (hapart.mono_right Set.subset_union_left)
        · rw [htriples, Set.union_assoc]
        · exact Set.disjoint_union_left.mpr
            ⟨hapart.mono_right Set.subset_union_right, hapart'⟩
    next => exact ih hm h

/-- What is left of some triples when a register is taken if they have all of its own. -/
def taking (s : Set (Nat × Nat × Nat)) (reg : RegisterDescriptor) : Set (Nat × Nat × Nat) :=
  {t ∈ s | registerTriples reg ⊆ s → t ∉ registerTriples reg}

/-- What is left when registers are taken one after the other. -/
def leftover (s : Set (Nat × Nat × Nat)) (regs : List RegisterDescriptor) :
    Set (Nat × Nat × Nat) := regs.foldl taking s

theorem taking_of_subset {s : Set (Nat × Nat × Nat)} (h : registerTriples reg ⊆ s) :
    taking s reg = s \ registerTriples reg := by
  ext t
  simp [taking, h]

theorem taking_of_not_subset {s : Set (Nat × Nat × Nat)} (h : ¬registerTriples reg ⊆ s) :
    taking s reg = s := by
  ext t
  simp [taking, h]

theorem registerTriples_eq_empty (h : reg.nBits = 0) : registerTriples reg = ∅ := by
  rw [Set.eq_empty_iff_forall_notMem]
  rintro t ⟨-, ht⟩
  have := Interval.mem_baseSize.mp ht
  omega

theorem leftover_subset (s : Set (Nat × Nat × Nat)) (regs : List RegisterDescriptor) :
    leftover s regs ⊆ s := by
  induction regs generalizing s with
  | nil => exact subset_rfl
  | cons reg regs ih => exact (ih _).trans fun _ ht => ht.1

theorem leftover_of_nBits_eq_zero {s : Set (Nat × Nat × Nat)} {regs : List RegisterDescriptor}
    (h : ∀ reg ∈ regs, reg.nBits = 0) : leftover s regs = s := by
  induction regs with
  | nil => rfl
  | cons reg regs ih =>
    obtain ⟨hreg, hregs⟩ := List.forall_mem_cons.mp h
    have hstep : taking s reg = s := by
      rw [taking_of_subset (by simp [registerTriples_eq_empty hreg]),
        registerTriples_eq_empty hreg, Set.sdiff_empty]
    rw [leftover, List.foldl_cons, hstep]
    exact ih hregs

/-- A register without bits comes after all others, and finds bits of its family. -/
def FamilyLeft (s : Set (Nat × Nat × Nat)) (regs : List RegisterDescriptor) : Prop :=
  ∃ reg ∈ regs, reg.nBits = 0 ∧ ∃ t ∈ leftover s regs, (t.1, t.2.1) = reg.store

theorem familyLeft_cons_iff {s : Set (Nat × Nat × Nat)} {regs : List RegisterDescriptor}
    (h : reg.nBits = 0 → ∀ t ∈ s, (t.1, t.2.1) ≠ reg.store) :
    FamilyLeft s (reg :: regs) ↔ FamilyLeft (taking s reg) regs := by
  constructor
  · rintro ⟨found, hmem, hbits, t, ht, hkey⟩
    rcases List.mem_cons.mp hmem with rfl | hmem
    · exact absurd hkey (h hbits t (leftover_subset _ _ ht))
    · exact ⟨found, hmem, hbits, t, ht, hkey⟩
  · rintro ⟨found, hmem, hfound⟩
    exact ⟨found, List.mem_cons_of_mem _ hmem, hfound⟩

theorem not_familyLeft_empty (regs : List RegisterDescriptor) : ¬FamilyLeft ∅ regs := by
  rintro ⟨reg, -, -, t, ht, -⟩
  exact leftover_subset _ _ ht

/-- The loop fails at a register without bits only, which comes after all that have bits. -/
theorem extractNamed_eq_none_iff (hm : m.WellFormed) {retval : List RegisterDescriptor}
    {regs : List RegisterDescriptor} (hsorted : regs.Pairwise fun a b => b.nBits ≤ a.nBits) :
    m.extractNamed retval regs = none ↔ FamilyLeft m.triples regs := by
  induction regs generalizing m retval with
  | nil => simp [extractNamed, FamilyLeft]
  | cons reg regs ih =>
    obtain ⟨hlater, hsorted⟩ := List.pairwise_cons.mp hsorted
    by_cases hbits : reg.nBits = 0
    · have hzero : ∀ later ∈ reg :: regs, later.nBits = 0 := by
        intro later hmem
        rcases List.mem_cons.mp hmem with rfl | hmem
        · exact hbits
        · exact Nat.le_zero.mp (hbits ▸ hlater later hmem)
      cases hfind : m.find? (key reg) with
      | none =>
        have hnone : ∀ t ∈ m.triples, (t.1, t.2.1) ≠ reg.store := by
          rintro t ⟨bits, hbits, -⟩ hkey
          rw [show toLex (t.1, t.2.1) = key reg from congrArg toLex hkey, hfind] at hbits
          cases hbits
        have hall : m.existsAll reg = some false := by
          simp only [existsAll, hfind]
        rw [familyLeft_cons_iff fun _ => hnone, extractNamed, hall]
        have hstep : taking m.triples reg = m.triples :=
          leftover_of_nBits_eq_zero (by simpa using hbits : ∀ r ∈ [reg], r.nBits = 0)
        rw [hstep]
        exact ih hm hsorted
      | some bits =>
        have hrange : bitRange reg = none := if_pos hbits
        have hall : m.existsAll reg = none := by
          simp only [existsAll, hfind, hrange]
          rfl
        rw [extractNamed, hall]
        refine iff_of_true rfl ⟨reg, List.mem_cons_self, hbits, ?_⟩
        rw [leftover_of_nBits_eq_zero hzero]
        exact ⟨(reg.store.1, reg.store.2, bits.least),
          ⟨bits, hfind, IntervalSet.least_mem (hm _ _ hfind).1⟩, rfl⟩
    · obtain ⟨all, hall, hsubset⟩ := existsAll_of_bits (m := m) hbits
      rw [familyLeft_cons_iff fun h => absurd h hbits, extractNamed, hall, Option.bind_eq_bind,
        Option.bind_some]
      cases all with
      | false =>
        rw [taking_of_not_subset fun h => Bool.false_ne_true (hsubset.mpr h)]
        exact ih hm hsorted
      | true =>
        obtain ⟨m₁, herase, -⟩ := erase_of_existsAll hm hall
        obtain ⟨hwell, htriples⟩ := erase_spec hm herase
        rw [taking_of_subset (hsubset.mp rfl), ← htriples, if_pos rfl, herase,
          Option.bind_eq_bind, Option.bind_some]
        split
        next hempty =>
          rw [triples_eq_empty (List.isEmpty_iff.mp hempty)]
          exact iff_of_false (by simp) (not_familyLeft_empty regs)
        next => exact ih hwell hsorted

/-- The loop over the dictionary, if there is one. -/
theorem named_spec {sort : List RegisterDescriptor → List RegisterDescriptor} (hm : m.WellFormed)
    {regDict : Option (List RegisterDescriptor)} {named : List RegisterDescriptor}
    (h : (match regDict with
      | none => some ([], m)
      | some registers => m.extractNamed [] (sort registers)) = some (named, m')) :
    m'.WellFormed ∧ ∃ s, Covers named s ∧ m.triples = s ∪ m'.triples ∧ Disjoint s m'.triples := by
  cases regDict with
  | none =>
    obtain ⟨rfl, rfl⟩ := Prod.mk.inj (Option.some.inj h)
    exact ⟨hm, ∅, covers_nil, (Set.empty_union _).symm, Set.empty_disjoint _⟩
  | some registers =>
    obtain ⟨_, s, rfl, hwell, hcovers, hrest⟩ := extractNamed_some hm h
    exact ⟨hwell, s, hcovers, hrest⟩

theorem eq_empty_of_isEmpty (h : m.entries.isEmpty = true) : m = .empty := by
  obtain ⟨entries, hsorted⟩ := m
  obtain rfl := List.isEmpty_iff.mp h
  rfl

/-- What extraction leaves is well formed. -/
theorem extract_wellFormed {sort : List RegisterDescriptor → List RegisterDescriptor}
    (hm : m.WellFormed) {regDict : Option (List RegisterDescriptor)} {extractAll : Bool}
    {regs : List RegisterDescriptor} (h : m.extract sort regDict extractAll = some (regs, m')) :
    m'.WellFormed := by
  unfold extract at h
  split at h
  next =>
    obtain ⟨rfl, rfl⟩ := Prod.mk.inj (Option.some.inj h)
    exact hm
  next =>
    obtain ⟨⟨named, left⟩, hnamed, h⟩ := Option.bind_eq_some_iff.mp h
    dsimp only at h
    split at h
    next =>
      obtain ⟨rest, -, h⟩ := Option.bind_eq_some_iff.mp h
      obtain ⟨rfl, rfl⟩ := Prod.mk.inj (Option.some.inj h)
      exact wellFormed_empty
    next =>
      obtain ⟨rfl, rfl⟩ := Prod.mk.inj (Option.some.inj h)
      exact (named_spec hm hnamed).1

/-- Everything that is held is extracted, and the extraction fails exactly when a register of the
dictionary that has no bits finds some of its family left. -/
theorem extract_spec {sort : List RegisterDescriptor → List RegisterDescriptor}
    (hsort : SortBySize sort) (hm : m.WellFormed) (regDict : Option (List RegisterDescriptor)) :
    match m.extract sort regDict true with
    | some (regs, m') => ¬FamilyLeft m.triples (sort (regDict.getD [])) ∧
        Covers regs m.triples ∧ m' = .empty
    | none => FamilyLeft m.triples (sort (regDict.getD [])) := by
  by_cases hempty : m.entries.isEmpty = true
  · have hextract : m.extract sort regDict true = some ([], m) := if_pos hempty
    obtain rfl := eq_empty_of_isEmpty hempty
    rw [hextract, triples_eq_empty rfl]
    exact ⟨not_familyLeft_empty _, covers_nil, rfl⟩
  · have hextract : m.extract sort regDict true =
        (match regDict with
          | none => some ([], m)
          | some registers => m.extractNamed [] (sort registers)).bind fun found =>
        (found.2.pieces.mapM pieceDescriptor).bind fun rest => some (found.1 ++ rest, .empty) := by
      unfold extract
      rw [if_neg hempty, Bool.or_true]
      rfl
    have hfails : (match regDict with
        | none => some ([], m)
        | some registers => m.extractNamed [] (sort registers)) = none ↔
        FamilyLeft m.triples (sort (regDict.getD [])) := by
      cases regDict with
      | none =>
        rw [Option.getD_none, (hsort.perm []).eq_nil]
        simp [FamilyLeft]
      | some registers => exact extractNamed_eq_none_iff hm (hsort.descending registers)
    rw [hextract]
    cases hnamed : (match regDict with
      | none => some ([], m)
      | some registers => m.extractNamed [] (sort registers)) with
    | none => exact hfails.mp hnamed
    | some found =>
      obtain ⟨named, left⟩ := found
      obtain ⟨hwell, s, hcovers, htriples, hapart⟩ := named_spec hm hnamed
      obtain ⟨rest, hrest, hrestCovers⟩ := leftovers_spec hwell
      have hfound : ¬FamilyLeft m.triples (sort (regDict.getD [])) := by
        intro hleft
        rw [hfails.mpr hleft] at hnamed
        cases hnamed
      rw [Option.bind_some, hrest, Option.bind_some]
      refine ⟨hfound, ?_, rfl⟩
      rw [htriples]
      exact hcovers.append hrestCovers hapart

end

theorem makeDescriptor_eq_some {majr minr offset width : Nat} {reg : RegisterDescriptor}
    (h : makeDescriptor majr minr offset width = some reg) :
    reg.majorNumber < 16 ∧ reg.minorNumber ≤ 1023 ∧ reg.offset + reg.nBits ≤ 512 := by
  unfold makeDescriptor at h
  split at h
  next hranges =>
    obtain rfl := Option.some.inj h
    exact ⟨Nat.mod_lt _ (by decide), hranges.2.1, hranges.2.2.2⟩
  next => cases h

/-- The objects that the operations make. -/
inductive Made : RegisterParts → Prop where
  | empty : Made .empty
  | insert {m m' : RegisterParts} {majr minr offset width : Nat} {reg : RegisterDescriptor}
      (hreg : makeDescriptor majr minr offset width = some reg) (hm : Made m)
      (h : m.insert reg = some m') : Made m'
  | erase {m m' : RegisterParts} {reg : RegisterDescriptor} (hm : Made m)
      (h : m.erase reg = some m') : Made m'
  | union {m other : RegisterParts} (hm : Made m) (hother : Made other) : Made (m.union other)
  | intersection {m other : RegisterParts} (hm : Made m) (hother : Made other) :
      Made (m.intersection other)
  | difference {m other d : RegisterParts} (hm : Made m) (hother : Made other)
      (h : m.difference other = some d) : Made d
  | extract {m m' : RegisterParts} {sort : List RegisterDescriptor → List RegisterDescriptor}
      {regDict : Option (List RegisterDescriptor)} {extractAll : Bool}
      {regs : List RegisterDescriptor} (hsort : SortBySize sort) (hm : Made m)
      (h : m.extract sort regDict extractAll = some (regs, m')) : Made m'

theorem Made.wellFormed {m : RegisterParts} (h : Made m) : m.WellFormed := by
  induction h with
  | empty => exact wellFormed_empty
  | insert hreg _ h ih => exact (insert_spec ih (makeDescriptor_eq_some hreg) h).1
  | erase _ h ih => exact (erase_spec ih h).1
  | union _ _ ih ih' => exact (union_spec ih ih').1
  | intersection _ _ ih _ => exact (intersection_spec ih).1
  | difference _ _ h ih ih' =>
    obtain ⟨d, hd, hwell, -⟩ := difference_spec ih ih'
    obtain rfl := Option.some.inj (hd.symm.trans h)
    exact hwell
  | extract _ _ h ih => exact extract_wellFormed ih h

/-- The operators are those on sets of triples and store no family without bits. Extraction of
all returns registers that have exactly the triples that were held and leaves nothing, unless a
register of the dictionary that has no bits finds some of its family left by the larger ones. -/
theorem operators_exact {sort : List RegisterDescriptor → List RegisterDescriptor}
    (hsort : SortBySize sort) {a b : RegisterParts} (ha : a.Made) (hb : b.Made) :
    ((a.union b).WellFormed ∧ (a.union b).triples = a.triples ∪ b.triples) ∧
      ((a.intersection b).WellFormed ∧ (a.intersection b).triples = a.triples ∩ b.triples) ∧
      (∃ d, a.difference b = some d ∧ d.WellFormed ∧ d.triples = a.triples \ b.triples) ∧
      ∀ regDict : Option (List RegisterDescriptor),
        match a.extract sort regDict true with
        | some (regs, left) => ¬FamilyLeft a.triples (sort (regDict.getD [])) ∧
            Covers regs a.triples ∧ left = .empty
        | none => FamilyLeft a.triples (sort (regDict.getD [])) :=
  ⟨union_spec ha.wellFormed hb.wellFormed, intersection_spec ha.wellFormed,
    difference_spec ha.wellFormed hb.wellFormed, extract_spec hsort ha.wellFormed⟩

theorem sortBySize_sortBySize : SortBySize sortBySize where
  perm := List.perm_insertionSort _
  descending := by
    intro regs
    have : Std.Total (fun a b : RegisterDescriptor => b.nBits ≤ a.nBits) :=
      ⟨fun a b => Nat.le_total b.nBits a.nBits⟩
    have : IsTrans RegisterDescriptor (fun a b => b.nBits ≤ a.nBits) :=
      ⟨fun _ _ _ h h' => Nat.le_trans h' h⟩
    exact List.pairwise_insertionSort _ regs

theorem made_ofRegister {reg : RegisterDescriptor} {m : RegisterParts}
    (hreg : makeDescriptor reg.majorNumber reg.minorNumber reg.offset reg.nBits = some reg)
    (h : ofRegister reg = some m) : m.Made :=
  .insert hreg .empty h

/-- Two registers of one family that overlap, the first held with a dictionary of its halves and
of a register without bits, which comes after them when nothing is left. -/
theorem operators_exact_halves : ∃ a b, ofRegister ⟨1, 2, 0, 16⟩ = some a ∧
    ofRegister ⟨1, 2, 8, 16⟩ = some b ∧
    (a.union b).triples = a.triples ∪ b.triples ∧
    (a.intersection b).triples = a.triples ∩ b.triples ∧
    (∃ d, a.difference b = some d ∧ d.WellFormed ∧ d.triples = a.triples \ b.triples) ∧
    a.extract sortBySize (some [⟨1, 2, 0, 0⟩, ⟨1, 2, 0, 8⟩, ⟨1, 2, 8, 8⟩]) true =
      some ([⟨1, 2, 0, 8⟩, ⟨1, 2, 8, 8⟩], .empty) ∧
    Covers [⟨1, 2, 0, 8⟩, ⟨1, 2, 8, 8⟩] a.triples := by
  have ha : ofRegister ⟨1, 2, 0, 16⟩ = some _ := rfl
  have hb : ofRegister ⟨1, 2, 8, 16⟩ = some _ := rfl
  obtain ⟨hunion, hinter, hdiff, hextract⟩ :=
    operators_exact sortBySize_sortBySize (made_ofRegister rfl ha) (made_ofRegister rfl hb)
  refine ⟨_, _, ha, hb, hunion.2, hinter.2, hdiff, rfl, ?_⟩
  exact (hextract (some [⟨1, 2, 0, 0⟩, ⟨1, 2, 0, 8⟩, ⟨1, 2, 8, 8⟩])).2.1

/-- A dictionary with a register of no bits fails the assertion, and nothing is returned. -/
theorem emptyRegister_fails : ∃ a, ofRegister ⟨0, 0, 0, 8⟩ = some a ∧ a.Made ∧
    makeDescriptor 0 0 0 0 = some ⟨0, 0, 0, 0⟩ ∧
    a.extract sortBySize (some [⟨0, 0, 0, 0⟩]) true = none := by
  have ha : ofRegister ⟨0, 0, 0, 8⟩ = some _ := rfl
  exact ⟨_, ha, made_ofRegister rfl ha, rfl, rfl⟩

end RegisterParts

end LoomX
