import LoomX.IntervalSet

namespace LoomX.RegisterState

structure RegisterDescriptor where
  majorNumber : Nat
  minorNumber : Nat
  offset : Nat
  nBits : Nat
  deriving DecidableEq

namespace RegisterDescriptor

/-- Registers with the same numbers share their storage. -/
def store (reg : RegisterDescriptor) : Nat × Nat := (reg.majorNumber, reg.minorNumber)

def location (reg : RegisterDescriptor) : Interval := .baseSize reg.offset reg.nBits

/-- The part of a register's storage at a bit range. -/
def part (reg : RegisterDescriptor) (offset nBits : Nat) : RegisterDescriptor :=
  { reg with offset := offset, nBits := nBits }

end RegisterDescriptor

/-- Values of any width whose parts can be taken and put together exactly. -/
structure SemanticValues (S β : Type) where
  nBits : S → Nat
  bit : S → Nat → β
  comment : S → String
  setComment : S → String → S
  copy : S → S
  extract : S → Nat → Nat → S
  concat : S → S → S
  unsignedExtend : S → Nat → S
  nBits_setComment : ∀ v c, nBits (setComment v c) = nBits v
  bit_setComment : ∀ v c, bit (setComment v c) = bit v
  nBits_copy : ∀ v, nBits (copy v) = nBits v
  bit_copy : ∀ v, bit (copy v) = bit v
  nBits_extract : ∀ v b e, b < e → e ≤ nBits v → nBits (extract v b e) = e - b
  bit_extract : ∀ v b e i, e ≤ nBits v → i < e - b → bit (extract v b e) i = bit v (b + i)
  nBits_concat : ∀ v w, nBits (concat v w) = nBits v + nBits w
  bit_concat : ∀ v w i, i < nBits v + nBits w →
    bit (concat v w) i = if i < nBits v then bit v i else bit w (i - nBits v)
  nBits_unsignedExtend : ∀ v n, nBits (unsignedExtend v n) = n
  bit_unsignedExtend : ∀ v n i, n ≤ nBits v → i < n → bit (unsignedExtend v n) i = bit v i

structure RegPair (S : Type) where
  desc : RegisterDescriptor
  value : S

def RegPair.location {S : Type} (p : RegPair S) : Interval := p.desc.location

abbrev RegPairs (S : Type) := List (RegPair S)

/-- What is stored under each pair of register numbers, and the names of the registers. -/
structure State (S : Type) where
  registers : Nat × Nat → Option (RegPairs S)
  lookup : RegisterDescriptor → String

structure Settings where
  accessModifiesExistingLocations : Bool
  accessCreatesLocations : Bool

variable {S β : Type} (V : SemanticValues S β)

/-- The accessed and the preserved parts of one stored location. -/
def scanLocation (reg : RegisterDescriptor) (regpair : RegPair S) : RegPairs S × RegPairs S :=
  let storedLocation := regpair.location
  let overlap := storedLocation.intersection reg.location
  if overlap.isEmpty then ([], [])
  else
    let low :=
      if storedLocation.lo < overlap.lo then
        let nbits := overlap.lo - storedLocation.lo
        [⟨reg.part storedLocation.lo nbits, V.unsignedExtend regpair.value nbits⟩]
      else []
    let extractBegin := overlap.lo - storedLocation.lo
    let accessed := ⟨reg.part overlap.lo overlap.size,
      V.extract regpair.value extractBegin (extractBegin + overlap.size)⟩
    let high :=
      if overlap.hi < storedLocation.hi then
        let nbits := storedLocation.hi - overlap.hi
        let extractBegin := overlap.hi + 1 - storedLocation.lo
        [⟨reg.part (overlap.hi + 1) nbits,
          V.extract regpair.value extractBegin (extractBegin + nbits)⟩]
      else []
    ([accessed], low ++ high)

def scanAccessedLocations (reg : RegisterDescriptor) (pairList : RegPairs S) :
    RegPairs S × RegPairs S :=
  (pairList.flatMap fun regpair => (scanLocation V reg regpair).1,
    pairList.flatMap fun regpair => (scanLocation V reg regpair).2)

/-- The locations left when those overlapping the register have lost their values. -/
def clearOverlappingLocations (reg : RegisterDescriptor) (pairList : RegPairs S) : RegPairs S :=
  pairList.filter fun regpair => (regpair.location.intersection reg.location).isEmpty

def eraseInterval (intervals : List Interval) (hole : Interval) : List Interval :=
  intervals.flatMap (·.without hole)

def newLocations (reg : RegisterDescriptor) (accessedParts : RegPairs S) : List Interval :=
  accessedParts.foldl (fun intervals regpair => eraseInterval intervals regpair.location)
    [reg.location]

/-- The parts of a value at those of a register's bits that are not stored. -/
def newParts (reg : RegisterDescriptor) (value : S) (accessedParts : RegPairs S) : RegPairs S :=
  (newLocations reg accessedParts).map fun newLocation =>
    ⟨reg.part newLocation.lo newLocation.size,
      V.extract value (newLocation.lo - reg.offset) (newLocation.hi + 1 - reg.offset)⟩

def sortByOffset (parts : RegPairs S) : RegPairs S :=
  parts.insertionSort fun a b => a.desc.offset ≤ b.desc.offset

/-- The parts in order of their offsets, concatenated. -/
def concatParts (dflt : S) (parts : RegPairs S) : S :=
  match sortByOffset parts with
  | [] => dflt
  | first :: rest => rest.foldl (fun retval regpair => V.concat retval regpair.value) first.value

/-- Contiguous parts are put together as far as they go. -/
def combineContiguous : RegPairs S → RegPairs S
  | [] => []
  | [part] => [part]
  | part :: next :: rest =>
    if next.desc.offset = part.desc.offset + part.desc.nBits then
      combineContiguous (⟨part.desc.part part.desc.offset (part.desc.nBits + next.desc.nBits),
        V.concat part.value next.value⟩ :: rest)
    else part :: combineContiguous (next :: rest)
termination_by parts => parts.length

def State.set (s : State S) (reg : RegisterDescriptor) (pairList : RegPairs S) : State S :=
  { s with registers := Function.update s.registers reg.store (some pairList) }

/-- A register's default is named after it where it has no comment. -/
def namedDefault (s : State S) (reg : RegisterDescriptor) (dflt : S) : S :=
  let newval := V.copy dflt
  let regname := (((s.lookup reg).toList.filter (· ≠ '[')).filter (· ≠ ']'))
  if !regname.isEmpty && (V.comment newval).isEmpty then
    V.setComment newval (String.ofList regname ++ "_0")
  else newval

def readRegister (settings : Settings) (s : State S) (reg : RegisterDescriptor) (dflt : S) :
    S × State S :=
  match s.registers reg.store with
  | none =>
    if !settings.accessCreatesLocations then (dflt, s)
    else
      let newval := namedDefault V s reg dflt
      (newval, s.set reg [⟨reg, newval⟩])
  | some pairList =>
    let (accessedParts, preservedParts) := scanAccessedLocations V reg pairList
    let newParts := newParts V reg dflt accessedParts
    let retval := concatParts V dflt (accessedParts ++ newParts)
    if settings.accessModifiesExistingLocations then
      let pairList := clearOverlappingLocations reg pairList ++ preservedParts
      if settings.accessCreatesLocations then (retval, s.set reg (pairList ++ [⟨reg, retval⟩]))
      else (retval, s.set reg (pairList ++ combineContiguous V (sortByOffset accessedParts)))
    else if settings.accessCreatesLocations then (retval, s.set reg (pairList ++ newParts))
    else (retval, s.set reg pairList)

def peekRegister (s : State S) (reg : RegisterDescriptor) (dflt : S) : S × State S :=
  match s.registers reg.store with
  | none => (dflt, s)
  | some pairList =>
    let (accessedParts, _) := scanAccessedLocations V reg pairList
    let newParts := newParts V reg dflt accessedParts
    (concatParts V dflt (accessedParts ++ newParts), s)

/-- The value of one stored location after a write, in the place it had. -/
def overwriteLocation (reg : RegisterDescriptor) (value : S) (regpair : RegPair S) : RegPair S :=
  let storedLocation := regpair.location
  let overlap := storedLocation.intersection reg.location
  if overlap.isEmpty then regpair
  else
    let extractBegin := overlap.lo - reg.location.lo
    let midValue := V.extract value extractBegin (extractBegin + overlap.size)
    let valueToWrite :=
      if storedLocation.lo < overlap.lo then
        V.concat (V.unsignedExtend regpair.value (overlap.lo - storedLocation.lo)) midValue
      else midValue
    let valueToWrite :=
      if overlap.hi < storedLocation.hi then
        let nbits := storedLocation.hi - overlap.hi
        let extractBegin := overlap.hi + 1 - storedLocation.lo
        V.concat valueToWrite (V.extract regpair.value extractBegin (extractBegin + nbits))
      else valueToWrite
    { regpair with value := valueToWrite }

/-- The exception of a write that may not create a location. -/
structure RegisterNotPresent where
  desc : RegisterDescriptor

def writeRegister (settings : Settings) (s : State S) (reg : RegisterDescriptor) (value : S) :
    Except RegisterNotPresent Unit × State S :=
  match s.registers reg.store with
  | none =>
    if !settings.accessCreatesLocations then (.error ⟨reg⟩, s)
    else (.ok (), s.set reg [⟨reg, value⟩])
  | some pairList =>
    let nBitsFound :=
      (pairList.map fun regpair => (regpair.location.intersection reg.location).size).sum
    if !settings.accessCreatesLocations && nBitsFound < reg.location.size then (.error ⟨reg⟩, s)
    else
      let (accessedParts, preservedParts) := scanAccessedLocations V reg pairList
      if settings.accessModifiesExistingLocations then
        (.ok (), s.set reg
          (clearOverlappingLocations reg pairList ++ preservedParts ++ [⟨reg, value⟩]))
      else
        (.ok (), s.set reg
          (pairList.map (overwriteLocation V reg value) ++ newParts V reg value accessedParts))

def eraseRegister (s : State S) (reg : RegisterDescriptor) : State S :=
  match s.registers reg.store with
  | none => s
  | some pairList =>
    let (_, nonoverlaps) := scanAccessedLocations V reg pairList
    s.set reg (clearOverlappingLocations reg pairList ++ nonoverlaps)

end LoomX.RegisterState

namespace LoomX.RegisterState

variable {S β : Type} (V : SemanticValues S β)

/-- The bit a stored location holds at a bit number. -/
def RegPair.bitAt (p : RegPair S) (k : Nat) : Option β :=
  if k ∈ p.location then some (V.bit p.value (k - p.desc.offset)) else none

/-- All bits stored at a bit number, one for each location over it. -/
def bitsAt (pairs : RegPairs S) (k : Nat) : List β := pairs.filterMap (RegPair.bitAt V · k)

/-- A location has bits, and a value of its width. -/
def RegPair.WellFormed (p : RegPair S) : Prop := 0 < p.desc.nBits ∧ V.nBits p.value = p.desc.nBits

variable {V}

section

variable {pairs pairs' : RegPairs S} {p : RegPair S} {reg : RegisterDescriptor} {k : Nat}

@[simp] theorem bitsAt_nil : bitsAt V [] k = [] := rfl

@[simp] theorem bitsAt_append : bitsAt V (pairs ++ pairs') k = bitsAt V pairs k ++ bitsAt V pairs' k :=
  List.filterMap_append

theorem bitsAt_cons : bitsAt V (p :: pairs) k = (p.bitAt V k).toList ++ bitsAt V pairs k := by
  rw [bitsAt, List.filterMap_cons]
  cases p.bitAt V k <;> rfl

theorem bitsAt_singleton : bitsAt V [p] k = (p.bitAt V k).toList := by
  rw [bitsAt_cons, bitsAt_nil, List.append_nil]

theorem bitsAt_perm (h : pairs.Perm pairs') : (bitsAt V pairs k).Perm (bitsAt V pairs' k) :=
  h.filterMap _

theorem RegPair.location_eq (h : p.WellFormed V) :
    p.location = ⟨p.desc.offset, p.desc.offset + p.desc.nBits - 1⟩ := by
  rw [RegPair.location, RegisterDescriptor.location, Interval.baseSize, if_neg h.1.ne']

theorem RegPair.bitAt_eq (p : RegPair S) (k : Nat) :
    p.bitAt V k = if p.desc.offset ≤ k ∧ k < p.desc.offset + p.desc.nBits then
      some (V.bit p.value (k - p.desc.offset)) else none := by
  rw [RegPair.bitAt, RegPair.location, RegisterDescriptor.location]
  simp only [Interval.mem_baseSize]

/-- A location that holds a range of another's bits. -/
structure Slice (V : SemanticValues S β) (p q : RegPair S) (b n : Nat) : Prop where
  wellFormed : q.WellFormed V
  bitAt : ∀ k, q.bitAt V k = if b ≤ k ∧ k < b + n then p.bitAt V k else none

theorem slice_extract (h : p.WellFormed V) (reg : RegisterDescriptor) {b n : Nat}
    (hb : p.desc.offset ≤ b) (hn : 0 < n) (he : b + n ≤ p.desc.offset + p.desc.nBits) :
    Slice V p ⟨reg.part b n,
      V.extract p.value (b - p.desc.offset) (b - p.desc.offset + n)⟩ b n where
  wellFormed := by
    refine ⟨hn, ?_⟩
    have hbits := h.2
    dsimp only [RegisterDescriptor.part]
    rw [V.nBits_extract _ _ _ (by omega) (by omega)]
    omega
  bitAt k := by
    have hbits := h.2
    simp only [RegPair.bitAt_eq, RegisterDescriptor.part]
    by_cases hk : b ≤ k ∧ k < b + n
    · rw [if_pos hk, if_pos hk, if_pos (by omega), V.bit_extract _ _ _ _ (by omega) (by omega)]
      congr 2
      omega
    · rw [if_neg hk, if_neg hk]

theorem slice_unsignedExtend (h : p.WellFormed V) (reg : RegisterDescriptor) {n : Nat} (hn : 0 < n)
    (he : n ≤ p.desc.nBits) :
    Slice V p ⟨reg.part p.desc.offset n, V.unsignedExtend p.value n⟩ p.desc.offset n where
  wellFormed := ⟨hn, V.nBits_unsignedExtend _ _⟩
  bitAt k := by
    have hbits := h.2
    simp only [RegPair.bitAt_eq, RegisterDescriptor.part]
    by_cases hk : p.desc.offset ≤ k ∧ k < p.desc.offset + n
    · rw [if_pos hk, if_pos hk, if_pos (by omega), V.bit_unsignedExtend _ _ _ (by omega) (by omega)]
    · rw [if_neg hk, if_neg hk]

theorem slices_low (h : p.WellFormed V) (reg : RegisterDescriptor) {a : Nat}
    (ha : a ≤ p.desc.offset + p.desc.nBits) :
    (∀ q ∈ (if p.desc.offset < a then [⟨reg.part p.desc.offset (a - p.desc.offset),
        V.unsignedExtend p.value (a - p.desc.offset)⟩] else [] : RegPairs S), q.WellFormed V) ∧
      ∀ k, bitsAt V (if p.desc.offset < a then [⟨reg.part p.desc.offset (a - p.desc.offset),
          V.unsignedExtend p.value (a - p.desc.offset)⟩] else []) k =
        if p.desc.offset ≤ k ∧ k < a then (p.bitAt V k).toList else [] := by
  by_cases hlt : p.desc.offset < a
  · have hslice := slice_unsignedExtend h reg (n := a - p.desc.offset) (by omega) (by omega)
    rw [if_pos hlt]
    refine ⟨fun q hq => ?_, fun k => ?_⟩
    · rw [List.mem_singleton.mp hq]
      exact hslice.wellFormed
    · rw [bitsAt_singleton, hslice.bitAt]
      split_ifs <;> first | rfl | omega
  · rw [if_neg hlt]
    refine ⟨by simp, fun k => ?_⟩
    rw [if_neg (by omega)]
    rfl

theorem slices_high (h : p.WellFormed V) (reg : RegisterDescriptor) {b : Nat}
    (hb : p.desc.offset ≤ b) :
    (∀ q ∈ (if b < p.desc.offset + p.desc.nBits - 1 then
        [⟨reg.part (b + 1) (p.desc.offset + p.desc.nBits - 1 - b), V.extract p.value
          (b + 1 - p.desc.offset) (b + 1 - p.desc.offset + (p.desc.offset + p.desc.nBits - 1 - b))⟩]
        else [] : RegPairs S), q.WellFormed V) ∧
      ∀ k, bitsAt V (if b < p.desc.offset + p.desc.nBits - 1 then
          [⟨reg.part (b + 1) (p.desc.offset + p.desc.nBits - 1 - b), V.extract p.value
            (b + 1 - p.desc.offset) (b + 1 - p.desc.offset + (p.desc.offset + p.desc.nBits - 1 - b))⟩]
          else []) k =
        if b < k then (p.bitAt V k).toList else [] := by
  by_cases hlt : b < p.desc.offset + p.desc.nBits - 1
  · have hslice := slice_extract h reg (b := b + 1) (n := p.desc.offset + p.desc.nBits - 1 - b)
      (by omega) (by omega) (by omega)
    rw [if_pos hlt]
    refine ⟨fun q hq => ?_, fun k => ?_⟩
    · rw [List.mem_singleton.mp hq]
      exact hslice.wellFormed
    · rw [bitsAt_singleton, hslice.bitAt, RegPair.bitAt_eq]
      split_ifs <;> first | rfl | omega
  · rw [if_neg hlt]
    refine ⟨by simp, fun k => ?_⟩
    rw [RegPair.bitAt_eq, bitsAt_nil]
    split_ifs <;> first | rfl | omega

/-- What a scan makes of one location: slices of its bits in the register and outside. -/
theorem scanLocation_spec (h : p.WellFormed V) (reg : RegisterDescriptor) :
    (∀ q ∈ (scanLocation V reg p).1 ++ (scanLocation V reg p).2, q.WellFormed V) ∧
      ∀ k, bitsAt V (scanLocation V reg p).1 k =
          (if k ∈ reg.location then (p.bitAt V k).toList else []) ∧
        bitsAt V (clearOverlappingLocations reg [p] ++ (scanLocation V reg p).2) k =
          if k ∈ reg.location then [] else (p.bitAt V k).toList := by
  have hlocation := RegPair.location_eq h
  by_cases hempty : (p.location.intersection reg.location).isEmpty = true
  · simp only [scanLocation, clearOverlappingLocations, List.filter_cons, hempty, if_true,
      List.filter_nil]
    refine ⟨by simp, fun k => ?_⟩
    have hnone := Interval.overlap_isEmpty.mp hempty k
    rw [List.append_nil, bitsAt_nil, bitsAt_singleton, RegPair.bitAt]
    by_cases hk : k ∈ reg.location
    · have hp : k ∉ p.location := fun hp => hnone ⟨hp, hk⟩
      simp [hk, hp]
    · simp [hk]
  · have hclear : clearOverlappingLocations reg [p] = [] := by
      simp [clearOverlappingLocations, hempty]
    rw [hclear, List.nil_append]
    have hpos := h.1
    obtain ⟨a, ha⟩ : ∃ a, a = max p.desc.offset reg.location.lo := ⟨_, rfl⟩
    obtain ⟨b, hb⟩ : ∃ b, b = min (p.desc.offset + p.desc.nBits - 1) reg.location.hi := ⟨_, rfl⟩
    have hab : a ≤ b := by
      have hoverlap := Interval.not_isEmpty.mp hempty
      rw [hlocation] at hoverlap
      rw [ha, hb]
      exact hoverlap
    have hscan : scanLocation V reg p = ([⟨reg.part a (b + 1 - a),
        V.extract p.value (a - p.desc.offset) (a - p.desc.offset + (b + 1 - a))⟩],
        (if p.desc.offset < a then [⟨reg.part p.desc.offset (a - p.desc.offset),
          V.unsignedExtend p.value (a - p.desc.offset)⟩] else []) ++
        if b < p.desc.offset + p.desc.nBits - 1 then
          [⟨reg.part (b + 1) (p.desc.offset + p.desc.nBits - 1 - b), V.extract p.value
            (b + 1 - p.desc.offset)
            (b + 1 - p.desc.offset + (p.desc.offset + p.desc.nBits - 1 - b))⟩]
        else []) := by
      simp only [scanLocation, if_neg hempty]
      simp only [hlocation, Interval.intersection, Interval.size, ← ha, ← hb]
    have hmid := slice_extract h reg (b := a) (n := b + 1 - a) (by omega) (by omega) (by omega)
    have hlow := slices_low h reg (a := a) (by omega)
    have hhigh := slices_high h reg (b := b) (by omega)
    rw [hscan]
    refine ⟨?_, fun k => ⟨?_, ?_⟩⟩
    · intro q hq
      rcases List.mem_append.mp hq with hq | hq
      · rw [List.mem_singleton.mp hq]
        exact hmid.wellFormed
      · rcases List.mem_append.mp hq with hq | hq
        · exact hlow.1 q hq
        · exact hhigh.1 q hq
    · simp only [bitsAt_singleton, hmid.bitAt, RegPair.bitAt_eq, Interval.mem_iff]
      split_ifs <;> first | rfl | omega
    · simp only [bitsAt_append, hlow.2, hhigh.2, RegPair.bitAt_eq, Interval.mem_iff]
      split_ifs <;> first | rfl | omega

theorem wellFormed_scan (h : ∀ p ∈ pairs, p.WellFormed V) (reg : RegisterDescriptor) :
    (∀ q ∈ (scanAccessedLocations V reg pairs).1, q.WellFormed V) ∧
      ∀ q ∈ (scanAccessedLocations V reg pairs).2, q.WellFormed V := by
  constructor
  all_goals
    intro q hq
    obtain ⟨p, hp, hq⟩ := List.mem_flatMap.mp hq
    exact (scanLocation_spec (h p hp) reg).1 q (List.mem_append.mpr (by tauto))

theorem wellFormed_clear (h : ∀ p ∈ pairs, p.WellFormed V) (reg : RegisterDescriptor) :
    ∀ q ∈ clearOverlappingLocations reg pairs, q.WellFormed V :=
  fun q hq => h q (List.mem_of_mem_filter hq)

/-- The accessed parts hold the register's stored bits. -/
theorem bitsAt_accessed (h : ∀ p ∈ pairs, p.WellFormed V) (reg : RegisterDescriptor) (k : Nat) :
    bitsAt V (scanAccessedLocations V reg pairs).1 k =
      if k ∈ reg.location then bitsAt V pairs k else [] := by
  induction pairs with
  | nil => simp [scanAccessedLocations]
  | cons p pairs ih =>
    have hp := ((scanLocation_spec (h p (by simp)) reg).2 k).1
    have hrest := ih fun q hq => h q (by simp [hq])
    simp only [scanAccessedLocations, List.flatMap_cons, bitsAt_append, bitsAt_cons] at hrest ⊢
    rw [hp, hrest]
    split <;> simp

/-- The other locations and the preserved parts hold the bits outside the register. -/
theorem bitsAt_kept (h : ∀ p ∈ pairs, p.WellFormed V) (reg : RegisterDescriptor) (k : Nat) :
    (bitsAt V (clearOverlappingLocations reg pairs ++ (scanAccessedLocations V reg pairs).2) k).Perm
      (if k ∈ reg.location then [] else bitsAt V pairs k) := by
  induction pairs with
  | nil => simp [scanAccessedLocations, clearOverlappingLocations]
  | cons p pairs ih =>
    have hp := ((scanLocation_spec (h p (by simp)) reg).2 k).2
    have hrest := ih fun q hq => h q (by simp [hq])
    have hcons : clearOverlappingLocations reg (p :: pairs) =
        clearOverlappingLocations reg [p] ++ clearOverlappingLocations reg pairs := by
      simp [clearOverlappingLocations, ← List.filter_append]
    simp only [hcons, scanAccessedLocations, List.flatMap_cons, bitsAt_append, bitsAt_cons]
      at hp hrest ⊢
    have hswap : ∀ a b c d : List β, (a ++ b ++ (c ++ d)).Perm (a ++ c ++ (b ++ d)) := by
      intro a b c d
      simp only [List.append_assoc]
      exact (List.perm_append_comm_assoc b c d).append_left a
    refine (hswap _ _ _ _).trans ?_
    rw [hp]
    split
    next hk =>
      rw [if_pos hk] at hrest
      simpa using hrest
    next hk =>
      rw [if_neg hk] at hrest
      exact hrest.append_left _

theorem countP_without {i hole : Interval} (k : Nat) :
    (i.without hole).countP (k ∈ ·) = if k ∈ hole then 0 else if k ∈ i then 1 else 0 := by
  rw [Interval.without]
  split
  next hempty =>
    have hnone := Interval.overlap_isEmpty.mp hempty k
    rw [List.countP_singleton]
    by_cases hk : k ∈ hole
    · have hi : k ∉ i := fun hi => hnone ⟨hi, hk⟩
      simp [hk, hi]
    · simp [hk]
  next hempty =>
    have hlow : List.countP (fun x : Interval => decide (k ∈ x))
        (if i.lo < hole.lo then [⟨i.lo, hole.lo - 1⟩] else []) =
        if i.lo ≤ k ∧ k < hole.lo then 1 else 0 := by
      split
      next =>
        rw [List.countP_singleton]
        simp only [Interval.mem_iff, decide_eq_true_eq]
        split_ifs <;> omega
      next => exact (if_neg (by omega)).symm
    have hhigh : List.countP (fun x : Interval => decide (k ∈ x))
        (if hole.hi < i.hi then [⟨hole.hi + 1, i.hi⟩] else []) =
        if hole.hi < k ∧ k ≤ i.hi then 1 else 0 := by
      split
      next =>
        rw [List.countP_singleton]
        simp only [Interval.mem_iff, decide_eq_true_eq]
        split_ifs <;> omega
      next => exact (if_neg (by omega)).symm
    have hoverlap := Interval.not_isEmpty.mp hempty
    rw [List.countP_append, hlow, hhigh]
    simp only [Interval.mem_iff]
    split_ifs <;> omega

theorem countP_eraseInterval (intervals : List Interval) (hole : Interval) (k : Nat) :
    (eraseInterval intervals hole).countP (k ∈ ·) =
      if k ∈ hole then 0 else intervals.countP (k ∈ ·) := by
  induction intervals with
  | nil => simp [eraseInterval]
  | cons i intervals ih =>
    simp only [eraseInterval, List.flatMap_cons, List.countP_append, List.countP_cons] at ih ⊢
    rw [ih, countP_without]
    split <;> simp [Nat.add_comm]

/-- The new locations hold each bit of the register that is not accessed once. -/
theorem countP_newLocations {parts : RegPairs S} (h : ∀ p ∈ parts, p.WellFormed V)
    (reg : RegisterDescriptor) (k : Nat) :
    (newLocations reg parts).countP (k ∈ ·) =
      if k ∈ reg.location ∧ bitsAt V parts k = [] then 1 else 0 := by
  have hfold : ∀ intervals : List Interval,
      (parts.foldl (fun intervals regpair => eraseInterval intervals regpair.location)
        intervals).countP (k ∈ ·) =
        if bitsAt V parts k = [] then intervals.countP (k ∈ ·) else 0 := by
    induction parts with
    | nil => intro intervals; simp
    | cons p parts ih =>
      intro intervals
      rw [List.foldl_cons, ih (fun q hq => h q (by simp [hq])), countP_eraseInterval,
        bitsAt_cons, RegPair.bitAt]
      by_cases hk : k ∈ p.location <;> simp [hk]
  rw [newLocations, hfold, List.countP_singleton]
  by_cases hk : k ∈ reg.location <;> simp [hk]

theorem foldl_eraseInterval_sub {parts : RegPairs S} (h : ∀ p ∈ parts, p.WellFormed V)
    {first stop : Nat} {intervals : List Interval}
    (hi : ∀ i ∈ intervals, first ≤ i.lo ∧ i.lo ≤ i.hi ∧ i.hi < stop) :
    ∀ j ∈ parts.foldl (fun intervals regpair => eraseInterval intervals regpair.location) intervals,
      first ≤ j.lo ∧ j.lo ≤ j.hi ∧ j.hi < stop := by
  induction parts generalizing intervals with
  | nil => exact hi
  | cons p parts ih =>
    rw [List.foldl_cons]
    refine ih (fun q hq => h q (by simp [hq])) fun i hmem => ?_
    have hp := h p (by simp)
    have hpos := hp.1
    have hne : p.location.lo ≤ p.location.hi := by
      rw [RegPair.location_eq hp]
      dsimp only
      omega
    obtain ⟨i', hi', hmem⟩ := List.mem_flatMap.mp hmem
    have hin := hi i' hi'
    have hsub := Interval.without_sub hin.2.1 hne hmem
    omega

theorem newLocations_sub {parts : RegPairs S} (h : ∀ p ∈ parts, p.WellFormed V)
    (hreg : 0 < reg.nBits) : ∀ j ∈ newLocations reg parts,
      reg.offset ≤ j.lo ∧ j.lo ≤ j.hi ∧ j.hi < reg.offset + reg.nBits := by
  refine foldl_eraseInterval_sub h fun i hi => ?_
  rw [List.mem_singleton.mp hi, RegisterDescriptor.location, Interval.baseSize, if_neg hreg.ne']
  dsimp only
  omega

theorem bitsAt_map {f : Interval → RegPair S} {intervals : List Interval} {b : β}
    (h : ∀ j ∈ intervals, (f j).bitAt V k = if k ∈ j then some b else none) :
    bitsAt V (intervals.map f) k = List.replicate (intervals.countP (k ∈ ·)) b := by
  induction intervals with
  | nil => rfl
  | cons j intervals ih =>
    rw [List.map_cons, bitsAt_cons, ih fun i hi => h i (by simp [hi]), h j (by simp),
      List.countP_cons]
    by_cases hk : k ∈ j <;> simp [hk, List.replicate_succ]

/-- The new parts hold the value's bits where nothing is stored. -/
theorem newParts_spec {parts : RegPairs S} (h : ∀ p ∈ parts, p.WellFormed V)
    (hreg : 0 < reg.nBits) {value : S} (hvalue : V.nBits value = reg.nBits) :
    (∀ q ∈ newParts V reg value parts, q.WellFormed V) ∧
      ∀ k, bitsAt V (newParts V reg value parts) k =
        if k ∈ reg.location ∧ bitsAt V parts k = [] then [V.bit value (k - reg.offset)] else [] := by
  have hsub := newLocations_sub h hreg
  have hpart : ∀ j ∈ newLocations reg parts, RegPair.WellFormed V
      ⟨reg.part j.lo j.size, V.extract value (j.lo - reg.offset) (j.hi + 1 - reg.offset)⟩ ∧
      ∀ k, RegPair.bitAt V
        ⟨reg.part j.lo j.size, V.extract value (j.lo - reg.offset) (j.hi + 1 - reg.offset)⟩ k =
        if k ∈ j then some (V.bit value (k - reg.offset)) else none := by
    intro j hj
    have hin := hsub j hj
    refine ⟨⟨?_, ?_⟩, fun k => ?_⟩
    · simp only [RegisterDescriptor.part, Interval.size]
      omega
    · rw [V.nBits_extract _ _ _ (by omega) (by omega)]
      simp only [RegisterDescriptor.part, Interval.size]
      omega
    · simp only [RegPair.bitAt_eq, RegisterDescriptor.part, Interval.size, Interval.mem_iff]
      by_cases hk : j.lo ≤ k ∧ k ≤ j.hi
      · rw [if_pos (by omega), if_pos hk, V.bit_extract _ _ _ _ (by omega) (by omega)]
        congr 2
        omega
      · rw [if_neg (by omega), if_neg hk]
  refine ⟨fun q hq => ?_, fun k => ?_⟩
  · obtain ⟨j, hj, rfl⟩ := List.mem_map.mp hq
    exact (hpart j hj).1
  · have hbits : bitsAt V (newParts V reg value parts) k =
        List.replicate ((newLocations reg parts).countP (k ∈ ·)) (V.bit value (k - reg.offset)) := by
      exact bitsAt_map fun j hj => (hpart j hj).2 k
    rw [hbits, countP_newLocations h]
    split <;> rfl

end

end LoomX.RegisterState
