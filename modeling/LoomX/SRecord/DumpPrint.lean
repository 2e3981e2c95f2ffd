import LoomX.IntervalRuns
import LoomX.SegmentMap
import LoomX.SRecord.RoundTrip

namespace LoomX.SRecord

open SegmentMap IntervalRuns

/-- Bytes at 64-bit addresses. -/
structure MemoryMap extends SegmentMap Byte where
  bounded : ∀ s ∈ segments, s.stop ≤ 2 ^ 64

namespace MemoryMap

def byte (map : MemoryMap) (a : Nat) : Option Byte := lookup map.segments a

/-- One past `hull ().greatest ()`, or zero for an empty map. -/
def hullStop (map : MemoryMap) : Nat := (map.segments.getLast?.map Segment.stop).getD 0

end MemoryMap

/-- `none` is a failed assertion on the number of bytes. -/
def bigEndian (data : List Byte) (nBytes : Nat) : Option (BitVec 32) :=
  if nBytes ≤ data.length ∧ nBytes ≤ 4 then
    some ((data.take nBytes).foldl (fun retval byte => (retval <<< 8) ||| byte.setWidth 32) 0)
  else none

/-- The first two bytes as a base address, shifted within 32 bits. -/
def shiftedBase (data : List Byte) (n : Nat) : Option Address :=
  (bigEndian data 2).map fun (v : BitVec 32) => (v <<< n).setWidth 64

structure RunLengthEncoding where
  dataVa : Option Address := none
  executionVa : Option Address := none
  nDataRecords : Nat := 0

namespace RunLengthEncoding

def insert (rle : RunLengthEncoding) (srec : Record) : Option RunLengthEncoding :=
  match srec.type with
  | .mStart16 | .mStart24 | .mStart32 => some { rle with executionVa := some srec.addr }
  | .iExtendedSA =>
    (shiftedBase srec.data 4).map fun va => { rle with dataVa := some va }
  | .iStartSA =>
    (shiftedBase srec.data 4).map fun va => { rle with executionVa := some va }
  | .iExtendedLA =>
    (shiftedBase srec.data 16).map fun va => { rle with dataVa := some va }
  | .iStartLA =>
    (shiftedBase srec.data 16).map fun va => { rle with executionVa := some va }
  | .mData16 | .mData24 | .mData32 | .iData =>
    some { rle with nDataRecords := rle.nDataRecords + 1 }
  | _ => some rle

def baseDataAddress (rle : RunLengthEncoding) : Address := rle.dataVa.getD 0

def dataAddress (rle : RunLengthEncoding) (srec : Record) : Option Address :=
  match srec.type with
  | .mData16 | .mData24 | .mData32 => some srec.addr
  | .iData => some (rle.baseDataAddress + srec.addr)
  | _ => none

/-- The scan of `dataAddresses` and of `load`: the data records, each with its full address. -/
def scan (rle : RunLengthEncoding) :
    List Record → Option (List (Nat × List Byte) × RunLengthEncoding)
  | [] => some ([], rle)
  | srec :: rest => do
    let next ← rle.insert srec
    let (placed, last) ← next.scan rest
    match rle.dataAddress srec with
    | some va => some ((va.toNat, srec.data) :: placed, last)
    | none => some (placed, last)

end RunLengthEncoding

/-- `none` is a failed assertion on an interval that leaves the address space. -/
def dataAddresses (placed : List (Nat × List Byte)) : Option Runs :=
  if ∀ p ∈ placed, p.1 + p.2.length ≤ 2 ^ 64 then
    some (unionRuns ((placed.filter fun p => p.2 ≠ []).map fun p => (p.1, p.1 + p.2.length)))
  else none

def alignDown (address alignment : Nat) : Nat := address / alignment * alignment

/-- The sum and the product wrap around in 64 bits. -/
def alignUp (address alignment : Nat) : Nat :=
  (address + alignment - 1) % 2 ^ 64 / alignment * alignment % 2 ^ 64

/-- An interval of record data, extended to the alignment. -/
def alignedRun (alignment : Nat) (interval : Nat × Nat) : Option (Nat × Nat) :=
  let least := alignDown interval.1 alignment
  let stop := alignUp interval.2 alignment
  if least < stop then some (least, stop)
  else if stop = 0 then some (least, 2 ^ 64)
  else none

/-- Bit 3 of the access permissions is `IMMUTABLE`. -/
def anonymousSegment (accessPerms : Nat) (interval : Nat × Nat) : Segment Byte :=
  ⟨interval.1, List.replicate (interval.2 - interval.1) 0, accessPerms.testBit 3⟩

/-- The segments of the temporary map, which linking adds to an empty map as they are. -/
def createSegments (placed : List (Nat × List Byte)) (alignment accessPerms : Nat) :
    Option (List (Segment Byte)) := do
  let srecAddrs ← dataAddresses placed
  let aligned ← srecAddrs.mapM (alignedRun (max alignment 1))
  pure ((unionRuns aligned).map (anonymousSegment accessPerms))

/-- `none` is the exception that a destination is not mapped. -/
def writeAll (segments : List (Segment Byte)) : List (Nat × List Byte) → Option (List (Segment Byte))
  | [] => some segments
  | p :: rest =>
    let written := writeAt segments p.1 p.2
    if written.2 ≠ p.2.length then none else writeAll written.1 rest

/-- Loading into an empty map: its segments afterwards, and the execution address. -/
def load (srecs : List Record) (alignment accessPerms : Nat) :
    Option (List (Segment Byte) × Option Address) := do
  let (placed, rle) ← RunLengthEncoding.scan {} srecs
  let segments ← createSegments placed alignment accessPerms
  let segments ← writeAll segments placed
  pure (segments, rle.executionVa)

def dataRecordType (family : Syntax) (preferredAddrSize : Nat) : RecordType :=
  match family with
  | .motorola =>
    if preferredAddrSize ≤ 2 then .mData16
    else if preferredAddrSize ≤ 3 then .mData24
    else .mData32
  | .intel => .iData
  | .unknown => .unknown

/-- The size that `create` reads for a record, not counting the checksum byte. -/
def recordLimit (family : Syntax) (bytesPerRecord preferredAddrSize : Nat) : Nat :=
  match family with
  | .motorola =>
    min bytesPerRecord (255 - addressNBytes (dataRecordType family preferredAddrSize))
  | _ => min bytesPerRecord 255

def extendedLA (linear : List Byte) : Record := ⟨.iExtendedLA, 0, linear, ""⟩

/-- The records for the bytes read at an address. -/
def emit (family : Syntax) (type : RecordType) (rle : RunLengthEncoding) (va : Nat)
    (buffer : List Byte) : Option (List Record) :=
  match family with
  | .motorola => some [⟨type, BitVec.ofNat 64 va, buffer, ""⟩]
  | .intel =>
    if va < rle.baseDataAddress.toNat then none
    else
      let offset := va - rle.baseDataAddress.toNat
      if rle.nDataRecords = 0 then
        some [extendedLA [0, 0], ⟨type, BitVec.ofNat 64 offset, buffer, ""⟩]
      else if offset > 0xffff then
        some [extendedLA [BitVec.ofNat 8 (va >>> 24), BitVec.ofNat 8 (va >>> 16)],
          ⟨type, BitVec.ofNat 64 (va &&& 0xffff), buffer, ""⟩]
      else some [⟨type, BitVec.ofNat 64 offset, buffer, ""⟩]
  | .unknown => none

/-- The loop of `create`, which every turn takes past a mapped address. -/
def createLoop (map : MemoryMap) (family : Syntax) (type : RecordType) (limit : Nat) :
    Nat → Nat → RunLengthEncoding → Option (List Record)
  | 0, _, _ => some []
  | fuel + 1, va, rle =>
    match nextFrom map.segments va with
    | none => some []
    | some va =>
      let buffer := readAt map.segments va limit
      if buffer = [] then none
      else do
        let emitted ← emit family type rle va buffer
        let (_, rle) ← rle.scan emitted
        if va + buffer.length = map.hullStop then pure emitted
        else
          let rest ← createLoop map family type limit fuel (va + buffer.length) rle
          pure (emitted ++ rest)

def create (map : MemoryMap) (family : Syntax) (bytesPerRecord preferredAddrSize : Nat) :
    Option (List Record) :=
  if bytesPerRecord = 0 ∨ bytesPerRecord > 255 then none
  else
    createLoop map family (dataRecordType family preferredAddrSize)
      (recordLimit family bytesPerRecord preferredAddrSize) (map.hullStop + 1) 0 {}

open SegmentMap

def Record.Prints (r : Record) : Prop := ∃ line, r.toString = .ok line

/-- The addresses below which a format's data records can be placed. -/
def addressLimit (family : Syntax) (preferredAddrSize : Nat) : Nat :=
  match family with
  | .motorola => 256 ^ addressNBytes (dataRecordType family preferredAddrSize)
  | _ => 256 ^ 4

theorem prints_motorola {r : Record} (hf : r.type.family = .motorola)
    (h0 : 0 < addressNBytes r.type) (hn : r.addr.toNat < 256 ^ addressNBytes r.type) :
    r.Prints ↔ addressNBytes r.type + r.data.length + 1 ≤ 255 := by
  obtain ⟨digit, hd⟩ := motorolaDigit_isSome hf
  constructor
  · rintro ⟨line, hprint⟩
    by_contra hsize
    simp only [Record.toString, Record.header, hd] at hprint
    rw [if_pos (by omega)] at hprint
    cases hprint
  · intro hsize
    have hlen := @length_motorolaLine r digit h0 hn hsize
    obtain ⟨sum, hsum⟩ : ∃ sum, checksum r.type.family (motorolaLine r digit) 2
        ((motorolaLine r digit).length - 2) = some sum :=
      checksum_isSome (by rw [hf]; decide) (by omega)
    exact ⟨_, toString_eq (header_motorola hd hn hsize) hsum⟩

theorem prints_intel {r : Record} (hf : r.type.family = .intel) (hsize : r.data.length ≤ 255) :
    r.Prints ↔ r.addr.toNat ≤ 0xffff := by
  obtain ⟨hm, digits, hd⟩ := intelDigits_isSome hf
  obtain ⟨t, -, hdigits, -⟩ := intelDigits_read hd
  constructor
  · rintro ⟨line, hprint⟩
    by_contra hgt
    simp only [Record.toString, Record.header, hm, hd] at hprint
    rw [if_neg (by omega), if_pos (by omega)] at hprint
    cases hprint
  · intro hle
    have hn : r.addr.toNat < 256 ^ 2 := by omega
    have hlen := length_intelLine hdigits.1 hn hsize
    obtain ⟨sum, hsum⟩ : ∃ sum, checksum r.type.family (intelLine r digits) 1
        ((intelLine r digits).length - 1) = some sum :=
      checksum_isSome (by rw [hf]; decide) (by omega)
    exact ⟨_, toString_eq (header_intel hm hd hn hsize) hsum⟩

namespace RunLengthEncoding

theorem scan_append {rle mid last : RunLengthEncoding} {xs ys : List Record}
    {placed more : List (Nat × List Byte)} (hx : rle.scan xs = some (placed, mid))
    (hy : mid.scan ys = some (more, last)) : rle.scan (xs ++ ys) = some (placed ++ more, last) := by
  induction xs generalizing rle placed with
  | nil =>
    cases hx
    exact hy
  | cons srec xs ih =>
    obtain ⟨next, hnext, hx⟩ := Option.bind_eq_some_iff.mp hx
    obtain ⟨⟨tail, mid'⟩, htail, hx⟩ := Option.bind_eq_some_iff.mp hx
    have hmid : mid' = mid := by
      cases hva : rle.dataAddress srec <;> simp only [hva, Option.some.injEq, Prod.mk.injEq] at hx <;>
        exact hx.2
    subst hmid
    have htail' := ih htail
    cases hva : rle.dataAddress srec with
    | none =>
      simp only [hva, Option.some.injEq, Prod.mk.injEq, and_true] at hx
      subst hx
      simp [scan, hnext, htail', hva]
    | some va =>
      simp only [hva, Option.some.injEq, Prod.mk.injEq, and_true] at hx
      subst hx
      simp [scan, hnext, htail', hva]

theorem scan_single {rle next : RunLengthEncoding} {srec : Record} {va : Address}
    (hnext : rle.insert srec = some next) (hva : rle.dataAddress srec = some va) :
    rle.scan [srec] = some ([(va.toNat, srec.data)], next) := by
  simp [scan, hnext, hva]

end RunLengthEncoding

/-- What the loop of `create` keeps: the base address never passes the next address. -/
def Ready (family : Syntax) (rle : RunLengthEncoding) (va : Nat) : Prop :=
  match family with
  | .motorola => True
  | _ => rle.baseDataAddress.toNat ≤ va ∧ (rle.nDataRecords = 0 → rle.baseDataAddress = 0)

/-- The condition under which the records of the placed data print. -/
def Printable (family : Syntax) (preferredAddrSize : Nat) (rle : RunLengthEncoding)
    (placed : List (Nat × List Byte)) : Prop :=
  match family with
  | .motorola => ∀ p ∈ placed,
    addressNBytes (dataRecordType family preferredAddrSize) + p.2.length + 1 ≤ 255
  | _ => rle.nDataRecords = 0 → ∀ p, placed.head? = some p → p.1 ≤ 0xffff

theorem dataRecordType_motorola (preferredAddrSize : Nat) :
    dataRecordType .motorola preferredAddrSize = .mData16 ∨
      dataRecordType .motorola preferredAddrSize = .mData24 ∨
        dataRecordType .motorola preferredAddrSize = .mData32 := by
  unfold dataRecordType
  split_ifs <;> simp

/-- The records for one read place it where it was read, and print under the stated condition. -/
structure EmitsWell (family : Syntax) (preferredAddrSize : Nat) (rle : RunLengthEncoding) (va : Nat)
    (buffer : List Byte) (emitted : List Record) (next : RunLengthEncoding) : Prop where
  emits : emit family (dataRecordType family preferredAddrSize) rle va buffer = some emitted
  places : rle.scan emitted = some ([(va, buffer)], next)
  ready : Ready family next (va + buffer.length)
  prints : ∀ rest, (∀ r ∈ emitted, r.Prints) ∧ Printable family preferredAddrSize next rest ↔
    Printable family preferredAddrSize rle ((va, buffer) :: rest)

theorem emit_motorola {preferredAddrSize va : Nat} (rle : RunLengthEncoding) (buffer : List Byte)
    (hva : va < addressLimit .motorola preferredAddrSize) :
    ∃ emitted next, EmitsWell .motorola preferredAddrSize rle va buffer emitted next := by
  have hle := addressNBytes_le (dataRecordType .motorola preferredAddrSize)
  have hlt : va < 2 ^ 64 := lt_of_lt_of_le hva
    (le_trans (Nat.pow_le_pow_right (by omega) hle) (by decide))
  have hva' : (BitVec.ofNat 64 va).toNat = va := by
    rw [BitVec.toNat_ofNat, Nat.mod_eq_of_lt hlt]
  obtain ⟨type, htype⟩ : ∃ type, dataRecordType .motorola preferredAddrSize = type := ⟨_, rfl⟩
  have hdata : type.family = .motorola ∧ 0 < addressNBytes type ∧
      rle.insert ⟨type, BitVec.ofNat 64 va, buffer, ""⟩ =
        some { rle with nDataRecords := rle.nDataRecords + 1 } ∧
      rle.dataAddress ⟨type, BitVec.ofNat 64 va, buffer, ""⟩ = some (BitVec.ofNat 64 va) := by
    rcases dataRecordType_motorola preferredAddrSize with ht | ht | ht <;> rw [← htype, ht] <;>
      exact ⟨rfl, by decide, rfl, rfl⟩
  obtain ⟨hf, h0, hinsert, haddress⟩ := hdata
  have hscan := RunLengthEncoding.scan_single hinsert haddress
  rw [hva'] at hscan
  refine ⟨_, _, by rw [htype]; rfl, hscan, trivial, fun rest => ?_⟩
  simp only [addressLimit, htype] at hva
  rw [List.forall_mem_singleton, prints_motorola hf h0 (by rwa [hva'])]
  simp [Printable, htype]

/-- The extended linear address that `create` writes is the address without its low 16 bits. -/
theorem shiftedBase_upper {va : Nat} (hva : va < 256 ^ 4) :
    ∃ base, shiftedBase [BitVec.ofNat 8 (va >>> 24), BitVec.ofNat 8 (va >>> 16)] 16 = some base ∧
      base.toNat = va / 65536 * 65536 := by
  have hhi : va >>> 24 = va / 2 ^ 24 := Nat.shiftRight_eq_div_pow va 24
  have hlo : va >>> 16 = va / 2 ^ 16 := Nat.shiftRight_eq_div_pow va 16
  have hor : va / 16777216 * 2 ^ 8 ||| va / 65536 % 2 ^ 8 = va / 65536 := by
    rw [← Nat.shiftLeft_eq, ← Nat.shiftLeft_add_eq_or_of_lt (Nat.mod_lt _ (by decide)),
      Nat.shiftLeft_eq]
    omega
  have h1 : va / 16777216 % 256 % 4294967296 * 256 % 4294967296 = va / 16777216 * 2 ^ 8 := by omega
  have h2 : va / 65536 % 256 % 4294967296 = va / 65536 % 2 ^ 8 := by omega
  refine ⟨_, rfl, ?_⟩
  simp only [List.take, List.foldl, hhi, hlo]
  simp only [BitVec.toNat_setWidth, BitVec.toNat_shiftLeft, BitVec.toNat_or, BitVec.toNat_ofNat,
    Nat.shiftLeft_eq, BitVec.ofNat_eq_ofNat, Nat.zero_mod, Nat.zero_mul, Nat.zero_or]
  norm_num only
  rw [h1, h2, hor]
  omega

theorem and_low16 (va : Nat) : va &&& 0xffff = va % 65536 := Nat.and_two_pow_sub_one_eq_mod va 16

section Intel

variable {preferredAddrSize va : Nat} {rle : RunLengthEncoding} {buffer : List Byte}

/-- The Intel data record at an offset from the current base address. -/
def intelData (offset : Nat) (buffer : List Byte) : Record :=
  ⟨.iData, BitVec.ofNat 64 offset, buffer, ""⟩

theorem scan_intelData {base : Address} {offset : Nat} (hbase : rle.baseDataAddress = base)
    (hsum : base.toNat + offset = va) (hva : va < 256 ^ 4) :
    rle.scan [intelData offset buffer] =
      some ([(va, buffer)], { rle with nDataRecords := rle.nDataRecords + 1 }) := by
  have hinsert : rle.insert (intelData offset buffer) =
      some { rle with nDataRecords := rle.nDataRecords + 1 } := rfl
  have haddress : rle.dataAddress (intelData offset buffer) =
      some (base + BitVec.ofNat 64 offset) := by
    rw [← hbase]
    rfl
  have hscan := RunLengthEncoding.scan_single hinsert haddress
  rw [hscan]
  have hplace : (base + BitVec.ofNat 64 offset).toNat = va := by
    rw [BitVec.toNat_add, BitVec.toNat_ofNat]
    omega
  rw [hplace]
  rfl

theorem prints_intelData {offset : Nat} (hoffset : offset < 256 ^ 4) (hsize : buffer.length ≤ 255) :
    (intelData offset buffer).Prints ↔ offset ≤ 0xffff := by
  rw [prints_intel rfl hsize]
  simp only [intelData, BitVec.toNat_ofNat]
  rw [Nat.mod_eq_of_lt (by omega)]

theorem prints_extendedLA (x y : Byte) : (extendedLA [x, y]).Prints :=
  (prints_intel rfl (by simp [extendedLA])).mpr (by simp [extendedLA])

theorem scan_extendedLA {base : Address} {linear : List Byte} {rest : List Record}
    (hbase : shiftedBase linear 16 = some base) :
    rle.scan (extendedLA linear :: rest) =
      ({ rle with dataVa := some base } : RunLengthEncoding).scan rest := by
  have hinsert : rle.insert (extendedLA linear) = some { rle with dataVa := some base } := by
    simp [RunLengthEncoding.insert, extendedLA, hbase]
  rw [RunLengthEncoding.scan, hinsert]
  simp only [Option.bind_eq_bind, Option.bind_some]
  cases ({ rle with dataVa := some base } : RunLengthEncoding).scan rest <;> rfl

theorem emit_intel (hready : Ready .intel rle va) (hva : va < 256 ^ 4)
    (hsize : buffer.length ≤ 255) :
    ∃ emitted next, EmitsWell .intel preferredAddrSize rle va buffer emitted next := by
  obtain ⟨hle, hzero⟩ := hready
  by_cases hn : rle.nDataRecords = 0
  · have hbase : rle.baseDataAddress.toNat = 0 := by rw [hzero hn]; rfl
    have hfirst : shiftedBase [0, 0] 16 = some 0 := by decide
    refine ⟨[extendedLA [0, 0], intelData va buffer], _, ?_, (scan_extendedLA hfirst).trans
      (scan_intelData rfl (Nat.zero_add va) hva), ?_, fun rest => ?_⟩
    · simp only [emit]
      rw [if_neg (by omega), if_pos hn, hbase, Nat.sub_zero]
      rfl
    · exact ⟨by simp [RunLengthEncoding.baseDataAddress], by simp⟩
    · simp [Printable, hn, prints_extendedLA, prints_intelData hva hsize]
  · by_cases hfar : va - rle.baseDataAddress.toNat > 0xffff
    · obtain ⟨base, hbase, hval⟩ := shiftedBase_upper hva
      refine ⟨[extendedLA [BitVec.ofNat 8 (va >>> 24), BitVec.ofNat 8 (va >>> 16)],
        intelData (va &&& 0xffff) buffer], _, ?_, (scan_extendedLA hbase).trans
        (scan_intelData rfl ?_ hva), ?_, fun rest => ?_⟩
      · simp only [emit]
        rw [if_neg (by omega), if_neg hn, if_pos hfar]
        rfl
      · rw [and_low16]
        simp only [RunLengthEncoding.baseDataAddress, Option.getD_some]
        omega
      · refine ⟨?_, by simp⟩
        simp only [RunLengthEncoding.baseDataAddress, Option.getD_some]
        omega
      · have hlow : va &&& 0xffff ≤ 0xffff := by rw [and_low16]; omega
        simp [Printable, hn, prints_extendedLA,
          (prints_intelData (by omega : va &&& 0xffff < 256 ^ 4) hsize).mpr hlow]
    · refine ⟨[intelData (va - rle.baseDataAddress.toNat) buffer], _, ?_,
        scan_intelData rfl (by omega) hva, ?_, fun rest => ?_⟩
      · simp only [emit]
        rw [if_neg (by omega), if_neg hn, if_neg hfar]
        rfl
      · refine ⟨?_, by simp⟩
        simp only [RunLengthEncoding.baseDataAddress] at hle ⊢
        omega
      · simp [Printable, hn,
          (prints_intelData (by omega : va - rle.baseDataAddress.toNat < 256 ^ 4) hsize).mpr
            (by omega)]

end Intel

end LoomX.SRecord
