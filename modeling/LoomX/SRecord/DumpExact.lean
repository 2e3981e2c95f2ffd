import LoomX.SRecord.DumpPrint

namespace LoomX.SRecord

open SegmentMap IntervalRuns

theorem MemoryMap.byte_none {map : MemoryMap} {a : Nat} (h : map.hullStop ≤ a) :
    map.byte a = none := by
  apply lookup_none_of_stops
  intro s hs
  obtain ⟨last, hlast, hle⟩ := stop_le_last map.ordered hs
  simp only [MemoryMap.hullStop, hlast, Option.map_some, Option.getD_some] at h
  omega

theorem emit_exists {family : Syntax} {preferredAddrSize va : Nat} {rle : RunLengthEncoding}
    {buffer : List Byte} (hfam : family ≠ .unknown) (hready : Ready family rle va)
    (hva : va < addressLimit family preferredAddrSize) (hsize : buffer.length ≤ 255) :
    ∃ emitted next, EmitsWell family preferredAddrSize rle va buffer emitted next := by
  cases family with
  | motorola => exact emit_motorola rle buffer hva
  | intel => exact emit_intel hready hva hsize
  | unknown => exact absurd rfl hfam

theorem Ready.mono {family : Syntax} {rle : RunLengthEncoding} {va a : Nat}
    (h : Ready family rle va) (hle : va ≤ a) : Ready family rle a := by
  cases family with
  | motorola => trivial
  | intel => exact ⟨h.1.trans hle, h.2⟩
  | unknown => exact ⟨h.1.trans hle, h.2⟩

/-- The loop of `create` ends, and the records it produces place the map's bytes run by run. -/
theorem createLoop_spec {map : MemoryMap} {family : Syntax} {limit preferredAddrSize : Nat}
    (hfam : family ≠ .unknown) (h0 : 0 < limit) (h255 : limit ≤ 255)
    (hexp : ∀ a, (map.byte a).isSome → a < addressLimit family preferredAddrSize)
    {fuel va : Nat} {rle : RunLengthEncoding} (hready : Ready family rle va)
    (hfuel : map.hullStop < fuel + va) :
    ∃ srecs placed last,
      createLoop map family (dataRecordType family preferredAddrSize) limit fuel va rle =
        some srecs ∧ rle.scan srecs = some (placed, last) ∧ Tiles map.byte limit va placed ∧
      ((∀ r ∈ srecs, r.Prints) ↔ Printable family preferredAddrSize rle placed) := by
  have hempty (rle : RunLengthEncoding) : Printable family preferredAddrSize rle [] := by
    cases family <;> simp [Printable]
  induction fuel generalizing va rle with
  | zero =>
    refine ⟨[], [], rle, rfl, rfl, .done fun a ha => map.byte_none (by omega), ?_⟩
    simp [hempty]
  | succ fuel ih =>
    cases hnext : nextFrom map.segments va with
    | none =>
      refine ⟨[], [], rle, by rw [createLoop, hnext], rfl, .done fun a ha => ?_, by simp [hempty]⟩
      exact nextFrom_none hnext ha
    | some a =>
      obtain ⟨hva, hmapped, hgap⟩ := nextFrom_some map.nonempty hnext
      obtain ⟨buffer, hbuffer⟩ : ∃ buffer, run map.byte a limit = buffer := ⟨_, rfl⟩
      have hread : readAt map.segments a limit = buffer := by rw [readAt_eq_run]; exact hbuffer
      have hlen : buffer.length ≤ limit := by rw [← hbuffer]; exact length_run_le _ _ _
      have hne : buffer ≠ [] := by
        obtain ⟨v, hv⟩ := Option.isSome_iff_exists.mp hmapped
        have hv' : map.byte a = some v := hv
        obtain ⟨limit, rfl⟩ : ∃ n, limit = n + 1 := ⟨limit - 1, by omega⟩
        rw [← hbuffer, run, hv']
        simp
      have hpos := List.length_pos_iff.mpr hne
      obtain ⟨emitted, next, hemits, hplaces, hready', hprints⟩ :=
        emit_exists hfam (hready.mono hva) (hexp a hmapped) (show buffer.length ≤ 255 by omega)
      have htile {rest : List (Nat × List Byte)}
          (hrest : Tiles map.byte limit (a + buffer.length) rest) :
          Tiles map.byte limit va ((a, buffer) :: rest) := by
        rw [← hbuffer] at hrest ⊢
        exact .step hva hgap hmapped hrest
      rw [createLoop, hnext]
      simp only [hread, if_neg hne, hemits, hplaces, Option.bind_eq_bind, Option.bind_some]
      by_cases hlast : a + buffer.length = map.hullStop
      · refine ⟨emitted, [(a, buffer)], next, by rw [if_pos hlast]; rfl, hplaces,
          htile (.done fun b hb => map.byte_none (by omega)), ?_⟩
        rw [← hprints []]
        simp [hempty]
      · obtain ⟨srecs, placed, last, hcreate, hscan, htiles, hprint⟩ := ih hready' (by omega)
        refine ⟨emitted ++ srecs, (a, buffer) :: placed, last, ?_,
          RunLengthEncoding.scan_append hplaces hscan, htile htiles, ?_⟩
        · rw [if_neg hlast, hcreate]
          rfl
        · rw [← hprints placed, ← hprint, List.forall_mem_append]

theorem lookup_anonymous {runs : Runs} (hs : Separated runs) (accessPerms a : Nat) :
    (lookup (runs.map (anonymousSegment accessPerms)) a).isSome ↔ Covers runs a := by
  induction runs with
  | nil => simp [lookup]
  | cons r rest ih =>
    obtain ⟨hlt, hgap, hrest⟩ := hs
    have hstop : (anonymousSegment accessPerms r).stop = r.2 := by
      simp only [anonymousSegment, Segment.stop, List.length_replicate]
      omega
    rw [List.map_cons, lookup, hstop, covers_cons]
    by_cases ha : a < r.2
    · rw [if_pos ha, Segment.read_isSome (by omega)]
      have hbehind : ¬ Covers rest a := by
        rintro ⟨r', hr', hle, -⟩
        have := hgap r' hr'
        omega
      simp only [anonymousSegment, ha, and_true, hbehind, or_false]
      exact decide_eq_true_iff
    · rw [if_neg ha, ih hrest]
      simp [ha]

/-- Writing data that agrees with `g` to mapped addresses leaves `g` where it was written. -/
theorem writeAll_spec {g : Nat → Option Byte} {segments : List (Segment Byte)}
    {placed : List (Nat × List Byte)} (hopen : ∀ s ∈ segments, s.isSealed = false)
    (hvalue : ∀ p ∈ placed, ∀ i < p.2.length, g (p.1 + i) = p.2[i]?)
    (hmapped : ∀ p ∈ placed, ∀ i < p.2.length, (lookup segments (p.1 + i)).isSome) :
    ∃ loaded, writeAll segments placed = some loaded ∧ ∀ a,
      (lookup loaded a = lookup segments a ∨ lookup loaded a = g a) ∧
      ((∃ p ∈ placed, p.1 ≤ a ∧ a < p.1 + p.2.length) → lookup loaded a = g a) := by
  induction placed generalizing segments with
  | nil => exact ⟨segments, rfl, fun a => ⟨Or.inl rfl, by simp⟩⟩
  | cons p rest ih =>
    obtain ⟨hv, hvrest⟩ := List.forall_mem_cons.mp hvalue
    obtain ⟨hm, hmrest⟩ := List.forall_mem_cons.mp hmapped
    have hcount := writeAt_complete hopen hm
    have hlookup (a : Nat) := lookup_writeAt segments p.1 a p.2
    rw [hcount] at hlookup
    have hin (a : Nat) (ha : p.1 ≤ a ∧ a < p.1 + p.2.length) :
        lookup (writeAt segments p.1 p.2).1 a = g a := by
      have hvi := hv (a - p.1) (by omega)
      rw [show p.1 + (a - p.1) = a by omega] at hvi
      rw [hlookup, if_pos ha, hvi]
    obtain ⟨loaded, hload, hspec⟩ := ih (isSealed_writeAt hopen p.1 p.2) hvrest fun q hq i hi => by
      by_cases hqi : p.1 ≤ q.1 + i ∧ q.1 + i < p.1 + p.2.length
      · rw [hin _ hqi, hvrest q hq i hi, List.getElem?_eq_getElem hi]
        rfl
      · rw [hlookup, if_neg hqi]
        exact hmrest q hq i hi
    refine ⟨loaded, by rw [writeAll]; simp only [hcount, ne_eq, not_true_eq_false, if_false, hload],
      fun a => ?_⟩
    obtain ⟨hkeep, hwritten⟩ := hspec a
    by_cases ha : p.1 ≤ a ∧ a < p.1 + p.2.length
    · have hga : lookup loaded a = g a := by
        rcases hkeep with hkeep | hkeep
        · rw [hkeep, hin a ha]
        · exact hkeep
      exact ⟨Or.inr hga, fun _ => hga⟩
    · rw [hlookup, if_neg ha] at hkeep
      refine ⟨hkeep, ?_⟩
      rintro ⟨q, hq, hqa⟩
      rcases List.mem_cons.mp hq with rfl | hq
      · exact absurd hqa ha
      · exact hwritten ⟨q, hq, hqa⟩

theorem alignedRun_one {r : Nat × Nat} (h : r.1 < r.2) (h64 : r.2 ≤ 2 ^ 64) :
    alignedRun 1 r = some r := by
  obtain ⟨l, e⟩ := r
  simp only at h h64
  simp only [alignedRun, alignDown, alignUp, Nat.div_one, Nat.mul_one, Nat.add_sub_cancel]
  rcases Nat.lt_or_ge e (2 ^ 64) with he | he
  · rw [Nat.mod_eq_of_lt he, Nat.mod_eq_of_lt he, if_pos h]
  · have he' : e = 2 ^ 64 := by omega
    subst he'
    simp

theorem separated_lt {runs : Runs} (hs : Separated runs) : ∀ r ∈ runs, r.1 < r.2 := by
  induction runs with
  | nil => simp
  | cons r rest ih => exact List.forall_mem_cons.mpr ⟨hs.1, ih hs.2.2⟩

/-- Without alignment the new segments cover exactly the data of the records. -/
theorem createSegments_spec {placed : List (Nat × List Byte)} {alignment : Nat} (accessPerms : Nat)
    (halign : alignment ≤ 1) (hne : ∀ p ∈ placed, p.2 ≠ [])
    (hroom : ∀ p ∈ placed, p.1 + p.2.length ≤ 2 ^ 64) :
    ∃ segments, createSegments placed alignment accessPerms = some segments ∧
      (∀ s ∈ segments, s.isSealed = accessPerms.testBit 3) ∧
      ∀ a, (lookup segments a).isSome ↔ ∃ p ∈ placed, p.1 ≤ a ∧ a < p.1 + p.2.length := by
  have hfilter : (placed.filter fun p => p.2 ≠ []) = placed :=
    List.filter_eq_self.mpr fun p hp => by simpa using hne p hp
  obtain ⟨intervals, hintervals⟩ :
    ∃ intervals, placed.map (fun p => (p.1, p.1 + p.2.length)) = intervals := ⟨_, rfl⟩
  have hlt : ∀ r ∈ intervals, r.1 < r.2 := by
    rw [← hintervals]
    simp only [List.forall_mem_map]
    intro p hp
    have := List.length_pos_iff.mpr (hne p hp)
    omega
  obtain ⟨hsep, hcov⟩ := unionRuns_spec hlt
  have hcov' (a : Nat) : Covers (unionRuns intervals) a ↔
      ∃ p ∈ placed, p.1 ≤ a ∧ a < p.1 + p.2.length := by
    rw [hcov, ← hintervals]
    simp
  have halign' : (unionRuns intervals).mapM (alignedRun 1) = some (unionRuns intervals) := by
    have hall : ∀ r ∈ unionRuns intervals, alignedRun 1 r = some r := by
      intro r hr
      have hr' := separated_lt hsep r hr
      obtain ⟨p, hp, hpr⟩ := (hcov' (r.2 - 1)).mp ⟨r, hr, by omega, by omega⟩
      have := hroom p hp
      exact alignedRun_one hr' (by omega)
    generalize unionRuns intervals = runs at hall
    induction runs with
    | nil => rfl
    | cons r rest ih =>
      obtain ⟨hr, hrest⟩ := List.forall_mem_cons.mp hall
      simp [hr, ih hrest]
  obtain ⟨hsep', hcov''⟩ := unionRuns_spec (separated_lt hsep)
  have hmax : max alignment 1 = 1 := by omega
  refine ⟨(unionRuns (unionRuns intervals)).map (anonymousSegment accessPerms), ?_, ?_, fun a => ?_⟩
  · simp only [createSegments, dataAddresses, if_pos hroom, hfilter, hintervals, hmax,
      Option.bind_eq_bind, Option.bind_some, halign']
    rfl
  · simp only [List.forall_mem_map]
    exact fun r _ => rfl
  · rw [lookup_anonymous hsep', hcov'', ← hcov']
    rfl

/-- The map's records print, and loading them into an empty map gives the map's bytes. -/
def Restored (map : MemoryMap) (family : Syntax)
    (bytesPerRecord preferredAddrSize alignment accessPerms : Nat) : Prop :=
  ∃ srecs, create map family bytesPerRecord preferredAddrSize = some srecs ∧
    (∀ r ∈ srecs, r.Prints) ∧
    ∃ loaded va, load srecs alignment accessPerms = some (loaded, va) ∧
      ∀ a, lookup loaded a = map.byte a

/-- Motorola: no record of the greatest size comes up. Intel: the first byte is in the first 64
KiB. -/
def Dumpable (map : MemoryMap) (family : Syntax) (bytesPerRecord preferredAddrSize : Nat) : Prop :=
  match family with
  | .motorola =>
    let most := 255 - addressNBytes (dataRecordType family preferredAddrSize)
    (∃ a, ∀ i < most, (map.byte (a + i)).isSome) → bytesPerRecord < most
  | _ => (∃ a, (map.byte a).isSome) → ∃ a, a ≤ 0xffff ∧ (map.byte a).isSome

theorem load_spec {map : MemoryMap} {limit : Nat} {srecs : List Record}
    {placed : List (Nat × List Byte)} {last : RunLengthEncoding} {alignment accessPerms : Nat}
    (h0 : 0 < limit) (hscan : RunLengthEncoding.scan {} srecs = some (placed, last))
    (htiles : Tiles map.byte limit 0 placed) (halign : alignment ≤ 1)
    (hperms : accessPerms.testBit 3 = false) :
    ∃ loaded, load srecs alignment accessPerms = some (loaded, last.executionVa) ∧
      ∀ a, lookup loaded a = map.byte a := by
  have hroom : ∀ p ∈ placed, p.1 + p.2.length ≤ 2 ^ 64 := by
    intro p hp
    have hpos := List.length_pos_iff.mpr (htiles.nonempty h0 hp)
    by_contra hgt
    have hval := htiles.value hp (by omega : p.2.length - 1 < p.2.length)
    have hstop : map.hullStop ≤ p.1 + (p.2.length - 1) := by
      rcases hl : map.segments.getLast? with _ | s
      · simp [MemoryMap.hullStop, hl]
      · have hs := map.bounded s (List.mem_of_getLast? hl)
        simp only [MemoryMap.hullStop, hl, Option.map_some, Option.getD_some]
        omega
    rw [map.byte_none hstop, List.getElem?_eq_getElem (by omega)] at hval
    cases hval
  obtain ⟨segments, hcreate, hopen, hcover⟩ :=
    createSegments_spec accessPerms halign (fun p hp => htiles.nonempty h0 hp) hroom
  rw [hperms] at hopen
  obtain ⟨loaded, hload, hspec⟩ := writeAll_spec hopen (fun p hp i hi => htiles.value hp hi)
    (fun p hp i hi => (hcover _).mpr ⟨p, hp, by omega, by omega⟩)
  refine ⟨loaded, by simp [load, hscan, hcreate, hload], fun a => ?_⟩
  obtain ⟨hkeep, hwritten⟩ := hspec a
  by_cases hin : ∃ p ∈ placed, p.1 ≤ a ∧ a < p.1 + p.2.length
  · exact hwritten hin
  · have hnone : lookup segments a = none := by
      rwa [← hcover, Option.not_isSome_iff_eq_none] at hin
    have hbyte : map.byte a = none := by
      rwa [← htiles.mapped_iff (Nat.zero_le a), Option.not_isSome_iff_eq_none] at hin
    rcases hkeep with hkeep | hkeep
    · rw [hkeep, hnone, hbyte]
    · exact hkeep

theorem printable_iff {map : MemoryMap} {family : Syntax} {bytesPerRecord preferredAddrSize : Nat}
    {placed : List (Nat × List Byte)} (hfam : family ≠ .unknown) (h0 : 0 < bytesPerRecord)
    (htiles : Tiles map.byte (recordLimit family bytesPerRecord preferredAddrSize) 0 placed) :
    Printable family preferredAddrSize {} placed ↔
      Dumpable map family bytesPerRecord preferredAddrSize := by
  cases family with
  | motorola =>
    have hle := addressNBytes_le (dataRecordType .motorola preferredAddrSize)
    simp only [recordLimit] at htiles
    simp only [Printable, Dumpable]
    generalize addressNBytes (dataRecordType .motorola preferredAddrSize) = n at *
    have hlen : ∀ p ∈ placed, p.2.length ≤ min bytesPerRecord (255 - n) := fun p hp => by
      rw [(htiles.mem hp).1]
      exact length_run_le _ _ _
    rcases Nat.lt_or_ge bytesPerRecord (255 - n) with hlt | hge
    · refine ⟨fun _ _ => hlt, fun _ p hp => ?_⟩
      have := hlen p hp
      omega
    · have hmin : min bytesPerRecord (255 - n) = 255 - n := by omega
      rw [hmin] at htiles hlen
      have hfull := htiles.full_iff (by omega)
      constructor
      · rintro hall ⟨a, ha⟩
        obtain ⟨p, hp, hpl⟩ := hfull.mpr ⟨a, Nat.zero_le a, ha⟩
        have := hall p hp
        omega
      · intro hcond p hp
        by_contra hbig
        have := hlen p hp
        obtain ⟨a, -, ha⟩ := hfull.mp ⟨p, hp, by omega⟩
        have := hcond ⟨a, ha⟩
        omega
  | intel =>
    have hhead := htiles.head_le_iff 0xffff
    simp only [Nat.zero_le, true_and] at hhead
    simp only [Printable, forall_const]
    exact hhead
  | unknown => exact absurd rfl hfam

/-- A dump restores the memory exactly when its records have room for their fields. -/
theorem restored_iff {map : MemoryMap} {family : Syntax}
    {bytesPerRecord preferredAddrSize alignment accessPerms : Nat} (hfam : family ≠ .unknown)
    (h0 : 0 < bytesPerRecord) (h255 : bytesPerRecord ≤ 255)
    (hexp : ∀ a, (map.byte a).isSome → a < addressLimit family preferredAddrSize)
    (halign : alignment ≤ 1) (hperms : accessPerms.testBit 3 = false) :
    Restored map family bytesPerRecord preferredAddrSize alignment accessPerms ↔
      Dumpable map family bytesPerRecord preferredAddrSize := by
  have hle := addressNBytes_le (dataRecordType family preferredAddrSize)
  have hlimit : 0 < recordLimit family bytesPerRecord preferredAddrSize ∧
      recordLimit family bytesPerRecord preferredAddrSize ≤ 255 := by
    cases family <;> simp only [recordLimit] <;> omega
  have hready : Ready family {} 0 := by
    cases family with
    | motorola => trivial
    | intel => exact ⟨Nat.le_refl 0, fun _ => rfl⟩
    | unknown => exact absurd rfl hfam
  obtain ⟨srecs, placed, last, hcreate, hscan, htiles, hprint⟩ :=
    createLoop_spec hfam hlimit.1 hlimit.2 hexp hready
      (by omega : map.hullStop < map.hullStop + 1 + 0)
  have hcreate' : create map family bytesPerRecord preferredAddrSize = some srecs := by
    rw [create, if_neg (by omega), hcreate]
  obtain ⟨loaded, hload, hbytes⟩ := load_spec hlimit.1 hscan htiles halign hperms
  rw [← printable_iff hfam h0 htiles, ← hprint]
  constructor
  · rintro ⟨srecs', hcreated, hprints, -⟩
    rw [hcreate'] at hcreated
    cases hcreated
    exact hprints
  · intro hprints
    exact ⟨srecs, hcreate', hprints, loaded, _, hload, hbytes⟩

/-- A map of one segment that cannot be split. -/
def singleMap (least : Nat) (values : List Byte) (hne : values ≠ [])
    (h64 : least + values.length ≤ 2 ^ 64) : MemoryMap where
  segments := [⟨least, values, false⟩]
  ordered := List.pairwise_singleton _ _
  nonempty := by simpa using hne
  bounded := by simpa [Segment.stop] using h64

theorem restored_iff_single :
    Restored (singleMap 0xfff8 [1, 2, 3] (by decide) (by decide)) .intel 28 4 0 7 ↔
      Dumpable (singleMap 0xfff8 [1, 2, 3] (by decide) (by decide)) .intel 28 4 := by
  refine restored_iff (by decide) (by decide) (by decide) (fun a ha => ?_) (by decide) (by decide)
  by_contra hge
  rw [MemoryMap.byte_none] at ha
  · cases ha
  · have hstop : (singleMap 0xfff8 [1, 2, 3] (by decide) (by decide)).hullStop = 0xfffb := rfl
    simp only [addressLimit] at hge
    omega

/-- The first Intel record gets the zero extended address although its own is beyond 64 KiB. -/
theorem not_restored :
    ¬ Restored (singleMap 0x10000 [0x90] (by decide) (by decide)) .intel 28 4 1 7 := by
  rintro ⟨srecs, hcreate, hprints, -⟩
  have hsrecs : create (singleMap 0x10000 [0x90] (by decide) (by decide)) .intel 28 4 =
      some [extendedLA [0, 0], ⟨.iData, 0x10000, [0x90], ""⟩] := by decide +kernel
  rw [hsrecs] at hcreate
  cases hcreate
  obtain ⟨line, hline⟩ := hprints ⟨.iData, 0x10000, [0x90], ""⟩ (by simp)
  have hfail : (⟨.iData, 0x10000, [0x90], ""⟩ : Record).toString =
      .error (.exception "S-Record address is too large") := by decide +kernel
  rw [hfail] at hline
  cases hline

end LoomX.SRecord
