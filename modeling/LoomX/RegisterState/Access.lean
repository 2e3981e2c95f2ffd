import LoomX.RegisterState.BitStore

namespace LoomX.RegisterState

variable {S β : Type} {V : SemanticValues S β}

section

variable {parts rest : RegPairs S} {p : RegPair S} {reg : RegisterDescriptor} {k : Nat}

theorem exists_mem_of_bitsAt {b : β} (h : b ∈ bitsAt V parts k) :
    ∃ q ∈ parts, q.bitAt V k = some b :=
  List.mem_filterMap.mp h

/-- The first of the parts that tile a range begins it. -/
theorem tile_head (hwf : ∀ q ∈ p :: rest, q.WellFormed V)
    (hsorted : (p :: rest).Pairwise fun a b => a.desc.offset ≤ b.desc.offset) {s e : Nat} {f : Nat → β}
    (hbits : ∀ k, bitsAt V (p :: rest) k = if s ≤ k ∧ k < e then [f k] else []) :
    p.desc.offset = s ∧ s + p.desc.nBits ≤ e ∧
      (∀ i, i < p.desc.nBits → V.bit p.value i = f (s + i)) ∧
      ∀ k, bitsAt V rest k = if s + p.desc.nBits ≤ k ∧ k < e then [f k] else [] := by
  obtain ⟨hpos, hwidth⟩ := hwf p (by simp)
  have hown : ∀ k, p.desc.offset ≤ k → k < p.desc.offset + p.desc.nBits →
      s ≤ k ∧ k < e ∧ V.bit p.value (k - p.desc.offset) = f k ∧ bitsAt V rest k = [] := by
    intro k hle hlt
    have hk := hbits k
    rw [bitsAt_cons, RegPair.bitAt_eq, if_pos ⟨hle, hlt⟩] at hk
    split at hk
    next hin =>
      obtain ⟨hbit, hnil⟩ := List.cons.inj hk
      exact ⟨hin.1, hin.2, hbit, hnil⟩
    next => simp at hk
  have hfirst := hown p.desc.offset le_rfl (by omega)
  have hoffset : p.desc.offset = s := by
    have hmem : f s ∈ bitsAt V (p :: rest) s := by
      rw [hbits, if_pos ⟨le_rfl, by omega⟩]
      exact List.mem_singleton_self _
    obtain ⟨q, hq, hqs⟩ := exists_mem_of_bitsAt hmem
    rw [RegPair.bitAt_eq] at hqs
    have hqle : q.desc.offset ≤ s := by
      by_contra hlt
      rw [if_neg (by omega)] at hqs
      simp at hqs
    have hpq : p.desc.offset ≤ q.desc.offset := by
      rcases List.mem_cons.mp hq with rfl | hq
      · exact le_rfl
      · exact (List.pairwise_cons.mp hsorted).1 q hq
    omega
  have hlast := hown (p.desc.offset + p.desc.nBits - 1) (by omega) (by omega)
  refine ⟨hoffset, by omega, fun i hi => ?_, fun k => ?_⟩
  · have hbit := (hown (p.desc.offset + i) (by omega) (by omega)).2.2.1
    rw [hoffset, Nat.add_sub_cancel_left] at hbit
    exact hbit
  · have hk := hbits k
    rw [bitsAt_cons, RegPair.bitAt_eq] at hk
    by_cases hin : p.desc.offset ≤ k ∧ k < p.desc.offset + p.desc.nBits
    · rw [(hown k hin.1 hin.2).2.2.2, if_neg (by omega)]
    · rw [if_neg hin, Option.toList_none, List.nil_append] at hk
      rw [hk]
      exact if_congr (by omega) rfl rfl

/-- Concatenating the parts that tile a range gives its bits in order. -/
theorem foldl_concat_tile {s e : Nat} {f : Nat → β} (acc : S)
    (hwf : ∀ q ∈ rest, q.WellFormed V)
    (hsorted : rest.Pairwise fun a b => a.desc.offset ≤ b.desc.offset)
    (hlen : s + V.nBits acc ≤ e) (hacc : ∀ i, i < V.nBits acc → V.bit acc i = f (s + i))
    (hbits : ∀ k, bitsAt V rest k = if s + V.nBits acc ≤ k ∧ k < e then [f k] else []) :
    s + V.nBits (rest.foldl (fun retval q => V.concat retval q.value) acc) = e ∧
      ∀ i, s + i < e →
        V.bit (rest.foldl (fun retval q => V.concat retval q.value) acc) i = f (s + i) := by
  induction rest generalizing acc with
  | nil =>
    have hend : s + V.nBits acc = e := by
      by_contra hne
      have hk := hbits (s + V.nBits acc)
      rw [if_pos (by omega)] at hk
      simp at hk
    exact ⟨hend, fun i hi => hacc i (by omega)⟩
  | cons p rest ih =>
    obtain ⟨-, hle, hbit, hrest⟩ := tile_head hwf hsorted hbits
    have hwidth := (hwf p (by simp)).2
    have hnBits := V.nBits_concat acc p.value
    rw [List.foldl_cons]
    refine ih _ (fun q hq => hwf q (by simp [hq])) (List.pairwise_cons.mp hsorted).2 (by omega)
      (fun i hi => ?_) fun k => ?_
    · rw [V.bit_concat _ _ _ (by omega)]
      split
      next hlt => exact hacc i hlt
      next hge =>
        rw [hbit _ (by omega)]
        congr 1
        omega
    · rw [hrest]
      exact if_congr (by omega) rfl rfl

theorem sortByOffset_perm (parts : RegPairs S) : (sortByOffset parts).Perm parts :=
  List.perm_insertionSort _ _

theorem sortByOffset_pairwise (parts : RegPairs S) :
    (sortByOffset parts).Pairwise fun a b => a.desc.offset ≤ b.desc.offset := by
  have htotal : Std.Total fun a b : RegPair S => a.desc.offset ≤ b.desc.offset :=
    ⟨fun a b => le_total _ _⟩
  have htrans : IsTrans (RegPair S) fun a b => a.desc.offset ≤ b.desc.offset :=
    ⟨fun a b c => le_trans⟩
  exact List.pairwise_insertionSort _ parts

/-- The concatenated parts of a register hold its bits. -/
theorem concatParts_spec (dflt : S) (hwf : ∀ q ∈ parts, q.WellFormed V) (hreg : 0 < reg.nBits)
    {f : Nat → β} (hbits : ∀ k, bitsAt V parts k = if k ∈ reg.location then [f k] else []) :
    V.nBits (concatParts V dflt parts) = reg.nBits ∧
      ∀ i, i < reg.nBits → V.bit (concatParts V dflt parts) i = f (reg.offset + i) := by
  have hsorted := sortByOffset_pairwise parts
  have hperm := sortByOffset_perm parts
  have hwf' : ∀ q ∈ sortByOffset parts, q.WellFormed V := fun q hq => hwf q (hperm.mem_iff.mp hq)
  have hbits' : ∀ k, bitsAt V (sortByOffset parts) k =
      if reg.offset ≤ k ∧ k < reg.offset + reg.nBits then [f k] else [] := by
    intro k
    have hk := bitsAt_perm (V := V) (k := k) hperm
    rw [hbits] at hk
    simp only [RegisterDescriptor.location, Interval.mem_baseSize] at hk
    split
    next hin =>
      rw [if_pos hin] at hk
      exact List.perm_singleton.mp hk
    next hout =>
      rw [if_neg hout] at hk
      exact List.perm_nil.mp hk
  rw [concatParts]
  generalize sortByOffset parts = sorted at hsorted hwf' hbits'
  cases sorted with
  | nil =>
    have hk := hbits' reg.offset
    rw [if_pos (by omega)] at hk
    simp at hk
  | cons p rest =>
    obtain ⟨-, hle, hbit, hrest⟩ := tile_head hwf' hsorted hbits'
    have hwidth := (hwf' p (by simp)).2
    obtain ⟨hlen, hall⟩ := foldl_concat_tile (s := reg.offset)
      (e := reg.offset + reg.nBits) p.value (fun q hq => hwf' q (by simp [hq])) (List.pairwise_cons.mp hsorted).2 (by omega)
      (fun i hi => hbit i (by omega)) (fun k => by rw [hrest, hwidth])
    dsimp only
    exact ⟨by omega, fun i hi => hall i (by omega)⟩

/-- Combining contiguous parts keeps every bit where it is. -/
theorem combineContiguous_spec (hwf : ∀ q ∈ parts, q.WellFormed V) :
    (∀ q ∈ combineContiguous V parts, q.WellFormed V) ∧
      ∀ k, bitsAt V (combineContiguous V parts) k = bitsAt V parts k := by
  induction parts using combineContiguous.induct V with
  | case1 => simp [combineContiguous]
  | case2 part =>
    rw [combineContiguous]
    exact ⟨hwf, fun k => rfl⟩
  | case3 part next rest heq ih =>
    obtain ⟨hpos, hwidth⟩ := hwf part (by simp)
    obtain ⟨hpos', hwidth'⟩ := hwf next (by simp)
    obtain ⟨hall, hsame⟩ := ih (List.forall_mem_cons.mpr ⟨⟨by
        simp only [RegisterDescriptor.part]
        omega, by
        rw [V.nBits_concat, hwidth, hwidth']
        rfl⟩, fun q hq => hwf q (by simp [hq])⟩)
    rw [combineContiguous, if_pos heq]
    refine ⟨hall, fun k => ?_⟩
    rw [hsame, bitsAt_cons, bitsAt_cons, bitsAt_cons, ← List.append_assoc]
    congr 1
    simp only [RegPair.bitAt_eq, RegisterDescriptor.part]
    by_cases hk : part.desc.offset ≤ k ∧ k < part.desc.offset + (part.desc.nBits + next.desc.nBits)
    · rw [if_pos hk, V.bit_concat _ _ _ (by omega)]
      by_cases hlt : k < part.desc.offset + part.desc.nBits
      · rw [if_pos (by omega), if_pos (by omega), if_neg (by omega)]
        rfl
      · rw [if_neg (by omega), if_neg (by omega), if_pos (by omega)]
        have hindex : k - part.desc.offset - V.nBits part.value = k - next.desc.offset := by omega
        rw [hindex]
        rfl
    · rw [if_neg hk, if_neg (by omega), if_neg (by omega)]
      rfl
  | case4 part next rest hne ih =>
    obtain ⟨hall, hsame⟩ := ih fun q hq => hwf q (by simp [hq])
    rw [combineContiguous, if_neg hne]
    refine ⟨List.forall_mem_cons.mpr ⟨hwf part (by simp), hall⟩, fun k => ?_⟩
    rw [bitsAt_cons, bitsAt_cons, hsame]

/-- The low bits of a location, followed by the bits written over it. -/
theorem overwrite_low (v value : S) {mid : S} {s a b o : Nat} (hs : s ≤ a) (ho : o ≤ a) (hab : a ≤ b)
    (hv : a - s ≤ V.nBits v) (hvalue : b < o + V.nBits value)
    (hmid : mid = V.extract value (a - o) (a - o + (b + 1 - a))) :
    V.nBits (if s < a then V.concat (V.unsignedExtend v (a - s)) mid else mid) = b + 1 - s ∧
      ∀ i, i < b + 1 - s →
        V.bit (if s < a then V.concat (V.unsignedExtend v (a - s)) mid else mid) i =
          if s + i < a then V.bit v i else V.bit value (s + i - o) := by
  have hwidth : V.nBits mid = b + 1 - a := by
    rw [hmid, V.nBits_extract _ _ _ (by omega) (by omega)]
    omega
  have hbit : ∀ i, i < b + 1 - a → V.bit mid i = V.bit value (a - o + i) := by
    intro i hi
    rw [hmid, V.bit_extract _ _ _ _ (by omega) (by omega)]
  by_cases hlt : s < a
  · have hlow := V.nBits_unsignedExtend v (a - s)
    rw [if_pos hlt, V.nBits_concat, hlow, hwidth]
    refine ⟨by omega, fun i hi => ?_⟩
    rw [V.bit_concat _ _ _ (by omega), hlow]
    by_cases hia : i < a - s
    · rw [if_pos hia, if_pos (by omega), V.bit_unsignedExtend _ _ _ hv hia]
    · rw [if_neg hia, if_neg (by omega), hbit _ (by omega)]
      congr 1
      omega
  · rw [if_neg hlt, hwidth]
    refine ⟨by omega, fun i hi => ?_⟩
    rw [if_neg (by omega), hbit i (by omega)]
    congr 1
    omega

/-- What was there above the bits written is put on top of them. -/
theorem overwrite_high {v w : S} {s n b : Nat} (hn : V.nBits v = n) (hb : s ≤ b)
    (hbn : b ≤ s + n - 1) (hpos : 0 < n) (hw : V.nBits w = b + 1 - s) :
    V.nBits (if b < s + n - 1 then V.concat w
        (V.extract v (b + 1 - s) (b + 1 - s + (s + n - 1 - b))) else w) = n ∧
      ∀ i, i < n → V.bit (if b < s + n - 1 then V.concat w
          (V.extract v (b + 1 - s) (b + 1 - s + (s + n - 1 - b))) else w) i =
        if s + i ≤ b then V.bit w i else V.bit v i := by
  by_cases hlt : b < s + n - 1
  · have hhigh := V.nBits_extract v (b + 1 - s) (b + 1 - s + (s + n - 1 - b)) (by omega) (by omega)
    rw [if_pos hlt, V.nBits_concat, hw, hhigh]
    refine ⟨by omega, fun i hi => ?_⟩
    rw [V.bit_concat _ _ _ (by omega), hw]
    by_cases hib : i < b + 1 - s
    · rw [if_pos hib, if_pos (by omega)]
    · rw [if_neg hib, if_neg (by omega), V.bit_extract _ _ _ _ (by omega) (by omega)]
      congr 1
      omega
  · rw [if_neg hlt]
    exact ⟨by omega, fun i hi => (if_pos (by omega)).symm⟩

/-- Overwriting a location in place changes its bits in the register. -/
theorem overwriteLocation_spec (h : p.WellFormed V) {value : S} (hvalue : V.nBits value = reg.nBits) :
    (overwriteLocation V reg value p).WellFormed V ∧
      ∀ k, (overwriteLocation V reg value p).bitAt V k = if k ∈ reg.location then
        (p.bitAt V k).map fun _ => V.bit value (k - reg.offset) else p.bitAt V k := by
  have hlocation := RegPair.location_eq h
  by_cases hempty : (p.location.intersection reg.location).isEmpty = true
  · simp only [overwriteLocation, hempty, if_true]
    refine ⟨h, fun k => ?_⟩
    split
    next hk =>
      have hp : k ∉ p.location := fun hp => Interval.overlap_isEmpty.mp hempty k ⟨hp, hk⟩
      rw [RegPair.bitAt, if_neg hp]
      rfl
    next => rfl
  · have hoverlap := Interval.not_isEmpty.mp hempty
    have hreg : reg.nBits ≠ 0 := by
      intro hzero
      have hloc : reg.location = ⟨1, 0⟩ := by
        rw [RegisterDescriptor.location, Interval.baseSize, if_pos hzero]
      rw [hloc] at hoverlap
      dsimp only at hoverlap
      omega
    have hregloc : reg.location = ⟨reg.offset, reg.offset + reg.nBits - 1⟩ := by
      rw [RegisterDescriptor.location, Interval.baseSize, if_neg hreg]
    obtain ⟨hpos, hwidth⟩ := h
    rw [hlocation, hregloc] at hoverlap
    dsimp only at hoverlap
    obtain ⟨a, ha⟩ : ∃ a, a = max p.desc.offset reg.offset := ⟨_, rfl⟩
    obtain ⟨b, hb⟩ : ∃ b, b = min (p.desc.offset + p.desc.nBits - 1) (reg.offset + reg.nBits - 1) :=
      ⟨_, rfl⟩
    rw [← ha, ← hb] at hoverlap
    simp only [overwriteLocation, hempty, if_false, Bool.false_eq_true]
    simp only [hlocation, hregloc, Interval.intersection, Interval.size, ← ha, ← hb]
    obtain ⟨hlowWidth, hlow⟩ := overwrite_low (V := V) p.value value (s := p.desc.offset)
      (a := a) (b := b) (o := reg.offset) (by omega) (by omega) hoverlap (by omega) (by omega) rfl
    obtain ⟨hallWidth, hall⟩ := overwrite_high (s := p.desc.offset) (b := b) hwidth (by omega)
      (by omega) hpos hlowWidth
    refine ⟨⟨hpos, hallWidth⟩, fun k => ?_⟩
    simp only [RegPair.bitAt_eq, Interval.mem_iff]
    by_cases hk : p.desc.offset ≤ k ∧ k < p.desc.offset + p.desc.nBits
    · rw [if_pos hk, if_pos hk, hall _ (by omega)]
      by_cases hkb : k ≤ b
      · rw [if_pos (by omega), hlow _ (by omega)]
        by_cases hka : k < a
        · rw [if_pos (by omega), if_neg (by omega)]
        · rw [if_neg (by omega), if_pos (by omega)]
          have hindex : p.desc.offset + (k - p.desc.offset) - reg.offset = k - reg.offset := by omega
          rw [hindex]
          rfl
      · rw [if_neg (by omega), if_neg (by omega)]
    · rw [if_neg hk, if_neg hk]
      split <;> rfl

/-- The bits found for a register are those its stored locations hold. -/
theorem nBitsFound_eq (hwf : ∀ q ∈ parts, q.WellFormed V) :
    (parts.map fun regpair => (regpair.location.intersection reg.location).size).sum =
      ∑ k ∈ Finset.Ico reg.offset (reg.offset + reg.nBits), (bitsAt V parts k).length := by
  induction parts with
  | nil => simp
  | cons p parts ih =>
    have hp := hwf p (by simp)
    have hone : (p.location.intersection reg.location).size =
        ∑ k ∈ Finset.Ico reg.offset (reg.offset + reg.nBits), (p.bitAt V k).toList.length := by
      have hlength : ∀ k, (p.bitAt V k).toList.length =
          if p.desc.offset ≤ k ∧ k < p.desc.offset + p.desc.nBits then 1 else 0 := by
        intro k
        rw [RegPair.bitAt_eq]
        split <;> rfl
      have hpos := hp.1
      simp only [hlength]
      rw [Finset.sum_boole, RegPair.location_eq hp, RegisterDescriptor.location, Interval.baseSize]
      have hfilter : (Finset.Ico reg.offset (reg.offset + reg.nBits)).filter (fun k =>
          p.desc.offset ≤ k ∧ k < p.desc.offset + p.desc.nBits) =
          Finset.Ico (max p.desc.offset reg.offset)
            (min (p.desc.offset + p.desc.nBits) (reg.offset + reg.nBits)) := by
        ext k
        simp only [Finset.mem_filter, Finset.mem_Ico]
        omega
      rw [hfilter, Nat.card_Ico]
      split
      next => simp only [Interval.size, Interval.intersection, Nat.cast_id]; omega
      next => simp only [Interval.size, Interval.intersection, Nat.cast_id]; omega
    rw [List.map_cons, List.sum_cons, ih fun q hq => hwf q (by simp [hq]), hone,
      ← Finset.sum_add_distrib]
    refine Finset.sum_congr rfl fun k _ => ?_
    rw [bitsAt_cons, List.length_append]

end

end LoomX.RegisterState
