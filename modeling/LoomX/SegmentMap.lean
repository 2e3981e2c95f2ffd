import Mathlib.Data.List.Basic

namespace LoomX

variable {α : Type*}

/-- Values at consecutive addresses; a sealed segment cannot be written. -/
structure Segment (α : Type*) where
  least : Nat
  values : List α
  isSealed : Bool

namespace Segment

def stop (s : Segment α) : Nat := s.least + s.values.length

def read (s : Segment α) (a : Nat) : Option α :=
  if s.least ≤ a then s.values[a - s.least]? else none

theorem read_isSome {s : Segment α} {a : Nat} (ha : a < s.stop) :
    (s.read a).isSome = decide (s.least ≤ a) := by
  unfold stop at ha
  by_cases h : s.least ≤ a
  · have hlt : a - s.least < s.values.length := by omega
    simp [read, h, hlt]
  · simp [read, h]

/-- The values from `a` on are replaced as far as they reach. -/
def overwrite (s : Segment α) (a : Nat) (data : List α) : Segment α :=
  { s with values := s.values.take (a - s.least) ++ data ++
      s.values.drop (a - s.least + data.length) }

theorem stop_overwrite {s : Segment α} {a : Nat} {data : List α} (h : s.least ≤ a)
    (hdata : a + data.length ≤ s.stop) : (s.overwrite a data).stop = s.stop := by
  simp only [stop, overwrite, List.length_append, List.length_take, List.length_drop] at hdata ⊢
  omega

theorem read_overwrite {s : Segment α} {a b : Nat} {data : List α} (h : s.least ≤ a)
    (hdata : a + data.length ≤ s.stop) :
    (s.overwrite a data).read b =
      if a ≤ b ∧ b < a + data.length then data[b - a]? else s.read b := by
  unfold stop at hdata
  have htake : (s.values.take (a - s.least)).length = a - s.least := by
    rw [List.length_take]
    omega
  by_cases hb : s.least ≤ b
  · simp only [read, overwrite, hb, if_true]
    split
    next hin =>
      rw [List.getElem?_append_left (by simp only [List.length_append, htake]; omega),
        List.getElem?_append_right (by omega), htake]
      congr 1
      omega
    next hout =>
      rcases Nat.lt_or_ge b a with hba | hba
      · rw [List.append_assoc, List.getElem?_append_left (by omega), List.getElem?_take,
          if_pos (by omega)]
      · rw [List.getElem?_append_right (by simp only [List.length_append, htake]; omega),
          List.getElem?_drop]
        congr 1
        simp only [List.length_append, htake]
        omega
  · rw [if_neg (by omega)]
    simp [read, overwrite, hb]

end Segment

/-- Segments of an address space, in address order and without overlap. -/
structure SegmentMap (α : Type*) where
  segments : List (Segment α)
  ordered : segments.Pairwise fun s t => s.stop ≤ t.least
  nonempty : ∀ s ∈ segments, s.values ≠ []

namespace SegmentMap

/-- The value at an address is looked up in the first segment that ends beyond it. -/
def lookup : List (Segment α) → Nat → Option α
  | [], _ => none
  | s :: rest, a => if a < s.stop then s.read a else lookup rest a

/-- The values of the addresses from `a` on, up to `n` of them or a gap. -/
def run (g : Nat → Option α) (a : Nat) : Nat → List α
  | 0 => []
  | n + 1 =>
    match g a with
    | none => []
    | some v => v :: run g (a + 1) n

theorem length_run_le (g : Nat → Option α) (a n : Nat) : (run g a n).length ≤ n := by
  induction n generalizing a with
  | zero => simp [run]
  | succ n ih =>
    cases hg : g a with
    | none => simp [run, hg]
    | some v => simpa [run, hg] using ih (a + 1)

theorem run_getElem {g : Nat → Option α} {a n i : Nat} (hi : i < (run g a n).length) :
    g (a + i) = (run g a n)[i]? := by
  induction n generalizing a i with
  | zero => simp [run] at hi
  | succ n ih =>
    cases hg : g a with
    | none => simp [run, hg] at hi
    | some v =>
      cases i with
      | zero => simp [run, hg]
      | succ i =>
        simp only [run, hg, List.length_cons, Nat.add_lt_add_iff_right] at hi
        simpa [run, hg, Nat.add_assoc, Nat.add_comm 1 i] using ih hi

/-- A run that is shorter than asked for stops at a gap. -/
theorem run_stops {g : Nat → Option α} {a n : Nat} (h : (run g a n).length < n) :
    g (a + (run g a n).length) = none := by
  induction n generalizing a with
  | zero => omega
  | succ n ih =>
    cases hg : g a with
    | none => simp [run, hg]
    | some v =>
      simp only [run, hg, List.length_cons, Nat.add_lt_add_iff_right] at h
      simpa [run, hg, Nat.add_assoc, Nat.add_comm 1] using ih h

theorem run_eq_nil {g : Nat → Option α} {a : Nat} (h : g a = none) (n : Nat) : run g a n = [] := by
  cases n with
  | zero => rfl
  | succ n => simp [run, h]

theorem run_congr {g g' : Nat → Option α} {a n : Nat} (h : ∀ b, a ≤ b → g b = g' b) :
    run g a n = run g' a n := by
  induction n generalizing a with
  | zero => rfl
  | succ n ih =>
    rw [run, run, h a (Nat.le_refl a), ih fun b hb => h b (by omega)]

theorem run_append {g : Nat → Option α} {a : Nat} {vs : List α} {n : Nat} (hn : vs.length ≤ n)
    (h : ∀ i < vs.length, g (a + i) = vs[i]?) :
    run g a n = vs ++ run g (a + vs.length) (n - vs.length) := by
  induction vs generalizing a n with
  | nil => simp
  | cons v vs ih =>
    rw [List.length_cons] at hn
    obtain ⟨n, rfl⟩ : ∃ m, n = m + 1 := ⟨n - 1, by omega⟩
    have h0 : g a = some v := by simpa using h 0 (by simp)
    have hrest (i : Nat) (hi : i < vs.length) : g (a + 1 + i) = vs[i]? := by
      simpa [Nat.add_assoc, Nat.add_comm 1 i] using h (i + 1) (by simpa using hi)
    rw [run, h0, List.cons_append]
    simp only [List.length_cons, Nat.add_sub_add_right]
    rw [ih (by omega) hrest, Nat.add_assoc, Nat.add_comm 1]

/-- `at (a).limit (n).read ()`, which crosses from a segment to the one right behind it. -/
def readAt : List (Segment α) → Nat → Nat → List α
  | [], _, _ => []
  | s :: rest, a, n =>
    if a < s.stop then
      if s.least ≤ a then
        let here := (s.values.drop (a - s.least)).take n
        here ++ readAt rest s.stop (n - here.length)
      else []
    else readAt rest a n

theorem readAt_eq_run (segments : List (Segment α)) (a n : Nat) :
    readAt segments a n = run (lookup segments) a n := by
  induction segments generalizing a n with
  | nil => exact (run_eq_nil rfl n).symm
  | cons s rest ih =>
    have hbehind (b : Nat) (hb : s.stop ≤ b) : lookup rest b = lookup (s :: rest) b := by
      rw [lookup, if_neg (by omega)]
    rw [readAt]
    split
    next hlt =>
      split
      next hle =>
        have hstop : s.stop = s.least + s.values.length := rfl
        obtain ⟨here, hhere⟩ : ∃ here, (s.values.drop (a - s.least)).take n = here := ⟨_, rfl⟩
        have hlen : here.length = min n (s.stop - a) := by
          rw [← hhere, List.length_take, List.length_drop]
          omega
        have hget (i : Nat) (hi : i < here.length) : lookup (s :: rest) (a + i) = here[i]? := by
          rw [lookup, if_pos (by omega), Segment.read, if_pos (by omega), ← hhere,
            List.getElem?_take, if_pos (by omega), List.getElem?_drop]
          congr 1
          omega
        simp only [hhere, ih]
        rw [run_append (by omega) hget]
        congr 1
        by_cases hfull : n ≤ s.stop - a
        · rw [show n - here.length = 0 by omega]
          rfl
        · rw [run_congr fun b hb => hbehind b hb]
          congr 1
          omega
      next hgt =>
        exact (run_eq_nil (by rw [lookup, if_pos hlt, Segment.read, if_neg hgt]) n).symm
    next hge =>
      rw [ih, run_congr fun b hb => hbehind b (by omega)]

/-- `atOrAfter (a).next ()`. -/
def nextFrom (segments : List (Segment α)) (a : Nat) : Option Nat :=
  (segments.find? fun s => a < s.stop).map fun s => max a s.least

theorem nextFrom_none {segments : List (Segment α)} {a : Nat} (h : nextFrom segments a = none)
    {b : Nat} (hb : a ≤ b) : lookup segments b = none := by
  induction segments with
  | nil => rfl
  | cons s rest ih =>
    simp only [nextFrom, Option.map_eq_none_iff, List.find?_eq_none, List.mem_cons,
      forall_eq_or_imp, decide_eq_true_eq] at h ih
    rw [lookup, if_neg (by omega), ih h.2]

/-- The next mapped address is mapped, and nothing before it is. -/
theorem nextFrom_some {segments : List (Segment α)} (hne : ∀ s ∈ segments, s.values ≠ [])
    {a b : Nat} (h : nextFrom segments a = some b) :
    a ≤ b ∧ (lookup segments b).isSome ∧ ∀ c, a ≤ c → c < b → lookup segments c = none := by
  induction segments with
  | nil => simp [nextFrom] at h
  | cons s rest ih =>
    obtain ⟨hs, hrest⟩ := List.forall_mem_cons.mp hne
    by_cases hlt : a < s.stop
    · have hb : max a s.least = b := by simpa [nextFrom, hlt] using h
      have hpos := List.length_pos_iff.mpr hs
      have hstop : s.stop = s.least + s.values.length := rfl
      refine ⟨by omega, ?_, fun c hac hcb => ?_⟩
      · rw [lookup, if_pos (by omega), Segment.read_isSome (by omega)]
        exact decide_eq_true (by omega)
      · rw [lookup, if_pos (by omega), Segment.read, if_neg (by omega)]
    · obtain ⟨hab, hsome, hgap⟩ := ih hrest (by simpa [nextFrom, hlt] using h)
      refine ⟨hab, ?_, fun c hac hcb => ?_⟩
      · rwa [lookup, if_neg (by omega)]
      · rw [lookup, if_neg (by omega), hgap c hac hcb]

/-- `at (a).write (data)`: the segments after it and the number of values written. -/
def writeAt : List (Segment α) → Nat → List α → List (Segment α) × Nat
  | [], _, _ => ([], 0)
  | s :: rest, a, data =>
    if a < s.stop then
      if s.least ≤ a ∧ s.isSealed = false ∧ data ≠ [] then
        let here := data.take (s.stop - a)
        let behind := writeAt rest s.stop (data.drop here.length)
        (s.overwrite a here :: behind.1, here.length + behind.2)
      else (s :: rest, 0)
    else
      let behind := writeAt rest a data
      (s :: behind.1, behind.2)

theorem writeAt_le (segments : List (Segment α)) (a : Nat) (data : List α) :
    (writeAt segments a data).2 ≤ data.length := by
  induction segments generalizing a data with
  | nil => simp [writeAt]
  | cons s rest ih =>
    rw [writeAt]
    split
    next =>
      split
      next =>
        have hrest := ih s.stop (data.drop (data.take (s.stop - a)).length)
        simp only [List.length_drop, List.length_take] at hrest ⊢
        omega
      next => simp
    next => exact ih a data

/-- What a write leaves at each address. -/
theorem lookup_writeAt (segments : List (Segment α)) (a b : Nat) (data : List α) :
    lookup (writeAt segments a data).1 b =
      if a ≤ b ∧ b < a + (writeAt segments a data).2 then data[b - a]? else lookup segments b := by
  induction segments generalizing a data with
  | nil => rw [writeAt, Nat.add_zero, if_neg (by omega)]
  | cons s rest ih =>
    rw [writeAt]
    split
    next hlt =>
      split
      next hcan =>
        have hlen : (data.take (s.stop - a)).length = min (s.stop - a) data.length :=
          List.length_take
        have hend : a + (data.take (s.stop - a)).length ≤ s.stop := by omega
        have hrest := ih s.stop (data.drop (data.take (s.stop - a)).length)
        simp only [lookup, Segment.stop_overwrite hcan.1 hend]
        by_cases hb : b < s.stop
        · rw [if_pos hb, if_pos hb, Segment.read_overwrite hcan.1 hend]
          by_cases hin : a ≤ b ∧ b < a + (data.take (s.stop - a)).length
          · rw [if_pos hin, if_pos (by omega), List.getElem?_take, if_pos (by omega)]
          · rw [if_neg hin]
            by_cases hab : a ≤ b
            · have hshort : data.drop (data.take (s.stop - a)).length = [] :=
                List.drop_eq_nil_of_le (by omega)
              have hnone := writeAt_le rest s.stop (data.drop (data.take (s.stop - a)).length)
              rw [hshort, List.length_nil] at hnone
              rw [if_neg (by rw [hshort]; omega)]
            · rw [if_neg (by omega)]
        · rw [if_neg hb, if_neg hb, hrest]
          by_cases hshort : data.length ≤ s.stop - a
          · have hnil : data.drop (data.take (s.stop - a)).length = [] :=
              List.drop_eq_nil_of_le (by omega)
            have hnone := writeAt_le rest s.stop (data.drop (data.take (s.stop - a)).length)
            rw [hnil, List.length_nil] at hnone
            rw [if_neg (by rw [hnil]; omega), if_neg (by rw [hnil]; omega)]
          · have hfull : (data.take (s.stop - a)).length = s.stop - a := by omega
            simp only [hfull]
            by_cases hin : b < s.stop + (writeAt rest s.stop (data.drop (s.stop - a))).2
            · rw [if_pos ⟨by omega, hin⟩, if_pos (by omega), List.getElem?_drop]
              congr 1
              omega
            · rw [if_neg (by omega), if_neg (by omega)]
      next => rw [Nat.add_zero, if_neg (by omega)]
    next hge =>
      simp only [lookup, ih]
      by_cases hb : b < s.stop
      · rw [if_pos hb, if_neg (by omega), if_pos hb]
      · rw [if_neg hb, if_neg hb]

/-- A write to unsealed segments goes through as long as its addresses are mapped. -/
theorem writeAt_complete {segments : List (Segment α)} (hopen : ∀ s ∈ segments, s.isSealed = false)
    {a : Nat} {data : List α} (h : ∀ i < data.length, (lookup segments (a + i)).isSome) :
    (writeAt segments a data).2 = data.length := by
  induction segments generalizing a data with
  | nil =>
    cases data with
    | nil => rfl
    | cons v data => simpa [lookup] using h 0 (by simp)
  | cons s rest ih =>
    obtain ⟨hs, hrest⟩ := List.forall_mem_cons.mp hopen
    rw [writeAt]
    split
    next hlt =>
      by_cases hdata : data = []
      · simp [hdata]
      · have hpos := List.length_pos_iff.mpr hdata
        have hle : s.least ≤ a := by
          have h0 := h 0 hpos
          rw [Nat.add_zero, lookup, if_pos hlt, Segment.read_isSome hlt] at h0
          exact of_decide_eq_true h0
        have hlen : (data.take (s.stop - a)).length = min (s.stop - a) data.length :=
          List.length_take
        rw [if_pos ⟨hle, hs, hdata⟩]
        simp only
        rw [ih hrest, List.length_drop, hlen]
        · omega
        · intro i hi
          rw [List.length_drop, hlen] at hi
          have hi' := h (s.stop - a + i) (by omega)
          rw [lookup, if_neg (by omega)] at hi'
          rwa [show a + (s.stop - a + i) = s.stop + i by omega] at hi'
    next hge =>
      refine ih hrest fun i hi => ?_
      have hi' := h i hi
      rwa [lookup, if_neg (by omega)] at hi'

theorem isSealed_writeAt {segments : List (Segment α)} (hopen : ∀ s ∈ segments, s.isSealed = false)
    (a : Nat) (data : List α) : ∀ s ∈ (writeAt segments a data).1, s.isSealed = false := by
  induction segments generalizing a data with
  | nil => simp [writeAt]
  | cons s rest ih =>
    obtain ⟨hs, hrest⟩ := List.forall_mem_cons.mp hopen
    rw [writeAt]
    split
    next =>
      split
      next => exact List.forall_mem_cons.mpr ⟨hs, ih hrest _ _⟩
      next => exact hopen
    next => exact List.forall_mem_cons.mpr ⟨hs, ih hrest _ _⟩

end SegmentMap

end LoomX

namespace LoomX.SegmentMap

variable {α : Type*}

/-- From an address on, the mapped addresses are read in runs of at most `limit` values. -/
inductive Tiles (g : Nat → Option α) (limit : Nat) : Nat → List (Nat × List α) → Prop
  | done {va : Nat} (hnone : ∀ a, va ≤ a → g a = none) : Tiles g limit va []
  | step {va a : Nat} {rest : List (Nat × List α)} (hva : va ≤ a)
      (hgap : ∀ b, va ≤ b → b < a → g b = none) (hmapped : (g a).isSome)
      (hrest : Tiles g limit (a + (run g a limit).length) rest) :
      Tiles g limit va ((a, run g a limit) :: rest)

namespace Tiles

variable {g : Nat → Option α} {limit va : Nat} {tiles : List (Nat × List α)}

theorem mem (h : Tiles g limit va tiles) {p : Nat × List α} (hp : p ∈ tiles) :
    p.2 = run g p.1 limit ∧ (g p.1).isSome := by
  induction h with
  | done => cases hp
  | step _ _ hmapped _ ih =>
    rcases List.mem_cons.mp hp with rfl | hp
    · exact ⟨rfl, hmapped⟩
    · exact ih hp

theorem value (h : Tiles g limit va tiles) {p : Nat × List α} (hp : p ∈ tiles) {i : Nat}
    (hi : i < p.2.length) : g (p.1 + i) = p.2[i]? := by
  obtain ⟨hrun, -⟩ := h.mem hp
  rw [hrun] at hi ⊢
  exact run_getElem hi

theorem nonempty (h : Tiles g limit va tiles) (hlimit : 0 < limit) {p : Nat × List α}
    (hp : p ∈ tiles) : p.2 ≠ [] := by
  obtain ⟨hrun, hmapped⟩ := h.mem hp
  obtain ⟨limit, rfl⟩ : ∃ n, limit = n + 1 := ⟨limit - 1, by omega⟩
  obtain ⟨v, hv⟩ := Option.isSome_iff_exists.mp hmapped
  simp [hrun, run, hv]

/-- The tiles cover exactly the mapped addresses. -/
theorem mapped_iff (h : Tiles g limit va tiles) {a : Nat} (ha : va ≤ a) :
    (g a).isSome ↔ ∃ p ∈ tiles, p.1 ≤ a ∧ a < p.1 + p.2.length := by
  refine ⟨fun hmapped => ?_, ?_⟩
  · induction h with
    | done hnone => simp [hnone a ha] at hmapped
    | @step va b rest _ hgap _ _ ih =>
      by_cases hin : a < b + (run g b limit).length
      · refine ⟨_, List.mem_cons_self, ?_, hin⟩
        by_contra hlt
        simp [hgap a ha (by simpa using hlt)] at hmapped
      · obtain ⟨p, hp, hpa⟩ := ih (by omega)
        exact ⟨p, List.mem_cons_of_mem _ hp, hpa⟩
  · rintro ⟨p, hp, hpa, hap⟩
    have hval := h.value hp (by omega : a - p.1 < p.2.length)
    rw [show p.1 + (a - p.1) = a by omega] at hval
    rw [hval, List.getElem?_eq_getElem (by omega)]
    rfl

/-- A tile has full length exactly when that many consecutive addresses are mapped. -/
theorem full_iff (h : Tiles g limit va tiles) (hlimit : 0 < limit) :
    (∃ p ∈ tiles, p.2.length = limit) ↔ ∃ a, va ≤ a ∧ ∀ i < limit, (g (a + i)).isSome := by
  have hstart : ∀ p ∈ tiles, va ≤ p.1 := by
    induction h with
    | done => simp
    | step hva _ _ _ ih =>
      exact List.forall_mem_cons.mpr ⟨hva, fun p hp => by have := ih p hp; omega⟩
  constructor
  · rintro ⟨p, hp, hlen⟩
    refine ⟨p.1, hstart p hp, fun i hi => ?_⟩
    rw [h.value hp (by omega), List.getElem?_eq_getElem (by omega)]
    rfl
  · rintro ⟨a, ha, hall⟩
    obtain ⟨p, hp, hpa, hap⟩ := (h.mapped_iff ha).mp (hall 0 hlimit)
    refine ⟨p, hp, ?_⟩
    obtain ⟨hrun, -⟩ := h.mem hp
    have hle := length_run_le g p.1 limit
    rw [← hrun] at hle
    by_contra hne
    have hstop := run_stops (g := g) (a := p.1) (n := limit) (by rw [← hrun]; omega)
    rw [← hrun] at hstop
    have hmapped := hall (p.1 + p.2.length - a) (by omega)
    rw [show a + (p.1 + p.2.length - a) = p.1 + p.2.length by omega, hstop] at hmapped
    cases hmapped

/-- The first tile starts at the least mapped address. -/
theorem head_le_iff (h : Tiles g limit va tiles) (bound : Nat) :
    (∀ p, tiles.head? = some p → p.1 ≤ bound) ↔
      ((∃ a, va ≤ a ∧ (g a).isSome) → ∃ a, va ≤ a ∧ a ≤ bound ∧ (g a).isSome) := by
  cases h with
  | done hnone =>
    refine ⟨fun _ ⟨a, ha, hmapped⟩ => ?_, fun _ p hp => by cases hp⟩
    simp [hnone a ha] at hmapped
  | @step _ a rest hva hgap hmapped _ =>
    simp only [List.head?_cons, Option.some.injEq, forall_eq']
    refine ⟨fun hle _ => ⟨a, hva, hle, hmapped⟩, fun hleast => ?_⟩
    obtain ⟨b, hb, hbound', hmapped'⟩ := hleast ⟨a, hva, hmapped⟩
    by_contra hlt
    simp [hgap b hb (by omega)] at hmapped'

end Tiles

theorem lookup_none_of_stops {segments : List (Segment α)} {a : Nat}
    (h : ∀ s ∈ segments, s.stop ≤ a) : lookup segments a = none := by
  induction segments with
  | nil => rfl
  | cons s rest ih =>
    obtain ⟨hs, hrest⟩ := List.forall_mem_cons.mp h
    rw [lookup, if_neg (by omega), ih hrest]

/-- In an ordered map no segment ends beyond the last one. -/
theorem stop_le_last {segments : List (Segment α)}
    (ho : segments.Pairwise fun s t => s.stop ≤ t.least) {s : Segment α} (hs : s ∈ segments) :
    ∃ last, segments.getLast? = some last ∧ s.stop ≤ last.stop := by
  have hne : segments ≠ [] := List.ne_nil_of_mem hs
  refine ⟨segments.getLast hne, List.getLast?_eq_some_getLast hne, ?_⟩
  have hsplit := List.dropLast_append_getLast hne
  rw [← hsplit] at ho
  rcases List.mem_append.mp (hsplit ▸ hs) with hd | hd
  · have hle := (List.pairwise_append.mp ho).2.2 s hd _ (List.mem_singleton_self _)
    unfold Segment.stop at hle ⊢
    omega
  · exact Nat.le_of_eq (congrArg Segment.stop (List.mem_singleton.mp hd))

end LoomX.SegmentMap
