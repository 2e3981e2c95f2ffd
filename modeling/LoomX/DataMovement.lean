import Mathlib.Data.Option.Basic
import LoomX.OffloadClauses

namespace LoomX

namespace DataMapping

variable {ι : Type} {κ : ι → Type}

/-- The elements of the variables. -/
abbrev Memory (κ : ι → Type) := (v : ι) → κ v → Int

/-- What a piece of code does to memory: the elements it writes, with their last values. It
reads and writes these variables only. -/
structure Effect (κ : ι → Type) (reads writes : ι → Prop) where
  written : Memory κ → (v : ι) → κ v → Option Int
  reads_only : ∀ m m', (∀ v, reads v → m v = m' v) → written m = written m'
  writes_only : ∀ m v c, (written m v c).isSome → writes v

variable {reads writes : ι → Prop}

/-- Memory after the code has run on it. -/
def Effect.final (E : Effect κ reads writes) (m : Memory κ) : Memory κ :=
  fun v c => (E.written m v c).getD (m v c)

variable (copiedIn copiedOut : ι → Bool)

/-- Device memory at the start: copies of the variables that are copied in, and else what was
there before. -/
def deviceMemory (m garbage : Memory κ) : Memory κ :=
  fun v => if copiedIn v then m v else garbage v

/-- Host memory after the code has run on the device. -/
def hostAfter (E : Effect κ reads writes) (m garbage : Memory κ) : Memory κ :=
  fun v => if copiedOut v then E.final (deviceMemory copiedIn m garbage) v else m v

variable {copiedIn copiedOut} {E : Effect κ reads writes} {m m' garbage : Memory κ} {v : ι}

theorem final_of_not_writes (h : ¬writes v) : E.final m v = m v := by
  funext c
  have hnone : E.written m v c = none := by
    by_contra hsome
    exact h (E.writes_only m v c (Option.isSome_iff_ne_none.mpr hsome))
  rw [Effect.final, hnone, Option.getD_none]

theorem deviceMemory_congr (h : ∀ v, copiedIn v = true → m v = m' v) :
    deviceMemory copiedIn m garbage = deviceMemory copiedIn m' garbage := by
  funext v
  unfold deviceMemory
  split
  next hin => exact h v hin
  next => rfl

/-- A variable that is copied out but not in must be overwritten as a whole: what the device
holds in an element that is not written goes to the host. -/
theorem written_of_sound [DecidableEq ι] [∀ v, DecidableEq (κ v)] {outer : ι → Prop}
    (hfrom : ∀ v, copiedIn v = false → copiedOut v = true → ¬reads v)
    (hsound : ∀ m garbage v, outer v →
      hostAfter copiedIn copiedOut E m garbage v = E.final m v)
    (houter : outer v) (hin : copiedIn v = false) (hout : copiedOut v = true)
    (m : Memory κ) (c : κ v) : (E.written m v c).isSome := by
  by_contra hnone
  rw [Option.not_isSome_iff_eq_none] at hnone
  let garbage : Memory κ := Function.update m v (Function.update (m v) c (m v c + 1))
  have hsame : ∀ w, w ≠ v → deviceMemory copiedIn m garbage w = m w := by
    intro w hw
    unfold deviceMemory
    split
    next => rfl
    next => exact Function.update_of_ne hw _ _
  have hwritten : E.written (deviceMemory copiedIn m garbage) = E.written m := by
    apply E.reads_only
    intro w hw
    refine hsame w ?_
    rintro rfl
    exact hfrom w hin hout hw
  have hhost := congrFun (hsound m garbage v houter) c
  have hdevice : deviceMemory copiedIn m garbage v c = m v c + 1 := by
    simp [deviceMemory, hin, garbage]
  rw [hostAfter, if_pos hout, Effect.final, Effect.final, hwritten, hnone, Option.getD_none,
    Option.getD_none, hdevice] at hhost
  omega

/-- The copied-out variables that the code leaves behind do not depend on variables that are
neither copied in nor out. -/
theorem final_eq_of_sound {outer : ι → Prop}
    (hsound : ∀ m garbage v, outer v →
      hostAfter copiedIn copiedOut E m garbage v = E.final m v)
    (houter : outer v) (hout : copiedOut v = true)
    (h : ∀ v, copiedIn v = true ∨ copiedOut v = true → m v = m' v) :
    E.final m v = E.final m' v := by
  have hdevice : deviceMemory copiedIn m m = deviceMemory copiedIn m' m :=
    deviceMemory_congr fun w hw => h w (Or.inl hw)
  rw [← hsound m m v houter, ← hsound m' m v houter, hostAfter, hostAfter, if_pos hout,
    if_pos hout, hdevice]

/-- The host sees what it would have seen without the device exactly if variables that are only
copied out are overwritten as a whole, variables that are not mapped are left alone, and their old
values do not matter. -/
theorem hostAfter_eq_final_iff [DecidableEq ι] [∀ v, DecidableEq (κ v)] {outer : ι → Prop}
    (hto : ∀ v, copiedIn v = true → copiedOut v = false → ¬writes v)
    (hfrom : ∀ v, copiedIn v = false → copiedOut v = true → ¬reads v) :
    (∀ m garbage v, outer v → hostAfter copiedIn copiedOut E m garbage v = E.final m v) ↔
      (∀ v, outer v → copiedIn v = false → copiedOut v = true →
        ∀ m c, (E.written m v c).isSome) ∧
      (∀ v, outer v → copiedIn v = false → copiedOut v = false → ∀ m, E.final m v = m v) ∧
      ∀ m m', (∀ v, copiedIn v = true ∨ copiedOut v = true → m v = m' v) →
        ∀ v, outer v → copiedOut v = true → E.final m v = E.final m' v := by
  constructor
  · intro hsound
    refine ⟨fun v houter hin hout => written_of_sound hfrom hsound houter hin hout, ?_,
      fun m m' h v houter hout => final_eq_of_sound hsound houter hout h⟩
    intro v houter _ hout m
    rw [← hsound m m v houter, hostAfter, hout, if_neg Bool.false_ne_true]
  · rintro ⟨hwhole, halone, hstale⟩ m garbage v houter
    cases hout : copiedOut v with
    | false =>
      rw [hostAfter, hout, if_neg Bool.false_ne_true]
      cases hin : copiedIn v with
      | false => exact (halone v houter hin hout m).symm
      | true => exact (final_of_not_writes (hto v hin hout)).symm
    | true =>
      -- The host's values in all mapped variables, the device's in the others.
      let mixed : Memory κ := fun w => if copiedIn w || copiedOut w then m w else garbage w
      have hmixed : E.final mixed v = E.final m v := by
        apply hstale mixed m _ v houter hout
        intro w hw
        simp only [mixed]
        rw [if_pos (by simpa using hw)]
      have hread : E.written (deviceMemory copiedIn m garbage) = E.written mixed := by
        apply E.reads_only
        intro w hw
        simp only [deviceMemory, mixed]
        cases hin : copiedIn w with
        | true => simp
        | false =>
          cases hout' : copiedOut w with
          | true => exact absurd hw (hfrom w hin hout')
          | false => simp
      rw [hostAfter, if_pos hout, ← hmixed]
      funext c
      rw [Effect.final, Effect.final, hread]
      cases hin : copiedIn v with
      | true => simp [deviceMemory, mixed, hin]
      | false =>
        have hsome := hwhole v houter hin hout mixed c
        obtain ⟨x, hx⟩ := Option.isSome_iff_exists.mp hsome
        rw [hx, Option.getD_some, Option.getD_some]

end DataMapping

theorem mergedDirection_const {ds : List (List Char)} {d : List Char} (hne : ds ≠ [])
    (h : ∀ x ∈ ds, x = d) : mergedDirection ds = some d := by
  obtain ⟨x, rest, rfl⟩ := List.exists_cons_of_ne_nil hne
  have hx := h x List.mem_cons_self
  unfold mergedDirection
  split_ifs with htofrom hfrom
  · rw [h tofrom htofrom]
  · rw [h fromDirection hfrom]
  · rw [List.head?_cons, hx]

namespace OffloadedLoop

open DataMapping

variable {L : OffloadedLoop} {v : Var}

def Mapped (L : OffloadedLoop) (v : Var) : Prop :=
  isMapped L.loop L.isClassMember L.reductionVariables v

/-- The direction of the variable's entry. -/
def entryDirection (L : OffloadedLoop) (v : Var) : List Char :=
  if v ∈ L.reductionVariables then tofrom else L.mapDirection v

theorem mem_entries {e : Var × List Char} :
    e ∈ L.entriesIncludingReductions ↔ L.Mapped e.1 ∧ e.2 = L.entryDirection e.1 := by
  obtain ⟨v, d⟩ := e
  have hfill : (v, d) ∈ L.fillMapVariables ↔ ((v ∈ L.loop.stmt.varRefs ∧
      isMappable L.loop L.isClassMember v = true) ∧ L.mapDirection v = d) ∧
        v ∉ L.reductionVariables := by
    simp only [fillMapVariables, List.mem_filter, List.mem_map, Prod.mk.injEq, List.mem_dedup,
      Bool.not_eq_true', List.contains_eq_mem, decide_eq_false_iff_not]
    constructor
    · rintro ⟨⟨w, hw, rfl, hd⟩, hnot⟩
      exact ⟨⟨hw, hd⟩, hnot⟩
    · rintro ⟨⟨hv, hd⟩, hnot⟩
      exact ⟨⟨v, hv, rfl, hd⟩, hnot⟩
  rw [entriesIncludingReductions, List.mem_append, hfill]
  simp only [List.mem_map, List.mem_dedup, Prod.mk.injEq, Mapped, isMapped, entryDirection]
  by_cases hred : v ∈ L.reductionVariables
  · rw [if_pos hred]
    constructor
    · rintro (⟨_, hnot⟩ | ⟨w, _, rfl, hd⟩)
      · exact absurd hred hnot
      · exact ⟨Or.inr hred, hd.symm⟩
    · rintro ⟨_, hd⟩
      exact Or.inr ⟨v, hred, rfl, hd.symm⟩
  · rw [if_neg hred]
    constructor
    · rintro (⟨⟨hv, hd⟩, _⟩ | ⟨w, hw, rfl, _⟩)
      · exact ⟨Or.inl hv, hd.symm⟩
      · exact absurd hw hred
    · rintro ⟨hv, hd⟩
      exact Or.inl ⟨⟨hv.resolve_right hred, hd.symm⟩, hred⟩

/-- The variables that get a map entry under a name. -/
def Named (L : OffloadedLoop) (v : Var) : Prop := L.Mapped v ∧ L.mappedName v ≠ []

theorem direction_of_named (h : L.Named v) : L.direction v = some (L.entryDirection v) := by
  obtain ⟨hmapped, hname⟩ := h
  have hmem : v ∈ L.entriesIncludingReductions.map Prod.fst :=
    List.mem_map.mpr ⟨(v, L.entryDirection v), mem_entries.mpr ⟨hmapped, rfl⟩, rfl⟩
  rw [direction, if_pos hmem, directionByName, mergeItems, SortedMap.find?_foldl]
  show List.foldl _ none _ = _
  rw [foldl_combine_mergeDirection]
  apply mergedDirection_const
  · have hitem : (L.mappedName v, L.entryDirection v) ∈
        (L.entriesIncludingReductions.map fun e => (L.mappedName e.1, e.2)).filter
          fun item => !item.1.isEmpty :=
      List.mem_filter.mpr ⟨List.mem_map.mpr ⟨(v, L.entryDirection v),
        mem_entries.mpr ⟨hmapped, rfl⟩, rfl⟩, by simpa using hname⟩
    apply List.ne_nil_of_mem (a := L.entryDirection v)
    exact List.mem_map.mpr ⟨_, List.mem_filter.mpr ⟨hitem, by simp⟩, rfl⟩
  · intro d hd
    obtain ⟨item, hitem, rfl⟩ := List.mem_map.mp hd
    obtain ⟨hitem, hkey⟩ := List.mem_filter.mp hitem
    obtain ⟨e, he, rfl⟩ := List.mem_map.mp (List.mem_filter.mp hitem).1
    obtain ⟨hother, hdir⟩ := mem_entries.mp he
    have heq := L.visible e.1 v hother hmapped (by simpa using hkey)
    rw [← heq]
    exact hdir

theorem direction_of_not_named (h : ¬L.Named v) : L.direction v = none := by
  unfold direction
  split
  next hmem =>
    obtain ⟨e, he, rfl⟩ := List.mem_map.mp hmem
    have hname : L.mappedName e.1 = [] := not_not.mp fun hne => h ⟨(mem_entries.mp he).1, hne⟩
    rw [directionByName, mergeItems, SortedMap.find?_foldl, List.filter_eq_nil_iff.mpr]
    · rfl
    · intro item hitem hkey
      have hnonempty := (List.mem_filter.mp hitem).2
      rw [of_decide_eq_true hkey, hname] at hnonempty
      exact absurd hnonempty (by simp)
  next => rfl

/-- The map clauses hold the names of the listed variables under their directions. -/
theorem mem_mapClauses {name d : List Char} :
    (name, d) ∈ groupItems (directionGroups L.directionByName).entries ↔
      ∃ v ∈ L.listedMaps, L.mappedName v = name ∧ L.direction v = some d := by
  rw [(groupItems_perm L.directionByName).mem_iff, SortedMap.mem_entries_iff]
  constructor
  · intro h
    have hitem : ∃ v ∈ L.listedMaps, L.mappedName v = name := by
      by_contra hnone
      rw [directionByName, mergeItems, SortedMap.find?_foldl, List.filter_eq_nil_iff.mpr] at h
      · exact absurd h (by simp [SortedMap.find?, SortedMap.empty])
      · intro item hitem hname
        obtain ⟨e, he, rfl⟩ := List.mem_map.mp (List.mem_filter.mp hitem).1
        exact hnone ⟨e.1, List.mem_map_of_mem he, of_decide_eq_true hname⟩
    obtain ⟨v, hv, rfl⟩ := hitem
    exact ⟨v, hv, rfl, (if_pos hv).trans h⟩
  · rintro ⟨v, hv, rfl, h⟩
    exact (if_pos hv).symm.trans h

def copiedIn (L : OffloadedLoop) (v : Var) : Bool :=
  L.direction v == some toDirection || L.direction v == some tofrom

def copiedOut (L : OffloadedLoop) (v : Var) : Bool :=
  L.direction v == some fromDirection || L.direction v == some tofrom

theorem copiedIn_iff : L.copiedIn v = true ↔
    L.Named v ∧ (v ∈ L.reductionVariables ∨ v ∈ L.readVars ∨ v ∉ L.writeVars) := by
  by_cases h : L.Named v
  · by_cases hred : v ∈ L.reductionVariables <;> by_cases hread : v ∈ L.readVars <;>
      by_cases hwrite : v ∈ L.writeVars <;>
      simp [copiedIn, direction_of_named h, entryDirection, mapDirection, h, hred, hread, hwrite,
        tofrom, toDirection, fromDirection]
  · simp [copiedIn, direction_of_not_named h, h]

theorem copiedOut_iff : L.copiedOut v = true ↔
    L.Named v ∧ (v ∈ L.reductionVariables ∨ v ∈ L.writeVars ∨ v ∉ L.readVars) := by
  by_cases h : L.Named v
  · by_cases hred : v ∈ L.reductionVariables <;> by_cases hread : v ∈ L.readVars <;>
      by_cases hwrite : v ∈ L.writeVars <;>
      simp [copiedOut, direction_of_named h, entryDirection, mapDirection, h, hred, hread, hwrite,
        tofrom, toDirection, fromDirection]
  · simp [copiedOut, direction_of_not_named h, h]

/-- The variables that exist outside the loop. -/
def Outer (L : OffloadedLoop) (v : Var) : Prop :=
  v ∉ L.loop.init.declared ∧ v ∉ L.loop.body.declared

/-- The loop as the reported references describe it. -/
abbrev LoopEffect (L : OffloadedLoop) (size : Var → Nat) :=
  Effect (fun v => Fin (size v)) (· ∈ L.readVars) (· ∈ L.writeVars)

/-- Host memory after the offloaded loop is host memory after the loop. -/
def Sound (L : OffloadedLoop) {size : Var → Nat} (E : L.LoopEffect size) : Prop :=
  ∀ m garbage v, L.Outer v → hostAfter L.copiedIn L.copiedOut E m garbage v = E.final m v

theorem not_copied_iff : (L.copiedIn v = false ∧ L.copiedOut v = false) ↔ ¬L.Named v := by
  rw [Bool.eq_false_iff, Bool.eq_false_iff, Ne, Ne, copiedIn_iff, copiedOut_iff]
  tauto

theorem copied_from_iff : (L.copiedIn v = false ∧ L.copiedOut v = true) ↔
    L.Named v ∧ v ∉ L.reductionVariables ∧ v ∉ L.readVars ∧ v ∈ L.writeVars := by
  rw [Bool.eq_false_iff, Ne, copiedIn_iff, copiedOut_iff]
  tauto

theorem not_written_of_to (hin : L.copiedIn v = true) (hout : L.copiedOut v = false) :
    v ∉ L.writeVars := by
  rw [Bool.eq_false_iff, Ne, copiedOut_iff] at hout
  exact fun hwrite => hout ⟨(copiedIn_iff.mp hin).1, Or.inr (Or.inl hwrite)⟩

/-- Data movement is right exactly if the loop writes all elements of what it writes and never
reads, leaves alone what gets no entry, and does not need the old values of that. -/
theorem fillMapVariables_sound_iff (L : OffloadedLoop) (size : Var → Nat)
    (E : L.LoopEffect size) :
    L.Sound E ↔
      (∀ v, L.Outer v → L.Named v → v ∉ L.reductionVariables → v ∉ L.readVars →
        v ∈ L.writeVars → ∀ m c, (E.written m v c).isSome) ∧
      (∀ v, L.Outer v → ¬L.Named v → ∀ m, E.final m v = m v) ∧
      ∀ m m', (∀ v, L.Named v → m v = m' v) →
        ∀ v, L.Outer v → L.Named v → E.final m v = E.final m' v := by
  have hnamed : ∀ w, L.copiedIn w = true ∨ L.copiedOut w = true ↔ L.Named w := by
    intro w
    rw [← not_iff_not, ← not_copied_iff]
    simp
  have hfrom : ∀ v, L.copiedIn v = false → L.copiedOut v = true → v ∉ L.readVars :=
    fun v hin hout => (copied_from_iff.mp ⟨hin, hout⟩).2.2.1
  unfold Sound
  rw [hostAfter_eq_final_iff (fun v => not_written_of_to) hfrom]
  simp only [hnamed]
  refine and_congr (forall₂_congr fun v _ => ?_) (and_congr (forall₂_congr fun v _ => ?_)
    (forall₃_congr fun m m' h => forall₂_congr fun v _ => ?_))
  · rw [← and_imp, copied_from_iff, and_imp, and_imp, and_imp]
  · rw [← and_imp, not_copied_iff]
  · constructor
    · intro hkept hv
      cases hout : L.copiedOut v with
      | true => exact hkept hout
      | false =>
        have hin := ((hnamed v).mpr hv).resolve_right (by simp [hout])
        have hwrite := not_written_of_to hin hout
        rw [final_of_not_writes hwrite, final_of_not_writes hwrite]
        exact h v hv
    · exact fun hkept hout => hkept ((hnamed v).mp (Or.inr hout))

def scalar (id : Nat) (name : String) : Var := ⟨id, name, .integer 32 true, .automatic⟩

/-- `for (int i = 0; i < n; i++) x = i;`. -/
def lastIndexLoop : ForStatement where
  init := .decl (scalar 0 "i") (some (.intVal .int 0))
  test := .binary .lt (.varRef (scalar 0 "i")) (.varRef (scalar 1 "n"))
  increment := .plusPlus (.varRef (scalar 0 "i"))
  body := .expr (.assign (.varRef (scalar 2 "x")) (.varRef (scalar 0 "i")))

def lastIndex : OffloadedLoop where
  loop := lastIndexLoop
  readRefs := lastIndexLoop.stmt.readRefs
  writeRefs := lastIndexLoop.stmt.writeRefs
  isClassMember _ := false
  reductionVariables := []
  mappedName v := v.name.toList
  visible v w hv hw hname := by
    have hnames : ∀ v ∈ lastIndexLoop.stmt.varRefs, ∀ w ∈ lastIndexLoop.stmt.varRefs,
        v.name.toList = w.name.toList → v = w := by decide
    exact hnames v (hv.resolve_right (by simp)).1 w (hw.resolve_right (by simp)).1 hname

/-- With a positive `n` the loop leaves `n - 1` in `x`; else it does nothing. -/
def lastIndexEffect : lastIndex.LoopEffect fun _ => 1 where
  written m v _ :=
    if v = scalar 2 "x" ∧ 0 < m (scalar 1 "n") 0 then some (m (scalar 1 "n") 0 - 1) else none
  reads_only m m' h := by
    have hn : m (scalar 1 "n") = m' (scalar 1 "n") := h _ (by decide)
    simp only [hn]
  writes_only m v c h := by
    by_cases hx : v = scalar 2 "x"
    · rw [hx]
      decide
    · simp [hx] at h

/-- With `n = 0` the host gets what the device had in `x`. -/
theorem lastIndex_not_sound : ¬lastIndex.Sound lastIndexEffect := by
  intro hsound
  have hx : lastIndex.Outer (scalar 2 "x") := by
    constructor <;> decide
  have hin : lastIndex.copiedIn (scalar 2 "x") = false := by decide
  have hin' : lastIndex.copiedIn (scalar 1 "n") = true := by decide
  have hout : lastIndex.copiedOut (scalar 2 "x") = true := by decide
  have h := congrFun (hsound (fun _ _ => 0) (fun _ _ => 7) _ hx) 0
  simp [hostAfter, hout, Effect.final, lastIndexEffect, deviceMemory, hin, hin'] at h

end OffloadedLoop

end LoomX
