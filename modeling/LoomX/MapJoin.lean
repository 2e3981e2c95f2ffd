import LoomX.MapMerge

namespace LoomX

/-- The text of an item up to its array section. -/
def baseVariable (name : List Char) : List Char := trimBlank (name.takeWhile (· ≠ '['))

/-- Cuts at the first colon outside brackets and parentheses. -/
def cutAtColon (parens brackets : Int) : List Char → Option (List Char × List Char)
  | [] => none
  | c :: rest =>
    if c = ':' ∧ parens = 0 ∧ brackets = 0 then some ([], rest)
    else (cutAtColon (depthAfter '(' ')' parens c) (depthAfter '[' ']' brackets c) rest).map
      fun p => (c :: p.1, p.2)

/-- The base variables a clause maps and their direction, `tofrom` when it states none. -/
def clauseMappings (inside : List Char) : List (List Char × List Char) :=
  match cutAtColon 0 0 inside with
  | some (direction, items) =>
    (clauseNames items).map fun name => (baseVariable name, clauseDirection direction)
  | none => (clauseNames inside).map fun name => (baseVariable name, tofrom)

/-- The mappings of a run of pragmas. -/
def mappings (pragmas : List (List Char)) : List (List Char × List Char) :=
  (pragmas.flatMap mapClauses).flatMap clauseMappings

/-- The items of the hoisted clause name every mapped variable once, with the join of its
directions. -/
def IsJoinClause (mapped items : List (List Char × List Char)) : Prop :=
  ∀ b ∈ mapped.map Prod.fst, ∃ e, items.filter (fun e => baseVariable e.1 = b) = [e] ∧
    (includesTo e.2 ↔ ∃ m ∈ mapped, m.1 = b ∧ includesTo m.2) ∧
    (includesFrom e.2 ↔ ∃ m ∈ mapped, m.1 = b ∧ includesFrom m.2)

/-- The directions the code collects for a base variable, in order. -/
def directionsOf (items : List (List Char × List Char)) (b : List Char) : List (List Char) :=
  (items.filter fun e => baseVariable e.1 = b).map Prod.snd

/-- All items of the base variable have one spelling, and there is one. -/
def SpelledOnce (items : List (List Char × List Char)) (b : List Char) : Prop :=
  ∃ name, (∃ e ∈ items, e.1 = name) ∧ baseVariable name = b ∧
    ∀ e ∈ items, baseVariable e.1 = b → e.1 = name

theorem filter_eq_singleton_of_perm {α : Type} {l l' : List α} (h : l.Perm l') (p : α → Bool)
    {e : α} : l.filter p = [e] ↔ l'.filter p = [e] := by
  have hp := h.filter p
  constructor
  · intro he
    exact List.perm_singleton.mp (he ▸ hp.symm)
  · intro he
    exact List.perm_singleton.mp (he ▸ hp)

/-- One entry of the merged map has the base variable exactly when it is spelled once, and its
direction is then what the merge leaves. -/
theorem entries_filter_base (pragmas : List (List Char)) (b : List Char) (e : List Char × List Char) :
    (mergeMappedVars pragmas).entries.filter (fun e => baseVariable e.1 = b) = [e] →
      SpelledOnce (pragmas.flatMap collectedItems) b ∧
      mergedDirection (directionsOf (pragmas.flatMap collectedItems) b) = some e.2 := by
  intro h
  have hmem : e ∈ (mergeMappedVars pragmas).entries.filter fun e => baseVariable e.1 = b := by
    rw [h]; simp
  obtain ⟨he, hb⟩ := List.mem_filter.mp hmem
  have hb : baseVariable e.1 = b := by simpa using hb
  have hspell : ∀ i ∈ pragmas.flatMap collectedItems, baseVariable i.1 = b → i.1 = e.1 := by
    intro i hi hib
    obtain ⟨d, hd⟩ := (exists_entry_iff pragmas i.1).mpr ⟨i, hi, rfl⟩
    have hin : (i.1, d) ∈ (mergeMappedVars pragmas).entries.filter
        fun e => baseVariable e.1 = b := List.mem_filter.mpr ⟨hd, by simpa using hib⟩
    rw [h, List.mem_singleton] at hin
    rw [← hin]
  refine ⟨⟨e.1, (exists_entry_iff pragmas e.1).mp ⟨e.2, he⟩, hb, hspell⟩, ?_⟩
  have hfind := SortedMap.mem_entries_iff.mp he
  rw [find?_eq_mergedDirection] at hfind
  rw [← hfind, directionsOf]
  congr 2
  refine List.filter_congr fun i hi => ?_
  simp only [decide_eq_decide]
  exact ⟨hspell i hi, fun heq => heq ▸ hb⟩

theorem entries_filter_base_of_spelledOnce {pragmas : List (List Char)} {b : List Char}
    (h : SpelledOnce (pragmas.flatMap collectedItems) b) :
    ∃ e, (mergeMappedVars pragmas).entries.filter (fun e => baseVariable e.1 = b) = [e] := by
  obtain ⟨name, hname, hb, hspell⟩ := h
  obtain ⟨d, hd⟩ := (exists_entry_iff pragmas name).mpr hname
  have hcongr : (mergeMappedVars pragmas).entries.filter (fun e => baseVariable e.1 = b) =
      (mergeMappedVars pragmas).entries.filter (fun e => e.1 = name) := by
    refine List.filter_congr fun e he => ?_
    obtain ⟨i, hi, hie⟩ := (exists_entry_iff pragmas e.1).mp ⟨e.2, he⟩
    simp only [decide_eq_decide]
    constructor
    · intro heb
      rw [← hie]
      exact hspell i hi (hie ▸ heb)
    · rintro rfl
      exact hb
  refine ⟨(name, d), ?_⟩
  rw [hcongr, SortedMap.filter_key, SortedMap.mem_entries_iff.mp hd]
  rfl

theorem exists_mapping_iff {mapped : List (List Char × List Char)} {b : List Char}
    {p : List Char → Prop} :
    (∃ m ∈ mapped, m.1 = b ∧ p m.2) ↔ ∃ d ∈ (mapped.filter (·.1 = b)).map Prod.snd, p d := by
  simp only [List.mem_map, List.mem_filter, decide_eq_true_eq]
  constructor
  · rintro ⟨m, hm, hb, hp⟩
    exact ⟨m.2, ⟨m, ⟨hm, hb⟩, rfl⟩, hp⟩
  · rintro ⟨d, ⟨m, ⟨hm, hb⟩, rfl⟩, hp⟩
    exact ⟨m, hm, hb, hp⟩

/-- The run transfers a base variable in the directions the merge of the collected ones keeps. -/
def MergeKeeps (mapped items : List (List Char × List Char)) (b : List Char) : Prop :=
  let ds := directionsOf items b
  ((∃ m ∈ mapped, m.1 = b ∧ includesTo m.2) ↔
    tofrom ∈ ds ∨ fromDirection ∉ ds ∧ ds.head? = some toDirection) ∧
  ((∃ m ∈ mapped, m.1 = b ∧ includesFrom m.2) ↔ fromDirection ∈ ds ∨ tofrom ∈ ds)

theorem isJoinClause_iff (pragmas : List (List Char)) :
    IsJoinClause (mappings pragmas) (groupItems (directionGroups (mergeMappedVars pragmas)).entries) ↔
      ∀ b ∈ (mappings pragmas).map Prod.fst, SpelledOnce (pragmas.flatMap collectedItems) b ∧
        MergeKeeps (mappings pragmas) (pragmas.flatMap collectedItems) b := by
  have hperm := groupItems_perm (mergeMappedVars pragmas)
  refine forall₂_congr fun b _ => ?_
  simp only [filter_eq_singleton_of_perm hperm]
  constructor
  · rintro ⟨e, he, hto, hfrom⟩
    obtain ⟨hspell, hd⟩ := entries_filter_base pragmas b e he
    exact ⟨hspell, hto.symm.trans (includesTo_mergedDirection hd),
      hfrom.symm.trans (includesFrom_mergedDirection hd)⟩
  · rintro ⟨hspell, hto, hfrom⟩
    obtain ⟨e, he⟩ := entries_filter_base_of_spelledOnce hspell
    obtain ⟨-, hd⟩ := entries_filter_base pragmas b e he
    exact ⟨e, he, (includesTo_mergedDirection hd).trans hto.symm,
      (includesFrom_mergedDirection hd).trans hfrom.symm⟩

/-- The direction of the clause stands before its first colon. -/
def Directed (inside : List Char) : Prop :=
  ∃ direction items, cutAtColon 0 0 inside = some (direction, items) ∧ ':' ∉ direction

theorem cutAtColon_eq {p b : Int} {s before after : List Char}
    (h : cutAtColon p b s = some (before, after)) : s = before ++ ':' :: after := by
  induction s generalizing p b before with
  | nil => simp [cutAtColon] at h
  | cons c s ih =>
    unfold cutAtColon at h
    split at h
    next hc =>
      cases Option.some.inj h
      simp [hc.1]
    next =>
      obtain ⟨⟨l, r⟩, hrest, heq⟩ := Option.map_eq_some_iff.mp h
      cases heq
      simp [ih hrest]

theorem clauseMappings_of_directed {inside : List Char} (h : Directed inside) :
    clauseMappings inside = (readMapClause inside).map fun e => (baseVariable e.1, e.2) := by
  obtain ⟨direction, items, hcut, hno⟩ := h
  have heq := cutAtColon_eq hcut
  have hall : ∀ c ∈ direction, (decide (c ≠ ':')) = true := by
    intro c hc
    simpa using fun he : c = ':' => hno (he ▸ hc)
  have htake : inside.takeWhile (· ≠ ':') = direction := by
    rw [heq, List.takeWhile_append_of_pos hall]
    simp
  have hdrop : (inside.dropWhile (· ≠ ':')).tail = items := by
    rw [heq, List.dropWhile_append_of_pos hall]
    simp
  have hcolon : ':' ∈ inside := by simp [heq]
  rw [readMapClause, if_pos hcolon, htake, hdrop, List.map_map, clauseMappings, hcut]
  rfl

theorem mappings_of_directed {pragmas : List (List Char)}
    (h : ∀ clause ∈ pragmas.flatMap mapClauses, Directed clause) :
    mappings pragmas =
      (pragmas.flatMap collectedItems).map fun e => (baseVariable e.1, e.2) := by
  have hitems : pragmas.flatMap collectedItems =
      (pragmas.flatMap mapClauses).flatMap readMapClause := by
    simp only [List.flatMap_assoc]
    rfl
  rw [hitems, mappings, List.map_flatMap]
  exact List.flatMap_congr fun clause hc => clauseMappings_of_directed (h clause hc)

/-- The rank keeps the join of the directions: one of them is `tofrom`, or `to` is not needed,
or it comes first and nothing is copied back. -/
def RankIsJoin (ds : List (List Char)) : Prop :=
  tofrom ∈ ds ∨ toDirection ∉ ds ∨ fromDirection ∉ ds ∧ ds.head? = some toDirection

theorem mergeKeeps_of_directed {pragmas : List (List Char)}
    (h : ∀ clause ∈ pragmas.flatMap mapClauses, Directed clause) (b : List Char) :
    MergeKeeps (mappings pragmas) (pragmas.flatMap collectedItems) b ↔
      RankIsJoin (directionsOf (pragmas.flatMap collectedItems) b) := by
  have hds : ((mappings pragmas).filter (·.1 = b)).map Prod.snd =
      directionsOf (pragmas.flatMap collectedItems) b := by
    rw [mappings_of_directed h, List.filter_map, List.map_map]
    rfl
  simp only [MergeKeeps, exists_mapping_iff, hds]
  generalize directionsOf (pragmas.flatMap collectedItems) b = ds
  have hto : (∃ d ∈ ds, includesTo d) ↔ toDirection ∈ ds ∨ tofrom ∈ ds := by
    simp [includesTo, and_or_left, exists_or]
  have hfrom : (∃ d ∈ ds, includesFrom d) ↔ fromDirection ∈ ds ∨ tofrom ∈ ds := by
    simp [includesFrom, and_or_left, exists_or]
  have hhead : ds.head? = some toDirection → toDirection ∈ ds := List.mem_of_head?
  rw [hto, hfrom, RankIsJoin]
  by_cases hboth : tofrom ∈ ds
  · simp [hboth]
  · by_cases hmem : toDirection ∈ ds
    · simp [hboth, hmem]
    · have hno : ds.head? ≠ some toDirection := fun h => hmem (hhead h)
      simp [hboth, hmem, hno]

/-- When the hoisted clause is the join of the mappings of the gathered pragmas. The second part
is the condition for pragmas whose clauses all state a direction. -/
theorem hoisted_map_join_iff (pragmas : List (List Char)) :
    (IsJoinClause (mappings pragmas)
        (groupItems (directionGroups (mergeMappedVars pragmas)).entries) ↔
      ∀ b ∈ (mappings pragmas).map Prod.fst, SpelledOnce (pragmas.flatMap collectedItems) b ∧
        MergeKeeps (mappings pragmas) (pragmas.flatMap collectedItems) b) ∧
    ((∀ clause ∈ pragmas.flatMap mapClauses, Directed clause) →
      (IsJoinClause (mappings pragmas)
          (groupItems (directionGroups (mergeMappedVars pragmas)).entries) ↔
        ∀ b ∈ (mappings pragmas).map Prod.fst, SpelledOnce (pragmas.flatMap collectedItems) b ∧
          RankIsJoin (directionsOf (pragmas.flatMap collectedItems) b))) := by
  refine ⟨isJoinClause_iff pragmas, fun h => ?_⟩
  rw [isJoinClause_iff]
  exact forall₂_congr fun b _ => and_congr_right fun _ => mergeKeeps_of_directed h b

/-- A variable one loop reads and the next one updates. -/
def readThenUpdated : List (List Char) :=
  ["#pragma omp target teams distribute parallel for map(to:a)".toList,
    "#pragma omp target teams distribute parallel for map(tofrom:a)".toList]

theorem readThenUpdated_join :
    IsJoinClause (mappings readThenUpdated)
      (groupItems (directionGroups (mergeMappedVars readThenUpdated)).entries) := by
  have hclauses : readThenUpdated.flatMap mapClauses = ["to:a".toList, "tofrom:a".toList] := by
    decide
  refine ((hoisted_map_join_iff readThenUpdated).2 ?_).mpr ?_
  · intro clause hc
    rw [hclauses] at hc
    rcases List.mem_pair.mp hc with rfl | rfl
    · exact ⟨"to".toList, "a".toList, by decide, by decide⟩
    · exact ⟨"tofrom".toList, "a".toList, by decide, by decide⟩
  · intro b hb
    have hbases : (mappings readThenUpdated).map Prod.fst = ["a".toList, "a".toList] := by decide
    rw [hbases] at hb
    have hb' : b = "a".toList := by simpa using hb
    subst hb'
    exact ⟨⟨"a".toList, by decide, by decide, by decide⟩, Or.inl (by decide)⟩

/-- A variable one loop reads and the next one writes. -/
def readThenWritten : List (List Char) :=
  ["#pragma omp target teams distribute parallel for map(to:a)".toList,
    "#pragma omp target teams distribute parallel for map(from:a)".toList]

theorem readThenWritten_not_join :
    groupItems (directionGroups (mergeMappedVars readThenWritten)).entries =
        [("a".toList, "from".toList)] ∧
      ¬IsJoinClause (mappings readThenWritten)
        (groupItems (directionGroups (mergeMappedVars readThenWritten)).entries) := by
  have hitems : groupItems (directionGroups (mergeMappedVars readThenWritten)).entries =
      [("a".toList, "from".toList)] := by decide
  refine ⟨hitems, fun hjoin => ?_⟩
  obtain ⟨e, he, hto, -⟩ := hjoin "a".toList (by decide)
  rw [hitems] at he
  have hdir : e = ("a".toList, "from".toList) := by
    have hfilter : [("a".toList, "from".toList)].filter (fun e => baseVariable e.1 = "a".toList) =
        [("a".toList, "from".toList)] := by decide
    exact (List.singleton_inj.mp (hfilter.symm.trans he)).symm
  have hmapped : includesTo e.2 := hto.mpr ⟨("a".toList, "to".toList), by decide, rfl, Or.inl rfl⟩
  rw [hdir] at hmapped
  exact absurd hmapped (by unfold includesTo; decide)

end LoomX
