import LoomX.LoopFusion.PragmaTail

namespace LoomX.LoopFusion

def mapDirRank (d : List Char) : Int :=
  if d = tofrom then 2 else if d = fromDirection then 1 else if d = toDirection then 0 else -1

/-- The item kept for each base name and direction. -/
abbrev ByBase := SortedMap (List Char ×ₗ List Char) (List Char)

def absorbItem (byBase : ByBase) (dir item : List Char) : ByBase :=
  if mapBaseName item = [] then byBase
  else
    -- a direction is ranked against itself, so the first item stays
    byBase.insertWith (fun old new => if mapDirRank dir > mapDirRank dir then new else old)
      (toLex (mapBaseName item, dir)) item

def absorb (byBase : ByBase) (src : MapSets) : ByBase :=
  src.entries.foldl (fun byBase e => absorbItem byBase (ofLex e.1).1 (ofLex e.1).2) byBase

def byBase (a b : List Char) : ByBase :=
  absorb (absorb .empty (parseMapClauses a).maps) (parseMapClauses b).maps

def itemsUnder (byBase : ByBase) (dir : List Char) : List (List Char) :=
  (byBase.entries.filter fun e => (ofLex e.1).2 = dir).map Prod.snd

/-- The merged map clauses, one for each direction that has an item. -/
def mergedGroups (a b : List Char) : List (List Char × List (List Char)) :=
  ([toDirection, fromDirection, tofrom].map fun dir => (dir, itemsUnder (byBase a b) dir)).filter
    (·.2 ≠ [])

def mergeClauses (a b : List Char) : List Char :=
  List.intercalate " ".toList ((mergedGroups a b).map renderGroup ++
    ((parseMapClauses a).nonMap ++ (parseMapClauses b).nonMap))

def IsDirection (d : List Char) : Prop := d = toDirection ∨ d = fromDirection ∨ d = tofrom

/-- The clause maps the variable with this map type. -/
def Clause.Maps (v d : List Char) : Clause → Prop
  | .map direction items => mapType direction = d ∧ ∃ s ∈ items, mapBaseName (normalize s) = v
  | .other _ => False

/-- What stands before the first colon, `tofrom` without one, if no section comes first. -/
def plainDirection (direction : Option (List Char)) (items : List (List Char)) :
    Option (List Char) :=
  match direction with
  | none => if ∃ s ∈ items, ':' ∈ s then none else some tofrom
  | some d => if ':' ∈ d then none else some (normalize d)

/-- The clause maps the variable, and this is all it states before its items. -/
def Clause.MapsPlainly (v d : List Char) : Clause → Prop
  | .map direction items =>
    plainDirection direction items = some d ∧ ∃ s ∈ items, mapBaseName (normalize s) = v
  | .other _ => False

section
variable {s t d : List Char}

theorem sheltered_of_not_mem {sep : Char} (h : sep ∉ s) : Sheltered sep s :=
  fun p hp => absurd (hp.subset (by simp)) h

theorem Sheltered.append {sep : Char} (hparens : Balanced '(' ')' s) (hbrackets : Balanced '[' ']' s)
    (hs : Sheltered sep s) (ht : Sheltered sep t) : Sheltered sep (s ++ t) := by
  intro p hp
  obtain hp | ⟨q, hq, heq⟩ := prefix_append_cases hp
  · exact hs p hp
  · obtain rfl | ⟨q, x, rfl⟩ := List.eq_nil_or_concat q
    · rw [List.append_nil] at heq
      exact hs p (heq ▸ List.prefix_rfl)
    · rw [List.concat_eq_append, ← List.append_assoc] at heq
      obtain ⟨rfl, hx⟩ := List.append_inj' heq rfl
      obtain rfl := List.singleton_inj.mp hx
      rw [depthOf_append, depthOf_append, hparens.closed, hbrackets.closed, Int.zero_add,
        Int.zero_add]
      exact ht q (by simpa using hq)

theorem sheltered_intercalate {items : List (List Char)} (h : ∀ s ∈ items, Clause.ItemText s) :
    Sheltered ':' (List.intercalate [','] items) := by
  induction items with
  | nil => exact sheltered_of_not_mem (by simp [List.intercalate])
  | cons s items ih =>
    obtain ⟨hs, hitems⟩ := List.forall_mem_cons.mp h
    cases items with
    | nil => simpa [List.intercalate] using hs.colons
    | cons t items =>
      have hcomma : ∀ o c, ',' ≠ o → ',' ≠ c → Balanced o c [','] := fun o c ho hc =>
        balanced_of_forall fun x hx => by
          obtain rfl := List.mem_singleton.mp hx
          exact ⟨ho, hc⟩
      rw [intercalate_cons_cons]
      refine Sheltered.append hs.enclosed.parens hs.enclosed.brackets hs.colons ?_
      refine Sheltered.append (hcomma _ _ (by decide) (by decide))
        (hcomma _ _ (by decide) (by decide)) ?_ (ih hitems)
      exact sheltered_of_not_mem (by simp)

theorem mem_normalize {c : Char} (h : c ∈ s) (hc : isSpace c = false) : c ∈ normalize s := by
  have hone : normalize [c] = [c] := by simp [normalize, normalizeFrom, hc]
  obtain ⟨before, after, rfl⟩ := List.append_of_mem h
  have hin : [c] <:+: before ++ c :: after := ⟨before, after, by simp⟩
  exact (normalize_within hin).subset (by simp [hone])

theorem bracket_of_depth {p : List Char} (h : depthOf '(' ')' p ≠ 0 ∨ depthOf '[' ']' p ≠ 0) :
    ∃ c ∈ p, c = '(' ∨ c = ')' ∨ c = '[' ∨ c = ']' := by
  by_contra hno
  push Not at hno
  have hparens : Balanced '(' ')' p := balanced_of_forall fun x hx => ⟨(hno x hx).1, (hno x hx).2.1⟩
  have hbrackets : Balanced '[' ']' p :=
    balanced_of_forall fun x hx => ⟨(hno x hx).2.2.1, (hno x hx).2.2.2⟩
  obtain h | h := h
  · exact h hparens.closed
  · exact h hbrackets.closed

/-- Text up to a colon inside of brackets is no direction. -/
theorem sheltered_not_direction (h : Sheltered ':' s) (hin : ':' ∈ s) (t : List Char) :
    ¬IsDirection (normalize ((s ++ t).takeWhile (· ≠ ':'))) := by
  obtain ⟨before, after, rfl, hbefore⟩ : ∃ before after, s = before ++ ':' :: after ∧
      ':' ∉ before := List.eq_append_cons_of_mem hin
  have hall : ∀ c ∈ before, decide (c ≠ ':') = true := fun c hc =>
    decide_eq_true fun heq => hbefore (heq ▸ hc)
  have htake : (before ++ ':' :: after ++ t).takeWhile (· ≠ ':') = before := by
    rw [List.append_assoc, List.takeWhile_append_of_pos hall]
    simp
  rw [htake]
  obtain ⟨c, hc, hbracket⟩ := bracket_of_depth (h before ⟨after, by simp⟩)
  intro hd
  have hletter := direction_letters hd c (mem_normalize hc (by
    obtain rfl | rfl | rfl | rfl := hbracket <;> decide))
  obtain rfl | rfl | rfl | rfl := hbracket <;> exact absurd hletter (by decide)

theorem cut_directed (hno : ':' ∉ d) (rest : List Char) :
    (d ++ ':' :: rest).takeWhile (· ≠ ':') = d ∧
      ((d ++ ':' :: rest).dropWhile (· ≠ ':')).tail = rest := by
  have hall : ∀ c ∈ d, decide (c ≠ ':') = true := fun c hc =>
    decide_eq_true fun heq => hno (heq ▸ hc)
  refine ⟨?_, ?_⟩
  · rw [List.takeWhile_append_of_pos hall]
    simp
  · rw [List.dropWhile_append_of_pos hall]
    simp

theorem ItemText.normalize_ne_nil (h : Clause.ItemText s) : normalize s ≠ [] :=
  fun heq => h.base (by rw [heq]; rfl)

/-- The items of a clause are read back, with white space collapsed. -/
theorem readItems_intercalate {items : List (List Char)} (hne : items ≠ [])
    (h : ∀ s ∈ items, Clause.ItemText s) :
    ((splitItems (List.intercalate [','] items)).map normalize).filter (· ≠ []) =
      items.map normalize := by
  obtain ⟨s, rest, rfl⟩ := List.exists_cons_of_ne_nil hne
  have hsplit : splitItems (List.intercalate [','] (s :: rest)) = s :: rest :=
    splitOutside_intercalate rfl rfl fun t ht => (h t ht).enclosed.unsplit_itemDepth
  rw [hsplit]
  refine List.filter_eq_self.mpr fun n hn => decide_eq_true ?_
  obtain ⟨t, ht, rfl⟩ := List.mem_map.mp hn
  exact ItemText.normalize_ne_nil (h t ht)

theorem mem_intercalate_iff {c : Char} (hc : c ≠ ',') {items : List (List Char)} :
    c ∈ List.intercalate [','] items ↔ ∃ s ∈ items, c ∈ s := by
  induction items with
  | nil => simp [List.intercalate]
  | cons s items ih =>
    cases items with
    | nil => simp [List.intercalate]
    | cons t items =>
      rw [intercalate_cons_cons, List.mem_append, List.mem_append, ih]
      simp [hc]

/-- An item is read with one of the three directions exactly if this is all its clause states
before its items. -/
theorem readAs_iff {direction : Option (List Char)} {items : List (List Char)} {item : List Char}
    (h : (Clause.map direction items).WellFormed) (hd : IsDirection d) :
    ReadAs (mapInside direction items) d item ↔
      plainDirection direction items = some d ∧ ∃ s ∈ items, normalize s = item := by
  obtain ⟨hdirection, hne, hitems⟩ := h
  have hread := readItems_intercalate hne hitems
  have hmem : item ∈ items.map normalize ↔ ∃ s ∈ items, normalize s = item := List.mem_map
  -- text of a section comes first, so no direction is read
  have hnone : ∀ {s t : List Char}, Sheltered ':' s → ':' ∈ s → ¬ReadAs (s ++ t) d item := by
    intro s t hs hin hread
    rw [ReadAs, readInside] at hread
    simp only [List.mem_append, hin, true_or, if_true] at hread
    exact sheltered_not_direction hs hin t (hread.1.symm ▸ hd)
  cases direction with
  | none =>
    have hcolon : ':' ∈ List.intercalate [','] items ↔ ∃ s ∈ items, ':' ∈ s :=
      mem_intercalate_iff (by decide)
    rw [mapInside, plainDirection]
    by_cases hin : ∃ s ∈ items, ':' ∈ s
    · have hsome := hnone (t := []) (sheltered_intercalate hitems) (hcolon.mpr hin)
      rw [List.append_nil] at hsome
      simp [hin, hsome]
    · rw [if_neg hin, ReadAs, readInside]
      simp only [hcolon, hin, if_false, hread, hmem, Option.some.injEq]
  | some direction =>
    rw [mapInside, plainDirection]
    by_cases hin : ':' ∈ direction
    · have hsome := hnone (t := ':' :: List.intercalate [','] items) (hdirection direction rfl).2 hin
      simp [hin, hsome]
    · obtain ⟨htake, hdrop⟩ := cut_directed hin (List.intercalate [','] items)
      have hcolon : ':' ∈ direction ++ ':' :: List.intercalate [','] items := by simp
      rw [if_neg hin, ReadAs, readInside, if_pos hcolon, if_pos hcolon, htake, hdrop, hread, hmem,
        Option.some.injEq]

end

/-- The items of a base name are kept under it. -/
def KeyedByBase (byBase : ByBase) : Prop :=
  ∀ v d item, byBase.find? (toLex (v, d)) = some item → mapBaseName item = v

section
variable {m : ByBase} {v d : List Char}

theorem find?_absorbItem (m : ByBase) (dir item v d : List Char) :
    ((absorbItem m dir item).find? (toLex (v, d))).isSome ↔
      (m.find? (toLex (v, d))).isSome ∨ dir = d ∧ mapBaseName item = v ∧ v ≠ [] := by
  unfold absorbItem
  split
  next hempty =>
    constructor
    · exact Or.inl
    · rintro (h | ⟨-, rfl, hne⟩)
      · exact h
      · exact absurd hempty hne
  next hne =>
    rw [SortedMap.find?_insertWith]
    by_cases hkey : toLex (v, d) = toLex (mapBaseName item, dir)
    · obtain ⟨rfl, rfl⟩ := Prod.mk.inj (toLex.injective hkey)
      rw [if_pos rfl]
      cases hfound : m.find? (toLex (mapBaseName item, d)) <;> simp [SortedMap.combine, hne]
    · rw [if_neg hkey]
      constructor
      · exact Or.inl
      · rintro (h | ⟨rfl, rfl, -⟩)
        · exact h
        · exact absurd rfl hkey

theorem KeyedByBase.absorbItem (h : KeyedByBase m) (dir item : List Char) :
    KeyedByBase (absorbItem m dir item) := by
  intro v d found hfound
  unfold LoopFusion.absorbItem at hfound
  split at hfound
  next => exact h v d found hfound
  next =>
    rw [SortedMap.find?_insertWith] at hfound
    split at hfound
    next hkey =>
      obtain ⟨rfl, rfl⟩ := Prod.mk.inj (toLex.injective hkey)
      cases hold : m.find? (toLex (mapBaseName item, d)) with
      | none =>
        rw [hold] at hfound
        obtain rfl := Option.some.inj hfound
        rfl
      | some old =>
        rw [hold, SortedMap.combine, if_neg (Int.lt_irrefl _)] at hfound
        obtain rfl := Option.some.inj hfound
        exact h _ d old hold
    next => exact h v d found hfound

theorem find?_absorb (m : ByBase) (src : MapSets) (v d : List Char) :
    ((absorb m src).find? (toLex (v, d))).isSome ↔ (m.find? (toLex (v, d))).isSome ∨
      ∃ item, src.find? (toLex (d, item)) = some () ∧ mapBaseName item = v ∧ v ≠ [] := by
  have hentries : (∃ item, src.find? (toLex (d, item)) = some () ∧ mapBaseName item = v ∧ v ≠ []) ↔
      ∃ e ∈ src.entries, (ofLex e.1).1 = d ∧ mapBaseName (ofLex e.1).2 = v ∧ v ≠ [] := by
    constructor
    · rintro ⟨item, hfound, hv⟩
      exact ⟨_, SortedMap.mem_entries_iff.mpr hfound, rfl, hv⟩
    · rintro ⟨⟨k, u⟩, hmem, rfl, hv⟩
      exact ⟨(ofLex k).2, SortedMap.mem_entries_iff.mp hmem, hv⟩
  rw [hentries, absorb]
  generalize src.entries = entries
  induction entries generalizing m with
  | nil => simp
  | cons e entries ih =>
    rw [List.foldl_cons]
    refine (ih _).trans ?_
    rw [find?_absorbItem, or_assoc]
    simp only [List.mem_cons, or_and_right, exists_or, exists_eq_left]

theorem KeyedByBase.absorb (h : KeyedByBase m) (src : MapSets) : KeyedByBase (absorb m src) := by
  unfold LoopFusion.absorb
  generalize src.entries = entries
  induction entries generalizing m with
  | nil => exact h
  | cons e entries ih => exact ih (h.absorbItem _ _)

theorem byBase_keyed (a b : List Char) : KeyedByBase (byBase a b) := by
  have hempty : KeyedByBase .empty := by
    intro v d item hfound
    exact absurd hfound (by simp [SortedMap.find?, SortedMap.empty])
  exact (hempty.absorb _).absorb _

theorem find?_byBase (a b v d : List Char) : ((byBase a b).find? (toLex (v, d))).isSome ↔
    ∃ item, ((parseMapClauses a).Lists d item ∨ (parseMapClauses b).Lists d item) ∧
      mapBaseName item = v ∧ v ≠ [] := by
  have hempty : ((SortedMap.empty : ByBase).find? (toLex (v, d))).isSome = false := by
    simp [SortedMap.find?, SortedMap.empty]
  rw [byBase, find?_absorb, find?_absorb, hempty]
  simp only [Bool.false_eq_true, false_or, or_and_right, exists_or]
  rfl

/-- A base name has at most one item under a direction. -/
theorem itemsUnder_filter (h : KeyedByBase m) (d v : List Char) :
    (itemsUnder m d).filter (fun item => mapBaseName item = v) =
      (m.find? (toLex (v, d))).toList := by
  have hkey : (m.entries.filter fun e => (ofLex e.1).2 = d).filter
      (fun e => mapBaseName e.2 = v) = m.entries.filter fun e => e.1 = toLex (v, d) := by
    rw [List.filter_filter]
    refine List.filter_congr fun e he => ?_
    obtain ⟨k, item⟩ := e
    have hbase := h (ofLex k).1 (ofLex k).2 item (SortedMap.mem_entries_iff.mp he)
    rw [← Bool.decide_and, decide_eq_decide, hbase]
    exact ⟨fun hk => congrArg toLex (Prod.ext hk.1 hk.2),
      fun hk => ⟨congrArg (fun k => (ofLex k).1) hk, congrArg (fun k => (ofLex k).2) hk⟩⟩
  have hmap : (itemsUnder m d).filter (fun item => mapBaseName item = v) =
      ((m.entries.filter fun e => (ofLex e.1).2 = d).filter
        (fun e => mapBaseName e.2 = v)).map Prod.snd := List.filter_map
  rw [hmap, hkey, SortedMap.filter_key, List.map_map]
  cases m.find? (toLex (v, d)) <;> rfl

end

/-- The items of the merged map clauses, each with its direction. -/
def mergedItems (a b : List Char) : List (List Char × List Char) := groupItems (mergedGroups a b)

theorem mergedItems_filter (a b v : List Char) :
    (mergedItems a b).filter (fun e => mapBaseName e.1 = v) =
      [toDirection, fromDirection, tofrom].flatMap fun d =>
        ((byBase a b).find? (toLex (v, d))).toList.map (·, d) := by
  have hgroups : mergedItems a b = [toDirection, fromDirection, tofrom].flatMap fun d =>
      (itemsUnder (byBase a b) d).map (·, d) := by
    rw [mergedItems, mergedGroups]
    generalize [toDirection, fromDirection, tofrom] = ds
    induction ds with
    | nil => rfl
    | cons d ds ih =>
      rw [List.map_cons, List.filter_cons, List.flatMap_cons, ← ih]
      split
      next => rfl
      next hempty =>
        have hnil : itemsUnder (byBase a b) d = [] := by simpa using hempty
        rw [hnil]
        rfl
  rw [hgroups, List.filter_flatMap]
  refine List.flatMap_congr fun d _ => ?_
  rw [← itemsUnder_filter (byBase_keyed a b) d v, List.filter_map]
  rfl

/-- One of the three directions is found, and nothing under the others. -/
theorem listed_once_iff {found : List Char → Option (List Char)} {p : List Char → Prop} :
    (∃ e, ([toDirection, fromDirection, tofrom].flatMap fun d => (found d).toList.map (·, d)) = [e] ∧
        p e.2) ↔
      ∃ d, IsDirection d ∧ (∀ d', IsDirection d' → ((found d').isSome ↔ d' = d)) ∧ p d := by
  obtain ⟨hne1, hne2, hne3⟩ : toDirection ≠ fromDirection ∧ toDirection ≠ tofrom ∧
      fromDirection ≠ tofrom := by decide
  unfold IsDirection
  simp only [List.flatMap_cons, List.flatMap_nil, List.append_nil, or_imp, forall_and,
    forall_eq, or_and_right, exists_or, exists_eq_left]
  cases found toDirection <;> cases found fromDirection <;> cases found tofrom <;>
    simp [hne1, hne2, hne3, Ne.symm hne1, Ne.symm hne2, Ne.symm hne3]

section
variable {s piece d item v : List Char} {fuel : Nat}

theorem clausePieces_noMap (h : .other s ∈ clausePieces fuel piece) : ¬"map(".toList <:+: s := by
  induction fuel generalizing piece with
  | zero => exact absurd h (by simp [clausePieces])
  | succ fuel ih =>
    rw [clausePieces] at h
    split at h
    next => exact absurd h (by simp)
    next c rest hrest =>
      split at h
      next =>
        split at h
        next => exact ih h
        next => exact ih ((List.mem_cons.mp h).resolve_left (by simp))
      next hno =>
        obtain heq | hmem := List.mem_cons.mp h
        · obtain rfl := ClausePiece.other.inj heq
          have hcut : cutAtMap (c :: rest) = (c :: (cutAtMap rest).1, (cutAtMap rest).2) := by
            rw [cutAtMap, if_neg hno]
          have hclean := cutAtMap_noMap (c :: rest)
          rwa [hcut] at hclean
        · exact ih hmem

theorem mem_nonMap : piece ∈ (parseMapClauses s).nonMap ↔
    ∃ t, .other t ∈ clausePieces (s.length + 1) s ∧ normalize t = piece ∧ piece ≠ [] := by
  have hfold : ∀ (pieces : List ClausePiece) (acc : ParsedClauses),
      piece ∈ (pieces.foldl .add acc).nonMap ↔ piece ∈ acc.nonMap ∨
        ∃ t, .other t ∈ pieces ∧ normalize t = piece ∧ piece ≠ [] := by
    intro pieces
    induction pieces with
    | nil => simp
    | cons p pieces ih =>
      intro acc
      rw [List.foldl_cons, ih]
      cases p with
      | map inside => simp [ParsedClauses.add]
      | other text =>
        have hadd : piece ∈ (acc.add (.other text)).nonMap ↔
            piece ∈ acc.nonMap ∨ normalize text = piece ∧ piece ≠ [] := by
          rw [ParsedClauses.add]
          split
          next hempty =>
            constructor
            · exact Or.inl
            · rintro (h | ⟨rfl, hne⟩)
              · exact h
              · exact absurd hempty hne
          next hne =>
            rw [List.mem_append, List.mem_singleton]
            exact or_congr_right ⟨fun h => ⟨h.symm, h ▸ hne⟩, fun h => h.1.symm⟩
        rw [hadd, or_assoc]
        simp only [List.mem_cons, ClausePiece.other.injEq, or_and_right, exists_or,
          exists_eq_left]
  rw [parseMapClauses, hfold]
  simp

/-- What is kept of the other text has no `map(`. -/
theorem nonMap_noMap (h : piece ∈ (parseMapClauses s).nonMap) : ¬"map(".toList <:+: piece := by
  obtain ⟨t, ht, rfl, -⟩ := mem_nonMap.mp h
  intro hin
  exact clausePieces_noMap ht (infix_of_normalizeFrom (by simp) (by simp [isSpace]) hin)

theorem PragmaTail.map_wellFormed (a : PragmaTail) {c : Clause} (h : c ∈ a.contents) :
    c.WellFormed := by
  obtain ⟨p, hp, rfl⟩ := List.mem_map.mp h
  exact a.wellFormed.each p hp

/-- The `map` clauses of a tail without other `map(` are found, and the other clauses stand in the
text between them. -/
theorem PragmaTail.pieces (a : PragmaTail)
    (hno : ∀ t, .other t ∈ a.contents → ¬"map(".toList <:+: t) :
    (∀ inside, .map inside ∈ clausePieces (a.text.length + 1) a.text ↔
        ∃ d items, .map d items ∈ a.contents ∧ mapInside d items = inside) ∧
      ∀ t, .other t ∈ a.contents →
        ∃ run, .other run ∈ clausePieces (a.text.length + 1) a.text ∧ t <:+: run :=
  pieces_of_tail a.wellFormed hno (Nat.lt_succ_self a.text.length)

theorem PragmaTail.lists_iff (a : PragmaTail)
    (hno : ∀ t, .other t ∈ a.contents → ¬"map(".toList <:+: t) (hd : IsDirection d) :
    (∃ item, (parseMapClauses a.text).Lists d item ∧ mapBaseName item = v) ↔
      ∃ c ∈ a.contents, c.MapsPlainly v d := by
  have hlists : ∀ item, (parseMapClauses a.text).Lists d item ↔ ∃ direction items,
      .map direction items ∈ a.contents ∧ plainDirection direction items = some d ∧
        ∃ s ∈ items, normalize s = item := by
    intro item
    have hnone : ¬(ParsedClauses.mk .empty []).Lists d item := by
      simp [ParsedClauses.Lists, SortedMap.find?, SortedMap.empty]
    rw [parseMapClauses, lists_foldl, or_iff_left hnone]
    constructor
    · rintro ⟨inside, hin, hread⟩
      obtain ⟨direction, items, hmem, rfl⟩ := ((a.pieces hno).1 inside).mp hin
      exact ⟨direction, items, hmem, (readAs_iff (a.map_wellFormed hmem) hd).mp hread⟩
    · rintro ⟨direction, items, hmem, hplain⟩
      exact ⟨_, ((a.pieces hno).1 _).mpr ⟨direction, items, hmem, rfl⟩,
        (readAs_iff (a.map_wellFormed hmem) hd).mpr hplain⟩
  constructor
  · rintro ⟨item, hitem, hv⟩
    obtain ⟨direction, items, hmem, hplain, s, hs, rfl⟩ := (hlists item).mp hitem
    exact ⟨_, hmem, hplain, s, hs, hv⟩
  · rintro ⟨c, hmem, hmaps⟩
    cases c with
    | map direction items =>
      obtain ⟨hplain, s, hs, hv⟩ := hmaps
      exact ⟨_, (hlists _).mpr ⟨direction, items, hmem, hplain, s, hs, rfl⟩, hv⟩
    | other text => exact absurd hmaps id

theorem PragmaTail.keeps (a : PragmaTail)
    (hno : ∀ t, .other t ∈ a.contents → ¬"map(".toList <:+: t) {t : List Char}
    (ht : .other t ∈ a.contents) : ∃ piece ∈ (parseMapClauses a.text).nonMap,
      normalize t <:+: piece := by
  obtain ⟨run, hrun, hin⟩ := (a.pieces hno).2 t ht
  obtain ⟨⟨c, rest, rfl, hc⟩, -⟩ := a.map_wellFormed ht
  have hpart := normalize_within hin
  refine ⟨normalize run, mem_nonMap.mpr ⟨run, hrun, rfl, fun hempty => ?_⟩, hpart⟩
  have hmem := hpart.subset (mem_normalize List.mem_cons_self hc)
  rw [hempty] at hmem
  exact absurd hmem (by simp)

end

/-- The direction is the join of those with which the clauses map the variable. -/
def IsJoin (clauses : List Clause) (v d : List Char) : Prop :=
  (includesTo d ↔ ∃ c ∈ clauses, ∃ d', c.Maps v d' ∧ includesTo d') ∧
    (includesFrom d ↔ ∃ c ∈ clauses, ∃ d', c.Maps v d' ∧ includesFrom d')

/-- The merged pragma maps every variable of the two pragmas once, with the join of its directions,
and has all of their other clauses. -/
structure MergesFaithfully (a b : PragmaTail) : Prop where
  mapped : ∀ v, (∃ c ∈ a.contents ++ b.contents, ∃ d, c.Maps v d) →
    ∃ e, (mergedItems a.text b.text).filter (fun e => mapBaseName e.1 = v) = [e] ∧
      IsJoin (a.contents ++ b.contents) v e.2
  kept : ∀ t, .other t ∈ a.contents ++ b.contents →
    ∃ piece ∈ (parseMapClauses a.text).nonMap ++ (parseMapClauses b.text).nonMap,
      normalize t <:+: piece

theorem Clause.maps_base_ne_nil {c : Clause} (hc : c.WellFormed) {v d : List Char}
    (h : c.Maps v d) : v ≠ [] := by
  cases c with
  | map direction items =>
    obtain ⟨-, s, hs, rfl⟩ := h
    exact (hc.2.2 s hs).base
  | other text => exact absurd h id

/-- A merge is faithful exactly if no other clause contains `map(`, and each variable is mapped
with just one of the three directions plainly stated, which is the join of its directions. -/
theorem mergeClauses_faithful_iff (a b : PragmaTail) :
    MergesFaithfully a b ↔
      (∀ t, .other t ∈ a.contents ++ b.contents → ¬"map(".toList <:+: t) ∧
        ∀ v, (∃ c ∈ a.contents ++ b.contents, ∃ d, c.Maps v d) →
          ∃ d, IsDirection d ∧
            (∀ d', IsDirection d' →
              ((∃ c ∈ a.contents ++ b.contents, c.MapsPlainly v d') ↔ d' = d)) ∧
            IsJoin (a.contents ++ b.contents) v d := by
  have hclean : (∀ t, .other t ∈ a.contents ++ b.contents →
      ∃ piece ∈ (parseMapClauses a.text).nonMap ++ (parseMapClauses b.text).nonMap,
        normalize t <:+: piece) ↔
      ∀ t, .other t ∈ a.contents ++ b.contents → ¬"map(".toList <:+: t := by
    constructor
    · intro h t ht hmap
      obtain ⟨piece, hpiece, hin⟩ := h t ht
      have hmap := (normalize_within hmap).trans hin
      obtain hpiece | hpiece := List.mem_append.mp hpiece
      · exact nonMap_noMap hpiece hmap
      · exact nonMap_noMap hpiece hmap
    · intro hno t ht
      obtain ht | ht := List.mem_append.mp ht
      · obtain ⟨piece, hpiece, hin⟩ := a.keeps
          (fun t ht => hno t (List.mem_append_left _ ht)) ht
        exact ⟨piece, List.mem_append_left _ hpiece, hin⟩
      · obtain ⟨piece, hpiece, hin⟩ := b.keeps
          (fun t ht => hno t (List.mem_append_right _ ht)) ht
        exact ⟨piece, List.mem_append_right _ hpiece, hin⟩
  -- under that condition, the items found are those that are plainly mapped
  have hitems : (∀ t, .other t ∈ a.contents ++ b.contents → ¬"map(".toList <:+: t) →
      ∀ v, (∃ c ∈ a.contents ++ b.contents, ∃ d, c.Maps v d) →
        ((∃ e, (mergedItems a.text b.text).filter (fun e => mapBaseName e.1 = v) = [e] ∧
            IsJoin (a.contents ++ b.contents) v e.2) ↔
          ∃ d, IsDirection d ∧
            (∀ d', IsDirection d' →
              ((∃ c ∈ a.contents ++ b.contents, c.MapsPlainly v d') ↔ d' = d)) ∧
            IsJoin (a.contents ++ b.contents) v d) := by
    intro hno v hv
    have hne : v ≠ [] := by
      obtain ⟨c, hc, d, hmaps⟩ := hv
      have hwf : c.WellFormed := by
        obtain hc | hc := List.mem_append.mp hc
        · exact a.map_wellFormed hc
        · exact b.map_wellFormed hc
      exact Clause.maps_base_ne_nil hwf hmaps
    have hfound : ∀ d, IsDirection d → (((byBase a.text b.text).find? (toLex (v, d))).isSome ↔
        ∃ c ∈ a.contents ++ b.contents, c.MapsPlainly v d) := by
      intro d hd
      have ha := a.lists_iff (v := v) (fun t ht => hno t (List.mem_append_left _ ht)) hd
      have hb := b.lists_iff (v := v) (fun t ht => hno t (List.mem_append_right _ ht)) hd
      rw [find?_byBase]
      simp only [hne, ne_eq, not_false_eq_true, and_true, or_and_right, exists_or, ha, hb,
        List.mem_append]
    rw [mergedItems_filter, listed_once_iff]
    refine exists_congr fun d => and_congr_right fun _ => and_congr_left fun _ => ?_
    exact forall₂_congr fun d' hd' => by rw [hfound d' hd']
  constructor
  · intro h
    have hno := hclean.mp h.kept
    exact ⟨hno, fun v hv => (hitems hno v hv).mp (h.mapped v hv)⟩
  · rintro ⟨hno, hmaps⟩
    exact ⟨fun v hv => (hitems hno v hv).mpr (hmaps v hv), hclean.mpr hno⟩

theorem mapsA_wellFormed {d : List Char} (h : IsDirection d) :
    TailWellFormed [([], .map (some d) ["a".toList])] [] := by
  have hdirection : ∀ d' ∈ some d, Balanced '(' ')' d' ∧ Sheltered ':' d' := by
    rintro d' ⟨⟩
    obtain rfl | rfl | rfl := h <;> exact ⟨by decide, by decide⟩
  refine ⟨by simp, by simp, ?_, .singleton _⟩
  intro p hp
  obtain rfl := List.mem_singleton.mp hp
  refine ⟨hdirection, by simp, fun s hs => ?_⟩
  obtain rfl := List.mem_singleton.mp hs
  exact ⟨by decide, by decide, by decide⟩

/-- A pragma that maps `a`. -/
def mapsA (d : List Char) (h : IsDirection d) : PragmaTail := ⟨_, _, mapsA_wellFormed h⟩

/-- One loop reads `a` and the next one writes it: the merged pragma maps it twice. -/
theorem toAndFrom_mappedTwice :
    mergeClauses "map(to:a)".toList "map(from:a)".toList = "map(to:a) map(from:a)".toList ∧
      ¬MergesFaithfully (mapsA toDirection (Or.inl rfl)) (mapsA fromDirection (Or.inr (Or.inl rfl))) := by
  refine ⟨by decide, fun h => ?_⟩
  have hmaps : (Clause.map (some toDirection) ["a".toList]).Maps "a".toList toDirection :=
    ⟨by decide, "a".toList, by simp, by decide⟩
  obtain ⟨e, he, -⟩ := h.mapped "a".toList ⟨_, List.mem_append_left _ (List.mem_singleton_self _), _, hmaps⟩
  have hitems : mergedItems (mapsA toDirection (Or.inl rfl)).text
      (mapsA fromDirection (Or.inr (Or.inl rfl))).text =
        [("a".toList, toDirection), ("a".toList, fromDirection)] := by
    decide
  rw [hitems] at he
  have htwice : ([("a".toList, toDirection), ("a".toList, fromDirection)].filter
      fun e => mapBaseName e.1 = "a".toList).length = 2 := by
    decide
  rw [he] at htwice
  exact absurd htwice (by simp)

end LoomX.LoopFusion
