import LoomX.MapJoin
import Mathlib.Data.Prod.Lex

namespace LoomX.LoopFusion

def isSpace (c : Char) : Bool := c == ' ' || '\t' ≤ c && c ≤ '\r'

def isIdentChar (c : Char) : Bool := c.isAlphanum || c == '_'

/-- `normalize` after some characters, `started` if one of them was no white space. -/
def normalizeFrom (started pending : Bool) : List Char → List Char
  | [] => []
  | c :: rest =>
    if isSpace c then normalizeFrom started started rest
    else if pending then ' ' :: c :: normalizeFrom true false rest
    else c :: normalizeFrom true false rest

/-- Collapses runs of white space. -/
def normalize (s : List Char) : List Char := normalizeFrom false false s

/-- A `map` clause, by what stands in its parentheses, or other text. -/
inductive ClausePiece
  | map (inside : List Char)
  | other (text : List Char)
  deriving DecidableEq, Repr

/-- Cuts at the next `map(`. -/
def cutAtMap : List Char → List Char × List Char
  | [] => ([], [])
  | c :: rest =>
    if "map(".toList.isPrefixOf (c :: rest) then ([], c :: rest)
    else (c :: (cutAtMap rest).1, (cutAtMap rest).2)

/-- The parts of the tail of a pragma. A `map(` that is not closed loses its first character. -/
def clausePieces : Nat → List Char → List ClausePiece
  | 0, _ => []
  | fuel + 1, s =>
    match s.dropWhile isSpace with
    | [] => []
    | c :: rest =>
      if "map(".toList.isPrefixOf (c :: rest) then
        match cutAtClose id '(' ')' 1 (rest.drop 3) with
        | none => clausePieces fuel rest
        | some (inside, _, after) => .map inside :: clausePieces fuel after
      else .other (c :: (cutAtMap rest).1) :: clausePieces fuel (cutAtMap rest).2

def itemDepth (depth : Int) (c : Char) : Int :=
  if c = '(' ∨ c = '[' then depth + 1 else if c = ')' ∨ c = ']' then depth - 1 else depth

def splitItems (itemList : List Char) : List (List Char) :=
  splitOutside itemDepth (· == 0) ',' 0 [] itemList

/-- The direction of a clause, what stands before the first colon, and its items. -/
def readInside (inside : List Char) : List Char × List (List Char) :=
  let direction := if ':' ∈ inside then normalize (inside.takeWhile (· ≠ ':')) else tofrom
  let itemList := if ':' ∈ inside then (inside.dropWhile (· ≠ ':')).tail else inside
  (direction, ((splitItems itemList).map normalize).filter (· ≠ []))

/-- A set of items for each direction, as the set of pairs in the order of an iteration over
both. -/
abbrev MapSets := SortedMap (List Char ×ₗ List Char) Unit

structure ParsedClauses where
  maps : MapSets
  nonMap : List (List Char)

namespace ParsedClauses

def insertItems (direction : List Char) (items : List (List Char)) (maps : MapSets) : MapSets :=
  items.foldl (fun maps item => maps.insertWith (fun _ _ => ()) (toLex (direction, item)) ()) maps

def add (acc : ParsedClauses) : ClausePiece → ParsedClauses
  | .map inside =>
    { acc with maps := insertItems (readInside inside).1 (readInside inside).2 acc.maps }
  | .other text =>
    if normalize text = [] then acc else { acc with nonMap := acc.nonMap ++ [normalize text] }

end ParsedClauses

def parseMapClauses (clauses : List Char) : ParsedClauses :=
  (clausePieces (clauses.length + 1) clauses).foldl .add ⟨.empty, []⟩

/-- The item is in the set of the direction. -/
def ParsedClauses.Lists (parsed : ParsedClauses) (direction item : List Char) : Prop :=
  parsed.maps.find? (toLex (direction, item)) = some ()

/-- The clause is read as one with this direction and this item. -/
def ReadAs (inside direction item : List Char) : Prop :=
  (readInside inside).1 = direction ∧ item ∈ (readInside inside).2

theorem dropWhile_gap {gap s : List Char} (h : ∀ c ∈ gap, isSpace c = true) :
    (gap ++ s).dropWhile isSpace = s.dropWhile isSpace :=
  List.dropWhile_append_of_pos h

theorem clausePieces_map {fuel : Nat} {gap inside : List Char} (rest : List Char)
    (hgap : ∀ c ∈ gap, isSpace c = true) (h : Balanced '(' ')' inside) :
    clausePieces (fuel + 1) (gap ++ ("map(".toList ++ (inside ++ ')' :: rest))) =
      .map inside :: clausePieces fuel rest := by
  have hstart : (gap ++ ("map(".toList ++ (inside ++ ')' :: rest))).dropWhile isSpace =
      'm' :: 'a' :: 'p' :: '(' :: (inside ++ ')' :: rest) := by
    rw [dropWhile_gap hgap]
    rfl
  have hcut := h.cutAtClose (by decide) rest
  rw [clausePieces, hstart]
  simp [hcut]

theorem find?_insertItems {direction : List Char} {items : List (List Char)} {maps : MapSets}
    {q : List Char ×ₗ List Char} :
    (ParsedClauses.insertItems direction items maps).find? q = some () ↔
      (∃ item ∈ items, q = toLex (direction, item)) ∨ maps.find? q = some () := by
  unfold ParsedClauses.insertItems
  induction items generalizing maps with
  | nil => simp
  | cons item items ih =>
    rw [List.foldl_cons, ih, SortedMap.find?_insertWith]
    have hunit : ∀ found : Option Unit,
        SortedMap.combine (fun _ _ => ()) found () = some () := fun found => by cases found <;> rfl
    by_cases hq : q = toLex (direction, item)
    · simp [hq, hunit]
    · simp [hq]

theorem lists_foldl {pieces : List ClausePiece} {acc : ParsedClauses} {direction item : List Char} :
    (pieces.foldl .add acc).Lists direction item ↔
      (∃ inside, .map inside ∈ pieces ∧ ReadAs inside direction item) ∨
        acc.Lists direction item := by
  induction pieces generalizing acc with
  | nil => simp
  | cons piece pieces ih =>
    rw [List.foldl_cons, ih]
    cases piece with
    | map inside =>
      have hadd : (acc.add (.map inside)).Lists direction item ↔
          ReadAs inside direction item ∨ acc.Lists direction item := by
        unfold ParsedClauses.Lists ParsedClauses.add ReadAs
        rw [find?_insertItems]
        simp [eq_comm, and_comm]
      rw [hadd]
      simp only [List.mem_cons, ClausePiece.map.injEq, or_and_right, exists_or, exists_eq_left]
      rw [or_left_comm, or_assoc]
    | other text =>
      have hadd : (acc.add (.other text)).Lists direction item ↔ acc.Lists direction item := by
        simp only [ParsedClauses.Lists, ParsedClauses.add]
        split <;> rfl
      simp [hadd]

/-- A text whose parentheses and square brackets are closed, with commas only inside of them. -/
structure Enclosed (s : List Char) : Prop where
  parens : Balanced '(' ')' s
  brackets : Balanced '[' ']' s
  commas : ∀ p, p ++ [','] <+: s → depthOf '(' ')' p ≠ 0 ∨ depthOf '[' ']' p ≠ 0

instance (s : List Char) : Decidable (Enclosed s) :=
  decidable_of_iff (Balanced '(' ')' s ∧ Balanced '[' ']' s ∧ ∀ p ∈ s.inits,
      p ++ [','] <+: s → depthOf '(' ')' p ≠ 0 ∨ depthOf '[' ']' p ≠ 0)
    ⟨fun h => ⟨h.1, h.2.1, fun p hp =>
        h.2.2 p ((List.mem_inits p s).mpr ((List.prefix_append p [',']).trans hp)) hp⟩,
      fun h => ⟨h.parens, h.brackets, fun p _ => h.commas p⟩⟩

/-- A trimmed item. -/
structure ItemName (name : List Char) : Prop where
  enclosed : Enclosed name
  first : ∃ c rest, name = c :: rest ∧ isSpace c = false
  last : ∃ front c, name = front ++ [c] ∧ isSpace c = false

/-- What is mapped: trimmed items to the three directions. -/
def MapWellFormed (m : MappedVars) : Prop :=
  ∀ name d, m.find? name = some d →
    ItemName name ∧ (d = toDirection ∨ d = fromDirection ∨ d = tofrom)

section
variable {s : List Char}

theorem foldl_itemDepth (s : List Char) :
    s.foldl itemDepth 0 = depthOf '(' ')' s + depthOf '[' ']' s := by
  have hstep : ∀ (d : Int) (c : Char), itemDepth d c =
      d + bracketStep '(' ')' 0 c + bracketStep '[' ']' 0 c := by
    intro d c
    unfold itemDepth bracketStep
    by_cases h1 : c = '('
    · simp [h1]
    · by_cases h2 : c = ')'
      · simp [h2]; omega
      · by_cases h3 : c = '['
        · simp [h3]
        · by_cases h4 : c = ']'
          · simp [h4]; omega
          · simp [h1, h2, h3, h4]
  suffices ∀ d : Int, s.foldl itemDepth d = d + depthOf '(' ')' s + depthOf '[' ']' s by
    rw [this]
    omega
  induction s with
  | nil => simp [depthOf]
  | cons c s ih =>
    intro d
    rw [List.foldl_cons, ih, hstep, depthOf_cons, depthOf_cons]
    omega

theorem Enclosed.unsplit_itemDepth (h : Enclosed s) :
    Unsplit itemDepth (· == 0) ',' 0 s := by
  refine ⟨by rw [foldl_itemDepth, h.parens.closed, h.brackets.closed]; rfl, fun p hp => ?_⟩
  have hpre : p <+: s := (List.prefix_append p [',']).trans hp
  have hparens := h.parens.nonneg p hpre
  have hbrackets := h.brackets.nonneg p hpre
  have hcomma := h.commas p hp
  rw [foldl_itemDepth, depthOf_append, depthOf_append]
  have hzero : depthOf '(' ')' [','] = 0 ∧ depthOf '[' ']' [','] = 0 := by decide
  simp only [hzero.1, hzero.2, beq_eq_false_iff_ne]
  omega

/-- The state of `splitTopLevelCommas`. -/
def commaStep (depths : Int × Int) (c : Char) : Int × Int :=
  (depthAfter '(' ')' depths.1 c, depthAfter '[' ']' depths.2 c)

theorem splitCommasFrom_eq (parens brackets : Int) (current s : List Char) :
    splitCommasFrom parens brackets current s =
      splitOutside commaStep (· == (0, 0)) ',' (parens, brackets) current s := by
  induction s generalizing parens brackets current with
  | nil => rfl
  | cons c s ih =>
    rw [splitCommasFrom, splitOutside]
    by_cases hc : c = ','
    · subst hc
      have hstep : commaStep (parens, brackets) ',' = (parens, brackets) := rfl
      have hparens : depthAfter '(' ')' parens ',' = parens := rfl
      have hbrackets : depthAfter '[' ']' brackets ',' = brackets := rfl
      simp only [hstep, hparens, hbrackets, true_and, beq_iff_eq, Prod.mk.injEq, ih]
    · simp only [hc, false_and, if_false, ih]
      rfl

theorem foldl_commaStep (s : List Char) (parens brackets : Int) :
    s.foldl commaStep (parens, brackets) =
      (parens + depthOf '(' ')' s, brackets + depthOf '[' ']' s) := by
  induction s generalizing parens brackets with
  | nil => simp [depthOf]
  | cons c s ih =>
    rw [List.foldl_cons, commaStep, ih, depthOf_cons, depthOf_cons]
    have hp := foldl_bracketStep '(' ')' parens [c]
    have hb := foldl_bracketStep '[' ']' brackets [c]
    simp only [List.foldl_cons, List.foldl_nil, depthOf] at hp hb
    have hparens : depthAfter '(' ')' parens c = bracketStep '(' ')' parens c := rfl
    have hbrackets : depthAfter '[' ']' brackets c = bracketStep '[' ']' brackets c := rfl
    rw [hparens, hbrackets, hp, hb, Int.add_assoc, Int.add_assoc]

theorem Enclosed.unsplit_commaStep (h : Enclosed s) :
    Unsplit commaStep (· == (0, 0)) ',' (0, 0) s := by
  refine ⟨by rw [foldl_commaStep, h.parens.closed, h.brackets.closed]; rfl, fun p hp => ?_⟩
  have hcomma := h.commas p hp
  have hzero : depthOf '(' ')' [','] = 0 ∧ depthOf '[' ']' [','] = 0 := by decide
  rw [foldl_commaStep, depthOf_append, depthOf_append, beq_eq_false_iff_ne]
  intro heq
  obtain ⟨h1, h2⟩ := Prod.mk.inj heq
  omega

end

section
variable {name : List Char} {names : List (List Char)}

/-- With a blank after each comma, every item but the first starts with it. -/
theorem intercalate_comma_blank (name : List Char) (names : List (List Char)) :
    List.intercalate ", ".toList (name :: names) =
      List.intercalate [','] (name :: names.map (' ' :: ·)) := by
  induction names generalizing name with
  | nil => rfl
  | cons n names ih =>
    have hblank : List.intercalate [','] ((' ' :: n) :: names.map (' ' :: ·)) =
        ' ' :: List.intercalate [','] (n :: names.map (' ' :: ·)) := by
      cases names <;> simp [List.intercalate]
    rw [intercalate_cons_cons, ih, List.map_cons, intercalate_cons_cons, hblank]
    simp

theorem Enclosed.cons_blank {s : List Char} (h : Enclosed s) : Enclosed (' ' :: s) := by
  have hdepth : ∀ o c, ' ' ≠ o → ' ' ≠ c → ∀ p, depthOf o c (' ' :: p) = depthOf o c p :=
    fun o c ho hc p => depthOf_other ho hc p
  have hbalanced : ∀ o c, ' ' ≠ o → ' ' ≠ c → Balanced o c s → Balanced o c (' ' :: s) := by
    intro o c ho hc hs
    have hblank : Balanced o c [' '] :=
      balanced_of_forall fun x hx => by
        obtain rfl := List.mem_singleton.mp hx
        exact ⟨ho, hc⟩
    exact hblank.append hs
  refine ⟨hbalanced _ _ (by decide) (by decide) h.parens,
    hbalanced _ _ (by decide) (by decide) h.brackets, fun p hp => ?_⟩
  cases p with
  | nil =>
    obtain ⟨t, ht⟩ := hp
    simp at ht
  | cons c p =>
    obtain ⟨rfl, hrest⟩ := List.cons_prefix_cons.mp hp
    rw [hdepth _ _ (by decide) (by decide), hdepth _ _ (by decide) (by decide)]
    exact h.commas p hrest

theorem isBlank_isSpace {c : Char} (h : isSpace c = false) : isBlank c = false := by
  unfold isBlank
  rw [Bool.or_eq_false_iff, beq_eq_false_iff_ne, beq_eq_false_iff_ne]
  refine ⟨?_, ?_⟩
  · rintro rfl
    simp [isSpace] at h
  · rintro rfl
    simp [isSpace] at h

theorem ItemName.trimBlank (h : ItemName name) : trimBlank name = name := by
  obtain ⟨c, rest, hname, hc⟩ := h.first
  obtain ⟨front, d, hname', hd⟩ := h.last
  have hfirst : name.dropWhile isBlank = name := by
    rw [hname, List.dropWhile_cons_of_neg (by simp [isBlank_isSpace hc])]
  rw [LoomX.trimBlank, hfirst, hname', List.reverse_append, List.reverse_singleton,
    List.singleton_append, List.dropWhile_cons_of_neg (by simp [isBlank_isSpace hd])]
  simp

theorem trimBlank_cons_blank (name : List Char) : trimBlank (' ' :: name) = trimBlank name := by
  unfold trimBlank
  rw [List.dropWhile_cons_of_pos (by rfl)]

theorem enclosed_pieces (h : ∀ n ∈ name :: names, ItemName n) :
    ∀ s ∈ name :: names.map (' ' :: ·), Enclosed s := by
  obtain ⟨hname, hnames⟩ := List.forall_mem_cons.mp h
  refine List.forall_mem_cons.mpr ⟨hname.enclosed, fun s hs => ?_⟩
  obtain ⟨n, hn, rfl⟩ := List.mem_map.mp hs
  exact (hnames n hn).enclosed.cons_blank

/-- The names of a clause are read back. -/
theorem clauseNames_intercalate (h : ∀ n ∈ name :: names, ItemName n) :
    clauseNames (List.intercalate ", ".toList (name :: names)) = name :: names := by
  have hne : List.intercalate ", ".toList (name :: names) ≠ [] := by
    obtain ⟨c, rest, hname, -⟩ := (h name (by simp)).first
    cases names <;> simp [List.intercalate, hname]
  have hsplit : splitOutside commaStep (· == (0, 0)) ',' (0, 0) []
      (List.intercalate [','] (name :: names.map (' ' :: ·))) = name :: names.map (' ' :: ·) :=
    splitOutside_intercalate rfl rfl fun s hs => (enclosed_pieces h s hs).unsplit_commaStep
  have htrim : (name :: names.map (' ' :: ·)).map trimBlank = name :: names := by
    have hnames : names.map (trimBlank ∘ fun n => ' ' :: n) = names.map id := by
      refine List.map_congr_left fun n hn => ?_
      rw [Function.comp_apply, trimBlank_cons_blank, (h n (List.mem_cons_of_mem _ hn)).trimBlank]
      rfl
    rw [List.map_cons, (h name (by simp)).trimBlank, List.map_map, hnames, List.map_id]
  have hkeep : ∀ n ∈ name :: names, decide (n ≠ []) = true := by
    intro n hn
    obtain ⟨c, rest, rfl, -⟩ := (h n hn).first
    simp
  rw [clauseNames, splitTopLevelCommas, if_neg hne, splitCommasFrom_eq, intercalate_comma_blank,
    hsplit, htrim, List.filter_eq_self.mpr hkeep]

end

/-- What stands in the parentheses of a rendered group. -/
def groupInside (g : List Char × List (List Char)) : List Char :=
  g.1 ++ ':' :: List.intercalate ", ".toList g.2

/-- A group of a well-formed map. -/
structure GroupWellFormed (g : List Char × List (List Char)) : Prop where
  direction : g.1 = toDirection ∨ g.1 = fromDirection ∨ g.1 = tofrom
  nonempty : g.2 ≠ []
  names : ∀ n ∈ g.2, ItemName n

section
variable {g : List Char × List (List Char)} {groups : List (List Char × List (List Char))}

theorem renderGroup_eq (g : List Char × List (List Char)) :
    renderGroup g = "map(".toList ++ (groupInside g ++ [')']) := by
  unfold renderGroup groupInside
  simp only [List.append_assoc]
  rfl

theorem direction_letters {d : List Char} (h : d = toDirection ∨ d = fromDirection ∨ d = tofrom) :
    ∀ x ∈ d, x.isAlpha = true := by
  have hto : ∀ x ∈ ['t', 'o'], x.isAlpha = true := by simp
  have hfrom : ∀ x ∈ ['f', 'r', 'o', 'm'], x.isAlpha = true := by simp
  obtain rfl | rfl | rfl := h
  · exact hto
  · exact hfrom
  · exact List.forall_mem_append.mpr ⟨hto, hfrom⟩

theorem direction_noColon {d : List Char} (h : d = toDirection ∨ d = fromDirection ∨ d = tofrom) :
    ∀ x ∈ d, x ≠ ':' := by
  rintro x hx rfl
  exact absurd (direction_letters h ':' hx) (by decide)

theorem GroupWellFormed.balanced (h : GroupWellFormed g) : Balanced '(' ')' (groupInside g) := by
  have hdirection : Balanced '(' ')' (g.1 ++ [':']) := by
    refine balanced_of_forall fun x hx => ?_
    obtain hx | hx := List.mem_append.mp hx
    · have hletter := direction_letters h.direction x hx
      refine ⟨?_, ?_⟩ <;> rintro rfl <;> exact absurd hletter (by decide)
    · obtain rfl := List.mem_singleton.mp hx
      decide
  have hitems : Balanced '(' ')' (List.intercalate ", ".toList g.2) :=
    Balanced.intercalate (balanced_of_forall (by simp)) fun n hn => (h.names n hn).enclosed.parens
  have hboth := hdirection.append hitems
  rwa [List.append_assoc, List.singleton_append] at hboth

theorem cut_groupInside (h : GroupWellFormed g) :
    ':' ∈ groupInside g ∧ (groupInside g).takeWhile (· ≠ ':') = g.1 ∧
      ((groupInside g).dropWhile (· ≠ ':')).tail = List.intercalate ", ".toList g.2 := by
  have hall : ∀ c ∈ g.1, decide (c ≠ ':') = true := fun c hc =>
    decide_eq_true (direction_noColon h.direction c hc)
  unfold groupInside
  refine ⟨by simp, ?_, ?_⟩
  · rw [List.takeWhile_append_of_pos hall]
    simp
  · rw [List.dropWhile_append_of_pos hall]
    simp

theorem GroupWellFormed.readMapClause (h : GroupWellFormed g) :
    readMapClause (groupInside g) = g.2.map fun n => (n, g.1) := by
  obtain ⟨hcolon, htake, hdrop⟩ := cut_groupInside h
  have hdirection : clauseDirection g.1 = g.1 := by
    obtain hd | hd | hd := h.direction <;> rw [hd] <;> decide
  cases hnames : g.2 with
  | nil => exact absurd hnames h.nonempty
  | cons n names =>
    rw [LoomX.readMapClause, if_pos hcolon, htake, hdrop, hdirection, hnames,
      clauseNames_intercalate (hnames ▸ h.names)]

theorem mapClausesFrom_clause {fuel : Nat} {inside : List Char} (rest : List Char)
    (h : Balanced '(' ')' inside) :
    mapClausesFrom (fuel + 1) ("map(".toList ++ (inside ++ ')' :: rest)) =
      inside :: mapClausesFrom fuel rest := by
  have htext : "map(".toList ++ (inside ++ ')' :: rest) =
      'm' :: 'a' :: 'p' :: '(' :: (inside ++ ')' :: rest) := rfl
  have hcut := h.cutAtClose (by decide) rest
  rw [htext, mapClausesFrom]
  simp [hcut]

theorem renderGroup_append (g : List Char × List (List Char)) (rest : List Char) :
    renderGroup g ++ rest = "map(".toList ++ (groupInside g ++ ')' :: rest) := by
  rw [renderGroup_eq]
  simp only [List.append_assoc, List.singleton_append]

/-- The clauses of a rendered text are found again. -/
theorem mapClausesFrom_groups (h : ∀ g ∈ groups, GroupWellFormed g) {fuel : Nat}
    (hfuel : (List.intercalate " ".toList (groups.map renderGroup)).length ≤ fuel) :
    mapClausesFrom fuel (List.intercalate " ".toList (groups.map renderGroup)) =
      groups.map groupInside := by
  induction groups generalizing fuel with
  | nil => cases fuel <;> rfl
  | cons g groups ih =>
    obtain ⟨hg, hgroups⟩ := List.forall_mem_cons.mp h
    cases groups with
    | nil =>
      have htext : List.intercalate " ".toList ([g].map renderGroup) = renderGroup g ++ [] := by
        simp [List.intercalate]
      rw [htext, renderGroup_append] at hfuel ⊢
      obtain ⟨fuel, rfl⟩ : ∃ f, fuel = f + 1 := ⟨fuel - 1, by simp at hfuel; omega⟩
      rw [mapClausesFrom_clause _ hg.balanced]
      cases fuel <;> rfl
    | cons g' groups =>
      have htext : List.intercalate " ".toList ((g :: g' :: groups).map renderGroup) =
          renderGroup g ++ ' ' :: List.intercalate " ".toList ((g' :: groups).map renderGroup) :=
        intercalate_cons_cons _ _ _ _
      rw [htext, renderGroup_append] at hfuel ⊢
      simp only [List.length_append, List.length_cons] at hfuel
      obtain ⟨fuel, rfl⟩ : ∃ f, fuel = f + 2 := ⟨fuel - 2, by omega⟩
      rw [mapClausesFrom_clause _ hg.balanced, List.map_cons]
      congr 1
      exact ih hgroups (by omega)

/-- The mappings read from a rendered text are those of its groups. -/
theorem mappings_groups (h : ∀ g ∈ groups, GroupWellFormed g) :
    mappings [List.intercalate " ".toList (groups.map renderGroup)] =
      (groupItems groups).map fun e => (baseVariable e.1, e.2) := by
  rw [mappings, List.flatMap_singleton, mapClauses, mapClausesFrom_groups h le_rfl,
    List.flatMap_map, groupItems, List.map_flatMap]
  refine List.flatMap_congr fun g hg => ?_
  have hg := h g hg
  have hcut : cutAtColon 0 0 (groupInside g) = some (g.1, List.intercalate ", ".toList g.2) := by
    obtain hd | hd | hd := hg.direction <;> (rw [groupInside, hd]; rfl)
  have hdirected : Directed (groupInside g) :=
    ⟨_, _, hcut, fun hc => direction_noColon hg.direction ':' hc rfl⟩
  rw [clauseMappings_of_directed hdirected, hg.readMapClause]

end

section
variable {m : MappedVars}

theorem directionGroups_nonempty (m : MappedVars) : ∀ g ∈ (directionGroups m).entries, g.2 ≠ [] := by
  suffices ∀ (l : List (List Char × List Char)) (groups : SortedMap (List Char) (List (List Char))),
      (∀ g ∈ groups.entries, g.2 ≠ []) →
      ∀ g ∈ (l.foldl (fun groups e => groups.insertWith (· ++ ·) e.2 [e.1]) groups).entries,
        g.2 ≠ [] from this m.entries .empty (by simp [SortedMap.empty])
  intro l
  induction l with
  | nil => exact fun groups h => h
  | cons e l ih => exact fun groups h => ih _ (SortedMap.insertEntry_nonempty h)

theorem groups_wellFormed (hm : MapWellFormed m) :
    ∀ g ∈ (directionGroups m).entries, GroupWellFormed g := by
  intro g hg
  have hentry : ∀ n ∈ g.2, m.find? n = some g.1 := by
    intro n hn
    have hmem : (n, g.1) ∈ groupItems (directionGroups m).entries :=
      List.mem_flatMap.mpr ⟨g, hg, List.mem_map.mpr ⟨n, hn, rfl⟩⟩
    exact SortedMap.mem_entries_iff.mp ((groupItems_perm m).subset hmem)
  have hne := directionGroups_nonempty m g hg
  obtain ⟨n, hn⟩ := List.exists_mem_of_ne_nil _ hne
  exact ⟨(hm n g.1 (hentry n hn)).2, hne, fun n hn => (hm n g.1 (hentry n hn)).1⟩

theorem collectedItems_build (hm : MapWellFormed m) :
    collectedItems (buildTargetDataMapClause m) = groupItems (directionGroups m).entries := by
  have hgroups := groups_wellFormed hm
  rw [collectedItems, mapClauses, buildTargetDataMapClause, mapClausesFrom_groups hgroups le_rfl,
    List.flatMap_map, groupItems]
  exact List.flatMap_congr fun g hg => (hgroups g hg).readMapClause

/-- The map that is collected from the rendered text. -/
theorem collectMappedVars_build (hm : MapWellFormed m) :
    collectMappedVars (buildTargetDataMapClause m) = m := by
  apply SortedMap.ext_find?
  intro q
  rw [collectMappedVars, collectedItems_build hm, mergeItems, SortedMap.find?_foldl]
  have hperm := (groupItems_perm m).filter fun e => e.1 = q
  rw [SortedMap.filter_key] at hperm
  cases hq : m.find? q with
  | none =>
    rw [hq] at hperm
    have hnil := List.perm_nil.mp hperm
    rw [hnil]
    rfl
  | some d =>
    rw [hq] at hperm
    have hone := List.perm_singleton.mp hperm
    rw [hone]
    rfl

end

section
variable {g : List Char × List (List Char)} {groups : List (List Char × List (List Char))}
  {m : MappedVars} {name : List Char}

theorem clausePieces_groups (h : ∀ g ∈ groups, GroupWellFormed g) {fuel : Nat}
    (hfuel : (List.intercalate " ".toList (groups.map renderGroup)).length < fuel) (gap : List Char)
    (hgap : ∀ c ∈ gap, isSpace c = true) :
    clausePieces fuel (gap ++ List.intercalate " ".toList (groups.map renderGroup)) =
      groups.map fun g => .map (groupInside g) := by
  induction groups generalizing fuel gap with
  | nil =>
    obtain ⟨fuel, rfl⟩ : ∃ f, fuel = f + 1 := ⟨fuel - 1, by omega⟩
    have hempty : (gap ++ []).dropWhile isSpace = [] := by
      rw [dropWhile_gap hgap]
      rfl
    simp only [List.map_nil, List.intercalate, List.intersperse_nil, List.flatten_nil]
    rw [clausePieces, hempty]
  | cons g groups ih =>
    obtain ⟨hg, hgroups⟩ := List.forall_mem_cons.mp h
    obtain ⟨fuel, rfl⟩ : ∃ f, fuel = f + 1 := ⟨fuel - 1, by omega⟩
    have hrest : ∃ rest, List.intercalate " ".toList ((g :: groups).map renderGroup) =
        renderGroup g ++ rest ∧ clausePieces fuel rest = groups.map fun g => .map (groupInside g) := by
      cases groups with
      | nil =>
        refine ⟨[], by simp [List.intercalate], ?_⟩
        cases fuel <;> rfl
      | cons g' groups =>
        have htext := intercalate_cons_cons " ".toList (renderGroup g) (renderGroup g')
          (groups.map renderGroup)
        refine ⟨_, htext, ih hgroups ?_ _ (by simp [isSpace])⟩
        rw [List.map_cons, List.map_cons, htext, renderGroup_append] at hfuel
        simp only [List.length_append, List.length_cons] at hfuel
        rw [List.map_cons]
        omega
    obtain ⟨rest, htext, hrest⟩ := hrest
    rw [htext, renderGroup_append, clausePieces_map rest hgap hg.balanced, hrest]
    rfl

theorem normalize_ne_nil (h : ItemName name) : normalize name ≠ [] := by
  obtain ⟨c, rest, rfl, hc⟩ := h.first
  simp [normalize, normalizeFrom, hc]

theorem normalize_direction {d : List Char}
    (h : d = toDirection ∨ d = fromDirection ∨ d = tofrom) : normalize d = d := by
  obtain rfl | rfl | rfl := h <;> decide

theorem readInside_groupInside (h : GroupWellFormed g) :
    readInside (groupInside g) = (g.1, g.2.map normalize) := by
  obtain ⟨hcolon, htake, hdrop⟩ := cut_groupInside h
  cases hnames : g.2 with
  | nil => exact absurd hnames h.nonempty
  | cons n names =>
    have hitems := hnames ▸ h.names
    have hsplit : splitOutside itemDepth (· == 0) ',' 0 []
        (List.intercalate [','] (n :: names.map (' ' :: ·))) = n :: names.map (' ' :: ·) :=
      splitOutside_intercalate rfl rfl fun s hs => (enclosed_pieces hitems s hs).unsplit_itemDepth
    have hkeep : ∀ item ∈ (n :: names).map normalize, decide (item ≠ []) = true := by
      intro item hitem
      obtain ⟨n', hn', rfl⟩ := List.mem_map.mp hitem
      simpa using normalize_ne_nil (hitems n' hn')
    have hmap : (n :: names.map (' ' :: ·)).map normalize = (n :: names).map normalize := by
      rw [List.map_cons, List.map_cons, List.map_map]
      rfl
    simp only [readInside, hcolon, if_true, htake, hdrop, normalize_direction h.direction]
    rw [hnames, splitItems, intercalate_comma_blank, hsplit, hmap, List.filter_eq_self.mpr hkeep]

/-- The items that the parser of the fusion finds are those of the map, with single blanks. -/
theorem lists_parse_build (hm : MapWellFormed m) {d item : List Char} :
    (parseMapClauses (buildTargetDataMapClause m)).Lists d item ↔
      ∃ name, m.find? name = some d ∧ normalize name = item := by
  have hgroups := groups_wellFormed hm
  have hpieces : clausePieces ((buildTargetDataMapClause m).length + 1) (buildTargetDataMapClause m) =
      (directionGroups m).entries.map fun g => .map (groupInside g) :=
    clausePieces_groups hgroups (Nat.lt_succ_self _) [] (by simp)
  have hno : ¬(ParsedClauses.mk .empty []).Lists d item := by
    simp [ParsedClauses.Lists, SortedMap.find?, SortedMap.empty]
  have hentry : ∀ name, m.find? name = some d ↔
      (name, d) ∈ groupItems (directionGroups m).entries := fun name =>
    SortedMap.mem_entries_iff.symm.trans (groupItems_perm m).mem_iff.symm
  rw [parseMapClauses, hpieces, lists_foldl, or_iff_left hno]
  simp only [hentry, groupItems, List.mem_flatMap, List.mem_map, Prod.mk.injEq]
  constructor
  · rintro ⟨inside, ⟨g, hg, hinside⟩, hread⟩
    obtain rfl := ClausePiece.map.inj hinside
    rw [ReadAs, readInside_groupInside (hgroups g hg)] at hread
    obtain ⟨hd, hitem⟩ := hread
    obtain ⟨name, hname, hnormal⟩ := List.mem_map.mp hitem
    exact ⟨name, ⟨g, hg, name, hname, rfl, hd⟩, hnormal⟩
  · rintro ⟨_, ⟨g, hg, name, hname, rfl, hd⟩, hnormal⟩
    refine ⟨groupInside g, ⟨g, hg, rfl⟩, ?_⟩
    rw [ReadAs, readInside_groupInside (hgroups g hg)]
    exact ⟨hd, List.mem_map.mpr ⟨name, hname, hnormal⟩⟩

/-- Every white space is one blank. -/
def SingleBlanks : List Char → Prop
  | [] => True
  | c :: rest =>
    (isSpace c = true → c = ' ' ∧ ∃ d rest', rest = d :: rest' ∧ isSpace d = false) ∧
      SingleBlanks rest

theorem normalizeFrom_eq_self {s : List Char} (h : SingleBlanks s) :
    normalizeFrom true false s = s ∧
      ∀ d rest, s = d :: rest → isSpace d = false → normalizeFrom true true s = ' ' :: s := by
  induction s with
  | nil => exact ⟨rfl, by simp⟩
  | cons c s ih =>
    obtain ⟨hc, hrest⟩ := h
    obtain ⟨hself, hblank⟩ := ih hrest
    refine ⟨?_, fun d rest heq hd => ?_⟩
    · rw [normalizeFrom]
      split
      next hspace =>
        obtain ⟨rfl, d, rest, rfl, hd⟩ := hc hspace
        exact hblank d rest rfl hd
      next => rw [if_neg (by simp), hself]
    · obtain ⟨rfl, rfl⟩ := List.cons.inj heq
      rw [normalizeFrom, if_neg (by simp [hd]), if_pos rfl, hself]

theorem normalize_eq_self (h : ItemName name) (hblanks : SingleBlanks name) :
    normalize name = name := by
  obtain ⟨c, rest, rfl, hc⟩ := h.first
  rw [normalize, normalizeFrom, if_neg (by simp [hc]), if_neg (by simp),
    (normalizeFrom_eq_self hblanks.2).1]

/-- A rendered map is collected as it was. The parser of the fusion finds its items with every run
of white space as one blank, so the same items where they have no other white space. -/
theorem map_clauses_roundTrip (hm : MapWellFormed m) :
    collectMappedVars (buildTargetDataMapClause m) = m ∧
      (∀ d item, (parseMapClauses (buildTargetDataMapClause m)).Lists d item ↔
        ∃ name, m.find? name = some d ∧ normalize name = item) ∧
      ((∀ name d, m.find? name = some d → SingleBlanks name) →
        ∀ d item, (parseMapClauses (buildTargetDataMapClause m)).Lists d item ↔
          m.find? item = some d) := by
  refine ⟨collectMappedVars_build hm, fun d item => lists_parse_build hm, fun hblanks d item => ?_⟩
  have hself : ∀ {name}, m.find? name = some d → normalize name = name := fun hname =>
    normalize_eq_self (hm _ d hname).1 (hblanks _ d hname)
  rw [lists_parse_build hm]
  constructor
  · rintro ⟨name, hname, rfl⟩
    rwa [hself hname]
  · exact fun hname => ⟨item, hname, hself hname⟩

end

theorem MapWellFormed.insert {m : MappedVars} {name d : List Char} (hm : MapWellFormed m)
    (hnew : m.find? name = none) (h : ItemName name)
    (hd : d = toDirection ∨ d = fromDirection ∨ d = tofrom) :
    MapWellFormed (m.insertWith mergeDirection name d) := by
  intro q d' hq
  rw [SortedMap.find?_insertWith] at hq
  split at hq
  next heq =>
    rw [heq, hnew] at hq
    obtain rfl := Option.some.inj hq
    exact ⟨heq ▸ h, hd⟩
  next => exact hm q d' hq

theorem mapWellFormed_empty : MapWellFormed .empty := by
  intro q d hq
  simp [SortedMap.find?, SortedMap.empty] at hq

def singleMap (name direction : List Char) : MappedVars :=
  SortedMap.empty.insertWith mergeDirection name direction

theorem singleMap_wellFormed {name : List Char} (h : ItemName name) :
    MapWellFormed (singleMap name toDirection) :=
  mapWellFormed_empty.insert rfl h (Or.inl rfl)

/-- `map(from: b) map(to: a[f(x, 1):n], c)`. -/
def threeItems : MappedVars :=
  ((singleMap "a[f(x, 1):n]".toList toDirection).insertWith mergeDirection ['b'] fromDirection)
    |>.insertWith mergeDirection ['c'] toDirection

theorem section_roundTrip :
    MapWellFormed threeItems ∧ collectMappedVars (buildTargetDataMapClause threeItems) = threeItems := by
  have hname : ItemName "a[f(x, 1):n]".toList :=
    ⟨by decide, ⟨'a', "[f(x, 1):n]".toList, rfl, by decide⟩,
      ⟨"a[f(x, 1):n".toList, ']', rfl, by decide⟩⟩
  have hb : ItemName ['b'] := ⟨by decide, ⟨'b', [], rfl, by decide⟩, ⟨[], 'b', rfl, by decide⟩⟩
  have hc : ItemName ['c'] := ⟨by decide, ⟨'c', [], rfl, by decide⟩, ⟨[], 'c', rfl, by decide⟩⟩
  have htwo := (singleMap_wellFormed hname).insert (by decide) hb (Or.inr (Or.inl rfl))
  have hm : MapWellFormed threeItems := htwo.insert (by decide) hc (Or.inl rfl)
  exact ⟨hm, (map_clauses_roundTrip hm).1⟩

/-- The item `a[0:n  + 1]` with two blanks is found with one. -/
theorem blanks_collapsed :
    MapWellFormed (singleMap "a[0:n  + 1]".toList toDirection) ∧
      (parseMapClauses (buildTargetDataMapClause
        (singleMap "a[0:n  + 1]".toList toDirection))).Lists toDirection "a[0:n + 1]".toList ∧
      (singleMap "a[0:n  + 1]".toList toDirection).find? "a[0:n + 1]".toList = none := by
  have hname : ItemName "a[0:n  + 1]".toList :=
    ⟨by decide, ⟨'a', "[0:n  + 1]".toList, rfl, by decide⟩,
      ⟨"a[0:n  + 1".toList, ']', rfl, by decide⟩⟩
  have hm := singleMap_wellFormed hname
  refine ⟨hm, (lists_parse_build hm).mpr ⟨"a[0:n  + 1]".toList, ?_, by decide⟩, by decide⟩
  rw [singleMap, SortedMap.find?_insertWith, if_pos rfl]
  rfl

end LoomX.LoopFusion
