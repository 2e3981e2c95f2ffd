import Mathlib.Data.Char
import LoomX.SortedMap
import LoomX.BalancedText

namespace LoomX

def isBlank (c : Char) : Bool := c == ' ' || c == '\t'

def trimBlank (s : List Char) : List Char :=
  ((s.dropWhile isBlank).reverse.dropWhile isBlank).reverse

/-- How a character changes the nesting depth of one kind of bracket. -/
def depthAfter (openChar closeChar : Char) (depth : Int) (c : Char) : Int :=
  if c = openChar then depth + 1 else if c = closeChar then depth - 1 else depth

def splitCommasFrom (parens brackets : Int) (current : List Char) :
    List Char → List (List Char)
  | [] => [current]
  | c :: rest =>
    if c = ',' ∧ parens = 0 ∧ brackets = 0 then current :: splitCommasFrom parens brackets [] rest
    else splitCommasFrom (depthAfter '(' ')' parens c) (depthAfter '[' ']' brackets c)
      (current ++ [c]) rest

def splitTopLevelCommas (text : List Char) : List (List Char) :=
  if text = [] then [] else splitCommasFrom 0 0 [] text

/-- What stands inside the `map(...)` clauses of a pragma, in order; the scan stops at a clause
that is not closed. -/
def mapClausesFrom : Nat → List Char → List (List Char)
  | 0, _ | _, [] => []
  | fuel + 1, c :: rest =>
    if "map(".toList.isPrefixOf (c :: rest) then
      match cutAtClose id '(' ')' 1 (rest.drop 3) with
      | none => []
      | some (inside, _, after) => inside :: mapClausesFrom fuel after
    else mapClausesFrom fuel rest

def mapClauses (pragmaText : List Char) : List (List Char) :=
  mapClausesFrom pragmaText.length pragmaText

def toDirection : List Char := "to".toList

def fromDirection : List Char := "from".toList

def tofrom : List Char := "tofrom".toList

def clauseDirection (text : List Char) : List Char :=
  if trimBlank text = [] then tofrom else trimBlank text

def clauseNames (text : List Char) : List (List Char) :=
  ((splitTopLevelCommas text).map trimBlank).filter (· ≠ [])

/-- Items and direction of one clause as the code reads them: cut at the first colon, and
nothing at all without one. -/
def readMapClause (inside : List Char) : List (List Char × List Char) :=
  if ':' ∈ inside then
    (clauseNames (inside.dropWhile (· ≠ ':')).tail).map
      fun name => (name, clauseDirection (inside.takeWhile (· ≠ ':')))
  else []

def collectedItems (pragmaText : List Char) : List (List Char × List Char) :=
  (mapClauses pragmaText).flatMap readMapClause

def directionRank (d : List Char) : Nat :=
  if d = tofrom then 2 else if d = fromDirection then 1 else 0

def mergeDirection (old new : List Char) : List Char :=
  if directionRank old < directionRank new then new else old

abbrev MappedVars := SortedMap (List Char) (List Char)

def mergeItems (m : MappedVars) (items : List (List Char × List Char)) : MappedVars :=
  items.foldl (fun m e => m.insertWith mergeDirection e.1 e.2) m

def collectMappedVars (pragmaText : List Char) : MappedVars :=
  mergeItems .empty (collectedItems pragmaText)

/-- The merge over the gathered pragmas of `hoistTargetDataRegions`. -/
def mergeMappedVars (pragmas : List (List Char)) : MappedVars :=
  pragmas.foldl (fun m p => mergeItems m (collectMappedVars p).entries) .empty

def directionGroups (m : MappedVars) : SortedMap (List Char) (List (List Char)) :=
  m.entries.foldl (fun groups e => groups.insertWith (· ++ ·) e.2 [e.1]) .empty

def renderGroup (g : List Char × List (List Char)) : List Char :=
  "map(".toList ++ g.1 ++ ":".toList ++ List.intercalate ", ".toList g.2 ++ ")".toList

def buildTargetDataMapClause (m : MappedVars) : List Char :=
  List.intercalate " ".toList ((directionGroups m).entries.map renderGroup)

/-- Removes the map clauses of a pragma. -/
def stripMapsFrom : Nat → List Char → List Char
  | 0, s => s
  | _, [] => []
  | fuel + 1, c :: rest =>
    if " map(".toList.isPrefixOf (c :: rest) then
      match cutAtClose id '(' ')' 1 (rest.drop 4) with
      | none => c :: rest
      | some (_, _, after) => stripMapsFrom fuel after
    else c :: stripMapsFrom fuel rest

def stripTargetAndMap (pragmaText : List Char) : List Char :=
  stripMapsFrom pragmaText.length pragmaText

/-- The items `buildTargetDataMapClause` lists, each with the direction of its group. -/
def groupItems (groups : List (List Char × List (List Char))) : List (List Char × List Char) :=
  groups.flatMap fun g => g.2.map fun name => (name, g.1)

def includesTo (d : List Char) : Prop := d = toDirection ∨ d = tofrom

def includesFrom (d : List Char) : Prop := d = fromDirection ∨ d = tofrom

theorem mergeDirection_assoc (a b c : List Char) :
    mergeDirection (mergeDirection a b) c = mergeDirection a (mergeDirection b c) := by
  unfold mergeDirection
  split_ifs <;> first | rfl | omega

theorem find?_mergeMappedVars (pragmas : List (List Char)) (q : List Char) :
    (mergeMappedVars pragmas).find? q =
      (((pragmas.flatMap collectedItems).filter fun e => e.1 = q).map Prod.snd).foldl
        (SortedMap.combine mergeDirection) none := by
  suffices ∀ m : MappedVars,
      (pragmas.foldl (fun m p => mergeItems m (collectMappedVars p).entries) m).find? q =
        (((pragmas.flatMap collectedItems).filter fun e => e.1 = q).map Prod.snd).foldl
          (SortedMap.combine mergeDirection) (m.find? q) from this .empty
  induction pragmas with
  | nil => exact fun m => rfl
  | cons p pragmas ih =>
    intro m
    have hp : (collectMappedVars p).find? q =
        (((collectedItems p).filter fun e => e.1 = q).map Prod.snd).foldl
          (SortedMap.combine mergeDirection) none :=
      SortedMap.find?_foldl mergeDirection (collectedItems p) .empty q
    have hm : (mergeItems m (collectMappedVars p).entries).find? q =
        (((collectedItems p).filter fun e => e.1 = q).map Prod.snd).foldl
          (SortedMap.combine mergeDirection) (m.find? q) := by
      rw [mergeItems, SortedMap.find?_foldl, SortedMap.filter_key, List.map_map]
      have hid : (Prod.snd ∘ fun v => (q, v)) = (id : List Char → List Char) := rfl
      rw [hid, List.map_id, hp, SortedMap.foldl_combine_toList mergeDirection_assoc]
    rw [List.foldl_cons, ih, hm, List.flatMap_cons, List.filter_append, List.map_append,
      List.foldl_append]

theorem tofrom_ne_from : tofrom ≠ fromDirection := by decide

theorem mergeDirection_foldl (a : List Char) (ds : List (List Char)) :
    ds.foldl mergeDirection a =
      if tofrom ∈ a :: ds then tofrom else if fromDirection ∈ a :: ds then fromDirection else a := by
  induction ds generalizing a with
  | nil =>
    simp only [List.foldl_nil, List.mem_singleton]
    split_ifs with h h'
    · exact h.symm
    · exact h'.symm
    · rfl
  | cons d ds ih =>
    rw [List.foldl_cons, ih]
    have hne := tofrom_ne_from
    unfold mergeDirection directionRank
    by_cases ha : a = tofrom <;> by_cases hd : d = tofrom <;>
      by_cases ha' : a = fromDirection <;> by_cases hd' : d = fromDirection <;>
      simp_all [eq_comm]

/-- The direction left after merging the directions `ds`. -/
def mergedDirection (ds : List (List Char)) : Option (List Char) :=
  if tofrom ∈ ds then some tofrom
  else if fromDirection ∈ ds then some fromDirection
  else ds.head?

theorem foldl_combine_mergeDirection (ds : List (List Char)) :
    ds.foldl (SortedMap.combine mergeDirection) none = mergedDirection ds := by
  cases ds with
  | nil => simp [mergedDirection]
  | cons d ds =>
    have hd : (d :: ds).foldl (SortedMap.combine mergeDirection) none =
        some (ds.foldl mergeDirection d) := SortedMap.foldl_combine_some mergeDirection ds d
    rw [hd, mergeDirection_foldl, mergedDirection]
    split_ifs <;> rfl

theorem includesTo_mergedDirection {ds : List (List Char)} {d : List Char}
    (h : mergedDirection ds = some d) :
    includesTo d ↔ tofrom ∈ ds ∨ fromDirection ∉ ds ∧ ds.head? = some toDirection := by
  unfold mergedDirection at h
  have htf : toDirection ≠ tofrom := by decide
  have hft : fromDirection ≠ toDirection := by decide
  have hff : fromDirection ≠ tofrom := by decide
  split_ifs at h with h1 h2
  · cases h
    simp [includesTo, h1]
  · cases h
    simp [includesTo, h1, h2, hft, hff]
  · have hmem := List.mem_of_head? h
    have hne : d ≠ tofrom := fun he => h1 (he ▸ hmem)
    simp [includesTo, h1, h2, h, hne]

theorem includesFrom_mergedDirection {ds : List (List Char)} {d : List Char}
    (h : mergedDirection ds = some d) :
    includesFrom d ↔ fromDirection ∈ ds ∨ tofrom ∈ ds := by
  unfold mergedDirection at h
  split_ifs at h with h1 h2
  · cases h
    simp [includesFrom, h1]
  · cases h
    simp [includesFrom, h2]
  · have hmem := List.mem_of_head? h
    have hne : d ≠ tofrom := fun he => h1 (he ▸ hmem)
    have hne' : d ≠ fromDirection := fun he => h2 (he ▸ hmem)
    simp [includesFrom, h1, h2, hne, hne']

theorem groupItems_perm (m : MappedVars) :
    (groupItems (directionGroups m).entries).Perm m.entries := by
  have hmembers : ∀ groups, groupItems groups = (SortedMap.members groups).map Prod.swap := by
    intro groups
    simp only [groupItems, SortedMap.members, List.map_flatMap, List.map_map]
    rfl
  have hgroups := (SortedMap.members_foldl Prod.snd Prod.fst m.entries .empty).map Prod.swap
  rw [hmembers]
  refine hgroups.trans ?_
  rw [show SortedMap.members (SortedMap.empty (α := List Char) (β := List (List Char))).entries =
    [] from rfl, List.append_nil, List.map_map]
  exact .of_eq (List.map_id _)

theorem find?_eq_mergedDirection (pragmas : List (List Char)) (q : List Char) :
    (mergeMappedVars pragmas).find? q =
      mergedDirection (((pragmas.flatMap collectedItems).filter fun e => e.1 = q).map Prod.snd) := by
  rw [find?_mergeMappedVars, foldl_combine_mergeDirection]

theorem mergedDirection_isSome {ds : List (List Char)} :
    (∃ d, mergedDirection ds = some d) ↔ ds ≠ [] := by
  cases ds with
  | nil => simp [mergedDirection]
  | cons d ds =>
    simp only [mergedDirection]
    split_ifs <;> simp

theorem exists_entry_iff (pragmas : List (List Char)) (q : List Char) :
    (∃ d, (q, d) ∈ (mergeMappedVars pragmas).entries) ↔
      ∃ e ∈ pragmas.flatMap collectedItems, e.1 = q := by
  simp only [SortedMap.mem_entries_iff, find?_eq_mergedDirection, mergedDirection_isSome]
  simp [List.filter_eq_nil_iff]

end LoomX
