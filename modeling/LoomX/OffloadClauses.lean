import Mathlib.Data.List.Dedup
import LoomX.MapMerge
import LoomX.LiveOut
import LoomX.AtomicReductions

namespace LoomX

/-- The variables that `fillMapVariables` does not skip: no struct members, no index variables,
nothing that is declared in the loop body. -/
def isMappable (loop : ForStatement) (isClassMember : Var → Bool) (v : Var) : Bool :=
  !isClassMember v && getLoopIndexVariable loop != some v && !(nestedLoopVars loop).contains v &&
    !isDeclaredInsideLoopBody v loop

def isMapped (loop : ForStatement) (isClassMember : Var → Bool) (reductionVariables : List Var)
    (v : Var) : Prop :=
  v ∈ loop.stmt.varRefs ∧ isMappable loop isClassMember v = true ∨ v ∈ reductionVariables

/-- A loop with what `collectReadWriteRefs` and the reduction detector report for it, and the name
or array section under which a variable is mapped. The variables that are mapped are visible at
the pragma, so they have different names. -/
structure OffloadedLoop where
  loop : ForStatement
  readRefs : List Expr
  writeRefs : List Expr
  isClassMember : Var → Bool
  reductionVariables : List Var
  mappedName : Var → List Char
  visible : ∀ v w, isMapped loop isClassMember reductionVariables v →
    isMapped loop isClassMember reductionVariables w → mappedName v = mappedName w → v = w

namespace OffloadedLoop

def readVars (L : OffloadedLoop) : List Var := variablesOf L.readRefs

def writeVars (L : OffloadedLoop) : List Var := variablesOf L.writeRefs

def mapDirection (L : OffloadedLoop) (v : Var) : List Char :=
  let isRead := L.readVars.contains v
  let isWritten := L.writeVars.contains v
  if isRead && isWritten then tofrom
  else if isRead then toDirection
  else if isWritten then fromDirection
  else tofrom

/-- The map clauses of the summary; reduction variables are taken out at the end. -/
def fillMapVariables (L : OffloadedLoop) : List (Var × List Char) :=
  ((L.loop.stmt.varRefs.dedup.filter (isMappable L.loop L.isClassMember)).map
    fun v => (v, L.mapDirection v)).filter fun e => !L.reductionVariables.contains e.1

def entriesIncludingReductions (L : OffloadedLoop) : List (Var × List Char) :=
  L.fillMapVariables ++ L.reductionVariables.dedup.map fun v => (v, tofrom)

/-- `directionByName` of `buildMapClause`. -/
def directionByName (L : OffloadedLoop) : MappedVars :=
  mergeItems .empty ((L.entriesIncludingReductions.map fun e => (L.mappedName e.1, e.2)).filter
    fun item => !item.1.isEmpty)

/-- The direction with which the clause maps a variable. -/
def direction (L : OffloadedLoop) (v : Var) : Option (List Char) :=
  if v ∈ L.entriesIncludingReductions.map Prod.fst then
    L.directionByName.find? (L.mappedName v)
  else none

end OffloadedLoop

/-- `ReductionDetector::opToString`. -/
def opToString : ReductionOp → List Char
  | .add => "+".toList
  | .sub => "-".toList
  | .mul => "*".toList
  | .min => "min".toList
  | .max => "max".toList
  | .bitAnd => "&".toList
  | .bitOr => "|".toList
  | .bitXor => "^".toList

/-- The variables of `renderReductionClause`, grouped by operator. -/
def reductionGroups (reductionDetails : List ReductionInfo) :
    SortedMap (List Char) (List ReductionInfo) :=
  reductionDetails.foldl (fun groups r => groups.insertWith (· ++ ·) (opToString r.op) [r]) .empty

/-- What stands in a clause list for a reduction, given the text of expressions. -/
def reductionName (unparse : Expr → List Char) (r : ReductionInfo) : List Char :=
  match r.isArrayElement, r.arrayIndex with
  | true, some index => r.var.name.toList ++ "[".toList ++ unparse index ++ "]".toList
  | _, _ => r.var.name.toList

def renderReductionGroup (unparse : Expr → List Char) (g : List Char × List ReductionInfo) :
    List Char :=
  "reduction(".toList ++ g.1 ++ ":".toList ++
    List.intercalate ", ".toList (g.2.map (reductionName unparse)) ++ ")".toList

namespace OffloadedLoop

/-- The `private` clause names each variable of a set. -/
def privateVars (L : OffloadedLoop) : List Var := (fillPrivateVars L.loop).dedup

/-- The variables that the `reduction` clauses list. -/
def listedReductions (L : OffloadedLoop) : List Var :=
  (SortedMap.members (reductionGroups (detectReductions L.loop)).entries).map (·.2.var)

/-- The variables that the `map` clauses list. -/
def listedMaps (L : OffloadedLoop) : List Var := L.entriesIncludingReductions.map Prod.fst

/-- `buildMapClause`: the names are grouped by direction and rendered like the clauses of a data
region. -/
def buildMapClause (L : OffloadedLoop) : List Char :=
  List.intercalate " ".toList ((directionGroups L.directionByName).entries.map renderGroup)

/-- The pragma of `insertGPUPragma`. -/
def gpuPragma (L : OffloadedLoop) (collapseDepth : Nat) (unparse : Expr → List Char) :
    List Char :=
  let collapse :=
    if 1 < collapseDepth then " collapse(".toList ++ (toString collapseDepth).toList ++ ")".toList
    else []
  let privateClause :=
    if L.privateVars.isEmpty then []
    else " private(".toList ++
      List.intercalate ", ".toList (L.privateVars.map (·.name.toList)) ++ ")".toList
  let reductionText := List.intercalate " ".toList
    ((reductionGroups (detectReductions L.loop)).entries.map (renderReductionGroup unparse))
  let reductions := if reductionText.isEmpty then [] else ' ' :: reductionText
  let maps :=
    if L.entriesIncludingReductions.isEmpty then []
    else ' ' :: L.buildMapClause
  "omp target teams distribute parallel for".toList ++ collapse ++ privateClause ++ reductions ++
    maps

/-- No variable is listed twice in the reduction clauses, and none that is private is in another
clause. -/
structure WellFormedClauses (L : OffloadedLoop) : Prop where
  reductions : L.listedReductions.Nodup
  privateReduction : ∀ v ∈ L.privateVars, v ∉ L.listedReductions
  privateMap : ∀ v ∈ L.privateVars, v ∉ L.listedMaps

/-- No two statements of the body are reductions on one variable, and the body writes no other
scalar from outside than reduction variables and indices of loops. -/
structure SeparateClauses (L : OffloadedLoop) : Prop where
  single : L.loop.body.exprStatements.Pairwise fun s t =>
    ∀ r ∈ reductionOf L.loop s, ∀ r' ∈ reductionOf L.loop t, r.var ≠ r'.var
  written : ∀ v ∈ variablesOf L.loop.body.writeRefs, v.isScalarVariable = true →
    v ∉ getReductionVariables L.loop → isMappable L.loop L.isClassMember v = false

end OffloadedLoop

theorem varRefs_outArgs (args : Expr) {r : Expr} {v : Var} (h : r ∈ args.outArgs) (hv : v ∈ r.varRefs) :
    v ∈ args.varRefs := by
  induction args with
  | exprCons a rest _ ih =>
    rw [Expr.varRefs, List.mem_append]
    rw [Expr.outArgs, List.mem_append] at h
    obtain h | h := h
    · left
      split at h
      next e he =>
        obtain rfl := List.mem_singleton.mp h
        rw [← varRefs_skipCasts, he]
        exact hv
      next => simp at h
    · exact Or.inr (ih h)
  | _ => simp [Expr.outArgs] at h

/-- A write reference is part of the expression. -/
theorem varRefs_writeRefs {mode : RefMode} {e r : Expr} {v : Var} (h : r ∈ e.writeRefs mode)
    (hv : v ∈ r.varRefs) : v ∈ e.varRefs := by
  induction e generalizing mode with
  | intVal | varRef | exprNil => simp [Expr.writeRefs] at h
  | arrRef a b iha ihb =>
    rw [Expr.varRefs, List.mem_append]
    rw [Expr.writeRefs, List.mem_append] at h
    exact h.imp iha ihb
  | member e f ih =>
    cases mode with
    | base => simp [Expr.writeRefs] at h
    | _ => exact ih h
  | deref e ih | addrOf e ih | cast _ e ih | unary _ e ih =>
    cases mode with
    | base => simp [Expr.writeRefs] at h
    | _ => exact ih h
  | call f e ih =>
    cases mode with
    | base => simp [Expr.writeRefs] at h
    | _ => exact (List.mem_append.mp h).elim ih fun h => varRefs_outArgs e h hv
  | binary _ a b iha ihb | exprCons a b iha ihb =>
    rw [Expr.varRefs, List.mem_append]
    cases mode with
    | base => simp [Expr.writeRefs] at h
    | _ => exact (List.mem_append.mp h).imp iha ihb
  | cond a b c iha ihb ihc =>
    rw [Expr.varRefs, List.mem_append, List.mem_append]
    cases mode with
    | base => simp [Expr.writeRefs] at h
    | _ => exact (List.mem_append.mp h).imp (fun h => (List.mem_append.mp h).imp iha ihb) ihc
  | assign a b iha ihb =>
    rw [Expr.varRefs, List.mem_append]
    cases mode with
    | base => simp [Expr.writeRefs] at h
    | _ =>
      obtain h | h := List.mem_append.mp h
      · exact (List.mem_append.mp h).imp iha ihb
      · exact Or.inl (List.mem_singleton.mp h ▸ hv)
  | compound op a b iha ihb =>
    rw [Expr.varRefs, List.mem_append]
    cases mode with
    | base => simp [Expr.writeRefs] at h
    | _ =>
      obtain h | h := List.mem_append.mp h
      · exact (List.mem_append.mp h).imp iha ihb
      · split at h
        next => simp at h
        next => exact Or.inl (List.mem_singleton.mp h ▸ hv)
  | plusPlus e ih | minusMinus e ih =>
    cases mode with
    | base => simp [Expr.writeRefs] at h
    | _ =>
      obtain h | h := List.mem_append.mp h
      · exact ih h
      · exact List.mem_singleton.mp h ▸ hv

theorem mem_varRefs_of_write {s : Stmt} {r : Expr} {v : Var} (h : r ∈ s.writeRefs)
    (hv : v ∈ r.varRefs) : v ∈ s.varRefs := by
  have hexpr : ∀ {e : Expr}, r ∈ e.writeRefs .value → v ∈ e.varRefs := fun h =>
    varRefs_writeRefs h hv
  induction s with
  | empty | breakStmt | continueStmt => simp [Stmt.writeRefs] at h
  | expr e => exact hexpr h
  | decl w init =>
    cases init with
    | none => simp [Stmt.writeRefs] at h
    | some e => exact hexpr h
  | returnStmt e =>
    cases e with
    | none => simp [Stmt.writeRefs] at h
    | some e => exact hexpr h
  | seq s t ihs iht =>
    rw [Stmt.varRefs, List.mem_append]
    exact (List.mem_append.mp h).imp ihs iht
  | ite e s t ihs iht =>
    rw [Stmt.varRefs, List.mem_append, List.mem_append]
    exact (List.mem_append.mp h).imp (fun h => (List.mem_append.mp h).imp hexpr ihs) iht
  | whileLoop e s ih =>
    rw [Stmt.varRefs, List.mem_append]
    exact (List.mem_append.mp h).imp hexpr ih
  | forLoop i e u s ihi ihs =>
    simp only [Stmt.varRefs, Stmt.writeRefs, List.mem_append] at h ⊢
    exact h.imp (fun h => h.imp (fun h => h.imp ihi hexpr) hexpr) ihs

theorem mem_variablesOf {refs : List Expr} {v : Var} :
    v ∈ variablesOf refs ↔ Expr.varRef v ∈ refs := by
  unfold variablesOf
  rw [List.mem_filterMap]
  constructor
  · intro ⟨r, hr, hv⟩
    split at hv
    next => exact Option.some.inj hv ▸ hr
    next => simp at hv
  · exact fun h => ⟨_, h, rfl⟩

namespace OffloadedLoop

variable {L : OffloadedLoop} {v : Var}

/-- The clauses list the variables of the detected reductions, sorted into groups. -/
theorem listedReductions_perm (L : OffloadedLoop) :
    L.listedReductions.Perm (getReductionVariables L.loop) := by
  have hperm := SortedMap.members_foldl (fun r : ReductionInfo => opToString r.op) id
    (detectReductions L.loop) .empty
  have hmap := hperm.map (·.2.var)
  simp only [SortedMap.empty, SortedMap.members, List.flatMap_nil, List.append_nil,
    List.map_map] at hmap
  exact hmap

theorem mem_listedMaps (hred : L.reductionVariables = getReductionVariables L.loop) :
    v ∈ L.listedMaps ↔ v ∈ getReductionVariables L.loop ∨
      v ∈ L.loop.stmt.varRefs ∧ isMappable L.loop L.isClassMember v = true := by
  by_cases hv : v ∈ getReductionVariables L.loop
  · simp [listedMaps, entriesIncludingReductions, fillMapVariables, hred, hv]
  · simp [listedMaps, entriesIncludingReductions, fillMapVariables, hred, hv]

theorem mem_privateVars : v ∈ L.privateVars ↔
    (v ∈ variablesOf L.loop.body.writeRefs ∨ v ∈ nestedLoopVars L.loop) ∧
      getLoopIndexVariable L.loop ≠ some v ∧ v ∉ getReductionVariables L.loop ∧
        isDeclaredInsideLoopBody v L.loop = false ∧ v.isScalarVariable = true := by
  simp [privateVars, fillPrivateVars, or_and_right, and_assoc]

theorem nodup_listedReductions : L.listedReductions.Nodup ↔
    L.loop.body.exprStatements.Pairwise fun s t =>
      ∀ r ∈ reductionOf L.loop s, ∀ r' ∈ reductionOf L.loop t, r.var ≠ r'.var := by
  rw [L.listedReductions_perm.nodup_iff, getReductionVariables, detectReductions, List.Nodup,
    List.pairwise_map, List.pairwise_filterMap]
  exact Iff.rfl

theorem infix_intercalate {sep text : List Char} {texts : List (List Char)} (h : text ∈ texts) :
    text <:+: List.intercalate sep texts := by
  induction texts with
  | nil => simp at h
  | cons first rest ih =>
    cases rest with
    | nil => simp [List.mem_singleton.mp h]
    | cons second rest =>
      rw [List.intercalate_cons_cons]
      obtain rfl | h := List.mem_cons.mp h
      · exact ⟨[], sep ++ List.intercalate sep (second :: rest), by simp⟩
      · exact List.infix_append_of_infix_right (ih h)

theorem infix_spaced {clause text : List Char} (hne : clause ≠ []) (h : clause <:+: text) :
    clause <:+: if text.isEmpty then [] else ' ' :: text := by
  cases text with
  | nil => exact absurd (List.infix_nil.mp h) hne
  | cons c rest => exact List.infix_cons h

/-- The pragma has the private variables, and a clause for each group of the reductions and of the
mapped names. -/
theorem gpuPragma_clauses (L : OffloadedLoop) (collapseDepth : Nat) (unparse : Expr → List Char) :
    (L.privateVars ≠ [] → " private(".toList ++
        List.intercalate ", ".toList (L.privateVars.map (·.name.toList)) ++ ")".toList <:+:
          L.gpuPragma collapseDepth unparse) ∧
      (∀ g ∈ (reductionGroups (detectReductions L.loop)).entries,
        renderReductionGroup unparse g <:+: L.gpuPragma collapseDepth unparse) ∧
      ∀ g ∈ (directionGroups L.directionByName).entries,
        renderGroup g <:+: L.gpuPragma collapseDepth unparse := by
  unfold gpuPragma
  refine ⟨fun hprivate => ?_, fun g hg => ?_, fun g hg => ?_⟩
  · refine List.infix_append_of_infix_left (List.infix_append_of_infix_left ?_)
    refine List.infix_append_of_infix_right ?_
    rw [if_neg (by simpa using hprivate)]
  · refine List.infix_append_of_infix_left (List.infix_append_of_infix_right ?_)
    have hne : renderReductionGroup unparse g ≠ [] := List.append_ne_nil_of_right_ne_nil _ (by decide)
    apply infix_spaced hne
    apply infix_intercalate
    exact List.mem_map_of_mem hg
  · refine List.infix_append_of_infix_right ?_
    have hne : L.entriesIncludingReductions ≠ [] := by
      intro h
      simp [directionByName, h, mergeItems, directionGroups, SortedMap.empty] at hg
    rw [if_neg (by simpa using hne)]
    exact List.infix_cons (infix_intercalate (List.mem_map_of_mem hg))

/-- The clauses are well formed exactly when no variable has two reduction statements and no scalar
from outside, other than reduction variables and loop indices, is written. -/
theorem wellFormedClauses_iff (hred : L.reductionVariables = getReductionVariables L.loop) :
    L.WellFormedClauses ↔ L.SeparateClauses := by
  have hreduction : ∀ {v}, v ∈ L.listedReductions ↔ v ∈ getReductionVariables L.loop :=
    L.listedReductions_perm.mem_iff
  constructor
  · intro h
    refine ⟨nodup_listedReductions.mp h.reductions, fun v hwritten hscalar hnored => ?_⟩
    rw [Bool.eq_false_iff]
    intro hmappable
    have hplaces := hmappable
    simp only [isMappable, Bool.and_eq_true, Bool.not_eq_true', bne_iff_ne] at hplaces
    have hprivate : v ∈ L.privateVars :=
      mem_privateVars.mpr ⟨Or.inl hwritten, hplaces.1.1.2, hnored, hplaces.2, hscalar⟩
    have hrefs : v ∈ L.loop.stmt.varRefs := by
      have hbody := mem_varRefs_of_write (mem_variablesOf.mp hwritten) (List.mem_singleton.mpr rfl)
      simp [ForStatement.stmt, Stmt.varRefs, hbody]
    exact h.privateMap v hprivate ((mem_listedMaps hred).mpr (Or.inr ⟨hrefs, hmappable⟩))
  · intro h
    refine ⟨nodup_listedReductions.mpr h.single, fun v hv hlisted => ?_, fun v hv hmap => ?_⟩
    · exact (mem_privateVars.mp hv).2.2.1 (hreduction.mp hlisted)
    · obtain ⟨hplace, -, hnored, -, hscalar⟩ := mem_privateVars.mp hv
      obtain hred | ⟨-, hmappable⟩ := (mem_listedMaps hred).mp hmap
      · exact hnored hred
      · obtain hwritten | hnested := hplace
        · simp [h.written v hwritten hscalar hnored] at hmappable
        · simp [isMappable, hnested] at hmappable

end OffloadedLoop

/-- A loop whose variables all have different names is mapped under these. -/
def namedLoop (loop : ForStatement)
    (h : ∀ v ∈ loop.stmt.varRefs ++ getReductionVariables loop,
      ∀ w ∈ loop.stmt.varRefs ++ getReductionVariables loop, v.name.toList = w.name.toList → v = w) :
    OffloadedLoop where
  loop := loop
  readRefs := loop.stmt.readRefs
  writeRefs := loop.stmt.writeRefs
  isClassMember _ := false
  reductionVariables := getReductionVariables loop
  mappedName v := v.name.toList
  visible := by
    intro v w hv hw
    have hmem : ∀ {u}, isMapped loop (fun _ => false) (getReductionVariables loop) u →
        u ∈ loop.stmt.varRefs ++ getReductionVariables loop := fun hu =>
      List.mem_append.mpr (hu.imp And.left id)
    exact h v (hmem hv) w (hmem hw)

/-- `for (i = 0; i < 10; i++) { sum += a[i]; sum += b[i]; }`, or only its first statement. -/
def addLoop (both : Bool) : ForStatement :=
  let first := Stmt.expr (addElement 2 "a")
  { countingLoop 0 10 .lt .plusPlus with
    body := if both then .seq first (.expr (addElement 3 "b")) else first }

def plainPass : PassInput := ⟨[], ⟨false, false, false, false, false⟩, true, true, [], true, false⟩

theorem oneReduction_wellFormed :
    acceptsLoop plainPass (addLoop false) = true ∧
      (namedLoop (addLoop false) (by decide)).WellFormedClauses :=
  ⟨by decide, (OffloadedLoop.wellFormedClauses_iff rfl).mpr ⟨by decide, by decide⟩⟩

/-- Two sums into one variable name it twice: `reduction(+:sum, sum)`. -/
theorem twoReductions_listedTwice :
    acceptsLoop plainPass (addLoop true) = true ∧
      (namedLoop (addLoop true) (by decide)).listedReductions = [sumVar, sumVar] := by
  decide

end LoomX
