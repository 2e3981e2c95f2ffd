import Mathlib.Data.List.Basic
import Mathlib.Data.List.Infix
import Mathlib.Data.List.Induction

namespace LoomX

/-- The nodes of a syntax tree as far as the pragmas and the loops in it go. -/
inductive SourceTree
  | pragma (text : List Char)
  | basicBlock (statements : List SourceTree)
  | forStatement (header : List SourceTree) (body : SourceTree)
  | other (children : List SourceTree)

/-- A node is named by the way to it from the root: which child to take at each step. -/
abbrev Address := List Nat

namespace SourceTree

def children : SourceTree → List SourceTree
  | pragma _ => []
  | basicBlock statements => statements
  | forStatement header body => header ++ [body]
  | other children => children

def at? : SourceTree → Address → Option SourceTree
  | n, [] => some n
  | n, k :: rest => n.children[k]?.bind (·.at? rest)

mutual

/-- `querySubTree` for pragmas: their addresses in the order of the text. -/
def pragmas : SourceTree → List (Address × List Char)
  | pragma text => [([], text)]
  | basicBlock statements => pragmasFrom 0 statements
  | forStatement header body =>
    pragmasFrom 0 header ++ (pragmas body).map fun p => (header.length :: p.1, p.2)
  | other children => pragmasFrom 0 children

def pragmasFrom (k : Nat) : List SourceTree → List (Address × List Char)
  | [] => []
  | n :: ns => ((pragmas n).map fun p => (k :: p.1, p.2)) ++ pragmasFrom (k + 1) ns

end

theorem at?_append (n : SourceTree) (a b : Address) :
    n.at? (a ++ b) = (n.at? a).bind (·.at? b) := by
  induction a generalizing n with
  | nil => simp [at?]
  | cons k a ih =>
    simp only [List.cons_append, at?]
    cases n.children[k]? with
    | none => rfl
    | some m => exact ih m

theorem mem_map_push {l : List (Address × List Char)} {i : Nat} {a : Address} {t : List Char} :
    (a, t) ∈ l.map (fun p => (i :: p.1, p.2)) ↔ ∃ b, a = i :: b ∧ (b, t) ∈ l := by
  simp only [List.mem_map, Prod.mk.injEq, Prod.exists]
  constructor
  · rintro ⟨b, t', hmem, rfl, rfl⟩
    exact ⟨b, rfl, hmem⟩
  · rintro ⟨b, rfl, hmem⟩
    exact ⟨b, t, hmem, rfl, rfl⟩

mutual

/-- The pragmas found are the pragma nodes of the tree. -/
theorem mem_pragmas (n : SourceTree) (a : Address) (t : List Char) :
    (a, t) ∈ n.pragmas ↔ n.at? a = some (pragma t) := by
  cases n with
  | pragma text =>
    cases a with
    | nil => simp [pragmas, at?, eq_comm]
    | cons k a => simp [pragmas, at?, children]
  | basicBlock statements =>
    rw [pragmas, mem_pragmasFrom]
    cases a with
    | nil => simp [at?]
    | cons k a => simp [at?, children]
  | other statements =>
    rw [pragmas, mem_pragmasFrom]
    cases a with
    | nil => simp [at?]
    | cons k a => simp [at?, children]
  | forStatement header body =>
    rw [pragmas, List.mem_append, mem_pragmasFrom, mem_map_push]
    cases a with
    | nil => simp [at?]
    | cons k a =>
      simp only [at?, children, mem_pragmas body]
      rcases Nat.lt_trichotomy k header.length with hlt | rfl | hgt
      · simp [List.getElem?_append_left hlt, Nat.ne_of_lt hlt]
      · simp
      · have hnone : (header ++ [body])[k]? = none := by
          rw [List.getElem?_eq_none_iff, List.length_append, List.length_singleton]
          exact hgt
        simp [hnone, List.getElem?_eq_none_iff.mpr (Nat.le_of_lt hgt), Nat.ne_of_gt hgt]

theorem mem_pragmasFrom (ns : List SourceTree) (k : Nat) (a : Address) (t : List Char) :
    (a, t) ∈ pragmasFrom k ns ↔
      ∃ i b, a = (k + i) :: b ∧ ns[i]?.bind (·.at? b) = some (pragma t) := by
  cases ns with
  | nil => simp [pragmasFrom]
  | cons n ns =>
    rw [pragmasFrom, List.mem_append, mem_map_push, mem_pragmasFrom]
    constructor
    · rintro (⟨b, rfl, hmem⟩ | ⟨i, b, rfl, hmem⟩)
      · exact ⟨0, b, rfl, (mem_pragmas n b t).mp hmem⟩
      · exact ⟨i + 1, b, by rw [Nat.add_right_comm, Nat.add_assoc], hmem⟩
    · rintro ⟨i, b, rfl, hmem⟩
      cases i with
      | zero => exact Or.inl ⟨b, rfl, (mem_pragmas n b t).mpr hmem⟩
      | succ i => exact Or.inr ⟨i, b, by rw [Nat.add_right_comm, Nat.add_assoc], hmem⟩

end

end SourceTree

inductive PragmaEffect
  | none
  | analysisOnly
  | existingParallel
  | dataMapping
  | synchronization
  | deviceRegion
  | unknown
  deriving DecidableEq, Repr

structure PragmaInfo where
  effect : PragmaEffect := .none
  text : List Char
  declaration : Address
  hasPrivate : Bool := false
  hasFirstprivate : Bool := false
  hasLastprivate : Bool := false
  hasReduction : Bool := false
  hasNowait : Bool := false
  hasOrdered : Bool := false
  hasDepend : Bool := false
  hasThreadprivate : Bool := false
  deriving DecidableEq, Repr

structure PragmaAnalysisResult where
  pragmas : List PragmaInfo := []
  blocksTransformation : Bool := false
  alreadyParallel : Bool := false
  hasSynchronization : Bool := false
  hasDataSharingClauses : Bool := false
  hasLastprivate : Bool := false
  hasReduction : Bool := false
  hasTaskDependencies : Bool := false
  hasOrderedRegion : Bool := false
  hasNowait : Bool := false
  hasThreadprivate : Bool := false
  reason : List Char := []
  deriving DecidableEq, Repr

namespace PragmaAnalysis

def lower (text : List Char) : List Char := text.map Char.toLower

def contains (text : List Char) (token : String) : Bool := decide (token.toList <:+: text)

def parseClauses (info : PragmaInfo) : PragmaInfo :=
  let text := lower info.text
  { info with
    hasPrivate := contains text "private("
    hasFirstprivate := contains text "firstprivate("
    hasLastprivate := contains text "lastprivate("
    hasReduction := contains text "reduction("
    hasNowait := contains text "nowait"
    hasOrdered := contains text "ordered"
    hasDepend := contains text "depend("
    hasThreadprivate := contains text "threadprivate" }

def classify (sourceText : List Char) : PragmaEffect :=
  let text := lower sourceText
  if contains text "loomx metadata" then .analysisOnly
  else if contains text "loomx semantic synchronization" then .synchronization
  else if contains text "scop" && !contains text "omp" then .analysisOnly
  else if contains text "omp atomic" || contains text "omp critical" ||
      contains text "omp barrier" || contains text "omp flush" ||
      contains text "omp ordered" || contains text "omp taskwait" ||
      contains text "omp taskgroup" || contains text "omp cancel" then .synchronization
  else if contains text "omp target" || contains text "omp teams" ||
      contains text "omp declare target" || contains text "omp end target" ||
      contains text "omp target data" || contains text "omp target enter data" ||
      contains text "omp target exit data" || contains text "omp target update" then
    .deviceRegion
  else if contains text "omp map" || contains text "omp declare mapper" then .dataMapping
  else if contains text "omp parallel" || contains text "omp for" ||
      contains text "omp distribute" || contains text "omp simd" ||
      contains text "omp task" || contains text "omp sections" then .existingParallel
  else .unknown

/-- The block that is the parent of a node, and its statements. -/
def parentBlock (root : SourceTree) (node : Address) : Option (Address × List SourceTree) :=
  if node = [] then none
  else
    match root.at? node.dropLast with
    | some (.basicBlock statements) => some (node.dropLast, statements)
    | _ => none

/-- The position of a node among the statements of a block. -/
def position (block : Address) (statements : List SourceTree) (node : Address) : Option Nat :=
  (List.range statements.length).find? fun i => block ++ [i] = node

/-- The parent of a node, its parent and so on. -/
def ancestors (node : Address) : List Address := node.inits.dropLast.reverse

/-- The walk up from a pragma: whether it meets the body of the loop before the loop. -/
def reachesBody (body loop : Address) : List Address → Bool
  | [] => false
  | current :: parents =>
    if current = body then true
    else if current = loop then false
    else reachesBody body loop parents

def isRelevantToLoop (root : SourceTree) (pragma loop body : Address) : Bool :=
  match parentBlock root loop with
  | some (block, statements) =>
    match position block statements loop with
    | some i => decide (0 < i) && decide (block ++ [i - 1] = pragma)
    | none => reachesBody body loop (ancestors pragma)
  | none => reachesBody body loop (ancestors pragma)

/-- The pragma that is the statement before a node. -/
def precedingPragma (root : SourceTree) (loop : Address) : List (Address × List Char) :=
  match parentBlock root loop with
  | some (block, statements) =>
    match position block statements loop with
    | some (i + 1) =>
      match statements[i]? with
      | some (.pragma text) => [(block ++ [i], text)]
      | _ => []
    | _ => []
  | none => []

def note (result : PragmaAnalysisResult) (info : PragmaInfo) : PragmaAnalysisResult :=
  let result :=
    { result with
      pragmas := result.pragmas ++ [info]
      hasDataSharingClauses := result.hasDataSharingClauses || info.hasPrivate ||
        info.hasFirstprivate || info.hasLastprivate
      hasLastprivate := result.hasLastprivate || info.hasLastprivate
      hasReduction := result.hasReduction || info.hasReduction
      hasTaskDependencies := result.hasTaskDependencies || info.hasDepend
      hasOrderedRegion := result.hasOrderedRegion || info.hasOrdered
      hasNowait := result.hasNowait || info.hasNowait
      hasThreadprivate := result.hasThreadprivate || info.hasThreadprivate }
  match info.effect with
  | .synchronization =>
    { result with
      blocksTransformation := true
      hasSynchronization := true
      reason := "existing synchronization/ordering pragma: ".toList ++ info.text }
  | .existingParallel | .deviceRegion =>
    { result with
      blocksTransformation := true
      alreadyParallel := true
      reason := "existing execution pragma: ".toList ++ info.text }
  | .unknown =>
    { result with
      blocksTransformation := true
      reason := "unknown pragma semantics: ".toList ++ info.text }
  | _ => result

def pragmaInfo (pragma : Address × List Char) : PragmaInfo :=
  parseClauses { text := pragma.2, declaration := pragma.1, effect := classify pragma.2 }

/-- `analyze` for the for statement at an address. -/
def analyze (root : SourceTree) (loop : Address) : PragmaAnalysisResult :=
  match root.at? loop with
  | some (.forStatement header body) =>
    let nodes := ((SourceTree.forStatement header body).pragmas.map fun p =>
      (loop ++ p.1, p.2)) ++ precedingPragma root loop
    (nodes.filter fun p => isRelevantToLoop root p.1 loop (loop ++ [header.length])).foldl
      (fun result p => note result (pragmaInfo p)) {}
  | _ => {}

end PragmaAnalysis

/-- The effects of synchronisation, execution and unknown pragmas. -/
def PragmaEffect.blocks : PragmaEffect → Bool
  | .synchronization | .existingParallel | .deviceRegion | .unknown => true
  | .none | .analysisOnly | .dataMapping => false

namespace PragmaAnalysis

/-- A pragma of synchronisation, execution or unknown kind. -/
def BlockingPragma (root : SourceTree) (p : Address) : Prop :=
  ∃ text, root.at? p = some (.pragma text) ∧ (classify text).blocks = true

/-- The node at `p` is the statement directly before `loop` in a block. -/
def StandsBefore (root : SourceTree) (loop p : Address) : Prop :=
  ∃ block i statements, root.at? block = some (.basicBlock statements) ∧
    loop = block ++ [i + 1] ∧ p = block ++ [i]

/-- The node at `p` is in the body of the loop, or the body itself. -/
def InBody (root : SourceTree) (loop p : Address) : Prop :=
  ∃ header body below, root.at? loop = some (.forStatement header body) ∧
    p = loop ++ header.length :: below

def InBlock (root : SourceTree) (loop : Address) : Prop :=
  ∃ block i statements, root.at? block = some (.basicBlock statements) ∧ loop = block ++ [i]

def BodyIsPragma (root : SourceTree) (loop : Address) : Prop :=
  ∃ header text, root.at? loop = some (.forStatement header (.pragma text))

theorem note_blocks (result : PragmaAnalysisResult) (info : PragmaInfo) :
    (note result info).blocksTransformation =
      (result.blocksTransformation || info.effect.blocks) := by
  unfold note
  cases info.effect <;> simp [PragmaEffect.blocks]

theorem foldl_note_blocks (nodes : List (Address × List Char)) (result : PragmaAnalysisResult) :
    (nodes.foldl (fun result p => note result (pragmaInfo p)) result).blocksTransformation =
      (result.blocksTransformation || nodes.any fun p => (classify p.2).blocks) := by
  induction nodes generalizing result with
  | nil => simp
  | cons p nodes ih =>
    rw [List.foldl_cons, ih, note_blocks, List.any_cons, Bool.or_assoc]
    rfl

section
variable {root : SourceTree} {loop : Address} {header : List SourceTree} {body : SourceTree}

theorem ancestors_concat (a : Address) (k : Nat) : ancestors (a ++ [k]) = a :: ancestors a := by
  have hinits : (a ++ [k]).inits = a.inits ++ [a ++ [k]] := by simp [List.inits_append]
  have hself : a.inits = a.inits.dropLast ++ [a] := by
    cases a using List.reverseRecOn with
    | nil => rfl
    | append_singleton a x => simp [List.inits_append]
  rw [ancestors, hinits, List.dropLast_concat, hself]
  simp [ancestors]

/-- From below a loop the walk meets the body first exactly if it starts inside the body. -/
theorem reachesBody_below (loop : Address) (h k : Nat) (below : Address) :
    reachesBody (loop ++ [h]) loop (ancestors (loop ++ k :: below)) = true ↔
      k = h ∧ below ≠ [] := by
  induction below using List.reverseRecOn with
  | nil =>
    rw [ancestors_concat, reachesBody]
    simp
  | append_singleton below x ih =>
    rw [← List.cons_append, ← List.append_assoc, ancestors_concat, reachesBody]
    split
    next heq =>
      obtain ⟨rfl, rfl⟩ : k = h ∧ below = [] := by simpa using heq
      simp
    next hne =>
      split
      next heq => simp at heq
      next =>
        rw [ih]
        constructor
        · exact fun hk => ⟨hk.1, by simp⟩
        · rintro ⟨rfl, _⟩
          refine ⟨rfl, ?_⟩
          rintro rfl
          exact hne rfl

theorem parentBlock_concat {block : Address} {i : Nat} {statements : List SourceTree}
    (h : root.at? block = some (.basicBlock statements)) :
    parentBlock root (block ++ [i]) = some (block, statements) := by
  simp [parentBlock, h]

theorem inBlock_of_parentBlock {block : Address} {statements : List SourceTree}
    (h : parentBlock root loop = some (block, statements)) : InBlock root loop := by
  unfold parentBlock at h
  split at h
  next => simp at h
  next hne =>
    split at h
    next ss hat =>
      refine ⟨loop.dropLast, loop.getLast hne, ss, hat, ?_⟩
      rw [List.dropLast_append_getLast]
    next => simp at h

theorem position_concat {block : Address} {i : Nat} {statements : List SourceTree}
    (h : i < statements.length) : position block statements (block ++ [i]) = some i := by
  unfold position
  rw [List.find?_range_eq_some]
  refine ⟨by simp, List.mem_range.mpr h, fun j hj => ?_⟩
  simp
  omega

/-- The pragmas `analyze` looks at. -/
def candidates (root : SourceTree) (loop : Address) (header : List SourceTree)
    (body : SourceTree) : List (Address × List Char) :=
  ((SourceTree.forStatement header body).pragmas.map fun p => (loop ++ p.1, p.2)) ++
    precedingPragma root loop

theorem blocks_iff_candidate (hat : root.at? loop = some (.forStatement header body)) :
    (analyze root loop).blocksTransformation = true ↔
      ∃ p ∈ candidates root loop header body,
        isRelevantToLoop root p.1 loop (loop ++ [header.length]) = true ∧
          (classify p.2).blocks = true := by
  unfold analyze
  rw [hat]
  simp only [foldl_note_blocks, Bool.false_or, List.any_eq_true, List.mem_filter]
  exact exists_congr fun p => and_assoc

theorem mem_candidates_below (hat : root.at? loop = some (.forStatement header body))
    (b : Address) (t : List Char) (h : root.at? (loop ++ b) = some (.pragma t)) :
    (loop ++ b, t) ∈ candidates root loop header body := by
  rw [SourceTree.at?_append, hat] at h
  refine List.mem_append_left _ (List.mem_map.mpr ⟨(b, t), ?_, rfl⟩)
  exact (SourceTree.mem_pragmas _ b t).mpr h

theorem length_of_at? {block : Address} {i : Nat} {statements : List SourceTree} {n : SourceTree}
    (hblock : root.at? block = some (.basicBlock statements))
    (h : root.at? (block ++ [i]) = some n) : i < statements.length := by
  rw [SourceTree.at?_append, hblock] at h
  by_contra hge
  have hnone : statements[i]? = none := List.getElem?_eq_none_iff.mpr (not_lt.mp hge)
  simp [SourceTree.at?, SourceTree.children, hnone] at h

theorem StandsBefore.eq {block p : Address} {j : Nat}
    (h : StandsBefore root (block ++ [j]) p) : ∃ i, j = i + 1 ∧ p = block ++ [i] := by
  obtain ⟨block', i, _, _, hloop, rfl⟩ := h
  obtain ⟨rfl, hj⟩ := List.append_inj' hloop rfl
  exact ⟨i, by simpa using hj, rfl⟩

theorem StandsBefore.inBlock {p : Address} (h : StandsBefore root loop p) : InBlock root loop := by
  obtain ⟨block, i, statements, hat, hloop, _⟩ := h
  exact ⟨block, i + 1, statements, hat, hloop⟩

theorem parentBlock_of_not_inBlock (h : ¬InBlock root loop) : parentBlock root loop = none := by
  cases hp : parentBlock root loop with
  | none => rfl
  | some b => exact absurd (inBlock_of_parentBlock hp) h

theorem mem_precedingPragma (hat : root.at? loop = some (.forStatement header body)) {p : Address}
    {t : List Char} :
    (p, t) ∈ precedingPragma root loop ↔
      StandsBefore root loop p ∧ root.at? p = some (.pragma t) := by
  unfold precedingPragma
  by_cases hin : InBlock root loop
  · obtain ⟨block, j, statements, hblock, rfl⟩ := hin
    rw [parentBlock_concat hblock]
    simp only [position_concat (length_of_at? hblock hat)]
    cases j with
    | zero =>
      simp only [List.not_mem_nil, false_iff, not_and]
      intro hbefore
      obtain ⟨i, hi, _⟩ := hbefore.eq
      omega
    | succ i =>
      have hget : root.at? (block ++ [i]) = statements[i]? := by
        rw [SourceTree.at?_append, hblock]
        cases hs : statements[i]? <;> simp [SourceTree.at?, SourceTree.children, hs]
      have hstands : StandsBefore root (block ++ [i + 1]) p ↔ p = block ++ [i] := by
        constructor
        · intro h
          obtain ⟨i', hi, hp⟩ := h.eq
          rw [hp, Nat.add_right_cancel hi]
        · exact fun hp => ⟨block, i, statements, hblock, rfl, hp⟩
      rw [hstands]
      simp only
      split
      next text hs =>
        rw [List.mem_singleton, Prod.mk.injEq]
        refine and_congr_right fun hp => ?_
        rw [hp, hget, hs]
        simp [eq_comm]
      next hs =>
        simp only [List.not_mem_nil, false_iff, not_and]
        rintro rfl hpragma
        exact hs t (hget ▸ hpragma)
  · rw [parentBlock_of_not_inBlock hin]
    simp only [List.not_mem_nil, false_iff, not_and]
    exact fun h => absurd h.inBlock hin

/-- Every candidate is a pragma of the tree. -/
theorem at?_of_mem_candidates (hat : root.at? loop = some (.forStatement header body))
    {p : Address × List Char} (h : p ∈ candidates root loop header body) :
    root.at? p.1 = some (.pragma p.2) := by
  rcases List.mem_append.mp h with h | h
  · obtain ⟨⟨b, t⟩, hmem, rfl⟩ := List.mem_map.mp h
    rw [SourceTree.at?_append, hat]
    exact (SourceTree.mem_pragmas _ b t).mp hmem
  · exact ((mem_precedingPragma hat).mp h).2

/-- In a block only the pragma before the loop counts. -/
theorem blocks_iff_of_inBlock (hat : root.at? loop = some (.forStatement header body))
    (hin : InBlock root loop) :
    (analyze root loop).blocksTransformation = true ↔
      ∃ q, StandsBefore root loop q ∧ BlockingPragma root q := by
  rw [blocks_iff_candidate hat]
  obtain ⟨block, j, statements, hblock, rfl⟩ := hin
  have hrelevant : ∀ p, isRelevantToLoop root p (block ++ [j])
      (block ++ [j] ++ [header.length]) = true ↔ 0 < j ∧ block ++ [j - 1] = p := by
    intro p
    unfold isRelevantToLoop
    rw [parentBlock_concat hblock]
    simp [position_concat (length_of_at? hblock hat)]
  constructor
  · rintro ⟨⟨p, t⟩, hmem, hrel, hkind⟩
    obtain ⟨hpos, rfl⟩ := (hrelevant p).mp hrel
    obtain ⟨i, rfl⟩ := Nat.exists_eq_succ_of_ne_zero (Nat.ne_of_gt hpos)
    exact ⟨block ++ [i], ⟨block, i, statements, hblock, rfl, rfl⟩, t,
      at?_of_mem_candidates hat hmem, hkind⟩
  · rintro ⟨q, hbefore, t, hpragma, hkind⟩
    refine ⟨(q, t), List.mem_append_right _
      ((mem_precedingPragma hat).mpr ⟨hbefore, hpragma⟩), ?_, hkind⟩
    obtain ⟨i, rfl, rfl⟩ := hbefore.eq
    exact (hrelevant _).mpr ⟨by omega, rfl⟩

/-- Elsewhere the pragmas strictly inside the body count. -/
theorem blocks_iff_of_not_inBlock (hat : root.at? loop = some (.forStatement header body))
    (hin : ¬InBlock root loop) :
    (analyze root loop).blocksTransformation = true ↔
      ∃ below, below ≠ [] ∧ BlockingPragma root (loop ++ header.length :: below) := by
  rw [blocks_iff_candidate hat]
  have hrelevant : ∀ p, isRelevantToLoop root p loop (loop ++ [header.length]) =
      reachesBody (loop ++ [header.length]) loop (ancestors p) := by
    intro p
    unfold isRelevantToLoop
    rw [parentBlock_of_not_inBlock hin]
  constructor
  · rintro ⟨⟨p, t⟩, hmem, hrel, hkind⟩
    have hpragma := at?_of_mem_candidates hat hmem
    rw [hrelevant] at hrel
    rcases List.mem_append.mp hmem with hmem | hmem
    · obtain ⟨⟨b, t'⟩, _, hp⟩ := List.mem_map.mp hmem
      obtain ⟨rfl, rfl⟩ := Prod.mk.inj hp
      cases b with
      | nil => rw [List.append_nil, hat] at hpragma; simp at hpragma
      | cons k below =>
        obtain ⟨rfl, hne⟩ := (reachesBody_below loop header.length k below).mp hrel
        exact ⟨below, hne, _, hpragma, hkind⟩
    · exact absurd ((mem_precedingPragma hat).mp hmem).1.inBlock hin
  · rintro ⟨below, hne, t, hpragma, hkind⟩
    refine ⟨_, mem_candidates_below hat _ t hpragma, ?_, hkind⟩
    rw [hrelevant]
    exact (reachesBody_below loop header.length header.length below).mpr ⟨rfl, hne⟩

/-- A blocking pragma before a loop or in its body is reported exactly if the loop is no
statement of a block and its body is no pragma, or a blocking pragma stands directly before the
loop. -/
theorem pragma_blocks_iff {p : Address} (hp : BlockingPragma root p)
    (hpos : StandsBefore root loop p ∨ InBody root loop p)
    (hat : root.at? loop = some (.forStatement header body)) :
    (analyze root loop).blocksTransformation = true ↔
      (¬InBlock root loop ∧ ¬BodyIsPragma root loop) ∨
        ∃ q, StandsBefore root loop q ∧ BlockingPragma root q := by
  by_cases hin : InBlock root loop
  · rw [blocks_iff_of_inBlock hat hin]
    simp [hin]
  · have hbefore : ¬∃ q, StandsBefore root loop q ∧ BlockingPragma root q :=
      fun ⟨_, h, _⟩ => hin h.inBlock
    rw [blocks_iff_of_not_inBlock hat hin]
    simp only [hin, hbefore, not_false_eq_true, true_and, or_false]
    have hbody : root.at? (loop ++ [header.length]) = some body := by
      rw [SourceTree.at?_append, hat]
      simp [SourceTree.at?, SourceTree.children]
    have hbelow : ∀ below, root.at? (loop ++ header.length :: below) = body.at? below := by
      intro below
      rw [List.append_cons, SourceTree.at?_append, hbody]
      rfl
    constructor
    · rintro ⟨below, hne, t, hpragma, _⟩ ⟨header', text, hat'⟩
      rw [hat] at hat'
      obtain ⟨_, rfl⟩ := SourceTree.forStatement.inj (Option.some.inj hat')
      rw [hbelow] at hpragma
      cases below with
      | nil => exact hne rfl
      | cons k below => simp [SourceTree.at?, SourceTree.children] at hpragma
    · intro hnot
      rcases hpos with hpos | ⟨header', body', below, hat', rfl⟩
      · exact absurd hpos.inBlock hin
      · rw [hat] at hat'
        obtain ⟨rfl, rfl⟩ := SourceTree.forStatement.inj (Option.some.inj hat')
        refine ⟨below, ?_, hp⟩
        rintro rfl
        obtain ⟨t, hpragma, _⟩ := hp
        rw [hbelow] at hpragma
        obtain rfl : body = .pragma t := Option.some.inj hpragma
        exact hnot ⟨header, t, hat⟩

end

/-- A block with `for (..) \x7b #pragma omp critical .. \x7d`. -/
def criticalInside : SourceTree :=
  .basicBlock [.forStatement []
    (.basicBlock [.pragma "#pragma omp critical".toList, .other []])]

theorem criticalInside_blocking : BlockingPragma criticalInside [0, 0, 0] :=
  ⟨"#pragma omp critical".toList, rfl, by decide⟩

/-- The critical section in the body does not block the transformation. -/
theorem criticalInside_not_blocked :
    BlockingPragma criticalInside [0, 0, 0] ∧ InBody criticalInside [0] [0, 0, 0] ∧
      (analyze criticalInside [0]).blocksTransformation = false :=
  ⟨criticalInside_blocking, ⟨_, _, [0], rfl, rfl⟩, by decide⟩

/-- A block with a critical pragma directly before a loop. -/
def criticalBefore : SourceTree :=
  .basicBlock [.pragma "#pragma omp critical".toList, .forStatement [] (.basicBlock [])]

theorem criticalBefore_blocked : (analyze criticalBefore [1]).blocksTransformation = true :=
  (pragma_blocks_iff (show BlockingPragma criticalBefore [0] from
      ⟨"#pragma omp critical".toList, rfl, by decide⟩)
    (Or.inl ⟨[], 0, _, rfl, rfl, rfl⟩) rfl).mpr
    (Or.inr ⟨[0], ⟨[], 0, _, rfl, rfl, rfl⟩, "#pragma omp critical".toList, rfl, by decide⟩)

end PragmaAnalysis

end LoomX
