import LoomX.LiveOut
import Mathlib.Data.List.TakeWhile

namespace LoomX

/-- An access to the variable in question on a path through the program. -/
inductive VarEvent
  | read
  | write
  deriving DecidableEq, Repr

abbrev EventPath := List VarEvent

/-- One path after the other. -/
def joinPaths (ps qs : List EventPath) : List EventPath := ps.flatMap fun p => qs.map (p ++ ·)

namespace Expr

/-- The l-value names the variable or a part of it. -/
def namesVar (x : Var) : Expr → Bool
  | varRef v => v = x
  | cast _ e | member e _ => e.namesVar x
  | _ => false

/-- What storing to the l-value does to the variable; a member of it is no whole write. -/
def storePaths (x : Var) (l : Expr) : List EventPath :=
  if l.skipCasts = varRef x then [[.write]] else [[]]

/-- What reading the old value of the l-value does to the variable. -/
def loadPaths (x : Var) (l : Expr) : List EventPath := if l.namesVar x then [[.read]] else [[]]

/-- A callee does nothing to an argument passed by its address, or reads or writes it first. -/
def outPaths (x : Var) (args : Expr) : List EventPath :=
  if args.outArgs.any (·.namesVar x) then [[], [.read], [.write]] else [[]]

mutual

/-- The accesses to the variable on the paths through an evaluation: the right operand of `&&`
and `||` is evaluated or not, and one branch of a conditional is. -/
def valuePaths (x : Var) : Expr → List EventPath
  | intVal _ _ | exprNil => [[]]
  | varRef v => if v = x then [[.read]] else [[]]
  | deref e | cast _ e | unary _ e => e.valuePaths x
  | arrRef a b | exprCons a b => joinPaths (a.valuePaths x) (b.valuePaths x)
  | member e _ => joinPaths (e.locatePaths x) (e.loadPaths x)
  | addrOf e => e.locatePaths x
  | binary op a b =>
    match op with
    | .land | .lor => joinPaths (a.valuePaths x) ([] :: b.valuePaths x)
    | _ => joinPaths (a.valuePaths x) (b.valuePaths x)
  | cond c a b => joinPaths (c.valuePaths x) (a.valuePaths x ++ b.valuePaths x)
  | assign l r => joinPaths (joinPaths (l.locatePaths x) (r.valuePaths x)) (l.storePaths x)
  | compound _ l r =>
    joinPaths (joinPaths (l.locatePaths x) (r.valuePaths x))
      (joinPaths (l.loadPaths x) (l.storePaths x))
  | plusPlus l | minusMinus l =>
    joinPaths (l.locatePaths x) (joinPaths (l.loadPaths x) (l.storePaths x))
  | call _ args => joinPaths (args.valuePaths x) (args.outPaths x)

/-- Those through the evaluation of an l-value to its address. -/
def locatePaths (x : Var) : Expr → List EventPath
  | arrRef a b => joinPaths (a.valuePaths x) (b.valuePaths x)
  | deref e => e.valuePaths x
  | member e _ | cast _ e => e.locatePaths x
  | _ => [[]]

end

end Expr

/-- The paths through a loop: its test, and rounds of body, step and test. -/
inductive LoopPath (test : List EventPath) (body : Outcome → EventPath → Prop)
    (step : List EventPath) : Outcome → EventPath → Prop
  | exit {p : EventPath} : p ∈ test → LoopPath test body step .normal p
  | broken {p q : EventPath} : p ∈ test → body .broken q → LoopPath test body step .normal (p ++ q)
  | returned {p q : EventPath} : p ∈ test → body .returned q →
    LoopPath test body step .returned (p ++ q)
  | next {p q r rest : EventPath} {o : Outcome} : p ∈ test → body .normal q ∨ body .continued q →
    r ∈ step → LoopPath test body step o rest → LoopPath test body step o (p ++ q ++ r ++ rest)

namespace Stmt

/-- The paths through a statement and how it ends on them; every test can turn out either way. -/
def Path (x : Var) : Stmt → Outcome → EventPath → Prop
  | empty, o, p | decl _ none, o, p => o = .normal ∧ p = []
  | expr e, o, p | decl _ (some e), o, p => o = .normal ∧ p ∈ e.valuePaths x
  | breakStmt, o, p => o = .broken ∧ p = []
  | continueStmt, o, p => o = .continued ∧ p = []
  | returnStmt none, o, p => o = .returned ∧ p = []
  | returnStmt (some e), o, p => o = .returned ∧ p ∈ e.valuePaths x
  | seq a b, o, p =>
    (∃ q r, a.Path x .normal q ∧ b.Path x o r ∧ p = q ++ r) ∨ (o ≠ .normal ∧ a.Path x o p)
  | ite c a b, o, p => ∃ q r, q ∈ c.valuePaths x ∧ (a.Path x o r ∨ b.Path x o r) ∧ p = q ++ r
  | whileLoop c b, o, p => LoopPath (c.valuePaths x) (b.Path x) [[]] o p
  | forLoop i c u b, o, p =>
    (∃ q r, i.Path x .normal q ∧ LoopPath (c.valuePaths x) (b.Path x) (u.valuePaths x) o r ∧
      p = q ++ r) ∨ (o ≠ .normal ∧ i.Path x o p)

end Stmt

/-- Some path reads the variable before it writes it. -/
def readFirst (ps : List EventPath) : Bool := ps.any fun p => p.head? = some .read

/-- Some path leaves the variable alone. -/
def passes (ps : List EventPath) : Bool := ps.any (·.isEmpty)

/-- The evaluation can read the variable first, and the read is behind a collected write or not
collected itself. -/
def Expr.mayReadUnseen (x : Var) (behind : Bool) (e : Expr) : Bool :=
  readFirst (e.valuePaths x) && (behind || x ∉ variablesOf (e.readRefs .value))

namespace Stmt

/-- The statement can end so without an access to the variable. -/
def mayPass (x : Var) : Stmt → Outcome → Bool
  | empty, o | decl _ none, o => o = .normal
  | expr e, o | decl _ (some e), o => o = .normal && passes (e.valuePaths x)
  | breakStmt, o => o = .broken
  | continueStmt, o => o = .continued
  | returnStmt none, o => o = .returned
  | returnStmt (some e), o => o = .returned && passes (e.valuePaths x)
  | seq a b, o => a.mayPass x .normal && b.mayPass x o || o ≠ .normal && a.mayPass x o
  | ite c a b, o => passes (c.valuePaths x) && (a.mayPass x o || b.mayPass x o)
  | whileLoop c b, o =>
    passes (c.valuePaths x) && (o = .normal || o = .returned && b.mayPass x .returned)
  | forLoop i c _ b, o =>
    i.mayPass x .normal && passes (c.valuePaths x) &&
        (o = .normal || o = .returned && b.mayPass x .returned) ||
      o ≠ .normal && i.mayPass x o

/-- The statement can read the variable before it has written it. -/
def mayReadFirst (x : Var) : Stmt → Bool
  | empty | decl _ none | breakStmt | continueStmt | returnStmt none => false
  | expr e | decl _ (some e) | returnStmt (some e) => readFirst (e.valuePaths x)
  | seq a b => a.mayReadFirst x || a.mayPass x .normal && b.mayReadFirst x
  | ite c a b =>
    readFirst (c.valuePaths x) ||
      passes (c.valuePaths x) && (a.mayReadFirst x || b.mayReadFirst x)
  | whileLoop c b =>
    readFirst (c.valuePaths x) || passes (c.valuePaths x) && b.mayReadFirst x
  -- The body may not be run, and the increment runs only after it.
  | forLoop i c u b =>
    i.mayReadFirst x || i.mayPass x .normal && (readFirst (c.valuePaths x) ||
      passes (c.valuePaths x) && (b.mayReadFirst x ||
        (b.mayPass x .normal || b.mayPass x .continued) && readFirst (u.valuePaths x)))

/-- The first access can be a read which the check does not look at: one behind a collected write
in the text, or one that is not collected. -/
def mayReadUnseen (x : Var) (behind : Bool) : Stmt → Bool
  | empty | decl _ none | breakStmt | continueStmt | returnStmt none => false
  | expr e | decl _ (some e) | returnStmt (some e) => e.mayReadUnseen x behind
  | seq a b =>
    a.mayReadUnseen x behind ||
      a.mayPass x .normal && b.mayReadUnseen x (behind || x ∈ variablesOf a.writeRefs)
  | ite c a b =>
    let behindTest := behind || x ∈ variablesOf (c.writeRefs .value)
    c.mayReadUnseen x behind || passes (c.valuePaths x) &&
      (a.mayReadUnseen x behindTest ||
        b.mayReadUnseen x (behindTest || x ∈ variablesOf a.writeRefs))
  | whileLoop c b =>
    c.mayReadUnseen x behind || passes (c.valuePaths x) &&
      b.mayReadUnseen x (behind || x ∈ variablesOf (c.writeRefs .value))
  -- The check takes the increment for the first part of the loop.
  | forLoop i c u b =>
    let behindStep := behind || x ∈ variablesOf (u.writeRefs .value)
    let behindInit := behindStep || x ∈ variablesOf i.writeRefs
    i.mayReadUnseen x behindStep || i.mayPass x .normal && (c.mayReadUnseen x behindInit ||
      passes (c.valuePaths x) &&
        (b.mayReadUnseen x (behindInit || x ∈ variablesOf (c.writeRefs .value)) ||
          (b.mayPass x .normal || b.mayPass x .continued) && u.mayReadUnseen x behind))

end Stmt

section
variable {x : Var}

theorem head?_append_read {p q : EventPath} :
    (p ++ q).head? = some .read ↔ p.head? = some .read ∨ p = [] ∧ q.head? = some .read := by
  cases p <;> simp

theorem readFirst_iff {ps : List EventPath} :
    readFirst ps = true ↔ ∃ p ∈ ps, p.head? = some .read := by
  simp [readFirst]

theorem passes_iff {ps : List EventPath} : passes ps = true ↔ [] ∈ ps := by
  simp [passes]

theorem joinPaths_ne_nil {ps qs : List EventPath} (hp : ps ≠ []) (hq : qs ≠ []) :
    joinPaths ps qs ≠ [] := by
  obtain ⟨p, hp⟩ := List.exists_mem_of_ne_nil ps hp
  obtain ⟨q, hq⟩ := List.exists_mem_of_ne_nil qs hq
  have hmem : p ++ q ∈ joinPaths ps qs :=
    List.mem_flatMap.mpr ⟨p, hp, List.mem_map.mpr ⟨q, hq, rfl⟩⟩
  exact List.ne_nil_of_mem hmem

theorem storePaths_ne_nil (l : Expr) : l.storePaths x ≠ [] := by
  unfold Expr.storePaths
  split <;> simp

theorem loadPaths_ne_nil (l : Expr) : l.loadPaths x ≠ [] := by
  unfold Expr.loadPaths
  split <;> simp

theorem outPaths_ne_nil (e : Expr) : e.outPaths x ≠ [] := by
  unfold Expr.outPaths
  split <;> simp

/-- Every expression has a path through it. -/
theorem exprPaths_ne_nil (e : Expr) : e.valuePaths x ≠ [] ∧ e.locatePaths x ≠ [] := by
  induction e with
  | intVal | exprNil => simp [Expr.valuePaths, Expr.locatePaths]
  | varRef v =>
    simp only [Expr.valuePaths, Expr.locatePaths]
    split <;> simp
  | deref e ih => exact ⟨ih.1, ih.1⟩
  | cast t e ih => exact ih
  | unary op e ih => exact ⟨ih.1, by simp [Expr.locatePaths]⟩
  | addrOf e ih => exact ⟨ih.2, by simp [Expr.locatePaths]⟩
  | member e f ih => exact ⟨joinPaths_ne_nil ih.2 (loadPaths_ne_nil e), ih.2⟩
  | arrRef a b iha ihb => exact ⟨joinPaths_ne_nil iha.1 ihb.1, joinPaths_ne_nil iha.1 ihb.1⟩
  | exprCons a b iha ihb => exact ⟨joinPaths_ne_nil iha.1 ihb.1, by simp [Expr.locatePaths]⟩
  | binary op a b iha ihb =>
    refine ⟨?_, by simp [Expr.locatePaths]⟩
    simp only [Expr.valuePaths]
    split
    next => exact joinPaths_ne_nil iha.1 (List.cons_ne_nil _ _)
    next => exact joinPaths_ne_nil iha.1 (List.cons_ne_nil _ _)
    next => exact joinPaths_ne_nil iha.1 ihb.1
  | cond c a b ihc iha ihb =>
    exact ⟨joinPaths_ne_nil ihc.1 (by simp [iha.1]), by simp [Expr.locatePaths]⟩
  | assign l r ihl ihr =>
    exact ⟨joinPaths_ne_nil (joinPaths_ne_nil ihl.2 ihr.1) (storePaths_ne_nil l),
      by simp [Expr.locatePaths]⟩
  | compound op l r ihl ihr =>
    exact ⟨joinPaths_ne_nil (joinPaths_ne_nil ihl.2 ihr.1)
      (joinPaths_ne_nil (loadPaths_ne_nil l) (storePaths_ne_nil l)), by simp [Expr.locatePaths]⟩
  | plusPlus l ih | minusMinus l ih =>
    exact ⟨joinPaths_ne_nil ih.2 (joinPaths_ne_nil (loadPaths_ne_nil l) (storePaths_ne_nil l)),
      by simp [Expr.locatePaths]⟩
  | call f args ih => exact ⟨joinPaths_ne_nil ih.1 (outPaths_ne_nil args), by simp [Expr.locatePaths]⟩

theorem exists_valuePath (x : Var) (e : Expr) : ∃ p, p ∈ e.valuePaths x :=
  List.exists_mem_of_ne_nil _ (exprPaths_ne_nil e).1

/-- Every statement has a path through it. -/
theorem exists_path (x : Var) (s : Stmt) : ∃ o p, s.Path x o p := by
  induction s with
  | empty => exact ⟨.normal, [], rfl, rfl⟩
  | breakStmt => exact ⟨.broken, [], rfl, rfl⟩
  | continueStmt => exact ⟨.continued, [], rfl, rfl⟩
  | expr e =>
    obtain ⟨p, hp⟩ := exists_valuePath x e
    exact ⟨.normal, p, rfl, hp⟩
  | decl v init =>
    cases init with
    | none => exact ⟨.normal, [], rfl, rfl⟩
    | some e =>
      obtain ⟨p, hp⟩ := exists_valuePath x e
      exact ⟨.normal, p, rfl, hp⟩
  | returnStmt e =>
    cases e with
    | none => exact ⟨.returned, [], rfl, rfl⟩
    | some e =>
      obtain ⟨p, hp⟩ := exists_valuePath x e
      exact ⟨.returned, p, rfl, hp⟩
  | seq a b iha ihb =>
    obtain ⟨o, p, hp⟩ := iha
    obtain ⟨o', q, hq⟩ := ihb
    by_cases ho : o = .normal
    · exact ⟨o', p ++ q, Or.inl ⟨p, q, ho ▸ hp, hq, rfl⟩⟩
    · exact ⟨o, p, Or.inr ⟨ho, hp⟩⟩
  | ite c a b iha ihb =>
    obtain ⟨q, hq⟩ := exists_valuePath x c
    obtain ⟨o, r, hr⟩ := iha
    exact ⟨o, q ++ r, q, r, hq, Or.inl hr, rfl⟩
  | whileLoop c b ih =>
    obtain ⟨p, hp⟩ := exists_valuePath x c
    exact ⟨.normal, p, .exit hp⟩
  | forLoop i c u b ihi ihb =>
    obtain ⟨o, q, hq⟩ := ihi
    obtain ⟨p, hp⟩ := exists_valuePath x c
    by_cases ho : o = .normal
    · exact ⟨.normal, q ++ p, Or.inl ⟨q, p, ho ▸ hq, .exit hp, rfl⟩⟩
    · exact ⟨o, q, Or.inr ⟨ho, hq⟩⟩

section
variable {test step : List EventPath} {body : Outcome → EventPath → Prop}

/-- A loop that leaves the variable alone ends after its test, or returns from its body. -/
theorem loopPath_nil_iff {o : Outcome} : LoopPath test body step o [] ↔
    [] ∈ test ∧ (o = .normal ∨ o = .returned ∧ body .returned []) := by
  have hnil : ∀ {o : Outcome} {p : EventPath}, LoopPath test body step o p → p = [] →
      [] ∈ test ∧ (o = .normal ∨ o = .returned ∧ body .returned []) := by
    intro o p h
    induction h with
    | exit hmem =>
      rintro rfl
      exact ⟨hmem, Or.inl rfl⟩
    | broken hmem _ =>
      intro hp
      obtain ⟨rfl, rfl⟩ := List.append_eq_nil_iff.mp hp
      exact ⟨hmem, Or.inl rfl⟩
    | returned hmem hbody =>
      intro hp
      obtain ⟨rfl, rfl⟩ := List.append_eq_nil_iff.mp hp
      exact ⟨hmem, Or.inr ⟨rfl, hbody⟩⟩
    | next _ _ _ _ ih => exact fun hp => ih (List.append_eq_nil_iff.mp hp).2
  constructor
  · exact fun h => hnil h rfl
  · rintro ⟨hmem, rfl | ⟨rfl, hbody⟩⟩
    · exact .exit hmem
    · exact .returned hmem hbody

/-- The first access is in the first test, in the first run of the body or in the step after
it. -/
theorem loopPath_read_iff (ht : test ≠ []) (hs : step ≠ []) :
    (∃ o p, LoopPath test body step o p ∧ p.head? = some .read) ↔
      readFirst test = true ∨ [] ∈ test ∧ ((∃ o p, body o p ∧ p.head? = some .read) ∨
        (body .normal [] ∨ body .continued []) ∧ readFirst step = true) := by
  obtain ⟨p₀, hp₀⟩ := List.exists_mem_of_ne_nil test ht
  obtain ⟨r₀, hr₀⟩ := List.exists_mem_of_ne_nil step hs
  constructor
  · rintro ⟨o, p, h, hread⟩
    induction h with
    | @exit p hmem => exact Or.inl (readFirst_iff.mpr ⟨p, hmem, hread⟩)
    | @broken p q hmem hbody =>
      rcases head?_append_read.mp hread with hp | ⟨rfl, hq⟩
      · exact Or.inl (readFirst_iff.mpr ⟨p, hmem, hp⟩)
      · exact Or.inr ⟨hmem, Or.inl ⟨_, q, hbody, hq⟩⟩
    | @returned p q hmem hbody =>
      rcases head?_append_read.mp hread with hp | ⟨rfl, hq⟩
      · exact Or.inl (readFirst_iff.mpr ⟨p, hmem, hp⟩)
      · exact Or.inr ⟨hmem, Or.inl ⟨_, q, hbody, hq⟩⟩
    | @next p q r rest o hmem hbody hstep _ ih =>
      rcases head?_append_read.mp hread with hread | ⟨-, hread⟩
      · rcases head?_append_read.mp hread with hread | ⟨hnil, hr⟩
        · rcases head?_append_read.mp hread with hp | ⟨rfl, hq⟩
          · exact Or.inl (readFirst_iff.mpr ⟨p, hmem, hp⟩)
          · refine Or.inr ⟨hmem, Or.inl ?_⟩
            rcases hbody with hbody | hbody
            · exact ⟨_, q, hbody, hq⟩
            · exact ⟨_, q, hbody, hq⟩
        · obtain ⟨rfl, rfl⟩ := List.append_eq_nil_iff.mp hnil
          exact Or.inr ⟨hmem, Or.inr ⟨hbody, readFirst_iff.mpr ⟨r, hstep, hr⟩⟩⟩
      · exact ih hread
  · rintro (htest | ⟨hmem, ⟨o, q, hbody, hread⟩ | ⟨hbody, hstep⟩⟩)
    · obtain ⟨p, hp, hread⟩ := readFirst_iff.mp htest
      exact ⟨_, p, .exit hp, hread⟩
    · cases o with
      | broken => exact ⟨_, _, .broken hmem hbody, hread⟩
      | returned => exact ⟨_, _, .returned hmem hbody, hread⟩
      | normal =>
        refine ⟨_, _, .next hmem (Or.inl hbody) hr₀ (.exit hp₀), ?_⟩
        simp only [List.nil_append, head?_append_read, hread, true_or]
      | continued =>
        refine ⟨_, _, .next hmem (Or.inr hbody) hr₀ (.exit hp₀), ?_⟩
        simp only [List.nil_append, head?_append_read, hread, true_or]
    · obtain ⟨r, hr, hread⟩ := readFirst_iff.mp hstep
      refine ⟨_, _, .next hmem hbody hr (.exit hp₀), ?_⟩
      simp only [List.nil_append, head?_append_read, hread, true_or]

end

/-- The statement can end without an access exactly if there is a path on which it does. -/
theorem mayPass_iff (s : Stmt) (o : Outcome) : s.mayPass x o = true ↔ s.Path x o [] := by
  induction s generalizing o with
  | empty | breakStmt | continueStmt => simp [Stmt.mayPass, Stmt.Path]
  | expr e => simp [Stmt.mayPass, Stmt.Path, passes_iff]
  | decl v init => cases init <;> simp [Stmt.mayPass, Stmt.Path, passes_iff]
  | returnStmt e => cases e <;> simp [Stmt.mayPass, Stmt.Path, passes_iff]
  | seq a b iha ihb =>
    simp only [Stmt.mayPass, Stmt.Path, Bool.or_eq_true, Bool.and_eq_true, iha, ihb,
      decide_eq_true_eq, List.nil_eq_append_iff]
    refine or_congr_left ⟨fun h => ⟨[], [], h.1, h.2, rfl, rfl⟩, ?_⟩
    rintro ⟨q, r, ha, hb, rfl, rfl⟩
    exact ⟨ha, hb⟩
  | ite c a b iha ihb =>
    simp only [Stmt.mayPass, Stmt.Path, Bool.or_eq_true, Bool.and_eq_true, iha, ihb, passes_iff,
      List.nil_eq_append_iff]
    refine ⟨fun h => ⟨[], [], h.1, h.2, rfl, rfl⟩, ?_⟩
    rintro ⟨q, r, hc, h, rfl, rfl⟩
    exact ⟨hc, h⟩
  | whileLoop c b ih =>
    simp only [Stmt.mayPass, Stmt.Path, loopPath_nil_iff, Bool.or_eq_true, Bool.and_eq_true, ih,
      passes_iff, decide_eq_true_eq]
  | forLoop i c u b ihi ihb =>
    simp only [Stmt.mayPass, Stmt.Path, Bool.or_eq_true, Bool.and_eq_true, ihi, ihb, passes_iff,
      decide_eq_true_eq, List.nil_eq_append_iff, and_assoc]
    refine or_congr_left ⟨fun h => ⟨[], [], h.1, loopPath_nil_iff.mpr h.2, rfl, rfl⟩, ?_⟩
    rintro ⟨q, r, hi, hloop, rfl, rfl⟩
    exact ⟨hi, loopPath_nil_iff.mp hloop⟩

/-- The first access in a loop of a statement, with the initialization or the test before it. -/
theorem loop_readFirst_iff {c u : Expr} {b : Stmt}
    (ih : b.mayReadFirst x = true ↔ ∃ o p, b.Path x o p ∧ p.head? = some .read) :
    (∃ o p, LoopPath (c.valuePaths x) (b.Path x) (u.valuePaths x) o p ∧ p.head? = some .read) ↔
      readFirst (c.valuePaths x) = true ∨ passes (c.valuePaths x) = true ∧
        (b.mayReadFirst x = true ∨ (b.mayPass x .normal = true ∨ b.mayPass x .continued = true) ∧
          readFirst (u.valuePaths x) = true) := by
  rw [loopPath_read_iff (exprPaths_ne_nil c).1 (exprPaths_ne_nil u).1, ← ih, passes_iff,
    mayPass_iff, mayPass_iff]

/-- The statement can read first exactly if there is a path whose first access is a read. -/
theorem mayReadFirst_iff (s : Stmt) :
    s.mayReadFirst x = true ↔ ∃ o p, s.Path x o p ∧ p.head? = some .read := by
  induction s with
  | empty | breakStmt | continueStmt => simp [Stmt.mayReadFirst, Stmt.Path]
  | expr e => simp [Stmt.mayReadFirst, Stmt.Path, readFirst_iff]
  | decl v init => cases init <;> simp [Stmt.mayReadFirst, Stmt.Path, readFirst_iff]
  | returnStmt e => cases e <;> simp [Stmt.mayReadFirst, Stmt.Path, readFirst_iff]
  | seq a b iha ihb =>
    simp only [Stmt.mayReadFirst, Bool.or_eq_true, Bool.and_eq_true, iha, ihb, mayPass_iff]
    constructor
    · rintro (⟨o, p, hp, hread⟩ | ⟨ha, o, q, hq, hread⟩)
      · by_cases ho : o = .normal
        · obtain ⟨o', q, hq⟩ := exists_path x b
          exact ⟨o', p ++ q, Or.inl ⟨p, q, ho ▸ hp, hq, rfl⟩, head?_append_read.mpr (Or.inl hread)⟩
        · exact ⟨o, p, Or.inr ⟨ho, hp⟩, hread⟩
      · exact ⟨o, q, Or.inl ⟨[], q, ha, hq, rfl⟩, hread⟩
    · rintro ⟨o, p, ⟨q, r, hq, hr, rfl⟩ | ⟨-, hp⟩, hread⟩
      · rcases head?_append_read.mp hread with hread | ⟨rfl, hread⟩
        · exact Or.inl ⟨_, q, hq, hread⟩
        · exact Or.inr ⟨hq, o, r, hr, hread⟩
      · exact Or.inl ⟨o, p, hp, hread⟩
  | ite c a b iha ihb =>
    simp only [Stmt.mayReadFirst, Bool.or_eq_true, Bool.and_eq_true, iha, ihb, readFirst_iff,
      passes_iff]
    constructor
    · rintro (⟨q, hq, hread⟩ | ⟨hc, ⟨o, r, hr, hread⟩ | ⟨o, r, hr, hread⟩⟩)
      · obtain ⟨o, r, hr⟩ := exists_path x a
        exact ⟨o, q ++ r, ⟨q, r, hq, Or.inl hr, rfl⟩, head?_append_read.mpr (Or.inl hread)⟩
      · exact ⟨o, r, ⟨[], r, hc, Or.inl hr, rfl⟩, hread⟩
      · exact ⟨o, r, ⟨[], r, hc, Or.inr hr, rfl⟩, hread⟩
    · rintro ⟨o, p, ⟨q, r, hq, hr, rfl⟩, hread⟩
      rcases head?_append_read.mp hread with hread | ⟨rfl, hread⟩
      · exact Or.inl ⟨q, hq, hread⟩
      · rcases hr with hr | hr
        · exact Or.inr ⟨hq, Or.inl ⟨o, r, hr, hread⟩⟩
        · exact Or.inr ⟨hq, Or.inr ⟨o, r, hr, hread⟩⟩
  | whileLoop c b ih =>
    have hstep : readFirst [[]] = false := rfl
    simp only [Stmt.mayReadFirst, Stmt.Path, Bool.or_eq_true, Bool.and_eq_true]
    rw [loopPath_read_iff (exprPaths_ne_nil c).1 (List.cons_ne_nil _ _), ← ih, passes_iff, hstep]
    simp
  | forLoop i c u b ihi ihb =>
    have hloop := loop_readFirst_iff (c := c) (u := u) ihb
    simp only [Stmt.mayReadFirst, Bool.or_eq_true, Bool.and_eq_true, ihi]
    rw [← hloop, mayPass_iff]
    constructor
    · rintro (⟨o, p, hp, hread⟩ | ⟨hi, o, r, hr, hread⟩)
      · by_cases ho : o = .normal
        · obtain ⟨r, hr⟩ := exists_valuePath x c
          exact ⟨.normal, p ++ r, Or.inl ⟨p, r, ho ▸ hp, .exit hr, rfl⟩,
            head?_append_read.mpr (Or.inl hread)⟩
        · exact ⟨o, p, Or.inr ⟨ho, hp⟩, hread⟩
      · exact ⟨o, r, Or.inl ⟨[], r, hi, hr, rfl⟩, hread⟩
    · rintro ⟨o, p, ⟨q, r, hq, hr, rfl⟩ | ⟨-, hp⟩, hread⟩
      · rcases head?_append_read.mp hread with hread | ⟨rfl, hread⟩
        · exact Or.inl ⟨_, q, hq, hread⟩
        · exact Or.inr ⟨hq, o, r, hr, hread⟩
      · exact Or.inl ⟨o, p, hp, hread⟩

end

/-- Every read on the path comes after a write. -/
def ReadsAfterWrite (p : EventPath) : Prop := ∀ q r, p = q ++ .read :: r → .write ∈ q

theorem readsAfterWrite_iff {p : EventPath} : ReadsAfterWrite p ↔ p.head? ≠ some .read := by
  cases p with
  | nil => simp [ReadsAfterWrite]
  | cons e p =>
    cases e with
    | read =>
      refine iff_of_false (fun h => ?_) (by simp)
      exact List.not_mem_nil (h [] p rfl)
    | write =>
      refine iff_of_true (fun q r h => ?_) (by simp)
      cases q with
      | nil => simp at h
      | cons e' q =>
        rw [(List.cons.inj h).1]
        exact List.mem_cons_self

/-- The statement assigns the variable, or passes its address to a call. -/
def Stmt.writesVar (x : Var) (s : Stmt) : Bool :=
  (s.stores.any fun l => l.skipCasts = .varRef x) ||
    s.calls.any fun call => call.2.outArgs.any (·.namesVar x)

/-- A scalar from outside of the loop that the body writes and that is no reduction variable. -/
structure OuterScalar (loop : ForStatement) (x : Var) : Prop where
  scalar : x.isScalarVariable = true
  outside : x ∉ loop.init.declared ∧ x ∉ loop.body.declared
  written : loop.body.writesVar x = true
  plain : x ∉ getReductionVariables loop

/-- No iteration reads such a scalar before it has written it. -/
def ScalarsPrivatisable (loop : ForStatement) : Prop :=
  ∀ x, OuterScalar loop x → ∀ o p, loop.body.Path x o p → ReadsAfterWrite p

/-- The check looks at the variable: its write is collected, and it is no loop index. -/
def scanned (loop : ForStatement) (x : Var) : Bool :=
  x ∈ variablesOf loop.body.writeRefs && getLoopIndexVariable loop != some x &&
    x ∉ nestedLoopVars loop

/-- Every unit that reads the variable stands behind one that writes it. -/
def readsBehind (x : Var) : Bool → List RefUnit → Bool
  | _, [] => true
  | behind, u :: us =>
    (behind || x ∉ u.reads) && readsBehind x (behind || x ∈ u.writes) us

section
variable {x : Var}

theorem readsBehind_true (us : List RefUnit) : readsBehind x true us = true := by
  induction us with
  | nil => rfl
  | cons u us ih => simpa [readsBehind] using ih

theorem readsBehind_append {behind : Bool} {us vs : List RefUnit} :
    readsBehind x behind (us ++ vs) =
      (readsBehind x behind us && readsBehind x (behind || us.any fun u => x ∈ u.writes) vs) := by
  induction us generalizing behind with
  | nil => simp [readsBehind]
  | cons u us ih => simp [readsBehind, ih, Bool.and_assoc, Bool.or_assoc]

theorem variablesOf_append (rs ss : List Expr) :
    variablesOf (rs ++ ss) = variablesOf rs ++ variablesOf ss := List.filterMap_append

theorem any_writes_refUnits (conditional : Bool) (s : Stmt) :
    ((s.refUnits conditional).any fun u => x ∈ u.writes) = decide (x ∈ variablesOf s.writeRefs) := by
  induction s generalizing conditional with
  | empty | breakStmt | continueStmt => simp [Stmt.refUnits, Stmt.writeRefs, variablesOf]
  | expr e => exact Bool.or_false _
  | decl v init => cases init <;> simp [Stmt.refUnits, Stmt.writeRefs, RefUnit.of, variablesOf]
  | returnStmt e => cases e <;> simp [Stmt.refUnits, Stmt.writeRefs, RefUnit.of, variablesOf]
  | seq a b iha ihb =>
    simp [Stmt.refUnits, Stmt.writeRefs, variablesOf_append, iha, ihb]
  | ite c a b iha ihb =>
    simp [Stmt.refUnits, Stmt.writeRefs, variablesOf_append, iha, ihb, RefUnit.of]
  | whileLoop c b ih =>
    simp [Stmt.refUnits, Stmt.writeRefs, variablesOf_append, ih, RefUnit.of]
  | forLoop i c u b ihi ihb =>
    simp [Stmt.refUnits, Stmt.writeRefs, variablesOf_append, ihi, ihb, RefUnit.of, Bool.or_left_comm]

theorem any_writes_bodyUnits (s : Stmt) :
    ((bodyUnits s).any fun u => x ∈ u.writes) = decide (x ∈ variablesOf s.writeRefs) := by
  cases s with
  | ite c a b =>
    simp [bodyUnits, any_writes_refUnits, RefUnit.of, Stmt.writeRefs, variablesOf_append]
  | _ => exact any_writes_refUnits false _

theorem mayReadUnseen_expr {behind : Bool} {e : Expr}
    (h : (behind || decide (x ∉ variablesOf (e.readRefs .value))) = true) :
    e.mayReadUnseen x behind = readFirst (e.valuePaths x) := by
  simp only [Expr.mayReadUnseen, h, Bool.and_true]

/-- Without a collected read before the first write, the reads which the check does not look at
are all there are. -/
theorem mayReadUnseen_eq {behind conditional : Bool} {s : Stmt}
    (h : readsBehind x behind (s.refUnits conditional) = true) :
    s.mayReadUnseen x behind = s.mayReadFirst x := by
  induction s generalizing behind conditional with
  | empty | breakStmt | continueStmt => rfl
  | expr e => exact mayReadUnseen_expr (by simpa [Stmt.refUnits, RefUnit.of, readsBehind] using h)
  | decl v init =>
    cases init with
    | none => rfl
    | some e => exact mayReadUnseen_expr (by simpa [Stmt.refUnits, RefUnit.of, readsBehind] using h)
  | returnStmt e =>
    cases e with
    | none => rfl
    | some e => exact mayReadUnseen_expr (by simpa [Stmt.refUnits, RefUnit.of, readsBehind] using h)
  | seq a b iha ihb =>
    simp only [Stmt.refUnits, readsBehind_append, any_writes_refUnits, Bool.and_eq_true] at h
    simp only [Stmt.mayReadUnseen, Stmt.mayReadFirst, iha h.1, ihb h.2]
  | ite c a b iha ihb =>
    simp only [Stmt.refUnits, RefUnit.of, readsBehind, readsBehind_append, any_writes_refUnits,
      Bool.and_eq_true] at h
    simp only [Stmt.mayReadUnseen, Stmt.mayReadFirst, mayReadUnseen_expr h.1, iha h.2.1, ihb h.2.2]
  | whileLoop c b ih =>
    simp only [Stmt.refUnits, RefUnit.of, readsBehind, Bool.and_eq_true] at h
    simp only [Stmt.mayReadUnseen, Stmt.mayReadFirst, mayReadUnseen_expr h.1, ih h.2]
  | forLoop i c u b ihi ihb =>
    simp only [Stmt.refUnits, RefUnit.of, readsBehind, readsBehind_append, any_writes_refUnits,
      Bool.and_eq_true] at h
    simp only [Stmt.mayReadUnseen, Stmt.mayReadFirst, mayReadUnseen_expr h.1, ihi h.2.1, mayReadUnseen_expr h.2.2.1,
      ihb h.2.2.2]

/-- What the check of one variable establishes: no collected read at or before the first write. -/
theorem readsBehind_of_carriesValue {us : List RefUnit} (hwrite : ∃ u ∈ us, x ∈ u.writes)
    (h : carriesValue x us = false) : readsBehind x false us = true := by
  induction us with
  | nil => rfl
  | cons u us ih =>
    by_cases hu : x ∈ u.writes
    · have hread : x ∉ u.reads := by
        intro hread
        simp [carriesValue, hu, hread] at h
      simp [readsBehind, hu, hread, readsBehind_true]
    · have hrest : ∃ w ∈ us, x ∈ w.writes := by simpa [hu] using hwrite
      have hhead : x ∉ u.reads ∧ carriesValue x us = false := by
        have hu' : (!u.writes.contains x) = true := by simpa using hu
        obtain ⟨w, hw, hx⟩ := hrest
        have hne : us.dropWhile (fun w => !w.writes.contains x) ≠ [] := by
          intro hnil
          simpa [hx] using List.dropWhile_eq_nil_iff.mp hnil w hw
        obtain ⟨first, rest, hd⟩ := List.exists_cons_of_ne_nil hne
        simp only [carriesValue, List.takeWhile_cons, List.dropWhile_cons, hu', if_true, hd,
          List.any_cons, Bool.or_eq_false_iff] at h ⊢
        exact ⟨by simpa using h.1.1.2.1, ⟨⟨h.1.1.1, h.1.1.2.2⟩, h.1.2⟩, h.2⟩
      simpa [readsBehind, hu, hhead.1] using ih hrest hhead.2

theorem mayReadUnseen_body {s : Stmt} (h : readsBehind x false (bodyUnits s) = true) :
    s.mayReadUnseen x false = s.mayReadFirst x := by
  cases s with
  | ite c a b =>
    simp only [bodyUnits, RefUnit.of, readsBehind, readsBehind_append, any_writes_refUnits,
      Bool.and_eq_true] at h
    simp only [Stmt.mayReadUnseen, Stmt.mayReadFirst, mayReadUnseen_expr h.1,
      mayReadUnseen_eq h.2.1, mayReadUnseen_eq h.2.2]
  | _ => exact mayReadUnseen_eq (show readsBehind x false (Stmt.refUnits false _) = true from h)

/-- In a loop that passes the check, no read of a scanned scalar stands before its write. -/
theorem mayReadUnseen_of_accepted {loop : ForStatement} {pragmas : PragmaSummary}
    (h : hasScalarLoopCarriedDependence loop pragmas = false) (hx : OuterScalar loop x) :
    loop.body.mayReadUnseen x (!scanned loop x) = loop.body.mayReadFirst x := by
  by_cases hscan : scanned loop x = true
  · have hcarries : carriesValue x (bodyUnits loop.body) = false := by
      simp only [hasScalarLoopCarriedDependence, Bool.or_eq_false_iff, List.any_eq_false] at h
      simp only [scanned, Bool.and_eq_true] at hscan
      refine Bool.eq_false_iff.mpr (h.2 x ?_)
      have hplain := hx.plain
      have hbody := hx.outside.2
      simp_all [List.mem_filter, isDeclaredInsideLoopBody, hx.scalar]
    have hwrite : ∃ u ∈ bodyUnits loop.body, x ∈ u.writes := by
      have hany := any_writes_bodyUnits (x := x) loop.body
      simp only [scanned, Bool.and_eq_true] at hscan
      rw [hscan.1.1] at hany
      simpa using hany
    simp only [hscan, Bool.not_true]
    exact mayReadUnseen_body (readsBehind_of_carriesValue hwrite hcarries)
  · rw [Bool.not_eq_true] at hscan
    simp only [hscan, Bool.not_false]
    exact mayReadUnseen_eq (readsBehind_true (loop.body.refUnits true))

end

def noPragmas : PragmaSummary := ⟨false, false, false, false, false⟩

def outerT : Var := ⟨1, "t", .integer 32 true, .automatic⟩

/-- `for (i = 0; i < n; i++) body`. -/
def overI (body : Stmt) : ForStatement :=
  ⟨.expr (.assign (.varRef ⟨0, "i", .integer 32 true, .automatic⟩) (.intVal .int 0)),
    .binary .lt (.varRef ⟨0, "i", .integer 32 true, .automatic⟩)
      (.varRef ⟨2, "n", .integer 32 true, .automatic⟩),
    .plusPlus (.varRef ⟨0, "i", .integer 32 true, .automatic⟩), body⟩

/-- `t = a[k];` -/
def loadT (k : Var) : Stmt :=
  .expr (.assign (.varRef outerT) (.arrRef (.varRef ⟨3, "a", .array, .automatic⟩) (.varRef k)))

/-- `b[i] = t;` -/
def storeT : Stmt :=
  .expr (.assign (.arrRef (.varRef ⟨4, "b", .array, .automatic⟩)
    (.varRef ⟨0, "i", .integer 32 true, .automatic⟩)) (.varRef outerT))

/-- `for (k = 0; k < n; k++) t = a[k];` -/
def innerLoad : Stmt :=
  let k : Var := ⟨5, "k", .integer 32 true, .automatic⟩
  .forLoop (.expr (.assign (.varRef k) (.intVal .int 0)))
    (.binary .lt (.varRef k) (.varRef ⟨2, "n", .integer 32 true, .automatic⟩))
    (.plusPlus (.varRef k)) (loadT k)

end LoomX
