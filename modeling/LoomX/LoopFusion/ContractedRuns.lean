import LoomX.LoopFusion.Contraction

namespace LoomX.LoopFusion

open ReductionHelper

section
variable {S : Type}

/-- A loop, at most `fuel` rounds of it. -/
def runRounds (test : S → Bool × S) (body : S → Option (Outcome × S)) (step : S → S) :
    Nat → S → Option (Outcome × S)
  | 0, _ => none
  | fuel + 1, s =>
    if (test s).1 = true then
      match body (test s).2 with
      | none => none
      | some (.broken, t) => some (.normal, t)
      | some (.returned, t) => some (.returned, t)
      | some (.normal, t) | some (.continued, t) => runRounds test body step fuel (step t)
    else some (.normal, (test s).2)

/-- In every round that is run, the states have the properties. -/
def RoundsHold (testOk bodyOk stepOk : S → Prop) (test : S → Bool × S)
    (body : S → Option (Outcome × S)) (step : S → S) : Nat → S → Prop
  | 0, _ => True
  | fuel + 1, s => testOk s ∧ ((test s).1 = true → bodyOk (test s).2 ∧
      match body (test s).2 with
      | some (.normal, t) | some (.continued, t) =>
        stepOk t ∧ RoundsHold testOk bodyOk stepOk test body step fuel (step t)
      | _ => True)

def AfterNormal (ok : S → Prop) : Option (Outcome × S) → Prop
  | some (.normal, s) => ok s
  | _ => True

def thenNormal (next : S → Option (Outcome × S)) :
    Option (Outcome × S) → Option (Outcome × S)
  | some (.normal, s) => next s
  | result => result

theorem thenNormal_congr {ok : S → Prop} {next next' : S → Option (Outcome × S)}
    {r : Option (Outcome × S)} (hok : AfterNormal ok r) (h : ∀ s, ok s → next' s = next s) :
    thenNormal next' r = thenNormal next r := by
  cases r with
  | none => rfl
  | some r =>
    obtain ⟨o, s⟩ := r
    cases o with
    | normal => exact h s hok
    | broken => rfl
    | continued => rfl
    | returned => rfl

/-- Loops whose parts do the same in all states of a run do the same. -/
theorem runRounds_congr {testOk bodyOk stepOk : S → Prop} {test test' : S → Bool × S}
    {body body' : S → Option (Outcome × S)} {step step' : S → S}
    (htest : ∀ s, testOk s → test' s = test s) (hbody : ∀ s, bodyOk s → body' s = body s)
    (hstep : ∀ s, stepOk s → step' s = step s) {fuel : Nat} {s : S}
    (h : RoundsHold testOk bodyOk stepOk test body step fuel s) :
    runRounds test' body' step' fuel s = runRounds test body step fuel s := by
  induction fuel generalizing s with
  | zero => rfl
  | succ fuel ih =>
    rw [runRounds, runRounds, htest s h.1]
    split
    next hgo =>
      obtain ⟨hok, hrest⟩ := h.2 hgo
      rw [hbody _ hok]
      revert hrest
      cases body (test s).2 with
      | none => exact fun _ => rfl
      | some r =>
        obtain ⟨o, t⟩ := r
        cases o with
        | broken => exact fun _ => rfl
        | returned => exact fun _ => rfl
        | normal | continued =>
          intro hrest
          show runRounds test' body' step' fuel (step' t) = runRounds test body step fuel (step t)
          rw [hstep t hrest.1]
          exact ih hrest.2
    next => rfl

theorem RoundsHold.mono {testOk bodyOk stepOk testOk' bodyOk' stepOk' : S → Prop}
    {test : S → Bool × S} {body : S → Option (Outcome × S)} {step : S → S}
    (htest : ∀ s, testOk s → testOk' s) (hbody : ∀ s, bodyOk s → bodyOk' s)
    (hstep : ∀ s, stepOk s → stepOk' s) {fuel : Nat} {s : S}
    (h : RoundsHold testOk bodyOk stepOk test body step fuel s) :
    RoundsHold testOk' bodyOk' stepOk' test body step fuel s := by
  induction fuel generalizing s with
  | zero => trivial
  | succ fuel ih =>
    refine ⟨htest s h.1, fun hgo => ?_⟩
    obtain ⟨hok, hrest⟩ := h.2 hgo
    refine ⟨hbody _ hok, ?_⟩
    revert hrest
    cases body (test s).2 with
    | none => exact fun _ => trivial
    | some r =>
      obtain ⟨o, t⟩ := r
      cases o with
      | broken | returned => exact fun _ => trivial
      | normal | continued => exact fun hrest => ⟨hstep t hrest.1, ih hrest.2⟩

end

variable {F : Type}

def testValue (P : ReductionHelper.Platform F) (c : Expr) (s : ReductionHelper.State F) : Bool × ReductionHelper.State F :=
  (((eval P c s).1.read (eval P c s).2).truthy P, (eval P c s).2)

/-- Runs a statement; `none` when some loop does not end within `fuel` rounds. -/
def exec (P : ReductionHelper.Platform F) (fuel : Nat) : Stmt → ReductionHelper.State F → Option (Outcome × ReductionHelper.State F)
  | .empty, s | .decl _ none, s => some (.normal, s)
  | .expr e, s => some (.normal, (eval P e s).2)
  | .decl v (some e), s =>
    some (.normal, initialise P v ((eval P e s).1.read (eval P e s).2) (eval P e s).2)
  | .seq a b, s => thenNormal (exec P fuel b) (exec P fuel a s)
  | .ite c a b, s =>
    if (testValue P c s).1 = true then exec P fuel a (testValue P c s).2
    else exec P fuel b (testValue P c s).2
  | .whileLoop c b, s => runRounds (testValue P c) (exec P fuel b) id fuel s
  | .forLoop i c x b, s =>
    thenNormal (runRounds (testValue P c) (exec P fuel b) (fun s => (eval P x s).2) fuel)
      (exec P fuel i s)
  | .breakStmt, s => some (.broken, s)
  | .continueStmt, s => some (.continued, s)
  | .returnStmt none, s => some (.returned, s)
  | .returnStmt (some e), s => some (.returned, (eval P e s).2)

/-- Both expressions have the same value, with its type, and leave the same state. -/
structure SameValue (P : ReductionHelper.Platform F) (e x : Expr) (s : ReductionHelper.State F) : Prop where
  state : (eval P e s).2 = (eval P x s).2
  value : (eval P e s).1.read (eval P e s).2 = (eval P x s).1.read (eval P x s).2

section
variable (P : ReductionHelper.Platform F) (arr iv : List Char) (e : Expr)

/-- Whenever the evaluation reads `arr[iv]`, the expression `e` has its value there, and
`arr[iv]` is not changed, its address is not taken and none of its members is used. -/
def ReadsWell : Expr → ReductionHelper.State F → Prop
  | .intVal _ _, _ | .varRef _, _ | .exprNil, _ => True
  | .arrRef b i, s =>
    if isArrayRead arr iv (.arrRef b i) = true then SameValue P e (.arrRef b i) s
    else ReadsWell b s ∧ ReadsWell i (eval P b s).2
  | .deref x, s | .cast _ x, s | .unary _ x, s => ReadsWell x s
  | .member x _, s | .addrOf x, s | .plusPlus x, s | .minusMinus x, s =>
    isArrayRead arr iv x = false ∧ ReadsWell x s
  | .binary op a b, s => ReadsWell a s ∧
    (((eval P a s).1.read (eval P a s).2).goesOn P op = true → ReadsWell b (eval P a s).2)
  | .cond c a b, s => ReadsWell c s ∧
    if (testValue P c s).1 = true then ReadsWell a (eval P c s).2
    else ReadsWell b (eval P c s).2
  | .assign a b, s | .compound _ a b, s =>
    isArrayRead arr iv a = false ∧ ReadsWell a s ∧ ReadsWell b (eval P a s).2
  | .call _ args, s => isArrayRead arr iv args = false ∧ ReadsWell args s
  | .exprCons x xs, s =>
    ReadsWell x s ∧ isArrayRead arr iv xs = false ∧ ReadsWell xs (eval P x s).2

/-- Along the run of a statement. -/
def RunReadsWell (fuel : Nat) : Stmt → ReductionHelper.State F → Prop
  | .empty, _ | .decl _ none, _ | .breakStmt, _ | .continueStmt, _ | .returnStmt none, _ => True
  | .expr x, s | .decl _ (some x), s | .returnStmt (some x), s => ReadsWell P arr iv e x s
  | .seq a b, s => RunReadsWell fuel a s ∧ AfterNormal (RunReadsWell fuel b) (exec P fuel a s)
  | .ite c a b, s => ReadsWell P arr iv e c s ∧
    if (testValue P c s).1 = true then RunReadsWell fuel a (testValue P c s).2
    else RunReadsWell fuel b (testValue P c s).2
  | .whileLoop c b, s =>
    RoundsHold (ReadsWell P arr iv e c) (RunReadsWell fuel b) (fun _ => True) (testValue P c)
      (exec P fuel b) id fuel s
  | .forLoop i c x b, s => RunReadsWell fuel i s ∧
    AfterNormal (RoundsHold (ReadsWell P arr iv e c) (RunReadsWell fuel b) (ReadsWell P arr iv e x)
      (testValue P c) (exec P fuel b) (fun s => (eval P x s).2) fuel) (exec P fuel i s)

/-- Copying an expression keeps its `++` and `--` before or after their operands. -/
def KeepsFixity : Prop :=
  ∀ x, P.isPrefixed (.plusPlus (contract arr iv e x)) = P.isPrefixed (.plusPlus x) ∧
    P.isPrefixed (.minusMinus (contract arr iv e x)) = P.isPrefixed (.minusMinus x)

end

section
variable {P : ReductionHelper.Platform F} {arr iv : List Char} {e : Expr}

theorem SameValue.read {x y : Expr} {s : ReductionHelper.State F} (h : SameValue P x y s) :
    (eval P x s).1.read (eval P y s).2 = (eval P y s).1.read (eval P y s).2 := by
  have hvalue := h.value
  rwa [h.state] at hvalue

/-- What the rewriting of an expression keeps. -/
structure Kept (P : ReductionHelper.Platform F) (arr iv : List Char) (e x : Expr) (s : ReductionHelper.State F) : Prop where
  same : SameValue P (contract arr iv e x) x s
  eval : isArrayRead arr iv x = false → eval P (contract arr iv e x) s = eval P x s

theorem kept_of_eval {x : Expr} {s : ReductionHelper.State F} (h : eval P (contract arr iv e x) s = eval P x s) :
    Kept P arr iv e x s := ⟨⟨by rw [h], by rw [h]⟩, fun _ => h⟩

theorem kept_of_readsWell (hfix : KeepsFixity P arr iv e) {x : Expr} {s : ReductionHelper.State F}
    (h : ReadsWell P arr iv e x s) : Kept P arr iv e x s := by
  induction x generalizing s with
  | intVal | varRef | exprNil => exact kept_of_eval rfl
  | arrRef b i ihb ihi =>
    by_cases hcase : isArrayRead arr iv (.arrRef b i) = true
    · rw [ReadsWell, if_pos hcase] at h
      refine ⟨?_, fun hno => absurd hcase (by simp [hno])⟩
      rw [contract, if_pos hcase]
      exact h
    · rw [ReadsWell, if_neg hcase] at h
      have hb := (ihb h.1).same
      have hi := (ihi h.2).same
      refine kept_of_eval ?_
      rw [contract, if_neg hcase]
      simp only [ReductionHelper.eval, hb.state, hb.read, hi.state, hi.read]
  | deref x ih =>
    have hx := (ih h).same
    refine kept_of_eval ?_
    simp only [contract, ReductionHelper.eval, hx.state, hx.read]
  | member x f ih =>
    have hx := (ih h.2).eval h.1
    refine kept_of_eval ?_
    simp only [contract, ReductionHelper.eval, hx]
  | addrOf x ih =>
    have hx := (ih h.2).eval h.1
    refine kept_of_eval ?_
    simp only [contract, ReductionHelper.eval, hx]
  | cast t x ih =>
    have hx := (ih h).same
    refine kept_of_eval ?_
    simp only [contract, ReductionHelper.eval, hx.state, hx.read]
  | unary op x ih =>
    have hx := (ih h).same
    refine kept_of_eval ?_
    simp only [contract, ReductionHelper.eval, hx.state, hx.read]
  | binary op a b iha ihb =>
    have ha := (iha h.1).same
    refine kept_of_eval ?_
    simp only [contract, ReductionHelper.eval, ha.state, ha.read]
    split
    next hgo =>
      have hb := (ihb (h.2 hgo)).same
      simp only [hb.state, hb.read]
    next => rfl
  | cond c a b ihc iha ihb =>
    have hc := (ihc h.1).same
    have hbranch := h.2
    refine kept_of_eval ?_
    simp only [contract, ReductionHelper.eval, hc.state, hc.read]
    split
    next htrue =>
      have htest : (testValue P c s).1 = true := htrue
      rw [if_pos htest] at hbranch
      have ha := (iha hbranch).same
      simp only [ha.state, ha.read]
    next hfalse =>
      have htest : ¬(testValue P c s).1 = true := hfalse
      rw [if_neg htest] at hbranch
      have hb := (ihb hbranch).same
      simp only [hb.state, hb.read]
  | assign a b iha ihb =>
    have ha := (iha h.2.1).eval h.1
    have hb := (ihb h.2.2).same
    refine kept_of_eval ?_
    simp only [contract, ReductionHelper.eval, ha, hb.state, hb.read]
  | compound op a b iha ihb =>
    have ha := (iha h.2.1).eval h.1
    have hb := (ihb h.2.2).same
    refine kept_of_eval ?_
    simp only [contract, ReductionHelper.eval, ha, hb.state, hb.read]
  | plusPlus x ih =>
    have hx := (ih h.2).eval h.1
    have hbefore := (hfix x).1
    refine kept_of_eval ?_
    simp only [contract, ReductionHelper.eval, ReductionHelper.eval.bump, hx, hbefore]
  | minusMinus x ih =>
    have hx := (ih h.2).eval h.1
    have hbefore := (hfix x).2
    refine kept_of_eval ?_
    simp only [contract, ReductionHelper.eval, ReductionHelper.eval.bump, hx, hbefore]
  | call callee args ih =>
    have hargs := (ih h.2).eval h.1
    refine kept_of_eval ?_
    simp only [contract, ReductionHelper.eval, hargs]
  | exprCons x xs ihx ihxs =>
    have hx := (ihx h.1).same
    have hxs := (ihxs h.2.2).eval h.2.1
    refine kept_of_eval ?_
    simp only [contract, ReductionHelper.eval, hx.state, hx.read, hxs]

theorem testValue_contract (hfix : KeepsFixity P arr iv e) {c : Expr} {s : ReductionHelper.State F}
    (h : ReadsWell P arr iv e c s) :
    testValue P (contract arr iv e c) s = testValue P c s := by
  have hc := (kept_of_readsWell hfix h).same
  rw [testValue, testValue, hc.state, hc.read]

/-- A run in which every read of `arr[iv]` has the value of `e` is the run of the rewritten
body. -/
theorem exec_contractStmt (hfix : KeepsFixity P arr iv e) {fuel : Nat} {a : Stmt} {s : ReductionHelper.State F}
    (h : RunReadsWell P arr iv e fuel a s) :
    exec P fuel (contractStmt arr iv e a) s = exec P fuel a s := by
  induction a generalizing s with
  | empty | breakStmt | continueStmt => rfl
  | expr x => simp only [contractStmt, exec, (kept_of_readsWell hfix h).same.state]
  | decl v init =>
    cases init with
    | none => rfl
    | some x =>
      have hx := (kept_of_readsWell hfix h).same
      simp only [contractStmt, Option.map_some, exec, hx.state, hx.read]
  | returnStmt x =>
    cases x with
    | none => rfl
    | some x =>
      simp only [contractStmt, Option.map_some, exec, (kept_of_readsWell hfix h).same.state]
  | seq a b iha ihb =>
    simp only [contractStmt, exec, iha h.1]
    exact thenNormal_congr h.2 fun s hs => ihb hs
  | ite c a b iha ihb =>
    have hbranch := h.2
    simp only [contractStmt, exec, testValue_contract hfix h.1]
    split
    next htrue =>
      rw [if_pos htrue] at hbranch
      exact iha hbranch
    next hfalse =>
      rw [if_neg hfalse] at hbranch
      exact ihb hbranch
  | whileLoop c b ih =>
    exact runRounds_congr (fun s hs => testValue_contract hfix hs) (fun s hs => ih hs)
      (fun s _ => rfl) h
  | forLoop i c x b ihi ihb =>
    simp only [contractStmt, exec, ihi h.1]
    refine thenNormal_congr h.2 fun s hs => ?_
    exact runRounds_congr (fun s hs => testValue_contract hfix hs) (fun s hs => ihb hs)
      (fun s hs => (kept_of_readsWell hfix hs).same.state) hs

end

/-- The loop of a fused pair: `for (...; test; step) body`. -/
structure FusedLoop where
  test : Expr
  step : Expr
  producer : Stmt
  consumer : Stmt

namespace FusedLoop

/-- The property holds of the states in which the body starts, in every round that is run. -/
def InEveryRound (P : ReductionHelper.Platform F) (fuel : Nat) (l : FusedLoop)
    (ok : ReductionHelper.State F → Prop) (s : ReductionHelper.State F) : Prop :=
  RoundsHold (fun _ => True) ok (fun _ => True) (testValue P l.test)
    (exec P fuel (.seq l.producer l.consumer)) (fun t => (eval P l.step t).2) fuel s

def run (P : ReductionHelper.Platform F) (fuel : Nat) (l : FusedLoop) :
    ReductionHelper.State F → Option (Outcome × ReductionHelper.State F) :=
  runRounds (testValue P l.test) (exec P fuel (.seq l.producer l.consumer))
    (fun t => (eval P l.step t).2) fuel

/-- Whenever the consumer reads `arr[iv]` in the run, `e` has the same value there. -/
def ReadsWell (P : ReductionHelper.Platform F) (fuel : Nat) (l : FusedLoop) (arr iv : List Char)
    (e : Expr) : ReductionHelper.State F → Prop :=
  l.InEveryRound P fuel fun t =>
    AfterNormal (RunReadsWell P arr iv e fuel l.consumer) (exec P fuel l.producer t)

def contracted (l : FusedLoop) (arr iv : List Char) (e : Expr) : FusedLoop :=
  { l with consumer := contractStmt arr iv e l.consumer }

/-- The bodies leave the same state in every round, and the loops do the same. -/
structure SameRuns (P : ReductionHelper.Platform F) (fuel : Nat) (l l' : FusedLoop)
    (s : ReductionHelper.State F) : Prop where
  rounds : l.InEveryRound P fuel (fun t => exec P fuel (.seq l'.producer l'.consumer) t =
    exec P fuel (.seq l.producer l.consumer) t) s
  run : l'.run P fuel s = l.run P fuel s

theorem sameRuns_contracted {P : ReductionHelper.Platform F} {fuel : Nat} {l : FusedLoop}
    {arr iv : List Char} {e : Expr} {s : ReductionHelper.State F} (hfix : KeepsFixity P arr iv e)
    (h : l.ReadsWell P fuel arr iv e s) : l.SameRuns P fuel (l.contracted arr iv e) s := by
  have hrounds : l.InEveryRound P fuel (fun t => exec P fuel
      (.seq l.producer (contractStmt arr iv e l.consumer)) t =
        exec P fuel (.seq l.producer l.consumer) t) s := by
    refine RoundsHold.mono (fun _ h => h) (fun t ht => ?_) (fun _ h => h) h
    exact thenNormal_congr ht fun t ht => exec_contractStmt hfix ht
  refine ⟨hrounds, ?_⟩
  exact runRounds_congr (fun _ _ => rfl) (fun _ h => h) (fun _ _ => rfl) hrounds

end FusedLoop

/-- The consumer is the text, in which `arr[iv]` is read but is the name of no member, and the
right side is the text of the expression. -/
structure ContractionTexts (arr iv consumer rhs : List Char) (c : Stmt) (e : Expr) : Prop where
  written : WrittenStmt arr iv true c consumer
  assigned : Written arr iv false .full e rhs
  members : ∀ w u, consumer = w ++ (arrayRead arr iv ++ u) → ¬AfterMember (arrayRead arr iv) w

theorem contractArray_eq {producer consumer arr iv new : List Char}
    (h : contractArray producer consumer arr iv = some new) :
    new = substituteArrayRead consumer arr iv (findLastIndexAssignmentRhs producer arr iv).1 := by
  unfold contractArray at h
  dsimp only at h
  split_ifs at h
  exact (Option.some.inj h).symm

namespace Fill

def arrayVar (id : Nat) (name : String) : Var := ⟨id, name, .array, .automatic⟩

def intVar (id : Nat) (name : String) : Var := ⟨id, name, .integer 32 true, .automatic⟩

def a : Var := arrayVar 1 "a"
def c : Var := arrayVar 2 "c"
def i : Var := intVar 3 "i"
def k : Var := intVar 4 "k"

def element (v : Var) : Expr := .arrRef (.varRef v) (.varRef i)

/-- No variable of scalar type is in memory, and there is no floating-point arithmetic. -/
def platform : ReductionHelper.Platform Unit where
  inMemory _ := false
  offset _ := 0
  isPrefixed _ := false
  ofInt _ := ()
  toInt _ := 0
  negate _ := ()
  arithmetic _ _ _ := ()
  compare _ _ _ := false
  call _ _ s := (.undefined, s)

def start : ReductionHelper.State Unit :=
  ⟨fun _ => .integer 32 true 0, fun _ => .integer 32 true 0⟩

/-- `for (...; i < 1; i++)`: `a[i]=value;` and the consumer. -/
def loop (value : Expr) (consumer : Stmt) : FusedLoop where
  test := .binary .lt (.varRef i) (.intVal .int 1)
  step := .plusPlus (.varRef i)
  producer := .expr (.assign (element a) value)
  consumer := consumer

/-- `c[i]=a[i];`. -/
def copy : Stmt := .expr (.assign (element c) (element a))

def one : Expr := .intVal .int 1

theorem isIdentifier_letter {x : Char} (h : isIdentChar x = true) (hdigit : x.isDigit = false) :
    IsIdentifier [x] := ⟨by simpa using hdigit, by simpa using h, List.cons_ne_nil x []⟩

theorem isIdentifier_name {v : Var} (hv : v = a ∨ v = c ∨ v = i) : IsIdentifier v.name.toList := by
  obtain rfl | rfl | rfl := hv
  · exact isIdentifier_letter (x := 'a') rfl rfl
  · exact isIdentifier_letter (x := 'c') rfl rfl
  · exact isIdentifier_letter (x := 'i') rfl rfl

theorem element_written {v : Var} (hv : v = a ∨ v = c) :
    Written ['a'] ['i'] true .primary (element v)
      ((v.name.toList ++ []) ++ ('[' :: ([] ++ ((i.name.toList ++ []) ++ (']' :: []))))) := by
  have hnil := isGap_nil ['a'] ['i']
  have hname := isIdentifier_name (hv.imp_right Or.inl)
  refine .arrRef (.varRef hname hnil)
    (.primary (.varRef (isIdentifier_name (Or.inr (Or.inr rfl))) hnil)) hnil hnil fun _ hread => ?_
  obtain rfl | rfl := hv
  · exact ⟨rfl, rfl, rfl⟩
  · exact absurd hread (by decide)

theorem copy_texts : ContractionTexts ['a'] ['i'] "c[i]=a[i];".toList ['1'] copy one := by
  have hnil := isGap_nil ['a'] ['i']
  have hone : Written ['a'] ['i'] false .primary (.intVal .int (decimalValue ['1']))
      ((['1'] ++ kindSuffix .int) ++ []) := .intVal (by decide) (by simp) hnil
  have hcopy : WrittenStmt ['a'] ['i'] true copy _ :=
    .expr (.between .assign (.primary (element_written (Or.inr rfl)))
      (.primary (element_written (Or.inl rfl))) hnil) hnil
  refine ⟨hcopy, .primary hone, fun w u hw hafter => ?_⟩
  obtain ⟨s, op, g, rfl, hop, -⟩ := hafter
  have hmem : ∀ x ∈ op, x ∈ "c[i]=a[i];".toList := fun x hx => by
    rw [hw]
    simp [hx]
  obtain rfl | rfl := hop
  · exact absurd (hmem '.' (by simp)) (by decide)
  · exact absurd (hmem '-' (by simp)) (by decide)

theorem copy_readsWell : (loop one copy).ReadsWell platform 2 ['a'] ['i'] one start := by
  refine ⟨trivial, fun _ => ⟨?_, ?_⟩⟩
  · exact And.intro rfl (And.intro (And.intro trivial trivial) ⟨rfl, rfl⟩)
  · exact And.intro trivial (And.intro trivial fun hgo => absurd hgo (by decide))

end Fill

end LoomX.LoopFusion
