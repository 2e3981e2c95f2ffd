import LoomX.ReductionForms

namespace LoomX

/-- What an assignment, `++` or `--` stores to. -/
def Expr.assignee : Expr → Option Expr
  | .assign l _ | .compound _ l _ | .plusPlus l | .minusMinus l => some l
  | _ => none

def State.put (s : State) : Loc → Int → State
  | .var v, n => s.setVar v n
  | .cell a, n => { s with mem := fun b => if b = a then n else s.mem b }

namespace Expr

variable (P : Platform)

/-- Where an l-value is stored. -/
def home (l : Expr) (s : State) : Loc := (l.locate P s).1

/-- The value of the object that the l-value names. -/
def before (l : Expr) (s : State) : Int := s.read P (l.home P s)

/-- Its value after the expression has been evaluated. -/
def after (l e : Expr) (s : State) : Int := (e.eval P s).2.read P (l.home P s)

/-- The state in which the object has another value. -/
def withValue (l : Expr) (s : State) (n : Int) : State := s.put (l.home P s) n

/-- Evaluating the l-value changes nothing and gives the value of the object, and the object is
named by the same address whatever its value is. -/
structure PlainObject (l : Expr) : Prop where
  locate : ∀ s, l.locate P s = (l.home P s, s)
  eval : ∀ s, l.eval P s = (l.before P s, s)
  home : ∀ s n, l.home P (l.withValue P s n) = l.home P s

/-- The expression neither reads nor changes the object or its address. -/
structure Ignores (l e : Expr) : Prop where
  eval : ∀ s n, e.eval P (l.withValue P s n) = ((e.eval P s).1, l.withValue P (e.eval P s).2 n)
  home : ∀ s, l.home P (e.eval P s).2 = l.home P s
  before : ∀ s, l.before P (e.eval P s).2 = l.before P s

/-- The object is one operand of a chain of operators of one class, never right of a `-`, whose
other operands ignore it. -/
inductive OnceIn (l : Expr) (rop : ReductionOp) : Expr → Prop
  | object : OnceIn l rop l
  | left {op : BinOp} {a r : Expr} (hop : op.foldsAs rop = true) (ha : OnceIn l rop a)
      (hr : Ignores P l r) : OnceIn l rop (.binary op a r)
  | right {op : BinOp} {r a : Expr} (hop : op.foldsAs rop = true) (hsub : op ≠ .sub)
      (hr : Ignores P l r) (ha : OnceIn l rop a) : OnceIn l rop (.binary op r a)

/-- An assignment, `++` or `--` whose right side has the object once, or not at all after `op=`. -/
def UpdatedOnceBy (l : Expr) : Expr → Prop
  | .assign _ r => r ≠ l ∧ ∃ rop, OnceIn P l rop r
  | .compound _ _ r => Ignores P l r
  | .plusPlus _ | .minusMinus _ => True
  | _ => False

end Expr

/-- What a statement `x = x op e` combines into `x`; that of `-` is the negation. -/
def ReductionOp.contribution : ReductionOp → Int → Int
  | sub, n => -n
  | _, n => n

theorem ReductionOp.contribution_contribution (op : ReductionOp) (n : Int) :
    op.contribution (op.contribution n) = n := by
  cases op <;> simp [contribution]

/-- The statement combines into the object a value that does not depend on the object. -/
def ReducesBy (P : Platform) (l e : Expr) (op : ReductionOp) : Prop :=
  ∃ ρ : State → Int, (∀ s n, ρ (l.withValue P s n) = ρ s) ∧
    ∀ s, l.after P e s = op.combine (l.before P s) (op.contribution (ρ s))

/-- A folding operator combines its right operand, or the negation of it. -/
theorem exists_apply_of_foldsAs {op : BinOp} {rop : ReductionOp} (h : op.foldsAs rop = true) :
    ∃ f : Int → Int, ∀ m n, op.apply m n = rop.combine m (f n) := by
  rcases foldsAs_apply h with happly | ⟨-, happly⟩
  · exact ⟨id, happly⟩
  · exact ⟨fun n => -n, happly⟩

section
variable {P : Platform} {l e : Expr} {op : ReductionOp}

/-- A value is combined into the object; what the evaluation does otherwise leaves it alone. -/
structure CombinesInto (P : Platform) (l : Expr) (rop : ReductionOp) (e : Expr)
    (ρ : State → Int) : Prop where
  free : ∀ s n, ρ (l.withValue P s n) = ρ s
  value : ∀ s, (e.eval P s).1 = rop.combine (l.before P s) (ρ s)
  home : ∀ s, l.home P (e.eval P s).2 = l.home P s
  before : ∀ s, l.before P (e.eval P s).2 = l.before P s
  eval : ∀ s n, (e.eval P (l.withValue P s n)).2 = l.withValue P (e.eval P s).2 n

theorem combinesInto_object {a r : Expr} {bop : BinOp} {rop : ReductionOp} (hl : l.PlainObject P)
    (hop : bop.foldsAs rop = true) (hr : l.Ignores P r)
    (ha : a = l ∨ ∃ ρ, CombinesInto P l rop a ρ) : ∃ ρ, CombinesInto P l rop (.binary bop a r) ρ := by
  have hon := goesOn_of_foldsAs hop
  obtain ⟨f, hf⟩ := exists_apply_of_foldsAs hop
  rcases ha with rfl | ⟨ρ, hρ⟩
  · refine ⟨fun s => f (r.eval P s).1, fun s n => ?_, fun s => ?_, fun s => ?_, fun s => ?_,
      fun s n => ?_⟩
    · simp only [hr.eval]
    · simp only [Expr.eval, hl.eval, hon, if_true, hf]
    · simp only [Expr.eval, hl.eval, hon, if_true, hr.home]
    · simp only [Expr.eval, hl.eval, hon, if_true, hr.before]
    · simp only [Expr.eval, hl.eval, hon, if_true, hr.eval]
  · refine ⟨fun s => rop.combine (ρ s) (f (r.eval P (a.eval P s).2).1), fun s n => ?_, fun s => ?_,
      fun s => ?_, fun s => ?_, fun s n => ?_⟩
    · simp only [hρ.free, hρ.eval, hr.eval]
    · simp only [Expr.eval, hon, if_true, hρ.value, hf, rop.combine_assoc]
    · simp only [Expr.eval, hon, if_true, hr.home, hρ.home]
    · simp only [Expr.eval, hon, if_true, hr.before, hρ.before]
    · simp only [Expr.eval, hon, if_true, hρ.eval, hr.eval]

theorem combinesInto_right {a r : Expr} {bop : BinOp} {rop : ReductionOp} (hl : l.PlainObject P)
    (hop : bop.foldsAs rop = true) (hsub : bop ≠ .sub) (hr : l.Ignores P r)
    (ha : a = l ∨ ∃ ρ, CombinesInto P l rop a ρ) : ∃ ρ, CombinesInto P l rop (.binary bop r a) ρ := by
  have hon := goesOn_of_foldsAs hop
  have happly : ∀ m n, bop.apply m n = rop.combine n m := by
    intro m n
    rcases foldsAs_apply hop with h | ⟨h, -⟩
    · rw [h, rop.combine_comm]
    · exact absurd h hsub
  rcases ha with rfl | ⟨ρ, hρ⟩
  · refine ⟨fun s => (r.eval P s).1, fun s n => ?_, fun s => ?_, fun s => ?_, fun s => ?_,
      fun s n => ?_⟩
    · simp only [hr.eval]
    · simp only [Expr.eval, hon, if_true, hl.eval, happly, hr.before]
    · simp only [Expr.eval, hon, if_true, hl.eval, hr.home]
    · simp only [Expr.eval, hon, if_true, hl.eval, hr.before]
    · simp only [Expr.eval, hon, if_true, hl.eval, hr.eval]
  · refine ⟨fun s => rop.combine (ρ (r.eval P s).2) (r.eval P s).1, fun s n => ?_, fun s => ?_,
      fun s => ?_, fun s => ?_, fun s n => ?_⟩
    · simp only [hr.eval, hρ.free]
    · simp only [Expr.eval, hon, if_true, hρ.value, happly, hr.before, rop.combine_assoc]
    · simp only [Expr.eval, hon, if_true, hρ.home, hr.home]
    · simp only [Expr.eval, hon, if_true, hρ.before, hr.before]
    · simp only [Expr.eval, hon, if_true, hr.eval, hρ.eval]

/-- A chain of operators that has the object once combines the rest of it into the object. -/
theorem combinesInto_of_onceIn {r : Expr} {rop : ReductionOp} (hl : l.PlainObject P)
    (h : l.OnceIn P rop r) : r = l ∨ ∃ ρ, CombinesInto P l rop r ρ := by
  induction h with
  | object => exact Or.inl rfl
  | left hop _ hr ih => exact Or.inr (combinesInto_object hl hop hr ih)
  | right hop hsub hr _ ih => exact Or.inr (combinesInto_right hl hop hsub hr ih)

theorem foldsAs_of_onceIn {r : Expr} {rop : ReductionOp} (h : l.OnceIn P rop r) (hne : r ≠ l) :
    ∃ bop a b, r = .binary bop a b ∧ bop.foldsAs rop = true := by
  cases h with
  | object => exact absurd rfl hne
  | left hop => exact ⟨_, _, _, rfl, hop⟩
  | right hop => exact ⟨_, _, _, rfl, hop⟩

theorem locate_var_not_inMemory {l : Expr} {s : State} {v : Var} (h : (l.locate P s).1 = .var v) :
    v.type.inMemory = false := by
  induction l with
  | varRef w =>
    simp only [Expr.locate] at h
    split at h
    next => simp at h
    next hw =>
      cases h
      simpa using hw
  | cast t l ih => exact ih h
  | _ => simp [Expr.locate] at h

/-- What is written to an object is read from it. -/
theorem read_write (l : Expr) (s t : State) (n : Int) :
    (t.write l (l.home P s) n).read P (l.home P s) = n := by
  cases hhome : l.home P s with
  | var v =>
    have hmem : v.type.inMemory = false := locate_var_not_inMemory hhome
    simp [State.write, State.read, hmem]
  | cell a => simp [State.write, State.setCell, State.read]

theorem plainObject_varRef {x : Var} (hx : x.type.inMemory = false) :
    (Expr.varRef x).PlainObject P := by
  refine ⟨fun s => ?_, fun s => ?_, fun s n => ?_⟩
  · simp [Expr.home, Expr.locate, hx]
  · simp [Expr.eval, Expr.before, Expr.home, Expr.locate, hx]
  · simp [Expr.home, Expr.locate, hx]

/-- An expression without the variable ignores it. -/
theorem ignores_of_not_contains {x : Var} {r : Expr} (hP : Framed P x)
    (hx : x.type.inMemory = false) (h : (!r.containsVar x) = true) :
    (Expr.varRef x).Ignores P r := by
  have hhome : ∀ s, (Expr.varRef x).home P s = .var x := fun s => by
    simp [Expr.home, Expr.locate, hx]
  have hset : ∀ s n, (Expr.varRef x).withValue P s n = s.mapVar x fun _ => n := fun s n => by
    simp [Expr.withValue, hhome, State.put, State.mapVar]
  refine ⟨fun s n => ?_, fun s => by rw [hhome, hhome], fun s => ?_⟩
  · rw [hset, hset]
    exact (blind_of_containsVar hP _ h).eval s
  · have hself := (blind_of_containsVar hP (fun _ => s.vars x) h).eval s
    simp only [State.mapVar, State.setVar_vars_self] at hself
    simp only [Expr.before, hhome, State.read, hx, Bool.false_eq_true, if_false]
    rw [hself, State.setVar_self]

end

def productY : Var := ⟨4, "y", .integer 32 true, .automatic⟩

/-- `s = s + s * y`. -/
def productUpdate : Expr :=
  .assign (.varRef sumS) (.binary .add (.varRef sumS) (.binary .mul (.varRef sumS) (.varRef productY)))

end LoomX
