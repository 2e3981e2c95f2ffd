import LoomX.CallFilter
import LoomX.StoreTrace

namespace LoomX

/-- A function body with its parameters; a parameter of array type is a pointer. -/
structure Callee where
  params : List Var
  body : Stmt
  adjusted : ∀ p ∈ params, p.type ≠ .array

/-- The state in which the body starts: the arguments converted to the types of the
parameters. -/
def Callee.entry (P : Platform) (callee : Callee) (args : Expr) (s : State) : State :=
  (callee.params.zip (args.evalArgs P s).1).foldl
    (fun t p => t.setVar p.1 (p.1.type.convert p.2)) ((args.evalArgs P s).2.withLog [])

/-- The store may follow a pointer: it is not to a part of a variable that holds no pointer on the
way. -/
def ThroughPointer (e : Expr) : Prop := ¬∃ v, e.places false = [(some v, false)]

/-- The call made in `s` makes this store. -/
def Stored (P : Platform) (callee : Callee) (args : Expr) (s : State) (e : Expr) (a : Int) :
    Prop :=
  ∃ fuel o t, callee.body.exec P fuel (callee.entry P args s) = some (o, t) ∧ (e, a) ∈ t.log

/-- The call made in `s` stores cell `a` through a pointer. -/
def WritesElement (P : Platform) (callee : Callee) (args : Expr) (s : State) (a : Int) : Prop :=
  ∃ e, ThroughPointer e ∧ Stored P callee args s e a

/-- Calls in iterations with different values of `v` store different cells. -/
def WritesDisjoint (P : Platform) (callee : Callee) (args : Expr) (v : Var)
    (calls : State → Prop) : Prop :=
  ∀ s₁ s₂, calls s₁ → calls s₂ → s₁.vars v ≠ s₂.vars v →
    ∀ a, ¬(WritesElement P callee args s₁ a ∧ WritesElement P callee args s₂ a)

namespace Expr

def skipPointerCasts : Expr → Expr
  | cast .pointer e => e.skipPointerCasts
  | e => e

/-- A pointer variable, possibly cast to pointers to something else. -/
def pointerVar (e : Expr) : Option Var :=
  match e.skipPointerCasts with
  | varRef p => if p.type = .pointer then some p else none
  | _ => none

/-- Built from literals and scalar variables by casts and arithmetic. -/
def arithmetic : Expr → Bool
  | intVal _ _ => true
  | varRef v => !v.type.inMemory
  | cast _ e | unary .minus e => e.arithmetic
  | binary .add a b | binary .sub a b | binary .mul a b => a.arithmetic && b.arithmetic
  | _ => false

end Expr

/-- The pointer and the index of `p[i]`, `*(p + i)` and `*(i + p)`. -/
def elementOf : Expr → Option (Var × Expr)
  | .arrRef b i => b.pointerVar.map (·, i)
  | .deref e =>
    match e.skipPointerCasts with
    | .binary .add a b => (a.pointerVar.map (·, b)).or (b.pointerVar.map (·, a))
    | _ => none
  | _ => none

/-- A parameter that the body never assigns. -/
def Callee.Fixed (callee : Callee) (w : Var) : Prop :=
  w ∈ callee.params ∧ w ∉ callee.body.declared ∧
    ∀ l ∈ callee.body.stores, l.skipCasts ≠ .varRef w

/-- The store is among the collected ones, with this variable for its index. -/
def Callee.Indexed (callee : Callee) (e : Expr) (p w : Var) : Prop :=
  ∃ below index, (e, below) ∈ callee.body.writeRefsBelow ∧
    writtenThrough e below = some (p, true, some index) ∧ index.skipCasts = .varRef w

/-- Every store through a pointer is a collected one at `p[i]` for fixed parameters, and its index
is the index variable plus the offset of the store. A parameter that the loop variable is passed
for has the value of that variable. -/
structure DisplacedStores (P : Platform) (callee : Callee) (args : Expr) (v : Var)
    (calls : State → Prop) (offset : Expr → Int) : Prop where
  framed : ∀ w ∈ callee.params, Framed P w
  plain : ∀ e ∈ callee.body.stores, ThroughPointer e →
    ∃ p i w, elementOf e = some (p, i) ∧ i.arithmetic = true ∧ callee.Fixed p ∧
      (∀ w ∈ i.varRefs, callee.Fixed w) ∧ callee.Indexed e p w ∧
      ∀ s, calls s → (i.eval P (callee.entry P args s)).1 =
        (callee.entry P args s).vars w + offset e
  passed : ∀ (k : Nat) w arg, callee.params[k]? = some w → args.exprList[k]? = some arg →
    getArgumentVariable arg = some v → ∀ s, calls s → (callee.entry P args s).vars w = s.vars v

/-- No two stores that are made, displaced by their offsets, are apart by the difference of the
two iterations. -/
def Apart (P : Platform) (callee : Callee) (args : Expr) (v : Var) (calls : State → Prop)
    (offset : Expr → Int) : Prop :=
  ∀ e₁ ∈ callee.body.stores, ∀ e₂ ∈ callee.body.stores, ∀ p₁ p₂ i₁ i₂,
    ThroughPointer e₁ → ThroughPointer e₂ → elementOf e₁ = some (p₁, i₁) →
      elementOf e₂ = some (p₂, i₂) →
      ∀ s₁ s₂, calls s₁ → calls s₂ → s₁.vars v ≠ s₂.vars v →
        (∃ a, Stored P callee args s₁ e₁ a) → (∃ a, Stored P callee args s₂ e₂ a) →
          (callee.entry P args s₁).vars p₁ + offset e₁ -
            ((callee.entry P args s₂).vars p₂ + offset e₂) ≠ s₂.vars v - s₁.vars v

theorem eval_arithmetic {P : Platform} {e : Expr} (h : e.arithmetic = true) (s : State) :
    (e.eval P s).2 = s ∧ ∀ t : State, (∀ w ∈ e.varRefs, t.vars w = s.vars w) →
      (e.eval P t).1 = (e.eval P s).1 := by
  induction e generalizing s with
  | intVal => exact ⟨rfl, fun t _ => rfl⟩
  | varRef v =>
    have hmem : v.type.inMemory = false := by simpa [Expr.arithmetic] using h
    refine ⟨rfl, fun t ht => ?_⟩
    simpa [Expr.eval, State.read, hmem] using ht v (by simp [Expr.varRefs])
  | cast t e ih =>
    obtain ⟨hstate, hvalue⟩ := ih h s
    refine ⟨hstate, fun u hu => ?_⟩
    simp only [Expr.eval, hvalue u hu]
  | unary op e ih =>
    cases op with
    | minus =>
      obtain ⟨hstate, hvalue⟩ := ih h s
      refine ⟨hstate, fun u hu => ?_⟩
      simp only [Expr.eval, hvalue u hu]
    | lnot | bnot => simp [Expr.arithmetic] at h
  | binary op a b iha ihb =>
    cases op with
    | add | sub | mul =>
      simp only [Expr.arithmetic, Bool.and_eq_true] at h
      obtain ⟨hstate, hvalue⟩ := iha h.1 s
      obtain ⟨hstate', hvalue'⟩ := ihb h.2 s
      refine ⟨?_, fun u hu => ?_⟩
      · simp only [Expr.eval, BinOp.goesOn, if_true, hstate, hstate']
      · have ha := hvalue u fun w hw => hu w (List.mem_append_left _ hw)
        have hb := hvalue' u fun w hw => hu w (List.mem_append_right _ hw)
        simp only [Expr.eval, BinOp.goesOn, if_true, (iha h.1 u).1, hstate, ha, hb]
    | _ => simp [Expr.arithmetic] at h
  | _ => simp [Expr.arithmetic] at h

theorem eval_skipPointerCasts (P : Platform) (e : Expr) (s : State) :
    e.eval P s = e.skipPointerCasts.eval P s := by
  induction e with
  | cast t e ih =>
    cases t with
    | pointer => exact (Prod.ext rfl rfl : (Expr.cast .pointer e).eval P s = e.eval P s).trans ih
    | _ => rfl
  | _ => rfl

theorem eval_pointerVar {P : Platform} {e : Expr} {p : Var} (h : e.pointerVar = some p)
    (s : State) : e.eval P s = (s.vars p, s) := by
  unfold Expr.pointerVar at h
  split at h
  next q hq =>
    obtain ⟨htype, h⟩ := Option.ite_none_right_eq_some.mp h
    obtain rfl := Option.some.inj h
    rw [eval_skipPointerCasts, hq]
    simp [Expr.eval, State.read, htype, CType.inMemory]
  next => simp at h

/-- The cell of an element is the pointer plus the index. -/
theorem locate_element {P : Platform} {e i : Expr} {p : Var} (he : elementOf e = some (p, i))
    (hi : i.arithmetic = true) (s : State) :
    (e.locate P s).1 = .cell (s.vars p + (i.eval P s).1) := by
  unfold elementOf at he
  split at he
  next b j =>
    obtain ⟨q, hq, heq⟩ := Option.map_eq_some_iff.mp he
    cases heq
    simp only [Expr.locate, eval_pointerVar hq]
  next e' =>
    split at he
    next a b hsum =>
      have hlocate : (Expr.deref e').locate P s =
          (.cell (e'.eval P s).1, (e'.eval P s).2) := rfl
      rw [hlocate, eval_skipPointerCasts, hsum]
      rcases Option.or_eq_some_iff.mp he with he | ⟨-, he⟩
      · obtain ⟨q, hq, heq⟩ := Option.map_eq_some_iff.mp he
        cases heq
        simp only [Expr.eval, eval_pointerVar hq, BinOp.goesOn, if_true, BinOp.apply]
      · obtain ⟨q, hq, heq⟩ := Option.map_eq_some_iff.mp he
        cases heq
        simp only [Expr.eval, (eval_arithmetic hi s).1, eval_pointerVar hq, BinOp.goesOn, if_true,
          BinOp.apply, Int.add_comm]
    next => simp at he
  next => simp at he

section
variable {P : Platform} {callee : Callee} {args : Expr} {v : Var} {calls : State → Prop}
  {offset : Expr → Int} {name : String}

theorem type_of_element {e i : Expr} {p : Var} (he : elementOf e = some (p, i)) :
    p.type = .pointer := by
  have hvar : ∀ {b : Expr} {q : Var}, b.pointerVar = some q → q.type = .pointer := by
    intro b q hq
    unfold Expr.pointerVar at hq
    split at hq
    next =>
      obtain ⟨htype, hq⟩ := Option.ite_none_right_eq_some.mp hq
      cases hq
      exact htype
    next => simp at hq
  unfold elementOf at he
  split at he
  next =>
    obtain ⟨q, hq, heq⟩ := Option.map_eq_some_iff.mp he
    cases heq
    exact hvar hq
  next =>
    split at he
    next =>
      rcases Option.or_eq_some_iff.mp he with he | ⟨-, he⟩
      · obtain ⟨q, hq, heq⟩ := Option.map_eq_some_iff.mp he
        cases heq
        exact hvar hq
      · obtain ⟨q, hq, heq⟩ := Option.map_eq_some_iff.mp he
        cases heq
        exact hvar hq
    next => simp at he
  next => simp at he

theorem entry_log (P : Platform) (callee : Callee) (args : Expr) (s : State) :
    (callee.entry P args s).log = [] := by
  have hfold : ∀ (l : List (Var × Int)) (t : State),
      (l.foldl (fun t p => t.setVar p.1 (p.1.type.convert p.2)) t).log = t.log := by
    intro l
    induction l with
    | nil => exact fun t => rfl
    | cons p l ih => exact fun t => ih _
  exact hfold _ _

/-- The loop variable is passed for the index of every collected store: the pattern of the store
is among those that the call was accepted for. -/
theorem passed_of_indexed (haccept : pointerWritesAreLoopDisjoint
      (localSummary ⟨name, callee.params, some callee.body⟩) args v = true) {e : Expr} {p w : Var}
    (hpointer : p.type.isPointerOrArray = true) (hp : p ∈ callee.params)
    (h : callee.Indexed e p w) : ∃ (k : Nat) (arg : Expr), callee.params[k]? = some w ∧
      args.exprList[k]? = some arg ∧ getArgumentVariable arg = some v := by
  obtain ⟨below, index, hmem, hthrough, hindex⟩ := h
  obtain ⟨n, hn⟩ : ∃ n, paramIndex callee.params p = some n :=
    Option.isSome_iff_exists.mp (List.isSome_idxOf?.mpr hp)
  have hpattern : (⟨n, indexParam callee.params (some index)⟩ : PointerWritePattern) ∈
      pointerWritePatterns callee.params callee.body := by
    refine List.mem_filterMap.mpr ⟨_, hmem, ?_⟩
    simp only [patternOf, hthrough, hpointer, if_true, hn, Option.map_some]
  have hpatterns : (localSummary ⟨name, callee.params, some callee.body⟩).pointerWritePatterns =
      pointerWritePatterns callee.params callee.body := by
    -- a library function has no patterns, and is not accepted
    unfold localSummary at haccept ⊢
    split at haccept
    next => simp [pointerWritesAreLoopDisjoint] at haccept
    next =>
      split at haccept
      next => simp [pointerWritesAreLoopDisjoint] at haccept
      next h₁ h₂ => rw [if_neg h₁, if_neg h₂]
  simp only [pointerWritesAreLoopDisjoint, hpatterns, Bool.and_eq_true, List.all_eq_true]
    at haccept
  have hthis := haccept.2 _ hpattern
  simp only [indexParam, hindex] at hthis
  split at hthis
  next => simp at hthis
  next k hk =>
    split at hthis
    next => simp at hthis
    next arg harg =>
      obtain ⟨-, hk⟩ := Option.ite_none_left_eq_some.mp hk
      exact ⟨k, arg, mem_of_paramIndex hk, harg, beq_iff_eq.mp hthis⟩

/-- The cell of a store: the pointer argument, the loop variable and the offset. -/
theorem stored_cell (haccept : pointerWritesAreLoopDisjoint
      (localSummary ⟨name, callee.params, some callee.body⟩) args v = true)
    (h : DisplacedStores P callee args v calls offset) {s : State} (hs : calls s) {e : Expr}
    {a : Int} (he : ThroughPointer e) (hstored : Stored P callee args s e a) :
    e ∈ callee.body.stores ∧ ∃ p i, elementOf e = some (p, i) ∧
      a = (callee.entry P args s).vars p + (s.vars v + offset e) := by
  obtain ⟨fuel, o, t, hrun, hlog⟩ := hstored
  have hsteady : Steady P callee.Fixed callee.body.stores :=
    ⟨fun w hw => h.framed w hw.1, fun w hw l hl => hw.2.2 l hl⟩
  have htraced := traced_exec hsteady (fun w hw => hw.2.1) hrun
  rcases htraced.logged e a hlog with hold | ⟨hmem, u, hu, hlocate⟩
  · rw [entry_log] at hold
    simp at hold
  · obtain ⟨p, i, w, helement, hi, hfix, hfixes, hindexed, hvalue⟩ := h.plain e hmem he
    have hpointer : p.type.isPointerOrArray = true := by rw [type_of_element helement]; rfl
    obtain ⟨k, arg, hk, harg, hv⟩ := passed_of_indexed haccept hpointer hfix.1 hindexed
    rw [locate_element helement hi, Loc.cell.injEq] at hlocate
    refine ⟨hmem, p, i, helement, ?_⟩
    rw [← hlocate, hu p hfix, (eval_arithmetic hi _).2 u fun w hw => hu w (hfixes w hw),
      hvalue s hs, h.passed k w arg hk harg hv s hs]

end

def callerA : Var := ⟨10, "a", .pointer, .automatic⟩

def callerI : Var := ⟨11, "i", .integer 32 true, .automatic⟩

/-- The function `void store(double *p, int i) \x7b p[i] = 0; p[i + shift] = 0; \x7d`. -/
def storeTwice (shift : Int) : Callee :=
  ⟨[paramP, paramI],
    .seq (.expr (.assign (.arrRef (.varRef paramP) (.varRef paramI)) (.intVal .int 0)))
      (.seq (.expr (.assign (.arrRef (.varRef paramP)
        (.binary .add (.varRef paramI) (.intVal .int shift))) (.intVal .int 0))) .empty),
    by decide⟩

/-- The arguments of `store(a, i)`. -/
def storeArgs : Expr := .exprCons (.varRef callerA) (.exprCons (.varRef callerI) .exprNil)

def storePlatform : Platform :=
  ⟨fun _ => 0, fun _ => 0, fun _ => false, fun _ _ s => (0, s)⟩

/-- The caller in iteration `n`, with `a` at address `0`. -/
def callerState (n : Int) : State := ⟨fun v => if v = callerI then n else 0, fun _ => 0, []⟩

theorem throughPointer_element {p : Var} (hp : p.type = .pointer) (i : Expr) :
    ThroughPointer (.arrRef (.varRef p) i) := by
  rintro ⟨v, hv⟩
  simp [Expr.places, hp] at hv

/-- Calls with the same pointer and an index in range. -/
def steadyCalls (s : State) : Prop :=
  s.vars callerA = 0 ∧ 0 ≤ s.vars callerI ∧ s.vars callerI < 100

theorem storeTwice_displaced :
    DisplacedStores storePlatform (storeTwice 0) storeArgs callerI steadyCalls (fun _ => 0) := by
  have hfixed : ∀ w ∈ [paramP, paramI], (storeTwice 0).Fixed w := by
    intro w hw
    rcases List.mem_pair.mp hw with rfl | rfl
    · exact ⟨by decide, by decide, by decide⟩
    · exact ⟨by decide, by decide, by decide⟩
  have hindex : ∀ s, steadyCalls s →
      ((storeTwice 0).entry storePlatform storeArgs s).vars paramI = s.vars callerI := by
    intro s hs
    obtain ⟨_, hlow, hhigh⟩ := hs
    show (s.vars callerI + 2 ^ 31) % 2 ^ 32 - 2 ^ 31 = s.vars callerI
    omega
  refine ⟨fun w _ _ _ _ _ => rfl, fun e he _ => ?_, fun k w arg hk harg hv s hs => ?_⟩
  · rcases List.mem_pair.mp he with rfl | rfl
    · refine ⟨paramP, _, paramI, rfl, rfl, hfixed _ (by simp), ?_,
        ⟨false, _, by decide, rfl, rfl⟩, fun s _ => ?_⟩
      · intro w hw
        cases List.mem_singleton.mp hw
        exact hfixed _ (by simp)
      · simp [Expr.eval, State.read, paramI, CType.inMemory]
    · refine ⟨paramP, _, paramI, rfl, rfl, hfixed _ (by simp), ?_,
        ⟨false, _, by decide, rfl, rfl⟩, fun s _ => ?_⟩
      · intro w hw
        cases List.mem_singleton.mp hw
        exact hfixed _ (by simp)
      · simp [Expr.eval, State.read, paramI, CType.inMemory, BinOp.goesOn, BinOp.apply]
  · rcases k with _ | _ | k
    · cases harg
      exact absurd hv (by decide)
    · cases hk
      exact hindex s hs
    · simp [storeArgs, Expr.exprList] at harg

end LoomX
