import LoomX.PureFunctionInliner
import LoomX.ReductionHelper.Evaluation

namespace LoomX.ReductionHelper

variable {F : Type}

/-- The same memory, and the same registers apart from those of the hidden variables. -/
structure Agree (hidden : List Var) (s t : State F) : Prop where
  mem : s.mem = t.mem
  register : ∀ v, v ∉ hidden → s.register v = t.register v

/-- The locations that a hidden variable does not occupy. -/
def Loc.Visible (hidden : List Var) : Loc → Prop
  | .register v => v ∉ hidden
  | .cell _ => True

def Result.Visible (hidden : List Var) : Result F → Prop
  | .object l => l.Visible hidden
  | _ => True

namespace Agree

variable {hidden : List Var} {s t : State F}

theorem refl (s : State F) : Agree hidden s s := ⟨rfl, fun _ _ => rfl⟩

theorem symm (h : Agree hidden s t) : Agree hidden t s :=
  ⟨h.mem.symm, fun v hv => (h.register v hv).symm⟩

theorem trans {u : State F} (h : Agree hidden s t) (h' : Agree hidden t u) : Agree hidden s u :=
  ⟨h.mem.trans h'.mem, fun v hv => (h.register v hv).trans (h'.register v hv)⟩

theorem load (h : Agree hidden s t) {l : Loc} (hl : l.Visible hidden) : s.load l = t.load l := by
  cases l with
  | register v => exact h.register v hl
  | cell a => exact congrFun h.mem a

theorem read (h : Agree hidden s t) {r : Result F} (hr : r.Visible hidden) :
    r.read s = r.read t := by
  cases r with
  | object l => exact h.load hr
  | _ => rfl

theorem put (h : Agree hidden s t) (l : Loc) (x : Value F) :
    Agree hidden (s.put l x) (t.put l x) := by
  cases l with
  | register v =>
    refine ⟨h.mem, fun w hw => ?_⟩
    simp only [State.put, Function.update_apply, h.register w hw]
  | cell a => exact ⟨by simp only [State.put, h.mem], h.register⟩

/-- Different values show in a visible location. -/
theorem put_iff (h : Agree hidden s t) {l : Loc} (hl : l.Visible hidden) (x y : Value F) :
    Agree hidden (s.put l x) (t.put l y) ↔ x = y := by
  constructor
  · intro hput
    have hload := hput.load hl
    cases l <;> simpa [State.load, State.put] using hload
  · rintro rfl
    exact h.put l x

theorem put_hidden (h : Agree hidden s t) {v : Var} (hv : v ∈ hidden) (x : Value F) :
    Agree hidden (s.put (.register v) x) t := by
  refine ⟨h.mem, fun w hw => ?_⟩
  have hne : w ≠ v := fun hwv => hw (hwv ▸ hv)
  simpa only [State.put, Function.update_of_ne hne] using h.register w hw

theorem assign {P : Platform F} (h : Agree hidden s t) {r : Result F} (hr : r.Visible hidden)
    (v : Value F) : (assign P r v s).1 = (assign P r v t).1 ∧
      Agree hidden (assign P r v s).2 (assign P r v t).2 := by
  cases r with
  | object l =>
    simp only [ReductionHelper.assign, h.load hr]
    exact ⟨trivial, h.put l _⟩
  | _ => exact ⟨rfl, h⟩

end Agree

theorem visible_pointee (hidden : List Var) (v : Value F) : (Result.pointee v).Visible hidden := by
  cases v <;> trivial

/-- Called functions neither see nor depend on the hidden variables. -/
def Platform.Hides (P : Platform F) (hidden : List Var) : Prop :=
  ∀ f vs s t, Agree hidden s t → (P.call f vs s).1 = (P.call f vs t).1 ∧
    Agree hidden (P.call f vs s).2 (P.call f vs t).2

/-- Replacing references does not turn a prefix operator into a postfix one. -/
def Platform.KeepsFixity (P : Platform F) (g : Var → Expr) : Prop :=
  ∀ e : Expr, P.isPrefixed (e.replaceRefs g) = P.isPrefixed e

/-- The expression itself is not replaced. -/
def Kept (σ : Var → Option Expr) (e : Expr) : Prop := ∀ v, e = .varRef v → σ v = none

/-- Evaluated from `s`, every parameter that is read has the value and the type of its argument
at that point, reading the argument changes nothing, and no parameter is stored to or has its
address taken. -/
def Faithful (P : Platform F) (σ : Var → Option Expr) : Expr → State F → Prop
  | .intVal _ _, _ | .exprNil, _ => True
  | .varRef v, s => ∀ arg, σ v = some arg →
    (eval P arg s).2 = s ∧ (eval P arg s).1.read s = (eval P (.varRef v) s).1.read s
  | .deref e, s | .cast _ e, s | .unary _ e, s => Faithful P σ e s
  | .member e _, s | .addrOf e, s | .plusPlus e, s | .minusMinus e, s | .call _ e, s =>
    Kept σ e ∧ Faithful P σ e s
  | .arrRef a b, s => Faithful P σ a s ∧ Faithful P σ b (eval P a s).2
  | .exprCons a b, s => Faithful P σ a s ∧ Kept σ b ∧ Faithful P σ b (eval P a s).2
  | .assign l r, s | .compound _ l r, s =>
    Kept σ l ∧ Faithful P σ l s ∧ Faithful P σ r (eval P l s).2
  | .binary op a b, s => Faithful P σ a s ∧
    (((eval P a s).1.read (eval P a s).2).goesOn P op = true → Faithful P σ b (eval P a s).2)
  | .cond c a b, s => Faithful P σ c s ∧
    if ((eval P c s).1.read (eval P c s).2).truthy P = true then Faithful P σ a (eval P c s).2
    else Faithful P σ b (eval P c s).2

/-- Evaluated from `s`, the expression reads `v` first, and from then on it is faithful. -/
def ReadsFirst (P : Platform F) (σ : Var → Option Expr) (v : Var) : Expr → State F → Prop
  | .intVal _ _, _ | .exprNil, _ => False
  | .varRef w, _ => w = v
  | .deref e, s | .cast _ e, s | .unary _ e, s => ReadsFirst P σ v e s
  | .member e _, s | .addrOf e, s | .plusPlus e, s | .minusMinus e, s | .call _ e, s =>
    Kept σ e ∧ ReadsFirst P σ v e s
  | .arrRef a b, s => ReadsFirst P σ v a s ∧ Faithful P σ b (eval P a s).2
  | .exprCons a b, s => ReadsFirst P σ v a s ∧ Kept σ b ∧ Faithful P σ b (eval P a s).2
  | .assign l r, s | .compound _ l r, s =>
    Kept σ l ∧ ReadsFirst P σ v l s ∧ Faithful P σ r (eval P l s).2
  | .binary op a b, s => ReadsFirst P σ v a s ∧
    (((eval P a s).1.read (eval P a s).2).goesOn P op = true → Faithful P σ b (eval P a s).2)
  | .cond c a b, s => ReadsFirst P σ v c s ∧
    if ((eval P c s).1.read (eval P c s).2).truthy P = true then Faithful P σ a (eval P c s).2
    else Faithful P σ b (eval P c s).2

/-- The evaluations give the same value and end in agreeing states; they designate the same if
the first expression is kept. -/
structure SameEval (P : Platform F) (hidden : List Var) (kept : Prop) (e e' : Expr)
    (s t : State F) : Prop where
  value : (eval P e s).1.read (eval P e s).2 = (eval P e' t).1.read (eval P e' t).2
  state : Agree hidden (eval P e s).2 (eval P e' t).2
  result : kept → (eval P e s).1 = (eval P e' t).1 ∧ (eval P e s).1.Visible hidden

/-- From agreeing states, the expression and the one with the arguments do the same as long as
the parameters are read faithfully. -/
def Simulated (P : Platform F) (hidden : List Var) (σ : Var → Option Expr) (e e' : Expr) : Prop :=
  ∀ s t, Agree hidden s t → Faithful P σ e s → SameEval P hidden (Kept σ e) e e' s t

section

variable {P : Platform F} {hidden : List Var} {σ : Var → Option Expr} {s t : State F}

namespace SameEval

variable {k kept kept' : Prop} {a a' b b' c c' e e' : Expr}

theorem of_result (hstate : Agree hidden (eval P e s).2 (eval P e' t).2)
    (hresult : (eval P e s).1 = (eval P e' t).1) (hvisible : (eval P e s).1.Visible hidden) :
    SameEval P hidden kept e e' s t where
  value := by rw [← hresult, hstate.read hvisible]
  state := hstate
  result := fun _ => ⟨hresult, hvisible⟩

theorem arrRef (ha : SameEval P hidden kept a a' s t)
    (hb : SameEval P hidden kept' b b' (eval P a s).2 (eval P a' t).2) :
    SameEval P hidden k (.arrRef a b) (.arrRef a' b') s t := by
  refine .of_result hb.state ?_ (visible_pointee hidden _)
  simp only [eval, ha.value, hb.value]

theorem deref (ha : SameEval P hidden kept a a' s t) :
    SameEval P hidden k (.deref a) (.deref a') s t := by
  refine .of_result ha.state ?_ (visible_pointee hidden _)
  simp only [eval, ha.value]

theorem member (ha : SameEval P hidden kept a a' s t) (hkept : kept) (f : String) :
    SameEval P hidden k (.member a f) (.member a' f) s t := by
  refine .of_result ha.state ?_ (visible_pointee hidden _)
  simp only [eval, (ha.result hkept).1]

theorem addrOf (ha : SameEval P hidden kept a a' s t) (hkept : kept) :
    SameEval P hidden k (.addrOf a) (.addrOf a') s t := by
  refine .of_result ha.state ?_ trivial
  simp only [eval, (ha.result hkept).1]

theorem cast (ha : SameEval P hidden kept a a' s t) (ty : CType) :
    SameEval P hidden k (.cast ty a) (.cast ty a') s t := by
  refine .of_result ha.state ?_ trivial
  simp only [eval, ha.value]

theorem unary (ha : SameEval P hidden kept a a' s t) (op : UnOp) :
    SameEval P hidden k (.unary op a) (.unary op a') s t := by
  refine .of_result ha.state ?_ trivial
  simp only [eval, ha.value]

theorem binary (ha : SameEval P hidden kept a a' s t) {op : BinOp}
    (hb : ((eval P a s).1.read (eval P a s).2).goesOn P op = true →
      SameEval P hidden kept' b b' (eval P a s).2 (eval P a' t).2) :
    SameEval P hidden k (.binary op a b) (.binary op a' b') s t := by
  cases hgo : ((eval P a s).1.read (eval P a s).2).goesOn P op with
  | true =>
    have hright := hb hgo
    have hgo' := ha.value ▸ hgo
    refine .of_result ?_ ?_ ?_
    all_goals simp only [eval, hgo, hgo', if_true]
    · exact hright.state
    · rw [ha.value, hright.value]
    · trivial
  | false =>
    have hgo' := ha.value ▸ hgo
    refine .of_result ?_ ?_ ?_
    all_goals simp only [eval, hgo, hgo', Bool.false_eq_true, if_false]
    · exact ha.state
    · rw [ha.value]
    · trivial

theorem cond (hc : SameEval P hidden kept c c' s t) {testTrue testFalse : Prop}
    (hbranch : if ((eval P c s).1.read (eval P c s).2).truthy P = true
      then testTrue else testFalse)
    (ha : testTrue → SameEval P hidden kept' a a' (eval P c s).2 (eval P c' t).2)
    {kept'' : Prop}
    (hb : testFalse → SameEval P hidden kept'' b b' (eval P c s).2 (eval P c' t).2) :
    SameEval P hidden k (.cond c a b) (.cond c' a' b') s t := by
  cases htrue : ((eval P c s).1.read (eval P c s).2).truthy P with
  | true =>
    rw [if_pos htrue] at hbranch
    have hsame := ha hbranch
    have htrue' := hc.value ▸ htrue
    refine .of_result ?_ ?_ ?_
    all_goals simp only [eval, htrue, htrue', if_true]
    · exact hsame.state
    · rw [hsame.value]
    · trivial
  | false =>
    rw [if_neg (by simp [htrue])] at hbranch
    have hsame := hb hbranch
    have htrue' := hc.value ▸ htrue
    refine .of_result ?_ ?_ ?_
    all_goals simp only [eval, htrue, htrue', Bool.false_eq_true, if_false]
    · exact hsame.state
    · rw [hsame.value]
    · trivial

theorem assign (ha : SameEval P hidden kept a a' s t) (hkept : kept)
    (hb : SameEval P hidden kept' b b' (eval P a s).2 (eval P a' t).2) :
    SameEval P hidden k (.assign a b) (.assign a' b') s t := by
  obtain ⟨hresult, hvisible⟩ := ha.result hkept
  obtain ⟨hvalue, hstate⟩ := hb.state.assign (P := P) hvisible _
  refine .of_result ?_ ?_ trivial
  all_goals simp only [eval, ← hresult, ← hb.value]
  · exact hstate
  · rw [hvalue]

theorem compound (ha : SameEval P hidden kept a a' s t) (hkept : kept)
    (hb : SameEval P hidden kept' b b' (eval P a s).2 (eval P a' t).2) (op : BinOp) :
    SameEval P hidden k (.compound op a b) (.compound op a' b') s t := by
  obtain ⟨hresult, hvisible⟩ := ha.result hkept
  obtain ⟨hvalue, hstate⟩ := hb.state.assign (P := P) hvisible _
  refine .of_result ?_ ?_ trivial
  all_goals simp only [eval, ← hresult, ← hb.value, ← hb.state.read hvisible]
  · exact hstate
  · rw [hvalue]

/-- `++` and `--`. -/
theorem bump (ha : SameEval P hidden kept a a' s t) (hkept : kept) {op : BinOp}
    (he : eval P e s = eval.bump P e op (eval P a s))
    (he' : eval P e' t = eval.bump P e' op (eval P a' t))
    (hfix : P.isPrefixed e' = P.isPrefixed e) : SameEval P hidden k e e' s t := by
  obtain ⟨hresult, hvisible⟩ := ha.result hkept
  obtain ⟨hvalue, hstate⟩ := ha.state.assign (P := P) hvisible _
  refine .of_result ?_ ?_ ?_
  all_goals simp only [he, he', eval.bump, ← hresult, ← ha.state.read hvisible, hfix]
  · exact hstate
  · rw [hvalue]
  · trivial

theorem call (hP : P.Hides hidden) (ha : SameEval P hidden kept a a' s t) (hkept : kept)
    (f : Option String) : SameEval P hidden k (.call f a) (.call f a') s t := by
  obtain ⟨hvalue, hstate⟩ := hP f (eval P a s).1.list _ _ ha.state
  refine .of_result ?_ ?_ trivial
  all_goals simp only [eval, ← (ha.result hkept).1]
  · exact hstate
  · rw [hvalue]

theorem exprCons (ha : SameEval P hidden kept a a' s t)
    (hb : SameEval P hidden kept' b b' (eval P a s).2 (eval P a' t).2) (hkept : kept') :
    SameEval P hidden k (.exprCons a b) (.exprCons a' b') s t := by
  refine .of_result hb.state ?_ trivial
  simp only [eval, ha.value, (hb.result hkept).1]

end SameEval

theorem simulated_replaceRefs (hP : P.Hides hidden)
    (hfix : P.KeepsFixity fun v => (σ v).getD (.varRef v)) {e : Expr}
    (href : ∀ v ∈ e.varRefs, Simulated P hidden σ (.varRef v) ((σ v).getD (.varRef v))) :
    Simulated P hidden σ e (e.replaceRefs fun v => (σ v).getD (.varRef v)) := by
  induction e with
  | intVal | exprNil => exact fun s t hst _ => .of_result hst rfl trivial
  | varRef v => exact href v (by simp [Expr.varRefs])
  | deref e ih => exact fun s t hst h => (ih href s t hst h).deref
  | member e f ih => exact fun s t hst h => (ih href s t hst h.2).member h.1 f
  | addrOf e ih => exact fun s t hst h => (ih href s t hst h.2).addrOf h.1
  | cast ty e ih => exact fun s t hst h => (ih href s t hst h).cast ty
  | unary op e ih => exact fun s t hst h => (ih href s t hst h).unary op
  | call f args ih => exact fun s t hst h => (ih href s t hst h.2).call hP h.1 f
  | plusPlus e ih =>
    exact fun s t hst h => (ih href s t hst h.2).bump h.1 rfl rfl (hfix (.plusPlus e))
  | minusMinus e ih =>
    exact fun s t hst h => (ih href s t hst h.2).bump h.1 rfl rfl (hfix (.minusMinus e))
  | arrRef a b iha ihb =>
    obtain ⟨ha, hb⟩ := List.forall_mem_append.mp href
    intro s t hst h
    have hleft := iha ha s t hst h.1
    exact hleft.arrRef (ihb hb _ _ hleft.state h.2)
  | binary op a b iha ihb =>
    obtain ⟨ha, hb⟩ := List.forall_mem_append.mp href
    intro s t hst h
    have hleft := iha ha s t hst h.1
    exact hleft.binary fun hgo => ihb hb _ _ hleft.state (h.2 hgo)
  | assign a b iha ihb =>
    obtain ⟨ha, hb⟩ := List.forall_mem_append.mp href
    intro s t hst h
    have hleft := iha ha s t hst h.2.1
    exact hleft.assign h.1 (ihb hb _ _ hleft.state h.2.2)
  | compound op a b iha ihb =>
    obtain ⟨ha, hb⟩ := List.forall_mem_append.mp href
    intro s t hst h
    have hleft := iha ha s t hst h.2.1
    exact hleft.compound h.1 (ihb hb _ _ hleft.state h.2.2) op
  | exprCons a b iha ihb =>
    obtain ⟨ha, hb⟩ := List.forall_mem_append.mp href
    intro s t hst h
    have hleft := iha ha s t hst h.1
    exact hleft.exprCons (ihb hb _ _ hleft.state h.2.2) h.2.1
  | cond c a b ihc iha ihb =>
    obtain ⟨hca, hb⟩ := List.forall_mem_append.mp href
    obtain ⟨hc, ha⟩ := List.forall_mem_append.mp hca
    intro s t hst h
    have htest := ihc hc s t hst h.1
    exact htest.cond h.2 (iha ha _ _ htest.state) (ihb hb _ _ htest.state)

/-- From states that agree once `v` has been read in the one and its argument in the other. -/
theorem sameEval_readsFirst (hP : P.Hides hidden)
    (hfix : P.KeepsFixity fun v => (σ v).getD (.varRef v)) {v : Var} {arg : Expr}
    (harg : σ v = some arg) (hbase : SameEval P hidden False (.varRef v) arg s t) {e : Expr}
    (href : ∀ v ∈ e.varRefs, Simulated P hidden σ (.varRef v) ((σ v).getD (.varRef v)))
    (h : ReadsFirst P σ v e s) :
    SameEval P hidden (Kept σ e) e (e.replaceRefs fun v => (σ v).getD (.varRef v)) s t := by
  induction e with
  | intVal | exprNil => exact h.elim
  | varRef w =>
    obtain rfl : w = v := h
    simp only [Expr.replaceRefs, harg, Option.getD_some]
    refine ⟨hbase.value, hbase.state, fun hkept => ?_⟩
    have hnone := hkept w rfl
    rw [harg] at hnone
    exact absurd hnone (by simp)
  | deref e ih => exact (ih href h).deref
  | member e f ih => exact (ih href h.2).member h.1 f
  | addrOf e ih => exact (ih href h.2).addrOf h.1
  | cast ty e ih => exact (ih href h).cast ty
  | unary op e ih => exact (ih href h).unary op
  | call f args ih => exact (ih href h.2).call hP h.1 f
  | plusPlus e ih => exact (ih href h.2).bump h.1 rfl rfl (hfix (.plusPlus e))
  | minusMinus e ih => exact (ih href h.2).bump h.1 rfl rfl (hfix (.minusMinus e))
  | arrRef a b iha =>
    obtain ⟨ha, hb⟩ := List.forall_mem_append.mp href
    have hleft := iha ha h.1
    exact hleft.arrRef (simulated_replaceRefs hP hfix hb _ _ hleft.state h.2)
  | binary op a b iha =>
    obtain ⟨ha, hb⟩ := List.forall_mem_append.mp href
    have hleft := iha ha h.1
    exact hleft.binary fun hgo => simulated_replaceRefs hP hfix hb _ _ hleft.state (h.2 hgo)
  | assign a b iha =>
    obtain ⟨ha, hb⟩ := List.forall_mem_append.mp href
    have hleft := iha ha h.2.1
    exact hleft.assign h.1 (simulated_replaceRefs hP hfix hb _ _ hleft.state h.2.2)
  | compound op a b iha =>
    obtain ⟨ha, hb⟩ := List.forall_mem_append.mp href
    have hleft := iha ha h.2.1
    exact hleft.compound h.1 (simulated_replaceRefs hP hfix hb _ _ hleft.state h.2.2) op
  | exprCons a b iha =>
    obtain ⟨ha, hb⟩ := List.forall_mem_append.mp href
    have hleft := iha ha h.1
    exact hleft.exprCons (simulated_replaceRefs hP hfix hb _ _ hleft.state h.2.2) h.2.1
  | cond c a b ihc =>
    obtain ⟨hca, hb⟩ := List.forall_mem_append.mp href
    obtain ⟨hc, ha⟩ := List.forall_mem_append.mp hca
    have htest := ihc hc h.1
    exact htest.cond h.2 (simulated_replaceRefs hP hfix ha _ _ htest.state)
      (simulated_replaceRefs hP hfix hb _ _ htest.state)

/-- A variable of the caller. -/
theorem simulated_varRef {v : Var} (hv : v ∉ hidden) :
    Simulated P hidden σ (.varRef v) (.varRef v) := by
  intro s t hst _
  refine .of_result hst rfl ?_
  simp only [eval, Platform.locate]
  split
  next => trivial
  next =>
    split
    next => trivial
    next => exact hv

/-- Without parameters there is nothing to disturb. -/
theorem faithful_none (P : Platform F) (e : Expr) (s : State F) :
    Faithful P (fun _ => none) e s := by
  have hkept : ∀ e, Kept (fun _ => none) e := fun _ _ _ => rfl
  induction e generalizing s with
  | cond c a b ihc iha ihb =>
    refine ⟨ihc s, ?_⟩
    split
    · exact iha _
    · exact ihb _
  | _ => simp_all [Faithful]

/-- An expression over visible variables does the same in agreeing states. -/
theorem sameEval_of_visible (hP : P.Hides hidden) {e : Expr}
    (hvisible : ∀ v ∈ e.varRefs, v ∉ hidden) (h : Agree hidden s t) :
    SameEval P hidden True e e s t := by
  have hself : ∀ e : Expr, e.replaceRefs (fun v => ((fun _ => none) v).getD (.varRef v)) = e :=
    fun e => Expr.replaceRefs_eq_self.mpr fun v _ => rfl
  have hfix : P.KeepsFixity fun v => ((fun _ => none) v).getD (.varRef v) := fun e => by rw [hself]
  have hsim := simulated_replaceRefs hP hfix fun v hv =>
    @simulated_varRef F P hidden (fun _ => none) v (hvisible v hv)
  rw [hself] at hsim
  have hsame := hsim s t h (faithful_none P e s)
  exact ⟨hsame.value, hsame.state, fun _ => hsame.result fun _ _ => rfl⟩

end

end LoomX.ReductionHelper
