import LoomX.DependenceExact

namespace LoomX

/-- The value of the integer arithmetic of an expression at given variable values. -/
def Expr.intValue (ρ : Var → Int) : Expr → Int
  | .intVal _ n => n
  | .varRef v => ρ v
  | .cast _ e => e.intValue ρ
  | .unary .minus e => -e.intValue ρ
  | .binary .add a b => a.intValue ρ + b.intValue ρ
  | .binary .sub a b => a.intValue ρ - b.intValue ρ
  | .binary .mul a b => a.intValue ρ * b.intValue ρ
  | _ => 0

/-- Wherever it is defined the value is `c * i` plus a rest that does not depend on `i` and is `k`
when `i` is the only variable. -/
def AffineIn (i : Var) (e : Expr) (c k : Int) : Prop :=
  ∃ r : (Var → Int) → Int, (∀ ρ x, r (Function.update ρ i x) = r ρ) ∧
    ∀ ρ, InRange ρ → ∀ n, e.subscriptValue ρ = some n →
      n = c * ρ i + r ρ ∧ ((∀ v ∈ e.varRefs, v = i) → r ρ = k)

/-- The index changes the subscript by as much as it does over the integers without casts and with
zeros for the other variables, and a subscript in the index alone is worth what it is there. -/
structure OwnShare (i : Var) (e : Expr) : Prop where
  change : ∀ ρ ρ', InRange ρ → InRange ρ' → (∀ v, v ≠ i → ρ v = ρ' v) → ∀ n n',
    e.subscriptValue ρ = some n → e.subscriptValue ρ' = some n' →
      n - n' = e.intValue (onlyIndex i (ρ i)) - e.intValue (onlyIndex i (ρ' i))
  rest : (∀ v ∈ e.varRefs, v = i) → ∀ ρ, InRange ρ → ∀ n, e.subscriptValue ρ = some n →
    n = e.intValue ρ

/-- The extraction gives the arithmetic without casts where the other variables are zero. -/
theorem extractAffineSubscript_intValue {known : List Var} {i : Var} {e : Expr} {c k : Int}
    (h : extractAffineSubscript known i e = some (c, k)) (x : Int) :
    e.intValue (onlyIndex i x) = c * x + k := by
  induction e generalizing c k with
  | intVal kind n =>
    cases kind <;> simp [extractAffineSubscript] at h <;> obtain ⟨rfl, rfl⟩ := h <;>
      simp [Expr.intValue]
  | varRef v =>
    simp only [extractAffineSubscript] at h
    split_ifs at h with hv
    · obtain ⟨rfl, rfl⟩ := Prod.mk.inj (Option.some.inj h)
      simp [Expr.intValue, onlyIndex, hv]
    · obtain ⟨rfl, rfl⟩ := Prod.mk.inj (Option.some.inj h)
      simp [Expr.intValue, onlyIndex, hv]
  | cast t e ih => exact ih h
  | unary op e ih =>
    cases op with
    | minus =>
      obtain ⟨c', k', he, rfl, rfl⟩ := extractAffineSubscript_minus h
      simp only [Expr.intValue, ih he]
      ring
    | lnot | bnot => simp [extractAffineSubscript] at h
  | binary op a b iha ihb =>
    obtain ⟨c₁, k₁, c₂, k₂, ha, hb, hform⟩ := extractAffineSubscript_binary h
    have hvalue := hform.value x
    cases op with
    | add | sub | mul =>
      rw [Expr.intValue, iha ha, ihb hb]
      exact hvalue
    | _ => cases hform
  | _ => simp [extractAffineSubscript] at h

theorem intValue_congr {ρ ρ' : Var → Int} {e : Expr} (h : ∀ w ∈ e.varRefs, ρ w = ρ' w) :
    e.intValue ρ = e.intValue ρ' := by
  induction e with
  | varRef v => exact h v (by simp [Expr.varRefs])
  | cast t e ih => simp only [Expr.intValue, ih h]
  | unary op e ih => cases op <;> simp only [Expr.intValue, ih h]
  | binary op a b iha ihb =>
    have ha := iha fun w hw => h w (by simp [Expr.varRefs, hw])
    have hb := ihb fun w hw => h w (by simp [Expr.varRefs, hw])
    cases op <;> simp only [Expr.intValue, ha, hb]
  | _ => rfl

theorem intValue_ownVars {i : Var} {e : Expr} (h : ∀ v ∈ e.varRefs, v = i) (ρ : Var → Int) :
    e.intValue ρ = e.intValue (onlyIndex i (ρ i)) :=
  intValue_congr fun v hv => by simp [onlyIndex, h v hv]

/-- The index value and the subscript's value of some valuation that differs in the index only. -/
def IndexShare (i : Var) (e : Expr) (ρ : Var → Int) (x n : Int) : Prop :=
  InRange (Function.update ρ i x) ∧ e.subscriptValue (Function.update ρ i x) = some n

open Classical in
/-- What the index leaves of the subscript, taken wherever that is defined. -/
noncomputable def restOf (share : Int → Int → Prop) (c k : Int) : Int :=
  if h : ∃ p : Int × Int, share p.1 p.2 then h.choose.2 - c * h.choose.1 else k

theorem indexShare_update (i : Var) (e : Expr) (ρ : Var → Int) (x : Int) :
    IndexShare i e (Function.update ρ i x) = IndexShare i e ρ := by
  funext y n
  simp [IndexShare]

theorem restOf_spec {share : Int → Int → Prop} {x n : Int} (h : share x n) (c k : Int) :
    ∃ y m, share y m ∧ restOf share c k = m - c * y := by
  have hsome : ∃ p : Int × Int, share p.1 p.2 := ⟨(x, n), h⟩
  exact ⟨_, _, hsome.choose_spec, dif_pos hsome⟩

/-- No factor of a product mentions the index where the other one mentions another variable. -/
def Expr.separateProducts (i : Var) : Expr → Bool
  | .cast _ e | .unary _ e => e.separateProducts i
  | .binary .mul a b =>
    a.separateProducts i && b.separateProducts i &&
      (!a.containsVar i || b.varRefs.all (· = i)) && (!b.containsVar i || a.varRefs.all (· = i))
  | .binary _ a b => a.separateProducts i && b.separateProducts i
  | _ => true

theorem intValue_update_of_not_contains {i : Var} {e : Expr} (h : e.containsVar i = false)
    (ρ : Var → Int) (x : Int) : e.intValue (Function.update ρ i x) = e.intValue ρ := by
  refine intValue_congr fun v hv => Function.update_of_ne ?_ x ρ
  rintro rfl
  simp [Expr.containsVar, hv] at h

theorem intValue_rest {known : List Var} {i : Var} {e : Expr} {c k : Int}
    (h : extractAffineSubscript known i e = some (c, k)) (hown : ∀ v ∈ e.varRefs, v = i)
    (ρ : Var → Int) : e.intValue (Function.update ρ i 0) = k := by
  rw [intValue_ownVars hown, extractAffineSubscript_intValue h]
  simp

theorem containsVar_of_coefficient {known : List Var} {i : Var} {e : Expr} {k : Int}
    (h : extractAffineSubscript known i e = some (1, k)) : ¬e.containsVar i = false := by
  intro hnot
  have h1 := extractAffineSubscript_intValue h 1
  have h0 := extractAffineSubscript_intValue h 0
  have hupdate : onlyIndex i 1 = Function.update (onlyIndex i 0) i 1 := by
    funext v
    by_cases hv : v = i <;> simp [onlyIndex, Function.update, hv]
  rw [hupdate, intValue_update_of_not_contains hnot] at h1
  omega

/-- Without products of the index and another variable the index has one coefficient. -/
theorem intValue_change {known : List Var} {i : Var} {e : Expr} {c k : Int}
    (h : extractAffineSubscript known i e = some (c, k)) (hsep : e.separateProducts i = true)
    (ρ : Var → Int) : e.intValue ρ = c * ρ i + e.intValue (Function.update ρ i 0) := by
  induction e generalizing c k with
  | intVal kind n =>
    cases kind <;> simp [extractAffineSubscript] at h <;> obtain ⟨rfl, rfl⟩ := h <;>
      simp [Expr.intValue]
  | varRef v =>
    simp only [extractAffineSubscript] at h
    split_ifs at h with hv
    · obtain ⟨rfl, rfl⟩ := Prod.mk.inj (Option.some.inj h)
      simp [Expr.intValue, hv]
    · obtain ⟨rfl, rfl⟩ := Prod.mk.inj (Option.some.inj h)
      simp [Expr.intValue, Function.update_of_ne hv]
  | cast t e ih => exact ih h hsep
  | unary op e ih =>
    cases op with
    | minus =>
      obtain ⟨c', k', he, rfl, rfl⟩ := extractAffineSubscript_minus h
      simp only [Expr.intValue, ih he hsep]
      ring
    | lnot | bnot => simp [extractAffineSubscript] at h
  | binary op a b iha ihb =>
    obtain ⟨c₁, k₁, c₂, k₂, ha, hb, hform⟩ := extractAffineSubscript_binary h
    cases hform with
    | add | sub =>
      simp only [Expr.separateProducts, Bool.and_eq_true] at hsep
      simp only [Expr.intValue, iha ha hsep.1, ihb hb hsep.2]
      ring
    | constants =>
      simp only [Expr.separateProducts, Bool.and_eq_true] at hsep
      simp only [Expr.intValue, iha ha hsep.1.1.1, ihb hb hsep.1.1.2]
      ring
    | multiple =>
      simp only [Expr.separateProducts, Bool.and_eq_true, Bool.or_eq_true, Bool.not_eq_true',
        List.all_eq_true, decide_eq_true_eq] at hsep
      have hown := hsep.2.resolve_left (containsVar_of_coefficient hb)
      rw [Expr.intValue, iha ha hsep.1.1.1, ihb hb hsep.1.1.2, intValue_rest ha hown]
      simp only [Expr.intValue, intValue_rest ha hown]
      ring
    | times =>
      simp only [Expr.separateProducts, Bool.and_eq_true, Bool.or_eq_true, Bool.not_eq_true',
        List.all_eq_true, decide_eq_true_eq] at hsep
      have hown := hsep.1.2.resolve_left (containsVar_of_coefficient ha)
      rw [Expr.intValue, iha ha hsep.1.1.1, ihb hb hsep.1.1.2, intValue_rest hb hown]
      simp only [Expr.intValue, intValue_rest hb hown]
      ring
  | _ => simp [extractAffineSubscript] at h

/-- Without casts, and all arithmetic is signed. -/
def Expr.signedArithmetic : Expr → Bool
  | .intVal _ _ | .varRef _ => true
  | .unary _ e => e.signedArithmetic && e.subscriptType.promote.isSigned
  | .binary _ a b => a.signedArithmetic && b.signedArithmetic &&
      (a.subscriptType.arithmetic b.subscriptType).isSigned
  | _ => false

/-- Signed arithmetic is that of the integers as long as it does not overflow. -/
theorem subscriptValue_of_signedArithmetic {ρ : Var → Int} {e : Expr} {n : Int}
    (h : e.signedArithmetic = true) (hn : e.subscriptValue ρ = some n) : n = e.intValue ρ := by
  induction e generalizing n with
  | intVal | varRef => exact (Option.some.inj hn).symm
  | unary op e ih =>
    simp only [Expr.signedArithmetic, Bool.and_eq_true] at h
    cases op with
    | minus =>
      obtain ⟨m, hm, hn⟩ := Option.bind_eq_some_iff.mp hn
      rw [CType.result_eq_some hn h.2, ih h.1 hm, Expr.intValue]
    | lnot | bnot => cases hn
  | binary op a b iha ihb =>
    simp only [Expr.signedArithmetic, Bool.and_eq_true] at h
    obtain ⟨x, hx, hn⟩ := Option.bind_eq_some_iff.mp hn
    obtain ⟨y, hy, hn⟩ := Option.bind_eq_some_iff.mp hn
    cases op with
    | add | sub | mul =>
      rw [CType.result_eq_some hn h.2, iha h.1.1 hx, ihb h.1.2 hy, Expr.intValue]
    | _ => cases hn
  | _ => cases h

/-- Subscripts that are worth what they are over the integers without casts, without products of
the index and another variable. -/
theorem ownShare_of_separateProducts {known : List Var} {i : Var} {e : Expr} {c k : Int}
    (h : extractAffineSubscript known i e = some (c, k))
    (hvalue : ∀ ρ, InRange ρ → ∀ n, e.subscriptValue ρ = some n → n = e.intValue ρ)
    (hsep : e.separateProducts i = true) : OwnShare i e := by
  refine ⟨fun ρ ρ' hρ hρ' hsame n n' hn hn' => ?_, fun _ => hvalue⟩
  have hrest : Function.update ρ i 0 = Function.update ρ' i 0 := by
    funext v
    by_cases hv : v = i
    · subst hv
      simp
    · rw [Function.update_of_ne hv, Function.update_of_ne hv, hsame v hv]
  rw [hvalue ρ hρ n hn, hvalue ρ' hρ' n' hn', intValue_change h hsep ρ,
    intValue_change h hsep ρ', extractAffineSubscript_intValue h,
    extractAffineSubscript_intValue h, hrest]
  ring

def indexJ : Var := ⟨3, "j", .integer 32 true, .automatic⟩

end LoomX
