import LoomX.ConstantFolding

namespace LoomX

namespace ConstantFolding

/-- The class of what is built of two operands of a class, if it is handled. -/
def ValueKind.binaryKind : ValueKind → Option ValueKind
  | boolValExp | enumVal => some intVal
  | wcharVal | char16Val | char32Val => none
  | kind => some kind

/-- The class of what is built of a minus, if it is handled. -/
def ValueKind.minusKind : ValueKind → Option ValueKind
  | boolValExp | enumVal => some intVal
  | charVal | signedCharVal | unsignedCharVal | wcharVal | char16Val | char32Val => none
  | kind => some kind

section
variable {t : CInteger} {op : BinaryOp} {x y v : Int}

theorem inRange_truth (t : CInteger) (p : Prop) [Decidable p] : t.InRange (truth p) := by
  unfold truth
  split
  next => cases t <;> decide
  next => cases t <;> decide

theorem convert_truth (t : CInteger) (p : Prop) [Decidable p] :
    t.convert (truth p) = truth p :=
  CInteger.convert_of_inRange (inRange_truth t p)

/-- A shift that C defines is the same in C++. -/
theorem calculateLshift_of_shiftLeft (h : t.shiftLeft x y = .ok v) :
    calculateLshift t x y = .ok v := by
  unfold CInteger.shiftLeft at h
  unfold calculateLshift
  split at h
  next => cases h
  next hshift =>
    split at h
    next => cases h
    next hneg =>
      rw [if_neg hshift]
      unfold CInteger.result at h
      split at h
      next hsigned =>
        split at h
        next hrange =>
          have hx : ¬x < 0 := fun hx => hneg ⟨hsigned, hx⟩
          have hlimit : x * 2 ^ y.toNat < 2 ^ t.width := by
            have hmin : t.minValue ≤ 0 := by
              unfold CInteger.minValue
              rw [if_pos hsigned]
              have : (0 : Int) < 2 ^ (t.width - 1) := by positivity
              omega
            have := hrange.2
            unfold CInteger.limit at this
            omega
          rw [if_neg (fun hbad => hbad.2.elim hx (not_le.mpr hlimit)),
            CInteger.convert_of_inRange hrange]
          exact h
        next => cases h
      next hunsigned =>
        rw [if_neg (fun hbad => hunsigned hbad.1)]
        exact h

/-- What is calculated in the type that an operation has in C. -/
theorem map_convert {r : Except Undefined Int} (h : r = .ok v) (hv : t.InRange v) :
    ∃ w, t.convert <$> r = .ok w ∧ t.convert w = v := by
  have hconvert := CInteger.convert_of_inRange hv
  refine ⟨t.convert v, ?_, by rw [hconvert, hconvert]⟩
  rw [h]
  rfl

/-- Operands of one type are calculated with as in C, where the result has the type of C and a
comma is zero. -/
theorem calculate_of_operate {u : CInteger} (hu : u = t ∨ u = t.promote) (hx : t.InRange x)
    (hy : t.InRange y) (htype : op.type t t = u) (hcomma : op = .commaOpExp → v = 0)
    (h : op.operate t t x y = .ok v) :
    ∃ w, calculate u op x y = .ok w ∧ u.convert w = v := by
  have hpromote : u.promote = t.promote := by
    rcases hu with rfl | rfl
    · rfl
    · exact CInteger.promote_promote t
  have hx := CInteger.convert_of_inRange hx.promote
  have hy := CInteger.convert_of_inRange hy.promote
  have htruth : ∀ (p : Prop) [Decidable p], (.ok (truth p) : Except Undefined Int) = .ok v →
      ∃ w, (.ok (truth p) : Except Undefined Int) = .ok w ∧ u.convert w = v := by
    intro p _ hp
    obtain rfl := Except.ok.inj hp
    exact ⟨_, rfl, convert_truth u p⟩
  have harith : t.common t = u → t.promote = u := fun hu => (CInteger.common_self t) ▸ hu
  simp only [BinaryOp.operate, calculate, CInteger.common_self, hx, hy, hpromote] at h ⊢
  cases op with
  | modOp =>
    obtain rfl := harith htype
    exact map_convert h (CInteger.inRange_of_modulo h)
  | lshiftOp =>
    obtain rfl : t.promote = u := htype
    exact map_convert (calculateLshift_of_shiftLeft h) (CInteger.inRange_of_shiftLeft h)
  | rshiftOp =>
    obtain rfl : t.promote = u := htype
    exact map_convert h (CInteger.inRange_of_shiftRight h)
  | bitAndOp | bitOrOp | bitXorOp =>
    obtain rfl := harith htype
    exact map_convert h (Except.ok.inj h ▸ CInteger.inRange_bitwise _)
  | addOp | subtractOp | multiplyOp =>
    obtain rfl := harith htype
    exact map_convert h (CInteger.inRange_of_result h)
  | divideOp =>
    obtain rfl := harith htype
    exact map_convert h (CInteger.inRange_of_divide h)
  | commaOpExp =>
    obtain rfl := hcomma rfl
    exact ⟨0, rfl, CInteger.convert_of_inRange (inRange_truth u False)⟩
  | _ => exact htruth _ h

/-- What is calculated of a minus that C defines. -/
theorem calculateMinus_of_result {u : CInteger} (hu : t.promote = u)
    (h : t.promote.result (-x) = .ok v) : ∃ w, calculateMinus u x = .ok w ∧ u.convert w = v := by
  obtain rfl := hu
  unfold calculateMinus
  rw [CInteger.promote_promote]
  exact map_convert h (CInteger.inRange_of_result h)

end

section
variable {k : ValueKind} {op : BinaryOp} {l r v : ValueExp}

theorem evaluateValues_of_none (h : l.kind.binaryKind = none) :
    evaluateValues op l r = .ok none := by
  obtain ⟨kind, x, hx⟩ := l
  cases kind with
  | wcharVal | char16Val | char32Val => rfl
  | _ => cases h

theorem evaluateValues_of_enum (h : l.kind = .enumVal) :
    evaluateValues op l r = .error .assertion := by
  obtain ⟨kind, x, hx⟩ := l
  obtain rfl : kind = .enumVal := h
  rfl

theorem evaluateValues_of_some (hkind : l.kind = r.kind) (h : l.kind.binaryKind = some k)
    (henum : l.kind ≠ .enumVal) :
    evaluateValues op l r = build k (calculate k.type op l.value r.value) := by
  obtain ⟨kind, x, hx⟩ := l
  obtain ⟨_, y, hy⟩ := r
  obtain rfl : kind = _ := hkind
  cases kind with
  | wcharVal | char16Val | char32Val => cases h
  | enumVal => exact absurd rfl henum
  | _ =>
    obtain rfl := Option.some.inj h
    rfl

theorem evaluateUnaryValue_of_none (h : v.kind.minusKind = none) :
    evaluateUnaryValue v = .ok none := by
  obtain ⟨kind, x, hx⟩ := v
  cases kind with
  | charVal | signedCharVal | unsignedCharVal | wcharVal | char16Val | char32Val => rfl
  | _ => cases h

theorem evaluateUnaryValue_of_enum (h : v.kind = .enumVal) :
    evaluateUnaryValue v = .error .assertion := by
  obtain ⟨kind, x, hx⟩ := v
  obtain rfl : kind = .enumVal := h
  rfl

theorem evaluateUnaryValue_of_some (h : v.kind.minusKind = some k) (henum : v.kind ≠ .enumVal) :
    evaluateUnaryValue v = build k (calculateMinus k.type v.value) := by
  obtain ⟨kind, x, hx⟩ := v
  cases kind with
  | charVal | signedCharVal | unsignedCharVal | wcharVal | char16Val | char32Val => cases h
  | enumVal => exact absurd rfl henum
  | _ =>
    obtain rfl := Option.some.inj h
    rfl

theorem build_eq_ok {c : Except Undefined Int} {out : Option ValueExp}
    (h : build k c = .ok out) : ∃ x, c = .ok x ∧ out = some (.new k x) := by
  cases c with
  | error => cases h
  | ok x => exact ⟨x, rfl, (Except.ok.inj h).symm⟩

/-- The type of what is built is that of the operands, or it is the promoted one. -/
theorem type_of_binaryKind {kind : ValueKind} (h : kind.binaryKind = some k) :
    k.type = kind.type ∨ k.type = kind.type.promote := by
  cases kind with
  | wcharVal | char16Val | char32Val => cases h
  | boolValExp | enumVal =>
    obtain rfl := Option.some.inj h
    exact .inr rfl
  | _ =>
    obtain rfl := Option.some.inj h
    exact .inl rfl

end

namespace Expression

/-- The class of the value expression that an expression is or is folded to, if there is one. -/
def constantKind : Expression → Option ValueKind
  | value v => some v.kind
  | binary _ lhs rhs =>
    if lhs.constantKind = rhs.constantKind then lhs.constantKind.bind ValueKind.binaryKind
    else none
  | minus operand => operand.constantKind.bind ValueKind.minusKind
  | conditional cond trueExp falseExp =>
    if cond.constantKind.any ValueKind.isCondition then
      (if cond.eval = some 0 then falseExp.constantKind else trueExp.constantKind)
    else none

/-- Every operator whose operands are constants of one class that is handled has a defined value
there, no enumerators as operands and the type of what is built, and every comma there is zero;
every conditional with a constant for its condition has the type of the constant it chooses. -/
def Foldable : Expression → Prop
  | value _ => True
  | binary op lhs rhs => lhs.Foldable ∧ rhs.Foldable ∧
    ∀ kind k, lhs.constantKind = some kind → rhs.constantKind = some kind →
      kind.binaryKind = some k → kind ≠ .enumVal ∧ op.type lhs.type rhs.type = k.type ∧
        (binary op lhs rhs).eval.isSome ∧ (op = .commaOpExp → (binary op lhs rhs).eval = some 0)
  | minus operand => operand.Foldable ∧
    ∀ kind k, operand.constantKind = some kind → kind.minusKind = some k →
      kind ≠ .enumVal ∧ operand.type.promote = k.type ∧ (minus operand).eval.isSome
  | conditional cond trueExp falseExp => cond.Foldable ∧ trueExp.Foldable ∧ falseExp.Foldable ∧
    ∀ k, (conditional cond trueExp falseExp).constantKind = some k →
      k.type = trueExp.type.common falseExp.type

/-- The traversal ends, and every new value expression has the type and the value that the
subexpression has in C. -/
structure Preserved (e : Expression) : Prop where
  ends : ∃ out, traverse e = .ok out
  exact : ∀ s ∈ e.subexpressions, ∀ s' c, traverse s = .ok (s', some c) →
    c.kind.type = s.type ∧ s.eval = some c.value

/-- What the traversal gives for an expression: what takes its place is a constant of the class
that is expected, has the type and, where it is defined, the value of the expression; a constant
is put only where it is. -/
structure Folded (e : Expression) (out : Expression × Option ValueExp) : Prop where
  kind : (replaced out).isValueExp.map ValueExp.kind = e.constantKind
  constant : ∀ c, (replaced out).isValueExp = some c → e.eval = some c.value
  type : (replaced out).type = e.type
  meaning : ∀ v, e.eval = some v → (replaced out).eval = some v

section
variable {e e' : Expression} {out : Expression × Option ValueExp} {c : ValueExp} {k : ValueKind}

theorem isValueExp_eq_some (h : e.isValueExp = some c) : e = value c := by
  cases e with
  | value v => rw [Option.some.inj h]
  | _ => cases h

/-- A new value expression that has the class, the type and the value. -/
theorem folded_some (hkind : e.constantKind = some c.kind) (htype : c.kind.type = e.type)
    (heval : e.eval = some c.value) : Folded e (e', some c) where
  kind := hkind.symm
  constant := by
    intro _ h
    obtain rfl := Option.some.inj h
    exact heval
  type := htype
  meaning := fun v h => heval.symm.trans h

/-- No new value expression, where none is expected. -/
theorem folded_none (hkind : e.constantKind = none) (hvalue : e'.isValueExp = none)
    (htype : e'.type = e.type) (heval : ∀ v, e.eval = some v → e'.eval = some v) :
    Folded e (e', none) where
  kind := by
    show e'.isValueExp.map _ = _
    rw [hvalue, hkind]
    rfl
  constant := by
    intro c h
    cases hvalue.symm.trans h
  type := htype
  meaning := heval

/-- The constant that takes the place of an expression of this class. -/
theorem Folded.exists_constant (h : Folded e out) (hkind : e.constantKind = some k) :
    ∃ c, (replaced out).isValueExp = some c ∧ c.kind = k := by
  have := h.kind
  rw [hkind] at this
  exact Option.map_eq_some_iff.mp this

theorem Folded.kind_of_constant (h : Folded e out) (hc : (replaced out).isValueExp = some c) :
    e.constantKind = some c.kind := by
  rw [← h.kind, hc]
  rfl

theorem Folded.type_of_constant (h : Folded e out) (hc : (replaced out).isValueExp = some c) :
    c.kind.type = e.type := by
  rw [← h.type, isValueExp_eq_some hc]
  rfl

theorem Folded.of_newValueExp (h : Folded e (e', some c)) :
    c.kind.type = e.type ∧ e.eval = some c.value :=
  ⟨h.type_of_constant rfl, h.constant c rfl⟩

end

section
variable {op : BinaryOp} {l r l' r' c t f c' t' f' : Expression} {x y v : Int}

/-- The value of two operands that both have one. -/
theorem eval_binary (hl : l.eval = some x) (hr : r.eval = some y) :
    (binary op l r).eval = (op.operate l.type r.type x y).toOption := by
  rw [eval, hl, hr, Option.bind_eq_bind, Option.bind_some]
  split
  next hstop =>
    obtain ⟨rfl, hx⟩ | ⟨rfl, hx⟩ := hstop
    · show some (truth _) = some (truth _)
      simp [truth, hx]
    · show some (truth _) = some (truth _)
      simp [truth, hx]
  next => rfl

theorem eval_minus (h : l.eval = some x) :
    (minus l).eval = (l.type.promote.result (-x)).toOption := by
  rw [eval, h]
  rfl

theorem eval_conditional (h : c.eval = some x) : (conditional c t f).eval =
    (if x = 0 then f.eval else t.eval).map (t.type.common f.type).convert := by
  rw [eval, h, Option.bind_eq_bind, Option.bind_some, ite_not]
  split
  next => cases f.eval <;> rfl
  next => cases t.eval <;> rfl

theorem binary_meaning (hltype : l'.type = l.type) (hrtype : r'.type = r.type)
    (hl : ∀ x, l.eval = some x → l'.eval = some x) (hr : ∀ x, r.eval = some x → r'.eval = some x)
    (h : (binary op l r).eval = some v) : (binary op l' r').eval = some v := by
  obtain ⟨x, hx, h⟩ := Option.bind_eq_some_iff.mp h
  rw [eval, hl x hx, Option.bind_eq_bind, Option.bind_some, hltype, hrtype]
  split
  next hstop =>
    rw [if_pos hstop] at h
    exact h
  next hstop =>
    rw [if_neg hstop] at h
    obtain ⟨y, hy, h⟩ := Option.bind_eq_some_iff.mp h
    rw [hr y hy]
    exact h

theorem minus_meaning (htype : l'.type = l.type) (hl : ∀ x, l.eval = some x → l'.eval = some x)
    (h : (minus l).eval = some v) : (minus l').eval = some v := by
  obtain ⟨x, hx, -⟩ := Option.bind_eq_some_iff.mp h
  rw [eval_minus hx] at h
  rw [eval_minus (hl x hx), htype]
  exact h

theorem conditional_meaning (httype : t'.type = t.type) (hftype : f'.type = f.type)
    (hc : ∀ x, c.eval = some x → c'.eval = some x) (ht : ∀ x, t.eval = some x → t'.eval = some x)
    (hf : ∀ x, f.eval = some x → f'.eval = some x) (h : (conditional c t f).eval = some v) :
    (conditional c' t' f').eval = some v := by
  obtain ⟨x, hx, -⟩ := Option.bind_eq_some_iff.mp h
  rw [eval_conditional hx] at h
  rw [eval_conditional (hc x hx), httype, hftype]
  obtain ⟨y, hy, rfl⟩ := Option.map_eq_some_iff.mp h
  split at hy
  next hzero => rw [if_pos hzero, hf y hy, Option.map_some]
  next hzero => rw [if_neg hzero, ht y hy, Option.map_some]

end

section
variable {e l r c t f : Expression} {out ol or oc ot of : Expression × Option ValueExp}
  {op : BinaryOp}

theorem traverse_binary {v : Option ValueExp} (hl : traverse l = .ok ol) (hr : traverse r = .ok or)
    (h : evaluateBinaryOp op (replaced ol) (replaced or) = .ok v) :
    traverse (binary op l r) = .ok (binary op (replaced ol) (replaced or), v) := by
  rw [traverse, hl, hr]
  show (evaluateBinaryOp op (replaced ol) (replaced or) >>= _) = _
  rw [h]
  rfl

theorem traverse_minus {v : Option ValueExp} (hl : traverse l = .ok ol)
    (h : evaluateUnaryOp (replaced ol) = .ok v) :
    traverse (minus l) = .ok (minus (replaced ol), v) := by
  rw [traverse, hl]
  show (evaluateUnaryOp (replaced ol) >>= _) = _
  rw [h]
  rfl

theorem traverse_conditional (hc : traverse c = .ok oc) (ht : traverse t = .ok ot)
    (hf : traverse f = .ok of) : traverse (conditional c t f) =
      .ok (conditional (replaced oc) (replaced ot) (replaced of),
        evaluateConditionalExp (replaced oc) (replaced ot) (replaced of)) := by
  rw [traverse, hc, ht, hf]
  rfl

theorem eq_ok_of_toOption {r : Except Undefined Int} {v : Int} (h : r.toOption = some v) :
    r = .ok v := by
  cases r with
  | error => cases h
  | ok x => rw [Option.some.inj h]

theorem constantKind_binary {k : ValueKind} (hl : l.constantKind = some k)
    (hr : r.constantKind = some k) : (binary op l r).constantKind = k.binaryKind := by
  rw [constantKind, hl, hr, if_pos rfl]
  rfl

/-- A binary operator whose operands are folded. -/
theorem folded_binary (hl : Folded l ol) (hr : Folded r or)
    (hcond : ∀ kind k, l.constantKind = some kind → r.constantKind = some kind →
      kind.binaryKind = some k → kind ≠ .enumVal ∧ op.type l.type r.type = k.type ∧
        (binary op l r).eval.isSome ∧ (op = .commaOpExp → (binary op l r).eval = some 0)) :
    ∃ v, evaluateBinaryOp op (replaced ol) (replaced or) = .ok v ∧
      Folded (binary op l r) (binary op (replaced ol) (replaced or), v) := by
  have hnone : (binary op l r).constantKind = none →
      Folded (binary op l r) (binary op (replaced ol) (replaced or), none) := fun hkind =>
    folded_none hkind rfl (congrArg₂ op.type hl.type hr.type)
      fun v => binary_meaning hl.type hr.type hl.meaning hr.meaning
  unfold evaluateBinaryOp
  cases hlc : (replaced ol).isValueExp with
  | none =>
    refine ⟨none, rfl, hnone ?_⟩
    have hkind := hl.kind
    rw [hlc] at hkind
    rw [constantKind, ← hkind]
    exact ite_self _
  | some a =>
    have hlkind := hl.kind_of_constant hlc
    cases hrc : (replaced or).isValueExp with
    | none =>
      refine ⟨none, rfl, hnone ?_⟩
      have hkind := hr.kind
      rw [hrc] at hkind
      rw [constantKind, hlkind, ← hkind]
      rfl
    | some b =>
      have hrkind := hr.kind_of_constant hrc
      by_cases hkinds : a.kind = b.kind
      · rw [← hkinds] at hrkind
        dsimp only
        rw [if_pos hkinds]
        cases hkind : a.kind.binaryKind with
        | none =>
          exact ⟨none, evaluateValues_of_none hkind,
            hnone ((constantKind_binary hlkind hrkind).trans hkind)⟩
        | some k =>
          obtain ⟨henum, htype, hdefined, hcomma⟩ := hcond a.kind k hlkind hrkind hkind
          obtain ⟨v, hv⟩ := Option.isSome_iff_exists.mp hdefined
          have hltype : l.type = a.kind.type := (hl.type_of_constant hlc).symm
          have hrtype : r.type = a.kind.type := by rw [hkinds, hr.type_of_constant hrc]
          have hop : op.operate a.kind.type a.kind.type a.value b.value = .ok v := by
            rw [eval_binary (hl.constant a hlc) (hr.constant b hrc), hltype, hrtype] at hv
            exact eq_ok_of_toOption hv
          obtain ⟨w, hw, hconvert⟩ := calculate_of_operate (type_of_binaryKind hkind) a.inRange
            (hkinds ▸ b.inRange) (by rw [← htype, hltype, hrtype])
            (fun h => Option.some.inj (hv.symm.trans (hcomma h))) hop
          refine ⟨some (.new k w), ?_, folded_some ?_ htype.symm ?_⟩
          · rw [evaluateValues_of_some hkinds hkind henum, hw]
            rfl
          · exact (constantKind_binary hlkind hrkind).trans hkind
          · rw [hv, ← hconvert]
            rfl
      · refine ⟨none, if_neg hkinds, hnone ?_⟩
        rw [constantKind, hlkind, hrkind, if_neg fun h => hkinds (Option.some.inj h)]

/-- A minus whose operand is folded. -/
theorem folded_minus (hl : Folded l ol)
    (hcond : ∀ kind k, l.constantKind = some kind → kind.minusKind = some k →
      kind ≠ .enumVal ∧ l.type.promote = k.type ∧ (minus l).eval.isSome) :
    ∃ v, evaluateUnaryOp (replaced ol) = .ok v ∧ Folded (minus l) (minus (replaced ol), v) := by
  have hnone : (minus l).constantKind = none → Folded (minus l) (minus (replaced ol), none) :=
    fun hkind => folded_none hkind rfl (congrArg CInteger.promote hl.type)
      fun v => minus_meaning hl.type hl.meaning
  unfold evaluateUnaryOp
  cases hlc : (replaced ol).isValueExp with
  | none =>
    refine ⟨none, rfl, hnone ?_⟩
    rw [constantKind, ← hl.kind, hlc]
    rfl
  | some a =>
    have hconstant : (minus l).constantKind = a.kind.minusKind := by
      rw [constantKind, hl.kind_of_constant hlc]
      rfl
    cases hkind : a.kind.minusKind with
    | none => exact ⟨none, evaluateUnaryValue_of_none hkind, hnone (hconstant.trans hkind)⟩
    | some k =>
      obtain ⟨henum, htype, hdefined⟩ := hcond a.kind k (hl.kind_of_constant hlc) hkind
      obtain ⟨v, hv⟩ := Option.isSome_iff_exists.mp hdefined
      have hresult := hv
      rw [eval_minus (hl.constant a hlc)] at hresult
      obtain ⟨w, hw, hconvert⟩ := calculateMinus_of_result htype (eq_ok_of_toOption hresult)
      refine ⟨some (.new k w), ?_, folded_some (hconstant.trans hkind) htype.symm ?_⟩
      · show evaluateUnaryValue a = _
        rw [evaluateUnaryValue_of_some hkind henum, hw]
        rfl
      · rw [hv, ← hconvert]
        rfl

theorem evaluateConditionalExp_kind (hc : Folded c oc) (ht : Folded t ot) (hf : Folded f of) :
    (evaluateConditionalExp (replaced oc) (replaced ot) (replaced of)).map ValueExp.kind =
      (conditional c t f).constantKind := by
  unfold evaluateConditionalExp
  cases hcc : (replaced oc).isValueExp with
  | none =>
    rw [constantKind, ← hc.kind, hcc]
    rfl
  | some a =>
    simp only [constantKind, hc.kind_of_constant hcc, hc.constant a hcc, Option.some.injEq,
      Option.any_some, ite_not]
    split
    next =>
      split
      next => exact hf.kind
      next => exact ht.kind
    next => rfl

/-- The constant that is chosen has the value, if it has the type. -/
theorem evaluateConditionalExp_eval (hc : Folded c oc) (ht : Folded t ot) (hf : Folded f of)
    {v : ValueExp}
    (hv : evaluateConditionalExp (replaced oc) (replaced ot) (replaced of) = some v)
    (htype : v.kind.type = t.type.common f.type) :
    (conditional c t f).eval = some v.value := by
  have hconvert : some ((t.type.common f.type).convert v.value) = some v.value := by
    rw [← htype, CInteger.convert_of_inRange v.inRange]
  unfold evaluateConditionalExp at hv
  split at hv
  next a hcc =>
    split at hv
    next =>
      rw [eval_conditional (hc.constant a hcc)]
      rw [ite_not] at hv
      split at hv
      next hzero => rw [if_pos hzero, hf.constant v hv, Option.map_some, hconvert]
      next hzero => rw [if_neg hzero, ht.constant v hv, Option.map_some, hconvert]
    next => cases hv
  next => cases hv

/-- A conditional whose three operands are folded. -/
theorem folded_conditional (hc : Folded c oc) (ht : Folded t ot) (hf : Folded f of)
    (hcond : ∀ k, (conditional c t f).constantKind = some k →
      k.type = t.type.common f.type) :
    Folded (conditional c t f) (conditional (replaced oc) (replaced ot) (replaced of),
      evaluateConditionalExp (replaced oc) (replaced ot) (replaced of)) := by
  have hkind := evaluateConditionalExp_kind hc ht hf
  cases hnew : evaluateConditionalExp (replaced oc) (replaced ot) (replaced of) with
  | none =>
    rw [hnew] at hkind
    exact folded_none hkind.symm rfl (congrArg₂ CInteger.common ht.type hf.type)
      fun v => conditional_meaning ht.type hf.type hc.meaning ht.meaning hf.meaning
  | some v =>
    rw [hnew] at hkind
    have htype := hcond v.kind hkind.symm
    exact folded_some hkind.symm htype (evaluateConditionalExp_eval hc ht hf hnew htype)

/-- The traversal of an expression that meets the condition. -/
theorem traverse_folded (h : e.Foldable) : ∃ out, traverse e = .ok out ∧ Folded e out := by
  induction e with
  | value v =>
    refine ⟨_, rfl, rfl, fun c hc => ?_, rfl, fun _ h => h⟩
    obtain rfl := Option.some.inj hc
    rfl
  | binary op l r ihl ihr =>
    obtain ⟨hl, hr, hcond⟩ := h
    obtain ⟨ol, hol, hfl⟩ := ihl hl
    obtain ⟨or, hor, hfr⟩ := ihr hr
    obtain ⟨v, hv, hfolded⟩ := folded_binary hfl hfr hcond
    exact ⟨_, traverse_binary hol hor hv, hfolded⟩
  | minus l ihl =>
    obtain ⟨hl, hcond⟩ := h
    obtain ⟨ol, hol, hfl⟩ := ihl hl
    obtain ⟨v, hv, hfolded⟩ := folded_minus hfl hcond
    exact ⟨_, traverse_minus hol hv, hfolded⟩
  | conditional c t f ihc iht ihf =>
    obtain ⟨hc, ht, hf, hcond⟩ := h
    obtain ⟨oc, hoc, hfc⟩ := ihc hc
    obtain ⟨ot, hot, hft⟩ := iht ht
    obtain ⟨of, hof, hff⟩ := ihf hf
    exact ⟨_, traverse_conditional hoc hot hof, folded_conditional hfc hft hff hcond⟩

theorem mem_subexpressions_self (e : Expression) : e ∈ e.subexpressions := by
  cases e <;> exact List.mem_cons_self

theorem Foldable.of_mem {s : Expression} (h : e.Foldable) (hs : s ∈ e.subexpressions) :
    s.Foldable := by
  induction e with
  | value v =>
    obtain rfl := List.mem_singleton.mp hs
    exact h
  | binary op l r ihl ihr =>
    obtain rfl | hs := List.mem_cons.mp hs
    · exact h
    · exact (List.mem_append.mp hs).elim (ihl h.1) (ihr h.2.1)
  | minus l ihl =>
    obtain rfl | hs := List.mem_cons.mp hs
    · exact h
    · exact ihl h.1 hs
  | conditional c t f ihc iht ihf =>
    obtain rfl | hs := List.mem_cons.mp hs
    · exact h
    · refine (List.mem_append.mp hs).elim (ihc h.1) fun hs => ?_
      exact (List.mem_append.mp hs).elim (iht h.2.1) (ihf h.2.2.1)

theorem Foldable.preserved (h : e.Foldable) : Preserved e where
  ends := by
    obtain ⟨out, hout, -⟩ := traverse_folded h
    exact ⟨out, hout⟩
  exact := by
    intro s hs s' c hs'
    obtain ⟨out, hout, hfolded⟩ := traverse_folded (h.of_mem hs)
    obtain rfl := Except.ok.inj (hout.symm.trans hs')
    exact hfolded.of_newValueExp

theorem bind_eq_ok {α β : Type} {m : Except Fault α} {next : α → Except Fault β} {b : β}
    (h : m >>= next = .ok b) : ∃ a, m = .ok a ∧ next a = .ok b := by
  cases m with
  | error => cases h
  | ok a => exact ⟨a, rfl, h⟩

theorem traverse_binary_eq_ok (h : traverse (binary op l r) = .ok out) :
    ∃ ol or v, traverse l = .ok ol ∧ traverse r = .ok or ∧
      evaluateBinaryOp op (replaced ol) (replaced or) = .ok v ∧ out.2 = v := by
  obtain ⟨ol, hl, h⟩ := bind_eq_ok h
  obtain ⟨or, hr, h⟩ := bind_eq_ok h
  obtain ⟨v, hv, h⟩ := bind_eq_ok h
  obtain rfl := Except.ok.inj h
  exact ⟨ol, or, v, hl, hr, hv, rfl⟩

theorem traverse_minus_eq_ok (h : traverse (minus l) = .ok out) :
    ∃ ol v, traverse l = .ok ol ∧ evaluateUnaryOp (replaced ol) = .ok v ∧ out.2 = v := by
  obtain ⟨ol, hl, h⟩ := bind_eq_ok h
  obtain ⟨v, hv, h⟩ := bind_eq_ok h
  obtain rfl := Except.ok.inj h
  exact ⟨ol, v, hl, hv, rfl⟩

theorem traverse_conditional_eq_ok (h : traverse (conditional c t f) = .ok out) :
    ∃ oc ot of, traverse c = .ok oc ∧ traverse t = .ok ot ∧ traverse f = .ok of ∧
      out.2 = evaluateConditionalExp (replaced oc) (replaced ot) (replaced of) := by
  obtain ⟨oc, hc, h⟩ := bind_eq_ok h
  obtain ⟨ot, ht, h⟩ := bind_eq_ok h
  obtain ⟨of, hf, h⟩ := bind_eq_ok h
  obtain rfl := Except.ok.inj h
  exact ⟨oc, ot, of, hc, ht, hf, rfl⟩

theorem Preserved.newValueExp (h : Preserved e) {v : ValueExp} (hout : traverse e = .ok out)
    (hv : out.2 = some v) : v.kind.type = e.type ∧ e.eval = some v.value := by
  obtain ⟨e', _⟩ := out
  obtain rfl : _ = some v := hv
  exact h.exact e (mem_subexpressions_self e) e' v hout

/-- What is asked of a binary operator whose operands are folded. -/
theorem Preserved.binary (h : Preserved (binary op l r)) (hl : l.Foldable) (hr : r.Foldable)
    {kind k : ValueKind} (hlk : l.constantKind = some kind) (hrk : r.constantKind = some kind)
    (hkind : kind.binaryKind = some k) :
    kind ≠ .enumVal ∧ op.type l.type r.type = k.type ∧ (Expression.binary op l r).eval.isSome ∧
      (op = .commaOpExp → (Expression.binary op l r).eval = some 0) := by
  obtain ⟨out, hout⟩ := h.ends
  obtain ⟨ol, or, v, hol, hor, hv, hnew⟩ := traverse_binary_eq_ok hout
  obtain ⟨_, hol', hfl⟩ := traverse_folded hl
  obtain rfl := Except.ok.inj (hol'.symm.trans hol)
  obtain ⟨_, hor', hfr⟩ := traverse_folded hr
  obtain rfl := Except.ok.inj (hor'.symm.trans hor)
  obtain ⟨a, ha, rfl⟩ := hfl.exists_constant hlk
  obtain ⟨b, hb, hkinds⟩ := hfr.exists_constant hrk
  have hvalues : evaluateValues op a b = .ok v := by
    unfold evaluateBinaryOp at hv
    rw [ha, hb] at hv
    dsimp only at hv
    rw [if_pos hkinds.symm] at hv
    exact hv
  have henum : a.kind ≠ .enumVal := by
    intro henum
    rw [evaluateValues_of_enum henum] at hvalues
    cases hvalues
  rw [evaluateValues_of_some hkinds.symm hkind henum] at hvalues
  obtain ⟨w, hw, rfl⟩ := build_eq_ok hvalues
  obtain ⟨htype, heval⟩ := h.newValueExp hout hnew
  refine ⟨henum, htype.symm, by rw [heval]; rfl, ?_⟩
  rintro rfl
  obtain rfl := Except.ok.inj hw
  rw [heval]
  exact congrArg some (CInteger.convert_of_inRange (inRange_truth k.type False))

theorem Preserved.minus (h : Preserved (minus l)) (hl : l.Foldable) {kind k : ValueKind}
    (hlk : l.constantKind = some kind) (hkind : kind.minusKind = some k) :
    kind ≠ .enumVal ∧ l.type.promote = k.type ∧ (Expression.minus l).eval.isSome := by
  obtain ⟨out, hout⟩ := h.ends
  obtain ⟨ol, v, hol, hv, hnew⟩ := traverse_minus_eq_ok hout
  obtain ⟨_, hol', hfl⟩ := traverse_folded hl
  obtain rfl := Except.ok.inj (hol'.symm.trans hol)
  obtain ⟨a, ha, rfl⟩ := hfl.exists_constant hlk
  have hvalue : evaluateUnaryValue a = .ok v := by
    unfold evaluateUnaryOp at hv
    rw [ha] at hv
    exact hv
  have henum : a.kind ≠ .enumVal := by
    intro henum
    rw [evaluateUnaryValue_of_enum henum] at hvalue
    cases hvalue
  rw [evaluateUnaryValue_of_some hkind henum] at hvalue
  obtain ⟨w, hw, rfl⟩ := build_eq_ok hvalue
  obtain ⟨htype, heval⟩ := h.newValueExp hout hnew
  exact ⟨henum, htype.symm, by rw [heval]; rfl⟩

theorem Preserved.conditional (h : Preserved (conditional c t f)) (hc : c.Foldable)
    (ht : t.Foldable) (hf : f.Foldable) {k : ValueKind}
    (hkind : (Expression.conditional c t f).constantKind = some k) :
    k.type = t.type.common f.type := by
  obtain ⟨out, hout⟩ := h.ends
  obtain ⟨oc, ot, of, hoc, hot, hof, hnew⟩ := traverse_conditional_eq_ok hout
  obtain ⟨_, hoc', hfc⟩ := traverse_folded hc
  obtain rfl := Except.ok.inj (hoc'.symm.trans hoc)
  obtain ⟨_, hot', hft⟩ := traverse_folded ht
  obtain rfl := Except.ok.inj (hot'.symm.trans hot)
  obtain ⟨_, hof', hff⟩ := traverse_folded hf
  obtain rfl := Except.ok.inj (hof'.symm.trans hof)
  rw [← evaluateConditionalExp_kind hfc hft hff, ← hnew] at hkind
  obtain ⟨v, hv, rfl⟩ := Option.map_eq_some_iff.mp hkind
  exact (h.newValueExp hout hv).1

/-- A subexpression is preserved too, if its traversal ends. -/
theorem Preserved.of_subset {s : Expression} (h : Preserved e)
    (hsub : s.subexpressions ⊆ e.subexpressions) (hends : ∃ out, traverse s = .ok out) :
    Preserved s :=
  ⟨hends, fun s' hs' => h.exact s' (hsub hs')⟩

theorem Preserved.foldable (h : Preserved e) : e.Foldable := by
  induction e with
  | value v => trivial
  | binary op l r ihl ihr =>
    obtain ⟨out, hout⟩ := h.ends
    obtain ⟨ol, or, v, hol, hor, -⟩ := traverse_binary_eq_ok hout
    have hl := ihl (h.of_subset (List.subset_cons_of_subset _ (List.subset_append_left _ _))
      ⟨ol, hol⟩)
    have hr := ihr (h.of_subset (List.subset_cons_of_subset _ (List.subset_append_right _ _))
      ⟨or, hor⟩)
    exact ⟨hl, hr, fun kind k => h.binary hl hr⟩
  | minus l ihl =>
    obtain ⟨out, hout⟩ := h.ends
    obtain ⟨ol, v, hol, -⟩ := traverse_minus_eq_ok hout
    have hl := ihl (h.of_subset (List.subset_cons_self _ _) ⟨ol, hol⟩)
    exact ⟨hl, fun kind k => h.minus hl⟩
  | conditional c t f ihc iht ihf =>
    obtain ⟨out, hout⟩ := h.ends
    obtain ⟨oc, ot, of, hoc, hot, hof, -⟩ := traverse_conditional_eq_ok hout
    have hbranches : t.subexpressions ++ f.subexpressions ⊆
        (Expression.conditional c t f).subexpressions :=
      List.subset_cons_of_subset _ (List.subset_append_right _ _)
    have hc := ihc (h.of_subset (List.subset_cons_of_subset _ (List.subset_append_left _ _))
      ⟨oc, hoc⟩)
    have ht := iht (h.of_subset (List.Subset.trans (List.subset_append_left _ _) hbranches)
      ⟨ot, hot⟩)
    have hf := ihf (h.of_subset (List.Subset.trans (List.subset_append_right _ _) hbranches)
      ⟨of, hof⟩)
    exact ⟨hc, ht, hf, fun k => h.conditional hc ht hf⟩

end

/-- Folding keeps the meaning of C, and its own arithmetic is defined, exactly where every operator
it evaluates is defined in C, has the type in C of what is built and, if it is a comma, is zero. -/
theorem preserved_iff (e : Expression) : Preserved e ↔ e.Foldable :=
  ⟨Preserved.foldable, Foldable.preserved⟩

/-- `1, 2` is folded to zero, the sum of two characters to a character, and the division by zero
of `0 && 1 / 0`, which C does not evaluate, is carried out. -/
theorem comma_characters_division :
    let one := value (.new .intVal 1)
    let comma := binary .commaOpExp one (value (.new .intVal 2))
    let characters := binary .addOp (value (.new .charVal 100)) (value (.new .charVal 100))
    let division := binary .andOp (value (.new .intVal 0))
      (binary .divideOp one (value (.new .intVal 0)))
    (comma.eval = some 2 ∧ traverse comma = .ok (comma, some (.new .intVal 0))) ∧
      (characters.type = .int ∧ characters.eval = some 200 ∧
        traverse characters = .ok (characters, some (.new .charVal (-56)))) ∧
      division.eval = some 0 ∧ traverse division = .error (.undefined .divideByZero) :=
  ⟨⟨rfl, rfl⟩, ⟨rfl, rfl, rfl⟩, rfl, rfl⟩

end Expression

end ConstantFolding

end LoomX
