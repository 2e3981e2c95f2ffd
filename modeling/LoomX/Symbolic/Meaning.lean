import Mathlib.Algebra.BigOperators.Group.List.Lemmas
import LoomX.Symbolic.SimplifyTop

namespace LoomX.Symbolic

/-- One list of operands stands for another wherever it occurs among the operands. -/
def Same (op : Operator) (w : Nat) (vals vals' : List BitVector) : Prop :=
  ∀ before after, BitVector.fromInteger w (op.total w (before ++ vals ++ after)) =
    BitVector.fromInteger w (op.total w (before ++ vals' ++ after))

namespace Same

variable {op : Operator} {w : Nat} {vals vals' : List BitVector}

theorem refl (vals : List BitVector) : Same op w vals vals := fun _ _ => rfl

theorem trans {vals'' : List BitVector} (h : Same op w vals vals')
    (h' : Same op w vals' vals'') : Same op w vals vals'' :=
  fun before after => (h before after).trans (h' before after)

theorem append {others others' : List BitVector} (h : Same op w vals vals')
    (h' : Same op w others others') : Same op w (vals ++ others) (vals' ++ others') := by
  intro before after
  have hleft := h before (others ++ after)
  have hright := h' (before ++ vals') after
  simp only [List.append_assoc] at hleft hright ⊢
  rw [hleft, hright]

end Same

theorem fromInteger_eq_iff {w m n : Nat} :
    BitVector.fromInteger w m = .fromInteger w n ↔ m % 2 ^ w = n % 2 ^ w := by
  simp [BitVector.ext_iff]

section

variable {w : Nat} {vals vals' : List BitVector}

theorem same_add (h : (vals.map BitVector.value).sum % 2 ^ w = (vals'.map BitVector.value).sum % 2 ^ w) :
    Same .add w vals vals' := by
  intro before after
  rw [fromInteger_eq_iff]
  simp only [Operator.total, List.map_append, List.sum_append]
  have hmod : Nat.ModEq (2 ^ w) (vals.map BitVector.value).sum (vals'.map BitVector.value).sum := h
  exact (hmod.add_left _).add_right _

theorem same_umul (h : (vals.map BitVector.value).prod = (vals'.map BitVector.value).prod) :
    Same .umul w vals vals' := by
  intro before after
  simp only [Operator.total, List.map_append, List.prod_append, h]

theorem same_smul (h : (vals.map BitVector.toInt).prod = (vals'.map BitVector.toInt).prod) :
    Same .smul w vals vals' := by
  intro before after
  simp only [Operator.total, List.map_append, List.prod_append, h]

theorem testBit_foldr_and (l : List Nat) (m i : Nat) :
    (l.foldr (· &&& ·) m).testBit i = (l.all (·.testBit i) && m.testBit i) := by
  induction l with
  | nil => simp
  | cons a l ih => simp only [List.foldr_cons, Nat.testBit_and, ih, List.all_cons, Bool.and_assoc]

theorem testBit_foldr_or (l : List Nat) (i : Nat) :
    (l.foldr (· ||| ·) 0).testBit i = l.any (·.testBit i) := by
  induction l with
  | nil => simp
  | cons a l ih => simp only [List.foldr_cons, Nat.testBit_or, ih, List.any_cons]

theorem fromInteger_eq_of_testBit {m n : Nat} (h : ∀ i < w, m.testBit i = n.testBit i) :
    BitVector.fromInteger w m = .fromInteger w n := by
  rw [fromInteger_eq_iff]
  apply Nat.eq_of_testBit_eq
  intro i
  simp only [Nat.testBit_mod_two_pow]
  by_cases hi : i < w
  · rw [h i hi]
  · simp [hi]

/-- The bits that all operands have decide a conjunction. -/
theorem same_and (h : ∀ i < w, (∀ v ∈ vals, v.value.testBit i = true) ↔
    ∀ v ∈ vals', v.value.testBit i = true) : Same .and w vals vals' := by
  intro before after
  apply fromInteger_eq_of_testBit
  intro i hi
  simp only [Operator.total, testBit_foldr_and, List.map_append, List.all_append]
  have hall : (vals.map BitVector.value).all (·.testBit i) =
      (vals'.map BitVector.value).all (·.testBit i) := by
    rw [Bool.eq_iff_iff]
    simpa using h i hi
  rw [hall]

theorem same_or (h : ∀ i < w, (∃ v ∈ vals, v.value.testBit i = true) ↔
    ∃ v ∈ vals', v.value.testBit i = true) : Same .or w vals vals' := by
  intro before after
  apply fromInteger_eq_of_testBit
  intro i hi
  simp only [Operator.total, testBit_foldr_or, List.map_append, List.any_append]
  have hany : (vals.map BitVector.value).any (·.testBit i) =
      (vals'.map BitVector.value).any (·.testBit i) := by
    rw [Bool.eq_iff_iff]
    simpa using h i hi
  rw [hany]

theorem foldr_xor_append (l l' : List Nat) :
    (l ++ l').foldr (· ^^^ ·) 0 = l.foldr (· ^^^ ·) 0 ^^^ l'.foldr (· ^^^ ·) 0 := by
  induction l with
  | nil => simp
  | cons a l ih => simp only [List.cons_append, List.foldr_cons, ih, Nat.xor_assoc]

theorem same_xor (h : Operator.xor.total w vals = Operator.xor.total w vals') :
    Same .xor w vals vals' := by
  intro before after
  simp only [Operator.total, List.map_append, foldr_xor_append] at h ⊢
  rw [h]

end

/-- The operators that take any number of operands in any order. -/
def Operator.IsNary : Operator → Prop
  | add | and | or | xor | umul | smul => True
  | _ => False

theorem meaning_of_isNary {op : Operator} (hop : op.IsNary)
    (other : Nat → Nat → List BitVector → Nat) (w : Nat) (vals : List BitVector) :
    op.meaning other w vals = .fromInteger w (op.total w vals) := by
  cases op <;> first | rfl | exact hop.elim

/-- The operators whose width is the sum of the widths of the operands. -/
def Operator.multiplies : Operator → Bool
  | umul | smul => true
  | _ => false

/-- The widths that the operands of an n-ary operator of width `w` have. -/
def Operator.Fits (op : Operator) (w : Nat) (sizes : List Nat) : Prop :=
  if op.multiplies then sizes.sum = w else ∀ s ∈ sizes, s = w

theorem foldr_xor_lt {w : Nat} {l : List Nat} (h : ∀ n ∈ l, n < 2 ^ w) :
    l.foldr (· ^^^ ·) 0 < 2 ^ w := by
  induction l with
  | nil => exact Nat.two_pow_pos w
  | cons a l ih =>
    exact Nat.xor_lt_two_pow (h a List.mem_cons_self)
      (ih fun n hn => h n (List.mem_cons_of_mem a hn))

theorem prod_value_lt {vals : List BitVector} (hne : vals ≠ []) :
    (vals.map BitVector.value).prod < 2 ^ (vals.map BitVector.size).sum := by
  induction vals with
  | nil => exact absurd rfl hne
  | cons a vals ih =>
    cases vals with
    | nil => simpa using a.isLt
    | cons b vals =>
      have hlt := Nat.mul_lt_mul'' a.isLt (ih (List.cons_ne_nil b vals))
      rw [← Nat.pow_add] at hlt
      exact hlt

theorem natAbs_toInt_le (a : BitVector) (h : 0 < a.size) : a.toInt.natAbs ≤ 2 ^ (a.size - 1) := by
  obtain ⟨hlo, hhi⟩ := a.toInt_bounds h
  have hcast : ((2 ^ (a.size - 1) : Nat) : Int) = 2 ^ (a.size - 1) := by push_cast; rfl
  omega

theorem natAbs_prod_le {vals : List BitVector} (hpos : ∀ v ∈ vals, 0 < v.size) :
    (vals.map BitVector.toInt).prod.natAbs * 2 ^ vals.length ≤ 2 ^ (vals.map BitVector.size).sum := by
  induction vals with
  | nil => simp
  | cons a vals ih =>
    have ha := natAbs_toInt_le a (hpos a List.mem_cons_self)
    have hvals := ih fun v hv => hpos v (List.mem_cons_of_mem a hv)
    have hsize : 2 ^ (a.size - 1) * 2 = 2 ^ a.size := by
      rw [← Nat.pow_succ, Nat.succ_eq_add_one, Nat.sub_add_cancel (hpos a List.mem_cons_self)]
    simp only [List.map_cons, List.prod_cons, List.sum_cons, List.length_cons, Int.natAbs_mul]
    calc a.toInt.natAbs * (vals.map BitVector.toInt).prod.natAbs * 2 ^ (vals.length + 1)
        = (a.toInt.natAbs * 2) * ((vals.map BitVector.toInt).prod.natAbs * 2 ^ vals.length) := by
          rw [Nat.pow_succ]; ac_rfl
      _ ≤ 2 ^ a.size * 2 ^ (vals.map BitVector.size).sum := by
          apply Nat.mul_le_mul _ hvals
          omega
      _ = 2 ^ (a.size + (vals.map BitVector.size).sum) := (Nat.pow_add _ _ _).symm

/-- A product of signed operands fits in the sum of their widths. -/
theorem prod_toInt_bounds {vals : List BitVector} (hne : vals ≠ [])
    (hpos : ∀ v ∈ vals, 0 < v.size) :
    -(2 ^ ((vals.map BitVector.size).sum - 1)) ≤ (vals.map BitVector.toInt).prod ∧
      (vals.map BitVector.toInt).prod < 2 ^ ((vals.map BitVector.size).sum - 1) := by
  match vals, hne with
  | [a], _ => simpa using a.toInt_bounds (hpos a List.mem_cons_self)
  | a :: b :: rest, _ =>
    have hbound := natAbs_prod_le hpos
    have hsum : 0 < ((a :: b :: rest).map BitVector.size).sum := by
      have ha := hpos a List.mem_cons_self
      simp only [List.map_cons, List.sum_cons]
      omega
    obtain ⟨k, hk⟩ : ∃ k, ((a :: b :: rest).map BitVector.size).sum = k + 1 :=
      ⟨((a :: b :: rest).map BitVector.size).sum - 1, by omega⟩
    rw [hk] at hbound ⊢
    rw [Nat.add_sub_cancel]
    generalize ((a :: b :: rest).map BitVector.toInt).prod = p at hbound ⊢
    have hlen : p.natAbs * 4 ≤ p.natAbs * 2 ^ (a :: b :: rest).length := by
      apply Nat.mul_le_mul_left
      simp only [List.length_cons, Nat.pow_succ]
      have hpow := Nat.two_pow_pos rest.length
      omega
    have hpow := Nat.two_pow_pos k
    rw [Nat.pow_succ] at hbound
    have hcast : ((2 ^ k : Nat) : Int) = 2 ^ k := by push_cast; rfl
    omega

/-- A nested operation of the same operator stands for its operands. -/
theorem Same.nest {op : Operator} (hop : op.IsNary) {w w' : Nat} {inner : List BitVector}
    (hne : inner ≠ []) (hpos : ∀ v ∈ inner, 0 < v.size)
    (hfits : op.Fits w' (inner.map BitVector.size)) (hw : op.multiplies = false → w' = w) :
    Same op w [.fromInteger w' (op.total w' inner)] inner := by
  cases op with
  | add =>
    cases hw rfl
    apply same_add
    simp [Operator.total]
  | and =>
    cases hw rfl
    refine same_and fun i hi => ?_
    simp [Operator.total, testBit_foldr_and, hi, Nat.testBit_mod_two_pow]
  | or =>
    cases hw rfl
    refine same_or fun i hi => ?_
    simp [Operator.total, testBit_foldr_or, hi, Nat.testBit_mod_two_pow]
  | xor =>
    cases hw rfl
    apply same_xor
    have hlt : Operator.xor.total w inner < 2 ^ w := by
      apply foldr_xor_lt
      intro n hn
      obtain ⟨v, hv, rfl⟩ := List.mem_map.mp hn
      have hsize : v.size = w := hfits v.size (List.mem_map.mpr ⟨v, hv, rfl⟩)
      rw [← hsize]
      exact v.isLt
    simpa [Operator.total] using Nat.mod_eq_of_lt hlt
  | umul =>
    apply same_umul
    have hsum : (inner.map BitVector.size).sum = w' := hfits
    have hlt := prod_value_lt hne
    rw [hsum] at hlt
    simpa [Operator.total] using Nat.mod_eq_of_lt hlt
  | smul =>
    apply same_smul
    have hsum : (inner.map BitVector.size).sum = w' := hfits
    obtain ⟨hlo, hhi⟩ := prod_toInt_bounds hne hpos
    rw [hsum] at hlo hhi
    have hw' : 0 < w' := by
      obtain ⟨a, rest, rfl⟩ := List.exists_cons_of_ne_nil hne
      have ha := hpos a List.mem_cons_self
      simp only [List.map_cons, List.sum_cons] at hsum
      omega
    have hread := BitVector.toInt_fromSigned hw' hlo hhi
    simpa [Operator.total, BitVector.fromSigned] using hread
  | _ => exact hop.elim

theorem same_zero {op : Operator} (hop : op = .add ∨ op = .or ∨ op = .xor) {w : Nat}
    {a : BitVector} (ha : a.value = 0) : Same op w [a] [] := by
  rcases hop with rfl | rfl | rfl
  · exact same_add (by simp [ha])
  · exact same_or fun i _ => by simp [ha]
  · exact same_xor (by simp [Operator.total, ha])

theorem same_ones {w : Nat} {a : BitVector} (ha : a.value = 2 ^ w - 1) : Same .and w [a] [] :=
  same_and fun i hi => by simp [ha, Nat.testBit_two_pow_sub_one, hi]

/-- The operation that a `fold` applies to its accumulator. -/
def Operator.step : Operator → BitVector → BitVector → BitVector
  | add => .add
  | and => .bitwiseAnd
  | or => .bitwiseOr
  | xor => .bitwiseXor
  | umul => .multiply
  | smul => .multiplySigned
  | _ => fun a _ => a

/-- The widths that one operand of an n-ary operator of width `w` can have. -/
def Operator.FitsOne (op : Operator) (w : Nat) (a : BitVector) : Prop :=
  0 < a.size ∧ (op.multiplies = false → a.size = w)

theorem step_size {op : Operator} {w : Nat} {a b : BitVector} (ha : op.FitsOne w a) :
    (op.step a b).size = if op.multiplies then a.size + b.size else a.size := by
  cases op <;> rfl

theorem step_eq {op : Operator} (hop : op.IsNary) {w : Nat} {a b : BitVector}
    (ha : op.FitsOne w a) (hb : op.FitsOne w b) :
    op.step a b = .fromInteger (op.step a b).size (op.total (op.step a b).size [a, b]) := by
  cases op with
  | add => simp [Operator.step, Operator.total, BitVector.add]
  | and =>
    have hsize : b.size = a.size := (hb.2 rfl).trans (ha.2 rfl).symm
    have hlt : b.value < 2 ^ a.size := by
      rw [← hsize]
      exact b.isLt
    simp [Operator.step, Operator.total, BitVector.bitwiseAnd, Nat.mod_eq_of_lt hlt]
  | or => simp [Operator.step, Operator.total, BitVector.bitwiseOr]
  | xor => simp [Operator.step, Operator.total, BitVector.bitwiseXor]
  | umul => simp [Operator.step, Operator.total, BitVector.multiply]
  | smul => simp [Operator.step, Operator.total, BitVector.multiplySigned, BitVector.fromSigned]
  | _ => exact hop.elim

theorem Same.step {op : Operator} (hop : op.IsNary) {w : Nat} {a b : BitVector}
    (ha : op.FitsOne w a) (hb : op.FitsOne w b) : Same op w [op.step a b] [a, b] := by
  have hsize := step_size (b := b) ha
  rw [step_eq hop ha hb]
  apply Same.nest hop (by simp)
  · intro v hv
    rcases List.mem_pair.mp hv with rfl | rfl
    · exact ha.1
    · exact hb.1
  · unfold Operator.Fits
    rw [hsize]
    split
    next => simp
    next hmul =>
      have hmul' : op.multiplies = false := by simpa using hmul
      simp [ha.2 hmul', hb.2 hmul']
  · intro hmul
    rw [hsize, hmul]
    exact ha.2 hmul

theorem fitsOne_step {op : Operator} {w : Nat} {a b : BitVector} (ha : op.FitsOne w a) :
    op.FitsOne w (op.step a b) := by
  have hpos := ha.1
  have hsize := step_size (b := b) ha
  refine ⟨?_, fun hmul => ?_⟩
  · rw [hsize]
    split <;> omega
  · rw [hsize, hmul]
    exact ha.2 hmul

theorem Same.foldl {op : Operator} (hop : op.IsNary) {w : Nat} {a : BitVector}
    {vals : List BitVector} (ha : op.FitsOne w a) (hvals : ∀ v ∈ vals, op.FitsOne w v) :
    Same op w [vals.foldl op.step a] (a :: vals) := by
  induction vals generalizing a with
  | nil => exact Same.refl _
  | cons b vals ih =>
    have hb := hvals b List.mem_cons_self
    have hrest := ih (fitsOne_step (b := b) ha) fun v hv => hvals v (List.mem_cons_of_mem b hv)
    exact hrest.trans ((Same.step hop ha hb).append (Same.refl vals))

theorem foldl_step_size {op : Operator} {w : Nat} {a : BitVector} {vals : List BitVector}
    (ha : op.FitsOne w a) (hvals : ∀ v ∈ vals, op.FitsOne w v) :
    (vals.foldl op.step a).size =
      if op.multiplies then ((a :: vals).map BitVector.size).sum else w := by
  induction vals generalizing a with
  | nil =>
    split
    next => simp
    next hmul => exact ha.2 (by simpa using hmul)
  | cons b vals ih =>
    rw [List.foldl_cons, ih (fitsOne_step ha) fun v hv => hvals v (List.mem_cons_of_mem b hv)]
    have hsize := step_size (b := b) ha
    split
    next hmul =>
      rw [hmul] at hsize
      simp only [List.map_cons, List.sum_cons, hsize]
      simp only [if_true]
      omega
    next => rfl

/-- What the `fold` of an n-ary operator makes of a run of constants. -/
structure Folds (op : Operator) (fold : List BitVector → BitVector) : Prop where
  same : ∀ {w vals}, vals ≠ [] → (∀ v ∈ vals, op.FitsOne w v) → Same op w [fold vals] vals
  size : ∀ {w vals}, vals ≠ [] → (∀ v ∈ vals, op.FitsOne w v) →
    (fold vals).size = if op.multiplies then (vals.map BitVector.size).sum else w

theorem folds_accumulateFrom (op : Operator) (hop : op.IsNary) :
    Folds op (accumulateFrom op.step) := by
  refine ⟨fun {w vals} hne hvals => ?_, fun {w vals} hne hvals => ?_⟩
  all_goals
    obtain ⟨a, rest, rfl⟩ := List.exists_cons_of_ne_nil hne
    have ha := hvals a List.mem_cons_self
    have hrest : ∀ v ∈ rest, op.FitsOne w v := fun v hv => hvals v (List.mem_cons_of_mem a hv)
  · exact Same.foldl hop ha hrest
  · exact foldl_step_size ha hrest

/-- A `fold` may start from a vector of the first operand's width that changes nothing. -/
theorem folds_accumulate (op : Operator) (hop : op.IsNary) (hmul : op.multiplies = false)
    {start : BitVector → BitVector} (hsize : ∀ b, (start b).size = b.size)
    (hunit : ∀ b, Same op b.size [start b] []) : Folds op (accumulate start op.step) := by
  refine ⟨fun {w vals} hne hvals => ?_, fun {w vals} hne hvals => ?_⟩
  all_goals
    obtain ⟨a, rest, rfl⟩ := List.exists_cons_of_ne_nil hne
    have ha := hvals a List.mem_cons_self
    have hstart : op.FitsOne w (start a) := by
      refine ⟨?_, fun hmul => ?_⟩
      · rw [hsize]
        exact ha.1
      · rw [hsize]
        exact ha.2 hmul
  · have hunit' := hunit a
    rw [ha.2 hmul] at hunit'
    exact (Same.foldl hop hstart hvals).trans (hunit'.append (Same.refl (a :: rest)))
  · have hfold := foldl_step_size hstart hvals
    rw [hmul] at hfold ⊢
    exact hfold

theorem folds_addFold : Folds .add addFold :=
  folds_accumulate .add trivial rfl (fun _ => rfl) fun _ => same_zero (Or.inl rfl) (by simp)

theorem folds_andFold : Folds .and andFold :=
  folds_accumulate .and trivial rfl (fun _ => rfl) fun _ => same_ones
    (BitVector.fromInteger_value_of_lt (Nat.sub_lt (Nat.two_pow_pos _) one_pos))

theorem folds_orFold : Folds .or orFold :=
  folds_accumulate .or trivial rfl (fun _ => rfl) fun _ => same_zero (Or.inr (Or.inl rfl)) (by simp)

theorem folds_xorFold : Folds .xor xorFold := folds_accumulateFrom .xor trivial

theorem folds_umulFold : Folds .umul umulFold := folds_accumulateFrom .umul trivial

theorem folds_smulFold : Folds .smul smulFold := folds_accumulateFrom .smul trivial

end LoomX.Symbolic
