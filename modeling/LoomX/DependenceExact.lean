import Mathlib.Data.List.Infix
import Mathlib.Data.List.Zip
import LoomX.AccessCollection
import LoomX.Canonical

namespace LoomX

def outerArray (loop : ForStatement) (v : Var) : Bool := !isDeclaredInsideLoopBody v loop

/-- The forms that the extraction combines. -/
inductive Combines : BinOp → Int × Int → Int × Int → Int × Int → Prop
  | add (c k c' k' : Int) : Combines .add (c, k) (c', k') (c + c', k + k')
  | sub (c k c' k' : Int) : Combines .sub (c, k) (c', k') (c - c', k - k')
  | constants (k k' : Int) : Combines .mul (0, k) (0, k') (0, k * k')
  | multiple (k : Int) : Combines .mul (0, k) (1, 0) (k, 0)
  | times (k' : Int) : Combines .mul (1, 0) (0, k') (k', 0)

/-- `+`, `-` and `*` over the integers. -/
def BinOp.linear : BinOp → Int → Int → Int
  | add, n, m => n + m
  | sub, n, m => n - m
  | mul, n, m => n * m
  | _, _, _ => 0

theorem Combines.value {op : BinOp} {c k c' k' d l : Int}
    (h : Combines op (c, k) (c', k') (d, l)) (x : Int) :
    op.linear (c * x + k) (c' * x + k') = d * x + l := by
  cases h <;> simp only [BinOp.linear] <;> ring

theorem extractAffineSubscript_minus {known : List Var} {i : Var} {e : Expr} {c k : Int}
    (h : extractAffineSubscript known i (.unary .minus e) = some (c, k)) :
    ∃ c' k', extractAffineSubscript known i e = some (c', k') ∧ c = -c' ∧ k = -k' := by
  simp only [extractAffineSubscript] at h
  obtain ⟨⟨c', k'⟩, he, h⟩ := Option.bind_eq_some_iff.mp h
  obtain ⟨d, hd, h⟩ := Option.bind_eq_some_iff.mp h
  obtain ⟨l, hl, h⟩ := Option.bind_eq_some_iff.mp h
  cases Option.some.inj h
  exact ⟨c', k', he, (checked_eq_some.mp hd).2.symm, (checked_eq_some.mp hl).2.symm⟩

theorem extractAffineSubscript_binary {known : List Var} {i : Var} {op : BinOp} {a b : Expr}
    {c k : Int} (h : extractAffineSubscript known i (.binary op a b) = some (c, k)) :
    ∃ c₁ k₁ c₂ k₂, extractAffineSubscript known i a = some (c₁, k₁) ∧
      extractAffineSubscript known i b = some (c₂, k₂) ∧
      Combines op (c₁, k₁) (c₂, k₂) (c, k) := by
  simp only [extractAffineSubscript] at h
  obtain ⟨⟨c₁, k₁⟩, ha, h⟩ := Option.bind_eq_some_iff.mp h
  obtain ⟨⟨c₂, k₂⟩, hb, h⟩ := Option.bind_eq_some_iff.mp h
  refine ⟨c₁, k₁, c₂, k₂, ha, hb, ?_⟩
  cases op with
  | add | sub =>
    obtain ⟨d, hd, h⟩ := Option.bind_eq_some_iff.mp h
    obtain ⟨l, hl, h⟩ := Option.bind_eq_some_iff.mp h
    cases Option.some.inj h
    rw [← (checked_eq_some.mp hd).2, ← (checked_eq_some.mp hl).2]
    constructor
  | mul =>
    dsimp only at h
    split_ifs at h with hboth hleft hright
    · obtain ⟨l, hl, h⟩ := Option.bind_eq_some_iff.mp h
      cases Option.some.inj h
      rw [hboth.1, hboth.2, ← (checked_eq_some.mp hl).2]
      constructor
    · cases Option.some.inj h
      rw [hleft.1, hleft.2.1, hleft.2.2]
      constructor
    · cases Option.some.inj h
      rw [hright.1, hright.2.1, hright.2.2]
      constructor
  | _ => simp at h

/-- Every variable has a value of its type. -/
def InRange (ρ : Var → Int) : Prop := ∀ v : Var, v.type.contains (ρ v)

/-- The index `i` has the value `x`, every other variable is zero. -/
def onlyIndex (i : Var) (x : Int) (v : Var) : Int := if v = i then x else 0

/-- The enclosing loops are in one iteration; the index `i` and the nested ones are free. -/
def SameNest (enclosing : List Var) (i : Var) (ρ ρ' : Var → Int) : Prop :=
  ∀ v ∈ enclosing, v ≠ i → ρ v = ρ' v

/-- Two index tuples of one array denote overlapping parts of it. -/
def Overlap (xs ys : List Int) : Prop := xs <+: ys ∨ ys <+: xs

/-- The subscripts are defined and have these values. -/
def Values (ρ : Var → Int) : List Expr → List Int → Prop :=
  List.Forall₂ fun s n => s.subscriptValue ρ = some n

/-- No element of an outer array that one iteration writes is accessed in another. -/
def NoConflict (enclosing : List Var) (loop : ForStatement) (i : Var) : Prop :=
  ∀ w ∈ loop.body.accesses, ∀ a ∈ loop.body.accesses, w.isWrite = true →
    outerArray loop w.base = true → a.base = w.base →
    ∀ ρ ρ', InRange ρ → InRange ρ' → SameNest enclosing i ρ ρ' → ρ i ≠ ρ' i →
      ∀ xs ys, Values ρ w.subscripts xs → Values ρ' a.subscripts ys → ¬Overlap xs ys

/-- Wherever they are defined the affine forms say what both subscripts are, up to one offset of
the enclosing loops, and they exclude equality or have a non-zero coefficient. -/
def Separated (known enclosing : List Var) (i : Var) (s t : Expr) : Prop :=
  ∃ c k c' k', extractAffineSubscript known i s = some (c, k) ∧
    extractAffineSubscript known i t = some (c', k') ∧
    (∃ offset : (Var → Int) → Int,
      (∀ ρ ρ', SameNest enclosing i ρ ρ' → offset ρ = offset ρ') ∧
      (∀ ρ, InRange ρ → ∀ n, s.subscriptValue ρ = some n → n = c * ρ i + k + offset ρ) ∧
      ∀ ρ, InRange ρ → ∀ n, t.subscriptValue ρ = some n → n = c' * ρ i + k' + offset ρ) ∧
    (c ≠ 0 ∨ gcdTest c c' (k' - k) = false)

def knownLoopVars (enclosing : List Var) (loop : ForStatement) (i : Var) : List Var :=
  enclosing ++ i :: collectNestedLoopIndexVariables loop

/-- Every write of an outer array, paired with every access to it and with itself, has a
separated dimension. -/
structure Separable (enclosing : List Var) (loop : ForStatement) (i : Var) : Prop where
  visible : loop.body.visible (outerArray loop) = true
  pairs : ∀ w ∈ loop.body.accesses, ∀ a ∈ loop.body.accesses, w.isWrite = true →
    outerArray loop w.base = true → a.base = w.base →
    ∃ p ∈ w.subscripts.zip a.subscripts,
      Separated (knownLoopVars enclosing loop i) enclosing i p.1 p.2

theorem dependenceAnalyze_pairs {enclosing : List Var} {loop : ForStatement} {i : Var}
    (hi : getLoopIndexVariable loop = some i)
    (h : (dependenceAnalyze enclosing loop).hasLoopCarriedDependence = false) :
    comparePairs (knownLoopVars enclosing loop i) i (collectArrayReferences loop) = none := by
  simp only [dependenceAnalyze, hi] at h
  split at h
  next => simp at h
  next =>
    split at h
    next => simp at h
    next hnone => exact hnone

theorem hasLoopCarriedDependence_false {known : List Var} {i : Var} {s t : Expr} {c k c' k' : Int}
    (hs : extractAffineSubscript known i s = some (c, k))
    (ht : extractAffineSubscript known i t = some (c', k'))
    (h : hasLoopCarriedDependence known i s t = false) :
    gcdTest c c' (k' - k) = false ∨ c = c' ∧ k = k' := by
  simp only [hasLoopCarriedDependence, hs, ht] at h
  split_ifs at h with h0 h1 h2
  · exact Or.inl (by simpa using h1)
  · exact Or.inr h2

theorem comparePair_none {known : List Var} {i v : Var} {r1 r2 : ArrayReference}
    (h : comparePair known i r1 r2 = none) (hb1 : r1.baseVariable = some v)
    (hb2 : r2.baseVariable = some v) (hw : r1.isWrite = true ∨ r2.isWrite = true) :
    r1.subscripts.length = r2.subscripts.length ∧
      ∀ p ∈ r1.subscripts.zip r2.subscripts, hasLoopCarriedDependence known i p.1 p.2 = false := by
  simp only [comparePair, hb1, hb2] at h
  split_ifs at h with h1 h2 h3 h4
  · simp at h1
    rcases hw with hw | hw
    · simp [h1.1] at hw
    · simp [h1.2] at hw
  · exact absurd rfl h2
  · refine ⟨not_not.mp h3, fun p hp => ?_⟩
    simpa using List.any_eq_false.mp (Bool.eq_false_iff.mpr h4) p hp

theorem mem_zip_swap {α : Type} {xs ys : List α} {p : α × α} (h : p ∈ xs.zip ys) :
    p.swap ∈ ys.zip xs := by
  rw [← List.zip_swap]
  exact List.mem_map_of_mem h

theorem mem_zip_self {α : Type} {xs : List α} {p : α × α} (h : p ∈ xs.zip xs) : p.1 = p.2 := by
  induction xs with
  | nil => simp at h
  | cons x xs ih =>
    rcases List.mem_cons.mp h with rfl | h
    · rfl
    · exact ih h

/-- An accepted pair: same rank, and in each dimension the affine forms exclude each other or
are equal. -/
theorem accepted_pair {enclosing : List Var} {loop : ForStatement} {i : Var}
    (hi : getLoopIndexVariable loop = some i)
    (h : (dependenceAnalyze enclosing loop).hasLoopCarriedDependence = false)
    (hv : loop.body.visible (outerArray loop) = true) {w a : Access}
    (hw : w ∈ loop.body.accesses) (ha : a ∈ loop.body.accesses) (hwrite : w.isWrite = true)
    (ho : outerArray loop w.base = true) (hbase : a.base = w.base) :
    w.subscripts.length = a.subscripts.length ∧
      ∀ p ∈ w.subscripts.zip a.subscripts, ∀ c k c' k',
        extractAffineSubscript (knownLoopVars enclosing loop i) i p.1 = some (c, k) →
        extractAffineSubscript (knownLoopVars enclosing loop i) i p.2 = some (c', k') →
        (∃ x y, c * x - c' * y = k' - k) → c = c' ∧ k = k' := by
  by_cases hwa : w = a
  · subst hwa
    refine ⟨rfl, fun p hp c k c' k' hs ht _ => ?_⟩
    rw [mem_zip_self hp, ht] at hs
    cases hs
    exact ⟨rfl, rfl⟩
  · have hrw := mem_collectArrayReferences hv hw ho
    have hra := mem_collectArrayReferences hv ha (hbase ▸ ho)
    have hne : (⟨some w.base, w.subscripts, w.isWrite⟩ : ArrayReference) ≠
        ⟨some a.base, a.subscripts, a.isWrite⟩ := by
      intro heq
      simp only [ArrayReference.mk.injEq, Option.some.injEq] at heq
      exact hwa (by cases w; cases a; simp_all)
    rcases comparePairs_none (dependenceAnalyze_pairs hi h) hrw hra hne with hpair | hpair
    · obtain ⟨hlen, hdims⟩ := comparePair_none hpair rfl (by rw [hbase]) (Or.inl hwrite)
      refine ⟨hlen, fun p hp c k c' k' hs ht hsol => ?_⟩
      obtain ⟨x, y, hxy⟩ := hsol
      rcases hasLoopCarriedDependence_false hs ht (hdims p hp) with hg | heq
      · simp [gcdTest_iff.mpr ⟨x, y, hxy⟩] at hg
      · exact heq
    · obtain ⟨hlen, hdims⟩ := comparePair_none hpair rfl (by rw [hbase]) (Or.inr hwrite)
      refine ⟨hlen.symm, fun p hp c k c' k' hs ht hsol => ?_⟩
      obtain ⟨x, y, hxy⟩ := hsol
      have hxy' : c' * y - c * x = k - k' := by linarith
      rcases hasLoopCarriedDependence_false ht hs (hdims p.swap (mem_zip_swap hp)) with hg | heq
      · simp [gcdTest_iff.mpr ⟨y, x, hxy'⟩] at hg
      · exact ⟨heq.1.symm, heq.2.symm⟩

theorem overlap_zip {ρ ρ' : Var → Int} {ss ts : List Expr} {xs ys : List Int}
    (hs : Values ρ ss xs) (ht : Values ρ' ts ys) (h : Overlap xs ys) {p : Expr × Expr}
    (hp : p ∈ ss.zip ts) : ∃ n, p.1.subscriptValue ρ = some n ∧ p.2.subscriptValue ρ' = some n := by
  induction hs generalizing ts ys with
  | nil => simp at hp
  | @cons s n ss xs hn _ ih =>
    cases ht with
    | nil => simp at hp
    | @cons t m ts ys hm htail =>
      simp only [Overlap, List.cons_prefix_cons] at h
      obtain rfl : n = m := h.elim And.left fun h => h.1.symm
      rcases List.mem_cons.mp hp with rfl | hp
      · exact ⟨n, hn, hm⟩
      · exact ih htail (h.imp And.right And.right) hp

theorem exists_values {ρ : Var → Int} {ss : List Expr}
    (h : ∀ s ∈ ss, ∃ n, s.subscriptValue ρ = some n) : ∃ xs, Values ρ ss xs := by
  induction ss with
  | nil => exact ⟨[], .nil⟩
  | cons s ss ih =>
    obtain ⟨⟨n, hn⟩, hrest⟩ := List.forall_mem_cons.mp h
    obtain ⟨xs, hxs⟩ := ih hrest
    exact ⟨n :: xs, .cons hn hxs⟩

/-- Subscripts that are equal in every dimension name one element. -/
theorem values_eq_of_zip {ρ ρ' : Var → Int} {ss ts : List Expr} {xs ys : List Int}
    (hs : Values ρ ss xs) (ht : Values ρ' ts ys) (hlen : ss.length = ts.length)
    (h : ∀ p ∈ ss.zip ts, ∀ n m, p.1.subscriptValue ρ = some n → p.2.subscriptValue ρ' = some m →
      n = m) : xs = ys := by
  induction hs generalizing ts ys with
  | nil =>
    cases ht with
    | nil => rfl
    | cons => simp at hlen
  | @cons s n ss xs hn _ ih =>
    cases ht with
    | nil => simp at hlen
    | @cons t m ts ys hm htail =>
      rw [h (s, t) List.mem_cons_self n m hn hm, ih htail (by simpa using hlen) fun p hp =>
        h p (List.mem_cons_of_mem _ hp)]

theorem noConflict_of_separable {enclosing : List Var} {loop : ForStatement} {i : Var}
    (hi : getLoopIndexVariable loop = some i)
    (h : (dependenceAnalyze enclosing loop).hasLoopCarriedDependence = false)
    (hsep : Separable enclosing loop i) : NoConflict enclosing loop i := by
  intro w hw a ha hwrite ho hbase ρ ρ' hρ hρ' hnest hne xs ys hxs hys hoverlap
  obtain ⟨p, hp, c, k, c', k', hs, ht, ⟨offset, hoffset, hvs, hvt⟩, hcond⟩ :=
    hsep.pairs w hw a ha hwrite ho hbase
  obtain ⟨n, hn, hm⟩ := overlap_zip hxs hys hoverlap hp
  have heq := (hvs ρ hρ n hn).symm.trans (hvt ρ' hρ' n hm)
  rw [hoffset ρ ρ' hnest] at heq
  have hsol : c * ρ i - c' * ρ' i = k' - k := by linarith
  have hc : c ≠ 0 := hcond.resolve_right (by simp [gcdTest_iff.mpr ⟨_, _, hsol⟩])
  obtain ⟨rfl, rfl⟩ := (accepted_pair hi h hsep.visible hw ha hwrite ho hbase).2 p hp c k c' k'
    hs ht ⟨_, _, hsol⟩
  have hzero : c * (ρ i - ρ' i) = 0 := by linarith
  rcases mul_eq_zero.mp hzero with h0 | h0
  · exact hc h0
  · exact hne (by omega)

/-- Built from literals and the index `i` by arithmetic alone, which is signed. -/
def Expr.ownIndexOnly (i : Var) : Expr → Bool
  | .intVal _ _ => true
  | .varRef v => v = i
  | .unary _ e => e.ownIndexOnly i && e.subscriptType.promote.isSigned
  | .binary _ a b => a.ownIndexOnly i && b.ownIndexOnly i &&
      (a.subscriptType.arithmetic b.subscriptType).isSigned
  | _ => false

theorem extractAffineSubscript_exact {known : List Var} {i : Var} {e : Expr} {c k : Int}
    (hown : e.ownIndexOnly i = true) (h : extractAffineSubscript known i e = some (c, k))
    {ρ : Var → Int} {n : Int} (hn : e.subscriptValue ρ = some n) : n = c * ρ i + k := by
  induction e generalizing c k n with
  | intVal kind m =>
    obtain rfl := Option.some.inj hn
    cases kind <;> simp [extractAffineSubscript] at h <;> obtain ⟨rfl, rfl⟩ := h <;> simp
  | varRef v =>
    have hv : v = i := by simpa [Expr.ownIndexOnly] using hown
    subst hv
    obtain rfl := Option.some.inj hn
    simp only [extractAffineSubscript, if_true, Option.some.injEq, Prod.mk.injEq] at h
    obtain ⟨rfl, rfl⟩ := h
    simp
  | unary op e ih =>
    simp only [Expr.ownIndexOnly, Bool.and_eq_true] at hown
    cases op with
    | minus =>
      obtain ⟨c1, k1, he, rfl, rfl⟩ := extractAffineSubscript_minus h
      obtain ⟨m, hm, hn⟩ := Option.bind_eq_some_iff.mp hn
      rw [CType.result_eq_some hn hown.2, ih hown.1 he hm]
      ring
    | lnot | bnot => simp [extractAffineSubscript] at h
  | binary op a b iha ihb =>
    simp only [Expr.ownIndexOnly, Bool.and_eq_true] at hown
    obtain ⟨⟨hoa, hob⟩, hsigned⟩ := hown
    obtain ⟨c1, k1, c2, k2, ha, hb, hform⟩ := extractAffineSubscript_binary h
    obtain ⟨x, hx, hn⟩ := Option.bind_eq_some_iff.mp hn
    obtain ⟨y, hy, hn⟩ := Option.bind_eq_some_iff.mp hn
    have hva := iha hoa ha hx
    have hvb := ihb hob hb hy
    cases op with
    | add | sub | mul =>
      rw [CType.result_eq_some hn hsigned, hva, hvb]
      exact hform.value (ρ i)
    | _ => cases hn
  | _ => simp [Expr.ownIndexOnly] at hown

/-- Loops whose outer arrays are subscripted by affine forms of the loop's own index, which are
defined for at least two of its values. -/
structure OwnIndexSubscripts (enclosing : List Var) (loop : ForStatement) (i : Var) : Prop where
  visible : loop.body.visible (outerArray loop) = true
  affine : ∀ a ∈ loop.body.accesses, outerArray loop a.base = true → ∀ s ∈ a.subscripts,
    s.ownIndexOnly i = true ∧
      ∃ c k, extractAffineSubscript (knownLoopVars enclosing loop i) i s = some (c, k)
  defined : ∃ x y, x ≠ y ∧ i.type.contains x ∧ i.type.contains y ∧
    ∀ a ∈ loop.body.accesses, outerArray loop a.base = true → ∀ s ∈ a.subscripts,
      (∃ n, s.subscriptValue (onlyIndex i x) = some n) ∧
        ∃ n, s.subscriptValue (onlyIndex i y) = some n

theorem onlyIndex_inRange {i : Var} {x : Int} (h : i.type.contains x) : InRange (onlyIndex i x) := by
  intro v
  by_cases hv : v = i
  · subst hv
    simpa [onlyIndex] using h
  · simpa [onlyIndex, hv] using CType.contains_zero (t := v.type)

theorem separable_of_noConflict {enclosing : List Var} {loop : ForStatement} {i : Var}
    (hi : getLoopIndexVariable loop = some i)
    (h : (dependenceAnalyze enclosing loop).hasLoopCarriedDependence = false)
    (hown : OwnIndexSubscripts enclosing loop i) (hno : NoConflict enclosing loop i) :
    Separable enclosing loop i := by
  refine ⟨hown.visible, fun w hw a ha hwrite ho hbase => ?_⟩
  by_contra hnone
  obtain ⟨hlen, hdims⟩ := accepted_pair hi h hown.visible hw ha hwrite ho hbase
  obtain ⟨x, y, hne, hx, hy, hdefined⟩ := hown.defined
  -- Without a separated dimension the index counts in none, and all constants are the same.
  have hequal : ∀ p ∈ w.subscripts.zip a.subscripts, ∀ n m,
      p.1.subscriptValue (onlyIndex i x) = some n → p.2.subscriptValue (onlyIndex i y) = some m →
        n = m := by
    intro p hp n m hn hm
    obtain ⟨hs, c, k, hck⟩ := hown.affine w hw ho p.1 (List.of_mem_zip hp).1
    obtain ⟨ht, c', k', hck'⟩ := hown.affine a ha (hbase ▸ ho) p.2 (List.of_mem_zip hp).2
    have hcond : ¬(c ≠ 0 ∨ gcdTest c c' (k' - k) = false) := by
      intro hc
      refine hnone ⟨p, hp, c, k, c', k', hck, hck', ⟨fun _ => 0, fun _ _ _ => rfl, ?_, ?_⟩, hc⟩
      · exact fun ρ _ n hn => by rw [extractAffineSubscript_exact hs hck hn, Int.add_zero]
      · exact fun ρ _ n hn => by rw [extractAffineSubscript_exact ht hck' hn, Int.add_zero]
    obtain ⟨hc, hg⟩ := not_or.mp hcond
    have hsol := gcdTest_iff.mp (by simpa using hg)
    obtain ⟨rfl, rfl⟩ := hdims p hp c k c' k' hck hck' hsol
    rw [extractAffineSubscript_exact hs hck hn, extractAffineSubscript_exact ht hck' hm,
      not_not.mp hc, Int.zero_mul, Int.zero_mul]
  obtain ⟨xs, hxs⟩ := exists_values fun s hs => (hdefined w hw ho s hs).1
  obtain ⟨ys, hys⟩ := exists_values fun s hs => (hdefined a ha (hbase ▸ ho) s hs).2
  refine hno w hw a ha hwrite ho hbase (onlyIndex i x) (onlyIndex i y) (onlyIndex_inRange hx)
    (onlyIndex_inRange hy) ?_ ?_ xs ys hxs hys ?_
  · intro v _ hv
    simp [onlyIndex, hv]
  · simpa [onlyIndex] using hne
  · exact Or.inl (values_eq_of_zip hxs hys hlen hequal ▸ List.prefix_refl _)

def indexI : Var := ⟨0, "i", .integer 32 true, .automatic⟩

def arrayA : Var := ⟨2, "a", .pointer, .automatic⟩

/-- The loop `for (i = 0; i < n; i++) a[sub] = i;`. -/
def storeLoop (sub : Expr) : ForStatement :=
  ⟨.expr (.assign (.varRef indexI) (.intVal .int 0)),
    .binary .lt (.varRef indexI) (.varRef ⟨1, "n", .integer 32 true, .automatic⟩),
    .plusPlus (.varRef indexI),
    .seq (.expr (.assign (.arrRef (.varRef arrayA) sub) (.varRef indexI))) .empty⟩

theorem indexI_contains_one : indexI.type.contains 1 := by
  simp [indexI, CType.contains]

end LoomX
