import LoomX.Symbolic.NodeObjects

namespace LoomX.Symbolic

namespace NodeObject

def lex : List Nat → List Nat → Ordering := List.compareLex compare

instance : Std.TransCmp lex := inferInstanceAs (Std.TransCmp (List.compareLex compare))

theorem lex_cons (x y : Nat) (s t : List Nat) :
    lex (x :: s) (y :: t) = (compare x y).then (lex s t) := List.compareLex_cons_cons

theorem lex_append_self (l s t : List Nat) : lex (l ++ s) (l ++ t) = lex s t := by
  induction l with
  | nil => rfl
  | cons x l ih =>
    rw [List.cons_append, List.cons_append, lex_cons, ih, Nat.compare_eq_eq.mpr rfl]
    rfl

/-- Returning early on a difference is a lexicographic step. -/
theorem ite_compare (x y : Nat) (o : Ordering) [Decidable (x ≠ y)] [Decidable (x < y)] :
    (if x ≠ y then if x < y then .lt else .gt else o) = (compare x y).then o := by
  obtain h | rfl | h := Nat.lt_trichotomy x y
  · rw [if_pos (by omega), if_pos h, Nat.compare_eq_lt.mpr h]
    rfl
  · rw [if_neg (by omega), Nat.compare_eq_eq.mpr rfl]
    rfl
  · rw [if_pos (by omega), if_neg (by omega), Nat.compare_eq_gt.mpr h]
    rfl

/-- Integer constants come first among leaves, then floating-point ones. -/
def kind (x : NodeObject) : Nat :=
  if x.isIntegerConstant then 0 else if x.isFloatingPointConstant then 1 else 2

mutual

/-- What the order compares, one number after another. -/
def key : NodeObject → List Nat
  | constant a t f b => [0, t.nBits, f, (constant a t f b).kind, b]
  | var a t f n => [0, t.nBits, f, (var a t f n).kind, n]
  | interior _ t f op cs => 1 :: op :: t.fields :: cs.length :: f :: keys cs

def keys : List NodeObject → List Nat
  | [] => []
  | c :: cs => c.key ++ keys cs

end

theorem isFloatingPointConstant_eq_false {x : NodeObject} (h : x.isIntegerConstant = true) :
    x.isFloatingPointConstant = false := by
  simp only [isIntegerConstant, isFloatingPointConstant, ExprType.isInteger,
    ExprType.isFloatingPoint, Bool.and_eq_true, Bool.and_eq_false_iff, beq_iff_eq,
    beq_eq_false_iff_ne] at h ⊢
  omega

theorem kind_constant (a : Nat) (t : ScalarType) (f b : Nat) : (constant a t f b).kind < 2 := by
  have hscalar := t.isScalar
  simp only [kind, isIntegerConstant, isFloatingPointConstant, type, isConstant, Bool.and_true]
  rw [Bool.or_eq_true] at hscalar
  obtain h | h := hscalar
  · rw [if_pos h]
    decide
  · split <;> decide

theorem kind_var (a : Nat) (t : ExprType) (f n : Nat) : (var a t f n).kind = 2 := by
  simp [kind, isIntegerConstant, isFloatingPointConstant, isConstant]

theorem compareLeaves_eq {x y : NodeObject} (h : x.address ≠ y.address) :
    compareLeaves x y = (compare x.nBits y.nBits).then ((compare x.flags y.flags).then
      ((compare x.kind y.kind).then
        (if x.isConstant then compare x.bits y.bits
        else if x.name < y.name then .lt else .gt))) := by
  rw [compareLeaves, if_neg h, ite_compare, ite_compare, kind, kind]
  have hx := @isFloatingPointConstant_eq_false x
  have hy := @isFloatingPointConstant_eq_false y
  generalize (if x.isConstant = true then compare x.bits y.bits
    else if x.name < y.name then Ordering.lt else .gt) = o
  generalize x.isIntegerConstant = i, x.isFloatingPointConstant = p, y.isIntegerConstant = i',
    y.isFloatingPointConstant = p' at hx hy ⊢
  cases i <;> cases p <;> cases i' <;> cases p' <;>
    first | rfl | exact absurd (hx rfl) (by decide) | exact absurd (hy rfl) (by decide)

/-- Two leaves at different addresses, unless they are one variable. -/
theorem lex_leaves {x y : NodeObject} (hx : x.isLeaf = true) (hy : y.isLeaf = true)
    (hne : x.address ≠ y.address)
    (hvar : ∀ a t f n a' t', x = var a t f n → y = var a' t' f n → t.nBits ≠ t'.nBits)
    (s s' : List Nat) :
    lex (x.key ++ s) (y.key ++ s') = (compareLeaves x y).then (lex s s') := by
  rw [compareLeaves_eq hne]
  cases x with
  | interior => cases hx
  | constant a t f b =>
    cases y with
    | interior => cases hy
    | constant a' t' f' b' =>
      simp only [key, List.cons_append, List.nil_append, lex_cons, Ordering.then_assoc, isConstant,
        if_true]
      rfl
    | var a' t' f' n' =>
      have hkind : compare (constant a t f b).kind (var a' t' f' n').kind = .lt := by
        rw [kind_var]
        exact Nat.compare_eq_lt.mpr (kind_constant a t f b)
      simp only [key, List.cons_append, List.nil_append, lex_cons, Ordering.then_assoc, hkind]
      rfl
  | var a t f n =>
    cases y with
    | interior => cases hy
    | constant a' t' f' b' =>
      have hkind : compare (var a t f n).kind (constant a' t' f' b').kind = .gt := by
        rw [kind_var]
        exact Nat.compare_eq_gt.mpr (kind_constant a' t' f' b')
      simp only [key, List.cons_append, List.nil_append, lex_cons, Ordering.then_assoc, hkind]
      rfl
    | var a' t' f' n' =>
      have hlast : (compare t.nBits t'.nBits).then ((compare f f').then (compare n n')) =
          (compare t.nBits t'.nBits).then ((compare f f').then
            (if n < n' then .lt else .gt)) := by
        obtain h | rfl | h := Nat.lt_trichotomy n n'
        · rw [Nat.compare_eq_lt.mpr h, if_pos h]
        · -- the same number, so the widths or the flags differ
          cases hbits : compare t.nBits t'.nBits with
          | lt | gt => rfl
          | eq =>
            cases hflags : compare f f' with
            | lt | gt => rfl
            | eq =>
              obtain rfl := Nat.compare_eq_eq.mp hflags
              exact absurd (Nat.compare_eq_eq.mp hbits) (hvar a t f n a' t' rfl rfl)
        · rw [Nat.compare_eq_gt.mpr h, if_neg (by omega)]
      have hlast := congrArg (·.then (lex s s')) hlast
      simp only [Ordering.then_assoc] at hlast
      simp only [key, List.cons_append, List.nil_append, lex_cons, Ordering.then_assoc, kind_var,
        Nat.compare_eq_eq.mpr, Ordering.eq_then]
      exact hlast

theorem compareStructure_self (x : NodeObject) : x.compareStructure x = .eq := by
  cases x with
  | interior a t f op cs => rw [compareStructure, if_pos rfl]
  | constant a t f b => exact if_pos rfl
  | var a t f n => exact if_pos rfl

theorem compareStructure_leaves {x y : NodeObject} (hx : x.isLeaf = true) (hy : y.isLeaf = true) :
    x.compareStructure y = compareLeaves x y := by
  cases x <;> cases y <;>
    first | rfl | exact absurd hx Bool.false_ne_true | exact absurd hy Bool.false_ne_true

theorem compareStructure_leaf_interior {x y : NodeObject} (hx : x.isLeaf = true)
    (hy : y.isLeaf = false) : x.compareStructure y = .lt ∧ y.compareStructure x = .gt := by
  cases x <;> cases y <;>
    first | exact ⟨rfl, rfl⟩ | exact absurd hx Bool.false_ne_true |
      exact absurd hy.symm Bool.false_ne_true

theorem lex_leaf_interior {x y : NodeObject} (hx : x.isLeaf = true) (hy : y.isLeaf = false)
    (s s' : List Nat) :
    lex (x.key ++ s) (y.key ++ s') = .lt ∧ lex (y.key ++ s') (x.key ++ s) = .gt := by
  cases x <;> cases y <;>
    first | exact ⟨rfl, rfl⟩ | exact absurd hx Bool.false_ne_true |
      exact absurd hy.symm Bool.false_ne_true

section

variable {O : Objects}

theorem lex_key_leaf (hv : O.OneObjectPerVariable) {x y : NodeObject} (hleaf : x.isLeaf = true)
    (hx : x ∈ O.nodes) (hy : y ∈ O.nodes) (s s' : List Nat) :
    lex (x.key ++ s) (y.key ++ s') = (x.compareStructure y).then (lex s s') := by
  by_cases ha : x.address = y.address
  · rw [← O.eq_of_address hx hy ha, compareStructure_self, lex_append_self]
    rfl
  · cases hother : y.isLeaf with
    | false =>
      rw [(lex_leaf_interior hleaf hother s s').1, (compareStructure_leaf_interior hleaf hother).1]
      rfl
    | true =>
      rw [compareStructure_leaves hleaf hother]
      apply lex_leaves hleaf hother ha
      rintro a t f n a' t' rfl rfl hbits
      exact ha (hv hx hy hbits)

mutual

/-- The order is the lexicographic one of the keys. -/
theorem lex_key (hv : O.OneObjectPerVariable) : ∀ x y, x ∈ O.nodes → y ∈ O.nodes → ∀ s s',
    lex (x.key ++ s) (y.key ++ s') = (x.compareStructure y).then (lex s s')
  | interior a t f op cs, y, hx, hy, s, s' => by
    by_cases hleaf : y.isLeaf = true
    · rw [(lex_leaf_interior hleaf rfl s' s).2, (compareStructure_leaf_interior hleaf rfl).2]
      rfl
    cases y with
    | constant => exact absurd rfl hleaf
    | var => exact absurd rfl hleaf
    | interior a' t' f' op' cs' =>
      by_cases ha : a = a'
      · have heq := O.eq_of_address hx hy ha
        rw [← heq, compareStructure_self, lex_append_self]
        rfl
      · have ht : (if t ≠ t' then if t.fields < t'.fields then Ordering.lt else .gt else
            if cs.length ≠ cs'.length then if cs.length < cs'.length then .lt else .gt
            else if f ≠ f' then if f < f' then .lt else .gt else compareChildren cs cs') =
            (compare t.fields t'.fields).then ((compare cs.length cs'.length).then
              ((compare f f').then (compareChildren cs cs'))) := by
          rw [ite_compare, ite_compare]
          by_cases hfields : t.fields = t'.fields
          · have htype : t = t' := by
              cases t
              cases t'
              exact congrArg _ hfields
            rw [if_neg (not_not.mpr htype), Nat.compare_eq_eq.mpr hfields]
            rfl
          · have htype : t ≠ t' := fun h => hfields (congrArg _ h)
            rw [if_pos htype]
            obtain h | h := Nat.lt_or_gt_of_ne hfields
            · rw [if_pos h, Nat.compare_eq_lt.mpr h]
              rfl
            · rw [if_neg (by omega), Nat.compare_eq_gt.mpr h]
              rfl
        rw [compareStructure, if_neg ha, ite_compare, ht]
        simp only [key, List.cons_append, lex_cons, Ordering.then_assoc]
        by_cases hlen : cs.length = cs'.length
        · rw [lex_keys hv cs cs' (O.children_mem hx) (O.children_mem hy) hlen]
          rfl
        · cases hcmp : compare cs.length cs'.length with
          | eq => exact absurd (Nat.compare_eq_eq.mp hcmp) hlen
          | lt | gt => rfl
  | constant a t f b, y, hx, hy, s, s' => lex_key_leaf hv rfl hx hy s s'
  | var a t f n, y, hx, hy, s, s' => lex_key_leaf hv rfl hx hy s s'

theorem lex_keys (hv : O.OneObjectPerVariable) : ∀ cs cs' : List NodeObject,
    (∀ c ∈ cs, c ∈ O.nodes) → (∀ c ∈ cs', c ∈ O.nodes) → cs.length = cs'.length → ∀ s s',
    lex (keys cs ++ s) (keys cs' ++ s') = (compareChildren cs cs').then (lex s s')
  | [], [], _, _, _, s, s' => rfl
  | c :: cs, c' :: cs', hcs, hcs', hlen, s, s' => by
    have hrest := lex_keys hv cs cs' (fun c hc => hcs c (List.mem_cons_of_mem _ hc))
      (fun c hc => hcs' c (List.mem_cons_of_mem _ hc)) (Nat.succ.inj hlen) s s'
    have hfirst := lex_key hv c c' (hcs c List.mem_cons_self) (hcs' c' List.mem_cons_self)
      (keys cs ++ s) (keys cs' ++ s')
    rw [keys, keys, List.append_assoc, List.append_assoc, hfirst, hrest, compareChildren,
      Ordering.then_assoc]

end

theorem compareStructure_eq_lex (hv : O.OneObjectPerVariable) {x y : NodeObject}
    (hx : x ∈ O.nodes) (hy : y ∈ O.nodes) : x.compareStructure y = lex x.key y.key := by
  have h := lex_key hv x y hx hy [] []
  rw [List.append_nil, List.append_nil] at h
  rw [h]
  cases x.compareStructure y <;> rfl

theorem compareStructure_swap (hv : O.OneObjectPerVariable) {x y : NodeObject}
    (hx : x ∈ O.nodes) (hy : y ∈ O.nodes) :
    y.compareStructure x = (x.compareStructure y).swap := by
  rw [compareStructure_eq_lex hv hy hx, compareStructure_eq_lex hv hx hy]
  exact Std.OrientedCmp.eq_swap

theorem compareStructure_trans (hv : O.OneObjectPerVariable) {x y z : NodeObject}
    (hx : x ∈ O.nodes) (hy : y ∈ O.nodes) (hz : z ∈ O.nodes)
    (hxy : (x.compareStructure y).isLE = true) (hyz : (y.compareStructure z).isLE = true) :
    (x.compareStructure z).isLE = true := by
  rw [compareStructure_eq_lex hv hx hy] at hxy
  rw [compareStructure_eq_lex hv hy hz] at hyz
  rw [compareStructure_eq_lex hv hx hz]
  exact Std.TransCmp.isLE_trans hxy hyz

theorem compareStructure_interior {a f op a' f' op' : Nat} {t t' : ExprType}
    {cs cs' : List NodeObject} (ha : a ≠ a') :
    (interior a t f op cs).compareStructure (interior a' t' f' op' cs') = .eq ↔
      op = op' ∧ t = t' ∧ cs.length = cs'.length ∧ f = f' ∧ compareChildren cs cs' = .eq := by
  rw [compareStructure, if_neg ha]
  by_cases hop : op = op' <;> by_cases ht : t = t' <;> by_cases hlen : cs.length = cs'.length <;>
    by_cases hf : f = f' <;> simp [hop, ht, hlen, hf]

theorem compareLeaves_eq_eq {x y : NodeObject} (hne : x.address ≠ y.address) :
    compareLeaves x y = .eq ↔ x.nBits = y.nBits ∧ x.flags = y.flags ∧ x.kind = y.kind ∧
      x.isConstant = true ∧ x.bits = y.bits := by
  rw [compareLeaves_eq hne, Ordering.then_eq_eq, Ordering.then_eq_eq, Ordering.then_eq_eq,
    Nat.compare_eq_eq, Nat.compare_eq_eq, Nat.compare_eq_eq]
  cases x.isConstant with
  | true => simp
  | false => simp

theorem isInteger_eq {t t' : ScalarType} {a f b a' f' b' : Nat}
    (h : (constant a t f b).kind = (constant a' t' f' b').kind) : t.isInteger = t'.isInteger := by
  have hzero (a : Nat) (t : ScalarType) (f b : Nat) :
      (constant a t f b).kind = 0 ↔ t.isInteger = true := by
    simp only [kind, isIntegerConstant, isFloatingPointConstant, type, isConstant, Bool.and_true]
    cases t.isInteger <;> cases t.isFloatingPoint <;> decide
  rw [Bool.eq_iff_iff, ← hzero a t f b, ← hzero a' t' f' b', h]

theorem kind_eq_of_bits (hc : O.NoSharedBits) {a f b a' : Nat} {t t' : ScalarType}
    (hx : constant a t f b ∈ O.nodes) (hy : constant a' t' f b ∈ O.nodes)
    (hbits : t.nBits = t'.nBits) : (constant a t f b).kind = (constant a' t' f b).kind := by
  have hinteger := hc hx hy hbits
  have hfloat (t : ScalarType) : t.isInteger = false → t.isFloatingPoint = true := fun h => by
    have hscalar := t.isScalar
    rwa [h, Bool.false_or] at hscalar
  simp only [kind, isIntegerConstant, isFloatingPointConstant, type, isConstant, Bool.and_true,
    hinteger]
  cases h : t'.isInteger with
  | true => rfl
  | false => rw [hfloat t' h, hfloat t (hinteger.trans h)]

theorem equivalent_eq_leaf (hv : O.OneObjectPerVariable) (hc : O.NoSharedBits)
    {x y : NodeObject} (hx : x ∈ O.nodes) (hy : y ∈ O.nodes) (hleaf : x.isLeaf = true) :
    x.equivalent y = (x.compareStructure y == .eq) := by
  cases hother : y.isLeaf with
  | false =>
    rw [(equivalent_leaf_interior hleaf hother).1, (compareStructure_leaf_interior hleaf hother).1]
    rfl
  | true =>
    by_cases ha : x.address = y.address
    · rw [← O.eq_of_address hx hy ha, equivalent_self, compareStructure_self]
      rfl
    rw [equivalent_leaves hleaf hother, compareStructure_leaves hleaf hother, Bool.eq_iff_iff,
      beq_iff_eq, compareLeaves_eq_eq ha]
    cases x with
    | interior => cases hleaf
    | constant a t f b =>
      cases y with
      | interior => cases hother
      | constant a' t' f' b' =>
        have hkind : t.nBits = t'.nBits → f = f' → b = b' →
            (constant a t f b).kind = (constant a' t' f' b').kind := by
          rintro hbits rfl rfl
          exact kind_eq_of_bits hc hx hy hbits
        simp only [sameLeaf, nBits, type, flags, isConstant, bits, name, beq_self_eq_true,
          Bool.true_and, Bool.and_true, Bool.and_eq_true, beq_iff_eq, true_and]
        exact ⟨fun h => ⟨h.1.1, h.1.2, hkind h.1.1 h.1.2 h.2, h.2⟩,
          fun h => ⟨⟨h.1, h.2.1⟩, h.2.2.2⟩⟩
      | var a' t' f' n' =>
        have hlt := kind_constant a t f b
        have hkind : (constant a t f b).kind ≠ (var a' t' f' n').kind := by
          rw [kind_var]
          omega
        simp [sameLeaf, hkind, isConstant]
    | var a t f n =>
      cases y with
      | interior => cases hother
      | constant a' t' f' b' => simp [sameLeaf, isConstant]
      | var a' t' f' n' =>
        have hname : t.nBits = t'.nBits → f = f' → n ≠ n' := by
          rintro hbits rfl rfl
          exact ha (hv hx hy hbits)
        simp only [sameLeaf, nBits, type, flags, isConstant, bits, name, beq_self_eq_true,
          Bool.true_and, Bool.and_eq_true, beq_iff_eq, Bool.false_eq_true, false_and, and_false,
          iff_false]
        exact fun h => hname h.1.1 h.1.2 h.2

mutual

/-- The nodes that compare equal are the equivalent ones. -/
theorem equivalent_eq (hv : O.OneObjectPerVariable) (hc : O.NoSharedBits) : ∀ x y, x ∈ O.nodes →
    y ∈ O.nodes → x.equivalent y = (x.compareStructure y == .eq)
  | constant a t f b, y, hx, hy => equivalent_eq_leaf hv hc hx hy rfl
  | var a t f n, y, hx, hy => equivalent_eq_leaf hv hc hx hy rfl
  | interior a t f op cs, y, hx, hy => by
    by_cases hleaf : y.isLeaf = true
    · rw [(equivalent_leaf_interior hleaf rfl).2, (compareStructure_leaf_interior hleaf rfl).2]
      rfl
    cases y with
    | constant => exact absurd rfl hleaf
    | var => exact absurd rfl hleaf
    | interior a' t' f' op' cs' =>
      by_cases ha : a = a'
      · rw [← O.eq_of_address hx hy ha, equivalent_self, compareStructure_self]
        rfl
      have hchildren := equivalentAll_iff hv hc cs cs' (O.children_mem hx) (O.children_mem hy)
      rw [equivalent, Bool.eq_iff_iff, beq_iff_eq, compareStructure_interior ha, Bool.and_eq_true,
        Bool.and_eq_true, Bool.and_eq_true, beq_iff_eq, beq_iff_eq, beq_iff_eq, hchildren]
      exact ⟨fun h => ⟨h.1.2, h.1.1.1, h.2.1, h.1.1.2, h.2.2⟩,
        fun h => ⟨⟨⟨h.2.1, h.2.2.2.1⟩, h.1⟩, h.2.2.1, h.2.2.2.2⟩⟩

theorem equivalentAll_iff (hv : O.OneObjectPerVariable) (hc : O.NoSharedBits) :
    ∀ cs cs' : List NodeObject, (∀ c ∈ cs, c ∈ O.nodes) → (∀ c ∈ cs', c ∈ O.nodes) →
      (equivalentAll cs cs' = true ↔ cs.length = cs'.length ∧ compareChildren cs cs' = .eq)
  | [], [], _, _ => by simp [equivalentAll, compareChildren]
  | [], c' :: cs', _, _ => by simp [equivalentAll]
  | c :: cs, [], _, _ => by simp [equivalentAll]
  | c :: cs, c' :: cs', hcs, hcs' => by
    have hfirst := equivalent_eq hv hc c c' (hcs c List.mem_cons_self) (hcs' c' List.mem_cons_self)
    have hrest := equivalentAll_iff hv hc cs cs' (fun c hc => hcs c (List.mem_cons_of_mem _ hc))
      (fun c hc => hcs' c (List.mem_cons_of_mem _ hc))
    rw [equivalentAll, compareChildren, Bool.and_eq_true, hfirst, hrest, beq_iff_eq,
      Ordering.then_eq_eq, List.length_cons, List.length_cons, Nat.add_right_cancel_iff]
    exact and_left_comm

end

theorem hashesAgree (hv : O.OneObjectPerVariable) (hc : O.NoSharedBits) : HashesAgree O := by
  apply hashesAgree_of_leaves
  intro x hx y hy hleaf h
  refine hash_leaf_eq hleaf h (fun a t f b a' t' hxc hyc hbits => ?_)
    fun a t f n a' t' hxv hyv hbits => ?_
  · subst hxc hyc
    exact hashConstant_eq hbits (hc hx hy hbits) f b
  · subst hxv hyv
    have haddress := hv hx hy hbits
    cases O.eq_of_address hx hy haddress
    rfl

end

end NodeObject

open NodeObject

/-- Whatever is cached, the order agrees with equivalence, is opposite both ways and transitive. -/
def Objects.IsOrdered (O : Objects) : Prop :=
  ∀ hashval, O.Caches hashval → ∀ x ∈ O.nodes, ∀ y ∈ O.nodes, ∀ z ∈ O.nodes,
    (∃ r hashval', x.isEquivalentTo y hashval = some (r, hashval') ∧
      (x.compareStructure y = .eq ↔ r = true)) ∧
    y.compareStructure x = (x.compareStructure y).swap ∧
    ((x.compareStructure y).isLE = true → (y.compareStructure z).isLE = true →
      (x.compareStructure z).isLE = true)

/-- The order is one exactly where each variable is a single object, and no integer constant has the
width, flags and bits of a floating-point one. -/
theorem isOrdered_iff (O : Objects) :
    O.IsOrdered ↔ O.OneObjectPerVariable ∧ O.NoSharedBits := by
  constructor
  · intro h
    constructor
    · intro a t f n a' t' hx hy hbits
      by_contra ha
      have hgt {a t a' t'} (ha : a ≠ a') (hbits : t.nBits = t'.nBits) :
          (var a t f n).compareStructure (var a' t' f n) = .gt := by
        rw [compareStructure_leaves rfl rfl, @compareLeaves_eq (var a t f n) (var a' t' f n) ha,
          kind_var, kind_var]
        simp [nBits, type, hbits, flags, isConstant, name]
      have hswap := (h _ .empty _ hx _ hy _ hy).2.1
      rw [hgt ha hbits, hgt (Ne.symm ha) hbits.symm] at hswap
      cases hswap
    · intro a t f b a' t' hx hy hbits
      by_cases ha : a = a'
      · have heq := O.eq_of_address hx hy ha
        injection heq with _ htype
        rw [htype]
      · have hequivalent : (constant a t f b).isEquivalentTo (constant a' t' f b) (fun _ => 0) =
            some (true, fun _ => 0) := by
          have hleaves : equivalentLeaves (constant a t f b) (constant a' t' f b) = true := by
            simp [equivalentLeaves, address, ha, nBits, type, hbits, flags, isConstant, bits]
          rw [← hleaves]
          rfl
        obtain ⟨r, hashval', hrun, hcompare⟩ := (h _ .empty _ hx _ hy _ hy).1
        rw [hequivalent] at hrun
        cases hrun
        have heq := hcompare.mpr rfl
        rw [compareStructure_leaves rfl rfl] at heq
        have hsame : (constant a t f b).address ≠ (constant a' t' f b).address := ha
        exact isInteger_eq ((compareLeaves_eq_eq hsame).mp heq).2.2.1
  · rintro ⟨hv, hc⟩ hashval hcaches x hx y hy z hz
    obtain ⟨hashval', hrun⟩ := isEquivalentTo_spec (hashesAgree hv hc) hcaches hx hy
    rw [equivalent_eq hv hc x y hx hy] at hrun
    exact ⟨⟨_, hashval', hrun, beq_iff_eq.symm⟩, compareStructure_swap hv hx hy,
      compareStructure_trans hv hx hy hz⟩

/-- Two objects for one variable are equivalent, and each comes after the other. -/
theorem compareStructure_variable :
    (var 0 ⟨32⟩ 0 5).isEquivalentTo (var 1 ⟨32⟩ 0 5) (fun _ => 0) = some (true, fun _ => 0) ∧
      (var 0 ⟨32⟩ 0 5).compareStructure (var 1 ⟨32⟩ 0 5) = .gt ∧
      (var 1 ⟨32⟩ 0 5).compareStructure (var 0 ⟨32⟩ 0 5) = .gt := by
  exact ⟨rfl, by decide, by decide⟩

end LoomX.Symbolic
