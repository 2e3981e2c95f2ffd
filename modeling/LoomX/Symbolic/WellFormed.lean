import LoomX.Symbolic.Meaning

namespace LoomX.Symbolic

/-- Comparing by what a function gives. -/
def compareBy {α β : Type} (f : α → β) (cmp : β → β → Ordering) (a b : α) : Ordering :=
  cmp (f a) (f b)

theorem transCmp_compareBy {α β : Type} (f : α → β) {cmp : β → β → Ordering}
    (h : Std.TransCmp cmp) : Std.TransCmp (compareBy f cmp) where
  eq_swap := h.eq_swap
  isLE_trans := h.isLE_trans

namespace Node

def rank : Node → Nat
  | interior _ _ _ _ => 0
  | var _ _ _ => 1
  | constant _ _ => 2

def number : Node → Nat
  | interior op _ _ _ => op.position
  | var i _ _ => i
  | constant b _ => b.value

def children : Node → List Node
  | interior _ _ cs _ => cs
  | _ => []

/-- `expr_cmp` cut off at a depth, as a lexicographic comparison. -/
def exprCmpTo : Nat → Node → Node → Ordering
  | 0 => fun _ _ => .eq
  | n + 1 => compareLex (compareBy rank compare)
    (compareLex (compareBy number compare) (compareBy children (List.compareLex (exprCmpTo n))))

theorem transCmp_exprCmpTo (n : Nat) : Std.TransCmp (exprCmpTo n) := by
  induction n with
  | zero => exact { eq_swap := rfl, isLE_trans := fun _ _ => rfl }
  | succ n ih =>
    have hrank : Std.TransCmp (compareBy rank compare) := transCmp_compareBy _ inferInstance
    have hnumber : Std.TransCmp (compareBy number compare) := transCmp_compareBy _ inferInstance
    have hchildren : Std.TransCmp (compareBy children (List.compareLex (exprCmpTo n))) :=
      transCmp_compareBy _ inferInstance
    exact inferInstanceAs (Std.TransCmp (compareLex (compareBy rank compare)
      (compareLex (compareBy number compare)
        (compareBy children (List.compareLex (exprCmpTo n))))))

mutual

def depth : Node → Nat
  | interior _ _ cs _ => depthAll cs + 1
  | _ => 1

def depthAll : List Node → Nat
  | [] => 0
  | c :: cs => max c.depth (depthAll cs)

end

mutual

theorem exprCmp_eq_to : ∀ (a b : Node) (n : Nat), a.depth ≤ n → exprCmp a b = exprCmpTo n a b
  | interior op w cs f, b, n, h => by
    obtain ⟨n, rfl⟩ : ∃ k, n = k + 1 := ⟨n - 1, by simp only [depth] at h; omega⟩
    cases b with
    | interior op' w' cs' f' =>
      have hcs := exprCmpAll_eq_to cs cs' n (by simp only [depth] at h; omega)
      simp only [exprCmp, hcs, exprCmpTo, compareLex, compareBy, rank, number, children]
      rfl
    | var i w' f' => rfl
    | constant x f' => rfl
  | var i w f, b, n, h => by
    obtain ⟨n, rfl⟩ : ∃ k, n = k + 1 := ⟨n - 1, by simp only [depth] at h; omega⟩
    cases b with
    | interior op' w' cs' f' => rfl
    | var i' w' f' =>
      simp only [exprCmp, exprCmpTo, compareLex, compareBy, rank, number, children]
      simp [List.compareLex]
    | constant x f' => rfl
  | constant x f, b, n, h => by
    obtain ⟨n, rfl⟩ : ∃ k, n = k + 1 := ⟨n - 1, by simp only [depth] at h; omega⟩
    cases b with
    | interior op' w' cs' f' => rfl
    | var i' w' f' => rfl
    | constant y f' =>
      simp only [exprCmp, exprCmpTo, compareLex, compareBy, rank, number, children]
      simp [List.compareLex]

theorem exprCmpAll_eq_to : ∀ (l l' : List Node) (n : Nat), depthAll l ≤ n →
    exprCmpAll l l' = List.compareLex (exprCmpTo n) l l'
  | [], l', n, _ => by cases l' <;> rfl
  | c :: cs, [], n, _ => rfl
  | c :: cs, c' :: cs', n, h => by
    simp only [depthAll] at h
    rw [exprCmpAll, List.compareLex_cons_cons, exprCmp_eq_to c c' n (by omega),
      exprCmpAll_eq_to cs cs' n (by omega)]

end

theorem transCmp_exprCmp : Std.TransCmp exprCmp where
  eq_swap {a b} := by
    rw [exprCmp_eq_to a b (max a.depth b.depth) (le_max_left _ _),
      exprCmp_eq_to b a (max a.depth b.depth) (le_max_right _ _)]
    exact (transCmp_exprCmpTo _).eq_swap
  isLE_trans {a b c} := by
    rw [exprCmp_eq_to a b (max a.depth b.depth) (le_max_left _ _),
      exprCmp_eq_to b c (max a.depth b.depth) (le_max_right _ _),
      exprCmp_eq_to a c (max a.depth b.depth) (le_max_left _ _)]
    exact (transCmp_exprCmpTo _).isLE_trans

theorem transCmp_commutativeOrder (address : Node → Nat) :
    Std.TransCmp (commutativeOrder address) := by
  have hexpr := transCmp_exprCmp
  have haddress : Std.TransCmp (compareBy address compare) := transCmp_compareBy _ inferInstance
  exact inferInstanceAs (Std.TransCmp (compareLex exprCmp (compareBy address compare)))

end Node

theorem pairwise_sortOperands (address : Node → Nat) (cs : List Node) :
    (sortOperands address cs).Pairwise fun a b =>
      (Node.commutativeOrder address a b).isLE = true := by
  have htrans := Node.transCmp_commutativeOrder address
  apply List.pairwise_mergeSort
  · intro a b c
    exact htrans.isLE_trans
  · intro a b
    rw [Bool.or_eq_true, htrans.eq_swap (a := b)]
    cases Node.commutativeOrder address a b <;> simp

theorem sortOperands_of_pairwise {address : Node → Nat} {cs : List Node}
    (h : cs.Pairwise fun a b => (Node.commutativeOrder address a b).isLE = true) :
    sortOperands address cs = cs := List.mergeSort_of_pairwise h

/-- Operands that an n-ary operator of width `w` can have. -/
structure Sized (op : Operator) (w : Nat) (cs : List Node) : Prop where
  nonempty : cs ≠ []
  fits : op.Fits w (cs.map Node.nBits)

/-- The shifts and rotations: the amount comes first. -/
def Operator.isShift : Operator → Bool
  | asr | rol | ror | shl0 | shl1 | shr0 | shr1 => true
  | _ => false

/-- The operands that a node of width `w` can have; an `extract` stays within its operand. -/
def Operator.Shape (op : Operator) (w : Nat) (cs : List Node) : Prop :=
  match op with
  | invert | negate => ∃ c : Node, cs = [c] ∧ c.nBits = w
  | ite => ∃ c a b : Node, cs = [c, a, b] ∧ c.nBits = 1 ∧ a.nBits = w ∧ b.nBits = w
  | uextend | sextend => ∃ n f a, cs = [.constant n f, a] ∧ n.size ≤ 64 ∧ n.value = w
  | extract => ∃ lo f hi f' a, cs = [.constant lo f, .constant hi f', a] ∧ lo.size ≤ 64 ∧
    hi.size ≤ 64 ∧ lo.value < hi.value ∧ hi.value ≤ a.nBits ∧ hi.value - lo.value = w
  | concat => cs ≠ [] ∧ (cs.map Node.nBits).sum = w
  | asr | rol | ror | shl0 | shl1 | shr0 | shr1 => ∃ n a : Node, cs = [n, a] ∧ a.nBits = w
  | other _ => True
  | op => Sized op w cs

/-- The widths of types. -/
def IsWidth (w : Nat) : Prop := 0 < w ∧ w ≤ maxBits

mutual

/-- The nodes that the constructors accept. -/
def Node.Valid : Node → Prop
  | .var _ w _ => IsWidth w
  | .constant b _ => IsWidth b.size
  | .interior op w cs _ => IsWidth w ∧ op.Shape w cs ∧ AllValid cs

def AllValid : List Node → Prop
  | [] => True
  | c :: cs => c.Valid ∧ AllValid cs

end

theorem allValid_iff (cs : List Node) : AllValid cs ↔ ∀ c ∈ cs, c.Valid := by
  induction cs with
  | nil => simp [AllValid]
  | cons c cs ih => simp [AllValid, ih]

theorem Node.Valid.isWidth {n : Node} (h : n.Valid) : IsWidth n.nBits := by
  cases n with
  | interior op w cs f => exact h.1
  | _ => exact h

theorem Node.Valid.child {op : Operator} {w f : Nat} {cs : List Node}
    (h : (Node.interior op w cs f).Valid) {c : Node} (hc : c ∈ cs) : c.Valid :=
  (allValid_iff cs).mp h.2.2 c hc

theorem sized_of_shape {op : Operator} (hop : op.IsNary) {w : Nat} {cs : List Node}
    (h : op.Shape w cs) : Sized op w cs := by
  cases op <;> first | exact h | exact hop.elim

theorem shape_of_sized {op : Operator} (hop : op.IsNary) {w : Nat} {cs : List Node}
    (h : Sized op w cs) : op.Shape w cs := by
  cases op <;> first | exact h | exact hop.elim

theorem adjustWidth_of_sized {op : Operator} (hop : op.IsNary) {w : Nat} {cs : List Node}
    (h : Sized op w cs) : adjustWidth op cs = w := by
  obtain ⟨c, rest, rfl⟩ := List.exists_cons_of_ne_nil h.nonempty
  have hfits := h.fits
  unfold Operator.Fits at hfits
  cases op with
  | umul => exact hfits
  | smul => exact hfits
  | add => exact hfits c.nBits (by simp)
  | and => exact hfits c.nBits (by simp)
  | or => exact hfits c.nBits (by simp)
  | xor => exact hfits c.nBits (by simp)
  | _ => exact hop.elim

theorem adjustWidth_of_shape {op : Operator} (hop : ∀ p, op ≠ .other p) {w : Nat}
    {cs : List Node} (h : op.Shape w cs) : adjustWidth op cs = w := by
  by_cases hnary : op.IsNary
  · exact adjustWidth_of_sized hnary (sized_of_shape hnary h)
  cases op with
  | other p => exact absurd rfl (hop p)
  | add | and | or | xor | umul | smul => exact absurd trivial hnary
  | concat => exact h.2
  | ite =>
    obtain ⟨c, a, b, rfl, -, ha, -⟩ := h
    exact ha
  | uextend =>
    obtain ⟨n, f, a, rfl, -, hn⟩ := h
    exact hn
  | sextend =>
    obtain ⟨n, f, a, rfl, -, hn⟩ := h
    exact hn
  | extract =>
    obtain ⟨lo, f, hi, f', a, rfl, -, -, -, -, hw⟩ := h
    exact hw
  | invert =>
    obtain ⟨c, rfl, hc⟩ := h
    exact hc
  | negate =>
    obtain ⟨c, rfl, hc⟩ := h
    exact hc
  | _ =>
    obtain ⟨n, a, rfl, ha⟩ := h
    exact ha

theorem all_nBits_of_sized {op : Operator} (hmul : op.multiplies = false) {w : Nat} {c : Node}
    {cs : List Node} (h : Sized op w (c :: cs)) :
    (cs.all fun c' => c'.nBits == c.nBits) = true := by
  have hfits := h.fits
  unfold Operator.Fits at hfits
  rw [hmul] at hfits
  have hc : c.nBits = w := hfits c.nBits (by simp)
  rw [List.all_eq_true]
  intro c' hc'
  have hw : c'.nBits = w := hfits c'.nBits (by simp; exact Or.inr ⟨c', hc', rfl⟩)
  simp [hc, hw]

/-- The constructor accepts the operands of valid nodes. -/
theorem accepts_of_shape {op : Operator} {w : Nat} {cs : List Node} (hw : IsWidth w)
    (h : op.Shape w cs) : accepts op w cs = true := by
  by_cases hop : ∃ p, op = .other p
  · obtain ⟨p, rfl⟩ := hop
    rfl
  have hadjust := adjustWidth_of_shape (fun p hp => hop ⟨p, hp⟩) h
  have hwidth : (adjustWidth op cs == w && decide (0 < w) && decide (w ≤ maxBits)) = true := by
    simp [hadjust, hw.1, hw.2]
  have hnary : ∀ c' cs', cs = c' :: cs' → op.multiplies = false → Sized op w cs →
      (cs'.all fun d => d.nBits == c'.nBits) = true := by
    rintro c' cs' rfl hmul hsized
    exact all_nBits_of_sized hmul hsized
  cases op with
  | other p => exact absurd ⟨p, rfl⟩ hop
  | add | and | or | xor =>
    obtain ⟨c', cs', rfl⟩ := List.exists_cons_of_ne_nil h.nonempty
    simp only [accepts, hwidth, hnary c' cs' rfl rfl h, Bool.and_self]
  | umul | smul =>
    obtain ⟨c', cs', rfl⟩ := List.exists_cons_of_ne_nil h.nonempty
    simpa only [accepts, Bool.true_and] using hwidth
  | concat =>
    obtain ⟨c', cs', rfl⟩ := List.exists_cons_of_ne_nil h.1
    simpa only [accepts, Bool.true_and] using hwidth
  | ite =>
    obtain ⟨c, a, b, rfl, hc, ha, hb⟩ := h
    simp only [accepts, hwidth, hc, ha, hb]
    simp
  | uextend | sextend =>
    obtain ⟨n, f, a, rfl, hn, -⟩ := h
    simp only [accepts, hwidth, isPosition, hn]
    simp
  | extract =>
    obtain ⟨lo, f, hi, f', a, rfl, hlo, hhi, hlt, -, -⟩ := h
    simp only [accepts, hwidth, hlo, hhi, hlt]
    simp
  | invert =>
    obtain ⟨c, rfl, -⟩ := h
    simp only [accepts, hwidth]
    simp
  | negate =>
    obtain ⟨c, rfl, -⟩ := h
    simpa only [accepts, Bool.true_and] using hwidth
  | _ =>
    obtain ⟨n, a, rfl, -⟩ := h
    simpa only [accepts, Bool.true_and] using hwidth

theorem newInterior_of_shape {op : Operator} (hop : ∀ p, op ≠ .other p) {w : Nat}
    {cs : List Node} (h : op.Shape w cs) (f : Nat) :
    newInterior op cs f = newInteriorOf w op cs f := by
  rw [newInterior, adjustWidth_of_shape hop h]

/-- The assignments that satisfy what the solver has been told. -/
def Engine.Admits (E : Engine) (env : Nat → Nat) : Prop := ∀ s ∈ E.solver, s.satisfied env

/-- Nodes of the same width for which the solver finds no difference have the same value. -/
def Engine.Trusted (E : Engine) (other : Nat → Nat → List BitVector → Nat) : Prop :=
  ∀ s ∈ E.solver, ∀ a b, s.refutesNe a b = true → a.nBits = b.nBits →
    ∀ env, s.satisfied env → a.eval other env = b.eval other env

/-- Constants that must be equal have the same value, whatever their widths. -/
theorem value_of_mustEqual {solver : Option SmtSolver} {a b : BitVector} {f g : Nat}
    (h : mustEqual solver (.constant a f) (.constant b g) = true) : a.value = b.value := by
  simp only [mustEqual] at h
  split_ifs at h with heq
  · cases (Node.isEquivalentTo_iff _ _).mp heq
    rfl
  · simpa using h

/-- Nodes that must be equal and are as wide as each other have the same value. -/
theorem eval_of_mustEqual {E : Engine} {other : Nat → Nat → List BitVector → Nat}
    (hE : E.Trusted other) {a b : Node} (h : mustEqual E.solver a b = true)
    (hw : a.nBits = b.nBits) {env : Nat → Nat} (henv : E.Admits env) :
    a.eval other env = b.eval other env := by
  have hrefuted : (E.solver.any fun s => s.refutesNe a b) = true →
      a.eval other env = b.eval other env := by
    intro hany
    cases hsolver : E.solver with
    | none => simp [hsolver] at hany
    | some s =>
      rw [hsolver] at hany
      exact hE s hsolver a b hany hw env (henv s hsolver)
  have hequiv : a.isEquivalentTo b = true → a.eval other env = b.eval other env := by
    intro heq
    rw [(Node.isEquivalentTo_iff a b).mp heq]
  cases a with
  | interior op w cs f =>
    rcases Bool.or_eq_true_iff.mp h with heq | hany
    · exact hequiv heq
    · exact hrefuted hany
  | var i w f =>
    cases b with
    | interior op' w' cs' f' =>
      simp only [mustEqual] at h
      split_ifs at h with heq
      · exact hequiv heq
      · exact hrefuted h
    | constant y f' =>
      simp only [mustEqual] at h
      split_ifs at h with heq
      · exact hequiv heq
      · exact hrefuted h
    | var i' w' f' =>
      simp only [mustEqual] at h
      split_ifs at h with heq
      · exact hequiv heq
      · exact hrefuted h
      · have hi : i = i' := by simpa using h
        have hw' : w = w' := hw
        rw [hi, hw']
        rfl
  | constant x f =>
    cases b with
    | interior op' w' cs' f' =>
      simp only [mustEqual] at h
      split_ifs at h with heq
      · exact hequiv heq
      · exact hrefuted h
    | constant y f' =>
      simp only [mustEqual] at h
      split_ifs at h with heq
      · exact hequiv heq
      · have hvalue : x.value = y.value := by simpa using h
        exact BitVector.ext hw hvalue
    | var i' w' f' =>
      simp only [mustEqual] at h
      split_ifs at h with heq
      · exact hequiv heq
      · exact hrefuted h

end LoomX.Symbolic
