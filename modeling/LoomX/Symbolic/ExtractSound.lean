import LoomX.Symbolic.Refreshing

namespace LoomX.Symbolic

open RecursiveCalls BitSlice

/-- One for an extract, whose operand weighs as much as itself. -/
def Node.bonus (n : Node) : Nat := if n.isOperator .extract then 1 else 0

/-- A bound on the rounds and calls that an `extract`, a `concat` or an `ite` takes. -/
def Node.layoutRank : Node → Nat
  | .interior .concat _ cs _ => 12 * weightAll cs + 1
  | .interior .extract _ [_, _, a] _ => 6 * a.weight + 2 + a.bonus
  | .interior .ite _ [c, x, y] _ => 6 * (c.weight + x.weight + y.weight + 1) + 4 + x.bonus
  | _ => 0

/-- The operators whose rules call each other. -/
def Node.isLayout (n : Node) : Bool :=
  n.isOperator .concat || n.isOperator .extract || n.isOperator .ite

/-- `simplifyTop` returns a node that means and weighs no more. -/
abbrev Light (E : Engine) (other : Nat → Nat → List BitVector → Nat) (n : Node) : Prop :=
  Sound E other (fun m => m.weight ≤ n.weight) n

def LayoutBelow (E : Engine) (other : Nat → Nat → List BitVector → Nat) (r : Nat) : Prop :=
  ∀ n : Node, n.isLayout = true → n.layoutRank < r → n.Fresh E → Light E other n

theorem LayoutBelow.mono {E : Engine} {other : Nat → Nat → List BitVector → Nat} {r r' : Nat}
    (h : LayoutBelow E other r) (hle : r' ≤ r) : LayoutBelow E other r' :=
  fun n hn hrank => h n hn (Nat.lt_of_lt_of_le hrank hle)

theorem bonus_le (n : Node) : n.bonus ≤ 1 := by
  unfold Node.bonus
  split <;> omega

/-- What the constructor of an `extract` asks, and that it stays within the operand. -/
structure Limits (lo hi : BitVector) (a : Node) : Prop where
  loSize : IsWidth lo.size ∧ lo.size ≤ 64
  hiSize : IsWidth hi.size ∧ hi.size ≤ 64
  lt : lo.value < hi.value
  le : hi.value ≤ a.nBits

/-- An extract from an operand. -/
abbrev extractNode (lo hi : BitVector) (fl fh : Nat) (a : Node) (f : Nat) : Node :=
  newInterior .extract [.constant lo fl, .constant hi fh, a] f

section

variable {E : Engine} {other : Nat → Nat → List BitVector → Nat} {lo hi : BitVector}
  {fl fh f : Nat} {a : Node}

theorem Limits.isWidth (h : Limits lo hi a) (ha : a.Done E) : IsWidth (hi.value - lo.value) := by
  have hlt := h.lt
  have hle := h.le
  have hmax := ha.valid.isWidth.2
  exact ⟨by omega, by omega⟩

theorem Limits.shape (h : Limits lo hi a) :
    Operator.extract.Shape (hi.value - lo.value) [.constant lo fl, .constant hi fh, a] :=
  ⟨lo, fl, hi, fh, a, rfl, h.loSize.2, h.hiSize.2, h.lt, h.le, rfl⟩

theorem Limits.fresh (h : Limits lo hi a) (ha : a.Done E) : (extractNode lo hi fl fh a f).Fresh E := by
  have hfresh : (newInteriorOf (hi.value - lo.value) .extract [.constant lo fl, .constant hi fh, a]
      f).Fresh E := by
    refine fresh_newInteriorOf (h.isWidth ha) h.shape (fun c hc => ?_) f
    simp only [List.mem_cons, List.not_mem_nil, or_false] at hc
    rcases hc with rfl | rfl | rfl
    · exact done_constant h.loSize.1
    · exact done_constant h.hiSize.1
    · exact ha
  exact hfresh

theorem extractNode_value (env : Nat → Nat) :
    ((extractNode lo hi fl fh a f).eval other env).value =
      slice (a.eval other env).value lo.value hi.value := eval_extract_value rfl

theorem weight_extract {w : Nat} :
    (Node.interior .extract w [.constant lo fl, .constant hi fh, a] f).weight = a.weight := by
  rw [weight_interior]
  simp only [weightAll_cons, weight_constant, weightAll_nil, Operator.weigh]
  omega

theorem extractNode_weight : (extractNode lo hi fl fh a f).weight = a.weight := weight_extract

theorem extractNode_layoutRank : (extractNode lo hi fl fh a f).layoutRank = 6 * a.weight + 2 + a.bonus := rfl

/-- A 32-bit constant for a position within a type. -/
theorem limits_position {lo hi : Nat} (hlt : lo < hi) (hle : hi ≤ a.nBits) (ha : a.Done E) :
    Limits (.fromInteger 32 lo) (.fromInteger 32 hi) a ∧
      (BitVector.fromInteger 32 lo).value = lo ∧ (BitVector.fromInteger 32 hi).value = hi := by
  have hmax := ha.valid.isWidth.2
  have hlo : (BitVector.fromInteger 32 lo).value = lo := by
    apply BitVector.fromInteger_value_of_lt
    simp only [maxBits] at hmax
    omega
  have hhi : (BitVector.fromInteger 32 hi).value = hi := by
    apply BitVector.fromInteger_value_of_lt
    simp only [maxBits] at hmax
    omega
  have hwidth : IsWidth 32 ∧ 32 ≤ 64 := by simp [IsWidth, maxBits]
  exact ⟨⟨hwidth, hwidth, by rw [hlo, hhi]; exact hlt, by rw [hhi]; exact hle⟩, hlo, hhi⟩

/-- An extract below the rank simplifies to the bits it takes. -/
theorem reaches_makeExtract {r : Nat} (hbelow : LayoutBelow E other r) {lo hi : Nat} (hlt : lo < hi)
    (hle : hi ≤ a.nBits) (ha : a.Done E) (hr : 6 * a.weight + 2 + a.bonus < r) :
    Reaches simplifyLoop (fun m => m.Done E ∧ m.nBits = hi - lo ∧ m.weight ≤ a.weight ∧
      ∀ env, E.Admits env → (m.eval other env).value = slice (a.eval other env).value lo hi)
      (makeExtract E (makeIntegerConstant 32 lo) (makeIntegerConstant 32 hi) a) := by
  obtain ⟨hlimits, hlo, hhi⟩ := limits_position hlt hle ha
  have hlight := hbelow (extractNode (.fromInteger 32 lo) (.fromInteger 32 hi) 0 0 a 0) rfl
    (by rw [extractNode_layoutRank]; omega) (hlimits.fresh ha)
  obtain ⟨m, hm, hdone, hagrees, hweight⟩ := hlight
  refine reaches_invoke ⟨m, hm, hdone, ?_, ?_, fun env henv => ?_⟩
  · rw [hagrees.width]
    show (BitVector.fromInteger 32 hi).value - (BitVector.fromInteger 32 lo).value = _
    rw [hlo, hhi]
  · rw [extractNode_weight] at hweight
    exact hweight
  · rw [hagrees.eval env henv, extractNode_value, hlo, hhi]

end

/-- The value of parts of which the least significant comes first. -/
def partsValue (other : Nat → Nat → List BitVector → Nat) (env : Nat → Nat) (parts : List Node) :
    Nat :=
  BitVector.joined (parts.reverse.map (Node.eval other env))

section

variable {E : Engine} {other : Nat → Nat → List BitVector → Nat} {env : Nat → Nat}

theorem partsValue_cons (part : Node) (parts : List Node) :
    partsValue other env (part :: parts) =
      2 ^ part.nBits * partsValue other env parts + (part.eval other env).value := by
  unfold partsValue
  rw [List.reverse_cons, List.map_append, BitVector.joined_append]
  simp [BitVector.joined]

theorem value_lt (n : Node) : (n.eval other env).value < 2 ^ n.nBits := by
  have hlt := (n.eval other env).isLt
  rwa [Node.eval_size] at hlt

/-- The parts that `takeParts` gives: settled, together as wide as asked, with the bits asked
for. -/
structure Taken (E : Engine) (other : Nat → Nat → List BitVector → Nat) (parts : List Node)
    (lo hi : Nat) (ms : List Node) : Prop where
  done : ∀ m ∈ ms, m.Done E
  width : (ms.map Node.nBits).sum = hi - lo
  weight : weightAll ms ≤ weightAll parts
  value : ∀ env, E.Admits env →
    partsValue other env ms = slice (partsValue other env parts) lo hi

theorem taken_nil {parts : List Node} {lo hi : Nat} (h : hi ≤ lo) :
    Taken E other parts lo hi [] :=
  ⟨fun m hm => absurd hm List.not_mem_nil, by simp; omega, Nat.zero_le _,
    fun env _ => (slice_empty h).symm⟩

/-- A part, or what is taken of it, before what is taken of the parts above it. -/
theorem Taken.cons {part m : Node} {parts ms : List Node} {lo hi : Nat}
    (hms : Taken E other parts 0 (hi - part.nBits) ms) (hlo : lo ≤ part.nBits) (hhi : lo ≤ hi)
    (hm : m.Done E) (hwidth : m.nBits = min hi part.nBits - lo) (hweight : m.weight ≤ part.weight)
    (hvalue : ∀ env, E.Admits env → (m.eval other env).value =
      slice (part.eval other env).value lo (min hi part.nBits)) :
    Taken E other (part :: parts) lo hi (m :: ms) where
  done := by
    intro d hd
    rcases List.mem_cons.mp hd with rfl | hd
    · exact hm
    · exact hms.done d hd
  width := by
    rw [List.map_cons, List.sum_cons, hms.width, hwidth]
    omega
  weight := by
    have hrest := hms.weight
    rw [weightAll_cons, weightAll_cons]
    omega
  value := by
    intro env henv
    rw [partsValue_cons, partsValue_cons, hms.value env henv, hvalue env henv, hwidth,
      slice_cut (value_lt part) hlo]

/-- The walk through the parts takes the bits from `lo` up to `hi`, counted from the least
significant bit of the first part. -/
theorem reaches_takeParts {r : Nat} (hbelow : LayoutBelow E other r) {parts : List Node}
    (hparts : ∀ p ∈ parts, p.Done E ∧ 6 * p.weight + 3 < r) {partAt lo hi : Nat}
    (hwithin : hi ≤ lo ∧ hi ≤ partAt ∨ partAt ≤ lo ∧ lo < hi ∧
      hi ≤ partAt + (parts.map Node.nBits).sum) :
    Reaches simplifyLoop (Taken E other parts (lo - partAt) (hi - partAt))
      (takeParts E partAt lo hi parts) := by
  induction parts generalizing partAt lo with
  | nil =>
    apply taken_nil
    simp only [List.map_nil, List.sum_nil] at hwithin
    omega
  | cons part parts ih =>
    obtain ⟨hpart, hr'⟩ := hparts part List.mem_cons_self
    have hbonus := bonus_le part
    have hr : 6 * part.weight + 2 + part.bonus < r := by omega
    have hrest := fun p hp => hparts p (List.mem_cons_of_mem part hp)
    simp only [List.map_cons, List.sum_cons] at hwithin
    -- the parts above this one, from the bit `start`
    have htail : ∀ start, (hi ≤ start ∧ hi ≤ partAt + part.nBits ∨ start = partAt + part.nBits ∧
        start ≤ hi ∧ hi ≤ start + (parts.map Node.nBits).sum) →
        Reaches simplifyLoop (Taken E other parts 0 (hi - partAt - part.nBits))
          (takeParts E (partAt + part.nBits) start hi parts) := by
      intro start hstart
      refine (ih hrest (by omega)).mono fun ms hms => ?_
      rcases hstart with ⟨hle, hle'⟩ | ⟨rfl, -, -⟩
      · refine ⟨hms.done, ?_, hms.weight, fun env henv => ?_⟩
        · rw [hms.width]
          omega
        · rw [hms.value env henv, slice_empty (by omega), slice_empty (by omega)]
      · rwa [Nat.sub_self, ← Nat.sub_sub] at hms
    rw [takeParts]
    split
    next hskip =>
      refine (ih hrest (by omega)).mono fun ms hms => ⟨hms.done, ?_, ?_, fun env henv => ?_⟩
      · rw [hms.width]
        omega
      · have hweight := hms.weight
        rw [weightAll_cons]
        omega
      · rw [hms.value env henv, partsValue_cons, slice_high (value_lt part) (by omega),
          Nat.sub_sub, Nat.sub_sub]
    next hskip =>
    split
    next hdone => exact taken_nil (by omega)
    next hdone =>
    split
    next hmiddle =>
      have hlt : lo - partAt < hi - partAt := by omega
      refine (reaches_makeExtract hbelow hlt (by omega) hpart hr).bind fun m hm => ?_
      obtain ⟨hmDone, hmWidth, hmWeight, hmValue⟩ := hm
      refine (htail _ (by omega)).bind fun ms hms => ?_
      have hmin : min (hi - partAt) part.nBits = hi - partAt := by omega
      exact hms.cons (by omega) (by omega) hmDone (by rw [hmin, hmWidth]) hmWeight
        fun env henv => by rw [hmin, hmValue env henv]
    next hmiddle =>
    split
    next hend =>
      have hlt : lo - partAt < part.nBits := by omega
      refine (reaches_makeExtract hbelow hlt (Nat.le_refl _) hpart hr).bind fun m hm => ?_
      obtain ⟨hmDone, hmWidth, hmWeight, hmValue⟩ := hm
      refine (htail _ (by omega)).bind fun ms hms => ?_
      have hmin : min (hi - partAt) part.nBits = part.nBits := by omega
      exact hms.cons (by omega) (by omega) hmDone (by rw [hmin, hmWidth]) hmWeight
        fun env henv => by rw [hmin, hmValue env henv]
    next hend =>
    have heq : partAt = lo := by omega
    subst heq
    split
    next hbegin =>
      have hlt : 0 < hi - partAt := by omega
      refine (reaches_makeExtract hbelow hlt (by omega) hpart hr).bind fun m hm => ?_
      obtain ⟨hmDone, hmWidth, hmWeight, hmValue⟩ := hm
      have hmin : min (hi - partAt) part.nBits = hi - partAt := by omega
      rw [Nat.sub_self]
      have hnil : Taken E other parts 0 (hi - partAt - part.nBits) [] := taken_nil (by omega)
      exact hnil.cons (by omega) (by omega) hmDone (by rw [hmin, hmWidth]) hmWeight
        fun env henv => by rw [hmin, hmValue env henv]
    next hbegin =>
      have hmin : min (hi - partAt) part.nBits = part.nBits := by omega
      refine (htail _ (by omega)).bind fun ms hms => ?_
      rw [Nat.sub_self]
      exact hms.cons (by omega) (by omega) hpart (by rw [hmin]; rfl) (Nat.le_refl _)
        fun env henv => by rw [hmin, slice_all (value_lt part)]

end

section

variable {E : Engine} {other : Nat → Nat → List BitVector → Nat}

theorem fresh_concat {w : Nat} {cs : List Node} (hw : IsWidth w) (hne : cs ≠ [])
    (hsum : (cs.map Node.nBits).sum = w) (hcs : ∀ c ∈ cs, c.Done E) (f : Nat) :
    (newInterior .concat cs f).Fresh E ∧ (newInterior .concat cs f).nBits = w := by
  subst hsum
  have hshape : Operator.concat.Shape (cs.map Node.nBits).sum cs := ⟨hne, rfl⟩
  exact ⟨fresh_newInteriorOf hw hshape hcs f, rfl⟩

theorem concat_layoutRank (cs : List Node) (f : Nat) :
    (newInterior .concat cs f).layoutRank = 12 * weightAll cs + 1 := rfl

theorem concat_weight (cs : List Node) (f : Nat) :
    (newInterior .concat cs f).weight = 2 * weightAll cs := weight_interior _ _ _ _

/-- What stands for the bits of a node from `lo` up to `hi`. -/
structure TakenFrom (E : Engine) (other : Nat → Nat → List BitVector → Nat) (a : Node)
    (lo hi : Nat) (m : Node) : Prop where
  done : m.Done E
  width : m.nBits = hi - lo
  weight : m.weight ≤ a.weight
  value : ∀ env, E.Admits env →
    (m.eval other env).value = slice (a.eval other env).value lo hi

theorem progress_extractConcat {w f : Nat} {parts : List Node} {lo hi r : Nat}
    (ha : (Node.interior .concat w parts f).Done E) (hlt : lo < hi) (hle : hi ≤ w)
    (hr : 12 * weightAll parts + 1 < r) (hbelow : LayoutBelow E other r) :
    Progress (TakenFrom E other (.interior .concat w parts f) lo hi)
      (extractConcat E lo hi parts) := by
  have hsum : (parts.map Node.nBits).sum = w := ha.valid.2.1.2
  have hmem : ∀ p ∈ parts.reverse, p.Done E ∧ 6 * p.weight + 3 < r := by
    intro p hp
    have hp' := List.mem_reverse.mp hp
    have hweight := weight_le_of_mem hp'
    have hpos := weight_pos p (ha.child hp').valid
    exact ⟨ha.child hp', by omega⟩
  have hwithin : hi ≤ lo ∧ hi ≤ 0 ∨ 0 ≤ lo ∧ lo < hi ∧
      hi ≤ 0 + (parts.reverse.map Node.nBits).sum := by
    rw [List.map_reverse, List.sum_reverse, hsum]
    omega
  have hmax := ha.valid.isWidth.2
  simp only [Node.nBits] at hmax
  have hvalue : ∀ env, partsValue other env parts.reverse =
      ((Node.interior .concat w parts f).eval other env).value := by
    intro env
    rw [eval_concat_value hsum, partsValue, List.reverse_reverse]
  refine Or.inr ((reaches_takeParts hbelow hmem hwithin).bind fun ms hms => ?_)
  have hwidth := hms.width
  have hweight := hms.weight
  rw [weightAll_reverse] at hweight
  have htwice : (Node.interior .concat w parts f).weight = 2 * weightAll parts :=
    weight_interior _ _ _ _
  rcases ms with _ | ⟨m, _ | ⟨m', rest⟩⟩
  · simp only [List.map_nil, List.sum_nil] at hwidth
    omega
  · refine ⟨m, rfl, hms.done m List.mem_cons_self, ?_, ?_, fun env henv => ?_⟩
    · simpa using hwidth
    · rw [htwice]
      simp only [weightAll_cons, weightAll_nil] at hweight
      omega
    · have hm := hms.value env henv
      rwa [hvalue, partsValue, List.reverse_singleton, List.map_singleton,
        BitVector.joined_singleton, Nat.sub_zero, Nat.sub_zero] at hm
  · have hsum' : (((m :: m' :: rest).reverse).map Node.nBits).sum = hi - lo := by
      rw [List.map_reverse, List.sum_reverse, hwidth, Nat.sub_zero, Nat.sub_zero]
    obtain ⟨hfresh, hbits⟩ := fresh_concat (E := E) ⟨by omega, by omega⟩ (by simp) hsum'
      (fun c hc => hms.done c (List.mem_reverse.mp hc)) 0
    have hlight := hbelow _ rfl
      (by rw [concat_layoutRank, weightAll_reverse]; omega) hfresh
    refine (reaches_sound hlight).bind fun k hk => ?_
    obtain ⟨hdone, hagrees, hk⟩ := hk
    refine ⟨k, rfl, hdone, hagrees.width.trans hbits, ?_, fun env henv => ?_⟩
    · rw [concat_weight, weightAll_reverse] at hk
      omega
    · have hm := hms.value env henv
      have hconcat : ((newInterior .concat (m :: m' :: rest).reverse 0).eval other env).value =
          partsValue other env (m :: m' :: rest) := eval_concat_value rfl
      rw [hagrees.eval env henv, hconcat, hm, hvalue, Nat.sub_zero, Nat.sub_zero]

theorem extractConcat_ne_none (E : Engine) (lo hi : Nat) (parts : List Node) :
    extractConcat E lo hi parts ≠ .ret none := by
  intro h
  obtain ⟨ms, -, hms⟩ := Calls.bind_eq_ret h
  rcases ms with _ | ⟨m, _ | ⟨m', rest⟩⟩ <;> cases hms

/-- The operand of a settled extract is neither constant nor a concatenation or an extract. -/
theorem operand_of_settled_extract {w f fl fh : Nat} {lo hi : BitVector} {a : Node}
    (h : (Node.interior .extract w [.constant lo fl, .constant hi fh, a] f).Done E) :
    a.isIntegerConstant = false ∧ a.isOperator .concat = false ∧ a.isOperator .extract = false := by
  obtain ⟨lo', fl', hi', fh', a', heq, -, -, hlt, hle, -⟩ := h.valid.2.1
  cases heq
  have hvalid := (h.child (c := a) (by simp)).valid
  have hround : rewriteExtract E (.interior .extract w [.constant lo fl, .constant hi fh, a] f) =
    .ret none := h.settled.1
  have hwithin : ¬ (hi.value ≤ lo.value ∨ a.nBits < hi.value) := by omega
  cases a with
  | var i w' f' => exact ⟨rfl, rfl, rfl⟩
  | constant b f' =>
    simp only [rewriteExtract, if_neg hwithin] at hround
    cases hround
  | interior op w' cs f' =>
    simp only [rewriteExtract, if_neg hwithin] at hround
    split at hround
    next => cases hround
    next =>
      refine ⟨rfl, ?_, ?_⟩
      · by_contra hop
        have hconcat : op = .concat := by simpa [Node.isOperator] using hop
        subst hconcat
        exact extractConcat_ne_none E _ _ _ hround
      · by_contra hop
        have hextract : op = .extract := by simpa [Node.isOperator] using hop
        subst hextract
        obtain ⟨lo2, fl2, hi2, fh2, b, rfl, -⟩ := hvalid.2.1
        cases hround

/-- Operands of which no extract is left to simplify. -/
theorem progress_extractFrom {a : Node} {lo hi r : Nat} (ha : a.Done E) (hlt : lo < hi)
    (hle : hi ≤ a.nBits) (hr : r = 6 * a.weight + 2 + a.bonus) (hbelow : LayoutBelow E other r) :
    Progress (TakenFrom E other a lo hi) (extractFrom E lo hi a) := by
  unfold extractFrom
  split
  next w parts f =>
    have htwice : (Node.interior .concat w parts f).weight = 2 * weightAll parts :=
      weight_interior _ _ _ _
    exact progress_extractConcat ha hlt hle (by omega) hbelow
  next w lo' fl hi' fh b f =>
    obtain ⟨lo'', fl', hi'', fh', b', heq, -, -, hlt', hle', hw⟩ := ha.valid.2.1
    cases heq
    have hb := ha.child (c := b) (by simp)
    have hoperand := (operand_of_settled_extract ha).2.2
    have hbonus : b.bonus = 0 := if_neg (by simp [hoperand])
    have hbonus' : (Node.interior .extract w [.constant lo' fl, .constant hi' fh, b] f).bonus = 1 := rfl
    have hweight : (Node.interior .extract w [.constant lo' fl, .constant hi' fh, b] f).weight =
      b.weight := weight_extract
    have hnBits : (Node.interior .extract w [.constant lo' fl, .constant hi' fh, b] f).nBits = w := rfl
    have hltSum : lo'.value + lo < lo'.value + hi := by omega
    have hreaches := reaches_makeExtract hbelow hltSum (by omega) hb (by omega)
    refine progress_reaches (hreaches.mono fun m hm => ?_)
    obtain ⟨hdone, hwidth, hmWeight, hvalue⟩ := hm
    refine ⟨hdone, by omega, by omega, fun env henv => ?_⟩
    rw [hvalue env henv, eval_extract_value hw, slice_slice (by omega)]
  next w n b f =>
    split
    next hwhole =>
      obtain ⟨rfl, hhi, rfl⟩ := hwhole
      have hb := ha.child (c := b) (by simp)
      refine progress_some ⟨hb, by simp, ?_, fun env henv => ?_⟩
      · rw [weight_interior]
        simp only [weightAll_cons, weightAll_nil, Operator.weigh]
        omega
      · have hlt' := @value_lt other env b
        have hpow : 2 ^ b.nBits ≤ 2 ^ w := Nat.pow_le_pow_right (by omega) hhi
        rw [eval_uextend_value, Nat.mod_eq_of_lt (by omega), slice_all hlt']
    next => exact progress_none _
  next => exact progress_none _

/-- An extract simplifies to the bits of its operand that it takes. -/
theorem extract_light {w f : Nat} {cs : List Node} (hfresh : (Node.interior .extract w cs f).Fresh E)
    (hbelow : LayoutBelow E other (Node.interior .extract w cs f).layoutRank) :
    Light E other (.interior .extract w cs f) := by
  obtain ⟨lo, fl, hi, fh, a, rfl, -, -, hlt, hle, hw⟩ := hfresh.valid.2.1
  have ha := hfresh.operand (c := a) (by simp)
  have hweight : (Node.interior .extract w [.constant lo fl, .constant hi fh, a] f).weight =
      a.weight := weight_extract
  -- what stands for the bits of the operand stands for the extract
  have hnext : ∀ m, TakenFrom E other a lo.value hi.value m →
      Next E other (fun k => k.weight ≤ (Node.interior .extract w
        [.constant lo fl, .constant hi fh, a] f).weight)
        (.interior .extract w [.constant lo fl, .constant hi fh, a] f) m := by
    intro m hm
    refine next_of_settled hm.done (.of_value (hm.width.trans hw) fun env henv => ?_) ?_
    · rw [hm.value env henv, eval_extract_value hw]
    · rw [hweight]
      exact hm.weight
  refine sound_of_round hfresh (fun _ => Nat.le_refl _) ?_
  show Progress _ (rewriteExtract E (.interior .extract w [.constant lo fl, .constant hi fh, a] f))
  have hwithin : ¬ (hi.value ≤ lo.value ∨ a.nBits < hi.value) := by omega
  have hwhole : lo.value = 0 ∧ hi.value = a.nBits → TakenFrom E other a lo.value hi.value a := by
    rintro ⟨hlo, hhi⟩
    refine ⟨ha, by omega, Nat.le_refl _, fun env _ => ?_⟩
    rw [hlo, hhi, slice_all (value_lt a)]
  have hfrom := progress_extractFrom ha hlt hle rfl hbelow
  have hfrom' : Progress _ (extractFrom E lo.value hi.value a) :=
    hfrom.imp_right fun h => h.mono fun r hr => hr.imp fun m hm => ⟨hm.1, hnext m hm.2⟩
  cases a with
  | constant b g =>
    simp only [rewriteExtract, if_neg hwithin]
    have hwidth : IsWidth (b.extract lo.value hi.value).size := by
      have hmax := ha.valid.isWidth.2
      simp only [Node.nBits] at hmax hle
      exact ⟨by simp [BitVector.extract]; omega, by simp [BitVector.extract]; omega⟩
    exact progress_some (hnext _ ⟨done_constant hwidth, rfl, by simp, fun env _ => rfl⟩)
  | _ =>
    simp only [rewriteExtract, if_neg hwithin]
    split
    next h => exact progress_some (hnext _ (hwhole h))
    next => exact hfrom'

end

end LoomX.Symbolic
