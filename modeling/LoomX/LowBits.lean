import LoomX.BitOps

namespace LoomX.BitOps

/-- What an evaluation that is not stopped computes. -/
def Computes {α : Type} (x : Result α) (p : α → Prop) : Prop := ∀ a, x = .ok a → p a

/-- The bits of the value of an evaluation that is not stopped. -/
def HasBits {T : UnsignedType} (x : Result T.Value) (f : Nat → Bool) : Prop :=
  Computes x fun v => ∀ i, v.getLsbD i = f i

/-- A shift of a value of any width with the bits that come in, ones as zeros of the complement. -/
def shiftLeftFill {w : Nat} (x : BitVec w) (n : Nat) (b : Bool) : BitVec w :=
  if b then ~~~(~~~x <<< n) else x <<< n

def shiftRightFill {w : Nat} (x : BitVec w) (n : Nat) (b : Bool) : BitVec w :=
  if b then ~~~(~~~x >>> n) else x >>> n

/-- The operations on the low-order bits, with their arguments apart from the value and the
number of bits. -/
inductive LsbOp
  | shiftLeft (n : Nat) (b : Bool)
  | shiftRight (n : Nat) (b : Bool)
  | shiftRightSigned (n : Nat)
  | rotateLeft (n : Nat)
  | rotateRight (n : Nat)

namespace LsbOp

/-- The operation on all bits of a value of any width. -/
def onBits {w : Nat} (x : BitVec w) : LsbOp → BitVec w
  | shiftLeft n b => shiftLeftFill x n b
  | shiftRight n b => shiftRightFill x n b
  | shiftRightSigned n => x.sshiftRight n
  | rotateLeft n => x.rotateLeft n
  | rotateRight n => x.rotateRight n

def fullWidth (T : UnsignedType) (src : T.Value) : LsbOp → Result T.Value
  | shiftLeft n b => BitOps.shiftLeft T src n b
  | shiftRight n b => BitOps.shiftRight T src n b
  | shiftRightSigned n => BitOps.shiftRightSigned T src n
  | rotateLeft n => BitOps.rotateLeft T src n
  | rotateRight n => BitOps.rotateRight T src n

def lsb (T : UnsignedType) (src : T.Value) (w : Nat) : LsbOp → Result T.Value
  | shiftLeft n b => shiftLeftLsb T src w n b
  | shiftRight n b => shiftRightLsb T src w n b
  | shiftRightSigned n => shiftRightSignedLsb T src w n
  | rotateLeft n => rotateLeftLsb T src w n
  | rotateRight n => rotateRightLsb T src w n

/-- The low-order bits become those of the operation on a value of their number, and the others
stay. -/
def Refines (T : UnsignedType) (src : T.Value) (w : Nat) (op : LsbOp) : Prop :=
  ∃ v, op.lsb T src w = .ok v ∧ v.setWidth w = op.onBits (src.setWidth w) ∧
    ∀ i, w ≤ i → v.getLsbD i = src.getLsbD i

/-- The operation masks no high-order bits: it shifts `w` bits to the right by nothing. -/
def MasksNothing (w : Nat) : LsbOp → Prop
  | shiftRight n _ | shiftRightSigned n => 0 < w ∧ n = 0
  | rotateRight n => 0 < w ∧ n % w = 0
  | shiftLeft _ _ | rotateLeft _ => False

end LsbOp

/-- Each rotation of the low-order bits undoes the other one by the same count. -/
def RotationsInverse (T : UnsignedType) (src : T.Value) (w n : Nat) : Prop :=
  (do rotateRightLsb T (← rotateLeftLsb T src w n) w n) = .ok src ∧
    (do rotateLeftLsb T (← rotateRightLsb T src w n) w n) = .ok src

section
variable {T : UnsignedType} {α β : Type} {p : α → Prop} {q : β → Prop}

theorem Computes.ok {a : α} (h : p a) : Computes (.ok a) p := by
  intro b hb
  cases hb
  exact h

theorem Computes.bind {x : Result α} {f : α → Result β} (hx : Computes x p)
    (hf : ∀ a, p a → Computes (f a) q) : Computes (x >>= f) q := by
  intro b hb
  cases x with
  | ok a => exact hf a (hx a rfl) b hb
  | error e => cases hb

theorem Computes.require {c : Prop} [Decidable c] {f : Unit → Result β}
    (hf : c → Computes (f ()) q) : Computes (assertRequire c >>= f) q := by
  unfold assertRequire
  split
  next h => exact hf h
  next =>
    intro b hb
    cases hb

/-- An evaluation that nothing stops has a value. -/
theorem ok_of_fault {x : Result α} (h : fault x = none) : ∃ a, x = .ok a := by
  cases x with
  | ok a => exact ⟨a, rfl⟩
  | error f => cases h

theorem fault_of_ok {x : Result α} {a : α} (h : x = .ok a) : fault x = none := by
  rw [h, fault_ok]

theorem shl_computes (src : T.Value) (n : Nat) : Computes (shl T src n) (· = src <<< n) := by
  unfold shl
  split
  next => exact .ok rfl
  next =>
    intro v hv
    cases hv

theorem shr_computes (src : T.Value) (n : Nat) : Computes (shr T src n) (· = src >>> n) :=
  fun _ hv => shr_eq_ok T hv

theorem all_bits (b : Bool) (i : Nat) : (all T b).getLsbD i = (decide (i < T.nBits) && b) := by
  cases b with
  | true =>
    have hall : all T true = BitVec.allOnes T.nBits :=
      BitVec.eq_of_toNat_eq ((toNat_all_true T).trans (BitVec.toNat_allOnes).symm)
    rw [hall, BitVec.getLsbD_allOnes, Bool.and_true]
  | false =>
    have hall : all T false = 0#T.nBits := by
      cases T <;> rfl
    rw [hall, BitVec.getLsbD_zero, Bool.and_false]

theorem select_bits (cond a b : T.Value) (i : Nat) :
    (select T cond a b).getLsbD i = if cond.getLsbD i then a.getLsbD i else b.getLsbD i := by
  unfold select
  rw [BitVec.getLsbD_or, BitVec.getLsbD_and, BitVec.getLsbD_and, BitVec.getLsbD_not]
  by_cases hi : i < T.nBits
  · cases cond.getLsbD i <;> simp [hi]
  · simp [BitVec.getLsbD_of_ge _ i (Nat.le_of_not_lt hi)]

theorem lowMask_bits (n : Nat) :
    HasBits (lowMask T n) fun i => decide (i < T.nBits) && decide (i < n) := by
  intro m hm i
  by_cases hn : n ≤ T.nBits
  · obtain ⟨m', hm', hvalue⟩ := toNat_lowMask hn
    cases Except.ok.inj (hm'.symm.trans hm)
    rw [BitVec.getLsbD, hvalue, Nat.testBit_two_pow_sub_one]
    by_cases hi : i < n
    · simp [hi, Nat.lt_of_lt_of_le hi hn]
    · simp [hi]
  · rw [lowMask, if_pos (by omega)] at hm
    cases hm
    rw [all_bits, Bool.and_true]
    by_cases hi : i < T.nBits
    · simp [hi, show i < n by omega]
    · simp [hi]

theorem highMask_bits (n : Nat) :
    HasBits (highMask T n) fun i => decide (i < T.nBits) && decide (T.nBits ≤ i + n) := by
  unfold highMask
  split
  next h =>
    refine .ok fun i => ?_
    rw [all_bits]
    simp [show T.nBits ≤ i + n by omega]
  next h =>
    refine (lowMask_bits n).bind fun low hlow => ?_
    intro m hm i
    rw [shl_computes low _ m hm, BitVec.getLsbD_shiftLeft, hlow]
    by_cases hi : i < T.nBits
    · by_cases hhigh : T.nBits ≤ i + n
      · have hplace : ¬ i < T.nBits - n := by omega
        have hbelow : i - (T.nBits - n) < n := by omega
        simp [hi, hhigh, hplace, hbelow, show i - (T.nBits - n) < T.nBits by omega]
      · simp [hhigh, show i < T.nBits - n by omega]
    · simp [hi]

theorem shiftLeft_bits (src : T.Value) (n : Nat) (b : Bool) :
    HasBits (shiftLeft T src n b) fun i =>
      decide (i < T.nBits) && if i < n then b else src.getLsbD (i - n) := by
  unfold shiftLeft
  split
  next h =>
    refine .ok fun i => ?_
    rw [all_bits]
    by_cases hi : i < T.nBits
    · simp [hi, show i < n by omega]
    · simp [hi]
  next h =>
    refine (shl_computes src n).bind fun shifted hshifted => ?_
    refine (lowMask_bits n).bind fun low hlow => ?_
    refine .ok fun i => ?_
    rw [hshifted, BitVec.getLsbD_or, BitVec.getLsbD_and, BitVec.getLsbD_shiftLeft, all_bits, hlow]
    by_cases hi : i < n
    · simp [hi, Bool.and_comm]
    · simp [hi]

theorem shiftRight_bits (src : T.Value) (n : Nat) (b : Bool) :
    HasBits (shiftRight T src n b) fun i =>
      decide (i < T.nBits) && if i + n < T.nBits then src.getLsbD (i + n) else b := by
  unfold shiftRight
  split
  next h =>
    refine .ok fun i => ?_
    rw [all_bits]
    simp [show ¬ i + n < T.nBits by omega]
  next h =>
    refine (shr_computes src n).bind fun shifted hshifted => ?_
    refine (highMask_bits n).bind fun high hhigh => ?_
    refine .ok fun i => ?_
    rw [hshifted, BitVec.getLsbD_or, BitVec.getLsbD_and, BitVec.getLsbD_ushiftRight, all_bits,
      hhigh, Nat.add_comm n i]
    by_cases hi : i + n < T.nBits
    · simp [hi, show i < T.nBits by omega, show ¬ T.nBits ≤ i + n by omega]
    · simp [hi, show T.nBits ≤ i + n by omega, Bool.and_comm]

theorem allLsb_bits (src : T.Value) (w : Nat) (b : Bool) :
    HasBits (allLsb T src w b) fun i => if i < w then b else src.getLsbD i := by
  refine Computes.require fun hw => ?_
  cases b with
  | true =>
    refine (lowMask_bits w).bind fun low hlow => .ok fun i => ?_
    rw [BitVec.getLsbD_or, hlow]
    by_cases hi : i < w
    · simp [hi, show i < T.nBits by omega]
    · simp [hi]
  | false =>
    refine (lowMask_bits w).bind fun low hlow => .ok fun i => ?_
    rw [BitVec.getLsbD_and, BitVec.getLsbD_not, hlow]
    by_cases hi : i < w
    · simp [hi, show i < T.nBits by omega]
    · by_cases hin : i < T.nBits
      · simp [hi, hin]
      · simp [hi, BitVec.getLsbD_of_ge src i (Nat.le_of_not_lt hin)]

theorem shiftLeftLsb_bits (src : T.Value) (w n : Nat) (b : Bool) :
    HasBits (shiftLeftLsb T src w n b) fun i =>
      if i < w then if i < n then b else src.getLsbD (i - n) else src.getLsbD i := by
  refine Computes.require fun hw => ?_
  split
  next h =>
    intro v hv i
    rw [allLsb_bits src w b v hv i]
    by_cases hi : i < w
    · simp [hi, show i < n by omega]
    · simp [hi]
  next h =>
    refine (lowMask_bits w).bind fun low hlow => ?_
    refine (shiftLeft_bits src n b).bind fun shifted hshifted => .ok fun i => ?_
    rw [select_bits, hlow, hshifted]
    by_cases hi : i < w
    · simp [hi, show i < T.nBits by omega]
    · simp [hi]

theorem shiftRightLsb_bits (src : T.Value) (w n : Nat) (b : Bool) :
    HasBits (shiftRightLsb T src w n b) fun i =>
      if i < w then if i + n < w then src.getLsbD (i + n) else b else src.getLsbD i := by
  refine Computes.require fun hw => ?_
  split
  next h =>
    intro v hv i
    rw [allLsb_bits src w b v hv i]
    by_cases hi : i < w
    · simp [hi, show ¬ i + n < w by omega]
    · simp [hi]
  next h =>
    refine (lowMask_bits w).bind fun low hlow => ?_
    refine (shiftRight_bits _ n b).bind fun shifted hshifted => .ok fun i => ?_
    rw [select_bits, hlow, hshifted]
    by_cases hi : i < w
    · -- what is shifted into the low-order bits comes from them or is the fill of `toShift`
      have hin : i < T.nBits := by omega
      have hshift : (if i + n < T.nBits then (select T low src (all T b)).getLsbD (i + n) else b) =
          if i + n < w then src.getLsbD (i + n) else b := by
        rw [select_bits, hlow, all_bits]
        by_cases hfrom : i + n < w
        · simp [hfrom, show i + n < T.nBits by omega]
        · by_cases hbelow : i + n < T.nBits
          · simp [hfrom, hbelow]
          · simp [hfrom, hbelow]
      simp [hi, hin, hshift]
    · simp [hi]

theorem position_bits {i : Nat} (hi : i < T.nBits) :
    HasBits (position T i) fun j => decide (j = i) := by
  intro v hv j
  rw [position, if_pos hi] at hv
  rw [shiftLeft_bits _ _ _ v hv j, show (1 : T.Value) = 1#T.nBits from rfl]
  by_cases hj : j = i
  · simp [hj, hi, nBits_pos]
  · by_cases hlt : j < i
    · simp [hlt, hj]
    · simp [hlt, hj, show j - i ≠ 0 by omega]

theorem bit_computes (src : T.Value) (i : Nat) : Computes (bit T src i) (· = src.getLsbD i) := by
  unfold bit
  split
  next hi =>
    refine (position_bits hi).bind fun m hm => .ok ?_
    have hand : ∀ j, (src &&& m).getLsbD j = (src.getLsbD i && decide (j = i)) := by
      intro j
      rw [BitVec.getLsbD_and, hm]
      by_cases hj : j = i
      · simp [hj]
      · simp [hj]
    cases hbit : src.getLsbD i with
    | true =>
      have hset := hand i
      rw [hbit] at hset
      refine decide_eq_true fun hzero => ?_
      rw [hzero] at hset
      simp at hset
    | false =>
      have hzero : src &&& m = 0 := by
        apply BitVec.eq_of_getLsbD_eq
        intro j _
        rw [hand, hbit]
        simp
      exact decide_eq_false (not_not_intro hzero)
  next hi => exact .ok (BitVec.getLsbD_of_ge _ _ (by omega)).symm

theorem msb_computes (src : T.Value) : Computes (msb T src) (· = src.msb) := by
  rw [BitVec.msb_eq_getLsbD_last]
  exact bit_computes src (T.nBits - 1)

theorem msbLsb_computes (src : T.Value) (w : Nat) :
    Computes (msbLsb T src w) (· = (src.setWidth w).msb) := by
  refine Computes.require fun hw => ?_
  rw [BitVec.msb_setWidth]
  split
  next hpos =>
    rw [decide_eq_true hpos, Bool.true_and]
    exact bit_computes src (w - 1)
  next hpos =>
    rw [decide_eq_false hpos, Bool.false_and]
    exact .ok rfl

theorem rotateLeft_bits (src : T.Value) (n : Nat) :
    HasBits (rotateLeft T src n) (src.rotateLeft n).getLsbD := by
  have hlt := Nat.mod_lt n (nBits_pos T)
  refine (shiftLeft_bits src _ false).bind fun left hleft => ?_
  refine (shiftRight_bits src _ false).bind fun right hright => .ok fun i => ?_
  rw [BitVec.getLsbD_or, hleft, hright, BitVec.getLsbD_rotateLeft]
  by_cases hi : i < T.nBits
  · by_cases hfrom : i < n % T.nBits
    · have hplace : i + (T.nBits - n % T.nBits) < T.nBits := by omega
      rw [Nat.add_comm _ i]
      simp [hi, hfrom, hplace]
    · have hplace : ¬ i + (T.nBits - n % T.nBits) < T.nBits := by omega
      simp [hi, hfrom, hplace]
  · have hout : ¬ i < n % T.nBits := by omega
    simp [hi, hout]

theorem rotateRight_bits (src : T.Value) (n : Nat) :
    HasBits (rotateRight T src n) (src.rotateRight n).getLsbD := by
  have hlt := Nat.mod_lt n (nBits_pos T)
  refine (shiftRight_bits src _ false).bind fun right hright => ?_
  refine (shiftLeft_bits src _ false).bind fun left hleft => .ok fun i => ?_
  rw [BitVec.getLsbD_or, hleft, hright, BitVec.getLsbD_rotateRight]
  by_cases hi : i < T.nBits
  · by_cases hfrom : i < T.nBits - n % T.nBits
    · have hplace : i + n % T.nBits < T.nBits := by omega
      rw [Nat.add_comm _ i]
      simp [hi, hfrom, hplace]
    · have hplace : ¬ i + n % T.nBits < T.nBits := by omega
      simp [hi, hfrom, hplace]
  · have hout : ¬ i < T.nBits - n % T.nBits := by omega
    simp [hi, hout]

theorem getLsbD_shiftLeftFill {w : Nat} (x : BitVec w) (n : Nat) (b : Bool) (i : Nat) :
    (shiftLeftFill x n b).getLsbD i =
      (decide (i < w) && if i < n then b else x.getLsbD (i - n)) := by
  by_cases hi : i < w
  · unfold shiftLeftFill
    by_cases hn : i < n
    · cases b <;> simp [hi, hn]
    · have hfrom : i - n < w := by omega
      cases b <;> simp [hi, hn, hfrom]
  · rw [BitVec.getLsbD_of_ge _ i (Nat.le_of_not_lt hi), decide_eq_false hi, Bool.false_and]

theorem getLsbD_shiftRightFill {w : Nat} (x : BitVec w) (n : Nat) (b : Bool) (i : Nat) :
    (shiftRightFill x n b).getLsbD i =
      (decide (i < w) && if i + n < w then x.getLsbD (i + n) else b) := by
  by_cases hi : i < w
  · unfold shiftRightFill
    rw [Nat.add_comm i n]
    by_cases hfrom : n + i < w
    · cases b <;> simp [hi, hfrom]
    · cases b <;> simp [hi, hfrom, BitVec.getLsbD_of_ge x (n + i) (Nat.le_of_not_lt hfrom)]
  · rw [BitVec.getLsbD_of_ge _ i (Nat.le_of_not_lt hi), decide_eq_false hi, Bool.false_and]

theorem sshiftRight_eq_fill {w : Nat} (x : BitVec w) (n : Nat) :
    x.sshiftRight n = shiftRightFill x n x.msb := by
  apply BitVec.eq_of_getLsbD_eq
  intro i hi
  rw [getLsbD_shiftRightFill, BitVec.getLsbD_sshiftRight, Nat.add_comm i n]
  simp [hi]

theorem getLsbD_rotateLeft_rotation {w n i : Nat} (x : BitVec w) (hi : i < w) :
    (x.rotateLeft n).getLsbD i =
      ((if i < rotation w n then false else x.getLsbD (i - rotation w n)) ||
        if i + (w - rotation w n) < w then x.getLsbD (i + (w - rotation w n)) else false) := by
  have hlt := Nat.mod_lt n (show 0 < w by omega)
  have hrotation : rotation w n = n % w := if_neg (by omega)
  rw [hrotation, BitVec.getLsbD_rotateLeft, Nat.add_comm _ i]
  by_cases hfrom : i < n % w
  · simp [hfrom, show i + (w - n % w) < w by omega]
  · simp [hi, hfrom, show ¬ i + (w - n % w) < w by omega]

theorem getLsbD_rotateRight_rotation {w n i : Nat} (x : BitVec w) (hi : i < w) :
    (x.rotateRight n).getLsbD i =
      ((if i + rotation w n < w then x.getLsbD (i + rotation w n) else false) ||
        if i < w - rotation w n then false else x.getLsbD (i - (w - rotation w n))) := by
  have hlt := Nat.mod_lt n (show 0 < w by omega)
  have hrotation : rotation w n = n % w := if_neg (by omega)
  rw [hrotation, BitVec.getLsbD_rotateRight, Nat.add_comm _ i]
  by_cases hfrom : i < w - n % w
  · simp [hfrom, show i + n % w < w by omega]
  · simp [hi, hfrom, show ¬ i + n % w < w by omega]

theorem rotateLeftLsb_bits (src : T.Value) (w n : Nat) :
    HasBits (rotateLeftLsb T src w n) fun i =>
      if i < w then ((src.setWidth w).rotateLeft n).getLsbD i else src.getLsbD i := by
  refine Computes.require fun hw => ?_
  refine (lowMask_bits w).bind fun low hlow => ?_
  refine (shiftLeftLsb_bits src w _ false).bind fun left hleft => ?_
  refine (shiftRightLsb_bits src w _ false).bind fun right hright => .ok fun i => ?_
  rw [select_bits, hlow, BitVec.getLsbD_or, hleft, hright]
  beta_reduce
  by_cases hi : i < w
  · rw [if_pos hi, if_pos hi, if_pos hi, getLsbD_rotateLeft_rotation _ hi]
    simp [hi, show i < T.nBits by omega, show i - rotation w n < w by omega]
  · simp [hi]

theorem rotateRightLsb_bits (src : T.Value) (w n : Nat) :
    HasBits (rotateRightLsb T src w n) fun i =>
      if i < w then ((src.setWidth w).rotateRight n).getLsbD i else src.getLsbD i := by
  refine Computes.require fun hw => ?_
  refine (lowMask_bits w).bind fun low hlow => ?_
  refine (shiftRightLsb_bits src w _ false).bind fun right hright => ?_
  refine (shiftLeftLsb_bits src w _ false).bind fun left hleft => .ok fun i => ?_
  rw [select_bits, hlow, BitVec.getLsbD_or, hleft, hright]
  beta_reduce
  by_cases hi : i < w
  · rw [if_pos hi, if_pos hi, if_pos hi, getLsbD_rotateRight_rotation _ hi]
    simp [hi, show i < T.nBits by omega, show i - (w - rotation w n) < w by omega]
  · simp [hi]

end

namespace LsbOp

variable {T : UnsignedType}

/-- The full-width operations are those on all bits, at the width of their type. -/
theorem fullWidth_bits (op : LsbOp) (src : T.Value) :
    HasBits (op.fullWidth T src) (op.onBits src).getLsbD := by
  cases op with
  | shiftLeft n b =>
    intro v hv i
    exact (shiftLeft_bits src n b v hv i).trans (getLsbD_shiftLeftFill src n b i).symm
  | shiftRight n b =>
    intro v hv i
    exact (shiftRight_bits src n b v hv i).trans (getLsbD_shiftRightFill src n b i).symm
  | shiftRightSigned n =>
    refine (msb_computes src).bind fun b hb v hv i => ?_
    subst hb
    rw [shiftRight_bits src n _ v hv i, onBits, sshiftRight_eq_fill, getLsbD_shiftRightFill]
  | rotateLeft n => exact rotateLeft_bits src n
  | rotateRight n => exact rotateRight_bits src n

theorem shiftRightLsb_fill (src : T.Value) (w n : Nat) (b : Bool) :
    HasBits (shiftRightLsb T src w n b) fun i =>
      if i < w then (shiftRightFill (src.setWidth w) n b).getLsbD i else src.getLsbD i := by
  intro v hv i
  rw [shiftRightLsb_bits src w n b v hv i]
  beta_reduce
  rw [getLsbD_shiftRightFill]
  by_cases hi : i < w
  · by_cases hfrom : i + n < w
    · simp [hi, hfrom]
    · simp [hi, hfrom]
  · simp [hi]

theorem lsb_bits (op : LsbOp) (src : T.Value) (w : Nat) :
    HasBits (op.lsb T src w) fun i =>
      if i < w then (op.onBits (src.setWidth w)).getLsbD i else src.getLsbD i := by
  cases op with
  | shiftLeft n b =>
    intro v hv i
    rw [shiftLeftLsb_bits src w n b v hv i]
    beta_reduce
    rw [onBits, getLsbD_shiftLeftFill]
    by_cases hi : i < w
    · simp [hi, show i - n < w by omega]
    · simp [hi]
  | shiftRight n b => exact shiftRightLsb_fill src w n b
  | shiftRightSigned n =>
    refine (msbLsb_computes src w).bind fun b hb => ?_
    subst hb
    rw [onBits, sshiftRight_eq_fill]
    exact shiftRightLsb_fill src w n _
  | rotateLeft n => exact rotateLeftLsb_bits src w n
  | rotateRight n => exact rotateRightLsb_bits src w n

instance (op : LsbOp) (w : Nat) : Decidable (op.MasksNothing w) := by
  cases op <;> unfold MasksNothing <;> infer_instance

theorem fault_lsb (op : LsbOp) (src : T.Value) {w : Nat} (hw : w ≤ T.nBits) :
    fault (op.lsb T src w) = highMaskFault T (op.MasksNothing w) := by
  cases op with
  | shiftLeft n b =>
    exact (fault_shiftLeftLsb src w n b).trans
      ((requireFault_pos hw).trans (highMaskFault_neg id).symm)
  | shiftRight n b =>
    have h := fault_shiftRightLsb src w n b
    rw [requireFault_pos hw, Option.none_or] at h
    exact h.trans (highMaskFault_congr Iff.rfl)
  | shiftRightSigned n =>
    have h := fault_shiftRightSignedLsb src w n
    rw [requireFault_pos hw, Option.none_or] at h
    exact h.trans (highMaskFault_congr Iff.rfl)
  | rotateLeft n =>
    exact (fault_rotateLeftLsb src w n).trans
      ((requireFault_pos hw).trans (highMaskFault_neg id).symm)
  | rotateRight n =>
    have h := fault_rotateRightLsb src w n
    rw [requireFault_pos hw, Option.none_or] at h
    exact h.trans (highMaskFault_congr Iff.rfl)

theorem refines_of_ok (op : LsbOp) {src v : T.Value} {w : Nat} (hv : op.lsb T src w = .ok v) :
    v.setWidth w = op.onBits (src.setWidth w) ∧ ∀ i, w ≤ i → v.getLsbD i = src.getLsbD i := by
  have hbits := lsb_bits op src w v hv
  constructor
  · apply BitVec.eq_of_getLsbD_eq
    intro i hi
    rw [BitVec.getLsbD_setWidth, hbits]
    simp [hi]
  · intro i hi
    rw [hbits]
    simp [show ¬ i < w by omega]

theorem highMaskFault_eq_none {q : Prop} [Decidable q] :
    highMaskFault T q = none ↔ ¬(32 ≤ T.nBits ∧ q) := by
  unfold highMaskFault
  split
  next h => exact iff_of_false (fun hnone => nomatch hnone) (not_not_intro h)
  next h => exact iff_of_true rfl h

theorem refines_iff (op : LsbOp) (src : T.Value) {w : Nat} (hw : w ≤ T.nBits) :
    op.Refines T src w ↔ ¬(32 ≤ T.nBits ∧ op.MasksNothing w) := by
  rw [← highMaskFault_eq_none, ← fault_lsb op src hw]
  constructor
  · rintro ⟨v, hv, -⟩
    exact fault_of_ok hv
  · intro h
    obtain ⟨v, hv⟩ := ok_of_fault h
    exact ⟨v, hv, refines_of_ok op hv⟩

end LsbOp

section
variable {T : UnsignedType}

theorem rotateRight_rotateLeft {w : Nat} (x : BitVec w) (n : Nat) :
    (x.rotateLeft n).rotateRight n = x := by
  apply BitVec.eq_of_getLsbD_eq
  intro i hi
  have hlt := Nat.mod_lt n (show 0 < w by omega)
  rw [BitVec.getLsbD_rotateRight]
  by_cases hfrom : i < w - n % w
  · have hback : n % w + i - n % w = i := by omega
    have hnot : ¬ n % w + i < n % w := by omega
    simp only [BitVec.getLsbD_rotateLeft, hfrom, hnot, hback, decide_true, decide_false, cond_true,
      cond_false, show n % w + i < w by omega, Bool.true_and]
  · have hback : w - n % w + (i - (w - n % w)) = i := by omega
    simp [hi, hfrom, hback, show i - (w - n % w) < n % w by omega]

/-- One rotation undoes the other, and there are finitely many values. -/
theorem rotateLeft_rotateRight {w : Nat} (x : BitVec w) (n : Nat) :
    (x.rotateRight n).rotateLeft n = x := by
  have hleft : Function.LeftInverse (fun x : BitVec w => x.rotateRight n) (·.rotateLeft n) :=
    fun x => rotateRight_rotateLeft x n
  have : Finite (BitVec w) := .of_injective BitVec.toFin fun _ _ => BitVec.eq_of_toFin_eq
  exact hleft.rightInverse_of_surjective (Finite.surjective_of_injective hleft.injective) x

/-- A value is known from its low-order bits and the others. -/
theorem eq_of_low_of_high {src v : T.Value} {w : Nat} (hlow : v.setWidth w = src.setWidth w)
    (hhigh : ∀ i, w ≤ i → v.getLsbD i = src.getLsbD i) : v = src := by
  apply BitVec.eq_of_getLsbD_eq
  intro i hi
  by_cases hw : i < w
  · have h := congrArg (fun x => BitVec.getLsbD x i) hlow
    simpa [hw] using h
  · exact hhigh i (Nat.le_of_not_lt hw)

/-- An operation that undoes another one on values of `w` bits does so on the low-order bits. -/
theorem undo_of_onBits (op op' : LsbOp) {src : T.Value} {w : Nat} (hw : w ≤ T.nBits)
    (hop : ¬(32 ≤ T.nBits ∧ op.MasksNothing w)) (hop' : ¬(32 ≤ T.nBits ∧ op'.MasksNothing w))
    (hundo : op'.onBits (op.onBits (src.setWidth w)) = src.setWidth w) :
    (do op'.lsb T (← op.lsb T src w) w) = .ok src := by
  obtain ⟨v, hv, hlow, hhigh⟩ := (op.refines_iff src hw).mpr hop
  obtain ⟨u, hu, hlow', hhigh'⟩ := (op'.refines_iff v hw).mpr hop'
  have huv : u = src := by
    apply eq_of_low_of_high
    · rw [hlow', hlow, hundo]
    · intro i hi
      rw [hhigh' i hi, hhigh i hi]
  rw [hv]
  exact hu.trans (congrArg Except.ok huv)

theorem rotationsInverse_iff (src : T.Value) {w : Nat} (hw : w ≤ T.nBits) (n : Nat) :
    RotationsInverse T src w n ↔ ¬(32 ≤ T.nBits ∧ 0 < w ∧ n % w = 0) := by
  constructor
  · rintro ⟨-, hback⟩
    -- the rotation to the right is the first to be evaluated here
    cases hright : rotateRightLsb T src w n with
    | ok v =>
      have hrefines := LsbOp.refines_of_ok (.rotateRight n) hright
      exact ((LsbOp.rotateRight n).refines_iff src hw).mp ⟨v, hright, hrefines⟩
    | error f =>
      rw [hright] at hback
      cases hback
  · intro h
    exact ⟨undo_of_onBits (.rotateLeft n) (.rotateRight n) hw (fun hf => hf.2) h
        (rotateRight_rotateLeft _ n),
      undo_of_onBits (.rotateRight n) (.rotateLeft n) hw h (fun hf => hf.2)
        (rotateLeft_rotateRight _ n)⟩

/-- The operations on the low-order bits are the full-width ones on the value of those bits, and
the rotations undo each other, except where a type as wide as an `int` has a mask of no high-order
bits. -/
theorem lsb_refines_iff (src : T.Value) {w : Nat} (hw : w ≤ T.nBits) :
    (∀ op : LsbOp, ∀ v, op.fullWidth T src = .ok v → v = op.onBits src) ∧
      (∀ op : LsbOp, op.Refines T src w ↔ ¬(32 ≤ T.nBits ∧ op.MasksNothing w)) ∧
        ∀ n, RotationsInverse T src w n ↔ ¬(32 ≤ T.nBits ∧ 0 < w ∧ n % w = 0) := by
  refine ⟨fun op v hv => ?_, fun op => op.refines_iff src hw, rotationsInverse_iff src hw⟩
  apply BitVec.eq_of_getLsbD_eq
  intro i _
  exact op.fullWidth_bits src v hv i

theorem lsb_refines_iff_byte :
    (∀ op : LsbOp, ∀ v, op.fullWidth .uint8 0xa5 = .ok v → v = op.onBits 0xa5) ∧
      (∀ op : LsbOp, op.Refines .uint8 0xa5 4 ↔
        ¬(32 ≤ UnsignedType.uint8.nBits ∧ op.MasksNothing 4)) ∧
        ∀ n, RotationsInverse .uint8 0xa5 4 n ↔
          ¬(32 ≤ UnsignedType.uint8.nBits ∧ 0 < 4 ∧ n % 4 = 0) :=
  lsb_refines_iff (0xa5 : UnsignedType.uint8.Value) (by decide)

/-- A shift of the low-order bits to the right by nothing. -/
theorem shiftRightLsb_zero_not_refines :
    ¬(LsbOp.shiftRight 0 false).Refines .uint32 1 4 ∧ ¬RotationsInverse .uint32 1 4 4 := by
  constructor
  · rintro ⟨v, hv, -⟩
    cases hv
  · rintro ⟨-, hback⟩
    cases hback

end

end LoomX.BitOps
