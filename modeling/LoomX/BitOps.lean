import Mathlib.Data.BitVec
import Mathlib.Tactic.Common

namespace LoomX.BitOps

inductive UnsignedType
  | uint8 | uint16 | uint32 | uint64
  deriving DecidableEq

def UnsignedType.nBits : UnsignedType → Nat
  | uint8 => 8
  | uint16 => 16
  | uint32 => 32
  | uint64 => 64

abbrev UnsignedType.Value (T : UnsignedType) : Type := BitVec T.nBits

/-- The operands of a shift are at least as wide as an `int`. -/
def UnsignedType.promotedBits (T : UnsignedType) : Nat := max T.nBits 32

/-- A failed `ASSERT_require`, or a shift by at least the width of its operand. -/
inductive Fault
  | assertion | shift
  deriving DecidableEq

abbrev Result (α : Type) : Type := Except Fault α

def assertRequire (p : Prop) [Decidable p] : Result Unit :=
  if p then .ok () else .error .assertion

variable (T : UnsignedType)

def shl (src : T.Value) (n : Nat) : Result T.Value :=
  if n < T.promotedBits then .ok (src <<< n) else .error .shift

def shr (src : T.Value) (n : Nat) : Result T.Value :=
  if n < T.promotedBits then .ok (src >>> n) else .error .shift

def all (b : Bool) : T.Value := 0 - if b then 1 else 0

def lowMask (n : Nat) : Result T.Value :=
  if T.nBits ≤ n then return all T true
  else return (← shl T 1 n) - 1

def allLsb (src : T.Value) (w : Nat) (b : Bool) : Result T.Value := do
  assertRequire (w ≤ T.nBits)
  if b then return src ||| (← lowMask T w)
  else return src &&& ~~~(← lowMask T w)

def highMask (n : Nat) : Result T.Value :=
  if T.nBits ≤ n then return all T true
  else do shl T (← lowMask T n) (T.nBits - n)

def select (cond a b : T.Value) : T.Value := a &&& cond ||| b &&& ~~~cond

def shiftLeft (src : T.Value) (n : Nat) (b : Bool) : Result T.Value :=
  if T.nBits ≤ n then return all T b
  else return (← shl T src n) ||| all T b &&& (← lowMask T n)

def shiftLeftLsb (src : T.Value) (w n : Nat) (b : Bool) : Result T.Value := do
  assertRequire (w ≤ T.nBits)
  if w ≤ n then allLsb T src w b
  else return select T (← lowMask T w) (← shiftLeft T src n b) src

def shiftRight (src : T.Value) (n : Nat) (b : Bool) : Result T.Value :=
  if T.nBits ≤ n then return all T b
  else return (← shr T src n) ||| all T b &&& (← highMask T n)

def shiftRightLsb (src : T.Value) (w n : Nat) (b : Bool) : Result T.Value := do
  assertRequire (w ≤ T.nBits)
  if w ≤ n then allLsb T src w b
  else
    let affectedBits ← lowMask T w
    let toShift := select T affectedBits src (all T b)
    return select T affectedBits (← shiftRight T toShift n b) src

def position (i : Nat) : Result T.Value :=
  if i < T.nBits then shiftLeft T 1 i false else return 0

def positionLsb (src : T.Value) (w i : Nat) : Result T.Value := do
  assertRequire (w ≤ T.nBits)
  return select T (← lowMask T w) (← position T i) src

def mask (least greatest : Nat) : Result T.Value := do
  assertRequire (greatest < T.nBits)
  assertRequire (least ≤ greatest)
  shiftLeft T (← lowMask T (greatest - least + 1)) least false

def maskLsb (src : T.Value) (w least greatest : Nat) : Result T.Value := do
  assertRequire (w ≤ T.nBits)
  return select T (← lowMask T w) (← mask T least greatest) src

def bit (src : T.Value) (i : Nat) : Result Bool :=
  if i < T.nBits then return src &&& (← position T i) ≠ 0 else return false

def bitLsb (src : T.Value) (w i : Nat) : Result Bool :=
  if i < w then return src &&& (← position T i) ≠ 0 else return false

def msb (src : T.Value) : Result Bool := bit T src (T.nBits - 1)

def msbLsb (src : T.Value) (w : Nat) : Result Bool := do
  assertRequire (w ≤ T.nBits)
  if 0 < w then bit T src (w - 1) else return false

def shiftRightSigned (src : T.Value) (n : Nat) : Result T.Value := do
  shiftRight T src n (← msb T src)

def shiftRightSignedLsb (src : T.Value) (w n : Nat) : Result T.Value := do
  shiftRightLsb T src w n (← msbLsb T src w)

def bits (src : T.Value) (least greatest : Nat) : Result T.Value := do
  shiftRight T (src &&& (← mask T least greatest)) least false

def bitsLsb (src : T.Value) (w least greatest : Nat) : Result T.Value := do
  shiftRight T (src &&& (← mask T least greatest) &&& (← lowMask T w)) least false

def convert (target : UnsignedType) (x : T.Value) (b : Bool) : Result target.Value :=
  if T.nBits < target.nBits then
    return x.setWidth target.nBits ||| all target b &&& ~~~(← lowMask target T.nBits)
  else return (x &&& (← lowMask T target.nBits)).setWidth target.nBits

def convertSigned (target : UnsignedType) (x : T.Value) : Result target.Value := do
  convert T target x (← msb T x)

def signExtend (src : T.Value) (n : Nat) : Result T.Value :=
  if n < T.nBits then do
    if ← msbLsb T src n then return src ||| (← mask T n (T.nBits - 1))
    else return src &&& ~~~(← mask T n (T.nBits - 1))
  else return src

def signExtendLsb (src : T.Value) (n m : Nat) : Result T.Value := do
  assertRequire (0 < n)
  assertRequire (n ≤ m)
  assertRequire (m ≤ T.nBits)
  if m = n then return src
  else
    let newBitsMask ← mask T n (m - 1)
    if ← bit T src (n - 1) then return src ||| newBitsMask
    else return src &&& ~~~newBitsMask

def rotateLeft (src : T.Value) (n : Nat) : Result T.Value := do
  let n := n % T.nBits
  return (← shiftLeft T src n false) ||| (← shiftRight T src (T.nBits - n) false)

/-- The amount of a rotation of the low-order bits. -/
def rotation (w n : Nat) : Nat := if w = 0 then 0 else n % w

def rotateLeftLsb (src : T.Value) (w n : Nat) : Result T.Value := do
  assertRequire (w ≤ T.nBits)
  let n := rotation w n
  return select T (← lowMask T w)
    ((← shiftLeftLsb T src w n false) ||| (← shiftRightLsb T src w (w - n) false)) src

def rotateRight (src : T.Value) (n : Nat) : Result T.Value := do
  let n := n % T.nBits
  return (← shiftRight T src n false) ||| (← shiftLeft T src (T.nBits - n) false)

def rotateRightLsb (src : T.Value) (w n : Nat) : Result T.Value := do
  assertRequire (w ≤ T.nBits)
  let n := rotation w n
  return select T (← lowMask T w)
    ((← shiftRightLsb T src w n false) ||| (← shiftLeftLsb T src w (w - n) false)) src

def replicate (src : T.Value) (n : Nat) : Result T.Value := do
  assertRequire (n ≠ 0)
  if T.nBits ≤ n then return src
  else
    let ngroups := (T.nBits + n - 1) / n
    (List.range ngroups).foldlM (fun retval i => do
      return retval ||| (← shiftLeft T (src &&& (← lowMask T n)) (i * n) false)) 0

def replicateLsb (src : T.Value) (w n : Nat) : Result T.Value := do
  assertRequire (w ≤ T.nBits)
  return select T (← lowMask T w) (← replicate T src n) src

def highestSetBitFrom (src : T.Value) : Nat → Result (Option Nat)
  | 0 => return none
  | i + 1 => do if ← bit T src i then return some i else highestSetBitFrom src i

def highestSetBit (src : T.Value) : Result (Option Nat) :=
  if src ≠ 0 then highestSetBitFrom T src T.nBits else return none

theorem toNat_ushiftRight_lt {w : Nat} {src : BitVec w} (h : src ≠ 0) :
    (src >>> 1).toNat < src.toNat := by
  have hpos : src.toNat ≠ 0 := fun hzero => h (BitVec.eq_of_toNat_eq (by simpa using hzero))
  rw [BitVec.toNat_ushiftRight, Nat.shiftRight_eq_div_pow]
  omega

theorem shr_eq_ok {src src' : T.Value} {n : Nat} (h : shr T src n = .ok src') :
    src' = src >>> n := by
  unfold shr at h
  split at h
  · exact (Except.ok.inj h).symm
  · cases h

def nSetFrom (src : T.Value) (retval : Nat) : Result Nat :=
  if _h : src = 0 then return retval
  else
    match _hshift : shr T src 1 with
    | .error fault => .error fault
    | .ok src' => nSetFrom src' (if src &&& 1 ≠ 0 then retval + 1 else retval)
termination_by src.toNat
decreasing_by
  rw [shr_eq_ok T _hshift]
  exact toNat_ushiftRight_lt _h

def nSet (src : T.Value) : Result Nat := nSetFrom T src 0

def reverseBytes (u : T.Value) : Result T.Value :=
  (List.range (T.nBits / 8 / 2)).foldlM (fun u i => do
    let loOffset := i * 8
    let hiOffset := T.nBits - i * 8 - 8
    let loMask ← mask T loOffset (loOffset + 7)
    let hiMask ← mask T hiOffset (hiOffset + 7)
    let lo := (← shr T u loOffset) &&& 0xff
    let hi := (← shr T u hiOffset) &&& 0xff
    let u := u &&& ~~~(loMask ||| hiMask)
    let u := u ||| (← shl T lo hiOffset)
    return u ||| (← shl T hi loOffset)) u

/-- What stops an evaluation. -/
def fault {α : Type} : Result α → Option Fault
  | .ok _ => none
  | .error f => some f

def requireFault (p : Prop) [Decidable p] : Option Fault := if p then none else some .assertion

/-- A mask of no high-order bits shifts by the width of the type, which must not be that of an
`int` or more. -/
def highMaskFault (q : Prop) [Decidable q] : Option Fault :=
  if 32 ≤ T.nBits ∧ q then some .shift else none

section
variable {T}

@[simp] theorem fault_ok {α : Type} (a : α) : fault (.ok a : Result α) = none := rfl

theorem requireFault_pos {p : Prop} [Decidable p] (h : p) : requireFault p = none := if_pos h

theorem highMaskFault_neg {q : Prop} [Decidable q] (h : ¬q) : highMaskFault T q = none :=
  if_neg fun hq => h hq.2

theorem highMaskFault_congr {p q : Prop} [Decidable p] [Decidable q] (h : p ↔ q) :
    highMaskFault T p = highMaskFault T q := by
  simp only [highMaskFault, h]

/-- Whether an evaluation goes on does not depend on the values it finds. -/
theorem fault_bind {α β : Type} (x : Result α) {f : α → Result β} {c : Option Fault}
    (hf : ∀ a, fault (f a) = c) : fault (x >>= f) = (fault x).or c := by
  cases x with
  | ok a => exact hf a
  | error f => rfl

theorem fault_bind_none {α β : Type} {x : Result α} {f : α → Result β} {c : Option Fault}
    (hx : fault x = none) (hf : ∀ a, fault (f a) = c) : fault (x >>= f) = c := by
  rw [fault_bind x hf, hx, Option.none_or]

theorem fault_bind_last {α β : Type} (x : Result α) {f : α → Result β}
    (hf : ∀ a, fault (f a) = none) : fault (x >>= f) = fault x := by
  rw [fault_bind x hf, Option.or_none]

theorem fault_require {β : Type} {p : Prop} [Decidable p] {f : Unit → Result β}
    {c : Option Fault} (hf : p → fault (f ()) = c) :
    fault (assertRequire p >>= f) = (requireFault p).or c := by
  unfold assertRequire requireFault
  split
  next hp => exact hf hp
  next => rfl

theorem fault_require_only {β : Type} {p : Prop} [Decidable p] {f : Unit → Result β}
    (hf : p → fault (f ()) = none) : fault (assertRequire p >>= f) = requireFault p := by
  rw [fault_require hf, Option.or_none]

theorem fault_foldlM {α β : Type} {f : β → α → Result β} (l : List α)
    (hf : ∀ b, ∀ a ∈ l, fault (f b a) = none) (b : β) : fault (l.foldlM f b) = none := by
  induction l generalizing b with
  | nil => rfl
  | cons a l ih =>
    obtain ⟨hhead, htail⟩ := forall_and.1 fun b => List.forall_mem_cons.1 (hf b)
    rw [List.foldlM_cons]
    exact fault_bind_none (hhead b) (ih htail)

theorem nBits_pos (T : UnsignedType) : 0 < T.nBits := by cases T <;> decide

theorem fault_shl {src : T.Value} {n : Nat} (h : n < T.nBits) : fault (shl T src n) = none := by
  have hlt : n < T.promotedBits := Nat.lt_of_lt_of_le h (Nat.le_max_left _ _)
  rw [shl, if_pos hlt, fault_ok]

theorem fault_shr {src : T.Value} {n : Nat} (h : n < T.nBits) : fault (shr T src n) = none := by
  have hlt : n < T.promotedBits := Nat.lt_of_lt_of_le h (Nat.le_max_left _ _)
  rw [shr, if_pos hlt, fault_ok]

theorem fault_lowMask (n : Nat) : fault (lowMask T n) = none := by
  unfold lowMask
  split
  next => rfl
  next h => exact fault_bind_none (fault_shl (by omega)) (fun _ => rfl)

theorem toNat_all_true (T : UnsignedType) : (all T true).toNat = 2 ^ T.nBits - 1 := by
  cases T <;> rfl

theorem toNat_lowMask {n : Nat} (h : n ≤ T.nBits) :
    ∃ m, lowMask T n = .ok m ∧ m.toNat = 2 ^ n - 1 := by
  unfold lowMask
  split
  next hle =>
    obtain rfl : n = T.nBits := Nat.le_antisymm h hle
    exact ⟨all T true, rfl, toNat_all_true T⟩
  next hlt =>
    have hpromoted : n < T.promotedBits := Nat.lt_of_lt_of_le (by omega) (Nat.le_max_left _ _)
    have hpow : 2 ^ n < 2 ^ T.nBits := Nat.pow_lt_pow_right (by decide) (by omega)
    have hpos := Nat.two_pow_pos n
    have hone : (1 : T.Value).toNat = 1 := Nat.mod_eq_of_lt (show 1 < 2 ^ T.nBits by omega)
    have hshift : ((1 : T.Value) <<< n).toNat = 2 ^ n := by
      rw [BitVec.toNat_shiftLeft, hone, Nat.one_shiftLeft, Nat.mod_eq_of_lt hpow]
    have hle : (1 : T.Value) ≤ (1 : T.Value) <<< n := by
      rw [BitVec.le_def, hone, hshift]
      exact hpos
    rw [shl, if_pos hpromoted]
    refine ⟨_, rfl, ?_⟩
    rw [BitVec.toNat_sub_of_le hle, hshift, hone]

theorem fault_highMask (n : Nat) : fault (highMask T n) = highMaskFault T (n = 0) := by
  have hpos := nBits_pos T
  unfold highMask
  split
  next h => exact (highMaskFault_neg (by omega)).symm
  next h =>
    refine fault_bind_none (fault_lowMask n) fun low => ?_
    by_cases hzero : 32 ≤ T.nBits ∧ n = 0
    · have hlarge : ¬T.nBits - n < T.promotedBits := by
        unfold UnsignedType.promotedBits
        omega
      rw [shl, if_neg hlarge, highMaskFault, if_pos hzero]
      rfl
    · have hsmall : T.nBits - n < T.promotedBits := by
        unfold UnsignedType.promotedBits
        omega
      rw [shl, if_pos hsmall, highMaskFault, if_neg hzero]
      rfl

theorem fault_allLsb (src : T.Value) (w : Nat) (b : Bool) :
    fault (allLsb T src w b) = requireFault (w ≤ T.nBits) := by
  apply fault_require_only
  intro _
  cases b with
  | true => exact fault_bind_none (fault_lowMask w) (fun _ => rfl)
  | false => exact fault_bind_none (fault_lowMask w) (fun _ => rfl)

theorem fault_shiftLeft (src : T.Value) (n : Nat) (b : Bool) :
    fault (shiftLeft T src n b) = none := by
  unfold shiftLeft
  split
  next => rfl
  next h =>
    refine fault_bind_none (fault_shl (by omega)) fun _ => ?_
    exact fault_bind_none (fault_lowMask n) (fun _ => rfl)

theorem fault_shiftLeftLsb (src : T.Value) (w n : Nat) (b : Bool) :
    fault (shiftLeftLsb T src w n b) = requireFault (w ≤ T.nBits) := by
  apply fault_require_only
  intro hw
  split
  next => rw [fault_allLsb, requireFault_pos hw]
  next =>
    refine fault_bind_none (fault_lowMask w) fun _ => ?_
    exact fault_bind_none (fault_shiftLeft src n b) (fun _ => rfl)

theorem fault_shiftRight (src : T.Value) (n : Nat) (b : Bool) :
    fault (shiftRight T src n b) = highMaskFault T (n = 0) := by
  have hpos := nBits_pos T
  unfold shiftRight
  split
  next h => exact (highMaskFault_neg (by omega)).symm
  next h =>
    refine fault_bind_none (fault_shr (by omega)) fun _ => ?_
    rw [← fault_highMask n]
    exact fault_bind_last _ fun _ => rfl

theorem fault_shiftRightLsb (src : T.Value) (w n : Nat) (b : Bool) :
    fault (shiftRightLsb T src w n b) =
      (requireFault (w ≤ T.nBits)).or (highMaskFault T (0 < w ∧ n = 0)) := by
  apply fault_require
  intro hw
  split
  next h => rw [fault_allLsb, requireFault_pos hw, highMaskFault_neg (by omega)]
  next h =>
    refine fault_bind_none (fault_lowMask w) fun low => ?_
    have hzero : 0 < w ∧ n = 0 ↔ n = 0 := ⟨And.right, fun hn => ⟨by omega, hn⟩⟩
    rw [highMaskFault_congr hzero, ← fault_shiftRight (select T low src (all T b)) n b]
    exact fault_bind_last _ fun _ => rfl

theorem fault_position (i : Nat) : fault (position T i) = none := by
  unfold position
  split
  · exact fault_shiftLeft 1 i false
  · rfl

theorem fault_positionLsb (src : T.Value) (w i : Nat) :
    fault (positionLsb T src w i) = requireFault (w ≤ T.nBits) := by
  apply fault_require_only
  intro _
  refine fault_bind_none (fault_lowMask w) fun _ => ?_
  exact fault_bind_none (fault_position i) (fun _ => rfl)

theorem fault_mask (least greatest : Nat) :
    fault (mask T least greatest) =
      (requireFault (greatest < T.nBits)).or (requireFault (least ≤ greatest)) := by
  apply fault_require
  intro _
  apply fault_require_only
  intro _
  exact fault_bind_none (fault_lowMask _) fun _ => fault_shiftLeft _ least false

theorem fault_mask_none {least greatest : Nat} (hle : least ≤ greatest)
    (hlt : greatest < T.nBits) : fault (mask T least greatest) = none := by
  rw [fault_mask, requireFault_pos hlt, requireFault_pos hle, Option.none_or]

theorem fault_maskLsb (src : T.Value) (w least greatest : Nat) :
    fault (maskLsb T src w least greatest) =
      (requireFault (w ≤ T.nBits)).or (fault (mask T least greatest)) := by
  apply fault_require
  intro _
  refine fault_bind_none (fault_lowMask w) fun _ => ?_
  exact fault_bind_last _ fun _ => rfl

theorem fault_bit (src : T.Value) (i : Nat) : fault (bit T src i) = none := by
  unfold bit
  split
  · exact fault_bind_none (fault_position i) (fun _ => rfl)
  · rfl

theorem fault_bitLsb (src : T.Value) (w i : Nat) : fault (bitLsb T src w i) = none := by
  unfold bitLsb
  split
  · exact fault_bind_none (fault_position i) (fun _ => rfl)
  · rfl

theorem fault_msb (src : T.Value) : fault (msb T src) = none := fault_bit src _

theorem fault_msbLsb (src : T.Value) (w : Nat) :
    fault (msbLsb T src w) = requireFault (w ≤ T.nBits) := by
  apply fault_require_only
  intro _
  split
  · exact fault_bit src _
  · rfl

theorem fault_shiftRightSigned (src : T.Value) (n : Nat) :
    fault (shiftRightSigned T src n) = highMaskFault T (n = 0) :=
  fault_bind_none (fault_msb src) fun b => fault_shiftRight src n b

theorem fault_shiftRightSignedLsb (src : T.Value) (w n : Nat) :
    fault (shiftRightSignedLsb T src w n) =
      (requireFault (w ≤ T.nBits)).or (highMaskFault T (0 < w ∧ n = 0)) := by
  have hbind : fault (shiftRightSignedLsb T src w n) =
      (fault (msbLsb T src w)).or
        ((requireFault (w ≤ T.nBits)).or (highMaskFault T (0 < w ∧ n = 0))) :=
    fault_bind _ fun b => fault_shiftRightLsb src w n b
  rw [hbind, fault_msbLsb, ← Option.or_assoc, Option.or_self]

theorem fault_bits (src : T.Value) (least greatest : Nat) :
    fault (bits T src least greatest) =
      (fault (mask T least greatest)).or (highMaskFault T (least = 0)) :=
  fault_bind _ fun _ => fault_shiftRight _ least false

theorem fault_bitsLsb (src : T.Value) (w least greatest : Nat) :
    fault (bitsLsb T src w least greatest) =
      (fault (mask T least greatest)).or (highMaskFault T (least = 0)) :=
  fault_bind _ fun _ => fault_bind_none (fault_lowMask w) fun _ => fault_shiftRight _ least false

theorem fault_convert (target : UnsignedType) (x : T.Value) (b : Bool) :
    fault (convert T target x b) = none := by
  unfold convert
  split
  · exact fault_bind_none (fault_lowMask _) (fun _ => rfl)
  · exact fault_bind_none (fault_lowMask _) (fun _ => rfl)

theorem fault_convertSigned (target : UnsignedType) (x : T.Value) :
    fault (convertSigned T target x) = none :=
  fault_bind_none (fault_msb x) fun b => fault_convert target x b

theorem fault_signExtend (src : T.Value) (n : Nat) : fault (signExtend T src n) = none := by
  unfold signExtend
  split
  next h =>
    have hmask : fault (mask T n (T.nBits - 1)) = none := fault_mask_none (by omega) (by omega)
    have hsign : fault (msbLsb T src n) = none := by
      rw [fault_msbLsb, requireFault_pos (Nat.le_of_lt h)]
    refine fault_bind_none hsign fun b => ?_
    split <;> exact fault_bind_none hmask (fun _ => rfl)
  next => rfl

theorem fault_signExtendLsb (src : T.Value) (n m : Nat) :
    fault (signExtendLsb T src n m) =
      (requireFault (0 < n)).or ((requireFault (n ≤ m)).or (requireFault (m ≤ T.nBits))) := by
  apply fault_require
  intro hn
  apply fault_require
  intro hnm
  apply fault_require_only
  intro hm
  split
  next => rfl
  next hne =>
    refine fault_bind_none (fault_mask_none (by omega) (by omega)) fun _ => ?_
    refine fault_bind_none (fault_bit src _) fun b => ?_
    split <;> rfl

theorem fault_rotateLeft (src : T.Value) (n : Nat) : fault (rotateLeft T src n) = none := by
  have hlt := Nat.mod_lt n (nBits_pos T)
  have hright : fault (shiftRight T src (T.nBits - n % T.nBits) false) = none := by
    rw [fault_shiftRight, highMaskFault_neg (by omega)]
  refine fault_bind_none (fault_shiftLeft src _ false) fun _ => ?_
  exact fault_bind_none hright (fun _ => rfl)

theorem rotation_lt {w : Nat} (h : 0 < w) (n : Nat) : rotation w n < w := by
  rw [rotation, if_neg (by omega)]
  exact Nat.mod_lt n h

theorem fault_rotateLeftLsb (src : T.Value) (w n : Nat) :
    fault (rotateLeftLsb T src w n) = requireFault (w ≤ T.nBits) := by
  apply fault_require_only
  intro hw
  have hleft : fault (shiftLeftLsb T src w (rotation w n) false) = none := by
    rw [fault_shiftLeftLsb, requireFault_pos hw]
  have hright : fault (shiftRightLsb T src w (w - rotation w n) false) = none := by
    have hamount : ¬(0 < w ∧ w - rotation w n = 0) := by
      rintro ⟨hpos, hzero⟩
      have hlt := rotation_lt hpos n
      omega
    rw [fault_shiftRightLsb, requireFault_pos hw, highMaskFault_neg hamount, Option.none_or]
  refine fault_bind_none (fault_lowMask w) fun _ => ?_
  refine fault_bind_none hleft fun _ => ?_
  exact fault_bind_none hright (fun _ => rfl)

theorem fault_rotateRight (src : T.Value) (n : Nat) :
    fault (rotateRight T src n) = highMaskFault T (n % T.nBits = 0) := by
  rw [← fault_shiftRight src (n % T.nBits) false]
  refine fault_bind_last _ fun _ => ?_
  exact fault_bind_none (fault_shiftLeft src _ false) (fun _ => rfl)

theorem fault_rotateRightLsb (src : T.Value) (w n : Nat) :
    fault (rotateRightLsb T src w n) =
      (requireFault (w ≤ T.nBits)).or (highMaskFault T (0 < w ∧ n % w = 0)) := by
  apply fault_require
  intro hw
  have hamount : 0 < w ∧ rotation w n = 0 ↔ 0 < w ∧ n % w = 0 := by
    refine and_congr_right fun hpos => ?_
    rw [rotation, if_neg (by omega)]
  have hright : fault (shiftRightLsb T src w (rotation w n) false) =
      highMaskFault T (0 < w ∧ n % w = 0) := by
    rw [fault_shiftRightLsb, requireFault_pos hw, highMaskFault_congr hamount, Option.none_or]
  have hleft : fault (shiftLeftLsb T src w (w - rotation w n) false) = none := by
    rw [fault_shiftLeftLsb, requireFault_pos hw]
  refine fault_bind_none (fault_lowMask w) fun _ => ?_
  rw [← hright]
  refine fault_bind_last _ fun _ => ?_
  exact fault_bind_none hleft (fun _ => rfl)

theorem fault_replicate (src : T.Value) (n : Nat) :
    fault (replicate T src n) = requireFault (n ≠ 0) := by
  apply fault_require_only
  intro _
  split
  next => rfl
  next =>
    apply fault_foldlM
    intro retval i _
    refine fault_bind_none (fault_lowMask n) fun _ => ?_
    exact fault_bind_none (fault_shiftLeft _ _ false) (fun _ => rfl)

theorem fault_replicateLsb (src : T.Value) (w n : Nat) :
    fault (replicateLsb T src w n) =
      (requireFault (w ≤ T.nBits)).or (requireFault (n ≠ 0)) := by
  apply fault_require
  intro _
  refine fault_bind_none (fault_lowMask w) fun _ => ?_
  rw [← fault_replicate src n]
  exact fault_bind_last _ fun _ => rfl

theorem fault_highestSetBitFrom (src : T.Value) (i : Nat) :
    fault (highestSetBitFrom T src i) = none := by
  induction i with
  | zero => rfl
  | succ i ih =>
    refine fault_bind_none (fault_bit src i) fun b => ?_
    split
    · rfl
    · exact ih

theorem fault_highestSetBit (src : T.Value) : fault (highestSetBit T src) = none := by
  unfold highestSetBit
  split
  · exact fault_highestSetBitFrom src T.nBits
  · rfl

theorem fault_nSetFrom (src : T.Value) (retval : Nat) : fault (nSetFrom T src retval) = none := by
  fun_induction nSetFrom T src retval with
  | case1 => rfl
  | case2 src retval _ f hshift =>
    have hnone : fault (shr T src 1) = none := fault_shr (by cases T <;> decide)
    rw [hshift] at hnone
    exact absurd hnone (by simp [fault])
  | case3 src retval _ src' _ ih => exact ih

theorem fault_nSet (src : T.Value) : fault (nSet T src) = none := fault_nSetFrom src 0

theorem fault_reverseBytes (u : T.Value) : fault (reverseBytes T u) = none := by
  apply fault_foldlM
  intro u i hi
  have hi' : i < T.nBits / 8 / 2 := List.mem_range.1 hi
  have hlo : i * 8 + 7 < T.nBits := by omega
  have hhi : T.nBits - i * 8 - 8 + 7 < T.nBits := by omega
  refine fault_bind_none (fault_mask_none (by omega) hlo) fun _ => ?_
  refine fault_bind_none (fault_mask_none (by omega) hhi) fun _ => ?_
  refine fault_bind_none (fault_shr (by omega)) fun _ => ?_
  refine fault_bind_none (fault_shr (by omega)) fun _ => ?_
  refine fault_bind_none (fault_shl (by omega)) fun _ => ?_
  exact fault_bind_none (fault_shl (by omega)) (fun _ => rfl)

end

/-- A call of one of the functions with its arguments. -/
inductive Call (T : UnsignedType)
  | lowMask (n : Nat)
  | highMask (n : Nat)
  | allLsb (src : T.Value) (w : Nat) (b : Bool)
  | shiftLeft (src : T.Value) (n : Nat) (b : Bool)
  | shiftLeftLsb (src : T.Value) (w n : Nat) (b : Bool)
  | shiftRight (src : T.Value) (n : Nat) (b : Bool)
  | shiftRightLsb (src : T.Value) (w n : Nat) (b : Bool)
  | position (i : Nat)
  | positionLsb (src : T.Value) (w i : Nat)
  | mask (least greatest : Nat)
  | maskLsb (src : T.Value) (w least greatest : Nat)
  | bit (src : T.Value) (i : Nat)
  | bitLsb (src : T.Value) (w i : Nat)
  | msb (src : T.Value)
  | msbLsb (src : T.Value) (w : Nat)
  | shiftRightSigned (src : T.Value) (n : Nat)
  | shiftRightSignedLsb (src : T.Value) (w n : Nat)
  | bits (src : T.Value) (least greatest : Nat)
  | bitsLsb (src : T.Value) (w least greatest : Nat)
  | convert (target : UnsignedType) (x : T.Value) (b : Bool)
  | convertSigned (target : UnsignedType) (x : T.Value)
  | signExtend (src : T.Value) (n : Nat)
  | signExtendLsb (src : T.Value) (n m : Nat)
  | rotateLeft (src : T.Value) (n : Nat)
  | rotateLeftLsb (src : T.Value) (w n : Nat)
  | rotateRight (src : T.Value) (n : Nat)
  | rotateRightLsb (src : T.Value) (w n : Nat)
  | replicate (src : T.Value) (n : Nat)
  | replicateLsb (src : T.Value) (w n : Nat)
  | highestSetBit (src : T.Value)
  | nSet (src : T.Value)
  | reverseBytes (u : T.Value)

namespace Call

variable {T : UnsignedType}

/-- What stops a call. -/
def fault : Call T → Option Fault
  | lowMask n => BitOps.fault (BitOps.lowMask T n)
  | highMask n => BitOps.fault (BitOps.highMask T n)
  | allLsb src w b => BitOps.fault (BitOps.allLsb T src w b)
  | shiftLeft src n b => BitOps.fault (BitOps.shiftLeft T src n b)
  | shiftLeftLsb src w n b => BitOps.fault (BitOps.shiftLeftLsb T src w n b)
  | shiftRight src n b => BitOps.fault (BitOps.shiftRight T src n b)
  | shiftRightLsb src w n b => BitOps.fault (BitOps.shiftRightLsb T src w n b)
  | position i => BitOps.fault (BitOps.position T i)
  | positionLsb src w i => BitOps.fault (BitOps.positionLsb T src w i)
  | mask least greatest => BitOps.fault (BitOps.mask T least greatest)
  | maskLsb src w least greatest => BitOps.fault (BitOps.maskLsb T src w least greatest)
  | bit src i => BitOps.fault (BitOps.bit T src i)
  | bitLsb src w i => BitOps.fault (BitOps.bitLsb T src w i)
  | msb src => BitOps.fault (BitOps.msb T src)
  | msbLsb src w => BitOps.fault (BitOps.msbLsb T src w)
  | shiftRightSigned src n => BitOps.fault (BitOps.shiftRightSigned T src n)
  | shiftRightSignedLsb src w n => BitOps.fault (BitOps.shiftRightSignedLsb T src w n)
  | bits src least greatest => BitOps.fault (BitOps.bits T src least greatest)
  | bitsLsb src w least greatest => BitOps.fault (BitOps.bitsLsb T src w least greatest)
  | convert target x b => BitOps.fault (BitOps.convert T target x b)
  | convertSigned target x => BitOps.fault (BitOps.convertSigned T target x)
  | signExtend src n => BitOps.fault (BitOps.signExtend T src n)
  | signExtendLsb src n m => BitOps.fault (BitOps.signExtendLsb T src n m)
  | rotateLeft src n => BitOps.fault (BitOps.rotateLeft T src n)
  | rotateLeftLsb src w n => BitOps.fault (BitOps.rotateLeftLsb T src w n)
  | rotateRight src n => BitOps.fault (BitOps.rotateRight T src n)
  | rotateRightLsb src w n => BitOps.fault (BitOps.rotateRightLsb T src w n)
  | replicate src n => BitOps.fault (BitOps.replicate T src n)
  | replicateLsb src w n => BitOps.fault (BitOps.replicateLsb T src w n)
  | highestSetBit src => BitOps.fault (BitOps.highestSetBit T src)
  | nSet src => BitOps.fault (BitOps.nSet T src)
  | reverseBytes u => BitOps.fault (BitOps.reverseBytes T u)

/-- A call that masks no high-order bits: of the mask itself, of a shift to the right by nothing,
and of what is made of one. -/
def MasksNothing : Call T → Prop
  | highMask n | shiftRight _ n _ | shiftRightSigned _ n => n = 0
  | shiftRightLsb _ w n _ | shiftRightSignedLsb _ w n => 0 < w ∧ n = 0
  | bits _ least _ | bitsLsb _ _ least _ => least = 0
  | rotateRight _ n => n % T.nBits = 0
  | rotateRightLsb _ w n => 0 < w ∧ n % w = 0
  | _ => False

theorem requireFault_ne_shift (p : Prop) [Decidable p] : requireFault p ≠ some .shift := by
  unfold requireFault
  split <;> decide

theorem or_ne_shift {f g : Option Fault} (hf : f ≠ some .shift) (hg : g ≠ some .shift) :
    f.or g ≠ some .shift := by
  cases f with
  | none => exact hg
  | some f => exact hf

theorem mask_ne_shift (least greatest : Nat) :
    BitOps.fault (BitOps.mask T least greatest) ≠ some .shift := by
  rw [fault_mask]
  exact or_ne_shift (requireFault_ne_shift _) (requireFault_ne_shift _)

/-- A call that fails no assertion faults as its mask does. -/
theorem iff_of_highMask {f g : Option Fault} {q : Prop} {_ : Decidable q}
    (h : f = g.or (highMaskFault T q)) (hg : g ≠ some .shift) (hf : f ≠ some .assertion) :
    f ≠ some .shift ↔ ¬(32 ≤ T.nBits ∧ q) := by
  subst f
  cases g with
  | some g =>
    cases g with
    | assertion => exact absurd rfl hf
    | shift => exact absurd rfl hg
  | none =>
    rw [Option.none_or, highMaskFault]
    split
    next hq => simp [hq]
    next hq => simp [hq]

theorem iff_of_ne_shift {f : Option Fault} (h : f ≠ some .shift) :
    f ≠ some .shift ↔ ¬(32 ≤ T.nBits ∧ False) :=
  iff_of_true h fun hbad => hbad.2

theorem iff_of_none {f : Option Fault} (h : f = none) :
    f ≠ some .shift ↔ ¬(32 ≤ T.nBits ∧ False) :=
  iff_of_ne_shift (h ▸ by decide)

theorem iff_of_require {f : Option Fault} {p : Prop} [Decidable p] (h : f = requireFault p) :
    f ≠ some .shift ↔ ¬(32 ≤ T.nBits ∧ False) :=
  iff_of_ne_shift (h ▸ requireFault_ne_shift p)

/-- A call with arguments as asserted shifts by less than the width of the operand, except where a
type as wide as an `int` has a mask of no high-order bits. -/
theorem fault_ne_shift_iff (c : Call T) (h : c.fault ≠ some .assertion) :
    c.fault ≠ some .shift ↔ ¬(32 ≤ T.nBits ∧ c.MasksNothing) := by
  cases c with
  | lowMask n => exact iff_of_none (fault_lowMask n)
  | highMask n => exact iff_of_highMask (g := none) (fault_highMask n) (by decide) h
  | allLsb src w b => exact iff_of_require (fault_allLsb src w b)
  | shiftLeft src n b => exact iff_of_none (fault_shiftLeft src n b)
  | shiftLeftLsb src w n b => exact iff_of_require (fault_shiftLeftLsb src w n b)
  | shiftRight src n b => exact iff_of_highMask (g := none) (fault_shiftRight src n b) (by decide) h
  | shiftRightLsb src w n b =>
    exact iff_of_highMask (fault_shiftRightLsb src w n b) (requireFault_ne_shift _) h
  | position i => exact iff_of_none (fault_position i)
  | positionLsb src w i => exact iff_of_require (fault_positionLsb src w i)
  | mask least greatest => exact iff_of_ne_shift (mask_ne_shift least greatest)
  | maskLsb src w least greatest =>
    refine iff_of_ne_shift (Eq.trans_ne (fault_maskLsb src w least greatest) ?_)
    exact or_ne_shift (requireFault_ne_shift _) (mask_ne_shift least greatest)
  | bit src i => exact iff_of_none (fault_bit src i)
  | bitLsb src w i => exact iff_of_none (fault_bitLsb src w i)
  | msb src => exact iff_of_none (fault_msb src)
  | msbLsb src w => exact iff_of_require (fault_msbLsb src w)
  | shiftRightSigned src n =>
    exact iff_of_highMask (g := none) (fault_shiftRightSigned src n) (by decide) h
  | shiftRightSignedLsb src w n =>
    exact iff_of_highMask (fault_shiftRightSignedLsb src w n) (requireFault_ne_shift _) h
  | bits src least greatest =>
    exact iff_of_highMask (fault_bits src least greatest) (mask_ne_shift least greatest) h
  | bitsLsb src w least greatest =>
    exact iff_of_highMask (fault_bitsLsb src w least greatest) (mask_ne_shift least greatest) h
  | convert target x b => exact iff_of_none (fault_convert target x b)
  | convertSigned target x => exact iff_of_none (fault_convertSigned target x)
  | signExtend src n => exact iff_of_none (fault_signExtend src n)
  | signExtendLsb src n m =>
    refine iff_of_ne_shift (Eq.trans_ne (fault_signExtendLsb src n m) ?_)
    exact or_ne_shift (requireFault_ne_shift _)
      (or_ne_shift (requireFault_ne_shift _) (requireFault_ne_shift _))
  | rotateLeft src n => exact iff_of_none (fault_rotateLeft src n)
  | rotateLeftLsb src w n => exact iff_of_require (fault_rotateLeftLsb src w n)
  | rotateRight src n => exact iff_of_highMask (g := none) (fault_rotateRight src n) (by decide) h
  | rotateRightLsb src w n =>
    exact iff_of_highMask (fault_rotateRightLsb src w n) (requireFault_ne_shift _) h
  | replicate src n => exact iff_of_require (fault_replicate src n)
  | replicateLsb src w n =>
    refine iff_of_ne_shift (Eq.trans_ne (fault_replicateLsb src w n) ?_)
    exact or_ne_shift (requireFault_ne_shift _) (requireFault_ne_shift _)
  | highestSetBit src => exact iff_of_none (fault_highestSetBit src)
  | nSet src => exact iff_of_none (fault_nSet src)
  | reverseBytes u => exact iff_of_none (fault_reverseBytes u)

theorem fault_ne_shift_iff_rotate :
    (rotateRight 1 3 : Call .uint32).fault ≠ some .shift ↔
      ¬(32 ≤ UnsignedType.uint32.nBits ∧ (rotateRight 1 3 : Call .uint32).MasksNothing) :=
  fault_ne_shift_iff (rotateRight 1 3) (by decide)

/-- A shift to the right by nothing. -/
theorem shiftRight_zero_fault :
    (shiftRight 1 0 false : Call .uint32).fault ≠ some .assertion ∧
      (shiftRight 1 0 false : Call .uint32).fault = some .shift := by
  decide

end Call

end LoomX.BitOps
