import Mathlib.Algebra.Group.Pointwise.Set.Basic
import Mathlib.Order.Interval.Set.Basic
import Mathlib.Tactic.Ring

namespace LoomX

def NEG_INFTY : Int := -32767

def POS_INFTY : Int := 32767

/-- Addition of two bounds, the infinite ones absorbing the others. -/
def addConst (a b : Int) : Int :=
  if a = NEG_INFTY ∨ a = POS_INFTY then a
  else if b = NEG_INFTY ∨ b = POS_INFTY then b
  else a + b

inductive DepDirType where
  | none
  | eq
  | le
  | ge
  | ne
  | all
  deriving DecidableEq, Repr

def DepDirType.code : DepDirType → Nat
  | .none => 0
  | .eq => 1
  | .le => 3
  | .ge => 5
  | .ne => 6
  | .all => 7

/-- The `static_cast` of a bit pattern to the enumeration. -/
def DepDirType.ofCode : Nat → Option DepDirType
  | 0 => some .none
  | 1 => some .eq
  | 3 => some .le
  | 5 => some .ge
  | 6 => some .ne
  | 7 => some .all
  | _ => Option.none

/-- The low three bits of an entry type, `entryType & DEPDIR_ALL`. -/
def getRelType (entryType : Int) : Option DepDirType :=
  DepDirType.ofCode (entryType % 8).toNat

/-- The remaining bits of an entry type, `entryType >> 3`. -/
def alignRangeSize (entryType : Int) : Int :=
  entryType / 8

/-- A dependence relation; a bit pattern that is no relation type cannot be built. -/
structure DepRel where
  entryType : Int
  align : Int
  isKind : (getRelType entryType).isSome
  deriving DecidableEq

theorem getRelType_entryType (t : DepDirType) (size : Int) :
    getRelType (t.code + size * 8) = some t := by
  unfold getRelType
  rw [Int.add_mul_emod_self_right]
  cases t <;> rfl

theorem alignRangeSize_entryType (t : DepDirType) (size : Int) :
    alignRangeSize (t.code + size * 8) = size := by
  have hcode : (t.code : Int) < 8 := by cases t <;> decide
  unfold alignRangeSize
  omega

namespace DepRel

/-- The record whose entry type is `t | (size << 3)`. -/
def packed (t : DepDirType) (align size : Int) : DepRel where
  entryType := t.code + size * 8
  align := align
  isKind := by rw [getRelType_entryType]; rfl

def MAX_ALIGN : Int := 3

def MIN_ALIGN : Int := -3

def reset (t : DepDirType) (min max : Int) : DepRel :=
  match t with
  | .none => packed .none 0 1
  | .all => packed .all 0 1
  | .eq =>
    if min < MIN_ALIGN ∧ max > MAX_ALIGN then packed .all 0 1
    else if min < MIN_ALIGN then packed .le max 1
    else if max > MAX_ALIGN then packed .ge min 1
    else packed .eq min (max - min + 1)
  | .le => if max > MAX_ALIGN then packed .all 0 1 else packed .le max 1
  | .ge => if min < MIN_ALIGN then packed .all 0 1 else packed .ge min 1
  | .ne =>
    if min < MIN_ALIGN ∨ max > MAX_ALIGN then packed .all 0 1
    else packed .ne min (max - min + 1)

def relType (e : DepRel) : DepDirType :=
  (getRelType e.entryType).get e.isKind

def rangeSize (e : DepRel) : Int :=
  alignRangeSize e.entryType

def getDirType (e : DepRel) : DepDirType :=
  match e.relType with
  | .eq => .eq
  | .le => .le
  | .ge => .ge
  | .none => .none
  | .all | .ne => .all

def getMinAlign (e : DepRel) : Int :=
  match e.relType with
  | .all | .ne | .le => NEG_INFTY
  | .none => POS_INFTY
  | .eq | .ge => e.align

def getMaxAlign (e : DepRel) : Int :=
  match e.relType with
  | .all | .ne | .ge => POS_INFTY
  | .none => NEG_INFTY
  | .eq | .le => e.align + e.rangeSize - 1

def isTop (e : DepRel) : Bool :=
  e.relType = .none

def isBottom (e : DepRel) : Bool :=
  e.relType = .all

def lessThan (e1 e2 : DepRel) : Bool :=
  if e1.isTop || e2.isBottom then true
  else if e1.isBottom || e2.isTop then false
  else
    let t := DepDirType.ofCode (e1.getDirType.code ||| e2.getDirType.code)
    if t ≠ some e2.getDirType then false
    else if t = some .eq ∧ e1.getMinAlign ≥ e2.getMinAlign ∧ e1.getMaxAlign ≤ e2.getMaxAlign then true
    else if t = some .le ∧ e1.getMaxAlign ≤ e2.getMaxAlign then true
    else if t = some .ge ∧ e1.getMinAlign ≥ e2.getMinAlign then true
    else t = some .all

/-- The updated first relation and whether it was modified. -/
def unionUpdate (e1 e2 : DepRel) : Option (DepRel × Bool) := do
  let t1 := e1.getDirType
  let t ← DepDirType.ofCode (t1.code ||| e2.getDirType.code)
  let a1 := e1.getMinAlign
  let a2 := e2.getMinAlign
  let b1 := e1.getMaxAlign
  let b2 := e2.getMaxAlign
  let min := if a1 < a2 then a1 else a2
  let max := if b1 < b2 then b2 else b1
  return (reset t min max, t ≠ t1 || a1 ≠ min || b1 ≠ max)

def or (e1 e2 : DepRel) : Option DepRel :=
  (e1.unionUpdate e2).map Prod.fst

/-- The updated first relation and whether it was modified. -/
def intersectUpdate (e1 e2 : DepRel) : Option (DepRel × Bool) := do
  let t1 := e1.getDirType
  let t ← DepDirType.ofCode (t1.code &&& e2.getDirType.code)
  let a1 := e1.getMinAlign
  let a2 := e2.getMinAlign
  let b1 := e1.getMaxAlign
  let b2 := e2.getMaxAlign
  let min := if a1 < a2 then a2 else a1
  let max := if b1 < b2 then b1 else b2
  let e := match t with
    | .none | .le | .ge | .all => reset t min max
    | .ne => if min < max then reset t min max else e1
    | .eq => if max < min then reset .none 0 0 else reset t min max
  return (e, t1 ≠ e.getDirType || a1 ≠ e.getMinAlign || b1 ≠ e.getMaxAlign)

def and (e1 e2 : DepRel) : Option DepRel :=
  (e1.intersectUpdate e2).map Prod.fst

def mul (e1 e2 : DepRel) : Option DepRel :=
  if e1.isTop then some e1
  else if e2.isTop then some e2
  else do
    let t ← DepDirType.ofCode (e1.getDirType.code ||| e2.getDirType.code)
    return reset t (addConst e1.getMinAlign e2.getMinAlign)
      (addConst e1.getMaxAlign e2.getMaxAlign)

/-- The closed relation and whether it was modified. -/
def closureUpdate (e : DepRel) : DepRel × Bool :=
  let t := e.getDirType
  let lo := e.getMinAlign
  let hi := e.getMaxAlign
  if t = .eq then
    if lo = hi ∧ lo = 0 then (e, false)
    else if lo ≥ 0 then (reset .ge lo lo, true)
    else if hi ≤ 0 then (reset .le hi hi, true)
    else (reset .all 0 0, true)
  else if t = .ne ∨ (t = .le ∧ hi > 0) ∨ (t = .ge ∧ lo < 0) then (reset .all 0 0, true)
  else (e, false)

def closure (e : DepRel) : DepRel :=
  e.closureUpdate.1

def reverse (e : DepRel) : DepRel :=
  let lo := e.getMinAlign
  let hi := e.getMaxAlign
  match e.getDirType with
  | .eq => reset .eq (-hi) (-lo)
  | .ne => reset .ne (-hi) (-lo)
  | .le => reset .ge (-hi) (-lo)
  | .ge => reset .le (-hi) (-lo)
  | .none | .all => e

end DepRel

end LoomX
