import LoomX.Xomp.DataEnvironment
import Mathlib.Algebra.BigOperators.Group.List.Basic
import Mathlib.Data.List.Perm.Basic
import Mathlib.Data.List.Nodup

namespace LoomX.Xomp

open LinkedStack

/-- The environments from the current one outwards, with the addresses of their nodes. -/
abbrev Environments := List (Nat × DDE)

/-- The variables that the environments map, those of the inner ones first. -/
def mapped (environments : Environments) : List MappedVariable :=
  environments.flatMap fun e => e.2.newVariables.map fun v => v.toMappedVariable

/-- The same host address and the same size in every dimension. -/
def MappedVariable.Matches (v : MappedVariable) (r : Request) : Prop :=
  v.address = r.address ∧ v.size = r.size

/-- The sizes of a mapped variable can be compared with those of the request. -/
def MappedVariable.Comparable (v : MappedVariable) (r : Request) : Prop :=
  v.size.length ≤ r.size.length ∧ (∀ m ∈ v.size, InInt (m * r.typeSize)) ∧
    ∀ n ∈ r.size.take v.size.length, InInt (n * r.typeSize)

/-- A matching variable comes before any other with the host address whose sizes are the first ones
of the request. -/
def Reusable (r : Request) : List MappedVariable → Prop
  | [] => False
  | v :: vs => v.Comparable r ∧ v.Matches r ∨
    (v.address = r.address → v.Comparable r ∧ ¬v.size <+: r.size) ∧ Reusable r vs

section
variable (cudaMalloc : Nat → List Nat → Nat → Option Nat)

/-- The bytes of the section fit in an `int`, and the device has room for them. -/
def Allocates (r : Request) (s : Runtime) (tail : DDE) : Prop :=
  (∀ sizes, sizes <+: r.size → InInt sizes.prod) ∧ InInt (r.size.prod * r.typeSize) ∧
    r.size.prod ≠ 0 ∧
    (cudaMalloc s.mallocs s.allocated (r.size.prod * r.typeSize % 2 ^ 64).toNat).isSome ∧
    tail.newVariables.length < xompMaxMappedVars ∧
    (r.copyInto = true → ∀ dest src, (r.scatter dest src).isSome)

/-- The inherited variables tell rightly whether the variable of the request is mapped. -/
def Request.Answerable (r : Request) (s : Runtime) : Prop :=
  r.address ≠ 0 ∧ ∃ tail, s.dde.last = some tail ∧
    (Reusable r tail.inheritedVariables ∨
      (∀ v ∈ tail.inheritedVariables, v.address ≠ r.address) ∧ Allocates cudaMalloc r s tail)

/-- An environment is entered, and its variables can be copied back. -/
def Exitable (s : Runtime) : Prop :=
  ∃ tail, s.dde.last = some tail ∧
    ∀ v ∈ tail.newVariables, v.copyFrom = true → ∀ dest src, (v.gather dest src).isSome

/-- Every call of a run meets its condition. -/
def CallsMeet (devID : Nat) : Runtime → List Call → Prop
  | _, [] => True
  | s, .enter :: calls =>
    ∀ s', xompDeviceDataEnvironmentEnter devID s = some s' → CallsMeet devID s' calls
  | s, .prepare r :: calls => r.Answerable cudaMalloc s ∧
    ∀ p s', xompDeviceDataEnvironmentPrepareVariable cudaMalloc r s = some (p, s') →
      CallsMeet devID s' calls
  | s, .exit :: calls => Exitable s ∧
    ∀ s', xompDeviceDataEnvironmentExit s = some s' → CallsMeet devID s' calls

/-- The variable of a request is recorded in the current environment. -/
def record (r : Request) (p : Nat) : Environments → Environments
  | [] => []
  | (node, e) :: outer =>
    (node, { e with newVariables := e.newVariables ++ [r.mappedAt p] }) :: outer

/-- An address that an enclosing environment uses is given out only for a variable that matches, and
otherwise a new variable is allocated and recorded. -/
def Answers (r : Request) (s : Runtime) (p : Nat) (s' : Runtime) : Prop :=
  let enclosing := mapped s.dde.toList.tail
  (∃ v ∈ enclosing, v.devAddress = p ∧ v.Matches r) ∧ s' = s ∨
    (∀ v ∈ enclosing, v.devAddress ≠ p) ∧ p ∉ s.allocated ∧ s'.allocated = p :: s.allocated ∧
      s'.dde.toList = record r p s.dde.toList

/-- Every call of a run does what it is for; `saved` are the environments at each entry that is not
left yet. -/
def CallsAnswer (devID : Nat) : List Environments → Runtime → List Call → Prop
  | _, _, [] => True
  | saved, s, .enter :: calls => ∃ s', xompDeviceDataEnvironmentEnter devID s = some s' ∧
    CallsAnswer devID (s.dde.toList :: saved) s' calls
  | saved, s, .prepare r :: calls => ∃ p s',
    xompDeviceDataEnvironmentPrepareVariable cudaMalloc r s = some (p, s') ∧
      Answers r s p s' ∧ CallsAnswer devID saved s' calls
  | saved, s, .exit :: calls => ∃ before rest s', saved = before :: rest ∧
    xompDeviceDataEnvironmentExit s = some s' ∧ s'.dde.toList = before ∧
      CallsAnswer devID rest s' calls

end

/-- Every environment inherits what the ones around it map. -/
def Inherits : Environments → Prop
  | [] => True
  | e :: outer => e.2.inheritedVariables = mapped outer ∧ Inherits outer

/-- What holds between two calls. -/
structure Runtime.Invariant (s : Runtime) (environments : Environments) : Prop where
  holds : s.dde.Holds environments
  inherits : Inherits environments
  allocated : ((mapped environments).map (·.devAddress)).Perm s.allocated
  nodup : s.allocated.Nodup
  notNull : 0 ∉ s.allocated

/-- The allocator gives out memory that is not in use. -/
def GivesFresh (cudaMalloc : Nat → List Nat → Nat → Option Nat) : Prop :=
  ∀ count allocated size p, size ≠ 0 → cudaMalloc count allocated size = some p →
    p ≠ 0 ∧ p ∉ allocated

section
variable {r : Request} {s s' : Runtime} {environments outer : Environments} {node p : Nat} {e : DDE}
  {vs : List MappedVariable}

theorem sizesMatch_eq_some {typeSize : Int} (hpos : 0 < typeSize) {ms ns : List Int} {b : Bool} :
    sizesMatch typeSize ms ns = some b ↔
      (ms.length ≤ ns.length ∧ (∀ m ∈ ms, InInt (m * typeSize)) ∧
        ∀ n ∈ ns.take ms.length, InInt (n * typeSize)) ∧ b = decide (ms <+: ns) := by
  induction ms generalizing ns b with
  | nil => simp [sizesMatch, eq_comm]
  | cons m ms ih =>
    cases ns with
    | nil => simp [sizesMatch]
    | cons n ns =>
      have hequal : m * typeSize = n * typeSize ↔ m = n :=
        mul_left_inj' (ne_of_gt hpos)
      simp only [sizesMatch, Option.bind_eq_bind, int_bind_eq_some]
      simp only [Option.bind_eq_some_iff, ih, Option.some.injEq, hequal, List.length_cons,
        Nat.add_le_add_iff_right, List.forall_mem_cons, List.take_succ_cons, List.cons_prefix_cons,
        Bool.decide_and]
      constructor
      · rintro ⟨hm, hn, _, ⟨⟨hlength, hms, hns⟩, rfl⟩, rfl⟩
        exact ⟨⟨hlength, ⟨hm, hms⟩, hn, hns⟩, rfl⟩
      · rintro ⟨⟨hlength, ⟨hm, hms⟩, hn, hns⟩, rfl⟩
        exact ⟨hm, hn, _, ⟨⟨hlength, hms, hns⟩, rfl⟩, rfl⟩

/-- What the scan answers, apart from the address it starts with. -/
theorem scanInherited_mem {d : Nat}
    (h : scanInherited r.address r.typeSize r.size vs d = some p) :
    (p = d ∧ ∀ v ∈ vs, v.address ≠ r.address) ∨
      ∃ v ∈ vs, v.devAddress = p ∧ v.address = r.address := by
  induction vs generalizing d with
  | nil =>
    obtain rfl : d = p := Option.some.inj h
    exact .inl ⟨rfl, fun v hv => by cases hv⟩
  | cons v vs ih =>
    simp only [scanInherited, Option.bind_eq_bind] at h
    split at h
    next haddress =>
      obtain ⟨matched, -, h⟩ := Option.bind_eq_some_iff.mp h
      split at h
      · exact .inr ⟨v, List.mem_cons_self, Option.some.inj h, haddress⟩
      · rcases ih h with ⟨rfl, -⟩ | ⟨u, hu, hp⟩
        · exact .inr ⟨v, List.mem_cons_self, rfl, haddress⟩
        · exact .inr ⟨u, List.mem_cons_of_mem v hu, hp⟩
    next haddress =>
      rcases ih h with ⟨rfl, hnone⟩ | ⟨u, hu, hp⟩
      · exact .inl ⟨rfl, List.forall_mem_cons.mpr ⟨haddress, hnone⟩⟩
      · exact .inr ⟨u, List.mem_cons_of_mem v hu, hp⟩

theorem scanInherited_none {d : Nat} (h : ∀ v ∈ vs, v.address ≠ r.address) :
    scanInherited r.address r.typeSize r.size vs d = some d := by
  induction vs generalizing d with
  | nil => rfl
  | cons v vs ih =>
    obtain ⟨hv, hvs⟩ := List.forall_mem_cons.mp h
    simp only [scanInherited, if_neg hv, ih hvs]

/-- The scan finds a variable that matches exactly where one comes before what it is mistaken
for. -/
theorem scanInherited_matches_iff {d : Nat} (hnodup : (vs.map (·.devAddress)).Nodup)
    (hd : d ∉ vs.map (·.devAddress)) :
    (∃ p, scanInherited r.address r.typeSize r.size vs d = some p ∧
      ∃ v ∈ vs, v.devAddress = p ∧ v.Matches r) ↔ Reusable r vs := by
  induction vs generalizing d with
  | nil => simp [Reusable]
  | cons u vs ih =>
    rw [List.map_cons, List.nodup_cons] at hnodup
    rw [List.map_cons, List.mem_cons, not_or] at hd
    -- only a variable behind the first one can match when the first one does not
    have hlater : ¬u.Matches r → ∀ p, (∃ v ∈ u :: vs, v.devAddress = p ∧ v.Matches r) ↔
        ∃ v ∈ vs, v.devAddress = p ∧ v.Matches r := by
      intro hu p
      constructor
      · rintro ⟨v, hv, hp, hmatches⟩
        rcases List.mem_cons.mp hv with rfl | hv
        · exact absurd hmatches hu
        · exact ⟨v, hv, hp, hmatches⟩
      · rintro ⟨v, hv, h⟩
        exact ⟨v, List.mem_cons_of_mem u hv, h⟩
    by_cases haddress : u.address = r.address
    · simp only [scanInherited, if_pos haddress, Option.bind_eq_bind, Reusable]
      by_cases hcomparable : u.Comparable r
      · rw [(sizesMatch_eq_some r.typeSize_pos).mpr ⟨hcomparable, rfl⟩, Option.bind_some]
        by_cases hstarts : u.size <+: r.size
        · simp only [hstarts, decide_true, if_true, Option.some.injEq, not_true_eq_false, and_false,
            haddress, forall_const, false_and, or_false]
          constructor
          · rintro ⟨_, rfl, v, hv, hp, hmatches⟩
            rcases List.mem_cons.mp hv with rfl | hv
            · exact ⟨hcomparable, hmatches⟩
            · exact absurd (List.mem_map.mpr ⟨v, hv, hp⟩) hnodup.1
          · rintro ⟨-, hmatches⟩
            exact ⟨_, rfl, u, List.mem_cons_self, rfl, hmatches⟩
        · have hu : ¬u.Matches r := by
            intro hmatches
            apply hstarts
            rw [hmatches.2]
          simp only [hstarts, decide_false, Bool.false_eq_true, if_false, hlater hu,
            ih hnodup.2 hnodup.1, hcomparable, hu, haddress, forall_const, not_false_eq_true,
            and_self, true_and, false_or]
      · have hfault : sizesMatch r.typeSize u.size r.size = none := by
          by_contra hsome
          obtain ⟨b, hb⟩ := Option.ne_none_iff_exists'.mp hsome
          exact hcomparable ((sizesMatch_eq_some r.typeSize_pos).mp hb).1
        simp [hfault, hcomparable, haddress]
    · have hu : ¬u.Matches r := fun hmatches => haddress hmatches.1
      have hscan : scanInherited r.address r.typeSize r.size (u :: vs) d =
          scanInherited r.address r.typeSize r.size vs d := by
        simp only [scanInherited, if_neg haddress]
      simp only [hscan, hlater hu, ih hnodup.2 hd.2, Reusable, hu, and_false, false_or, haddress,
        false_imp_iff, true_and]

/-- A product that is multiplied up in an `int`. -/
theorem foldlM_int_eq_some {sizes : List Int} {a b : Int} (ha : InInt a) :
    sizes.foldlM (fun product n => int (product * n)) a = some b ↔
      (∀ first, first <+: sizes → InInt (a * first.prod)) ∧ b = a * sizes.prod := by
  induction sizes generalizing a with
  | nil => simp [ha, eq_comm]
  | cons n sizes ih =>
    rw [List.foldlM_cons, Option.bind_eq_bind, int_bind_eq_some]
    constructor
    · rintro ⟨hn, h⟩
      obtain ⟨hfits, rfl⟩ := (ih hn).mp h
      refine ⟨fun first hfirst => ?_, by rw [List.prod_cons, mul_assoc]⟩
      rcases List.prefix_cons_iff.mp hfirst with rfl | ⟨rest, rfl, hrest⟩
      · rwa [List.prod_nil, mul_one]
      · rw [List.prod_cons, ← mul_assoc]
        exact hfits rest hrest
    · rintro ⟨hfits, rfl⟩
      have hn : InInt (a * n) := by
        have hone := hfits [n] (List.prefix_append [n] sizes)
        rwa [List.prod_singleton] at hone
      refine ⟨hn, (ih hn).mpr ⟨fun rest hrest => ?_, by rw [List.prod_cons, mul_assoc]⟩⟩
      have hcons := hfits (n :: rest) (List.cons_prefix_cons.mpr ⟨rfl, hrest⟩)
      rwa [List.prod_cons, ← mul_assoc] at hcons

theorem devSize_eq_some {a : ArraySection} {n : Int} :
    a.devSize = some n ↔ (∀ sizes, sizes <+: a.size → InInt sizes.prod) ∧ n = a.size.prod := by
  have h := @foldlM_int_eq_some a.size 1 n (by decide)
  simp only [one_mul] at h
  exact h

/-- The transfers of a section succeed whatever the memories hold. -/
theorem scatter_isSome {a : ArraySection} {dest src dest' src' : Int → UInt8}
    (h : (a.scatter dest src).isSome) : (a.scatter dest' src').isSome := by
  obtain ⟨_, hscatter⟩ := Option.isSome_iff_exists.mp h
  obtain ⟨rows, hrows, -⟩ := Option.bind_eq_some_iff.mp hscatter
  exact Option.isSome_iff_exists.mpr ⟨_, Option.bind_eq_some_iff.mpr ⟨rows, hrows, rfl⟩⟩

theorem gather_isSome {a : ArraySection} {dest src dest' src' : Int → UInt8}
    (h : (a.gather dest src).isSome) : (a.gather dest' src').isSome := by
  obtain ⟨_, hgather⟩ := Option.bind_eq_some_iff.mp (Option.isSome_iff_exists.mp h).choose_spec
  exact Option.isSome_iff_exists.mpr ⟨_, Option.bind_eq_some_iff.mpr ⟨_, hgather.1, rfl⟩⟩

theorem mapped_record (r : Request) (p node : Nat) (e : DDE) (outer : Environments) :
    mapped (record r p ((node, e) :: outer)) =
      e.newVariables.map (·.toMappedVariable) ++ (r.mappedAt p).toMappedVariable :: mapped outer := by
  simp only [record, mapped, List.flatMap_cons, List.map_append, List.map_cons, List.map_nil,
    List.append_assoc, List.cons_append, List.nil_append]

/-- A new variable at a fresh address keeps the invariant. -/
theorem Runtime.Invariant.record {s' : Runtime} (hinv : s.Invariant ((node, e) :: outer))
    (hdde : s'.dde.Holds (record r p ((node, e) :: outer)))
    (hallocated : s'.allocated = p :: s.allocated) (hp : p ∉ s.allocated) (hzero : p ≠ 0) :
    s'.Invariant (record r p ((node, e) :: outer)) where
  holds := hdde
  inherits := hinv.inherits
  allocated := by
    rw [mapped_record, List.map_append, List.map_cons, hallocated]
    have hperm := hinv.allocated
    rw [mapped, List.flatMap_cons, List.map_append] at hperm
    exact List.perm_middle.trans (hperm.cons p)
  nodup := by
    rw [hallocated]
    exact List.nodup_cons.mpr ⟨hp, hinv.nodup⟩
  notNull := by
    rw [hallocated, List.mem_cons, not_or]
    exact ⟨hzero.symm, hinv.notNull⟩

theorem size_ne_zero {x : Int} (hx : InInt x) (hne : x ≠ 0) : (x % 2 ^ 64).toNat ≠ 0 := by
  unfold InInt at hx
  omega

variable {cudaMalloc : Nat → List Nat → Nat → Option Nat}

theorem xompDeviceMalloc_eq_some {size : Nat} :
    xompDeviceMalloc cudaMalloc size s = some (p, s') ↔
      cudaMalloc s.mallocs s.allocated size = some p ∧ size ≠ 0 ∧
        { s with allocated := p :: s.allocated, mallocs := s.mallocs + 1 } = s' := by
  simp only [xompDeviceMalloc, Option.bind_eq_bind, Option.bind_eq_some_iff,
    Option.ite_none_right_eq_some, Option.some.injEq, Prod.mk.injEq]
  constructor
  · rintro ⟨q, hmalloc, hsize, rfl, rfl⟩
    exact ⟨hmalloc, hsize, rfl⟩
  · rintro ⟨hmalloc, hsize, rfl⟩
    exact ⟨p, hmalloc, hsize, rfl, rfl⟩

/-- A variable is added as long as the table has room. -/
theorem addVariable_eq_some (h : s.dde.Holds ((node, e) :: outer)) (v : NewVariable) :
    ∃ dde, dde.Holds ((node, { e with newVariables := e.newVariables ++ [v] }) :: outer) ∧
      ∀ s', xompDeviceDataEnvironmentAddVariable s v = some s' ↔
        e.newVariables.length < xompMaxMappedVars ∧ { s with dde } = s' := by
  obtain ⟨dde, hset, hholds⟩ := Links.setLast_holds h
  refine ⟨dde, hholds, fun s' => ?_⟩
  simp only [xompDeviceDataEnvironmentAddVariable, Links.last_eq h, hset, Option.bind_eq_bind,
    Option.bind_some, Option.ite_none_right_eq_some, Option.some.injEq]

/-- A new variable that is mapped is allocated and recorded. -/
theorem mapNewVariable_some (hfresh : GivesFresh cudaMalloc)
    (hinv : s.Invariant ((node, e) :: outer)) (h : mapNewVariable cudaMalloc r s = some (p, s')) :
    Allocates cudaMalloc r s e ∧ p ≠ 0 ∧ p ∉ s.allocated ∧ s'.allocated = p :: s.allocated ∧
      s'.dde.Holds (record r p ((node, e) :: outer)) := by
  obtain ⟨devSize, hdevSize, h⟩ := Option.bind_eq_some_iff.mp h
  obtain ⟨hfits, rfl⟩ := devSize_eq_some.mp hdevSize
  obtain ⟨hbytes, h⟩ := int_bind_eq_some.mp h
  obtain ⟨⟨q, s₁⟩, hallocated, h⟩ := Option.bind_eq_some_iff.mp h
  obtain ⟨hmalloc, hsize, rfl⟩ := xompDeviceMalloc_eq_some.mp hallocated
  obtain ⟨hzero, hfree⟩ := hfresh _ _ _ _ hsize hmalloc
  obtain ⟨s₂, hadd, h⟩ := Option.bind_eq_some_iff.mp h
  obtain ⟨dde, hholds, hadded⟩ := addVariable_eq_some (s := { s with
    allocated := q :: s.allocated, mallocs := s.mallocs + 1 }) hinv.holds (r.mappedAt q)
  obtain ⟨hcount, rfl⟩ := (hadded s₂).mp hadd
  have hprod : r.size.prod ≠ 0 := by
    intro hprod
    apply hsize
    rw [hprod, zero_mul]
    rfl
  have hallocates : (r.copyInto = true → ∀ dest src, (r.scatter dest src).isSome) →
      Allocates cudaMalloc r s e := by
    intro hscatter
    exact ⟨hfits, hbytes, hprod, Option.isSome_iff_exists.mpr ⟨_, hmalloc⟩, hcount, hscatter⟩
  split at h
  next hcopy =>
    obtain ⟨buffer, hbuffer, h⟩ := Option.bind_eq_some_iff.mp h
    obtain ⟨rfl, rfl⟩ := Prod.mk.inj (Option.some.inj h)
    refine ⟨hallocates fun _ dest src => ?_, hzero, hfree, rfl, hholds⟩
    exact scatter_isSome (Option.isSome_iff_exists.mpr ⟨buffer, hbuffer⟩)
  next hcopy =>
    obtain ⟨rfl, rfl⟩ := Prod.mk.inj (Option.some.inj h)
    exact ⟨hallocates fun h => absurd h hcopy, hzero, hfree, rfl, hholds⟩

theorem mapNewVariable_isSome (hinv : s.Invariant ((node, e) :: outer))
    (h : Allocates cudaMalloc r s e) :
    ∃ p s', mapNewVariable cudaMalloc r s = some (p, s') := by
  obtain ⟨hfits, hbytes, hprod, hmalloc, hcount, hscatter⟩ := h
  obtain ⟨q, hq⟩ := Option.isSome_iff_exists.mp hmalloc
  have hsize := size_ne_zero hbytes (mul_ne_zero hprod (ne_of_gt r.typeSize_pos))
  obtain ⟨dde, -, hadded⟩ := addVariable_eq_some (s := { s with
    allocated := q :: s.allocated, mallocs := s.mallocs + 1 }) hinv.holds (r.mappedAt q)
  simp only [mapNewVariable, devSize_eq_some.mpr ⟨hfits, rfl⟩, int, if_pos hbytes,
    xompDeviceMalloc_eq_some.mpr ⟨hq, hsize, rfl⟩, (hadded _).mpr ⟨hcount, rfl⟩,
    Option.bind_eq_bind, Option.bind_some]
  split
  next hcopy =>
    obtain ⟨buffer, hbuffer⟩ := Option.isSome_iff_exists.mp (hscatter hcopy _ _)
    rw [hbuffer]
    exact ⟨_, _, rfl⟩
  next => exact ⟨_, _, rfl⟩

theorem Runtime.Invariant.inherited (hinv : s.Invariant ((node, e) :: outer)) :
    e.inheritedVariables = mapped outer := hinv.inherits.1

theorem Runtime.Invariant.mem_allocated (hinv : s.Invariant ((node, e) :: outer))
    {v : MappedVariable} (hv : v ∈ mapped outer) : v.devAddress ∈ s.allocated := by
  apply hinv.allocated.mem_iff.mp
  apply List.mem_map_of_mem
  exact List.mem_append_right _ hv

theorem Runtime.Invariant.outer_nodup (hinv : s.Invariant ((node, e) :: outer)) :
    ((mapped outer).map (·.devAddress)).Nodup := by
  have hnodup := hinv.allocated.nodup_iff.mpr hinv.nodup
  rw [mapped, List.flatMap_cons, List.map_append] at hnodup
  exact hnodup.of_append_right

theorem Runtime.Invariant.outer_notNull (hinv : s.Invariant ((node, e) :: outer)) :
    0 ∉ (mapped outer).map (·.devAddress) := by
  intro hzero
  obtain ⟨v, hv, hdev⟩ := List.mem_map.mp hzero
  exact hinv.notNull (hdev ▸ hinv.mem_allocated hv)

/-- What a call to prepare a variable does. -/
theorem prepare_cases (hinv : s.Invariant environments)
    (h : xompDeviceDataEnvironmentPrepareVariable cudaMalloc r s = some (p, s')) :
    r.address ≠ 0 ∧ ∃ node e outer, environments = (node, e) :: outer ∧
      (p ≠ 0 ∧ scanInherited r.address r.typeSize r.size (mapped outer) 0 = some p ∧ s' = s ∨
        scanInherited r.address r.typeSize r.size (mapped outer) 0 = some 0 ∧
          mapNewVariable cudaMalloc r s = some (p, s')) := by
  obtain ⟨d, hscan, h⟩ := Option.bind_eq_some_iff.mp h
  obtain ⟨⟨q, s₁⟩, hmapped, h⟩ := Option.bind_eq_some_iff.mp h
  obtain ⟨hp, h⟩ := Option.ite_none_right_eq_some.mp h
  obtain ⟨rfl, rfl⟩ := Prod.mk.inj (Option.some.inj h)
  unfold xompDeviceDataEnvironmentGetInheritedVariable at hscan
  split at hscan
  next => cases hscan
  next haddress =>
    obtain ⟨tail, hlast, hscan⟩ := Option.bind_eq_some_iff.mp hscan
    refine ⟨haddress, ?_⟩
    cases environments with
    | nil =>
      rw [Links.last_nil hinv.holds] at hlast
      cases hlast
    | cons e outer =>
      obtain ⟨node, e⟩ := e
      rw [Links.last_eq hinv.holds] at hlast
      obtain rfl := Option.some.inj hlast
      rw [hinv.inherited] at hscan
      refine ⟨node, e, outer, rfl, ?_⟩
      split at hmapped
      next hd => exact .inr ⟨hd ▸ hscan, hmapped⟩
      next hd =>
        obtain ⟨rfl, rfl⟩ := Prod.mk.inj (Option.some.inj hmapped)
        exact .inl ⟨hp, hscan, rfl⟩

/-- The inherited variables are asked first. -/
theorem prepare_eq (hinv : s.Invariant ((node, e) :: outer)) (haddress : r.address ≠ 0) {d : Nat}
    (hscan : scanInherited r.address r.typeSize r.size (mapped outer) 0 = some d) :
    xompDeviceDataEnvironmentPrepareVariable cudaMalloc r s =
      (if d = 0 then mapNewVariable cudaMalloc r s else some (d, s)).bind fun x =>
        if x.1 ≠ 0 then some x else none := by
  rw [← hinv.inherited] at hscan
  simp only [xompDeviceDataEnvironmentPrepareVariable,
    xompDeviceDataEnvironmentGetInheritedVariable, if_neg haddress, Links.last_eq hinv.holds,
    Option.bind_eq_bind, Option.bind_some, hscan]

/-- A call that answers rightly keeps the invariant and the enclosing environments. -/
theorem prepare_invariant (hfresh : GivesFresh cudaMalloc) (hinv : s.Invariant environments)
    (h : xompDeviceDataEnvironmentPrepareVariable cudaMalloc r s = some (p, s')) :
    ∃ environments', s'.Invariant environments' ∧
      environments'.tails.tail = environments.tails.tail := by
  obtain ⟨-, node, e, outer, rfl, ⟨-, -, rfl⟩ | ⟨-, hmapped⟩⟩ := prepare_cases hinv h
  · exact ⟨_, hinv, rfl⟩
  · obtain ⟨-, hzero, hfree, hallocated, hholds⟩ := mapNewVariable_some hfresh hinv hmapped
    exact ⟨_, hinv.record hholds hallocated hfree hzero, rfl⟩

/-- The call answers rightly exactly where the inherited variables tell what to do. -/
theorem prepare_answers_iff (hfresh : GivesFresh cudaMalloc) (hinv : s.Invariant environments) :
    (∃ p s', xompDeviceDataEnvironmentPrepareVariable cudaMalloc r s = some (p, s') ∧
      Answers r s p s') ↔ r.Answerable cudaMalloc s := by
  constructor
  · rintro ⟨p, s', h, hanswers⟩
    obtain ⟨haddress, node, e, outer, rfl, hcases⟩ := prepare_cases hinv h
    refine ⟨haddress, e, Links.last_eq hinv.holds, ?_⟩
    rw [hinv.inherited]
    rcases hcases with ⟨hp, hscan, rfl⟩ | ⟨hscan, hmapped⟩
    · left
      apply (scanInherited_matches_iff hinv.outer_nodup hinv.outer_notNull).mp
      refine ⟨p, hscan, ?_⟩
      unfold Answers at hanswers
      rw [Links.toList_eq hinv.holds, List.tail_cons] at hanswers
      rcases hanswers with ⟨hreused, -⟩ | ⟨hnone, -⟩
      · exact hreused
      · -- the scan answers with the address of an inherited variable
        rcases scanInherited_mem hscan with ⟨rfl, -⟩ | ⟨v, hv, hdev, -⟩
        · exact absurd rfl hp
        · exact absurd hdev (hnone v hv)
    · right
      refine ⟨?_, (mapNewVariable_some hfresh hinv hmapped).1⟩
      rcases scanInherited_mem hscan with ⟨-, hnone⟩ | ⟨v, hv, hdev, -⟩
      · exact hnone
      · exact absurd (List.mem_map.mpr ⟨v, hv, hdev⟩) hinv.outer_notNull
  · rintro ⟨haddress, tail, hlast, h⟩
    cases environments with
    | nil =>
      rw [Links.last_nil hinv.holds] at hlast
      cases hlast
    | cons e outer =>
      obtain ⟨node, e⟩ := e
      rw [Links.last_eq hinv.holds] at hlast
      obtain rfl := Option.some.inj hlast
      rw [hinv.inherited] at h
      unfold Answers
      rw [Links.toList_eq hinv.holds, List.tail_cons]
      rcases h with hreusable | ⟨hnone, hallocates⟩
      · obtain ⟨p, hscan, v, hv, hdev, hmatches⟩ :=
          (scanInherited_matches_iff hinv.outer_nodup hinv.outer_notNull).mpr hreusable
        have hp : p ≠ 0 := by
          rintro rfl
          exact hinv.outer_notNull (List.mem_map.mpr ⟨v, hv, hdev⟩)
        refine ⟨p, s, ?_, .inl ⟨⟨v, hv, hdev, hmatches⟩, rfl⟩⟩
        rw [prepare_eq hinv haddress hscan, if_neg hp, Option.bind_some, if_pos hp]
      · obtain ⟨p, s', hmapped⟩ := mapNewVariable_isSome hinv hallocates
        obtain ⟨-, hzero, hfree, hallocated, hholds⟩ := mapNewVariable_some hfresh hinv hmapped
        refine ⟨p, s', ?_, .inr ⟨fun v hv hdev => ?_, hfree, hallocated, Links.toList_eq hholds⟩⟩
        · rw [prepare_eq hinv haddress (scanInherited_none hnone), if_pos rfl, hmapped,
            Option.bind_some, if_pos hzero]
        · exact hfree (hdev ▸ hinv.mem_allocated hv)

/-- What leaves an environment does to the memory in use. -/
theorem unmapVariable_some {v : NewVariable} (h : unmapVariable s v = some s') :
    s'.dde = s.dde ∧ s'.allocated = s.allocated.erase v.devAddress ∧
      (v.copyFrom = true → ∀ dest src, (v.gather dest src).isSome) := by
  unfold unmapVariable at h
  split at h
  next =>
    obtain ⟨array, harray, h⟩ := Option.bind_eq_some_iff.mp h
    obtain rfl := Option.some.inj h
    refine ⟨rfl, rfl, fun _ dest src => ?_⟩
    exact gather_isSome (Option.isSome_iff_exists.mpr ⟨array, harray⟩)
  next hcopy =>
    obtain rfl := Option.some.inj h
    exact ⟨rfl, rfl, fun h => absurd h hcopy⟩

theorem unmapVariable_isSome {v : NewVariable}
    (h : v.copyFrom = true → ∀ dest src, (v.gather dest src).isSome) :
    ∃ s', unmapVariable s v = some s' := by
  unfold unmapVariable
  split
  next hcopy =>
    obtain ⟨array, harray⟩ := Option.isSome_iff_exists.mp (h hcopy _ _)
    rw [harray]
    exact ⟨_, rfl⟩
  next => exact ⟨_, rfl⟩

/-- All variables of an environment are unmapped: the memory of the others stays in use. -/
theorem foldlM_unmapVariable {news : List NewVariable} {rest : List Nat}
    (h : news.foldlM unmapVariable s = some s')
    (hperm : (news.map (·.devAddress) ++ rest).Perm s.allocated) :
    s'.dde = s.dde ∧ rest.Perm s'.allocated ∧
      ∀ v ∈ news, v.copyFrom = true → ∀ dest src, (v.gather dest src).isSome := by
  induction news generalizing s with
  | nil =>
    obtain rfl := Option.some.inj h
    exact ⟨rfl, hperm, fun v hv => by cases hv⟩
  | cons v news ih =>
    rw [List.foldlM_cons] at h
    obtain ⟨s₁, hfirst, h⟩ := Option.bind_eq_some_iff.mp h
    obtain ⟨hdde, hallocated, hgather⟩ := unmapVariable_some hfirst
    have hrest : (news.map (·.devAddress) ++ rest).Perm s₁.allocated := by
      rw [hallocated]
      exact (List.cons_perm_iff_perm_erase.mp hperm).2
    obtain ⟨hdde', hperm', hgathers⟩ := ih h hrest
    exact ⟨hdde'.trans hdde, hperm', List.forall_mem_cons.mpr ⟨hgather, hgathers⟩⟩

theorem foldlM_unmapVariable_isSome {news : List NewVariable}
    (h : ∀ v ∈ news, v.copyFrom = true → ∀ dest src, (v.gather dest src).isSome) :
    ∃ s', news.foldlM unmapVariable s = some s' := by
  induction news generalizing s with
  | nil => exact ⟨s, rfl⟩
  | cons v news ih =>
    obtain ⟨hv, hnews⟩ := List.forall_mem_cons.mp h
    obtain ⟨s₁, hfirst⟩ := unmapVariable_isSome (s := s) hv
    obtain ⟨s₂, hrest⟩ := ih (s := s₁) hnews
    refine ⟨s₂, ?_⟩
    rw [List.foldlM_cons, hfirst]
    exact hrest

/-- An exit removes the innermost environment. -/
theorem exit_some (hinv : s.Invariant environments)
    (h : xompDeviceDataEnvironmentExit s = some s') :
    Exitable s ∧ ∃ node e outer, environments = (node, e) :: outer ∧ s'.Invariant outer := by
  obtain ⟨tail, hlast, h⟩ := Option.bind_eq_some_iff.mp h
  obtain ⟨s₁, hunmapped, h⟩ := Option.bind_eq_some_iff.mp h
  obtain ⟨dde, hdropped, h⟩ := Option.bind_eq_some_iff.mp h
  obtain rfl := Option.some.inj h
  cases environments with
  | nil =>
    rw [Links.last_nil hinv.holds] at hlast
    cases hlast
  | cons e outer =>
    obtain ⟨node, e⟩ := e
    rw [Links.last_eq hinv.holds] at hlast
    obtain rfl := Option.some.inj hlast
    have hperm := hinv.allocated
    rw [mapped, List.flatMap_cons, List.map_append, List.map_map] at hperm
    obtain ⟨hdde, hrest, hgather⟩ := foldlM_unmapVariable hunmapped hperm
    obtain ⟨_, hdropped', hholds⟩ := Links.dropLast_holds hinv.holds
    rw [hdde] at hdropped
    obtain rfl := Option.some.inj (hdropped.symm.trans hdropped')
    refine ⟨⟨e, Links.last_eq hinv.holds, hgather⟩, node, e, outer, rfl, ?_⟩
    exact {
      holds := hholds
      inherits := hinv.inherits.2
      allocated := hrest
      nodup := hrest.nodup_iff.mp hinv.outer_nodup
      notNull := fun hzero => hinv.outer_notNull (hrest.mem_iff.mpr hzero) }

theorem exit_isSome (hinv : s.Invariant environments) (h : Exitable s) :
    ∃ s', xompDeviceDataEnvironmentExit s = some s' := by
  obtain ⟨tail, hlast, hgather⟩ := h
  cases environments with
  | nil =>
    rw [Links.last_nil hinv.holds] at hlast
    cases hlast
  | cons e outer =>
    obtain ⟨node, e⟩ := e
    obtain ⟨s₁, hunmapped⟩ := foldlM_unmapVariable_isSome (s := s) hgather
    rw [Links.last_eq hinv.holds] at hlast
    obtain rfl := Option.some.inj hlast
    have hperm := hinv.allocated
    rw [mapped, List.flatMap_cons, List.map_append, List.map_map] at hperm
    obtain ⟨hdde, -, -⟩ := foldlM_unmapVariable hunmapped hperm
    obtain ⟨dde, hdropped, -⟩ := Links.dropLast_holds hinv.holds
    simp only [xompDeviceDataEnvironmentExit, Links.last_eq hinv.holds, hunmapped, hdde, hdropped,
      Option.bind_eq_bind, Option.bind_some]
    exact ⟨_, rfl⟩

/-- An environment that is entered inherits all that is mapped. -/
theorem enter_spec (hinv : s.Invariant environments) (devID : Nat) :
    ∃ s' e, xompDeviceDataEnvironmentEnter devID s = some s' ∧ s'.Invariant (e :: environments) := by
  have hinherited : inheritedFrom s.dde.last = mapped environments := by
    cases environments with
    | nil =>
      rw [Links.last_nil hinv.holds]
      rfl
    | cons e outer =>
      obtain ⟨node, e⟩ := e
      rw [Links.last_eq hinv.holds, inheritedFrom, hinv.inherited]
      exact congrArg _ (List.map_id _)
  obtain ⟨dde, happended, hholds⟩ :=
    Links.append_holds (a := (⟨devID, [], mapped environments⟩ : DDE)) hinv.holds
  refine ⟨{ s with dde }, _, ?_, hholds, ⟨rfl, hinv.inherits⟩, hinv.allocated, hinv.nodup,
    hinv.notNull⟩
  simp only [xompDeviceDataEnvironmentEnter, hinherited, happended, Option.bind_eq_bind,
    Option.bind_some]

theorem start_invariant (host device : Int → UInt8) : (Runtime.start host device).Invariant [] :=
  ⟨Links.holds_empty, trivial, List.Perm.refl _, List.nodup_nil, List.not_mem_nil⟩

/-- From any state between two calls, the calls of a run do what they are for exactly where they
meet their conditions. -/
theorem callsAnswer_iff (hfresh : GivesFresh cudaMalloc) (devID : Nat) {calls : List Call}
    (hinv : s.Invariant environments) :
    CallsAnswer cudaMalloc devID environments.tails.tail s calls ↔
      CallsMeet cudaMalloc devID s calls := by
  induction calls generalizing s environments with
  | nil => exact Iff.rfl
  | cons call calls ih =>
    cases call with
    | enter =>
      obtain ⟨s', e, hentered, hinv'⟩ := enter_spec hinv devID
      have hsaved : s.dde.toList :: environments.tails.tail = (e :: environments).tails.tail := by
        rw [Links.toList_eq hinv.holds]
        cases environments <;> rfl
      simp only [CallsAnswer, CallsMeet, hentered, Option.some.injEq, exists_eq_left', forall_eq',
        hsaved]
      exact ih hinv'
    | prepare r =>
      simp only [CallsAnswer, CallsMeet]
      constructor
      · rintro ⟨p, s', hprepared, hanswers, hrest⟩
        refine ⟨(prepare_answers_iff hfresh hinv).mp ⟨p, s', hprepared, hanswers⟩, ?_⟩
        intro q s'' hprepared'
        obtain ⟨rfl, rfl⟩ := Prod.mk.inj (Option.some.inj (hprepared.symm.trans hprepared'))
        obtain ⟨environments', hinv', hsaved⟩ := prepare_invariant hfresh hinv hprepared
        rw [← hsaved] at hrest
        exact (ih hinv').mp hrest
      · rintro ⟨hanswerable, hrest⟩
        obtain ⟨p, s', hprepared, hanswers⟩ := (prepare_answers_iff hfresh hinv).mpr hanswerable
        obtain ⟨environments', hinv', hsaved⟩ := prepare_invariant hfresh hinv hprepared
        refine ⟨p, s', hprepared, hanswers, ?_⟩
        rw [← hsaved]
        exact (ih hinv').mpr (hrest p s' hprepared)
    | exit =>
      simp only [CallsAnswer, CallsMeet]
      constructor
      · rintro ⟨before, rest, s', hbefore, hexited, -, hrest⟩
        obtain ⟨hexitable, node, e, outer, rfl, hinv'⟩ := exit_some hinv hexited
        refine ⟨hexitable, ?_⟩
        intro s'' hexited'
        obtain rfl := Option.some.inj (hexited.symm.trans hexited')
        obtain rfl : outer.tails.tail = rest := by
          cases outer <;> exact (List.cons.inj hbefore).2
        exact (ih hinv').mp hrest
      · rintro ⟨hexitable, hrest⟩
        obtain ⟨s', hexited⟩ := exit_isSome hinv hexitable
        obtain ⟨-, node, e, outer, rfl, hinv'⟩ := exit_some hinv hexited
        refine ⟨outer, outer.tails.tail, s', ?_, hexited, Links.toList_eq hinv'.holds, ?_⟩
        · cases outer <;> rfl
        · exact (ih hinv').mpr (hrest s' hexited)

end

/-- In a run from the start every call does what it is for exactly where every call meets its
condition. -/
theorem runs_answer_iff {cudaMalloc : Nat → List Nat → Nat → Option Nat}
    (hfresh : GivesFresh cudaMalloc) (devID : Nat) (host device : Int → UInt8)
    (calls : List Call) :
    CallsAnswer cudaMalloc devID [] (Runtime.start host device) calls ↔
      CallsMeet cudaMalloc devID (Runtime.start host device) calls :=
  callsAnswer_iff hfresh devID (start_invariant host device)

/-- An allocator that never runs out of memory. -/
def aboveAll (_ : Nat) (allocated : List Nat) (_ : Nat) : Option Nat := some (allocated.sum + 1)

theorem aboveAll_givesFresh : GivesFresh aboveAll := by
  intro count allocated size p _ h
  obtain rfl := Option.some.inj h
  refine ⟨Nat.succ_ne_zero _, fun hmem => ?_⟩
  have := List.single_le_sum (fun _ _ => Nat.zero_le _) _ hmem
  omega

/-- A request for the first `n` elements of an array of eight. -/
def firstElements (n : Int) : Request :=
  ⟨⟨1, 4, [n], [0], [8], rfl, rfl, rfl, by decide⟩, 1000, false, false⟩

theorem firstElements_allocates {s : Runtime} {e : DDE} (he : e.newVariables = []) :
    Allocates aboveAll (firstElements 4) s e := by
  refine ⟨fun sizes hsizes => ?_, by decide, by decide, rfl, ?_, fun h => absurd h (by decide)⟩
  · rcases List.prefix_cons_iff.mp hsizes with rfl | ⟨rest, rfl, hrest⟩
    · decide
    · rw [List.prefix_nil.mp hrest]
      decide
  · rw [he]
    decide

/-- The inner environment uses the device memory of the outer one. -/
theorem runs_answer_nested :
    CallsAnswer aboveAll 0 [] (Runtime.start (fun _ => 0) fun _ => 0)
      [.enter, .prepare (firstElements 4), .enter, .prepare (firstElements 4), .exit, .exit] := by
  apply (runs_answer_iff aboveAll_givesFresh 0 _ _ _).mpr
  intro s₁ h₁
  obtain rfl := Option.some.inj h₁
  refine ⟨⟨by decide, _, rfl, .inr ⟨List.forall_mem_nil _, firstElements_allocates rfl⟩⟩, ?_⟩
  intro p s₂ h₂
  obtain ⟨rfl, rfl⟩ := Prod.mk.inj (Option.some.inj h₂)
  intro s₃ h₃
  obtain rfl := Option.some.inj h₃
  refine ⟨⟨by decide, _, rfl, .inl (.inl ⟨⟨by decide, by decide, by decide⟩, rfl, rfl⟩)⟩, ?_⟩
  intro p s₄ h₄
  obtain ⟨rfl, rfl⟩ := Prod.mk.inj (Option.some.inj h₄)
  refine ⟨⟨_, rfl, fun v hv => by cases hv⟩, ?_⟩
  intro s₅ h₅
  obtain rfl := Option.some.inj h₅
  refine ⟨⟨_, rfl, fun v hv hcopy => ?_⟩, fun _ _ => trivial⟩
  obtain rfl := List.mem_singleton.mp hv
  cases hcopy

/-- Where an inner environment asks for another section of the array, it gets the device memory of
the outer one. -/
theorem otherSection_reused :
    GivesFresh aboveAll ∧
      ¬CallsAnswer aboveAll 0 [] (Runtime.start (fun _ => 0) fun _ => 0)
        [.enter, .prepare (firstElements 4), .enter, .prepare (firstElements 8)] := by
  refine ⟨aboveAll_givesFresh, ?_⟩
  rintro ⟨s₁, h₁, p, s₂, h₂, -, s₃, h₃, q, s₄, h₄, hanswers, -⟩
  obtain rfl := Option.some.inj h₁
  obtain ⟨rfl, rfl⟩ := Prod.mk.inj (Option.some.inj h₂)
  obtain rfl := Option.some.inj h₃
  obtain ⟨rfl, rfl⟩ := Prod.mk.inj (Option.some.inj h₄)
  rcases hanswers with ⟨⟨v, hv, -, -, hsize⟩, -⟩ | ⟨hnone, -⟩
  · obtain rfl := List.mem_singleton.mp hv
    exact absurd hsize (by decide)
  · exact hnone _ (List.mem_singleton_self _) rfl

end LoomX.Xomp
