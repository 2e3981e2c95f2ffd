import LoomX.DataFlowEngine

namespace LoomX

/-- `BitFlags` over 32 bits. -/
@[ext]
structure ReasonFlags where
  vector : BitVec 32
  deriving DecidableEq

namespace ReasonFlags

def empty : ReasonFlags := ⟨0⟩

def isAnySet (a : ReasonFlags) : Bool := a.vector ≠ 0

def set (a b : ReasonFlags) : ReasonFlags := ⟨a.vector ||| b.vector⟩

def clear (a b : ReasonFlags) : ReasonFlags := ⟨a.vector &&& ~~~b.vector⟩

def bits (a : ReasonFlags) (i : Nat) : Bool := a.vector.getLsbD i

theorem bits_injective : Function.Injective bits := by
  intro a b h
  refine ReasonFlags.ext (BitVec.eq_of_getLsbD_eq fun i _ => ?_)
  exact congrFun h i

/-- Fewer reasons are less. -/
instance : PartialOrder ReasonFlags := PartialOrder.lift bits bits_injective

theorem le_iff {a b : ReasonFlags} : a ≤ b ↔ ∀ i, a.bits i = true → b.bits i = true := by
  show (∀ i, a.bits i ≤ b.bits i) ↔ _
  simp only [Bool.le_iff_imp]

theorem bits_set (a b : ReasonFlags) (i : Nat) : (a.set b).bits i = (a.bits i || b.bits i) :=
  BitVec.getLsbD_or

theorem bits_empty (i : Nat) : empty.bits i = false := BitVec.getLsbD_zero

theorem le_set_left (a b : ReasonFlags) : a ≤ a.set b := by
  rw [le_iff]
  intro i hi
  rw [bits_set, hi, Bool.true_or]

theorem le_set_right (a b : ReasonFlags) : b ≤ a.set b := by
  rw [le_iff]
  intro i hi
  rw [bits_set, hi, Bool.or_true]

theorem set_le {a b c : ReasonFlags} (ha : a ≤ c) (hb : b ≤ c) : a.set b ≤ c := by
  rw [le_iff] at ha hb ⊢
  intro i hi
  rw [bits_set, Bool.or_eq_true] at hi
  exact hi.elim (ha i) (hb i)

theorem empty_le (a : ReasonFlags) : empty ≤ a := by
  rw [le_iff]
  intro i hi
  rw [bits_empty] at hi
  cases hi

theorem isAnySet_iff {a : ReasonFlags} : a.isAnySet = true ↔ a ≠ empty := by
  simp [isAnySet, empty, ReasonFlags.ext_iff]

theorem exists_bit {a : ReasonFlags} (h : a.isAnySet = true) : ∃ i, a.bits i = true := by
  by_contra hnone
  refine isAnySet_iff.mp h (bits_injective (funext fun i => ?_))
  rw [bits_empty]
  exact Bool.eq_false_iff.mpr fun hi => hnone ⟨i, hi⟩

/-- A reason of a join is a reason of one of what is joined. -/
theorem exists_of_isLUB {A : Set ReasonFlags} {a : ReasonFlags} (h : IsLUB A a) {i : Nat}
    (hi : a.bits i = true) : ∃ b ∈ A, b.bits i = true := by
  by_contra hnone
  have hbound : i < 32 := BitVec.lt_of_getLsbD hi
  have hclear : ∀ j, (a.clear ⟨BitVec.twoPow 32 i⟩).bits j = (a.bits j && !decide (j = i)) := by
    intro j
    by_cases hj : j < 32
    · simp [clear, bits, hj, eq_comm]
    · simp [clear, bits, BitVec.getLsbD_of_ge _ _ (Nat.not_lt.mp hj)]
  have hle : a ≤ a.clear ⟨BitVec.twoPow 32 i⟩ := by
    refine h.2 fun b hb => ?_
    rw [le_iff]
    intro j hj
    have hne : j ≠ i := fun heq => hnone ⟨b, hb, heq ▸ hj⟩
    rw [hclear, le_iff.mp (h.1 hb) j hj]
    simpa using hne
  have hbad := le_iff.mp hle i hi
  rw [hclear] at hbad
  simp at hbad

instance : Finite ReasonFlags :=
  Finite.of_injective ReasonFlags.vector fun _ _ => ReasonFlags.ext

end ReasonFlags

/-- What the analysis reads of the control flow graph and of the functions. -/
structure Partitioner (n : Nat) (E F : Type) where
  cfg : ControlFlow n E
  isBasicBlock : Fin n → Bool
  findExplicitInstructionReferents : Fin n → List (Fin n)
  functionsOwningBasicBlock : Fin n → List F
  functions : List F
  findImplicitFunctionReferents : F → List (Fin n)

structure ReachabilitySettings where
  markingExplicitInstructionReferents : ReasonFlags
  markingImplicitFunctionReferents : ReasonFlags
  precomputeImplicitFunctionReferents : Bool

structure Reachability (n : Nat) (F : Type) where
  intrinsicReachability : Fin n → ReasonFlags
  reachability : Fin n → ReasonFlags
  dfReferents : List (F × List (Fin n))
  scannedVertexIds : Finset (Fin n)

namespace Reachability

variable {n : Nat} {E F : Type}

/-- The data flow of `propagateImpl`; its merge reports a change for all that is not equal. -/
def propagation (cfg : ControlFlow n E) : DataFlow n E ReasonFlags where
  cfg := cfg
  xfer := fun _ state => state
  merge := fun _ a _ b => if a = b then (a, false) else (a.set b, true)
  isFeasible := fun _ _ _ => true

def dfEngine : Engine n ReasonFlags :=
  ⟨fun _ => .empty, fun _ => .empty, .empty, 2 ^ 64 - 1, 0⟩

def startingVertices (r : Reachability n F) : List (Fin n × ReasonFlags) :=
  (List.finRange n).filterMap fun i =>
    if (r.intrinsicReachability i).isAnySet then some (i, r.intrinsicReachability i) else none

/-- The vertices whose reachability changes are appended to a list; none where the fuel does not
suffice or the engine throws. -/
def propagateImpl (cfg : ControlFlow n E) (fuel : Nat) (r : Reachability n F)
    (vertexIds : List (Fin n)) : Option (Reachability n F × List (Fin n)) :=
  match Engine.runToFixedPoint (propagation cfg) fuel
      (dfEngine.started .empty r.startingVertices) with
  | some (e, .ok ()) =>
    some ({ r with reachability := e.outgoingState },
      vertexIds ++ (List.finRange n).filter fun v => e.outgoingState v ≠ r.reachability v)
  | _ => none

/-- The reasons of a vertex are replaced. -/
def intrinsicallyReachable (r : Reachability n F) (vertexId : Fin n) (how : ReasonFlags) :
    Reachability n F × Nat :=
  if how = r.intrinsicReachability vertexId then (r, 0)
  else
    ({ r with
      intrinsicReachability := Function.update r.intrinsicReachability vertexId how }, 1)

def intrinsicallyReachableAll (r : Reachability n F) (vertexIds : List (Fin n))
    (how : ReasonFlags) : Reachability n F × Nat :=
  vertexIds.foldl (fun s v =>
    ((s.1.intrinsicallyReachable v how).1, s.2 + (s.1.intrinsicallyReachable v how).2)) (r, 0)

def hasReasons (reasons any all none : ReasonFlags) : Bool :=
  (if any.isAnySet then (reasons.vector &&& any.vector) ≠ 0 else reasons.isAnySet) &&
    reasons.vector &&& all.vector = all.vector && reasons.vector &&& none.vector = 0

def reachableVertices (r : Reachability n F) : List (Fin n) :=
  (List.finRange n).filter fun v => hasReasons (r.reachability v) .empty .empty .empty

/-- Keeps the items not seen before, in their order, and tracks them. -/
def removeIfSeen (seen : Finset (Fin n)) : List (Fin n) → List (Fin n) × Finset (Fin n)
  | [] => ([], seen)
  | v :: rest =>
    if v ∈ seen then removeIfSeen seen rest
    else ((v :: (removeIfSeen (insert v seen) rest).1), (removeIfSeen (insert v seen) rest).2)

variable [DecidableEq F] (p : Partitioner n E F) (settings : ReachabilitySettings)

/-- Each function without an entry gets one, by a task of its own. -/
def cacheImplicitFunctionReferents (r : Reachability n F) (functions : List F) :
    Reachability n F :=
  { r with
    dfReferents := r.dfReferents ++
      (functions.filter fun f => (r.dfReferents.lookup f).isNone).map fun f =>
        (f, p.findImplicitFunctionReferents f) }

def markExplicitInstructionReferents (s : Reachability n F × Nat) (v : Fin n) :
    Reachability n F × Nat :=
  if settings.markingExplicitInstructionReferents.isAnySet && p.isBasicBlock v then
    let marked := s.1.intrinsicallyReachableAll (p.findExplicitInstructionReferents v)
      settings.markingExplicitInstructionReferents
    (marked.1, s.2 + marked.2)
  else s

def functionsToAnalyze (r : Reachability n F) (vertexIds : List (Fin n)) : List F :=
  if settings.markingImplicitFunctionReferents.isAnySet then
    (((vertexIds.filter p.isBasicBlock).flatMap p.functionsOwningBasicBlock).filter fun f =>
      (r.dfReferents.lookup f).isNone).eraseDups
  else []

def markImplicitFunctionReferents (s : Reachability n F × Nat) (f : F) : Reachability n F × Nat :=
  let marked := s.1.intrinsicallyReachableAll ((s.1.dfReferents.lookup f).getD [])
    settings.markingImplicitFunctionReferents
  (marked.1, s.2 + marked.2)

def iterationMarking (r : Reachability n F) (vertexIds : List (Fin n)) : Reachability n F × Nat :=
  let s := vertexIds.foldl (markExplicitInstructionReferents p settings) (r, 0)
  let functions := functionsToAnalyze p settings r vertexIds
  functions.foldl (markImplicitFunctionReferents settings)
    (cacheImplicitFunctionReferents p s.1 functions, s.2)

def track (r : Reachability n F) (ids : List (Fin n)) : Reachability n F :=
  { r with scannedVertexIds := (removeIfSeen r.scannedVertexIds ids).2 }

/-- Scans the vertices of a list that were not scanned before. -/
def scan (r : Reachability n F) (ids : List (Fin n)) : (Reachability n F × Nat) × List (Fin n) :=
  let unseen := (removeIfSeen r.scannedVertexIds ids).1
  (iterationMarking p settings (r.track ids) unseen, unseen)

/-- The loop of `iterate`, with fuel for the engine and for the passes. -/
def passes (engineFuel : Nat) : Nat → Reachability n F → List (Fin n) → Option (Reachability n F)
  | 0, _, _ => none
  | fuel + 1, r, ids =>
    match propagateImpl p.cfg engineFuel r ids with
    | none => none
    | some (r, ids) =>
      let scanned := scan p settings r ids
      if scanned.1.2 = 0 then some scanned.1.1
      else passes engineFuel fuel scanned.1.1 scanned.2

def iterate (engineFuel fuel : Nat) (r : Reachability n F) : Option (Reachability n F) :=
  let r :=
    if settings.precomputeImplicitFunctionReferents &&
        settings.markingImplicitFunctionReferents.isAnySet && r.dfReferents.isEmpty then
      cacheImplicitFunctionReferents p r p.functions
    else r
  let scanned := scan p settings r r.reachableVertices
  passes p settings engineFuel fuel scanned.1.1 scanned.2

section
variable {cfg : ControlFlow n E} {r r' : Reachability n F} {ids ids' : List (Fin n)}

omit [DecidableEq F]

theorem joins_propagation (cfg : ControlFlow n E) : (propagation cfg).JoinsFrom .empty := by
  refine ⟨⟨?_, ?_, ?_⟩, ?_, ReasonFlags.empty_le, fun _ _ h => h⟩ <;> intro u d v s
  · show d ≤ (if d = s then (d, false) else (d.set s, true)).1
    split
    next => exact le_rfl
    next => exact ReasonFlags.le_set_left d s
  · show s ≤ (if d = s then (d, false) else (d.set s, true)).1
    split
    next heq => exact heq.ge
    next => exact ReasonFlags.le_set_right d s
  · show (if d = s then (d, false) else (d.set s, true)).2 = false →
      (if d = s then (d, false) else (d.set s, true)).1 = d
    split
    next => exact fun _ => rfl
    next => exact fun h => absurd h (by simp)
  · intro x hd hs
    show (if d = s then (d, false) else (d.set s, true)).1 ≤ x
    split
    next => exact hd
    next => exact ReasonFlags.set_le hd hs

/-- A change is reported without one only where the destination has more. -/
theorem changed_propagation (cfg : ControlFlow n E) (u : Fin n) (d : ReasonFlags) (v : Fin n)
    (s : ReasonFlags) (hflag : ((propagation cfg).merge u d v s).2 = true)
    (hsame : ((propagation cfg).merge u d v s).1 = d) : s < d := by
  have hle : s ≤ d := hsame ▸ (joins_propagation cfg).le_right u d v s
  refine lt_of_le_of_ne hle fun heq => ?_
  have hfalse : ((propagation cfg).merge u d v s).2 = false := by
    show (if d = s then (d, false) else (d.set s, true)).2 = false
    rw [if_pos heq.symm]
  rw [hfalse] at hflag
  cases hflag

theorem distributive_propagation (cfg : ControlFlow n E) :
    (propagation cfg).flows.IsDistributive := by
  intro v A a _ h
  show IsLUB ((fun s => s) '' A) a
  rw [Set.image_id']
  exact h

theorem mem_startingVertices {v : Fin n} {s : ReasonFlags} : (v, s) ∈ r.startingVertices ↔
    (r.intrinsicReachability v).isAnySet = true ∧ s = r.intrinsicReachability v := by
  simp only [startingVertices, List.mem_filterMap, List.mem_finRange, true_and]
  constructor
  · rintro ⟨u, hu⟩
    split at hu
    next hset =>
      cases hu
      exact ⟨hset, rfl⟩
    next => cases hu
  · rintro ⟨hset, rfl⟩
    exact ⟨v, if_pos hset⟩

theorem starts_iff {v : Fin n} {s : ReasonFlags} :
    DataFlow.Starts (dfEngine.started .empty r.startingVertices) v s ↔
      (r.intrinsicReachability v).isAnySet = true ∧ s = r.intrinsicReachability v := by
  have hmem : v ∈ (dfEngine.started .empty r.startingVertices).workList.items ↔
      (r.intrinsicReachability v).isAnySet = true := by
    rw [Engine.started, Engine.mem_insertStartingVertices]
    simp [Engine.reset, DistinctList.empty, mem_startingVertices]
  rw [DataFlow.Starts, hmem]
  refine and_congr_right fun hset => ?_
  rcases Engine.insertStartingVertices_cases (dfEngine.reset .empty) r.startingVertices v with
    ⟨hnot, _⟩ | ⟨t, ht, heq⟩
  · exact absurd (mem_startingVertices.mpr ⟨hset, rfl⟩) (hnot _)
  · rw [Engine.started, heq, (mem_startingVertices.mp ht).2]

theorem reached_iff {v : Fin n} {s : ReasonFlags} :
    (propagation cfg).flows.Reached
        (DataFlow.Starts (dfEngine.started .empty r.startingVertices)) v s ↔
      ∃ u, Relation.ReflTransGen cfg.Edge u v ∧ (r.intrinsicReachability u).isAnySet = true ∧
        s = r.intrinsicReachability u := by
  constructor
  · intro h
    induction h with
    | start h => exact ⟨_, .refl, starts_iff.mp h⟩
    | flow _ hflow ih =>
      obtain ⟨u, hu, hs⟩ := ih
      obtain ⟨edge, hedge, htarget, _⟩ := hflow
      exact ⟨u, hu.tail ⟨edge, hedge, htarget⟩, hs⟩
  · rintro ⟨u, hu, hs⟩
    induction hu with
    | refl => exact .start (starts_iff.mpr hs)
    | tail _ he ih =>
      obtain ⟨edge, hedge, htarget⟩ := he
      exact .flow ih ⟨edge, hedge, htarget, s, rfl⟩

theorem isAnySet_of_bits {a : ReasonFlags} {i : Nat} (h : a.bits i = true) :
    a.isAnySet = true := by
  rw [ReasonFlags.isAnySet_iff]
  rintro rfl
  rw [ReasonFlags.bits_empty] at h
  cases h

/-- What `propagateImpl` computes when it returns. -/
theorem propagateImpl_spec {fuel : Nat} (h : propagateImpl cfg fuel r ids = some (r', ids')) :
    r' = { r with reachability := r'.reachability } ∧
      ids' = ids ++ (List.finRange n).filter (fun v => r'.reachability v ≠ r.reachability v) ∧
      ∀ v i, (r'.reachability v).bits i = true ↔
        ∃ u, Relation.ReflTransGen cfg.Edge u v ∧ (r.intrinsicReachability u).bits i = true := by
  unfold propagateImpl at h
  split at h
  next e hrun =>
    cases h
    refine ⟨rfl, rfl, fun v i => ?_⟩
    show (e.outgoingState v).bits i = true ↔ _
    have hlive : ∀ start ∈ r.startingVertices, start.2 ≠ ReasonFlags.empty := by
      rintro ⟨u, s⟩ hstart
      obtain ⟨hset, rfl⟩ := mem_startingVertices.mp hstart
      exact ReasonFlags.isAnySet_iff.mp hset
    have hout : e.outgoingState v = e.incomingState v := by
      rcases (Engine.fixedPoint_solved (joins_propagation cfg).toLawfulMerge
        (fun _ _ _ _ _ h => h) hrun).2 v with hsolved | ⟨_, hin, hout⟩
      · exact hsolved.transferred
      · rw [hin, hout]
    rw [hout]
    constructor
    · intro hi
      obtain ⟨A, hA, hlub⟩ := Engine.joins_fixedPoint (joins_propagation cfg)
        (fun _ _ _ _ _ => rfl) (distributive_propagation cfg) hlive hrun v
      obtain ⟨b, hb, hbi⟩ := ReasonFlags.exists_of_isLUB hlub hi
      obtain ⟨u, hu, _, rfl⟩ := reached_iff.mp (hA b hb)
      exact ⟨u, hu, hbi⟩
    · rintro ⟨u, hu, hui⟩
      have hreached := reached_iff.mpr ⟨u, hu, isAnySet_of_bits hui, rfl⟩
      have hle := Engine.reached_le_fixedPoint (joins_propagation cfg) (fun _ _ _ _ => rfl)
        ⟨fun _ _ _ h => h, fun _ _ _ _ _ h => h⟩ hlive hrun hreached
      exact ReasonFlags.le_iff.mp hle i hui
  next => cases h

theorem propagateImpl_exists (cfg : ControlFlow n E) (r : Reachability n F) :
    ∃ fuel r', ∀ fuel' ≥ fuel, ∀ ids, ∃ ids', propagateImpl cfg fuel' r ids = some (r', ids') := by
  obtain ⟨fuel, ⟨e, outcome⟩, hrun, hok⟩ := Engine.runToFixedPoint_halts
    (joins_propagation cfg).toLawfulMerge (fun _ _ _ _ _ h => h) (changed_propagation cfg)
    (dfEngine.started .empty r.startingVertices)
  have hmax := (Engine.insertStartingVertices_kept (dfEngine.reset .empty) r.startingVertices).2
  rw [show outcome = .ok () from hok hmax] at hrun
  refine ⟨fuel, { r with reachability := e.outgoingState }, fun fuel' hle ids => ?_⟩
  unfold propagateImpl
  rw [Engine.run_mono hrun hle]
  exact ⟨_, rfl⟩

/-- What `propagateImpl` computes of whether there is any reason. -/
theorem propagateImpl_isAnySet {fuel : Nat} (h : propagateImpl cfg fuel r ids = some (r', ids'))
    (v : Fin n) : (r'.reachability v).isAnySet = true ↔
      ∃ u, Relation.ReflTransGen cfg.Edge u v ∧ (r.intrinsicReachability u).isAnySet = true := by
  have hbits := (propagateImpl_spec h).2.2 v
  constructor
  · intro hv
    obtain ⟨i, hi⟩ := ReasonFlags.exists_bit hv
    obtain ⟨u, hu, hui⟩ := (hbits i).mp hi
    exact ⟨u, hu, isAnySet_of_bits hui⟩
  · rintro ⟨u, hu, hset⟩
    obtain ⟨i, hi⟩ := ReasonFlags.exists_bit hset
    exact isAnySet_of_bits ((hbits i).mpr ⟨u, hu, hi⟩)

end

/-- Vertices whose reasons are replaced, by reasons that are not empty. -/
structure Marked (targets : Fin n → Prop) (s s' : Reachability n F × Nat) : Prop where
  reachability : s'.1.reachability = s.1.reachability
  scanned : s'.1.scannedVertexIds = s.1.scannedVertexIds
  kept : ∀ v, (s.1.intrinsicReachability v).isAnySet = true →
    (s'.1.intrinsicReachability v).isAnySet = true
  marked : ∀ v, targets v → (s'.1.intrinsicReachability v).isAnySet = true
  only : ∀ v, (s'.1.intrinsicReachability v).isAnySet = true →
    (s.1.intrinsicReachability v).isAnySet = true ∨ targets v
  count : s.2 ≤ s'.2
  same : s'.2 = s.2 → s'.1.intrinsicReachability = s.1.intrinsicReachability

section
omit [DecidableEq F]
variable {s s' s'' : Reachability n F × Nat} {targets targets' : Fin n → Prop}

theorem Marked.refl (s : Reachability n F × Nat) : Marked (fun _ => False) s s where
  reachability := rfl
  scanned := rfl
  kept := fun _ h => h
  marked := fun _ h => h.elim
  only := fun _ h => .inl h
  count := le_rfl
  same := fun _ => rfl

theorem Marked.trans (h : Marked targets s s') (h' : Marked targets' s' s'') :
    Marked (fun v => targets v ∨ targets' v) s s'' where
  reachability := h'.reachability.trans h.reachability
  scanned := h'.scanned.trans h.scanned
  kept := fun v hv => h'.kept v (h.kept v hv)
  marked := by
    rintro v (hv | hv)
    · exact h'.kept v (h.marked v hv)
    · exact h'.marked v hv
  only := by
    intro v hv
    rcases h'.only v hv with hv | hv
    · exact (h.only v hv).imp_right .inl
    · exact .inr (.inr hv)
  count := h.count.trans h'.count
  same := by
    intro heq
    have hle := h.count
    have hle' := h'.count
    rw [h'.same (by omega), h.same (by omega)]

theorem Marked.congr (h : Marked targets s s') (htargets : ∀ v, targets v ↔ targets' v) :
    Marked targets' s s' :=
  (funext fun v => propext (htargets v) : targets = targets') ▸ h

theorem marked_intrinsicallyReachable {how : ReasonFlags} (hhow : how.isAnySet = true)
    (r : Reachability n F) (k : Nat) (v : Fin n) :
    Marked (· = v) (r, k)
      ((r.intrinsicallyReachable v how).1, k + (r.intrinsicallyReachable v how).2) := by
  unfold intrinsicallyReachable
  split
  next heq =>
    refine ⟨rfl, rfl, fun _ h => h, ?_, fun _ h => .inl h, le_rfl, fun _ => rfl⟩
    rintro _ rfl
    exact heq ▸ hhow
  next =>
    have hupdate : ∀ u, Function.update r.intrinsicReachability v how u =
        if u = v then how else r.intrinsicReachability u := fun u => Function.update_apply ..
    refine ⟨rfl, rfl, fun u hu => ?_, fun u hu => ?_, fun u hu => ?_, Nat.le_succ k, ?_⟩
    · show (Function.update r.intrinsicReachability v how u).isAnySet = true
      rw [hupdate]
      split
      next => exact hhow
      next => exact hu
    · show (Function.update r.intrinsicReachability v how u).isAnySet = true
      rw [hupdate, if_pos hu]
      exact hhow
    · have hu : (Function.update r.intrinsicReachability v how u).isAnySet = true := hu
      rw [hupdate] at hu
      split at hu
      next heq => exact .inr heq
      next => exact .inl hu
    · show k + 1 = k → _
      omega

/-- Marks made one after another. -/
theorem marked_foldl {ι : Type} {step : Reachability n F × Nat → ι → Reachability n F × Nat}
    (targets : ι → Fin n → Prop) (good : Reachability n F → Prop)
    (hgood : ∀ s i, good s.1 → good (step s i).1) {items : List ι}
    (hstep : ∀ s i, i ∈ items → good s.1 → Marked (targets i) s (step s i))
    (s : Reachability n F × Nat) (hs : good s.1) :
    Marked (fun v => ∃ i ∈ items, targets i v) s (items.foldl step s) := by
  induction items generalizing s with
  | nil => exact (Marked.refl s).congr (by simp)
  | cons i items ih =>
    have hfirst := hstep s i (by simp) hs
    have hrest := ih (fun s j hj => hstep s j (List.mem_cons_of_mem _ hj)) (step s i) (hgood s i hs)
    exact (hfirst.trans hrest).congr (by simp)

theorem Marked.shift {r r' : Reachability n F} {k : Nat} (h : Marked targets (r, 0) (r', k))
    (base : Nat) : Marked targets (r, base) (r', base + k) where
  reachability := h.reachability
  scanned := h.scanned
  kept := h.kept
  marked := h.marked
  only := h.only
  count := Nat.le_add_right ..
  same := by
    intro heq
    have hzero : k = 0 := by
      have heq : base + k = base := heq
      omega
    exact h.same hzero

theorem intrinsicallyReachableAll_spec {how : ReasonFlags} (hhow : how.isAnySet = true)
    (r : Reachability n F) (ids : List (Fin n)) :
    Marked (· ∈ ids) (r, 0) (r.intrinsicallyReachableAll ids how) := by
  refine (marked_foldl (fun v u => u = v) (fun _ => True) (fun _ _ _ => trivial)
    (fun s v _ _ => ?_) (r, 0) trivial).congr ?_
  · obtain ⟨r, k⟩ := s
    exact marked_intrinsicallyReachable hhow r k v
  · simp

theorem intrinsicallyReachableAll_dfReferents (r : Reachability n F) (ids : List (Fin n))
    (how : ReasonFlags) : (r.intrinsicallyReachableAll ids how).1.dfReferents = r.dfReferents := by
  unfold intrinsicallyReachableAll
  generalize 0 = k
  induction ids generalizing r k with
  | nil => rfl
  | cons v ids ih =>
    refine (ih _ _).trans ?_
    show (r.intrinsicallyReachable v how).1.dfReferents = _
    unfold intrinsicallyReachable
    split <;> rfl

end

section
variable {p : Partitioner n E F} {settings : ReachabilitySettings} {r : Reachability n F}
  {ids : List (Fin n)}

omit [DecidableEq F] in
theorem marked_explicit (p : Partitioner n E F) (settings : ReachabilitySettings)
    (s : Reachability n F × Nat) (v : Fin n) :
    Marked (fun u => settings.markingExplicitInstructionReferents.isAnySet = true ∧
        p.isBasicBlock v = true ∧ u ∈ p.findExplicitInstructionReferents v) s
      (markExplicitInstructionReferents p settings s v) := by
  obtain ⟨r, k⟩ := s
  unfold markExplicitInstructionReferents
  split
  next h =>
    rw [Bool.and_eq_true] at h
    refine ((intrinsicallyReachableAll_spec h.1 r _).shift k).congr fun u => ?_
    simp [h.1, h.2]
  next h =>
    rw [Bool.and_eq_true] at h
    exact (Marked.refl _).congr fun u => ⟨False.elim, fun hu => h ⟨hu.1, hu.2.1⟩⟩

theorem lookup_cache (r : Reachability n F) (functions : List F) (f : F) :
    (cacheImplicitFunctionReferents p r functions).dfReferents.lookup f =
      (r.dfReferents.lookup f).or
        (if f ∈ functions then some (p.findImplicitFunctionReferents f) else none) := by
  show (r.dfReferents ++ _).lookup f = _
  rw [List.lookup_append]
  cases hlookup : r.dfReferents.lookup f with
  | some refs => rfl
  | none =>
    rw [Option.none_or, Option.none_or]
    induction functions with
    | nil => rfl
    | cons g functions ih =>
      by_cases hg : (r.dfReferents.lookup g).isNone = true
      · rw [List.filter_cons, if_pos hg, List.map_cons, List.lookup_cons]
        by_cases heq : f = g
        · subst heq
          simp
        · simp only [beq_eq_false_iff_ne.mpr heq, ih, List.mem_cons, heq, false_or]
      · rw [List.filter_cons, if_neg hg, ih]
        have hne : f ≠ g := by
          rintro rfl
          simp [hlookup] at hg
        simp only [List.mem_cons, hne, false_or]

theorem mem_functionsToAnalyze {f : F} : f ∈ functionsToAnalyze p settings r ids ↔
    settings.markingImplicitFunctionReferents.isAnySet = true ∧ r.dfReferents.lookup f = none ∧
      ∃ v ∈ ids, p.isBasicBlock v = true ∧ f ∈ p.functionsOwningBasicBlock v := by
  unfold functionsToAnalyze
  split
  next h =>
    simp only [List.mem_eraseDups, List.mem_filter, List.mem_flatMap, Option.isNone_iff_eq_none]
    constructor
    · rintro ⟨⟨v, ⟨hv, hblock⟩, hf⟩, hnone⟩
      exact ⟨h, hnone, v, hv, hblock, hf⟩
    · rintro ⟨_, hnone, v, hv, hblock, hf⟩
      exact ⟨⟨v, ⟨hv, hblock⟩, hf⟩, hnone⟩
  next h => simp [h]

/-- The vertices to which the scan of some vertices gives reasons. -/
def Referents (p : Partitioner n E F) (settings : ReachabilitySettings) (known : F → Prop)
    (v u : Fin n) : Prop :=
  p.isBasicBlock v = true ∧
    ((settings.markingExplicitInstructionReferents.isAnySet = true ∧
        u ∈ p.findExplicitInstructionReferents v) ∨
      (settings.markingImplicitFunctionReferents.isAnySet = true ∧
        ∃ f ∈ p.functionsOwningBasicBlock v, ¬known f ∧ u ∈ p.findImplicitFunctionReferents f))

omit [DecidableEq F] in
theorem foldl_dfReferents {ι : Type} {step : Reachability n F × Nat → ι → Reachability n F × Nat}
    (hstep : ∀ s i, (step s i).1.dfReferents = s.1.dfReferents) (items : List ι)
    (s : Reachability n F × Nat) : (items.foldl step s).1.dfReferents = s.1.dfReferents := by
  induction items generalizing s with
  | nil => rfl
  | cons i items ih => exact (ih _).trans (hstep s i)

omit [DecidableEq F] in
theorem markExplicit_dfReferents (p : Partitioner n E F) (settings : ReachabilitySettings)
    (s : Reachability n F × Nat) (v : Fin n) :
    (markExplicitInstructionReferents p settings s v).1.dfReferents = s.1.dfReferents := by
  unfold markExplicitInstructionReferents
  split
  next => exact intrinsicallyReachableAll_dfReferents ..
  next => rfl

theorem markImplicit_dfReferents (s : Reachability n F × Nat) (f : F) :
    (markImplicitFunctionReferents settings s f).1.dfReferents = s.1.dfReferents :=
  intrinsicallyReachableAll_dfReferents ..

theorem marked_cache {targets : Fin n → Prop} {s s' : Reachability n F × Nat}
    (h : Marked targets s s') (functions : List F) :
    Marked targets s (cacheImplicitFunctionReferents p s'.1 functions, s'.2) :=
  ⟨h.reachability, h.scanned, h.kept, h.marked, h.only, h.count, h.same⟩

theorem marked_implicit (hhow : settings.markingImplicitFunctionReferents.isAnySet = true)
    (s : Reachability n F × Nat) (f : F) :
    Marked (· ∈ (s.1.dfReferents.lookup f).getD []) s
      (markImplicitFunctionReferents settings s f) := by
  obtain ⟨r, k⟩ := s
  exact (intrinsicallyReachableAll_spec hhow r _).shift k

theorem iterationMarking_spec (p : Partitioner n E F) (settings : ReachabilitySettings)
    (r : Reachability n F) (ids : List (Fin n)) :
    Marked (fun u => ∃ v ∈ ids, Referents p settings (r.dfReferents.lookup · ≠ none) v u) (r, 0)
        (iterationMarking p settings r ids) ∧
      ∀ f, (iterationMarking p settings r ids).1.dfReferents.lookup f =
        (r.dfReferents.lookup f).or (if f ∈ functionsToAnalyze p settings r ids then
          some (p.findImplicitFunctionReferents f) else none) := by
  have heq : iterationMarking p settings r ids =
      (functionsToAnalyze p settings r ids).foldl (markImplicitFunctionReferents settings)
        (cacheImplicitFunctionReferents p
          (ids.foldl (markExplicitInstructionReferents p settings) (r, 0)).1
          (functionsToAnalyze p settings r ids),
        (ids.foldl (markExplicitInstructionReferents p settings) (r, 0)).2) := rfl
  have hexplicit := marked_foldl _ (fun _ => True) (fun _ _ _ => trivial)
    (fun s v (_ : v ∈ ids) _ => marked_explicit p settings s v) (r, 0) trivial
  have hknown := foldl_dfReferents (markExplicit_dfReferents p settings) ids (r, 0)
  rw [heq]
  generalize ids.foldl (markExplicitInstructionReferents p settings) (r, 0) = s at hexplicit hknown
  have hlookup := lookup_cache (p := p) s.1 (functionsToAnalyze p settings r ids)
  have hcached := marked_cache (p := p) hexplicit (functionsToAnalyze p settings r ids)
  rw [hknown] at hlookup
  generalize cacheImplicitFunctionReferents p s.1 (functionsToAnalyze p settings r ids) = cached
    at hlookup hcached
  have hstep : ∀ (s : Reachability n F × Nat) f, f ∈ functionsToAnalyze p settings r ids →
      s.1.dfReferents = cached.dfReferents → Marked (· ∈ p.findImplicitFunctionReferents f) s
        (markImplicitFunctionReferents settings s f) := by
    intro s f hf hs
    have hmem := mem_functionsToAnalyze.mp hf
    have hmarked := marked_implicit hmem.1 s f
    rw [hs, hlookup, hmem.2.1, if_pos hf] at hmarked
    exact hmarked
  have himplicit := marked_foldl (fun f u => u ∈ p.findImplicitFunctionReferents f)
    (fun r => r.dfReferents = cached.dfReferents)
    (fun s f h => (markImplicit_dfReferents s f).trans h) hstep (cached, s.2) rfl
  refine ⟨(hcached.trans himplicit).congr fun u => ?_, fun f => ?_⟩
  · simp only [mem_functionsToAnalyze, Referents]
    constructor
    · rintro (⟨v, hv, hset, hblock, hu⟩ | ⟨f, ⟨hset, hnone, v, hv, hblock, hf⟩, hu⟩)
      · exact ⟨v, hv, hblock, .inl ⟨hset, hu⟩⟩
      · exact ⟨v, hv, hblock, .inr ⟨hset, f, hf, not_not.mpr hnone, hu⟩⟩
    · rintro ⟨v, hv, hblock, ⟨hset, hu⟩ | ⟨hset, f, hf, hnone, hu⟩⟩
      · exact .inl ⟨v, hv, hset, hblock, hu⟩
      · exact .inr ⟨f, ⟨hset, not_not.mp hnone, v, hv, hblock, hf⟩, hu⟩
  · rw [foldl_dfReferents markImplicit_dfReferents]
    exact hlookup f

theorem removeIfSeen_spec (seen : Finset (Fin n)) (ids : List (Fin n)) :
    (∀ v, v ∈ (removeIfSeen seen ids).1 ↔ v ∈ ids ∧ v ∉ seen) ∧
      ∀ v, v ∈ (removeIfSeen seen ids).2 ↔ v ∈ seen ∨ v ∈ ids := by
  induction ids generalizing seen with
  | nil => simp [removeIfSeen]
  | cons u ids ih =>
    unfold removeIfSeen
    split
    next hu =>
      refine ⟨fun v => ?_, fun v => ?_⟩
      · rw [(ih seen).1, List.mem_cons]
        constructor
        · exact fun h => ⟨.inr h.1, h.2⟩
        · exact fun h => ⟨h.1.resolve_left fun heq => h.2 (heq ▸ hu), h.2⟩
      · rw [(ih seen).2, List.mem_cons]
        constructor
        · exact Or.imp_right .inr
        · rintro (h | rfl | h)
          · exact .inl h
          · exact .inl hu
          · exact .inr h
    next hu =>
      refine ⟨fun v => ?_, fun v => ?_⟩
      · rw [List.mem_cons, (ih (insert u seen)).1, List.mem_cons, Finset.mem_insert]
        by_cases heq : v = u
        · subst heq
          simp [hu]
        · simp [heq]
      · rw [(ih (insert u seen)).2, List.mem_cons, Finset.mem_insert]
        tauto

theorem iterationMarking_nil (r : Reachability n F) : (iterationMarking p settings r []).2 = 0 := by
  have hnone : functionsToAnalyze p settings r [] = [] := by
    unfold functionsToAnalyze
    split <;> rfl
  unfold iterationMarking
  rw [hnone]
  rfl

/-- The least set of vertices with the starting ones that is closed under the edges and under what
the scans refer to. The referents of functions that were analysed before are not among these. -/
inductive MadeReachable (p : Partitioner n E F) (settings : ReachabilitySettings)
    (starts : Fin n → Prop) (known : F → Prop) : Fin n → Prop
  | start {v : Fin n} (h : starts v) : MadeReachable p settings starts known v
  | edge {v u : Fin n} (h : MadeReachable p settings starts known v) (he : p.cfg.Edge v u) :
      MadeReachable p settings starts known u
  | referent {v u : Fin n} (h : MadeReachable p settings starts known v)
      (hu : Referents p settings known v u) : MadeReachable p settings starts known u

omit [DecidableEq F] in
theorem MadeReachable.path {starts : Fin n → Prop} {known : F → Prop} {v u : Fin n}
    (h : MadeReachable p settings starts known v) (hu : Relation.ReflTransGen p.cfg.Edge v u) :
    MadeReachable p settings starts known u := by
  induction hu with
  | refl => exact h
  | tail _ he ih => exact .edge ih he

/-- What the marks so far are, between two scans. -/
structure Marks (p : Partitioner n E F) (settings : ReachabilitySettings) (starts : Fin n → Prop)
    (known : F → Prop) (r : Reachability n F) : Prop where
  kept : ∀ v, starts v → (r.intrinsicReachability v).isAnySet = true
  sound : ∀ v, (r.intrinsicReachability v).isAnySet = true →
    MadeReachable p settings starts known v
  scanned : ∀ v ∈ r.scannedVertexIds, MadeReachable p settings starts known v
  cached : ∀ f, known f → r.dfReferents.lookup f ≠ none
  referents : ∀ v ∈ r.scannedVertexIds, ∀ u, Referents p settings known v u →
    (r.intrinsicReachability u).isAnySet = true
  analyzed : ∀ f, r.dfReferents.lookup f ≠ none → known f ∨
    ∀ u ∈ p.findImplicitFunctionReferents f, (r.intrinsicReachability u).isAnySet = true

variable {starts : Fin n → Prop} {known : F → Prop}

theorem mem_scanned_scan {v : Fin n} : v ∈ (scan p settings r ids).1.1.scannedVertexIds ↔
    v ∈ r.scannedVertexIds ∨ v ∈ ids := by
  rw [← (removeIfSeen_spec r.scannedVertexIds ids).2 v]
  have hmarked := (iterationMarking_spec p settings (r.track ids)
    (removeIfSeen r.scannedVertexIds ids).1).1
  exact iff_of_eq (congrArg (v ∈ ·) hmarked.scanned)

theorem mem_unseen_scan {v : Fin n} :
    v ∈ (scan p settings r ids).2 ↔ v ∈ ids ∧ v ∉ r.scannedVertexIds :=
  (removeIfSeen_spec r.scannedVertexIds ids).1 v

theorem marked_scan (p : Partitioner n E F) (settings : ReachabilitySettings)
    (r : Reachability n F) (ids : List (Fin n)) :
    Marked (fun u => ∃ v ∈ (scan p settings r ids).2,
        Referents p settings (r.dfReferents.lookup · ≠ none) v u)
      (r.track ids, 0) (scan p settings r ids).1 :=
  (iterationMarking_spec p settings (r.track ids) (removeIfSeen r.scannedVertexIds ids).1).1

theorem Marks.scan (h : Marks p settings starts known r)
    (hids : ∀ v ∈ ids, MadeReachable p settings starts known v) :
    Marks p settings starts known (scan p settings r ids).1.1 := by
  have hmarked := marked_scan p settings r ids
  have hlookup : ∀ f, (Reachability.scan p settings r ids).1.1.dfReferents.lookup f =
      (r.dfReferents.lookup f).or (if f ∈ functionsToAnalyze p settings (r.track ids)
        (Reachability.scan p settings r ids).2 then
          some (p.findImplicitFunctionReferents f) else none) :=
    (iterationMarking_spec p settings (r.track ids) (removeIfSeen r.scannedVertexIds ids).1).2
  have hkeep : ∀ v, (r.intrinsicReachability v).isAnySet = true →
      ((Reachability.scan p settings r ids).1.1.intrinsicReachability v).isAnySet = true :=
    hmarked.kept
  constructor
  case kept => exact fun v hv => hkeep v (h.kept v hv)
  case sound =>
    intro u hu
    rcases hmarked.only u hu with hu | ⟨v, hv, hblock, href⟩
    · exact h.sound u hu
    · refine .referent (hids v (mem_unseen_scan.mp hv).1) ⟨hblock, href.imp_right ?_⟩
      rintro ⟨hset, f, hf, hnew, hu⟩
      exact ⟨hset, f, hf, fun hknown => hnew (h.cached f hknown), hu⟩
  case scanned =>
    intro v hv
    exact (mem_scanned_scan.mp hv).elim (h.scanned v) (hids v)
  case cached =>
    intro f hf
    rw [hlookup]
    simp [h.cached f hf]
  case referents =>
    intro v hv u hu
    by_cases hold : v ∈ r.scannedVertexIds
    · exact hkeep u (h.referents v hold u hu)
    · have hunseen : v ∈ (Reachability.scan p settings r ids).2 :=
        mem_unseen_scan.mpr ⟨(mem_scanned_scan.mp hv).resolve_left hold, hold⟩
      obtain ⟨hblock, hexplicit | ⟨hset, f, hf, hnew, hu⟩⟩ := hu
      · exact hmarked.marked u ⟨v, hunseen, hblock, .inl hexplicit⟩
      · by_cases hnone : r.dfReferents.lookup f = none
        · exact hmarked.marked u
            ⟨v, hunseen, hblock, .inr ⟨hset, f, hf, not_not.mpr hnone, hu⟩⟩
        · exact hkeep u ((h.analyzed f hnone).resolve_left hnew u hu)
  case analyzed =>
    intro f hf
    by_cases hnone : r.dfReferents.lookup f = none
    · rw [hlookup, hnone, Option.none_or] at hf
      split at hf
      next hmem =>
        obtain ⟨hset, _, v, hv, hblock, hown⟩ := mem_functionsToAnalyze.mp hmem
        refine .inr fun u hu => hmarked.marked u ⟨v, hv, hblock, .inr ⟨hset, f, hown, ?_, hu⟩⟩
        exact not_not.mpr hnone
      next => exact absurd rfl hf
    · exact (h.analyzed f hnone).imp_right fun hall u hu => hkeep u (hall u hu)

/-- What holds before a pass: all that is known to be reachable has been scanned. -/
structure PassInvariant (p : Partitioner n E F) (settings : ReachabilitySettings)
    (starts : Fin n → Prop) (known : F → Prop) (r : Reachability n F) (ids : List (Fin n)) :
    Prop where
  marks : Marks p settings starts known r
  reachable : ∀ v, (r.reachability v).isAnySet = true → v ∈ r.scannedVertexIds
  ids : ∀ v ∈ ids, v ∈ r.scannedVertexIds

theorem PassInvariant.pass (h : PassInvariant p settings starts known r ids) {fuel : Nat}
    {r' : Reachability n F} {ids' : List (Fin n)}
    (hpropagate : propagateImpl p.cfg fuel r ids = some (r', ids')) :
    PassInvariant p settings starts known (scan p settings r' ids').1.1
        (scan p settings r' ids').2 ∧
      ((scan p settings r' ids').1.2 = 0 → ∀ v,
        ((scan p settings r' ids').1.1.reachability v).isAnySet = true ↔
          MadeReachable p settings starts known v) := by
  obtain ⟨heq, hids', _⟩ := propagateImpl_spec hpropagate
  have hreach := propagateImpl_isAnySet hpropagate
  have hchanged : ∀ v, (r'.reachability v).isAnySet = true → v ∈ r.scannedVertexIds ∨ v ∈ ids' := by
    intro v hv
    by_cases hsame : r'.reachability v = r.reachability v
    · exact .inl (h.reachable v (hsame ▸ hv))
    · rw [hids']
      exact .inr (List.mem_append_right _ (by simpa using hsame))
  have hmade : ∀ v ∈ ids', MadeReachable p settings starts known v := by
    intro v hv
    rw [hids'] at hv
    rcases List.mem_append.mp hv with hv | hv
    · exact h.marks.scanned v (h.ids v hv)
    · by_cases hold : (r.reachability v).isAnySet = true
      · exact h.marks.scanned v (h.reachable v hold)
      · have hne : r'.reachability v ≠ r.reachability v := by simpa using hv
        rw [ReasonFlags.isAnySet_iff, not_not] at hold
        rw [hold, ← ReasonFlags.isAnySet_iff, hreach] at hne
        obtain ⟨u, hu, hset⟩ := hne
        exact (h.marks.sound u hset).path hu
  have hmarks : Marks p settings starts known r' := by
    rw [heq]
    exact ⟨h.marks.kept, h.marks.sound, h.marks.scanned, h.marks.cached, h.marks.referents,
      h.marks.analyzed⟩
  have hscanned : r'.scannedVertexIds = r.scannedVertexIds := by rw [heq]
  have hmarked := marked_scan p settings r' ids'
  have hnext := hmarks.scan hmade
  have hreachable : ∀ v, ((scan p settings r' ids').1.1.reachability v).isAnySet = true →
      v ∈ (scan p settings r' ids').1.1.scannedVertexIds := by
    intro v hv
    rw [hmarked.reachability] at hv
    rw [mem_scanned_scan, hscanned]
    exact hchanged v hv
  refine ⟨⟨hnext, hreachable, fun v hv => ?_⟩, fun hzero v => ?_⟩
  · exact mem_scanned_scan.mpr (.inr (mem_unseen_scan.mp hv).1)
  · have hsame : (scan p settings r' ids').1.1.intrinsicReachability = r.intrinsicReachability :=
      (hmarked.same hzero).trans (congrArg (fun r => r.intrinsicReachability) heq)
    have hset : ∀ v, ((scan p settings r' ids').1.1.reachability v).isAnySet = true ↔
        ∃ u, Relation.ReflTransGen p.cfg.Edge u v ∧
          ((scan p settings r' ids').1.1.intrinsicReachability u).isAnySet = true := by
      intro v
      rw [hmarked.reachability, hsame]
      exact hreach v
    constructor
    · intro hv
      obtain ⟨u, hu, hu'⟩ := (hset v).mp hv
      exact (hnext.sound u hu').path hu
    · intro hv
      induction hv with
      | start hv => exact (hset _).mpr ⟨_, .refl, hnext.kept _ hv⟩
      | edge _ he ih =>
        obtain ⟨u, hu, hu'⟩ := (hset _).mp ih
        exact (hset _).mpr ⟨u, hu.tail he, hu'⟩
      | referent _ hu ih =>
        exact (hset _).mpr ⟨_, .refl, hnext.referents _ (hreachable _ ih) _ hu⟩

/-- A scan that marks something scans a vertex for the first time. -/
theorem card_scanned_lt (h : (scan p settings r ids).1.2 ≠ 0) :
    r.scannedVertexIds.card < (scan p settings r ids).1.1.scannedVertexIds.card := by
  refine Finset.card_lt_card ⟨fun v hv => mem_scanned_scan.mpr (.inl hv), fun hsub => h ?_⟩
  have hnone : (scan p settings r ids).2 = [] := by
    rw [List.eq_nil_iff_forall_not_mem]
    intro v hv
    have hmem := mem_unseen_scan.mp hv
    exact hmem.2 (hsub (mem_scanned_scan.mpr (.inr hmem.1)))
  show (iterationMarking p settings (r.track ids) (scan p settings r ids).2).2 = 0
  rw [hnone]
  exact iterationMarking_nil _

theorem passes_exact {fuel : Nat} (h : PassInvariant p settings starts known r ids)
    (hfuel : n < r.scannedVertexIds.card + fuel) :
    ∃ engineFuel r', (∀ engineFuel' ≥ engineFuel, passes p settings engineFuel' fuel r ids =
        some r') ∧
      ∀ v, (r'.reachability v).isAnySet = true ↔ MadeReachable p settings starts known v := by
  induction fuel generalizing r ids with
  | zero =>
    have hcard := Finset.card_le_univ r.scannedVertexIds
    rw [Fintype.card_fin] at hcard
    omega
  | succ fuel ih =>
    obtain ⟨engineFuel, r₁, hall⟩ := propagateImpl_exists p.cfg r
    obtain ⟨ids₁, hpropagate⟩ := hall engineFuel le_rfl ids
    have hsame : ∀ engineFuel' ≥ engineFuel, propagateImpl p.cfg engineFuel' r ids =
        some (r₁, ids₁) := by
      intro engineFuel' hle
      obtain ⟨ids₂, hpropagate'⟩ := hall engineFuel' hle ids
      rw [hpropagate', (propagateImpl_spec hpropagate').2.1, (propagateImpl_spec hpropagate).2.1]
    obtain ⟨hnext, hexit⟩ := h.pass hpropagate
    by_cases hzero : (scan p settings r₁ ids₁).1.2 = 0
    · refine ⟨engineFuel, _, fun engineFuel' hle => ?_, hexit hzero⟩
      simp only [passes, hsame engineFuel' hle, if_pos hzero]
    · have hmore := card_scanned_lt hzero
      rw [show r₁.scannedVertexIds = r.scannedVertexIds from
        congrArg (fun r => r.scannedVertexIds) (propagateImpl_spec hpropagate).1] at hmore
      obtain ⟨restFuel, r', hrest, hexact⟩ := ih hnext (by omega)
      refine ⟨max engineFuel restFuel, r', fun engineFuel' hle => ?_, hexact⟩
      simp only [passes, hsame engineFuel' ((le_max_left ..).trans hle), if_neg hzero]
      exact hrest engineFuel' ((le_max_right ..).trans hle)

/-- The functions whose referents `iterate` finds in its cache, or caches before the first scan. -/
def CachedBefore (p : Partitioner n E F) (settings : ReachabilitySettings) (r : Reachability n F)
    (f : F) : Prop :=
  r.dfReferents.lookup f ≠ none ∨
    (settings.precomputeImplicitFunctionReferents = true ∧
      settings.markingImplicitFunctionReferents.isAnySet = true ∧ r.dfReferents = [] ∧
      f ∈ p.functions)

theorem cachedBefore_iff (p : Partitioner n E F) (settings : ReachabilitySettings)
    (r : Reachability n F) {f : F} :
    ((if settings.precomputeImplicitFunctionReferents &&
        settings.markingImplicitFunctionReferents.isAnySet && r.dfReferents.isEmpty then
      cacheImplicitFunctionReferents p r p.functions
    else r).dfReferents.lookup f ≠ none) ↔ CachedBefore p settings r f := by
  unfold CachedBefore
  split
  next h =>
    simp only [Bool.and_eq_true, List.isEmpty_iff] at h
    rw [lookup_cache, h.2]
    simp [h.1]
  next h =>
    simp only [Bool.and_eq_true, List.isEmpty_iff] at h
    constructor
    · exact .inl
    · rintro (hf | ⟨hpre, hset, hempty, _⟩)
      · exact hf
      · exact absurd ⟨⟨hpre, hset⟩, hempty⟩ h

omit [DecidableEq F] in
/-- `propagate` always returns, with every reason of every vertex from which a vertex is reached. -/
theorem propagate_exact (cfg : ControlFlow n E) (r : Reachability n F) (ids : List (Fin n)) :
    ∃ fuel r' ids', propagateImpl cfg fuel r ids = some (r', ids') ∧
      r'.intrinsicReachability = r.intrinsicReachability ∧
      (∀ v i, (r'.reachability v).bits i = true ↔
        ∃ u, Relation.ReflTransGen cfg.Edge u v ∧ (r.intrinsicReachability u).bits i = true) ∧
      ids' = ids ++ (List.finRange n).filter fun v => r'.reachability v ≠ r.reachability v := by
  obtain ⟨fuel, r', hall⟩ := propagateImpl_exists cfg r
  obtain ⟨ids', h⟩ := hall fuel le_rfl ids
  obtain ⟨heq, hids, hbits⟩ := propagateImpl_spec h
  exact ⟨fuel, r', ids', h, congrArg (fun r => r.intrinsicReachability) heq, hbits, hids⟩

/-- `iterate` makes reachable the least set with the starting vertices that is closed under the
edges and what the scans refer to, when it is the first to scan. -/
theorem iterate_exact (p : Partitioner n E F) (settings : ReachabilitySettings)
    (r : Reachability n F) (hscanned : r.scannedVertexIds = ∅)
    (hreachable : ∀ v, (r.reachability v).isAnySet = true → MadeReachable p settings
      (fun v => (r.intrinsicReachability v).isAnySet = true) (CachedBefore p settings r) v) :
    ∃ engineFuel r', iterate p settings engineFuel (n + 1) r = some r' ∧
      ∀ v, (r'.reachability v).isAnySet = true ↔ MadeReachable p settings
        (fun v => (r.intrinsicReachability v).isAnySet = true) (CachedBefore p settings r) v := by
  have hcached := fun f => @cachedBefore_iff n E F _ p settings r f
  unfold iterate
  generalize hr₀ : (if settings.precomputeImplicitFunctionReferents &&
      settings.markingImplicitFunctionReferents.isAnySet && r.dfReferents.isEmpty then
    cacheImplicitFunctionReferents p r p.functions else r) = r₀ at hcached ⊢
  have hsame : r₀.intrinsicReachability = r.intrinsicReachability ∧
      r₀.reachability = r.reachability ∧ r₀.scannedVertexIds = r.scannedVertexIds := by
    rw [← hr₀]
    split <;> exact ⟨rfl, rfl, rfl⟩
  have hmarks : Marks p settings (fun v => (r.intrinsicReachability v).isAnySet = true)
      (CachedBefore p settings r) r₀ := by
    constructor
    case kept => exact fun v hv => hsame.1 ▸ hv
    case sound => exact fun v hv => .start (hsame.1 ▸ hv)
    case scanned => simp [hsame.2.2, hscanned]
    case cached => exact fun f hf => (hcached f).mpr hf
    case referents => simp [hsame.2.2, hscanned]
    case analyzed => exact fun f hf => .inl ((hcached f).mp hf)
  have hids : ∀ v, v ∈ r₀.reachableVertices ↔ (r.reachability v).isAnySet = true := by
    intro v
    simp [reachableVertices, hsame.2.1, hasReasons, ReasonFlags.empty, ReasonFlags.isAnySet]
  have hscan := hmarks.scan fun v hv => hreachable v ((hids v).mp hv)
  have hmarked := marked_scan p settings r₀ r₀.reachableVertices
  have hpass : PassInvariant p settings (fun v => (r.intrinsicReachability v).isAnySet = true)
      (CachedBefore p settings r) (scan p settings r₀ r₀.reachableVertices).1.1
      (scan p settings r₀ r₀.reachableVertices).2 := by
    refine ⟨hscan, fun v hv => ?_, fun v hv => ?_⟩
    · rw [hmarked.reachability] at hv
      exact mem_scanned_scan.mpr (.inr ((hids v).mpr (hsame.2.1 ▸ hv)))
    · exact mem_scanned_scan.mpr (.inr (mem_unseen_scan.mp hv).1)
  obtain ⟨engineFuel, r', hrun, hexact⟩ := passes_exact hpass (by omega : n < _ + (n + 1))
  exact ⟨engineFuel, r', hrun engineFuel le_rfl, hexact⟩

end

/-- Four basic blocks: an edge from the first to the second, whose instructions hold a constant
that is the address of the third, and a function with the third, whose data flow comes to the
address of the fourth. -/
def fourBlocks : Partitioner 4 Unit Unit where
  cfg := ⟨fun v => if v.val = 0 then [()] else [], fun _ => Fin.ofNat 4 1⟩
  isBasicBlock := fun _ => true
  findExplicitInstructionReferents := fun v => if v.val = 1 then [Fin.ofNat 4 2] else []
  functionsOwningBasicBlock := fun v => if v.val = 2 then [()] else []
  functions := [()]
  findImplicitFunctionReferents := fun _ => [Fin.ofNat 4 3]

def onDemandSettings : ReachabilitySettings := ⟨⟨0x200⟩, ⟨0x400⟩, false⟩

def entryPoint : Reachability 4 Unit :=
  ⟨fun v => if v.val = 0 then ⟨1⟩ else .empty, fun _ => .empty, [], ∅⟩

theorem fourBlocks_iterate : ∃ engineFuel r',
    iterate fourBlocks onDemandSettings engineFuel 5 entryPoint = some r' ∧
      (r'.reachability 3).isAnySet = true := by
  obtain ⟨engineFuel, r', hrun, hexact⟩ := iterate_exact fourBlocks onDemandSettings entryPoint rfl
    (fun v hv => by simp [entryPoint, ReasonFlags.isAnySet, ReasonFlags.empty] at hv)
  refine ⟨engineFuel, r', hrun, (hexact 3).mpr ?_⟩
  have hstart : (entryPoint.intrinsicReachability 0).isAnySet = true := by decide
  have hnew : ¬CachedBefore fourBlocks onDemandSettings entryPoint () := by
    rintro (h | ⟨h, -⟩)
    · exact h rfl
    · exact absurd h (by decide)
  have hblock : MadeReachable fourBlocks onDemandSettings
      (fun v => (entryPoint.intrinsicReachability v).isAnySet = true)
      (CachedBefore fourBlocks onDemandSettings entryPoint) 2 :=
    .referent (v := 1) (.edge (v := 0) (.start hstart) ⟨(), by decide, rfl⟩)
      ⟨rfl, .inl (by decide)⟩
  exact .referent hblock ⟨rfl, .inr ⟨by decide, (), by decide, hnew, by decide⟩⟩

end Reachability

end LoomX
