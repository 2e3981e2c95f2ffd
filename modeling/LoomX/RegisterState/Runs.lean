import LoomX.RegisterState.StoreRefinement

namespace LoomX.RegisterState

/-- An access of a register, with the settings at its time. -/
inductive Request (S : Type) where
  | read (settings : Settings) (reg : RegisterDescriptor) (dflt : S)
  | peek (reg : RegisterDescriptor) (dflt : S)
  | write (settings : Settings) (reg : RegisterDescriptor) (value : S)
  | erase (reg : RegisterDescriptor)

inductive Answer (S : Type) where
  | value (v : S)
  | done
  | notPresent (e : RegisterNotPresent)

variable {S β : Type} (V : SemanticValues S β)

def Request.reg : Request S → RegisterDescriptor
  | .read _ reg _ => reg
  | .peek reg _ => reg
  | .write _ reg _ => reg
  | .erase reg => reg

def Request.value? : Request S → Option S
  | .read _ _ dflt => some dflt
  | .peek _ dflt => some dflt
  | .write _ _ value => some value
  | .erase _ => none

/-- What the operations assert of their arguments. -/
def Request.Valid (r : Request S) : Prop :=
  0 < r.reg.nBits ∧ ∀ v ∈ r.value?, V.nBits v = r.reg.nBits

def State.empty (lookup : RegisterDescriptor → String) : State S := ⟨fun _ => none, lookup⟩

def State.step (s : State S) : Request S → Answer S × State S
  | .read settings reg dflt =>
    let (v, s) := readRegister V settings s reg dflt
    (.value v, s)
  | .peek reg dflt =>
    let (v, s) := peekRegister V s reg dflt
    (.value v, s)
  | .write settings reg value =>
    match writeRegister V settings s reg value with
    | (.ok (), s) => (.done, s)
    | (.error e, s) => (.notPresent e, s)
  | .erase reg => (.done, eraseRegister V s reg)

def State.run (s : State S) (requests : List (Request S)) : State S :=
  requests.foldl (fun s r => (s.step V r).2) s

/-- The locations stored for a pair of register numbers. -/
def State.pairs (s : State S) (key : Nat × Nat) : RegPairs S := (s.registers key).getD []

open Classical in
/-- What an access does to the bits of its register. -/
noncomputable def Store.step (store : Store β) : Request S → Store β
  | .read settings reg dflt => store.read V settings reg dflt
  | .peek _ _ => store
  | .write settings reg value =>
    if settings.accessCreatesLocations = true ∨ store.Present reg then
      store.set reg fun k => some (V.bit value (k - reg.offset))
    else store
  | .erase reg => store.set reg fun _ => none

/-- The bits last written, or fixed by a read, and not erased since. -/
noncomputable def stored (requests : List (Request S)) : Store β :=
  requests.foldl (Store.step V) fun _ _ => none

variable {V} {s : State S} {store : Store β} {r : Request S}

theorem step_represents (h : RepresentsState V s store) (hr : r.Valid V) :
    RepresentsState V (s.step V r).2 (store.step V r) := by
  obtain ⟨hreg, hvalue⟩ := hr
  cases r with
  | read settings reg dflt => exact (readRegister_spec h settings hreg (hvalue dflt rfl)).1
  | peek reg dflt =>
    simp only [Request.reg] at hreg hvalue
    change RepresentsState V (peekRegister V s reg dflt).2 store
    rw [(peekRegister_spec h hreg (hvalue dflt rfl)).1]
    exact h
  | write settings reg value =>
    simp only [Request.reg] at hreg hvalue
    rcases writeRegister_spec h settings hreg (hvalue value rfl) with
      ⟨hcreate, hmissing, heq⟩ | ⟨hallowed, hok, hrep⟩
    · rw [State.step, heq, Store.step, if_neg (by simp [hcreate, hmissing])]
      exact h
    · rw [State.step, Store.step, if_pos hallowed]
      generalize writeRegister V settings s reg value = result at hok hrep
      obtain ⟨outcome, s'⟩ := result
      cases hok
      exact hrep
  | erase reg => exact eraseRegister_spec h reg

theorem run_represents (h : RepresentsState V s store) {requests : List (Request S)}
    (hvalid : ∀ r ∈ requests, r.Valid V) :
    RepresentsState V (s.run V requests) (requests.foldl (Store.step V) store) := by
  induction requests generalizing s store with
  | nil => exact h
  | cons r requests ih =>
    exact ih (step_represents h (hvalid r (by simp))) fun q hq => hvalid q (by simp [hq])

theorem empty_represents (lookup : RegisterDescriptor → String) :
    RepresentsState V (State.empty lookup) fun _ _ => none :=
  fun _ => ⟨by simp [State.empty], fun _ => .refl _⟩

theorem store_step_outside (store : Store β) (r : Request S) {key : Nat × Nat} {k : Nat}
    (hout : ¬(key = r.reg.store ∧ k ∈ r.reg.location)) :
    store.step V r key k = store key k := by
  have hset : ∀ f : Nat → Option β, store.set r.reg f key k = store key k := by
    intro f
    by_cases hkey : key = r.reg.store
    · subst hkey
      rw [Store.set, Function.update_self, if_neg fun hk => hout ⟨rfl, hk⟩]
    · rw [Store.set, Function.update_of_ne hkey]
  cases r with
  | read settings reg dflt =>
    rw [Store.step, Store.read]
    split
    · exact hset _
    · rfl
  | peek reg dflt => rfl
  | write settings reg value =>
    rw [Store.step]
    split
    · exact hset _
    · rfl
  | erase reg => exact hset _

/-- The locations stored for one pair of numbers never overlap, and hold the bits last written. -/
structure Invariant (V : SemanticValues S β) (requests : List (Request S)) (s : State S) : Prop where
  disjoint : ∀ key, (s.pairs key).Pairwise fun p q => ∀ k, ¬(k ∈ p.location ∧ k ∈ q.location)
  bits : ∀ key k, bitsAt V (s.pairs key) k = (stored V requests key k).toList

/-- What an access returns and does to the state. -/
structure StepSound (V : SemanticValues S β) (requests : List (Request S)) (s : State S)
    (r : Request S) : Prop where
  returned : ∀ v, (s.step V r).1 = .value v → V.nBits v = r.reg.nBits ∧ ∀ i, i < r.reg.nBits →
    ∀ dflt ∈ r.value?, V.bit v i =
      (stored V requests r.reg.store (r.reg.offset + i)).getD (V.bit dflt i)
  outside : ∀ key k, ¬(key = r.reg.store ∧ k ∈ r.reg.location) →
    bitsAt V ((s.step V r).2.pairs key) k = bitsAt V (s.pairs key) k
  peek : ∀ reg dflt, r = .peek reg dflt → (s.step V r).2 = s
  notPresent : ∀ e, (s.step V r).1 = .notPresent e → (s.step V r).2 = s

theorem step_sound {requests : List (Request S)} (h : RepresentsState V s (stored V requests))
    (hr : r.Valid V) : StepSound V requests s r := by
  have hnext := step_represents h hr
  obtain ⟨hreg, hvalue⟩ := hr
  refine ⟨?_, fun key k hout => ?_, ?_, ?_⟩
  · intro v hv
    cases r with
    | read settings reg dflt =>
      cases hv
      obtain ⟨-, hwidth, hbit⟩ := readRegister_spec h settings hreg (hvalue dflt rfl)
      refine ⟨hwidth, fun i hi d hd => ?_⟩
      cases hd
      exact hbit i hi
    | peek reg dflt =>
      cases hv
      obtain ⟨-, hwidth, hbit⟩ := peekRegister_spec h hreg (hvalue dflt rfl)
      refine ⟨hwidth, fun i hi d hd => ?_⟩
      cases hd
      exact hbit i hi
    | write settings reg value =>
      rw [State.step] at hv
      split at hv <;> cases hv
    | erase reg => cases hv
  · have hafter := (hnext key).bitsAt_eq k
    have hbefore := (h key).bitsAt_eq k
    rw [store_step_outside _ _ hout] at hafter
    exact hafter.trans hbefore.symm
  · rintro reg dflt rfl
    exact (peekRegister_spec h hreg (hvalue dflt rfl)).1
  · intro e he
    cases r with
    | read settings reg dflt => cases he
    | peek reg dflt => cases he
    | write settings reg value =>
      simp only [Request.reg] at hreg hvalue
      rcases writeRegister_spec h settings hreg (hvalue value rfl) with
        ⟨-, -, heq⟩ | ⟨-, hok, -⟩
      · rw [State.step, heq]
      · rw [State.step] at he
        split at he
        next => cases he
        next hresult =>
          rw [hresult] at hok
          cases hok
    | erase reg => cases he

/-- After any valid accesses the state is a store of bits, and another access is one of it. -/
theorem run_sound (lookup : RegisterDescriptor → String) {requests : List (Request S)}
    (hvalid : ∀ r ∈ requests, r.Valid V) :
    Invariant V requests ((State.empty lookup).run V requests) ∧
      ∀ r : Request S, r.Valid V →
        StepSound V requests ((State.empty lookup).run V requests) r := by
  have hrun : RepresentsState V ((State.empty lookup).run V requests) (stored V requests) :=
    run_represents (empty_represents lookup) hvalid
  exact ⟨⟨fun key => (hrun key).pairwise, fun key k => (hrun key).bitsAt_eq k⟩,
    fun r hr => step_sound hrun hr⟩

/-- Values as lists of bits from the least significant one, with a comment. -/
def bitLists : SemanticValues (List Bool × String) Bool where
  nBits v := v.1.length
  bit v i := v.1.getD i false
  comment v := v.2
  setComment v c := (v.1, c)
  copy v := v
  extract v b e := ((v.1.drop b).take (e - b), "")
  concat v w := (v.1 ++ w.1, "")
  unsignedExtend v n := ((v.1 ++ List.replicate n false).take n, "")
  nBits_setComment _ _ := rfl
  bit_setComment _ _ := rfl
  nBits_copy _ := rfl
  bit_copy _ := rfl
  nBits_extract v b e hb he := by
    rw [List.length_take, List.length_drop]
    omega
  bit_extract v b e i he hi := by
    simp only [List.getD_eq_getElem?_getD, List.getElem?_take_of_lt hi, List.getElem?_drop]
  nBits_concat v w := List.length_append
  bit_concat v w i hi := by
    simp only [List.getD_eq_getElem?_getD, List.getElem?_append]
    split <;> rfl
  nBits_unsignedExtend v n := by
    rw [List.length_take, List.length_append, List.length_replicate]
    omega
  bit_unsignedExtend v n i hn hi := by
    simp only [List.getD_eq_getElem?_getD, List.getElem?_take_of_lt hi,
      List.getElem?_append_left (hi.trans_le hn)]

def lowBits : RegisterDescriptor := ⟨0, 1, 0, 3⟩

def highBits : RegisterDescriptor := ⟨0, 1, 2, 3⟩

/-- A write, and a read over its last bit and two that are not stored. -/
def overlapping : List (Request (List Bool × String)) :=
  [.write ⟨true, true⟩ lowBits ([true, false, true], ""),
    .read ⟨false, true⟩ highBits ([false, false, false], "")]

theorem run_sound_overlapping :
    Invariant bitLists overlapping ((State.empty fun _ => "").run bitLists overlapping) ∧
      StepSound bitLists overlapping ((State.empty fun _ => "").run bitLists overlapping)
        (.write ⟨false, false⟩ highBits ([true, true, true], "")) := by
  have hsound := run_sound (V := bitLists) (fun _ => "") (show ∀ r ∈ overlapping, r.Valid bitLists by
    simp [overlapping, Request.Valid, Request.reg, Request.value?, lowBits, highBits, bitLists])
  refine ⟨hsound.1, hsound.2 _ ?_⟩
  simp [Request.Valid, Request.reg, Request.value?, highBits, bitLists]

end LoomX.RegisterState
