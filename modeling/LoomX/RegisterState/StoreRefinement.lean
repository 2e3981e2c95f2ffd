import LoomX.RegisterState.Access

namespace LoomX.RegisterState

variable {S β : Type} {V : SemanticValues S β}

/-- Bits addressed by the register numbers and a bit number. -/
abbrev Store (β : Type) := Nat × Nat → Nat → Option β

/-- The bits of a register are replaced and no others. -/
def Store.set (store : Store β) (reg : RegisterDescriptor) (f : Nat → Option β) : Store β :=
  Function.update store reg.store fun k => if k ∈ reg.location then f k else store reg.store k

/-- Locations hold each bit at most once, and just the given bits. -/
structure Represents (V : SemanticValues S β) (pairs : RegPairs S) (bits : Nat → Option β) : Prop where
  wellFormed : ∀ p ∈ pairs, p.WellFormed V
  bitsAt_perm : ∀ k, (bitsAt V pairs k).Perm (bits k).toList

def RepresentsState (V : SemanticValues S β) (s : State S) (store : Store β) : Prop :=
  ∀ key, Represents V ((s.registers key).getD []) (store key)

section

variable {pairs pairs' : RegPairs S} {bits : Nat → Option β} {reg : RegisterDescriptor} {s : State S}
  {store : Store β}

theorem Represents.bitsAt_eq (h : Represents V pairs bits) (k : Nat) :
    bitsAt V pairs k = (bits k).toList := by
  have hperm := h.bitsAt_perm k
  cases hk : bits k with
  | none =>
    rw [hk] at hperm
    exact List.perm_nil.mp hperm
  | some b =>
    rw [hk] at hperm
    exact List.perm_singleton.mp hperm

theorem Represents.pairwise (h : Represents V pairs bits) :
    pairs.Pairwise fun p q => ∀ k, ¬(k ∈ p.location ∧ k ∈ q.location) := by
  have hlength : ∀ k, (bitsAt V pairs k).length ≤ 1 := by
    intro k
    rw [h.bitsAt_eq]
    cases bits k <;> simp
  clear h
  induction pairs with
  | nil => exact .nil
  | cons p pairs ih =>
    refine List.pairwise_cons.mpr ⟨fun q hq k hk => ?_, ih fun k => ?_⟩
    · have hcount := hlength k
      have hmem : V.bit q.value (k - q.desc.offset) ∈ bitsAt V pairs k :=
        List.mem_filterMap.mpr ⟨q, hq, if_pos hk.2⟩
      have hpos := List.length_pos_of_mem hmem
      rw [bitsAt_cons, RegPair.bitAt, if_pos hk.1, Option.toList_some, List.length_append,
        List.length_singleton] at hcount
      omega
    · have hcount := hlength k
      rw [bitsAt_cons, List.length_append] at hcount
      omega

theorem representsState_set (h : RepresentsState V s store) {f : Nat → Option β}
    (hpairs : Represents V pairs fun k => if k ∈ reg.location then f k else store reg.store k) :
    RepresentsState V (s.set reg pairs) (store.set reg f) := by
  intro key
  by_cases hkey : key = reg.store
  · subst hkey
    simp only [State.set, Store.set, Function.update_self, Option.getD_some]
    exact hpairs
  · simp only [State.set, Store.set, Function.update_of_ne hkey]
    exact h key

theorem representsState_set_same (h : RepresentsState V s store)
    (hpairs : Represents V pairs (store reg.store)) : RepresentsState V (s.set reg pairs) store := by
  intro key
  by_cases hkey : key = reg.store
  · subst hkey
    simp only [State.set, Function.update_self, Option.getD_some]
    exact hpairs
  · simp only [State.set, Function.update_of_ne hkey]
    exact h key

theorem bitsAt_register (value : S) (k : Nat) :
    bitsAt V [⟨reg, value⟩] k = if k ∈ reg.location then [V.bit value (k - reg.offset)] else [] := by
  rw [bitsAt_singleton, RegPair.bitAt, RegPair.location]
  split <;> rfl

/-- The value read from a register. -/
theorem Represents.read (h : Represents V pairs bits) (hreg : 0 < reg.nBits) {dflt : S}
    (hdflt : V.nBits dflt = reg.nBits) {retval : S}
    (hretval : retval = concatParts V dflt ((scanAccessedLocations V reg pairs).1 ++
      newParts V reg dflt (scanAccessedLocations V reg pairs).1)) :
    V.nBits retval = reg.nBits ∧ ∀ i, i < reg.nBits →
      V.bit retval i = (bits (reg.offset + i)).getD (V.bit dflt i) := by
  have hwf := (wellFormed_scan h.wellFormed reg).1
  obtain ⟨hwf', hnew⟩ := newParts_spec hwf hreg hdflt
  have hbits : ∀ k, bitsAt V ((scanAccessedLocations V reg pairs).1 ++
      newParts V reg dflt (scanAccessedLocations V reg pairs).1) k =
      if k ∈ reg.location then [(bits k).getD (V.bit dflt (k - reg.offset))] else [] := by
    intro k
    rw [bitsAt_append, hnew, bitsAt_accessed h.wellFormed, h.bitsAt_eq]
    by_cases hk : k ∈ reg.location
    · cases bits k <;> simp [hk]
    · simp [hk]
  obtain ⟨hwidth, hbit⟩ := concatParts_spec dflt
    (fun q hq => (List.mem_append.mp hq).elim (hwf q) (hwf' q)) hreg hbits
  rw [hretval]
  refine ⟨hwidth, fun i hi => ?_⟩
  rw [hbit i hi, Nat.add_sub_cancel_left]

/-- Kept locations with others for the register's bits. -/
theorem Represents.replace (h : Represents V pairs bits) (reg : RegisterDescriptor) {new : RegPairs S} {f : Nat → Option β}
    (hwf : ∀ p ∈ new, p.WellFormed V)
    (hnew : ∀ k, (bitsAt V new k).Perm (if k ∈ reg.location then (f k).toList else [])) :
    Represents V (clearOverlappingLocations reg pairs ++ (scanAccessedLocations V reg pairs).2 ++ new)
      fun k => if k ∈ reg.location then f k else bits k where
  wellFormed p hp := by
    rcases List.mem_append.mp hp with hp | hp
    · rcases List.mem_append.mp hp with hp | hp
      · exact wellFormed_clear h.wellFormed reg p hp
      · exact (wellFormed_scan h.wellFormed reg).2 p hp
    · exact hwf p hp
  bitsAt_perm k := by
    have hkept := bitsAt_kept h.wellFormed reg k
    have hk := hnew k
    rw [bitsAt_append]
    by_cases hin : k ∈ reg.location
    · rw [if_pos hin] at hkept hk ⊢
      rw [List.perm_nil.mp hkept]
      exact hk
    · rw [if_neg hin] at hkept hk ⊢
      rw [List.perm_nil.mp hk, List.append_nil]
      exact hkept.trans (h.bitsAt_perm k)

/-- Locations with new ones for those of the register's bits that they lack. -/
theorem Represents.fill (h : Represents V pairs bits) {new : RegPairs S} {f : Nat → Option β}
    (hwf : ∀ p ∈ new, p.WellFormed V)
    (hnew : ∀ k, ((bits k).toList ++ bitsAt V new k).Perm
      (if k ∈ reg.location then f k else bits k).toList) :
    Represents V (pairs ++ new) fun k => if k ∈ reg.location then f k else bits k where
  wellFormed p hp := (List.mem_append.mp hp).elim (h.wellFormed p) (hwf p)
  bitsAt_perm k := by
    rw [bitsAt_append, h.bitsAt_eq]
    exact hnew k

/-- Overwriting keeps every bit outside the register, and replaces each one in it. -/
theorem bitsAt_overwrite (hwf : ∀ p ∈ pairs, p.WellFormed V) {value : S}
    (hvalue : V.nBits value = reg.nBits) (k : Nat) :
    bitsAt V (pairs.map (overwriteLocation V reg value)) k = if k ∈ reg.location then
      (bitsAt V pairs k).map fun _ => V.bit value (k - reg.offset) else bitsAt V pairs k := by
  induction pairs with
  | nil => simp
  | cons p pairs ih =>
    have hp := (overwriteLocation_spec (hwf p (by simp)) hvalue).2 k
    rw [List.map_cons, bitsAt_cons, ih fun q hq => hwf q (by simp [hq]), hp, bitsAt_cons]
    split
    next =>
      cases p.bitAt V k <;> rfl
    next => rfl

theorem represents_register {value : S} (hreg : 0 < reg.nBits) (hvalue : V.nBits value = reg.nBits)
    (hnone : ∀ k, bits k = none) : Represents V [⟨reg, value⟩] fun k =>
      if k ∈ reg.location then some (V.bit value (k - reg.offset)) else bits k := by
  refine ⟨fun p hp => ?_, fun k => ?_⟩
  · rw [List.mem_singleton.mp hp]
    exact ⟨hreg, hvalue⟩
  · rw [bitsAt_register, hnone]
    split <;> exact .refl _

theorem represents_none (h : Represents V [] bits) (k : Nat) : bits k = none := by
  have hk := h.bitsAt_eq k
  cases hbits : bits k with
  | none => rfl
  | some b => simp [hbits] at hk

theorem nBits_namedDefault (s : State S) (reg : RegisterDescriptor) (dflt : S) :
    V.nBits (namedDefault V s reg dflt) = V.nBits dflt := by
  simp only [namedDefault]
  split
  · rw [V.nBits_setComment, V.nBits_copy]
  · exact V.nBits_copy dflt

theorem bit_namedDefault (s : State S) (reg : RegisterDescriptor) (dflt : S) :
    V.bit (namedDefault V s reg dflt) = V.bit dflt := by
  simp only [namedDefault]
  split
  · rw [V.bit_setComment, V.bit_copy]
  · exact V.bit_copy dflt

/-- A read fixes the default where nothing was stored, when locations are created. -/
def Store.read (V : SemanticValues S β) (store : Store β) (settings : Settings)
    (reg : RegisterDescriptor) (dflt : S) : Store β :=
  if settings.accessCreatesLocations then
    store.set reg fun k => some ((store reg.store k).getD (V.bit dflt (k - reg.offset)))
  else store

theorem readRegister_spec (h : RepresentsState V s store) (settings : Settings)
    (hreg : 0 < reg.nBits) {dflt : S} (hdflt : V.nBits dflt = reg.nBits) :
    RepresentsState V (readRegister V settings s reg dflt).2 (store.read V settings reg dflt) ∧
      V.nBits (readRegister V settings s reg dflt).1 = reg.nBits ∧ ∀ i, i < reg.nBits →
        V.bit (readRegister V settings s reg dflt).1 i =
          (store reg.store (reg.offset + i)).getD (V.bit dflt i) := by
  have hkey := h reg.store
  rw [Store.read]
  cases hpairs : s.registers reg.store with
  | none =>
    rw [hpairs] at hkey
    have hnone := represents_none hkey
    simp only [readRegister, hpairs]
    by_cases hcreate : settings.accessCreatesLocations = true
    · simp only [hcreate, Bool.not_true, Bool.false_eq_true, if_false, if_true]
      have hwidth := (nBits_namedDefault (V := V) s reg dflt).trans hdflt
      refine ⟨representsState_set h ?_, hwidth, fun i _ => ?_⟩
      · have hrep := represents_register hreg hwidth hnone
        simp only [bit_namedDefault] at hrep
        simp only [hnone, Option.getD_none] at hrep ⊢
        exact hrep
      · rw [hnone, bit_namedDefault]
        rfl
    · simp only [hcreate, Bool.not_false, if_true, Bool.false_eq_true, if_false]
      refine ⟨h, hdflt, fun i _ => ?_⟩
      rw [hnone]
      rfl
  | some pairs =>
    rw [hpairs, Option.getD_some] at hkey
    obtain ⟨hwf, -⟩ := wellFormed_scan hkey.wellFormed reg
    obtain ⟨hwf', hnew⟩ := newParts_spec hwf hreg hdflt
    obtain ⟨hwidth, hbit⟩ := hkey.read hreg hdflt rfl
    simp only [readRegister, hpairs]
    by_cases hmodify : settings.accessModifiesExistingLocations = true
    · by_cases hcreate : settings.accessCreatesLocations = true
      · simp only [hmodify, hcreate, if_true]
        refine ⟨representsState_set h (hkey.replace reg (fun p hp => ?_) fun k => ?_), hwidth, hbit⟩
        · rw [List.mem_singleton.mp hp]
          exact ⟨hreg, hwidth⟩
        · rw [bitsAt_register]
          split
          next hk =>
            rw [RegisterDescriptor.location, Interval.mem_baseSize] at hk
            rw [hbit _ (by omega), Nat.add_sub_cancel' hk.1]
            exact .refl _
          next => exact .refl _
      · simp only [hmodify, hcreate, if_true, Bool.false_eq_true, if_false]
        have hperm := sortByOffset_perm (scanAccessedLocations V reg pairs).1
        obtain ⟨hall, hsame⟩ := combineContiguous_spec fun q hq => hwf q (hperm.mem_iff.mp hq)
        have hback := hkey.replace reg (f := store reg.store) hall fun k => by
          rw [hsame]
          refine (bitsAt_perm hperm).trans ?_
          rw [bitsAt_accessed hkey.wellFormed, hkey.bitsAt_eq]
        simp only [ite_self] at hback
        exact ⟨representsState_set_same h hback, hwidth, hbit⟩
    · by_cases hcreate : settings.accessCreatesLocations = true
      · simp only [hmodify, hcreate, if_true, Bool.false_eq_true, if_false]
        refine ⟨representsState_set h (hkey.fill hwf' fun k => ?_), hwidth, hbit⟩
        rw [hnew, bitsAt_accessed hkey.wellFormed, hkey.bitsAt_eq]
        by_cases hk : k ∈ reg.location
        · cases store reg.store k <;> simp [hk]
        · simp [hk]
      · simp only [hmodify, hcreate, Bool.false_eq_true, if_false]
        exact ⟨representsState_set_same h hkey, hwidth, hbit⟩

theorem peekRegister_spec (h : RepresentsState V s store) (hreg : 0 < reg.nBits) {dflt : S}
    (hdflt : V.nBits dflt = reg.nBits) :
    (peekRegister V s reg dflt).2 = s ∧ V.nBits (peekRegister V s reg dflt).1 = reg.nBits ∧
      ∀ i, i < reg.nBits → V.bit (peekRegister V s reg dflt).1 i =
        (store reg.store (reg.offset + i)).getD (V.bit dflt i) := by
  have hkey := h reg.store
  cases hpairs : s.registers reg.store with
  | none =>
    rw [hpairs] at hkey
    simp only [peekRegister, hpairs]
    refine ⟨trivial, hdflt, fun i _ => ?_⟩
    rw [represents_none hkey]
    rfl
  | some pairs =>
    rw [hpairs, Option.getD_some] at hkey
    simp only [peekRegister, hpairs]
    exact ⟨trivial, hkey.read hreg hdflt rfl⟩

/-- A register whose bits are all stored. -/
def Store.Present (store : Store β) (reg : RegisterDescriptor) : Prop :=
  ∀ k ∈ reg.location, store reg.store k ≠ none

/-- Fewer bits are found than the register has just where one is missing. -/
theorem Represents.nBitsFound_lt (h : Represents V pairs (store reg.store)) :
    (pairs.map fun regpair => (regpair.location.intersection reg.location).size).sum <
      reg.location.size ↔ ¬store.Present reg := by
  have hone : ∀ k, (bitsAt V pairs k).length = if store reg.store k = none then 0 else 1 := by
    intro k
    rw [h.bitsAt_eq]
    cases store reg.store k <;> rfl
  have hsize : reg.location.size = ∑ _k ∈ Finset.Ico reg.offset (reg.offset + reg.nBits), 1 := by
    rw [Finset.sum_const, Nat.card_Ico, RegisterDescriptor.location, Interval.baseSize]
    split
    next hzero => simp [Interval.size, hzero]
    next =>
      simp only [Interval.size, smul_eq_mul]
      omega
  rw [nBitsFound_eq h.wellFormed, hsize]
  constructor
  · intro hlt hall
    refine hlt.ne (Finset.sum_congr rfl fun k hk => ?_)
    rw [hone, if_neg]
    exact hall k (Interval.mem_baseSize.mpr (Finset.mem_Ico.mp hk))
  · intro hmissing
    obtain ⟨k, hk, hnone⟩ : ∃ k ∈ reg.location, store reg.store k = none := by
      simpa [Store.Present] using hmissing
    refine Finset.sum_lt_sum (fun k _ => ?_)
      ⟨k, Finset.mem_Ico.mpr (Interval.mem_baseSize.mp hk), ?_⟩
    · rw [hone]
      split <;> omega
    · rw [hone, if_pos hnone]
      omega

/-- A write is refused where a bit is missing that it may not create. -/
theorem writeRegister_spec (h : RepresentsState V s store) (settings : Settings)
    (hreg : 0 < reg.nBits) {value : S} (hvalue : V.nBits value = reg.nBits) :
    (settings.accessCreatesLocations = false ∧ ¬store.Present reg ∧
        writeRegister V settings s reg value = (.error ⟨reg⟩, s)) ∨
      (settings.accessCreatesLocations = true ∨ store.Present reg) ∧
        (writeRegister V settings s reg value).1 = .ok () ∧
        RepresentsState V (writeRegister V settings s reg value).2
          (store.set reg fun k => some (V.bit value (k - reg.offset))) := by
  have hkey := h reg.store
  cases hpairs : s.registers reg.store with
  | none =>
    rw [hpairs] at hkey
    have hnone := represents_none hkey
    simp only [writeRegister, hpairs]
    by_cases hcreate : settings.accessCreatesLocations = true
    · simp only [hcreate, Bool.not_true, Bool.false_eq_true, if_false]
      exact .inr ⟨.inl trivial, trivial,
        representsState_set h (represents_register hreg hvalue hnone)⟩
    · have hmissing : ¬store.Present reg := fun hall =>
        hall reg.offset (Interval.mem_baseSize.mpr ⟨le_rfl, by omega⟩) (hnone _)
      simp [hcreate, hmissing]
  | some pairs =>
    rw [hpairs, Option.getD_some] at hkey
    have hfound := hkey.nBitsFound_lt
    obtain ⟨hwf, -⟩ := wellFormed_scan hkey.wellFormed reg
    obtain ⟨hwf', hnew⟩ := newParts_spec hwf hreg hvalue
    simp only [writeRegister, hpairs]
    split
    next hrefused =>
      rw [Bool.and_eq_true, Bool.not_eq_true', decide_eq_true_eq, hfound] at hrefused
      exact .inl ⟨hrefused.1, hrefused.2, rfl⟩
    next hallowed =>
      rw [Bool.and_eq_true, Bool.not_eq_true', decide_eq_true_eq, hfound, not_and_or, not_not,
        Bool.not_eq_false] at hallowed
      refine .inr ⟨hallowed, ?_⟩
      split
      next =>
        refine ⟨rfl, representsState_set h (hkey.replace reg (fun p hp => ?_) fun k => ?_)⟩
        · rw [List.mem_singleton.mp hp]
          exact ⟨hreg, hvalue⟩
        · rw [bitsAt_register]
          split <;> exact .refl _
      next =>
        refine ⟨rfl, representsState_set h ⟨fun p hp => ?_, fun k => ?_⟩⟩
        · rcases List.mem_append.mp hp with hp | hp
          · obtain ⟨q, hq, rfl⟩ := List.mem_map.mp hp
            exact (overwriteLocation_spec (hkey.wellFormed q hq) hvalue).1
          · exact hwf' p hp
        · rw [bitsAt_append, bitsAt_overwrite hkey.wellFormed hvalue, hnew,
            bitsAt_accessed hkey.wellFormed, hkey.bitsAt_eq]
          by_cases hk : k ∈ reg.location
          · cases store reg.store k <;> simp [hk]
          · simp [hk]

theorem eraseRegister_spec (h : RepresentsState V s store) (reg : RegisterDescriptor) :
    RepresentsState V (eraseRegister V s reg) (store.set reg fun _ => none) := by
  have hkey := h reg.store
  cases hpairs : s.registers reg.store with
  | none =>
    rw [hpairs] at hkey
    have hnone := represents_none hkey
    have hsame : store.set reg (fun _ => none) = store := by
      funext key k
      by_cases heq : key = reg.store
      · subst heq
        simp [Store.set, hnone]
      · simp only [Store.set, Function.update_of_ne heq]
    simp only [eraseRegister, hpairs, hsame]
    exact h
  | some pairs =>
    rw [hpairs, Option.getD_some] at hkey
    simp only [eraseRegister, hpairs]
    refine representsState_set h ?_
    have hnil : ∀ p ∈ ([] : RegPairs S), p.WellFormed V := by simp
    have hkept := hkey.replace reg (f := fun _ => none) hnil fun k => by simp
    simpa using hkept

end

end LoomX.RegisterState
