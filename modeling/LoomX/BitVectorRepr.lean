import Mathlib
import LoomX.CountedHandles

namespace LoomX

open CountedHandles

/-- The words of a `BitVectorReprImpl`. -/
abbrev BitVectorReprImpl := List (BitVec 32)

namespace BitVectorReprImpl

/-- `sizeof(unsigned)`, which the code takes for the number of bits of a word. -/
def intsize : Nat := 4

/-- The number of words, in `unsigned` arithmetic. -/
def num (size : Nat) : Nat := (size + intsize - 1) % 2 ^ 32 / intsize

def make (size : Nat) : BitVectorReprImpl := List.replicate (num size) 0

def mask (index : Nat) : BitVec 32 := 1#32 <<< (index % intsize)

def orWith (v that : BitVectorReprImpl) : Option BitVectorReprImpl :=
  if v.length = that.length then some (v.zipWith (· ||| ·) that) else none

def andWith (v that : BitVectorReprImpl) : Option BitVectorReprImpl :=
  if v.length = that.length then some (v.zipWith (· &&& ·) that) else none

def complement (v : BitVectorReprImpl) : BitVectorReprImpl := v.map (~~~·)

def equals (v that : BitVectorReprImpl) : Option Bool :=
  if v.length = that.length then some (decide (v = that)) else none

/-- An access outside of the words is undefined. -/
def hasMember (v : BitVectorReprImpl) (index : Nat) : Option Bool := do
  let word ← v[index / intsize]?
  some (word &&& mask index != 0)

def addMember (v : BitVectorReprImpl) (index : Nat) : Option BitVectorReprImpl := do
  let word ← v[index / intsize]?
  some (v.set (index / intsize) (word ||| mask index))

def deleteMember (v : BitVectorReprImpl) (index : Nat) : Option BitVectorReprImpl := do
  let word ← v[index / intsize]?
  some (v.set (index / intsize) (word &&& ~~~mask index))

end BitVectorReprImpl

/-- The vectors of one size, each with a handle that may share its words. -/
abbrev BitVectors := Store BitVectorReprImpl

namespace BitVectorRepr

/-- A call on the vectors of one size, which are numbered in the order they are made. -/
inductive Call where
  | make
  | copy (i : Nat)
  | addMember (i index : Nat)
  | deleteMember (i index : Nat)
  | orWith (i j : Nat)
  | andWith (i j : Nat)
  | complement (i : Nat)

def apply (size : Nat) (s : BitVectors) : Call → Option BitVectors
  | .make => some (s.create (BitVectorReprImpl.make size))
  | .copy i => s.copy i
  | .addMember i index => s.update i (·.addMember index)
  | .deleteMember i index => s.update i (·.deleteMember index)
  | .orWith i j => do
    let that ← s.value j
    s.update i (·.orWith that)
  | .andWith i j => do
    let that ← s.value j
    s.update i (·.andWith that)
  | .complement i => s.update i fun v => some v.complement

def hasMember (s : BitVectors) (i index : Nat) : Option Bool := do
  let v ← s.value i
  v.hasMember index

/-- Vectors that share their words are equal at once. -/
def equals (s : BitVectors) (i j : Nat) : Option Bool := do
  let r ← s.handles[i]?
  let q ← s.handles[j]?
  if r = q then some true
  else do
    let v ← s.value i
    let that ← s.value j
    v.equals that

/-- A set of numbers below a size, and whether it would have a number that no call names. -/
structure Members where
  set : Finset Nat
  beyond : Bool

/-- What the calls mean for sets. -/
def Call.onSets (size : Nat) (as : List Members) : Call → List Members
  | .make => as ++ [⟨∅, false⟩]
  | .copy i => as ++ as[i]?.toList
  | .addMember i index => as.modify i fun a => { a with set := insert index a.set }
  | .deleteMember i index => as.modify i fun a => { a with set := a.set.erase index }
  | .orWith i j => as.modify i fun a =>
    as[j]?.elim a fun that => ⟨a.set ∪ that.set, a.beyond || that.beyond⟩
  | .andWith i j => as.modify i fun a =>
    as[j]?.elim a fun that => ⟨a.set ∩ that.set, a.beyond && that.beyond⟩
  | .complement i => as.modify i fun a => ⟨Finset.range size \ a.set, !a.beyond⟩

/-- The vectors of a call exist, and its index is below their size. -/
def Call.Valid (size count : Nat) : Call → Prop
  | .make => True
  | .copy i => i < count
  | .addMember i index => i < count ∧ index < size
  | .deleteMember i index => i < count ∧ index < size
  | .orWith i j => i < count ∧ j < count
  | .andWith i j => i < count ∧ j < count
  | .complement i => i < count

/-- The vectors answer as the sets do. -/
def Agrees (size : Nat) (s : BitVectors) (as : List Members) : Prop :=
  (∀ i a, as[i]? = some a → ∀ index < size,
    hasMember s i index = some (decide (index ∈ a.set))) ∧
  ∀ i j a b, as[i]? = some a → as[j]? = some b → equals s i j = some (decide (a.set = b.set))

/-- Every call of a run succeeds, and the vectors answer as the sets do before and after it. -/
def RunAgrees (size : Nat) : BitVectors → List Members → List Call → Prop
  | s, as, [] => Agrees size s as
  | s, as, call :: calls => Agrees size s as ∧
    ∃ s', apply size s call = some s' ∧ RunAgrees size s' (call.onSets size as) calls

/-- Every state of a run of sets meets a condition. -/
def RunMeets (P : List Members → Prop) (size : Nat) : List Members → List Call → Prop
  | as, [] => P as
  | as, call :: calls => P as ∧ RunMeets P size (call.onSets size as) calls

def Call.makes : Call → Nat
  | .make => 1
  | .copy _ => 1
  | _ => 0

def RunValid (size : Nat) : Nat → List Call → Prop
  | _, [] => True
  | count, call :: calls => call.Valid size count ∧ RunValid size (count + call.makes) calls

/-- Vectors with the same numbers are also the same beyond their size. -/
def Distinguished (as : List Members) : Prop :=
  ∀ a ∈ as, ∀ b ∈ as, a.set = b.set → a.beyond = b.beyond

/-- Bits outside of the set have the value that a number which no call names has. -/
structure Represents (size : Nat) (v : BitVectorReprImpl) (a : Members) : Prop where
  length : v.length = (size + 3) / 4
  bit : ∀ (k : Nat) (word : BitVec 32), v[k]? = some word → ∀ b < 32,
    word.getLsbD b = if b < 4 ∧ 4 * k + b < size then decide (4 * k + b ∈ a.set) else a.beyond
  below : ∀ n ∈ a.set, n < size

/-- The words of the vectors represent the sets. -/
def Refines (size : Nat) (s : BitVectors) (as : List Members) : Prop :=
  ∃ vs, s.Holds vs ∧ List.Forall₂ (Represents size) vs as

section
variable {size index : Nat} {v w : BitVectorReprImpl} {a b : Members}

theorem Represents.exists_word (h : Represents size v a) (hindex : index < size) :
    ∃ word, v[index / 4]? = some word :=
  ⟨_, List.getElem?_eq_getElem (by rw [h.length]; omega)⟩

/-- The bit of a number in its word. -/
theorem Represents.word_bit (h : Represents size v a) (hindex : index < size) {word : BitVec 32}
    (hword : v[index / 4]? = some word) :
    word.getLsbD (index % 4) = decide (index ∈ a.set) := by
  rw [h.bit _ word hword _ (by omega), if_pos ⟨by omega, by omega⟩, Nat.div_add_mod]

theorem mask_bit {b : Nat} (hb : b < 32) :
    (BitVectorReprImpl.mask index).getLsbD b = decide (b = index % 4) := by
  unfold BitVectorReprImpl.mask BitVectorReprImpl.intsize
  rw [BitVec.getLsbD_shiftLeft, BitVec.getLsbD_one]
  have hone : (0 : Nat) < 32 := by omega
  simp only [hb, hone, decide_true, Bool.true_and]
  by_cases hlt : b < index % 4
  · have hne : ¬b = index % 4 := by omega
    simp [hlt, hne]
  · have hiff : b - index % 4 = 0 ↔ b = index % 4 := by omega
    simp [hlt, hiff]

theorem represents_make (hsize : size + 3 < 2 ^ 32) :
    Represents size (BitVectorReprImpl.make size) ⟨∅, false⟩ where
  length := by
    rw [BitVectorReprImpl.make, List.length_replicate, BitVectorReprImpl.num,
      BitVectorReprImpl.intsize]
    omega
  bit := by
    intro k word hword b hb
    have hmem := List.eq_of_mem_replicate (List.mem_of_getElem? hword)
    rw [hmem]
    simp
  below := fun n hn => absurd hn (Finset.notMem_empty n)

theorem and_mask_ne_zero {word : BitVec 32} :
    (word &&& BitVectorReprImpl.mask index != 0) = word.getLsbD (index % 4) := by
  rw [Bool.eq_iff_iff, bne_iff_ne, ne_eq, not_iff_comm, Bool.not_eq_true]
  constructor
  · intro hclear
    apply BitVec.eq_of_getLsbD_eq
    intro b hb
    rw [BitVec.getLsbD_and, mask_bit hb]
    by_cases hb' : b = index % 4
    · rw [hb', hclear]
      simp
    · simp [hb']
  · intro hzero
    have hbit := congrArg (fun x => x.getLsbD (index % 4)) hzero
    simp only [BitVec.getLsbD_and, mask_bit (show index % 4 < 32 by omega), decide_true,
      Bool.and_true] at hbit
    rw [hbit]
    exact BitVec.getLsbD_zero

theorem hasMember_eq (h : Represents size v a) (hindex : index < size) :
    v.hasMember index = some (decide (index ∈ a.set)) := by
  obtain ⟨word, hword⟩ := h.exists_word hindex
  simp only [BitVectorReprImpl.hasMember, BitVectorReprImpl.intsize, hword, Option.bind_eq_bind,
    Option.bind_some]
  rw [and_mask_ne_zero, h.word_bit hindex hword]

/-- A word that is changed at one bit below the size. -/
theorem Represents.setWord (h : Represents size v a) (hindex : index < size) {word : BitVec 32}
    {set : Finset Nat} (hbelow : ∀ n ∈ set, n < size)
    (hself : word.getLsbD (index % 4) = decide (index ∈ set))
    (hword : ∀ old, v[index / 4]? = some old → ∀ b < 32, b ≠ index % 4 →
      word.getLsbD b = old.getLsbD b)
    (hset : ∀ n, n ≠ index → (n ∈ set ↔ n ∈ a.set)) :
    Represents size (v.set (index / 4) word) ⟨set, a.beyond⟩ where
  length := by rw [List.length_set, h.length]
  bit := by
    intro k new hnew b hb
    dsimp only
    by_cases hk : index / 4 = k
    · subst hk
      obtain ⟨old, hold⟩ := h.exists_word hindex
      rw [List.getElem?_set_self (List.getElem?_eq_some_iff.mp hold).1] at hnew
      obtain rfl := Option.some.inj hnew
      by_cases hb' : b = index % 4
      · subst hb'
        rw [hself, if_pos ⟨by omega, by omega⟩, Nat.div_add_mod]
      · rw [hword old hold b hb hb', h.bit _ old hold b hb]
        have hne : 4 * (index / 4) + b ≠ index ∨ ¬b < 4 := by omega
        rcases hne with hne | hlarge
        · simp only [hset _ hne]
        · simp only [hlarge, false_and, if_false]
    · rw [List.getElem?_set_ne hk] at hnew
      rw [h.bit k new hnew b hb]
      by_cases hsmall : b < 4
      · simp only [hset (4 * k + b) (by omega)]
      · simp only [hsmall, false_and, if_false]
  below := hbelow

theorem addMember_eq (h : Represents size v a) (hindex : index < size) :
    ∃ w, v.addMember index = some w ∧
      Represents size w { a with set := insert index a.set } := by
  obtain ⟨word, hword⟩ := h.exists_word hindex
  simp only [BitVectorReprImpl.addMember, BitVectorReprImpl.intsize, hword, Option.bind_eq_bind,
    Option.bind_some]
  refine ⟨_, rfl, h.setWord hindex ?_ ?_ ?_ fun n hn => ?_⟩
  · exact Finset.forall_mem_insert .. |>.mpr ⟨hindex, h.below⟩
  · rw [BitVec.getLsbD_or, mask_bit (by omega)]
    simp
  · intro old hold b hb hne
    obtain rfl := Option.some.inj (hword.symm.trans hold)
    rw [BitVec.getLsbD_or, mask_bit hb]
    simp [hne]
  · rw [Finset.mem_insert, or_iff_right hn]

theorem deleteMember_eq (h : Represents size v a) (hindex : index < size) :
    ∃ w, v.deleteMember index = some w ∧
      Represents size w { a with set := a.set.erase index } := by
  obtain ⟨word, hword⟩ := h.exists_word hindex
  simp only [BitVectorReprImpl.deleteMember, BitVectorReprImpl.intsize, hword, Option.bind_eq_bind,
    Option.bind_some]
  refine ⟨_, rfl, h.setWord hindex (fun n hn => h.below n (Finset.mem_of_mem_erase hn)) ?_ ?_
    fun n hn => ?_⟩
  · rw [BitVec.getLsbD_and, BitVec.getLsbD_not, mask_bit (by omega)]
    simp
  · intro old hold b hb hne
    obtain rfl := Option.some.inj (hword.symm.trans hold)
    rw [BitVec.getLsbD_and, BitVec.getLsbD_not, mask_bit hb]
    simp [hne, hb]
  · rw [Finset.mem_erase, and_iff_right hn]

/-- Vectors that are combined word by word. -/
theorem represents_zipWith (hv : Represents size v a) (hw : Represents size w b)
    {f : BitVec 32 → BitVec 32 → BitVec 32} {g : Bool → Bool → Bool} {set : Finset Nat}
    (hf : ∀ x y b, b < 32 → (f x y).getLsbD b = g (x.getLsbD b) (y.getLsbD b))
    (hset : ∀ n, decide (n ∈ set) = g (decide (n ∈ a.set)) (decide (n ∈ b.set)))
    (hbelow : ∀ n ∈ set, n < size) :
    Represents size (v.zipWith f w) ⟨set, g a.beyond b.beyond⟩ where
  length := by rw [List.length_zipWith, hv.length, hw.length, Nat.min_self]
  bit := by
    intro k word hword c hc
    rw [List.getElem?_zipWith] at hword
    split at hword
    next x y hx hy =>
      obtain rfl := Option.some.inj hword
      rw [hf x y c hc, hv.bit k x hx c hc, hw.bit k y hy c hc]
      dsimp only
      split
      next => rw [hset]
      next => rfl
    next => cases hword
  below := hbelow

theorem orWith_eq (hv : Represents size v a) (hw : Represents size w b) :
    ∃ u, v.orWith w = some u ∧ Represents size u ⟨a.set ∪ b.set, a.beyond || b.beyond⟩ := by
  refine ⟨_, if_pos (hv.length.trans hw.length.symm), ?_⟩
  apply represents_zipWith hv hw
  · intro x y c _
    exact BitVec.getLsbD_or ..
  · intro n
    simp only [Finset.mem_union, Bool.decide_or]
  · intro n hn
    rcases Finset.mem_union.mp hn with hn | hn
    · exact hv.below n hn
    · exact hw.below n hn

theorem andWith_eq (hv : Represents size v a) (hw : Represents size w b) :
    ∃ u, v.andWith w = some u ∧ Represents size u ⟨a.set ∩ b.set, a.beyond && b.beyond⟩ := by
  refine ⟨_, if_pos (hv.length.trans hw.length.symm), ?_⟩
  apply represents_zipWith hv hw
  · intro x y c _
    exact BitVec.getLsbD_and ..
  · intro n
    simp only [Finset.mem_inter, Bool.decide_and]
  · intro n hn
    exact hv.below n (Finset.mem_of_mem_inter_left hn)

theorem represents_complement (h : Represents size v a) :
    Represents size v.complement ⟨Finset.range size \ a.set, !a.beyond⟩ where
  length := by rw [BitVectorReprImpl.complement, List.length_map, h.length]
  bit := by
    intro k word hword c hc
    rw [BitVectorReprImpl.complement, List.getElem?_map] at hword
    obtain ⟨old, hold, rfl⟩ := Option.map_eq_some_iff.mp hword
    rw [BitVec.getLsbD_not, h.bit k old hold c hc]
    dsimp only
    split
    next hbelow => simp [hc, Finset.mem_sdiff, hbelow.2]
    next => simp [hc]
  below := by
    intro n hn
    exact Finset.mem_range.mp (Finset.mem_sdiff.mp hn).1

/-- Vectors are equal word by word exactly when their numbers are and, where there is a word at all,
what lies beyond. -/
theorem eq_iff_of_represents (hv : Represents size v a) (hw : Represents size w b) :
    v = w ↔ a.set = b.set ∧ (size = 0 ∨ a.beyond = b.beyond) := by
  constructor
  · rintro rfl
    constructor
    · ext n
      constructor
      · intro hn
        obtain ⟨word, hword⟩ := hv.exists_word (hv.below n hn)
        have hbit := hv.word_bit (hv.below n hn) hword
        rw [hw.word_bit (hv.below n hn) hword] at hbit
        exact (decide_eq_decide.mp hbit).mpr hn
      · intro hn
        obtain ⟨word, hword⟩ := hw.exists_word (hw.below n hn)
        have hbit := hv.word_bit (hw.below n hn) hword
        rw [hw.word_bit (hw.below n hn) hword] at hbit
        exact (decide_eq_decide.mp hbit).mp hn
    · rcases Nat.eq_zero_or_pos size with hzero | hpos
      · exact .inl hzero
      · obtain ⟨word, hword⟩ := hv.exists_word hpos
        have hbit := hv.bit _ word hword 4 (by omega)
        rw [hw.bit _ word hword 4 (by omega)] at hbit
        exact .inr hbit.symm
  · rintro ⟨hset, hbeyond⟩
    apply List.ext_getElem?
    intro k
    have hlength : v.length = w.length := hv.length.trans hw.length.symm
    rcases Nat.lt_or_ge k v.length with hk | hk
    · have hx := List.getElem?_eq_getElem hk
      have hy := List.getElem?_eq_getElem (hlength ▸ hk)
      rw [hx, hy, Option.some.injEq]
      apply BitVec.eq_of_getLsbD_eq
      intro c hc
      rw [hv.bit k _ hx c hc, hw.bit k _ hy c hc, hset]
      rw [hv.length] at hk
      have hsize : size ≠ 0 := by omega
      rw [hbeyond.resolve_left hsize]
    · rw [List.getElem?_eq_none hk, List.getElem?_eq_none (hlength ▸ hk)]

variable {s s' : BitVectors} {as : List Members} {calls : List Call} {i j : Nat}

theorem forall₂_getElem? {α β : Type} {R : α → β → Prop} {xs : List α} {ys : List β} {y : β}
    (h : List.Forall₂ R xs ys) (hy : ys[i]? = some y) : ∃ x, xs[i]? = some x ∧ R x y := by
  induction h generalizing i with
  | nil => cases hy
  | cons hxy _ ih =>
    cases i with
    | zero =>
      obtain rfl := Option.some.inj hy
      exact ⟨_, rfl, hxy⟩
    | succ i => exact ih hy

theorem forall₂_set {α β : Type} {R : α → β → Prop} {xs : List α} {ys : List β} {x : α}
    {f : β → β} (h : List.Forall₂ R xs ys) (hx : ∀ y, ys[i]? = some y → R x (f y)) :
    List.Forall₂ R (xs.set i x) (ys.modify i f) := by
  induction h generalizing i with
  | nil => cases i <;> exact .nil
  | cons hxy hrest ih =>
    cases i with
    | zero => exact .cons (hx _ rfl) hrest
    | succ i => exact .cons hxy (ih hx)

theorem Refines.value (h : Refines size s as) (ha : as[i]? = some a) :
    ∃ v, s.value i = some v ∧ Represents size v a := by
  obtain ⟨vs, hholds, hvs⟩ := h
  obtain ⟨v, hv, hrep⟩ := forall₂_getElem? hvs ha
  exact ⟨v, hholds.value_eq hv, hrep⟩

/-- A call that writes through one handle. -/
theorem Refines.update (h : Refines size s as) (ha : as[i]? = some a)
    {f : BitVectorReprImpl → Option BitVectorReprImpl} {g : Members → Members}
    (hf : ∀ v, Represents size v a → ∃ w, f v = some w ∧ Represents size w (g a)) :
    ∃ s', s.update i f = some s' ∧ Refines size s' (as.modify i g) := by
  obtain ⟨vs, hholds, hvs⟩ := h
  obtain ⟨v, hv, hrep⟩ := forall₂_getElem? hvs ha
  obtain ⟨w, hw, hrep'⟩ := hf v hrep
  obtain ⟨s', hs', hholds'⟩ := Store.update_holds hholds hv hw
  refine ⟨s', hs', _, hholds', forall₂_set hvs fun b hb => ?_⟩
  obtain rfl := Option.some.inj (ha.symm.trans hb)
  exact hrep'

/-- Every call does to the vectors what it means for the sets. -/
theorem apply_refines (hsize : size + 3 < 2 ^ 32) (h : Refines size s as) {call : Call}
    (hvalid : call.Valid size as.length) :
    ∃ s', apply size s call = some s' ∧ Refines size s' (call.onSets size as) := by
  have hget : ∀ i < as.length, ∃ a, as[i]? = some a := fun i hi =>
    ⟨_, List.getElem?_eq_getElem hi⟩
  cases call with
  | make =>
    obtain ⟨vs, hholds, hvs⟩ := h
    exact ⟨_, rfl, _, Store.create_holds hholds,
      List.rel_append hvs (.cons (represents_make hsize) .nil)⟩
  | copy i =>
    obtain ⟨a, ha⟩ := hget i hvalid
    obtain ⟨vs, hholds, hvs⟩ := h
    obtain ⟨v, hv, hrep⟩ := forall₂_getElem? hvs ha
    obtain ⟨s', hs', hholds'⟩ := Store.copy_holds hholds hv
    refine ⟨s', hs', _, hholds', ?_⟩
    rw [Call.onSets, ha]
    exact List.rel_append hvs (.cons hrep .nil)
  | addMember i index =>
    obtain ⟨a, ha⟩ := hget i hvalid.1
    exact h.update (g := fun a => { a with set := insert index a.set }) ha
      fun v hv => addMember_eq hv hvalid.2
  | deleteMember i index =>
    obtain ⟨a, ha⟩ := hget i hvalid.1
    exact h.update (g := fun a => { a with set := a.set.erase index }) ha
      fun v hv => deleteMember_eq hv hvalid.2
  | orWith i j =>
    obtain ⟨a, ha⟩ := hget i hvalid.1
    obtain ⟨b, hb⟩ := hget j hvalid.2
    obtain ⟨that, hthat, hrep⟩ := h.value hb
    simp only [apply, Call.onSets, hthat, hb, Option.elim_some, Option.bind_eq_bind,
      Option.bind_some]
    exact h.update ha fun v hv => orWith_eq hv hrep
  | andWith i j =>
    obtain ⟨a, ha⟩ := hget i hvalid.1
    obtain ⟨b, hb⟩ := hget j hvalid.2
    obtain ⟨that, hthat, hrep⟩ := h.value hb
    simp only [apply, Call.onSets, hthat, hb, Option.elim_some, Option.bind_eq_bind,
      Option.bind_some]
    exact h.update ha fun v hv => andWith_eq hv hrep
  | complement i =>
    obtain ⟨a, ha⟩ := hget i hvalid
    exact h.update ha fun v hv => ⟨_, rfl, represents_complement hv⟩

/-- What the comparison answers. -/
theorem equals_eq (h : Refines size s as) (ha : as[i]? = some a) (hb : as[j]? = some b) :
    equals s i j = some (decide (a.set = b.set ∧ (size = 0 ∨ a.beyond = b.beyond))) := by
  obtain ⟨vs, hholds, hvs⟩ := h
  obtain ⟨v, hv, hrep⟩ := forall₂_getElem? hvs ha
  obtain ⟨w, hw, hrep'⟩ := forall₂_getElem? hvs hb
  obtain ⟨r, hr⟩ := hholds.exists_handle hv
  obtain ⟨q, hq⟩ := hholds.exists_handle hw
  have hsame : decide (v = w) =
      decide (a.set = b.set ∧ (size = 0 ∨ a.beyond = b.beyond)) :=
    decide_eq_decide.mpr (eq_iff_of_represents hrep hrep')
  simp only [equals, hr, hq, hholds.value_eq hv, hholds.value_eq hw, Option.bind_eq_bind,
    Option.bind_some, BitVectorReprImpl.equals,
    if_pos (hrep.length.trans hrep'.length.symm), hsame]
  split
  next hshared =>
    subst hshared
    obtain ⟨-, hcell⟩ := hholds.cell i r v hr hv
    obtain ⟨-, hcell'⟩ := hholds.cell j r w hq hw
    obtain ⟨rfl, -⟩ := Cell.mk.inj (Option.some.inj (hcell.symm.trans hcell'))
    rw [← hsame, decide_eq_true rfl]
  next => rfl

/-- The vectors answer as the sets do as long as equal sets are the same beyond the size. -/
theorem agrees_iff (h : Refines size s as) :
    Agrees size s as ↔ size = 0 ∨ Distinguished as := by
  have hmember : ∀ i a, as[i]? = some a → ∀ index < size,
      hasMember s i index = some (decide (index ∈ a.set)) := by
    intro i a ha index hindex
    obtain ⟨v, hv, hrep⟩ := h.value ha
    simp only [hasMember, hv, Option.bind_eq_bind, Option.bind_some]
    exact hasMember_eq hrep hindex
  constructor
  · rintro ⟨-, hequals⟩
    rcases Nat.eq_zero_or_pos size with hzero | hpos
    · exact .inl hzero
    · right
      intro a ha b hb hset
      obtain ⟨i, hi⟩ := List.mem_iff_getElem?.mp ha
      obtain ⟨j, hj⟩ := List.mem_iff_getElem?.mp hb
      have hsame := hequals i j a b hi hj
      rw [equals_eq h hi hj, Option.some.injEq, decide_eq_decide] at hsame
      exact (hsame.mpr hset).2.resolve_left (Nat.ne_of_gt hpos)
  · intro hdistinguished
    refine ⟨hmember, fun i j a b hi hj => ?_⟩
    rw [equals_eq h hi hj, Option.some.injEq, decide_eq_decide]
    constructor
    · exact fun hsame => hsame.1
    · intro hset
      refine ⟨hset, hdistinguished.imp_right fun h => ?_⟩
      exact h a (List.mem_of_getElem? hi) b (List.mem_of_getElem? hj) hset

theorem length_onSets {call : Call} (hvalid : call.Valid size as.length) :
    (call.onSets size as).length = as.length + call.makes := by
  cases call with
  | make => simp [Call.onSets, Call.makes]
  | copy i =>
    have hi : as[i]? = some as[i] := List.getElem?_eq_getElem hvalid
    simp [Call.onSets, Call.makes, hi]
  | _ => simp [Call.onSets, Call.makes]

/-- A run of vectors that represent sets answers rightly exactly where equal sets of the run are the
same beyond the size. -/
theorem runAgrees_iff (hsize : size + 3 < 2 ^ 32) (h : Refines size s as)
    (hvalid : RunValid size as.length calls) :
    RunAgrees size s as calls ↔ size = 0 ∨ RunMeets Distinguished size as calls := by
  induction calls generalizing s as with
  | nil => exact agrees_iff h
  | cons call calls ih =>
    obtain ⟨hcall, hcalls⟩ := hvalid
    obtain ⟨s', hs', href⟩ := apply_refines hsize h hcall
    rw [← length_onSets hcall] at hcalls
    simp only [RunAgrees, RunMeets, hs', Option.some.injEq, exists_eq_left', agrees_iff h,
      ih href hcalls, or_and_left]

theorem start_refines (hsize : size + 3 < 2 ^ 32) :
    Refines size (Store.empty.create (BitVectorReprImpl.make size)) [⟨∅, false⟩] :=
  ⟨_, Store.create_holds Store.holds_empty, .cons (represents_make hsize) .nil⟩

end

/-- In a run that starts with a new vector, the vectors answer as the sets do exactly where the
number of words does not wrap, and equal sets are the same beyond the size. -/
theorem run_agrees_iff {size : Nat} (hsize : size < 2 ^ 32) {calls : List Call}
    (hvalid : RunValid size 1 calls) :
    RunAgrees size (Store.empty.create (BitVectorReprImpl.make size)) [⟨∅, false⟩] calls ↔
      size + 3 < 2 ^ 32 ∧ (size = 0 ∨ RunMeets Distinguished size [⟨∅, false⟩] calls) := by
  rcases Nat.lt_or_ge (size + 3) (2 ^ 32) with hwords | hwrap
  · rw [and_iff_right hwords]
    exact runAgrees_iff hwords (start_refines hwords) hvalid
  · -- there is no word, so that the first access is undefined
    have hnone : BitVectorReprImpl.make size = [] := by
      have hnum : BitVectorReprImpl.num size = 0 := by
        unfold BitVectorReprImpl.num BitVectorReprImpl.intsize
        omega
      rw [BitVectorReprImpl.make, hnum, List.replicate_zero]
    constructor
    · intro h
      have hagrees : Agrees size (Store.empty.create (BitVectorReprImpl.make size)) [⟨∅, false⟩] := by
        cases calls with
        | nil => exact h
        | cons call calls => exact h.1
      have hmember := hagrees.1 0 _ rfl 0 (by omega)
      rw [hnone] at hmember
      cases hmember
    · rintro ⟨hwords, -⟩
      omega

instance (as : List Members) : Decidable (Distinguished as) :=
  inferInstanceAs (Decidable (∀ a ∈ as, ∀ b ∈ as, _))

instance decidableRunMeets {P : List Members → Prop} [DecidablePred P] (size : Nat) :
    (as : List Members) → (calls : List Call) → Decidable (RunMeets P size as calls)
  | as, [] => inferInstanceAs (Decidable (P as))
  | as, call :: calls =>
    have := decidableRunMeets (P := P) size (call.onSets size as) calls
    inferInstanceAs (Decidable (P as ∧ RunMeets P size (call.onSets size as) calls))

theorem run_agrees_union :
    RunAgrees 5 (Store.empty.create (BitVectorReprImpl.make 5)) [⟨∅, false⟩]
      [.addMember 0 4, .make, .addMember 1 2, .copy 1, .orWith 1 0, .andWith 2 0] := by
  apply (run_agrees_iff (by decide) ?_).mpr
  · exact ⟨by decide, .inr (by decide)⟩
  · refine ⟨?_, ?_, ?_, ?_, ?_, ?_, trivial⟩
    all_goals simp [Call.Valid, Call.makes]

/-- The complement of the empty set differs from the set that its only number was added to. -/
theorem complement_differs :
    ¬RunAgrees 1 (Store.empty.create (BitVectorReprImpl.make 1)) [⟨∅, false⟩]
      [.make, .complement 1, .addMember 0 0] := by
  rintro ⟨-, s₁, h₁, -, s₂, h₂, -, s₃, h₃, hagrees⟩
  obtain rfl := Option.some.inj h₁
  obtain rfl := Option.some.inj h₂
  obtain rfl := Option.some.inj h₃
  have hequals := hagrees.2 0 1 _ _ rfl rfl
  exact absurd hequals (by decide)

end BitVectorRepr

end LoomX
