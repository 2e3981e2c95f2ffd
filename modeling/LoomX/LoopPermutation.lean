import LoomX.FactorialDigits
import Mathlib.Tactic.NormNum

namespace LoomX

open FactorialDigits Nat

/-- The factorial in `size_t`, multiplied up from two. -/
def myfactorial (n : Nat) : Nat :=
  (List.range' 2 (n - 1)).foldl (fun result i => result * i % 2 ^ 64) 1

/-- The elements from `j` up to `j + t` one place to the right, the last of them overwritten. -/
def shiftRight (s : List Nat) (j : Nat) : Nat → List Nat
  | 0 => s
  | t + 1 => shiftRight (s.set (j + t + 1) (s.getD (j + t) 0)) j t

/-- The loop of `getPermutationOrder` from the position `j` on; a division by zero gives nothing. -/
def permuteFrom (n k j : Nat) : Nat → Nat → List Nat → Option (List Nat)
  | 0, _, s => some s
  | remaining + 1, factorial, s =>
    if factorial = 0 then none
    else
      let tempj := k / factorial % (n - j)
      let temps := s.getD (j + tempj) 0
      permuteFrom n k (j + 1) remaining (factorial / (n - (j + 1)))
        ((shiftRight s j tempj).set j temps)

/-- The permutation of `n` elements with a lexicographical number; nothing if it aborts. -/
def getPermutationOrder (n lexicoOrder : Nat) : Option (List Nat) :=
  let k := lexicoOrder
  let factorial := myfactorial (n - 1)
  if n = 0 ∨ factorial ≤ k / n then none
  else permuteFrom n k 0 (n - 1) factorial (List.range n)

/-- The statements and expressions in the header of a loop, by their nodes. -/
structure LoopHead where
  init : Option Nat
  test : Option Nat
  increment : Option Nat
  deriving DecidableEq

/-- The header of the loop at a level is replaced if necessary. -/
def setHead (loopHeads heads : List LoopHead) (i c : Nat) : Option (List LoopHead) :=
  if i = c then some heads
  else do
    let newhead ← loopHeads[c]?
    let old ← heads[i]?
    if newhead.init = old.init then none else some (heads.set i newhead)

def rewriteHeads (loopHeads : List LoopHead) (changedOrder : List Nat) (i : Nat) :
    Nat → List LoopHead → Option (List LoopHead)
  | 0, heads => some heads
  | remaining + 1, heads => do
    let c ← changedOrder[i]?
    let heads ← setHead loopHeads heads i c
    rewriteHeads loopHeads changedOrder (i + 1) remaining heads

/-- The headers of the loops in a loop, outermost first; nothing if an assertion fails. -/
def loopInterchange (loopNest : List LoopHead) (depth lexicoOrder : Nat) :
    Option (List LoopHead) :=
  if lexicoOrder = 0 then some loopNest
  else if ¬(1 < depth ∧ lexicoOrder < myfactorial depth ∧ depth ≤ loopNest.length) then none
  else do
    let changedOrder ← getPermutationOrder depth lexicoOrder
    rewriteHeads loopNest changedOrder 0 depth loopNest

theorem myfactorial_eq (n : Nat) : myfactorial n = n ! % 2 ^ 64 := by
  induction n with
  | zero => rfl
  | succ n ih =>
    cases n with
    | zero => rfl
    | succ n =>
      have hlast : List.range' 2 (n + 1) = List.range' 2 n ++ [n + 2] := by
        rw [List.range'_1_concat, Nat.add_comm 2 n]
      rw [myfactorial, Nat.add_sub_cancel] at ih ⊢
      rw [hlast, List.foldl_append, ih, List.foldl_cons, List.foldl_nil, Nat.mod_mul_mod,
        Nat.factorial_succ (n + 1), Nat.mul_comm]

theorem shiftRight_eq (pre a : List Nat) (x z : Nat) (b : List Nat) :
    (shiftRight (pre ++ (a ++ z :: b)) pre.length a.length).set pre.length x =
      pre ++ (x :: a ++ b) := by
  induction a using List.reverseRecOn generalizing z b with
  | nil => simp [shiftRight]
  | append_singleton a y ih =>
    have hread : (pre ++ (a ++ [y] ++ z :: b)).getD (pre.length + a.length) 0 = y := by
      simp
    have hwrite : (pre ++ (a ++ [y] ++ z :: b)).set (pre.length + a.length + 1) y =
        pre ++ (a ++ y :: y :: b) := by
      simp [Nat.add_assoc, List.set_append_right]
    rw [List.length_append, List.length_singleton, shiftRight, hread, hwrite, ih]
    simp

/-- The chosen element comes to the front of those that are left, the others keep their order. -/
theorem shiftRight_getD (pre : List Nat) {rest : List Nat} {t x : Nat} (h : rest[t]? = some x) :
    (shiftRight (pre ++ rest) pre.length t).set pre.length ((pre ++ rest).getD (pre.length + t) 0) =
      pre ++ x :: rest.eraseIdx t := by
  obtain ⟨ht, rfl⟩ := List.getElem?_eq_some_iff.mp h
  have hsplit : rest = rest.take t ++ rest[t] :: rest.drop (t + 1) := by simp
  have hlen : (rest.take t).length = t := List.length_take_of_le ht.le
  have hread : (pre ++ rest).getD (pre.length + t) 0 = rest[t] := by simp [ht]
  have hshift := shiftRight_eq pre (rest.take t) rest[t] rest[t] (rest.drop (t + 1))
  rw [← hsplit, hlen] at hshift
  rw [hread, hshift, List.eraseIdx_eq_take_drop_succ]
  rfl

/-- With the right factorial the loop picks elements by the digits of the number. -/
theorem permuteFrom_eq {n k : Nat} {remaining : Nat} {pre rest : List Nat}
    (hn : pre.length + (remaining + 1) = n) (hrest : rest.length = remaining + 1) :
    permuteFrom n k pre.length remaining remaining ! (pre ++ rest) =
      some (pre ++ arrange k (remaining + 1) rest) := by
  induction remaining generalizing pre rest with
  | zero =>
    obtain ⟨x, hx⟩ := List.length_eq_one_iff.mp hrest
    simp [permuteFrom, arrange, hx, Nat.mod_one]
  | succ remaining ih =>
    obtain ⟨x, hx, hlen, harrange⟩ := arrange_succ k hrest
    have hleft : n - pre.length = remaining + 2 := by omega
    have hnext : n - (pre.length + 1) = remaining + 1 := by omega
    have hfactorial : (remaining + 1)! / (remaining + 1) = remaining ! := by
      rw [Nat.factorial_succ, Nat.mul_div_cancel_left _ (Nat.succ_pos remaining)]
    have hrun := @ih (pre ++ [x]) _ (by simp; omega) hlen
    rw [List.length_append, List.length_singleton, List.append_assoc, List.append_assoc] at hrun
    rw [permuteFrom, if_neg (Nat.factorial_ne_zero _), hleft, hnext, hfactorial, harrange]
    dsimp only
    rw [shiftRight_getD pre hx]
    exact hrun

/-- With a factorial that is too small the loop divides by zero. -/
theorem permuteFrom_none {n k j : Nat} {remaining factorial : Nat} {s : List Nat}
    (hn : j + (remaining + 1) = n) (hpos : 0 < remaining) (h : factorial < remaining !) :
    permuteFrom n k j remaining factorial s = none := by
  induction remaining generalizing j factorial s with
  | zero => omega
  | succ remaining ih =>
    rw [permuteFrom]
    split
    · rfl
    · next hne =>
      have hnext : n - (j + 1) = remaining + 1 := by omega
      have hmore : 0 < remaining := by
        by_contra hzero
        obtain rfl : remaining = 0 := by omega
        simp at h
        exact hne h
      rw [hnext]
      refine ih (by omega) hmore ?_
      rw [Nat.factorial_succ, Nat.mul_comm] at h
      exact Nat.div_lt_of_lt_mul (by rwa [Nat.mul_comm])

theorem factorial_lt {n : Nat} (hn : n ≤ 20) : n ! < 2 ^ 64 := by
  have hle : n ! ≤ 20 ! := Nat.factorial_le hn
  have hsmall : 20 ! < 2 ^ 64 := by norm_num [Nat.factorial]
  omega

theorem lt_factorial {n : Nat} (hn : 21 ≤ n) : 2 ^ 64 < n ! := by
  have hle : 21 ! ≤ n ! := Nat.factorial_le hn
  have hbig : 2 ^ 64 < 21 ! := by norm_num [Nat.factorial]
  omega

theorem myfactorial_eq_factorial {n : Nat} (hn : n ≤ 20) : myfactorial n = n ! := by
  rw [myfactorial_eq, Nat.mod_eq_of_lt (factorial_lt hn)]

theorem getPermutationOrder_eq {n k : Nat} (hpos : 0 < n) (hn : n ≤ 21) (hk : k < n !) :
    getPermutationOrder n k = some (arrange k n (List.range n)) := by
  obtain ⟨m, rfl⟩ : ∃ m, n = m + 1 := ⟨n - 1, by omega⟩
  have hrange : ¬(m + 1 = 0 ∨ m ! ≤ k / (m + 1)) := by
    rw [Nat.factorial_succ] at hk
    have hlt := Nat.div_lt_of_lt_mul hk
    omega
  have hrun := @permuteFrom_eq (m + 1) k m [] (List.range (m + 1)) (by simp) List.length_range
  rw [getPermutationOrder, Nat.add_sub_cancel, myfactorial_eq_factorial (by omega), if_neg hrange]
  exact hrun

/-- From 22 elements on the factorial wraps around. -/
theorem getPermutationOrder_none {n : Nat} (hn : 22 ≤ n) (k : Nat) :
    getPermutationOrder n k = none := by
  rw [getPermutationOrder]
  split
  · rfl
  · refine permuteFrom_none (by omega) (by omega) ?_
    have hlarge : 2 ^ 64 < (n - 1)! := lt_factorial (by omega)
    have hmod := Nat.mod_lt (n - 1)! (Nat.two_pow_pos 64)
    rw [myfactorial_eq]
    omega

/-- The numbers of `size_t` below the factorial give permutations, greater ones greater. -/
def PermutesInOrder (n : Nat) : Prop :=
  (∀ k < n !, k < 2 ^ 64 → ∃ p, getPermutationOrder n k = some p ∧ p.Perm (List.range n)) ∧
    ∀ k k' p p', k < k' → k' < n ! → k' < 2 ^ 64 → getPermutationOrder n k = some p →
      getPermutationOrder n k' = some p' → p < p'

/-- Each permutation has exactly one number. -/
def ReachesAll (n : Nat) : Prop :=
  ∀ p, p.Perm (List.range n) → ∃! k, k < n ! ∧ k < 2 ^ 64 ∧ getPermutationOrder n k = some p

/-- Each number places each header of a nest at exactly one level, by its permutation; the loops of
a nest have statements of their own. -/
def PlacesHeads (n : Nat) : Prop :=
  ∀ k < n !, k < 2 ^ 64 → ∀ loopNest : List LoopHead, n ≤ loopNest.length →
    ((loopNest.take n).map (·.init)).Nodup →
    ∃ p heads, getPermutationOrder n k = some p ∧ loopInterchange loopNest n k = some heads ∧
      (∀ i < n, heads[i]? = p[i]?.bind (loopNest[·]?)) ∧
      (∀ i, n ≤ i → heads[i]? = loopNest[i]?) ∧
      ∀ m < n, ∃! i, i < n ∧ heads[i]? = loopNest[m]?

theorem permutesInOrder_iff {n : Nat} (hpos : 0 < n) : PermutesInOrder n ↔ n ≤ 21 := by
  constructor
  · intro h
    by_contra hn
    have hone := Nat.factorial_pos n
    obtain ⟨p, hp, -⟩ := h.1 0 hone (by decide)
    rw [getPermutationOrder_none (by omega)] at hp
    cases hp
  · intro hn
    refine ⟨fun k hk _ => ⟨_, getPermutationOrder_eq hpos hn hk, arrange_perm k List.length_range⟩,
      fun k k' p p' hlt hk' _ hp hp' => ?_⟩
    rw [getPermutationOrder_eq hpos hn (hlt.trans hk')] at hp
    rw [getPermutationOrder_eq hpos hn hk'] at hp'
    cases hp
    cases hp'
    exact arrange_lt List.pairwise_lt_range List.length_range hlt hk'

/-- There are no more permutations than numbers. -/
theorem factorial_le_of_reachesAll {n : Nat} (h : ReachesAll n) : n ! ≤ 2 ^ 64 := by
  classical
  have hnumber (p : List Nat) (hp : p.Perm (List.range n)) :
      ∃ k, k < 2 ^ 64 ∧ getPermutationOrder n k = some p := by
    obtain ⟨k, ⟨-, hk, hkp⟩, -⟩ := h p hp
    exact ⟨k, hk, hkp⟩
  choose! number hnumber using hnumber
  have hcard : (List.range n).permutations.toFinset.card = n ! := by
    rw [List.toFinset_card_of_nodup (List.nodup_permutations _ List.nodup_range),
      List.length_permutations, List.length_range]
  have hle : (List.range n).permutations.toFinset.card ≤ (Finset.range (2 ^ 64)).card := by
    apply Finset.card_le_card_of_injOn number
    · intro p hp
      have hp := List.mem_permutations.mp (List.mem_toFinset.mp hp)
      exact Finset.mem_coe.mpr (Finset.mem_range.mpr (hnumber p hp).1)
    · intro p hp p' hp' heq
      have hkp := (hnumber p (List.mem_permutations.mp (List.mem_toFinset.mp hp))).2
      have hkp' := (hnumber p' (List.mem_permutations.mp (List.mem_toFinset.mp hp'))).2
      rw [heq, hkp'] at hkp
      exact (Option.some.inj hkp).symm
  rwa [hcard, Finset.card_range] at hle

theorem reachesAll_iff {n : Nat} (hpos : 0 < n) : ReachesAll n ↔ n ≤ 20 := by
  constructor
  · intro h
    have hle := factorial_le_of_reachesAll h
    by_contra hn
    have hlt := lt_factorial (n := n) (by omega)
    omega
  · intro hn p hp
    obtain ⟨k, hk, hkp⟩ := exists_arrange List.pairwise_lt_range hp
    rw [List.length_range] at hk hkp
    have hfits := factorial_lt hn
    refine ⟨k, ⟨hk, hk.trans hfits, ?_⟩, fun k' hk' => ?_⟩
    · rw [getPermutationOrder_eq hpos (by omega) hk, hkp]
    · obtain ⟨hk', -, hkp'⟩ := hk'
      rw [getPermutationOrder_eq hpos (by omega) hk'] at hkp'
      have hsame := @arrange_injOn Nat _ (List.range n) List.pairwise_lt_range k' k
      rw [List.length_range, hkp, Option.some.inj hkp'] at hsame
      exact hsame hk' hk rfl

section

variable {loopNest : List LoopHead} {p : List Nat} {n : Nat}

/-- The headers of a nest differ in their first statements. -/
theorem init_ne (hn : n ≤ loopNest.length) (hnodup : ((loopNest.take n).map (·.init)).Nodup)
    {i c : Nat} (hi : i < n) (hc : c < n) (hne : i ≠ c) {old newhead : LoopHead}
    (hold : loopNest[i]? = some old) (hnew : loopNest[c]? = some newhead) :
    newhead.init ≠ old.init := by
  intro heq
  have hi' : ((loopNest.take n).map (·.init))[i]? = some old.init := by simp [hi, hold]
  have hc' : ((loopNest.take n).map (·.init))[c]? = some old.init := by simp [hc, hnew, heq]
  have hlen : i < ((loopNest.take n).map (·.init)).length := by simp; omega
  exact hne ((List.getElem?_inj hlen hnodup).mp (hi'.trans hc'.symm))

/-- The levels before `i` have their new headers, the others still have their old ones. -/
def Rewritten (loopNest : List LoopHead) (p : List Nat) (i : Nat) (heads : List LoopHead) : Prop :=
  (∀ j < i, heads[j]? = p[j]?.bind (loopNest[·]?)) ∧ ∀ j, i ≤ j → heads[j]? = loopNest[j]?

theorem rewritten_setHead (hn : n ≤ loopNest.length)
    (hnodup : ((loopNest.take n).map (·.init)).Nodup) {i c : Nat} (hi : i < n) (hc : c < n)
    (hp : p[i]? = some c) {heads : List LoopHead} (h : Rewritten loopNest p i heads) :
    ∃ heads', setHead loopNest heads i c = some heads' ∧ Rewritten loopNest p (i + 1) heads' := by
  have hold : loopNest[i]? = some loopNest[i] := List.getElem?_eq_getElem (by omega)
  have hnew : loopNest[c]? = some loopNest[c] := List.getElem?_eq_getElem (by omega)
  have hcurrent := (h.2 i (Nat.le_refl i)).trans hold
  obtain ⟨hlt, -⟩ := List.getElem?_eq_some_iff.mp hcurrent
  by_cases hic : i = c
  · refine ⟨heads, if_pos hic, fun j hj => ?_, fun j hj => h.2 j (by omega)⟩
    obtain hj | rfl := Nat.lt_or_eq_of_le (Nat.le_of_lt_succ hj)
    · exact h.1 j hj
    · rw [h.2 j (Nat.le_refl j), hp, Option.bind_some, hic]
  · have hne := init_ne hn hnodup hi hc hic hold hnew
    refine ⟨heads.set i loopNest[c], ?_, fun j hj => ?_, fun j hj => ?_⟩
    · rw [setHead, if_neg hic, hnew, hcurrent]
      exact if_neg hne
    · obtain hj | rfl := Nat.lt_or_eq_of_le (Nat.le_of_lt_succ hj)
      · rw [List.getElem?_set_ne (by omega), h.1 j hj]
      · rw [List.getElem?_set_self hlt, hp, Option.bind_some, hnew]
    · rw [List.getElem?_set_ne (by omega), h.2 j (by omega)]

theorem rewritten_rewriteHeads (hn : n ≤ loopNest.length)
    (hnodup : ((loopNest.take n).map (·.init)).Nodup) (hp : p.Perm (List.range n))
    {i remaining : Nat} (hi : i + remaining = n) {heads : List LoopHead}
    (h : Rewritten loopNest p i heads) :
    ∃ heads', rewriteHeads loopNest p i remaining heads = some heads' ∧
      Rewritten loopNest p n heads' := by
  induction remaining generalizing i heads with
  | zero =>
    obtain rfl : i = n := by omega
    exact ⟨heads, rfl, h⟩
  | succ remaining ih =>
    have hlen : p.length = n := by rw [hp.length_eq, List.length_range]
    have hpi : p[i]? = some p[i] := List.getElem?_eq_getElem (by omega)
    have hc : p[i] < n := List.mem_range.mp (hp.mem_iff.mp (List.getElem_mem _))
    obtain ⟨heads', hset, hstep⟩ := rewritten_setHead hn hnodup (by omega) hc hpi h
    obtain ⟨heads'', hrun, hdone⟩ := ih (by omega) hstep
    refine ⟨heads'', ?_, hdone⟩
    simp [rewriteHeads, hpi, hset, hrun]

/-- Each header of the nest stands at exactly one level afterwards. -/
theorem Rewritten.existsUnique {heads : List LoopHead} (h : Rewritten loopNest p n heads)
    (hn : n ≤ loopNest.length) (hnodup : ((loopNest.take n).map (·.init)).Nodup)
    (hp : p.Perm (List.range n)) {m : Nat} (hm : m < n) :
    ∃! i, i < n ∧ heads[i]? = loopNest[m]? := by
  have hlen : p.length = n := by rw [hp.length_eq, List.length_range]
  obtain ⟨i, hi, hpi⟩ := List.mem_iff_getElem.mp (hp.mem_iff.mpr (List.mem_range.mpr hm))
  have hread : p[i]? = some m := by rw [List.getElem?_eq_getElem hi, hpi]
  refine ⟨i, ⟨by omega, ?_⟩, fun i' hi' => ?_⟩
  · rw [h.1 i (by omega), hread, Option.bind_some]
  · obtain ⟨hi', hhead⟩ := hi'
    have hread' : p[i']? = some p[i'] := List.getElem?_eq_getElem (by omega)
    have hc : p[i'] < n := List.mem_range.mp (hp.mem_iff.mp (List.getElem_mem _))
    rw [h.1 i' hi', hread', Option.bind_some] at hhead
    have hsame : p[i'] = m := by
      by_contra hne
      have hold : loopNest[p[i']]? = some loopNest[p[i']] := List.getElem?_eq_getElem (by omega)
      exact init_ne hn hnodup hc hm hne hold (hhead.symm.trans hold) rfl
    apply (List.getElem?_inj (by omega) (hp.nodup_iff.mpr List.nodup_range)).mp
    rw [hread, hread', hsame]

end

theorem placesHeads_iff {n : Nat} (hpos : 0 < n) : PlacesHeads n ↔ n ≤ 20 := by
  constructor
  · intro h
    by_contra hn
    -- a nest with statements of its own in each loop
    let loopNest := (List.range n).map fun i => (⟨some i, none, none⟩ : LoopHead)
    have hinits : (loopNest.take n).map (·.init) = (List.range n).map some := by
      simp [loopNest, Function.comp_def]
    have hnodup : ((loopNest.take n).map (·.init)).Nodup := by
      rw [hinits]
      exact List.nodup_range.map (Option.some_injective _)
    have hlarge := lt_factorial (n := n) (by omega)
    by_cases h21 : n = 21
    · -- the number passes for a permutation, but not the assertion
      have hk : (2 ^ 64 - 1) < n ! := by omega
      obtain ⟨p, heads, -, hheads, -⟩ := h (2 ^ 64 - 1) hk (by decide) loopNest (by simp [loopNest])
        hnodup
      have hfails : ¬(1 < n ∧ 2 ^ 64 - 1 < myfactorial n ∧ n ≤ loopNest.length) := fun hall => by
        have hmod := Nat.mod_lt n ! (Nat.two_pow_pos 64)
        rw [myfactorial_eq] at hall
        omega
      rw [loopInterchange, if_neg (by decide), if_pos hfails] at hheads
      cases hheads
    · obtain ⟨p, heads, hp, -⟩ := h 0 (by omega) (by decide) loopNest (by simp [loopNest]) hnodup
      rw [getPermutationOrder_none (by omega)] at hp
      cases hp
  · intro hn k hk _ loopNest hlen hnodup
    have horder := getPermutationOrder_eq hpos (by omega) hk
    have hperm := arrange_perm k (List.length_range (n := n))
    have hrewritten : ∃ heads, loopInterchange loopNest n k = some heads ∧
        Rewritten loopNest (arrange k n (List.range n)) n heads := by
      by_cases hzero : k = 0
      · rw [hzero, arrange_zero List.length_range]
        refine ⟨loopNest, if_pos rfl, fun j hj => ?_, fun j _ => rfl⟩
        rw [List.getElem?_range hj, Option.bind_some]
      · have hdeep : 1 < n := by
          by_contra hone
          obtain rfl : n = 1 := by omega
          rw [Nat.factorial_one] at hk
          omega
        have hassert : ¬¬(1 < n ∧ k < myfactorial n ∧ n ≤ loopNest.length) := by
          rw [myfactorial_eq_factorial hn]
          exact not_not.mpr ⟨hdeep, hk, hlen⟩
        obtain ⟨heads, hrun, hdone⟩ := @rewritten_rewriteHeads loopNest _ n hlen hnodup hperm 0 n
          (Nat.zero_add n) loopNest ⟨fun j hj => by omega, fun j _ => rfl⟩
        refine ⟨heads, ?_, hdone⟩
        rw [loopInterchange, if_neg hzero, if_neg hassert, horder]
        exact hrun
    obtain ⟨heads, hheads, hdone⟩ := hrewritten
    exact ⟨_, heads, horder, hheads, hdone.1, hdone.2,
      fun m hm => hdone.existsUnique hlen hnodup hperm hm⟩

/-- Up to which depth the order numbers of `size_t` permute the headers of a nest as they should. -/
theorem loopInterchange_iff {n : Nat} (hpos : 0 < n) :
    (PermutesInOrder n ↔ n ≤ 21) ∧ (ReachesAll n ↔ n ≤ 20) ∧ (PlacesHeads n ↔ n ≤ 20) :=
  ⟨permutesInOrder_iff hpos, reachesAll_iff hpos, placesHeads_iff hpos⟩

theorem loopInterchange_three :
    (PermutesInOrder 3 ↔ 3 ≤ 21) ∧ (ReachesAll 3 ↔ 3 ≤ 20) ∧ (PlacesHeads 3 ↔ 3 ≤ 20) :=
  loopInterchange_iff (by decide)

/-- The number of the second permutation of 22 elements divides by zero. -/
theorem getPermutationOrder_twentytwo : getPermutationOrder 22 1 = none ∧ 1 < 22 ! := by
  exact ⟨by decide, by norm_num [Nat.factorial]⟩

end LoomX
