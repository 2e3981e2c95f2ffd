import Mathlib.Data.Finset.Card
import Mathlib.Data.List.Lex
import Mathlib.Data.List.Permutation
import Mathlib.Data.Nat.Factorial.Basic

namespace LoomX.FactorialDigits

open Nat

variable {α : Type}

/-- The permutation with a number: its digits in the factorial number system pick the elements, one
after another, out of those that are left. -/
def arrange (k : Nat) : Nat → List α → List α
  | 0, _ => []
  | m + 1, rest =>
    match rest[k / m ! % (m + 1)]? with
    | some x => x :: arrange k m (rest.eraseIdx (k / m ! % (m + 1)))
    | none => []

/-- The first digit, which element it picks and what is left. -/
theorem arrange_succ (k : Nat) {m : Nat} {rest : List α} (hlen : rest.length = m + 1) :
    ∃ x, rest[k / m ! % (m + 1)]? = some x ∧
      (rest.eraseIdx (k / m ! % (m + 1))).length = m ∧
      arrange k (m + 1) rest = x :: arrange k m (rest.eraseIdx (k / m ! % (m + 1))) := by
  have hdigit : k / m ! % (m + 1) < rest.length := by
    rw [hlen]
    exact Nat.mod_lt _ (Nat.succ_pos m)
  refine ⟨rest[k / m ! % (m + 1)], List.getElem?_eq_getElem hdigit, ?_, ?_⟩
  · rw [List.length_eraseIdx_of_lt hdigit, hlen, Nat.add_sub_cancel]
  · rw [arrange, List.getElem?_eq_getElem hdigit]

theorem arrange_perm (k : Nat) {m : Nat} {rest : List α} (hlen : rest.length = m) :
    (arrange k m rest).Perm rest := by
  induction m generalizing rest with
  | zero =>
    rw [List.length_eq_zero_iff.mp hlen]
    exact List.Perm.nil
  | succ m ih =>
    obtain ⟨x, hx, hrest, harrange⟩ := arrange_succ k hlen
    obtain ⟨hdigit, rfl⟩ := List.getElem?_eq_some_iff.mp hx
    rw [harrange]
    exact ((ih hrest).cons _).trans (List.getElem_cons_eraseIdx_perm hdigit)

/-- The digits after the first one are those of the remainder. -/
theorem arrange_mod (k : Nat) (m : Nat) (rest : List α) :
    arrange (k % m !) m rest = arrange k m rest := by
  induction m generalizing rest k with
  | zero => rfl
  | succ m ih =>
    have hdigit : k % (m + 1)! / m ! % (m + 1) = k / m ! % (m + 1) := by
      rw [Nat.factorial_succ, Nat.mul_comm (m + 1), Nat.mod_mul_right_div_self, Nat.mod_mod]
    have hrest (l : List α) : arrange (k % (m + 1)!) m l = arrange k m l := by
      rw [← ih (k % (m + 1)!), Nat.mod_mod_of_dvd k (Nat.factorial_dvd_factorial (Nat.le_succ m)), ih]
    rw [arrange, arrange, hdigit]
    cases rest[k / m ! % (m + 1)]? with
    | none => rfl
    | some x => rw [hrest]

theorem arrange_zero {m : Nat} {rest : List α} (hlen : rest.length = m) :
    arrange 0 m rest = rest := by
  induction m generalizing rest with
  | zero => exact (List.length_eq_zero_iff.mp hlen).symm
  | succ m ih =>
    cases rest with
    | nil => cases hlen
    | cons x rest =>
      have hlen : rest.length = m := by simpa using hlen
      simp [arrange, ih hlen]

section

variable [LinearOrder α]

/-- Of a strictly increasing list, greater numbers give lexicographically greater arrangements. -/
theorem arrange_lt {m : Nat} {rest : List α} (hsorted : rest.Pairwise (· < ·))
    (hlen : rest.length = m) {k k' : Nat} (hk : k < k') (hk' : k' < m !) :
    arrange k m rest < arrange k' m rest := by
  induction m generalizing rest k k' with
  | zero =>
    rw [Nat.factorial_zero] at hk'
    omega
  | succ m ih =>
    obtain ⟨x, hx, hrest, harrange⟩ := arrange_succ k hlen
    obtain ⟨x', hx', hrest', harrange'⟩ := arrange_succ k' hlen
    rw [harrange, harrange']
    have hpos := Nat.factorial_pos m
    have hfirst : k' / m ! < m + 1 := by
      rw [Nat.factorial_succ] at hk'
      exact Nat.div_lt_of_lt_mul (by rwa [Nat.mul_comm] at hk')
    have hle : k / m ! ≤ k' / m ! := Nat.div_le_div_right hk.le
    rw [Nat.mod_eq_of_lt (hle.trans_lt hfirst)] at hx hrest ⊢
    rw [Nat.mod_eq_of_lt hfirst] at hx' hrest' ⊢
    obtain hlt | heq := Nat.lt_or_eq_of_le hle
    · obtain ⟨hi, rfl⟩ := List.getElem?_eq_some_iff.mp hx
      obtain ⟨hi', rfl⟩ := List.getElem?_eq_some_iff.mp hx'
      exact List.Lex.rel (List.pairwise_iff_getElem.mp hsorted _ _ hi hi' hlt)
    · rw [heq] at hx hrest ⊢
      rw [hx] at hx'
      obtain rfl := Option.some.inj hx'
      apply List.Lex.cons
      rw [← arrange_mod k, ← arrange_mod k']
      have hkmod := Nat.div_add_mod k m !
      have hkmod' := Nat.div_add_mod k' m !
      rw [heq] at hkmod
      exact ih (hsorted.sublist (List.eraseIdx_sublist _ _)) hrest (by omega)
        (Nat.mod_lt _ hpos)

theorem arrange_injOn {rest : List α} (hsorted : rest.Pairwise (· < ·)) {k k' : Nat}
    (hk : k < rest.length !) (hk' : k' < rest.length !)
    (h : arrange k rest.length rest = arrange k' rest.length rest) : k = k' := by
  obtain hlt | heq | hgt := Nat.lt_trichotomy k k'
  · exact absurd h (arrange_lt hsorted rfl hlt hk').ne
  · exact heq
  · exact absurd h.symm (arrange_lt hsorted rfl hgt hk).ne

/-- Every permutation has its number. -/
theorem exists_arrange {rest : List α} (hsorted : rest.Pairwise (· < ·)) {l : List α}
    (hl : l.Perm rest) : ∃ k < rest.length !, arrange k rest.length rest = l := by
  have himage : (Finset.range rest.length !).image (arrange · rest.length rest) =
      rest.permutations.toFinset := by
    apply Finset.eq_of_subset_of_card_le
    · intro l' hl'
      obtain ⟨k, -, rfl⟩ := Finset.mem_image.mp hl'
      exact List.mem_toFinset.mpr (List.mem_permutations.mpr (arrange_perm k rfl))
    · rw [Finset.card_image_of_injOn fun k hk k' hk' => arrange_injOn hsorted
        (Finset.mem_range.mp hk) (Finset.mem_range.mp hk'), Finset.card_range]
      exact (List.toFinset_card_le _).trans (List.length_permutations rest).le
  have hmem : l ∈ rest.permutations.toFinset :=
    List.mem_toFinset.mpr (List.mem_permutations.mpr hl)
  rw [← himage] at hmem
  obtain ⟨k, hk, hkl⟩ := Finset.mem_image.mp hmem
  exact ⟨k, Finset.mem_range.mp hk, hkl⟩

end

end LoomX.FactorialDigits
