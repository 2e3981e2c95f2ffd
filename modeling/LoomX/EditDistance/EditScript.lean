import Mathlib.Data.List.Basic
import Mathlib.Order.Bounds.Basic

namespace LoomX.EditDistance

variable {α : Type} {swaps : Prop}

/-- One edit of a list at any place: adjacent elements are swapped only if `swaps` allows it. -/
inductive Edit (swaps : Prop) : List α → List α → Prop
  | insert (y : α) (l : List α) : Edit swaps l (y :: l)
  | delete (x : α) (l : List α) : Edit swaps (x :: l) l
  | substitute (x y : α) (l : List α) : Edit swaps (x :: l) (y :: l)
  | swap (x y : α) (l : List α) : swaps → Edit swaps (x :: y :: l) (y :: x :: l)
  | behind (x : α) {l l' : List α} : Edit swaps l l' → Edit swaps (x :: l) (x :: l')

/-- So many edits one after another. -/
inductive Script (swaps : Prop) : Nat → List α → List α → Prop
  | nil (l : List α) : Script swaps 0 l l
  | step {k : Nat} {a b c : List α} : Script swaps k a b → Edit swaps b c → Script swaps (k + 1) a c

/-- The lists cut into blocks of which each is edited on its own, with the number of edits; a block
with a swap may lose elements between the swapped ones before and get others after. -/
inductive Blocks (swaps : Prop) : List α → List α → Nat → Prop
  | nil : Blocks swaps [] [] 0
  | keep (x : α) {a b : List α} {n : Nat} : Blocks swaps a b n → Blocks swaps (x :: a) (x :: b) n
  | substitute (x y : α) {a b : List α} {n : Nat} :
    Blocks swaps a b n → Blocks swaps (x :: a) (y :: b) (n + 1)
  | delete (x : α) {a b : List α} {n : Nat} : Blocks swaps a b n → Blocks swaps (x :: a) b (n + 1)
  | insert (y : α) {a b : List α} {n : Nat} : Blocks swaps a b n → Blocks swaps a (y :: b) (n + 1)
  | swap (x y : α) (u v : List α) {a b : List α} {n : Nat} : swaps → Blocks swaps a b n →
    Blocks swaps (x :: (u ++ y :: a)) (y :: (v ++ x :: b)) (n + u.length + v.length + 1)

/-- The lists can be cut into blocks so that at most `n` edits are needed. -/
def Within (swaps : Prop) (a b : List α) (n : Nat) : Prop := ∃ m ≤ n, Blocks swaps a b m

section

variable {a b c : List α} {m n : Nat}

theorem Blocks.within (h : Blocks swaps a b n) : Within swaps a b n := ⟨n, Nat.le_refl n, h⟩

namespace Within

theorem mono (h : Within swaps a b m) (hle : m ≤ n) : Within swaps a b n := by
  obtain ⟨k, hk, hblocks⟩ := h
  exact ⟨k, hk.trans hle, hblocks⟩

theorem keep (x : α) (h : Within swaps a b n) : Within swaps (x :: a) (x :: b) n := by
  obtain ⟨k, hk, hblocks⟩ := h
  exact ⟨k, hk, hblocks.keep x⟩

theorem substitute (x y : α) (h : Within swaps a b n) : Within swaps (x :: a) (y :: b) (n + 1) := by
  obtain ⟨k, hk, hblocks⟩ := h
  exact ⟨k + 1, by omega, hblocks.substitute x y⟩

theorem delete (x : α) (h : Within swaps a b n) : Within swaps (x :: a) b (n + 1) := by
  obtain ⟨k, hk, hblocks⟩ := h
  exact ⟨k + 1, by omega, hblocks.delete x⟩

theorem insert (y : α) (h : Within swaps a b n) : Within swaps a (y :: b) (n + 1) := by
  obtain ⟨k, hk, hblocks⟩ := h
  exact ⟨k + 1, by omega, hblocks.insert y⟩

theorem swap (x y : α) (u v : List α) (hswaps : swaps) (h : Within swaps a b n) :
    Within swaps (x :: (u ++ y :: a)) (y :: (v ++ x :: b)) (n + u.length + v.length + 1) := by
  obtain ⟨k, hk, hblocks⟩ := h
  exact ⟨k + u.length + v.length + 1, by omega, hblocks.swap x y u v hswaps⟩

theorem deleteAll (u : List α) (h : Within swaps a b n) :
    Within swaps (u ++ a) b (n + u.length) := by
  induction u with
  | nil => exact h
  | cons x u ih => exact ih.delete x

theorem insertAll (v : List α) (h : Within swaps a b n) :
    Within swaps a (v ++ b) (n + v.length) := by
  induction v with
  | nil => exact h
  | cons y v ih => exact ih.insert y

end Within

theorem Blocks.symm (h : Blocks swaps a b n) : Blocks swaps b a n := by
  induction h with
  | nil => exact .nil
  | keep x _ ih => exact ih.keep x
  | substitute x y _ ih => exact ih.substitute y x
  | delete x _ ih => exact ih.insert x
  | insert y _ ih => exact ih.delete y
  | swap x y u v hswaps _ ih =>
    have hblocks := ih.swap y x v u hswaps
    rwa [Nat.add_right_comm _ v.length] at hblocks

theorem Within.symm (h : Within swaps a b n) : Within swaps b a n := by
  obtain ⟨k, hk, hblocks⟩ := h
  exact ⟨k, hk, hblocks.symm⟩

theorem blocks_self (a : List α) : Blocks swaps a a 0 := by
  induction a with
  | nil => exact .nil
  | cons x a ih => exact ih.keep x

/-- The first element of the target is new, or it is kept after elements that are deleted. -/
theorem Blocks.head_cases {z : α} (h : Blocks swaps a (z :: b) n) :
    Within swaps a b n ∨ ∃ w a' m, a = w ++ z :: a' ∧ Blocks swaps a' b m ∧ n = m + w.length := by
  generalize ht : z :: b = t at h
  induction h with
  | nil => cases ht
  | keep x h _ =>
    cases ht
    exact Or.inr ⟨[], _, _, rfl, h, rfl⟩
  | substitute x y h _ =>
    cases ht
    exact Or.inl (h.within.delete x)
  | delete x h ih =>
    rcases ih ht with hwithin | ⟨w, a', m, rfl, hblocks, rfl⟩
    · exact Or.inl (hwithin.delete x)
    · exact Or.inr ⟨x :: w, a', m, rfl, hblocks, rfl⟩
  | insert y h _ =>
    cases ht
    exact Or.inl (h.within.mono (Nat.le_succ _))
  | swap x y u v hswaps h _ =>
    cases ht
    have hrest := ((h.within.delete z).deleteAll u).keep x
    exact Or.inl ((hrest.insertAll v).mono (by omega))

theorem Blocks.tail {z : α} (h : Blocks swaps a (z :: b) n) : Within swaps a b (n + 1) := by
  rcases h.head_cases with hwithin | ⟨w, a', m, rfl, hblocks, rfl⟩
  · exact hwithin.mono (Nat.le_succ n)
  · exact ((hblocks.within.delete _).deleteAll w).mono (by omega)

theorem Blocks.replaceHead {z : α} (y : α) (h : Blocks swaps a (z :: b) n) :
    Within swaps a (y :: b) (n + 1) := by
  rcases h.head_cases with hwithin | ⟨w, a', m, rfl, hblocks, rfl⟩
  · exact hwithin.insert y
  · exact ((hblocks.within.substitute z y).deleteAll w).mono (by omega)

/-- An element put after the first one. -/
theorem Blocks.insertSecond {z : α} (y : α) (h : Blocks swaps a (z :: b) n) :
    Within swaps a (z :: y :: b) (n + 1) := by
  generalize ht : z :: b = t at h
  induction h with
  | nil => cases ht
  | keep x h _ =>
    cases ht
    exact (h.within.insert y).keep z
  | substitute x _ h _ =>
    cases ht
    exact (h.within.insert y).substitute x z
  | delete x h ih => exact (ih ht).delete x
  | insert _ h _ =>
    cases ht
    exact (h.within.insert y).insert z
  | swap x _ u v hswaps h _ =>
    cases ht
    exact (h.within.swap x z u (y :: v) hswaps).mono (by simp only [List.length_cons]; omega)

/-- The first two elements of the target swapped. -/
theorem Blocks.swapHead {y z : α} (hswaps : swaps) (h : Blocks swaps a (y :: z :: b) n) :
    Within swaps a (z :: y :: b) (n + 1) := by
  generalize ht : y :: z :: b = t at h
  induction h with
  | nil => cases ht
  | keep x h _ =>
    cases ht
    rcases h.head_cases with hwithin | ⟨w, a', m, rfl, hblocks, rfl⟩
    · exact (hwithin.keep y).insert z
    · exact (hblocks.within.swap y z w [] hswaps).mono (by simp)
  | substitute x _ h _ =>
    cases ht
    exact (h.replaceHead y).substitute x z
  | delete x h ih => exact (ih ht).delete x
  | insert _ h _ =>
    cases ht
    exact (h.insertSecond y).mono (by omega)
  | swap x _ u v _ h _ =>
    cases v with
    | nil =>
      cases ht
      exact (((h.within.keep y).deleteAll u).keep z).mono (by simp only [List.length_nil]; omega)
    | cons _ v =>
      cases ht
      exact ((h.within.swap x y u v hswaps).insert z).mono (by simp only [List.length_cons]; omega)

theorem Edit.cons_cases {y : α} (h : Edit swaps (y :: b) c) :
    (∃ z, c = z :: y :: b) ∨ c = b ∨ (∃ z, c = z :: b) ∨
      (swaps ∧ ∃ z b', b = z :: b' ∧ c = z :: y :: b') ∨ ∃ b', Edit swaps b b' ∧ c = y :: b' := by
  cases h with
  | insert z => exact Or.inl ⟨z, rfl⟩
  | delete => exact Or.inr (Or.inl rfl)
  | substitute _ z => exact Or.inr (Or.inr (Or.inl ⟨z, rfl⟩))
  | swap _ z b' hswaps => exact Or.inr (Or.inr (Or.inr (Or.inl ⟨hswaps, z, b', rfl, rfl⟩)))
  | behind _ hb => exact Or.inr (Or.inr (Or.inr (Or.inr ⟨_, hb, rfl⟩)))

/-- Where an edit is with respect to one of the elements. -/
theorem Edit.append_cases {x : α} {v : List α} (h : Edit swaps (v ++ x :: b) c) :
    (∃ v', c = v' ++ x :: b ∧ v'.length ≤ v.length + 1) ∨ c = v ++ b ∨ (∃ z, c = v ++ z :: b) ∨
      (∃ v' z, v = v' ++ [z] ∧ c = v' ++ x :: z :: b) ∨
      (swaps ∧ ∃ z b', b = z :: b' ∧ c = v ++ z :: x :: b') ∨
      ∃ b', Edit swaps b b' ∧ c = v ++ x :: b' := by
  induction v generalizing c with
  | nil =>
    rcases h.cons_cases with ⟨z, hc⟩ | hc | hc | hc | hc
    · exact Or.inl ⟨[z], hc, by simp⟩
    · exact Or.inr (Or.inl hc)
    · exact Or.inr (Or.inr (Or.inl hc))
    · exact Or.inr (Or.inr (Or.inr (Or.inr (Or.inl hc))))
    · exact Or.inr (Or.inr (Or.inr (Or.inr (Or.inr hc))))
  | cons y v ih =>
    rcases h.cons_cases with ⟨z, rfl⟩ | rfl | ⟨z, rfl⟩ | ⟨-, z, b', hb, rfl⟩ | ⟨c', hc', rfl⟩
    · exact Or.inl ⟨z :: y :: v, rfl, by simp⟩
    · exact Or.inl ⟨v, rfl, by simp only [List.length_cons]; omega⟩
    · exact Or.inl ⟨z :: v, rfl, by simp⟩
    · cases v with
      | nil =>
        cases hb
        exact Or.inr (Or.inr (Or.inr (Or.inl ⟨[], y, rfl, rfl⟩)))
      | cons _ v =>
        cases hb
        exact Or.inl ⟨z :: y :: v, rfl, by simp⟩
    · rcases ih hc' with ⟨v', rfl, hlen⟩ | rfl | ⟨z, rfl⟩ | ⟨v', z, rfl, rfl⟩ |
        ⟨hswaps, z, b', rfl, rfl⟩ | ⟨b', hb', rfl⟩
      · exact Or.inl ⟨y :: v', rfl, by simpa using hlen⟩
      · exact Or.inr (Or.inl rfl)
      · exact Or.inr (Or.inr (Or.inl ⟨z, rfl⟩))
      · exact Or.inr (Or.inr (Or.inr (Or.inl ⟨y :: v', z, rfl, rfl⟩)))
      · exact Or.inr (Or.inr (Or.inr (Or.inr (Or.inl ⟨hswaps, z, b', rfl, rfl⟩))))
      · exact Or.inr (Or.inr (Or.inr (Or.inr (Or.inr ⟨b', hb', rfl⟩))))

/-- A block with a swap without the swap: the element that moves back is deleted. -/
theorem Within.unswap {y : α} (x : α) (u v : List α) (h : Within swaps a b n) :
    Within swaps (x :: (u ++ y :: a)) (y :: (v ++ b)) (n + u.length + v.length + 1) :=
  ((((h.insertAll v).keep y).deleteAll u).delete x).mono (by omega)

/-- An edit of the target within a block with a swap, behind the first element. -/
theorem Blocks.editSwap {x y : α} {u v : List α} (hswaps : swaps) (h : Blocks swaps a b n)
    (ih : ∀ c, Edit swaps b c → Within swaps a c (n + 1)) (he : Edit swaps (v ++ x :: b) c) :
    Within swaps (x :: (u ++ y :: a)) (y :: c) (n + u.length + v.length + 1 + 1) := by
  rcases he.append_cases with ⟨v', rfl, hlen⟩ | rfl | ⟨z, rfl⟩ | ⟨v', z, rfl, rfl⟩ |
    ⟨-, z, b', rfl, rfl⟩ | ⟨b', hb', rfl⟩
  · exact (h.within.swap x y u v' hswaps).mono (by omega)
  · exact (h.within.unswap x u v).mono (by omega)
  · exact ((h.within.insert z).unswap x u v).mono (by omega)
  · exact ((h.within.insert z).swap x y u v' hswaps).mono
      (by simp only [List.length_append, List.length_singleton]; omega)
  · -- the element behind the block goes into it, unless it is kept and the swap is given up
    rcases h.head_cases with hwithin | ⟨w, a', m, rfl, hblocks, rfl⟩
    · have hswap := hwithin.swap x y u (v ++ [z]) hswaps
      rw [List.append_assoc, List.singleton_append] at hswap
      exact hswap.mono (by simp only [List.length_append, List.length_singleton]; omega)
    · have hkept := (((hblocks.within.insert x).keep z).deleteAll w)
      exact (hkept.unswap x u v).mono (by omega)
  · exact ((ih b' hb').swap x y u v hswaps).mono (by omega)

/-- An edit of the target takes at most one edit more. -/
theorem Blocks.edit (h : Blocks swaps a b n) (he : Edit swaps b c) : Within swaps a c (n + 1) := by
  induction h generalizing c with
  | nil =>
    cases he with
    | insert y => exact Blocks.nil.within.insert y
  | keep x h ih =>
    rcases he.cons_cases with ⟨z, rfl⟩ | rfl | ⟨z, rfl⟩ | ⟨hswaps, z, b', rfl, rfl⟩ | ⟨b', hb', rfl⟩
    · exact (h.keep x).within.insert z
    · exact h.within.delete x
    · exact h.within.substitute x z
    · exact (h.keep x).swapHead hswaps
    · exact (ih hb').keep x
  | substitute x y h ih =>
    rcases he.cons_cases with ⟨z, rfl⟩ | rfl | ⟨z, rfl⟩ | ⟨hswaps, z, b', rfl, rfl⟩ | ⟨b', hb', rfl⟩
    · exact (h.substitute x y).within.insert z
    · exact (h.substitute x y).tail
    · exact (h.substitute x y).replaceHead z
    · exact (h.substitute x y).swapHead hswaps
    · exact (ih hb').substitute x y
  | delete x h ih => exact (ih he).delete x
  | insert y h ih =>
    rcases he.cons_cases with ⟨z, rfl⟩ | rfl | ⟨z, rfl⟩ | ⟨hswaps, z, b', rfl, rfl⟩ | ⟨b', hb', rfl⟩
    · exact (h.insert y).within.insert z
    · exact h.within.mono (by omega)
    · exact (h.insert y).replaceHead z
    · exact (h.insert y).swapHead hswaps
    · exact (ih hb').insert y
  | swap x y u v hswaps h ih =>
    rcases he.cons_cases with ⟨z, rfl⟩ | rfl | ⟨z, rfl⟩ | ⟨-, z, b', hb, rfl⟩ | ⟨b', hb', rfl⟩
    · exact (h.swap x y u v hswaps).within.insert z
    · exact (h.swap x y u v hswaps).tail
    · exact (h.swap x y u v hswaps).replaceHead z
    · have hblocks := h.swap x y u v hswaps
      rw [hb] at hblocks
      exact hblocks.swapHead hswaps
    · exact h.editSwap hswaps (fun c hc => ih hc) hb'

theorem Script.within {k : Nat} (h : Script swaps k a b) : Within swaps a b k := by
  induction h with
  | nil l => exact (blocks_self l).within
  | step _ he ih =>
    obtain ⟨m, hm, hblocks⟩ := ih
    exact (hblocks.edit he).mono (by omega)

theorem Script.trans {k l : Nat} (h : Script swaps k a b) (h' : Script swaps l b c) :
    Script swaps (k + l) a c := by
  induction h' with
  | nil => exact h
  | step _ he ih => exact (ih h).step he

theorem Edit.script (h : Edit swaps a b) : Script swaps 1 a b := (Script.nil a).step h

theorem Script.behind {k : Nat} (x : α) (h : Script swaps k a b) :
    Script swaps k (x :: a) (x :: b) := by
  induction h with
  | nil l => exact .nil (x :: l)
  | step _ he ih => exact ih.step (he.behind x)

theorem Script.after {k : Nat} (p : List α) (h : Script swaps k a b) :
    Script swaps k (p ++ a) (p ++ b) := by
  induction p with
  | nil => exact h
  | cons x p ih => exact ih.behind x

theorem script_deleteAll (u a : List α) : Script swaps u.length (u ++ a) a := by
  induction u with
  | nil => exact .nil a
  | cons x u ih =>
    rw [List.length_cons, Nat.add_comm]
    exact (Edit.delete x (u ++ a)).script.trans ih

theorem script_insertAll (v b : List α) : Script swaps v.length b (v ++ b) := by
  induction v with
  | nil => exact .nil b
  | cons y v ih => exact ih.step (.insert y (v ++ b))

/-- The blocks are edited one after another. -/
theorem Blocks.script (h : Blocks swaps a b n) : Script swaps n a b := by
  induction h with
  | nil => exact .nil []
  | keep x _ ih => exact ih.behind x
  | substitute x y _ ih => exact (ih.behind x).step (.substitute x y _)
  | delete x _ ih => exact (ih.behind x).step (.delete x _)
  | insert y _ ih => exact ih.step (.insert y _)
  | @swap x y u v a b n hswaps _ ih =>
    have hrest : Script swaps n (x :: (u ++ y :: a)) (x :: (u ++ y :: b)) :=
      ((ih.behind y).after u).behind x
    have hdelete : Script swaps u.length (x :: (u ++ y :: b)) (x :: y :: b) :=
      (script_deleteAll u (y :: b)).behind x
    have hinsert : Script swaps v.length (y :: x :: b) (y :: (v ++ x :: b)) :=
      (script_insertAll v (x :: b)).behind y
    have hscript := ((hrest.trans hdelete).step (.swap x y b hswaps)).trans hinsert
    rwa [Nat.add_right_comm _ 1] at hscript

/-- The least number of edits is that of the best blocks. -/
theorem isLeast_script_iff {d : Nat} :
    IsLeast {k | Script swaps k a b} d ↔ IsLeast {k | Blocks swaps a b k} d := by
  constructor
  · rintro ⟨hd, hle⟩
    obtain ⟨m, hm, hblocks⟩ := Script.within hd
    have heq : m = d := le_antisymm hm (hle hblocks.script)
    exact ⟨heq ▸ hblocks, fun k hk => hle (Blocks.script hk)⟩
  · rintro ⟨hd, hle⟩
    refine ⟨Blocks.script hd, fun k hk => ?_⟩
    obtain ⟨m, hm, hblocks⟩ := Script.within hk
    exact (hle hblocks).trans hm

theorem Edit.append (r : List α) (h : Edit swaps a b) : Edit swaps (a ++ r) (b ++ r) := by
  induction h with
  | insert y l => exact .insert y (l ++ r)
  | delete x l => exact .delete x (l ++ r)
  | substitute x y l => exact .substitute x y (l ++ r)
  | swap x y l hswaps => exact .swap x y (l ++ r) hswaps
  | behind x _ ih => exact ih.behind x

theorem Edit.after (p : List α) (h : Edit swaps a b) : Edit swaps (p ++ a) (p ++ b) := by
  induction p with
  | nil => exact h
  | cons x p ih => exact ih.behind x

theorem Edit.reverse (h : Edit swaps a b) : Edit swaps a.reverse b.reverse := by
  induction h with
  | insert y l => simpa using (Edit.insert y []).after l.reverse
  | delete x l => simpa using (Edit.delete x []).after l.reverse
  | substitute x y l => simpa using (Edit.substitute x y []).after l.reverse
  | swap x y l hswaps => simpa using (Edit.swap y x [] hswaps).after l.reverse
  | behind x _ ih => simpa using ih.append [x]

theorem Script.reverse {k : Nat} (h : Script swaps k a b) : Script swaps k a.reverse b.reverse := by
  induction h with
  | nil l => exact .nil l.reverse
  | step _ he ih => exact ih.step he.reverse

theorem script_reverse_iff {k : Nat} :
    Script swaps k a.reverse b.reverse ↔ Script swaps k a b := by
  refine ⟨fun h => ?_, Script.reverse⟩
  have hreverse := h.reverse
  rwa [List.reverse_reverse, List.reverse_reverse] at hreverse

end

end LoomX.EditDistance
