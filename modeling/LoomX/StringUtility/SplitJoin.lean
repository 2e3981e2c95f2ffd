import LoomX.StringUtility.Escape
import Mathlib.Data.List.DropRight
import Mathlib.Data.List.Infix

namespace LoomX.StringUtility

/-- What is before and after the first occurrence of the separator. -/
def cut (separator : Bytes) : Bytes → Option (Bytes × Bytes)
  | [] => if separator = [] then some ([], []) else none
  | ch :: s =>
    if separator <+: ch :: s then some ([], (ch :: s).drop separator.length)
    else (cut separator s).map fun r => (ch :: r.1, r.2)

/-- The loop of `split` from a position on, where so many parts may still be cut off. -/
def splitLoop (separator : Bytes) : Nat → Bytes → List Bytes
  | 0, s => if s = [] then [] else [s]
  | _ + 1, [] => [[]]
  | left + 1, s =>
    match cut separator s with
    | none => [s]
    | some (part, rest) => part :: splitLoop separator left rest

def whiteSpace : Bytes := [32, 9, 13, 10]

def trim (str strip : Bytes) (atBeginning atEnd : Bool) : Bytes :=
  let str := if atBeginning then str.dropWhile (· ∈ strip) else str
  if atEnd then str.rdropWhile (· ∈ strip) else str

def split (separator str : Bytes) (maxparts : Nat) (trimWhiteSpace : Bool) : List Bytes :=
  if maxparts = 0 ∨ str = [] then []
  else
    let parts :=
      if separator = [] then
        (str.take (maxparts - 1)).map ([·]) ++ [str.drop (maxparts - 1)]
      else splitLoop separator (maxparts - 1) str
    if trimWhiteSpace then parts.map (trim · whiteSpace true true) else parts

def join (separator : Bytes) : List Bytes → Bytes
  | [] => []
  | part :: parts => part ++ parts.flatMap (separator ++ ·)

/-- What follows the first occurrences of the separator, when there are so many. -/
def afterSeparators (separator : Bytes) : Nat → Bytes → Option Bytes
  | 0, s => some s
  | n + 1, s =>
    match cut separator s with
    | none => none
    | some (_, rest) => afterSeparators separator n rest

section
variable {separator s part rest : Bytes}

theorem cut_eq (h : cut separator s = some (part, rest)) : s = part ++ (separator ++ rest) := by
  induction s generalizing part with
  | nil =>
    rw [cut] at h
    split at h
    next hnil =>
      obtain ⟨rfl, rfl⟩ := Prod.mk.inj (Option.some.inj h)
      rw [hnil]
      rfl
    next => cases h
  | cons ch s ih =>
    rw [cut] at h
    split at h
    next hprefix =>
      obtain ⟨rfl, rfl⟩ := Prod.mk.inj (Option.some.inj h)
      exact (List.prefix_append_drop hprefix)
    next =>
      obtain ⟨⟨part', rest'⟩, hcut, hr⟩ := Option.map_eq_some_iff.1 h
      obtain ⟨rfl, rfl⟩ := Prod.mk.inj hr
      rw [ih hcut]
      rfl

theorem cut_nil (h : separator ≠ []) : cut separator [] = none := if_neg h

theorem splitLoop_succ (left : Nat) (hs : s ≠ []) :
    splitLoop separator (left + 1) s =
      match cut separator s with
      | none => [s]
      | some (part, rest) => part :: splitLoop separator left rest := by
  cases s with
  | nil => exact absurd rfl hs
  | cons ch s => rfl

theorem splitLoop_length (left : Nat) (s : Bytes) :
    (splitLoop separator left s).length ≤ left + 1 := by
  induction left generalizing s with
  | zero =>
    rw [splitLoop]
    split <;> simp
  | succ left ih =>
    cases s with
    | nil => simp [splitLoop]
    | cons ch s =>
      rw [splitLoop_succ left (by simp)]
      split
      next => simp
      next part rest _ => simpa using ih rest

theorem join_cons (separator part : Bytes) {parts : List Bytes} (h : parts ≠ []) :
    join separator (part :: parts) = part ++ (separator ++ join separator parts) := by
  cases parts with
  | nil => exact absurd rfl h
  | cons part' parts => simp only [join, List.flatMap_cons, List.append_assoc]

theorem splitLoop_ne_nil {left : Nat} (h : 0 < left ∨ s ≠ []) : splitLoop separator left s ≠ [] := by
  cases left with
  | zero =>
    have hs : s ≠ [] := by simpa using h
    rw [splitLoop, if_neg hs]
    exact List.cons_ne_nil _ _
  | succ left =>
    cases s with
    | nil => exact List.cons_ne_nil _ _
    | cons ch s =>
      rw [splitLoop_succ left (by simp)]
      split <;> exact List.cons_ne_nil _ _

theorem join_splitLoop (left : Nat) (s : Bytes) (h : afterSeparators separator left s ≠ some []) :
    join separator (splitLoop separator left s) = s := by
  induction left generalizing s with
  | zero =>
    have hs : s ≠ [] := fun hnil => h (congrArg some hnil)
    rw [splitLoop, if_neg hs]
    exact List.append_nil s
  | succ left ih =>
    cases s with
    | nil => rfl
    | cons ch s =>
      rw [splitLoop_succ left (by simp)]
      rw [afterSeparators] at h
      cases hcut : cut separator (ch :: s) with
      | none => exact List.append_nil _
      | some r =>
        obtain ⟨part, rest⟩ := r
        simp only [hcut] at h ⊢
        have hne : splitLoop separator left rest ≠ [] := by
          apply splitLoop_ne_nil
          cases left with
          | zero => exact .inr fun hnil => h (congrArg some hnil)
          | succ left => exact .inl (Nat.succ_pos left)
        rw [join_cons separator part hne, ih rest h]
        exact (cut_eq hcut).symm

/-- The part after a separator at the end is missing where the limit is reached there. -/
theorem join_splitLoop_append (left : Nat) (s : Bytes) (hs : s ≠ [])
    (h : afterSeparators separator left s = some []) (hsep : separator ≠ []) :
    join separator (splitLoop separator left s) ++ separator = s := by
  induction left generalizing s with
  | zero => exact absurd (Option.some.inj h) hs
  | succ left ih =>
    rw [splitLoop_succ left hs]
    rw [afterSeparators] at h
    cases hcut : cut separator s with
    | none => simp [hcut] at h
    | some r =>
      obtain ⟨part, rest⟩ := r
      simp only [hcut] at h ⊢
      rw [cut_eq hcut]
      cases left with
      | zero =>
        obtain rfl : rest = [] := Option.some.inj h
        simp [splitLoop, join]
      | succ left =>
        have hrest : rest ≠ [] := by
          rintro rfl
          simp [afterSeparators, cut_nil hsep] at h
        rw [join_cons separator part (splitLoop_ne_nil (.inl (Nat.succ_pos left))),
          List.append_assoc, List.append_assoc, ih rest hrest h]

end

theorem split_eq {separator str : Bytes} {maxparts : Nat} (hsep : separator ≠ [])
    (hmax : 1 ≤ maxparts) (hstr : str ≠ []) :
    split separator str maxparts false = splitLoop separator (maxparts - 1) str := by
  have hgo : ¬(maxparts = 0 ∨ str = []) := by
    rintro (hzero | hnil)
    · omega
    · exact hstr hnil
  rw [split, if_neg hgo]
  simp only [if_neg hsep, Bool.false_eq_true, ↓reduceIte]

/-- The parts are as few as wanted and make up the string, unless the string ends with the last
separator that may be found: then the empty part after it is missing. -/
theorem split_join_iff (separator str : Bytes) (maxparts : Nat) (hsep : separator ≠ [])
    (hmax : 1 ≤ maxparts) :
    ((split separator str maxparts false).length ≤ maxparts ∧
        (str ≠ [] → join separator (split separator str maxparts false) = str)) ↔
      str = [] ∨ afterSeparators separator (maxparts - 1) str ≠ some [] := by
  by_cases hstr : str = []
  · have hnil : split separator str maxparts false = [] := if_pos (.inr hstr)
    rw [hnil]
    simp [hstr]
  · have hlen : (splitLoop separator (maxparts - 1) str).length ≤ maxparts := by
      have hle : (splitLoop separator (maxparts - 1) str).length ≤ maxparts - 1 + 1 :=
        splitLoop_length _ str
      omega
    rw [split_eq hsep hmax hstr]
    constructor
    · rintro ⟨-, hjoin⟩
      refine .inr fun hend => hsep ?_
      have happ := join_splitLoop_append _ str hstr hend hsep
      rw [hjoin hstr] at happ
      exact List.append_right_eq_self.1 happ
    · rintro (hnil | hend)
      · exact absurd hnil hstr
      · exact ⟨hlen, fun _ => join_splitLoop _ str hend⟩

theorem split_join_iff_comma :
    ((split [44] [97, 44, 98] 2 false).length ≤ 2 ∧
        ([97, 44, 98] ≠ ([] : Bytes) →
          join [44] (split [44] [97, 44, 98] 2 false) = [97, 44, 98])) ↔
      ([97, 44, 98] : Bytes) = [] ∨ afterSeparators [44] (2 - 1) [97, 44, 98] ≠ some [] :=
  split_join_iff [44] [97, 44, 98] 2 (by decide) (by decide)

/-- `a,` is one part without its comma when two parts are allowed. -/
theorem split_join_trailing :
    split [44] [97, 44] 2 false = [[97]] ∧
      join [44] (split [44] [97, 44] 2 false) ≠ [97, 44] := by
  decide

end LoomX.StringUtility
