import Mathlib.Data.List.Perm.Basic
import Mathlib.Logic.Function.Basic

namespace LoomX

/-- Steps that read and change a shared state and an accumulator; `none` is a step that does not
end. -/
abbrev AccStep (κ ρ M : Type) := κ → ρ → M → Option (ρ × M)

namespace AccStep

variable {κ ρ M : Type} (F : AccStep κ ρ M)

def runAll : List κ → ρ → M → Option (ρ × M)
  | [], r, m => some (r, m)
  | k :: ks, r, m => (F k r m).bind fun p => runAll ks p.1 p.2

/-- Runs the steps in the order of the schedule, each on the accumulator of its thread. -/
def runThreads : List (Nat × κ) → ρ → (Nat → M) → Option (ρ × (Nat → M))
  | [], r, acc => some (r, acc)
  | (t, k) :: rest, r, acc =>
    (F k r (acc t)).bind fun p => runThreads rest p.1 (Function.update acc t p.2)

/-- Combining a value into the accumulator before a step is combining it afterwards. -/
def Translates (op : M → M → M) : Prop :=
  ∀ k r a m, F k r (op a m) = (F k r m).map fun p => (p.1, op a p.2)

/-- No step changes what another one makes of the accumulator. -/
def Independent : Prop :=
  ∀ k l r m p, k ≠ l → F k r m = some p → ∀ n, (F l p.1 n).map Prod.snd = (F l r n).map Prod.snd

end AccStep

/-- The accumulators of the first `n` threads combined into the initial value. -/
def combineThreads {M : Type} (op : M → M → M) (init : M) (acc : Nat → M) : Nat → M
  | 0 => init
  | n + 1 => op (combineThreads op init acc n) (acc n)

section
variable {M : Type} {op : M → M → M}

theorem combineThreads_update_of_le {init : M} {acc : Nat → M} {n t : Nat} (h : n ≤ t) (m : M) :
    combineThreads op init (Function.update acc t m) n = combineThreads op init acc n := by
  induction n with
  | zero => rfl
  | succ n ih =>
    rw [combineThreads, ih (by omega), Function.update_of_ne (by omega)]
    rfl

/-- The combined value as a function of one accumulator. -/
theorem exists_combineThreads_update (hop : ∀ a b c, op (op a b) c = op (op a c) b) (init : M)
    (acc : Nat → M) {n t : Nat} (h : t < n) :
    ∃ rest, ∀ m, combineThreads op init (Function.update acc t m) n = op rest m := by
  induction n with
  | zero => omega
  | succ n ih =>
    by_cases ht : t = n
    · subst ht
      refine ⟨combineThreads op init acc t, fun m => ?_⟩
      rw [combineThreads, combineThreads_update_of_le (Nat.le_refl t), Function.update_self]
    · obtain ⟨rest, hrest⟩ := ih (by omega)
      refine ⟨op rest (acc n), fun m => ?_⟩
      rw [combineThreads, hrest, Function.update_of_ne (by omega), hop]

theorem combineThreads_const {init e : M} (he : op init e = init) (n : Nat) :
    combineThreads op init (fun _ => e) n = init := by
  induction n with
  | zero => rfl
  | succ n ih => rw [combineThreads, ih, he]

namespace AccStep

variable {κ ρ : Type} {F : AccStep κ ρ M}

/-- Threads with their own accumulators do what one run in the order of the schedule does to the
combined value. -/
theorem runAll_eq_runThreads (hop : ∀ a b c, op (op a b) c = op (op a c) b)
    (hF : F.Translates op) (init : M) {n : Nat} {schedule : List (Nat × κ)}
    (hn : ∀ p ∈ schedule, p.1 < n) (r : ρ) (acc : Nat → M) :
    F.runAll (schedule.map Prod.snd) r (combineThreads op init acc n) =
      (F.runThreads schedule r acc).map fun p => (p.1, combineThreads op init p.2 n) := by
  induction schedule generalizing r acc with
  | nil => rfl
  | cons p schedule ih =>
    obtain ⟨t, k⟩ := p
    obtain ⟨rest, hrest⟩ := exists_combineThreads_update hop init acc (hn (t, k) (by simp))
    have hnow : combineThreads op init acc n = op rest (acc t) := by
      rw [← hrest, Function.update_eq_self]
    simp only [List.map_cons, runAll, runThreads]
    rw [hnow, hF]
    cases F k r (acc t) with
    | none => rfl
    | some p =>
      simp only [Option.map_some, Option.bind_some]
      rw [← hrest]
      exact ih (fun q hq => hn q (by simp [hq])) p.1 _

/-- What step `k` adds, starting from `e`. -/
def contribution (F : AccStep κ ρ M) (r : ρ) (e : M) (k : κ) : Option M :=
  (F k r e).map Prod.snd

def addContribution (op : M → M → M) (F : AccStep κ ρ M) (r : ρ) (e : M) (found : Option M)
    (k : κ) : Option M :=
  found.bind fun m => (contribution F r e k).map (op m)

theorem addContribution_right_comm (hop : ∀ a b c, op (op a b) c = op (op a c) b) (r : ρ) (e : M)
    (found : Option M) (k l : κ) :
    addContribution op F r e (addContribution op F r e found k) l =
      addContribution op F r e (addContribution op F r e found l) k := by
  cases found with
  | none => rfl
  | some m =>
    simp only [addContribution, Option.bind_some]
    cases contribution F r e k with
    | none => cases contribution F r e l <;> simp
    | some a =>
      cases contribution F r e l with
      | none => simp
      | some b =>
        simp only [Option.map_some, Option.bind_some]
        rw [hop]

theorem step_eq_contribution (hF : F.Translates op) (r : ρ) {e m : M} (hm : op m e = m) (k : κ) :
    (F k r m).map Prod.snd = (contribution F r e k).map (op m) := by
  conv_lhs => rw [← hm]
  rw [hF, contribution, Option.map_map, Option.map_map]
  rfl

/-- The final value of a run: what each step adds, combined in order. -/
theorem runAll_value (hop : ∀ a b c, op (op a b) c = op (op a c) b) (hF : F.Translates op)
    (hind : F.Independent) {e m : M} (hm : op m e = m) {ks : List κ} (hks : ks.Nodup) (r : ρ) :
    (F.runAll ks r m).map Prod.snd = ks.foldl (addContribution op F r e) (some m) := by
  induction ks generalizing r m with
  | nil => rfl
  | cons k ks ih =>
    obtain ⟨hk, hks⟩ := List.nodup_cons.mp hks
    have hstep := step_eq_contribution hF r hm k
    simp only [runAll, List.foldl_cons]
    cases hrun : F k r m with
    | none =>
      have hnone : contribution F r e k = none := by
        rw [hrun] at hstep
        cases hc : contribution F r e k with
        | none => rfl
        | some a => simp [hc] at hstep
      have hall : ∀ l : List κ, l.foldl (addContribution op F r e) none = none := by
        intro l
        induction l with
        | nil => rfl
        | cons a l ihl => exact ihl
      simp [addContribution, hnone, hall]
    | some p =>
      obtain ⟨a, ha, hp⟩ : ∃ a, contribution F r e k = some a ∧ p.2 = op m a := by
        rw [hrun] at hstep
        cases hc : contribution F r e k with
        | none => simp [hc] at hstep
        | some a => exact ⟨a, rfl, by simpa [hc] using hstep⟩
      have hm' : op p.2 e = p.2 := by rw [hp, hop, hm]
      have hsame : ∀ l ∈ ks, contribution F p.1 e l = contribution F r e l := by
        intro l hl
        exact hind k l r m p (fun hkl => hk (hkl ▸ hl)) hrun e
      have hcongr : ks.foldl (addContribution op F p.1 e) (some p.2) =
          ks.foldl (addContribution op F r e) (some p.2) := by
        apply List.foldl_ext
        intro found l hl
        simp only [addContribution, hsame l hl]
      rw [Option.bind_some, ih hm' hks, hcongr]
      simp [addContribution, ha, hp]

end AccStep

end

end LoomX
