import Mathlib.Data.List.Basic
import Mathlib.Logic.Function.Basic

namespace LoomX.Sweeps

variable {α β : Type}

/-- The values of the nodes are their own new values. -/
def Steady (value : (α → β) → α → β) (nodes : List α) (est : α → β) : Prop :=
  ∀ a ∈ nodes, value est a = est a

/-- The nodes below a rank are steady. -/
def SteadyBelow (value : (α → β) → α → β) (nodes : List α) (rank : α → Nat) (k : Nat)
    (est : α → β) : Prop :=
  ∀ a ∈ nodes, rank a < k → value est a = est a

/-- A node's value depends on the values of nodes below it. -/
def DependsBelow (value : (α → β) → α → β) (nodes : List α) (rank : α → Nat) : Prop :=
  ∀ est est' a, a ∈ nodes → (∀ b ∈ nodes, rank b < rank a → est b = est' b) →
    value est a = value est' a

variable {value : (α → β) → α → β} {nodes : List α} {rank : α → Nat} {k : Nat} {est est' : α → β}

/-- Induction on the nodes from the lowest rank on. -/
theorem forall_of_below (rank : α → Nat) {P : α → Prop}
    (h : ∀ a ∈ nodes, (∀ b ∈ nodes, rank b < rank a → P b) → P a) : ∀ a ∈ nodes, P a := by
  intro a ha
  induction hn : rank a using Nat.strongRecOn generalizing a with
  | _ n ih => exact h a ha fun b hb hba => ih (rank b) (hn ▸ hba) b hb rfl

/-- Values for which the nodes are steady are unique on the nodes. -/
theorem steady_unique (hdep : DependsBelow value nodes rank) (h : Steady value nodes est)
    (h' : Steady value nodes est') : ∀ a ∈ nodes, est a = est' a := by
  refine forall_of_below rank fun a ha hbelow => ?_
  rw [← h a ha, ← h' a ha]
  exact hdep est est' a ha hbelow

variable [DecidableEq α] [DecidableEq β]

/-- Computes a node's value again, and says whether it has changed. -/
def refresh (value : (α → β) → α → β) (s : (α → β) × Bool) (a : α) : (α → β) × Bool :=
  if value s.1 a = s.1 a then s else (Function.update s.1 a (value s.1 a), true)

/-- Refreshes every node in turn, each on the values found so far. -/
def sweep (value : (α → β) → α → β) (nodes : List α) (est : α → β) : (α → β) × Bool :=
  nodes.foldl (refresh value) (est, false)

/-- Sweeps until nothing changes, where the fuel is enough for that. -/
def untilSteady (value : (α → β) → α → β) (nodes : List α) : Nat → (α → β) → Option (α → β)
  | 0, _ => none
  | fuel + 1, est =>
    if (sweep value nodes est).2 then untilSteady value nodes fuel (sweep value nodes est).1
    else some (sweep value nodes est).1

theorem refresh_steady {s : (α → β) × Bool} {a : α} (h : value s.1 a = s.1 a) :
    refresh value s a = s := if_pos h

theorem refresh_of_ne {s : (α → β) × Bool} {a b : α} (h : b ≠ a) : (refresh value s a).1 b = s.1 b := by
  unfold refresh
  split
  next => rfl
  next => exact Function.update_of_ne h _ _

/-- Refreshing keeps what is steady below a rank, and makes the node steady where it is of it. -/
theorem steadyBelow_refresh (hdep : DependsBelow value nodes rank) {s : (α → β) × Bool} {a : α}
    (ha : a ∈ nodes) (h : SteadyBelow value nodes rank k s.1) :
    SteadyBelow value nodes rank k (refresh value s a).1 ∧
      (∀ b ∈ nodes, rank b = k → b ≠ a → value s.1 b = s.1 b →
        value (refresh value s a).1 b = (refresh value s a).1 b) ∧
      (rank a ≤ k → value (refresh value s a).1 a = (refresh value s a).1 a) := by
  by_cases hsame : value s.1 a = s.1 a
  · rw [refresh_steady hsame]
    exact ⟨h, fun b _ _ _ hb => hb, fun _ => hsame⟩
  · have hrank : k ≤ rank a := by
      by_contra hlt
      exact hsame (h a ha (by omega))
    have hbelow : ∀ b ∈ nodes, rank b ≤ k → value (refresh value s a).1 b = value s.1 b := by
      intro b hb hbk
      refine hdep _ _ b hb fun c _ hc => refresh_of_ne fun hca => ?_
      rw [hca] at hc
      omega
    refine ⟨fun b hb hbk => ?_, fun b hb hbk hba hs => ?_, fun hak => ?_⟩
    · have hba : b ≠ a := by
        intro hba
        rw [hba] at hbk
        omega
      rw [hbelow b hb (by omega), refresh_of_ne hba]
      exact h b hb hbk
    · rw [hbelow b hb (by omega), refresh_of_ne hba]
      exact hs
    · rw [hbelow a ha hak, refresh, if_neg hsame]
      show value s.1 a = Function.update s.1 a (value s.1 a) a
      rw [Function.update_self]

/-- A sweep makes one more rank steady. -/
theorem steadyBelow_sweep (hdep : DependsBelow value nodes rank)
    (h : SteadyBelow value nodes rank k est) :
    SteadyBelow value nodes rank (k + 1) (sweep value nodes est).1 := by
  have hfold : ∀ l ⊆ nodes, ∀ s : (α → β) × Bool, SteadyBelow value nodes rank k s.1 →
      SteadyBelow value nodes rank k (l.foldl (refresh value) s).1 ∧
        ∀ b ∈ nodes, rank b = k → (b ∈ l ∨ value s.1 b = s.1 b) →
          value (l.foldl (refresh value) s).1 b = (l.foldl (refresh value) s).1 b := by
    intro l
    induction l with
    | nil =>
      intro _ s hs
      exact ⟨hs, fun b _ _ hb => hb.resolve_left List.not_mem_nil⟩
    | cons a rest ih =>
      intro hsub s hs
      obtain ⟨ha, hrest⟩ := List.cons_subset.mp hsub
      obtain ⟨hkeep, hothers, hnode⟩ := steadyBelow_refresh hdep ha hs
      obtain ⟨hdone, hlast⟩ := ih hrest _ hkeep
      refine ⟨hdone, fun b hb hbk hor => hlast b hb hbk ?_⟩
      by_cases hba : b = a
      · rw [hba]
        exact .inr (hnode (by rw [← hba]; omega))
      · rcases hor with hmem | hb'
        · exact .inl ((List.mem_cons.mp hmem).resolve_left hba)
        · exact .inr (hothers b hb hbk hba hb')
  obtain ⟨hkeep, hrank⟩ := hfold nodes (List.Subset.refl nodes) (est, false) h
  intro b hb hbk
  rcases Nat.lt_succ_iff_lt_or_eq.mp hbk with hlt | heq
  · exact hkeep b hb hlt
  · exact hrank b hb heq (.inl hb)

/-- A sweep that changes nothing has found every node steady. -/
theorem sweep_unchanged (h : (sweep value nodes est).2 = false) :
    (sweep value nodes est).1 = est ∧ Steady value nodes est := by
  have hflag : ∀ (l : List α) (est : α → β), (l.foldl (refresh value) (est, true)).2 = true := by
    intro l
    induction l with
    | nil => exact fun _ => rfl
    | cons a rest ih =>
      intro est
      rw [List.foldl_cons]
      unfold refresh
      split
      next => exact ih est
      next => exact ih _
  have hfold : ∀ l : List α, (l.foldl (refresh value) (est, false)).2 = false →
      (l.foldl (refresh value) (est, false)).1 = est ∧ Steady value l est := by
    intro l
    induction l with
    | nil => exact fun _ => ⟨rfl, nofun⟩
    | cons a rest ih =>
      intro hl
      rw [List.foldl_cons] at hl ⊢
      by_cases hsame : value est a = est a
      · rw [refresh_steady hsame] at hl ⊢
        obtain ⟨heq, hsteady⟩ := ih hl
        exact ⟨heq, List.forall_mem_cons.mpr ⟨hsame, hsteady⟩⟩
      · rw [refresh, if_neg hsame, hflag] at hl
        exact absurd hl.symm Bool.false_ne_true
  exact hfold nodes h

/-- A sweep of steady nodes changes nothing. -/
theorem sweep_of_steady (h : Steady value nodes est) : sweep value nodes est = (est, false) := by
  have hfold : ∀ l ⊆ nodes, l.foldl (refresh value) (est, false) = (est, false) := by
    intro l
    induction l with
    | nil => exact fun _ => rfl
    | cons a rest ih =>
      intro hsub
      obtain ⟨ha, hrest⟩ := List.cons_subset.mp hsub
      rw [List.foldl_cons, refresh_steady (h a ha)]
      exact ih hrest
  exact hfold nodes (List.Subset.refl nodes)

theorem sweep_of_not_mem {b : α} (hb : b ∉ nodes) : (sweep value nodes est).1 b = est b := by
  unfold sweep
  refine List.foldlRecOn (motive := fun s : (α → β) × Bool => s.1 b = est b) nodes _ rfl
    fun s hs a ha => ?_
  rw [refresh_of_ne (ne_of_mem_of_not_mem ha hb).symm, hs]

/-- The nodes' values after the sweeps are steady, and no others have changed. -/
theorem untilSteady_spec {fuel : Nat} (h : untilSteady value nodes fuel est = some est') :
    Steady value nodes est' ∧ ∀ b, b ∉ nodes → est' b = est b := by
  induction fuel generalizing est with
  | zero => cases h
  | succ fuel ih =>
    rw [untilSteady] at h
    split at h
    next =>
      obtain ⟨hsteady, hsame⟩ := ih h
      exact ⟨hsteady, fun b hb => (hsame b hb).trans (sweep_of_not_mem hb)⟩
    next hflag =>
      obtain ⟨heq, hsteady⟩ := sweep_unchanged (Bool.not_eq_true _ ▸ hflag)
      rw [heq] at h
      rw [← Option.some.inj h]
      exact ⟨hsteady, fun _ _ => rfl⟩

/-- One sweep for each rank, and one that finds nothing to change, are enough. -/
theorem untilSteady_exists (hdep : DependsBelow value nodes rank) {n : Nat}
    (hrank : ∀ a ∈ nodes, rank a < n) (est : α → β) :
    ∃ est', ∀ fuel, n < fuel → untilSteady value nodes fuel est = some est' := by
  have hrun : ∀ (m k : Nat) (est : α → β), k + m = n → SteadyBelow value nodes rank k est →
      ∃ est', ∀ fuel, m < fuel → untilSteady value nodes fuel est = some est' := by
    intro m
    induction m with
    | zero =>
      intro k est hk h
      have hsteady : Steady value nodes est := fun a ha => h a ha (by have hr := hrank a ha; omega)
      refine ⟨est, fun fuel hfuel => ?_⟩
      obtain ⟨fuel, rfl⟩ := Nat.exists_eq_add_of_lt hfuel
      rw [untilSteady, sweep_of_steady hsteady]
      rfl
    | succ m ih =>
      intro k est hk h
      cases hflag : (sweep value nodes est).2 with
      | false =>
        refine ⟨(sweep value nodes est).1, fun fuel hfuel => ?_⟩
        obtain ⟨fuel, rfl⟩ := Nat.exists_eq_add_of_lt hfuel
        rw [untilSteady, hflag]
        rfl
      | true =>
        obtain ⟨est', hest'⟩ := ih (k + 1) (sweep value nodes est).1 (by omega)
          (steadyBelow_sweep hdep h)
        refine ⟨est', fun fuel hfuel => ?_⟩
        obtain ⟨fuel, rfl⟩ := Nat.exists_eq_add_of_lt hfuel
        rw [untilSteady, hflag, if_pos rfl]
        exact hest' _ (by omega)
  exact hrun n 0 est (Nat.zero_add n) fun a _ ha => absurd ha (Nat.not_lt_zero _)

end LoomX.Sweeps
