import Mathlib.Algebra.Order.Ring.Int

namespace LoomX

/-- The range of a signed 64-bit integer. -/
def InLong (x : Int) : Prop := -2 ^ 63 ≤ x ∧ x < 2 ^ 63

instance (x : Int) : Decidable (InLong x) := inferInstanceAs (Decidable (_ ∧ _))

/-- A signed result; overflow is undefined. -/
def checked (x : Int) : Option Int := if InLong x then some x else none

theorem checked_of_inLong {x : Int} (h : InLong x) : checked x = some x := if_pos h

@[simp] theorem checked_eq_some {x y : Int} : checked x = some y ↔ InLong x ∧ x = y := by
  unfold checked
  split
  next h => simp [h]
  next h => simp [h]

theorem checked_bind {α : Type} (x : Int) (f : Int → Option α) :
    (checked x).bind f = if InLong x then f x else none := by
  unfold checked
  split
  next => rfl
  next => rfl

theorem inLong_of_le {x y : Int} (hx : 0 ≤ x) (hle : x ≤ y) (hy : InLong y) : InLong x := by
  unfold InLong at *
  omega

section
variable {σ κ : Type} {get : κ → σ → Int}

/-- The counters of a state hold 64-bit numbers, none of them negative. -/
def Counting (get : κ → σ → Int) (s : σ) : Prop := ∀ c, 0 ≤ get c s ∧ InLong (get c s)

/-- The step adds `total` to the counters. It is defined where `fits` holds and the counters stay
in range. -/
structure AddsUp (get : κ → σ → Int) (step : σ → Option σ) (fits : Prop)
    (total : κ → Int) : Prop where
  nonneg : ∀ c, 0 ≤ total c
  isSome_iff : ∀ {s}, Counting get s →
    ((step s).isSome = true ↔ fits ∧ ∀ c, InLong (get c s + total c))
  adds : ∀ {s s'}, Counting get s → step s = some s' → ∀ c, get c s' = get c s + total c

namespace AddsUp

variable {f g : σ → Option σ} {P Q : Prop} {t u : κ → Int}

theorem counting {s s' : σ} (h : AddsUp get f P t) (hs : Counting get s)
    (hf : f s = some s') : Counting get s' := by
  intro c
  have hin := ((h.isSome_iff hs).mp (by rw [hf, Option.isSome_some])).2 c
  have hnonneg := h.nonneg c
  have hc := (hs c).1
  rw [h.adds hs hf c]
  exact ⟨by omega, hin⟩

theorem skip : AddsUp get some True fun _ => 0 where
  nonneg _ := le_rfl
  isSome_iff := fun hs => by simp [fun c => (hs c).2]
  adds := fun _ h c => by simp [← Option.some.inj h]

/-- Sums that only grow stay in range to the end or never come back into it. -/
theorem comp (hf : AddsUp get f P t) (hg : AddsUp get g Q u) :
    AddsUp get (fun s => (f s).bind g) (P ∧ Q) fun c => t c + u c where
  nonneg c := Int.add_nonneg (hf.nonneg c) (hg.nonneg c)
  isSome_iff := by
    intro s hs
    have hfirst := hf.isSome_iff hs
    cases hstep : f s with
    | none =>
      have hno : ¬(P ∧ ∀ c, InLong (get c s + t c)) := by simpa [hstep] using hfirst
      refine iff_of_false (by simp) ?_
      intro hfits
      obtain ⟨⟨hP, -⟩, hin⟩ := hfits
      refine hno ⟨hP, fun c => inLong_of_le ?_ ?_ (hin c)⟩
      · exact Int.add_nonneg (hs c).1 (hf.nonneg c)
      · have hnonneg := hg.nonneg c
        omega
    | some s' =>
      have hP := (hfirst.mp (by rw [hstep, Option.isSome_some])).1
      rw [Option.bind_some, hg.isSome_iff (hf.counting hs hstep)]
      simp only [hf.adds hs hstep, hP, true_and, Int.add_assoc]
  adds := by
    intro s s' hs h c
    obtain ⟨m, hm, hstep⟩ := Option.bind_eq_some_iff.mp h
    rw [hg.adds (hf.counting hs hm) hstep, hf.adds hs hm, Int.add_assoc]

theorem congr (h : AddsUp get f P t) (hP : P ↔ Q) (ht : ∀ c, t c = u c) :
    AddsUp get f Q u := by
  obtain rfl : t = u := funext ht
  obtain rfl : P = Q := propext hP
  exact h

/-- A change that is no counter's makes no difference. -/
theorem precomp {change : σ → σ} (h : AddsUp get f P t)
    (hchange : ∀ c s, get c (change s) = get c s) :
    AddsUp get (fun s => f (change s)) P t where
  nonneg := h.nonneg
  isSome_iff := by
    intro s hs
    have hs' : Counting get (change s) := fun c => by rw [hchange]; exact hs c
    simpa only [hchange] using h.isSome_iff hs'
  adds := by
    intro s s' hs hstep c
    have hs' : Counting get (change s) := fun c => by rw [hchange]; exact hs c
    rw [h.adds hs' hstep, hchange]

/-- A value is computed first that is not added itself. -/
theorem after (step : Int → σ → Option σ) (x : Int) (h : AddsUp get (step x) P t) :
    AddsUp get (fun s => (checked x).bind fun y => step y s) (InLong x ∧ P) t where
  nonneg := h.nonneg
  isSome_iff := by
    intro s hs
    rw [checked_bind]
    split
    next hx => rw [h.isSome_iff hs, and_iff_right hx]
    next hx => simp [hx]
  adds := by
    intro s s' hs hstep
    rw [checked_bind] at hstep
    split at hstep
    next => exact h.adds hs hstep
    next => simp at hstep

theorem foldlM {α : Type} {step : α → σ → Option σ} {fits : α → Prop} {total : α → κ → Int}
    (xs : List α) (h : ∀ x ∈ xs, AddsUp get (step x) (fits x) (total x)) :
    AddsUp get (fun s => xs.foldlM (fun s x => step x s) s) (∀ x ∈ xs, fits x)
      fun c => (xs.map (total · c)).sum := by
  induction xs with
  | nil => exact skip.congr (by simp) (by simp)
  | cons x xs ih =>
    obtain ⟨hx, hxs⟩ := List.forall_mem_cons.mp h
    have hcomp := (hx.comp (ih hxs)).congr (Q := ∀ y ∈ x :: xs, fits y)
      (u := fun c => ((x :: xs).map (total · c)).sum) (by simp) (by simp)
    exact hcomp

end AddsUp

end

end LoomX
