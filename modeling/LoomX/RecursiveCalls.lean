import Mathlib.Data.List.Forall2

namespace LoomX.RecursiveCalls

/-- A program that may call a function of which it is a part, and may give up. -/
inductive Calls (α β γ : Type)
  | ret (result : γ)
  | throw
  | call (argument : α) (next : β → Calls α β γ)

variable {α β γ δ : Type}

namespace Calls

def bind : Calls α β γ → (γ → Calls α β δ) → Calls α β δ
  | ret c, g => g c
  | throw, _ => throw
  | call a next, g => call a fun b => (next b).bind g

instance : Monad (Calls α β) where
  pure := ret
  bind := bind

def invoke (a : α) : Calls α β β := call a ret

def invokeAll : List α → Calls α β (List β)
  | [] => ret []
  | a :: as => do
    let b ← invoke a
    let bs ← invokeAll as
    return b :: bs

/-- The result when the calls give what `f` gives. -/
def run (f : α → Option β) : Calls α β γ → Option γ
  | ret c => some c
  | throw => none
  | call a next => (f a).bind fun b => (next b).run f

theorem bind_eq_ret {p : Calls α β γ} {g : γ → Calls α β δ} {d : δ} (h : p >>= g = ret d) :
    ∃ c, p = ret c ∧ g c = ret d := by
  cases p with
  | ret c => exact ⟨c, rfl, h⟩
  | throw => cases h
  | call a next => cases h

theorem run_bind (f : α → Option β) (p : Calls α β γ) (g : γ → Calls α β δ) :
    (p >>= g).run f = (p.run f).bind fun c => (g c).run f := by
  induction p with
  | ret c => rfl
  | throw => rfl
  | call a next ih =>
    show ((f a).bind fun b => (next b >>= g).run f) = ((f a).bind fun b => (next b).run f).bind _
    rw [Option.bind_assoc]
    exact Option.bind_congr fun b _ => ih b

theorem run_mono {f g : α → Option β} (hfg : ∀ a b, f a = some b → g a = some b)
    {p : Calls α β γ} {c : γ} (h : p.run f = some c) : p.run g = some c := by
  induction p with
  | ret c' => exact h
  | throw => exact absurd h (by simp [run])
  | call a next ih =>
    obtain ⟨b, hb, hnext⟩ := Option.bind_eq_some_iff.mp h
    rw [run, hfg a b hb]
    exact ih b hnext

end Calls

/-- The function whose body is given, where its calls nest less deep than the fuel. -/
def evaluate (body : α → Calls α β β) : Nat → α → Option β
  | 0, _ => none
  | fuel + 1, a => (body a).run (evaluate body fuel)

theorem evaluate_succ {body : α → Calls α β β} {fuel : Nat} {a : α} {b : β}
    (h : evaluate body fuel a = some b) : evaluate body (fuel + 1) a = some b := by
  induction fuel generalizing a b with
  | zero => exact absurd h (by simp [evaluate])
  | succ fuel ih => exact Calls.run_mono (fun _ _ => ih) h

theorem evaluate_le {body : α → Calls α β β} {fuel fuel' : Nat} (hle : fuel ≤ fuel') {a : α} {b : β}
    (h : evaluate body fuel a = some b) : evaluate body fuel' a = some b := by
  induction hle with
  | refl => exact h
  | step _ ih => exact evaluate_succ ih

/-- The function with the body returns `b` for `a`. -/
def Computes (body : α → Calls α β β) (a : α) (b : β) : Prop := ∃ fuel, evaluate body fuel a = some b

/-- Every call of the program returns, and its result has the property. -/
def Reaches (body : α → Calls α β β) (Q : γ → Prop) : Calls α β γ → Prop
  | .ret c => Q c
  | .throw => False
  | .call a next => ∃ b, Computes body a b ∧ Reaches body Q (next b)

section

variable {body : α → Calls α β β} {Q : γ → Prop} {R : δ → Prop}

theorem Reaches.mono {Q' : γ → Prop} {p : Calls α β γ} (h : Reaches body Q p)
    (hQ : ∀ c, Q c → Q' c) : Reaches body Q' p := by
  induction p with
  | ret c => exact hQ c h
  | throw => exact h
  | call a next ih =>
    obtain ⟨b, hb, hnext⟩ := h
    exact ⟨b, hb, ih b hnext⟩

theorem Reaches.bind {p : Calls α β γ} {g : γ → Calls α β δ} (h : Reaches body Q p)
    (hg : ∀ c, Q c → Reaches body R (g c)) : Reaches body R (p >>= g) := by
  induction p with
  | ret c => exact hg c h
  | throw => exact h.elim
  | call a next ih =>
    obtain ⟨b, hb, hnext⟩ := h
    exact ⟨b, hb, ih b hnext⟩

theorem reaches_invoke {P : β → Prop} {a : α} (h : ∃ b, Computes body a b ∧ P b) :
    Reaches body P (Calls.invoke a) := h

theorem reaches_iff {p : Calls α β γ} :
    Reaches body Q p ↔ ∃ fuel c, p.run (evaluate body fuel) = some c ∧ Q c := by
  constructor
  · intro h
    induction p with
    | ret c => exact ⟨0, c, rfl, h⟩
    | throw => exact h.elim
    | call a next ih =>
      obtain ⟨b, ⟨fuel, hfuel⟩, hnext⟩ := h
      obtain ⟨fuel', c, hrun, hQ⟩ := ih b hnext
      have hb := evaluate_le (Nat.le_max_left fuel fuel') hfuel
      have hc := Calls.run_mono (fun _ _ => evaluate_le (Nat.le_max_right fuel fuel')) hrun
      refine ⟨max fuel fuel', c, ?_, hQ⟩
      rw [Calls.run, hb]
      exact hc
  · rintro ⟨fuel, c, hrun, hQ⟩
    induction p with
    | ret c' =>
      cases Option.some.inj hrun
      exact hQ
    | throw => exact absurd hrun (by simp [Calls.run])
    | call a next ih =>
      obtain ⟨b, hb, hnext⟩ := Option.bind_eq_some_iff.mp hrun
      exact ⟨b, ⟨fuel, hb⟩, ih b hnext⟩

/-- A function computes what its body reaches. -/
theorem computes_of_reaches {P : β → Prop} {a : α} (h : Reaches body P (body a)) :
    ∃ b, Computes body a b ∧ P b := by
  obtain ⟨fuel, b, hrun, hP⟩ := reaches_iff.mp h
  exact ⟨b, ⟨fuel + 1, hrun⟩, hP⟩

end

/-- How a program ends when its calls end as `f` says: with a result, or by giving up. -/
def Calls.finish (f : α → Option (Option β)) : Calls α β γ → Option (Option γ)
  | ret c => some (some c)
  | throw => some none
  | call a next => (f a).bind fun r => r.elim (some none) fun b => (next b).finish f

/-- How the function whose body is given ends, where its calls nest less deep than the fuel. -/
def outcome (body : α → Calls α β β) : Nat → α → Option (Option β)
  | 0, _ => none
  | fuel + 1, a => (body a).finish (outcome body fuel)

/-- The function with the body ends for `a` as said. -/
def EndsWith (body : α → Calls α β β) (a : α) (r : Option β) : Prop :=
  ∃ fuel, outcome body fuel a = some r

/-- The function with the body ends for `a` after finitely many steps. -/
def Terminates (body : α → Calls α β β) (a : α) : Prop := ∃ r, EndsWith body a r

theorem Calls.finish_mono {f g : α → Option (Option β)}
    (hfg : ∀ a r, f a = some r → g a = some r) {p : Calls α β γ} {r : Option γ}
    (h : p.finish f = some r) : p.finish g = some r := by
  induction p with
  | ret c => exact h
  | throw => exact h
  | call a next ih =>
    obtain ⟨r', hr', hnext⟩ := Option.bind_eq_some_iff.mp h
    rw [finish, hfg a r' hr']
    cases r' with
    | none => exact hnext
    | some b => exact ih b hnext

theorem outcome_succ {body : α → Calls α β β} {fuel : Nat} {a : α} {r : Option β}
    (h : outcome body fuel a = some r) : outcome body (fuel + 1) a = some r := by
  induction fuel generalizing a r with
  | zero => cases h
  | succ fuel ih => exact Calls.finish_mono (fun _ _ => ih) h

theorem outcome_le {body : α → Calls α β β} {fuel fuel' : Nat} (hle : fuel ≤ fuel') {a : α}
    {r : Option β} (h : outcome body fuel a = some r) : outcome body fuel' a = some r := by
  induction hle with
  | refl => exact h
  | step _ ih => exact outcome_succ ih

theorem finish_of_run {f : α → Option β} {g : α → Option (Option β)}
    (hfg : ∀ a b, f a = some b → g a = some (some b)) {p : Calls α β γ} {c : γ}
    (h : p.run f = some c) : p.finish g = some (some c) := by
  induction p with
  | ret c' =>
    cases h
    rfl
  | throw => cases h
  | call a next ih =>
    obtain ⟨b, hb, hnext⟩ := Option.bind_eq_some_iff.mp h
    rw [Calls.finish, hfg a b hb]
    exact ih b hnext

theorem Computes.endsWith {body : α → Calls α β β} {a : α} {b : β} (h : Computes body a b) :
    EndsWith body a (some b) := by
  obtain ⟨fuel, hfuel⟩ := h
  refine ⟨fuel, ?_⟩
  induction fuel generalizing a b with
  | zero => cases hfuel
  | succ fuel ih => exact finish_of_run (fun _ _ => ih) hfuel

/-- Every call of the program ends, and so does the program; a result has the property. -/
def Finishes (body : α → Calls α β β) (Q : γ → Prop) : Calls α β γ → Prop
  | .ret c => Q c
  | .throw => True
  | .call a next => ∃ r, EndsWith body a r ∧ ∀ b ∈ r, Finishes body Q (next b)

section

variable {body : α → Calls α β β} {Q : γ → Prop} {R : δ → Prop}

theorem Finishes.mono {Q' : γ → Prop} {p : Calls α β γ} (h : Finishes body Q p)
    (hQ : ∀ c, Q c → Q' c) : Finishes body Q' p := by
  induction p with
  | ret c => exact hQ c h
  | throw => exact h
  | call a next ih =>
    obtain ⟨r, hr, hnext⟩ := h
    exact ⟨r, hr, fun b hb => ih b (hnext b hb)⟩

theorem Finishes.bind {p : Calls α β γ} {g : γ → Calls α β δ} (h : Finishes body Q p)
    (hg : ∀ c, Q c → Finishes body R (g c)) : Finishes body R (p >>= g) := by
  induction p with
  | ret c => exact hg c h
  | throw => trivial
  | call a next ih =>
    obtain ⟨r, hr, hnext⟩ := h
    exact ⟨r, hr, fun b hb => ih b (hnext b hb)⟩

theorem Reaches.finishes {p : Calls α β γ} (h : Reaches body Q p) : Finishes body Q p := by
  induction p with
  | ret c => exact h
  | throw => exact h.elim
  | call a next ih =>
    obtain ⟨b, hb, hnext⟩ := h
    refine ⟨some b, hb.endsWith, fun b' hb' => ?_⟩
    cases hb'
    exact ih b hnext

theorem finishes_invoke {P : β → Prop} {a : α} (h : ∃ r, EndsWith body a r ∧ ∀ b ∈ r, P b) :
    Finishes body P (Calls.invoke a) := h

theorem Finishes.finish {p : Calls α β γ} (h : Finishes body Q p) :
    ∃ fuel r, p.finish (outcome body fuel) = some r ∧ ∀ c ∈ r, Q c := by
  induction p with
  | ret c => exact ⟨0, some c, rfl, fun c' hc' => by cases hc'; exact h⟩
  | throw => exact ⟨0, none, rfl, fun c hc => by cases hc⟩
  | call a next ih =>
    obtain ⟨r, ⟨fuel, hfuel⟩, hnext⟩ := h
    cases r with
    | none =>
      refine ⟨fuel, none, ?_, fun c hc => by cases hc⟩
      rw [Calls.finish, hfuel]
      rfl
    | some b =>
      obtain ⟨fuel', r', hr', hQ⟩ := ih b (hnext b rfl)
      have hb := outcome_le (Nat.le_max_left fuel fuel') hfuel
      have hc := Calls.finish_mono (fun _ _ => outcome_le (Nat.le_max_right fuel fuel')) hr'
      refine ⟨max fuel fuel', r', ?_, hQ⟩
      rw [Calls.finish, hb]
      exact hc

/-- A function ends if its body does. -/
theorem endsWith_of_finishes {P : β → Prop} {a : α} (h : Finishes body P (body a)) :
    ∃ r, EndsWith body a r ∧ ∀ b ∈ r, P b := by
  obtain ⟨fuel, r, hr, hP⟩ := h.finish
  exact ⟨r, ⟨fuel + 1, hr⟩, hP⟩

end

/-- The program with every call made with another argument. -/
def Calls.mapArgument (φ : α → α) : Calls α β γ → Calls α β γ
  | ret c => ret c
  | throw => throw
  | call a next => call (φ a) fun b => (next b).mapArgument φ

theorem Calls.mapArgument_bind (φ : α → α) (p : Calls α β γ) (g : γ → Calls α β δ) :
    (p >>= g).mapArgument φ = p.mapArgument φ >>= fun c => (g c).mapArgument φ := by
  induction p with
  | ret c => rfl
  | throw => rfl
  | call a next ih => exact congrArg (call (φ a)) (funext ih)

theorem Calls.finish_mapArgument (φ : α → α) (f : α → Option (Option β)) (p : Calls α β γ) :
    (p.mapArgument φ).finish f = p.finish (f ∘ φ) := by
  induction p with
  | ret c => rfl
  | throw => rfl
  | call a next ih => simp only [mapArgument, finish, Function.comp, ih]

/-- Arguments of which the body treats the images alike have ends alike. -/
theorem outcome_mapArgument {body : α → Calls α β β} {φ : α → α}
    (h : ∀ a, body (φ a) = (body a).mapArgument φ) (fuel : Nat) (a : α) :
    outcome body fuel (φ a) = outcome body fuel a := by
  induction fuel generalizing a with
  | zero => rfl
  | succ fuel ih =>
    rw [outcome, outcome, h, Calls.finish_mapArgument]
    congr 1
    exact funext ih

theorem terminates_mapArgument {body : α → Calls α β β} {φ : α → α}
    (h : ∀ a, body (φ a) = (body a).mapArgument φ) {a : α} (hterminates : Terminates body (φ a)) :
    Terminates body a := by
  obtain ⟨r, fuel, hr⟩ := hterminates
  exact ⟨r, fuel, by rw [← outcome_mapArgument h]; exact hr⟩

end LoomX.RecursiveCalls
