import Mathlib

namespace LoomX

/-- What leaves a vertex for what enters it, and the vertices to which that flows. -/
structure FlowSystem (V S : Type*) where
  transfer : V → S → S
  Flows : V → S → V → Prop

namespace FlowSystem

variable {V S : Type*} (sys : FlowSystem V S)

/-- The states that enter a vertex along the paths from the starting vertices. -/
inductive Reached (starts : V → S → Prop) : V → S → Prop
  | start {v : V} {s : S} (h : starts v s) : Reached starts v s
  | flow {v u : V} {s : S} (h : Reached starts v s) (hflow : sys.Flows v (sys.transfer v s) u) :
      Reached starts u (sys.transfer v s)

/-- What flows on from states along paths to a vertex comes along paths as well. -/
theorem reached_image {starts : V → S → Prop} {v u : V} {A : Set S} (hA : ∀ s ∈ A, sys.Reached starts v s)
    (hflow : ∀ s ∈ A, sys.Flows v (sys.transfer v s) u) :
    ∀ t ∈ sys.transfer v '' A, sys.Reached starts u t := by
  rintro _ ⟨s, hs, rfl⟩
  exact .flow (hA s hs) (hflow s hs)

variable [Preorder S]

/-- All that leaves a vertex is accounted for where it flows to. -/
def SolvedAt (incoming : V → S) (v : V) : Prop :=
  ∀ u, sys.Flows v (sys.transfer v (incoming v)) u →
    sys.transfer v (incoming v) ≤ incoming u

/-- More that enters a vertex is more that leaves it, and it flows to more. -/
structure IsMonotone : Prop where
  transfer : ∀ v, Monotone (sys.transfer v)
  flows : ∀ v s t u, s ≤ t → sys.Flows v s u → sys.Flows v t u

/-- The transfer functions keep the least upper bounds of what may come along several paths. -/
def IsDistributive : Prop :=
  ∀ v (A : Set S) a, A.Nonempty → IsLUB A a → IsLUB (sys.transfer v '' A) (sys.transfer v a)

variable {sys} {starts : V → S → Prop} {incoming : V → S}

/-- What is solved wherever something comes along a path covers what comes along every path. -/
theorem Reached.covered (hsys : sys.IsMonotone) (hstart : ∀ v s, starts v s → s ≤ incoming v)
    (hsolved : ∀ v s, sys.Reached starts v s → s ≤ incoming v → sys.SolvedAt incoming v) {v : V}
    {s : S} (h : sys.Reached starts v s) : s ≤ incoming v := by
  induction h with
  | start h => exact hstart _ _ h
  | flow hreached hflow ih =>
    rename_i v u s
    have hle : sys.transfer v s ≤ sys.transfer v (incoming v) := hsys.transfer v ih
    exact hle.trans (hsolved v s hreached ih u (hsys.flows v _ _ u hle hflow))

/-- Least upper bounds of two sets put together. -/
theorem isLUB_union_of_least {A B : Set S} {a b c : S} (ha : IsLUB A a) (hb : IsLUB B b)
    (hac : a ≤ c) (hbc : b ≤ c) (hleast : ∀ x, a ≤ x → b ≤ x → c ≤ x) : IsLUB (A ∪ B) c := by
  constructor
  · rintro s (hs | hs)
    · exact (ha.1 hs).trans hac
    · exact (hb.1 hs).trans hbc
  · intro x hx
    exact hleast x (ha.2 fun s hs => hx (.inl hs)) (hb.2 fun s hs => hx (.inr hs))

theorem IsDistributive.monotone (h : sys.IsDistributive) (v : V) : Monotone (sys.transfer v) := by
  intro a b hab
  have hlub : IsLUB {a, b} b := by
    constructor
    · rintro s (rfl | rfl)
      · exact hab
      · exact le_rfl
    · exact fun x hx => hx (.inr rfl)
  exact (h v _ b ⟨a, .inl rfl⟩ hlub).1 ⟨a, .inl rfl, rfl⟩

end FlowSystem

/-- States that cannot grow for ever cannot grow for ever at finitely many vertices. -/
theorem wellFounded_grows {V S : Type*} [Finite V] [PartialOrder S] [WellFoundedGT S] :
    WellFounded fun f g : V → S => g < f :=
  wellFounded_lt (α := V → Sᵒᵈ)

end LoomX
