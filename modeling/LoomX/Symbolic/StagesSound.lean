import LoomX.Symbolic.Refreshing

namespace LoomX.Symbolic

open RecursiveCalls

/-- Operands that stand for others, in the same width together if the operator multiplies. -/
structure Stands (op : Operator) (w : Nat) (vals vals' : List BitVector) : Prop where
  same : Same op w vals vals'
  width : op.multiplies = true → (vals.map BitVector.size).sum = (vals'.map BitVector.size).sum

theorem replaces_stands (op : Operator) (w : Nat) : Replaces (Stands op w) where
  refl vals := ⟨Same.refl vals, fun _ => rfl⟩
  trans h h' := ⟨h.same.trans h'.same, fun hmul => (h.width hmul).trans (h'.width hmul)⟩
  append h h' := by
    refine ⟨h.same.append h'.same, fun hmul => ?_⟩
    simp only [List.map_append, List.sum_append, h.width hmul, h'.width hmul]

theorem sum_nBits_of_shape {op : Operator} (hmul : op.multiplies = true) {w : Nat} {cs : List Node}
    (h : op.Shape w cs) : (cs.map Node.nBits).sum = w := by
  cases op with
  | umul | smul => exact h.fits
  | _ => cases hmul

section

variable {E : Engine} {other : Nat → Nat → List BitVector → Nat} {op : Operator} {w f g : Nat}
  {cs ds : List Node} {m : Node}

theorem opens_nary (hop : op.IsNary) (env : Nat → Nat) :
    Opens other env (Stands op w) (fun c => op.multiplies = false → c.nBits = w) op := by
  intro w' ds g hvalid hfits
  have hsized := sized_of_shape hop hvalid.2.1
  have hne : ds.map (Node.eval other env) ≠ [] := fun h => hsized.nonempty (List.map_eq_nil_iff.mp h)
  refine ⟨⟨?_, fun hmul => ?_⟩, ?_⟩
  · rw [Node.eval_interior, meaning_of_isNary hop]
    refine Same.nest hop hne (fun v hv => ?_) ?_ hfits
    · obtain ⟨d, hd, rfl⟩ := List.mem_map.mp hv
      rw [Node.eval_size]
      exact (hvalid.child hd).isWidth.1
    · rw [map_eval_size]
      exact hsized.fits
  · rw [map_eval_size, sum_nBits_of_shape hmul hvalid.2.1]
    simp [Node.nBits]
  · intro d hd hmul
    rw [nBits_of_sized hmul hsized d hd]
    exact hfits hmul

theorem flattenAll_stands (hop : op.IsNary) (hcs : AllValid cs)
    (hw : op.multiplies = false → ∀ c ∈ cs, c.nBits = w) (env : Nat → Nat) :
    Stands op w (cs.map (Node.eval other env)) ((flattenAll op cs).map (Node.eval other env)) :=
  (replaces_flattenAll (replaces_stands op w) (opens_nary hop env) cs hcs
    fun c hc hmul => hw hmul c hc).1

/-- The vector that is folded stands for the run and has the width of a type. -/
theorem foldsRuns_of_folds {fold : List BitVector → BitVector} (hfold : Folds op fold)
    (hw : IsWidth w) {bound : Nat} (hbound : op.multiplies = true → bound ≤ maxBits) :
    FoldsRuns (Stands op w) (fun c => op.multiplies = false → c.nBits = w) bound fold := by
  intro vals hne hvals hsum
  have hfits : ∀ v ∈ vals, op.FitsOne w v := fun v hv => by
    obtain ⟨hv, f, hwidth⟩ := hvals v hv
    exact ⟨hv.1, hwidth⟩
  have hsize := hfold.size hne hfits
  refine ⟨⟨hfold.same hne hfits, fun hmul => ?_⟩, ?_, fun _ hmul => ?_⟩
  · rw [List.map_singleton, List.sum_singleton, hsize, if_pos hmul]
  · rw [hsize]
    split
    next hmul =>
      have hle := hbound hmul
      obtain ⟨v, rest, rfl⟩ := List.exists_cons_of_ne_nil hne
      have hpos := (hvals v List.mem_cons_self).1.1
      rw [List.map_cons, List.sum_cons] at hsum ⊢
      exact ⟨by omega, by omega⟩
    next => exact hw
  · show (fold vals).size = w
    rw [hsize, hmul]
    rfl

theorem runFolded_nary {fold : List BitVector → BitVector} (hfold : Folds op fold) (hw : IsWidth w)
    (hcs : ∀ c ∈ cs, c.Done E) (hsum : op.multiplies = true → (cs.map Node.nBits).sum ≤ maxBits)
    (hsame : op.multiplies = false → ∀ c ∈ cs, c.nBits = w) (env : Nat → Nat) :
    RunFolded E other env (Stands op w) (fun c => op.multiplies = false → c.nBits = w) cs
      (foldRuns fold [] cs) :=
  runFolded_foldRuns (replaces_stands op w) (foldsRuns_of_folds hfold hw hsum)
    (fun _ hc => absurd hc List.not_mem_nil) hcs (fun c hc hmul => hsame hmul c hc) (Nat.le_refl _)

end

end LoomX.Symbolic
