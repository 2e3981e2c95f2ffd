import LoomX.Symbolic.Stopping
import LoomX.Symbolic.StagesSound

namespace LoomX.Symbolic

open RecursiveCalls

/-- A bound on the rounds for an operator with any number of operands, which get lighter or sorted. -/
def operandRank (E : Engine) (cs : List Node) : Nat :=
  2 * weightAll cs + if sortOperands E.address cs = cs then 0 else 1

theorem operandRank_lt {E : Engine} {cs ds : List Node} (h : weightAll ds < weightAll cs) :
    operandRank E ds < operandRank E cs := by
  unfold operandRank
  split <;> split <;> omega

/-- Settled operands; those of a product are together as wide as the product. -/
structure Operands (E : Engine) (op : Operator) (w : Nat) (cs : List Node) : Prop where
  done : ∀ c ∈ cs, c.Done E
  width : op.multiplies = true → (cs.map Node.nBits).sum = w

theorem Operands.allValid {E : Engine} {op : Operator} {w : Nat} {cs : List Node}
    (h : Operands E op w cs) : AllValid cs :=
  (allValid_iff cs).mpr fun c hc => (h.done c hc).valid

/-- A rule that makes no node with `instance` and gives the operator operands of a lower rank. -/
def Lightens (E : Engine) (op : Operator) (w : Nat) (rule : Node → Option Node) : Prop :=
  ∀ ⦃cs f m⦄, Operands E op w cs → rule (.interior op w cs f) = some m →
    ∃ ds g, m = .interior op w ds g ∧ Operands E op w ds ∧ operandRank E ds < operandRank E cs

/-- A stage that leads to a settled node or to operands of a lower rank. -/
def Descends (E : Engine) (op : Operator) (w : Nat) (stage : Stage) : Prop :=
  ∀ ⦃cs f⦄, Operands E op w cs →
    Halts (Below E op (operandRank E) (operandRank E cs)) (stage (.interior op w cs f))

/-- Nodes of the operator and the width are rejected, or valid for all settled operands. -/
def Takes (E : Engine) (op : Operator) (w : Nat) : Prop :=
  ∀ ⦃cs f⦄, (∀ c ∈ cs, c.Done E) → (Node.interior op w cs f).Ready E

theorem takes_of_checked {E : Engine} {op : Operator} (hop : op.isChecked = true) (w : Nat) :
    Takes E op w := fun _ f hcs => ready_of_checked hop hcs f

theorem Node.Fresh.toOperands {E : Engine} {op : Operator} {w f : Nat} {cs : List Node}
    (h : (Node.interior op w cs f).Fresh E) : Operands E op w cs :=
  ⟨fun _ hc => h.operand hc, fun hmul => sum_nBits_of_shape hmul h.valid.2.1⟩

theorem sum_nBits_flattenAll {op : Operator} (hmul : op.multiplies = true) {cs : List Node}
    (hcs : AllValid cs) : ((flattenAll op cs).map Node.nBits).sum = (cs.map Node.nBits).sum := by
  have hop : op.IsNary := by
    cases op with
    | umul | smul => trivial
    | _ => cases hmul
  have hstands : Stands op 0 (cs.map (Node.eval (fun _ _ _ => 0) fun _ => 0)) _ :=
    flattenAll_stands hop hcs (fun h => by rw [hmul] at h; cases h) fun _ => 0
  have hwidth := hstands.width hmul
  rw [map_eval_size, map_eval_size] at hwidth
  exact hwidth.symm

theorem dropRepeats_sublist (E : Engine) (cs : List Node) : (dropRepeats E cs).Sublist cs := by
  cases cs with
  | nil => exact .slnil
  | cons c cs => exact (keepNew_sublist E c cs).cons_cons c

theorem cancelPairs_sublist (E : Engine) (steps : Nat) (cs : List Node) :
    (cancelPairs E steps cs).Sublist cs := by
  induction steps generalizing cs with
  | zero => exact List.nil_sublist cs
  | succ steps ih =>
    cases cs with
    | nil => exact .slnil
    | cons c cs =>
      rw [cancelPairs]
      split
      next => exact (ih cs).cons c
      next =>
        split
        next => exact ((ih _).trans List.eraseP_sublist).cons c
        next => exact (ih cs).cons_cons c

section

variable {E : Engine} {op : Operator} {w f : Nat} {cs ds : List Node} {m : Node}

theorem weightAll_lt_of_filter {p : Node → Bool} (hcs : ∀ c ∈ cs, c.Done E)
    (hlen : (cs.filter p).length ≠ cs.length) : weightAll (cs.filter p) < weightAll cs :=
  weightAll_lt_of_sublist List.filter_sublist (fun c hc => (hcs c hc).valid) hlen

theorem below_of_weight (htakes : Takes E op w) (hds : ∀ d ∈ ds, d.Done E)
    (hlt : weightAll ds < weightAll cs) (g : Nat) :
    Below E op (operandRank E) (operandRank E cs) (newInteriorOf w op ds g) :=
  Or.inr ⟨w, ds, _, rfl, htakes hds, operandRank_lt hlt⟩

theorem lightens_associative (hop : op.Outweighs) : Lightens E op w associative := by
  intro cs f m hcs h
  simp only [associative] at h
  split at h
  next hany =>
    cases Option.some.inj h
    refine ⟨_, _, rfl, ⟨done_of_flattenAll op cs hcs.done, fun hmul => ?_⟩, ?_⟩
    · rw [sum_nBits_flattenAll hmul hcs.allValid, hcs.width hmul]
    · exact operandRank_lt ((weight_flattenAll hop cs hcs.allValid).2 hany)
  next => cases h

theorem lightens_commutative : Lightens E op w (commutative E) := by
  intro cs f m hcs h
  simp only [commutative] at h
  split at h
  next => cases h
  next hne =>
    cases Option.some.inj h
    have hperm : (sortOperands E.address cs).Perm cs := List.mergeSort_perm cs _
    have hsorted := sortOperands_of_pairwise (pairwise_sortOperands E.address cs)
    refine ⟨_, _, rfl, ⟨fun c hc => hcs.done c (hperm.mem_iff.mp hc), fun hmul => ?_⟩, ?_⟩
    · rw [(hperm.map _).sum_eq, hcs.width hmul]
    · unfold operandRank
      rw [if_pos hsorted, if_neg hne, weightAll_perm hperm]
      omega

theorem lightens_idempotent (hmul : op.multiplies = false) : Lightens E op w (idempotent E) := by
  intro cs f m hcs h
  simp only [idempotent] at h
  split at h
  next => cases h
  next hne =>
    cases Option.some.inj h
    have hsub := dropRepeats_sublist E cs
    refine ⟨_, _, rfl, ⟨fun c hc => hcs.done c (hsub.subset hc), fun h => ?_⟩, operandRank_lt ?_⟩
    · rw [hmul] at h
      cases h
    · exact weightAll_lt_of_sublist hsub (fun c hc => (hcs.done c hc).valid)
        fun hlen => hne (hsub.eq_of_length hlen)

theorem descends_pure {rule : Node → Option Node} (htakes : Takes E op w)
    (h : Lightens E op w rule) : Descends E op w (Stage.pure rule) := by
  refine fun cs f hcs => halts_pure fun m hm => ?_
  obtain ⟨ds, g, rfl, hds, hrank⟩ := h hcs hm
  exact Or.inr ⟨w, ds, g, rfl, htakes hds.done, hrank⟩

theorem descends_andThen {rule : Node → Option Node} {stage : Stage} (htakes : Takes E op w)
    (hrule : Lightens E op w rule) (hstage : Descends E op w stage) :
    Descends E op w (Stage.andThen rule stage) := by
  refine fun cs f hcs => halts_andThen (fun _ => hstage hcs) fun m hm => ?_
  obtain ⟨ds, g, rfl, hds, hrank⟩ := hrule hcs hm
  exact ⟨Or.inr ⟨w, ds, g, rfl, htakes hds.done, hrank⟩,
    (hstage hds).mono fun _ hk => hk.mono (Nat.le_of_lt hrank)⟩

theorem pure_andThenPure (f g : Node → Option Node) :
    Stage.pure (andThenPure f g) = Stage.andThen f (Stage.pure g) := by
  funext n
  unfold Stage.pure Stage.andThen andThenPure
  cases f n <;> rfl

theorem done_makeIntegerConstant (hw : IsWidth w) (value : Nat) :
    (makeIntegerConstant w value).Done E := done_constant hw

theorem finishes_makeExtend (hextend : Operator.uextend.Ends E) {nBits value : Nat} {a : Node}
    (hn : IsWidth nBits) (ha : a.Done E) :
    Finishes simplifyLoop (fun m => m.Done E) (makeExtend E (makeIntegerConstant nBits value) a) :=
  hextend.makeInstance rfl (done_pair (done_makeIntegerConstant hn value) ha)

theorem descends_identity (hextend : Operator.uextend.Ends E) (htakes : Takes E op w)
    (hw : IsWidth w) (ident : Nat) : Descends E op w (identity E ident) := by
  intro cs f hcs
  simp only [identity]
  have hsub : (cs.filter fun c => !isIdentity ident c).Sublist cs := List.filter_sublist
  have hdone := fun c hc => hcs.done c (hsub.subset hc)
  split
  next => exact halts_none _
  next hlen =>
    have hweight := weightAll_lt_of_filter hcs.done hlen
    split
    next => exact halts_some (Or.inl (done_makeIntegerConstant hw ident))
    next a hargs =>
      have ha : a.Done E := hdone a (by simp [hargs])
      split
      next => exact halts_finishes ((finishes_makeExtend hextend (by simp [IsWidth, maxBits]) ha).mono
          fun _ hm => Or.inl hm)
      next => exact halts_some (Or.inl ha)
    next =>
      split
      next => exact halts_none _
      next hwidth =>
        have hadjust : adjustWidth op (cs.filter fun c => !isIdentity ident c) = w :=
          not_not.mp hwidth
        refine halts_some ?_
        rw [newInterior, hadjust]
        exact below_of_weight htakes hdone hweight 0

theorem halts_foldConstants {fold : List BitVector → BitVector} (hfold : Folds op fold)
    (htakes : Takes E op w) (hw : IsWidth w) (hcs : Operands E op w cs)
    (hsame : op.multiplies = false → ∀ c ∈ cs, c.nBits = w) :
    Halts (Below E op (operandRank E) (operandRank E cs))
      (Stage.pure (foldConstants fold) (.interior op w cs f)) := by
  refine halts_pure fun m hm => ?_
  have hsum : op.multiplies = true → (cs.map Node.nBits).sum ≤ maxBits := fun hmul => by
    rw [hcs.width hmul]
    exact hw.2
  have hfolded : RunFolded E (fun _ _ _ => 0) (fun _ => 0) _ _ cs (foldRuns fold [] cs) :=
    runFolded_nary hfold hw hcs.done hsum hsame fun _ => 0
  have hweight := hfolded.weight
  have hlength := hfolded.length
  rcases foldConstants_cases hm with ⟨hds, -⟩ | ⟨rfl, hlen⟩
  · exact Or.inl (hfolded.done m (by rw [hds]; exact List.mem_singleton_self m))
  · exact below_of_weight htakes hfolded.done (by omega) 0

theorem finishes_lighter (htakes : Takes E op w) (hds : ∀ d ∈ ds, d.Done E)
    (hlt : weightAll ds < weightAll cs)
    (hbelow : ∀ m, Below E op (operandRank E) (operandRank E cs) m → Stops E (fun _ => True) m)
    (g : Nat) :
    Finishes simplifyLoop (fun m => m.Done E) (Calls.invoke (E, newInteriorOf w op ds g)) :=
  (finishes_stops (hbelow _ (below_of_weight htakes hds hlt g))).mono fun _ hm => hm.1

/-- The operands that are kept make a lighter node. -/
theorem halts_rebuild (htakes : Takes E op w) (hw : IsWidth w) (hcs : ∀ c ∈ cs, c.Done E)
    (hsub : ds.Sublist cs)
    (hbelow : ∀ m, Below E op (operandRank E) (operandRank E cs) m → Stops E (fun _ => True) m) :
    Halts (fun m => m.Done E) (rebuild E op w cs ds) := by
  have hds := fun d hd => hcs d (hsub.subset hd)
  unfold rebuild
  split
  next => exact halts_some (done_makeIntegerConstant hw 0)
  next c => exact halts_some (hds c List.mem_cons_self)
  next =>
    split
    next => exact halts_none _
    next hlen =>
      have hlt := weightAll_lt_of_sublist hsub (fun c hc => (hcs c hc).valid) hlen
      exact halts_finishes (finishes_lighter htakes hds hlt hbelow 0)

theorem done_unaryNoOp (hfresh : (Node.interior op w cs f).Fresh E)
    (h : unaryNoOp (.interior op w cs f) = some m) : m.Done E := by
  unfold unaryNoOp at h
  split at h
  next c f' heq =>
    cases heq
    cases Option.some.inj h
    exact hfresh.operand List.mem_cons_self
  next => cases h

theorem descends_nary {stage : Stage} (hop : op.Outweighs) (htakes : Takes E op w)
    (hstage : Descends E op w stage) :
    Descends E op w (Stage.andThen associative (Stage.andThen (commutative E) stage)) :=
  descends_andThen htakes (lightens_associative hop)
    (descends_andThen htakes lightens_commutative hstage)

theorem done_rewriteAnd (hfresh : (Node.interior op w cs f).Fresh E)
    (h : rewriteAnd (.interior op w cs f) = some m) : m.Done E := by
  simp only [rewriteAnd] at h
  split at h
  next =>
    cases Option.some.inj h
    exact done_constant hfresh.valid.1
  next c rest _ =>
    split at h
    next =>
      cases Option.some.inj h
      exact hfresh.operand List.mem_cons_self
    next => cases h
  next => cases h

theorem ends_and (hextend : Operator.uextend.Ends E) : Operator.and.Ends E := by
  refine ends_of_below (operandRank E) fun {w cs f} hfresh _ => ?_
  have htakes : Takes E .and w := takes_of_checked rfl w
  have hchain := descends_nary (fun _ _ => Nat.lt_succ_self _) htakes (descends_andThen htakes
    (lightens_idempotent rfl) (descends_identity hextend htakes hfresh.valid.1 (2 ^ 64 - 1)))
  show Halts _ (simplifyAnd E (.interior .and w cs f))
  refine halts_orElse (halts_orElse (hchain hfresh.toOperands) fun _ => ?_) fun _ => ?_
  · exact halts_foldConstants folds_andFold htakes hfresh.valid.1 hfresh.toOperands
      fun _ => nBits_of_sized rfl hfresh.valid.2.1
  · exact halts_pure fun m hm => Or.inl (done_rewriteAnd hfresh hm)

theorem ends_or (hextend : Operator.uextend.Ends E) : Operator.or.Ends E := by
  refine ends_of_below (operandRank E) fun {w cs f} hfresh hbelow => ?_
  have htakes : Takes E .or w := takes_of_checked rfl w
  have hchain := descends_nary (fun _ _ => Nat.lt_succ_self _) htakes (descends_andThen htakes
    (lightens_idempotent rfl) (descends_identity hextend htakes hfresh.valid.1 0))
  show Halts _ (simplifyOr E (.interior .or w cs f))
  refine halts_orElse (halts_orElse (hchain hfresh.toOperands) fun _ => ?_) fun _ => ?_
  · exact halts_foldConstants folds_orFold htakes hfresh.valid.1 hfresh.toOperands
      fun _ => nBits_of_sized rfl hfresh.valid.2.1
  · simp only [rewriteOr]
    split
    next c hfind => exact halts_some (Or.inl (hfresh.operand (List.mem_of_find?_eq_some hfind)))
    next => exact (halts_rebuild htakes hfresh.valid.1 hfresh.toOperands.done List.filter_sublist
        hbelow).mono fun _ hm => Or.inl hm

theorem ends_xor (hextend : Operator.uextend.Ends E) : Operator.xor.Ends E := by
  refine ends_of_below (operandRank E) fun {w cs f} hfresh hbelow => ?_
  have htakes : Takes E .xor w := takes_of_checked rfl w
  have hchain := descends_nary (fun _ _ => Nat.lt_succ_self _) htakes
    (descends_identity hextend htakes hfresh.valid.1 0)
  show Halts _ (simplifyXor E (.interior .xor w cs f))
  refine halts_orElse (halts_orElse (hchain hfresh.toOperands) fun _ => ?_) fun _ => ?_
  · exact halts_foldConstants folds_xorFold htakes hfresh.valid.1 hfresh.toOperands
      fun _ => nBits_of_sized rfl hfresh.valid.2.1
  · exact (halts_rebuild htakes hfresh.valid.1 hfresh.toOperands.done
      (cancelPairs_sublist E cs.length cs) hbelow).mono fun _ hm => Or.inl hm

theorem ends_umul (hextend : Operator.uextend.Ends E) : Operator.umul.Ends E := by
  refine ends_of_below (operandRank E) fun {w cs f} hfresh _ => ?_
  have htakes : Takes E .umul w := takes_of_checked rfl w
  have hchain := descends_nary (fun _ _ => Nat.lt_succ_self _) htakes
    (descends_identity hextend htakes hfresh.valid.1 1)
  show Halts _ (simplifyUmul E (.interior .umul w cs f))
  refine halts_orElse (hchain hfresh.toOperands) fun _ => ?_
  exact halts_foldConstants folds_umulFold htakes hfresh.valid.1 hfresh.toOperands nofun

theorem ends_smul : Operator.smul.Ends E := by
  refine ends_of_below (operandRank E) fun {w cs f} hfresh _ => ?_
  have htakes : Takes E .smul w := takes_of_checked rfl w
  have hfold : Descends E .smul w (Stage.pure (foldConstants smulFold)) := fun _ _ hcs =>
    halts_foldConstants folds_smulFold htakes hfresh.valid.1 hcs nofun
  show Halts _ (simplifySmul E (.interior .smul w cs f))
  rw [simplifySmul, pure_andThenPure, pure_andThenPure]
  exact descends_nary (fun _ _ => Nat.lt_succ_self _) htakes hfold hfresh.toOperands

end

end LoomX.Symbolic
