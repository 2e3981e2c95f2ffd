import LoomX.Symbolic.Soundness

namespace LoomX.Symbolic

open RecursiveCalls

/-- The engine without the record of what its solver has been told, which no rule reads. -/
def Engine.forget (E : Engine) : Engine :=
  { E with solver := E.solver.map fun s => { s with satisfied := fun _ => False } }

theorem trusted_forget (E : Engine) (other : Nat → Nat → List BitVector → Nat) :
    E.forget.Trusted other := by
  intro s hs a b _ _ env hsatisfied
  obtain ⟨s', -, rfl⟩ := Option.map_eq_some_iff.mp hs
  exact hsatisfied.elim

@[simp] theorem mustEqual_forget (E : Engine) : mustEqual E.forget.solver = mustEqual E.solver := by
  funext a b
  cases E with
  | mk address solver => cases solver <;> rfl

/-- The program with its calls made with engines that forget. -/
def Program.forget {γ : Type} (p : Calls (Engine × Node) Node γ) : Calls (Engine × Node) Node γ :=
  p.mapArgument fun a => (a.1.forget, a.2)

section

variable {γ δ : Type} {f g f' g' : Stage} {n : Node}

@[simp] theorem Program.forget_bind (p : Program γ) (g : γ → Program δ) :
    Program.forget (p >>= g) = Program.forget p >>= fun c => Program.forget (g c) :=
  Calls.mapArgument_bind _ p g

theorem forget_orElse (hf : f' n = Program.forget (f n)) (hg : g' n = Program.forget (g n)) :
    (f'.orElse g') n = Program.forget ((f.orElse g) n) := by
  unfold Stage.orElse
  rw [Program.forget_bind, hf]
  congr 1
  funext r
  cases r with
  | none => exact hg
  | some m => rfl

theorem forget_andThen {rule : Node → Option Node} (hg : ∀ m, g' m = Program.forget (g m)) :
    Stage.andThen rule g' n = Program.forget (Stage.andThen rule g n) := by
  unfold Stage.andThen
  cases rule n with
  | none => exact hg n
  | some m =>
    dsimp only
    rw [Program.forget_bind, hg m]
    rfl

end

section

variable (E : Engine) (n : Node)

theorem newFlags_forget (f : Nat) : newFlags E.forget f n = Program.forget (newFlags E f n) := by
  unfold newFlags
  split
  next => rfl
  next => split <;> rfl

theorem idempotent_forget : idempotent E.forget = idempotent E := by
  have hkeep (last : Node) (cs : List Node) : keepNew E.forget last cs = keepNew E last cs := by
    induction cs generalizing last with
    | nil => rfl
    | cons c cs ih => simp only [keepNew, mustEqual_forget, ih]
  have hdrop : dropRepeats E.forget = dropRepeats E := by
    funext cs
    cases cs with
    | nil => rfl
    | cons c cs => simp only [dropRepeats, hkeep]
  funext n
  simp only [idempotent, hdrop]

theorem additiveNesting_forget :
    additiveNesting E.forget n = Program.forget (additiveNesting E n) := by
  have hwiden (k : Nat) (a : Node) : widenTo E.forget k a = Program.forget (widenTo E k a) := by
    unfold widenTo
    split <;> rfl
  unfold additiveNesting
  split
  next =>
    split
    next =>
      simp only [Program.forget_bind, hwiden]
      rfl
    next => rfl
  next => rfl

theorem identity_forget (ident : Nat) :
    identity E.forget ident n = Program.forget (identity E ident n) := by
  unfold identity
  split
  next =>
    dsimp only
    split
    next => rfl
    next =>
      split
      next => rfl
      next => split <;> rfl
      next => split <;> rfl
  next => rfl

theorem distributed_forget (cs : List Node) :
    distributed E.forget cs = Program.forget (distributed E cs) := by
  have hinvokeAll (ds : List Node) :
      Calls.invokeAll (ds.map fun d => (E.forget, newInterior .negate [d] 0)) =
        Program.forget (Calls.invokeAll (ds.map fun d => (E, newInterior .negate [d] 0))) := by
    induction ds with
    | nil => rfl
    | cons d ds ih =>
      simp only [List.map_cons, Calls.invokeAll, ih, Program.forget_bind]
      rfl
  induction cs with
  | nil => rfl
  | cons c cs ih =>
    simp only [distributed]
    split
    next =>
      simp only [Program.forget_bind, ih]
      rfl
    next =>
      simp only [Program.forget_bind, ih, hinvokeAll]
      rfl

theorem hoistIte_forget : hoistIte E.forget n = Program.forget (hoistIte E n) := by
  unfold hoistIte
  split
  next => split <;> rfl
  next => rfl
  next => rfl

theorem dropDuals_forget : dropDuals E.forget n = Program.forget (dropDuals E n) := by
  unfold dropDuals
  split
  next =>
    dsimp only
    split
    next =>
      unfold distributeNegations
      split
      next =>
        simp only [Program.forget_bind, distributed_forget]
        rfl
      next => rfl
    next =>
      unfold sumOf
      split <;> rfl
  next => rfl

theorem rebuild_forget (op : Operator) (w : Nat) (cs ds : List Node) :
    rebuild E.forget op w cs ds = Program.forget (rebuild E op w cs ds) := by
  unfold rebuild
  split
  next => rfl
  next => rfl
  next => split <;> rfl

theorem rewriteOr_forget : rewriteOr E.forget n = Program.forget (rewriteOr E n) := by
  unfold rewriteOr
  split
  next =>
    split
    next => rfl
    next => exact rebuild_forget E _ _ _ _
  next => rfl

theorem rewriteXor_forget : rewriteXor E.forget n = Program.forget (rewriteXor E n) := by
  have hcancel (steps : Nat) (cs : List Node) :
      cancelPairs E.forget steps cs = cancelPairs E steps cs := by
    induction steps generalizing cs with
    | zero => cases cs <;> rfl
    | succ steps ih =>
      cases cs with
      | nil => rfl
      | cons c cs => simp only [cancelPairs, mustEqual_forget, ih]
  unfold rewriteXor
  split
  next =>
    rw [hcancel]
    exact rebuild_forget E _ _ _ _
  next => rfl

theorem hoistConcat_forget : hoistConcat E.forget n = Program.forget (hoistConcat E n) := by
  have hcommon (condition : Option Node) (cs : List Node) :
      commonCondition E.forget.solver condition cs = commonCondition E.solver condition cs := by
    fun_induction commonCondition E.solver condition cs <;> simp_all [commonCondition]
  unfold hoistConcat
  split
  next =>
    rw [hcommon]
    split <;> rfl
  next => rfl

theorem joinExtracts_forget (newArgs : List Node) (prev : Option Node) (k : Nat) (cs : List Node) :
    joinExtracts E.forget newArgs prev k cs = Program.forget (joinExtracts E newArgs prev k cs) := by
  have hjoinable (k : Nat) (a b : Node) :
      joinable E.forget.solver k a b = joinable E.solver k a b := by
    unfold joinable
    rw [mustEqual_forget]
  induction cs generalizing newArgs prev k with
  | nil => rfl
  | cons c cs ih =>
    simp only [joinExtracts, hjoinable]
    split
    next =>
      simp only [Program.forget_bind, ih]
      rfl
    next => exact ih _ _ _

theorem joinArguments_forget : joinArguments E.forget n = Program.forget (joinArguments E n) := by
  have hconcat (op : Operator) (w f k : Nat) (cs : List Node) :
      concatOf E.forget op w f k cs = Program.forget (concatOf E op w f k cs) := by
    unfold concatOf
    split
    next =>
      simp only [Program.forget_bind, newFlags_forget]
      rfl
    next => split <;> rfl
  unfold joinArguments
  split
  next => simp only [Program.forget_bind, joinExtracts_forget, hconcat]
  next => rfl

theorem takeParts_forget (partAt lo hi : Nat) (parts : List Node) :
    takeParts E.forget partAt lo hi parts = Program.forget (takeParts E partAt lo hi parts) := by
  induction parts generalizing partAt lo with
  | nil => rfl
  | cons part parts ih =>
    simp only [takeParts]
    split_ifs
    · exact ih _ _
    · rfl
    · simp only [Program.forget_bind, ih]
      rfl
    · simp only [Program.forget_bind, ih]
      rfl
    · rfl
    · simp only [Program.forget_bind, ih]
      rfl

theorem rewriteExtract_forget : rewriteExtract E.forget n = Program.forget (rewriteExtract E n) := by
  have hconcat (lo hi : Nat) (parts : List Node) :
      extractConcat E.forget lo hi parts = Program.forget (extractConcat E lo hi parts) := by
    unfold extractConcat
    rw [Program.forget_bind, takeParts_forget]
    congr 1
    funext ds
    split <;> rfl
  have hfrom (lo hi : Nat) (a : Node) :
      extractFrom E.forget lo hi a = Program.forget (extractFrom E lo hi a) := by
    unfold extractFrom
    split
    next => exact hconcat _ _ _
    next => rfl
    next => split <;> rfl
    next => rfl
  unfold rewriteExtract
  split
  next =>
    split
    next => rfl
    next =>
      split
      next => rfl
      next =>
        split
        next => rfl
        next => exact hfrom _ _ _
  next => rfl

theorem shrink_forget : shrink E.forget n = Program.forget (shrink E n) := by
  unfold shrink
  split
  next => split <;> rfl
  next => rfl

theorem nestedExtend_forget : nestedExtend E.forget n = Program.forget (nestedExtend E n) := by
  unfold nestedExtend
  split
  next => split <;> rfl
  next => rfl

theorem knownIte_forget : knownIte n = Program.forget (knownIte n) := by
  unfold knownIte
  split
  next => split <;> rfl
  next => rfl

theorem hoistExtracts_forget : hoistExtracts E.forget n = Program.forget (hoistExtracts E n) := by
  have hsame (x y : Node) : sameExtracts E.forget.solver x y = sameExtracts E.solver x y := by
    unfold sameExtracts
    rw [mustEqual_forget]
  unfold hoistExtracts
  split
  next =>
    rw [hsame]
    split <;> rfl
  next => rfl

theorem swapIte_forget : swapIte E.forget n = Program.forget (swapIte E n) := by
  unfold swapIte
  split <;> rfl

theorem rewriteAsr_forget : rewriteAsr n = Program.forget (rewriteAsr n) := by
  unfold rewriteAsr
  split
  next => split <;> rfl
  next => rfl

theorem combineShifts_forget : combineShifts E.forget n = Program.forget (combineShifts E n) := by
  have hextend (k : Nat) (a : Node) :
      combineStrengths.extendTo E.forget k a = Program.forget (combineStrengths.extendTo E k a) := by
    unfold combineStrengths.extendTo
    split <;> rfl
  have hstrengths (a b : Node) (w : Nat) :
      combineStrengths E.forget a b w = Program.forget (combineStrengths E a b w) := by
    unfold combineStrengths
    dsimp only
    by_cases hwide : 64 < max (if isPowerOfTwo w then max a.nBits b.nBits else max a.nBits b.nBits + 1)
        (log2max w + 1)
    · rw [if_pos hwide, if_pos hwide]
      rfl
    · rw [if_neg hwide, if_neg hwide]
      simp only [Program.forget_bind, hextend]
      rfl
  unfold combineShifts
  split
  next =>
    split
    next =>
      rw [Program.forget_bind, hstrengths]
      congr 1
      funext r
      cases r <;> rfl
    next => rfl
  next => rfl

theorem knownShl_forget (newBits : Bool) :
    knownShl E.forget newBits n = Program.forget (knownShl E newBits n) := by
  unfold knownShl
  split
  next =>
    split
    next => rfl
    next =>
      split
      next => rfl
      next => split <;> rfl
  next => rfl

theorem knownShr_forget (newBits : Bool) :
    knownShr E.forget newBits n = Program.forget (knownShr E newBits n) := by
  unfold knownShr
  split
  next =>
    split
    next => rfl
    next =>
      split
      next => rfl
      next => split <;> rfl
  next => rfl

theorem rewriteRotation_forget (rotate : BitVector → Nat → BitVector) :
    rewriteRotation E.forget rotate n = Program.forget (rewriteRotation E rotate n) := by
  unfold rewriteRotation
  split
  next =>
    split
    next => rfl
    next =>
      split
      next => rfl
      next =>
        split
        next => rfl
        next => split <;> rfl
  next => rfl

theorem foldingStage_forget (rewrite : Node → Folding) :
    foldingStage rewrite n = Program.forget (foldingStage rewrite n) := by
  unfold foldingStage
  split <;> rfl

theorem rewriteSet_forget : rewriteSet E.forget n = Program.forget (rewriteSet E n) := by
  unfold rewriteSet
  split
  next => rfl
  next =>
    dsimp only
    split
    next => rfl
    next => split <;> rfl
  next => rfl

theorem rewriteConvert_forget : rewriteConvert E.forget n = Program.forget (rewriteConvert E n) := by
  unfold rewriteConvert
  split
  next =>
    split
    next => rfl
    next => split <;> rfl
  next => rfl

theorem simplifyOther_forget (p : Nat) :
    simplifyOther E.forget p n = Program.forget (simplifyOther E p n) := by
  unfold simplifyOther
  split
  case h_1 => exact forget_orElse rfl rfl
  case h_7 => exact forget_orElse rfl (rewriteSet_forget E n)
  case h_20 => exact rewriteConvert_forget E n
  all_goals
    first
    | rfl
    | exact foldingStage_forget n _

/-- A round does not depend on what the solver has been told. -/
theorem simplifyRound_forget : simplifyRound E.forget n = Program.forget (simplifyRound E n) := by
  have hand {stage stage' : Stage} (h : ∀ m, stage' m = Program.forget (stage m)) (n : Node) :
      Stage.andThen associative (Stage.andThen (commutative E.forget) stage') n =
        Program.forget (Stage.andThen associative (Stage.andThen (commutative E) stage) n) :=
    forget_andThen fun _ => forget_andThen h
  cases n with
  | interior op w cs f =>
    cases op with
    | add =>
      exact forget_orElse (forget_orElse (forget_orElse
        (forget_orElse (hoistIte_forget E _) (dropDuals_forget E _))
        (hand (fun m => identity_forget E m 0) _)) rfl) rfl
    | and =>
      refine forget_orElse (forget_orElse (hand (fun m => ?_) _) rfl) rfl
      rw [idempotent_forget]
      exact forget_andThen fun m => identity_forget E m _
    | or =>
      refine forget_orElse (forget_orElse (hand (fun m => ?_) _) rfl) (rewriteOr_forget E _)
      rw [idempotent_forget]
      exact forget_andThen fun m => identity_forget E m _
    | xor =>
      exact forget_orElse (forget_orElse (hand (fun m => identity_forget E m _) _) rfl)
        (rewriteXor_forget E _)
    | umul => exact forget_orElse (hand (fun m => identity_forget E m _) _) rfl
    | smul => rfl
    | invert | negate => exact forget_orElse rfl rfl
    | asr => exact forget_orElse (additiveNesting_forget E _) (rewriteAsr_forget _)
    | shl0 | shl1 =>
      exact forget_orElse (additiveNesting_forget E _) (forget_orElse
        (forget_orElse rfl (combineShifts_forget E _)) (knownShl_forget E _ _))
    | shr0 | shr1 =>
      exact forget_orElse (additiveNesting_forget E _) (forget_orElse
        (forget_orElse rfl (combineShifts_forget E _)) (knownShr_forget E _ _))
    | rol | ror => exact rewriteRotation_forget E _ _
    | concat =>
      exact forget_orElse rfl (forget_orElse (hoistConcat_forget E _) (joinArguments_forget E _))
    | extract => exact rewriteExtract_forget E _
    | ite =>
      exact forget_orElse (forget_orElse (forget_orElse (knownIte_forget _) rfl)
        (hoistExtracts_forget E _)) (swapIte_forget E _)
    | uextend =>
      exact forget_orElse (forget_orElse rfl (nestedExtend_forget E _)) (shrink_forget E _)
    | sextend => exact forget_orElse rfl (shrink_forget E _)
    | other p => exact simplifyOther_forget E _ p
  | _ => rfl

theorem simplifyLoop_forget (a : Engine × Node) :
    simplifyLoop (a.1.forget, a.2) = Program.forget (simplifyLoop a) := by
  obtain ⟨E, n⟩ := a
  cases n with
  | interior op w cs f =>
    simp only [simplifyLoop]
    split
    next =>
      rw [Program.forget_bind, simplifyRound_forget]
      congr 1
      funext r
      cases r <;> rfl
    next => rfl
  | _ => rfl

end

mutual

theorem settled_forget {E : Engine} : ∀ n : Node, n.Settled E → n.Settled E.forget
  | .interior op w cs f, h => by
    refine ⟨?_, allSettled_forget cs h.2⟩
    rw [simplifyRound_forget, h.1]
    rfl
  | .var _ _ _, _ => trivial
  | .constant _ _, _ => trivial

theorem allSettled_forget {E : Engine} : ∀ cs : List Node, AllSettled E cs → AllSettled E.forget cs
  | [], _ => trivial
  | c :: cs, h => ⟨settled_forget c h.1, allSettled_forget cs h.2⟩

end

theorem fresh_forget {E : Engine} {n : Node} (h : n.Fresh E) : n.Fresh E.forget :=
  ⟨h.valid, fun c hc => settled_forget c (h.operands c hc)⟩

theorem terminates_of_forget {E : Engine} {n : Node} (h : Terminates simplifyLoop (E.forget, n)) :
    Terminates simplifyLoop (E, n) :=
  terminates_mapArgument simplifyLoop_forget h

end LoomX.Symbolic
