import LoomX.Symbolic.Operands

namespace LoomX.Symbolic

open RecursiveCalls

/-- The second simplification has the same addresses and finds at least the equalities that the
first one finds. -/
structure Engine.Weaker (E' E : Engine) : Prop where
  address : E'.address = E.address
  equal : ∀ a b : Node, a.nBits = b.nBits ∨ a.isIntegerConstant = true ∧ b.isIntegerConstant = true →
    mustEqual E'.solver a b = true → mustEqual E.solver a b = true

theorem Engine.Weaker.refl (E : Engine) : E.Weaker E := ⟨rfl, fun _ _ _ h => h⟩

theorem mustEqual_none {a b : Node}
    (hw : a.nBits = b.nBits ∨ a.isIntegerConstant = true ∧ b.isIntegerConstant = true)
    (h : mustEqual none a b = true) (solver : Option SmtSolver) : mustEqual solver a b = true := by
  cases a with
  | interior op w cs f =>
    have heq : Node.isEquivalentTo (.interior op w cs f) b = true := by
      simpa [mustEqual] using h
    simp [mustEqual, heq]
  | constant x f =>
    cases b with
    | constant y f' =>
      simp only [mustEqual] at h ⊢
      exact h
    | interior op w cs f' =>
      simp only [mustEqual, Option.any_none] at h ⊢
      split at h
      next heq => simp [heq]
      next => simp at h
    | var i w f' =>
      simp only [mustEqual, Option.any_none] at h ⊢
      split at h
      next heq => simp [heq]
      next => simp at h
  | var i w f =>
    cases b with
    | var i' w' f' =>
      have hw' : w = w' := by simpa [Node.nBits, Node.isIntegerConstant] using hw
      simp only [mustEqual, Option.any_none] at h ⊢
      split at h
      next heq => simp [heq]
      next hne =>
        split at h
        next => simp at h
        next hf =>
          have hi : i = i' := by simpa using h
          have hff : f = f' := by simpa [Node.flags] using hf
          subst hw' hi hff
          exact absurd ((Node.isEquivalentTo_iff _ _).mpr rfl) hne
    | interior op w' cs f' =>
      simp only [mustEqual, Option.any_none] at h ⊢
      split at h
      next heq => simp [heq]
      next => simp at h
    | constant y f' =>
      simp only [mustEqual, Option.any_none] at h ⊢
      split at h
      next heq => simp [heq]
      next => simp at h

theorem weaker_withoutSolver (E : Engine) : E.withoutSolver.Weaker E :=
  ⟨rfl, fun _ _ hw h => mustEqual_none hw h E.solver⟩

theorem bind_some_ne_none {γ : Type} {p : Program γ} {g : γ → Node} :
    (p >>= fun c => pure (some (g c))) ≠ .ret none := by
  intro h
  obtain ⟨c, -, hc⟩ := Calls.bind_eq_ret h
  cases hc

theorem orElse_eq_none {f g : Stage} {n : Node} :
    (f.orElse g) n = .ret none ↔ f n = .ret none ∧ g n = .ret none := by
  unfold Stage.orElse
  constructor
  · intro h
    obtain ⟨r, hr, hg⟩ := Calls.bind_eq_ret h
    cases r with
    | none => exact ⟨hr, hg⟩
    | some m => cases hg
  · rintro ⟨hf, hg⟩
    rw [hf]
    exact hg

theorem andThen_eq_none {f : Node → Option Node} {g : Stage} {n : Node} :
    Stage.andThen f g n = .ret none ↔ f n = none ∧ g n = .ret none := by
  unfold Stage.andThen
  cases hf : f n with
  | none => simp
  | some m =>
    have hne : (g m >>= fun r => pure (some (r.getD m))) ≠ .ret none := bind_some_ne_none
    simpa using hne

theorem pure_eq_none {f : Node → Option Node} {n : Node} :
    Stage.pure f n = .ret none ↔ f n = none := by
  unfold Stage.pure
  constructor
  · intro h
    cases hf : f n with
    | none => rfl
    | some m =>
      rw [hf] at h
      cases h
  · intro h
    rw [h]

section

variable {E E' : Engine} {op : Operator} {w f f' : Nat} {cs : List Node}

theorem andThenPure_eq_none {g h : Node → Option Node} {n : Node} :
    andThenPure g h n = none ↔ g n = none ∧ h n = none := by
  unfold andThenPure
  cases g n <;> simp

theorem commutative_refresh (hE : E'.Weaker E) (h : commutative E (.interior op w cs f) = none) :
    commutative E' (.interior op w cs f') = none := by
  simp only [commutative] at h ⊢
  rw [hE.address]
  exact h

theorem keepNew_sublist (E : Engine) (last : Node) (cs : List Node) :
    (keepNew E last cs).Sublist cs := by
  induction cs generalizing last with
  | nil => exact .slnil
  | cons c cs ih =>
    rw [keepNew]
    split
    next => exact (ih last).cons c
    next => exact (ih c).cons_cons c

theorem keepNew_refresh (hE : E'.Weaker E) {last : Node} (hw : ∀ c ∈ cs, c.nBits = last.nBits)
    (h : keepNew E last cs = cs) : keepNew E' last cs = cs := by
  induction cs generalizing last with
  | nil => rfl
  | cons c cs ih =>
    have hc := hw c List.mem_cons_self
    rw [keepNew] at h ⊢
    split at h
    next hequal =>
      have hlen := congrArg List.length h
      have hle := (keepNew_sublist E last cs).length_le
      simp only [List.length_cons] at hlen
      omega
    next hequal =>
      have hequal' : ¬ mustEqual E'.solver last c = true := fun he =>
        hequal (hE.equal last c (Or.inl hc.symm) he)
      rw [if_neg hequal', ih (fun d hd => ?_) (List.cons.inj h).2]
      rw [hw d (List.mem_cons_of_mem c hd), hc]

theorem idempotent_refresh (hE : E'.Weaker E) (hw : ∀ c ∈ cs, c.nBits = w)
    (h : idempotent E (.interior op w cs f) = none) :
    idempotent E' (.interior op w cs f') = none := by
  simp only [idempotent, ite_eq_left_iff, reduceCtorEq, imp_false, not_not] at h ⊢
  cases cs with
  | nil => rfl
  | cons c cs =>
    rw [dropRepeats, List.cons.injEq] at h ⊢
    refine ⟨rfl, keepNew_refresh hE (fun d hd => ?_) h.2⟩
    rw [hw d (List.mem_cons_of_mem c hd), hw c List.mem_cons_self]

theorem identity_refresh {ident : Nat} (h : identity E ident (.interior op w cs f) = .ret none) :
    identity E' ident (.interior op w cs f') = .ret none := by
  simp only [identity] at h ⊢
  split at h
  next hlen =>
    rw [if_pos hlen]
    rfl
  next hlen =>
    rw [if_neg hlen]
    split at h
    next => cases h
    next a heq =>
      split at h
      next => exact absurd h bind_some_ne_none
      next => cases h
    next =>
      split at h
      next hwidth => rw [if_pos hwidth]; rfl
      next => cases h

theorem hoistIte_refresh (h : hoistIte E (.interior op w cs f) = .ret none) :
    hoistIte E' (.interior op w cs f') = .ret none := by
  unfold hoistIte at h ⊢
  split at h
  next heq =>
    cases heq
    dsimp only
    split at h
    next hb =>
      rw [if_pos hb]
      rfl
    next => cases h
  next => cases h
  next hfirst hsecond =>
    split
    next heq =>
      cases heq
      exact (hfirst _ _ _ _ _ _ _ _ _ rfl).elim
    next heq =>
      cases heq
      exact (hsecond _ _ _ _ _ _ _ _ _ rfl).elim
    next => rfl

theorem distributeNegations_refresh (h : distributeNegations E cs = .ret none) :
    distributeNegations E' cs = .ret none := by
  unfold distributeNegations at h ⊢
  split at h
  next =>
    obtain ⟨ds, -, hds⟩ := Calls.bind_eq_ret h
    cases hds
  next hnone =>
    rw [if_neg hnone]
    rfl

theorem sumOf_ne_none : sumOf E w cs ≠ .ret none := by
  unfold sumOf
  split
  next => simp [pure]
  next => simp [pure]
  next => exact bind_some_ne_none

theorem dropDuals_refresh (h : dropDuals E (.interior op w cs f) = .ret none) :
    dropDuals E' (.interior op w cs f') = .ret none := by
  simp only [dropDuals] at h ⊢
  split at h
  next hlen =>
    rw [if_pos hlen]
    exact distributeNegations_refresh h
  next => exact absurd h sumOf_ne_none

theorem rebuild_eq_none {cs' : List Node} (h : rebuild E op w cs cs' = .ret none) :
    cs'.length = cs.length ∧ 2 ≤ cs'.length := by
  match cs' with
  | [] => cases h
  | [c] => cases h
  | c :: d :: rest =>
    simp only [rebuild] at h
    split at h
    next hlen => exact ⟨hlen, by simp⟩
    next => exact absurd h bind_some_ne_none

theorem rebuild_refresh {cs' : List Node} (h : rebuild E op w cs cs' = .ret none) :
    rebuild E' op w cs cs' = .ret none := by
  obtain ⟨hlen, htwo⟩ := rebuild_eq_none h
  match cs' with
  | [] => simp at htwo
  | [c] => simp at htwo
  | c :: d :: rest =>
    simp only [rebuild, if_pos hlen]
    rfl

theorem rewriteOr_refresh (h : rewriteOr E (.interior op w cs f) = .ret none) :
    rewriteOr E' (.interior op w cs f') = .ret none := by
  simp only [rewriteOr] at h ⊢
  split at h
  next => cases h
  next => exact rebuild_refresh h

theorem cancelPairs_length (E : Engine) (steps : Nat) (cs : List Node) :
    (cancelPairs E steps cs).length ≤ cs.length := by
  induction steps generalizing cs with
  | zero => simp [cancelPairs]
  | succ steps ih =>
    cases cs with
    | nil => simp [cancelPairs]
    | cons c cs =>
      rw [cancelPairs]
      have hcs := ih cs
      split
      next =>
        simp only [List.length_cons]
        omega
      next =>
        split
        next =>
          have herase := ih (cs.eraseP (mustEqual E.solver c))
          have hle := (List.eraseP_sublist (p := mustEqual E.solver c) (l := cs)).length_le
          simp only [List.length_cons]
          omega
        next =>
          simp only [List.length_cons]
          omega

theorem cancelPairs_refresh (hE : E'.Weaker E) {steps : Nat} (hw : ∀ c ∈ cs, c.nBits = w)
    (h : (cancelPairs E steps cs).length = cs.length) :
    cancelPairs E' steps cs = cancelPairs E steps cs := by
  induction steps generalizing cs with
  | zero => rfl
  | succ steps ih =>
    cases cs with
    | nil => rfl
    | cons c cs =>
      have hrest := cancelPairs_length E steps cs
      rw [cancelPairs] at h
      rw [cancelPairs, cancelPairs]
      split at h
      next =>
        simp only [List.length_cons] at h
        omega
      next hzero =>
        rw [if_neg hzero, if_neg hzero]
        split at h
        next =>
          have herase := cancelPairs_length E steps (cs.eraseP (mustEqual E.solver c))
          have hle := (List.eraseP_sublist (p := mustEqual E.solver c) (l := cs)).length_le
          simp only [List.length_cons] at h
          omega
        next hany =>
          have hany' : ¬ cs.any (mustEqual E'.solver c) = true := by
            intro h'
            apply hany
            rw [List.any_eq_true] at h' ⊢
            obtain ⟨d, hd, hequal⟩ := h'
            refine ⟨d, hd, hE.equal c d (Or.inl ?_) hequal⟩
            rw [hw c List.mem_cons_self, hw d (List.mem_cons_of_mem c hd)]
          rw [if_neg hany, if_neg hany']
          rw [ih (fun d hd => hw d (List.mem_cons_of_mem c hd)) (by simpa using h)]

theorem rewriteXor_refresh (hE : E'.Weaker E) (hw : ∀ c ∈ cs, c.nBits = w)
    (h : rewriteXor E (.interior op w cs f) = .ret none) :
    rewriteXor E' (.interior op w cs f') = .ret none := by
  simp only [rewriteXor] at h ⊢
  rw [cancelPairs_refresh hE hw (rebuild_eq_none h).1]
  exact rebuild_refresh h

theorem commonCondition_cons_none {solver : Option SmtSolver} {condition : Option Node} {d : Node}
    (hd : d.isOperator .ite = false) : commonCondition solver condition (d :: cs) = none := by
  unfold commonCondition
  split
  next heq => simp at heq
  next heq =>
    cases (List.cons.inj heq).1
    simp [Node.isOperator] at hd
  next => rfl

theorem commonCondition_refresh (hE : E'.Weaker E) {condition : Option Node}
    (hvalid : ∀ c ∈ cs, c.Valid) (hc : ∀ c ∈ condition, c.nBits = 1)
    (h : commonCondition E.solver condition cs = none) :
    commonCondition E'.solver condition cs = none := by
  induction cs generalizing condition with
  | nil => exact h
  | cons d cs ih =>
    by_cases hd : d.isOperator .ite = true
    · cases d with
      | interior op' w' ds f' =>
        have hite : op' = .ite := by simpa [Node.isOperator] using hd
        subst hite
        obtain ⟨c, x, y, rfl, hc1, -, -⟩ := (hvalid _ List.mem_cons_self).2.1
        simp only [commonCondition] at h ⊢
        split at h
        next hcond =>
          have hrest : commonCondition E'.solver (some (condition.getD c)) cs = none := by
            refine ih (fun e he => hvalid e (List.mem_cons_of_mem _ he)) (fun e he => ?_)
              (by simpa using h)
            cases Option.mem_some_iff.mp he
            cases condition with
            | none => exact hc1
            | some e => exact hc e rfl
          rw [hrest]
          simp
        next hcond =>
          have hcond' : ¬ ((condition.map fun c' => mustEqual E'.solver c c').getD true = true) := by
            intro h'
            apply hcond
            cases condition with
            | none => rfl
            | some e => exact hE.equal c e (Or.inl (hc1.trans (hc e rfl).symm)) h'
          rw [if_neg hcond']
      | _ => simp [Node.isOperator] at hd
    · exact commonCondition_cons_none (by simpa using hd)

theorem joinable_refresh (hE : E'.Weaker E) {prevLo : Nat} {p arg : Node}
    (h : joinable E.solver prevLo p arg = none) : joinable E'.solver prevLo p arg = none := by
  unfold joinable at h ⊢
  split at h
  next =>
    split at h
    next => cases h
    next hnot =>
      rw [if_neg]
      rintro ⟨hlo, hhi, hprev, hw, hequal⟩
      exact hnot ⟨hlo, hhi, hprev, hw, hE.equal _ _ (Or.inl hw) hequal⟩
  next => rfl

/-- Arguments that are left alone with one solver are left alone with a weaker one. -/
theorem joinExtracts_refresh (hE : E'.Weaker E) {newArgs ms : List Node} {prev : Option Node}
    {prevLo : Nat} (h : joinExtracts E newArgs prev prevLo cs = .ret ms) :
    joinExtracts E' newArgs prev prevLo cs = .ret ms := by
  induction cs generalizing newArgs prev prevLo with
  | nil => exact h
  | cons arg args ih =>
    unfold joinExtracts at h ⊢
    split at h
    next =>
      obtain ⟨m, hm, -⟩ := Calls.bind_eq_ret h
      cases hm
    next hnone =>
      have hnone' : (prev.bind fun p => joinable E'.solver prevLo p arg) = none := by
        cases prev with
        | none => rfl
        | some p => exact joinable_refresh hE hnone
      rw [hnone']
      exact ih h

theorem hoistConcat_eq_none :
    hoistConcat E (.interior op w cs f) = .ret none ↔ commonCondition E.solver none cs = none := by
  simp only [hoistConcat]
  cases hcond : commonCondition E.solver none cs with
  | none => simp [pure]
  | some r =>
    obtain ⟨c, xs, ys⟩ := r
    simp only [reduceCtorEq, iff_false]
    intro h
    cases h

theorem concatOf_eq_none {n : Nat} {ms : List Node} (h : concatOf E op w f n ms = .ret none) :
    ms.length = n ∧ ms.length ≠ 1 := by
  match ms with
  | [m] => exact absurd h bind_some_ne_none
  | [] =>
    simp only [concatOf] at h
    split at h
    next hlen => exact ⟨hlen, by simp⟩
    next => exact absurd h bind_some_ne_none
  | m :: m' :: rest =>
    simp only [concatOf] at h
    split at h
    next hlen => exact ⟨hlen, by simp⟩
    next => exact absurd h bind_some_ne_none

theorem concatOf_refresh {n : Nat} {ms : List Node} (h : concatOf E op w f n ms = .ret none) :
    concatOf E' op w f' n ms = .ret none := by
  obtain ⟨hlen, hone⟩ := concatOf_eq_none h
  match ms with
  | [m] => exact absurd rfl hone
  | [] =>
    simp only [concatOf, if_pos hlen]
    rfl
  | m :: m' :: rest =>
    simp only [concatOf, if_pos hlen]
    rfl

theorem joinArguments_refresh (hE : E'.Weaker E)
    (h : joinArguments E (.interior op w cs f) = .ret none) :
    joinArguments E' (.interior op w cs f') = .ret none := by
  simp only [joinArguments] at h ⊢
  obtain ⟨ms, hms, hrest⟩ := Calls.bind_eq_ret h
  rw [joinExtracts_refresh hE hms]
  exact concatOf_refresh hrest

theorem extractFrom_refresh {lo hi : Nat} {a : Node} (h : extractFrom E lo hi a = .ret none) :
    extractFrom E' lo hi a = .ret none := by
  unfold extractFrom at h ⊢
  split at h
  next =>
    obtain ⟨ms, -, hms⟩ := Calls.bind_eq_ret h
    match ms with
    | [] => cases hms
    | [m] => cases hms
    | m :: m' :: rest => cases hms
  next => exact absurd h bind_some_ne_none
  next =>
    split at h
    next => cases h
    next hnot => rw [if_neg hnot]; rfl
  next => rfl

theorem rewriteExtract_refresh (h : rewriteExtract E (.interior op w cs f) = .ret none) :
    rewriteExtract E' (.interior op w cs f') = .ret none := by
  unfold rewriteExtract at h ⊢
  split at h
  next heq =>
    cases heq
    dsimp only
    split at h
    next hlimits =>
      rw [if_pos hlimits]
      rfl
    next hlimits =>
      rw [if_neg hlimits]
      split at h
      next => cases h
      next =>
        split at h
        next => cases h
        next hwhole =>
          rw [if_neg hwhole]
          exact extractFrom_refresh h
  next hpattern =>
    split
    next heq =>
      cases heq
      exact (hpattern _ _ _ _ _ _ _ _ rfl).elim
    next => rfl

theorem nestedExtend_refresh (h : nestedExtend E (.interior op w cs f) = .ret none) :
    nestedExtend E' (.interior op w cs f') = .ret none := by
  unfold nestedExtend at h ⊢
  split at h
  next heq =>
    cases heq
    dsimp only
    split at h
    next => exact absurd h bind_some_ne_none
    next hnot =>
      rw [if_neg hnot]
      rfl
  next hpattern =>
    split
    next heq =>
      cases heq
      exact (hpattern _ _ _ _ _ _ _ _ rfl).elim
    next => rfl

theorem shrink_refresh (h : shrink E (.interior op w cs f) = .ret none) :
    shrink E' (.interior op w cs f') = .ret none := by
  unfold shrink at h ⊢
  split at h
  next heq =>
    cases heq
    dsimp only
    split at h
    next => exact absurd h bind_some_ne_none
    next hnot =>
      rw [if_neg hnot]
      rfl
  next hpattern =>
    split
    next heq =>
      cases heq
      exact (hpattern _ _ _ _ _ rfl).elim
    next => rfl

theorem sameExtracts_refresh (hE : E'.Weaker E) {x y : Node} (hx : x.Valid) (hy : y.Valid)
    (h : sameExtracts E.solver x y = none) : sameExtracts E'.solver x y = none := by
  unfold sameExtracts at h ⊢
  split at h
  next =>
    obtain ⟨lo, fl, hi, fh, a, heq, -⟩ := hx.2.1
    obtain ⟨lo', fl', hi', fh', a', heq', -⟩ := hy.2.1
    cases heq
    cases heq'
    split at h
    next => cases h
    next hnot =>
      rw [if_neg]
      rintro ⟨hw, hlo, hhi, ha⟩
      exact hnot ⟨hw, hE.equal _ _ (Or.inr ⟨rfl, rfl⟩) hlo, hE.equal _ _ (Or.inr ⟨rfl, rfl⟩) hhi, ha⟩
  next => rfl

theorem hoistExtracts_refresh (hE : E'.Weaker E) (hvalid : ∀ c ∈ cs, c.Valid)
    (h : hoistExtracts E (.interior op w cs f) = .ret none) :
    hoistExtracts E' (.interior op w cs f') = .ret none := by
  unfold hoistExtracts at h ⊢
  split at h
  next heq =>
    cases heq
    dsimp only
    split at h
    next => cases h
    next hnone =>
      rw [sameExtracts_refresh hE (hvalid _ (by simp)) (hvalid _ (by simp)) hnone]
      rfl
  next hpattern =>
    split
    next heq =>
      cases heq
      exact (hpattern _ _ _ _ _ _ rfl).elim
    next => rfl

theorem swapIte_refresh (h : swapIte E (.interior op w cs f) = .ret none) :
    swapIte E' (.interior op w cs f') = .ret none := by
  unfold swapIte at h ⊢
  split at h
  next => exact absurd h bind_some_ne_none
  next hpattern =>
    split
    next heq =>
      cases heq
      exact (hpattern _ _ _ _ _ _ _ _ _ rfl).elim
    next => rfl

/-- Shifts of the same kind are never left for the rule that adds the amounts without overflow. -/
theorem additiveNesting_refresh (h : additiveNesting E (.interior op w cs f) = .ret none) :
    additiveNesting E' (.interior op w cs f') = .ret none ∧
      combineShifts E' (.interior op w cs f') = .ret none := by
  unfold additiveNesting at h
  unfold additiveNesting combineShifts
  split at h
  next heq =>
    cases heq
    dsimp only
    split at h
    next =>
      obtain ⟨a, -, ha⟩ := Calls.bind_eq_ret h
      obtain ⟨b, -, hb⟩ := Calls.bind_eq_ret ha
      exact absurd hb bind_some_ne_none
    next hop => exact ⟨if_neg hop, if_neg hop⟩
  next hpattern =>
    constructor
    all_goals
      split
      next heq =>
        cases heq
        exact (hpattern _ _ _ _ _ _ _ _ _ rfl).elim
      next => rfl

theorem rewriteAsr_refresh (h : rewriteAsr (.interior op w cs f) = .ret none) :
    rewriteAsr (.interior op w cs f') = .ret none := by
  unfold rewriteAsr at h ⊢
  split at h
  next =>
    split at h
    next => cases h
    next => cases h
  next hpattern =>
    split
    next heq =>
      cases heq
      exact (hpattern _ _ _ _ _ _ _ rfl).elim
    next => rfl

theorem foldShift_refresh {shift : BitVector → Nat → BitVector}
    (h : foldShift shift (.interior op w cs f) = none) :
    foldShift shift (.interior op w cs f') = none := by
  unfold foldShift at h ⊢
  split at h
  next heq =>
    cases heq
    simpa using h
  next hpattern =>
    split
    next heq =>
      cases heq
      exact (hpattern _ _ _ _ _ _ rfl).elim
    next => rfl

theorem knownShl_refresh {newBits : Bool} (h : knownShl E newBits (.interior op w cs f) = .ret none) :
    knownShl E' newBits (.interior op w cs f') = .ret none := by
  unfold knownShl at h ⊢
  split at h
  next heq =>
    cases heq
    dsimp only
    split at h
    next => rfl
    next =>
      split at h
      next => cases h
      next =>
        split at h
        next => cases h
        next => cases h
  next hpattern =>
    split
    next heq =>
      cases heq
      exact (hpattern _ _ _ _ _ rfl).elim
    next => rfl

theorem knownShr_refresh {newBits : Bool} (h : knownShr E newBits (.interior op w cs f) = .ret none) :
    knownShr E' newBits (.interior op w cs f') = .ret none := by
  unfold knownShr at h ⊢
  split at h
  next heq =>
    cases heq
    dsimp only
    split at h
    next => rfl
    next =>
      split at h
      next => cases h
      next =>
        split at h
        next => cases h
        next => cases h
  next hpattern =>
    split
    next heq =>
      cases heq
      exact (hpattern _ _ _ _ _ rfl).elim
    next => rfl

theorem rewriteRotation_refresh {rotate : BitVector → Nat → BitVector}
    (h : rewriteRotation E rotate (.interior op w cs f) = .ret none) :
    rewriteRotation E' rotate (.interior op w cs f') = .ret none := by
  unfold rewriteRotation at h ⊢
  split at h
  next heq =>
    cases heq
    dsimp only
    split at h
    next => rfl
    next =>
      split at h
      next => cases h
      next =>
        split at h
        next => cases h
        next hmod =>
          rw [if_neg hmod]
          split at h
          next => cases h
          next hle =>
            rw [if_neg hle]
            rfl
  next hpattern =>
    split
    next heq =>
      cases heq
      exact (hpattern _ _ _ _ _ rfl).elim
    next => rfl

theorem foldExtend_refresh {extend : BitVector → Nat → BitVector}
    (h : foldExtend extend (.interior op w cs f) = none) :
    foldExtend extend (.interior op w cs f') = none := by
  unfold foldExtend at h ⊢
  split at h
  next heq =>
    cases heq
    dsimp only
    split at h
    next => cases h
    next hw =>
      rw [if_neg hw]
      split at h
      next => cases h
      next => rfl
  next hpattern =>
    split
    next heq =>
      cases heq
      exact (hpattern _ _ _ _ _ rfl).elim
    next => rfl

theorem rewriteInvert_refresh (h : rewriteInvert (.interior op w cs f) = none) :
    rewriteInvert (.interior op w cs f') = none := by
  unfold rewriteInvert at h ⊢
  split at h
  next => cases h
  next hpattern =>
    split
    next heq =>
      cases heq
      exact (hpattern _ _ _ _ _ _ rfl).elim
    next => rfl

theorem rewriteNegate_refresh (h : rewriteNegate (.interior op w cs f) = none) :
    rewriteNegate (.interior op w cs f') = none := by
  unfold rewriteNegate at h ⊢
  split at h
  next => cases h
  next hpattern =>
    split
    next heq =>
      cases heq
      exact (hpattern _ _ _ _ _ _ rfl).elim
    next => rfl

theorem unaryNoOp_refresh (h : unaryNoOp (.interior op w cs f) = none) :
    unaryNoOp (.interior op w cs f') = none := by
  match cs with
  | [] => rfl
  | [c] => cases h
  | c :: d :: rest => rfl

theorem involutary_refresh (h : involutary (.interior op w cs f) = none) :
    involutary (.interior op w cs f') = none := by
  unfold involutary at h ⊢
  split at h
  next heq =>
    cases heq
    exact h
  next hpattern =>
    split
    next heq =>
      cases heq
      exact (hpattern _ _ _ _ _ _ _ rfl).elim
    next => rfl

theorem knownIte_refresh (h : knownIte (.interior op w cs f) = .ret none) :
    knownIte (.interior op w cs f') = .ret none := by
  unfold knownIte at h ⊢
  split at h
  next heq =>
    cases heq
    exact h
  next hpattern =>
    split
    next heq =>
      cases heq
      exact (hpattern _ _ _ _ _ _ _ rfl).elim
    next => rfl

theorem sameIte_refresh (h : sameIte (.interior op w cs f) = none) :
    sameIte (.interior op w cs f') = none := by
  unfold sameIte at h ⊢
  split at h
  next heq =>
    cases heq
    exact h
  next hpattern =>
    split
    next heq =>
      cases heq
      exact (hpattern _ _ _ _ _ _ rfl).elim
    next => rfl

theorem foldComparison_refresh {holds : BitVector → BitVector → Bool} {ifEqual : Bool}
    (h : foldComparison holds ifEqual (.interior op w cs f) = none) :
    foldComparison holds ifEqual (.interior op w cs f') = none := by
  match cs with
  | [] => rfl
  | [c] => cases c <;> rfl
  | a :: b :: rest =>
    cases a <;> cases b <;>
      first
      | cases h
      | exact (ite_eq_right_iff.mpr fun hcond => by cases (if_pos hcond).symm.trans h)

theorem rewriteZerop_refresh (h : rewriteZerop (.interior op w cs f) = none) :
    rewriteZerop (.interior op w cs f') = none := by
  match cs with
  | [] => rfl
  | c :: rest => cases c <;> first | rfl | cases h

theorem foldPosition_refresh {position : BitVector → Option Nat}
    (h : foldPosition position (.interior op w cs f) = none) :
    foldPosition position (.interior op w cs f') = none := by
  match cs with
  | [] => rfl
  | .constant a g :: rest =>
    simp only [foldPosition] at h
    split at h <;> cases h
  | .var _ _ _ :: rest => rfl
  | .interior _ _ _ _ :: rest => rfl

theorem foldingStage_eq_none {rewrite : Node → Folding} {n : Node} :
    foldingStage rewrite n = .ret none ↔ rewrite n = .unchanged := by
  unfold foldingStage
  cases rewrite n <;> simp

theorem foldDivision_refresh {divide : BitVector → BitVector → Option BitVector}
    (h : foldingStage (foldDivision divide) (.interior op w cs f) = .ret none) :
    foldingStage (foldDivision divide) (.interior op w cs f') = .ret none := by
  rw [foldingStage_eq_none] at h ⊢
  unfold foldDivision at h ⊢
  split at h
  next a g b g' k heq =>
    cases heq
    show (if b.isEqualToZero = true then _ else _) = _
    by_cases hzero : b.isEqualToZero = true
    · rw [if_pos hzero]
    rw [if_neg hzero] at h ⊢
    by_cases hsize : a.size ≤ 64 ∧ b.size ≤ 64
    · rw [if_pos hsize] at h
      split at h <;> cases h
    · rw [if_neg hsize]
  next hpattern =>
    split
    next heq =>
      cases heq
      exact (hpattern _ _ _ _ _ _ _ rfl).elim
    next => rfl

theorem rewriteSet_refresh (h : rewriteSet E (.interior op w cs f) = .ret none) :
    rewriteSet E' (.interior op w cs f') = .ret none := by
  match cs with
  | [] => rfl
  | [c] => cases h
  | c :: d :: rest =>
    simp only [rewriteSet] at h ⊢
    by_cases hlen : (distinct [] (c :: d :: rest)).length = (c :: d :: rest).length
    · rw [if_pos hlen]
      rfl
    · rw [if_neg hlen] at h
      split at h
      next => cases h
      next => exact absurd h bind_some_ne_none

theorem rewriteConvert_refresh (h : rewriteConvert E (.interior op w cs f) = .ret none) :
    rewriteConvert E' (.interior op w cs f') = .ret none := by
  match cs with
  | [] => rfl
  | c :: rest =>
    simp only [rewriteConvert] at h
    split_ifs at h
    · cases h
    · cases h
    · cases h

theorem rewriteReinterpret_refresh (h : rewriteReinterpret (.interior op w cs f) = none) :
    rewriteReinterpret (.interior op w cs f') = none := by
  match cs with
  | [] => rfl
  | c :: rest => exact h

/-- The rounds of the operators that are given by their positions, one rule after the other. -/
theorem simplifyOther_refresh (hE : E'.Weaker E) {p : Nat}
    (h : simplifyOther E p (.interior op w cs f) = .ret none) :
    simplifyOther E' p (.interior op w cs f') = .ret none := by
  have hpure {g : Node → Option Node} (hg : g (.interior op w cs f) = none →
      g (.interior op w cs f') = none) (h : Stage.pure g (.interior op w cs f) = .ret none) :
      Stage.pure g (.interior op w cs f') = .ret none := pure_eq_none.mpr (hg (pure_eq_none.mp h))
  unfold simplifyOther at h ⊢
  split at h
  case h_1 =>
    rw [orElse_eq_none] at h ⊢
    exact ⟨pure_eq_none.mpr (commutative_refresh hE (pure_eq_none.mp h.1)),
      hpure foldComparison_refresh h.2⟩
  case h_4 => exact pure_eq_none.mpr (commutative_refresh hE (pure_eq_none.mp h))
  case h_7 =>
    rw [orElse_eq_none, pure_eq_none, andThenPure_eq_none] at h ⊢
    exact ⟨⟨h.1.1, commutative_refresh hE h.1.2⟩, rewriteSet_refresh h.2⟩
  case h_20 => exact rewriteConvert_refresh h
  all_goals
    first
    | exact hpure foldComparison_refresh h
    | exact hpure foldPosition_refresh h
    | exact hpure unaryNoOp_refresh h
    | exact hpure rewriteZerop_refresh h
    | exact hpure rewriteReinterpret_refresh h
    | exact foldDivision_refresh h
    | rfl

/-- The operands of an n-ary operator that does not multiply have the width of the node. -/
theorem nBits_of_sized (hmul : op.multiplies = false) (h : Sized op w cs) :
    ∀ c ∈ cs, c.nBits = w := by
  intro c hc
  have hfits := h.fits
  unfold Operator.Fits at hfits
  rw [hmul] at hfits
  exact hfits c.nBits (List.mem_map.mpr ⟨c, hc, rfl⟩)

/-- What a round leaves alone it leaves alone with other flags and a weaker solver. -/
theorem round_refresh (hE : E'.Weaker E) (hvalid : (Node.interior op w cs f).Valid)
    (h : simplifyRound E (.interior op w cs f) = .ret none) :
    simplifyRound E' (.interior op w cs f') = .ret none := by
  have hcs := fun c hc => hvalid.child (c := c) hc
  cases op with
  | add =>
    simp only [simplifyRound, simplifyAdd, rewriteAdd, orElse_eq_none, andThen_eq_none,
      pure_eq_none] at h ⊢
    obtain ⟨⟨⟨⟨hite, hduals⟩, hassoc, hcomm, hident⟩, hunary⟩, hfold⟩ := h
    exact ⟨⟨⟨⟨hoistIte_refresh hite, dropDuals_refresh hduals⟩, hassoc, commutative_refresh hE hcomm,
      identity_refresh hident⟩, unaryNoOp_refresh hunary⟩, hfold⟩
  | and =>
    have hw := nBits_of_sized rfl hvalid.2.1
    simp only [simplifyRound, simplifyAnd, orElse_eq_none, andThen_eq_none, pure_eq_none] at h ⊢
    obtain ⟨⟨⟨hassoc, hcomm, hidem, hident⟩, hfold⟩, hrewrite⟩ := h
    exact ⟨⟨⟨hassoc, commutative_refresh hE hcomm, idempotent_refresh hE hw hidem,
      identity_refresh hident⟩, hfold⟩, hrewrite⟩
  | or =>
    have hw := nBits_of_sized rfl hvalid.2.1
    simp only [simplifyRound, simplifyOr, orElse_eq_none, andThen_eq_none, pure_eq_none] at h ⊢
    obtain ⟨⟨⟨hassoc, hcomm, hidem, hident⟩, hfold⟩, hrewrite⟩ := h
    exact ⟨⟨⟨hassoc, commutative_refresh hE hcomm, idempotent_refresh hE hw hidem,
      identity_refresh hident⟩, hfold⟩, rewriteOr_refresh hrewrite⟩
  | xor =>
    have hw := nBits_of_sized rfl hvalid.2.1
    simp only [simplifyRound, simplifyXor, orElse_eq_none, andThen_eq_none, pure_eq_none] at h ⊢
    obtain ⟨⟨⟨hassoc, hcomm, hident⟩, hfold⟩, hrewrite⟩ := h
    exact ⟨⟨⟨hassoc, commutative_refresh hE hcomm, identity_refresh hident⟩, hfold⟩,
      rewriteXor_refresh hE hw hrewrite⟩
  | umul =>
    simp only [simplifyRound, simplifyUmul, orElse_eq_none, andThen_eq_none, pure_eq_none] at h ⊢
    obtain ⟨⟨hassoc, hcomm, hident⟩, hfold⟩ := h
    exact ⟨⟨hassoc, commutative_refresh hE hcomm, identity_refresh hident⟩, hfold⟩
  | smul =>
    simp only [simplifyRound, simplifySmul, pure_eq_none, andThenPure_eq_none] at h ⊢
    obtain ⟨hassoc, hcomm, hfold⟩ := h
    exact ⟨hassoc, commutative_refresh hE hcomm, hfold⟩
  | invert =>
    simp only [simplifyRound, simplifyInvert, orElse_eq_none, pure_eq_none] at h ⊢
    exact ⟨involutary_refresh h.1, rewriteInvert_refresh h.2⟩
  | negate =>
    simp only [simplifyRound, simplifyNegate, orElse_eq_none, pure_eq_none] at h ⊢
    exact ⟨involutary_refresh h.1, rewriteNegate_refresh h.2⟩
  | concat =>
    simp only [simplifyRound, simplifyConcat, rewriteConcat, orElse_eq_none, pure_eq_none,
      andThenPure_eq_none, hoistConcat_eq_none] at h ⊢
    obtain ⟨⟨hassoc, hfold⟩, hhoist, hjoin⟩ := h
    exact ⟨⟨hassoc, hfold⟩, commonCondition_refresh hE hcs (by simp) hhoist,
      joinArguments_refresh hE hjoin⟩
  | extract => exact rewriteExtract_refresh h
  | ite =>
    simp only [simplifyRound, rewriteIte, orElse_eq_none, pure_eq_none] at h ⊢
    obtain ⟨⟨⟨hknown, hsame⟩, hhoist⟩, hswap⟩ := h
    exact ⟨⟨⟨knownIte_refresh hknown, sameIte_refresh hsame⟩, hoistExtracts_refresh hE hcs hhoist⟩, swapIte_refresh hswap⟩
  | uextend =>
    simp only [simplifyRound, rewriteUextend, orElse_eq_none, pure_eq_none] at h ⊢
    obtain ⟨⟨hfold, hnested⟩, hshrink⟩ := h
    exact ⟨⟨foldExtend_refresh hfold, nestedExtend_refresh hnested⟩, shrink_refresh hshrink⟩
  | sextend =>
    simp only [simplifyRound, rewriteSextend, orElse_eq_none, pure_eq_none] at h ⊢
    exact ⟨foldExtend_refresh h.1, shrink_refresh h.2⟩
  | asr =>
    simp only [simplifyRound, orElse_eq_none] at h ⊢
    exact ⟨(additiveNesting_refresh h.1).1, rewriteAsr_refresh h.2⟩
  | shl0 | shl1 =>
    simp only [simplifyRound, rewriteShl, orElse_eq_none, pure_eq_none] at h ⊢
    obtain ⟨hnesting, ⟨hfold, -⟩, hknown⟩ := h
    obtain ⟨hnesting, hcombine⟩ := @additiveNesting_refresh E E' _ w f f' cs hnesting
    exact ⟨hnesting, ⟨foldShift_refresh hfold, hcombine⟩, knownShl_refresh hknown⟩
  | shr0 | shr1 =>
    simp only [simplifyRound, rewriteShr, orElse_eq_none, pure_eq_none] at h ⊢
    obtain ⟨hnesting, ⟨hfold, -⟩, hknown⟩ := h
    obtain ⟨hnesting, hcombine⟩ := @additiveNesting_refresh E E' _ w f f' cs hnesting
    exact ⟨hnesting, ⟨foldShift_refresh hfold, hcombine⟩, knownShr_refresh hknown⟩
  | rol => exact rewriteRotation_refresh h
  | ror => exact rewriteRotation_refresh h
  | other p => exact simplifyOther_refresh hE h

/-- A settled node stays settled with other flags. -/
theorem done_newFlags (h : (Node.interior op w cs f).Done E) (f' : Nat) :
    (Node.interior op w cs f').Done E :=
  ⟨h.valid, round_refresh (.refl E) h.valid h.settled.1, h.settled.2⟩

/-- A node made anew with other flags stays what it is. -/
theorem reaches_newFlags {n : Node} (h : n.Done E) (f : Nat) :
    Reaches simplifyLoop (fun m => m.Done E ∧ m.nBits = n.nBits ∧ m.weight = n.weight ∧
      ∀ other env, m.eval other env = n.eval other env)
      (newFlags E f n) := by
  unfold newFlags
  split
  next => exact ⟨h, rfl, rfl, fun _ _ => rfl⟩
  next =>
    cases n with
    | var i w f' => exact ⟨⟨h.valid, trivial⟩, rfl, by simp, fun _ _ => rfl⟩
    | constant b f' => exact ⟨⟨h.valid, trivial⟩, rfl, by simp, fun _ _ => rfl⟩
    | interior op w cs f' =>
      have haccepts := accepts_of_shape h.valid.1 h.valid.2.1
      have hcomputes : Computes simplifyLoop (E.withoutSolver, newInteriorOf w op cs f)
          (newInteriorOf w op cs f) := by
        refine ⟨1, ?_⟩
        rw [evaluate, newInteriorOf, simplifyLoop, if_pos haccepts,
          round_refresh (weaker_withoutSolver E) h.valid h.settled.1]
        rfl
      refine ⟨_, hcomputes, done_newFlags h _, rfl, ?_, fun other env => ?_⟩
      · rw [newInteriorOf, weight_interior, weight_interior]
      · rw [newInteriorOf, Node.eval_interior, Node.eval_interior]

end

end LoomX.Symbolic
