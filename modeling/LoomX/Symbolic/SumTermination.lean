import LoomX.Symbolic.NaryTermination

namespace LoomX.Symbolic

open RecursiveCalls

section

variable {E : Engine} {op : Operator} {w f : Nat} {cs : List Node} {m : Node}

theorem done_involutary (hfresh : (Node.interior op w cs f).Fresh E)
    (h : involutary (.interior op w cs f) = some m) :
    m.Done E ∧ ∃ w' g, cs = [.interior op w' [m] g] := by
  unfold involutary at h
  split at h
  next op' w' c g _ heq =>
    cases heq
    split at h
    next hop =>
      subst hop
      cases Option.some.inj h
      have hinner := hfresh.operand (c := .interior op' w' [m] g) List.mem_cons_self
      exact ⟨hinner.child List.mem_cons_self, w', g, rfl⟩
    next => cases h
  next => cases h

/-- A negation simplifies to what weighs no more than the operand. -/
theorem stops_negate (hready : (Node.interior .negate w cs f).Ready E) :
    Stops E (fun m => m.weight ≤ weightAll cs) (.interior .negate w cs f) := by
  refine stops_of_ready hready fun hfresh => stops_of_round hfresh (fun _ => ?_) ?_
  · rw [weight_interior]
    exact Nat.le_refl _
  show Halts _ (simplifyNegate (.interior .negate w cs f))
  refine halts_orElse (halts_pure fun m hm => ?_) fun _ => halts_pure fun m hm => ?_
  · obtain ⟨hdone, w', g, rfl⟩ := done_involutary hfresh hm
    refine stops_of_settled hdone ?_
    rw [weightAll_cons, weight_interior, weightAll_cons, weightAll_nil]
    exact Nat.le_refl _
  · unfold rewriteNegate at hm
    split at hm
    next b g rest f' heq =>
      cases heq
      cases Option.some.inj hm
      have hb := hfresh.operand (c := .constant b g) List.mem_cons_self
      refine stops_of_settled (done_constant hb.valid) ?_
      rw [weightAll_cons, weight_constant, weight_constant]
      exact Nat.le_add_right _ _
    next => cases hm

theorem ends_negate : Operator.negate.Ends E := fun _ _ _ hready =>
  (stops_negate hready).mono fun _ _ => trivial

theorem ends_invert : Operator.invert.Ends E := by
  refine ends_of_settled fun {w cs f} hfresh => ?_
  show Halts _ (simplifyInvert (.interior .invert w cs f))
  refine halts_orElse (halts_pure fun m hm => (done_involutary hfresh hm).1) fun _ =>
    halts_pure fun m hm => ?_
  unfold rewriteInvert at hm
  split at hm
  next b g rest f' heq =>
    cases heq
    cases Option.some.inj hm
    have hb := hfresh.operand (c := .constant b g) List.mem_cons_self
    exact done_constant hb.valid
  next => cases hm

/-- The sums that are negated, as they are opened. -/
theorem negatedSummands_cases {c : Node} {summands : List Node}
    (h : negatedSummands c = some summands) :
    ∃ w w' g g', c = .interior .negate w [.interior .add w' summands g] g' := by
  unfold negatedSummands at h
  split at h
  next w w' d ds g g' =>
    cases Option.some.inj h
    exact ⟨w, w', g, g', rfl⟩
  next => cases h

theorem finishes_invokeAll {summands : List Node} (h : ∀ d ∈ summands, d.Done E) :
    Finishes simplifyLoop (fun ds => (∀ d ∈ ds, d.Done E) ∧ weightAll ds ≤ weightAll summands)
      (Calls.invokeAll (summands.map fun d => (E, newInterior .negate [d] 0))) := by
  induction summands with
  | nil => exact ⟨fun d hd => absurd hd List.not_mem_nil, Nat.le_refl _⟩
  | cons d summands ih =>
    have hd : ∀ c ∈ [d], c.Done E := fun c hc => by
      rw [List.mem_singleton.mp hc]
      exact h d List.mem_cons_self
    have hnegate := finishes_stops (stops_negate (f := 0 ||| d.flags) (w := d.nBits)
      (ready_of_checked rfl hd _))
    refine hnegate.bind fun m hm => ?_
    refine (ih fun e he => h e (List.mem_cons_of_mem d he)).bind fun ms hms => ?_
    obtain ⟨hmDone, hmWeight⟩ := hm
    obtain ⟨hmsDone, hmsWeight⟩ := hms
    rw [weightAll_cons, weightAll_nil, Nat.add_zero] at hmWeight
    refine ⟨fun e he => ?_, ?_⟩
    · rcases List.mem_cons.mp he with rfl | he
      · exact hmDone
      · exact hmsDone e he
    · rw [weightAll_cons, weightAll_cons]
      omega

/-- Distributing a negation takes away the weight of the sum. -/
theorem finishes_distributed (hcs : ∀ c ∈ cs, c.Done E) :
    Finishes simplifyLoop (fun ds => (∀ d ∈ ds, d.Done E) ∧ weightAll ds ≤ weightAll cs ∧
      ((cs.any fun c => (negatedSummands c).isSome) = true → weightAll ds < weightAll cs))
      (distributed E cs) := by
  induction cs with
  | nil => exact ⟨fun d hd => absurd hd List.not_mem_nil, Nat.le_refl _, nofun⟩
  | cons c cs ih =>
    have hc := hcs c List.mem_cons_self
    have hrest := ih fun d hd => hcs d (List.mem_cons_of_mem c hd)
    simp only [distributed]
    split
    next hnone =>
      refine hrest.bind fun ds hds => ?_
      obtain ⟨hdone, hle, hlt⟩ := hds
      refine ⟨fun d hd => ?_, ?_, fun hany => ?_⟩
      · rcases List.mem_cons.mp hd with rfl | hd
        · exact hc
        · exact hdone d hd
      · rw [weightAll_cons, weightAll_cons]
        omega
      · rw [List.any_cons, hnone] at hany
        have hlt' := hlt hany
        rw [weightAll_cons, weightAll_cons]
        omega
    next summands hsome =>
      obtain ⟨w, w', g, g', rfl⟩ := negatedSummands_cases hsome
      have hsum := hc.child (c := .interior .add w' summands g) List.mem_cons_self
      refine (finishes_invokeAll fun d hd => hsum.child hd).bind fun negated hnegated => ?_
      refine hrest.bind fun ds hds => ?_
      obtain ⟨hnDone, hnWeight⟩ := hnegated
      obtain ⟨hdone, hle, -⟩ := hds
      have hweight : weightAll (negated ++ ds) <
          weightAll (.interior .negate w [.interior .add w' summands g] g' :: cs) := by
        rw [weightAll_append, weightAll_cons, weight_interior, weightAll_cons, weight_interior]
        simp only [Operator.weigh, weightAll_nil]
        omega
      refine ⟨fun d hd => ?_, Nat.le_of_lt hweight, fun _ => hweight⟩
      rcases List.mem_append.mp hd with hd | hd
      · exact hnDone d hd
      · exact hdone d hd

/-- A dual that is found is the one operand that goes. -/
theorem cancelDual_spec {a : Node} {l : List (Option Node)} {r : Bool × List (Option Node)}
    (h : cancelDual a l = some r) : r.2.length = l.length ∧
      (r.2.filterMap id).Sublist (l.filterMap id) ∧
      (r.2.filterMap id).length + 1 = (l.filterMap id).length := by
  induction l generalizing r with
  | nil => cases h
  | cons o rest ih =>
    cases o with
    | none => cases h
    | some b =>
      simp only [cancelDual] at h
      split at h
      next inverted _ =>
        cases Option.some.inj h
        exact ⟨rfl, (List.Sublist.refl _).cons b, rfl⟩
      next =>
        obtain ⟨r', hr', hmap⟩ := Option.map_eq_some_iff.mp h
        cases hmap
        obtain ⟨hlen, hsub, hcount⟩ := ih hr'
        refine ⟨congrArg (· + 1) hlen, hsub.cons_cons b, ?_⟩
        show (r'.2.filterMap id).length + 1 + 1 = (rest.filterMap id).length + 1
        rw [hcount]

/-- Operands go in pairs. -/
theorem cancelDuals_spec {steps : Nat} {l : List (Option Node)} (adjustment : BitVector)
    (hlen : l.length ≤ steps) :
    (cancelDuals steps l adjustment).1.Sublist (l.filterMap id) ∧
      ((cancelDuals steps l adjustment).1.length = (l.filterMap id).length ∨
        (cancelDuals steps l adjustment).1.length + 2 ≤ (l.filterMap id).length) ∧
      (cancelDuals steps l adjustment).2.size = adjustment.size := by
  induction steps generalizing l adjustment with
  | zero =>
    cases List.length_eq_zero_iff.mp (Nat.le_zero.mp hlen)
    exact ⟨.slnil, Or.inl rfl, rfl⟩
  | succ steps ih =>
    match l with
    | [] => exact ⟨.slnil, Or.inl rfl, rfl⟩
    | none :: rest => exact ih adjustment (Nat.le_of_succ_le_succ hlen)
    | some a :: rest =>
      rw [cancelDuals]
      split
      next inverted rest' hdual =>
        obtain ⟨hlen', hsub, hcount⟩ := cancelDual_spec hdual
        dsimp only at hlen' hsub hcount
        have hle : rest'.length ≤ steps := by
          rw [hlen']
          exact Nat.le_of_succ_le_succ hlen
        obtain ⟨hsub', -, hsize⟩ := ih (if inverted then adjustment.decrement else adjustment) hle
        have hshort := hsub'.length_le
        refine ⟨(hsub'.trans hsub).cons a, Or.inr ?_, ?_⟩
        · show _ + 2 ≤ (rest.filterMap id).length + 1
          omega
        · rw [hsize]
          split <;> rfl
      next =>
        obtain ⟨hsub, hcount, hsize⟩ := ih adjustment (Nat.le_of_succ_le_succ hlen)
        refine ⟨hsub.cons_cons a, ?_, hsize⟩
        show _ + 1 = (rest.filterMap id).length + 1 ∨ _ + 1 + 2 ≤ (rest.filterMap id).length + 1
        omega

section

variable
  (hbelow : ∀ m, Below E .add (operandRank E) (operandRank E cs) m → Stops E (fun _ => True) m)
include hbelow

theorem finishes_sum {ds : List Node} (hds : ∀ d ∈ ds, d.Done E)
    (hlt : weightAll ds < weightAll cs) :
    Finishes simplifyLoop (fun m => m.Done E) (makeInstance E .add ds) :=
  finishes_lighter (takes_of_checked rfl _) hds hlt hbelow 0

theorem halts_sumOf (hw : IsWidth w) {ds : List Node} (hds : ∀ d ∈ ds, d.Done E)
    (hlt : weightAll ds < weightAll cs) : Halts (fun m => m.Done E) (sumOf E w ds) := by
  unfold sumOf
  split
  next => exact halts_some (done_makeIntegerConstant hw 0)
  next c => exact halts_some (hds c List.mem_cons_self)
  next => exact halts_finishes (finishes_sum hbelow hds hlt)

theorem halts_distributeNegations (hcs : ∀ c ∈ cs, c.Done E) :
    Halts (fun m => m.Done E) (distributeNegations E cs) := by
  unfold distributeNegations
  split
  next hany =>
    refine Or.inr ((finishes_distributed hcs).bind fun ds hds => ?_)
    obtain ⟨hdone, -, hlt⟩ := hds
    exact (finishes_sum hbelow hdone (hlt hany)).bind fun m hm => ⟨m, rfl, hm⟩
  next => exact halts_none _

theorem halts_dropDuals (hcs : ∀ c ∈ cs, c.Done E) (hw : IsWidth w) :
    Halts (fun m => m.Done E) (dropDuals E (.interior .add w cs f)) := by
  have hlen : (cs.map some).length ≤ cs.length := by rw [List.length_map]
  have hspec := cancelDuals_spec (.fromInteger w 0) hlen
  have hall : (cs.map some).filterMap id = cs := by simp [List.filterMap_map]
  rw [hall] at hspec
  simp only [dropDuals]
  generalize cancelDuals cs.length (cs.map some) (.fromInteger w 0) = r at hspec
  obtain ⟨rest, adjustment⟩ := r
  obtain ⟨hsub, hcount, hsize⟩ := hspec
  dsimp only at hsub hcount hsize ⊢
  have hrest := fun d hd => hcs d (hsub.subset hd)
  have hweight := weightAll_add_length_le hsub fun c hc => (hcs c hc).valid
  split
  next => exact halts_distributeNegations hbelow hcs
  next hne =>
    -- two operands make room for the constant of the adjustment
    split
    next => exact halts_sumOf hbelow hw hrest (by omega)
    next =>
      refine halts_sumOf hbelow hw (fun d hd => ?_) ?_
      · rcases List.mem_append.mp hd with hd | hd
        · exact hrest d hd
        · rw [List.mem_singleton.mp hd]
          refine done_constant ?_
          rw [hsize]
          exact hw
      · rw [weightAll_append, weightAll_cons, weight_constant, weightAll_nil]
        omega

theorem halts_iteOfSums (hite : Operator.ite.Ends E) {c : Node} {ds es : List Node} (hc : c.Done E)
    (hds : ∀ d ∈ ds, d.Done E) (hes : ∀ e ∈ es, e.Done E) (hd : weightAll ds < weightAll cs)
    (he : weightAll es < weightAll cs) :
    Halts (fun m => m.Done E) (do
      let s ← makeInstance E .add ds
      let t ← makeInstance E .add es
      let m ← makeIte E c s t
      return some m) := by
  refine Or.inr ((finishes_sum hbelow hds hd).bind fun s hs => ?_)
  refine (finishes_sum hbelow hes he).bind fun t ht => ?_
  have hargs : ∀ a ∈ [c, s, t], a.Done E := List.forall_mem_cons.mpr ⟨hc, done_pair hs ht⟩
  exact (hite.makeInstance rfl hargs).bind fun m hm => ⟨m, rfl, hm⟩

/-- Each of the sums has one branch of the `ite` in its place. -/
theorem halts_hoistIte (hite : Operator.ite.Ends E) (hcs : ∀ c ∈ cs, c.Done E) :
    Halts (fun m => m.Done E) (hoistIte E (.interior .add w cs f)) := by
  have hbranches (w' g : Nat) (c x y : Node) :
      x.weight < (Node.interior .ite w' [c, x, y] g).weight ∧
        y.weight < (Node.interior .ite w' [c, x, y] g).weight := by
    simp only [weight_interior, weightAll_cons, weightAll_nil, Operator.weigh]
    omega
  unfold hoistIte
  split
  next w' c x y g b f' heq =>
    cases heq
    have hchoice := hcs (.interior .ite w' [c, x, y] g) List.mem_cons_self
    have hb := hcs b (by simp)
    obtain ⟨hx, hy⟩ := hbranches w' g c x y
    split
    next => exact halts_none _
    next =>
      refine halts_iteOfSums hbelow hite (hchoice.child (by simp))
        (done_pair (hchoice.child (by simp)) hb) (done_pair (hchoice.child (by simp)) hb) ?_ ?_
      · simp only [weightAll_cons, weightAll_nil]
        omega
      · simp only [weightAll_cons, weightAll_nil]
        omega
  next a w' c x y g f' _ heq =>
    cases heq
    have ha := hcs a List.mem_cons_self
    have hchoice := hcs (.interior .ite w' [c, x, y] g) (by simp)
    obtain ⟨hx, hy⟩ := hbranches w' g c x y
    refine halts_iteOfSums hbelow hite (hchoice.child (by simp))
      (done_pair ha (hchoice.child (by simp))) (done_pair ha (hchoice.child (by simp))) ?_ ?_
    · simp only [weightAll_cons, weightAll_nil]
      omega
    · simp only [weightAll_cons, weightAll_nil]
      omega
  next => exact halts_none _

end

theorem ends_add (hextend : Operator.uextend.Ends E) (hite : Operator.ite.Ends E) :
    Operator.add.Ends E := by
  refine ends_of_below (operandRank E) fun {w cs f} hfresh hbelow => ?_
  have htakes : Takes E .add w := takes_of_checked rfl w
  have hcs := hfresh.toOperands
  have hchain := descends_nary (fun _ _ => Nat.lt_succ_self _) htakes
    (descends_identity hextend htakes hfresh.valid.1 0)
  show Halts _ (simplifyAdd E (.interior .add w cs f))
  refine halts_orElse (halts_orElse (halts_orElse ?_ fun _ => hchain hcs) fun _ => ?_) fun _ => ?_
  · have hrewrite : Halts (fun m => m.Done E) (rewriteAdd E (.interior .add w cs f)) :=
      halts_orElse (halts_hoistIte hbelow hite hcs.done) fun _ =>
        halts_dropDuals hbelow hcs.done hfresh.valid.1
    exact hrewrite.mono fun _ hm => Or.inl hm
  · exact halts_pure fun m hm => Or.inl (done_unaryNoOp hfresh hm)
  · exact halts_foldConstants folds_addFold htakes hfresh.valid.1 hcs
      fun _ => nBits_of_sized rfl hfresh.valid.2.1

end

end LoomX.Symbolic
