import LoomX.Symbolic.ExtendSound

namespace LoomX.Symbolic

open RecursiveCalls

/-- The operators of which the constructor checks all that is asked of their operands. -/
def Operator.isChecked : Operator → Bool
  | extract | invert | other _ => false
  | _ => true

theorem width_of_accepts {op : Operator} (hop : op.isChecked = true) {w : Nat} {cs : List Node}
    (h : accepts op w cs = true) : adjustWidth op cs = w ∧ IsWidth w := by
  cases op with
  | other p => cases hop
  | _ =>
    simp only [accepts, Bool.and_eq_true, beq_iff_eq, decide_eq_true_eq] at h
    exact ⟨h.2.1.1, h.2.1.2, h.2.2⟩

theorem shape_of_accepts {op : Operator} (hop : op.isChecked = true) {w : Nat} {cs : List Node}
    (h : accepts op w cs = true) : op.Shape w cs := by
  have hw := (width_of_accepts hop h).1
  have hargs := (Bool.and_eq_true_iff.mp h).1
  cases op with
  | extract | invert | other p => cases hop
  | add | and | or | xor =>
    cases cs with
    | nil => cases hargs
    | cons c cs =>
      have hc : c.nBits = w := hw
      refine ⟨List.cons_ne_nil c cs, fun s hs => ?_⟩
      obtain ⟨d, hd, rfl⟩ := List.mem_map.mp hs
      rcases List.mem_cons.mp hd with rfl | hd
      · exact hc
      · have heq : d.nBits = c.nBits := by simpa using List.all_eq_true.mp hargs d hd
        exact heq.trans hc
  | umul | smul | concat =>
    cases cs with
    | nil => cases hargs
    | cons c cs => exact ⟨List.cons_ne_nil c cs, hw⟩
  | ite =>
    match cs, hw, hargs with
    | [c, a, b], hw, hargs =>
      obtain ⟨hc, hab⟩ := Bool.and_eq_true_iff.mp hargs
      have ha : a.nBits = w := hw
      exact ⟨c, a, b, rfl, beq_iff_eq.mp hc, ha, (beq_iff_eq.mp hab).symm.trans ha⟩
    | [], _, hargs | [_], _, hargs | [_, _], _, hargs | _ :: _ :: _ :: _ :: _, _, hargs => cases hargs
  | uextend | sextend =>
    match cs, hw, hargs with
    | [.constant n f, a], hw, hargs => exact ⟨n, f, a, rfl, of_decide_eq_true hargs, hw⟩
    | [.var _ _ _, _], _, hargs | [.interior _ _ _ _, _], _, hargs | [], _, hargs | [_], _, hargs
    | _ :: _ :: _ :: _, _, hargs => cases hargs
  | negate =>
    match cs, hw, hargs with
    | [c], hw, _ => exact ⟨c, rfl, hw⟩
    | [], _, hargs | _ :: _ :: _, _, hargs => cases hargs
  | _ =>
    match cs, hw, hargs with
    | [n, a], hw, _ => exact ⟨n, a, rfl, hw⟩
    | [], _, hargs | [_], _, hargs | _ :: _ :: _ :: _, _, hargs => cases hargs

/-- A node that the constructor rejects, or whose operands are settled. -/
def Node.Ready (E : Engine) (n : Node) : Prop :=
  (∃ op w cs f, n = .interior op w cs f ∧ accepts op w cs = false) ∨ n.Fresh E

/-- `simplifyTop` ends for the node, and what it returns is settled and has the property. -/
def Stops (E : Engine) (P : Node → Prop) (n : Node) : Prop :=
  ∃ r, EndsWith simplifyLoop (E, n) r ∧ ∀ m ∈ r, m.Done E ∧ P m

/-- The stage leaves the node alone without making another, or it ends, and a node that it makes has
the property. -/
def Halts (Q : Node → Prop) (p : Program (Option Node)) : Prop :=
  p = .ret none ∨ Finishes simplifyLoop (fun r => ∃ m, r = some m ∧ Q m) p

section

variable {E : Engine} {P Q Q' : Node → Prop} {op : Operator} {w f : Nat} {cs : List Node} {n m : Node}

theorem done_pair {a b : Node} (ha : a.Done E) (hb : b.Done E) : ∀ c ∈ [a, b], c.Done E := by
  simp [ha, hb]

theorem ready_of_checked (hop : op.isChecked = true) (hcs : ∀ c ∈ cs, c.Done E) (f : Nat) :
    (Node.interior op w cs f).Ready E := by
  cases h : accepts op w cs with
  | false => exact Or.inl ⟨op, w, cs, f, rfl, h⟩
  | true =>
    have hw := (width_of_accepts hop h).2
    have hvalid := (allValid_iff cs).mpr fun c hc => (hcs c hc).valid
    exact Or.inr ⟨⟨hw, shape_of_accepts hop h, hvalid⟩, fun c hc => (hcs c hc).settled⟩

theorem ready_other {p : Nat} (hw : IsWidth w) (hcs : ∀ c ∈ cs, c.Done E) (f : Nat) :
    (Node.interior (.other p) w cs f).Ready E := by
  have hvalid := (allValid_iff cs).mpr fun c hc => (hcs c hc).valid
  exact Or.inr ⟨⟨hw, trivial, hvalid⟩, fun c hc => (hcs c hc).settled⟩

theorem halts_none (Q : Node → Prop) : Halts Q (.ret none) := Or.inl rfl

theorem halts_throw (Q : Node → Prop) : Halts Q .throw := Or.inr trivial

theorem halts_some (h : Q m) : Halts Q (.ret (some m)) := Or.inr ⟨m, rfl, h⟩

theorem halts_pure {f : Node → Option Node} (h : ∀ m, f n = some m → Q m) :
    Halts Q (Stage.pure f n) := by
  unfold Stage.pure
  cases hf : f n with
  | none => exact halts_none Q
  | some m => exact halts_some (h m hf)

theorem halts_finishes {p : Program Node} (h : Finishes simplifyLoop Q p) :
    Halts Q (p >>= fun m => pure (some m)) :=
  Or.inr (h.bind fun m hm => ⟨m, rfl, hm⟩)

theorem Halts.mono {p : Program (Option Node)} (h : Halts Q p) (hQ : ∀ m, Q m → Q' m) :
    Halts Q' p :=
  h.imp_right fun hends => hends.mono fun _ ⟨m, hr, hm⟩ => ⟨m, hr, hQ m hm⟩

theorem halts_orElse {f g : Stage} (hf : Halts Q (f n)) (hg : f n = .ret none → Halts Q (g n)) :
    Halts Q ((f.orElse g) n) := by
  unfold Stage.orElse
  rcases hf with hnone | hends
  · have hgn := hg hnone
    rw [hnone]
    exact hgn
  · refine Or.inr (hends.bind fun r hr => ?_)
    obtain ⟨m, rfl, hm⟩ := hr
    exact ⟨m, rfl, hm⟩

theorem halts_andThen {f : Node → Option Node} {g : Stage} (hnone : f n = none → Halts Q (g n))
    (hsome : ∀ m, f n = some m → Q m ∧ Halts Q (g m)) : Halts Q (Stage.andThen f g n) := by
  unfold Stage.andThen
  cases hf : f n with
  | none => exact hnone hf
  | some m =>
    obtain ⟨hm, hgm⟩ := hsome m hf
    rcases hgm with hgm | hends
    · show Halts Q (g m >>= fun r => pure (some (r.getD m)))
      rw [hgm]
      exact halts_some hm
    · refine Or.inr (hends.bind fun r hr => ?_)
      obtain ⟨k, rfl, hk⟩ := hr
      exact ⟨k, rfl, hk⟩

theorem stops_of_settled (h : n.Done E) (hP : P n) : Stops E P n := by
  refine ⟨some n, (computes_of_settled h).endsWith, fun m hm => ?_⟩
  cases hm
  exact ⟨h, hP⟩

theorem Sound.stops {other : Nat → Nat → List BitVector → Nat} (h : Sound E other P n) :
    Stops E P n := by
  obtain ⟨m, hm, hdone, -, hP⟩ := h
  refine ⟨some m, hm.endsWith, fun k hk => ?_⟩
  cases hk
  exact ⟨hdone, hP⟩

theorem Stops.mono {P' : Node → Prop} (h : Stops E P n) (hP : ∀ m, P m → P' m) : Stops E P' n := by
  obtain ⟨r, hr, hm⟩ := h
  exact ⟨r, hr, fun m hmem => ⟨(hm m hmem).1, hP m (hm m hmem).2⟩⟩

theorem finishes_stops (h : Stops E P n) :
    Finishes simplifyLoop (fun m => m.Done E ∧ P m) (Calls.invoke (E, n)) := finishes_invoke h

/-- If a round leads on, or leaves a node alone that has the property, then `simplifyTop` ends. -/
theorem stops_of_round (hfresh : (Node.interior op w cs f).Fresh E)
    (hP : simplifyRound E (.interior op w cs f) = .ret none → P (.interior op w cs f))
    (h : Halts (Stops E P) (simplifyRound E (.interior op w cs f))) :
    Stops E P (.interior op w cs f) := by
  have haccepts := accepts_of_shape hfresh.valid.1 hfresh.valid.2.1
  rcases h with hnone | hends
  · have hsettled : (Node.interior op w cs f).Settled E :=
      ⟨hnone, (allSettled_iff E cs).mpr hfresh.operands⟩
    exact stops_of_settled ⟨hfresh.valid, hsettled⟩ (hP hnone)
  · have hbody : Finishes simplifyLoop (fun m => m.Done E ∧ P m)
        (simplifyLoop (E, .interior op w cs f)) := by
      rw [simplifyLoop, if_pos haccepts]
      refine hends.bind fun r hr => ?_
      obtain ⟨m, rfl, hm⟩ := hr
      exact finishes_stops hm
    exact endsWith_of_finishes hbody

/-- The constructor throws for a node that it rejects. -/
theorem stops_of_ready (hready : n.Ready E) (h : n.Fresh E → Stops E P n) : Stops E P n := by
  obtain ⟨op, w, cs, f, rfl, hrejects⟩ | hfresh := hready
  · refine ⟨none, ⟨1, ?_⟩, fun m hm => by cases hm⟩
    rw [outcome, simplifyLoop, hrejects]
    rfl
  · exact h hfresh

end

/-- `simplifyTop` ends for every node of the operator with settled operands. -/
def Operator.Ends (E : Engine) (op : Operator) : Prop :=
  ∀ w cs f, (Node.interior op w cs f).Ready E → Stops E (fun _ => True) (.interior op w cs f)

/-- A settled node, or one of the operator with operands of a lower rank. -/
def Below (E : Engine) (op : Operator) (rank : List Node → Nat) (r : Nat) (m : Node) : Prop :=
  m.Done E ∨ ∃ w cs f, m = .interior op w cs f ∧ m.Ready E ∧ rank cs < r

section

variable {E : Engine} {op : Operator} {w f : Nat} {cs : List Node} {n m : Node}

theorem Operator.Ends.invoke (h : op.Ends E) (hready : (Node.interior op w cs f).Ready E) :
    Finishes simplifyLoop (fun m => m.Done E) (Calls.invoke (E, .interior op w cs f)) :=
  (finishes_stops (h w cs f hready)).mono fun _ hm => hm.1

theorem Operator.Ends.makeInstance (h : op.Ends E) (hop : op.isChecked = true)
    (hcs : ∀ c ∈ cs, c.Done E) :
    Finishes simplifyLoop (fun m => m.Done E) (makeInstance E op cs) :=
  h.invoke (ready_of_checked hop hcs _)

theorem Below.mono {rank : List Node → Nat} {r r' : Nat} (h : Below E op rank r m) (hle : r ≤ r') :
    Below E op rank r' m := by
  refine h.imp_right fun ⟨w, cs, f, hm, hready, hrank⟩ => ?_
  exact ⟨w, cs, f, hm, hready, Nat.lt_of_lt_of_le hrank hle⟩

/-- It is enough that a round leads to operands of a lower rank, where such nodes may be simplified
on the way. -/
theorem ends_of_below (rank : List Node → Nat)
    (h : ∀ {w cs f}, (Node.interior op w cs f).Fresh E →
      (∀ m, Below E op rank (rank cs) m → Stops E (fun _ => True) m) →
      Halts (Below E op rank (rank cs)) (simplifyRound E (.interior op w cs f))) : op.Ends E := by
  intro w cs f hready
  generalize hr : rank cs = r
  induction r using Nat.strong_induction_on generalizing w cs f with
  | _ r ih =>
    have hbelow : ∀ m, Below E op rank (rank cs) m → Stops E (fun _ => True) m := by
      rintro m (hdone | ⟨w', ds, g, rfl, hm, hrank⟩)
      · exact stops_of_settled hdone trivial
      · exact ih (rank ds) (by omega) w' ds g hm rfl
    refine stops_of_ready hready fun hfresh => ?_
    exact stops_of_round hfresh (fun _ => trivial) ((h hfresh hbelow).mono hbelow)

/-- An operator each round of which leads to a settled node. -/
theorem ends_of_settled
    (h : ∀ {w cs f}, (Node.interior op w cs f).Fresh E →
      Halts (fun m => m.Done E) (simplifyRound E (.interior op w cs f))) : op.Ends E :=
  ends_of_below (fun _ => 0) fun hfresh _ => (h hfresh).mono fun _ hm => Or.inl hm

end

end LoomX.Symbolic
