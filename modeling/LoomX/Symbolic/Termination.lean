import LoomX.Symbolic.Forgetting
import LoomX.Symbolic.SumTermination

namespace LoomX.Symbolic

open RecursiveCalls

/-- Whether a shift is of a shift of the same kind. -/
def nestingRank (op : Operator) : List Node → Nat
  | [_, x] => if x.isOperator op then 1 else 0
  | _ => 0

/-- Whether a rotation is known to be by more than the width of the vector. -/
def rotationRank : List Node → Nat
  | [n, a] =>
    match effectiveRotation a.nBits n with
    | some sa => if a.nBits < sa then 1 else 0
    | none => 0
  | _ => 0

section

variable {E : Engine} {op : Operator} {w f : Nat} {cs : List Node}

theorem shape_of_isShift (hop : op.isShift = true) (h : op.Shape w cs) :
    ∃ n a : Node, cs = [n, a] ∧ a.nBits = w := by
  cases op with
  | asr | rol | ror | shl0 | shl1 | shr0 | shr1 => exact h
  | _ => cases hop

/-- An operand is no shift of the same kind if the amounts are not added. -/
theorem not_isOperator_of_additiveNesting (hop : op.isShift = true) {b x : Node} (hx : x.Valid)
    (h : additiveNesting E (.interior op w [b, x] f) = .ret none) : x.isOperator op = false := by
  cases x with
  | interior op' w' ds g =>
    rw [Node.isOperator, beq_eq_false_iff_ne]
    rintro rfl
    obtain ⟨n, a, rfl, -⟩ := shape_of_isShift hop hx.2.1
    simp only [additiveNesting, if_true] at h
    obtain ⟨sa, -, h⟩ := Calls.bind_eq_ret h
    obtain ⟨sb, -, h⟩ := Calls.bind_eq_ret h
    exact bind_some_ne_none h
  | _ => rfl

theorem finishes_widenTo (hextend : Operator.uextend.Ends E) (nBits : Nat) {a : Node}
    (ha : a.Done E) : Finishes simplifyLoop (fun m => m.Done E) (widenTo E nBits a) := by
  unfold widenTo
  split
  next => exact ha
  next => exact finishes_makeExtend hextend (by simp [IsWidth, maxBits]) ha

/-- Two shifts of the same kind become one of what is no such shift. -/
theorem halts_additiveNesting (hshift : op.isShift = true) (hchecked : op.isChecked = true)
    (hextend : Operator.uextend.Ends E) (hadd : Operator.add.Ends E)
    (hnested : ∀ {w cs f}, simplifyRound E (.interior op w cs f) = .ret none →
      additiveNesting E (.interior op w cs f) = .ret none)
    (hcs : ∀ c ∈ cs, c.Done E) :
    Halts (Below E op (nestingRank op) (nestingRank op cs))
      (additiveNesting E (.interior op w cs f)) := by
  unfold additiveNesting
  split
  next op' w₁ a op'' w₂ b x g f' heq =>
    cases heq
    split
    next hop =>
      subst hop
      have ha := hcs a List.mem_cons_self
      have hinner := hcs (.interior op'' w₂ [b, x] g) (by simp)
      have hb := hinner.child (c := b) (by simp)
      have hx := hinner.child (c := x) (by simp)
      have hother := not_isOperator_of_additiveNesting hshift hx.valid (hnested hinner.settled.1)
      refine Or.inr ((finishes_widenTo hextend _ ha).bind fun sa hsa => ?_)
      refine (finishes_widenTo hextend _ hb).bind fun sb hsb => ?_
      refine (hadd.makeInstance rfl (done_pair hsa hsb)).bind fun s hs => ?_
      refine ⟨_, rfl, Or.inr ⟨w, [s, x], _, rfl, ready_of_checked hchecked (done_pair hs hx) _, ?_⟩⟩
      have hsame : (Node.interior op'' w₂ [b, x] g).isOperator op'' = true := beq_self_eq_true op''
      simp only [nestingRank, hother, hsame]
      decide
    next => exact halts_none _
  next => exact halts_none _

theorem ends_shift {rest : Stage} (hshift : op.isShift = true) (hchecked : op.isChecked = true)
    (hextend : Operator.uextend.Ends E) (hadd : Operator.add.Ends E)
    (hround : ∀ w cs f, simplifyRound E (.interior op w cs f) =
      ((additiveNesting E).orElse rest) (.interior op w cs f))
    (hrest : ∀ {w cs f}, (Node.interior op w cs f).Fresh E →
      additiveNesting E (.interior op w cs f) = .ret none →
      Halts (fun m => m.Done E) (rest (.interior op w cs f))) : op.Ends E := by
  refine ends_of_below (nestingRank op) fun {w cs f} hfresh _ => ?_
  rw [hround]
  refine halts_orElse (halts_additiveNesting hshift hchecked hextend hadd (fun h => ?_)
    fun c hc => hfresh.operand hc) fun hnone => ?_
  · rw [hround] at h
    exact (orElse_eq_none.mp h).1
  · exact (hrest hfresh hnone).mono fun _ hm => Or.inl hm

end

section

variable {E : Engine} {other : Nat → Nat → List BitVector → Nat} {op : Operator} {w f : Nat}
  {cs : List Node}

theorem ends_layout (hE : E.Trusted other) (hop : op = .concat ∨ op = .extract ∨ op = .ite) :
    op.Ends E := by
  intro w cs f hready
  have hlayout : (Node.interior op w cs f).isLayout = true := by
    rcases hop with rfl | rfl | rfl <;> rfl
  exact stops_of_ready hready fun hfresh => (simplifies_layout hE hlayout hfresh).stops

theorem ends_uextend (hE : E.Trusted other) : Operator.uextend.Ends E := fun _ _ _ hready =>
  stops_of_ready hready fun hfresh => (uextend_sound hE hfresh).stops

theorem ends_sextend (hE : E.Trusted other) : Operator.sextend.Ends E := fun _ _ _ hready =>
  stops_of_ready hready fun hfresh => (sextend_sound hE hfresh).stops

theorem finishes_makeExtract (hE : E.Trusted other) {lo hi : Nat} {a : Node} (hlt : lo < hi)
    (hle : hi ≤ a.nBits) (ha : a.Done E) :
    Finishes simplifyLoop (fun m => m.Done E)
      (makeExtract E (makeIntegerConstant 32 lo) (makeIntegerConstant 32 hi) a) :=
  (reaches_extract hE hlt hle ha).finishes.mono fun _ hm => hm.1

theorem ends_add_of_trusted (hE : E.Trusted other) : Operator.add.Ends E :=
  ends_add (ends_uextend hE) (ends_layout hE (Or.inr (Or.inr rfl)))

theorem halts_foldShift (hfresh : (Node.interior op w cs f).Fresh E)
    {shift : BitVector → Nat → BitVector} (hsize : ∀ b sa, (shift b sa).size = b.size) :
    Halts (fun m => m.Done E) (Stage.pure (foldShift shift) (.interior op w cs f)) := by
  refine halts_pure fun m hm => ?_
  unfold foldShift at hm
  split at hm
  next w' n b g f' heq =>
    cases heq
    obtain ⟨sa, -, rfl⟩ := Option.map_eq_some_iff.mp hm
    have hb := hfresh.operand (c := .constant b g) (by simp)
    refine done_constant ?_
    rw [hsize]
    exact hb.valid
  next => cases hm

/-- A shift by a known amount joins the bits that are left and as many new ones. -/
theorem halts_knownShl (hE : E.Trusted other) (hop : op.isShift = true)
    (hfresh : (Node.interior op w cs f).Fresh E) (newBits : Bool) :
    Halts (fun m => m.Done E) (knownShl E newBits (.interior op w cs f)) := by
  obtain ⟨n, a, rfl, rfl⟩ := shape_of_isShift hop hfresh.valid.2.1
  have ha := hfresh.operand (c := a) (by simp)
  have hw := hfresh.valid.1
  simp only [knownShl]
  split
  next => exact halts_none _
  next sa _ =>
    split
    next => exact halts_some (done_constant hw)
    next =>
      split
      next => exact halts_some ha
      next =>
        have hnew : (fillConstant sa newBits).Done E :=
          done_makeIntegerConstant ⟨by omega, by have hmax := hw.2; omega⟩ _
        have hextract := finishes_makeExtract hE (show 0 < a.nBits - sa by omega) (by omega) ha
        refine Or.inr (hextract.bind fun hiBits hhi => ?_)
        exact ((ends_layout hE (Or.inl rfl)).makeInstance rfl (done_pair hhi hnew)).bind
          fun m hm => ⟨m, rfl, hm⟩

theorem halts_knownShr (hE : E.Trusted other) (hop : op.isShift = true)
    (hfresh : (Node.interior op w cs f).Fresh E) (newBits : Bool) :
    Halts (fun m => m.Done E) (knownShr E newBits (.interior op w cs f)) := by
  obtain ⟨n, a, rfl, rfl⟩ := shape_of_isShift hop hfresh.valid.2.1
  have ha := hfresh.operand (c := a) (by simp)
  have hw := hfresh.valid.1
  simp only [knownShr]
  split
  next => exact halts_none _
  next sa _ =>
    split
    next => exact halts_some (done_constant hw)
    next =>
      split
      next => exact halts_some ha
      next =>
        have hnew : (fillConstant sa newBits).Done E :=
          done_makeIntegerConstant ⟨by omega, by have hmax := hw.2; omega⟩ _
        have hextract := finishes_makeExtract hE (show sa < a.nBits by omega) (Nat.le_refl _) ha
        refine Or.inr (hextract.bind fun loBits hlo => ?_)
        exact ((ends_layout hE (Or.inl rfl)).makeInstance rfl (done_pair hnew hlo)).bind
          fun m hm => ⟨m, rfl, hm⟩

theorem halts_fixedShift {shift : BitVector → Nat → BitVector} {known : Stage}
    (hsize : ∀ b sa, (shift b sa).size = b.size) (hfresh : (Node.interior op w cs f).Fresh E)
    (hnone : additiveNesting E (.interior op w cs f) = .ret none)
    (hknown : Halts (fun m => m.Done E) (known (.interior op w cs f))) :
    Halts (fun m => m.Done E) ((((Stage.pure (foldShift shift)).orElse (combineShifts E)).orElse known)
      (.interior op w cs f)) := by
  refine halts_orElse (halts_orElse (halts_foldShift hfresh hsize) fun _ => ?_) fun _ => hknown
  rw [(additiveNesting_refresh hnone).2]
  exact halts_none _

theorem ends_shl0 (hE : E.Trusted other) : Operator.shl0.Ends E :=
  ends_shift rfl rfl (ends_uextend hE) (ends_add_of_trusted hE) (fun _ _ _ => rfl)
    fun hfresh hnone => halts_fixedShift (fun _ _ => rfl) hfresh hnone
      (halts_knownShl hE rfl hfresh false)

theorem ends_shl1 (hE : E.Trusted other) : Operator.shl1.Ends E :=
  ends_shift rfl rfl (ends_uextend hE) (ends_add_of_trusted hE) (fun _ _ _ => rfl)
    fun hfresh hnone => halts_fixedShift (fun _ _ => rfl) hfresh hnone
      (halts_knownShl hE rfl hfresh true)

theorem ends_shr0 (hE : E.Trusted other) : Operator.shr0.Ends E :=
  ends_shift rfl rfl (ends_uextend hE) (ends_add_of_trusted hE) (fun _ _ _ => rfl)
    fun hfresh hnone => halts_fixedShift (fun _ _ => rfl) hfresh hnone
      (halts_knownShr hE rfl hfresh false)

theorem ends_shr1 (hE : E.Trusted other) : Operator.shr1.Ends E :=
  ends_shift rfl rfl (ends_uextend hE) (ends_add_of_trusted hE) (fun _ _ _ => rfl)
    fun hfresh hnone => halts_fixedShift (fun _ _ => rfl) hfresh hnone
      (halts_knownShr hE rfl hfresh true)

theorem ends_asr (hE : E.Trusted other) : Operator.asr.Ends E := by
  refine ends_shift rfl rfl (ends_uextend hE) (ends_add_of_trusted hE) (fun _ _ _ => rfl)
    fun {w cs f} hfresh _ => ?_
  unfold rewriteAsr
  split
  next w' n g b g' f' heq =>
    cases heq
    have hb := hfresh.operand (c := .constant b g') (by simp)
    split
    next => exact halts_some (done_constant hb.valid)
    next => exact halts_throw _
  next => exact halts_none _

/-- What is left of a rotation amount is below the width. -/
theorem rotationRank_mod {size sa g : Nat} {a : Node} (hw : IsWidth a.nBits) :
    rotationRank [.constant (.fromInteger size (sa % a.nBits)) g, a] = 0 := by
  have hlt := Nat.mod_lt sa hw.1
  have hle : (BitVector.fromInteger size (sa % a.nBits)).value ≤ sa % a.nBits := Nat.mod_le _ _
  have hsmall : (BitVector.fromInteger size (sa % a.nBits)).value < 2 ^ 64 := by
    have hmax := hw.2
    simp only [maxBits] at hmax
    omega
  have hamount : effectiveRotation a.nBits (.constant (.fromInteger size (sa % a.nBits)) g) =
      some (BitVector.fromInteger size (sa % a.nBits)).value := if_pos (Or.inr hsmall)
  simp only [rotationRank, hamount]
  exact if_neg (by omega)

theorem ends_rotation (rotate : BitVector → Nat → BitVector)
    (hsize : ∀ b sa, (rotate b sa).size = b.size) (hshift : op.isShift = true)
    (hchecked : op.isChecked = true)
    (hround : ∀ w cs f, simplifyRound E (.interior op w cs f) =
      rewriteRotation E rotate (.interior op w cs f)) : op.Ends E := by
  refine ends_of_below rotationRank fun {w cs f} hfresh hbelow => ?_
  obtain ⟨n, a, rfl, rfl⟩ := shape_of_isShift hshift hfresh.valid.2.1
  have hn := hfresh.operand (c := n) (by simp)
  have ha := hfresh.operand (c := a) (by simp)
  rw [hround]
  simp only [rewriteRotation]
  split
  next => exact halts_none _
  next sa hsa =>
    split
    next b g =>
      refine halts_some (Or.inl (done_constant ?_))
      rw [hsize]
      exact ha.valid
    next =>
      split
      next => exact halts_some (Or.inl ha)
      next =>
        split
        next hlt =>
          have hrank : rotationRank [n, a] = 1 := by
            simp only [rotationRank, hsa]
            exact if_pos hlt
          have hamount : (Node.constant (.fromInteger n.nBits (sa % a.nBits)) n.flags).Done E :=
            done_constant hn.valid.isWidth
          have hstops := hbelow (newInteriorOf a.nBits op
              [.constant (.fromInteger n.nBits (sa % a.nBits)) n.flags, a] f)
            (Or.inr ⟨_, _, _, rfl, ready_of_checked hchecked (done_pair hamount ha) _, by
              rw [rotationRank_mod hfresh.valid.1, hrank]
              exact Nat.one_pos⟩)
          exact halts_finishes ((finishes_stops hstops).mono fun _ hm => Or.inl hm.1)
        next => exact halts_none _

theorem ends_rol : Operator.rol.Ends E :=
  ends_rotation .rotateLeft (fun _ _ => rfl) rfl rfl fun _ _ _ => rfl

theorem ends_ror : Operator.ror.Ends E :=
  ends_rotation .rotateRight (fun _ _ => rfl) rfl rfl fun _ _ _ => rfl

end

theorem distinct_sublist (elements cs : List Node) : (distinct elements cs).Sublist cs := by
  induction cs generalizing elements with
  | nil => exact .slnil
  | cons c cs ih =>
    rw [distinct]
    split
    next => exact (ih elements).cons c
    next => exact (ih _).cons_cons c

section

variable {E : Engine} {op : Operator} {w f : Nat} {cs : List Node} {m : Node}

theorem done_makeBooleanConstant (b : Bool) (f : Nat) : (makeBooleanConstant b f).Done E :=
  done_constant (by simp [IsWidth, maxBits])

theorem done_foldComparison {holds : BitVector → BitVector → Bool} {ifEqual : Bool}
    (h : foldComparison holds ifEqual (.interior op w cs f) = some m) : m.Done E := by
  unfold foldComparison at h
  split at h
  next =>
    cases Option.some.inj h
    exact done_makeBooleanConstant _ _
  next =>
    split at h
    next =>
      cases Option.some.inj h
      exact done_makeBooleanConstant _ _
    next => cases h
  next => cases h

theorem done_rewriteZerop (h : rewriteZerop (.interior op w cs f) = some m) : m.Done E := by
  unfold rewriteZerop at h
  split at h
  next =>
    cases Option.some.inj h
    exact done_makeBooleanConstant _ _
  next => cases h

theorem done_foldPosition (hw : IsWidth w) {position : BitVector → Option Nat}
    (h : foldPosition position (.interior op w cs f) = some m) : m.Done E := by
  unfold foldPosition at h
  split at h
  next a g rest f' heq =>
    cases heq
    split at h
    next =>
      cases Option.some.inj h
      exact done_makeIntegerConstant hw _
    next =>
      cases Option.some.inj h
      exact done_constant hw
  next => cases h

theorem done_rewriteReinterpret (hfresh : (Node.interior op w cs f).Fresh E)
    (h : rewriteReinterpret (.interior op w cs f) = some m) : m.Done E := by
  unfold rewriteReinterpret at h
  split at h
  next a rest f' heq =>
    cases heq
    split at h
    next =>
      cases Option.some.inj h
      exact hfresh.operand List.mem_cons_self
    next => cases h
  next => cases h

/-- A quotient is as wide as one of the operands. -/
theorem halts_foldDivision (hfresh : (Node.interior op w cs f).Fresh E)
    {divide : BitVector → BitVector → Option BitVector}
    (hsize : ∀ a b c, divide a b = some c → c.size = a.size ∨ c.size = b.size) :
    Halts (fun m => m.Done E) (foldingStage (foldDivision divide) (.interior op w cs f)) := by
  unfold foldingStage
  split
  next => exact halts_none _
  next m hm =>
    refine halts_some ?_
    unfold foldDivision at hm
    split at hm
    next w' a g b g' f' heq =>
      cases heq
      have ha := hfresh.operand (c := .constant a g) (by simp)
      have hb := hfresh.operand (c := .constant b g') (by simp)
      split_ifs at hm
      split at hm
      next c hc =>
        cases hm
        refine done_constant ?_
        rcases hsize a b c hc with h | h
        · rw [h]
          exact ha.valid
        · rw [h]
          exact hb.valid
      next => cases hm
    next => cases hm
  next => exact halts_throw _

theorem size_of_map {α : Type} {o : Option α} {g : α → BitVector} {size : Nat} {c : BitVector}
    (h : o.map g = some c) (hg : ∀ a, (g a).size = size) : c.size = size := by
  obtain ⟨a, -, rfl⟩ := Option.map_eq_some_iff.mp h
  exact hg a

theorem halts_rewriteSet (htakes : Takes E op w) (hcs : ∀ c ∈ cs, c.Done E)
    (hbelow : ∀ m, Below E op (operandRank E) (operandRank E cs) m → Stops E (fun _ => True) m) :
    Halts (fun m => m.Done E) (rewriteSet E (.interior op w cs f)) := by
  have hsub := distinct_sublist [] cs
  have hkept := fun c hc => hcs c (hsub.subset hc)
  unfold rewriteSet
  split
  next c f' heq =>
    cases heq
    exact halts_some (hcs c List.mem_cons_self)
  next op' w' cs' f' hne heq =>
    cases heq
    dsimp only
    split
    next => exact halts_none _
    next hlen =>
      split
      next c hc => exact halts_some (hkept c (by rw [hc]; exact List.mem_cons_self))
      next =>
        have hlt := weightAll_lt_of_sublist hsub (fun c hc => (hcs c hc).valid) hlen
        exact halts_finishes (finishes_lighter htakes hkept hlt hbelow 0)
  next => exact halts_none _

theorem halts_rewriteConvert (hextend : Operator.uextend.Ends E) (hextract : Operator.extract.Ends E)
    (hfresh : (Node.interior op w cs f).Fresh E) :
    Halts (fun m => m.Done E) (rewriteConvert E (.interior op w cs f)) := by
  have hw := hfresh.valid.1
  have hsixteen : IsWidth 16 := by simp [IsWidth, maxBits]
  unfold rewriteConvert
  split
  next w' a rest f' heq =>
    cases heq
    have ha := hfresh.operand (c := a) List.mem_cons_self
    split
    next => exact halts_some ha
    next =>
      split
      next => exact halts_finishes (hextend.invoke (ready_of_checked rfl
          (done_pair (done_makeIntegerConstant hsixteen w) ha) _))
      next =>
        have hvalue : (BitVector.fromInteger 16 w).value = w := by
          apply BitVector.fromInteger_value_of_lt
          have hmax := hw.2
          simp only [maxBits] at hmax
          omega
        have hlimits : Limits (.fromInteger 16 0) (.fromInteger 16 w) a :=
          ⟨⟨hsixteen, by simp⟩, ⟨hsixteen, by simp⟩, by rw [hvalue]; exact hw.1, by rw [hvalue]; omega⟩
        exact halts_finishes (hextract.invoke (Or.inr (hlimits.fresh ha)))
  next => exact halts_none _

end

section

variable {E : Engine} {other : Nat → Nat → List BitVector → Nat}

/-- The operators that are given by their positions, one rule after the other. -/
theorem ends_other (hE : E.Trusted other) (p : Nat) : (Operator.other p).Ends E := by
  refine ends_of_below (operandRank E) fun {w cs f} hfresh hbelow => ?_
  have htakes : Takes E (.other p) w := fun _ f hcs => ready_other hfresh.valid.1 hcs f
  have hsorts := descends_pure htakes lightens_commutative hfresh.toOperands (f := f)
  have hpure {rule : Node → Option Node}
      (h : ∀ m, rule (.interior (.other p) w cs f) = some m → m.Done E) :
      Halts (Below E (.other p) (operandRank E) (operandRank E cs))
        (Stage.pure rule (.interior (.other p) w cs f)) := halts_pure fun m hm => Or.inl (h m hm)
  have hdivides {divide : BitVector → BitVector → Option BitVector}
      (h : ∀ a b c, divide a b = some c → c.size = a.size ∨ c.size = b.size) :
      Halts (Below E (.other p) (operandRank E) (operandRank E cs))
        (foldingStage (foldDivision divide) (.interior (.other p) w cs f)) :=
    (halts_foldDivision hfresh h).mono fun _ hm => Or.inl hm
  show Halts _ (simplifyOther E p (.interior (.other p) w cs f))
  unfold simplifyOther
  split
  case h_1 => exact halts_orElse hsorts fun _ => hpure fun _ => done_foldComparison
  case h_4 => exact hsorts
  case h_7 =>
    have hopens := descends_andThen htakes (lightens_associative fun _ _ => Nat.lt_succ_self _)
      (descends_pure htakes lightens_commutative)
    refine halts_orElse ?_ fun _ => ?_
    · rw [pure_andThenPure]
      exact hopens hfresh.toOperands
    · exact (halts_rewriteSet htakes hfresh.toOperands.done hbelow).mono fun _ hm => Or.inl hm
  case h_20 =>
    have hconvert := halts_rewriteConvert (ends_uextend hE) (ends_layout hE (Or.inr (Or.inl rfl)))
      hfresh
    exact hconvert.mono fun _ hm => Or.inl hm
  all_goals
    first
    | exact hdivides fun _ _ _ hc => Or.inl (size_of_map hc fun _ => rfl)
    | exact hdivides fun _ _ _ hc => Or.inr (size_of_map hc fun _ => rfl)
    | exact hdivides fun _ _ _ hc => Or.inl (congrArg BitVector.size (Option.some.inj hc)).symm
    | exact hdivides fun _ _ _ hc => Or.inr (congrArg BitVector.size (Option.some.inj hc)).symm
    | exact hpure fun _ => done_foldComparison
    | exact hpure fun _ => done_foldPosition hfresh.valid.1
    | exact hpure fun _ => done_unaryNoOp hfresh
    | exact hpure fun _ => done_rewriteZerop
    | exact hpure fun _ => done_rewriteReinterpret hfresh
    | exact halts_none _

theorem Operator.ends (hE : E.Trusted other) (op : Operator) : op.Ends E := by
  cases op with
  | add => exact ends_add_of_trusted hE
  | and => exact ends_and (ends_uextend hE)
  | asr => exact ends_asr hE
  | concat => exact ends_layout hE (Or.inl rfl)
  | extract => exact ends_layout hE (Or.inr (Or.inl rfl))
  | invert => exact ends_invert
  | ite => exact ends_layout hE (Or.inr (Or.inr rfl))
  | negate => exact ends_negate
  | or => exact ends_or (ends_uextend hE)
  | rol => exact ends_rol
  | ror => exact ends_ror
  | sextend => exact ends_sextend hE
  | shl0 => exact ends_shl0 hE
  | shl1 => exact ends_shl1 hE
  | shr0 => exact ends_shr0 hE
  | shr1 => exact ends_shr1 hE
  | smul => exact ends_smul
  | uextend => exact ends_uextend hE
  | umul => exact ends_umul (ends_uextend hE)
  | xor => exact ends_xor (ends_uextend hE)
  | other p => exact ends_other hE p

end

/-- The loop of `simplifyTop` ends after finitely many rounds and calls, with a node or with an
exception, for every valid node with simplified operands. -/
theorem simplifyTop_terminates (E : Engine) {n : Node} (h : n.Fresh E) :
    Terminates simplifyLoop (E, n) := by
  have hforget := fresh_forget h
  apply terminates_of_forget
  cases n with
  | interior op w cs f =>
    obtain ⟨r, hr, -⟩ := op.ends (trusted_forget E fun _ _ _ => 0) w cs f (Or.inr hforget)
    exact ⟨r, hr⟩
  | _ => exact ⟨some _, 1, rfl⟩

/-- The sum of a constant and a choice, which is hoisted. -/
theorem simplifyTop_terminates_hoisted :
    Terminates simplifyLoop (⟨fun _ => 0, none⟩, .interior .add 8
      [.interior .ite 8 [.var 0 1 0, .var 1 8 0, .var 2 8 0] 0, .constant (.fromInteger 8 1) 0] 0) := by
  have hone : IsWidth 1 := by simp [IsWidth, maxBits]
  have height : IsWidth 8 := by simp [IsWidth, maxBits]
  refine simplifyTop_terminates _ ⟨⟨height, ⟨by simp, ?_⟩, ?_⟩, fun c hc => ?_⟩
  · intro s hs
    simpa [Node.nBits] using hs
  · exact ⟨⟨height, ⟨_, _, _, rfl, rfl, rfl, rfl⟩, hone, height, height, trivial⟩, height, trivial⟩
  · rcases List.mem_pair.mp hc with rfl | rfl
    · exact ⟨rfl, trivial, trivial, trivial, trivial⟩
    · trivial

end LoomX.Symbolic
