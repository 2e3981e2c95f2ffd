import LoomX.Symbolic.ConcatSound

namespace LoomX.Symbolic

open RecursiveCalls BitSlice

section

variable {E : Engine} {other : Nat → Nat → List BitVector → Nat}

/-- The operands of an `ite` that can be simplified. -/
structure Choice (E : Engine) (w : Nat) (c x y : Node) : Prop where
  width : IsWidth w
  condition : c.Done E ∧ c.nBits = 1
  left : x.Done E ∧ x.nBits = w
  right : y.Done E ∧ y.nBits = w

namespace Choice

variable {w f : Nat} {c x y : Node}

theorem of_fresh (h : (Node.interior .ite w [c, x, y] f).Fresh E) : Choice E w c x y := by
  obtain ⟨_, _, _, heq, hc, hx, hy⟩ := h.valid.2.1
  cases heq
  exact ⟨h.valid.1, ⟨h.operand (by simp), hc⟩, ⟨h.operand (by simp), hx⟩, ⟨h.operand (by simp), hy⟩⟩

theorem fresh (h : Choice E w c x y) (f : Nat) : (newInterior .ite [c, x, y] f).Fresh E := by
  have hshape : Operator.ite.Shape w [c, x, y] :=
    ⟨c, x, y, rfl, h.condition.2, h.left.2, h.right.2⟩
  rw [newInterior_of_shape (by simp) hshape]
  refine fresh_newInteriorOf h.width hshape (fun d hd => ?_) f
  simp only [List.mem_cons, List.not_mem_nil, or_false] at hd
  rcases hd with rfl | rfl | rfl
  · exact h.condition.1
  · exact h.left.1
  · exact h.right.1

theorem nBits (h : Choice E w c x y) (f : Nat) : (newInterior .ite [c, x, y] f).nBits = w := h.left.2

theorem eval (h : Choice E w c x y) (f : Nat) (env : Nat → Nat) :
    (newInterior .ite [c, x, y] f).eval other env =
      if (c.eval other env).isEqualToZero then y.eval other env else x.eval other env := by
  show (Node.interior .ite x.nBits [c, x, y] _).eval other env = _
  exact eval_ite rfl (h.right.2.trans h.left.2.symm)

end Choice

theorem ite_weight (c x y : Node) (f : Nat) :
    (newInterior .ite [c, x, y] f).weight = c.weight + x.weight + y.weight + 1 := by
  show (Node.interior .ite _ _ _).weight = _
  rw [weight_interior]
  simp only [weightAll_cons, weightAll_nil, Operator.weigh]
  omega

theorem ite_layoutRank (c x y : Node) (f : Nat) : (newInterior .ite [c, x, y] f).layoutRank =
    6 * (c.weight + x.weight + y.weight + 1) + 4 + x.bonus := rfl

/-- The value of a bit that is inverted. -/
theorem isEqualToZero_invert {w f : Nat} {c : Node} (hw : w = 1) (hc : c.nBits = 1)
    (env : Nat → Nat) :
    ((Node.interior .invert w [c] f).eval other env).isEqualToZero =
      !(c.eval other env).isEqualToZero := by
  subst hw
  have hlt := @value_lt other env c
  have hsize : (c.eval other env).size = 1 := by rw [Node.eval_size, hc]
  rw [hc] at hlt
  rw [Node.eval_interior]
  show ((BitVector.fromInteger 1 (c.eval other env).invert.value).value == 0) =
    !((c.eval other env).value == 0)
  simp only [BitVector.invert, BitVector.fromInteger_value, hsize]
  have hcases : (c.eval other env).value = 0 ∨ (c.eval other env).value = 1 := by omega
  rcases hcases with h | h <;> simp [h]

theorem progress_hoistExtracts {w f : Nat} {c x y : Node}
    (hfresh : (Node.interior .ite w [c, x, y] f).Fresh E)
    (hbelow : LayoutBelow E other (Node.interior .ite w [c, x, y] f).layoutRank) :
    Progress (Next E other (fun k => k.weight ≤ (Node.interior .ite w [c, x, y] f).weight)
      (.interior .ite w [c, x, y] f)) (hoistExtracts E (.interior .ite w [c, x, y] f)) := by
  have hchoice := Choice.of_fresh hfresh
  have hrank : (Node.interior .ite w [c, x, y] f).layoutRank =
    6 * (c.weight + x.weight + y.weight + 1) + 4 + x.bonus := rfl
  simp only [hoistExtracts]
  split
  next lo hi a a' hsame =>
    unfold sameExtracts at hsame
    split at hsame
    next w₁ l u b g w₂ l' u' b' g' =>
      split at hsame
      next hcond =>
        obtain ⟨-, hlo, hhi, hwidth⟩ := hcond
        cases Option.some.inj hsame
        obtain ⟨⟨hx, hxw⟩, ⟨hy, hyw⟩⟩ := And.intro hchoice.left hchoice.right
        obtain ⟨lo, fl, hi, fh, _, heq, hlo64, hhi64, hlt, hle, hw₁⟩ := hx.valid.2.1
        cases heq
        obtain ⟨lo', fl', hi', fh', _, heq, -, -, -, -, hw₂⟩ := hy.valid.2.1
        cases heq
        have hloValue : lo.value = lo'.value := value_of_mustEqual hlo
        have hhiValue : hi.value = hi'.value := value_of_mustEqual hhi
        have ha := hx.child (c := a) (by simp)
        have ha' := hy.child (c := a') (by simp)
        have hinner : Choice E a.nBits c a a' :=
          ⟨ha.valid.isWidth, hchoice.condition, ⟨ha, rfl⟩, ⟨ha', hwidth.symm⟩⟩
        have hbonus : a.bonus = 0 := if_neg (by simp [(operand_of_settled_extract hx).2.2])
        have hxWeight : (Node.interior .extract w₁ [.constant lo fl, .constant hi fh, a] g).weight =
          a.weight := weight_extract
        have hyWeight : (Node.interior .extract w₂ [.constant lo' fl', .constant hi' fh', a'] g').weight =
          a'.weight := weight_extract
        have hxBonus : (Node.interior .extract w₁ [.constant lo fl, .constant hi fh, a] g).bonus = 1 := rfl
        have hiteLight := hbelow _ rfl (by rw [ite_layoutRank, hrank]; omega) (hinner.fresh 0)
        refine Or.inr ((reaches_sound hiteLight).bind fun r hr => ?_)
        obtain ⟨hrDone, hrAgrees, hrWeight⟩ := hr
        have hrWidth : r.nBits = a.nBits := hrAgrees.width.trans (hinner.nBits 0)
        rw [ite_weight] at hrWeight
        have hlimits : Limits lo hi r :=
          ⟨⟨(hx.child (c := .constant lo fl) (by simp)).valid, hlo64⟩,
            ⟨(hx.child (c := .constant hi fh) (by simp)).valid, hhi64⟩, hlt, by omega⟩
        have hrBonus := bonus_le r
        have hextractLight := hbelow (extractNode lo hi fl fh r 0) rfl
          (by rw [extractNode_layoutRank, hrank]; omega) (hlimits.fresh hrDone)
        refine (reaches_sound hextractLight).bind fun m hm => ?_
        obtain ⟨hmDone, hmAgrees, hmWeight⟩ := hm
        rw [extractNode_weight] at hmWeight
        refine ⟨m, rfl, next_of_settled hmDone (hmAgrees.trans (.of_value ?_ fun env henv => ?_)) ?_⟩
        · have hw : w₁ = w := hxw
          show hi.value - lo.value = w
          omega
        · rw [extractNode_value, hrAgrees.eval env henv, hinner.eval, eval_ite hxw hyw]
          split
          next => rw [eval_extract_value hw₂, hloValue, hhiValue]
          next => rw [eval_extract_value hw₁]
        · show m.weight ≤ _
          rw [weight_interior]
          simp only [weightAll_cons, weightAll_nil, Operator.weigh]
          omega
      next => cases hsame
    next => cases hsame
  next => exact progress_none _

theorem progress_swapIte {w f : Nat} {c x y : Node}
    (hfresh : (Node.interior .ite w [c, x, y] f).Fresh E)
    (hbelow : LayoutBelow E other (Node.interior .ite w [c, x, y] f).layoutRank) :
    Progress (Next E other (fun k => k.weight ≤ (Node.interior .ite w [c, x, y] f).weight)
      (.interior .ite w [c, x, y] f)) (swapIte E (.interior .ite w [c, x, y] f)) := by
  have hchoice := Choice.of_fresh hfresh
  have hrank : (Node.interior .ite w [c, x, y] f).layoutRank =
    6 * (c.weight + x.weight + y.weight + 1) + 4 + x.bonus := rfl
  unfold swapIte
  split
  next _ w' c' rest g x' y' f' heq =>
    cases heq
    obtain ⟨hc, hc1⟩ := hchoice.condition
    obtain ⟨_, heq, hc'⟩ := hc.valid.2.1
    cases heq
    have hswapped : Choice E w c' y x :=
      ⟨hchoice.width, ⟨hc.child (by simp), hc'.trans hc1⟩, hchoice.right, hchoice.left⟩
    have hcWeight : (Node.interior .invert w' [c'] g).weight = c'.weight + 1 := by
      rw [weight_interior]
      simp only [weightAll_cons, weightAll_nil, Operator.weigh, Nat.add_zero]
    have hw' : w' = 1 := hc1
    have hbonus := bonus_le y
    have hlight := hbelow _ rfl (by rw [ite_layoutRank, hrank]; omega) (hswapped.fresh f)
    refine progress_reaches ((reaches_sound hlight).mono fun m hm => ?_)
    obtain ⟨hdone, hagrees, hweight⟩ := hm
    rw [ite_weight] at hweight
    refine next_of_settled hdone (hagrees.trans ⟨hswapped.nBits f, fun env _ => ?_⟩) ?_
    · rw [hswapped.eval, eval_ite hchoice.left.2 hchoice.right.2, isEqualToZero_invert hw' (hc'.trans hc1)]
      cases (c'.eval other env).isEqualToZero <;> simp
    · rw [weight_interior]
      simp only [weightAll_cons, weightAll_nil, Operator.weigh]
      omega
  next => exact progress_none _

/-- An `ite` simplifies to what it chooses. -/
theorem ite_light {w f : Nat} {cs : List Node}
    (hfresh : (Node.interior .ite w cs f).Fresh E)
    (hbelow : LayoutBelow E other (Node.interior .ite w cs f).layoutRank) :
    Light E other (.interior .ite w cs f) := by
  obtain ⟨c, x, y, rfl, -⟩ := hfresh.valid.2.1
  have hchoice := Choice.of_fresh hfresh
  have hweight : (Node.interior .ite w [c, x, y] f).weight = c.weight + x.weight + y.weight + 1 := by
    rw [weight_interior]
    simp only [weightAll_cons, weightAll_nil, Operator.weigh]
    omega
  refine sound_of_round hfresh (fun _ => Nat.le_refl _) ?_
  show Progress _ (rewriteIte E (.interior .ite w [c, x, y] f))
  refine progress_orElse (progress_orElse (progress_orElse ?_ fun _ => progress_pure fun m hm => ?_)
    fun _ => progress_hoistExtracts hfresh hbelow) fun _ => progress_swapIte hfresh hbelow
  · unfold knownIte
    split
    next b g x' y' _ heq =>
      cases heq
      have hsize : b.size = 1 := hchoice.condition.2
      rw [if_pos hsize]
      refine progress_some ?_
      cases hzero : b.isEqualToZero with
      | true =>
        refine next_of_settled hchoice.right.1 ⟨hchoice.right.2, fun env _ => ?_⟩ ?_
        · rw [eval_ite hchoice.left.2 hchoice.right.2, Node.eval, hzero]
          rfl
        · show y.weight ≤ _
          omega
      | false =>
        refine next_of_settled hchoice.left.1 ⟨hchoice.left.2, fun env _ => ?_⟩ ?_
        · rw [eval_ite hchoice.left.2 hchoice.right.2, Node.eval, hzero]
          rfl
        · show x.weight ≤ _
          omega
    next => exact progress_none _
  · simp only [sameIte] at hm
    split at hm
    next heq =>
      cases Option.some.inj hm
      cases (Node.isEquivalentTo_iff _ _).mp heq
      refine next_of_settled hchoice.left.1 ⟨hchoice.left.2, fun env _ => ?_⟩ (by omega)
      rw [eval_ite hchoice.left.2 hchoice.left.2]
      split <;> rfl
    next => cases hm

/-- Every concatenation, extract and `ite` simplifies to a node that means the same. -/
theorem layout_light (hE : E.Trusted other) (r : Nat) : LayoutBelow E other r := by
  induction r with
  | zero => exact fun n _ hrank => absurd hrank (Nat.not_lt_zero _)
  | succ r ih =>
    intro n hn hrank hfresh
    have hbelow : LayoutBelow E other n.layoutRank := ih.mono (by omega)
    cases n with
    | interior op w cs f =>
      by_cases hconcat : op = .concat
      · subst hconcat
        exact concat_light hE hfresh hbelow
      by_cases hextract : op = .extract
      · subst hextract
        exact extract_light hfresh hbelow
      by_cases hite : op = .ite
      · subst hite
        exact ite_light hfresh hbelow
      simp [Node.isLayout, Node.isOperator, hconcat, hextract, hite] at hn
    | _ => simp [Node.isLayout, Node.isOperator] at hn

theorem layout_sound (hE : E.Trusted other) {n : Node} (hn : n.isLayout = true) (hfresh : n.Fresh E) :
    Light E other n :=
  layout_light hE (n.layoutRank + 1) n hn (Nat.lt_succ_self _) hfresh

end

open RecursiveCalls BitSlice

section

variable {E : Engine} {other : Nat → Nat → List BitVector → Nat} {w f g : Nat} {n : BitVector}
  {a : Node}

/-- `simplifyTop` returns a settled node that means what the given one does. -/
abbrev Simplifies (E : Engine) (other : Nat → Nat → List BitVector → Nat) (n : Node) : Prop :=
  Sound E other (fun _ => True) n

/-- A node that means the same, from which `simplifyTop` goes on. -/
abbrev Continues (E : Engine) (other : Nat → Nat → List BitVector → Nat) (n m : Node) : Prop :=
  Next E other (fun _ => True) n m

theorem simplifies_layout (hE : E.Trusted other) {n : Node} (hn : n.isLayout = true)
    (hfresh : n.Fresh E) : Simplifies E other n :=
  (layout_sound hE hn hfresh).mono fun _ _ => trivial

/-- Any 32-bit extract of settled bits simplifies to these. -/
theorem reaches_extract (hE : E.Trusted other) {lo hi : Nat} (hlt : lo < hi) (hle : hi ≤ a.nBits)
    (ha : a.Done E) :
    Reaches simplifyLoop (fun m => m.Done E ∧ m.nBits = hi - lo ∧
      ∀ env, E.Admits env → (m.eval other env).value = slice (a.eval other env).value lo hi)
      (makeExtract E (makeIntegerConstant 32 lo) (makeIntegerConstant 32 hi) a) :=
  (reaches_makeExtract (layout_light hE _) hlt hle ha (Nat.lt_succ_self _)).mono
    fun _ hm => ⟨hm.1, hm.2.1, hm.2.2.2⟩

theorem slice_eq_mod (v w : Nat) : slice v 0 w = v % 2 ^ w := by
  simp [slice]

/-- A rule that makes an operand narrower keeps an operation that cuts it. -/
theorem progress_shrink (hE : E.Trusted other) {op : Operator} {c : Node} (hw : IsWidth w)
    (ha : a.Done E)
    (hcut : w < a.nBits → ∀ env, ((Node.interior op w [c, a] f).eval other env).value =
      slice (a.eval other env).value 0 w) :
    Progress (Continues E other (.interior op w [c, a] f)) (shrink E (.interior op w [c, a] f)) := by
  simp only [shrink]
  split
  next hlt =>
    refine progress_reaches ((reaches_extract hE hw.1 (Nat.le_of_lt hlt) ha).mono fun m hm => ?_)
    obtain ⟨hdone, hwidth, hvalue⟩ := hm
    refine next_of_settled hdone (.of_value (hwidth.trans (Nat.sub_zero w)) fun env henv => ?_) trivial
    rw [hvalue env henv, hcut hlt]
  next => exact progress_none _

/-- Folding an extension keeps what it means. -/
theorem progress_foldExtend {op : Operator} {extend : BitVector → Nat → BitVector} {c : Node}
    (hw : IsWidth w) (ha : a.Done E) (hsize : ∀ b, (extend b w).size = w)
    (hself : a.nBits = w → ∀ env, ((Node.interior op w [c, a] f).eval other env).value =
      (a.eval other env).value)
    (hextend : ∀ env, ((Node.interior op w [c, a] f).eval other env).value =
      (extend (a.eval other env) w).value) :
    Progress (Continues E other (.interior op w [c, a] f))
      (Stage.pure (foldExtend extend) (.interior op w [c, a] f)) := by
  refine progress_pure fun m hm => ?_
  simp only [foldExtend] at hm
  split at hm
  next heq =>
    cases Option.some.inj hm
    exact next_of_settled ha (.of_value heq fun env _ => (hself heq env).symm) trivial
  next =>
    split at hm
    next b g' _ =>
      cases Option.some.inj hm
      refine next_of_settled (done_constant ?_) (.of_value (hsize b) fun env _ => ?_) trivial
      · rw [hsize]
        exact hw
      · rw [hextend env]
        rfl
    next => cases hm

theorem fresh_extend {op : Operator} (hop : op = .uextend ∨ op = .sextend) (hw : IsWidth w)
    (hn : (Node.constant n g).Done E) (hn64 : n.size ≤ 64) (hnw : n.value = w) (ha : a.Done E) :
    (newInterior op [.constant n g, a] f).Fresh E := by
  have hshape : op.Shape w [.constant n g, a] := by
    rcases hop with rfl | rfl <;> exact ⟨n, g, a, rfl, hn64, hnw⟩
  rw [newInterior_of_shape (by rcases hop with rfl | rfl <;> simp) hshape]
  refine fresh_newInteriorOf hw hshape (fun c hc => ?_) f
  simp only [List.mem_cons, List.not_mem_nil, or_false] at hc
  rcases hc with rfl | rfl
  · exact hn
  · exact ha

/-- A zero extension, also to fewer bits, simplifies to the same value. -/
theorem uextend_sound (hE : E.Trusted other) {cs : List Node}
    (hfresh : (Node.interior .uextend w cs f).Fresh E) :
    Simplifies E other (.interior .uextend w cs f) := by
  generalize hk : weightAll cs = k
  induction k using Nat.strong_induction_on generalizing cs f with
  | _ k ih =>
    obtain ⟨n, g, a, rfl, hn64, hnw⟩ := hfresh.valid.2.1
    have hn := hfresh.operand (c := .constant n g) (by simp)
    have ha := hfresh.operand (c := a) (by simp)
    have hw := hfresh.valid.1
    refine sound_of_round hfresh (fun _ => trivial) ?_
    show Progress _ (rewriteUextend E (.interior .uextend w [.constant n g, a] f))
    refine progress_orElse (progress_orElse (progress_foldExtend hw ha (fun _ => rfl)
      (fun heq env => ?_) fun env => eval_uextend_value) fun _ => ?_) fun _ =>
      progress_shrink hE hw ha fun _ env => by rw [eval_uextend_value, slice_eq_mod]
    · have hlt := @value_lt other env a
      rw [heq] at hlt
      rw [eval_uextend_value, Nat.mod_eq_of_lt hlt]
    · unfold nestedExtend
      split
      next heq =>
        cases heq
        split
        next w' _ c _ _ hcond =>
          have hc := ha.child (c := c) (by simp)
          subst hnw
          have hsub := ih (weightAll [.constant n g, c]) (by
            rw [← hk]
            simp only [weightAll_cons, weight_interior, weightAll_nil, Operator.weigh]
            omega) (fresh_extend (f := 0) (Or.inl rfl) hw hn hn64 rfl hc) rfl
          refine progress_reaches ((reaches_sound hsub).mono fun m hm => ?_)
          obtain ⟨hdone, hagrees, -⟩ := hm
          refine next_of_settled hdone (hagrees.trans (.of_value rfl fun env _ => ?_)) trivial
          have hlt := @value_lt other env c
          have hle : 2 ^ c.nBits ≤ 2 ^ w' := Nat.pow_le_pow_right (by omega) (by omega)
          rw [eval_uextend_value, eval_uextend_value, eval_uextend_value,
            Nat.mod_eq_of_lt (Nat.lt_of_lt_of_le hlt hle)]
        next => exact progress_none _
      next => exact progress_none _

/-- A sign extension, also to fewer bits, simplifies to the same value. -/
theorem sextend_sound (hE : E.Trusted other) {cs : List Node}
    (hfresh : (Node.interior .sextend w cs f).Fresh E) :
    Simplifies E other (.interior .sextend w cs f) := by
  obtain ⟨n, g, a, rfl, -, -⟩ := hfresh.valid.2.1
  have ha := hfresh.operand (c := a) (by simp)
  have hw := hfresh.valid.1
  have hcut : w ≤ a.nBits → ∀ env, ((Node.interior .sextend w [.constant n g, a] f).eval other
      env).value = slice (a.eval other env).value 0 w := by
    intro hle env
    rw [eval_sextend_value, BitVector.signExtend_value_of_ge (by rwa [Node.eval_size])]
  refine sound_of_round hfresh (fun _ => trivial) ?_
  show Progress _ (rewriteSextend E (.interior .sextend w [.constant n g, a] f))
  refine progress_orElse (progress_foldExtend hw ha (fun _ => rfl) (fun heq env => ?_)
    fun env => eval_sextend_value) fun _ => progress_shrink hE hw ha fun hlt =>
    hcut (Nat.le_of_lt hlt)
  have hlt := @value_lt other env a
  rw [heq] at hlt
  rw [hcut (Nat.le_of_eq heq.symm), slice_eq_mod, Nat.mod_eq_of_lt hlt]

end

end LoomX.Symbolic
