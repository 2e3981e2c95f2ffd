import LoomX.Symbolic.ExtractSound

namespace LoomX.Symbolic

open RecursiveCalls BitSlice

/-- The vectors are the same bits, perhaps cut elsewhere. -/
def SameBits (vals vals' : List BitVector) : Prop :=
  BitVector.joined vals = BitVector.joined vals' ∧
    (vals.map BitVector.size).sum = (vals'.map BitVector.size).sum

theorem replaces_sameBits : Replaces SameBits where
  refl _ := ⟨rfl, rfl⟩
  trans h h' := ⟨h.1.trans h'.1, h.2.trans h'.2⟩
  append h h' := by
    constructor
    · rw [BitVector.joined_append, BitVector.joined_append, h.1, h'.1, h'.2]
    · simp only [List.map_append, List.sum_append, h.2, h'.2]

theorem foldsRuns_concat : FoldsRuns SameBits (fun _ => True) maxBits BitVector.concat := by
  intro vals hne hvals hbound
  refine ⟨⟨?_, ?_⟩, ?_, fun _ => trivial⟩
  · rw [BitVector.joined_singleton, BitVector.concat_value]
  · simp [BitVector.concat]
  · obtain ⟨v, rest, rfl⟩ := List.exists_cons_of_ne_nil hne
    have hpos := (hvals v List.mem_cons_self).1.1
    refine ⟨?_, hbound⟩
    simp only [BitVector.concat, BitVector.fromInteger_size, List.map_cons, List.sum_cons]
    omega

theorem opens_concat (other : Nat → Nat → List BitVector → Nat) (env : Nat → Nat) :
    Opens other env SameBits (fun _ => True) .concat := by
  intro w cs f hvalid _
  have hsum : (cs.map Node.nBits).sum = w := hvalid.2.1.2
  refine ⟨⟨?_, ?_⟩, fun _ _ => trivial⟩
  · rw [BitVector.joined_singleton, eval_concat_value hsum]
  · rw [map_eval_size, hsum]
    simp [Node.nBits]

/-- What a rule leads to, if the rest is left to nodes of a lower rank. -/
def Lower (E : Engine) (other : Nat → Nat → List BitVector → Nat) (n m : Node) : Prop :=
  Agrees E other m n ∧ m.weight ≤ n.weight ∧
    (m.Done E ∨ m.Fresh E ∧ m.isLayout = true ∧ m.layoutRank < n.layoutRank)

section

variable {E : Engine} {other : Nat → Nat → List BitVector → Nat} {n m k : Node}

theorem Lower.next (h : Lower E other n m) (hbelow : LayoutBelow E other n.layoutRank) :
    Next E other (fun k => k.weight ≤ n.weight) n m := by
  obtain ⟨hagrees, hweight, hdone | ⟨hfresh, hlayout, hrank⟩⟩ := h
  · exact next_of_settled hdone hagrees hweight
  · exact ⟨hagrees, (hbelow m hlayout hrank hfresh).mono fun k hk => hk.trans hweight⟩

theorem Lower.trans (h : Lower E other n m) (h' : Lower E other m k)
    (hrank : m.layoutRank ≤ n.layoutRank) : Lower E other n k := by
  refine ⟨h'.1.trans h.1, h'.2.1.trans h.2.1, ?_⟩
  exact h'.2.2.imp_right fun hk => ⟨hk.1, hk.2.1, Nat.lt_of_lt_of_le hk.2.2 hrank⟩

/-- Lighter operands that are the same bits together. -/
theorem lower_concat {w f f' : Nat} {cs ds : List Node}
    (hfresh : (Node.interior .concat w cs f).Fresh E) (hne : ds ≠ []) (hds : ∀ d ∈ ds, d.Done E)
    (hweight : weightAll ds < weightAll cs) (hwidth : (ds.map Node.nBits).sum = (cs.map Node.nBits).sum)
    (hvalue : ∀ env, E.Admits env → BitVector.joined (ds.map (Node.eval other env)) =
      BitVector.joined (cs.map (Node.eval other env))) :
    Lower E other (.interior .concat w cs f) (newInteriorOf w .concat ds f') := by
  have hsum : (cs.map Node.nBits).sum = w := hfresh.valid.2.1.2
  have hsum' : (ds.map Node.nBits).sum = w := hwidth.trans hsum
  have hshape : Operator.concat.Shape w ds := ⟨hne, hsum'⟩
  have hrank : 12 * weightAll ds + 1 < 12 * weightAll cs + 1 := by omega
  refine ⟨.of_value rfl fun env henv => ?_, ?_, Or.inr
    ⟨fresh_newInteriorOf hfresh.valid.1 hshape hds f', rfl, hrank⟩⟩
  · rw [newInteriorOf, eval_concat_value hsum', eval_concat_value hsum]
    exact hvalue env henv
  · rw [newInteriorOf, weight_interior, weight_interior]
    simp only [Operator.weigh]
    omega

theorem takesSome_concat : Operator.concat.TakesSome := fun h => h.1

theorem outweighs_concat : Operator.concat.Outweighs := outweighs_of_takesSome rfl takesSome_concat

theorem lower_associative {w f : Nat} {cs : List Node} {m : Node}
    (hfresh : (Node.interior .concat w cs f).Fresh E)
    (h : associative (.interior .concat w cs f) = some m) :
    (∃ ds g, m = .interior .concat w ds g) ∧ Lower E other (.interior .concat w cs f) m := by
  have hdone := fun c hc => hfresh.operand (c := c) hc
  have hallValid := hfresh.valid.2.2
  simp only [associative] at h
  split at h
  next hany =>
    cases Option.some.inj h
    have hreplaces := fun env => replaces_flattenAll replaces_sameBits (opens_concat other env) cs
      hallValid fun _ _ => trivial
    have hweight := (weight_flattenAll outweighs_concat cs hallValid).2 hany
    have hwidth := (hreplaces fun _ => 0).1.2
    rw [map_eval_size, map_eval_size] at hwidth
    refine ⟨⟨_, _, rfl⟩, lower_concat hfresh ?_ (done_of_flattenAll _ cs hdone) hweight hwidth.symm
      fun env _ => (hreplaces env).1.1.symm⟩
    intro hnil
    rw [hnil] at hwidth
    have hpos := hfresh.valid.1.1
    have hsum : (cs.map Node.nBits).sum = w := hfresh.valid.2.1.2
    simp only [List.map_nil, List.sum_nil] at hwidth
    omega
  next => cases h

theorem lower_foldConstants {w f : Nat} {cs : List Node} {m : Node}
    (hfresh : (Node.interior .concat w cs f).Fresh E)
    (h : foldConstants BitVector.concat (.interior .concat w cs f) = some m) :
    Lower E other (.interior .concat w cs f) m := by
  have hsum : (cs.map Node.nBits).sum = w := hfresh.valid.2.1.2
  have hfolded : ∀ env, RunFolded E other env SameBits (fun _ => True) cs
      (foldRuns BitVector.concat [] cs) := by
    intro env
    refine runFolded_foldRuns replaces_sameBits foldsRuns_concat
      (fun c hc => absurd hc List.not_mem_nil) (fun c hc => hfresh.operand hc) (fun _ _ => trivial) ?_
    rw [List.nil_append, hsum]
    exact hfresh.valid.1.2
  have hfold := hfolded fun _ => 0
  have hlight := hfold.weight
  have hlength := hfold.length
  have hwidth := hfold.same.2
  rw [map_eval_size, map_eval_size] at hwidth
  rcases foldConstants_cases h with ⟨hds, hone⟩ | ⟨rfl, hlen⟩
  · rw [hds] at hfolded hfold hlight hwidth
    simp only [List.map_singleton, List.sum_singleton, weightAll_cons, weightAll_nil,
      List.length_singleton] at hwidth hlight
    have hpos := List.length_pos_iff.mpr hfresh.valid.2.1.1
    refine ⟨.of_value (hwidth.trans hsum) fun env _ => ?_, ?_, Or.inl (hfold.done m (by simp))⟩
    · have hvalue := (hfolded env).same.1
      rw [List.map_singleton, BitVector.joined_singleton] at hvalue
      rw [hvalue, eval_concat_value hsum]
    · rw [weight_interior]
      simp only [Operator.weigh]
      omega
  · exact lower_concat hfresh (hfold.nonempty hfresh.valid.2.1.1) hfold.done (by omega) hwidth
      fun env _ => (hfolded env).same.1

/-- What `commonCondition` makes of nodes: their values, chosen by one condition. -/
structure Chosen (E : Engine) (other : Nat → Nat → List BitVector → Nat) (c : Node)
    (cs xs ys : List Node) : Prop where
  done : (∀ x ∈ xs, x.Done E) ∧ ∀ y ∈ ys, y.Done E
  widths : xs.map Node.nBits = cs.map Node.nBits ∧ ys.map Node.nBits = cs.map Node.nBits
  weight : weightAll xs + weightAll ys ≤ weightAll cs
  eval : ∀ env, E.Admits env → cs.map (Node.eval other env) =
    if (c.eval other env).isEqualToZero then ys.map (Node.eval other env)
    else xs.map (Node.eval other env)

/-- A further `ite` whose condition must equal the common one. -/
theorem Chosen.cons {c c' x y : Node} {cs xs ys : List Node} {w f : Nat}
    (h : Chosen E other c cs xs ys) (hd : (Node.interior .ite w [c', x, y] f).Done E)
    (hcondition : ∀ env, E.Admits env → c'.eval other env = c.eval other env) :
    Chosen E other c (.interior .ite w [c', x, y] f :: cs) (x :: xs) (y :: ys) := by
  obtain ⟨c'', x', y', heq, -, hx, hy⟩ := hd.valid.2.1
  cases heq
  refine ⟨⟨?_, ?_⟩, ⟨?_, ?_⟩, ?_, fun env henv => ?_⟩
  · intro z hz
    rcases List.mem_cons.mp hz with rfl | hz
    · exact hd.child (by simp)
    · exact h.done.1 z hz
  · intro z hz
    rcases List.mem_cons.mp hz with rfl | hz
    · exact hd.child (by simp)
    · exact h.done.2 z hz
  · rw [List.map_cons, List.map_cons, h.widths.1, hx]
    rfl
  · rw [List.map_cons, List.map_cons, h.widths.2, hy]
    rfl
  · have hweight := h.weight
    simp only [weightAll_cons, weight_interior, weightAll_nil, Operator.weigh]
    omega
  · rw [List.map_cons, h.eval env henv, eval_ite hx hy, hcondition env henv]
    split <;> rfl

theorem chosen_of_commonCondition (hE : E.Trusted other) {c₀ c : Node} {cs xs ys : List Node}
    (hc₀ : c₀.nBits = 1) (hcs : ∀ d ∈ cs, d.Done E)
    (h : commonCondition E.solver (some c₀) cs = some (c, xs, ys)) :
    c = c₀ ∧ Chosen E other c₀ cs xs ys := by
  induction cs generalizing xs ys with
  | nil =>
    cases Option.some.inj h
    exact ⟨rfl, ⟨by simp, by simp⟩, ⟨rfl, rfl⟩, Nat.le_refl _, fun env _ => by simp⟩
  | cons d cs ih =>
    have hd := hcs d List.mem_cons_self
    unfold commonCondition at h
    split at h
    next heq => cases heq
    next heq =>
      cases heq
      split at h
      next hequal =>
        obtain ⟨⟨c', xs', ys'⟩, hrest, hr⟩ := Option.map_eq_some_iff.mp h
        cases hr
        obtain ⟨rfl, hchosen⟩ := ih (fun e he => hcs e (List.mem_cons_of_mem _ he)) hrest
        obtain ⟨c'', x', y', heq, hc1, -⟩ := hd.valid.2.1
        cases heq
        refine ⟨rfl, hchosen.cons hd fun env henv => ?_⟩
        exact eval_of_mustEqual hE hequal (hc1.trans hc₀.symm) henv
      next => cases h
    next => cases h

/-- The nodes of a concatenation that is hoisted, with what the conditions weigh. -/
theorem chosen_of_hoist (hE : E.Trusted other) {c : Node} {cs xs ys : List Node}
    (hcs : ∀ d ∈ cs, d.Done E) (h : commonCondition E.solver none cs = some (c, xs, ys)) :
    c.Done E ∧ c.nBits = 1 ∧ Chosen E other c cs xs ys ∧
      c.weight + weightAll xs + weightAll ys + 1 ≤ weightAll cs := by
  match cs with
  | [] => cases h
  | d :: cs =>
    have hd := hcs d List.mem_cons_self
    unfold commonCondition at h
    split at h
    next heq => cases heq
    next heq =>
      cases heq
      simp only [Option.map_none, Option.getD_none, ↓reduceIte] at h
      obtain ⟨⟨c', xs', ys'⟩, hrest, hr⟩ := Option.map_eq_some_iff.mp h
      cases hr
      obtain ⟨c'', x', y', heq, hc1, -⟩ := hd.valid.2.1
      cases heq
      obtain ⟨rfl, hchosen⟩ := chosen_of_commonCondition hE hc1
        (fun e he => hcs e (List.mem_cons_of_mem _ he)) hrest
      refine ⟨hd.child (by simp), hc1, hchosen.cons hd fun _ _ => rfl, ?_⟩
      have hweight := hchosen.weight
      simp only [weightAll_cons, weight_interior, weightAll_nil, Operator.weigh]
      omega
    next => cases h

/-- An extract that reads above bit zero of an operand of another kind is settled. -/
theorem done_extractNode {lo hi : BitVector} {fl fh f : Nat} {a : Node} (hlimits : Limits lo hi a)
    (ha : a.Done E) (hlo : lo.value ≠ 0) (hconst : a.isIntegerConstant = false)
    (hconcat : a.isOperator .concat = false) (hextract : a.isOperator .extract = false) :
    (extractNode lo hi fl fh a f).Done E := by
  have hfresh : (extractNode lo hi fl fh a f).Fresh E := hlimits.fresh ha
  have hwithin : ¬ (hi.value ≤ lo.value ∨ a.nBits < hi.value) := by
    have hlt := hlimits.lt
    have hle := hlimits.le
    omega
  have hround : rewriteExtract E (extractNode lo hi fl fh a f) = .ret none := by
    simp only [extractNode, newInterior, newInteriorOf, rewriteExtract, if_neg hwithin]
    split
    next => simp [Node.isIntegerConstant] at hconst
    next =>
      rw [if_neg fun h => hlo h.1]
      unfold extractFrom
      split
      next => simp [Node.isOperator] at hconcat
      next => simp [Node.isOperator] at hextract
      next =>
        rw [if_neg fun h => hlo h.1]
        rfl
      next => rfl
  exact ⟨hfresh.valid, hround, (allSettled_iff E _).mpr hfresh.operands⟩

/-- The previous argument of `joinExtracts` stands last, and is the extract whose lower limit is
known, unless that is zero. -/
def PrevKnown (newArgs : List Node) (prev : Option Node) (prevLo : Nat) : Prop :=
  ∀ p ∈ prev, (∃ rest, newArgs = p :: rest) ∧
    (prevLo = 0 ∨ ∃ w lo fl hi fh a f,
      p = .interior .extract w [.constant lo fl, .constant hi fh, a] f ∧ lo.value = prevLo)

/-- Fewer arguments that are the same bits together. -/
structure Joined (E : Engine) (other : Nat → Nat → List BitVector → Nat) (cs ms : List Node) :
    Prop where
  done : ∀ m ∈ ms, m.Done E
  nonempty : ms ≠ []
  length : ms.length < cs.length
  width : (ms.map Node.nBits).sum = (cs.map Node.nBits).sum
  weight : weightAll ms < weightAll cs
  value : ∀ env, E.Admits env → BitVector.joined (ms.map (Node.eval other env)) =
    BitVector.joined (cs.map (Node.eval other env))

theorem Joined.trans {cs ds ms : List Node} (h : Joined E other cs ds) (h' : Joined E other ds ms) :
    Joined E other cs ms :=
  ⟨h'.done, h'.nonempty, h'.length.trans h.length, h'.width.trans h.width, h'.weight.trans h.weight,
    fun env henv => (h'.value env henv).trans (h.value env henv)⟩

/-- Two neighbours replaced by one node. -/
theorem joined_pair {p arg m : Node} {before after : List Node}
    (hdone : ∀ c ∈ before ++ m :: after, c.Done E) (hwidth : m.nBits = p.nBits + arg.nBits)
    (hweight : m.weight < p.weight + arg.weight)
    (hvalue : ∀ env, E.Admits env → (m.eval other env).value =
      2 ^ arg.nBits * (p.eval other env).value + (arg.eval other env).value) :
    Joined E other (before ++ p :: arg :: after) (before ++ m :: after) where
  done := hdone
  nonempty := by simp
  length := by simp
  width := by
    simp only [List.map_append, List.map_cons, List.sum_append, List.sum_cons, hwidth]
    omega
  weight := by
    simp only [weightAll_append, weightAll_cons]
    omega
  value env henv := by
    have hsame : SameBits [m.eval other env] [p.eval other env, arg.eval other env] := by
      constructor
      · rw [BitVector.joined_singleton, hvalue env henv]
        simp [BitVector.joined, Nat.mul_comm]
      · simp [hwidth]
    have hbefore := replaces_sameBits.refl (before.map (Node.eval other env))
    have hafter := replaces_sameBits.refl (after.map (Node.eval other env))
    have happend := replaces_sameBits.append hbefore (replaces_sameBits.append hsame hafter)
    simpa using happend.1

/-- An extract from the operand of a settled one; it stays an extract above bit zero. -/
theorem reaches_joined {r : Nat} (hbelow : LayoutBelow E other r) {lo hi : BitVector} {fl fh : Nat}
    {a : Node} (hlimits : Limits lo hi a) (ha : a.Done E) (hr : 6 * a.weight + 3 < r)
    (hconst : a.isIntegerConstant = false) (hconcat : a.isOperator .concat = false)
    (hextract : a.isOperator .extract = false) :
    Reaches simplifyLoop (fun m => m.Done E ∧ m.nBits = hi.value - lo.value ∧ m.weight ≤ a.weight ∧
      (∀ env, E.Admits env → (m.eval other env).value =
        slice (a.eval other env).value lo.value hi.value) ∧
      (lo.value = 0 ∨ m = extractNode lo hi fl fh a 0))
      (makeExtract E (.constant lo fl) (.constant hi fh) a) := by
  by_cases hlo : lo.value = 0
  · have hbonus := bonus_le a
    have hlight := hbelow (extractNode lo hi fl fh a 0) rfl
      (by rw [extractNode_layoutRank]; omega) (hlimits.fresh ha)
    refine (reaches_sound hlight).mono fun m hm => ?_
    obtain ⟨hdone, hagrees, hweight⟩ := hm
    rw [extractNode_weight] at hweight
    exact ⟨hdone, hagrees.width, hweight,
      fun env henv => by rw [hagrees.eval env henv, extractNode_value], Or.inl hlo⟩
  · have hnode : (extractNode lo hi fl fh a 0).Done E :=
      done_extractNode hlimits ha hlo hconst hconcat hextract
    exact reaches_invoke ⟨_, computes_of_settled hnode, hnode, rfl, (extractNode_weight).le,
      fun env _ => extractNode_value env, Or.inr rfl⟩

/-- The extract that joins two neighbours. -/
theorem reaches_join {r prevLo : Nat} (hE : E.Trusted other) (hbelow : LayoutBelow E other r)
    {newArgs : List Node} {p arg l u a : Node} (hknown : PrevKnown newArgs (some p) prevLo)
    (hp : p.Done E) (harg : arg.Done E) (hr : 6 * arg.weight + 3 < r)
    (h : joinable E.solver prevLo p arg = some (l, u, a)) :
    Reaches simplifyLoop (fun m => m.Done E ∧ m.nBits = p.nBits + arg.nBits ∧
      m.weight < p.weight + arg.weight ∧
      (∀ env, E.Admits env → (m.eval other env).value =
        2 ^ arg.nBits * (p.eval other env).value + (arg.eval other env).value) ∧
      PrevKnown (m :: newArgs.tail) (if m.isInterior then some m else none)
        ((lowLimit arg).getD 0)) (makeExtract E l u a) := by
  unfold joinable at h
  split at h
  next wp _ hi' a' _ _ w lo fl hi fh a f =>
    split at h
    next hcond =>
      obtain ⟨hlo, hhi, hprev, hw, hequal⟩ := hcond
      cases Option.some.inj h
      obtain ⟨_, _, _, _, _, heq, -, -, hlt, hle, hwidth⟩ := harg.valid.2.1
      cases heq
      rcases (hknown _ rfl).2 with hzero | ⟨w', lo', fl', hi', fh', a'', f', heq', hlo'⟩
      · omega
      cases heq'
      obtain ⟨_, _, _, _, _, heq, -, hhi', hlt', hle', hwidth'⟩ := hp.valid.2.1
      cases heq
      have ha := harg.child (c := a) (by simp)
      have hlimits : Limits lo hi' a := by
        refine ⟨⟨(harg.child (c := .constant lo fl) (by simp)).valid, hlo⟩,
          ⟨(hp.child (c := .constant hi' fh') (by simp)).valid, hhi'⟩, by omega, by omega⟩
      have hargWeight : (Node.interior .extract w [.constant lo fl, .constant hi fh, a] f).weight =
          a.weight := weight_extract
      obtain ⟨hconst, hconcat, hextract⟩ := operand_of_settled_extract harg
      have hpos := weight_pos _ hp.valid
      refine (reaches_joined hbelow hlimits ha (by rw [← hargWeight]; exact hr) hconst hconcat
        hextract).mono fun m hm => ?_
      obtain ⟨hdone, hmWidth, hmWeight, hmValue, hmNode⟩ := hm
      refine ⟨hdone, ?_, by omega, fun env henv => ?_, ?_⟩
      · show m.nBits = wp + w
        omega
      · rw [hmValue env henv, eval_extract_value hwidth, eval_extract_value hwidth',
          eval_of_mustEqual hE hequal hw henv, hlo', ← hprev]
        have hnBits : (Node.interior .extract w [.constant lo fl, .constant hi fh, a] f).nBits =
          hi.value - lo.value := hwidth.symm
        rw [hnBits, slice_append (by omega) (by omega)]
      · intro k hk
        have hlow : lowLimit (.interior .extract w [.constant lo fl, .constant hi fh, a] f) =
          some lo.value := by simp [lowLimit, hlo, hhi]
        rw [hlow]
        split at hk
        next =>
          cases Option.mem_some_iff.mp hk
          refine ⟨⟨_, rfl⟩, hmNode.imp_right fun hnode => ?_⟩
          exact ⟨_, lo, fl, hi', fh', a, _, hnode, rfl⟩
        next => cases hk
    next => cases h
  next => cases h

theorem extract_of_lowLimit {arg : Node} {v : Nat} (h : lowLimit arg = some v) :
    ∃ w lo fl hi fh a f, arg = .interior .extract w [.constant lo fl, .constant hi fh, a] f ∧
      lo.value = v := by
  unfold lowLimit at h
  split at h
  next w lo fl hi fh a f =>
    split at h
    next => exact ⟨w, lo, fl, hi, fh, a, f, rfl, Option.some.inj h⟩
    next => cases h
  next => cases h

theorem prevKnown_of_lowLimit {newArgs : List Node} {arg : Node} :
    PrevKnown (arg :: newArgs) (if (lowLimit arg).isSome then some arg else none)
      ((lowLimit arg).getD 0) := by
  intro p hp
  split at hp
  next hsome =>
    cases Option.mem_some_iff.mp hp
    obtain ⟨v, hv⟩ := Option.isSome_iff_exists.mp hsome
    rw [hv]
    exact ⟨⟨_, rfl⟩, Or.inr (extract_of_lowLimit hv)⟩
  next => cases hp

/-- Joining neighbours leaves the arguments alone or makes fewer of them that mean the same. -/
theorem join_or_joined {r : Nat} (hE : E.Trusted other) (hbelow : LayoutBelow E other r)
    {args newArgs : List Node} {prev : Option Node} {prevLo : Nat}
    (hknown : PrevKnown newArgs prev prevLo) (hdone : ∀ c ∈ newArgs.reverse ++ args, c.Done E)
    (hr : 6 * weightAll args + 3 < r) :
    joinExtracts E newArgs prev prevLo args = .ret (newArgs.reverse ++ args) ∨
      Reaches simplifyLoop (Joined E other (newArgs.reverse ++ args))
        (joinExtracts E newArgs prev prevLo args) := by
  induction args generalizing newArgs prev prevLo with
  | nil =>
    left
    rw [List.append_nil]
    rfl
  | cons arg args ih =>
    rw [weightAll_cons] at hr
    unfold joinExtracts
    split
    next l u a hjoin =>
      right
      obtain ⟨p, rfl, hp⟩ := Option.bind_eq_some_iff.mp hjoin
      obtain ⟨⟨rest, rfl⟩, -⟩ := hknown p rfl
      have hjoined := reaches_join hE hbelow hknown (hdone p (by simp)) (hdone arg (by simp))
        (by omega) hp
      refine hjoined.bind fun m hm => ?_
      obtain ⟨hmDone, hmWidth, hmWeight, hmValue, hmKnown⟩ := hm
      have hdone' : ∀ c ∈ (m :: rest).reverse ++ args, c.Done E := by
        intro c hc
        simp only [List.reverse_cons, List.append_assoc, List.singleton_append, List.mem_append,
          List.mem_reverse, List.mem_cons] at hc
        rcases hc with hc | rfl | hc
        · exact hdone c (by simp [hc])
        · exact hmDone
        · exact hdone c (by simp [hc])
      have hpair : Joined E other ((p :: rest).reverse ++ arg :: args) ((m :: rest).reverse ++ args) := by
        simp only [List.reverse_cons, List.append_assoc, List.singleton_append] at hdone' ⊢
        exact joined_pair hdone' hmWidth hmWeight hmValue
      rcases ih hmKnown hdone' (by omega) with hret | hreaches
      · simp only [List.tail_cons] at hret ⊢
        rw [hret]
        exact hpair
      · exact hreaches.mono fun ms hms => hpair.trans hms
    next =>
      have happend : newArgs.reverse ++ arg :: args = (arg :: newArgs).reverse ++ args := by simp
      rw [happend] at hdone ⊢
      exact ih prevKnown_of_lowLimit hdone (by omega)

/-- A hoisted concatenation is a choice of lighter concatenations. -/
theorem progress_hoistConcat {w f : Nat} {cs : List Node} (hE : E.Trusted other)
    (hfresh : (Node.interior .concat w cs f).Fresh E)
    (hbelow : LayoutBelow E other (Node.interior .concat w cs f).layoutRank) :
    Progress (Next E other (fun k => k.weight ≤ (Node.interior .concat w cs f).weight)
      (.interior .concat w cs f)) (hoistConcat E (.interior .concat w cs f)) := by
  have hsum : (cs.map Node.nBits).sum = w := hfresh.valid.2.1.2
  have hrank : (Node.interior .concat w cs f).layoutRank = 12 * weightAll cs + 1 := rfl
  have hweigh : (Node.interior .concat w cs f).weight = 2 * weightAll cs := weight_interior _ _ _ _
  simp only [hoistConcat]
  split
  next c xs ys hcommon =>
    obtain ⟨hc, hc1, hchosen, hweight⟩ := chosen_of_hoist hE
      (fun d hd => hfresh.operand hd) hcommon
    have hcPos := weight_pos c hc.valid
    have hnonempty : ∀ zs : List Node, zs.map Node.nBits = cs.map Node.nBits → zs ≠ [] := by
      rintro zs hzs rfl
      exact hfresh.valid.2.1.1 (List.map_eq_nil_iff.mp hzs.symm)
    -- either concatenation, as wide as the given one
    have hconcat : ∀ zs : List Node, zs.map Node.nBits = cs.map Node.nBits → (∀ z ∈ zs, z.Done E) →
        weightAll zs < weightAll cs → Reaches simplifyLoop (fun m => m.Done E ∧ m.nBits = w ∧
          m.weight ≤ 2 * weightAll zs ∧ ∀ env, E.Admits env → (m.eval other env).value =
            BitVector.joined (zs.map (Node.eval other env))) (makeInstance E .concat zs) := by
      intro zs hwidths hzs hlt
      obtain ⟨hzsFresh, hbits⟩ := fresh_concat hfresh.valid.1 (hnonempty zs hwidths)
        (by rw [hwidths]; exact hsum) hzs 0
      have hlight := hbelow _ rfl (by rw [concat_layoutRank, hrank]; omega) hzsFresh
      refine (reaches_sound hlight).mono fun m hm => ?_
      obtain ⟨hdone, hagrees, hmWeight⟩ := hm
      refine ⟨hdone, hagrees.width.trans hbits, by rw [concat_weight] at hmWeight; exact hmWeight,
        fun env henv => ?_⟩
      have hvalue : ((newInterior .concat zs 0).eval other env).value =
        BitVector.joined (zs.map (Node.eval other env)) := eval_concat_value rfl
      rw [hagrees.eval env henv, hvalue]
    refine Or.inr ((hconcat xs hchosen.widths.1 hchosen.done.1 (by omega)).bind fun x hx => ?_)
    obtain ⟨hxDone, hxWidth, hxWeight, hxValue⟩ := hx
    refine (hconcat ys hchosen.widths.2 hchosen.done.2 (by omega)).bind fun y hy => ?_
    obtain ⟨hyDone, hyWidth, hyWeight, hyValue⟩ := hy
    have hshape : Operator.ite.Shape w [c, x, y] := ⟨c, x, y, rfl, hc1, hxWidth, hyWidth⟩
    have hiteFresh : (newInteriorOf w .ite [c, x, y] 0).Fresh E := by
      refine fresh_newInteriorOf hfresh.valid.1 hshape (fun d hd => ?_) 0
      simp only [List.mem_cons, List.not_mem_nil, or_false] at hd
      rcases hd with rfl | rfl | rfl
      · exact hc
      · exact hxDone
      · exact hyDone
    have hiteRank : (newInteriorOf w .ite [c, x, y] 0).layoutRank =
      6 * (c.weight + x.weight + y.weight + 1) + 4 + x.bonus := rfl
    have hbonus := bonus_le x
    have hlight := hbelow _ rfl (by rw [hiteRank, hrank]; omega) hiteFresh
    have hiteNode : newInterior .ite [c, x, y] 0 = newInteriorOf w .ite [c, x, y] 0 :=
      newInterior_of_shape (by simp) hshape 0
    have hmake : makeIte E c x y = Calls.invoke (E, newInteriorOf w .ite [c, x, y] 0) := by
      rw [makeIte, makeInstance, hiteNode]
    rw [hmake]
    refine (reaches_sound hlight).bind fun m hm => ?_
    obtain ⟨hdone, hagrees, hmWeight⟩ := hm
    refine ⟨m, rfl, next_of_settled hdone (hagrees.trans (.of_value rfl fun env henv => ?_)) ?_⟩
    · rw [newInteriorOf, eval_ite hxWidth hyWidth, eval_concat_value hsum, hchosen.eval env henv]
      split
      next => exact hyValue env henv
      next => exact hxValue env henv
    · rw [newInteriorOf, weight_interior] at hmWeight
      simp only [weightAll_cons, weightAll_nil, Operator.weigh] at hmWeight
      omega
  next => exact progress_none _

/-- A single argument, with the flags of the concatenation. -/
theorem next_newFlags {w f : Nat} {cs : List Node} {m : Node}
    (hfresh : (Node.interior .concat w cs f).Fresh E) (hm : m.Done E)
    (hwidth : m.nBits = (cs.map Node.nBits).sum) (hweight : m.weight ≤ weightAll cs)
    (hvalue : ∀ env, E.Admits env →
      (m.eval other env).value = BitVector.joined (cs.map (Node.eval other env))) :
    Reaches simplifyLoop (Next E other (fun k => k.weight ≤ (Node.interior .concat w cs f).weight)
      (.interior .concat w cs f)) (newFlags E f m) := by
  have hsum : (cs.map Node.nBits).sum = w := hfresh.valid.2.1.2
  refine (reaches_newFlags hm f).mono fun k hk => ?_
  obtain ⟨hdone, hkWidth, hkWeight, hkEval⟩ := hk
  refine next_of_settled hdone (.of_value ?_ fun env henv => ?_) ?_
  · rw [hkWidth, hwidth, hsum]
    rfl
  · rw [hkEval, hvalue env henv, eval_concat_value hsum]
  · rw [weight_interior, hkWeight]
    simp only [Operator.weigh]
    omega

theorem progress_joinArguments {w f : Nat} {cs : List Node} (hE : E.Trusted other)
    (hfresh : (Node.interior .concat w cs f).Fresh E)
    (hbelow : LayoutBelow E other (Node.interior .concat w cs f).layoutRank) :
    Progress (Next E other (fun k => k.weight ≤ (Node.interior .concat w cs f).weight)
      (.interior .concat w cs f)) (joinArguments E (.interior .concat w cs f)) := by
  have hrank : (Node.interior .concat w cs f).layoutRank = 12 * weightAll cs + 1 := rfl
  have hlen := length_le_weightAll cs hfresh.valid.2.2
  have hpos := List.length_pos_iff.mpr hfresh.valid.2.1.1
  have hdone : ∀ c ∈ [].reverse ++ cs, c.Done E := fun c hc => hfresh.operand hc
  have hknown : PrevKnown [] none 0 := fun p hp => by cases hp
  have hjoin := join_or_joined (r := 12 * weightAll cs + 1) hE hbelow hknown hdone (by omega)
  rw [List.reverse_nil, List.nil_append] at hjoin
  simp only [joinArguments]
  rcases hjoin with hret | hreaches
  · rw [hret]
    rcases cs with _ | ⟨c, _ | ⟨d, rest⟩⟩
    · exact absurd rfl hfresh.valid.2.1.1
    · refine progress_reaches (next_newFlags hfresh (hfresh.operand (by simp)) (by simp) (by simp)
        fun env _ => ?_)
      rw [List.map_singleton, BitVector.joined_singleton]
    · exact Or.inl (by simp only [bind, Calls.bind, concatOf, ↓reduceIte]; rfl)
  · refine Or.inr (hreaches.bind fun ms hms => ?_)
    have hlength := hms.length
    rcases ms with _ | ⟨m, _ | ⟨m', rest⟩⟩
    · exact absurd rfl hms.nonempty
    · have hweight := hms.weight
      have hwidth := hms.width
      simp only [List.map_singleton, List.sum_singleton, weightAll_cons, weightAll_nil] at hwidth hweight
      refine (next_newFlags hfresh (hms.done m (by simp)) hwidth (by omega) fun env henv => ?_).bind
        fun k hk => ⟨k, rfl, hk⟩
      have hvalue := hms.value env henv
      rwa [List.map_singleton, BitVector.joined_singleton] at hvalue
    · simp only [concatOf]
      rw [if_neg (by omega)]
      have hlower : Lower E other _ (newInteriorOf w .concat (m :: m' :: rest) f) :=
        lower_concat hfresh hms.nonempty hms.done hms.weight hms.width hms.value
      refine (reaches_sound (hlower.next hbelow).2).bind fun k hk => ⟨k, rfl, ?_⟩
      obtain ⟨hkDone, hkAgrees, hkWeight⟩ := hk
      exact next_of_settled hkDone (hkAgrees.trans hlower.1) hkWeight

/-- A concatenation simplifies to the same bits. -/
theorem concat_light {w f : Nat} {cs : List Node} (hE : E.Trusted other)
    (hfresh : (Node.interior .concat w cs f).Fresh E)
    (hbelow : LayoutBelow E other (Node.interior .concat w cs f).layoutRank) :
    Light E other (.interior .concat w cs f) := by
  refine sound_of_round hfresh (fun _ => Nat.le_refl _) ?_
  show Progress _ (simplifyConcat E (.interior .concat w cs f))
  refine progress_orElse (progress_pure fun m hm => Lower.next ?_ hbelow) fun _ => ?_
  · unfold andThenPure at hm
    split at hm
    next => exact lower_foldConstants hfresh hm
    next k hk =>
      obtain ⟨⟨ds, g, rfl⟩, hlower⟩ := lower_associative (m := k) hfresh hk
      have hdsFresh : (Node.interior .concat w ds g).Fresh E := by
        rcases hlower.2.2 with hdone | ⟨hdsFresh, -⟩
        · exact hdone.fresh
        · exact hdsFresh
      have hweight := hlower.2.1
      rw [weight_interior, weight_interior] at hweight
      simp only [Operator.weigh] at hweight
      have hrank : (Node.interior .concat w ds g).layoutRank ≤
          (Node.interior .concat w cs f).layoutRank := by
        show 12 * weightAll ds + 1 ≤ 12 * weightAll cs + 1
        omega
      cases Option.some.inj hm
      cases hfold : foldConstants BitVector.concat (.interior .concat w ds g) with
      | none => exact hlower
      | some k => exact hlower.trans (lower_foldConstants hdsFresh hfold) hrank
  · exact progress_orElse (progress_hoistConcat hE hfresh hbelow) fun _ =>
      progress_joinArguments hE hfresh hbelow

end

end LoomX.Symbolic
