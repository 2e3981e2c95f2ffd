import LoomX.BitSlice
import LoomX.Symbolic.WellFormed

namespace LoomX.Symbolic

open BitSlice

namespace BitVector

theorem joined_append (as bs : List BitVector) :
    joined (as ++ bs) = 2 ^ (bs.map size).sum * joined as + joined bs := by
  induction as with
  | nil => simp [joined]
  | cons a as ih =>
    simp only [List.cons_append, joined, ih, List.map_append, List.sum_append, Nat.pow_add,
      Nat.mul_add]
    ac_rfl

theorem joined_lt (as : List BitVector) : joined as < 2 ^ (as.map size).sum := by
  induction as with
  | nil => simp [joined]
  | cons a as ih =>
    have hle : (a.value + 1) * 2 ^ (as.map size).sum ≤ 2 ^ a.size * 2 ^ (as.map size).sum :=
      Nat.mul_le_mul_right _ a.isLt
    rw [Nat.add_mul, Nat.one_mul] at hle
    simp only [joined, List.map_cons, List.sum_cons, Nat.pow_add]
    omega

theorem concat_value (as : List BitVector) : (concat as).value = joined as :=
  fromInteger_value_of_lt (joined_lt as)

theorem joined_singleton (a : BitVector) : joined [a] = a.value := by
  simp [joined]

/-- A sign extension to fewer bits cuts the vector. -/
theorem signExtend_value_of_ge {a : BitVector} {n : Nat} (h : n ≤ a.size) :
    (a.signExtend n).value = slice a.value 0 n := by
  have hpow : ((2 ^ n : Nat) : Int) ∣ (2 ^ a.size : Nat) := by
    exact_mod_cast Nat.pow_dvd_pow 2 h
  have hmod : a.toInt % ((2 ^ n : Nat) : Int) = ((a.value % 2 ^ n : Nat) : Int) := by
    unfold toInt
    split
    · push_cast
      rfl
    · have hcast : ((2 : Int) ^ a.size) = ((2 ^ a.size : Nat) : Int) := by push_cast; rfl
      rw [hcast, Int.sub_emod, Int.emod_eq_zero_of_dvd hpow, Int.sub_zero, Int.emod_emod_of_dvd]
      · push_cast
        rfl
      · exact dvd_refl _
  have hcast : ((2 : Int) ^ n) = ((2 ^ n : Nat) : Int) := by push_cast; rfl
  rw [signExtend, fromSigned, hcast, hmod, Int.toNat_natCast, fromInteger_value, Nat.mod_mod, slice]
  simp

end BitVector

section

variable {other : Nat → Nat → List BitVector → Nat} {env : Nat → Nat}

theorem map_eval_size (cs : List Node) :
    (cs.map (Node.eval other env)).map BitVector.size = cs.map Node.nBits := by
  simp [List.map_map, Function.comp_def]

theorem eval_concat_value {w f : Nat} {cs : List Node} (hw : (cs.map Node.nBits).sum = w) :
    ((Node.interior .concat w cs f).eval other env).value =
      BitVector.joined (cs.map (Node.eval other env)) := by
  rw [Node.eval_interior]
  apply BitVector.fromInteger_value_of_lt
  have hlt := BitVector.joined_lt (cs.map (Node.eval other env))
  rw [map_eval_size, hw] at hlt
  exact hlt

theorem eval_extract_value {w f : Nat} {lo hi : BitVector} {fl fh : Nat} {a : Node}
    (hw : hi.value - lo.value = w) :
    ((Node.interior .extract w [.constant lo fl, .constant hi fh, a] f).eval other env).value =
      slice (a.eval other env).value lo.value hi.value := by
  rw [Node.eval_interior, slice, hw]
  rfl

theorem eval_uextend_value {w f : Nat} {n a : Node} :
    ((Node.interior .uextend w [n, a] f).eval other env).value =
      (a.eval other env).value % 2 ^ w := by
  rw [Node.eval_interior]
  rfl

theorem eval_sextend_value {w f : Nat} {n a : Node} :
    ((Node.interior .sextend w [n, a] f).eval other env).value =
      ((a.eval other env).signExtend w).value := by
  rw [Node.eval_interior]
  exact Nat.mod_eq_of_lt ((a.eval other env).signExtend w).isLt

theorem eval_ite {w f : Nat} {c a b : Node} (ha : a.nBits = w) (hb : b.nBits = w) :
    (Node.interior .ite w [c, a, b] f).eval other env =
      if (c.eval other env).isEqualToZero then b.eval other env else a.eval other env := by
  rw [Node.eval_interior]
  show BitVector.fromInteger w (if (c.eval other env).isEqualToZero then (b.eval other env).value
    else (a.eval other env).value) = _
  split
  · rw [← hb, ← Node.eval_size other env b, BitVector.fromInteger_self]
  · rw [← ha, ← Node.eval_size other env a, BitVector.fromInteger_self]

/-- Vectors of the same width with the same value are equal. -/
theorem eval_ext {n m : Node} (hw : m.nBits = n.nBits)
    (hvalue : (m.eval other env).value = (n.eval other env).value) :
    m.eval other env = n.eval other env := by
  apply BitVector.ext _ hvalue
  rw [Node.eval_size, Node.eval_size, hw]

end

open RecursiveCalls

mutual

/-- No part of the expression is changed by a round of `simplifyTop`. -/
def Node.Settled (E : Engine) : Node → Prop
  | .interior op w cs f => simplifyRound E (.interior op w cs f) = .ret none ∧ AllSettled E cs
  | _ => True

def AllSettled (E : Engine) : List Node → Prop
  | [] => True
  | c :: cs => c.Settled E ∧ AllSettled E cs

end

theorem allSettled_iff (E : Engine) (cs : List Node) : AllSettled E cs ↔ ∀ c ∈ cs, c.Settled E := by
  induction cs with
  | nil => simp [AllSettled]
  | cons c cs ih => simp [AllSettled, ih]

/-- A valid node that the simplification leaves alone. -/
structure Node.Done (E : Engine) (n : Node) : Prop where
  valid : n.Valid
  settled : n.Settled E

theorem Node.Done.child {E : Engine} {op : Operator} {w f : Nat} {cs : List Node}
    (h : (Node.interior op w cs f).Done E) {c : Node} (hc : c ∈ cs) : c.Done E :=
  ⟨h.valid.child hc, (allSettled_iff E cs).mp h.settled.2 c hc⟩

theorem done_constant {E : Engine} {b : BitVector} {f : Nat} (h : IsWidth b.size) :
    (Node.constant b f).Done E := ⟨h, trivial⟩

/-- A valid node whose operands the simplification leaves alone. -/
structure Node.Fresh (E : Engine) (n : Node) : Prop where
  valid : n.Valid
  operands : ∀ c ∈ n.children, c.Settled E

theorem Node.Done.fresh {E : Engine} {n : Node} (h : n.Done E) : n.Fresh E := by
  refine ⟨h.valid, fun c hc => ?_⟩
  cases n with
  | interior op w cs f => exact (h.child hc).settled
  | _ => exact absurd hc List.not_mem_nil

theorem Node.Fresh.operand {E : Engine} {op : Operator} {w f : Nat} {cs : List Node}
    (h : (Node.interior op w cs f).Fresh E) {c : Node} (hc : c ∈ cs) : c.Done E :=
  ⟨h.valid.child hc, h.operands c hc⟩

theorem fresh_newInteriorOf {E : Engine} {op : Operator} {w : Nat} {cs : List Node}
    (hw : IsWidth w) (hshape : op.Shape w cs) (hcs : ∀ c ∈ cs, c.Done E) (f : Nat) :
    (newInteriorOf w op cs f).Fresh E :=
  ⟨⟨hw, hshape, (allValid_iff cs).mpr fun c hc => (hcs c hc).valid⟩,
    fun c hc => (hcs c hc).settled⟩

/-- The first node means what the second one does, in the same width. -/
structure Agrees (E : Engine) (other : Nat → Nat → List BitVector → Nat) (m n : Node) : Prop where
  width : m.nBits = n.nBits
  eval : ∀ env, E.Admits env → m.eval other env = n.eval other env

namespace Agrees

variable {E : Engine} {other : Nat → Nat → List BitVector → Nat} {m n k : Node}

theorem refl (n : Node) : Agrees E other n n := ⟨rfl, fun _ _ => rfl⟩

theorem trans (h : Agrees E other k m) (h' : Agrees E other m n) : Agrees E other k n :=
  ⟨h.width.trans h'.width, fun env henv => (h.eval env henv).trans (h'.eval env henv)⟩

theorem of_value (hw : m.nBits = n.nBits)
    (h : ∀ env, E.Admits env → (m.eval other env).value = (n.eval other env).value) :
    Agrees E other m n :=
  ⟨hw, fun env henv => eval_ext hw (h env henv)⟩

end Agrees

section

variable {E : Engine} {other : Nat → Nat → List BitVector → Nat} {P : Node → Prop}

/-- `simplifyTop` returns a settled node that means what the given one does and has the
property. -/
def Sound (E : Engine) (other : Nat → Nat → List BitVector → Nat) (P : Node → Prop) (n : Node) :
    Prop :=
  ∃ m, Computes simplifyLoop (E, n) m ∧ m.Done E ∧ Agrees E other m n ∧ P m

theorem Sound.mono {P' : Node → Prop} {n : Node} (h : Sound E other P n)
    (hP : ∀ m, P m → P' m) : Sound E other P' n := by
  obtain ⟨m, hm, hdone, hagrees, hPm⟩ := h
  exact ⟨m, hm, hdone, hagrees, hP m hPm⟩

/-- What a stage leads to: another node that means what the given one does, from which
`simplifyTop` goes on. -/
def Next (E : Engine) (other : Nat → Nat → List BitVector → Nat) (P : Node → Prop) (n m : Node) :
    Prop :=
  Agrees E other m n ∧ Sound E other P m

/-- The stage leaves the node alone without making another, or makes a node with the property. -/
def Progress (Q : Node → Prop) (p : Program (Option Node)) : Prop :=
  p = .ret none ∨ Reaches simplifyLoop (fun r => ∃ m, r = some m ∧ Q m) p

theorem progress_none (Q : Node → Prop) : Progress Q (.ret none) := Or.inl rfl

theorem progress_some {Q : Node → Prop} {m : Node} (h : Q m) : Progress Q (.ret (some m)) :=
  Or.inr ⟨m, rfl, h⟩

theorem progress_pure {Q : Node → Prop} {f : Node → Option Node} {n : Node}
    (h : ∀ m, f n = some m → Q m) : Progress Q (Stage.pure f n) := by
  unfold Stage.pure
  cases hf : f n with
  | none => exact progress_none Q
  | some m => exact progress_some (h m hf)

theorem progress_orElse {Q : Node → Prop} {f g : Stage} {n : Node} (hf : Progress Q (f n))
    (hg : f n = .ret none → Progress Q (g n)) : Progress Q ((f.orElse g) n) := by
  unfold Stage.orElse
  rcases hf with hnone | hreaches
  · have hgn := hg hnone
    rw [hnone]
    exact hgn
  · refine Or.inr (hreaches.bind fun r hr => ?_)
    obtain ⟨m, rfl, hm⟩ := hr
    exact ⟨m, rfl, hm⟩

theorem progress_reaches {Q : Node → Prop} {p : Program Node} (h : Reaches simplifyLoop Q p) :
    Progress Q (p >>= fun m => pure (some m)) :=
  Or.inr (h.bind fun m hm => ⟨m, rfl, hm⟩)

theorem computes_of_settled {n : Node} (h : n.Done E) : Computes simplifyLoop (E, n) n := by
  cases n with
  | interior op w cs f =>
    have haccepts := accepts_of_shape h.valid.1 h.valid.2.1
    refine ⟨1, ?_⟩
    rw [evaluate, simplifyLoop, if_pos haccepts, h.settled.1]
    rfl
  | var i w f => exact ⟨1, rfl⟩
  | constant b f => exact ⟨1, rfl⟩

theorem reaches_sound {n : Node} (h : Sound E other P n) :
    Reaches simplifyLoop (fun m => m.Done E ∧ Agrees E other m n ∧ P m) (Calls.invoke (E, n)) :=
  reaches_invoke h

theorem sound_of_settled {n : Node} (h : n.Done E) (hP : P n) : Sound E other P n :=
  ⟨n, computes_of_settled h, h, .refl n, hP⟩

theorem next_of_settled {n m : Node} (hm : m.Done E) (hagrees : Agrees E other m n) (hP : P m) :
    Next E other P n m := ⟨hagrees, sound_of_settled hm hP⟩

/-- If a round leads on, or leaves a node alone that has the property, then `simplifyTop`
returns. -/
theorem sound_of_round {op : Operator} {w f : Nat} {cs : List Node}
    (hfresh : (Node.interior op w cs f).Fresh E)
    (hP : simplifyRound E (.interior op w cs f) = .ret none → P (.interior op w cs f))
    (h : Progress (Next E other P (.interior op w cs f)) (simplifyRound E (.interior op w cs f))) :
    Sound E other P (.interior op w cs f) := by
  have haccepts := accepts_of_shape hfresh.valid.1 hfresh.valid.2.1
  rcases h with hnone | hreaches
  · have hsettled : (Node.interior op w cs f).Settled E :=
      ⟨hnone, (allSettled_iff E cs).mpr hfresh.operands⟩
    exact sound_of_settled ⟨hfresh.valid, hsettled⟩ (hP hnone)
  · have hbody : Reaches simplifyLoop (fun m => m.Done E ∧
        Agrees E other m (.interior op w cs f) ∧ P m) (simplifyLoop (E, .interior op w cs f)) := by
      rw [simplifyLoop, if_pos haccepts]
      refine hreaches.bind fun r hr => ?_
      obtain ⟨m, rfl, hagrees, m', hm', hdone, hagrees', hPm'⟩ := hr
      exact reaches_invoke ⟨m', hm', hdone, hagrees'.trans hagrees, hPm'⟩
    obtain ⟨m, hm, hdone, hagrees, hPm⟩ := computes_of_reaches hbody
    exact ⟨m, hm, hdone, hagrees, hPm⟩

end

end LoomX.Symbolic
