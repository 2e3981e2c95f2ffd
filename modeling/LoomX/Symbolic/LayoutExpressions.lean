import LoomX.Symbolic.ExtendSound

namespace LoomX.Symbolic

open RecursiveCalls

/-- An expression as it is built: operators applied to nodes there are already. -/
inductive Expression
  | operand (n : Node)
  | apply (op : Operator) (args : List Expression) (flags : Nat)

namespace Expression

mutual

/-- The node that would be built if `instance` did not simplify. -/
def original : Expression → Node
  | operand n => n
  | apply op args f => newInterior op (originals args) f

def originals : List Expression → List Node
  | [] => []
  | e :: es => e.original :: originals es

end

mutual

/-- What `instance` returns for the operators from the inside out. -/
def construct (E : Engine) : Expression → Program Node
  | operand n => return n
  | apply op args f => do
    let cs ← constructAll E args
    Calls.invoke (E, newInterior op cs f)

def constructAll (E : Engine) : List Expression → Program (List Node)
  | [] => return []
  | e :: es => do
    let c ← e.construct E
    let cs ← constructAll E es
    return c :: cs

end

mutual

/-- The operators that are applied have the property, and the operands are simplified. -/
def Uses (E : Engine) (S : Operator → Prop) : Expression → Prop
  | operand n => n.Done E
  | apply op args _ => S op ∧ AllUse E S args

def AllUse (E : Engine) (S : Operator → Prop) : List Expression → Prop
  | [] => True
  | e :: es => e.Uses E S ∧ AllUse E S es

end

end Expression

/-- A simplified node in the place of another; constants stay as they are. -/
structure Replaced (E : Engine) (other : Nat → Nat → List BitVector → Nat) (m n : Node) : Prop where
  done : m.Done E
  agrees : Agrees E other m n
  constants : ∀ b f, n = .constant b f → m = .constant b f

section

variable {E : Engine} {other : Nat → Nat → List BitVector → Nat} {ms ns : List Node}

theorem nBits_of_replaced (h : List.Forall₂ (Replaced E other) ms ns) :
    ms.map Node.nBits = ns.map Node.nBits := by
  induction h with
  | nil => rfl
  | cons hm _ ih => rw [List.map_cons, List.map_cons, hm.agrees.width, ih]

theorem eval_of_replaced (h : List.Forall₂ (Replaced E other) ms ns) {env : Nat → Nat}
    (henv : E.Admits env) : ms.map (Node.eval other env) = ns.map (Node.eval other env) := by
  induction h with
  | nil => rfl
  | cons hm _ ih => rw [List.map_cons, List.map_cons, hm.agrees.eval env henv, ih]

theorem done_of_replaced (h : List.Forall₂ (Replaced E other) ms ns) : ∀ m ∈ ms, m.Done E := by
  induction h with
  | nil => exact fun m hm => absurd hm List.not_mem_nil
  | cons hm _ ih =>
    intro m hmem
    rcases List.mem_cons.mp hmem with rfl | hmem
    · exact hm.done
    · exact ih m hmem

theorem ne_nil_of_replaced (h : List.Forall₂ (Replaced E other) ms ns) (hns : ns ≠ []) :
    ms ≠ [] := by
  rintro rfl
  cases h
  exact hns rfl

/-- Replaced operands fit the operator as the original ones do. -/
theorem shape_of_replaced {op : Operator} {w : Nat}
    (h : List.Forall₂ (Replaced E other) ms ns) (hshape : op.Shape w ns) : op.Shape w ms := by
  have hbits := nBits_of_replaced h
  by_cases hnary : op.IsNary
  · obtain ⟨hne, hfits⟩ := sized_of_shape hnary hshape
    exact shape_of_sized hnary ⟨ne_nil_of_replaced h hne, by rwa [hbits]⟩
  cases op with
  | add | and | or | xor | umul | smul => exact absurd trivial hnary
  | other p => trivial
  | concat => exact ⟨ne_nil_of_replaced h hshape.1, by rw [hbits]; exact hshape.2⟩
  | ite =>
    obtain ⟨c, a, b, rfl, hc, ha, hb⟩ := hshape
    obtain _ | ⟨hc', _ | ⟨ha', _ | ⟨hb', ⟨⟩⟩⟩⟩ := h
    exact ⟨_, _, _, rfl, hc'.agrees.width.trans hc, ha'.agrees.width.trans ha,
      hb'.agrees.width.trans hb⟩
  | uextend | sextend =>
    obtain ⟨n, f, a, rfl, hn⟩ := hshape
    obtain _ | ⟨hn', _ | ⟨_, ⟨⟩⟩⟩ := h
    cases hn'.constants n f rfl
    exact ⟨n, f, _, rfl, hn⟩
  | extract =>
    obtain ⟨lo, f, hi, f', a, rfl, hlo, hhi, hlt, hle, hw⟩ := hshape
    obtain _ | ⟨hlo', _ | ⟨hhi', _ | ⟨ha', ⟨⟩⟩⟩⟩ := h
    cases hlo'.constants lo f rfl
    cases hhi'.constants hi f' rfl
    exact ⟨lo, f, hi, f', _, rfl, hlo, hhi, hlt, by rwa [ha'.agrees.width], hw⟩
  | invert | negate =>
    obtain ⟨c, rfl, hc⟩ := hshape
    obtain _ | ⟨hc', ⟨⟩⟩ := h
    exact ⟨_, rfl, hc'.agrees.width.trans hc⟩
  | _ =>
    obtain ⟨n, a, rfl, ha⟩ := hshape
    obtain _ | ⟨_, _ | ⟨ha', ⟨⟩⟩⟩ := h
    exact ⟨_, _, rfl, ha'.agrees.width.trans ha⟩

/-- An operator of replaced operands means what it does of the original ones. -/
theorem agrees_of_replaced {op : Operator} {w f f' : Nat}
    (h : List.Forall₂ (Replaced E other) ms ns) :
    Agrees E other (.interior op w ms f) (.interior op w ns f') := by
  refine ⟨rfl, fun env henv => ?_⟩
  rw [Node.eval_interior, Node.eval_interior, eval_of_replaced h henv]

end

section

variable {E : Engine} {other : Nat → Nat → List BitVector → Nat} {S : Operator → Prop}

mutual

/-- If each operator of an expression is simplified soundly, so is the whole expression. -/
theorem construct_reaches (hS : ∀ op w cs f, S op → (Node.interior op w cs f).Fresh E →
    Sound E other (fun _ => True) (.interior op w cs f)) :
    ∀ e : Expression, e.Uses E S → e.original.Valid →
      Reaches simplifyLoop (fun m => Replaced E other m e.original) (e.construct E)
  | .operand n, huses, _ => ⟨huses, .refl n, fun _ _ h => h⟩
  | .apply op args f, huses, hvalid => by
    have hshape := hvalid.2.1
    have hop : ∀ p, op ≠ .other p := by
      rintro p rfl
      exact absurd hvalid.1.1 (Nat.lt_irrefl 0)
    refine (constructAll_reaches hS args huses.2
      ((allValid_iff _).mpr fun c hc => hvalid.child hc)).bind fun ms hms => ?_
    have hshape' := shape_of_replaced hms hshape
    have hfresh := fresh_newInteriorOf hvalid.1 hshape' (done_of_replaced hms) f
    rw [newInterior_of_shape hop hshape']
    refine (reaches_sound (hS _ _ _ _ huses.1 hfresh)).mono fun m hm => ?_
    exact ⟨hm.1, hm.2.1.trans (agrees_of_replaced hms), fun b g heq => by cases heq⟩

theorem constructAll_reaches (hS : ∀ op w cs f, S op → (Node.interior op w cs f).Fresh E →
    Sound E other (fun _ => True) (.interior op w cs f)) :
    ∀ es : List Expression, Expression.AllUse E S es → AllValid (Expression.originals es) →
      Reaches simplifyLoop (fun ms => List.Forall₂ (Replaced E other) ms (Expression.originals es))
        (Expression.constructAll E es)
  | [], _, _ => .nil
  | e :: es, huses, hvalid => by
    refine (construct_reaches hS e huses.1 hvalid.1).bind fun m hm => ?_
    exact (constructAll_reaches hS es huses.2 hvalid.2).bind fun ms hms => .cons hm hms

end

end

/-- The node that is built for an expression, with as much fuel as the calls of `simplifyTop` may
nest. -/
def Expression.build (fuel : Nat) (E : Engine) (e : Expression) : Option Node :=
  (e.construct E).run fun a => simplifyTop fuel a.1 a.2

/-- The operators that cut, join, extend and choose operands. -/
def Operator.MovesBits : Operator → Prop
  | concat | extract | uextend | sextend | ite => True
  | _ => False

section

variable {E : Engine} {other : Nat → Nat → List BitVector → Nat}

theorem build_of_reaches {Q : Node → Prop} {e : Expression}
    (h : Reaches simplifyLoop Q (e.construct E)) : ∃ fuel m, e.build fuel E = some m ∧ Q m :=
  reaches_iff.mp h

theorem movesBits_sound (hE : E.Trusted other) {op : Operator} {w f : Nat} {cs : List Node}
    (hop : op.MovesBits) (hfresh : (Node.interior op w cs f).Fresh E) :
    Simplifies E other (.interior op w cs f) := by
  cases op with
  | concat => exact simplifies_layout hE rfl hfresh
  | extract => exact simplifies_layout hE rfl hfresh
  | ite => exact simplifies_layout hE rfl hfresh
  | uextend => exact uextend_sound hE hfresh
  | sextend => exact sextend_sound hE hfresh
  | _ => exact hop.elim

/-- Every expression that moves bits is built, in its width and with its value. -/
theorem build_movesBits (hE : E.Trusted other) (e : Expression)
    (huses : e.Uses E Operator.MovesBits) (hvalid : e.original.Valid) :
    ∃ fuel m, e.build fuel E = some m ∧ m.nBits = e.original.nBits ∧
      ∀ env, E.Admits env → m.eval other env = e.original.eval other env := by
  have hreaches := construct_reaches (fun _ _ _ _ => movesBits_sound hE) e huses hvalid
  obtain ⟨fuel, m, hm, hreplaced⟩ := build_of_reaches hreaches
  exact ⟨fuel, m, hm, hreplaced.agrees.width, hreplaced.agrees.eval⟩

end

/-- The bits from four up to twelve of two joined bytes. -/
def middleByte : Expression :=
  .apply .extract [.operand (makeIntegerConstant 32 4), .operand (makeIntegerConstant 32 12),
    .apply .concat [.operand (.var 0 8 0), .operand (.var 1 8 0)] 0] 0

theorem build_movesBits_middleByte :
    ∃ fuel m, middleByte.build fuel ⟨fun _ => 0, none⟩ = some m ∧ m.nBits = 8 ∧
      ∀ env, Engine.Admits ⟨fun _ => 0, none⟩ env →
        m.eval (fun _ _ _ => 0) env = middleByte.original.eval (fun _ _ _ => 0) env := by
  have hbyte : IsWidth 8 := ⟨by decide, by decide⟩
  have hword : IsWidth 16 := ⟨by decide, by decide⟩
  have hlimit : IsWidth 32 := ⟨by decide, by decide⟩
  refine build_movesBits (fun s hs => by cases hs) middleByte ?_ ?_
  · exact ⟨trivial, ⟨hlimit, trivial⟩, ⟨hlimit, trivial⟩,
      ⟨trivial, ⟨hbyte, trivial⟩, ⟨hbyte, trivial⟩, trivial⟩, trivial⟩
  · exact ⟨hbyte, ⟨_, _, _, _, _, rfl, by decide, by decide, by decide, by decide, rfl⟩,
      hlimit, hlimit, ⟨hword, ⟨by decide, rfl⟩, hbyte, hbyte, trivial⟩, trivial⟩

end LoomX.Symbolic
