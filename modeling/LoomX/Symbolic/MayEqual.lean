import Mathlib.Data.Nat.ModEq
import LoomX.Symbolic.MultiSubstituter
import LoomX.Symbolic.WellFormed

namespace LoomX.Symbolic

open RecursiveCalls

/-- What a solver says of the assertions it has been given. -/
inductive Satisfiable
  | no | yes | unknown
  deriving DecidableEq

/-- What `mayEqual` asks besides the two nodes: the predicate of the user, and a solver about their
equality. -/
structure Helpers where
  mayEqualCallback : Option (NodeObject → NodeObject → Option Bool)
  solver : Option (NodeObject → NodeObject → Satisfiable)

def Helpers.none : Helpers := ⟨Option.none, Option.none⟩

namespace NodeObject

def isVariable2 : NodeObject → Bool
  | var _ _ _ _ => true
  | _ => false

def isIntegerVariable (x : NodeObject) : Bool := x.type.isInteger && x.isVariable2

/-- The variable and the constant of their sum. -/
def matchAddVariableConstant : NodeObject → Option (NodeObject × NodeObject)
  | interior _ _ _ 0 [arg0, arg1] =>
    if arg0.isLeaf && arg1.isLeaf then
      if arg0.isIntegerVariable && arg1.isIntegerConstant then some (arg0, arg1)
      else if arg0.isIntegerConstant && arg1.isIntegerVariable then some (arg1, arg0)
      else none
    else none
  | _ => none

def isFloatingPointNan (x : NodeObject) : Bool :=
  let fraction := x.nBits - x.type.secondaryWidth - 1
  x.isFloatingPointConstant &&
    x.bits / 2 ^ fraction % 2 ^ x.type.secondaryWidth == 2 ^ x.type.secondaryWidth - 1 &&
    x.bits % 2 ^ fraction != 0

/-- The last part of `Interior::mayEqual`. -/
def mayEqualStructure (helpers : Helpers) (this other : NodeObject) (hashval : Nat → Nat) :
    Option (Bool × (Nat → Nat)) :=
  (this.isEquivalentTo other hashval).map fun r =>
    (r.1 || !(helpers.solver.any fun check => check this other == .no), r.2)

/-- `Interior::mayEqual`, with the cached hash values; `none` is a failed assertion. -/
def mayEqualInterior (helpers : Helpers) (this other : NodeObject) (hashval : Nat → Nat) :
    Option (Bool × (Nat → Nat)) :=
  if this.address = other.address then some (true, hashval)
  else
    match helpers.mayEqualCallback.bind fun f => f this other with
    | some result => some (result, hashval)
    | none =>
      match this.matchAddVariableConstant, other.matchAddVariableConstant with
      | some (variableA, constantA), some (variableB, constantB) =>
        if variableA.name = variableB.name then
          if variableA.nBits = variableB.nBits ∧ constantA.nBits = constantB.nBits then
            some (constantA.bits == constantB.bits, hashval)
          else none
        else mayEqualStructure helpers this other hashval
      | some (variableA, constantA), none =>
        if other.isIntegerVariable && variableA.name == other.name then
          if variableA.nBits = other.nBits ∧ constantA.nBits = variableA.nBits ∧
              constantA.bits ≠ 0 then
            some (false, hashval)
          else none
        else mayEqualStructure helpers this other hashval
      | none, _ => mayEqualStructure helpers this other hashval

/-- `Leaf::mayEqual` for two leaves. -/
def mayEqualLeaf (helpers : Helpers) (this other : NodeObject) : Option Bool :=
  if this.address = other.address then some true
  else
    match helpers.mayEqualCallback.bind fun f => f this other with
    | some result => some result
    | none =>
      if this.isVariable2 && other.isVariable2 && this.type == other.type then some true
      else if this.isIntegerConstant && other.isIntegerConstant then some (this.bits == other.bits)
      else if this.isFloatingPointConstant && other.isFloatingPointConstant then
        some (!this.isFloatingPointNan && !other.isFloatingPointNan &&
          (this.nBits == other.nBits && this.bits == other.bits))
      else
        match if this.isIntegerVariable then this.matchAddVariableConstant else none with
        | some (variableB, constantB) =>
          if this.nBits = variableB.nBits ∧ variableB.nBits = constantB.nBits ∧
              constantB.bits ≠ 0 then
            some false
          else none
        | none => some (helpers.solver.all fun check => check this other == .yes)

def mayEqual (helpers : Helpers) (this other : NodeObject) (hashval : Nat → Nat) :
    Option (Bool × (Nat → Nat)) :=
  if !this.isLeaf then mayEqualInterior helpers this other hashval
  else if this.address = other.address then some (true, hashval)
  else if !other.isLeaf then mayEqualInterior helpers other this hashval
  else (mayEqualLeaf helpers this other).map fun r => (r, hashval)

end NodeObject

def Operator.ofPosition : Nat → Operator
  | 0 => .add
  | 1 => .and
  | 2 => .asr
  | 3 => .concat
  | 5 => .extract
  | 6 => .invert
  | 7 => .ite
  | 12 => .negate
  | 14 => .or
  | 16 => .rol
  | 17 => .ror
  | 20 => .sextend
  | 23 => .shl0
  | 24 => .shl1
  | 25 => .shr0
  | 26 => .shr1
  | 30 => .smul
  | 32 => .uextend
  | 38 => .umul
  | 40 => .xor
  | p => .other p

namespace NodeObject

mutual

/-- The expression of which the node object is one, as it is simplified. -/
def toNode : NodeObject → Node
  | constant _ t f b => .constant (.fromInteger t.nBits b) f
  | var _ t f n => .var n t.nBits f
  | interior _ t f op cs => .interior (.ofPosition op) t.nBits (toNodes cs) f

def toNodes : List NodeObject → List Node
  | [] => []
  | c :: cs => c.toNode :: toNodes cs

end

end NodeObject

/-- The node objects are made by the factory functions: constants have as many bits as their type,
variables of one name and width have one type, and a sum of integer leaves is what `simplifyTop` has
returned. -/
structure Objects.FromFactories (O : Objects) : Prop where
  fits : ∀ {a t f b}, .constant a t f b ∈ O.nodes → 0 < t.nBits ∧ b < 2 ^ t.nBits
  oneType : ∀ {a t f n a' t' f'}, .var a t f n ∈ O.nodes → .var a' t' f' n ∈ O.nodes →
    t.nBits = t'.nBits → t = t'
  simplified : ∀ {a t f cs}, .interior a t f 0 cs ∈ O.nodes →
    (∀ c ∈ cs, c.isLeaf = true ∧ c.type.isInteger = true) →
    ∃ E n, Computes simplifyLoop (E, n) (NodeObject.interior a t f 0 cs).toNode

/-- The values of integer expressions as numbers. -/
structure IntegerReading {V : Type} (I : Interpretation V) where
  number : V → Nat
  constant : ∀ t b, t.isInteger = true → b < 2 ^ t.nBits → number (I.constant t b) = b
  add : ∀ t vs, t.isInteger = true →
    number (I.operator 0 t vs) = (vs.map number).sum % 2 ^ t.nBits

/-- The last round of `simplifyTop` has left the node as it is. -/
theorem lastRound_of_computes {E : Engine} {n : Node} {op : Operator} {w f : Nat} {cs : List Node}
    (h : Computes simplifyLoop (E, n) (.interior op w cs f)) :
    accepts op w cs = true ∧ ∃ E fuel,
      (simplifyRound E (.interior op w cs f)).run (evaluate simplifyLoop fuel) = some none := by
  obtain ⟨fuel, h⟩ := h
  induction fuel generalizing n E with
  | zero => cases h
  | succ fuel ih =>
    rw [evaluate] at h
    cases n with
    | var i w' f' => cases h
    | constant b f' => cases h
    | interior op' w' cs' f' =>
      rw [simplifyLoop] at h
      split at h
      next haccepts =>
        rw [Calls.run_bind] at h
        obtain ⟨r, hround, hrest⟩ := Option.bind_eq_some_iff.mp h
        cases r with
        | none =>
          cases hrest
          exact ⟨haccepts, E, fuel, hround⟩
        | some m =>
          obtain ⟨b, hb, hret⟩ := Option.bind_eq_some_iff.mp hrest
          cases hret
          exact ih hb
      next => cases h

section

variable {F : Engine × Node → Option Node}

theorem run_orElse_none {f g : Stage} {n : Node} (h : ((f.orElse g) n).run F = some none) :
    (f n).run F = some none ∧ (g n).run F = some none := by
  rw [Stage.orElse, Calls.run_bind] at h
  obtain ⟨r, hf, hg⟩ := Option.bind_eq_some_iff.mp h
  cases r with
  | none => exact ⟨hf, hg⟩
  | some m => cases hg

theorem run_andThen_none {f : Node → Option Node} {g : Stage} {n : Node}
    (h : (Stage.andThen f g n).run F = some none) : (g n).run F = some none := by
  rw [Stage.andThen] at h
  cases hf : f n with
  | none =>
    rw [hf] at h
    exact h
  | some m =>
    rw [hf] at h
    change ((g m) >>= fun r => pure (some (r.getD m))).run F = some none at h
    rw [Calls.run_bind] at h
    obtain ⟨r, -, hr⟩ := Option.bind_eq_some_iff.mp h
    cases hr

/-- Of two operands, `identity` leaves none that is the identity. -/
theorem run_identity_none {E : Engine} {ident w f : Nat} {op : Operator} {a b : Node}
    (h : (identity E ident (.interior op w [a, b] f)).run F = some none) :
    isIdentity ident a = false ∧ isIdentity ident b = false := by
  rw [identity] at h
  split at h
  next hlen =>
    have hall := List.length_filter_eq_length_iff.mp hlen
    have ha := hall a List.mem_cons_self
    have hb := hall b (List.mem_cons_of_mem _ List.mem_cons_self)
    exact ⟨by simpa using ha, by simpa using hb⟩
  next hlen =>
    have hle := List.length_filter_le (fun c => !isIdentity ident c) [a, b]
    split at h
    next => cases h
    next c hargs =>
      split at h
      next =>
        rw [Calls.run_bind] at h
        obtain ⟨m, -, hm⟩ := Option.bind_eq_some_iff.mp h
        cases hm
      next => cases h
    next hnil hsingle =>
      -- what is left is shorter than two operands
      generalize [a, b].filter (fun c => !isIdentity ident c) = args at hlen hle hnil hsingle
      rcases args with _ | ⟨c, _ | ⟨d, rest⟩⟩
      · exact absurd rfl hnil
      · exact absurd rfl (hsingle c)
      · simp only [List.length_cons, List.length_nil] at hlen hle
        omega

/-- A sum of two operands that has been simplified has no zero among them. -/
theorem add_simplified {E : Engine} {n a b : Node} {w f : Nat}
    (h : Computes simplifyLoop (E, n) (.interior .add w [a, b] f)) :
    a.nBits = w ∧ b.nBits = w ∧ isIdentity 0 a = false ∧ isIdentity 0 b = false := by
  obtain ⟨haccepts, E', fuel, hround⟩ := lastRound_of_computes h
  have hwidth : b.nBits = a.nBits ∧ a.nBits = w := by
    simp only [accepts, adjustWidth, List.all_cons, List.all_nil, Bool.and_true, Bool.and_eq_true,
      beq_iff_eq] at haccepts
    exact ⟨haccepts.1, haccepts.2.1.1⟩
  have hidentity := (run_orElse_none (run_orElse_none (run_orElse_none hround).1).1).2
  have hzero := run_identity_none (run_andThen_none (run_andThen_none hidentity))
  exact ⟨hwidth.2, hwidth.1.trans hwidth.2, hzero⟩

end

namespace NodeObject

theorem exists_var_of_isVariable2 {x : NodeObject} (h : x.isVariable2 = true) :
    ∃ a t f n, x = var a t f n := by
  cases x with
  | var a t f n => exact ⟨a, t, f, n, rfl⟩
  | constant => cases h
  | interior => cases h

theorem exists_constant_of_isConstant {x : NodeObject} (h : x.isConstant = true) :
    ∃ a t f b, x = constant a t f b := by
  cases x with
  | constant a t f b => exact ⟨a, t, f, b, rfl⟩
  | var => cases h
  | interior => cases h

/-- An integer variable and an integer constant are the operands of the node, a sum. -/
structure IsSum (x v c : NodeObject) : Prop where
  eq : ∃ a t f, x = interior a t f 0 [v, c] ∨ x = interior a t f 0 [c, v]
  isVariable : v.isIntegerVariable = true
  isConstant : c.isIntegerConstant = true

theorem isSum_of_match {x v c : NodeObject} (h : x.matchAddVariableConstant = some (v, c)) :
    x.IsSum v c := by
  unfold matchAddVariableConstant at h
  split at h
  next a t f arg0 arg1 =>
    split_ifs at h with hleaf h0 h1
    · cases h
      rw [Bool.and_eq_true] at h0
      exact ⟨⟨a, t, f, Or.inl rfl⟩, h0.1, h0.2⟩
    · cases h
      rw [Bool.and_eq_true] at h1
      exact ⟨⟨a, t, f, Or.inr rfl⟩, h1.2, h1.1⟩
  next => cases h

theorem match_leaf {x : NodeObject} (h : x.isLeaf = true) : x.matchAddVariableConstant = none := by
  cases x with
  | interior => cases h
  | constant => rfl
  | var => rfl

section

variable {O : Objects}

/-- A sum that the factory functions have returned. -/
structure SumFacts (x v c : NodeObject) : Prop where
  variable_nBits : v.nBits = x.nBits
  constant_nBits : c.nBits = x.nBits
  bits_ne_zero : c.bits ≠ 0
  bits_lt : c.bits < 2 ^ x.nBits
  number : ∀ {V : Type} {I : Interpretation V} (R : IntegerReading I), x.type.isInteger = true →
    ∀ s, R.number (I.eval s x) = (R.number (s v.name) + c.bits) % 2 ^ x.nBits

theorem bits_ne_zero_of_isIdentity {a : Nat} {t : ScalarType} {f b : Nat}
    (h : isIdentity 0 (constant a t f b).toNode = false) : b ≠ 0 := by
  rintro rfl
  simp [toNode, isIdentity, BitVector.fromInteger] at h

theorem sumFacts_of_isSum (hO : O.FromFactories) {x v c : NodeObject} (hx : x ∈ O.nodes)
    (h : x.IsSum v c) : SumFacts x v c := by
  obtain ⟨⟨a, t, f, hsum⟩, hv, hc⟩ := h
  rw [isIntegerVariable, Bool.and_eq_true] at hv
  rw [isIntegerConstant, Bool.and_eq_true] at hc
  obtain ⟨av, tv, fv, n, rfl⟩ := exists_var_of_isVariable2 hv.2
  obtain ⟨ac, tc, fc, b, rfl⟩ := exists_constant_of_isConstant hc.2
  obtain ⟨cs, rfl, hcs⟩ : ∃ cs, x = interior a t f 0 cs ∧
      (cs = [var av tv fv n, constant ac tc fc b] ∨ cs = [constant ac tc fc b, var av tv fv n]) :=
    hsum.elim (fun h => ⟨_, h, Or.inl rfl⟩) fun h => ⟨_, h, Or.inr rfl⟩
  have hleaves : ∀ d ∈ cs, d.isLeaf = true ∧ d.type.isInteger = true := by
    intro d hd
    have hd' : d = var av tv fv n ∨ d = constant ac tc fc b := by
      obtain rfl | rfl := hcs <;> simpa [or_comm] using hd
    obtain rfl | rfl := hd'
    · exact ⟨rfl, hv.1⟩
    · exact ⟨rfl, hc.1⟩
  have hmem : constant ac tc fc b ∈ cs := by
    obtain rfl | rfl := hcs <;> simp
  obtain ⟨E, m, hcomputes⟩ := hO.simplified hx hleaves
  have hfits := (hO.fits (O.children_mem hx _ hmem)).2
  have hoperands : tv.nBits = t.nBits ∧ tc.nBits = t.nBits ∧ b ≠ 0 := by
    obtain rfl | rfl := hcs
    · obtain ⟨hwv, hwc, -, hzero⟩ := add_simplified (f := f) hcomputes
      exact ⟨hwv, hwc, bits_ne_zero_of_isIdentity hzero⟩
    · obtain ⟨hwc, hwv, hzero, -⟩ := add_simplified (f := f) hcomputes
      exact ⟨hwv, hwc, bits_ne_zero_of_isIdentity hzero⟩
  obtain ⟨hwv, hwc, hzero⟩ := hoperands
  refine ⟨hwv, hwc, hzero, ?_, fun {V I} R hinteger s => ?_⟩
  · show b < 2 ^ t.nBits
    rw [← hwc]
    exact hfits
  · have hnumber := R.add t (I.evalAll s cs) hinteger
    have hconstant := R.constant tc.toExprType b hc.1 hfits
    have hvalues : ((I.evalAll s cs).map R.number).sum = R.number (s n) + b := by
      obtain rfl | rfl := hcs
      · simp [Interpretation.evalAll, Interpretation.eval, hconstant]
      · simp [Interpretation.evalAll, Interpretation.eval, hconstant, Nat.add_comm]
    rw [hvalues] at hnumber
    exact hnumber

end

/-- The pairs of nodes that are found to be different. -/
inductive Denied (x y : NodeObject) : Prop
  | constants : x.isIntegerConstant = true → y.isIntegerConstant = true → x.bits ≠ y.bits →
      Denied x y
  | sums {v c v' c'} : x.matchAddVariableConstant = some (v, c) →
      y.matchAddVariableConstant = some (v', c') → v.name = v'.name → c.bits ≠ c'.bits → Denied x y
  | sumVariable {v c} : x.matchAddVariableConstant = some (v, c) → y.isIntegerVariable = true →
      v.name = y.name → Denied x y
  | variableSum {v c} : x.isIntegerVariable = true → y.matchAddVariableConstant = some (v, c) →
      v.name = x.name → Denied x y

theorem Denied.symm {x y : NodeObject} : Denied x y → Denied y x
  | constants hx hy hne => constants hy hx hne.symm
  | sums hx hy hname hne => sums hy hx hname.symm hne.symm
  | sumVariable hx hy hname => variableSum hy hx hname
  | variableSum hx hy hname => sumVariable hy hx hname

theorem match_of_isIntegerVariable {x : NodeObject} (h : x.isIntegerVariable = true) :
    x.matchAddVariableConstant = none := by
  rw [isIntegerVariable, Bool.and_eq_true] at h
  obtain ⟨a, t, f, n, rfl⟩ := exists_var_of_isVariable2 h.2
  rfl

theorem not_denied_self (x : NodeObject) : ¬ Denied x x := by
  intro h
  cases h with
  | constants _ _ hne => exact hne rfl
  | sums hx hy _ hne =>
    cases hx.symm.trans hy
    exact hne rfl
  | sumVariable hx hy _ => cases (match_of_isIntegerVariable hy).symm.trans hx
  | variableSum hx hy _ => cases (match_of_isIntegerVariable hx).symm.trans hy

section

variable {V : Type} {O : Objects} {I : Interpretation V}

/-- Adding different numbers below the modulus gives different results. -/
theorem add_mod_injective {v c c' m : Nat} (hc : c < m) (hc' : c' < m)
    (h : (v + c) % m = (v + c') % m) : c = c' := by
  have hmod : c ≡ c' [MOD m] := Nat.ModEq.add_left_cancel' v h
  exact Nat.ModEq.eq_of_lt_of_lt hmod hc hc'

theorem eval_ne_of_sumVariable (hO : O.FromFactories) (R : IntegerReading I) {x y v c : NodeObject}
    (hx : x ∈ O.nodes) (hinteger : x.type.isInteger = true)
    (hsum : x.matchAddVariableConstant = some (v, c)) (hy : y.isIntegerVariable = true)
    (hname : v.name = y.name) (s : Nat → V) : I.eval s x ≠ I.eval s y := by
  intro heval
  have hfacts := sumFacts_of_isSum hO hx (isSum_of_match hsum)
  rw [isIntegerVariable, Bool.and_eq_true] at hy
  obtain ⟨a, t, f, n, rfl⟩ := exists_var_of_isVariable2 hy.2
  have hnumber := hfacts.number R hinteger s
  rw [heval, hname] at hnumber
  change R.number (s n) = (R.number (s n) + c.bits) % 2 ^ x.nBits at hnumber
  have hpos : 0 < 2 ^ x.nBits := Nat.two_pow_pos _
  have hlt : R.number (s n) < 2 ^ x.nBits := hnumber ▸ Nat.mod_lt _ hpos
  have hsame : (R.number (s n) + 0) % 2 ^ x.nBits = (R.number (s n) + c.bits) % 2 ^ x.nBits := by
    rw [← hnumber, Nat.add_zero, Nat.mod_eq_of_lt hlt]
  exact hfacts.bits_ne_zero (add_mod_injective hpos hfacts.bits_lt hsame).symm

/-- Nodes that are found to be different have different values under every assignment. -/
theorem Denied.eval_ne (hO : O.FromFactories) (R : IntegerReading I) {x y : NodeObject}
    (hx : x ∈ O.nodes) (hy : y ∈ O.nodes) (hxt : x.type.isInteger = true)
    (hyt : y.type.isInteger = true) (hw : x.nBits = y.nBits) (h : Denied x y) (s : Nat → V) :
    I.eval s x ≠ I.eval s y := by
  cases h with
  | constants hcx hcy hne =>
    rw [isIntegerConstant, Bool.and_eq_true] at hcx hcy
    obtain ⟨a, t, f, b, rfl⟩ := exists_constant_of_isConstant hcx.2
    obtain ⟨a', t', f', b', rfl⟩ := exists_constant_of_isConstant hcy.2
    intro heval
    have hnumber := R.constant t.toExprType b hxt (hO.fits hx).2
    have hnumber' := R.constant t'.toExprType b' hyt (hO.fits hy).2
    exact hne (hnumber.symm.trans ((congrArg R.number heval).trans hnumber'))
  | sums hsx hsy hname hne =>
    intro heval
    have hfx := sumFacts_of_isSum hO hx (isSum_of_match hsx)
    have hfy := sumFacts_of_isSum hO hy (isSum_of_match hsy)
    have hnumber := hfx.number R hxt s
    rw [heval, hfy.number R hyt s, hname, ← hw] at hnumber
    exact hne (add_mod_injective hfx.bits_lt (hw ▸ hfy.bits_lt) hnumber.symm)
  | sumVariable hsx hvy hname => exact eval_ne_of_sumVariable hO R hx hxt hsx hvy hname s
  | variableSum hvx hsy hname => exact (eval_ne_of_sumVariable hO R hy hyt hsy hvx hname s).symm

end

section

variable {O : Objects}

/-- The answer is `false` for the pairs that are found to be different, and `true` otherwise. -/
def Decides (x y : NodeObject) (answer : Option (Bool × (Nat → Nat))) : Prop :=
  ∃ r hashval, answer = some (r, hashval) ∧ (r = false ↔ Denied x y)

theorem decides_true {x y : NodeObject} {hashval : Nat → Nat} (h : ¬ Denied x y) :
    Decides x y (some (true, hashval)) :=
  ⟨true, hashval, rfl, ⟨fun hr => absurd hr Bool.true_eq_false.mp, fun hd => absurd hd h⟩⟩

theorem Decides.symm {x y : NodeObject} {answer : Option (Bool × (Nat → Nat))}
    (h : Decides x y answer) : Decides y x answer := by
  obtain ⟨r, hashval, hanswer, hr⟩ := h
  exact ⟨r, hashval, hanswer, hr.trans ⟨Denied.symm, Denied.symm⟩⟩

/-- Without a solver, nodes that are not found to be different may be equal. -/
theorem decides_mayEqualStructure (hh : HashesAgree O) {x y : NodeObject} (hx : x ∈ O.nodes)
    (hy : y ∈ O.nodes) {hashval : Nat → Nat} (hcaches : O.Caches hashval) (h : ¬ Denied x y) :
    Decides x y (mayEqualStructure .none x y hashval) := by
  obtain ⟨hashval', hrun⟩ := isEquivalentTo_spec hh hcaches hx hy
  rw [mayEqualStructure, hrun]
  show Decides x y (some (x.equivalent y || true, hashval'))
  rw [Bool.or_true]
  exact decides_true h

theorem isLeaf_eq_false_of_match {x v c : NodeObject}
    (h : x.matchAddVariableConstant = some (v, c)) : x.isLeaf = false := by
  cases hleaf : x.isLeaf with
  | false => rfl
  | true => cases (match_leaf hleaf).symm.trans h

theorem isLeaf_of_isConstant {x : NodeObject} (h : x.isConstant = true) : x.isLeaf = true := by
  obtain ⟨a, t, f, b, rfl⟩ := exists_constant_of_isConstant h
  rfl

theorem isLeaf_of_isIntegerVariable {x : NodeObject} (h : x.isIntegerVariable = true) :
    x.isLeaf = true := by
  rw [isIntegerVariable, Bool.and_eq_true] at h
  obtain ⟨a, t, f, n, rfl⟩ := exists_var_of_isVariable2 h.2
  rfl

/-- An interior node is found to be different only as a sum. -/
theorem denied_interior {x y : NodeObject} (hinterior : x.isLeaf = false) :
    Denied x y ↔ ∃ v c, x.matchAddVariableConstant = some (v, c) ∧
      ((∃ v' c', y.matchAddVariableConstant = some (v', c') ∧ v.name = v'.name ∧ c.bits ≠ c'.bits) ∨
        y.isIntegerVariable = true ∧ v.name = y.name) := by
  constructor
  · intro h
    cases h with
    | constants hcx =>
      rw [isLeaf_of_isConstant (Bool.and_eq_true_iff.mp hcx).2] at hinterior
      cases hinterior
    | sums hsx hsy hname hne => exact ⟨_, _, hsx, Or.inl ⟨_, _, hsy, hname, hne⟩⟩
    | sumVariable hsx hvy hname => exact ⟨_, _, hsx, Or.inr ⟨hvy, hname⟩⟩
    | variableSum hvx =>
      rw [isLeaf_of_isIntegerVariable hvx] at hinterior
      cases hinterior
  · rintro ⟨v, c, hsx, ⟨v', c', hsy, hname, hne⟩ | ⟨hvy, hname⟩⟩
    · exact .sums hsx hsy hname hne
    · exact .sumVariable hsx hvy hname

theorem decides_twoSums (hO : O.FromFactories) {x y v c v' c' : NodeObject} (hx : x ∈ O.nodes)
    (hy : y ∈ O.nodes) (hw : x.nBits = y.nBits) (hmx : x.matchAddVariableConstant = some (v, c))
    (hmy : y.matchAddVariableConstant = some (v', c')) {hashval : Nat → Nat}
    {answer : Option (Bool × (Nat → Nat))} (hanswer : ¬ Denied x y → Decides x y answer) :
    Decides x y (if v.name = v'.name then
      if v.nBits = v'.nBits ∧ c.nBits = c'.nBits then some (c.bits == c'.bits, hashval) else none
      else answer) := by
  have hfx := sumFacts_of_isSum hO hx (isSum_of_match hmx)
  have hfy := sumFacts_of_isSum hO hy (isSum_of_match hmy)
  have hdenied : Denied x y ↔ v.name = v'.name ∧ c.bits ≠ c'.bits := by
    rw [denied_interior (isLeaf_eq_false_of_match hmx)]
    constructor
    · rintro ⟨v₁, c₁, hmx', ⟨v₂, c₂, hmy', hname, hne⟩ | ⟨hvy, -⟩⟩
      · cases hmx.symm.trans hmx'
        cases hmy.symm.trans hmy'
        exact ⟨hname, hne⟩
      · cases (match_of_isIntegerVariable hvy).symm.trans hmy
    · rintro ⟨hname, hne⟩
      exact ⟨v, c, hmx, Or.inl ⟨v', c', hmy, hname, hne⟩⟩
  by_cases hname : v.name = v'.name
  · rw [if_pos hname, if_pos ⟨hfx.variable_nBits.trans (hw.trans hfy.variable_nBits.symm),
      hfx.constant_nBits.trans (hw.trans hfy.constant_nBits.symm)⟩]
    refine ⟨_, _, rfl, ?_⟩
    rw [beq_eq_false_iff_ne, hdenied]
    exact ⟨fun hne => ⟨hname, hne⟩, fun hd => hd.2⟩
  · rw [if_neg hname]
    exact hanswer fun hd => hname (hdenied.mp hd).1

theorem decides_oneSum (hO : O.FromFactories) {x y v c : NodeObject} (hx : x ∈ O.nodes)
    (hw : x.nBits = y.nBits) (hmx : x.matchAddVariableConstant = some (v, c))
    (hmy : y.matchAddVariableConstant = none) {hashval : Nat → Nat}
    {answer : Option (Bool × (Nat → Nat))} (hanswer : ¬ Denied x y → Decides x y answer) :
    Decides x y (if y.isIntegerVariable && v.name == y.name then
      if v.nBits = y.nBits ∧ c.nBits = v.nBits ∧ c.bits ≠ 0 then some (false, hashval) else none
      else answer) := by
  have hfx := sumFacts_of_isSum hO hx (isSum_of_match hmx)
  have hdenied : Denied x y ↔ (y.isIntegerVariable && v.name == y.name) = true := by
    rw [denied_interior (isLeaf_eq_false_of_match hmx), Bool.and_eq_true, beq_iff_eq]
    constructor
    · rintro ⟨v₁, c₁, hmx', ⟨v₂, c₂, hmy', -⟩ | hsame⟩
      · cases hmy.symm.trans hmy'
      · cases hmx.symm.trans hmx'
        exact hsame
    · intro hsame
      exact ⟨v, c, hmx, Or.inr hsame⟩
  by_cases hsame : (y.isIntegerVariable && v.name == y.name) = true
  · rw [if_pos hsame, if_pos ⟨hfx.variable_nBits.trans hw,
      hfx.constant_nBits.trans hfx.variable_nBits.symm, hfx.bits_ne_zero⟩]
    exact ⟨_, _, rfl, fun _ => hdenied.mpr hsame, fun _ => rfl⟩
  · rw [if_neg hsame]
    exact hanswer fun hd => hsame (hdenied.mp hd)

theorem decides_mayEqualInterior (hO : O.FromFactories) (hh : HashesAgree O) {x y : NodeObject}
    (hx : x ∈ O.nodes) (hy : y ∈ O.nodes) (hw : x.nBits = y.nBits) {hashval : Nat → Nat}
    (hcaches : O.Caches hashval) (hinterior : x.isLeaf = false) :
    Decides x y (mayEqualInterior .none x y hashval) := by
  have hstructure := decides_mayEqualStructure hh hx hy hcaches
  rw [mayEqualInterior]
  by_cases ha : x.address = y.address
  · rw [if_pos ha, O.eq_of_address hx hy ha]
    exact decides_true (not_denied_self y)
  rw [if_neg ha]
  show Decides x y (match x.matchAddVariableConstant, y.matchAddVariableConstant with
    | some (variableA, constantA), some (variableB, constantB) => _
    | some (variableA, constantA), none => _
    | none, _ => _)
  cases hmx : x.matchAddVariableConstant with
  | none =>
    apply hstructure
    rw [denied_interior hinterior]
    rintro ⟨v, c, hmx', -⟩
    cases hmx.symm.trans hmx'
  | some p =>
    cases hmy : y.matchAddVariableConstant with
    | some q => exact decides_twoSums hO hx hy hw hmx hmy hstructure
    | none => exact decides_oneSum hO hx hw hmx hmy hstructure

theorem denied_leaf {x y : NodeObject} (hxleaf : x.isLeaf = true) (hyleaf : y.isLeaf = true) :
    Denied x y ↔ (x.isIntegerConstant && y.isIntegerConstant) = true ∧ x.bits ≠ y.bits := by
  rw [Bool.and_eq_true]
  constructor
  · intro h
    cases h with
    | constants hcx hcy hne => exact ⟨⟨hcx, hcy⟩, hne⟩
    | sums hsx => cases (match_leaf hxleaf).symm.trans hsx
    | sumVariable hsx => cases (match_leaf hxleaf).symm.trans hsx
    | variableSum _ hsy => cases (match_leaf hyleaf).symm.trans hsy
  · rintro ⟨⟨hcx, hcy⟩, hne⟩
    exact .constants hcx hcy hne

theorem decides_mayEqualLeaf {x y : NodeObject} (hx : x ∈ O.nodes) (hy : y ∈ O.nodes)
    (hxleaf : x.isLeaf = true) (hyleaf : y.isLeaf = true) (hxt : x.type.isInteger = true)
    (hashval : Nat → Nat) :
    Decides x y ((mayEqualLeaf .none x y).map fun r => (r, hashval)) := by
  have hdenied := denied_leaf hxleaf hyleaf
  have hfloating : x.isFloatingPointConstant = false := by
    simp only [isFloatingPointConstant, ExprType.isFloatingPoint, ExprType.isInteger,
      beq_iff_eq] at hxt ⊢
    rw [hxt]
    rfl
  rw [mayEqualLeaf, match_leaf hxleaf, ite_self, hfloating]
  by_cases ha : x.address = y.address
  · rw [if_pos ha, O.eq_of_address hx hy ha]
    exact decides_true (not_denied_self y)
  rw [if_neg ha]
  show Decides x y (Option.map _
    (if (x.isVariable2 && y.isVariable2 && x.type == y.type) = true then some true
    else if (x.isIntegerConstant && y.isIntegerConstant) = true then some (x.bits == y.bits)
    else some true))
  split
  next hvariables =>
    simp only [Bool.and_eq_true] at hvariables
    obtain ⟨a, t, f, n, rfl⟩ := exists_var_of_isVariable2 hvariables.1.1
    apply decides_true
    rw [hdenied, Bool.and_eq_true]
    rintro ⟨⟨hconst, -⟩, -⟩
    cases (Bool.and_eq_true_iff.mp hconst).2
  next =>
    split
    next hconstants =>
      refine ⟨_, _, rfl, ?_⟩
      rw [beq_eq_false_iff_ne, hdenied]
      exact ⟨fun hne => ⟨hconstants, hne⟩, fun hd => hd.2⟩
    next hconstants => exact decides_true fun hd => hconstants (hdenied.mp hd).1

theorem hashesAgree_of_fromFactories (hO : O.FromFactories) : HashesAgree O := by
  apply hashesAgree_of_leaves
  intro x hx y hy hleaf h
  refine hash_leaf_eq hleaf h (fun a t f b a' t' hxc hyc hbits => ?_)
    fun a t f n a' t' hxv hyv hbits => ?_
  · subst hxc hyc
    have hfits := hO.fits hx
    have hfits' := hO.fits hy
    rw [hashConstant_eq_hashBits hfits.1 hfits.2, hashConstant_eq_hashBits hfits'.1 hfits'.2]
    simp only [startHash, isMemory_eq_false, hbits, Bool.false_eq_true, if_false]
  · subst hxv hyv
    exact hO.oneType hx hy hbits

/-- `mayEqual` finds out which nodes are different, whatever is cached. -/
theorem decides_mayEqual (hO : O.FromFactories) {x y : NodeObject} (hx : x ∈ O.nodes)
    (hy : y ∈ O.nodes) (hxt : x.type.isInteger = true) (hw : x.nBits = y.nBits)
    {hashval : Nat → Nat} (hcaches : O.Caches hashval) : Decides x y (x.mayEqual .none y hashval) := by
  have hh := hashesAgree_of_fromFactories hO
  rw [mayEqual]
  cases hxleaf : x.isLeaf with
  | false => exact decides_mayEqualInterior hO hh hx hy hw hcaches hxleaf
  | true =>
    rw [if_neg (by simp)]
    by_cases ha : x.address = y.address
    · rw [if_pos ha, O.eq_of_address hx hy ha]
      exact decides_true (not_denied_self y)
    rw [if_neg ha]
    cases hyleaf : y.isLeaf with
    | false => exact (decides_mayEqualInterior hO hh hy hx hw.symm hcaches hyleaf).symm
    | true => exact decides_mayEqualLeaf hx hy hxleaf hyleaf hxt hashval

end

end NodeObject

open NodeObject

/-- Nodes that may have the same value are never found to be different, and the order of the nodes
does not matter. -/
theorem mayEqual_of_eval_eq {V : Type} {O : Objects} {I : Interpretation V} (hO : O.FromFactories)
    (R : IntegerReading I) {a b : NodeObject} (ha : a ∈ O.nodes) (hb : b ∈ O.nodes)
    (hat : a.type.isInteger = true) (hbt : b.type.isInteger = true) (hw : a.nBits = b.nBits)
    {hashval : Nat → Nat} (hcaches : O.Caches hashval) :
    ((∃ s, I.eval s a = I.eval s b) →
      ∃ hashval', a.mayEqual .none b hashval = some (true, hashval')) ∧
      ∃ r hashval' hashval'', a.mayEqual .none b hashval = some (r, hashval') ∧
        b.mayEqual .none a hashval = some (r, hashval'') := by
  obtain ⟨r, hashval', hrun, hr⟩ := decides_mayEqual hO ha hb hat hw hcaches
  obtain ⟨r', hashval'', hrun', hr'⟩ := decides_mayEqual hO hb ha hbt hw.symm hcaches
  constructor
  · rintro ⟨s, heval⟩
    refine ⟨hashval', ?_⟩
    cases r with
    | true => exact hrun
    | false => exact absurd heval ((hr.mp rfl).eval_ne hO R ha hb hat hbt hw s)
  · have hsame : r = r' := by
      rw [Bool.eq_iff_iff, ← not_iff_not, Bool.not_eq_true, Bool.not_eq_true, hr, hr']
      exact ⟨Denied.symm, Denied.symm⟩
    exact ⟨r, hashval', hashval'', hrun, hsame ▸ hrun'⟩

/-- A variable plus a constant other than zero is left as it is. -/
theorem computes_variable_add_constant (E : Engine) (i w f g k : Nat) (b : BitVector)
    (hw : IsWidth w) (hsize : b.size = w) (hb : b.value ≠ 0) :
    Computes simplifyLoop (E, .interior .add w [.var i w f, .constant b g] k)
      (.interior .add w [.var i w f, .constant b g] k) := by
  have haccepts : accepts .add w [.var i w f, .constant b g] = true := by
    simp [accepts, adjustWidth, Node.nBits, hsize, hw.1, hw.2]
  have hsorted : sortOperands E.address [.var i w f, .constant b g] =
      [.var i w f, .constant b g] := sortOperands_of_pairwise (List.pairwise_pair.mpr rfl)
  have hround : simplifyRound E (.interior .add w [.var i w f, .constant b g] k) = .ret none := by
    have hidentity : identity E 0 (.interior .add w [.var i w f, .constant b g] k) = .ret none := by
      simp [identity, isIdentity, BitVector.fromInteger, hb]
      rfl
    have hcommutative : commutative E (.interior .add w [.var i w f, .constant b g] k) = none := by
      rw [commutative, if_pos hsorted]
    have hfirst : Stage.andThen associative (Stage.andThen (commutative E) (identity E 0))
        (.interior .add w [.var i w f, .constant b g] k) = .ret none := by
      show Stage.andThen (commutative E) (identity E 0) _ = .ret none
      rw [Stage.andThen, hcommutative]
      exact hidentity
    show simplifyAdd E _ = _
    rw [simplifyAdd, Stage.orElse, Stage.orElse, Stage.orElse, hfirst]
    rfl
  refine ⟨1, ?_⟩
  rw [evaluate, simplifyLoop, if_pos haccepts, hround]
  rfl

namespace VariablePlusOne

def x : NodeObject := .var 0 ⟨32⟩ 0 5

def one : NodeObject := .constant 1 ⟨⟨32⟩, rfl⟩ 0 1

def sum : NodeObject := .interior 2 ⟨32⟩ 0 0 [x, one]

def y : NodeObject := .var 3 ⟨32⟩ 0 6

def objects : Objects where
  nodes := {z | z = x ∨ z = one ∨ z = sum ∨ z = y}
  children_mem := by
    rintro a t f op cs (h | h | h | h) c hc <;> cases h
    obtain rfl | hc := List.mem_cons.mp hc
    · exact Or.inl rfl
    · exact Or.inr (Or.inl (List.mem_singleton.mp hc))
  eq_of_address := by
    rintro u v (rfl | rfl | rfl | rfl) (rfl | rfl | rfl | rfl) h <;> first | rfl | cases h

def meaning : Interpretation Nat where
  constant _ b := b
  operator _ t vs := vs.sum % 2 ^ t.nBits

def reading : IntegerReading meaning where
  number := id
  constant _ _ _ _ := rfl
  add t vs _ := by
    rw [List.map_id]
    rfl

theorem fromFactories : objects.FromFactories where
  fits := by
    rintro a t f b (h | h | h | h) <;> cases h
    exact ⟨by decide, by decide⟩
  oneType := by
    rintro a t f n a' t' f' (h | h | h | h) (h' | h' | h' | h') _ <;> cases h <;> cases h' <;> rfl
  simplified := by
    rintro a t f cs (h | h | h | h) _ <;> cases h
    have hwidth : IsWidth 32 := ⟨by decide, by decide⟩
    exact ⟨⟨fun _ => 0, none⟩, _, computes_variable_add_constant _ 5 32 0 0 0 ⟨32, 1, by decide⟩
      hwidth rfl (by decide)⟩

end VariablePlusOne

open VariablePlusOne in
theorem mayEqual_of_eval_eq_plusOne :
    ∃ hashval', sum.mayEqual .none y (fun _ => 0) = some (true, hashval') :=
  (mayEqual_of_eval_eq fromFactories reading (Or.inr (Or.inr (Or.inl rfl)))
    (Or.inr (Or.inr (Or.inr rfl))) rfl rfl rfl .empty).1 ⟨fun n => n - 5, rfl⟩

end LoomX.Symbolic
