import LoomX.Symbolic.NodeObjects
import Mathlib.Data.List.Find
import Mathlib.Data.List.Forall2

namespace LoomX.Symbolic

open NodeObject

/-- `ExprExprHashMap::find`: the image of the first key that is equivalent. -/
def findExpr (m : List (NodeObject × NodeObject)) (x : NodeObject) : Option NodeObject :=
  (m.find? fun p => p.1.equivalent x).map Prod.snd

section

variable (substitutions : List (NodeObject × NodeObject))
  (interiorInstance : ExprType → Nat → List NodeObject → Nat → NodeObject)

def substituteLeaf (input : NodeObject) (seen : List (NodeObject × NodeObject)) :
    NodeObject × List (NodeObject × NodeObject) :=
  match findExpr seen input with
  | some r => (r, seen)
  | none =>
    let retval := (findExpr substitutions input).getD input
    (retval, seen ++ [(input, retval)])

mutual

/-- `MultiSubstituter::substitute`; `interiorInstance` makes an interior node and simplifies it. -/
def substitute : NodeObject → List (NodeObject × NodeObject) →
    NodeObject × List (NodeObject × NodeObject)
  | NodeObject.interior a t f op cs, seen =>
    let input := NodeObject.interior a t f op cs
    match findExpr seen input with
    | some r => (r, seen)
    | none =>
      match findExpr substitutions input with
      | some r => (r, seen ++ [(input, r)])
      | none =>
        let (newChildren, anyChildChanged, seen) := substituteAll cs seen
        let retval := if anyChildChanged then interiorInstance t op newChildren f else input
        (retval, seen ++ [(input, retval)])
  | constant a t f b, seen => substituteLeaf substitutions (constant a t f b) seen
  | var a t f n, seen => substituteLeaf substitutions (var a t f n) seen

def substituteAll : List NodeObject → List (NodeObject × NodeObject) →
    List NodeObject × Bool × List (NodeObject × NodeObject)
  | [], seen => ([], false, seen)
  | c :: cs, seen =>
    let (newChild, seen) := substitute c seen
    let (newChildren, anyChildChanged, seen) := substituteAll cs seen
    (newChild :: newChildren, newChild.address != c.address || anyChildChanged, seen)

end

def substituteMultiple (e : NodeObject) : NodeObject :=
  (substitute substitutions interiorInstance e []).1

end

/-- What constants and operators mean. -/
structure Interpretation (V : Type) where
  constant : ExprType → Nat → V
  operator : Nat → ExprType → List V → V

namespace Interpretation

variable {V : Type} (I : Interpretation V) (s : Nat → V)

mutual

/-- The value under an assignment to the variables. -/
def eval : NodeObject → V
  | .constant _ t _ b => I.constant t.toExprType b
  | .var _ _ _ n => s n
  | .interior _ t _ op cs => I.operator op t (evalAll cs)

def evalAll : List NodeObject → List V
  | [] => []
  | c :: cs => eval c :: evalAll cs

end

theorem evalAll_eq_map (cs : List NodeObject) : I.evalAll s cs = cs.map (I.eval s) := by
  induction cs with
  | nil => rfl
  | cons c cs ih => rw [evalAll, ih, List.map_cons]

end Interpretation

/-- A finite map from variables to expressions of their types. -/
structure VariableMap where
  entries : List (NodeObject × NodeObject)
  isVariable : ∀ p ∈ entries, ∃ a t f n, p.1 = .var a t f n
  sameType : ∀ p ∈ entries, p.2.type = p.1.type

/-- The assignment in which each mapped variable has the value of its image. -/
def VariableMap.update {V : Type} (m : VariableMap) (I : Interpretation V) (s : Nat → V) (n : Nat) :
    V :=
  match m.entries.find? fun p => p.1.name == n with
  | some p => I.eval s p.2
  | none => s n

/-- The nodes of an expression. -/
inductive Occurs (e : NodeObject) : NodeObject → Prop
  | self : Occurs e e
  | child {a t f op cs c} : Occurs e (.interior a t f op cs) → c ∈ cs → Occurs e c

/-- Equivalent leaves of the expression have one type. -/
def TypesAgree (e : NodeObject) : Prop :=
  ∀ x y, Occurs e x → Occurs e y → x.isLeaf = true → x.equivalent y = true → x.type = y.type

/-- Each occurrence of a mapped variable has the type and the flags of the key. -/
def KeysMatch (m : VariableMap) (e : NodeObject) : Prop :=
  ∀ a t f n, Occurs e (.var a t f n) → ∀ p ∈ m.entries, p.1.name = n →
    p.1.type = t ∧ p.1.flags = f

/-- A node that may stand for another one among the operands of a node. -/
def StandsFor (x r : NodeObject) : Prop :=
  r.type = x.type ∧ (x.isConstant = true → r.equivalent x = true)

/-- Simplification preserves values: a node of the expression made anew, with operands that stand
for its own, has its type and means what its operator makes of the operands. -/
def PreservesValues {V : Type} (O : Objects) (I : Interpretation V) (e : NodeObject)
    (interiorInstance : ExprType → Nat → List NodeObject → Nat → NodeObject) : Prop :=
  ∀ a t f op cs cs', Occurs e (.interior a t f op cs) → (∀ c ∈ cs', c ∈ O.nodes) →
    List.Forall₂ StandsFor cs cs' →
    interiorInstance t op cs' f ∈ O.nodes ∧ (interiorInstance t op cs' f).type = t ∧
      ∀ s, I.eval s (interiorInstance t op cs' f) = I.operator op t (cs'.map (I.eval s))

section

variable {V : Type} {O : Objects} {I : Interpretation V} {m : VariableMap} {e : NodeObject}

theorem Occurs.mem {x : NodeObject} (he : e ∈ O.nodes) (h : Occurs e x) : x ∈ O.nodes := by
  induction h with
  | self => exact he
  | child _ hc ih => exact O.children_mem ih _ hc

theorem isLeaf_eq_of_equivalent {x y : NodeObject} (h : x.equivalent y = true) :
    x.isLeaf = y.isLeaf := by
  cases hx : x.isLeaf <;> cases hy : y.isLeaf
  · rfl
  · rw [(equivalent_leaf_interior hy hx).2] at h
    cases h
  · rw [(equivalent_leaf_interior hx hy).1] at h
    cases h
  · rfl

theorem isConstant_eq_of_equivalent {x y : NodeObject} (h : x.equivalent y = true) :
    x.isConstant = y.isConstant := by
  have hleaf := isLeaf_eq_of_equivalent h
  cases hx : x.isLeaf with
  | true =>
    rw [equivalent_leaves hx (hleaf ▸ hx), sameLeaf] at h
    simp only [Bool.and_eq_true, beq_iff_eq] at h
    exact h.2.1.1
  | false =>
    have hy : y.isLeaf = false := hleaf ▸ hx
    cases x with
    | interior =>
      cases y with
      | interior => rfl
      | constant => cases hy
      | var => cases hy
    | constant => cases hx
    | var => cases hx

theorem equivalent_trans_constant {x y z : NodeObject} (hz : z.isConstant = true)
    (hxy : x.equivalent y = true) (hyz : y.equivalent z = true) : x.equivalent z = true := by
  have hzleaf : z.isLeaf = true := by
    cases z with
    | constant => rfl
    | var => cases hz
    | interior => cases hz
  have hyleaf := (isLeaf_eq_of_equivalent hyz).trans hzleaf
  have hxleaf := (isLeaf_eq_of_equivalent hxy).trans hyleaf
  rw [equivalent_leaves hxleaf hyleaf, sameLeaf] at hxy
  rw [equivalent_leaves hyleaf hzleaf, sameLeaf] at hyz
  rw [equivalent_leaves hxleaf hzleaf, sameLeaf]
  simp only [Bool.and_eq_true, beq_iff_eq] at hxy hyz ⊢
  exact ⟨⟨hxy.1.1.trans hyz.1.1, hxy.1.2.trans hyz.1.2⟩,
    ⟨⟨hxy.2.1.1.trans hyz.2.1.1, hxy.2.1.2.trans hyz.2.1.2⟩, hxy.2.2.trans hyz.2.2⟩⟩

theorem type_eq_of_equivalent (ht : TypesAgree e) {x y : NodeObject} (hx : Occurs e x)
    (hy : Occurs e y) (h : x.equivalent y = true) : x.type = y.type := by
  cases hleaf : x.isLeaf with
  | true => exact ht x y hx hy hleaf h
  | false =>
    have hother : y.isLeaf = false := (isLeaf_eq_of_equivalent h).symm.trans hleaf
    cases x with
    | constant => cases hleaf
    | var => cases hleaf
    | interior a t f op cs =>
      cases y with
      | constant => cases hother
      | var => cases hother
      | interior a' t' f' op' cs' =>
        simp only [equivalent, Bool.and_eq_true, beq_iff_eq] at h
        exact h.1.1.1

theorem eval_leaf_eq (ht : TypesAgree e) {x y : NodeObject} (hx : Occurs e x) (hy : Occurs e y)
    (hleaf : x.isLeaf = true) (h : x.equivalent y = true) (s : Nat → V) :
    I.eval s x = I.eval s y := by
  have htype := type_eq_of_equivalent ht hx hy h
  have hother := (isLeaf_eq_of_equivalent h).symm.trans hleaf
  rw [equivalent_leaves hleaf hother, sameLeaf] at h
  simp only [Bool.and_eq_true, beq_iff_eq] at h
  obtain ⟨-, ⟨hconst, hbits⟩, hname⟩ := h
  cases x with
  | interior => cases hleaf
  | constant a t f b =>
    cases y with
    | interior => cases hother
    | var => cases hconst
    | constant a' t' f' b' =>
      show I.constant t.toExprType b = I.constant t'.toExprType b'
      rw [show t.toExprType = t'.toExprType from htype, show b = b' from hbits]
  | var a t f n =>
    cases y with
    | interior => cases hother
    | constant => cases hconst
    | var a' t' f' n' => exact congrArg s hname

mutual

/-- Equivalent nodes of the expression have the same value. -/
theorem eval_eq_of_equivalent (ht : TypesAgree e) : ∀ x y, Occurs e x → Occurs e y →
    x.equivalent y = true → ∀ s : Nat → V, I.eval s x = I.eval s y
  | .constant a t f b, y, hx, hy, h, s => eval_leaf_eq ht hx hy rfl h s
  | .var a t f n, y, hx, hy, h, s => eval_leaf_eq ht hx hy rfl h s
  | .interior a t f op cs, y, hx, hy, h, s => by
    have hother := (isLeaf_eq_of_equivalent h).symm
    cases y with
    | constant => cases hother
    | var => cases hother
    | interior a' t' f' op' cs' =>
      simp only [equivalent, Bool.and_eq_true, beq_iff_eq] at h
      obtain ⟨⟨⟨rfl, -⟩, rfl⟩, hcs⟩ := h
      rw [Interpretation.eval, Interpretation.eval,
        evalAll_eq_of_equivalent ht cs cs' (fun c hc => hx.child hc) (fun c hc => hy.child hc) hcs]

theorem evalAll_eq_of_equivalent (ht : TypesAgree e) : ∀ cs cs' : List NodeObject,
    (∀ c ∈ cs, Occurs e c) → (∀ c ∈ cs', Occurs e c) → equivalentAll cs cs' = true →
    ∀ s : Nat → V, I.evalAll s cs = I.evalAll s cs'
  | [], [], _, _, _, s => rfl
  | c :: cs, c' :: cs', hcs, hcs', h, s => by
    rw [equivalentAll, Bool.and_eq_true] at h
    rw [Interpretation.evalAll, Interpretation.evalAll, eval_eq_of_equivalent ht c c'
      (hcs c List.mem_cons_self) (hcs' c' List.mem_cons_self) h.1 s,
      evalAll_eq_of_equivalent ht cs cs' (fun c hc => hcs c (List.mem_cons_of_mem _ hc))
        (fun c hc => hcs' c (List.mem_cons_of_mem _ hc)) h.2 s]

end

/-- What a node may be replaced by. -/
structure Substituted (O : Objects) (I : Interpretation V) (m : VariableMap) (x r : NodeObject) :
    Prop where
  mem : r ∈ O.nodes
  standsFor : StandsFor x r
  eval : ∀ s, I.eval s r = I.eval (m.update I s) x

/-- What was seen is a node of the expression with what it may be replaced by. -/
def SeenValid (O : Objects) (I : Interpretation V) (m : VariableMap) (e : NodeObject)
    (seen : List (NodeObject × NodeObject)) : Prop :=
  ∀ p ∈ seen, Occurs e p.1 ∧ Substituted O I m p.1 p.2

theorem SeenValid.append {seen : List (NodeObject × NodeObject)} (h : SeenValid O I m e seen)
    {x r : NodeObject} (hx : Occurs e x) (hr : Substituted O I m x r) :
    SeenValid O I m e (seen ++ [(x, r)]) := by
  intro p hp
  obtain hp | hp := List.mem_append.mp hp
  · exact h p hp
  · rw [List.mem_singleton.mp hp]
    exact ⟨hx, hr⟩

theorem SeenValid.find (ht : TypesAgree e) {seen : List (NodeObject × NodeObject)}
    (h : SeenValid O I m e seen) {x r : NodeObject} (hx : Occurs e x)
    (hfind : findExpr seen x = some r) : Substituted O I m x r := by
  obtain ⟨p, hp, rfl⟩ := Option.map_eq_some_iff.mp hfind
  obtain ⟨hoccurs, hmem, hstands, heval⟩ := h p (List.mem_of_find?_eq_some hp)
  have hequivalent : p.1.equivalent x = true := by simpa using List.find?_some hp
  refine ⟨hmem, ⟨hstands.1.trans (type_eq_of_equivalent ht hoccurs hx hequivalent),
    fun hconst => ?_⟩, fun s => ?_⟩
  · have hp1 := hstands.2 ((isConstant_eq_of_equivalent hequivalent).trans hconst)
    exact equivalent_trans_constant hconst hp1 hequivalent
  · rw [heval s, eval_eq_of_equivalent ht _ _ hoccurs hx hequivalent]

/-- Only variables are keys. -/
theorem findExpr_entries_none {x : NodeObject} (h : ∀ a t f n, x ≠ .var a t f n) :
    findExpr m.entries x = none := by
  rw [findExpr, Option.map_eq_none_iff, List.find?_eq_none]
  intro p hp hequivalent
  obtain ⟨a, t, f, n, hkey⟩ := m.isVariable p hp
  rw [hkey] at hequivalent
  cases x with
  | var a' t' f' n' => exact h a' t' f' n' rfl
  | constant => simp [equivalent, sameLeaf, isConstant] at hequivalent
  | interior => simp [equivalent] at hequivalent

/-- The image of a mapped variable is found for its occurrences. -/
theorem findExpr_entries_var (hm : KeysMatch m e) {a f n : Nat} {t : ExprType}
    (hx : Occurs e (.var a t f n)) :
    findExpr m.entries (.var a t f n) =
      (m.entries.find? fun p => p.1.name == n).map Prod.snd := by
  rw [findExpr]
  congr 1
  apply List.find?_congr
  intro p hp
  obtain ⟨a', t', f', n', hkey⟩ := m.isVariable p hp
  have hmatch := hm a t f n hx p hp
  rw [hkey] at hmatch ⊢
  rw [Bool.eq_iff_iff]
  simp only [equivalent, sameLeaf, nBits, type, flags, isConstant, bits, name, beq_self_eq_true,
    Bool.true_and, Bool.and_eq_true, beq_iff_eq] at hmatch ⊢
  constructor
  · exact fun h => h.2
  · intro hname
    obtain ⟨htype, hflags⟩ := hmatch hname
    exact ⟨⟨by rw [htype], hflags⟩, hname⟩

theorem map_eval_eq {cs cs' : List NodeObject} (h : List.Forall₂ (Substituted O I m) cs cs')
    (s : Nat → V) : cs'.map (I.eval s) = I.evalAll (m.update I s) cs := by
  induction h with
  | nil => rfl
  | cons hc _ ih => rw [List.map_cons, hc.eval, ih, Interpretation.evalAll]

theorem mem_of_substituted {cs cs' : List NodeObject}
    (h : List.Forall₂ (Substituted O I m) cs cs') : ∀ c ∈ cs', c ∈ O.nodes := by
  induction h with
  | nil => exact fun c hc => absurd hc List.not_mem_nil
  | cons hc _ ih =>
    intro c hmem
    obtain rfl | hmem := List.mem_cons.mp hmem
    · exact hc.mem
    · exact ih c hmem

variable {interiorInstance : ExprType → Nat → List NodeObject → Nat → NodeObject}

theorem substituteLeaf_spec (he : e ∈ O.nodes) (himages : ∀ p ∈ m.entries, p.2 ∈ O.nodes)
    (ht : TypesAgree e) (hm : KeysMatch m e) {x : NodeObject} (hleaf : x.isLeaf = true)
    (hx : Occurs e x) {seen : List (NodeObject × NodeObject)} (hseen : SeenValid O I m e seen) :
    Substituted O I m x (substituteLeaf m.entries x seen).1 ∧
      SeenValid O I m e (substituteLeaf m.entries x seen).2 := by
  rw [substituteLeaf]
  cases hfind : findExpr seen x with
  | some r => exact ⟨hseen.find ht hx hfind, hseen⟩
  | none =>
    have hsub : Substituted O I m x ((findExpr m.entries x).getD x) := by
      cases x with
      | interior => cases hleaf
      | constant a t f b =>
        rw [findExpr_entries_none (fun _ _ _ _ h => by cases h)]
        exact ⟨hx.mem he, ⟨rfl, fun _ => equivalent_self _⟩, fun s => rfl⟩
      | var a t f n =>
        rw [findExpr_entries_var hm hx]
        cases hentry : m.entries.find? fun p => p.1.name == n with
        | none =>
          refine ⟨hx.mem he, ⟨rfl, fun _ => equivalent_self _⟩, fun s => ?_⟩
          show s n = m.update I s n
          rw [VariableMap.update, hentry]
        | some p =>
          have hp := List.mem_of_find?_eq_some hentry
          have hname : p.1.name = n := by simpa using List.find?_some hentry
          have htype := (m.sameType p hp).trans (hm a t f n hx p hp hname).1
          refine ⟨himages p hp, ⟨htype, fun h => by cases h⟩, fun s => ?_⟩
          show I.eval s p.2 = m.update I s n
          rw [VariableMap.update, hentry]
    exact ⟨hsub, hseen.append hx hsub⟩

mutual

/-- Each node gets what it may be replaced by, and so do the ones that were seen on the way. -/
theorem substitute_spec (he : e ∈ O.nodes) (himages : ∀ p ∈ m.entries, p.2 ∈ O.nodes)
    (ht : TypesAgree e) (hm : KeysMatch m e) (hi : PreservesValues O I e interiorInstance) :
    ∀ x, Occurs e x → ∀ seen, SeenValid O I m e seen →
      Substituted O I m x (substitute m.entries interiorInstance x seen).1 ∧
        SeenValid O I m e (substitute m.entries interiorInstance x seen).2
  | .constant a t f b, hx, seen, hseen => substituteLeaf_spec he himages ht hm rfl hx hseen
  | .var a t f n, hx, seen, hseen => substituteLeaf_spec he himages ht hm rfl hx hseen
  | .interior a t f op cs, hx, seen, hseen => by
    rw [substitute]
    cases hfind : findExpr seen (.interior a t f op cs) with
    | some r => exact ⟨hseen.find ht hx hfind, hseen⟩
    | none =>
      obtain ⟨hall, hchanged, hseen'⟩ := substituteAll_spec he himages ht hm hi cs
        (fun c hc => hx.child hc) seen hseen
      rw [findExpr_entries_none (fun _ _ _ _ h => by cases h)]
      generalize substituteAll m.entries interiorInstance cs seen = r at hall hchanged hseen' ⊢
      obtain ⟨newChildren, anyChildChanged, seen'⟩ := r
      have hsub : Substituted O I m (.interior a t f op cs) (if anyChildChanged then
          interiorInstance t op newChildren f else .interior a t f op cs) := by
        cases anyChildChanged with
        | false =>
          obtain rfl : newChildren = cs := hchanged rfl
          refine ⟨hx.mem he, ⟨rfl, fun h => by cases h⟩, fun s => ?_⟩
          show I.operator op t (I.evalAll s newChildren) = _
          rw [I.evalAll_eq_map, map_eval_eq hall]
          rfl
        | true =>
          obtain ⟨hmem, htype, heval⟩ := hi a t f op cs newChildren hx (mem_of_substituted hall)
            (hall.imp fun _ _ h => h.standsFor)
          refine ⟨hmem, ⟨htype, fun h => by cases h⟩, fun s => ?_⟩
          show I.eval s (interiorInstance t op newChildren f) = _
          rw [heval s, map_eval_eq hall]
          rfl
      exact ⟨hsub, hseen'.append hx hsub⟩

theorem substituteAll_spec (he : e ∈ O.nodes) (himages : ∀ p ∈ m.entries, p.2 ∈ O.nodes)
    (ht : TypesAgree e) (hm : KeysMatch m e) (hi : PreservesValues O I e interiorInstance) :
    ∀ cs : List NodeObject, (∀ c ∈ cs, Occurs e c) → ∀ seen, SeenValid O I m e seen →
      List.Forall₂ (Substituted O I m) cs (substituteAll m.entries interiorInstance cs seen).1 ∧
        ((substituteAll m.entries interiorInstance cs seen).2.1 = false →
          (substituteAll m.entries interiorInstance cs seen).1 = cs) ∧
        SeenValid O I m e (substituteAll m.entries interiorInstance cs seen).2.2
  | [], _, seen, hseen => ⟨.nil, fun _ => rfl, hseen⟩
  | c :: cs, hcs, seen, hseen => by
    have hc := hcs c List.mem_cons_self
    obtain ⟨hfirst, hseen'⟩ := substitute_spec he himages ht hm hi c hc seen hseen
    obtain ⟨hall, hchanged, hseen''⟩ := substituteAll_spec he himages ht hm hi cs
      (fun c hc => hcs c (List.mem_cons_of_mem _ hc)) _ hseen'
    refine ⟨.cons hfirst hall, fun h => ?_, hseen''⟩
    obtain ⟨hsame, hrest⟩ := Bool.or_eq_false_iff.mp h
    have haddress := bne_eq_false_iff_eq.mp hsame
    exact congrArg₂ List.cons (O.eq_of_address hfirst.mem (hc.mem he) haddress) (hchanged hrest)

end

end

/-- Substitution is simultaneous: the result means what the expression means when each mapped
variable has the value of its image. -/
theorem eval_substituteMultiple {V : Type} {O : Objects} {I : Interpretation V} {m : VariableMap}
    {e : NodeObject} {interiorInstance : ExprType → Nat → List NodeObject → Nat → NodeObject}
    (he : e ∈ O.nodes) (himages : ∀ p ∈ m.entries, p.2 ∈ O.nodes)
    (hinstance : PreservesValues O I e interiorInstance) (hkeys : KeysMatch m e)
    (htypes : TypesAgree e) (s : Nat → V) :
    I.eval s (substituteMultiple m.entries interiorInstance e) = I.eval (m.update I s) e :=
  (substitute_spec he himages htypes hkeys hinstance e .self [] nofun).1.eval s

namespace ZeroTest

def x : NodeObject := .var 0 ⟨32⟩ 0 0

def y : NodeObject := .var 1 ⟨32⟩ 0 1

/-- Whether `c` is zero. -/
def zerop (address : Nat) (c : NodeObject) : NodeObject := .interior address ⟨1⟩ 0 41 [c]

def meaning : Interpretation Nat where
  constant _ b := b
  operator _ _ vals := if vals.headD 1 = 0 then 1 else 0

/-- Nothing is simplified. -/
def instanceOf (_ : ExprType) (_ : Nat) (cs : List NodeObject) (_ : Nat) : NodeObject :=
  match cs with
  | [.var 1 _ _ _] => zerop 3 y
  | _ => zerop 2 x

def xToY : VariableMap where
  entries := [(x, y)]
  isVariable := fun p hp => ⟨_, _, _, _, congrArg Prod.fst (List.mem_singleton.mp hp)⟩
  sameType := fun p hp => by
    rw [List.mem_singleton.mp hp]
    rfl

/-- Whether the value of `c` is below that of `d`. -/
def less (address : Nat) (c d : NodeObject) : NodeObject := .interior address ⟨1⟩ 0 40 [c, d]

def order : Interpretation Nat where
  constant _ b := b
  operator _ _ vals := if vals.headD 0 < vals.getLastD 0 then 1 else 0

/-- Nothing is simplified. -/
def orderOf (_ : ExprType) (_ : Nat) (cs : List NodeObject) (_ : Nat) : NodeObject :=
  match cs with
  | [.var 0 _ _ _, .var 0 _ _ _] => less 4 x x
  | [.var 1 _ _ _, .var 1 _ _ _] => less 5 y y
  | [.var 1 _ _ _, .var 0 _ _ _] => less 3 y x
  | _ => less 2 x y

def swapped : VariableMap where
  entries := [(x, y), (y, x)]
  isVariable := fun p hp => by
    obtain rfl | rfl := List.mem_pair.mp hp
    · exact ⟨_, _, _, _, rfl⟩
    · exact ⟨_, _, _, _, rfl⟩
  sameType := fun p hp => by
    obtain rfl | rfl := List.mem_pair.mp hp
    · rfl
    · rfl

def objects : Objects where
  nodes := {x, y, less 2 x y, less 3 y x, less 4 x x, less 5 y y}
  children_mem := by
    rintro a t f op cs (h | h | h | h | h | h) c hc
    · cases h
    · cases h
    all_goals
      cases h
      obtain rfl | rfl := List.mem_pair.mp hc
    all_goals first | exact Or.inl rfl | exact Or.inr (Or.inl rfl)
  eq_of_address := by
    rintro a b (rfl | rfl | rfl | rfl | rfl | rfl) (rfl | rfl | rfl | rfl | rfl | rfl) h <;>
      first | rfl | cases h

theorem occurs_iff {z : NodeObject} (h : Occurs (less 2 x y) z) : z = less 2 x y ∨ z = x ∨ z = y := by
  induction h with
  | self => exact Or.inl rfl
  | child _ hc ih =>
    obtain h | h | h := ih
    · cases h
      exact Or.inr (List.mem_pair.mp hc)
    · cases h
    · cases h

theorem preservesValues : PreservesValues objects order (less 2 x y) orderOf := by
  intro a t f op cs cs' hoccurs hmem hstands
  obtain h | h | h := occurs_iff hoccurs
  · cases h
    obtain ⟨c, rest, hc, hrest, rfl⟩ := List.forall₂_cons_left_iff.mp hstands
    obtain ⟨d, rest', hd, hnil, rfl⟩ := List.forall₂_cons_left_iff.mp hrest
    cases hnil
    have hleaf : ∀ z ∈ objects.nodes, z.type = (⟨32⟩ : ExprType) → z = x ∨ z = y := by
      rintro z (rfl | rfl | rfl | rfl | rfl | rfl) htype
      · exact Or.inl rfl
      · exact Or.inr rfl
      all_goals exact absurd htype (by decide)
    obtain rfl | rfl := hleaf c (hmem c List.mem_cons_self) hc.1
    · obtain rfl | rfl := hleaf d (hmem d (by simp)) hd.1
      · exact ⟨Or.inr (Or.inr (Or.inr (Or.inr (Or.inl rfl)))), rfl, fun s => rfl⟩
      · exact ⟨Or.inr (Or.inr (Or.inl rfl)), rfl, fun s => rfl⟩
    · obtain rfl | rfl := hleaf d (hmem d (by simp)) hd.1
      · exact ⟨Or.inr (Or.inr (Or.inr (Or.inl rfl))), rfl, fun s => rfl⟩
      · exact ⟨Or.inr (Or.inr (Or.inr (Or.inr (Or.inr rfl)))), rfl, fun s => rfl⟩
  · cases h
  · cases h

end ZeroTest

open ZeroTest in
/-- Both variables are replaced at once. -/
theorem eval_substituteMultiple_swapped :
    order.eval id (substituteMultiple swapped.entries orderOf (less 2 x y)) =
      order.eval (swapped.update order id) (less 2 x y) := by
  refine eval_substituteMultiple (O := objects) (Or.inr (Or.inr (Or.inl rfl))) ?_ preservesValues
    ?_ ?_ id
  · intro p hp
    obtain rfl | rfl := List.mem_pair.mp hp
    · exact Or.inr (Or.inl rfl)
    · exact Or.inl rfl
  · intro a t f n hoccurs p hp hname
    obtain h | h | h := occurs_iff hoccurs
    · cases h
    · cases h
      obtain rfl | rfl := List.mem_pair.mp hp
      · exact ⟨rfl, rfl⟩
      · exact absurd hname (by decide)
    · cases h
      obtain rfl | rfl := List.mem_pair.mp hp
      · exact absurd hname (by decide)
      · exact ⟨rfl, rfl⟩
  · intro a b ha hb hleaf hequivalent
    obtain rfl | rfl | rfl := occurs_iff ha
    · cases hleaf
    all_goals
      obtain rfl | rfl | rfl := occurs_iff hb
      · exact absurd hequivalent (by decide)
      · rfl
      · rfl

open ZeroTest in
/-- An occurrence with other flags than the key is not substituted, and an integer constant takes
the place of a floating-point one with the same bits. -/
theorem substituteMultiple_flags :
    meaning.eval id (substituteMultiple xToY.entries instanceOf (zerop 2 (.var 0 ⟨32⟩ 1 0))) = 1 ∧
      meaning.eval (xToY.update meaning id) (zerop 2 (.var 0 ⟨32⟩ 1 0)) = 0 ∧
      (substituteAll xToY.entries instanceOf [.constant 4 ⟨⟨32⟩, rfl⟩ 0 7,
        .constant 5 ⟨⟨2 ^ 30 + 8 * 2 ^ 15 + 32⟩, rfl⟩ 0 7] []).1.map address = [4, 4] := by
  decide

end LoomX.Symbolic
