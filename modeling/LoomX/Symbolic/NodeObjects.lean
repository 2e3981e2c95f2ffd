import Mathlib

namespace LoomX.Symbolic

/-- A type of expressions: its class, second width and width packed into an integer. -/
structure ExprType where
  fields : Nat
  deriving DecidableEq

namespace ExprType

def typeClass (t : ExprType) : Nat := t.fields / 2 ^ 30 % 4

def secondaryWidth (t : ExprType) : Nat := t.fields / 2 ^ 15 % 2 ^ 15

def nBits (t : ExprType) : Nat := t.fields % 2 ^ 15

def isInteger (t : ExprType) : Bool := t.typeClass == 0

def isFloatingPoint (t : ExprType) : Bool := t.typeClass == 1

def isMemory (t : ExprType) : Bool := t.typeClass == 2

end ExprType

/-- The types of constants. -/
structure ScalarType extends ExprType where
  isScalar : (toExprType.isInteger || toExprType.isFloatingPoint) = true

/-- The nodes of expressions as objects, each with its address; the bits of constants are given as
an unsigned integer. -/
inductive NodeObject
  | constant (address : Nat) (type : ScalarType) (flags bits : Nat)
  | var (address : Nat) (type : ExprType) (flags name : Nat)
  | interior (address : Nat) (type : ExprType) (flags op : Nat) (children : List NodeObject)

namespace NodeObject

def address : NodeObject → Nat
  | constant a _ _ _ | var a _ _ _ | interior a _ _ _ _ => a

def type : NodeObject → ExprType
  | constant _ t _ _ => t.toExprType
  | var _ t _ _ | interior _ t _ _ _ => t

def nBits (x : NodeObject) : Nat := x.type.nBits

def flags : NodeObject → Nat
  | constant _ _ f _ | var _ _ f _ | interior _ _ f _ _ => f

def isLeaf : NodeObject → Bool
  | interior _ _ _ _ _ => false
  | _ => true

def isConstant : NodeObject → Bool
  | constant _ _ _ _ => true
  | _ => false

def isIntegerConstant (x : NodeObject) : Bool := x.type.isInteger && x.isConstant

def isFloatingPointConstant (x : NodeObject) : Bool := x.type.isFloatingPoint && x.isConstant

def bits : NodeObject → Nat
  | constant _ _ _ b => b
  | _ => 0

def name : NodeObject → Nat
  | var _ _ _ n => n
  | _ => 0

/-- `Leaf::compareStructure` for two leaves. -/
def compareLeaves (this other : NodeObject) : Ordering :=
  if this.address = other.address then .eq
  else if this.nBits ≠ other.nBits then if this.nBits < other.nBits then .lt else .gt
  else if this.flags ≠ other.flags then if this.flags < other.flags then .lt else .gt
  else if this.isIntegerConstant ≠ other.isIntegerConstant then
    if this.isIntegerConstant then .lt else .gt
  else if this.isFloatingPointConstant ≠ other.isFloatingPointConstant then
    if this.isFloatingPointConstant then .lt else .gt
  else if this.isConstant then compare this.bits other.bits
  else if this.name < other.name then .lt else .gt

mutual

def compareStructure : NodeObject → NodeObject → Ordering
  | interior a t f op cs, interior a' t' f' op' cs' =>
    if a = a' then .eq
    else if op ≠ op' then if op < op' then .lt else .gt
    else if t ≠ t' then if t.fields < t'.fields then .lt else .gt
    else if cs.length ≠ cs'.length then if cs.length < cs'.length then .lt else .gt
    else if f ≠ f' then if f < f' then .lt else .gt
    else compareChildren cs cs'
  | interior _ _ _ _ _, _ => .gt
  | _, interior _ _ _ _ _ => .lt
  | this, other => compareLeaves this other

def compareChildren : List NodeObject → List NodeObject → Ordering
  | c :: cs, c' :: cs' => (c.compareStructure c').then (compareChildren cs cs')
  | _, _ => .eq

end

/-- `Leaf::isEquivalentHelper` for two leaves. -/
def equivalentLeaves (this other : NodeObject) : Bool :=
  if this.address = other.address then true
  else if this.nBits ≠ other.nBits ∨ this.flags ≠ other.flags then false
  else if this.isConstant then other.isConstant && this.bits == other.bits
  else !other.isConstant && this.name == other.name

end NodeObject

/-- The cached hash values by the addresses of the nodes, zero for none, and the pairs of nodes
that were compared. -/
structure EquivState where
  hashval : Nat → Nat
  matched : Nat → Option (List (Nat × Bool))

namespace EquivState

def setHash (s : EquivState) (a h : Nat) : EquivState :=
  { s with hashval := Function.update s.hashval a h }

theorem setHash_hashval (s : EquivState) (a h : Nat) :
    (s.setHash a h).hashval = Function.update s.hashval a h := rfl

/-- Equivalent nodes share a cached hash value; they do not have different ones. -/
def shareHash (s : EquivState) (a a' : Nat) : Option EquivState :=
  if s.hashval a ≠ 0 ∧ s.hashval a' = 0 then some (s.setHash a' (s.hashval a))
  else if s.hashval a = 0 ∧ s.hashval a' ≠ 0 then some (s.setHash a (s.hashval a'))
  else if s.hashval a = s.hashval a' then some s
  else none

/-- Inserts a pair, unless the map has one for the node already. -/
def remember (s : EquivState) (a a' : Nat) (retval : Bool) : EquivState :=
  match s.matched a with
  | some _ => s
  | none => { s with matched := Function.update s.matched a (some [(a', retval)]) }

end EquivState

namespace NodeObject

mutual

def isEquivalentHelper : NodeObject → NodeObject → EquivState → Option (Bool × EquivState)
  | interior a t f op cs, interior a' t' f' op' cs', s =>
    if a = a' then some (true, s)
    else if t ≠ t' ∨ f ≠ f' then some (false, s)
    else if s.hashval a ≠ 0 ∧ s.hashval a' ≠ 0 ∧ s.hashval a ≠ s.hashval a' then some (false, s)
    else if op ≠ op' ∨ cs.length ≠ cs'.length then some (false, s)
    else
      match ((s.matched a).getD []).find? (·.1 == a') with
      | some (_, retval) => some (retval, s)
      | none => do
        let (retval, s) ← allEquivalent cs cs' s
        let s ← if retval then s.shareHash a a' else some s
        return (retval, s.remember a a' retval)
  | interior _ _ _ _ _, _, s => some (false, s)
  | _, interior _ _ _ _ _, s => some (false, s)
  | this, other, s => some (equivalentLeaves this other, s)

def allEquivalent : List NodeObject → List NodeObject → EquivState → Option (Bool × EquivState)
  | c :: cs, c' :: cs', s => do
    let (retval, s) ← c.isEquivalentHelper c' s
    if retval then allEquivalent cs cs' s else return (false, s)
  | _, _, s => some (true, s)

end

/-- The answer and the cached hash values afterwards. -/
def isEquivalentTo (a b : NodeObject) (hashval : Nat → Nat) : Option (Bool × (Nat → Nat)) :=
  (a.isEquivalentHelper b ⟨hashval, fun _ => none⟩).map fun r => (r.1, r.2.hashval)

end NodeObject

/-- `Hasher::hash`: the data worked into a 64-bit hash value. -/
def mixHash (h data : Nat) : Nat :=
  (List.range 10).foldl (fun h n =>
    let i := 6 * n
    let sa := (data / 2 ^ i ^^^ h ^^^ i) % 64
    (h / 2 ^ (64 - sa) ||| h * 2 ^ sa % 2 ^ 64) ^^^ data) h

namespace NodeObject

/-- What the hash value of a node starts with. -/
def startHash (t : ExprType) (f : Nat) : Nat :=
  mixHash (mixHash (if t.isMemory then t.secondaryWidth else 0) t.nBits) f

/-- The bits of a constant, 64 at a time. -/
def hashBits (nBits bits h : Nat) : Nat :=
  (List.range ((nBits + 63) / 64)).foldl (fun h c => mixHash h (bits / 2 ^ (64 * c) % 2 ^ 64)) h

def hashConstant (t : ExprType) (f b : Nat) : Nat :=
  if t.isInteger && t.nBits ≤ 64 then mixHash (startHash t f) b
  else hashBits t.nBits b (startHash t f)

mutual

/-- The hash value that a node has. -/
def hash : NodeObject → Nat
  | constant _ t f b => hashConstant t.toExprType f b
  | var _ t f n => mixHash (startHash t f) n
  | interior _ t f op cs => hashChildren cs (mixHash (startHash t f) op)

def hashChildren : List NodeObject → Nat → Nat
  | [], h => h
  | c :: cs, h => hashChildren cs (mixHash h c.hash)

end

mutual

/-- `Node::hash` on the cached values: what has none gets one, after its children. -/
def cacheHash : NodeObject → (Nat → Nat) → (Nat → Nat)
  | constant a t f b, hashval =>
    if hashval a ≠ 0 then hashval else Function.update hashval a (hashConstant t.toExprType f b)
  | var a t f n, hashval =>
    if hashval a ≠ 0 then hashval else Function.update hashval a (mixHash (startHash t f) n)
  | interior a t f op cs, hashval =>
    if hashval a ≠ 0 then hashval
    else
      let hashval := cacheChildren cs hashval
      Function.update hashval a
        ((cs.map fun c => hashval c.address).foldl mixHash (mixHash (startHash t f) op))

def cacheChildren : List NodeObject → (Nat → Nat) → (Nat → Nat)
  | [], hashval => hashval
  | c :: cs, hashval => cacheChildren cs (c.cacheHash hashval)

end

end NodeObject

/-- The node objects that exist, with their children, each at an address of its own. -/
structure Objects where
  nodes : Set NodeObject
  children_mem : ∀ {a t f op cs}, NodeObject.interior a t f op cs ∈ nodes → ∀ c ∈ cs, c ∈ nodes
  eq_of_address : ∀ {x y}, x ∈ nodes → y ∈ nodes → x.address = y.address → x = y

namespace Objects

def OneObjectPerVariable (O : Objects) : Prop :=
  ∀ ⦃a t f n a' t'⦄, .var a t f n ∈ O.nodes → .var a' t' f n ∈ O.nodes →
    t.nBits = t'.nBits → a = a'

/-- No integer constant has the width, flags and bits of a floating-point constant. -/
def NoSharedBits (O : Objects) : Prop :=
  ∀ ⦃a t f b a' t'⦄, .constant a t f b ∈ O.nodes → .constant a' t' f b ∈ O.nodes →
    t.nBits = t'.nBits → t.isInteger = t'.isInteger

/-- The hash values that are cached after some calls. -/
inductive Caches (O : Objects) : (Nat → Nat) → Prop
  | empty : O.Caches fun _ => 0
  | hash {hashval x} : O.Caches hashval → x ∈ O.nodes → O.Caches (x.cacheHash hashval)
  | compare {hashval x y r hashval'} : O.Caches hashval → x ∈ O.nodes → y ∈ O.nodes →
      x.isEquivalentTo y hashval = some (r, hashval') → O.Caches hashval'

end Objects

namespace NodeObject

def sameLeaf (this other : NodeObject) : Bool :=
  this.nBits == other.nBits && this.flags == other.flags &&
    (this.isConstant == other.isConstant && this.bits == other.bits && this.name == other.name)

mutual

/-- Structural equivalence, whichever objects the nodes are. -/
def equivalent : NodeObject → NodeObject → Bool
  | interior _ t f op cs, interior _ t' f' op' cs' =>
    t == t' && f == f' && op == op' && equivalentAll cs cs'
  | interior _ _ _ _ _, _ => false
  | _, interior _ _ _ _ _ => false
  | this, other => sameLeaf this other

def equivalentAll : List NodeObject → List NodeObject → Bool
  | [], [] => true
  | c :: cs, c' :: cs' => c.equivalent c' && equivalentAll cs cs'
  | _, _ => false

end

mutual

theorem equivalent_self : ∀ x : NodeObject, x.equivalent x = true
  | constant a t f b => by simp [equivalent, sameLeaf]
  | var a t f n => by simp [equivalent, sameLeaf]
  | interior a t f op cs => by simp [equivalent, equivalentAll_self cs]

theorem equivalentAll_self : ∀ cs : List NodeObject, equivalentAll cs cs = true
  | [] => rfl
  | c :: cs => by simp [equivalentAll, equivalent_self c, equivalentAll_self cs]

end

theorem length_eq_of_equivalentAll : ∀ {cs cs' : List NodeObject}, equivalentAll cs cs' = true →
    cs.length = cs'.length
  | [], [], _ => rfl
  | c :: cs, c' :: cs', h => by
    rw [equivalentAll, Bool.and_eq_true] at h
    rw [List.length_cons, List.length_cons, length_eq_of_equivalentAll h.2]

theorem equivalent_leaves {x y : NodeObject} (hx : x.isLeaf = true) (hy : y.isLeaf = true) :
    x.equivalent y = sameLeaf x y := by
  cases x <;> cases y <;>
    first | rfl | exact absurd hx Bool.false_ne_true | exact absurd hy Bool.false_ne_true

theorem equivalent_leaf_interior {x y : NodeObject} (hx : x.isLeaf = true)
    (hy : y.isLeaf = false) : x.equivalent y = false ∧ y.equivalent x = false := by
  cases x <;> cases y <;>
    first | exact ⟨rfl, rfl⟩ | exact absurd hx Bool.false_ne_true |
      exact absurd hy.symm Bool.false_ne_true

section

variable {O : Objects}

theorem equivalentLeaves_eq {x y : NodeObject} (hx : x ∈ O.nodes) (hy : y ∈ O.nodes)
    (hxleaf : x.isLeaf = true) (hyleaf : y.isLeaf = true) :
    equivalentLeaves x y = x.equivalent y := by
  by_cases ha : x.address = y.address
  · rw [← O.eq_of_address hx hy ha, equivalent_self, equivalentLeaves, if_pos rfl]
  rw [equivalent_leaves hxleaf hyleaf, equivalentLeaves, if_neg ha, sameLeaf]
  by_cases hsame : x.nBits = y.nBits ∧ x.flags = y.flags
  · rw [if_neg (by simp [hsame.1, hsame.2])]
    cases x <;> cases y <;>
      first | exact absurd hxleaf Bool.false_ne_true | exact absurd hyleaf Bool.false_ne_true |
        simp [isConstant, bits, name, hsame.1, hsame.2]
  · rw [if_pos (not_and_or.mp hsame)]
    simp only [not_and] at hsame
    simp only [Bool.false_eq, Bool.and_eq_false_iff, beq_eq_false_iff_ne]
    by_cases hbits : x.nBits = y.nBits
    · exact Or.inl (Or.inr (hsame hbits))
    · exact Or.inl (Or.inl hbits)

/-- Each cached hash value is that of its node, and each remembered answer is right. -/
structure CacheValid (O : Objects) (s : EquivState) : Prop where
  hash : ∀ x ∈ O.nodes, s.hashval x.address = 0 ∨ s.hashval x.address = x.hash
  matched : ∀ x ∈ O.nodes, ∀ y ∈ O.nodes, ∀ l r, s.matched x.address = some l →
    (y.address, r) ∈ l → r = x.equivalent y

theorem CacheValid.setHash {s : EquivState} (hs : CacheValid O s) {x : NodeObject}
    (hx : x ∈ O.nodes) {h : Nat} (hh : h = 0 ∨ h = x.hash) : CacheValid O (s.setHash x.address h) where
  hash := fun z hz => by
    by_cases hzx : z.address = x.address
    · obtain rfl := O.eq_of_address hz hx hzx
      rw [EquivState.setHash_hashval, Function.update_self]
      exact hh
    · rw [EquivState.setHash_hashval, Function.update_of_ne hzx]
      exact hs.hash z hz
  matched := hs.matched

/-- Equivalent nodes have no different hash values cached. -/
theorem CacheValid.shareHash {s : EquivState} (hs : CacheValid O s) {x y : NodeObject}
    (hx : x ∈ O.nodes) (hy : y ∈ O.nodes) (heq : x.hash = y.hash) :
    ∃ s', s.shareHash x.address y.address = some s' ∧ CacheValid O s' := by
  have hhx := hs.hash x hx
  have hhy := hs.hash y hy
  rw [EquivState.shareHash]
  split
  · exact ⟨_, rfl, hs.setHash hy (by rwa [← heq])⟩
  · split
    · exact ⟨_, rfl, hs.setHash hx (by rwa [heq])⟩
    · exact ⟨s, if_pos (by omega), hs⟩

theorem CacheValid.remember {s : EquivState} (hs : CacheValid O s) {x y : NodeObject}
    (hx : x ∈ O.nodes) (hy : y ∈ O.nodes) :
    CacheValid O (s.remember x.address y.address (x.equivalent y)) := by
  rw [EquivState.remember]
  cases hmatched : s.matched x.address with
  | some l => exact hs
  | none =>
    refine ⟨hs.hash, fun z hz w hw l r hl hr => ?_⟩
    change Function.update s.matched x.address _ z.address = some l at hl
    by_cases hzx : z.address = x.address
    · obtain rfl := O.eq_of_address hz hx hzx
      rw [Function.update_self] at hl
      cases hl
      obtain ⟨hwy, rfl⟩ := Prod.mk.inj (List.mem_singleton.mp hr)
      rw [O.eq_of_address hw hy hwy]
    · rw [Function.update_of_ne hzx] at hl
      exact hs.matched z hz w hw l r hl hr

/-- A remembered answer is right. -/
theorem CacheValid.find {s : EquivState} (hs : CacheValid O s) {x y : NodeObject}
    (hx : x ∈ O.nodes) (hy : y ∈ O.nodes) {p : Nat × Bool}
    (h : ((s.matched x.address).getD []).find? (·.1 == y.address) = some p) :
    p.2 = x.equivalent y := by
  have hmem := List.mem_of_find?_eq_some h
  have haddress := List.find?_some h
  rw [beq_iff_eq] at haddress
  cases hmatched : s.matched x.address with
  | none =>
    rw [hmatched] at hmem
    cases hmem
  | some l =>
    rw [hmatched, Option.getD_some] at hmem
    refine hs.matched x hx y hy l p.2 hmatched ?_
    rw [← haddress]
    exact hmem

theorem isEquivalentHelper_leaf {x y : NodeObject} (hx : x ∈ O.nodes) (hy : y ∈ O.nodes)
    (hleaf : x.isLeaf = true) (s : EquivState) :
    x.isEquivalentHelper y s = some (x.equivalent y, s) := by
  cases hother : y.isLeaf with
  | false =>
    rw [(equivalent_leaf_interior hleaf hother).1]
    cases x <;> cases y <;>
      first | rfl | exact absurd hleaf Bool.false_ne_true |
        exact absurd hother.symm Bool.false_ne_true
  | true =>
    rw [← equivalentLeaves_eq hx hy hleaf hother]
    cases x <;> cases y <;>
      first | rfl | exact absurd hleaf Bool.false_ne_true | exact absurd hother Bool.false_ne_true

/-- Equivalent nodes have the same hash value. -/
def HashesAgree (O : Objects) : Prop :=
  ∀ x ∈ O.nodes, ∀ y ∈ O.nodes, x.equivalent y = true → x.hash = y.hash

mutual

/-- The memoised comparison finds out whether the nodes are equivalent, and keeps the caches
valid. -/
theorem isEquivalentHelper_spec (hh : HashesAgree O) :
    ∀ x y s, x ∈ O.nodes → y ∈ O.nodes → CacheValid O s →
      ∃ s', x.isEquivalentHelper y s = some (x.equivalent y, s') ∧ CacheValid O s'
  | constant a t f b, y, s, hx, hy, hs => ⟨s, isEquivalentHelper_leaf hx hy rfl s, hs⟩
  | var a t f n, y, s, hx, hy, hs => ⟨s, isEquivalentHelper_leaf hx hy rfl s, hs⟩
  | interior a t f op cs, y, s, hx, hy, hs => by
    by_cases hleaf : y.isLeaf = true
    · refine ⟨s, ?_, hs⟩
      rw [(equivalent_leaf_interior hleaf rfl).2]
      cases y with
      | interior => cases hleaf
      | constant => rfl
      | var => rfl
    cases y with
    | constant => exact absurd rfl hleaf
    | var => exact absurd rfl hleaf
    | interior a' t' f' op' cs' =>
      rw [isEquivalentHelper]
      by_cases ha : a = a'
      · rw [← O.eq_of_address hx hy ha, equivalent_self, if_pos ha]
        exact ⟨s, rfl, hs⟩
      rw [if_neg ha]
      have hparts : (interior a t f op cs).equivalent (interior a' t' f' op' cs') = true ↔
          t = t' ∧ f = f' ∧ op = op' ∧ equivalentAll cs cs' = true := by
        simp [equivalent, and_assoc]
      by_cases htype : t ≠ t' ∨ f ≠ f'
      · refine ⟨s, ?_, hs⟩
        have hno : (interior a t f op cs).equivalent (interior a' t' f' op' cs') ≠ true :=
          fun h => htype.elim (fun hne => hne (hparts.mp h).1) fun hne => hne (hparts.mp h).2.1
        rw [if_pos htype, Bool.eq_false_of_not_eq_true hno]
      rw [if_neg htype]
      by_cases hhash : s.hashval a ≠ 0 ∧ s.hashval a' ≠ 0 ∧ s.hashval a ≠ s.hashval a'
      · refine ⟨s, ?_, hs⟩
        have hno : (interior a t f op cs).equivalent (interior a' t' f' op' cs') ≠ true := by
          intro h
          obtain ⟨ha0, ha0', hne⟩ := hhash
          have hxhash := (hs.hash _ hx).resolve_left ha0
          have hyhash := (hs.hash _ hy).resolve_left ha0'
          exact hne (hxhash.trans ((hh _ hx _ hy h).trans hyhash.symm))
        rw [if_pos hhash, Bool.eq_false_of_not_eq_true hno]
      rw [if_neg hhash]
      by_cases hop : op ≠ op' ∨ cs.length ≠ cs'.length
      · refine ⟨s, ?_, hs⟩
        have hno : (interior a t f op cs).equivalent (interior a' t' f' op' cs') ≠ true :=
          fun h => hop.elim (fun hne => hne (hparts.mp h).2.2.1)
            fun hne => hne (length_eq_of_equivalentAll (hparts.mp h).2.2.2)
        rw [if_pos hop, Bool.eq_false_of_not_eq_true hno]
      rw [if_neg hop]
      cases hfind : ((s.matched a).getD []).find? (·.1 == a') with
      | some p => exact ⟨s, by rw [← hs.find hx hy hfind], hs⟩
      | none =>
        push Not at htype hop
        obtain ⟨s1, hchildren, hs1⟩ := allEquivalent_spec hh cs cs' s (O.children_mem hx)
          (O.children_mem hy) hop.2 hs
        have hsame : (interior a t f op cs).equivalent (interior a' t' f' op' cs') =
            equivalentAll cs cs' := by
          rw [Bool.eq_iff_iff, hparts]
          exact ⟨fun h => h.2.2.2, fun h => ⟨htype.1, htype.2, hop.1, h⟩⟩
        rw [hchildren, hsame]
        cases hretval : equivalentAll cs cs' with
        | false =>
          have hremember := hs1.remember hx hy
          rw [hsame, hretval] at hremember
          exact ⟨_, rfl, hremember⟩
        | true =>
          obtain ⟨s2, hshare, hs2⟩ := hs1.shareHash hx hy (hh _ hx _ hy (hsame.trans hretval))
          have hremember := hs2.remember hx hy
          rw [hsame, hretval] at hremember
          refine ⟨s2.remember a a' true, ?_, hremember⟩
          simp only [address] at hshare
          simp [hshare]

theorem allEquivalent_spec (hh : HashesAgree O) :
    ∀ (cs cs' : List NodeObject) s, (∀ c ∈ cs, c ∈ O.nodes) → (∀ c ∈ cs', c ∈ O.nodes) →
      cs.length = cs'.length → CacheValid O s →
      ∃ s', allEquivalent cs cs' s = some (equivalentAll cs cs', s') ∧ CacheValid O s'
  | [], [], s, _, _, _, hs => ⟨s, rfl, hs⟩
  | c :: cs, c' :: cs', s, hcs, hcs', hlen, hs => by
    obtain ⟨s1, hfirst, hs1⟩ := isEquivalentHelper_spec hh c c' s (hcs c List.mem_cons_self)
      (hcs' c' List.mem_cons_self) hs
    obtain ⟨s2, hrest, hs2⟩ := allEquivalent_spec hh cs cs' s1
      (fun c hc => hcs c (List.mem_cons_of_mem _ hc))
      (fun c hc => hcs' c (List.mem_cons_of_mem _ hc)) (Nat.succ.inj hlen) hs1
    rw [allEquivalent, hfirst, equivalentAll]
    cases c.equivalent c' with
    | true => exact ⟨s2, hrest, hs2⟩
    | false => exact ⟨s1, rfl, hs1⟩

end

/-- The memory of a scalar type has no width. -/
theorem isMemory_eq_false (t : ScalarType) : t.isMemory = false := by
  have hscalar := t.isScalar
  simp only [ExprType.isInteger, ExprType.isFloatingPoint, ExprType.isMemory, Bool.or_eq_true,
    beq_iff_eq, beq_eq_false_iff_ne] at hscalar ⊢
  omega

theorem hashConstant_eq {t t' : ScalarType} (hbits : t.nBits = t'.nBits)
    (hinteger : t.isInteger = t'.isInteger) (f b : Nat) :
    hashConstant t.toExprType f b = hashConstant t'.toExprType f b := by
  simp only [hashConstant, startHash, isMemory_eq_false, hbits, hinteger, Bool.false_eq_true,
    if_false]

theorem hashConstant_eq_hashBits {t : ExprType} {b : Nat} (hpos : 0 < t.nBits)
    (hlt : b < 2 ^ t.nBits) (f : Nat) :
    hashConstant t f b = hashBits t.nBits b (startHash t f) := by
  rw [hashConstant]
  split
  next hshort =>
    have hle : t.nBits ≤ 64 := of_decide_eq_true (Bool.and_eq_true_iff.mp hshort).2
    have hchunks : (t.nBits + 63) / 64 = 1 := by omega
    have hsmall : b < 2 ^ 64 := hlt.trans_le (Nat.pow_le_pow_right (by omega) hle)
    rw [hashBits, hchunks]
    simp only [List.range_one, List.foldl_cons, List.foldl_nil, Nat.mul_zero, Nat.pow_zero,
      Nat.div_one]
    rw [Nat.mod_eq_of_lt hsmall]
  next => rfl

/-- Equivalent leaves have the same hash value if constants and variables do. -/
theorem hash_leaf_eq {x y : NodeObject} (hleaf : x.isLeaf = true) (h : x.equivalent y = true)
    (hconst : ∀ a t f b a' t', x = constant a t f b → y = constant a' t' f b →
      t.nBits = t'.nBits → hashConstant t.toExprType f b = hashConstant t'.toExprType f b)
    (hvar : ∀ a t f n a' t', x = var a t f n → y = var a' t' f n → t.nBits = t'.nBits → t = t') :
    x.hash = y.hash := by
  cases hother : y.isLeaf with
  | false =>
    rw [(equivalent_leaf_interior hleaf hother).1] at h
    cases h
  | true =>
    rw [equivalent_leaves hleaf hother, sameLeaf] at h
    simp only [Bool.and_eq_true, beq_iff_eq] at h
    obtain ⟨⟨hbits, hflags⟩, ⟨hkind, hb⟩, hname⟩ := h
    cases x with
    | interior => cases hleaf
    | constant a t f b =>
      cases y with
      | interior => cases hother
      | var => cases hkind
      | constant a' t' f' b' =>
        obtain rfl : f = f' := hflags
        obtain rfl : b = b' := hb
        exact hconst a t f b a' t' rfl rfl hbits
    | var a t f n =>
      cases y with
      | interior => cases hother
      | constant => cases hkind
      | var a' t' f' n' =>
        obtain rfl : f = f' := hflags
        obtain rfl : n = n' := hname
        rw [NodeObject.hash, NodeObject.hash, hvar a t f n a' t' rfl rfl hbits]

/-- Nodes with their children, of which equivalent leaves have the same hash value. -/
structure LeavesAgree (P : NodeObject → Prop) : Prop where
  child : ∀ {a t f op cs}, P (interior a t f op cs) → ∀ c ∈ cs, P c
  hash : ∀ x y, P x → P y → x.isLeaf = true → x.equivalent y = true → x.hash = y.hash

section

variable {P : NodeObject → Prop}

mutual

theorem hash_eq_of_equivalent (hP : LeavesAgree P) : ∀ x y, P x → P y → x.equivalent y = true →
    x.hash = y.hash
  | constant a t f b, y, hx, hy, h => hP.hash _ y hx hy rfl h
  | var a t f n, y, hx, hy, h => hP.hash _ y hx hy rfl h
  | interior a t f op cs, y, hx, hy, h => by
    cases y with
    | constant => cases h
    | var => cases h
    | interior a' t' f' op' cs' =>
      simp only [equivalent, Bool.and_eq_true, beq_iff_eq] at h
      obtain ⟨⟨⟨rfl, rfl⟩, rfl⟩, hcs⟩ := h
      rw [NodeObject.hash, NodeObject.hash,
        hashChildren_eq_of_equivalent hP cs cs' (hP.child hx) (hP.child hy) hcs]

theorem hashChildren_eq_of_equivalent (hP : LeavesAgree P) : ∀ cs cs' : List NodeObject,
    (∀ c ∈ cs, P c) → (∀ c ∈ cs', P c) → equivalentAll cs cs' = true →
    ∀ h, hashChildren cs h = hashChildren cs' h
  | [], [], _, _, _, h => rfl
  | c :: cs, c' :: cs', hcs, hcs', hequivalent, h => by
    rw [equivalentAll, Bool.and_eq_true] at hequivalent
    rw [hashChildren, hashChildren, hash_eq_of_equivalent hP c c' (hcs c List.mem_cons_self)
      (hcs' c' List.mem_cons_self) hequivalent.1]
    exact hashChildren_eq_of_equivalent hP cs cs' (fun c hc => hcs c (List.mem_cons_of_mem _ hc))
      (fun c hc => hcs' c (List.mem_cons_of_mem _ hc)) hequivalent.2 _

end

end

theorem hashesAgree_of_leaves (h : ∀ x ∈ O.nodes, ∀ y ∈ O.nodes, x.isLeaf = true →
    x.equivalent y = true → x.hash = y.hash) : HashesAgree O :=
  fun x hx y hy =>
    hash_eq_of_equivalent ⟨O.children_mem, fun x y hx hy => h x hx y hy⟩ x y hx hy

/-- What caching keeps: valid values stay valid, and what is cached stays so. -/
structure HashStep (O : Objects) (hashval hashval' : Nat → Nat) : Prop where
  valid : ∀ z ∈ O.nodes, hashval' z.address = 0 ∨ hashval' z.address = z.hash
  keeps : ∀ z ∈ O.nodes, hashval z.address = z.hash → hashval' z.address = z.hash

theorem HashStep.update {hashval hashval' : Nat → Nat} (h : HashStep O hashval hashval')
    {x : NodeObject} (hx : x ∈ O.nodes) :
    HashStep O hashval (Function.update hashval' x.address x.hash) where
  valid := fun z hz => by
    by_cases hzx : z.address = x.address
    · obtain rfl := O.eq_of_address hz hx hzx
      exact Or.inr (Function.update_self ..)
    · rw [Function.update_of_ne hzx]
      exact h.valid z hz
  keeps := fun z hz hcached => by
    by_cases hzx : z.address = x.address
    · obtain rfl := O.eq_of_address hz hx hzx
      exact Function.update_self ..
    · rw [Function.update_of_ne hzx]
      exact h.keeps z hz hcached

theorem hashChildren_eq_foldl (cs : List NodeObject) (h : Nat) :
    hashChildren cs h = (cs.map hash).foldl mixHash h := by
  induction cs generalizing h with
  | nil => rfl
  | cons c cs ih => rw [hashChildren, ih, List.map_cons, List.foldl_cons]

mutual

theorem cacheHash_spec : ∀ x, x ∈ O.nodes → ∀ hashval : Nat → Nat,
    (∀ z ∈ O.nodes, hashval z.address = 0 ∨ hashval z.address = z.hash) →
    HashStep O hashval (x.cacheHash hashval) ∧ x.cacheHash hashval x.address = x.hash
  | constant a t f b, hx, hashval, hvalid => by
    by_cases ha : hashval a ≠ 0
    · rw [cacheHash, if_pos ha]
      exact ⟨⟨hvalid, fun _ _ h => h⟩, (hvalid _ hx).resolve_left ha⟩
    · rw [cacheHash, if_neg ha]
      exact ⟨HashStep.update ⟨hvalid, fun _ _ h => h⟩ hx, Function.update_self ..⟩
  | var a t f n, hx, hashval, hvalid => by
    by_cases ha : hashval a ≠ 0
    · rw [cacheHash, if_pos ha]
      exact ⟨⟨hvalid, fun _ _ h => h⟩, (hvalid _ hx).resolve_left ha⟩
    · rw [cacheHash, if_neg ha]
      exact ⟨HashStep.update ⟨hvalid, fun _ _ h => h⟩ hx, Function.update_self ..⟩
  | interior a t f op cs, hx, hashval, hvalid => by
    by_cases ha : hashval a ≠ 0
    · rw [cacheHash, if_pos ha]
      exact ⟨⟨hvalid, fun _ _ h => h⟩, (hvalid _ hx).resolve_left ha⟩
    · obtain ⟨hstep, hcached⟩ := cacheChildren_spec cs (O.children_mem hx) hashval hvalid
      have hmap : (cs.map fun c => cacheChildren cs hashval c.address) = cs.map hash :=
        List.map_congr_left hcached
      have hcombined := HashStep.update hstep hx
      rw [hash, hashChildren_eq_foldl, ← hmap] at hcombined ⊢
      rw [cacheHash, if_neg ha]
      exact ⟨hcombined, Function.update_self ..⟩

theorem cacheChildren_spec : ∀ cs : List NodeObject, (∀ c ∈ cs, c ∈ O.nodes) →
    ∀ hashval : Nat → Nat,
    (∀ z ∈ O.nodes, hashval z.address = 0 ∨ hashval z.address = z.hash) →
    HashStep O hashval (cacheChildren cs hashval) ∧
      ∀ c ∈ cs, cacheChildren cs hashval c.address = c.hash
  | [], _, hashval, hvalid => ⟨⟨hvalid, fun _ _ h => h⟩, fun c hc => absurd hc List.not_mem_nil⟩
  | c :: cs, hcs, hashval, hvalid => by
    have hc := hcs c List.mem_cons_self
    obtain ⟨hstep, hcached⟩ := cacheHash_spec c hc hashval hvalid
    obtain ⟨hrest, hall⟩ := cacheChildren_spec cs (fun c hc => hcs c (List.mem_cons_of_mem _ hc))
      (c.cacheHash hashval) hstep.valid
    refine ⟨⟨hrest.valid, fun z hz h => hrest.keeps z hz (hstep.keeps z hz h)⟩, fun c' hc' => ?_⟩
    obtain rfl | hc' := List.mem_cons.mp hc'
    · exact hrest.keeps c' hc hcached
    · exact hall c' hc'

end

/-- Where equivalent nodes have the same hash value, all caches stay valid. -/
theorem caches_valid (hh : HashesAgree O) {hashval : Nat → Nat} (h : O.Caches hashval) :
    ∀ z ∈ O.nodes, hashval z.address = 0 ∨ hashval z.address = z.hash := by
  induction h with
  | empty => exact fun z _ => Or.inl rfl
  | hash _ hx ih => exact (cacheHash_spec _ hx _ ih).1.valid
  | @compare hashval x y r hashval' _ hx hy hrun ih =>
    have hs : CacheValid O ⟨hashval, fun _ => none⟩ := ⟨ih, fun _ _ _ _ _ _ h => by cases h⟩
    obtain ⟨s', hspec, hs'⟩ := isEquivalentHelper_spec hh x y _ hx hy hs
    rw [isEquivalentTo, hspec] at hrun
    cases hrun
    exact hs'.hash

/-- Whatever is cached, the comparison finds out whether nodes are equivalent. -/
theorem isEquivalentTo_spec (hh : HashesAgree O) {hashval : Nat → Nat} (h : O.Caches hashval)
    {x y : NodeObject} (hx : x ∈ O.nodes) (hy : y ∈ O.nodes) :
    ∃ hashval', x.isEquivalentTo y hashval = some (x.equivalent y, hashval') := by
  have hs : CacheValid O ⟨hashval, fun _ => none⟩ :=
    ⟨caches_valid hh h, fun _ _ _ _ _ _ hnone => by cases hnone⟩
  obtain ⟨s', hspec, -⟩ := isEquivalentHelper_spec hh x y _ hx hy hs
  exact ⟨s'.hashval, by rw [isEquivalentTo, hspec]; rfl⟩

end

end NodeObject

end LoomX.Symbolic
