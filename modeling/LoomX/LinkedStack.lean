import Mathlib.Logic.Function.Basic
import Mathlib.Data.List.Basic

namespace LoomX.LinkedStack

/-- A node of a doubly linked list. -/
structure Node (α : Type) where
  value : α
  parent : Option Nat
  child : Option Nat

/-- A doubly linked list that grows and shrinks at its tail, with the addresses of its nodes. -/
structure Links (α : Type) where
  nodes : Nat → Option (Node α)
  fresh : Nat
  head : Option Nat
  tail : Option Nat

namespace Links

variable {α : Type}

def empty : Links α := ⟨fun _ => none, 0, none, none⟩

/-- A new node behind the tail. -/
def append (s : Links α) (value : α) : Option (Links α) :=
  match s.tail with
  | none =>
    if s.head = none then
      some ⟨Function.update s.nodes s.fresh (some ⟨value, none, none⟩), s.fresh + 1, some s.fresh,
        some s.fresh⟩
    else none
  | some t => do
    let last ← s.nodes t
    let linked := Function.update s.nodes t (some { last with child := some s.fresh })
    some ⟨Function.update linked s.fresh (some ⟨value, some t, none⟩), s.fresh + 1, s.head,
      some s.fresh⟩

/-- What the tail holds. -/
def last (s : Links α) : Option α := do
  let t ← s.tail
  let node ← s.nodes t
  some node.value

def setLast (s : Links α) (value : α) : Option (Links α) := do
  let t ← s.tail
  let node ← s.nodes t
  some { s with nodes := Function.update s.nodes t (some { node with value := value }) }

/-- The tail is freed and its parent becomes the tail. -/
def dropLast (s : Links α) : Option (Links α) := do
  let t ← s.tail
  let node ← s.nodes t
  let freed := Function.update s.nodes t none
  match node.parent with
  | none => some { s with nodes := freed, head := none, tail := none }
  | some p => do
    let parent ← s.nodes p
    if parent.child = some t then
      some { s with
        nodes := Function.update freed p (some { parent with child := none }), tail := some p }
    else none

/-- The nodes from `r` along the parents, with their addresses. -/
def walk (nodes : Nat → Option (Node α)) : Nat → Option Nat → List (Nat × α)
  | 0, _ => []
  | _, none => []
  | fuel + 1, some r =>
    match nodes r with
    | none => []
    | some node => (r, node.value) :: walk nodes fuel node.parent

/-- The list from its tail to its head. -/
def toList (s : Links α) : List (Nat × α) := walk s.nodes s.fresh s.tail

/-- The nodes of a list are linked both ways, the ones nearer to the head at lower addresses. -/
def Chain (nodes : Nat → Option (Node α)) : Nat → Option Nat → Option Nat → List (Nat × α) → Prop
  | _, t, _, [] => t = none
  | bound, t, child, (r, a) :: l => t = some r ∧ r < bound ∧
    ∃ parent, nodes r = some ⟨a, parent, child⟩ ∧ Chain nodes r parent (some r) l

def Holds (s : Links α) (l : List (Nat × α)) : Prop :=
  Chain s.nodes s.fresh s.tail none l ∧ s.head = l.getLast?.map Prod.fst

variable {nodes : Nat → Option (Node α)} {bound fuel r : Nat} {t child : Option Nat}
  {l : List (Nat × α)} {a b : α} {s : Links α}

theorem chain_update (h : Chain nodes bound t child l) (hr : bound ≤ r) {x : Option (Node α)} :
    Chain (Function.update nodes r x) bound t child l := by
  induction l generalizing bound t child with
  | nil => exact h
  | cons e l ih =>
    obtain ⟨ht, hlt, parent, hnode, hrest⟩ := h
    refine ⟨ht, hlt, parent, ?_, ih hrest (by omega)⟩
    rw [Function.update_of_ne (by omega)]
    exact hnode

theorem walk_eq (h : Chain nodes bound t child l) (hle : bound ≤ fuel) :
    walk nodes fuel t = l := by
  induction l generalizing bound t child fuel with
  | nil =>
    obtain rfl : t = none := h
    cases fuel <;> rfl
  | cons e l ih =>
    obtain ⟨rfl, hlt, parent, hnode, hrest⟩ := h
    obtain ⟨fuel, rfl⟩ := Nat.exists_eq_add_one_of_ne_zero (by omega : fuel ≠ 0)
    simp only [walk, hnode]
    rw [ih hrest (by omega)]

theorem toList_eq (h : s.Holds l) : s.toList = l := walk_eq h.1 (Nat.le_refl _)

theorem holds_empty : (empty : Links α).Holds [] := ⟨rfl, rfl⟩

theorem append_holds (h : s.Holds l) :
    ∃ s', s.append a = some s' ∧ s'.Holds ((s.fresh, a) :: l) := by
  obtain ⟨hchain, hhead⟩ := h
  cases l with
  | nil =>
    have htail : s.tail = none := hchain
    have hhead' : s.head = none := hhead
    simp only [append, htail, hhead', if_true]
    refine ⟨_, rfl, ⟨rfl, Nat.lt_succ_self _, none, ?_, rfl⟩, rfl⟩
    exact Function.update_self ..
  | cons e l =>
    obtain ⟨ht, hlt, parent, hnode, hrest⟩ := hchain
    simp only [append, ht, hnode, Option.bind_eq_bind, Option.bind_some]
    have hkept : Chain (Function.update s.nodes e.1 (some ⟨e.2, parent, some s.fresh⟩)) s.fresh
        (some e.1) (some s.fresh) (e :: l) :=
      ⟨rfl, hlt, parent, Function.update_self .., chain_update hrest (Nat.le_refl _)⟩
    refine ⟨_, rfl, ⟨rfl, Nat.lt_succ_self _, some e.1, Function.update_self .., ?_⟩, ?_⟩
    · exact chain_update hkept (Nat.le_refl _)
    · rw [List.getLast?_cons_cons]
      exact hhead

theorem last_eq (h : s.Holds ((r, a) :: l)) : s.last = some a := by
  obtain ⟨⟨ht, -, parent, hnode, -⟩, -⟩ := h
  simp only [last, ht, hnode, Option.bind_eq_bind, Option.bind_some]

theorem last_nil (h : s.Holds []) : s.last = none := by
  have htail : s.tail = none := h.1
  simp only [last, htail, Option.bind_eq_bind, Option.bind_none]

theorem setLast_holds (h : s.Holds ((r, a) :: l)) :
    ∃ s', s.setLast b = some s' ∧ s'.Holds ((r, b) :: l) := by
  obtain ⟨⟨ht, hlt, parent, hnode, hrest⟩, hhead⟩ := h
  simp only [setLast, ht, hnode, Option.bind_eq_bind, Option.bind_some]
  refine ⟨_, rfl, ⟨rfl, hlt, parent, Function.update_self .., ?_⟩, ?_⟩
  · exact chain_update hrest (Nat.le_refl _)
  · rw [hhead]
    cases l <;> simp [List.getLast?_cons]

theorem dropLast_holds (h : s.Holds ((r, a) :: l)) : ∃ s', s.dropLast = some s' ∧ s'.Holds l := by
  obtain ⟨⟨ht, hlt, parent, hnode, hrest⟩, hhead⟩ := h
  simp only [dropLast, ht, hnode, Option.bind_eq_bind, Option.bind_some]
  cases l with
  | nil =>
    obtain rfl : parent = none := hrest
    exact ⟨_, rfl, rfl, rfl⟩
  | cons e l =>
    obtain ⟨rfl, hlt', parent, hnode', hrest'⟩ := hrest
    simp only [hnode', Option.bind_some, if_true]
    refine ⟨_, rfl, ⟨rfl, Nat.lt_trans hlt' hlt, parent, Function.update_self .., ?_⟩, ?_⟩
    · exact chain_update (chain_update hrest' (Nat.le_of_lt hlt')) (Nat.le_refl _)
    · rw [List.getLast?_cons_cons] at hhead
      exact hhead

end Links

end LoomX.LinkedStack
