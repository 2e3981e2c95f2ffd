import LoomX.Syntax
import LoomX.TreeRewriting
import Mathlib.Algebra.BigOperators.Group.List.Basic
import Mathlib.Tactic.Ring

namespace LoomX

/-- The classes of nodes that `linearizeSubscripts` looks at or builds; any other node of a
kernel body goes by its name. -/
inductive SgKind
  | varRefExp (v : Var)
  | pntrArrRefExp
  | castExp (type : CType)
  | intVal (n : Int)
  | addOp (type : CType)
  | multiplyOp (type : CType)
  | other (name : String)
  deriving DecidableEq

abbrev SgNode := Tree SgKind

namespace SgNode

open LoomX.Tree SgKind

def skipCasts : SgNode → SgNode
  | node (castExp _) [e] => skipCasts e
  | e => e

/-- The left operand under a chain of references. -/
def base : SgNode → SgNode
  | node pntrArrRefExp [lhs, _] => base lhs
  | e => e

/-- The subscripts of a chain of references, the one of the last dimension first. -/
def indices : SgNode → List SgNode
  | node pntrArrRefExp [lhs, rhs] => rhs :: indices lhs
  | _ => []

def varRef (v : Var) : SgNode := node (varRefExp v) []

def arrRef (lhs rhs : SgNode) : SgNode := node pntrArrRefExp [lhs, rhs]

/-- A subscript multiplied with the dimensions after its own. -/
def term (index : SgNode) (strides : List Nat) : SgNode :=
  strides.foldl (fun t (stride : Nat) => node (multiplyOp .int) [t, node (intVal stride) []]) index

def flat : List SgNode → List Nat → Option SgNode → Option SgNode
  | index :: indices, _ :: dims, none => flat indices dims (some (term index dims))
  | index :: indices, _ :: dims, some sum =>
    flat indices dims (some (node (addOp .int) [sum, term index dims]))
  | _, _, sum => sum

/-- Only the outermost reference of a chain: its parent is not a reference. -/
def isTop (parent : Option SgKind) (kind : SgKind) : Bool :=
  kind == pntrArrRefExp && parent != some pntrArrRefExp

end SgNode

/-- The arrays of a kernel: what `arrayDims` gives for a variable, nothing if that fails, and
the arrays that are passed to the kernel. -/
structure KernelArrays where
  dims : Var → List Nat
  arrayVars : List Var

namespace KernelArrays

open LoomX.Tree SgKind SgNode

/-- The flat reference that a reference is replaced by. -/
def flatReference (K : KernelArrays) (top : SgNode) : Option SgNode :=
  match (base top).skipCasts with
  | node (varRefExp v) _ =>
    let dims := K.dims v
    let indices := (SgNode.indices top).reverse
    if dims.length < 2 then none
    else if indices.length ≠ dims.length then none
    else (flat indices dims none).map (arrRef (varRef v))
  | _ => none

def linearizeSubscripts (K : KernelArrays) (body : SgNode) : SgNode :=
  if K.arrayVars.isEmpty then body
  else rewriteAll K.flatReference (chosen isTop none body) body

end KernelArrays

inductive Place
  | scalar (v : Var)
  | element (v : Var) (offset : Int)
  deriving DecidableEq

/-- What an expression of a kernel body stands for: a number, a variable or an array element
that may be read or written, or a part of an array that has some dimensions left. -/
inductive Value
  | int (n : Int)
  | place (p : Place)
  | row (v : Var) (extents : List Nat) (offset : Int)
  deriving DecidableEq

abbrev Evaluation (σ : Type) := σ → Option (Value × σ)

/-- What a place holds as a number, and the meaning of all nodes that are no array
references. -/
structure Meaning (σ : Type) where
  load : Place → σ → Int
  apply : SgKind → List (Evaluation σ) → Evaluation σ

/-- The row-major index of an element. -/
def rowMajor : List Nat → List Int → Int
  | _ :: dims, k :: ks => k * (dims.prod : Nat) + rowMajor dims ks
  | _, _ => 0

/-- The part of an array that one more subscript selects. -/
def Value.subscript (v : Var) (extents : List Nat) (offset k : Int) : Value :=
  match extents with
  | _ :: d :: dims => .row v (d :: dims) (offset + k * ((d :: dims).prod : Nat))
  | _ => .place (.element v (offset + k))

namespace Meaning

variable {σ : Type}

def operand (M : Meaning σ) (d : Evaluation σ) (s : σ) : Option (Int × σ) :=
  (d s).bind fun r =>
    match r.1 with
    | .int n => some (n, r.2)
    | .place p => some (M.load p r.2, r.2)
    | .row _ _ _ => none

def operands (M : Meaning σ) : List (Evaluation σ) → σ → Option (List Int × σ)
  | [], s => some ([], s)
  | d :: ds, s => (M.operand d s).bind fun k =>
    (M.operands ds k.2).map fun ks => (k.1 :: ks.1, ks.2)

/-- The mathematical result: the sums and products of a rewritten index do not overflow. -/
def arithmetic (M : Meaning σ) (op : Int → Int → Int) (a b : Evaluation σ) : Evaluation σ :=
  fun s => (M.operand a s).bind fun m =>
    (M.operand b m.2).map fun n => (.int (op m.1 n.1), n.2)

/-- The meaning of a node in terms of its children, for arrays with these dimensions. -/
def ofNode (M : Meaning σ) (dims : Var → List Nat) :
    SgKind → List (Evaluation σ) → Evaluation σ
  | .varRefExp v, _ => fun s =>
    some (if dims v = [] then .place (.scalar v) else .row v (dims v) 0, s)
  | .intVal n, _ => fun s => some (.int n, s)
  | .pntrArrRefExp, [b, i] => fun s =>
    (b s).bind fun r =>
      match r.1 with
      | .row v extents offset =>
        (M.operand i r.2).map fun k => (.subscript v extents offset k.1, k.2)
      | _ => M.apply .pntrArrRefExp [b, i] s
  | .addOp (.integer _ _), [a, b] => M.arithmetic (· + ·) a b
  | .multiplyOp (.integer _ _), [a, b] => M.arithmetic (· * ·) a b
  | kind, ds => M.apply kind ds

mutual

def evaluate (M : Meaning σ) (dims : Var → List Nat) : SgNode → Evaluation σ
  | .node kind children => M.ofNode dims kind (M.evaluateEach dims children)

def evaluateEach (M : Meaning σ) (dims : Var → List Nat) : List SgNode → List (Evaluation σ)
  | [] => []
  | t :: ts => M.evaluate dims t :: M.evaluateEach dims ts

end

theorem evaluateEach_eq_map (M : Meaning σ) (dims : Var → List Nat) (ts : List SgNode) :
    M.evaluateEach dims ts = ts.map (M.evaluate dims) := by
  induction ts with
  | nil => rfl
  | cons t ts ih => rw [evaluateEach, ih, List.map_cons]

variable {M : Meaning σ} {dims : Var → List Nat}

theorem evaluate_arrRef (dims : Var → List Nat) (b i : SgNode) (s : σ) :
    M.evaluate dims (SgNode.arrRef b i) s = (M.evaluate dims b s).bind fun r =>
      match r.1 with
      | .row v extents offset =>
        (M.operand (M.evaluate dims i) r.2).map fun k => (.subscript v extents offset k.1, k.2)
      | _ => M.apply .pntrArrRefExp [M.evaluate dims b, M.evaluate dims i] s := rfl

theorem operand_arithmetic (op : Int → Int → Int) (a b : Evaluation σ) (s : σ) :
    M.operand (M.arithmetic op a b) s = (M.operand a s).bind fun m =>
      (M.operand b m.2).map fun n => (op m.1 n.1, n.2) := by
  rw [operand]
  simp only [arithmetic]
  cases M.operand a s with
  | none => rfl
  | some m =>
    simp only [Option.bind_some]
    cases M.operand b m.2 with
    | none => rfl
    | some n => rfl

end Meaning

namespace SgNode

open Meaning

variable {σ : Type} {M : Meaning σ} {dims : Var → List Nat}

def chain (b : SgNode) (subscripts : List SgNode) : SgNode := subscripts.foldl arrRef b

theorem evaluate_chain_none {b : SgNode} {s : σ} (h : M.evaluate dims b s = none)
    (subscripts : List SgNode) : M.evaluate dims (chain b subscripts) s = none := by
  induction subscripts generalizing b with
  | nil => exact h
  | cons i rest ih =>
    apply ih
    rw [evaluate_arrRef, h, Option.bind_none]

/-- As many subscripts as dimensions select the element with the row-major index. -/
theorem evaluate_chain {b : SgNode} {s s' : σ} {v : Var} {extents : List Nat} {offset : Int}
    (h : M.evaluate dims b s = some (.row v extents offset, s')) {subscripts : List SgNode}
    (hlen : subscripts.length = extents.length) (hne : extents ≠ []) :
    M.evaluate dims (chain b subscripts) s =
      (M.operands (subscripts.map (M.evaluate dims)) s').map fun ks =>
        (.place (.element v (offset + rowMajor extents ks.1)), ks.2) := by
  induction subscripts generalizing b s' extents offset with
  | nil =>
    rw [List.length_nil] at hlen
    exact absurd (List.eq_nil_of_length_eq_zero hlen.symm) hne
  | cons i rest ih =>
    obtain ⟨d, extents, rfl⟩ := List.exists_cons_of_ne_nil hne
    have hnext := evaluate_arrRef (M := M) dims b i s
    rw [h, Option.bind_some] at hnext
    simp only [List.map_cons, operands]
    cases hk : M.operand (M.evaluate dims i) s' with
    | none =>
      rw [hk] at hnext
      exact evaluate_chain_none hnext rest
    | some k =>
      simp only [hk, Option.map_some] at hnext
      rw [Option.bind_some]
      cases extents with
      | nil =>
        have hrest : rest = [] := by simpa using hlen
        subst hrest
        simpa [chain, operands, rowMajor, Value.subscript] using hnext
      | cons e extents =>
        have hlen' : rest.length = (e :: extents).length := by
          simpa using hlen
        have hrest := ih hnext hlen' (List.cons_ne_nil e extents)
        rw [chain, List.foldl_cons]
        rw [chain] at hrest
        rw [hrest, Option.map_map]
        congr 1
        funext ks
        simp [rowMajor, Int.add_assoc]

theorem operand_term (index : SgNode) (strides : List Nat) (s : σ) :
    M.operand (M.evaluate dims (term index strides)) s =
      (M.operand (M.evaluate dims index) s).map fun k =>
        (k.1 * ((strides.prod : Nat) : Int), k.2) := by
  induction strides generalizing index with
  | nil => simp [term]
  | cons stride strides ih =>
    have hmul : M.operand (M.evaluate dims
        (Tree.node (.multiplyOp .int) [index, Tree.node (.intVal stride) []])) s =
        (M.operand (M.evaluate dims index) s).map fun k => (k.1 * (stride : Int), k.2) := by
      have heval : M.evaluate dims
          (Tree.node (.multiplyOp .int) [index, Tree.node (.intVal stride) []]) =
          M.arithmetic (· * ·) (M.evaluate dims index) fun s => some (.int stride, s) := rfl
      rw [heval, operand_arithmetic]
      cases M.operand (M.evaluate dims index) s with
      | none => rfl
      | some k => rfl
    have hnext := ih (Tree.node (.multiplyOp .int) [index, Tree.node (.intVal stride) []])
    rw [term] at hnext
    rw [term, List.foldl_cons, hnext, hmul, Option.map_map]
    congr 1
    funext k
    simp [Int.mul_assoc]

/-- The sum of the terms is the row-major index. -/
theorem operand_flat (sum : SgNode) {subscripts : List SgNode} {extents : List Nat} (s : σ)
    (hlen : subscripts.length = extents.length) :
    ∃ f, flat subscripts extents (some sum) = some f ∧
      M.operand (M.evaluate dims f) s = (M.operand (M.evaluate dims sum) s).bind fun x =>
        (M.operands (subscripts.map (M.evaluate dims)) x.2).map fun ks =>
          (x.1 + rowMajor extents ks.1, ks.2) := by
  induction subscripts generalizing sum extents with
  | nil =>
    refine ⟨sum, by simp [flat], ?_⟩
    cases M.operand (M.evaluate dims sum) s with
    | none => rfl
    | some x => simp [operands, rowMajor]
  | cons i rest ih =>
    cases extents with
    | nil => simp at hlen
    | cons d extents =>
      obtain ⟨f, hf, heval⟩ := ih (Tree.node (.addOp .int) [sum, term i extents])
        (Nat.succ.inj hlen)
      refine ⟨f, by rw [flat, hf], ?_⟩
      have hadd : M.operand (M.evaluate dims
          (Tree.node (.addOp .int) [sum, term i extents])) s =
          (M.operand (M.evaluate dims sum) s).bind fun m =>
            (M.operand (M.evaluate dims (term i extents)) m.2).map fun n =>
              (m.1 + n.1, n.2) := by
        exact operand_arithmetic (· + ·) _ _ s
      rw [heval, hadd]
      cases M.operand (M.evaluate dims sum) s with
      | none => rfl
      | some x =>
        simp only [Option.bind_some, operand_term, List.map_cons, operands]
        cases M.operand (M.evaluate dims i) x.2 with
        | none => rfl
        | some k =>
          simp only [Option.map_some, Option.bind_some, Option.map_map]
          congr 1
          funext ks
          simp [rowMajor, Int.add_assoc]

theorem operand_flat_none (dims : Var → List Nat) (i : SgNode) (d : Nat)
    {rest : List SgNode} {extents : List Nat} (s : σ) (hlen : rest.length = extents.length) :
    ∃ f, flat (i :: rest) (d :: extents) none = some f ∧
      M.operand (M.evaluate dims f) s =
        (M.operands ((i :: rest).map (M.evaluate dims)) s).map fun ks =>
          (rowMajor (d :: extents) ks.1, ks.2) := by
  obtain ⟨f, hf, heval⟩ := operand_flat (M := M) (term i extents) s hlen
  refine ⟨f, by rw [flat, hf], ?_⟩
  rw [heval, operand_term]
  simp only [List.map_cons, operands]
  cases M.operand (M.evaluate dims i) s with
  | none => rfl
  | some k =>
    simp only [Option.map_some, Option.bind_some, Option.map_map]
    rfl

end SgNode

end LoomX
