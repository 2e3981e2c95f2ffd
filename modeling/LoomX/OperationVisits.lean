import LoomX.Syntax
import Mathlib.Algebra.BigOperators.Ring.List
import Mathlib.Tactic.Ring

namespace LoomX

/-- The operation counts of a `ComputeIntensityResult`. -/
structure WorkCounts where
  flopCount : Int
  memoryOpCount : Int
  integerOpCount : Int
  hasHeavyMath : Bool
  deriving DecidableEq, Repr

namespace WorkCounts

instance : Zero WorkCounts := ⟨⟨0, 0, 0, false⟩⟩

instance : Add WorkCounts :=
  ⟨fun a b => ⟨a.flopCount + b.flopCount, a.memoryOpCount + b.memoryOpCount,
    a.integerOpCount + b.integerOpCount, a.hasHeavyMath || b.hasHeavyMath⟩⟩

def scale (t : Int) (w : WorkCounts) : WorkCounts :=
  ⟨t * w.flopCount, t * w.memoryOpCount, t * w.integerOpCount, w.hasHeavyMath⟩

end WorkCounts

inductive Counter
  | flops
  | memOps
  | intOps
  deriving DecidableEq, Repr

def WorkCounts.get : Counter → WorkCounts → Int
  | .flops, w => w.flopCount
  | .memOps, w => w.memoryOpCount
  | .intOps, w => w.integerOpCount

def isHeavyMathFunction (name : String) : Bool :=
  name ∈ ["sin", "cos", "tan", "asin", "acos", "atan", "atan2",
    "sinh", "cosh", "tanh", "asinh", "acosh", "atanh",
    "exp", "exp2", "expm1", "log", "log2", "log10", "log1p",
    "sqrt", "cbrt", "pow", "hypot", "erf", "erfc", "tgamma", "lgamma"]

def BinOp.isIntegerArithmetic : BinOp → Bool
  | .add | .sub | .mul | .div | .mod | .band | .bor | .bxor | .shl | .shr => true
  | _ => false

/-- What one binary operation counts for; `floating` if its type is a floating-point one. -/
def binaryCounts (floating isIntegerArithmetic : Bool) : WorkCounts :=
  if floating then ⟨1, 0, 0, false⟩ else ⟨0, 0, if isIntegerArithmetic then 1 else 0, false⟩

/-- The counts of the nodes of an expression. The base of a reference `a[i][j]` is no memory
operation of its own; array and member references are binary operations. -/
def Expr.operations (floating : Expr → Bool) (inArrRef : Bool) : Expr → List WorkCounts
  | .intVal _ _ | .varRef _ | .exprNil => []
  | .arrRef a b =>
    (binaryCounts (floating (.arrRef a b)) false + ⟨0, if inArrRef then 0 else 1, 0, false⟩) ::
      (a.operations floating true ++ b.operations floating true)
  | .deref e => ⟨0, 1, 0, false⟩ :: e.operations floating false
  | .member e f => binaryCounts (floating (.member e f)) false :: e.operations floating false
  | .unary .minus e =>
    binaryCounts (floating (.unary .minus e)) true :: e.operations floating false
  | .binary op a b =>
    binaryCounts (floating (.binary op a b)) op.isIntegerArithmetic ::
      (a.operations floating false ++ b.operations floating false)
  | .call (some f) args =>
    ⟨if isHeavyMathFunction f then 8 else 0, 0, 0, isHeavyMathFunction f⟩ ::
      args.operations floating false
  | .call none e | .addrOf e | .cast _ e | .unary _ e | .plusPlus e | .minusMinus e =>
    e.operations floating false
  | .assign a b | .compound _ a b | .exprCons a b =>
    a.operations floating false ++ b.operations floating false
  | .cond a b c =>
    a.operations floating false ++ b.operations floating false ++ c.operations floating false

/-- The operations outside of every `for` statement. -/
def Stmt.ownOperations (floating : Expr → Bool) : Stmt → List WorkCounts
  | .empty | .breakStmt | .continueStmt | .decl _ none | .returnStmt none | .forLoop _ _ _ _ => []
  | .expr e | .decl _ (some e) | .returnStmt (some e) => e.operations floating false
  | .seq s t => s.ownOperations floating ++ t.ownOperations floating
  | .ite c s t =>
    c.operations floating false ++ s.ownOperations floating ++ t.ownOperations floating
  | .whileLoop c s => c.operations floating false ++ s.ownOperations floating

/-- The operations that `isInsideNestedLoop` leaves to a body. It stops at the body, which can
be a `for` statement itself. -/
def Stmt.directOperations (floating : Expr → Bool) : Stmt → List WorkCounts
  | .forLoop i c u s =>
    i.ownOperations floating ++ c.operations floating false ++ u.operations floating false ++
      s.ownOperations floating
  | s => s.ownOperations floating

theorem sizeOf_body_lt {s : Stmt} {loop : ForStatement} (h : loop ∈ s.forStatements) :
    sizeOf loop.body < sizeOf s := by
  induction s with
  | seq s t ihs iht =>
    rcases List.mem_append.mp h with h | h
    · have := ihs h
      simp only [Stmt.seq.sizeOf_spec]
      omega
    · have := iht h
      simp only [Stmt.seq.sizeOf_spec]
      omega
  | ite c s t ihs iht =>
    rcases List.mem_append.mp h with h | h
    · have := ihs h
      simp only [Stmt.ite.sizeOf_spec]
      omega
    · have := iht h
      simp only [Stmt.ite.sizeOf_spec]
      omega
  | whileLoop c s ih =>
    have := ih h
    simp only [Stmt.whileLoop.sizeOf_spec]
    omega
  | forLoop i c u s ihi ihs =>
    simp only [Stmt.forLoop.sizeOf_spec]
    rcases List.mem_cons.mp h with rfl | h
    · show sizeOf s < _
      omega
    · rcases List.mem_append.mp h with h | h
      · have := ihi h
        omega
      · have := ihs h
        omega
  | _ => simp [Stmt.forStatements] at h

def maxTrip : Int := 1000000000000

def capTrip (tripCount : Int) : Int :=
  if tripCount < 0 ∨ maxTrip < tripCount then maxTrip else tripCount

/-- The trip count of a nested loop, `1` where it cannot be estimated. -/
def nestedTrip (estimate : ForStatement → Int) (loop : ForStatement) : Int :=
  if estimate loop < 0 then 1 else estimate loop

/-- `countOperations`: the operations of a body, and those of all loops below it. -/
def countOperations (floating : Expr → Bool) (estimate : ForStatement → Int) (tripCount : Int)
    (body : Stmt) : WorkCounts :=
  let trip := capTrip tripCount
  ((body.directOperations floating).map (·.scale trip)).sum +
    (body.forStatements.attach.map fun nested =>
      countOperations floating estimate (nestedTrip estimate nested.1 * trip) nested.1.body).sum
termination_by sizeOf body
decreasing_by exact sizeOf_body_lt nested.2

/-- No trip count that the recursion comes to is over the cap. -/
inductive BelowCap (estimate : ForStatement → Int) : Int → Stmt → Prop
  | intro {tripCount : Int} {body : Stmt} : 0 ≤ tripCount → tripCount ≤ maxTrip →
    (∀ nested ∈ body.forStatements,
      BelowCap estimate (nestedTrip estimate nested * tripCount) nested.body) →
    BelowCap estimate tripCount body

/-- An operation with the loops around it, the outermost first. It stands in the header of the
innermost one or in its body; that one is `bare` if it is the whole body of what is around it. -/
structure OperationNode where
  loops : List ForStatement
  header : Bool
  bare : Bool
  counts : WorkCounts
  deriving DecidableEq, Repr

namespace OperationNode

def inHeader (loop : ForStatement) (bare : Bool) (n : OperationNode) : OperationNode :=
  match n.loops with
  | [] => ⟨[loop], true, bare, n.counts⟩
  | _ => n

def inBody (loop : ForStatement) (bare : Bool) (n : OperationNode) : OperationNode :=
  match n.loops with
  | [] => ⟨[loop], false, bare, n.counts⟩
  | loops => { n with loops := loop :: loops }

end OperationNode

def Expr.operationNodes (floating : Expr → Bool) (e : Expr) : List OperationNode :=
  (e.operations floating false).map fun w => ⟨[], false, false, w⟩

/-- The operations of a statement; `bare` if it is the whole body of what is around it. -/
def Stmt.operationNodes (floating : Expr → Bool) (bare : Bool) : Stmt → List OperationNode
  | .empty | .breakStmt | .continueStmt | .decl _ none | .returnStmt none => []
  | .expr e | .decl _ (some e) | .returnStmt (some e) => e.operationNodes floating
  | .seq s t => s.operationNodes floating false ++ t.operationNodes floating false
  | .ite c s t =>
    c.operationNodes floating ++ s.operationNodes floating false ++
      t.operationNodes floating false
  | .whileLoop c s => c.operationNodes floating ++ s.operationNodes floating false
  | .forLoop i c u s =>
    (i.operationNodes floating false ++ c.operationNodes floating ++
        u.operationNodes floating).map (·.inHeader ⟨i, c, u, s⟩ bare) ++
      (s.operationNodes floating true).map (·.inBody ⟨i, c, u, s⟩ bare)

def OperationNode.trips (estimate : ForStatement → Int) (n : OperationNode) : List Int :=
  n.loops.map (nestedTrip estimate)

/-- How often the calls for the bodies of nested loops count the innermost body: every loop is
visited from each of the loops around it. -/
def visits : List Int → Int
  | [] => 1
  | [x] => x
  | x :: rest => (1 + x) * visits rest

theorem visits_cons {x : Int} {rest : List Int} (h : rest ≠ []) :
    visits (x :: rest) = (1 + x) * visits rest := by
  cases rest with
  | nil => exact absurd rfl h
  | cons => rfl

section
variable {floating : Expr → Bool} {estimate : ForStatement → Int} {c : Counter}

@[simp] theorem WorkCounts.get_zero (c : Counter) : (0 : WorkCounts).get c = 0 := by
  cases c <;> rfl

@[simp] theorem WorkCounts.get_add (c : Counter) (v w : WorkCounts) :
    (v + w).get c = v.get c + w.get c := by
  cases c <;> rfl

@[simp] theorem WorkCounts.get_scale (c : Counter) (t : Int) (w : WorkCounts) :
    (w.scale t).get c = t * w.get c := by
  cases c <;> rfl

theorem WorkCounts.get_sum (c : Counter) (ws : List WorkCounts) :
    ws.sum.get c = (ws.map (get c)).sum := by
  induction ws with
  | nil => simp
  | cons w ws ih => simp [ih]

theorem capTrip_of_le {t : Int} (h : 0 ≤ t) (h' : t ≤ maxTrip) : capTrip t = t := by
  rw [capTrip, if_neg (by omega)]

/-- The counts of a body: its own operations and those of the loops below. -/
theorem get_countOperations {t : Int} {s : Stmt} (h : 0 ≤ t) (h' : t ≤ maxTrip) :
    (countOperations floating estimate t s).get c =
      t * ((s.directOperations floating).map (WorkCounts.get c)).sum +
        (s.forStatements.map fun nested =>
          (countOperations floating estimate (nestedTrip estimate nested * t) nested.body).get c).sum := by
  rw [countOperations, WorkCounts.get_add, WorkCounts.get_sum, WorkCounts.get_sum, capTrip_of_le h h',
    List.map_map, List.map_map, ← List.sum_map_mul_left]
  congr 2
  · refine List.map_congr_left fun w _ => ?_
    simp
  · exact List.attach_map_val (l := s.forStatements) (f := fun nested =>
      (countOperations floating estimate (nestedTrip estimate nested * t) nested.body).get c)

/-- The loops around an operation and where it stands in them, seen from a statement. -/
structure Placed (b : Bool) (n : OperationNode) : Prop where
  outside : n.loops = [] → n.header = false ∧ n.bare = false
  single : n.loops.length = 1 → n.bare = true → b = true

theorem placed_operation {b : Bool} {e : Expr} {n : OperationNode}
    (hn : n ∈ e.operationNodes floating) : n.loops = [] ∧ Placed b n := by
  obtain ⟨w, -, rfl⟩ := List.mem_map.mp hn
  exact ⟨rfl, ⟨fun _ => ⟨rfl, rfl⟩, by simp⟩⟩

theorem placed_of_mem {b : Bool} {s : Stmt} {n : OperationNode}
    (hn : n ∈ s.operationNodes floating b) : Placed b n := by
  have weaken : ∀ {n}, Placed false n → Placed b n := fun h =>
    ⟨h.outside, fun h1 h2 => absurd (h.single h1 h2) (by simp)⟩
  induction s generalizing b n with
  | empty | breakStmt | continueStmt => simp [Stmt.operationNodes] at hn
  | expr e => exact (placed_operation hn).2
  | decl v init =>
    cases init with
    | none => simp [Stmt.operationNodes] at hn
    | some e => exact (placed_operation hn).2
  | returnStmt e =>
    cases e with
    | none => simp [Stmt.operationNodes] at hn
    | some e => exact (placed_operation hn).2
  | seq s t ihs iht =>
    rcases List.mem_append.mp hn with hn | hn
    · exact weaken (ihs hn id)
    · exact weaken (iht hn id)
  | ite c s t ihs iht =>
    rcases List.mem_append.mp hn with hn | hn
    · rcases List.mem_append.mp hn with hn | hn
      · exact (placed_operation hn).2
      · exact weaken (ihs hn id)
    · exact weaken (iht hn id)
  | whileLoop c s ih =>
    rcases List.mem_append.mp hn with hn | hn
    · exact (placed_operation hn).2
    · exact weaken (ih hn id)
  | forLoop i c u s ihi ihs =>
    rcases List.mem_append.mp hn with hn | hn
    · obtain ⟨m, hm, rfl⟩ := List.mem_map.mp hn
      have hplaced : Placed false m := by
        rcases List.mem_append.mp hm with hm | hm
        · rcases List.mem_append.mp hm with hm | hm
          · exact ihi hm id
          · exact (placed_operation hm).2
        · exact (placed_operation hm).2
      unfold OperationNode.inHeader
      split
      next => exact ⟨by simp, fun _ hb => hb⟩
      next => exact weaken hplaced
    · obtain ⟨m, hm, rfl⟩ := List.mem_map.mp hn
      unfold OperationNode.inBody
      split
      next => exact ⟨by simp, fun _ hb => hb⟩
      next hne => exact ⟨by simp, fun hl => absurd (by simpa using hl) hne⟩

/-- How often the code counts an operation, for each time it comes to the body. -/
def visitCount (estimate : ForStatement → Int) (n : OperationNode) : Int :=
  (if n.header then 0 else visits (n.trips estimate)) +
    if n.bare then visits (n.trips estimate).dropLast else 0

/-- The operation is counted for the body itself. -/
def directVisits (n : OperationNode) : Int :=
  if n.loops = [] ∨ n.bare = true ∧ n.loops.length = 1 then 1 else 0

/-- How often it is counted for the bodies of the loops below. -/
def nestedVisits (estimate : ForStatement → Int) (n : OperationNode) : Int :=
  if n.loops = [] then 0
  else
    (if n.header then 0 else visits (n.trips estimate)) +
      if n.bare = true ∧ n.loops.length ≠ 1 then visits (n.trips estimate).dropLast else 0

theorem visitCount_eq {b : Bool} {n : OperationNode} (h : Placed b n) :
    visitCount estimate n = directVisits n + nestedVisits estimate n := by
  unfold visitCount directVisits nestedVisits
  by_cases hnil : n.loops = []
  · obtain ⟨hheader, hbare⟩ := h.outside hnil
    simp [hnil, hheader, hbare, OperationNode.trips, visits]
  · by_cases hone : n.loops.length = 1
    · obtain ⟨loop, hloop⟩ := List.length_eq_one_iff.mp hone
      cases hbare : n.bare <;> simp [hloop, OperationNode.trips, visits, Int.add_comm]
    · simp [hnil, hone]

theorem nestedVisits_inHeader {b : Bool} {n : OperationNode} (loop : ForStatement) :
    nestedVisits estimate (n.inHeader loop b) = nestedVisits estimate n := by
  unfold OperationNode.inHeader
  split
  next hnil => simp [nestedVisits, hnil]
  next => rfl

/-- A loop around a body multiplies what is counted for the body, and what is counted for the
loops in it is counted once more. -/
theorem nestedVisits_inBody {b : Bool} {n : OperationNode} (h : Placed true n)
    (loop : ForStatement) : nestedVisits estimate (n.inBody loop b) =
      nestedTrip estimate loop * visitCount estimate n + nestedVisits estimate n := by
  rw [visitCount_eq h]
  unfold OperationNode.inBody
  split
  next hnil => simp [nestedVisits, directVisits, hnil, OperationNode.trips, visits]
  next hnil =>
    have htrips : n.trips estimate ≠ [] := by
      simpa [OperationNode.trips] using hnil
    by_cases hone : n.loops.length = 1
    · obtain ⟨inner, hinner⟩ := List.length_eq_one_iff.mp hone
      cases hbare : n.bare <;> cases hheader : n.header <;>
        simp [nestedVisits, directVisits, OperationNode.trips, hinner, hbare, hheader, visits] <;> ring
    · have hdrop : (n.trips estimate).dropLast ≠ [] := by
        intro heq
        have hlen := congrArg List.length heq
        simp only [OperationNode.trips, List.length_dropLast, List.length_map, List.length_nil] at hlen
        have := List.length_pos_iff.mpr hnil
        omega
      have hcons : ({ n with loops := loop :: n.loops } : OperationNode).trips estimate =
          nestedTrip estimate loop :: n.trips estimate := rfl
      have hne : ¬n.loops = [] := hnil
      simp only [nestedVisits, directVisits, hcons, visits_cons htrips,
        List.dropLast_cons_of_ne_nil htrips, visits_cons hdrop]
      cases hbare : n.bare <;> cases hheader : n.header <;> simp [hne, hone] <;> ring

/-- The operations of the nodes, each so many times. -/
def nodeSum (times : OperationNode → Int) (c : Counter) (ns : List OperationNode) : Int :=
  (ns.map fun n => times n * n.counts.get c).sum

@[simp] theorem nodeSum_append (times : OperationNode → Int) (c : Counter)
    (ms ns : List OperationNode) : nodeSum times c (ms ++ ns) = nodeSum times c ms + nodeSum times c ns := by
  simp [nodeSum]

theorem nodeSum_congr {f g : OperationNode → Int} {ns : List OperationNode}
    (h : ∀ n ∈ ns, f n = g n) : nodeSum f c ns = nodeSum g c ns := by
  unfold nodeSum
  congr 1
  exact List.map_congr_left fun n hn => by rw [h n hn]

theorem nodeSum_add (f g : OperationNode → Int) (c : Counter) (ns : List OperationNode) :
    nodeSum (fun n => f n + g n) c ns = nodeSum f c ns + nodeSum g c ns := by
  simp only [nodeSum, add_mul, List.sum_map_add]

theorem nodeSum_mul (x : Int) (f : OperationNode → Int) (c : Counter) (ns : List OperationNode) :
    nodeSum (fun n => x * f n) c ns = x * nodeSum f c ns := by
  simp only [nodeSum, mul_assoc, List.sum_map_mul_left]

theorem nodeSum_zero {f : OperationNode → Int} {ns : List OperationNode} (h : ∀ n ∈ ns, f n = 0) :
    nodeSum f c ns = 0 := by
  rw [nodeSum_congr h]
  simp [nodeSum]

/-- A map that keeps the counts of the nodes changes how often they count. -/
theorem nodeSum_map {f g : OperationNode → Int} {place : OperationNode → OperationNode}
    {ns : List OperationNode} (hcounts : ∀ n, (place n).counts = n.counts)
    (h : ∀ n ∈ ns, f (place n) = g n) : nodeSum f c (ns.map place) = nodeSum g c ns := by
  unfold nodeSum
  rw [List.map_map]
  congr 1
  refine List.map_congr_left fun n hn => ?_
  rw [Function.comp_apply, h n hn, hcounts]

theorem counts_inHeader (loop : ForStatement) (b : Bool) (n : OperationNode) :
    (n.inHeader loop b).counts = n.counts := by
  unfold OperationNode.inHeader
  split <;> rfl

theorem counts_inBody (loop : ForStatement) (b : Bool) (n : OperationNode) :
    (n.inBody loop b).counts = n.counts := by
  unfold OperationNode.inBody
  split <;> rfl

theorem nodeSum_operations {f : OperationNode → Int} {e : Expr}
    (h : ∀ n : OperationNode, n.loops = [] → f n = 1) :
    nodeSum f c (e.operationNodes floating) = ((e.operations floating false).map (WorkCounts.get c)).sum := by
  unfold nodeSum Expr.operationNodes
  rw [List.map_map]
  congr 1
  refine List.map_congr_left fun w _ => ?_
  simp only [Function.comp_apply]
  rw [h _ rfl, one_mul]

def ownVisits (n : OperationNode) : Int := if n.loops = [] then 1 else 0

theorem ownVisits_inHeader (loop : ForStatement) (b : Bool) (n : OperationNode) :
    ownVisits (n.inHeader loop b) = 0 := by
  unfold OperationNode.inHeader ownVisits
  split
  next => simp
  next hne => exact if_neg hne

theorem ownVisits_inBody (loop : ForStatement) (b : Bool) (n : OperationNode) :
    ownVisits (n.inBody loop b) = 0 := by
  unfold OperationNode.inBody ownVisits
  split <;> simp

theorem nodeSum_ownVisits_expr (e : Expr) : nodeSum ownVisits c (e.operationNodes floating) =
    ((e.operations floating false).map (WorkCounts.get c)).sum :=
  nodeSum_operations fun _ hn => if_pos hn

theorem nodeSum_ownVisits (b : Bool) (s : Stmt) :
    nodeSum ownVisits c (s.operationNodes floating b) =
      ((s.ownOperations floating).map (WorkCounts.get c)).sum := by
  induction s generalizing b with
  | empty | breakStmt | continueStmt => rfl
  | expr e => exact nodeSum_ownVisits_expr e
  | decl v init =>
    cases init with
    | none => rfl
    | some e => exact nodeSum_ownVisits_expr e
  | returnStmt e =>
    cases e with
    | none => rfl
    | some e => exact nodeSum_ownVisits_expr e
  | seq s t ihs iht =>
    simp only [Stmt.operationNodes, Stmt.ownOperations, nodeSum_append, ihs, iht, List.map_append,
      List.sum_append]
  | ite c s t ihs iht =>
    simp only [Stmt.operationNodes, Stmt.ownOperations, nodeSum_append, nodeSum_ownVisits_expr, ihs, iht,
      List.map_append, List.sum_append]
  | whileLoop c s ih =>
    simp only [Stmt.operationNodes, Stmt.ownOperations, nodeSum_append, nodeSum_ownVisits_expr, ih,
      List.map_append, List.sum_append]
  | forLoop i c u s ihi ihs =>
    simp only [Stmt.operationNodes, Stmt.ownOperations, List.map_nil, List.sum_nil]
    refine nodeSum_zero fun n hn => ?_
    rcases List.mem_append.mp hn with hn | hn
    · obtain ⟨m, -, rfl⟩ := List.mem_map.mp hn
      exact ownVisits_inHeader _ _ m
    · obtain ⟨m, -, rfl⟩ := List.mem_map.mp hn
      exact ownVisits_inBody _ _ m

/-- Only the loop that is the whole body makes a difference between the two. -/
theorem directVisits_eq_ownVisits {n : OperationNode} (h : Placed false n) :
    directVisits n = ownVisits n := by
  unfold directVisits ownVisits
  congr 1
  refine propext (or_iff_left fun hbare => ?_)
  exact absurd (h.single hbare.2 hbare.1) (by simp)

theorem directVisits_inHeader {n : OperationNode} (h : Placed false n) (loop : ForStatement) :
    directVisits (n.inHeader loop true) = ownVisits n := by
  unfold OperationNode.inHeader
  split
  next hnil => simp [directVisits, ownVisits, hnil]
  next => exact directVisits_eq_ownVisits h

theorem directVisits_inBody (loop : ForStatement) (n : OperationNode) :
    directVisits (n.inBody loop true) = ownVisits n := by
  unfold OperationNode.inBody
  split
  next hnil => simp [directVisits, ownVisits, hnil]
  next hne =>
    have hnil : ¬n.loops = [] := hne
    simp [directVisits, ownVisits, hnil]

theorem nodeSum_directVisits (s : Stmt) :
    nodeSum directVisits c (s.operationNodes floating true) =
      ((s.directOperations floating).map (WorkCounts.get c)).sum := by
  -- The flag makes no difference to a statement that is no loop.
  have hplain : s.operationNodes floating true = s.operationNodes floating false →
      s.directOperations floating = s.ownOperations floating →
      nodeSum directVisits c (s.operationNodes floating true) =
        ((s.directOperations floating).map (WorkCounts.get c)).sum := by
    intro hnodes hdirect
    rw [hnodes, hdirect, ← nodeSum_ownVisits false s]
    exact nodeSum_congr fun n hn => directVisits_eq_ownVisits (placed_of_mem hn)
  cases s with
  | forLoop i c u s =>
    have hheader : ∀ n ∈ i.operationNodes floating false ++ c.operationNodes floating ++
        u.operationNodes floating, Placed false n := by
      intro n hn
      rcases List.mem_append.mp hn with hn | hn
      · rcases List.mem_append.mp hn with hn | hn
        · exact placed_of_mem hn
        · exact (placed_operation hn).2
      · exact (placed_operation hn).2
    rw [Stmt.operationNodes, nodeSum_append,
      nodeSum_map (counts_inHeader _ _) fun n hn => directVisits_inHeader (hheader n hn) _,
      nodeSum_map (counts_inBody _ _) fun n _ => directVisits_inBody _ n]
    simp only [Stmt.directOperations, nodeSum_append, nodeSum_ownVisits_expr, nodeSum_ownVisits,
      List.map_append, List.sum_append]
  | empty | breakStmt | continueStmt | expr | seq | ite | whileLoop => exact hplain rfl rfl
  | decl v init => cases init <;> exact hplain rfl rfl
  | returnStmt e => cases e <;> exact hplain rfl rfl

/-- What is counted for the bodies of the loops below a statement. -/
def nestedCount (floating : Expr → Bool) (estimate : ForStatement → Int) (c : Counter) (t : Int)
    (s : Stmt) : Int :=
  (s.forStatements.map fun nested =>
    (countOperations floating estimate (nestedTrip estimate nested * t) nested.body).get c).sum

theorem nestedCount_eq {t : Int} {s : Stmt} (b : Bool)
    (h : ∀ nested ∈ s.forStatements,
      BelowCap estimate (nestedTrip estimate nested * t) nested.body) :
    nestedCount floating estimate c t s =
      t * nodeSum (nestedVisits estimate) c (s.operationNodes floating b) := by
  have hexpr : ∀ e : Expr, nodeSum (nestedVisits estimate) c (e.operationNodes floating) = 0 :=
    fun e => nodeSum_zero fun n hn => if_pos (placed_operation (b := b) hn).1
  induction s generalizing b t with
  | empty | breakStmt | continueStmt => simp [nestedCount, Stmt.forStatements, Stmt.operationNodes, nodeSum]
  | expr e => simp [nestedCount, Stmt.forStatements, Stmt.operationNodes, hexpr]
  | decl v init =>
    cases init with
    | none => simp [nestedCount, Stmt.forStatements, Stmt.operationNodes, nodeSum]
    | some e => simp [nestedCount, Stmt.forStatements, Stmt.operationNodes, hexpr]
  | returnStmt e =>
    cases e with
    | none => simp [nestedCount, Stmt.forStatements, Stmt.operationNodes, nodeSum]
    | some e => simp [nestedCount, Stmt.forStatements, Stmt.operationNodes, hexpr]
  | seq s s' ihs iht =>
    have hs := ihs false fun l hl => h l (List.mem_append_left _ hl)
    have ht := iht false fun l hl => h l (List.mem_append_right _ hl)
    unfold nestedCount at hs ht ⊢
    simp only [Stmt.forStatements, List.map_append, List.sum_append, hs, ht, Stmt.operationNodes,
      nodeSum_append]
    ring
  | ite e s s' ihs iht =>
    have hs := ihs false fun l hl => h l (List.mem_append_left _ hl)
    have ht := iht false fun l hl => h l (List.mem_append_right _ hl)
    unfold nestedCount at hs ht ⊢
    simp only [Stmt.forStatements, List.map_append, List.sum_append, hs, ht, Stmt.operationNodes,
      nodeSum_append, hexpr]
    ring
  | whileLoop e s ih =>
    have hs := ih false h
    unfold nestedCount at hs ⊢
    simp only [Stmt.forStatements, hs, Stmt.operationNodes, nodeSum_append, hexpr]
    ring
  | forLoop i e u s ihi ihs =>
    obtain ⟨hbody, hrest⟩ := List.forall_mem_cons.mp h
    have hi := ihi false fun l hl => hrest l (List.mem_append_left _ hl)
    have hs := ihs true fun l hl => hrest l (List.mem_append_right _ hl)
    obtain ⟨hnonneg, hcap, hinner⟩ := hbody
    have hbelow := ihs true hinner
    have hcount := @get_countOperations floating estimate c _ s hnonneg hcap
    rw [← nodeSum_directVisits] at hcount
    unfold nestedCount at hi hs hbelow ⊢
    rw [hbelow] at hcount
    rw [Stmt.forStatements, List.map_cons, List.sum_cons, List.map_append, List.sum_append, hi, hs,
      hcount, Stmt.operationNodes, nodeSum_append,
      nodeSum_map (counts_inHeader _ _) fun n _ => nestedVisits_inHeader _,
      nodeSum_map (counts_inBody _ _) fun n hn => nestedVisits_inBody (placed_of_mem hn) _,
      nodeSum_append, nodeSum_append, hexpr, hexpr, nodeSum_add, nodeSum_mul,
      nodeSum_congr fun n hn => visitCount_eq (placed_of_mem hn), nodeSum_add]
    ring

/-- What the code computes: every operation as often as it is visited. -/
theorem countOperations_eq_nodeSum {t : Int} {s : Stmt} (h : BelowCap estimate t s) :
    (countOperations floating estimate t s).get c =
      t * nodeSum (visitCount estimate) c (s.operationNodes floating true) := by
  obtain ⟨hnonneg, hcap, hnested⟩ := h
  have hcount := @get_countOperations floating estimate c t s hnonneg hcap
  have hsum := @nestedCount_eq floating estimate c t s true hnested
  unfold nestedCount at hsum
  rw [hcount, hsum, ← nodeSum_directVisits,
    nodeSum_congr fun n hn => visitCount_eq (placed_of_mem hn), nodeSum_add]
  ring

end

end LoomX
