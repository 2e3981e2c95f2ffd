import Mathlib.Algebra.Order.BigOperators.Group.List
import Mathlib.Tactic.Linarith
import LoomX.OperationVisits

namespace LoomX

section
variable {floating : Expr → Bool} {estimate : ForStatement → Int} {c : Counter}

/-- How often an operation is executed by the estimates for the loops around it. -/
def enclosingTrips (estimate : ForStatement → Int) (n : OperationNode) : Int :=
  (n.trips estimate).prod

/-- An operation in a body inside of two or more loops is counted once more for each of the outer
ones; a loop without braces is counted with what is around it. -/
def overcount (estimate : ForStatement → Int) (n : OperationNode) : Int :=
  (if n.header then 0 else visits (n.trips estimate) - (n.trips estimate).prod) +
    if n.bare then visits (n.trips estimate).dropLast else 0

/-- The operations in the header of a nested loop are left out. -/
def undercount (estimate : ForStatement → Int) (n : OperationNode) : Int :=
  if n.header then (n.trips estimate).prod else 0

theorem visitCount_add_undercount (n : OperationNode) :
    visitCount estimate n + undercount estimate n = enclosingTrips estimate n + overcount estimate n := by
  unfold visitCount undercount enclosingTrips overcount
  cases n.header <;> simp <;> ring

/-- What is counted too often makes up for what is left out. -/
theorem get_eq_enclosing_iff {t : Int} {s : Stmt} (h : BelowCap estimate t s) (c : Counter) :
    (countOperations floating estimate t s).get c =
        ((s.operationNodes floating true).map fun n =>
          t * enclosingTrips estimate n * n.counts.get c).sum ↔
      t * nodeSum (overcount estimate) c (s.operationNodes floating true) =
        t * nodeSum (undercount estimate) c (s.operationNodes floating true) := by
  have hspec : ((s.operationNodes floating true).map fun n =>
      t * enclosingTrips estimate n * n.counts.get c).sum =
        t * nodeSum (enclosingTrips estimate) c (s.operationNodes floating true) := by
    rw [← nodeSum_mul]
    rfl
  have hbalance : nodeSum (visitCount estimate) c (s.operationNodes floating true) +
      nodeSum (undercount estimate) c (s.operationNodes floating true) =
        nodeSum (enclosingTrips estimate) c (s.operationNodes floating true) +
          nodeSum (overcount estimate) c (s.operationNodes floating true) := by
    rw [← nodeSum_add, ← nodeSum_add]
    exact nodeSum_congr fun n _ => visitCount_add_undercount n
  have hscaled := congrArg (t * ·) hbalance
  simp only [mul_add] at hscaled
  rw [countOperations_eq_nodeSum h, hspec]
  constructor <;> intro heq <;> linarith

/-- The counts are those by the enclosing trip counts exactly when, for each of them, what is
counted too often makes up for what is left out. -/
theorem countOperations_exact_iff {t : Int} {s : Stmt} (h : BelowCap estimate t s) :
    (∀ c, (countOperations floating estimate t s).get c =
        ((s.operationNodes floating true).map fun n =>
          t * enclosingTrips estimate n * n.counts.get c).sum) ↔
      ∀ c, t * nodeSum (overcount estimate) c (s.operationNodes floating true) =
        t * nodeSum (undercount estimate) c (s.operationNodes floating true) :=
  forall_congr' fun c => get_eq_enclosing_iff h c

theorem get_nonneg_of_mem_operations {e : Expr} {b : Bool} {w : WorkCounts}
    (h : w ∈ e.operations floating b) (c : Counter) : 0 ≤ w.get c := by
  have hbinary : ∀ f a : Bool, 0 ≤ (binaryCounts f a).get c := by
    intro f a
    cases f <;> cases a <;> cases c <;> decide
  induction e generalizing b with
  | intVal | varRef | exprNil => simp [Expr.operations] at h
  | arrRef x y ihx ihy =>
    rcases List.mem_cons.mp h with rfl | h
    · have := hbinary (floating (.arrRef x y)) false
      rw [WorkCounts.get_add]
      cases b <;> cases c <;> simp [WorkCounts.get] at * <;> omega
    · exact (List.mem_append.mp h).elim ihx ihy
  | deref e ih =>
    rcases List.mem_cons.mp h with rfl | h
    · cases c <;> decide
    · exact ih h
  | member e f ih =>
    rcases List.mem_cons.mp h with rfl | h
    · exact hbinary _ _
    · exact ih h
  | unary op e ih =>
    cases op with
    | minus =>
      rcases List.mem_cons.mp h with rfl | h
      · exact hbinary _ _
      · exact ih h
    | lnot | bnot => exact ih h
  | binary op x y ihx ihy =>
    rcases List.mem_cons.mp h with rfl | h
    · exact hbinary _ _
    · exact (List.mem_append.mp h).elim ihx ihy
  | call f e ih =>
    cases f with
    | none => exact ih h
    | some f =>
      rcases List.mem_cons.mp h with rfl | h
      · cases c
        · show 0 ≤ if isHeavyMathFunction f then (8 : Int) else 0
          split <;> decide
        · exact le_rfl
        · exact le_rfl
      · exact ih h
  | addrOf e ih | cast _ e ih | plusPlus e ih | minusMinus e ih => exact ih h
  | assign x y ihx ihy | compound _ x y ihx ihy | exprCons x y ihx ihy =>
    exact (List.mem_append.mp h).elim ihx ihy
  | cond x y z ihx ihy ihz =>
    rcases List.mem_append.mp h with h | h
    · exact (List.mem_append.mp h).elim ihx ihy
    · exact ihz h

end

/-- `for (v = 0; v < 10; v++) { body }`. -/
def tenTimes (v : Var) (body : Stmt) : Stmt :=
  .seq (.forLoop (.expr (.assign (.varRef v) (.intVal .int 0)))
    (.binary .lt (.varRef v) (.intVal .int 10)) (.plusPlus (.varRef v)) body) .empty

/-- `{ x = x + x; }`. -/
def addTwice : Stmt :=
  let x := Expr.varRef ⟨2, "x", .floating, .automatic⟩
  .seq (.expr (.assign x (.binary .add x x))) .empty

def isSum : Expr → Bool
  | .binary .add _ _ => true
  | _ => false

def loopJ : Var := ⟨0, "j", .integer 32 true, .automatic⟩

def loopK : Var := ⟨1, "k", .integer 32 true, .automatic⟩

theorem belowCap_tenTimes {v : Var} {t : Int} {body : Stmt} (ht : 0 ≤ t) (ht' : t ≤ maxTrip)
    (h : BelowCap (fun _ => 10) (10 * t) body)
    (hinner : ∀ nested ∈ body.forStatements, BelowCap (fun _ => 10) (10 * t) nested.body) :
    BelowCap (fun _ => 10) t (tenTimes v body) := by
  refine ⟨ht, ht', fun nested hn => ?_⟩
  have hn' : nested ∈ (⟨.expr (.assign (.varRef v) (.intVal .int 0)),
      .binary .lt (.varRef v) (.intVal .int 10), .plusPlus (.varRef v), body⟩ : ForStatement) ::
      body.forStatements := by
    simpa [tenTimes, Stmt.forStatements] using hn
  rcases List.mem_cons.mp hn' with rfl | hn'
  · exact h
  · exact hinner nested hn'

theorem belowCap_addTwice {t : Int} (ht : 0 ≤ t) (ht' : t ≤ maxTrip) :
    BelowCap (fun _ => 10) t addTwice :=
  ⟨ht, ht', by simp [addTwice, Stmt.forStatements]⟩

theorem belowCap_single : BelowCap (fun _ => 10) 10 (tenTimes loopJ addTwice) :=
  belowCap_tenTimes (by decide) (by decide) (belowCap_addTwice (by decide) (by decide))
    (by simp [addTwice, Stmt.forStatements])

/-- One loop in the body: 100 additions. -/
theorem singleLoop_counted :
    BelowCap (fun _ => 10) 10 (tenTimes loopJ addTwice) ∧ ∀ c,
      (countOperations isSum (fun _ => 10) 10 (tenTimes loopJ addTwice)).get c =
        (((tenTimes loopJ addTwice).operationNodes isSum true).map fun n =>
          10 * enclosingTrips (fun _ => 10) n * n.counts.get c).sum :=
  ⟨belowCap_single, (countOperations_exact_iff belowCap_single).mpr fun c => by cases c <;> decide⟩

/-- Two loops in the body: 1100 additions are counted for 1000. -/
theorem twoLoops_overcounted :
    BelowCap (fun _ => 10) 10 (tenTimes loopJ (tenTimes loopK addTwice)) ∧
      (countOperations isSum (fun _ => 10) 10 (tenTimes loopJ (tenTimes loopK addTwice))).get .flops =
        1100 ∧
      (((tenTimes loopJ (tenTimes loopK addTwice)).operationNodes isSum true).map fun n =>
        10 * enclosingTrips (fun _ => 10) n * n.counts.get .flops).sum = 1000 := by
  have hinner : BelowCap (fun _ => 10) (10 * 10) (tenTimes loopK addTwice) :=
    belowCap_tenTimes (by decide) (by decide) (belowCap_addTwice (by decide) (by decide))
      (by simp [addTwice, Stmt.forStatements])
  have h : BelowCap (fun _ => 10) 10 (tenTimes loopJ (tenTimes loopK addTwice)) := by
    refine belowCap_tenTimes (by decide) (by decide) hinner fun nested hn => ?_
    have hn' : nested = ⟨.expr (.assign (.varRef loopK) (.intVal .int 0)),
        .binary .lt (.varRef loopK) (.intVal .int 10), .plusPlus (.varRef loopK), addTwice⟩ := by
      simpa [tenTimes, addTwice, Stmt.forStatements] using hn
    rw [hn']
    exact belowCap_addTwice (by decide) (by decide)
  refine ⟨h, ?_, by decide⟩
  rw [countOperations_eq_nodeSum h]
  decide

end LoomX
