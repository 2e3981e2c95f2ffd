import LoomX.IterationCount
import LoomX.OperationNesting

namespace LoomX

/-- `counter += amount`. -/
def WorkCounts.bump (c : Counter) (amount : Int) (w : WorkCounts) : Option WorkCounts :=
  match c with
  | .flops => (checked (w.flopCount + amount)).map fun n => { w with flopCount := n }
  | .memOps => (checked (w.memoryOpCount + amount)).map fun n => { w with memoryOpCount := n }
  | .intOps => (checked (w.integerOpCount + amount)).map fun n => { w with integerOpCount := n }

/-- What one operation adds to a counter: as many trips as it counts for. -/
def tally (c : Counter) (trip : Int) (op acc : WorkCounts) : Option WorkCounts :=
  (checked (op.get c * trip)).bind fun amount => acc.bump c amount

def markHeavy (acc : WorkCounts) : WorkCounts := { acc with hasHeavyMath := true }

/-- The passes over the operations of a body. The calls of heavy functions come last. -/
def countPasses (trip : Int) (ops : List WorkCounts) (acc : WorkCounts) : Option WorkCounts := do
  let acc ← ops.foldlM (fun acc op => tally .memOps trip op acc) acc
  let acc ← ops.foldlM (fun acc op => tally .intOps trip op acc) acc
  let acc ← (ops.filter (!·.hasHeavyMath)).foldlM (fun acc op => tally .flops trip op acc) acc
  (ops.filter (·.hasHeavyMath)).foldlM (fun acc op => tally .flops trip op (markHeavy acc)) acc

/-- `countOperations` in the arithmetic of the code, without a value where it overflows. -/
def countOperations64 (floating : Expr → Bool) (estimate : ForStatement → Int) (tripCount : Int)
    (body : Stmt) (acc : WorkCounts) : Option WorkCounts :=
  let trip := capTrip tripCount
  (countPasses trip (body.directOperations floating) acc).bind fun acc =>
    body.forStatements.attach.foldlM (fun acc nested =>
      (checked (nestedTrip estimate nested.1 * trip)).bind fun tripCount =>
        countOperations64 floating estimate tripCount nested.1.body acc) acc
termination_by sizeOf body
decreasing_by exact sizeOf_body_lt nested.2

/-- The chains of nested loops below a statement, the outermost loop first. -/
def loopChains (body : Stmt) : List (List ForStatement) :=
  [] :: (body.forStatements.attach.map fun nested =>
    (loopChains nested.1.body).map (nested.1 :: ·)).flatten
termination_by sizeOf body
decreasing_by exact sizeOf_body_lt nested.2

def chainBody (body : Stmt) : List ForStatement → Stmt
  | [] => body
  | nested :: chain => chainBody nested.body chain

/-- The trip count at the body of a chain, capped at every loop. -/
def chainTrip (estimate : ForStatement → Int) (tripCount : Int) (chain : List ForStatement) : Int :=
  chain.foldl (fun trip nested => capTrip (nestedTrip estimate nested * trip)) (capTrip tripCount)

/-- No product of a trip count with the capped one around it leaves 64 bits. -/
def ProductsFit (estimate : ForStatement → Int) (tripCount : Int) (body : Stmt) : Prop :=
  ∀ chain ∈ loopChains body, ∀ nested ∈ (chainBody body chain).forStatements,
    InLong (nestedTrip estimate nested * chainTrip estimate tripCount chain)

/-- The operations of all bodies, each as often as the trip count at its body. -/
def chainWork (floating : Expr → Bool) (estimate : ForStatement → Int) (tripCount : Int)
    (body : Stmt) (c : Counter) : Int :=
  ((loopChains body).map fun chain => chainTrip estimate tripCount chain *
    (((chainBody body chain).directOperations floating).map (WorkCounts.get c)).sum).sum

section
variable {floating : Expr → Bool} {estimate : ForStatement → Int} {t : Int} {s : Stmt}

theorem capTrip_nonneg (t : Int) : 0 ≤ capTrip t := by
  unfold capTrip maxTrip
  split <;> omega

theorem get_nonneg_of_mem_own {w : WorkCounts} (h : w ∈ s.ownOperations floating) (c : Counter) :
    0 ≤ w.get c := by
  have hexpr : ∀ {e : Expr}, w ∈ e.operations floating false → 0 ≤ w.get c := fun h =>
    get_nonneg_of_mem_operations h c
  induction s with
  | empty | breakStmt | continueStmt => simp [Stmt.ownOperations] at h
  | expr e => exact hexpr h
  | decl v init =>
    cases init with
    | none => simp [Stmt.ownOperations] at h
    | some e => exact hexpr h
  | returnStmt e =>
    cases e with
    | none => simp [Stmt.ownOperations] at h
    | some e => exact hexpr h
  | seq s t ihs iht => exact (List.mem_append.mp h).elim ihs iht
  | ite e s t ihs iht =>
    rcases List.mem_append.mp h with h | h
    · exact (List.mem_append.mp h).elim hexpr ihs
    · exact iht h
  | whileLoop e s ih => exact (List.mem_append.mp h).elim hexpr ih
  | forLoop => simp [Stmt.ownOperations] at h

theorem get_nonneg_of_mem_direct {w : WorkCounts} (h : w ∈ s.directOperations floating)
    (c : Counter) : 0 ≤ w.get c := by
  unfold Stmt.directOperations at h
  split at h
  next =>
    simp only [List.mem_append] at h
    rcases h with ((h | h) | h) | h
    · exact get_nonneg_of_mem_own h c
    · exact get_nonneg_of_mem_operations h c
    · exact get_nonneg_of_mem_operations h c
    · exact get_nonneg_of_mem_own h c
  next => exact get_nonneg_of_mem_own h c

theorem bump_eq_some {c : Counter} {x : Int} {w w' : WorkCounts} (h : w.bump c x = some w') :
    InLong (w.get c + x) ∧ ∀ c', w'.get c' = w.get c' + if c' = c then x else 0 := by
  cases c <;> (
    obtain ⟨n, hn, rfl⟩ := Option.map_eq_some_iff.mp h
    obtain ⟨hin, rfl⟩ := checked_eq_some.mp hn
    refine ⟨hin, fun c' => ?_⟩
    cases c' <;> simp [WorkCounts.get])

theorem bump_isSome {c : Counter} {x : Int} {w : WorkCounts} :
    (w.bump c x).isSome = true ↔ InLong (w.get c + x) := by
  cases c <;> simp [WorkCounts.bump, WorkCounts.get, checked]

theorem tally_accumulates {c : Counter} {op : WorkCounts} (ht : 0 ≤ t) (hop : 0 ≤ op.get c) :
    AddsUp WorkCounts.get (tally c t op) True fun c' =>
      if c' = c then t * op.get c else 0 where
  nonneg c' := by
    have hproduct := Int.mul_nonneg ht hop
    split <;> omega
  isSome_iff := by
    intro s hs
    have hproduct := Int.mul_nonneg ht hop
    unfold tally
    rw [checked_bind, Int.mul_comm, true_and]
    have hsum : InLong (s.get c + t * op.get c) ↔
        ∀ c', InLong (s.get c' + if c' = c then t * op.get c else 0) := by
      constructor
      · intro h c'
        split
        next heq => rwa [heq]
        next => simpa using (hs c').2
      · intro h
        simpa using h c
    rw [← hsum]
    split
    next => exact bump_isSome
    next hno =>
      refine iff_of_false (by simp) fun h => hno (inLong_of_le hproduct ?_ h)
      have hc := (hs c).1
      omega
  adds := by
    intro s s' hs h c'
    unfold tally at h
    rw [checked_bind] at h
    split at h
    next => rw [(bump_eq_some h).2, Int.mul_comm]
    next => simp at h

/-- A pass over operations adds its counter's share of each. -/
theorem pass_accumulates {c : Counter} {step : WorkCounts → WorkCounts → Option WorkCounts}
    (ops : List WorkCounts) (h : ∀ op ∈ ops, AddsUp WorkCounts.get (step op) True fun c' =>
      if c' = c then t * op.get c else 0) :
    AddsUp WorkCounts.get (fun acc => ops.foldlM (fun acc op => step op acc) acc) True
      fun c' => if c' = c then t * (ops.map (WorkCounts.get c)).sum else 0 := by
  refine (AddsUp.foldlM ops h).congr (by simp) fun c' => ?_
  split
  next => rw [List.sum_map_mul_left]
  next => simp

theorem sum_filter_add_sum_filter_not (p : WorkCounts → Bool) (f : WorkCounts → Int)
    (ops : List WorkCounts) :
    ((ops.filter (!p ·)).map f).sum + ((ops.filter p).map f).sum = (ops.map f).sum := by
  induction ops with
  | nil => simp
  | cons op ops ih =>
    cases h : p op <;> simp [h] <;> omega

theorem countPasses_accumulates {ops : List WorkCounts} (ht : 0 ≤ t)
    (hops : ∀ op ∈ ops, ∀ c, 0 ≤ op.get c) :
    AddsUp WorkCounts.get (countPasses t ops) True fun c =>
      t * (ops.map (WorkCounts.get c)).sum := by
  have hmarked : ∀ (c : Counter) (acc : WorkCounts), (markHeavy acc).get c = acc.get c := by
    intro c acc
    cases c <;> rfl
  have hmem := pass_accumulates (c := .memOps) ops fun op hop => tally_accumulates ht (hops op hop _)
  have hint := pass_accumulates (c := .intOps) ops fun op hop => tally_accumulates ht (hops op hop _)
  have hothers := pass_accumulates (c := .flops) (ops.filter (!·.hasHeavyMath))
    fun op hop => tally_accumulates ht (hops op (List.mem_of_mem_filter hop) _)
  have hcalls := pass_accumulates (c := .flops) (ops.filter (·.hasHeavyMath))
    fun op hop => (tally_accumulates ht (hops op (List.mem_of_mem_filter hop) _)).precomp hmarked
  refine (hmem.comp (hint.comp (hothers.comp hcalls))).congr (by simp) fun c => ?_
  have hsplit := sum_filter_add_sum_filter_not (·.hasHeavyMath) (WorkCounts.get .flops) ops
  cases c with
  | flops => simp [← Int.mul_add, hsplit]
  | memOps => simp
  | intOps => simp

/-- One loop more around a chain. -/
theorem mem_loopChains_iff {chain : List ForStatement} :
    chain ∈ loopChains s ↔
      chain = [] ∨ ∃ nested ∈ s.forStatements, ∃ rest ∈ loopChains nested.body,
        chain = nested :: rest := by
  rw [loopChains]
  simp [eq_comm]

theorem productsFit_iff : ProductsFit estimate t s ↔
    ∀ nested ∈ s.forStatements, InLong (nestedTrip estimate nested * capTrip t) ∧
      ProductsFit estimate (nestedTrip estimate nested * capTrip t) nested.body := by
  unfold ProductsFit
  constructor
  · intro h nested hn
    refine ⟨h [] (mem_loopChains_iff.mpr (Or.inl rfl)) nested hn, fun chain hchain => ?_⟩
    exact h (nested :: chain) (mem_loopChains_iff.mpr (Or.inr ⟨nested, hn, chain, hchain, rfl⟩))
  · intro h chain hchain
    obtain rfl | ⟨nested, hn, rest, hrest, rfl⟩ := mem_loopChains_iff.mp hchain
    · exact fun nested hn => (h nested hn).1
    · exact (h nested hn).2 rest hrest

theorem loopChains_eq : loopChains s =
    [] :: (s.forStatements.map fun nested => (loopChains nested.body).map (nested :: ·)).flatten := by
  rw [loopChains]
  congr 2
  exact List.attach_map_val (l := s.forStatements)
    (f := fun nested => (loopChains nested.body).map (nested :: ·))

theorem chainWork_eq (c : Counter) : chainWork floating estimate t s c =
    capTrip t * ((s.directOperations floating).map (WorkCounts.get c)).sum +
      (s.forStatements.map fun nested =>
        chainWork floating estimate (nestedTrip estimate nested * capTrip t) nested.body c).sum := by
  unfold chainWork
  rw [loopChains_eq, List.map_cons, List.sum_cons, List.map_flatten, List.sum_flatten]
  rw [List.map_map, List.map_map]
  congr 2
  refine List.map_congr_left fun nested _ => ?_
  rw [Function.comp_apply, Function.comp_apply, List.map_map]
  rfl

/-- The counters of the code overflow where a product or one of the totals does. -/
theorem countOperations64_accumulates :
    AddsUp WorkCounts.get (countOperations64 floating estimate t s)
      (ProductsFit estimate t s) (chainWork floating estimate t s) := by
  induction hn : sizeOf s using Nat.strong_induction_on generalizing t s with
  | _ n ih =>
    have hown := countPasses_accumulates (capTrip_nonneg t)
      fun op (hop : op ∈ s.directOperations floating) => get_nonneg_of_mem_direct hop
    have hnested := AddsUp.foldlM s.forStatements.attach fun nested _ =>
      AddsUp.after (fun tripCount =>
          countOperations64 floating estimate tripCount nested.1.body)
        (nestedTrip estimate nested.1 * capTrip t)
        (ih (sizeOf nested.1.body) (hn ▸ sizeOf_body_lt nested.2) rfl)
    rw [show countOperations64 floating estimate t s = _ from
      funext fun acc => countOperations64.eq_1 floating estimate t s acc]
    refine (hown.comp hnested).congr ?_ fun c => ?_
    · rw [productsFit_iff]
      simp
    · rw [chainWork_eq]
      congr 2
      exact List.attach_map_val (l := s.forStatements) (f := fun nested =>
        chainWork floating estimate (nestedTrip estimate nested * capTrip t) nested.body c)

/-- From empty counters, nothing overflows exactly when no product of a loop's trip count with the
capped one around it does, and for each counter the sum over all chains of loops stays in range. -/
theorem countOperations64_defined_iff (floating : Expr → Bool) (estimate : ForStatement → Int)
    (t : Int) (s : Stmt) :
    (countOperations64 floating estimate t s 0).isSome = true ↔
      ProductsFit estimate t s ∧ ∀ c, InLong (chainWork floating estimate t s c) := by
  have hzero : Counting WorkCounts.get (0 : WorkCounts) := by
    intro c
    rw [WorkCounts.get_zero]
    decide
  rw [countOperations64_accumulates.isSome_iff hzero]
  simp only [WorkCounts.get_zero, Int.zero_add]

end

/-- `for (v = 0; v < n; v++) body`, for an index of type `long`. -/
def longLoop (id : Nat) (name : String) (n : Int) (body : Stmt) : ForStatement :=
  let v := Expr.varRef ⟨id, name, .integer 64 true, .automatic⟩
  ⟨.expr (.assign v (.intVal .int 0)), .binary .lt v (.intVal .long n), .plusPlus v, body⟩

/-- Both trip counts are literals of 64 bits. Their product is taken before it is capped. -/
theorem nested_product_overflows :
    let inner := longLoop 1 "j" 10000000 .empty
    let outer := longLoop 0 "i" 1000000000000
      (.forLoop inner.init inner.test inner.increment inner.body)
    let trips := fun loop => (estimate (fun _ => none) 1 loop false).getD (-1)
    trips outer = 1000000000000 ∧ trips inner = 10000000 ∧
      countOperations64 (fun _ => false) trips (trips outer) outer.body 0 = none := by
  intro inner outer trips
  have houter : trips outer = 1000000000000 := by decide
  have hinner : trips inner = 10000000 := by decide
  refine ⟨houter, hinner, Option.not_isSome_iff_eq_none.mp fun h => ?_⟩
  have hfit := ((countOperations64_defined_iff _ _ _ _).mp h).1
  have hproduct := (productsFit_iff.mp hfit inner (by simp [outer, inner, longLoop, Stmt.forStatements])).1
  rw [houter, nestedTrip, hinner] at hproduct
  exact absurd hproduct (by decide)

end LoomX
