import LoomX.ReductionForms

namespace LoomX

/-- What the main pass asks of the pragmas around a loop. -/
structure PragmaSummary where
  blocksTransformation : Bool
  hasDataSharingClauses : Bool
  hasReduction : Bool
  hasThreadprivate : Bool
  hasLastprivate : Bool
  deriving DecidableEq, Repr

/-- The references that are whole variables. -/
def variablesOf (refs : List Expr) : List Var :=
  refs.filterMap fun r =>
    match r with
    | .varRef v => some v
    | _ => none

/-- One statement with its references; `conditional` says that an `if` lies between it and the
loop body. -/
structure RefUnit where
  reads : List Var
  writes : List Var
  conditional : Bool
  deriving DecidableEq, Repr

def RefUnit.of (e : Expr) (conditional : Bool) : RefUnit :=
  ⟨variablesOf (e.readRefs .value), variablesOf (e.writeRefs .value), conditional⟩

/-- The statements in the order of their positions; the increment of a `for` belongs to the `for`
itself. -/
def Stmt.refUnits (conditional : Bool) : Stmt → List RefUnit
  | .empty | .breakStmt | .continueStmt | .decl _ none | .returnStmt none => []
  | .expr e | .decl _ (some e) | .returnStmt (some e) => [.of e conditional]
  | .seq s t => s.refUnits conditional ++ t.refUnits conditional
  | .ite c s t => .of c true :: (s.refUnits true ++ t.refUnits true)
  | .whileLoop c s => .of c conditional :: s.refUnits conditional
  | .forLoop i c u s =>
    .of u conditional :: (i.refUnits conditional ++ .of c conditional :: s.refUnits conditional)

/-- The walk up from a write stops at the loop body, also when the body is itself an `if`. -/
def bodyUnits : Stmt → List RefUnit
  | .ite c s t => .of c false :: (s.refUnits false ++ t.refUnits false)
  | body => body.refUnits false

/-- A read at or before the first write, several writing statements, or a conditional one. -/
def carriesValue (v : Var) (units : List RefUnit) : Bool :=
  let before := units.takeWhile fun u => !u.writes.contains v
  let fromWrite := units.dropWhile fun u => !u.writes.contains v
  match fromWrite with
  | [] => false
  | first :: rest =>
    (first :: before).any (fun u => u.reads.contains v) ||
      rest.any (fun u => u.writes.contains v) || first.conditional

def nestedLoopVars (loop : ForStatement) : List Var :=
  loop.body.forStatements.filterMap getLoopIndexVariable

/-- `hasScalarLoopCarriedDependence`. -/
def hasScalarLoopCarriedDependence (loop : ForStatement) (pragmas : PragmaSummary) : Bool :=
  let written := (variablesOf loop.body.writeRefs).filter fun v =>
    getLoopIndexVariable loop != some v && !(nestedLoopVars loop).contains v &&
      !(getReductionVariables loop).contains v
  let explicitSharing :=
    pragmas.hasDataSharingClauses || pragmas.hasReduction || pragmas.hasThreadprivate
  written.any (fun v => v.isSharedScalarStorage && !explicitSharing) ||
    (written.filter fun v => !isDeclaredInsideLoopBody v loop && v.isScalarVariable).any fun v =>
      carriesValue v (bodyUnits loop.body)

/-- `fillPrivateVars`: the scalars of the `private` clause. -/
def fillPrivateVars (loop : ForStatement) : List Var :=
  (variablesOf loop.body.writeRefs ++ nestedLoopVars loop).filter fun v =>
    getLoopIndexVariable loop != some v && !(getReductionVariables loop).contains v &&
      !isDeclaredInsideLoopBody v loop && v.isScalarVariable

def hasUnprovenScalarWrites (loop : ForStatement) : Bool :=
  (variablesOf loop.body.writeRefs).any fun v =>
    getLoopIndexVariable loop != some v && !(getReductionVariables loop).contains v &&
      v.isScalarVariable && !isDeclaredInsideLoopBody v loop

/-- `hasScalarLiveOut`, given the variables read on later lines of the function. -/
def hasScalarLiveOut (loop : ForStatement) (readBelow : List Var) : Bool :=
  (variablesOf loop.body.writeRefs).any fun v => v.isScalarVariable && readBelow.contains v

def ForStatement.stmt (loop : ForStatement) : Stmt :=
  .forLoop loop.init loop.test loop.increment loop.body

/-- The inputs of the main pass that are not in the loop itself. -/
structure PassInput where
  enclosing : List Var
  pragmas : PragmaSummary
  callsSafe : Bool
  profitable : Bool
  readBelow : List Var
  scalarDepCheck : Bool
  strictRaceSafety : Bool

/-- The checks a loop passes before a pragma is emitted for it. -/
def acceptsLoop (input : PassInput) (loop : ForStatement) : Bool :=
  !(dependenceAnalyze input.enclosing loop).hasLoopCarriedDependence &&
    !input.pragmas.blocksTransformation &&
    !(input.scalarDepCheck && hasScalarLoopCarriedDependence loop input.pragmas) &&
    (loop.stmt.calls.isEmpty || input.callsSafe) &&
    !(input.strictRaceSafety && !(detectReductions loop).isEmpty && !input.pragmas.hasReduction) &&
    !(input.strictRaceSafety && hasUnprovenScalarWrites loop &&
      !input.pragmas.hasDataSharingClauses && !input.pragmas.hasThreadprivate &&
      !input.pragmas.hasReduction) &&
    !(input.strictRaceSafety && hasScalarLiveOut loop input.readBelow &&
      !input.pragmas.hasLastprivate) &&
    input.profitable

/-- The values of `i` with which the rounds of a loop begin. -/
def loopValues (test : State → Int × State) (body : State → Option (Outcome × State))
    (step : State → State) (i : Var) : Nat → State → List Int
  | 0, _ => []
  | fuel + 1, s =>
    let (n, s) := test s
    if n ≠ 0 then
      s.vars i ::
        match body s with
        | some (.normal, t) | some (.continued, t) => loopValues test body step i fuel (step t)
        | _ => []
    else []

/-- The index values of the sequential run of a `for` loop. -/
def iterationValues (P : Platform) (fuel : Nat) (loop : ForStatement) (i : Var) (s : State) :
    List Int :=
  match loop.init.exec P fuel s with
  | some (.normal, t) =>
    loopValues (loop.test.eval P) (loop.body.exec P fuel) (fun s => (loop.increment.eval P s).2) i
      fuel t
  | _ => []

/-- The loop gives `x` a copy of its own in every thread, which the end of the loop discards. -/
def isPrivate (loop : ForStatement) (i x : Var) : Prop := x = i ∨ x ∈ fillPrivateVars loop

/-- The values that `x` can have after the emitted parallel loop started in `s`. -/
inductive EmittedValue (P : Platform) (fuel : Nat) (loop : ForStatement) (i : Var) (s : State)
    (x : Var) : Int → Prop
  | discarded (h : isPrivate loop i x) : EmittedValue P fuel loop i s x (s.vars x)
  | combined {info : ReductionInfo} {e : Int} {n : Nat} {schedule : List (Nat × Int)}
      {p : State × (Nat → Int)} (hinfo : info ∈ detectReductions loop) (hx : info.var = x)
      (he : info.op.isIdentity (s.vars x) e) (hn : ∀ q ∈ schedule, q.1 < n)
      (hperm : (schedule.map Prod.snd).Perm (iterationValues P fuel loop i s))
      (hrun : (reductionStep P fuel loop.body i x).runThreads schedule s (fun _ => e) = some p) :
      EmittedValue P fuel loop i s x (combineThreads info.op.combine (s.vars x) p.2 n)
  | shared {ks : List Int} {t : State} (hprivate : ¬isPrivate loop i x)
      (hreduction : x ∉ getReductionVariables loop)
      (hperm : ks.Perm (iterationValues P fuel loop i s))
      (hrun : runIterations P fuel loop.body i ks s = some t) :
      EmittedValue P fuel loop i s x (t.vars x)

/-- Scalars from outside the loop that it writes and that are read later. -/
structure LiveScalar (loop : ForStatement) (readLater : Var → Prop) (x : Var) : Prop where
  scalar : x.isScalarVariable = true
  outside : x ∉ loop.init.declared ∧ x ∉ loop.body.declared
  written : .varRef x ∈ loop.stmt.stores
  live : readLater x

/-- After the emitted loop `x` has the value of the sequential loop. -/
def ValueKept (P : Platform) (loop : ForStatement) (i x : Var) : Prop :=
  ∀ fuel s s', loop.stmt.exec P fuel s = some (.normal, s') →
    ∀ v, EmittedValue P fuel loop i s x v → v = s'.vars x

def LiveOutKept (P : Platform) (loop : ForStatement) (i : Var) (readLater : Var → Prop) : Prop :=
  ∀ x, LiveScalar loop readLater x → ValueKept P loop i x

/-- No sequential run of the loop that ends runs an iteration. -/
def NeverIterates (P : Platform) (loop : ForStatement) : Prop :=
  ∀ fuel s s' t, loop.stmt.exec P fuel s = some (.normal, s') →
    loop.init.exec P fuel s = some (.normal, t) → (loop.test.eval P t).1 = 0

/-- Every iteration gives `x` a value before it reads it, and the header has no `x`. -/
structure Overwritten (P : Platform) (loop : ForStatement) (x : Var) : Prop where
  framed : Framed P x
  init : ∀ fuel, ∀ g, Commutes x g (loop.init.exec P fuel)
  test : x ∉ loop.test.varRefs
  body : ∀ fuel s a, loop.body.exec P fuel (s.setVar x a) = loop.body.exec P fuel s

/-- A header that sets, tests and steps the index and changes nothing else. -/
structure PlainHeader (P : Platform) (loop : ForStatement) (i : Var) : Prop where
  init : ∀ fuel s, ∃ n, loop.init.exec P fuel s = some (.normal, s.setVar i n)
  test : ∀ s, (loop.test.eval P s).2 = s
  step : ∀ s, ∃ n, (loop.increment.eval P s).2 = s.setVar i n

/-- A reduction variable that the loop only updates, in iterations with different index values. -/
structure ReducedAlone (P : Platform) (loop : ForStatement) (i x : Var) : Prop where
  reported : x ∈ getReductionVariables loop
  updated : OnlyUpdated P loop i x
  header : PlainHeader P loop i
  distinct : ∀ fuel s, (iterationValues P fuel loop i s).Nodup

/-- The check of the strict mode looks at the scalar: its write is among the collected references,
and it is read on a later line. -/
structure LiveOutChecked (input : PassInput) (loop : ForStatement) (x : Var) : Prop where
  strict : input.strictRaceSafety = true
  noClause : input.pragmas.hasLastprivate = false
  written : x ∈ variablesOf loop.body.writeRefs
  below : x ∈ input.readBelow

section
variable {P : Platform} {loop : ForStatement} {i x : Var}

theorem exec_stmt {fuel : Nat} {s s' : State}
    (h : loop.stmt.exec P fuel s = some (.normal, s')) :
    ∃ t, loop.init.exec P fuel s = some (.normal, t) ∧
      runLoop (loop.test.eval P) (loop.body.exec P fuel) (fun s => (loop.increment.eval P s).2) fuel
        t = some (.normal, s') := by
  simp only [ForStatement.stmt, Stmt.exec] at h
  split at h
  next t ht => exact ⟨t, ht, h⟩
  next hother => exact absurd h (hother s')

theorem exec_keeps {run : State → Option (Outcome × State)} (h : ∀ g, Commutes x g run)
    {s t : State} {o : Outcome} (hrun : run s = some (o, t)) : t.vars x = s.vars x := by
  have hself := h (fun _ => s.vars x) s
  simp only [State.mapVar, State.setVar_vars_self, hrun, Option.map_some, Option.some.injEq,
    Prod.mk.injEq, true_and] at hself
  rw [hself, State.setVar_self]

theorem eval_keeps {e : Expr} (h : ∀ g, Blind P x g e) (s : State) :
    (e.eval P s).2.vars x = s.vars x := by
  have hself := (h fun _ => s.vars x).eval s
  simp only [State.mapVar, State.setVar_vars_self] at hself
  rw [hself, State.setVar_self]

/-- A loop that runs an iteration ends the same for every initial value of `x`. -/
theorem runLoop_overwritten (hx : Overwritten P loop x) {fuel n : Nat} {step : State → State}
    {t : State} (htest : (loop.test.eval P t).1 ≠ 0) (a : Int) :
    runLoop (loop.test.eval P) (loop.body.exec P fuel) step n (t.setVar x a) =
      runLoop (loop.test.eval P) (loop.body.exec P fuel) step n t := by
  cases n with
  | zero => rfl
  | succ n =>
    have hblind := (blind_of_not_mem hx.framed (fun _ => a) hx.test).eval t
    simp only [State.mapVar] at hblind
    simp only [runLoop, hblind, hx.body, if_pos htest]

theorem unchanged_of_neverIterates (hx : Overwritten P loop x) (h : NeverIterates P loop)
    {fuel : Nat} {s s' : State} (hrun : loop.stmt.exec P fuel s = some (.normal, s')) :
    s'.vars x = s.vars x := by
  obtain ⟨t, hinit, hloop⟩ := exec_stmt hrun
  have htest := h fuel s s' t hrun hinit
  have hkept : (loop.test.eval P t).2.vars x = t.vars x :=
    eval_keeps (fun g => blind_of_not_mem hx.framed g hx.test) t
  have hend : s' = (loop.test.eval P t).2 := by
    cases fuel with
    | zero => simp [runLoop] at hloop
    | succ n => simpa [runLoop, htest, eq_comm] using hloop
  rw [hend, hkept, exec_keeps (hx.init fuel) hinit]

theorem neverIterates_of_unchanged (hx : Overwritten P loop x)
    (h : ∀ fuel s s', loop.stmt.exec P fuel s = some (.normal, s') → s'.vars x = s.vars x) :
    NeverIterates P loop := by
  intro fuel s s' t hrun hinit
  by_contra htest
  obtain ⟨t', hinit', hloop⟩ := exec_stmt hrun
  cases hinit.symm.trans hinit'
  have hother : loop.stmt.exec P fuel (s.setVar x (s'.vars x + 1)) = some (.normal, s') := by
    have hstart := hx.init fuel (fun _ => s'.vars x + 1) s
    simp only [State.mapVar] at hstart
    simp only [ForStatement.stmt, Stmt.exec, hstart, hinit, Option.map_some]
    rw [runLoop_overwritten hx htest]
    exact hloop
  have hkept := h fuel _ s' hother
  rw [State.setVar_self] at hkept
  omega

/-- The run over the index values does what the rounds of the loop do, apart from the index. -/
theorem runLoop_eq_runIterations (hplain : PlainHeader P loop i) (hx : x ≠ i) {fuel n : Nat}
    {s t u s' : State} {k : Int} (hs : s = t.setVar i k)
    (hrun : runIterations P fuel loop.body i (loopValues (loop.test.eval P) (loop.body.exec P fuel)
      (fun s => (loop.increment.eval P s).2) i n s) t = some u)
    (hloop : runLoop (loop.test.eval P) (loop.body.exec P fuel)
      (fun s => (loop.increment.eval P s).2) n s = some (.normal, s')) :
    u.vars x = s'.vars x := by
  induction n generalizing s t k with
  | zero => simp [runLoop] at hloop
  | succ n ih =>
    have htest := hplain.test s
    simp only [runLoop, htest] at hloop
    simp only [loopValues, htest] at hrun
    split at hloop
    next hgo =>
      rw [if_pos hgo] at hrun
      have hstart : t.setVar i (s.vars i) = s := by rw [hs]; simp
      simp only [runIterations, iteration, hstart] at hrun
      split at hloop
      next => simp at hloop
      next v hbody => simp [hbody] at hrun
      next => simp at hloop
      next v hbody =>
        obtain ⟨m, hm⟩ := hplain.step v
        rw [hbody] at hrun
        exact ih hm hrun hloop
      next v hbody =>
        obtain ⟨m, hm⟩ := hplain.step v
        rw [hbody] at hrun
        exact ih hm hrun hloop
    next hstop =>
      rw [if_neg hstop] at hrun
      simp only [Option.some.injEq, Prod.mk.injEq, true_and] at hloop
      simp only [runIterations, Option.some.injEq] at hrun
      rw [← hloop, ← hrun, hs, State.setVar_of_ne hx]

/-- A private scalar that every iteration overwrites is kept only by a loop without an iteration:
its copies are discarded. -/
theorem valueKept_iff_of_overwritten (hprivate : isPrivate loop i x)
    (hreduction : x ∉ getReductionVariables loop) (hx : Overwritten P loop x) :
    ValueKept P loop i x ↔ NeverIterates P loop := by
  constructor
  · intro h
    exact neverIterates_of_unchanged hx fun fuel s s' hrun =>
      (h fuel s s' hrun _ (.discarded hprivate)).symm
  · intro h fuel s s' hrun v hv
    cases hv with
    | discarded => exact (unchanged_of_neverIterates hx h hrun).symm
    | combined hinfo hvar => exact absurd (List.mem_map.mpr ⟨_, hinfo, hvar⟩) hreduction
    | shared hp => exact absurd hprivate hp

/-- The threads of a reduction that is alone in its loop combine to the sequential value. -/
theorem valueKept_of_reducedAlone (h : ReducedAlone P loop i x) : ValueKept P loop i x := by
  intro fuel s s' hrun v hv
  cases hv with
  | discarded hp =>
    rcases hp with rfl | hp
    · exact absurd rfl h.updated.other
    · simp [fillPrivateVars, h.reported] at hp
  | shared _ hr => exact absurd h.reported hr
  | @combined info e n schedule p hinfo hvar he hn hperm hthreads =>
    subst hvar
    have hacc := accumulates_of_reported hinfo h.updated
    obtain ⟨t, hinit, hloop⟩ := exec_stmt hrun
    obtain ⟨k, hk⟩ := h.header.init fuel s
    cases hinit.symm.trans hk
    have hvalues : iterationValues P fuel loop i s =
        loopValues (loop.test.eval P) (loop.body.exec P fuel)
          (fun s => (loop.increment.eval P s).2) i fuel (s.setVar i k) := by
      simp only [iterationValues, hinit]
    have hvalue : ((reductionStep P fuel loop.body i info.var).runThreads schedule s
        fun _ => e).map _ = _ := runThreads_value_of_accumulates hacc he hn
    rw [hthreads, Option.map_some] at hvalue
    obtain ⟨t, ht, htx⟩ := Option.map_eq_some_iff.mp hvalue.symm
    obtain ⟨u, hu, hux⟩ := orderFree_of_independent hacc h.updated.independent fuel
      (schedule.map Prod.snd) _ s t (hperm.nodup_iff.mpr (h.distinct fuel s)) hperm.symm ht
    rw [← htx, ← hux]
    exact runLoop_eq_runIterations h.header h.updated.other.symm rfl (hvalues ▸ hu) hloop

/-- A loop that is accepted has no live scalar that the strict check looks at. -/
theorem not_liveOutChecked {input : PassInput} (haccept : acceptsLoop input loop = true)
    (hscalar : x.isScalarVariable = true) : ¬LiveOutChecked input loop x := by
  intro h
  have hlive : hasScalarLiveOut loop input.readBelow = true :=
    List.any_eq_true.mpr ⟨x, h.written, by simpa [hscalar] using h.below⟩
  simp [acceptsLoop, h.strict, h.noClause, hlive] at haccept

end

def copyI : Var := ⟨0, "i", .integer 32 true, .automatic⟩

def copyT : Var := ⟨1, "t", .integer 32 true, .automatic⟩

/-- The loop `for (int i = 0; i < 4; i++) \x7b t = a[i]; b[i] = t; \x7d`, with `t` declared
before it. -/
def copyLoop : ForStatement :=
  ⟨.decl copyI (some (.intVal .int 0)), .binary .lt (.varRef copyI) (.intVal .int 4),
    .plusPlus (.varRef copyI),
    .seq (.expr (.assign (.varRef copyT)
        (.arrRef (.varRef ⟨2, "a", .array, .automatic⟩) (.varRef copyI))))
      (.seq (.expr (.assign (.arrRef (.varRef ⟨3, "b", .array, .automatic⟩) (.varRef copyI))
        (.varRef copyT))) .empty)⟩

/-- The default options of the main pass. -/
def defaultInput : PassInput := ⟨[], ⟨false, false, false, false, false⟩, true, true, [], true, false⟩

def copyPlatform : Platform :=
  ⟨fun v => if v.name = "b" then 100 else 0, fun _ => 0, fun _ => false, fun _ _ s => (0, s)⟩

theorem sumLoop_body (fuel : Nat) (s : State) :
    (sumLoop .empty).body.exec sumPlatform fuel s =
      some (.normal, s.setVar sumS (s.vars sumS + s.mem (sumPlatform.base sumA + s.vars sumI))) :=
  rfl

/-- The index values go up. -/
theorem sumLoop_values (fuel n : Nat) (s : State) :
    let values := loopValues ((sumLoop .empty).test.eval sumPlatform)
      ((sumLoop .empty).body.exec sumPlatform fuel)
      (fun s => ((sumLoop .empty).increment.eval sumPlatform s).2) sumI n s
    values.Nodup ∧ ∀ v ∈ values, s.vars sumI ≤ v := by
  induction n generalizing s with
  | zero => simp [loopValues]
  | succ n ih =>
    have htest : ((sumLoop .empty).test.eval sumPlatform s).2 = s := rfl
    simp only [loopValues, sumLoop_body, htest]
    split
    next =>
      obtain ⟨hnodup, hle⟩ := ih ((s.setVar sumS (s.vars sumS +
        s.mem (sumPlatform.base sumA + s.vars sumI))).setVar sumI (s.vars sumI + 1))
      have hnext : ∀ t : State, (t.setVar sumI (s.vars sumI + 1)).vars sumI = s.vars sumI + 1 :=
        fun t => t.setVar_self _ _
      rw [hnext] at hle
      refine ⟨List.nodup_cons.mpr ⟨fun hmem => ?_, hnodup⟩, fun v hv => ?_⟩
      · have := hle _ hmem
        omega
      · rcases List.mem_cons.mp hv with rfl | hv
        · exact le_rfl
        · have := hle v hv
          omega
    next => simp

end LoomX
