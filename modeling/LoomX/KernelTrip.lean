import Mathlib.Algebra.BigOperators.Ring.Finset
import LoomX.KernelCodeGen

namespace LoomX

/-- The header of a canonical loop at given values. -/
def loopRange (v : Valuation) (loop : ForStatement) : Option LoopRange :=
  match isCanonicalForLoop loop with
  | some (iter, lower, rel, upper) =>
    some ⟨rel, v.val lower, v.val upper, incrementDelta v iter loop.increment⟩
  | none => none

theorem tripText_integerValue (v : Valuation) (loo : Int) (d : DimInfo) :
    (tripText d).integerValue v loo =
      tripValue d.unitStep d.upperExclusive (v.val d.lower) (v.val d.upper) (v.val d.step) := by
  unfold tripText tripValue
  cases d.unitStep <;> cases d.upperExclusive <;>
    by_cases h : v.val d.step = 0 <;> simp [CExpr.integerValue, h]

/-- The recorded stride is what the increment adds, except for `--`. -/
theorem incrementDelta_eq_stride {iter : Var} {inc stride : Expr}
    (h : incrementIsSimple iter inc = some stride) (hback : ∀ e, inc ≠ .minusMinus e)
    {v : Valuation} (hneg : Negates v inc) : incrementDelta v iter inc = v.val stride := by
  cases inc <;> simp only [incrementIsSimple, reduceCtorEq] at h
  case plusPlus e =>
    split at h
    next => cases Option.some.inj h; exact (v.val_intVal .int 1).symm
    next => simp at h
  case minusMinus e => exact absurd rfl (hback e)
  case compound op lhs rhs =>
    split at h
    next =>
      cases op <;> simp only [reduceCtorEq, Option.some.injEq] at h
      · subst h; rfl
      · subst h; exact hneg.symm
    next => simp at h
  case assign lhs rhs =>
    split at h
    next =>
      split at h
      next a b =>
        split at h
        next ha => cases Option.some.inj h; simp [incrementDelta, ha]
        next ha =>
          split at h
          next => cases Option.some.inj h; simp [incrementDelta, ha]
          next => simp at h
      next a b =>
        split at h
        next => cases Option.some.inj h; exact hneg.symm
        next => simp at h
      next => simp at h
    next => simp at h

theorem stride_of_minusMinus {iter : Var} {e stride : Expr}
    (h : incrementIsSimple iter (.minusMinus e) = some stride) : stride = .intVal .int 1 := by
  simp only [incrementIsSimple] at h
  split at h
  next => exact (Option.some.inj h).symm
  next => simp at h

theorem incrementDelta_of_simple {v : Valuation} {iter : Var} {inc stride : Expr}
    (h : incrementIsSimple iter inc = some stride) (hneg : Negates v inc) :
    stride = .intVal .int 1 ∧ incrementDelta v iter inc = -1 ∨
      incrementDelta v iter inc = v.val stride := by
  by_cases hback : ∃ e, inc = .minusMinus e
  · obtain ⟨e, rfl⟩ := hback
    exact Or.inl ⟨stride_of_minusMinus h, rfl⟩
  · exact Or.inr (incrementDelta_eq_stride h (fun e he => hback ⟨e, he⟩) hneg)

/-- The dimension of a canonical loop describes the range the loop runs over. -/
theorem canonical_loopRange {v : Valuation} {loop : ForStatement} {c : CanonicalResult}
    (h : canonicalAnalyze loop = .ok c) (hneg : Negates v loop.increment) :
    ∃ r, loopRange v loop = some r ∧ r.lower = v.val c.lowerBound ∧
      r.upper = v.val c.upperBound ∧ (r.rel != .le) = c.isUpperExclusive ∧
      ((dimInfo c).unitStep = true → r.delta = 1 ∨ r.delta = -1) ∧
      ((dimInfo c).unitStep = false → v.val c.stride = r.delta) := by
  obtain ⟨rel, hc, hs, hexclusive⟩ := canonicalAnalyze_ok h
  refine ⟨⟨rel, v.val c.lowerBound, v.val c.upperBound,
    incrementDelta v c.indexVar loop.increment⟩, by simp [loopRange, hc], rfl, rfl,
    hexclusive.symm, ?_, ?_⟩
  · intro hu
    have hone : c.stride = .intVal .int 1 := by simpa [dimInfo] using hu
    rcases incrementDelta_of_simple hs hneg with ⟨_, hd⟩ | hd
    · exact Or.inr hd
    · exact Or.inl (by rw [hd, hone, v.val_intVal])
  · intro hu
    have hne : c.stride ≠ .intVal .int 1 := by simpa [dimInfo] using hu
    rcases incrementDelta_of_simple hs hneg with ⟨hone, _⟩ | hd
    · exact absurd hone hne
    · exact hd.symm

theorem mapM_some_mem {α β : Type} {f : α → Option β} {xs : List α} {ys : List β}
    (h : xs.mapM f = some ys) {y : β} (hy : y ∈ ys) : ∃ x ∈ xs, f x = some y := by
  induction xs generalizing ys with
  | nil =>
    have he : ys = [] := by simpa using h.symm
    simp [he] at hy
  | cons x xs ih =>
    rw [List.mapM_cons] at h
    obtain ⟨z, hz, h⟩ := Option.bind_eq_some_iff.mp h
    obtain ⟨tail, ht, h⟩ := Option.bind_eq_some_iff.mp h
    cases Option.some.inj h
    rcases List.mem_cons.mp hy with rfl | hy
    · exact ⟨x, by simp, hz⟩
    · obtain ⟨w, hw, he⟩ := ih ht hy
      exact ⟨w, List.mem_cons_of_mem x hw, he⟩

/-- A loop of a chain has a dimension only if it is canonical. -/
theorem dim_canonical (loop : ForStatement) (inner : Bool) (l : ForStatement)
    (q : ForStatement × DimInfo)
    (hq : (match canonicalAnalyze l with
      | .error _ => none
      | .ok c =>
        if inner && (exprReferencesAny c.lowerBound (nestIndexVars loop) ||
            exprReferencesAny c.upperBound (nestIndexVars loop) ||
            exprReferencesAny c.stride (nestIndexVars loop))
        then none else some (l, dimInfo c)) = some q) :
    ∃ c, canonicalAnalyze q.1 = .ok c ∧ q.2 = dimInfo c := by
  split at hq
  next => simp at hq
  next c hc =>
    split at hq
    next => simp at hq
    next => cases Option.some.inj hq; exact ⟨c, hc, rfl⟩

theorem collapsedDims_canonical {loop : ForStatement} {depth : Nat}
    {dims : List (ForStatement × DimInfo)} (h : collapsedDims loop depth = some dims)
    {p : ForStatement × DimInfo} (hp : p ∈ dims) :
    ∃ c, canonicalAnalyze p.1 = .ok c ∧ p.2 = dimInfo c := by
  unfold collapsedDims at h
  split at h
  next => simp at h
  next front rest hchain =>
    obtain ⟨d, hd, h⟩ := Option.bind_eq_some_iff.mp h
    obtain ⟨ds, hds, h⟩ := Option.bind_eq_some_iff.mp h
    cases Option.some.inj h
    rcases List.mem_cons.mp hp with rfl | hp
    · exact dim_canonical loop false front p hd
    · obtain ⟨l, _, hl⟩ := mapM_some_mem hds hp
      exact dim_canonical loop true l p hl

theorem foldl_trip_eval {v : Valuation} {loo : Int} {ds : List DimInfo} {ts : List Int}
    (h : List.Forall₂ (fun d t => (tripText d).integerValue v loo = some t) ds ts) {acc : CExpr}
    {a : Int} (ha : acc.integerValue v loo = some a) :
    (ds.foldl (fun acc e => .mul acc (tripText e)) acc).integerValue v loo =
      some (a * ts.prod) := by
  induction h generalizing acc a with
  | nil => simpa using ha
  | @cons d t ds ts hd _ ih =>
    have hacc : (CExpr.mul acc (tripText d)).integerValue v loo = some (a * t) := by
      simp [CExpr.integerValue, ha, hd]
    rw [List.foldl_cons, ih hacc, List.prod_cons, mul_assoc]

theorem totalTrip_eval {v : Valuation} {loo : Int} {ds : List DimInfo} {ts : List Int}
    (h : List.Forall₂ (fun d t => (tripText d).integerValue v loo = some t) ds ts) :
    (totalTrip ds).integerValue v loo = some ts.prod := by
  cases h with
  | nil => rfl
  | cons hd hds => exact foldl_trip_eval hds hd

/-- The runs of the loops of a nest, each inside the given iterations of the loops around it. -/
abbrev NestRun := List Nat → HeaderRun

/-- How often the body of a nest is executed inside the given iterations. -/
inductive NestCount (R : NestRun) : List Nat → List ForStatement → Nat → Prop
  | body {around : List Nat} : NestCount R around [] 1
  | loop {around : List Nat} {L : ForStatement} {Ls : List ForStatement} {run : IndexRun} {n : Nat}
      {m : Nat → Nat} (hrun : headerRun (R around) L = some run) (hn : run.Runs n)
      (hinner : ∀ q < n, NestCount R (around ++ [q]) Ls (m q)) :
      NestCount R around (L :: Ls) (∑ q ∈ Finset.range n, m q)

/-- A loop that runs as its header says over the integers, with the values of the launch. -/
structure SteadyLoop (v : Valuation) (loop : ForStatement) (r : HeaderRun) : Prop where
  negates : Negates v loop.increment
  run : ∀ iter lower rel upper, isCanonicalForLoop loop = some (iter, lower, rel, upper) →
    r.Executes loop iter ∧ r.Plain loop iter lower rel upper ∧
      r.entry.val lower = v.val lower ∧
      (∀ k, r.Tested loop k → (r.atTest k).val upper = v.val upper) ∧
      ∀ k, r.Tested loop (k + 1) →
        incrementDelta (r.atStep k) iter loop.increment = incrementDelta v iter loop.increment

/-- The loop of every dimension is steady, in all iterations of the loops around it. -/
def SteadyNest (v : Valuation) (R : NestRun) (dims : List (ForStatement × DimInfo)) : Prop :=
  ∀ (i : Nat) p, dims[i]? = some p → ∀ around, around.length = i → SteadyLoop v p.1 (R around)

/-- The trips and their product are computed without overflow, and the product is a `long`. -/
structure TripsFit (v : Valuation) (dims : List DimInfo) : Prop where
  trip : ∀ d ∈ dims, (tripText d).Fits v 0
  total : (totalTrip dims).Fits v 0
  long : ∀ t, (totalTrip dims).integerValue v 0 = some t → (CType.integer 64 true).contains t

/-- The emitted trips are the numbers of iterations of their loops, and `__tot` is that of the
nest. -/
structure TripCountsCorrect (v : Valuation) (R : NestRun) (dims : List (ForStatement × DimInfo)) :
    Prop where
  trip : ∀ (i : Nat) p, dims[i]? = some p → ∀ around, around.length = i →
    ∃ run, ∃ n : Nat, headerRun (R around) p.1 = some run ∧ run.Runs n ∧
      (tripText p.2).eval v 0 = some (n : Int)
  total : ∃ n : Nat, NestCount R [] (dims.map Prod.fst) n ∧
    ((totalTrip (dims.map Prod.snd)).eval v 0).map (CType.convert (.integer 64 true)) =
      some (n : Int)

theorem indexAt_of_steady {l d : Int} {δ : Nat → Int} {q : Nat} (h : ∀ k < q, δ k = d) :
    indexAt l δ q = l + q * d := by
  induction q with
  | zero => simp [indexAt]
  | succ q ih =>
    rw [indexAt, ih fun k hk => h k (by omega), h q (by omega)]
    push_cast
    ring

/-- A steady loop has the iterations of its header. -/
theorem steady_runs_iff {v : Valuation} {loop : ForStatement} {r : HeaderRun} {range : LoopRange}
    (h : SteadyLoop v loop r) (hrange : loopRange v loop = some range) {n : Nat} :
    (∃ run, headerRun r loop = some run ∧ run.Runs n) ↔ range.Runs n := by
  unfold loopRange at hrange
  split at hrange
  next iter lower rel upper hc =>
    obtain rfl := Option.some.inj hrange
    obtain ⟨hexec, hplain, hlower, hupper, hstep⟩ := h.run iter lower rel upper hc
    let fixed : IndexRun := ⟨fun k => v.val lower + k * incrementDelta v iter loop.increment,
      fun k => rel.holds (v.val lower + k * incrementDelta v iter loop.increment) (v.val upper)⟩
    have hsame : ∀ run, headerRun r loop = some run → run.Same fixed := by
      intro run hrun
      simp only [headerRun, hc, Option.some.injEq] at hrun
      subst hrun
      refine IndexRun.same_iff.mpr fun q hq => ?_
      have htested := tested_of_holds hplain hq
      have hindex := index_eq_of_plain hc hexec hplain htested
      rw [hlower, indexAt_of_steady fun k hk => hstep k fun j hj => htested j (by omega)] at hindex
      obtain ⟨hstays, htest⟩ := hplain.test q htested
      refine ⟨?_, fun _ => hindex⟩
      dsimp only
      rw [htest, and_iff_left fun j hj => (htested j hj).2, hindex, hupper q htested]
    have hsome : ∃ run, headerRun r loop = some run := by simp [headerRun, hc]
    obtain ⟨run, hrun⟩ := hsome
    simp only [hrun, Option.some.injEq, exists_eq_left']
    exact (hsame run hrun).runs_iff
  next => simp at hrange

/-- The trip expression of a dimension is the number of iterations of its loop. -/
theorem trip_runs_iff {v : Valuation} {loop : ForStatement} {c : CanonicalResult}
    (h : canonicalAnalyze loop = .ok c) (hneg : Negates v loop.increment) :
    ∃ r, loopRange v loop = some r ∧
      ((∃ n : Nat, r.Runs n ∧ (tripText (dimInfo c)).integerValue v 0 = some (n : Int)) ↔
        TripExact (dimInfo c).unitStep r) := by
  obtain ⟨r, hr, hlower, hupper, hexcl, hunit, hstep⟩ := canonical_loopRange h hneg
  refine ⟨r, hr, ?_⟩
  rw [← trip_exact_iff (v.val c.stride) hunit hstep, tripText_integerValue, hlower, hupper, hexcl]
  rfl

theorem nestCount_prod {R : NestRun} {Ls : List ForStatement} {ns : List Nat}
    (hlen : Ls.length = ns.length) (around : List Nat)
    (h : ∀ (i : Nat) L n, Ls[i]? = some L → ns[i]? = some n → ∀ inner, inner.length = i →
      ∃ run, headerRun (R (around ++ inner)) L = some run ∧ run.Runs n) :
    NestCount R around Ls ns.prod := by
  induction Ls generalizing ns around with
  | nil =>
    obtain rfl : ns = [] := List.length_eq_zero_iff.mp hlen.symm
    exact .body
  | cons L Ls ih =>
    cases ns with
    | nil => simp at hlen
    | cons n ns =>
      obtain ⟨run, hrun, hn⟩ := h 0 L n rfl rfl [] rfl
      rw [List.append_nil] at hrun
      have hinner : ∀ q < n, NestCount R (around ++ [q]) Ls ns.prod := by
        refine fun q _ => ih (by simpa using hlen) _ fun i L' n' hL hn' inner hinner => ?_
        have := h (i + 1) L' n' (by simpa using hL) (by simpa using hn') (q :: inner)
          (by simpa using hinner)
        simpa using this
      have hcount := NestCount.loop hrun hn hinner
      rwa [Finset.sum_const, Finset.card_range, nsmul_eq_mul, Nat.cast_id, ← List.prod_cons]
        at hcount

theorem exists_list_of_getElem? {α β : Type} {Q : Nat → α → β → Prop} {xs : List α}
    (h : ∀ (i : Nat) x, xs[i]? = some x → ∃ y, Q i x y) :
    ∃ ys : List β, xs.length = ys.length ∧
      ∀ (i : Nat) x y, xs[i]? = some x → ys[i]? = some y → Q i x y := by
  induction xs generalizing Q with
  | nil => exact ⟨[], rfl, by simp⟩
  | cons x xs ih =>
    obtain ⟨y, hy⟩ := h 0 x rfl
    obtain ⟨ys, hlen, hys⟩ := ih (Q := fun i => Q (i + 1)) fun i z hz => h (i + 1) z (by simpa using hz)
    refine ⟨y :: ys, by simpa using hlen, fun i z w hz hw => ?_⟩
    cases i with
    | zero =>
      cases hz
      cases hw
      exact hy
    | succ i => exact hys i z w (by simpa using hz) (by simpa using hw)

/-- In a steady nest whose trips fit their types, the emitted trip counts are right exactly at the
bounds and steps of `TripExact`. -/
theorem tripCounts_correct_iff {loop : ForStatement} {depth : Nat}
    {dims : List (ForStatement × DimInfo)} (h : collapsedDims loop depth = some dims)
    {v : Valuation} {R : NestRun} (hsteady : SteadyNest v R dims)
    (hfits : TripsFit v (dims.map Prod.snd)) :
    TripCountsCorrect v R dims ↔
      ∀ p ∈ dims, ∃ r, loopRange v p.1 = some r ∧ TripExact p.2.unitStep r := by
  have hdim : ∀ (i : Nat) p, dims[i]? = some p → ∃ r, loopRange v p.1 = some r ∧
      (tripText p.2).eval v 0 = (tripText p.2).integerValue v 0 ∧
      ((∃ n : Nat, r.Runs n ∧ (tripText p.2).integerValue v 0 = some (n : Int)) ↔
        TripExact p.2.unitStep r) := by
    intro i p hp
    have hmem := List.mem_of_getElem? hp
    obtain ⟨c, hc, he⟩ := collapsedDims_canonical h hmem
    have hneg := (hsteady i p hp (List.replicate i 0) List.length_replicate).negates
    obtain ⟨r, hr, hiff⟩ := trip_runs_iff hc hneg
    refine ⟨r, hr, CExpr.eval_of_fits (hfits.trip p.2 (List.mem_map_of_mem hmem)), ?_⟩
    rw [he]
    exact hiff
  constructor
  · intro hcorrect p hp
    obtain ⟨i, hi⟩ := List.getElem?_of_mem hp
    obtain ⟨r, hr, heval, hiff⟩ := hdim i p hi
    obtain ⟨run, n, hrun, hn, htrip⟩ :=
      hcorrect.trip i p hi (List.replicate i 0) List.length_replicate
    have hsteadyLoop := hsteady i p hi (List.replicate i 0) List.length_replicate
    exact ⟨r, hr, hiff.mp ⟨n, (steady_runs_iff hsteadyLoop hr).mp ⟨run, hrun, hn⟩,
      heval ▸ htrip⟩⟩
  · intro hexact
    have hloop : ∀ (i : Nat) p, dims[i]? = some p → ∃ n : Nat,
        (tripText p.2).integerValue v 0 = some (n : Int) ∧ ∀ around, around.length = i →
          ∃ run, headerRun (R around) p.1 = some run ∧ run.Runs n := by
      intro i p hp
      obtain ⟨r, hr, -, hiff⟩ := hdim i p hp
      obtain ⟨r', hr', htrip⟩ := hexact p (List.mem_of_getElem? hp)
      cases Option.some.inj (hr'.symm.trans hr)
      obtain ⟨n, hn, hvalue⟩ := hiff.mpr htrip
      exact ⟨n, hvalue, fun around hi => (steady_runs_iff (hsteady i p hp around hi) hr).mpr hn⟩
    refine ⟨fun i p hp around hi => ?_, ?_⟩
    · obtain ⟨n, hvalue, hruns⟩ := hloop i p hp
      obtain ⟨run, hrun, hn⟩ := hruns around hi
      obtain ⟨r, -, heval, -⟩ := hdim i p hp
      exact ⟨run, n, hrun, hn, heval.trans hvalue⟩
    · obtain ⟨ns, hlen, hns⟩ := exists_list_of_getElem? hloop
      have hcount : NestCount R [] (dims.map Prod.fst) ns.prod := by
        refine nestCount_prod (by simpa using hlen) [] fun i L n hL hn around hi => ?_
        obtain ⟨p, hp, rfl⟩ : ∃ p, dims[i]? = some p ∧ p.1 = L := by
          simpa [List.getElem?_map] using hL
        exact (hns i p n hp hn).2 around hi
      have htrips : List.Forall₂ (fun d t => (tripText d).integerValue v 0 = some t)
          (dims.map Prod.snd) (ns.map fun n : Nat => (n : Int)) := by
        simp only [List.forall₂_map_left_iff, List.forall₂_map_right_iff]
        refine List.forall₂_iff_get.mpr ⟨hlen, fun i hi hi' => ?_⟩
        exact (hns i _ _ (List.getElem?_eq_getElem hi) (List.getElem?_eq_getElem hi')).1
      have htotal := totalTrip_eval htrips
      refine ⟨ns.prod, hcount, ?_⟩
      rw [CExpr.eval_of_fits hfits.total, htotal, Option.map_some,
        CType.convert_of_contains (by simp) (hfits.long _ htotal), Nat.cast_list_prod]

def intVar (id : Nat) (name : String) : Var := ⟨id, name, .integer 32 true, .automatic⟩

/-- `for (i = 0; i < n; i++) for (j = 0; j < m; j++) a[i * m + j] = 0;` -/
def fillNest : ForStatement :=
  let i := Expr.varRef (intVar 0 "i")
  let j := Expr.varRef (intVar 1 "j")
  let n := Expr.varRef (intVar 2 "n")
  let m := Expr.varRef (intVar 3 "m")
  let zero := Expr.intVal .int 0
  let a := Expr.varRef ⟨4, "a", .pointer, .automatic⟩
  ⟨.expr (.assign i zero), .binary .lt i n, .plusPlus i,
    .seq (.forLoop (.expr (.assign j zero)) (.binary .lt j m) (.plusPlus j)
      (.seq (.expr (.assign (.arrRef a (.binary .add (.binary .mul i m) j)) zero)) .empty)) .empty⟩

/-- `n` and `m` have one value, the other variables another. -/
def squareBounds (k x : Int) (v : Var) : Int := if v.id = 2 ∨ v.id = 3 then k else x

def fillDims : List (ForStatement × DimInfo) := (collapsedDims fillNest 2).getD []

/-- The values before the nest. -/
def fillLaunch (k : Int) : Valuation := .ofVars (squareBounds k 0)

/-- Both loops count up from zero. -/
def fillRun (k : Int) : NestRun := fun _ =>
  let values (q : Nat) : Valuation := .ofVars (squareBounds k q)
  ⟨values 0, values, values, fun _ => False⟩

theorem int_contains_iff {n : Int} : CType.int.contains n ↔ -2 ^ 31 ≤ n ∧ n < 2 ^ 31 := Iff.rfl

/-- A loop of the nest with any body. -/
def rowLoop (i n : Var) (body : Stmt) : ForStatement :=
  ⟨.expr (.assign (.varRef i) (.intVal .int 0)), .binary .lt (.varRef i) (.varRef n),
    .plusPlus (.varRef i), body⟩

theorem fillTest_iff {k : Int} {i n : Var} {body : Stmt} {around : List Nat} {q : Nat}
    (hi : i.id < 2) (hn : n.id = 2 ∨ n.id = 3) (hit : i.type = .int) (hnt : n.type = .int) :
    testHolds ((fillRun k around).atTest q) (rowLoop i n body).test ↔
      CType.int.convert q < CType.int.convert k := by
  have hne : ¬(i.id = 2 ∨ i.id = 3) := by omega
  have htype : CType.int.arithmetic CType.int = CType.int := rfl
  simp [testHolds, fillRun, rowLoop, Valuation.ofVars, Expr.value, Expr.subscriptType,
    squareBounds, hit, hnt, hn, hne, htype, LoopTest.holds]

theorem fillTested_le {k : Int} {i n : Var} {body : Stmt} {around : List Nat} {q : Nat}
    (hk : CType.int.contains k) (hi : i.id < 2) (hn : n.id = 2 ∨ n.id = 3) (hit : i.type = .int)
    (hnt : n.type = .int) (h : (fillRun k around).Tested (rowLoop i n body) q) :
    (q : Int) ≤ max 0 k := by
  by_contra hlt
  have hlt : k.toNat < q := by omega
  have htest := (fillTest_iff hi hn hit hnt).mp (h k.toNat hlt).1
  have hcontains : CType.int.contains (k.toNat : Int) := by
    rw [int_contains_iff] at hk ⊢
    omega
  rw [CType.convert_of_contains (by decide) hk, CType.convert_of_contains (by decide) hcontains]
    at htest
  omega

theorem rowLoop_steady {k : Int} {i n : Var} {body : Stmt} {around : List Nat}
    (hk : CType.int.contains k) (hi : i.id < 2) (hn : n.id = 2 ∨ n.id = 3) (hit : i.type = .int)
    (hnt : n.type = .int) :
    SteadyLoop (fillLaunch k) (rowLoop i n body) (fillRun k around) := by
  have hne : ¬(i.id = 2 ∨ i.id = 3) := by omega
  have hle := fun q (h : (fillRun k around).Tested (rowLoop i n body) q) =>
    fillTested_le hk hi hn hit hnt h
  have hindex : ∀ q, (fillRun k around).index i q = q := fun q => if_neg hne
  have hupper : ∀ q, ((fillRun k around).atTest q).val (.varRef n) = k := fun q => if_pos hn
  have hstep : ∀ q, (fillRun k around).Tested (rowLoop i n body) (q + 1) →
      CType.int.contains ((q : Int) + 1) := by
    intro q hq
    have := hle _ hq
    rw [int_contains_iff] at hk ⊢
    omega
  refine ⟨trivial, fun iter lower rel upper hc => ?_⟩
  obtain ⟨hinit, -, w, htest, hw⟩ := isCanonicalForLoop_some hc
  obtain ⟨rfl, rfl⟩ := Prod.mk.inj (Option.some.inj hinit)
  have hform : (LoopTest.lt, i, Expr.varRef n) = (rel, w, upper) := Option.some.inj htest
  obtain ⟨rfl, -, rfl⟩ : LoopTest.lt = rel ∧ i = w ∧ Expr.varRef n = upper := by
    simpa using hform
  have hat : ∀ q, ((fillRun k around).atStep q).val (.varRef i) = (q : Int) := hindex
  have hvalue : ∀ q, (fillRun k around).Tested (rowLoop i n body) (q + 1) →
      stepValue ((fillRun k around).atStep q) i (rowLoop i n body).increment =
        some ((q : Int) + 1) := by
    intro q hq
    show BinOp.add.typed (i.type.arithmetic .int) _ 1 = _
    rw [hat, hit]
    exact CType.result_of_contains (hstep q hq)
  refine ⟨⟨fun q => ⟨rfl, rfl⟩, ?_, fun q hq => ⟨_, hvalue q hq, ?_⟩⟩,
    ⟨rfl, ?_, fun q hq => ⟨id, ?_⟩, fun q hq => ⟨rfl, ?_, ?_, trivial⟩⟩, ?_, fun _ _ => ?_,
    fun _ _ => rfl⟩
  · rw [hindex]
    show some (i.type.convert 0) = some 0
    rw [hit]
    rfl
  · rw [hindex, hit, CType.convert_of_contains (by decide) (hstep q hq)]
    rfl
  · rw [hit]
    exact CType.contains_zero
  · have hq := hle q hq
    rw [fillTest_iff hi hn hit hnt, hindex, hupper, CType.convert_of_contains (by decide) hk,
      CType.convert_of_contains (by decide) (show CType.int.contains (q : Int) by
        rw [int_contains_iff] at hk ⊢
        omega)]
    rfl
  · rw [hat]
    exact hvalue q hq
  · rw [hat, hit]
    exact hstep q hq
  · rfl
  · rw [hupper]
    exact (if_pos hn).symm

theorem fillRun_steady {k : Int} (hk : CType.int.contains k) :
    SteadyNest (fillLaunch k) (fillRun k) fillDims := by
  intro i p hp around _
  match i with
  | 0 | 1 =>
    cases hp
    exact rowLoop_steady hk (by decide) (by decide) rfl rfl
  | i + 2 =>
    have hnone : fillDims[i + 2]? = none := List.getElem?_eq_none (by
      have hlen : fillDims.length = 2 := by decide
      omega)
    rw [hnone] at hp
    cases hp

/-- Two empty dimensions of trip `-2` each launch four threads. -/
theorem fillNest_trip_not_correct :
    collapsedDims fillNest 2 = some fillDims ∧ SteadyNest (fillLaunch (-2)) (fillRun (-2)) fillDims ∧
      (totalTrip (fillDims.map Prod.snd)).eval (fillLaunch (-2)) 0 = some 4 ∧
      NestCount (fillRun (-2)) [] (fillDims.map Prod.fst) 0 ∧
      ¬TripCountsCorrect (fillLaunch (-2)) (fillRun (-2)) fillDims := by
  refine ⟨by decide, fillRun_steady (by decide), by decide, ?_, ?_⟩
  · have hempty : ¬testHolds ((fillRun (-2) []).atTest 0) fillNest.test := by
      rw [show fillNest.test = (rowLoop (intVar 0 "i") (intVar 2 "n") .empty).test from rfl,
        fillTest_iff (by decide) (by decide) rfl rfl]
      decide
    have hruns : IndexRun.Runs ⟨(fillRun (-2) []).index (intVar 0 "i"), fun k =>
        testHolds ((fillRun (-2) []).atTest k) fillNest.test ∧ ∀ j < k, ¬False⟩ 0 :=
      ⟨fun k hk => absurd hk (Nat.not_lt_zero k), fun h => hempty h.1⟩
    exact NestCount.loop (m := fun _ => 0) rfl hruns fun q hq => absurd hq (Nat.not_lt_zero q)
  rintro ⟨htrip, -⟩
  obtain ⟨_, n, -, -, ht⟩ := htrip 0 _ rfl [] rfl
  have hval : (some (-2) : Option Int) = some (n : Int) := ht
  have := Option.some.inj hval
  omega

theorem fillNest_trip_correct :
    collapsedDims fillNest 2 = some fillDims ∧
      TripCountsCorrect (fillLaunch 3) (fillRun 3) fillDims := by
  have hdims : collapsedDims fillNest 2 = some fillDims := by decide
  refine ⟨hdims, (tripCounts_correct_iff hdims (fillRun_steady (by decide)) ?_).mpr ?_⟩
  · exact ⟨by decide, by decide, fun t ht => by cases ht; decide⟩
  · intro p hp
    have hexact : TripExact true ⟨.lt, 0, 3, 1⟩ := by simp [TripExact]
    rcases List.mem_pair.mp hp with rfl | rfl
    · exact ⟨_, rfl, hexact⟩
    · exact ⟨_, rfl, hexact⟩

end LoomX
