import LoomX.SideEffects
import LoomX.Sweeps

namespace LoomX

open Relation

/-- Floating-point and memory operations. -/
structure Work where
  flops : Int64
  memOps : Int64
  deriving DecidableEq

def Work.add (w v : Work) : Work := ⟨w.flops + v.flops, w.memOps + v.memOps⟩

/-- The work of a function's own body, which is counted. -/
structure LocalWork extends Work where
  flops_nonneg : 0 ≤ flops
  memOps_nonneg : 0 ≤ memOps

/-- The new estimate of a function: its own work and the estimates of its callees, but for those
that are not summarised or are recursive, and those with a negative estimate. -/
def callerWork (summaries : Summaries) (recursive : List String) (own : String → LocalWork)
    (est : String → Work) (caller : String) : Work :=
  (calleesOf summaries caller).foldl (fun total callee =>
    if (summaries.find? callee).isNone then total
    else if recursive.contains callee then total
    else if (est callee).flops < 0 || (est callee).memOps < 0 then total
    else total.add (est callee)) (own caller).toWork

/-- The functions that get an estimate, in the order of the map. -/
def estimatedFunctions (summaries : Summaries) : List String :=
  (summaries.entries.map Prod.fst).filter fun name => !(findRecursiveCycles summaries).contains name

/-- The sweeps of `propagateSideEffects` over the work estimates, where the fuel is enough. -/
def propagateWork (summaries : Summaries) (own : String → LocalWork) (fuel : Nat) :
    Option (String → Work) :=
  let recursive := findRecursiveCycles summaries
  Sweeps.untilSteady (callerWork summaries recursive own) (estimatedFunctions summaries) fuel
    fun name => if recursive.contains name then ⟨-1, -1⟩ else (own name).toWork

/-- The callees that count for a caller's work. -/
def workCallees (summaries : Summaries) (caller : String) : List String :=
  (calleesOf summaries caller).filter fun callee =>
    (summaries.find? callee).isSome && !(findRecursiveCycles summaries).contains callee

/-- Every function's total is its own work and the totals of its callees. -/
def WorkTotals (summaries : Summaries) (own total : String → Nat) : Prop :=
  ∀ f ∈ estimatedFunctions summaries, total f = own f + ((workCallees summaries f).map total).sum

section

variable {summaries : Summaries} {own : String → LocalWork} {f g : String}

theorem mem_estimatedFunctions :
    f ∈ estimatedFunctions summaries ↔ (summaries.find? f).isSome ∧ ¬OnCallCycle summaries f := by
  rw [estimatedFunctions, List.mem_filter, Bool.not_eq_true', List.contains_eq_mem,
    decide_eq_false_iff_not, mem_findRecursiveCycles]
  refine and_congr_left fun _ => ?_
  constructor
  · intro h
    obtain ⟨e, he, rfl⟩ := List.mem_map.mp h
    rw [SortedMap.mem_entries_iff.mp he]
    rfl
  · intro h
    obtain ⟨s, hs⟩ := Option.isSome_iff_exists.mp h
    exact List.mem_map.mpr ⟨(f, s), SortedMap.mem_entries_iff.mpr hs, rfl⟩

theorem mem_workCallees :
    g ∈ workCallees summaries f ↔ Calls summaries f g ∧ ¬OnCallCycle summaries g := by
  rw [workCallees, List.mem_filter, Bool.and_eq_true, Bool.not_eq_true', List.contains_eq_mem,
    decide_eq_false_iff_not, mem_findRecursiveCycles, ← and_assoc]
  rfl

theorem workCallee_estimated (h : g ∈ workCallees summaries f) : g ∈ estimatedFunctions summaries :=
  mem_estimatedFunctions.mpr ⟨(mem_workCallees.mp h).1.2, (mem_workCallees.mp h).2⟩

open Classical in
/-- How many functions a function calls, directly or not. -/
noncomputable def callRank (summaries : Summaries) (f : String) : Nat :=
  ((summaries.entries.map Prod.fst).toFinset.filter fun g => TransGen (Calls summaries) f g).card

open Classical in
theorem callRank_lt (summaries : Summaries) (f : String) :
    callRank summaries f < summaries.entries.length + 1 := by
  refine Nat.lt_succ_of_le ((Finset.card_filter_le _ _).trans ?_)
  exact (List.toFinset_card_le _).trans_eq (List.length_map _)

open Classical in
/-- Calls of functions that are not recursive go down in rank. -/
theorem callRank_workCallee (h : g ∈ workCallees summaries f) :
    callRank summaries g < callRank summaries f := by
  obtain ⟨hcall, hcycle⟩ := mem_workCallees.mp h
  refine Finset.card_lt_card (Finset.ssubset_iff_subset_ne.mpr ⟨fun k hk => ?_, fun heq => ?_⟩)
  · rw [Finset.mem_filter] at hk ⊢
    exact ⟨hk.1, .head hcall hk.2⟩
  · refine hcycle ?_
    obtain ⟨s, hs⟩ := Option.isSome_iff_exists.mp hcall.2
    have hmem : g ∈ (summaries.entries.map Prod.fst).toFinset :=
      List.mem_toFinset.mpr (List.mem_map.mpr ⟨(g, s), SortedMap.mem_entries_iff.mpr hs, rfl⟩)
    have hreached := Finset.mem_filter.mpr ⟨hmem, TransGen.single hcall⟩
    rw [← heq] at hreached
    exact (Finset.mem_filter.mp hreached).2

theorem callerWork_eq (est : String → Work) :
    callerWork summaries (findRecursiveCycles summaries) own est f =
      (workCallees summaries f).foldl (fun total callee =>
        if (est callee).flops < 0 || (est callee).memOps < 0 then total
        else total.add (est callee)) (own f).toWork := by
  rw [callerWork, workCallees, List.foldl_filter]
  refine List.foldl_ext _ _ _ fun total callee _ => ?_
  cases hfind : summaries.find? callee with
  | none => rfl
  | some s =>
    cases hrec : (findRecursiveCycles summaries).contains callee with
    | true => rfl
    | false => rfl

theorem dependsBelow_callerWork (summaries : Summaries) (own : String → LocalWork) :
    Sweeps.DependsBelow (callerWork summaries (findRecursiveCycles summaries) own)
      (estimatedFunctions summaries) (callRank summaries) := by
  intro est est' f hf hbelow
  rw [callerWork_eq, callerWork_eq]
  refine List.foldl_ext _ _ _ fun total callee hcallee => ?_
  rw [hbelow callee (workCallee_estimated hcallee) (callRank_workCallee hcallee)]

theorem dependsBelow_totals (summaries : Summaries) (count : String → Nat) :
    Sweeps.DependsBelow (fun total f => count f + ((workCallees summaries f).map total).sum)
      (estimatedFunctions summaries) (callRank summaries) := by
  intro total total' f hf hbelow
  refine congrArg (fun l : List Nat => count f + l.sum) (List.map_congr_left fun callee hcallee => ?_)
  exact hbelow callee (workCallee_estimated hcallee) (callRank_workCallee hcallee)

/-- Counts of work have totals, and only one. -/
theorem exists_workTotals (summaries : Summaries) (count : String → Nat) :
    ∃ total, WorkTotals summaries count total ∧
      ∀ other, WorkTotals summaries count other →
        ∀ f ∈ estimatedFunctions summaries, other f = total f := by
  have hdep := dependsBelow_totals summaries count
  obtain ⟨total, hrun⟩ := Sweeps.untilSteady_exists hdep (fun f _ => callRank_lt summaries f) count
  obtain ⟨hsteady, -⟩ := Sweeps.untilSteady_spec (hrun _ (Nat.lt_succ_self _))
  refine ⟨total, fun f hf => (hsteady f hf).symm, fun other hother => ?_⟩
  exact Sweeps.steady_unique hdep (fun f hf => (hother f hf).symm) hsteady

theorem toInt_add_of_lt {x y : Int64} {a b : Nat} (hx : x.toInt = a) (hy : y.toInt = b)
    (h : a + b < 2 ^ 63) : (x + y).toInt = (a + b : Nat) := by
  rw [Int64.toInt_add, hx, hy, ← Int.natCast_add]
  exact Int.bmod_eq_of_le (by omega) (by omega)

/-- Work that is some numbers of operations. -/
def Work.Is (w : Work) (flops memOps : Nat) : Prop := w.flops.toInt = flops ∧ w.memOps.toInt = memOps

theorem Work.Is.nonneg {w : Work} {flops memOps : Nat} (h : w.Is flops memOps) :
    (decide (w.flops < 0) || decide (w.memOps < 0)) = false := by
  rw [Bool.or_eq_false_iff, decide_eq_false_iff_not, decide_eq_false_iff_not, Int64.lt_iff_toInt_lt,
    Int64.lt_iff_toInt_lt, h.1, h.2, Int64.toInt_zero]
  omega

theorem own_is (own : LocalWork) : own.toWork.Is own.flops.toInt.toNat own.memOps.toInt.toNat := by
  have hflops := Int64.le_iff_toInt_le.mp own.flops_nonneg
  have hmemOps := Int64.le_iff_toInt_le.mp own.memOps_nonneg
  rw [Int64.toInt_zero] at hflops hmemOps
  exact ⟨(Int.toNat_of_nonneg hflops).symm, (Int.toNat_of_nonneg hmemOps).symm⟩

/-- Adding up estimates of callees that are right does not wrap where the total fits. -/
theorem foldl_add_is {est : String → Work} {flops memOps : String → Nat} {callees : List String}
    (h : ∀ g ∈ callees, (est g).Is (flops g) (memOps g)) {w : Work} {a b : Nat} (hw : w.Is a b)
    (ha : a + (callees.map flops).sum < 2 ^ 63) (hb : b + (callees.map memOps).sum < 2 ^ 63) :
    (callees.foldl (fun total callee =>
      if (est callee).flops < 0 || (est callee).memOps < 0 then total
      else total.add (est callee)) w).Is (a + (callees.map flops).sum)
        (b + (callees.map memOps).sum) := by
  induction callees generalizing w a b with
  | nil => exact hw
  | cons g rest ih =>
    obtain ⟨hg, hrest⟩ := List.forall_mem_cons.mp h
    rw [List.map_cons, List.sum_cons] at ha hb ⊢
    rw [List.map_cons, List.sum_cons, ← Nat.add_assoc, ← Nat.add_assoc, List.foldl_cons, hg.nonneg,
      if_neg Bool.false_ne_true]
    refine ih hrest ⟨?_, ?_⟩ (by omega) (by omega)
    · exact toInt_add_of_lt hw.1 hg.1 (by omega)
    · exact toInt_add_of_lt hw.2 hg.2 (by omega)

/-- Steady estimates are the totals where these fit. -/
theorem estimate_is_total {est : String → Work} {flops memOps : String → Nat}
    (hflops : WorkTotals summaries (fun f => (own f).flops.toInt.toNat) flops)
    (hmemOps : WorkTotals summaries (fun f => (own f).memOps.toInt.toNat) memOps)
    (hsteady : Sweeps.Steady (callerWork summaries (findRecursiveCycles summaries) own)
      (estimatedFunctions summaries) est) :
    ∀ f ∈ estimatedFunctions summaries, flops f < 2 ^ 63 → memOps f < 2 ^ 63 →
      (est f).Is (flops f) (memOps f) := by
  refine Sweeps.forall_of_below (callRank summaries) fun f hf hbelow hfit hfit' => ?_
  rw [hflops f hf] at hfit ⊢
  rw [hmemOps f hf] at hfit' ⊢
  rw [← hsteady f hf, callerWork_eq]
  refine foldl_add_is (fun g hg => ?_) (own_is (own f)) hfit hfit'
  have hle := List.single_le_sum (l := (workCallees summaries f).map flops)
    (fun _ _ => Nat.zero_le _) _ (List.mem_map_of_mem hg)
  have hle' := List.single_le_sum (l := (workCallees summaries f).map memOps)
    (fun _ _ => Nat.zero_le _) _ (List.mem_map_of_mem hg)
  exact hbelow g (workCallee_estimated hg) (callRank_workCallee hg) (by omega) (by omega)

end

theorem propagateWork_spec {summaries : Summaries} {own : String → LocalWork} {fuel : Nat}
    {est : String → Work} (h : propagateWork summaries own fuel = some est) :
    (∀ f ∈ estimatedFunctions summaries,
      callerWork summaries (findRecursiveCycles summaries) own est f = est f) ∧
      ∀ f ∈ findRecursiveCycles summaries, est f = ⟨-1, -1⟩ := by
  obtain ⟨hsteady, hkept⟩ := Sweeps.untilSteady_spec h
  refine ⟨hsteady, fun f hf => ?_⟩
  have hnot : f ∉ estimatedFunctions summaries := by
    rw [mem_estimatedFunctions, not_and_not_right]
    exact fun _ => mem_findRecursiveCycles.mp hf
  rw [hkept f hnot, if_pos (List.contains_iff_mem.mpr hf)]

/-- The sweeps end for every call graph. The recursive functions are left at minus one, and the
others have the only totals of their work and that of their callees, where these fit. -/
theorem propagateWork_totals (summaries : Summaries) (own : String → LocalWork) :
    ∃ flops memOps : String → Nat,
      (WorkTotals summaries (fun f => (own f).flops.toInt.toNat) flops ∧
        ∀ other, WorkTotals summaries (fun f => (own f).flops.toInt.toNat) other →
          ∀ f ∈ estimatedFunctions summaries, other f = flops f) ∧
      (WorkTotals summaries (fun f => (own f).memOps.toInt.toNat) memOps ∧
        ∀ other, WorkTotals summaries (fun f => (own f).memOps.toInt.toNat) other →
          ∀ f ∈ estimatedFunctions summaries, other f = memOps f) ∧
      ∃ est, (∀ fuel, summaries.entries.length + 1 < fuel →
          propagateWork summaries own fuel = some est) ∧
        (∀ f ∈ findRecursiveCycles summaries, est f = ⟨-1, -1⟩) ∧
        ∀ f ∈ estimatedFunctions summaries, flops f < 2 ^ 63 → memOps f < 2 ^ 63 →
          (est f).flops.toInt = flops f ∧ (est f).memOps.toInt = memOps f := by
  obtain ⟨flops, hflops, hunique⟩ :=
    exists_workTotals summaries fun f => (own f).flops.toInt.toNat
  obtain ⟨memOps, hmemOps, hunique'⟩ :=
    exists_workTotals summaries fun f => (own f).memOps.toInt.toNat
  refine ⟨flops, memOps, ⟨hflops, hunique⟩, ⟨hmemOps, hunique'⟩, ?_⟩
  obtain ⟨est, hrun⟩ := Sweeps.untilSteady_exists (dependsBelow_callerWork summaries own)
    (fun f _ => callRank_lt summaries f)
    fun name => if (findRecursiveCycles summaries).contains name then ⟨-1, -1⟩ else (own name).toWork
  obtain ⟨hsteady, hrecursive⟩ := propagateWork_spec (hrun _ (Nat.lt_succ_self _))
  exact ⟨est, hrun, hrecursive, estimate_is_total hflops hmemOps hsteady⟩

/-- The estimate of a function is its own work and the estimates of its callees. -/
def MeetsEquation (summaries : Summaries) (own : String → LocalWork) (est : String → Work)
    (f : String) : Prop :=
  (est f).flops.toInt =
    (own f).flops.toInt + ((workCallees summaries f).map fun g => (est g).flops.toInt).sum

/-- A function that calls itself. -/
def selfCaller : Summaries :=
  ⟨[("f", { name := "f", hasDefinition := true, callees := ["f"] })], List.pairwise_singleton _ _⟩

/-- A function that calls another one. -/
def callerAndCallee : Summaries :=
  ⟨[("f", { name := "f", hasDefinition := true, callees := ["g"] }),
    ("g", { name := "g", hasDefinition := true })], by decide⟩

def workOfOne : LocalWork := ⟨⟨1, 0⟩, by decide, by decide⟩

def workOfMost : LocalWork := ⟨⟨Int64.maxValue, 0⟩, by decide, by decide⟩

/-- The equation fails for a recursive function, and for a total that does not fit. -/
theorem propagateWork_fails :
    (¬∃ fuel est, propagateWork selfCaller (fun _ => workOfOne) fuel = some est ∧
      MeetsEquation selfCaller (fun _ => workOfOne) est "f") ∧
      ¬∃ fuel est, propagateWork callerAndCallee (fun f => if f = "f" then workOfOne else workOfMost)
          fuel = some est ∧
        MeetsEquation callerAndCallee (fun f => if f = "f" then workOfOne else workOfMost) est "f" := by
  constructor
  · intro ⟨fuel, est, hrun, heq⟩
    have hest := (propagateWork_spec hrun).2 "f" (by decide)
    have hcallees : workCallees selfCaller "f" = [] := by decide
    rw [MeetsEquation, hest, hcallees, List.map_nil] at heq
    exact absurd heq (by decide)
  · intro ⟨fuel, est, hrun, heq⟩
    have hsteady := (propagateWork_spec hrun).1
    have hcallees : workCallees callerAndCallee "f" = ["g"] := by decide
    have hleaf : workCallees callerAndCallee "g" = [] := by decide
    have hg : est "g" = workOfMost.toWork := by
      rw [← hsteady "g" (by decide), callerWork_eq, hleaf]
      rfl
    have hf : est "f" = workOfOne.toWork.add workOfMost.toWork := by
      rw [← hsteady "f" (by decide), callerWork_eq, hcallees, List.foldl_cons, List.foldl_nil, hg]
      rfl
    rw [MeetsEquation, hcallees, List.map_cons, List.map_nil, hf, hg] at heq
    exact absurd heq (by decide)

end LoomX
