import LoomX.TreeRewriting

namespace LoomX

namespace Tree

variable {α : Type}

mutual

/-- The nodes of a tree with their addresses, each before those below it. -/
def preorder : Tree α → List (List Nat × α)
  | node a cs => ([], a) :: preorderFrom 0 cs

def preorderFrom (k : Nat) : List (Tree α) → List (List Nat × α)
  | [] => []
  | c :: cs => (preorder c).map (fun n => (k :: n.1, n.2)) ++ preorderFrom (k + 1) cs

end

/-- The node at the first address has the one at the second below it. -/
def IsAncestor (p q : List Nat) : Prop := p <+: q ∧ p ≠ q

instance (p q : List Nat) : Decidable (IsAncestor p q) :=
  inferInstanceAs (Decidable (p <+: q ∧ p ≠ q))

theorem IsAncestor.trans {p q r : List Nat} (h : IsAncestor p q) (h' : IsAncestor q r) :
    IsAncestor p r := by
  refine ⟨h.1.trans h'.1, ?_⟩
  rintro rfl
  exact h.2 (h.1.eq_of_length_le h'.1.length_le)

theorem not_isAncestor_self (p : List Nat) : ¬IsAncestor p p := fun h => h.2 rfl

theorem isAncestor_cons {i j : Nat} {p q : List Nat} :
    IsAncestor (i :: p) (j :: q) ↔ i = j ∧ IsAncestor p q := by
  simp only [IsAncestor, List.cons_prefix_cons, ne_eq, List.cons.injEq, not_and]
  constructor
  · rintro ⟨⟨rfl, hpre⟩, hne⟩
    exact ⟨rfl, hpre, hne rfl⟩
  · rintro ⟨rfl, hpre, hne⟩
    exact ⟨⟨rfl, hpre⟩, fun _ => hne⟩

theorem preorderFrom_ge (cs : List (Tree α)) {k : Nat} {n : List Nat × α}
    (h : n ∈ preorderFrom k cs) : ∃ j rest, k ≤ j ∧ n.1 = j :: rest := by
  induction cs generalizing k with
  | nil => simp [preorderFrom] at h
  | cons c cs ih =>
    rw [preorderFrom, List.mem_append] at h
    rcases h with h | h
    · obtain ⟨m, _, rfl⟩ := List.mem_map.mp h
      exact ⟨k, m.1, Nat.le_refl k, rfl⟩
    · obtain ⟨j, rest, hj, heq⟩ := ih h
      exact ⟨j, rest, by omega, heq⟩

mutual

/-- No node comes after one below it. -/
theorem preorder_pairwise : ∀ t : Tree α,
    (preorder t).Pairwise fun m n => m.1 ≠ n.1 ∧ ¬IsAncestor n.1 m.1
  | node a cs => by
    rw [preorder, List.pairwise_cons]
    refine ⟨fun n hn => ?_, preorderFrom_pairwise 0 cs⟩
    obtain ⟨j, rest, _, heq⟩ := preorderFrom_ge cs hn
    rw [heq]
    refine ⟨(List.cons_ne_nil j rest).symm, fun h => ?_⟩
    exact List.cons_ne_nil j rest (List.prefix_nil.mp h.1)

theorem preorderFrom_pairwise (k : Nat) : ∀ cs : List (Tree α),
    (preorderFrom k cs).Pairwise fun m n => m.1 ≠ n.1 ∧ ¬IsAncestor n.1 m.1
  | [] => List.Pairwise.nil
  | c :: cs => by
    rw [preorderFrom, List.pairwise_append]
    refine ⟨?_, preorderFrom_pairwise (k + 1) cs, fun m hm n hn => ?_⟩
    · rw [List.pairwise_map]
      refine (preorder_pairwise c).imp fun h => ?_
      rw [isAncestor_cons, Ne, List.cons.injEq]
      exact ⟨fun heq => h.1 heq.2, fun hanc => h.2 hanc.2⟩
    · obtain ⟨m, _, rfl⟩ := List.mem_map.mp hm
      obtain ⟨j, rest, hj, heq⟩ := preorderFrom_ge cs hn
      rw [heq, isAncestor_cons, Ne, List.cons.injEq]
      omega

end

end Tree

inductive ParallelTarget
  | sequential
  | cpuOpenmp
  | gpuOffload
  deriving DecidableEq, Repr

inductive TranslationMode
  | gpuProfitable
  | cpuOnly
  | cpuForced
  | gpuNaive
  | analyzeOnly
  deriving DecidableEq, Repr

inductive CodeGenBackend
  | omp
  | cuda
  | opencl
  | openacc
  deriving DecidableEq, Repr

structure DriverOptions where
  mode : TranslationMode
  backend : CodeGenBackend
  phaseCouple : Bool
  scalarDepCheck : Bool
  strictRaceSafety : Bool
  minIterationsForCPU : Int

/-- What the analyses, the cost model and the code generators say about a loop. -/
structure LoopFacts where
  funcName : String
  hasLoopCarriedDependence : Bool
  blocksTransformation : Bool
  hasScalarLoopCarriedDependence : Bool
  hasFunctionCalls : Bool
  allFunctionCallsSafe : Bool
  hasReductions : Bool
  hasUnprovenScalarWrites : Bool
  hasScalarLiveOut : Bool
  pragmaHasReduction : Bool
  pragmaHasDataSharingClauses : Bool
  pragmaHasThreadprivate : Bool
  pragmaHasLastprivate : Bool
  target : ParallelTarget
  iterationCount : Int
  isInitializationLoop : Bool
  reads : List String
  writes : List String
  batched : Bool
  pipelineStage : Int
  isCalledInsideLoop : Bool
  kernelGenerated : Bool
  storageIsFullyMapped : Bool

/-- A loop of the program: where it stands in the loop forest, and the facts about it. -/
abbrev LoopNode := List Nat × LoopFacts

structure LoopSummary where
  loop : List Nat
  facts : LoopFacts
  target : ParallelTarget

namespace LoopFacts

def initHelperLoop (l : LoopFacts) : Bool := l.funcName == "init_array"

/-- The checks after which the driver skips a loop. -/
def skipped (o : DriverOptions) (l : LoopFacts) : Bool :=
  l.hasLoopCarriedDependence ||
  l.blocksTransformation ||
  (o.scalarDepCheck && l.hasScalarLoopCarriedDependence) ||
  (l.hasFunctionCalls && !l.allFunctionCallsSafe) ||
  (o.strictRaceSafety && l.hasReductions && !l.pragmaHasReduction) ||
  (o.strictRaceSafety && l.hasUnprovenScalarWrites && !l.pragmaHasDataSharingClauses &&
    !l.pragmaHasThreadprivate && !l.pragmaHasReduction) ||
  (o.strictRaceSafety && l.hasScalarLiveOut && !l.pragmaHasLastprivate)

/-- The target after the override by the translation mode. -/
def modeTarget (o : DriverOptions) (l : LoopFacts) : ParallelTarget :=
  if l.initHelperLoop then l.target
  else
    match o.mode with
    | .cpuOnly => if l.target ≠ .sequential then .cpuOpenmp else l.target
    | .cpuForced =>
      if 0 ≤ l.iterationCount ∧ o.minIterationsForCPU ≤ l.iterationCount then .cpuOpenmp
      else l.target
    | .gpuNaive => .gpuOffload
    | _ => l.target

end LoopFacts

structure Selection where
  accepted : List (LoopSummary × Bool)
  selectedLoops : List (List Nat)

open LoomX.Tree (IsAncestor)

/-- One round of the driver's loop over the collected loops. -/
def processLoop (o : DriverOptions) (s : Selection) (node : LoopNode) : Selection :=
  let (loop, l) := node
  if l.funcName == "print_array" then s
  else if s.selectedLoops.any fun parentLoop => IsAncestor parentLoop loop then s
  else if l.skipped o then s
  else
    let target := l.modeTarget o
    let summary : LoopSummary := ⟨loop, l, target⟩
    if target = .sequential then
      if l.initHelperLoop then ⟨s.accepted ++ [(summary, true)], s.selectedLoops⟩ else s
    else if o.mode = .analyzeOnly then s
    else
      ⟨s.accepted ++ [(summary, l.initHelperLoop)],
        if target = .gpuOffload then loop :: s.selectedLoops else s.selectedLoops⟩

def selectLoops (o : DriverOptions) (loops : List LoopNode) : Selection :=
  loops.foldl (processLoop o) ⟨[], []⟩

namespace LoopSummary

def isGpu (s : LoopSummary) : Bool := s.target == .gpuOffload

/-- The second loop reads or writes an array that the first one writes. -/
def consumedBy (s later : LoopSummary) : Bool :=
  s.facts.writes.any fun w => w ∈ later.facts.reads || w ∈ later.facts.writes

def candidate (s : LoopSummary) (later : List LoopSummary) : Bool :=
  !s.isGpu && s.facts.isInitializationLoop && !s.facts.writes.isEmpty &&
    later.any fun l => l.isGpu && s.consumedBy l

/-- No loop before the consuming one stays on the CPU and touches the arrays. -/
def couplingSafe (s : LoopSummary) : List LoopSummary → Bool
  | [] => false
  | l :: later =>
    if l.isGpu && s.consumedBy l then true
    else if l.isGpu || l.candidate later then s.couplingSafe later
    else if s.consumedBy l then false
    else s.couplingSafe later

/-- `phaseCoupleInitLoops`. -/
def phaseCouple : List LoopSummary → List LoopSummary
  | [] => []
  | s :: later =>
    (if s.candidate later && s.couplingSafe later then { s with target := .gpuOffload } else s) ::
      phaseCouple later

/-- Small helper loops that are called from inside a loop are kept sequential. -/
def keepSequential (s : LoopSummary) : LoopSummary :=
  if s.facts.funcName == "" || s.facts.funcName == "main" then s
  else if s.target ≠ .gpuOffload then s
  else if s.facts.batched || 0 ≤ s.facts.pipelineStage then s
  else if 1000 ≤ s.facts.iterationCount then s
  else if !s.facts.isCalledInsideLoop then s
  else { s with target := .sequential }

/-- Whether a pragma is put before the loop. A kernel that is extracted replaces the loop. -/
def pragmaInserted (o : DriverOptions) (s : LoopSummary) : Bool :=
  match s.target with
  | .sequential => false
  | .cpuOpenmp => true
  | .gpuOffload =>
    match o.backend with
    | .cuda | .opencl => !s.facts.kernelGenerated
    | .openacc => true
    | .omp => s.facts.storageIsFullyMapped

end LoopSummary

open LoopSummary

/-- The accepted loops with their targets after the passes over all of them. -/
def finalTargets (o : DriverOptions) (accepted : List (LoopSummary × Bool)) :
    List (LoopSummary × Bool) :=
  let summaries := accepted.map Prod.fst
  let coupled :=
    if o.mode = .gpuProfitable ∧ o.phaseCouple = true then phaseCouple summaries else summaries
  (coupled.map keepSequential).zip (accepted.map Prod.snd)

/-- The loops for which a parallel pragma is emitted. -/
def emittedPragmas (o : DriverOptions) (accepted : List (LoopSummary × Bool)) : List (List Nat) :=
  ((finalTargets o accepted).filter fun entry =>
    !(entry.2 && entry.1.target != .gpuOffload) && entry.1.pragmaInserted o).map fun entry =>
      entry.1.loop

def parallelLoops (o : DriverOptions) (forest : List (Tree LoopFacts)) : List (List Nat) :=
  emittedPragmas o (selectLoops o (Tree.preorderFrom 0 forest)).accepted

/-- A loop that passes all checks, with two thousand iterations. -/
def plainLoop : LoopFacts where
  funcName := "main"
  hasLoopCarriedDependence := false
  blocksTransformation := false
  hasScalarLoopCarriedDependence := false
  hasFunctionCalls := false
  allFunctionCallsSafe := true
  hasReductions := false
  hasUnprovenScalarWrites := false
  hasScalarLiveOut := false
  pragmaHasReduction := false
  pragmaHasDataSharingClauses := false
  pragmaHasThreadprivate := false
  pragmaHasLastprivate := false
  target := .sequential
  iterationCount := 2000
  isInitializationLoop := false
  reads := ["b"]
  writes := ["a"]
  batched := false
  pipelineStage := -1
  isCalledInsideLoop := false
  kernelGenerated := false
  storageIsFullyMapped := true

end LoomX
