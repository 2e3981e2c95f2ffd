import LoomX.PhaseCoupling

namespace LoomX

open LoomX.Tree (IsAncestor)

namespace LoopFacts

/-- The driver does not skip the loop for what it is. -/
def passes (o : DriverOptions) (l : LoopFacts) : Bool :=
  l.funcName != "print_array" && !l.skipped o

def offloads (o : DriverOptions) (l : LoopFacts) : Bool :=
  l.passes o && o.mode != .analyzeOnly && l.modeTarget o == .gpuOffload

def accepts (o : DriverOptions) (l : LoopFacts) : Bool :=
  l.passes o && if l.modeTarget o = .sequential then l.initHelperLoop else o.mode != .analyzeOnly

end LoopFacts

variable {o : DriverOptions} {loops : List LoopNode}

/-- Some loop above is offloaded as a whole. -/
def belowOffloaded (o : DriverOptions) (loops : List LoopNode) (p : List Nat) : Bool :=
  loops.any fun a => IsAncestor a.1 p && a.2.offloads o

def admitted (o : DriverOptions) (loops : List LoopNode) : List LoopNode :=
  loops.filter fun n => n.2.accepts o && !belowOffloaded o loops n.1

def summarize (o : DriverOptions) (n : LoopNode) : LoopSummary × Bool :=
  (⟨n.1, n.2, n.2.modeTarget o⟩, n.2.initHelperLoop)

theorem accepts_of_offloads {l : LoopFacts} (h : l.offloads o = true) : l.accepts o = true := by
  simp only [LoopFacts.offloads, Bool.and_eq_true, bne_iff_ne, ne_eq, beq_iff_eq] at h
  obtain ⟨⟨hpasses, hmode⟩, htarget⟩ := h
  simp [LoopFacts.accepts, hpasses, hmode, htarget]

theorem processLoop_eq (s : Selection) (n : LoopNode) :
    processLoop o s n =
      if (s.selectedLoops.any fun parentLoop => IsAncestor parentLoop n.1) || !n.2.accepts o then s
      else ⟨s.accepted ++ [summarize o n],
        if n.2.offloads o then n.1 :: s.selectedLoops else s.selectedLoops⟩ := by
  obtain ⟨p, l⟩ := n
  unfold processLoop
  simp only
  by_cases hprint : (l.funcName == "print_array") = true
  · simp [hprint, LoopFacts.accepts, LoopFacts.passes, bne]
  · by_cases hnested : (s.selectedLoops.any fun parentLoop => IsAncestor parentLoop p) = true
    · simp [hprint, hnested]
    · by_cases hskip : l.skipped o = true
      · simp [hprint, hnested, hskip, LoopFacts.accepts, LoopFacts.passes]
      · have hpasses : l.passes o = true := by
          simp [LoopFacts.passes, hprint, hskip, bne]
        rw [if_neg hprint, if_neg hnested, if_neg hskip]
        simp only [hnested, Bool.false_or, LoopFacts.accepts, LoopFacts.offloads, hpasses,
          Bool.true_and, summarize]
        by_cases hseq : l.modeTarget o = .sequential
        · by_cases hinit : l.initHelperLoop = true
          · simp [hseq, hinit]
          · simp [hseq, hinit]
        · by_cases hmode : o.mode = .analyzeOnly
          · simp [hseq, hmode]
          · simp [hseq, hmode]

/-- What the driver has selected after some of the loops. -/
structure Selected (o : DriverOptions) (done : List LoopNode) (s : Selection) : Prop where
  accepted : s.accepted = (admitted o done).map (summarize o)
  below : ∀ p, (∃ q ∈ s.selectedLoops, IsAncestor q p) ↔ belowOffloaded o done p = true

theorem belowOffloaded_concat (done : List LoopNode) (n : LoopNode) (p : List Nat) :
    belowOffloaded o (done ++ [n]) p = true ↔
      belowOffloaded o done p = true ∨ IsAncestor n.1 p ∧ n.2.offloads o = true := by
  simp [belowOffloaded]

theorem belowOffloaded_of_isAncestor {p q : List Nat} (hanc : IsAncestor p q)
    (h : belowOffloaded o loops p = true) : belowOffloaded o loops q = true := by
  obtain ⟨a, ha, hoff⟩ := List.any_eq_true.mp h
  simp only [Bool.and_eq_true, decide_eq_true_eq] at hoff
  exact List.any_eq_true.mpr ⟨a, ha, by simp [hoff.1.trans hanc, hoff.2]⟩

theorem admitted_concat {done : List LoopNode} {n : LoopNode}
    (h : ∀ m ∈ done, ¬IsAncestor n.1 m.1) :
    admitted o (done ++ [n]) = admitted o done ++
      if n.2.accepts o && !belowOffloaded o done n.1 then [n] else [] := by
  have hsame : ∀ m : LoopNode, ¬IsAncestor n.1 m.1 →
      belowOffloaded o (done ++ [n]) m.1 = belowOffloaded o done m.1 := by
    intro m hm
    rw [Bool.eq_iff_iff, belowOffloaded_concat]
    simp [hm]
  rw [admitted, List.filter_append, List.filter_singleton, hsame n (Tree.not_isAncestor_self n.1),
    cond_eq_ite]
  congr 1
  apply List.filter_congr
  intro m hm
  rw [hsame m (h m hm)]

theorem selected_step {done : List LoopNode} {s : Selection} {n : LoopNode}
    (hs : Selected o done s) (h : ∀ m ∈ done, ¬IsAncestor n.1 m.1) :
    Selected o (done ++ [n]) (processLoop o s n) := by
  have hany : (s.selectedLoops.any fun parentLoop => IsAncestor parentLoop n.1) =
      belowOffloaded o done n.1 := by
    rw [Bool.eq_iff_iff, ← hs.below n.1]
    simp
  rw [processLoop_eq, hany]
  by_cases hkeep : (n.2.accepts o && !belowOffloaded o done n.1) = true
  · have hkeep' := hkeep
    simp only [Bool.and_eq_true, Bool.not_eq_true'] at hkeep'
    rw [if_neg (by simp [hkeep'.1, hkeep'.2])]
    constructor
    · rw [admitted_concat h, if_pos hkeep, List.map_append, hs.accepted]
      rfl
    · intro p
      rw [belowOffloaded_concat, ← hs.below p]
      by_cases hoff : n.2.offloads o = true
      · simp [hoff, or_comm]
      · simp [hoff]
  · rw [if_pos (by
      simp only [Bool.and_eq_true, Bool.not_eq_true', not_and, Bool.not_eq_false] at hkeep
      by_cases hacc : n.2.accepts o = true
      · simp [hkeep hacc]
      · simp [hacc])]
    constructor
    · rw [admitted_concat h, if_neg hkeep, List.append_nil, hs.accepted]
    · intro p
      rw [hs.below p, belowOffloaded_concat]
      constructor
      · exact Or.inl
      · rintro (hbelow | ⟨hanc, hoff⟩)
        · exact hbelow
        · apply belowOffloaded_of_isAncestor hanc
          simpa [accepts_of_offloads hoff] using hkeep

theorem selected_foldl {done todo : List LoopNode} {s : Selection} (hs : Selected o done s)
    (h : (done ++ todo).Pairwise fun m n => m.1 ≠ n.1 ∧ ¬IsAncestor n.1 m.1) :
    Selected o (done ++ todo) (todo.foldl (processLoop o) s) := by
  induction todo generalizing done s with
  | nil => simpa using hs
  | cons n todo ih =>
    have hn : ∀ m ∈ done, ¬IsAncestor n.1 m.1 := by
      intro m hm
      exact ((List.pairwise_append.mp h).2.2 m hm n List.mem_cons_self).2
    have hnext := ih (selected_step hs hn) (by simpa using h)
    rwa [List.append_assoc, List.singleton_append] at hnext

/-- The accepted loops are those that are accepted for themselves and are not inside an
offloaded loop. -/
theorem selectLoops_accepted (o : DriverOptions) (forest : List (Tree LoopFacts)) :
    (selectLoops o (Tree.preorderFrom 0 forest)).accepted =
      (admitted o (Tree.preorderFrom 0 forest)).map (summarize o) := by
  have hstart : Selected o [] ⟨[], []⟩ := ⟨rfl, by simp [belowOffloaded]⟩
  exact (selected_foldl hstart (by simpa using Tree.preorderFrom_pairwise 0 forest)).accepted

namespace LoopFacts

/-- A small helper loop that is called from inside a loop. -/
def keptSequential (l : LoopFacts) : Bool :=
  l.funcName != "" && l.funcName != "main" && !l.batched && l.pipelineStage < 0 &&
    l.iterationCount < 1000 && l.isCalledInsideLoop

/-- What the backend needs to put a pragma before an offloaded loop. -/
def devicePragma (o : DriverOptions) (l : LoopFacts) : Bool :=
  match o.backend with
  | .cuda | .opencl => !l.kernelGenerated
  | .openacc => true
  | .omp => l.storageIsFullyMapped

end LoopFacts

open LoopSummary (OnGpu Couples Interrupted)

/-- The loops with the targets that the mode leaves them. -/
def initialSummaries (o : DriverOptions) (ns : List LoopNode) : List LoopSummary :=
  ns.map fun n => (summarize o n).1

/-- A loop of the sequence is for the GPU by its own target, or is an initialization loop whose
data a later GPU loop consumes and no CPU loop touches in between. -/
def DeviceLoop (o : DriverOptions) (ns : List LoopNode) (i : Nat) : Prop :=
  OnGpu (initialSummaries o ns) i ∨ (o.mode = .gpuProfitable ∧ o.phaseCouple = true) ∧
    Couples (initialSummaries o ns) i ∧ ¬Interrupted (initialSummaries o ns) i

/-- A device loop that is not kept back, or a CPU loop that is no initialization helper. -/
def Parallelizes (o : DriverOptions) (ns : List LoopNode) (i : Nat) (l : LoopFacts) : Prop :=
  (DeviceLoop o ns i ∧ l.keptSequential = false ∧ l.devicePragma o = true) ∨
    (¬DeviceLoop o ns i ∧ l.modeTarget o = .cpuOpenmp ∧ l.initHelperLoop = false)

theorem keepSequential_eq (s : LoopSummary) :
    s.keepSequential = { s with
      target := if s.target = .gpuOffload ∧ s.facts.keptSequential = true then .sequential
        else s.target } := by
  obtain ⟨p, l, t⟩ := s
  by_cases hkept : l.keptSequential = true
  · have hpasses := hkept
    simp only [LoopFacts.keptSequential, Bool.and_eq_true, bne_iff_ne, ne_eq, Bool.not_eq_true',
      decide_eq_true_eq] at hpasses
    obtain ⟨⟨⟨⟨⟨hname, hmain⟩, hbatched⟩, hstage⟩, hcount⟩, hcalled⟩ := hpasses
    by_cases ht : t = .gpuOffload
    · simp [LoopSummary.keepSequential, hkept, ht, hname, hmain, hbatched, hcalled,
        Int.not_le.mpr hstage, Int.not_le.mpr hcount]
    · simp [LoopSummary.keepSequential, hname, hmain, ht]
  · have hother : LoopSummary.keepSequential ⟨p, l, t⟩ = ⟨p, l, t⟩ := by
      unfold LoopSummary.keepSequential
      split_ifs with hname ht hbatched hcount hcalled
      · rfl
      · rfl
      · rfl
      · rfl
      · rfl
      · refine absurd ?_ hkept
        simp_all [LoopFacts.keptSequential]
    simp [hother, hkept]

/-- The coupling moves to the GPU what couples without interruption, and nothing else. -/
theorem getElem?_coupled {ns : List LoopNode} {i : Nat} {n : LoopNode} (hn : ns[i]? = some n) :
    ∃ t, (if o.mode = .gpuProfitable ∧ o.phaseCouple = true then
        LoopSummary.phaseCouple (initialSummaries o ns) else initialSummaries o ns)[i]? =
          some ⟨n.1, n.2, t⟩ ∧
      (t = .gpuOffload ↔ DeviceLoop o ns i) ∧ (t ≠ .gpuOffload → t = n.2.modeTarget o) := by
  have hs : (initialSummaries o ns)[i]? = some ⟨n.1, n.2, n.2.modeTarget o⟩ := by
    simp [initialSummaries, hn, summarize]
  by_cases hmode : o.mode = .gpuProfitable ∧ o.phaseCouple = true
  · have hgpu : OnGpu (LoopSummary.phaseCouple (initialSummaries o ns)) i ↔ _ :=
      LoopSummary.onGpu_phaseCouple_iff i
    rw [if_pos hmode]
    rw [OnGpu, LoopSummary.getElem?_phaseCouple, hs, Option.map_some] at hgpu
    rw [LoopSummary.getElem?_phaseCouple, hs, Option.map_some]
    have hdevice : DeviceLoop o ns i ↔ OnGpu (initialSummaries o ns) i ∨
        Couples (initialSummaries o ns) i ∧ ¬Interrupted (initialSummaries o ns) i := by
      simp [DeviceLoop, hmode]
    rw [← hdevice] at hgpu
    split
    next hpromoted =>
      rw [if_pos hpromoted] at hgpu
      exact ⟨.gpuOffload, rfl, by simpa [LoopSummary.isGpu] using hgpu, fun h => absurd rfl h⟩
    next hstays =>
      rw [if_neg hstays] at hgpu
      exact ⟨n.2.modeTarget o, rfl, by simpa [LoopSummary.isGpu] using hgpu, fun _ => rfl⟩
  · refine ⟨n.2.modeTarget o, by rw [if_neg hmode, hs], ?_, fun _ => rfl⟩
    simp [DeviceLoop, hmode, OnGpu, hs, LoopSummary.isGpu]

/-- A pragma is put before the loop; not before one that was accepted only for coupling. -/
theorem pragmaInserted_iff {ns : List LoopNode} {i : Nat} {n : LoopNode} {t : ParallelTarget}
    (hgpu : t = .gpuOffload ↔ DeviceLoop o ns i) (ht : t ≠ .gpuOffload → t = n.2.modeTarget o) :
    (!(n.2.initHelperLoop && (LoopSummary.keepSequential ⟨n.1, n.2, t⟩).target != .gpuOffload) &&
        (LoopSummary.keepSequential ⟨n.1, n.2, t⟩).pragmaInserted o) = true ↔
      Parallelizes o ns i n.2 := by
  rw [keepSequential_eq, Parallelizes, ← hgpu]
  by_cases hdevice : t = .gpuOffload
  · subst hdevice
    by_cases hkept : n.2.keptSequential = true
    · simp [hkept, LoopSummary.pragmaInserted]
    · have hpragma : LoopSummary.pragmaInserted o ⟨n.1, n.2, .gpuOffload⟩ = n.2.devicePragma o := by
        cases hbackend : o.backend <;>
          simp [LoopSummary.pragmaInserted, LoopFacts.devicePragma, hbackend]
      simp [hkept, hpragma]
  · have htarget := ht hdevice
    rw [← htarget]
    cases t with
    | gpuOffload => exact absurd rfl hdevice
    | sequential => simp [LoopSummary.pragmaInserted]
    | cpuOpenmp => simp [LoopSummary.pragmaInserted]

theorem mem_parallelLoops {forest : List (Tree LoopFacts)} {p : List Nat} :
    p ∈ parallelLoops o forest ↔ ∃ (i : Nat) (n : LoopNode),
      (admitted o (Tree.preorderFrom 0 forest))[i]? = some n ∧
        Parallelizes o (admitted o (Tree.preorderFrom 0 forest)) i n.2 ∧ n.1 = p := by
  rw [parallelLoops, selectLoops_accepted, emittedPragmas, List.mem_map]
  simp only [List.mem_filter]
  generalize admitted o (Tree.preorderFrom 0 forest) = ns
  have hfinal : ∀ {i : Nat} {n : LoopNode}, ns[i]? = some n → ∃ t,
      (finalTargets o (ns.map (summarize o)))[i]? =
        some (LoopSummary.keepSequential ⟨n.1, n.2, t⟩, n.2.initHelperLoop) ∧
      (t = .gpuOffload ↔ DeviceLoop o ns i) ∧ (t ≠ .gpuOffload → t = n.2.modeTarget o) := by
    intro i n hn
    obtain ⟨t, ht, hgpu, hother⟩ := getElem?_coupled (o := o) hn
    refine ⟨t, ?_, hgpu, hother⟩
    simp only [finalTargets, List.getElem?_zip_eq_some, List.getElem?_map, List.map_map]
    refine ⟨?_, by simp [hn, summarize]⟩
    exact Option.map_eq_some_iff.mpr ⟨_, ht, rfl⟩
  constructor
  · rintro ⟨entry, ⟨hentry, hpragma⟩, rfl⟩
    obtain ⟨i, hi⟩ := List.mem_iff_getElem?.mp hentry
    have hlt : i < ns.length := by
      have hlength := (List.getElem?_eq_some_iff.mp (List.getElem?_zip_eq_some.mp hi).2).1
      simpa using hlength
    obtain ⟨t, ht, hgpu, hother⟩ := hfinal (List.getElem?_eq_getElem hlt)
    obtain rfl := Option.some.inj (hi.symm.trans ht)
    refine ⟨i, ns[i], List.getElem?_eq_getElem hlt, (pragmaInserted_iff hgpu hother).mp hpragma, ?_⟩
    simp only [keepSequential_eq]
  · rintro ⟨i, n, hn, hpragma, rfl⟩
    obtain ⟨t, ht, hgpu, hother⟩ := hfinal hn
    refine ⟨_, ⟨List.mem_of_getElem? ht, (pragmaInserted_iff hgpu hother).mpr hpragma⟩, ?_⟩
    rw [keepSequential_eq]

/-- No loop inside one that was selected for the GPU is accepted. -/
theorem not_isAncestor_of_gpu {a d : LoopNode} (ha : a ∈ admitted o loops)
    (hd : d ∈ admitted o loops) (hgpu : a.2.modeTarget o = .gpuOffload) :
    ¬IsAncestor a.1 d.1 := by
  intro hanc
  obtain ⟨hmem, haccepts⟩ := List.mem_filter.mp ha
  obtain ⟨_, hbelow⟩ := List.mem_filter.mp hd
  simp only [Bool.and_eq_true, Bool.not_eq_true'] at haccepts hbelow
  have haccepts' := haccepts.1
  simp only [LoopFacts.accepts, hgpu, reduceCtorEq, if_false, Bool.and_eq_true] at haccepts'
  have hoff : a.2.offloads o = true := by
    simp [LoopFacts.offloads, haccepts'.1, haccepts'.2, hgpu]
  have hcon : belowOffloaded o loops d.1 = true :=
    List.any_eq_true.mpr ⟨a, hmem, by simp [hanc, hoff]⟩
  rw [hbelow.2] at hcon
  exact Bool.false_ne_true hcon

def cpuForcedOptions : DriverOptions where
  mode := .cpuForced
  backend := .omp
  phaseCouple := true
  scalarDepCheck := true
  strictRaceSafety := false
  minIterationsForCPU := 1000

end LoomX
