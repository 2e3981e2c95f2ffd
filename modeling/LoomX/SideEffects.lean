import LoomX.CallScan

namespace LoomX

open Relation

section
variable {summaries : Summaries} {path : List String} {node : String} {s t : CycleSearch}

/-- How many functions the search has not visited. -/
def unvisited (summaries : Summaries) (s : CycleSearch) : Nat :=
  (summaries.entries.filter fun e => (s.index.find? e.1).isNone).length

theorem unvisited_le (h : s.view.Extends t.view) : unvisited summaries t ≤ unvisited summaries s := by
  apply List.Sublist.length_le
  apply List.monotone_filter_right
  intro e he
  cases hs : s.index.find? e.1 with
  | none => rfl
  | some i =>
    have hvis : t.view.visited e.1 := h.visited e.1 (by simp [CycleSearch.view, hs])
    simp [CycleSearch.find?_of_visited hvis] at he

theorem unvisited_enter_lt (hnode : (summaries.find? node).isSome)
    (hnew : ¬s.view.visited node) : unvisited summaries (s.enter node) < unvisited summaries s := by
  obtain ⟨summary, hfind⟩ := Option.isSome_iff_exists.mp hnode
  have hentry := SortedMap.mem_entries_iff.mpr hfind
  have hvis : (s.enter node).view.visited node := by
    rw [CycleSearch.view_enter]
    exact Or.inl rfl
  have hsub : (summaries.entries.filter fun e => ((s.enter node).index.find? e.1).isNone) =
      (summaries.entries.filter fun e => (s.index.find? e.1).isNone).filter
        fun e => ((s.enter node).index.find? e.1).isNone := by
    rw [List.filter_filter]
    apply List.filter_congr
    intro e _
    cases hs : s.index.find? e.1 with
    | none => simp
    | some i =>
      have hold : (s.enter node).view.visited e.1 := by
        rw [CycleSearch.view_enter]
        exact Or.inr (by simp [CycleSearch.view, hs])
      simp [CycleSearch.find?_of_visited hold]
  unfold unvisited
  rw [hsub]
  apply List.length_filter_lt_length_iff_exists.mpr
  refine ⟨(node, summary), List.mem_filter.mpr ⟨hentry, ?_⟩, ?_⟩
  · simpa [CycleSearch.view] using hnew
  · simp [CycleSearch.find?_of_visited hvis]

/-- Searching one callee keeps the state of the loop. -/
theorem scans_visitCallee {depth : Nat} {processed : List String} {callee : String}
    (ih : ∀ (path : List String) (node : String) (s : CycleSearch),
      Search.Valid (Calls summaries) path s.view → s.Detected summaries →
      (summaries.find? node).isSome → ¬s.view.visited node → unvisited summaries s ≤ depth →
      (∀ u ∈ path, ReflTransGen (Calls summaries) u node) →
      Explores summaries path node s (dfsSCC summaries depth node s))
    (h : Scans summaries path node s processed t) (hdepth : unvisited summaries t ≤ depth)
    (hpath : ∀ u ∈ path, ReflTransGen (Calls summaries) u node)
    (hcallee : callee ∈ calleesOf summaries node) :
    Scans summaries path node s (processed ++ [callee])
      (visitCallee summaries (dfsSCC summaries depth) node t callee) := by
  unfold visitCallee
  split
  next hnone =>
    apply h.skip
    intro hsome
    simp [Option.isNone_iff_eq_none.mp hnone] at hsome
  next hsome =>
    have hcalls : Calls summaries node callee := by
      refine ⟨hcallee, ?_⟩
      cases hf : summaries.find? callee <;> simp_all
    split
    next hindex =>
      have hnew : ¬t.view.visited callee := by simp [CycleSearch.view, hindex]
      have hreach : ∀ u ∈ node :: path, ReflTransGen (Calls summaries) u callee := by
        intro u hu
        rcases List.mem_cons.mp hu with rfl | hu
        · exact ReflTransGen.single hcalls
        · exact (hpath u hu).tail hcalls
      have hex := ih (node :: path) callee t h.valid h.detected hcalls.2 hnew hdepth hreach
      obtain ⟨n, hn, hlow, hedges⟩ := hex.lowlink
      have hstart := h.extends_start
      rw [hn]
      refine h.lower hex.valid hex.extended hex.detected hex.visited hex.lowlink_old ?_ ?_ ?_
      · rcases hlow with hge | ⟨v, hv, rfl, hr⟩
        · exact Or.inl (Nat.le_trans hstart.next hge)
        · exact h.lowValue hv (hr.head hcalls)
      · exact fun hs => absurd (hstart.visited callee (h.before.stack_visited callee hs)) hnew
      · intro u hu hnv v hv hedge
        have hle := hedges u hu hnv v (hstart.mem_stack hv) hedge
        rw [hstart.rank v (h.before.stack_visited v hv)] at hle
        exact hle
    next i hindex =>
      have hvis : t.view.visited callee := by simp [CycleSearch.view, hindex]
      have hrank : t.view.rank callee = i := by simp [CycleSearch.view, hindex]
      split
      next hmem =>
        have hmem := List.contains_iff_mem.mp hmem
        rw [← hrank]
        refine h.lower h.valid (Search.Extends.refl _) h.detected hvis (fun _ _ => rfl)
          (h.lowValue hmem (ReflTransGen.single hcalls)) ?_ ?_
        · intro hs
          rw [h.extends_start.rank callee (h.before.stack_visited callee hs)]
        · exact fun u hu hnv => absurd (h.valid.stack_visited u hu) hnv
      next hmem =>
        apply h.skip
        exact fun _ => ⟨hvis, fun hm => hmem (List.contains_iff_mem.mpr hm)⟩

theorem scans_callees {depth : Nat}
    (ih : ∀ (path : List String) (node : String) (s : CycleSearch),
      Search.Valid (Calls summaries) path s.view → s.Detected summaries →
      (summaries.find? node).isSome → ¬s.view.visited node → unvisited summaries s ≤ depth →
      (∀ u ∈ path, ReflTransGen (Calls summaries) u node) →
      Explores summaries path node s (dfsSCC summaries depth node s))
    (hdepth : unvisited summaries (s.enter node) ≤ depth)
    (hpath : ∀ u ∈ path, ReflTransGen (Calls summaries) u node)
    (callees processed : List String) (h : Scans summaries path node s processed t)
    (hcallees : callees ⊆ calleesOf summaries node) :
    Scans summaries path node s (processed ++ callees)
      (callees.foldl (visitCallee summaries (dfsSCC summaries depth) node) t) := by
  induction callees generalizing processed t with
  | nil => simpa using h
  | cons callee callees loop =>
    obtain ⟨hcallee, hrest⟩ := List.cons_subset.mp hcallees
    have hle := Nat.le_trans (unvisited_le h.extended) hdepth
    have hstep := scans_visitCallee ih h hle hpath hcallee
    rw [List.append_cons]
    exact loop (processed ++ [callee]) hstep hrest

/-- With a depth for every unvisited function `dfsSCC` explores the functions below `node`. -/
theorem explores_dfsSCC (depth : Nat) (path : List String) (node : String) (s : CycleSearch)
    (h : Search.Valid (Calls summaries) path s.view) (hdet : s.Detected summaries)
    (hnode : (summaries.find? node).isSome) (hnew : ¬s.view.visited node)
    (hdepth : unvisited summaries s ≤ depth)
    (hpath : ∀ u ∈ path, ReflTransGen (Calls summaries) u node) :
    Explores summaries path node s (dfsSCC summaries depth node s) := by
  have hlt := unvisited_enter_lt hnode hnew
  induction depth generalizing path node s with
  | zero => omega
  | succ depth ih =>
    rw [dfsSCC_succ]
    apply explores_finish _ hnode
    have hstart := scans_enter h hdet hnew hpath
    have hloop := scans_callees (fun path node s h hdet hnode hnew hdepth hpath =>
      ih path node s h hdet hnode hnew hdepth hpath (unvisited_enter_lt hnode hnew))
      (by omega) hpath (calleesOf summaries node) [] hstart (fun _ hv => hv)
    simpa using hloop

/-- The state of `findRecursiveCycles` between two roots. -/
structure Searched (summaries : Summaries) (s : CycleSearch) : Prop where
  valid : Search.Valid (Calls summaries) [] s.view
  detected : s.Detected summaries

theorem searched_start (summaries : Summaries) : Searched summaries CycleSearch.start := by
  constructor
  · constructor <;> simp [CycleSearch.start, CycleSearch.view, SortedMap.find?, SortedMap.empty]
  · intro v
    simp [CycleSearch.start, CycleSearch.view, SortedMap.find?, SortedMap.empty]

/-- One root of `findRecursiveCycles`. -/
def searchRoot (summaries : Summaries) (s : CycleSearch) (e : String × FunctionSummary) :
    CycleSearch :=
  if (s.index.find? e.1).isNone then dfsSCC summaries summaries.entries.length e.1 s else s

theorem searched_searchRoot (h : Searched summaries s) {e : String × FunctionSummary}
    (he : e ∈ summaries.entries) :
    Searched summaries (searchRoot summaries s e) ∧
      s.view.Extends (searchRoot summaries s e).view ∧
      (searchRoot summaries s e).view.visited e.1 := by
  unfold searchRoot
  split
  next hnone =>
    have hnode : (summaries.find? e.1).isSome := by
      simp [SortedMap.mem_entries_iff.mp he]
    have hnew : ¬s.view.visited e.1 := by simpa [CycleSearch.view] using hnone
    have hex := explores_dfsSCC summaries.entries.length [] e.1 s h.valid h.detected hnode hnew
      (List.length_filter_le _ _) (by simp)
    exact ⟨⟨hex.valid, hex.detected⟩, hex.extended, hex.visited⟩
  next hsome =>
    refine ⟨h, Search.Extends.refl _, ?_⟩
    show (s.index.find? e.1).isSome
    cases hf : s.index.find? e.1 <;> simp_all

theorem searched_foldl (entries : List (String × FunctionSummary))
    (hsub : entries ⊆ summaries.entries) (h : Searched summaries s) :
    Searched summaries (entries.foldl (searchRoot summaries) s) ∧
      s.view.Extends (entries.foldl (searchRoot summaries) s).view ∧
      ∀ e ∈ entries, (entries.foldl (searchRoot summaries) s).view.visited e.1 := by
  induction entries generalizing s with
  | nil => exact ⟨h, Search.Extends.refl _, by simp⟩
  | cons e entries ih =>
    obtain ⟨he, hrest⟩ := List.cons_subset.mp hsub
    obtain ⟨hstep, hext, hvis⟩ := searched_searchRoot h he
    obtain ⟨hall, hext', hvis'⟩ := ih hrest hstep
    refine ⟨hall, hext.trans hext', ?_⟩
    intro e' he'
    rcases List.mem_cons.mp he' with rfl | he'
    · exact hext'.visited _ hvis
    · exact hvis' e' he'

theorem mem_findRecursiveCycles {name : String} :
    name ∈ findRecursiveCycles summaries ↔ OnCallCycle summaries name := by
  obtain ⟨hall, _, hvis⟩ := searched_foldl summaries.entries (fun _ he => he)
    (searched_start summaries)
  have hempty : (summaries.entries.foldl (searchRoot summaries) CycleSearch.start).stack = [] := by
    apply List.eq_nil_iff_forall_not_mem.mpr
    intro v hv
    obtain ⟨u, hu, _⟩ := hall.valid.to_path v hv
    simp at hu
  have hdet := hall.detected name
  rw [hempty] at hdet
  refine hdet.trans (and_iff_right_of_imp ?_)
  intro hcycle
  refine ⟨?_, by simp⟩
  obtain ⟨_, _, hlast⟩ := TransGen.tail'_iff.mp hcycle
  obtain ⟨summary, hfind⟩ := Option.isSome_iff_exists.mp hlast.2
  exact hvis (name, summary) (SortedMap.mem_entries_iff.mpr hfind)

/-- The flag `inRecursiveCycle` is set for exactly the functions on a cycle of calls between
summarised functions. -/
theorem inRecursiveCycle_iff (summaries : Summaries) (sideEffects : List String)
    (baseline : Bool) (name : String) :
    (InterproceduralAnalysis.getSummary
      ⟨summaries, findRecursiveCycles summaries, sideEffects, baseline⟩ name).any
        (·.inRecursiveCycle) = true ↔ OnCallCycle summaries name := by
  rw [← mem_findRecursiveCycles]
  unfold InterproceduralAnalysis.getSummary
  cases hfind : summaries.find? name with
  | some summary => simp
  | none =>
    constructor
    · simp
    · intro hmem
      have hcycle : OnCallCycle summaries name := mem_findRecursiveCycles.mp hmem
      obtain ⟨_, _, _, hsome⟩ := TransGen.tail'_iff.mp hcycle
      rw [hfind] at hsome
      exact absurd hsome Bool.false_ne_true

end

open Relation

theorem callersOf_subset (summaries : Summaries) (g : String) :
    callersOf summaries g ⊆ summaries.entries.map Prod.fst := by
  intro c hc
  obtain ⟨e, he, rfl⟩ := List.mem_map.mp hc
  exact List.mem_map.mpr ⟨e, (List.mem_filter.mp he).1, rfl⟩

theorem pending_le (summaries : Summaries) (marked : List String)
    (keep : String × FunctionSummary → Bool) :
    (⟨marked, (summaries.entries.filter keep).map Prod.fst⟩ : Propagation String).pending
      (summaries.entries.map Prod.fst) ≤ 2 * summaries.entries.length := by
  have hwait := List.length_filter_le keep summaries.entries
  have hrest := List.length_filter_le (fun a => decide (a ∉ marked))
    (summaries.entries.map Prod.fst)
  rw [List.length_map] at hrest
  simp only [Propagation.pending, List.length_map]
  omega

theorem start_subset_waiting (summaries : Summaries) (recursive : List String) :
    (summaries.entries.filter fun e => hasLocalSideEffects e.2).map Prod.fst ⊆
      (summaries.entries.filter fun e =>
        hasLocalSideEffects e.2 || recursive.contains e.1).map Prod.fst := by
  intro g hg
  obtain ⟨e, he, rfl⟩ := List.mem_map.mp hg
  obtain ⟨hmem, hlocal⟩ := List.mem_filter.mp he
  exact List.mem_map.mpr ⟨e, List.mem_filter.mpr ⟨hmem, by simp [hlocal]⟩, rfl⟩

/-- A summarised function has side effects of its own, whatever the call. -/
def HasLocalEffects (summaries : Summaries) (name : String) : Prop :=
  ∃ s, summaries.find? name = some s ∧ hasLocalSideEffects s = true

/-- A chain of calls leads from the function to one with side effects or in a recursive cycle. -/
def CallsEffects (summaries : Summaries) (name : String) : Prop :=
  ∃ target, TransGen (Calls summaries) name target ∧
    (HasLocalEffects summaries target ∨ OnCallCycle summaries target)

section
variable {summaries : Summaries} {recursive : List String} {name : String}

theorem mem_callersOf_iff {callee : String} (h : (summaries.find? callee).isSome) :
    name ∈ callersOf summaries callee ↔ Calls summaries name callee := by
  simp only [callersOf, List.mem_map, List.mem_filter, Calls, h, and_true, calleesOf]
  constructor
  · rintro ⟨e, ⟨he, hc⟩, rfl⟩
    rw [SortedMap.mem_entries_iff.mp he]
    simpa using hc
  · intro hc
    cases hfind : summaries.find? name with
    | none => simp [hfind] at hc
    | some s =>
      refine ⟨(name, s), ⟨SortedMap.mem_entries_iff.mpr hfind, ?_⟩, rfl⟩
      simpa [hfind] using hc

theorem find?_of_calls {callee : String} (h : Calls summaries name callee) :
    (summaries.find? name).isSome := by
  have hmem := h.1
  unfold calleesOf at hmem
  split at hmem
  next hfind => simp [hfind]
  next => simp at hmem

theorem find?_of_transGen {callee : String} (h : TransGen (Calls summaries) name callee) :
    (summaries.find? name).isSome := by
  obtain ⟨_, hcall, _⟩ := TransGen.head'_iff.mp h
  exact find?_of_calls hcall

theorem sideEffects_closed {callee : String}
    (h : callee ∈ (propagateSideEffects summaries recursive).marked ∨
      callee ∈ recursive ∧ (summaries.find? callee).isSome) :
    callersOf summaries callee ⊆ (propagateSideEffects summaries recursive).marked := by
  apply Propagation.run_closed (callersOf_subset summaries) (pending_le _ _ _)
    (start_subset_waiting _ _)
  rcases h with h | ⟨hrec, hsome⟩
  · exact Or.inr h
  · left
    obtain ⟨s, hfind⟩ := Option.isSome_iff_exists.mp hsome
    refine List.mem_map.mpr ⟨(callee, s), List.mem_filter.mpr ⟨?_, by simp [hrec]⟩, rfl⟩
    exact SortedMap.mem_entries_iff.mpr hfind

theorem sideEffects_start (h : HasLocalEffects summaries name) :
    name ∈ (propagateSideEffects summaries recursive).marked := by
  obtain ⟨s, hfind, hs⟩ := h
  apply Propagation.marked_subset_run (callersOf_subset _) (pending_le _ _ _)
    (start_subset_waiting _ _)
  exact List.mem_map.mpr ⟨(name, s),
    List.mem_filter.mpr ⟨SortedMap.mem_entries_iff.mpr hfind, hs⟩, rfl⟩

theorem sideEffects_of_callsEffects (h : CallsEffects summaries name) :
    name ∈ (propagateSideEffects summaries (findRecursiveCycles summaries)).marked := by
  obtain ⟨target, hchain, htarget⟩ := h
  induction hchain using TransGen.head_induction_on with
  | single hcall =>
    apply sideEffects_closed _ ((mem_callersOf_iff hcall.2).mpr hcall)
    rcases htarget with hlocal | hcycle
    · exact Or.inl (sideEffects_start hlocal)
    · exact Or.inr ⟨mem_findRecursiveCycles.mpr hcycle, hcall.2⟩
  | head hcall _ ih =>
    exact sideEffects_closed (Or.inl ih) ((mem_callersOf_iff hcall.2).mpr hcall)

theorem callsEffects_step {callee : String} (hcall : Calls summaries name callee)
    (h : (HasLocalEffects summaries callee ∨ CallsEffects summaries callee) ∨
      OnCallCycle summaries callee) : CallsEffects summaries name := by
  rcases h with (hlocal | ⟨target, hchain, htarget⟩) | hcycle
  · exact ⟨callee, TransGen.single hcall, Or.inl hlocal⟩
  · exact ⟨target, TransGen.head hcall hchain, htarget⟩
  · exact ⟨callee, TransGen.single hcall, Or.inr hcycle⟩

theorem callsEffects_of_sideEffects
    (h : name ∈ (propagateSideEffects summaries (findRecursiveCycles summaries)).marked) :
    HasLocalEffects summaries name ∨ CallsEffects summaries name := by
  have hlocal : ∀ e ∈ summaries.entries, hasLocalSideEffects e.2 = true →
      HasLocalEffects summaries e.1 :=
    fun e he hs => ⟨e.2, SortedMap.mem_entries_iff.mp he, hs⟩
  let marked (a : String) := HasLocalEffects summaries a ∨ CallsEffects summaries a
  let waiting (a : String) := marked a ∨ OnCallCycle summaries a
  have hrun : (propagateSideEffects summaries (findRecursiveCycles summaries)).Within
      marked waiting := by
    apply Propagation.within_run (fun _ => Or.inl)
    · intro a ha b hb
      have hsome : (summaries.find? a).isSome := by
        rcases ha with (⟨s, hfind, _⟩ | ⟨_, hchain, _⟩) | hcycle
        · simp [hfind]
        · exact find?_of_transGen hchain
        · exact find?_of_transGen hcycle
      exact Or.inr (callsEffects_step ((mem_callersOf_iff hsome).mp hb) ha)
    · constructor
      · intro a ha
        obtain ⟨e, he, rfl⟩ := List.mem_map.mp ha
        obtain ⟨hmem, hs⟩ := List.mem_filter.mp he
        exact Or.inl (hlocal e hmem hs)
      · intro a ha
        obtain ⟨e, he, rfl⟩ := List.mem_map.mp ha
        obtain ⟨hmem, hs⟩ := List.mem_filter.mp he
        rcases Bool.or_eq_true_iff.mp hs with hs | hrec
        · exact Or.inl (Or.inl (hlocal e hmem hs))
        · exact Or.inr (mem_findRecursiveCycles.mp (List.contains_iff_mem.mp hrec))
  exact hrun.1 name h

/-- The worklist runs empty, and the marks are the functions with local side effects and those
with a chain of calls to such a function or to a recursive one. -/
theorem transitiveSideEffects_iff (summaries : Summaries) :
    (propagateSideEffects summaries (findRecursiveCycles summaries)).worklist = [] ∧
      ∀ name, name ∈ (propagateSideEffects summaries (findRecursiveCycles summaries)).marked ↔
        HasLocalEffects summaries name ∨ CallsEffects summaries name := by
  refine ⟨?_, fun name => ⟨callsEffects_of_sideEffects, ?_⟩⟩
  · exact (Propagation.run_spec (callersOf_subset summaries) _ _ (pending_le _ _ _)
      (Propagation.settled_start (start_subset_waiting _ _))).2.1
  · rintro (hlocal | hchain)
    · exact sideEffects_start hlocal
    · exact sideEffects_of_callsEffects hchain

end

end LoomX
