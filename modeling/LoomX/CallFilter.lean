import LoomX.SummaryCollection
import LoomX.SideEffects

namespace LoomX

section
variable {program : List FunctionDeclaration} {baseline : Bool}

theorem mem_callersOf {g h : String} {params : List Var} {body : Stmt} {args : Expr}
    (hg : isStandardLibraryFunction g = false)
    (hdef : definitionOf program g = some (params, body))
    (hcall : (some h, args) ∈ body.calls) (hh : isStandardLibraryFunction h = false) :
    g ∈ callersOf (collectSummaries program) h := by
  have hfind := find?_of_definition hdef
  rw [localSummary_of_body hg] at hfind
  refine List.mem_map.mpr ⟨(g, _), List.mem_filter.mpr ⟨SortedMap.mem_entries_iff.mpr hfind, ?_⟩, rfl⟩
  simpa using mem_collectCallees hcall hh

/-- A side effect of a followed function reaches the first one. -/
theorem sideEffects_of_followed {f g : String} (h : Followed program f g)
    (hlib : isStandardLibraryFunction g = false)
    (hg : g ∈ (analyzeProject program baseline).sideEffects) :
    f ∈ (analyzeProject program baseline).sideEffects := by
  induction h with
  | start => exact hg
  | call hprev hprevlib hdef hcall ih =>
    exact ih hprevlib (sideEffects_closed (Or.inl hg) (mem_callersOf hprevlib hdef hcall hlib))

theorem not_local_of_followed {f g : String} {params : List Var} {body : Stmt}
    (hf : f ∉ (analyzeProject program baseline).sideEffects) (h : Followed program f g)
    (hlib : isStandardLibraryFunction g = false)
    (hdef : definitionOf program g = some (params, body)) :
    hasIOSideEffects body = false ∧ hasGlobalWrites params body = false := by
  by_contra hcon
  have hlocal : hasLocalSideEffects (localSummary ⟨g, params, some body⟩) = true := by
    rw [localSummary_of_body hlib]
    simp only [hasLocalSideEffects]
    rcases Bool.eq_false_or_eq_true (hasIOSideEffects body) with hio | hio
    · simp [hio]
    · rcases Bool.eq_false_or_eq_true (hasGlobalWrites params body) with hw | hw
      · simp [hw]
      · exact absurd ⟨hio, hw⟩ hcon
  exact hf (sideEffects_of_followed h hlib (sideEffects_start ⟨_, find?_of_definition hdef, hlocal⟩))

/-- What acceptance says of a function that is not whitelisted. -/
theorem accepted_summary {f : String} {args : Expr} {loopVar : Option Var}
    (h : (analyzeProject program baseline).isSafeForParallelLoop (some f, args) loopVar = true)
    (hpure : isStandardLibraryPureFunction f = false) :
    f ∉ (analyzeProject program baseline).sideEffects ∧ ∃ params body,
      definitionOf program f = some (params, body) ∧
        hasLocalSideEffects (localSummary ⟨f, params, some body⟩) = false := by
  simp only [InterproceduralAnalysis.isSafeForParallelLoop, hpure] at h
  simp only [Bool.false_eq_true, if_false] at h
  split at h
  next => simp at h
  next summary hget =>
    obtain ⟨s, hfind, rfl⟩ := Option.map_eq_some_iff.mp hget
    split at h
    next => simp at h
    next hflags =>
      have hclean : f ∉ (analyzeProject program baseline).sideEffects := by
        intro hmem
        apply hflags
        simp [hmem]
      have hs : s.hasDefinition = true := by
        by_contra hs
        rw [Bool.not_eq_true] at hs
        apply hflags
        simp [hs]
      refine ⟨hclean, ?_⟩
      cases hdef : definitionOf program f with
      | none =>
        have hnone := (collectSummaries_spec program f).2 hdef s hfind
        simp [hs] at hnone
      | some pb =>
        obtain ⟨params, body⟩ := pb
        refine ⟨params, body, rfl, ?_⟩
        by_contra hlocal
        exact hclean (sideEffects_start ⟨_, find?_of_definition hdef, by simpa using hlocal⟩)

theorem Followed.eq_or_not_library {f g : String} (h : Followed program f g) :
    g = f ∨ isStandardLibraryFunction f = false := by
  induction h with
  | start => exact Or.inl rfl
  | call _ hlib _ _ ih =>
    rcases ih with rfl | ih
    · exact Or.inr hlib
    · exact Or.inr ih

theorem not_pure_of_not_library {g : String} (h : isStandardLibraryFunction g = false) :
    isStandardLibraryPureFunction g = false :=
  (Bool.or_eq_false_iff.mp h).1

theorem not_pure_of_followed {f g : String} (hg : Followed program f g)
    (hlib : isStandardLibraryFunction g = false) : isStandardLibraryPureFunction f = false := by
  rcases hg.eq_or_not_library with rfl | hf
  · exact not_pure_of_not_library hlib
  · exact not_pure_of_not_library hf

/-- No name is on both lists of the library. -/
theorem not_impure_of_pure {g : String} (h : isStandardLibraryPureFunction g = true) :
    isStandardLibraryImpureFunction g = false := by
  have hlists : ∀ name ∈ pureStdlibFunctions, impureStdlibFunctions.contains name = false := by
    decide +kernel
  exact hlists g (List.contains_iff_mem.mp h)

theorem mem_of_paramIndex {params : List Var} {v : Var} {k : Nat}
    (h : paramIndex params v = some k) : params[k]? = some v := by
  obtain ⟨hk, hv, _⟩ := List.findIdx?_eq_some_iff_getElem.mp h
  rw [List.getElem?_eq_getElem hk]
  simpa using hv

theorem writtenThrough_index {ref : Expr} {below through : Bool} {v : Var} {index : Option Expr}
    (h : writtenThrough ref below = some (v, through, index)) : index = storeIndex ref v := by
  cases ref with
  | varRef w =>
    cases Option.some.inj h
    rfl
  | arrRef b i =>
    obtain ⟨_, _, heq⟩ := Option.map_eq_some_iff.mp h
    cases heq
    rfl
  | deref e =>
    obtain ⟨_, _, heq⟩ := Option.map_eq_some_iff.mp h
    cases heq
    rfl
  | _ => simp [writtenThrough] at h

/-- The pattern made for a store has the index of the store. -/
theorem patternOf_index {params : List Var} {s : Expr} {below : Bool} {p : Var}
    {pattern : PointerWritePattern} (h : patternOf params (s, below) = some pattern)
    (hp : paramIndex params p = some pattern.pointerParamIdx) :
    pattern.indexParamIdx = indexParam params (storeIndex s p) := by
  unfold patternOf at h
  split at h
  next v index hw =>
    split at h
    next =>
      obtain ⟨k, hk, rfl⟩ := Option.map_eq_some_iff.mp h
      have hv : v = p := by
        have hsame := (mem_of_paramIndex hk).symm.trans (mem_of_paramIndex hp)
        exact Option.some.inj hsame
      subst hv
      rw [writtenThrough_index hw]
    next => simp at h
  next => simp at h

theorem recorded_of_noticed {f : String} {args : Expr} {loopVar : Option Var} {params : List Var}
    {body : Stmt} {s : Expr} {p : Var}
    (h : (analyzeProject program baseline).isSafeForParallelLoop (some f, args) loopVar = true)
    (hlib : isStandardLibraryFunction f = false)
    (hdef : definitionOf program f = some (params, body)) (hs : Noticed params body s p) :
    RecordedIn (ownPatterns program f) some params s p := by
  obtain ⟨_, params', body', hdef', hlocal⟩ := accepted_summary h (not_pure_of_not_library hlib)
  cases Option.some.inj (hdef.symm.trans hdef')
  rw [localSummary_of_body hlib] at hlocal
  obtain ⟨below, pattern, hmem, hpat, hp⟩ := hs
  have hpattern : pattern ∈ pointerWritePatterns params body :=
    List.mem_filterMap.mpr ⟨(s, below), hmem, hpat⟩
  have hown : ownPatterns program f = pointerWritePatterns params body := by
    rw [ownPatterns, find?_of_definition hdef, localSummary_of_body hlib]
  have hindex : pattern.indexParamIdx ≠ none := by
    intro hnone
    simp only [hasLocalSideEffects, hasUnanalyzablePointerWrites, Bool.or_eq_false_iff,
      Bool.and_eq_false_iff] at hlocal
    rcases hlocal.2 with hempty | ⟨_, hany⟩
    · have hnil : pointerWritePatterns params body = [] := by simpa using hempty
      simp [hnil] at hpattern
    · rw [List.any_eq_false] at hany
      exact hany pattern hpattern (by simp [hnone])
  obtain ⟨j, hj⟩ := Option.ne_none_iff_exists'.mp hindex
  refine ⟨pattern.pointerParamIdx, j, pattern.pointerParamIdx, j, hp, ?_, rfl, rfl, ?_⟩
  · rw [← patternOf_index hpat hp, hj]
  · rw [hown, ← hj]
    exact hpattern

section
variable {f : String} {args : Expr} {loopVar : Option Var} {pointers : PointerTargets}
  (h : (analyzeProject program baseline).isSafeForParallelLoop (some f, args) loopVar = true)
include h

/-- The start is known by the acceptance, what is called by the condition on the calls. -/
theorem known_of_externs (hall : NothingOverlooked program pointers f) {g : String} {σ : Binding}
    (hg : Reaches program pointers f g σ) :
    isStandardLibraryPureFunction g = true ∨ (definitionOf program g).isSome = true := by
  cases hg with
  | start =>
    cases hpure : isStandardLibraryPureFunction f with
    | true => exact Or.inl rfl
    | false =>
      obtain ⟨_, params, body, hdef, _⟩ := accepted_summary h hpure
      exact Or.inr (by simp [hdef])
  | call hprev hdef hcall htarget => exact hall.externs _ _ _ _ hprev hdef _ _ hcall _ htarget

/-- A body that is read calls no I/O function by its name. -/
theorem not_impure_of_reached (hall : NothingOverlooked program pointers f) {g : String}
    {σ : Binding} (hg : Reaches program pointers f g σ) :
    isStandardLibraryImpureFunction g = false := by
  cases hg with
  | start =>
    cases hpure : isStandardLibraryPureFunction f with
    | true => exact not_impure_of_pure hpure
    | false =>
      by_contra himpure
      rw [Bool.not_eq_false] at himpure
      obtain ⟨_, params, body, _, hlocal⟩ := accepted_summary h hpure
      simp [localSummary, hpure, himpure, hasLocalSideEffects] at hlocal
  | @call g' _ σ' params body callee args hprev hdef hcall htarget =>
    by_cases hread : callee = none ∨ ¬ReadBody program f g'
    · exact hall.io _ _ _ _ hprev hdef _ _ hcall hread _ htarget
    · rw [not_or, not_not] at hread
      obtain ⟨hfollowed, hlib⟩ := hread.2
      have hpure := not_pure_of_followed hfollowed hlib
      have hio := (not_local_of_followed (accepted_summary h hpure).1 hfollowed hlib hdef).1
      rw [hasIOSideEffects, List.any_eq_false] at hio
      rcases htarget with rfl | ⟨hnone, _⟩
      · simpa using hio _ hcall
      · exact absurd hnone hread.1

/-- An accepted call is sound exactly when nothing it reaches escapes the summaries. -/
theorem callSound_iff_nothingOverlooked :
    CallSound program pointers f ↔ NothingOverlooked program pointers f := by
  constructor
  · intro hsound
    refine ⟨?_, ?_, ?_, ?_, ?_, ?_⟩
    · intro g σ params body hg hdef callee args hcall h' htarget
      exact (hsound h' _ (.call hg hdef hcall htarget)).1
    · intro g σ params body hg hdef callee args hcall _ h' htarget
      exact (hsound h' _ (.call hg hdef hcall htarget)).2.1
    · intro g σ params body hg hdef _
      exact (hsound g σ hg).2.2 params body hdef
    · intro g σ params body hg hdef _ s hs hshared
      exact absurd hshared ((hsound g σ hg).2.2 params body hdef s hs).1
    · intro g σ params body hg hdef _ s hs
      exact ((hsound g σ hg).2.2 params body hdef s hs).2.1
    · intro g σ params body hg hdef _ s hs p hp
      exact Or.inr (((hsound g σ hg).2.2 params body hdef s hs).2.2 p hp)
  · intro hall g σ hg
    refine ⟨known_of_externs h hall hg, not_impure_of_reached h hall hg, ?_⟩
    intro params body hdef
    by_cases hread : ReadBody program f g
    · obtain ⟨hfollowed, hlib⟩ := hread
      have hpure := not_pure_of_followed hfollowed hlib
      refine fun s hs => ⟨fun hshared => ?_, ?_, fun p hp => ?_⟩
      · obtain ⟨hmem, hglobal⟩ := hall.shared g σ params body hg hdef ⟨hfollowed, hlib⟩ s hs hshared
        have hclean := (accepted_summary h hpure).1
        have hnone := (not_local_of_followed hclean hfollowed hlib hdef).2
        rw [hasGlobalWrites, List.any_eq_false] at hnone
        exact hnone s hmem hglobal
      · exact hall.beside g σ params body hg hdef ⟨hfollowed, hlib⟩ s hs
      · rcases hall.through g σ params body hg hdef ⟨hfollowed, hlib⟩ s hs p hp with hown | hrec
        · obtain ⟨rfl, rfl, hnoticed⟩ := hown
          exact recorded_of_noticed h hlib hdef hnoticed
        · exact hrec
    · exact hall.unread g σ params body hg hdef hread

end

end

def paramP : Var := ⟨0, "p", .pointer, .automatic⟩

def paramI : Var := ⟨1, "i", .integer 32 true, .automatic⟩

/-- No function sets or calls a pointer. -/
def noPointers : PointerTargets := ⟨fun _ => [], fun _ _ => False, fun _ _ => False⟩

/-- The program `double g(int); double f(int i) \x7b return g(i); \x7d`. -/
def callsExtern : List FunctionDeclaration :=
  [⟨"g", [paramI], none⟩,
    ⟨"f", [paramI], some (.returnStmt (some (.call (some "g") (.exprCons (.varRef paramI) .exprNil))))⟩]

/-- A callee without a body leaves its caller acceptable. -/
theorem callsExtern_not_sound :
    (analyzeProject callsExtern false).isSafeForParallelLoop
        (some "f", .exprCons (.varRef paramI) .exprNil) (some paramI) = true ∧
      ¬CallSound callsExtern noPointers "f" := by
  refine ⟨by decide +kernel, fun hsound => ?_⟩
  have hg : Reaches callsExtern noPointers "f" "g" _ :=
    .call .start (show definitionOf callsExtern "f" = some _ from rfl) (List.mem_singleton.mpr rfl)
      (Or.inl rfl)
  rcases (hsound _ _ hg).1 with hpure | hbody
  · exact absurd hpure (by decide)
  · exact absurd hbody (by decide)

/-- The function `void store(double *p, int i) \x7b p[i] = sqrt(i); \x7d`. -/
def storesRoot : List FunctionDeclaration :=
  [⟨"store", [paramP, paramI], some (.expr (.assign (.arrRef (.varRef paramP) (.varRef paramI))
    (.call (some "sqrt") (.exprCons (.varRef paramI) .exprNil))))⟩]

theorem storesRoot_reaches {g : String} {σ : Binding}
    (h : Reaches storesRoot noPointers "store" g σ) : g = "store" ∧ σ = some ∨ g = "sqrt" := by
  induction h with
  | start => exact Or.inl ⟨rfl, rfl⟩
  | call hreach hdef hcall htarget ih =>
    rcases ih with ⟨rfl, rfl⟩ | rfl
    · cases Option.some.inj hdef
      cases List.mem_singleton.mp hcall
      rcases htarget with htarget | ⟨htarget, _⟩
      · exact Or.inr (Option.some.inj htarget).symm
      · cases htarget
    · have hnone : definitionOf storesRoot "sqrt" = none := by decide
      simp [hnone] at hdef

theorem storesRoot_body {g : String} {σ : Binding} {params : List Var} {body : Stmt}
    (h : Reaches storesRoot noPointers "store" g σ)
    (hdef : definitionOf storesRoot g = some (params, body)) :
    g = "store" ∧ σ = some ∧ params = [paramP, paramI] ∧
      body.calls = [(some "sqrt", .exprCons (.varRef paramI) .exprNil)] ∧
      body.stores = [.arrRef (.varRef paramP) (.varRef paramI)] ∧
      body.writeRefsBelow = [(.arrRef (.varRef paramP) (.varRef paramI), false)] := by
  rcases storesRoot_reaches h with ⟨rfl, rfl⟩ | rfl
  · cases Option.some.inj hdef
    exact ⟨rfl, rfl, rfl, rfl, rfl, rfl⟩
  · have hnone : definitionOf storesRoot "sqrt" = none := by decide
    simp [hnone] at hdef

theorem storesRoot_nothingOverlooked : NothingOverlooked storesRoot noPointers "store" := by
  have hread : ReadBody storesRoot "store" "store" := ⟨.start, by decide⟩
  refine ⟨?_, ?_, ?_, ?_, ?_, ?_⟩
  · intro g σ params body hg hdef callee args hcall h htarget
    obtain ⟨-, -, -, hcalls, -, -⟩ := storesRoot_body hg hdef
    rw [hcalls] at hcall
    cases List.mem_singleton.mp hcall
    rcases htarget with htarget | ⟨htarget, _⟩
    · cases htarget
      exact Or.inl (by decide)
    · cases htarget
  · intro g σ params body hg hdef callee args hcall hunread
    obtain ⟨rfl, -, -, hcalls, -, -⟩ := storesRoot_body hg hdef
    rw [hcalls] at hcall
    cases List.mem_singleton.mp hcall
    rcases hunread with hunread | hunread
    · cases hunread
    · exact absurd hread hunread
  · intro g σ params body hg hdef hunread
    obtain ⟨rfl, -⟩ := storesRoot_body hg hdef
    exact absurd hread hunread
  · intro g σ params body hg hdef _ s hs hshared
    obtain ⟨-, -, -, -, hstores, -⟩ := storesRoot_body hg hdef
    rw [hstores] at hs
    cases List.mem_singleton.mp hs
    rcases hshared with ⟨v, hv, _⟩ | ⟨_, _, hheld⟩
    · simp [Expr.places, paramP] at hv
    · exact hheld.elim
  · rintro g σ params body hg hdef _ s hs ⟨_, _, hheld⟩
    exact hheld
  · intro g σ params body hg hdef _ s hs p hp
    obtain ⟨rfl, rfl, rfl, -, hstores, hrefs⟩ := storesRoot_body hg hdef
    rw [hstores] at hs
    cases List.mem_singleton.mp hs
    obtain ⟨_, _, _, b, hb⟩ := hp
    have hpp : p = paramP := by
      simp only [Expr.places, List.mem_singleton, Prod.mk.injEq, Option.some.injEq] at hb
      exact hb.1
    subst hpp
    refine Or.inl ⟨rfl, rfl, false, ⟨0, some 1⟩, ?_, by decide, by decide⟩
    rw [hrefs]
    exact List.mem_singleton.mpr rfl

theorem storesRoot_sound :
    (analyzeProject storesRoot false).isSafeForParallelLoop
        (some "store", .exprCons (.varRef paramP) (.exprCons (.varRef paramI) .exprNil))
        (some paramI) = true ∧
      CallSound storesRoot noPointers "store" := by
  have haccepted : (analyzeProject storesRoot false).isSafeForParallelLoop
      (some "store", .exprCons (.varRef paramP) (.exprCons (.varRef paramI) .exprNil))
      (some paramI) = true := by decide +kernel
  exact ⟨haccepted, (callSound_iff_nothingOverlooked haccepted).mpr
    storesRoot_nothingOverlooked⟩

end LoomX
