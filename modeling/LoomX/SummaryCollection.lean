import LoomX.InterproceduralAnalysis
import Mathlib.Data.List.Induction

namespace LoomX

namespace Expr

/-- Pointer-valued as far as the operators and the types of the variables show it. -/
def isAddress : Expr → Bool
  | varRef v => v.type.isPointerOrArray
  | addrOf _ => true
  | cast _ e | plusPlus e | minusMinus e => e.isAddress
  | binary .add a b | binary .sub a b => a.isAddress || b.isAddress
  | _ => false

/-- What a part of the places holds: an array lies in them, a pointer leads on. -/
def heldIn (ps : List (Option Var × Bool)) : List (Option Var × Bool) :=
  ps ++ ps.map fun p => (p.1, true)

/-- The variables in whose storage an l-value lies or, for `pointee`, the object its value points
to; the flag says that a pointer held in the variable, or in a part of it, is followed. `none`
stands for pointers that come from a call or a number. -/
def places : (pointee : Bool) → Expr → List (Option Var × Bool)
  | false, varRef v => [(some v, false)]
  | true, varRef v => [(some v, v.type != .array)]
  | false, member e _ => e.places false
  | true, member e _ => heldIn (e.places false)
  | false, arrRef b _ => b.places true
  | true, arrRef b _ => heldIn (b.places true)
  | false, deref e => e.places true
  | true, deref e => heldIn (e.places true)
  | true, addrOf e => e.places false
  | true, cast _ e | true, plusPlus e | true, minusMinus e => e.places true
  | true, assign l _ | true, compound _ l _ => l.places true
  | true, binary .add a b | true, binary .sub a b =>
    if a.isAddress then a.places true else if b.isAddress then b.places true else [(none, true)]
  | true, binary .comma _ b => b.places true
  | true, cond _ b c => b.places true ++ c.places true
  | true, _ => [(none, true)]
  | false, _ => []

end Expr

/-- The function a name denotes: its first definition. -/
def definitionOf (program : List FunctionDeclaration) (name : String) : Option (List Var × Stmt) :=
  program.findSome? fun d => if d.name = name then d.definition.map (d.params, ·) else none

/-- What the pointers of a function can hold: the targets of its calls through pointers, and for
the pointers in a variable (or from nowhere) what its body lets them point to, besides what a
parameter starts with: global and static variables, or the objects of parameters. -/
structure PointerTargets where
  calls : String → List String
  shared : String → Option Var → Prop
  objects : String → Option Var → Prop

/-- The targets of a call made in `caller`. -/
def isCallTarget (pointers : PointerTargets) (caller : String) (callee : Option String)
    (target : String) : Prop :=
  callee = some target ∨ callee = none ∧ target ∈ pointers.calls caller

/-- Which parameter of the first function each parameter of a called one is. -/
abbrev Binding := Nat → Option Nat

def Binding.pass (σ : Binding) (params : List Var) (args : Expr) : Binding := fun k =>
  (args.exprList[k]?.bind getArgumentVariable).bind fun v => (paramIndex params v).bind σ

/-- The functions reached from `f` by chains of calls, each with the binding of its
parameters. -/
inductive Reaches (program : List FunctionDeclaration) (pointers : PointerTargets)
    (f : String) : String → Binding → Prop
  | start : Reaches program pointers f f some
  | call {g h : String} {σ : Binding} {params : List Var} {body : Stmt} {callee : Option String}
      {args : Expr} (hreach : Reaches program pointers f g σ)
      (hdef : definitionOf program g = some (params, body)) (hcall : (callee, args) ∈ body.calls)
      (htarget : isCallTarget pointers g callee h) :
      Reaches program pointers f h (σ.pass params args)

section
variable (pointers : PointerTargets) (g : String)

/-- The store changes a global or function-static variable, as such or through a pointer. -/
def StoresShared (s : Expr) : Prop :=
  (∃ v : Var, (some v, false) ∈ s.places false ∧ v.storage ≠ .automatic) ∨
    ∃ q, (q, true) ∈ s.places false ∧ pointers.shared g q

/-- The store is made through the pointer parameter `p`. -/
def StoresThrough (params : List Var) (s : Expr) (p : Var) : Prop :=
  p ∈ params ∧ p.type.isPointerOrArray = true ∧ s ≠ .varRef p ∧ ∃ b, (some p, b) ∈ s.places false

/-- The store reaches the object of a parameter through a pointer that the body has set. -/
def StoresBeside (s : Expr) : Prop :=
  ∃ q, (q, true) ∈ s.places false ∧ pointers.objects g q

/-- The index of a store through `p`, as the patterns see it. -/
def storeIndex (s : Expr) (p : Var) : Option Expr :=
  match s with
  | .arrRef _ i => some i.extractSubscriptIndex
  | .deref e => e.extractPointerArithmeticIndex p
  | _ => none

/-- The patterns, which are those of the first function of a chain, have the store through `p`. -/
def RecordedIn (patterns : List PointerWritePattern) (σ : Binding) (params : List Var)
    (s : Expr) (p : Var) : Prop :=
  ∃ k j k' j', paramIndex params p = some k ∧ indexParam params (storeIndex s p) = some j ∧
    σ k = some k' ∧ σ j = some j' ∧ ⟨k', some j'⟩ ∈ patterns

/-- The body stores nothing but locals and what the patterns record. -/
def HarmlessBody (patterns : List PointerWritePattern) (σ : Binding) (params : List Var)
    (body : Stmt) : Prop :=
  ∀ s ∈ body.stores, ¬StoresShared pointers g s ∧ ¬StoresBeside pointers g s ∧
    ∀ p, StoresThrough params s p → RecordedIn patterns σ params s p

end

/-- The pointer-write patterns in the summary of a function. -/
def ownPatterns (program : List FunctionDeclaration) (f : String) : List PointerWritePattern :=
  match (collectSummaries program).find? f with
  | some summary => summary.pointerWritePatterns
  | none => []

/-- Whatever a call to `f` reaches is known and has no effect outside `f`'s patterns. -/
def CallSound (program : List FunctionDeclaration) (pointers : PointerTargets) (f : String) :
    Prop :=
  ∀ g σ, Reaches program pointers f g σ →
    (isStandardLibraryPureFunction g = true ∨ (definitionOf program g).isSome = true) ∧
      isStandardLibraryImpureFunction g = false ∧
      ∀ params body, definitionOf program g = some (params, body) →
        HarmlessBody pointers g (ownPatterns program f) σ params body

/-- The functions the analysis follows from `f`: by resolved calls in bodies it looks into. -/
inductive Followed (program : List FunctionDeclaration) (f : String) : String → Prop
  | start : Followed program f f
  | call {g h : String} {params : List Var} {body : Stmt} {args : Expr}
      (hg : Followed program f g) (hlib : isStandardLibraryFunction g = false)
      (hdef : definitionOf program g = some (params, body))
      (hcall : (some h, args) ∈ body.calls) : Followed program f h

/-- `collectParameterAccess` makes a pattern for the store. -/
def Noticed (params : List Var) (body : Stmt) (s : Expr) (p : Var) : Prop :=
  ∃ below pattern, (s, below) ∈ body.writeRefsBelow ∧ patternOf params (s, below) = some pattern ∧
    paramIndex params p = some pattern.pointerParamIdx

/-- The analysis takes the effects of the function from its body. -/
def ReadBody (program : List FunctionDeclaration) (f g : String) : Prop :=
  Followed program f g ∧ isStandardLibraryFunction g = false

/-- Nothing reached from `f` escapes the summaries. The first two fields are about the calls in
the bodies reached, the others about their stores. -/
structure NothingOverlooked (program : List FunctionDeclaration) (pointers : PointerTargets)
    (f : String) : Prop where
  externs : ∀ g σ params body, Reaches program pointers f g σ →
    definitionOf program g = some (params, body) → ∀ callee args, (callee, args) ∈ body.calls →
      ∀ h, isCallTarget pointers g callee h →
        isStandardLibraryPureFunction h = true ∨ (definitionOf program h).isSome = true
  io : ∀ g σ params body, Reaches program pointers f g σ →
    definitionOf program g = some (params, body) → ∀ callee args, (callee, args) ∈ body.calls →
      callee = none ∨ ¬ReadBody program f g →
        ∀ h, isCallTarget pointers g callee h → isStandardLibraryImpureFunction h = false
  unread : ∀ g σ params body, Reaches program pointers f g σ →
    definitionOf program g = some (params, body) → ¬ReadBody program f g →
      HarmlessBody pointers g (ownPatterns program f) σ params body
  shared : ∀ g σ params body, Reaches program pointers f g σ →
    definitionOf program g = some (params, body) → ReadBody program f g →
      ∀ s ∈ body.stores, StoresShared pointers g s →
        s ∈ body.writeRefs ∧ isGlobalWrite params body s = true
  beside : ∀ g σ params body, Reaches program pointers f g σ →
    definitionOf program g = some (params, body) → ReadBody program f g →
      ∀ s ∈ body.stores, ¬StoresBeside pointers g s
  through : ∀ g σ params body, Reaches program pointers f g σ →
    definitionOf program g = some (params, body) → ReadBody program f g →
      ∀ s ∈ body.stores, ∀ p, StoresThrough params s p →
        g = f ∧ σ = some ∧ Noticed params body s p ∨
          RecordedIn (ownPatterns program f) σ params s p

theorem hasDefinition_localSummary (d : FunctionDeclaration) :
    (localSummary d).hasDefinition = d.definition.isSome := by
  unfold localSummary
  split_ifs
  · rfl
  · rfl
  · split <;> simp_all

theorem find?_analyzeFunction (summaries : Summaries) (d : FunctionDeclaration) (g : String) :
    (analyzeFunction summaries d).find? g =
      if g = d.name ∧ ∀ s, summaries.find? g = some s → s.hasDefinition = false then
        some (localSummary d)
      else summaries.find? g := by
  have hinsert : (summaries.insertWith (fun _ new => new) d.name (localSummary d)).find? g =
      if g = d.name then some (localSummary d) else summaries.find? g := by
    rw [SortedMap.find?_insertWith]
    split
    next =>
      cases summaries.find? g <;> rfl
    next => rfl
  unfold analyzeFunction
  by_cases hg : g = d.name
  · subst hg
    split
    next s hs =>
      by_cases hdef : s.hasDefinition = true
      · simp [hs, hdef]
      · rw [if_neg hdef, hinsert]
        simp [hs, hdef]
    next hs =>
      rw [hinsert]
      simp [hs]
  · have hskip : ¬(g = d.name ∧ ∀ s, summaries.find? g = some s → s.hasDefinition = false) :=
      fun h => hg h.1
    rw [if_neg hskip]
    split
    next s hs =>
      split_ifs
      · rfl
      · rw [hinsert, if_neg hg]
    next => rw [hinsert, if_neg hg]

theorem definitionOf_append (program : List FunctionDeclaration) (d : FunctionDeclaration)
    (g : String) : definitionOf (program ++ [d]) g =
      (definitionOf program g).or (if d.name = g then d.definition.map (d.params, ·) else none) := by
  rw [definitionOf, List.findSome?_append]
  simp [definitionOf]

/-- The map holds the summary of the first definition of every defined name, and no definition
for the others. -/
def Summarises (program : List FunctionDeclaration) (summaries : Summaries) : Prop :=
  ∀ g, (∀ params body, definitionOf program g = some (params, body) →
      summaries.find? g = some (localSummary ⟨g, params, some body⟩)) ∧
    (definitionOf program g = none → ∀ s, summaries.find? g = some s → s.hasDefinition = false)

theorem summarises_step {program : List FunctionDeclaration} {summaries : Summaries}
    (h : Summarises program summaries) (d : FunctionDeclaration) :
    Summarises (program ++ [d]) (analyzeFunction summaries d) := by
  intro g
  obtain ⟨hsome, hnone⟩ := h g
  have hstep := find?_analyzeFunction summaries d g
  rw [definitionOf_append]
  cases hdef : definitionOf program g with
  | some pb =>
    obtain ⟨params, body⟩ := pb
    have hfind := hsome params body hdef
    have hold : ¬∀ s, summaries.find? g = some s → s.hasDefinition = false := by
      intro hall
      have hfalse := hall _ hfind
      rw [hasDefinition_localSummary] at hfalse
      simp at hfalse
    rw [if_neg fun hc => hold hc.2] at hstep
    rw [hstep]
    refine ⟨fun params' body' heq => ?_, fun heq => by simp at heq⟩
    cases Option.some.inj heq
    exact hfind
  | none =>
    have hnodef := hnone hdef
    rw [Option.none_or]
    by_cases hg : d.name = g
    · subst hg
      rw [if_pos ⟨rfl, hnodef⟩] at hstep
      rw [if_pos rfl, hstep]
      constructor
      · intro params body heq
        obtain ⟨b, hb, hpair⟩ := Option.map_eq_some_iff.mp heq
        cases hpair
        rw [← hb]
      · intro heq s hs
        cases Option.some.inj hs
        rw [hasDefinition_localSummary, Option.map_eq_none_iff.mp heq]
        rfl
    · rw [if_neg fun hc => hg hc.1.symm] at hstep
      rw [if_neg hg, hstep]
      exact ⟨fun params body heq => by simp at heq, fun _ => hnodef⟩

theorem collectSummaries_spec (program : List FunctionDeclaration) :
    Summarises program (collectSummaries program) := by
  induction program using List.reverseRecOn with
  | nil =>
    intro g
    exact ⟨fun params body h => by simp [definitionOf] at h,
      fun _ s hs => by simp [collectSummaries, SortedMap.find?, SortedMap.empty] at hs⟩
  | append_singleton program d ih =>
    rw [collectSummaries, List.foldl_append]
    exact summarises_step ih d

section
variable {program : List FunctionDeclaration}

theorem mem_collectCallees {body : Stmt} {h : String} {args : Expr}
    (hcall : (some h, args) ∈ body.calls) (hlib : isStandardLibraryFunction h = false) :
    h ∈ collectCallees body := by
  have hfold : ∀ l : List String, h ∈ l.foldr insertOrdered [] ↔ h ∈ l := by
    intro l
    induction l with
    | nil => simp
    | cons a l ih => rw [List.foldr_cons, mem_insertOrdered, ih, List.mem_cons]
  rw [collectCallees, hfold, List.mem_filterMap]
  exact ⟨(some h, args), hcall, by simp [hlib]⟩

theorem localSummary_of_body {g : String} {params : List Var} {body : Stmt}
    (hlib : isStandardLibraryFunction g = false) :
    localSummary ⟨g, params, some body⟩ =
      { name := g
        hasDefinition := true
        hasIOSideEffects := hasIOSideEffects body
        hasGlobalWrites := hasGlobalWrites params body
        writesThroughPointer := !(pointerWritePatterns params body).isEmpty
        pointerWritePatterns := pointerWritePatterns params body
        callees := collectCallees body } := by
  obtain ⟨hpure, himpure⟩ := Bool.or_eq_false_iff.mp hlib
  simp [localSummary, hpure, himpure]

theorem find?_of_definition {g : String} {params : List Var} {body : Stmt}
    (hdef : definitionOf program g = some (params, body)) :
    (collectSummaries program).find? g = some (localSummary ⟨g, params, some body⟩) :=
  (collectSummaries_spec program g).1 params body hdef

end

end LoomX
