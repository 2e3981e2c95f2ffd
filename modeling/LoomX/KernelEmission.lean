import LoomX.KernelScope

namespace LoomX

namespace KernelSource

variable {N : KernelSource} {v w : Var}

/-- The kernel mentions the variable in the body, in a bound, or in the extent of an array that it
takes. -/
inductive Mentioned (N : KernelSource) : Var → Prop
  | start (v : Var) (h : v ∈ N.body.varRefs ++ N.boundRefs) : Mentioned N v
  | extent (a v : Var) (ha : Mentioned N a) (h : v ∈ N.extentRefs a) : Mentioned N v

theorem insertVar_foldl (vars ws : List Var) :
    ∃ new, ws.foldl insertVar vars = vars ++ new ∧ (∀ v, v ∈ vars ++ new ↔ v ∈ vars ∨ v ∈ ws) ∧
      (vars.Nodup → (vars ++ new).Nodup) := by
  induction ws generalizing vars with
  | nil => exact ⟨[], by simp, by simp, by simp⟩
  | cons w ws ih =>
    rw [List.foldl_cons]
    by_cases hw : w ∈ vars
    · obtain ⟨new, hnew, hmem, hnodup⟩ := ih vars
      refine ⟨new, by rw [insertVar, if_pos hw, hnew], fun v => ?_, hnodup⟩
      rw [hmem, List.mem_cons]
      constructor
      · exact fun h => h.imp_right Or.inr
      · rintro (h | rfl | h)
        · exact Or.inl h
        · exact Or.inl hw
        · exact Or.inr h
    · obtain ⟨new, hnew, hmem, hnodup⟩ := ih (vars ++ [w])
      refine ⟨w :: new, by rw [insertVar, if_neg hw, hnew, List.append_assoc]; rfl, fun v => ?_, ?_⟩
      · rw [List.append_cons, hmem, List.mem_append, List.mem_singleton, List.mem_cons, or_assoc]
      · intro h
        rw [List.append_cons]
        refine hnodup (List.nodup_append.mpr ⟨h, List.nodup_singleton w, ?_⟩)
        rintro v hv _ hw' rfl
        exact hw (List.mem_singleton.mp hw' ▸ hv)

/-- The set of variables that the loop leaves is the set of those mentioned. -/
theorem grow_spec {fuel : Nat} {vars out : List Var} (h : N.grow fuel vars = some out)
    (hsub : ∀ v ∈ vars, N.Mentioned v) (hstart : ∀ v ∈ N.body.varRefs ++ N.boundRefs, v ∈ vars)
    (hnodup : vars.Nodup) : (∀ v, v ∈ out ↔ N.Mentioned v) ∧ out.Nodup := by
  induction fuel generalizing vars with
  | zero => simp [grow] at h
  | succ fuel ih =>
    obtain ⟨new, hnew, hmem, hnd⟩ := insertVar_foldl vars (vars.flatMap N.extentRefs)
    rw [grow, growPass, hnew] at h
    split at h
    next hlen =>
      obtain rfl := Option.some.inj h
      have hnil : new = [] := by
        rw [List.length_append] at hlen
        exact List.eq_nil_of_length_eq_zero (by omega)
      refine ⟨fun v => ⟨hsub v, fun hv => ?_⟩, hnodup⟩
      induction hv with
      | start v hv => exact hstart v hv
      | extent a v _ hv iha =>
        have hin := (hmem v).mpr (Or.inr (List.mem_flatMap.mpr ⟨a, iha, hv⟩))
        rwa [hnil, List.append_nil] at hin
    next =>
      refine ih h (fun v hv => ?_) (fun v hv => List.mem_append_left _ (hstart v hv)) (hnd hnodup)
      obtain hv | hv := (hmem v).mp hv
      · exact hsub v hv
      · obtain ⟨a, ha, hv⟩ := List.mem_flatMap.mp hv
        exact .extent a v (hsub a ha) hv

theorem grow_startVars {fuel : Nat} {out : List Var} (h : N.grow fuel N.startVars = some out) :
    (∀ v, v ∈ out ↔ N.Mentioned v) ∧ out.Nodup := by
  obtain ⟨new, hnew, hmem, hnodup⟩ := insertVar_foldl [] (N.body.varRefs ++ N.boundRefs)
  have hstart : ∀ v, v ∈ N.startVars ↔ v ∈ N.body.varRefs ++ N.boundRefs := by
    intro v
    rw [startVars, hnew, hmem]
    simp
  refine grow_spec h (fun v hv => .start v ((hstart v).mp hv)) (fun v hv => (hstart v).mpr hv) ?_
  rw [startVars, hnew]
  exact hnodup List.nodup_nil

theorem canonicalInit_index {loop : ForStatement} {v : Var} {lower : Expr}
    (h : canonicalInit loop.init = some (v, lower)) :
    getLoopIndexVariable loop = some v ∧ loop.init.forStatements = [] := by
  unfold canonicalInit at h
  unfold getLoopIndexVariable
  split at h
  next heq =>
    obtain ⟨rfl, -⟩ := Prod.mk.inj (Option.some.inj h)
    rw [heq]
    exact ⟨rfl, rfl⟩
  next e heq =>
    split at h
    next lhs rhs hassign =>
      split at h
      next w hvar =>
        obtain ⟨rfl, -⟩ := Prod.mk.inj (Option.some.inj h)
        simp [heq, hassign, hvar, Stmt.forStatements]
      next => simp at h
    next => simp at h
  next => simp at h

theorem canonical_index {l : ForStatement} {c : CanonicalResult} (h : canonicalAnalyze l = .ok c) :
    getLoopIndexVariable l = some c.indexVar ∧ l.init.forStatements = [] := by
  obtain ⟨rel, hc, -, -⟩ := canonicalAnalyze_ok h
  exact canonicalInit_index (isCanonicalForLoop_some hc).1

theorem onlyLoopInBody_forStatements {s : Stmt} {inner : ForStatement}
    (h : onlyLoopInBody s = some inner) :
    s.forStatements = inner :: (inner.init.forStatements ++ inner.body.forStatements) := by
  unfold onlyLoopInBody at h
  split at h
  next =>
    obtain rfl := Option.some.inj h
    simp [Stmt.forStatements]
  next =>
    obtain rfl := Option.some.inj h
    rfl
  next => simp at h

theorem collectLoopChain_ne_nil (loop : ForStatement) (depth : Nat) :
    collectLoopChain loop depth ≠ [] := by
  unfold collectLoopChain
  split
  next => simp
  next => simp
  next => split <;> simp

/-- The loops of a nest are those of the chain and those in the body of the innermost one. -/
theorem chain_forStatements {loop : ForStatement} {depth : Nat}
    (h : ∀ l ∈ collectLoopChain loop depth, ∃ c, canonicalAnalyze l = .ok c) :
    loop :: loop.body.forStatements = collectLoopChain loop depth ++
      (((collectLoopChain loop depth).getLast?).getD loop).body.forStatements := by
  induction depth using Nat.strong_induction_on generalizing loop with
  | _ depth ih =>
    match depth with
    | 0 | 1 => rfl
    | depth + 2 =>
      rw [collectLoopChain] at h ⊢
      split at h
      next inner hinner =>
        obtain ⟨hloop, hrest⟩ := List.forall_mem_cons.mp h
        have hchain := ih (depth + 1) (by omega) hrest
        have hinit : inner.init.forStatements = [] := by
          obtain ⟨front, rest, hne⟩ := List.exists_cons_of_ne_nil
            (collectLoopChain_ne_nil inner (depth + 1))
          have hfront : front = inner := by
            cases depth with
            | zero => exact (List.cons.inj hne).1.symm
            | succ depth =>
              rw [collectLoopChain] at hne
              split at hne <;> exact (List.cons.inj hne).1.symm
          obtain ⟨c, hc⟩ := hrest front (by simp [hne])
          rw [hfront] at hc
          exact (canonical_index hc).2
        have hlast : ((loop :: collectLoopChain inner (depth + 1)).getLast?).getD loop =
            ((collectLoopChain inner (depth + 1)).getLast?).getD inner := by
          obtain ⟨front, rest, hne⟩ := List.exists_cons_of_ne_nil
            (collectLoopChain_ne_nil inner (depth + 1))
          rw [hne, List.getLast?_cons_cons]
          rfl
        rw [hlast, onlyLoopInBody_forStatements hinner, hinit, List.nil_append, hchain]
        rfl
      next => rfl

/-- The variable is a parameter of the kernel: mentioned, no index and not local. -/
def Passes (N : KernelSource) (v : Var) : Prop :=
  N.Mentioned v ∧ v ∉ N.indexVars ∧ v ∉ N.body.declared

/-- The variable is one of the reductions. -/
def IsReduction (N : KernelSource) (v : Var) : Prop := ∃ r ∈ N.reductions, r.var = v

end KernelSource

namespace Kernel

/-- The pointer that a reduction is passed by. -/
def pointerName (id : Nat) (v : Var) : String := "__loomx_red_" ++ toString id ++ "_" ++ v.name

/-- A declaration under the name of the variable. -/
def ownDecl (v : Var) : String × Option Var := (v.name, some v)

def paramDecl (k : Kernel) (p : KernelParam) : String × Option Var :=
  if p.kind = .reduction then (pointerName k.id p.var, none) else ownDecl p.var

/-- The variables that stand for a reduction in the body: references in CUDA, macros otherwise. -/
def reductionVars (k : Kernel) : List Var :=
  if k.backend = .cuda then k.targets.map (·.var)
  else (k.params.filter (·.kind = .reduction)).map (·.var)

/-- The indices of the collapsed loops, the innermost one first. -/
def indexDecls (k : Kernel) : List (String × Option Var) :=
  k.dims.reverse.map fun d => (d.2.indexName, getLoopIndexVariable d.1)

/-- The names that the parameters and the prologue declare, with the variables that they stand
for. -/
def decls (k : Kernel) : List (String × Option Var) :=
  k.params.map k.paramDecl ++ ([("__loo", none), ("__tot", none)] ++ (k.indexDecls ++
    (k.innerIndices.map ownDecl ++ k.reductionVars.map ownDecl)))

/-- The references in the trip counts and the index values. -/
def headerRefs (k : Kernel) : List Var :=
  k.dims.flatMap fun d =>
    d.2.lower.varRefs ++ d.2.upper.varRefs ++ if d.2.unitStep then [] else d.2.step.varRefs

/-- The kernel is closed and well-scoped: no scope declares a name twice, the trip counts only use
parameters, the pointers behind the reductions are passed, and every variable is bound once. -/
structure WellScoped (k : Kernel) : Prop where
  distinct : (k.decls.map Prod.fst ++ k.body.topDeclared.map Var.name).Nodup
  blocks : ∀ b ∈ k.body.blocks, NamesApart b
  macros : k.backend ≠ .cuda → ∀ v ∈ k.body.declared, ∀ w ∈ k.reductionVars, v.name ≠ w.name
  header : ∀ v ∈ k.headerRefs, ∃ p ∈ k.params, p.kind ≠ .reduction ∧ p.var = v
  pointers : ∀ v ∈ k.reductionVars, ⟨.reduction, v⟩ ∈ k.params
  bound : ∀ v ∈ k.headerRefs ++ k.body.varRefs,
    (k.decls.filterMap Prod.snd ++ k.body.declared).count v = 1

end Kernel

namespace KernelSource

variable {N : KernelSource} {k : Kernel} {fuel : Nat} {v w : Var}

/-- The source is one that compiles: every declaration declares its own variable, no block declares
a name twice, the headers of the collapsed loops do not see the body, and no index is an array. -/
structure Valid (N : KernelSource) : Prop where
  declared : N.body.declared.Nodup
  apart : NamesApart N.body.topDeclared
  blocks : ∀ b ∈ N.body.blocks, NamesApart b
  indices : ∀ v ∈ N.collapsedIndexVars, v ∉ N.body.declared
  bounds : ∀ v ∈ N.boundRefs, v ∉ N.body.declared
  scalarIndices : ∀ v ∈ N.indexVars, N.types.arrayDims v = []

/-- The variable has its own name in the outermost scope of the kernel. -/
def Named (N : KernelSource) (v : Var) : Prop :=
  N.Passes v ∨ v ∈ N.collapsedIndexVars ∨ v ∈ N.innerIndices ∨ v ∈ N.body.topDeclared

/-- What the generator does not check. -/
structure Separate (N : KernelSource) : Prop where
  indices : (N.collapsedIndexVars ++ N.innerIndices).Nodup
  names : ∀ v w, N.Named v → N.Named w → v.name = w.name → v = w
  reserved : ∀ v, N.Named v → v.name ≠ "__loo" ∧ v.name ≠ "__tot" ∧
    ∀ w, N.Passes w → N.IsReduction w → v.name ≠ Kernel.pointerName N.id w
  bounds : ∀ v ∈ N.boundRefs, v ∉ N.indexVars ∧ ¬N.IsReduction v
  references : N.backend = .cuda → ∀ v, N.IsReduction v → N.Passes v
  macros : N.backend ≠ .cuda → ∀ v ∈ N.body.declared, ∀ w, N.Passes w → N.IsReduction w →
    v.name ≠ w.name

/-- What a generated kernel is made of. -/
structure Emits (N : KernelSource) (k : Kernel) : Prop where
  backend : k.backend = N.backend
  number : k.id = N.id
  dims : k.dims.map (fun d => (d.2.indexName, getLoopIndexVariable d.1)) =
    N.collapsedIndexVars.map Kernel.ownDecl
  header : k.headerRefs = N.boundRefs
  inner : k.innerIndices = N.innerIndices
  loops : N.indexVars =
    N.collapsedIndexVars ++ N.body.forStatements.filterMap getLoopIndexVariable
  targets : ∀ v, v ∈ k.targets.map (·.var) ↔ N.IsReduction v
  targetsNodup : (k.targets.map (·.var)).Nodup
  params : ∀ v, v ∈ k.params.map (·.var) ↔ N.Passes v
  paramsNodup : (k.params.map (·.var)).Nodup
  kinds : ∀ p ∈ k.params, p.kind = .reduction ↔ N.IsReduction p.var
  declared : k.body.declared = N.body.declared
  topDeclared : k.body.topDeclared = N.body.topDeclared
  blocks : k.body.blocks = N.body.blocks
  mentions : ∀ v ∈ k.body.varRefs, v ∈ N.body.varRefs ∨
    ∃ a ∈ N.body.varRefs, ∃ dim ∈ N.types.arrayDims a, v ∈ dim.varRefs

theorem mapM_some_map {α β : Type} {f : α → Option β} {g : β → α}
    (hg : ∀ x y, f x = some y → g y = x) {xs : List α} {ys : List β}
    (h : xs.mapM f = some ys) : ys.map g = xs := by
  induction xs generalizing ys with
  | nil =>
    obtain rfl : ys = [] := by simpa using h.symm
    rfl
  | cons x xs ih =>
    rw [List.mapM_cons] at h
    obtain ⟨y, hy, h⟩ := Option.bind_eq_some_iff.mp h
    obtain ⟨tail, ht, h⟩ := Option.bind_eq_some_iff.mp h
    obtain rfl := Option.some.inj h
    rw [List.map_cons, hg x y hy, ih ht]

theorem collapsedDims_chain {loop : ForStatement} {depth : Nat}
    {dims : List (ForStatement × DimInfo)} (h : collapsedDims loop depth = some dims) :
    dims.map Prod.fst = collectLoopChain loop depth := by
  unfold collapsedDims at h
  split at h
  next => simp at h
  next front rest hchain =>
    obtain ⟨d, hd, h⟩ := Option.bind_eq_some_iff.mp h
    obtain ⟨ds, hds, h⟩ := Option.bind_eq_some_iff.mp h
    obtain rfl := Option.some.inj h
    have hfront : d.1 = front := by
      dsimp only at hd
      split at hd
      next => simp at hd
      next =>
        obtain rfl := Option.some.inj hd
        rfl
    have hrest : ds.map Prod.fst = rest := by
      refine mapM_some_map (fun l q hq => ?_) hds
      dsimp only at hq
      split at hq
      next => simp at hq
      next =>
        split at hq
        next => simp at hq
        next =>
          obtain rfl := Option.some.inj hq
          rfl
    rw [hchain, List.map_cons, hfront, hrest]

theorem targets_spec {elementTypeName : Var → String} {reductions : List ReductionInfo}
    {targets : List ReductionTarget} (h : reductionTargets elementTypeName reductions = some targets) :
    (∀ v, v ∈ targets.map (·.var) ↔ ∃ r ∈ reductions, r.var = v) ∧
      (targets.map (·.var)).Nodup := by
  suffices hall : ∀ {acc targets : List ReductionTarget}, (acc.map (·.var)).Nodup →
      reductions.foldlM (fun targets r =>
        (reductionTarget elementTypeName r).map (insertTarget · targets)) acc = some targets →
      (∀ v, v ∈ targets.map (·.var) ↔ v ∈ acc.map (·.var) ∨ ∃ r ∈ reductions, r.var = v) ∧
        (targets.map (·.var)).Nodup by
    have hempty : (([] : List ReductionTarget).map (·.var)).Nodup := List.nodup_nil
    obtain ⟨hmem, hnodup⟩ := hall hempty h
    exact ⟨fun v => by rw [hmem]; simp, hnodup⟩
  clear h
  induction reductions with
  | nil =>
    intro acc targets hnodup h
    obtain rfl : acc = targets := Option.some.inj h
    exact ⟨fun v => by simp, hnodup⟩
  | cons r reductions ih =>
    intro acc targets hnodup h
    rw [List.foldlM_cons] at h
    obtain ⟨acc', hacc, h⟩ := Option.bind_eq_some_iff.mp h
    obtain ⟨t, ht, rfl⟩ := Option.map_eq_some_iff.mp hacc
    have hinsert : ((insertTarget t acc).map (·.var)).Nodup := by
      rw [insertTarget, List.map_cons, List.nodup_cons]
      refine ⟨?_, hnodup.sublist (List.filter_sublist.map _)⟩
      intro hin
      obtain ⟨t', ht', heq⟩ := List.mem_map.mp hin
      exact absurd heq (by simpa using (List.mem_filter.mp ht').2)
    obtain ⟨hmem, hnd⟩ := ih hinsert h
    refine ⟨fun v => ?_, hnd⟩
    have hvar : (∃ t' ∈ insertTarget t acc, t'.var = v) ↔ v = t.var ∨ ∃ t' ∈ acc, t'.var = v :=
      mem_insertTarget_var
    simp only [← List.mem_map] at hvar
    rw [hmem, hvar, reductionTarget_var ht]
    simp only [List.mem_cons, exists_eq_or_imp, eq_comm (a := r.var)]
    tauto

theorem classify_spec {targets : List ReductionTarget} {p : KernelParam}
    (h : N.classify targets v = some p) :
    p.var = v ∧ (p.kind = .reduction ↔ v ∈ targets.map (·.var)) := by
  have hany : targets.any (·.var = v) = true ↔ v ∈ targets.map (·.var) := by
    simp [List.mem_map]
  unfold classify at h
  dsimp only at h
  split at h
  next =>
    split at h
    next => simp at h
    next hno =>
      split at h
      next => simp at h
      next =>
        obtain rfl := Option.some.inj h
        rw [hany] at hno
        simp [hno]
  next =>
    split at h
    next => simp at h
    next =>
      split at h
      next hyes =>
        obtain rfl := Option.some.inj h
        rw [hany] at hyes
        simp [hyes]
      next hno =>
        obtain rfl := Option.some.inj h
        rw [hany] at hno
        simp [hno]

theorem mem_passed {vars : List Var} (hvars : ∀ v, v ∈ vars ↔ N.Mentioned v) :
    v ∈ N.passed vars ↔ N.Passes v := by
  rw [passed, List.mem_filter, hvars, Passes, Bool.and_eq_true, Bool.not_eq_true', isLocal,
    decide_eq_true_eq, decide_eq_false_iff_not]

theorem dims_spec {dims : List (ForStatement × DimInfo)}
    (h : ∀ p ∈ dims, ∃ c, canonicalAnalyze p.1 = .ok c ∧ p.2 = dimInfo c) :
    dims.map (fun d => (d.2.indexName, getLoopIndexVariable d.1)) =
        ((dims.map Prod.fst).filterMap getLoopIndexVariable).map Kernel.ownDecl ∧
      (dims.flatMap fun d => d.2.lower.varRefs ++ d.2.upper.varRefs ++
          if d.2.unitStep then [] else d.2.step.varRefs) =
        (dims.map Prod.fst).flatMap fun l =>
          match canonicalAnalyze l with
          | .ok c => c.lowerBound.varRefs ++ c.upperBound.varRefs ++ c.stride.varRefs
          | .error _ => [] := by
  induction dims with
  | nil => exact ⟨rfl, rfl⟩
  | cons d dims ih =>
    obtain ⟨⟨c, hc, hd⟩, hdims⟩ := List.forall_mem_cons.mp h
    obtain ⟨hnames, hrefs⟩ := ih hdims
    have hindex := (canonical_index hc).1
    refine ⟨?_, ?_⟩
    · rw [List.map_cons, List.map_cons, List.filterMap_cons, hindex, List.map_cons, hnames, hd]
      rfl
    · rw [List.flatMap_cons, List.map_cons, List.flatMap_cons, hrefs, hc, hd]
      congr 1
      simp only [dimInfo]
      -- the literal step of a unit stride mentions nothing
      by_cases hunit : c.stride = .intVal .int 1
      · simp [hunit, Expr.varRefs]
      · simp [hunit]

theorem rewritten_body (arrayDims : Var → List Expr) (arrayVars : List Var)
    (backend : CodeGenBackend) (targets : List ReductionTarget) (s : Stmt) :
    let out := linearizeBody arrayDims arrayVars (rewriteReductions backend targets s)
    out.declared = s.declared ∧ out.topDeclared = s.topDeclared ∧ out.blocks = s.blocks ∧
      ∀ v ∈ out.varRefs, v ∈ s.varRefs ∨ ∃ a ∈ s.varRefs, ∃ dim ∈ arrayDims a, v ∈ dim.varRefs := by
  have hreductions : (rewriteReductions backend targets s).declared = s.declared ∧
      (rewriteReductions backend targets s).topDeclared = s.topDeclared ∧
      (rewriteReductions backend targets s).blocks = s.blocks ∧
      ∀ v ∈ (rewriteReductions backend targets s).varRefs, v ∈ s.varRefs := by
    unfold rewriteReductions
    split
    next => exact ⟨rfl, rfl, rfl, fun _ h => h⟩
    next =>
      refine ⟨declared_rewriteExprs _ _, topDeclared_rewriteExprs _ _, blocks_rewriteExprs _ _, ?_⟩
      intro v hv
      obtain ⟨e, he, hv⟩ := mem_varRefs_rewriteExprs.mp hv
      rw [varRefs_eq_flatMap]
      exact List.mem_flatMap.mpr ⟨e, he, varRefs_rewriteReductions hv⟩
  obtain ⟨hdeclared, htop, hblocks, hrefs⟩ := hreductions
  generalize rewriteReductions backend targets s = t at *
  dsimp only
  unfold linearizeBody
  split
  next => exact ⟨hdeclared, htop, hblocks, fun v hv => Or.inl (hrefs v hv)⟩
  next =>
    rw [declared_rewriteExprs, topDeclared_rewriteExprs, blocks_rewriteExprs]
    refine ⟨hdeclared, htop, hblocks, fun v hv => ?_⟩
    obtain ⟨e, he, hv⟩ := mem_varRefs_rewriteExprs.mp hv
    have hsub : ∀ a ∈ e.varRefs, a ∈ s.varRefs := by
      intro a ha
      apply hrefs
      rw [varRefs_eq_flatMap]
      exact List.mem_flatMap.mpr ⟨e, he, ha⟩
    obtain hv | ⟨a, ha, hdim⟩ := mentions_linearize hv
    · exact Or.inl (hsub v hv)
    · exact Or.inr ⟨a, hsub a ha, hdim⟩

theorem emits_of_generate (h : N.generate fuel = some k) : N.Emits k := by
  obtain ⟨dims, hdims, h⟩ := Option.bind_eq_some_iff.mp h
  obtain ⟨_, -, h⟩ := Option.bind_eq_some_iff.mp h
  obtain ⟨_, -, h⟩ := Option.bind_eq_some_iff.mp h
  obtain ⟨_, -, h⟩ := Option.bind_eq_some_iff.mp h
  obtain ⟨_, -, h⟩ := Option.bind_eq_some_iff.mp h
  obtain ⟨targets, htargets, h⟩ := Option.bind_eq_some_iff.mp h
  obtain ⟨allVars, hgrow, h⟩ := Option.bind_eq_some_iff.mp h
  obtain ⟨params, hparams, h⟩ := Option.bind_eq_some_iff.mp h
  obtain ⟨_, -, h⟩ := Option.bind_eq_some_iff.mp h
  obtain rfl := Option.some.inj h
  obtain ⟨hmentioned, hnodup⟩ := grow_startVars hgrow
  obtain ⟨htargetVars, htargetsNodup⟩ := targets_spec (resolveReductions_eq_some htargets).1
  have hcanonical : ∀ p ∈ dims, ∃ c, canonicalAnalyze p.1 = .ok c ∧ p.2 = dimInfo c :=
    fun p hp => collapsedDims_canonical hdims hp
  have hchain := collapsedDims_chain hdims
  obtain ⟨hindices, hheader⟩ := dims_spec hcanonical
  have hvars : params.map (·.var) = N.passed allVars :=
    mapM_some_map (fun v p hp => (classify_spec hp).1) hparams
  have hperm := List.perm_insertionSort (fun a b => paramBefore a b = true) params
  have hbody := rewritten_body N.types.arrayDims
    ((params.filter (·.kind = .array)).map (·.var)) N.backend targets N.body
  have hloops : N.loop :: N.loop.body.forStatements = N.chain ++ N.body.forStatements := by
    refine chain_forStatements fun l hl => ?_
    rw [← hchain] at hl
    obtain ⟨p, hp, rfl⟩ := List.mem_map.mp hl
    obtain ⟨c, hc, -⟩ := hcanonical p hp
    exact ⟨c, hc⟩
  refine
    { backend := rfl
      number := rfl
      dims := by rw [hindices, hchain]; rfl
      header := by rw [Kernel.headerRefs, hheader, hchain]; rfl
      inner := rfl
      loops := by rw [indexVars, nestIndexVars, hloops, List.filterMap_append]; rfl
      targets := htargetVars
      targetsNodup := htargetsNodup
      params := fun v => ?_
      paramsNodup := ?_
      kinds := fun p hp => ?_
      declared := hbody.1
      topDeclared := hbody.2.1
      blocks := hbody.2.2.1
      mentions := hbody.2.2.2 }
  · rw [(hperm.map _).mem_iff, hvars, mem_passed hmentioned]
  · rw [(hperm.map _).nodup_iff, hvars]
    exact hnodup.filter _
  · obtain ⟨v, -, hv⟩ := mapM_some_mem hparams (hperm.mem_iff.mp hp)
    obtain ⟨rfl, hkind⟩ := classify_spec hv
    rw [hkind, htargetVars]
    rfl

end KernelSource

end LoomX
