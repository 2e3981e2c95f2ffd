import LoomX.KernelCodeGen
import LoomX.DependenceExact

namespace LoomX

/-- `nextPerfectNestedLoop` for as long as the inner loop is canonical and its analysis finds no
dependence, in a nest whose enclosing loops have the given index variables. -/
def independentLoops (enclosing : List Var) : Stmt → List ForStatement
  | .forLoop i c u b | .seq (.forLoop i c u b) .empty =>
    if (canonicalAnalyze ⟨i, c, u, b⟩).isOk &&
        !(dependenceAnalyze enclosing ⟨i, c, u, b⟩).hasLoopCarriedDependence then
      ⟨i, c, u, b⟩ :: independentLoops
        (enclosing ++ (getLoopIndexVariable ⟨i, c, u, b⟩).toList) b
    else []
  | _ => []

/-- The loops that are candidates for the collapse, the outermost first. -/
def collapseChain (enclosing : List Var) (loop : ForStatement) : List ForStatement :=
  loop :: independentLoops (enclosing ++ (getLoopIndexVariable loop).toList) loop.body

def collapsedVars (enclosing : List Var) (loop : ForStatement) : List Var :=
  (collapseChain enclosing loop).filterMap getLoopIndexVariable

def innerBody (enclosing : List Var) (loop : ForStatement) : Stmt :=
  ((collapseChain enclosing loop).getLastD loop).body

/-- Every array write mentions every collapsed variable. -/
def fanWritesCoverAllCollapsedVars (body : Stmt) (vars : List Var) : Bool :=
  body.writeRefs.all fun ref => !ref.isPntrArrRef || vars.all (ref.containsVar ·)

def collapseDepthFor (enclosing : List Var) (loop : ForStatement) : Nat :=
  let chain := collapseChain enclosing loop
  if chain.length < 2 then 1
  else if fanWritesCoverAllCollapsedVars (innerBody enclosing loop)
      (collapsedVars enclosing loop) then chain.length
  else 1

/-- What variables and subscripts are worth where the body writes. -/
structure IterationPoint where
  vars : Var → Int
  val : Expr → Option Int
  own : ∀ v e, e.ownIndexOnly v = true → val e = e.subscriptValue vars

/-- The evaluations at the writes of the body, in one execution of the nest. -/
abbrev IterationSpace := IterationPoint → Prop

def SamePoint (vars : List Var) (ρ ρ' : IterationPoint) : Prop := ∀ v ∈ vars, ρ.vars v = ρ'.vars v

/-- The subscripts are defined and have these values. -/
def IterationPoint.Values (ρ : IterationPoint) : List Expr → List Int → Prop :=
  List.Forall₂ fun s n => ρ.val s = some n

section

variable (enclosing : List Var) (loop : ForStatement)

/-- A write to an array from outside of the nest. -/
structure OuterWrite (w : Access) : Prop where
  mem : w ∈ (innerBody enclosing loop).accesses
  isWrite : w.isWrite = true
  outer : outerArray loop w.base = true

/-- Different points write different elements. -/
def RaceFree (S : IterationSpace) : Prop :=
  ∀ w w', OuterWrite enclosing loop w → OuterWrite enclosing loop w' → w'.base = w.base →
    ∀ ρ ρ', S ρ → S ρ' → ¬SamePoint (collapsedVars enclosing loop) ρ ρ' →
      ∀ xs ys, ρ.Values w.subscripts xs → ρ'.Values w'.subscripts ys → ¬Overlap xs ys

/-- `coefficient * index + constant`, up to an offset. -/
@[ext]
structure IndexForm where
  index : Var
  coefficient : Int
  constant : Int

def IndexForm.at (f : IndexForm) (ρ : IterationPoint) : Int :=
  f.coefficient * ρ.vars f.index + f.constant

/-- What the analysis extracts, for the index of the form. -/
def IndexForm.IsExtracted (f : IndexForm) (s : Expr) : Prop :=
  extractAffineSubscript enclosing f.index s = some (f.coefficient, f.constant)

/-- Two subscripts of one dimension are forms of one index, up to one offset that does not change
in the nest; they are the same subscript, or the analysis extracts their forms. -/
structure PairForm (S : IterationSpace) (D : Expr → IndexForm) (s t : Expr) : Prop where
  index : (D s).index = (D t).index
  extracted : s = t ∨ (D s).IsExtracted enclosing s ∧ (D t).IsExtracted enclosing t
  value : ∃ offset, ∀ ρ, S ρ → (∀ n, ρ.val s = some n → n = (D s).at ρ + offset) ∧
    ∀ n, ρ.val t = some n → n = (D t).at ρ + offset

/-- Each subscript of a written array is a form of one collapsed index, and the writes are among
the references that are looked at. -/
structure OneIndexEach (S : IterationSpace) (D : Expr → IndexForm) : Prop where
  visible : ∀ L ∈ collapseChain enclosing loop, L.body.visible (outerArray L) = true
  base : ∀ w, OuterWrite enclosing loop w → w.base ∉ collapsedVars enclosing loop
  index : ∀ w, OuterWrite enclosing loop w → ∀ s ∈ w.subscripts,
    (D s).index ∈ collapsedVars enclosing loop
  pairs : ∀ w w', OuterWrite enclosing loop w → OuterWrite enclosing loop w' → w'.base = w.base →
    ∀ p ∈ w.subscripts.zip w'.subscripts, PairForm enclosing S D p.1 p.2

/-- An index that a write mentions has a coefficient other than zero in some dimension. -/
def Counted (D : Expr → IndexForm) : Prop :=
  ∀ w, OuterWrite enclosing loop w → ∀ v ∈ collapsedVars enclosing loop,
    (∃ s ∈ w.subscripts, s.containsVar v = true) →
      ∃ s ∈ w.subscripts, (D s).index = v ∧ (D s).coefficient ≠ 0

/-- Writes that have the same forms in the inner indices are to different elements for different
values of the outermost one, at which no analysis has looked. -/
def OuterApart (S : IterationSpace) (D : Expr → IndexForm) : Prop :=
  ∀ v, getLoopIndexVariable loop = some v → ∀ w w', OuterWrite enclosing loop w →
    OuterWrite enclosing loop w' → w'.base = w.base →
      (∀ p ∈ w.subscripts.zip w'.subscripts, (D p.1).index ≠ v → D p.1 = D p.2) →
        ∀ ρ ρ', S ρ → S ρ' → (∀ p ∈ w.subscripts.zip w'.subscripts, (D p.1).index = v →
          (D p.1).at ρ = (D p.2).at ρ') → ρ.vars v = ρ'.vars v

/-- The bounds of the collapsed loops do not depend on each other, no loop has one iteration only,
and the subscripts are defined. -/
structure Rectangular (S : IterationSpace) : Prop where
  exchange : ∀ ρ ρ', S ρ → S ρ' → ∀ v ∈ collapsedVars enclosing loop, ∃ ρ'', S ρ'' ∧
    ρ''.vars v = ρ'.vars v ∧ ∀ u ∈ collapsedVars enclosing loop, u ≠ v → ρ''.vars u = ρ.vars u
  two : ∀ v ∈ collapsedVars enclosing loop, ∃ ρ ρ', S ρ ∧ S ρ' ∧ ρ.vars v ≠ ρ'.vars v
  defined : ∀ ρ, S ρ → ∀ w, OuterWrite enclosing loop w → ∀ s ∈ w.subscripts,
    ∃ n, ρ.val s = some n

end

/-- More known indices do not change what is extracted. -/
theorem extractAffineSubscript_mono {known known' : List Var} (hsub : known ⊆ known') {v : Var}
    {e : Expr} {c k : Int} (h : extractAffineSubscript known v e = some (c, k)) :
    extractAffineSubscript known' v e = some (c, k) := by
  induction e generalizing c k with
  | intVal kind n => cases kind <;> exact h
  | varRef w =>
    simp only [extractAffineSubscript] at h ⊢
    split at h
    next hw => rwa [if_pos hw]
    next hw =>
      obtain ⟨hmem, h⟩ := Option.ite_none_right_eq_some.mp h
      rw [if_neg hw, if_pos (hsub hmem), h]
  | cast t e ih => exact ih h
  | unary op e ih =>
    cases op with
    | minus =>
      simp only [extractAffineSubscript] at h ⊢
      obtain ⟨⟨c', k'⟩, he, hrest⟩ := Option.bind_eq_some_iff.mp h
      exact Option.bind_eq_some_iff.mpr ⟨_, ih he, hrest⟩
    | lnot | bnot => simp [extractAffineSubscript] at h
  | binary op a b iha ihb =>
    simp only [extractAffineSubscript] at h ⊢
    obtain ⟨⟨c₁, k₁⟩, ha, h⟩ := Option.bind_eq_some_iff.mp h
    obtain ⟨⟨c₂, k₂⟩, hb, h⟩ := Option.bind_eq_some_iff.mp h
    exact Option.bind_eq_some_iff.mpr ⟨_, iha ha, Option.bind_eq_some_iff.mpr ⟨_, ihb hb, h⟩⟩
  | _ => simp [extractAffineSubscript] at h

section

variable {ρ ρ' : IterationPoint}

theorem point_overlap_zip {ss ts : List Expr} {xs ys : List Int} (hs : ρ.Values ss xs)
    (ht : ρ'.Values ts ys) (h : Overlap xs ys) {p : Expr × Expr} (hp : p ∈ ss.zip ts) :
    ∃ n, ρ.val p.1 = some n ∧ ρ'.val p.2 = some n := by
  induction hs generalizing ts ys with
  | nil => simp at hp
  | @cons s n ss xs hn _ ih =>
    cases ht with
    | nil => simp at hp
    | @cons t m ts ys hm htail =>
      simp only [Overlap, List.cons_prefix_cons] at h
      obtain rfl : n = m := h.elim And.left fun h => h.1.symm
      rcases List.mem_cons.mp hp with rfl | hp
      · exact ⟨n, hn, hm⟩
      · exact ih htail (h.imp And.right And.right) hp

theorem IterationPoint.exists_values {ss : List Expr} (h : ∀ s ∈ ss, ∃ n, ρ.val s = some n) :
    ∃ xs, ρ.Values ss xs := by
  induction ss with
  | nil => exact ⟨[], .nil⟩
  | cons s ss ih =>
    obtain ⟨⟨n, hn⟩, hrest⟩ := List.forall_mem_cons.mp h
    obtain ⟨xs, hxs⟩ := ih hrest
    exact ⟨n :: xs, .cons hn hxs⟩

theorem overlap_of_zip {ss ts : List Expr} {xs ys : List Int} (hs : ρ.Values ss xs)
    (ht : ρ'.Values ts ys) (h : ∀ p ∈ ss.zip ts, ρ.val p.1 = ρ'.val p.2) : Overlap xs ys := by
  induction hs generalizing ts ys with
  | nil => exact .inl List.nil_prefix
  | @cons s n ss xs hn _ ih =>
    cases ht with
    | nil => exact .inr List.nil_prefix
    | @cons t m ts ys hm htail =>
      have hnm : n = m := Option.some.inj (hn.symm.trans ((h _ List.mem_cons_self).trans hm))
      exact (ih htail fun p hp => h p (List.mem_cons_of_mem _ hp)).imp
        (fun h => List.cons_prefix_cons.mpr ⟨hnm, h⟩)
        fun h => List.cons_prefix_cons.mpr ⟨hnm.symm, h⟩

end

/-- A loop of the chain has been analysed, and the last one is part of it. -/
structure ChainLoop (enclosing : List Var) (body last : Stmt) (L : ForStatement) : Prop where
  analysed : ∃ outer, enclosing ⊆ outer ∧
    (dependenceAnalyze outer L).hasLoopCarriedDependence = false
  declared : L.body.declared ⊆ body.declared
  accesses : last.accesses ⊆ L.body.accesses

theorem independentLoops_cases (enclosing : List Var) (body : Stmt) :
    independentLoops enclosing body = [] ∨ ∃ L, independentLoops enclosing body =
      L :: independentLoops (enclosing ++ (getLoopIndexVariable L).toList) L.body ∧
      (dependenceAnalyze enclosing L).hasLoopCarriedDependence = false ∧
      L.body.declared ⊆ body.declared ∧ L.body.accesses ⊆ body.accesses := by
  generalize hchain : independentLoops enclosing body = chain
  unfold independentLoops at hchain
  split at hchain
  next i c u b =>
    split at hchain
    next h =>
      simp only [Bool.and_eq_true, Bool.not_eq_true'] at h
      refine .inr ⟨⟨i, c, u, b⟩, hchain.symm, h.2, ?_, ?_⟩
      · exact fun v hv => List.mem_append_right _ hv
      · exact fun a ha => List.mem_append_right _ ha
    next => exact .inl hchain.symm
  next i c u b =>
    split at hchain
    next h =>
      simp only [Bool.and_eq_true, Bool.not_eq_true'] at h
      refine .inr ⟨⟨i, c, u, b⟩, hchain.symm, h.2, ?_, ?_⟩
      · exact fun v hv => List.mem_append_left _ (List.mem_append_right _ hv)
      · exact fun a ha => List.mem_append_left _ (List.mem_append_right _ ha)
    next => exact .inl hchain.symm
  next => exact .inl hchain.symm

theorem chainLoop_of_mem {chain : List ForStatement} {enclosing : List Var} {loop : ForStatement}
    (h : independentLoops enclosing loop.body = chain) :
    (chain.getLastD loop).body.accesses ⊆ loop.body.accesses ∧
      ∀ L ∈ chain, ChainLoop enclosing loop.body (chain.getLastD loop).body L := by
  induction chain generalizing enclosing loop with
  | nil => simp
  | cons L rest ih =>
    rcases independentLoops_cases enclosing loop.body with hnil | ⟨L', hcons, hfalse, hdecl, hacc⟩
    · rw [hnil] at h
      cases h
    · obtain ⟨rfl, hrest⟩ := List.cons.inj (hcons.symm.trans h)
      obtain ⟨hlast, hchain⟩ := ih hrest
      rw [List.getLastD_cons]
      refine ⟨fun a ha => hacc (hlast ha), fun K hK => ?_⟩
      rcases List.mem_cons.mp hK with rfl | hK
      · exact ⟨⟨enclosing, fun _ h => h, hfalse⟩, hdecl, hlast⟩
      · obtain ⟨⟨outer, houter, hK⟩, hsub, hmem⟩ := hchain K hK
        exact ⟨⟨outer, fun v hv => houter (List.mem_append_left _ hv), hK⟩,
          fun v hv => hdecl (hsub hv), hmem⟩

section

variable {enclosing : List Var} {loop : ForStatement} {S : IterationSpace}
  {D : Expr → IndexForm}

theorem covers_of_depth (h : 2 ≤ collapseDepthFor enclosing loop) :
    fanWritesCoverAllCollapsedVars (innerBody enclosing loop) (collapsedVars enclosing loop) =
      true := by
  simp only [collapseDepthFor] at h
  split at h
  next => omega
  next =>
    split at h
    next hcover => exact hcover
    next => omega

theorem mem_varRefs_of_arrayBase {r : Expr} {b v : Var} (hb : r.arrayBase = some b)
    (hv : v ∈ r.varRefs) : v = b ∨ ∃ s ∈ r.subscripts, s.containsVar v = true := by
  induction r with
  | varRef w =>
    obtain rfl := Option.some.inj hb
    exact Or.inl (List.mem_singleton.mp hv)
  | arrRef base i ihb _ =>
    rcases List.mem_append.mp hv with hv | hv
    · rcases ihb hb hv with h | ⟨s, hs, hsv⟩
      · exact Or.inl h
      · exact Or.inr ⟨s, List.mem_append_left _ hs, hsv⟩
    · exact Or.inr ⟨i, List.mem_append_right _ (List.mem_singleton_self i),
        decide_eq_true hv⟩
  | _ => simp [Expr.arrayBase] at hb

theorem outerArray_of_subset {L : ForStatement} (hsub : L.body.declared ⊆ loop.body.declared)
    {v : Var} (h : outerArray loop v = true) : outerArray L v = true := by
  have hnot : v ∉ loop.body.declared := by simpa [outerArray, isDeclaredInsideLoopBody] using h
  simpa [outerArray, isDeclaredInsideLoopBody] using fun hv => hnot (hsub hv)

theorem innerBody_eq : innerBody enclosing loop =
    ((independentLoops (enclosing ++ (getLoopIndexVariable loop).toList)
      loop.body).getLastD loop).body := by
  rw [innerBody, collapseChain, List.getLastD_cons]

/-- What an inner loop's analysis has found about the writes of the body: dimensions of its index
have the same form in both, or can not be equal. -/
theorem innerLoop_accepted (hone : OneIndexEach enclosing loop S D) {L : ForStatement} {v : Var}
    (hL : L ∈ independentLoops (enclosing ++ (getLoopIndexVariable loop).toList) loop.body)
    (hv : getLoopIndexVariable L = some v) {w w' : Access} (hw : OuterWrite enclosing loop w)
    (hw' : OuterWrite enclosing loop w') (hbase : w'.base = w.base) :
    w.subscripts.length = w'.subscripts.length ∧
      ∀ p ∈ w.subscripts.zip w'.subscripts, (D p.1).index = v →
        (∃ x y, (D p.1).coefficient * x - (D p.2).coefficient * y =
          (D p.2).constant - (D p.1).constant) → D p.1 = D p.2 := by
  obtain ⟨⟨outer, houter, hfalse⟩, hdecl, hacc⟩ := (chainLoop_of_mem rfl).2 L hL
  have hmem : ∀ a, OuterWrite enclosing loop a → a ∈ L.body.accesses := fun a ha =>
    hacc (innerBody_eq ▸ ha.mem)
  obtain ⟨hlen, hdims⟩ := accepted_pair hv hfalse (hone.visible L (List.mem_cons_of_mem _ hL))
    (hmem w hw) (hmem w' hw') hw.isWrite (outerArray_of_subset hdecl hw.outer) hbase
  have hknown : enclosing ⊆ knownLoopVars outer L v := fun u hu =>
    List.mem_append_left _ (houter (List.mem_append_left _ hu))
  refine ⟨hlen, fun p hp hindex hsol => ?_⟩
  obtain ⟨hsame, heq | ⟨h₁, h₂⟩, -⟩ := hone.pairs w w' hw hw' hbase p hp
  · rw [heq]
  · rw [IndexForm.IsExtracted, hindex] at h₁
    rw [IndexForm.IsExtracted, ← hsame, hindex] at h₂
    obtain ⟨hc, hk⟩ := hdims p hp _ _ _ _ (extractAffineSubscript_mono hknown h₁)
      (extractAffineSubscript_mono hknown h₂) hsol
    exact IndexForm.ext hsame hc hk

/-- The check makes every collapsed variable occur in the subscripts of a write. -/
theorem mentions_of_covers (h : 2 ≤ collapseDepthFor enclosing loop)
    (hone : OneIndexEach enclosing loop S D) {w : Access} (hw : OuterWrite enclosing loop w)
    {v : Var} (hv : v ∈ collapsedVars enclosing loop) :
    ∃ s ∈ w.subscripts, s.containsVar v = true := by
  have hlast : ∃ L ∈ collapseChain enclosing loop, innerBody enclosing loop = L.body ∧
      outerArray L w.base = true := by
    rw [innerBody_eq]
    set inner := independentLoops (enclosing ++ (getLoopIndexVariable loop).toList) loop.body
      with hinner
    by_cases hnil : inner = []
    · exact ⟨loop, List.mem_cons_self, by rw [hnil]; rfl, hw.outer⟩
    · have hmem : inner.getLastD loop ∈ inner := by
        rw [List.getLastD_eq_getLast?, List.getLast?_eq_some_getLast hnil]
        exact List.getLast_mem hnil
      exact ⟨_, List.mem_cons_of_mem _ hmem, rfl,
        outerArray_of_subset ((chainLoop_of_mem hinner.symm).2 _ hmem).declared hw.outer⟩
  obtain ⟨L, hL, hbody, hout⟩ := hlast
  have hseen := hone.visible L hL
  rw [← hbody] at hseen
  obtain ⟨r, hr, harr, hbase, hsubs⟩ := stmt_collected hseen hw.mem hout
  rw [if_pos hw.isWrite] at hr
  have hmentions := List.all_eq_true.mp (covers_of_depth h) r hr
  simp only [harr, Bool.not_true, Bool.false_or, List.all_eq_true] at hmentions
  have hrefs : v ∈ r.varRefs := by simpa [Expr.containsVar] using hmentions v hv
  rw [← hsubs]
  exact (mem_varRefs_of_arrayBase hbase hrefs).resolve_left fun heq => hone.base w hw (heq ▸ hv)

theorem mem_collapsedVars {v : Var} (hv : v ∈ collapsedVars enclosing loop) :
    getLoopIndexVariable loop = some v ∨
      ∃ L ∈ independentLoops (enclosing ++ (getLoopIndexVariable loop).toList) loop.body,
        getLoopIndexVariable L = some v := by
  obtain ⟨L, hL, hLv⟩ := List.mem_filterMap.mp hv
  rcases List.mem_cons.mp hL with rfl | hL
  · exact .inl hLv
  · exact .inr ⟨L, hL, hLv⟩

/-- The forms of the two subscripts of a dimension have one value at points that meet. -/
theorem forms_eq_of_overlap (hone : OneIndexEach enclosing loop S D) {w w' : Access}
    (hw : OuterWrite enclosing loop w) (hw' : OuterWrite enclosing loop w')
    (hbase : w'.base = w.base) {ρ ρ' : IterationPoint} (hρ : S ρ) (hρ' : S ρ') {xs ys : List Int}
    (hxs : ρ.Values w.subscripts xs) (hys : ρ'.Values w'.subscripts ys) (hover : Overlap xs ys)
    {p : Expr × Expr} (hp : p ∈ w.subscripts.zip w'.subscripts) :
    (D p.1).at ρ = (D p.2).at ρ' := by
  obtain ⟨n, hn, hm⟩ := point_overlap_zip hxs hys hover hp
  obtain ⟨-, -, offset, hvalue⟩ := hone.pairs w w' hw hw' hbase p hp
  have h₁ := (hvalue ρ hρ).1 n hn
  have h₂ := (hvalue ρ' hρ').2 n hm
  omega

/-- In the dimensions of the inner indices, the writes have the same forms where they meet. -/
theorem inner_eq_of_overlap (hone : OneIndexEach enclosing loop S D) {w w' : Access}
    (hw : OuterWrite enclosing loop w) (hw' : OuterWrite enclosing loop w')
    (hbase : w'.base = w.base) {ρ ρ' : IterationPoint} (hρ : S ρ) (hρ' : S ρ') {xs ys : List Int}
    (hxs : ρ.Values w.subscripts xs) (hys : ρ'.Values w'.subscripts ys) (hover : Overlap xs ys)
    {p : Expr × Expr} (hp : p ∈ w.subscripts.zip w'.subscripts)
    (houter : getLoopIndexVariable loop ≠ some (D p.1).index) : D p.1 = D p.2 := by
  have hv := hone.index w hw p.1 (List.of_mem_zip hp).1
  obtain ⟨L, hL, hLv⟩ := (mem_collapsedVars hv).resolve_left houter
  refine (innerLoop_accepted hone hL hLv hw hw' hbase).2 p hp rfl
    ⟨ρ.vars (D p.1).index, ρ'.vars (D p.2).index, ?_⟩
  have heq := forms_eq_of_overlap hone hw hw' hbase hρ hρ' hxs hys hover hp
  simp only [IndexForm.at] at heq
  omega

theorem raceFree_of_counted (h : 2 ≤ collapseDepthFor enclosing loop)
    (hone : OneIndexEach enclosing loop S D) (hcounted : Counted enclosing loop D)
    (hapart : OuterApart enclosing loop S D) : RaceFree enclosing loop S := by
  intro w w' hw hw' hbase ρ ρ' hρ hρ' hne xs ys hxs hys hover
  have hforms := fun p hp => forms_eq_of_overlap hone hw hw' hbase hρ hρ' hxs hys hover (p := p) hp
  have hinner := fun p hp => inner_eq_of_overlap hone hw hw' hbase hρ hρ' hxs hys hover (p := p) hp
  refine hne fun v hv => ?_
  by_cases houter : getLoopIndexVariable loop = some v
  · refine hapart v houter w w' hw hw' hbase (fun p hp hpv => hinner p hp ?_) ρ ρ' hρ hρ'
      fun p hp _ => hforms p hp
    rw [houter]
    exact fun heq => hpv (Option.some.inj heq).symm
  -- An inner index: the check gives the dimension that counts it, the analysis the same form.
  · obtain ⟨L, hL, hLv⟩ := (mem_collapsedVars hv).resolve_left houter
    obtain ⟨s, hs, rfl, hc⟩ := hcounted w hw v hv (mentions_of_covers h hone hw hv)
    have hlen := (innerLoop_accepted hone hL hLv hw hw' hbase).1
    obtain ⟨k, hk, rfl⟩ := List.getElem_of_mem hs
    have hp : (w.subscripts[k], w'.subscripts[k]) ∈ w.subscripts.zip w'.subscripts :=
      List.mem_iff_getElem.mpr ⟨k, by simp; omega, by simp⟩
    have heq := hforms _ hp
    rw [← hinner _ hp houter] at heq
    simp only [IndexForm.at] at heq
    exact mul_left_cancel₀ hc (by omega)

/-- Points at which the forms agree in every dimension write one element, and are the same. -/
theorem samePoint_of_forms (hone : OneIndexEach enclosing loop S D)
    (hrect : Rectangular enclosing loop S) (hfree : RaceFree enclosing loop S) {w w' : Access}
    (hw : OuterWrite enclosing loop w) (hw' : OuterWrite enclosing loop w')
    (hbase : w'.base = w.base) {ρ ρ' : IterationPoint} (hρ : S ρ) (hρ' : S ρ')
    (h : ∀ p ∈ w.subscripts.zip w'.subscripts, (D p.1).at ρ = (D p.2).at ρ') :
    SamePoint (collapsedVars enclosing loop) ρ ρ' := by
  by_contra hne
  obtain ⟨xs, hxs⟩ := IterationPoint.exists_values (hrect.defined ρ hρ w hw)
  obtain ⟨ys, hys⟩ := IterationPoint.exists_values (hrect.defined ρ' hρ' w' hw')
  refine hfree w w' hw hw' hbase ρ ρ' hρ hρ' hne xs ys hxs hys
    (overlap_of_zip hxs hys fun p hp => ?_)
  obtain ⟨n, hn⟩ := hrect.defined ρ hρ w hw p.1 (List.of_mem_zip hp).1
  obtain ⟨m, hm⟩ := hrect.defined ρ' hρ' w' hw' p.2 (List.of_mem_zip hp).2
  obtain ⟨-, -, offset, hvalue⟩ := hone.pairs w w' hw hw' hbase p hp
  rw [hn, hm, (hvalue ρ hρ).1 n hn, (hvalue ρ' hρ').2 m hm, h p hp]

theorem counted_of_raceFree (hone : OneIndexEach enclosing loop S D)
    (hrect : Rectangular enclosing loop S) (hfree : RaceFree enclosing loop S) :
    Counted enclosing loop D := by
  intro w hw v hv _
  by_contra hnone
  obtain ⟨ρ, ρ', hρ, hρ', hne⟩ := hrect.two v hv
  obtain ⟨ρ'', hρ'', hvalue, hothers⟩ := hrect.exchange ρ ρ' hρ hρ' v hv
  -- Nothing changes between points that differ in `v` alone.
  have hsame := samePoint_of_forms hone hrect hfree hw hw rfl hρ hρ'' fun p hp => by
    rw [← mem_zip_self hp]
    have hmem := (List.of_mem_zip hp).1
    by_cases hindex : (D p.1).index = v
    · have hzero : (D p.1).coefficient = 0 := by
        by_contra hc
        exact hnone ⟨p.1, hmem, hindex, hc⟩
      simp only [IndexForm.at, hzero, Int.zero_mul]
    · simp only [IndexForm.at, hothers _ (hone.index w hw p.1 hmem) hindex]
  exact hne ((hsame v hv).trans hvalue)

theorem outerApart_of_raceFree (hone : OneIndexEach enclosing loop S D)
    (hrect : Rectangular enclosing loop S) (hfree : RaceFree enclosing loop S) :
    OuterApart enclosing loop S D := by
  intro v hv w w' hw hw' hbase hinner ρ ρ' hρ hρ' houter
  have hmem : v ∈ collapsedVars enclosing loop :=
    List.mem_filterMap.mpr ⟨loop, List.mem_cons_self, hv⟩
  obtain ⟨ρ'', hρ'', hvalue, hothers⟩ := hrect.exchange ρ ρ' hρ hρ' v hmem
  have hsame := samePoint_of_forms hone hrect hfree hw hw' hbase hρ hρ'' fun p hp => by
    obtain ⟨hindex, -, -⟩ := hone.pairs w w' hw hw' hbase p hp
    by_cases hpv : (D p.1).index = v
    · have heq := houter p hp hpv
      simp only [IndexForm.at, ← hindex, hpv] at heq ⊢
      rw [heq, hvalue]
    · have hsub := hone.index w hw p.1 (List.of_mem_zip hp).1
      rw [← hinner p hp hpv]
      simp only [IndexForm.at, hothers _ hsub hpv]
  exact (hsame v hmem).trans hvalue

end

def collapseI : Var := ⟨0, "i", .integer 32 true, .automatic⟩

def collapseJ : Var := ⟨1, "j", .integer 32 true, .automatic⟩

def collapseN : Var := ⟨2, "n", .integer 32 true, .automatic⟩

def collapseA : Expr := .varRef ⟨3, "a", .array, .automatic⟩

/-- `for (i = 0; i < n; i++) for (j = 0; j < n; j++) target = 0;` -/
def storeNest (target : Expr) : ForStatement :=
  ⟨.expr (.assign (.varRef collapseI) (.intVal .int 0)),
    .binary .lt (.varRef collapseI) (.varRef collapseN), .plusPlus (.varRef collapseI),
    .forLoop (.expr (.assign (.varRef collapseJ) (.intVal .int 0)))
      (.binary .lt (.varRef collapseJ) (.varRef collapseN)) (.plusPlus (.varRef collapseJ))
      (.expr (.assign target (.intVal .int 0)))⟩

/-- `i` is `x`, `j` is `y` and `n` is 2. -/
def atIndices (x y : Int) : IterationPoint :=
  let vars : Var → Int := fun v => if v = collapseI then x else if v = collapseJ then y else 2
  ⟨vars, (·.subscriptValue vars), fun _ _ _ => rfl⟩

def square : IterationSpace := fun ρ =>
  ∃ x y : Int, (0 ≤ x ∧ x < 2) ∧ (0 ≤ y ∧ y < 2) ∧ ρ = atIndices x y

/-- A variable as the form of itself. -/
def ownForm : Expr → IndexForm
  | .varRef v => ⟨v, 1, 0⟩
  | _ => ⟨collapseI, 0, 0⟩

end LoomX
