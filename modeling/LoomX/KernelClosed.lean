import LoomX.KernelEmission

namespace LoomX

namespace KernelSource

variable {N : KernelSource} {k : Kernel} {fuel : Nat} {v w : Var}

/-- The variables that are parameters under their own name. -/
def ownVars (k : Kernel) : List Var := (k.params.filter (·.kind ≠ .reduction)).map (·.var)

/-- The variables that are passed by a pointer. -/
def pointerVars (k : Kernel) : List Var := (k.params.filter (·.kind = .reduction)).map (·.var)

/-- The variables that the parameters and the prologue bind. -/
def boundVars (N : KernelSource) (k : Kernel) : List Var :=
  ownVars k ++ (N.collapsedIndexVars.reverse ++ (N.innerIndices ++ k.reductionVars))

section
variable (hk : N.Emits k)

include hk

theorem mem_ownVars : v ∈ ownVars k ↔ N.Passes v ∧ ¬N.IsReduction v := by
  rw [← hk.params, ownVars]
  simp only [List.mem_map, List.mem_filter, decide_eq_true_eq]
  constructor
  · rintro ⟨p, ⟨hp, hkind⟩, rfl⟩
    exact ⟨⟨p, hp, rfl⟩, fun h => hkind ((hk.kinds p hp).mpr h)⟩
  · rintro ⟨⟨p, hp, rfl⟩, hno⟩
    exact ⟨p, ⟨hp, fun h => hno ((hk.kinds p hp).mp h)⟩, rfl⟩

theorem mem_pointerVars : v ∈ pointerVars k ↔ N.Passes v ∧ N.IsReduction v := by
  rw [← hk.params, pointerVars]
  simp only [List.mem_map, List.mem_filter, decide_eq_true_eq]
  constructor
  · rintro ⟨p, ⟨hp, hkind⟩, rfl⟩
    exact ⟨⟨p, hp, rfl⟩, (hk.kinds p hp).mp hkind⟩
  · rintro ⟨⟨p, hp, rfl⟩, hyes⟩
    exact ⟨p, ⟨hp, (hk.kinds p hp).mpr hyes⟩, rfl⟩

theorem mem_reductionVars : v ∈ k.reductionVars ↔
    if N.backend = .cuda then N.IsReduction v else N.Passes v ∧ N.IsReduction v := by
  unfold Kernel.reductionVars
  rw [hk.backend]
  split
  next => exact hk.targets v
  next => exact mem_pointerVars hk

theorem pointerVars_subset (h : v ∈ pointerVars k) : v ∈ k.reductionVars := by
  rw [mem_pointerVars hk] at h
  rw [mem_reductionVars hk]
  split
  next => exact h.2
  next => exact h

theorem indexDecls_eq : k.indexDecls = N.collapsedIndexVars.reverse.map Kernel.ownDecl := by
  rw [Kernel.indexDecls, List.map_reverse, hk.dims, List.map_reverse]

omit hk in
theorem params_perm (k : Kernel) : (k.params.map k.paramDecl).Perm
    ((ownVars k).map Kernel.ownDecl ++
      (pointerVars k).map fun v => (Kernel.pointerName k.id v, none)) := by
  have hsplit := (List.filter_append_perm (fun p : KernelParam => decide (p.kind ≠ .reduction))
    k.params).symm.map k.paramDecl
  refine hsplit.trans (List.Perm.of_eq ?_)
  rw [List.map_append, ownVars, pointerVars, List.map_map, List.map_map]
  congr 1
  · refine List.map_congr_left fun p hp => ?_
    have hkind : p.kind ≠ .reduction := by simpa using (List.mem_filter.mp hp).2
    rw [Kernel.paramDecl, if_neg hkind]
    rfl
  · have hfilter : k.params.filter (fun p => !decide (p.kind ≠ .reduction)) =
        k.params.filter fun p => decide (p.kind = .reduction) := by
      refine List.filter_congr fun p _ => ?_
      by_cases hkind : p.kind = .reduction <;> simp [hkind]
    rw [hfilter]
    refine List.map_congr_left fun p hp => ?_
    have hkind : p.kind = .reduction := by simpa using (List.mem_filter.mp hp).2
    rw [Kernel.paramDecl, if_pos hkind]
    rfl

theorem decls_perm : k.decls.Perm ((boundVars N k).map Kernel.ownDecl ++
    ([("__loo", none), ("__tot", none)] ++
      (pointerVars k).map fun v => (Kernel.pointerName N.id v, none))) := by
  rw [Kernel.decls, indexDecls_eq hk, hk.inner, boundVars, List.map_append, List.map_append,
    List.map_append]
  have hparams := params_perm k
  rw [hk.number] at hparams
  refine List.perm_iff_count.mpr fun d => ?_
  simp only [List.count_append, hparams.count_eq]
  omega

theorem names_perm : (k.decls.map Prod.fst ++ k.body.topDeclared.map Var.name).Perm
    ((boundVars N k ++ N.body.topDeclared).map Var.name ++
      (["__loo", "__tot"] ++ (pointerVars k).map (Kernel.pointerName N.id))) := by
  have hnames := (decls_perm hk).map Prod.fst
  have hown : ((boundVars N k).map Kernel.ownDecl).map Prod.fst = (boundVars N k).map Var.name := by
    rw [List.map_map]
    rfl
  have hpointers : ((pointerVars k).map fun v =>
      (Kernel.pointerName N.id v, (none : Option Var))).map Prod.fst =
        (pointerVars k).map (Kernel.pointerName N.id) := by
    rw [List.map_map]
    rfl
  rw [List.map_append, List.map_append, hown, hpointers] at hnames
  rw [hk.topDeclared, List.map_append]
  refine List.perm_iff_count.mpr fun d => ?_
  simp only [List.count_append, hnames.count_eq, List.map_cons, List.map_nil]
  omega

theorem binders_perm : (k.decls.filterMap Prod.snd).Perm (boundVars N k) := by
  have hbinders := (decls_perm hk).filterMap Prod.snd
  have hown : ((boundVars N k).map Kernel.ownDecl).filterMap Prod.snd = boundVars N k := by
    rw [List.filterMap_map]
    exact List.filterMap_some
  have hpointers : ((pointerVars k).map fun v =>
      (Kernel.pointerName N.id v, (none : Option Var))).filterMap Prod.snd = [] := by
    rw [List.filterMap_map]
    exact List.filterMap_eq_nil_iff.mpr fun _ _ => rfl
  rw [List.filterMap_append, List.filterMap_append, hown, hpointers] at hbinders
  simpa using hbinders

theorem mem_boundVars : v ∈ boundVars N k ↔
    N.Passes v ∨ v ∈ N.collapsedIndexVars ∨ v ∈ N.innerIndices ∨ v ∈ k.reductionVars := by
  rw [boundVars, List.mem_append, List.mem_append, List.mem_append, List.mem_reverse,
    mem_ownVars hk]
  constructor
  · rintro (h | h | h | h)
    · exact Or.inl h.1
    · exact Or.inr (Or.inl h)
    · exact Or.inr (Or.inr (Or.inl h))
    · exact Or.inr (Or.inr (Or.inr h))
  · rintro (h | h | h | h)
    · by_cases hyes : N.IsReduction v
      · exact Or.inr (Or.inr (Or.inr (pointerVars_subset hk ((mem_pointerVars hk).mpr ⟨h, hyes⟩))))
      · exact Or.inl ⟨h, hyes⟩
    · exact Or.inr (Or.inl h)
    · exact Or.inr (Or.inr (Or.inl h))
    · exact Or.inr (Or.inr (Or.inr h))

/-- Every variable that the body mentions is bound by the kernel or declared in the body. -/
theorem closed (hN : N.Valid) (h : v ∈ k.body.varRefs) :
    v ∈ boundVars N k ∨ v ∈ N.body.declared := by
  by_cases hlocal : v ∈ N.body.declared
  · exact Or.inr hlocal
  refine Or.inl ((mem_boundVars hk).mpr ?_)
  by_cases hindex : v ∈ N.indexVars
  · rw [hk.loops, List.mem_append] at hindex
    by_cases hcollapsed : v ∈ N.collapsedIndexVars
    · exact Or.inr (Or.inl hcollapsed)
    · refine Or.inr (Or.inr (Or.inl ?_))
      have hinner := hindex.resolve_left hcollapsed
      exact List.mem_filter.mpr ⟨hinner, by simp [isLocal, hcollapsed, hlocal]⟩
  · refine Or.inl ⟨?_, hindex, hlocal⟩
    obtain h | ⟨a, ha, dim, hdim, h⟩ := hk.mentions v h
    · exact .start v (List.mem_append_left _ h)
    · refine .extent a v (.start a (List.mem_append_left _ ha)) ?_
      have hnoindex : a ∉ N.indexVars := by
        intro hin
        rw [hN.scalarIndices a hin] at hdim
        simp at hdim
      rw [extentRefs, if_neg hnoindex]
      refine List.mem_filter.mpr ⟨List.mem_flatMap.mpr ⟨dim, hdim, h⟩, ?_⟩
      simp [isLocal, hindex, hlocal]

/-- What the kernel binds is bound once, and not in the body. -/
theorem boundVars_nodup (hN : N.Valid) (hS : N.Separate) :
    (boundVars N k).Nodup ∧ ∀ v ∈ boundVars N k, v ∉ N.body.declared := by
  have hreductions : ∀ v ∈ k.reductionVars, N.Passes v ∧ N.IsReduction v := by
    intro v hv
    rw [mem_reductionVars hk] at hv
    split at hv
    next hcuda => exact ⟨hS.references hcuda v hv, hv⟩
    next => exact hv
  have hcollapsed : ∀ v ∈ N.collapsedIndexVars, v ∈ N.indexVars := by
    intro v hv
    rw [hk.loops]
    exact List.mem_append_left _ hv
  have hinner : ∀ v ∈ N.innerIndices, v ∈ N.indexVars ∧ v ∉ N.body.declared := by
    intro v hv
    obtain ⟨hv, hkeep⟩ := List.mem_filter.mp hv
    rw [hk.loops]
    have hkeep : v ∉ N.collapsedIndexVars ∧ v ∉ N.body.declared := by simpa [isLocal] using hkeep
    exact ⟨List.mem_append_right _ hv, hkeep.2⟩
  have hnodup : k.reductionVars.Nodup := by
    unfold Kernel.reductionVars
    split
    next => exact hk.targetsNodup
    next => exact hk.paramsNodup.sublist (List.filter_sublist.map _)
  obtain ⟨hindices, hinners, hapart⟩ := List.nodup_append.mp hS.indices
  constructor
  · rw [boundVars]
    refine List.nodup_append.mpr ⟨hk.paramsNodup.sublist (List.filter_sublist.map _), ?_, ?_⟩
    · refine List.nodup_append.mpr ⟨List.nodup_reverse.mpr hindices, ?_, ?_⟩
      · refine List.nodup_append.mpr ⟨hinners, hnodup, ?_⟩
        rintro v hv _ hw rfl
        exact (hreductions v hw).1.2.1 (hinner v hv).1
      · rintro v hv _ hw rfl
        rw [List.mem_reverse] at hv
        obtain hw | hw := List.mem_append.mp hw
        · exact hapart v hv v hw rfl
        · exact (hreductions v hw).1.2.1 (hcollapsed v hv)
    · rintro v hv _ hw rfl
      obtain ⟨hpass, hno⟩ := (mem_ownVars hk).mp hv
      rw [List.mem_append, List.mem_append, List.mem_reverse] at hw
      obtain hw | hw | hw := hw
      · exact hpass.2.1 (hcollapsed v hw)
      · exact hpass.2.1 (hinner v hw).1
      · exact hno (hreductions v hw).2
  · intro v hv
    obtain hv | hv | hv | hv := (mem_boundVars hk).mp hv
    · exact hv.2.2
    · exact hN.indices v hv
    · exact (hinner v hv).2
    · exact (hreductions v hv).1.2.2

theorem named_iff (hR : ∀ v ∈ k.reductionVars, N.Passes v) :
    v ∈ boundVars N k ++ N.body.topDeclared ↔ N.Named v := by
  rw [List.mem_append, mem_boundVars hk, Named]
  constructor
  · rintro ((h | h | h | h) | h)
    · exact Or.inl h
    · exact Or.inr (Or.inl h)
    · exact Or.inr (Or.inr (Or.inl h))
    · exact Or.inl (hR v h)
    · exact Or.inr (Or.inr (Or.inr h))
  · rintro (h | h | h | h)
    · exact Or.inl (Or.inl h)
    · exact Or.inl (Or.inr (Or.inl h))
    · exact Or.inl (Or.inr (Or.inr (Or.inl h)))
    · exact Or.inr h

omit hk in
theorem pointerName_inj {n : Nat} (h : Kernel.pointerName n v = Kernel.pointerName n w) :
    v.name = w.name := by
  have htext := congrArg String.toList h
  simp only [Kernel.pointerName, String.toList_append, List.append_assoc,
    List.append_cancel_left_eq] at htext
  exact String.toList_inj.mp htext

omit hk in
theorem pointerName_ne (n : Nat) (v : Var) :
    Kernel.pointerName n v ≠ "__loo" ∧ Kernel.pointerName n v ≠ "__tot" := by
  refine ⟨fun h => ?_, fun h => ?_⟩ <;>
  · have htext := congrArg String.toList h
    simp [Kernel.pointerName, String.toList_append] at htext

theorem separate_of_wellScoped (h : k.WellScoped) : N.Separate := by
  have hperm := names_perm hk
  have hnodup := hperm.nodup_iff.mp h.distinct
  obtain ⟨hown, -, hapart⟩ := List.nodup_append.mp hnodup
  have hinj := List.inj_on_of_nodup_map hown
  have hvars := List.Nodup.of_map _ hown
  have hpassed : ∀ v ∈ k.reductionVars, N.Passes v := fun v hv =>
    (hk.params v).mp (List.mem_map.mpr ⟨_, h.pointers v hv, rfl⟩)
  have hnamed : ∀ v, N.Named v → v ∈ boundVars N k ++ N.body.topDeclared := fun v hv =>
    (named_iff hk hpassed).mpr hv
  constructor
  · have hbound := (List.nodup_append.mp hvars).1
    rw [boundVars, ← List.append_assoc (N.collapsedIndexVars.reverse)] at hbound
    have hmid := (List.nodup_append.mp (List.nodup_append.mp hbound).2.1).1
    exact ((List.reverse_perm _).append_right _).nodup_iff.mp hmid
  · exact fun v w hv hw heq => hinj (hnamed v hv) (hnamed w hw) heq
  · intro v hv
    have hname : v.name ∈ (boundVars N k ++ N.body.topDeclared).map Var.name :=
      List.mem_map.mpr ⟨v, hnamed v hv, rfl⟩
    refine ⟨hapart _ hname _ (by simp), hapart _ hname _ (by simp), fun w hw hyes => ?_⟩
    refine hapart _ hname _ (List.mem_append_right _ (List.mem_map.mpr ⟨w, ?_, rfl⟩))
    exact (mem_pointerVars hk).mpr ⟨hw, hyes⟩
  · intro v hv
    rw [← hk.header] at hv
    obtain ⟨p, hp, hkind, rfl⟩ := h.header v hv
    have hpass := (hk.params p.var).mp (List.mem_map.mpr ⟨p, hp, rfl⟩)
    exact ⟨hpass.2.1, fun hyes => hkind ((hk.kinds p hp).mpr hyes)⟩
  · intro hcuda v hv
    refine hpassed v ((mem_reductionVars hk).mpr ?_)
    rwa [if_pos hcuda]
  · intro hother v hv w hw hyes
    rw [← hk.backend] at hother
    rw [← hk.declared] at hv
    exact h.macros hother v hv w (pointerVars_subset hk ((mem_pointerVars hk).mpr ⟨hw, hyes⟩))

theorem wellScoped_of_separate (hN : N.Valid) (hS : N.Separate) : k.WellScoped := by
  obtain ⟨hbound, hlocal⟩ := boundVars_nodup hk hN hS
  have hreductions : ∀ v ∈ k.reductionVars, N.Passes v ∧ N.IsReduction v := by
    intro v hv
    rw [mem_reductionVars hk] at hv
    split at hv
    next hcuda => exact ⟨hS.references hcuda v hv, hv⟩
    next => exact hv
  have hnamed : ∀ v ∈ boundVars N k ++ N.body.topDeclared, N.Named v := fun v hv =>
    (named_iff hk fun v hv => (hreductions v hv).1).mp hv
  have hheader : ∀ v ∈ k.headerRefs, v ∈ ownVars k := by
    intro v hv
    rw [hk.header] at hv
    obtain ⟨hindex, hno⟩ := hS.bounds v hv
    exact (mem_ownVars hk).mpr
      ⟨⟨.start v (List.mem_append_right _ hv), hindex, hN.bounds v hv⟩, hno⟩
  constructor
  · refine (names_perm hk).nodup_iff.mpr (List.nodup_append.mpr ⟨?_, ?_, ?_⟩)
    · refine List.Nodup.map_on (fun v hv w hw heq => hS.names v w (hnamed v hv) (hnamed w hw) heq) ?_
      refine List.nodup_append.mpr ⟨hbound, List.Nodup.of_map _ hN.apart, ?_⟩
      rintro v hv _ hw rfl
      exact hlocal v hv (topDeclared_subset _ hw)
    · refine List.nodup_append.mpr ⟨by decide, ?_, ?_⟩
      · refine List.Nodup.map_on (fun v hv w hw heq => ?_)
          (hk.paramsNodup.sublist (List.filter_sublist.map _))
        have hv := ((mem_pointerVars hk).mp hv).1
        have hw := ((mem_pointerVars hk).mp hw).1
        exact hS.names v w (Or.inl hv) (Or.inl hw) (pointerName_inj heq)
      · rintro n hn _ hm rfl
        obtain ⟨v, -, rfl⟩ := List.mem_map.mp hm
        obtain ⟨hloo, htot⟩ := pointerName_ne N.id v
        obtain hn | hn := List.mem_pair.mp hn
        · exact hloo hn
        · exact htot hn
    · rintro n hn m hm rfl
      obtain ⟨v, hv, rfl⟩ := List.mem_map.mp hn
      obtain ⟨hloo, htot, hpointers⟩ := hS.reserved v (hnamed v hv)
      obtain hm | hm := List.mem_append.mp hm
      · obtain hm | hm := List.mem_pair.mp hm
        · exact hloo hm
        · exact htot hm
      · obtain ⟨w, hw, heq⟩ := List.mem_map.mp hm
        obtain ⟨hw, hyes⟩ := (mem_pointerVars hk).mp hw
        exact hpointers w hw hyes heq.symm
  · rw [hk.blocks]
    exact hN.blocks
  · intro hother v hv w hw
    rw [hk.backend] at hother
    rw [hk.declared] at hv
    exact hS.macros hother v hv w (hreductions w hw).1 (hreductions w hw).2
  · intro v hv
    obtain ⟨p, hp, rfl⟩ := List.mem_map.mp (hheader v hv)
    obtain ⟨hp, hkind⟩ := List.mem_filter.mp hp
    exact ⟨p, hp, by simpa using hkind, rfl⟩
  · intro v hv
    obtain ⟨hpass, hyes⟩ := hreductions v hv
    obtain ⟨p, hp, rfl⟩ := List.mem_map.mp ((hk.params v).mpr hpass)
    have hkind := (hk.kinds p hp).mpr hyes
    have heq : p = ⟨.reduction, p.var⟩ := by rw [← hkind]
    exact heq ▸ hp
  · intro v hv
    rw [hk.declared, ((binders_perm hk).append_right _).count_eq]
    refine List.count_eq_one_of_mem ?_ ?_
    · refine List.nodup_append.mpr ⟨hbound, hN.declared, ?_⟩
      rintro v hv _ hw rfl
      exact hlocal v hv hw
    · obtain hv | hv := List.mem_append.mp hv
      · exact List.mem_append_left _ (List.mem_append_left _ (hheader v hv))
      · exact List.mem_append.mpr (closed hk hN hv)

end

def kernelArray : Var := ⟨2, "a", .array, .automatic⟩

/-- `for (j = 0; j < 10; j++) a[i] = j;` with a `j` of the function. -/
def innerLoop : Stmt :=
  .forLoop (.expr (.assign (.varRef (intVar 1 "j")) (.intVal .int 0)))
    (.binary .lt (.varRef (intVar 1 "j")) (.intVal .int 10)) (.plusPlus (.varRef (intVar 1 "j")))
    (.expr (.assign (.arrRef (.varRef kernelArray) (.varRef (intVar 0 "i")))
      (.varRef (intVar 1 "j"))))

/-- `for (i = 0; i < 10; i++)` around a body. -/
def nestAround (body : Stmt) : KernelSource where
  loop := { countingLoop 0 10 .lt .plusPlus with body := body }
  collapseDepth := 1
  reductions := []
  backend := .cuda
  id := 0
  types := ⟨fun v => if v.type = .array then [.intVal .int 10] else [], fun _ => "int"⟩
  readAfter := fun _ => false

theorem nestAround_valid {body : Stmt} (hdeclared : body.declared = [])
    (htop : body.topDeclared = []) (hblocks : ∀ b ∈ body.blocks, b = [])
    (hindices : ∀ v ∈ (nestAround body).indexVars, v.type ≠ .array) : (nestAround body).Valid := by
  have hbody : (nestAround body).body = body := rfl
  constructor
  · rw [hbody, hdeclared]
    exact List.nodup_nil
  · rw [hbody, htop]
    exact List.nodup_nil
  · intro b hb
    rw [hblocks b hb]
    exact List.nodup_nil
  · intro v _
    rw [hbody, hdeclared]
    simp
  · intro v _
    rw [hbody, hdeclared]
    simp
  · exact fun v hv => if_neg (hindices v hv)

end KernelSource

end LoomX
