import LoomX.ArrayAccess

namespace LoomX

namespace Expr

/-- Some array reference in the expression has a base among the outer arrays. -/
def touches (outer : Var → Bool) : Expr → Bool
  | intVal _ _ | exprNil | varRef _ => false
  | arrRef b i => (b.arrayBase.any outer) || b.touches outer || i.touches outer
  | deref e | member e _ | addrOf e | cast _ e | unary _ e | plusPlus e | minusMinus e
  | call _ e => e.touches outer
  | binary _ a b | assign a b | compound _ a b | exprCons a b => a.touches outer || b.touches outer
  | cond a b c => a.touches outer || b.touches outer || c.touches outer

/-- Every access to an outer array is one the collection reports: none is made through a struct
member or inside the base of another reference, and none by a shift assignment. -/
def visible (outer : Var → Bool) : Bool → Expr → Bool
  | _, intVal _ _ | _, exprNil | _, varRef _ => true
  | _, arrRef b i => b.visible outer true && i.visible outer false
  | true, e | _, member e _ => !e.touches outer
  | _, deref e | _, addrOf e | _, cast _ e | _, unary _ e | _, plusPlus e | _, minusMinus e
  | _, call _ e => e.visible outer false
  | _, binary _ a b | _, assign a b | _, exprCons a b => a.visible outer false && b.visible outer false
  | _, compound op l r =>
    !(isShift op && l.isPntrArrRef && l.arrayBase.any outer) &&
      l.visible outer false && r.visible outer false
  | _, cond a b c => a.visible outer false && b.visible outer false && c.visible outer false

theorem accesses_of_not_touches {outer : Var → Bool} {e : Expr} (h : e.touches outer = false)
    {use : Use} {a : Access} (ha : a ∈ e.accesses use) : outer a.base = false := by
  induction e generalizing use with
  | intVal | exprNil | varRef => simp [accesses] at ha
  | arrRef b i ihb ihi =>
    simp only [touches, Bool.or_eq_false_iff] at h
    simp only [accesses, List.mem_append] at ha
    rcases ha with (ha | ha) | ha
    · have hbase : (arrRef b i).arrayBase = b.arrayBase := rfl
      rw [hbase] at ha
      cases hb : b.arrayBase with
      | none => simp [hb, accessesOf] at ha
      | some v =>
        have hv : outer v = false := by simpa [hb] using h.1.1
        cases use <;> simp [hb, accessesOf] at ha
        · rw [ha]; exact hv
        · rw [ha]; exact hv
        · rcases ha with rfl | rfl <;> exact hv
    · exact ihb h.1.2 ha
    · exact ihi h.2 ha
  | deref e ih | cast _ e ih | unary _ e ih | call _ e ih => exact ih h ha
  | member e _ ih => exact ih h ha
  | addrOf e ih => exact ih h ha
  | plusPlus e ih | minusMinus e ih => exact ih h ha
  | binary _ a b iha ihb | assign a b iha ihb | compound _ a b iha ihb | exprCons a b iha ihb =>
    simp only [touches, Bool.or_eq_false_iff] at h
    simp only [accesses, List.mem_append] at ha
    rcases ha with ha | ha
    · exact iha h.1 ha
    · exact ihb h.2 ha
  | cond a b c iha ihb ihc =>
    simp only [touches, Bool.or_eq_false_iff] at h
    simp only [accesses, List.mem_append] at ha
    rcases ha with (ha | ha) | ha
    · exact iha h.1.1 ha
    · exact ihb h.1.2 ha
    · exact ihc h.2 ha

end Expr

/-- A reference of the lists reports the access. -/
def Collected (reads writes : List Expr) (a : Access) : Prop :=
  ∃ r ∈ if a.isWrite then writes else reads,
    r.isPntrArrRef = true ∧ r.arrayBase = some a.base ∧ r.subscripts = a.subscripts

theorem Collected.mono {reads writes reads' writes' : List Expr} {a : Access}
    (h : Collected reads writes a) (hr : reads ⊆ reads') (hw : writes ⊆ writes') :
    Collected reads' writes' a := by
  obtain ⟨r, hmem, hspec⟩ := h
  refine ⟨r, ?_, hspec⟩
  cases hwrite : a.isWrite with
  | true =>
    rw [hwrite] at hmem
    exact hw hmem
  | false =>
    rw [hwrite] at hmem
    exact hr hmem

theorem collected_own {b i : Expr} {reads writes : List Expr} {use : Use} {a : Access}
    (ha : a ∈ accessesOf (Expr.arrRef b i).arrayBase (Expr.arrRef b i).subscripts use)
    (hr : use = .read ∨ use = .update → .arrRef b i ∈ reads)
    (hw : use = .write ∨ use = .update → .arrRef b i ∈ writes) : Collected reads writes a := by
  unfold accessesOf at ha
  split at ha
  next => simp at ha
  next v hv =>
    cases use with
    | read =>
      cases List.mem_singleton.mp ha
      exact ⟨_, hr (Or.inl rfl), rfl, hv, rfl⟩
    | write =>
      cases List.mem_singleton.mp ha
      exact ⟨_, hw (Or.inl rfl), rfl, hv, rfl⟩
    | update =>
      rcases List.mem_pair.mp ha with rfl | rfl
      · exact ⟨_, hr (Or.inr rfl), rfl, hv, rfl⟩
      · exact ⟨_, hw (Or.inr rfl), rfl, hv, rfl⟩
    | address => simp at ha

/-- The accesses of an expression are reported, except for the one its own value or target
is. -/
structure Reported (outer : Var → Bool) (e : Expr) : Prop where
  below : ∀ use mode, e.visible outer false = true → mode ≠ .base → ∀ a ∈ e.accesses use,
    outer a.base = true →
      (e.isPntrArrRef = true ∧ a ∈ accessesOf e.arrayBase e.subscripts use) ∨
        Collected (e.readRefs mode) (e.writeRefs mode) a
  base : ∀ use, e.visible outer true = true → (e.isPntrArrRef = true → use = .address) →
    ∀ a ∈ e.accesses use, outer a.base = true → Collected (e.readRefs .base) (e.writeRefs .base) a

theorem isPntrArrRef_iff {e : Expr} : e.isPntrArrRef = true ↔ ∃ b i, e = .arrRef b i := by
  cases e <;> simp [Expr.isPntrArrRef]

theorem readRefs_value_self {b i : Expr} : .arrRef b i ∈ (Expr.arrRef b i).readRefs .value := by
  simp [Expr.readRefs]

namespace Reported

variable {outer : Var → Bool} {e : Expr} {a : Access}

theorem value (h : Reported outer e) (hv : e.visible outer false = true)
    (ha : a ∈ e.accesses .read) (ho : outer a.base = true) :
    Collected (e.readRefs .value) (e.writeRefs .value) a := by
  rcases h.below .read .value hv (by decide) a ha ho with ⟨hp, hown⟩ | hc
  · obtain ⟨b, i, rfl⟩ := isPntrArrRef_iff.mp hp
    exact collected_own hown (fun _ => readRefs_value_self) (by simp)
  · exact hc

theorem address (h : Reported outer e) (hv : e.visible outer false = true)
    (ha : a ∈ e.accesses .address) (ho : outer a.base = true) :
    Collected (e.readRefs .value) (e.writeRefs .value) a := by
  rcases h.below .address .value hv (by decide) a ha ho with ⟨hp, hown⟩ | hc
  · obtain ⟨b, i, rfl⟩ := isPntrArrRef_iff.mp hp
    exact collected_own hown (by simp) (by simp)
  · exact hc

theorem update (h : Reported outer e) (hv : e.visible outer false = true)
    (ha : a ∈ e.accesses .update) (ho : outer a.base = true) :
    Collected (e.readRefs .value) (e.writeRefs .value ++ [e]) a := by
  rcases h.below .update .value hv (by decide) a ha ho with ⟨hp, hown⟩ | hc
  · obtain ⟨b, i, rfl⟩ := isPntrArrRef_iff.mp hp
    exact collected_own hown (fun _ => readRefs_value_self) (by simp)
  · exact hc.mono (List.Subset.refl _) (List.subset_append_left _ _)

theorem target (h : Reported outer e) (hv : e.visible outer false = true)
    (ha : a ∈ e.accesses .write) (ho : outer a.base = true) :
    Collected (e.readRefs .target) (e.writeRefs .target ++ [e]) a := by
  rcases h.below .write .target hv (by decide) a ha ho with ⟨hp, hown⟩ | hc
  · obtain ⟨b, i, rfl⟩ := isPntrArrRef_iff.mp hp
    exact collected_own hown (by simp) (by simp)
  · exact hc.mono (List.Subset.refl _) (List.subset_append_left _ _)

/-- Expressions that are no array reference, member or base are reported through their parts. -/
theorem of_value (hbase : e.visible outer true = !e.touches outer)
    (hr : ∀ mode, mode ≠ .base → e.readRefs mode = e.readRefs .value)
    (hw : ∀ mode, mode ≠ .base → e.writeRefs mode = e.writeRefs .value)
    (hu : ∀ use, e.accesses use = e.accesses .read)
    (h : e.visible outer false = true → ∀ a ∈ e.accesses .read, outer a.base = true →
      Collected (e.readRefs .value) (e.writeRefs .value) a) : Reported outer e := by
  refine ⟨fun use mode hv hm a ha ho => Or.inr ?_, fun use hv _ a ha ho => ?_⟩
  · rw [hr mode hm, hw mode hm]
    exact h hv a (hu use ▸ ha) ho
  · have htouch : e.touches outer = false := by simpa [hbase] using hv
    simp [Expr.accesses_of_not_touches htouch ha] at ho

end Reported

theorem accessesOf_address (base : Option Var) (subs : List Expr) :
    accessesOf base subs .address = [] := by
  cases base <;> rfl

theorem accessesOf_base {base : Option Var} {subs : List Expr} {use : Use} {a : Access}
    (h : a ∈ accessesOf base subs use) : base = some a.base := by
  unfold accessesOf at h
  split at h
  next => simp at h
  next v =>
    cases use with
    | read | write => rw [List.mem_singleton.mp h]
    | update => rcases List.mem_pair.mp h with rfl | rfl <;> rfl
    | address => simp at h

theorem mode_cases {p : RefMode → Prop} (ht : p .target) (hv : p .value) :
    ∀ mode, mode ≠ .base → p mode := by
  intro mode hm
  cases mode with
  | value => exact hv
  | target => exact ht
  | base => exact absurd rfl hm

/-- By induction over the expression: the traversal reports every visible access. -/
theorem reported (outer : Var → Bool) (e : Expr) : Reported outer e := by
  induction e with
  | intVal | exprNil | varRef =>
    exact ⟨fun _ _ _ _ a ha => by simp [Expr.accesses] at ha,
      fun _ _ _ a ha => by simp [Expr.accesses] at ha⟩
  | arrRef b i ihb ihi =>
    have hparts : ∀ (use : Use) {mode a}, (Expr.arrRef b i).visible outer false = true →
        a ∈ b.accesses (if b.isPntrArrRef then .address else use) ∨ a ∈ i.accesses .read →
        outer a.base = true →
        Collected ((Expr.arrRef b i).readRefs mode) ((Expr.arrRef b i).writeRefs mode) a := by
      intro use mode a hv ha ho
      simp only [Expr.visible, Bool.and_eq_true] at hv
      have hread : ∀ x, x ∈ b.readRefs .base ∨ x ∈ i.readRefs .value →
          x ∈ (Expr.arrRef b i).readRefs mode := by
        intro x hx
        simp only [Expr.readRefs, List.mem_append]
        tauto
      have hwrite : ∀ x, x ∈ b.writeRefs .base ∨ x ∈ i.writeRefs .value →
          x ∈ (Expr.arrRef b i).writeRefs mode := by
        intro x hx
        simp only [Expr.writeRefs, List.mem_append]
        tauto
      rcases ha with ha | ha
      · have hc := ihb.base _ hv.1 (fun hp => by simp [hp]) a ha ho
        exact hc.mono (fun x hx => hread x (Or.inl hx)) fun x hx => hwrite x (Or.inl hx)
      · have hc := ihi.value hv.2 ha ho
        exact hc.mono (fun x hx => hread x (Or.inr hx)) fun x hx => hwrite x (Or.inr hx)
    refine ⟨fun use mode hv _ a ha ho => ?_, fun use hv hp a ha ho => ?_⟩
    · simp only [Expr.accesses, List.mem_append] at ha
      rcases ha with (ha | ha) | ha
      · exact Or.inl ⟨rfl, ha⟩
      · exact Or.inr (hparts use hv (Or.inl ha) ho)
      · exact Or.inr (hparts use hv (Or.inr ha) ho)
    · simp only [Expr.accesses, List.mem_append] at ha
      have hv' : (Expr.arrRef b i).visible outer false = true := by
        simpa [Expr.visible] using hv
      rcases ha with (ha | ha) | ha
      · rw [hp rfl, accessesOf_address] at ha
        simp at ha
      · exact hparts use hv' (Or.inl ha) ho
      · exact hparts use hv' (Or.inr ha) ho
  | member e f ih =>
    have hno : e.touches outer = false → ∀ {use a}, a ∈ (Expr.member e f).accesses use →
        outer a.base = true → False := by
      intro htouch use a ha ho
      have hfalse := Expr.accesses_of_not_touches (e := .member e f) htouch ha
      simp [hfalse] at ho
    exact ⟨fun _ _ hv _ a ha ho => (hno (by simpa [Expr.visible] using hv) ha ho).elim,
      fun _ hv _ a ha ho => (hno (by simpa [Expr.visible, Expr.touches] using hv) ha ho).elim⟩
  | addrOf e ih =>
    exact .of_value rfl (mode_cases rfl rfl) (mode_cases rfl rfl) (fun _ => rfl)
      fun hv _ ha ho => ih.address hv ha ho
  | deref e ih | cast _ e ih | unary _ e ih =>
    exact .of_value rfl (mode_cases rfl rfl) (mode_cases rfl rfl) (fun _ => rfl)
      fun hv _ ha ho => ih.value hv ha ho
  | call f e ih =>
    exact .of_value rfl (mode_cases rfl rfl) (mode_cases rfl rfl) (fun _ => rfl)
      fun hv _ ha ho => (ih.value hv ha ho).mono (List.Subset.refl _) (List.subset_append_left _ _)
  | plusPlus e ih | minusMinus e ih =>
    exact .of_value rfl (mode_cases rfl rfl) (mode_cases rfl rfl) (fun _ => rfl)
      fun hv _ ha ho => ih.update hv ha ho
  | binary _ a b iha ihb | exprCons a b iha ihb =>
    refine .of_value rfl (mode_cases rfl rfl) (mode_cases rfl rfl) (fun _ => rfl) ?_
    intro hv x hx ho
    simp only [Expr.visible, Bool.and_eq_true] at hv
    simp only [Expr.accesses, List.mem_append] at hx
    rcases hx with hx | hx
    · exact (iha.value hv.1 hx ho).mono (List.subset_append_left _ _) (List.subset_append_left _ _)
    · exact (ihb.value hv.2 hx ho).mono (List.subset_append_right _ _)
        (List.subset_append_right _ _)
  | cond a b c iha ihb ihc =>
    refine .of_value rfl (mode_cases rfl rfl) (mode_cases rfl rfl) (fun _ => rfl) ?_
    intro hv x hx ho
    simp only [Expr.visible, Bool.and_eq_true] at hv
    simp only [Expr.accesses, List.mem_append] at hx
    rcases hx with (hx | hx) | hx
    · exact (iha.value hv.1.1 hx ho).mono (fun y hy => by simp [Expr.readRefs, hy])
        fun y hy => by simp [Expr.writeRefs, hy]
    · exact (ihb.value hv.1.2 hx ho).mono (fun y hy => by simp [Expr.readRefs, hy])
        fun y hy => by simp [Expr.writeRefs, hy]
    · exact (ihc.value hv.2 hx ho).mono (fun y hy => by simp [Expr.readRefs, hy])
        fun y hy => by simp [Expr.writeRefs, hy]
  | assign l r ihl ihr =>
    refine .of_value rfl (mode_cases rfl rfl) (mode_cases rfl rfl) (fun _ => rfl) ?_
    intro hv x hx ho
    simp only [Expr.visible, Bool.and_eq_true] at hv
    simp only [Expr.accesses, List.mem_append] at hx
    rcases hx with hx | hx
    · refine (ihl.target hv.1 hx ho).mono (List.subset_append_left _ _) fun y hy => ?_
      simp only [Expr.writeRefs, List.mem_append] at hy ⊢
      tauto
    · refine (ihr.value hv.2 hx ho).mono (List.subset_append_right _ _) fun y hy => ?_
      simp [Expr.writeRefs, hy]
  | compound op l r ihl ihr =>
    refine .of_value rfl (mode_cases rfl rfl) (mode_cases rfl rfl) (fun _ => rfl) ?_
    intro hv x hx ho
    simp only [Expr.visible, Bool.and_eq_true] at hv
    simp only [Expr.accesses, List.mem_append] at hx
    rcases hx with hx | hx
    · rcases ihl.below .update .value hv.1.2 (by decide) x hx ho with ⟨hp, hown⟩ | hc
      · have hshift : Expr.isShift op = false := by
          simpa [hp, accessesOf_base hown, ho] using hv.1.1
        obtain ⟨b, i, rfl⟩ := isPntrArrRef_iff.mp hp
        refine collected_own hown (fun _ => ?_) fun _ => ?_
        · exact List.mem_append_left _ readRefs_value_self
        · simp [Expr.writeRefs, hshift]
      · exact hc.mono (List.subset_append_left _ _) fun y hy => by simp [Expr.writeRefs, hy]
    · refine (ihr.value hv.2 hx ho).mono (List.subset_append_right _ _) fun y hy => ?_
      simp [Expr.writeRefs, hy]

def Stmt.visible (outer : Var → Bool) : Stmt → Bool
  | empty | breakStmt | continueStmt | decl _ none | returnStmt none => true
  | expr e | decl _ (some e) | returnStmt (some e) => e.visible outer false
  | seq s t => s.visible outer && t.visible outer
  | ite c s t => c.visible outer false && s.visible outer && t.visible outer
  | whileLoop c s => c.visible outer false && s.visible outer
  | forLoop i c u s =>
    i.visible outer && c.visible outer false && u.visible outer false && s.visible outer

theorem stmt_collected {outer : Var → Bool} {s : Stmt} (hv : s.visible outer = true) {a : Access}
    (ha : a ∈ s.accesses) (ho : outer a.base = true) :
    Collected s.readRefs s.writeRefs a := by
  have hexpr : ∀ {e : Expr}, e.visible outer false = true → a ∈ e.accesses .read →
      Collected (e.readRefs .value) (e.writeRefs .value) a :=
    fun hv ha => (reported outer _).value hv ha ho
  induction s with
  | empty | breakStmt | continueStmt => simp [Stmt.accesses] at ha
  | expr e => exact hexpr hv ha
  | decl v init =>
    cases init with
    | none => simp [Stmt.accesses] at ha
    | some e => exact hexpr hv ha
  | returnStmt e =>
    cases e with
    | none => simp [Stmt.accesses] at ha
    | some e => exact hexpr hv ha
  | seq s t ihs iht =>
    simp only [Stmt.visible, Bool.and_eq_true] at hv
    simp only [Stmt.accesses, List.mem_append] at ha
    rcases ha with ha | ha
    · exact (ihs hv.1 ha).mono (List.subset_append_left _ _) (List.subset_append_left _ _)
    · exact (iht hv.2 ha).mono (List.subset_append_right _ _) (List.subset_append_right _ _)
  | ite c s t ihs iht =>
    simp only [Stmt.visible, Bool.and_eq_true] at hv
    simp only [Stmt.accesses, List.mem_append] at ha
    rcases ha with (ha | ha) | ha
    · exact (hexpr hv.1.1 ha).mono (fun x hx => by simp [Stmt.readRefs, hx])
        fun x hx => by simp [Stmt.writeRefs, hx]
    · exact (ihs hv.1.2 ha).mono (fun x hx => by simp [Stmt.readRefs, hx])
        fun x hx => by simp [Stmt.writeRefs, hx]
    · exact (iht hv.2 ha).mono (fun x hx => by simp [Stmt.readRefs, hx])
        fun x hx => by simp [Stmt.writeRefs, hx]
  | whileLoop c s ih =>
    simp only [Stmt.visible, Bool.and_eq_true] at hv
    simp only [Stmt.accesses, List.mem_append] at ha
    rcases ha with ha | ha
    · exact (hexpr hv.1 ha).mono (List.subset_append_left _ _) (List.subset_append_left _ _)
    · exact (ih hv.2 ha).mono (List.subset_append_right _ _) (List.subset_append_right _ _)
  | forLoop i c u s ihi ihs =>
    simp only [Stmt.visible, Bool.and_eq_true] at hv
    simp only [Stmt.accesses, List.mem_append] at ha
    rcases ha with ((ha | ha) | ha) | ha
    · exact (ihi hv.1.1.1 ha).mono (fun x hx => by simp [Stmt.readRefs, hx])
        fun x hx => by simp [Stmt.writeRefs, hx]
    · exact (hexpr hv.1.1.2 ha).mono (fun x hx => by simp [Stmt.readRefs, hx])
        fun x hx => by simp [Stmt.writeRefs, hx]
    · exact (hexpr hv.1.2 ha).mono (fun x hx => by simp [Stmt.readRefs, hx])
        fun x hx => by simp [Stmt.writeRefs, hx]
    · exact (ihs hv.2 ha).mono (fun x hx => by simp [Stmt.readRefs, hx])
        fun x hx => by simp [Stmt.writeRefs, hx]

/-- A visible access of the body is among the references the analysis compares. -/
theorem mem_collectArrayReferences {outer : Var → Bool} {loop : ForStatement}
    (hv : loop.body.visible outer = true) {a : Access} (ha : a ∈ loop.body.accesses)
    (ho : outer a.base = true) :
    ⟨some a.base, a.subscripts, a.isWrite⟩ ∈ collectArrayReferences loop := by
  obtain ⟨r, hr, hp, hbase, hsubs⟩ := stmt_collected hv ha ho
  have href : arrayReference a.isWrite r = some ⟨some a.base, a.subscripts, a.isWrite⟩ := by
    rw [arrayReference, if_pos hp, hbase, hsubs]
  unfold collectArrayReferences
  cases hw : a.isWrite with
  | true =>
    rw [hw] at hr href
    exact List.mem_append_right _ (List.mem_filterMap.mpr ⟨r, hr, href⟩)
  | false =>
    rw [hw] at hr href
    exact List.mem_append_left _ (List.mem_filterMap.mpr ⟨r, hr, href⟩)

end LoomX
