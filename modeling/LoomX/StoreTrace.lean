import LoomX.Semantics

namespace LoomX

def State.mapVar (s : State) (x : Var) (g : Int → Int) : State := s.setVar x (g (s.vars x))

namespace State

variable {x : Var} {g : Int → Int}

@[simp] theorem mapVar_mem (s : State) : (s.mapVar x g).mem = s.mem := rfl

@[simp] theorem mapVar_self (s : State) : (s.mapVar x g).vars x = g (s.vars x) :=
  s.setVar_self x _

theorem mapVar_of_ne {v : Var} (h : v ≠ x) (s : State) : (s.mapVar x g).vars v = s.vars v :=
  setVar_of_ne h s _

theorem mapVar_setVar {v : Var} (h : v ≠ x) (s : State) (n : Int) :
    (s.mapVar x g).setVar v n = (s.setVar v n).mapVar x g := by
  simp only [mapVar]
  rw [setVar_comm h, setVar_of_ne (Ne.symm h)]

theorem read_mapVar {P : Platform} {l : Loc} (h : l ≠ .var x) (s : State) :
    (s.mapVar x g).read P l = s.read P l := by
  cases l with
  | var v =>
    have hv : v ≠ x := fun hv => h (by rw [hv])
    simp [State.read, mapVar_of_ne hv]
  | cell a => rfl

theorem write_mapVar {l : Loc} (h : l ≠ .var x) (s : State) (target : Expr) (n : Int) :
    (s.mapVar x g).write target l n = (s.write target l n).mapVar x g := by
  cases l with
  | var v => exact mapVar_setVar (fun hv => h (by rw [hv])) s n
  | cell a => rfl

end State

/-- Called functions neither read nor write `x`. -/
def Framed (P : Platform) (x : Var) : Prop :=
  ∀ f args s n, P.call f args (s.setVar x n) =
    ((P.call f args s).1, (P.call f args s).2.setVar x n)

theorem Framed.keeps {P : Platform} {x : Var} (h : Framed P x) (f : Option String)
    (args : List Int) (s : State) : (P.call f args s).2.vars x = s.vars x := by
  have hself := h f args s (s.vars x)
  rw [State.setVar_vars_self] at hself
  have hvar := congrArg (fun r => r.2.vars x) hself
  simpa using hvar

theorem Framed.mapVar {P : Platform} {x : Var} (h : Framed P x) (g : Int → Int)
    (f : Option String) (args : List Int) (s : State) :
    P.call f args (s.mapVar x g) = ((P.call f args s).1, (P.call f args s).2.mapVar x g) := by
  rw [State.mapVar, h, State.mapVar, h.keeps]

/-- The expression and the rest of the program do not see what `g` does to `x`. -/
structure Blind (P : Platform) (x : Var) (g : Int → Int) (e : Expr) : Prop where
  eval : ∀ s, e.eval P (s.mapVar x g) = ((e.eval P s).1, (e.eval P s).2.mapVar x g)
  locate : ∀ s, e.locate P (s.mapVar x g) = ((e.locate P s).1, (e.locate P s).2.mapVar x g)
  locate_ne : ∀ s, (e.locate P s).1 ≠ .var x
  args : ∀ s, e.evalArgs P (s.mapVar x g) = ((e.evalArgs P s).1, (e.evalArgs P s).2.mapVar x g)

theorem blind_of_not_mem {P : Platform} {x : Var} (hP : Framed P x) (g : Int → Int) {e : Expr}
    (h : x ∉ e.varRefs) : Blind P x g e := by
  induction e with
  | intVal | exprNil =>
    exact ⟨fun s => rfl, fun s => rfl, fun s => by simp [Expr.locate], fun s => rfl⟩
  | varRef v =>
    have hv : v ≠ x := fun hv => h (by simp [Expr.varRefs, hv])
    have hl : Loc.var v ≠ .var x := fun hl => hv (Loc.var.inj hl)
    refine ⟨fun s => ?_, fun s => rfl, fun s => ?_, fun s => rfl⟩
    · simp only [Expr.eval, State.read_mapVar hl]
    · simp only [Expr.locate]
      split <;> simp [hv]
  | arrRef b i ihb ihi =>
    have hb := ihb fun hm => h (by simp [Expr.varRefs, hm])
    have hi := ihi fun hm => h (by simp [Expr.varRefs, hm])
    refine ⟨fun s => ?_, fun s => ?_, fun s => by simp [Expr.locate], fun s => rfl⟩
    · simp only [Expr.eval, hb.eval, hi.eval, State.mapVar_mem]
    · simp only [Expr.locate, hb.eval, hi.eval]
  | deref e ih =>
    have he := ih h
    refine ⟨fun s => ?_, fun s => ?_, fun s => by simp [Expr.locate], fun s => rfl⟩
    · simp only [Expr.eval, he.eval, State.mapVar_mem]
    · simp only [Expr.locate, he.eval]
  | member e f ih =>
    have he := ih h
    refine ⟨fun s => ?_, fun s => ?_, fun s => by simp [Expr.locate], fun s => rfl⟩
    · simp only [Expr.eval, he.locate, State.mapVar_mem]
    · simp only [Expr.locate, he.locate]
  | addrOf e ih =>
    have he := ih h
    refine ⟨fun s => ?_, fun s => rfl, fun s => by simp [Expr.locate], fun s => rfl⟩
    simp only [Expr.eval, he.locate]
  | cast t e ih =>
    have he := ih h
    refine ⟨fun s => ?_, fun s => ?_, fun s => ?_, fun s => rfl⟩
    · simp only [Expr.eval, he.eval]
    · simp only [Expr.locate, he.locate]
    · simpa only [Expr.locate] using he.locate_ne s
  | unary op e ih =>
    have he := ih h
    refine ⟨fun s => ?_, fun s => rfl, fun s => by simp [Expr.locate], fun s => rfl⟩
    simp only [Expr.eval, he.eval]
  | binary op a b iha ihb =>
    have ha := iha fun hm => h (by simp [Expr.varRefs, hm])
    have hb := ihb fun hm => h (by simp [Expr.varRefs, hm])
    refine ⟨fun s => ?_, fun s => rfl, fun s => by simp [Expr.locate], fun s => rfl⟩
    simp only [Expr.eval, ha.eval]
    split <;> simp only [hb.eval]
  | cond c a b ihc iha ihb =>
    have hc := ihc fun hm => h (by simp [Expr.varRefs, hm])
    have ha := iha fun hm => h (by simp [Expr.varRefs, hm])
    have hb := ihb fun hm => h (by simp [Expr.varRefs, hm])
    refine ⟨fun s => ?_, fun s => rfl, fun s => by simp [Expr.locate], fun s => rfl⟩
    simp only [Expr.eval, hc.eval]
    split <;> simp only [ha.eval, hb.eval]
  | assign l r ihl ihr =>
    have hl := ihl fun hm => h (by simp [Expr.varRefs, hm])
    have hr := ihr fun hm => h (by simp [Expr.varRefs, hm])
    refine ⟨fun s => ?_, fun s => rfl, fun s => by simp [Expr.locate], fun s => rfl⟩
    simp only [Expr.eval, hl.locate, hr.eval, State.write_mapVar (hl.locate_ne s)]
  | compound op l r ihl ihr =>
    have hl := ihl fun hm => h (by simp [Expr.varRefs, hm])
    have hr := ihr fun hm => h (by simp [Expr.varRefs, hm])
    refine ⟨fun s => ?_, fun s => rfl, fun s => by simp [Expr.locate], fun s => rfl⟩
    simp only [Expr.eval, hl.locate, hr.eval, State.write_mapVar (hl.locate_ne s),
      State.read_mapVar (hl.locate_ne s)]
  | plusPlus e ih | minusMinus e ih =>
    have he := ih h
    refine ⟨fun s => ?_, fun s => rfl, fun s => by simp [Expr.locate], fun s => rfl⟩
    simp only [Expr.eval, he.locate, State.write_mapVar (he.locate_ne s),
      State.read_mapVar (he.locate_ne s)]
  | call f e ih =>
    have he := ih h
    refine ⟨fun s => ?_, fun s => rfl, fun s => by simp [Expr.locate], fun s => rfl⟩
    simp only [Expr.eval, he.args, hP.mapVar]
    rfl
  | exprCons a b iha ihb =>
    have ha := iha fun hm => h (by simp [Expr.varRefs, hm])
    have hb := ihb fun hm => h (by simp [Expr.varRefs, hm])
    refine ⟨fun s => rfl, fun s => rfl, fun s => by simp [Expr.locate], fun s => ?_⟩
    simp only [Expr.evalArgs, ha.eval, hb.args]

/-- A transformer of states commutes with what `g` does to `x`. -/
def Commutes (x : Var) (g : Int → Int) (run : State → Option (Outcome × State)) : Prop :=
  ∀ s, run (s.mapVar x g) = (run s).map fun r => (r.1, r.2.mapVar x g)

theorem commutes_runLoop {x : Var} {g : Int → Int} {test : State → Int × State}
    {body : State → Option (Outcome × State)} {step : State → State}
    (htest : ∀ s, test (s.mapVar x g) = ((test s).1, (test s).2.mapVar x g))
    (hbody : Commutes x g body) (hstep : ∀ s, step (s.mapVar x g) = (step s).mapVar x g)
    (fuel : Nat) : Commutes x g (runLoop test body step fuel) := by
  induction fuel with
  | zero => exact fun s => rfl
  | succ fuel ih =>
    intro s
    simp only [runLoop, htest, hbody (test s).2]
    split
    next =>
      cases hrun : body (test s).2 with
      | none => rfl
      | some r =>
        obtain ⟨outcome, t⟩ := r
        cases outcome with
        | broken | returned => rfl
        | normal | continued =>
          simp only [Option.map_some]
          rw [hstep, ih]
    next => rfl

/-- From `s` to `t` the variables of `W` keep their values, and every cell stored meanwhile is
named by one of the l-values, located in a state in which they have these values. -/
structure Traced (P : Platform) (W : Var → Prop) (stores : List Expr) (s t : State) : Prop where
  keeps : ∀ w, W w → t.vars w = s.vars w
  logged : ∀ e a, (e, a) ∈ t.log → (e, a) ∈ s.log ∨
    e ∈ stores ∧ ∃ u : State, (∀ w, W w → u.vars w = s.vars w) ∧ (e.locate P u).1 = .cell a

namespace Traced

variable {P : Platform} {W : Var → Prop} {stores stores' : List Expr} {s t u : State}

theorem refl (s : State) : Traced P W stores s s :=
  ⟨fun _ _ => rfl, fun _ _ h => Or.inl h⟩

theorem mono (h : Traced P W stores s t) (hsub : stores ⊆ stores') : Traced P W stores' s t := by
  refine ⟨h.keeps, fun e a he => ?_⟩
  rcases h.logged e a he with he | ⟨hmem, hlocate⟩
  · exact Or.inl he
  · exact Or.inr ⟨hsub hmem, hlocate⟩

theorem trans (h : Traced P W stores s t) (h' : Traced P W stores t u) : Traced P W stores s u := by
  refine ⟨fun w hw => (h'.keeps w hw).trans (h.keeps w hw), fun e a he => ?_⟩
  rcases h'.logged e a he with he | ⟨hmem, r, hr, hlocate⟩
  · exact h.logged e a he
  · exact Or.inr ⟨hmem, r, fun w hw => (hr w hw).trans (h.keeps w hw), hlocate⟩

/-- Two parts one after the other. -/
theorem append {stores₁ stores₂ : List Expr} (h : Traced P W stores₁ s t)
    (h' : Traced P W stores₂ t u) : Traced P W (stores₁ ++ stores₂) s u :=
  (h.mono (List.subset_append_left _ _)).trans (h'.mono (List.subset_append_right _ _))

theorem setVar {v : Var} (hv : ¬W v) (n : Int) : Traced P W stores s (s.setVar v n) := by
  refine ⟨fun w hw => State.setVar_of_ne ?_ s n, fun e a he => Or.inl he⟩
  intro heq
  exact hv (heq ▸ hw)

/-- A store to the location of `l` that was found in `r`. -/
theorem write {l : Expr} {r : State} {n : Int} (hmem : l ∈ stores)
    (hr : ∀ w, W w → r.vars w = s.vars w) (hvar : ∀ w, W w → (l.locate P r).1 ≠ .var w) :
    Traced P W stores s (s.write l (l.locate P r).1 n) := by
  cases hloc : (l.locate P r).1 with
  | var v => exact setVar (fun hw => hvar v hw hloc) n
  | cell a =>
    refine ⟨fun w hw => rfl, fun e b he => ?_⟩
    rcases List.mem_cons.mp he with heq | he
    · obtain ⟨rfl, rfl⟩ := Prod.mk.inj heq
      exact Or.inr ⟨hmem, r, hr, hloc⟩
    · exact Or.inl he

end Traced

/-- No l-value among the stores is a variable of `W`, and called functions leave these alone. -/
structure Steady (P : Platform) (W : Var → Prop) (stores : List Expr) : Prop where
  framed : ∀ w, W w → Framed P w
  notStored : ∀ w, W w → ∀ l ∈ stores, l.skipCasts ≠ .varRef w

theorem Steady.mono {P : Platform} {W : Var → Prop} {stores stores' : List Expr}
    (h : Steady P W stores') (hsub : stores ⊆ stores') : Steady P W stores :=
  ⟨h.framed, fun w hw l hl => h.notStored w hw l (hsub hl)⟩

theorem locate_ne_var {P : Platform} {l : Expr} {w : Var} (h : l.skipCasts ≠ .varRef w)
    (s : State) : (l.locate P s).1 ≠ .var w := by
  induction l generalizing s with
  | varRef v =>
    simp only [Expr.skipCasts, ne_eq, Expr.varRef.injEq] at h
    simp only [Expr.locate]
    split <;> simp [h]
  | cast t e ih =>
    simp only [Expr.locate]
    exact ih (by simpa [Expr.skipCasts] using h) s
  | _ => simp [Expr.locate]

/-- Evaluating, locating and passing an expression is traced by its stores. -/
structure TracedExpr (P : Platform) (W : Var → Prop) (e : Expr) : Prop where
  eval : ∀ s, Traced P W e.stores s (e.eval P s).2
  locate : ∀ s, Traced P W e.stores s (e.locate P s).2
  args : ∀ s, Traced P W e.stores s (e.evalArgs P s).2

theorem tracedExpr {P : Platform} {W : Var → Prop} {e : Expr} (h : Steady P W e.stores) :
    TracedExpr P W e := by
  induction e with
  | intVal | exprNil | varRef => exact ⟨fun s => .refl s, fun s => .refl s, fun s => .refl s⟩
  | arrRef b i ihb ihi =>
    have hb := ihb (h.mono (List.subset_append_left _ _))
    have hi := ihi (h.mono (List.subset_append_right _ _))
    refine ⟨fun s => ?_, fun s => ?_, fun s => .refl s⟩
    · exact (hb.eval s).append (hi.eval _)
    · exact (hb.eval s).append (hi.eval _)
  | deref e ih =>
    have he := ih h
    exact ⟨fun s => he.eval s, fun s => he.eval s, fun s => .refl s⟩
  | member e f ih =>
    have he := ih h
    exact ⟨fun s => he.locate s, fun s => he.locate s, fun s => .refl s⟩
  | addrOf e ih =>
    have he := ih h
    exact ⟨fun s => he.locate s, fun s => .refl s, fun s => .refl s⟩
  | cast t e ih =>
    have he := ih h
    exact ⟨fun s => he.eval s, fun s => he.locate s, fun s => .refl s⟩
  | unary op e ih =>
    have he := ih h
    exact ⟨fun s => he.eval s, fun s => .refl s, fun s => .refl s⟩
  | binary op a b iha ihb =>
    have ha := iha (h.mono (List.subset_append_left _ _))
    have hb := ihb (h.mono (List.subset_append_right _ _))
    refine ⟨fun s => ?_, fun s => .refl s, fun s => .refl s⟩
    simp only [Expr.eval]
    split
    next => exact (ha.eval s).append (hb.eval _)
    next => exact (ha.eval s).append (.refl _)
  | cond c a b ihc iha ihb =>
    have hc := ihc (h.mono (by simp [Expr.stores]))
    have ha := iha (h.mono (by simp [Expr.stores]))
    have hb := ihb (h.mono (by simp [Expr.stores]))
    refine ⟨fun s => ?_, fun s => .refl s, fun s => .refl s⟩
    simp only [Expr.eval]
    split
    next => exact ((hc.eval s).append (ha.eval _)).mono (by simp [Expr.stores])
    next => exact ((hc.eval s).append (hb.eval _)).mono (by simp [Expr.stores])
  | assign l r ihl ihr =>
    have hl := ihl (h.mono (by simp [Expr.stores]))
    have hr := ihr (h.mono (by simp [Expr.stores]))
    refine ⟨fun s => ?_, fun s => .refl s, fun s => .refl s⟩
    have hbefore : Traced P W (Expr.assign l r).stores s (r.eval P (l.locate P s).2).2 :=
      ((hl.locate s).append (hr.eval _)).mono (by simp [Expr.stores])
    refine hbefore.trans (.write (by simp [Expr.stores]) (fun w hw => (hbefore.keeps w hw).symm) ?_)
    exact fun w hw => locate_ne_var (h.notStored w hw l (by simp [Expr.stores])) s
  | compound op l r ihl ihr =>
    have hl := ihl (h.mono (by simp [Expr.stores]))
    have hr := ihr (h.mono (by simp [Expr.stores]))
    refine ⟨fun s => ?_, fun s => .refl s, fun s => .refl s⟩
    have hbefore : Traced P W (Expr.compound op l r).stores s (r.eval P (l.locate P s).2).2 :=
      ((hl.locate s).append (hr.eval _)).mono (by simp [Expr.stores])
    refine hbefore.trans (.write (by simp [Expr.stores]) (fun w hw => (hbefore.keeps w hw).symm) ?_)
    exact fun w hw => locate_ne_var (h.notStored w hw l (by simp [Expr.stores])) s
  | plusPlus e ih | minusMinus e ih =>
    have he := ih (h.mono (by simp [Expr.stores]))
    refine ⟨fun s => ?_, fun s => .refl s, fun s => .refl s⟩
    have hbefore := (he.locate s).mono (List.subset_cons_self e e.stores)
    refine hbefore.trans (.write (by simp) (fun w hw => (hbefore.keeps w hw).symm) ?_)
    exact fun w hw => locate_ne_var (h.notStored w hw e (by simp [Expr.stores])) s
  | call f e ih =>
    have he := ih h
    refine ⟨fun s => (he.args s).trans ⟨fun w hw => ?_, fun l a hla => Or.inl hla⟩,
      fun s => .refl s, fun s => .refl s⟩
    exact (h.framed w hw).keeps _ _ _
  | exprCons a b iha ihb =>
    have ha := iha (h.mono (List.subset_append_left _ _))
    have hb := ihb (h.mono (List.subset_append_right _ _))
    exact ⟨fun s => .refl s, fun s => .refl s, fun s => (ha.eval s).append (hb.args _)⟩

theorem traced_runLoop {P : Platform} {W : Var → Prop} {stores : List Expr}
    {test : State → Int × State} {body : State → Option (Outcome × State)} {step : State → State}
    (htest : ∀ s, Traced P W stores s (test s).2)
    (hbody : ∀ s o t, body s = some (o, t) → Traced P W stores s t)
    (hstep : ∀ s, Traced P W stores s (step s)) (fuel : Nat) {s t : State} {o : Outcome}
    (h : runLoop test body step fuel s = some (o, t)) : Traced P W stores s t := by
  induction fuel generalizing s with
  | zero => simp [runLoop] at h
  | succ fuel ih =>
    simp only [runLoop] at h
    split at h
    next =>
      split at h
      next => simp at h
      next u hu =>
        cases Option.some.inj h
        exact (htest s).trans (hbody _ _ _ hu)
      next u hu =>
        cases Option.some.inj h
        exact (htest s).trans (hbody _ _ _ hu)
      next u hu => exact ((htest s).trans (hbody _ _ _ hu)).trans ((hstep u).trans (ih h))
      next u hu => exact ((htest s).trans (hbody _ _ _ hu)).trans ((hstep u).trans (ih h))
    next =>
      cases Option.some.inj h
      exact htest s

theorem traced_exec {P : Platform} {W : Var → Prop} {b : Stmt} (h : Steady P W b.stores)
    (hdecl : ∀ w, W w → w ∉ b.declared) {fuel : Nat} {s t : State} {o : Outcome}
    (hrun : b.exec P fuel s = some (o, t)) : Traced P W b.stores s t := by
  induction b generalizing s t o with
  | empty | breakStmt | continueStmt =>
    cases Option.some.inj hrun
    exact .refl _
  | expr e =>
    cases Option.some.inj hrun
    exact (tracedExpr h).eval s
  | decl v init =>
    have hv : ¬W v := fun hw => hdecl v hw (by simp [Stmt.declared])
    cases init with
    | none =>
      cases Option.some.inj hrun
      exact .setVar hv 0
    | some e =>
      cases Option.some.inj hrun
      exact ((tracedExpr h).eval s).trans (.setVar hv _)
  | returnStmt e =>
    cases e with
    | none =>
      cases Option.some.inj hrun
      exact .refl _
    | some e =>
      cases Option.some.inj hrun
      exact (tracedExpr h).eval s
  | seq a b iha ihb =>
    have ha := fun {s t o} => @iha (h.mono (List.subset_append_left _ _))
      (fun w hw hm => hdecl w hw (by simp [Stmt.declared, hm])) s t o
    have hb := fun {s t o} => @ihb (h.mono (List.subset_append_right _ _))
      (fun w hw hm => hdecl w hw (by simp [Stmt.declared, hm])) s t o
    simp only [Stmt.exec] at hrun
    split at hrun
    next u hu => exact (ha hu).append (hb hrun)
    next => exact (ha hrun).mono (List.subset_append_left _ _)
  | ite c a b iha ihb =>
    have hc := tracedExpr (h.mono (by simp [Stmt.stores] : c.stores ⊆ _))
    have ha := fun {s t o} => @iha (h.mono (by simp [Stmt.stores]))
      (fun w hw hm => hdecl w hw (by simp [Stmt.declared, hm])) s t o
    have hb := fun {s t o} => @ihb (h.mono (by simp [Stmt.stores]))
      (fun w hw hm => hdecl w hw (by simp [Stmt.declared, hm])) s t o
    simp only [Stmt.exec] at hrun
    split at hrun
    next => exact ((hc.eval s).append (ha hrun)).mono (by simp [Stmt.stores])
    next => exact ((hc.eval s).append (hb hrun)).mono (by simp [Stmt.stores])
  | whileLoop c b ih =>
    have hc := tracedExpr (h.mono (List.subset_append_left c.stores b.stores))
    have hb := fun {s t o} => @ih (h.mono (List.subset_append_right _ _))
      (fun w hw hm => hdecl w hw (by simp [Stmt.declared, hm])) s t o
    exact traced_runLoop (fun s => (hc.eval s).mono (List.subset_append_left _ _))
      (fun s o t hst => (hb hst).mono (List.subset_append_right _ _)) (fun s => .refl s) fuel hrun
  | forLoop i c u b ihi ihb =>
    have hsi : i.stores ⊆ (Stmt.forLoop i c u b).stores := fun e he => by simp [Stmt.stores, he]
    have hsc : c.stores ⊆ (Stmt.forLoop i c u b).stores := fun e he => by simp [Stmt.stores, he]
    have hsu : u.stores ⊆ (Stmt.forLoop i c u b).stores := fun e he => by simp [Stmt.stores, he]
    have hsb : b.stores ⊆ (Stmt.forLoop i c u b).stores := fun e he => by simp [Stmt.stores, he]
    have hi := fun {s t o} => @ihi (h.mono hsi)
      (fun w hw hm => hdecl w hw (by simp [Stmt.declared, hm])) s t o
    have hb := fun {s t o} => @ihb (h.mono hsb)
      (fun w hw hm => hdecl w hw (by simp [Stmt.declared, hm])) s t o
    simp only [Stmt.exec] at hrun
    split at hrun
    next r hr =>
      refine ((hi hr).mono hsi).trans (traced_runLoop
        (fun s => ((tracedExpr (h.mono hsc)).eval s).mono hsc)
        (fun s o t hst => (hb hst).mono hsb)
        (fun s => ((tracedExpr (h.mono hsu)).eval s).mono hsu) fuel hrun)
    next => exact (hi hrun).mono hsi

end LoomX
