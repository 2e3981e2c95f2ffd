import LoomX.PureFunctionInliner

namespace LoomX

theorem Stmt.exec_block (P : Platform) (fuel : Nat) (b : Stmt) (s : State) :
    b.block.exec P fuel s = b.exec P fuel s := by
  simp [Stmt.block, Stmt.exec, Expr.eval]

/-- The same memory and the same variables apart from the hidden ones. -/
structure Agree (hidden : List Var) (s t : State) : Prop where
  mem : s.mem = t.mem
  vars : ∀ v, v ∉ hidden → s.vars v = t.vars v

namespace Agree

variable {hidden : List Var} {s t : State}

theorem setVar (h : Agree hidden s t) (v : Var) (n : Int) :
    Agree hidden (s.setVar v n) (t.setVar v n) := by
  refine ⟨h.mem, fun w hw => ?_⟩
  by_cases hwv : w = v
  · rw [hwv, State.setVar_self, State.setVar_self]
  · rw [State.setVar_of_ne hwv, State.setVar_of_ne hwv, h.vars w hw]

theorem setVar_hidden {v : Var} (hv : v ∈ hidden) (h : Agree hidden s t) (n : Int) :
    Agree hidden (s.setVar v n) t := by
  refine ⟨h.mem, fun w hw => ?_⟩
  have hne : w ≠ v := fun hwv => hw (by rw [hwv]; exact hv)
  rw [State.setVar_of_ne hne, h.vars w hw]

theorem setCell (h : Agree hidden s t) (target target' : Expr) (a n : Int) :
    Agree hidden (s.setCell target a n) (t.setCell target' a n) := by
  refine ⟨?_, h.vars⟩
  simp only [State.setCell, h.mem]

theorem withLog (h : Agree hidden s t) (log log' : List (Expr × Int)) :
    Agree hidden (s.withLog log) (t.withLog log') := ⟨h.mem, h.vars⟩

theorem write (h : Agree hidden s t) (target target' : Expr) (l : Loc) (n : Int) :
    Agree hidden (s.write target l n) (t.write target' l n) := by
  cases l with
  | var v => exact h.setVar v n
  | cell a => exact h.setCell target target' a n

end Agree

/-- The locations that a hidden variable does not occupy. -/
def Loc.Visible (hidden : List Var) : Loc → Prop
  | .var v => v ∉ hidden
  | .cell _ => True

theorem Agree.read {P : Platform} {hidden : List Var} {s t : State} (h : Agree hidden s t)
    {l : Loc} (hl : l.Visible hidden) : s.read P l = t.read P l := by
  cases l with
  | var v => simp only [State.read, h.vars v hl]
  | cell a => simp only [State.read, h.mem]

/-- Called functions neither see nor depend on the hidden variables. -/
def Platform.Hides (P : Platform) (hidden : List Var) : Prop :=
  ∀ f ns s t, Agree hidden s t → (P.call f ns s).1 = (P.call f ns t).1 ∧
    Agree hidden (P.call f ns s).2 (P.call f ns t).2

/-- Replacing references does not turn a prefix operator into a postfix one. -/
def Platform.KeepsFixity (P : Platform) (g : Var → Expr) : Prop :=
  ∀ e : Expr, P.isPrefixed (e.replaceRefs g) = P.isPrefixed e

/-- The state in which the call ends; `none` when the body does not end within `fuel` rounds of
some loop. -/
def Callee.callByValue (P : Platform) (fuel : Nat) (callee : Callee) (args : Expr) (s : State) :
    Option State :=
  (callee.body.exec P fuel (callee.entry P args s)).map Prod.snd

/-- The same memory and the same variables of the caller. -/
def Callee.SameForCaller (callee : Callee) (s t : State) : Prop :=
  Agree (callee.params ++ callee.body.declared) s t

/-- Run in `s`, the text put for the call ends as the statement with the call does. -/
def Callee.PreservedAt (P : Platform) (fuel : Nat) (callee : Callee) (args : Expr)
    (scope : List Var) (s : State) : Prop :=
  Option.Rel (fun r t => r.1 = .normal ∧ callee.SameForCaller r.2 t)
    (((inlineBlock callee args.exprList).resolve scope).exec P fuel s)
    (callee.callByValue P fuel args s)

theorem agree_entry (P : Platform) (callee : Callee) (args : Expr) (s : State) :
    Agree callee.params (callee.entry P args s) (args.evalArgs P s).2 := by
  have hfold : ∀ (l : List (Var × Int)) (t : State), (∀ p ∈ l, p.1 ∈ callee.params) →
      Agree callee.params t (args.evalArgs P s).2 →
      Agree callee.params (l.foldl (fun t p => t.setVar p.1 (p.1.type.convert p.2)) t)
        (args.evalArgs P s).2 := by
    intro l
    induction l with
    | nil => exact fun t _ ht => ht
    | cons p rest ih =>
      intro t hl ht
      exact ih _ (fun q hq => hl q (List.mem_cons_of_mem _ hq))
        (ht.setVar_hidden (hl p List.mem_cons_self) _)
  exact hfold _ _ (fun p hp => (List.of_mem_zip hp).1) ⟨rfl, fun _ _ => rfl⟩

namespace Expr

mutual

/-- In the run of the callee from `s`, every parameter that is read has the value which its
argument has at that point, and reading the argument changes nothing. -/
def Faithful (P : Platform) (σ : Var → Option Expr) : Expr → State → Prop
  | intVal _ _, _ | exprNil, _ | exprCons _ _, _ => True
  | varRef v, s => ∀ arg, σ v = some arg → arg.eval P s = (s.read P (.var v), s)
  | arrRef b i, s => b.Faithful P σ s ∧ i.Faithful P σ (b.eval P s).2
  | deref e, s | cast _ e, s | unary _ e, s => e.Faithful P σ s
  | member e _, s | addrOf e, s | plusPlus e, s | minusMinus e, s => e.LocatedFaithfully P σ s
  | binary op a b, s =>
    a.Faithful P σ s ∧ (op.goesOn (a.eval P s).1 = true → b.Faithful P σ (a.eval P s).2)
  | cond c a b, s => c.Faithful P σ s ∧
    if (c.eval P s).1 ≠ 0 then a.Faithful P σ (c.eval P s).2 else b.Faithful P σ (c.eval P s).2
  | assign l r, s | compound _ l r, s =>
    l.LocatedFaithfully P σ s ∧ r.Faithful P σ (l.locate P s).2
  | call _ args, s => args.ListFaithful P σ s

/-- No parameter itself is stored to or has its address taken. -/
def LocatedFaithfully (P : Platform) (σ : Var → Option Expr) : Expr → State → Prop
  | varRef v, _ => σ v = none
  | arrRef b i, s => b.Faithful P σ s ∧ i.Faithful P σ (b.eval P s).2
  | deref e, s => e.Faithful P σ s
  | member e _, s | cast _ e, s => e.LocatedFaithfully P σ s
  | _, _ => True

def ListFaithful (P : Platform) (σ : Var → Option Expr) : Expr → State → Prop
  | varRef v, _ => σ v = none
  | exprCons e es, s => e.Faithful P σ s ∧ es.ListFaithful P σ (e.eval P s).2
  | _, _ => True

end

/-- The reference and what is put for it give the same value and leave agreeing states; only
hidden variables are replaced. -/
structure ReplacedWell (P : Platform) (hidden : List Var) (σ : Var → Option Expr) (v : Var) :
    Prop where
  read : ∀ {s t}, Agree hidden s t → (varRef v).Faithful P σ s →
    s.read P (.var v) = (((σ v).getD (varRef v)).eval P t).1 ∧
      Agree hidden s (((σ v).getD (varRef v)).eval P t).2
  shown : σ v = none → v ∉ hidden

/-- From agreeing states, the expression and the one with the arguments do the same as long as
the parameters are read faithfully. -/
structure Simulated (P : Platform) (hidden : List Var) (σ : Var → Option Expr) (e e' : Expr) :
    Prop where
  eval : ∀ {s t}, Agree hidden s t → e.Faithful P σ s →
    (e.eval P s).1 = (e'.eval P t).1 ∧ Agree hidden (e.eval P s).2 (e'.eval P t).2
  locate : ∀ {s t}, Agree hidden s t → e.LocatedFaithfully P σ s →
    (e.locate P s).1 = (e'.locate P t).1 ∧ (e.locate P s).1.Visible hidden ∧
      Agree hidden (e.locate P s).2 (e'.locate P t).2
  list : ∀ {s t}, Agree hidden s t → e.ListFaithful P σ s →
    (e.evalArgs P s).1 = (e'.evalArgs P t).1 ∧ Agree hidden (e.evalArgs P s).2 (e'.evalArgs P t).2

section

variable {P : Platform} {hidden : List Var} {σ : Var → Option Expr}

theorem simulated_replaceRefs (hP : P.Hides hidden)
    (hfix : P.KeepsFixity fun v => (σ v).getD (varRef v)) {e : Expr}
    (href : ∀ v ∈ e.varRefs, ReplacedWell P hidden σ v) :
    Simulated P hidden σ e (e.replaceRefs fun v => (σ v).getD (varRef v)) := by
  induction e with
  | intVal | exprNil =>
    exact ⟨fun h _ => ⟨rfl, h⟩, fun h _ => ⟨rfl, trivial, h⟩, fun h _ => ⟨rfl, h⟩⟩
  | varRef v =>
    refine ⟨(href v (by simp [varRefs])).read, fun h hs => ?_, fun h hs => ?_⟩
    · have hv : σ v = none := hs
      simp only [replaceRefs, hv, Option.getD_none, locate]
      refine ⟨trivial, ?_, h⟩
      split
      next => trivial
      next => exact (href v (by simp [varRefs])).shown hv
    · have hv : σ v = none := hs
      simp only [replaceRefs, hv, Option.getD_none, evalArgs]
      exact ⟨trivial, h⟩
  | arrRef b i ihb ihi =>
    have hb := ihb fun v hv => href v (by simp [varRefs, hv])
    have hi := ihi fun v hv => href v (by simp [varRefs, hv])
    refine ⟨fun h hs => ?_, fun h hs => ?_, fun h _ => ⟨rfl, h⟩⟩
    · obtain ⟨hbval, hbst⟩ := hb.eval h hs.1
      obtain ⟨hival, hist⟩ := hi.eval hbst hs.2
      simp only [replaceRefs, Expr.eval, hbval, hival, hist.mem]
      exact ⟨trivial, hist⟩
    · obtain ⟨hbval, hbst⟩ := hb.eval h hs.1
      obtain ⟨hival, hist⟩ := hi.eval hbst hs.2
      simp only [replaceRefs, Expr.locate, hbval, hival]
      exact ⟨trivial, trivial, hist⟩
  | deref e ih =>
    have he := ih href
    refine ⟨fun h hs => ?_, fun h hs => ?_, fun h _ => ⟨rfl, h⟩⟩
    · obtain ⟨hval, hst⟩ := he.eval h hs
      simp only [replaceRefs, Expr.eval, hval, hst.mem]
      exact ⟨trivial, hst⟩
    · obtain ⟨hval, hst⟩ := he.eval h hs
      simp only [replaceRefs, Expr.locate, hval]
      exact ⟨trivial, trivial, hst⟩
  | member e f ih =>
    have he := ih href
    refine ⟨fun h hs => ?_, fun h hs => ?_, fun h _ => ⟨rfl, h⟩⟩
    · obtain ⟨hloc, _, hst⟩ := he.locate h hs
      simp only [replaceRefs, Expr.eval, hloc, hst.mem]
      exact ⟨trivial, hst⟩
    · obtain ⟨hloc, _, hst⟩ := he.locate h hs
      simp only [replaceRefs, Expr.locate, hloc]
      exact ⟨trivial, trivial, hst⟩
  | addrOf e ih =>
    have he := ih href
    refine ⟨fun h hs => ?_, fun h _ => ⟨rfl, trivial, h⟩, fun h _ => ⟨rfl, h⟩⟩
    obtain ⟨hloc, _, hst⟩ := he.locate h hs
    simp only [replaceRefs, Expr.eval, hloc]
    exact ⟨trivial, hst⟩
  | cast c e ih =>
    have he := ih href
    refine ⟨fun h hs => ?_, fun h hs => ?_, fun h _ => ⟨rfl, h⟩⟩
    · obtain ⟨hval, hst⟩ := he.eval h hs
      simp only [replaceRefs, Expr.eval, hval]
      exact ⟨trivial, hst⟩
    · simpa only [replaceRefs, Expr.locate] using he.locate h hs
  | unary op e ih =>
    have he := ih href
    refine ⟨fun h hs => ?_, fun h _ => ⟨rfl, trivial, h⟩, fun h _ => ⟨rfl, h⟩⟩
    obtain ⟨hval, hst⟩ := he.eval h hs
    simp only [replaceRefs, Expr.eval, hval]
    exact ⟨trivial, hst⟩
  | binary op a b iha ihb =>
    have ha := iha fun v hv => href v (by simp [varRefs, hv])
    have hb := ihb fun v hv => href v (by simp [varRefs, hv])
    refine ⟨fun h hs => ?_, fun h _ => ⟨rfl, trivial, h⟩, fun h _ => ⟨rfl, h⟩⟩
    obtain ⟨haval, hast⟩ := ha.eval h hs.1
    simp only [replaceRefs, Expr.eval, ← haval]
    split
    next hgo =>
      obtain ⟨hbval, hbst⟩ := hb.eval hast (hs.2 hgo)
      simp only [hbval]
      exact ⟨trivial, hbst⟩
    next => exact ⟨rfl, hast⟩
  | cond c a b ihc iha ihb =>
    have hc := ihc fun v hv => href v (by simp [varRefs, hv])
    have ha := iha fun v hv => href v (by simp [varRefs, hv])
    have hb := ihb fun v hv => href v (by simp [varRefs, hv])
    refine ⟨fun h hs => ?_, fun h _ => ⟨rfl, trivial, h⟩, fun h _ => ⟨rfl, h⟩⟩
    obtain ⟨hcval, hcst⟩ := hc.eval h hs.1
    have hbranch := hs.2
    simp only [replaceRefs, Expr.eval, ← hcval]
    split
    next htrue =>
      rw [if_pos htrue] at hbranch
      exact ha.eval hcst hbranch
    next hfalse =>
      rw [if_neg hfalse] at hbranch
      exact hb.eval hcst hbranch
  | assign l r ihl ihr =>
    have hl := ihl fun v hv => href v (by simp [varRefs, hv])
    have hr := ihr fun v hv => href v (by simp [varRefs, hv])
    refine ⟨fun h hs => ?_, fun h _ => ⟨rfl, trivial, h⟩, fun h _ => ⟨rfl, h⟩⟩
    obtain ⟨hloc, _, hlst⟩ := hl.locate h hs.1
    obtain ⟨hval, hst⟩ := hr.eval hlst hs.2
    simp only [replaceRefs, Expr.eval, hloc, hval]
    exact ⟨trivial, hst.write _ _ _ _⟩
  | compound op l r ihl ihr =>
    have hl := ihl fun v hv => href v (by simp [varRefs, hv])
    have hr := ihr fun v hv => href v (by simp [varRefs, hv])
    refine ⟨fun h hs => ?_, fun h _ => ⟨rfl, trivial, h⟩, fun h _ => ⟨rfl, h⟩⟩
    obtain ⟨hloc, hvisible, hlst⟩ := hl.locate h hs.1
    obtain ⟨hval, hst⟩ := hr.eval hlst hs.2
    have hread := hst.read (P := P) hvisible
    simp only [replaceRefs, Expr.eval, hread, hval]
    rw [hloc]
    exact ⟨rfl, hst.write _ _ _ _⟩
  | plusPlus e ih =>
    have he := ih href
    refine ⟨fun h hs => ?_, fun h _ => ⟨rfl, trivial, h⟩, fun h _ => ⟨rfl, h⟩⟩
    obtain ⟨hloc, hvisible, hst⟩ := he.locate h hs
    have hread := hst.read (P := P) hvisible
    have hprefix := hfix (plusPlus e)
    simp only [replaceRefs] at hprefix
    simp only [replaceRefs, Expr.eval, hread, hprefix]
    rw [hloc]
    exact ⟨rfl, hst.write _ _ _ _⟩
  | minusMinus e ih =>
    have he := ih href
    refine ⟨fun h hs => ?_, fun h _ => ⟨rfl, trivial, h⟩, fun h _ => ⟨rfl, h⟩⟩
    obtain ⟨hloc, hvisible, hst⟩ := he.locate h hs
    have hread := hst.read (P := P) hvisible
    have hprefix := hfix (minusMinus e)
    simp only [replaceRefs] at hprefix
    simp only [replaceRefs, Expr.eval, hread, hprefix]
    rw [hloc]
    exact ⟨rfl, hst.write _ _ _ _⟩
  | call f args ih =>
    have hargs := ih href
    refine ⟨fun h hs => ?_, fun h _ => ⟨rfl, trivial, h⟩, fun h _ => ⟨rfl, h⟩⟩
    obtain ⟨hval, hst⟩ := hargs.list h hs
    simp only [replaceRefs, Expr.eval, hval]
    obtain ⟨hresult, hafter⟩ := hP f _ _ _ hst
    exact ⟨hresult, hafter.withLog _ _⟩
  | exprCons a b iha ihb =>
    have ha := iha fun v hv => href v (by simp [varRefs, hv])
    have hb := ihb fun v hv => href v (by simp [varRefs, hv])
    refine ⟨fun h _ => ⟨rfl, h⟩, fun h _ => ⟨rfl, trivial, h⟩, fun h hs => ?_⟩
    obtain ⟨haval, hast⟩ := ha.eval h hs.1
    obtain ⟨hbval, hbst⟩ := hb.list hast hs.2
    simp only [replaceRefs, Expr.evalArgs, haval, hbval]
    exact ⟨trivial, hbst⟩

/-- Without parameters there is nothing to disturb. -/
theorem faithful_none (P : Platform) (e : Expr) (s : State) :
    e.Faithful P (fun _ => none) s ∧ e.LocatedFaithfully P (fun _ => none) s ∧
      e.ListFaithful P (fun _ => none) s := by
  induction e generalizing s with
  | cond c a b ihc iha ihb =>
    refine ⟨⟨(ihc s).1, ?_⟩, trivial, trivial⟩
    split
    · exact (iha _).1
    · exact (ihb _).1
  | _ => simp_all [Faithful, LocatedFaithfully, ListFaithful]

/-- An expression over visible variables does the same in agreeing states. -/
theorem agree_eval (hP : P.Hides hidden) {e : Expr} (hvisible : ∀ v ∈ e.varRefs, v ∉ hidden)
    {s t : State} (h : Agree hidden s t) :
    (e.eval P s).1 = (e.eval P t).1 ∧ Agree hidden (e.eval P s).2 (e.eval P t).2 := by
  have hself : ∀ e : Expr, e.replaceRefs (fun v => ((fun _ => none) v).getD (varRef v)) = e :=
    fun e => replaceRefs_eq_self.mpr fun v _ => rfl
  have hfix : P.KeepsFixity fun v => ((fun _ => none) v).getD (varRef v) := fun e => by rw [hself]
  have href : ∀ v ∈ e.varRefs, ReplacedWell P hidden (fun _ => none) v := by
    intro v hv
    have hv' : (Loc.var v).Visible hidden := hvisible v hv
    exact ⟨fun hst _ => ⟨hst.read hv', hst⟩, fun _ => hv'⟩
  have hsim := simulated_replaceRefs hP hfix href
  rw [hself] at hsim
  exact hsim.eval h (faithful_none P e s).1

end

end Expr

/-- The rounds of a loop are run faithfully. -/
def RoundsFaithful (testOk bodyOk stepOk : State → Prop) (test : State → Int × State)
    (body : State → Option (Outcome × State)) (step : State → State) : Nat → State → Prop
  | 0, _ => True
  | fuel + 1, s => testOk s ∧ ((test s).1 ≠ 0 → bodyOk (test s).2 ∧
      match body (test s).2 with
      | some (.normal, t) | some (.continued, t) =>
        stepOk t ∧ RoundsFaithful testOk bodyOk stepOk test body step fuel (step t)
      | _ => True)

def IfNormal (ok : State → Prop) : Option (Outcome × State) → Prop
  | some (.normal, s) => ok s
  | _ => True

def thenRun (next : State → Option (Outcome × State)) :
    Option (Outcome × State) → Option (Outcome × State)
  | some (.normal, s) => next s
  | result => result

/-- Every expression that the run of the statement evaluates reads the parameters
faithfully. -/
def Stmt.Faithful (P : Platform) (σ : Var → Option Expr) (fuel : Nat) : Stmt → State → Prop
  | .empty, _ | .breakStmt, _ | .continueStmt, _ | .decl _ none, _ | .returnStmt none, _ => True
  | .expr e, s | .decl _ (some e), s | .returnStmt (some e), s => e.Faithful P σ s
  | .seq a b, s => a.Faithful P σ fuel s ∧ IfNormal (b.Faithful P σ fuel) (a.exec P fuel s)
  | .ite c a b, s => c.Faithful P σ s ∧
    if (c.eval P s).1 ≠ 0 then a.Faithful P σ fuel (c.eval P s).2
    else b.Faithful P σ fuel (c.eval P s).2
  | .whileLoop c b, s =>
    RoundsFaithful (c.Faithful P σ) (b.Faithful P σ fuel) (fun _ => True) (c.eval P)
      (b.exec P fuel) id fuel s
  | .forLoop i c u b, s => i.Faithful P σ fuel s ∧
    IfNormal (RoundsFaithful (c.Faithful P σ) (b.Faithful P σ fuel) (u.Faithful P σ) (c.eval P)
      (b.exec P fuel) (fun s => (u.eval P s).2) fuel) (i.exec P fuel s)

/-- Both runs go on for ever, or both end in the same way and in agreeing states. -/
def SameRun (hidden : List Var) : Option (Outcome × State) → Option (Outcome × State) → Prop :=
  Option.Rel fun r r' => r.1 = r'.1 ∧ Agree hidden r.2 r'.2

section

variable {P : Platform} {hidden : List Var} {σ : Var → Option Expr}

theorem sameRun_runLoop {testOk bodyOk stepOk : State → Prop} {test test' : State → Int × State}
    {body body' : State → Option (Outcome × State)} {step step' : State → State}
    (htest : ∀ {s t}, Agree hidden s t → testOk s →
      (test s).1 = (test' t).1 ∧ Agree hidden (test s).2 (test' t).2)
    (hbody : ∀ {s t}, Agree hidden s t → bodyOk s → SameRun hidden (body s) (body' t))
    (hstep : ∀ {s t}, Agree hidden s t → stepOk s → Agree hidden (step s) (step' t))
    (fuel : Nat) {s t : State} (h : Agree hidden s t)
    (hs : RoundsFaithful testOk bodyOk stepOk test body step fuel s) :
    SameRun hidden (runLoop test body step fuel s) (runLoop test' body' step' fuel t) := by
  induction fuel generalizing s t with
  | zero => exact Option.Rel.none
  | succ fuel ih =>
    obtain ⟨hval, hst⟩ := htest h hs.1
    simp only [runLoop, ← hval]
    split
    next hgo =>
      obtain ⟨hok, hrest⟩ := hs.2 hgo
      have hrun := hbody hst hok
      revert hrun hrest
      generalize body (test s).2 = r
      generalize body' (test' t).2 = r'
      intro hrest hrun
      cases hrun with
      | none => exact Option.Rel.none
      | some hsame =>
        rename_i r r'
        obtain ⟨o, u⟩ := r
        obtain ⟨o', u'⟩ := r'
        obtain ⟨ho, hu⟩ := hsame
        cases ho
        cases o with
        | broken => exact Option.Rel.some ⟨rfl, hu⟩
        | returned => exact Option.Rel.some ⟨rfl, hu⟩
        | normal => exact ih (hstep hu hrest.1) hrest.2
        | continued => exact ih (hstep hu hrest.1) hrest.2
    next => exact Option.Rel.some ⟨rfl, hst⟩

theorem SameRun.thenRun {r r' : Option (Outcome × State)} (h : SameRun hidden r r')
    {ok : State → Prop} {next next' : State → Option (Outcome × State)} (hok : IfNormal ok r)
    (hnext : ∀ {s t}, Agree hidden s t → ok s → SameRun hidden (next s) (next' t)) :
    SameRun hidden (thenRun next r) (thenRun next' r') := by
  cases h with
  | none => exact Option.Rel.none
  | some hsame =>
    rename_i r r'
    obtain ⟨o, s⟩ := r
    obtain ⟨o', t⟩ := r'
    obtain ⟨ho, hst⟩ := hsame
    cases ho
    cases o with
    | normal => exact hnext hst hok
    | broken => exact Option.Rel.some ⟨rfl, hst⟩
    | continued => exact Option.Rel.some ⟨rfl, hst⟩
    | returned => exact Option.Rel.some ⟨rfl, hst⟩

theorem exec_seq (P : Platform) (fuel : Nat) (a b : Stmt) (s : State) :
    (Stmt.seq a b).exec P fuel s = thenRun (b.exec P fuel) (a.exec P fuel s) := by
  rw [Stmt.exec]
  rfl

theorem exec_forLoop (P : Platform) (fuel : Nat) (i : Stmt) (c u : Expr) (b : Stmt)
    (s : State) : (Stmt.forLoop i c u b).exec P fuel s =
      thenRun (runLoop (c.eval P) (b.exec P fuel) (fun s => (u.eval P s).2) fuel)
        (i.exec P fuel s) := by
  rw [Stmt.exec]
  rfl

theorem sameRun_replaceRefs (hP : P.Hides hidden)
    (hfix : P.KeepsFixity fun v => (σ v).getD (.varRef v))
    (href : ∀ v, Expr.ReplacedWell P hidden σ v) (fuel : Nat) {b : Stmt} {s t : State}
    (h : Agree hidden s t) (hs : b.Faithful P σ fuel s) :
    SameRun hidden (b.exec P fuel s)
      ((b.replaceRefs fun v => (σ v).getD (.varRef v)).exec P fuel t) := by
  have hexpr : ∀ (e : Expr) {s t : State}, Agree hidden s t → e.Faithful P σ s →
      (e.eval P s).1 = ((e.replaceRefs fun v => (σ v).getD (.varRef v)).eval P t).1 ∧
        Agree hidden (e.eval P s).2
          ((e.replaceRefs fun v => (σ v).getD (.varRef v)).eval P t).2 :=
    fun e _ _ => (Expr.simulated_replaceRefs hP hfix (e := e) fun v _ => href v).eval
  induction b generalizing s t with
  | empty => exact Option.Rel.some ⟨rfl, h⟩
  | breakStmt => exact Option.Rel.some ⟨rfl, h⟩
  | continueStmt => exact Option.Rel.some ⟨rfl, h⟩
  | expr e => exact Option.Rel.some ⟨rfl, (hexpr e h hs).2⟩
  | decl v init =>
    cases init with
    | none => exact Option.Rel.some ⟨rfl, h.setVar v 0⟩
    | some e =>
      obtain ⟨hval, hst⟩ := hexpr e h hs
      simp only [Stmt.replaceRefs, Option.map_some, Stmt.exec, hval]
      exact Option.Rel.some ⟨rfl, hst.setVar v _⟩
  | returnStmt e =>
    cases e with
    | none => exact Option.Rel.some ⟨rfl, h⟩
    | some e => exact Option.Rel.some ⟨rfl, (hexpr e h hs).2⟩
  | seq a b iha ihb =>
    rw [Stmt.replaceRefs, exec_seq, exec_seq]
    exact (iha h hs.1).thenRun hs.2 ihb
  | ite c a b iha ihb =>
    obtain ⟨hval, hst⟩ := hexpr c h hs.1
    have hbranch := hs.2
    simp only [Stmt.replaceRefs, Stmt.exec, ← hval]
    split
    next htrue =>
      rw [if_pos htrue] at hbranch
      exact iha hst hbranch
    next hfalse =>
      rw [if_neg hfalse] at hbranch
      exact ihb hst hbranch
  | whileLoop c b ih =>
    exact sameRun_runLoop (hexpr c) ih (fun hst _ => hst) fuel h hs
  | forLoop i c u b ihi ihb =>
    rw [Stmt.replaceRefs, exec_forLoop, exec_forLoop]
    exact (ihi h hs.1).thenRun hs.2
      (sameRun_runLoop (hexpr c) ihb (fun hst hok => (hexpr u hst hok).2) fuel)

end

end LoomX
