import LoomX.FunctionPointer.SteadyPointer

namespace LoomX.FunctionPointer

/-- The same function is called, through an expression that refers to no other variable. -/
inductive SameEvent : Event → Event → Prop
  | refl (e : Event) : SameEvent e e
  | called {callee callee' : Expr} (f : Val)
      (h : ∀ v, refersToVar callee' v = true → refersToVar callee v = true) :
      SameEvent (.called callee f) (.called callee' f)

structure SameStep (a b : Step) : Prop where
  event : SameEvent a.event b.event
  frame : b.frame = a.frame
  after : b.after = a.after

theorem SameStep.refl (a : Step) : SameStep a a := ⟨.refl _, rfl, rfl⟩

/-- The states agree, and their traces step by step. -/
structure Follows (s t : State) : Prop where
  mem : t.mem = s.mem
  count : t.count = s.count
  trace : List.Forall₂ SameStep s.trace t.trace

/-- The second computation follows the first one as long as the pointer of the candidate is
left alone. -/
structure Sim (P : Platform) (cand : DevirtCandidate) {α : Type} (x y : Run α) : Prop where
  grows : ∀ s, s.trace <:+ (x s).2.trace
  declared : ∀ s, cand.Declared P s.trace → cand.Declared P (x s).2.trace
  follows : ∀ s t, Follows s t → cand.Declared P s.trace → cand.Steady P (x s).2.trace →
    (y t).1 = (x s).1 ∧ Follows (x s).2 (y t).2

namespace Sim

variable {P : Platform} {cand : DevirtCandidate} {α β : Type}

theorem bind {x y : Run α} {f g : α → Run β} (h : Sim P cand x y)
    (hf : ∀ a, Sim P cand (f a) (g a)) : Sim P cand (x >>= f) (y >>= g) := by
  refine ⟨fun s => ?_, fun s hs => ?_, fun s t hst hs hsteady => ?_⟩
  · have hg := h.grows s
    rw [Run.bind_apply]
    rcases hx : x s with ⟨_ | a, s₁⟩
    · simpa only [hx] using hg
    · rw [hx] at hg
      exact hg.trans ((hf a).grows s₁)
  · have hd := h.declared s hs
    rw [Run.bind_apply]
    rcases hx : x s with ⟨_ | a, s₁⟩
    · simpa only [hx] using hd
    · rw [hx] at hd
      exact (hf a).declared s₁ hd
  · have hd := h.declared s hs
    have hfollows := h.follows s t hst hs
    rw [Run.bind_apply] at hsteady ⊢
    rw [Run.bind_apply]
    rcases hx : x s with ⟨_ | a, s₁⟩
    · simp only [hx] at hsteady hfollows ⊢
      obtain ⟨hres, hs₁⟩ := hfollows hsteady
      rcases hy : y t with ⟨b, t₁⟩
      obtain rfl : b = none := by simpa [hy] using hres
      rw [hy] at hs₁
      exact ⟨rfl, hs₁⟩
    · simp only [hx] at hsteady hfollows hd ⊢
      obtain ⟨hres, hs₁⟩ := hfollows (hsteady.of_suffix ((hf a).grows s₁))
      rcases hy : y t with ⟨b, t₁⟩
      obtain rfl : b = some a := by simpa [hy] using hres
      rw [hy] at hs₁
      exact (hf a).follows s₁ t₁ hs₁ hd hsteady

theorem pure (a : α) : Sim P cand (Pure.pure a) (Pure.pure a) :=
  ⟨fun _ => List.suffix_refl _, fun _ h => h, fun _ _ h _ _ => ⟨rfl, h⟩⟩

theorem lift (a : Option α) : Sim P cand (Run.lift a) (Run.lift a) :=
  ⟨fun _ => List.suffix_refl _, fun _ h => h, fun _ _ h _ _ => ⟨rfl, h⟩⟩

theorem fail : Sim P cand (Run.fail : Run α) Run.fail := lift none

theorem memory : Sim P cand Run.memory Run.memory :=
  ⟨fun _ => List.suffix_refl _, fun _ h => h, fun _ _ h _ _ => ⟨congrArg some h.mem, h⟩⟩

theorem enter : Sim P cand Run.enter Run.enter := by
  refine ⟨fun _ => List.suffix_refl _, fun _ h => h, fun s t h _ _ => ?_⟩
  exact ⟨congrArg (fun n => some (n + 1)) h.count, h.mem, congrArg (· + 1) h.count, h.trace⟩

theorem load (p : Val) : Sim P cand (FunctionPointer.load p) (FunctionPointer.load p) :=
  ⟨fun _ => List.suffix_refl _, fun _ h => h, fun _ _ h _ _ =>
    ⟨congrArg p.load h.mem, h⟩⟩

theorem readName (fr : Frame) (v : InitializedName) :
    Sim P cand (FunctionPointer.readName fr v) (FunctionPointer.readName fr v) :=
  ⟨fun _ => List.suffix_refl _, fun _ h => h, fun _ _ h _ _ =>
    ⟨congrArg (fun m => some (fr.value m v)) h.mem, h⟩⟩

/-- A step that is no initialisation of the pointer. -/
theorem step {event event' : Event} (h : SameEvent event event')
    (hevent : ∀ start, event ≠ .initialised cand.var start) (fr : Frame) (f : Memory → Memory) :
    Sim P cand (Run.step fr event f) (Run.step fr event' f) := by
  refine ⟨fun s => List.suffix_cons _ _, fun s hs start fr' m g hm => ?_, fun s t hst _ _ => ?_⟩
  · rcases List.mem_cons.mp hm with heq | hm
    · exact absurd (congrArg Step.event heq).symm (hevent start)
    · exact hs start fr' m g hm
  · have hmem : f t.mem = f s.mem := congrArg f hst.mem
    exact ⟨rfl, hmem, hst.count, .cons ⟨h, rfl, hmem⟩ hst.trace⟩

theorem store (fr : Frame) (p v : Val) :
    Sim P cand (FunctionPointer.store fr p v) (FunctionPointer.store fr p v) := by
  cases p with
  | pointer a => exact step (.refl .stored) (fun _ => nofun) fr fun m => Function.update m a v
  | int | function => exact fail

theorem bump (fr : Frame) (op : BinOp) (before : Bool) (p : Val) :
    Sim P cand (FunctionPointer.bump fr op before p) (FunctionPointer.bump fr op before p) :=
  (load p).bind fun _ => (lift _).bind fun _ => (store fr p _).bind fun _ => pure _

theorem ite {x y x' y' : Run α} (c : Prop) [Decidable c] (hx : Sim P cand x x')
    (hy : Sim P cand y y') : Sim P cand (if c then x else y) (if c then x' else y') := by
  split
  · exact hx
  · exact hy

theorem loop {test test' : Run Val} {body body' : Run Outcome} {increment increment' : Run Unit}
    (ht : Sim P cand test test') (hb : Sim P cand body body')
    (hi : Sim P cand increment increment') (fuel : Nat) :
    Sim P cand (runLoop test body increment fuel) (runLoop test' body' increment' fuel) := by
  induction fuel with
  | zero => exact fail
  | succ fuel ih =>
    refine ht.bind fun v => ite _ (hb.bind fun o => ?_) (pure _)
    cases o with
    | broken | returned => exact pure _
    | normal | continued => exact hi.bind fun _ => ih

end Sim

/-- The second expression follows the first one, as a value, as a place and as a list. -/
structure SimExpr (P : Platform) (cand : DevirtCandidate) (invoke invoke' : String → List Val → Run Val)
    (e e' : Expr) : Prop where
  eval : ∀ fr, Sim P cand (e.eval P invoke fr) (e'.eval P invoke' fr)
  locate : ∀ fr, Sim P cand (e.locate P invoke fr) (e'.locate P invoke' fr)
  args : ∀ fr, Sim P cand (e.evalArgs P invoke fr) (e'.evalArgs P invoke' fr)

namespace SimExpr

variable {P : Platform} {cand : DevirtCandidate} {invoke invoke' : String → List Val → Run Val}
variable {a b c a' b' c' : Expr}

theorem intVal (n : Int) : SimExpr P cand invoke invoke' (.intVal n) (.intVal n) :=
  ⟨fun _ => .pure _, fun _ => .fail, fun _ => .fail⟩

theorem functionRef (f : String) : SimExpr P cand invoke invoke' (.functionRef f) (.functionRef f) := by
  refine ⟨fun fr => ?_, fun fr => ?_, fun fr => .fail⟩
  · simp only [Expr.eval]
    split
    · exact .pure _
    · exact .readName fr _
  · simp only [Expr.locate]
    split <;> exact .pure _

theorem varRef (v : InitializedName) : SimExpr P cand invoke invoke' (.varRef v) (.varRef v) :=
  ⟨fun fr => .readName fr _, fun _ => .pure _, fun _ => .fail⟩

theorem arrRef (ha : SimExpr P cand invoke invoke' a a') (hb : SimExpr P cand invoke invoke' b b') :
    SimExpr P cand invoke invoke' (.arrRef a b) (.arrRef a' b') :=
  ⟨fun fr => (ha.eval fr).bind fun _ => (hb.eval fr).bind fun _ => (Sim.lift _).bind fun _ =>
      .load _,
    fun fr => (ha.eval fr).bind fun _ => (hb.eval fr).bind fun _ => .lift _, fun _ => .fail⟩

theorem deref (ha : SimExpr P cand invoke invoke' a a') :
    SimExpr P cand invoke invoke' (.deref a) (.deref a') :=
  ⟨fun fr => (ha.eval fr).bind fun _ => .load _, fun fr => ha.eval fr, fun _ => .fail⟩

theorem member (ha : SimExpr P cand invoke invoke' a a') (f : String) :
    SimExpr P cand invoke invoke' (.member a f) (.member a' f) :=
  ⟨fun fr => (ha.locate fr).bind fun _ => (Sim.lift _).bind fun _ => .load _,
    fun fr => (ha.locate fr).bind fun _ => .lift _, fun _ => .fail⟩

theorem addrOf (ha : SimExpr P cand invoke invoke' a a') :
    SimExpr P cand invoke invoke' (.addrOf a) (.addrOf a') :=
  ⟨fun fr => ha.locate fr, fun _ => .fail, fun _ => .fail⟩

theorem cast (t : SgType) (ha : SimExpr P cand invoke invoke' a a') :
    SimExpr P cand invoke invoke' (.cast t a) (.cast t a') :=
  ⟨fun fr => (ha.eval fr).bind fun _ => .pure _, fun fr => ha.locate fr, fun _ => .fail⟩

theorem unary (op : UnOp) (ha : SimExpr P cand invoke invoke' a a') :
    SimExpr P cand invoke invoke' (.unary op a) (.unary op a') :=
  ⟨fun fr => (ha.eval fr).bind fun _ => .lift _, fun _ => .fail, fun _ => .fail⟩

theorem binary (op : BinOp) (ha : SimExpr P cand invoke invoke' a a')
    (hb : SimExpr P cand invoke invoke' b b') :
    SimExpr P cand invoke invoke' (.binary op a b) (.binary op a' b') :=
  ⟨fun fr => (ha.eval fr).bind fun _ => .ite _ ((hb.eval fr).bind fun _ => .lift _) (.lift _),
    fun _ => .fail, fun _ => .fail⟩

theorem cond (hc : SimExpr P cand invoke invoke' c c') (ha : SimExpr P cand invoke invoke' a a')
    (hb : SimExpr P cand invoke invoke' b b') :
    SimExpr P cand invoke invoke' (.cond c a b) (.cond c' a' b') :=
  ⟨fun fr => (hc.eval fr).bind fun _ => .ite _ (ha.eval fr) (hb.eval fr),
    fun _ => .fail, fun _ => .fail⟩

theorem assign (ha : SimExpr P cand invoke invoke' a a') (hb : SimExpr P cand invoke invoke' b b') :
    SimExpr P cand invoke invoke' (.assign a b) (.assign a' b') :=
  ⟨fun fr => (ha.locate fr).bind fun _ => (hb.eval fr).bind fun _ => (Sim.store fr _ _).bind
      fun _ => .pure _, fun _ => .fail, fun _ => .fail⟩

theorem compound (op : BinOp) (ha : SimExpr P cand invoke invoke' a a')
    (hb : SimExpr P cand invoke invoke' b b') :
    SimExpr P cand invoke invoke' (.compound op a b) (.compound op a' b') :=
  ⟨fun fr => (ha.locate fr).bind fun _ => (hb.eval fr).bind fun _ => (Sim.load _).bind fun _ =>
      (Sim.lift _).bind fun _ => (Sim.store fr _ _).bind fun _ => .pure _,
    fun _ => .fail, fun _ => .fail⟩

theorem plusPlus (before : Bool) (ha : SimExpr P cand invoke invoke' a a') :
    SimExpr P cand invoke invoke' (.plusPlus before a) (.plusPlus before a') :=
  ⟨fun fr => (ha.locate fr).bind fun _ => .bump fr _ _ _, fun _ => .fail, fun _ => .fail⟩

theorem minusMinus (before : Bool) (ha : SimExpr P cand invoke invoke' a a') :
    SimExpr P cand invoke invoke' (.minusMinus before a) (.minusMinus before a') :=
  ⟨fun fr => (ha.locate fr).bind fun _ => .bump fr _ _ _, fun _ => .fail, fun _ => .fail⟩

theorem exprNil : SimExpr P cand invoke invoke' .exprNil .exprNil :=
  ⟨fun _ => .fail, fun _ => .fail, fun _ => .pure _⟩

theorem exprCons (ha : SimExpr P cand invoke invoke' a a') (hb : SimExpr P cand invoke invoke' b b') :
    SimExpr P cand invoke invoke' (.exprCons a b) (.exprCons a' b') :=
  ⟨fun _ => .fail, fun _ => .fail,
    fun fr => (ha.eval fr).bind fun _ => (hb.args fr).bind fun _ => .pure _⟩

/-- The arguments and the call itself. -/
theorem applied (hcall : ∀ f vs, Sim P cand (invoke f vs) (invoke' f vs))
    (hb : SimExpr P cand invoke invoke' b b') (fr : Frame) (v : Val) :
    Sim P cand
      (b.evalArgs P invoke fr >>= fun vs => match v with | .function f => invoke f vs | _ => Run.fail)
      (b'.evalArgs P invoke' fr >>= fun vs =>
        match v with | .function f => invoke' f vs | _ => Run.fail) := by
  refine (hb.args fr).bind fun vs => ?_
  cases v with
  | function f => exact hcall f vs
  | int | pointer => exact .fail

theorem call (hcall : ∀ f vs, Sim P cand (invoke f vs) (invoke' f vs))
    (href : ∀ v, refersToVar a' v = true → refersToVar a v = true)
    (ha : SimExpr P cand invoke invoke' a a') (hb : SimExpr P cand invoke invoke' b b') :
    SimExpr P cand invoke invoke' (.call a b) (.call a' b') :=
  ⟨fun fr => (ha.eval fr).bind fun v =>
      (Sim.step (.called v href) (fun _ => nofun) fr id).bind fun _ =>
        applied hcall hb fr v,
    fun _ => .fail, fun _ => .fail⟩

end SimExpr

section

variable {P : Platform} {cand : DevirtCandidate} {invoke invoke' : String → List Val → Run Val}

theorem isArray_of_isFunctionPointerType {t : SgType} (h : isFunctionPointerType t = true) :
    t.isArray = false := by
  induction t with
  | typedef t ih => exact ih h
  | pointer => rfl
  | _ => simp [isFunctionPointerType, SgType.stripTypedefType] at h

/-- The callee of a call through the pointer is a reference, and reading it changes nothing. -/
theorem eval_of_refersToVar {fr : Frame} {e : Expr} {s : State}
    (he : refersToVar e cand.var = true) : ∃ v, e.eval P invoke fr s = (some v, s) ∧
      ∀ f, fr.lookup cand.var = cand.var → isFunctionPointerType cand.var.type = true →
        s.mem (fr.object cand.var) = .function f → v = .function f := by
  have hread : ∀ f, fr.lookup cand.var = cand.var → isFunctionPointerType cand.var.type = true →
      s.mem (fr.object cand.var) = .function f →
      fr.value s.mem (fr.lookup cand.var) = .function f := by
    intro f hlookup htype hp
    rw [hlookup, Frame.value, isArray_of_isFunctionPointerType htype, hp]
    rfl
  match e, he with
  | .varRef w, he =>
    obtain rfl : w = cand.var := of_decide_eq_true he
    exact ⟨_, rfl, hread⟩
  | .cast t (.varRef w), he =>
    obtain rfl : w = cand.var := of_decide_eq_true he
    refine ⟨_, rfl, fun f hlookup htype hp => ?_⟩
    rw [hread f hlookup htype hp]
    rfl

/-- A call through the pointer and the conditional that replaces it. -/
theorem SimExpr.rewrittenCall {callee args : Expr}
    (hcall : ∀ f vs, Sim P cand (invoke f vs) (invoke' f vs))
    (htype : isFunctionPointerType cand.var.type = true)
    (hcallee : refersToVar callee cand.var = true)
    (hself : SimExpr P cand invoke invoke' callee callee)
    (hargs : SimExpr P cand invoke invoke' args args) :
    SimExpr P cand invoke invoke' (.call callee args)
      (.cond cand.condition (.call (.functionRef cand.funcA) args)
        (.call (.functionRef cand.funcB) args)) := by
  have hcalled := SimExpr.call hcall (fun _ h => h) hself hargs
  refine ⟨fun fr => ⟨(hcalled.eval fr).grows, (hcalled.eval fr).declared, ?_⟩, fun _ => .fail,
    fun _ => .fail⟩
  intro s t hst hs hsteady
  obtain ⟨v, hv, hfunction⟩ := @eval_of_refersToVar P cand invoke fr callee s hcallee
  have hrest := SimExpr.applied hcall hargs fr v
  rw [Expr.eval, Run.bind_of_some hv] at hsteady ⊢
  -- the call itself shows that the pointer has been left alone up to here
  have hlogged : ⟨.called callee v, fr, s.mem⟩ :: s.trace <:+ _ :=
    hrest.grows { s with trace := ⟨.called callee v, fr, s.mem⟩ :: s.trace }
  obtain ⟨hlookup, hquiet⟩ := hsteady callee v fr s.mem s.trace hlogged hcallee
  obtain ⟨f, hchoice, hp⟩ := hquiet.holds hs
  obtain rfl := hfunction f hlookup htype hp
  obtain ⟨w, hw, hf, hfind⟩ := DevirtCandidate.choice_eq_some hchoice
  have hpeek : cand.condition.eval P invoke' fr t = (some w, t) :=
    (eval_of_peek.1 w (by rw [hst.mem]; exact hw))
  have hdirect : (Expr.call (.functionRef f) args).eval P invoke' fr t =
      (args.evalArgs P invoke' fr >>= fun vs => invoke' f vs)
        { t with trace := ⟨.called (.functionRef f) (.function f), fr, t.mem⟩ :: t.trace } := by
    have hname : (Expr.functionRef f).eval P invoke' fr t = (some (.function f), t) := by
      simp only [Expr.eval, hfind]
      rfl
    rw [Expr.eval, Run.bind_of_some hname]
    rfl
  have hreplaced : (Expr.cond cand.condition (.call (.functionRef cand.funcA) args)
      (.call (.functionRef cand.funcB) args)).eval P invoke' fr t =
      (Expr.call (.functionRef f) args).eval P invoke' fr t := by
    rw [Expr.eval, Run.bind_of_some hpeek]
    split
    next ht => rw [hf, if_pos ht]
    next ht => rw [hf, if_neg ht]
  rw [hreplaced, hdirect]
  refine hrest.follows _ _ ⟨hst.mem, hst.count, .cons ⟨.called _ ?_, rfl, hst.mem⟩ hst.trace⟩ ?_
    hsteady
  · intro u hu
    simp [refersToVar, isVarRefTo] at hu
  · intro start fr' m g hm
    rcases List.mem_cons.mp hm with heq | hm
    · exact Event.noConfusion (congrArg Step.event heq)
    · exact hs start fr' m g hm

end

end LoomX.FunctionPointer
