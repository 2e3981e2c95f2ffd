import LoomX.FunctionPointer.CallRewriting
import Mathlib.Data.List.Nodup

namespace LoomX.FunctionPointer

theorem isVarRefTo_rewriteCalls {k : DevirtCandidate} {v : InitializedName} {e : Expr}
    (h : isVarRefTo v (e.rewriteCalls k) = true) : isVarRefTo v e = true := by
  cases e with
  | varRef w => exact h
  | call f args =>
    simp only [Expr.rewriteCalls] at h
    split at h <;> simp [isVarRefTo] at h
  | _ => simp [Expr.rewriteCalls, isVarRefTo] at h

theorem refersToVar_rewriteCalls {k : DevirtCandidate} {v : InitializedName} {e : Expr}
    (h : refersToVar (e.rewriteCalls k) v = true) : refersToVar e v = true := by
  cases e with
  | varRef w => exact h
  | cast t e => exact isVarRefTo_rewriteCalls (k := k) h
  | call f args =>
    simp only [Expr.rewriteCalls] at h
    split at h <;> simp [refersToVar, isVarRefTo] at h
  | _ => simp [Expr.rewriteCalls, refersToVar, isVarRefTo] at h

/-- What the initialiser of the candidate is. -/
def DevirtCandidate.Initialises (cand : DevirtCandidate) (v : InitializedName)
    (init : Option Expr) : Prop :=
  v = cand.var → ∀ e, init = some e → ∃ a b, e.stripCasts = .cond cand.condition a b ∧
    functionFromExpr a = some cand.funcA ∧ functionFromExpr b = some cand.funcB

section

variable {P : Platform} {cand : DevirtCandidate} {invoke invoke' : String → List Val → Run Val}

/-- An expression as it is and with its calls rewritten. -/
theorem simExpr_rewriteCalls (hcall : ∀ f vs, Sim P cand (invoke f vs) (invoke' f vs))
    (htype : isFunctionPointerType cand.var.type = true) (e : Expr) :
    SimExpr P cand invoke invoke' e e ∧
      SimExpr P cand invoke invoke' e (e.rewriteCalls cand) := by
  induction e with
  | intVal n => exact ⟨.intVal n, .intVal n⟩
  | functionRef f => exact ⟨.functionRef f, .functionRef f⟩
  | varRef v => exact ⟨.varRef v, .varRef v⟩
  | arrRef a b iha ihb => exact ⟨.arrRef iha.1 ihb.1, .arrRef iha.2 ihb.2⟩
  | deref e ih => exact ⟨.deref ih.1, .deref ih.2⟩
  | member e f ih => exact ⟨.member ih.1 f, .member ih.2 f⟩
  | addrOf e ih => exact ⟨.addrOf ih.1, .addrOf ih.2⟩
  | cast t e ih => exact ⟨.cast t ih.1, .cast t ih.2⟩
  | unary op e ih => exact ⟨.unary op ih.1, .unary op ih.2⟩
  | binary op a b iha ihb => exact ⟨.binary op iha.1 ihb.1, .binary op iha.2 ihb.2⟩
  | cond c a b ihc iha ihb => exact ⟨.cond ihc.1 iha.1 ihb.1, .cond ihc.2 iha.2 ihb.2⟩
  | assign a b iha ihb => exact ⟨.assign iha.1 ihb.1, .assign iha.2 ihb.2⟩
  | compound op a b iha ihb => exact ⟨.compound op iha.1 ihb.1, .compound op iha.2 ihb.2⟩
  | plusPlus before e ih => exact ⟨.plusPlus before ih.1, .plusPlus before ih.2⟩
  | minusMinus before e ih => exact ⟨.minusMinus before ih.1, .minusMinus before ih.2⟩
  | exprNil => exact ⟨.exprNil, .exprNil⟩
  | exprCons a b iha ihb => exact ⟨.exprCons iha.1 ihb.1, .exprCons iha.2 ihb.2⟩
  | call f args ihf ihargs =>
    refine ⟨.call hcall (fun _ h => h) ihf.1 ihargs.1, ?_⟩
    rw [Expr.rewriteCalls]
    split
    next hf => exact .rewrittenCall hcall htype hf ihf.1 ihargs.1
    next hf => exact .call hcall (fun _ => refersToVar_rewriteCalls) ihf.2 ihargs.2

theorem eval_of_functionFromExpr {fr : Frame} {e : Expr} {f : String} {s : State}
    (h : functionFromExpr e = some f) (hf : fr.find f = none) :
    (∀ x t, e.eval P invoke fr s = (some x, t) → x = .function f) ∧
      ∀ x t, e.locate P invoke fr s = (some x, t) → x = .function f := by
  induction e with
  | functionRef g =>
    obtain rfl := Option.some.inj h
    simp only [Expr.eval, Expr.locate, hf, Run.pure_apply]
    exact ⟨fun x t hx => (Option.some.inj (congrArg Prod.fst hx)).symm,
      fun x t hx => (Option.some.inj (congrArg Prod.fst hx)).symm⟩
  | addrOf e ih => exact ⟨(ih h).2, fun x t hx => by simp [Expr.locate, Run.fail, Run.lift] at hx⟩
  | cast t e ih =>
    refine ⟨fun x u hx => ?_, (ih h).2⟩
    obtain ⟨y, s₁, hy, hx⟩ := Run.exists_of_bind_eq_some hx
    rw [(ih h).1 y s₁ hy] at hx
    exact (Option.some.inj (congrArg Prod.fst hx)).symm
  | _ => simp [functionFromExpr] at h

/-- The initialiser gives the chosen function. -/
theorem eval_of_initialises {fr : Frame} {e a b : Expr} {x : Val} {f : String} {s t : State}
    (he : e.stripCasts = .cond cand.condition a b) (ha : functionFromExpr a = some cand.funcA)
    (hb : functionFromExpr b = some cand.funcB) (hf : cand.choice P fr s.mem = some f)
    (hx : e.eval P invoke fr s = (some x, t)) : x = .function f := by
  induction e generalizing x t with
  | cast ty e ih =>
    obtain ⟨y, s₁, hy, hx⟩ := Run.exists_of_bind_eq_some hx
    rw [ih he hy] at hx
    exact (Option.some.inj (congrArg Prod.fst hx)).symm
  | cond c a' b' _ _ _ =>
    obtain ⟨rfl, rfl, rfl⟩ := Expr.cond.inj he
    obtain ⟨w, hw, hchosen, hfind⟩ := DevirtCandidate.choice_eq_some hf
    rw [Expr.eval, Run.bind_of_some (eval_of_peek.1 w hw)] at hx
    split at hx
    next ht =>
      rw [if_pos ht] at hchosen
      subst hchosen
      exact (eval_of_functionFromExpr ha hfind).1 x t hx
    next ht =>
      rw [if_neg ht] at hchosen
      subst hchosen
      exact (eval_of_functionFromExpr hb hfind).1 x t hx
  | _ => simp [Expr.stripCasts] at he

theorem Sim.initialise {e e' : Expr} (he : SimExpr P cand invoke invoke' e e')
    (v : InitializedName) (hinit : cand.Initialises v (some e)) (fr : Frame) :
    Sim P cand (FunctionPointer.initialise P invoke fr v e)
      (FunctionPointer.initialise P invoke' fr v e') := by
  have hdo : ∀ (call : String → List Val → Run Val) (e : Expr) (s : State),
      FunctionPointer.initialise P call fr v e s =
        (e.eval P call (fr.declare v) >>= fun x => Run.step (fr.declare v)
          (.initialised v s.mem) fun m => Function.update m (fr.object v) x) s := fun _ _ _ => rfl
  have hv := he.eval (fr.declare v)
  refine ⟨fun s => ?_, fun s hs => ?_, fun s t hst hs hsteady => ?_⟩
  · have hg := hv.grows s
    rw [hdo, Run.bind_apply]
    rcases hx : e.eval P invoke (fr.declare v) s with ⟨_ | x, s₁⟩
    · simpa only [hx] using hg
    · rw [hx] at hg
      exact hg.trans (List.suffix_cons _ _)
  · have hd := hv.declared s hs
    rw [hdo, Run.bind_apply]
    rcases hx : e.eval P invoke (fr.declare v) s with ⟨_ | x, s₁⟩
    · simpa only [hx] using hd
    · rw [hx] at hd
      intro start fr' m f hm hf
      rcases List.mem_cons.mp hm with heq | hm
      · injection heq with hevent hframe hafter
        injection hevent with hvar hstart
        subst hframe hafter hstart
        obtain ⟨a, b, hcond, ha, hb⟩ := hinit hvar.symm e rfl
        rw [hvar, eval_of_initialises hcond ha hb hf hx]
        exact Function.update_self _ _ _
      · exact hd start fr' m f hm hf
  · have hfollows := hv.follows s t hst hs
    rw [hdo, Run.bind_apply] at hsteady ⊢
    rw [hdo, Run.bind_apply]
    rcases hx : e.eval P invoke (fr.declare v) s with ⟨_ | x, s₁⟩
    · simp only [hx] at hsteady hfollows ⊢
      obtain ⟨hres, hs₁⟩ := hfollows hsteady
      rcases hy : e'.eval P invoke' (fr.declare v) t with ⟨y, t₁⟩
      obtain rfl : y = none := by simpa [hy] using hres
      rw [hy] at hs₁
      exact ⟨rfl, hs₁⟩
    · simp only [hx] at hsteady hfollows ⊢
      obtain ⟨hres, hs₁⟩ := hfollows (hsteady.of_suffix (List.suffix_cons _ _))
      rcases hy : e'.eval P invoke' (fr.declare v) t with ⟨y, t₁⟩
      obtain rfl : y = some x := by simpa [hy] using hres
      rw [hy] at hs₁
      have hmem : Function.update t₁.mem (fr.object v) x = Function.update s₁.mem (fr.object v) x :=
        congrArg (fun m => Function.update m (fr.object v) x) hs₁.mem
      exact ⟨rfl, hmem, hs₁.count,
        .cons ⟨by rw [hst.mem]; exact .refl _, rfl, hmem⟩ hs₁.trace⟩

theorem Stmt.opened_mapExprs (g : Expr → Expr) (s : Stmt) (fr : Frame) :
    (s.mapExprs g).opened fr = s.opened fr := by
  induction s generalizing fr with
  | seq a b iha ihb => simp only [mapExprs, opened, iha, ihb]
  | _ => rfl

variable {g : Expr → Expr}

theorem Sim.exec (hexpr : ∀ e, SimExpr P cand invoke invoke' e (g e)) (fuel : Nat) (s : Stmt)
    (hinit : ∀ d ∈ s.declarations, cand.Initialises d.1 d.2) (fr : Frame) :
    Sim P cand (s.exec P invoke fuel fr) ((s.mapExprs g).exec P invoke' fuel fr) := by
  induction s generalizing fr with
  | empty | breakStmt | continueStmt => exact .pure _
  | expr e => exact ((hexpr e).eval fr).bind fun _ => .pure _
  | decl v init =>
    cases init with
    | none => exact .pure _
    | some e =>
      exact .ite _ ((Sim.initialise (hexpr e) v (hinit (v, some e) List.mem_cons_self) fr).bind
        fun _ => .pure _) (.pure _)
  | block b ih => exact ih hinit fr
  | seq a b iha ihb =>
    refine (iha (fun d hd => hinit d (List.mem_append_left _ hd)) fr).bind fun o => ?_
    cases o with
    | normal =>
      rw [Stmt.opened_mapExprs]
      exact ihb (fun d hd => hinit d (List.mem_append_right _ hd)) (a.opened fr)
    | _ => exact .pure _
  | ite c a b iha ihb =>
    exact ((hexpr c).eval fr).bind fun _ =>
      .ite _ (iha (fun d hd => hinit d (List.mem_append_left _ hd)) fr)
        (ihb (fun d hd => hinit d (List.mem_append_right _ hd)) fr)
  | whileLoop c b ih => exact .loop ((hexpr c).eval fr) (ih hinit fr) (.pure _) fuel
  | forLoop i c u b ihi ihb =>
    refine (ihi (fun d hd => hinit d (List.mem_append_left _ hd)) fr).bind fun _ => ?_
    simp only [Stmt.opened_mapExprs]
    exact .loop ((hexpr c).eval _) (ihb (fun d hd => hinit d (List.mem_append_right _ hd)) _)
      (((hexpr u).eval _).bind fun _ => .pure _) fuel
  | returnStmt e =>
    cases e with
    | none => exact .pure _
    | some e => exact ((hexpr e).eval fr).bind fun _ => .pure _

theorem Sim.passArguments (fr : Frame) (l : List (InitializedName × Val)) :
    Sim P cand (FunctionPointer.passArguments fr l) (FunctionPointer.passArguments fr l) := by
  induction l with
  | nil => exact .pure _
  | cons pv l ih =>
    exact (Sim.step (.refl .stored) (fun _ => nofun) fr fun m =>
      Function.update m (fr.object pv.1) pv.2).bind fun _ => ih

theorem Sim.callExternal (name : String) (args : List Val) :
    Sim P cand (FunctionPointer.callExternal P name args)
      (FunctionPointer.callExternal P name args) :=
  Sim.memory.bind fun m => (Sim.step (.refl .stored) (fun _ => nofun) ⟨0, []⟩ fun _ =>
    (P.external name args m).2).bind fun _ => .pure _

theorem Sim.initialiseStatics (hexpr : ∀ e, SimExpr P cand invoke invoke' e (g e)) (fr : Frame)
    (ds : List (InitializedName × Option Expr)) (hinit : ∀ d ∈ ds, cand.Initialises d.1 d.2) :
    Sim P cand (FunctionPointer.initialiseStatics P invoke fr ds)
      (FunctionPointer.initialiseStatics P invoke' fr (ds.map fun d => (d.1, d.2.map g))) := by
  induction ds with
  | nil => exact .pure _
  | cons d ds ih =>
    have ih := ih fun d hd => hinit d (List.mem_cons_of_mem _ hd)
    obtain ⟨v, _ | e⟩ := d
    · exact ih
    · exact .ite _ ih ((Sim.initialise (hexpr e) v (hinit (v, some e) List.mem_cons_self) fr).bind
        fun _ => ih)

theorem fileScope_mapExprs (prog : Program) : (prog.mapExprs g).fileScope = prog.fileScope := by
  simp only [Program.fileScope, Program.mapExprs, List.map_map]
  rfl

theorem Sim.call
    (hexpr : ∀ invoke invoke', (∀ f vs, Sim P cand (invoke f vs) (invoke' f vs)) →
      ∀ e, SimExpr P cand invoke invoke' e (g e)) (prog : Program)
    (hinit : ∀ d ∈ prog.declarations, cand.Initialises d.1 d.2) (fuel : Nat) (name : String)
    (args : List Val) :
    Sim P cand (prog.call P fuel name args) ((prog.mapExprs g).call P fuel name args) := by
  induction fuel generalizing name args with
  | zero => exact .fail
  | succ fuel ih =>
    simp only [Program.call, fileScope_mapExprs]
    have hfind : (prog.mapExprs g).functions.find? (·.name == name) =
        (prog.functions.find? (·.name == name)).map fun f => { f with body := f.body.mapExprs g } :=
      List.find?_map
    rw [hfind]
    cases hf : prog.functions.find? (·.name == name) with
    | none => exact .callExternal name args
    | some f =>
      refine Sim.enter.bind fun k => (Sim.passArguments _ _).bind fun _ => ?_
      have hbody : ∀ d ∈ f.body.declarations, cand.Initialises d.1 d.2 := fun d hd =>
        hinit d (List.mem_append_right _ (List.mem_flatMap.mpr ⟨f, List.mem_of_find?_eq_some hf, hd⟩))
      refine (Sim.exec (hexpr _ _ ih) fuel f.body hbody _).bind fun o => ?_
      cases o <;> exact .pure _

/-- A whole run and that of the program with its calls through the pointer rewritten. -/
theorem Sim.run (htype : isFunctionPointerType cand.var.type = true) (prog : Program)
    (hinit : ∀ d ∈ prog.declarations, cand.Initialises d.1 d.2) (fuel : Nat) (entry : String)
    (args : List Val) :
    Sim P cand (prog.run P fuel entry args)
      ((prog.mapExprs (Expr.rewriteCalls cand)).run P fuel entry args) := by
  have hexpr := fun invoke invoke' hcall e => (@simExpr_rewriteCalls P cand invoke invoke' hcall
    htype e).2
  have hcall := Sim.call hexpr prog hinit fuel
  rw [Program.run, Program.run, fileScope_mapExprs, Program.declarations_mapExprs]
  exact (Sim.initialiseStatics (hexpr _ _ hcall) _ _ hinit).bind fun _ => hcall entry args

end

theorem exists_suffix_of_forall₂ {α β : Type} {R : α → β → Prop} {l : List α} {l' s' : List β}
    (h : List.Forall₂ R l l') (hs : s' <:+ l') : ∃ s, s <:+ l ∧ List.Forall₂ R s s' := by
  induction h with
  | nil => exact ⟨[], List.suffix_refl _, by rw [List.suffix_nil.mp hs]; exact .nil⟩
  | @cons a b l l' hab hl ih =>
    rcases List.suffix_cons_iff.mp hs with rfl | hs
    · exact ⟨a :: l, List.suffix_refl _, .cons hab hl⟩
    · obtain ⟨s, hsl, hrel⟩ := ih hs
      exact ⟨s, hsl.trans (List.suffix_cons _ _), hrel⟩

theorem bind_mono {α β : Type} {x y : Option α} {f g : α → Option β}
    (h : ∀ a, x = some a → y = some a) (hf : ∀ a b, f a = some b → g a = some b) (b : β)
    (hb : x >>= f = some b) : y >>= g = some b := by
  obtain ⟨a, ha, hfa⟩ := Option.bind_eq_some_iff.mp hb
  exact Option.bind_eq_some_iff.mpr ⟨a, h a ha, hf a b hfa⟩

section

variable {P : Platform} {fr : Frame} {m : Memory} {k : DevirtCandidate}

theorem ite_mono {α : Type} {x y x' y' : Option α} (c : Prop) [Decidable c]
    (hx : ∀ a, x = some a → x' = some a) (hy : ∀ a, y = some a → y' = some a) (a : α)
    (h : (if c then x else y) = some a) : (if c then x' else y') = some a := by
  split
  next hc => exact hx a (by rwa [if_pos hc] at h)
  next hc => exact hy a (by rwa [if_neg hc] at h)

/-- What calls nothing has no call to rewrite. -/
theorem peek_rewriteCalls (e : Expr) :
    (∀ v, e.peek P fr m = some v → (e.rewriteCalls k).peek P fr m = some v) ∧
      ∀ v, e.peekLocate P fr m = some v → (e.rewriteCalls k).peekLocate P fr m = some v := by
  induction e with
  | intVal | functionRef | varRef => exact ⟨fun _ h => h, fun _ h => h⟩
  | arrRef b i ihb ihi =>
    exact ⟨bind_mono ihb.1 fun _ => bind_mono ihi.1 fun _ _ h => h,
      bind_mono ihb.1 fun _ => bind_mono ihi.1 fun _ _ h => h⟩
  | deref e ih => exact ⟨bind_mono ih.1 fun _ _ h => h, ih.1⟩
  | member e f ih => exact ⟨bind_mono ih.2 fun _ _ h => h, bind_mono ih.2 fun _ _ h => h⟩
  | addrOf e ih => exact ⟨ih.2, fun _ h => h⟩
  | cast t e ih => exact ⟨bind_mono ih.1 fun _ _ h => h, ih.2⟩
  | unary op e ih => exact ⟨bind_mono ih.1 fun _ _ h => h, fun _ h => h⟩
  | binary op a b iha ihb =>
    exact ⟨bind_mono iha.1 fun _ => ite_mono _ (bind_mono ihb.1 fun _ _ h => h) fun _ h => h,
      fun _ h => h⟩
  | cond c a b ihc iha ihb =>
    exact ⟨bind_mono ihc.1 fun _ => ite_mono _ iha.1 ihb.1, fun _ h => h⟩
  | call f args =>
    exact ⟨fun v h => by simp [Expr.peek] at h, fun v h => by simp [Expr.peekLocate] at h⟩
  | _ => exact ⟨fun _ h => h, fun _ h => h⟩

namespace DevirtCandidate

/-- The candidate with its condition rewritten as well. -/
def rewritten (k cand : DevirtCandidate) : DevirtCandidate :=
  { cand with condition := cand.condition.rewriteCalls k }

variable {cand : DevirtCandidate}

theorem choice_rewritten {f : String} (h : cand.choice P fr m = some f) :
    (k.rewritten cand).choice P fr m = some f :=
  bind_mono (peek_rewriteCalls cand.condition).1 (fun _ _ h => h) f h

theorem Undisturbed.exists_choice {trace : List Step} (h : cand.Undisturbed P fr trace m) :
    ∃ f, cand.choice P fr m = some f := by
  induction h with
  | initialised object before after => exact ⟨_, after⟩
  | step earlier keeps ih =>
    obtain ⟨f, hf⟩ := ih
    exact ⟨f, keeps.choice.trans hf⟩

theorem Undisturbed.rewritten {trace : List Step} (h : cand.Undisturbed P fr trace m) :
    (k.rewritten cand).Undisturbed P fr trace m := by
  induction h with
  | initialised object before after =>
    exact .initialised object (choice_rewritten before) (choice_rewritten after)
  | step earlier keeps ih =>
    obtain ⟨f, hf⟩ := earlier.exists_choice
    exact .step ih ⟨keeps.pointer,
      (choice_rewritten (keeps.choice.trans hf)).trans (choice_rewritten hf).symm⟩

theorem Undisturbed.follows {trace trace' : List Step} (h : cand.Undisturbed P fr trace m)
    (hs : List.Forall₂ SameStep trace trace') : cand.Undisturbed P fr trace' m := by
  induction h generalizing trace' with
  | @initialised start m outer past f object before after =>
    cases hs with
    | @cons _ b _ _ hab _ =>
      obtain ⟨event, frame, mem⟩ := b
      obtain ⟨hevent, rfl, rfl⟩ := hab
      cases hevent
      exact .initialised object before after
  | @step before after event inner past earlier keeps ih =>
    cases hs with
    | @cons _ b _ _ hab hl =>
      obtain ⟨event', frame, mem⟩ := b
      obtain ⟨_, rfl, rfl⟩ := hab
      exact .step (ih hl) keeps

theorem Steady.follows {trace trace' : List Step} (h : cand.Steady P trace)
    (hs : List.Forall₂ SameStep trace trace') : cand.Steady P trace' := by
  intro callee f fr m past hsuffix href
  obtain ⟨early, hearly, hrel⟩ := exists_suffix_of_forall₂ hs hsuffix
  cases hrel with
  | @cons a _ past₀ _ hab hpast =>
    obtain ⟨event, frame, mem⟩ := a
    obtain ⟨hevent, rfl, rfl⟩ := hab
    cases hevent with
    | refl =>
      obtain ⟨hlookup, hquiet⟩ := h _ _ _ _ _ hearly href
      exact ⟨hlookup, hquiet.follows hpast⟩
    | called _ hcallee =>
      obtain ⟨hlookup, hquiet⟩ := h _ _ _ _ _ hearly (hcallee _ href)
      exact ⟨hlookup, hquiet.follows hpast⟩

theorem Steady.rewritten {trace : List Step} (h : cand.Steady P trace) :
    (k.rewritten cand).Steady P trace := fun callee f fr m past hsuffix href =>
  (h callee f fr m past hsuffix href).imp_right Undisturbed.rewritten

end DevirtCandidate

theorem functionFromExpr_rewriteCalls {e : Expr} {f : String} (h : functionFromExpr e = some f) :
    functionFromExpr (e.rewriteCalls k) = some f := by
  induction e with
  | functionRef => exact h
  | addrOf e ih | cast t e ih => exact ih h
  | _ => simp [functionFromExpr] at h

theorem stripCasts_rewriteCalls {e c a b : Expr} (h : e.stripCasts = .cond c a b) :
    (e.rewriteCalls k).stripCasts =
      .cond (c.rewriteCalls k) (a.rewriteCalls k) (b.rewriteCalls k) := by
  induction e with
  | cast t e ih => exact ih h
  | cond =>
    obtain ⟨rfl, rfl, rfl⟩ := Expr.cond.inj h
    rfl
  | _ => simp [Expr.stripCasts] at h

theorem DevirtCandidate.Initialises.rewritten {cand : DevirtCandidate} {v : InitializedName}
    {init : Option Expr} (h : cand.Initialises v init) :
    (k.rewritten cand).Initialises v (init.map (Expr.rewriteCalls k)) := by
  intro hv e' he'
  obtain ⟨e, rfl, rfl⟩ := Option.map_eq_some_iff.mp he'
  obtain ⟨a, b, hcond, ha, hb⟩ := h hv e rfl
  exact ⟨_, _, stripCasts_rewriteCalls hcond, functionFromExpr_rewriteCalls ha,
    functionFromExpr_rewriteCalls hb⟩

end

/-- The functions that have been called, the last one first. -/
def invoked (trace : List Step) : List Val :=
  trace.filterMap fun step => match step.event with
    | .called _ f => some f
    | _ => none

theorem invoked_eq_of_forall₂ {trace trace' : List Step}
    (h : List.Forall₂ SameStep trace trace') : invoked trace' = invoked trace := by
  induction h with
  | nil => rfl
  | @cons a b l l' hab _ ih =>
    have hevent := hab.event
    simp only [invoked] at ih ⊢
    rw [List.filterMap_cons, List.filterMap_cons, ih]
    generalize a.event = x at hevent ⊢
    generalize b.event = y at hevent ⊢
    cases hevent <;> rfl

/-- The runs call the same functions, and end in the same way. -/
structure SameRun (s t : Option Val × State) : Prop where
  invoked : invoked t.2.trace = invoked s.2.trace
  result : t.1 = s.1
  mem : t.2.mem = s.2.mem

theorem SameRun.trans {r s t : Option Val × State} (h : SameRun r s) (h' : SameRun s t) :
    SameRun r t :=
  ⟨h'.invoked.trans h.invoked, h'.result.trans h.result, h'.mem.trans h.mem⟩

theorem Program.mapExprs_mapExprs (f g : Expr → Expr) (prog : Program) :
    (prog.mapExprs g).mapExprs f = prog.mapExprs (f ∘ g) := by
  have hstmt : ∀ s : Stmt, (s.mapExprs g).mapExprs f = s.mapExprs (f ∘ g) := by
    intro s
    induction s with
    | seq a b iha ihb | ite c a b iha ihb => simp only [Stmt.mapExprs, iha, ihb, Function.comp_apply]
    | block b ih | whileLoop c b ih => simp only [Stmt.mapExprs, ih, Function.comp_apply]
    | forLoop i c u b ihi ihb => simp only [Stmt.mapExprs, ihi, ihb, Function.comp_apply]
    | decl v init => simp only [Stmt.mapExprs, Option.map_map]
    | returnStmt e => simp only [Stmt.mapExprs, Option.map_map]
    | _ => rfl
  simp only [Program.mapExprs, List.map_map, Function.comp_def, Option.map_map, hstmt]

section

variable {P : Platform} {fuel : Nat} {entry : String} {args : List Val} {m : Memory}

/-- What has to hold of the candidates whose calls are still to be rewritten. -/
structure Pending (P : Platform) (fuel : Nat) (entry : String) (args : List Val) (m : Memory)
    (prog : Program) (cand : DevirtCandidate) : Prop where
  type : isFunctionPointerType cand.var.type = true
  initialises : ∀ d ∈ prog.declarations, cand.Initialises d.1 d.2
  steady : cand.Steady P (prog.run P fuel entry args ⟨m, 0, []⟩).2.trace

theorem follows_run {prog : Program} {cand : DevirtCandidate}
    (h : Pending P fuel entry args m prog cand) :
    ((prog.mapExprs (Expr.rewriteCalls cand)).run P fuel entry args ⟨m, 0, []⟩).1 =
        (prog.run P fuel entry args ⟨m, 0, []⟩).1 ∧
      Follows (prog.run P fuel entry args ⟨m, 0, []⟩).2
        ((prog.mapExprs (Expr.rewriteCalls cand)).run P fuel entry args ⟨m, 0, []⟩).2 :=
  (Sim.run h.type prog h.initialises fuel entry args).follows _ _ ⟨rfl, rfl, .nil⟩
    (fun _ _ _ _ hm => absurd hm List.not_mem_nil) h.steady

theorem Pending.rewritten {prog : Program} {k cand : DevirtCandidate}
    (hk : Pending P fuel entry args m prog k) (h : Pending P fuel entry args m prog cand) :
    Pending P fuel entry args m (prog.mapExprs (Expr.rewriteCalls k)) (k.rewritten cand) where
  type := h.type
  initialises := by
    intro d hd
    rw [Program.declarations_mapExprs] at hd
    obtain ⟨d₀, hd₀, rfl⟩ := List.mem_map.mp hd
    exact (h.initialises d₀ hd₀).rewritten
  steady := (h.steady.follows (follows_run hk).2.trace).rewritten

theorem sameRun_rewriteCandidates {prog : Program} {cands : List DevirtCandidate}
    {g : Expr → Expr}
    (h : ∀ cand ∈ cands, Pending P fuel entry args m (prog.mapExprs g)
      { cand with condition := g cand.condition }) :
    SameRun ((prog.mapExprs g).run P fuel entry args ⟨m, 0, []⟩)
      ((prog.mapExprs (rewriteCandidates cands g)).run P fuel entry args ⟨m, 0, []⟩) := by
  induction cands generalizing g with
  | nil => exact ⟨rfl, rfl, rfl⟩
  | cons k cands ih =>
    have hk := h k List.mem_cons_self
    obtain ⟨hresult, hfollows⟩ := follows_run hk
    rw [Program.mapExprs_mapExprs] at hresult hfollows
    refine SameRun.trans ⟨invoked_eq_of_forall₂ hfollows.trace, hresult, hfollows.mem⟩
      (ih fun cand hcand => ?_)
    rw [← Program.mapExprs_mapExprs]
    exact hk.rewritten (h cand (List.mem_cons_of_mem _ hcand))

theorem candidateOf_eq_some {v : InitializedName} {init : Option Expr} {cand : DevirtCandidate}
    (h : candidateOf v init = some cand) :
    v = cand.var ∧ isFunctionPointerType cand.var.type = true ∧ cand.Initialises v init := by
  unfold candidateOf at h
  split at h
  next htype =>
    split at h
    next c a b hinit =>
      split at h
      next fa fb ha hb =>
        obtain rfl := Option.some.inj (Option.ite_none_left_eq_some.mp h).2
        refine ⟨rfl, htype, fun _ e he => ⟨a, b, ?_, ha, hb⟩⟩
        simpa [he] using hinit
      next => simp at h
    next => simp at h
  next => simp at h

theorem initialises_of_mem {prog : Program} {cand : DevirtCandidate}
    (h : cand ∈ findCandidates prog) :
    isFunctionPointerType cand.var.type = true ∧
      ∀ d ∈ prog.declarations, cand.Initialises d.1 d.2 := by
  obtain ⟨d, hd, hcand⟩ := List.mem_filterMap.mp h
  obtain ⟨hvar, htype, hinit⟩ := candidateOf_eq_some hcand
  refine ⟨htype, fun d' hd' => ?_⟩
  by_cases hv : d'.1 = cand.var
  · have heq : d' = d :=
      List.inj_on_of_nodup_map prog.declared_once hd' hd (hv.trans hvar.symm)
    rw [heq]
    exact hinit
  · exact fun h => absurd h hv

/-- In a run that leaves every function pointer alone from its initialiser to its calls, the
rewritten program calls, one after the other, the functions that the pointers hold. -/
theorem devirtualizeFunctionPointers_sameRun {prog : Program}
    (h : ∀ cand ∈ findCandidates prog,
      cand.Steady P (prog.run P fuel entry args ⟨m, 0, []⟩).2.trace) :
    SameRun (prog.run P fuel entry args ⟨m, 0, []⟩)
      ((devirtualizeFunctionPointers prog).run P fuel entry args ⟨m, 0, []⟩) := by
  have hid : prog.mapExprs id = prog := by
    have hstmt : ∀ s : Stmt, s.mapExprs id = s := by
      intro s
      induction s with
      | seq a b iha ihb | ite c a b iha ihb | forLoop c a b i iha ihb =>
        simp only [Stmt.mapExprs, iha, ihb, id_eq]
      | block b ih | whileLoop c b ih => simp only [Stmt.mapExprs, ih, id_eq]
      | decl v init => simp only [Stmt.mapExprs, Option.map_id, id_eq]
      | returnStmt e => simp only [Stmt.mapExprs, Option.map_id, id_eq]
      | _ => rfl
    simp [Program.mapExprs, hstmt]
  have hrun := @sameRun_rewriteCandidates P fuel entry args m prog (findCandidates prog) id
    fun cand hcand => by
      rw [hid]
      exact ⟨(initialises_of_mem hcand).1, (initialises_of_mem hcand).2, h cand hcand⟩
  rw [hid] at hrun
  exact hrun

end

def paramN : InitializedName := ⟨0, "n", .integer 32 true, .automatic⟩

def pointerOp : InitializedName := ⟨1, "op", .pointer .function, .automatic⟩

/-- `int main(int n) { op_t op = n ? scale : offset; between; return op(n); }` -/
def chooseAndCall (between : Stmt) (h : between.declarations = []) : Program where
  globals := []
  functions := [⟨"main", [paramN],
    .seq (.decl pointerOp (some (.cond (.varRef paramN) (.functionRef "scale")
        (.functionRef "offset"))))
      (.seq between (.returnStmt (some (.call (.varRef pointerOp)
        (.exprCons (.varRef paramN) .exprNil)))))⟩]
  declared_once := by simp [Stmt.declarations, h]

/-- The other functions are in a library and return 0. -/
def library : Platform := ⟨fun _ => 0, fun _ _ m => (.int 0, m)⟩

/-- `n = 2;` leaves the outcome of the condition as it was. -/
def stillTrue : Program :=
  chooseAndCall (.expr (.assign (.varRef paramN) (.intVal 2))) rfl

/-- `op = offset;` -/
def reassigned : Program :=
  chooseAndCall (.expr (.assign (.varRef pointerOp) (.functionRef "offset"))) rfl

theorem stillTrue_sameRun :
    (∀ cand ∈ findCandidates stillTrue, cand.Steady library
      (stillTrue.run library 2 "main" [.int 1] ⟨fun _ => .int 0, 0, []⟩).2.trace) ∧
    SameRun (stillTrue.run library 2 "main" [.int 1] ⟨fun _ => .int 0, 0, []⟩)
      ((devirtualizeFunctionPointers stillTrue).run library 2 "main" [.int 1]
        ⟨fun _ => .int 0, 0, []⟩) := by
  have h : ∀ cand ∈ findCandidates stillTrue, cand.Steady library
      (stillTrue.run library 2 "main" [.int 1] ⟨fun _ => .int 0, 0, []⟩).2.trace := by
    intro cand hcand callee f fr m past hsuffix _
    obtain rfl : cand = ⟨pointerOp, .varRef paramN, "scale", "offset"⟩ :=
      List.mem_singleton.mp hcand
    let m₁ : Memory := Function.update (fun _ => .int 0) ⟨1, paramN, 0⟩ (.int 1)
    let m₂ : Memory := Function.update m₁ ⟨1, pointerOp, 0⟩ (.function "scale")
    let m₃ : Memory := Function.update m₂ ⟨1, paramN, 0⟩ (.int 2)
    let inner : Frame := ⟨1, [pointerOp, paramN]⟩
    have htrace : (stillTrue.run library 2 "main" [.int 1] ⟨fun _ => .int 0, 0, []⟩).2.trace =
        [⟨.stored, ⟨0, []⟩, m₃⟩, ⟨.called (.varRef pointerOp) (.function "scale"), inner, m₃⟩,
          ⟨.stored, inner, m₃⟩, ⟨.initialised pointerOp m₁, inner, m₂⟩,
          ⟨.stored, ⟨1, [paramN]⟩, m₁⟩] := rfl
    rw [htrace] at hsuffix
    simp only [List.suffix_cons_iff, List.suffix_nil, List.cons.injEq, Step.mk.injEq, reduceCtorEq,
      false_and, Event.called.injEq, false_or, or_false] at hsuffix
    obtain ⟨⟨-, rfl, rfl⟩, rfl⟩ := hsuffix
    exact ⟨by decide, .step (.initialised rfl rfl rfl) ⟨rfl, rfl⟩⟩
  exact ⟨h, devirtualizeFunctionPointers_sameRun h⟩

/-- The call still chooses by the condition. -/
theorem reassigned_otherFunction :
    invoked ((devirtualizeFunctionPointers reassigned).run library 2 "main" [.int 1]
      ⟨fun _ => .int 0, 0, []⟩).2.trace ≠
    invoked (reassigned.run library 2 "main" [.int 1] ⟨fun _ => .int 0, 0, []⟩).2.trace := by
  decide

end LoomX.FunctionPointer
