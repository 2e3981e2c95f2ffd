import LoomX.FunctionPointer.Execution

namespace LoomX.FunctionPointer

/-- The function a bare reference or an address-of operation names. -/
def functionFromExpr : Expr → Option String
  | .functionRef f => some f
  | .addrOf e => functionFromExpr e
  | .cast _ e => functionFromExpr e
  | _ => none

def isVarRefTo (v : InitializedName) : Expr → Bool
  | .varRef w => w = v
  | _ => false

/-- A reference to the variable, below one cast at most. -/
def refersToVar (e : Expr) (v : InitializedName) : Bool :=
  match e with
  | .cast _ e => isVarRefTo v e
  | e => isVarRefTo v e

def isFunctionPointerType (t : SgType) : Bool :=
  match t.stripTypedefType with
  | .pointer base => base.findBaseType = .function
  | _ => false

def Expr.stripCasts : Expr → Expr
  | .cast _ e => e.stripCasts
  | e => e

structure DevirtCandidate where
  var : InitializedName
  condition : Expr
  funcA : String
  funcB : String
  deriving DecidableEq, Repr

/-- A function pointer that is initialised with a conditional of two functions. -/
def candidateOf (v : InitializedName) (init : Option Expr) : Option DevirtCandidate :=
  if isFunctionPointerType v.type then
    match init.map Expr.stripCasts with
    | some (.cond c a b) =>
      match functionFromExpr a, functionFromExpr b with
      | some fa, some fb => if fa = fb then none else some ⟨v, c, fa, fb⟩
      | _, _ => none
    | _ => none
  else none

def findCandidates (prog : Program) : List DevirtCandidate :=
  prog.declarations.filterMap fun d => candidateOf d.1 d.2

namespace Expr

/-- Each call through the variable becomes a conditional of two direct calls. A call in the
arguments of one that is replaced is freed with it, the copies keep it. -/
def rewriteCalls (cand : DevirtCandidate) : Expr → Expr
  | intVal n => intVal n
  | functionRef f => functionRef f
  | varRef v => varRef v
  | arrRef b i => arrRef (b.rewriteCalls cand) (i.rewriteCalls cand)
  | deref e => deref (e.rewriteCalls cand)
  | member e f => member (e.rewriteCalls cand) f
  | addrOf e => addrOf (e.rewriteCalls cand)
  | cast t e => cast t (e.rewriteCalls cand)
  | unary op e => unary op (e.rewriteCalls cand)
  | binary op a b => binary op (a.rewriteCalls cand) (b.rewriteCalls cand)
  | cond c a b => cond (c.rewriteCalls cand) (a.rewriteCalls cand) (b.rewriteCalls cand)
  | assign l r => assign (l.rewriteCalls cand) (r.rewriteCalls cand)
  | compound op l r => compound op (l.rewriteCalls cand) (r.rewriteCalls cand)
  | plusPlus before e => plusPlus before (e.rewriteCalls cand)
  | minusMinus before e => minusMinus before (e.rewriteCalls cand)
  | call f args =>
    if refersToVar f cand.var then
      cond cand.condition (call (functionRef cand.funcA) args) (call (functionRef cand.funcB) args)
    else call (f.rewriteCalls cand) (args.rewriteCalls cand)
  | exprNil => exprNil
  | exprCons e es => exprCons (e.rewriteCalls cand) (es.rewriteCalls cand)

end Expr

def Stmt.mapExprs (g : Expr → Expr) : Stmt → Stmt
  | empty => empty
  | expr e => expr (g e)
  | decl v init => decl v (init.map g)
  | block b => block (b.mapExprs g)
  | seq a b => seq (a.mapExprs g) (b.mapExprs g)
  | ite c a b => ite (g c) (a.mapExprs g) (b.mapExprs g)
  | whileLoop c b => whileLoop (g c) (b.mapExprs g)
  | forLoop i c u b => forLoop (i.mapExprs g) (g c) (g u) (b.mapExprs g)
  | breakStmt => breakStmt
  | continueStmt => continueStmt
  | returnStmt e => returnStmt (e.map g)

theorem Stmt.declarations_mapExprs (g : Expr → Expr) (s : Stmt) :
    (s.mapExprs g).declarations = s.declarations.map fun d => (d.1, d.2.map g) := by
  induction s with
  | block b ih | whileLoop c b ih => exact ih
  | seq a b iha ihb | ite c a b iha ihb | forLoop i c u b iha ihb =>
    simp only [mapExprs, declarations, iha, ihb, List.map_append]
  | _ => rfl

namespace Program

theorem declarations_mapped (g : Expr → Expr) (globals : List (InitializedName × Option Expr))
    (functions : List FunctionDefinition) :
    (globals.map fun d => (d.1, d.2.map g)) ++
        (functions.map fun f => { f with body := f.body.mapExprs g }).flatMap
          (·.body.declarations) =
      (globals ++ functions.flatMap (·.body.declarations)).map fun d => (d.1, d.2.map g) := by
  simp only [List.map_append, List.flatMap_map, List.map_flatMap, Stmt.declarations_mapExprs]

/-- The expressions of a program, replaced where they stand. -/
def mapExprs (g : Expr → Expr) (prog : Program) : Program where
  globals := prog.globals.map fun d => (d.1, d.2.map g)
  functions := prog.functions.map fun f => { f with body := f.body.mapExprs g }
  declared_once := by
    rw [declarations_mapped, List.map_map]
    exact prog.declared_once

theorem declarations_mapExprs (g : Expr → Expr) (prog : Program) :
    (prog.mapExprs g).declarations = prog.declarations.map fun d => (d.1, d.2.map g) :=
  declarations_mapped g prog.globals prog.functions

end Program

/-- The calls through one candidate after another. `g` is what has been done to every expression
so far, so also to the conditions that are still to be copied. -/
def rewriteCandidates : List DevirtCandidate → (Expr → Expr) → Expr → Expr
  | [], g => g
  | cand :: rest, g =>
    rewriteCandidates rest
      (Expr.rewriteCalls { cand with condition := g cand.condition } ∘ g)

def devirtualizeFunctionPointers (prog : Program) : Program :=
  prog.mapExprs (rewriteCandidates (findCandidates prog) id)

namespace Expr

mutual

/-- The value of an expression whose evaluation calls and stores nothing and whose names mean in
the frame what they meant. -/
def peek (P : Platform) (fr : Frame) (m : Memory) : Expr → Option Val
  | intVal n => some (.int n)
  | functionRef f => if fr.find f = none then some (.function f) else none
  | varRef v => if fr.lookup v = v then some (fr.value m v) else none
  | arrRef b i => do
    let p ← b.peek P fr m
    let k ← i.peek P fr m
    let a ← Val.binary .add p k
    a.load m
  | deref e => do
    let p ← e.peek P fr m
    p.load m
  | member e f => do
    let p ← e.peekLocate P fr m
    let a ← p.add (P.offset f)
    a.load m
  | addrOf e => e.peekLocate P fr m
  | cast t e => do
    let v ← e.peek P fr m
    pure (v.convert t)
  | unary op e => do
    let v ← e.peek P fr m
    v.unary op
  | binary op a b => do
    let v ← a.peek P fr m
    if v.goesOn op then do
      let w ← b.peek P fr m
      Val.binary op v w
    else Val.binary op v v
  | cond c a b => do
    let v ← c.peek P fr m
    if v.truthy then a.peek P fr m else b.peek P fr m
  | _ => none

def peekLocate (P : Platform) (fr : Frame) (m : Memory) : Expr → Option Val
  | functionRef f => if fr.find f = none then some (.function f) else none
  | varRef v => if fr.lookup v = v then some (.pointer (fr.object v)) else none
  | arrRef b i => do
    let p ← b.peek P fr m
    let k ← i.peek P fr m
    Val.binary .add p k
  | deref e => e.peek P fr m
  | member e f => do
    let p ← e.peekLocate P fr m
    p.add (P.offset f)
  | cast _ e => e.peekLocate P fr m
  | _ => none

end

end Expr

section

variable {P : Platform} {call : String → List Val → Run Val} {fr : Frame}

theorem Run.lift_apply {α : Type} (a : Option α) (s : State) : Run.lift a s = (a, s) := rfl

theorem load_apply (p : Val) (s : State) : load p s = (p.load s.mem, s) := rfl

theorem Run.bind_of_some {α β : Type} {x : Run α} {s : State} {a : α} (h : x s = (some a, s))
    (f : α → Run β) : (x >>= f) s = f a s := Run.bind_of_eq h f

/-- Where peeking gives a value, evaluation gives it and changes nothing. -/
theorem eval_of_peek {e : Expr} {s : State} :
    (∀ v, e.peek P fr s.mem = some v → e.eval P call fr s = (some v, s)) ∧
      ∀ v, e.peekLocate P fr s.mem = some v → e.locate P call fr s = (some v, s) := by
  induction e with
  | intVal n =>
    refine ⟨fun v h => ?_, fun v h => by simp [Expr.peekLocate] at h⟩
    rw [← Option.some.inj h]
    rfl
  | functionRef f =>
    refine ⟨fun v h => ?_, fun v h => ?_⟩ <;>
    · simp only [Expr.peek, Expr.peekLocate, Option.ite_none_right_eq_some] at h
      rw [← h.2]
      simp only [Expr.eval, Expr.locate, h.1]
      rfl
  | varRef w =>
    refine ⟨fun v h => ?_, fun v h => ?_⟩ <;>
    · simp only [Expr.peek, Expr.peekLocate, Option.ite_none_right_eq_some] at h
      rw [← h.2]
      simp only [Expr.eval, Expr.locate, h.1]
      rfl
  | arrRef b i ihb ihi =>
    refine ⟨fun v h => ?_, fun v h => ?_⟩
    · simp only [Expr.peek, Option.bind_eq_bind, Option.bind_eq_some_iff] at h
      obtain ⟨p, hp, k, hk, a, ha, hv⟩ := h
      rw [Expr.eval, Run.bind_of_some (ihb.1 p hp), Run.bind_of_some (ihi.1 k hk), ha,
        Run.bind_of_some (Run.lift_apply _ s), load_apply, hv]
    · simp only [Expr.peekLocate, Option.bind_eq_bind, Option.bind_eq_some_iff] at h
      obtain ⟨p, hp, k, hk, hv⟩ := h
      rw [Expr.locate, Run.bind_of_some (ihb.1 p hp), Run.bind_of_some (ihi.1 k hk), hv]
      rfl
  | deref e ih =>
    refine ⟨fun v h => ?_, fun v h => ih.1 v h⟩
    simp only [Expr.peek, Option.bind_eq_bind, Option.bind_eq_some_iff] at h
    obtain ⟨p, hp, hv⟩ := h
    rw [Expr.eval, Run.bind_of_some (ih.1 p hp), load_apply, hv]
  | member e f ih =>
    refine ⟨fun v h => ?_, fun v h => ?_⟩
    · simp only [Expr.peek, Option.bind_eq_bind, Option.bind_eq_some_iff] at h
      obtain ⟨p, hp, a, ha, hv⟩ := h
      rw [Expr.eval, Run.bind_of_some (ih.2 p hp), ha, Run.bind_of_some (Run.lift_apply _ s),
        load_apply, hv]
    · simp only [Expr.peekLocate, Option.bind_eq_bind, Option.bind_eq_some_iff] at h
      obtain ⟨p, hp, hv⟩ := h
      rw [Expr.locate, Run.bind_of_some (ih.2 p hp), hv]
      rfl
  | addrOf e ih => exact ⟨fun v h => ih.2 v h, fun v h => by simp [Expr.peekLocate] at h⟩
  | cast t e ih =>
    refine ⟨fun v h => ?_, fun v h => ih.2 v h⟩
    simp only [Expr.peek, Option.bind_eq_bind, Option.bind_eq_some_iff] at h
    obtain ⟨w, hw, hv⟩ := h
    rw [Expr.eval, Run.bind_of_some (ih.1 w hw), ← Option.some.inj hv]
    rfl
  | unary op e ih =>
    refine ⟨fun v h => ?_, fun v h => by simp [Expr.peekLocate] at h⟩
    simp only [Expr.peek, Option.bind_eq_bind, Option.bind_eq_some_iff] at h
    obtain ⟨w, hw, hv⟩ := h
    rw [Expr.eval, Run.bind_of_some (ih.1 w hw), hv]
    rfl
  | binary op a b iha ihb =>
    refine ⟨fun v h => ?_, fun v h => by simp [Expr.peekLocate] at h⟩
    simp only [Expr.peek, Option.bind_eq_bind, Option.bind_eq_some_iff] at h
    obtain ⟨w, hw, h⟩ := h
    rw [Expr.eval, Run.bind_of_some (iha.1 w hw)]
    split at h
    next hgo =>
      obtain ⟨u, hu, hv⟩ := Option.bind_eq_some_iff.mp h
      rw [if_pos hgo, Run.bind_of_some (ihb.1 u hu), hv]
      rfl
    next hgo =>
      rw [if_neg hgo, h]
      rfl
  | cond c a b ihc iha ihb =>
    refine ⟨fun v h => ?_, fun v h => by simp [Expr.peekLocate] at h⟩
    simp only [Expr.peek, Option.bind_eq_bind, Option.bind_eq_some_iff] at h
    obtain ⟨w, hw, h⟩ := h
    rw [Expr.eval, Run.bind_of_some (ihc.1 w hw)]
    split at h
    next ht => rw [if_pos ht, iha.1 v h]
    next ht => rw [if_neg ht, ihb.1 v h]
  | assign | compound | plusPlus | minusMinus | call | exprNil | exprCons =>
    exact ⟨fun v h => by simp [Expr.peek] at h, fun v h => by simp [Expr.peekLocate] at h⟩

end

namespace DevirtCandidate

/-- The function that a copy of the conditional chooses where it calls and stores nothing; the
names have to mean what they meant. -/
def choice (P : Platform) (fr : Frame) (m : Memory) (cand : DevirtCandidate) : Option String := do
  let v ← cand.condition.peek P fr m
  let f := if v.truthy then cand.funcA else cand.funcB
  if fr.find f = none then some f else none

/-- A step that leaves the pointer and the choice as they are. -/
structure Keeps (P : Platform) (cand : DevirtCandidate) (fr : Frame) (before after : Memory) :
    Prop where
  pointer : after (fr.object cand.var) = before (fr.object cand.var)
  choice : cand.choice P fr after = cand.choice P fr before

/-- Since the pointer of the frame was initialised, every step has left it and the choice as
they are, the initialisation the choice. -/
inductive Undisturbed (P : Platform) (cand : DevirtCandidate) (fr : Frame) :
    List Step → Memory → Prop
  | initialised {start m : Memory} {outer : Frame} {past : List Step} {f : String}
      (object : outer.object cand.var = fr.object cand.var)
      (before : cand.choice P outer start = some f) (after : cand.choice P fr m = some f) :
      Undisturbed P cand fr (⟨.initialised cand.var start, outer, m⟩ :: past) m
  | step {before after : Memory} {event : Event} {inner : Frame} {past : List Step}
      (earlier : Undisturbed P cand fr past before) (keeps : cand.Keeps P fr before after) :
      Undisturbed P cand fr (⟨event, inner, after⟩ :: past) after

/-- At every call through the pointer that the run reaches, its name is the pointer's, and it
has been left alone. -/
def Steady (P : Platform) (cand : DevirtCandidate) (trace : List Step) : Prop :=
  ∀ callee f fr m past, ⟨.called callee f, fr, m⟩ :: past <:+ trace →
    refersToVar callee cand.var = true →
    fr.lookup cand.var = cand.var ∧ cand.Undisturbed P fr past m

/-- Each initialisation of the pointer has stored what was chosen before it. -/
def Declared (P : Platform) (cand : DevirtCandidate) (trace : List Step) : Prop :=
  ∀ start fr m f, ⟨.initialised cand.var start, fr, m⟩ ∈ trace →
    cand.choice P fr start = some f → m (fr.object cand.var) = .function f

section

variable {P : Platform} {cand : DevirtCandidate} {fr : Frame}

theorem Steady.of_suffix {trace later : List Step} (h : cand.Steady P later)
    (hs : trace <:+ later) : cand.Steady P trace :=
  fun callee f fr m past hm => h callee f fr m past (hm.trans hs)

/-- The pointer holds what the condition chooses. -/
theorem Undisturbed.holds {trace : List Step} {m : Memory} (h : cand.Undisturbed P fr trace m)
    (hd : cand.Declared P trace) :
    ∃ f, cand.choice P fr m = some f ∧ m (fr.object cand.var) = .function f := by
  induction h with
  | @initialised start m outer past f object before after =>
    refine ⟨f, after, ?_⟩
    rw [← object]
    exact hd start outer m f List.mem_cons_self before
  | @step before after event inner past earlier keeps ih =>
    obtain ⟨f, hf, hp⟩ := ih fun start fr m f hm => hd start fr m f (List.mem_cons_of_mem _ hm)
    exact ⟨f, keeps.choice.trans hf, keeps.pointer.trans hp⟩

theorem choice_eq_some {m : Memory} {f : String} (h : cand.choice P fr m = some f) :
    ∃ v, cand.condition.peek P fr m = some v ∧
      f = (if v.truthy then cand.funcA else cand.funcB) ∧ fr.find f = none := by
  simp only [choice, Option.bind_eq_bind, Option.bind_eq_some_iff,
    Option.ite_none_right_eq_some] at h
  obtain ⟨v, hv, hf, heq⟩ := h
  obtain rfl := Option.some.inj heq
  exact ⟨v, hv, rfl, hf⟩

end

end DevirtCandidate

end LoomX.FunctionPointer
