import LoomX.FlowEquations

namespace LoomX

/-- A list of distinct items, and the items by which it is searched. -/
structure DistinctList (T : Type) where
  items : List T
  position : Finset T
  nodup : items.Nodup
  mem_position : ∀ x, x ∈ position ↔ x ∈ items

namespace DistinctList

variable {T : Type}

def empty : DistinctList T := ⟨[], ∅, .nil, by simp⟩

def isEmpty (l : DistinctList T) : Bool := l.items.isEmpty

variable [DecidableEq T]

def pushBack (l : DistinctList T) (item : T) : DistinctList T :=
  if h : item ∈ l.position then l
  else
    { items := l.items ++ [item]
      position := insert item l.position
      nodup := by
        refine l.nodup.append (List.nodup_singleton item) ?_
        simpa using (l.mem_position item).not.mp h
      mem_position := by simp [l.mem_position, or_comm] }

/-- The front item and the list without it; none where the source throws. -/
def popFront (l : DistinctList T) : Option (T × DistinctList T) :=
  match h : l.items with
  | [] => none
  | item :: rest =>
    some (item,
      { items := rest
        position := l.position.erase item
        nodup := (List.nodup_cons.mp (h ▸ l.nodup)).2
        mem_position := by
          have hnot := (List.nodup_cons.mp (h ▸ l.nodup)).1
          intro x
          rw [Finset.mem_erase, l.mem_position, h, List.mem_cons]
          constructor
          · rintro ⟨hne, hx⟩
            exact hx.resolve_left hne
          · exact fun hx => ⟨fun heq => hnot (heq ▸ hx), .inr hx⟩ })

theorem items_pushBack (l : DistinctList T) (item : T) :
    (l.pushBack item).items = if item ∈ l.items then l.items else l.items ++ [item] := by
  unfold pushBack
  split
  next h => rw [if_pos ((l.mem_position item).mp h)]
  next h => rw [if_neg ((l.mem_position item).not.mp h)]

theorem mem_pushBack {l : DistinctList T} {item x : T} :
    x ∈ (l.pushBack item).items ↔ x ∈ l.items ∨ x = item := by
  rw [items_pushBack]
  split
  next h =>
    constructor
    · exact .inl
    · rintro (hx | rfl)
      · exact hx
      · exact h
  next => simp

theorem popFront_none {l : DistinctList T} (h : l.popFront = none) : l.items = [] := by
  unfold popFront at h
  split at h
  next heq => exact heq
  next => cases h

theorem popFront_some {l rest : DistinctList T} {item : T} (h : l.popFront = some (item, rest)) :
    l.items = item :: rest.items := by
  unfold popFront at h
  split at h
  next => cases h
  next heq =>
    cases h
    exact heq

end DistinctList

/-- The vertices with their edges to others, in the order in which they are followed. -/
structure ControlFlow (n : Nat) (E : Type) where
  outEdges : Fin n → List E
  target : E → Fin n

def ControlFlow.Edge {n : Nat} {E : Type} (cfg : ControlFlow n E) (v u : Fin n) : Prop :=
  ∃ e ∈ cfg.outEdges v, cfg.target e = u

/-- What an engine is constructed from. -/
structure DataFlow (n : Nat) (E S : Type) where
  cfg : ControlFlow n E
  xfer : Fin n → S → S
  merge : Fin n → S → Fin n → S → S × Bool
  isFeasible : E → S → S → Bool

structure NotConverging where
  maxIterations : Nat

structure Engine (n : Nat) (S : Type) where
  incomingState : Fin n → S
  outgoingState : Fin n → S
  workList : DistinctList (Fin n)
  maxIterations : Nat
  nIterations : Nat

namespace Engine

variable {n : Nat} {E S : Type}

def reset (e : Engine n S) (initialState : S) : Engine n S where
  incomingState := fun _ => initialState
  outgoingState := fun _ => initialState
  workList := .empty
  maxIterations := e.maxIterations
  nIterations := 0

def insertStartingVertex (e : Engine n S) (startVertexId : Fin n) (initialState : S) :
    Engine n S :=
  { e with
    incomingState := Function.update e.incomingState startVertexId initialState
    workList := e.workList.pushBack startVertexId }

variable (p : DataFlow n E S)

/-- Merges an outgoing state into an incoming state. -/
def mergeInto (cfgVertexId : Fin n) (state : S) (e : Engine n S) (nextVertexId : Fin n) :
    Engine n S :=
  let merged := p.merge nextVertexId (e.incomingState nextVertexId) cfgVertexId state
  { e with
    incomingState := Function.update e.incomingState nextVertexId merged.1
    workList := if merged.2 then e.workList.pushBack nextVertexId else e.workList }

def forward (cfgVertexId : Fin n) (state : S) (e : Engine n S) (edge : E) : Engine n S :=
  if !p.isFeasible edge state (e.incomingState (p.cfg.target edge)) then e
  else mergeInto p cfgVertexId state e (p.cfg.target edge)

def pop (e : Engine n S) (nIterations : Nat) (rest : DistinctList (Fin n)) : Engine n S :=
  { e with nIterations := nIterations, workList := rest }

def setOutgoing (e : Engine n S) (cfgVertexId : Fin n) (state : S) : Engine n S :=
  { e with outgoingState := Function.update e.outgoingState cfgVertexId state }

/-- One vertex whose transfer function is run, and whose outgoing state is forwarded. -/
def visit (cfgVertexId : Fin n) (e : Engine n S) : Engine n S :=
  let state := p.xfer cfgVertexId (e.incomingState cfgVertexId)
  (p.cfg.outEdges cfgVertexId).foldl (forward p cfgVertexId state) (e.setOutgoing cfgVertexId state)

/-- The counter is a `size_t`. -/
def runOneIteration (e : Engine n S) : Engine n S × Except NotConverging Bool :=
  match e.workList.popFront with
  | none => (e, .ok (!e.workList.isEmpty))
  | some (cfgVertexId, rest) =>
    let nIterations := (e.nIterations + 1) % 2 ^ 64
    if e.maxIterations < nIterations then
      (e.pop nIterations e.workList, .error ⟨e.maxIterations⟩)
    else
      let e' := visit p cfgVertexId (e.pop nIterations rest)
      (e', .ok (!e'.workList.isEmpty))

/-- The loop of `runToFixedPoint`, none where the fuel does not suffice. -/
def runToFixedPoint : Nat → Engine n S → Option (Engine n S × Except NotConverging Unit)
  | 0, _ => none
  | fuel + 1, e =>
    match runOneIteration p e with
    | (e', .error x) => some (e', .error x)
    | (e', .ok false) => some (e', .ok ())
    | (e', .ok true) => runToFixedPoint fuel e'

def insertStartingVertices (e : Engine n S) (starts : List (Fin n × S)) : Engine n S :=
  starts.foldl (fun e start => e.insertStartingVertex start.1 start.2) e

variable {p}

theorem incomingState_mergeInto (v : Fin n) (state : S) (e : Engine n S) (t u : Fin n) :
    (mergeInto p v state e t).incomingState u =
      if u = t then (p.merge t (e.incomingState t) v state).1 else e.incomingState u :=
  Function.update_apply ..

theorem runOneIteration_nil {e : Engine n S} (h : e.workList.items = []) :
    runOneIteration p e = (e, .ok false) := by
  unfold runOneIteration
  split
  next => simp [DistinctList.isEmpty, h]
  next hpop =>
    rw [DistinctList.popFront_some hpop] at h
    cases h

theorem runOneIteration_cons {e : Engine n S} (h : e.workList.items ≠ []) :
    ∃ v rest, e.workList.items = v :: rest.items ∧
      runOneIteration p e =
        if e.maxIterations < (e.nIterations + 1) % 2 ^ 64 then
          (e.pop ((e.nIterations + 1) % 2 ^ 64) e.workList, .error ⟨e.maxIterations⟩)
        else
          (visit p v (e.pop ((e.nIterations + 1) % 2 ^ 64) rest),
            .ok (!(visit p v (e.pop ((e.nIterations + 1) % 2 ^ 64) rest)).workList.isEmpty)) := by
  unfold runOneIteration
  split
  next hpop => exact absurd (DistinctList.popFront_none hpop) h
  next v rest hpop => exact ⟨v, rest, DistinctList.popFront_some hpop, rfl⟩

theorem workList_mergeInto (v : Fin n) (state : S) (e : Engine n S) (t : Fin n) :
    (mergeInto p v state e t).workList =
      if (p.merge t (e.incomingState t) v state).2 then e.workList.pushBack t else e.workList :=
  rfl

/-- What one visit keeps is kept by the whole loop. -/
theorem run_invariant {P : Engine n S → Prop}
    (hstep : ∀ e v rest count, P e → e.workList.items = v :: rest.items →
      P (visit p v (e.pop count rest)))
    {fuel : Nat} {e e' : Engine n S} (hrun : runToFixedPoint p fuel e = some (e', .ok ()))
    (h : P e) : P e' ∧ e'.workList.items = [] := by
  induction fuel generalizing e with
  | zero => cases hrun
  | succ fuel ih =>
    unfold runToFixedPoint at hrun
    by_cases hempty : e.workList.items = []
    · rw [runOneIteration_nil hempty] at hrun
      cases hrun
      exact ⟨h, hempty⟩
    · obtain ⟨v, rest, hpop, hone⟩ := runOneIteration_cons (p := p) hempty
      split at hone
      next =>
        rw [hone] at hrun
        cases hrun
      next =>
        have hvisit := hstep e v rest ((e.nIterations + 1) % 2 ^ 64) h hpop
        generalize visit p v (e.pop ((e.nIterations + 1) % 2 ^ 64) rest) = e₁ at hone hvisit
        rw [hone] at hrun
        cases hmore : e₁.workList.isEmpty with
        | true =>
          rw [hmore] at hrun
          cases hrun
          exact ⟨hvisit, List.isEmpty_iff.mp hmore⟩
        | false =>
          rw [hmore] at hrun
          exact ih hrun hvisit

theorem run_mono {e : Engine n S} {fuel fuel' : Nat}
    {result : Engine n S × Except NotConverging Unit}
    (hrun : runToFixedPoint p fuel e = some result) (hle : fuel ≤ fuel') :
    runToFixedPoint p fuel' e = some result := by
  induction fuel generalizing e fuel' with
  | zero => cases hrun
  | succ fuel ih =>
    obtain ⟨fuel', rfl⟩ : ∃ m, fuel' = m + 1 := ⟨fuel' - 1, by omega⟩
    unfold runToFixedPoint at hrun ⊢
    split at hrun
    next => exact hrun
    next => exact hrun
    next => exact ih hrun (by omega)

theorem insertStartingVertices_cases (e : Engine n S) (starts : List (Fin n × S)) (v : Fin n) :
    ((∀ s, (v, s) ∉ starts) ∧
        (e.insertStartingVertices starts).incomingState v = e.incomingState v) ∨
      ∃ s, (v, s) ∈ starts ∧ (e.insertStartingVertices starts).incomingState v = s := by
  induction starts generalizing e with
  | nil => exact .inl ⟨fun s => List.not_mem_nil, rfl⟩
  | cons start starts ih =>
    obtain ⟨u, s⟩ := start
    rcases ih (e.insertStartingVertex u s) with ⟨hnot, heq⟩ | ⟨t, ht, heq⟩
    · have heq : _ = Function.update e.incomingState u s v := heq
      rw [Function.update_apply] at heq
      split at heq
      next hv => exact .inr ⟨s, by simp [hv], heq⟩
      next hv => exact .inl ⟨by simp [hv, hnot], heq⟩
    · exact .inr ⟨t, List.mem_cons_of_mem _ ht, heq⟩

theorem mem_insertStartingVertices (e : Engine n S) (starts : List (Fin n × S)) {v : Fin n} :
    v ∈ (e.insertStartingVertices starts).workList.items ↔
      v ∈ e.workList.items ∨ ∃ s, (v, s) ∈ starts := by
  induction starts generalizing e with
  | nil => simp [insertStartingVertices]
  | cons start starts ih =>
    show v ∈ ((e.insertStartingVertex start.1 start.2).insertStartingVertices
      starts).workList.items ↔ _
    rw [ih]
    show v ∈ (e.workList.pushBack start.1).items ∨ _ ↔ _
    rw [DistinctList.mem_pushBack, or_assoc]
    obtain ⟨u, s⟩ := start
    simp only [List.mem_cons, Prod.mk.injEq, exists_or, exists_and_left, exists_eq, and_true]

theorem insertStartingVertices_fresh (e : Engine n S) (starts : List (Fin n × S)) {v : Fin n}
    (h : v ∉ (e.insertStartingVertices starts).workList.items) :
    (e.insertStartingVertices starts).incomingState v = e.incomingState v := by
  rcases insertStartingVertices_cases e starts v with ⟨_, heq⟩ | ⟨s, hs, _⟩
  · exact heq
  · exact absurd ((mem_insertStartingVertices e starts).mpr (.inr ⟨s, hs⟩)) h

/-- An engine that was reset and given its starting vertices. -/
def started (e : Engine n S) (initial : S) (starts : List (Fin n × S)) : Engine n S :=
  (e.reset initial).insertStartingVertices starts

theorem started_ne {e : Engine n S} {initial : S} {starts : List (Fin n × S)}
    (hstarts : ∀ start ∈ starts, start.2 ≠ initial) {v : Fin n}
    (hv : v ∈ (e.started initial starts).workList.items) :
    (e.started initial starts).incomingState v ≠ initial := by
  rcases insertStartingVertices_cases (e.reset initial) starts v with ⟨hnot, _⟩ | ⟨s, hs, heq⟩
  · obtain hv | ⟨s, hs⟩ := (mem_insertStartingVertices (e.reset initial) starts).mp hv
    · cases hv
    · exact absurd hs (hnot s)
  · rw [started, heq]
    exact hstarts _ hs

theorem run_of_visit {e e' : Engine n S} {more : Bool} (h : runOneIteration p e = (e', .ok more))
    {fuel : Nat} {result : Engine n S × Except NotConverging Unit}
    (hrun : runToFixedPoint p fuel e' = some result) :
    ∃ fuel' result', runToFixedPoint p fuel' e = some result' ∧
      (result.2 = .ok () → result'.2 = .ok ()) := by
  cases more with
  | false => exact ⟨1, (e', .ok ()), by simp [runToFixedPoint, h], fun _ => rfl⟩
  | true => exact ⟨fuel + 1, result, by simp [runToFixedPoint, h, hrun], id⟩

theorem insertStartingVertices_kept (e : Engine n S) (starts : List (Fin n × S)) :
    (e.insertStartingVertices starts).outgoingState = e.outgoingState ∧
      (e.insertStartingVertices starts).maxIterations = e.maxIterations := by
  induction starts generalizing e with
  | nil => exact ⟨rfl, rfl⟩
  | cons start starts ih => exact ih (e.insertStartingVertex start.1 start.2)

end Engine

namespace DataFlow

variable {n : Nat} {E S : Type} [PartialOrder S] (p : DataFlow n E S)

/-- What the engine relies on for a merge: the destination comes to account for both states, and
it is unchanged where the merge says so. -/
structure LawfulMerge : Prop where
  le_left : ∀ u d v s, d ≤ (p.merge u d v s).1
  le_right : ∀ u d v s, s ≤ (p.merge u d v s).1
  unchanged : ∀ u d v s, (p.merge u d v s).2 = false → (p.merge u d v s).1 = d

/-- An edge that is not followed stays so when more enters its target. -/
def SteadyFeasibility : Prop :=
  ∀ edge s t t', t ≤ t' → p.isFeasible edge s t' = true → p.isFeasible edge s t = true

/-- An edge is followed or not whatever has entered its target. -/
def OwnFeasibility : Prop :=
  ∀ edge s t t', p.isFeasible edge s t = p.isFeasible edge s t'

/-- The merge joins, and no transfer function gives the state of a vertex that was not reached,
which is below all others. -/
structure JoinsFrom (initial : S) : Prop extends LawfulMerge p where
  least : ∀ u d v s x, d ≤ x → s ≤ x → (p.merge u d v s).1 ≤ x
  bot : ∀ s, initial ≤ s
  live : ∀ v s, s ≠ initial → p.xfer v s ≠ initial

end DataFlow

namespace Engine

variable {n : Nat} {E S : Type} [PartialOrder S] {p : DataFlow n E S}

/-- What the loop over some edges of a vertex does. -/
structure Forwarded (p : DataFlow n E S) (state : S) (edges : List E) (e e' : Engine n S) :
    Prop where
  outgoing : e'.outgoingState = e.outgoingState
  maxIterations : e'.maxIterations = e.maxIterations
  grows : ∀ u, e.incomingState u ≤ e'.incomingState u
  queued : ∀ u ∈ e.workList.items, u ∈ e'.workList.items
  changed : ∀ u, u ∈ e'.workList.items ∨ e'.incomingState u = e.incomingState u
  merged : ∀ edge ∈ edges, p.isFeasible edge state (e'.incomingState (p.cfg.target edge)) = true →
    state ≤ e'.incomingState (p.cfg.target edge)

theorem Forwarded.refl (p : DataFlow n E S) (state : S) (e : Engine n S) :
    Forwarded p state [] e e where
  outgoing := rfl
  maxIterations := rfl
  grows := fun _ => le_rfl
  queued := fun _ h => h
  changed := fun _ => .inr rfl
  merged := by simp

theorem Forwarded.trans (hfeasible : p.SteadyFeasibility) {state : S} {l l' : List E}
    {e e' e'' : Engine n S} (h : Forwarded p state l e e') (h' : Forwarded p state l' e' e'') :
    Forwarded p state (l ++ l') e e'' where
  outgoing := h'.outgoing.trans h.outgoing
  maxIterations := h'.maxIterations.trans h.maxIterations
  grows := fun u => (h.grows u).trans (h'.grows u)
  queued := fun u hu => h'.queued u (h.queued u hu)
  changed := by
    intro u
    rcases h.changed u with hu | hu
    · exact .inl (h'.queued u hu)
    · rcases h'.changed u with hu' | hu'
      · exact .inl hu'
      · exact .inr (hu'.trans hu)
  merged := by
    intro edge hedge hf
    rcases List.mem_append.mp hedge with hl | hl
    · have hgrow := h'.grows (p.cfg.target edge)
      exact (h.merged edge hl (hfeasible _ _ _ _ hgrow hf)).trans hgrow
    · exact h'.merged edge hl hf

theorem forwarded_mergeInto (hmerge : p.LawfulMerge) (v : Fin n) (state : S) (e : Engine n S)
    (edge : E) : Forwarded p state [edge] e (mergeInto p v state e (p.cfg.target edge)) := by
  constructor
  case outgoing => rfl
  case maxIterations => rfl
  case grows =>
    intro u
    rw [incomingState_mergeInto]
    split
    next hu =>
      subst hu
      exact hmerge.le_left ..
    next => exact le_rfl
  case queued =>
    intro u hu
    rw [workList_mergeInto]
    split
    next => exact DistinctList.mem_pushBack.mpr (.inl hu)
    next => exact hu
  case changed =>
    intro u
    rw [incomingState_mergeInto]
    split
    next hu =>
      subst hu
      rw [workList_mergeInto]
      split
      next => exact .inl (DistinctList.mem_pushBack.mpr (.inr rfl))
      next hflag => exact .inr (hmerge.unchanged _ _ _ _ (by simpa using hflag))
    next => exact .inr rfl
  case merged =>
    intro edge' hedge' _
    rw [List.mem_singleton.mp hedge', incomingState_mergeInto, if_pos rfl]
    exact hmerge.le_right ..

theorem forwarded_forward (hmerge : p.LawfulMerge) (v : Fin n) (state : S) (e : Engine n S)
    (edge : E) : Forwarded p state [edge] e (forward p v state e edge) := by
  unfold forward
  split
  next hf =>
    have hskip := Forwarded.refl p state e
    refine ⟨rfl, rfl, hskip.grows, hskip.queued, hskip.changed, fun edge' hedge' hf' => ?_⟩
    rw [List.mem_singleton.mp hedge'] at hf'
    simp [hf'] at hf
  next => exact forwarded_mergeInto hmerge v state e edge

theorem forwarded_foldl (hmerge : p.LawfulMerge) (hfeasible : p.SteadyFeasibility) (v : Fin n)
    (state : S) (edges : List E) (e : Engine n S) :
    Forwarded p state edges e (edges.foldl (forward p v state) e) := by
  induction edges generalizing e with
  | nil => exact .refl p state e
  | cons edge edges ih =>
    exact (forwarded_forward hmerge v state e edge).trans hfeasible (ih _)

theorem forwarded_visit (hmerge : p.LawfulMerge) (hfeasible : p.SteadyFeasibility) (v : Fin n)
    (e : Engine n S) :
    Forwarded p (p.xfer v (e.incomingState v)) (p.cfg.outEdges v)
      (e.setOutgoing v (p.xfer v (e.incomingState v))) (visit p v e) :=
  forwarded_foldl hmerge hfeasible v _ _ _

/-- The equations of one vertex hold. -/
structure Solved (p : DataFlow n E S) (e : Engine n S) (v : Fin n) : Prop where
  transferred : e.outgoingState v = p.xfer v (e.incomingState v)
  merged : ∀ edge ∈ p.cfg.outEdges v,
    p.isFeasible edge (e.outgoingState v) (e.incomingState (p.cfg.target edge)) = true →
      e.outgoingState v ≤ e.incomingState (p.cfg.target edge)

/-- Between two iterations each vertex is to be visited, or solved, or as `reset` left it. -/
structure Progress (p : DataFlow n E S) (initial : S) (e₀ e : Engine n S) : Prop where
  grows : ∀ v, e₀.incomingState v ≤ e.incomingState v
  vertices : ∀ v, v ∈ e.workList.items ∨ Solved p e v ∨
    (v ∉ e₀.workList.items ∧ e.incomingState v = initial ∧ e.outgoingState v = initial)

variable {initial : S} {e₀ e : Engine n S}

theorem Progress.step (hmerge : p.LawfulMerge) (hfeasible : p.SteadyFeasibility)
    (h : Progress p initial e₀ e) {v : Fin n} {rest : DistinctList (Fin n)}
    (hpop : e.workList.items = v :: rest.items) (count : Nat) :
    Progress p initial e₀ (visit p v (e.pop count rest)) := by
  have hforward := forwarded_visit hmerge hfeasible v (e.pop count rest)
  generalize visit p v (e.pop count rest) = e' at hforward
  have hout : ∀ u, u ≠ v → e'.outgoingState u = e.outgoingState u := by
    intro u hu
    rw [hforward.outgoing]
    exact Function.update_of_ne hu ..
  have houtv : e'.outgoingState v = p.xfer v (e.incomingState v) := by
    rw [hforward.outgoing]
    exact Function.update_self ..
  refine ⟨fun u => (h.grows u).trans (hforward.grows u), fun u => ?_⟩
  rcases hforward.changed u with hu | hsame
  · exact .inl hu
  have hsame : e'.incomingState u = e.incomingState u := hsame
  by_cases hv : u = v
  · subst hv
    refine .inr (.inl ⟨houtv.trans (congrArg (p.xfer u) hsame.symm), fun edge hedge hf => ?_⟩)
    rw [houtv] at hf ⊢
    exact hforward.merged edge hedge hf
  · rcases h.vertices u with hu | hu | hu
    · rw [hpop] at hu
      exact .inl (hforward.queued u ((List.mem_cons.mp hu).resolve_left hv))
    · refine .inr (.inl ⟨by rw [hout u hv, hsame]; exact hu.transferred, fun edge hedge hf => ?_⟩)
      rw [hout u hv] at hf ⊢
      have hgrow : e.incomingState (p.cfg.target edge) ≤ e'.incomingState (p.cfg.target edge) :=
        hforward.grows (p.cfg.target edge)
      exact (hu.merged edge hedge (hfeasible _ _ _ _ hgrow hf)).trans hgrow
    · exact .inr (.inr ⟨hu.1, hsame.trans hu.2.1, (hout u hv).trans hu.2.2⟩)

theorem progress_started (p : DataFlow n E S) (e : Engine n S) (initial : S)
    (starts : List (Fin n × S)) :
    Progress p initial (e.started initial starts) (e.started initial starts) := by
  refine ⟨fun _ => le_rfl, fun v => ?_⟩
  by_cases hv : v ∈ (e.started initial starts).workList.items
  · exact .inl hv
  · refine .inr (.inr ⟨hv, insertStartingVertices_fresh _ starts hv, ?_⟩)
    exact congrFun (insertStartingVertices_kept _ starts).1 v

end Engine

/-- Two vertices with an edge each to the other, and a flag for each. -/
def twoVertices : DataFlow 2 (Fin 2) Bool where
  cfg := ⟨fun v => [v], Fin.rev⟩
  xfer := fun _ s => s
  merge := fun _ d _ s => (d || s, d != (d || s))
  isFeasible := fun _ _ _ => true

def twoVerticesEngine : Engine 2 Bool :=
  ⟨fun _ => true, fun _ => true, .empty, 2 ^ 64 - 1, 7⟩

theorem twoVertices_joins : twoVertices.JoinsFrom false where
  le_left := by decide
  le_right := by decide
  unchanged := by decide
  least := by decide
  bot := by decide
  live := fun _ _ h => h

theorem twoVertices_run : ∃ e', Engine.runToFixedPoint twoVertices 4
    (twoVerticesEngine.started false [(0, true)]) = some (e', .ok ()) :=
  ⟨_, rfl⟩

namespace Engine

variable {n : Nat} {E S : Type} [PartialOrder S] {p : DataFlow n E S} {initial : S}
  {e₀ e : Engine n S}

/-- At the fixed point every vertex meets its equations or was never reached. -/
theorem fixedPoint_solved (hmerge : p.LawfulMerge) (hfeasible : p.SteadyFeasibility)
    {starts : List (Fin n × S)} {fuel : Nat} {e' : Engine n S}
    (hrun : runToFixedPoint p fuel (e.started initial starts) = some (e', .ok ())) :
    (∀ v, (e.started initial starts).incomingState v ≤ e'.incomingState v) ∧
      ∀ v, Solved p e' v ∨
        ((∀ s, (v, s) ∉ starts) ∧ e'.incomingState v = initial ∧ e'.outgoingState v = initial) := by
  obtain ⟨hprogress, hempty⟩ := run_invariant (P := Progress p initial (e.started initial starts))
    (fun _ _ _ count h hpop => h.step hmerge hfeasible hpop count) hrun
    (progress_started p e initial starts)
  refine ⟨hprogress.grows, fun v => ?_⟩
  rcases hprogress.vertices v with hv | hv | ⟨hnot, hv⟩
  · rw [hempty] at hv
    cases hv
  · exact .inl hv
  · refine .inr ⟨fun s hs => hnot ?_, hv⟩
    exact (mem_insertStartingVertices _ starts).mpr (.inr ⟨s, hs⟩)

end Engine

namespace DataFlow

variable {n : Nat} {E S : Type} (p : DataFlow n E S)

/-- What flows along the edges, where that does not depend on what has entered their targets. -/
def flows : FlowSystem (Fin n) S where
  transfer := p.xfer
  Flows v s u := ∃ edge ∈ p.cfg.outEdges v, p.cfg.target edge = u ∧
    ∃ t, p.isFeasible edge s t = true

/-- The states of the starting vertices. -/
def Starts (e : Engine n S) (v : Fin n) (s : S) : Prop :=
  v ∈ e.workList.items ∧ s = e.incomingState v

end DataFlow

namespace Engine

variable {n : Nat} {E S : Type} [PartialOrder S] {p : DataFlow n E S} {initial : S}
  {e e' : Engine n S} {starts : List (Fin n × S)} {fuel : Nat}

theorem Solved.solvedAt (hfeasible : p.OwnFeasibility) {v : Fin n} (h : Solved p e v) :
    p.flows.SolvedAt e.incomingState v := by
  rintro _ ⟨edge, hedge, rfl, t, hf⟩
  have hmerged := h.merged edge hedge
  rw [h.transferred, hfeasible _ _ _ t] at hmerged
  exact hmerged hf

/-- What bounds the incoming states and what is forwarded bounds them afterwards. -/
theorem foldl_forward_le (hjoin : p.JoinsFrom initial) {bound : Fin n → S} {v : Fin n} {state : S}
    {edges : List E} (h : ∀ u, e.incomingState u ≤ bound u)
    (hstate : ∀ edge ∈ edges, ∀ t, p.isFeasible edge state t = true →
      state ≤ bound (p.cfg.target edge)) (u : Fin n) :
    (edges.foldl (forward p v state) e).incomingState u ≤ bound u := by
  induction edges generalizing e with
  | nil => exact h u
  | cons edge edges ih =>
    refine ih (fun u => ?_) fun edge' hedge' => hstate edge' (List.mem_cons_of_mem _ hedge')
    unfold forward
    split
    next => exact h u
    next hf =>
      rw [incomingState_mergeInto]
      split
      next hu =>
        subst hu
        exact hjoin.least _ _ _ _ _ (h _) (hstate edge (by simp) _ (by simpa using hf))
      next => exact h u

theorem steadyFeasibility (hfeasible : p.OwnFeasibility) : p.SteadyFeasibility :=
  fun edge s t t' _ h => hfeasible edge s t t' ▸ h

/-- Wherever something comes along a path the equations of the fixed point hold. -/
theorem solvedAt_of_reached (hjoin : p.JoinsFrom initial) (hfeasible : p.OwnFeasibility)
    (hstarts : ∀ start ∈ starts, start.2 ≠ initial)
    (hrun : runToFixedPoint p fuel (e.started initial starts) = some (e', .ok ())) {v : Fin n}
    {s : S} (h : p.flows.Reached (DataFlow.Starts (e.started initial starts)) v s)
    (hle : s ≤ e'.incomingState v) : p.flows.SolvedAt e'.incomingState v := by
  have hs : s ≠ initial := by
    clear hle
    induction h with
    | start h => exact h.2 ▸ started_ne hstarts h.1
    | flow _ _ ih => exact hjoin.live _ _ ih
  have hsolved := (fixedPoint_solved hjoin.toLawfulMerge (steadyFeasibility hfeasible) hrun).2 v
  rcases hsolved with hv | ⟨_, hv, _⟩
  · exact hv.solvedAt hfeasible
  · exact absurd (le_antisymm (hv ▸ hle) (hjoin.bot s)) hs

/-- The fixed point covers what comes along every path. -/
theorem reached_le_fixedPoint (hjoin : p.JoinsFrom initial) (hfeasible : p.OwnFeasibility)
    (hsys : p.flows.IsMonotone) (hstarts : ∀ start ∈ starts, start.2 ≠ initial)
    (hrun : runToFixedPoint p fuel (e.started initial starts) = some (e', .ok ())) {v : Fin n}
    {s : S} (h : p.flows.Reached (DataFlow.Starts (e.started initial starts)) v s) :
    s ≤ e'.incomingState v := by
  refine h.covered hsys (fun v s hs => ?_) fun v s hreached hle => ?_
  · exact hs.2 ▸ (fixedPoint_solved hjoin.toLawfulMerge (steadyFeasibility hfeasible) hrun).1 v
  · exact solvedAt_of_reached hjoin hfeasible hstarts hrun hreached hle

/-- Every incoming state joins states that come along paths. -/
structure Joined (p : DataFlow n E S) (initial : S) (starts : Fin n → S → Prop) (e : Engine n S) :
    Prop where
  live : ∀ v ∈ e.workList.items, e.incomingState v ≠ initial
  joins : ∀ v, ∃ A, (∀ s ∈ A, p.flows.Reached starts v s) ∧ IsLUB A (e.incomingState v)

theorem Joined.foldl (hjoin : p.JoinsFrom initial) {starts : Fin n → S → Prop}
    (h : Joined p initial starts e) {v : Fin n} {state : S} {B : Set S}
    (hstate : IsLUB B state) (hne : state ≠ initial) {edges : List E}
    (hB : ∀ edge ∈ edges, ∀ t, p.isFeasible edge state t = true →
      ∀ s ∈ B, p.flows.Reached starts (p.cfg.target edge) s) :
    Joined p initial starts (edges.foldl (forward p v state) e) := by
  induction edges generalizing e with
  | nil => exact h
  | cons edge edges ih =>
    refine ih ?_ fun edge' hedge' => hB edge' (List.mem_cons_of_mem _ hedge')
    unfold forward
    split
    next => exact h
    next hf =>
      have hnew : ∀ s ∈ B, p.flows.Reached starts (p.cfg.target edge) s :=
        hB edge (by simp) _ (by simpa using hf)
      constructor
      · intro u hu
        rw [incomingState_mergeInto]
        split
        next =>
          intro heq
          refine hne (le_antisymm ?_ (hjoin.bot state))
          exact heq ▸ hjoin.le_right ..
        next hne' =>
          refine h.live u ?_
          have hu : u ∈ (if (p.merge _ _ v state).2 then e.workList.pushBack (p.cfg.target edge)
            else e.workList).items := hu
          split at hu
          next => exact (DistinctList.mem_pushBack.mp hu).resolve_right hne'
          next => exact hu
      · intro u
        rw [incomingState_mergeInto]
        split
        next heq =>
          subst heq
          obtain ⟨A, hA, hlub⟩ := h.joins (p.cfg.target edge)
          refine ⟨A ∪ B, ?_, FlowSystem.isLUB_union_of_least hlub hstate (hjoin.le_left ..)
            (hjoin.le_right ..) fun x hd hs => hjoin.least _ _ _ _ x hd hs⟩
          rintro s (hs | hs)
          · exact hA s hs
          · exact hnew s hs
        next => exact h.joins u

theorem Joined.step (hjoin : p.JoinsFrom initial)
    (hedge : ∀ edge s t s' t', p.isFeasible edge s t = p.isFeasible edge s' t')
    (hsys : p.flows.IsDistributive) {starts : Fin n → S → Prop}
    (h : Joined p initial starts e) {v : Fin n} {rest : DistinctList (Fin n)}
    (hpop : e.workList.items = v :: rest.items) (count : Nat) :
    Joined p initial starts (visit p v (e.pop count rest)) := by
  have hv : e.incomingState v ≠ initial := h.live v (by simp [hpop])
  obtain ⟨A, hA, hlub⟩ := h.joins v
  have hnonempty : A.Nonempty := by
    rw [Set.nonempty_iff_ne_empty]
    rintro rfl
    exact hv (le_antisymm (hlub.2 (by simp)) (hjoin.bot _))
  have hpopped : Joined p initial starts
      ((e.pop count rest).setOutgoing v (p.xfer v (e.incomingState v))) := by
    refine ⟨fun u hu => h.live u ?_, h.joins⟩
    rw [hpop]
    exact List.mem_cons_of_mem _ hu
  refine hpopped.foldl hjoin (hsys v A _ hnonempty hlub) (hjoin.live v _ hv) ?_
  intro edge hmem t hf
  refine FlowSystem.reached_image p.flows hA fun s _ => ⟨edge, hmem, rfl, t, ?_⟩
  exact (hedge edge _ t _ t).trans hf

/-- The incoming states of the fixed point join states that come along paths. -/
theorem joins_fixedPoint (hjoin : p.JoinsFrom initial)
    (hedge : ∀ edge s t s' t', p.isFeasible edge s t = p.isFeasible edge s' t')
    (hsys : p.flows.IsDistributive) (hstarts : ∀ start ∈ starts, start.2 ≠ initial)
    (hrun : runToFixedPoint p fuel (e.started initial starts) = some (e', .ok ())) (v : Fin n) :
    ∃ A, (∀ s ∈ A, p.flows.Reached (DataFlow.Starts (e.started initial starts)) v s) ∧
      IsLUB A (e'.incomingState v) := by
  have hstart : Joined p initial (DataFlow.Starts (e.started initial starts))
      (e.started initial starts) := by
    refine ⟨fun v hv => started_ne hstarts hv, fun v => ?_⟩
    by_cases hv : v ∈ (e.started initial starts).workList.items
    · refine ⟨{(e.started initial starts).incomingState v}, ?_, isLUB_singleton⟩
      rintro s rfl
      exact .start ⟨hv, rfl⟩
    · refine ⟨∅, by simp, ?_⟩
      rw [show (e.started initial starts).incomingState v = initial from
        insertStartingVertices_fresh _ starts hv]
      exact ⟨by simp, fun x _ => hjoin.bot x⟩
  exact (run_invariant (fun _ _ _ count h hpop =>
    Joined.step hjoin hedge hsys h hpop count) hrun hstart).1.joins v

/-- Where the transfer functions keep joins, the fixed point joins what comes along all paths. -/
theorem fixedPoint_join (hjoin : p.JoinsFrom initial)
    (hedge : ∀ edge s t s' t', p.isFeasible edge s t = p.isFeasible edge s' t')
    (hsys : p.flows.IsDistributive) (hstarts : ∀ start ∈ starts, start.2 ≠ initial)
    (hrun : runToFixedPoint p fuel (e.started initial starts) = some (e', .ok ())) (v : Fin n) :
    IsLUB {s | p.flows.Reached (DataFlow.Starts (e.started initial starts)) v s}
      (e'.incomingState v) := by
  have hmono : p.flows.IsMonotone := by
    refine ⟨hsys.monotone, ?_⟩
    rintro v s t u _ ⟨edge, hmem, htarget, x, hf⟩
    exact ⟨edge, hmem, htarget, x, (hedge edge t x s x).trans hf⟩
  obtain ⟨A, hA, hlub⟩ := joins_fixedPoint hjoin hedge hsys hstarts hrun v
  constructor
  · exact fun s hs => reached_le_fixedPoint hjoin (fun edge s t t' => hedge edge s t s t') hmono
      hstarts hrun hs
  · exact fun x hx => hlub.2 fun s hs => hx (hA s hs)

theorem twoVertices_join : ∃ e', runToFixedPoint twoVertices 4
    (twoVerticesEngine.started false [(0, true)]) = some (e', .ok ()) ∧
      IsLUB {s | twoVertices.flows.Reached
        (DataFlow.Starts (twoVerticesEngine.started false [(0, true)])) 1 s}
          (e'.incomingState 1) := by
  obtain ⟨e', hrun⟩ := twoVertices_run
  have hsys : twoVertices.flows.IsDistributive := by
    intro v A a _ h
    show IsLUB ((fun s => s) '' A) a
    rw [Set.image_id']
    exact h
  exact ⟨e', hrun, fixedPoint_join twoVertices_joins (fun _ _ _ _ _ => rfl) hsys (by decide)
    hrun 1⟩

/-- Without a change of an incoming state only vertices with more are added to the work list. -/
theorem foldl_forward_added (hmerge : p.LawfulMerge) (hfeasible : p.SteadyFeasibility)
    (hchanged : ∀ u d v s, (p.merge u d v (p.xfer v s)).2 = true →
      (p.merge u d v (p.xfer v s)).1 = d → s < d) {v : Fin n} {s : S} {edges : List E}
    (h : (edges.foldl (forward p v (p.xfer v s)) e).incomingState = e.incomingState) :
    ∃ added, (edges.foldl (forward p v (p.xfer v s)) e).workList.items =
      e.workList.items ++ added ∧ ∀ u ∈ added, s < e.incomingState u := by
  induction edges generalizing e with
  | nil => exact ⟨[], by simp, by simp⟩
  | cons edge edges ih =>
    have hfirst := (forwarded_forward hmerge v (p.xfer v s) e edge).grows
    have hrest := (forwarded_foldl hmerge hfeasible v (p.xfer v s) edges
      (forward p v (p.xfer v s) e edge)).grows
    have hsame : (forward p v (p.xfer v s) e edge).incomingState = e.incomingState := by
      funext u
      exact le_antisymm ((hrest u).trans_eq (congrFun h u)) (hfirst u)
    obtain ⟨added, hadded, hmore⟩ := ih (h.trans hsame.symm)
    rw [hsame] at hmore
    obtain ⟨first, hitems, hfirst⟩ : ∃ first, (forward p v (p.xfer v s) e edge).workList.items =
        e.workList.items ++ first ∧ ∀ u ∈ first, s < e.incomingState u := by
      unfold forward at hsame ⊢
      split at hsame
      next hf =>
        rw [if_pos hf]
        exact ⟨[], by simp, by simp⟩
      next hf =>
        rw [if_neg hf]
        have hat := congrFun hsame (p.cfg.target edge)
        rw [incomingState_mergeInto, if_pos rfl] at hat
        rw [workList_mergeInto]
        split
        next hflag =>
          rw [DistinctList.items_pushBack]
          split
          next => exact ⟨[], by simp, by simp⟩
          next =>
            refine ⟨[p.cfg.target edge], rfl, fun u hu => ?_⟩
            rw [List.mem_singleton.mp hu]
            exact hchanged _ _ _ _ hflag hat
        next => exact ⟨[], by simp, by simp⟩
    refine ⟨first ++ added, ?_, fun u hu => ?_⟩
    · rw [List.foldl_cons, hadded, hitems, List.append_assoc]
    · rcases List.mem_append.mp hu with hu | hu
      · exact hfirst u hu
      · exact hmore u hu

/-- The states of the vertices that are due, in the order in which they shrink. -/
def due (e : Engine n S) : Multiset Sᵒᵈ :=
  (e.workList.items.map fun u => OrderDual.toDual (e.incomingState u) : List Sᵒᵈ)

/-- Where no state can grow for ever the loop ends, and by its limit only if there is one. -/
theorem runToFixedPoint_halts [WellFoundedGT S] (hmerge : p.LawfulMerge)
    (hfeasible : p.SteadyFeasibility)
    (hchanged : ∀ u d v s, (p.merge u d v (p.xfer v s)).2 = true →
      (p.merge u d v (p.xfer v s)).1 = d → s < d) (e : Engine n S) :
    ∃ fuel result, runToFixedPoint p fuel e = some result ∧
      (e.maxIterations = 2 ^ 64 - 1 → result.2 = .ok ()) := by
  generalize hstates : e.incomingState = states
  induction states using (wellFounded_grows (V := Fin n) (S := S)).induction generalizing e with
  | _ states ihgrow =>
  -- while the states are the same, a vertex that is visited gives way to vertices with more
  generalize hdue : e.due = states'
  induction states' using (Multiset.wellFounded_isDershowitzMannaLT (α := Sᵒᵈ)).induction
    generalizing e with
  | _ states' ihpop =>
  by_cases hempty : e.workList.items = []
  · have hone := runOneIteration_nil (p := p) hempty
    exact ⟨1, (e, .ok ()), by simp [runToFixedPoint, hone], fun _ => rfl⟩
  · obtain ⟨v, rest, hpop, hone⟩ := runOneIteration_cons (p := p) hempty
    split at hone
    next hlimit =>
      refine ⟨1, (e.pop ((e.nIterations + 1) % 2 ^ 64) e.workList, .error ⟨e.maxIterations⟩), ?_,
        fun hmax => ?_⟩
      · rw [runToFixedPoint, hone]
      · omega
    next hlimit =>
      generalize hcount : (e.nIterations + 1) % 2 ^ 64 = count at hone
      have hforward := forwarded_visit hmerge hfeasible v (e.pop count rest)
      have hmax : (visit p v (e.pop count rest)).maxIterations = e.maxIterations :=
        hforward.maxIterations
      have hgrows : e.incomingState ≤ (visit p v (e.pop count rest)).incomingState :=
        hforward.grows
      obtain ⟨fuel, result, hrun, hok⟩ : ∃ fuel result,
          runToFixedPoint p fuel (visit p v (e.pop count rest)) = some result ∧
            (e.maxIterations = 2 ^ 64 - 1 → result.2 = .ok ()) := by
        rcases hgrows.lt_or_eq with hlt | heq
        · obtain ⟨fuel, result, hrun, hok⟩ := ihgrow _ (hstates ▸ hlt) _ rfl
          exact ⟨fuel, result, hrun, fun h => hok (hmax.trans h)⟩
        · obtain ⟨added, hadded, hmore⟩ : ∃ added,
              (visit p v (e.pop count rest)).workList.items = rest.items ++ added ∧
                ∀ u ∈ added, e.incomingState v < e.incomingState u :=
            foldl_forward_added hmerge hfeasible hchanged heq.symm
          have hless : (visit p v (e.pop count rest)).due.IsDershowitzMannaLT states' := by
            refine ⟨(rest.items.map fun u => OrderDual.toDual (e.incomingState u) : List Sᵒᵈ),
              (added.map fun u => OrderDual.toDual (e.incomingState u) : List Sᵒᵈ),
              {OrderDual.toDual (e.incomingState v)}, by simp, ?_, ?_, ?_⟩
            · rw [due, hadded, ← heq]
              simp
            · rw [← hdue, due, hpop]
              simp [add_comm]
            · intro y hy
              obtain ⟨u, hu, rfl⟩ := List.mem_map.mp hy
              exact ⟨_, Multiset.mem_singleton_self _, hmore u hu⟩
          obtain ⟨fuel, result, hrun, hok⟩ := ihpop _ hless _ (heq ▸ hstates) rfl
          exact ⟨fuel, result, hrun, fun h => hok (hmax.trans h)⟩
      obtain ⟨fuel', result', hrun', himp⟩ := run_of_visit hone hrun
      exact ⟨fuel', result', hrun', fun h => himp (hok h)⟩

end Engine

end LoomX
