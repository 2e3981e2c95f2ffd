import LoomX.DependencyOrder

namespace LoomX

/-- Tasks with their values, and a pair for each task and one that it depends on. -/
structure DependencyGraph (n : Nat) (Task : Type) where
  value : Fin n → Task
  edges : List (Fin n × Fin n)

namespace DependencyGraph

variable {n : Nat} {Task : Type}

def DependsOn (g : DependencyGraph n Task) (v u : Fin n) : Prop := (v, u) ∈ g.edges

end DependencyGraph

inductive WorkerState (n : Nat)
  | ready
  | waiting
  | working (workItemId : Fin n)
  | returned
  deriving DecidableEq

/-- What a thread does between two moments at which it holds the mutex. -/
inductive WorkerEvent (n k : Nat)
  | started (w : Fin k) (workItemId : Fin n)
  | finished (w : Fin k) (workItemId : Fin n)
  | slept (w : Fin k)
  | returned (w : Fin k)
  | spurious (w : Fin k)

inductive Notification
  | nobody
  | one
  | all
  deriving DecidableEq

/-- What the mutex protects, and where each worker thread is. -/
structure ThreadWorkers (n k : Nat) where
  dependencies : List (Fin n × Fin n)
  workQueue : List (Fin n)
  nItemsStarted : Nat
  nItemsFinished : Nat
  nWorkersRunning : Nat
  nWorkersFinished : Nat
  runningTasks : Finset (Fin n)
  workers : Fin k → WorkerState n

namespace ThreadWorkers

variable {n k : Nat} {Task : Type}

def nWorkers (nVertices requested hardwareConcurrency : Nat) : Nat :=
  max 1 (min (if requested = 0 then hardwareConcurrency else requested) nVertices)

def hasOutEdges (dependencies : List (Fin n × Fin n)) (v : Fin n) : Bool :=
  dependencies.any (·.1 = v)

/-- The tasks without dependencies, the one pushed last at the top. -/
def fillWorkQueueNS (dependencies : List (Fin n × Fin n)) : List (Fin n) :=
  ((List.finRange n).filter fun v => !hasOutEdges dependencies v).reverse

def start (g : DependencyGraph n Task) (k : Nat) : ThreadWorkers n k where
  dependencies := g.edges
  workQueue := fillWorkQueueNS g.edges
  nItemsStarted := 0
  nItemsFinished := 0
  nWorkersRunning := 0
  nWorkersFinished := 0
  runningTasks := ∅
  workers := fun _ => .ready

variable (s : ThreadWorkers n k) (w : Fin k)

/-- Waits for `workInserted_`, which gives the mutex away. -/
def sleep : ThreadWorkers n k := { s with workers := Function.update s.workers w .waiting }

def leave : ThreadWorkers n k :=
  { s with
    nWorkersFinished := s.nWorkersFinished + 1
    workers := Function.update s.workers w .returned }

def take (workItemId : Fin n) (rest : List (Fin n)) : ThreadWorkers n k :=
  { s with
    workQueue := rest
    nItemsStarted := s.nItemsStarted + 1
    nWorkersRunning := s.nWorkersRunning + 1
    runningTasks := insert workItemId s.runningTasks
    workers := Function.update s.workers w (.working workItemId) }

/-- The head of the loop of `worker`, with the mutex held; none where an assertion fails. -/
def head : Option (ThreadWorkers n k × WorkerEvent n k) :=
  match s.workQueue with
  | [] =>
    if s.nItemsFinished < s.nItemsStarted then some (s.sleep w, .slept w)
    else if s.nItemsFinished = s.nItemsStarted then some (s.leave w, .returned w)
    else none
  | workItemId :: rest =>
    if hasOutEdges s.dependencies workItemId then none
    else some (s.take w workItemId rest, .started w workItemId)

/-- The tasks that wait for one, in the order of their numbers. -/
def candidateWorkItems (dependencies : List (Fin n × Fin n)) (v : Fin n) : List (Fin n) :=
  (List.finRange n).filter fun u => (u, v) ∈ dependencies

def clearInEdges (dependencies : List (Fin n × Fin n)) (v : Fin n) : List (Fin n × Fin n) :=
  dependencies.filter (·.2 ≠ v)

/-- The tasks that wait for one and for nothing else. -/
def newWork (dependencies : List (Fin n × Fin n)) (v : Fin n) : List (Fin n) :=
  (candidateWorkItems dependencies v).filter fun u => !hasOutEdges (clearInEdges dependencies v) u

def notification (newWorkInserted : Nat) (queueIsEmpty : Bool) : Notification :=
  if newWorkInserted = 0 then if queueIsEmpty then .all else .nobody
  else if newWorkInserted = 1 then .nobody
  else if newWorkInserted = 2 then .one
  else .all

/-- The rest of the loop's body, once the functor has returned. -/
def finish (workItemId : Fin n) : ThreadWorkers n k where
  dependencies := clearInEdges s.dependencies workItemId
  workQueue := (newWork s.dependencies workItemId).reverse ++ s.workQueue
  nItemsStarted := s.nItemsStarted
  nItemsFinished := s.nItemsFinished + 1
  nWorkersRunning := s.nWorkersRunning - 1
  nWorkersFinished := s.nWorkersFinished
  runningTasks := s.runningTasks.erase workItemId
  workers := Function.update s.workers w .ready

def finishNotification (workItemId : Fin n) : Notification :=
  notification (newWork s.dependencies workItemId).length (s.finish w workItemId).workQueue.isEmpty

def wake : ThreadWorkers n k := { s with workers := Function.update s.workers w .ready }

def wakeAll : ThreadWorkers n k :=
  { s with workers := fun w => if s.workers w = .waiting then .ready else s.workers w }

/-- One waiting thread of the system's choice is woken, or none where none waits. -/
inductive Notified (s : ThreadWorkers n k) : Notification → ThreadWorkers n k → Prop
  | nobody : Notified s .nobody s
  | one {w : Fin k} (h : s.workers w = .waiting) : Notified s .one (s.wake w)
  | lost (h : ∀ w, s.workers w ≠ .waiting) : Notified s .one s
  | all : Notified s .all s.wakeAll

/-- A step of any thread; a thread that waits may wake without being notified. -/
inductive Step : ThreadWorkers n k → WorkerEvent n k → ThreadWorkers n k → Prop
  | head {s s' : ThreadWorkers n k} {w : Fin k} {e : WorkerEvent n k} (h : s.workers w = .ready)
      (hs : s.head w = some (s', e)) : Step s e s'
  | finish {s s' : ThreadWorkers n k} {w : Fin k} {v : Fin n} (h : s.workers w = .working v)
      (hs : Notified (s.finish w v) (s.finishNotification w v) s') : Step s (.finished w v) s'
  | spurious {s : ThreadWorkers n k} {w : Fin k} (h : s.workers w = .waiting) :
      Step s (.spurious w) (s.wake w)

/-- The steps of the threads in any order. -/
inductive Runs : ThreadWorkers n k → List (WorkerEvent n k) → ThreadWorkers n k → Prop
  | refl (s : ThreadWorkers n k) : Runs s [] s
  | tail {s s' s'' : ThreadWorkers n k} {es : List (WorkerEvent n k)} {e : WorkerEvent n k} :
      Runs s es s' → Step s' e s'' → Runs s (es ++ [e]) s''

/-- Whether dependencies are left when `wait` has joined the workers, and it throws. -/
def containsCycle : Bool := !s.dependencies.isEmpty

def isFinished : Bool := s.nWorkersFinished = k

/-- The threads still there, and those that are busy. -/
def nWorkersNow : Nat × Nat := (k - s.nWorkersFinished, s.nWorkersRunning)

section
variable {dependencies : List (Fin n × Fin n)} {u v : Fin n}

theorem hasOutEdges_iff : hasOutEdges dependencies v = true ↔ ∃ u, (v, u) ∈ dependencies := by
  simp [hasOutEdges]

theorem hasOutEdges_eq_false : hasOutEdges dependencies v = false ↔ ∀ u, (v, u) ∉ dependencies := by
  rw [← Bool.not_eq_true, hasOutEdges_iff, not_exists]

theorem mem_fillWorkQueueNS :
    v ∈ fillWorkQueueNS dependencies ↔ hasOutEdges dependencies v = false := by
  simp [fillWorkQueueNS]

theorem nodup_fillWorkQueueNS (dependencies : List (Fin n × Fin n)) :
    (fillWorkQueueNS dependencies).Nodup :=
  List.nodup_reverse.mpr ((List.nodup_finRange n).filter _)

theorem nodup_newWork (dependencies : List (Fin n × Fin n)) (v : Fin n) :
    (newWork dependencies v).Nodup :=
  ((List.nodup_finRange n).filter _).filter _

/-- New work is what had dependencies, and has none without the edges to the finished task. -/
theorem mem_newWork : u ∈ newWork dependencies v ↔
    hasOutEdges dependencies u = true ∧ hasOutEdges (clearInEdges dependencies v) u = false := by
  simp only [newWork, candidateWorkItems, List.mem_filter, List.mem_finRange, true_and,
    decide_eq_true_eq, Bool.not_eq_eq_eq_not, Bool.not_true, hasOutEdges_iff]
  refine and_congr_left fun hclear => ⟨fun h => ⟨v, h⟩, ?_⟩
  rintro ⟨x, hx⟩
  by_cases heq : x = v
  · exact heq ▸ hx
  · refine absurd ?_ (hasOutEdges_eq_false.mp hclear x)
    simpa [clearInEdges] using ⟨hx, heq⟩

theorem hasOutEdges_clearInEdges (h : hasOutEdges dependencies u = false) :
    hasOutEdges (clearInEdges dependencies v) u = false := by
  rw [hasOutEdges_eq_false] at h ⊢
  exact fun x hx => h x (List.mem_of_mem_filter hx)

end

section
variable {s s' : ThreadWorkers n k} {w : Fin k}

/-- What a worker does at the head of its loop. -/
theorem head_cases {e : WorkerEvent n k} (h : s.head w = some (s', e)) :
    (s.workQueue = [] ∧ s.nItemsFinished < s.nItemsStarted ∧ s' = s.sleep w ∧ e = .slept w) ∨
    (s.workQueue = [] ∧ s.nItemsFinished = s.nItemsStarted ∧ s' = s.leave w ∧
      e = .returned w) ∨
    ∃ v rest, s.workQueue = v :: rest ∧ s' = s.take w v rest ∧ e = .started w v := by
  unfold head at h
  split at h
  next hqueue =>
    split at h
    next hlt =>
      cases h
      exact .inl ⟨hqueue, hlt, rfl, rfl⟩
    next hlt =>
      split at h
      next heq =>
        cases h
        exact .inr (.inl ⟨hqueue, heq, rfl, rfl⟩)
      next => cases h
  next v rest hqueue =>
    split at h
    next => cases h
    next =>
      cases h
      exact .inr (.inr ⟨v, rest, hqueue, rfl, rfl⟩)

/-- A notification changes nothing but where the waiting threads are. -/
theorem Notified.eq {note : Notification} (h : Notified s note s') :
    s' = { s with workers := s'.workers } := by
  cases h <;> rfl

theorem Notified.workers {note : Notification} (h : Notified s note s') (w : Fin k) :
    s'.workers w = s.workers w ∨ s.workers w = .waiting ∧ s'.workers w = .ready := by
  cases h with
  | nobody => exact .inl rfl
  | lost => exact .inl rfl
  | one hw =>
    rename_i x
    by_cases heq : w = x
    · subst heq
      exact .inr ⟨hw, Function.update_self ..⟩
    · exact .inl (Function.update_of_ne heq ..)
  | all =>
    by_cases heq : s.workers w = .waiting
    · exact .inr ⟨heq, if_pos heq⟩
    · exact .inl (if_neg heq)

theorem Notified.away {note : Notification} (h : Notified s note s') (w : Fin k)
    {x : WorkerState n} (hready : x ≠ .ready) (hwaiting : x ≠ .waiting) :
    s'.workers w = x ↔ s.workers w = x := by
  rcases h.workers w with heq | ⟨h, h'⟩
  · rw [heq]
  · simp [h, h', hready.symm, hwaiting.symm]

theorem Notified.not_waiting (h : Notified s .all s') (w : Fin k) : s'.workers w ≠ .waiting := by
  cases h with
  | all =>
    show (if s.workers w = .waiting then WorkerState.ready else s.workers w) ≠ .waiting
    split
    next => simp
    next hne => exact hne

theorem exists_notified (s : ThreadWorkers n k) (note : Notification) :
    ∃ s', Notified s note s' := by
  cases note with
  | nobody => exact ⟨s, .nobody⟩
  | all => exact ⟨s.wakeAll, .all⟩
  | one =>
    by_cases h : ∃ w, s.workers w = .waiting
    · obtain ⟨w, hw⟩ := h
      exact ⟨s.wake w, .one hw⟩
    · exact ⟨s, .lost fun w hw => h ⟨w, hw⟩⟩

end

end ThreadWorkers

namespace WorkerEvent

variable {n k : Nat}

def start? : WorkerEvent n k → Option (Fin n)
  | started _ v => some v
  | _ => none

def finish? : WorkerEvent n k → Option (Fin n)
  | finished _ v => some v
  | _ => none

def isSpurious : WorkerEvent n k → Bool
  | spurious _ => true
  | _ => false

end WorkerEvent

namespace ThreadWorkers

variable {n k : Nat} {Task : Type}

/-- The tasks for which the functor was called, in that order. -/
def startedTasks (es : List (WorkerEvent n k)) : List (Fin n) := es.filterMap WorkerEvent.start?

def finishedTasks (es : List (WorkerEvent n k)) : List (Fin n) := es.filterMap WorkerEvent.finish?

/-- How many workers, with weights for where they are. -/
def total (weight : WorkerState n → Nat) (s : ThreadWorkers n k) : Nat :=
  ∑ w, weight (s.workers w)

def busy : WorkerState n → Nat
  | .working _ => 1
  | _ => 0

def gone : WorkerState n → Nat
  | .returned => 1
  | _ => 0

theorem sum_update (weight : WorkerState n → Nat) (f : Fin k → WorkerState n) (w : Fin k)
    (x : WorkerState n) :
    ∑ i, weight (Function.update f w x i) + weight (f w) = ∑ i, weight (f i) + weight x := by
  have hrest : ∑ i ∈ Finset.univ.erase w, weight (Function.update f w x i) =
      ∑ i ∈ Finset.univ.erase w, weight (f i) := by
    refine Finset.sum_congr rfl fun i hi => ?_
    rw [Function.update_of_ne (Finset.ne_of_mem_erase hi)]
  rw [← Finset.add_sum_erase _ _ (Finset.mem_univ w), hrest, Function.update_self,
    ← Finset.add_sum_erase (f := fun i => weight (f i)) _ (Finset.mem_univ w)]
  omega

/-- The tasks between two steps, after the given events. -/
structure Tasks (g : DependencyGraph n Task) (es : List (WorkerEvent n k))
    (s : ThreadWorkers n k) : Prop where
  dependencies : s.dependencies = g.edges.filter (·.2 ∉ finishedTasks es)
  queued_nodup : s.workQueue.Nodup
  started_nodup : (startedTasks es).Nodup
  finished_nodup : (finishedTasks es).Nodup
  fresh : ∀ v ∈ s.workQueue, v ∉ startedTasks es
  settled : ∀ v, v ∈ s.workQueue ∨ v ∈ startedTasks es ↔ hasOutEdges s.dependencies v = false
  working : ∀ v, (∃ w, s.workers w = .working v) ↔ v ∈ startedTasks es ∧ v ∉ finishedTasks es
  working_unique : ∀ v w w', s.workers w = .working v → s.workers w' = .working v → w = w'
  finished_started : finishedTasks es ⊆ startedTasks es
  acc : ∀ v, v ∈ s.workQueue ∨ v ∈ startedTasks es → Acc (flip g.DependsOn) v
  nItemsStarted : s.nItemsStarted = (startedTasks es).length
  nItemsFinished : s.nItemsFinished = (finishedTasks es).length
  nWorkersRunning : s.nWorkersRunning = s.total busy
  nWorkersFinished : s.nWorkersFinished = s.total gone
  runningTasks : ∀ v, v ∈ s.runningTasks ↔ ∃ w, s.workers w = .working v

/-- Nobody sleeps, and nobody has left, while there is something left to do that nobody will. -/
structure Sleepers (s : ThreadWorkers n k) : Prop where
  waiting : ∀ w, s.workers w = .waiting → s.workQueue ≠ [] ∨ s.nItemsFinished < s.nItemsStarted
  awake : s.workQueue ≠ [] → ∃ w, s.workers w = .ready ∨ ∃ v, s.workers w = .working v
  returned : ∀ w, s.workers w = .returned →
    s.workQueue = [] ∧ s.nItemsFinished = s.nItemsStarted

section
variable {g : DependencyGraph n Task} {es es' : List (WorkerEvent n k)} {s s' : ThreadWorkers n k}
  {w : Fin k} {v : Fin n}

theorem tasks_start (g : DependencyGraph n Task) (k : Nat) :
    Tasks g ([] : List (WorkerEvent n k)) (start g k) where
  dependencies := by simp [start, finishedTasks]
  queued_nodup := nodup_fillWorkQueueNS g.edges
  started_nodup := .nil
  finished_nodup := .nil
  fresh := by simp [startedTasks]
  settled := by simp [startedTasks, start, mem_fillWorkQueueNS]
  working := by simp [start, startedTasks]
  working_unique := by simp [start]
  finished_started := by simp [finishedTasks]
  acc := by
    intro v hv
    have hv : hasOutEdges g.edges v = false := by
      simpa [startedTasks, start, mem_fillWorkQueueNS] using hv
    exact ⟨_, fun u hu => absurd hu (hasOutEdges_eq_false.mp hv u)⟩
  nItemsStarted := rfl
  nItemsFinished := rfl
  nWorkersRunning := by simp [start, total, busy]
  nWorkersFinished := by simp [start, total, gone]
  runningTasks := by simp [start]

theorem sleepers_start (g : DependencyGraph n Task) {k : Nat} (hk : 0 < k) :
    Sleepers (start g k) where
  waiting := by simp [start]
  awake := fun _ => ⟨⟨0, hk⟩, .inl rfl⟩
  returned := by simp [start]

theorem working_update {f : Fin k → WorkerState n} {x : WorkerState n}
    (hx : ∀ v, x ≠ .working v) (hw : ∀ v, f w ≠ .working v) (w' : Fin k) (v : Fin n) :
    Function.update f w x w' = .working v ↔ f w' = .working v := by
  by_cases heq : w' = w
  · subst heq
    rw [Function.update_self]
    exact ⟨fun h => absurd h (hx v), fun h => absurd h (hw v)⟩
  · rw [Function.update_of_ne heq]

theorem busy_congr {x y : WorkerState n} (h : ∀ v, x = .working v ↔ y = .working v) :
    busy x = busy y := by
  cases x with
  | working v => rw [(h v).mp rfl]
  | _ =>
    cases y with
    | working v => exact absurd ((h v).mpr rfl) (by simp)
    | _ => rfl

/-- Steps that neither start nor finish a task. -/
theorem Tasks.idle (h : Tasks g es s)
    (hs : s' = { s with workers := s'.workers, nWorkersFinished := s'.nWorkersFinished })
    (hworking : ∀ w v, s'.workers w = .working v ↔ s.workers w = .working v)
    (hfinished : s'.nWorkersFinished = s'.total gone)
    (hes : startedTasks es' = startedTasks es) (hes' : finishedTasks es' = finishedTasks es) :
    Tasks g es' s' := by
  have htotal : s'.total busy = s.total busy :=
    Finset.sum_congr rfl fun w _ => busy_congr (hworking w)
  rw [hs] at hworking hfinished htotal ⊢
  constructor
  case nWorkersFinished => exact hfinished
  case nWorkersRunning => exact h.nWorkersRunning.trans htotal.symm
  case working => simpa only [hworking, hes, hes'] using h.working
  case working_unique => simpa only [hworking] using h.working_unique
  case runningTasks => simpa only [hworking] using h.runningTasks
  case dependencies => exact hes' ▸ h.dependencies
  case queued_nodup => exact h.queued_nodup
  case started_nodup => exact hes ▸ h.started_nodup
  case finished_nodup => exact hes' ▸ h.finished_nodup
  case fresh => exact hes ▸ h.fresh
  case settled => exact hes ▸ h.settled
  case finished_started => exact hes ▸ hes' ▸ h.finished_started
  case acc => exact hes ▸ h.acc
  case nItemsStarted => exact hes ▸ h.nItemsStarted
  case nItemsFinished => exact hes' ▸ h.nItemsFinished

theorem startedTasks_append (es : List (WorkerEvent n k)) (e : WorkerEvent n k) :
    startedTasks (es ++ [e]) = startedTasks es ++ e.start?.toList := by
  simp only [startedTasks, List.filterMap_append, List.filterMap_cons, List.filterMap_nil]
  cases e.start? <;> rfl

theorem finishedTasks_append (es : List (WorkerEvent n k)) (e : WorkerEvent n k) :
    finishedTasks (es ++ [e]) = finishedTasks es ++ e.finish?.toList := by
  simp only [finishedTasks, List.filterMap_append, List.filterMap_cons, List.filterMap_nil]
  cases e.finish? <;> rfl

theorem Tasks.idle_update (h : Tasks g es s) {x : WorkerState n} {e : WorkerEvent n k}
    (hw : ∀ v, s.workers w ≠ .working v) (hx : ∀ v, x ≠ .working v)
    (hs : s' = { s with
      workers := Function.update s.workers w x
      nWorkersFinished := s'.nWorkersFinished })
    (hfinished : s'.nWorkersFinished + gone (s.workers w) = s.nWorkersFinished + gone x)
    (hstart : e.start? = none) (hfinish : e.finish? = none) : Tasks g (es ++ [e]) s' := by
  have hworkers : s'.workers = Function.update s.workers w x := by rw [hs]
  refine h.idle (by rw [hworkers]; exact hs) ?_ ?_ ?_ ?_
  · intro w' v
    rw [hworkers, working_update hx hw]
  · have hsum := sum_update gone s.workers w x
    have hold := h.nWorkersFinished
    rw [total] at hold ⊢
    rw [hworkers]
    omega
  · rw [startedTasks_append, hstart]
    simp
  · rw [finishedTasks_append, hfinish]
    simp

theorem Tasks.sleep (h : Tasks g es s) (hw : s.workers w = .ready) :
    Tasks g (es ++ [.slept w]) (s.sleep w) :=
  h.idle_update (x := .waiting) (by simp [hw]) (by simp) rfl (by rw [hw]; rfl) rfl rfl

theorem Tasks.leave (h : Tasks g es s) (hw : s.workers w = .ready) :
    Tasks g (es ++ [.returned w]) (s.leave w) :=
  h.idle_update (x := .returned) (by simp [hw]) (by simp) rfl (by rw [hw]; rfl) rfl rfl

theorem Tasks.wake (h : Tasks g es s) (hw : s.workers w = .waiting) :
    Tasks g (es ++ [.spurious w]) (s.wake w) :=
  h.idle_update (x := .ready) (by simp [hw]) (by simp) rfl (by rw [hw]; rfl) rfl rfl

theorem Tasks.notified (h : Tasks g es s) {note : Notification} (hs : Notified s note s') :
    Tasks g es s' := by
  have heq := hs.eq
  refine h.idle ?_ (fun w v => hs.away w (by simp) (by simp)) ?_ rfl rfl
  · rw [heq]
  · have hgone : s'.total gone = s.total gone := by
      refine Finset.sum_congr rfl fun w _ => ?_
      rcases hs.workers w with hw | ⟨hw, hw'⟩
      · rw [hw]
      · rw [hw, hw']
        rfl
    rw [hgone, heq]
    exact h.nWorkersFinished

theorem working_take (hw : s.workers w = .ready) {rest : List (Fin n)} (w' : Fin k) (u : Fin n) :
    (s.take w v rest).workers w' = .working u ↔
      (w' = w ∧ u = v) ∨ s.workers w' = .working u := by
  show Function.update s.workers w (.working v) w' = _ ↔ _
  by_cases heq : w' = w
  · subst heq
    simp [hw, eq_comm]
  · rw [Function.update_of_ne heq]
    simp [heq]

theorem mem_take {rest : List (Fin n)} (hqueue : s.workQueue = v :: rest) (started : List (Fin n))
    (u : Fin n) : u ∈ rest ∨ u ∈ started ++ [v] ↔ u ∈ s.workQueue ∨ u ∈ started := by
  simp only [hqueue, List.mem_append, List.mem_cons, List.not_mem_nil, or_false]
  tauto

theorem Tasks.take (h : Tasks g es s) (hw : s.workers w = .ready) {rest : List (Fin n)}
    (hqueue : s.workQueue = v :: rest) : Tasks g (es ++ [.started w v]) (s.take w v rest) := by
  have hfresh := h.fresh v (by simp [hqueue])
  have hstarted : startedTasks (es ++ [.started w v]) = startedTasks es ++ [v] :=
    startedTasks_append es (.started w v)
  have hfinished : finishedTasks (es ++ [.started w v]) = finishedTasks es := by
    rw [finishedTasks_append]
    exact List.append_nil _
  have hnodup : v ∉ rest ∧ rest.Nodup := List.nodup_cons.mp (hqueue ▸ h.queued_nodup)
  have hsum : ∀ weight : WorkerState n → Nat,
      (s.take w v rest).total weight + weight .ready = s.total weight + weight (.working v) :=
    fun weight => hw ▸ sum_update weight s.workers w (.working v)
  constructor
  case dependencies => exact hfinished ▸ h.dependencies
  case queued_nodup => exact hnodup.2
  case started_nodup =>
    rw [hstarted]
    refine h.started_nodup.append (List.nodup_singleton v) ?_
    simpa using hfresh
  case finished_nodup => exact hfinished ▸ h.finished_nodup
  case fresh =>
    intro u hu
    rw [hstarted, List.mem_append, List.mem_singleton, not_or]
    exact ⟨h.fresh u (by rw [hqueue]; exact List.mem_cons_of_mem _ hu),
      fun heq => hnodup.1 (heq ▸ hu)⟩
  case settled =>
    intro u
    rw [hstarted]
    exact (mem_take hqueue _ u).trans (h.settled u)
  case working =>
    intro u
    rw [hstarted, hfinished]
    simp only [working_take hw, exists_or, exists_eq_left, h.working u, List.mem_append,
      List.mem_singleton]
    by_cases heq : u = v
    · subst heq
      have hnot : u ∉ finishedTasks es := fun hu => hfresh (h.finished_started hu)
      simp [hnot]
    · simp [heq]
  case working_unique =>
    intro u w₁ w₂ h₁ h₂
    have hnobody : ∀ w', s.workers w' ≠ .working v := fun w' hw' =>
      hfresh ((h.working v).mp ⟨w', hw'⟩).1
    rw [working_take hw] at h₁ h₂
    by_cases heq : u = v
    · subst heq
      have hleft : w₁ = w := (h₁.resolve_right (hnobody w₁)).1
      have hright : w₂ = w := (h₂.resolve_right (hnobody w₂)).1
      rw [hleft, hright]
    · exact h.working_unique u w₁ w₂ (h₁.resolve_left fun h => heq h.2)
        (h₂.resolve_left fun h => heq h.2)
  case finished_started =>
    rw [hstarted, hfinished]
    exact fun u hu => List.mem_append_left _ (h.finished_started hu)
  case acc =>
    intro u hu
    rw [hstarted] at hu
    exact h.acc u ((mem_take hqueue _ u).mp hu)
  case nItemsStarted =>
    rw [hstarted, List.length_append]
    exact congrArg (· + 1) h.nItemsStarted
  case nItemsFinished => exact hfinished ▸ h.nItemsFinished
  case nWorkersRunning =>
    show s.nWorkersRunning + 1 = _
    rw [h.nWorkersRunning]
    exact (hsum busy).symm
  case nWorkersFinished => exact h.nWorkersFinished.trans (hsum gone).symm
  case runningTasks =>
    intro u
    show u ∈ insert v s.runningTasks ↔ _
    simp only [working_take hw, Finset.mem_insert, h.runningTasks u, exists_or, exists_eq_left]

theorem working_finish (w' : Fin k) (u : Fin n) :
    (s.finish w v).workers w' = .working u ↔ w' ≠ w ∧ s.workers w' = .working u := by
  show Function.update s.workers w .ready w' = _ ↔ _
  by_cases heq : w' = w
  · subst heq
    simp
  · rw [Function.update_of_ne heq]
    simp [heq]

/-- Without the edges to a finished task, a task has no dependencies left when it is in the
queue, old or new, or has been started. -/
theorem Tasks.settled_finish (h : Tasks g es s) (u : Fin n) :
    u ∈ (s.finish w v).workQueue ∨ u ∈ startedTasks es ↔
      hasOutEdges (clearInEdges s.dependencies v) u = false := by
  have hold := h.settled u
  show u ∈ (newWork s.dependencies v).reverse ++ s.workQueue ∨ _ ↔ _
  rw [List.mem_append, List.mem_reverse, mem_newWork, or_assoc, hold]
  constructor
  · rintro (⟨_, hclear⟩ | hnone)
    · exact hclear
    · exact hasOutEdges_clearInEdges hnone
  · intro hclear
    by_cases hout : hasOutEdges s.dependencies u = true
    · exact .inl ⟨hout, hclear⟩
    · exact .inr (Bool.not_eq_true _ ▸ hout)

theorem Tasks.finish (h : Tasks g es s) (hw : s.workers w = .working v) :
    Tasks g (es ++ [.finished w v]) (s.finish w v) := by
  have hstarted : startedTasks (es ++ [.finished w v]) = startedTasks es := by
    rw [startedTasks_append]
    exact List.append_nil _
  have hfinished : finishedTasks (es ++ [.finished w v]) = finishedTasks es ++ [v] :=
    finishedTasks_append es (.finished w v)
  obtain ⟨hv, hvnot⟩ := (h.working v).mp ⟨w, hw⟩
  have hnew : ∀ u ∈ newWork s.dependencies v, u ∉ s.workQueue ∧ u ∉ startedTasks es := by
    intro u hu
    rw [← not_or, h.settled u, (mem_newWork.mp hu).1]
    simp
  have hdeps : (s.finish w v).dependencies =
      g.edges.filter (·.2 ∉ finishedTasks (es ++ [.finished w v])) := by
    show clearInEdges s.dependencies v = _
    rw [clearInEdges, h.dependencies, List.filter_filter, hfinished]
    refine List.filter_congr fun e _ => ?_
    simp [List.mem_append, not_or, and_comm]
  have hsum : ∀ weight : WorkerState n → Nat,
      (s.finish w v).total weight + weight (.working v) = s.total weight + weight .ready :=
    fun weight => hw ▸ sum_update weight s.workers w .ready
  constructor
  case dependencies => exact hdeps
  case queued_nodup =>
    show ((newWork s.dependencies v).reverse ++ s.workQueue).Nodup
    refine (List.nodup_reverse.mpr (nodup_newWork ..)).append h.queued_nodup fun u hu hq => ?_
    exact (hnew u (List.mem_reverse.mp hu)).1 hq
  case started_nodup => exact hstarted ▸ h.started_nodup
  case finished_nodup =>
    rw [hfinished]
    refine h.finished_nodup.append (List.nodup_singleton v) ?_
    simpa using hvnot
  case fresh =>
    intro u hu
    rw [hstarted]
    rcases List.mem_append.mp hu with hu | hu
    · exact (hnew u (List.mem_reverse.mp hu)).2
    · exact h.fresh u hu
  case settled =>
    rw [hstarted]
    exact h.settled_finish
  case working =>
    intro u
    rw [hstarted, hfinished, List.mem_append, List.mem_singleton, not_or, ← and_assoc,
      ← h.working u]
    simp only [working_finish]
    constructor
    · rintro ⟨w', hne, hw'⟩
      refine ⟨⟨w', hw'⟩, fun heq => hne ?_⟩
      exact h.working_unique v w' w (heq ▸ hw') hw
    · rintro ⟨⟨w', hw'⟩, hne⟩
      refine ⟨w', fun heq => hne ?_, hw'⟩
      rw [heq, hw] at hw'
      exact (WorkerState.working.inj hw').symm
  case working_unique =>
    intro u w₁ w₂ h₁ h₂
    rw [working_finish] at h₁ h₂
    exact h.working_unique u w₁ w₂ h₁.2 h₂.2
  case finished_started =>
    rw [hstarted, hfinished]
    intro u hu
    rcases List.mem_append.mp hu with hu | hu
    · exact h.finished_started hu
    · exact List.mem_singleton.mp hu ▸ hv
  case acc =>
    intro u hu
    rw [hstarted] at hu
    refine ⟨_, fun x hx => ?_⟩
    -- a task in the queue has finished dependencies only, which were started before
    have hnone : (u, x) ∉ (s.finish w v).dependencies :=
      hasOutEdges_eq_false.mp ((h.settled_finish u).mp hu) x
    rw [hdeps, hfinished] at hnone
    have hdone : x ∈ finishedTasks es ++ [v] := by
      by_contra hx'
      exact hnone (List.mem_filter.mpr ⟨hx, by simpa using hx'⟩)
    rcases List.mem_append.mp hdone with hx | hx
    · exact h.acc x (.inr (h.finished_started hx))
    · exact h.acc x (.inr (List.mem_singleton.mp hx ▸ hv))
  case nItemsStarted => exact hstarted ▸ h.nItemsStarted
  case nItemsFinished =>
    rw [hfinished, List.length_append]
    exact congrArg (· + 1) h.nItemsFinished
  case nWorkersRunning =>
    show s.nWorkersRunning - 1 = _
    rw [h.nWorkersRunning]
    exact Nat.sub_eq_of_eq_add (hsum busy).symm
  case nWorkersFinished => exact h.nWorkersFinished.trans (hsum gone).symm
  case runningTasks =>
    intro u
    show u ∈ s.runningTasks.erase v ↔ _
    rw [Finset.mem_erase, h.runningTasks u]
    simp only [working_finish]
    constructor
    · rintro ⟨hne, w', hw'⟩
      refine ⟨w', fun heq => hne ?_, hw'⟩
      rw [heq, hw] at hw'
      exact (WorkerState.working.inj hw').symm
    · rintro ⟨w', hne, hw'⟩
      exact ⟨fun heq => hne (h.working_unique v w' w (heq ▸ hw') hw), w', hw'⟩

theorem Tasks.finished_le (h : Tasks g es s) : s.nItemsFinished ≤ s.nItemsStarted := by
  rw [h.nItemsFinished, h.nItemsStarted]
  exact (h.finished_nodup.subperm h.finished_started).length_le

theorem Tasks.finished_lt (h : Tasks g es s) (hw : s.workers w = .working v) :
    s.nItemsFinished < s.nItemsStarted := by
  obtain ⟨hv, hvnot⟩ := (h.working v).mp ⟨w, hw⟩
  have hnodup : (v :: finishedTasks es).Nodup := List.nodup_cons.mpr ⟨hvnot, h.finished_nodup⟩
  have hsub : v :: finishedTasks es ⊆ startedTasks es :=
    List.cons_subset.mpr ⟨hv, h.finished_started⟩
  rw [h.nItemsFinished, h.nItemsStarted]
  exact (hnodup.subperm hsub).length_le

/-- Where fewer tasks have finished than started, a worker is at one. -/
theorem Tasks.exists_working (h : Tasks g es s) (hlt : s.nItemsFinished < s.nItemsStarted) :
    ∃ w v, s.workers w = .working v := by
  by_contra hnone
  have hsub : startedTasks es ⊆ finishedTasks es := by
    intro v hv
    by_contra hvnot
    obtain ⟨w, hw⟩ := (h.working v).mpr ⟨hv, hvnot⟩
    exact hnone ⟨w, v, hw⟩
  have hle := (h.started_nodup.subperm hsub).length_le
  rw [h.nItemsFinished, h.nItemsStarted] at hlt
  omega

theorem of_update {f : Fin k → WorkerState n} {x y : WorkerState n} {w' : Fin k}
    (h : Function.update f w x w' = y) (hxy : x ≠ y) : f w' = y := by
  by_cases heq : w' = w
  · subst heq
    exact absurd ((Function.update_self ..).symm.trans h) hxy
  · exact (Function.update_of_ne heq ..).symm.trans h

theorem Sleepers.sleep (h : Sleepers s) (hqueue : s.workQueue = [])
    (hlt : s.nItemsFinished < s.nItemsStarted) : Sleepers (s.sleep w) where
  waiting := fun _ _ => .inr hlt
  awake := fun hne => absurd hqueue hne
  returned := fun w' hw' => h.returned w' (of_update hw' (by simp))

theorem Sleepers.leave (h : Sleepers s) (hqueue : s.workQueue = [])
    (hfinished : s.nItemsFinished = s.nItemsStarted) : Sleepers (s.leave w) where
  waiting := fun w' hw' => h.waiting w' (of_update hw' (by simp))
  awake := fun hne => absurd hqueue hne
  returned := fun _ _ => ⟨hqueue, hfinished⟩

theorem Sleepers.take (h : Sleepers s) (hle : s.nItemsFinished ≤ s.nItemsStarted)
    {rest : List (Fin n)} (hqueue : s.workQueue = v :: rest) : Sleepers (s.take w v rest) where
  waiting := fun _ _ => .inr (Nat.lt_succ_of_le hle)
  awake := fun _ => ⟨w, .inr ⟨v, Function.update_self ..⟩⟩
  returned := by
    intro w' hw'
    have hempty := (h.returned w' (of_update hw' (by simp))).1
    rw [hqueue] at hempty
    cases hempty

theorem Sleepers.wake (h : Sleepers s) : Sleepers (s.wake w) where
  waiting := fun w' hw' => h.waiting w' (of_update hw' (by simp))
  awake := fun _ => ⟨w, .inl (Function.update_self ..)⟩
  returned := fun w' hw' => h.returned w' (of_update hw' (by simp))

/-- All are woken when the queue is left empty. -/
theorem finishNotification_of_empty (h : (s.finish w v).workQueue = []) :
    s.finishNotification w v = .all := by
  have hnew : newWork s.dependencies v = [] := by
    have hboth : (newWork s.dependencies v).reverse = [] ∧ s.workQueue = [] :=
      List.append_eq_nil_iff.mp h
    exact List.reverse_eq_nil_iff.mp hboth.1
  simp [finishNotification, h, hnew, notification]

theorem Sleepers.finish (h : Sleepers s) (hlt : s.nItemsFinished < s.nItemsStarted)
    (hs : Notified (s.finish w v) (s.finishNotification w v) s') : Sleepers s' := by
  have hw : s'.workers w = .ready := by
    have hready : (s.finish w v).workers w = .ready := Function.update_self ..
    rcases hs.workers w with hw | ⟨hw, _⟩
    · exact hw.trans hready
    · exact absurd (hready.symm.trans hw) (by simp)
  have heq := hs.eq
  have hqueue : s'.workQueue = (s.finish w v).workQueue := by rw [heq]
  constructor
  · intro w' hw'
    refine .inl fun hempty => ?_
    rw [finishNotification_of_empty (hqueue ▸ hempty)] at hs
    exact hs.not_waiting w' hw'
  · exact fun _ => ⟨w, .inl hw⟩
  · intro w' hw'
    have hold : s.workers w' = .returned :=
      of_update ((hs.away w' (by simp) (by simp)).mp hw') (by simp)
    have hdone := (h.returned w' hold).2
    omega

structure Invariant (g : DependencyGraph n Task) (es : List (WorkerEvent n k))
    (s : ThreadWorkers n k) : Prop where
  tasks : Tasks g es s
  sleepers : Sleepers s

theorem Invariant.step {e : WorkerEvent n k} (h : Invariant g es s) (hs : Step s e s') :
    Invariant g (es ++ [e]) s' := by
  cases hs with
  | head hw hs =>
    rcases head_cases hs with ⟨hqueue, hlt, rfl, rfl⟩ | ⟨hqueue, heq, rfl, rfl⟩ |
      ⟨v, rest, hqueue, rfl, rfl⟩
    · exact ⟨h.tasks.sleep hw, h.sleepers.sleep hqueue hlt⟩
    · exact ⟨h.tasks.leave hw, h.sleepers.leave hqueue heq⟩
    · exact ⟨h.tasks.take hw hqueue, h.sleepers.take h.tasks.finished_le hqueue⟩
  | finish hw hs =>
    exact ⟨(h.tasks.finish hw).notified hs, h.sleepers.finish (h.tasks.finished_lt hw) hs⟩
  | spurious hw => exact ⟨h.tasks.wake hw, h.sleepers.wake⟩

theorem Invariant.run (hk : 0 < k) (h : Runs (start g k) es s) : Invariant g es s := by
  generalize hstart : start g k = s₀ at h
  induction h with
  | refl => exact hstart ▸ ⟨tasks_start g k, sleepers_start g hk⟩
  | tail _ hs ih => exact ih.step hs

/-- What the workers may still do: more for one at a task than for one at its loop's head, and
still more for a task that nobody has started. -/
def rank (k : Nat) : WorkerState n → Nat
  | .ready => 1
  | .working _ => k + 2
  | _ => 0

def potential (s : ThreadWorkers n k) : Nat := s.total (rank k) + (k + 3) * (n - s.nItemsStarted)

theorem total_update (s s' : ThreadWorkers n k) (weight : WorkerState n → Nat)
    {x : WorkerState n} (hs : s'.workers = Function.update s.workers w x) :
    s'.total weight + weight (s.workers w) = s.total weight + weight x := by
  unfold total
  rw [hs]
  exact sum_update weight s.workers w x

theorem Notified.total_le {note : Notification} (hs : Notified s note s') :
    s'.total (rank k) ≤ s.total (rank k) + k := by
  have hle : ∀ w, rank k (s'.workers w) ≤ rank k (s.workers w) + 1 := by
    intro w
    rcases hs.workers w with hw | ⟨hw, hw'⟩
    · rw [hw]
      exact Nat.le_succ _
    · rw [hw, hw']
      exact Nat.le_refl _
  calc s'.total (rank k) ≤ ∑ w, (rank k (s.workers w) + 1) := Finset.sum_le_sum fun w _ => hle w
    _ = s.total (rank k) + k := by simp [total, Finset.sum_add_distrib]

/-- Every step but a spurious waking takes from the potential. -/
theorem Invariant.potential_step {e : WorkerEvent n k} (h : Invariant g es s) (hs : Step s e s') :
    potential s' + 1 ≤ potential s + if e.isSpurious then 2 else 0 := by
  cases hs with
  | head hw hs =>
    rename_i w
    rcases head_cases hs with ⟨hqueue, hlt, rfl, rfl⟩ | ⟨hqueue, heq, rfl, rfl⟩ |
      ⟨v, rest, hqueue, rfl, rfl⟩
    · have htotal := total_update s (s.sleep w) (rank k) rfl
      rw [hw] at htotal
      show (s.sleep w).total (rank k) + (k + 3) * (n - s.nItemsStarted) + 1 ≤ potential s + 0
      simp only [rank, potential] at htotal ⊢
      omega
    · have htotal := total_update s (s.leave w) (rank k) rfl
      rw [hw] at htotal
      show (s.leave w).total (rank k) + (k + 3) * (n - s.nItemsStarted) + 1 ≤ potential s + 0
      simp only [rank, potential] at htotal ⊢
      omega
    · have htotal := total_update s (s.take w v rest) (rank k) rfl
      rw [hw] at htotal
      have hnew := h.tasks.take hw hqueue
      have hbound : s.nItemsStarted + 1 ≤ n := by
        have hcard := hnew.started_nodup.length_le_card
        rw [Fintype.card_fin] at hcard
        exact hnew.nItemsStarted.trans_le hcard
      obtain ⟨left, hleft⟩ := Nat.exists_eq_add_of_le hbound
      have hold : n - s.nItemsStarted = left + 1 := by omega
      have hnow : n - (s.nItemsStarted + 1) = left := by omega
      show (s.take w v rest).total (rank k) + (k + 3) * (n - (s.nItemsStarted + 1)) + 1 ≤
        potential s + 0
      rw [potential, hold, hnow, Nat.mul_succ]
      simp only [rank] at htotal
      omega
  | finish hw hs =>
    rename_i w v
    have htotal := total_update s (s.finish w v) (rank k) rfl
    rw [hw] at htotal
    have hnotified := hs.total_le
    have hstarted : s'.nItemsStarted = s.nItemsStarted := by
      rw [hs.eq]
      rfl
    show potential s' + 1 ≤ potential s + 0
    rw [potential, potential, hstarted]
    simp only [rank] at htotal
    omega
  | spurious hw =>
    rename_i w
    have htotal := total_update s (s.wake w) (rank k) rfl
    rw [hw] at htotal
    show (s.wake w).total (rank k) + (k + 3) * (n - s.nItemsStarted) + 1 ≤ potential s + 2
    simp only [rank, potential] at htotal ⊢
    omega

def spuriousWakings (es : List (WorkerEvent n k)) : Nat := es.countP WorkerEvent.isSpurious

theorem Invariant.potential_run (hk : 0 < k) (h : Runs (start g k) es s) :
    es.length + potential s ≤ k + (k + 3) * n + 2 * spuriousWakings es := by
  generalize hstart : start g k = s₀ at h
  induction h with
  | refl =>
    subst hstart
    simp [potential, start, total, rank, spuriousWakings]
  | tail hrun hs ih =>
    rename_i e
    have hstep := (Invariant.run hk (hstart ▸ hrun)).potential_step hs
    rw [List.length_append, List.length_singleton, spuriousWakings, List.countP_append,
      List.countP_singleton]
    unfold spuriousWakings at ih
    cases hspurious : e.isSpurious with
    | false =>
      simp only [hspurious, Bool.false_eq_true, ↓reduceIte] at hstep ⊢
      omega
    | true =>
      simp only [hspurious, ↓reduceIte] at hstep ⊢
      omega

theorem Runs.split {s₀ : ThreadWorkers n k} (h : Runs s₀ es s) {es₁ es₂ : List (WorkerEvent n k)}
    {e : WorkerEvent n k} (hes : es = es₁ ++ e :: es₂) :
    ∃ s₁ s₂, Runs s₀ es₁ s₁ ∧ Step s₁ e s₂ := by
  induction h generalizing es₂ with
  | refl => simp at hes
  | tail hrun hs ih =>
    rcases es₂.eq_nil_or_concat with rfl | ⟨l, x, rfl⟩
    · obtain ⟨rfl, heq⟩ := List.append_inj' hes rfl
      cases heq
      exact ⟨_, _, hrun, hs⟩
    · rw [List.concat_eq_append, ← List.cons_append, ← List.append_assoc] at hes
      exact ih (List.append_inj' hes rfl).1

theorem nWorkers_pos (nVertices requested hardwareConcurrency : Nat) :
    0 < nWorkers nVertices requested hardwareConcurrency :=
  Nat.lt_of_lt_of_le Nat.zero_lt_one (Nat.le_max_left ..)

theorem Tasks.finished_of_settled (h : Tasks g es s) (hv : hasOutEdges s.dependencies v = false)
    {u : Fin n} (hu : g.DependsOn v u) : u ∈ finishedTasks es := by
  by_contra hnot
  refine hasOutEdges_eq_false.mp hv u ?_
  rw [h.dependencies]
  exact List.mem_filter.mpr ⟨hu, by simpa using hnot⟩

theorem Invariant.head_isSome (h : Invariant g es s) (w : Fin k) : (s.head w).isSome := by
  unfold head
  split
  next =>
    split
    next => rfl
    next hlt => rw [if_pos (Nat.le_antisymm h.tasks.finished_le (Nat.not_lt.mp hlt))]; rfl
  next v rest hqueue =>
    have hsettled := (h.tasks.settled v).mp (.inl (by simp [hqueue]))
    rw [hsettled]
    rfl

/-- While a worker has not returned, some worker can go on without a spurious waking. -/
theorem Invariant.progress (h : Invariant g es s) (hw : s.workers w ≠ .returned) :
    ∃ e s', Step s e s' ∧ e.isSpurious = false := by
  have hready : ∀ w, s.workers w = .ready → ∃ e s', Step s e s' ∧ e.isSpurious = false := by
    intro w hw
    obtain ⟨⟨s', e⟩, hhead⟩ := Option.isSome_iff_exists.mp (h.head_isSome w)
    refine ⟨e, s', .head hw hhead, ?_⟩
    rcases head_cases hhead with ⟨_, _, _, rfl⟩ | ⟨_, _, _, rfl⟩ | ⟨_, _, _, _, rfl⟩ <;> rfl
  have hworking : ∀ w v, s.workers w = .working v →
      ∃ e s', Step s e s' ∧ e.isSpurious = false := by
    intro w v hw
    obtain ⟨s', hs'⟩ := exists_notified (s.finish w v) (s.finishNotification w v)
    exact ⟨_, s', .finish hw hs', rfl⟩
  cases hstate : s.workers w with
  | returned => exact absurd hstate hw
  | ready => exact hready w hstate
  | working v => exact hworking w v hstate
  | waiting =>
    rcases h.sleepers.waiting w hstate with hqueue | hlt
    · obtain ⟨w', hw' | ⟨v, hw'⟩⟩ := h.sleepers.awake hqueue
      · exact hready w' hw'
      · exact hworking w' v hw'
    · obtain ⟨w', v, hw'⟩ := h.tasks.exists_working hlt
      exact hworking w' v hw'

theorem gone_le_one (x : WorkerState n) : gone x ≤ 1 := by
  cases x <;> simp [gone]

theorem Tasks.isFinished_iff (h : Tasks g es s) :
    s.isFinished = true ↔ ∀ w, s.workers w = .returned := by
  have hone : ∀ x : WorkerState n, gone x = 1 ↔ x = .returned := by
    intro x
    cases x <;> simp [gone]
  have hsum : s.total gone = k ↔ ∀ w ∈ Finset.univ, gone (s.workers w) = 1 := by
    rw [← Finset.sum_eq_sum_iff_of_le fun w _ => gone_le_one (s.workers w)]
    simp [total]
  rw [isFinished, decide_eq_true_eq, h.nWorkersFinished, hsum]
  simp [hone]

theorem Invariant.finished_iff (h : Invariant g es s) (hw : s.workers w = .returned) :
    v ∈ finishedTasks es ↔ v ∈ startedTasks es := by
  refine ⟨fun hv => h.tasks.finished_started hv, fun hv => ?_⟩
  by_contra hvnot
  obtain ⟨w', hw'⟩ := (h.tasks.working v).mpr ⟨hv, hvnot⟩
  have hlt := h.tasks.finished_lt hw'
  have heq := (h.sleepers.returned w hw).2
  omega

/-- Once a worker has returned, what is done is what reaches no cycle. -/
theorem Invariant.done_iff (h : Invariant g es s) (hw : s.workers w = .returned) (v : Fin n) :
    v ∈ finishedTasks es ↔ ¬ReachesCycle g.DependsOn v := by
  refine done_iff_not_reachesCycle {v | v ∈ finishedTasks es} ?_ ?_
  · exact fun v hv => h.tasks.acc v (.inr (h.tasks.finished_started hv))
  · intro v hall
    have hnone : hasOutEdges s.dependencies v = false := by
      rw [hasOutEdges_eq_false, h.tasks.dependencies]
      intro u hu
      have hmem := List.mem_filter.mp hu
      exact absurd (hall u hmem.1) (by simpa using hmem.2)
    rcases (h.tasks.settled v).mpr hnone with hqueue | hstarted
    · rw [(h.sleepers.returned w hw).1] at hqueue
      cases hqueue
    · exact (h.finished_iff hw).mpr hstarted

theorem busy_add_gone_le_one (x : WorkerState n) : busy x + gone x ≤ 1 := by
  cases x <;> simp [busy, gone]

theorem Tasks.workers_le (h : Tasks g es s) : s.nWorkersRunning + s.nWorkersFinished ≤ k := by
  rw [h.nWorkersRunning, h.nWorkersFinished, total, total, ← Finset.sum_add_distrib]
  calc ∑ w, (busy (s.workers w) + gone (s.workers w)) ≤ ∑ _w : Fin k, 1 :=
        Finset.sum_le_sum fun w _ => busy_add_gone_le_one (s.workers w)
    _ = k := by simp

theorem Tasks.running_pos (h : Tasks g es s) (hw : s.workers w = .working v) :
    0 < s.nWorkersRunning := by
  have hle : busy (s.workers w) ≤ s.total busy :=
    Finset.single_le_sum (f := fun w => busy (s.workers w)) (fun _ _ => Nat.zero_le _)
      (Finset.mem_univ w)
  rw [hw] at hle
  exact h.nWorkersRunning ▸ hle

theorem Tasks.started_step {e : WorkerEvent n k} (h : Tasks g es s) (hs : Step s e s')
    (heq : s.nItemsStarted = s.nItemsFinished + s.nWorkersRunning) :
    s'.nItemsStarted = s'.nItemsFinished + s'.nWorkersRunning := by
  cases hs with
  | head hw hs =>
    rcases head_cases hs with ⟨_, _, rfl, _⟩ | ⟨_, _, rfl, _⟩ | ⟨v, rest, _, rfl, _⟩
    · exact heq
    · exact heq
    · exact congrArg (· + 1) heq
  | finish hw hs =>
    have hpos := h.running_pos hw
    rw [hs.eq]
    show s.nItemsStarted = s.nItemsFinished + 1 + (s.nWorkersRunning - 1)
    omega
  | spurious hw => exact heq

theorem Invariant.started_run (hk : 0 < k) (h : Runs (start g k) es s) :
    s.nItemsStarted = s.nItemsFinished + s.nWorkersRunning := by
  generalize hstart : start g k = s₀ at h
  induction h with
  | refl => exact hstart ▸ rfl
  | tail hrun hs ih => exact (Invariant.run hk (hstart ▸ hrun)).tasks.started_step hs ih

end

def firstTask : Fin 2 := (Fin.last 0).castSucc

def secondTask : Fin 2 := Fin.last 1

/-- The second task depends on the first. -/
def twoTasks : DependencyGraph 2 Unit := ⟨fun _ => (), [(secondTask, firstTask)]⟩

def soleWorker : Fin (nWorkers 2 1 4) := ⟨0, by decide⟩

def twoTasksEvents : List (WorkerEvent 2 (nWorkers 2 1 4)) :=
  [.started soleWorker firstTask, .finished soleWorker firstTask, .started soleWorker secondTask,
    .finished soleWorker secondTask, .returned soleWorker]

theorem twoTasks_runs :
    ∃ s, Runs (start twoTasks (nWorkers 2 1 4)) twoTasksEvents s ∧ s.isFinished = true := by
  refine ⟨_, .tail (.tail (.tail (.tail (.tail (.refl _) (.head (w := soleWorker) rfl rfl))
    (.finish (w := soleWorker) rfl .nobody)) (.head (w := soleWorker) rfl rfl))
    (.finish (w := soleWorker) rfl .all)) (.head (w := soleWorker) rfl rfl), rfl⟩

section
variable (g : DependencyGraph n Task) (requested hardwareConcurrency : Nat)
  {es : List (WorkerEvent n (nWorkers n requested hardwareConcurrency))}
  {s : ThreadWorkers n (nWorkers n requested hardwareConcurrency)}

/-- No task is done twice, and a task is started when all that it depends on has finished. -/
theorem started_after_dependencies
    (h : Runs (start g (nWorkers n requested hardwareConcurrency)) es s) :
    (startedTasks es).Nodup ∧ (finishedTasks es).Nodup ∧ finishedTasks es ⊆ startedTasks es ∧
      ∀ es₁ w v es₂, es = es₁ ++ .started w v :: es₂ →
        ¬ReachesCycle g.DependsOn v ∧ ∀ u, g.DependsOn v u → u ∈ finishedTasks es₁ := by
  have hinv := Invariant.run (nWorkers_pos ..) h
  refine ⟨hinv.tasks.started_nodup, hinv.tasks.finished_nodup, hinv.tasks.finished_started, ?_⟩
  intro es₁ w v es₂ hes
  obtain ⟨s₁, s₂, hrun, hstep⟩ := h.split hes
  have hinv₁ := (Invariant.run (nWorkers_pos ..) hrun).tasks
  have hqueued : v ∈ s₁.workQueue := by
    cases hstep with
    | head hw hs =>
      rcases head_cases hs with ⟨_, _, _, he⟩ | ⟨_, _, _, he⟩ | ⟨_, _, hqueue, _, he⟩
      · cases he
      · cases he
      · cases he
        simp [hqueue]
  refine ⟨not_reachesCycle_of_acc (hinv₁.acc v (.inl hqueued)), fun u hu => ?_⟩
  exact hinv₁.finished_of_settled ((hinv₁.settled v).mp (.inl hqueued)) hu

theorem twoTasks_started_after_dependencies :
    ∃ s, Runs (start twoTasks (nWorkers 2 1 4)) twoTasksEvents s ∧
      ∀ u, twoTasks.DependsOn secondTask u → u ∈ finishedTasks (twoTasksEvents.take 2) := by
  obtain ⟨s, h, _⟩ := twoTasks_runs
  exact ⟨s, h, ((started_after_dependencies twoTasks 1 4 h).2.2.2 (twoTasksEvents.take 2)
    soleWorker secondTask (twoTasksEvents.drop 3) rfl).2⟩

/-- However the threads are scheduled, they return after a bounded number of steps, spurious
wakings apart, and until then one of them can go on. -/
theorem workers_return (h : Runs (start g (nWorkers n requested hardwareConcurrency)) es s) :
    es.length ≤ nWorkers n requested hardwareConcurrency +
        (nWorkers n requested hardwareConcurrency + 3) * n + 2 * spuriousWakings es ∧
      (∀ w, s.workers w ≠ .returned → ∃ e s', Step s e s' ∧ e.isSpurious = false) ∧
      ∀ w, (s.head w).isSome := by
  have hinv := Invariant.run (nWorkers_pos ..) h
  refine ⟨?_, fun w hw => hinv.progress hw, hinv.head_isSome⟩
  have hbound := Invariant.potential_run (nWorkers_pos ..) h
  omega

def busyWorker : Fin (nWorkers 2 2 4) := ⟨0, by decide⟩

def sleeper : Fin (nWorkers 2 2 4) := ⟨1, by decide⟩

/-- One worker sleeps while the other is at the first task, and the threads go on. -/
theorem twoTasks_workers_return :
    ∃ s, Runs (start twoTasks (nWorkers 2 2 4)) [.started busyWorker firstTask, .slept sleeper] s ∧
      s.workers sleeper = .waiting ∧ ∃ e s', Step s e s' ∧ e.isSpurious = false := by
  have hrun : ∃ s, Runs (start twoTasks (nWorkers 2 2 4))
      [.started busyWorker firstTask, .slept sleeper] s ∧ s.workers sleeper = .waiting :=
    ⟨_, .tail (.tail (.refl _) (.head (w := busyWorker) rfl rfl)) (.head (w := sleeper) rfl rfl), rfl⟩
  obtain ⟨s, h, hwaiting⟩ := hrun
  exact ⟨s, h, hwaiting, (workers_return twoTasks 2 4 h).2.1 sleeper (by simp [hwaiting])⟩

/-- When the workers have returned, the tasks that reach no cycle are done, and `wait` throws
exactly for a graph that has a cycle. -/
theorem possible_work_done (h : Runs (start g (nWorkers n requested hardwareConcurrency)) es s)
    (hfinished : s.isFinished = true) :
    (∀ v, v ∈ finishedTasks es ↔ ¬ReachesCycle g.DependsOn v) ∧
      (s.containsCycle = true ↔ ∃ v, Relation.TransGen g.DependsOn v v) := by
  have hinv := Invariant.run (nWorkers_pos ..) h
  have hdone := hinv.done_iff
    (hinv.tasks.isFinished_iff.mp hfinished ⟨0, nWorkers_pos ..⟩)
  refine ⟨hdone, ?_⟩
  rw [← exists_open_iff {v | v ∈ finishedTasks es} hdone, containsCycle,
    Bool.not_eq_true', List.isEmpty_eq_false_iff_exists_mem, hinv.tasks.dependencies]
  simp [DependencyGraph.DependsOn, List.mem_filter]

theorem twoTasks_work_done :
    ∃ s, Runs (start twoTasks (nWorkers 2 1 4)) twoTasksEvents s ∧
      ∀ v, v ∈ finishedTasks twoTasksEvents ↔ ¬ReachesCycle twoTasks.DependsOn v := by
  obtain ⟨s, h, hfinished⟩ := twoTasks_runs
  exact ⟨s, h, (possible_work_done twoTasks 1 4 h hfinished).1⟩

/-- What other threads are told of the progress is right whenever they hold the mutex. -/
theorem progress_reports (h : Runs (start g (nWorkers n requested hardwareConcurrency)) es s) :
    s.nItemsStarted = s.nItemsFinished + s.nWorkersRunning ∧
      s.nWorkersNow.2 ≤ s.nWorkersNow.1 ∧
      (∀ v, v ∈ s.runningTasks ↔ v ∈ startedTasks es ∧ v ∉ finishedTasks es) ∧
      (s.isFinished = true ↔ ∀ w, s.workers w = .returned) := by
  have hinv := Invariant.run (nWorkers_pos ..) h
  refine ⟨Invariant.started_run (nWorkers_pos ..) h, ?_, ?_, hinv.tasks.isFinished_iff⟩
  · have hle := hinv.tasks.workers_le
    show s.nWorkersRunning ≤ nWorkers n requested hardwareConcurrency - s.nWorkersFinished
    omega
  · exact fun v => (hinv.tasks.runningTasks v).trans (hinv.tasks.working v)

theorem twoTasks_progress_reports :
    ∃ s, Runs (start twoTasks (nWorkers 2 1 4)) twoTasksEvents s ∧
      ∀ w, s.workers w = .returned := by
  obtain ⟨s, h, hfinished⟩ := twoTasks_runs
  exact ⟨s, h, (progress_reports twoTasks 1 4 h).2.2.2.mp hfinished⟩

end

end ThreadWorkers

end LoomX
