import Mathlib.Data.DFinsupp.WellFounded
import Mathlib.Logic.Function.Basic
import Mathlib.Logic.Relation

namespace LoomX.BarrierThreads

/-- The code of a thread that shares a memory with others and meets them at barriers. -/
inductive Code (Address Value : Type) where
  | done
  | load (a : Address) (next : Value → Code Address Value)
  | store (a : Address) (v : Value) (next : Code Address Value)
  | sync (next : Code Address Value)

/-- What a step of a thread does to the memory. -/
inductive Event (Thread Address : Type) where
  | read (t : Thread) (a : Address)
  | write (t : Thread) (a : Address)
  | barrier

structure BlockState (Thread Address Value : Type) where
  memory : Address → Value
  code : Thread → Code Address Value

section
variable {Thread Address Value : Type} [DecidableEq Thread] [DecidableEq Address]

/-- One thread accesses the memory, or all of them pass a barrier. -/
inductive Step : BlockState Thread Address Value → Event Thread Address →
    BlockState Thread Address Value → Prop
  | load {s : BlockState Thread Address Value} {t : Thread} {a : Address}
      {next : Value → Code Address Value} (h : s.code t = .load a next) :
      Step s (.read t a) { s with code := Function.update s.code t (next (s.memory a)) }
  | store {s : BlockState Thread Address Value} {t : Thread} {a : Address} {v : Value}
      {next : Code Address Value} (h : s.code t = .store a v next) :
      Step s (.write t a)
        { memory := Function.update s.memory a v, code := Function.update s.code t next }
  | barrier {s : BlockState Thread Address Value} {next : Thread → Code Address Value}
      (h : ∀ t, s.code t = .sync (next t)) : Step s .barrier { s with code := next }

/-- The steps of the threads in any order. -/
inductive Runs : BlockState Thread Address Value → List (Event Thread Address) →
    BlockState Thread Address Value → Prop
  | refl (s : BlockState Thread Address Value) : Runs s [] s
  | tail {s s' s'' : BlockState Thread Address Value} {es : List (Event Thread Address)}
      {e : Event Thread Address} : Runs s es s' → Step s' e s'' → Runs s (es ++ [e]) s''

def BlockState.Complete (s : BlockState Thread Address Value) : Prop := ∀ t, s.code t = .done

end

namespace Code

section
variable {Address Value : Type}

/-- The addresses that the code may read before the next barrier. -/
def Reads : Code Address Value → Set Address
  | done => ∅
  | load a next => {b | b = a ∨ ∃ v, b ∈ (next v).Reads}
  | store _ _ next => next.Reads
  | sync _ => ∅

/-- The addresses that the code may write before the next barrier. -/
def Writes : Code Address Value → Set Address
  | done => ∅
  | load _ next => {b | ∃ v, b ∈ (next v).Writes}
  | store a _ next => {b | b = a ∨ b ∈ next.Writes}
  | sync _ => ∅

/-- The code alone up to the next barrier, with what is left of it there. -/
def solo [DecidableEq Address] : Code Address Value → (Address → Value) →
    (Address → Value) × Code Address Value
  | done, m => (m, done)
  | load a next, m => (next (m a)).solo m
  | store a v next, m => next.solo (Function.update m a v)
  | sync next, m => (m, sync next)

/-- The run of a code alone depends on the memory through what it reads. -/
theorem solo_congr [DecidableEq Address] {c : Code Address Value} {m m' : Address → Value}
    {kept : Set Address} (h : ∀ b, b ∈ c.Reads ∨ b ∈ kept → m b = m' b) :
    (c.solo m).2 = (c.solo m').2 ∧ ∀ b ∈ kept, (c.solo m).1 b = (c.solo m').1 b := by
  induction c generalizing m m' with
  | done => exact ⟨rfl, fun b hb => h b (.inr hb)⟩
  | sync next => exact ⟨rfl, fun b hb => h b (.inr hb)⟩
  | load a next ih =>
    have ha : m a = m' a := h a (.inl (.inl rfl))
    unfold solo
    rw [ha]
    exact ih _ fun b hb => h b (hb.imp_left fun hb => .inr ⟨_, hb⟩)
  | store a v next ih =>
    unfold solo
    refine ih fun b hb => ?_
    by_cases hba : b = a
    · rw [hba, Function.update_self, Function.update_self]
    · rw [Function.update_of_ne hba, Function.update_of_ne hba]
      exact h b hb

/-- The part of a code that one step leaves. -/
inductive Part : Code Address Value → Code Address Value → Prop
  | load (a : Address) (next : Value → Code Address Value) (v : Value) :
      Part (next v) (.load a next)
  | store (a : Address) (v : Value) (next : Code Address Value) : Part next (.store a v next)
  | sync (next : Code Address Value) : Part next (.sync next)

theorem part_wf : WellFounded (@Part Address Value) := by
  refine ⟨fun c => ?_⟩
  induction c with
  | done => exact ⟨_, fun _ h => nomatch h⟩
  | load a next ih =>
    refine ⟨_, fun _ h => ?_⟩
    cases h with
    | load _ _ v => exact ih v
  | store a v next ih =>
    refine ⟨_, fun _ h => ?_⟩
    cases h with
    | store => exact ih
  | sync next ih =>
    refine ⟨_, fun _ h => ?_⟩
    cases h with
    | sync => exact ih

/-- What is left of a code after some steps of it comes before it. -/
instance : Preorder (Code Address Value) where
  le := Relation.ReflTransGen Part
  lt := Relation.TransGen Part
  le_refl _ := .refl
  le_trans _ _ _ := .trans
  lt_iff_le_not_ge c c' := by
    have hwf : WellFounded (Relation.TransGen (@Part Address Value)) :=
      part_wf.transGen
    constructor
    · intro h
      exact ⟨h.to_reflTransGen, fun h' => hwf.irrefl.irrefl c (h.trans_left h')⟩
    · rintro ⟨h, h'⟩
      rcases Relation.reflTransGen_iff_eq_or_transGen.mp h with heq | h
      · exact absurd (heq ▸ .refl) h'
      · exact h

instance : WellFoundedLT (Code Address Value) := ⟨part_wf.transGen⟩

theorem Part.lt {c c' : Code Address Value} (h : Part c c') : c < c' := .single h

end

end Code

section
variable {Thread Address Value : Type}

theorem update_lt [DecidableEq Thread] {c : Thread → Code Address Value} {t : Thread}
    {next : Code Address Value} (h : next < c t) : Function.update c t next < c := by
  refine Pi.lt_def.mpr ⟨fun u => ?_, t, by rw [Function.update_self]; exact h⟩
  by_cases hu : u = t
  · rw [hu, Function.update_self]
    exact h.le
  · rw [Function.update_of_ne hu]

theorem Step.code_lt [DecidableEq Thread] [DecidableEq Address] [Nonempty Thread]
    {s s' : BlockState Thread Address Value} {e : Event Thread Address} (h : Step s e s') :
    s'.code < s.code := by
  cases h with
  | load hc => exact update_lt (hc ▸ (Code.Part.load _ _ _).lt)
  | store hc => exact update_lt (hc ▸ (Code.Part.store _ _ _).lt)
  | barrier hc =>
    have hlt : ∀ t, _ < s.code t := fun t => hc t ▸ (Code.Part.sync _).lt
    obtain ⟨t⟩ := ‹Nonempty Thread›
    exact Pi.lt_def.mpr ⟨fun t => (hlt t).le, t, hlt t⟩

/-- No run goes on forever. -/
theorem step_wf [DecidableEq Thread] [DecidableEq Address] [Finite Thread] [Nonempty Thread] :
    WellFounded fun s' s : BlockState Thread Address Value => ∃ e, Step s e s' :=
  Subrelation.wf (fun ⟨_, h⟩ => h.code_lt) (InvImage.wf BlockState.code wellFounded_lt)

/-- What a thread writes before the next barrier no other thread reads or writes. -/
def NoRace (c : Thread → Code Address Value) : Prop :=
  ∀ t u, t ≠ u → ∀ a ∈ (c t).Writes, a ∉ (c u).Reads ∧ a ∉ (c u).Writes

variable [DecidableEq Address] {start s s' : BlockState Thread Address Value}
  {e : Event Thread Address} {es : List (Event Thread Address)}

/-- A memory that has for every address what the thread that writes it, if any, leaves alone. -/
structure Settled (start : BlockState Thread Address Value) (memory : Address → Value) : Prop where
  written : ∀ t, ∀ a ∈ (start.code t).Writes,
    memory a = ((start.code t).solo start.memory).1 a
  kept : ∀ a, (∀ t, a ∉ (start.code t).Writes) → memory a = start.memory a

/-- The states between two barriers: each thread has still to do a part of its code and leaves
what it leaves alone. -/
structure Between (start s : BlockState Thread Address Value) : Prop where
  reads : ∀ t, (s.code t).Reads ⊆ (start.code t).Reads
  writes : ∀ t, (s.code t).Writes ⊆ (start.code t).Writes
  rest : ∀ t, ((s.code t).solo s.memory).2 = ((start.code t).solo start.memory).2
  written : ∀ t, ∀ a ∈ (start.code t).Writes,
    ((s.code t).solo s.memory).1 a = ((start.code t).solo start.memory).1 a
  kept : ∀ a, (∀ t, a ∉ (start.code t).Writes) → s.memory a = start.memory a

namespace Between

theorem refl (s : BlockState Thread Address Value) : Between s s :=
  ⟨fun _ => subset_rfl, fun _ => subset_rfl, fun _ => rfl, fun _ _ _ => rfl, fun _ _ => rfl⟩

/-- At the end of a phase each thread is where it comes alone. -/
theorem settled (h : Between start s)
    (hend : ∀ t, (s.code t).solo s.memory = (s.memory, s.code t)) :
    Settled start s.memory ∧ ∀ t, ((start.code t).solo start.memory).2 = s.code t := by
  refine ⟨⟨fun t a ha => ?_, h.kept⟩, fun t => ?_⟩
  · rw [← h.written t a ha, hend t]
  · rw [← h.rest t, hend t]

theorem noRace (h : Between start s) (hrace : NoRace start.code) : NoRace s.code := by
  intro t u htu a ha
  obtain ⟨hread, hwrite⟩ := hrace t u htu a (h.writes t ha)
  exact ⟨fun hu => hread (h.reads u hu), fun hu => hwrite (h.writes u hu)⟩

variable [DecidableEq Thread]

/-- A step of a thread that does not change what the threads do alone. -/
theorem thread (h : Between start s) {t : Thread} {memory : Address → Value}
    {next : Code Address Value} (hreads : next.Reads ⊆ (s.code t).Reads)
    (hwrites : next.Writes ⊆ (s.code t).Writes)
    (hsolo : next.solo memory = (s.code t).solo s.memory)
    (hothers : ∀ u, u ≠ t → ∀ a, a ∈ (start.code u).Reads ∨ a ∈ (start.code u).Writes →
      memory a = s.memory a)
    (hkept : ∀ a, a ∉ (start.code t).Writes → memory a = s.memory a) :
    Between start ⟨memory, Function.update s.code t next⟩ := by
  have halone : ∀ u, u ≠ t → ((s.code u).solo memory).2 = ((s.code u).solo s.memory).2 ∧
      ∀ a ∈ (start.code u).Writes,
        ((s.code u).solo memory).1 a = ((s.code u).solo s.memory).1 a := by
    intro u hu
    exact Code.solo_congr fun a ha => hothers u hu a (ha.imp_left fun ha => h.reads u ha)
  refine ⟨fun u => ?_, fun u => ?_, fun u => ?_, fun u a ha => ?_, fun a ha => ?_⟩
  all_goals dsimp only
  · by_cases hu : u = t
    · rw [hu, Function.update_self]
      exact hreads.trans (h.reads t)
    · rw [Function.update_of_ne hu]
      exact h.reads u
  · by_cases hu : u = t
    · rw [hu, Function.update_self]
      exact hwrites.trans (h.writes t)
    · rw [Function.update_of_ne hu]
      exact h.writes u
  · by_cases hu : u = t
    · rw [hu, Function.update_self, hsolo]
      exact h.rest t
    · rw [Function.update_of_ne hu, (halone u hu).1]
      exact h.rest u
  · by_cases hu : u = t
    · rw [hu, Function.update_self, hsolo]
      exact h.written t a (hu ▸ ha)
    · rw [Function.update_of_ne hu, (halone u hu).2 a ha]
      exact h.written u a ha
  · rw [hkept a (ha t)]
    exact h.kept a ha

theorem step (h : Between start s) (hrace : NoRace start.code) (hstep : Step s e s')
    (he : e ≠ .barrier) : Between start s' := by
  cases hstep with
  | @load t a next hc =>
    refine h.thread ?_ ?_ ?_ (fun _ _ _ _ => rfl) fun _ _ => rfl
    · rw [hc]
      exact fun b hb => .inr ⟨_, hb⟩
    · rw [hc]
      exact fun b hb => ⟨_, hb⟩
    · rw [hc]
      rfl
  | @store t a v next hc =>
    have ha : a ∈ (start.code t).Writes := h.writes t (by rw [hc]; exact .inl rfl)
    refine h.thread ?_ ?_ ?_ (fun u hu b hb => ?_) fun b hb => ?_
    · rw [hc]
      exact subset_rfl
    · rw [hc]
      exact fun b hb => .inr hb
    · rw [hc]
      rfl
    · refine Function.update_of_ne (fun hba => ?_) ..
      obtain ⟨hread, hwrite⟩ := hrace t u (Ne.symm hu) a ha
      rw [hba] at hb
      exact hb.elim hread hwrite
    · refine Function.update_of_ne (fun hba => hb ?_) ..
      rw [hba]
      exact ha
  | barrier => exact absurd rfl he

end Between

/-- The accesses of a thread are those of its code. -/
theorem Step.access [DecidableEq Thread] (h : Step s e s') :
    (∀ t a, e = .read t a → a ∈ (s.code t).Reads) ∧
      ∀ t a, e = .write t a → a ∈ (s.code t).Writes := by
  cases h with
  | load hc =>
    refine ⟨fun t a he => ?_, fun _ _ he => by cases he⟩
    cases he
    rw [hc]
    exact .inl rfl
  | store hc =>
    refine ⟨fun _ _ he => (by cases he), fun t a he => ?_⟩
    cases he
    rw [hc]
    exact .inl rfl
  | barrier => exact ⟨fun _ _ he => (by cases he), fun _ _ he => by cases he⟩

/-- The steps between two barriers are accesses of the codes there. -/
theorem Runs.accesses [DecidableEq Thread] (h : Runs s es s') (hrace : NoRace s.code)
    (hbarrier : .barrier ∉ es) :
    Between s s' ∧ (∀ t a, .read t a ∈ es → a ∈ (s.code t).Reads) ∧
      ∀ t a, .write t a ∈ es → a ∈ (s.code t).Writes := by
  induction h with
  | refl => exact ⟨.refl s, by simp, by simp⟩
  | tail h hstep ih =>
    rw [List.mem_append, List.mem_singleton, not_or] at hbarrier
    obtain ⟨hbetween, hreads, hwrites⟩ := ih hbarrier.1
    obtain ⟨hread, hwrite⟩ := hstep.access
    refine ⟨hbetween.step hrace hstep (Ne.symm hbarrier.2), fun t a ha => ?_, fun t a ha => ?_⟩
    · rcases List.mem_append.mp ha with ha | ha
      · exact hreads t a ha
      · exact hbetween.reads t (hread t a (List.mem_singleton.mp ha).symm)
    · rcases List.mem_append.mp ha with ha | ha
      · exact hwrites t a ha
      · exact hbetween.writes t (hwrite t a (List.mem_singleton.mp ha).symm)

/-- What holds at the start of every phase, and of the memory at the end. -/
structure PhaseInvariant (P : BlockState Thread Address Value → Prop)
    (Q : (Address → Value) → Prop) : Prop where
  noRace : ∀ s, P s → NoRace s.code
  next : ∀ s, P s → ∀ memory, Settled s memory →
    (∃ next, (∀ t, ((s.code t).solo s.memory).2 = .sync (next t)) ∧ P ⟨memory, next⟩) ∨
      (∀ t, ((s.code t).solo s.memory).2 = .done) ∧ Q memory

namespace PhaseInvariant

variable [DecidableEq Thread] {P : BlockState Thread Address Value → Prop}
  {Q : (Address → Value) → Prop}

/-- A run is always in a phase that started with the invariant. -/
theorem runs [Nonempty Thread] (hinv : PhaseInvariant P Q) (hs : P s) (h : Runs s es s') :
    ∃ start, P start ∧ Between start s' := by
  induction h with
  | refl => exact ⟨s, hs, .refl s⟩
  | @tail s₁ s₂ es e h hstep ih =>
    obtain ⟨start, hstart, hbetween⟩ := ih
    by_cases he : e = .barrier
    · subst he
      cases hstep with
      | @barrier next hnext =>
        obtain ⟨hsettled, hrest⟩ := hbetween.settled fun t => by rw [hnext t]; rfl
        rcases hinv.next start hstart _ hsettled with ⟨next', hnext', hP⟩ | ⟨hdone, -⟩
        · refine ⟨_, ?_, .refl _⟩
          have heq : next = next' := by
            funext t
            have hsync := (hrest t).symm.trans (hnext' t)
            rw [hnext t] at hsync
            exact Code.sync.inj hsync
          rw [heq]
          exact hP
        · obtain ⟨t⟩ := ‹Nonempty Thread›
          have hsync := (hrest t).symm.trans (hdone t)
          rw [hnext t] at hsync
          cases hsync
    · exact ⟨start, hstart, hbetween.step (hinv.noRace start hstart) hstep he⟩

/-- The memory at the end of a run. -/
theorem complete [Nonempty Thread] (hinv : PhaseInvariant P Q) (hs : P s) (h : Runs s es s')
    (hcomplete : s'.Complete) : Q s'.memory := by
  obtain ⟨start, hstart, hbetween⟩ := hinv.runs hs h
  obtain ⟨hsettled, hrest⟩ := hbetween.settled fun t => by rw [hcomplete t]; rfl
  rcases hinv.next start hstart _ hsettled with ⟨next, hnext, -⟩ | ⟨-, hQ⟩
  · obtain ⟨t⟩ := ‹Nonempty Thread›
    have hdone := (hrest t).symm.trans (hnext t)
    rw [hcomplete t] at hdone
    cases hdone
  · exact hQ

/-- No thread waits at a barrier forever. -/
theorem progress [Nonempty Thread] (hinv : PhaseInvariant P Q) (hs : P s) (h : Runs s es s') :
    s'.Complete ∨ ∃ e s'', Step s' e s'' := by
  obtain ⟨start, hstart, hbetween⟩ := hinv.runs hs h
  by_cases hend : ∀ t, (s'.code t).solo s'.memory = (s'.memory, s'.code t)
  · obtain ⟨hsettled, hrest⟩ := hbetween.settled hend
    rcases hinv.next start hstart _ hsettled with ⟨next, hnext, -⟩ | ⟨hdone, -⟩
    · exact .inr ⟨_, _, .barrier fun t => (hrest t).symm.trans (hnext t)⟩
    · exact .inl fun t => (hrest t).symm.trans (hdone t)
  · right
    obtain ⟨t, ht⟩ := not_forall.mp hend
    match hc : s'.code t with
    | .done => exact absurd (by rw [hc]; rfl) ht
    | .sync _ => exact absurd (by rw [hc]; rfl) ht
    | .load _ _ => exact ⟨_, _, .load hc⟩
    | .store _ _ _ => exact ⟨_, _, .store hc⟩

/-- Between two barriers no thread reads what another one writes. -/
theorem no_race [Nonempty Thread] (hinv : PhaseInvariant P Q) (hs : P s) (h : Runs s es s')
    {s'' : BlockState Thread Address Value} {segment : List (Event Thread Address)}
    (hsegment : Runs s' segment s'') (hbarrier : .barrier ∉ segment) {t u : Thread} {a : Address}
    (hread : .read t a ∈ segment) (hwrite : .write u a ∈ segment) : t = u := by
  obtain ⟨start, hstart, hbetween⟩ := hinv.runs hs h
  have hrace := hbetween.noRace (hinv.noRace start hstart)
  obtain ⟨-, hreads, hwrites⟩ := hsegment.accesses hrace hbarrier
  by_contra htu
  exact (hrace u t (Ne.symm htu) a (hwrites u a hwrite)).1 (hreads t a hread)

end PhaseInvariant

end

end LoomX.BarrierThreads
