import Mathlib.Logic.Function.Iterate
import Mathlib.Data.List.Nodup
import Mathlib.Order.Nat

namespace LoomX.Symbolic

structure IdPool where
  nextId : Nat
  endId : Nat

def nPools : Nat := 16

def poolSize : Nat := 10000

/-- The static data of `nextNameCounter` and, for each thread inside a high-water call, its value
and the number of pools it is through with. -/
structure NameCounter (Thread : Type) where
  pools : Fin nPools → IdPool
  globalNextId : Nat
  pending : Thread → Option (Nat × Nat)

inductive NameEvent (Thread : Type) where
  | fresh (t : Thread) (id : Nat)
  | raise (t : Thread) (highWaterMark : Nat)
  | trim (t : Thread)
  | returned (t : Thread) (highWaterMark : Nat)

/-- A pool that ran out takes the next ids of the global counter. -/
def IdPool.replenish (p : IdPool) (globalNextId : Nat) : IdPool × Nat :=
  if p.nextId ≥ p.endId then (⟨globalNextId, globalNextId + poolSize⟩, globalNextId + poolSize)
  else (p, globalNextId)

/-- The body of the inner loop, which discards the ids up to the high-water mark. -/
def IdPool.discard (highWaterMark : Nat) (p : IdPool) : IdPool :=
  if p.endId ≤ highWaterMark then ⟨0, 0⟩
  else if p.nextId ≤ highWaterMark then { p with nextId := highWaterMark + 1 }
  else p

namespace NameCounter

variable {Thread : Type}

def initial : NameCounter Thread where
  pools _ := ⟨0, 0⟩
  globalNextId := 0
  pending _ := none

/-- The block of a request served by one pool: the id and the state it leaves. -/
def takeId (s : NameCounter Thread) (i : Fin nPools) : Nat × NameCounter Thread :=
  let (pool, globalNextId) := (s.pools i).replenish s.globalNextId
  (pool.nextId, { s with
    pools := Function.update s.pools i { pool with nextId := pool.nextId + 1 }
    globalNextId := globalNextId })

def raiseGlobal (s : NameCounter Thread) (highWaterMark : Nat) : NameCounter Thread :=
  if highWaterMark ≥ s.globalNextId then { s with globalNextId := highWaterMark + 1 } else s

/-- The block of a high-water call for one pool, whose inner loop runs once for each pool. -/
def trimPool (s : NameCounter Thread) (highWaterMark : Nat) (i : Fin nPools) :
    NameCounter Thread :=
  { s with pools := Function.update s.pools i ((IdPool.discard highWaterMark)^[nPools] (s.pools i)) }

variable [DecidableEq Thread]

def setPending (s : NameCounter Thread) (t : Thread) (call : Option (Nat × Nat)) :
    NameCounter Thread :=
  { s with pending := Function.update s.pending t call }

/-- One mutex-protected block of some thread, or the return of a high-water call. -/
inductive Step : NameCounter Thread → NameEvent Thread → NameCounter Thread → Prop
  | fresh {s t} (i : Fin nPools) (hidle : s.pending t = none) :
    Step s (.fresh t (s.takeId i).1) (s.takeId i).2
  | raise {s t} (highWaterMark : Nat) (hidle : s.pending t = none) :
    Step s (.raise t highWaterMark)
      ((s.raiseGlobal highWaterMark).setPending t (some (highWaterMark, 0)))
  | trim {s t highWaterMark} (i : Fin nPools) (hcall : s.pending t = some (highWaterMark, i.val)) :
    Step s (.trim t)
      ((s.trimPool highWaterMark i).setPending t (some (highWaterMark, i + 1)))
  | returned {s t highWaterMark} (hcall : s.pending t = some (highWaterMark, nPools)) :
    Step s (.returned t highWaterMark) (s.setPending t none)

inductive Run : NameCounter Thread → List (NameEvent Thread) → NameCounter Thread → Prop
  | nil (s) : Run s [] s
  | cons {s₁ s₂ s₃ e es} : Step s₁ e s₂ → Run s₂ es s₃ → Run s₁ (e :: es) s₃

end NameCounter

def NameEvent.freshId {Thread : Type} : NameEvent Thread → Option Nat
  | .fresh _ id => some id
  | _ => none

/-- The ids returned to the calls that asked for one, in their order. -/
def freshIds {Thread : Type} (events : List (NameEvent Thread)) : List Nat :=
  events.filterMap NameEvent.freshId

namespace IdPool

def Offers (p : IdPool) (x : Nat) : Prop :=
  p.nextId ≤ x ∧ x < p.endId

variable {p : IdPool} {g h x : Nat}

theorem offers_replenish_head : (p.replenish g).1.Offers (p.replenish g).1.nextId := by
  unfold replenish Offers poolSize
  split <;> dsimp only <;> omega

theorem offers_of_replenish (hx : (p.replenish g).1.Offers x) :
    p.Offers x ∧ (p.replenish g).2 = g ∨ g ≤ x ∧ x < (p.replenish g).2 := by
  unfold replenish at *
  by_cases hout : p.nextId ≥ p.endId
  · rw [if_pos hout] at *
    exact Or.inr hx
  · rw [if_neg hout] at *
    exact Or.inl ⟨hx, rfl⟩

theorem le_replenish : g ≤ (p.replenish g).2 := by
  unfold replenish
  split <;> dsimp only <;> omega

theorem offers_of_discard (hx : (p.discard h).Offers x) : p.Offers x ∧ h < x := by
  unfold discard Offers at *
  split at hx
  next => exact absurd hx.2 (Nat.not_lt_zero x)
  next hend =>
    split at hx
    next hnext =>
      have hlow : h + 1 ≤ x := hx.1
      exact ⟨⟨by omega, hx.2⟩, hlow⟩
    next hnext =>
      have hlow := hx.1
      exact ⟨hx, by omega⟩

theorem offers_of_iterate {n : Nat} (hx : ((discard h)^[n] p).Offers x) :
    p.Offers x ∧ (0 < n → h < x) := by
  induction n generalizing p with
  | zero => exact ⟨hx, fun hn => absurd hn (Nat.lt_irrefl 0)⟩
  | succ n ih =>
    rw [Function.iterate_succ_apply] at hx
    obtain ⟨hlow, _⟩ := ih hx
    exact ⟨(offers_of_discard hlow).1, fun _ => (offers_of_discard hlow).2⟩

end IdPool

namespace NameCounter

variable {Thread : Type} {s s' : NameCounter Thread} {i j : Fin nPools} {x h : Nat}

theorem offers_takeId (hx : ((s.takeId i).2.pools j).Offers x) :
    (s.pools j).Offers x ∨
      j = i ∧ s.globalNextId ≤ x ∧ x < (s.takeId i).2.globalNextId := by
  simp only [takeId] at *
  by_cases hj : j = i
  · subst hj
    rw [Function.update_self] at hx
    rcases IdPool.offers_of_replenish (g := s.globalNextId) (p := s.pools j)
      ⟨Nat.le_of_succ_le hx.1, hx.2⟩ with hold | hnew
    · exact Or.inl hold.1
    · exact Or.inr ⟨rfl, hnew⟩
  · rw [Function.update_of_ne hj] at hx
    exact Or.inl hx

theorem takeId_offered :
    (s.pools i).Offers (s.takeId i).1 ∨
      s.globalNextId ≤ (s.takeId i).1 ∧ (s.takeId i).1 < (s.takeId i).2.globalNextId :=
  (IdPool.offers_of_replenish IdPool.offers_replenish_head).imp_left And.left

theorem globalNextId_le_takeId : s.globalNextId ≤ (s.takeId i).2.globalNextId :=
  IdPool.le_replenish

/-- The ids of the pools are distinct from one another, from the issued ones and from those the
global counter has left. -/
structure Distinct (s : NameCounter Thread) (issued : List Nat) : Prop where
  below : ∀ i x, (s.pools i).Offers x → x < s.globalNextId
  disjoint : ∀ i j x, (s.pools i).Offers x → (s.pools j).Offers x → i = j
  nodup : issued.Nodup
  issued_below : ∀ x ∈ issued, x < s.globalNextId
  not_offered : ∀ x ∈ issued, ∀ i, ¬(s.pools i).Offers x

theorem lt_of_offers_takeId (hx : ((s.takeId i).2.pools i).Offers x) : (s.takeId i).1 < x := by
  simp only [takeId, Function.update_self] at *
  exact hx.1

theorem Distinct.takeId {issued : List Nat} (h : Distinct s issued) (i : Fin nPools) :
    Distinct (s.takeId i).2 (issued ++ [(s.takeId i).1]) := by
  have hle := s.globalNextId_le_takeId (i := i)
  have hid := s.takeId_offered (i := i)
  have hnew (j : Fin nPools) : ¬((s.takeId i).2.pools j).Offers (s.takeId i).1 := by
    intro hj
    by_cases hji : j = i
    · subst hji
      exact Nat.lt_irrefl _ (lt_of_offers_takeId hj)
    · have hold := (offers_takeId hj).resolve_right fun hi => hji hi.1
      rcases hid with hid | hid
      · exact hji (h.disjoint j i _ hold hid)
      · have := h.below j _ hold
        omega
  refine ⟨fun j x hx => ?_, fun j k x hj hk => ?_, ?_, fun x hx => ?_, fun x hx j hj => ?_⟩
  · rcases offers_takeId hx with hold | hi
    · have := h.below j x hold
      omega
    · exact hi.2.2
  · rcases offers_takeId hj with hoj | hij <;> rcases offers_takeId hk with hok | hik
    · exact h.disjoint j k x hoj hok
    · have := h.below j x hoj
      omega
    · have := h.below k x hok
      omega
    · exact hij.1.trans hik.1.symm
  · refine List.nodup_append.mpr ⟨h.nodup, List.nodup_singleton _, fun x hx y hy heq => ?_⟩
    rw [List.mem_singleton.mp hy] at heq
    subst heq
    rcases hid with hid | hid
    · exact h.not_offered _ hx i hid
    · have := h.issued_below _ hx
      omega
  · rcases List.mem_append.mp hx with hx | hx
    · have := h.issued_below x hx
      omega
    · rw [List.mem_singleton.mp hx]
      rcases hid with hid | hid
      · have := h.below i _ hid
        omega
      · exact hid.2
  · rcases List.mem_append.mp hx with hx | hx
    · rcases offers_takeId hj with hold | hi
      · exact h.not_offered x hx j hold
      · have := h.issued_below x hx
        omega
    · rw [List.mem_singleton.mp hx] at hj
      exact hnew j hj

/-- A step that only narrows the pools and raises the counter. -/
theorem Distinct.narrow {issued : List Nat} (h : Distinct s issued)
    (hpools : ∀ i x, (s'.pools i).Offers x → (s.pools i).Offers x)
    (hle : s.globalNextId ≤ s'.globalNextId) : Distinct s' issued :=
  ⟨fun i x hx => (h.below i x (hpools i x hx)).trans_le hle,
    fun i j x hi hj => h.disjoint i j x (hpools i x hi) (hpools j x hj), h.nodup,
    fun x hx => (h.issued_below x hx).trans_le hle,
    fun x hx i hi => h.not_offered x hx i (hpools i x hi)⟩

theorem offers_trimPool (hx : ((s.trimPool h i).pools j).Offers x) :
    (s.pools j).Offers x ∧ (j = i → h < x) := by
  simp only [trimPool] at hx
  by_cases hj : j = i
  · subst hj
    rw [Function.update_self] at hx
    obtain ⟨hold, hlt⟩ := IdPool.offers_of_iterate hx
    exact ⟨hold, fun _ => hlt (by decide)⟩
  · rw [Function.update_of_ne hj] at hx
    exact ⟨hx, fun heq => absurd heq hj⟩

theorem raiseGlobal_pools (s : NameCounter Thread) (h : Nat) : (s.raiseGlobal h).pools = s.pools := by
  unfold raiseGlobal
  split <;> rfl

theorem le_raiseGlobal (s : NameCounter Thread) (h : Nat) :
    s.globalNextId ≤ (s.raiseGlobal h).globalNextId ∧ h < (s.raiseGlobal h).globalNextId := by
  unfold raiseGlobal
  split
  next hge => exact ⟨Nat.le_succ_of_le hge, Nat.lt_succ_self h⟩
  next hge => exact ⟨Nat.le_refl _, not_le.mp hge⟩

/-- No id up to a mark is left in the pools below an index or in the counter. -/
def Above (s : NameCounter Thread) (h k : Nat) : Prop :=
  h < s.globalNextId ∧ ∀ i : Fin nPools, i < k → ∀ x, (s.pools i).Offers x → h < x

theorem Above.takeId {k : Nat} (hs : Above s h k) (i : Fin nPools) : Above (s.takeId i).2 h k := by
  refine ⟨hs.1.trans_le globalNextId_le_takeId, fun j hj x hx => ?_⟩
  rcases offers_takeId hx with hold | hi
  · exact hs.2 j hj x hold
  · have := hs.1
    omega

theorem Above.lt_takeId (hs : Above s h nPools) (i : Fin nPools) : h < (s.takeId i).1 := by
  rcases s.takeId_offered (i := i) with hid | hid
  · exact hs.2 i i.isLt _ hid
  · have := hs.1
    omega

theorem Above.narrow {k : Nat} (hs : Above s h k)
    (hpools : ∀ i x, (s'.pools i).Offers x → (s.pools i).Offers x)
    (hle : s.globalNextId ≤ s'.globalNextId) : Above s' h k :=
  ⟨hs.1.trans_le hle, fun i hi x hx => hs.2 i hi x (hpools i x hx)⟩

section

variable [DecidableEq Thread] {e : NameEvent Thread} {events : List (NameEvent Thread)}

theorem setPending_self (s : NameCounter Thread) (t : Thread) (call : Option (Nat × Nat)) :
    (s.setPending t call).pending t = call := by
  simp [setPending]

theorem setPending_of_ne (s : NameCounter Thread) {t u : Thread} (call : Option (Nat × Nat))
    (h : u ≠ t) : (s.setPending t call).pending u = s.pending u := by
  simp [setPending, h]

/-- What a step leaves in the pools and in the counter when it issues no id. -/
theorem Step.narrows (hstep : Step s e s') (hid : e.freshId = none) :
    (∀ i x, (s'.pools i).Offers x → (s.pools i).Offers x) ∧
      s.globalNextId ≤ s'.globalNextId := by
  cases hstep with
  | fresh i hidle => contradiction
  | raise highWaterMark hidle =>
    refine ⟨fun i x hx => ?_, (s.le_raiseGlobal highWaterMark).1⟩
    rwa [setPending, raiseGlobal_pools] at hx
  | trim i hcall => exact ⟨fun j x hx => (offers_trimPool hx).1, Nat.le_refl _⟩
  | returned hcall => exact ⟨fun _ _ hx => hx, Nat.le_refl _⟩

theorem Above.step {k : Nat} (hs : Above s h k) (hstep : Step s e s') : Above s' h k := by
  cases he : e.freshId with
  | none =>
    obtain ⟨hpools, hle⟩ := hstep.narrows he
    exact hs.narrow hpools hle
  | some id =>
    cases hstep with
    | fresh i hidle => exact hs.takeId i
    | _ => contradiction

theorem Distinct.step {issued : List Nat} (hs : Distinct s issued) (hstep : Step s e s') :
    Distinct s' (issued ++ e.freshId.toList) := by
  cases he : e.freshId with
  | none =>
    obtain ⟨hpools, hle⟩ := hstep.narrows he
    simpa using hs.narrow hpools hle
  | some id =>
    cases hstep with
    | fresh i hidle =>
      cases he
      exact hs.takeId i
    | _ => contradiction

/-- A call in progress has cleared the counter and the pools it is through with. -/
def Calls (s : NameCounter Thread) : Prop :=
  ∀ t h k, s.pending t = some (h, k) → Above s h k

theorem Calls.step (hs : Calls s) (hstep : Step s e s') : Calls s' := by
  intro t h k hcall
  have hkeep (hold : s.pending t = some (h, k)) : Above s' h k := (hs t h k hold).step hstep
  cases hstep with
  | fresh i hidle => exact hkeep hcall
  | @raise u highWaterMark hidle =>
    by_cases htu : t = u
    · subst htu
      rw [setPending_self] at hcall
      cases hcall
      exact ⟨(s.le_raiseGlobal h).2, fun i hi => absurd hi (Nat.not_lt_zero _)⟩
    · rw [setPending_of_ne _ _ htu, raiseGlobal] at hcall
      split at hcall <;> exact hkeep hcall
  | @trim u h' i hprogress =>
    by_cases htu : t = u
    · subst htu
      rw [setPending_self] at hcall
      cases hcall
      obtain ⟨hglobal, hpools⟩ := hs t h i hprogress
      refine ⟨hglobal, fun j hj x hx => ?_⟩
      obtain ⟨hold, hlt⟩ := offers_trimPool hx
      rcases Nat.lt_succ_iff_lt_or_eq.mp hj with hj | hj
      · exact hpools j hj x hold
      · exact hlt (Fin.ext hj)
    · rw [setPending_of_ne _ _ htu] at hcall
      exact hkeep hcall
  | @returned u h' hprogress =>
    by_cases htu : t = u
    · subst htu
      rw [setPending_self] at hcall
      contradiction
    · rw [setPending_of_ne _ _ htu] at hcall
      exact hkeep hcall

theorem Run.distinct {issued : List Nat} (hrun : Run s events s') (hs : Distinct s issued) :
    Distinct s' (issued ++ freshIds events) := by
  induction hrun generalizing issued with
  | nil s => simpa [freshIds] using hs
  | @cons s₁ s₂ s₃ e es hstep _ ih =>
    have hrest := ih (hs.step hstep)
    rw [List.append_assoc] at hrest
    have hids : e.freshId.toList ++ freshIds es = freshIds (e :: es) := by
      unfold freshIds
      cases he : e.freshId <;> simp [he]
    rwa [hids] at hrest

theorem Run.calls (hrun : Run s events s') (hs : Calls s) : Calls s' := by
  induction hrun with
  | nil s => exact hs
  | cons hstep _ ih => exact ih (hs.step hstep)

theorem Run.lt_freshIds (hrun : Run s events s') (hs : Above s h nPools) :
    ∀ id ∈ freshIds events, h < id := by
  induction hrun with
  | nil s => simp [freshIds]
  | @cons s₁ s₂ s₃ e es hstep _ ih =>
    intro id hid
    obtain ⟨e', he', hfresh⟩ := List.mem_filterMap.mp hid
    rcases List.mem_cons.mp he' with rfl | he'
    · cases hstep with
      | fresh i hidle =>
        cases hfresh
        exact hs.lt_takeId i
      | _ => contradiction
    · exact ih (hs.step hstep) id (List.mem_filterMap.mpr ⟨e', he', hfresh⟩)

theorem Run.split {before after : List (NameEvent Thread)}
    (hrun : Run s (before ++ e :: after) s') :
    ∃ s₁ s₂, Run s before s₁ ∧ Step s₁ e s₂ ∧ Run s₂ after s' := by
  induction before generalizing s with
  | nil =>
    cases hrun with
    | cons hstep hrest => exact ⟨s, _, .nil s, hstep, hrest⟩
  | cons e' before ih =>
    cases hrun with
    | cons hstep hrest =>
      obtain ⟨s₁, s₂, hbefore, hmid, hafter⟩ := ih hrest
      exact ⟨s₁, s₂, .cons hstep hbefore, hmid, hafter⟩

omit [DecidableEq Thread] in
theorem distinct_initial : Distinct (initial : NameCounter Thread) [] :=
  ⟨fun _ x hx => absurd hx.2 (Nat.not_lt_zero x), fun _ _ x hx => absurd hx.2 (Nat.not_lt_zero x),
    List.nodup_nil, nofun, nofun⟩

/-- In every interleaving the fresh ids are distinct, and those issued after a high-water call
has returned lie above its mark. -/
theorem fresh_ids_unique {s : NameCounter Thread} {events : List (NameEvent Thread)}
    (hrun : Run initial events s) :
    (freshIds events).Nodup ∧
      ∀ before after t h, events = before ++ .returned t h :: after →
        ∀ id ∈ freshIds after, h < id := by
  refine ⟨by simpa using (hrun.distinct distinct_initial).nodup, ?_⟩
  rintro before after t h rfl
  obtain ⟨s₁, s₂, hbefore, hmid, hafter⟩ := hrun.split
  have hcalls := hbefore.calls (s := initial) nofun
  have habove : Above s₁ h nPools := by
    cases hmid with
    | returned hcall => exact hcalls t h nPools hcall
  exact hafter.lt_freshIds (habove.step hmid)

/-- One thread takes an id before and one after a high-water call of the other. -/
def raisedInBetween : List (NameEvent Bool) :=
  [.fresh false 0, .raise true 5] ++ List.replicate nPools (.trim true) ++
    [.returned true 5, .fresh false 6]

theorem fresh_ids_unique_two :
    (freshIds raisedInBetween).Nodup ∧ ∀ before after t h,
      raisedInBetween = before ++ .returned t h :: after → ∀ id ∈ freshIds after, h < id :=
  fresh_ids_unique <|
    .cons (.fresh ⟨0, by decide⟩ rfl) <| .cons (.raise 5 rfl) <|
    .cons (.trim ⟨0, by decide⟩ rfl) <| .cons (.trim ⟨1, by decide⟩ rfl) <|
    .cons (.trim ⟨2, by decide⟩ rfl) <| .cons (.trim ⟨3, by decide⟩ rfl) <|
    .cons (.trim ⟨4, by decide⟩ rfl) <| .cons (.trim ⟨5, by decide⟩ rfl) <|
    .cons (.trim ⟨6, by decide⟩ rfl) <| .cons (.trim ⟨7, by decide⟩ rfl) <|
    .cons (.trim ⟨8, by decide⟩ rfl) <| .cons (.trim ⟨9, by decide⟩ rfl) <|
    .cons (.trim ⟨10, by decide⟩ rfl) <| .cons (.trim ⟨11, by decide⟩ rfl) <|
    .cons (.trim ⟨12, by decide⟩ rfl) <| .cons (.trim ⟨13, by decide⟩ rfl) <|
    .cons (.trim ⟨14, by decide⟩ rfl) <| .cons (.trim ⟨15, by decide⟩ rfl) <|
    .cons (.returned rfl) <| .cons (.fresh ⟨0, by decide⟩ rfl) (.nil _)

end

end NameCounter

end LoomX.Symbolic
