import Mathlib.Data.Nat.Find
import LoomX.LoopSelection

namespace LoomX

namespace LoopSummary

variable {loops : List LoopSummary}

/-- The loop with the number `k` reads or writes an array that the one with the number `i`
writes. -/
def Touches (loops : List LoopSummary) (i k : Nat) : Prop :=
  ∃ s l, loops[i]? = some s ∧ loops[k]? = some l ∧ s.consumedBy l = true

def OnGpu (loops : List LoopSummary) (k : Nat) : Prop :=
  ∃ l, loops[k]? = some l ∧ l.isGpu = true

instance (loops : List LoopSummary) (k : Nat) : Decidable (OnGpu loops k) :=
  decidable_of_iff (loops[k]?.any isGpu = true) (by cases h : loops[k]? <;> simp [OnGpu, h])

instance (loops : List LoopSummary) (i k : Nat) : Decidable (Touches loops i k) :=
  decidable_of_iff (loops[i]?.any fun s => loops[k]?.any s.consumedBy) (by
    cases h : loops[i]? <;> cases h' : loops[k]? <;> simp [Touches, h, h'])

/-- The first GPU loop after loop `i` that touches what it writes. -/
def Consumer (loops : List LoopSummary) (i g : Nat) : Prop :=
  i < g ∧ OnGpu loops g ∧ Touches loops i g ∧
    ∀ k, i < k → k < g → OnGpu loops k → ¬Touches loops i k

/-- An initialization loop on the CPU that has a consumer. -/
def Couples (loops : List LoopSummary) (i : Nat) : Prop :=
  (∃ s, loops[i]? = some s ∧ s.isGpu = false ∧ s.facts.isInitializationLoop = true) ∧
    ∃ g, Consumer loops i g

/-- A loop that is on the CPU for sure touches the arrays before the consumer does. -/
def Interrupted (loops : List LoopSummary) (i : Nat) : Prop :=
  ∃ g k, Consumer loops i g ∧ i < k ∧ k < g ∧ Touches loops i k ∧ ¬OnGpu loops k ∧
    ¬Couples loops k

/-- No loop that is left on the CPU between a promoted loop and its consumer touches what the
promoted loop writes. -/
def NoStaleData (loops : List LoopSummary) : Prop :=
  ∀ i g k, ¬OnGpu loops i → OnGpu (phaseCouple loops) i → Consumer loops i g → i < k → k < g →
    ¬OnGpu (phaseCouple loops) k → ¬Touches loops i k

theorem consumer_unique {i g g' : Nat} (h : Consumer loops i g) (h' : Consumer loops i g') :
    g = g' := by
  obtain ⟨hlt, hgpu, htouch, hfirst⟩ := h
  obtain ⟨hlt', hgpu', htouch', hfirst'⟩ := h'
  rcases Nat.lt_trichotomy g g' with hgg | hgg | hgg
  · exact absurd htouch (hfirst' g hlt hgg hgpu)
  · exact hgg
  · exact absurd htouch' (hfirst g' hlt' hgg hgpu')

/-- Loops before the first one do not matter to the later ones. -/
theorem touches_cons (s : LoopSummary) (i k : Nat) :
    Touches (s :: loops) (i + 1) (k + 1) ↔ Touches loops i k := Iff.rfl

theorem onGpu_cons (s : LoopSummary) (k : Nat) : OnGpu (s :: loops) (k + 1) ↔ OnGpu loops k := Iff.rfl

theorem consumer_cons (s : LoopSummary) (i g : Nat) :
    Consumer (s :: loops) (i + 1) (g + 1) ↔ Consumer loops i g := by
  simp only [Consumer, touches_cons, onGpu_cons]
  refine ⟨fun ⟨hlt, hgpu, htouch, hfirst⟩ => ⟨by omega, hgpu, htouch, fun k hik hkg => ?_⟩,
    fun ⟨hlt, hgpu, htouch, hfirst⟩ => ⟨by omega, hgpu, htouch, fun k hik hkg => ?_⟩⟩
  · exact hfirst (k + 1) (by omega) (by omega)
  · obtain ⟨j, rfl⟩ : ∃ j, k = j + 1 := ⟨k - 1, by omega⟩
    exact hfirst j (by omega) (by omega)

theorem exists_consumer_cons (s : LoopSummary) (i : Nat) :
    (∃ g, Consumer (s :: loops) (i + 1) g) ↔ ∃ g, Consumer loops i g := by
  constructor
  · rintro ⟨g, h⟩
    obtain ⟨j, rfl⟩ : ∃ j, g = j + 1 := ⟨g - 1, by have := h.1; omega⟩
    exact ⟨j, (consumer_cons s i j).mp h⟩
  · rintro ⟨g, h⟩
    exact ⟨g + 1, (consumer_cons s i g).mpr h⟩

theorem couples_cons (s : LoopSummary) (i : Nat) :
    Couples (s :: loops) (i + 1) ↔ Couples loops i := by
  simp only [Couples, exists_consumer_cons, List.getElem?_cons_succ]

/-- The search for a consumer ends at the first one. -/
theorem exists_consumer_iff (s : LoopSummary) :
    (∃ g, Consumer (s :: loops) 0 g) ↔ ∃ l ∈ loops, l.isGpu = true ∧ s.consumedBy l = true := by
  constructor
  · rintro ⟨g, hlt, ⟨l, hl, hgpu⟩, ⟨s', l', hs, hl', htouch⟩, -⟩
    obtain ⟨j, rfl⟩ : ∃ j, g = j + 1 := ⟨g - 1, by omega⟩
    cases Option.some.inj hs
    cases Option.some.inj (hl.symm.trans hl')
    exact ⟨l, List.mem_of_getElem? hl, hgpu, htouch⟩
  · intro h
    obtain ⟨l, hl, hgpu, htouch⟩ := h
    obtain ⟨j, hj⟩ := List.mem_iff_getElem?.mp hl
    have hexists : ∃ j, OnGpu loops j ∧ Touches (s :: loops) 0 (j + 1) :=
      ⟨j, ⟨l, hj, hgpu⟩, s, l, rfl, hj, htouch⟩
    classical
    have hspec := Nat.find_spec hexists
    refine ⟨Nat.find hexists + 1, by omega, hspec.1, hspec.2, fun k hk hkg hgpu hk' => ?_⟩
    obtain ⟨m, rfl⟩ : ∃ m, k = m + 1 := ⟨k - 1, by omega⟩
    exact Nat.find_min hexists (by omega) ⟨hgpu, hk'⟩

/-- The candidates are the loops that couple. -/
theorem candidate_iff (s : LoopSummary) : s.candidate loops = true ↔ Couples (s :: loops) 0 := by
  simp only [candidate, Couples, exists_consumer_iff, Bool.and_eq_true, List.any_eq_true,
    List.getElem?_cons_zero, Option.some.injEq, exists_eq_left', Bool.not_eq_true']
  refine ⟨fun ⟨⟨⟨hgpu, hinit⟩, _⟩, h⟩ => ⟨⟨hgpu, hinit⟩, h⟩, fun ⟨⟨hgpu, hinit⟩, h⟩ =>
    ⟨⟨⟨hgpu, hinit⟩, ?_⟩, h⟩⟩
  obtain ⟨l, -, -, htouch⟩ := h
  cases hw : s.facts.writes with
  | nil => simp [consumedBy, hw] at htouch
  | cons => rfl

theorem getElem?_phaseCouple (loops : List LoopSummary) (i : Nat) :
    (phaseCouple loops)[i]? = loops[i]?.map fun s =>
      if s.candidate (loops.drop (i + 1)) && s.couplingSafe (loops.drop (i + 1)) then
        { s with target := .gpuOffload }
      else s := by
  induction loops generalizing i with
  | nil => simp [phaseCouple]
  | cons s loops ih =>
    cases i with
    | zero => rfl
    | succ i => simpa only [phaseCouple, List.getElem?_cons_succ, List.drop_succ_cons] using ih i

theorem consumer_one (s l : LoopSummary) :
    Consumer (s :: l :: loops) 0 1 ↔ l.isGpu = true ∧ s.consumedBy l = true := by
  constructor
  · rintro ⟨-, ⟨_, hl, hgpu⟩, ⟨_, _, hs, hl', htouch⟩, -⟩
    cases Option.some.inj hs
    cases Option.some.inj hl
    cases Option.some.inj hl'
    exact ⟨hgpu, htouch⟩
  · rintro ⟨hgpu, htouch⟩
    exact ⟨by omega, ⟨l, rfl, hgpu⟩, ⟨s, l, rfl, rfl, htouch⟩, fun k _ _ => by omega⟩

theorem consumer_skip {s l : LoopSummary} (h : ¬(l.isGpu = true ∧ s.consumedBy l = true)) (g : Nat) :
    Consumer (s :: l :: loops) 0 (g + 2) ↔ Consumer (s :: loops) 0 (g + 1) := by
  constructor
  · rintro ⟨-, hgpu, htouch, hfirst⟩
    refine ⟨by omega, hgpu, htouch, fun k hk hkg => ?_⟩
    obtain ⟨m, rfl⟩ : ∃ m, k = m + 1 := ⟨k - 1, by omega⟩
    exact hfirst (m + 2) (by omega) (by omega)
  · rintro ⟨-, hgpu, htouch, hfirst⟩
    refine ⟨by omega, hgpu, htouch, fun k hk hkg hkgpu hktouch => ?_⟩
    match k, hk with
    | 1, _ =>
      obtain ⟨_, hl, hlgpu⟩ := hkgpu
      obtain ⟨_, _, hs, hl', hconsumed⟩ := hktouch
      cases Option.some.inj hs
      cases Option.some.inj hl
      cases Option.some.inj hl'
      exact h ⟨hlgpu, hconsumed⟩
    | m + 2, _ => exact hfirst (m + 1) (by omega) (by omega) hkgpu hktouch

/-- The loops before the consumer that touch the arrays are on the GPU or candidates. -/
theorem couplingSafe_iff (s : LoopSummary) :
    s.couplingSafe loops = true ↔ ∃ g, Consumer (s :: loops) 0 g ∧ ∀ k, 0 < k → k < g →
      Touches (s :: loops) 0 k → OnGpu (s :: loops) k ∨ Couples (s :: loops) k := by
  induction loops with
  | nil =>
    refine ⟨fun h => by simp [couplingSafe] at h, fun ⟨g, hg, _⟩ => ?_⟩
    obtain ⟨l, hl, -⟩ := (exists_consumer_iff s).mp ⟨g, hg⟩
    exact absurd hl List.not_mem_nil
  | cons l loops ih =>
    by_cases hone : l.isGpu = true ∧ s.consumedBy l = true
    · have hsafe : s.couplingSafe (l :: loops) = true := by simp [couplingSafe, hone.1, hone.2]
      refine iff_of_true hsafe ⟨1, (consumer_one s l).mpr hone, fun k hk hk1 => ?_⟩
      omega
    have hnext : (∃ g, Consumer (s :: l :: loops) 0 g ∧ ∀ k, 0 < k → k < g →
        Touches (s :: l :: loops) 0 k → OnGpu (s :: l :: loops) k ∨ Couples (s :: l :: loops) k) ↔
        (s.consumedBy l = true → l.isGpu = true ∨ l.candidate loops = true) ∧
          s.couplingSafe loops = true := by
      rw [ih]
      constructor
      · rintro ⟨g, hg, hsafe⟩
        match g, hg with
        | 0, hg => exact absurd hg.1 (Nat.lt_irrefl 0)
        | 1, hg => exact absurd ((consumer_one s l).mp hg) hone
        | g + 2, hg =>
          refine ⟨fun htouch => ?_, g + 1, (consumer_skip hone g).mp hg, fun k hk hkg htouch => ?_⟩
          · rcases hsafe 1 (by omega) (by omega) ⟨s, l, rfl, rfl, htouch⟩ with ⟨_, hl, hgpu⟩ | hcouples
            · cases Option.some.inj hl
              exact Or.inl hgpu
            · exact Or.inr ((candidate_iff l).mpr ((couples_cons s 0).mp hcouples))
          · obtain ⟨m, rfl⟩ : ∃ m, k = m + 1 := ⟨k - 1, by omega⟩
            refine (hsafe (m + 2) (by omega) (by omega) htouch).imp_right fun hcouples => ?_
            exact (couples_cons s m).mpr ((couples_cons l m).mp ((couples_cons s (m + 1)).mp hcouples))
      · rintro ⟨hl, g, hg, hsafe⟩
        obtain ⟨j, rfl⟩ : ∃ j, g = j + 1 := ⟨g - 1, by have := hg.1; omega⟩
        refine ⟨j + 2, (consumer_skip hone j).mpr hg, fun k hk hkg htouch => ?_⟩
        match k, hk with
        | 1, _ =>
          obtain ⟨_, _, hs, hl', hconsumed⟩ := htouch
          cases Option.some.inj hs
          cases Option.some.inj hl'
          rcases hl hconsumed with hgpu | hcandidate
          · exact Or.inl ⟨l, rfl, hgpu⟩
          · exact Or.inr ((couples_cons s 0).mpr ((candidate_iff l).mp hcandidate))
        | m + 2, _ =>
          refine (hsafe (m + 1) (by omega) (by omega) htouch).imp_right fun hcouples => ?_
          exact (couples_cons s (m + 1)).mpr ((couples_cons l m).mpr ((couples_cons s m).mp hcouples))
    rw [hnext, couplingSafe]
    by_cases hgpu : l.isGpu = true
    · have hfalse : s.consumedBy l = false := Bool.eq_false_iff.mpr fun h => hone ⟨hgpu, h⟩
      simp [hgpu, hfalse]
    · by_cases hcandidate : l.candidate loops = true
      · simp [hgpu, hcandidate]
      · by_cases htouch : s.consumedBy l = true
        · simp [hgpu, hcandidate, htouch]
        · simp [hgpu, hcandidate, htouch]

theorem touches_drop (n i k : Nat) : Touches (loops.drop n) i k ↔ Touches loops (n + i) (n + k) := by
  simp only [Touches, List.getElem?_drop]

theorem onGpu_drop (n k : Nat) : OnGpu (loops.drop n) k ↔ OnGpu loops (n + k) := by
  simp only [OnGpu, List.getElem?_drop]

theorem consumer_drop (n i g : Nat) :
    Consumer (loops.drop n) i g ↔ Consumer loops (n + i) (n + g) := by
  simp only [Consumer, touches_drop, onGpu_drop, Nat.add_lt_add_iff_left]
  refine and_congr_right fun _ => and_congr_right fun _ => and_congr_right fun _ => ?_
  refine ⟨fun h k hik hkg => ?_, fun h k hik hkg => h (n + k) (by omega) (by omega)⟩
  obtain ⟨j, rfl⟩ : ∃ j, k = n + j := ⟨k - n, by omega⟩
  exact h j (by omega) (by omega)

theorem exists_consumer_drop (n i : Nat) :
    (∃ g, Consumer (loops.drop n) i g) ↔ ∃ g, Consumer loops (n + i) g := by
  constructor
  · rintro ⟨g, h⟩
    exact ⟨n + g, (consumer_drop n i g).mp h⟩
  · rintro ⟨g, h⟩
    obtain ⟨j, rfl⟩ : ∃ j, g = n + j := ⟨g - n, by have := h.1; omega⟩
    exact ⟨j, (consumer_drop n i j).mpr h⟩

theorem couples_drop (n i : Nat) : Couples (loops.drop n) i ↔ Couples loops (n + i) := by
  simp only [Couples, exists_consumer_drop, List.getElem?_drop]

/-- The pass promotes the loops that couple and are not interrupted. -/
theorem onGpu_phaseCouple_iff (i : Nat) :
    OnGpu (phaseCouple loops) i ↔ OnGpu loops i ∨ Couples loops i ∧ ¬Interrupted loops i := by
  cases hi : loops[i]? with
  | none => simp [OnGpu, Couples, getElem?_phaseCouple, hi]
  | some s =>
    have hdrop : loops.drop i = s :: loops.drop (i + 1) := by
      obtain ⟨hlt, hget⟩ := List.getElem?_eq_some_iff.mp hi
      rw [List.drop_eq_getElem_cons hlt, hget]
    have hcandidate : s.candidate (loops.drop (i + 1)) = true ↔ Couples loops i := by
      rw [candidate_iff, ← hdrop, couples_drop, Nat.add_zero]
    have hsafe : Couples loops i →
        (s.couplingSafe (loops.drop (i + 1)) = true ↔ ¬Interrupted loops i) := by
      intro hcouples
      obtain ⟨-, g, hg⟩ := hcouples
      rw [couplingSafe_iff, ← hdrop]
      simp only [consumer_drop, touches_drop, onGpu_drop, couples_drop, Nat.add_zero]
      constructor
      · rintro ⟨g', hg', hall⟩ ⟨g'', k, hg'', hik, hkg, htouch, hgpu, hcouples⟩
        cases consumer_unique hg' hg''
        obtain ⟨j, rfl⟩ : ∃ j, k = i + j := ⟨k - i, by omega⟩
        exact (hall j (by omega) (by omega) htouch).elim hgpu hcouples
      · intro hfree
        obtain ⟨j, rfl⟩ : ∃ j, g = i + j := ⟨g - i, by have := hg.1; omega⟩
        refine ⟨j, hg, fun k hk hkj htouch => ?_⟩
        by_contra hnot
        rw [not_or] at hnot
        exact hfree ⟨i + j, i + k, hg, by omega, by omega, htouch, hnot.1, hnot.2⟩
    have hgpu : OnGpu loops i ↔ s.isGpu = true := by simp [OnGpu, hi]
    have hcpu : Couples loops i → s.isGpu = false := by
      rintro ⟨⟨s', hs', hcpu, -⟩, -⟩
      cases Option.some.inj (hi.symm.trans hs')
      exact hcpu
    rw [hgpu, OnGpu]
    simp only [getElem?_phaseCouple, hi, Option.map_some, Option.some.injEq, exists_eq_left']
    by_cases hcouples : Couples loops i
    · have hcand := hcandidate.mpr hcouples
      by_cases hfree : Interrupted loops i
      · have hconflict : s.couplingSafe (loops.drop (i + 1)) = false :=
          Bool.eq_false_iff.mpr fun h => (hsafe hcouples).mp h hfree
        simp [hconflict, hfree]
      · simp [hcand, (hsafe hcouples).mpr hfree, hcouples, hfree, isGpu]
    · have hcand : s.candidate (loops.drop (i + 1)) = false :=
        Bool.eq_false_iff.mpr fun h => hcouples (hcandidate.mp h)
      simp [hcand, hcouples]

/-- No stale data is left exactly when no candidate that gives way stands between a promoted loop
and its consumer. -/
theorem phaseCouple_noStaleData_iff (loops : List LoopSummary) :
    NoStaleData loops ↔ ∀ i g k, Couples loops i → ¬Interrupted loops i → Consumer loops i g →
      i < k → k < g → Couples loops k → Touches loops i k → ¬Interrupted loops k := by
  have hcpu : ∀ i, Couples loops i → ¬OnGpu loops i := by
    rintro i ⟨⟨s, hs, hcpu, -⟩, -⟩ ⟨s', hs', hgpu⟩
    cases Option.some.inj (hs.symm.trans hs')
    simp [hcpu] at hgpu
  constructor
  · intro h i g k hcouples hfree hg hik hkg hk htouch hinterrupted
    refine h i g k (hcpu i hcouples) ((onGpu_phaseCouple_iff i).mpr (Or.inr ⟨hcouples, hfree⟩)) hg hik
      hkg (fun hgpu => ?_) htouch
    rcases (onGpu_phaseCouple_iff k).mp hgpu with hgpu | ⟨-, hfree'⟩
    · exact hcpu k hk hgpu
    · exact hfree' hinterrupted
  · intro h i g k hi hpromoted hg hik hkg hk htouch
    obtain ⟨hcouples, hfree⟩ := ((onGpu_phaseCouple_iff i).mp hpromoted).resolve_left hi
    rw [onGpu_phaseCouple_iff, not_or] at hk
    have hkcouples : Couples loops k := by
      by_contra hnot
      exact hfree ⟨g, k, hg, hik, hkg, htouch, hk.1, hnot⟩
    exact hk.2 ⟨hkcouples, h i g k hcouples hfree hg hik hkg hkcouples htouch⟩

/-- A loop on the CPU that initializes the arrays, or reads some. -/
def arrayLoop (init : Bool) (reads writes : List String) : LoopSummary :=
  ⟨[], { plainLoop with isInitializationLoop := init, reads := reads, writes := writes },
    .sequential⟩

/-- An initialization of `A`, one of `A` and `B`, a loop that reads `B` and a kernel. -/
def coupledLoops : List LoopSummary :=
  [arrayLoop true [] ["A"], arrayLoop true [] ["A", "B"], arrayLoop false ["B"] [],
    { arrayLoop false ["A", "B"] ["C"] with target := .gpuOffload }]

/-- The first loop is promoted although the second one writes the same array and is not. -/
theorem coupledLoops_stale : ¬NoStaleData coupledLoops := by
  intro h
  refine h 0 3 1 (by decide) (by decide) ⟨by decide, by decide, by decide, fun k hk hk3 => ?_⟩
    (by decide) (by decide) (by decide) (by decide)
  match k, hk, hk3 with
  | 1, _, _ => decide
  | 2, _, _ => decide

end LoopSummary

end LoomX
