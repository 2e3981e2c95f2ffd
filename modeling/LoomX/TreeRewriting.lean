import Mathlib.Data.List.Basic

namespace LoomX

/-- Trees with labelled nodes. -/
inductive Tree (α : Type)
  | node (label : α) (children : List (Tree α))

namespace Tree

variable {α : Type}

def at? : Tree α → List Nat → Option (Tree α)
  | t, [] => some t
  | node _ cs, k :: rest => cs[k]?.bind (·.at? rest)

/-- The tree with another subtree at an address. -/
def replaceAt : Tree α → List Nat → Tree α → Tree α
  | _, [], new => new
  | node a cs, k :: rest, new => node a (cs.modify k (·.replaceAt rest new))

mutual

/-- The addresses of the nodes that are wanted under their parents, each before those below
it. -/
def chosen (wanted : Option α → α → Bool) (parent : Option α) : Tree α → List (List Nat)
  | node a cs =>
    (if wanted parent a then [[]] else []) ++ chosenFrom wanted (some a) 0 cs

def chosenFrom (wanted : Option α → α → Bool) (parent : Option α) (k : Nat) :
    List (Tree α) → List (List Nat)
  | [] => []
  | c :: cs => (chosen wanted parent c).map (k :: ·) ++ chosenFrom wanted parent (k + 1) cs

end

/-- Rewrites the node at an address listed beforehand. A node below one that has been replaced
is no longer in the tree. -/
def rewriteStep (f : Tree α → Option (Tree α)) (s : Tree α × List (List Nat)) (p : List Nat) :
    Tree α × List (List Nat) :=
  if s.2.any (·.isPrefixOf p) then s
  else
    match (s.1.at? p).bind f with
    | some new => (s.1.replaceAt p new, p :: s.2)
    | none => s

def rewriteAll (f : Tree α → Option (Tree α)) (ps : List (List Nat)) (t : Tree α) : Tree α :=
  (ps.foldl (rewriteStep f) (t, [])).1

mutual

/-- Rewrites from the root on, and not below what it has rewritten. -/
def rewriteDown (wanted : Option α → α → Bool) (f : Tree α → Option (Tree α))
    (parent : Option α) : Tree α → Tree α
  | node a cs =>
    match (if wanted parent a then f (node a cs) else none) with
    | some new => new
    | none => node a (rewriteEach wanted f (some a) cs)

def rewriteEach (wanted : Option α → α → Bool) (f : Tree α → Option (Tree α))
    (parent : Option α) : List (Tree α) → List (Tree α)
  | [] => []
  | c :: cs => rewriteDown wanted f parent c :: rewriteEach wanted f parent cs

end

theorem rewriteEach_eq_map (wanted : Option α → α → Bool) (f : Tree α → Option (Tree α))
    (parent : Option α) (cs : List (Tree α)) :
    rewriteEach wanted f parent cs = cs.map (rewriteDown wanted f parent) := by
  induction cs with
  | nil => rfl
  | cons c cs ih => rw [rewriteEach, ih, List.map_cons]

mutual

theorem node_induction {P : Tree α → Prop}
    (h : ∀ a cs, (∀ c ∈ cs, P c) → P (node a cs)) : ∀ t, P t
  | node a cs => h a cs (each_induction h cs)

theorem each_induction {P : Tree α → Prop}
    (h : ∀ a cs, (∀ c ∈ cs, P c) → P (node a cs)) : ∀ cs : List (Tree α), ∀ c ∈ cs, P c
  | [], _, hc => absurd hc List.not_mem_nil
  | c :: cs, d, hd => by
    rcases List.mem_cons.mp hd with heq | hmem
    · rw [heq]
      exact node_induction h c
    · exact each_induction h cs d hmem

end

theorem at?_append (t : Tree α) (p q : List Nat) :
    t.at? (p ++ q) = (t.at? p).bind (·.at? q) := by
  induction p generalizing t with
  | nil => simp [at?]
  | cons k p ih =>
    obtain ⟨a, cs⟩ := t
    simp only [List.cons_append, at?]
    cases cs[k]? with
    | none => rfl
    | some c => exact ih c

theorem replaceAt_self {t s : Tree α} {p : List Nat} (h : t.at? p = some s) :
    t.replaceAt p s = t := by
  induction p generalizing t with
  | nil =>
    simp only [at?, Option.some.injEq] at h
    rw [replaceAt, h]
  | cons k p ih =>
    obtain ⟨a, cs⟩ := t
    simp only [at?, Option.bind_eq_some_iff] at h
    obtain ⟨c, hc, hs⟩ := h
    rw [replaceAt]
    congr 1
    apply List.ext_getElem?
    intro i
    rw [List.getElem?_modify]
    by_cases hi : k = i
    · subst hi
      simp [hc, ih hs]
    · simp [hi]

theorem at?_replaceAt {t s : Tree α} {p : List Nat} (new : Tree α) (h : t.at? p = some s) :
    (t.replaceAt p new).at? p = some new := by
  induction p generalizing t with
  | nil => rfl
  | cons k p ih =>
    obtain ⟨a, cs⟩ := t
    simp only [at?, Option.bind_eq_some_iff] at h
    obtain ⟨c, hc, hs⟩ := h
    simp [replaceAt, at?, hc, ih hs]

theorem replaceAt_replaceAt (t old new : Tree α) (p : List Nat) :
    (t.replaceAt p old).replaceAt p new = t.replaceAt p new := by
  induction p generalizing t with
  | nil => rfl
  | cons k p ih =>
    obtain ⟨a, cs⟩ := t
    simp only [replaceAt]
    congr 1
    apply List.ext_getElem?
    intro i
    simp only [List.getElem?_modify]
    by_cases hi : k = i
    · simp [hi, ih, Function.comp_def]
    · simp [hi]

/-- Replacing in a subtree is replacing the subtree. -/
theorem replaceAt_append {t s : Tree α} {p : List Nat} (new : Tree α) (q : List Nat)
    (h : t.at? p = some s) : t.replaceAt (p ++ q) new = t.replaceAt p (s.replaceAt q new) := by
  induction p generalizing t with
  | nil =>
    simp only [at?, Option.some.injEq] at h
    rw [h]
    rfl
  | cons k p ih =>
    obtain ⟨a, cs⟩ := t
    simp only [at?, Option.bind_eq_some_iff] at h
    obtain ⟨c, hc, hs⟩ := h
    simp only [List.cons_append, replaceAt]
    congr 1
    apply List.ext_getElem?
    intro i
    simp only [List.getElem?_modify]
    by_cases hi : k = i
    · subst hi
      simp [hc, ih hs]
    · simp [hi]

variable {wanted : Option α → α → Bool} {f : Tree α → Option (Tree α)}

theorem rewriteStep_below {s : Tree α × List (List Nat)} {p r : List Nat} (hr : r ∈ s.2)
    (hp : r <+: p) : rewriteStep f s p = s := by
  have hany : s.2.any (·.isPrefixOf p) = true :=
    List.any_eq_true.mpr ⟨r, hr, List.isPrefixOf_iff_prefix.mpr hp⟩
  rw [rewriteStep, if_pos hany]

theorem foldl_rewriteStep_below {s : Tree α × List (List Nat)} {r : List Nat}
    (hr : r ∈ s.2) (ps : List (List Nat)) (hps : ∀ p ∈ ps, r <+: p) :
    ps.foldl (rewriteStep f) s = s := by
  induction ps with
  | nil => rfl
  | cons p ps ih =>
    rw [List.foldl_cons, rewriteStep_below hr (hps p List.mem_cons_self)]
    exact ih fun p hp => hps p (List.mem_cons_of_mem _ hp)

/-- A node of the tree that no replacement has taken out of it. -/
def Untouched (replaced : List (List Nat)) (p : List Nat) : Prop :=
  ∀ r ∈ replaced, ∀ q, ¬r <+: p ++ q

theorem rewriteStep_untouched {t s : Tree α} {replaced : List (List Nat)} {p : List Nat}
    (hs : t.at? p = some s) (hp : Untouched replaced p) :
    rewriteStep f (t, replaced) p =
      match f s with
      | some new => (t.replaceAt p new, p :: replaced)
      | none => (t, replaced) := by
  have hany : ¬replaced.any (·.isPrefixOf p) = true := by
    intro hcon
    obtain ⟨r, hr, hpre⟩ := List.any_eq_true.mp hcon
    have hnot := hp r hr []
    rw [List.append_nil] at hnot
    exact hnot (List.isPrefixOf_iff_prefix.mp hpre)
  rw [rewriteStep, if_neg hany, hs, Option.bind_some]

mutual

/-- Rewriting the listed nodes of a subtree one by one rewrites the subtree from its root on. -/
theorem foldl_rewriteStep (parent : Option α) : ∀ (s t : Tree α) (p : List Nat)
    (replaced : List (List Nat)), t.at? p = some s → Untouched replaced p →
    ∃ more, ((chosen wanted parent s).map (p ++ ·)).foldl (rewriteStep f) (t, replaced) =
        (t.replaceAt p (rewriteDown wanted f parent s), more ++ replaced) ∧
      ∀ r ∈ more, p <+: r
  | node a cs, t, p, replaced, hs, hp => by
    have hchildren := foldl_rewriteEach (some a) cs t p replaced [] a hs
      fun r hr j rest _ => hp r hr (j :: rest)
    rw [List.length_nil, List.nil_append] at hchildren
    rw [chosen, rewriteDown, List.map_append, List.foldl_append]
    by_cases hwanted : wanted parent a = true
    · simp only [hwanted, if_true, List.map_cons, List.map_nil, List.append_nil, List.foldl_cons,
        List.foldl_nil]
      rw [rewriteStep_untouched hs hp]
      cases hf : f (node a cs) with
      | none =>
        obtain ⟨more, heq, hmore⟩ := hchildren
        exact ⟨more, heq, fun r hr => by
          obtain ⟨j, rest, _, rfl⟩ := hmore r hr
          exact List.prefix_append p _⟩
      | some new =>
        refine ⟨[p], foldl_rewriteStep_below (r := p) List.mem_cons_self _ ?_, ?_⟩
        · intro q hq
          obtain ⟨rest, _, rfl⟩ := List.mem_map.mp hq
          exact List.prefix_append p rest
        · intro r hr
          obtain rfl := List.mem_singleton.mp hr
          exact List.prefix_refl r
    · simp only [hwanted, Bool.false_eq_true, if_false, List.map_nil, List.foldl_nil]
      obtain ⟨more, heq, hmore⟩ := hchildren
      exact ⟨more, heq, fun r hr => by
        obtain ⟨j, rest, _, rfl⟩ := hmore r hr
        exact List.prefix_append p _⟩

theorem foldl_rewriteEach (parent : Option α) : ∀ (cs : List (Tree α)) (t : Tree α)
    (p : List Nat) (replaced : List (List Nat)) (before : List (Tree α)) (a : α),
    t.at? p = some (node a (before ++ cs)) →
    (∀ r ∈ replaced, ∀ j rest, before.length ≤ j → ¬r <+: p ++ j :: rest) →
    ∃ more, ((chosenFrom wanted parent before.length cs).map (p ++ ·)).foldl
        (rewriteStep f) (t, replaced) =
        (t.replaceAt p (node a (before ++ rewriteEach wanted f parent cs)), more ++ replaced) ∧
      ∀ r ∈ more, ∃ j rest, before.length ≤ j ∧ r = p ++ j :: rest
  | [], t, p, replaced, before, a, hs, hp => by
    refine ⟨[], ?_, fun r hr => absurd hr List.not_mem_nil⟩
    rw [rewriteEach, replaceAt_self hs]
    rfl
  | c :: cs, t, p, replaced, before, a, hs, hp => by
    have hget : (before ++ c :: cs)[before.length]? = some c := by simp
    have hc : t.at? (p ++ [before.length]) = some c := by
      rw [at?_append, hs]
      simp [at?]
    obtain ⟨more, heq, hmore⟩ := foldl_rewriteStep parent c t (p ++ [before.length]) replaced hc
      fun r hr q => by
        rw [List.append_assoc]
        exact hp r hr before.length q (Nat.le_refl _)
    have hmodify : (node a (before ++ c :: cs)).replaceAt [before.length]
        (rewriteDown wanted f parent c) = node a ((before ++ [rewriteDown wanted f parent c]) ++ cs) := by
      simp [replaceAt, List.modify_eq_take_cons_drop]
    have hnext := foldl_rewriteEach parent cs
      (t.replaceAt (p ++ [before.length]) (rewriteDown wanted f parent c)) p (more ++ replaced)
      (before ++ [rewriteDown wanted f parent c]) a ?_ ?_
    · obtain ⟨others, heq', hothers⟩ := hnext
      refine ⟨others ++ more, ?_, ?_⟩
      · rw [chosenFrom, List.map_append, List.foldl_append, List.map_map]
        have hmap : ((p ++ ·) ∘ (before.length :: ·) : List Nat → List Nat) =
            (p ++ [before.length] ++ ·) := by
          funext q
          simp
        rw [hmap, heq]
        rw [List.length_append, List.length_singleton] at heq'
        rw [heq', replaceAt_append _ _ hs, replaceAt_replaceAt, rewriteEach, List.append_assoc,
          List.append_assoc]
        rfl
      · intro r hr
        rcases List.mem_append.mp hr with hr | hr
        · obtain ⟨j, rest, hj, rfl⟩ := hothers r hr
          rw [List.length_append] at hj
          exact ⟨j, rest, by omega, rfl⟩
        · obtain ⟨rest, rfl⟩ := hmore r hr
          exact ⟨before.length, rest, Nat.le_refl _, by simp⟩
    · rw [replaceAt_append _ _ hs, hmodify]
      exact at?_replaceAt _ hs
    · intro r hr j rest hj
      rw [List.length_append, List.length_singleton] at hj
      rcases List.mem_append.mp hr with hr | hr
      · obtain ⟨tail, rfl⟩ := hmore r hr
        intro hpre
        rw [List.append_assoc, List.prefix_append_right_inj] at hpre
        have hhead := List.cons_prefix_cons.mp hpre
        omega
      · exact hp r hr j rest (by omega)

end

theorem rewriteAll_chosen (wanted : Option α → α → Bool) (f : Tree α → Option (Tree α))
    (parent : Option α) (t : Tree α) :
    rewriteAll f (chosen wanted parent t) t = rewriteDown wanted f parent t := by
  obtain ⟨more, heq, _⟩ := @foldl_rewriteStep _ wanted f parent t t [] [] rfl
    fun r hr => absurd hr List.not_mem_nil
  have hmap : (chosen wanted parent t).map ([] ++ ·) = chosen wanted parent t := by simp
  rw [hmap] at heq
  rw [rewriteAll, heq]
  rfl

end Tree

end LoomX
