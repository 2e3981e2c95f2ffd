import Mathlib.Data.Set.Card
import Mathlib.Logic.Relation

namespace LoomX.UnionFind

/-- The `p_group` and the `size` of every `UF_elem`. -/
structure Elements (α : Type) where
  group : α → α
  size : α → BitVec 32

namespace Elements

variable {α : Type}

def initial : Elements α where
  group x := x
  size _ := 1

variable [DecidableEq α]

def setGroup (s : Elements α) (x p : α) : Elements α :=
  { s with group := Function.update s.group x p }

def setSize (s : Elements α) (x : α) (n : BitVec 32) : Elements α :=
  { s with size := Function.update s.size x n }

@[simp] theorem setGroup_self (s : Elements α) (x p : α) : (s.setGroup x p).group x = p :=
  Function.update_self ..

theorem setGroup_of_ne (s : Elements α) {x y : α} (p : α) (h : y ≠ x) :
    (s.setGroup x p).group y = s.group y :=
  Function.update_of_ne h ..

@[simp] theorem setGroup_size (s : Elements α) (x p : α) : (s.setGroup x p).size = s.size := rfl

@[simp] theorem setSize_group (s : Elements α) (x : α) (n : BitVec 32) :
    (s.setSize x n).group = s.group := rfl

@[simp] theorem setSize_self (s : Elements α) (x : α) (n : BitVec 32) :
    (s.setSize x n).size x = n :=
  Function.update_self ..

theorem setSize_of_ne (s : Elements α) {x y : α} (n : BitVec 32) (h : y ≠ x) :
    (s.setSize x n).size y = s.size y :=
  Function.update_of_ne h ..

/-- The root and the elements after the compression, where the calls nest less deep than the
fuel. -/
def findGroup (s : Elements α) : Nat → α → Option (α × Elements α)
  | 0, _ => none
  | fuel + 1, x =>
    if s.group x = s.group (s.group x) then some (s.group x, s)
    else do
      let (root, s) ← findGroup s fuel (s.group x)
      return (root, s.setGroup x root)

def inSameGroup (s : Elements α) (fuel : Nat) (x y : α) : Option (Bool × Elements α) := do
  let (p1, s) ← s.findGroup fuel x
  let (p2, s) ← s.findGroup fuel y
  return (p1 = p2, s)

def unionWith (s : Elements α) (fuel : Nat) (x y : α) : Option (Elements α) := do
  let (p1, s) ← s.findGroup fuel x
  let (p2, s) ← s.findGroup fuel y
  if p1 = p2 then return s
  else if s.size p1 < s.size p2 then
    return (s.setGroup p1 p2).setSize p2 (s.size p2 + s.size p1)
  else return (s.setGroup p2 p1).setSize p1 (s.size p1 + s.size p2)

end Elements

inductive Op (α : Type)
  | unionWith (x y : α)
  | findGroup (x : α)
  | inSameGroup (x y : α)

section
variable {α : Type} [DecidableEq α]

def Op.apply (fuel : Nat) (s : Elements α) : Op α → Option (Elements α)
  | unionWith x y => s.unionWith fuel x y
  | findGroup x => (s.findGroup fuel x).map Prod.snd
  | inSameGroup x y => (s.inSameGroup fuel x y).map Prod.snd

def run (fuel : Nat) (ops : List (Op α)) (s : Elements α) : Option (Elements α) :=
  ops.foldlM (fun s op => op.apply fuel s) s

end

/-- The elements that the unions connect. -/
def Connected {α : Type} (ops : List (Op α)) : α → α → Prop :=
  Relation.EqvGen fun a b => .unionWith a b ∈ ops

/-- A computation that ends with a result, which all more fuel keeps. -/
def Returns {β : Type} (f : Nat → Option β) (b : β) : Prop :=
  ∃ least, ∀ fuel, least ≤ fuel → f fuel = some b

/-- After the calls from single elements, the same group is asked for and answered as the unions
connect the elements, and the size at a representative is that of its group. -/
def GroupsExact {α : Type} [DecidableEq α] (ops : List (Op α)) : Prop :=
  ∃ s, Returns (run · ops .initial) s ∧
    (∀ a b, ∃ same s', Returns (s.inSameGroup · a b) (same, s') ∧
      (same = true ↔ Connected ops a b)) ∧
    ∀ a, ∃ r s', Returns (s.findGroup · a) (r, s') ∧
      (s'.size r).toNat = {b | Connected ops a b}.ncard

section
variable {β γ : Type} {f : Nat → Option β} {b : β}

theorem Returns.bind {g : Nat → β → Option γ} {c : γ} (h : Returns f b)
    (hg : Returns (g · b) c) : Returns (fun fuel => f fuel >>= g fuel) c := by
  obtain ⟨least, hleast⟩ := h
  obtain ⟨least', hleast'⟩ := hg
  refine ⟨max least least', fun fuel hfuel => ?_⟩
  show f fuel >>= g fuel = some c
  rw [hleast fuel (by omega)]
  exact hleast' fuel (by omega)

theorem Returns.pure (b : β) : Returns (fun _ => some b) b := ⟨0, fun _ _ => rfl⟩

theorem Returns.map {g : β → γ} (h : Returns f b) : Returns (fun fuel => (f fuel).map g) (g b) := by
  obtain ⟨least, hleast⟩ := h
  refine ⟨least, fun fuel hfuel => ?_⟩
  show (f fuel).map g = some (g b)
  rw [hleast fuel hfuel, Option.map_some]

end

section
variable {α : Type} {s : Elements α} {x y p q r t : α}

/-- The element at the end of the chain of parents. -/
inductive RootOf (s : Elements α) : α → α → Prop
  | root {r : α} (hroot : s.group r = r) : RootOf s r r
  | step {x r : α} (hne : s.group x ≠ x) (h : RootOf s (s.group x) r) : RootOf s x r

theorem RootOf.group_root (h : RootOf s x r) : s.group r = r := by
  induction h with
  | root hroot => exact hroot
  | step _ _ ih => exact ih

theorem RootOf.unique (h : RootOf s x r) (h' : RootOf s x t) : r = t := by
  induction h with
  | root hroot =>
    cases h' with
    | root => rfl
    | step hne _ => exact absurd hroot hne
  | step hne _ ih =>
    cases h' with
    | root hroot => exact absurd hroot hne
    | step _ h' => exact ih h'

/-- Every chain of parents ends. -/
def Rooted (s : Elements α) : Prop := ∀ x, ∃ r, RootOf s x r

/-- Where all chains end, it is enough to follow each in one direction. -/
theorem rootOf_iff {s' : Elements α} {f : α → α} (hs : Rooted s)
    (h : ∀ y t, RootOf s y t → RootOf s' y (f t)) (y u : α) :
    RootOf s' y u ↔ ∃ t, RootOf s y t ∧ f t = u := by
  obtain ⟨t, ht⟩ := hs y
  constructor
  · intro hu
    exact ⟨t, ht, (h y t ht).unique hu⟩
  · rintro ⟨t, ht, rfl⟩
    exact h y t ht

/-- Two states with the same roots and sizes, as before and after a compression. -/
structure SameGroups (s s' : Elements α) : Prop where
  rootOf_iff : ∀ y t, RootOf s' y t ↔ RootOf s y t
  size : s'.size = s.size

theorem SameGroups.refl (s : Elements α) : SameGroups s s := ⟨fun _ _ => Iff.rfl, rfl⟩

theorem SameGroups.trans {s' s'' : Elements α} (h : SameGroups s s') (h' : SameGroups s' s'') :
    SameGroups s s'' :=
  ⟨fun y t => (h'.rootOf_iff y t).trans (h.rootOf_iff y t), h'.size.trans h.size⟩

theorem SameGroups.rooted {s' : Elements α} (h : SameGroups s s') (hs : Rooted s) : Rooted s' := by
  intro x
  obtain ⟨r, hr⟩ := hs x
  exact ⟨r, (h.rootOf_iff x r).mpr hr⟩

/-- The roots depend on the parents only. -/
theorem RootOf.of_group {s' : Elements α} (hgroup : s'.group = s.group) (h : RootOf s x r) :
    RootOf s' x r := by
  induction h with
  | root hroot => exact .root (by rw [hgroup, hroot])
  | step hne _ ih => exact .step (by rw [hgroup]; exact hne) (by rw [hgroup]; exact ih)

variable [DecidableEq α]

/-- A parent moved up to the root changes no root. -/
theorem RootOf.compress (hx : RootOf s x r) (h : RootOf s y t) :
    RootOf (s.setGroup x r) y t := by
  induction h with
  | @root t hroot =>
    apply RootOf.root
    by_cases htx : t = x
    · subst t
      rw [Elements.setGroup_self]
      exact hx.unique (.root hroot)
    · rw [s.setGroup_of_ne r htx, hroot]
  | @step y t hne hparent ih =>
    by_cases hyx : y = x
    · subst y
      have hrx : r ≠ x := fun heq => hne (heq ▸ hx.group_root)
      obtain rfl : r = t := hx.unique (.step hne hparent)
      refine .step (by rw [Elements.setGroup_self]; exact hrx) ?_
      rw [Elements.setGroup_self]
      exact .root (by rw [s.setGroup_of_ne r hrx, hx.group_root])
    · have hgroup := s.setGroup_of_ne r hyx
      exact .step (by rw [hgroup]; exact hne) (by rw [hgroup]; exact ih)

/-- A root made the child of another one takes its group along. -/
theorem RootOf.link (hp : s.group p = p) (hq : s.group q = q) (hpq : p ≠ q) (h : RootOf s y t) :
    RootOf (s.setGroup p q) y (if t = p then q else t) := by
  induction h with
  | @root t hroot =>
    by_cases htp : t = p
    · subst t
      rw [if_pos rfl]
      refine .step (by rw [Elements.setGroup_self]; exact hpq.symm) ?_
      rw [Elements.setGroup_self]
      exact .root (by rw [s.setGroup_of_ne q hpq.symm, hq])
    · rw [if_neg htp]
      exact .root (by rw [s.setGroup_of_ne q htp, hroot])
  | @step y t hne _ ih =>
    have hyp : y ≠ p := fun heq => hne (heq ▸ hp)
    have hgroup := s.setGroup_of_ne q hyp
    exact .step (by rw [hgroup]; exact hne) (by rw [hgroup]; exact ih)

theorem sameGroups_compress (hs : Rooted s) (hx : RootOf s x r) : SameGroups s (s.setGroup x r) := by
  refine ⟨fun y t => ?_, rfl⟩
  rw [rootOf_iff (f := id) hs (fun y t h => hx.compress h) y t]
  simp

/-- The recursion of `find_group` follows the chain of parents to its end. -/
theorem findGroup_returns (hs : Rooted s) (hx : RootOf s x r) :
    ∃ s', Returns (s.findGroup · x) (r, s') ∧ SameGroups s s' := by
  induction hx with
  | @root r hroot =>
    refine ⟨s, ⟨1, fun fuel hfuel => ?_⟩, .refl s⟩
    obtain ⟨fuel, rfl⟩ : ∃ n, fuel = n + 1 := ⟨fuel - 1, by omega⟩
    show (if s.group r = s.group (s.group r) then some (s.group r, s) else _) = some (r, s)
    rw [hroot, if_pos hroot.symm]
  | @step x r hne hparent ih =>
    obtain ⟨s', ⟨least, hleast⟩, hsame⟩ := ih
    by_cases hend : s.group x = s.group (s.group x)
    · obtain rfl : s.group x = r := (RootOf.root hend.symm).unique hparent
      refine ⟨s, ⟨1, fun fuel hfuel => ?_⟩, .refl s⟩
      obtain ⟨fuel, rfl⟩ : ∃ n, fuel = n + 1 := ⟨fuel - 1, by omega⟩
      exact if_pos hend
    · have hx' : RootOf s' x r := (hsame.rootOf_iff x r).mpr (.step hne hparent)
      refine ⟨s'.setGroup x r, ⟨least + 1, fun fuel hfuel => ?_⟩,
        hsame.trans (sameGroups_compress (hsame.rooted hs) hx')⟩
      obtain ⟨fuel, rfl⟩ : ∃ n, fuel = n + 1 := ⟨fuel - 1, by omega⟩
      refine (if_neg hend).trans ?_
      have hfind : s.findGroup fuel (s.group x) = some (r, s') := hleast fuel (by omega)
      rw [hfind]
      rfl

theorem inSameGroup_returns (hs : Rooted s) (hx : RootOf s x p) (hy : RootOf s y q) :
    ∃ s', Returns (s.inSameGroup · x y) (decide (p = q), s') ∧ SameGroups s s' := by
  obtain ⟨s₁, hp, hsame⟩ := findGroup_returns hs hx
  obtain ⟨s₂, hq, hsame'⟩ := findGroup_returns (hsame.rooted hs) ((hsame.rootOf_iff y q).mpr hy)
  refine ⟨s₂, ?_, hsame.trans hsame'⟩
  exact hp.bind (hq.bind (.pure _))

/-- What a union makes of the elements after it found the roots. -/
def linked (s : Elements α) (p1 p2 : α) : Elements α :=
  if p1 = p2 then s
  else if s.size p1 < s.size p2 then
    (s.setGroup p1 p2).setSize p2 (s.size p2 + s.size p1)
  else (s.setGroup p2 p1).setSize p1 (s.size p1 + s.size p2)

theorem unionWith_returns (hs : Rooted s) (hx : RootOf s x p) (hy : RootOf s y q) :
    ∃ s', Returns (s.unionWith · x y) (linked s' p q) ∧ SameGroups s s' := by
  obtain ⟨s₁, hp, hsame⟩ := findGroup_returns hs hx
  obtain ⟨s₂, hq, hsame'⟩ := findGroup_returns (hsame.rooted hs) ((hsame.rootOf_iff y q).mpr hy)
  refine ⟨s₂, ?_, hsame.trans hsame'⟩
  refine hp.bind (hq.bind ⟨0, fun fuel _ => ?_⟩)
  show (if p = q then some s₂ else if s₂.size p < s₂.size q then _ else _) = some (linked s₂ p q)
  unfold linked
  split
  · rfl
  · split <;> rfl

end

section
variable {α : Type} {s : Elements α} {ops : List (Op α)} {x y p q : α}

/-- The forest has a tree for each group that the unions connect, with its size at the root. -/
structure Represents (s : Elements α) (ops : List (Op α)) : Prop where
  rooted : Rooted s
  connected : ∀ a b, Connected ops a b ↔ ∃ r, RootOf s a r ∧ RootOf s b r
  finite : ∀ r, {a | RootOf s a r}.Finite
  size : ∀ r, s.group r = r → s.size r = BitVec.ofNat 32 {a | RootOf s a r}.ncard

theorem Represents.congr {s' : Elements α} {ops' : List (Op α)} (h : Represents s ops)
    (hsame : SameGroups s s') (hops : ∀ a b, .unionWith a b ∈ ops' ↔ .unionWith a b ∈ ops) :
    Represents s' ops' where
  rooted := hsame.rooted h.rooted
  connected a b := by
    have hrel : Connected ops' a b ↔ Connected ops a b := by
      simp only [Connected, hops]
    simp only [hrel, h.connected a b, hsame.rootOf_iff]
  finite r := by
    simp only [hsame.rootOf_iff]
    exact h.finite r
  size r hr := by
    have hroot := (hsame.rootOf_iff r r).mp (.root hr)
    simp only [hsame.size, hsame.rootOf_iff]
    exact h.size r hroot.group_root

theorem represents_initial : Represents (.initial : Elements α) [] := by
  have hroot : ∀ a r, RootOf (.initial : Elements α) a r ↔ a = r := by
    intro a r
    constructor
    · intro h
      exact (h.unique (.root rfl)).symm
    · rintro rfl
      exact .root rfl
  refine ⟨fun a => ⟨a, .root rfl⟩, fun a b => ?_, fun r => ?_, fun r _ => ?_⟩
  · simp only [hroot, exists_eq_left']
    constructor
    · intro h
      induction h with
      | rel _ _ h => cases h
      | refl => rfl
      | symm _ _ _ ih => exact ih.symm
      | trans _ _ _ _ _ ih ih' => exact ih'.trans ih
    · rintro rfl
      exact .refl b
  · simp only [hroot, Set.ofPred_eq_eq_singleton, Set.finite_singleton]
  · simp only [hroot, Set.ofPred_eq_eq_singleton, Set.ncard_singleton]
    rfl

/-- A state whose roots are those of another one mapped to each other, where the two of one pair
meet, connects that pair besides. -/
theorem Represents.join {s' : Elements α} {f : α → α} (h : Represents s ops)
    (hf : ∀ z t, RootOf s z t → RootOf s' z (f t)) (hx : RootOf s x p) (hy : RootOf s y q)
    (hpq : f p = f q)
    (hinj : ∀ t t', f t = f t' → t = t' ∨ (t = p ∧ t' = q) ∨ (t = q ∧ t' = p)) (a b : α) :
    Connected (ops ++ [.unionWith x y]) a b ↔ ∃ r, RootOf s' a r ∧ RootOf s' b r := by
  have hmono : ∀ a b, Connected ops a b → Connected (ops ++ [.unionWith x y]) a b :=
    fun _ _ => Relation.EqvGen.mono (fun _ _ hab => List.mem_append_left _ hab) _ _
  have hnew : Connected (ops ++ [.unionWith x y]) x y := .rel _ _ (by simp)
  have hold : ∀ {a b t}, RootOf s a t → RootOf s b t → Connected (ops ++ [.unionWith x y]) a b :=
    fun ha hb => hmono _ _ ((h.connected _ _).mpr ⟨_, ha, hb⟩)
  constructor
  · intro hab
    induction hab with
    | rel a b hab =>
      rcases List.mem_append.mp hab with hab | hab
      · obtain ⟨t, ha, hb⟩ := (h.connected a b).mp (.rel _ _ hab)
        exact ⟨f t, hf a t ha, hf b t hb⟩
      · obtain ⟨rfl, rfl⟩ : a = x ∧ b = y := by simpa using hab
        exact ⟨f p, hf a p hx, hpq ▸ hf b q hy⟩
    | refl a =>
      obtain ⟨t, ha⟩ := h.rooted a
      exact ⟨f t, hf a t ha, hf a t ha⟩
    | symm a b _ ih =>
      obtain ⟨r, ha, hb⟩ := ih
      exact ⟨r, hb, ha⟩
    | trans a b c _ _ ih ih' =>
      obtain ⟨r, ha, hb⟩ := ih
      obtain ⟨r', hb', hc⟩ := ih'
      exact ⟨r, ha, hb.unique hb' ▸ hc⟩
  · rintro ⟨r, ha, hb⟩
    obtain ⟨t, hta, rfl⟩ := (rootOf_iff h.rooted hf a r).mp ha
    obtain ⟨t', htb, heq⟩ := (rootOf_iff h.rooted hf b _).mp hb
    rcases hinj t t' heq.symm with rfl | ⟨rfl, rfl⟩ | ⟨rfl, rfl⟩
    · exact hold hta htb
    · exact ((hold hta hx).trans _ _ _ hnew).trans _ _ _ (hold hy htb)
    · exact ((hold hta hy).trans _ _ _ (hnew.symm _ _)).trans _ _ _ (hold hx htb)

variable [DecidableEq α]

/-- The tree of a root made the child of another one, with the sum of their sizes there. -/
theorem Represents.linkRoots {ops' : List (Op α)} (h : Represents s ops) (hp : s.group p = p)
    (hq : s.group q = q) (hpq : p ≠ q)
    (hconnected : ∀ a b, Connected ops' a b ↔
      ∃ r, RootOf (s.setGroup p q) a r ∧ RootOf (s.setGroup p q) b r) :
    Represents ((s.setGroup p q).setSize q (s.size q + s.size p)) ops' := by
  have hlink : ∀ z t, RootOf s z t → RootOf (s.setGroup p q) z (if t = p then q else t) :=
    fun z t hz => hz.link hp hq hpq
  have hsized : ∀ z t, RootOf ((s.setGroup p q).setSize q (s.size q + s.size p)) z t ↔
      RootOf (s.setGroup p q) z t :=
    fun z t => ⟨.of_group rfl, .of_group rfl⟩
  have hmembers : ∀ a r, RootOf (s.setGroup p q) a r ↔
      RootOf s a r ∧ r ≠ p ∨ RootOf s a p ∧ r = q := by
    intro a r
    obtain ⟨t, ht⟩ := h.rooted a
    have hroot : ∀ u, RootOf s a u ↔ t = u := fun u => ⟨ht.unique, fun hu => hu ▸ ht⟩
    rw [rootOf_iff h.rooted hlink a r]
    simp only [hroot, exists_eq_left']
    by_cases htp : t = p
    · rw [if_pos htp]
      grind
    · rw [if_neg htp]
      grind
  have hgroup : {a | RootOf (s.setGroup p q) a q} = {a | RootOf s a q} ∪ {a | RootOf s a p} := by
    ext a
    simp [hmembers, hpq.symm]
  have hother : ∀ r, r ≠ p → r ≠ q →
      {a | RootOf (s.setGroup p q) a r} = {a | RootOf s a r} := by
    intro r hrp hrq
    ext a
    simp [hmembers, hrp, hrq]
  have hdisjoint : Disjoint {a | RootOf s a q} {a | RootOf s a p} :=
    Set.disjoint_left.mpr fun a ha ha' => hpq (ha'.unique ha)
  refine ⟨fun a => ?_, fun a b => ?_, fun r => ?_, fun r hr => ?_⟩
  · obtain ⟨t, ht⟩ := h.rooted a
    exact ⟨_, (hsized _ _).mpr (hlink a t ht)⟩
  · simp only [hsized]
    exact hconnected a b
  · simp only [hsized]
    refine ((h.finite r).union (h.finite p)).subset fun a ha => ?_
    exact ((hmembers a r).mp ha).imp And.left And.left
  · simp only [hsized]
    have hrp : r ≠ p := by
      rintro rfl
      rw [Elements.setSize_group, Elements.setGroup_self] at hr
      exact hpq hr.symm
    by_cases hrq : r = q
    · subst r
      rw [Elements.setSize_self, h.size p hp, h.size q hq, ← BitVec.ofNat_add, hgroup,
        Set.ncard_union_eq hdisjoint (h.finite q) (h.finite p)]
    · rw [Elements.setSize_of_ne _ _ hrq, hother r hrp hrq, Elements.setGroup_size]
      rw [Elements.setSize_group, s.setGroup_of_ne q hrp] at hr
      exact h.size r hr

theorem Represents.union (h : Represents s ops) (hx : RootOf s x p) (hy : RootOf s y q) :
    Represents (linked s p q) (ops ++ [.unionWith x y]) := by
  have hp := hx.group_root
  have hq := hy.group_root
  unfold linked
  split
  next heq =>
    -- the elements are connected already
    subst heq
    refine ⟨h.rooted, ?_, h.finite, h.size⟩
    exact h.join (f := id) (fun _ _ hz => hz) hx hy rfl fun _ _ ht => .inl ht
  next hpq =>
    split
    next =>
      refine h.linkRoots hp hq hpq (h.join (fun _ _ hz => hz.link hp hq hpq) hx hy ?_ ?_)
      · simp
      · grind
    next =>
      have hqp := Ne.symm hpq
      refine h.linkRoots hq hp hqp (h.join (fun _ _ hz => hz.link hq hp hqp) hx hy ?_ ?_)
      · simp
      · grind

theorem apply_returns (h : Represents s ops) (op : Op α) :
    ∃ s', Returns (fun fuel => op.apply fuel s) s' ∧ Represents s' (ops ++ [op]) := by
  cases op with
  | unionWith x y =>
    obtain ⟨p, hx⟩ := h.rooted x
    obtain ⟨q, hy⟩ := h.rooted y
    obtain ⟨s', hs', hsame⟩ := unionWith_returns h.rooted hx hy
    have h' : Represents s' ops := h.congr hsame fun _ _ => Iff.rfl
    exact ⟨_, hs', h'.union ((hsame.rootOf_iff x p).mpr hx) ((hsame.rootOf_iff y q).mpr hy)⟩
  | findGroup x =>
    obtain ⟨p, hx⟩ := h.rooted x
    obtain ⟨s', hs', hsame⟩ := findGroup_returns h.rooted hx
    exact ⟨s', hs'.map, h.congr hsame fun _ _ => by simp⟩
  | inSameGroup x y =>
    obtain ⟨p, hx⟩ := h.rooted x
    obtain ⟨q, hy⟩ := h.rooted y
    obtain ⟨s', hs', hsame⟩ := inSameGroup_returns h.rooted hx hy
    exact ⟨s', hs'.map, h.congr hsame fun _ _ => by simp⟩

/-- Every sequence of calls ends, and the forest it leaves has the connected groups as its trees. -/
theorem run_returns (h : Represents s ops) (later : List (Op α)) :
    ∃ s', Returns (run · later s) s' ∧ Represents s' (ops ++ later) := by
  induction later generalizing s ops with
  | nil => exact ⟨s, .pure s, by rwa [List.append_nil]⟩
  | cons op later ih =>
    obtain ⟨s₁, hop, h₁⟩ := apply_returns h op
    obtain ⟨s₂, hrun, h₂⟩ := ih h₁
    refine ⟨s₂, ?_, by rwa [List.append_assoc] at h₂⟩
    show Returns (fun fuel => run fuel (op :: later) s) s₂
    simp only [run, List.foldlM_cons]
    exact hop.bind hrun

/-- The size found at the representative of an element. -/
theorem Represents.size_found (h : Represents s ops) (a : α) :
    ∃ r s', Returns (s.findGroup · a) (r, s') ∧
      (s'.size r).toNat = {b | Connected ops a b}.ncard % 2 ^ 32 := by
  obtain ⟨r, hr⟩ := h.rooted a
  obtain ⟨s', hs', hsame⟩ := findGroup_returns h.rooted hr
  have hgroup : {b | Connected ops a b} = {b | RootOf s b r} := by
    ext b
    rw [Set.mem_ofPred_eq, h.connected a b]
    constructor
    · rintro ⟨t, ha, hb⟩
      exact (ha.unique hr) ▸ hb
    · intro hb
      exact ⟨r, hr, hb⟩
  refine ⟨r, s', hs', ?_⟩
  rw [hsame.size, h.size r hr.group_root, hgroup, BitVec.toNat_ofNat]

theorem represents_run (ops : List (Op α)) :
    ∃ s, Returns (run · ops .initial) s ∧ Represents s ops :=
  run_returns represents_initial ops

theorem ncard_lt_of_groupsExact (h : GroupsExact ops) (a : α) :
    {b | Connected ops a b}.ncard < 2 ^ 32 := by
  obtain ⟨s, -, -, hsize⟩ := h
  obtain ⟨r, s', -, hcard⟩ := hsize a
  rw [← hcard]
  exact (s'.size r).isLt

/-- The sequences of calls after which the groups are answered as the unions connect the elements
and their sizes are right are those that leave fewer than 2^32 elements in each group. -/
theorem groups_exact_iff (ops : List (Op α)) :
    GroupsExact ops ↔ ∀ a, {b | Connected ops a b}.ncard < 2 ^ 32 := by
  constructor
  · exact ncard_lt_of_groupsExact
  · intro hsmall
    obtain ⟨s, hrun, h⟩ := represents_run ops
    refine ⟨s, hrun, fun a b => ?_, fun a => ?_⟩
    · obtain ⟨p, ha⟩ := h.rooted a
      obtain ⟨q, hb⟩ := h.rooted b
      obtain ⟨s', hs', -⟩ := inSameGroup_returns h.rooted ha hb
      refine ⟨_, s', hs', ?_⟩
      rw [h.connected a b, decide_eq_true_iff]
      constructor
      · rintro rfl
        exact ⟨p, ha, hb⟩
      · rintro ⟨r, ha', hb'⟩
        exact (ha.unique ha').trans (hb'.unique hb)
    · obtain ⟨r, s', hs', hcard⟩ := h.size_found a
      exact ⟨r, s', hs', hcard.trans (Nat.mod_eq_of_lt (hsmall a))⟩

/-- All of 2^32 elements united with the first one. -/
theorem star_not_groupsExact :
    ¬GroupsExact ((List.range (2 ^ 32)).map fun i => Op.unionWith 0 i) := by
  intro h
  have hlt := ncard_lt_of_groupsExact h 0
  obtain ⟨s, -, hs⟩ := represents_run ((List.range (2 ^ 32)).map fun i => Op.unionWith 0 i)
  obtain ⟨r, hr⟩ := hs.rooted 0
  have hfinite : {b | Connected ((List.range (2 ^ 32)).map fun i => Op.unionWith 0 i) 0 b}.Finite := by
    refine (hs.finite r).subset fun b hb => ?_
    obtain ⟨t, h0, hb⟩ := (hs.connected 0 b).mp hb
    exact (h0.unique hr) ▸ hb
  have hsub : (Finset.range (2 ^ 32) : Set Nat) ⊆
      {b | Connected ((List.range (2 ^ 32)).map fun i => Op.unionWith 0 i) 0 b} := by
    intro b hb
    rw [Finset.mem_coe, Finset.mem_range, ← List.mem_range] at hb
    exact .rel _ _ (List.mem_map.mpr ⟨b, hb, rfl⟩)
  have hcard := Set.ncard_le_ncard hsub hfinite
  rw [Set.ncard_coe_finset, Finset.card_range] at hcard
  omega

end

end LoomX.UnionFind
