import LoomX.AddressUsage.Records

namespace LoomX.AddressUsage

section

variable {I B D : Type} [DecidableEq I] [DecidableEq B] (P : Program I B D)

/-- Whether two users are the same: instructions with their blocks, or data blocks by their keys. -/
def Program.equal : AddressUser I B D → AddressUser I B D → Bool
  | .instruction a bs, .instruction b cs => a = b ∧ bs = cs
  | .dataBlock a, .dataBlock b => !P.sortDataBlocks a b && !P.sortDataBlocks b a
  | _, _ => false

namespace AddressUsers

/-- The rounds of the loop of `intersection`, where the fuel is enough for them; what is before the
two indices is dropped. -/
def intersectLoop : Nat → AddressUsers I B D → AddressUsers I B D → AddressUsers I B D →
    Option (AddressUsers I B D)
  | 0, _, _, _ => none
  | _ + 1, [], _, retval => some retval
  | _ + 1, _ :: _, [], retval => some retval
  | fuel + 1, x :: xs, y :: ys, retval =>
    match (x :: xs).dropWhile (P.less · y) with
    | [] => some retval
    | u :: us =>
      match (y :: ys).dropWhile (P.less · u) with
      | [] => intersectLoop fuel (u :: us) [] retval
      | o :: os =>
        if P.equal u o then intersectLoop fuel us os (retval ++ [u])
        else intersectLoop fuel (u :: us) (o :: os) retval

def intersection (fuel : Nat) (users other : AddressUsers I B D) : Option (AddressUsers I B D) :=
  intersectLoop P fuel users other []

def union : AddressUsers I B D → AddressUsers I B D → AddressUsers I B D
  | [], other => other
  | users, [] => users
  | x :: xs, y :: ys =>
    if P.less x y then x :: union xs (y :: ys)
    else if P.equal x y then x :: union xs ys
    else y :: union (x :: xs) ys
termination_by users other => users.length + other.length

/-- Puts one user of the other list where its lower bound is not the same. -/
def insertUser (users : AddressUsers I B D) (user : AddressUser I B D) : AddressUsers I B D :=
  let (before, after) := lowerBound P.less users user
  match after with
  | [] => before ++ [user]
  | lb :: rest => if P.equal lb user then users else before ++ user :: lb :: rest

def insert (users other : AddressUsers I B D) : AddressUsers I B D :=
  if users.isEmpty then other else other.foldl (insertUser P) users

end AddressUsers

end

variable {I B D : Type} {P : Program I B D}

/-- Sorted users, one for each instruction with its blocks and one for each data block. -/
structure Consistent (P : Program I B D) (users : AddressUsers I B D) : Prop where
  sorted : UniqueSorted P.key users
  bblocks : ∀ i bs, .instruction i bs ∈ users → bs ≠ [] ∧ UniqueSorted P.bblockAddress bs

/-- The instruction is a user as a part of the block. -/
def Owns (users : AddressUsers I B D) (i : I) (b : B) : Prop :=
  ∃ bs, .instruction i bs ∈ users ∧ b ∈ bs

def Holds (P : Program I B D) (users : AddressUsers I B D) (d : D) : Prop :=
  ∃ e, .dataBlock e ∈ users ∧ P.Equivalent e d

/-- An instruction that is in both lists has the same blocks in both. -/
def SameBlocks (users other : AddressUsers I B D) : Prop :=
  ∀ i bs cs, .instruction i bs ∈ users → .instruction i cs ∈ other → bs = cs

section

variable {users other : AddressUsers I B D} {x y : AddressUser I B D}

theorem eq_of_key (hsorted : UniqueSorted P.key users) (hx : x ∈ users) (hy : y ∈ users)
    (h : P.key x = P.key y) : x = y := by
  have hnodup : (users.map P.key).Nodup := by
    rw [List.Nodup, List.pairwise_map]
    exact hsorted.imp fun hlt => hlt.ne
  exact List.inj_on_of_nodup_map hnodup hx hy h

/-- Dropping the users below a key keeps those from the key on. -/
theorem dropWhile_less (hsorted : UniqueSorted P.key users) (y : AddressUser I B D) :
    (∀ x ∈ users.dropWhile (P.less · y), P.key y ≤ P.key x) ∧
      ∀ x ∈ users, P.key y ≤ P.key x → x ∈ users.dropWhile (P.less · y) := by
  obtain ⟨hbelow, habove⟩ := lowerBound_spec less_iff hsorted y
  refine ⟨habove, fun x hx hle => ?_⟩
  rw [← lowerBound_append P.less users y] at hx
  rcases List.mem_append.mp hx with hx | hx
  · exact absurd (hbelow x hx) (not_lt.mpr hle)
  · exact hx

theorem key_le_of_mem (hsorted : UniqueSorted P.key (x :: users)) (hy : y ∈ x :: users) :
    P.key x ≤ P.key y := by
  rcases List.mem_cons.mp hy with rfl | hmem
  · exact le_rfl
  · exact ((List.pairwise_cons.mp hsorted).1 y hmem).le

theorem sorted_dropWhile (hsorted : UniqueSorted P.key users) (p : AddressUser I B D → Bool) :
    UniqueSorted P.key (users.dropWhile p) :=
  hsorted.sublist (List.dropWhile_sublist p)

variable [DecidableEq I] [DecidableEq B]

theorem equal_dataBlock {d e : D} :
    P.equal (.dataBlock d) (.dataBlock e) = true ↔ P.Equivalent d e := by
  show equalUnique P.sortDataBlocks d e = true ↔ _
  rw [equalUnique_sortDataBlocks, equalUnique_iff less_iff, key_dataBlock]

theorem equal_instruction {i j : I} {bs cs : List B} :
    P.equal (.instruction i bs) (.instruction j cs) = true ↔ i = j ∧ bs = cs := decide_eq_true_iff

/-- Users that are the same are one instruction with its blocks, or data blocks of one key. -/
theorem instruction_of_equal (h : P.equal x y = true) (i : I) (bs : List B) :
    x = .instruction i bs ↔ y = .instruction i bs := by
  cases x with
  | instruction j cs =>
    cases y with
    | instruction k ds =>
      obtain ⟨rfl, rfl⟩ := equal_instruction.mp h
      exact Iff.rfl
    | dataBlock e => cases h
  | dataBlock d =>
    cases y with
    | instruction k ds => cases h
    | dataBlock e => exact iff_of_false nofun nofun

theorem dataBlock_of_equal (h : P.equal x y = true) (d : D) :
    (∃ e, x = .dataBlock e ∧ P.Equivalent e d) ↔ ∃ e, y = .dataBlock e ∧ P.Equivalent e d := by
  cases x with
  | instruction j cs =>
    cases y with
    | instruction k ds => exact iff_of_false nofun nofun
    | dataBlock e => cases h
  | dataBlock a =>
    cases y with
    | instruction k ds => cases h
    | dataBlock b =>
      have hab := equal_dataBlock.mp h
      constructor
      · intro ⟨e, he, hed⟩
        obtain rfl := AddressUser.dataBlock.inj he
        exact ⟨b, rfl, hab.1.symm.trans hed.1, hab.2.symm.trans hed.2⟩
      · intro ⟨e, he, hed⟩
        obtain rfl := AddressUser.dataBlock.inj he
        exact ⟨a, rfl, hab.1.trans hed.1, hab.2.trans hed.2⟩

/-- Users that are the same have one key. -/
theorem key_of_equal (h : P.equal x y = true) : P.key x = P.key y := by
  cases x with
  | instruction i bs =>
    cases y with
    | instruction j cs =>
      obtain ⟨rfl, rfl⟩ := equal_instruction.mp h
      rfl
    | dataBlock e => cases h
  | dataBlock d =>
    cases y with
    | instruction j cs => cases h
    | dataBlock e => exact key_dataBlock.mpr (equal_dataBlock.mp h)

/-- Users with one key are the same but for the blocks of an instruction. -/
theorem equal_or_blocks (hinj : Function.Injective P.insnAddress) (h : P.key x = P.key y) :
    P.equal x y = true ∨ ∃ i bs cs, x = .instruction i bs ∧ y = .instruction i cs ∧ bs ≠ cs := by
  cases y with
  | instruction i cs =>
    obtain ⟨bs, rfl⟩ := eq_instruction_of_key hinj h
    by_cases hbs : bs = cs
    · exact .inl (equal_instruction.mpr ⟨rfl, hbs⟩)
    · exact .inr ⟨i, bs, cs, rfl, rfl, hbs⟩
  | dataBlock e =>
    cases x with
    | instruction i bs =>
      obtain ⟨cs, heq⟩ := eq_instruction_of_key hinj h.symm
      cases heq
    | dataBlock d => exact .inl (equal_dataBlock.mpr (key_dataBlock.mp h))

theorem equal_of_key (hinj : Function.Injective P.insnAddress) (hsame : SameBlocks users other)
    (hx : x ∈ users) (hy : y ∈ other) (h : P.key x = P.key y) : P.equal x y = true := by
  rcases equal_or_blocks hinj h with heq | ⟨i, bs, cs, rfl, rfl, hne⟩
  · exact heq
  · exact absurd (hsame i bs cs hx hy) hne

/-- The loop goes on for ever where users of one key are not the same. -/
theorem intersectLoop_none {fuel : Nat} (retval : AddressUsers I B D)
    (hsorted : UniqueSorted P.key users) (hsorted' : UniqueSorted P.key other) (hx : x ∈ users)
    (hy : y ∈ other) (hkey : P.key x = P.key y) (hne : P.equal x y = false) :
    AddressUsers.intersectLoop P fuel users other retval = none := by
  induction fuel generalizing users other retval with
  | zero => rfl
  | succ fuel ih =>
    match users, other with
    | [], _ => cases hx
    | _ :: _, [] => cases hy
    | a :: as, b :: bs =>
      rw [AddressUsers.intersectLoop]
      have hab : P.key b ≤ P.key x := hkey ▸ key_le_of_mem hsorted' hy
      have hxs := (dropWhile_less hsorted b).2 x hx hab
      have husorted := sorted_dropWhile hsorted (P.less · b)
      generalize (a :: as).dropWhile (P.less · b) = rest at hxs husorted ⊢
      match rest with
      | [] => cases hxs
      | u :: us =>
        have hux : P.key u ≤ P.key y := hkey ▸ key_le_of_mem husorted hxs
        have hys := (dropWhile_less hsorted' u).2 y hy hux
        have hosorted := sorted_dropWhile hsorted' (P.less · u)
        dsimp only
        generalize (b :: bs).dropWhile (P.less · u) = rest' at hys hosorted ⊢
        match rest' with
        | [] => cases hys
        | o :: os =>
          dsimp only
          split
          next heq =>
            have hkeys := key_of_equal heq
            obtain ⟨hufirst, husorted'⟩ := List.pairwise_cons.mp husorted
            obtain ⟨hofirst, hosorted'⟩ := List.pairwise_cons.mp hosorted
            -- neither user of the pair is the one that is passed
            have hxu : x ∈ us := by
              refine (List.mem_cons.mp hxs).resolve_left fun hxu => ?_
              have hoy : o = y := eq_of_key hosorted (by simp) hys (by rw [← hkeys, ← hxu, hkey])
              rw [hxu, ← hoy, heq] at hne
              exact Bool.false_ne_true hne.symm
            have hyo : y ∈ os := by
              refine (List.mem_cons.mp hys).resolve_left fun hyo => ?_
              have hlt := hufirst x hxu
              rw [hkeys, ← hyo, ← hkey] at hlt
              exact lt_irrefl _ hlt
            exact ih _ husorted' hosorted' hxu hyo
          next => exact ih _ husorted hosorted hxs hys

theorem equal_eq_false (h : P.key x ≠ P.key y) : P.equal x y = false :=
  Bool.eq_false_iff.mpr fun heq => h (key_of_equal heq)

/-- The users of one list that are in another one, too. -/
def common (P : Program I B D) (users other : AddressUsers I B D) : AddressUsers I B D :=
  users.filter fun x => other.any fun y => P.equal x y

theorem mem_common : x ∈ common P users other ↔ x ∈ users ∧ ∃ y ∈ other, P.equal x y = true := by
  rw [common, List.mem_filter, List.any_eq_true]

theorem common_congr {other' : AddressUsers I B D}
    (h : ∀ x ∈ users, ∀ y, P.equal x y = true → (y ∈ other ↔ y ∈ other')) :
    common P users other = common P users other' := by
  refine List.filter_congr fun x hx => ?_
  rw [Bool.eq_iff_iff, List.any_eq_true, List.any_eq_true]
  refine exists_congr fun y => and_congr_left fun heq => h x hx y heq

theorem common_dropWhile_left (hsorted : UniqueSorted P.key users)
    (hle : ∀ z ∈ other, P.key y ≤ P.key z) :
    common P (users.dropWhile (P.less · y)) other = common P users other := by
  obtain ⟨hbelow, -⟩ := lowerBound_spec less_iff hsorted y
  have hnone : common P (users.takeWhile (P.less · y)) other = [] := by
    refine List.filter_eq_nil_iff.mpr fun x hx => ?_
    rw [List.any_eq_true]
    intro ⟨z, hz, heq⟩
    exact absurd (key_of_equal heq) ((hbelow x hx).trans_le (hle z hz)).ne
  rw [← lowerBound_append P.less users y]
  conv_rhs => rw [common, List.filter_append]
  rw [lowerBound_append]
  exact (congrArg (· ++ common P (users.dropWhile (P.less · y)) other) hnone).symm

theorem common_dropWhile_right (hsorted : UniqueSorted P.key other)
    (hle : ∀ z ∈ users, P.key x ≤ P.key z) :
    common P users (other.dropWhile (P.less · x)) = common P users other := by
  refine common_congr fun z hz y heq => ⟨(List.dropWhile_sublist _).mem, fun hy => ?_⟩
  refine (dropWhile_less hsorted x).2 y hy ?_
  rw [← key_of_equal heq]
  exact hle z hz

theorem common_cons (hsorted : UniqueSorted P.key (x :: users)) (heq : P.equal x y = true) :
    common P (x :: users) (y :: other) = x :: common P users other := by
  have hkey := key_of_equal heq
  have hrest : common P users (y :: other) = common P users other := by
    refine common_congr fun z hz w hzw => ⟨fun hw => ?_, List.mem_cons_of_mem y⟩
    refine (List.mem_cons.mp hw).resolve_left fun hwy => ?_
    have hlt := (List.pairwise_cons.mp hsorted).1 z hz
    rw [hkey, key_of_equal hzw, hwy] at hlt
    exact lt_irrefl _ hlt
  rw [← hrest, common, List.filter_cons_of_pos (by rw [List.any_cons, heq, Bool.true_or])]
  rfl

/-- Users that are the first of their lists after dropping are the same, or fewer are left. -/
theorem length_dropWhile_lt {a b u o : AddressUser I B D} {as bs us os : AddressUsers I B D}
    (hequal : P.key a = P.key b → P.equal a b = true)
    (hu : (a :: as).dropWhile (P.less · b) = u :: us)
    (ho : (b :: bs).dropWhile (P.less · u) = o :: os) (hne : P.equal u o = false) :
    (u :: us).length + (o :: os).length < (a :: as).length + (b :: bs).length := by
  have hlen := (List.dropWhile_sublist (P.less · b) (l := as)).length_le
  have hlen' := (List.dropWhile_sublist (P.less · u) (l := b :: bs)).length_le
  rw [ho] at hlen'
  rw [List.dropWhile_cons] at hu
  split at hu
  next =>
    rw [hu] at hlen
    rw [List.length_cons (a := a)]
    omega
  next hab =>
    obtain ⟨rfl, rfl⟩ := List.cons.inj hu
    have hlen := (List.dropWhile_sublist (P.less · a) (l := bs)).length_le
    rw [List.dropWhile_cons] at ho
    split at ho
    next =>
      rw [ho] at hlen
      rw [List.length_cons (a := b)]
      omega
    next hba =>
      obtain ⟨rfl, rfl⟩ := List.cons.inj ho
      rw [less_iff, not_lt] at hab hba
      rw [hequal (le_antisymm hba hab)] at hne
      exact absurd hne.symm Bool.false_ne_true

/-- The loop ends with the common users where users of one key are the same. -/
theorem intersectLoop_eq {fuel : Nat} (retval : AddressUsers I B D)
    (hsorted : UniqueSorted P.key users) (hsorted' : UniqueSorted P.key other)
    (hequal : ∀ x ∈ users, ∀ y ∈ other, P.key x = P.key y → P.equal x y = true)
    (hfuel : users.length + other.length < fuel) :
    AddressUsers.intersectLoop P fuel users other retval =
      some (retval ++ common P users other) := by
  induction fuel generalizing users other retval with
  | zero => exact absurd hfuel (Nat.not_lt_zero _)
  | succ fuel ih =>
    match users, other with
    | [], _ => exact congrArg some (List.append_nil retval).symm
    | a :: as, [] =>
      have hnone : common P (a :: as) [] = [] := by
        refine List.filter_eq_nil_iff.mpr fun x _ => ?_
        rw [List.any_nil]
        exact Bool.false_ne_true
      rw [hnone, List.append_nil]
      rfl
    | a :: as, b :: bs =>
      have hb : ∀ z ∈ b :: bs, P.key b ≤ P.key z := fun z hz => key_le_of_mem hsorted' hz
      have hleft := common_dropWhile_left (P := P) hsorted hb
      have husorted := sorted_dropWhile hsorted (P.less · b)
      have husub := (List.dropWhile_sublist (P.less · b) (l := a :: as)).subset
      rw [AddressUsers.intersectLoop, ← hleft]
      cases hu : (a :: as).dropWhile (P.less · b) with
      | nil => exact congrArg some (List.append_nil retval).symm
      | cons u us =>
        rw [hu] at husorted husub
        have huall : ∀ z ∈ u :: us, P.key u ≤ P.key z := fun z hz => key_le_of_mem husorted hz
        have hright := common_dropWhile_right (P := P) hsorted' huall
        have hosorted := sorted_dropWhile hsorted' (P.less · u)
        have hosub := (List.dropWhile_sublist (P.less · u) (l := b :: bs)).subset
        have hulen := (List.dropWhile_sublist (P.less · b) (l := a :: as)).length_le
        have holen := (List.dropWhile_sublist (P.less · u) (l := b :: bs)).length_le
        rw [hu] at hulen
        rw [← hright]
        dsimp only
        cases ho : (b :: bs).dropWhile (P.less · u) with
        | nil =>
          refine ih retval husorted .nil (fun _ _ _ hy => absurd hy List.not_mem_nil) ?_
          rw [List.length_nil]
          rw [List.length_cons (a := b)] at hfuel
          omega
        | cons o os =>
          rw [ho] at hosorted hosub holen
          dsimp only
          have hrest : ∀ x ∈ u :: us, ∀ y ∈ o :: os, P.key x = P.key y → P.equal x y = true :=
            fun x hx y hy => hequal x (husub hx) y (hosub hy)
          split
          next heq =>
            rw [common_cons husorted heq, ih _ (List.pairwise_cons.mp husorted).2
              (List.pairwise_cons.mp hosorted).2, List.append_assoc]
            · rfl
            · exact fun x hx y hy => hrest x (by simp [hx]) y (by simp [hy])
            · rw [List.length_cons] at hulen holen
              omega
          next hne =>
            have hlt := length_dropWhile_lt (hequal a (by simp) b (by simp)) hu ho
              (Bool.not_eq_true _ ▸ hne)
            exact ih _ husorted hosorted hrest (by omega)

/-- The users of one list, and those of another one that are not in it. -/
structure IsUnion (P : Program I B D) (users other r : AddressUsers I B D) : Prop where
  sorted : UniqueSorted P.key r
  mem_iff : ∀ z, z ∈ r ↔ z ∈ users ∨ z ∈ other ∧ ∀ x ∈ users, P.equal x z = false

theorem isUnion_nil_right (hsorted : UniqueSorted P.key users) : IsUnion P users [] users :=
  ⟨hsorted, fun _ => (or_iff_left fun h => List.not_mem_nil h.1).symm⟩

theorem isUnion_nil_left (hsorted : UniqueSorted P.key other) : IsUnion P [] other other :=
  ⟨hsorted, fun _ => ⟨fun h => .inr ⟨h, nofun⟩, fun h => (h.resolve_left List.not_mem_nil).1⟩⟩

theorem IsUnion.key_lt {r : AddressUsers I B D} (h : IsUnion P users other r) {k : ℕ ×ₗ ℕ ×ₗ ℕ}
    (hx : ∀ x ∈ users, k < P.key x) (hy : ∀ y ∈ other, k < P.key y) : ∀ z ∈ r, k < P.key z := by
  intro z hz
  rcases (h.mem_iff z).mp hz with hz | hz
  · exact hx z hz
  · exact hy z hz.1

theorem isUnion_union (hsorted : UniqueSorted P.key users) (hsorted' : UniqueSorted P.key other)
    (hequal : ∀ x ∈ users, ∀ y ∈ other, P.key x = P.key y → P.equal x y = true) :
    IsUnion P users other (AddressUsers.union P users other) := by
  induction users, other using AddressUsers.union.induct P with
  | case1 other =>
    rw [AddressUsers.union]
    exact isUnion_nil_left hsorted'
  | case2 users hne =>
    rw [AddressUsers.union]
    · exact isUnion_nil_right hsorted
    · exact hne
  | case3 x xs y ys hlt ih =>
    obtain ⟨hx, hxs⟩ := List.pairwise_cons.mp hsorted
    have hall : ∀ z ∈ y :: ys, P.key x < P.key z := List.forall_mem_cons.mpr
      ⟨(less_iff x y).mp hlt,
        fun z hz => ((less_iff x y).mp hlt).trans ((List.pairwise_cons.mp hsorted').1 z hz)⟩
    have hrest := ih hxs hsorted' fun z hz => hequal z (List.mem_cons_of_mem x hz)
    rw [AddressUsers.union, if_pos hlt]
    refine ⟨List.pairwise_cons.mpr ⟨hrest.key_lt hx hall, hrest.sorted⟩, fun z => ?_⟩
    rw [List.mem_cons, List.mem_cons, hrest.mem_iff, or_assoc, List.forall_mem_cons]
    refine or_congr_right (or_congr_right (and_congr_right fun hz => ?_))
    exact (and_iff_right (equal_eq_false (hall z hz).ne)).symm
  | case4 x xs y ys hlt heq ih =>
    obtain ⟨hx, hxs⟩ := List.pairwise_cons.mp hsorted
    obtain ⟨hy, hys⟩ := List.pairwise_cons.mp hsorted'
    have hkey := key_of_equal heq
    have hrest := ih hxs hys fun z hz w hw =>
      hequal z (List.mem_cons_of_mem x hz) w (List.mem_cons_of_mem y hw)
    rw [AddressUsers.union, if_neg hlt, if_pos heq]
    refine ⟨List.pairwise_cons.mpr ⟨hrest.key_lt hx fun z hz => hkey ▸ hy z hz, hrest.sorted⟩,
      fun z => ?_⟩
    rw [List.mem_cons, List.mem_cons, List.mem_cons, hrest.mem_iff, or_assoc, List.forall_mem_cons]
    refine or_congr_right (or_congr_right ?_)
    constructor
    · intro ⟨hz, hnone⟩
      exact ⟨.inr hz, equal_eq_false (by rw [hkey]; exact (hy z hz).ne), hnone⟩
    · intro ⟨hz, hxz, hnone⟩
      refine ⟨hz.resolve_left fun hzy => ?_, hnone⟩
      rw [hzy, heq] at hxz
      exact Bool.false_ne_true hxz.symm
  | case5 x xs y ys hlt hne ih =>
    obtain ⟨hx, -⟩ := List.pairwise_cons.mp hsorted
    obtain ⟨hy, hys⟩ := List.pairwise_cons.mp hsorted'
    have hyx : P.key y < P.key x := by
      rw [less_iff, not_lt] at hlt
      refine lt_of_le_of_ne hlt fun hkey => hne ?_
      exact hequal x List.mem_cons_self y List.mem_cons_self hkey.symm
    have hall : ∀ z ∈ x :: xs, P.key y < P.key z :=
      List.forall_mem_cons.mpr ⟨hyx, fun z hz => hyx.trans (hx z hz)⟩
    have hrest := ih hsorted hys fun z hz w hw => hequal z hz w (List.mem_cons_of_mem y hw)
    rw [AddressUsers.union, if_neg hlt, if_neg hne]
    refine ⟨List.pairwise_cons.mpr ⟨hrest.key_lt hall hy, hrest.sorted⟩, fun z => ?_⟩
    rw [List.mem_cons, hrest.mem_iff, List.mem_cons (a := z) (b := y)]
    constructor
    · intro h
      rcases h with rfl | h | h
      · exact .inr ⟨.inl rfl, fun w hw => equal_eq_false (hall w hw).ne'⟩
      · exact .inl h
      · exact .inr ⟨.inr h.1, h.2⟩
    · intro h
      rcases h with h | ⟨rfl | h, hnone⟩
      · exact .inr (.inl h)
      · exact .inl rfl
      · exact .inr (.inr ⟨h, hnone⟩)

/-- Putting one more user of the other list where it belongs. -/
theorem isUnion_insertUser {l r : AddressUsers I B D} (h : IsUnion P users l r)
    (hlt : ∀ x ∈ l, P.key x < P.key y)
    (hequal : ∀ x ∈ users, P.key x = P.key y → P.equal x y = true) :
    IsUnion P users (l ++ [y]) (AddressUsers.insertUser P r y) := by
  obtain ⟨before, after, hlb, hr, hbefore, hcases⟩ := lowerBound_cases less_iff h.sorted y
  have hmem : ∀ z, (z ∈ l ++ [y] ∧ ∀ x ∈ users, P.equal x z = false) ↔
      (z ∈ l ∧ ∀ x ∈ users, P.equal x z = false) ∨ z = y ∧ ∀ x ∈ users, P.equal x z = false := by
    intro z
    rw [List.mem_append, List.mem_singleton, or_and_right]
  rw [AddressUsers.insertUser, hlb]
  rcases hcases with hafter | ⟨lb, rest, hlist, hkey, -⟩
  · have hnew : ∀ x ∈ users, P.equal x y = false := by
      intro x hx
      have hxr := (h.mem_iff x).mpr (.inl hx)
      rw [hr] at hxr
      rcases List.mem_append.mp hxr with hxr | hxr
      · exact equal_eq_false (hbefore x hxr).ne
      · exact equal_eq_false (hafter x hxr).ne'
    have hinserted : IsUnion P users (l ++ [y]) (before ++ y :: after) := by
      refine ⟨uniqueSorted_insert (hr ▸ h.sorted) hbefore hafter, fun z => ?_⟩
      rw [hmem, ← or_assoc, ← h.mem_iff, hr, List.mem_append, List.mem_append, List.mem_cons,
        or_left_comm, or_comm (a := z = y)]
      refine or_congr_right (and_iff_left_of_imp fun hz => ?_).symm
      rw [hz]
      exact hnew
    cases after with
    | nil => exact hinserted
    | cons first rest =>
      have hne := equal_eq_false (hafter first (by simp)).ne'
      dsimp only
      rw [hne, if_neg Bool.false_ne_true]
      exact hinserted
  · have hlbr : lb ∈ r := by
      rw [hr, hlist]
      simp
    have hlbu : lb ∈ users := by
      refine ((h.mem_iff lb).mp hlbr).resolve_right fun hl => ?_
      exact absurd hkey (hlt lb hl.1).ne
    have heq := hequal lb hlbu hkey
    rw [hlist]
    dsimp only
    rw [if_pos heq]
    refine ⟨h.sorted, fun z => ?_⟩
    rw [hmem, ← or_assoc, ← h.mem_iff]
    refine (or_iff_left fun hz => ?_).symm
    have hfalse := hz.2 lb hlbu
    rw [hz.1, heq] at hfalse
    exact Bool.false_ne_true hfalse.symm

theorem isUnion_insert (hsorted : UniqueSorted P.key users) (hsorted' : UniqueSorted P.key other)
    (hequal : ∀ x ∈ users, ∀ y ∈ other, P.key x = P.key y → P.equal x y = true) :
    IsUnion P users other (AddressUsers.insert P users other) := by
  rw [AddressUsers.insert]
  cases hempty : users.isEmpty with
  | true =>
    rw [List.isEmpty_iff.mp hempty]
    exact isUnion_nil_left hsorted'
  | false =>
    rw [if_neg Bool.false_ne_true]
    clear hempty
    induction other using List.reverseRecOn with
    | nil => exact isUnion_nil_right hsorted
    | append_singleton l y ih =>
      obtain ⟨hl, -, hly⟩ := List.pairwise_append.mp hsorted'
      rw [List.foldl_append, List.foldl_cons, List.foldl_nil]
      refine isUnion_insertUser (ih hl fun x hx z hz => hequal x hx z (by simp [hz]))
        (fun x hx => hly x hx y (by simp)) fun x hx => hequal x hx y (by simp)

/-- A list of users that is right for a set of instructions with blocks and a set of data blocks. -/
structure IsListFor (P : Program I B D) (owned : I → B → Prop) (held : D → Prop)
    (r : AddressUsers I B D) : Prop where
  consistent : Consistent P r
  owns_iff : ∀ i b, Owns r i b ↔ owned i b
  holds_iff : ∀ d, Holds P r d ↔ held d

theorem IsUnion.isListFor {r : AddressUsers I B D} (h : IsUnion P users other r)
    (husers : Consistent P users) (hother : Consistent P other) :
    IsListFor P (fun i b => Owns users i b ∨ Owns other i b)
      (fun d => Holds P users d ∨ Holds P other d) r := by
  -- what is not put in the list is the same as one of the users
  have hin : ∀ z ∈ other, z ∈ r ∨ ∃ x ∈ users, P.equal x z = true := by
    intro z hz
    by_cases hnone : ∀ x ∈ users, P.equal x z = false
    · exact .inl ((h.mem_iff z).mpr (.inr ⟨hz, hnone⟩))
    · simp only [not_forall, Bool.not_eq_false] at hnone
      obtain ⟨x, hx, heq⟩ := hnone
      exact .inr ⟨x, hx, heq⟩
  refine ⟨⟨h.sorted, fun i bs hbs => ?_⟩, fun i b => ⟨?_, ?_⟩, fun d => ⟨?_, ?_⟩⟩
  · rcases (h.mem_iff _).mp hbs with hbs | hbs
    · exact husers.bblocks i bs hbs
    · exact hother.bblocks i bs hbs.1
  · intro ⟨bs, hbs, hb⟩
    rcases (h.mem_iff _).mp hbs with hbs | hbs
    · exact .inl ⟨bs, hbs, hb⟩
    · exact .inr ⟨bs, hbs.1, hb⟩
  · intro howns
    rcases howns with ⟨bs, hbs, hb⟩ | ⟨bs, hbs, hb⟩
    · exact ⟨bs, (h.mem_iff _).mpr (.inl hbs), hb⟩
    · rcases hin _ hbs with hr | ⟨x, hx, heq⟩
      · exact ⟨bs, hr, hb⟩
      · obtain rfl := (instruction_of_equal heq i bs).mpr rfl
        exact ⟨bs, (h.mem_iff _).mpr (.inl hx), hb⟩
  · intro ⟨e, he, hed⟩
    rcases (h.mem_iff _).mp he with he | he
    · exact .inl ⟨e, he, hed⟩
    · exact .inr ⟨e, he.1, hed⟩
  · intro hholds
    rcases hholds with ⟨e, he, hed⟩ | ⟨e, he, hed⟩
    · exact ⟨e, (h.mem_iff _).mpr (.inl he), hed⟩
    · rcases hin _ he with hr | ⟨x, hx, heq⟩
      · exact ⟨e, hr, hed⟩
      · obtain ⟨e', rfl, hed'⟩ := (dataBlock_of_equal heq d).mpr ⟨e, rfl, hed⟩
        exact ⟨e', (h.mem_iff _).mpr (.inl hx), hed'⟩

theorem common_isListFor (hsame : SameBlocks users other) (husers : Consistent P users) :
    IsListFor P (fun i b => Owns users i b ∧ Owns other i b)
      (fun d => Holds P users d ∧ Holds P other d) (common P users other) := by
  refine ⟨⟨husers.sorted.sublist List.filter_sublist, fun i bs hbs => ?_⟩, fun i b => ⟨?_, ?_⟩,
    fun d => ⟨?_, ?_⟩⟩
  · exact husers.bblocks i bs (mem_common.mp hbs).1
  · intro ⟨bs, hbs, hb⟩
    obtain ⟨hx, y, hy, heq⟩ := mem_common.mp hbs
    obtain rfl := (instruction_of_equal heq i bs).mp rfl
    exact ⟨⟨bs, hx, hb⟩, bs, hy, hb⟩
  · intro ⟨⟨bs, hbs, hb⟩, cs, hcs, _⟩
    have heq := hsame i bs cs hbs hcs
    exact ⟨bs, mem_common.mpr ⟨hbs, _, hcs, equal_instruction.mpr ⟨rfl, heq⟩⟩, hb⟩
  · intro ⟨e, he, hed⟩
    obtain ⟨hx, y, hy, heq⟩ := mem_common.mp he
    obtain ⟨e', rfl, hed'⟩ := (dataBlock_of_equal heq d).mp ⟨e, rfl, hed⟩
    exact ⟨⟨e, hx, hed⟩, e', hy, hed'⟩
  · intro ⟨⟨e, he, hed⟩, e', he', hed'⟩
    refine ⟨e, mem_common.mpr ⟨he, _, he', equal_dataBlock.mpr ?_⟩, hed⟩
    exact ⟨hed.1.trans hed'.1.symm, hed.2.trans hed'.2.symm⟩

/-- The operations end with lists for the intersection and for the union. -/
structure SetOperations (P : Program I B D) (users other : AddressUsers I B D) : Prop where
  intersection : ∃ r, (∃ n, ∀ fuel, n < fuel →
      AddressUsers.intersection P fuel users other = some r) ∧
    IsListFor P (fun i b => Owns users i b ∧ Owns other i b)
      (fun d => Holds P users d ∧ Holds P other d) r
  union : IsListFor P (fun i b => Owns users i b ∨ Owns other i b)
    (fun d => Holds P users d ∨ Holds P other d) (AddressUsers.union P users other)
  insert : IsListFor P (fun i b => Owns users i b ∨ Owns other i b)
    (fun d => Holds P users d ∨ Holds P other d) (AddressUsers.insert P users other)

/-- The operations are right exactly where instructions in both lists have the same blocks. -/
theorem setOperations_iff (hinj : Function.Injective P.insnAddress) (husers : Consistent P users)
    (hother : Consistent P other) : SetOperations P users other ↔ SameBlocks users other := by
  constructor
  · intro h i bs cs hbs hcs
    obtain ⟨r, ⟨n, hrun⟩, -⟩ := h.intersection
    have hrun := hrun (n + 1) (Nat.lt_succ_self n)
    by_contra hne
    have hunequal : P.equal (.instruction i bs) (.instruction i cs) = false :=
      Bool.eq_false_iff.mpr fun heq => hne (equal_instruction.mp heq).2
    rw [AddressUsers.intersection,
      intersectLoop_none [] husers.sorted hother.sorted hbs hcs rfl hunequal] at hrun
    cases hrun
  · intro hsame
    have hequal : ∀ x ∈ users, ∀ y ∈ other, P.key x = P.key y → P.equal x y = true :=
      fun x hx y hy hkey => equal_of_key hinj hsame hx hy hkey
    refine ⟨⟨common P users other, ⟨users.length + other.length, fun fuel hfuel => ?_⟩, ?_⟩, ?_, ?_⟩
    · exact intersectLoop_eq [] husers.sorted hother.sorted hequal hfuel
    · exact common_isListFor hsame husers
    · exact (isUnion_union husers.sorted hother.sorted hequal).isListFor husers hother
    · exact (isUnion_insert husers.sorted hother.sorted hequal).isListFor husers hother

end

/-- Instructions and blocks are their addresses. -/
def byAddress : Program Nat Nat Nat := ⟨id, fun _ => 1, id, id, fun _ => 1⟩

theorem consistent_one (i b : Nat) : Consistent byAddress [.instruction i [b]] := by
  refine ⟨List.pairwise_singleton _ _, fun j bs hbs => ?_⟩
  have heq := List.mem_singleton.mp hbs
  obtain ⟨-, rfl⟩ := AddressUser.instruction.inj heq
  exact ⟨List.cons_ne_nil _ _, List.pairwise_singleton _ _⟩

theorem setOperations_iff_one :
    SetOperations byAddress [.instruction 4 [2]] [.instruction 4 [2]] := by
  refine (setOperations_iff Function.injective_id (consistent_one 4 2) (consistent_one 4 2)).mpr
    fun i bs cs hbs hcs => ?_
  rw [(AddressUser.instruction.inj (List.mem_singleton.mp hbs)).2,
    (AddressUser.instruction.inj (List.mem_singleton.mp hcs)).2]

/-- The intersection never ends for an instruction of two blocks that overlap. -/
theorem intersection_never_ends :
    Consistent byAddress [.instruction 4 [2]] ∧ Consistent byAddress [.instruction 4 [4]] ∧
      (∀ fuel, AddressUsers.intersection byAddress fuel [.instruction 4 [2]]
        [.instruction 4 [4]] = none) ∧
      ¬SetOperations byAddress [.instruction 4 [2]] [.instruction 4 [4]] := by
  have hnever : ∀ fuel, AddressUsers.intersection byAddress fuel [.instruction 4 [2]]
      [.instruction 4 [4]] = none := fun fuel =>
    intersectLoop_none [] (consistent_one 4 2).sorted (consistent_one 4 4).sorted
      (List.mem_singleton.mpr rfl) (List.mem_singleton.mpr rfl) rfl rfl
  refine ⟨consistent_one 4 2, consistent_one 4 4, hnever, fun h => ?_⟩
  obtain ⟨r, ⟨n, hrun⟩, -⟩ := h.intersection
  have hrun := hrun (n + 1) (Nat.lt_succ_self n)
  rw [hnever] at hrun
  cases hrun

end LoomX.AddressUsage
