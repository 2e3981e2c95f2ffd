import LoomX.IntervalSet
import LoomX.UniqueList

namespace LoomX.AddressUsage

/-- The instructions, basic blocks and data blocks of a program, with their extents. -/
structure Program (I B D : Type) where
  insnAddress : I → Nat
  insnSize : I → Nat
  bblockAddress : B → Nat
  dblockAddress : D → Nat
  dblockSize : D → Nat

inductive AddressUser (I B D : Type) where
  | instruction (insn : I) (bblocks : List B)
  | dataBlock (dblock : D)

section
variable {I B D : Type} (P : Program I B D)

namespace Program

def insnExtent (insn : I) : Interval := .baseSize (P.insnAddress insn) (P.insnSize insn)

def extent (db : D) : Interval := .baseSize (P.dblockAddress db) (P.dblockSize db)

def sortBasicBlocksByAddress (a b : B) : Bool := P.bblockAddress a < P.bblockAddress b

def sortDataBlocks (a b : D) : Bool :=
  if P.dblockAddress a ≠ P.dblockAddress b then P.dblockAddress a < P.dblockAddress b
  else P.dblockSize a < P.dblockSize b

/-- Data blocks come before instructions. -/
def less : AddressUser I B D → AddressUser I B D → Bool
  | .instruction a _, .instruction b _ => P.insnAddress a < P.insnAddress b
  | .instruction _ _, .dataBlock _ => false
  | .dataBlock _, .instruction _ _ => true
  | .dataBlock a, .dataBlock b => P.sortDataBlocks a b

end Program

/-- The users of an address. -/
abbrev AddressUsers (I B D : Type) := List (AddressUser I B D)

namespace AddressUsers

def insertInstruction (users : AddressUsers I B D) (insn : I) (bblock : B) :
    AddressUser I B D × AddressUsers I B D :=
  let user : AddressUser I B D := .instruction insn [bblock]
  let (before, after) := lowerBound P.less users user
  match after with
  | .instruction lb bblocks :: rest =>
    if P.insnAddress lb ≠ P.insnAddress insn then (user, before ++ user :: after)
    else
      let lb : AddressUser I B D :=
        .instruction lb (insertUnique P.sortBasicBlocksByAddress bblocks bblock)
      (lb, before ++ lb :: rest)
  | _ => (user, before ++ user :: after)

def insertDataBlock (users : AddressUsers I B D) (db : D) : AddressUser I B D × AddressUsers I B D :=
  let user : AddressUser I B D := .dataBlock db
  let (before, after) := lowerBound P.less users user
  match after with
  | .dataBlock lb :: _ =>
    if !equalUnique P.sortDataBlocks lb db then (user, before ++ user :: after)
    else (.dataBlock lb, users)
  | _ => (user, before ++ user :: after)

def eraseInstruction (users : AddressUsers I B D) (insn : I) (bb : B) :
    Option I × AddressUsers I B D :=
  let (before, after) := lowerBound P.less users (.instruction insn [bb])
  match after with
  | .instruction lb bblocks :: rest =>
    if P.insnAddress lb = P.insnAddress insn then
      match eraseUnique P.sortBasicBlocksByAddress bblocks bb with
      | [] => (some lb, before ++ rest)
      | bblocks => (some lb, before ++ .instruction lb bblocks :: rest)
    else (none, users)
  | _ => (none, users)

def eraseDataBlock (users : AddressUsers I B D) (db : D) : Option D × AddressUsers I B D :=
  let (before, after) := lowerBound P.less users (.dataBlock db)
  match after with
  | .dataBlock lb :: rest =>
    if equalUnique P.sortDataBlocks lb db then (some lb, before ++ rest) else (none, users)
  | _ => (none, users)

end AddressUsers

end

variable {I B D : Type} {P : Program I B D}

/-- Users are sorted by these keys. -/
def Program.key (P : Program I B D) : AddressUser I B D → ℕ ×ₗ ℕ ×ₗ ℕ
  | .dataBlock db => toLex (0, toLex (P.dblockAddress db, P.dblockSize db))
  | .instruction insn _ => toLex (1, toLex (P.insnAddress insn, 0))

theorem less_iff (a b : AddressUser I B D) : P.less a b = true ↔ P.key a < P.key b := by
  cases a <;> cases b <;>
    simp [Program.less, Program.key, Prod.Lex.toLex_lt_toLex, Program.sortDataBlocks]
  split <;> simp_all

theorem sortBasicBlocksByAddress_iff (a b : B) :
    P.sortBasicBlocksByAddress a b = true ↔ P.bblockAddress a < P.bblockAddress b := by
  simp [Program.sortBasicBlocksByAddress]

/-- Data blocks with one address and one size are the same to the map. -/
def Program.Equivalent (P : Program I B D) (d e : D) : Prop :=
  P.dblockAddress d = P.dblockAddress e ∧ P.dblockSize d = P.dblockSize e

theorem key_dataBlock {d e : D} :
    P.key (.dataBlock d) = P.key (.dataBlock e) ↔ P.Equivalent d e := by
  simp [Program.key, Program.Equivalent]

theorem equalUnique_sortDataBlocks {d e : D} :
    equalUnique P.sortDataBlocks d e = equalUnique P.less (.dataBlock d) (.dataBlock e) := rfl

theorem insertDataBlock_eq (users : AddressUsers I B D) (db : D) :
    (AddressUsers.insertDataBlock P users db).2 = insertUnique P.less users (.dataBlock db) := by
  simp only [AddressUsers.insertDataBlock, insertUnique]
  rcases lowerBound P.less users (.dataBlock db) with ⟨before, _ | ⟨⟨lb, bblocks⟩ | lb, rest⟩⟩
  · rfl
  · exact (if_neg (by simp [equalUnique, Program.less])).symm
  · dsimp only
    rw [equalUnique_sortDataBlocks]
    cases equalUnique P.less (.dataBlock lb) (.dataBlock db) <;> rfl

theorem eraseDataBlock_eq (users : AddressUsers I B D) (db : D) :
    (AddressUsers.eraseDataBlock P users db).2 = eraseUnique P.less users (.dataBlock db) := by
  simp only [AddressUsers.eraseDataBlock, eraseUnique]
  rcases lowerBound P.less users (.dataBlock db) with ⟨before, _ | ⟨⟨lb, bblocks⟩ | lb, rest⟩⟩
  · rfl
  · exact (if_neg (by simp [equalUnique, Program.less])).symm
  · dsimp only
    rw [equalUnique_sortDataBlocks]
    cases equalUnique P.less (.dataBlock lb) (.dataBlock db) <;> rfl

/-- The blocks listed with an instruction, none when it is not there. -/
def Lists (users : AddressUsers I B D) (insn : I) (bblocks : List B) : Prop :=
  .instruction insn bblocks ∈ users ∨ bblocks = [] ∧ ∀ bbs, .instruction insn bbs ∉ users

/-- The blocks of one instruction are replaced, and no other user is touched. -/
structure Replaces (P : Program I B D) (users users' : AddressUsers I B D) (insn : I)
    (bblocks : List B) : Prop where
  sorted : UniqueSorted P.key users'
  mem_iff : ∀ x, x ∈ users' ↔
    (x = .instruction insn bblocks ∧ bblocks ≠ []) ∨ x ∈ users ∧ ∀ bbs, x ≠ .instruction insn bbs

theorem eq_instruction_of_key (hinj : Function.Injective P.insnAddress) {x : AddressUser I B D}
    {insn : I} {bbs : List B} (h : P.key x = P.key (.instruction insn bbs)) :
    ∃ bblocks, x = .instruction insn bblocks := by
  cases x with
  | dataBlock d => simp [Program.key] at h
  | instruction i bblocks =>
    simp only [Program.key, EmbeddingLike.apply_eq_iff_eq, Prod.mk.injEq, true_and, and_true] at h
    exact ⟨bblocks, by rw [hinj h]⟩

/-- The entry of an instruction, none without blocks. -/
def entry (insn : I) (bblocks : List B) : AddressUsers I B D :=
  match bblocks with
  | [] => []
  | bblocks => [.instruction insn bblocks]

theorem mem_entry {x : AddressUser I B D} {insn : I} {bblocks : List B} :
    x ∈ entry insn bblocks ↔ x = .instruction insn bblocks ∧ bblocks ≠ [] := by
  cases bblocks <;> simp [entry]

theorem entry_of_ne {insn : I} {bblocks : List B} (h : bblocks ≠ []) :
    entry insn bblocks = ([.instruction insn bblocks] : AddressUsers I B D) := by
  cases bblocks with
  | nil => exact absurd rfl h
  | cons => rfl

theorem replaces_of_parts {before after : AddressUsers I B D} {insn : I} {bbs : List B}
    (old : AddressUsers I B D)
    (hsorted : UniqueSorted P.key (before ++ (old ++ after)))
    (hbefore : ∀ x ∈ before, P.key x < P.key (.instruction insn bbs))
    (hafter : ∀ x ∈ after, P.key (.instruction insn bbs) < P.key x)
    (hold : ∀ x ∈ old, ∃ bbs, x = .instruction insn bbs) (bblocks : List B) :
    Replaces P (before ++ (old ++ after)) (before ++ (entry insn bblocks ++ after)) insn bblocks where
  sorted := by
    obtain ⟨hb, hoa, hba⟩ := List.pairwise_append.mp hsorted
    have ha := (List.pairwise_append.mp hoa).2.1
    have hentry : ∀ x ∈ entry insn bblocks, P.key x = P.key (.instruction insn bbs) := by
      intro x hx
      rw [(mem_entry.mp hx).1]
      rfl
    refine List.pairwise_append.mpr ⟨hb, List.pairwise_append.mpr ⟨?_, ha, fun x hx y hy => ?_⟩,
      fun x hx y hy => ?_⟩
    · cases bblocks <;> simp [entry]
    · rw [hentry x hx]
      exact hafter y hy
    · rcases List.mem_append.mp hy with hy | hy
      · rw [hentry y hy]
        exact hbefore x hx
      · exact hba x hx y (List.mem_append_right _ hy)
  mem_iff x := by
    have hb : x ∈ before → ∀ bbs', x ≠ .instruction insn bbs' := by
      rintro hx bbs' rfl
      exact (hbefore _ hx).ne rfl
    have ha : x ∈ after → ∀ bbs', x ≠ .instruction insn bbs' := by
      rintro hx bbs' rfl
      exact (hafter _ hx).ne rfl
    have ho : x ∈ old → ¬∀ bbs', x ≠ .instruction insn bbs' := fun hx hne =>
      (hold x hx).elim hne
    simp only [List.mem_append, mem_entry]
    tauto

theorem lists_of_parts {before old after : AddressUsers I B D} {insn : I} {bbs : List B}
    (hbefore : ∀ x ∈ before, P.key x < P.key (.instruction insn bbs))
    (hafter : ∀ x ∈ after, P.key (.instruction insn bbs) < P.key x) (hold : old = []) :
    Lists (before ++ (old ++ after)) insn [] := by
  refine .inr ⟨rfl, fun bbs' hx => ?_⟩
  rw [hold, List.nil_append] at hx
  rcases List.mem_append.mp hx with hx | hx
  · exact (hbefore _ hx).ne rfl
  · exact (hafter _ hx).ne rfl

/-- An insertion adds the block to those of the instruction. -/
theorem replaces_insertInstruction (hinj : Function.Injective P.insnAddress)
    {users : AddressUsers I B D} (hsorted : UniqueSorted P.key users) (insn : I) (bblock : B) :
    ∃ bblocks, Lists users insn bblocks ∧
      Replaces P users (AddressUsers.insertInstruction P users insn bblock).2 insn
        (insertUnique P.sortBasicBlocksByAddress bblocks bblock) := by
  obtain ⟨before, after, hlb, rfl, hbefore, hafter | ⟨lb, rest, rfl, heq, hrest⟩⟩ :=
    lowerBound_cases less_iff hsorted (.instruction insn [bblock])
  · refine ⟨[], lists_of_parts hbefore hafter rfl, ?_⟩
    have hresult : (AddressUsers.insertInstruction P (before ++ after) insn bblock).2 =
        before ++ (entry insn [bblock] ++ after) := by
      simp only [AddressUsers.insertInstruction, hlb]
      split
      next lb bblocks rest =>
        have hne : P.insnAddress lb ≠ P.insnAddress insn := by
          intro h
          have hlt := hafter (.instruction lb bblocks) (by simp)
          simp [Program.key, h] at hlt
        rw [if_pos hne]
        rfl
      next => rfl
    rw [hresult]
    exact replaces_of_parts [] hsorted hbefore hafter (by simp) [bblock]
  · obtain ⟨bblocks, rfl⟩ := eq_instruction_of_key hinj heq
    refine ⟨bblocks, .inl (by simp), ?_⟩
    have hresult : (AddressUsers.insertInstruction P (before ++ .instruction insn bblocks :: rest)
        insn bblock).2 = before ++
          (entry insn (insertUnique P.sortBasicBlocksByAddress bblocks bblock) ++ rest) := by
      simp only [AddressUsers.insertInstruction, hlb, ne_eq, not_true_eq_false, if_false]
      rw [entry_of_ne (insertUnique_ne_nil _ _ _)]
      rfl
    rw [hresult]
    exact replaces_of_parts [.instruction insn bblocks] hsorted hbefore hrest (by simp) _

/-- Erasing removes the block, and the instruction with its last one. -/
theorem replaces_eraseInstruction (hinj : Function.Injective P.insnAddress)
    {users : AddressUsers I B D} (hsorted : UniqueSorted P.key users) (insn : I) (bb : B) :
    ∃ bblocks, Lists users insn bblocks ∧
      Replaces P users (AddressUsers.eraseInstruction P users insn bb).2 insn
        (eraseUnique P.sortBasicBlocksByAddress bblocks bb) := by
  obtain ⟨before, after, hlb, rfl, hbefore, hafter | ⟨lb, rest, rfl, heq, hrest⟩⟩ :=
    lowerBound_cases less_iff hsorted (.instruction insn [bb])
  · refine ⟨[], lists_of_parts hbefore hafter rfl, ?_⟩
    have hresult : (AddressUsers.eraseInstruction P (before ++ after) insn bb).2 =
        before ++ (entry insn [] ++ after) := by
      simp only [AddressUsers.eraseInstruction, hlb]
      split
      next lb bblocks rest =>
        have hne : P.insnAddress lb ≠ P.insnAddress insn := by
          intro h
          have hlt := hafter (.instruction lb bblocks) (by simp)
          simp [Program.key, h] at hlt
        rw [if_neg hne]
        rfl
      next => rfl
    rw [hresult]
    exact replaces_of_parts [] hsorted hbefore hafter (by simp) []
  · obtain ⟨bblocks, rfl⟩ := eq_instruction_of_key hinj heq
    refine ⟨bblocks, .inl (by simp), ?_⟩
    have hresult : (AddressUsers.eraseInstruction P (before ++ .instruction insn bblocks :: rest)
        insn bb).2 = before ++
          (entry insn (eraseUnique P.sortBasicBlocksByAddress bblocks bb) ++ rest) := by
      simp only [AddressUsers.eraseInstruction, hlb, if_true]
      cases eraseUnique P.sortBasicBlocksByAddress bblocks bb <;> rfl
    rw [hresult]
    exact replaces_of_parts [.instruction insn bblocks] hsorted hbefore hrest (by simp) _

/-- What is inserted and not erased: instructions with basic blocks, and data blocks. -/
structure Inserted (I B D : Type) where
  insns : Set (I × B)
  dblocks : Set D

/-- The users of an address are those inserted there, sorted and each listed once. -/
structure Records (P : Program I B D) (s : Inserted I B D) (a : Nat) (users : AddressUsers I B D) :
    Prop where
  sorted : UniqueSorted P.key users
  dataBlock_iff : ∀ d, .dataBlock d ∈ users ↔ d ∈ s.dblocks ∧ a ∈ P.extent d
  instruction_iff : ∀ i,
    (∃ bblocks, .instruction i bblocks ∈ users) ↔ a ∈ P.insnExtent i ∧ ∃ b, (i, b) ∈ s.insns
  bblocks_iff : ∀ i bblocks, .instruction i bblocks ∈ users →
    UniqueSorted P.bblockAddress bblocks ∧ ∀ b, b ∈ bblocks ↔ (i, b) ∈ s.insns

theorem Equivalent.extent_eq {d e : D} (h : P.Equivalent d e) : P.extent d = P.extent e := by
  rw [Program.extent, Program.extent, h.1, h.2]

section

variable {s : Inserted I B D} {a : Nat} {users users' : AddressUsers I B D}

theorem Records.lists (h : Records P s a users) {i : I} (ha : a ∈ P.insnExtent i) {bblocks : List B}
    (hlists : Lists users i bblocks) :
    UniqueSorted P.bblockAddress bblocks ∧ ∀ b, b ∈ bblocks ↔ (i, b) ∈ s.insns := by
  rcases hlists with hmem | ⟨rfl, hnone⟩
  · exact h.bblocks_iff i bblocks hmem
  · refine ⟨List.Pairwise.nil, fun b => ⟨by simp, fun hb => ?_⟩⟩
    obtain ⟨bbs, hbbs⟩ := (h.instruction_iff i).mpr ⟨ha, b, hb⟩
    exact absurd hbbs (hnone bbs)

/-- Replacing the blocks of one instruction by those inserted with it. -/
theorem Records.replaces (h : Records P s a users) {i : I} (ha : a ∈ P.insnExtent i)
    {s' : Inserted I B D} (hd : s'.dblocks = s.dblocks)
    (hother : ∀ j b, j ≠ i → ((j, b) ∈ s'.insns ↔ (j, b) ∈ s.insns)) {bblocks : List B}
    (hr : Replaces P users users' i bblocks) (hsorted : UniqueSorted P.bblockAddress bblocks)
    (hmem : ∀ b, b ∈ bblocks ↔ (i, b) ∈ s'.insns) : Records P s' a users' where
  sorted := hr.sorted
  dataBlock_iff d := by
    rw [hr.mem_iff, hd, ← h.dataBlock_iff]
    simp
  instruction_iff j := by
    simp only [hr.mem_iff]
    by_cases hji : j = i
    · subst hji
      have hnone : ∀ bbs, ¬∀ bbs', AddressUser.instruction j bbs ≠
          (.instruction j bbs' : AddressUser I B D) := fun bbs hne => hne bbs rfl
      constructor
      · rintro ⟨bbs, ⟨heq, hne⟩ | ⟨-, hne⟩⟩
        · obtain ⟨b, hb⟩ := List.exists_mem_of_ne_nil bblocks hne
          exact ⟨ha, b, (hmem b).mp hb⟩
        · exact absurd hne (hnone bbs)
      · rintro ⟨-, b, hb⟩
        exact ⟨bblocks, .inl ⟨rfl, List.ne_nil_of_mem ((hmem b).mpr hb)⟩⟩
    · have hne : ∀ bbs bbs', AddressUser.instruction j bbs ≠
          (.instruction i bbs' : AddressUser I B D) := fun bbs bbs' heq =>
        hji (AddressUser.instruction.inj heq).1
      simp only [hne, false_and, false_or, ne_eq, not_false_eq_true, implies_true, and_true]
      rw [h.instruction_iff]
      simp only [hother j _ hji]
  bblocks_iff j bbs hj := by
    rcases (hr.mem_iff _).mp hj with ⟨heq, -⟩ | ⟨hold, hne⟩
    · obtain ⟨rfl, rfl⟩ := AddressUser.instruction.inj heq
      exact ⟨hsorted, hmem⟩
    · have hji : j ≠ i := fun h => hne bbs (by rw [h])
      obtain ⟨hs, hb⟩ := h.bblocks_iff j bbs hold
      exact ⟨hs, fun b => (hb b).trans (hother j b hji).symm⟩

theorem Records.congr (h : Records P s a users) {s' : Inserted I B D}
    (hd : ∀ d, a ∈ P.extent d → (d ∈ s'.dblocks ↔ d ∈ s.dblocks))
    (hi : ∀ i b, a ∈ P.insnExtent i → ((i, b) ∈ s'.insns ↔ (i, b) ∈ s.insns)) :
    Records P s' a users where
  sorted := h.sorted
  dataBlock_iff d := by
    rw [h.dataBlock_iff]
    exact ⟨fun ⟨hs, ha⟩ => ⟨(hd d ha).mpr hs, ha⟩, fun ⟨hs, ha⟩ => ⟨(hd d ha).mp hs, ha⟩⟩
  instruction_iff i := by
    rw [h.instruction_iff]
    exact and_congr_right fun ha => exists_congr fun b => (hi i b ha).symm
  bblocks_iff i bbs hmem := by
    have ha := ((h.instruction_iff i).mp ⟨bbs, hmem⟩).1
    obtain ⟨hs, hb⟩ := h.bblocks_iff i bbs hmem
    exact ⟨hs, fun b => (hb b).trans (hi i b ha).symm⟩

def Inserted.insertInstruction (s : Inserted I B D) (insn : I) (bblock : B) : Inserted I B D :=
  { s with insns := insert (insn, bblock) s.insns }

def Inserted.eraseInstruction (s : Inserted I B D) (insn : I) (bblock : B) : Inserted I B D :=
  { s with insns := s.insns \ {(insn, bblock)} }

/-- A data block is kept unless an equivalent one is there. -/
def Inserted.insertDataBlock (s : Inserted I B D) (P : Program I B D) (db : D) : Inserted I B D :=
  { s with dblocks := s.dblocks ∪ {d | d = db ∧ ∀ e ∈ s.dblocks, ¬P.Equivalent e db} }

def Inserted.eraseDataBlock (s : Inserted I B D) (P : Program I B D) (db : D) : Inserted I B D :=
  { s with dblocks := {d ∈ s.dblocks | ¬P.Equivalent d db} }

theorem Records.insertInstruction (hinsn : Function.Injective P.insnAddress)
    (hbblock : Function.Injective P.bblockAddress) (h : Records P s a users) {i : I}
    (ha : a ∈ P.insnExtent i) (b : B) :
    Records P (s.insertInstruction i b) a (AddressUsers.insertInstruction P users i b).2 := by
  obtain ⟨bblocks, hlists, hr⟩ := replaces_insertInstruction hinsn h.sorted i b
  obtain ⟨hsorted, hmem⟩ := h.lists ha hlists
  refine h.replaces ha rfl (fun j b' hj => ?_) hr
    (uniqueSorted_insertUnique sortBasicBlocksByAddress_iff hsorted) fun b' => ?_
  · simp [Inserted.insertInstruction, hj]
  · rw [mem_insertUnique sortBasicBlocksByAddress_iff hsorted]
    simp only [Inserted.insertInstruction, Set.mem_insert_iff, Prod.mk.injEq, true_and, ← hmem]
    constructor
    · rintro (hb | ⟨rfl, -⟩)
      · exact .inr hb
      · exact .inl rfl
    · rintro (rfl | hb)
      · by_cases hin : b' ∈ bblocks
        · exact .inl hin
        · exact .inr ⟨rfl, fun y hy heq => hin (hbblock heq ▸ hy)⟩
      · exact .inl hb

theorem Records.eraseInstruction (hinsn : Function.Injective P.insnAddress)
    (hbblock : Function.Injective P.bblockAddress) (h : Records P s a users) {i : I}
    (ha : a ∈ P.insnExtent i) (b : B) :
    Records P (s.eraseInstruction i b) a (AddressUsers.eraseInstruction P users i b).2 := by
  obtain ⟨bblocks, hlists, hr⟩ := replaces_eraseInstruction hinsn h.sorted i b
  obtain ⟨hsorted, hmem⟩ := h.lists ha hlists
  refine h.replaces ha rfl (fun j b' hj => ?_) hr
    (uniqueSorted_eraseUnique sortBasicBlocksByAddress_iff hsorted) fun b' => ?_
  · simp [Inserted.eraseInstruction, hj]
  · rw [mem_eraseUnique sortBasicBlocksByAddress_iff hsorted, hmem]
    simp [Inserted.eraseInstruction, hbblock.eq_iff]

/-- An equivalent data block is a user with the same key. -/
theorem Records.exists_key_iff (h : Records P s a users) {db : D} (ha : a ∈ P.extent db) :
    (∀ y ∈ users, P.key y ≠ P.key (.dataBlock db)) ↔ ∀ e ∈ s.dblocks, ¬P.Equivalent e db := by
  constructor
  · intro hnone e he heq
    have hmem := (h.dataBlock_iff e).mpr ⟨he, Equivalent.extent_eq heq ▸ ha⟩
    exact hnone _ hmem (key_dataBlock.mpr heq)
  · intro hnone y hy heq
    cases y with
    | instruction i bbs => simp [Program.key] at heq
    | dataBlock e => exact hnone e ((h.dataBlock_iff e).mp hy).1 (key_dataBlock.mp heq)

theorem Records.insertDataBlock (h : Records P s a users) {db : D} (ha : a ∈ P.extent db) :
    Records P (s.insertDataBlock P db) a (AddressUsers.insertDataBlock P users db).2 := by
  have hmem : ∀ x, x ∈ insertUnique P.less users (.dataBlock db) ↔
      x ∈ users ∨ x = .dataBlock db ∧ ∀ e ∈ s.dblocks, ¬P.Equivalent e db := by
    intro x
    rw [mem_insertUnique less_iff h.sorted, h.exists_key_iff ha]
  rw [insertDataBlock_eq]
  refine ⟨uniqueSorted_insertUnique less_iff h.sorted, fun d => ?_, fun i => ?_, fun i bbs hi => ?_⟩
  · simp only [hmem, h.dataBlock_iff, AddressUser.dataBlock.injEq, Inserted.insertDataBlock,
      Set.mem_union, Set.mem_ofPred_eq]
    constructor
    · rintro (⟨hd, had⟩ | ⟨rfl, hnone⟩)
      · exact ⟨.inl hd, had⟩
      · exact ⟨.inr ⟨rfl, hnone⟩, ha⟩
    · rintro ⟨hd | hd, had⟩
      · exact .inl ⟨hd, had⟩
      · exact .inr hd
  · simp only [hmem, reduceCtorEq, false_and, or_false]
    exact h.instruction_iff i
  · have hold := (hmem _).mp hi
    simp only [reduceCtorEq, false_and, or_false] at hold
    exact h.bblocks_iff i bbs hold

theorem Records.eraseDataBlock (h : Records P s a users) (db : D) :
    Records P (s.eraseDataBlock P db) a (AddressUsers.eraseDataBlock P users db).2 := by
  have hmem : ∀ x, x ∈ eraseUnique P.less users (.dataBlock db) ↔
      x ∈ users ∧ P.key x ≠ P.key (.dataBlock db) := fun x => mem_eraseUnique less_iff h.sorted
  rw [eraseDataBlock_eq]
  refine ⟨uniqueSorted_eraseUnique less_iff h.sorted, fun d => ?_, fun i => ?_, fun i bbs hi =>
    h.bblocks_iff i bbs ((hmem _).mp hi).1⟩
  · rw [hmem, h.dataBlock_iff, ne_eq, key_dataBlock]
    simp only [Inserted.eraseDataBlock, Set.mem_ofPred_eq]
    tauto
  · refine Iff.trans (exists_congr fun bbs => ?_) (h.instruction_iff i)
    rw [hmem]
    simp [Program.key]

end

end LoomX.AddressUsage
