import LoomX.AddressUsage.Records

namespace LoomX.AddressUsage

/-- A map from addresses, given by intervals, that is exact at every address. -/
structure IntervalMap (V : Type) where
  Map : Type
  empty : Map
  get : Map → Nat → Option V
  insert : Map → Interval → V → Map
  insertMultiple : Map → Map → Map
  erase : Map → Interval → Map
  findAll : Map → Interval → List (Interval × V)
  get_empty : ∀ a, get empty a = none
  get_insert : ∀ m i v a, get (insert m i v) a = if a ∈ i then some v else get m a
  get_insertMultiple : ∀ m n a, get (insertMultiple m n) a = (get n a).or (get m a)
  get_erase : ∀ m i a, get (erase m i) a = if a ∈ i then none else get m a
  get_of_findAll : ∀ m i, ∀ node ∈ findAll m i, ∀ a ∈ node.1, get m a = some node.2
  exists_findAll : ∀ m i a v, a ∈ i → get m a = some v → ∃ node ∈ findAll m i, a ∈ node.1

variable {I B D : Type} (P : Program I B D)

namespace AddressUsageMap

variable (M : IntervalMap (AddressUsers I B D))

def insertInstruction (map : M.Map) (insn : I) (bblock : B) : AddressUser I B D × M.Map :=
  let interval := P.insnExtent insn
  let adjustment := M.insert M.empty interval (AddressUsers.insertInstruction P [] insn bblock).2
  let (retval, adjustment) := (M.findAll map interval).foldl (fun (_, adjustment) node =>
      let (retval, newUsers) := AddressUsers.insertInstruction P node.2 insn bblock
      (retval, M.insert adjustment (interval.intersection node.1) newUsers))
    (.instruction insn [bblock], adjustment)
  (retval, M.insertMultiple map adjustment)

def insertDataBlock (map : M.Map) (db : D) : AddressUser I B D × M.Map :=
  let interval := P.extent db
  let adjustment := M.insert M.empty interval (AddressUsers.insertDataBlock P [] db).2
  let (retval, adjustment) := (M.findAll map interval).foldl (fun (_, adjustment) node =>
      let (retval, newUsers) := AddressUsers.insertDataBlock P node.2 db
      (retval, M.insert adjustment (interval.intersection node.1) newUsers))
    (.dataBlock db, adjustment)
  (retval, M.insertMultiple map adjustment)

def eraseInstruction (map : M.Map) (insn : Option I) (bblock : B) : Option I × M.Map :=
  match insn with
  | none => (none, map)
  | some insn =>
    let interval := P.insnExtent insn
    let (retval, adjustment) := (M.findAll map interval).foldl (fun (_, adjustment) node =>
        let (retval, newUsers) := AddressUsers.eraseInstruction P node.2 insn bblock
        (retval, if newUsers.isEmpty then adjustment
          else M.insert adjustment (interval.intersection node.1) newUsers))
      (none, M.empty)
    (retval, M.insertMultiple (M.erase map interval) adjustment)

def eraseDataBlock (map : M.Map) (db : Option D) : Option D × M.Map :=
  match db with
  | none => (none, map)
  | some db =>
    let interval := P.extent db
    let (retval, adjustment) := (M.findAll map interval).foldl (fun (_, adjustment) node =>
        let (retval, newUsers) := AddressUsers.eraseDataBlock P node.2 db
        (retval, if newUsers.isEmpty then adjustment
          else M.insert adjustment (interval.intersection node.1) newUsers))
      (none, M.empty)
    (retval, M.insertMultiple (M.erase map interval) adjustment)

end AddressUsageMap

section

variable {V R : Type} (M : IntervalMap V)

/-- At an address whose nodes all set one value, the adjustments set it once. -/
theorem get_foldl_adjust {a : Nat} {i : Interval} {c : Option V} {nodes : List (Interval × V)}
    {g : R × M.Map → Interval × V → R × M.Map}
    (hg : ∀ p node, node ∈ nodes → M.get (g p node).2 a =
      if a ∈ i.intersection node.1 then c.or (M.get p.2 a) else M.get p.2 a) (p : R × M.Map) :
    M.get (nodes.foldl g p).2 a =
      if a ∈ i ∧ ∃ node ∈ nodes, a ∈ node.1 then c.or (M.get p.2 a) else M.get p.2 a := by
  induction nodes generalizing p with
  | nil => simp
  | cons first rest ih =>
    rw [List.foldl_cons, ih (fun p node hnode => hg p node (List.mem_cons_of_mem _ hnode)),
      hg p first (by simp)]
    simp only [List.mem_cons, exists_eq_or_imp, Interval.mem_intersection]
    by_cases hi : a ∈ i <;> by_cases hfirst : a ∈ first.1 <;>
      by_cases hrest : ∃ node ∈ rest, a ∈ node.1 <;>
      simp [hi, hfirst, hrest, ← Option.or_assoc]

theorem findAll_iff {m : M.Map} {i : Interval} {a : Nat} (ha : a ∈ i) :
    (∃ node ∈ M.findAll m i, a ∈ node.1) ↔ ∃ v, M.get m a = some v := by
  constructor
  · rintro ⟨node, hnode, hmem⟩
    exact ⟨node.2, M.get_of_findAll m i node hnode a hmem⟩
  · rintro ⟨v, hv⟩
    exact M.exists_findAll m i a v ha hv

/-- What every piece of an interval becomes, where something is recorded. -/
theorem get_foldl_findAll {f : V → Option V} {m : M.Map} {i : Interval} {a : Nat}
    {g : R × M.Map → Interval × V → R × M.Map}
    (hg : ∀ p node, M.get (g p node).2 a =
      if a ∈ i.intersection node.1 then (f node.2).or (M.get p.2 a) else M.get p.2 a)
    (p : R × M.Map) :
    M.get ((M.findAll m i).foldl g p).2 a =
      if a ∈ i then ((M.get m a).bind f).or (M.get p.2 a) else M.get p.2 a := by
  have hconst : ∀ p node, node ∈ M.findAll m i → M.get (g p node).2 a =
      if a ∈ i.intersection node.1 then ((M.get m a).bind f).or (M.get p.2 a)
      else M.get p.2 a := by
    intro p node hnode
    rw [hg]
    by_cases hmem : a ∈ i.intersection node.1
    · rw [if_pos hmem, if_pos hmem,
        M.get_of_findAll m i node hnode a (Interval.mem_intersection.mp hmem).2, Option.bind_some]
    · rw [if_neg hmem, if_neg hmem]
  rw [get_foldl_adjust M hconst p]
  by_cases ha : a ∈ i
  · rw [if_pos ha]
    cases hget : M.get m a with
    | none =>
      have hnone : ¬(a ∈ i ∧ ∃ node ∈ M.findAll m i, a ∈ node.1) := by
        rw [findAll_iff M ha, hget]
        simp
      rw [if_neg hnone]
      rfl
    | some v => rw [if_pos ⟨ha, (findAll_iff M ha).mpr ⟨v, hget⟩⟩]
  · rw [if_neg fun h => ha h.1, if_neg ha]

end

/-- The users recorded at an address, none where the map has nothing. -/
def usersAt (M : IntervalMap (AddressUsers I B D)) (map : M.Map) (a : Nat) : AddressUsers I B D :=
  (M.get map a).getD []

section

variable {P} {M : IntervalMap (AddressUsers I B D)} (map : M.Map)

theorem get_insert_adjust {R : Type} {f : AddressUsers I B D → R × AddressUsers I B D} {r : R}
    {i : Interval} (a : Nat) :
    M.get (M.insertMultiple map ((M.findAll map i).foldl (fun p node => ((f node.2).1,
        M.insert p.2 (i.intersection node.1) (f node.2).2))
      (r, M.insert M.empty i (f []).2)).2) a =
      if a ∈ i then some (f (usersAt M map a)).2 else M.get map a := by
  rw [M.get_insertMultiple, get_foldl_findAll (f := fun users => some (f users).2) M
    (fun p node => by simp [M.get_insert])]
  simp only [M.get_insert, M.get_empty, usersAt]
  by_cases ha : a ∈ i
  · cases M.get map a <;> simp [ha]
  · simp [ha]

theorem get_erase_adjust {R : Type} {f : AddressUsers I B D → R × AddressUsers I B D} {r : R}
    {i : Interval} (hf : (f []).2 = []) (a : Nat) :
    M.get (M.insertMultiple (M.erase map i) ((M.findAll map i).foldl (fun p node => ((f node.2).1,
        if (f node.2).2.isEmpty then p.2 else M.insert p.2 (i.intersection node.1) (f node.2).2))
      (r, M.empty)).2) a =
      if a ∈ i then
        if (f (usersAt M map a)).2 = [] then none else some (f (usersAt M map a)).2
      else M.get map a := by
  rw [M.get_insertMultiple, get_foldl_findAll
    (f := fun users => if (f users).2 = [] then none else some (f users).2) M]
  · simp only [M.get_erase, M.get_empty, usersAt]
    by_cases ha : a ∈ i
    · obtain hget | ⟨users, hget⟩ := Option.eq_none_or_eq_some (M.get map a)
      · simp [ha, hget, hf]
      · simp [ha, hget]
    · simp [ha]
  · intro p node
    by_cases hempty : (f node.2).2 = []
    · simp [hempty]
    · simp [hempty, M.get_insert]

theorem get_insertInstruction (insn : I) (bblock : B) (a : Nat) :
    M.get (AddressUsageMap.insertInstruction P M map insn bblock).2 a =
      if a ∈ P.insnExtent insn then
        some (AddressUsers.insertInstruction P (usersAt M map a) insn bblock).2
      else M.get map a :=
  get_insert_adjust map (f := fun users => AddressUsers.insertInstruction P users insn bblock) a

theorem get_insertDataBlock (db : D) (a : Nat) :
    M.get (AddressUsageMap.insertDataBlock P M map db).2 a =
      if a ∈ P.extent db then some (AddressUsers.insertDataBlock P (usersAt M map a) db).2
      else M.get map a :=
  get_insert_adjust map (f := fun users => AddressUsers.insertDataBlock P users db) a

theorem get_eraseInstruction (insn : I) (bblock : B) (a : Nat) :
    M.get (AddressUsageMap.eraseInstruction P M map (some insn) bblock).2 a =
      if a ∈ P.insnExtent insn then
        if (AddressUsers.eraseInstruction P (usersAt M map a) insn bblock).2 = [] then none
        else some (AddressUsers.eraseInstruction P (usersAt M map a) insn bblock).2
      else M.get map a :=
  get_erase_adjust map (f := fun users => AddressUsers.eraseInstruction P users insn bblock) rfl a

theorem get_eraseDataBlock (db : D) (a : Nat) :
    M.get (AddressUsageMap.eraseDataBlock P M map (some db)).2 a =
      if a ∈ P.extent db then
        if (AddressUsers.eraseDataBlock P (usersAt M map a) db).2 = [] then none
        else some (AddressUsers.eraseDataBlock P (usersAt M map a) db).2
      else M.get map a :=
  get_erase_adjust map (f := fun users => AddressUsers.eraseDataBlock P users db) rfl a

end

inductive Request (I B D : Type) where
  | insertInstruction (insn : I) (bblock : B)
  | eraseInstruction (insn : Option I) (bblock : B)
  | insertDataBlock (db : D)
  | eraseDataBlock (db : Option D)

namespace Request

def apply (P : Program I B D) (M : IntervalMap (AddressUsers I B D)) (map : M.Map) :
    Request I B D → M.Map
  | insertInstruction insn bblock => (AddressUsageMap.insertInstruction P M map insn bblock).2
  | eraseInstruction insn bblock => (AddressUsageMap.eraseInstruction P M map insn bblock).2
  | insertDataBlock db => (AddressUsageMap.insertDataBlock P M map db).2
  | eraseDataBlock db => (AddressUsageMap.eraseDataBlock P M map db).2

def inserted (P : Program I B D) (s : Inserted I B D) : Request I B D → Inserted I B D
  | insertInstruction insn bblock => s.insertInstruction insn bblock
  | eraseInstruction (some insn) bblock => s.eraseInstruction insn bblock
  | insertDataBlock db => s.insertDataBlock P db
  | eraseDataBlock (some db) => s.eraseDataBlock P db
  | _ => s

end Request

def run (P : Program I B D) (M : IntervalMap (AddressUsers I B D)) (requests : List (Request I B D)) :
    M.Map :=
  requests.foldl (Request.apply P M) M.empty

def inserted (P : Program I B D) (requests : List (Request I B D)) : Inserted I B D :=
  requests.foldl (Request.inserted P) ⟨∅, ∅⟩

section

variable {P} {M : IntervalMap (AddressUsers I B D)} {map : M.Map} {s : Inserted I B D} {a : Nat}

/-- The map records what is inserted, and has nothing where there are no users. -/
def Exact (P : Program I B D) (M : IntervalMap (AddressUsers I B D)) (map : M.Map)
    (s : Inserted I B D) (a : Nat) : Prop :=
  Records P s a (usersAt M map a) ∧ M.get map a ≠ some []

theorem Exact.congr (h : Exact P M map s a) {map' : M.Map} (hget : M.get map' a = M.get map a)
    {s' : Inserted I B D} (hd : ∀ d, a ∈ P.extent d → (d ∈ s'.dblocks ↔ d ∈ s.dblocks))
    (hi : ∀ i b, a ∈ P.insnExtent i → ((i, b) ∈ s'.insns ↔ (i, b) ∈ s.insns)) :
    Exact P M map' s' a := by
  refine ⟨?_, hget ▸ h.2⟩
  rw [usersAt, hget]
  exact h.1.congr hd hi

theorem exact_of_insert {users : AddressUsers I B D} {map' : M.Map}
    (hget : M.get map' a = some users) (h : Records P s a users) (hne : users ≠ []) :
    Exact P M map' s a := by
  rw [Exact, usersAt, hget]
  exact ⟨h, by simpa using hne⟩

theorem exact_of_erase {users : AddressUsers I B D} {map' : M.Map}
    (hget : M.get map' a = if users = [] then none else some users) (h : Records P s a users) :
    Exact P M map' s a := by
  rw [Exact, usersAt, hget]
  by_cases hne : users = []
  · simp only [hne, if_true]
    exact ⟨hne ▸ h, by simp⟩
  · simp only [hne, if_false]
    exact ⟨h, by simpa using hne⟩

/-- One request keeps the map exact at every address. -/
theorem exact_apply (hinsn : Function.Injective P.insnAddress)
    (hbblock : Function.Injective P.bblockAddress) (h : Exact P M map s a)
    (request : Request I B D) : Exact P M (request.apply P M map) (request.inserted P s) a := by
  cases request with
  | insertInstruction i b =>
    have hget := get_insertInstruction (P := P) map i b a
    by_cases ha : a ∈ P.insnExtent i
    · rw [if_pos ha] at hget
      have hrec := h.1.insertInstruction hinsn hbblock ha b
      refine exact_of_insert hget hrec ?_
      obtain ⟨bblocks, hmem⟩ := (hrec.instruction_iff i).mpr ⟨ha, b, .inl rfl⟩
      exact List.ne_nil_of_mem hmem
    · rw [if_neg ha] at hget
      refine h.congr hget (fun _ _ => Iff.rfl) fun j b' hj => ?_
      have hji : j ≠ i := fun heq => ha (heq ▸ hj)
      simp [Request.inserted, Inserted.insertInstruction, hji]
  | eraseInstruction i b =>
    cases i with
    | none => exact h
    | some i =>
      have hget := get_eraseInstruction (P := P) map i b a
      by_cases ha : a ∈ P.insnExtent i
      · rw [if_pos ha] at hget
        exact exact_of_erase hget (h.1.eraseInstruction hinsn hbblock ha b)
      · rw [if_neg ha] at hget
        refine h.congr hget (fun _ _ => Iff.rfl) fun j b' hj => ?_
        have hji : j ≠ i := fun heq => ha (heq ▸ hj)
        simp [Request.inserted, Inserted.eraseInstruction, hji]
  | insertDataBlock db =>
    have hget := get_insertDataBlock (P := P) map db a
    by_cases ha : a ∈ P.extent db
    · rw [if_pos ha] at hget
      refine exact_of_insert hget (h.1.insertDataBlock ha) ?_
      rw [insertDataBlock_eq]
      exact insertUnique_ne_nil _ _ _
    · rw [if_neg ha] at hget
      refine h.congr hget (fun d hd => ?_) fun _ _ _ => Iff.rfl
      have hne : d ≠ db := fun heq => ha (heq ▸ hd)
      simp [Request.inserted, Inserted.insertDataBlock, hne]
  | eraseDataBlock db =>
    cases db with
    | none => exact h
    | some db =>
      have hget := get_eraseDataBlock (P := P) map db a
      by_cases ha : a ∈ P.extent db
      · rw [if_pos ha] at hget
        exact exact_of_erase hget (h.1.eraseDataBlock db)
      · rw [if_neg ha] at hget
        refine h.congr hget (fun d hd => ?_) fun _ _ _ => Iff.rfl
        have hne : ¬P.Equivalent d db := fun heq => ha (Equivalent.extent_eq heq ▸ hd)
        simp [Request.inserted, Inserted.eraseDataBlock, hne]

theorem exact_empty : Exact P M M.empty ⟨∅, ∅⟩ a := by
  refine ⟨?_, by simp [M.get_empty]⟩
  rw [usersAt, M.get_empty]
  exact ⟨List.Pairwise.nil, by simp, by simp, by simp⟩

/-- After any requests the map is exact at every address. -/
theorem run_exact (hinsn : Function.Injective P.insnAddress)
    (hbblock : Function.Injective P.bblockAddress) (requests : List (Request I B D)) (a : Nat) :
    Records P (inserted P requests) a (usersAt M (run P M requests) a) ∧
      M.get (run P M requests) a ≠ some [] := by
  have hrun : ∀ map s, Exact P M map s a →
      Exact P M (requests.foldl (Request.apply P M) map) (requests.foldl (Request.inserted P) s)
        a := by
    induction requests with
    | nil => exact fun map s h => h
    | cons request rest ih => exact fun map s h => ih _ _ (exact_apply hinsn hbblock h request)
  exact hrun _ _ exact_empty

end

/-- The pieces of an interval recorded one address at a time. -/
def pointMap (V : Type) : IntervalMap V where
  Map := List (Nat × V)
  empty := []
  get m a := (m.find? fun p => p.1 = a).map Prod.snd
  insert m i v := (List.range' i.lo (i.hi + 1 - i.lo)).map (·, v) ++ m
  insertMultiple m n := n ++ m
  erase m i := m.filter fun p => p.1 ∉ i
  findAll m i := m.filterMap fun p =>
    if p.1 ∈ i then (m.find? fun q => q.1 = p.1).map fun q => (⟨p.1, p.1⟩, q.2) else none
  get_empty _ := rfl
  get_insert m i v a := by
    rw [List.find?_append, List.find?_map]
    by_cases ha : a ∈ i
    · have hmem : a ∈ List.range' i.lo (i.hi + 1 - i.lo) := by
        rw [Interval.mem_iff] at ha
        rw [List.mem_range'_1]
        omega
      have hfind : (List.range' i.lo (i.hi + 1 - i.lo)).find? ((fun p => decide (p.1 = a)) ∘ (·, v)) =
          some a := by
        cases hfind : (List.range' i.lo (i.hi + 1 - i.lo)).find?
            ((fun p => decide (p.1 = a)) ∘ (·, v)) with
        | none =>
          have hnone := List.find?_eq_none.mp hfind a hmem
          simp at hnone
        | some b =>
          have hba : b = a := by simpa using List.find?_some hfind
          rw [hba]
      rw [hfind, if_pos ha]
      rfl
    · have hfind : (List.range' i.lo (i.hi + 1 - i.lo)).find? ((fun p => decide (p.1 = a)) ∘ (·, v)) =
          none := by
        refine List.find?_eq_none.mpr fun b hb => ?_
        rw [List.mem_range'_1] at hb
        have hne : b ≠ a := by
          rintro rfl
          exact ha ⟨hb.1, by omega⟩
        simpa using hne
      rw [hfind, if_neg ha]
      rfl
  get_insertMultiple m n a := by
    rw [List.find?_append]
    cases n.find? fun p => p.1 = a <;> rfl
  get_erase m i a := by
    rw [List.find?_filter]
    by_cases ha : a ∈ i
    · rw [if_pos ha, List.find?_eq_none.mpr]
      · rfl
      · intro p hp
        simp only [decide_not, Bool.not_eq_true', decide_eq_false_iff_not, decide_eq_true_eq, not_and]
        rintro hout rfl
        exact hout ha
    · rw [if_neg ha]
      refine congrArg (Option.map Prod.snd) (List.find?_congr fun p hp => ?_)
      by_cases hpa : p.1 = a
      · simp [hpa, ha]
      · simp [hpa]
  get_of_findAll m i node hnode a ha := by
    obtain ⟨p, hp, hnode⟩ := List.mem_filterMap.mp hnode
    split at hnode
    next =>
      obtain ⟨q, hq, rfl⟩ := Option.map_eq_some_iff.mp hnode
      have hpa : p.1 = a := le_antisymm ha.1 ha.2
      rw [← hpa, hq]
      rfl
    next => simp at hnode
  exists_findAll m i a v ha hv := by
    obtain ⟨q, hq, rfl⟩ := Option.map_eq_some_iff.mp hv
    have hqa : q.1 = a := by simpa using List.find?_some hq
    refine ⟨(⟨a, a⟩, q.2), List.mem_filterMap.mpr ⟨q, List.mem_of_find?_eq_some hq, ?_⟩, le_rfl, le_rfl⟩
    rw [hqa, if_pos ha, hq]
    rfl

/-- Instructions and blocks at their own addresses, two bytes each. -/
def numbered : Program Nat Nat Nat where
  insnAddress i := i
  insnSize _ := 2
  bblockAddress b := b
  dblockAddress d := d
  dblockSize _ := 2

theorem run_exact_numbered :
    Records numbered
      (inserted numbered [.insertInstruction 0 0, .insertInstruction 1 0, .insertDataBlock 1,
        .eraseInstruction (some 0) 0])
      1 (usersAt (pointMap _) (run numbered (pointMap _) [.insertInstruction 0 0,
        .insertInstruction 1 0, .insertDataBlock 1, .eraseInstruction (some 0) 0]) 1) ∧
      (pointMap _).get (run numbered (pointMap _) [.insertInstruction 0 0,
        .insertInstruction 1 0, .insertDataBlock 1, .eraseInstruction (some 0) 0]) 1 ≠ some [] :=
  run_exact (fun _ _ h => h) (fun _ _ h => h) _ 1

/-- One of two data blocks with the same extent is not listed. -/
theorem equivalentBlocks_listedOnce :
    ¬Records (⟨id, fun _ => 1, id, fun _ => 0, fun _ => 1⟩ : Program Nat Nat Bool)
      ⟨∅, {false, true}⟩ 0
      (usersAt (pointMap _) (run ⟨id, fun _ => 1, id, fun _ => 0, fun _ => 1⟩ (pointMap _)
        [.insertDataBlock false, .insertDataBlock true]) 0) := by
  intro h
  have hmem := (h.dataBlock_iff true).mpr ⟨by simp, by decide⟩
  have hlist : usersAt (pointMap _) (run (⟨id, fun _ => 1, id, fun _ => 0, fun _ => 1⟩ :
      Program Nat Nat Bool) (pointMap _) [.insertDataBlock false, .insertDataBlock true]) 0 =
      [.dataBlock false] := rfl
  rw [hlist] at hmem
  simp at hmem

end LoomX.AddressUsage
