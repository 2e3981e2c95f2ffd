import LoomX.IntervalSet

namespace LoomX

namespace IntervalMap

variable {V : Type}

/-- Nonempty intervals by increasing ends, none of which share a number. -/
structure Ordered (nodes : List (Interval × V)) : Prop where
  nonempty : ∀ x ∈ nodes, x.1.lo ≤ x.1.hi
  sorted : nodes.Pairwise fun x y => x.1.hi < y.1.lo

def Apart (i j : Interval) : Prop := i.hi < j.lo ∨ j.hi < i.lo

/-- The node from `lowerBound`, unless it begins above. -/
def find (scalar : Nat) : List (Interval × V) → Option (Interval × V)
  | [] => none
  | node :: rest =>
    if node.1.hi < scalar then find scalar rest
    else if scalar < node.1.lo then none
    else some node

/-- Insertion into the underlying map, which compares nodes by their ends. -/
def insertNode (key : Interval) (value : V) : List (Interval × V) → List (Interval × V)
  | [] => [(key, value)]
  | node :: rest =>
    if node.1.hi < key.hi then node :: insertNode key value rest
    else if key.hi < node.1.hi then (key, value) :: node :: rest
    else (node.1, value) :: rest

def splitInterval (i : Interval) (splitPoint : Nat) : Interval × Interval :=
  (.hull i.lo (splitPoint - 1), .hull splitPoint i.hi)

/-- What is inserted back in for a node that an erasure overlaps, in the order of the map. -/
def insertions (erasure : Interval) (node : Interval × V) : List (Interval × V) :=
  let foundInterval := node.1
  let v := node.2
  if erasure.lo ≤ foundInterval.lo ∧ foundInterval.hi ≤ erasure.hi then []
  else if foundInterval.lo < erasure.lo ∧ erasure.hi < foundInterval.hi then
    let rt := splitInterval foundInterval (erasure.hi + 1)
    let lt := splitInterval rt.1 erasure.lo
    [(lt.1, v), (rt.2, v)]
  else if foundInterval.lo < erasure.lo then [((splitInterval foundInterval erasure.lo).1, v)]
  else if erasure.hi < foundInterval.hi then
    [((splitInterval foundInterval (erasure.hi + 1)).2, v)]
  else []

/-- The nodes up to `lowerBound`, those of the loop, and those that the erasure is left of. -/
def eraseNodes (erasure : Interval) : List (Interval × V) → List (Interval × V)
  | [] => []
  | node :: rest =>
    if node.1.hi < erasure.lo then node :: eraseNodes erasure rest
    else if erasure.hi < node.1.lo then node :: rest
    else insertions erasure node ++ eraseNodes erasure rest

variable [DecidableEq V]

/-- A node with an equal value on the left. The ends are unsigned: zero less one is not less. -/
def leftAdjoining (nodes : List (Interval × V)) (key : Interval) (value : V) :
    Option (Interval × V) :=
  if 0 < key.lo then
    (find (key.lo - 1) nodes).filter fun left => left.1.hi + 1 = key.lo ∧ left.2 = value
  else none

def rightAdjoining (max : Nat) (nodes : List (Interval × V)) (key : Interval) (value : V) :
    Option (Interval × V) :=
  if key.hi < max then
    (find (key.hi + 1) nodes).filter fun right => key.hi + 1 = right.1.lo ∧ right.2 = value
  else none

/-- The adjoining node is erased, and the key becomes the hull of both. -/
def merge (nodes : List (Interval × V)) (key : Interval) :
    Option (Interval × V) → List (Interval × V) × Interval
  | none => (nodes, key)
  | some node => (nodes.erase node, ⟨min node.1.lo key.lo, max node.1.hi key.hi⟩)

/-- Insertion where there is a hole, for ends that are at most `max`. -/
def insertMerged (max : Nat) (nodes : List (Interval × V)) (key : Interval) (value : V) :
    List (Interval × V) :=
  let left := merge nodes key (leftAdjoining nodes key value)
  let right := merge left.1 left.2 (rightAdjoining max left.1 left.2 value)
  insertNode right.2 value right.1

section

omit [DecidableEq V]
variable {nodes : List (Interval × V)} {x y : Interval × V} {key e : Interval}
  {value v : V} {a : Nat}

theorem Ordered.apart (h : Ordered nodes) (hx : x ∈ nodes) (hy : y ∈ nodes) (hne : x ≠ y) :
    Apart x.1 y.1 := by
  have hsymm : Std.Symm fun x y : Interval × V => Apart x.1 y.1 := ⟨fun _ _ => Or.symm⟩
  have hapart : nodes.Pairwise fun x y => Apart x.1 y.1 := h.sorted.imp Or.inl
  exact hapart.forall hx hy hne

theorem Ordered.nodup (h : Ordered nodes) : nodes.Nodup := by
  refine h.sorted.imp_of_mem ?_
  rintro x _ hx _ hlt rfl
  exact Nat.not_lt.mpr (h.nonempty x hx) hlt

theorem Ordered.cons_iff : Ordered (x :: nodes) ↔
    x.1.lo ≤ x.1.hi ∧ (∀ y ∈ nodes, x.1.hi < y.1.lo) ∧ Ordered nodes := by
  constructor
  · rintro ⟨hnonempty, hsorted⟩
    rw [List.forall_mem_cons] at hnonempty
    rw [List.pairwise_cons] at hsorted
    exact ⟨hnonempty.1, hsorted.1, hnonempty.2, hsorted.2⟩
  · rintro ⟨hx, hlt, hnonempty, hsorted⟩
    exact ⟨List.forall_mem_cons.mpr ⟨hx, hnonempty⟩, List.pairwise_cons.mpr ⟨hlt, hsorted⟩⟩

theorem Ordered.find_iff (h : Ordered nodes) : find a nodes = some x ↔ x ∈ nodes ∧ a ∈ x.1 := by
  induction nodes with
  | nil => simp [find]
  | cons node rest ih =>
    obtain ⟨hle, hlt, hrest⟩ := cons_iff.mp h
    have hxlt : x ∈ rest → node.1.hi < x.1.lo := hlt x
    rw [find, List.mem_cons, Interval.mem_iff]
    split
    next => rw [ih hrest, Interval.mem_iff]; grind
    next =>
      split
      next => simp only [reduceCtorEq, false_iff]; grind
      next => rw [Option.some.injEq]; grind

theorem Ordered.insertNode (h : Ordered nodes) (value : V) (hkey : key.lo ≤ key.hi)
    (hapart : ∀ x ∈ nodes, Apart x.1 key) : Ordered (insertNode key value nodes) ∧
      ∀ x, x ∈ IntervalMap.insertNode key value nodes ↔ x = (key, value) ∨ x ∈ nodes := by
  induction nodes with
  | nil => simpa [IntervalMap.insertNode, cons_iff] using ⟨hkey, h⟩
  | cons node rest ih =>
    obtain ⟨hle, hlt, hrest⟩ := cons_iff.mp h
    obtain ⟨hnode, hapart⟩ := List.forall_mem_cons.mp hapart
    obtain ⟨hordered, hmem⟩ := ih hrest hapart
    unfold Apart at hnode
    rw [IntervalMap.insertNode]
    split
    next =>
      refine ⟨cons_iff.mpr ⟨hle, fun y hy => ?_, hordered⟩, fun x => ?_⟩
      · rcases (hmem y).mp hy with rfl | hy
        · show node.1.hi < key.lo
          omega
        · exact hlt y hy
      · rw [List.mem_cons, hmem, List.mem_cons, or_left_comm]
    next =>
      split
      next =>
        refine ⟨cons_iff.mpr ⟨hkey, fun y hy => ?_, h⟩, fun x => List.mem_cons⟩
        show key.hi < y.1.lo
        rcases List.mem_cons.mp hy with rfl | hy
        · omega
        · have := hlt y hy
          omega
      next => omega

theorem mem_insertions (he : e.lo ≤ e.hi) : x ∈ insertions e y ↔
    (y.1.lo < e.lo ∧ x = (⟨y.1.lo, e.lo - 1⟩, y.2)) ∨
      (e.hi < y.1.hi ∧ x = (⟨e.hi + 1, y.1.hi⟩, y.2)) := by
  obtain ⟨⟨lo, hi⟩, v⟩ := y
  simp only [insertions, splitInterval, Interval.hull]
  grind

/-- What is left of a node by an erasure. -/
def Remains (e : Interval) (y x : Interval × V) : Prop :=
  (Apart y.1 e ∧ x = y) ∨ (¬Apart y.1 e ∧ x ∈ insertions e y)

theorem Remains.spec (he : e.lo ≤ e.hi) (hy : y.1.lo ≤ y.1.hi) (h : Remains e y x) :
    x.2 = y.2 ∧ x.1.lo ≤ x.1.hi ∧ Apart x.1 e ∧
      (x.1.lo = y.1.lo ∨ y.1.lo < x.1.lo ∧ x.1.lo = e.hi + 1) ∧
      (x.1.hi = y.1.hi ∨ x.1.hi < y.1.hi ∧ x.1.hi + 1 = e.lo) := by
  unfold Remains at h
  rw [mem_insertions he] at h
  unfold Apart at h ⊢
  grind

theorem exists_remains (he : e.lo ≤ e.hi) (ha : a ∈ y.1) (hae : a ∉ e) :
    ∃ x, Remains e y x ∧ a ∈ x.1 := by
  by_cases hapart : Apart y.1 e
  · exact ⟨y, .inl ⟨hapart, rfl⟩, ha⟩
  · simp only [Remains, mem_insertions he]
    rw [Interval.mem_iff] at ha hae
    by_cases hlow : a < e.lo
    · exact ⟨_, .inr ⟨hapart, .inl ⟨by omega, rfl⟩⟩, ha.1, Nat.le_sub_one_of_lt hlow⟩
    · exact ⟨_, .inr ⟨hapart, .inr ⟨by omega, rfl⟩⟩, by show e.hi + 1 ≤ a; omega, ha.2⟩

theorem remains_of_apart (h : Apart y.1 e) : Remains e y x ↔ x = y := by simp [Remains, h]

theorem ordered_insertions (he : e.lo ≤ e.hi) (hover : ¬Apart y.1 e) (hy : y.1.lo ≤ y.1.hi) :
    Ordered (insertions e y) := by
  refine ⟨fun x hx => (Remains.spec he hy (.inr ⟨hover, hx⟩)).2.1, ?_⟩
  simp only [insertions, splitInterval, Interval.hull]
  split_ifs <;> simp
  omega

theorem Ordered.eraseNodes (he : e.lo ≤ e.hi) (h : Ordered nodes) : Ordered (eraseNodes e nodes) ∧
    ∀ x, x ∈ IntervalMap.eraseNodes e nodes ↔ ∃ y ∈ nodes, Remains e y x := by
  induction nodes with
  | nil => simpa [IntervalMap.eraseNodes] using h
  | cons node rest ih =>
    obtain ⟨hle, hlt, hrest⟩ := cons_iff.mp h
    obtain ⟨hordered, hmem⟩ := ih hrest
    have habove : ∀ x ∈ IntervalMap.eraseNodes e rest, node.1.hi < x.1.lo := by
      intro x hx
      obtain ⟨y, hy, hremains⟩ := (hmem x).mp hx
      have hlo := (hremains.spec he (hrest.nonempty y hy)).2.2.2.1
      have := hlt y hy
      omega
    rw [IntervalMap.eraseNodes]
    simp only [List.exists_mem_cons_iff]
    split
    next hbelow =>
      refine ⟨cons_iff.mpr ⟨hle, habove, hordered⟩, fun x => ?_⟩
      rw [List.mem_cons, hmem, remains_of_apart (.inl hbelow)]
    next =>
      split
      next hleft =>
        have hall : ∀ y ∈ rest, Apart y.1 e := fun y hy => .inr (by have := hlt y hy; omega)
        refine ⟨h, fun x => ?_⟩
        rw [List.mem_cons, remains_of_apart (.inr hleft)]
        refine or_congr_right ⟨fun hx => ⟨x, hx, (remains_of_apart (hall x hx)).mpr rfl⟩, ?_⟩
        rintro ⟨y, hy, hremains⟩
        exact (remains_of_apart (hall y hy)).mp hremains ▸ hy
      next =>
        have hover : ¬Apart node.1 e := by
          unfold Apart
          omega
        have hnode : ∀ x, x ∈ insertions e node ↔ Remains e node x := by simp [Remains, hover]
        have hparts := ordered_insertions he hover hle
        refine ⟨⟨fun x hx => ?_, List.pairwise_append.mpr ⟨hparts.sorted, hordered.sorted, ?_⟩⟩,
          fun x => by rw [List.mem_append, hnode, hmem]⟩
        · exact (List.mem_append.mp hx).elim (hparts.nonempty x) (hordered.nonempty x)
        · intro x hx y hy
          have hhi := (((hnode x).mp hx).spec he hle).2.2.2.2
          have := habove y hy
          omega

/-- The node of a number gives it its value. -/
def Maps (nodes : List (Interval × V)) (a : Nat) (v : V) : Prop := ∃ x ∈ nodes, a ∈ x.1 ∧ v = x.2

/-- Nodes that adjoin have different values. -/
def Maximal (nodes : List (Interval × V)) : Prop :=
  ∀ x ∈ nodes, ∀ y ∈ nodes, x.1.hi + 1 = y.1.lo → x.2 ≠ y.2

theorem maps_eraseNodes (he : e.lo ≤ e.hi) (h : Ordered nodes) :
    Maps (eraseNodes e nodes) a v ↔ Maps nodes a v ∧ a ∉ e := by
  simp only [Maps, (h.eraseNodes he).2]
  constructor
  · rintro ⟨x, ⟨y, hy, hremains⟩, ha, rfl⟩
    obtain ⟨hvalue, _, hapart, hlo, hhi⟩ := hremains.spec he (h.nonempty y hy)
    rw [Interval.mem_iff] at ha
    unfold Apart at hapart
    exact ⟨⟨y, hy, by rw [Interval.mem_iff]; omega, hvalue⟩, by rw [Interval.mem_iff]; omega⟩
  · rintro ⟨⟨y, hy, ha, rfl⟩, hae⟩
    obtain ⟨x, hremains, hax⟩ := exists_remains he ha hae
    exact ⟨x, ⟨y, hy, hremains⟩, hax, (hremains.spec he (h.nonempty y hy)).1.symm⟩

theorem Maximal.eraseNodes (he : e.lo ≤ e.hi) (h : Ordered nodes) (hmax : Maximal nodes) :
    Maximal (eraseNodes e nodes) := by
  intro x hx y hy hadjoin
  rw [(h.eraseNodes he).2] at hx hy
  obtain ⟨x', hx', hxremains⟩ := hx
  obtain ⟨y', hy', hyremains⟩ := hy
  have hx := hxremains.spec he (h.nonempty x' hx')
  have hy := hyremains.spec he (h.nonempty y' hy')
  unfold Apart at hx hy
  rw [hx.1, hy.1]
  exact hmax x' hx' y' hy' (by omega)

/-- Nodes with room for a key. -/
structure Room (nodes : List (Interval × V)) (key : Interval) : Prop where
  ordered : Ordered nodes
  nonempty : key.lo ≤ key.hi
  apart : ∀ x ∈ nodes, Apart x.1 key

/-- What a merge of a key with a node that adjoins it keeps. -/
structure Merged (value : V) (nodes : List (Interval × V)) (key : Interval)
    (merged : List (Interval × V) × Interval) : Prop where
  room : Room merged.1 merged.2
  maps : ∀ a v, (Maps merged.1 a v ∨ a ∈ merged.2 ∧ v = value) ↔
    Maps nodes a v ∨ a ∈ key ∧ v = value
  subset : ∀ x ∈ merged.1, x ∈ nodes

end

section

variable {max : Nat} {nodes : List (Interval × V)} {x : Interval × V} {key : Interval} {value : V}
  {merged : List (Interval × V) × Interval}

theorem Room.leftAdjoining_iff (h : Room nodes key) : leftAdjoining nodes key value = some x ↔
    x ∈ nodes ∧ x.1.hi + 1 = key.lo ∧ x.2 = value := by
  have hle := h.ordered.nonempty x
  unfold leftAdjoining
  split
  next =>
    rw [Option.filter_eq_some_iff, h.ordered.find_iff, decide_eq_true_eq, Interval.mem_iff]
    grind
  next => grind

theorem Room.rightAdjoining_iff (h : Room nodes key) : rightAdjoining max nodes key value = some x ↔
    key.hi < max ∧ x ∈ nodes ∧ key.hi + 1 = x.1.lo ∧ x.2 = value := by
  have hle := h.ordered.nonempty x
  unfold rightAdjoining
  split
  next =>
    rw [Option.filter_eq_some_iff, h.ordered.find_iff, decide_eq_true_eq, Interval.mem_iff]
    grind
  next => grind

theorem Room.merge (h : Room nodes key) {node : Option (Interval × V)}
    (hnode : ∀ x, node = some x →
      x ∈ nodes ∧ (x.1.hi + 1 = key.lo ∨ key.hi + 1 = x.1.lo) ∧ x.2 = value) :
    Merged value nodes key (merge nodes key node) := by
  cases node with
  | none => exact ⟨h, fun _ _ => Iff.rfl, fun _ hx => hx⟩
  | some x =>
    obtain ⟨hx, hadjoin, rfl⟩ := hnode x rfl
    have hmem : ∀ y, y ∈ nodes ↔ y = x ∨ y ∈ nodes.erase x := fun y =>
      (List.perm_cons_erase hx).mem_iff.trans List.mem_cons
    have hxle := h.ordered.nonempty x hx
    have hkey := h.nonempty
    refine ⟨⟨⟨fun y hy => h.ordered.nonempty y (List.mem_of_mem_erase hy),
      h.ordered.sorted.sublist List.erase_sublist⟩, ?_, fun y hy => ?_⟩, fun a v => ?_,
      fun y hy => (hmem y).mpr (.inr hy)⟩
    · simp only [IntervalMap.merge]
      omega
    · obtain ⟨hne, hy⟩ := h.ordered.nodup.mem_erase_iff.mp hy
      have hyx := h.ordered.apart hy hx hne
      have hykey := h.apart y hy
      have hyle := h.ordered.nonempty y hy
      unfold Apart IntervalMap.merge at *
      dsimp only
      omega
    · have hunion : a ∈ (IntervalMap.merge nodes key (some x)).2 ↔ a ∈ x.1 ∨ a ∈ key := by
        simp only [IntervalMap.merge, Interval.mem_iff]
        omega
      rw [hunion]
      simp only [Maps, hmem, IntervalMap.merge, exists_eq_or_imp]
      rw [or_and_right, ← or_assoc]
      exact or_congr_left or_comm

/-- After the first merge no node adjoins the key on the left and has its value. -/
theorem Room.mergeLeft (h : Room nodes key)
    (hmerged : IntervalMap.merge nodes key (leftAdjoining nodes key value) = merged) :
    Merged value nodes key merged ∧ (Maximal nodes →
      ∀ x ∈ merged.1, x.1.hi + 1 = merged.2.lo → x.2 ≠ value) := by
  subst hmerged
  refine ⟨h.merge fun x hx => ?_, fun hmax x hx hadjoin hvalue => ?_⟩
  · obtain ⟨hx, hadjoin, hvalue⟩ := h.leftAdjoining_iff.mp hx
    exact ⟨hx, .inl hadjoin, hvalue⟩
  · cases hnode : leftAdjoining nodes key value with
    | none =>
      rw [hnode] at hx hadjoin
      rw [h.leftAdjoining_iff.mpr ⟨hx, hadjoin, hvalue⟩] at hnode
      cases hnode
    | some y =>
      rw [hnode] at hx hadjoin
      obtain ⟨hy, hyadjoin, rfl⟩ := h.leftAdjoining_iff.mp hnode
      have hle := h.ordered.nonempty y hy
      simp only [IntervalMap.merge] at hx hadjoin
      exact hmax x (List.mem_of_mem_erase hx) y hy (by omega) hvalue

theorem Room.mergeRight (h : Room nodes key)
    (hmerged : IntervalMap.merge nodes key (rightAdjoining max nodes key value) = merged) :
    Merged value nodes key merged ∧ merged.2.lo = key.lo ∧
      (Maximal nodes → (∀ x ∈ nodes, x.1.hi ≤ max) →
        ∀ x ∈ merged.1, merged.2.hi + 1 = x.1.lo → value ≠ x.2) := by
  have hkey := h.nonempty
  subst hmerged
  refine ⟨h.merge fun x hx => ?_, ?_⟩
  · obtain ⟨_, hx, hadjoin, hvalue⟩ := h.rightAdjoining_iff.mp hx
    exact ⟨hx, .inr hadjoin, hvalue⟩
  · cases hnode : rightAdjoining max nodes key value with
    | none =>
      refine ⟨rfl, fun _ hwithin x hx hadjoin hvalue => ?_⟩
      have hle := (h.ordered.nonempty x hx).trans (hwithin x hx)
      have hlt : key.hi < max := Nat.lt_of_succ_le (hadjoin.trans_le hle)
      rw [h.rightAdjoining_iff.mpr ⟨hlt, hx, hadjoin, hvalue.symm⟩] at hnode
      cases hnode
    | some y =>
      obtain ⟨_, hy, hyadjoin, rfl⟩ := h.rightAdjoining_iff.mp hnode
      have hle := h.ordered.nonempty y hy
      simp only [IntervalMap.merge]
      refine ⟨by omega, fun hmax _ x hx hadjoin hvalue => ?_⟩
      exact hmax y hy x (List.mem_of_mem_erase hx) (by omega) hvalue

/-- A node is inserted, put together with those that adjoin it and have its value. -/
theorem insertMerged_spec (max : Nat) (value : V) (h : Room nodes key) :
    Ordered (insertMerged max nodes key value) ∧
      (∀ a v, Maps (insertMerged max nodes key value) a v ↔
        Maps nodes a v ∨ a ∈ key ∧ v = value) ∧
      (Maximal nodes → (∀ x ∈ nodes, x.1.hi ≤ max) →
        Maximal (insertMerged max nodes key value)) := by
  simp only [insertMerged]
  generalize hl : merge nodes key (leftAdjoining nodes key value) = left
  obtain ⟨hleft, hfirst⟩ := h.mergeLeft hl
  generalize hr : merge left.1 left.2 (rightAdjoining max left.1 left.2 value) = right
  obtain ⟨hright, hlo, hlast⟩ := hleft.room.mergeRight hr
  obtain ⟨hordered, hmem⟩ := hright.room.ordered.insertNode value hright.room.nonempty
    hright.room.apart
  refine ⟨hordered, fun a v => ?_, fun hmax hwithin x hx y hy hadjoin => ?_⟩
  · rw [← hleft.maps, ← hright.maps]
    simp only [Maps, hmem, exists_eq_or_imp]
    exact or_comm
  · have hmax' : Maximal left.1 := fun x hx y hy =>
      hmax x (hleft.subset x hx) y (hleft.subset y hy)
    rw [hmem] at hx hy
    rcases hx with rfl | hx <;> rcases hy with rfl | hy
    · have hle := hright.room.nonempty
      simp only at hadjoin
      omega
    · exact hlast hmax' (fun x hx => hwithin x (hleft.subset x hx)) y hy hadjoin
    · exact hfirst hmax x (hright.subset x hx) (hlo ▸ hadjoin)
    · exact hmax' x (hright.subset x hx) y (hright.subset y hy) hadjoin

end

end IntervalMap

/-- Nodes by increasing intervals, without the number of values that the source keeps as well. -/
structure IntervalMap (V : Type) where
  nodes : List (Interval × V)
  ordered : IntervalMap.Ordered nodes

namespace IntervalMap

variable {V : Type}

def empty : IntervalMap V := ⟨[], by simp, .nil⟩

def getOptional (m : IntervalMap V) (scalar : Nat) : Option V := (find scalar m.nodes).map (·.2)

theorem nonempty_of_not {i : Interval} (h : ¬i.isEmpty = true) : i.lo ≤ i.hi := by
  simpa [Interval.isEmpty] using h

theorem not_mem_of_isEmpty {i : Interval} {a : Nat} (h : i.isEmpty = true) : a ∉ i := by
  rw [Interval.isEmpty, decide_eq_true_eq] at h
  rw [Interval.mem_iff]
  omega

def erase (m : IntervalMap V) (erasure : Interval) : IntervalMap V :=
  if h : erasure.isEmpty then m
  else ⟨eraseNodes erasure m.nodes, (m.ordered.eraseNodes (nonempty_of_not h)).1⟩

theorem Ordered.room {nodes : List (Interval × V)} {key : Interval} (h : Ordered nodes)
    (hkey : key.lo ≤ key.hi) : Room (IntervalMap.eraseNodes key nodes) key where
  ordered := (h.eraseNodes hkey).1
  nonempty := hkey
  apart := by
    intro x hx
    obtain ⟨y, hy, hremains⟩ := ((h.eraseNodes hkey).2 x).mp hx
    exact (hremains.spec hkey (h.nonempty y hy)).2.2.1

variable [DecidableEq V]

/-- Insertion that makes a hole first, as is the default. -/
def insert (max : Nat) (m : IntervalMap V) (key : Interval) (value : V) : IntervalMap V :=
  if h : key.isEmpty then m
  else ⟨insertMerged max (eraseNodes key m.nodes) key value,
    (insertMerged_spec max value (m.ordered.room (nonempty_of_not h))).1⟩

inductive Update (V : Type)
  | insert (key : Interval) (value : V)
  | erase (erasure : Interval)

namespace Update

def apply (max : Nat) (m : IntervalMap V) : Update V → IntervalMap V
  | insert key value => m.insert max key value
  | erase erasure => m.erase erasure

/-- What an update does to the values of the numbers. -/
def on (f : Nat → Option V) : Update V → Nat → Option V
  | insert key value => fun a => if a ∈ key then some value else f a
  | erase erasure => fun a => if a ∈ erasure then none else f a

/-- Keys have ends of the type of the map. -/
def Within (max : Nat) : Update V → Prop
  | insert key _ => key.hi ≤ max
  | erase _ => True

end Update

def run (max : Nat) (updates : List (Update V)) : IntervalMap V :=
  updates.foldl (Update.apply max) empty

section

omit [DecidableEq V] in
theorem maps_iff (m : IntervalMap V) {a : Nat} {v : V} :
    m.getOptional a = some v ↔ Maps m.nodes a v := by
  simp [getOptional, m.ordered.find_iff, Maps, and_assoc, eq_comm]

variable {max : Nat} {m : IntervalMap V}

theorem getOptional_apply (max : Nat) (m : IntervalMap V) (u : Update V) :
    (u.apply max m).getOptional = u.on m.getOptional := by
  funext a
  refine Option.ext fun v => ?_
  rw [maps_iff]
  cases u with
  | insert key value =>
    simp only [Update.apply, insert, Update.on]
    split
    next hempty => rw [if_neg (not_mem_of_isEmpty hempty), maps_iff]
    next h =>
      have hkey := nonempty_of_not h
      rw [(insertMerged_spec max value (m.ordered.room hkey)).2.1, maps_eraseNodes hkey m.ordered,
        ← maps_iff]
      split <;> simp [*, eq_comm]
  | erase erasure =>
    simp only [Update.apply, erase, Update.on]
    split
    next hempty => rw [if_neg (not_mem_of_isEmpty hempty), maps_iff]
    next h =>
      rw [maps_eraseNodes (nonempty_of_not h) m.ordered, ← maps_iff]
      split <;> simp [*]

/-- Adjoining nodes differ, and no end is greater than the type allows. -/
structure Canonical (max : Nat) (nodes : List (Interval × V)) : Prop where
  maximal : Maximal nodes
  within : ∀ a v, Maps nodes a v → a ≤ max

theorem Canonical.apply (h : Canonical max m.nodes) {u : Update V} (hu : u.Within max) :
    Canonical max (u.apply max m).nodes := by
  have hwithin : ∀ a v, Maps (u.apply max m).nodes a v → a ≤ max := by
    intro a v
    have hkept := h.within a v
    rw [← maps_iff] at hkept
    rw [← maps_iff, getOptional_apply]
    cases u with
    | insert key value =>
      simp only [Update.on]
      split
      next ha => exact fun _ => ha.2.trans hu
      next => exact hkept
    | erase erasure =>
      simp only [Update.on]
      split
      next => simp
      next => exact hkept
  refine ⟨?_, hwithin⟩
  cases u with
  | insert key value =>
    simp only [Update.apply, insert]
    split
    next => exact h.maximal
    next hkey =>
      have hkey := nonempty_of_not hkey
      refine (insertMerged_spec max value (m.ordered.room hkey)).2.2
        (h.maximal.eraseNodes hkey m.ordered) fun x hx => ?_
      have hle := (m.ordered.eraseNodes hkey).1.nonempty x hx
      exact h.within _ x.2 ((maps_eraseNodes hkey m.ordered).mp ⟨x, hx, ⟨hle, le_rfl⟩, rfl⟩).1
  | erase erasure =>
    simp only [Update.apply, erase]
    split
    next => exact h.maximal
    next he => exact h.maximal.eraseNodes (nonempty_of_not he) m.ordered

omit [DecidableEq V] in
/-- A node has the value of its neighbours' numbers nowhere. -/
theorem Ordered.not_maps {nodes : List (Interval × V)} {x : Interval × V} (h : Ordered nodes)
    (hmax : Maximal nodes) (hx : x ∈ nodes) : ¬Maps nodes (x.1.hi + 1) x.2 ∧
      (0 < x.1.lo → ¬Maps nodes (x.1.lo - 1) x.2) := by
  have hle := h.nonempty x hx
  refine ⟨?_, fun hpos => ?_⟩ <;> rintro ⟨y, hy, ha, heq⟩ <;> rw [Interval.mem_iff] at ha
  all_goals
    have hapart := h.apart hx hy (by rintro rfl; omega)
    unfold Apart at hapart
  · exact hmax x hx y hy (by omega) heq
  · exact hmax y hy x hx (by omega) heq.symm

omit [DecidableEq V] in
theorem mem_of_maps {l l' : List (Interval × V)} {x : Interval × V} (h : Ordered l)
    (hmax : Maximal l) (h' : Ordered l') (hmax' : Maximal l')
    (heq : ∀ a v, Maps l a v ↔ Maps l' a v) (hx : x ∈ l) : x ∈ l' := by
  have hle := h.nonempty x hx
  obtain ⟨y, hy, ha, hvalue⟩ := (heq x.1.lo x.2).mp ⟨x, hx, ⟨le_rfl, hle⟩, rfl⟩
  obtain ⟨hsucc, hpred⟩ := h.not_maps hmax hx
  have hsucc' := (h'.not_maps hmax' hy).1
  rw [Interval.mem_iff] at ha
  have hlo : y.1.lo = x.1.lo := by
    by_contra hne
    exact hpred (by omega) ((heq _ _).mpr ⟨y, hy, ⟨by omega, by omega⟩, hvalue⟩)
  have hhi : y.1.hi = x.1.hi := by
    rcases Nat.lt_trichotomy y.1.hi x.1.hi with hlt | heq' | hlt
    · exact absurd ((heq _ _).mp ⟨x, hx, ⟨by omega, by omega⟩, hvalue.symm⟩) hsucc'
    · exact heq'
    · exact absurd ((heq _ _).mpr ⟨y, hy, ⟨by omega, by omega⟩, hvalue⟩) hsucc
  have hxy : y = x := Prod.ext (by cases hi : x.1; cases hj : y.1; simp_all) hvalue.symm
  exact hxy ▸ hy

omit [DecidableEq V] in
/-- The nodes are determined by the values of the numbers. -/
theorem nodes_unique {l l' : List (Interval × V)} (h : Ordered l) (hmax : Maximal l)
    (h' : Ordered l') (hmax' : Maximal l') (heq : ∀ a v, Maps l a v ↔ Maps l' a v) : l = l' := by
  have hperm : l.Perm l' := (List.perm_ext_iff_of_nodup h.nodup h'.nodup).mpr fun x =>
    ⟨mem_of_maps h hmax h' hmax' heq, mem_of_maps h' hmax' h hmax fun a v => (heq a v).symm⟩
  refine List.Perm.eq_of_pairwise (fun x y hx hy hlt hlt' => ?_) h.sorted h'.sorted hperm
  have hle := h.nonempty x hx
  have hle' := h'.nonempty y hy
  omega

theorem canonical_run {updates : List (Update V)} (h : ∀ u ∈ updates, u.Within max) :
    Canonical max (run max updates).nodes := by
  have hfold : ∀ m : IntervalMap V, Canonical max m.nodes →
      Canonical max (updates.foldl (Update.apply max) m).nodes := by
    intro m hm
    induction updates generalizing m with
    | nil => exact hm
    | cons u updates ih =>
      obtain ⟨hu, hrest⟩ := List.forall_mem_cons.mp h
      exact ih hrest _ (hm.apply hu)
  exact hfold empty ⟨by simp [Maximal, empty], by simp [Maps, empty]⟩

/-- After any insertions and erasures each number has the value that they gave it last. -/
theorem run_getOptional (max : Nat) (updates : List (Update V)) :
    (run max updates).getOptional = updates.foldl Update.on fun _ => none := by
  have hfold : ∀ m : IntervalMap V, (updates.foldl (Update.apply max) m).getOptional =
      updates.foldl Update.on m.getOptional := by
    intro m
    induction updates generalizing m with
    | nil => rfl
    | cons u updates ih => exact (ih _).trans (by rw [getOptional_apply]; rfl)
  exact hfold empty

/-- Two maps have the same nodes exactly when they give the same values, however they came to. -/
theorem run_nodes_eq_iff {updates updates' : List (Update V)} (h : ∀ u ∈ updates, u.Within max)
    (h' : ∀ u ∈ updates', u.Within max) : (run max updates).nodes = (run max updates').nodes ↔
      (run max updates).getOptional = (run max updates').getOptional := by
  refine ⟨fun heq => by simp only [funext_iff, getOptional, heq, implies_true], fun heq => ?_⟩
  refine nodes_unique (run max updates).ordered (canonical_run h).maximal
    (run max updates').ordered (canonical_run h').maximal fun a v => ?_
  rw [← maps_iff, ← maps_iff, heq]

/-- One node, whether it is inserted at once or in parts. -/
theorem parts_getOptional_eq : (run 255 [.insert ⟨3, 5⟩ (), .insert ⟨0, 2⟩ ()]).getOptional =
    (run 255 [.insert ⟨0, 9⟩ (), .erase ⟨6, 9⟩]).getOptional :=
  (run_nodes_eq_iff (by simp [Update.Within]) (by simp [Update.Within])).mp rfl

end

end IntervalMap

end LoomX
