import LoomX.RowMajor

namespace LoomX

namespace KernelArrays

open LoomX.Tree SgKind SgNode

variable {K : KernelArrays}

/-- An array that has several dimensions. -/
def MultiDim (K : KernelArrays) (v : Var) : Prop := 2 ≤ (K.dims v).length

/-- The arrays as the kernel declares them: a passed array is a flat element pointer. -/
def kernelDims (K : KernelArrays) (v : Var) : List Nat :=
  if v ∈ K.arrayVars ∧ 2 ≤ (K.dims v).length then [(K.dims v).prod] else K.dims v

/-- Every reference to an array with several dimensions has become a flat reference to a passed
array, its index the sum of the subscripts times the dimensions after them. -/
inductive Flattened (K : KernelArrays) : SgNode → SgNode → Prop
  | reference {v : Var} {subscripts subscripts' : List SgNode} {f : SgNode}
      (hpassed : v ∈ K.arrayVars) (hmulti : K.MultiDim v)
      (hlen : subscripts.length = (K.dims v).length)
      (hlen' : subscripts'.length = subscripts.length)
      (hsub : ∀ p ∈ subscripts.zip subscripts', Flattened K p.1 p.2)
      (hflat : flat subscripts' (K.dims v) none = some f) :
      Flattened K (chain (varRef v) subscripts) (arrRef (varRef v) f)
  | node {kind : SgKind} {children children' : List SgNode}
      (hvar : ∀ v, kind = varRefExp v → ¬K.MultiDim v)
      (hlen : children'.length = children.length)
      (hsub : ∀ p ∈ children.zip children', Flattened K p.1 p.2) :
      Flattened K (Tree.node kind children) (Tree.node kind children')

/-- No array with several dimensions occurs. -/
inductive Free (K : KernelArrays) : SgNode → Prop
  | node {kind : SgKind} {children : List SgNode}
      (hvar : ∀ v, kind = varRefExp v → ¬K.MultiDim v) (hsub : ∀ c ∈ children, Free K c) :
      Free K (Tree.node kind children)

/-- An array with several dimensions occurs only as the array of a reference to a passed array
that has all its subscripts, is not itself an operand of a reference, and has no array with
several dimensions in its subscripts. -/
inductive Separated (K : KernelArrays) : Option SgKind → SgNode → Prop
  | reference {parent : Option SgKind} {v : Var} {subscripts : List SgNode}
      (hparent : parent ≠ some pntrArrRefExp) (hpassed : v ∈ K.arrayVars)
      (hmulti : K.MultiDim v) (hlen : subscripts.length = (K.dims v).length)
      (hfree : ∀ i ∈ subscripts, Free K i) : Separated K parent (chain (varRef v) subscripts)
  | node {parent : Option SgKind} {kind : SgKind} {children : List SgNode}
      (hvar : ∀ v, kind = varRefExp v → ¬K.MultiDim v)
      (hsub : ∀ c ∈ children, Separated K (some kind) c) :
      Separated K parent (Tree.node kind children)

theorem MultiDim.ne_nil {v : Var} (h : K.MultiDim v) : K.dims v ≠ [] := by
  intro hnil
  rw [MultiDim, hnil] at h
  simp at h

theorem map_eq_of_zip {α β γ : Type} {f : α → γ} {g : β → γ} {as : List α} {bs : List β}
    (hlen : bs.length = as.length) (h : ∀ p ∈ as.zip bs, g p.2 = f p.1) :
    bs.map g = as.map f := by
  induction as generalizing bs with
  | nil => simp [List.eq_nil_of_length_eq_zero hlen]
  | cons a as ih =>
    cases bs with
    | nil => simp at hlen
    | cons b bs =>
      rw [List.map_cons, List.map_cons, h (a, b) List.mem_cons_self,
        ih (Nat.succ.inj hlen) fun p hp => h p (List.mem_cons_of_mem _ hp)]

theorem forall_zip_map {α β : Type} {P : α → β → Prop} {g : α → β} {l : List α} :
    (∀ p ∈ l.zip (l.map g), P p.1 p.2) ↔ ∀ c ∈ l, P c (g c) := by
  induction l with
  | nil => simp
  | cons c l ih => simpa using fun _ => ih

theorem forall_zip_self {α : Type} {P : α → α → Prop} {l : List α} :
    (∀ p ∈ l.zip l, P p.1 p.2) ↔ ∀ c ∈ l, P c c := by
  have h := forall_zip_map (P := P) (g := id) (l := l)
  rwa [List.map_id] at h

section Meaning

variable {σ : Type} {M : Meaning σ}

theorem evaluate_node_congr {kind : SgKind} {children children' : List SgNode}
    (hvar : ∀ v, kind = varRefExp v → ¬K.MultiDim v)
    (heq : children'.map (M.evaluate K.kernelDims) = children.map (M.evaluate K.dims)) :
    M.evaluate K.kernelDims (Tree.node kind children') =
      M.evaluate K.dims (Tree.node kind children) := by
  rw [Meaning.evaluate, Meaning.evaluate, Meaning.evaluateEach_eq_map,
    Meaning.evaluateEach_eq_map, heq]
  unfold Meaning.ofNode
  split
  next v =>
    have hsingle : K.kernelDims v = K.dims v := if_neg fun h => hvar v rfl h.2
    rw [hsingle]
  all_goals rfl

/-- Over the flat arrays of the kernel a flattened expression addresses the elements that the
expression addresses in row-major order. -/
theorem Flattened.evaluate_eq {t t' : SgNode} (h : Flattened K t t') :
    M.evaluate K.kernelDims t' = M.evaluate K.dims t := by
  induction h with
  | node hvar hlen _ ih => exact evaluate_node_congr hvar (map_eq_of_zip hlen ih)
  | @reference v subscripts subscripts' f hpassed hmulti hlen hlen' _ hflat ih =>
    have heq := map_eq_of_zip hlen' ih
    have hkernel : K.kernelDims v = [(K.dims v).prod] := if_pos ⟨hpassed, hmulti⟩
    have hne := hmulti.ne_nil
    obtain ⟨d, extents, hdims⟩ := List.exists_cons_of_ne_nil hne
    funext s
    have hbase : M.evaluate K.dims (varRef v) s = some (.row v (K.dims v) 0, s) := by
      show some (if K.dims v = [] then Value.place (.scalar v) else .row v (K.dims v) 0, s) = _
      rw [if_neg hne]
    rw [evaluate_chain hbase hlen hne, ← heq]
    cases subscripts' with
    | nil =>
      rw [List.length_nil, hlen, hdims] at hlen'
      simp at hlen'
    | cons i rest =>
      rw [hdims] at hflat hlen
      rw [List.length_cons, hlen, List.length_cons] at hlen'
      obtain ⟨f', hf', hoperand⟩ := operand_flat_none (M := M) K.kernelDims i d s
        (Nat.succ.inj hlen')
      rw [hf', Option.some.injEq] at hflat
      subst hflat
      have hrow : M.evaluate K.kernelDims (varRef v) s =
          some (.row v [(K.dims v).prod] 0, s) := by
        show some (if K.kernelDims v = [] then Value.place (.scalar v)
          else .row v (K.kernelDims v) 0, s) = _
        rw [hkernel, if_neg (List.cons_ne_nil _ _)]
      rw [Meaning.evaluate_arrRef, hrow, Option.bind_some]
      simp only
      rw [hoperand, Option.map_map, hdims]
      congr 1

end Meaning

/-- A reference with two subscripts is one to another reference. -/
theorem exists_arrRef_arrRef (b : SgNode) {subscripts : List SgNode}
    (h : 2 ≤ subscripts.length) :
    ∃ c i j, chain b subscripts = arrRef (arrRef c i) j := by
  rcases List.eq_nil_or_concat subscripts with rfl | ⟨front, j, rfl⟩
  · simp at h
  · rcases List.eq_nil_or_concat front with rfl | ⟨before, i, rfl⟩
    · simp at h
    · exact ⟨chain b before, i, j, by simp [chain]⟩

theorem free_of_flattened_self {t t' : SgNode} (h : Flattened K t t') (heq : t' = t) :
    Free K t := by
  induction h with
  | reference _ hmulti hlen _ _ _ _ =>
    rw [MultiDim, ← hlen] at hmulti
    obtain ⟨c, i, j, hchain⟩ := exists_arrRef_arrRef _ hmulti
    rw [hchain] at heq
    simp [arrRef, varRef] at heq
  | @node kind children children' hvar hlen _ ih =>
    simp only [Tree.node.injEq, true_and] at heq
    subst heq
    exact Free.node hvar fun c hc => 
      forall_zip_self (P := fun c d => d = c → Free K c) |>.mp ih c hc rfl

theorem flattened_self_of_free {t : SgNode} (h : Free K t) : Flattened K t t := by
  induction h with
  | node hvar _ ih => exact Flattened.node hvar rfl (forall_zip_self.mpr ih)

theorem term_injective {i j : SgNode} {strides : List Nat} (h : term i strides = term j strides) :
    i = j := by
  induction strides generalizing i j with
  | nil => exact h
  | cons stride strides ih =>
    have heq := ih h
    simpa using heq

theorem exists_flat (subscripts : List SgNode) (extents : List Nat) (sum : SgNode) :
    ∃ f, flat subscripts extents (some sum) = some f := by
  induction subscripts generalizing extents sum with
  | nil => exact ⟨sum, by simp [flat]⟩
  | cons i rest ih =>
    cases extents with
    | nil => exact ⟨sum, by simp [flat]⟩
    | cons d extents => exact ih extents _

theorem exists_flat_none {subscripts : List SgNode} {extents : List Nat}
    (hlen : subscripts.length = extents.length) (hne : extents ≠ []) :
    ∃ f, flat subscripts extents none = some f := by
  obtain ⟨d, extents, rfl⟩ := List.exists_cons_of_ne_nil hne
  obtain ⟨i, rest, rfl⟩ := List.exists_cons_of_length_eq_add_one hlen
  exact exists_flat rest extents (term i extents)

theorem flat_injective {l l' : List SgNode} {extents : List Nat} {sum sum' : SgNode}
    (hlen : l.length = extents.length) (hlen' : l'.length = extents.length)
    (h : flat l extents (some sum) = flat l' extents (some sum')) : l = l' ∧ sum = sum' := by
  induction extents generalizing l l' sum sum' with
  | nil =>
    rw [List.eq_nil_of_length_eq_zero hlen, List.eq_nil_of_length_eq_zero hlen'] at h ⊢
    simpa [flat] using h
  | cons d extents ih =>
    obtain ⟨i, rest, rfl⟩ := List.exists_cons_of_length_eq_add_one hlen
    obtain ⟨i', rest', rfl⟩ := List.exists_cons_of_length_eq_add_one hlen'
    obtain ⟨hrest, hsum⟩ := ih (Nat.succ.inj hlen) (Nat.succ.inj hlen') h
    simp only [Tree.node.injEq, List.cons.injEq, and_true, true_and] at hsum
    exact ⟨by rw [hrest, term_injective hsum.2], hsum.1⟩

theorem flat_none_injective {l l' : List SgNode} {extents : List Nat}
    (hlen : l.length = extents.length) (hlen' : l'.length = extents.length)
    (h : flat l extents none = flat l' extents none) : l = l' := by
  cases extents with
  | nil => rw [List.eq_nil_of_length_eq_zero hlen, List.eq_nil_of_length_eq_zero hlen']
  | cons d extents =>
    obtain ⟨i, rest, rfl⟩ := List.exists_cons_of_length_eq_add_one hlen
    obtain ⟨i', rest', rfl⟩ := List.exists_cons_of_length_eq_add_one hlen'
    obtain ⟨hrest, hterm⟩ := flat_injective (Nat.succ.inj hlen) (Nat.succ.inj hlen') h
    rw [hrest, term_injective hterm]

theorem base_chain (b : SgNode) (subscripts : List SgNode) :
    base (chain b subscripts) = base b := by
  induction subscripts generalizing b with
  | nil => rfl
  | cons i rest ih => exact ih (arrRef b i)

theorem indices_chain (b : SgNode) (subscripts : List SgNode) :
    SgNode.indices (chain b subscripts) = subscripts.reverse ++ SgNode.indices b := by
  induction subscripts generalizing b with
  | nil => rfl
  | cons i rest ih =>
    have hrest := ih (arrRef b i)
    rw [chain, List.foldl_cons]
    rw [chain] at hrest
    rw [hrest, List.reverse_cons, List.append_assoc]
    rfl

theorem flatReference_chain {v : Var} {subscripts : List SgNode} (hmulti : K.MultiDim v)
    (hlen : subscripts.length = (K.dims v).length) :
    K.flatReference (chain (varRef v) subscripts) =
      (flat subscripts (K.dims v) none).map (arrRef (varRef v)) := by
  have hbase : (base (chain (varRef v) subscripts)).skipCasts = varRef v := by
    rw [base_chain]
    rfl
  have hindices : (SgNode.indices (chain (varRef v) subscripts)).reverse = subscripts := by
    rw [indices_chain, List.reverse_append, List.reverse_reverse]
    rfl
  unfold flatReference
  rw [hbase]
  show (if (K.dims v).length < 2 then none else _) = _
  rw [if_neg (Nat.not_lt.mpr hmulti), hindices, if_neg (not_not.mpr hlen)]

theorem indices_ne_nil {t : SgNode} (h : SgNode.indices t ≠ []) :
    ∃ lhs rhs, t = arrRef lhs rhs := by
  unfold SgNode.indices at h
  split at h
  next lhs rhs => exact ⟨lhs, rhs, rfl⟩
  next => exact absurd rfl h

theorem flatReference_some {t new : SgNode} (h : K.flatReference t = some new) :
    ∃ lhs rhs v rest f, t = arrRef lhs rhs ∧ (base t).skipCasts = Tree.node (varRefExp v) rest ∧
      K.MultiDim v ∧ (SgNode.indices t).length = (K.dims v).length ∧ new = arrRef (varRef v) f := by
  unfold flatReference at h
  split at h
  next v rest hbase =>
    simp only at h
    split at h
    next => simp at h
    next hmulti =>
      split at h
      next => simp at h
      next hlen =>
        obtain ⟨f, _, rfl⟩ := Option.map_eq_some_iff.mp h
        rw [not_not, List.length_reverse] at hlen
        obtain ⟨lhs, rhs, rfl⟩ := indices_ne_nil (t := t) fun hnil => by
          rw [hnil] at hlen
          simp only [List.length_nil] at hlen
          omega
        exact ⟨lhs, rhs, v, rest, f, rfl, hbase, Nat.not_lt.mp hmulti, hlen, rfl⟩
  next => simp at h

theorem rewriteDown_node {parent : Option SgKind} {kind : SgKind} {children : List SgNode}
    (h : isTop parent kind = true → K.flatReference (Tree.node kind children) = none) :
    rewriteDown isTop K.flatReference parent (Tree.node kind children) =
      Tree.node kind (children.map (rewriteDown isTop K.flatReference (some kind))) := by
  rw [rewriteDown, rewriteEach_eq_map]
  by_cases htop : isTop parent kind = true
  · rw [if_pos htop, h htop]
  · rw [if_neg htop]

theorem rewriteDown_top {parent : Option SgKind} {t new : SgNode}
    (hparent : parent ≠ some pntrArrRefExp) {children : List SgNode}
    (ht : t = Tree.node pntrArrRefExp children) (h : K.flatReference t = some new) :
    rewriteDown isTop K.flatReference parent t = new := by
  subst ht
  have htop : isTop parent pntrArrRefExp = true := by simp [isTop, hparent]
  rw [rewriteDown, if_pos htop, h]

theorem skipCasts_of_separated {parent : Option SgKind} {t : SgNode}
    (h : Separated K parent t) {v : Var} {rest : List SgNode}
    (heq : t.skipCasts = Tree.node (varRefExp v) rest) : ¬K.MultiDim v := by
  induction h with
  | reference _ _ hmulti hlen _ =>
    rw [MultiDim, ← hlen] at hmulti
    obtain ⟨c, i, j, hchain⟩ := exists_arrRef_arrRef _ hmulti
    rw [hchain] at heq
    simp [arrRef, skipCasts] at heq
  | node hvar _ ih =>
    unfold skipCasts at heq
    split at heq
    next e hcast =>
      simp only [Tree.node.injEq] at hcast
      obtain ⟨_, rfl⟩ := hcast
      exact ih e List.mem_cons_self heq
    next =>
      simp only [Tree.node.injEq] at heq
      exact hvar v heq.1

/-- An operand of a reference that is no flat reference does not lead to an array with several
dimensions. -/
theorem base_of_separated {parent : Option SgKind} {t : SgNode} (h : Separated K parent t)
    (hparent : parent = some pntrArrRefExp) {v : Var} {rest : List SgNode}
    (heq : (base t).skipCasts = Tree.node (varRefExp v) rest) : ¬K.MultiDim v := by
  induction h with
  | reference hne _ _ _ _ => exact absurd hparent hne
  | @node parent kind children hvar hsub ih =>
    have hself : Separated K parent _ := .node hvar hsub
    unfold base at heq
    split at heq
    next lhs rhs hchildren =>
      simp only [Tree.node.injEq] at hchildren
      obtain ⟨rfl, rfl⟩ := hchildren
      exact ih lhs List.mem_cons_self rfl heq
    next => exact skipCasts_of_separated hself heq

theorem flattened_of_separated {parent : Option SgKind} {t : SgNode}
    (h : Separated K parent t) :
    Flattened K t (rewriteDown isTop K.flatReference parent t) := by
  induction h with
  | @reference parent v subscripts hparent hpassed hmulti hlen hfree =>
    have hsome := flatReference_chain hmulti hlen
    have htwo := hmulti
    rw [MultiDim, ← hlen] at htwo
    obtain ⟨c, i, j, hchain⟩ := exists_arrRef_arrRef (varRef v) htwo
    obtain ⟨f, hflat⟩ := exists_flat_none hlen hmulti.ne_nil
    rw [hflat, Option.map_some] at hsome
    rw [rewriteDown_top hparent hchain hsome]
    exact Flattened.reference hpassed hmulti hlen rfl
      (forall_zip_self.mpr fun i hi => flattened_self_of_free (hfree i hi)) hflat
  | @node parent kind children hvar hsub ih =>
    have hnone : isTop parent kind = true →
        K.flatReference (Tree.node kind children) = none := by
      intro htop
      by_contra hsome
      obtain ⟨new, hnew⟩ := Option.ne_none_iff_exists'.mp hsome
      obtain ⟨lhs, rhs, v, rest, f, hnode, hbase, hmulti, _⟩ := flatReference_some hnew
      simp only [arrRef, Tree.node.injEq] at hnode
      obtain ⟨rfl, rfl⟩ := hnode
      exact base_of_separated (hsub lhs List.mem_cons_self) rfl hbase hmulti
    rw [rewriteDown_node hnone]
    exact Flattened.node hvar (List.length_map _) (forall_zip_map.mpr ih)

theorem eq_varRef_of_flattened {t t' : SgNode} {v : Var} (h : Flattened K t t')
    (heq : t' = varRef v) : t = varRef v := by
  cases h with
  | reference => simp [arrRef, varRef] at heq
  | node _ hlen _ =>
    simp only [varRef, Tree.node.injEq] at heq
    obtain ⟨rfl, rfl⟩ := heq
    rw [List.eq_nil_of_length_eq_zero hlen.symm]
    rfl

theorem separated_of_flattened {t t' : SgNode} (h : Flattened K t t')
    (parent : Option SgKind) (heq : rewriteDown isTop K.flatReference parent t = t') :
    Separated K parent t := by
  induction h generalizing parent with
  | @reference v subscripts subscripts' f hpassed hmulti hlen hlen' hsub hflat _ =>
    have htwo := hmulti
    rw [MultiDim, ← hlen] at htwo
    obtain ⟨c, i, j, hchain⟩ := exists_arrRef_arrRef (varRef v) htwo
    have hparent : parent ≠ some pntrArrRefExp := by
      rintro rfl
      have hnot : ∀ kind, isTop (some pntrArrRefExp) kind = true → False := by
        simp [isTop]
      rw [hchain, arrRef, rewriteDown_node fun h => absurd h (hnot _), List.map_cons,
        arrRef, rewriteDown_node fun h => absurd h (hnot _)] at heq
      simp [arrRef, varRef] at heq
    have hsome := flatReference_chain hmulti hlen
    obtain ⟨f', hflat'⟩ := exists_flat_none hlen hmulti.ne_nil
    rw [hflat', Option.map_some] at hsome
    rw [rewriteDown_top hparent hchain hsome] at heq
    have hf : f' = f := by simpa [arrRef] using heq
    have hsame : subscripts' = subscripts :=
      flat_none_injective (hlen'.trans hlen) hlen (by rw [hflat, hflat', hf])
    subst hsame
    exact Separated.reference hparent hpassed hmulti hlen fun i hi =>
      free_of_flattened_self (forall_zip_self.mp hsub i hi) rfl
  | @node kind children children' hvar hlen hsub ih =>
    have hnone : isTop parent kind = true →
        K.flatReference (Tree.node kind children) = none := by
      intro htop
      by_contra hsome
      obtain ⟨new, hnew⟩ := Option.ne_none_iff_exists'.mp hsome
      obtain ⟨lhs, rhs, v, rest, f, hnode, _, hmulti, hindices, rfl⟩ := flatReference_some hnew
      simp only [arrRef, Tree.node.injEq] at hnode
      obtain ⟨rfl, rfl⟩ := hnode
      have htop' : parent ≠ some pntrArrRefExp := by
        rintro rfl
        simp [isTop] at htop
      rw [rewriteDown_top htop' rfl hnew] at heq
      simp only [arrRef, Tree.node.injEq, true_and] at heq
      subst heq
      have hlhs := eq_varRef_of_flattened (hsub (lhs, varRef v) List.mem_cons_self) rfl
      subst hlhs
      rw [MultiDim, ← hindices] at hmulti
      simp [SgNode.indices, varRef] at hmulti
    rw [rewriteDown_node hnone] at heq
    simp only [Tree.node.injEq, true_and] at heq
    subst heq
    exact Separated.node hvar fun c hc =>
      forall_zip_map (P := fun c d => ∀ parent,
        rewriteDown isTop K.flatReference parent c = d → Separated K parent c)
        |>.mp ih c hc (some kind) rfl

theorem separated_of_free {t : SgNode} (h : Free K t) (parent : Option SgKind) :
    Separated K parent t := by
  induction h generalizing parent with
  | node hvar _ ih => exact Separated.node hvar fun c hc => ih c hc _

theorem free_of_separated {parent : Option SgKind} {t : SgNode} (h : Separated K parent t)
    (hnone : ∀ v, v ∉ K.arrayVars) : Free K t := by
  induction h with
  | reference _ hpassed _ _ _ => exact absurd hpassed (hnone _)
  | node hvar _ ih => exact Free.node hvar ih

theorem flattened_linearizeSubscripts_iff (K : KernelArrays) (body : SgNode) :
    Flattened K body (K.linearizeSubscripts body) ↔ Separated K none body := by
  unfold linearizeSubscripts
  split
  next hempty =>
    have hnone : ∀ v, v ∉ K.arrayVars := by
      simp [List.isEmpty_iff.mp hempty]
    constructor
    · intro h
      have hfree := free_of_flattened_self h rfl
      exact separated_of_free hfree none
    · intro h
      exact flattened_self_of_free (free_of_separated h hnone)
  next =>
    rw [rewriteAll_chosen]
    constructor
    · intro h
      exact separated_of_flattened h none rfl
    · exact flattened_of_separated

/-- After `linearizeSubscripts` every reference to an array with several dimensions is a flat
reference with the row-major index, and the body addresses the same elements, exactly if these
references are separated. -/
theorem linearizeSubscripts_exact_iff (K : KernelArrays) (body : SgNode) :
    (Flattened K body (K.linearizeSubscripts body) ∧
      ∀ (σ : Type) (M : Meaning σ) (s : σ),
        M.evaluate K.kernelDims (K.linearizeSubscripts body) s = M.evaluate K.dims body s) ↔
      Separated K none body := by
  rw [← flattened_linearizeSubscripts_iff]
  constructor
  · exact And.left
  · intro h
    exact ⟨h, fun σ M s => by rw [h.evaluate_eq]⟩

def arrayA : Var := ⟨0, "A", .array, .automatic⟩

def arrayB : Var := ⟨1, "B", .array, .automatic⟩

/-- `double A[2][3]` and `double B[2][2]`. -/
def twoArrays : KernelArrays where
  dims v := if v = arrayA then [2, 3] else if v = arrayB then [2, 2] else []
  arrayVars := [arrayA, arrayB]

def number (n : Int) : SgNode := Tree.node (intVal n) []

/-- `A[B[0][1]][2]`. -/
def nestedSubscript : SgNode :=
  Tree.node (other "SgExprStatement")
    [chain (varRef arrayA) [chain (varRef arrayB) [number 0, number 1], number 2]]

/-- A statement is its expression, and all elements are zero. -/
def zeroMemory : Meaning Unit where
  load _ _ := 0
  apply kind ds s :=
    match kind, ds with
    | .other _, [d] => d s
    | _, _ => none

/-- The kernel subscripts an element of `B`, as the inner reference is not flattened. -/
theorem nestedSubscript_not_exact :
    ¬(Flattened twoArrays nestedSubscript (twoArrays.linearizeSubscripts nestedSubscript) ∧
      ∀ (σ : Type) (M : Meaning σ) (s : σ),
        M.evaluate twoArrays.kernelDims (twoArrays.linearizeSubscripts nestedSubscript) s =
          M.evaluate twoArrays.dims nestedSubscript s) := by
  rintro ⟨_, h⟩
  exact absurd (h Unit zeroMemory ()) (by decide)

end KernelArrays

end LoomX
