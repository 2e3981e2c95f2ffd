import LoomX.Symbolic.Soundness

namespace LoomX.Symbolic

/-- The weight of a node with the operator, from that of its operands. -/
def Operator.weigh : Operator → Nat → Nat
  | extract, k => k - 2
  | negate, k => k
  | concat, k => 2 * k
  | _, k => k + 1

mutual

/-- What the rules make smaller: they move extracts and negations inwards and `ite` outwards of
concatenations. -/
def Node.weight : Node → Nat
  | .interior op _ cs _ => op.weigh (weightAll cs)
  | .var _ _ _ => 1
  | .constant _ _ => 1

def weightAll : List Node → Nat
  | [] => 0
  | c :: cs => c.weight + weightAll cs

end

@[simp] theorem weight_interior (op : Operator) (w : Nat) (cs : List Node) (f : Nat) :
    (Node.interior op w cs f).weight = op.weigh (weightAll cs) := by
  rw [Node.weight]

@[simp] theorem weight_constant (b : BitVector) (f : Nat) : (Node.constant b f).weight = 1 := by
  rw [Node.weight]

@[simp] theorem weight_var (i w f : Nat) : (Node.var i w f).weight = 1 := by
  rw [Node.weight]

@[simp] theorem weightAll_nil : weightAll [] = 0 := by
  rw [weightAll]

@[simp] theorem weightAll_cons (c : Node) (cs : List Node) :
    weightAll (c :: cs) = c.weight + weightAll cs := by
  rw [weightAll]

@[simp] theorem weightAll_append (cs ds : List Node) :
    weightAll (cs ++ ds) = weightAll cs + weightAll ds := by
  induction cs with
  | nil => simp
  | cons c cs ih => simp [ih, Nat.add_assoc]

@[simp] theorem weightAll_reverse (cs : List Node) : weightAll cs.reverse = weightAll cs := by
  induction cs with
  | nil => rfl
  | cons c cs ih => simp [ih, Nat.add_comm]

theorem weight_le_of_mem {c : Node} {cs : List Node} (h : c ∈ cs) : c.weight ≤ weightAll cs := by
  induction cs with
  | nil => exact absurd h List.not_mem_nil
  | cons d cs ih =>
    rw [weightAll_cons]
    rcases List.mem_cons.mp h with rfl | h'
    · omega
    · exact (ih h').trans (Nat.le_add_left _ _)

mutual

theorem weight_pos : ∀ n : Node, n.Valid → 0 < n.weight
  | .interior op w cs f, h => by
    have hall := length_le_weightAll cs h.2.2
    rw [weight_interior]
    cases op with
    | extract =>
      obtain ⟨lo, fl, hi, fh, a, rfl, -⟩ := h.2.1
      simp only [List.length_cons, List.length_nil] at hall
      show 0 < weightAll _ - 2
      omega
    | negate =>
      obtain ⟨c, rfl, -⟩ := h.2.1
      simp only [List.length_cons, List.length_nil] at hall
      exact hall
    | concat =>
      have hlen := List.length_pos_iff.mpr h.2.1.1
      show 0 < 2 * weightAll cs
      omega
    | _ => exact Nat.succ_pos _
  | .var i w f, _ => by simp
  | .constant b f, _ => by simp

theorem length_le_weightAll : ∀ cs : List Node, AllValid cs → cs.length ≤ weightAll cs
  | [], _ => by simp
  | c :: cs, h => by
    have hc := weight_pos c h.1
    have hcs := length_le_weightAll cs h.2
    rw [List.length_cons, weightAll_cons]
    omega

end

theorem weightAll_perm {cs ds : List Node} (h : cs.Perm ds) : weightAll cs = weightAll ds := by
  induction h with
  | nil => rfl
  | cons c _ ih => simp [ih]
  | swap c d cs =>
    simp only [weightAll_cons]
    omega
  | trans _ _ ih ih' => exact ih.trans ih'

/-- Every operand that is left out has some weight. -/
theorem weightAll_add_length_le {cs ds : List Node} (h : cs.Sublist ds)
    (hvalid : ∀ d ∈ ds, d.Valid) : weightAll cs + ds.length ≤ weightAll ds + cs.length := by
  induction h with
  | slnil => exact Nat.le_refl _
  | @cons cs ds d h' ih =>
    have hpos := weight_pos d (hvalid d List.mem_cons_self)
    have hle := ih fun e he => hvalid e (List.mem_cons_of_mem d he)
    rw [weightAll_cons, List.length_cons]
    omega
  | cons_cons d _ ih =>
    have hle := ih fun e he => hvalid e (List.mem_cons_of_mem d he)
    rw [weightAll_cons, weightAll_cons, List.length_cons, List.length_cons]
    omega

/-- A shorter list of some of the operands weighs less. -/
theorem weightAll_lt_of_sublist {cs ds : List Node} (h : cs.Sublist ds)
    (hvalid : ∀ d ∈ ds, d.Valid) (hlen : cs.length ≠ ds.length) : weightAll cs < weightAll ds := by
  have hle := weightAll_add_length_le h hvalid
  have hshort := h.length_le
  omega

/-- The operators whose nodes weigh more than their operands together. -/
def Operator.isHeavy : Operator → Bool
  | extract | negate => false
  | _ => true

theorem weigh_of_isHeavy {op : Operator} (h : op.isHeavy = true) {k : Nat} (hk : 0 < k) :
    k < op.weigh k := by
  cases op with
  | extract | negate => simp [Operator.isHeavy] at h
  | concat =>
    show k < 2 * k
    omega
  | _ => exact Nat.lt_succ_self k

mutual

theorem done_of_flatten {E : Engine} (op : Operator) :
    ∀ n : Node, n.Done E → ∀ c ∈ n.flatten op, c.Done E
  | .interior op' w cs f, h, c, hc => by
    simp only [Node.flatten] at hc
    split at hc
    next => exact done_of_flattenAll op cs (fun m hm => h.child hm) c hc
    next =>
      cases List.mem_singleton.mp hc
      exact h
  | .var i w f, h, c, hc => by
    cases List.mem_singleton.mp hc
    exact h
  | .constant b f, h, c, hc => by
    cases List.mem_singleton.mp hc
    exact h

theorem done_of_flattenAll {E : Engine} (op : Operator) :
    ∀ l : List Node, (∀ n ∈ l, n.Done E) → ∀ c ∈ flattenAll op l, c.Done E
  | [], _, c, hc => absurd hc (List.not_mem_nil)
  | n :: l, h, c, hc => by
    rcases List.mem_append.mp hc with hn | hl
    · exact done_of_flatten op n (h n List.mem_cons_self) c hn
    · exact done_of_flattenAll op l (fun m hm => h m (List.mem_cons_of_mem n hm)) c hl

end

/-- The operands of a valid node of the operator are not empty. -/
def Operator.TakesSome (op : Operator) : Prop := ∀ {w : Nat} {cs : List Node}, op.Shape w cs → cs ≠ []

/-- A valid node of the operator weighs more than its operands. -/
def Operator.Outweighs (op : Operator) : Prop :=
  ∀ {w : Nat} {cs : List Node}, op.Shape w cs → AllValid cs → weightAll cs < op.weigh (weightAll cs)

theorem outweighs_of_takesSome {op : Operator} (hheavy : op.isHeavy = true) (hsome : op.TakesSome) :
    op.Outweighs := by
  intro w cs hshape hcs
  have hlen := length_le_weightAll cs hcs
  have hpos := List.length_pos_iff.mpr (hsome hshape)
  exact weigh_of_isHeavy hheavy (by omega)

mutual

theorem weight_flatten {op : Operator} (hop : op.Outweighs) :
    ∀ n : Node, n.Valid → weightAll (n.flatten op) ≤ n.weight ∧
      (n.isOperator op = true → weightAll (n.flatten op) < n.weight)
  | .interior op' w cs f, h => by
    simp only [Node.flatten]
    split
    next heq =>
      subst heq
      have hle := (weight_flattenAll hop cs h.2.2).1
      have hlt := hop h.2.1 h.2.2
      rw [weight_interior]
      exact ⟨by omega, fun _ => by omega⟩
    next hne =>
      refine ⟨by simp, fun hop => ?_⟩
      have heq : op' = op := by simpa [Node.isOperator] using hop
      exact absurd heq hne
  | .var i w f, _ => ⟨by simp [Node.flatten], fun h => by simp [Node.isOperator] at h⟩
  | .constant b f, _ => ⟨by simp [Node.flatten], fun h => by simp [Node.isOperator] at h⟩

theorem weight_flattenAll {op : Operator} (hop : op.Outweighs) :
    ∀ l : List Node, AllValid l → weightAll (flattenAll op l) ≤ weightAll l ∧
      (l.any (·.isOperator op) = true → weightAll (flattenAll op l) < weightAll l)
  | [], _ => ⟨Nat.le_refl _, fun h => by simp at h⟩
  | n :: l, h => by
    obtain ⟨hle, hlt⟩ := weight_flatten hop n h.1
    obtain ⟨hles, hlts⟩ := weight_flattenAll hop l h.2
    rw [flattenAll, weightAll_append, weightAll_cons]
    refine ⟨by omega, fun hany => ?_⟩
    rw [List.any_cons, Bool.or_eq_true] at hany
    rcases hany with hn | hl
    · have hn' := hlt hn
      omega
    · have hl' := hlts hl
      omega

end

/-- One list of values stands for another, also among further values. -/
structure Replaces (R : List BitVector → List BitVector → Prop) : Prop where
  refl : ∀ vals, R vals vals
  trans : ∀ {vals vals' vals''}, R vals vals' → R vals' vals'' → R vals vals''
  append : ∀ {vals vals' others others'}, R vals vals' → R others others' →
    R (vals ++ others) (vals' ++ others')

section

variable {other : Nat → Nat → List BitVector → Nat} {env : Nat → Nat}
  {R : List BitVector → List BitVector → Prop} {fits : Node → Prop}

/-- A nested operation can stand for its operands, which fit where it does. -/
def Opens (other : Nat → Nat → List BitVector → Nat) (env : Nat → Nat)
    (R : List BitVector → List BitVector → Prop) (fits : Node → Prop) (op : Operator) : Prop :=
  ∀ w cs f, (Node.interior op w cs f).Valid → fits (.interior op w cs f) →
    R [(Node.interior op w cs f).eval other env] (cs.map (Node.eval other env)) ∧
      ∀ c ∈ cs, fits c

mutual

theorem replaces_flatten {op : Operator} (hR : Replaces R) (hopens : Opens other env R fits op) :
    ∀ n : Node, n.Valid → fits n →
      R [n.eval other env] ((n.flatten op).map (Node.eval other env)) ∧ ∀ c ∈ n.flatten op, fits c
  | .interior op' w cs f, h, hfits => by
    simp only [Node.flatten]
    split
    next heq =>
      subst heq
      obtain ⟨hopen, hcs⟩ := hopens w cs f h hfits
      obtain ⟨hflat, hflatFits⟩ := replaces_flattenAll hR hopens cs h.2.2 hcs
      exact ⟨hR.trans hopen hflat, hflatFits⟩
    next => exact ⟨hR.refl _, fun c hc => List.mem_singleton.mp hc ▸ hfits⟩
  | .var i w f, _, hfits => ⟨hR.refl _, fun c hc => List.mem_singleton.mp hc ▸ hfits⟩
  | .constant b f, _, hfits => ⟨hR.refl _, fun c hc => List.mem_singleton.mp hc ▸ hfits⟩

theorem replaces_flattenAll {op : Operator} (hR : Replaces R) (hopens : Opens other env R fits op) :
    ∀ l : List Node, AllValid l → (∀ c ∈ l, fits c) →
      R (l.map (Node.eval other env)) ((flattenAll op l).map (Node.eval other env)) ∧
        ∀ c ∈ flattenAll op l, fits c
  | [], _, _ => ⟨hR.refl _, fun c hc => absurd hc List.not_mem_nil⟩
  | n :: l, h, hfits => by
    obtain ⟨hn, hnFits⟩ := replaces_flatten hR hopens n h.1 (hfits n List.mem_cons_self)
    obtain ⟨hl, hlFits⟩ := replaces_flattenAll hR hopens l h.2 fun c hc =>
      hfits c (List.mem_cons_of_mem n hc)
    rw [flattenAll, List.map_append]
    refine ⟨hR.append hn hl, fun c hc => ?_⟩
    rcases List.mem_append.mp hc with hc | hc
    · exact hnFits c hc
    · exact hlFits c hc

end

/-- A `fold` gives a vector of an acceptable width that stands for the run, if the run is not
wider than said. -/
def FoldsRuns (R : List BitVector → List BitVector → Prop) (fits : Node → Prop) (bound : Nat)
    (fold : List BitVector → BitVector) : Prop :=
  ∀ vals : List BitVector, vals ≠ [] → (∀ v ∈ vals, IsWidth v.size ∧ ∃ f, fits (.constant v f)) →
    (vals.map BitVector.size).sum ≤ bound →
    R [fold vals] vals ∧ IsWidth (fold vals).size ∧ ∀ f, fits (.constant (fold vals) f)

theorem map_eval_constants {run : List Node} (h : ∀ c ∈ run, c.isIntegerConstant = true) :
    run.filterMap Node.bits? = run.map (Node.eval other env) := by
  induction run with
  | nil => rfl
  | cons c run ih =>
    have hc := h c List.mem_cons_self
    have hrun := ih fun d hd => h d (List.mem_cons_of_mem c hd)
    cases c with
    | constant b f => simp [Node.bits?, Node.eval, hrun]
    | _ => simp [Node.isIntegerConstant] at hc

/-- What a run of operands may be replaced by. -/
structure RunFolded (E : Engine) (other : Nat → Nat → List BitVector → Nat) (env : Nat → Nat)
    (R : List BitVector → List BitVector → Prop) (fits : Node → Prop) (cs ds : List Node) :
    Prop where
  same : R (ds.map (Node.eval other env)) (cs.map (Node.eval other env))
  done : ∀ d ∈ ds, d.Done E
  fits : ∀ d ∈ ds, fits d
  weight : weightAll ds + cs.length ≤ weightAll cs + ds.length
  length : ds.length ≤ cs.length
  nonempty : cs ≠ [] → ds ≠ []

theorem RunFolded.append {E : Engine} (hR : Replaces R) {cs ds cs' ds' : List Node}
    (h : RunFolded E other env R fits cs ds) (h' : RunFolded E other env R fits cs' ds') :
    RunFolded E other env R fits (cs ++ cs') (ds ++ ds') where
  same := by
    rw [List.map_append, List.map_append]
    exact hR.append h.same h'.same
  done d hd := (List.mem_append.mp hd).elim (h.done d) (h'.done d)
  fits d hd := (List.mem_append.mp hd).elim (h.fits d) (h'.fits d)
  weight := by
    have hw := h.weight
    have hw' := h'.weight
    simp only [weightAll_append, List.length_append]
    omega
  length := by
    have hlen := h.length
    have hlen' := h'.length
    simp only [List.length_append]
    omega
  nonempty hne hnil := by
    obtain ⟨hds, hds'⟩ := List.append_eq_nil_iff.mp hnil
    by_cases hcs : cs = []
    · exact h'.nonempty (fun hcs' => hne (by rw [hcs, hcs']; rfl)) hds'
    · exact h.nonempty hcs hds

theorem RunFolded.refl {E : Engine} (hR : Replaces R) {cs : List Node} (hdone : ∀ c ∈ cs, c.Done E)
    (hfits : ∀ c ∈ cs, fits c) : RunFolded E other env R fits cs cs :=
  ⟨hR.refl _, hdone, hfits, Nat.le_refl _, Nat.le_refl _, fun h => h⟩

theorem runFolded_foldRun {E : Engine} (hR : Replaces R) {bound : Nat}
    {fold : List BitVector → BitVector} (hfold : FoldsRuns R fits bound fold) {run : List Node}
    (hconst : ∀ c ∈ run, c.isIntegerConstant = true) (hdone : ∀ c ∈ run, c.Done E)
    (hfits : ∀ c ∈ run, fits c) (hbound : (run.map Node.nBits).sum ≤ bound) :
    RunFolded E other env R fits run (foldRun fold run) := by
  match run with
  | [] => exact .refl hR hdone hfits
  | [c] => exact .refl hR hdone hfits
  | c :: d :: rest =>
    have hvals := @map_eval_constants other env _ hconst
    have hspec := hfold ((c :: d :: rest).map (Node.eval other env)) (by simp) ?_ ?_
    · obtain ⟨hsame, hwidth, hfitsFold⟩ := hspec
      have hlen := length_le_weightAll (c :: d :: rest)
        ((allValid_iff _).mpr fun n hn => (hdone n hn).valid)
      have hfoldRun : foldRun fold (c :: d :: rest) =
          [.constant (fold ((c :: d :: rest).map (Node.eval other env)))
            ((c :: d :: rest).foldl (fun f c => f ||| c.flags) 0)] := by
        rw [← hvals]
        rfl
      rw [hfoldRun]
      refine ⟨hsame, ?_, ?_, ?_, ?_, by simp⟩
      · intro n hn
        cases List.mem_singleton.mp hn
        exact done_constant hwidth
      · intro n hn
        cases List.mem_singleton.mp hn
        exact hfitsFold _
      · rw [weightAll_cons, weight_constant, weightAll_nil, List.length_singleton]
        omega
      · simp
    · intro v hv
      obtain ⟨n, hn, rfl⟩ := List.mem_map.mp hv
      have hnConst := hconst n hn
      have hnFits := hfits n hn
      have hnValid := (hdone n hn).valid
      cases n with
      | constant b f => exact ⟨hnValid, f, hnFits⟩
      | _ => simp [Node.isIntegerConstant] at hnConst
    · rw [map_eval_size]
      exact hbound

/-- Folding the runs of constants keeps what the operands mean together. -/
theorem runFolded_foldRuns {E : Engine} (hR : Replaces R) {bound : Nat}
    {fold : List BitVector → BitVector} (hfold : FoldsRuns R fits bound fold) {cs run : List Node}
    (hconst : ∀ c ∈ run, c.isIntegerConstant = true) (hdone : ∀ c ∈ run ++ cs, c.Done E)
    (hfits : ∀ c ∈ run ++ cs, fits c) (hbound : ((run ++ cs).map Node.nBits).sum ≤ bound) :
    RunFolded E other env R fits (run ++ cs) (foldRuns fold run cs) := by
  induction cs generalizing run with
  | nil =>
    rw [List.append_nil] at *
    exact runFolded_foldRun hR hfold hconst hdone hfits hbound
  | cons c cs ih =>
    rw [foldRuns]
    split
    next hc =>
      have happend : run ++ c :: cs = (run ++ [c]) ++ cs := by simp
      rw [happend] at hdone hfits hbound ⊢
      refine ih (fun d hd => ?_) hdone hfits hbound
      rcases List.mem_append.mp hd with hd | hd
      · exact hconst d hd
      · rw [List.mem_singleton.mp hd]
        exact hc
    next =>
      have hrest : RunFolded E other env R fits cs (foldRuns fold [] cs) := by
        refine ih (fun d hd => absurd hd List.not_mem_nil) (fun d hd => ?_) (fun d hd => ?_) ?_
        · exact hdone d (by simp at hd; simp [hd])
        · exact hfits d (by simp at hd; simp [hd])
        · simp only [List.map_append, List.map_cons, List.sum_append, List.sum_cons,
            List.nil_append] at hbound ⊢
          omega
      have hfirst : RunFolded E other env R fits run (foldRun fold run) := by
        refine runFolded_foldRun hR hfold hconst (fun d hd => hdone d (by simp [hd]))
          (fun d hd => hfits d (by simp [hd])) ?_
        simp only [List.map_append, List.sum_append] at hbound
        omega
      have hone : RunFolded E other env R fits [c] [c] :=
        .refl hR (fun d hd => hdone d (by simp at hd; simp [hd]))
          (fun d hd => hfits d (by simp at hd; simp [hd]))
      exact hfirst.append hR (hone.append hR hrest)

end

theorem foldConstants_cases {fold : List BitVector → BitVector} {op : Operator} {w f : Nat}
    {cs : List Node} {m : Node} (h : foldConstants fold (.interior op w cs f) = some m) :
    foldRuns fold [] cs = [m] ∧ cs.length ≠ 1 ∨
      m = newInteriorOf w op (foldRuns fold [] cs) 0 ∧ (foldRuns fold [] cs).length ≠ cs.length := by
  simp only [foldConstants] at h
  split at h
  next c hds =>
    split at h
    next => cases h
    next hlen =>
      cases Option.some.inj h
      exact Or.inl ⟨hds, hlen⟩
  next =>
    split at h
    next => cases h
    next hlen => exact Or.inr ⟨(Option.some.inj h).symm, hlen⟩

end LoomX.Symbolic
