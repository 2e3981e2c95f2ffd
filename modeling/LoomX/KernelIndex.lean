import Mathlib.Data.List.Lex
import Mathlib.Data.List.Forall2
import Mathlib.Data.Set.Function
import Mathlib.Order.Interval.Set.Defs
import Mathlib.Algebra.BigOperators.Group.List.Basic
import LoomX.KernelTrip

namespace LoomX.MixedRadix

/-- The digits of `x` in the mixed radix `ts`, most significant first. The leading digit is
what is left, so it is bounded by its radix only when `x < ts.prod`. -/
def decode : List Nat → Nat → List Nat
  | [], _ => []
  | _ :: ts, x => x / ts.prod :: decode ts (x % ts.prod)

def encode : List Nat → List Nat → Nat
  | _ :: ts, d :: ds => d * ts.prod + encode ts ds
  | _, _ => 0

def Box (ts : List Nat) : Set (List Nat) := {ds | List.Forall₂ (· < ·) ds ts}

theorem prod_pos_of_forall {ts : List Nat} (h : ∀ t ∈ ts, 0 < t) : 0 < ts.prod := by
  induction ts with
  | nil => simp
  | cons t ts ih =>
    rw [List.prod_cons]
    exact Nat.mul_pos (h t (by simp)) (ih fun s hs => h s (by simp [hs]))

theorem decode_mem_box {ts : List Nat} (h : ∀ t ∈ ts, 0 < t) {x : Nat} (hx : x < ts.prod) :
    decode ts x ∈ Box ts := by
  induction ts generalizing x with
  | nil => exact List.Forall₂.nil
  | cons t ts ih =>
    have hts : ∀ s ∈ ts, 0 < s := fun s hs => h s (by simp [hs])
    have hp := prod_pos_of_forall hts
    rw [List.prod_cons] at hx
    exact List.Forall₂.cons ((Nat.div_lt_iff_lt_mul hp).mpr hx) (ih hts (Nat.mod_lt x hp))

theorem encode_decode {ts : List Nat} (h : ∀ t ∈ ts, 0 < t) {x : Nat} (hx : x < ts.prod) :
    encode ts (decode ts x) = x := by
  induction ts generalizing x with
  | nil =>
    have hx0 : x = 0 := by simpa using hx
    simp [encode, hx0]
  | cons t ts ih =>
    have hts : ∀ s ∈ ts, 0 < s := fun s hs => h s (by simp [hs])
    have hp := prod_pos_of_forall hts
    simp only [decode, encode, ih hts (Nat.mod_lt x hp)]
    exact Nat.div_add_mod' x ts.prod

theorem encode_lt {ts ds : List Nat} (h : ds ∈ Box ts) : encode ts ds < ts.prod := by
  induction h with
  | nil => simp [encode]
  | @cons d t ds ts hd _ ih =>
    rw [List.prod_cons]
    calc d * ts.prod + encode ts ds < d * ts.prod + ts.prod := by omega
      _ = (d + 1) * ts.prod := by ring
      _ ≤ t * ts.prod := Nat.mul_le_mul_right _ hd

theorem decode_encode {ts ds : List Nat} (h : ds ∈ Box ts) : decode ts (encode ts ds) = ds := by
  induction h with
  | nil => rfl
  | @cons d t ds ts _ hds ih =>
    have hlt := encode_lt hds
    have hp : 0 < ts.prod := by omega
    have hdiv : (d * ts.prod + encode ts ds) / ts.prod = d := by
      rw [Nat.add_comm, Nat.add_mul_div_right _ _ hp, Nat.div_eq_of_lt hlt, Nat.zero_add]
    have hmod : (d * ts.prod + encode ts ds) % ts.prod = encode ts ds := by
      rw [Nat.add_comm, Nat.add_mul_mod_self_right, Nat.mod_eq_of_lt hlt]
    simp only [encode, decode, hdiv, hmod, ih]

theorem decode_bijOn {ts : List Nat} (h : ∀ t ∈ ts, 0 < t) :
    Set.BijOn (decode ts) (Set.Iio ts.prod) (Box ts) := by
  refine ⟨fun x hx => decode_mem_box h hx, ?_, ?_⟩
  · intro x hx y hy hxy
    rw [← encode_decode h hx, ← encode_decode h hy, hxy]
  · intro ds hds
    exact ⟨encode ts ds, encode_lt hds, decode_encode hds⟩

/-- Digit lists of numbers below the product are ordered as the numbers are. -/
theorem decode_lt_of_lt {ts : List Nat} (h : ∀ t ∈ ts, 0 < t) {x y : Nat}
    (hy : y < ts.prod) (hxy : x < y) : decode ts x < decode ts y := by
  induction ts generalizing x y with
  | nil =>
    have hy0 : y = 0 := by simpa using hy
    omega
  | cons t ts ih =>
    have hts : ∀ s ∈ ts, 0 < s := fun s hs => h s (by simp [hs])
    have hp := prod_pos_of_forall hts
    rcases Nat.lt_or_ge (x / ts.prod) (y / ts.prod) with hlt | hge
    · exact List.Lex.rel hlt
    · have heq : x / ts.prod = y / ts.prod :=
        Nat.le_antisymm (Nat.div_le_div_right hxy.le) hge
      have hmod : x % ts.prod < y % ts.prod := by
        have hx' := Nat.div_add_mod x ts.prod
        have hy' := Nat.div_add_mod y ts.prod
        rw [heq] at hx'
        omega
      simp only [decode, heq]
      exact List.Lex.cons (ih hts (Nat.mod_lt y hp) hmod)

/-- Peeling the least significant digit: one step of the running remainder. -/
theorem decode_concat (first : Nat) (ts : List Nat) (t x : Nat) :
    decode (first :: (ts ++ [t])) x = decode (first :: ts) (x / t) ++ [x % t] := by
  induction ts generalizing first x with
  | nil => simp [decode]
  | cons s ts ih =>
    have hprod : (s :: (ts ++ [t])).prod = t * (s :: ts).prod := by
      simp only [List.prod_cons, List.prod_append, List.prod_nil]
      ring
    have hmod : x % (t * (s :: ts).prod) / t = x / t % (s :: ts).prod :=
      Nat.mod_mul_right_div_self x t _
    have hlow : x % (t * (s :: ts).prod) % t = x % t :=
      Nat.mod_mod_of_dvd x (Nat.dvd_mul_right t _)
    calc decode (first :: (s :: ts ++ [t])) x
        = x / (t * (s :: ts).prod) :: decode (s :: (ts ++ [t])) (x % (t * (s :: ts).prod)) := by
          rw [← hprod]; rfl
      _ = x / t / (s :: ts).prod :: (decode (s :: ts) (x / t % (s :: ts).prod) ++ [x % t]) := by
          rw [ih, hmod, hlow, Nat.div_div_eq_div_mul]
      _ = decode (first :: s :: ts) (x / t) ++ [x % t] := rfl

end LoomX.MixedRadix

namespace LoomX

open MixedRadix

/-- The value of an index after `k` steps. -/
def indexValue (v : Valuation) (d : DimInfo) (k : Nat) : Int :=
  v.val d.lower + v.val d.step * k

def indexTuple (v : Valuation) (dims : List DimInfo) (ds : List Nat) : List Int :=
  List.zipWith (indexValue v) dims ds

/-- The trip expressions have the values `ts`. -/
def HasTrips (v : Valuation) (dims : List DimInfo) (ts : List Nat) : Prop :=
  List.Forall₂ (fun d (t : Nat) => (tripText d).eval v 0 = some (t : Int)) dims ts

theorem forall₂_concat {α β : Type} {R : α → β → Prop} {xs : List α} {x : α} {ys : List β}
    (h : List.Forall₂ R (xs ++ [x]) ys) :
    ∃ ys' y, List.Forall₂ R xs ys' ∧ R x y ∧ ys = ys' ++ [y] := by
  induction xs generalizing ys with
  | nil =>
    obtain _ | ⟨hy, hnil⟩ := h
    cases hnil
    exact ⟨[], _, .nil, hy, rfl⟩
  | cons z xs ih =>
    obtain _ | ⟨hz, hrest⟩ := h
    obtain ⟨ys', y, hys, hy, rfl⟩ := ih hrest
    exact ⟨_ :: ys', y, .cons hz hys, hy, rfl⟩

/-- The lower bound, the trip and the step of a dimension do not mention the names of indices that
are declared before they are read: its own and those of the dimensions inside it. The upper bound
of the outermost dimension is not read. -/
def IndexNamesApart (dims : List DimInfo) : Prop :=
  ∀ pre d post, dims = pre ++ d :: post →
    ∀ e ∈ d.lower :: d.step :: (if pre = [] then [] else [d.upper]),
      ∀ w ∈ e.varRefs, w.name ∉ (d :: post).map DimInfo.indexName

def indexLine (d : DimInfo) : CExpr :=
  .add (.operand d.lower) (stepMul d (.mod .loo (tripText d)))

def frontLine (d : DimInfo) : CExpr := .add (.operand d.lower) (stepMul d .loo)

/-- The arithmetic of the prologue stays in its types, and the indices in theirs. -/
structure PrologueFits (v : Valuation) (front : DimInfo) (rest : List DimInfo) (first : Nat)
    (ts : List Nat) : Prop where
  total : (totalTrip (front :: rest)).Fits v 0
  trip : ∀ d ∈ front :: rest, (tripText d).Fits v 0
  long : (CType.integer 64 true).contains ((first :: ts).prod : Nat)
  front : ∀ x < first, (frontLine front).Fits v x ∧ front.indexType.contains (indexValue v front x)
  line : ∀ x < (first :: ts).prod, ∀ d ∈ rest,
    (indexLine d).Fits v x ∧ (CExpr.div .loo (tripText d)).Fits v x
  index : List.Forall₂ (fun d t => ∀ q < t, d.indexType.contains (indexValue v d q)) rest ts

namespace CExpr

def operands : CExpr → List Expr
  | operand e => [e]
  | lit _ | loo => []
  | add a b | sub a b | mul a b | div a b | mod a b => a.operands ++ b.operands

theorem type_congr {v v' : Valuation} {e : CExpr} (h : ∀ o ∈ e.operands, v.type o = v'.type o) :
    e.type v = e.type v' := by
  induction e with
  | operand o => exact h o List.mem_cons_self
  | lit | loo => rfl
  | add a b iha ihb | sub a b iha ihb | mul a b iha ihb | div a b iha ihb | mod a b iha ihb =>
    simp only [type, iha fun o ho => h o (List.mem_append_left _ ho),
      ihb fun o ho => h o (List.mem_append_right _ ho)]

/-- Only the operands count. -/
theorem eval_congr {v v' : Valuation} {n : Int} {e : CExpr}
    (h : ∀ o ∈ e.operands, v.val o = v'.val o ∧ v.type o = v'.type o) :
    e.eval v n = e.eval v' n := by
  induction e with
  | operand o => exact congrArg some (h o List.mem_cons_self).1
  | lit | loo => rfl
  | add a b iha ihb | sub a b iha ihb | mul a b iha ihb | div a b iha ihb | mod a b iha ihb =>
    have ha := fun o ho => h o (List.mem_append_left _ ho)
    have hb := fun o ho => h o (List.mem_append_right _ ho)
    simp only [eval, iha ha, ihb hb, type_congr fun o ho => (ha o ho).2,
      type_congr fun o ho => (hb o ho).2]

end CExpr

theorem mem_operands_tripText {d : DimInfo} {o : Expr} (h : o ∈ (tripText d).operands) :
    o ∈ [d.lower, d.step, d.upper] := by
  unfold tripText at h
  split_ifs at h <;> simp [CExpr.operands] at h ⊢ <;> tauto

theorem mem_operands_indexLine {d : DimInfo} {o : Expr} (h : o ∈ (indexLine d).operands) :
    o ∈ [d.lower, d.step, d.upper] := by
  unfold indexLine stepMul at h
  split_ifs at h
  all_goals
    simp only [CExpr.operands, List.mem_append, List.mem_singleton, List.not_mem_nil,
      false_or] at h
  · exact h.elim (fun h => by simp [h]) mem_operands_tripText
  · rcases h with h | h | h
    · simp [h]
    · simp [h]
    · exact mem_operands_tripText h

theorem mem_operands_frontLine {d : DimInfo} {o : Expr} (h : o ∈ (frontLine d).operands) :
    o ∈ [d.lower, d.step] := by
  unfold frontLine stepMul at h
  split_ifs at h <;> simp [CExpr.operands] at h ⊢ <;> tauto

theorem stepMul_integerValue {v : Valuation} {d : DimInfo}
    (hunit : d.unitStep = true → v.val d.step = 1) {e : CExpr} {loo : Int} {k : Nat}
    (he : e.integerValue v loo = some (k : Int)) :
    (CExpr.add (.operand d.lower) (stepMul d e)).integerValue v loo = some (indexValue v d k) := by
  unfold stepMul
  split
  next h => simp [CExpr.integerValue, he, indexValue, hunit h]
  next => simp [CExpr.integerValue, he, indexValue]

theorem tripText_at {v : Valuation} {d : DimInfo} {t : Int} (loo : Int)
    (hfits : (tripText d).Fits v 0) (h : (tripText d).eval v 0 = some t) :
    (tripText d).integerValue v loo = some t := by
  rw [CExpr.eval_of_fits hfits, tripText_integerValue] at h
  rw [tripText_integerValue, h]

theorem indexPrologue_concat (front : DimInfo) (rest : List DimInfo) (d : DimInfo) :
    indexPrologue (front :: (rest ++ [d])) =
      ⟨d.indexName, d.indexType, indexLine d, some (tripText d)⟩ ::
        indexPrologue (front :: rest) := by
  simp [indexPrologue, indexLine]

theorem indexTuple_concat {v : Valuation} {dims : List DimInfo} {d : DimInfo} {ds : List Nat}
    {k : Nat} (h : dims.length = ds.length) :
    indexTuple v (dims ++ [d]) (ds ++ [k]) = indexTuple v dims ds ++ [indexValue v d k] := by
  simp [indexTuple, List.zipWith_append h]

theorem length_decode (ts : List Nat) (x : Nat) : (decode ts x).length = ts.length := by
  induction ts generalizing x with
  | nil => rfl
  | cons t ts ih => simp [decode, ih]

/-- Where none of the declared names is mentioned, the values are those of the launch. -/
theorem eval_values {S : LaunchState} {locals : Locals} {e : CExpr} {loo : Int}
    (h : ∀ o ∈ e.operands, ∀ w ∈ o.varRefs, w.name ∉ locals.map Prod.fst) :
    e.eval (S.values locals) loo = e.eval (S.values []) loo :=
  CExpr.eval_congr fun o ho => S.frame locals o (h o ho)

theorem long_of_le {x y : Nat} (hle : x ≤ y) (h : (CType.integer 64 true).contains (y : Int)) :
    (CType.integer 64 true).contains (x : Int) := by
  have hxy : (x : Int) ≤ y := by exact_mod_cast hle
  exact ⟨le_trans (by decide) (Int.natCast_nonneg x), lt_of_le_of_lt hxy h.2⟩

/-- The running remainder of the prologue produces the mixed-radix digits of the thread id. -/
theorem runIndexPrologue_decode {S : LaunchState} {garbage : Int} {front : DimInfo} {first : Nat}
    {rest post : List DimInfo} {ts : List Nat}
    (hunit : ∀ d ∈ front :: rest, d.unitStep = true → (S.values []).val d.step = 1)
    (htype : ∀ d ∈ front :: rest, d.indexType ≠ .integer 0 true)
    (hnames : IndexNamesApart (front :: (rest ++ post)))
    (hts : HasTrips (S.values []) rest ts) (hpos : ∀ t ∈ ts, 0 < t)
    (htrip : ∀ d ∈ rest, (tripText d).Fits (S.values []) 0)
    (hfront : ∀ y < first, (frontLine front).Fits (S.values []) y ∧
      front.indexType.contains (indexValue (S.values []) front y))
    (hindex : List.Forall₂ (fun d t => ∀ q < t,
      d.indexType.contains (indexValue (S.values []) d q)) rest ts) {x : Nat}
    (hline : ∀ y ≤ x, ∀ d ∈ rest, (indexLine d).Fits (S.values []) y ∧
      (CExpr.div .loo (tripText d)).Fits (S.values []) y)
    (hlong : (CType.integer 64 true).contains (x : Int)) (hx : x < (first :: ts).prod)
    {locals : Locals} (hlocals : locals.map Prod.fst = post.map DimInfo.indexName)
    (indices : List Int) :
    runIndexPrologue S garbage (indexPrologue (front :: rest)) locals x indices =
      some (indexTuple (S.values []) (front :: rest) (decode (first :: ts) x) ++ indices) := by
  induction rest using List.reverseRecOn generalizing ts post x locals indices with
  | nil =>
    cases hts
    have hx' : x < first := by simpa using hx
    obtain ⟨hfits, hcontains⟩ := hfront x hx'
    have hread : (frontLine front).eval (S.values ((front.indexName, garbage) :: locals)) x =
        some (indexValue (S.values []) front x) := by
      rw [eval_values fun o ho w hw => ?_, CExpr.eval_of_fits hfits]
      · exact stepMul_integerValue (hunit front (by simp)) rfl
      · rw [List.map_cons, hlocals]
        exact hnames [] front post rfl o (by simpa using mem_operands_frontLine ho) w hw
    have hconvert := CType.convert_of_contains (htype front (by simp)) hcontains
    show (do
      let i := front.indexType.convert
        (← (frontLine front).eval (S.values ((front.indexName, garbage) :: locals)) x)
      some (i :: indices)) = _
    simp [hread, hconvert, indexTuple, decode]
  | append_singleton rest d ih =>
    obtain ⟨ts', t, hts', hlast, rfl⟩ := forall₂_concat hts
    obtain ⟨us, u, hindex', hcontains, heq⟩ := forall₂_concat hindex
    obtain ⟨rfl, rfl⟩ : us = ts' ∧ u = t := by simpa using heq.symm
    have ht : 0 < u := hpos u (by simp)
    have hnames' : ∀ o ∈ [d.lower, d.step, d.upper], ∀ w ∈ o.varRefs,
        w.name ∉ (d :: post).map DimInfo.indexName := fun o ho =>
      hnames (front :: rest) d post (by simp) o (by simpa using ho)
    have hvalue := tripText_at x (htrip d (by simp)) hlast
    obtain ⟨hfits, hdivfits⟩ := hline x le_rfl d (by simp)
    have hmod : (CExpr.mod .loo (tripText d)).integerValue (S.values []) x =
        some ((x % u : Nat) : Int) := by
      simp [CExpr.integerValue, hvalue, ht.ne', Int.tmod_eq_emod_of_nonneg]
    have hread : (indexLine d).eval (S.values ((d.indexName, garbage) :: locals)) x =
        some (indexValue (S.values []) d (x % u)) := by
      rw [eval_values fun o ho w hw => ?_, CExpr.eval_of_fits hfits]
      · exact stepMul_integerValue (hunit d (by simp)) hmod
      · rw [List.map_cons, hlocals]
        exact hnames' o (mem_operands_indexLine ho) w hw
    have hconvert := CType.convert_of_contains (htype d (by simp))
      (hcontains (x % u) (Nat.mod_lt x ht))
    have hdiv : (CExpr.div .loo (tripText d)).eval
        (S.values ((d.indexName, indexValue (S.values []) d (x % u)) :: locals)) x =
        some ((x / u : Nat) : Int) := by
      rw [eval_values fun o ho w hw => ?_, CExpr.eval_of_fits hdivfits]
      · simp [CExpr.integerValue, hvalue, ht.ne']
      · rw [List.map_cons, hlocals]
        exact hnames' o (mem_operands_tripText (by simpa [CExpr.operands] using ho)) w hw
    have hle : x / u ≤ x := Nat.div_le_self x u
    have hlong' := long_of_le hle hlong
    have hx' : x / u < (first :: us).prod := by
      rw [Nat.div_lt_iff_lt_mul ht]
      simpa [Nat.mul_assoc] using hx
    have hrest := ih (fun e he => hunit e (by simp at he ⊢; tauto))
      (fun e he => htype e (by simp at he ⊢; tauto))
      (by simpa using hnames) hts' (fun s hs => hpos s (by simp [hs]))
      (fun e he => htrip e (by simp [he])) hindex'
      (fun y hy e he => hline y (hy.trans hle) e (by simp [he])) hlong' hx'
      (by simp [hlocals] : ((d.indexName, indexValue (S.values []) d (x % u)) :: locals).map
        Prod.fst = (d :: post).map DimInfo.indexName)
      (indexValue (S.values []) d (x % u) :: indices)
    have hlen : (front :: rest).length = (decode (first :: us) (x / u)).length := by
      rw [length_decode]
      simpa using hts'.length_eq
    rw [indexPrologue_concat, decode_concat, ← List.cons_append, indexTuple_concat hlen]
    simp only [runIndexPrologue, hread, hconvert, hdiv, Option.bind_eq_bind, Option.bind_some,
      CType.convert_of_contains (by simp : CType.integer 64 true ≠ .integer 0 true) hlong']
    rw [hrest, List.append_assoc, List.singleton_append]

/-- The total is the product of the trips. -/
theorem total_eval {v : Valuation} {dims : List DimInfo} {ts : List Nat}
    (h : HasTrips v dims ts) (htrip : ∀ d ∈ dims, (tripText d).Fits v 0)
    (htotal : (totalTrip dims).Fits v 0) :
    (totalTrip dims).eval v 0 = some ((ts.prod : Nat) : Int) := by
  have hcast : List.Forall₂ (fun d t => (tripText d).integerValue v 0 = some t) dims
      (ts.map fun t : Nat => (t : Int)) := by
    rw [List.forall₂_map_right_iff]
    clear htotal
    induction h with
    | nil => exact .nil
    | cons hd _ ih =>
      exact .cons (tripText_at 0 (htrip _ List.mem_cons_self) hd)
        (ih fun d hd => htrip d (List.mem_cons_of_mem _ hd))
  rw [CExpr.eval_of_fits htotal, totalTrip_eval hcast, Nat.cast_list_prod]

/-- The index tuples of the source nest, by the number of steps taken in each dimension. -/
def indexTuples (v : Valuation) (dims : List DimInfo) (ts : List Nat) : Set (List Int) :=
  indexTuple v dims '' Box ts

theorem indexTuple_injOn {v : Valuation} {dims : List DimInfo} {ts : List Nat}
    (hlen : dims.length = ts.length) (hstep : ∀ d ∈ dims, v.val d.step ≠ 0) :
    Set.InjOn (indexTuple v dims) (Box ts) := by
  induction dims generalizing ts with
  | nil =>
    intro ds hds es hes _
    have : ts = [] := by simpa using hlen.symm
    subst this
    cases hds
    cases hes
    rfl
  | cons d dims ih =>
    intro ds hds es hes heq
    cases ts with
    | nil => simp at hlen
    | cons t ts =>
      obtain _ | ⟨hk, hds⟩ := hds
      obtain _ | ⟨hl, hes⟩ := hes
      rename_i k ds l es
      simp only [indexTuple, List.zipWith_cons_cons, List.cons.injEq, indexValue] at heq
      have hkl : v.val d.step * k = v.val d.step * l := by omega
      have hnat : k = l := by
        exact_mod_cast mul_left_cancel₀ (hstep d (by simp)) hkl
      have htail := ih (by simpa using hlen) (fun e he => hstep e (by simp [he])) hds hes heq.2
      rw [hnat, htail]

theorem step_ne_zero_of_trip {v : Valuation} {d : DimInfo} {t : Int}
    (hunit : d.unitStep = true → v.val d.step = 1) (h : (tripText d).integerValue v 0 = some t) :
    v.val d.step ≠ 0 := by
  intro h0
  rw [tripText_integerValue, tripValue, h0] at h
  cases hu : d.unitStep with
  | true => simp [hunit hu] at h0
  | false => simp [hu] at h

theorem hasTrips_step_ne_zero {v : Valuation} {dims : List DimInfo} {ts : List Nat}
    (h : HasTrips v dims ts) (hunit : ∀ d ∈ dims, d.unitStep = true → v.val d.step = 1)
    (htrip : ∀ d ∈ dims, (tripText d).Fits v 0) : ∀ d ∈ dims, v.val d.step ≠ 0 := by
  induction h with
  | nil => simp
  | cons ht _ ih =>
    intro d hd
    rcases List.mem_cons.mp hd with rfl | hd
    · exact step_ne_zero_of_trip (hunit d (by simp)) (tripText_at 0 (htrip d (by simp)) ht)
    · exact ih (fun e he => hunit e (by simp [he])) (fun e he => htrip e (by simp [he])) d hd

theorem dimInfo_unit {loop : ForStatement} {depth : Nat} {nest : List (ForStatement × DimInfo)}
    (h : collapsedDims loop depth = some nest) (v : Valuation) :
    ∀ d ∈ nest.map Prod.snd, d.unitStep = true → v.val d.step = 1 := by
  intro d hd hu
  obtain ⟨p, hp, rfl⟩ := List.mem_map.mp hd
  obtain ⟨c, -, he⟩ := collapsedDims_canonical h hp
  rw [he] at hu ⊢
  have hstep : c.stride = .intVal .int 1 := by simpa [dimInfo] using hu
  simp only [dimInfo, hstep, v.val_intVal]

theorem dimInfo_type {loop : ForStatement} {depth : Nat} {nest : List (ForStatement × DimInfo)}
    (h : collapsedDims loop depth = some nest) :
    ∀ d ∈ nest.map Prod.snd, d.indexType ≠ .integer 0 true := by
  intro d hd
  obtain ⟨p, hp, rfl⟩ := List.mem_map.mp hd
  obtain ⟨c, hc, he⟩ := collapsedDims_canonical h hp
  obtain ⟨rel, hform, -⟩ := canonicalAnalyze_ok hc
  rw [he]
  exact ne_of_isStrictIntegerType (isCanonicalForLoop_some hform).2.1

def threadIndices (S : LaunchState) (garbage : Int) (dims : List DimInfo) (id : Nat) : List Int :=
  match runThread S garbage dims id with
  | .indices is => is
  | _ => []

/-- The threads below the product of the trips run the index tuples of the nest, each once and in
source order, and the others return. -/
structure Decomposes (S : LaunchState) (garbage : Int) (dims : List DimInfo) (ts : List Nat) :
    Prop where
  runs : ∀ x, x < ts.prod → runThread S garbage dims x = .indices (threadIndices S garbage dims x)
  returns : ∀ x, ts.prod ≤ x → runThread S garbage dims x = .returned
  bijective : Set.BijOn (threadIndices S garbage dims) (Set.Iio ts.prod)
    (indexTuples (S.values []) dims ts)
  ordered : ∀ x y, x < y → y < ts.prod → ∃ ds ∈ Box ts, ∃ es ∈ Box ts,
    threadIndices S garbage dims x = indexTuple (S.values []) dims ds ∧
    threadIndices S garbage dims y = indexTuple (S.values []) dims es ∧ ds < es

theorem runThread_eq {S : LaunchState} {garbage : Int} {front : DimInfo} {rest : List DimInfo}
    {first : Nat} {ts : List Nat}
    (hunit : ∀ d ∈ front :: rest, d.unitStep = true → (S.values []).val d.step = 1)
    (htype : ∀ d ∈ front :: rest, d.indexType ≠ .integer 0 true)
    (hnames : IndexNamesApart (front :: rest))
    (hts : HasTrips (S.values []) (front :: rest) (first :: ts))
    (hpos : ∀ t ∈ first :: ts, 0 < t) (hfits : PrologueFits (S.values []) front rest first ts)
    (x : Nat) :
    runThread S garbage (front :: rest) x =
      if x < (first :: ts).prod then
        .indices (indexTuple (S.values []) (front :: rest) (decode (first :: ts) x))
      else .returned := by
  have htotal := total_eval hts hfits.trip hfits.total
  have hconvert := CType.convert_of_contains (by simp) hfits.long
  obtain _ | ⟨-, hrest⟩ := hts
  have hguard : (((first :: ts).prod : Nat) : Int) ≤ x ↔ ¬x < (first :: ts).prod := by omega
  simp only [runThread, htotal, hconvert, ge_iff_le, hguard]
  by_cases hx : x < (first :: ts).prod
  · have hrun : runIndexPrologue S garbage (indexPrologue (front :: rest)) [] x [] = _ :=
      runIndexPrologue_decode hunit htype
        (by simpa using hnames : IndexNamesApart (front :: (rest ++ []))) hrest
        (fun t ht => hpos t (by simp [ht])) (fun d hd => hfits.trip d (by simp [hd])) hfits.front
        hfits.index (fun y hy => hfits.line y (lt_of_le_of_lt hy hx))
        (long_of_le hx.le hfits.long) hx rfl []
    rw [if_neg (not_not.mpr hx), if_pos hx, hrun, List.append_nil]
  · rw [if_pos hx, if_neg hx]

/-- The variables with these values, but for those that a declaration hides. -/
def launchOf (ρ : Var → Int) : LaunchState where
  values locals := .ofVars fun w => (locals.lookup w.name).getD (ρ w)
  frame locals e h := by
    refine ⟨value_congr fun w hw => ?_, rfl⟩
    have hnone : locals.lookup w.name = none := by
      rw [List.lookup_eq_none_iff]
      intro p hp
      simpa using fun heq => h w hw (List.mem_map.mpr ⟨p, hp, heq.symm⟩)
    rw [hnone]
    rfl
  hides locals w n h := by simp [Valuation.ofVars, Expr.value, h]

theorem fillDims_apart : IndexNamesApart (fillDims.map Prod.snd) := by
  intro pre d post heq
  match pre with
  | [] =>
    cases heq
    decide
  | [_] =>
    cases heq
    decide
  | _ :: _ :: pre =>
    have hlen := congrArg List.length heq
    simp [show fillDims.length = 2 by decide] at hlen

/-- `for (i = j; i < 4; i++) for (j = 0; j < 2; j++) ;` -/
def shadowNest : ForStatement :=
  let i := Expr.varRef (intVar 0 "i")
  let j := Expr.varRef (intVar 1 "j")
  ⟨.expr (.assign i j), .binary .lt i (.intVal .int 4), .plusPlus i,
    .forLoop (.expr (.assign j (.intVal .int 0))) (.binary .lt j (.intVal .int 2)) (.plusPlus j)
      .empty⟩

def shadowDims : List (ForStatement × DimInfo) := (collapsedDims shadowNest 2).getD []

end LoomX
