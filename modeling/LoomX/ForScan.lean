import LoomX.LoopFusion.MapRoundTrip
import LoomX.ForGrammar

namespace LoomX

namespace LoopFusion

/-- A statement up to the first semicolon at depth zero. -/
def splitAtSemicolon (depth : Int) : List Char → List Char × List Char
  | [] => ([], [])
  | c :: s =>
    let next (depth : Int) := (c :: (splitAtSemicolon depth s).1, (splitAtSemicolon depth s).2)
    if c = '(' ∨ c = '\x7b' then next (depth + 1)
    else if c = ')' ∨ c = '\x7d' then next (depth - 1)
    else if c = ';' ∧ depth = 0 then ([c], s)
    else next depth

/-- What is read of a loop: where it ends, where its body starts, the header and the body. -/
structure LoopText where
  forEnd : Nat
  bodyStart : Nat
  header : List Char
  inner : List Char
  deriving DecidableEq, Repr

/-- `parseLoop`, with the loop at `start`. -/
def parseLoop (s : List Char) (start : Nat) : Option LoopText :=
  match (s.drop start).dropWhile (· ≠ '(') with
  | [] => none
  | o :: rest =>
    match cutAtClose id '(' ')' 1 rest with
    | none => none
    | some (inside, close, after) =>
      let header := (s.drop start).takeWhile (· ≠ '(') ++ o :: inside ++ [close]
      let bodyAt := start + header.length + (after.takeWhile isBlankOrReturn).length
      match after.dropWhile isBlankOrReturn with
      | [] => none
      | b :: body =>
        if b = '\x7b' then
          match cutAtClose id '\x7b' '\x7d' 1 body with
          | none => none
          | some (block, _, _) => some ⟨bodyAt + block.length + 2, bodyAt, normalize header, block⟩
        else
          let statement := (splitAtSemicolon 0 (b :: body)).1
          some ⟨bodyAt + statement.length, bodyAt, normalize header, statement⟩

example : (parseLoop "for (;;) a[i] = 0; b = 1;".toList 0).map LoopText.forEnd = some 18 := by
  decide

end LoopFusion

variable {α : Type}

/-- Where a loop body ends for a scan that skips the characters of `blank` and takes a body with
no brace up to where `scan` ends it. -/
def bodyExtent (char : α → Char) (blank : Char → Bool) (scan : List α → Nat) (s : List α) :
    Option Nat :=
  match s.dropWhile fun x => blank (char x) with
  | [] => none
  | b :: body =>
    let skipped := (s.takeWhile fun x => blank (char x)).length
    if char b = '\x7b' then
      (cutAtClose char '\x7b' '\x7d' 1 body).map fun p => skipped + (p.1.length + 2)
    else some (skipped + scan (b :: body))

/-- Where such a scan ends a loop. -/
def forExtent (char : α → Char) (blank : Char → Bool) (scan : List α → Nat) (s : List α) :
    Option Nat :=
  match s.dropWhile fun x => char x ≠ '(' with
  | [] => none
  | _ :: rest =>
    (cutAtClose char '(' ')' 1 rest).bind fun p =>
      (bodyExtent char blank scan p.2.2).map fun n =>
        (s.takeWhile fun x => char x ≠ '(').length + (p.1.length + 2) + n

def statementLength (s : List Cell) : Nat := (splitStatement 0 0 s).1.length

/-- `findForStatementEnd` in the text from the loop on. -/
theorem splitFor_length (s : List Cell) : (splitFor s).1.length =
    (forExtent (fun c : Cell => c.1) isBlankOrNewline statementLength s).getD s.length := by
  unfold splitFor forExtent
  split
  next h => rw [h]; rfl
  next o inner h =>
    rw [h]
    dsimp only
    split
    next hcut => rw [hcut]; rfl
    next header close after hcut =>
      rw [hcut, Option.bind_some]
      unfold bodyExtent
      simp only [spanBlank]
      split
      next hbody =>
        have hnil := (Prod.mk.inj hbody).2
        rw [hnil]
        rfl
      next blank b body hbody =>
        obtain ⟨hblank, hrest⟩ := Prod.mk.inj hbody
        rw [hrest, hblank]
        dsimp only
        split
        next =>
          split
          next hbrace => rw [hbrace]; rfl
          next block brace rest hbrace =>
            rw [hbrace]
            simp only [Option.map_some, Option.getD_some, List.length_append, List.length_cons,
              List.length_nil]
            omega
        next =>
          simp only [Option.map_some, Option.getD_some, List.length_append, List.length_cons,
            statementLength]
          omega

namespace LoopFusion

def statementLength (s : List Char) : Nat := (splitAtSemicolon 0 s).1.length

theorem parseLoop_forEnd (s : List Char) (start : Nat) :
    (parseLoop s start).map LoopText.forEnd =
      (forExtent id isBlankOrReturn statementLength (s.drop start)).map (start + ·) := by
  have heta : ∀ l : List Char, (l.takeWhile fun c => isBlankOrReturn c) =
      l.takeWhile isBlankOrReturn := fun _ => rfl
  unfold parseLoop forExtent
  simp only [id_eq]
  split
  next h => rw [h]; rfl
  next o inner h =>
    rw [h]
    dsimp only
    split
    next hcut => rw [hcut]; rfl
    next header close after hcut =>
      rw [hcut, Option.bind_some]
      unfold bodyExtent
      simp only [id_eq]
      split
      next hbody => rw [hbody]; rfl
      next b body hbody =>
        rw [hbody]
        dsimp only
        split
        next =>
          split
          next hbrace => rw [hbrace]; rfl
          next block brace rest hbrace =>
            rw [hbrace]
            simp only [Option.map_some, List.length_append, List.length_cons, List.length_nil,
              Option.some.injEq, heta]
            omega
        next =>
          simp only [Option.map_some, List.length_append, List.length_cons, List.length_nil,
            statementLength, Option.some.injEq, heta]
          omega

end LoopFusion

section
variable {char : α → Char} {o c : Char} {blank : Char → Bool} {scan : List α → Nat}
  {s t u : List α} {n : Nat}

theorem cutAtClose_map (char : α → Char) (o c : Char) (n : Nat) (s : List α) :
    cutAtClose id o c n (s.map char) =
      (cutAtClose char o c n s).map fun p => (p.1.map char, char p.2.1, p.2.2.map char) := by
  induction s generalizing n with
  | nil => rfl
  | cons x s ih =>
    rw [List.map_cons, cutAtClose, cutAtClose]
    simp only [id_eq, ih]
    split
    next => simp [Option.map_map, Function.comp_def]
    next =>
      split
      next =>
        split
        next => rfl
        next => simp [Option.map_map, Function.comp_def]
      next => simp [Option.map_map, Function.comp_def]

theorem cutAtClose_of_balanced {x : α} (h : Balanced o c (s.map char)) (hne : o ≠ c)
    (hx : char x = c) (t : List α) : cutAtClose char o c 1 (s ++ x :: t) = some (s, x, t) := by
  have hmap := cutAtClose_map char o c 1 (s ++ x :: t)
  rw [List.map_append, List.map_cons, hx, h.cutAtClose hne] at hmap
  obtain ⟨⟨b, y, a⟩, hcut, heq⟩ := Option.map_eq_some_iff.mp hmap.symm
  obtain ⟨hb, -⟩ := Prod.mk.inj heq
  have hlen : s.length = b.length := by
    rw [← List.length_map char, ← hb, List.length_map]
  obtain ⟨rfl, hrest⟩ := List.append_inj (cutAtClose_eq hcut) hlen
  obtain ⟨rfl, rfl⟩ := List.cons.inj hrest
  exact hcut

/-- What stands before the closing delimiter keeps `n` of them open, and closes all but one. -/
theorem depth_of_cutAtClose {b a : List α} {x : α} (hn : 0 < n)
    (h : cutAtClose char o c n s = some (b, x, a)) :
    char x = c ∧ (n : Int) + depthOf o c (b.map char) = 1 ∧
      ∀ p, p <+: b.map char → 0 < (n : Int) + depthOf o c p := by
  induction s generalizing n b with
  | nil => simp [cutAtClose] at h
  | cons y s ih =>
    have hcons : ∀ {m : Nat}, 0 < m → (m : Int) = n + bracketStep o c 0 (char y) →
        (cutAtClose char o c m s).map (fun p => (y :: p.1, p.2)) = some (b, x, a) →
        char x = c ∧ (n : Int) + depthOf o c (b.map char) = 1 ∧
          ∀ p, p <+: b.map char → 0 < (n : Int) + depthOf o c p := by
      intro m hm hstep hcut
      obtain ⟨⟨b', x', a'⟩, hrest, heq⟩ := Option.map_eq_some_iff.mp hcut
      cases heq
      obtain ⟨hx, hdepth, hpos⟩ := ih hm hrest
      refine ⟨hx, ?_, fun p hp => ?_⟩
      · rw [List.map_cons, depthOf_cons]
        dsimp only
        omega
      · cases p with
        | nil => simpa [depthOf] using hn
        | cons z p =>
          obtain ⟨hz, hprefix⟩ := List.cons_prefix_cons.mp hp
          have := hpos p hprefix
          rw [hz, depthOf_cons]
          omega
    rw [cutAtClose] at h
    split at h
    next hy => exact hcons (Nat.succ_pos n) (by simp [bracketStep, hy]) h
    next hno =>
      split at h
      next hy =>
        split at h
        next hone =>
          cases h
          refine ⟨hy, by simp [depthOf, hone], fun p hp => ?_⟩
          rw [List.prefix_nil.mp hp]
          simpa [depthOf] using hn
        next hone =>
          have hstep : bracketStep o c 0 (char y) = -1 := by
            rw [bracketStep, if_neg hno, if_pos hy, Int.zero_sub]
          exact hcons (by omega) (by omega) h
      next hy => exact hcons hn (by simp [bracketStep, hno, hy]) h

theorem balanced_of_cutAtClose {b a : List α} {x : α}
    (h : cutAtClose char o c 1 s = some (b, x, a)) : char x = c ∧ Balanced o c (b.map char) := by
  obtain ⟨hx, hdepth, hpos⟩ := depth_of_cutAtClose Nat.one_pos h
  refine ⟨hx, by omega, fun p hp => ?_⟩
  have := hpos p hp
  omega

theorem takeWhile_dropWhile_cons {p : α → Bool} {gap : List α} {x : α}
    (hgap : ∀ y ∈ gap, p y = true) (hx : p x = false) :
    (gap ++ x :: u).takeWhile p = gap ∧ (gap ++ x :: u).dropWhile p = x :: u := by
  have hstop : ¬p x = true := by simp [hx]
  rw [List.takeWhile_append_of_pos hgap, List.dropWhile_append_of_pos hgap,
    List.takeWhile_cons_of_neg hstop, List.dropWhile_cons_of_neg hstop, List.append_nil]
  exact ⟨rfl, rfl⟩

theorem dropWhile_cons_eq {p : α → Bool} {rest : List α} {x : α} (h : s.dropWhile p = x :: rest) :
    s = s.takeWhile p ++ x :: rest ∧ (∀ y ∈ s.takeWhile p, p y = true) ∧ p x = false := by
  refine ⟨by rw [← h, List.takeWhile_append_dropWhile], fun y hy => List.mem_takeWhile_imp hy, ?_⟩
  have hhead := List.head?_dropWhile_not p s
  rw [h] at hhead
  simpa using hhead

/-- A text of which a part of at most `s.length` characters is cut off. -/
theorem append_eq_cut {P r : List α} (h : s ++ t = P ++ r) (hlen : P.length ≤ s.length) :
    ∃ q, s = P ++ q ∧ r = q ++ t := by
  obtain ⟨q, hP, hr⟩ | ⟨q, hs, ht⟩ := List.append_eq_append_iff.mp h
  · have hq : q = [] := List.eq_nil_of_length_eq_zero (by
      have := congrArg List.length hP
      rw [List.length_append] at this
      omega)
    exact ⟨[], by simp [hP, hq], by simp [hr, hq]⟩
  · exact ⟨q, hs, ht⟩

/-- A body in braces after some blanks. -/
def InBraces (char : α → Char) (blank : Char → Bool) (r : List α) : Prop :=
  ∃ gap op block cl, r = gap ++ op :: (block ++ [cl]) ∧ (∀ x ∈ gap, blank (char x) = true) ∧
    char op = '\x7b' ∧ char cl = '\x7d' ∧ Balanced '\x7b' '\x7d' (block.map char)

/-- A body that does not start with a brace, and ends where the scan ends. -/
def ToScanEnd (char : α → Char) (blank : Char → Bool) (scan : List α → Nat) (r t : List α) : Prop :=
  ∃ gap b body, r = gap ++ b :: body ∧ (∀ x ∈ gap, blank (char x) = true) ∧
    blank (char b) = false ∧ char b ≠ '\x7b' ∧ scan (b :: body ++ t) = (b :: body).length

theorem bodyExtent_iff {r : List α} (hbrace : blank '\x7b' = false)
    (hscan : ∀ b body, 0 < scan (b :: body)) :
    bodyExtent char blank scan (r ++ t) = some r.length ↔
      InBraces char blank r ∨ ToScanEnd char blank scan r t := by
  refine ⟨fun h => ?_, fun h => ?_⟩
  · unfold bodyExtent at h
    split at h
    next => cases h
    next b body hdrop =>
      obtain ⟨heq, hgap, hb⟩ := dropWhile_cons_eq hdrop
      dsimp only at h
      split at h
      next hopen =>
        obtain ⟨⟨block, cl, after⟩, hcut, hlen⟩ := Option.map_eq_some_iff.mp h
        obtain ⟨hcl, hblock⟩ := balanced_of_cutAtClose hcut
        rw [cutAtClose_eq hcut] at heq
        have hsplit : r ++ t = ((r ++ t).takeWhile (fun x => blank (char x)) ++
            b :: (block ++ [cl])) ++ after := by
          simpa using heq
        dsimp only at hlen
        obtain ⟨q, hr, -⟩ := append_eq_cut hsplit (by simp; omega)
        have hq : q = [] := List.eq_nil_of_length_eq_zero (by
          have := congrArg List.length hr
          simp only [List.length_append, List.length_cons, List.length_nil] at this
          omega)
        rw [hq, List.append_nil] at hr
        exact Or.inl ⟨_, b, block, cl, hr, hgap, hopen, hcl, hblock⟩
      next hopen =>
        have hlen := Option.some.inj h
        have hpos := hscan b body
        obtain ⟨q, hr, hq⟩ := append_eq_cut heq (by omega)
        cases q with
        | nil =>
          rw [List.append_nil] at hr
          rw [← hr] at hlen
          omega
        | cons x q =>
          rw [List.cons_append] at hq
          obtain ⟨rfl, rfl⟩ := List.cons.inj hq
          refine Or.inr ⟨_, b, q, hr, hgap, hb, hopen, ?_⟩
          have hrlen := congrArg List.length hr
          rw [List.length_append] at hrlen
          rw [List.cons_append]
          omega
  · obtain ⟨gap, op, block, cl, rfl, hgap, hopen, hcl, hblock⟩ |
      ⟨gap, b, body, rfl, hgap, hb, hopen, hend⟩ := h
    · have hstop : blank (char op) = false := by rw [hopen, hbrace]
      have hsplit : gap ++ op :: (block ++ [cl]) ++ t = gap ++ op :: (block ++ cl :: t) := by simp
      obtain ⟨htake, hdrop⟩ := takeWhile_dropWhile_cons (p := fun x => blank (char x))
        (u := block ++ cl :: t) hgap hstop
      rw [hsplit, bodyExtent, hdrop, htake]
      dsimp only
      rw [if_pos hopen, cutAtClose_of_balanced hblock (by decide) hcl]
      simp
    · have hsplit : gap ++ b :: body ++ t = gap ++ b :: (body ++ t) := by simp
      obtain ⟨htake, hdrop⟩ := takeWhile_dropWhile_cons (p := fun x => blank (char x))
        (u := body ++ t) hgap hb
      rw [hsplit, bodyExtent, hdrop, htake]
      dsimp only
      rw [if_neg hopen, ← List.cons_append, hend, List.length_append]

theorem forExtent_iff : forExtent char blank scan (s ++ t) = some s.length ↔
    ∃ front op header cl r, s = front ++ op :: (header ++ cl :: r) ∧
      (∀ x ∈ front, char x ≠ '(') ∧ char op = '(' ∧ char cl = ')' ∧
      Balanced '(' ')' (header.map char) ∧
      bodyExtent char blank scan (r ++ t) = some r.length := by
  refine ⟨fun h => ?_, fun h => ?_⟩
  · unfold forExtent at h
    split at h
    next => cases h
    next op rest hdrop =>
      obtain ⟨heq, hfront, hop⟩ := dropWhile_cons_eq hdrop
      obtain ⟨⟨header, cl, after⟩, hcut, hbody⟩ := Option.bind_eq_some_iff.mp h
      obtain ⟨n, hextent, hlen⟩ := Option.map_eq_some_iff.mp hbody
      obtain ⟨hcl, hheader⟩ := balanced_of_cutAtClose hcut
      rw [cutAtClose_eq hcut] at heq
      have hsplit : s ++ t = ((s ++ t).takeWhile (fun x => char x ≠ '(') ++
          op :: (header ++ [cl])) ++ after := by
        simpa using heq
      dsimp only at hlen hextent
      obtain ⟨r, hs, hr⟩ := append_eq_cut hsplit (by simp at hlen ⊢; omega)
      refine ⟨_, op, header, cl, r, by simpa using hs, fun x hx => of_decide_eq_true (hfront x hx),
        by simpa using hop, hcl, hheader, ?_⟩
      rw [← hr, hextent]
      have hslen := congrArg List.length hs
      simp only [List.length_append, List.length_cons, List.length_nil] at hslen
      congr 1
      omega
  · obtain ⟨front, op, header, cl, r, rfl, hfront, hop, hcl, hheader, hbody⟩ := h
    have hsplit : front ++ op :: (header ++ cl :: r) ++ t =
        front ++ op :: (header ++ cl :: (r ++ t)) := by simp
    obtain ⟨htake, hdrop⟩ := takeWhile_dropWhile_cons (p := fun x => decide (char x ≠ '('))
      (u := header ++ cl :: (r ++ t)) (x := op) (fun x hx => by simpa using hfront x hx)
      (by simp [hop])
    rw [hsplit, forExtent, hdrop, htake]
    dsimp only
    rw [cutAtClose_of_balanced hheader (by decide) hcl, Option.bind_some, hbody]
    simp only [Option.map_some, List.length_append, List.length_cons, Option.some.injEq]
    omega

end

end LoomX
