import LoomX.Hoist
import Mathlib.Data.List.TakeWhile

namespace LoomX

theorem spanBlank_append (s : List Cell) : (spanBlank s).1 ++ (spanBlank s).2 = s := by
  exact List.takeWhile_append_dropWhile

theorem spanBlank_blank {s : List Cell} {c : Cell} (h : c ∈ (spanBlank s).1) :
    isBlankOrNewline c.1 = true := by
  exact List.mem_takeWhile_imp (p := fun c : Cell => isBlankOrNewline c.1) h

theorem splitLine_append (s : List Cell) : (splitLine s).1 ++ (splitLine s).2 = s := by
  induction s with
  | nil => rfl
  | cons c s ih =>
    unfold splitLine
    split
    next => rfl
    next => simp [ih]

theorem splitLine_ne_nil {s : List Cell} (h : s ≠ []) : (splitLine s).1 ≠ [] := by
  cases s with
  | nil => exact absurd rfl h
  | cons c s =>
    unfold splitLine
    split <;> simp

theorem splitLine_length_lt {s : List Cell} (h : s ≠ []) : (splitLine s).2.length < s.length := by
  have hlen := congrArg List.length (splitLine_append s)
  have hpos := List.length_pos_of_ne_nil (splitLine_ne_nil h)
  rw [List.length_append] at hlen
  omega

theorem splitPragma_append (previous : Char) (s : List Cell) :
    (splitPragma previous s).1 ++ (splitPragma previous s).2 = s := by
  induction s generalizing previous with
  | nil => rfl
  | cons c s ih =>
    unfold splitPragma
    split
    next => rfl
    next => simp [ih]

theorem splitStatement_append (braces parens : Nat) (s : List Cell) :
    (splitStatement braces parens s).1 ++ (splitStatement braces parens s).2 = s := by
  induction s generalizing braces parens with
  | nil => rfl
  | cons c s ih =>
    unfold splitStatement
    split_ifs <;> simp [ih]

theorem splitFor_append (s : List Cell) : (splitFor s).1 ++ (splitFor s).2 = s := by
  have hs : s.takeWhile (fun c => decide (c.1 ≠ '(')) ++ s.dropWhile _ = s :=
    List.takeWhile_append_dropWhile
  unfold splitFor
  split
  next => simp
  next o inner h =>
    rw [h] at hs
    split
    next => simp
    next header close after hclose =>
      have hinner := cutAtClose_eq hclose
      have hafter := spanBlank_append after
      split
      next => simp
      next blank b body hb =>
        rw [hb] at hafter
        split
        next =>
          split
          next => simp
          next block brace rest hbrace =>
            have hbody := cutAtClose_eq hbrace
            simpa [hinner, ← hafter, hbody] using hs
        next =>
          have hstmt := splitStatement_append 0 0 (b :: body)
          simpa [hinner, ← hafter, hstmt] using hs

theorem skipGapFrom_append (fuel : Nat) (s : List Cell) :
    (skipGapFrom fuel s).1.flatMap GapPiece.cells ++ (skipGapFrom fuel s).2 = s := by
  induction fuel generalizing s with
  | zero => rfl
  | succ fuel ih =>
    have hblank := spanBlank_append s
    have hline := splitLine_append (spanBlank s).2
    have hafter := ih (splitLine (spanBlank s).2).2
    simp only [skipGapFrom]
    split_ifs with h1 h2 h3
    · simpa [GapPiece.cells, h1] using hblank
    · simp [GapPiece.cells, hafter, hline, hblank]
    · simp [GapPiece.cells, hafter, hline, hblank]
    · simpa [GapPiece.cells] using hblank

theorem skipGap_append (s : List Cell) :
    (skipGap s).1.flatMap GapPiece.cells ++ (skipGap s).2 = s := skipGapFrom_append _ s

theorem gatherFrom_append (fuel : Nat) (s : List Cell) :
    (gatherFrom fuel s).1.flatMap GatheredLoop.cells ++ (gatherFrom fuel s).2.2 = s := by
  induction fuel generalizing s with
  | zero => rfl
  | succ fuel ih =>
    have hgap := skipGap_append s
    have hpragma := splitPragma_append ' ' (skipGap s).2
    have hlead := skipGap_append (splitPragma ' ' (skipGap s).2).2.tail
    have hfor := splitFor_append (skipGap (splitPragma ' ' (skipGap s).2).2.tail).2
    have hrest := ih (splitFor (skipGap (splitPragma ' ' (skipGap s).2).2.tail).2).2
    have hnewline := List.take_append_drop 1 (splitPragma ' ' (skipGap s).2).2
    rw [List.drop_one] at hnewline
    simp only [gatherFrom]
    split_ifs
    · simp only [List.flatMap_cons, GatheredLoop.cells, GatheredLoop.gapCells, GatheredLoop.body,
        List.append_assoc]
      rw [hrest, hfor, hlead, hnewline, hpragma, hgap]
    · rfl
    · rfl

theorem targetPragma_eq : targetPragma = '#' :: targetPragma.tail := by decide

theorem startsTargetPragma_cons {s : List Cell} (h : startsTargetPragma s = true) :
    ∃ c rest, s = c :: rest ∧ c.1 = '#' := by
  rw [startsTargetPragma, targetPragma_eq] at h
  cases s with
  | nil => exact absurd h (by simp [text])
  | cons c rest =>
    have hhead : ('#' == c.1) = true := by
      rw [text, List.map_cons, List.isPrefixOf_cons_cons, Bool.and_eq_true] at h
      exact h.1
    exact ⟨c, rest, rfl, (beq_iff_eq.mp hhead).symm⟩

theorem splitPragma_ne_nil {s : List Cell} (h : startsTargetPragma s = true) (previous : Char) :
    (splitPragma previous s).1 ≠ [] := by
  obtain ⟨c, rest, rfl, hc⟩ := startsTargetPragma_cons h
  simp [splitPragma, hc]

theorem gatherFrom_pragma_ne_nil {fuel : Nat} {s : List Cell} {l : GatheredLoop}
    (h : l ∈ (gatherFrom fuel s).1) : l.pragma ≠ [] := by
  induction fuel generalizing s with
  | zero => simp [gatherFrom] at h
  | succ fuel ih =>
    simp only [gatherFrom] at h
    split_ifs at h with hstart hfor
    · rcases List.mem_cons.mp h with rfl | h
      · exact splitPragma_ne_nil hstart ' '
      · exact ih h
    · simp at h
    · simp at h

theorem gatherFrom_rest_lt {fuel : Nat} {s : List Cell} (h : (gatherFrom fuel s).1 ≠ []) :
    (gatherFrom fuel s).2.2.length < s.length := by
  obtain ⟨l, ls, hl⟩ := List.exists_cons_of_ne_nil h
  have hpragma := List.length_pos_of_ne_nil (gatherFrom_pragma_ne_nil (hl ▸ List.mem_cons_self))
  have hlen := congrArg List.length (gatherFrom_append fuel s)
  rw [hl] at hlen
  simp only [List.flatMap_cons, GatheredLoop.cells, List.length_append] at hlen
  omega

/-- The cases of one turn of the loop, with the chunk it emits and the text it goes on with. -/
inductive HoistStep (s : List Cell) : Chunk → List Cell → Prop
  | line (h : (spanBlank s).2 ≠ []) (hno : startsTargetPragma (spanBlank s).2 = false) :
      HoistStep s (.verbatim ((spanBlank s).1 ++ (splitLine (spanBlank s).2).1))
        (splitLine (spanBlank s).2).2
  | pragma (h : startsTargetPragma (spanBlank s).2 = true)
      (hnone : (gatherFrom (spanBlank s).2.length (spanBlank s).2).1 = []) :
      HoistStep s (.verbatim ((spanBlank s).1 ++ (spanBlank s).2.take targetPragma.length))
        ((spanBlank s).2.drop targetPragma.length)
  | keep (h : startsTargetPragma (spanBlank s).2 = true)
      (hsome : (gatherFrom (spanBlank s).2.length (spanBlank s).2).1 ≠ []) :
      HoistStep s (.verbatim ((spanBlank s).1 ++
          (gatherFrom (spanBlank s).2.length (spanBlank s).2).1.flatMap GatheredLoop.cells))
        (gatherFrom (spanBlank s).2.length (spanBlank s).2).2.2
  | region (h : startsTargetPragma (spanBlank s).2 = true)
      (hsome : (gatherFrom (spanBlank s).2.length (spanBlank s).2).1 ≠ []) :
      HoistStep s (.region ⟨(spanBlank s).1, (gatherFrom (spanBlank s).2.length (spanBlank s).2).1,
          (gatherFrom (spanBlank s).2.length (spanBlank s).2).2.1⟩)
        (gatherFrom (spanBlank s).2.length (spanBlank s).2).2.2

theorem hoistFrom_succ (fuel : Nat) (s : List Cell) :
    (spanBlank s).2 = [] ∧ hoistFrom (fuel + 1) s = [.dropped (spanBlank s).1] ∨
      ∃ c rest, HoistStep s c rest ∧ hoistFrom (fuel + 1) s = c :: hoistFrom fuel rest := by
  by_cases hnil : (spanBlank s).2 = []
  · exact Or.inl ⟨hnil, by simp [hoistFrom, hnil]⟩
  right
  cases hstart : startsTargetPragma (spanBlank s).2 with
  | false =>
    refine ⟨_, _, .line hnil hstart, ?_⟩
    simp [hoistFrom, hnil, hstart]
  | true =>
    cases hg : (gatherFrom (spanBlank s).2.length (spanBlank s).2).1 with
    | nil =>
      refine ⟨_, _, .pragma hstart hg, ?_⟩
      simp [hoistFrom, hnil, hstart, hg]
    | cons l ls =>
      have hsome : (gatherFrom (spanBlank s).2.length (spanBlank s).2).1 ≠ [] := by simp [hg]
      cases ls with
      | nil =>
        refine ⟨_, _, .keep hstart hsome, ?_⟩
        simp [hoistFrom, hnil, hstart, hg]
      | cons m ls =>
        by_cases hvars : (regionVars (l :: m :: ls)).entries = []
        · refine ⟨_, _, .keep hstart hsome, ?_⟩
          simp [hoistFrom, hnil, hstart, hg, hvars]
        · refine ⟨_, _, .region hstart hsome, ?_⟩
          simp [hoistFrom, hnil, hstart, hg, hvars]

theorem HoistStep.append {s rest : List Cell} {c : Chunk} (h : HoistStep s c rest) :
    c.cells ++ rest = s := by
  have hblank := spanBlank_append s
  have hgather := gatherFrom_append (spanBlank s).2.length (spanBlank s).2
  cases h with
  | line => simp [Chunk.cells, splitLine_append, hblank]
  | pragma => simp [Chunk.cells, hblank]
  | keep => simp [Chunk.cells, hgather, hblank]
  | region => simp [Chunk.cells, Region.cells, hgather, hblank]

theorem HoistStep.length_lt {s rest : List Cell} {c : Chunk} (h : HoistStep s c rest) :
    rest.length < s.length := by
  have hblank := congrArg List.length (spanBlank_append s)
  rw [List.length_append] at hblank
  cases h with
  | line hne =>
    have := splitLine_length_lt hne
    omega
  | pragma hstart =>
    obtain ⟨c, t, ht, -⟩ := startsTargetPragma_cons hstart
    have hpos : 0 < targetPragma.length := by decide
    rw [List.length_drop]
    rw [ht, List.length_cons] at hblank ⊢
    omega
  | keep _ hsome =>
    have := gatherFrom_rest_lt hsome
    omega
  | region _ hsome =>
    have := gatherFrom_rest_lt hsome
    omega

/-- Every character of the text lies in exactly one chunk. -/
theorem hoistFrom_cells {fuel : Nat} {s : List Cell} (h : s.length < fuel) :
    (hoistFrom fuel s).flatMap Chunk.cells = s := by
  induction fuel generalizing s with
  | zero => omega
  | succ fuel ih =>
    rcases hoistFrom_succ fuel s with ⟨hnil, heq⟩ | ⟨c, rest, hstep, heq⟩
    · have hblank := spanBlank_append s
      rw [heq]
      simpa [Chunk.cells, hnil] using hblank
    · have := hstep.length_lt
      rw [heq, List.flatMap_cons, ih (by omega), hstep.append]

theorem hoistChunks_cells (source : List Char) :
    (hoistChunks source).flatMap Chunk.cells = source.zipIdx :=
  hoistFrom_cells (by simp)

/-- The characters a chunk copies to the output from their own place or as declarations
between its loops. -/
def Chunk.kept : Chunk → List Cell
  | dropped _ => []
  | verbatim cs => cs
  | region r => r.loops.flatMap GatheredLoop.gapDecls ++ r.loops.flatMap GatheredLoop.body

/-- The character is kept when the text is processed on its own. -/
def KeptIn (e : Cell) (s : List Cell) : Prop :=
  ∀ fuel, s.length < fuel → e ∈ (hoistFrom fuel s).flatMap Chunk.kept

theorem keptIn_of_step {e : Cell} {s : List Cell}
    (h : ∀ c rest, HoistStep s c rest → e ∈ c.kept ∨ KeptIn e rest) (hne : (spanBlank s).2 ≠ []) :
    KeptIn e s := by
  intro fuel hfuel
  cases fuel with
  | zero => omega
  | succ fuel =>
    rcases hoistFrom_succ fuel s with ⟨hnil, -⟩ | ⟨c, rest, hstep, heq⟩
    · exact absurd hnil hne
    · rw [heq, List.flatMap_cons, List.mem_append]
      have := hstep.length_lt
      exact (h c rest hstep).imp_right fun hrest => hrest fuel (by omega)

theorem spanBlank_cons_blank {c : Cell} (s : List Cell) (h : isBlankOrNewline c.1 = true) :
    spanBlank (c :: s) = (c :: (spanBlank s).1, (spanBlank s).2) := by
  simp [spanBlank, h]

theorem spanBlank_cons_nonblank {c : Cell} (s : List Cell) (h : isBlankOrNewline c.1 = false) :
    spanBlank (c :: s) = ([], c :: s) := by
  simp [spanBlank, h]

/-- Blanks before a text only lengthen its first chunk. -/
theorem KeptIn.cons_blank {e c : Cell} {s : List Cell} (hc : isBlankOrNewline c.1 = true)
    (h : KeptIn e s) : KeptIn e (c :: s) := by
  have hspan := spanBlank_cons_blank s hc
  intro fuel hfuel
  cases fuel with
  | zero => omega
  | succ fuel =>
    have hs := h (fuel + 1) (by simp at hfuel; omega)
    simp only [hoistFrom, hspan] at hs ⊢
    split_ifs at hs ⊢ with hnil hstart
    · simp [Chunk.kept] at hs
    · split at hs
      next hg => simp_all [Chunk.kept]
      next hg => simp_all [Chunk.kept]
      next hg hne =>
        split_ifs at hs with hvars
        · simp_all [Chunk.kept]
        · simp_all [Chunk.kept]
    · simp only [List.flatMap_cons, Chunk.kept, List.mem_append, List.mem_cons] at hs ⊢
      tauto

theorem KeptIn.of_spanBlank {e : Cell} {s : List Cell} (h : KeptIn e (spanBlank s).2) :
    KeptIn e s := by
  induction s with
  | nil => exact h
  | cons c s ih =>
    cases hc : isBlankOrNewline c.1 with
    | false =>
      rw [spanBlank_cons_nonblank s hc] at h
      exact h
    | true =>
      rw [spanBlank_cons_blank s hc] at h
      exact (ih h).cons_blank hc

theorem not_keptIn_nil {e : Cell} : ¬KeptIn e [] := by
  intro h
  have hmem := h 1 (by simp)
  simp [hoistFrom, spanBlank, Chunk.kept] at hmem

theorem isMovableDeclarationLine_hash (s : List Char) :
    isMovableDeclarationLine ('#' :: s) = false := by
  have hderiv : declarationRegex.deriv '#' = .empty := by rfl
  rw [isMovableDeclarationLine, Regex.accepts, hderiv, Regex.accepts_empty]

theorem startsTargetPragma_of_head {c : Cell} {s : List Cell} (h : c.1 ≠ '#') :
    startsTargetPragma (c :: s) = false := by
  cases hstart : startsTargetPragma (c :: s) with
  | false => rfl
  | true =>
    obtain ⟨c', s', heq, hc⟩ := startsTargetPragma_cons hstart
    cases heq
    exact absurd hc h

theorem comment_head {c : Cell} {s : List Cell} (h : "//".toList.isPrefixOf (text (c :: s)) = true) :
    c.1 ≠ '#' := by
  rw [text, List.map_cons, show "//".toList = ['/', '/'] from rfl, List.isPrefixOf_cons_cons,
    Bool.and_eq_true] at h
  have hc : '/' = c.1 := beq_iff_eq.mp h.1
  rw [← hc]
  decide

theorem splitLine_text_head {c : Cell} (s : List Cell) : ∃ t, text (splitLine (c :: s)).1 = c.1 :: t := by
  unfold splitLine
  split <;> exact ⟨_, rfl⟩

theorem keptIn_of_line {e : Cell} {s : List Cell} (hne : (spanBlank s).2 ≠ [])
    (hno : startsTargetPragma (spanBlank s).2 = false)
    (h : e ∈ (splitLine (spanBlank s).2).1 ∨ KeptIn e (splitLine (spanBlank s).2).2) :
    KeptIn e s := by
  refine keptIn_of_step (fun c rest hstep => ?_) hne
  cases hstep with
  | line => exact h.imp_left fun hmem => List.mem_append_right _ hmem
  | pragma hstart | keep hstart | region hstart => simp [hno] at hstart

/-- The lines of a gap that the main loop meets are copied as they are. -/
theorem keptIn_of_gap {e : Cell} (fuel : Nat) (s : List Cell)
    (h : e ∈ (skipGapFrom fuel s).1.flatMap GapPiece.declCells ∨ KeptIn e (skipGapFrom fuel s).2) :
    KeptIn e s := by
  induction fuel generalizing s with
  | zero => exact h.resolve_left (by simp [skipGapFrom])
  | succ fuel ih =>
    simp only [skipGapFrom] at h
    split_ifs at h with hnil hcomment hdecl
    · exact absurd (h.resolve_left (by simp [GapPiece.declCells])) not_keptIn_nil
    · obtain ⟨c, t, ht⟩ := List.exists_cons_of_ne_nil hnil
      have hno : startsTargetPragma (spanBlank s).2 = false := by
        rw [ht] at hcomment ⊢
        exact startsTargetPragma_of_head (comment_head hcomment)
      have hrest := ih (splitLine (spanBlank s).2).2 (by simpa [GapPiece.declCells] using h)
      exact keptIn_of_line hnil hno (Or.inr hrest)
    · obtain ⟨c, t, ht⟩ := List.exists_cons_of_ne_nil hnil
      have hno : startsTargetPragma (spanBlank s).2 = false := by
        rw [ht] at hdecl ⊢
        obtain ⟨l, hl⟩ := splitLine_text_head (c := c) t
        refine startsTargetPragma_of_head fun hc => ?_
        rw [hl, hc, isMovableDeclarationLine_hash] at hdecl
        simp at hdecl
      refine keptIn_of_line hnil hno ?_
      simp only [List.flatMap_cons, GapPiece.declCells, List.nil_append, List.mem_append,
        or_assoc] at h
      exact h.imp_right fun hrest => ih _ hrest
    · exact (h.resolve_left (by simp [GapPiece.declCells])).of_spanBlank

theorem splitPragma_snd_cons (previous : Char) {c : Cell} (s : List Cell) (hc : c.1 ≠ '\n') :
    (splitPragma previous (c :: s)).2 = (splitPragma c.1 s).2 := by
  simp [splitPragma, hc]

/-- The line a pragma text starts with ends the pragma or continues it. -/
theorem splitPragma_splitLine (previous : Char) (s : List Cell) :
    (splitPragma previous s).2 = (splitPragma '\n' (splitLine s).2).2 ∨
      (splitPragma previous s).2.tail = (splitLine s).2 := by
  induction s generalizing previous with
  | nil => exact Or.inr rfl
  | cons c s ih =>
    by_cases hc : c.1 = '\n'
    · by_cases hp : previous = '\\'
      · left
        simp [splitPragma, splitLine, hc, hp]
      · right
        simp [splitPragma, splitLine, hc, hp]
    · rw [splitPragma_snd_cons previous s hc]
      simpa [splitLine, hc] using ih c.1

theorem splitPragma_drop (previous : Char) {s : List Cell} (n : Nat)
    (h : ∀ c ∈ s.take n, c.1 ≠ '\n') :
    ∃ last, (splitPragma previous s).2 = (splitPragma last (s.drop n)).2 := by
  induction n generalizing previous s with
  | zero => exact ⟨previous, rfl⟩
  | succ n ih =>
    cases s with
    | nil => exact ⟨previous, rfl⟩
    | cons c s =>
      have hs : ∀ d ∈ s.take n, d.1 ≠ '\n' := fun d hd => h d (by simp [hd])
      obtain ⟨last, hlast⟩ := ih c.1 hs
      exact ⟨last, (splitPragma_snd_cons previous s (h c (by simp))).trans hlast⟩

theorem startsTargetPragma_take {s : List Cell} (h : startsTargetPragma s = true) :
    ∀ c ∈ s.take targetPragma.length, c.1 ≠ '\n' := by
  intro c hc
  have htext : text (s.take targetPragma.length) = targetPragma := by
    rw [text, List.map_take]
    exact (List.prefix_iff_eq_take.mp (List.isPrefixOf_iff_prefix.mp h)).symm
  have hmem : c.1 ∈ targetPragma := htext ▸ List.mem_map_of_mem hc
  have hnone : '\n' ∉ targetPragma := by decide
  exact fun heq => hnone (heq ▸ hmem)

theorem skipGap_of_nonblank {c : Cell} {s : List Cell} (hc : isBlankOrNewline c.1 = false)
    (hhash : c.1 = '#') : skipGap (c :: s) = ([.blank []], c :: s) := by
  have hcomment : "//".toList.isPrefixOf (text (c :: s)) = false := by
    cases h : "//".toList.isPrefixOf (text (c :: s)) with
    | false => rfl
    | true => exact absurd hhash (comment_head h)
  obtain ⟨l, hl⟩ := splitLine_text_head (c := c) s
  have hdecl : isMovableDeclarationLine (text (splitLine (c :: s)).1) = false := by
    rw [hl, hhash, isMovableDeclarationLine_hash]
  simp only [skipGap, skipGapFrom, spanBlank_cons_nonblank s hc, hcomment, hdecl]
  simp

theorem gatherFrom_eq_nil {fuel : Nat} {c : Cell} {s : List Cell}
    (hstart : startsTargetPragma (c :: s) = true)
    (hfor : lineStartsForLoop (text ((skipGap (splitPragma ' ' (c :: s)).2.tail).2.take 10)) = false) :
    (gatherFrom fuel (c :: s)).1 = [] := by
  obtain ⟨c', s', heq, hhash⟩ := startsTargetPragma_cons hstart
  cases heq
  have hblank : isBlankOrNewline c.1 = false := by
    rw [hhash]
    rfl
  cases fuel with
  | zero => rfl
  | succ fuel =>
    simp only [gatherFrom, skipGap_of_nonblank hblank hhash, hstart, hfor]
    simp

/-- A pragma that no loop follows is copied line by line, and so are the declarations after
it. -/
theorem keptIn_of_pragma {e : Cell} (n : Nat) {s : List Cell} (hn : s.length ≤ n)
    (previous : Char)
    (hfor : lineStartsForLoop
      (text ((skipGap (splitPragma previous s).2.tail).2.take 10)) = false)
    (h : e ∈ (skipGap (splitPragma previous s).2.tail).1.flatMap GapPiece.declCells) :
    KeptIn e s := by
  induction n generalizing s previous with
  | zero =>
    have hs : s = [] := by simpa using hn
    subst hs
    simp [splitPragma, skipGap, skipGapFrom, spanBlank, GapPiece.declCells] at h
  | succ n ih =>
    cases s with
    | nil => simp [splitPragma, skipGap, skipGapFrom, spanBlank, GapPiece.declCells] at h
    | cons c s =>
      have hlen : s.length ≤ n := by simpa using hn
      by_cases hnl : c.1 = '\n'
      · have hblank : isBlankOrNewline c.1 = true := by simp [isBlankOrNewline, hnl]
        by_cases hp : previous = '\\'
        · have heq : (splitPragma previous (c :: s)).2 = (splitPragma c.1 s).2 := by
            simp [splitPragma, hp]
          rw [heq] at h hfor
          exact (ih hlen c.1 hfor h).cons_blank hblank
        · have heq : (splitPragma previous (c :: s)).2.tail = s := by
            simp [splitPragma, hp, hnl]
          rw [heq] at h
          exact (keptIn_of_gap _ s (Or.inl h)).cons_blank hblank
      · have hstop := splitPragma_snd_cons previous s hnl
        cases hblank : isBlankOrNewline c.1 with
        | true =>
          rw [hstop] at h hfor
          exact (ih hlen c.1 hfor h).cons_blank hblank
        | false =>
          have hspan := spanBlank_cons_nonblank s hblank
          refine keptIn_of_step (fun ch rest hstep => Or.inr ?_) (by simp [hspan])
          have hrest : rest.length ≤ n := by
            have := hstep.length_lt
            omega
          have hgather : ∀ fuel, startsTargetPragma (c :: s) = true →
              (gatherFrom fuel (c :: s)).1 = [] := by
            intro fuel hstart
            refine gatherFrom_eq_nil hstart ?_
            rwa [splitPragma_snd_cons ' ' s hnl, ← hstop]
          cases hstep with
          | line =>
            rw [hspan] at hrest ⊢
            rcases splitPragma_splitLine previous (c :: s) with heq | heq
            · rw [heq] at h hfor
              exact ih hrest '\n' hfor h
            · rw [heq] at h
              exact keptIn_of_gap _ _ (Or.inl h)
          | pragma hstart =>
            rw [hspan] at hstart hrest ⊢
            obtain ⟨last, heq⟩ := splitPragma_drop previous targetPragma.length
              (startsTargetPragma_take hstart)
            rw [heq] at h hfor
            exact ih hrest last hfor h
          | keep hstart hsome =>
            rw [hspan] at hstart hsome
            exact absurd (hgather _ hstart) hsome
          | region hstart hsome =>
            rw [hspan] at hstart hsome
            exact absurd (hgather _ hstart) hsome

/-- The declarations skipped after the last gathered loop are copied again with the text that
follows it. -/
theorem keptIn_of_trailing {e : Cell} (fuel : Nat) (s : List Cell)
    (h : e ∈ (gatherFrom fuel s).2.1) : KeptIn e (gatherFrom fuel s).2.2 := by
  induction fuel generalizing s with
  | zero => simp [gatherFrom] at h
  | succ fuel ih =>
    simp only [gatherFrom] at h ⊢
    split_ifs at h ⊢ with hstart hfor
    · exact ih _ h
    · refine keptIn_of_gap (s.length + 1) s ?_
      refine (List.mem_append.mp h).imp_right fun hlead => ?_
      exact keptIn_of_pragma _ le_rfl ' ' (Bool.eq_false_iff.mpr hfor) hlead
    · exact keptIn_of_gap (s.length + 1) s (Or.inl h)

end LoomX
