import LoomX.HoistKept
import Mathlib.Data.List.Nodup
import Mathlib.Data.List.Perm.Basic

namespace LoomX

inductive LexMode
  | lineStart
  | code
  | lineComment
  | blockOpen
  | blockComment
  | blockStar
  | string
  | character
  | pragma
  deriving DecidableEq, Repr

/-- The lexical context after a character, given what follows it. -/
def lexNext (mode : LexMode) (escaped : Bool) (c : Char) (rest : List Char) : LexMode :=
  match mode with
  | .lineStart | .code =>
    if c = '/' ∧ rest.head? = some '/' then .lineComment
    else if c = '/' ∧ rest.head? = some '*' then .blockOpen
    else if mode = .lineStart ∧ "#pragma".toList.isPrefixOf (c :: rest) then .pragma
    else if c = '\x22' then .string
    else if c = '\x27' then .character
    else if c = '\n' then .lineStart
    else if isBlankOrNewline c then mode
    else .code
  | .lineComment => if c = '\n' ∧ !escaped then .lineStart else .lineComment
  | .pragma => if c = '\n' ∧ !escaped then .lineStart else .pragma
  | .blockOpen => .blockComment
  | .blockComment => if c = '*' then .blockStar else .blockComment
  | .blockStar => if c = '/' then .code else if c = '*' then .blockStar else .blockComment
  | .string => if c = '\x22' ∧ !escaped then .code else .string
  | .character => if c = '\x27' ∧ !escaped then .code else .character

/-- The non-blank characters that belong neither to a comment nor to a pragma. -/
def programCells : LexMode → Bool → List Cell → List Cell
  | _, _, [] => []
  | mode, escaped, c :: s =>
    let next := lexNext mode escaped c.1 (text s)
    let rest := programCells next (c.1 = '\\' ∧ !escaped) s
    let inProgram := mode ∈ [.lineStart, .code, .string, .character] ∧
      next ∉ [.lineComment, .blockOpen, .pragma]
    if inProgram ∧ !isBlankOrNewline c.1 then c :: rest else rest

def program (source : List Char) : List Cell := programCells .lineStart false source.zipIdx

theorem programCells_spec {mode : LexMode} {escaped : Bool} {s : List Cell} {e : Cell}
    (h : e ∈ programCells mode escaped s) : e ∈ s ∧ isBlankOrNewline e.1 = false := by
  induction s generalizing mode escaped with
  | nil => simp [programCells] at h
  | cons c s ih =>
    simp only [programCells] at h
    split at h
    next hc =>
      rcases List.mem_cons.mp h with rfl | h
      · exact ⟨by simp, by simpa using hc.2⟩
      · exact ⟨by simp [(ih h).1], (ih h).2⟩
    next => exact ⟨by simp [(ih h).1], (ih h).2⟩

/-- The characters of an output that were copied from the source, in output order. -/
def copies (out : List OutCell) : List Cell := out.filterMap fun o => o.2.map fun i => (o.1, i)

/-- The lines of the declarations skipped before the pragma of a gathered loop. -/
def GatheredLoop.gapDeclLines (l : GatheredLoop) : List (List Cell) :=
  l.gap.filterMap fun
    | .decl cs => some cs
    | _ => none

def GatheredLoop.gapComments (l : GatheredLoop) : List Cell := l.gap.flatMap GapPiece.commentCells

/-- The declarations between gathered loops do not depend on the loops before them. -/
def Region.Independent (depends : List Char → List Char → Prop) (r : Region) : Prop :=
  ∀ before l after, r.loops = before ++ l :: after → ∀ m ∈ before, ∀ d ∈ l.gapDeclLines,
    ¬depends (text d) (text m.body)

/-- Every character of the program occurs once in the output, and in source order, except that
declarations between two gathered loops may come before loops they do not depend on. The
relation `depends` says that a declaration reads what a loop writes. -/
structure StatementsPreserved (depends : List Char → List Char → Prop) (source : List Char) :
    Prop where
  once : ∀ e ∈ program source, (copies (hoistTargetDataRegions source)).count e = 1
  order : ∀ e ∈ program source, ∀ f ∈ program source, e.2 < f.2 →
    [f, e].Sublist (copies (hoistTargetDataRegions source)) →
    ∃ r ∈ regions source, ∃ before l after, r.loops = before ++ l :: after ∧ f ∈ l.gapDecls ∧
      ∃ m ∈ before, e ∈ m.body
  independent : ∀ r ∈ regions source, r.Independent depends

/-- The region repeats and drops no program text: no declaration follows its last loop or
stands between a pragma and its loop, and what is left out or rewritten is comments and
pragmas. -/
structure Region.Faithful (source : List Char) (r : Region) : Prop where
  trailing : ∀ e ∈ program source, e ∉ r.trailing
  lead : ∀ e ∈ program source, ∀ l ∈ r.loops, e ∉ l.leadDecls
  comments : ∀ e ∈ program source, ∀ l ∈ r.loops, e ∉ l.gapComments
  pragmas : ∀ e ∈ program source, ∀ l ∈ r.loops, e ∉ l.pragma

namespace Chunk

def copies : Chunk → List Cell
  | dropped _ => []
  | verbatim cs => cs
  | region r => r.movedDecls ++ r.loops.flatMap GatheredLoop.body

/-- What is emitted besides `kept`. -/
def repeated : Chunk → List Cell
  | region r => r.loops.flatMap GatheredLoop.leadDecls ++ r.trailing
  | _ => []

end Chunk

theorem copies_append (a b : List OutCell) : copies (a ++ b) = copies a ++ copies b := by
  simp [copies]

theorem copies_copied (cs : List Cell) : copies (copied cs) = cs := by
  simp [copies, copied, List.filterMap_map]

theorem copies_inserted (s : List Char) : copies (inserted s) = [] := by
  simp [copies, inserted]

theorem copies_closeLine (cs : List Cell) : copies (closeLine cs) = [] := by
  unfold closeLine
  split
  next => exact copies_inserted _
  next => rfl

theorem copies_loops (loops : List GatheredLoop) :
    copies (loops.flatMap (fun l => inserted (stripTargetAndMap (text l.pragma) ++ "\n".toList) ++
      copied l.body ++ closeLine l.body)) = loops.flatMap GatheredLoop.body := by
  induction loops with
  | nil => rfl
  | cons l loops ih =>
    rw [List.flatMap_cons, copies_append, ih, copies_append, copies_append, copies_inserted,
      copies_copied, copies_closeLine, List.flatMap_cons, List.nil_append, List.append_nil]

theorem copies_emit (c : Chunk) : copies c.emit = c.copies := by
  cases c with
  | dropped => rfl
  | verbatim cs => exact copies_copied cs
  | region r =>
    simp only [Chunk.emit, Region.emit, copies_append, copies_inserted, copies_copied,
      copies_closeLine, copies_loops, Chunk.copies, List.append_nil]

theorem copies_chunks (cs : List Chunk) :
    copies (cs.flatMap Chunk.emit) = cs.flatMap Chunk.copies := by
  induction cs with
  | nil => rfl
  | cons c cs ih => rw [List.flatMap_cons, copies_append, ih, copies_emit, List.flatMap_cons]

def GapPiece.skippedCells : GapPiece → List Cell
  | blank cs | comment cs => cs
  | decl _ => []

/-- What the output leaves out of a gathered loop. -/
def GatheredLoop.lost (l : GatheredLoop) : List Cell :=
  l.gap.flatMap GapPiece.skippedCells ++ (l.pragma ++ l.newline)

def Chunk.lost : Chunk → List Cell
  | dropped cs => cs
  | verbatim _ => []
  | region r => r.blank ++ r.loops.flatMap GatheredLoop.lost

theorem gap_perm (gap : List GapPiece) :
    (gap.flatMap GapPiece.cells).Perm
      (gap.flatMap GapPiece.declCells ++ gap.flatMap GapPiece.skippedCells) := by
  induction gap with
  | nil => exact .refl _
  | cons p gap ih =>
    cases p with
    | blank cs | comment cs =>
      simp only [List.flatMap_cons, GapPiece.cells, GapPiece.declCells, GapPiece.skippedCells,
        List.nil_append]
      refine (ih.append_left cs).trans ?_
      rw [← List.append_assoc, ← List.append_assoc]
      exact List.perm_append_comm.append_right _
    | decl cs =>
      simp only [List.flatMap_cons, GapPiece.cells, GapPiece.declCells, GapPiece.skippedCells,
        List.nil_append, List.append_assoc]
      exact ih.append_left cs

theorem loop_perm (l : GatheredLoop) : l.cells.Perm (l.gapDecls ++ l.body ++ l.lost) := by
  have hgap := gap_perm l.gap
  rw [List.perm_iff_count] at hgap ⊢
  intro e
  have := hgap e
  simp only [GatheredLoop.cells, GatheredLoop.gapCells, GatheredLoop.gapDecls, GatheredLoop.lost,
    List.count_append] at this ⊢
  omega

theorem loops_perm (loops : List GatheredLoop) :
    (loops.flatMap GatheredLoop.cells).Perm
      (loops.flatMap GatheredLoop.gapDecls ++ loops.flatMap GatheredLoop.body ++
        loops.flatMap GatheredLoop.lost) := by
  rw [List.perm_iff_count]
  intro e
  induction loops with
  | nil => rfl
  | cons l loops ih =>
    have hl := List.perm_iff_count.mp (loop_perm l) e
    simp only [List.flatMap_cons, List.count_append] at ih hl ⊢
    omega

theorem chunk_perm (c : Chunk) : c.cells.Perm (c.kept ++ c.lost) := by
  cases c with
  | dropped cs => exact .refl _
  | verbatim cs => simp [Chunk.cells, Chunk.kept, Chunk.lost]
  | region r =>
    have hloops := loops_perm r.loops
    rw [List.perm_iff_count] at hloops ⊢
    intro e
    have := hloops e
    simp only [Chunk.cells, Region.cells, Chunk.kept, Chunk.lost, List.count_append] at this ⊢
    omega

theorem moved_count (loops : List GatheredLoop) (e : Cell) :
    (loops.flatMap fun l => l.gapDecls ++ l.leadDecls).count e =
      (loops.flatMap GatheredLoop.gapDecls).count e +
        (loops.flatMap GatheredLoop.leadDecls).count e := by
  induction loops with
  | nil => rfl
  | cons l loops ih =>
    simp only [List.flatMap_cons, List.count_append] at ih ⊢
    omega

theorem chunk_copies_count (c : Chunk) (e : Cell) :
    c.copies.count e = c.kept.count e + c.repeated.count e := by
  cases c with
  | dropped cs | verbatim cs => simp [Chunk.copies, Chunk.kept, Chunk.repeated]
  | region r =>
    have := moved_count r.loops e
    simp only [Chunk.copies, Region.movedDecls, Chunk.kept, Chunk.repeated, List.count_append]
      at this ⊢
    omega

theorem chunks_cells_count (cs : List Chunk) (e : Cell) :
    (cs.flatMap Chunk.cells).count e =
      (cs.flatMap Chunk.kept).count e + (cs.flatMap Chunk.lost).count e := by
  induction cs with
  | nil => rfl
  | cons c cs ih =>
    have := List.perm_iff_count.mp (chunk_perm c) e
    simp only [List.flatMap_cons, List.count_append] at ih this ⊢
    omega

theorem chunks_copies_count (cs : List Chunk) (e : Cell) :
    (cs.flatMap Chunk.copies).count e =
      (cs.flatMap Chunk.kept).count e + (cs.flatMap Chunk.repeated).count e := by
  induction cs with
  | nil => rfl
  | cons c cs ih =>
    have := chunk_copies_count c e
    simp only [List.flatMap_cons, List.count_append] at ih ⊢
    omega

theorem leadDecls_subset_body {l : GatheredLoop} {e : Cell} (h : e ∈ l.leadDecls) : e ∈ l.body := by
  obtain ⟨p, hp, he⟩ := List.mem_flatMap.mp h
  refine List.mem_append_left _ (List.mem_flatMap.mpr ⟨p, hp, ?_⟩)
  cases p with
  | blank cs | comment cs => simp [GapPiece.declCells] at he
  | decl cs => exact he

/-- Whatever is emitted a second time is also emitted in its own place. -/
theorem repeated_subset_kept {fuel : Nat} {s : List Cell} (hfuel : s.length < fuel) {e : Cell}
    (h : e ∈ (hoistFrom fuel s).flatMap Chunk.repeated) :
    e ∈ (hoistFrom fuel s).flatMap Chunk.kept := by
  induction fuel generalizing s with
  | zero => omega
  | succ fuel ih =>
    rcases hoistFrom_succ fuel s with ⟨-, heq⟩ | ⟨c, rest, hstep, heq⟩
    · simp [heq, Chunk.repeated] at h
    · have hlen := hstep.length_lt
      rw [heq, List.flatMap_cons, List.mem_append] at h ⊢
      rcases h with h | h
      · cases hstep with
        | line | pragma | keep => simp [Chunk.repeated] at h
        | region =>
          rcases List.mem_append.mp h with h | h
          · obtain ⟨l, hl, he⟩ := List.mem_flatMap.mp h
            exact Or.inl (List.mem_append_right _
              (List.mem_flatMap.mpr ⟨l, hl, leadDecls_subset_body he⟩))
          · exact Or.inr (keptIn_of_trailing _ _ h fuel (by omega))
      · exact Or.inr (ih (by omega) h)

theorem skipGapFrom_blank {fuel : Nat} {s : List Cell} {p : GapPiece} {e : Cell}
    (hp : p ∈ (skipGapFrom fuel s).1) (he : e ∈ p.skippedCells) :
    isBlankOrNewline e.1 = true ∨ e ∈ p.commentCells := by
  induction fuel generalizing s with
  | zero => simp [skipGapFrom] at hp
  | succ fuel ih =>
    have hblank : ∀ {e : Cell}, e ∈ (GapPiece.blank (spanBlank s).1).skippedCells →
        isBlankOrNewline e.1 = true := fun h => spanBlank_blank h
    simp only [skipGapFrom] at hp
    split_ifs at hp with hnil hcomment hdecl
    · cases List.mem_singleton.mp hp
      exact Or.inl (hblank he)
    · simp only [List.mem_cons] at hp
      rcases hp with rfl | rfl | hp
      · exact Or.inl (hblank he)
      · exact Or.inr he
      · exact ih hp
    · simp only [List.mem_cons] at hp
      rcases hp with rfl | rfl | hp
      · exact Or.inl (hblank he)
      · simp [GapPiece.skippedCells] at he
      · exact ih hp
    · cases List.mem_singleton.mp hp
      exact Or.inl (hblank he)

theorem splitPragma_newline {previous : Char} {s : List Cell} {e : Cell}
    (h : e ∈ (splitPragma previous s).2.take 1) : e.1 = '\n' := by
  induction s generalizing previous with
  | nil => simp [splitPragma] at h
  | cons c s ih =>
    unfold splitPragma at h
    split at h
    next hc =>
      have he : e = c := by simpa using h
      exact he ▸ hc.1
    next => exact ih h

theorem gatherFrom_lost {fuel : Nat} {s : List Cell} {l : GatheredLoop} {e : Cell}
    (hl : l ∈ (gatherFrom fuel s).1) (he : e ∈ l.lost) :
    isBlankOrNewline e.1 = true ∨ e ∈ l.gapComments ∨ e ∈ l.pragma := by
  induction fuel generalizing s with
  | zero => simp [gatherFrom] at hl
  | succ fuel ih =>
    simp only [gatherFrom] at hl
    split_ifs at hl with hstart hfor
    · rcases List.mem_cons.mp hl with rfl | hl
      · simp only [GatheredLoop.lost, List.mem_append] at he
        rcases he with he | he | he
        · obtain ⟨p, hp, hep⟩ := List.mem_flatMap.mp he
          refine (skipGapFrom_blank hp hep).imp_right fun hc => Or.inl ?_
          exact List.mem_flatMap.mpr ⟨p, hp, hc⟩
        · exact Or.inr (Or.inr he)
        · left
          rw [splitPragma_newline he]
          rfl
      · exact ih hl
    · simp at hl
    · simp at hl

/-- Program text is lost only in the comments and pragmas of a region. -/
theorem hoistFrom_lost {fuel : Nat} {s : List Cell} {e : Cell}
    (h : e ∈ (hoistFrom fuel s).flatMap Chunk.lost) (hblank : isBlankOrNewline e.1 = false) :
    ∃ r, Chunk.region r ∈ hoistFrom fuel s ∧ ∃ l ∈ r.loops, e ∈ l.gapComments ∨ e ∈ l.pragma := by
  induction fuel generalizing s with
  | zero => simp [hoistFrom] at h
  | succ fuel ih =>
    rcases hoistFrom_succ fuel s with ⟨-, heq⟩ | ⟨c, rest, hstep, heq⟩
    · rw [heq] at h
      have := spanBlank_blank (s := s) (by simpa [Chunk.lost] using h)
      simp [hblank] at this
    · rw [heq, List.flatMap_cons, List.mem_append] at h
      rcases h with h | h
      · cases hstep with
        | line | pragma | keep => simp [Chunk.lost] at h
        | region =>
          rcases List.mem_append.mp h with h | h
          · have := spanBlank_blank h
            simp [hblank] at this
          · obtain ⟨l, hl, he⟩ := List.mem_flatMap.mp h
            have hlost := (gatherFrom_lost hl he).resolve_left (by simp [hblank])
            exact ⟨_, by rw [heq]; exact List.mem_cons_self, l, hl, hlost⟩
      · obtain ⟨r, hr, hl⟩ := ih h
        exact ⟨r, by rw [heq]; exact List.mem_cons_of_mem _ hr, hl⟩

theorem mem_regions {source : List Char} {r : Region} :
    r ∈ regions source ↔ Chunk.region r ∈ hoistChunks source := by
  simp only [regions, List.mem_filterMap]
  constructor
  · rintro ⟨c, hc, heq⟩
    cases c with
    | dropped cs | verbatim cs => simp at heq
    | region r' => cases heq; exact hc
  · intro h
    exact ⟨_, h, rfl⟩

theorem commentCells_subset {p : GapPiece} {e : Cell} (h : e ∈ p.commentCells) :
    e ∈ p.skippedCells := by
  cases p with
  | comment cs => exact h
  | blank cs | decl cs => simp [GapPiece.commentCells] at h

theorem lost_of_region {source : List Char} {r : Region} (hr : r ∈ regions source)
    {l : GatheredLoop} (hl : l ∈ r.loops) {e : Cell} (he : e ∈ l.gapComments ∨ e ∈ l.pragma) :
    e ∈ (hoistChunks source).flatMap Chunk.lost := by
  refine List.mem_flatMap.mpr ⟨_, mem_regions.mp hr, ?_⟩
  refine List.mem_append_right _ (List.mem_flatMap.mpr ⟨l, hl, ?_⟩)
  rcases he with he | he
  · obtain ⟨p, hp, hep⟩ := List.mem_flatMap.mp he
    exact List.mem_append_left _ (List.mem_flatMap.mpr ⟨p, hp, commentCells_subset hep⟩)
  · exact List.mem_append_right _ (List.mem_append_left _ he)

theorem zipIdx_nodup (source : List Char) : source.zipIdx.Nodup := by
  have h : (source.zipIdx.map Prod.snd).Nodup := by
    rw [List.zipIdx_map_snd]
    exact List.nodup_range'
  exact h.of_map _

/-- Every program character occurs once exactly when the regions repeat and drop none. -/
theorem once_iff (source : List Char) :
    (∀ e ∈ program source, (copies (hoistTargetDataRegions source)).count e = 1) ↔
      ∀ r ∈ regions source, r.Faithful source := by
  have hcopies : ∀ e, (copies (hoistTargetDataRegions source)).count e =
      ((hoistChunks source).flatMap Chunk.kept).count e +
        ((hoistChunks source).flatMap Chunk.repeated).count e := by
    intro e
    rw [hoistTargetDataRegions, copies_chunks, chunks_copies_count]
  have hcells : ∀ e ∈ program source, 1 =
      ((hoistChunks source).flatMap Chunk.kept).count e +
        ((hoistChunks source).flatMap Chunk.lost).count e := by
    intro e he
    rw [← chunks_cells_count, hoistChunks_cells]
    exact (List.count_eq_one_of_mem (zipIdx_nodup source) (programCells_spec he).1).symm
  constructor
  · intro honce r hr
    have hrepeated : ∀ e ∈ program source, e ∉ (hoistChunks source).flatMap Chunk.repeated := by
      intro e he hmem
      have hkept := repeated_subset_kept (by simp) hmem
      have h1 := honce e he
      have h2 := List.count_pos_iff.mpr hmem
      have h3 := List.count_pos_iff.mpr hkept
      rw [hcopies] at h1
      simp only [hoistChunks] at h1 h2 h3
      omega
    have hlost : ∀ e ∈ program source, e ∉ (hoistChunks source).flatMap Chunk.lost := by
      intro e he hmem
      have h1 := honce e he
      have h2 := List.count_eq_zero.mpr (hrepeated e he)
      have h3 := List.count_pos_iff.mpr hmem
      have h4 := hcells e he
      rw [hcopies] at h1
      omega
    have hregion := mem_regions.mp hr
    refine ⟨fun e he hmem => ?_, fun e he l hl hmem => ?_, fun e he l hl hmem => ?_,
      fun e he l hl hmem => ?_⟩
    · exact hrepeated e he
        (List.mem_flatMap.mpr ⟨_, hregion, List.mem_append_right _ hmem⟩)
    · exact hrepeated e he (List.mem_flatMap.mpr ⟨_, hregion,
        List.mem_append_left _ (List.mem_flatMap.mpr ⟨l, hl, hmem⟩)⟩)
    · exact hlost e he (lost_of_region hr hl (Or.inl hmem))
    · exact hlost e he (lost_of_region hr hl (Or.inr hmem))
  · intro hfaithful e he
    have hrepeated : e ∉ (hoistChunks source).flatMap Chunk.repeated := by
      intro hmem
      obtain ⟨c, hc, hec⟩ := List.mem_flatMap.mp hmem
      cases c with
      | dropped cs | verbatim cs => simp [Chunk.repeated] at hec
      | region r =>
        have hr := hfaithful r (mem_regions.mpr hc)
        rcases List.mem_append.mp hec with hec | hec
        · obtain ⟨l, hl, hel⟩ := List.mem_flatMap.mp hec
          exact hr.lead e he l hl hel
        · exact hr.trailing e he hec
    have hlost : e ∉ (hoistChunks source).flatMap Chunk.lost := by
      intro hmem
      obtain ⟨r, hr, l, hl, hel⟩ := hoistFrom_lost hmem (programCells_spec he).2
      have hf := hfaithful r (mem_regions.mpr hr)
      rcases hel with hel | hel
      · exact hf.comments e he l hl hel
      · exact hf.pragmas e he l hl hel
    have h1 := hcells e he
    rw [hcopies, List.count_eq_zero.mpr hrepeated]
    rw [List.count_eq_zero.mpr hlost] at h1
    omega

/-- Source positions increase along the list. -/
def Ordered (s : List Cell) : Prop := s.Pairwise fun a b => a.2 < b.2

theorem zipIdx_ordered (source : List Char) : Ordered source.zipIdx := by
  have h : (source.zipIdx.map Prod.snd).Pairwise (· < ·) := by
    rw [List.zipIdx_map_snd]
    exact List.pairwise_lt_range'
  exact List.pairwise_map.mp h

theorem Ordered.not_sublist {s : List Cell} (h : Ordered s) {e f : Cell} (hlt : e.2 < f.2) :
    ¬[f, e].Sublist s := by
  intro hsub
  have := h.sublist hsub
  simp at this
  omega

theorem Ordered.not_split {s t : List Cell} (h : Ordered (s ++ t)) {e f : Cell} (hlt : e.2 < f.2)
    (hf : f ∈ s) : e ∉ t := by
  intro he
  have := (List.pairwise_append.mp h).2.2 f hf e he
  omega

theorem pair_sublist_append {e f : Cell} {s t : List Cell} (h : [f, e].Sublist (s ++ t)) :
    [f, e].Sublist s ∨ f ∈ s ∧ e ∈ t ∨ [f, e].Sublist t := by
  obtain ⟨u, v, heq, hu, hv⟩ := List.sublist_append_iff.mp h
  rcases u with _ | ⟨x, _ | ⟨y, u⟩⟩
  · exact Or.inr (Or.inr (by simpa [heq] using hv))
  · simp only [List.cons_append, List.nil_append, List.cons.injEq] at heq
    obtain ⟨rfl, rfl⟩ := heq
    exact Or.inr (Or.inl ⟨List.singleton_sublist.mp hu, List.singleton_sublist.mp hv⟩)
  · simp only [List.cons_append, List.cons.injEq] at heq
    obtain ⟨rfl, rfl, hnil⟩ := heq
    obtain ⟨rfl, -⟩ := List.append_eq_nil_iff.mp hnil.symm
    exact Or.inl hu

theorem declCells_sublist (gap : List GapPiece) :
    (gap.flatMap GapPiece.declCells).Sublist (gap.flatMap GapPiece.cells) := by
  induction gap with
  | nil => exact .refl _
  | cons p gap ih =>
    cases p with
    | blank cs | comment cs => exact List.Sublist.append (List.nil_sublist cs) ih
    | decl cs => exact List.Sublist.append (.refl cs) ih

theorem flatMap_sublist {f g : GatheredLoop → List Cell} (h : ∀ l, (f l).Sublist (g l))
    (loops : List GatheredLoop) : (loops.flatMap f).Sublist (loops.flatMap g) := by
  induction loops with
  | nil => exact .refl _
  | cons l loops ih => exact (h l).append ih

theorem moved_sublist (l : GatheredLoop) : (l.gapDecls ++ l.leadDecls).Sublist l.cells := by
  have hgap : l.gapDecls.Sublist l.gapCells := declCells_sublist l.gap
  have hlead : l.leadDecls.Sublist l.body :=
    (declCells_sublist l.lead).trans (List.sublist_append_left _ _)
  rw [GatheredLoop.cells, List.append_assoc, List.append_assoc]
  exact hgap.append (hlead.trans ((List.sublist_append_right _ _).trans
    (List.sublist_append_right _ _)))

theorem body_sublist (l : GatheredLoop) : l.body.Sublist l.cells := List.sublist_append_right _ _

theorem gapDecls_subset {l : GatheredLoop} {e : Cell} (h : e ∈ l.gapDecls) : e ∈ l.gapCells :=
  (declCells_sublist l.gap).subset h

/-- A declaration that overtakes a loop stands behind it in the run. -/
theorem moved_over_loop {loops : List GatheredLoop}
    (h : Ordered (loops.flatMap GatheredLoop.cells)) {e f : Cell} (hlt : e.2 < f.2)
    (hf : f ∈ loops.flatMap GatheredLoop.gapDecls) (he : e ∈ loops.flatMap GatheredLoop.body) :
    ∃ before l after, loops = before ++ l :: after ∧ f ∈ l.gapDecls ∧ ∃ m ∈ before, e ∈ m.body := by
  induction loops with
  | nil => simp at hf
  | cons x loops ih =>
    rw [List.flatMap_cons] at h
    rw [List.flatMap_cons, List.mem_append] at hf he
    rcases hf with hf | hf
    · exfalso
      rcases he with he | he
      · have hx : Ordered x.cells := (List.pairwise_append.mp h).1
        rw [GatheredLoop.cells, List.append_assoc, List.append_assoc] at hx
        refine hx.not_split hlt (gapDecls_subset hf) ?_
        exact List.mem_append_right _ (List.mem_append_right _ he)
      · have hfx : f ∈ x.cells := (moved_sublist x).subset (List.mem_append_left _ hf)
        exact h.not_split hlt hfx ((flatMap_sublist body_sublist loops).subset he)
    · rcases he with he | he
      · obtain ⟨l, hl, hfl⟩ := List.mem_flatMap.mp hf
        obtain ⟨before, after, rfl⟩ := List.append_of_mem hl
        exact ⟨x :: before, l, after, rfl, hfl, x, by simp, he⟩
      · obtain ⟨before, l, after, rfl, hfl, m, hm, hem⟩ := ih (List.pairwise_append.mp h).2.1 hf he
        exact ⟨x :: before, l, after, rfl, hfl, m, by simp [hm], hem⟩

theorem region_order {r : Region} (h : Ordered (r.loops.flatMap GatheredLoop.cells)) {e f : Cell}
    (hlt : e.2 < f.2) (htrailing : e ∉ r.trailing ∧ f ∉ r.trailing)
    (hlead : ∀ l ∈ r.loops, f ∉ l.leadDecls)
    (hsub : [f, e].Sublist (r.movedDecls ++ r.loops.flatMap GatheredLoop.body)) :
    ∃ before l after, r.loops = before ++ l :: after ∧ f ∈ l.gapDecls ∧
      ∃ m ∈ before, e ∈ m.body := by
  rcases pair_sublist_append hsub with hsub | ⟨hf, he⟩ | hsub
  · exfalso
    rcases pair_sublist_append hsub with hsub | ⟨-, he⟩ | hsub
    · exact h.not_sublist hlt (hsub.trans (flatMap_sublist moved_sublist r.loops))
    · exact htrailing.1 he
    · exact htrailing.1 (hsub.subset (by simp))
  · have hgap : f ∈ r.loops.flatMap GatheredLoop.gapDecls := by
      have hf' := (List.mem_append.mp hf).resolve_right htrailing.2
      obtain ⟨l, hl, hfl⟩ := List.mem_flatMap.mp hf'
      exact List.mem_flatMap.mpr
        ⟨l, hl, (List.mem_append.mp hfl).resolve_right (hlead l hl)⟩
    exact moved_over_loop h hlt hgap he
  · exact absurd (hsub.trans (flatMap_sublist body_sublist r.loops)) (h.not_sublist hlt)

theorem copies_subset_cells {c : Chunk} {e : Cell} (h : e ∈ c.copies) :
    e ∈ c.cells ∨ ∃ r, c = .region r ∧ e ∈ r.trailing := by
  cases c with
  | dropped cs => simp [Chunk.copies] at h
  | verbatim cs => exact Or.inl h
  | region r =>
    simp only [Chunk.copies, Region.movedDecls, List.mem_append] at h
    rcases h with (h | h) | h
    · exact Or.inl (List.mem_append_right _ ((flatMap_sublist moved_sublist r.loops).subset h))
    · exact Or.inr ⟨r, rfl, h⟩
    · exact Or.inl (List.mem_append_right _ ((flatMap_sublist body_sublist r.loops).subset h))

/-- The order of the output, over chunks whose regions repeat neither of two characters. -/
theorem chunks_order {cs : List Chunk} (h : Ordered (cs.flatMap Chunk.cells)) {e f : Cell}
    (hlt : e.2 < f.2)
    (hclean : ∀ r, Chunk.region r ∈ cs → (e ∉ r.trailing ∧ f ∉ r.trailing) ∧
      ∀ l ∈ r.loops, f ∉ l.leadDecls)
    (hsub : [f, e].Sublist (cs.flatMap Chunk.copies)) :
    ∃ r, Chunk.region r ∈ cs ∧ ∃ before l after, r.loops = before ++ l :: after ∧
      f ∈ l.gapDecls ∧ ∃ m ∈ before, e ∈ m.body := by
  induction cs with
  | nil => simp at hsub
  | cons c cs ih =>
    rw [List.flatMap_cons] at h hsub
    have hc := (List.pairwise_append.mp h).1
    have hcs := (List.pairwise_append.mp h).2.1
    have hclean' := fun r hr => hclean r (List.mem_cons_of_mem _ hr)
    rcases pair_sublist_append hsub with hsub | ⟨hf, he⟩ | hsub
    · cases c with
      | dropped cells => simp [Chunk.copies] at hsub
      | verbatim cells => exact absurd hsub (Ordered.not_sublist hc hlt)
      | region r =>
        obtain ⟨htrailing, hlead⟩ := hclean r List.mem_cons_self
        have hloops : Ordered (r.loops.flatMap GatheredLoop.cells) :=
          (List.pairwise_append.mp hc).2.1
        exact ⟨r, List.mem_cons_self, region_order hloops hlt htrailing hlead hsub⟩
    · exfalso
      have hfc : f ∈ c.cells := by
        refine (copies_subset_cells hf).resolve_right fun hcopy => ?_
        obtain ⟨r, hr, hmem⟩ := hcopy
        exact (hclean r (hr ▸ List.mem_cons_self)).1.2 hmem
      obtain ⟨d, hd, hed⟩ := List.mem_flatMap.mp he
      have hec : e ∈ d.cells := by
        refine (copies_subset_cells hed).resolve_right fun hcopy => ?_
        obtain ⟨r, hr, hmem⟩ := hcopy
        exact (hclean' r (hr ▸ hd)).1.1 hmem
      exact Ordered.not_split h hlt hfc (List.mem_flatMap.mpr ⟨d, hd, hec⟩)
    · obtain ⟨r, hr, hmoved⟩ := ih hcs hclean' hsub
      exact ⟨r, List.mem_cons_of_mem _ hr, hmoved⟩

/-- Two gathered loops at the end of a function. -/
def loopsThenReturn : List Char :=
  ("#pragma omp target teams distribute parallel for map(from:a)\n" ++
    "for (i = 0; i < n; i++) a[i] = 0;\n" ++
    "#pragma omp target teams distribute parallel for map(from:b)\n" ++
    "for (i = 0; i < n; i++) b[i] = 0;\n" ++
    "return 0;\n").toList

end LoomX
