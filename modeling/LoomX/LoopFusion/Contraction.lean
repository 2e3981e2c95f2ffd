import LoomX.LoopFusion.WrittenText
import LoomX.ReductionHelper.Evaluation

namespace LoomX.LoopFusion

def trimSpace (s : List Char) : List Char :=
  ((s.dropWhile isSpace).reverse.dropWhile isSpace).reverse

/-- What is assigned, if an assignment goes on here, and how many characters it takes up to its
semicolon. -/
def assignedRhs (s : List Char) : Option (List Char × Nat) :=
  match s.dropWhile isSpace with
  | '=' :: rest =>
    if rest.head? = some '=' ∨ ';' ∉ rest then none
    else some (trimSpace (rest.takeWhile (· != ';')),
      (s.takeWhile isSpace).length + 1 + (rest.takeWhile (· != ';')).length + 1)
  | _ => none

/-- The assignments to `needle`, with their positions. The first `skip` characters belong to an
assignment that was found. -/
def indexAssignments (needle : List Char) (pos : Nat) : Nat → List Char → List (Nat × List Char)
  | _, [] => []
  | skip + 1, _ :: s => indexAssignments needle (pos + 1) skip s
  | 0, c :: s =>
    if needle.isPrefixOf (c :: s) then
      match assignedRhs ((c :: s).drop needle.length) with
      | some (rhs, n) => (pos, rhs) :: indexAssignments needle (pos + 1) (needle.length + n - 1) s
      | none => indexAssignments needle (pos + 1) 0 s
    else indexAssignments needle (pos + 1) 0 s

/-- The right side of the last assignment to `arr[iv]`, and where the assignments are. -/
def findLastIndexAssignmentRhs (producer arr iv : List Char) : List Char × List Nat :=
  let found := indexAssignments (arrayRead arr iv) 0 0 producer
  ((found.getLast?.map Prod.snd).getD [], found.map Prod.fst)

def hasSideEffectsFrom (before : Option Char) : List Char → Bool
  | [] => false
  | c :: s =>
    c == '+' && s.head? == some '+' || c == '-' && s.head? == some '-' ||
      c == '=' && before != some '=' && s.head? != some '=' || hasSideEffectsFrom (some c) s

def hasSideEffects (expr : List Char) : Bool := hasSideEffectsFrom none expr

def startsAssignment (needle s : List Char) : Bool :=
  needle.isPrefixOf s && match (s.drop needle.length).dropWhile isSpace with
    | '=' :: rest => rest.head? != some '='
    | _ => false

def consumerOverwritesArray (consumer arr iv : List Char) : Bool :=
  consumer.tails.any (startsAssignment (arrayRead arr iv))

def substituteArrayRead (text arr iv expr : List Char) : List Char :=
  replaceAll (arrayRead arr iv) ('(' :: (expr ++ [')'])) text

/-- Whether a branch is written between the first assignment and the last one. -/
def branchBetween (producer : List Char) (assigns : List Nat) : Bool :=
  let first := assigns.headD 0
  let last := assigns.getLastD 0
  let between := (producer.drop first).take (last - first)
  decide (first < last) &&
    (decide ("if".toList <:+: between) || decide ("else".toList <:+: between))

/-- The consumer with the right side of the producer's last assignment for the reads of the
array, if it may be put there. -/
def contractArray (producer consumer arr iv : List Char) : Option (List Char) :=
  let (expr, assigns) := findLastIndexAssignmentRhs producer arr iv
  if expr.isEmpty || hasSideEffects expr then none
  else if consumerOverwritesArray consumer arr iv then none
  else if decide (1 < assigns.length) && branchBetween producer assigns then none
  else some (substituteArrayRead consumer arr iv expr)

/-- Whether an array was contracted, the producer, and the new consumer. -/
def contractProducerArrays (producer consumer iv : List Char) (arrays : List (List Char)) :
    Bool × List Char × List Char :=
  let step := fun (changed, consumer) arr =>
    match contractArray producer consumer arr iv with
    | none => (changed, consumer)
    | some new => (true, new)
  let (changed, new) := arrays.foldl step (false, consumer)
  (changed, producer, new)

/-- A jump, and its keyword. -/
inductive Jump : Stmt → List Char → Prop
  | breaking : Jump .breakStmt "break".toList
  | continuing : Jump .continueStmt "continue".toList
  | returning : Jump (.returnStmt none) "return".toList

/-- A statement with a test in parentheses, and its keyword. -/
inductive Tested : (Expr → Stmt → Stmt) → List Char → Prop
  | ifThen : Tested (fun c a => .ite c a .empty) "if".toList
  | whileLoop : Tested .whileLoop "while".toList

/-- A type name with what separates it from a declarator. -/
structure IsTypeName (s : List Char) : Prop where
  last : ∃ front c, s = front ++ [c] ∧ isPlain c = true
  noOpen : '[' ∉ s

/-- Array bounds, as numbers. -/
inductive IsBounds : List Char → Prop
  | nil : IsBounds []
  | cons {digits rest : List Char} (hne : digits ≠ [])
      (hdigits : ∀ c ∈ digits, c.isDigit = true) (hrest : IsBounds rest) :
      IsBounds ('[' :: (digits ++ (']' :: rest)))

/-- The text goes on with a character that is in no identifier. -/
def StartsPlain (s : List Char) : Prop := ∃ c rest, s = c :: rest ∧ isPlain c = true

/-- The texts a statement can be written as, as for expressions. -/
inductive WrittenStmt (arr iv : List Char) (tight : Bool) : Stmt → List Char → Prop
  | empty {g : List Char} (hg : IsGap (arrayRead arr iv) g) :
      WrittenStmt arr iv tight .empty ([';'] ++ g)
  | emptyBlock {g g' : List Char} (hg : IsGap (arrayRead arr iv) g)
      (hg' : IsGap (arrayRead arr iv) g') :
      WrittenStmt arr iv tight .empty ((['\x7b'] ++ g) ++ (['\x7d'] ++ g'))
  | block {a : Stmt} {s g g' : List Char} (ha : WrittenStmt arr iv tight a s)
      (hg : IsGap (arrayRead arr iv) g) (hg' : IsGap (arrayRead arr iv) g') :
      WrittenStmt arr iv tight a ((['\x7b'] ++ g) ++ (s ++ (['\x7d'] ++ g')))
  | expr {e : Expr} {s g : List Char} (he : Written arr iv tight .full e s)
      (hg : IsGap (arrayRead arr iv) g) :
      WrittenStmt arr iv tight (.expr e) (s ++ ([';'] ++ g))
  | decl {v : Var} {type bounds g g' : List Char} (htype : IsTypeName type)
      (hname : IsIdentifier v.name.toList) (hbounds : IsBounds bounds)
      (hg : IsGap (arrayRead arr iv) g) (hg' : IsGap (arrayRead arr iv) g') :
      WrittenStmt arr iv tight (.decl v none)
        (type ++ ((v.name.toList ++ g) ++ (bounds ++ ([';'] ++ g'))))
  | initialised {v : Var} {e : Expr} {type s g g' g'' : List Char} (htype : IsTypeName type)
      (hname : IsIdentifier v.name.toList) (he : Written arr iv tight .full e s)
      (hg : IsGap (arrayRead arr iv) g) (hg' : IsGap (arrayRead arr iv) g')
      (hg'' : IsGap (arrayRead arr iv) g'') :
      WrittenStmt arr iv tight (.decl v (some e))
        (type ++ ((v.name.toList ++ g) ++ ((['='] ++ g') ++ (s ++ ([';'] ++ g'')))))
  | seq {a b : Stmt} {s t : List Char} (ha : WrittenStmt arr iv tight a s)
      (hb : WrittenStmt arr iv tight b t) : WrittenStmt arr iv tight (.seq a b) (s ++ t)
  | tested {node : Expr → Stmt → Stmt} {c : Expr} {a : Stmt} {word s t g g' g'' : List Char}
      (hnode : Tested node word) (hc : Written arr iv tight .full c s)
      (ha : WrittenStmt arr iv tight a t) (hg : IsGap (arrayRead arr iv) g)
      (hg' : IsGap (arrayRead arr iv) g') (hg'' : IsGap (arrayRead arr iv) g'') :
      WrittenStmt arr iv tight (node c a)
        ((word ++ g) ++ ((['('] ++ g') ++ (s ++ (([')'] ++ g'') ++ t))))
  | ifElse {c : Expr} {a b : Stmt} {s t u g g' g'' h : List Char}
      (hc : Written arr iv tight .full c s) (ha : WrittenStmt arr iv tight a t)
      (hb : WrittenStmt arr iv tight b u) (hg : IsGap (arrayRead arr iv) g)
      (hg' : IsGap (arrayRead arr iv) g') (hg'' : IsGap (arrayRead arr iv) g'')
      (hh : IsGap (arrayRead arr iv) h) (hstart : StartsPlain (h ++ u)) :
      WrittenStmt arr iv tight (.ite c a b) (("if".toList ++ g) ++ ((['('] ++ g') ++
        (s ++ (([')'] ++ g'') ++ (t ++ ("else".toList ++ (h ++ u)))))))
  | forLoop {i b : Stmt} {c x : Expr} {s t u w g g' g'' h : List Char}
      (hi : WrittenStmt arr iv tight i s) (hc : Written arr iv tight .full c t)
      (hx : Written arr iv tight .full x u) (hb : WrittenStmt arr iv tight b w)
      (hg : IsGap (arrayRead arr iv) g) (hg' : IsGap (arrayRead arr iv) g')
      (hg'' : IsGap (arrayRead arr iv) g'') (hh : IsGap (arrayRead arr iv) h) :
      WrittenStmt arr iv tight (.forLoop i c x b) (("for".toList ++ g) ++ ((['('] ++ g') ++
        (s ++ (t ++ (([';'] ++ g'') ++ (u ++ (([')'] ++ h) ++ w)))))))
  | jump {a : Stmt} {word g g' : List Char} (ha : Jump a word) (hg : IsGap (arrayRead arr iv) g)
      (hg' : IsGap (arrayRead arr iv) g') :
      WrittenStmt arr iv tight a ((word ++ g) ++ ([';'] ++ g'))
  | returned {e : Expr} {s g g' : List Char} (he : Written arr iv tight .full e s)
      (hg : IsGap (arrayRead arr iv) g) (hg' : IsGap (arrayRead arr iv) g')
      (hstart : StartsPlain (g ++ s)) :
      WrittenStmt arr iv tight (.returnStmt (some e))
        ("return".toList ++ (g ++ (s ++ ([';'] ++ g'))))

/-- A body with `e` for every read of `arr[iv]`. -/
def contractStmt (arr iv : List Char) (e : Expr) : Stmt → Stmt
  | .empty => .empty
  | .expr x => .expr (contract arr iv e x)
  | .decl v init => .decl v (init.map (contract arr iv e))
  | .seq a b => .seq (contractStmt arr iv e a) (contractStmt arr iv e b)
  | .ite c a b => .ite (contract arr iv e c) (contractStmt arr iv e a) (contractStmt arr iv e b)
  | .whileLoop c b => .whileLoop (contract arr iv e c) (contractStmt arr iv e b)
  | .forLoop i c x b => .forLoop (contractStmt arr iv e i) (contract arr iv e c)
      (contract arr iv e x) (contractStmt arr iv e b)
  | .breakStmt => .breakStmt
  | .continueStmt => .continueStmt
  | .returnStmt x => .returnStmt (x.map (contract arr iv e))

section
variable {arr iv s t word g : List Char} {tight : Bool}

/-- The text ends with a character that is in no identifier. -/
def EndsPlain (s : List Char) : Prop := ∃ front c, s = front ++ [c] ∧ isPlain c = true

theorem EndsPlain.prepend (h : EndsPlain t) (s : List Char) : EndsPlain (s ++ t) := by
  obtain ⟨front, c, rfl, hc⟩ := h
  exact ⟨s ++ front, c, (List.append_assoc s front [c]).symm, hc⟩

theorem endsPlain_gap {c : Char} {old : List Char} (hc : isPlain c = true) (hg : IsGap old g) :
    EndsPlain ([c] ++ g) := ((plainEnds_single hc).append hg.ends).last

theorem WrittenStmt.endsPlain {a : Stmt} (h : WrittenStmt arr iv tight a s) : EndsPlain s := by
  induction h with
  | empty hg => exact endsPlain_gap (by decide) hg
  | emptyBlock hg hg' => exact (endsPlain_gap (by decide) hg').prepend _
  | block ha hg hg' ih => exact ((endsPlain_gap (by decide) hg').prepend _).prepend _
  | expr he hg => exact (endsPlain_gap (by decide) hg).prepend _
  | decl htype hname hbounds hg hg' =>
    exact (((endsPlain_gap (by decide) hg').prepend _).prepend _).prepend _
  | initialised htype hname he hg hg' hg'' =>
    exact ((((endsPlain_gap (by decide) hg'').prepend _).prepend _).prepend _).prepend _
  | seq ha hb iha ihb => exact ihb.prepend _
  | tested hnode hc ha hg hg' hg'' ih => exact (((ih.prepend _).prepend _).prepend _).prepend _
  | ifElse hc ha hb hg hg' hg'' hh hstart iha ihb =>
    exact ((((((ihb.prepend _).prepend _).prepend _).prepend _).prepend _).prepend _).prepend _
  | forLoop hi hc hx hb hg hg' hg'' hh ihi ihb =>
    exact ((((((ihb.prepend _).prepend _).prepend _).prepend _).prepend _).prepend _).prepend _
  | jump ha hg hg' => exact (endsPlain_gap (by decide) hg').prepend _
  | returned he hg hg' hstart =>
    exact (((endsPlain_gap (by decide) hg').prepend _).prepend _).prepend _

theorem EndsPlain.noCross (harr : IsIdentifier arr) (hiv : IsIdentifier iv) (hs : EndsPlain s)
    (t : List Char) : NoCross (arrayRead arr iv) s t := by
  obtain ⟨front, c, rfl, hc⟩ := hs
  refine noCross_of_last fun d hd => ?_
  obtain rfl : c = d := by simpa using hd
  exact not_mem_arrayRead harr hiv hc

theorem StartsPlain.noCross (harr : IsIdentifier arr) (hiv : IsIdentifier iv) (ht : StartsPlain t)
    (s : List Char) : NoCross (arrayRead arr iv) s t := by
  obtain ⟨c, rest, rfl, hc⟩ := ht
  refine noCross_of_head fun d hd => ?_
  obtain rfl : c = d := by simpa using hd
  exact not_mem_arrayRead harr hiv hc

theorem StartsPlain.append (h : StartsPlain s) (t : List Char) : StartsPlain (s ++ t) := by
  obtain ⟨c, rest, rfl, hc⟩ := h
  exact ⟨c, rest ++ t, rfl, hc⟩

theorem StartsPlain.replaceAll (harr : IsIdentifier arr)
    (h : StartsPlain s) (iv new : List Char) :
    StartsPlain (LoomX.replaceAll (arrayRead arr iv) new s) := by
  obtain ⟨c, rest, rfl, hc⟩ := h
  refine ⟨c, LoomX.replaceAll (arrayRead arr iv) new rest, ?_, hc⟩
  exact replaceAll_cons (arrayRead_ne arr iv) (arrayRead_head harr (isPlain_iff.mp hc).1) rest

theorem replaceAll_word {new : List Char} (harr : IsIdentifier arr) (hiv : IsIdentifier iv)
    (hword : ∀ c ∈ word, isIdentChar c = true) (ht : StartsPlain t) :
    replaceAll (arrayRead arr iv) new (word ++ t) = word ++ replaceAll (arrayRead arr iv) new t := by
  rw [replaceAll_append (ht.noCross harr hiv word), replaceAll_ident hword]

theorem replaceAll_type {new type : List Char} (harr : IsIdentifier arr) (hiv : IsIdentifier iv)
    (htype : IsTypeName type) (t : List Char) : replaceAll (arrayRead arr iv) new (type ++ t) =
      type ++ replaceAll (arrayRead arr iv) new t := by
  have hends : EndsPlain type := htype.last
  rw [replaceAll_append (hends.noCross harr hiv t),
    replaceAll_of_free (not_infix_of_no_open htype.noOpen)]

theorem IsBounds.chars (h : IsBounds s) : ∀ c ∈ s, c.isDigit = true ∨ c = '[' ∨ c = ']' := by
  induction h with
  | nil => simp
  | cons hne hdigits hrest ih =>
    intro c hc
    simp only [List.mem_cons, List.mem_append] at hc
    obtain rfl | hc | rfl | hc := hc
    · exact Or.inr (Or.inl rfl)
    · exact Or.inl (hdigits c hc)
    · exact Or.inr (Or.inr rfl)
    · exact ih c hc

theorem IsBounds.free (harr : IsIdentifier arr) (h : IsBounds s) :
    ¬arrayRead arr iv <:+: s := by
  intro hin
  obtain ⟨c, rest, rfl⟩ := List.exists_cons_of_ne_nil harr.ne
  have hident := harr.chars c List.mem_cons_self
  have hdigit := harr.start c rfl
  obtain h | rfl | rfl := h.chars c (hin.subset (by simp [arrayRead]))
  · rw [h] at hdigit
    cases hdigit
  · exact absurd hident (by decide)
  · exact absurd hident (by decide)

theorem IsBounds.noCross (harr : IsIdentifier arr) (hiv : IsIdentifier iv) (h : IsBounds t)
    (s : List Char) : NoCross (arrayRead arr iv) s t := by
  intro u v _ hv heq _ hpre
  cases h with
  | nil => exact hv (List.prefix_nil.mp hpre)
  | @cons digits rest hne hdigits hrest =>
    obtain ⟨d, v, rfl⟩ := List.exists_cons_of_ne_nil hv
    obtain ⟨rfl, hinner⟩ := List.cons_prefix_cons.mp hpre
    obtain ⟨-, rfl⟩ := arrayRead_split harr hiv heq
    obtain ⟨c, digits, rfl⟩ := List.exists_cons_of_ne_nil hne
    obtain ⟨e, iv, rfl⟩ := List.exists_cons_of_ne_nil hiv.ne
    obtain ⟨rfl, -⟩ := List.cons_prefix_cons.mp hinner
    have hdigit := hiv.start e rfl
    rw [hdigits e List.mem_cons_self] at hdigit
    cases hdigit

theorem glue_char {c : Char} (harr : IsIdentifier arr) (hiv : IsIdentifier iv)
    (hc : isPlain c = true) (hg : IsGap (arrayRead arr iv) g) :
    Glue (arrayRead arr iv) ([c] ++ g) := by
  refine (plainEnds_single hc).glue_gap harr hiv (fun hmem => ?_) hg
  obtain rfl := List.mem_singleton.mp hmem
  exact absurd hc (by decide)

theorem Jump.keyword {a : Stmt} (h : Jump a word) : ∀ c ∈ word, isIdentChar c = true := by
  rw [← List.all_eq_true]
  cases h <;> rfl

theorem Jump.contract {a : Stmt} (h : Jump a word) (e : Expr) : contractStmt arr iv e a = a := by
  cases h <;> rfl

theorem Tested.keyword {node : Expr → Stmt → Stmt} (h : Tested node word) :
    ∀ c ∈ word, isIdentChar c = true := by
  rw [← List.all_eq_true]
  cases h <;> rfl

theorem Tested.contract {node : Expr → Stmt → Stmt} (h : Tested node word) (e c : Expr) (a : Stmt) :
    contractStmt arr iv e (node c a) =
      node (LoopFusion.contract arr iv e c) (contractStmt arr iv e a) := by
  cases h <;> rfl

/-- Rewriting the text of a body gives a text of the rewritten body. -/
theorem WrittenStmt.contract {a : Stmt} {e : Expr} {rhs : List Char} (harr : IsIdentifier arr)
    (hiv : IsIdentifier iv) (he : Written arr iv false .full e rhs)
    (h : WrittenStmt arr iv true a s) (hclean : CleanOccurrences arr iv s) :
    WrittenStmt arr iv false (contractStmt arr iv e a)
      (replaceAll (arrayRead arr iv) ('(' :: (rhs ++ [')'])) s) := by
  have hword : ∀ {w : List Char}, w.all isIdentChar = true → ∀ c ∈ w, isIdentChar c = true :=
    fun hw => List.all_eq_true.mp hw
  induction h with
  | empty hg =>
    rw [replaceAll_of_free (glue_char harr hiv (by decide) hg).none]
    exact .empty hg
  | emptyBlock hg hg' =>
    have hclose := glue_char harr hiv (c := '\x7d') (by decide) hg'
    rw [replaceAll_glue_last hclose,
      replaceAll_of_free (glue_char harr hiv (by decide) hg).none]
    exact .emptyBlock hg hg'
  | block ha hg hg' ih =>
    rw [replaceAll_glue_first (glue_char harr hiv (by decide) hg),
      replaceAll_glue_last (glue_char harr hiv (by decide) hg')]
    exact .block (ih hclean.part) hg hg'
  | expr hx hg =>
    rw [replaceAll_glue_last (glue_char harr hiv (by decide) hg)]
    exact .expr (Written.contract harr hiv he hx hclean.left) hg
  | decl htype hname hbounds hg hg' =>
    rw [replaceAll_type harr hiv htype,
      ← List.append_assoc, replaceAll_glue_last (glue_char harr hiv (by decide) hg'),
      replaceAll_append (hbounds.noCross harr hiv _), replaceAll_gap harr hiv hg,
      replaceAll_ident hname.chars, replaceAll_of_free (hbounds.free harr),
      List.append_assoc]
    exact .decl htype hname hbounds hg hg'
  | initialised htype hname hx hg hg' hg'' =>
    rw [replaceAll_type harr hiv htype, replaceAll_glue (glue_char harr hiv (by decide) hg'),
      replaceAll_gap harr hiv hg, replaceAll_ident hname.chars,
      replaceAll_glue_last (glue_char harr hiv (by decide) hg'')]
    exact .initialised htype hname
      (Written.contract harr hiv he hx hclean.right.right.right.left) hg hg' hg''
  | seq ha hb iha ihb =>
    rw [replaceAll_append (ha.endsPlain.noCross harr hiv _)]
    exact .seq (iha hclean.left) (ihb hclean.right)
  | tested hnode hc ha hg hg' hg'' ih =>
    rw [replaceAll_glue (glue_char harr hiv (by decide) hg'), replaceAll_gap harr hiv hg,
      replaceAll_ident hnode.keyword, replaceAll_glue (glue_char harr hiv (by decide) hg''),
      hnode.contract]
    have hrest := hclean.right.right
    exact .tested hnode (Written.contract harr hiv he hc hrest.left) (ih hrest.right.right) hg hg' hg''
  | ifElse hc ha hb hg hg' hg'' hh hstart iha ihb =>
    have hstart' := hstart.replaceAll harr iv ('(' :: (rhs ++ [')']))
    rw [replaceAll_gap_first harr hiv hh] at hstart'
    rw [replaceAll_glue (glue_char harr hiv (by decide) hg'), replaceAll_gap harr hiv hg,
      replaceAll_ident (hword rfl), replaceAll_glue (glue_char harr hiv (by decide) hg''),
      replaceAll_append (ha.endsPlain.noCross harr hiv _),
      replaceAll_word harr hiv (hword rfl) hstart, replaceAll_gap_first harr hiv hh]
    have hbranches := hclean.right.right.right.right
    exact .ifElse (Written.contract harr hiv he hc hclean.right.right.left) (iha hbranches.left)
      (ihb hbranches.right.right.right) hg hg' hg'' hh hstart'
  | forLoop hi hc hx hb hg hg' hg'' hh ihi ihb =>
    rw [replaceAll_glue (glue_char harr hiv (by decide) hg'), replaceAll_gap harr hiv hg,
      replaceAll_ident (hword rfl), replaceAll_append (hi.endsPlain.noCross harr hiv _),
      replaceAll_glue (glue_char harr hiv (by decide) hg''),
      replaceAll_glue (glue_char harr hiv (by decide) hh)]
    have hinit := hclean.right.right
    have hstep := hinit.right.right.right
    exact .forLoop (ihi hinit.left) (Written.contract harr hiv he hc hinit.right.left)
      (Written.contract harr hiv he hx hstep.left) (ihb hstep.right.right) hg hg' hg'' hh
  | jump ha hg hg' =>
    rw [replaceAll_glue_last (glue_char harr hiv (by decide) hg'), replaceAll_gap harr hiv hg,
      replaceAll_ident ha.keyword, ha.contract]
    exact .jump ha hg hg'
  | returned hx hg hg' hstart =>
    have hstart' := hstart.replaceAll harr iv ('(' :: (rhs ++ [')']))
    rw [replaceAll_gap_first harr hiv hg] at hstart'
    rw [replaceAll_word harr hiv (hword rfl) (by rw [← List.append_assoc]; exact hstart.append _),
      replaceAll_gap_first harr hiv hg, replaceAll_glue_last (glue_char harr hiv (by decide) hg')]
    exact .returned (Written.contract harr hiv he hx hclean.right.right.left) hg hg' hstart'

end

end LoomX.LoopFusion
