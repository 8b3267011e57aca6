import TimeCodeSecurity.Suppressions.Directives

/-! # What a bracketed directive changes

A file with and without one bracketed directive at the end of a line. The directive itself is for that line
only, but the scan upwards passes over any line that holds a directive, and of a comment that is already there
nothing but the brackets is read.
-/
namespace TimeCodeSecurity.Suppressions
open TextLines Trimming Scanner Climb
set_option autoImplicit false

/-- `# tcs: ignore[...]` behind some blanks. -/
structure BracketedComment where
  pad : Text
  text : Text
  blank : ∀ c ∈ pad, isSpace c = true
  hash : text.head? = some '#'
  oneLine : ∀ c ∈ pad ++ text, isLineBoundary c = false
  bracketed : ((directiveHead text).bind bracketTail).isSome = true

/-- One such comment at the end of a line. What is read as a comment on that line ends with it; nothing changes
in the comments of other lines. -/
structure BracketEdit (tokenize : Tokenizer) where
  upTo : Text
  rest : Text
  comment : BracketedComment
  line : ℕ
  endOfLine : rest = [] ∨ rest.head? = some '\n' ∨ rest.head? = some '\r'
  meets : Meets upTo rest
  others : (comments tokenize (upTo ++ (comment.pad ++ comment.text) ++ rest)).filter (·.1 ≠ line) =
    (comments tokenize (upTo ++ rest)).filter (·.1 ≠ line)
  read : ∀ c ∈ comments tokenize (upTo ++ (comment.pad ++ comment.text) ++ rest), c.1 = line →
    ∃ before, c.2 = before ++ comment.text

namespace BracketEdit

variable {tokenize : Tokenizer} (E : BracketEdit tokenize)

def without : Text := E.upTo ++ E.rest

def commented : Text := E.upTo ++ (E.comment.pad ++ E.comment.text) ++ E.rest

end BracketEdit

section
variable (U : Unicode) {tokenize : Tokenizer} (E : BracketEdit tokenize)

theorem line_of_directiveOf {line : ℕ} {comment : Text} {d : Directive} (h : directiveOf U line comment = some d) :
    d.line = line := by
  unfold directiveOf at h
  split at h
  · obtain ⟨p, -, rfl⟩ := Option.map_eq_some_iff.mp h
    rfl
  · obtain ⟨t, -, h⟩ := Option.bind_eq_some_iff.mp h
    obtain ⟨p, -, rfl⟩ := Option.map_eq_some_iff.mp h
    rfl

theorem onLine_extract (source : Text) (line : ℕ) :
    onLine (extractFileDirectives U tokenize source) line =
      ((comments tokenize source).filter (·.1 = line)).filterMap fun c => directiveOf U c.1 c.2 := by
  rw [onLine, extractFileDirectives, List.filter_filterMap, List.filterMap_filter]
  refine List.filterMap_congr fun c _ => ?_
  cases hd : directiveOf U c.1 c.2 with
  | none => simp
  | some d =>
    have := line_of_directiveOf U hd
    by_cases hline : c.1 = line <;> simp [this, hline]

theorem onLine_other {line : ℕ} (h : line ≠ E.line) :
    onLine (extractFileDirectives U tokenize E.commented) line =
      onLine (extractFileDirectives U tokenize E.without) line := by
  have hsame : ∀ cs : List (ℕ × Text), cs.filter (·.1 = line) = (cs.filter (·.1 ≠ E.line)).filter (·.1 = line) := by
    intro cs
    rw [List.filter_filter]
    refine List.filter_congr fun c _ => ?_
    by_cases hc : c.1 = line
    · simp [hc, h]
    · simp [hc]
  rw [onLine_extract, onLine_extract, hsame, BracketEdit.commented, E.others, ← hsame, BracketEdit.without]

theorem search_append {γ : Type} {tail : Text → Option γ} {text : Text} (h : (search tail text).isSome = true)
    (before : Text) : (search tail (before ++ text)).isSome = true := by
  induction before with
  | nil => exact h
  | cons c before ih =>
    rw [List.cons_append, search]
    split
    · rfl
    · exact ih

theorem search_comment (C : BracketedComment) : (search bracketTail C.text).isSome = true := by
  have hbracketed := C.bracketed
  cases htext : C.text with
  | nil =>
    rw [htext] at hbracketed
    cases hbracketed
  | cons c t =>
    rw [htext] at hbracketed
    obtain ⟨groups, hgroups⟩ := Option.isSome_iff_exists.mp hbracketed
    rw [search, hgroups]
    rfl

theorem exact_of_commented {d : Directive}
    (h : d ∈ onLine (extractFileDirectives U tokenize E.commented) E.line) : d.exactLine = true := by
  rw [onLine_extract] at h
  obtain ⟨c, hc, hd⟩ := List.mem_filterMap.mp h
  obtain ⟨hmem, hline⟩ := List.mem_filter.mp hc
  obtain ⟨before, hbefore⟩ := E.read c hmem (of_decide_eq_true hline)
  obtain ⟨groups, hgroups⟩ := Option.isSome_iff_exists.mp (search_append (search_comment E.comment) before)
  rw [directiveOf, hbefore, hgroups] at hd
  obtain ⟨p, -, rfl⟩ := Option.map_eq_some_iff.mp hd
  rfl

theorem serves_commented (cwe : Text) :
    serves U cwe (extractFileDirectives U tokenize E.commented) E.line = none := by
  rw [serves, List.find?_eq_none]
  intro d hd
  simp [exact_of_commented U E hd]

/-! ## Lines of both texts -/

theorem passable_eq (t : Text) : passable t = (t.dropWhile isSpace).head?.all (· = '#') := by
  cases hrest : t.dropWhile isSpace with
  | nil =>
    have hnil : strip t = [] := by
      rw [strip, trim, hrest]
      rfl
    simp [passable, hnil]
  | cons c cs =>
    have hc : isSpace c = false := by
      have hhead := List.head_dropWhile_not isSpace (l := t) (by rw [hrest]; exact List.cons_ne_nil _ _)
      simpa [hrest] using hhead
    have hprefix : strip t <+: c :: cs := by
      rw [strip, trim, hrest]
      exact List.rdropWhile_prefix isSpace _
    have hne : strip t ≠ [] := by
      rw [strip, trim, hrest, Ne, List.rdropWhile_eq_nil_iff]
      intro h
      rw [h c List.mem_cons_self] at hc
      cases hc
    obtain ⟨d, ds, hstrip⟩ := List.exists_cons_of_ne_nil hne
    rw [hstrip] at hprefix
    obtain ⟨rfl, -⟩ := List.cons_prefix_cons.mp hprefix
    simp [passable, hstrip]

theorem dropWhile_comment (C : BracketedComment) : (C.pad ++ C.text).dropWhile isSpace = C.text := by
  rw [List.dropWhile_append_of_pos C.blank]
  obtain ⟨t, ht⟩ := List.head?_eq_some_iff.mp C.hash
  rw [ht]
  rfl

theorem passable_append (C : BracketedComment) (last : Text) :
    passable (last ++ (C.pad ++ C.text)) = passable last := by
  rw [passable_eq, passable_eq, List.dropWhile_append]
  split
  next hblank =>
    rw [dropWhile_comment, C.hash, List.isEmpty_iff.mp hblank]
    rfl
  next hblank =>
    obtain ⟨c, cs, hrest⟩ := List.exists_cons_of_ne_nil (mt List.isEmpty_iff.mpr hblank)
    rw [hrest]
    rfl

theorem passable_line (line : ℕ) :
    passable ((sourceLines E.commented)[line]?.getD []) = passable ((sourceLines E.without)[line]?.getD []) := by
  have hany : ∀ (lines : List Text) (i : ℕ), passable (lines[i]?.getD []) = !lines[i]?.any fun t => !passable t := by
    intro lines i
    cases lines[i]? with
    | none => rfl
    | some t => simp
  obtain ⟨ps, last, tl, -, hwithout, hcommented⟩ := pieces_insert (by decide : isLineBoundary '\r' = true)
    (by decide) E.endOfLine E.meets E.comment.oneLine
  rw [hany, hany, sourceLines, sourceLines, any_getElem?_splitLines _ rfl, any_getElem?_splitLines _ rfl,
    BracketEdit.commented, BracketEdit.without, hwithout, hcommented]
  rcases Nat.lt_trichotomy line ps.length with h | rfl | h
  · rw [List.getElem?_append_left h, List.getElem?_append_left h]
  · simp [passable_append]
  · obtain ⟨i, hi⟩ : ∃ i, line - ps.length = i + 1 := ⟨line - ps.length - 1, by omega⟩
    rw [List.getElem?_append_right (by omega), List.getElem?_append_right (by omega), hi]
    rfl

theorem passes_other {line : ℕ} (h : line ≠ E.line) :
    passes (extractFileDirectives U tokenize E.commented) (sourceLines E.commented) line =
      passes (extractFileDirectives U tokenize E.without) (sourceLines E.without) line := by
  rw [passes, passes, onLine_other U E h, passable_line]

theorem serves_other {line : ℕ} (h : line ≠ E.line) (cwe : Text) :
    serves U cwe (extractFileDirectives U tokenize E.commented) line =
      serves U cwe (extractFileDirectives U tokenize E.without) line := by
  rw [serves, serves, onLine_other U E h]

theorem mentionsTcs_iff (content : Text) : mentionsTcs content = true ↔ lit "tcs" <:+: content.map Char.toLower :=
  Separators.any_tails_iff _ _

theorem mentionsTcs_commented (h : mentionsTcs E.without = true) : mentionsTcs E.commented = true := by
  rw [mentionsTcs_iff] at h ⊢
  rw [BracketEdit.commented, List.map_append, List.map_append]
  rw [BracketEdit.without, List.map_append, List.infix_append_iff] at h
  rcases h with h | h | ⟨front, back, hsplit, hfront, hback⟩
  · exact List.infix_append_of_infix_left (List.infix_append_of_infix_left h)
  · exact List.infix_append_of_infix_right h
  · -- A line end is no part of the word.
    have hnil : back = [] := by
      cases back with
      | nil => rfl
      | cons c back =>
        exfalso
        have hc : c ∈ lit "tcs" := by simp [hsplit]
        have hends : c = '\n' ∨ c = '\r' := by
          obtain ⟨more, hmore⟩ := hback
          rcases E.endOfLine with h | h | h
          · rw [h] at hmore
            cases hmore
          · obtain ⟨t, ht⟩ := List.head?_eq_some_iff.mp h
            rw [ht] at hmore
            exact .inl (List.cons.inj hmore).1
          · obtain ⟨t, ht⟩ := List.head?_eq_some_iff.mp h
            rw [ht] at hmore
            exact .inr (List.cons.inj hmore).1
        rcases hends with rfl | rfl <;> exact absurd hc (by decide)
    rw [hnil, List.append_nil] at hsplit
    rw [hsplit]
    exact List.infix_append_of_infix_left (List.infix_append_of_infix_left hfront.isInfix)

end

section
variable (U : Unicode) {tokenize : Tokenizer} (E : BracketEdit tokenize) (f : Finding)

structure Comes : Prop where
  unanswered : (onLine (extractFileDirectives U tokenize E.without) f.sinkLine).find? (targets U f.cwe) = none
  numbered : 1 ≤ E.line
  above : E.line < f.sinkLine
  near : f.sinkLine ≤ E.line + 10
  clears : Clears (serves U f.cwe (extractFileDirectives U tokenize E.without))
    (passes (extractFileDirectives U tokenize E.without) (sourceLines E.without)) (f.sinkLine - 1) E.line

/-- Past that line the scan would end on line `n`. -/
def Further (n : ℕ) : Prop :=
  Reached (serves U f.cwe (extractFileDirectives U tokenize E.without))
    (passes (extractFileDirectives U tokenize E.without) (sourceLines E.without))
    (E.line + 10 - f.sinkLine) (E.line - 1) n

def PassesNow : Prop :=
  passes (extractFileDirectives U tokenize E.commented) (sourceLines E.commented) E.line = true

def PassedBefore : Prop :=
  passes (extractFileDirectives U tokenize E.without) (sourceLines E.without) E.line = true

/-- The comment takes nothing from the finding and lets nothing through to it. -/
structure Unmoved : Prop where
  /-- Where the line has a directive for the finding, one above with the same justification takes over. -/
  taken : Comes U E f → ∀ d, serves U f.cwe (extractFileDirectives U tokenize E.without) E.line = some d →
    PassesNow U E ∧ ∃ n a, Further U E f n ∧
      serves U f.cwe (extractFileDirectives U tokenize E.without) n = some a ∧ a.justification = d.justification
  /-- Where it has none, the line was passed anyway, or nothing above is for the finding. -/
  passed : Comes U E f → serves U f.cwe (extractFileDirectives U tokenize E.without) E.line = none →
    (PassedBefore U E ↔ PassesNow U E) ∨ ∀ n, Further U E f n →
      serves U f.cwe (extractFileDirectives U tokenize E.without) n = none
  /-- An exact directive for the finding has been looked for before. -/
  looked : ∀ line d, f.line = some line →
    (onLine ((extractFileDirectives U tokenize E.without).filter (·.exactLine)) line).find? (targets U f.cwe) =
      some d →
    mentionsTcs E.without = true ∨ mentionsTcs E.commented = false ∨ f.silencedBy d = f

variable (files : NormalizedFiles) (path : String)

/-- Neither resolver answers otherwise with the comment. -/
def OwnLineOnly : Prop :=
  resolveSuppression U tokenize (Function.update files path (some E.commented)) f =
      resolveSuppression U tokenize (Function.update files path (some E.without)) f ∧
    resolveLineSuppression U tokenize (Function.update files path (some E.commented)) f =
      resolveLineSuppression U tokenize (Function.update files path (some E.without)) f

end

/-! ## The scan -/

section
variable {U : Unicode} {tokenize : Tokenizer} {E : BracketEdit tokenize} {f : Finding}

def Finding.answered (f : Finding) : Option (Option Text) → Finding
  | some justification =>
    { f with suppressed := some true, justification := justification, kind := some "inSource", active := some false }
  | none => { f with suppressed := some false, justification := none, kind := none, active := some true }

theorem answered_inj {a b : Option (Option Text)} (h : f.answered a = f.answered b) : a = b := by
  cases a with
  | none =>
    cases b with
    | none => rfl
    | some b => cases congrArg Finding.suppressed h
  | some a =>
    cases b with
    | none => cases congrArg Finding.suppressed h
    | some b => exact congrArg some (congrArg Finding.justification h)

theorem resolveSuppression_eq {files : NormalizedFiles} {source : Text} (h : files f.file = some source) :
    resolveSuppression U tokenize files f =
      f.answered ((found tokenize source U f.sinkLine f.cwe).map (·.justification)) := by
  rw [resolveSuppression, h]
  simp only [Option.map_some, Option.getD_some]
  rw [← found]
  cases found tokenize source U f.sinkLine f.cwe <;> rfl

theorem found_eq (source : Text) : found tokenize source U f.sinkLine f.cwe =
    ((onLine (extractFileDirectives U tokenize source) f.sinkLine).find? (targets U f.cwe)).or
      (climb (serves U f.cwe (extractFileDirectives U tokenize source))
        (passes (extractFileDirectives U tokenize source) (sourceLines source)) 10 (f.sinkLine - 1)) :=
  findMatchingDirective_eq U f.cwe _ _ _

theorem found_of_not_comes (hline : f.sinkLine ≠ E.line) (h : ¬Comes U E f) :
    found tokenize E.commented U f.sinkLine f.cwe = found tokenize E.without U f.sinkLine f.cwe := by
  rw [found_eq, found_eq, onLine_other U E hline]
  cases hopen : (onLine (extractFileDirectives U tokenize E.without) f.sinkLine).find? (targets U f.cwe) with
  | some d => rfl
  | none =>
    rw [Option.none_or, Option.none_or]
    refine climb_replace_of_not (fun j hj => serves_other U E hj f.cwe) (fun j hj => passes_other U E hj) ?_
    rintro ⟨hnum, habove, hnear, hclears⟩
    exact h ⟨hopen, hnum, by omega, by omega, hclears⟩

theorem found_of_comes (hline : f.sinkLine ≠ E.line) (h : Comes U E f) :
    ∃ further : Option Directive,
      (∀ a, further = some a ↔ ∃ n, Further U E f n ∧
        serves U f.cwe (extractFileDirectives U tokenize E.without) n = some a) ∧
      found tokenize E.without U f.sinkLine f.cwe =
        (serves U f.cwe (extractFileDirectives U tokenize E.without) E.line).or
          (if passes (extractFileDirectives U tokenize E.without) (sourceLines E.without) E.line
            then further else none) ∧
      found tokenize E.commented U f.sinkLine f.cwe =
        if passes (extractFileDirectives U tokenize E.commented) (sourceLines E.commented) E.line
          then further else none := by
  obtain ⟨hopen, hnum, habove, hnear, hclears⟩ := h
  obtain ⟨hbefore, hnow⟩ := climb_replace (fun j hj => serves_other U E hj f.cwe) (fun j hj => passes_other U E hj)
    hnum (by omega) (n := 10) (by omega) hclears
  refine ⟨_, fun a => climb_eq_some_iff, ?_, ?_⟩
  · rw [found_eq, hopen, Option.none_or, hbefore]
    congr 3
    omega
  · rw [found_eq, onLine_other U E hline, hopen, Option.none_or, hnow, serves_commented, Option.none_or]
    congr 2
    omega

theorem found_same_iff (hline : f.sinkLine ≠ E.line) (h : Comes U E f) :
    (found tokenize E.commented U f.sinkLine f.cwe).map (·.justification) =
        (found tokenize E.without U f.sinkLine f.cwe).map (·.justification) ↔
      (∀ d, serves U f.cwe (extractFileDirectives U tokenize E.without) E.line = some d →
        PassesNow U E ∧ ∃ n a, Further U E f n ∧
          serves U f.cwe (extractFileDirectives U tokenize E.without) n = some a ∧
          a.justification = d.justification) ∧
      (serves U f.cwe (extractFileDirectives U tokenize E.without) E.line = none →
        (PassedBefore U E ↔ PassesNow U E) ∨ ∀ n, Further U E f n →
          serves U f.cwe (extractFileDirectives U tokenize E.without) n = none) := by
  obtain ⟨further, hfurther, hwithout, hcommented⟩ := found_of_comes hline h
  have hnone : further = none ↔ ∀ n, Further U E f n →
      serves U f.cwe (extractFileDirectives U tokenize E.without) n = none := by
    rw [Option.eq_none_iff_forall_ne_some]
    constructor
    · intro hno n hn
      rw [Option.eq_none_iff_forall_ne_some]
      intro a ha
      exact hno a ((hfurther a).mpr ⟨n, hn, ha⟩)
    · intro hno a ha
      obtain ⟨n, hn, hserves⟩ := (hfurther a).mp ha
      rw [hno n hn] at hserves
      cases hserves
  rw [hwithout, hcommented, ← hnone, PassesNow, PassedBefore]
  cases hserves : serves U f.cwe (extractFileDirectives U tokenize E.without) E.line with
  | some d =>
    rw [Option.some_or, Option.map_some, Option.map_eq_some_iff]
    constructor
    · rintro ⟨a, ha, hjust⟩
      refine ⟨fun d' hd' => ?_, fun hno => nomatch hno⟩
      obtain rfl := Option.some.inj hd'
      split at ha
      next hpass =>
        obtain ⟨n, hn, hn'⟩ := (hfurther a).mp ha
        exact ⟨hpass, n, a, hn, hn', hjust⟩
      · cases ha
    · rintro ⟨htaken, -⟩
      obtain ⟨hpass, n, a, hn, ha, hjust⟩ := htaken d rfl
      exact ⟨a, by rw [if_pos hpass]; exact (hfurther a).mpr ⟨n, hn, ha⟩, hjust⟩
  | none =>
    rw [Option.none_or]
    cases hfur : further with
    | none => simp
    | some a =>
      generalize passes (extractFileDirectives U tokenize E.commented) (sourceLines E.commented) E.line = now
      generalize passes (extractFileDirectives U tokenize E.without) (sourceLines E.without) E.line = before
      cases now <;> cases before <;> simp

theorem onLine_exact_other (U : Unicode) (E : BracketEdit tokenize) {line : ℕ} (h : line ≠ E.line) :
    onLine ((extractFileDirectives U tokenize E.commented).filter (·.exactLine)) line =
      onLine ((extractFileDirectives U tokenize E.without).filter (·.exactLine)) line := by
  have hswap : ∀ ds : List Directive,
      onLine (ds.filter (·.exactLine)) line = (onLine ds line).filter (·.exactLine) := by
    intro ds
    rw [onLine, onLine, List.filter_filter, List.filter_filter]
    exact List.filter_congr fun d _ => Bool.and_comm _ _
  rw [hswap, hswap, onLine_other U E h]

theorem resolveLineSuppression_of_line {files : NormalizedFiles} {source : Text} {line : ℕ}
    (hfile : files f.file = some source) (hline : f.line = some line) :
    resolveLineSuppression U tokenize files f =
      if mentionsTcs source then
        match (onLine ((extractFileDirectives U tokenize source).filter (·.exactLine)) line).find?
            (targets U f.cwe) with
        | some d => f.silencedBy d
        | none => f
      else f := by
  rw [resolveLineSuppression, hline, hfile]
  simp only [Option.map_some, Option.getD_some, exactDirectives]
  cases mentionsTcs source with
  | true => rfl
  | false => rfl

theorem resolveLine_same_iff {files : NormalizedFiles} (hline : f.line ≠ some E.line) :
    resolveLineSuppression U tokenize (Function.update files f.file (some E.commented)) f =
        resolveLineSuppression U tokenize (Function.update files f.file (some E.without)) f ↔
      ∀ line d, f.line = some line →
        (onLine ((extractFileDirectives U tokenize E.without).filter (·.exactLine)) line).find? (targets U f.cwe) =
          some d → mentionsTcs E.without = true ∨ mentionsTcs E.commented = false ∨ f.silencedBy d = f := by
  cases hf : f.line with
  | none => simp [resolveLineSuppression, hf]
  | some line =>
    have hne : line ≠ E.line := fun heq => hline (by rw [hf, heq])
    rw [resolveLineSuppression_of_line (Function.update_self _ _ _) hf,
      resolveLineSuppression_of_line (Function.update_self _ _ _) hf, onLine_exact_other U E hne]
    have hgrows := mentionsTcs_commented E
    cases hd : (onLine ((extractFileDirectives U tokenize E.without).filter (·.exactLine)) line).find?
        (targets U f.cwe) with
    | none =>
      simp only [ite_self, true_iff]
      intro line' d hline' hd'
      obtain rfl := Option.some.inj hline'
      rw [hd] at hd'
      cases hd'
    | some d =>
      have hone : (∀ line' d', some line = some line' →
          (onLine ((extractFileDirectives U tokenize E.without).filter (·.exactLine)) line').find?
            (targets U f.cwe) = some d' →
              mentionsTcs E.without = true ∨ mentionsTcs E.commented = false ∨ f.silencedBy d' = f) ↔
          (mentionsTcs E.without = true ∨ mentionsTcs E.commented = false ∨ f.silencedBy d = f) := by
        constructor
        · intro hall
          exact hall line d rfl hd
        · intro hthis line' d' hline' hd'
          obtain rfl := Option.some.inj hline'
          obtain rfl := Option.some.inj (hd.symm.trans hd')
          exact hthis
      rw [hone]
      cases hwithout : mentionsTcs E.without with
      | true => simp [hgrows hwithout]
      | false => cases mentionsTcs E.commented <;> simp

end

/-- A bracketed directive acts on its own line only just where the scan is unmoved by it. -/
theorem ownLineOnly_iff (U : Unicode) {tokenize : Tokenizer} (E : BracketEdit tokenize) (files : NormalizedFiles)
    (path : String) (f : Finding) (h : f.file = path → f.sinkLine ≠ E.line ∧ f.line ≠ some E.line) :
    OwnLineOnly U E f files path ↔ (f.file = path → Unmoved U E f) := by
  by_cases hfile : f.file = path
  · subst hfile
    obtain ⟨hsink, hline⟩ := h rfl
    rw [OwnLineOnly, resolveLine_same_iff hline, resolveSuppression_eq (Function.update_self _ _ _),
      resolveSuppression_eq (Function.update_self _ _ _)]
    by_cases hcomes : Comes U E f
    · constructor
      · rintro ⟨hscan, hlooked⟩ -
        obtain ⟨htaken, hpassed⟩ := (found_same_iff hsink hcomes).mp (answered_inj hscan)
        exact ⟨fun _ => htaken, fun _ => hpassed, hlooked⟩
      · intro hunmoved
        obtain ⟨htaken, hpassed, hlooked⟩ := hunmoved rfl
        exact ⟨congrArg _ ((found_same_iff hsink hcomes).mpr ⟨htaken hcomes, hpassed hcomes⟩), hlooked⟩
    · rw [found_of_not_comes hsink hcomes]
      exact ⟨fun hboth _ => ⟨fun hc => absurd hc hcomes, fun hc => absurd hc hcomes, hboth.2⟩,
        fun hunmoved => ⟨rfl, (hunmoved rfl).looked⟩⟩
  · refine ⟨fun _ hpath => absurd hpath hfile, fun _ => ?_⟩
    simp only [OwnLineOnly, resolveSuppression, resolveLineSuppression, Function.update_of_ne hfile, and_self]

namespace CodeBetween

def comment : BracketedComment where
  pad := lit "  "
  text := lit "# tcs: ignore[CWE-78]"
  blank := List.all_eq_true.mp (by decide)
  hash := by decide
  oneLine := fun c hc => by
    simpa using List.all_eq_true.mp
      (by decide : (lit "  " ++ lit "# tcs: ignore[CWE-78]").all (!isLineBoundary ·)) c hc
  bracketed := by decide

def upTo : Text := lit "# tcs:ignore CWE-89\ny = 2"

def rest : Text := lit "\nrun(x)\n"

def tokens (second : List Token) : List Token :=
  [⟨.comment, 1, 1, lit "# tcs:ignore CWE-89"⟩, ⟨.layout, 1, 1, lit "\n"⟩, ⟨.code, 2, 2, lit "y"⟩,
    ⟨.code, 2, 2, lit "="⟩, ⟨.code, 2, 2, lit "2"⟩] ++ second ++
  [⟨.layout, 2, 2, lit "\n"⟩, ⟨.code, 3, 3, lit "run"⟩, ⟨.code, 3, 3, lit "("⟩, ⟨.code, 3, 3, lit "x"⟩,
    ⟨.code, 3, 3, lit ")"⟩, ⟨.layout, 3, 3, lit "\n"⟩, ⟨.layout, 4, 4, []⟩]

def tokenize : Tokenizer := fun source =>
  (tokens (if source = upTo ++ rest then [] else [⟨.comment, 2, 2, comment.text⟩]), false)

theorem comments_commented : comments tokenize (upTo ++ (comment.pad ++ comment.text) ++ rest) =
    [(1, lit "# tcs:ignore CWE-89"), (2, comment.text)] := by
  decide

def edit : BracketEdit tokenize where
  upTo := upTo
  rest := rest
  comment := comment
  line := 2
  endOfLine := .inr (.inl rfl)
  meets := fun h => absurd h.1 (by decide)
  others := by decide
  read := by
    intro c hc hline
    rw [comments_commented] at hc
    rcases List.mem_cons.mp hc with rfl | hc
    · exact absurd hline (by decide)
    · obtain rfl := List.mem_singleton.mp hc
      exact ⟨[], rfl⟩

def finding : Finding := ⟨"app.py", some 3, some 3, lit "CWE-89", none, none, none, none⟩

theorem ownLineOnly_iff_between :
    OwnLineOnly TrailingDirective.ascii edit finding (fun _ => none) "app.py" ↔
      (finding.file = "app.py" → Unmoved TrailingDirective.ascii edit finding) :=
  ownLineOnly_iff TrailingDirective.ascii edit (fun _ => none) "app.py" finding fun _ => by decide

theorem found_without :
    found tokenize edit.without TrailingDirective.ascii 3 (lit "CWE-89") = none := by
  decide

theorem found_commented :
    found tokenize edit.commented TrailingDirective.ascii 3 (lit "CWE-89") = some TrailingDirective.directive := by
  decide

end CodeBetween

/-- A bracketed directive behind one statement silences the next. -/
theorem bracket_opens_scan : ¬∀ (U : Unicode) (tokenize : Tokenizer) (E : BracketEdit tokenize)
    (files : NormalizedFiles) (path : String) (f : Finding),
    (f.file = path → f.sinkLine ≠ E.line ∧ f.line ≠ some E.line) → OwnLineOnly U E f files path := by
  intro h
  have hsame := (h TrailingDirective.ascii CodeBetween.tokenize CodeBetween.edit (fun _ => none)
    CodeBetween.finding.file CodeBetween.finding fun _ => by decide).1
  rw [resolveSuppression_eq (Function.update_self _ _ _),
    resolveSuppression_eq (Function.update_self _ _ _)] at hsame
  have hfound := answered_inj hsame
  rw [show CodeBetween.finding.sinkLine = 3 from rfl, show CodeBetween.finding.cwe = lit "CWE-89" from rfl,
    CodeBetween.found_without, CodeBetween.found_commented] at hfound
  cases hfound

end TimeCodeSecurity.Suppressions
