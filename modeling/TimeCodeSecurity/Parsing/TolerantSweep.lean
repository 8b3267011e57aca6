import TimeCodeSecurity.Scanner.Nosec

/-! # The tolerant sweep

What reads a file that the parser refuses: the statement with the error becomes a `pass`, and the file is read
again. The parser counts lines by `\n` and `\r`, the tokenizer by `\n`, and `splitlines` by some more
characters.
-/
namespace TimeCodeSecurity.Parsing
open KeptLines Scanner
set_option autoImplicit false

inductive TokenKind
  /-- `NEWLINE`. -/
  | newline
  /-- `NL`, `COMMENT`, `INDENT`, `DEDENT`, `ENDMARKER` and `ENCODING`. -/
  | skipped
  | other
deriving DecidableEq, Repr

structure Token where
  kind : TokenKind
  startRow : ℕ
  endRow : ℕ
deriving DecidableEq, Repr

/-- CPython's readers. The parser has a tree or the line of its error, 0 for none; the tokenizer may raise. -/
structure Readers (Tree : Type) where
  parse : List Char → Except ℕ Tree
  tokenize : List Char → Option (List Token)

def blank (line : List Char) : Bool := line.all isSpace

def collectSpans : Option ℕ → List Token → List (ℕ × ℕ) × Option ℕ
  | start, [] => ([], start)
  | start, t :: ts =>
    match t.kind, start with
    | .newline, some s => ((s, t.endRow) :: (collectSpans none ts).1, (collectSpans none ts).2)
    | .newline, none => collectSpans none ts
    | .skipped, start => collectSpans start ts
    | .other, none => collectSpans (some t.startRow) ts
    | .other, some s => collectSpans (some s) ts

def tokenSpans (tokens : Option (List Token)) (count : ℕ) : List (ℕ × ℕ) :=
  match tokens with
  | none => []
  | some ts => (collectSpans none ts).1 ++ ((collectSpans none ts).2.map fun s => (s, max s count)).toList

/-- `_tolerant_line_spans`: of the statements, or else of the lines that are not blank. -/
def tolerantLineSpans (tokens : Option (List Token)) (lines : List (List Char)) : List (ℕ × ℕ) :=
  let spans := tokenSpans tokens lines.length
  if spans.isEmpty then
    (lines.zipIdx 1).filterMap fun p => if blank p.1 then none else some (p.2, p.2)
  else spans

def expandTabs : ℕ → List Char → List Char
  | _, [] => []
  | col, c :: rest =>
    if c = '\t' then List.replicate (8 - col % 8) ' ' ++ expandTabs 0 rest
    else if c = '\n' ∨ c = '\r' then c :: expandTabs 0 rest
    else c :: expandTabs (col + 1) rest

def tolerantBlockIndent (line : List Char) : ℕ := ((expandTabs 0 line).takeWhile isSpace).length

def firstLine (lines : List (List Char)) (start : ℕ) : List Char := (lines[start - 1]?).getD []

def blockLimit (lines : List (List Char)) (start stop : ℕ) : ℕ :=
  let base := tolerantBlockIndent (firstLine lines start)
  stop + ((lines.drop stop).takeWhile fun l => blank l || decide (base < tolerantBlockIndent l)).length

def newlineOf (line : List Char) : List Char :=
  if line.getLast? = some '\n' ∨ line.getLast? = some '\r' then ['\n'] else []

def tolerantSubstitute (lines : List (List Char)) (start stop : ℕ) : List (List Char) :=
  let indent := (firstLine lines start).takeWhile isSpace
  let limit := blockLimit lines start stop
  lines.mapIdx fun i l =>
    if start - 1 ≤ i ∧ i < limit then
      if i = start - 1 then indent ++ ['p', 'a', 's', 's'] ++ newlineOf l else newlineOf l
    else l

def tolerantParseMaxBlocks : ℕ := 32

def owningSpan (spans : List (ℕ × ℕ)) (line : ℕ) : Option (ℕ × ℕ) :=
  spans.find? fun s => decide (s.1 ≤ line) && decide (line ≤ s.2)

section
variable {Tree : Type} (R : Readers Tree)

def sweepRounds (spans : List (ℕ × ℕ)) :
    ℕ → List (List Char) → List ℕ → Option (Tree × List (List Char)) × List ℕ
  | 0, _, replaced => (none, replaced)
  | fuel + 1, current, replaced =>
    match R.parse current.flatten with
    | .ok tree => (some (tree, current), replaced)
    | .error line =>
      match owningSpan spans line with
      | none => (none, replaced)
      | some s =>
        if s.1 ∈ replaced then (none, replaced)
        else sweepRounds spans fuel (tolerantSubstitute current s.1 s.2) (replaced ++ [s.1])

def spansOf (source : List Char) : List (ℕ × ℕ) :=
  tolerantLineSpans (R.tokenize source) (cut isLineBoundary source)

def tolerantSweep (source : List Char) : Option (Tree × List (List Char)) × List ℕ :=
  let lines := cut isLineBoundary source
  if lines.isEmpty || (spansOf R source).isEmpty then (none, [])
  else
    let result := sweepRounds R (spansOf R source) tolerantParseMaxBlocks lines []
    (result.1, result.2.mergeSort)

end

end TimeCodeSecurity.Parsing

/-! ## What a sweep keeps

Where the lines up to the last replaced block are plain, the three ways of counting agree on them: the text that
is parsed in the end is the source with the blocks replaced, and every other line stands where it stood.
-/
namespace TimeCodeSecurity.Parsing
open KeptLines Scanner

section
variable {Tree : Type} (R : Readers Tree)

/-- The lines that the spans count: the tokenizer's, or those of `splitlines`. -/
def countedLines (source : List Char) : List (List Char) :=
  if (tokenSpans (R.tokenize source) (cut isLineBoundary source).length).isEmpty then cut isLineBoundary source
  else cut (· == '\n') source

def parserLine (counted : List (List Char)) (row : ℕ) : ℕ :=
  row + ((cut isNewline (counted.take (row - 1)).flatten).length - (counted.take (row - 1)).length)

def logicalLines (source : List Char) : List (ℕ × ℕ) :=
  (spansOf R source).map fun s =>
    (parserLine (countedLines R source) s.1, parserLine (countedLines R source) s.2)

/-- Rounds on the parser's lines: each replaces a logical line with an error, and what is deeper behind it, by one
`pass`. The blocks are given by their first lines and their ends. -/
inductive Recovery (logical : List (ℕ × ℕ)) : List (List Char) → List (ℕ × ℕ) → List (List Char) → Prop
  | done (lines : List (List Char)) : Recovery logical lines [] lines
  | round {lines final : List (List Char)} {blocks : List (ℕ × ℕ)} {line : ℕ} {s : ℕ × ℕ}
      (error : R.parse lines.flatten = .error line) (mem : s ∈ logical) (start : s.1 ≤ line) (stop : line ≤ s.2)
      (code : blank (firstLine lines s.1) = false)
      (rest : Recovery logical (tolerantSubstitute lines s.1 s.2) blocks final) :
      Recovery logical lines ((s.1, blockLimit lines s.1 s.2) :: blocks) final

def Outside (blocks : List (ℕ × ℕ)) (k : ℕ) : Prop := ∀ b ∈ blocks, k + 1 < b.1 ∨ b.2 ≤ k

/-- The text differs from the source in replaced logical lines only, and the lines outside keep their numbers. -/
def KeepsLines (source text : List Char) : Prop :=
  ∃ blocks final, Recovery R (logicalLines R source) (cut isNewline source) blocks final ∧
    text = final.flatten ∧
      ∀ k, Outside blocks k → (cut isNewline text)[k]? = (cut isNewline source)[k]?

def Fits (plain : List (List Char)) (rest : List Char) (lines : List (List Char)) (s : ℕ × ℕ) : Prop :=
  blank (firstLine lines s.1) = false ∧
    (blockLimit lines s.1 s.2 < plain.length ∨ Endless isLineBoundary rest)

def RoundsFit (plain : List (List Char)) (rest : List Char) (spans : List (ℕ × ℕ)) :
    ℕ → List (List Char) → List ℕ → Prop
  | 0, _, _ => True
  | fuel + 1, current, replaced =>
    match R.parse current.flatten with
    | .ok _ => True
    | .error line =>
      match owningSpan spans line with
      | none => True
      | some s =>
        s.1 ∈ replaced ∨ Fits plain rest current s ∧
          RoundsFit plain rest spans fuel (tolerantSubstitute current s.1 s.2) (replaced ++ [s.1])

/-- The source begins with plain lines in which all rounds stay, or has no line end but these. -/
def Undisturbed (source : List Char) : Prop :=
  ∃ plain rest, source = plain.flatten ++ rest ∧ (∀ l ∈ plain, Ended isLineBoundary l) ∧
    RoundsFit R plain rest (spansOf R source) tolerantParseMaxBlocks (cut isLineBoundary source) []

end

/-! ## Blocks -/

theorem isLineBoundary_of_isNewline (c : Char) (h : isNewline c = true) : isLineBoundary c = true := by
  simp only [isNewline, isLineBoundary, decide_eq_true_eq, List.mem_cons, List.not_mem_nil, or_false] at h ⊢
  tauto

theorem length_tolerantSubstitute (lines : List (List Char)) (start stop : ℕ) :
    (tolerantSubstitute lines start stop).length = lines.length := by
  simp [tolerantSubstitute]

theorem getElem?_tolerantSubstitute {lines : List (List Char)} {start stop k : ℕ}
    (h : k + 1 < start ∨ blockLimit lines start stop ≤ k) :
    (tolerantSubstitute lines start stop)[k]? = lines[k]? := by
  rw [tolerantSubstitute, List.getElem?_mapIdx]
  cases lines[k]? with
  | none => rfl
  | some l =>
    rw [Option.map_some, if_neg]
    omega

def replacedLine (lines : List (List Char)) (start stop i : ℕ) (l : List Char) : List Char :=
  if start - 1 ≤ i ∧ i < blockLimit lines start stop then
    if i = start - 1 then (firstLine lines start).takeWhile isSpace ++ ['p', 'a', 's', 's'] ++ newlineOf l
    else newlineOf l
  else l

theorem tolerantSubstitute_eq (lines : List (List Char)) (start stop : ℕ) :
    tolerantSubstitute lines start stop = lines.mapIdx (replacedLine lines start stop) := rfl

theorem takeWhile_append_left {p : Char → Bool} {body e : List Char} (h : ∃ x ∈ body, p x = false) :
    (body ++ e).takeWhile p = body.takeWhile p := by
  induction body with
  | nil => simp at h
  | cons b body ih =>
    rw [List.cons_append, List.takeWhile_cons, List.takeWhile_cons]
    split
    · next hb =>
      obtain ⟨x, hx, hpx⟩ := h
      rcases List.mem_cons.mp hx with rfl | hx
      · rw [hb] at hpx
        cases hpx
      · rw [ih ⟨x, hx, hpx⟩]
    · rfl

theorem endless_indent {l : List Char} (hcode : blank l = false)
    (h : Ended isLineBoundary l ∨ Endless isLineBoundary l) : Endless isLineBoundary (l.takeWhile isSpace) := by
  have hsplit : ∃ body e, Endless isLineBoundary body ∧ (∀ c ∈ e, isSpace c = true) ∧ l = body ++ e := by
    rcases h with ⟨body, hbody, hline | hline⟩ | hbody
    · exact ⟨body, ['\n'], hbody, by simp [isSpace], hline⟩
    · exact ⟨body, ['\r', '\n'], hbody, by simp [isSpace], hline⟩
    · exact ⟨l, [], hbody, nofun, (List.append_nil l).symm⟩
  obtain ⟨body, e, hbody, hspace, rfl⟩ := hsplit
  have hnot : ∃ x ∈ body, isSpace x = false := by
    by_contra hall
    push Not at hall
    rw [blank, List.all_append, List.all_eq_true.mpr fun x hx => by simpa using hall x hx,
      List.all_eq_true.mpr hspace] at hcode
    cases hcode
  rw [takeWhile_append_left hnot]
  exact fun c hc => hbody c ((List.takeWhile_sublist _).subset hc)

theorem newlineOf_plain {l : List Char} (h : Ended isLineBoundary l) : newlineOf l = ['\n'] := by
  obtain ⟨body, -, rfl | rfl⟩ := h <;> simp [newlineOf]

theorem newlineOf_endless {l : List Char} (h : Endless isLineBoundary l) : newlineOf l = [] := by
  rw [newlineOf, if_neg]
  rintro (hlast | hlast)
  · exact absurd (h _ (List.mem_of_getLast? hlast)).1 (by decide)
  · exact (h _ (List.mem_of_getLast? hlast)).2 rfl

theorem endless_pass {indent : List Char} (h : Endless isLineBoundary indent) :
    Endless isLineBoundary (indent ++ ['p', 'a', 's', 's']) := by
  intro c hc
  rcases List.mem_append.mp hc with hc | hc
  · exact h c hc
  · have hall : ∀ x ∈ ['p', 'a', 's', 's'], isLineBoundary x = false ∧ x ≠ '\r' := by
      simp [isLineBoundary]
    exact hall c hc

section
variable {lines : List (List Char)} {start stop i : ℕ} {l : List Char}

theorem firstLine_eq (hl : lines[i]? = some l) (hi : i = start - 1) : firstLine lines start = l := by
  rw [firstLine, ← hi, hl]
  rfl

theorem plain_replacedLine (hcode : blank (firstLine lines start) = false) (hl : lines[i]? = some l)
    (h : Ended isLineBoundary l) : Ended isLineBoundary (replacedLine lines start stop i l) := by
  unfold replacedLine
  rw [newlineOf_plain h]
  split
  · split
    · next hi =>
      rw [firstLine_eq hl hi] at hcode ⊢
      exact ⟨_, endless_pass (endless_indent hcode (.inl h)), .inl rfl⟩
    · exact ⟨[], nofun, .inl rfl⟩
  · exact h

theorem endless_replacedLine (hcode : blank (firstLine lines start) = false) (hl : lines[i]? = some l)
    (h : Endless isLineBoundary l) : Endless isLineBoundary (replacedLine lines start stop i l) := by
  unfold replacedLine
  rw [newlineOf_endless h]
  split
  · split
    · next hi =>
      rw [firstLine_eq hl hi] at hcode ⊢
      rw [List.append_nil]
      exact endless_pass (endless_indent hcode (.inr h))
    · exact nofun
  · exact h

end

theorem takeWhile_length_congr {α : Type} {p : α → Bool} {a X : List α} (Y : List α)
    (h : ((a ++ X).takeWhile p).length < a.length) :
    ((a ++ Y).takeWhile p).length = ((a ++ X).takeWhile p).length := by
  induction a with
  | nil => simp at h
  | cons b a ih =>
    rw [List.cons_append, List.takeWhile_cons] at h ⊢
    rw [List.cons_append, List.takeWhile_cons]
    split
    · next hb =>
      rw [if_pos hb] at h
      rw [List.length_cons, List.length_cons, ih (by simpa using h)]
    · rfl

section
variable {ls X : List (List Char)} {start stop : ℕ}

theorem firstLine_append (Y : List (List Char)) (h : start - 1 < ls.length) :
    firstLine (ls ++ Y) start = firstLine (ls ++ X) start := by
  rw [firstLine, firstLine, List.getElem?_append_left h, List.getElem?_append_left h]

theorem blockLimit_append (Y : List (List Char)) (hle : start ≤ stop) (hpos : ls ≠ [])
    (h : blockLimit (ls ++ X) start stop < ls.length) :
    blockLimit (ls ++ Y) start stop = blockLimit (ls ++ X) start stop := by
  have hlen : 0 < ls.length := List.length_pos_iff.mpr hpos
  have hstop : stop < ls.length := Nat.lt_of_le_of_lt (Nat.le_add_right _ _) h
  have hfirst : firstLine (ls ++ Y) start = firstLine (ls ++ X) start := firstLine_append Y (by omega)
  unfold blockLimit at h ⊢
  dsimp only at h ⊢
  rw [List.drop_append_of_le_length (Nat.le_of_lt hstop)] at h
  rw [List.drop_append_of_le_length (Nat.le_of_lt hstop), List.drop_append_of_le_length (Nat.le_of_lt hstop), hfirst,
    takeWhile_length_congr Y]
  rw [List.length_drop]
  omega

theorem tolerantSubstitute_append (h : blockLimit (ls ++ X) start stop ≤ ls.length) :
    tolerantSubstitute (ls ++ X) start stop = ls.mapIdx (replacedLine (ls ++ X) start stop) ++ X := by
  rw [tolerantSubstitute_eq, List.mapIdx_append]
  congr 1
  refine List.ext_getElem? fun k => ?_
  rw [List.getElem?_mapIdx]
  cases X[k]? with
  | none => rfl
  | some l =>
    rw [Option.map_some, replacedLine, if_neg]
    omega

end

/-! ## Rounds -/

def Related (plain : List (List Char)) (rest : List Char) (current lines : List (List Char)) : Prop :=
  ∃ ls X Y, current = ls ++ X ∧ lines = ls ++ Y ∧ ls.length = plain.length ∧
    (∀ l ∈ ls, Ended isLineBoundary l) ∧
      (X = cut isLineBoundary rest ∧ Y = cut isNewline rest ∨
        X = Y ∧ X.length ≤ 1 ∧ ∀ l ∈ X, Endless isLineBoundary l)

section
variable {plain current lines : List (List Char)} {rest : List Char}

theorem related_cut (h : ∀ l ∈ plain, Ended isLineBoundary l) :
    Related plain rest (cut isLineBoundary (plain.flatten ++ rest)) (cut isNewline (plain.flatten ++ rest)) := by
  refine ⟨plain, _, _, cut_flatten_append rfl h rest, ?_, rfl, h, .inl ⟨rfl, rfl⟩⟩
  exact cut_flatten_append rfl (fun l hl => (h l hl).mono isLineBoundary_of_isNewline) rest

theorem Related.flatten_eq (h : Related plain rest current lines) : current.flatten = lines.flatten := by
  obtain ⟨ls, X, Y, rfl, rfl, -, -, ⟨rfl, rfl⟩ | ⟨rfl, -, -⟩⟩ := h
  · rw [List.flatten_append, List.flatten_append, flatten_cut, flatten_cut]
  · rfl

theorem cut_eq_of_endless (h : Endless isLineBoundary rest) :
    cut isLineBoundary rest = cut isNewline rest ∧ (cut isLineBoundary rest).length ≤ 1 ∧
      ∀ l ∈ cut isLineBoundary rest, Endless isLineBoundary l := by
  rw [cut_endless h, cut_endless (h.mono isLineBoundary_of_isNewline)]
  split
  · exact ⟨rfl, Nat.zero_le 1, nofun⟩
  · refine ⟨rfl, Nat.le_refl 1, fun l hl => ?_⟩
    rw [List.mem_singleton.mp hl]
    exact h

theorem plain_mapIdx {ls X : List (List Char)} {start stop : ℕ}
    (hcode : blank (firstLine (ls ++ X) start) = false) (h : ∀ l ∈ ls, Ended isLineBoundary l) :
    ∀ l ∈ ls.mapIdx (replacedLine (ls ++ X) start stop), Ended isLineBoundary l := by
  intro l hl
  obtain ⟨i, hi, rfl⟩ := List.mem_mapIdx.mp hl
  refine plain_replacedLine hcode ?_ (h _ (List.getElem_mem hi))
  rw [List.getElem?_append_left hi, List.getElem?_eq_getElem hi]

theorem endless_mapIdx {ls X : List (List Char)} {start stop : ℕ}
    (hcode : blank (firstLine (ls ++ X) start) = false) (h : ∀ l ∈ X, Endless isLineBoundary l) :
    ∀ l ∈ X.mapIdx fun i => replacedLine (ls ++ X) start stop (i + ls.length), Endless isLineBoundary l := by
  intro l hl
  obtain ⟨i, hi, rfl⟩ := List.mem_mapIdx.mp hl
  refine endless_replacedLine hcode ?_ (h _ (List.getElem_mem hi))
  rw [List.getElem?_append_right (Nat.le_add_left _ _), Nat.add_sub_cancel, List.getElem?_eq_getElem hi]

theorem Related.round {s : ℕ × ℕ} (h : Related plain rest current lines) (hle : s.1 ≤ s.2)
    (hfits : Fits plain rest current s) :
    Related plain rest (tolerantSubstitute current s.1 s.2) (tolerantSubstitute lines s.1 s.2) ∧
      blockLimit lines s.1 s.2 = blockLimit current s.1 s.2 ∧ blank (firstLine lines s.1) = false := by
  obtain ⟨hcode, hwhere⟩ := hfits
  obtain ⟨ls, X, Y, rfl, rfl, hlen, hplain, hor⟩ := h
  have hsame : X = Y ∧ X.length ≤ 1 ∧ (∀ l ∈ X, Endless isLineBoundary l) ∨
      blockLimit (ls ++ X) s.1 s.2 < ls.length ∧ X = cut isLineBoundary rest ∧ Y = cut isNewline rest := by
    rcases hor with ⟨rfl, rfl⟩ | hsame
    · rcases hwhere with hlimit | hendless
      · exact .inr ⟨hlen ▸ hlimit, rfl, rfl⟩
      · exact .inl (cut_eq_of_endless hendless)
    · exact .inl hsame
  rcases hsame with ⟨rfl, hone, hendless⟩ | ⟨hlimit, hX, hY⟩
  · refine ⟨⟨ls.mapIdx (replacedLine (ls ++ X) s.1 s.2),
      X.mapIdx fun i => replacedLine (ls ++ X) s.1 s.2 (i + ls.length), _, ?_, ?_, ?_, plain_mapIdx hcode hplain,
      .inr ⟨rfl, ?_, endless_mapIdx hcode hendless⟩⟩, rfl, hcode⟩
    · rw [tolerantSubstitute_eq, List.mapIdx_append]
    · rw [tolerantSubstitute_eq, List.mapIdx_append]
    · rw [List.length_mapIdx, hlen]
    · rwa [List.length_mapIdx]
  · have hstop : s.2 < ls.length := Nat.lt_of_le_of_lt (Nat.le_add_right _ _) hlimit
    have hne : ls ≠ [] := List.length_pos_iff.mp (by omega)
    have hfirst : firstLine (ls ++ Y) s.1 = firstLine (ls ++ X) s.1 := firstLine_append Y (by omega)
    have hsame := blockLimit_append Y hle hne hlimit
    have hlines : replacedLine (ls ++ Y) s.1 s.2 = replacedLine (ls ++ X) s.1 s.2 := by
      funext i l
      rw [replacedLine, replacedLine, hfirst, hsame]
    refine ⟨⟨ls.mapIdx (replacedLine (ls ++ X) s.1 s.2), X, Y, ?_, ?_, ?_, plain_mapIdx hcode hplain,
      .inl ⟨hX, hY⟩⟩, hsame, ?_⟩
    · exact tolerantSubstitute_append (by omega)
    · rw [tolerantSubstitute_append (by omega), hlines]
    · rw [List.length_mapIdx, hlen]
    · rwa [hfirst]

theorem Related.getElem?_cut (h : Related plain rest current lines) {k : ℕ} (hne : lines[k]? ≠ some []) :
    (cut isNewline lines.flatten)[k]? = lines[k]? := by
  obtain ⟨ls, X, Y, -, rfl, -, hplain, hor⟩ := h
  have hcut : cut isNewline (ls ++ Y).flatten = ls ++ cut isNewline Y.flatten := by
    rw [List.flatten_append]
    exact cut_flatten_append rfl (fun l hl => (hplain l hl).mono isLineBoundary_of_isNewline) _
  rw [hcut]
  rcases hor with ⟨-, rfl⟩ | ⟨rfl, hone, hendless⟩
  · rw [flatten_cut]
  · match X with
    | [] => rfl
    | [l] =>
      have hl := hendless l List.mem_cons_self
      rw [List.flatten_singleton, cut_endless (hl.mono isLineBoundary_of_isNewline)]
      split
      · next hnil =>
        subst hnil
        rcases Nat.lt_trichotomy k ls.length with hk | hk | hk
        · rw [List.getElem?_append_left hk, List.getElem?_append_left hk]
        · subst hk
          simp at hne
        · rw [List.getElem?_eq_none (by simp; omega), List.getElem?_eq_none (by simp; omega)]
      · rfl
    | _ :: _ :: _ => simp at hone

end

section
variable {Tree : Type} {R : Readers Tree} {plain : List (List Char)} {rest : List Char}
  {spans logical : List (ℕ × ℕ)}

theorem owningSpan_eq_some {s : ℕ × ℕ} {line : ℕ} (h : owningSpan spans line = some s) :
    s ∈ spans ∧ s.1 ≤ line ∧ line ≤ s.2 := by
  have hboth := List.find?_some h
  rw [Bool.and_eq_true, decide_eq_true_eq, decide_eq_true_eq] at hboth
  exact ⟨List.mem_of_find?_eq_some h, hboth⟩

theorem recovery_of_sweepRounds
    (hlogical : ∀ s ∈ spans, s.2 < plain.length ∨ Endless isLineBoundary rest → s.1 ≤ s.2 → s ∈ logical)
    {fuel : ℕ} {current lines final : List (List Char)} {replaced replaced' : List ℕ} {tree : Tree}
    (h : sweepRounds R spans fuel current replaced = (some (tree, final), replaced'))
    (hrel : Related plain rest current lines) (hfit : RoundsFit R plain rest spans fuel current replaced) :
    ∃ blocks final', Recovery R logical lines blocks final' ∧ Related plain rest final final' ∧
      ∀ k, Outside blocks k → final'[k]? = lines[k]? := by
  induction fuel generalizing current lines replaced with
  | zero => cases h
  | succ fuel ih =>
    rw [sweepRounds] at h
    rw [RoundsFit] at hfit
    cases hparse : R.parse current.flatten with
    | ok t =>
      rw [hparse] at h
      cases h
      exact ⟨[], lines, .done lines, hrel, fun _ _ => rfl⟩
    | error line =>
      rw [hparse] at h hfit
      dsimp only at h hfit
      cases hspan : owningSpan spans line with
      | none =>
        rw [hspan] at h
        cases h
      | some s =>
        rw [hspan] at h hfit
        dsimp only at h hfit
        split at h
        · cases h
        · next hnew =>
          obtain ⟨hfits, hfit⟩ := hfit.resolve_left hnew
          obtain ⟨hmem, hstart, hstop⟩ := owningSpan_eq_some hspan
          have hle : s.1 ≤ s.2 := Nat.le_trans hstart hstop
          obtain ⟨hnext, hlimit, hcode⟩ := hrel.round hle hfits
          obtain ⟨blocks, final', hrec, hrel', hframe⟩ := ih h hnext hfit
          have hin : s ∈ logical := by
            refine hlogical s hmem (hfits.2.imp_left fun hlt => ?_) hle
            exact Nat.lt_of_le_of_lt (Nat.le_add_right _ _) hlt
          refine ⟨_, final', .round (hrel.flatten_eq ▸ hparse) hin hstart hstop hcode hrec, hrel', fun k hk => ?_⟩
          rw [hframe k fun b hb => hk b (List.mem_cons_of_mem _ hb)]
          exact getElem?_tolerantSubstitute (hk _ List.mem_cons_self)

/-! ## Logical lines -/

theorem ne_nil_of_mem_cut {ends : Char → Bool} {text l : List Char} (h : l ∈ cut ends text) : l ≠ [] := by
  induction text generalizing l with
  | nil => cases h
  | cons c text ih =>
    rw [cut] at h
    split at h
    · rcases List.mem_cons.mp h with rfl | h
      · simp
      · exact ih h
    · split at h
      · rw [List.mem_singleton.mp h]
        simp
      · next l' ls heq =>
        rcases List.mem_cons.mp h with rfl | h
        · simp
        · exact ih (heq ▸ List.mem_cons_of_mem l' h)

theorem parserLine_eq {counted : List (List Char)} {row : ℕ}
    (h : cut isNewline (counted.take (row - 1)).flatten = counted.take (row - 1)) : parserLine counted row = row := by
  rw [parserLine, h, Nat.sub_self, Nat.add_zero]

theorem parserLine_of_plain {ends : Char → Bool} (hnl : ends '\n' = true)
    (hsub : ∀ c, ends c = true → isLineBoundary c = true)
    (hplain : ∀ l ∈ plain, Ended isLineBoundary l) {row : ℕ}
    (h : row ≤ plain.length ∨ Endless isLineBoundary rest) :
    parserLine (cut ends (plain.flatten ++ rest)) row = row := by
  rw [cut_flatten_append hnl (fun l hl => (hplain l hl).mono hsub) rest]
  refine parserLine_eq ?_
  have htake : ∀ m, ∀ l ∈ plain.take m, Ended isNewline l := fun m l hl =>
    (hplain l (List.mem_of_mem_take hl)).mono isLineBoundary_of_isNewline
  rw [List.take_append, List.flatten_append, cut_flatten_append rfl (htake _)]
  congr 1
  rcases h with hrow | hendless
  · rw [show row - 1 - plain.length = 0 by omega, List.take_zero]
    rfl
  · rw [cut_endless (hendless.mono hsub)]
    have hone : ∀ m, cut isNewline (List.take m [rest]).flatten = List.take m [rest] ∨ rest = [] := by
      intro m
      by_cases hnil : rest = []
      · exact .inr hnil
      · refine .inl ?_
        cases m with
        | zero => rfl
        | succ m =>
          rw [List.take_succ_cons, List.take_nil, List.flatten_singleton,
            cut_endless (hendless.mono isLineBoundary_of_isNewline), if_neg hnil]
    split
    · rw [List.take_nil]
      rfl
    · next hnil => exact (hone _).resolve_right hnil

theorem mem_logicalLines {source : List Char} (hsource : source = plain.flatten ++ rest)
    (hplain : ∀ l ∈ plain, Ended isLineBoundary l) {s : ℕ × ℕ} (hs : s ∈ spansOf R source)
    (h : s.2 < plain.length ∨ Endless isLineBoundary rest) (hle : s.1 ≤ s.2) : s ∈ logicalLines R source := by
  refine List.mem_map.mpr ⟨s, hs, ?_⟩
  have hcounted : ∃ ends : Char → Bool, ends '\n' = true ∧ (∀ c, ends c = true → isLineBoundary c = true) ∧
      countedLines R source = cut ends source := by
    unfold countedLines
    split
    · exact ⟨isLineBoundary, rfl, fun _ hc => hc, rfl⟩
    · refine ⟨(· == '\n'), rfl, fun c hc => ?_, rfl⟩
      rw [beq_iff_eq.mp hc]
      rfl
  obtain ⟨ends, hnl, hsub, heq⟩ := hcounted
  rw [heq, hsource]
  have hline : ∀ row, row ≤ s.2 → parserLine (cut ends (plain.flatten ++ rest)) row = row := fun row hrow =>
    parserLine_of_plain hnl hsub hplain (h.imp_left fun hlt => by omega)
  rw [hline _ hle, hline _ (Nat.le_refl _)]

/-- A tree is read from the source with logical lines replaced, every other line where it stood, if all rounds
stay within plain lines. -/
theorem keepsLines_of_undisturbed {source : List Char} {tree : Tree} {final : List (List Char)}
    (hfit : Undisturbed R source) (h : (tolerantSweep R source).1 = some (tree, final)) :
    KeepsLines R source final.flatten := by
  obtain ⟨plain, rest, hsource, hplain, hfit⟩ := hfit
  unfold tolerantSweep at h
  dsimp only at h
  split at h
  · cases h
  · have hrounds : sweepRounds R (spansOf R source) tolerantParseMaxBlocks (cut isLineBoundary source) [] =
        (some (tree, final), _) := Prod.ext h rfl
    have hrel : Related plain rest (cut isLineBoundary source) (cut isNewline source) := by
      rw [hsource]
      exact related_cut hplain
    obtain ⟨blocks, final', hrec, hrel', hframe⟩ := recovery_of_sweepRounds
      (fun s hs hwhere hle => mem_logicalLines hsource hplain hs hwhere hle) hrounds hrel hfit
    refine ⟨blocks, final', hrec, hrel'.flatten_eq, fun k hk => ?_⟩
    rw [hrel'.flatten_eq, hrel'.getElem?_cut, hframe k hk]
    rw [hframe k hk]
    intro hnil
    exact ne_nil_of_mem_cut (List.mem_of_getElem? hnil) rfl

end

/-- Statements of one line each, of which `y = = 2` is an error. -/
def oneLineReaders : Readers Unit where
  parse text :=
    match (cut isNewline text).findIdx? (· == "y = = 2\n".toList) with
    | some i => .error (i + 1)
    | none => .ok ()
  tokenize text := some ((List.range (cut (· == '\n') text).length).flatMap fun i =>
    [⟨.other, i + 1, i + 1⟩, ⟨.newline, i + 1, i + 1⟩])

theorem oneLine_keepsLines : KeepsLines oneLineReaders "y = = 2\nz = 3\n".toList "pass\nz = 3\n".toList := by
  refine @keepsLines_of_undisturbed _ oneLineReaders "y = = 2\nz = 3\n".toList ()
    ["pass\n".toList, "z = 3\n".toList] ?_ rfl
  refine ⟨["y = = 2\n".toList, "z = 3\n".toList], [], rfl, ?_, ?_⟩
  · have hline : ∀ body, (body.all fun c => !isLineBoundary c && c != '\r') = true →
        Ended isLineBoundary (body ++ ['\n']) := by
      refine fun body h => ⟨body, fun c hc => ?_, .inl rfl⟩
      simpa using List.all_eq_true.mp h c hc
    intro l hl
    simp only [List.mem_cons, List.not_mem_nil, or_false] at hl
    rcases hl with rfl | rfl
    · exact hline "y = = 2".toList rfl
    · exact hline "z = 3".toList rfl
  · exact .inr ⟨⟨rfl, .inl (by decide)⟩, trivial⟩

theorem blockLimit_le {lines : List (List Char)} {start stop : ℕ} (h : stop ≤ lines.length) :
    blockLimit lines start stop ≤ lines.length := by
  have hlen : ((lines.drop stop).takeWhile fun l => blank l ||
      decide (tolerantBlockIndent (firstLine lines start) < tolerantBlockIndent l)).length ≤
        (lines.drop stop).length :=
    (List.takeWhile_sublist _).length_le
  rw [List.length_drop] at hlen
  unfold blockLimit
  dsimp only
  omega

theorem le_length_of_recovery {Tree : Type} {R : Readers Tree} {logical : List (ℕ × ℕ)}
    {lines final : List (List Char)} {blocks : List (ℕ × ℕ)} (h : Recovery R logical lines blocks final)
    (hlogical : ∀ s ∈ logical, s.2 ≤ lines.length) : ∀ b ∈ blocks, b.2 ≤ lines.length := by
  induction h with
  | done => nofun
  | round error mem start stop code rest ih =>
    rw [length_tolerantSubstitute] at ih
    intro b hb
    rcases List.mem_cons.mp hb with rfl | hb
    · exact blockLimit_le (hlogical _ mem)
    · exact ih hlogical b hb

/-- `splitlines` cuts at the form feed, so a line is put in instead of being replaced. -/
theorem keepsLines_fails :
    ¬∀ (Tree : Type) (R : Readers Tree) (source : List Char) (tree : Tree) (final : List (List Char)),
      (∃ line, R.parse source = .error line) → (tolerantSweep R source).1 = some (tree, final) →
        KeepsLines R source final.flatten := by
  intro hall
  have hkeeps := hall Unit oneLineReaders "x = 1\x0c\ny = = 2\nz = 3\n".toList ()
    ["x = 1\x0c".toList, "\npass\n".toList, "pass\n".toList, "z = 3\n".toList] ⟨2, rfl⟩ rfl
  obtain ⟨blocks, final, hrec, -, hframe⟩ := hkeeps
  have hle := le_length_of_recovery hrec (by decide)
  have hsame := hframe 3 fun b hb => .inr (hle b hb)
  exact absurd hsame (by decide)

end TimeCodeSecurity.Parsing
