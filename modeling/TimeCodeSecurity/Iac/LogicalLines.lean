import TimeCodeSecurity.Foundations.Separators
import TimeCodeSecurity.Iac.Dockerfile

/-! # Docker's logical lines

A logical line goes on behind a line that ends with a backslash, and comments and blank lines in it are left out.
It is kept here as the blocks between these, since the audit takes each block for an instruction.
-/
namespace TimeCodeSecurity.Iac
open Pep440 (isSpace strip strip_strip)
open Scanner (isLineBoundary)
set_option autoImplicit false

abbrev Trimmed := { t : Text // strip t = t }

def trimmed (t : Text) : Trimmed := ⟨strip t, strip_strip t⟩

inductive Line where
  | skipped
  | more (text : Trimmed)
  | final (text : Trimmed)

/-- Lines of a logical line, one behind the other; there is at least one. -/
structure Block where
  start : ℕ
  first : Trimmed
  rest : List Trimmed

def Block.text (b : Block) : Text := joinPieces (b.first.1 :: b.rest.map (·.1))

def extendBlock (lineno : ℕ) (t : Trimmed) : Option Block → Block
  | none => { start := lineno, first := t, rest := [] }
  | some b => { b with rest := b.rest ++ [t] }

/-- The logical lines from a line on, `done` and `current` being the blocks of the one that is open. -/
def groupsFrom : ℕ → List Block → Option Block → List Line → List (List Block)
  | _, done, current, [] => if done ++ current.toList = [] then [] else [done ++ current.toList]
  | lineno, done, current, line :: lines => match line with
    | .skipped => groupsFrom (lineno + 1) (done ++ current.toList) none lines
    | .more t => groupsFrom (lineno + 1) done (some (extendBlock lineno t current)) lines
    | .final t => (done ++ [extendBlock lineno t current]) :: groupsFrom (lineno + 1) [] none lines

def readLine (line : Text) : Line :=
  let body := line.dropWhile isSpace
  if isSkipped body then .skipped
  else
    let text := body.rdropWhile fun c => c = ' ' || c = '\t'
    if goesOn text then .more (trimmed text.dropLast) else .final (trimmed text)

/-- Docker ends a line at `\n` and `\r\n` only. -/
def logicalLines (source : Text) : List (List Block) :=
  groupsFrom 1 [] none ((TextLines.splitLines (· = '\n') source).map readLine)

def lineText (blocks : List Block) : Text := joinPieces (blocks.flatMap fun b => b.first.1 :: b.rest.map (·.1))

/-- `\s+` cuts the instruction from its arguments. -/
def argumentsOf (text : Text) : Text := strip ((text.dropWhile isSpace).dropWhile (!isSpace ·))

section

variable (upper : Text → Text)

def dockerInstruction : List Block → Option Instruction
  | [] => none
  | b :: rest =>
    let text := lineText (b :: rest)
    if firstWord text = [] then none
    else some { line := b.start, keyword := upper (firstWord text), arguments := argumentsOf text }

def dockerInstructions (source : Text) : List Instruction :=
  (logicalLines source).filterMap (dockerInstruction upper)

end

section

variable {upper : Text → Text}

def classify (raw : Text) : Line :=
  if isSkipped (strip raw) then .skipped
  else if goesOn (strip raw) then .more (trimmed (strip raw).dropLast) else .final (trimmed (strip raw))

variable (upper) in
def blockInstruction (b : Block) : Instruction := splitInstruction upper b.start b.text

def unfinishedOf (current : Option Block) : Option (ℕ × List Text) :=
  current.map fun b => (b.start, b.first.1 :: b.rest.map (·.1))

theorem instructionsFrom_cons (n : ℕ) (unfinished : Option (ℕ × List Text)) (raw : Text) (rest : List Text) :
    instructionsFrom upper n unfinished (raw :: rest) =
      if isSkipped (strip raw) then
        (unfinished.map fun b => splitInstruction upper b.1 (joinPieces b.2)).toList ++
          instructionsFrom upper (n + 1) none rest
      else
        let b := unfinished.getD (n, [])
        if goesOn (strip raw) then
          instructionsFrom upper (n + 1) (some (b.1, b.2 ++ [strip (strip raw).dropLast])) rest
        else
          splitInstruction upper b.1 (joinPieces (b.2 ++ [strip raw])) ::
            instructionsFrom upper (n + 1) none rest := by
  cases unfinished with
  | none => rfl
  | some b => rfl

theorem instructionsFrom_eq (n : ℕ) (done : List Block) (current : Option Block) (lines : List Text) :
    (groupsFrom n done current (lines.map classify)).flatten.map (blockInstruction upper) =
      done.map (blockInstruction upper) ++ instructionsFrom upper n (unfinishedOf current) lines := by
  induction lines generalizing n done current with
  | nil =>
    rw [List.map_nil, groupsFrom]
    split
    next h =>
      obtain ⟨rfl, hcurrent⟩ := List.append_eq_nil_iff.mp h
      cases current with
      | none => rfl
      | some b => cases hcurrent
    next h =>
      cases current with
      | none => simp [unfinishedOf, instructionsFrom]
      | some b => simp [unfinishedOf, instructionsFrom, blockInstruction, Block.text]
  | cons raw rest ih =>
    rw [List.map_cons, classify, instructionsFrom_cons]
    split
    · rw [groupsFrom, ih]
      cases current with
      | none => simp [unfinishedOf]
      | some b => simp [unfinishedOf, blockInstruction, Block.text]
    · split
      · rw [groupsFrom, ih]
        cases current with
        | none => rfl
        | some b => simp [unfinishedOf, extendBlock, trimmed]
      · rw [groupsFrom, List.flatten_cons, List.map_append, ih]
        cases current with
        | none => simp [unfinishedOf, extendBlock, trimmed, blockInstruction, Block.text, strip_strip]
        | some b => simp [unfinishedOf, extendBlock, trimmed, blockInstruction, Block.text, strip_strip]

end

/-! ## Each line starts one block at most -/

section

def starts (blocks : List Block) : List ℕ := blocks.map (·.start)

def Rising (n : ℕ) (lines : List ℕ) : Prop := lines.Pairwise (· < ·) ∧ ∀ s ∈ lines, s < n

theorem Rising.succ {n : ℕ} {lines : List ℕ} (h : Rising n lines) : Rising (n + 1) lines :=
  ⟨h.1, fun s hs => Nat.lt_succ_of_lt (h.2 s hs)⟩

theorem rising_extend {n : ℕ} {done : List Block} {current : Option Block} (t : Trimmed)
    (h : Rising n (starts (done ++ current.toList))) :
    Rising (n + 1) (starts (done ++ [extendBlock n t current])) := by
  cases current with
  | some b =>
    have hsame : starts (done ++ [extendBlock n t (some b)]) = starts (done ++ (some b).toList) := by
      simp [starts, extendBlock]
    rw [hsame]
    exact h.succ
  | none =>
    rw [Option.toList_none, List.append_nil] at h
    rw [starts, List.map_append, ← starts]
    refine ⟨List.pairwise_append.mpr ⟨h.1, List.pairwise_singleton _ _, ?_⟩, ?_⟩
    · intro s hs s' hs'
      rw [List.mem_singleton.mp hs']
      exact h.2 s hs
    · intro s hs
      rcases List.mem_append.mp hs with hs | hs
      · exact Nat.lt_succ_of_lt (h.2 s hs)
      · rw [List.mem_singleton.mp hs]
        exact Nat.lt_succ_self n

theorem mem_starts_extend {n s : ℕ} {done : List Block} {current : Option Block} {t : Trimmed}
    (h : s ∈ starts (done ++ [extendBlock n t current])) : s ∈ starts (done ++ current.toList) ∨ n ≤ s := by
  cases current with
  | none =>
    rw [starts, List.map_append] at h
    rcases List.mem_append.mp h with hdone | hnew
    · exact .inl (by simpa [starts] using hdone)
    · exact .inr (le_of_eq (List.mem_singleton.mp hnew).symm)
  | some b => exact .inl (by simpa [starts, extendBlock] using h)

theorem starts_groupsFrom (n : ℕ) (done : List Block) (current : Option Block) (lines : List Line)
    (h : Rising n (starts (done ++ current.toList))) :
    (starts (groupsFrom n done current lines).flatten).Pairwise (· < ·) ∧
      ∀ s ∈ starts (groupsFrom n done current lines).flatten, s ∈ starts (done ++ current.toList) ∨ n ≤ s := by
  induction lines generalizing n done current with
  | nil =>
    rw [groupsFrom]
    split
    · exact ⟨List.Pairwise.nil, fun s hs => by cases hs⟩
    · rw [List.flatten_singleton]
      exact ⟨h.1, fun s hs => .inl hs⟩
  | cons line lines ih =>
    cases line with
    | skipped =>
      rw [groupsFrom]
      have hopen : done ++ current.toList ++ (none : Option Block).toList = done ++ current.toList := by simp
      obtain ⟨hpair, hmem⟩ := ih (n + 1) (done ++ current.toList) none (by rw [hopen]; exact h.succ)
      rw [hopen] at hmem
      exact ⟨hpair, fun s hs => (hmem s hs).imp_right fun hle => by omega⟩
    | more t =>
      rw [groupsFrom]
      obtain ⟨hpair, hmem⟩ := ih (n + 1) done (some (extendBlock n t current)) (rising_extend t h)
      refine ⟨hpair, fun s hs => ?_⟩
      rcases hmem s hs with hold | hle
      · exact mem_starts_extend hold
      · exact .inr (by omega)
    | final t =>
      have hnew := rising_extend t h
      rw [groupsFrom, List.flatten_cons]
      obtain ⟨hpair, hmem⟩ := ih (n + 1) [] none ⟨List.Pairwise.nil, fun s hs => by cases hs⟩
      have hlater : ∀ s ∈ starts (groupsFrom (n + 1) [] none lines).flatten, n + 1 ≤ s := by
        intro s hs
        rcases hmem s hs with hnil | hle
        · cases hnil
        · exact hle
      rw [starts, List.map_append, ← starts, ← starts]
      refine ⟨List.pairwise_append.mpr ⟨hnew.1, hpair, fun s hs s' hs' => ?_⟩, fun s hs => ?_⟩
      · exact (hnew.2 s hs).trans_le (hlater s' hs')
      · rcases List.mem_append.mp hs with hs | hs
        · exact mem_starts_extend hs
        · have hle := hlater s hs
          exact .inr (by omega)

end

section

def letters (t : Text) : ℕ := t.countP (!isSpace ·)

theorem letters_append (u v : Text) : letters (u ++ v) = letters u + letters v := List.countP_append

theorem letters_eq_zero {t : Text} : letters t = 0 ↔ ∀ c ∈ t, isSpace c = true := by
  simp [letters, List.countP_eq_zero]

theorem letters_strip (t : Text) : letters (strip t) = letters t := Trimming.countP_trim t

theorem strip_append_left {u : Text} (hu : letters u = 0) (v : Text) : strip (u ++ v) = strip v :=
  Trimming.trim_append_left (letters_eq_zero.mp hu) v

theorem strip_append_right {w : Text} (hw : letters w = 0) (v : Text) : strip (v ++ w) = strip v :=
  Trimming.trim_append_right (letters_eq_zero.mp hw) v

theorem firstWord_eq_nil {t : Text} : firstWord t = [] ↔ letters t = 0 := by
  rw [letters_eq_zero, firstWord, ← List.dropWhile_eq_nil_iff]
  constructor
  · intro h
    cases hdrop : t.dropWhile isSpace with
    | nil => rfl
    | cons c cs =>
      have hne : t.dropWhile isSpace ≠ [] := by rw [hdrop]; exact List.cons_ne_nil _ _
      have hc := List.head_dropWhile_not isSpace hne
      rw [hdrop] at h
      simp only [hdrop, List.head_cons] at hc
      rw [List.takeWhile_cons_of_pos (by rw [hc]; rfl)] at h
      cases h
  · intro h
    rw [h]
    rfl

def StartsBlank (t : Text) : Prop := ∀ c ∈ t.head?, c = ' '

theorem takeWhile_append_blank {p : Char → Bool} (hp : p ' ' = false) {t : Text} (ht : StartsBlank t) (u : Text) :
    (u ++ t).takeWhile p = u.takeWhile p := by
  have hnil : t.takeWhile p = [] := by
    cases t with
    | nil => rfl
    | cons c cs =>
      rw [ht c rfl, List.takeWhile_cons_of_neg (Bool.eq_false_iff.mp hp)]
  rw [List.takeWhile_append, hnil, List.append_nil]
  split
  next h => exact ((List.takeWhile_sublist p).eq_of_length h).symm
  · rfl

theorem dropWhile_append_blank {p : Char → Bool} (hp : p ' ' = false) {t : Text} (ht : StartsBlank t) (u : Text) :
    (u ++ t).dropWhile p = u.dropWhile p ++ t := by
  have hself : t.dropWhile p = t := by
    cases t with
    | nil => rfl
    | cons c cs =>
      rw [ht c rfl, List.dropWhile_cons_of_neg (Bool.eq_false_iff.mp hp)]
  rw [List.dropWhile_append]
  split
  next h => rw [hself, List.isEmpty_iff.mp h, List.nil_append]
  · rfl

end

section

variable {upper : Text → Text} {b : Block} {rest : List Block}

def laterText (rest : List Block) : Text := rest.flatMap fun b => ' ' :: b.text

theorem joinPieces_cons (t : Text) (ts : List Text) : joinPieces (t :: ts) = t ++ ts.flatMap (' ' :: ·) := by
  induction ts generalizing t with
  | nil => simp [joinPieces, List.intercalate]
  | cons u us ih =>
    have hstep : joinPieces (t :: u :: us) = t ++ ' ' :: joinPieces (u :: us) := by
      simp [joinPieces, List.intercalate, List.intersperse]
    rw [hstep, ih, List.flatMap_cons, List.cons_append]

theorem Block.text_eq (b : Block) : b.text = b.first.1 ++ (b.rest.map (·.1)).flatMap (' ' :: ·) :=
  joinPieces_cons _ _

theorem lineText_cons (b : Block) (rest : List Block) : lineText (b :: rest) = b.text ++ laterText rest := by
  rw [lineText, List.flatMap_cons, List.cons_append, joinPieces_cons, Block.text_eq, List.flatMap_append,
    List.append_assoc]
  congr 2
  rw [laterText, List.flatMap_assoc]
  refine congrArg List.flatten (List.map_congr_left fun b' _ => ?_)
  rw [List.flatMap_cons, Block.text_eq]
  rfl

theorem startsBlank_laterText (rest : List Block) : StartsBlank (laterText rest) := by
  cases rest with
  | nil => exact fun c hc => by cases hc
  | cons b rest => exact fun c hc => by cases hc; rfl

theorem letters_laterText : letters (laterText rest) = 0 ↔ ∀ b ∈ rest, letters b.text = 0 := by
  simp only [letters_eq_zero, laterText, List.mem_flatMap]
  constructor
  · intro h b hb c hc
    exact h c ⟨b, hb, List.mem_cons_of_mem _ hc⟩
  · rintro h c ⟨b, hb, hc⟩
    rcases List.mem_cons.mp hc with rfl | hc
    · rfl
    · exact h b hb c hc

theorem text_of_first (h : b.first.1 ≠ []) : ∃ c cs, b.text = c :: cs ∧ isSpace c = false := by
  obtain ⟨c, cs, hc⟩ := List.exists_cons_of_ne_nil h
  refine ⟨c, cs ++ (b.rest.map (·.1)).flatMap (' ' :: ·), ?_, ?_⟩
  · rw [Block.text_eq, hc, List.cons_append]
  · exact Trimming.head_trim (l := b.first.1) (b.first.2.trans hc)

theorem startsBlank_of_first (h : b.first.1 = []) : StartsBlank b.text := by
  rw [Block.text_eq, h, List.nil_append]
  cases b.rest with
  | nil => exact fun c hc => by cases hc
  | cons t ts => exact fun c hc => by cases hc; rfl

variable (upper) in
def keptInstruction (b : Block) : Option Instruction :=
  if (blockInstruction upper b).keyword ≠ [] then some (blockInstruction upper b) else none

theorem keptInstruction_eq (hupper : ∀ t, upper t = [] ↔ t = []) : keptInstruction upper b =
    if b.first.1 = [] then none else some (blockInstruction upper b) := by
  have hkey : (blockInstruction upper b).keyword = [] ↔ letters (b.text.takeWhile (· ≠ ' ')) = 0 := by
    show upper (strip (b.text.takeWhile (· ≠ ' '))) = [] ↔ _
    rw [hupper, ← letters_strip]
    constructor
    · intro h
      rw [h]
      rfl
    · intro h
      exact Trimming.trim_eq_nil.mpr (letters_eq_zero.mp ((letters_strip _).symm.trans h))
  rw [keptInstruction]
  by_cases hfirst : b.first.1 = []
  · have hnone : b.text.takeWhile (· ≠ ' ') = [] := by
      have h := takeWhile_append_blank (p := (· ≠ ' ')) (by decide) (startsBlank_of_first hfirst) []
      exact h
    rw [if_pos hfirst, if_neg (not_not.mpr (hkey.mpr (by rw [hnone]; rfl)))]
  · obtain ⟨c, cs, htext, hc⟩ := text_of_first hfirst
    rw [if_neg hfirst, if_pos]
    intro hnil
    have hzero := letters_eq_zero.mp (hkey.mp hnil) c
    have hblank : c ≠ ' ' := by
      rintro rfl
      cases hc
    rw [htext, List.takeWhile_cons_of_pos (by simpa using hblank)] at hzero
    rw [hzero List.mem_cons_self] at hc
    cases hc

end

end TimeCodeSecurity.Iac
