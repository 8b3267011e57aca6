import TimeCodeSecurity.Ci.Summary
import TimeCodeSecurity.Foundations.BarredRows
import TimeCodeSecurity.Foundations.TextLines
import TimeCodeSecurity.Foundations.Separators

/-! # The rows of the step summary

Read as a document, the summary has one row for each finding, with the printed fields as its cells, exactly when no
printed field holds a line end or a bar that is not escaped. One field of the six that come from the scanned
project is escaped.
-/
namespace TimeCodeSecurity.Ci
open BarredRows
set_option autoImplicit false

def isLineEnd (c : Char) : Bool := c = '\r' || c = '\n'

def physicalLines (text : Text) : List Text := TextLines.pieces isLineEnd text

def tableRule (again : Bool → Bool) : Rule Char where
  bar := '|'
  esc := '\\'
  blank := ' '
  again := again
  bar_ne_esc := by decide
  blank_ne_esc := by decide
  blank_ne_bar := by decide

variable (again : Bool → Bool)

def ReadsAs (header cells : List Text) (line : Text) : Prop :=
  cells.length = header.length ∧
    (tableRule again).cut false line = [] :: (cells.map (tableRule again).pad ++ [[]])

/-- Each active finding has one row in its table, with its printed fields as the cells. -/
def Tabulated (casing : Casing) (scan : ScanResult) (doc : Text) : Prop :=
  ∃ (sast : List Finding) (sca : List ScaFinding) (secrets : List SecretFinding)
    (sastRows scaRows secretRows : List Text),
    sast.Perm scan.activeSast ∧ sca.Perm scan.sca ∧ secrets.Perm scan.secrets ∧
    sast.Forall₂ (fun f => ReadsAs again sastHeader (f.cells casing)) sastRows ∧
    sca.Forall₂ (fun f => ReadsAs again scaHeader (f.cells casing)) scaRows ∧
    secrets.Forall₂ (fun f => ReadsAs again secretHeader (f.cells casing)) secretRows ∧
    physicalLines doc = summaryHead casing scan ++ findingLines sastRows scaRows secretRows ++
      (warningLines scan.syntaxErrors).flatMap physicalLines

structure Contained (text : Text) : Prop where
  oneLine : OneLine text
  noBars : (tableRule again).bars false text = 0

theorem oneLine_append {u v : Text} : OneLine (u ++ v) ↔ OneLine u ∧ OneLine v := by
  simp only [OneLine, List.mem_append, not_or]
  exact and_and_and_comm

theorem oneLine_cons {c : Char} {v : Text} : OneLine (c :: v) ↔ OneLine [c] ∧ OneLine v :=
  oneLine_append (u := [c])

theorem isLineEnd_eq_false {c : Char} : isLineEnd c = false ↔ c ≠ '\r' ∧ c ≠ '\n' := by
  simp [isLineEnd]

theorem physicalLines_of_oneLine {text : Text} (h : OneLine text) : physicalLines text = [text] := by
  refine TextLines.pieces_of_no_end fun c hc => ?_
  have hcr : c ≠ '\r' := fun heq => h.1 (heq ▸ hc)
  have hlf : c ≠ '\n' := fun heq => h.2 (heq ▸ hc)
  exact ⟨isLineEnd_eq_false.mpr ⟨hcr, hlf⟩, hcr⟩

theorem oneLine_of_length {text : Text} (h : (physicalLines text).length = 1) : OneLine text := by
  have hfree : ∀ c ∈ text, isLineEnd c = false := TextLines.no_end_of_length_pieces (by decide) h
  exact ⟨fun hmem => (isLineEnd_eq_false.mp (hfree _ hmem)).1 rfl,
    fun hmem => (isLineEnd_eq_false.mp (hfree _ hmem)).2 rfl⟩

theorem flatMap_physicalLines {lines : List Text} (h : ∀ l ∈ lines, OneLine l) :
    lines.flatMap physicalLines = lines := by
  induction lines with
  | nil => rfl
  | cons l lines ih =>
    rw [List.forall_mem_cons] at h
    rw [List.flatMap_cons, physicalLines_of_oneLine h.1, ih h.2, List.singleton_append]

theorem length_le_flatMap (lines : List Text) : lines.length ≤ (lines.flatMap physicalLines).length := by
  induction lines with
  | nil => exact Nat.le_refl 0
  | cons l lines ih =>
    have hpos : 0 < (physicalLines l).length := TextLines.length_pieces_pos l
    rw [List.flatMap_cons, List.length_append, List.length_cons]
    omega

theorem oneLine_of_flatMap {lines : List Text} (h : (lines.flatMap physicalLines).length ≤ lines.length) :
    ∀ l ∈ lines, OneLine l := by
  induction lines with
  | nil => exact fun l hl => nomatch hl
  | cons l lines ih =>
    have hpos : 0 < (physicalLines l).length := TextLines.length_pieces_pos l
    have hrest := length_le_flatMap lines
    rw [List.flatMap_cons, List.length_append, List.length_cons] at h
    rw [List.forall_mem_cons]
    exact ⟨oneLine_of_length (by omega), ih (by omega)⟩

theorem tableRow_cons (cell : Text) (cells : List Text) :
    tableRow (cell :: cells) = (tableRule again).row (cell :: cells) := by
  have hjoin : ∀ (cell : Text) (cells : List Text),
      ' ' :: (List.intercalate " | ".toList (cell :: cells) ++ " |".toList) =
        (cell :: cells).flatMap fun c => (tableRule again).pad c ++ [(tableRule again).bar] := by
    intro cell cells
    induction cells generalizing cell with
    | nil =>
      rw [List.intercalate_singleton]
      simp [Rule.pad, tableRule]
    | cons next cells ih =>
      rw [List.intercalate_cons_cons, List.flatMap_cons, ← ih next]
      simp [Rule.pad, tableRule]
  rw [Rule.row, ← hjoin]
  simp [tableRow, tableRule]

theorem oneLine_tableRow {cells : List Text} : OneLine (tableRow cells) ↔ ∀ cell ∈ cells, OneLine cell := by
  have hjoin : OneLine (List.intercalate " | ".toList cells) ↔ ∀ cell ∈ cells, OneLine cell := by
    induction cells with
    | nil => simp [OneLine]
    | cons cell cells ih =>
      cases cells with
      | nil => simp
      | cons next cells =>
        rw [List.intercalate_cons_cons, oneLine_append, oneLine_append, ih]
        rw [List.forall_mem_cons (a := cell)]
        have hbar : OneLine " | ".toList := by decide
        exact ⟨fun h => ⟨h.1.1, h.2⟩, fun h => ⟨⟨h.1, hbar⟩, h.2⟩⟩
  have hopen : OneLine "| ".toList := by decide
  have hclose : OneLine " |".toList := by decide
  rw [tableRow, oneLine_append, oneLine_append, hjoin]
  exact ⟨fun h => h.1.2, fun h => ⟨⟨hopen, h⟩, hclose⟩⟩

section Engine
variable {α : Type} {cells : α → List Text} {header : List Text}

theorem readsAs_of_contained (hne : header ≠ []) (hlength : ∀ f, (cells f).length = header.length) {f : α}
    (h : ∀ cell ∈ cells f, Contained again cell) : ReadsAs again header (cells f) (tableRow (cells f)) := by
  refine ⟨hlength f, ?_⟩
  cases hcells : cells f with
  | nil => exact absurd (List.length_eq_zero_iff.mp (by rw [← hlength f, hcells]; rfl)) hne
  | cons cell rest =>
    rw [hcells] at h
    rw [tableRow_cons again, Rule.cut_row _ fun c hc => (h c hc).noBars]

theorem noBars_of_readsAs (hne : header ≠ []) (hlength : ∀ f, (cells f).length = header.length) {f g : α}
    (h : ReadsAs again header (cells g) (tableRow (cells f))) :
    ∀ cell ∈ cells f, (tableRule again).bars false cell = 0 := by
  cases hcells : cells f with
  | nil => exact absurd (List.length_eq_zero_iff.mp (by rw [← hlength f, hcells]; rfl)) hne
  | cons cell rest =>
    rw [hcells, ReadsAs, tableRow_cons again] at h
    refine Rule.no_bars_of_cut_row _ ?_
    have hcount : (cell :: rest).length = header.length := hcells ▸ hlength f
    rw [h.2, List.length_cons, List.length_append, List.length_map, h.1, hcount]
    rfl

theorem contained_of_rows (hne : header ≠ []) (hlength : ∀ f, (cells f).length = header.length)
    {fs gs : List α} (hone : ∀ row ∈ fs.map fun f => tableRow (cells f), OneLine row)
    (h : gs.Forall₂ (fun g => ReadsAs again header (cells g)) (fs.map fun f => tableRow (cells f))) :
    ∀ f ∈ fs, ∀ cell ∈ cells f, Contained again cell := by
  induction fs generalizing gs with
  | nil => exact fun f hf => nomatch hf
  | cons f fs ih =>
    rw [List.map_cons, List.forall_mem_cons] at hone
    rw [List.map_cons] at h
    cases h with
    | cons hhead htail =>
      rw [List.forall_mem_cons]
      refine ⟨fun cell hcell => ⟨oneLine_tableRow.mp hone.1 cell hcell, ?_⟩, ih hone.2 htail⟩
      exact noBars_of_readsAs again hne hlength hhead cell hcell

theorem rows_of_contained (hne : header ≠ []) (hlength : ∀ f, (cells f).length = header.length) {fs : List α}
    (h : ∀ f ∈ fs, ∀ cell ∈ cells f, Contained again cell) :
    fs.Forall₂ (fun f => ReadsAs again header (cells f)) (fs.map fun f => tableRow (cells f)) := by
  induction fs with
  | nil => exact .nil
  | cons f fs ih =>
    rw [List.forall_mem_cons] at h
    exact .cons (readsAs_of_contained again hne hlength h.1) (ih h.2)

theorem oneLine_rows {fs : List α} (h : ∀ f ∈ fs, ∀ cell ∈ cells f, Contained again cell) :
    ∀ row ∈ fs.map fun f => tableRow (cells f), OneLine row := by
  intro row hrow
  obtain ⟨f, hf, rfl⟩ := List.mem_map.mp hrow
  exact oneLine_tableRow.mpr fun cell hcell => (h f hf cell hcell).oneLine

end Engine

/-! ## The lines of the document -/

theorem length_findingsTable {title delimiter : Text} {header rows rows' : List Text}
    (h : rows.length = rows'.length) :
    (findingsTable title header delimiter rows).length = (findingsTable title header delimiter rows').length := by
  have hnil : rows = [] ↔ rows' = [] := by rw [← List.length_eq_zero_iff, ← List.length_eq_zero_iff, h]
  rw [findingsTable, findingsTable]
  by_cases hrows : rows = []
  · rw [if_pos hrows, if_pos (hnil.mp hrows)]
  · rw [if_neg hrows, if_neg fun h' => hrows (hnil.mpr h')]
    simp [h]

theorem findingsTable_inj {title delimiter : Text} {header rows rows' : List Text}
    (hlength : rows.length = rows'.length)
    (h : findingsTable title header delimiter rows = findingsTable title header delimiter rows') : rows = rows' := by
  rw [findingsTable, findingsTable] at h
  have hnil : rows = [] ↔ rows' = [] := by rw [← List.length_eq_zero_iff, ← List.length_eq_zero_iff, hlength]
  by_cases hrows : rows = []
  · rw [hrows, hnil.mp hrows]
  · rw [if_neg hrows, if_neg fun h' => hrows (hnil.mpr h')] at h
    exact List.append_cancel_left (List.append_cancel_right h)

section Rows
variable {a b c a' b' c' : List Text}

theorem all_nil_iff (ha : a.length = a'.length) (hb : b.length = b'.length) (hc : c.length = c'.length) :
    (a = [] ∧ b = [] ∧ c = []) ↔ a' = [] ∧ b' = [] ∧ c' = [] := by
  simp only [← List.length_eq_zero_iff, ha, hb, hc]

theorem length_findingLines (ha : a.length = a'.length) (hb : b.length = b'.length) (hc : c.length = c'.length) :
    (findingLines a b c).length = (findingLines a' b' c').length := by
  rw [findingLines, findingLines]
  by_cases hnone : a = [] ∧ b = [] ∧ c = []
  · rw [if_pos hnone, if_pos ((all_nil_iff ha hb hc).mp hnone)]
  · rw [if_neg hnone, if_neg fun h => hnone ((all_nil_iff ha hb hc).mpr h)]
    simp only [List.length_append, sastTable, scaTable, secretTable]
    rw [length_findingsTable ha, length_findingsTable hb, length_findingsTable hc]

theorem findingLines_inj (ha : a.length = a'.length) (hb : b.length = b'.length) (hc : c.length = c'.length)
    (h : findingLines a b c = findingLines a' b' c') : a = a' ∧ b = b' ∧ c = c' := by
  rw [findingLines, findingLines] at h
  by_cases hnone : a = [] ∧ b = [] ∧ c = []
  · obtain ⟨ha', hb', hc'⟩ := (all_nil_iff ha hb hc).mp hnone
    rw [hnone.1, hnone.2.1, hnone.2.2, ha', hb', hc']
    exact ⟨rfl, rfl, rfl⟩
  · rw [if_neg hnone, if_neg fun h => hnone ((all_nil_iff ha hb hc).mpr h)] at h
    obtain ⟨hab, hthird⟩ := List.append_inj' h (length_findingsTable hc)
    obtain ⟨hfirst, hsecond⟩ := List.append_inj' hab (length_findingsTable hb)
    exact ⟨findingsTable_inj ha hfirst, findingsTable_inj hb hsecond, findingsTable_inj hc hthird⟩

end Rows

theorem forall_findingsTable {P : Text → Prop} (hP : ∀ l, OneLine l → P l) {title delimiter : Text}
    {header rows : List Text} (htitle : OneLine title) (hheader : ∀ cell ∈ header, OneLine cell)
    (hdelimiter : OneLine delimiter) (hrows : ∀ row ∈ rows, P row) :
    ∀ l ∈ findingsTable title header delimiter rows, P l := by
  have hempty : OneLine [] := by decide
  intro l hl
  rw [findingsTable] at hl
  split at hl
  · cases hl
  · simp only [List.mem_append, List.mem_cons, List.not_mem_nil, or_false] at hl
    rcases hl with ((rfl | rfl | rfl | rfl) | hrow) | rfl
    · exact hP _ htitle
    · exact hP _ hempty
    · exact hP _ (oneLine_tableRow.mpr hheader)
    · exact hP _ hdelimiter
    · exact hrows l hrow
    · exact hP _ hempty

theorem rows_subset_findingsTable (title delimiter : Text) (header rows : List Text) :
    ∀ row ∈ rows, row ∈ findingsTable title header delimiter rows := by
  intro row hrow
  rw [findingsTable, if_neg (List.ne_nil_of_mem hrow)]
  simp [hrow]

theorem forall_findingLines {P : Text → Prop} (hP : ∀ l, OneLine l → P l) {a b c : List Text}
    (ha : ∀ row ∈ a, P row) (hb : ∀ row ∈ b, P row) (hc : ∀ row ∈ c, P row) : ∀ l ∈ findingLines a b c, P l := by
  intro l hl
  rw [findingLines] at hl
  split at hl
  · have hnone : OneLine "*No vulnerabilities detected across active scanners.*".toList := by decide
    have hempty : OneLine [] := by decide
    simp only [List.mem_cons, List.not_mem_nil, or_false] at hl
    rcases hl with rfl | rfl
    · exact hP _ hnone
    · exact hP _ hempty
  · rw [List.mem_append, List.mem_append] at hl
    rcases hl with (h | h) | h
    · exact forall_findingsTable hP (by decide) (by decide) (by decide) ha l h
    · exact forall_findingsTable hP (by decide) (by decide) (by decide) hb l h
    · exact forall_findingsTable hP (by decide) (by decide) (by decide) hc l h

theorem rows_subset_findingLines (a b c : List Text) : ∀ row ∈ a ++ b ++ c, row ∈ findingLines a b c := by
  intro row hrow
  have hsome : ¬(a = [] ∧ b = [] ∧ c = []) := by
    rintro ⟨rfl, rfl, rfl⟩
    cases hrow
  rw [findingLines, if_neg hsome]
  simp only [List.mem_append] at hrow ⊢
  rcases hrow with (h | h) | h
  · exact .inl (.inl (rows_subset_findingsTable _ _ _ _ _ h))
  · exact .inl (.inr (rows_subset_findingsTable _ _ _ _ _ h))
  · exact .inr (rows_subset_findingsTable _ _ _ _ _ h)

theorem oneLine_countText (n : ℕ) : OneLine (countText n) := by
  have hdigit : ∀ c ∈ countText n, c.isDigit = true := fun c hc =>
    Nat.isDigit_of_mem_toDigits (by omega) (by omega) hc
  exact ⟨fun hmem => absurd (hdigit _ hmem) (by decide), fun hmem => absurd (hdigit _ hmem) (by decide)⟩

theorem oneLine_foundOrClean (n : ℕ) : OneLine (foundOrClean n) := by
  rw [foundOrClean]
  split <;> decide

theorem oneLine_scaStatus (casing : Casing) (scan : ScanResult) : OneLine (scan.scaStatus casing) := by
  rw [ScanResult.scaStatus]
  split
  · decide
  · split
    · decide
    · exact oneLine_foundOrClean _

theorem oneLine_secretStatus (scan : ScanResult) : OneLine scan.secretStatus := by
  rw [ScanResult.secretStatus]
  split
  · decide
  · exact oneLine_foundOrClean _

theorem oneLine_countOrDash {α : Type} (findings : Option (List α)) : OneLine (countOrDash findings) := by
  cases findings with
  | none =>
    show OneLine "-".toList
    decide
  | some fs => exact oneLine_countText _

theorem oneLine_summaryHead (casing : Casing) (scan : ScanResult) : ∀ l ∈ summaryHead casing scan, OneLine l := by
  simp only [summaryHead, List.forall_mem_cons, oneLine_tableRow, oneLine_countText, oneLine_foundOrClean,
    oneLine_scaStatus, oneLine_secretStatus, oneLine_countOrDash, List.not_mem_nil, false_imp_iff, implies_true,
    and_true]
  decide

def EndsPlain (lines : List Text) : Prop :=
  ∃ before text c, lines = before ++ [text ++ [c], []] ∧ Pep440.isSpace c = false

theorem EndsPlain.append_left {lines : List Text} (h : EndsPlain lines) (more : List Text) :
    EndsPlain (more ++ lines) := by
  obtain ⟨before, text, c, rfl, hc⟩ := h
  exact ⟨more ++ before, text, c, (List.append_assoc _ _ _).symm, hc⟩

theorem intercalate_concat (sep : Text) {lines : List Text} (hne : lines ≠ []) (last : Text) :
    List.intercalate sep (lines ++ [last]) = List.intercalate sep lines ++ (sep ++ last) := by
  induction lines with
  | nil => exact absurd rfl hne
  | cons l lines ih =>
    cases lines with
    | nil => simp [List.intercalate_cons_cons]
    | cons k lines =>
      rw [List.cons_append, List.cons_append, List.intercalate_cons_cons, ← List.cons_append,
        ih (List.cons_ne_nil k lines), List.intercalate_cons_cons]
      simp only [List.append_assoc]

theorem document_of_endsPlain {lines : List Text} (h : EndsPlain lines) :
    document lines = List.intercalate ['\n'] lines := by
  obtain ⟨before, text, c, rfl, hc⟩ := h
  have hlast : ∃ u, List.intercalate ['\n'] (before ++ [text ++ [c]]) = u ++ [c] := by
    by_cases hnil : before = []
    · exact ⟨text, by rw [hnil, List.nil_append, List.intercalate_singleton]⟩
    · exact ⟨_, by rw [intercalate_concat _ hnil, ← List.append_assoc, ← List.append_assoc]⟩
  obtain ⟨u, hu⟩ := hlast
  have hjoin : List.intercalate ['\n'] (before ++ [text ++ [c], []]) = u ++ [c] ++ ['\n'] := by
    have happend := intercalate_concat ['\n'] (List.append_ne_nil_of_right_ne_nil before
      (List.cons_ne_nil (text ++ [c]) [])) []
    rw [hu, List.append_assoc before] at happend
    exact happend
  have hnewline : Pep440.isSpace '\n' = true := by decide
  rw [document, hjoin, List.rdropWhile_concat_pos _ _ _ hnewline,
    List.rdropWhile_concat_neg _ _ _ (Bool.eq_false_iff.mp hc)]

def EndsInBar (line : Text) : Prop := ∃ text, line = text ++ ['|']

theorem endsInBar_tableRow (cells : List Text) : EndsInBar (tableRow cells) :=
  ⟨"| ".toList ++ List.intercalate " | ".toList cells ++ [' '], by simp [tableRow]⟩

theorem endsPlain_findingsTable {title delimiter : Text} {header rows : List Text} (hne : rows ≠ [])
    (h : ∀ row ∈ rows, EndsInBar row) : EndsPlain (findingsTable title header delimiter rows) := by
  obtain ⟨text, htext⟩ := h _ (List.getLast_mem hne)
  rw [findingsTable, if_neg hne, ← List.dropLast_append_getLast hne, htext]
  exact ⟨[title, [], tableRow header, delimiter] ++ rows.dropLast, text, '|', by simp, by decide⟩

theorem endsPlain_findingLines {a b c : List Text} (ha : ∀ row ∈ a, EndsInBar row)
    (hb : ∀ row ∈ b, EndsInBar row) (hc : ∀ row ∈ c, EndsInBar row) : EndsPlain (findingLines a b c) := by
  rw [findingLines]
  split
  next => exact ⟨[], "*No vulnerabilities detected across active scanners.".toList, '*', rfl, by decide⟩
  next hsome =>
    by_cases hcnil : c = []
    · have hthird : secretTable c = [] := if_pos hcnil
      rw [hthird, List.append_nil]
      by_cases hbnil : b = []
      · have hsecond : scaTable b = [] := if_pos hbnil
        rw [hsecond, List.append_nil]
        exact endsPlain_findingsTable (fun hanil => hsome ⟨hanil, hbnil, hcnil⟩) ha
      · exact (endsPlain_findingsTable hbnil hb).append_left _
    · exact (endsPlain_findingsTable hcnil hc).append_left _

theorem warningLine_eq (err : Text) :
    ∃ text, warningLine err = text ++ ['`'] := ⟨_, rfl⟩

theorem endsPlain_warningLines {errors : List Text} (hne : errors ≠ []) : EndsPlain (warningLines errors) := by
  obtain ⟨text, htext⟩ := warningLine_eq (errors.getLast hne)
  rw [warningLines, if_neg hne]
  refine ⟨["### Parser Warnings".toList, []] ++ errors.dropLast.map warningLine, text, '`', ?_, by decide⟩
  conv_lhs => rw [← List.dropLast_append_getLast hne]
  simp [htext]

/-! ### All lines -/

theorem not_cr_of_oneLine {l : Text} (h : OneLine l) : l.getLast? ≠ some '\r' := fun hlast =>
  h.1 (List.mem_of_getLast? hlast)

theorem not_cr_of_endsInBar {l : Text} (h : EndsInBar l) : l.getLast? ≠ some '\r' := by
  obtain ⟨text, rfl⟩ := h
  rw [List.getLast?_concat]
  decide

theorem not_cr_of_warningLines (errors : List Text) : ∀ l ∈ warningLines errors, l.getLast? ≠ some '\r' := by
  have htitle : OneLine "### Parser Warnings".toList := by decide
  intro l hl
  rw [warningLines] at hl
  split at hl
  · cases hl
  · simp only [List.mem_append, List.mem_cons, List.not_mem_nil, or_false, List.mem_map] at hl
    rcases hl with ((rfl | rfl) | ⟨err, -, rfl⟩) | rfl
    · exact not_cr_of_oneLine htitle
    · decide
    · obtain ⟨text, htext⟩ := warningLine_eq err
      rw [htext, List.getLast?_concat]
      decide
    · decide

section Document
variable {casing : Casing} {scan : ScanResult} {a b c : List Text}

theorem endsPlain_lines (ha : ∀ row ∈ a, EndsInBar row) (hb : ∀ row ∈ b, EndsInBar row)
    (hc : ∀ row ∈ c, EndsInBar row) :
    EndsPlain (summaryHead casing scan ++ findingLines a b c ++ warningLines scan.syntaxErrors) := by
  have hrows := (endsPlain_findingLines ha hb hc).append_left (summaryHead casing scan)
  by_cases herrors : scan.syntaxErrors = []
  · rw [warningLines, if_pos herrors, List.append_nil]
    exact hrows
  · exact (endsPlain_warningLines herrors).append_left _

theorem physicalLines_document (ha : ∀ row ∈ a, EndsInBar row) (hb : ∀ row ∈ b, EndsInBar row)
    (hc : ∀ row ∈ c, EndsInBar row) :
    physicalLines (document (summaryHead casing scan ++ findingLines a b c ++ warningLines scan.syntaxErrors)) =
      (summaryHead casing scan ++ findingLines a b c).flatMap physicalLines ++
        (warningLines scan.syntaxErrors).flatMap physicalLines := by
  have hne : summaryHead casing scan ++ findingLines a b c ++ warningLines scan.syntaxErrors ≠ [] :=
    List.append_ne_nil_of_left_ne_nil (List.append_ne_nil_of_left_ne_nil (List.cons_ne_nil _ _) _) _
  have hcr : ∀ l ∈ summaryHead casing scan ++ findingLines a b c ++ warningLines scan.syntaxErrors,
      l.getLast? ≠ some '\r' := by
    intro l hl
    rw [List.mem_append, List.mem_append] at hl
    rcases hl with (hl | hl) | hl
    · exact not_cr_of_oneLine (oneLine_summaryHead casing scan l hl)
    · exact forall_findingLines (fun _ => not_cr_of_oneLine) (fun row hrow => not_cr_of_endsInBar (ha row hrow))
        (fun row hrow => not_cr_of_endsInBar (hb row hrow)) (fun row hrow => not_cr_of_endsInBar (hc row hrow)) l hl
    · exact not_cr_of_warningLines _ l hl
  rw [document_of_endsPlain (endsPlain_lines ha hb hc), physicalLines,
    TextLines.pieces_intercalate (by decide) hne hcr, List.flatMap_append]
  rfl

theorem rows_eq_of_physicalLines {a' b' c' : List Text} (ha : ∀ row ∈ a, EndsInBar row)
    (hb : ∀ row ∈ b, EndsInBar row) (hc : ∀ row ∈ c, EndsInBar row) (hlengthA : a.length = a'.length)
    (hlengthB : b.length = b'.length) (hlengthC : c.length = c'.length)
    (h : physicalLines (document (summaryHead casing scan ++ findingLines a b c ++ warningLines scan.syntaxErrors)) =
      summaryHead casing scan ++ findingLines a' b' c' ++ (warningLines scan.syntaxErrors).flatMap physicalLines) :
    (∀ row ∈ a ++ b ++ c, OneLine row) ∧ a = a' ∧ b = b' ∧ c = c' := by
  rw [physicalLines_document ha hb hc] at h
  have hlines := List.append_cancel_right h
  have hcount : ((summaryHead casing scan ++ findingLines a b c).flatMap physicalLines).length ≤
      (summaryHead casing scan ++ findingLines a b c).length := by
    rw [hlines, List.length_append, List.length_append, length_findingLines hlengthA hlengthB hlengthC]
  have hone := oneLine_of_flatMap hcount
  rw [flatMap_physicalLines hone] at hlines
  refine ⟨fun row hrow => hone row (List.mem_append_right _ (rows_subset_findingLines a b c row hrow)), ?_⟩
  exact findingLines_inj hlengthA hlengthB hlengthC (List.append_cancel_left hlines)

end Document

theorem endsInBar_rows {α : Type} (cells : α → List Text) (fs : List α) :
    ∀ row ∈ fs.map fun f => tableRow (cells f), EndsInBar row := by
  intro row hrow
  obtain ⟨f, -, rfl⟩ := List.mem_map.mp hrow
  exact endsInBar_tableRow _

section Tables
variable {casing : Casing} {scan : ScanResult} {sast : List Finding} {sca : List ScaFinding}
  {secrets : List SecretFinding}

def written (casing : Casing) (scan : ScanResult) (sast : List Finding) (sca : List ScaFinding)
    (secrets : List SecretFinding) : Text :=
  document (summaryHead casing scan ++ findingLines (sast.map fun f => tableRow (f.cells casing))
    (sca.map fun f => tableRow (f.cells casing)) (secrets.map fun f => tableRow (f.cells casing)) ++
      warningLines scan.syntaxErrors)

theorem length_sastCells (f : Finding) : (f.cells casing).length = sastHeader.length := rfl

theorem length_scaCells (f : ScaFinding) : (f.cells casing).length = scaHeader.length := rfl

theorem length_secretCells (f : SecretFinding) : (f.cells casing).length = secretHeader.length := rfl

theorem tabulated_of_contained (hsast : sast.Perm scan.activeSast) (hsca : sca.Perm scan.sca)
    (hsecrets : secrets.Perm scan.secrets) (h1 : ∀ f ∈ sast, ∀ cell ∈ f.cells casing, Contained again cell)
    (h2 : ∀ f ∈ sca, ∀ cell ∈ f.cells casing, Contained again cell)
    (h3 : ∀ f ∈ secrets, ∀ cell ∈ f.cells casing, Contained again cell) :
    Tabulated again casing scan (written casing scan sast sca secrets) := by
  refine ⟨sast, sca, secrets, _, _, _, hsast, hsca, hsecrets,
    rows_of_contained again (List.cons_ne_nil _ _) length_sastCells h1,
    rows_of_contained again (List.cons_ne_nil _ _) length_scaCells h2,
    rows_of_contained again (List.cons_ne_nil _ _) length_secretCells h3, ?_⟩
  rw [written, physicalLines_document (endsInBar_rows _ _) (endsInBar_rows _ _) (endsInBar_rows _ _),
    List.flatMap_append, flatMap_physicalLines (oneLine_summaryHead casing scan),
    flatMap_physicalLines (forall_findingLines (fun _ h => h) (oneLine_rows again h1) (oneLine_rows again h2)
      (oneLine_rows again h3))]

theorem contained_of_tabulated (hsast : sast.Perm scan.activeSast) (hsca : sca.Perm scan.sca)
    (hsecrets : secrets.Perm scan.secrets) (h : Tabulated again casing scan (written casing scan sast sca secrets)) :
    (∀ f ∈ sast, ∀ cell ∈ f.cells casing, Contained again cell) ∧
      (∀ f ∈ sca, ∀ cell ∈ f.cells casing, Contained again cell) ∧
      ∀ f ∈ secrets, ∀ cell ∈ f.cells casing, Contained again cell := by
  obtain ⟨sast', sca', secrets', a, b, c, hsast', hsca', hsecrets', ha, hb, hc, hlines⟩ := h
  have hlengthA : (sast.map fun f => tableRow (f.cells casing)).length = a.length := by
    rw [List.length_map, ← ha.length_eq, hsast.length_eq, hsast'.length_eq]
  have hlengthB : (sca.map fun f => tableRow (f.cells casing)).length = b.length := by
    rw [List.length_map, ← hb.length_eq, hsca.length_eq, hsca'.length_eq]
  have hlengthC : (secrets.map fun f => tableRow (f.cells casing)).length = c.length := by
    rw [List.length_map, ← hc.length_eq, hsecrets.length_eq, hsecrets'.length_eq]
  obtain ⟨hone, rfl, rfl, rfl⟩ := rows_eq_of_physicalLines (endsInBar_rows _ _) (endsInBar_rows _ _)
    (endsInBar_rows _ _) hlengthA hlengthB hlengthC hlines
  simp only [List.mem_append] at hone
  exact ⟨contained_of_rows again (List.cons_ne_nil _ _) length_sastCells
      (fun row hrow => hone row (.inl (.inl hrow))) ha,
    contained_of_rows again (List.cons_ne_nil _ _) length_scaCells (fun row hrow => hone row (.inl (.inr hrow))) hb,
    contained_of_rows again (List.cons_ne_nil _ _) length_secretCells (fun row hrow => hone row (.inr hrow)) hc⟩

end Tables

end TimeCodeSecurity.Ci
