import TimeCodeSecurity.Ci.ScanResult

/-! # The step summary

`generate_step_summary`: a Markdown document with the counts of the engines and one table of findings for each
engine, sorted by keys of its own.
-/
namespace TimeCodeSecurity.Ci
set_option autoImplicit false

/-- `int(d.get(key) or 0)`; none where it raises. -/
def intOrZero (f : Field Number) : Option ℤ :=
  match f.get with
  | some n => if n.truthy then n.toInt? else some 0
  | none => some 0

/-- `sorted(xs, key=key)`; none where a key raises. -/
def sortedBy {α κ : Type} [LinearOrder κ] (key : α → Option κ) (xs : List α) : Option (List α) :=
  if xs.all fun x => (key x).isSome then
    some (((xs.filterMap fun x => (key x).map fun k => (k, x)).insertionSort fun x y => x.1 ≤ y.1).map Prod.snd)
  else none

section Sorting
variable {α κ : Type} [LinearOrder κ] {key : α → Option κ} {xs ys : List α}

theorem sortedBy_isSome : (sortedBy key xs).isSome ↔ ∀ x ∈ xs, (key x).isSome := by
  rw [sortedBy, ← List.all_eq_true]
  split
  next h => simp [h]
  next h => simp [h]

omit [LinearOrder κ] in
theorem map_snd_keyed (h : ∀ x ∈ xs, (key x).isSome) :
    (xs.filterMap fun x => (key x).map fun k => (k, x)).map Prod.snd = xs := by
  induction xs with
  | nil => rfl
  | cons x xs ih =>
    rw [List.forall_mem_cons] at h
    obtain ⟨k, hk⟩ := Option.isSome_iff_exists.mp h.1
    rw [List.filterMap_cons, hk, Option.map_some]
    show x :: _ = _
    rw [ih h.2]

theorem sortedBy_perm (h : sortedBy key xs = some ys) : ys.Perm xs := by
  rw [sortedBy] at h
  split at h
  next hall =>
    obtain rfl := Option.some.inj h
    have hperm := (List.perm_insertionSort (fun x y : κ × α => x.1 ≤ y.1)
      (xs.filterMap fun x => (key x).map fun k => (k, x))).map Prod.snd
    rwa [map_snd_keyed (List.all_eq_true.mp hall)] at hperm
  next => cases h

end Sorting

abbrev SummaryKey := Text ×ₗ ℤ ×ₗ ℤ ×ₗ Text

def Finding.summaryKey (f : Finding) : Option SummaryKey := do
  let line ← intOrZero f.lineNumber
  let col ← intOrZero f.columnStart
  return toLex (normalizePath (f.file.orText []), toLex (line, toLex (col, strText (f.cwe.getD []))))

abbrev ScaKey := Text ×ₗ ℤ ×ₗ Text ×ₗ Text

def ScaFinding.summaryKey (f : ScaFinding) : Option ScaKey := do
  let line ← intOrZero f.lineNumber
  return toLex (normalizePath (f.manifestSource.orText []),
    toLex (line, toLex (strText (f.packageName.getD []), strText (f.vulnerabilityId.getD []))))

def SecretFinding.summaryKey (f : SecretFinding) : Option SummaryKey := do
  let line ← intOrZero f.lineNumber
  let col ← intOrZero f.columnStart
  return toLex (normalizePath (f.file.orText []), toLex (line, toLex (col, strText (f.secretType.getD []))))

def tableRow (cells : List Text) : Text := "| ".toList ++ List.intercalate " | ".toList cells ++ " |".toList

def location (path after : Text) : Text := '`' :: (normalizePath path ++ after ++ ['`'])

/-- `f":{line}"`, if there is a line. -/
def lineStr (line : Field Number) : Text :=
  match line.get with
  | some n => if n.truthy then ':' :: n.str else []
  | none => []

variable (casing : Casing)

/-- `str(f.get("line_number", ""))`. -/
def Finding.lineText (f : Finding) : Text := strText ((f.lineNumber.getD (.text [])).map Number.str)

def Finding.detail (f : Finding) : Text :=
  let sinkSym := f.sinkSymbol.orText []
  if sinkSym ≠ [] then sanitizeSymbolDisplay sinkSym
  else f.flowTraceSummary.orText (f.codeSnippet.orText "Dataflow vulnerability".toList)

/-- What `clean_detail` writes for a character. -/
def cleanChar (c : Char) : Text := if c = '|' then "\\|".toList else if c = '\n' then " ".toList else [c]

def cleanDetail (detail : Text) : Text := Pep440.strip (detail.flatMap cleanChar)

def Finding.cells (f : Finding) : List Text :=
  [f.cweText, f.sevText casing, location (f.file.orText []) (':' :: f.lineText), cleanDetail f.detail]

def ScaFinding.cells (f : ScaFinding) : List Text :=
  [f.packageName.orText "-".toList, f.vulnerabilityId.orText "-".toList, f.sevText casing, f.statusText casing,
    f.fixedVersion.orText "-".toList, location (f.manifestSource.orText []) (lineStr f.lineNumber)]

def SecretFinding.confText (f : SecretFinding) : Text := casing.upper (f.confidence.orText "HIGH".toList)

def SecretFinding.maskedText (f : SecretFinding) : Text := strText (f.maskedValue.getD "********".toList)

def SecretFinding.cells (f : SecretFinding) : List Text :=
  [f.label casing, '`' :: (f.maskedText ++ ['`']), location (f.file.orText []) (lineStr f.lineNumber),
    f.confText casing, f.detector.orText f.secType]

def countText (n : ℕ) : Text := Nat.toDigits 10 n

def ScanResult.unresolvedCount (scan : ScanResult) : ℕ :=
  scan.sca.countP fun f => casing.upper (strText f.status.get) = "UNRESOLVED".toList

def foundOrClean (n : ℕ) : Text := if n = 0 then "CLEAN".toList else "FOUND".toList

def ScanResult.scaStatus (scan : ScanResult) : Text :=
  if scan.scaFindings.isNone then "INACTIVE".toList
  else if scan.unresolvedCount casing ≠ 0 then "UNRESOLVED".toList
  else foundOrClean scan.sca.length

def ScanResult.secretStatus (scan : ScanResult) : Text :=
  if scan.secretFindings.isNone then "INACTIVE".toList else foundOrClean scan.secrets.length

def countOrDash {α : Type} (findings : Option (List α)) : Text :=
  match findings with
  | none => "-".toList
  | some fs => countText fs.length

def summaryHead (scan : ScanResult) : List Text :=
  let sast := scan.activeSast.length
  let total := sast + scan.sca.length + scan.secrets.length
  ["# TimeCodeSecurity Scan".toList, [],
    tableRow ["Engine".toList, "Status".toList, "Findings".toList], "|---|---|---:|".toList,
    tableRow ["SAST".toList, foundOrClean sast, countText sast],
    tableRow ["SCA".toList, scan.scaStatus casing, countOrDash scan.scaFindings],
    tableRow ["Secrets".toList, scan.secretStatus, countOrDash scan.secretFindings], [],
    "## Security Metrics".toList, [],
    tableRow ["Metric".toList, "Value".toList], "|---|---:|".toList,
    tableRow ["SAST findings".toList, countText sast],
    tableRow ["SCA findings".toList, countText scan.sca.length],
    tableRow ["SCA unresolved".toList, countText (scan.unresolvedCount casing)],
    tableRow ["Secret findings".toList, countText scan.secrets.length],
    tableRow ["Total findings".toList, countText total], [],
    "## Findings".toList, []]

def findingsTable (title : Text) (header : List Text) (delimiter : Text) (rows : List Text) : List Text :=
  if rows = [] then [] else [title, [], tableRow header, delimiter] ++ rows ++ [[]]

def sastHeader : List Text := ["CWE".toList, "Severity".toList, "Location".toList, "Sink / Details".toList]

def scaHeader : List Text :=
  ["Package".toList, "Vulnerability".toList, "Severity".toList, "Status".toList, "Fixed Version".toList,
    "Manifest".toList]

def secretHeader : List Text :=
  ["Type".toList, "Masked Value".toList, "Location".toList, "Confidence".toList, "Detector".toList]

def sastTable (rows : List Text) : List Text :=
  findingsTable "### SAST Code Analysis".toList sastHeader "|---|---|---|---|".toList rows

def scaTable (rows : List Text) : List Text :=
  findingsTable "### SCA Dependencies".toList scaHeader "|---|---|---|---|---|---|".toList rows

def secretTable (rows : List Text) : List Text :=
  findingsTable "### Secret Scanning (CWE-798)".toList secretHeader "|---|---|---|---|---|".toList rows

def findingLines (sast sca secrets : List Text) : List Text :=
  if sast = [] ∧ sca = [] ∧ secrets = [] then
    ["*No vulnerabilities detected across active scanners.*".toList, []]
  else sastTable sast ++ scaTable sca ++ secretTable secrets

def warningLine (err : Text) : Text :=
  "- ⚠️ Skipping AST analysis for unparseable file: `".toList ++ err ++ "`".toList

def warningLines (syntaxErrors : List Text) : List Text :=
  if syntaxErrors = [] then [] else ["### Parser Warnings".toList, []] ++ syntaxErrors.map warningLine ++ [[]]

/-- `"\n".join(lines).rstrip() + "\n"`. -/
def document (lines : List Text) : Text := (List.intercalate ['\n'] lines).rdropWhile Pep440.isSpace ++ ['\n']

/-- `generate_step_summary`; none where it raises. -/
def generateStepSummary (scan : ScanResult) : Option Text := do
  let sortedSast ← sortedBy Finding.summaryKey scan.activeSast
  let sortedSca ← sortedBy ScaFinding.summaryKey scan.sca
  let sortedSec ← sortedBy SecretFinding.summaryKey scan.secrets
  let rows := findingLines (sortedSast.map fun f => tableRow (f.cells casing))
    (sortedSca.map fun f => tableRow (f.cells casing)) (sortedSec.map fun f => tableRow (f.cells casing))
  return document (summaryHead casing scan ++ rows ++ warningLines scan.syntaxErrors)

end TimeCodeSecurity.Ci
