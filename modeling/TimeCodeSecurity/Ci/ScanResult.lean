import TimeCodeSecurity.Sarif.Export
import TimeCodeSecurity.Foundations.Escapes

/-! # Scan results as the reporter reads them

The fields of the three engines' findings that `ci_reporter.py` prints or sorts by, with the `get` and `or` it
reads them through.
-/
namespace TimeCodeSecurity.Ci
open Sarif
set_option autoImplicit false

abbrev Text := List Char

/-- `str.upper` and `str.title`. -/
structure Casing where
  upper : Text → Text
  title : Text → Text

inductive Field (α : Type)
  | missing
  | null
  | value (a : α)

variable {α : Type}

/-- `d.get(key)`. -/
def Field.get : Field α → Option α
  | .value a => some a
  | .missing | .null => none

/-- `d.get(key, default)`. -/
def Field.getD : Field α → α → Option α
  | .value a, _ => some a
  | .missing, d => some d
  | .null, _ => none

/-- `d.get(key) or default`. -/
def Field.orText : Field Text → Text → Text
  | .value (c :: cs), _ => c :: cs
  | _, d => d

/-- `str(...)` of a text or of `None`. -/
def strText (s : Option Text) : Text := s.getD "None".toList

inductive Number
  | int (n : ℤ)
  | text (s : Text)

def maxStrDigits : ℕ := 4300

/-- The digits of `int(s)`, single underscores between them dropped. -/
def digitsOf (s : Text) : Option Text :=
  let groups := s.splitOn '_'
  if groups.all (fun g => !g.isEmpty && g.all isDecimal) && decide (groups.flatten.length ≤ maxStrDigits) then
    some groups.flatten
  else none

/-- `int(s)`; none where it raises `ValueError`. -/
def intOfText (s : Text) : Option ℤ :=
  match Pep440.strip s with
  | '-' :: rest => (digitsOf rest).map fun ds => -(decimalValue ds : ℤ)
  | '+' :: rest => (digitsOf rest).map fun ds => (decimalValue ds : ℤ)
  | rest => (digitsOf rest).map fun ds => (decimalValue ds : ℤ)

/-- `int(val)`. -/
def Number.toInt? : Number → Option ℤ
  | .int n => some n
  | .text s => intOfText s

/-- `bool(val)`. -/
def Number.truthy : Number → Bool
  | .int n => n != 0
  | .text s => !s.isEmpty

def decimalText : ℤ → Text
  | .ofNat n => Nat.toDigits 10 n
  | .negSucc n => '-' :: Nat.toDigits 10 (n + 1)

/-- `str(val)`. -/
def Number.str : Number → Text
  | .int n => decimalText n
  | .text s => s

def extractIntCoord (val : Option Number) : Option ℤ :=
  (val.bind Number.toInt?).filter fun n => 0 < n

/-- `_normalize_path`; a path that is missing is empty. -/
def normalizePath (path : Text) : Text :=
  match path.map fun c => if c = '\\' then '/' else c with
  | '.' :: '/' :: rest => rest
  | norm => norm

/-- `s.replace("_", " ").title()`. -/
def Casing.label (casing : Casing) (s : Text) : Text := casing.title (s.map fun c => if c = '_' then ' ' else c)

def targetDisplaySegments : ℕ := 3

def symbolNoiseTokens : List Text := ["tmp".toList, "temp".toList]

def sanitizeSymbolDisplay (symbol : Text) : Text :=
  let segments := (symbol.splitOnP fun c => c = '.' ∨ c = ':').filter fun part =>
    !part.isEmpty && !symbolNoiseTokens.contains (part.map Char.toLower)
  if segments = [] then symbol
  else List.intercalate ['.'] (segments.drop (segments.length - targetDisplaySegments))

def secretTypeLabels : List (Text × Text) :=
  [("aws_access_key".toList, "AWS Access Key".toList), ("github_token".toList, "GitHub Token".toList),
    ("slack_token".toList, "Slack Token".toList), ("stripe_key".toList, "Stripe API Key".toList),
    ("private_key".toList, "Private Key".toList),
    ("database_connection_string".toList, "Database Connection String".toList)]

structure Finding where
  cwe : Field Text
  severity : Field Text
  file : Field Text
  lineNumber : Field Number
  columnStart : Field Number
  category : Field Text
  sinkSymbol : Field Text
  flowTraceSummary : Field Text
  codeSnippet : Field Text
  suppressed : Bool

structure ScaFinding where
  packageName : Field Text
  vulnerabilityId : Field Text
  status : Field Text
  severity : Field Text
  manifestSource : Field Text
  lineNumber : Field Number
  installedVersion : Field Text
  requestedSpecifier : Field Text
  fixedVersion : Field Text
  summary : Field Text

structure SecretFinding where
  secretType : Field Text
  maskedValue : Field Text
  file : Field Text
  lineNumber : Field Number
  columnStart : Field Number
  columnEnd : Field Number
  confidence : Field Text
  detector : Field Text

/-- The lists of the last two engines are none where the key is missing. -/
structure ScanResult where
  syntaxErrors : List Text
  findings : List Finding
  scaFindings : Option (List ScaFinding)
  secretFindings : Option (List SecretFinding)

def ScanResult.activeSast (scan : ScanResult) : List Finding := scan.findings.filter fun f => !f.suppressed

def ScanResult.sca (scan : ScanResult) : List ScaFinding := scan.scaFindings.getD []

def ScanResult.secrets (scan : ScanResult) : List SecretFinding := scan.secretFindings.getD []

end TimeCodeSecurity.Ci

/-! ## Workflow commands

`format_github_annotations` writes one workflow command for each active finding. Read by the rules of GitHub, each
is one line and carries back what was written.
-/
namespace TimeCodeSecurity.Ci
open Escapes

inductive Escaped
  | percent
  | cr
  | lf
  | colon
  | comma
  deriving DecidableEq

def workflowEscapes : Table Char Escaped where
  char
    | .percent => '%'
    | .cr => '\r'
    | .lf => '\n'
    | .colon => ':'
    | .comma => ','
  tail
    | .percent => ['2', '5']
    | .cr => ['0', 'D']
    | .lf => ['0', 'A']
    | .colon => ['3', 'A']
    | .comma => ['2', 'C']
  lead := .percent
  width := 2
  char_inj := by
    intro k j
    cases k <;> cases j <;> decide
  tail_inj := by
    intro k j
    cases k <;> cases j <;> decide
  width_tail := by
    intro k
    cases k <;> rfl
  char_not_mem := by
    intro k j
    cases k <;> cases j <;> decide

def propertyEscapes : List Escaped := [.percent, .cr, .lf, .colon, .comma]

def messageEscapes : List Escaped := [.percent, .cr, .lf]

def escapePropertyValue (s : Text) : Text := workflowEscapes.encode propertyEscapes s

def escapeMessageData (s : Text) : Text := workflowEscapes.encode messageEscapes s

/-- The arguments of `format_github_annotation`; a path or a title that is missing is empty. -/
structure AnnotationArgs where
  level : Text
  message : Text
  filePath : Text
  line : Option Number
  col : Option Number
  endLine : Option Number
  endCol : Option Number
  title : Text

def commandLevels : List Text := ["error".toList, "warning".toList, "notice".toList]

local instance lawfulText : LawfulBEq Text := inferInstance

def commandLevel (level : Text) : Text :=
  let lowered := level.map Char.toLower
  if lowered ∈ commandLevels then lowered else "warning".toList

def textProp (name value : Text) : List (Text × Text) := if value = [] then [] else [(name, value)]

def coordProp (name : Text) (val : Option Number) : List (Text × Text) :=
  ((extractIntCoord val).map fun n => (name, decimalText n)).toList

def AnnotationArgs.props (a : AnnotationArgs) : List (Text × Text) :=
  textProp "file".toList (normalizePath a.filePath) ++ coordProp "line".toList a.line ++
    coordProp "col".toList a.col ++ coordProp "endLine".toList a.endLine ++
    coordProp "endColumn".toList a.endCol ++ textProp "title".toList a.title

def propText (p : Text × Text) : Text := p.1 ++ '=' :: escapePropertyValue p.2

def propStr (props : List (Text × Text)) : Text :=
  if props = [] then [] else ' ' :: List.intercalate [','] (props.map propText)

def formatGithubAnnotation (a : AnnotationArgs) : Text :=
  "::".toList ++ commandLevel a.level ++ propStr a.props ++ "::".toList ++ escapeMessageData a.message

/-! ## The findings -/

/-- File, line, column, engine and rule. -/
abbrev SortKey := Text ×ₗ ℤ ×ₗ ℤ ×ₗ ℕ ×ₗ Text

def sortKey (file : Text) (line col : Option ℤ) (engine : ℕ) (rule : Text) : SortKey :=
  toLex (file, toLex (line.getD 0, toLex (col.getD 0, toLex (engine, rule))))

def isSevere (sev : Text) : Bool := sev = "CRITICAL".toList || sev = "HIGH".toList

def severityLevel (sev : Text) : Text := if isSevere sev then "error".toList else "warning".toList

variable (casing : Casing)

def Finding.cweText (f : Finding) : Text := f.cwe.orText "CWE-UNKNOWN".toList

def Finding.sevText (f : Finding) : Text := casing.upper (f.severity.orText "HIGH".toList)

def Finding.title (f : Finding) : Text :=
  let rawCat := f.category.orText []
  let catLabel := if rawCat = [] then [] else casing.label rawCat
  if catLabel = [] then f.cweText else f.cweText ++ " (".toList ++ catLabel ++ ")".toList

def Finding.message (f : Finding) : Text :=
  let sink := f.sinkSymbol.orText []
  let sinkSym := if sink = [] then [] else sanitizeSymbolDisplay sink
  let traceSummary := f.flowTraceSummary.orText []
  let codeSnip := f.codeSnippet.orText []
  if traceSummary ≠ [] then traceSummary
  else if sinkSym ≠ [] then "Untrusted input reaches dangerous sink '".toList ++ sinkSym ++ "'".toList
  else if codeSnip ≠ [] then "Vulnerable code pattern: ".toList ++ Pep440.strip codeSnip
  else f.cweText ++ " security vulnerability detected".toList

def Finding.sortKey (f : Finding) : SortKey :=
  Ci.sortKey (normalizePath (f.file.orText [])) (extractIntCoord f.lineNumber.get)
    (extractIntCoord f.columnStart.get) 1 f.cweText

def Finding.annotationArgs (f : Finding) : AnnotationArgs where
  level := severityLevel (f.sevText casing)
  message := f.message
  filePath := f.file.orText []
  line := (extractIntCoord f.lineNumber.get).map .int
  col := (extractIntCoord f.columnStart.get).map .int
  endLine := none
  endCol := none
  title := f.title casing

def ScaFinding.package (f : ScaFinding) : Text := f.packageName.orText "unknown-package".toList

def ScaFinding.vulnId (f : ScaFinding) : Text := f.vulnerabilityId.orText "SCA-ADVISORY".toList

def ScaFinding.statusText (f : ScaFinding) : Text := casing.upper (f.status.orText "POTENTIAL".toList)

def ScaFinding.sevText (f : ScaFinding) : Text := casing.upper (f.severity.orText "UNKNOWN".toList)

def ScaFinding.isUnresolved (f : ScaFinding) : Bool := f.statusText casing = "UNRESOLVED".toList

def ScaFinding.title (f : ScaFinding) : Text :=
  if f.isUnresolved casing then
    if f.package = "unknown-package".toList then "SCA Unresolved".toList
    else "SCA Unresolved (".toList ++ f.package ++ ")".toList
  else "SCA (".toList ++ f.vulnId ++ ")".toList

def ScaFinding.message (f : ScaFinding) : Text :=
  if f.isUnresolved casing then
    f.summary.orText ("Vulnerability data could not be verified for package '".toList ++ f.package ++ "'".toList)
  else
    let verDesc := f.installedVersion.orText (f.requestedSpecifier.orText "unspecified".toList)
    let fixedVer := f.fixedVersion.orText []
    let fixedPart := if fixedVer = [] then [] else "; fixed in ".toList ++ fixedVer
    f.package ++ " ".toList ++ verDesc ++ " is affected (".toList ++ f.vulnId ++ ")".toList ++ fixedPart

def ScaFinding.sortKey (f : ScaFinding) : SortKey :=
  Ci.sortKey (normalizePath (f.manifestSource.orText [])) (extractIntCoord f.lineNumber.get) none 2 f.vulnId

def ScaFinding.annotationArgs (f : ScaFinding) : AnnotationArgs where
  level := if f.isUnresolved casing then "warning".toList else severityLevel (f.sevText casing)
  message := f.message casing
  filePath := f.manifestSource.orText []
  line := (extractIntCoord f.lineNumber.get).map .int
  col := none
  endLine := none
  endCol := none
  title := f.title casing

def SecretFinding.secType (f : SecretFinding) : Text := f.secretType.orText "secret".toList

def SecretFinding.label (f : SecretFinding) : Text :=
  (secretTypeLabels.lookup f.secType).getD (casing.label f.secType)

def SecretFinding.sortKey (f : SecretFinding) : SortKey :=
  Ci.sortKey (normalizePath (f.file.orText [])) (extractIntCoord f.lineNumber.get)
    (extractIntCoord f.columnStart.get) 3 f.secType

def SecretFinding.annotationArgs (f : SecretFinding) : AnnotationArgs where
  level := "error".toList
  message := "Hardcoded ".toList ++ f.label casing ++ " detected: ".toList ++
    f.maskedValue.orText "********".toList
  filePath := f.file.orText []
  line := (extractIntCoord f.lineNumber.get).map .int
  col := (extractIntCoord f.columnStart.get).map .int
  endLine := none
  endCol := (extractIntCoord f.columnEnd.get).map .int
  title := "CWE-798 (".toList ++ f.label casing ++ ")".toList

/-- `s.split(":", 2)[0]`, and the second part where there is one. -/
def errorParts (err : Text) : Text × Option Text :=
  match err.dropWhile (· ≠ ':') with
  | [] => (err, none)
  | _ :: rest => (err.takeWhile (· ≠ ':'), some (rest.takeWhile (· ≠ ':')))

def errorFile (err : Text) : Text := Pep440.strip (errorParts err).1

def errorLine (err : Text) : Option ℤ :=
  extractIntCoord ((errorParts err).2.map fun part => .text (Pep440.strip part))

def errorSortKey (err : Text) : SortKey :=
  sortKey (normalizePath (errorFile err)) (errorLine err) none 0 "SYNTAX_ERROR".toList

def errorAnnotationArgs (err : Text) : AnnotationArgs where
  level := "warning".toList
  message := "Skipping AST analysis for unparseable file: ".toList ++ err
  filePath := errorFile err
  line := (errorLine err).map .int
  col := none
  endLine := none
  endCol := none
  title := "Syntax Warning".toList

/-- What is to be written, with the keys it is sorted by. -/
def ScanResult.annotations (scan : ScanResult) : List (SortKey × AnnotationArgs) :=
  scan.syntaxErrors.map (fun err => (errorSortKey err, errorAnnotationArgs err)) ++
    scan.activeSast.map (fun f => (f.sortKey, f.annotationArgs casing)) ++
    scan.sca.map (fun f => (f.sortKey, f.annotationArgs casing)) ++
    scan.secrets.map (fun f => (f.sortKey, f.annotationArgs casing))

def formatGithubAnnotations (scan : ScanResult) : List Text :=
  let stagedItems := (scan.annotations casing).map fun item => (item.1, formatGithubAnnotation item.2)
  (stagedItems.insertionSort fun x y => x.1 ≤ y.1).map Prod.snd

/-! ## What GitHub reads -/

structure Command where
  level : Text
  properties : List (Text × Text)
  message : Text

def undoneEscapes : List Escaped := [.cr, .lf, .colon, .comma, .percent]

def unescape (s : Text) : Text := workflowEscapes.decode undoneEscapes s

/-- A text before and after the first `c`. -/
def cut (c : Char) (s : Text) : Option (Text × Text) :=
  match s.dropWhile (· ≠ c) with
  | [] => none
  | _ :: rest => some (s.takeWhile (· ≠ c), rest)

/-- A text before and after the first `::`. -/
def cutColons : Text → Option (Text × Text)
  | [] => none
  | c :: rest =>
    if "::".toList.isPrefixOf (c :: rest) then some ([], rest.drop 1)
    else (cutColons rest).map fun parts => (c :: parts.1, parts.2)

def readProperty (s : Text) : Option (Text × Text) := (cut '=' s).map fun parts => (parts.1, unescape parts.2)

def readProperties (s : Text) : Option (List (Text × Text)) := (s.splitOn ',').mapM readProperty

def readHead (head : Text) : Option (Text × List (Text × Text)) :=
  match cut ' ' head with
  | none => some (head, [])
  | some (level, props) => (readProperties props).map fun ps => (level, ps)

def readCommand (line : Text) : Option Command := do
  guard ("::".toList.isPrefixOf line)
  let (head, message) ← cutColons (line.drop 2)
  let (level, properties) ← readHead head
  return { level, properties, message := unescape message }

def readNumber (s : Text) : Option ℤ :=
  if s ≠ [] ∧ s.all Char.isDigit then some (Nat.ofDigitChars 10 s 0) else none

/-- An annotation as it arrives; a file or a title that is missing is empty. -/
structure Received where
  level : Text
  file : Text
  line : Option ℤ
  col : Option ℤ
  endLine : Option ℤ
  endColumn : Option ℤ
  title : Text
  message : Text
  deriving DecidableEq

def Command.text (c : Command) (name : Text) : Text := (c.properties.lookup name).getD []

def Command.number (c : Command) (name : Text) : Option ℤ := (c.properties.lookup name).bind readNumber

def Command.received (c : Command) : Received where
  level := c.level
  file := c.text "file".toList
  line := c.number "line".toList
  col := c.number "col".toList
  endLine := c.number "endLine".toList
  endColumn := c.number "endColumn".toList
  title := c.text "title".toList
  message := c.message

def receive (line : Text) : Option Received := (readCommand line).map Command.received

/-- What is to arrive. -/
def AnnotationArgs.sent (a : AnnotationArgs) : Received where
  level := commandLevel a.level
  file := normalizePath a.filePath
  line := extractIntCoord a.line
  col := extractIntCoord a.col
  endLine := extractIntCoord a.endLine
  endColumn := extractIntCoord a.endCol
  title := a.title
  message := a.message

def OneLine (s : Text) : Prop := '\r' ∉ s ∧ '\n' ∉ s

instance (s : Text) : Decidable (OneLine s) := inferInstanceAs (Decidable ('\r' ∉ s ∧ '\n' ∉ s))

theorem unescape_propertyValue (s : Text) : unescape (escapePropertyValue s) = s :=
  workflowEscapes.decode_encode (by decide) (by decide) (by decide) (by decide) (by decide) (by decide) s

theorem unescape_messageData (s : Text) : unescape (escapeMessageData s) = s :=
  workflowEscapes.decode_encode (by decide) (by decide) (by decide) (by decide) (by decide) (by decide) s

theorem char_not_mem_propertyValue {k : Escaped} (hk : k ≠ .percent) (s : Text) :
    workflowEscapes.char k ∉ escapePropertyValue s := by
  have hmem : k ∈ propertyEscapes := by cases k <;> decide
  exact workflowEscapes.char_not_mem_encode (by decide) (by decide) hmem hk s

theorem oneLine_messageData (s : Text) : OneLine (escapeMessageData s) :=
  ⟨workflowEscapes.char_not_mem_encode (by decide) (by decide) (k := .cr) (by decide) (by decide) s,
    workflowEscapes.char_not_mem_encode (by decide) (by decide) (k := .lf) (by decide) (by decide) s⟩

theorem cut_append {c : Char} {before : Text} (h : c ∉ before) (rest : Text) :
    cut c (before ++ c :: rest) = some (before, rest) := by
  have hall : ∀ d ∈ before, decide (d ≠ c) = true := by
    intro d hd
    simpa using fun heq : d = c => h (heq ▸ hd)
  rw [cut, List.dropWhile_append_of_pos hall, List.takeWhile_append_of_pos hall]
  simp

theorem cut_of_not_mem {c : Char} {s : Text} (h : c ∉ s) : cut c s = none := by
  have hall : ∀ d ∈ s, decide (d ≠ c) = true := by
    intro d hd
    simpa using fun heq : d = c => h (heq ▸ hd)
  rw [cut, List.dropWhile_eq_nil_iff.mpr hall]

theorem cutColons_append {before : Text} (h : ':' ∉ before) (rest : Text) :
    cutColons (before ++ ':' :: ':' :: rest) = some (before, rest) := by
  induction before with
  | nil => rfl
  | cons c before ih =>
    rw [List.mem_cons, not_or] at h
    have hstart : ¬ "::".toList.isPrefixOf (c :: (before ++ ':' :: ':' :: rest)) = true := by
      rw [List.isPrefixOf_iff_prefix]
      exact fun hp => h.1 (List.cons_prefix_cons.mp hp).1
    rw [List.cons_append, cutColons, if_neg hstart, ih h.2]
    rfl

def propNames : List Text :=
  ["file".toList, "line".toList, "col".toList, "endLine".toList, "endColumn".toList, "title".toList]

theorem name_of_textProp {name value : Text} {p : Text × Text} (h : p ∈ textProp name value) : p.1 = name := by
  rw [textProp] at h
  split at h
  · cases h
  · rw [List.mem_singleton.mp h]

theorem name_of_coordProp {name : Text} {val : Option Number} {p : Text × Text} (h : p ∈ coordProp name val) :
    p.1 = name := by
  rw [coordProp, Option.mem_toList, Option.map_eq_some_iff] at h
  obtain ⟨n, -, rfl⟩ := h
  rfl

theorem AnnotationArgs.name_of_props {a : AnnotationArgs} {p : Text × Text} (h : p ∈ a.props) :
    p.1 ∈ propNames := by
  simp only [AnnotationArgs.props, List.mem_append] at h
  rcases h with ((((h | h) | h) | h) | h) | h
  · simp [propNames, name_of_textProp h]
  · simp [propNames, name_of_coordProp h]
  · simp [propNames, name_of_coordProp h]
  · simp [propNames, name_of_coordProp h]
  · simp [propNames, name_of_coordProp h]
  · simp [propNames, name_of_textProp h]

theorem plain_of_propNames : ∀ name ∈ propNames, ∀ c ∈ name, c ∉ ['=', ',', ':', '\r', '\n'] := by simp [propNames]

theorem plain_of_commandLevels : ∀ level ∈ commandLevels, ∀ c ∈ level, c ∉ [' ', ':', '\r', '\n'] := by
  simp [commandLevels]

theorem commandLevel_mem (level : Text) : commandLevel level ∈ commandLevels := by
  rw [commandLevel]
  split
  next h => exact h
  next => decide

theorem propText_free {k : Escaped} (hk : k ≠ .percent) {p : Text × Text} (hp : p.1 ∈ propNames) :
    workflowEscapes.char k ∉ propText p := by
  rw [propText, List.mem_append, List.mem_cons, not_or, not_or]
  refine ⟨fun hmem => plain_of_propNames p.1 hp _ hmem ?_, ?_, char_not_mem_propertyValue hk p.2⟩
  · cases k <;> first | exact absurd rfl hk | decide
  · cases k <;> decide

theorem readProperty_propText {p : Text × Text} (hp : p.1 ∈ propNames) : readProperty (propText p) = some p := by
  have hequals : '=' ∉ p.1 := fun hmem => plain_of_propNames p.1 hp _ hmem (by decide)
  rw [readProperty, propText, cut_append hequals, Option.map_some, unescape_propertyValue]

theorem mapM_readProperty {props : List (Text × Text)} (h : ∀ p ∈ props, p.1 ∈ propNames) :
    (props.map propText).mapM readProperty = some props := by
  induction props with
  | nil => rfl
  | cons p props ih =>
    rw [List.forall_mem_cons] at h
    rw [List.map_cons, List.mapM_cons, readProperty_propText h.1, ih h.2]
    rfl

theorem readProperties_intercalate {props : List (Text × Text)} (hne : props ≠ [])
    (h : ∀ p ∈ props, p.1 ∈ propNames) :
    readProperties (List.intercalate [','] (props.map propText)) = some props := by
  have hcomma : ∀ t ∈ props.map propText, ',' ∉ t := by
    intro t ht
    obtain ⟨p, hp, rfl⟩ := List.mem_map.mp ht
    exact propText_free (k := .comma) (by decide) (h p hp)
  have hsplit := List.splitOn_intercalate ',' hcomma (by simpa using hne)
  rw [readProperties, hsplit, mapM_readProperty h]

theorem not_mem_intercalate {c d : Char} (hcd : c ≠ d) {ts : List Text} (h : ∀ t ∈ ts, c ∉ t) :
    c ∉ List.intercalate [d] ts := by
  induction ts with
  | nil => exact List.not_mem_nil
  | cons t ts ih =>
    rw [List.forall_mem_cons] at h
    cases ts with
    | nil =>
      rw [List.intercalate_singleton]
      exact h.1
    | cons u ts =>
      rw [List.intercalate_cons_cons, List.mem_append, List.mem_append, List.mem_singleton, not_or, not_or]
      exact ⟨⟨h.1, hcd⟩, ih h.2⟩

theorem propStr_free {k : Escaped} (hk : k ≠ .percent) (hcomma : k ≠ .comma) {props : List (Text × Text)}
    (h : ∀ p ∈ props, p.1 ∈ propNames) : workflowEscapes.char k ∉ propStr props := by
  rw [propStr]
  split
  · exact List.not_mem_nil
  · have hspace : workflowEscapes.char k ≠ ' ' := by cases k <;> decide
    have hne : workflowEscapes.char k ≠ workflowEscapes.char .comma := fun heq =>
      hcomma (workflowEscapes.char_inj heq)
    rw [List.mem_cons, not_or]
    refine ⟨hspace, not_mem_intercalate hne fun t ht => ?_⟩
    obtain ⟨p, hp, rfl⟩ := List.mem_map.mp ht
    exact propText_free hk (h p hp)

theorem head_free {k : Escaped} (hk : k ≠ .percent) (hcomma : k ≠ .comma) (a : AnnotationArgs) :
    workflowEscapes.char k ∉ commandLevel a.level ++ propStr a.props := by
  rw [List.mem_append, not_or]
  refine ⟨fun hmem => plain_of_commandLevels _ (commandLevel_mem a.level) _ hmem ?_,
    propStr_free hk hcomma fun _ => AnnotationArgs.name_of_props⟩
  cases k <;> first | exact absurd rfl hk | exact absurd rfl hcomma | decide

theorem readHead_format (a : AnnotationArgs) :
    readHead (commandLevel a.level ++ propStr a.props) = some (commandLevel a.level, a.props) := by
  have hspace : ' ' ∉ commandLevel a.level := fun hmem =>
    plain_of_commandLevels _ (commandLevel_mem a.level) _ hmem (by decide)
  by_cases hnil : a.props = []
  · rw [propStr, if_pos hnil, List.append_nil, readHead, cut_of_not_mem hspace, hnil]
  · have hread := readProperties_intercalate hnil fun _ => AnnotationArgs.name_of_props
    rw [propStr, if_neg hnil, readHead, cut_append hspace]
    simp only [hread, Option.map_some]

theorem formatGithubAnnotation_eq (a : AnnotationArgs) : formatGithubAnnotation a =
    ':' :: ':' :: ((commandLevel a.level ++ propStr a.props) ++ ':' :: ':' :: escapeMessageData a.message) := by
  simp only [ formatGithubAnnotation, List.append_assoc]
  rfl

theorem readCommand_format (a : AnnotationArgs) : readCommand ( formatGithubAnnotation a) =
    some { level := commandLevel a.level, properties := a.props, message := a.message } := by
  have hcolon : ':' ∉ commandLevel a.level ++ propStr a.props := head_free (k := .colon) (by decide) (by decide) a
  rw [formatGithubAnnotation_eq, readCommand]
  have hcut : cutColons ((':' :: ':' :: ((commandLevel a.level ++ propStr a.props) ++
        ':' :: ':' :: escapeMessageData a.message)).drop 2) =
      some (commandLevel a.level ++ propStr a.props, escapeMessageData a.message) := cutColons_append hcolon _
  rw [hcut]
  simp [readHead_format, unescape_messageData, List.isPrefixOf]

theorem oneLine_format (a : AnnotationArgs) : OneLine ( formatGithubAnnotation a) := by
  have hmessage := oneLine_messageData a.message
  rw [formatGithubAnnotation_eq, OneLine]
  simp only [List.mem_cons, List.mem_append (s := commandLevel a.level ++ propStr a.props), not_or]
  exact ⟨⟨by decide, by decide, head_free (k := .cr) (by decide) (by decide) a, by decide, by decide, hmessage.1⟩,
    by decide, by decide, head_free (k := .lf) (by decide) (by decide) a, by decide, by decide, hmessage.2⟩

theorem readNumber_decimalText {n : ℤ} (hn : 0 < n) : readNumber (decimalText n) = some n := by
  obtain ⟨m, rfl⟩ := Int.eq_ofNat_of_zero_le (le_of_lt hn)
  have hdigits : ((Nat.toDigits 10 m).all Char.isDigit) = true :=
    List.all_eq_true.mpr fun c hc => Nat.isDigit_of_mem_toDigits (by omega) (by omega) hc
  rw [readNumber, show decimalText (m : ℤ) = Nat.toDigits 10 m from rfl,
    if_pos ⟨Nat.toDigits_ne_nil, hdigits⟩, Nat.ofDigitChars_ten_toDigits]

theorem extractIntCoord_pos {val : Option Number} {n : ℤ} (h : extractIntCoord val = some n) : 0 < n := by
  rw [extractIntCoord, Option.filter_eq_some_iff] at h
  simpa using h.2

theorem lookup_textProp (name value key : Text) :
    (textProp name value).lookup key = if key = name ∧ value ≠ [] then some value else none := by
  rw [textProp]
  by_cases hvalue : value = []
  · simp [hvalue]
  · simp [hvalue]

theorem lookup_coordProp (name key : Text) (val : Option Number) :
    (coordProp name val).lookup key = if key = name then (extractIntCoord val).map decimalText else none := by
  rw [coordProp]
  cases extractIntCoord val with
  | none => simp
  | some n => simp

theorem bind_readNumber (val : Option Number) :
    ((extractIntCoord val).map decimalText).bind readNumber = extractIntCoord val := by
  cases h : extractIntCoord val with
  | none => rfl
  | some n => exact readNumber_decimalText (extractIntCoord_pos h)

theorem getD_text (value : Text) : (if value = [] then none else some value).getD [] = value := by
  by_cases h : value = []
  · rw [if_pos h, Option.getD_none, h]
  · rw [if_neg h, Option.getD_some]

theorem received_props (a : AnnotationArgs) :
    ({ level := commandLevel a.level, properties := a.props, message := a.message } : Command).received = a.sent := by
  simp only [Command.received, Command.text, Command.number, AnnotationArgs.props, List.lookup_append,
    lookup_textProp, lookup_coordProp]
  simp [AnnotationArgs.sent, bind_readNumber, getD_text]

theorem receive_format (a : AnnotationArgs) : receive ( formatGithubAnnotation a) = some a.sent := by
  rw [receive, readCommand_format, Option.map_some, received_props]

/-- Each active finding gives one command, which is one line and arrives as what was to be written. -/
theorem annotations_arrive (casing : Casing) (scan : ScanResult) :
    (∀ line ∈ formatGithubAnnotations casing scan, OneLine line) ∧
      ∃ written : List AnnotationArgs, written.Perm ((scan.annotations casing).map Prod.snd) ∧
        (formatGithubAnnotations casing scan).map receive = written.map fun a => some a.sent := by
  have hsort : formatGithubAnnotations casing scan =
      ((scan.annotations casing).insertionSort fun x y => x.1 ≤ y.1).map fun item =>
        formatGithubAnnotation item.2 := by
    have hmap := List.map_insertionSort (fun x y : SortKey × AnnotationArgs => x.1 ≤ y.1)
      (fun x y : SortKey × Text => x.1 ≤ y.1) (fun item => (item.1, formatGithubAnnotation item.2))
      (scan.annotations casing) fun _ _ _ _ => Iff.rfl
    rw [formatGithubAnnotations, ← hmap, List.map_map]
    rfl
  have hperm := List.perm_insertionSort (fun x y : SortKey × AnnotationArgs => x.1 ≤ y.1) (scan.annotations casing)
  rw [hsort]
  constructor
  · intro line hline
    obtain ⟨item, -, rfl⟩ := List.mem_map.mp hline
    exact oneLine_format item.2
  · refine ⟨_, hperm.map Prod.snd, ?_⟩
    rw [List.map_map, List.map_map]
    exact List.map_congr_left fun item _ => receive_format item.2

end TimeCodeSecurity.Ci
