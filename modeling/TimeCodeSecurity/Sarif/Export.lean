import TimeCodeSecurity.Foundations.IndexedRows
import TimeCodeSecurity.Foundations.Pep440
import TimeCodeSecurity.Sarif.Document

/-! # The export of a scan

`to_sarif`: one result for each finding of the three engines, each with the position of its rule in the list
of the driver, which grows while the results are made.
-/
namespace TimeCodeSecurity.Sarif
open Json Tables
set_option autoImplicit false

def stripText (s : String) : String := String.ofList (Pep440.strip s.toList)

def upper (s : String) : String := String.ofList (s.toList.map Char.toUpper)

/-- `s.replace(old, new)` for single characters. -/
def replaceChar (old new : Char) (s : String) : String :=
  String.ofList (s.toList.map fun c => if c = old then new else c)

/-- `s.split("-")[-1]`. -/
def afterLastDash (s : String) : String :=
  String.ofList (s.toList.reverse.takeWhile (· ≠ '-')).reverse

def titleChars : Bool → List Char → List Char
  | _, [] => []
  | inWord, c :: cs => (if inWord then c.toLower else c.toUpper) :: titleChars c.isAlpha cs

/-- `s.title()`. -/
def title (s : String) : String := String.ofList (titleChars false s.toList)

/-- `a or b` on texts. -/
def orText (a b : String) : String := if a = "" then b else a

/-- `sub in s`. -/
def containsText (sub s : String) : Bool := s.toList.tails.any (sub.toList.isPrefixOf ·)

def textField (text : String) : Json := .obj [("text", .str text)]

structure DriverRule where
  id : String
  fields : JsonFields

def DriverRule.toJson (r : DriverRule) : Json := .obj (("id", .str r.id) :: r.fields)

structure SecurityRule where
  cweId : String
  name : String
  category : String
  confirmedSeverity : String
  potentialSeverity : String
  remediation : String
  sarifMetadata : Option DriverRule

def SecurityRule.getSeverity (r : SecurityRule) (confidenceLabel : String) : String :=
  if confidenceLabel = "CONFIRMED" then r.confirmedSeverity else r.potentialSeverity

abbrev RuleRegistry := List (String × SecurityRule)

/-- An entry of `rules_catalog.json`; one that is no object stops the reading. -/
structure CatalogueEntry where
  cid : String
  isObject : Bool
  name : Option String
  description : Option String
  severity : Option String

def helpUri (num : String) : String := "https://cwe.mitre.org/data/definitions/" ++ num ++ ".html"

def cweTags (num : String) : Json :=
  .obj [("tags", .arr [.str "security", .str ("external/cwe/cwe-" ++ lower num)])]

def catalogueRule (e : CatalogueEntry) : DriverRule :=
  let num := afterLastDash e.cid
  let name := e.name.getD e.cid
  let level := if upper (e.severity.getD "None") ∈ ["CRITICAL", "HIGH"] then "error" else "warning"
  { id := e.cid
    fields := [("name", .str (replaceChar ' ' '_' name)), ("shortDescription", textField name),
      ("fullDescription", textField (e.description.getD e.cid)), ("helpUri", .str (helpUri num)),
      ("defaultConfiguration", .obj [("level", .str level)]), ("properties", cweTags num)] }

def addCatalogue (rules : List (String × DriverRule)) : List CatalogueEntry → List (String × DriverRule)
  | [] => rules
  | e :: es =>
    if e.cid ∈ rules.map Prod.fst then addCatalogue rules es
    else if !e.isObject then rules
    else addCatalogue (setItem rules e.cid (catalogueRule e)) es

def getSupportedRules (registry : RuleRegistry) (catalogue : List CatalogueEntry)
    (enabledRuleIds : Option (List String)) : List DriverRule :=
  let metadata := registry.filterMap fun r => r.2.sarifMetadata
  let rules := addCatalogue (setItems [] (metadata.map fun m => (m.id, m))) catalogue
  match enabledRuleIds with
  | none | some [] => rules.map Prod.snd
  | some ids => (rules.map Prod.snd).filter fun r => ids.contains r.id

/-- The rules of the driver so far and the positions by id. -/
structure RuleTable where
  rules : List DriverRule
  index : List (String × ℕ)

def RuleTable.append (t : RuleTable) (rule : DriverRule) : RuleTable :=
  { rules := t.rules ++ [rule], index := setItem t.index rule.id t.rules.length }

def RuleTable.known (t : RuleTable) (id : String) : Bool := (t.index.lookup id).isSome

/-- `result["ruleIndex"] = rule_idx`, unless there is none. -/
def RuleTable.indexField (t : RuleTable) (id : String) : JsonFields :=
  optField "ruleIndex" ((t.index.lookup id).map fun i => .int i)

def cweCanonicalRollup : List (String × String) :=
  [("CWE-489", "CWE-668"), ("CWE-918", "CWE-20"), ("CWE-79", "CWE-96"), ("CWE-1336", "CWE-116"),
    ("CWE-605", "CWE-200")]

def resolveCanonicalCwe (rawCwe : String) : String := (cweCanonicalRollup.lookup rawCwe).getD rawCwe

def levelMap : List (String × String) :=
  [("CRITICAL", "error"), ("HIGH", "error"), ("MEDIUM", "warning"), ("LOW", "note"), ("UNKNOWN", "note")]

structure ProofNode where
  nodeType : String
  filePath : String
  startLine : Option ℤ
  endLine : Option ℤ
  symbol : String
  expressionSnippet : String
  scopeId : String

/-- A finding; a text that is missing is empty. -/
structure Finding where
  cwe : Option String
  severity : String
  confidenceLabel : Option String
  file : String
  lineNumber : Option ℤ
  codeSnippet : String
  sinkSymbol : String
  category : String
  remediation : String
  proofNodes : List ProofNode
  flowTrace : List String
  flowTraceSummary : String
  discoveryMode : String
  suppressed : Bool
  suppressionKind : String
  suppressionJustification : Option String
  confidence : Json

def Finding.rawCwe (f : Finding) : String := f.cwe.getD "UNKNOWN_CWE"

def Finding.ruleId (f : Finding) : String := resolveCanonicalCwe f.rawCwe

def fallbackRule (rule : Option SecurityRule) (cwe : String) : DriverRule :=
  let cweNum := afterLastDash cwe
  { id := cwe
    fields := [("name", .str ((rule.map (·.name)).getD (replaceChar '-' '_' cwe))),
      ("shortDescription", textField ((rule.map (·.name)).getD ("Security rule " ++ cwe))),
      ("fullDescription", textField
        ((rule.map (·.remediation)).getD ("Security vulnerability rule for " ++ cwe))),
      ("helpUri", .str (helpUri cweNum)), ("defaultConfiguration", .obj [("level", .str "error")]),
      ("properties", cweTags cweNum)] }

def physicalLocationOf (uri : String) (region : Option JsonFields) : Json :=
  .obj (("artifactLocation", .obj [("uri", .str uri), ("uriBaseId", .str "%SRCROOT%")]) ::
    optField "region" (region.map .obj))

def snippetField (snippet : String) : JsonFields :=
  if snippet = "" then [] else [("snippet", textField snippet)]

/-- `max(1, int(line or 1))`. -/
def lineOf (line : Option ℤ) : ℤ := max 1 (line.getD 1)

def structuralCwes : List String :=
  ["CWE-1004", "CWE-209", "CWE-295", "CWE-326", "CWE-327", "CWE-338", "CWE-377", "CWE-732", "CWE-798"]

def Finding.isStructural (f : Finding) : Bool :=
  (f.proofNodes.isEmpty && f.flowTrace.isEmpty) || structuralCwes.contains f.ruleId ||
    containsText "STRUCTURAL" f.discoveryMode

def Finding.messageText (rule : Option SecurityRule) (f : Finding) : String :=
  let category := replaceChar '_' ' ' (orText f.category ((rule.map (·.category)).getD "Vulnerability"))
  let remediation := orText f.remediation ((rule.map (·.remediation)).getD "")
  let sink := orText f.sinkSymbol "sink"
  if f.isStructural then
    stripText (f.ruleId ++ " (" ++ category ++
      "): Security rule violation detected at dangerous sink or construct '" ++ sink ++ "'. " ++ remediation)
  else
    stripText (f.ruleId ++ " (" ++ category ++ "): Tainted data flow reaching dangerous sink '" ++ sink ++
      "'. " ++ remediation)

def Finding.level (rule : Option SecurityRule) (f : Finding) : String :=
  let fromRule := (rule.map (·.getSeverity (f.confidenceLabel.getD "CONFIRMED"))).getD "HIGH"
  (levelMap.lookup (upper (orText f.severity fromRule))).getD "error"

def Finding.uri (f : Finding) : String := replaceChar '\\' '/' (orText f.file "app.py")

/-! ### Flows -/

def flowLocation (text uri : String) (region : JsonFields) (i n : ℕ) : Json :=
  .obj [("location", .obj [("message", textField text),
      ("physicalLocation", physicalLocationOf uri (some region))]),
    ("importance", .str (if i = 0 ∨ i + 1 = n then "essential" else "important")),
    ("executionOrder", .int (i + 1))]

def nodeLocation (fileUri : String) (line : ℤ) (n i : ℕ) (node : ProofNode) : Json :=
  let startLine := max 1 (node.startLine.getD line)
  let endLine := max startLine (node.endLine.getD startLine)
  let text := "[" ++ toString i ++ ". " ++ node.nodeType ++ "] " ++ node.symbol ++
    (if node.scopeId = "" then "" else " in " ++ node.scopeId)
  flowLocation text (replaceChar '\\' '/' (orText node.filePath fileUri))
    ([("startLine", .int startLine), ("endLine", .int endLine), ("startColumn", .int 1)] ++
      snippetField node.expressionSnippet) i n

/-- The zeros of Unicode's decimal digits, which `\d` and `int` know; nine digits follow each. -/
def decimalZeros : List ℕ :=
  [0x30, 0x660, 0x6F0, 0x7C0, 0x966, 0x9E6, 0xA66, 0xAE6, 0xB66, 0xBE6, 0xC66, 0xCE6, 0xD66, 0xDE6, 0xE50, 0xED0,
   0xF20, 0x1040, 0x1090, 0x17E0, 0x1810, 0x1946, 0x19D0, 0x1A80, 0x1A90, 0x1B50, 0x1BB0, 0x1C40, 0x1C50, 0xA620,
   0xA8D0, 0xA900, 0xA9D0, 0xA9F0, 0xAA50, 0xABF0, 0xFF10, 0x104A0, 0x10D30, 0x11066, 0x110F0, 0x11136, 0x111D0,
   0x112F0, 0x11450, 0x114D0, 0x11650, 0x116C0, 0x11730, 0x118E0, 0x11950, 0x11C50, 0x11D50, 0x11DA0, 0x16A60,
   0x16AC0, 0x16B50, 0x1D7CE, 0x1D7D8, 0x1D7E2, 0x1D7EC, 0x1D7F6, 0x1E140, 0x1E2F0, 0x1E950, 0x1FBF0]

def decimalDigit? (c : Char) : Option ℕ :=
  (decimalZeros.find? fun z => z ≤ c.toNat && c.toNat < z + 10).map (c.toNat - ·)

def isDecimal (c : Char) : Bool := (decimalDigit? c).isSome

/-- `int(digits)`. -/
def decimalValue (digits : List Char) : ℕ := digits.foldl (fun n c => 10 * n + (decimalDigit? c).getD 0) 0

/-- What stands after an opening bracket, as `file:line)` to the end. -/
def stepLocation? (cs : List Char) : Option (List Char × List Char) :=
  let file := cs.takeWhile (· ≠ ':')
  match cs.drop file.length with
  | ':' :: rest =>
    let digits := rest.takeWhile isDecimal
    if file ≠ [] ∧ digits ≠ [] ∧ rest.drop digits.length = [')'] then some (file, digits) else none
  | _ => none

/-- The first match of `\(([^:]+):(\d+)\)$`. -/
def searchStep : List Char → Option (List Char × List Char)
  | [] => none
  | c :: cs =>
    match if c = '(' then stepLocation? cs else none with
    | some found => some found
    | none => searchStep cs

def parseStepLocation (step defaultFile : String) (defaultLine : ℤ) : String × ℤ :=
  match searchStep (Pep440.strip step.toList) with
  | some (file, digits) =>
    (stripText (String.ofList file), Int.ofNat (decimalValue digits))
  | none => (defaultFile, defaultLine)

def stepLocation (fileUri : String) (line : ℤ) (n i : ℕ) (step : String) : Json :=
  let place := parseStepLocation step fileUri line
  flowLocation step (replaceChar '\\' '/' place.1)
    [("startLine", .int (max 1 place.2)), ("startColumn", .int 1)] i n

def Finding.flowLocations (f : Finding) : List Json :=
  let line := lineOf f.lineNumber
  if f.proofNodes ≠ [] then
    f.proofNodes.mapIdx (nodeLocation f.uri line f.proofNodes.length)
  else f.flowTrace.mapIdx (stepLocation f.uri line f.flowTrace.length)

def Finding.codeFlows (f : Finding) : JsonFields :=
  if f.flowLocations = [] then []
  else [("codeFlows", .arr [.obj [
    ("message", textField (orText f.flowTraceSummary ("Data-flow trace from source to sink for " ++ f.ruleId))),
    ("threadFlows", .arr [.obj [("locations", .arr f.flowLocations)]])]])]

def Finding.suppressions (f : Finding) : JsonFields :=
  if !f.suppressed then []
  else [("suppressions", .arr [.obj ([("kind", .str (orText f.suppressionKind "inSource")),
    ("status", .str "accepted")] ++ optField "justification" (f.suppressionJustification.map .str))])]

def Finding.properties (f : Finding) : Json :=
  .obj ([("confidence", f.confidence), ("confidenceLabel", .str (f.confidenceLabel.getD "CONFIRMED")),
    ("category", .str f.category), ("sinkSymbol", .str (orText f.sinkSymbol "sink")),
    ("flowTraceSummary", .str f.flowTraceSummary)] ++
      if f.rawCwe = f.ruleId then [] else [("specific_cwe", .str f.rawCwe)])

def Finding.region (f : Finding) : JsonFields :=
  [("startLine", .int (lineOf f.lineNumber)), ("startColumn", .int 1)] ++ snippetField f.codeSnippet

def oneLocation (physical : Json) : Json := .arr [.obj [("physicalLocation", physical)]]

def resultHead (ruleId level message : String) (physical : Json) : JsonFields :=
  [("ruleId", .str ruleId), ("level", .str level), ("message", textField message),
    ("locations", oneLocation physical)]

def sastResult (t : RuleTable) (rule : Option SecurityRule) (f : Finding) : Json :=
  .obj (resultHead f.ruleId (f.level rule) (f.messageText rule) (physicalLocationOf f.uri (some f.region)) ++
    (t.indexField f.ruleId ++ (f.codeFlows ++ (f.suppressions ++ [("properties", f.properties)]))))

/-- The loop over `findings`. -/
def sastLoop (registry : RuleRegistry) : List Finding → RuleTable → List Json → RuleTable × List Json
  | [], t, results => (t, results)
  | f :: fs, t, results =>
    let rule := registry.lookup f.ruleId
    let t := if t.known f.ruleId then t else t.append (fallbackRule rule f.ruleId)
    sastLoop registry fs t (results ++ [sastResult t rule f])

/-! ## Advisories -/

structure ScaFinding where
  vulnerabilityId : String
  packageName : String
  severity : String
  status : String
  summary : String
  aliases : List String
  installedVersion : Option String
  requestedSpecifier : Option String
  fixedVersion : Option String
  manifestSource : String
  lineNumber : Option ℤ
  confidence : Json
  matchedRange : String
  cvssScore : Json

def ScaFinding.ruleId (f : ScaFinding) : String := orText f.vulnerabilityId "UNKNOWN"
def ScaFinding.package (f : ScaFinding) : String := orText f.packageName "package"
def ScaFinding.statusText (f : ScaFinding) : String := orText f.status "POTENTIAL"

def ScaFinding.level (f : ScaFinding) : String :=
  let level := (levelMap.lookup (upper (orText f.severity "UNKNOWN"))).getD "note"
  if f.statusText = "UNRESOLVED" ∧ level = "note" then "warning" else level

def advisoryRule (f : ScaFinding) : DriverRule :=
  let description := orText f.summary ("Vulnerability " ++ f.ruleId ++ " affecting " ++ f.package)
  { id := f.ruleId
    fields := [("name", .str f.ruleId),
      ("shortDescription", textField ("Dependency advisory " ++ f.ruleId ++ " for " ++ f.package)),
      ("fullDescription", textField description), ("defaultConfiguration", .obj [("level", .str f.level)]),
      ("properties", .obj [("tags", .arr [.str "security", .str "sca", .str "dependency"]),
        ("package", .str f.package), ("aliases", .arr (f.aliases.map .str))])] }

def scaRulesToAdd (t : RuleTable) : List ScaFinding → List (String × DriverRule) → List (String × DriverRule)
  | [], toAdd => toAdd
  | f :: fs, toAdd =>
    if !t.known f.ruleId ∧ f.ruleId ∉ toAdd.map Prod.fst then
      scaRulesToAdd t fs (setItem toAdd f.ruleId (advisoryRule f))
    else scaRulesToAdd t fs toAdd

def sortedRules (toAdd : List (String × DriverRule)) : List DriverRule :=
  ((toAdd.map Prod.fst).insertionSort (· ≤ ·)).filterMap fun id => List.lookup id toAdd

def ScaFinding.messageText (f : ScaFinding) : String :=
  let version := orText (f.installedVersion.getD "") (orText (f.requestedSpecifier.getD "") "unspecified")
  let fixed := f.fixedVersion.getD ""
  let fixedText := if fixed = "" then "" else " Fixed version: " ++ fixed ++ "."
  if f.statusText = "UNRESOLVED" then
    "[UNRESOLVED] Vulnerability status for " ++ f.package ++ " (" ++ version ++ ") against " ++ f.ruleId ++
      " could not be determined: " ++ f.summary
  else
    stripText ("[" ++ f.statusText ++ "] Dependency '" ++ f.package ++ "' (" ++ version ++
      ") is affected by " ++ f.ruleId ++ "." ++ fixedText ++ " " ++ f.summary)

def ScaFinding.uri (f : ScaFinding) : String :=
  replaceChar '\\' '/' (orText f.manifestSource "requirements.txt")

def ScaFinding.region (f : ScaFinding) : Option JsonFields :=
  match f.lineNumber with
  | some line => if 0 < line then some [("startLine", .int line), ("startColumn", .int 1)] else none
  | none => none

def optText (s : Option String) : Json := (s.map Json.str).getD .null

def ScaFinding.properties (f : ScaFinding) : Json :=
  .obj [("sca", .bool true), ("packageName", .str f.package), ("installedVersion", optText f.installedVersion),
    ("requestedSpecifier", optText f.requestedSpecifier), ("fixedVersion", optText f.fixedVersion),
    ("status", .str f.statusText), ("confidence", f.confidence), ("matchedRange", .str f.matchedRange),
    ("cvssScore", f.cvssScore)]

def scaResult (t : RuleTable) (f : ScaFinding) : Json :=
  .obj (resultHead f.ruleId f.level f.messageText (physicalLocationOf f.uri f.region) ++
    (t.indexField f.ruleId ++ [("properties", f.properties)]))

structure SecretFinding where
  secretType : String
  maskedValue : String
  file : String
  lineNumber : ℤ
  columnStart : ℤ
  columnEnd : ℤ
  detector : String
  confidence : String
  context : String

def secretTypeLabels : List (String × String) :=
  [("aws_access_key", "AWS Access Key"), ("github_token", "GitHub Token"), ("slack_token", "Slack Token"),
    ("stripe_key", "Stripe API Key"), ("private_key", "Private Key"),
    ("database_connection_string", "Database Connection String")]

def cwe798Rule : DriverRule :=
  { id := "CWE-798"
    fields := [("name", .str "HardcodedCredentials"),
      ("shortDescription", textField "Use of Hard-coded Credentials"),
      ("fullDescription", textField
        "The software contains hard-coded credentials, such as a password, token, or cryptographic key, which can be extracted and used to gain unauthorized access."),
      ("defaultConfiguration", .obj [("level", .str "error")]),
      ("properties", .obj [("tags", .arr [.str "security", .str "credentials", .str "cwe-798"])])] }

def SecretFinding.messageText (f : SecretFinding) : String :=
  "Hardcoded " ++ (secretTypeLabels.lookup f.secretType).getD (title (replaceChar '_' ' ' f.secretType)) ++
    " detected: " ++ f.maskedValue

def SecretFinding.uri (f : SecretFinding) : String := replaceChar '\\' '/' (orText f.file "unknown")

/-- `int(x or 1)`. -/
def orOne (n : ℤ) : ℤ := if n = 0 then 1 else n

def SecretFinding.region (f : SecretFinding) : JsonFields :=
  [("startLine", .int (orOne f.lineNumber)), ("startColumn", .int (orOne f.columnStart)),
    ("endColumn", .int (orOne f.columnEnd))] ++ snippetField f.context

def secretResult (t : RuleTable) (f : SecretFinding) : Json :=
  .obj (resultHead "CWE-798" "error" f.messageText (physicalLocationOf f.uri (some f.region)) ++
    (t.indexField "CWE-798" ++ [("properties", .obj [("secret_type", .str f.secretType),
      ("detector", .str f.detector), ("confidence", .str f.confidence)])]))

structure ScanResult where
  enabledRules : Option (List String)
  findings : List Finding
  scaFindings : List ScaFinding
  secretFindings : List SecretFinding
  syntaxErrors : List String
  skippedFiles : List String

/-- What the export is run with. -/
structure Setup where
  registry : RuleRegistry
  catalogue : List CatalogueEntry
  enabledRuleIds : Option (List String)

def initialTable (s : Setup) (scan : ScanResult) : RuleTable :=
  let rules := getSupportedRules s.registry s.catalogue (s.enabledRuleIds.or scan.enabledRules)
  { rules, index := enumerated DriverRule.id rules }

def withAdvisories (t : RuleTable) (findings : List ScaFinding) : RuleTable :=
  (sortedRules (scaRulesToAdd t findings [])).foldl RuleTable.append t

def withSecretRule (t : RuleTable) (findings : List SecretFinding) : RuleTable :=
  if !findings.isEmpty && !t.known "CWE-798" then t.append cwe798Rule else t

/-- The rules of the driver and all results. -/
def exported (s : Setup) (scan : ScanResult) : RuleTable × List Json :=
  let sast := sastLoop s.registry scan.findings (initialTable s scan) []
  let t := withAdvisories sast.1 scan.scaFindings
  let t' := withSecretRule t scan.secretFindings
  (t', sast.2 ++ (scan.scaFindings.map (scaResult t) ++ scan.secretFindings.map (secretResult t')))

def warning (text : String) : Json := .obj [("message", textField text), ("level", .str "warning")]

def notifications (scan : ScanResult) : List Json :=
  scan.syntaxErrors.map (fun err => warning ("Skipping AST analysis for unparseable file: " ++ err)) ++
    scan.skippedFiles.map fun skip => warning ("Resource limit warning: " ++ skip)

def toolField (rules : List DriverRule) : JsonFields :=
  [("tool", .obj [("driver", .obj [("name", .str "TimeCodeSecurity"), ("version", .str "1.0.0"),
    ("informationUri", .str "https://time-code-security.onrender.com"),
    ("rules", .arr (rules.map DriverRule.toJson))])])]

def sarifDocument (s : Setup) (scan : ScanResult) : Document :=
  { runs := [{ results := some (exported s scan).2
               properties := none
               invocations := if notifications scan = [] then none
                 else some [⟨some (.bool true), some (notifications scan), []⟩]
               rest := toolField (exported s scan).1.rules }]
    rest := [("$schema", .str
        "https://raw.githubusercontent.com/oasis-tcs/sarif-spec/master/Schemata/sarif-schema-2.1.0.json"),
      ("version", .str "2.1.0")] }

def ghMaxSarifBytes : ℕ := 10 * 1024 * 1024
def ghMaxShownResults : ℕ := 5000

/-- `to_sarif`; nothing when the fuel is not enough for the shedding. -/
def toSarif (fuel : ℕ) (s : Setup) (scan : ScanResult) : Option (Except Error Document) :=
  boundSarifDocument fuel ghMaxSarifBytes ghMaxShownResults 2 (sarifDocument s scan)

end TimeCodeSecurity.Sarif
