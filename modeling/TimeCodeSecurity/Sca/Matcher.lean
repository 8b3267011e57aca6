import TimeCodeSecurity.Sca.Advisory

/-! # The version matcher

`version_matcher.py`: one dependency against the advisories of its package. A pinned version is
compared with every interval, a range with the overlap classifier, and what cannot be read becomes
an `UNRESOLVED` finding.
-/
namespace TimeCodeSecurity.Sca
open Pep440
set_option autoImplicit false

/-- The fields of a dependency record that the matcher reads. -/
structure DependencyRecord where
  name : String
  version : Option String := none
  versionSpecifier : Option String := none
  source : String := ""
  pinned : Bool := false
  lineNumber : Option ℕ := none
deriving DecidableEq, Repr

inductive Severity
  | critical | high | medium | low | unknown
deriving DecidableEq, Repr

inductive Status
  | confirmed | potential | unresolved
deriving DecidableEq, Repr

structure SCAFinding where
  packageName : String
  installedVersion : Option String
  requestedSpecifier : Option String
  vulnerabilityId : String
  aliases : List String
  severity : Severity
  cvssScore : Option ℚ
  summary : String
  fixedVersion : Option String
  matchedRange : String
  confidence : ℚ
  status : Status
  manifestSource : String
  lineNumber : Option ℕ
deriving DecidableEq, Repr

/-- What the matcher takes from elsewhere: whether a specifier set lets pre-releases in, and
`float` on a text. -/
structure Library where
  allowPre : SpecifierSet → Bool
  readFloat : String → Option ℚ

def ScoreValue.asNumber : ScoreValue → Option ℚ
  | .number q => some q
  | _ => none

def explicitScore (lib : Library) (vuln : OSVVulnerability) : Option ℚ :=
  vuln.severity.findSome? fun
    | .number q => some q
    | .text s => lib.readFloat s
    | .other => none

def databaseScore (db : DatabaseSpecific) : Option ℚ :=
  match db.cvss with
  | some score => score.asNumber
  | none => db.cvssScore.bind ScoreValue.asNumber

def severityOfWord (word : List Char) : Option Severity :=
  if word = "CRITICAL".toList then some .critical
  else if word = "HIGH".toList then some .high
  else if word = "MODERATE".toList || word = "MEDIUM".toList then some .medium
  else if word = "LOW".toList then some .low
  else none

def severityOfScore (q : ℚ) : Severity :=
  if 9 ≤ q then .critical else if 7 ≤ q then .high else if 4 ≤ q then .medium
  else if 0 < q then .low else .unknown

def extractSeverityAndScore (lib : Library) (vuln : OSVVulnerability) : Severity × Option ℚ :=
  let score := (explicitScore lib vuln).orElse fun _ => databaseScore vuln.databaseSpecific
  let tier := severityOfWord (upperText (vuln.databaseSpecific.severity.getD ""))
  ((tier.orElse fun _ => score.map severityOfScore).getD .unknown, score)

/-- `[p for p in text.split(".") if p.strip()]`, of which only the number is used. -/
def rawPartCount (text : String) : ℕ :=
  ((text.toList.splitOn '.').filter fun p => strip p ≠ []).length

def showDottedText (ns : List ℕ) : String := String.ofList (showDotted ns)

def caretHigh (rawParts : ℕ) : List ℕ → Option String
  | [] => none
  | maj :: rest =>
    let mnr := rest.getD 0 0
    let patch := rest.getD 1 0
    some (showDottedText (
      if 0 < maj then [maj + 1, 0, 0]
      else if rawParts = 1 then [1, 0, 0]
      else if 0 < mnr then [0, mnr + 1, 0]
      else if rawParts = 2 then [0, 1, 0]
      else [0, 0, patch + 1]))

def tildeHigh (rawParts : ℕ) : List ℕ → Option String
  | [] => none
  | maj :: rest =>
    some (showDottedText (
      if rawParts ≤ 1 then [maj + 1, 0, 0] else [maj, rest.getD 0 0 + 1, 0]))

def normalizePoetry (high : ℕ → List ℕ → Option String) (text : String) : Option String :=
  (safeParseVersion text).bind fun v =>
    (high (rawPartCount text) (digitParts v.baseVersion)).map fun h => ">=" ++ text ++ ",<" ++ h

def normalizePoetryCaret : String → Option String := normalizePoetry caretHigh
def normalizePoetryTilde : String → Option String := normalizePoetry tildeHigh

def normalizePoetryClause (clause : List Char) : String :=
  if clause = ['*'] || clause = ['=', '=', '*'] then ">=0"
  else
    let text := String.ofList clause
    match clause with
    | '^' :: rest => (normalizePoetryCaret (String.ofList (strip rest))).getD text
    | '~' :: '=' :: _ => text
    | '~' :: rest => (normalizePoetryTilde (String.ofList (strip rest))).getD text
    | _ => text

def normalizePoetrySpecifiers (text : String) : String :=
  ",".intercalate ((((text.toList.splitOn ',').map strip).filter (· ≠ [])).map normalizePoetryClause)

def DependencyRecord.specifierText (dep : DependencyRecord) : String :=
  let text := dep.versionSpecifier.getD ""
  if strip text.toList = [] then ">=0" else normalizePoetrySpecifiers text

structure RangeScan where
  hit : Option (String × Option String) := none
  undecided : Option String := none
deriving DecidableEq, Repr

def applicableRanges (vuln : OSVVulnerability) : List OSVAffectedRange :=
  let known := vuln.affectedRanges.filter fun r =>
    upperText r.type = "ECOSYSTEM".toList || upperText r.type = "SEMVER".toList
  if known = [] then vuln.affectedRanges else known

def pinnedInterval (v : Version) (st : RangeScan) (i : Interval) : RangeScan :=
  if st.hit.isSome then st
  else if unreadableBound i.introduced || unreadableBound i.fixed ||
      unreadableBound i.lastAffected then
    { st with undecided := some (formatIntervalRange i) }
  else if isVersionInInterval v i then { st with hit := some (formatIntervalRange i, i.fixed) }
  else st

def pinnedRange (text : String) (v : Version) (st : RangeScan) (r : OSVAffectedRange) : RangeScan :=
  let st := (extractIntervalsFromEvents r.events).foldl (pinnedInterval v) st
  if st.hit.isSome then st
  else if r.versions.any fun t => (safeParseVersion t).any fun w => decide (v.key = w.key) then
    { st with hit := some ("==" ++ text, none) }
  else st

/-- `desc or fallback`. -/
def orText (desc : Option String) (fallback : String) : String :=
  (desc.filter (· ≠ "")).getD fallback

def overlapInterval (lib : Library) (S : SpecifierSet) (versions : List String) (st : RangeScan)
    (i : Interval) : RangeScan :=
  if st.hit.isSome then st
  else
    match classifyIntervalOverlap lib.allowPre S i versions with
    | (.provenOverlap, desc) =>
      { st with hit := some (orText desc (formatIntervalRange i), i.fixed) }
    | (.unresolved, desc) => { st with undecided := some (orText desc (formatIntervalRange i)) }
    | (.provenDisjoint, _) => st

def overlapVersions (lib : Library) (S : SpecifierSet) (st : RangeScan) (versions : List String) :
    RangeScan :=
  let admitted := versions.filter fun t =>
    (safeParseVersion t).any (SpecifierSet.contains lib.allowPre S)
  if admitted ≠ [] then
    { st with hit := some ("in (" ++ ", ".intercalate (admitted.take 3) ++ ")", none) }
  else if versions.any fun t => (safeParseVersion t).isNone then
    { st with undecided := some "unparseable version in advisory" }
  else st

def overlapRange (lib : Library) (S : SpecifierSet) (st : RangeScan) (r : OSVAffectedRange) :
    RangeScan :=
  if st.hit.isSome then st
  else
    let intervals := extractIntervalsFromEvents r.events
    let st := intervals.foldl (overlapInterval lib S r.versions) st
    if st.hit.isSome then st
    else if intervals = [] && r.versions ≠ [] then overlapVersions lib S st r.versions
    else st

/-- The finding about `dep` and `vuln`, in the fields that vary. -/
def advisoryFinding (lib : Library) (dep : DependencyRecord) (vuln : OSVVulnerability)
    (summary : String) (fixedVersion : Option String) (matchedRange : String) (confidence : ℚ)
    (status : Status) : SCAFinding :=
  let (severity, score) := extractSeverityAndScore lib vuln
  { packageName := dep.name, installedVersion := dep.version,
    requestedSpecifier := dep.versionSpecifier, vulnerabilityId := vuln.vulnId,
    aliases := vuln.aliases, severity := severity, cvssScore := score, summary := summary,
    fixedVersion := fixedVersion, matchedRange := matchedRange, confidence := confidence,
    status := status, manifestSource := dep.source, lineNumber := dep.lineNumber }

def unresolvedFinding (lib : Library) (dep : DependencyRecord) (vuln : OSVVulnerability)
    (summary matchedRange : String) : SCAFinding :=
  advisoryFinding lib dep vuln summary none matchedRange 0 .unresolved

def advisorySummary (vuln : OSVVulnerability) : String :=
  if vuln.summary ≠ "" then vuln.summary
  else if vuln.details ≠ "" then String.ofList (vuln.details.toList.take 200)
  else "Security vulnerability advisory"

def evaluateAdvisory (lib : Library) (dep : DependencyRecord) (vuln : OSVVulnerability) :
    Option SCAFinding :=
  let summary := advisorySummary vuln
  if dep.pinned then
    match dep.version.filter (· ≠ "") with
    | none =>
      some (unresolvedFinding lib dep vuln ("Pinned dependency missing version string: " ++ summary) "")
    | some text =>
      match parse text with
      | none =>
        some (unresolvedFinding lib dep vuln
          ("Invalid PEP 440 version '" ++ text ++ "': " ++ summary) "")
      | some v =>
        let st := (applicableRanges vuln).foldl (pinnedRange text v) {}
        match st.hit, st.undecided with
        | some (matched, fixed), _ =>
          some (advisoryFinding lib dep vuln summary fixed matched 1 .confirmed)
        | none, some desc =>
          some (unresolvedFinding lib dep vuln
            ("Unparseable advisory range '" ++ desc ++ "': " ++ summary) desc)
        | none, none => none
  else
    match parseSpecifierSet dep.specifierText with
    | none =>
      some (unresolvedFinding lib dep vuln ("Ambiguous or invalid version specifier '" ++
        dep.versionSpecifier.getD "" ++ "': " ++ summary) "")
    | some S =>
      let st := (applicableRanges vuln).foldl (overlapRange lib S) {}
      match st.hit, st.undecided with
      | some (matched, fixed), _ =>
        some (advisoryFinding lib dep vuln summary fixed matched (3 / 5) .potential)
      | none, some desc =>
        some (unresolvedFinding lib dep vuln
          ("Indeterminate overlap with vulnerable range '" ++ desc ++ "': " ++ summary) desc)
      | none, none => none

def unknownFinding (dep : DependencyRecord) (summary : String) : SCAFinding :=
  { packageName := dep.name, installedVersion := dep.version,
    requestedSpecifier := dep.versionSpecifier, vulnerabilityId := "UNKNOWN", aliases := [],
    severity := .unknown, cvssScore := none, summary := summary, fixedVersion := none,
    matchedRange := "", confidence := 0, status := .unresolved, manifestSource := dep.source,
    lineNumber := dep.lineNumber }

def matchDependency (lib : Library) (dep : DependencyRecord) :
    Option OSVQueryResult → List SCAFinding
  | none => [unknownFinding dep "No vulnerability intelligence available for this dependency."]
  | some res =>
    if res.source = .error then
      [unknownFinding dep ("Vulnerability data could not be verified: " ++
        orText res.error "OSV query failed with error")]
    else if res.source = .offlineFallback && res.vulnerabilities = [] then
      [unknownFinding dep ("Vulnerability data could not be verified: " ++
        orText res.error "Offline mode active; dependency unverified in local cache")]
    else res.vulnerabilities.filterMap (evaluateAdvisory lib dep)

def DependencyRecord.unreadable (dep : DependencyRecord) : Bool :=
  if dep.pinned then ((dep.version.filter (· ≠ "")).bind parse).isNone
  else (parseSpecifierSet dep.specifierText).isNone

def rangeScan (lib : Library) (dep : DependencyRecord) (vuln : OSVVulnerability) : RangeScan :=
  if dep.pinned then
    ((dep.version.filter (· ≠ "")).bind fun text => (parse text).map fun v =>
      (applicableRanges vuln).foldl (pinnedRange text v) {}).getD {}
  else
    ((parseSpecifierSet dep.specifierText).map fun S =>
      (applicableRanges vuln).foldl (overlapRange lib S) {}).getD {}

def undecidedAdvisory (lib : Library) (dep : DependencyRecord) (vuln : OSVVulnerability) : Bool :=
  (rangeScan lib dep vuln).hit.isNone && (rangeScan lib dep vuln).undecided.isSome

theorem evaluateAdvisory_vulnerabilityId {lib : Library} {dep : DependencyRecord}
    {vuln : OSVVulnerability} {f : SCAFinding} (h : evaluateAdvisory lib dep vuln = some f) :
    f.vulnerabilityId = vuln.vulnId := by
  unfold evaluateAdvisory at h
  dsimp only at h
  repeat' split at h
  all_goals first
    | (cases h; rfl)
    | exact absurd h (by simp)

theorem evaluateAdvisory_unresolved_iff (lib : Library) (dep : DependencyRecord)
    (vuln : OSVVulnerability) :
    (∃ f, evaluateAdvisory lib dep vuln = some f ∧ f.status = .unresolved) ↔
      dep.unreadable = true ∨ undecidedAdvisory lib dep vuln = true := by
  unfold evaluateAdvisory DependencyRecord.unreadable undecidedAdvisory rangeScan
  cases hpin : dep.pinned with
  | true =>
    cases hversion : dep.version.filter (· ≠ "") with
    | none => simp [unresolvedFinding, advisoryFinding]
    | some text =>
      cases hparse : parse text with
      | none => simp [hparse, unresolvedFinding, advisoryFinding]
      | some v =>
        cases hhit : ((applicableRanges vuln).foldl (pinnedRange text v) {}).hit <;>
          cases hund : ((applicableRanges vuln).foldl (pinnedRange text v) {}).undecided <;>
          simp [hparse, hhit, hund, unresolvedFinding, advisoryFinding]
  | false =>
    cases hspec : parseSpecifierSet dep.specifierText with
    | none => simp [unresolvedFinding, advisoryFinding]
    | some S =>
      cases hhit : ((applicableRanges vuln).foldl (overlapRange lib S) {}).hit <;>
        cases hund : ((applicableRanges vuln).foldl (overlapRange lib S) {}).undecided <;>
        simp [hhit, hund, unresolvedFinding, advisoryFinding]

theorem rangeScan_of_no_ranges (lib : Library) (dep : DependencyRecord) {vuln : OSVVulnerability}
    (h : vuln.affectedRanges = []) : rangeScan lib dep vuln = {} := by
  have happ : applicableRanges vuln = [] := by simp [applicableRanges, h]
  unfold rangeScan
  simp only [happ, List.foldl_nil]
  cases dep.pinned with
  | true =>
    cases dep.version.filter (· ≠ "") with
    | none => rfl
    | some text => cases hparse : parse text <;> simp [hparse]
  | false => cases parseSpecifierSet dep.specifierText <;> rfl

theorem undecidedAdvisory_of_no_ranges (lib : Library) (dep : DependencyRecord)
    {vuln : OSVVulnerability} (h : vuln.affectedRanges = []) :
    undecidedAdvisory lib dep vuln = false := by
  rw [undecidedAdvisory, rangeScan_of_no_ranges lib dep h]
  rfl

end TimeCodeSecurity.Sca
