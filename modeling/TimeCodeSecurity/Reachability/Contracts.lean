import TimeCodeSecurity.Foundations.Codec

/-! # Findings as dictionaries

The records of a reachability finding as they are serialised. The evidence of the call holds an import of
its own; the decoder does not read it and takes the import of the finding in its place.
-/
namespace TimeCodeSecurity.Reachability.Contracts
set_option autoImplicit false

/-! ## Enumerations -/

inductive ScopeType
  | module | class_ | function
deriving DecidableEq, Repr

def ScopeType.value : ScopeType → String
  | module => "MODULE"
  | class_ => "CLASS"
  | function => "FUNCTION"

def ScopeType.ofValue : String → Option ScopeType
  | "MODULE" => some module
  | "CLASS" => some class_
  | "FUNCTION" => some function
  | _ => none

def ScopeType.codec : Codec ScopeType := .enum value ofValue (by intro a; cases a <;> rfl)

inductive ReachabilityState
  | packageVulnerable | packageNotVulnerable | packageImportNotFound | packageImported
  | apiReferenceFound | callReachable | callUnreachable | reachabilityUnresolved
deriving DecidableEq, Repr

def ReachabilityState.value : ReachabilityState → String
  | packageVulnerable => "PACKAGE_VULNERABLE"
  | packageNotVulnerable => "PACKAGE_NOT_VULNERABLE"
  | packageImportNotFound => "PACKAGE_IMPORT_NOT_FOUND"
  | packageImported => "PACKAGE_IMPORTED"
  | apiReferenceFound => "API_REFERENCE_FOUND"
  | callReachable => "CALL_REACHABLE"
  | callUnreachable => "CALL_UNREACHABLE"
  | reachabilityUnresolved => "REACHABILITY_UNRESOLVED"

def ReachabilityState.ofValue : String → Option ReachabilityState
  | "PACKAGE_VULNERABLE" => some packageVulnerable
  | "PACKAGE_NOT_VULNERABLE" => some packageNotVulnerable
  | "PACKAGE_IMPORT_NOT_FOUND" => some packageImportNotFound
  | "PACKAGE_IMPORTED" => some packageImported
  | "API_REFERENCE_FOUND" => some apiReferenceFound
  | "CALL_REACHABLE" => some callReachable
  | "CALL_UNREACHABLE" => some callUnreachable
  | "REACHABILITY_UNRESOLVED" => some reachabilityUnresolved
  | _ => none

def ReachabilityState.codec : Codec ReachabilityState :=
  .enum value ofValue (by intro a; cases a <;> rfl)

inductive ReachabilityClassification
  | dependencyActive | dependencyDormant | reachableApiUse | reachabilityUnresolved
  | transitiveVulnerable | notVulnerable
deriving DecidableEq, Repr

def ReachabilityClassification.value : ReachabilityClassification → String
  | dependencyActive => "DEPENDENCY_ACTIVE"
  | dependencyDormant => "DEPENDENCY_DORMANT"
  | reachableApiUse => "REACHABLE_API_USE"
  | reachabilityUnresolved => "REACHABILITY_UNRESOLVED"
  | transitiveVulnerable => "TRANSITIVE_VULNERABLE"
  | notVulnerable => "NOT_VULNERABLE"

def ReachabilityClassification.ofValue : String → Option ReachabilityClassification
  | "DEPENDENCY_ACTIVE" => some dependencyActive
  | "DEPENDENCY_DORMANT" => some dependencyDormant
  | "REACHABLE_API_USE" => some reachableApiUse
  | "REACHABILITY_UNRESOLVED" => some reachabilityUnresolved
  | "TRANSITIVE_VULNERABLE" => some transitiveVulnerable
  | "NOT_VULNERABLE" => some notVulnerable
  | _ => none

def ReachabilityClassification.codec : Codec ReachabilityClassification :=
  .enum value ofValue (by intro a; cases a <;> rfl)

inductive AttributionConfidence
  | provenStatic | possible | unresolved
deriving DecidableEq, Repr

def AttributionConfidence.value : AttributionConfidence → String
  | provenStatic => "PROVEN_STATIC"
  | possible => "POSSIBLE"
  | unresolved => "UNRESOLVED"

def AttributionConfidence.ofValue : String → Option AttributionConfidence
  | "PROVEN_STATIC" => some provenStatic
  | "POSSIBLE" => some possible
  | "UNRESOLVED" => some unresolved
  | _ => none

def AttributionConfidence.codec : Codec AttributionConfidence :=
  .enum value ofValue (by intro a; cases a <;> rfl)

structure ImportRecord where
  importStyle : String
  distributionName : String
  importRoot : String
  module : String
  symbol : Option String
  asname : Option String
  file : String
  line : ℕ
  column : ℕ
  scopeType : ScopeType
  scopePath : String
  parentScopePath : Option String
  mappingEvidence : String
  environmentScope : String
deriving DecidableEq, Repr

namespace ImportRecord

def isWildcard (r : ImportRecord) : Bool :=
  r.symbol = some "*" || r.importStyle = "from_import_star"

def optStr : Codec (Option String) := .opt .str (by intro a h; cases h)

def toDict (r : ImportRecord) : Fields :=
  [("import_style", Codec.str.write r.importStyle),
    ("distribution_name", Codec.str.write r.distributionName),
    ("import_root", Codec.str.write r.importRoot),
    ("module", Codec.str.write r.module),
    ("symbol", optStr.write r.symbol),
    ("alias", optStr.write r.asname),
    ("file", Codec.str.write r.file),
    ("line", Codec.nat.write r.line),
    ("column", Codec.nat.write r.column),
    ("scope_type", ScopeType.codec.write r.scopeType),
    ("scope_path", Codec.str.write r.scopePath),
    ("parent_scope_path", optStr.write r.parentScopePath),
    ("mapping_evidence", Codec.str.write r.mappingEvidence),
    ("environment_scope", Codec.str.write r.environmentScope),
    ("is_wildcard", Codec.bool.write r.isWildcard)]

/-- The part of `from_dict` that rebuilds `import_evidence`. -/
def ofDict (d : Fields) : Option ImportRecord := do
  let scopeType ← d.get ScopeType.codec "scope_type" .module
  let importStyle ← d.get .str "import_style" "import"
  let distributionName ← d.get .str "distribution_name" ""
  let importRoot ← d.get .str "import_root" ""
  let module ← d.get .str "module" ""
  let symbol ← d.get optStr "symbol" none
  let asname ← d.get optStr "alias" none
  let file ← d.get .str "file" ""
  let line ← d.get .nat "line" 1
  let column ← d.get .nat "column" 0
  let scopePath ← d.get .str "scope_path" ""
  let parentScopePath ← d.get optStr "parent_scope_path" none
  let mappingEvidence ← d.get .str "mapping_evidence" "UNRESOLVED"
  let environmentScope ← d.get .str "environment_scope" "NONE"
  return {
    importStyle, distributionName, importRoot, module, symbol, asname, file, line, column, scopeType
    scopePath, parentScopePath, mappingEvidence, environmentScope }

theorem ofDict_toDict (r : ImportRecord) : ofDict r.toDict = some r := by
  simp [ofDict, toDict, Fields.get, List.lookup_cons, Codec.read_write]

end ImportRecord

structure CallRecord where
  callerScope : String
  calleeExpr : String
  attributedImport : Option ImportRecord
  targetSymbol : String
  callPath : List String
  file : String
  line : ℕ
  column : ℕ
  attributionConfidence : AttributionConfidence
  isDynamic : Bool
deriving DecidableEq, Repr

/-- `record.to_dict() if record else None`. -/
def dictOrNone {α : Type} (toDict : α → Fields) : Option α → Plain
  | some a => .dict (toDict a)
  | none => .null

namespace CallRecord

def toDict (c : CallRecord) : Fields :=
  [("caller_scope", Codec.str.write c.callerScope),
    ("callee_expr", Codec.str.write c.calleeExpr),
    ("attributed_import", dictOrNone ImportRecord.toDict c.attributedImport),
    ("target_symbol", Codec.str.write c.targetSymbol),
    ("call_path", (Codec.list .str).write c.callPath),
    ("file", Codec.str.write c.file),
    ("line", Codec.nat.write c.line),
    ("column", Codec.nat.write c.column),
    ("attribution_confidence", AttributionConfidence.codec.write c.attributionConfidence),
    ("is_dynamic", Codec.bool.write c.isDynamic)]

/-- The part of `from_dict` that rebuilds `call_evidence`; the import is that of the finding. -/
def ofDict (importEv : Option ImportRecord) (d : Fields) : Option CallRecord := do
  let attributionConfidence ← d.get AttributionConfidence.codec "attribution_confidence" .unresolved
  let callerScope ← d.get .str "caller_scope" ""
  let calleeExpr ← d.get .str "callee_expr" ""
  let targetSymbol ← d.get .str "target_symbol" ""
  let callPath ← d.get (.list .str) "call_path" []
  let file ← d.get .str "file" ""
  let line ← d.get .nat "line" 1
  let column ← d.get .nat "column" 0
  let isDynamic ← d.get .bool "is_dynamic" false
  return {
    callerScope, calleeExpr, attributedImport := importEv, targetSymbol, callPath, file, line, column
    attributionConfidence, isDynamic }

theorem ofDict_toDict (importEv : Option ImportRecord) (c : CallRecord) :
    ofDict importEv c.toDict = some { c with attributedImport := importEv } := by
  simp [ofDict, toDict, Fields.get, List.lookup_cons, Codec.read_write]

end CallRecord

/-! ## Findings -/

structure VectorCFinding where
  advisoryId : String
  advisoryAliases : List String := []
  advisorySummary : String := ""
  packageName : String := ""
  declaredVersion : Option String := none
  versionSpecifier : Option String := none
  affectedStatus : String := "CONFIRMED"
  affectedConfidence : ℚ := 1
  importStatus : ReachabilityState := .packageImportNotFound
  importEvidence : Option ImportRecord := none
  importEvidenceSource : String := "UNRESOLVED"
  environmentScope : String := "NONE"
  apiStatus : ReachabilityState := .reachabilityUnresolved
  callEvidence : Option CallRecord := none
  callStatus : ReachabilityState := .reachabilityUnresolved
  callPath : List String := []
  callDepth : ℕ := 0
  edgeType : String := "UNRESOLVED_EDGE"
  reachabilityClassification : ReachabilityClassification := .reachabilityUnresolved
  isTransitive : Bool := false
  severity : String := "UNKNOWN"
  cvssScore : Option ℚ := none
  manifestSource : String := ""
  manifestLine : Option ℕ := none
  limitations : List String := []
deriving DecidableEq, Repr

/-- `if d.get(key)`: what is rebuilt from the dictionary of that key, when it has fields. -/
def getRecord {α : Type} (d : Fields) (key : String) (ofDict : Fields → Option α) :
    Option (Option α) :=
  match d.lookup key with
  | none | some .null | some (.bool false) | some (.dict []) => some none
  | some (.num q) => if q = 0 then some none else none
  | some (.str s) => if s = "" then some none else none
  | some (.list items) => if items.isEmpty then some none else none
  | some (.bool true) => none
  | some (.dict fields) => (ofDict fields).map some

theorem getRecord_of_lookup {α : Type} {d : Fields} {key : String} {toDict : α → Fields}
    {ofDict : Fields → Option α} {read : α → α} {a : Option α}
    (h : d.lookup key = some (dictOrNone toDict a)) (hne : ∀ a, toDict a ≠ [])
    (hread : ∀ a, ofDict (toDict a) = some (read a)) :
    getRecord d key ofDict = some (a.map read) := by
  rw [getRecord, h]
  cases a with
  | none => rfl
  | some a =>
    have hfields := hread a
    have hnonempty := hne a
    rw [dictOrNone]
    cases hdict : toDict a with
    | nil => exact absurd hdict hnonempty
    | cons f fs =>
      rw [hdict] at hfields
      simp [hfields]

namespace VectorCFinding

def optNum : Codec (Option ℚ) := .opt .num (by intro a h; cases h)
def optNat : Codec (Option ℕ) := .opt .nat (by intro a h; cases h)

def toDict (f : VectorCFinding) : Fields :=
  [("advisory_id", Codec.str.write f.advisoryId),
    ("advisory_aliases", (Codec.list .str).write f.advisoryAliases),
    ("advisory_summary", Codec.str.write f.advisorySummary),
    ("package_name", Codec.str.write f.packageName),
    ("declared_version", ImportRecord.optStr.write f.declaredVersion),
    ("version_specifier", ImportRecord.optStr.write f.versionSpecifier),
    ("affected_status", Codec.str.write f.affectedStatus),
    ("affected_confidence", Codec.num.write f.affectedConfidence),
    ("import_status", ReachabilityState.codec.write f.importStatus),
    ("import_evidence", dictOrNone ImportRecord.toDict f.importEvidence),
    ("import_evidence_source", Codec.str.write f.importEvidenceSource),
    ("environment_scope", Codec.str.write f.environmentScope),
    ("api_status", ReachabilityState.codec.write f.apiStatus),
    ("call_evidence", dictOrNone CallRecord.toDict f.callEvidence),
    ("call_status", ReachabilityState.codec.write f.callStatus),
    ("call_path", (Codec.list .str).write f.callPath),
    ("call_depth", Codec.nat.write f.callDepth),
    ("edge_type", Codec.str.write f.edgeType),
    ("reachability_classification",
      ReachabilityClassification.codec.write f.reachabilityClassification),
    ("is_transitive", Codec.bool.write f.isTransitive),
    ("severity", Codec.str.write f.severity),
    ("cvss_score", optNum.write f.cvssScore),
    ("manifest_source", Codec.str.write f.manifestSource),
    ("manifest_line", optNat.write f.manifestLine),
    ("limitations", (Codec.list .str).write f.limitations)]

def fromDict (d : Fields) : Option VectorCFinding := do
  let importStatus ← d.get ReachabilityState.codec "import_status" .packageImportNotFound
  let apiStatus ← d.get ReachabilityState.codec "api_status" .reachabilityUnresolved
  let callStatus ← d.get ReachabilityState.codec "call_status" .reachabilityUnresolved
  let reachabilityClassification ← d.get ReachabilityClassification.codec
    "reachability_classification" .reachabilityUnresolved
  let importEvidence ← getRecord d "import_evidence" ImportRecord.ofDict
  let callEvidence ← getRecord d "call_evidence" (CallRecord.ofDict importEvidence)
  let advisoryId ← d.get .str "advisory_id" ""
  let advisoryAliases ← d.get (.list .str) "advisory_aliases" []
  let advisorySummary ← d.get .str "advisory_summary" ""
  let packageName ← d.get .str "package_name" ""
  let declaredVersion ← d.get ImportRecord.optStr "declared_version" none
  let versionSpecifier ← d.get ImportRecord.optStr "version_specifier" none
  let affectedStatus ← d.get .str "affected_status" "CONFIRMED"
  let affectedConfidence ← d.get .num "affected_confidence" 1
  let importEvidenceSource ← d.get .str "import_evidence_source" "UNRESOLVED"
  let environmentScope ← d.get .str "environment_scope" "NONE"
  let callPath ← d.get (.list .str) "call_path" []
  let callDepth ← d.get .nat "call_depth" 0
  let edgeType ← d.get .str "edge_type" "UNRESOLVED_EDGE"
  let isTransitive ← d.get .bool "is_transitive" false
  let severity ← d.get .str "severity" "UNKNOWN"
  let cvssScore ← d.get optNum "cvss_score" none
  let manifestSource ← d.get .str "manifest_source" ""
  let manifestLine ← d.get optNat "manifest_line" none
  let limitations ← d.get (.list .str) "limitations" []
  return {
    advisoryId, advisoryAliases, advisorySummary, packageName, declaredVersion, versionSpecifier
    affectedStatus, affectedConfidence, importStatus, importEvidence, importEvidenceSource
    environmentScope, apiStatus, callEvidence, callStatus, callPath, callDepth, edgeType
    reachabilityClassification, isTransitive, severity, cvssScore, manifestSource, manifestLine
    limitations }

def withOneImport (f : VectorCFinding) : VectorCFinding :=
  { f with callEvidence :=
      f.callEvidence.map fun c => { c with attributedImport := f.importEvidence } }

theorem getRecord_importEvidence (f : VectorCFinding) :
    getRecord f.toDict "import_evidence" ImportRecord.ofDict = some f.importEvidence := by
  have hlookup : f.toDict.lookup "import_evidence" =
      some (dictOrNone ImportRecord.toDict f.importEvidence) := by simp [toDict, List.lookup_cons]
  have hread : ∀ r : ImportRecord, ImportRecord.ofDict r.toDict = some (id r) :=
    ImportRecord.ofDict_toDict
  rw [getRecord_of_lookup hlookup (by simp [ImportRecord.toDict]) hread, Option.map_id, id]

theorem getRecord_callEvidence (f : VectorCFinding) :
    getRecord f.toDict "call_evidence" (CallRecord.ofDict f.importEvidence) =
      some f.withOneImport.callEvidence := by
  have hlookup : f.toDict.lookup "call_evidence" =
      some (dictOrNone CallRecord.toDict f.callEvidence) := by simp [toDict, List.lookup_cons]
  exact getRecord_of_lookup hlookup (by simp [CallRecord.toDict])
    (CallRecord.ofDict_toDict f.importEvidence)

theorem fromDict_toDict (f : VectorCFinding) : fromDict f.toDict = some f.withOneImport := by
  rw [fromDict, getRecord_importEvidence]
  -- the two statuses of the import and the API, the one of the call, and the classification
  iterate 4 refine (Fields.get_bind rfl).trans ?_
  rw [Option.bind_eq_bind, Option.bind_some, getRecord_callEvidence, Option.bind_eq_bind,
    Option.bind_some]
  iterate 19 refine (Fields.get_bind rfl).trans ?_
  rfl

theorem fromDict_toDict_eq_iff (f : VectorCFinding) :
    fromDict f.toDict = some f ↔ ∀ c, f.callEvidence = some c →
      c.attributedImport = f.importEvidence := by
  rw [fromDict_toDict, Option.some.injEq, withOneImport]
  cases hcall : f.callEvidence with
  | none =>
    have hsame : { f with callEvidence := none } = f := by rw [← hcall]
    rw [Option.map_none, hsame]
    simp
  | some c =>
    constructor
    · intro h c' hc'
      have hsame := congrArg VectorCFinding.callEvidence h
      rw [hcall] at hsame
      cases hc'
      exact (congrArg CallRecord.attributedImport (Option.some.inj hsame)).symm
    · intro h
      have hc : { c with attributedImport := f.importEvidence } = c := by rw [← h c rfl]
      rw [Option.map_some, hc, ← hcall]

end VectorCFinding

end TimeCodeSecurity.Reachability.Contracts
