import TimeCodeSecurity.Reachability.Contracts
import TimeCodeSecurity.Reachability.Engine

/-! # Findings written and read back

The findings of the engine in the records that are serialised. They come back as they were when the call
they hold was attributed to the first import of the package, or when they hold no call.
-/
namespace TimeCodeSecurity.Reachability
open Py Scanner
set_option autoImplicit false

/-! ## The records that are serialised -/

def ImportStyle.text : ImportStyle → String
  | import_ => "import"
  | fromImport => "from_import"
  | fromImportStar => "from_import_star"

def Evidence.text : Evidence → String
  | targetEnvironmentMetadata => "TARGET_ENVIRONMENT_METADATA"
  | verifiedStaticCuratedMapping => "VERIFIED_STATIC_CURATED_MAPPING"
  | normalizedHeuristic => "NORMALIZED_HEURISTIC"

def EnvironmentScope.text : EnvironmentScope → String
  | targetEnvironment => "TARGET_ENVIRONMENT"
  | staticMetadata => "STATIC_METADATA"
  | none => "NONE"

def EdgeType.text : EdgeType → String
  | provenStaticEdge => "PROVEN_STATIC_EDGE"
  | possibleEdge => "POSSIBLE_EDGE"
  | unresolvedEdge => "UNRESOLVED_EDGE"

def ScopeType.contract : ScopeType → Contracts.ScopeType
  | module => .module
  | class_ => .class_
  | function => .function

def AttributionConfidence.contract : AttributionConfidence → Contracts.AttributionConfidence
  | provenStatic => .provenStatic
  | unresolved => .unresolved

def ReachabilityState.contract : ReachabilityState → Contracts.ReachabilityState
  | packageImportNotFound => .packageImportNotFound
  | packageImported => .packageImported
  | apiReferenceFound => .apiReferenceFound
  | callReachable => .callReachable
  | callUnreachable => .callUnreachable
  | reachabilityUnresolved => .reachabilityUnresolved

def Classification.contract : Classification → Contracts.ReachabilityClassification
  | dependencyActive => .dependencyActive
  | dependencyDormant => .dependencyDormant
  | reachableApiUse => .reachableApiUse
  | reachabilityUnresolved => .reachabilityUnresolved
  | transitiveVulnerable => .transitiveVulnerable

def ImportRecord.contract (r : ImportRecord) : Contracts.ImportRecord where
  importStyle := r.importStyle.text
  distributionName := r.distributionName
  importRoot := r.importRoot
  module := r.module
  symbol := r.symbol
  asname := r.asname
  file := r.file
  line := r.line
  column := r.column
  scopeType := r.scopeType.contract
  scopePath := r.scopePath
  parentScopePath := r.parentScopePath
  mappingEvidence := r.mappingEvidence.text
  environmentScope := r.environmentScope.text

def CallRecord.contract (c : CallRecord) : Contracts.CallRecord where
  callerScope := c.callerScope
  calleeExpr := c.calleeExpr
  attributedImport := c.attributedImport.map ImportRecord.contract
  targetSymbol := c.targetSymbol
  callPath := c.callPath
  file := c.file
  line := c.line
  column := c.column
  attributionConfidence := c.attributionConfidence.contract
  isDynamic := c.isDynamic

def VectorCFinding.contract (f : VectorCFinding) : Contracts.VectorCFinding where
  advisoryId := f.item.advisoryId
  advisoryAliases := f.item.advisoryAliases
  advisorySummary := f.item.advisorySummary
  packageName := f.item.packageName
  declaredVersion := f.item.declaredVersion
  versionSpecifier := f.item.versionSpecifier
  affectedStatus := f.item.affectedStatus
  affectedConfidence := f.item.affectedConfidence
  importStatus := f.importStatus.contract
  importEvidence := f.importEvidence.map ImportRecord.contract
  importEvidenceSource := (f.importEvidence.map fun r => r.mappingEvidence.text).getD "UNRESOLVED"
  environmentScope := (f.importEvidence.map fun r => r.environmentScope.text).getD "NONE"
  apiStatus := f.apiStatus.contract
  callEvidence := f.callEvidence.map CallRecord.contract
  callStatus := f.callStatus.contract
  callPath := f.callPath
  callDepth := f.callDepth
  edgeType := f.edgeType.text
  reachabilityClassification := f.classification.contract
  isTransitive := f.isTransitive
  severity := f.item.severity
  cvssScore := f.item.cvssScore
  manifestSource := f.item.manifestSource
  manifestLine := f.item.manifestLine
  limitations := f.limitations

theorem ImportStyle.text_injective : Function.Injective text := by
  intro a b h
  cases a <;> cases b <;> first | rfl | (revert h; decide)

theorem Evidence.text_injective : Function.Injective text := by
  intro a b h
  cases a <;> cases b <;> first | rfl | (revert h; decide)

theorem EnvironmentScope.text_injective : Function.Injective text := by
  intro a b h
  cases a <;> cases b <;> first | rfl | (revert h; decide)

theorem ScopeType.contract_injective : Function.Injective contract := by
  intro a b h
  cases a <;> cases b <;> first | rfl | (revert h; decide)

theorem ImportRecord.contract_injective : Function.Injective contract := by
  intro r s h
  obtain ⟨⟩ := r
  obtain ⟨⟩ := s
  simp only [contract, Contracts.ImportRecord.mk.injEq, ImportStyle.text_injective.eq_iff,
    Evidence.text_injective.eq_iff, EnvironmentScope.text_injective.eq_iff,
    ScopeType.contract_injective.eq_iff] at h
  simp only [ImportRecord.mk.injEq]
  exact h

/-! ## Which findings come back -/

/-- `VectorCFinding.from_dict(f.to_dict()) == f`. -/
def VectorCFinding.RoundTrips (f : VectorCFinding) : Prop :=
  Contracts.VectorCFinding.fromDict f.contract.toDict = some f.contract

theorem VectorCFinding.roundTrips_iff (f : VectorCFinding) :
    f.RoundTrips ↔ ∀ c, f.callEvidence = some c → c.attributedImport = f.importEvidence := by
  rw [RoundTrips, Contracts.VectorCFinding.fromDict_toDict_eq_iff, contract]
  cases f.callEvidence with
  | none => simp
  | some c =>
    simp only [Option.map_some, Option.some.injEq, forall_eq', CallRecord.contract]
    exact (Option.map_injective ImportRecord.contract_injective).eq_iff

def Visitor.SameImport (V : Visitor) (pkg : String) : List ImportRecord → List CallRecord → Prop
  | [], _ => True
  | primary :: _, target :: _ => target.attributedImport = some primary
  | _ :: _, [] => ∀ c ∈ V.calls, c.isUngrounded pkg = false

instance (V : Visitor) (pkg : String) :
    ∀ imports calls, Decidable (V.SameImport pkg imports calls)
  | [], _ => isTrue trivial
  | _ :: _, _ :: _ => inferInstanceAs (Decidable (_ = _))
  | _ :: _, [] => inferInstanceAs (Decidable (∀ _ ∈ _, _ = _))

def Visitor.HasOneImport (V : Visitor) (pkg : String) : Prop :=
  V.SameImport pkg (V.foundImports pkg) (V.matchedCalls pkg)

instance (V : Visitor) (pkg : String) : Decidable (V.HasOneImport pkg) :=
  inferInstanceAs (Decidable (V.SameImport _ _ _))

theorem verdictOnCall_fields (V : Visitor) (item : EvaluationItem) (primary : ImportRecord)
    (target : CallRecord) :
    (verdictOnCall V item primary target).item = item ∧
      (verdictOnCall V item primary target).importEvidence = some primary ∧
      (verdictOnCall V item primary target).callEvidence = some target := by
  simp only [verdictOnCall]
  split
  · exact ⟨rfl, rfl, rfl⟩
  split
  · exact ⟨rfl, rfl, rfl⟩
  split
  · exact ⟨rfl, rfl, rfl⟩
  · exact ⟨rfl, rfl, rfl⟩

theorem notImported_fields (item : EvaluationItem) (parents : Option (List String)) :
    (notImported item parents).item = item ∧ (notImported item parents).callEvidence = none := by
  cases parents with
  | none => exact ⟨rfl, rfl⟩
  | some ps => exact ⟨rfl, rfl⟩

theorem analyzePackage_item (V : Visitor) (transitiveMap : List (String × List String))
    (item : EvaluationItem) : (analyzePackage V transitiveMap item).item = item := by
  simp only [analyzePackage]
  split
  · exact (notImported_fields item _).1
  split
  · exact (verdictOnCall_fields V item _ _).1
  split
  · rfl
  · rfl

theorem analyzePackage_roundTrips_iff (V : Visitor) (transitiveMap : List (String × List String))
    (item : EvaluationItem) :
    (analyzePackage V transitiveMap item).RoundTrips ↔ V.HasOneImport item.packageName := by
  rw [VectorCFinding.roundTrips_iff, Visitor.HasOneImport]
  simp only [analyzePackage]
  cases himports : V.foundImports item.packageName with
  | nil => simp [notImported_fields, Visitor.SameImport]
  | cons primary others =>
    cases hcalls : V.matchedCalls item.packageName with
    | cons target rest =>
      have hfields := verdictOnCall_fields V item primary target
      simp only [hfields, Option.some.injEq, forall_eq', Visitor.SameImport]
    | nil =>
      simp only [Visitor.SameImport]
      cases hfind : V.calls.find? (CallRecord.isUngrounded item.packageName) with
      | none => simpa using hfind
      | some call =>
        have hungrounded := List.find?_some hfind
        have hmem := List.mem_of_find?_eq_some hfind
        have hnone : call.attributedImport = none := by
          rw [CallRecord.isUngrounded, Bool.and_eq_true, Option.isNone_iff_eq_none] at hungrounded
          exact hungrounded.1
        constructor
        · intro h
          have hprimary := h call rfl
          rw [hnone] at hprimary
          cases hprimary
        · intro h
          rw [h call hmem] at hungrounded
          cases hungrounded

theorem finding_roundTrips_iff (unparse : Expr → String) (declared : List String)
    (files : List SourceFile) (transitiveMap : List (String × List String))
    (items : List EvaluationItem) :
    ∀ f ∈ analyzeDependencyReachability unparse declared files transitiveMap items,
      f.RoundTrips ↔
        (analyzeFiles unparse declared files).HasOneImport f.item.packageName := by
  intro f hf
  obtain ⟨item, _, rfl⟩ := List.mem_map.mp hf
  rw [analyzePackage_item]
  exact analyzePackage_roundTrips_iff _ transitiveMap item

theorem finding_roundTrips_of_orphan_first :
    (analyzePackage OrphanFirst.visitor [] OrphanFirst.item).RoundTrips := by
  refine (finding_roundTrips_iff OrphanFirst.callText ["vulnlib"] OrphanFirst.files []
    [OrphanFirst.item] _ List.mem_cons_self).mpr ?_
  rw [analyzePackage_item]
  decide +kernel

namespace ImportedTwice

/-- `import vulnlib`, `from vulnlib import f`, and `f()`. -/
def files : List SourceFile :=
  [⟨"app.py",
    [.importStmt {} [⟨"vulnlib", none⟩], .importFrom {} (some "vulnlib") [⟨"f", none⟩] 0,
      .expr {} (.call {} (.name {} "f" .load) [] [])]⟩]

def visitor : Visitor := analyzeFiles OrphanFirst.callText ["vulnlib"] files

end ImportedTwice

theorem finding_of_imported_twice_changes :
    ¬ ∀ (unparse : Expr → String) (declared : List String) (files : List SourceFile)
      (transitiveMap : List (String × List String)) (items : List EvaluationItem),
      ∀ f ∈ analyzeDependencyReachability unparse declared files transitiveMap items,
        f.RoundTrips := by
  intro h
  have hround := h OrphanFirst.callText ["vulnlib"] ImportedTwice.files [] [OrphanFirst.item] _
    List.mem_cons_self
  have hone := (analyzePackage_roundTrips_iff ImportedTwice.visitor [] OrphanFirst.item).mp hround
  have hdiffer : ¬ ImportedTwice.visitor.HasOneImport OrphanFirst.item.packageName := by
    decide +kernel
  exact hdiffer hone

end TimeCodeSecurity.Reachability
