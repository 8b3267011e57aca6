import TimeCodeSecurity.Reachability.CallGraph

/-! # The verdict on a package

The loop of `analyze_dependency_reachability` over the vulnerable packages. What an advisory and the
manifest say of a package is copied into the finding; the verdict depends on the imports and the calls
of the visitor, of which the first of the package speaks for all.
-/
namespace TimeCodeSecurity.Reachability
open Py Scanner
set_option autoImplicit false

inductive Classification
  | dependencyActive | dependencyDormant | reachableApiUse | reachabilityUnresolved
  | transitiveVulnerable
deriving DecidableEq, Repr

/-- An entry of `evaluation_items`. -/
structure EvaluationItem where
  packageName : String
  advisoryId : String := "UNKNOWN-VULN"
  advisoryAliases : List String := []
  advisorySummary : String := ""
  severity : String := "HIGH"
  cvssScore : Option ℚ := some (15 / 2)
  declaredVersion : Option String := none
  versionSpecifier : Option String := none
  manifestSource : String := ""
  manifestLine : Option ℕ := none
  affectedStatus : String := "CONFIRMED"
  affectedConfidence : ℚ := 1
deriving DecidableEq, Repr

structure VectorCFinding where
  item : EvaluationItem
  importStatus : ReachabilityState
  importEvidence : Option ImportRecord
  apiStatus : ReachabilityState := .reachabilityUnresolved
  callEvidence : Option CallRecord := none
  callStatus : ReachabilityState := .reachabilityUnresolved
  callPath : List String := []
  callDepth : ℕ := 0
  edgeType : EdgeType := .unresolvedEdge
  classification : Classification
  isTransitive : Bool := false
  limitations : List String
deriving DecidableEq, Repr

def ImportRecord.isOf (pkg : String) (r : ImportRecord) : Bool :=
  r.distributionName = pkg || r.importRoot = pkg || r.importRoot = replaceChar '-' '_' pkg ||
    r.distributionName = replaceChar '_' '-' pkg || normalized r.distributionName = normalized pkg ||
    normalized r.importRoot = normalized pkg

def ImportRecord.isHeuristic (r : ImportRecord) : Bool :=
  r.mappingEvidence = .normalizedHeuristic || r.environmentScope = .none

def CallRecord.isOf (pkg : String) (c : CallRecord) : Bool :=
  c.attributedImport.any (ImportRecord.isOf pkg)

def CallRecord.isUngrounded (pkg : String) (c : CallRecord) : Bool :=
  c.attributedImport.isNone && contains pkg c.calleeExpr

namespace Visitor

variable (V : Visitor)

def foundImports (pkg : String) : List ImportRecord :=
  (V.importsByScope.flatMap fun scope => scope.2.map (·.2)).filter (ImportRecord.isOf pkg)

def matchedCalls (pkg : String) : List CallRecord := V.calls.filter (CallRecord.isOf pkg)

end Visitor

/-- `text.replace("()", "")`. -/
def withoutCalls (text : String) : String := String.ofList (go text.toList)
where
  go : List Char → List Char
    | '(' :: ')' :: rest => go rest
    | c :: rest => c :: go rest
    | [] => []

def notImported (item : EvaluationItem) (parents : Option (List String)) : VectorCFinding :=
  match parents with
  | some ps =>
    { item, importStatus := .packageImportNotFound, importEvidence := none
      classification := .transitiveVulnerable, isTransitive := true
      limitations := [item.packageName ++ " is a transitive dependency of " ++ ps.headD "" ++
        "; application does not directly import " ++ item.packageName] }
  | none =>
    { item, importStatus := .packageImportNotFound, importEvidence := none
      callStatus := .callUnreachable, classification := .dependencyDormant
      limitations := ["No import found for vulnerable package " ++ item.packageName ++
        " in analyzed AST"] }

def importLimitations (V : Visitor) (pkg : String) (primary : ImportRecord) : List String :=
  let isolated :=
    if primary.scopeType = .function then
      ((V.calls.find? fun c => c.callerScope ≠ primary.scopePath && c.isUngrounded pkg).map fun c =>
        "Import of " ++ pkg ++ " is local to " ++ lastPart primary.scopePath ++ "; call in " ++
          lastPart c.callerScope ++ " is ungrounded and isolated").toList
    else []
  let aliased := (primary.asname.map fun a =>
    "Alias '" ++ a ++ "' in " ++ lastPart primary.scopePath ++ " resolves to " ++ pkg ++
      " with zero cross-scope collision with other functions").toList
  isolated ++ aliased

def verdictOnCall (V : Visitor) (item : EvaluationItem) (primary : ImportRecord)
    (target : CallRecord) : VectorCFinding :=
  let imported : Option ImportRecord := some primary
  if target.isDynamic then
    { item, importStatus := .packageImported, importEvidence := imported
      callEvidence := some target, classification := .dependencyActive
      limitations := ["Dynamic dispatch via getattr prevents static reachability determination"] }
  else if primary.isWildcard || target.attributedImport.any ImportRecord.isWildcard then
    { item, importStatus := .packageImported, importEvidence := imported
      callEvidence := some target
      callPath := [if target.callerScope = "app" then "module_level"
        else lastPart target.callerScope, withoutCalls target.calleeExpr]
      callDepth := 1, edgeType := .possibleEdge, classification := .reachabilityUnresolved
      limitations := ["Wildcard import prevents deterministic symbol attribution"] }
  else if primary.isHeuristic then
    { item, importStatus := .packageImported, importEvidence := imported
      callEvidence := some target, callPath := ["module_level", withoutCalls target.calleeExpr]
      callDepth := 1, edgeType := .possibleEdge, classification := .reachabilityUnresolved
      limitations := ["Import namespace mapping uses non-definitive heuristic normalization; " ++
        "PROVEN_STATIC attribution not possible"] }
  else
    let verdict := V.evaluateCallReachability target
    { item, importStatus := .packageImported, importEvidence := imported
      apiStatus := .apiReferenceFound, callEvidence := some target, callStatus := verdict.state
      callPath := verdict.callPath, callDepth := verdict.callDepth, edgeType := verdict.edgeType
      classification :=
        if verdict.state = .callReachable then .reachableApiUse else .dependencyActive
      limitations := verdict.limitation.toList ++ importLimitations V item.packageName primary }

/-- One package; `transitiveMap` has the parents of the indirect dependencies. -/
def analyzePackage (V : Visitor) (transitiveMap : List (String × List String))
    (item : EvaluationItem) : VectorCFinding :=
  let pkg := item.packageName
  match V.foundImports pkg with
  | [] => notImported item (transitiveMap.lookup pkg)
  | primary :: _ =>
    match V.matchedCalls pkg with
    | target :: _ => verdictOnCall V item primary target
    | [] =>
      match V.calls.find? (CallRecord.isUngrounded pkg) with
      | none =>
        { item, importStatus := .packageImported, importEvidence := some primary
          classification := .dependencyActive
          limitations := ["No API call to vulnerable package found in static analysis"] }
      | some call =>
        { item, importStatus := .packageImported, importEvidence := some primary
          callEvidence := some call, classification := .dependencyActive
          limitations := ["PEP 227: class body namespace is not an enclosing scope for methods; " ++
            "bare reference in m() is ungrounded"] }

/-- The findings, one for each item. -/
def analyzeDependencyReachability (unparse : Expr → String) (declared : List String)
    (files : List SourceFile) (transitiveMap : List (String × List String))
    (items : List EvaluationItem) : List VectorCFinding :=
  items.map (analyzePackage (analyzeFiles unparse declared files) transitiveMap)

/-! ## The verdict as the best over the calls -/

/-- A call that proves the use of the package. -/
def Visitor.ProvesUse (V : Visitor) (pkg : String) (c : CallRecord) : Prop :=
  c.attributedImport.any (fun r => r.isOf pkg && !r.isWildcard) = true ∧ c.isDynamic = false ∧
    (V.evaluateCallReachability c).state = .callReachable

instance (V : Visitor) (pkg : String) (c : CallRecord) : Decidable (V.ProvesUse pkg c) :=
  inferInstanceAs (Decidable (_ ∧ _ ∧ _))

/-- A package that is imported, its imports known for certain, counts as used as soon as one call
proves it. -/
def VerdictIsBest (V : Visitor) (transitiveMap : List (String × List String))
    (item : EvaluationItem) : Prop :=
  V.foundImports item.packageName ≠ [] →
    (∀ r ∈ V.foundImports item.packageName, r.isHeuristic = false) →
      (∃ c ∈ V.calls, V.ProvesUse item.packageName c) →
        (analyzePackage V transitiveMap item).classification = .reachableApiUse

/-- The first call of the package proves the use, and the first import is not a wildcard. -/
def FirstSpeaks (V : Visitor) (pkg : String) : Prop :=
  (∃ c, (V.matchedCalls pkg).head? = some c ∧ V.ProvesUse pkg c) ∧
    ∃ r, (V.foundImports pkg).head? = some r ∧ r.isWildcard = false

theorem CallRecord.isOf_of_provesUse {V : Visitor} {pkg : String} {c : CallRecord}
    (h : V.ProvesUse pkg c) : c.isOf pkg = true := by
  have himp := h.1
  rw [CallRecord.isOf]
  cases hr : c.attributedImport with
  | none => simp [hr] at himp
  | some r =>
    rw [hr, Option.any_some, Bool.and_eq_true] at himp
    exact himp.1

theorem verdictOnCall_reachable_iff {V : Visitor} {item : EvaluationItem} {primary : ImportRecord}
    {target : CallRecord} (hof : target.isOf item.packageName = true)
    (hdef : primary.isHeuristic = false) :
    (verdictOnCall V item primary target).classification = .reachableApiUse ↔
      V.ProvesUse item.packageName target ∧ primary.isWildcard = false := by
  obtain ⟨imp, himp, hpkg⟩ : ∃ imp, target.attributedImport = some imp ∧
      imp.isOf item.packageName = true := by
    rw [CallRecord.isOf] at hof
    cases himp : target.attributedImport with
    | none => simp [himp] at hof
    | some imp => exact ⟨imp, rfl, by rwa [himp, Option.any_some] at hof⟩
  simp only [verdictOnCall, Visitor.ProvesUse, himp, Option.any_some, hpkg, Bool.true_and]
  cases hdyn : target.isDynamic with
  | true => simp
  | false =>
    cases hwild : primary.isWildcard with
    | true => simp
    | false =>
      cases hcall : imp.isWildcard with
      | true => simp
      | false =>
        by_cases hreach : (V.evaluateCallReachability target).state = .callReachable
        · simp [hdef, hreach]
        · simp [hdef, hreach]

namespace OrphanFirst

def ofVulnlib (name : String) : Expr := .attr {} (.name {} "vulnlib" .load) name .load

def callText : Expr → String
  | .attr _ (.name _ id _) attr _ => id ++ "." ++ attr
  | .name _ id _ => id
  | _ => ""

/-- `import vulnlib`, a function `orphan` that calls `vulnlib.first`, and `vulnlib.second()`. -/
def files : List SourceFile :=
  [⟨"app.py",
    [.importStmt {} [⟨"vulnlib", none⟩],
      .functionDef {} false "orphan" {} [.expr {} (.call {} (ofVulnlib "first") [] [])] [] none,
      .expr {} (.call {} (ofVulnlib "second") [] [])]⟩]

def visitor : Visitor := analyzeFiles callText ["vulnlib"] files

def item : EvaluationItem := { packageName := "vulnlib" }

end OrphanFirst

end TimeCodeSecurity.Reachability
