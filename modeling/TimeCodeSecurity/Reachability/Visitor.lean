import TimeCodeSecurity.Foundations.Tables
import TimeCodeSecurity.Foundations.Pep440
import TimeCodeSecurity.Py.Node
import TimeCodeSecurity.Scanner.Names

/-! # Imports and calls of the analysed files

`ReachabilityASTVisitor`: one visitor goes through the files one after the other and keeps the imports
of every scope, the functions and classes, and a record for each call. The names of the module and of
the file are those of the file visited last.
-/
namespace TimeCodeSecurity.Reachability
open Py Scanner
set_option autoImplicit false

inductive ScopeType
  | module | class_ | function
deriving DecidableEq, Repr

inductive ImportStyle
  | import_ | fromImport | fromImportStar
deriving DecidableEq, Repr

inductive Evidence
  | targetEnvironmentMetadata | verifiedStaticCuratedMapping | normalizedHeuristic
deriving DecidableEq, Repr

inductive EnvironmentScope
  | targetEnvironment | staticMetadata | none
deriving DecidableEq, Repr

inductive AttributionConfidence
  | provenStatic | unresolved
deriving DecidableEq, Repr

structure ImportRecord where
  importStyle : ImportStyle
  distributionName : String
  importRoot : String
  module : String
  symbol : Option String
  asname : Option String
  file : String
  line : ℕ
  column : ℕ
  scopeType : ScopeType
  scopePath : String
  parentScopePath : Option String
  mappingEvidence : Evidence
  environmentScope : EnvironmentScope
deriving DecidableEq, Repr

def ImportRecord.isWildcard (r : ImportRecord) : Bool :=
  r.symbol = some "*" || r.importStyle = .fromImportStar

structure LocalAssignmentBinding where
  variableName : String
  scopePath : String
  sourceExpression : String
  attributedType : String
  attributedImport : Option ImportRecord
  file : String
  line : ℕ
  column : ℕ
  confidence : AttributionConfidence

structure CallRecord where
  callerScope : String
  calleeExpr : String
  attributedImport : Option ImportRecord
  targetSymbol : String
  callPath : List String
  file : String
  line : ℕ
  column : ℕ
  attributionConfidence : AttributionConfidence
  isDynamic : Bool
deriving DecidableEq, Repr

def lower (s : String) : String := String.ofList (s.toList.map Char.toLower)

/-- `text.replace(old, new)` for one character. -/
def replaceChar (old new : Char) (s : String) : String :=
  String.ofList (s.toList.map fun c => if c = old then new else c)

/-- `name.lower().replace("_", "-")`. -/
def normalized (name : String) : String := replaceChar '_' '-' (lower name)

def curatedImportToDists : List (String × String) :=
  [("dateutil", "python-dateutil"), ("attr", "attrs"), ("PIL", "pillow"),
    ("sklearn", "scikit-learn"), ("cv2", "opencv-python"), ("bs4", "beautifulsoup4"),
    ("yaml", "pyyaml"), ("MySQLdb", "mysqlclient"), ("PyPDF2", "pypdf2"),
    ("google.protobuf", "protobuf")]

/-- The part of `ImportDistributionResult` the visitor reads: the first distribution and where it is
known from. The curated table has one distribution for each root. -/
structure ImportDistributionResult where
  distributionName : String
  evidenceSource : Evidence
  environmentScope : EnvironmentScope
deriving DecidableEq, Repr

def leastName : List String → String
  | [] => ""
  | d :: ds => ds.foldl (fun least d => if d < least then d else least) d

def resolveImportToDistributions (importRoot : String) (declared : List String) :
    ImportDistributionResult :=
  let cleanRoot := String.ofList (Pep440.strip importRoot.toList)
  let normRoot := normalized cleanRoot
  let curated := (curatedImportToDists.lookup cleanRoot).or (curatedImportToDists.lookup normRoot)
  match curated with
  | some d => ⟨d, .verifiedStaticCuratedMapping, .staticMetadata⟩
  | none =>
    if cleanRoot ∈ declared then ⟨cleanRoot, .targetEnvironmentMetadata, .targetEnvironment⟩
    else
      match (declared.filter fun d => normalized d = normRoot).dedup with
      | [d] =>
        if d ≠ cleanRoot ∧ (contains "_" cleanRoot ∨ contains "-" d) then
          ⟨d, .normalizedHeuristic, .none⟩
        else ⟨d, .targetEnvironmentMetadata, .targetEnvironment⟩
      | [] =>
        if contains "_" cleanRoot then ⟨replaceChar '_' '-' cleanRoot, .normalizedHeuristic, .none⟩
        else ⟨cleanRoot, .normalizedHeuristic, .none⟩
      | ds => ⟨leastName ds, .targetEnvironmentMetadata, .targetEnvironment⟩

/-! ## The visitor -/

abbrev ScopeStack := List (ScopeType × String)

def scopePath (stack : ScopeStack) : String := ".".intercalate (stack.map (·.2))

def scopeType (stack : ScopeStack) : ScopeType := (stack.getLast?.map (·.1)).getD .module

def parentScopePath (stack : ScopeStack) : Option String :=
  if stack.length ≤ 1 then none else some (scopePath stack.dropLast)

structure Visitor where
  moduleName : String
  filePath : String
  importsByScope : List (String × List (String × ImportRecord)) := []
  localBindingsByScope : List ((String × String) × LocalAssignmentBinding) := []
  calls : List CallRecord := []
  functions : List (String × Stmt) := []
  classes : List String := []
  moduleLevelInvocations : List String := []

namespace Visitor

variable (V : Visitor)

def importOf (scope name : String) : Option ImportRecord :=
  (V.importsByScope.lookup scope).bind (·.lookup name)

def importScopes : ℕ → String → List String
  | 0, _ => []
  | fuel + 1, curr =>
    if curr = "" then []
    else if ¬contains "." curr then [curr]
    else
      let parent := beforeLastDot curr
      curr :: importScopes fuel
        (if parent ∈ V.classes ∧ contains "." parent then beforeLastDot parent else parent)

def lookupImport (name scope : String) : Option ImportRecord :=
  let scopes := V.importScopes (scope.length + 1) scope ++ [V.moduleName]
  (scopes.findSome? fun s => V.importOf s name).or (scopes.findSome? fun s => V.importOf s "*")

def lookupBinding (name : String) : ℕ → String → Option LocalAssignmentBinding
  | 0, _ => none
  | fuel + 1, curr =>
    if curr = "" then none
    else
      match V.localBindingsByScope.lookup (curr, name) with
      | some b => some b
      | none => if contains "." curr then lookupBinding name fuel (beforeLastDot curr) else none

/-- `self.imports_by_scope[scope][name] = rec`. -/
def addImport (scope name : String) (r : ImportRecord) : Visitor :=
  let names := setItem ((V.importsByScope.lookup scope).getD []) name r
  { V with importsByScope := setItem V.importsByScope scope names }

def importRecord (stack : ScopeStack) (pos : Pos) (style : ImportStyle) (root module : String)
    (symbol asname : Option String) (res : ImportDistributionResult) : ImportRecord :=
  ⟨style, res.distributionName, root, module, symbol, asname, V.filePath, pos.lineno, pos.colOffset,
    scopeType stack, scopePath stack, parentScopePath stack, res.evidenceSource,
    res.environmentScope⟩

def visitImport (declared : List String) (stack : ScopeStack) (pos : Pos) (names : List Alias) :
    Visitor :=
  names.foldl (fun V a =>
    let root := beforeFirstDot a.name
    V.addImport (scopePath stack) (a.asname.getD a.name)
      (V.importRecord stack pos .import_ root a.name none a.asname
        (resolveImportToDistributions root declared))) V

/-- The module of `from … import`; a relative one starts from the module visited. -/
def fromModule (module : Option String) (level : ℕ) : String :=
  let own := module.getD ""
  if level = 0 then own
  else
    let parts := V.moduleName.toList.splitOn '.'
    let base := if level < parts.length then
        ".".intercalate ((parts.take (parts.length - level)).map String.ofList)
      else ""
    if base ≠ "" ∧ own ≠ "" then base ++ "." ++ own
    else if base ≠ "" then base else own

def visitImportFrom (declared : List String) (stack : ScopeStack) (pos : Pos)
    (module : Option String) (names : List Alias) (level : ℕ) : Visitor :=
  let source := V.fromModule module level
  let root := if source = "" then "" else beforeFirstDot source
  names.foldl (fun V a =>
    let effectiveRoot := if root = "" then a.name else root
    let style : ImportStyle := if a.name = "*" then .fromImportStar else .fromImport
    V.addImport (scopePath stack) (a.asname.getD a.name)
      (V.importRecord stack pos style effectiveRoot source (some a.name) a.asname
        (resolveImportToDistributions effectiveRoot declared))) V

def assignedCallee (unparse : Expr → String) : Expr → String
  | .call _ func _ _ => unparse func
  | .name pos id ctx => unparse (.name pos id ctx)
  | .attr pos value attr ctx => unparse (.attr pos value attr ctx)
  | _ => ""

def visitAssign (unparse : Expr → String) (stack : ScopeStack) (pos : Pos) (targets : List Expr)
    (value : Expr) : Visitor :=
  match targets with
  | [.name _ id _] =>
    let callee := assignedCallee unparse value
    if callee = "" then V
    else
      match V.lookupImport (beforeFirstDot callee) (scopePath stack) with
      | none => V
      | some imp =>
        let b : LocalAssignmentBinding := ⟨id, scopePath stack, unparse value, callee, some imp,
          V.filePath, pos.lineno, pos.colOffset, .provenStatic⟩
        { V with localBindingsByScope := setItem V.localBindingsByScope (scopePath stack, id) b }
  | _ => V

def endsWithCall (s : String) : Bool := "()".toList.isSuffixOf s.toList

def attribution (unparse : Expr → String) (scope : String) (func : Expr) (args : List Expr) :
    Bool × String × Option ImportRecord × AttributionConfidence :=
  let importOfFirst : List Expr → Option ImportRecord
    | .name _ id _ :: _ => V.lookupImport id scope
    | _ => none
  match func with
  | .call _ (.name _ "getattr" _) inner _ => (true, "<dynamic>", importOfFirst inner, .unresolved)
  | .name _ "getattr" _ => (true, "<dynamic>", importOfFirst args, .unresolved)
  | .attr _ (.name _ base _) attr _ =>
    match V.lookupImport base scope with
    | some imp => (false, attr, some imp, .provenStatic)
    | none =>
      match V.lookupBinding base (scope.length + 1) scope with
      | some b => match b.attributedImport with
        | some imp => (false, attr, some imp, b.confidence)
        | none => (false, attr, none, .unresolved)
      | none => (false, attr, none, .unresolved)
  | .attr _ (.attr p value a c) attr _ =>
    (false, attr, V.lookupImport (beforeFirstDot (unparse (.attr p value a c))) scope, .provenStatic)
  | .attr _ _ attr _ => (false, attr, none, .provenStatic)
  | .name _ id _ => (false, id, V.lookupImport id scope, .provenStatic)
  | _ => (false, "", none, .provenStatic)

/-- The entry of `module_level_invocations`. -/
def invocation (unparse : Expr → String) : Expr → Option String
  | .name _ id _ => some id
  | .attr pos value attr ctx => some (unparse (.attr pos value attr ctx))
  | _ => none

def callRecord (unparse : Expr → String) (stack : ScopeStack) (pos : Pos) (func : Expr)
    (args : List Expr) : CallRecord :=
  let scope := scopePath stack
  let text := unparse func
  let (isDynamic, symbol, imp, confidence) := V.attribution unparse scope func args
  { callerScope := scope
    calleeExpr := if endsWithCall text then text else text ++ "()"
    attributedImport := imp
    targetSymbol := symbol
    callPath := [scope, text]
    file := V.filePath
    line := pos.lineno
    column := pos.colOffset
    attributionConfidence :=
      if imp.any fun i => !i.isWildcard then confidence else .unresolved
    isDynamic := isDynamic }

def visitCall (unparse : Expr → String) (stack : ScopeStack) (pos : Pos) (func : Expr)
    (args : List Expr) : Visitor :=
  { V with
    moduleLevelInvocations := V.moduleLevelInvocations ++
      if scopeType stack = .module then (invocation unparse func).toList else []
    calls := V.calls ++ [V.callRecord unparse stack pos func args] }

def visitNode (unparse : Expr → String) (declared : List String) (n : ScopeStack × Node) : Visitor :=
  match n.2 with
  | .stmt (.functionDef pos isAsync name args body decorators returns) =>
    let stmt := Stmt.functionDef pos isAsync name args body decorators returns
    { V with functions := setItem V.functions (scopePath n.1 ++ "." ++ name) stmt }
  | .stmt (.classDef _ name _ _ _ _) =>
    { V with classes := V.classes ++ [scopePath n.1 ++ "." ++ name] }
  | .stmt (.importStmt pos names) => V.visitImport declared n.1 pos names
  | .stmt (.importFrom pos module names level) =>
    V.visitImportFrom declared n.1 pos module names level
  | .stmt (.assign pos targets value) => V.visitAssign unparse n.1 pos targets value
  | .expr (.call pos func args _) => V.visitCall unparse n.1 pos func args
  | _ => V

end Visitor

def innerStack (stack : ScopeStack) : Node → ScopeStack
  | .stmt (.functionDef _ _ name _ _ _ _) => stack ++ [(.function, name)]
  | .stmt (.classDef _ name _ _ _ _) => stack ++ [(.class_, name)]
  | _ => stack

def scopedChildren (n : ScopeStack × Node) : List (ScopeStack × Node) :=
  n.2.children.map fun c => (innerStack n.1 n.2, c)

structure SourceFile where
  name : String
  body : Module

def stem (name : String) : String :=
  let tail := name.toList.reverse.takeWhile (· ≠ '.')
  let head := (name.toList.reverse.dropWhile (· ≠ '.')).drop 1
  if tail = [] ∨ head = [] then name else String.ofList head.reverse

def SourceFile.moduleName (f : SourceFile) : String :=
  if f.name = "target.py" ∨ f.name = "app.py" then "app" else stem f.name

def SourceFile.nodes (f : SourceFile) : List (ScopeStack × Node) :=
  TreeWalk.stack scopedChildren (nodesWeight (stmtNodes f.body))
    ((stmtNodes f.body).map fun n => ([(ScopeType.module, f.moduleName)], n))

def Visitor.analyzeFile (unparse : Expr → String) (declared : List String) (V : Visitor)
    (f : SourceFile) : Visitor :=
  f.nodes.foldl (fun V n => V.visitNode unparse declared n)
    { V with moduleName := f.moduleName, filePath := f.name }

/-- The visitor of the engine: all files in turn. -/
def analyzeFiles (unparse : Expr → String) (declared : List String) (files : List SourceFile) :
    Visitor :=
  files.foldl (Visitor.analyzeFile unparse declared)
    { moduleName := "app", filePath := ((files.head?).map (·.name)).getD "app.py" }

end TimeCodeSecurity.Reachability
