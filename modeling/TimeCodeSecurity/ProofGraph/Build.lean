import TimeCodeSecurity.Foundations.Chase
import TimeCodeSecurity.Scanner.StaticFold

/-! # Proof graphs

`ast_scanner.py`: the nodes and edges that document a finding. A taint value carries the nodes and
edges of its hops; `_build_proof_graph` adds the source and the sink to them, and
`_build_cwe22_proof_graph` builds a graph from the assignments that a provenance trace names.
-/
namespace TimeCodeSecurity.ProofGraph
open Py Scanner Trails
set_option autoImplicit false

/-! ## Nodes, edges and values -/

inductive ProofNodeType
  | source | assignment | paramBinding | callSite | transform | sanitizer | sink
deriving DecidableEq, Repr

def ProofNodeType.value : ProofNodeType → String
  | .source => "SOURCE"
  | .assignment => "ASSIGNMENT"
  | .paramBinding => "PARAM_BINDING"
  | .callSite => "CALL_SITE"
  | .transform => "TRANSFORM"
  | .sanitizer => "SANITIZER"
  | .sink => "SINK"

/-- `node_type.value.lower()`. -/
def ProofNodeType.tag : ProofNodeType → String
  | .source => "source"
  | .assignment => "assignment"
  | .paramBinding => "param_binding"
  | .callSite => "call_site"
  | .transform => "transform"
  | .sanitizer => "sanitizer"
  | .sink => "sink"

structure ProofNode where
  nodeId : String
  stepIndex : ℕ
  nodeType : ProofNodeType
  filePath : String
  startLine : ℕ
  endLine : ℕ
  symbol : String
  expressionSnippet : String
  scopeId : String
deriving DecidableEq, Repr

structure ProofEdge where
  fromNodeId : String
  toNodeId : String
  edgeType : String
deriving DecidableEq, Repr

inductive TaintState
  | clean | tainted | unknown
deriving DecidableEq, Repr

structure TaintValue where
  state : TaintState
  sourceId : Option String := none
  confidence : ℚ := 1
  path : List String := []
  lastOperation : Option String := none
  proofNodes : List ProofNode := []
  proofEdges : List ProofEdge := []

structure ProvenanceValue where
  confidence : ℚ := 1
  sourceId : Option String := none
  sourceTrace : List String := []

structure CodeLocation where
  file : String
  lineStart : ℕ

/-- A source or a sink, in the fields the graphs read. -/
structure SecurityNode where
  id : String
  symbol : String
  location : CodeLocation

structure SinkRecord where
  node : Expr
  lineno : ℕ
  scopeId : String

structure ProofGraphIR where
  findingId : String
  cwe : String
  confidence : ℚ
  nodes : List ProofNode
  edges : List ProofEdge

/-- What the builders read of the scan: its tables, its sources and `get_source_snippet`. -/
structure Scan where
  tracker : Tracker
  sources : List SecurityNode := []
  getSourceSnippet : String → ℕ → ℕ → Option Node → String := fun _ _ _ _ => ""

/-- `getattr(node, "lineno", …)` and `end_lineno`. -/
def nodePos : Node → Option Pos
  | .expr e => some e.pos
  | .stmt s => some s.pos
  | _ => none

/-- `lineno or node.lineno`, and line 1 without a node. -/
def startLineOf (lineno : ℕ) (node : Option Node) : ℕ :=
  if lineno ≠ 0 then lineno else (node.bind nodePos).elim 1 (·.lineno)

def nodeIdOf (type : ProofNodeType) (file : String) (line : ℕ) (symbol : String) (step : ℕ) : String :=
  type.tag ++ ":" ++ file ++ ":" ++ Nat.repr line ++ ":" ++ symbol ++ "#" ++ Nat.repr step

/-- `text or fallback`. -/
def orText (text fallback : String) : String := if text = "" then fallback else text

/-- `create_proof_node`; a caller that passes no line passes 0, and one that overrides no snippet the
empty text. -/
def createProofNode (S : Scan) (step : ℕ) (type : ProofNodeType) (file : String)
    (node : Option Node) (symbol scopeId : String) (lineno : ℕ) (overrideSnippet : String) :
    ProofNode :=
  let start := startLineOf lineno node
  let stop := (node.bind nodePos).elim start (·.endLineno)
  { nodeId := nodeIdOf type file start symbol step, stepIndex := step, nodeType := type,
    filePath := file, startLine := start, endLine := stop, symbol := symbol,
    expressionSnippet := orText overrideSnippet (S.getSourceSnippet file start stop node),
    scopeId := scopeId }

def sourceTaint (S : Scan) (sourceId file symbol scopeId : String) (node : Expr) : TaintValue :=
  { state := .tainted, sourceId := some sourceId, path := [sourceId], lastOperation := some symbol,
    proofNodes := [createProofNode S 0 .source file (some (.expr node)) symbol scopeId 0 ""] }

def TaintValue.hop (t : TaintValue) (S : Scan) (type : ProofNodeType) (file : String)
    (node : Option Node) (symbol scopeId : String) (lineno : ℕ) (overrideSnippet edgeType : String)
    (operation : String) : TaintValue :=
  let n := createProofNode S t.proofNodes.length type file node symbol scopeId lineno overrideSnippet
  { t with
    path := t.path ++ [file ++ ":" ++ symbol], lastOperation := some operation,
    proofNodes := t.proofNodes ++ [n],
    proofEdges := t.proofEdges ++
      (t.proofNodes.getLast?.map fun last => ⟨last.nodeId, n.nodeId, edgeType⟩).toList }

/-- A variable whose one reaching assignment has the value `t`. -/
def TaintValue.throughVariable (t : TaintValue) (S : Scan) (unparse : Expr → String)
    (file id : String) (r : AssignmentRecord) : TaintValue :=
  t.hop S .assignment file (some (.expr r.valueNode)) id r.scopeId r.lineno
    (orText (S.getSourceSnippet file r.lineno r.lineno none) (id ++ " = " ++ unparse r.valueNode))
    "ASSIGNMENT" ("variable:" ++ id)

def distinctBy {α β : Type} [DecidableEq β] (key : α → β) (items : List α) : List α :=
  items.foldl (fun kept a => if kept.any (fun b => key b = key a) then kept else kept ++ [a]) []

def mostConfident : TaintValue → List TaintValue → TaintValue
  | best, [] => best
  | best, t :: rest => mostConfident (if best.confidence < t.confidence then t else best) rest

/-- An f-string whose tainted parts are `t :: rest`: their nodes and edges side by side. -/
def formattedTaint (file : String) (t : TaintValue) (rest : List TaintValue) : TaintValue :=
  let best := mostConfident t rest
  { state := .tainted, sourceId := best.sourceId, confidence := best.confidence,
    path := distinctBy id ((t :: rest).flatMap (·.path)) ++ [file ++ ":f_string"],
    lastOperation := some "f_string",
    proofNodes := distinctBy (·.nodeId) ((t :: rest).flatMap (·.proofNodes)),
    proofEdges := distinctBy id ((t :: rest).flatMap (·.proofEdges)) }

def sinkNode (S : Scan) (sink : SecurityNode) (record : SinkRecord) (step : ℕ) : ProofNode :=
  let file := sink.location.file
  createProofNode S step .sink file (some (.expr record.node)) sink.symbol record.scopeId
    record.lineno (orText (S.getSourceSnippet file record.lineno record.lineno
      (some (.expr record.node))) (sink.symbol ++ "(...)"))

def recordedSource (S : Scan) (sourceId : Option String) : Option SecurityNode :=
  S.sources.find? fun s => some s.id = sourceId

def recordedSourceNode (S : Scan) (src : SecurityNode) (overrideSnippet : String) : ProofNode :=
  let file := src.location.file
  createProofNode S 0 .source file none src.symbol (file ++ ":global") src.location.lineStart
    overrideSnippet

def enclosingFunction (S : Scan) (scopeId : String) : Option (Stmt × String × List String) :=
  (S.tracker.functions.lookup scopeId).bind fun
    | .functionDef pos isAsync name args body decorators returns =>
      some (.functionDef pos isAsync name args body decorators returns, name,
        args.args.map (·.arg))
    | _ => none

def matchedParam (params trace : List String) : Option String :=
  (trace.findSome? fun p =>
    params.find? fun a => p = a ∨ (":" ++ a).toList.isSuffixOf p.toList).orElse fun _ =>
  match params with
  | [] => none
  | a :: rest => if a = "self" ∨ a = "cls" then some (rest.headD a) else some a

/-- `record.scope_id.split(":")[-1]`. -/
def lastScopePart (scopeId : String) : String :=
  String.ofList ((scopeId.toList.splitOn ':').getLast?.getD [])

def assumedSourceNode (S : Scan) (sink : SecurityNode) (record : SinkRecord) (trace : List String) :
    ProofNode :=
  let file := sink.location.file
  let enclosing := enclosingFunction S record.scopeId
  match enclosing, enclosing.bind fun f => matchedParam f.2.2 trace with
  | some (stmt, name, _), some param =>
    let line := stmt.pos.lineno
    createProofNode S 0 .source file (some (.stmt stmt)) (param ++ " (" ++ name ++ ")")
      record.scopeId line (orText (S.getSourceSnippet file line line (some (.stmt stmt)))
        ("def " ++ name ++ "(..., " ++ param ++ ", ...)"))
  | _, _ =>
    let func := match enclosing with
      | some (_, name, _) => name
      | none =>
        if contains ":" record.scopeId ∧ lastScopePart record.scopeId ≠ "global" then
          lastScopePart record.scopeId
        else "handler"
    let symbol := "user_input (" ++ func ++ ")"
    createProofNode S 0 .source file none symbol record.scopeId (max 1 (record.lineno - 1)) symbol

def hasSource (nodes : List ProofNode) : Bool := nodes.any fun n => n.nodeType = .source

def reindexed (nodes : List ProofNode) : List ProofNode :=
  nodes.mapIdx fun i n => { n with stepIndex := i }

def chainEdges (nodes : List ProofNode) : List ProofEdge :=
  (consecutive nodes).map fun p => ⟨p.1.nodeId, p.2.nodeId, p.2.nodeType.value⟩

def graphNodes (S : Scan) (taint : TaintValue) (sink : SecurityNode) (record : SinkRecord) :
    List ProofNode :=
  let nodes :=
    if taint.proofNodes.head?.any (fun n => n.nodeType = .source) then taint.proofNodes
    else
      match recordedSource S taint.sourceId with
      | some src =>
        let line := src.location.lineStart
        recordedSourceNode S src (orText (S.getSourceSnippet src.location.file line line none)
          ("Source: " ++ src.symbol)) :: taint.proofNodes
      | none => taint.proofNodes
  if hasSource nodes then nodes else assumedSourceNode S sink record taint.path :: nodes

def extendedEdges (edges : List ProofEdge) (nodes : List ProofNode) (sinkId : String) :
    List ProofEdge :=
  match nodes, nodes.dropLast.getLast? with
  | first :: second :: _, some incoming =>
    let sinkEdge : ProofEdge := ⟨incoming.nodeId, sinkId, ProofNodeType.sink.value⟩
    let edges := if sinkEdge ∈ edges then edges else edges ++ [sinkEdge]
    if edges.any fun e => e.fromNodeId = first.nodeId then edges
    else ⟨first.nodeId, second.nodeId, second.nodeType.value⟩ :: edges
  | _, _ => edges

def graphEdges (edges : List ProofEdge) (nodes : List ProofNode) (sinkId : String) :
    List ProofEdge :=
  if edges = [] then chainEdges nodes else extendedEdges edges nodes sinkId

def buildProofGraph (S : Scan) (taint : TaintValue) (sink : SecurityNode) (record : SinkRecord)
    (cwe : String) : ProofGraphIR :=
  let last := sinkNode S sink record taint.proofNodes.length
  let nodes := reindexed (graphNodes S taint sink record ++ [last])
  { findingId := "TimeCodeSecurity-IR-" ++ sink.id, cwe := orText cwe "UNKNOWN_CWE",
    confidence := taint.confidence, nodes := nodes,
    edges := graphEdges taint.proofEdges nodes last.nodeId }

def traceItem (item : String) : Option (String × String) :=
  if item.toList.head? = some '[' then none
  else (splitAtFirst [':'] item.toList).map fun p => (String.ofList p.1, String.ofList p.2)

def tracedAssignments (S : Scan) (trace : List String) :
    List ((String × String) × AssignmentRecord) :=
  (trace.filterMap traceItem).flatMap fun item =>
    ((S.tracker.scopesOf item.2).flatMap fun scope => S.tracker.records scope item.2).map
      fun r => (item, r)

def assignmentNode (S : Scan) (file var : String) (r : AssignmentRecord) (step : ℕ) : ProofNode :=
  createProofNode S step .assignment file (some (.expr r.valueNode)) var r.scopeId r.lineno
    (orText (S.getSourceSnippet file r.lineno r.lineno none) (var ++ " = ..."))

def addAssignment (S : Scan) (record : SinkRecord) (nodes : List ProofNode)
    (a : (String × String) × AssignmentRecord) : List ProofNode :=
  if a.2.lineno ≤ record.lineno then
    if nodes.any fun n => n.symbol = a.1.2 ∧ n.startLine = a.2.lineno then nodes
    else nodes ++ [assignmentNode S a.1.1 a.1.2 a.2 nodes.length]
  else nodes

def typeOrder : ProofNodeType → ℕ
  | .source => 0
  | .paramBinding => 1
  | .assignment => 2
  | .callSite => 3
  | .transform => 4
  | .sanitizer => 5
  | .sink => 6

/-- The order of the sort key `(start_line, type weight)`. -/
def lineOrder (a b : ProofNode) : Prop :=
  a.startLine < b.startLine ∨ a.startLine = b.startLine ∧ typeOrder a.nodeType ≤ typeOrder b.nodeType

instance : DecidableRel lineOrder := fun a b => by unfold lineOrder; infer_instance

def pathNodes (S : Scan) (prov : ProvenanceValue) (sink : SecurityNode) (record : SinkRecord) :
    List ProofNode :=
  let start := ((recordedSource S prov.sourceId).map fun src => recordedSourceNode S src "").toList
  let nodes := (tracedAssignments S prov.sourceTrace).foldl (addAssignment S record) start
  let nodes :=
    if hasSource nodes then nodes else assumedSourceNode S sink record prov.sourceTrace :: nodes
  nodes ++ [sinkNode S sink record nodes.length]

def buildCwe22ProofGraph (S : Scan) (prov : ProvenanceValue) (sink : SecurityNode)
    (record : SinkRecord) : ProofGraphIR :=
  let nodes := reindexed ((pathNodes S prov sink record).insertionSort lineOrder)
  { findingId := "TimeCodeSecurity-IR-" ++ sink.id, cwe := "CWE-22", confidence := prov.confidence,
    nodes := nodes, edges := chainEdges nodes }

end TimeCodeSecurity.ProofGraph
