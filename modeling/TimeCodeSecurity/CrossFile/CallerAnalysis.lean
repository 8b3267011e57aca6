import TimeCodeSecurity.CrossFile.Events

/-! # The analysis of caller modules

`cross_file_engine.py`, `_analyze_module_calls`: the walk over a module's own tree that reports a
finding for each sink a tainted argument reaches, through a direct call or through a dispatch.
`ast.unparse` is a parameter.
-/
namespace TimeCodeSecurity.CrossFile
open Py
set_option autoImplicit false

variable (P : Project)

def resolveMethodContract (callerMod : String) (receiver : Expr) (attr : String)
    (receivers : Receivers) : Option FuncKey :=
  (match receiver with
    | .name _ id _ => receiverClass P receivers id callerMod
    | .call _ (.name _ ctor _) _ _ => classOfName P.index ctor callerMod
    | _ => none).bind fun ref => resolveInheritedMethod P ref attr

def resolveModuleAttributeContract (callerMod : String) (receiver : Expr) (attr : String) :
    Option FuncKey :=
  match receiver with
  | .name _ id _ => resolveModuleAttribute P callerMod id attr
  | _ => none

def resolveCalleeContract (callerMod : String) (receivers : Receivers) : Expr → Option FuncKey
  | .name _ id _ => resolveNamedContract P callerMod id
  | .attr _ value attr _ =>
    (resolveMethodContract P callerMod value attr receivers).or <|
      (resolveModuleAttributeContract P callerMod value attr).or <|
      resolveNamedContract P callerMod attr
  | _ => none

def resolveCallContract (callerMod : String) (receivers : Receivers) : Expr → Option FuncKey
  | .call _ func _ _ => resolveCalleeContract P callerMod receivers func
  | _ => none

def bindCallArgs (c : CallNode) (paramNames : List String) (offset : ℕ) : List (Option Expr) :=
  bindArgs c.args c.named paramNames offset

def receiverOffset (callerMod : String) (c : CallNode) (callee : FuncKey) (receivers : Receivers) :
    ℕ :=
  match c.func with
  | .attr _ (.name _ id _) attr _ =>
    if P.takesReceiver callee = true then unboundOffset P callerMod id attr callee receivers else 0
  | _ => 0

def bindNode (callerMod : String) (bindings : Receivers) (n : Node) : Receivers :=
  match constructorAssign n with
  | some recv => bindTargets P callerMod bindings recv
  | none => bindings

def instanceBindings (callerMod callerFunc : String) (f : FuncNode) : Receivers :=
  (ownScopeNodes f.node).foldl (bindNode P callerMod) (initialBindings callerMod callerFunc)

/-- The elements of `args=[...]` and the string-keyed entries of `kwargs={...}`. -/
def envelopeArgs (k : Keyword Expr) : List Expr :=
  match k.arg, k.value with
  | some "args", .list _ elts _ => elts
  | some "args", .tuple _ elts _ => elts
  | _, _ => []

def envelopeKeywords (k : Keyword Expr) : List (Keyword Expr) :=
  match k.arg, k.value with
  | some "kwargs", .dict _ keys values =>
    (keys.zip values).filterMap fun kv =>
      match kv.1 with
      | some (.constant _ (.str s)) => some ⟨some s, kv.2⟩
      | _ => none
  | _, _ => []

/-- `task.apply_async(args=[...], kwargs={...})` as the call it dispatches. -/
def dispatchCall (attr : String) (c : CallNode) : CallNode :=
  if attr = "apply_async" then
    let args := c.keywords.flatMap envelopeArgs
    let keywords := c.keywords.flatMap envelopeKeywords
    if args.isEmpty && keywords.isEmpty then c else { c with args := args, keywords := keywords }
  else c

def resolveEventEmission (callerMod : String) (c : CallNode) : List (FuncKey × CallNode) :=
  match c.func with
  | .attr _ value attr _ =>
    (((resolveReference P callerMod value).map (dispatchTargets P attr)).getD []).filterMap
      fun key => if (P.contracts.lookup key).isSome then some (key, dispatchCall attr c) else none
  | _ => []

/-! ## Findings -/

inductive HopRole
  | source | route | sink
deriving DecidableEq, Repr

structure TraceHop where
  role : HopRole
  filePath : String
  lineno : ℕ
  label : String
deriving DecidableEq, Repr

structure CrossFileFinding where
  cwe : String
  callerFile : String
  callerLineno : ℕ
  callerFunc : String
  calleeFile : String
  calleeFunc : String
  calleeSinkName : String
  calleeSinkLineno : ℕ
  taintedParam : String
  flowTrace : List TraceHop
deriving DecidableEq, Repr

/-- `sub in text`. -/
def containsText (text sub : String) : Bool := decide (sub.toList <:+: text.toList)

def taintSourcePatterns : List String :=
  ["request.GET", "request.POST", "request.data", "request.body", "request.args", "request.form",
    "request.params", "request.headers", "request.COOKIES", "request.query_params"]

def mentionsSource (text : String) : Bool := taintSourcePatterns.any (containsText text)
def mentionsTainted (tainted : List String) (text : String) : Bool := tainted.any (containsText text)

def sinkDescriptor (filePath : String) (lineno : ℕ) (fallback : String) : String :=
  match ((P.index.fileToModule filePath).filter (· ≠ "")).bind fun m =>
      (P.facts.lookup m).bind fun row => row.sinkLines.lookup lineno with
  | some (first, byTail) => (byTail.lookup fallback).getD first
  | none => fallback

structure Caller where
  modName : String
  file : String
  func : String

variable (unparse : Expr → String) (st : PropState)

def sinkFinding (caller : Caller) (line : ℕ) (callee : FuncKey) (sink : ParamSinkEdge) :
    CrossFileFinding :=
  let traceKey : OriginKey := (callee, sink.paramIdx, sink.sinkName, sink.lineno)
  let sinkFile := (st.origins traceKey).getD (P.filePath callee)
  { cwe := sink.sinkCwe, callerFile := caller.file, callerLineno := line,
    callerFunc := caller.modName ++ "." ++ caller.func, calleeFile := sinkFile,
    calleeFunc := callee.1 ++ "." ++ callee.2, calleeSinkName := sink.sinkName,
    calleeSinkLineno := sink.lineno, taintedParam := sink.paramName,
    flowTrace := ⟨.source, caller.file, line, caller.modName ++ "." ++ caller.func⟩ ::
      ((st.route traceKey).map (fun hop => ⟨.route, hop.1, hop.2.1, hop.2.2⟩) ++
        [⟨.sink, sinkFile, sink.lineno, sinkDescriptor P sinkFile sink.lineno sink.sinkName⟩]) }

def taintedSlots (callerMod : String) (c : CallNode) (callee : FuncKey) (tainted : List String)
    (receivers : Receivers) : List ℕ :=
  let bound := bindCallArgs c (P.params callee) (receiverOffset P callerMod c callee receivers)
  (List.range bound.length).filter fun slot =>
    slot ∉ decoratorSanitizedParams P callee &&
      ((bound[slot]?).join).any fun arg =>
        mentionsTainted tainted (unparse arg) || mentionsSource (unparse arg)

def emitContractFindings (caller : Caller) (c : CallNode) (callee : FuncKey) (tainted : List String)
    (receivers : Receivers) : List CrossFileFinding :=
  (taintedSlots P unparse caller.modName c callee tainted receivers).flatMap fun slot =>
    ((st.sinks callee).filter fun sink => sink.paramIdx = slot).map
      (sinkFinding P st caller c.lineno callee)

def checkCallAgainstContracts (caller : Caller) (c : CallNode) (tainted : List String)
    (receivers : Receivers) : List CrossFileFinding :=
  match resolveCalleeContract P caller.modName receivers c.func with
  | some callee => emitContractFindings P unparse st caller c callee tainted receivers
  | none => []

def emitEventFindings (caller : Caller) (c : CallNode) (tainted : List String)
    (receivers : Receivers) : List CrossFileFinding :=
  (resolveEventEmission P caller.modName c).flatMap fun e =>
    emitContractFindings P unparse st caller e.2 e.1 tainted receivers

def returnsTaintedArg (callerMod : String) (c : CallNode) (callee : FuncKey) (tainted : List String)
    (receivers : Receivers) : Bool :=
  let bound := bindCallArgs c (P.params callee) (receiverOffset P callerMod c callee receivers)
  (((P.contracts.lookup callee).map FunctionSummary.taintedReturns).getD []).any fun slot =>
    ((bound[slot]?).join).any fun arg =>
      ((Node.expr arg).walk.filterMap nodeName).any (· ∈ tainted)

def assignedTaint (callerMod : String) (value : Expr) (tainted : List String)
    (receivers : Receivers) : Bool :=
  mentionsSource (unparse value) ||
    match resolveCallContract P callerMod receivers value, callOf (.expr value) with
    | some callee, some c =>
      !((P.contracts.lookup callee).map FunctionSummary.isSanitizer).getD false &&
        returnsTaintedArg P callerMod c callee tainted receivers
    | _, _ => mentionsTainted tainted (unparse value)

def taintAfter (callerMod : String) (receivers : Receivers) (tainted : List String) :
    Stmt → List String
  | .assign _ targets value =>
    if assignedTaint P unparse callerMod value tainted receivers then
      tainted ++ targets.filterMap nameOf
    else tainted
  | _ => tainted

def initialTaint (f : FuncNode) : List String :=
  (f.args.args.map Arg.arg).filter fun name => name = "request" || name = "req"

def taintedStatements (callerMod : String) (receivers : Receivers) :
    List String → List Stmt → List (List String × Stmt)
  | _, [] => []
  | tainted, s :: rest =>
    let tainted := taintAfter P unparse callerMod receivers tainted s
    (tainted, s) :: taintedStatements callerMod receivers tainted rest

def analyzeFunctionBody (caller : Caller) (f : FuncNode) : List CrossFileFinding :=
  let receivers := instanceBindings P caller.modName caller.func f
  (taintedStatements P unparse caller.modName receivers (initialTaint f) f.body).flatMap fun ts =>
    (callsIn (.stmt ts.2)).flatMap fun c =>
      checkCallAgainstContracts P unparse st caller c ts.1 receivers ++
        emitEventFindings P unparse st caller c ts.1 receivers

def analyzeModuleCalls (modName file : String) (tree : Module) : List CrossFileFinding :=
  (contractedFunctions tree).flatMap fun fn =>
    analyzeFunctionBody P unparse st ⟨modName, file, fn.1⟩ fn.2

end TimeCodeSecurity.CrossFile
