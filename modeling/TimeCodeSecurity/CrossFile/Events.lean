import TimeCodeSecurity.CrossFile.Harvest
import TimeCodeSecurity.CrossFile.Resolution
import TimeCodeSecurity.Foundations.LabelFlow
import TimeCodeSecurity.Foundations.Rounds

/-! # The event catalogue

`cross_file_engine.py`, signals and tasks: which functions a dispatch on a handle reaches.
-/
namespace TimeCodeSecurity.CrossFile
open Py
set_option autoImplicit false

def signalEmissionMethods : List String := ["send", "send_robust"]
def taskDispatchMethods : List String := ["delay", "apply_async"]
def taskDecoratorNames : List String := ["shared_task", "task"]

variable (P : Project)

def resolveNameReference (modName name : String) : FuncKey :=
  match (P.index.modules.lookup modName).bind fun idx => idx.imports.lookup name with
  | some binding =>
    match (matchRegisteredModule P.index binding.sourceModule).filter (· ≠ "") with
    | some target => (target, orName binding.importedName name)
    | none => (modName, name)
  | none => (modName, name)

def resolveAttrReference (base attr : String) : FuncKey :=
  (((matchRegisteredModule P.index base).filter (· ≠ "")).getD base, attr)

def resolveReferenceFact (modName : String) (kind : ℕ) (name base : String) (baseBare : Bool) :
    Option FuncKey :=
  if kind = 0 then some (resolveNameReference P modName name)
  else if kind = 1 then
    if baseBare && (base = "self" || base = "cls") then none
    else if base = "" then none
    else some (resolveAttrReference P base name)
  else none

def resolveReference (modName : String) : Expr → Option FuncKey
  | .name _ id _ => some (resolveNameReference P modName id)
  | .attr _ value attr _ =>
    if (nameOf value).any fun id => id = "self" || id = "cls" then none
    else if dottedPrefix value = "" then none
    else some (resolveAttrReference P (dottedPrefix value) attr)
  | _ => none

def decoratorReference (modName : String) (d : DecoFacts) : Option FuncKey :=
  if d.label = some "receiver" ∧ d.isCall = true ∧ d.arg0kind ≠ 2 then
    resolveReferenceFact P modName d.arg0kind d.arg0name d.arg0base d.arg0bare
  else none

def Project.decorated : List (FuncKey × DecoFacts) :=
  P.facts.items.flatMap fun row => row.2.funcs.items.flatMap fun fn =>
    fn.2.decos.map fun d => ((row.1, fn.1), d)

def signalSubscribers (ref : FuncKey) : List FuncKey :=
  P.decorated.filterMap fun d => if decoratorReference P d.1.1 d.2 = some ref then some d.1 else none

def isTaskDefinition (ref : FuncKey) : Bool :=
  P.decorated.any fun d => d.1 = ref && d.2.label.any (· ∈ taskDecoratorNames)

/-- The handlers behind a dispatch `attr` on `ref`. -/
def dispatchTargets (attr : String) (ref : FuncKey) : List FuncKey :=
  if attr ∈ signalEmissionMethods then signalSubscribers P ref
  else if attr ∈ taskDispatchMethods ∧ isTaskDefinition P ref = true then [ref]
  else []

def siteReference (modName : String) (site : CallShape) : Option FuncKey :=
  resolveReferenceFact P modName site.rkind.code site.rname site.rbase site.rbaseBare

def dispatchAttrs : List String := signalEmissionMethods ++ taskDispatchMethods

def siteEmits (sinks : FuncKey → List ParamSinkEdge) (modName : String) (receivers : Receivers)
    (site : CallShape) : Bool :=
  ((resolveSiteContract P modName site receivers).any fun key => sinks key ≠ []) ||
    (site.fkind = .attr && site.fname ∈ dispatchAttrs &&
      (siteReference P modName site).any fun ref =>
        (dispatchTargets P site.fname ref).any fun key =>
          (P.contracts.lookup key).isSome && sinks key ≠ [])

/-- `_module_emits`: could any call of the module reach a contract with a sink? -/
def moduleEmits (sinks : FuncKey → List ParamSinkEdge) (modName : String) (facts : ModuleFacts) :
    Bool :=
  facts.funcs.items.any fun fn =>
    fn.2.calls.any fun call =>
      siteEmits P sinks modName (factReceivers P modName fn.1 fn.2) call.2

end TimeCodeSecurity.CrossFile

/-! ## Transitive sink contracts

`cross_file_engine.py`, `_propagate_transitive_sink_contracts` and `_lift_callee_sinks`: a function
that hands one of its parameters on, as a bare name, inherits the sinks of the parameter it lands in.
The lift repeats until no contract changes.
-/
namespace TimeCodeSecurity.CrossFile
open Rounds

variable (P : Project)

abbrev OriginKey := FuncKey × ℕ × String × ℕ

/-- The `param_sinks` of each contract and the two side tables. -/
structure PropState where
  sinks : FuncKey → List ParamSinkEdge
  origins : OriginKey → Option String
  route : OriginKey → List (String × ℕ × String)

def initialState : PropState :=
  { sinks := P.ownSinks, origins := fun _ => none, route := fun _ => [] }

/-- A call that hands the parameter `param` of its function to the slot `slot` of `callee`. -/
structure Forwarding where
  callLine : ℕ
  callee : FuncKey
  slot : ℕ
  param : ℕ
deriving DecidableEq, Repr

def siteForwardings (key : FuncKey) (receivers : Receivers) (call : ℕ × CallShape) :
    List Forwarding :=
  match resolveSiteContract P key.1 call.2 receivers with
  | none => []
  | some callee =>
    let neutralized := decoratorSanitizedParams P callee
    let bound := bindSiteArgs call.2 (P.params callee)
      (receiverOffsetSite P key.1 call.2 callee receivers)
    (List.range bound.length).filterMap fun slot =>
      if slot ∈ neutralized then none
      else (((bound[slot]?).join.join).bind (paramToIdx (P.params key))).map fun param =>
        ⟨call.1, callee, slot, param⟩

def forwardings (key : FuncKey) (func : FuncFacts) : List Forwarding :=
  func.calls.flatMap (siteForwardings P key (factReceivers P key.1 key.2 func))

/-- `edge` as the caller inherits it. -/
def Forwarding.lifted (fw : Forwarding) (key : FuncKey) (edge : ParamSinkEdge) : ParamSinkEdge :=
  { paramIdx := fw.param, paramName := (P.params key).getD fw.param "", sinkCwe := edge.sinkCwe,
    sinkName := edge.sinkName, lineno := edge.lineno }

def knownEdge (edges : List ParamSinkEdge) (param : ℕ) (edge : ParamSinkEdge) : Bool :=
  edges.any fun e => e.paramIdx = param && e.sinkCwe = edge.sinkCwe && e.sinkName = edge.sinkName &&
    e.lineno = edge.lineno

def PropState.addEdge (st : PropState) (key : FuncKey) (fw : Forwarding) (edge : ParamSinkEdge) :
    PropState :=
  let originKey : OriginKey := (fw.callee, edge.paramIdx, edge.sinkName, edge.lineno)
  let liftedKey : OriginKey := (key, fw.param, edge.sinkName, edge.lineno)
  { sinks := Function.update st.sinks key (st.sinks key ++ [fw.lifted P key edge])
    origins := Function.update st.origins liftedKey
      (some ((st.origins originKey).getD (P.filePath fw.callee)))
    route := Function.update st.route liftedKey
      ((P.filePath key, fw.callLine, key.1 ++ "." ++ key.2) :: st.route originKey) }

def liftEdge (key : FuncKey) (fw : Forwarding) (edge : ParamSinkEdge) : Step PropState := fun st =>
  if edge.paramIdx = fw.slot ∧ knownEdge (st.sinks key) fw.param edge = false then
    (st.addEdge P key fw edge, true)
  else (st, false)

/-- The loop over the callee's edges. In a self-call the source walks the list it appends to, which
`liftEdge_of_mem` shows to add nothing. -/
def liftForwarding (key : FuncKey) (fw : Forwarding) : Step PropState := fun st =>
  inOrder ((st.sinks fw.callee).map (liftEdge P key fw)) st

def liftCalleeSinks (fn : FuncKey × FuncFacts) : Step PropState :=
  if P.params fn.1 = [] then fun st => (st, false)
  else inOrder ((forwardings P fn.1 fn.2).map (liftForwarding P fn.1))

/-- Every function that has a row, module by module. -/
def Project.functions : List (FuncKey × FuncFacts) :=
  P.facts.items.flatMap fun row => row.2.funcs.items.map fun fn => ((row.1, fn.1), fn.2)

/-- One round over the functions, in the order `order` of the rows. -/
def propagationRound (order : List (FuncKey × FuncFacts)) : Step PropState :=
  inOrder (order.map (liftCalleeSinks P))

/-- `_propagate_transitive_sink_contracts` ends in the state `st`. -/
def PropagatesTo (order : List (FuncKey × FuncFacts)) (st : PropState) : Prop :=
  Loop (propagationRound P order) (initialState P) st

/-- An edge the caller already has is not lifted once more, whatever its slot. -/
theorem liftEdge_of_mem {st : PropState} {key : FuncKey} {fw : Forwarding} {edge : ParamSinkEdge}
    (hmem : edge ∈ st.sinks key) (hparam : edge.paramIdx = fw.param) :
    liftEdge P key fw edge st = (st, false) := by
  have hknown : knownEdge (st.sinks key) fw.param edge = true := by
    rw [knownEdge, List.any_eq_true]
    exact ⟨edge, hmem, by simp [hparam]⟩
  rw [liftEdge, if_neg]
  rintro ⟨-, hnew⟩
  rw [hknown] at hnew
  exact absurd hnew (by decide)

structure Sink where
  file : String
  line : ℕ
  name : String
  cwe : String
deriving DecidableEq, Repr

abbrev SinkKey := String × String × ℕ

def Sink.key (s : Sink) : SinkKey := (s.cwe, s.name, s.line)
def ParamSinkEdge.key (e : ParamSinkEdge) : SinkKey := (e.sinkCwe, e.sinkName, e.lineno)

abbrev ParamNode := FuncKey × ℕ

def OwnsSink (n : ParamNode) (s : Sink) : Prop :=
  ∃ e ∈ P.ownSinks n.1, e.paramIdx = n.2 ∧ e.key = s.key ∧ s.file = P.filePath n.1

def ForwardsTo (n m : ParamNode) : Prop :=
  ∃ func, P.funcFacts n.1 = some func ∧
    ∃ fw ∈ forwardings P n.1 func, fw.param = n.2 ∧ fw.callee = m.1 ∧ fw.slot = m.2

abbrev ReachesSink : ParamNode → Sink → Prop := LabelFlow.Reaches (OwnsSink P) (ForwardsTo P)

def PropState.hasEdge (st : PropState) (n : ParamNode) (k : SinkKey) : Prop :=
  ∃ e ∈ st.sinks n.1, e.paramIdx = n.2 ∧ e.key = k

/-- `sink_origins.get(key, summary.file_path)`. -/
def PropState.originFile (st : PropState) (n : ParamNode) (slot : String × ℕ) : String :=
  (st.origins (n.1, n.2, slot.1, slot.2)).getD (P.filePath n.1)

def PropState.ShowsSink (st : PropState) (n : ParamNode) (s : Sink) : Prop :=
  st.hasEdge n s.key ∧ st.originFile P n (s.name, s.line) = s.file

end TimeCodeSecurity.CrossFile
