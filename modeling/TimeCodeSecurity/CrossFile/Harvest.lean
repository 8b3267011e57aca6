import TimeCodeSecurity.CrossFile.Index
import TimeCodeSecurity.Py.Node

/-! # Harvesting a module

`cross_file_engine.py`, `_harvest_module` and the shapes it records: one row of facts from one tree.
-/
namespace TimeCodeSecurity.CrossFile
open Py
set_option autoImplicit false

def dottedParts : Expr → Option (List String)
  | .name _ id _ => some [id]
  | .attr _ value attr _ => (dottedParts value).map (· ++ [attr])
  | _ => none

/-- The dotted spelling of a name or attribute chain, empty for anything else. -/
def dottedPrefix (e : Expr) : String := ".".intercalate ((dottedParts e).getD [])

def isName : Expr → Bool
  | .name .. => true
  | _ => false

def nameOf : Expr → Option String
  | .name _ id _ => some id
  | _ => none

def calleeTail : Expr → String
  | .name _ id _ => id
  | .attr _ _ attr _ => attr
  | _ => ""

/-- A call node: its line, callee, arguments and keywords. -/
structure CallNode where
  lineno : ℕ
  func : Expr
  args : List Expr
  keywords : List (Keyword Expr)

def callOf : Node → Option CallNode
  | .expr (.call pos func args keywords) => some ⟨pos.lineno, func, args, keywords⟩
  | _ => none

def callsIn (n : Node) : List CallNode := n.walk.filterMap callOf

/-- The named keywords, `**` left out. -/
def CallNode.named (c : CallNode) : List (String × Expr) :=
  c.keywords.filterMap fun k => (k.arg.filter (· ≠ "")).map fun name => (name, k.value)

def calleeShape : Expr → CallShape
  | .name _ id _ => { fkind := .name, fname := id }
  | .attr _ value attr _ =>
    match value with
    | .name _ id _ => { fkind := .attr, fname := attr, rkind := .name, rname := id }
    | .call _ (.name _ id _) _ _ => { fkind := .attr, fname := attr, rkind := .ctor, rname := id }
    | .attr _ inner rattr _ =>
      { fkind := .attr, fname := attr, rkind := .attr, rname := rattr,
        rbase := dottedPrefix inner, rbaseBare := isName inner }
    | _ => { fkind := .attr, fname := attr }
  | _ => {}

def callShape (c : CallNode) : CallShape :=
  { calleeShape c.func with
    argn := c.args.map nameOf
    kwn := c.named.map fun k => (k.1, nameOf k.2) }

def decoratorLabel : Expr → Option String
  | .call _ (.name _ id _) _ _ => some id
  | .call _ (.attr _ _ attr _) _ _ => some attr
  | .name _ id _ => some id
  | .attr _ _ attr _ => some attr
  | _ => none

def decoFacts (decorator : Expr) : DecoFacts :=
  let label := decoratorLabel decorator
  match decorator with
  | .call _ _ (.name _ id _ :: _) _ =>
    { label := label, isCall := true, arg0kind := 0, arg0name := id }
  | .call _ _ (.attr _ value attr _ :: _) _ =>
    { label := label, isCall := true, arg0kind := 1, arg0name := attr,
      arg0base := dottedPrefix value, arg0bare := isName value }
  | .call .. => { label := label, isCall := true }
  | _ => { label := label, bare := label }

def readChildren : Node → List Node
  | .expr (.call _ (.name ..) args keywords) => exprNodes args ++ keywords.map .keyword
  | .expr (.call _ (.attr ..) args keywords) => exprNodes args ++ keywords.map .keyword
  | n => n.children

def nodeName : Node → Option String
  | .expr (.name _ id _) => some id
  | _ => none

def nameUses (e : Expr) : List String :=
  (TreeWalk.queue readChildren e.weight [.expr e]).filterMap nodeName

/-- The fields of a function definition. -/
structure FuncNode where
  pos : Pos
  name : String
  args : Arguments Expr
  body : List Stmt
  decorators : List Expr
  returns : Option Expr
  isAsync : Bool

def FuncNode.node (f : FuncNode) : Node :=
  .stmt (.functionDef f.pos f.isAsync f.name f.args f.body f.decorators f.returns)

def funcOf : Stmt → Option FuncNode
  | .functionDef pos isAsync name args body decorators returns =>
    some ⟨pos, name, args, body, decorators, returns, isAsync⟩
  | _ => none

def forwardedArg (argument : Expr) : ForwardedArg :=
  match argument with
  | .call _ func _ _ => ⟨nameUses argument, true, calleeTail func⟩
  | _ => ⟨nameUses argument, false, ""⟩

/-- What the first nested function passes on to the wrapped one. -/
def wrapperShape (f : FuncNode) : Option WrapperShape :=
  (f.body.findSome? funcOf).map fun wrapper =>
    if wrapper.args.vararg.isSome || wrapper.args.kwarg.isSome || wrapper.args.kwonlyargs ≠ [] then
      {}
    else
      let wrapped := f.args.args.map Arg.arg
      let calls := (callsIn wrapper.node).filter fun c => (nameOf c.func).any (· ∈ wrapped)
      match calls with
      | c :: _ =>
        if c.keywords = [] then
          { ok := true, wparams := wrapper.args.args.map Arg.arg, fargs := c.args.map forwardedArg }
        else {}
      | [] => {}

def isScope : Node → Bool
  | .stmt (.functionDef ..) => true
  | .stmt (.classDef ..) => true
  | .expr (.lambda ..) => true
  | _ => false

def ownScopeChildren (n : Node) : List Node := if isScope n then [] else n.children

/-- `_ordered_nodes(root, skip_scopes=True)`. -/
def ownScopeNodes (root : Node) : List Node :=
  root :: TreeWalk.stack ownScopeChildren root.weight root.children

/-- The bare names among the targets of `targets = ctor(...)`, and the constructor. -/
def constructorAssign : Node → Option (List String × String)
  | .stmt (.assign _ targets (.call _ (.name _ ctor _) _ _)) =>
    some (targets.filterMap nameOf, ctor)
  | _ => none

def harvestReceivers (f : FuncNode) : List (List String × String) :=
  ((ownScopeNodes f.node).filterMap constructorAssign).filter fun r => r.1 ≠ []

/-- The functions and methods with a contract, under their qualified names. -/
def contractedFunctions (tree : Module) : List (String × FuncNode) :=
  tree.flatMap fun stmt =>
    match stmt with
    | .functionDef .. => ((funcOf stmt).map fun f => (f.name, f)).toList
    | .classDef _ name _ _ body _ =>
      (body.filterMap funcOf).map fun f => (name ++ "." ++ f.name, f)
    | _ => []

def funcFactsOf (f : FuncNode) : FuncFacts :=
  { recv := harvestReceivers f
    calls := (callsIn f.node).map fun c => (c.lineno, callShape c)
    decos := f.decorators.map decoFacts
    wrapper := wrapperShape f }

def baseSpelling : Expr → Option String
  | .name _ id _ => some id
  | .attr _ _ attr _ => some attr
  | _ => none

def isSignalFactory : Expr → Bool
  | .call _ func _ _ => calleeTail func = "Signal"
  | _ => false

def addSinkLine (unparse : Expr → String) (lines : SinkLines) (c : CallNode) : SinkLines :=
  match lines.lookup c.lineno with
  | none => lines.insert c.lineno (unparse c.func, ∅)
  | some (first, byTail) =>
    let tail := calleeTail c.func
    if tail = "" || (byTail.lookup tail).isSome then lines
    else lines.insert c.lineno (first, byTail.insert tail (unparse c.func))

/-- `ast.walk` over a module. -/
def moduleWalk (tree : Module) : List Node :=
  TreeWalk.queue Node.children (stmtsWeight tree) (stmtNodes tree)

def harvestSinkLines (unparse : Expr → String) (sinkLines : List ℕ) (tree : Module) : SinkLines :=
  (((moduleWalk tree).filterMap callOf).filter fun c => c.lineno ∈ sinkLines).foldl
    (addSinkLine unparse) ∅

def harvestModule (unparse : Expr → String) (summaries : List FunctionSummary) (tree : Module) :
    ModuleFacts :=
  { funcs := (contractedFunctions tree).foldl (fun d fn => d.insert fn.1 (funcFactsOf fn.2)) ∅
    bases := tree.foldl (fun d stmt =>
      match stmt with
      | .classDef _ name bases _ _ _ => d.insert name (bases.map baseSpelling)
      | _ => d) ∅
    signals := tree.flatMap fun stmt =>
      match stmt with
      | .assign _ targets value => if isSignalFactory value then targets.filterMap nameOf else []
      | _ => []
    sinkLines := harvestSinkLines unparse
      (summaries.flatMap fun s => s.paramSinks.map ParamSinkEdge.lineno) tree }

end TimeCodeSecurity.CrossFile
