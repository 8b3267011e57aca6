import TimeCodeSecurity.Py.Value
import TimeCodeSecurity.Py.Node
import TimeCodeSecurity.Scanner.Names

/-! # The machine a module runs on

Frames with their names, closures, and the events that change them. A binding made by an assignment
keeps the assignment as its origin, with the fields of the record the collection makes of it; any other
binding (a parameter, an import, the name of a handler, a function or a class) has none. Containers are
objects here, so a change inside one changes no binding.
-/
namespace TimeCodeSecurity.Execution
open Py Scanner
set_option autoImplicit false

/-- The nodes that are evaluated in the scope of `n` itself. -/
def ownChildren : Node → List Node
  | .stmt (.functionDef _ _ _ args _ decorators _) =>
    exprNodes decorators ++ (someNodes args.kwDefaults ++ exprNodes args.defaults)
  | .stmt (.classDef _ _ bases keywords _ decorators) =>
    exprNodes bases ++ (keywords.map .keyword ++ exprNodes decorators)
  | .expr (.lambda _ args _) => someNodes args.kwDefaults ++ exprNodes args.defaults
  | .comprehension c => .expr c.iter :: exprNodes c.ifs
  | n => n.children

def aliasName (a : Alias) : String := a.asname.getD (beforeFirstDot a.name)

def boundBy : Node → List String
  | .expr (.name _ id ctx) => if ctx = .load then [] else [id]
  | .stmt (.functionDef _ _ name _ _ _ _) | .stmt (.classDef _ name _ _ _ _) => [name]
  | .stmt (.importStmt _ names) | .stmt (.importFrom _ _ names _) => names.map aliasName
  | .handler h => h.name.toList
  | .pattern (.matchAs _ name) | .pattern (.matchStar name) => name.toList
  | .pattern (.matchMapping _ _ rest) => rest.toList
  | _ => []

def declaredGlobal : Node → List String
  | .stmt (.global _ names) => names
  | _ => []

def declaredNonlocal : Node → List String
  | .stmt (.nonlocal _ names) => names
  | _ => []

def ownNodes (body : List Stmt) : List Node :=
  TreeWalk.queue ownChildren (nodesWeight (stmtNodes body)) (stmtNodes body)

def parameterNames (args : Arguments Expr) : List String :=
  (args.posonlyargs ++ args.args ++ args.vararg.toList ++ args.kwonlyargs ++ args.kwarg.toList).map
    (·.arg)

def globalNames (body : List Stmt) : List String := (ownNodes body).flatMap declaredGlobal

def localNames (args : Arguments Expr) (body : List Stmt) : List String :=
  parameterNames args ++ ((ownNodes body).flatMap boundBy).filter fun x =>
    x ∉ globalNames body ∧ x ∉ (ownNodes body).flatMap declaredNonlocal

/-! ## State -/

/-- The assignment a binding comes from. It is `whole` when the name was given the value of
`valueNode` itself and not a part of it. -/
structure Origin where
  targetName : String
  valueNode : Expr
  lineno : ℕ
  scopeId : String
  whole : Bool

structure Binding where
  value : Value
  origin : Option Origin

inductive FrameKind
  | module | function | classBody
deriving DecidableEq, Repr

structure Frame where
  kind : FrameKind
  scopeId : String
  /-- The frame in which names go on being looked up. -/
  parent : Option ℕ
  locals : List String
  globals : List String
  vars : String → Option Binding
  /-- What the assignment at hand has computed and not stored yet. -/
  pending : List (String × Binding)

structure Closure where
  stmt : Stmt
  scopeId : String
  parent : Option ℕ

/-- Frame 0 is the module's; `stack` has the running frames, the innermost first. -/
structure State where
  frames : List Frame
  stack : List ℕ
  closures : List Closure

namespace State

variable (σ : State)

def top : Option Frame := σ.stack.head?.bind (σ.frames[·]?)

def scopeId : String := (σ.top.map (·.scopeId)).getD ""

/-- The frame in which `x` is looked up from frame `f`. -/
def home (x : String) : ℕ → ℕ → Option ℕ
  | 0, _ => none
  | fuel + 1, f =>
    match σ.frames[f]? with
    | none => none
    | some frame =>
      if x ∈ frame.globals then some 0
      else
        match frame.kind with
        | .module => some f
        | .classBody =>
          if (frame.vars x).isSome then some f else frame.parent.bind (home x fuel)
        | .function => if x ∈ frame.locals then some f else frame.parent.bind (home x fuel)

/-- The frame that an assignment to `x` changes. -/
def storeHome (x : String) : Option ℕ :=
  σ.stack.head?.bind fun f =>
    match σ.frames[f]? with
    | none => none
    | some frame =>
      match frame.kind with
      | .classBody => if x ∈ frame.globals then some 0 else some f
      | _ => σ.home x σ.frames.length f

def lookup (x : String) : Option Binding :=
  σ.stack.head?.bind fun f =>
    (σ.home x σ.frames.length f).bind fun h => (σ.frames[h]?).bind fun frame => frame.vars x

def value (builtin : String → Option Value) (x : String) : Option Value :=
  match σ.lookup x with
  | some b => some b.value
  | none => builtin x

def modifyFrame (f : ℕ) (g : Frame → Frame) : State := { σ with frames := σ.frames.modify f g }

def setVar (x : String) (b : Option Binding) : State :=
  match σ.storeHome x with
  | some h => σ.modifyFrame h fun frame => { frame with vars := Function.update frame.vars x b }
  | none => σ

def setPending (bs : List (String × Binding)) : State :=
  match σ.stack.head? with
  | some f => σ.modifyFrame f fun frame => { frame with pending := bs }
  | none => σ

def push (frame : Frame) : State :=
  { σ with frames := σ.frames ++ [frame], stack := σ.frames.length :: σ.stack }

def pop : State := { σ with stack := σ.stack.tail }

def enclosing : Option ℕ :=
  match σ.stack.head?, σ.top with
  | some f, some frame =>
    match frame.kind with
    | .classBody => frame.parent
    | _ => some f
  | _, _ => none

/-- The scope id of a function defined here; `owner` is the class of which it is a direct item. -/
def definedScope (owner : Option String) (name : String) : String :=
  match owner with
  | some cls => methodScope (scopeModule σ.scopeId) cls name
  | none => childScope σ.scopeId name

def addClosure (stmt : Stmt) (scope : String) : State :=
  { σ with closures := σ.closures ++ [⟨stmt, scope, σ.enclosing⟩] }

def start (mod : String) : State where
  frames := [⟨.module, mod ++ ":global", none, [], [], fun _ => none, []⟩]
  stack := [0]
  closures := []

end State

structure Target where
  name : String
  valueNode : Expr
  whole : Bool
  value : Value

inductive Event
  | eval (e : Expr) (v : Value)
  /-- The values of an assignment that stands on the given line. -/
  | compute (line : ℕ) (targets : List Target)
  | store (i : ℕ)
  /-- An assignment expression. -/
  | assign (line : ℕ) (target : Target)
  | bind (name : String) (v : Value)
  | unbind (name : String)
  | define (owner : Option String) (stmt : Stmt)
  | call (closure : ℕ) (stmt : Stmt) (args : List (String × Value))
  | enterClass (name : String) (body : List Stmt)
  | enterComprehension (names : List String)
  | leave

/-- `e` can have the value `v` here. Where other code may run on the way, it can have any. -/
def Evaluates (addFloat : ℚ → ℚ → ℚ) (σ : State) (e : Expr) (v : Value) : Prop :=
  quiet e = true → ∃ builtin host, evalExpr addFloat (σ.value builtin) host e = some v

def Target.binding (σ : State) (line : ℕ) (t : Target) : Binding :=
  ⟨t.value, some ⟨t.name, t.valueNode, line, σ.scopeId, t.whole⟩⟩

def callFrame (c : Closure) (args : Arguments Expr) (body : List Stmt)
    (values : List (String × Value)) : Frame :=
  ⟨.function, c.scopeId, c.parent, localNames args body, globalNames body,
    fun x => (values.lookup x).map fun v => ⟨v, none⟩, []⟩

inductive Step (addFloat : ℚ → ℚ → ℚ) : State → Event → State → Prop
  | eval {σ e v} : Evaluates addFloat σ e v → Step addFloat σ (.eval e v) σ
  | compute {σ line targets} :
      (∀ t ∈ targets, t.whole = true → Evaluates addFloat σ t.valueNode t.value) →
      Step addFloat σ (.compute line targets) (σ.setPending (targets.map fun t => (t.name, t.binding σ line)))
  | store {σ i frame x b} : σ.top = some frame → frame.pending[i]? = some (x, b) →
      Step addFloat σ (.store i) (σ.setVar x (some b))
  | assign {σ line t} : (t.whole = true → Evaluates addFloat σ t.valueNode t.value) →
      Step addFloat σ (.assign line t) (σ.setVar t.name (some (t.binding σ line)))
  | bind {σ x v} : Step addFloat σ (.bind x v) (σ.setVar x (some ⟨v, none⟩))
  | unbind {σ x} : Step addFloat σ (.unbind x) (σ.setVar x none)
  | define {σ owner pos isAsync name args body decorators returns v} :
      Step addFloat σ (.define owner (.functionDef pos isAsync name args body decorators returns))
        ((σ.addClosure (.functionDef pos isAsync name args body decorators returns)
          (σ.definedScope owner name)).setVar name (some ⟨v, none⟩))
  | call {σ c pos isAsync name args body decorators returns closure values} :
      σ.closures[c]? = some closure →
      closure.stmt = .functionDef pos isAsync name args body decorators returns →
      values.map Prod.fst = parameterNames args →
      Step addFloat σ (.call c closure.stmt values) (σ.push (callFrame closure args body values))
  | enterClass {σ name body} :
      Step addFloat σ (.enterClass name body)
        (σ.push ⟨.classBody, childScope σ.scopeId name, σ.enclosing, [], globalNames body,
          fun _ => none, []⟩)
  | enterComprehension {σ names} :
      Step addFloat σ (.enterComprehension names)
        (σ.push ⟨.function, σ.scopeId, σ.enclosing, names, [], fun _ => none, []⟩)
  | leave {σ} : Step addFloat σ .leave σ.pop

inductive Steps (step : State → Event → State → Prop) : State → List Event → State → Prop
  | nil {σ} : Steps step σ [] σ
  | cons {σ σ' σ'' ev tr} : step σ ev σ' → Steps step σ' tr σ'' → Steps step σ (ev :: tr) σ''

theorem Steps.invariant {step : State → Event → State → Prop} {inv : State → Prop}
    (hstep : ∀ σ ev σ', inv σ → step σ ev σ' → inv σ') {σ σ' : State} {tr : List Event}
    (hs : Steps step σ tr σ') (h : inv σ) : inv σ' := by
  induction hs with
  | nil => exact h
  | cons h₁ _ ih => exact ih (hstep _ _ _ h h₁)

end TimeCodeSecurity.Execution
