import TimeCodeSecurity.Py.Node
import TimeCodeSecurity.Scanner.Names

/-! # The state of the statement collection

The tables `collect_statements` fills, as far as later phases read them. A table from keys to lists of
records is the list of all its records in the order they were made; a look-up filters it. The sink
tables are not part of it: the calls of `scan_for_sinks` are logged with their arguments instead.
-/
namespace TimeCodeSecurity.Scanner
open Py
set_option autoImplicit false

structure AssignmentRecord where
  targetName : String
  valueNode : Expr
  lineno : ℕ
  scopeId : String
  isConditional : Bool

/-- An entry of `containment_guards`. -/
structure ContainmentGuard where
  varName : String
  baseNode : Option Expr
  scopeId : String
  checkLine : ℕ
  startLine : ℕ
  endLine : ℕ

structure Tracker where
  assignments : List AssignmentRecord := []
  /-- Class scope, and the record; the record's own scope is that of the assignment. -/
  classFields : List (String × AssignmentRecord) := []
  functions : List (String × Stmt) := []
  classes : List String := []
  returns : List (String × Node) := []
  rawCalls : List (Expr × String × ℕ) := []
  scans : List (Expr × String × ℕ) := []
  containmentGuards : List ContainmentGuard := []
  listMutations : List ((String × String) × ℕ × Expr) := []
  fieldWrites : List ((String × String) × ℕ × Expr × String) := []
  sslAttrAssigns : List (Stmt × String × ℕ) := []

namespace Tracker

variable (T : Tracker)

/-- `assignments_by_scope.get((scope, name), [])`. -/
def records (scope name : String) : List AssignmentRecord :=
  T.assignments.filter fun r => r.scopeId = scope && r.targetName = name

/-- The scopes `a.b.c`, `a.b`, `a` of a dotted text. -/
def dottedScopes : ℕ → String → List String
  | 0, _ => []
  | fuel + 1, scope =>
    if scope = "" then []
    else scope :: if contains "." scope then dottedScopes fuel (beforeLastDot scope) else []

def enclosingClassScope (scopeId : String) : Option String :=
  match (dottedScopes (scopeId.length + 1) scopeId).find? fun s => s ∈ T.classes with
  | some cls => some cls
  | none =>
    match splitAtFirst ":function:".toList scopeId.toList with
    | some (mod, part) =>
      if '.' ∈ part then
        some (String.ofList mod ++ ":function:" ++ beforeFirstDot (String.ofList part))
      else none
    | none => none

def subscriptKey (scopeId : String) (index : Expr) : Option SubscriptKey :=
  match extractSubscriptKey index with
  | some key => some key
  | none =>
    match index with
    | .name _ id _ =>
      ((scopeChain scopeId).map fun s => T.records s id).find? (· ≠ [])
        |>.bind fun recs => recs.getLast?.bind fun r => extractSubscriptKey r.valueNode
    | _ => none

end Tracker

/-- `self.field` or `cls.field`. -/
def selfField : Expr → Option String
  | .attr _ (.name _ id _) attr _ => if id = "self" ∨ id = "cls" then some attr else none
  | _ => none

inductive SubscriptRoot
  | name
  | selfAttr

namespace Tracker

variable (T : Tracker)

/-- `root[k₁][k₂]…` with every key known. -/
def staticSubscriptPath (scopeId : String) :
    Expr → List SubscriptKey → Option (String × List SubscriptKey × SubscriptRoot)
  | .subscript _ value index _, keys =>
    match T.subscriptKey scopeId index with
    | some key => staticSubscriptPath scopeId value (key :: keys)
    | none => none
  | .name _ id _, keys => if keys = [] then none else some (id, keys, .name)
  | e, keys => if keys = [] then none else (selfField e).map fun field => (field, keys, .selfAttr)

def record (r : AssignmentRecord) : Tracker := { T with assignments := T.assignments ++ [r] }

def recordField (cls : String) (r : AssignmentRecord) : Tracker :=
  { T with classFields := T.classFields ++ [(cls, r)] }

def bindName (r : AssignmentRecord) : Tracker :=
  if r.scopeId ∈ T.classes then (T.record r).recordField r.scopeId r else T.record r

def bindField (r : AssignmentRecord) : Tracker :=
  match T.enclosingClassScope r.scopeId with
  | some cls => T.recordField cls r
  | none => T

/-- `self.field[key] = value` with an unknown key. -/
def writeField (field : String) (value : Expr) (lineno : ℕ) (scopeId : String) : Tracker :=
  match T.enclosingClassScope scopeId with
  | some cls => { T with fieldWrites := T.fieldWrites ++ [((cls, field), lineno, value, scopeId)] }
  | none => T

/-- `self.functions[scope] = stmt`: a scope keeps its place and takes the new definition. -/
def addFunction (scope : String) (stmt : Stmt) : Tracker :=
  if T.functions.any (·.1 = scope) then
    { T with functions := T.functions.map fun f => if f.1 = scope then (scope, stmt) else f }
  else { T with functions := T.functions ++ [(scope, stmt)] }

def addClass (scope : String) : Tracker := { T with classes := T.classes ++ [scope] }

def addReturn (scopeId : String) (n : Node) : Tracker :=
  { T with returns := T.returns ++ [(scopeId, n)] }

end Tracker

def callExpr : Node → Option Expr
  | .expr (.call pos func args keywords) => some (.call pos func args keywords)
  | _ => none

def callsOf (e : Expr) : List Expr := (Node.expr e).walk.filterMap callExpr

/-- `name := value` with its line. -/
def namedExpr : Node → Option (String × Expr × ℕ)
  | .expr (.namedExpr pos (.name _ id _) value) => some (id, value, pos.lineno)
  | _ => none

def namedExprsOf (e : Expr) : List (String × Expr × ℕ) := (Node.expr e).walk.filterMap namedExpr

namespace Tracker

variable (T : Tracker)

def scanForSinks (e : Expr) (scopeId : String) (lineno : ℕ) : Tracker :=
  { T with scans := T.scans ++ [(e, scopeId, lineno)] }

def collectCallsInExpr (e : Expr) (scopeId : String) : Tracker :=
  { T with rawCalls := T.rawCalls ++ (callsOf e).map fun c => (c, scopeId, c.pos.lineno) }

def collectNamedExprs (e : Expr) (scopeId : String) (isConditional : Bool) : Tracker :=
  (namedExprsOf e).foldl
    (fun T w => T.bindName ⟨w.1, w.2.1, w.2.2, scopeId, isConditional⟩) T

def visitExpr (e : Expr) (scopeId : String) (lineno : ℕ) (isConditional : Bool) : Tracker :=
  ((T.scanForSinks e scopeId lineno).collectCallsInExpr e scopeId).collectNamedExprs e scopeId
    isConditional

end Tracker

/-- `CONTAINER_MUTATION_METHODS`, with the argument that goes in. -/
def containerMutationMethods : List (String × ℕ) :=
  [("append", 0), ("add", 0), ("extend", 0), ("insert", 1), ("update", 0), ("setdefault", 1),
    ("push", 0)]

def Tracker.recordContainerMutation (T : Tracker) (e : Expr) (scopeId : String) (lineno : ℕ) :
    Tracker :=
  match e with
  | .call _ (.attr _ (.name _ id _) attr _) args _ =>
    match containerMutationMethods.lookup attr with
    | some i =>
      match args[i]? with
      | some arg => { T with listMutations := T.listMutations ++ [((scopeId, id), lineno, arg)] }
      | none => T
    | none => T
  | _ => T

/-! ## Assignment targets -/

def elementValue (value : Expr) (i : ℕ) : Expr :=
  match value with
  | .tuple _ elts _ | .list _ elts _ => elts.getD i value
  | _ => value

namespace Tracker

variable (T : Tracker) (scopeId : String) (isConditional : Bool) (lineno : ℕ) (value : Expr)

/-- `container[index] = value` under the name of the element; where the key is not known and
`dynamic` is set, as a write to the field. -/
def assignSubscript (dynamic : Bool) (container index : Expr) : Tracker :=
  match T.subscriptKey scopeId index with
  | some key =>
    match container with
    | .name _ id _ => T.record ⟨subscriptPathKey id [key], value, lineno, scopeId, isConditional⟩
    | container =>
      match selfField container with
      | some field =>
        T.bindField ⟨subscriptPathKey field [key], value, lineno, scopeId, isConditional⟩
      | none => T
  | none =>
    match selfField container with
    | some field => if dynamic then T.writeField field value lineno scopeId else T
    | none => T

/-- `root[k₁][k₂]… = value` with two keys or more. -/
def assignPath (target : Expr) : Tracker :=
  match T.staticSubscriptPath scopeId target [] with
  | some (root, keys, kind) =>
    if 2 ≤ keys.length then
      let r : AssignmentRecord := ⟨subscriptPathKey root keys, value, lineno, scopeId, isConditional⟩
      match kind with
      | .name => T.record r
      | .selfAttr => T.bindField r
    else T
  | none => T

def assignElement (element : Expr) : Tracker :=
  match element with
  | .name _ id _ => T.bindName ⟨id, value, lineno, scopeId, isConditional⟩
  | .subscript _ container index _ =>
    match T.subscriptKey scopeId index, container with
    | some key, .name _ id _ =>
      T.record ⟨subscriptPathKey id [key], value, lineno, scopeId, isConditional⟩
    | _, _ => T
  | element =>
    match selfField element with
    | some field => T.bindField ⟨field, value, lineno, scopeId, isConditional⟩
    | none => T

/-- One target of `ast.Assign`. -/
def assignTarget (target : Expr) : Tracker :=
  match target with
  | .name _ id _ => T.bindName ⟨id, value, lineno, scopeId, isConditional⟩
  | .subscript pos container index ctx =>
    (T.assignSubscript scopeId isConditional lineno value true container index).assignPath scopeId
      isConditional lineno value (.subscript pos container index ctx)
  | .tuple _ elts _ | .list _ elts _ =>
    elts.zipIdx.foldl (fun T e =>
      T.assignElement scopeId isConditional lineno (elementValue value e.2) e.1) T
  | target =>
    match selfField target with
    | some field => T.bindField ⟨field, value, lineno, scopeId, isConditional⟩
    | none => T

/-- The target of `ast.AnnAssign` with a value. -/
def annAssignTarget (target : Expr) : Tracker :=
  match target with
  | .name _ id _ => T.bindName ⟨id, value, lineno, scopeId, isConditional⟩
  | .subscript _ container index _ =>
    T.assignSubscript scopeId isConditional lineno value false container index
  | target =>
    match selfField target with
    | some field => T.bindField ⟨field, value, lineno, scopeId, isConditional⟩
    | none => T

/-- The target of `ast.AugAssign`; a name is recorded with `name op value`. -/
def augAssignTarget (pos : Pos) (op : BinOp) (target : Expr) : Tracker :=
  match target with
  | .name _ id _ =>
    T.bindName ⟨id, .binOp pos (.name pos id .load) op value, lineno, scopeId, isConditional⟩
  | .subscript _ container index _ =>
    T.assignSubscript scopeId isConditional lineno value true container index
  | target =>
    match selfField target with
    | some field => T.bindField ⟨field, value, lineno, scopeId, isConditional⟩
    | none => T

/-- The names a loop or `with` target binds; each is recorded with the whole value. -/
def targetNames : Expr → List String
  | .name _ id _ => [id]
  | .tuple _ elts _ | .list _ elts _ =>
    elts.filterMap fun
      | .name _ id _ => some id
      | _ => none
  | _ => []

def recordTargets (target : Expr) : Tracker :=
  (targetNames target).foldl (fun T id => T.record ⟨id, value, lineno, scopeId, isConditional⟩) T

end Tracker
end TimeCodeSecurity.Scanner
