import TimeCodeSecurity.Scanner.DeadCode
import TimeCodeSecurity.Scanner.Guards

/-! # The statement collection

`collect_statements`: one case per statement kind. Kinds without a case of their own fall through to
the last one and leave the tables as they are, together with everything below them.
-/
namespace TimeCodeSecurity.Scanner
open Py
set_option autoImplicit false

/-- `obj.verify = False`. -/
def disablesVerify (target value : Expr) : Bool :=
  match target, value with
  | .attr _ _ attr _, .constant _ (.bool b) => attr = "verify" && !b
  | _, _ => false

def Tracker.addSslAttrAssigns (T : Tracker) (stmt : Stmt) (scopeId : String) (lineno : ℕ)
    (targets : List Expr) (value : Expr) : Tracker :=
  { T with sslAttrAssigns := T.sslAttrAssigns ++
      (targets.filter fun t => disablesVerify t value).map fun _ => (stmt, scopeId, lineno) }

/-- One item of a `with`: its expression, then the names it binds. -/
def Tracker.visitWithItem (T : Tracker) (scopeId : String) (lineno : ℕ) (isConditional : Bool)
    (item : WithItem) : Tracker :=
  let T := T.visitExpr item.contextExpr scopeId lineno isConditional
  match item.optionalVars with
  | some vars => T.recordTargets scopeId isConditional lineno item.contextExpr vars
  | none => T

mutual

/-- One statement. `owner` is set for the direct items of a class body: its module and its name, from
which the scope of a method is made. -/
def collectStmt (H : Host) (owner : Option (String × String)) (scopeId : String)
    (isConditional : Bool) (T : Tracker) : Stmt → Tracker
  | .functionDef pos isAsync name args body decorators returns =>
    let child := match owner with
      | some (mod, cls) => methodScope mod cls name
      | none => childScope scopeId name
    collectStatements H none child false
      (T.addFunction child (.functionDef pos isAsync name args body decorators returns)) body
  | .classDef _ name _ _ body _ =>
    let cls := childScope scopeId name
    collectStatements H (some (scopeModule scopeId, name)) cls isConditional (T.addClass cls) body
  | .assign pos targets value =>
    let T := targets.foldl (fun T t => T.assignTarget scopeId isConditional pos.lineno value t) T
    (T.visitExpr value scopeId pos.lineno isConditional).addSslAttrAssigns
      (.assign pos targets value) scopeId pos.lineno targets value
  | .annAssign pos target _ (some value) =>
    (T.annAssignTarget scopeId isConditional pos.lineno value target).visitExpr value scopeId
      pos.lineno isConditional
  | .augAssign pos target op value =>
    let T := T.augAssignTarget scopeId isConditional pos.lineno value pos op target
    (T.visitExpr value scopeId pos.lineno isConditional).recordContainerMutation value scopeId
      pos.lineno
  | .ifStmt pos test body orelse =>
    let T := T.visitExpr test scopeId pos.lineno false
    let dead := isUnreachableTest H.unparse test
    let live := !dead && isTautologyTest H.unparse test
    let T := if dead then T else T.addGuards H scopeId pos.lineno test body orelse
    let T := if dead then T else collectStatements H none scopeId true T body
    if live then T else collectStatements H none scopeId true T orelse
  | .whileLoop pos test body orelse =>
    let T := T.visitExpr test scopeId pos.lineno false
    let T := collectStatements H none scopeId true T body
    collectStatements H none scopeId true T orelse
  | .forLoop pos _ target iter body orelse =>
    let T := T.visitExpr iter scopeId pos.lineno isConditional
    let T := T.recordTargets scopeId true pos.lineno iter target
    let T := collectStatements H none scopeId true T body
    collectStatements H none scopeId true T orelse
  | .tryStmt _ false body handlers orelse finalbody =>
    let T := collectStatements H none scopeId true T body
    let T := collectHandlers H scopeId T handlers
    let T := collectStatements H none scopeId true T orelse
    collectStatements H none scopeId false T finalbody
  | .withStmt pos _ items body =>
    let T := items.foldl (fun T item => T.visitWithItem scopeId pos.lineno isConditional item) T
    collectStatements H none scopeId isConditional T body
  | .ret pos value =>
    let T := T.addReturn scopeId (.stmt (.ret pos value))
    match value with
    | some value => T.visitExpr value scopeId pos.lineno isConditional
    | none => T
  | .expr pos value =>
    let T := match value with
      | .yield .. | .yieldFrom .. => T.addReturn scopeId (.expr value)
      | _ => T
    (T.recordContainerMutation value scopeId pos.lineno).visitExpr value scopeId pos.lineno
      isConditional
  | _ => T

def collectStatements (H : Host) (owner : Option (String × String)) (scopeId : String)
    (isConditional : Bool) (T : Tracker) : List Stmt → Tracker
  | [] => T
  | s :: rest =>
    collectStatements H owner scopeId isConditional
      (collectStmt H owner scopeId isConditional T s) rest

def collectHandlers (H : Host) (scopeId : String) (T : Tracker) :
    List (ExceptHandler Stmt) → Tracker
  | [] => T
  | ⟨_, _, _, body⟩ :: rest =>
    collectHandlers H scopeId (collectStatements H none scopeId true T body) rest

end

/-- The collection of one module into an empty tracker. -/
def collectModule (H : Host) (mod : String) (body : Module) : Tracker :=
  collectStatements H none (mod ++ ":global") false {} body

end TimeCodeSecurity.Scanner
