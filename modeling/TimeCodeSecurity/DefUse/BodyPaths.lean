import TimeCodeSecurity.DefUse.Tracker
import TimeCodeSecurity.Foundations.Paths

/-! # The paths of a function body

What a run of a body binds, statement by statement, with every way through it. An event is the set of
bindings one statement makes at once. A binding that the tracker's walk records carries the number of its
entry there. Tests go both ways and any evaluation may raise. The statements are the assignments, `if`,
`for`, `while`, `try` and `with`, and those that bind nothing; a body with any other statement has no
path here.
-/
namespace TimeCodeSecurity.DefUse
open Py Paths
set_option autoImplicit false

/-- `value` is the expression whose value the name is given, where it is given the whole of it. -/
structure Binding where
  name : String
  value : Option Expr
  site : Option ℕ

inductive Exit
  | exc | ret | brk | cont

abbrev Path (α : Type) : Type := Paths (List Binding) Exit α

def isStarred : Expr → Bool
  | .starred .. => true
  | _ => false

/-- The assignment expressions in `e`, which bind while it is evaluated. -/
def namedBindings (e : Expr) : List Binding :=
  (Node.expr e).walk.filterMap fun
    | .expr (.namedExpr _ (.name _ id _) value) => some ⟨id, some value, none⟩
    | _ => none

/-- The element each target receives when `values` are unpacked. One that is starred leaves the places
open, and so does an assignment expression, which may bind an element that is read before. -/
def received (targets values : List Expr) : List (Option Expr) :=
  if values.any fun v => isStarred v || !(namedBindings v).isEmpty then
    List.replicate targets.length none
  else if targets.length = values.length then values.map some
  else
    let front := targets.findIdx isStarred
    (values.take front).map some ++
      (none :: (values.drop (values.length - (targets.length - front - 1))).map some)

def unpacked (targets : List Expr) : Option Expr → List (Option Expr)
  | some (.tuple _ values _) | some (.list _ values _) => received targets values
  | _ => []

mutual

def targetBindings (value : Option Expr) : Expr → List Binding
  | .name _ id _ => [⟨id, value, none⟩]
  | .starred _ target _ => targetBindings none target
  | .tuple _ elts _ => elementBindings (unpacked elts value) elts
  | .list _ elts _ => elementBindings (unpacked elts value) elts
  | _ => []

def elementBindings : List (Option Expr) → List Expr → List Binding
  | v :: vs, t :: ts => targetBindings v t ++ elementBindings vs ts
  | [], t :: ts => targetBindings none t ++ elementBindings [] ts
  | _, [] => []

end

/-- The elements of a recorded unpacking, the next entry being number `n`. -/
def sitedElements : Option ℕ → List (Option Expr) → List Expr → List Binding
  | n, v :: vs, .name _ id _ :: ts =>
    ⟨id, v, if v.isSome then n else none⟩ :: sitedElements (n.map (· + 1)) vs ts
  | n, v :: vs, t :: ts => targetBindings v t ++ sitedElements n vs ts
  | _, _, _ => []

def firstBindings (n : Option ℕ) (value : Expr) : Expr → List Binding
  | .name _ id _ => [⟨id, some value, n⟩]
  | .tuple pos elts ctx =>
    match value with
    | .tuple _ values _ =>
      if elts.length = values.length then sitedElements n (received elts values) elts
      else targetBindings (some value) (.tuple pos elts ctx)
    | value => targetBindings (some value) (.tuple pos elts ctx)
  | target => targetBindings (some value) target

def assignBindings (n : Option ℕ) (value : Expr) : List Expr → List Binding
  | [] => []
  | target :: more => firstBindings n value target ++ more.flatMap (targetBindings (some value))

def annBindings (n : Option ℕ) (value : Expr) : Expr → List Binding
  | .name _ id _ => [⟨id, some value, n⟩]
  | _ => []

/-! ## Statements -/

def mayRaise : Path Unit := either (pure ()) (leave .exc)

def evaluate (e : Expr) : Path Unit := do
  repeated (anyOf ((namedBindings e).map fun b => emit [b]))
  mayRaise

def evaluateOpt (e : Option Expr) : Path Unit := e.elim (pure ()) evaluate

def assignTo (bindings : List Binding) : Path Unit :=
  either (emit bindings)
    (anyOf (bindings.inits.map fun made => do
      emit made
      leave .exc))

/-- A loop: `more` decides about the next round, `break` passes over `orelse`. -/
def loop (more : Path Bool) (body orelse : Path Unit) : Path Unit := do
  let round : Path Bool := do
    if ← more then
      match ← attempt body with
      | .error .cont => pure true
      | r => do
        resume r
        pure true
    else pure false
  match ← attempt (rounds round) with
  | .error .brk => pure ()
  | .ok () => orelse
  | r => resume r

def withItems (body : Path Unit) : List WithItem → Path Unit
  | [] => body
  | item :: items => do
    evaluate item.contextExpr
    let r ← attempt (do
      assignTo (item.optionalVars.toList.flatMap (targetBindings none))
      withItems body items)
    match r with
    | .error .exc => either (pure ()) (leave .exc)
    | r => do
      mayRaise
      resume r

def afterSites (n : Option ℕ) (entries : List Entry) : Option ℕ := n.map (· + entries.length)

mutual

/-- A statement whose first entry in the walk has number `n`, or that the walk does not enter. -/
def stmtPath (n : Option ℕ) : Stmt → Path Unit
  | .assign _ targets value => do
    evaluate value
    assignTo (assignBindings n value targets)
  | .annAssign _ target _ (some value) => do
    evaluate value
    assignTo (annBindings n value target)
  | .annAssign _ _ _ none => pure ()
  | .augAssign _ target _ value => do
    evaluate value
    assignTo (targetBindings none target)
  | .forLoop _ false target iter body orelse => do
    evaluate iter
    loop (do mayRaise; either (pure true) (pure false))
      (do
        assignTo (targetBindings none target)
        blockPath n body)
      (blockPath none orelse)
  | .whileLoop _ test body orelse =>
    loop (do evaluate test; either (pure true) (pure false)) (blockPath n body)
      (blockPath none orelse)
  | .ifStmt _ test body orelse => do
    evaluate test
    either (blockPath n body) (blockPath (afterSites n (walkAll body)) orelse)
  | .withStmt _ false items body => withItems (blockPath none body) items
  | .tryStmt _ false body handlers orelse finalbody => do
    let r ← attempt (do
      match ← attempt (blockPath n body) with
      | .ok () => blockPath none orelse
      | .error .exc => handlersPath (afterSites n (walkAll body)) handlers
      | r => resume r)
    blockPath (afterSites (afterSites n (walkAll body)) (walkHandlers handlers)) finalbody
    resume r
  | .ret _ value => do
    evaluateOpt value
    leave .ret
  | .raise _ exc cause => do
    evaluateOpt exc
    evaluateOpt cause
    leave .exc
  | .assert _ test msg => do
    evaluate test
    either (pure ()) (do evaluateOpt msg; leave .exc)
  | .expr _ value => evaluate value
  | .pass _ => pure ()
  | .breakStmt _ => leave .brk
  | .continueStmt _ => leave .cont
  | _ => anyOf []

def blockPath (n : Option ℕ) : List Stmt → Path Unit
  | [] => pure ()
  | s :: rest => do
    stmtPath n s
    blockPath (afterSites n (walk s)) rest

def handlersPath (n : Option ℕ) : List (ExceptHandler Stmt) → Path Unit
  | [] => leave .exc
  | ⟨_, type, name, body⟩ :: rest => do
    evaluateOpt type
    either
      (do
        assignTo (name.toList.map fun x => ⟨x, none, none⟩)
        let r ← attempt (blockPath n body)
        assignTo (name.toList.map fun x => ⟨x, none, none⟩)
        resume r)
      (handlersPath (afterSites n (walkAll body)) rest)

end

end TimeCodeSecurity.DefUse
