import TimeCodeSecurity.Foundations.Paths
import TimeCodeSecurity.Scanner.Run
import TimeCodeSecurity.Scanner.Tracker

/-! # The paths of a module

The order in which the parts of expressions and statements are evaluated, with every way to leave them.
A test sends the path where its value says; where the value leaves it open (the next item of a loop,
whether an operation raises, which handler matches) both ways are paths. A call may run closures, a
number of them nested. Bodies of `lambda` and of generators are not entered on their own.
-/
namespace TimeCodeSecurity.Execution
open Py Scanner
set_option autoImplicit false

inductive Exit
  | exc | ret | brk | cont
deriving DecidableEq, Repr

abbrev Path (α : Type) : Type := Paths Event Exit α

namespace Path
open Paths

def unknown (α : Type) : Path α := oneOf fun _ => True

def mayRaise : Path Unit := either (pure ()) (leave .exc)

def branch (v : Value) : Path Bool := oneOf fun b => v.truth.getD b = b

def evaluated (e : Expr) (v : Value) : Path Value := do
  emit (.eval e v)
  pure v

/-- The evaluation of `e` after its parts. -/
def finish (e : Expr) : Path Value := do
  mayRaise
  let v ← unknown Value
  evaluated e v

/-- `and` stops at a false value, `or` at a true one. -/
def shortCircuit (stop : Bool) : List (Path Value) → Path Value
  | [] => pure .none
  | [A] => A
  | A :: rest => do
    let v ← A
    if (← branch v) = stop then pure v else shortCircuit stop rest

def chain : List (Path Value) → Path Unit
  | [] => pure ()
  | A :: rest => do
    let _ ← A
    either (pure ()) (chain rest)

def bindUnknown (names : List String) : Path Unit := do
  let _ ← inOrder (names.map fun x => do
    let v ← unknown Value
    emit (.bind x v))
  pure ()

def enclosed (A : Path Unit) : Path Unit := do
  let r ← attempt A
  emit .leave
  resume r

def comprehension (iter : Path Unit) (names : List String) (parts : List (Path Value)) :
    Path Unit := do
  iter
  emit (.enterComprehension names)
  enclosed (repeated (either (do let _ ← anyOf parts; pure ()) (bindUnknown names)))

/-- A loop: `more` decides about the next round, `break` passes over `orelse`. -/
def loop (more : Path Bool) (body orelse : Path Unit) : Path Unit := do
  let round : Path Bool := do
    if ← more then
      match ← attempt body with
      | .error .cont => pure true
      | r => do
        resume r
        pure true
    else pure false
  match ← attempt (rounds round) with
  | .error .brk => pure ()
  | .ok () => orelse
  | r => resume r

end Path

open Path Paths

mutual

def targetIds : Expr → List String
  | .name _ id _ => [id]
  | .starred _ value _ => targetIds value
  | .tuple _ elts _ => targetIdsAll elts
  | .list _ elts _ => targetIdsAll elts
  | _ => []

def targetIdsAll : List Expr → List String
  | [] => []
  | e :: es => targetIds e ++ targetIdsAll es

end

def isConstant : Expr → Bool
  | .constant .. => true
  | _ => false

/-- Whether the element with number `i` of `value` is the one that goes to target `i`, with the value it
has when all the others have been evaluated. -/
def elementIsWhole (value : Expr) (i : ℕ) : Bool :=
  match value with
  | .tuple _ elts _ | .list _ elts _ =>
    decide (i < elts.length) && !(elts.take (i + 1)).any isStarred &&
      (quietAll elts || (elts[i]?).any isConstant)
  | _ => false

/-- A name with the expression its record is made of; `given` is its value where that is known. -/
structure TargetPart where
  name : String
  valueNode : Expr
  whole : Bool
  given : Option Value

mutual

def targetParts (value : Expr) (whole : Bool) (given : Option Value) : Expr → List TargetPart
  | .name _ id _ => [⟨id, value, whole, given⟩]
  | .starred _ target _ => targetParts value false none target
  | .tuple _ elts _ => elementParts value whole 0 elts
  | .list _ elts _ => elementParts value whole 0 elts
  | _ => []

/-- The elements from number `i` on; after a starred one the numbers do not match any more. -/
def elementParts (value : Expr) (whole : Bool) (i : ℕ) : List Expr → List TargetPart
  | [] => []
  | e :: es =>
    let fits := whole && !isStarred e
    targetParts (elementValue value i) (fits && elementIsWhole value i) none e ++
      elementParts value fits (i + 1) es

end

def looseParts (value : Expr) (target : Expr) : List TargetPart :=
  (targetIds target).map fun id => ⟨id, value, false, none⟩

def compute (line : ℕ) (parts : List TargetPart) : Path Unit := do
  let w ← unknown (ℕ → Value)
  emit (.compute line (parts.mapIdx fun i p => ⟨p.name, p.valueNode, p.whole, p.given.getD (w i)⟩))

/-! ## Expressions -/

section
variable (calls : Path Unit)

mutual

def exprPath : Expr → Path Value
  | .boolOp pos op values => do
    let v ← shortCircuit (op = .or) (exprPaths values)
    evaluated (.boolOp pos op values) v
  | .namedExpr pos target value => do
    let v ← exprPath value
    let _ ← inOrder ((targetIds target).map fun id => emit (.assign pos.lineno ⟨id, value, true, v⟩))
    evaluated (.namedExpr pos target value) v
  | .binOp pos left op right => do
    let _ ← exprPath left
    let _ ← exprPath right
    finish (.binOp pos left op right)
  | .unaryOp pos op operand => do
    let v ← exprPath operand
    if op = .not then do
      let b ← branch v
      evaluated (.unaryOp pos op operand) (.bool !b)
    else finish (.unaryOp pos op operand)
  | .lambda pos args body => do
    let _ ← inOrder (defaultPaths args)
    finish (.lambda pos args body)
  | .ifExp pos test body orelse => do
    let v ← exprPath test
    let w ← if ← branch v then exprPath body else exprPath orelse
    evaluated (.ifExp pos test body orelse) w
  | .dict pos keys values => do
    let _ ← inOrder (List.zipWith (fun k v => do k; v) (keyPaths keys) (exprPaths values))
    finish (.dict pos keys values)
  | .set pos elts => do
    let _ ← inOrder (exprPaths elts)
    finish (.set pos elts)
  | .listComp pos elt gens => do
    comprehension (firstIter gens) (gens.flatMap fun g => targetIds g.target)
      (exprPath elt :: generatorPaths gens)
    finish (.listComp pos elt gens)
  | .setComp pos elt gens => do
    comprehension (firstIter gens) (gens.flatMap fun g => targetIds g.target)
      (exprPath elt :: generatorPaths gens)
    finish (.setComp pos elt gens)
  | .dictComp pos key value gens => do
    comprehension (firstIter gens) (gens.flatMap fun g => targetIds g.target)
      (exprPath key :: exprPath value :: generatorPaths gens)
    finish (.dictComp pos key value gens)
  | .generatorExp pos elt gens => do
    comprehension (firstIter gens) (gens.flatMap fun g => targetIds g.target)
      (exprPath elt :: generatorPaths gens)
    finish (.generatorExp pos elt gens)
  | .await pos value => do
    let _ ← exprPath value
    calls
    finish (.await pos value)
  | .yield pos value => do
    optPath value
    calls
    finish (.yield pos value)
  | .yieldFrom pos value => do
    let _ ← exprPath value
    calls
    finish (.yieldFrom pos value)
  | .compare pos left ops comparators => do
    let _ ← exprPath left
    chain (exprPaths comparators)
    finish (.compare pos left ops comparators)
  | .call pos func args keywords => do
    let _ ← exprPath func
    let _ ← inOrder (exprPaths args)
    let _ ← inOrder (keywordPaths keywords)
    calls
    finish (.call pos func args keywords)
  | .formattedValue pos value conversion formatSpec => do
    let _ ← exprPath value
    optPath formatSpec
    finish (.formattedValue pos value conversion formatSpec)
  | .joinedStr pos values => do
    let _ ← inOrder (exprPaths values)
    finish (.joinedStr pos values)
  | .constant pos value => finish (.constant pos value)
  | .attr pos value attr ctx => do
    let _ ← exprPath value
    finish (.attr pos value attr ctx)
  | .subscript pos value index ctx => do
    let _ ← exprPath value
    let _ ← exprPath index
    finish (.subscript pos value index ctx)
  | .starred pos value ctx => do
    let _ ← exprPath value
    finish (.starred pos value ctx)
  | .name pos id ctx => finish (.name pos id ctx)
  | .list pos elts ctx => do
    let _ ← inOrder (exprPaths elts)
    finish (.list pos elts ctx)
  | .tuple pos elts ctx => do
    let _ ← inOrder (exprPaths elts)
    finish (.tuple pos elts ctx)
  | .slice pos lower upper step => do
    optPath lower
    optPath upper
    optPath step
    finish (.slice pos lower upper step)

def exprPaths : List Expr → List (Path Value)
  | [] => []
  | e :: es => exprPath e :: exprPaths es

def optPath : Option Expr → Path Unit
  | none => pure ()
  | some e => do
    let _ ← exprPath e
    pure ()

def keyPaths : List (Option Expr) → List (Path Unit)
  | [] => []
  | e :: es => optPath e :: keyPaths es

def keywordPaths : List (Keyword Expr) → List (Path Value)
  | [] => []
  | ⟨_, value⟩ :: ks => exprPath value :: keywordPaths ks

def defaultPaths : Arguments Expr → List (Path Unit)
  | ⟨_, _, _, _, kwDefaults, _, defaults⟩ =>
    (exprPaths defaults).map (fun A => do let _ ← A; pure ()) ++ keyPaths kwDefaults

/-- What the first `for` of a comprehension goes over, which is evaluated outside of it. -/
def firstIter : List (Comprehension Expr) → Path Unit
  | [] => pure ()
  | ⟨_, iter, _⟩ :: _ => do
    let _ ← exprPath iter
    pure ()

def generatorPaths : List (Comprehension Expr) → List (Path Value)
  | [] => []
  | ⟨_, iter, ifs⟩ :: gens => exprPath iter :: (exprPaths ifs ++ generatorPaths gens)

end

mutual

/-- The stores to a target, `i` being the number of its first name. -/
def storePath (i : ℕ) : Expr → Path Unit
  | .name _ _ _ => emit (.store i)
  | .starred _ target _ => storePath i target
  | .tuple _ elts _ => do
    mayRaise
    storePaths i elts
  | .list _ elts _ => do
    mayRaise
    storePaths i elts
  | .attr _ value _ _ => do
    let _ ← exprPath calls value
    calls
    mayRaise
  | .subscript _ value index _ => do
    let _ ← exprPath calls value
    let _ ← exprPath calls index
    calls
    mayRaise
  | _ => pure ()

def storePaths (i : ℕ) : List Expr → Path Unit
  | [] => pure ()
  | e :: es => do
    storePath i e
    storePaths (i + (targetIds e).length) es

end

def assignPath (line : ℕ) (parts : List TargetPart) (targets : List Expr) : Path Unit := do
  compute line parts
  storePaths calls 0 targets

/-! ## Statements -/

/-- `with`: the items from left to right, then the body; leaving may swallow an exception. -/
def withPath (line : ℕ) (body : Path Unit) : List WithItem → Path Unit
  | [] => body
  | item :: items => do
    let _ ← exprPath calls item.contextExpr
    calls
    mayRaise
    assignPath calls line (item.optionalVars.toList.flatMap (looseParts item.contextExpr))
      item.optionalVars.toList
    let r ← attempt (withPath line body items)
    calls
    match r with
    | .error .exc => either (pure ()) (leave .exc)
    | r => do
      mayRaise
      resume r

def deletePath : Expr → Path Unit
  | .name _ id _ => do
    mayRaise
    emit (.unbind id)
  | e => do
    let _ ← exprPath calls e
    calls
    mayRaise

def patternNames (p : Pattern) : List String := (Node.pattern p).walk.flatMap boundBy

mutual

/-- A statement; `owner` is the class of which it is a direct item. -/
def stmtPath (owner : Option String) : Stmt → Path Unit
  | .functionDef pos isAsync name args body decorators returns => do
    let _ ← inOrder (exprPaths calls decorators)
    let _ ← inOrder (defaultPaths calls args)
    emit (.define owner (.functionDef pos isAsync name args body decorators returns))
    if decorators.isEmpty then pure ()
    else do
      calls
      mayRaise
      bindUnknown [name]
  | .classDef _ name bases keywords body decorators => do
    let _ ← inOrder (exprPaths calls decorators)
    let _ ← inOrder (exprPaths calls bases)
    let _ ← inOrder (keywordPaths calls keywords)
    emit (.enterClass name body)
    enclosed (blockPath (some name) body)
    calls
    mayRaise
    bindUnknown [name]
  | .ret _ value => do
    optPath calls value
    leave .ret
  | .delete _ targets => do
    let _ ← inOrder (targets.map (deletePath calls))
    pure ()
  | .assign pos targets value => do
    let v ← exprPath calls value
    assignPath calls pos.lineno (targets.flatMap (targetParts value true (some v))) targets
  | .augAssign pos target op value =>
    match target with
    | .name p id _ => do
      let _ ← exprPath calls (.name p id .load)
      let _ ← exprPath calls value
      mayRaise
      let v ← unknown Value
      assignPath calls pos.lineno
        [⟨id, .binOp pos (.name pos id .load) op value, true, some v⟩] [target]
    | target => do
      let _ ← exprPath calls target
      let _ ← exprPath calls value
      calls
      mayRaise
  | .annAssign pos target _ (some value) => do
    let v ← exprPath calls value
    assignPath calls pos.lineno (targetParts value true (some v) target) [target]
  | .annAssign _ _ _ none => pure ()
  | .forLoop pos _ target iter body orelse => do
    let _ ← exprPath calls iter
    let more : Path Bool := do
      calls
      mayRaise
      unknown Bool
    loop more
      (do
        assignPath calls pos.lineno (looseParts iter target) [target]
        blockPath none body)
      (blockPath none orelse)
  | .whileLoop _ test body orelse => do
    let more : Path Bool := do
      let v ← exprPath calls test
      branch v
    loop more (blockPath none body) (blockPath none orelse)
  | .ifStmt _ test body orelse => do
    let v ← exprPath calls test
    if ← branch v then blockPath none body else blockPath none orelse
  | .withStmt pos _ items body => withPath calls pos.lineno (blockPath none body) items
  | .matchStmt _ subject cases => do
    let _ ← exprPath calls subject
    casesPath cases
  | .raise _ exc cause => do
    optPath calls exc
    optPath calls cause
    leave .exc
  | .tryStmt _ _ body handlers orelse finalbody => do
    let r ← attempt (do
      match ← attempt (blockPath none body) with
      | .ok () => blockPath none orelse
      | .error .exc => handlersPath handlers
      | r => resume r)
    blockPath none finalbody
    resume r
  | .assert _ test msg => do
    let v ← exprPath calls test
    if ← branch v then pure ()
    else do
      optPath calls msg
      leave .exc
  | .importStmt _ names => do
    mayRaise
    bindUnknown (names.map aliasName)
  | .importFrom _ _ names _ => do
    mayRaise
    bindUnknown (names.map aliasName)
  | .global _ _ => pure ()
  | .nonlocal _ _ => pure ()
  | .expr _ value => do
    let _ ← exprPath calls value
    pure ()
  | .pass _ => pure ()
  | .breakStmt _ => leave .brk
  | .continueStmt _ => leave .cont

def blockPath (owner : Option String) : List Stmt → Path Unit
  | [] => pure ()
  | s :: rest => do
    stmtPath owner s
    blockPath owner rest

def handlersPath : List (ExceptHandler Stmt) → Path Unit
  | [] => leave .exc
  | ⟨_, type, name, body⟩ :: rest => do
    optPath calls type
    either
      (do
        bindUnknown name.toList
        let r ← attempt (blockPath none body)
        let _ ← inOrder (name.toList.map fun x => emit (.unbind x))
        resume r)
      (handlersPath rest)

def casesPath : List (MatchCase Stmt) → Path Unit
  | [] => pure ()
  | ⟨p, guard, body⟩ :: rest =>
    either (casesPath rest)
      (do
        bindUnknown (patternNames p)
        match guard with
        | none => either (casesPath rest) (blockPath none body)
        | some g => do
          let v ← exprPath calls g
          if ← branch v then blockPath none body else casesPath rest)

end

end

def bodyOf : Stmt → List Stmt
  | .functionDef _ _ _ _ body _ _ => body
  | _ => []

def callPath (run : List Stmt → Path Unit) : Path Unit := do
  let c ← unknown ℕ
  let stmt ← unknown Stmt
  let args ← unknown (List (String × Value))
  emit (.call c stmt args)
  let r ← attempt (run (bodyOf stmt))
  emit .leave
  match r with
  | .error .exc => either (pure ()) (leave .exc)
  | _ => pure ()

def callsAt : ℕ → Path Unit
  | 0 => pure ()
  | n + 1 => repeated (callPath (blockPath (callsAt n) none))

def IsRun (body : Module) (tr : List Event) : Prop :=
  ∃ n rest r, blockPath (callsAt n) none body (tr ++ rest) r

end TimeCodeSecurity.Execution
