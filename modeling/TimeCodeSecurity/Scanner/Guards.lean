import TimeCodeSecurity.Scanner.Tracker

/-! # Containment tests

Which names a test is taken to constrain, and the ranges of lines for which that is recorded.
-/
namespace TimeCodeSecurity.Scanner
open Py
set_option autoImplicit false

/-- What is not modelled of the rest: `ast.unparse`, and `resolve_canonical_name` without a scope. -/
structure Host where
  unparse : Expr → String
  canonicalName : Tracker → Expr → Option String

def isDocstring : Stmt → Bool
  | .expr _ (.constant _ _) => true
  | _ => false

def isPass : Stmt → Bool
  | .pass _ => true
  | _ => false

def isTrueConstant : Expr → Bool
  | .constant _ value => match value with
    | .ellipsis => true
    | .none => false
    | .bool b => b
    | .int n => n ≠ 0
    | .float q => q ≠ 0
    | .str s => s ≠ ""
    | .bytes s => s ≠ ""
  | _ => false

def returnsTrue : List Stmt → Bool
  | [.ret _ (some value)] => isTrueConstant value
  | _ => false

def isCheck : Node → Bool
  | .stmt (.ifStmt ..) | .stmt (.raise ..) | .stmt (.assert ..) => true
  | .stmt (.tryStmt _ isStar _ _ _ _) => !isStar
  | _ => false

def isValidation : Node → Bool
  | .expr (.compare ..) | .expr (.call ..) | .expr (.boolOp ..) => true
  | _ => false

/-- A validator that checks nothing, such as one that only returns `True`. -/
def isDummyValidatorFunc (func : Stmt) : Bool :=
  match func with
  | .functionDef _ _ _ _ body _ _ =>
    let meaningful := body.filter fun s => !isDocstring s && !isPass s
    match meaningful with
    | [] => true
    | [.ret _ none] => true
    | rest =>
      let walk := (Node.stmt func).walk
      returnsTrue rest || (!walk.any isCheck && !walk.any isValidation)
  | _ => false

def validators : List String :=
  ["is_safe_url", "validate_url", "check_domain_allowlist", "is_allowed_domain",
    "is_safe_redirect_url", "validate_redirect_url", "url_has_allowed_host_and_scheme",
    "is_relative_url", "is_private_ip", "validate_private_ip"]

def endsWith (text tail : String) : Bool := tail.toList.isSuffixOf text.toList
def startsWith (text head : String) : Bool := head.toList.isPrefixOf text.toList

def namesValidator (name : String) : Bool :=
  validators.any fun v => name = v || endsWith name ("." ++ v)

def functionName : Stmt → String
  | .functionDef _ _ name _ _ _ _ => name
  | _ => ""

/-- `text.split(".")[-1]`. -/
def afterLastDot (text : String) : String :=
  String.ofList (text.toList.reverse.takeWhile (· ≠ '.')).reverse

def Tracker.validatorNamed (T : Tracker) (short : String) : Option Stmt :=
  (T.functions.find? fun f => functionName f.2 = short || endsWith f.1 (":" ++ short)).map (·.2)

/-! ## Pairs of a name and what contains it -/

/-- `x.parents` or `x.resolve().parents`. -/
def targetFromParentsAttr : Expr → Option String
  | .attr _ value attr _ =>
    if attr = "parents" then
      match value with
      | .call _ (.attr _ inner "resolve" _) _ _ => dottedName inner
      | _ => dottedName value
    else none
  | _ => none

/-- `x.is_relative_to(…)` or `x.resolve().is_relative_to(…)`. -/
def targetFromRelativeTo : Expr → Option String
  | .call _ (.attr _ value "is_relative_to" _) _ _ =>
    match value with
    | .call _ (.attr _ inner "resolve" _) _ _ => dottedName inner
    | _ => dottedName value
  | _ => none

def nonempty (name : Option String) : Option String := name.filter (· ≠ "")

/-- The pairs of one membership test `left in comp` or `left not in comp`. -/
def membershipPairs (left comp : Expr) : List (String × Option Expr) :=
  match nonempty (targetFromParentsAttr comp) with
  | some target => [(target, some left)]
  | none =>
    match left with
    | .name _ id _ => [(id, some comp)]
    | .attr pos value attr ctx =>
      (nonempty (dottedName (.attr pos value attr ctx))).toList.map (·, some comp) ++
        match value with
        | .call _ _ (.name _ id _ :: _) _ => [(id, some comp)]
        | .call _ _ (.attr p v a c :: _) _ =>
          (nonempty (dottedName (.attr p v a c))).toList.map (·, some comp)
        | _ => []
    | .subscript _ (.name _ id _) index _ =>
      let name := match extractSubscriptKey index with
        | some key => subscriptPathKey id [key]
        | none => id
      [(name, some comp), (id, some comp)]
    | _ => []

def isSafeStart : Expr → Bool
  | .constant _ (.str s) => startsWith s "http://" || startsWith s "https://" || startsWith s "/"
  | _ => false

def isSafeStartArg : Expr → Bool
  | .tuple _ elts _ | .list _ elts _ => elts.any isSafeStart
  | e => isSafeStart e

def callPairs (H : Host) (T : Tracker) (pos : Pos) (func : Expr) (args : List Expr)
    (keywords : List (Keyword Expr)) : List (String × Option Expr) :=
  match func with
  | .attr _ _ "is_relative_to" _ =>
    match nonempty (targetFromRelativeTo (.call pos func args keywords)), args with
    | some target, base :: _ => [(target, some base)]
    | _, _ => []
  | .attr _ receiver "fullmatch" _ =>
    if dottedName receiver = some "re" then
      match args with
      | _ :: .name _ id _ :: _ => [(id, none)]
      | _ => []
    else
      match args with
      | .name _ id _ :: _ => [(id, none)]
      | _ => []
  | .attr _ receiver "startswith" _ =>
    match nonempty (dottedName receiver), args with
    | some target, start :: _ => if isSafeStartArg start then [(target, none)] else []
    | _, _ => []
  | _ =>
    let fnName := (dottedName func).getD ""
    let names := (nonempty (some fnName)).toList ++ (nonempty (H.canonicalName T func)).toList
    if names.any namesValidator then
      let arg := match args, keywords with
        | a :: _, _ => some a
        | [], k :: _ => some k.value
        | [], [] => none
      match arg with
      | none => []
      | some arg =>
        match T.validatorNamed (afterLastDot fnName) with
        | some f => if isDummyValidatorFunc f then [] else argPair arg
        | none => argPair arg
    else []
where
  argPair : Expr → List (String × Option Expr)
    | .name _ id _ => [(id, none)]
    | .attr _ _ attr _ => [(attr, none)]
    | _ => []

mutual

def extractContainmentPairs (H : Host) (T : Tracker) : Expr → List (String × Option Expr)
  | .compare _ left ops comparators =>
    (ops.zip comparators).flatMap fun t =>
      if t.1 = .in ∨ t.1 = .notIn then membershipPairs left t.2 else []
  | .unaryOp _ .not operand => extractContainmentPairs H T operand
  | .call pos func args keywords => callPairs H T pos func args keywords
  | .boolOp _ .and values => extractContainmentPairsAll H T values
  | _ => []

def extractContainmentPairsAll (H : Host) (T : Tracker) : List Expr → List (String × Option Expr)
  | [] => []
  | e :: es => extractContainmentPairs H T e ++ extractContainmentPairsAll H T es

end

/-- The names whose parsed form `name` is: `name = urlparse(url)` adds `url`. -/
def urlSources (withAttributes : Bool) (e : Expr) : List String :=
  (callsOf e).flatMap fun
    | .call _ func args _ =>
      if contains "urlparse" ((dottedName func).getD "") then
        match args with
        | .name _ id _ :: _ => [id]
        | .attr p v a c :: _ =>
          if withAttributes then (nonempty (dottedName (.attr p v a c))).toList else []
        | _ => []
      else []
    | _ => []

/-- `name[key]` as `(name, key)`, the quotes around the key taken off. -/
def splitElementName (name : String) : Option (String × String) :=
  if contains "[" name && endsWith name "]" then
    (splitAtFirst ['['] name.toList.dropLast).map fun p =>
      let isQuote := fun c : Char => c = '\'' || c = '"'
      (String.ofList p.1,
        String.ofList ((p.2.dropWhile isQuote).reverse.dropWhile isQuote).reverse)
  else none

def Tracker.expandRootUrlVars (T : Tracker) (scopeId : String) (line : ℕ) (name : String) :
    List String :=
  name :: (Tracker.dottedScopes (scopeId.length + 1) scopeId).flatMap fun scope =>
    ((T.records scope name).filter (·.lineno < line)).flatMap (fun r => urlSources true r.valueNode) ++
      match splitElementName name with
      | none => []
      | some (base, key) =>
        ((T.records scope base).filter (·.lineno < line)).flatMap fun r =>
          match r.valueNode with
          | .dict _ keys values =>
            (keys.zip values).flatMap fun kv =>
              if kv.1.bind (T.subscriptKey scope) = some (.str key) then urlSources false kv.2 else []
          | _ => []

def isInvertedTest : Expr → Bool
  | .unaryOp _ .not _ => true
  | .compare _ _ ops _ => ops.any fun op => op = .notIn || op = .notEq
  | _ => false

def isExit : Stmt → Bool
  | .raise .. | .ret .. => true
  | _ => false

def blockRange (block : List Stmt) : Option (ℕ × ℕ) :=
  block.head?.map fun s => (s.pos.lineno, (block.map (·.pos.endLineno)).foldl max 0)

/-- The lines for which an `if` establishes its pairs. -/
def guardRange (line : ℕ) (test : Expr) (body orelse : List Stmt) : Option (ℕ × ℕ) :=
  if isInvertedTest test && body.any isExit then some (line + 1, 999999)
  else if !isInvertedTest test && !body.isEmpty then blockRange body
  else if isInvertedTest test && !orelse.isEmpty then blockRange orelse
  else none

def Tracker.addGuards (T : Tracker) (H : Host) (scopeId : String) (line : ℕ) (test : Expr)
    (body orelse : List Stmt) : Tracker :=
  match guardRange line test body orelse with
  | none => T
  | some (first, last) =>
    let guards := (extractContainmentPairs H T test).flatMap fun p =>
      (T.expandRootUrlVars scopeId line p.1).map fun name =>
        (⟨name, p.2, scopeId, line, first, last⟩ : ContainmentGuard)
    { T with containmentGuards := T.containmentGuards ++ guards }

end TimeCodeSecurity.Scanner
