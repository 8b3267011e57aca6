import TimeCodeSecurity.Py.Syntax

/-! # Scope ids and names

A scope id is a text: `m:global` for a module, `m:function:f.g` for what is nested in it. The analysis
takes these texts apart again to find the module and the enclosing scopes.
-/
namespace TimeCodeSecurity.Scanner
open Py
set_option autoImplicit false

/-- `needle in text`. -/
def contains (needle text : String) : Bool :=
  text.toList.tails.any fun t => needle.toList.isPrefixOf t

/-- `text.rsplit(".", 1)[0]` for a text with a dot. -/
def beforeLastDot (text : String) : String :=
  String.ofList ((text.toList.reverse.dropWhile (· ≠ '.')).drop 1).reverse

/-- `text.split(".")[0]`. -/
def beforeFirstDot (text : String) : String :=
  String.ofList (text.toList.takeWhile (· ≠ '.'))

/-- `text.split(sep, 1)` for a text that contains `sep`. -/
def splitAtFirst (sep : List Char) : List Char → Option (List Char × List Char)
  | [] => none
  | c :: rest =>
    if sep.isPrefixOf (c :: rest) then some ([], (c :: rest).drop sep.length)
    else (splitAtFirst sep rest).map fun p => (c :: p.1, p.2)

def scopeModule (scopeId : String) : String :=
  match scopeId.toList.splitOn ':' with
  | [c] :: ('.' :: rest) :: _ =>
    if c.isAlpha then String.ofList (c :: ':' :: '.' :: rest) else String.ofList [c]
  | part :: _ => String.ofList part
  | [] => ""

/-- The scope of a function or class `name` that stands in `scopeId`. -/
def childScope (scopeId name : String) : String :=
  if contains ":global" scopeId then scopeModule scopeId ++ ":function:" ++ name
  else scopeId ++ "." ++ name

def methodScope (mod className name : String) : String :=
  mod ++ ":function:" ++ className ++ "." ++ name

def enclosingScope (mod scope : String) : Option String :=
  if contains "." scope && contains "function" scope then some (beforeLastDot scope)
  else if scope ≠ mod ++ ":global" then some (mod ++ ":global")
  else none

def scopeWalk (mod : String) : ℕ → List String → String → List String
  | 0, _, _ => []
  | fuel + 1, seen, scope =>
    if scope = "" ∨ scope ∈ seen then []
    else
      scope :: match enclosingScope mod scope with
        | some next => scopeWalk mod fuel (scope :: seen) next
        | none => []

def scopeChain (scopeId : String) : List String :=
  let mod := scopeModule scopeId
  scopeWalk mod (scopeId.length + mod.length + 10) [] scopeId

def isCursorCall : Expr → Bool
  | .call _ (.attr _ value attr _) _ _ => attr = "cursor" || isCursorCall value
  | _ => false

/-- A chain of attributes and calls, with `()` for each call. -/
def unrollChainedCall : Expr → Option String
  | .name _ id _ => some id
  | .attr _ value attr _ =>
    match unrollChainedCall value with
    | some parent => if parent = "" then some attr else some (parent ++ "." ++ attr)
    | none => some attr
  | .call _ func _ _ =>
    (unrollChainedCall func).bind fun f => if f = "" then none else some (f ++ "()")
  | _ => none

def dottedName : Expr → Option String
  | .name _ id _ => some id
  | .attr pos value attr ctx =>
    let plain :=
      match dottedName value with
      | some parent => if parent = "" then some attr else some (parent ++ "." ++ attr)
      | none => some attr
    if attr = "execute" && isCursorCall value then
      match unrollChainedCall (.attr pos value attr ctx) with
      | some unrolled => if unrolled = "" then plain else some unrolled
      | none => plain
    else plain
  | _ => none

inductive SubscriptKey
  | str (s : String)
  | int (n : ℤ)
  | bool (b : Bool)
  deriving DecidableEq, Repr

def SubscriptKey.label : SubscriptKey → String
  | .str s => s
  | .int n => toString n
  | .bool b => if b then "True" else "False"

def extractSubscriptKey : Expr → Option SubscriptKey
  | .constant _ (.str s) => some (.str s)
  | .constant _ (.int n) => some (.int n)
  | .constant _ (.bool b) => some (.bool b)
  | .unaryOp _ .uSub (.constant _ (.int n)) => some (.int (-n))
  | .unaryOp _ .uSub (.constant _ (.bool b)) => some (.int (if b then -1 else 0))
  | _ => none

/-- `root[k₁][k₂]…`, the name under which an element is recorded. -/
def subscriptPathKey (root : String) (keys : List SubscriptKey) : String :=
  keys.foldl (fun name key => name ++ "[" ++ key.label ++ "]") root

end TimeCodeSecurity.Scanner
