import Mathlib.Data.Int.Bitwise
import TimeCodeSecurity.Py.Syntax

/-! # Values

The values that literals denote; everything else is an object with an identity. A container display is
read before it becomes such an object, and then its members are known. Operations have a result here
where literals determine it; elsewhere they have none and the evaluator asks its host.
-/
namespace TimeCodeSecurity.Py
set_option autoImplicit false

inductive Value
  | none
  | bool (b : Bool)
  | int (n : ℤ)
  | float (q : ℚ)
  | str (s : String)
  | bytes (s : String)
  | ellipsis
  | object (ident : ℕ)
deriving DecidableEq, Repr

namespace Value

def ofConstant : Constant → Value
  | .none => .none
  | .bool b => .bool b
  | .int n => .int n
  | .float q => .float q
  | .str s => .str s
  | .bytes s => .bytes s
  | .ellipsis => .ellipsis

def isLiteral : Value → Bool
  | .object _ => false
  | _ => true

/-- `isinstance(value, int)`: a truth value is an integer. -/
def asInt : Value → Option ℤ
  | .bool b => some (if b then 1 else 0)
  | .int n => some n
  | _ => Option.none

def asNumber : Value → Option ℚ
  | .bool b => some (if b then 1 else 0)
  | .int n => some n
  | .float q => some q
  | _ => Option.none

/-- `a == b` between literals. -/
def equal (a b : Value) : Bool :=
  match a.asNumber, b.asNumber with
  | some m, some n => m = n
  | Option.none, Option.none => a = b
  | _, _ => false

def truth : Value → Option Bool
  | .none => some false
  | .bool b => some b
  | .int n => some (n ≠ 0)
  | .float q => some (q ≠ 0)
  | .str s => some (s ≠ "")
  | .bytes s => some (s ≠ "")
  | .ellipsis => some true
  | .object _ => Option.none

/-- `op value`. -/
def unary (op : UnaryOp) (v : Value) : Option Value :=
  match op with
  | .not => v.truth.map fun b => .bool !b
  | .uSub => v.asInt.map fun n => .int (-n)
  | _ => Option.none

/-- `a op b`; the addition of floating-point numbers is a parameter. -/
def binary (addFloat : ℚ → ℚ → ℚ) (op : BinOp) (a b : Value) : Option Value :=
  match op with
  | .bitOr => match a, b with
    | .bool x, .bool y => some (.bool (x || y))
    | a, b => a.asInt.bind fun m => b.asInt.map fun n => .int (Int.lor m n)
  | .bitAnd => match a, b with
    | .bool x, .bool y => some (.bool (x && y))
    | a, b => a.asInt.bind fun m => b.asInt.map fun n => .int (Int.land m n)
  | .add => match a, b with
    | .str s, .str t => some (.str (s ++ t))
    | .bytes s, .bytes t => some (.bytes (s ++ t))
    | .float p, .float q => some (.float (addFloat p q))
    | a, b => a.asInt.bind fun m => b.asInt.map fun n => .int (m + n)
  | .sub => a.asInt.bind fun m => b.asInt.map fun n => .int (m - n)
  | .mult => a.asInt.bind fun m => b.asInt.map fun n => .int (m * n)
  | _ => Option.none

def joinParts (parts : List Value) : Option String :=
  parts.foldr (fun p rest => match p with
    | .str s => rest.map (s ++ ·)
    | _ => Option.none) (some "")

end Value

inductive Container
  | dict (items : List (Value × Value))
  | seq (elements : List Value)
deriving DecidableEq, Repr

def Container.entry (items : List (Value × Value)) (key : Value) : Option Value :=
  (items.reverse.find? fun kv => kv.1.equal key).map (·.2)

/-- `elements[i]`; a negative index counts from the end. -/
def Container.element (elements : List Value) (i : ℤ) : Option Value :=
  if 0 ≤ i then elements[i.toNat]?
  else if -i ≤ elements.length then elements[elements.length - (-i).toNat]? else none

/-- Whether the lookup of `key` compares literals only. -/
def Container.comparesLiterals (items : List (Value × Value)) (key : Value) : Bool :=
  key.isLiteral && items.all fun kv => kv.1.isLiteral

end TimeCodeSecurity.Py

/-! ## Evaluation of an expression

`vars` gives the names their values, `host` the results of whatever is not a literal, an operation on
literals or the look-up in a container display. No result means that the evaluation raises.
-/
namespace TimeCodeSecurity.Py

def isStarred : Expr → Bool
  | .starred .. => true
  | _ => false

def dictMethods : List String := ["get", "pop", "setdefault"]

/-- `container[key]`. -/
def Container.item (container : Container) (key : Value) (host : Option Value) : Option Value :=
  match container with
  | .dict items => if comparesLiterals items key then entry items key else host
  | .seq elements =>
    match key.asInt with
    | some i => element elements i
    | none => host

/-- `items.get(key, …)`, `items.pop(key, …)` or `items.setdefault(key, …)`. What comes after the key
may be unpacked from somewhere; then the host decides whether the call is possible. -/
def Container.method (name : String) (items : List (Value × Value)) (key : Value) (rest : List Expr)
    (defaults : List Value) (keywords : List (Keyword Expr)) (host : Option Value) : Option Value :=
  let unpacks := rest.any isStarred || !keywords.isEmpty
  if ¬comparesLiterals items key then host
  else if !unpacks && 2 ≤ rest.length then none
  else if unpacks && host = none then none
  else
    match entry items key with
    | some v => some v
    | none =>
      match defaults with
      | [] => if name = "pop" then none else some .none
      | d :: _ => if (rest.head?).any isStarred then host else some d

mutual

def quiet : Expr → Bool
  | .constant .. | .name .. => true
  | .unaryOp _ _ operand => quiet operand
  | .binOp _ left _ right => quiet left && quiet right
  | .joinedStr _ values => quietAll values
  | .subscript _ base index _ => quietDisplay base && quiet index
  | .call _ (.attr _ receiver name _) (arg :: _) _ =>
    decide (name ∈ dictMethods) && quietDisplay receiver && quiet arg
  | _ => false

def quietAll : List Expr → Bool
  | [] => true
  | e :: es => quiet e && quietAll es

def quietKeys : List (Option Expr) → Bool
  | [] => true
  | none :: _ => false
  | some e :: es => quiet e && quietKeys es

def quietDisplay : Expr → Bool
  | .list _ elts _ => quietAll elts
  | .tuple _ elts _ => quietAll elts
  | .dict _ keys values => quietKeys keys && quietAll values
  | _ => false

end

variable (addFloat : ℚ → ℚ → ℚ) (vars : String → Option Value) (host : Expr → Option Value)

mutual

def evalExpr : Expr → Option Value
  | .constant _ value => some (.ofConstant value)
  | .name _ id _ => vars id
  | .unaryOp pos op operand =>
    (evalExpr operand).bind fun v => (v.unary op).or (host (.unaryOp pos op operand))
  | .binOp pos left op right =>
    (evalExpr left).bind fun a => (evalExpr right).bind fun b =>
      (Value.binary addFloat op a b).or (host (.binOp pos left op right))
  | .joinedStr pos values =>
    (evalExprs values).bind fun parts =>
      ((Value.joinParts parts).map .str).or (host (.joinedStr pos values))
  | .subscript pos base index ctx =>
    (evalDisplay base).bind fun d => (evalExpr index).bind fun key =>
      match d with
      | some container => container.item key (host (.subscript pos base index ctx))
      | none => host (.subscript pos base index ctx)
  | .call pos (.attr p receiver name c) (arg :: rest) keywords =>
    (evalDisplay receiver).bind fun d => (evalExpr arg).bind fun key =>
      (evalDefaults rest).bind fun defaults =>
        match d with
        | some (.dict items) =>
          if name ∈ dictMethods ∧ ¬isStarred arg then
            Container.method name items key rest defaults keywords
              (host (.call pos (.attr p receiver name c) (arg :: rest) keywords))
          else host (.call pos (.attr p receiver name c) (arg :: rest) keywords)
        | _ => host (.call pos (.attr p receiver name c) (arg :: rest) keywords)
  | e => host e

def evalExprs : List Expr → Option (List Value)
  | [] => some []
  | e :: es => (evalExpr e).bind fun v => (evalExprs es).map (v :: ·)

def evalDefaults : List Expr → Option (List Value)
  | [] => some []
  | e :: es => (if quiet e then evalExpr e else host e).bind fun v => (evalDefaults es).map (v :: ·)

/-- The keys of a dictionary display without `**`. -/
def evalKeys : List (Option Expr) → Option (List Value)
  | [] => some []
  | none :: es => evalKeys es
  | some e :: es => (evalExpr e).bind fun v => (evalKeys es).map (v :: ·)

/-- The members of a display; `some none` for what is not a display with known members. -/
def evalDisplay : Expr → Option (Option Container)
  | .list _ elts _ =>
    if elts.any isStarred then some none else (evalExprs elts).map fun vs => some (.seq vs)
  | .tuple _ elts _ =>
    if elts.any isStarred then some none else (evalExprs elts).map fun vs => some (.seq vs)
  | .dict _ keys values =>
    if keys.any Option.isNone then some none
    else (evalKeys keys).bind fun ks => (evalExprs values).map fun vs => some (.dict (ks.zip vs))
  | _ => some none

end

end TimeCodeSecurity.Py
