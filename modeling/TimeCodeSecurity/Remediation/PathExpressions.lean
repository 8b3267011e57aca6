import TimeCodeSecurity.Foundations.PosixPaths
import TimeCodeSecurity.Py.Syntax

/-! # Path expressions

`Cwe22PathTraversalTransformer` cuts a path expression into a base and a file name and resolves the name
against the base. What belongs to the expression is read off its tree: every summand of a concatenation, every
argument of a join.
-/
namespace TimeCodeSecurity.Remediation
open Py PosixPath
set_option autoImplicit false

/-- A redundant `str(...)` is taken off; keywords of the call are not looked at. -/
def unwrapStr : Expr → Expr
  | .call pos (.name p id c) [x] keywords => if id = "str" then x else .call pos (.name p id c) [x] keywords
  | e => e

/-- `_flatten_binop_add`, as the transformers for queries and commands have it. -/
def flattenBinopAdd : Expr → List Expr
  | .binOp _ left .add right => flattenBinopAdd left ++ flattenBinopAdd right
  | e => [e]

/-- `_decompose_path_expression`: the base and the file name, or the limitation. -/
def decomposePathExpression : Expr → Except String (Expr × Expr)
  | .binOp _ left .add right => .ok (left, unwrapStr right)
  | .call _ (.attr _ _ "join" _) (a :: b :: _) _ => .ok (a, b)
  | _ => .error
    "Path expression must be a concatenation (+) or os.path.join() between base directory and filename"

/-- What a line of the emitted block binds its variable to: `Path({base_expr}).resolve()` or
`(safe_base / {file_expr}).resolve()`. -/
inductive GuardValue
  | resolved (base : Expr)
  | behindBase (file : Expr)

/-- The assignments of the emitted block; behind them `{var_name}` has to be relative to `safe_base`. The
variable is the argument of the sink, or `target_path`. -/
def guardBlock (varName : String) (base file : Expr) : List (String × GuardValue) :=
  [("safe_base", .resolved base), (varName, .behindBase file)]

/-- `ast._Precedence`, loosest first; `EXPR` is `bor`. -/
inductive Level
  | namedExpr | tuple | yield | test | or | and | not | cmp | bor | bxor | band | shift | arith | term | factor
  | power | await | atom
deriving DecidableEq, Repr

def opLevel : BinOp → Level
  | .add | .sub => .arith
  | .mult | .matMult | .div | .mod | .floorDiv => .term
  | .lShift | .rShift => .shift
  | .bitOr => .bor
  | .bitXor => .bxor
  | .bitAnd => .band
  | .pow => .power

def level : Expr → Level
  | .namedExpr .. => .namedExpr
  | .tuple .. => .tuple
  | .yield .. | .yieldFrom .. => .yield
  | .lambda .. | .ifExp .. => .test
  | .boolOp _ .or _ => .or
  | .boolOp _ .and _ => .and
  | .unaryOp _ .not _ => .not
  | .compare .. => .cmp
  | .binOp _ _ op _ => opLevel op
  | .unaryOp .. => .factor
  | .await .. => .await
  | _ => .atom

def safeBase : Expr := .name {} "safe_base" .load

/-- The expression that `safe_base / {e}` is read as, with `e` printed where a `place` is expected: an operator
that binds no tighter than the slash takes the quotient of its first operand. -/
def behindSlash (place : Level) (e : Expr) : Option Expr :=
  if (level e).ctorIdx < place.ctorIdx then some (.binOp {} safeBase .div e)
  else match e with
  | .binOp pos l op r =>
    if op = .pow then some (.binOp {} safeBase .div (.binOp pos l op r))
    else (behindSlash (opLevel op) l).map fun l' => .binOp pos l' op r
  | .boolOp pos .or (v :: vs) => (behindSlash .and v).map fun v' => .boolOp pos .or (v' :: vs)
  | .boolOp pos .and (v :: vs) => (behindSlash .not v).map fun v' => .boolOp pos .and (v' :: vs)
  | .ifExp pos test body orelse => (behindSlash .or body).map fun body' => .ifExp pos test body' orelse
  | .compare pos l ops comparators => (behindSlash .bor l).map fun l' => .compare pos l' ops comparators
  | .unaryOp _ .not _ | .lambda .. | .starred .. => none
  | e => some (.binOp {} safeBase .div e)

def quotients : Expr → List Expr
  | .binOp _ l .div r => quotients l ++ [r]
  | e => [e]

def divides (place : Level) (e : Expr) : Bool :=
  (level e).ctorIdx < place.ctorIdx ||
  match e with
  | .binOp _ l op _ => op = .pow || (op = .div && divides .term l)
  | .boolOp _ _ (_ :: _) | .ifExp .. | .compare .. | .unaryOp _ .not _ | .lambda .. | .starred .. => false
  | _ => true

def summands : Expr → List Expr
  | .binOp _ l .add r => summands l ++ [r]
  | e => [e]

def operandsOf : Expr → List Expr
  | .call _ _ args keywords => args ++ keywords.map (·.value)
  | e => summands e

def isSum : Expr → Bool
  | .binOp _ _ .add _ => true
  | _ => false

def isStarred : Expr → Bool
  | .starred .. => true
  | _ => false

/-- The operand itself, or what its `str()` shows. -/
def Appears (operand shown : Expr) : Prop :=
  shown = operand ∨ ∃ pos p c, operand = .call pos (.name p "str" c) [shown] []

/-! ## Values -/

/-- A value at run time, as far as paths go. Bytes are known by what stands between the quotes of their literal,
a path of `pathlib` by a text it is made from, anything else by its `str()`. -/
inductive PathValue
  | text (s : Text)
  | bytes (s : Text)
  | path (s : Text)
  | other (shown : Text)

/-- `str(value)`. -/
def PathValue.str : PathValue → Text
  | .text s => s
  | .bytes s => ['b', '\''] ++ s ++ ['\'']
  | .path s => plain s
  | .other shown => shown

def PathValue.spelled : PathValue → Text
  | .bytes s => s
  | v => v.str

/-- `os.fspath(value)` where it is a text. -/
def PathValue.fspath : PathValue → Option Text
  | .text s => some s
  | .path s => some (plain s)
  | _ => none

def PathValue.isPath : PathValue → Bool
  | .path _ => true
  | _ => false

def PathValue.content : PathValue → Option Text
  | .bytes s => some s
  | _ => none

def concatenated : PathValue → PathValue → Option PathValue
  | .text a, .text b => some (.text (a ++ b))
  | .bytes a, .bytes b => some (.bytes (a ++ b))
  | _, _ => none

/-- `v / w`, where `otherwise` is what division of other values gives. -/
def divided (v w : PathValue) (otherwise : Option PathValue) : Option PathValue :=
  match v.fspath, w.fspath with
  | some a, some b => if v.isPath || w.isPath then some (.path (PosixPath.join a b)) else none
  | _, _ => otherwise.map fun u => .other u.str

/-- `os.path.join`. -/
def joined (vs : List PathValue) : Option PathValue :=
  match vs.mapM PathValue.fspath, vs.mapM PathValue.content with
  | some (a :: rest), _ => some (.text (rest.foldl PosixPath.join a))
  | _, some (a :: rest) => some (.bytes (rest.foldl PosixPath.join a))
  | _, _ => none

abbrev Names : Type := String → Option PathValue

def rebind (names : Names) (id : String) (v : PathValue) : Names :=
  fun i => if i = id then some v else names i

section
variable (leaf : Names → Expr → Option PathValue)

mutual
/-- The value of an expression; what is neither a name nor built from paths is left to `leaf`. -/
def value (names : Names) : Expr → Option PathValue
  | .name _ id _ => names id
  | .binOp _ l .add r => (value names l).bind fun v => (value names r).bind fun w => concatenated v w
  | .binOp pos l .div r =>
    (value names l).bind fun v => (value names r).bind fun w => divided v w (leaf names (.binOp pos l .div r))
  | .call pos func args keywords =>
    match func, keywords with
    | .name p id c, [] =>
      if id = "str" ∧ args.length = 1 then (values names args).bind fun vs => vs.head?.map fun v => .text v.str
      else leaf names (.call pos (.name p id c) args [])
    | .attr p v a c, [] =>
      if a = "join" then (values names args).bind joined else leaf names (.call pos (.attr p v a c) args [])
    | func, keywords => leaf names (.call pos func args keywords)
  | e => leaf names e

def values (names : Names) : List Expr → Option (List PathValue)
  | [] => some []
  | a :: as => (value names a).bind fun v => (values names as).map (v :: ·)
end

@[simp] theorem value_name (names : Names) (pos : Pos) (id : String) (c : Ctx) :
    value leaf names (.name pos id c) = names id := rfl

@[simp] theorem value_add (names : Names) (pos : Pos) (l r : Expr) : value leaf names (.binOp pos l .add r) =
    (value leaf names l).bind fun v => (value leaf names r).bind fun w => concatenated v w := rfl

theorem value_str (names : Names) (pos p : Pos) (c : Ctx) (x : Expr) :
    value leaf names (.call pos (.name p "str" c) [x] []) = (value leaf names x).map fun v => .text v.str := by
  simp only [value, values, List.length_singleton, and_self, if_true]
  cases value leaf names x <;> rfl

theorem value_join (names : Names) (pos p : Pos) (v : Expr) (c : Ctx) (args : List Expr) :
    value leaf names (.call pos (.attr p v "join" c) args []) = (values leaf names args).bind joined := by
  simp only [value, if_true]

end

end TimeCodeSecurity.Remediation
