import Mathlib.Data.Rat.Defs
import Mathlib.Data.List.Basic

/-! # Python syntax trees

The `ast` module, in the fields the analysis reads. Helper nodes (`keyword`, `arg`, `arguments`,
`comprehension`, `withitem`, `match_case`, exception handlers) are structures over the expressions or
statements they hold, so that every node of the tree is reached through one type or the other.
-/
namespace TimeCodeSecurity.Py
set_option autoImplicit false

/-- Where a node stands: first and last line, and the columns there. -/
structure Pos where
  lineno : ℕ := 1
  colOffset : ℕ := 0
  endLineno : ℕ := 1
  endColOffset : ℕ := 0
deriving DecidableEq, Repr, Inhabited

inductive Constant
  | none
  | bool (b : Bool)
  | int (n : ℤ)
  | float (q : ℚ)
  | str (s : String)
  | bytes (s : String)
  | ellipsis
deriving DecidableEq, Repr

inductive BoolOp
  | and | or
deriving DecidableEq, Repr

inductive BinOp
  | add | sub | mult | div | floorDiv | mod | pow | lShift | rShift | bitOr | bitXor | bitAnd | matMult
deriving DecidableEq, Repr

inductive UnaryOp
  | not | uSub | uAdd | invert
deriving DecidableEq, Repr

inductive CmpOp
  | eq | notEq | lt | ltE | gt | gtE | is | isNot | in | notIn
deriving DecidableEq, Repr

/-- `!s`, `!r` and `!a` in a hole of an f-string. -/
inductive Conversion
  | str | repr | ascii
deriving DecidableEq, Repr

inductive Ctx
  | load | store | del
deriving DecidableEq, Repr

/-- `arg=value`, or `**value` without a name. -/
structure Keyword (ε : Type) where
  arg : Option String
  value : ε
deriving DecidableEq, Repr

structure Arg (ε : Type) where
  arg : String
  annot : Option ε := none
deriving DecidableEq, Repr

structure Arguments (ε : Type) where
  posonlyargs : List (Arg ε) := []
  args : List (Arg ε) := []
  vararg : Option (Arg ε) := none
  kwonlyargs : List (Arg ε) := []
  kwDefaults : List (Option ε) := []
  kwarg : Option (Arg ε) := none
  defaults : List ε := []
deriving DecidableEq, Repr

structure Comprehension (ε : Type) where
  target : ε
  iter : ε
  ifs : List ε := []
deriving DecidableEq, Repr

inductive Expr
  | boolOp (pos : Pos) (op : BoolOp) (values : List Expr)
  | namedExpr (pos : Pos) (target value : Expr)
  | binOp (pos : Pos) (left : Expr) (op : BinOp) (right : Expr)
  | unaryOp (pos : Pos) (op : UnaryOp) (operand : Expr)
  | lambda (pos : Pos) (args : Arguments Expr) (body : Expr)
  | ifExp (pos : Pos) (test body orelse : Expr)
  | dict (pos : Pos) (keys : List (Option Expr)) (values : List Expr)
  | set (pos : Pos) (elts : List Expr)
  | listComp (pos : Pos) (elt : Expr) (generators : List (Comprehension Expr))
  | setComp (pos : Pos) (elt : Expr) (generators : List (Comprehension Expr))
  | dictComp (pos : Pos) (key value : Expr) (generators : List (Comprehension Expr))
  | generatorExp (pos : Pos) (elt : Expr) (generators : List (Comprehension Expr))
  | await (pos : Pos) (value : Expr)
  | yield (pos : Pos) (value : Option Expr)
  | yieldFrom (pos : Pos) (value : Expr)
  | compare (pos : Pos) (left : Expr) (ops : List CmpOp) (comparators : List Expr)
  | call (pos : Pos) (func : Expr) (args : List Expr) (keywords : List (Keyword Expr))
  | formattedValue (pos : Pos) (value : Expr) (conversion : Option Conversion) (formatSpec : Option Expr)
  | joinedStr (pos : Pos) (values : List Expr)
  | constant (pos : Pos) (value : Constant)
  | attr (pos : Pos) (value : Expr) (attr : String) (ctx : Ctx)
  | subscript (pos : Pos) (value slice : Expr) (ctx : Ctx)
  | starred (pos : Pos) (value : Expr) (ctx : Ctx)
  | name (pos : Pos) (id : String) (ctx : Ctx)
  | list (pos : Pos) (elts : List Expr) (ctx : Ctx)
  | tuple (pos : Pos) (elts : List Expr) (ctx : Ctx)
  | slice (pos : Pos) (lower upper step : Option Expr)
deriving Repr

def Expr.pos : Expr → Pos
  | .boolOp pos .. | .namedExpr pos .. | .binOp pos .. | .unaryOp pos .. | .lambda pos .. => pos
  | .ifExp pos .. | .dict pos .. | .set pos .. | .listComp pos .. | .setComp pos .. => pos
  | .dictComp pos .. | .generatorExp pos .. | .await pos .. | .yield pos .. | .yieldFrom pos .. => pos
  | .compare pos .. | .call pos .. | .formattedValue pos .. | .joinedStr pos .. => pos
  | .constant pos .. | .attr pos .. | .subscript pos .. | .starred pos .. | .name pos .. => pos
  | .list pos .. | .tuple pos .. | .slice pos .. => pos

inductive Pattern
  | matchValue (value : Expr)
  | matchSingleton (value : Constant)
  | matchSequence (patterns : List Pattern)
  | matchMapping (keys : List Expr) (patterns : List Pattern) (rest : Option String)
  | matchClass (cls : Expr) (patterns : List Pattern) (kwdPatterns : List (String × Pattern))
  | matchStar (name : Option String)
  | matchAs (pattern : Option Pattern) (name : Option String)
  | matchOr (patterns : List Pattern)
deriving Repr

structure Alias where
  name : String
  asname : Option String := none
deriving DecidableEq, Repr

structure WithItem where
  contextExpr : Expr
  optionalVars : Option Expr := none
deriving Repr

structure ExceptHandler (σ : Type) where
  pos : Pos := {}
  type : Option Expr := none
  name : Option String := none
  body : List σ

structure MatchCase (σ : Type) where
  pattern : Pattern
  guard : Option Expr := none
  body : List σ

/-- The `async` forms carry a flag, and so does `try` with `except*`. -/
inductive Stmt
  | functionDef (pos : Pos) (isAsync : Bool) (name : String) (args : Arguments Expr)
      (body : List Stmt) (decorators : List Expr) (returns : Option Expr)
  | classDef (pos : Pos) (name : String) (bases : List Expr) (keywords : List (Keyword Expr))
      (body : List Stmt) (decorators : List Expr)
  | ret (pos : Pos) (value : Option Expr)
  | delete (pos : Pos) (targets : List Expr)
  | assign (pos : Pos) (targets : List Expr) (value : Expr)
  | augAssign (pos : Pos) (target : Expr) (op : BinOp) (value : Expr)
  | annAssign (pos : Pos) (target annot : Expr) (value : Option Expr)
  | forLoop (pos : Pos) (isAsync : Bool) (target iter : Expr) (body orelse : List Stmt)
  | whileLoop (pos : Pos) (test : Expr) (body orelse : List Stmt)
  | ifStmt (pos : Pos) (test : Expr) (body orelse : List Stmt)
  | withStmt (pos : Pos) (isAsync : Bool) (items : List WithItem) (body : List Stmt)
  | matchStmt (pos : Pos) (subject : Expr) (cases : List (MatchCase Stmt))
  | raise (pos : Pos) (exc cause : Option Expr)
  | tryStmt (pos : Pos) (isStar : Bool) (body : List Stmt) (handlers : List (ExceptHandler Stmt))
      (orelse finalbody : List Stmt)
  | assert (pos : Pos) (test : Expr) (msg : Option Expr)
  | importStmt (pos : Pos) (names : List Alias)
  | importFrom (pos : Pos) (module : Option String) (names : List Alias) (level : ℕ)
  | global (pos : Pos) (names : List String)
  | nonlocal (pos : Pos) (names : List String)
  | expr (pos : Pos) (value : Expr)
  | pass (pos : Pos)
  | breakStmt (pos : Pos)
  | continueStmt (pos : Pos)

def Stmt.pos : Stmt → Pos
  | .functionDef pos .. | .classDef pos .. | .ret pos .. | .delete pos .. | .assign pos .. => pos
  | .augAssign pos .. | .annAssign pos .. | .forLoop pos .. | .whileLoop pos .. => pos
  | .ifStmt pos .. | .withStmt pos .. | .matchStmt pos .. | .raise pos .. | .tryStmt pos .. => pos
  | .assert pos .. | .importStmt pos .. | .importFrom pos .. | .global pos .. => pos
  | .nonlocal pos .. | .expr pos .. | .pass pos | .breakStmt pos | .continueStmt pos => pos

abbrev Module := List Stmt

end TimeCodeSecurity.Py
