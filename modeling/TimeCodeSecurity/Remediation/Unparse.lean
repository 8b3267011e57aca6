import TimeCodeSecurity.Foundations.Layout
import TimeCodeSecurity.Py.Rewrite

/-! # Printing a module back

`ast.unparse` on statements: each on a line of its own, indented by four blanks for each block around
it, an empty line in front of a definition, `elif` for an `if` that is all of an `else` branch. How
expressions, parameter lists and patterns are spelled is left to a printer of expressions; comments,
empty lines and the spelling of the source are no part of the tree.
-/
namespace TimeCodeSecurity.Remediation
open Py Layout
set_option autoImplicit false

inductive Precedence
  | tuple | yield | test
deriving DecidableEq, Repr

/-- The part of the printer below statements. -/
structure ExprPrinter where
  text : Precedence → Expr → String
  arguments : Arguments Expr → String
  pattern : Pattern → String
  docstring : Expr → String

/-- What is printed as a whole: a module, or a statement in a block `indent` deep; the latter as an
`elif` where it stands alone in an `else` branch. -/
inductive Item
  | module (body : List Stmt)
  | stmt (indent : ℕ) (isElif : Bool) (s : Stmt)

def operatorText : BinOp → String
  | .add => "+"
  | .sub => "-"
  | .mult => "*"
  | .div => "/"
  | .floorDiv => "//"
  | .mod => "%"
  | .pow => "**"
  | .lShift => "<<"
  | .rShift => ">>"
  | .bitOr => "|"
  | .bitXor => "^"
  | .bitAnd => "&"
  | .matMult => "@"

def aliasText (a : Alias) : String :=
  match a.asname with
  | some asname => a.name ++ " as " ++ asname
  | none => a.name

/-- `self.fill()` behind other text. -/
def newLine (indent : ℕ) : String := "\n" ++ String.join (List.replicate indent "    ")

def isDefinition : Stmt → Bool
  | .functionDef .. | .classDef .. => true
  | _ => false

def isIf : Stmt → Bool
  | .ifStmt .. => true
  | _ => false

def isStringConstant : Expr → Bool
  | .constant _ (.str _) => true
  | _ => false

def splitDocstring : List Stmt → Option Expr × List Stmt
  | .expr pos value :: rest =>
    if isStringConstant value then (some value, rest) else (none, .expr pos value :: rest)
  | body => (none, body)

def lead (indent : ℕ) (s : Stmt) : String :=
  if isDefinition s then "\n" ++ newLine indent else newLine indent

def blockPieces (indent : ℕ) (body : List Stmt) : List (Piece Item) :=
  body.flatMap fun s => [.text (lead indent s), .node (.stmt indent false s)]

section
variable (P : ExprPrinter)

def optText (before : String) : Option Expr → String
  | none => ""
  | some e => before ++ P.text .test e

def listText (es : List Expr) : String := String.intercalate ", " (es.map (P.text .test))

def keywordText (k : Keyword Expr) : String :=
  match k.arg with
  | some arg => arg ++ "=" ++ P.text .test k.value
  | none => "**" ++ P.text .test k.value

def withItemText (w : WithItem) : String :=
  P.text .test w.contextExpr ++ optText P " as " w.optionalVars

/-- `_write_docstring_and_traverse_body`. -/
def bodyPieces (indent : ℕ) (body : List Stmt) : List (Piece Item) :=
  match splitDocstring body with
  | (some doc, rest) => .text (newLine indent ++ P.docstring doc) :: blockPieces indent rest
  | (none, body) => blockPieces indent body

def clausePieces (keyword : String) (indent : ℕ) : List Stmt → List (Piece Item)
  | [] => []
  | body => .text (newLine indent ++ keyword ++ ":") :: blockPieces (indent + 1) body

/-- An `else` branch; a lone `if` continues as an `elif`. -/
def orelsePieces (indent : ℕ) : List Stmt → List (Piece Item)
  | [] => []
  | [s] =>
    if isIf s then [.text (newLine indent), .node (.stmt indent true s)]
    else clausePieces "else" indent [s]
  | body => clausePieces "else" indent body

def handlerPieces (indent : ℕ) (isStar : Bool) (h : ExceptHandler Stmt) : List (Piece Item) :=
  .text (newLine indent ++ (if isStar then "except*" else "except") ++ optText P " " h.type ++
    (h.name.map (" as " ++ ·)).getD "" ++ ":") :: blockPieces (indent + 1) h.body

def casePieces (indent : ℕ) (c : MatchCase Stmt) : List (Piece Item) :=
  .text (newLine indent ++ "case " ++ P.pattern c.pattern ++ optText P " if " c.guard ++ ":") ::
    blockPieces (indent + 1) c.body

def definitionText (indent : ℕ) (decorators : List Expr) (header : String) : String :=
  String.join (decorators.map fun d => "@" ++ P.text .test d ++ newLine indent) ++ header

def classArguments (bases : List Expr) (keywords : List (Keyword Expr)) : String :=
  if bases.isEmpty && keywords.isEmpty then ""
  else "(" ++ String.intercalate ", " (bases.map (P.text .test) ++ keywords.map (keywordText P)) ++ ")"

def stmtPieces (indent : ℕ) (isElif : Bool) : Stmt → List (Piece Item)
  | .functionDef _ isAsync name args body decorators returns =>
    .text (definitionText P indent decorators ((if isAsync then "async def " else "def ") ++ name ++
      "(" ++ P.arguments args ++ ")" ++ optText P " -> " returns ++ ":")) ::
        bodyPieces P (indent + 1) body
  | .classDef _ name bases keywords body decorators =>
    .text (definitionText P indent decorators
      ("class " ++ name ++ classArguments P bases keywords ++ ":")) :: bodyPieces P (indent + 1) body
  | .ret _ value => [.text ("return" ++ optText P " " value)]
  | .delete _ targets => [.text ("del " ++ listText P targets)]
  | .assign _ targets value =>
    [.text (String.join (targets.map fun t => P.text .tuple t ++ " = ") ++ P.text .test value)]
  | .augAssign _ target op value =>
    [.text (P.text .test target ++ " " ++ operatorText op ++ "= " ++ P.text .test value)]
  | .annAssign _ target annot value =>
    [.text (P.text .test target ++ ": " ++ P.text .test annot ++ optText P " = " value)]
  | .forLoop _ isAsync target iter body orelse =>
    .text ((if isAsync then "async for " else "for ") ++ P.text .tuple target ++ " in " ++
      P.text .test iter ++ ":") ::
        (blockPieces (indent + 1) body ++ clausePieces "else" indent orelse)
  | .whileLoop _ test body orelse =>
    .text ("while " ++ P.text .test test ++ ":") ::
      (blockPieces (indent + 1) body ++ clausePieces "else" indent orelse)
  | .ifStmt _ test body orelse =>
    .text ((if isElif then "elif " else "if ") ++ P.text .test test ++ ":") ::
      (blockPieces (indent + 1) body ++ orelsePieces indent orelse)
  | .withStmt _ isAsync items body =>
    .text ((if isAsync then "async with " else "with ") ++
      String.intercalate ", " (items.map (withItemText P)) ++ ":") :: blockPieces (indent + 1) body
  | .matchStmt _ subject cases =>
    .text ("match " ++ P.text .test subject ++ ":") :: cases.flatMap (casePieces P (indent + 1))
  | .raise _ none _ => [.text "raise"]
  | .raise _ (some exc) cause => [.text ("raise " ++ P.text .test exc ++ optText P " from " cause)]
  | .tryStmt _ isStar body handlers orelse finalbody =>
    .text "try:" :: (blockPieces (indent + 1) body ++ (handlers.flatMap (handlerPieces P indent isStar) ++
      (clausePieces "else" indent orelse ++ clausePieces "finally" indent finalbody)))
  | .assert _ test msg => [.text ("assert " ++ P.text .test test ++ optText P ", " msg)]
  | .importStmt _ names => [.text ("import " ++ String.intercalate ", " (names.map aliasText))]
  | .importFrom _ module names level =>
    [.text ("from " ++ String.join (List.replicate level ".") ++ module.getD "" ++ " import " ++
      String.intercalate ", " (names.map aliasText))]
  | .global _ names => [.text ("global " ++ String.intercalate ", " names)]
  | .nonlocal _ names => [.text ("nonlocal " ++ String.intercalate ", " names)]
  | .expr _ value => [.text (P.text .yield value)]
  | .pass _ => [.text "pass"]
  | .breakStmt _ => [.text "break"]
  | .continueStmt _ => [.text "continue"]

def modulePieces (body : List Stmt) : List (Piece Item) :=
  match splitDocstring body with
  | (some doc, rest) => .text (P.docstring doc) :: blockPieces 0 rest
  | (none, []) => []
  | (none, s :: rest) => .node (.stmt 0 false s) :: blockPieces 0 rest

def itemPieces : Item → List (Piece Item)
  | .module body => modulePieces P body
  | .stmt indent isElif s => stmtPieces P indent isElif s

def depthBound (tree : Module) : ℕ := stmtsWeight tree + 2

/-- `ast.unparse(tree)`. -/
def unparse (tree : Module) : String := render (itemPieces P) (depthBound tree) (.module tree)

end

end TimeCodeSecurity.Remediation
