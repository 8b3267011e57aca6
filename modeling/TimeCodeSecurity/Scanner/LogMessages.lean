import TimeCodeSecurity.Foundations.MarkedText
import TimeCodeSecurity.Py.Syntax

/-! # Log messages that are taken to be harmless

The two judgements that drop a finding of log injection, `_log_message_is_numeric_only` and
`_log_message_is_pure_literal`, and the line that a call of a `logging` method writes. The syntax tree has no
complex constants; complex numbers come up as results.
-/
namespace TimeCodeSecurity.Scanner
open Py MarkedText
set_option autoImplicit false

def cwe117BuiltinSealedNames : List String := ["len", "int", "float", "bool", "ord"]

/-- `_builtin_sealed_call`, on the callee of the call. -/
def builtinSealedCall (shadowed : List String) : Expr → Bool
  | .name _ leaf _ => decide (leaf ∈ cwe117BuiltinSealedNames) && decide (leaf ∉ shadowed)
  | .attr _ (.name _ receiver _) leaf _ =>
    receiver == "builtins" && decide (leaf ∈ cwe117BuiltinSealedNames) && decide (leaf ∉ shadowed) &&
      decide (receiver ∉ shadowed)
  | _ => false

section
variable (shadowed : Option (List String))

mutual

def numericSafeExpr : Expr → Bool
  | .constant _ (.bool _) | .constant _ (.int _) | .constant _ (.float _) => true
  | .name _ id _ => decide (id ∈ ["True", "False", "None"])
  | .call _ func _ _ => shadowed.any (builtinSealedCall · func)
  | .unaryOp _ op operand => op != .not && numericSafeExpr operand
  | .binOp _ left _ right => numericSafeExpr left && numericSafeExpr right
  | .boolOp _ _ values => numericSafeAll values
  | .ifExp _ _ body orelse => numericSafeExpr body && numericSafeExpr orelse
  | _ => false

def numericSafeAll : List Expr → Bool
  | [] => true
  | e :: es => numericSafeExpr e && numericSafeAll es

end

def specPartIsNumericSafe : Expr → Bool
  | .formattedValue _ value _ _ => numericSafeExpr shadowed value
  | _ => true

def partIsNumericSafe : Expr → Bool
  | .formattedValue _ value _ (some (.joinedStr _ parts)) =>
    numericSafeExpr shadowed value && parts.all (specPartIsNumericSafe shadowed)
  | .formattedValue _ value _ _ => numericSafeExpr shadowed value
  | _ => true

def joinedParts : Expr → Option (List Expr)
  | .joinedStr _ values => some values
  | _ => none

def logMessageIsNumericOnly (args : List Expr) : Bool :=
  let joined := args.filterMap joinedParts
  !joined.isEmpty && joined.all (·.all (partIsNumericSafe shadowed))

end

def isStrConstant : Expr → Bool
  | .constant _ (.str _) => true
  | _ => false

def literalLogText : Expr → Bool
  | .constant _ (.str _) => true
  | .joinedStr _ values => values.all isStrConstant
  | .binOp _ left .add right => literalLogText left && literalLogText right
  | _ => false

def logMessageIsPureLiteral : List Expr → List (Keyword Expr) → Bool
  | [arg], [] => literalLogText arg
  | _, _ => false

inductive Scalar (F : Type)
  | none
  | bool (b : Bool)
  | int (n : ℤ)
  | float (x : F)
  | complex (re im : F)
deriving DecidableEq, Repr

/-- A value at run time; `O` are the objects that are neither scalars nor texts. -/
inductive Datum (F O : Type)
  | scalar (s : Scalar F)
  | text (t : List Mark)
  | object (o : O)

def Scalar.code {F : Type} : Scalar F → Option ℤ
  | .bool b => some b.toNat
  | .int n => some n
  | _ => Option.none

def Scalar.isNone {F : Type} : Scalar F → Bool
  | .none => true
  | _ => false

def isBreak (c : Char) : Bool := c == '\n' || c == '\r'

def SealedCallee (binds : String → Prop) : Expr → Prop
  | .name _ leaf _ => leaf ∈ cwe117BuiltinSealedNames ∧ ¬binds leaf
  | .attr _ (.name _ receiver _) leaf _ =>
    receiver = "builtins" ∧ leaf ∈ cwe117BuiltinSealedNames ∧ ¬binds receiver
  | _ => False

/-- A run of the module up to the call: the names that the module binds, what the expressions of the call are
at this point, and how the values in them are computed with and shown. -/
structure Interpreter (F O : Type) where
  binds : String → Prop
  /-- Names, calls, attributes and operations of objects; none where an exception is raised. -/
  value : Expr → Option (Datum F O)
  /-- What `*` puts into the arguments. -/
  spread : Expr → Option (List (Datum F O))
  truth : Datum F O → Option Bool
  ofRat : ℚ → F
  unary : UnaryOp → Scalar F → Option (Scalar F)
  binary : BinOp → Scalar F → Scalar F → Option (Scalar F)
  /-- `str` and `repr` of a scalar. -/
  plain : Scalar F → String
  /-- Sign or base, and digits, of a scalar under a format specification. -/
  digits : Scalar F → Spec → Option (String × String)
  /-- The text of a numeric directive of `%`. -/
  numeral : Directive → Datum F O → Option String
  /-- `repr` and `ascii` of a text. -/
  quoted : Conversion → List Mark → List Mark
  shown : Conversion → O → Option (List Mark)
  formatObject : O → List Mark → Option (List Mark)
  /-- A mapping that is not empty, and its items. -/
  isMapping : O → Bool
  item : O → List Mark → Option (Datum F O)
  /-- What the keywords of the call add to the line. -/
  trailer : List (Option String × Datum F O) → List Mark
  plain_unbroken : ∀ s, ∀ c ∈ (plain s).toList, isBreak c = false
  digits_unbroken : ∀ s f p, digits s f = some p → ∀ c ∈ p.1.toList ++ p.2.toList, isBreak c = false
  trailer_nil : trailer [] = []
  value_sealed : ∀ pos func args keywords v, SealedCallee binds func →
    value (.call pos func args keywords) = some v → ∃ s, v = .scalar s

structure Laid where
  spec : Spec := {}
  side : Char := '<'
  head : List Mark := []
  body : List Mark

def Laid.text (l : Laid) : List Mark := l.spec.pad l.side l.head l.body

/-- The character that the type `c` presents a scalar as. -/
def characterOf {F : Type} (s : Scalar F) (f : Spec) : Option Char :=
  if f.sign.isSome || f.coerce || f.alternate || f.grouping.isSome || f.precision.isSome then none
  else s.code.bind fun n => if 0 ≤ n ∧ n < 0x110000 then some (Char.ofNat n.toNat) else none

/-- `format` of a text. -/
def layText (t spec : List Mark) : Option Laid :=
  if spec = [] then some { body := t }
  else
    (readSpec false spec).bind fun f =>
      if f.sign.isSome || f.coerce || f.alternate || f.grouping.isSome || f.align == some '=' then none
      else if f.kind.isSome && f.kind != some 's' then none
      else some { spec := f, body := f.precision.elim t t.take }

namespace Interpreter

variable {F O : Type} (I : Interpreter F O)

/-- `format` of a scalar. -/
def layScalar (s : Scalar F) (spec : List Mark) : Option Laid :=
  if spec = [] then some { body := brought (I.plain s) }
  else if s.isNone then none
  else
    (readSpec true spec).bind fun f =>
      if f.kind = some 'c' then (characterOf s f).map fun c => { spec := f, side := '>', body := [⟨c, false⟩] }
      else (I.digits s f).map fun p => { spec := f, side := '>', head := brought p.1, body := brought p.2 }

/-- `str`, `repr` and `ascii`. -/
def convert (c : Conversion) : Datum F O → Option (List Mark)
  | .scalar s => some (brought (I.plain s))
  | .text t => some (if c = .str then t else I.quoted c t)
  | .object o => I.shown c o

def present : Datum F O → Option Conversion → List Mark → Option (List Mark)
  | v, some c, spec => (I.convert c v).bind fun t => (layText t spec).map Laid.text
  | .scalar s, none, spec => (I.layScalar s spec).map Laid.text
  | .text t, none, spec => (layText t spec).map Laid.text
  | .object o, none, spec => I.formatObject o spec

def constantValue (pos : Pos) : Constant → Option (Datum F O)
  | .none => some (.scalar .none)
  | .bool b => some (.scalar (.bool b))
  | .int n => some (.scalar (.int n))
  | .float q => some (.scalar (.float (I.ofRat q)))
  | .str s => some (.text (written s))
  | .bytes s => I.value (.constant pos (.bytes s))
  | .ellipsis => I.value (.constant pos .ellipsis)

def nameValue (pos : Pos) (id : String) (ctx : Ctx) : Option (Datum F O) :=
  if id = "None" then some (.scalar .none)
  else if id = "True" then some (.scalar (.bool true))
  else if id = "False" then some (.scalar (.bool false))
  else I.value (.name pos id ctx)

def unaryValue (op : UnaryOp) (e : Expr) : Datum F O → Option (Datum F O)
  | .scalar s => if op = .not then I.value e else (I.unary op s).map .scalar
  | _ => I.value e

def binaryValue (op : BinOp) (e : Expr) : Datum F O → Datum F O → Option (Datum F O)
  | .scalar a, .scalar b => (I.binary op a b).map .scalar
  | .text a, .text b => if op = .add then some (.text (a ++ b)) else I.value e
  | _, _ => I.value e

mutual

def eval : Expr → Option (Datum F O)
  | .constant pos value => I.constantValue pos value
  | .name pos id ctx => I.nameValue pos id ctx
  | .unaryOp pos op operand => (eval operand).bind (I.unaryValue op (.unaryOp pos op operand))
  | .binOp pos left op right =>
    (eval left).bind fun a => (eval right).bind fun b => I.binaryValue op (.binOp pos left op right) a b
  | .boolOp _ op values => evalBool op values
  | .ifExp _ test body orelse =>
    (eval test).bind fun t => (I.truth t).bind fun b => if b then eval body else eval orelse
  | .joinedStr _ values => (evalParts values).map .text
  | e => I.value e

def evalBool (op : BoolOp) : List Expr → Option (Datum F O)
  | [] => none
  | e :: es =>
    (eval e).bind fun v =>
      if es.isEmpty then some v
      else (I.truth v).bind fun b => if b = (op == .or) then some v else evalBool op es

def evalParts : List Expr → Option (List Mark)
  | [] => some []
  | e :: es => (evalPart e).bind fun a => (evalParts es).map (a ++ ·)

def evalPart : Expr → Option (List Mark)
  | .constant _ (.str s) => some (written s)
  | .formattedValue _ value conversion spec =>
    (eval value).bind fun v => (evalSpec spec).bind fun f => I.present v conversion f
  | _ => none

def evalSpec : Option Expr → Option (List Mark)
  | none => some []
  | some (.joinedStr _ parts) => evalParts parts
  | some _ => none

end

def evalArgs : List Expr → Option (List (Datum F O))
  | [] => some []
  | .starred _ e _ :: es => (I.spread e).bind fun vs => (evalArgs es).map (vs ++ ·)
  | e :: es => (I.eval e).bind fun v => (evalArgs es).map (v :: ·)

def evalKeywords : List (Keyword Expr) → Option (List (Option String × Datum F O))
  | [] => some []
  | k :: ks => (I.eval k.value).bind fun v => (evalKeywords ks).map ((k.arg, v) :: ·)

def writeIn (d : Directive) (v : Datum F O) : Option (List Mark) :=
  let place (t : List Mark) : List Mark :=
    ({ width := (d.width.join).getD 0 } : Spec).pad (if d.left then '<' else '>') [] t
  let cut (t : List Mark) : List Mark := d.precision.join.elim t t.take
  match d.kind with
  | 's' => (I.convert .str v).map fun t => place (cut t)
  | 'r' => (I.convert .repr v).map fun t => place (cut t)
  | 'a' => (I.convert .ascii v).map fun t => place (cut t)
  | 'c' =>
    match v with
    | .scalar s => (characterOf s {}).map fun c => place [⟨c, false⟩]
    | .text [m] => some (place [m])
    | _ => none
  | kind =>
    if kind ∈ ['d', 'i', 'u', 'o', 'x', 'X', 'e', 'E', 'f', 'F', 'g', 'G'] then
      (I.numeral d v).map fun t => place (brought t)
    else none

/-- The number that `*` reads. -/
def amount : Datum F O → Option ℤ
  | .scalar s => s.code
  | _ => none

def mappingOf : List (Datum F O) → Option O
  | [.object o] => if I.isMapping o then some o else none
  | _ => none

/-- `msg % args`; without further arguments the message is taken as it is. -/
def substituted (message : List Mark) (vs : List (Datum F O)) : Option (List (Piece (Datum F O))) :=
  if vs.isEmpty then some (message.map .keep)
  else
    (tokens message).bind fun ts =>
      plan amount (fun key => (I.mappingOf vs).bind fun o => I.item o key) (I.mappingOf vs).isSome ts vs

end Interpreter

/-- `logger.info` and its like, which begin with the message, and `logger.log`, which begins with the level. -/
inductive LogMethod
  | message
  | level
deriving DecidableEq, Repr

namespace LogMethod

def split {D : Type} : LogMethod → List D → Option (D × List D)
  | .message, m :: vs => some (m, vs)
  | .level, _ :: m :: vs => some (m, vs)
  | _, _ => none

end LogMethod

namespace Interpreter

variable {F O : Type} (I : Interpreter F O) (method : LogMethod) (args : List Expr) (keywords : List (Keyword Expr))

def messageText : Option (List Mark) :=
  (I.evalArgs args).bind fun vs => (method.split vs).bind fun p => I.convert .str p.1

def linePieces : Option (List (Piece (Datum F O))) :=
  (I.evalArgs args).bind fun vs => (method.split vs).bind fun p =>
    (I.convert .str p.1).bind fun t => I.substituted t p.2

/-- The line that the call writes; none where the call, or the logging of it, fails. -/
def loggedLine : Option (List Mark) :=
  (I.linePieces method args).bind fun ps => (assemble I.writeIn ps).bind fun t =>
    (I.evalKeywords keywords).map fun kws => t ++ I.trailer kws

end Interpreter

end TimeCodeSecurity.Scanner
