import TimeCodeSecurity.Foundations.Codec
import TimeCodeSecurity.Py.Value
import TimeCodeSecurity.Remediation.Transformers

/-! # The calls that the transformers emit

What a call of the standard library or of PyYAML does at a point of a run: the object that the callee's name
is bound to, its signature, the values that it takes and the kind of its result. A call that cannot run raises
`NameError`, `AttributeError` or `TypeError`.
-/
namespace TimeCodeSecurity.Remediation
open Py Signatures
set_option autoImplicit false

/-! ## Callees -/

/-- The kinds of results that are told apart; `data` is what a document or an expression denotes. -/
inductive Kind
  | text | bytes | hash | file | data
deriving DecidableEq, Repr

structure Callee where
  signature : Signature
  ok : String → Value → Bool := fun _ _ => true
  result : Kind

def isStr : Value → Bool
  | .str _ => true
  | _ => false

def isNone : Value → Bool
  | .none => true
  | _ => false

def isObject : Value → Bool
  | .object _ => true
  | _ => false

def isBytes : Value → Bool
  | .bytes _ => true
  | v => isObject v

def isInt (v : Value) : Bool := v.asInt.isSome

def evalCallee : Callee where
  signature := ⟨[{ name := "source", named := false }, withDefault "globals", withDefault "locals"], []⟩
  ok param v := param != "source" || isStr v || isBytes v
  result := .data

def literalEval : Callee where
  signature := ⟨[{ name := "node_or_string" }], []⟩
  result := .data

def environGet : Callee where
  signature := ⟨[{ name := "key" }, withDefault "default"], []⟩
  ok param v := param != "key" || isStr v
  result := .text

/-- `yaml.load`, whose loader older versions do not demand. -/
def yamlLoad : Callee where
  signature := ⟨[{ name := "stream" }, withDefault "Loader"], []⟩
  result := .data

def yamlSafeLoad : Callee where
  signature := ⟨[{ name := "stream" }], []⟩
  result := .data

def hashConstructor : Callee where
  signature := ⟨[withDefault "string"], [withDefault "usedforsecurity"]⟩
  ok param v := param != "string" || isBytes v
  result := .hash

def scrypt : Callee where
  signature := ⟨[{ name := "password" }],
    [{ name := "salt" }, { name := "n" }, { name := "r" }, { name := "p" }, withDefault "maxmem", withDefault "dklen"]⟩
  ok param v := if param ∈ ["password", "salt"] then isBytes v else isInt v
  result := .bytes

def mktemp : Callee where
  signature := ⟨[withDefault "suffix", withDefault "prefix", withDefault "dir"], []⟩
  ok param v := if param = "dir" then isStr v || isNone v || isObject v else isStr v
  result := .text

def namedTemporaryFile : Callee where
  signature := ⟨[withDefault "mode", withDefault "buffering", withDefault "encoding", withDefault "newline",
    withDefault "suffix", withDefault "prefix", withDefault "dir", withDefault "delete"],
    [withDefault "errors", withDefault "delete_on_close"]⟩
  ok param v :=
    if param = "mode" then isStr v
    else if param = "buffering" then isInt v
    else if param ∈ ["encoding", "newline", "errors"] then isStr v || isNone v
    else if param ∈ ["suffix", "prefix", "dir"] then isStr v || isNone v || isBytes v
    else true
  result := .file

def moduleFunction (module name : String) : Option Callee :=
  if module = "ast" ∧ name = "literal_eval" then some literalEval
  else if module = "yaml" ∧ name = "load" then some yamlLoad
  else if module = "yaml" ∧ name = "safe_load" then some yamlSafeLoad
  else if module = "hashlib" ∧ name ∈ ["md5", "sha1", "sha256", "sha512"] then some hashConstructor
  else if module = "hashlib" ∧ name = "scrypt" then some scrypt
  else if module = "tempfile" ∧ name = "mktemp" then some mktemp
  else if module = "tempfile" ∧ name = "NamedTemporaryFile" then some namedTemporaryFile
  else none

inductive Bound
  | builtin (name : String)
  | module (name : String)
  | other
deriving DecidableEq, Repr

/-- A run where it comes to the call: what names are bound to, the values of the arguments, and the kinds of
results that the statement around the call takes. -/
structure Point where
  bound : String → Option Bound
  value : Expr → Value
  spread : Expr → List Value
  unpacked : Expr → List (String × Value)
  takes : Kind → Prop

namespace Point

variable (pt : Point)

def valueOf : Expr → Value
  | .constant _ c => .ofConstant c
  | e => pt.value e

def positional (args : List Expr) : List Value :=
  args.flatMap fun
    | .starred _ e _ => pt.spread e
    | e => [pt.valueOf e]

def named (keywords : List (Keyword Expr)) : List (String × Value) :=
  keywords.flatMap fun k =>
    match k.arg with
    | some x => [(x, pt.valueOf k.value)]
    | none => pt.unpacked k.value

def callee : Expr → Option Callee
  | .name _ id _ => if pt.bound id = some (.builtin "eval") then some evalCallee else none
  | .attr _ (.name _ root _) name _ =>
    match pt.bound root with
    | some (.module m) => moduleFunction m name
    | _ => none
  | .attr _ (.attr _ (.name _ root _) "environ" _) "get" _ =>
    if pt.bound root = some (.module "os") then some environGet else none
  | _ => none

def result : Expr → Option Kind
  | .call _ func args keywords =>
    (pt.callee func).bind fun c =>
      if Accepts c.signature c.ok (pt.positional args) (pt.named keywords) then some c.result else none
  | _ => none

end Point

inductive Former
  | call (e : Expr)
  | digestOf (e : Expr) (attr : String)
  | text

structure Swap where
  former : Former
  pos : Pos
  new : CallNode

def Swap.emitted (w : Swap) : Expr := .call w.new.1 w.new.2.1 w.new.2.2.1 w.new.2.2.2

def callSwap (R : CallTransformer) (tree : Module) (line : ℕ) : Option Swap :=
  (findCall tree line R.finds).bind fun (pos, func, args, keywords) =>
    match R.rewrite func args keywords with
    | .call func' args' keywords' => some ⟨.call (.call pos func args keywords), pos, (pos, func', args', keywords')⟩
    | _ => none

/-- The name of the digest method that is called on the call at `pos`. -/
def digestAttr (tree : Module) (pos : Pos) : Option (Pos × String) :=
  (((walkModule tree).filterMap callNode).find? fun c =>
    match c.2.1 with
    | .attr _ (.call p _ _ _) attr _ => p = pos ∧ attr ∈ ["hexdigest", "digest"]
    | _ => false).bind fun c =>
      match c.2.1 with
      | .attr _ _ attr _ => some (c.1, attr)
      | _ => none

def passwordSwap (tree : Module) (line : ℕ) : Option Swap :=
  (findCall tree line fun func _ => isAttrOf "hashlib" ["md5", "sha1", "sha256", "sha512"] func).bind
    fun (pos, func, args, keywords) =>
      match args with
      | [] => none
      | password :: _ =>
        let old := Expr.call pos func args keywords
        let new := (pos, .attr {} (loadName "hashlib") "scrypt" .load, [password], scryptKeywords)
        match digestAttr tree pos with
        | some (p, attr) => some ⟨.digestOf old attr, p, new⟩
        | none => some ⟨.call old, pos, new⟩

def credentialSwap (upper : String → String) (tree : Module) (line : ℕ) : Option Swap :=
  (((walkModule tree).filterMap credentialAssignment).find? fun a =>
      isSensitiveVariable a.2 && covers line a.1).map fun (pos, name) =>
    ⟨.text, pos, ({}, .attr {} (.attr {} (loadName "os") "environ" .load) "get" .load,
      [.constant {} (.str (upper name)), .constant {} (.str "")], [])⟩

/-- The transformers that put a call of another function in the place of an expression. -/
inductive Rewriting
  | eval | credentials | yaml | passwordHash | tempfile
deriving DecidableEq, Repr

namespace Rewriting

def transformer : Rewriting → Transformer
  | .eval => .eval
  | .credentials => .credentials
  | .yaml => .yaml
  | .passwordHash => .passwordHash
  | .tempfile => .tempfile

def swap (upper : String → String) : Rewriting → Module → ℕ → Option Swap
  | .eval => callSwap evalLiteral
  | .credentials => credentialSwap upper
  | .yaml => callSwap yamlSafeLoader
  | .passwordHash => passwordSwap
  | .tempfile => callSwap tempfileSecure

/-- The edit of a swap: the value of an assignment, or a call. -/
def edit : Rewriting → Swap → Edit
  | .credentials, w => replaceValue w.pos w.emitted
  | _, w => replaceCall w.pos w.new

end Rewriting

end TimeCodeSecurity.Remediation
