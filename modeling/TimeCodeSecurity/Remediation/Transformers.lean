import TimeCodeSecurity.Remediation.Unparse
import TimeCodeSecurity.Scanner.Names
import TimeCodeSecurity.Scanner.Nosec

/-! # Transformers that print the tree back

Each looks for the first call (or assignment) of its kind that covers the line of the finding, changes it
in the tree and prints the whole tree. A call that needs no change is answered with the source as it is.
-/
namespace TimeCodeSecurity.Remediation
open Py Layout
set_option autoImplicit false

inductive PatchStatus
  | success | failedSyntax | failedVerification | unsupportedCwe
deriving DecidableEq, Repr

/-- What `transform` returns. -/
structure Patch where
  status : PatchStatus
  patchedSource : Option String
  patchedSnippet : Option String
  limitations : List String
deriving DecidableEq, Repr

/-- What a transformer makes of a tree, before anything is printed. -/
inductive Outcome
  | unsupported (message : String)
  | alreadySafe (message : String)
  | edited (ed : Edit) (limitations : List String)

/-- `ast.walk(tree)` without the module itself. -/
def walkModule (tree : Module) : List Node :=
  TreeWalk.queue Node.children (stmtsWeight tree) (stmtNodes tree)

/-- `node_lineno <= line_number <= node_end or node_lineno == line_number`. -/
def covers (line : ℕ) (pos : Pos) : Bool :=
  pos.lineno ≤ line ∧ line ≤ pos.endLineno ∨ pos.lineno = line

abbrev CallNode : Type := Pos × Expr × List Expr × List (Keyword Expr)

def callNode : Node → Option CallNode
  | .expr (.call pos func args keywords) => some (pos, func, args, keywords)
  | _ => none

def findCall (tree : Module) (line : ℕ) (finds : Expr → List (Keyword Expr) → Bool) :
    Option CallNode :=
  ((walkModule tree).filterMap callNode).find? fun c => finds c.2.1 c.2.2.2 && covers line c.1

def replaceCall (pos : Pos) (new : CallNode) : Edit where
  expr
    | .call p _ _ _ => if p = pos then some (.call new.1 new.2.1 new.2.2.1 new.2.2.2) else none
    | _ => none
  stmt _ := none
  expr_call e e' h := by
    cases e <;> simp only [reduceCtorEq] at h
    split at h
    · obtain rfl := Option.some.inj h
      exact ⟨rfl, rfl⟩
    · cases h
  stmt_assignment _ _ h := nomatch h

/-! ## Transformers of calls -/

inductive Rewritten
  | unsupported (message : String)
  | alreadySafe (message : String)
  | call (func : Expr) (args : List Expr) (keywords : List (Keyword Expr))

structure CallTransformer where
  finds : Expr → List (Keyword Expr) → Bool
  notFound : String
  rewrite : Expr → List Expr → List (Keyword Expr) → Rewritten

def CallTransformer.outcome (R : CallTransformer) (tree : Module) (line : ℕ) : Outcome :=
  match findCall tree line R.finds with
  | none => .unsupported R.notFound
  | some (pos, func, args, keywords) =>
    match R.rewrite func args keywords with
    | .unsupported message => .unsupported message
    | .alreadySafe message => .alreadySafe message
    | .call func args keywords => .edited (replaceCall pos (pos, func, args, keywords)) []

/-- `base.attr`, where `base` is a name. -/
def isAttrOf (base : String) (attrs : List String) : Expr → Bool
  | .attr _ (.name _ id _) attr _ => id = base ∧ attr ∈ attrs
  | _ => false

def keywordValue (arg : String) (keywords : List (Keyword Expr)) : Option Expr :=
  (keywords.reverse.find? fun k => k.arg = some arg).map (·.value)

def hasKeyword (arg : String) (keywords : List (Keyword Expr)) : Bool :=
  (keywordValue arg keywords).isSome

def isConstant (value : Constant) : Expr → Bool
  | .constant _ c => c = value
  | _ => false

def isKeywordConstant (arg : String) (value : Constant) (k : Keyword Expr) : Bool :=
  k.arg = some arg && isConstant value k.value

/-- The first keyword `arg=value` takes the new value. -/
def setKeyword (arg : String) (value new : Constant) :
    List (Keyword Expr) → List (Keyword Expr)
  | [] => []
  | k :: ks =>
    if isKeywordConstant arg value k then ⟨k.arg, .constant {} new⟩ :: ks
    else k :: setKeyword arg value new ks

def setAttr (attr : String) : Expr → Expr
  | .attr pos value _ ctx => .attr pos value attr ctx
  | e => e

def renamed (attr : String) (func : Expr) (args : List Expr) (keywords : List (Keyword Expr)) :
    Rewritten :=
  match func with
  | .attr .. => .call (setAttr attr func) args keywords
  | _ => .unsupported "Unexpected AST structure"

def keywordSwitched (arg : String) (value new : Constant) (missing : String) (func : Expr)
    (args : List Expr) (keywords : List (Keyword Expr)) : Rewritten :=
  if keywords.any (isKeywordConstant arg value) then .call func args (setKeyword arg value new keywords)
  else .unsupported missing

def yamlSafeLoader : CallTransformer where
  finds func _ := isAttrOf "yaml" ["load"] func
  notFound := "yaml.load call not found"
  rewrite func args keywords :=
    match keywordValue "Loader" keywords with
    | some (.attr _ _ "SafeLoader" _) => .alreadySafe "Already using SafeLoader"
    | _ => renamed "safe_load" func args (keywords.filter fun k => k.arg ≠ some "Loader")

def weakHash : CallTransformer where
  finds func _ := isAttrOf "hashlib" ["md5", "sha1"] func
  notFound := "Weak hash call not found"
  rewrite := renamed "sha256"

def cookieFlags : List (String × Constant) :=
  [("secure", .bool true), ("httponly", .bool true), ("samesite", .str "Lax")]

def cookieSecure : CallTransformer where
  finds func _ := match func with
    | .attr _ _ attr _ => attr = "set_cookie"
    | _ => false
  notFound := "set_cookie call not found"
  rewrite func args keywords :=
    match cookieFlags.filter fun f => !hasKeyword f.1 keywords with
    | [] => .alreadySafe "Cookie already has all security flags"
    | flags => .call func args (keywords ++ flags.map fun f => ⟨some f.1, .constant {} f.2⟩)

def sslVerify : CallTransformer where
  finds func keywords :=
    isAttrOf "requests" ["get", "post", "put", "delete", "patch", "head", "options"] func &&
      keywords.any (isKeywordConstant "verify" (.bool false))
  notFound := "requests call not found"
  rewrite := keywordSwitched "verify" (.bool false) (.bool true) "verify=False not found"

def debugFlag : CallTransformer where
  finds func keywords := (match func with
    | .attr _ _ attr _ => attr = "run"
    | _ => false) && keywords.any (isKeywordConstant "debug" (.bool true))
  notFound := "app.run() call not found"
  rewrite := keywordSwitched "debug" (.bool true) (.bool false) "debug=True not found"

def templateAutoescape : CallTransformer where
  finds func _ := match func with
    | .name _ id _ => id = "Environment"
    | func => isAttrOf "jinja2" ["Environment"] func
  notFound := "jinja2.Environment call not found"
  rewrite func args keywords :=
    if hasKeyword "autoescape" keywords then .alreadySafe "autoescape already configured"
    else .call func args (keywords ++ [⟨some "autoescape", .constant {} (.bool true)⟩])

def tempfileSecure : CallTransformer where
  finds func _ := isAttrOf "tempfile" ["mktemp"] func
  notFound := "tempfile.mktemp call not found"
  rewrite := renamed "NamedTemporaryFile"

def loadName (id : String) : Expr := .name {} id .load

def evalLiteral : CallTransformer where
  finds func _ := match func with
    | .name _ id _ => id = "eval"
    | _ => false
  notFound := "eval call not found"
  rewrite _ args keywords := .call (.attr {} (loadName "ast") "literal_eval" .load) args keywords

def networkBinding : CallTransformer where
  finds _ keywords := keywords.any (isKeywordConstant "host" (.str "0.0.0.0"))
  notFound := "Wildcard bind call not found"
  rewrite := keywordSwitched "host" (.str "0.0.0.0") (.str "127.0.0.1") "host='0.0.0.0' not found"

def saltPlaceholder : String := "change-me-static-salt"

/-- The `hexdigest` or `digest` call on the call at `pos`. -/
def digestParent (tree : Module) (pos : Pos) : Option Pos :=
  (((walkModule tree).filterMap callNode).find? fun c =>
    match c.2.1 with
    | .attr _ (.call p _ _ _) attr _ => p = pos ∧ attr ∈ ["hexdigest", "digest"]
    | _ => false).map (·.1)

def scryptKeywords : List (Keyword Expr) :=
  [⟨some "salt", .constant {} (.bytes saltPlaceholder)⟩, ⟨some "n", .constant {} (.int 16384)⟩,
    ⟨some "r", .constant {} (.int 8)⟩, ⟨some "p", .constant {} (.int 1)⟩]

def passwordHash (tree : Module) (line : ℕ) : Outcome :=
  match findCall tree line fun func _ =>
      isAttrOf "hashlib" ["md5", "sha1", "sha256", "sha512"] func with
  | none => .unsupported "Weak password hash call not found"
  | some (_, _, [], _) => .unsupported "Hash call has no password argument"
  | some (pos, _, password :: _, _) =>
    .edited (replaceCall ((digestParent tree pos).getD pos)
        (pos, .attr {} (loadName "hashlib") "scrypt" .load, [password], scryptKeywords))
      ["A static placeholder salt is emitted; derive a per-user salt with " ++
        "os.urandom(16) and store it alongside the hash before production use."]

/-- The two parts of a pattern, with `_`, `-` or nothing between them. -/
def sensitivePatterns : List (String × Option String) :=
  [("api", some "key"), ("secret", some "key"), ("password", none), ("passwd", none), ("token", none),
    ("auth", some "token"), ("access", some "key"), ("private", some "key"), ("credential", none)]

def patternTexts : String × Option String → List String
  | (a, none) => [a]
  | (a, some b) => [a ++ b, a ++ "_" ++ b, a ++ "-" ++ b]

/-- A character as `re.IGNORECASE` compares it with a letter of the patterns. -/
def ignoreCase (c : Char) : Char :=
  if c = '\u0130' ∨ c = '\u0131' then 'i'
  else if c = '\u017f' then 's'
  else if c = '\u212a' then 'k'
  else c.toLower

def isSensitiveVariable (name : String) : Bool :=
  (sensitivePatterns.flatMap patternTexts).any fun p =>
    Scanner.contains p (String.ofList (name.toList.map ignoreCase))

def targetName : Expr → Option String
  | .name _ id _ => some id
  | _ => none

def credentialAssignment : Node → Option (Pos × String)
  | .stmt (.assign pos targets (.constant _ (.str _))) => (targets.findSome? targetName).map (pos, ·)
  | .stmt (.annAssign pos target _ (some (.constant _ (.str _)))) => (targetName target).map (pos, ·)
  | _ => none

def replaceValue (pos : Pos) (value : Expr) : Edit where
  expr _ := none
  stmt
    | .assign p targets _ => if p = pos then some (.assign p targets value) else none
    | .annAssign p target annot _ => if p = pos then some (.annAssign p target annot value) else none
    | _ => none
  expr_call _ _ h := nomatch h
  stmt_assignment s s' h := by
    cases s <;> simp only [reduceCtorEq] at h <;> split at h
    · obtain rfl := Option.some.inj h
      exact ⟨rfl, rfl⟩
    · cases h
    · obtain rfl := Option.some.inj h
      exact ⟨rfl, rfl⟩
    · cases h

/-- `upper` is `str.upper`. -/
def credentialEnviron (upper : String → String) (tree : Module) (line : ℕ) : Outcome :=
  match ((walkModule tree).filterMap credentialAssignment).find? fun a =>
      isSensitiveVariable a.2 && covers line a.1 with
  | none => .unsupported "Credential assignment not found"
  | some (pos, name) =>
    .edited (replaceValue pos
      (.call {} (.attr {} (.attr {} (loadName "os") "environ" .load) "get" .load)
        [.constant {} (.str (upper name)), .constant {} (.str "")] [])) []

inductive Transformer
  | yaml | weakHash | passwordHash | cookie | ssl | debug | template | tempfile | eval | credentials
  | binding
deriving DecidableEq, Repr

def Transformer.outcome (upper : String → String) : Transformer → Module → ℕ → Outcome
  | .yaml => yamlSafeLoader.outcome
  | .weakHash => Remediation.weakHash.outcome
  | .passwordHash => Remediation.passwordHash
  | .cookie => cookieSecure.outcome
  | .ssl => sslVerify.outcome
  | .debug => debugFlag.outcome
  | .template => templateAutoescape.outcome
  | .tempfile => tempfileSecure.outcome
  | .eval => evalLiteral.outcome
  | .credentials => credentialEnviron upper
  | .binding => networkBinding.outcome

section
variable (P : ExprPrinter)

def stmtNode : Node → Option Stmt
  | .stmt s => some s
  | _ => none

def smallestSpan : List Stmt → Option Stmt
  | [] => none
  | s :: ss =>
    match smallestSpan ss with
    | none => some s
    | some t => if s.pos.endLineno - s.pos.lineno ≤ t.pos.endLineno - t.pos.lineno then some s else some t

/-- `text.split("\n")`. -/
def splitNewlines : List Char → List (List Char)
  | [] => [[]]
  | '\n' :: rest => [] :: splitNewlines rest
  | c :: rest =>
    match splitNewlines rest with
    | [] => [[c]]
    | line :: lines => (c :: line) :: lines

def patchedStatementSnippet (tree : Module) (source : String) (line : ℕ) : Option String :=
  let candidates := ((walkModule tree).filterMap stmtNode).filter fun s =>
    s.pos.lineno ≠ 0 ∧ s.pos.lineno ≤ line ∧ line ≤ s.pos.endLineno
  (smallestSpan candidates).map fun s =>
    let rendered := render (itemPieces P) (s.weight + 1) (.stmt 0 false s)
    let lines := splitNewlines source.toList
    let indent := if line = 0 then [] else ((lines[line - 1]?).getD []).takeWhile Scanner.isSpace
    let indented (l : List Char) := if l.all Scanner.isSpace then l else indent ++ l
    match splitNewlines rendered.toList with
    | [] => ""
    | first :: rest =>
      String.ofList ((rest.map indented).foldl (fun text l => text ++ '\n' :: l) (indent ++ first))

def transform (upper : String → String) (t : Transformer) (tree : Module) (line : ℕ)
    (source : String) : Patch :=
  match t.outcome upper tree line with
  | .unsupported message => ⟨.unsupportedCwe, none, none, [message]⟩
  | .alreadySafe message => ⟨.success, some source, some "", [message]⟩
  | .edited ed limitations =>
    let patched := editStmts ed tree
    ⟨.success, some (unparse P patched), some ((patchedStatementSnippet P patched source line).getD ""),
      limitations⟩

end

end TimeCodeSecurity.Remediation
