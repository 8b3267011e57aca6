import TimeCodeSecurity.Foundations.TextLines

/-! # Suppression comments and the sink scan

`is_sink_call` looks for a `# nosec` or `# ok` marker on the line of the call. The lines it reads are
those of the first file of the table that has a text, whichever file the call is in. What the rest of
`is_sink_call` and `check_sink_safety` answer about a call depends on the trees and the tables of
the collection, not on the source lines, and is part of the call's description here; only the
unbounded-read rule looks at the sinks recorded so far.
-/
namespace TimeCodeSecurity.Scanner
open TextLines
set_option autoImplicit false

/-- The characters that end a line for `str.splitlines`. -/
def isLineBoundary (c : Char) : Bool :=
  c ∈ ['\n', '\r', '\x0b', '\x0c', '\x1c', '\x1d', '\x1e', '\u0085', '\u2028', '\u2029']

def isNewline (c : Char) : Bool := c ∈ ['\n', '\r']

/-- `self.files`: path and text in the order of the dictionary; a file may have no text. -/
abbrev Files := List (String × Option (List Char))

def sourceLinesByFile (files : Files) : List (String × List (List Char)) :=
  files.filterMap fun f => f.2.map fun code => (f.1, splitLines isLineBoundary code)

/-- The loop of `is_sink_call` over the table: it leaves with the lines of the first entry. -/
def sourceLines (files : Files) : List (List Char) :=
  match sourceLinesByFile files with
  | [] => []
  | (_, lines) :: _ => lines

/-- `\s` in a pattern over `str`. -/
def isSpace (c : Char) : Bool :=
  let n := c.toNat
  (9 ≤ n ∧ n ≤ 13) ∨ (28 ≤ n ∧ n ≤ 32) ∨ n = 0x85 ∨ n = 0xa0 ∨ n = 0x1680 ∨
    (0x2000 ≤ n ∧ n ≤ 0x200a) ∨ n = 0x2028 ∨ n = 0x2029 ∨ n = 0x202f ∨ n = 0x205f ∨ n = 0x3000

/-- `\w`; outside ASCII it is `str.isalnum`, which `alnum` stands for. -/
def isWord (alnum : Char → Bool) (c : Char) : Bool :=
  if c.toNat < 128 then c.isAlphanum || c = '_' else alnum c

variable (alnum : Char → Bool)

/-- `\b` right after a word character. -/
def wordEnds : List Char → Bool
  | [] => true
  | c :: _ => !isWord alnum c

/-- `#\s*(?:nosec|ok)\b` at the start of the text. -/
def markerAt (text : List Char) : Bool :=
  match text with
  | '#' :: rest =>
    match rest.dropWhile isSpace with
    | 'n' :: 'o' :: 's' :: 'e' :: 'c' :: more => wordEnds alnum more
    | 'o' :: 'k' :: more => wordEnds alnum more
    | _ => false
  | _ => false

/-- `CLUSTER3_NOSEC_RE.search`. -/
def nosecSearch : List Char → Bool
  | [] => false
  | c :: rest => markerAt alnum (c :: rest) || nosecSearch rest

def nosecOn (lines : List (List Char)) (lineno : ℕ) : Bool :=
  decide (1 ≤ lineno) && lines[lineno - 1]?.any (nosecSearch alnum)

/-- `node.func`: a name, an attribute (with the name of its receiver when that is a plain name), or
some other expression. -/
inductive Callee
  | name (id : String)
  | attribute (receiver : Option String) (attr : String)
  | other
  deriving DecidableEq, Repr

/-- A `Call` node; `ident` is its identity as an object. -/
structure CallNode where
  ident : ℕ
  lineno : ℕ
  callee : Callee
  argCount : ℕ
  deriving DecidableEq, Repr

def Callee.segment : Callee → String
  | .name id => id
  | .attribute _ attr => attr
  | .other => ""

/-- `x.read()` with no size. -/
def CallNode.isUnboundedRead (c : CallNode) : Bool :=
  match c.callee with
  | .attribute _ attr => attr = "read" && c.argCount = 0
  | _ => false

structure Writer where
  node : CallNode
  selfDescribed : Bool

/-- A call as `scan_for_sinks` meets it. -/
structure CallSite where
  node : CallNode
  /-- `_in_dead_code`. -/
  dead : Bool := false
  /-- What `is_sink_call` answers before its unbounded-read rule, if anything. -/
  early : Option Bool := none
  /-- `_is_definitely_safe_local_read` of the receiver. -/
  safeLocalRead : Bool := false
  /-- The calls assigned to the receiver, in the order `_read_subordinate_to_traversal` tries them. -/
  writers : List Writer := []
  /-- What `is_sink_call` answers after its unbounded-read rule. -/
  late : Bool := false
  /-- `check_sink_safety`. -/
  safe : Bool := false
  /-- The weakness of the sink node that `get_or_create_sink` gives. -/
  cwe : String := "UNKNOWN_CWE"
  /-- `_has_disabled_ssl`. -/
  disabledSsl : Bool := false

/-- An entry of `sink_records`; `node` is there when it is a call. -/
structure SinkRecord where
  node : Option CallNode
  file : String
  lineno : ℕ
  scopeId : String
  cwe : String
  deriving DecidableEq, Repr

/-- `any(rec.cwe == "CWE-22" for rec in _sink_node_records(writer))`. -/
def recorded (records : List SinkRecord) (writer : CallNode) : Bool :=
  records.any fun r => r.node = some writer && r.cwe = "CWE-22"

/-- The `open` that decides whether a read is the second half of a traversal. -/
def CallSite.opener (s : CallSite) : Option CallNode :=
  match s.node.callee with
  | .attribute (some _) _ =>
    match s.writers.find? fun w => w.node.argCount ≠ 0 && w.node.callee.segment = "open" with
    | some w => if w.selfDescribed then none else some w.node
    | none => none
  | _ => none

def readSubordinateToTraversal (known : CallNode → Bool) (s : CallSite) : Bool :=
  match s.opener with
  | some writer => known writer
  | none => false

/-- `is_sink_call` after the suppression check, with the sinks recorded so far. -/
def CallSite.verdict (known : CallNode → Bool) (s : CallSite) : Bool :=
  match s.early with
  | some b => b
  | none =>
    if s.node.isUnboundedRead then
      !s.safeLocalRead && !readSubordinateToTraversal known s
    else s.late

def isSinkCall (lines : List (List Char)) (known : CallNode → Bool) (s : CallSite) : Bool :=
  if nosecOn alnum lines s.node.lineno then false else s.verdict known

/-- The records `scan_for_sinks` appends for one call. -/
def CallSite.records (scopeId file : String) (s : CallSite) : List SinkRecord :=
  ⟨some s.node, file, s.node.lineno, scopeId, s.cwe⟩ ::
    if s.cwe ≠ "CWE-295" ∧ s.disabledSsl then [⟨some s.node, file, s.node.lineno, scopeId, "CWE-295"⟩]
    else []

def scanCall (lines : List (List Char)) (scopeId file : String) (records : List SinkRecord)
    (s : CallSite) : List SinkRecord :=
  if s.dead then records
  else if isSinkCall alnum lines (recorded records) s && !s.safe then
    records ++ s.records scopeId file
  else records

/-- What the collection of statements does to `sink_records`: it scans an expression, given by its
calls in the order of the walk, or another rule appends a record of its own. -/
inductive Event
  | scan (scopeId file : String) (sites : List CallSite)
  | record (r : SinkRecord)

def Event.apply (lines : List (List Char)) (records : List SinkRecord) : Event → List SinkRecord
  | .scan scopeId file sites => sites.foldl (scanCall alnum lines scopeId file) records
  | .record r => records ++ [r]

/-- `sink_records` after the events, in the order of the collection. -/
def sinkRecords (lines : List (List Char)) (events : List Event) : List SinkRecord :=
  events.foldl (Event.apply alnum lines) []

/-- `is_sink_call` is asked about `s` in `file`, after the events `prior`. -/
def Asked (events prior : List Event) (file : String) (s : CallSite) : Prop :=
  s.dead = false ∧ ∃ pre scopeId sites sites' post,
    events = pre ++ .scan scopeId file (sites ++ s :: sites') :: post ∧
      prior = pre ++ [.scan scopeId file sites]

/-- The answer of `is_sink_call` about `s` in a scan of the files, after the events `prior`. -/
def answerIn (files : Files) (prior : List Event) (s : CallSite) : Bool :=
  isSinkCall alnum (sourceLines files) (recorded (sinkRecords alnum (sourceLines files) prior)) s

def recordsIn (files : Files) (events : List Event) (file : String) : List SinkRecord :=
  (sinkRecords alnum (sourceLines files) events).filter fun r => r.file = file

end TimeCodeSecurity.Scanner
