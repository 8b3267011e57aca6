import TimeCodeSecurity.Foundations.Replacing
import TimeCodeSecurity.Scanner.Nosec
import TimeCodeSecurity.Secrets.Masking
import Mathlib.Data.List.Sort

/-! # Scanning a text for secrets

`scan_text`: the matches of a line that survive the overlap resolution stand masked in the context of each of
its findings; a second pass over the assignments masks the value it found. A context is kept by its parts,
what is shown of the line and what stands masked.
-/
namespace TimeCodeSecurity.Secrets
open Replacing TextLines
set_option autoImplicit false

structure Span where
  start : ℕ
  stop : ℕ
deriving DecidableEq

structure Regex where
  finditer : List Char → List Span
  inLine : ∀ line, ∀ m ∈ finditer line, m.start ≤ m.stop ∧ m.stop ≤ line.length

structure TokenRegex extends Regex where
  nonempty : ∀ line, ∀ m ∈ finditer line, m.start < m.stop

/-- A target and the literal of an assignment; `literal` has the characters of the literal, line by line. -/
structure Assignment where
  names : List (List Char)
  value : Option (List Char)
  line : ℕ
  colOffset : ℕ
  endColOffset : ℕ
  literal : List (ℕ × Span)

/-- What the scan is run with: the patterns, the docstring lines and assignments that `ast` finds (none when
it cannot parse) and the tests on names and values. -/
structure Host where
  privateKey : TokenRegex
  githubToken : TokenRegex
  slackToken : TokenRegex
  stripeKey : TokenRegex
  awsAccessKey : TokenRegex
  slackWebhook : TokenRegex
  dbUri : TokenRegex
  jwtToken : TokenRegex
  gitleaks : List (String × Regex)
  docstringLines : List Char → List ℕ
  assignments : List Char → Option (List Assignment)
  credVar : List Char → Bool
  explicitCred : List Char → Bool
  dummy : List Char → Bool
  entropyAtLeastThree : List Char → Bool
  lower : List Char → List Char

structure Candidate where
  precedence : ℕ
  start : ℕ
  stop : ℕ
  secretType : String
  detector : String
  maskedValue : List Char
deriving DecidableEq

/-- `line[start:stop]`. -/
def slice (line : List Char) (start stop : ℕ) : List Char := (line.take stop).drop start

def maskedMatch (precedence : ℕ) (name : String) (line : List Char) (m : Span) : Candidate :=
  { precedence, start := m.start, stop := m.stop, secretType := name, detector := name
    maskedValue := maskSecret (slice line m.start m.stop) }

def maskedMatches (precedence : ℕ) (name : String) (r : Regex) (line : List Char) : List Candidate :=
  (r.finditer line).map (maskedMatch precedence name line)

def isQuotedBarePemHeader (line : List Char) (m : Span) : Bool :=
  let isQuote (c : Option Char) : Bool := c = some '\x27' || c = some '\x22'
  0 < m.start && isQuote (line.drop (m.start - 1)).head? && isQuote (line.drop m.stop).head?

def privateKeyMatches (H : Host) (isDocstring : Bool) (line : List Char) : List Candidate :=
  ((H.privateKey.finditer line).filter fun m => !(isDocstring && isQuotedBarePemHeader line m)).map
    (maskedMatch 1 "private_key" line)

def dbUriMatches (H : Host) (line : List Char) : List Candidate :=
  (H.dbUri.finditer line).filterMap fun m =>
    (parseAndMaskDbUri (slice line m.start m.stop)).map fun parsed =>
      { precedence := 6, start := m.start, stop := m.start + parsed.2
        secretType := "database_connection_string", detector := "database_connection_string"
        maskedValue := parsed.1 }

def endsWithAny (filename : String) (suffixes : List String) : Bool :=
  suffixes.any fun s => s.toList.isSuffixOf filename.toList

def gitleaksDetectorsFor (H : Host) (filename : String) : List (String × Regex) :=
  if endsWithAny (String.ofList (H.lower filename.toList)) [".py", ".pyi", ".pyw", ".pyz"] then
    H.gitleaks.filter (·.1 ≠ "hashicorp-tf-password")
  else H.gitleaks

def gitleaksMatches (H : Host) (filename : String) (line : List Char) : List Candidate :=
  (gitleaksDetectorsFor H filename).flatMap fun row =>
    ((row.2.finditer line).filter fun m => m.start ≠ m.stop).map (maskedMatch 8 row.1 line)

def candidates (H : Host) (filename : String) (isDocstring : Bool) (line : List Char) : List Candidate :=
  privateKeyMatches H isDocstring line ++
    (maskedMatches 2 "github_token" H.githubToken.toRegex line ++
    (maskedMatches 3 "slack_token" H.slackToken.toRegex line ++
    (maskedMatches 4 "stripe_key" H.stripeKey.toRegex line ++
    (maskedMatches 5 "aws_access_key" H.awsAccessKey.toRegex line ++
    (maskedMatches 5 "slack_webhook_url" H.slackWebhook.toRegex line ++
    (dbUriMatches H line ++
    (maskedMatches 7 "jwt_token" H.jwtToken.toRegex line ++ gitleaksMatches H filename line)))))))

/-- The order of `(precedence, -(end - start), start)`. -/
def RanksFirst (c c' : Candidate) : Prop :=
  c.precedence < c'.precedence ∨ c.precedence = c'.precedence ∧
    (c'.stop - c'.start < c.stop - c.start ∨ c.stop - c.start = c'.stop - c'.start ∧ c.start ≤ c'.start)

instance : DecidableRel RanksFirst := fun c c' =>
  inferInstanceAs (Decidable (c.precedence < c'.precedence ∨ c.precedence = c'.precedence ∧
    (c'.stop - c'.start < c.stop - c.start ∨ c.stop - c.start = c'.stop - c'.start ∧ c.start ≤ c'.start)))

def overlaps (c c' : Candidate) : Bool := max c.start c'.start < min c.stop c'.stop

def accept (accepted : List Candidate) (c : Candidate) : List Candidate :=
  if accepted.any (overlaps c) then accepted else accepted ++ [c]

def survivors (cs : List Candidate) : List Candidate := (cs.insertionSort RanksFirst).foldl accept []

def redactedContext (line : List Char) (accepted : List Candidate) : List Char :=
  (accepted.insertionSort fun c c' => c'.start ≤ c.start).foldl
    (fun context c => context.take c.start ++ (c.maskedValue ++ context.drop c.stop)) line

inductive Part
  | plain (c : Char)
  | masked (segs : List Seg)
deriving DecidableEq

def Part.segs : Part → List Seg
  | .plain c => [.keep c]
  | .masked segs => segs

def contextSegs (parts : List Part) : List Seg := parts.flatMap Part.segs

def contextText (parts : List Part) : List Char := shownText (contextSegs parts)

def maskedFlags (parts : List Part) : List Bool :=
  parts.flatMap fun
    | .plain _ => [false]
    | .masked segs => List.replicate (oldText segs).length true

def Candidate.segs (line : List Char) (c : Candidate) : List Seg :=
  if c.precedence = 6 then (dbUriSegs (slice line c.start c.stop)).getD []
  else maskSegs (slice line c.start c.stop)

/-- The line from `offset` on with the matches masked, given from left to right. -/
def maskFrom (line : List Char) : ℕ → List Candidate → List Part
  | offset, [] => (line.drop offset).map .plain
  | offset, c :: cs => (slice line offset c.start).map .plain ++ .masked (c.segs line) :: maskFrom line c.stop cs

def maskLine (line : List Char) (accepted : List Candidate) : List Part :=
  maskFrom line 0 (accepted.insertionSort fun c c' => c'.start ≤ c.start).reverse

/-- `raw_line.replace(val_str, mask_secret(val_str))`; the first argument counts what is left of a match. -/
def maskValueFrom (value : List Char) : ℕ → List Char → List Part
  | _, [] => []
  | 0, c :: rest =>
    if value.isPrefixOf (c :: rest) then .masked (maskSegs value) :: maskValueFrom value (value.length - 1) rest
    else .plain c :: maskValueFrom value 0 rest
  | skip + 1, _ :: rest => maskValueFrom value skip rest

structure SecretFinding where
  secretType : String
  maskedValue : List Char
  file : String
  lineNumber : ℕ
  columnStart : ℕ
  columnEnd : ℕ
  detector : String
  context : List Part

def textLines (text : List Char) : List (List Char) := splitLines Scanner.isLineBoundary text

def lineAt (text : List Char) (n : ℕ) : List Char :=
  if n = 0 then [] else ((textLines text)[n - 1]?).getD []

def pemMark : List Char := "PRIVATE KEY-----".toList

/-- `line_idx in pem_doc_lines`. -/
def isPemDocLine (H : Host) (text : List Char) (n : ℕ) : Bool :=
  decide (pemMark <:+: text) && (H.docstringLines text).contains n

/-- The matches in the line with number `n`. -/
def lineMatches (H : Host) (text : List Char) (filename : String) (n : ℕ) : List Candidate :=
  candidates H filename (isPemDocLine H text n) (lineAt text n)

def maxLineLength : ℕ := 10000

def matchFinding (line : List Char) (filename : String) (n : ℕ) (accepted : List Candidate) (c : Candidate) :
    SecretFinding :=
  { secretType := c.secretType, maskedValue := c.maskedValue, file := filename, lineNumber := n
    columnStart := c.start + 1, columnEnd := c.stop, detector := c.detector
    context := maskLine line accepted }

def lineFindings (H : Host) (text : List Char) (filename : String) (n : ℕ) : List SecretFinding :=
  if maxLineLength < (lineAt text n).length then []
  else
    let accepted := survivors (lineMatches H text filename n)
    accepted.map (matchFinding (lineAt text n) filename n accepted)

def regexFindings (H : Host) (text : List Char) (filename : String) : List SecretFinding :=
  (List.range (textLines text).length).flatMap fun i => lineFindings H text filename (i + 1)

def hardcoded : String := "hardcoded_credential_variable"

def Assignment.credential (H : Host) (a : Assignment) : Option (List Char) :=
  a.value.filter fun v =>
    8 ≤ v.length && !(H.dummy v &&
      !(a.names.any H.explicitCred && 20 ≤ v.length && H.entropyAtLeastThree v))

def namesCredential (H : Host) (value name : List Char) : Bool :=
  H.credVar name && H.lower name ≠ H.lower value

def isBlocked (found : List SecretFinding) (n : ℕ) : Bool :=
  found.any fun f => f.lineNumber = n && f.detector ≠ hardcoded

def valueFinding (text : List Char) (filename : String) (a : Assignment) (v : List Char) : SecretFinding :=
  { secretType := hardcoded, maskedValue := maskSecret v, file := filename, lineNumber := a.line
    columnStart := a.colOffset + 1, columnEnd := a.endColOffset, detector := hardcoded
    context := maskValueFrom v 0 (lineAt text a.line) }

def assignmentFindings (H : Host) (text : List Char) (filename : String) (found : List SecretFinding)
    (a : Assignment) : List SecretFinding :=
  match a.credential H with
  | none => []
  | some v =>
    (a.names.filter fun name => namesCredential H v name && !isBlocked found a.line).map fun _ =>
      valueFinding text filename a v

def configSuffixes : List String :=
  [".env", ".ini", ".conf", ".yaml", ".yml", ".json", ".toml", ".txt"]

def astFindings (H : Host) (text : List Char) (filename : String) : List SecretFinding :=
  if endsWithAny filename configSuffixes then []
  else ((H.assignments text).getD []).flatMap (assignmentFindings H text filename (regexFindings H text filename))

/-- The order of `(line_number, column_start, detector, secret_type)`. -/
def ComesFirst (f f' : SecretFinding) : Prop :=
  f.lineNumber < f'.lineNumber ∨ f.lineNumber = f'.lineNumber ∧
    (f.columnStart < f'.columnStart ∨ f.columnStart = f'.columnStart ∧
      (f.detector < f'.detector ∨ f.detector = f'.detector ∧ f.secretType ≤ f'.secretType))

instance : DecidableRel ComesFirst := fun f f' =>
  inferInstanceAs (Decidable (f.lineNumber < f'.lineNumber ∨ f.lineNumber = f'.lineNumber ∧
    (f.columnStart < f'.columnStart ∨ f.columnStart = f'.columnStart ∧
      (f.detector < f'.detector ∨ f.detector = f'.detector ∧ f.secretType ≤ f'.secretType))))

def scanText (H : Host) (text : List Char) (filename : String) : List SecretFinding :=
  if text = [] then []
  else (regexFindings H text filename ++ astFindings H text filename).insertionSort ComesFirst

end TimeCodeSecurity.Secrets
