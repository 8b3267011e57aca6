import TimeCodeSecurity.Foundations.Tables
import TimeCodeSecurity.Foundations.Json
import Mathlib.Data.List.Sort

/-! # SARIF documents and their limits

A document is its runs and the rest; a run is what the trimming looks at and the rest, up to the order of the
keys, which changes no length. `bound_sarif_document` removes repeated results, caps the results of a run,
drops snippets and then results until the text fits, and leaves notes about it.
-/
namespace TimeCodeSecurity.Sarif
open Json
set_option autoImplicit false

structure Invocation where
  executionSuccessful : Option Json
  toolExecutionNotifications : Option (List Json)
  rest : JsonFields

structure SarifRun where
  results : Option (List Json)
  properties : Option JsonFields
  invocations : Option (List Invocation)
  rest : JsonFields

structure Document where
  runs : List SarifRun
  rest : JsonFields

def optField (key : String) (value : Option Json) : JsonFields := value.toList.map fun v => (key, v)

def Invocation.toJson (i : Invocation) : Json :=
  .obj (optField "executionSuccessful" i.executionSuccessful ++
    (optField "toolExecutionNotifications" (i.toolExecutionNotifications.map .arr) ++ i.rest))

def SarifRun.toJson (run : SarifRun) : Json :=
  .obj (optField "results" (run.results.map .arr) ++
    (optField "properties" (run.properties.map .obj) ++
      (optField "invocations" (run.invocations.map fun is => .arr (is.map Invocation.toJson)) ++ run.rest)))

def Document.toJson (doc : Document) : Json :=
  .obj (("runs", .arr (doc.runs.map SarifRun.toJson)) :: doc.rest)

def sarifByteSize (doc : Document) (indent : ℕ) : ℕ := Json.size indent 0 doc.toJson

/-- `run.get("results") or []`. -/
def SarifRun.resultList (run : SarifRun) : List Json := run.results.getD []

def strOf? : Json → Option String
  | .str s => some s
  | _ => none

def intOf? : Json → Option ℤ
  | .int n => some n
  | _ => none

def ruleId (r : Json) : Option String := (r.field? "ruleId").bind strOf?

def physicalLocation (r : Json) : Json :=
  match r.field? "locations" with
  | some (.arr (.obj fs :: _)) => (get? "physicalLocation" fs).getD (.obj [])
  | _ => .obj []

def uri (r : Json) : String :=
  ((((physicalLocation r).field? "artifactLocation").bind (field? "uri")).bind strOf?).getD ""

def startLine (r : Json) : ℤ :=
  ((((physicalLocation r).field? "region").bind (field? "startLine")).bind intOf?).getD 0

def resultIdentity (r : Json) : Option String × String × ℤ := (ruleId r, uri r, startLine r)

def lower (s : String) : String := String.ofList (s.toList.map Char.toLower)

/-- `str(result.get("level", "warning")).lower()`; of the values that are no strings only `None` has a text
that is a level. -/
def levelText (r : Json) : String :=
  match r.field? "level" with
  | none => "warning"
  | some (.str s) => lower s
  | some .null => "none"
  | some _ => ""

def levelRanks : List (String × ℕ) := [("error", 0), ("warning", 1), ("note", 2), ("none", 3)]

def cweSpecificityTier : List (String × ℕ) :=
  [("CWE-89", 1), ("CWE-78", 1), ("CWE-79", 1), ("CWE-94", 1), ("CWE-22", 1), ("CWE-918", 1),
    ("CWE-916", 1), ("CWE-384", 1), ("CWE-327", 2), ("CWE-798", 2), ("CWE-502", 2), ("CWE-20", 3),
    ("CWE-707", 3), ("CWE-116", 3), ("CWE-693", 3)]

def levelRank (r : Json) : ℕ := (levelRanks.lookup (levelText r)).getD 1

def specificityTier (r : Json) : ℕ := (cweSpecificityTier.lookup ((ruleId r).getD "")).getD 2

/-- `_result_priority`; the smaller it is, the longer a result is kept. -/
def resultPriority (r : Json) : ℕ × ℕ := (levelRank r, specificityTier r)

def NotAfter (a b : Json) : Prop :=
  levelRank a < levelRank b ∨ levelRank a = levelRank b ∧ specificityTier a ≤ specificityTier b

instance : DecidableRel NotAfter := fun a b =>
  inferInstanceAs (Decidable (levelRank a < levelRank b ∨
    levelRank a = levelRank b ∧ specificityTier a ≤ specificityTier b))

/-- `sorted(results, key=_result_priority)`. -/
def ranked (results : List Json) : List Json := results.insertionSort NotAfter

/-- `key == "region"` with a snippet in it. -/
def isRegionWithSnippet (key : String) : Json → Bool
  | .obj fs => key = "region" && fs.any (·.1 = "snippet")
  | _ => false

def popSnippet : Json → Json
  | .obj fs => .obj (fs.filter (·.1 ≠ "snippet"))
  | j => j

mutual

def stripSnippets : Json → Json
  | .arr xs => .arr (stripItems xs)
  | .obj fs => .obj (stripFields fs)
  | .null => .null
  | .bool b => .bool b
  | .int n => .int n
  | .float repr => .float repr
  | .str s => .str s

def stripItems : List Json → List Json
  | [] => []
  | x :: xs => stripSnippets x :: stripItems xs

def stripFields : JsonFields → JsonFields
  | [] => []
  | (k, v) :: fs =>
    (k, if isRegionWithSnippet k v then popSnippet v else stripSnippets v) :: stripFields fs

end

def Invocation.strip (i : Invocation) : Invocation :=
  { executionSuccessful := i.executionSuccessful.map stripSnippets
    toolExecutionNotifications := i.toolExecutionNotifications.map stripItems
    rest := stripFields i.rest }

def SarifRun.strip (run : SarifRun) : SarifRun :=
  { results := run.results.map stripItems
    properties := run.properties.map stripFields
    invocations := run.invocations.map (·.map Invocation.strip)
    rest := stripFields run.rest }

def Document.strip (doc : Document) : Document :=
  { runs := doc.runs.map SarifRun.strip, rest := stripFields doc.rest }

inductive Error
  | indexError
deriving DecidableEq, Repr

def factsText (facts : List (String × ℕ)) : String :=
  ", ".intercalate ((facts.filter (·.2 ≠ 0)).map fun f => f.1 ++ "=" ++ toString f.2)

def truncationNotice (facts : List (String × ℕ)) : Json :=
  .obj [("level", .str "warning"),
    ("message", .obj [("text", .str
      ("TimeCodeSecurity SARIF was trimmed to stay inside GitHub Code Scanning limits: " ++ factsText facts))])]

def Invocation.notify (i : Invocation) (notice : Json) : Invocation :=
  { i with toolExecutionNotifications := some (i.toolExecutionNotifications.getD [] ++ [notice]) }

def emptyInvocation : Invocation :=
  { executionSuccessful := none, toolExecutionNotifications := none, rest := [] }

def setFacts (properties : JsonFields) (facts : List (String × ℕ)) : JsonFields :=
  (facts.filter (·.2 ≠ 0)).foldl (fun ps f => setItem ps f.1 (.int f.2)) properties

def noteTruncation (run : SarifRun) (facts : List (String × ℕ)) : Except Error SarifRun :=
  match run.invocations.getD [emptyInvocation] with
  | [] => .error .indexError
  | invocation :: more =>
    .ok { run with
      properties := some (setFacts (run.properties.getD []) facts)
      invocations := some (invocation.notify (truncationNotice facts) :: more) }

def dedupe (seen : List (Option String × String × ℤ)) : List Json → List Json
  | [] => []
  | r :: rs =>
    if resultIdentity r ∈ seen then dedupe seen rs
    else r :: dedupe (resultIdentity r :: seen) rs

def capped (maxResults : ℕ) (results : List Json) : List Json :=
  if maxResults < results.length then (ranked results).take maxResults else results

def prepareRun (maxResults : ℕ) (run : SarifRun) : Except Error SarifRun :=
  let results := run.resultList
  let deduped := dedupe [] results
  let duplicates := results.length - deduped.length
  let kept := capped maxResults deduped
  let overflow := deduped.length - kept.length
  let run := { run with results := some kept }
  if duplicates ≠ 0 ∨ overflow ≠ 0 then
    noteTruncation run [("sarif_duplicate_results_dropped", duplicates),
      ("sarif_results_over_display_cap", overflow)]
  else .ok run

def prepareRuns (maxResults : ℕ) : List SarifRun → Except Error (List SarifRun)
  | [] => .ok []
  | run :: runs => do
    let run ← prepareRun maxResults run
    let runs ← prepareRuns maxResults runs
    return run :: runs

def prepare (maxResults : ℕ) (doc : Document) : Except Error Document := do
  let runs ← prepareRuns maxResults doc.runs
  return { doc with runs }

def SarifRun.count (run : SarifRun) : ℕ := run.resultList.length

def mostResults (runs : List SarifRun) : ℕ := (runs.map SarifRun.count).foldr max 0

def keepOf (n : ℕ) : ℕ := max 1 (n * 3 / 4)

def SarifRun.shed (run : SarifRun) : SarifRun :=
  { run with results := some ((ranked run.resultList).take (keepOf run.count)) }

/-- Sheds from the first run with `n` results. -/
def shedFirst (n : ℕ) : List SarifRun → List SarifRun
  | [] => []
  | run :: runs => if run.count = n then run.shed :: runs else run :: shedFirst n runs

def shedRound (doc : Document) : Document := { doc with runs := shedFirst (mostResults doc.runs) doc.runs }

/-- `while sarif_byte_size(...) > max_bytes`, with what it dropped so far. -/
def shedLoop (indent maxBytes : ℕ) : ℕ → Document → ℕ → Option (Document × ℕ)
  | 0, _, _ => none
  | fuel + 1, doc, dropped =>
    if sarifByteSize doc indent ≤ maxBytes then some (doc, dropped)
    else
      let n := mostResults doc.runs
      if n = 0 then some (doc, dropped)
      else shedLoop indent maxBytes fuel (shedRound doc) (dropped + (n - keepOf n))

def noteShedding (doc : Document) (dropped : ℕ) : Except Error Document :=
  match doc.runs with
  | [] => .ok doc
  | run :: runs =>
    if dropped = 0 then .ok doc
    else do
      let run ← noteTruncation run [("sarif_results_dropped_for_size", dropped)]
      return { doc with runs := run :: runs }

def stripped (indent maxBytes : ℕ) (doc : Document) : Document :=
  if sarifByteSize doc indent > maxBytes then doc.strip else doc

/-- `bound_sarif_document`; nothing when the fuel is not enough for the loop. -/
def boundSarifDocument (fuel maxBytes maxResults indent : ℕ) (doc : Document) :
    Option (Except Error Document) :=
  match prepare maxResults doc with
  | .error e => some (.error e)
  | .ok doc =>
    (shedLoop indent maxBytes fuel (stripped indent maxBytes doc) 0).map fun shed =>
      noteShedding shed.1 shed.2

end TimeCodeSecurity.Sarif
