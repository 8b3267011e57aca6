import TimeCodeSecurity.Foundations.FileTree
import TimeCodeSecurity.Remediation.Transformers
import Mathlib.Data.List.Sort

/-! # Writing fixes to a project

`remediate_project`: the findings are grouped by file, and those of a file are patched from the last line
up, each patch on the content the one before it left. A file whose patches all pass is scanned once more
as a whole and then written, by a temporary sibling that takes its place. The engine that makes a patch,
the re-scans and `difflib` are parameters, and so is what the operating system answers; the hook and the
environment variables of the tests are left out.
-/
namespace TimeCodeSecurity.Orchestrator
open Remediation (PatchStatus)
set_option autoImplicit false

abbrev Text := List Char

/-- A finding as a dictionary: what the orchestrator reads of it and the rest. -/
structure Finding (ρ : Type) where
  file : String := ""
  /-- `int(fnd.get("line_number", 0))`, which can fail. -/
  lineNumber : Option ℤ := some 0
  suppressed : Bool := false
  rest : ρ

structure RemediationRecord (κ : Type) where
  originalFile : String
  patchStatus : PatchStatus
  verificationPassed : Bool
  limitations : List String
  patchedSource : Option Text
  rest : κ
  /-- `__post_init__`. -/
  consistent : verificationPassed = true ↔ patchStatus = .success

namespace RemediationRecord

variable {κ : Type} (r : RemediationRecord κ)

def accepted : Option Text :=
  if r.patchStatus = .success ∧ r.verificationPassed = true then r.patchedSource else none

/-- `dataclasses.replace` by a failure. -/
def failed (status : PatchStatus) (hstatus : status ≠ .success) (limitation : String) :
    RemediationRecord κ :=
  { r with
    patchStatus := status
    verificationPassed := false
    patchedSource := none
    limitations := r.limitations ++ [limitation]
    consistent := by simp [hstatus] }

def noted (limitation : String) : RemediationRecord κ :=
  { r with limitations := r.limitations ++ [limitation] }

end RemediationRecord

structure Patch where
  filePath : String
  originalCode : Text
  newCode : Text

/-- The status of a `VerificationResult`. -/
inductive FixStatus
  | verifiedFix | regressionDetected | notVerified | invalidPatch
deriving DecidableEq, Repr

/-- `SequenceMatcher.get_opcodes()`. -/
structure Opcode where
  equal : Bool
  i1 : ℤ
  i2 : ℤ
  j1 : ℤ
  j2 : ℤ

structure Flaw where
  suppressed : Bool
  text : String
deriving DecidableEq, Repr

/-- An exception is given by its text; no `verifyFix` means that the import failed. -/
structure Engines (ρ κ σ : Type) where
  refineFindingLineNumber : Finding ρ → Text → Except String ℤ
  remediate : Finding ρ → Text → String → Except String (RemediationRecord κ)
  resolveTargetSignature : Finding ρ → List (String × Text) → Option σ
  verifyFix : Option (List (String × Text) → Patch → σ → Except String (FixStatus × String))
  opcodes : Text → Text → List Opcode
  scanSourceForVerification : String → Text → Except String (List Flaw)

/-- `for tag, i1, i2, j1, j2 in matcher.get_opcodes()`. -/
def mapThrough (oldLine k : ℤ) : ℤ → List Opcode → ℤ
  | shift, [] => oldLine + shift
  | shift, op :: rest =>
    if op.i2 ≤ k then mapThrough oldLine k (shift + ((op.j2 - op.j1) - (op.i2 - op.i1))) rest
    else if op.i1 ≤ k then
      if op.equal then (op.j1 + (k - op.i1)) + 1 else op.j1 + 1
    else oldLine + shift

structure RoundtripStats where
  totalFlaws : ℕ
  activeFlaws : ℕ
  suppressedFlaws : ℕ
  residual : List String
deriving DecidableEq, Repr

def roundtripValidate (findings : List Flaw) : Bool × String × RoundtripStats :=
  let residual := findings.filter fun f => ¬f.suppressed
  let stats : RoundtripStats :=
    { totalFlaws := findings.length
      activeFlaws := residual.length
      suppressedFlaws := findings.length - residual.length
      residual := residual.map (·.text) }
  if residual ≠ [] then
    (false, "Residual flaw(s) after roundtrip re-scan: " ++ String.intercalate "; " stats.residual, stats)
  else (true, "", stats)

/-! ## The patches of one file -/

section Patches

variable {ρ κ σ : Type} (E : Engines ρ κ σ)

def mapLineNumber (prevContent newContent : Text) (oldLine : ℤ) : ℤ :=
  if oldLine ≤ 0 then oldLine
  else mapThrough oldLine (oldLine - 1) 0 (E.opcodes prevContent newContent)

/-- The cross-file gate of `verify_fix`. -/
def crossFileGate (files : List (String × Text)) (relFile : String) (fnd : Finding ρ)
    (currentContent : Text) (record : RemediationRecord κ) : RemediationRecord κ :=
  match record.accepted, E.verifyFix with
  | some patched, some verifyFix =>
    let workingFiles := setItem files relFile currentContent
    match E.resolveTargetSignature fnd workingFiles with
    | none => record
    | some targetSig =>
      match verifyFix workingFiles ⟨relFile, currentContent, patched⟩ targetSig with
      | .ok (.regressionDetected, reason) =>
        record.failed .failedVerification (by decide) ("Cross-file regression detected: " ++ reason)
      | .ok (.notVerified, reason) =>
        record.failed .failedVerification (by decide) ("Cross-file verification failed: " ++ reason)
      | .ok (.invalidPatch, reason) =>
        record.failed .failedSyntax (by decide) ("Invalid patch: " ++ reason)
      | .ok (.verifiedFix, _) => record
      | .error _ => record
  | _, _ => record

def recordOf (files : List (String × Text)) (relFile : String) (fnd : Finding ρ)
    (currentContent : Text) : Except String (RemediationRecord κ) := do
  let line ← E.refineFindingLineNumber fnd currentContent
  let refined := { fnd with lineNumber := some line }
  let record ← E.remediate refined currentContent relFile
  return crossFileGate E files relFile refined currentContent record

def shifted (prevText currentContent : Text) (fnd : Finding ρ) : Finding ρ :=
  { fnd with
    lineNumber := some (mapLineNumber E prevText currentContent (fnd.lineNumber.getD 0)) }

structure Patching (κ : Type) where
  records : List (RemediationRecord κ)
  fileSuccess : Bool
  content : Text

/-- `for idx, fnd in enumerate(working_fnds)`. -/
def patchFile (files : List (String × Text)) (relFile : String) :
    List (Finding ρ) → Text → Except String (Patching κ)
  | [], currentContent => .ok ⟨[], true, currentContent⟩
  | fnd :: pending, currentContent => do
    let record ← recordOf E files relFile fnd currentContent
    match record.accepted with
    | none => return ⟨[record], false, currentContent⟩
    | some patched =>
      let after ← patchFile files relFile (pending.map (shifted E currentContent patched)) patched
      return { after with records := record :: after.records }
termination_by fnds => fnds.length

/-- `sorted(file_fnds, key=..., reverse=True)`: equal lines keep their order. -/
def sortedBottomUp (fileFnds : List (Finding ρ)) : List (Finding ρ) :=
  fileFnds.insertionSort fun f g => g.lineNumber.getD 0 ≤ f.lineNumber.getD 0

structure FileVerdict (κ : Type) where
  records : List (RemediationRecord κ)
  fileSuccess : Bool
  content : Text
  roundtrip : Option RoundtripStats

def fileVerdict (files : List (String × Text)) (relFile : String) (origContent : Text)
    (fileFnds : List (Finding ρ)) : Except String (FileVerdict κ) := do
  if fileFnds.any (·.lineNumber.isNone) then throw "int() failed"
  let p ← patchFile E files relFile (sortedBottomUp fileFnds) origContent
  if p.fileSuccess ∧ p.content ≠ origContent then
    let findings ← E.scanSourceForVerification relFile p.content
    let (roundtripOk, roundtripErr, stats) := roundtripValidate findings
    if roundtripOk then return ⟨p.records, true, p.content, some stats⟩
    else
      let records := p.records.map fun r =>
        if r.patchStatus = .success then
          r.failed .failedVerification (by decide) ("Roundtrip re-scan failed: " ++ roundtripErr)
        else r
      return ⟨records, false, p.content, some stats⟩
  else return ⟨p.records, p.fileSuccess, p.content, none⟩

def rolledBack (isWrite : Bool) (v : FileVerdict κ) : List (RemediationRecord κ) :=
  if isWrite ∧ ¬v.fileSuccess then
    v.records.map fun r =>
      if r.patchStatus = .success then
        r.noted "transaction_rollback: not persisted to disk due to subsequent failure in same file"
      else r
  else v.records

end Patches

/-- The components of `Path(s)`. -/
def pathParts (s : String) : FilePath :=
  ((s.toList.splitOn '/').map String.ofList).filter fun c => c ≠ "" ∧ c ≠ "."

/-- `base / s`: an absolute path stays what it is. -/
def joinPath (base : FilePath) (s : String) : FilePath :=
  if s.toList.head? = some '/' then pathParts s else base ++ pathParts s

/-- The line ends as `read_text` gives them. -/
def universalNewlines : Text → Text
  | [] => []
  | '\r' :: '\n' :: rest => '\n' :: universalNewlines rest
  | '\r' :: rest => '\n' :: universalNewlines rest
  | c :: rest => c :: universalNewlines rest

def isCrlf : Text → Bool
  | [] => false
  | '\r' :: '\n' :: _ => true
  | _ :: rest => isCrlf rest

/-- `text.replace("\r\n", "\n")`. -/
def lfText : Text → Text
  | [] => []
  | '\r' :: '\n' :: rest => '\n' :: lfText rest
  | c :: rest => c :: lfText rest

def normalizedContent (crlf : Bool) (content : Text) : Text :=
  if crlf then (lfText content).flatMap fun c => if c = '\n' then ['\r', '\n'] else [c]
  else lfText content

/-! ## Writing one file -/

/-- How `write_text` ends: it cannot open the file, fails after some of the text, or is through. -/
inductive WriteOutcome
  | notOpened
  | cut (n : ℕ)
  | done
deriving DecidableEq, Repr

def WriteOutcome.text (content : Text) : WriteOutcome → Option Text
  | .notOpened => none
  | .cut n => some (content.take n)
  | .done => some content

structure Answers where
  stat : Bool := true
  access : Bool := true
  readText : Bool := true
  readBytes : Bool := true
  write : WriteOutcome := .done
  chmod : Bool := true
  replace : Bool := true
  unlink : Bool := true
deriving DecidableEq, Repr

/-- The paths of a run, what is answered for each file, and how many steps a path may take. -/
structure Project where
  target : FilePath
  baseDir : FilePath
  answers : String → Answers
  steps : ℕ

inductive WriteResult
  | written | unwritten | stale
deriving DecidableEq, Repr

section Writing

variable (P : Project) (d : FileTree)

/-- `path.is_file()`. -/
def isFile (path : FilePath) : Bool :=
  match resolveFrom true d.kindAt P.steps [] path false with
  | some (p, _) => d.kindAt p = some .file
  | none => false

/-- `path.is_symlink()` at a path whose directory is resolved. -/
def isSymlink (path : FilePath) : Bool :=
  match d.kindAt path with
  | some (.link _ _) => true
  | _ => false

def entryAt (path : FilePath) : Option (FilePath × Bool) :=
  match path.getLast? with
  | none => none
  | some name =>
    (d.resolve P.steps path.dropLast).map fun r =>
      (r.1 ++ [name], r.2 || isSymlink d (r.1 ++ [name]))

/-- `disk_file`, with whether a link was met on the way to it. There is none where `resolve` raises. -/
def diskFile (relFile : String) : Option (FilePath × Bool) :=
  if isFile P d P.target then entryAt P d P.target
  else
    match d.resolve P.steps (joinPath P.target relFile) with
    | none => none
    | some (cand, met) =>
      if (d.kindAt cand).isSome then some (cand, met)
      else d.resolve P.steps (joinPath P.baseDir relFile)

/-- `disk_file.with_suffix(disk_file.suffix + ".tcs_tmp")`, without the directory. -/
def tmpName (path : FilePath) : String := path.getLast?.getD "" ++ ".tcs_tmp"

def tmpFile (path : FilePath) : FilePath := path.dropLast ++ [tmpName path]

def writeTmp (a : Answers) (path : FilePath) (mode : ℕ) (content : Text) : FileTree × Bool :=
  match a.write.text content, d.reach P.steps path.dropLast (tmpName path) with
  | some text, some place =>
    let mode' := if a.write = .done ∧ a.chmod then some mode else none
    match d.node place with
    | none => (d.create place text (mode'.getD 0o644), a.write = .done)
    | some (.file i) =>
      let d' := d.overwrite i text
      (match mode' with
        | some m => d'.chmod i m
        | none => d', a.write = .done)
    | some _ => (d, false)
  | _, _ => (d, false)

/-- `os.replace`, and what is done where it or the write before it fails. -/
def replaceFile (a : Answers) (path : FilePath) (mode : ℕ) (content : Text) :
    FileTree × WriteResult :=
  let (d', whole) := writeTmp P d a path mode content
  if whole ∧ a.replace then (d'.rename (tmpFile path) path, .written)
  else if d'.existsAt P.steps path.dropLast (tmpName path) ∧ a.unlink then
    (d'.unlink (tmpFile path), .unwritten)
  else (d', .unwritten)

/-- The checks before a file is written, and the write. -/
def persist (relFile : String) (origContent currentContent : Text) :
    Option (FileTree × WriteResult) :=
  let a := P.answers relFile
  (diskFile P d relFile).map fun (path, _) =>
    match d.node path with
    | none => (d, .unwritten)
    | some (.link _ _) => (d, .unwritten)
    -- A directory has two names at least.
    | some .dir => (d, .unwritten)
    | some (.file i) =>
      if ¬a.stat then (d, .unwritten)
      else if 1 < d.nlink i then (d, .unwritten)
      else if ¬a.access then (d, .unwritten)
      else if (if a.readText then (d.inodes i).text.map universalNewlines else none) ≠ some origContent
      then (d, .stale)
      else
        let crlf := a.readBytes && ((d.inodes i).text.map isCrlf).getD false
        replaceFile P d a path (d.inodes i).mode (normalizedContent crlf currentContent)

end Writing

/-! ## The project -/

structure State (κ : Type) where
  tree : FileTree
  remediationRecords : List (RemediationRecord κ) := []
  writtenFiles : List String := []
  staleFiles : List String := []
  unwrittenEligibleFiles : List String := []
  roundtripResults : List (String × RoundtripStats) := []

namespace State

variable {κ : Type} (s : State κ)

def recorded (isWrite : Bool) (relFile : String) (v : FileVerdict κ) : State κ :=
  { s with
    remediationRecords := s.remediationRecords ++ rolledBack isWrite v
    roundtripResults :=
      match v.roundtrip with
      | some stats => setItem s.roundtripResults relFile stats
      | none => s.roundtripResults }

def unwritten (relFile : String) : State κ :=
  { s with unwrittenEligibleFiles := s.unwrittenEligibleFiles ++ [relFile] }

def afterWrite (relFile : String) (tree : FileTree) : WriteResult → State κ
  | .written => { s with tree, writtenFiles := s.writtenFiles ++ [relFile] }
  | .unwritten => { s with tree }.unwritten relFile
  | .stale => { s with tree, staleFiles := s.staleFiles ++ [relFile] }.unwritten relFile

end State

structure Summary where
  totalEligible : ℕ
  successfulRemediations : ℕ
  unsupportedCwes : ℕ
  failedVerifications : ℤ
  writtenFiles : List String
  staleFiles : List String
  unwrittenEligibleFiles : List String
  isWrite : Bool
  isDryRun : Bool
  roundtrip : List (String × RoundtripStats)
  roundtripRejectedFiles : List String

structure ProjectRemediationResult (ρ κ : Type) where
  remediationRecords : List (RemediationRecord κ)
  writtenFiles : List String
  staleFiles : List String
  unwrittenEligibleFiles : List String
  findingsByFile : List (String × List (Finding ρ))
  remediationCandidates : List (Finding ρ)
  summary : Summary

section Run

variable {ρ κ σ : Type} (E : Engines ρ κ σ) (files : List (String × Text)) (P : Project)
  (isWrite : Bool)

/-- One round of `for rel_file, file_fnds in findings_by_file.items()`, with what it raises. -/
def remediateEntry (entry : String × List (Finding ρ)) (s : State κ) : State κ × Option String :=
  match files.lookup entry.1 with
  | none => (s, none)
  | some origContent =>
    match fileVerdict E files entry.1 origContent entry.2 with
    | .error e => (s, some e)
    | .ok v =>
      let s' := s.recorded isWrite entry.1 v
      if ¬isWrite then (s', none)
      else if v.fileSuccess ∧ v.content ≠ origContent then
        match persist P s.tree entry.1 origContent v.content with
        | none => (s', some "resolve() failed")
        | some (tree, result) => (s'.afterWrite entry.1 tree result, none)
      else if ¬v.fileSuccess then (s'.unwritten entry.1, none)
      else (s', none)

def remediateEntries : List (String × List (Finding ρ)) → State κ → State κ × Option String
  | [], s => (s, none)
  | entry :: rest, s =>
    match remediateEntry E files P isWrite entry s with
    | (s', none) => remediateEntries rest s'
    | (s', some e) => (s', some e)

/-- `findings_by_file.setdefault(f_file, []).append(f)`. -/
def addFinding (groups : List (String × List (Finding ρ))) (f : Finding ρ) :
    List (String × List (Finding ρ)) :=
  if f.file = "" then groups else setItem groups f.file ((groups.lookup f.file).getD [] ++ [f])

def remediationCandidates (effectiveFindings : List (Finding ρ)) : List (Finding ρ) :=
  effectiveFindings.filter fun f => ¬f.suppressed

def findingsByFile (candidates : List (Finding ρ)) : List (String × List (Finding ρ)) :=
  candidates.foldl addFinding []

def summaryOf (candidates : List (Finding ρ)) (s : State κ) : Summary :=
  let isSuccess (r : RemediationRecord κ) : Bool :=
    r.patchStatus = .success ∧ (isWrite → r.originalFile ∈ s.writtenFiles)
  let successful := s.remediationRecords.countP isSuccess
  let unsupported := s.remediationRecords.countP (·.patchStatus = .unsupportedCwe)
  { totalEligible := candidates.length
    successfulRemediations := successful
    unsupportedCwes := unsupported
    failedVerifications := (candidates.length : ℤ) - successful - unsupported
    writtenFiles := s.writtenFiles
    staleFiles := s.staleFiles
    unwrittenEligibleFiles := s.unwrittenEligibleFiles
    isWrite := isWrite
    isDryRun := !isWrite
    roundtrip := s.roundtripResults
    roundtripRejectedFiles :=
      ((s.roundtripResults.filter (·.2.activeFlaws ≠ 0)).map (·.1)).insertionSort (· ≤ ·) }

def remediateProject (effectiveFindings : List (Finding ρ)) (tree : FileTree) :
    FileTree × Except String (ProjectRemediationResult ρ κ) :=
  let candidates := remediationCandidates effectiveFindings
  let groups := findingsByFile candidates
  match remediateEntries E files P isWrite groups { tree } with
  | (s, some e) => (s.tree, .error e)
  | (s, none) =>
    (s.tree, .ok
      { remediationRecords := s.remediationRecords
        writtenFiles := s.writtenFiles
        staleFiles := s.staleFiles
        unwrittenEligibleFiles := s.unwrittenEligibleFiles
        findingsByFile := groups
        remediationCandidates := candidates
        summary := summaryOf isWrite candidates s })

end Run
end TimeCodeSecurity.Orchestrator
