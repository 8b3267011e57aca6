import TimeCodeSecurity.Foundations.Pep440
import TimeCodeSecurity.Foundations.Tables
import TimeCodeSecurity.Py.Syntax
import TimeCodeSecurity.Scanner.Nosec

/-! # Parsing the files of a scan

`parallel_scanner.py` up to `_parse_files_sequential`: the sequential loop for small workloads, the
loop in the parent, and the pool with its governor. CPython's parser and the disk are parameters, and so
are the readings of free memory, the deaths of workers and what the futures answer. The parent pointers
that are set on a tree are a function of the tree and left out, and so are the printed lines.
-/
namespace TimeCodeSecurity.Parsing
open Py Scanner
set_option autoImplicit false

inductive ExcKind
  | syntaxError
  | valueError
  | osError
  | other
deriving DecidableEq, Repr

structure Exc where
  kind : ExcKind
  typeName : String
  message : String
deriving DecidableEq, Repr

/-- `except (SyntaxError, ValueError, UnicodeDecodeError)`; the last is a `ValueError`. -/
def Exc.isParseError (e : Exc) : Bool := e.kind = .syntaxError || e.kind = .valueError

def Exc.isReadError (e : Exc) : Bool := e.kind = .osError || e.kind = .valueError

/-- `f"{type(exc).__name__}: {exc}"[:200]`. -/
def Exc.text (e : Exc) : String :=
  String.ofList ((e.typeName ++ ": " ++ e.message).toList.take 200)

theorem Exc.text_ne_empty (e : Exc) : e.text ≠ "" := by
  intro h
  have hnil : (e.typeName ++ ": " ++ e.message).toList.take 200 = [] := by
    have hlist := congrArg String.toList h
    rwa [Exc.text, String.toList_ofList] at hlist
  simp at hnil

def brokenProcessPool : Exc :=
  ⟨.other, "BrokenProcessPool",
    "A child process terminated abruptly, the process pool is not usable anymore"⟩

/-! ## One file -/

/-- `ast.parse(source, filename)` and `read_text`. -/
structure Host where
  parse : (source filename : String) → Except Exc Module
  readText : (filename : String) → Except Exc String

def basename (path : String) : List Char := (path.toList.reverse.takeWhile (· ≠ '/')).reverse

def isCodeLine (line : List Char) : Bool :=
  line ≠ [] && !(["#", "\"\"\"", "'''"].any fun s => s.toList.isPrefixOf line)

/-- What the pre-filter decides without parsing: an empty file, and a very small `__init__.py`. -/
def isInertText (filepath source : String) : Bool :=
  let stripped := Pep440.strip source.toList
  stripped = [] ||
    (basename filepath = "__init__.py".toList && stripped.length < 100 &&
      ((TextLines.splitLines isLineBoundary stripped).map Pep440.strip).all fun l => !isCodeLine l)

def isInertStmt : Stmt → Bool
  | .expr _ (.constant ..) => true
  | .importStmt .. | .importFrom .. => true
  | _ => false

def isZeroRiskFile (H : Host) (filepath source : String) : Except Exc (Bool × Option Module) :=
  if isInertText filepath source then .ok (true, none)
  else
    match H.parse source filepath with
    | .error e => if e.isParseError then .ok (false, none) else .error e
    | .ok tree => if tree.all isInertStmt then .ok (true, none) else .ok (false, some tree)

/-- `text.replace(old, new)` from the left; `skip` counts what is left of a match. -/
def replaceFrom (old new : List Char) : ℕ → List Char → List Char
  | _, [] => []
  | 0, c :: rest =>
    if old.isPrefixOf (c :: rest) then new ++ replaceFrom old new (old.length - 1) rest
    else c :: replaceFrom old new 0 rest
  | skip + 1, _ :: rest => replaceFrom old new skip rest

def replace (old new : String) (text : List Char) : List Char :=
  replaceFrom old.toList new.toList 0 text

def moduleName (filepath : String) : String :=
  let name := replace "/" "." (replace ".py" "" (replace "\\\\" "/" filepath.toList))
  String.ofList (if ".__init__".toList.isSuffixOf name then name.take (name.length - 9) else name)

/-- The dictionary `_parse_single_file` returns, by the three cases that are told apart later; an error
is told by its text, which is therefore not empty. -/
inductive ParseResult
  | failed (filepath error : String) (h : error ≠ "")
  | skippedFastPath (filepath : String)
  | parsed (filepath modName : String) (tree : Module)

def ParseResult.filepath : ParseResult → String
  | .failed filepath .. | .skippedFastPath filepath | .parsed filepath .. => filepath

def parseText (H : Host) (filepath source : String) : Except Exc ParseResult :=
  match isZeroRiskFile H filepath source with
  | .error e => .error e
  | .ok (true, _) => .ok (.skippedFastPath filepath)
  | .ok (false, some tree) => .ok (.parsed filepath (moduleName filepath) tree)
  | .ok (false, none) =>
    match H.parse source filepath with
    | .ok tree => .ok (.parsed filepath (moduleName filepath) tree)
    | .error e => if e.isParseError then .ok (.failed filepath e.text e.text_ne_empty) else .error e

def parseSingleFile (H : Host) (filepath : String) : Option String → Except Exc ParseResult
  | some source => parseText H filepath source
  | none =>
    match H.readText filepath with
    | .ok source => parseText H filepath source
    | .error e => if e.isReadError then .ok (.failed filepath e.text e.text_ne_empty) else .error e

def parseHere (H : Host) (filepath : String) (source : Option String) : ParseResult :=
  match parseSingleFile H filepath source with
  | .ok result => result
  | .error e => .failed filepath e.text e.text_ne_empty

structure ScanTables where
  modules : List (String × Module) := []
  filePaths : List (String × String) := []
  skippedFiles : List (String × String) := []
  fastPathSkipped : ℕ := 0

def ScanTables.merge (t : ScanTables) : ParseResult → ScanTables
  | .failed filepath error _ => { t with skippedFiles := setItem t.skippedFiles filepath error }
  | .skippedFastPath _ => { t with fastPathSkipped := t.fastPathSkipped + 1 }
  | .parsed filepath modName tree =>
    { t with
      modules := setItem t.modules modName tree
      filePaths := setItem t.filePaths modName filepath }

structure ParseStats where
  discovered : ℕ
  parsed : ℕ
  fastPathSkipped : ℕ
  unparseable : ℕ
  parseMode : String
  governorEvents : ℕ := 0
  workersUsed : Option ℤ := none
  workersInitial : Option ℤ := none
  workersFinal : Option ℤ := none

structure ParseRun where
  tables : ScanTables
  stats : ParseStats

def ScanTables.stats (t : ScanTables) (discovered : ℕ) (parseMode : String) : ParseStats where
  discovered
  parsed := t.modules.length
  fastPathSkipped := t.fastPathSkipped
  unparseable := t.skippedFiles.length
  parseMode

def sequentialStep (H : Host) (t : ScanTables) (file : String × String) : Except Exc ScanTables :=
  match isZeroRiskFile H file.1 file.2 with
  | .error e => .error e
  | .ok (true, _) => .ok { t with fastPathSkipped := t.fastPathSkipped + 1 }
  | .ok (false, tree) =>
    match tree.elim (H.parse file.2 file.1) .ok with
    | .ok tree =>
      .ok { t with
        modules := setItem t.modules (moduleName file.1) tree
        filePaths := setItem t.filePaths (moduleName file.1) file.1 }
    | .error e =>
      if e.isParseError then .ok { t with skippedFiles := setItem t.skippedFiles file.1 e.text }
      else .error e

def parseFilesSequential (H : Host) (files : Dict String) : Except Exc ParseRun := do
  let t ← files.items.foldlM (sequentialStep H) {}
  return ⟨t, { t.stats files.items.length "sequential" with workersUsed := some 1 }⟩

/-! ## Parsing on a pool of workers

`parse_files_parallel` with `_parse_slice` and the governor. The files go to the pool in slices; every
second slice the free memory is read again, and the pool is rebuilt smaller or given up for the parent.
A worker that dies breaks its pool: what is pending is parsed again in the parent, but the pool takes no
further file.
-/

def minFreeCores : ℤ := 2
def workerRamBudgetMb : ℚ := 550
def hardSafetyThresholdMb : ℚ := 900
def memoryPressureMb : ℚ := 1500
def perFileTimeoutS : ℕ := 4
def queueBudgetSlackS : ℕ := 1
def batchSize : ℕ := 40
def maxWorkersCeiling : ℤ := 12
def ciTwoCoreRamMb : ℚ := 1600

inductive Look
  | result
  | lost
  | lateResult
  | lateLost
  | stuck
deriving DecidableEq, Repr

/-- Free memory in MB: at the start, at the check before a slice, and when a slice is handed out. A death
is given by how many files of the slice are submitted when the pool notices it; from the length of the
slice on, all of them are. A file is submitted once at most, so futures go by their files. -/
structure Machine where
  ramAtStart : Except Unit (Option ℚ)
  cpuCount : Option ℕ
  freeAtCheck : ℕ → ℚ
  freeAtSlice : ℕ → ℚ
  death : ℕ → Option ℕ
  look : (filepath : String) → Look

def computeSafeWorkers (M : Machine) : ℤ :=
  match M.ramAtStart with
  | .error () => 2
  | .ok none => 1
  | .ok (some freeRamMb) =>
    -- a count of zero is no count
    let cpuCount : ℤ := if M.cpuCount.getD 0 = 0 then 4 else M.cpuCount.getD 0
    let cpuCapacity := max 1 (cpuCount - minFreeCores)
    let ramCapacity := max 1 ⌊freeRamMb / workerRamBudgetMb⌋
    let maxWorkers := max 1 (min (min cpuCapacity ramCapacity) maxWorkersCeiling)
    if freeRamMb < hardSafetyThresholdMb then 1
    else if cpuCount = 2 ∧ maxWorkers = 1 ∧ ciTwoCoreRamMb ≤ freeRamMb then 2
    else maxWorkers

def computeAdaptiveTimeout (availableRamMb : ℚ) : ℕ :=
  if availableRamMb < hardSafetyThresholdMb then perFileTimeoutS * 3
  else if availableRamMb < memoryPressureMb then perFileTimeoutS * 2
  else perFileTimeoutS

/-- `{:.0f}`: to the nearest integer, to the even one of two. -/
def roundHalfEven (q : ℚ) : ℤ :=
  if q - ⌊q⌋ < 1 / 2 then ⌊q⌋
  else if 1 / 2 < q - ⌊q⌋ then ⌊q⌋ + 1
  else if ⌊q⌋ % 2 = 0 then ⌊q⌋ else ⌊q⌋ + 1

def budget (freeRamMb : ℚ) (workers : ℤ) (idx : ℕ) : ℤ :=
  computeAdaptiveTimeout freeRamMb * (1 + idx / max 1 workers) + queueBudgetSlackS

def timeoutText (freeRamMb : ℚ) (workers : ℤ) (idx : ℕ) : String :=
  "Timeout after " ++ (toString (budget freeRamMb workers idx) ++ ".0s deadline (parse limit " ++
    toString (computeAdaptiveTimeout freeRamMb) ++ ".0s x queue depth " ++
    toString (1 + idx / max 1 workers) ++ ", " ++ toString (max 1 workers) ++ " worker(s), " ++
    toString (roundHalfEven freeRamMb) ++ " MB free RAM)")

theorem append_ne_empty {s : String} (t : String) (h : s ≠ "") : s ++ t ≠ "" := by
  intro happend
  have hlist := congrArg String.toList happend
  rw [String.toList_append] at hlist
  exact h (String.toList_eq_nil_iff.mp (List.append_eq_nil_iff.mp hlist).1)

theorem timeoutText_ne_empty (freeRamMb : ℚ) (workers : ℤ) (idx : ℕ) :
    timeoutText freeRamMb workers idx ≠ "" :=
  append_ne_empty _ (by decide)

/-- `future.result()` of a finished future; the exception of the worker function comes back through it. -/
def Look.answer (H : Host) (file : String × String) (lost : Bool) : ParseResult :=
  if lost then parseHere H file.1 (some file.2)
  else
    match parseSingleFile H file.1 (some file.2) with
    | .ok r => r
    | .error _ => parseHere H file.1 (some file.2)

def firstPass (M : Machine) (H : Host) (file : String × String) : Option ParseResult :=
  match M.look file.1 with
  | .result => some (Look.answer H file false)
  | .lost => some (Look.answer H file true)
  | .lateResult | .lateLost | .stuck => none

def secondPass (M : Machine) (H : Host) (freeRamMb : ℚ) (workers : ℤ) (idx : ℕ)
    (file : String × String) : ParseResult :=
  match M.look file.1 with
  | .lateResult => Look.answer H file false
  | .lateLost => Look.answer H file true
  | .result | .lost | .stuck =>
    .failed file.1 (timeoutText freeRamMb workers idx) (timeoutText_ne_empty _ _ _)

/-- `refusedFrom` is the first submission the pool refuses, if it comes to refuse any. -/
def parseSlice (M : Machine) (H : Host) (refusedFrom : Option ℕ) (batch : List (String × String))
    (freeRamMb : ℚ) (workers : ℤ) : Except Exc (List ParseResult) :=
  if refusedFrom.all (batch.length ≤ ·) then
    .ok (batch.mapIdx fun idx file =>
      (firstPass M H file).getD (secondPass M H freeRamMb workers idx file))
  else .error brokenProcessPool

structure Fleet where
  maxWorkers : ℤ
  executor : Option Bool := none
  inProcess : Bool := false
  governorEvents : ℕ := 0

/-- The check of free memory before slice `k`. -/
def Fleet.recheck (M : Machine) (k : ℕ) (s : Fleet) : Fleet :=
  if s.executor.isSome ∧ 0 < k ∧ k % 2 = 0 then
    if M.freeAtCheck k < hardSafetyThresholdMb then
      { maxWorkers := 1, executor := none, inProcess := true, governorEvents := s.governorEvents + 1 }
    else if M.freeAtCheck k < memoryPressureMb ∧ 2 < s.maxWorkers then
      { s with
        maxWorkers := s.maxWorkers - 1
        executor := none
        governorEvents := s.governorEvents + 1 }
    else s
  else s

/-- `if executor is None` where a pool is needed. -/
def Fleet.open (s : Fleet) : Fleet :=
  if s.inProcess then s else { s with executor := some (s.executor.getD false) }

/-- `[file_items[i:i + BATCH_SIZE] for i in range(0, total_files, BATCH_SIZE)]`. -/
def slices (items : List (String × String)) : List (List (String × String)) :=
  (List.range ((items.length + (batchSize - 1)) / batchSize)).map fun i =>
    (items.drop (batchSize * i)).take batchSize

def parseBatchHere (H : Host) (t : ScanTables) (batch : List (String × String)) : ScanTables :=
  batch.foldl (fun t file => t.merge (parseHere H file.1 (some file.2))) t

/-- The loop from slice `k` on. A pool that has lost a worker is broken in the slices after. -/
def parseSlices (M : Machine) (H : Host) :
    ℕ → Fleet → ScanTables → List (List (String × String)) → Except Exc (Fleet × ScanTables)
  | _, s, t, [] => .ok (s, t)
  | k, s, t, batch :: rest =>
    let s := (s.recheck M k).open
    match s.executor with
    | none => parseSlices M H (k + 1) s (parseBatchHere H t batch) rest
    | some broken =>
      match parseSlice M H (if broken then some 0 else M.death k) batch (M.freeAtSlice k)
          s.maxWorkers with
      | .error e => .error e
      | .ok results =>
        parseSlices M H (k + 1) { s with executor := some (broken || (M.death k).isSome) }
          (results.foldl ScanTables.merge t) rest

/-- The branch for one worker. -/
def inProcessBranch (H : Host) (files : Dict String) : ScanTables := parseBatchHere H {} files.items

def poolBranch (M : Machine) (H : Host) (files : Dict String) (maxWorkers : ℤ) :
    Except Exc (Fleet × ScanTables) :=
  parseSlices M H 0 { maxWorkers } {} (slices files.items)

def parseFilesParallel (M : Machine) (H : Host) (files : Dict String) (maxWorkers : Option ℤ) :
    Except Exc ParseRun :=
  let workers := maxWorkers.getD (computeSafeWorkers M)
  let discovered := files.items.length
  if discovered ≤ batchSize then parseFilesSequential H files
  else if workers ≤ 1 then
    let t := inProcessBranch H files
    .ok ⟨t, { t.stats discovered "inline" with
      workersInitial := some workers
      workersFinal := some 1 }⟩
  else
    match poolBranch M H files workers with
    | .error e => .error e
    | .ok (s, t) =>
      .ok ⟨t, { t.stats discovered (if s.inProcess then "inline" else "parallel") with
        workersInitial := some workers
        workersFinal := some s.maxWorkers
        governorEvents := s.governorEvents }⟩

end TimeCodeSecurity.Parsing
