import TimeCodeSecurity.Foundations.Pep440
import TimeCodeSecurity.Scanner.Nosec

/-! # The Dockerfile audit

`iac_auditor.audit_dockerfile` and the reading of instructions under it. `upper` and `lower` are the methods of
`str`, `privileged` is the search for `PRIVILEGED_INSTRUCTION_RE`.
-/
namespace TimeCodeSecurity.Iac
open Pep440 (isSpace strip)
open Scanner (isLineBoundary)
set_option autoImplicit false

abbrev Text := List Char

def rootUserValues : List String := ["root", "0", "root:root", "0:0"]

def productionDeploySegments : List String :=
  ["deploy", "deployment", "deployments", "production", "prod", "k8s", "kubernetes", "helm", "release", "releases"]

def nonProductionDockerSegments : List String :=
  ["docker", "examples", "example", "tests", "test", "testing", "ci", "scripts", "fixtures", "fixture",
   "samples", "sample", "demos", "demo", "target_arena", "scratch"]

structure Instruction where
  line : ℕ
  keyword : Text
  arguments : Text
deriving DecidableEq, Repr

def Instruction.is (keyword : String) (i : Instruction) : Bool := i.keyword == keyword.toList

structure Finding where
  file : String
  line : ℕ
  cwe : String
  severity : String
  category : String
  message : String
deriving DecidableEq, Repr

/-- `" ".join(pieces)`. -/
def joinPieces (pieces : List Text) : Text := List.intercalate [' '] pieces

def continuation : Char := '\\'

/-- `line.endswith("\\") and not line.endswith("\\\\")`, the backslashes being characters. -/
def goesOn (line : Text) : Bool :=
  line.getLast? = some continuation && line.dropLast.getLast? ≠ some continuation

def isSkipped (line : Text) : Bool := line.isEmpty || line.head? = some '#'

section

variable (upper : Text → Text)

def splitInstruction (startLine : ℕ) (text : Text) : Instruction :=
  { line := startLine
    keyword := upper (strip (text.takeWhile (· ≠ ' ')))
    arguments := strip ((text.dropWhile (· ≠ ' ')).drop 1) }

/-- The loop from a line on: `logical` with its `start_line` while an instruction is unfinished. -/
def instructionsFrom : ℕ → Option (ℕ × List Text) → List Text → List Instruction
  | _, none, [] => []
  | _, some (start, logical), [] => [splitInstruction upper start (joinPieces logical)]
  | lineno, unfinished, raw :: rest =>
    let line := strip raw
    if isSkipped line then
      match unfinished with
      | none => instructionsFrom (lineno + 1) none rest
      | some (start, logical) =>
        splitInstruction upper start (joinPieces logical) :: instructionsFrom (lineno + 1) none rest
    else
      let (start, logical) := unfinished.getD (lineno, [])
      if goesOn line then
        instructionsFrom (lineno + 1) (some (start, logical ++ [strip line.dropLast])) rest
      else
        splitInstruction upper start (joinPieces (logical ++ [line])) :: instructionsFrom (lineno + 1) none rest

def parseDockerfileInstructions (source : Text) : List Instruction :=
  (instructionsFrom upper 1 none (TextLines.splitLines isLineBoundary source)).filter (·.keyword ≠ [])

end

section

variable (lower : Text → Text)

/-- `arguments.split()[0]`, empty when there is none. -/
def firstWord (arguments : Text) : Text := (arguments.dropWhile isSpace).takeWhile (!isSpace ·)

/-- `arguments.split()[0].lower() if arguments.split() else ""`. -/
def userValue (arguments : Text) : Text :=
  match firstWord arguments with
  | [] => []
  | word => lower word

def isRootValue (value : Text) : Bool := rootUserValues.any (·.toList == value)

def lastOf (keyword : String) (instructions : List Instruction) : Option Instruction :=
  (instructions.filter (·.is keyword)).getLast?

/-- `effective`, behind the loop. -/
def effectiveUser (instructions : List Instruction) : Option Text :=
  (lastOf "USER" instructions).map fun i => userValue lower i.arguments

def declaresNonRootUser (instructions : List Instruction) : Bool :=
  match effectiveUser lower instructions with
  | none => false
  | some value => !isRootValue value

def pathSegments (path : Text) : List Text :=
  let slashed := (lower (path.map fun c => if c = '\\' then '/' else c))
  ((slashed.dropWhile (· = '/')).rdropWhile (· = '/')).splitOn '/'

def isNonProductionDockerfile (filePath : String) : Bool :=
  let parts := pathSegments lower filePath.toList
  if parts.any fun part => productionDeploySegments.any (·.toList == part) then false
  else parts.any fun part => nonProductionDockerSegments.any (·.toList == part)

variable (privileged : Text → Bool)

def hasExplicitPrivilegedInstructions (source : Text) (instructions : List Instruction) : Bool :=
  (instructions.any fun i => i.is "USER" && isRootValue (userValue lower i.arguments)) || privileged source

def rootMessage : String :=
  "CWE-250: Container service runs as root; missing non-root USER instruction." ++
    " Add USER <non-root> before the run instruction so a container escape does" ++ " not inherit UID 0"

def entrypointMessage : String :=
  "CWE-269: Container service runs as root; missing non-root USER instruction." ++
    " The ENTRYPOINT executes with UID 0 because no USER instruction precedes it"

variable (upper : Text → Text)

def auditDockerfile (filePath : String) (source : Text) (auditAll : Bool) : List Finding :=
  let instructions := parseDockerfileInstructions upper source
  if instructions.isEmpty then []
  else if declaresNonRootUser lower instructions then []
  else if isNonProductionDockerfile lower filePath && !auditAll &&
      !hasExplicitPrivilegedInstructions lower privileged source instructions then []
  else
    let entrypoint := lastOf "ENTRYPOINT" instructions
    let totalLines := max 1 (TextLines.splitLines isLineBoundary source).length
    match (lastOf "CMD" instructions).or entrypoint with
    | none => []
    | some run =>
      { file := filePath, line := max 1 (min run.line totalLines), cwe := "CWE-250", severity := "HIGH",
        category := "EXECUTION_WITH_UNNECESSARY_PRIVILEGES", message := rootMessage } ::
      (entrypoint.map fun last =>
        { file := filePath, line := max 1 (min last.line totalLines), cwe := "CWE-269", severity := "HIGH",
          category := "IMPROPER_PRIVILEGE_MANAGEMENT", message := entrypointMessage }).toList

end

end TimeCodeSecurity.Iac

/-! ## The user the image runs as

Docker takes the last `USER` of the last stage; the audit takes the last one of the file. A user is named before
the colon, and the numbers that are zero name root too.
-/
namespace TimeCodeSecurity.Iac

/-- The instructions behind the last `FROM`. -/
def lastStage (instructions : List Instruction) : List Instruction := instructions.rtakeWhile (!·.is "FROM")

def userName (word : Text) : Text := word.takeWhile (· ≠ ':')

def isUidZero (name : Text) : Bool :=
  let digits := if name.head? = some '+' ∨ name.head? = some '-' then name.tail else name
  !digits.isEmpty && digits.all (· = '0')

def namesOtherUser (word : Text) : Bool :=
  let name := userName word
  !name.isEmpty && name != "root".toList && !isUidZero name

/-- The image runs as another user than root. -/
def DropsRoot (instructions : List Instruction) : Prop :=
  ∃ user, lastOf "USER" (lastStage instructions) = some user ∧ namesOtherUser (firstWord user.arguments) = true

/-- The image runs something. -/
def RunsSomething (instructions : List Instruction) : Prop :=
  ∃ i ∈ lastStage instructions, i.is "CMD" = true ∨ i.is "ENTRYPOINT" = true

/-- The `USER` of the last stage is spelled as a root value just when it does not name another user; and where the
last stage has none, the last one before it is a root value. -/
def UserDecides (lower : Text → Text) (instructions : List Instruction) : Prop :=
  match lastOf "USER" (lastStage instructions) with
  | some user => isRootValue (userValue lower user.arguments) = !namesOtherUser (firstWord user.arguments)
  | none => ∀ user, lastOf "USER" instructions = some user → isRootValue (userValue lower user.arguments) = true

section

variable {lower upper : Text → Text} {privileged : Text → Bool} {instructions : List Instruction}
  {filePath : String} {source : Text} {auditAll : Bool}

theorem earlier_append_lastStage (instructions : List Instruction) :
    instructions.rdropWhile (!·.is "FROM") ++ lastStage instructions = instructions := by
  rw [lastStage, List.rdropWhile, List.rtakeWhile, ← List.reverse_append, List.takeWhile_append_dropWhile,
    List.reverse_reverse]

theorem lastOf_of_lastStage {keyword : String} {i : Instruction}
    (h : lastOf keyword (lastStage instructions) = some i) : lastOf keyword instructions = some i := by
  rw [lastOf] at h
  rw [lastOf, ← earlier_append_lastStage instructions, List.filter_append, List.getLast?_append, h]
  rfl

theorem exists_lastOf {keyword : String} (h : ∃ i ∈ instructions, i.is keyword = true) :
    ∃ i, lastOf keyword instructions = some i := by
  obtain ⟨i, hi, hkeyword⟩ := h
  have hne : instructions.filter (·.is keyword) ≠ [] := List.ne_nil_of_mem (List.mem_filter.mpr ⟨hi, hkeyword⟩)
  exact ⟨_, List.getLast?_eq_some_getLast hne⟩

theorem mem_of_mem_lastStage {i : Instruction} (h : i ∈ lastStage instructions) : i ∈ instructions := by
  rw [← earlier_append_lastStage instructions]
  exact List.mem_append_right _ h

theorem declaresNonRootUser_iff : declaresNonRootUser lower instructions = true ↔
    ∃ user, lastOf "USER" instructions = some user ∧ isRootValue (userValue lower user.arguments) = false := by
  rw [declaresNonRootUser, effectiveUser]
  cases lastOf "USER" instructions with
  | none => simp
  | some user => simp

theorem silent_iff (hproduction : isNonProductionDockerfile lower filePath = false)
    (hrun : RunsSomething (parseDockerfileInstructions upper source)) :
    (∀ f ∈ auditDockerfile lower privileged upper filePath source auditAll, f.cwe ≠ "CWE-250") ↔
      declaresNonRootUser lower (parseDockerfileInstructions upper source) = true := by
  obtain ⟨i, hstage, hkeyword⟩ := hrun
  have hi := mem_of_mem_lastStage hstage
  have hne : (parseDockerfileInstructions upper source).isEmpty ≠ true := by
    intro hempty
    rw [List.isEmpty_iff.mp hempty] at hi
    cases hi
  have hlast : ∃ run, (lastOf "CMD" (parseDockerfileInstructions upper source)).or
      (lastOf "ENTRYPOINT" (parseDockerfileInstructions upper source)) = some run := by
    cases hcmd : lastOf "CMD" (parseDockerfileInstructions upper source) with
    | some run => exact ⟨run, rfl⟩
    | none =>
      rcases hkeyword with h | h
      · obtain ⟨run, hrun⟩ := exists_lastOf ⟨i, hi, h⟩
        rw [hrun] at hcmd
        cases hcmd
      · exact exists_lastOf ⟨i, hi, h⟩
  obtain ⟨run, hrun⟩ := hlast
  rw [auditDockerfile]
  simp only [hproduction, hrun, if_neg hne, Bool.false_and]
  split
  next h => simp [h]
  next h => simp [h]

/-- The verdict is that of the image that runs, just when its `USER` decides. -/
theorem verdict_of_image_iff (hproduction : isNonProductionDockerfile lower filePath = false)
    (hrun : RunsSomething (parseDockerfileInstructions upper source)) :
    ((∀ f ∈ auditDockerfile lower privileged upper filePath source auditAll, f.cwe ≠ "CWE-250") ↔
      DropsRoot (parseDockerfileInstructions upper source)) ↔
    UserDecides lower (parseDockerfileInstructions upper source) := by
  rw [silent_iff hproduction hrun, declaresNonRootUser_iff]
  generalize parseDockerfileInstructions upper source = instructions
  rw [UserDecides, DropsRoot]
  cases hstage : lastOf "USER" (lastStage instructions) with
  | some user =>
    rw [lastOf_of_lastStage hstage]
    cases hroot : isRootValue (userValue lower user.arguments) <;>
      cases hother : namesOtherUser (firstWord user.arguments) <;> simp [hroot, hother]
  | none =>
    cases lastOf "USER" instructions with
    | none => simp
    | some user => cases hroot : isRootValue (userValue lower user.arguments) <;> simp [hroot]

/-- `FROM a`, `USER app`, `CMD run`, a line each. -/
theorem verdict_of_image_iff_one_stage :
    ((∀ f ∈ auditDockerfile (List.map Char.toLower) (fun _ => false) (List.map Char.toUpper) "Dockerfile"
      "FROM a\nUSER app\nCMD run\n".toList false, f.cwe ≠ "CWE-250") ↔
      DropsRoot (parseDockerfileInstructions (List.map Char.toUpper) "FROM a\nUSER app\nCMD run\n".toList)) ↔
    UserDecides (List.map Char.toLower)
      (parseDockerfileInstructions (List.map Char.toUpper) "FROM a\nUSER app\nCMD run\n".toList) :=
  verdict_of_image_iff (by decide)
    ⟨{ line := 3, keyword := "CMD".toList, arguments := "run".toList }, by decide, .inl (by decide)⟩

def userInBuilder : Text := "FROM a\nUSER app\nFROM b\nCMD run\n".toList

/-- The builder's user silences the finding for the image. -/
theorem builder_user_silences :
    ¬ ∀ (filePath : String) (source : Text),
      isNonProductionDockerfile (List.map Char.toLower) filePath = false →
      RunsSomething (parseDockerfileInstructions (List.map Char.toUpper) source) →
      ((∀ f ∈ auditDockerfile (List.map Char.toLower) (fun _ => false) (List.map Char.toUpper) filePath source false,
        f.cwe ≠ "CWE-250") ↔ DropsRoot (parseDockerfileInstructions (List.map Char.toUpper) source)) := by
  intro hall
  have hrun : RunsSomething (parseDockerfileInstructions (List.map Char.toUpper) userInBuilder) :=
    ⟨{ line := 4, keyword := "CMD".toList, arguments := "run".toList }, by decide, .inl (by decide)⟩
  obtain ⟨user, hlast, -⟩ := (hall "Dockerfile" userInBuilder (by decide) hrun).mp (by decide)
  have hnone : lastOf "USER" (lastStage (parseDockerfileInstructions (List.map Char.toUpper) userInBuilder)) =
      none := by decide
  rw [hnone] at hlast
  cases hlast

end

end TimeCodeSecurity.Iac
