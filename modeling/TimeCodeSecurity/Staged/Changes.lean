import TimeCodeSecurity.Foundations.Pep440
import TimeCodeSecurity.Foundations.Separators
import TimeCodeSecurity.Foundations.Utf8

/-! # The staged changes

The loop of `staged_scanner.get_staged_git_files` over the output of `git diff --cached --name-status -z`, and the
records that git writes there.
-/
namespace TimeCodeSecurity.Staged
open Pep440 (isSpace strip)
set_option autoImplicit false

abbrev Bytes := List ℕ
abbrev Text := List Char

/-- `octets.decode("utf-8", errors="replace")`. -/
def decoded (octets : Bytes) : Text := (Utf8.decodeReplace octets).map Char.ofNat

/-- `.replace("\\\\", "/")`. -/
def slashed (text : Text) : Text := text.map fun c => if c = '\\' then '/' else c

def reading (octets : Bytes) : Text := slashed (decoded octets)

/-- `path.endswith(".py")`. -/
def isPythonText (path : Text) : Bool := ['.', 'p', 'y'].isSuffixOf path

structure Lists where
  stagedPy : List Text := []
  stagedD : List Text := []
  stagedR : List (Text × Text) := []
  nonPy : List Text := []
deriving DecidableEq, Repr

def Lists.addPresent (lists : Lists) (path : Text) : Lists :=
  if isPythonText path then { lists with stagedPy := lists.stagedPy ++ [path] }
  else { lists with nonPy := lists.nonPy ++ [path] }

def Lists.addDeleted (lists : Lists) (path : Text) : Lists := { lists with stagedD := lists.stagedD ++ [path] }

def Lists.addRenamed (lists : Lists) (old new : Text) : Lists :=
  { lists with stagedR := lists.stagedR ++ [(old, new)] }.addPresent new

/-- A turn of the loop at `idx`. -/
def turn (idx : ℕ) (later : Lists × List ℕ) : Lists × List ℕ := (later.1, idx :: later.2)

/-- The `while` loop on the parts from `idx` on: the lists behind it, and the values of `idx` at its turns. -/
def loop : ℕ → Lists → List Bytes → Lists × List ℕ
  | _, lists, [] => (lists, [])
  | idx, lists, part :: rest => turn idx <|
    match strip (decoded part) with
    | [] => loop (idx + 1) lists rest
    | status :: _ =>
      if status = 'A' ∨ status = 'C' ∨ status = 'M' then
        match rest with
        | path :: rest => loop (idx + 2) (lists.addPresent (reading path)) rest
        | [] => loop (idx + 1) lists []
      else if status = 'D' then
        match rest with
        | path :: rest => loop (idx + 2) (lists.addDeleted (reading path)) rest
        | [] => loop (idx + 1) lists []
      else if status = 'R' then
        match rest with
        | old :: new :: rest => loop (idx + 3) (lists.addRenamed (reading old) (reading new)) rest
        | [last] => loop (idx + 1) lists [last]
        | [] => loop (idx + 1) lists []
      else
        match rest with
        | _ :: rest => loop (idx + 2) lists rest
        | [] => loop (idx + 1) lists []

/-- `get_staged_git_files`, from the output of a run that succeeded. -/
def getStagedGitFiles (raw : Bytes) : Lists × List ℕ := loop 0 {} (raw.splitOn 0)

structure Path where
  octets : Bytes
  nonempty : octets ≠ [] := by decide
  bounded : ∀ b ∈ octets, 0 < b ∧ b < 256 := by decide
deriving DecidableEq, Repr

inductive Single where
  | added | modified | deleted | typeChanged | unmerged | unknown
deriving DecidableEq, Repr

inductive Pairing where
  | renamed | copied
deriving DecidableEq, Repr

/-- A record has one path, or a score and two. -/
inductive Record where
  | single (status : Single) (path : Path)
  | pair (status : Pairing) (score : Fin 101) (old new : Path)
deriving DecidableEq, Repr

def Single.letter : Single → ℕ
  | .added => 65
  | .modified => 77
  | .deleted => 68
  | .typeChanged => 84
  | .unmerged => 85
  | .unknown => 88

def Pairing.letter : Pairing → ℕ
  | .renamed => 82
  | .copied => 67

def scoreDigits (score : ℕ) : Bytes := [48 + score / 100, 48 + score / 10 % 10, 48 + score % 10]

def Record.tokens : Record → List Bytes
  | .single status path => [[status.letter], path.octets]
  | .pair status score old new => [status.letter :: scoreDigits score, old.octets, new.octets]

/-- With `-z`, a NUL stands behind each token. -/
def emitted (records : List Record) : Bytes := (records.flatMap Record.tokens).flatMap (· ++ [0])

/-! ## Imports of a staged file

`extract_static_imports` and `resolve_candidate_module_paths`, and beside them the files that an import statement
names by Python's rules.
-/

abbrev Name := List Char

/-- A path below the repository root, by its parts. -/
abbrev FilePath := List Name

def posix (path : FilePath) : List Char := List.intercalate ['/'] path

def dotted (module : List Name) : List Char := List.intercalate ['.'] module

structure Alias (ν : Type) where
  name : ν
  asname : Option Name

/-- The import nodes of `ast.walk`; a module that is missing has no parts. -/
inductive ImportNode
  | plain (names : List (Alias (List Name)))
  | fromModule (module : List Name) (level : ℕ) (names : List (Alias Name))

structure StaticImportDeclaration where
  module : List Name
  level : ℕ
  names : List Name

def ImportNode.declarations : ImportNode → List StaticImportDeclaration
  | .plain names => names.map fun a =>
    { module := a.name, level := 0, names := [a.asname.getD (dotted a.name)] }
  | .fromModule module level names =>
    [{ module, level, names := names.map fun a => a.asname.getD a.name }]

def pySuffix : Name := ".py".toList

def initFile : Name := "__init__.py".toList

/-- `(base / f"{module}.py")`. -/
def moduleFile (base : FilePath) (module : List Name) : FilePath :=
  base ++ module.dropLast ++ [module.getLastD [] ++ pySuffix]

/-- `(base / module / "__init__.py")`. -/
def packageFile (base : FilePath) (module : List Name) : FilePath := base ++ module ++ [initFile]

def bothFiles (base : FilePath) (module : List Name) : List FilePath :=
  [moduleFile base module, packageFile base module]

/-- `base_dir.parent`, as often as there are further dots. -/
def parentDir (dir : FilePath) : ℕ → FilePath
  | 0 => dir
  | n + 1 => parentDir dir.dropLast n

scoped instance lawfulPath : LawfulBEq FilePath := inferInstance

def firstOfEach (paths : List FilePath) : List FilePath :=
  paths.foldl (fun normalized path => if path ∈ normalized then normalized else normalized ++ [path]) []

def resolveCandidateModulePaths (importing : FilePath) (imp : StaticImportDeclaration) : List FilePath :=
  let fileDir := importing.dropLast
  if 0 < imp.level then
    let baseDir := parentDir fileDir (imp.level - 1)
    if imp.module ≠ [] then firstOfEach (bothFiles baseDir imp.module)
    else firstOfEach (imp.names.flatMap fun name => bothFiles baseDir [name])
  else
    let searchRoots := [fileDir, []]
    let topComp := imp.module.take 1
    let whole := searchRoots.flatMap fun root => bothFiles root imp.module
    let top := if topComp ≠ imp.module then searchRoots.flatMap fun root => bothFiles root topComp else []
    firstOfEach (whole ++ top)

/-- What the name of a module is found as: a file, with the directory of its submodules if it is a package, or the
directories of a package without an `__init__.py`. -/
inductive Spec
  | file (path : FilePath) (sub : List FilePath)
  | portions (dirs : List FilePath)

def isDirectory (paths : List FilePath) (dir : FilePath) : Bool := paths.any fun p => dir.isPrefixOf p && p != dir

def findSpec (paths : List FilePath) (name : Name) : List FilePath → Option Spec
  | [] => none
  | dir :: dirs =>
    if packageFile dir [name] ∈ paths then some (.file (packageFile dir [name]) [dir ++ [name]])
    else if moduleFile dir [name] ∈ paths then some (.file (moduleFile dir [name]) [])
    else
      match findSpec paths name dirs, isDirectory paths (dir ++ [name]) with
      | some (.portions found), true => some (.portions ((dir ++ [name]) :: found))
      | none, true => some (.portions [dir ++ [name]])
      | found, _ => found

def moduleChain (paths deleted : List FilePath) : List FilePath → List Name → List FilePath × List FilePath
  | search, [] => ([], search)
  | search, name :: rest =>
    match findSpec paths name search with
    | none => ([], [])
    | some (.portions dirs) => moduleChain paths deleted dirs rest
    | some (.file path sub) =>
      if path ∈ deleted then ([], [])
      else
        let later := moduleChain paths deleted sub rest
        (path :: later.1, later.2)

def ownPackage (paths deleted : List FilePath) (base : FilePath) : List FilePath :=
  if packageFile base [] ∈ paths ∧ packageFile base [] ∉ deleted then [packageFile base []] else []

def fromChain (paths deleted : List FilePath) (importing : FilePath) (module : List Name) (level : ℕ) :
    List FilePath × List FilePath :=
  let fileDir := importing.dropLast
  if level = 0 then moduleChain paths deleted [fileDir, []] module
  else if fileDir.length < level - 1 then ([], [])
  else
    let base := fileDir.take (fileDir.length - (level - 1))
    if module = [] then (ownPackage paths deleted base, [base]) else moduleChain paths deleted [base] module

/-- The files that the statement names. -/
def namedFiles (paths deleted : List FilePath) (importing : FilePath) : ImportNode → List FilePath
  | .plain names => names.flatMap fun a => (moduleChain paths deleted [importing.dropLast, []] a.name).1
  | .fromModule module level names =>
    let parent := fromChain paths deleted importing module level
    parent.1 ++ (names.filter fun a => a.name != ['*']).flatMap fun a =>
      (moduleChain paths deleted parent.2 [a.name]).1

end TimeCodeSecurity.Staged
