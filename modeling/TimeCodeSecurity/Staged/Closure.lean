import TimeCodeSecurity.Foundations.Tables
import TimeCodeSecurity.Foundations.Rounds
import TimeCodeSecurity.Staged.Changes

/-! # The staged dependency closure

`build_staged_dependency_closure`: from the staged files on, each import is followed to the first of its candidates
that can be read. The loop ends, and what it has loaded are the files tied to a staged one by such first candidates.
-/
namespace TimeCodeSecurity.Staged
open Tables Worklist
set_option autoImplicit false

variable {α : Type}

/-- The files of the index and of the working tree; those that the readers skip have no content. -/
structure Repository (α : Type) where
  index : List (FilePath × Option α)
  tree : List (FilePath × Option α)

inductive SourcePolicy
  | index
  | workingTree
  | other

def Repository.readBlob (repo : Repository α) (path : FilePath) : Option α := (repo.index.lookup path).join

def Repository.depContent (repo : Repository α) (policy : SourcePolicy) (path : FilePath) : Option α :=
  match policy with
  | .index => repo.readBlob path
  | .workingTree => (repo.tree.lookup path).join
  | .other => none

def Repository.known (repo : Repository α) : List FilePath := repo.index.map Prod.fst ++ repo.tree.map Prod.fst

/-- `ast.parse` and the import nodes of `ast.walk`; none for a syntax error. -/
abbrev Parse (α : Type) := α → Option (List ImportNode)

def nodesOf (parse : Parse α) (code : α) : List ImportNode := (parse code).getD []

def extractStaticImports (parse : Parse α) (code : α) : List StaticImportDeclaration :=
  (nodesOf parse code).flatMap ImportNode.declarations

structure Walk (α : Type) where
  files : List (FilePath × α)
  toProcess : List FilePath
  visited : List FilePath
  unresolved : List (List Char)

inductive Lookup (α : Type)
  | missing
  | seen
  | fresh (path : FilePath) (content : α)

def findDependency (read : FilePath → Option α) (visited : List FilePath) : List FilePath → Lookup α
  | [] => .missing
  | cand :: rest =>
    if cand ∈ visited then .seen
    else
      match read cand with
      | some content => .fresh cand content
      | none => findDependency read visited rest

def deletedMessage (curr : FilePath) (imp : StaticImportDeclaration) (target : FilePath) : List Char :=
  posix curr ++ ": imports '".toList ++ dotted imp.module ++ "' which is staged for deletion (".toList ++
    posix target ++ ")".toList

def relativeMessage (curr : FilePath) (imp : StaticImportDeclaration) : List Char :=
  posix curr ++ ": unresolved relative import '".toList ++ dotted imp.module ++ "'".toList

def Walk.load (walk : Walk α) (path : FilePath) (content : α) : Walk α where
  files := setItem walk.files path content
  toProcess := walk.toProcess ++ [path]
  visited := walk.visited ++ [path]
  unresolved := walk.unresolved

def Walk.report (walk : Walk α) (message : List Char) : Walk α :=
  { walk with unresolved := walk.unresolved ++ [message] }

section Loop
variable (read : FilePath → Option α) (deleted : List FilePath)

/-- One declaration of `curr`. -/
def followImport (curr : FilePath) (walk : Walk α) (imp : StaticImportDeclaration) : Walk α :=
  let candidates := resolveCandidateModulePaths curr imp
  match candidates.find? (· ∈ deleted) with
  | some target => walk.report (deletedMessage curr imp target)
  | none =>
    match findDependency read walk.visited candidates with
    | .fresh path content => walk.load path content
    | .seen => walk
    | .missing =>
      if imp.module ≠ [] ∧ 0 < imp.level then walk.report (relativeMessage curr imp) else walk

variable (parse : Parse α)

def followFile (walk : Walk α) (curr : FilePath) (rest : List FilePath) : Walk α :=
  let imports := ((walk.files.lookup curr).map (extractStaticImports parse)).getD []
  imports.foldl (followImport read deleted curr) { walk with toProcess := rest }

/-! ### Termination -/

def unseen (known visited : List FilePath) : List FilePath := known.filter (· ∉ visited)

def Walk.weight (known : List FilePath) (walk : Walk α) : ℕ :=
  2 * (unseen known walk.visited).length + walk.toProcess.length

theorem findDependency_fresh {visited candidates : List FilePath} {path : FilePath} {content : α}
    (h : findDependency read visited candidates = .fresh path content) :
    path ∉ visited ∧ read path = some content ∧ path ∈ candidates := by
  induction candidates with
  | nil => cases h
  | cons cand rest ih =>
    rw [findDependency] at h
    split at h
    · cases h
    next hnot =>
      cases hread : read cand with
      | some found =>
        rw [hread] at h
        cases h
        exact ⟨hnot, hread, List.mem_cons_self⟩
      | none =>
        rw [hread] at h
        obtain ⟨hvisited, hpath, hmem⟩ := ih h
        exact ⟨hvisited, hpath, List.mem_cons_of_mem cand hmem⟩

theorem followImport_cases (curr : FilePath) (walk : Walk α) (imp : StaticImportDeclaration) :
    (∃ path content, path ∉ walk.visited ∧ read path = some content ∧
      followImport read deleted curr walk imp = walk.load path content) ∨
    ∃ messages, followImport read deleted curr walk imp = { walk with unresolved := messages } := by
  rw [followImport]
  split
  · exact .inr ⟨_, rfl⟩
  · split
    next path content hfound =>
      obtain ⟨hnot, hread, -⟩ := findDependency_fresh read hfound
      exact .inl ⟨path, content, hnot, hread, rfl⟩
    next => exact .inr ⟨walk.unresolved, rfl⟩
    next =>
      split
      · exact .inr ⟨_, rfl⟩
      · exact .inr ⟨walk.unresolved, rfl⟩

theorem length_unseen {known visited : List FilePath} {path : FilePath} (hknown : path ∈ known)
    (hnot : path ∉ visited) : (unseen known (visited ++ [path])).length < (unseen known visited).length := by
  have hsub : unseen known (visited ++ [path]) = (unseen known visited).filter (· ≠ path) := by
    rw [unseen, unseen, List.filter_filter]
    refine List.filter_congr fun x _ => ?_
    simp [and_comm]
  rw [hsub]
  refine List.length_filter_lt_length_iff_exists.mpr ⟨path, ?_, by simp⟩
  simp [unseen, hknown, hnot]

theorem weight_load {known : List FilePath} {walk : Walk α} {path : FilePath} (hknown : path ∈ known)
    (hnot : path ∉ walk.visited) (content : α) : (walk.load path content).weight known ≤ walk.weight known := by
  have hless := length_unseen hknown hnot
  simp only [Walk.weight, Walk.load, List.length_append, List.length_singleton]
  omega

theorem weight_followImport {known : List FilePath} (hread : ∀ p, (read p).isSome → p ∈ known) (curr : FilePath)
    (walk : Walk α) (imp : StaticImportDeclaration) :
    (followImport read deleted curr walk imp).weight known ≤ walk.weight known := by
  rcases followImport_cases read deleted curr walk imp with ⟨path, content, hnot, hpath, heq⟩ | ⟨messages, heq⟩
  · rw [heq]
    exact weight_load (hread path (by rw [hpath]; rfl)) hnot content
  · rw [heq]
    exact Nat.le_refl _

theorem weight_foldl {known : List FilePath} (hread : ∀ p, (read p).isSome → p ∈ known) (curr : FilePath)
    (imports : List StaticImportDeclaration) (walk : Walk α) :
    (imports.foldl (followImport read deleted curr) walk).weight known ≤ walk.weight known := by
  induction imports generalizing walk with
  | nil => exact Nat.le_refl _
  | cons imp imports ih => exact Nat.le_trans (ih _) (weight_followImport read deleted hread curr walk imp)

theorem weight_followFile {known : List FilePath} (hread : ∀ p, (read p).isSome → p ∈ known) {walk : Walk α}
    {curr : FilePath} {rest : List FilePath} (h : walk.toProcess = curr :: rest) :
    (followFile read deleted parse walk curr rest).weight known < walk.weight known := by
  refine Nat.lt_of_le_of_lt (weight_foldl read deleted hread curr _ _) ?_
  simp [Walk.weight, h]

end Loop

theorem isSome_lookup {files : List (FilePath × Option α)} {path : FilePath}
    (h : ((files.lookup path).join).isSome) : path ∈ files.map Prod.fst := by
  cases hlookup : files.lookup path with
  | none =>
    rw [hlookup] at h
    cases h
  | some found =>
    obtain ⟨l, r, hfiles, -⟩ := List.lookup_eq_some_iff.mp hlookup
    rw [hfiles]
    simp

theorem Repository.known_of_isSome {repo : Repository α} {policy : SourcePolicy} {path : FilePath}
    (h : (repo.depContent policy path).isSome) : path ∈ repo.known := by
  rw [Repository.known, List.mem_append]
  cases policy with
  | index => exact .inl (isSome_lookup h)
  | workingTree => exact .inr (isSome_lookup h)
  | other => cases h

/-- `while to_process`. -/
def walkAll (repo : Repository α) (policy : SourcePolicy) (deleted : List FilePath) (parse : Parse α)
    (walk : Walk α) : Walk α :=
  match _h : walk.toProcess with
  | [] => walk
  | curr :: rest =>
    walkAll repo policy deleted parse (followFile (repo.depContent policy) deleted parse walk curr rest)
termination_by walk.weight repo.known
decreasing_by exact weight_followFile _ deleted parse (fun _ => Repository.known_of_isSome) _h

def loadOne (repo : Repository α) (files : List (FilePath × α)) (path : FilePath) : List (FilePath × α) :=
  match repo.readBlob path with
  | some content => setItem files path content
  | none => files

/-- `for sf in staged_py`. -/
def loadStaged (repo : Repository α) (stagedPy : List FilePath) : List (FilePath × α) :=
  stagedPy.foldl (loadOne repo) []

def buildStagedDependencyClosure (repo : Repository α) (parse : Parse α) (stagedPy deleted : List FilePath)
    (policy : SourcePolicy) : List (FilePath × α) × List FilePath × List (List Char) :=
  let files := loadStaged repo stagedPy
  let start := files.map Prod.fst
  let walk := walkAll repo policy deleted parse
    { files, toProcess := start, visited := start, unresolved := [] }
  (walk.files, stagedPy.dedup, walk.unresolved)

end TimeCodeSecurity.Staged
