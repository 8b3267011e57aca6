import TimeCodeSecurity.Staged.Closure

/-! # What the closure loads

With the index as its source, the closure loads the files tied to a staged file by first candidates. A file that a
statement of theirs names is loaded exactly when it is itself such a file.
-/
namespace TimeCodeSecurity.Staged
open Tables Worklist
set_option autoImplicit false

variable {α : Type} (repo : Repository α) (parse : Parse α) (stagedPy deleted : List FilePath)

def firstHit (curr : FilePath) (imp : StaticImportDeclaration) : Option FilePath :=
  let candidates := resolveCandidateModulePaths curr imp
  if candidates.any (· ∈ deleted) then none else candidates.find? fun cand => (repo.readBlob cand).isSome

/-- A staged file that the index gives. -/
def StagedBlob (path : FilePath) : Prop := path ∈ stagedPy ∧ (repo.readBlob path).isSome

/-- A statement of the file is followed to `path`. -/
def LeadsTo (curr path : FilePath) : Prop :=
  ∃ code, repo.readBlob curr = some code ∧ ∃ imp ∈ extractStaticImports parse code,
    firstHit repo deleted curr imp = some path

/-- The file is tied to a staged one by first candidates. -/
def Linked : FilePath → Prop := Reached (StagedBlob repo stagedPy) (LeadsTo repo parse deleted)

theorem findDependency_spec {read : FilePath → Option α} {visited : List FilePath}
    (hvisited : ∀ v ∈ visited, (read v).isSome) (candidates : List FilePath) :
    match findDependency read visited candidates with
    | .fresh path content => path ∉ visited ∧ read path = some content ∧
        candidates.find? (fun c => (read c).isSome) = some path
    | .seen => ∀ path, candidates.find? (fun c => (read c).isSome) = some path → path ∈ visited
    | .missing => candidates.find? (fun c => (read c).isSome) = none := by
  induction candidates with
  | nil => rfl
  | cons cand rest ih =>
    rw [findDependency, List.find?_cons]
    by_cases hmem : cand ∈ visited
    · rw [if_pos hmem, hvisited cand hmem]
      exact fun path hpath => Option.some.inj hpath ▸ hmem
    · rw [if_neg hmem]
      cases hread : read cand with
      | some content => exact ⟨hmem, hread, rfl⟩
      | none => exact ih

variable {repo parse stagedPy deleted}

theorem followImport_spec {curr : FilePath} {walk : Walk α} {imp : StaticImportDeclaration}
    (hvisited : ∀ v ∈ walk.visited, (repo.readBlob v).isSome) :
    (∃ path content, firstHit repo deleted curr imp = some path ∧ path ∉ walk.visited ∧
      repo.readBlob path = some content ∧
        followImport repo.readBlob deleted curr walk imp = walk.load path content) ∨
    (∀ path, firstHit repo deleted curr imp = some path → path ∈ walk.visited) ∧
      ∃ messages, followImport repo.readBlob deleted curr walk imp = { walk with unresolved := messages } := by
  have hspec := findDependency_spec hvisited (resolveCandidateModulePaths curr imp)
  rw [followImport, firstHit]
  cases hdeleted : (resolveCandidateModulePaths curr imp).find? (· ∈ deleted) with
  | some target =>
    have hany : (resolveCandidateModulePaths curr imp).any (· ∈ deleted) = true :=
      List.any_eq_true.mpr ⟨target, List.mem_of_find?_eq_some hdeleted,
        List.find?_some (p := (· ∈ deleted)) hdeleted⟩
    rw [if_pos hany]
    exact .inr ⟨fun path h => (by cases h), _, rfl⟩
  | none =>
    have hany : ¬ (resolveCandidateModulePaths curr imp).any (· ∈ deleted) = true := by
      rw [List.any_eq_true]
      rintro ⟨cand, hcand, hmem⟩
      exact List.find?_eq_none.mp hdeleted cand hcand hmem
    rw [if_neg hany]
    cases hfound : findDependency repo.readBlob walk.visited (resolveCandidateModulePaths curr imp) with
    | fresh path content =>
      rw [hfound] at hspec
      exact .inl ⟨path, content, hspec.2.2, hspec.1, hspec.2.1, rfl⟩
    | seen =>
      rw [hfound] at hspec
      exact .inr ⟨hspec, walk.unresolved, rfl⟩
    | missing =>
      rw [hfound] at hspec
      refine .inr ⟨fun path h => ?_, ?_⟩
      · rw [show (resolveCandidateModulePaths curr imp).find? _ = none from hspec] at h
        cases h
      · by_cases hrelative : imp.module ≠ [] ∧ 0 < imp.level
        · exact ⟨_, if_pos hrelative⟩
        · exact ⟨walk.unresolved, if_neg hrelative⟩

structure Loaded (repo : Repository α) (walk : Walk α) : Prop where
  keys : ∀ path, path ∈ walk.files.map Prod.fst ↔ path ∈ walk.visited
  contents : ∀ e ∈ walk.files, repo.readBlob e.1 = some e.2

theorem Loaded.readable {walk : Walk α} (h : Loaded repo walk) : ∀ v ∈ walk.visited, (repo.readBlob v).isSome := by
  intro v hv
  obtain ⟨e, he, rfl⟩ := List.mem_map.mp ((h.keys v).mpr hv)
  rw [h.contents e he]
  rfl

theorem Loaded.load {walk : Walk α} (h : Loaded repo walk) {path : FilePath} {content : α}
    (hread : repo.readBlob path = some content) : Loaded repo (walk.load path content) where
  keys p := by
    show p ∈ (setItem walk.files path content).map Prod.fst ↔ p ∈ walk.visited ++ [path]
    rw [keys_setItem, List.mem_append, List.mem_singleton, ← h.keys p]
    split
    next hmem => exact ⟨.inl, fun hp => hp.elim id fun heq => heq ▸ hmem⟩
    next => rw [List.mem_append, List.mem_singleton]
  contents e he := by
    rcases mem_setItem_iff.mp he with ⟨hkey, hvalue⟩ | ⟨-, hold⟩
    · rw [hkey, hvalue, hread]
    · exact h.contents e hold

theorem followImports_spec {curr : FilePath} (imports : List StaticImportDeclaration) {walk : Walk α}
    (hloaded : Loaded repo walk) :
    ∃ fresh, (imports.foldl (followImport repo.readBlob deleted curr) walk).visited = walk.visited ++ fresh ∧
      (imports.foldl (followImport repo.readBlob deleted curr) walk).toProcess = walk.toProcess ++ fresh ∧
      (∀ y ∈ fresh, ∃ imp ∈ imports, firstHit repo deleted curr imp = some y) ∧
      (∀ imp ∈ imports, ∀ y, firstHit repo deleted curr imp = some y → y ∈ walk.visited ++ fresh) ∧
      Loaded repo (imports.foldl (followImport repo.readBlob deleted curr) walk) := by
  induction imports generalizing walk with
  | nil =>
    exact ⟨[], (List.append_nil _).symm, (List.append_nil _).symm, fun y hy => (nomatch hy),
      fun imp himp => (nomatch himp), hloaded⟩
  | cons imp imports ih =>
    rw [List.foldl_cons]
    rcases @followImport_spec _ repo deleted curr walk imp hloaded.readable with
      ⟨path, content, hhit, -, hread, heq⟩ | ⟨hseen, messages, heq⟩
    · rw [heq]
      obtain ⟨fresh, hvisited, hqueue, hfresh, hall, hafter⟩ := ih (hloaded.load hread)
      have hcons : walk.visited ++ [path] ++ fresh = walk.visited ++ path :: fresh := by simp
      refine ⟨path :: fresh, hvisited.trans hcons, hqueue.trans (by simp [Walk.load]), ?_, ?_, hafter⟩
      · rw [List.forall_mem_cons]
        refine ⟨⟨imp, List.mem_cons_self, hhit⟩, fun y hy => ?_⟩
        obtain ⟨imp', himp', hy⟩ := hfresh y hy
        exact ⟨imp', List.mem_cons_of_mem imp himp', hy⟩
      · rw [List.forall_mem_cons, ← hcons]
        refine ⟨fun y hy => ?_, hall⟩
        have hpath : path = y := Option.some.inj (hhit.symm.trans hy)
        simp [hpath]
    · rw [heq]
      obtain ⟨fresh, hvisited, hqueue, hfresh, hall, hafter⟩ := @ih { walk with unresolved := messages }
        ⟨hloaded.keys, hloaded.contents⟩
      refine ⟨fresh, hvisited, hqueue, fun y hy => ?_, ?_, hafter⟩
      · obtain ⟨imp', himp', hy⟩ := hfresh y hy
        exact ⟨imp', List.mem_cons_of_mem imp himp', hy⟩
      · rw [List.forall_mem_cons]
        exact ⟨fun y hy => List.mem_append_left _ (hseen y hy), hall⟩

variable (repo parse stagedPy deleted) in
structure Walked (walk : Walk α) : Prop where
  explored : Explored (StagedBlob repo stagedPy) (LeadsTo repo parse deleted) walk.visited walk.toProcess
  loaded : Loaded repo walk

theorem lookup_files {walk : Walk α} (h : Loaded repo walk) {curr : FilePath} (hcurr : curr ∈ walk.visited) :
    walk.files.lookup curr = repo.readBlob curr := by
  cases hlookup : walk.files.lookup curr with
  | none =>
    obtain ⟨e, he, rfl⟩ := List.mem_map.mp ((h.keys curr).mpr hcurr)
    exact absurd (List.lookup_eq_none_iff.mp hlookup e he) (by simp)
  | some code =>
    obtain ⟨l, r, hfiles, -⟩ := List.lookup_eq_some_iff.mp hlookup
    exact (h.contents (curr, code) (by rw [hfiles]; simp)).symm

theorem Walked.followFile {walk : Walk α} (h : Walked repo parse stagedPy deleted walk) {curr : FilePath}
    {rest : List FilePath} (hqueue : walk.toProcess = curr :: rest) :
    Walked repo parse stagedPy deleted (Staged.followFile repo.readBlob deleted parse walk curr rest) := by
  have hexplored := h.explored
  rw [hqueue] at hexplored
  have hcurr : curr ∈ walk.visited := hexplored.queued curr List.mem_cons_self
  obtain ⟨code, hcode⟩ := Option.isSome_iff_exists.mp (h.loaded.readable curr hcurr)
  rw [Staged.followFile, lookup_files h.loaded hcurr, hcode, Option.map_some, Option.getD_some]
  obtain ⟨fresh, hvisited, htoProcess, hfresh, hall, hafter⟩ :=
    @followImports_spec _ repo deleted curr (extractStaticImports parse code) { walk with toProcess := rest }
      ⟨h.loaded.keys, h.loaded.contents⟩
  refine ⟨?_, hafter⟩
  rw [hvisited, htoProcess]
  refine hexplored.pop (fun y hy => ?_) fun y hy => ?_
  · exact ⟨code, hcode, hfresh y hy⟩
  · obtain ⟨code', hcode', imp, himp, hhit⟩ := hy
    obtain rfl : code = code' := Option.some.inj (hcode.symm.trans hcode')
    exact hall imp himp y hhit

theorem walked_walkAll {walk : Walk α} (h : Walked repo parse stagedPy deleted walk) :
    Walked repo parse stagedPy deleted (walkAll repo .index deleted parse walk) ∧
      (walkAll repo .index deleted parse walk).toProcess = [] := by
  fun_induction walkAll repo .index deleted parse walk with
  | case1 walk hnil => exact ⟨h, hnil⟩
  | case2 walk curr rest hqueue ih => exact ih (h.followFile hqueue)

/-! ## The result -/

theorem loadOne_spec {files : List (FilePath × α)} (hcontents : ∀ e ∈ files, repo.readBlob e.1 = some e.2)
    (sf : FilePath) :
    (∀ path, path ∈ (loadOne repo files sf).map Prod.fst ↔
      path ∈ files.map Prod.fst ∨ path = sf ∧ (repo.readBlob path).isSome) ∧
      ∀ e ∈ loadOne repo files sf, repo.readBlob e.1 = some e.2 := by
  rw [loadOne]
  cases hread : repo.readBlob sf with
  | none =>
    refine ⟨fun path => (or_iff_left ?_).symm, hcontents⟩
    rintro ⟨rfl, hsome⟩
    rw [hread] at hsome
    cases hsome
  | some content =>
    constructor
    · intro path
      have hsome : path = sf ∧ (repo.readBlob path).isSome ↔ path = sf := by
        refine and_iff_left_of_imp ?_
        rintro rfl
        rw [hread]
        rfl
      rw [hsome, keys_setItem]
      split
      next hmem => exact ⟨.inl, fun h => h.elim id fun heq => heq ▸ hmem⟩
      next => rw [List.mem_append, List.mem_singleton]
    · intro e he
      rcases mem_setItem_iff.mp he with ⟨hkey, hvalue⟩ | ⟨-, hold⟩
      · rw [hkey, hvalue, hread]
      · exact hcontents e hold

theorem foldl_loadOne (paths : List FilePath) {files : List (FilePath × α)}
    (hcontents : ∀ e ∈ files, repo.readBlob e.1 = some e.2) :
    (∀ path, path ∈ (paths.foldl (loadOne repo) files).map Prod.fst ↔
      path ∈ files.map Prod.fst ∨ path ∈ paths ∧ (repo.readBlob path).isSome) ∧
      ∀ e ∈ paths.foldl (loadOne repo) files, repo.readBlob e.1 = some e.2 := by
  induction paths generalizing files with
  | nil => exact ⟨fun path => by simp, hcontents⟩
  | cons sf paths ih =>
    obtain ⟨hstep, hloaded⟩ := loadOne_spec hcontents sf
    obtain ⟨hkeys, hafter⟩ := ih hloaded
    refine ⟨fun path => ?_, hafter⟩
    rw [List.foldl_cons, hkeys, hstep, List.mem_cons, or_and_right, or_assoc]

theorem walked_start : Walked repo parse stagedPy deleted
    { files := loadStaged repo stagedPy, toProcess := (loadStaged repo stagedPy).map Prod.fst,
      visited := (loadStaged repo stagedPy).map Prod.fst, unresolved := [] } := by
  obtain ⟨hkeys, hcontents⟩ := @foldl_loadOne _ repo stagedPy [] fun e he => nomatch he
  refine ⟨Explored.init fun path => ?_, fun _ => Iff.rfl, hcontents⟩
  show StagedBlob repo stagedPy path ↔ path ∈ (stagedPy.foldl (loadOne repo) []).map Prod.fst
  rw [hkeys, StagedBlob]
  simp

section Result
variable (repo parse stagedPy deleted)

/-- The files of the closure, with the index as the source. -/
def loadedFiles : List (FilePath × α) := (buildStagedDependencyClosure repo parse stagedPy deleted .index).1

theorem mem_loadedFiles {path : FilePath} {code : α} : (path, code) ∈ loadedFiles repo parse stagedPy deleted ↔
    Linked repo parse stagedPy deleted path ∧ repo.readBlob path = some code := by
  obtain ⟨hwalked, hnil⟩ := walked_walkAll (@walked_start _ repo parse stagedPy deleted)
  have hexplored := hwalked.explored
  rw [hnil] at hexplored
  have hkeys : path ∈ (loadedFiles repo parse stagedPy deleted).map Prod.fst ↔
      Linked repo parse stagedPy deleted path := (hwalked.loaded.keys path).trans hexplored.mem_iff
  constructor
  · intro hmem
    exact ⟨hkeys.mp (List.mem_map_of_mem hmem), hwalked.loaded.contents _ hmem⟩
  · rintro ⟨hlinked, hread⟩
    obtain ⟨e, he, hkey⟩ := List.mem_map.mp (hkeys.mpr hlinked)
    have hcontent : repo.readBlob e.1 = some e.2 := hwalked.loaded.contents e he
    rw [hkey, hread] at hcontent
    obtain rfl : code = e.2 := Option.some.inj hcontent
    rw [← hkey]
    exact he

theorem readable_of_linked {path : FilePath} (h : Linked repo parse stagedPy deleted path) :
    ∃ code, repo.readBlob path = some code := by
  cases h with
  | start h => exact Option.isSome_iff_exists.mp h.2
  | step _ hleads =>
    obtain ⟨code, -, imp, -, hhit⟩ := hleads
    rw [firstHit] at hhit
    split at hhit
    · cases hhit
    · exact Option.isSome_iff_exists.mp (List.find?_some (p := fun c => (repo.readBlob c).isSome) hhit)

/-- Every file that a statement of a loaded file names is loaded, exactly when each such file is staged or the first
candidate of some statement in a linked file. -/
theorem closure_complete_iff :
    (∀ f code, (f, code) ∈ loadedFiles repo parse stagedPy deleted → ∀ node ∈ nodesOf parse code,
      ∀ p ∈ namedFiles (repo.index.map Prod.fst ++ deleted) deleted f node,
        p ∈ (loadedFiles repo parse stagedPy deleted).map Prod.fst) ↔
    ∀ f code, Linked repo parse stagedPy deleted f → repo.readBlob f = some code → ∀ node ∈ nodesOf parse code,
      ∀ p ∈ namedFiles (repo.index.map Prod.fst ++ deleted) deleted f node,
        StagedBlob repo stagedPy p ∨ ∃ g, Linked repo parse stagedPy deleted g ∧ LeadsTo repo parse deleted g p := by
  have hloaded : ∀ p, p ∈ (loadedFiles repo parse stagedPy deleted).map Prod.fst ↔
      StagedBlob repo stagedPy p ∨ ∃ g, Linked repo parse stagedPy deleted g ∧ LeadsTo repo parse deleted g p := by
    intro p
    rw [List.mem_map]
    constructor
    · rintro ⟨e, he, rfl⟩
      cases ((mem_loadedFiles repo parse stagedPy deleted).mp he).1 with
      | start h => exact .inl h
      | step hg hleads => exact .inr ⟨_, hg, hleads⟩
    · intro h
      have hlinked : Linked repo parse stagedPy deleted p := by
        rcases h with h | ⟨g, hg, hleads⟩
        · exact .start h
        · exact .step hg hleads
      obtain ⟨code, hcode⟩ := readable_of_linked repo parse stagedPy deleted hlinked
      exact ⟨(p, code), (mem_loadedFiles repo parse stagedPy deleted).mpr ⟨hlinked, hcode⟩, rfl⟩
  simp only [hloaded, mem_loadedFiles, and_imp]

end Result

def usesTwo : FilePath := [['x', '.', 'p', 'y']]

def firstUsed : FilePath := [['a', '.', 'p', 'y']]

def secondUsed : FilePath := [['b', '.', 'p', 'y']]

/-- `from . import a, b` -/
def importTwo : ImportNode := .fromModule [] 1 [⟨['a'], none⟩, ⟨['b'], none⟩]

/-- The content says whether the file holds the statement. -/
def parseTwo : Parse Bool := fun code => some (if code then [importTwo] else [])

def repoTwo : Repository Bool where
  index := [(usesTwo, some true), (firstUsed, some false), (secondUsed, some false)]
  tree := []

theorem linked_repoTwo {p : FilePath} (h : Linked repoTwo parseTwo [usesTwo] [] p) :
    p = usesTwo ∨ p = firstUsed := by
  induction h with
  | start h => exact .inl (List.mem_singleton.mp h.1)
  | step _ hleads ih =>
    obtain ⟨code, hcode, imp, himp, hhit⟩ := hleads
    rcases ih with rfl | rfl
    · obtain rfl : true = code := Option.some.inj hcode
      obtain rfl : imp = ⟨[], 1, [['a'], ['b']]⟩ := List.mem_singleton.mp himp
      have hfirst : firstHit repoTwo [] usesTwo ⟨[], 1, [['a'], ['b']]⟩ = some firstUsed := by decide
      exact .inr (Option.some.inj (hhit.symm.trans hfirst))
    · obtain rfl : false = code := Option.some.inj hcode
      cases himp

/-- The second name is not followed. -/
theorem second_name_is_left_out :
    ¬ ∀ f code, (f, code) ∈ loadedFiles repoTwo parseTwo [usesTwo] [] → ∀ node ∈ nodesOf parseTwo code,
      ∀ p ∈ namedFiles (repoTwo.index.map Prod.fst ++ []) [] f node,
        p ∈ (loadedFiles repoTwo parseTwo [usesTwo] []).map Prod.fst := by
  intro h
  have hstaged : Linked repoTwo parseTwo [usesTwo] [] usesTwo := .start ⟨List.mem_singleton.mpr rfl, rfl⟩
  have hnamed : secondUsed ∈ namedFiles (repoTwo.index.map Prod.fst ++ []) [] usesTwo importTwo := by decide
  have hmem := h usesTwo true ((mem_loadedFiles _ _ _ _).mpr ⟨hstaged, rfl⟩) importTwo (List.mem_singleton.mpr rfl)
    secondUsed hnamed
  obtain ⟨e, he, hkey⟩ := List.mem_map.mp hmem
  have hlinked := ((mem_loadedFiles _ _ _ _).mp he).1
  rw [hkey] at hlinked
  rcases linked_repoTwo hlinked with heq | heq
  · exact absurd heq (by decide)
  · exact absurd heq (by decide)

end TimeCodeSecurity.Staged
