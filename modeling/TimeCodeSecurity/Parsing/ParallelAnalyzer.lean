import TimeCodeSecurity.Foundations.KeyedSort
import TimeCodeSecurity.Parsing.Results
import Mathlib.Data.String.Basic

/-! # Scanning batches of files

`parallel_analyzer.py`: a worker scans a batch of files, the batches are merged in the order in which they
complete. The disk and the analysis of a set of files are parameters; which batches are lost with their
worker is part of a run.
-/
namespace TimeCodeSecurity.Parsing
open Tables
set_option autoImplicit false

structure ScanFinding where
  file : String
  line : ℤ
  column : ℤ
  cwe : String
  severity : String
  ruleId : String
  message : String
deriving DecidableEq, Repr

def ScanFinding.key (f : ScanFinding) : String ×ₗ ℤ ×ₗ String ×ₗ String :=
  toLex (f.file, toLex (f.line, toLex (f.cwe, f.ruleId)))

/-- `read` is `none` for a file that cannot be read. -/
structure Analyzer where
  read : (path : String) → Option String
  analyze : (files : List (String × String)) → Except Exc (List ScanFinding)

variable (A : Analyzer)

def readFiles (paths : List String) : List (String × String) :=
  setItems [] (paths.filterMap fun path => (A.read path).map (path, ·))

structure BatchResult where
  findings : List ScanFinding
  error : Option String
  fileCount : ℕ

def scanFileBatch (paths : List String) : BatchResult :=
  let files := readFiles A paths
  if files = [] then ⟨[], none, paths.length⟩
  else
    match A.analyze files with
    | .ok findings => ⟨findings, none, paths.length⟩
    | .error exc => ⟨[], some exc.text, paths.length⟩

def mergeAndDeduplicateFindings (findings : List ScanFinding) : List ScanFinding :=
  KeyedSort.merge ScanFinding.key findings

def keptFindings : Option BatchResult → List ScanFinding
  | some ⟨findings, none, _⟩ => findings
  | _ => []

def keptCount : Option BatchResult → ℕ
  | some ⟨_, none, count⟩ => count
  | _ => 0

def collectBatches (completed : List (Option BatchResult)) : List ScanFinding × ℕ :=
  completed.foldl (fun acc r => (acc.1 ++ keptFindings r, acc.2 + keptCount r)) ([], 0)

def batchResults (lost : ℕ → Bool) (batches : List (List String)) : List (Option BatchResult) :=
  batches.mapIdx fun i batch => if lost i then none else some (scanFileBatch A batch)

/-- `file_paths[i:i + batch_size]` for the starts `i`. -/
def batchesOf (size : ℕ) (paths : List String) : List (List String) :=
  (List.range ((paths.length + (size - 1)) / size)).map fun i => (paths.drop (size * i)).take size

/-- `complete` puts the results in the order in which the batches complete; there is at least one worker. -/
def parallelScanFiles (lost : ℕ → Bool) (complete : List (Option BatchResult) → List (Option BatchResult))
    (maxWorkers : ℕ) (paths : List String) : List ScanFinding × ℕ :=
  if paths.length ≤ 10 ∨ maxWorkers = 1 then
    let result := scanFileBatch A paths
    (result.findings, result.fileCount)
  else
    let batches := batchesOf (max 1 (paths.length / maxWorkers)) paths
    let collected := collectBatches (complete (batchResults A lost batches))
    (mergeAndDeduplicateFindings collected.1, collected.2)

def mergedFindings (completed : List (Option BatchResult)) : List ScanFinding :=
  mergeAndDeduplicateFindings (collectBatches completed).1

def singleFindings (paths : List String) : List ScanFinding := (scanFileBatch A paths).findings

theorem collectBatches_eq (completed : List (Option BatchResult)) :
    collectBatches completed = (completed.flatMap keptFindings, (completed.map keptCount).sum) := by
  have hfold : ∀ (fs : List ScanFinding) (n : ℕ),
      completed.foldl (fun acc r => (acc.1 ++ keptFindings r, acc.2 + keptCount r)) (fs, n) =
        (fs ++ completed.flatMap keptFindings, n + (completed.map keptCount).sum) := by
    induction completed with
    | nil => simp
    | cons r completed ih =>
      intro fs n
      rw [List.foldl_cons, ih, List.flatMap_cons, List.map_cons, List.sum_cons, List.append_assoc,
        Nat.add_assoc]
  have hstart := hfold [] 0
  rw [List.nil_append, Nat.zero_add] at hstart
  exact hstart

theorem mem_readFiles_iff {paths : List String} {path text : String} :
    (path, text) ∈ readFiles A paths ↔ path ∈ paths ∧ A.read path = some text := by
  have hread : ∀ e ∈ paths.filterMap fun path => (A.read path).map (path, ·), A.read e.1 = some e.2 := by
    intro e he
    obtain ⟨p, -, hp⟩ := List.mem_filterMap.mp he
    obtain ⟨t, ht, rfl⟩ := Option.map_eq_some_iff.mp hp
    exact ht
  rw [readFiles, mem_setItems_of_fits (List.forall_mem_nil _) hread]
  simp only [List.not_mem_nil, false_or, List.mem_filterMap, Option.map_eq_some_iff, Prod.mk.injEq]
  constructor
  · rintro ⟨p, hp, t, ht, rfl, rfl⟩
    exact ⟨hp, ht⟩
  · rintro ⟨hp, ht⟩
    exact ⟨path, hp, text, ht, rfl, rfl⟩

/-! ## The promise -/

def FindingsPerFile (perFile : String × String → List ScanFinding) : Prop :=
  ∀ files, A.analyze files = .ok (files.flatMap perFile)

/-- What is promised of a run, for one way to cut the files into batches. -/
structure ScheduleFree (lost : ℕ → Bool) (batches : List (List String)) : Prop where
  same : ∀ completed completed', completed.Perm (batchResults A lost batches) →
    completed'.Perm (batchResults A lost batches) → mergedFindings completed = mergedFindings completed'
  single : ∀ perFile, FindingsPerFile A perFile →
    mergedFindings (batchResults A lost batches) = singleFindings A batches.flatten
  complete : ∀ i batch, batches[i]? = some batch → lost i = false ∧ (scanFileBatch A batch).error = none ∧
    ∀ f ∈ (scanFileBatch A batch).findings, f ∈ mergedFindings (batchResults A lost batches)

def Ascending (findings : List ScanFinding) : Prop := findings.Pairwise fun f g => f.key < g.key

/-- Every batch is answered, findings with one key are the same, and findings that come file by file come
in ascending order. -/
structure Orderly (lost : ℕ → Bool) (batches : List (List String)) : Prop where
  answered : ∀ i batch, batches[i]? = some batch → lost i = false ∧ (scanFileBatch A batch).error = none
  keyed : ∀ batch ∈ batches, ∀ f ∈ (scanFileBatch A batch).findings, ∀ batch' ∈ batches,
    ∀ g ∈ (scanFileBatch A batch').findings, f.key = g.key → f = g
  ascending : ∀ perFile, FindingsPerFile A perFile → Ascending (singleFindings A batches.flatten)

variable {A} {lost : ℕ → Bool} {batches : List (List String)} {f : ScanFinding}

theorem mergedFindings_eq (completed : List (Option BatchResult)) :
    mergedFindings completed = KeyedSort.merge ScanFinding.key (completed.flatMap keptFindings) := by
  rw [mergedFindings, collectBatches_eq, mergeAndDeduplicateFindings]

theorem ascending_mergedFindings (completed : List (Option BatchResult)) :
    Ascending (mergedFindings completed) := by
  rw [mergedFindings_eq]
  exact KeyedSort.merge_ascending ScanFinding.key _

theorem mem_collected_iff
    (h : ∀ i batch, batches[i]? = some batch → lost i = false ∧ (scanFileBatch A batch).error = none) :
    f ∈ (batchResults A lost batches).flatMap keptFindings ↔
      ∃ batch ∈ batches, f ∈ (scanFileBatch A batch).findings := by
  have hkept : ∀ batch, (scanFileBatch A batch).error = none →
      keptFindings (some (scanFileBatch A batch)) = (scanFileBatch A batch).findings := by
    intro batch herror
    cases hresult : scanFileBatch A batch with
    | mk findings error count =>
      rw [hresult] at herror
      obtain rfl : error = none := herror
      rfl
  rw [List.mem_flatMap]
  constructor
  · rintro ⟨r, hr, hf⟩
    obtain ⟨i, hi⟩ := List.mem_iff_getElem?.mp hr
    rw [batchResults, List.getElem?_mapIdx] at hi
    obtain ⟨batch, hbatch, rfl⟩ := Option.map_eq_some_iff.mp hi
    obtain ⟨hlost, herror⟩ := h i batch hbatch
    rw [hlost, if_neg Bool.false_ne_true, hkept batch herror] at hf
    exact ⟨batch, List.mem_of_getElem? hbatch, hf⟩
  · rintro ⟨batch, hbatch, hf⟩
    obtain ⟨i, hi⟩ := List.mem_iff_getElem?.mp hbatch
    obtain ⟨hlost, herror⟩ := h i batch hi
    refine ⟨some (scanFileBatch A batch), List.mem_iff_getElem?.mpr ⟨i, ?_⟩, ?_⟩
    · rw [batchResults, List.getElem?_mapIdx, hi, Option.map_some, hlost, if_neg Bool.false_ne_true]
    · rw [hkept batch herror]
      exact hf

theorem Orderly.mem_mergedFindings_iff (h : Orderly A lost batches) {completed : List (Option BatchResult)}
    (hperm : completed.Perm (batchResults A lost batches)) :
    f ∈ mergedFindings completed ↔ ∃ batch ∈ batches, f ∈ (scanFileBatch A batch).findings := by
  have hcollected : ∀ g, g ∈ completed.flatMap keptFindings ↔
      ∃ batch ∈ batches, g ∈ (scanFileBatch A batch).findings := fun g => by
    rw [← mem_collected_iff h.answered]
    exact (hperm.flatMap_right keptFindings).mem_iff
  rw [mergedFindings_eq, KeyedSort.mem_merge_iff, hcollected]
  intro a ha b hb hkey
  obtain ⟨batch, hbatch, ha⟩ := (hcollected a).mp ha
  obtain ⟨batch', hbatch', hb⟩ := (hcollected b).mp hb
  exact h.keyed batch hbatch a ha batch' hbatch' b hb hkey

theorem findings_of_perFile {perFile : String × String → List ScanFinding}
    (h : FindingsPerFile A perFile) (paths : List String) :
    (scanFileBatch A paths).findings = (readFiles A paths).flatMap perFile := by
  unfold scanFileBatch
  by_cases hnil : readFiles A paths = []
  · simp [hnil]
  · simp [hnil, h (readFiles A paths)]

theorem mem_singleFindings_iff {perFile : String × String → List ScanFinding}
    (h : FindingsPerFile A perFile) :
    f ∈ singleFindings A batches.flatten ↔ ∃ batch ∈ batches, f ∈ (scanFileBatch A batch).findings := by
  rw [singleFindings, findings_of_perFile h, List.mem_flatMap]
  constructor
  · rintro ⟨⟨path, text⟩, hfile, hf⟩
    obtain ⟨hpath, hread⟩ := (mem_readFiles_iff A).mp hfile
    obtain ⟨batch, hbatch, hpath⟩ := List.mem_flatten.mp hpath
    refine ⟨batch, hbatch, ?_⟩
    rw [findings_of_perFile h, List.mem_flatMap]
    exact ⟨(path, text), (mem_readFiles_iff A).mpr ⟨hpath, hread⟩, hf⟩
  · rintro ⟨batch, hbatch, hf⟩
    rw [findings_of_perFile h, List.mem_flatMap] at hf
    obtain ⟨⟨path, text⟩, hfile, hf⟩ := hf
    obtain ⟨hpath, hread⟩ := (mem_readFiles_iff A).mp hfile
    have hwhole : path ∈ batches.flatten := List.mem_flatten.mpr ⟨batch, hbatch, hpath⟩
    exact ⟨(path, text), (mem_readFiles_iff A).mpr ⟨hwhole, hread⟩, hf⟩

theorem flatten_batchesOf {size : ℕ} (hsize : 0 < size) (paths : List String) :
    (batchesOf size paths).flatten = paths := by
  rw [batchesOf, flatten_windows]
  exact List.take_of_length_le (length_le_windows hsize paths.length)

/-- With several workers an orderly run gives the merged findings, whatever the order of completion. -/
theorem parallelScanFiles_of_orderly {maxWorkers : ℕ} {paths : List String}
    (hmany : ¬(paths.length ≤ 10 ∨ maxWorkers = 1))
    (h : Orderly A lost (batchesOf (max 1 (paths.length / maxWorkers)) paths))
    {complete : List (Option BatchResult) → List (Option BatchResult)}
    (hcomplete : ∀ results, (complete results).Perm results) {perFile : String × String → List ScanFinding}
    (hfile : FindingsPerFile A perFile) :
    (parallelScanFiles A lost complete maxWorkers paths).1 = singleFindings A paths := by
  have hsize : 0 < max 1 (paths.length / maxWorkers) := by omega
  have hwhole := flatten_batchesOf hsize paths
  unfold parallelScanFiles
  rw [if_neg hmany]
  show mergedFindings _ = _
  apply KeyedSort.ascending_ext (ascending_mergedFindings _)
  · rw [← hwhole]
    exact h.ascending perFile hfile
  · intro f
    rw [h.mem_mergedFindings_iff (hcomplete _), ← mem_singleFindings_iff hfile, hwhole]

def sinkAt (column : ℤ) : ScanFinding :=
  ⟨"a.py", 3, column, "CWE-78", "HIGH", "os.system", "os.system detected"⟩

def sinksOf (file : String × String) : List ScanFinding :=
  if file.1 = "a.py" then [sinkAt 1, sinkAt 20] else []

/-- `a.py` has two calls on one line. -/
def twoSinks : Analyzer where
  read := fun _ => some ""
  analyze := fun files => .ok (files.flatMap sinksOf)

end TimeCodeSecurity.Parsing
