import TimeCodeSecurity.Parsing.Results

/-! # The three modes

The sequential form, the loop in the parent and the pool merge the same results where all of them end
with tables at all. The sequential form passes on what its two filters do not catch, and the pool what a
submission to a broken pool raises.
-/
namespace TimeCodeSecurity.Parsing
open Py
set_option autoImplicit false

def ScanTables.dicts (t : ScanTables) :
    List (String × Module) × List (String × String) × List (String × String) :=
  (t.modules, t.filePaths, t.skippedFiles)

/-- No worker is still busy with a file when it is given up. -/
def InTime (M : Machine) : Prop := ∀ filepath, M.look filepath ≠ .stuck

/-- All three return, and the same dictionaries. -/
def ModesAgree (M : Machine) (H : Host) (files : Dict String) (maxWorkers : ℤ) : Prop :=
  ∃ run s t, parseFilesSequential H files = .ok run ∧ poolBranch M H files maxWorkers = .ok (s, t) ∧
    run.tables.dicts = (inProcessBranch H files).dicts ∧ t.dicts = (inProcessBranch H files).dicts

theorem sliceResults_of_inTime {M : Machine} (h : InTime M) (H : Host) (maxWorkers : ℤ) (k : ℕ)
    (batch : List (String × String)) :
    sliceResults M H maxWorkers k batch = batch.map (fileResult H) := by
  rw [sliceResults]
  split_ifs
  · rfl
  · apply List.ext_getElem
    · rw [List.length_mapIdx, List.length_map]
    · intro i hi hi'
      rw [List.getElem_mapIdx, List.getElem_map, collected_of_not_stuck (h _)]

theorem runResults_of_inTime {M : Machine} (h : InTime M) (H : Host) (maxWorkers : ℤ) (k : ℕ)
    (batches : List (List (String × String))) :
    runResults M H maxWorkers k batches = batches.flatten.map (fileResult H) := by
  induction batches generalizing k with
  | nil => rfl
  | cons batch rest ih =>
    rw [runResults, sliceResults_of_inTime h, ih, List.flatten_cons, List.map_append]

theorem poolBranch_of_inTime {M : Machine} {maxWorkers : ℤ} {files : Dict String} (h : InTime M)
    (hholds : PoolsHold M maxWorkers (slices files.items)) (H : Host) :
    ∃ s, poolBranch M H files maxWorkers = .ok (s, mergedTables H files) := by
  obtain ⟨s, hs⟩ := poolBranch_eq hholds H
  rw [runResults_of_inTime h, flatten_slices] at hs
  exact ⟨s, hs⟩

/-- The modes agree when the sequential form catches all that the parser raises and no slice is handed
to a pool that has lost a worker. -/
theorem modesAgree_iff {M : Machine} (h : InTime M) (H : Host) (files : Dict String) (maxWorkers : ℤ) :
    ModesAgree M H files maxWorkers ↔
      (∀ file ∈ files.items, Filtered H file) ∧ PoolsHold M maxWorkers (slices files.items) := by
  constructor
  · rintro ⟨run, s, t, hsequential, hpool, -, -⟩
    exact ⟨(parseFilesSequential_returns_iff H files).mp ⟨run, hsequential⟩,
      (poolBranch_returns_iff M H maxWorkers files).mp ⟨_, hpool⟩⟩
  · rintro ⟨hfiltered, hholds⟩
    obtain ⟨s, hs⟩ := poolBranch_of_inTime h hholds H
    refine ⟨_, s, _, parseFilesSequential_eq hfiltered, hs, ?_, ?_⟩
    · rw [inProcessBranch_eq]
    · rw [inProcessBranch_eq]

/-- Plenty of memory, two workers, none of which dies. -/
def quietMachine : Machine where
  ramAtStart := .ok (some 4000)
  cpuCount := some 4
  freeAtCheck _ := 4000
  freeAtSlice _ := 4000
  death _ := none
  look _ := .result

theorem inTime_quietMachine : InTime quietMachine := fun _ => nofun

def oneFile : Dict String := ⟨[⟨"deep.py", "x = 1"⟩], List.nodupKeys_singleton _⟩

/-- A parser that reads every text as `pass`. -/
def plainHost : Host where
  parse _ _ := .ok [.pass {}]
  readText _ := .ok ""

theorem modesAgree_of_one_file :
    ModesAgree quietMachine plainHost oneFile 2 ↔
      (∀ file ∈ oneFile.items, Filtered plainHost file) ∧
        PoolsHold quietMachine 2 (slices oneFile.items) :=
  modesAgree_iff inTime_quietMachine plainHost oneFile 2

/-- A parser that gives up on the nesting of every text. -/
def deepHost : Host where
  parse _ _ := .error ⟨.other, "RecursionError", "maximum recursion depth exceeded"⟩
  readText _ := .ok ""

/-- The second worker is gone before the second file is submitted. -/
def dyingMachine : Machine := { quietMachine with death := fun k => if k = 0 then some 1 else none }

def twoFiles : Dict String := ⟨[⟨"a.py", "x = 1"⟩, ⟨"b.py", "x = 1"⟩],
  (by decide : ["a.py", "b.py"].Nodup)⟩

theorem modesAgree_fails_on_recursion_and_death :
    (¬ModesAgree quietMachine deepHost oneFile 2 ∧
      (inProcessBranch deepHost oneFile).skippedFiles =
        [("deep.py", "RecursionError: maximum recursion depth exceeded")]) ∧
    (InTime dyingMachine ∧ ¬ModesAgree dyingMachine plainHost twoFiles 2) := by
  refine ⟨⟨?_, by decide⟩, fun _ => nofun, ?_⟩
  · rintro ⟨run, _, _, hrun, -⟩
    have hfiltered := (parseFilesSequential_returns_iff _ _).mp ⟨run, hrun⟩
    have hcaught := hfiltered ("deep.py", "x = 1") (by decide) (by decide) _ rfl
    cases hcaught
  · rintro ⟨_, s, t, -, hpool, -⟩
    have hholds := (poolBranch_returns_iff _ _ _ _).mp ⟨_, hpool⟩
    have hfits := (hholds 0 [("a.py", "x = 1"), ("b.py", "x = 1")] (by decide) rfl 1 rfl).1
    exact absurd hfits (by decide)

end TimeCodeSecurity.Parsing
