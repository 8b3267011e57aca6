import TimeCodeSecurity.Parsing.ParallelScanner

/-! # What a run merges

Every form of the run merges one result for each file, in the order of the files. The parent's result
of a file is the same in all of them; a worker's differs from it by a timeout only.
-/
namespace TimeCodeSecurity.Parsing
open Py
set_option autoImplicit false

/-! ## One file in the parent -/

def fileResult (H : Host) (file : String × String) : ParseResult := parseHere H file.1 (some file.2)

/-- What the parser raises on the file, if it is asked, the filters of the sequential form catch. -/
def Filtered (H : Host) (file : String × String) : Prop :=
  isInertText file.1 file.2 = false →
    ∀ e, H.parse file.2 file.1 = .error e → e.isParseError = true

def Substantive (H : Host) (file : String × String) (tree : Module) : Prop :=
  isInertText file.1 file.2 = false ∧ H.parse file.2 file.1 = .ok tree ∧
    tree.all isInertStmt = false

def ZeroRisk (H : Host) (file : String × String) : Prop :=
  isInertText file.1 file.2 = true ∨
    ∃ tree, H.parse file.2 file.1 = .ok tree ∧ tree.all isInertStmt = true

inductive FileCase (H : Host) (file : String × String) : Prop
  | skipped (hzero : ZeroRisk H file) (hfilter : isZeroRiskFile H file.1 file.2 = .ok (true, none))
      (hresult : fileResult H file = .skippedFastPath file.1)
  | kept (tree : Module) (htree : Substantive H file tree)
      (hfilter : isZeroRiskFile H file.1 file.2 = .ok (false, some tree))
      (hresult : fileResult H file = .parsed file.1 (moduleName file.1) tree)
  | failed (e : Exc) (htext : isInertText file.1 file.2 = false)
      (hparse : H.parse file.2 file.1 = .error e)
      (hresult : fileResult H file = .failed file.1 e.text e.text_ne_empty)

theorem fileCase (H : Host) (file : String × String) : FileCase H file := by
  cases htext : isInertText file.1 file.2 with
  | true =>
    have hfilter : isZeroRiskFile H file.1 file.2 = .ok (true, none) := by
      rw [isZeroRiskFile, if_pos htext]
    exact .skipped (.inl htext) hfilter
      (by rw [fileResult, parseHere, parseSingleFile, parseText, hfilter])
  | false =>
    cases hparse : H.parse file.2 file.1 with
    | error e =>
      refine .failed e htext hparse ?_
      rw [fileResult, parseHere, parseSingleFile, parseText, isZeroRiskFile, htext, hparse]
      cases hcaught : e.isParseError with
      | true => simp [hcaught]
      | false => simp [hcaught]
    | ok tree =>
      cases hinert : tree.all isInertStmt with
      | true =>
        have hfilter : isZeroRiskFile H file.1 file.2 = .ok (true, none) := by
          simp [isZeroRiskFile, htext, hparse, hinert]
        exact .skipped (.inr ⟨tree, hparse, hinert⟩) hfilter
          (by rw [fileResult, parseHere, parseSingleFile, parseText, hfilter])
      | false =>
        have hfilter : isZeroRiskFile H file.1 file.2 = .ok (false, some tree) := by
          simp [isZeroRiskFile, htext, hparse, hinert]
        exact .kept tree ⟨htext, hparse, hinert⟩ hfilter
          (by rw [fileResult, parseHere, parseSingleFile, parseText, hfilter])

theorem filepath_fileResult (H : Host) (file : String × String) :
    (fileResult H file).filepath = file.1 := by
  cases fileCase H file with
  | skipped _ _ hresult | kept _ _ _ hresult | failed _ _ _ hresult => rw [hresult]; rfl

theorem fileResult_eq_parsed_iff {H : Host} {file : String × String} {path name : String}
    {tree : Module} : fileResult H file = .parsed path name tree ↔
      Substantive H file tree ∧ path = file.1 ∧ name = moduleName file.1 := by
  cases fileCase H file with
  | skipped hzero _ hresult =>
    rw [hresult]
    refine ⟨nofun, fun ⟨⟨htext, hparse, hinert⟩, _⟩ => ?_⟩
    obtain h | ⟨tree', hparse', h⟩ := hzero
    · rw [htext] at h
      cases h
    · rw [hparse] at hparse'
      cases hparse'
      rw [hinert] at h
      cases h
  | kept tree' htree _ hresult =>
    rw [hresult]
    constructor
    · intro h
      cases h
      exact ⟨htree, rfl, rfl⟩
    · rintro ⟨⟨_, hparse, _⟩, rfl, rfl⟩
      have hsame := hparse.symm.trans htree.2.1
      cases hsame
      rfl
  | failed e _ hparse hresult =>
    rw [hresult]
    refine ⟨nofun, fun ⟨⟨_, htree, _⟩, _⟩ => ?_⟩
    rw [hparse] at htree
    cases htree

theorem sequentialStep_of_filtered {H : Host} {file : String × String} (h : Filtered H file)
    (t : ScanTables) : sequentialStep H t file = .ok (t.merge (fileResult H file)) := by
  cases fileCase H file with
  | skipped _ hfilter hresult => simp only [sequentialStep, hfilter, hresult, ScanTables.merge]
  | kept tree _ hfilter hresult =>
    simp only [sequentialStep, hfilter, hresult, ScanTables.merge, Option.elim_some]
  | failed e htext hparse hresult =>
    have hcaught := h htext e hparse
    simp [sequentialStep, isZeroRiskFile, htext, hparse, hcaught, hresult, ScanTables.merge]

theorem sequentialStep_of_not_filtered {H : Host} {file : String × String} (h : ¬Filtered H file)
    (t : ScanTables) : ∃ e, sequentialStep H t file = .error e := by
  rw [Filtered] at h
  push Not at h
  obtain ⟨htext, e, hparse, hcaught⟩ := h
  exact ⟨e, by simp [sequentialStep, isZeroRiskFile, htext, hparse, hcaught]⟩

theorem foldlM_sequentialStep {H : Host} {items : List (String × String)} (t : ScanTables)
    (h : ∀ file ∈ items, Filtered H file) :
    items.foldlM (sequentialStep H) t = .ok ((items.map (fileResult H)).foldl ScanTables.merge t) := by
  induction items generalizing t with
  | nil => rfl
  | cons file items ih =>
    rw [List.foldlM_cons, sequentialStep_of_filtered (h file (List.mem_cons_self ..))]
    exact ih _ fun f hf => h f (List.mem_cons_of_mem _ hf)

theorem filtered_of_foldlM {H : Host} {items : List (String × String)} {t t' : ScanTables}
    (h : items.foldlM (sequentialStep H) t = .ok t') : ∀ file ∈ items, Filtered H file := by
  induction items generalizing t with
  | nil => exact fun _ hf => absurd hf List.not_mem_nil
  | cons file items ih =>
    rw [List.foldlM_cons] at h
    by_cases hfile : Filtered H file
    · rw [sequentialStep_of_filtered hfile] at h
      intro f hf
      obtain rfl | hf := List.mem_cons.mp hf
      · exact hfile
      · exact ih h f hf
    · obtain ⟨e, he⟩ := sequentialStep_of_not_filtered hfile t
      rw [he] at h
      cases h

def mergedTables (H : Host) (files : Dict String) : ScanTables :=
  (files.items.map (fileResult H)).foldl ScanTables.merge {}

theorem parseFilesSequential_eq {H : Host} {files : Dict String}
    (h : ∀ file ∈ files.items, Filtered H file) :
    parseFilesSequential H files = .ok ⟨mergedTables H files,
      { (mergedTables H files).stats files.items.length "sequential" with workersUsed := some 1 }⟩ := by
  rw [parseFilesSequential, foldlM_sequentialStep {} h]
  rfl

theorem parseFilesSequential_returns_iff (H : Host) (files : Dict String) :
    (∃ run, parseFilesSequential H files = .ok run) ↔ ∀ file ∈ files.items, Filtered H file := by
  constructor
  · rintro ⟨run, h⟩
    rw [parseFilesSequential] at h
    cases hfold : files.items.foldlM (sequentialStep H) {} with
    | error e =>
      rw [hfold] at h
      cases h
    | ok t => exact filtered_of_foldlM hfold
  · exact fun h => ⟨_, parseFilesSequential_eq h⟩

theorem parseBatchHere_eq (H : Host) (t : ScanTables) (batch : List (String × String)) :
    parseBatchHere H t batch = (batch.map (fileResult H)).foldl ScanTables.merge t := by
  rw [parseBatchHere, List.foldl_map]
  rfl

theorem inProcessBranch_eq (H : Host) (files : Dict String) :
    inProcessBranch H files = mergedTables H files := by
  rw [inProcessBranch, parseBatchHere_eq, mergedTables]

/-! ## The pool -/

def fleetBefore (M : Machine) (maxWorkers : ℤ) : ℕ → Fleet
  | 0 => { maxWorkers }
  | k + 1 => ((fleetBefore M maxWorkers k).recheck M k).open

/-- Slice `k` is parsed by workers. -/
def OnPool (M : Machine) (maxWorkers : ℤ) (k : ℕ) : Prop :=
  (fleetBefore M maxWorkers (k + 1)).inProcess = false

/-- There is a pool from the slice before, and the check before slice `k` leaves it. -/
def ReusesPool (M : Machine) (maxWorkers : ℤ) (k : ℕ) : Prop :=
  ((fleetBefore M maxWorkers k).recheck M k).executor.isSome = true

/-- No slice is refused: every death is noticed after the last submission of its slice, and the pool is
given none of the later slices. -/
def PoolsHold (M : Machine) (maxWorkers : ℤ) (batches : List (List (String × String))) : Prop :=
  ∀ k batch, batches[k]? = some batch → OnPool M maxWorkers k → ∀ j, M.death k = some j →
    batch.length ≤ j ∧ (k + 1 < batches.length → ¬ReusesPool M maxWorkers (k + 1))

def Fleet.broken (s : Fleet) (b : Bool) : Fleet := { s with executor := s.executor.map fun _ => b }

theorem recheck_broken (M : Machine) (k : ℕ) (s : Fleet) (b : Bool) :
    (s.broken b).recheck M k = (s.recheck M k).broken b := by
  by_cases hcheck : s.executor.isSome = true ∧ 0 < k ∧ k % 2 = 0
  · by_cases hfloor : M.freeAtCheck k < hardSafetyThresholdMb
    · simp [Fleet.broken, Fleet.recheck, hcheck, hfloor]
    · by_cases hpressure : M.freeAtCheck k < memoryPressureMb ∧ 2 < s.maxWorkers
      · simp [Fleet.broken, Fleet.recheck, hcheck, hfloor, hpressure]
      · simp only [Fleet.broken, Fleet.recheck, Option.isSome_map, if_pos hcheck, if_neg hfloor,
          if_neg hpressure]
        exact if_neg hpressure
  · simp only [Fleet.broken, Fleet.recheck, Option.isSome_map, if_neg hcheck]

structure Fleet.Sound (s : Fleet) : Prop where
  whole : ∀ b, s.executor = some b → b = false
  parent : s.inProcess = true → s.executor = none

theorem Fleet.Sound.recheck {M : Machine} {s : Fleet} (h : s.Sound) (k : ℕ) : (s.recheck M k).Sound := by
  rw [Fleet.recheck]
  split_ifs with hcheck
  · exact ⟨nofun, fun _ => rfl⟩
  · exact ⟨nofun, fun _ => rfl⟩
  · exact h
  · exact h

theorem Fleet.Sound.open {s : Fleet} (h : s.Sound) : s.open.Sound := by
  rw [Fleet.open]
  split_ifs with hparent
  · exact h
  · refine ⟨fun b hb => ?_, fun hin => absurd hin hparent⟩
    cases hexec : s.executor with
    | none => simpa [hexec] using hb.symm
    | some b' => simpa [hexec, h.whole b' hexec] using hb.symm

theorem sound_fleetBefore (M : Machine) (maxWorkers : ℤ) (k : ℕ) :
    (fleetBefore M maxWorkers k).Sound := by
  induction k with
  | zero => exact ⟨nofun, nofun⟩
  | succ k ih => exact (ih.recheck k).open

theorem executor_fleetBefore_succ (M : Machine) (maxWorkers : ℤ) (k : ℕ) :
    (fleetBefore M maxWorkers (k + 1)).executor =
      if (fleetBefore M maxWorkers (k + 1)).inProcess then none else some false := by
  have hsound := (sound_fleetBefore M maxWorkers k).recheck (M := M) k
  rw [fleetBefore, Fleet.open]
  by_cases hparent : ((fleetBefore M maxWorkers k).recheck M k).inProcess = true
  · rw [if_pos hparent, if_pos hparent]
    exact hsound.parent hparent
  · rw [if_neg hparent, if_neg hparent]
    cases hexec : ((fleetBefore M maxWorkers k).recheck M k).executor with
    | none => rfl
    | some b => rw [hsound.whole b hexec]; rfl

theorem Fleet.Sound.broken_false {s : Fleet} (h : s.Sound) : s.broken false = s := by
  obtain ⟨maxWorkers, executor, inProcess, governorEvents⟩ := s
  cases executor with
  | none => rfl
  | some b => rw [h.whole b rfl]; rfl

theorem open_broken {s : Fleet} (h : s.Sound) (b : Bool) :
    (s.broken b).open = if s.executor.isSome then s.open.broken b else s.open := by
  obtain ⟨maxWorkers, executor, inProcess, governorEvents⟩ := s
  cases executor with
  | none => rfl
  | some b' =>
    have hparent : inProcess = false := by
      cases hin : inProcess with
      | false => rfl
      | true => exact absurd (h.parent hin) nofun
    simp [Fleet.broken, Fleet.open, hparent]

def collected (M : Machine) (H : Host) (freeRamMb : ℚ) (workers : ℤ) (idx : ℕ)
    (file : String × String) : ParseResult :=
  (firstPass M H file).getD (secondPass M H freeRamMb workers idx file)

theorem answer_eq (H : Host) (file : String × String) (lost : Bool) :
    Look.answer H file lost = fileResult H file := by
  cases lost with
  | true => rfl
  | false =>
    rw [Look.answer, fileResult, if_neg Bool.false_ne_true, parseHere]
    cases parseSingleFile H file.1 (some file.2) with
    | ok r => rfl
    | error e => rfl

theorem collected_of_not_stuck {M : Machine} {file : String × String} (h : M.look file.1 ≠ .stuck)
    (H : Host) (freeRamMb : ℚ) (workers : ℤ) (idx : ℕ) :
    collected M H freeRamMb workers idx file = fileResult H file := by
  rw [collected, firstPass, secondPass]
  cases hlook : M.look file.1 with
  | stuck => exact absurd hlook h
  | result | lost => simp [answer_eq]
  | lateResult | lateLost => simp [answer_eq]

theorem collected_of_stuck {M : Machine} {file : String × String} (h : M.look file.1 = .stuck)
    (H : Host) (freeRamMb : ℚ) (workers : ℤ) (idx : ℕ) :
    collected M H freeRamMb workers idx file =
      .failed file.1 (timeoutText freeRamMb workers idx) (timeoutText_ne_empty _ _ _) := by
  simp [collected, firstPass, secondPass, h]

def sliceResults (M : Machine) (H : Host) (maxWorkers : ℤ) (k : ℕ)
    (batch : List (String × String)) : List ParseResult :=
  if (fleetBefore M maxWorkers (k + 1)).inProcess then batch.map (fileResult H)
  else batch.mapIdx (collected M H (M.freeAtSlice k) (fleetBefore M maxWorkers (k + 1)).maxWorkers)

/-- The results of the slices from `k` on. -/
def runResults (M : Machine) (H : Host) (maxWorkers : ℤ) :
    ℕ → List (List (String × String)) → List ParseResult
  | _, [] => []
  | k, batch :: rest => sliceResults M H maxWorkers k batch ++ runResults M H maxWorkers (k + 1) rest

/-- `PoolsHold` for the slices from `k` on, where the pool of the slice before may be broken. -/
structure HoldsFrom (M : Machine) (maxWorkers : ℤ) (k : ℕ) (b : Bool)
    (batches : List (List (String × String))) : Prop where
  start : b = true → batches ≠ [] → ¬ReusesPool M maxWorkers k
  later : ∀ i batch, batches[i]? = some batch → OnPool M maxWorkers (k + i) →
    ∀ j, M.death (k + i) = some j →
      batch.length ≤ j ∧ (i + 1 < batches.length → ¬ReusesPool M maxWorkers (k + i + 1))

/-- Whether the pool is broken after slice `k`. -/
def brokenAfter (M : Machine) (maxWorkers : ℤ) (k : ℕ) : Bool :=
  !(fleetBefore M maxWorkers (k + 1)).inProcess && (M.death k).isSome

theorem HoldsFrom.tail {M : Machine} {maxWorkers : ℤ} {k : ℕ} {b : Bool}
    {batch : List (String × String)} {rest : List (List (String × String))}
    (h : HoldsFrom M maxWorkers k b (batch :: rest)) :
    HoldsFrom M maxWorkers (k + 1) (brokenAfter M maxWorkers k) rest := by
  constructor
  · intro hbroken hrest
    rw [brokenAfter, Bool.and_eq_true, Bool.not_eq_true'] at hbroken
    obtain ⟨j, hj⟩ := Option.isSome_iff_exists.mp hbroken.2
    apply (h.later 0 batch rfl hbroken.1 j hj).2
    rw [List.length_cons]
    have hpos := List.length_pos_iff.mpr hrest
    omega
  · intro i batch' hi hpool j hj
    have hshift : k + 1 + i = k + (i + 1) := by omega
    rw [hshift] at hpool hj ⊢
    have hlater := h.later (i + 1) batch' (by rw [List.getElem?_cons_succ]; exact hi) hpool j hj
    refine ⟨hlater.1, fun hlt => hlater.2 ?_⟩
    rw [List.length_cons]
    omega

theorem HoldsFrom.cons {M : Machine} {maxWorkers : ℤ} {k : ℕ} {b : Bool}
    {batch : List (String × String)} {rest : List (List (String × String))}
    (hstart : b = true → ¬ReusesPool M maxWorkers k)
    (hfits : OnPool M maxWorkers k → ∀ j, M.death k = some j → batch.length ≤ j)
    (htail : HoldsFrom M maxWorkers (k + 1) (brokenAfter M maxWorkers k) rest) :
    HoldsFrom M maxWorkers k b (batch :: rest) := by
  refine ⟨fun hb _ => hstart hb, fun i batch' hi hpool j hj => ?_⟩
  cases i with
  | zero =>
    rw [List.getElem?_cons_zero, Option.some.injEq] at hi
    subst hi
    refine ⟨hfits hpool j hj, fun hlt => htail.start ?_ ?_⟩
    · rw [Nat.add_zero] at hpool hj
      rw [OnPool] at hpool
      rw [brokenAfter, hpool, hj]
      rfl
    · rintro rfl
      simp at hlt
  | succ i =>
    have hshift : k + (i + 1) = k + 1 + i := by omega
    rw [hshift] at hpool hj ⊢
    rw [List.getElem?_cons_succ] at hi
    have hlater := htail.later i batch' hi hpool j hj
    refine ⟨hlater.1, fun hlt => hlater.2 ?_⟩
    rw [List.length_cons] at hlt
    omega

theorem open_recheck_of_reuse {M : Machine} {maxWorkers : ℤ} {k : ℕ} (b : Bool)
    (h : ReusesPool M maxWorkers k) :
    (((fleetBefore M maxWorkers k).broken b).recheck M k).open =
      (fleetBefore M maxWorkers (k + 1)).broken b := by
  rw [ReusesPool] at h
  rw [recheck_broken, open_broken ((sound_fleetBefore M maxWorkers k).recheck k), if_pos h]
  rfl

theorem open_recheck {M : Machine} {maxWorkers : ℤ} {k : ℕ} {b : Bool}
    (h : b = true → ¬ReusesPool M maxWorkers k) :
    (((fleetBefore M maxWorkers k).broken b).recheck M k).open = fleetBefore M maxWorkers (k + 1) := by
  cases b with
  | false => rw [(sound_fleetBefore M maxWorkers k).broken_false]; rfl
  | true =>
    have hnew := h rfl
    rw [ReusesPool] at hnew
    rw [recheck_broken, open_broken ((sound_fleetBefore M maxWorkers k).recheck k), if_neg hnew]
    rfl

theorem onPool_of_reuse {M : Machine} {maxWorkers : ℤ} {k : ℕ} (h : ReusesPool M maxWorkers k) :
    OnPool M maxWorkers k := by
  rw [ReusesPool] at h
  have hsound := (sound_fleetBefore M maxWorkers k).recheck (M := M) k
  cases hparent : ((fleetBefore M maxWorkers k).recheck M k).inProcess with
  | false => simp [OnPool, fleetBefore, Fleet.open, hparent]
  | true =>
    rw [hsound.parent hparent] at h
    cases h

section Slice

variable {M : Machine} {maxWorkers : ℤ} {k : ℕ} {b : Bool} {batch : List (String × String)}

theorem parseSlices_cons (hstart : b = true → ¬ReusesPool M maxWorkers k)
    (hfits : OnPool M maxWorkers k → ∀ j, M.death k = some j → batch.length ≤ j) (H : Host)
    (t : ScanTables) (rest : List (List (String × String))) :
    parseSlices M H k ((fleetBefore M maxWorkers k).broken b) t (batch :: rest) =
      parseSlices M H (k + 1) ((fleetBefore M maxWorkers (k + 1)).broken (brokenAfter M maxWorkers k))
        ((sliceResults M H maxWorkers k batch).foldl ScanTables.merge t) rest := by
  have hexec := executor_fleetBefore_succ M maxWorkers k
  rw [parseSlices, open_recheck hstart, sliceResults]
  by_cases hparent : (fleetBefore M maxWorkers (k + 1)).inProcess = true
  · rw [if_pos hparent] at hexec ⊢
    have hwhole : brokenAfter M maxWorkers k = false := by simp [brokenAfter, hparent]
    rw [hwhole, (sound_fleetBefore M maxWorkers (k + 1)).broken_false, ← parseBatchHere_eq]
    simp only [hexec]
  · rw [if_neg hparent] at hexec ⊢
    have hpool : OnPool M maxWorkers k := Bool.eq_false_of_not_eq_true hparent
    have hall : (M.death k).all (batch.length ≤ ·) = true := by
      cases hdeath : M.death k with
      | none => rfl
      | some j => exact decide_eq_true (hfits hpool j hdeath)
    have hnext : { fleetBefore M maxWorkers (k + 1) with
        executor := some (false || (M.death k).isSome) } =
        (fleetBefore M maxWorkers (k + 1)).broken (brokenAfter M maxWorkers k) := by
      simp [Fleet.broken, hexec, brokenAfter, hparent]
    simp only [hexec, Bool.false_eq_true, if_false, parseSlice, hall, if_true, hnext]
    rfl

theorem parseSlices_refused_of_reuse (hne : batch ≠ []) (hreuse : ReusesPool M maxWorkers k)
    (H : Host) (t : ScanTables) (rest : List (List (String × String))) :
    parseSlices M H k ((fleetBefore M maxWorkers k).broken true) t (batch :: rest) =
      .error brokenProcessPool := by
  have hpos := List.length_pos_iff.mpr hne
  have hexec := executor_fleetBefore_succ M maxWorkers k
  rw [onPool_of_reuse hreuse, if_neg Bool.false_ne_true] at hexec
  have hbroken : ((fleetBefore M maxWorkers (k + 1)).broken true).executor = some true := by
    rw [Fleet.broken, hexec]
    rfl
  rw [parseSlices, open_recheck_of_reuse true hreuse]
  simp [hbroken, parseSlice, hne]

theorem parseSlices_refused_of_death (hstart : b = true → ¬ReusesPool M maxWorkers k)
    (hpool : OnPool M maxWorkers k) {j : ℕ} (hj : M.death k = some j) (hlt : j < batch.length)
    (H : Host) (t : ScanTables) (rest : List (List (String × String))) :
    parseSlices M H k ((fleetBefore M maxWorkers k).broken b) t (batch :: rest) =
      .error brokenProcessPool := by
  have hexec := executor_fleetBefore_succ M maxWorkers k
  rw [hpool, if_neg Bool.false_ne_true] at hexec
  rw [parseSlices, open_recheck hstart]
  have hle : ¬batch.length ≤ j := by omega
  simp [hexec, parseSlice, hj, hle]

end Slice

theorem parseSlices_eq {M : Machine} {maxWorkers : ℤ} (H : Host)
    {batches : List (List (String × String))} {k : ℕ} {b : Bool} (t : ScanTables)
    (h : HoldsFrom M maxWorkers k b batches) :
    ∃ s, parseSlices M H k ((fleetBefore M maxWorkers k).broken b) t batches =
      .ok (s, (runResults M H maxWorkers k batches).foldl ScanTables.merge t) := by
  induction batches generalizing k b t with
  | nil => exact ⟨_, rfl⟩
  | cons batch rest ih =>
    rw [runResults, List.foldl_append]
    rw [parseSlices_cons (fun hb => h.start hb (List.cons_ne_nil batch rest))
      (fun hpool j hj => (h.later 0 batch rfl hpool j hj).1)]
    exact ih _ h.tail

theorem holdsFrom_of_parseSlices {M : Machine} {maxWorkers : ℤ} {H : Host}
    {batches : List (List (String × String))} (hne : ∀ batch ∈ batches, batch ≠ []) {k : ℕ} {b : Bool}
    {t : ScanTables} {r : Fleet × ScanTables}
    (h : parseSlices M H k ((fleetBefore M maxWorkers k).broken b) t batches = .ok r) :
    HoldsFrom M maxWorkers k b batches := by
  induction batches generalizing k b t with
  | nil => exact ⟨fun _ hnil => absurd rfl hnil, fun i batch hi => by simp at hi⟩
  | cons batch rest ih =>
    have hstart : b = true → ¬ReusesPool M maxWorkers k := by
      rintro rfl hreuse
      rw [parseSlices_refused_of_reuse (hne batch (List.mem_cons_self ..)) hreuse] at h
      cases h
    have hfits : OnPool M maxWorkers k → ∀ j, M.death k = some j → batch.length ≤ j := by
      intro hpool j hj
      by_contra hlt
      rw [parseSlices_refused_of_death hstart hpool hj (by omega)] at h
      cases h
    rw [parseSlices_cons hstart hfits] at h
    exact .cons hstart hfits (ih (fun batch hb => hne batch (List.mem_cons_of_mem _ hb)) h)

theorem flatten_windows {α : Type} (size : ℕ) (items : List α) (n : ℕ) :
    ((List.range n).map fun i => (items.drop (size * i)).take size).flatten = items.take (size * n) := by
  induction n with
  | zero => simp
  | succ n ih =>
    rw [List.range_succ, List.map_append, List.flatten_append, ih, Nat.mul_succ, List.take_add]
    simp

theorem length_le_windows {size : ℕ} (hsize : 0 < size) (n : ℕ) : n ≤ size * ((n + (size - 1)) / size) := by
  have hdiv := Nat.div_add_mod (n + (size - 1)) size
  have hmod := Nat.mod_lt (n + (size - 1)) hsize
  omega

theorem flatten_slices (items : List (String × String)) : (slices items).flatten = items := by
  rw [slices, flatten_windows]
  exact List.take_of_length_le (length_le_windows (by decide) items.length)

theorem slices_ne_nil {items batch : List (String × String)} (h : batch ∈ slices items) : batch ≠ [] := by
  rw [slices, List.mem_map] at h
  obtain ⟨i, hi, rfl⟩ := h
  rw [List.mem_range] at hi
  have hsize : batchSize = 40 := rfl
  rw [hsize] at hi ⊢
  intro hnil
  have hlen := congrArg List.length hnil
  rw [List.length_take, List.length_drop, List.length_nil] at hlen
  omega

theorem poolBranch_eq {M : Machine} {maxWorkers : ℤ} {files : Dict String}
    (h : PoolsHold M maxWorkers (slices files.items)) (H : Host) :
    ∃ s, poolBranch M H files maxWorkers =
      .ok (s, (runResults M H maxWorkers 0 (slices files.items)).foldl ScanTables.merge {}) := by
  apply parseSlices_eq (b := false) H {}
  refine ⟨nofun, fun i batch hi hpool j hj => ?_⟩
  rw [Nat.zero_add] at hpool hj ⊢
  exact h i batch hi hpool j hj

theorem poolBranch_returns_iff (M : Machine) (H : Host) (maxWorkers : ℤ) (files : Dict String) :
    (∃ r, poolBranch M H files maxWorkers = .ok r) ↔ PoolsHold M maxWorkers (slices files.items) := by
  constructor
  · rintro ⟨r, h⟩
    have hholds := holdsFrom_of_parseSlices (b := false) (fun _ => slices_ne_nil) h
    intro k batch hk hpool j hj
    have hlater := hholds.later k batch hk
    rw [Nat.zero_add] at hlater
    exact hlater hpool j hj
  · intro h
    obtain ⟨s, hs⟩ := poolBranch_eq h H
    exact ⟨_, hs⟩

end TimeCodeSecurity.Parsing
