import TimeCodeSecurity.Parsing.Results

/-! # The two looks at a slice

`_parse_slice` with its own variables: the slots of the results, which start out empty, and the list of
the futures that were late at the first look. When a task ends, and how, is a schedule; which submission
the pool refuses is part of it.
-/
namespace TimeCodeSecurity.Parsing
set_option autoImplicit false

abbrev BatchFile := String × Option String

inductive Ending
  | completed
  | lost (e : Exc)

/-- One run of a slice. A submission is refused from the moment the pool is known to be broken. -/
structure Schedule where
  refusedFrom : Option ℕ
  ending : ℕ → Ending
  endedFirst : ℕ → Bool
  endedSecond : ℕ → Bool
  endedSecond_of_first : ∀ i, endedFirst i = true → endedSecond i = true
  /-- Whether a missed deadline raises the built-in `TimeoutError`, which it does from Python 3.11 on. -/
  deadlineCaught : Bool

variable (S : Schedule) (H : Host)

/-- `future.result()` when the task has ended. -/
def Ending.outcome (file : BatchFile) : Ending → Except Exc ParseResult
  | .completed => parseSingleFile H file.1 file.2
  | .lost e => .error e

def Exc.isTimeout (e : Exc) : Bool := e.typeName = "TimeoutError"

def lateResult (freeRamMb : ℚ) (workers : ℤ) (idx : ℕ) (file : BatchFile) : ParseResult :=
  .failed file.1 (timeoutText freeRamMb workers idx) (timeoutText_ne_empty _ _ _)

structure Slots where
  results : List (Option ParseResult)
  timedOut : List (ℕ × BatchFile) := []

def Slots.fill (s : Slots) (idx : ℕ) (r : ParseResult) : Slots :=
  { s with results := s.results.set idx (some r) }

def Slots.postpone (s : Slots) (idx : ℕ) (file : BatchFile) : Slots :=
  { s with timedOut := s.timedOut ++ [(idx, file)] }

/-- A task may itself end in a `TimeoutError`, which is taken for a missed deadline. -/
def firstLook (s : Slots) (idx : ℕ) (file : BatchFile) : Slots :=
  if S.endedFirst idx then
    match (S.ending idx).outcome H file with
    | .ok r => s.fill idx r
    | .error e => if e.isTimeout then s.postpone idx file else s.fill idx (parseHere H file.1 file.2)
  else if S.deadlineCaught then s.postpone idx file
  else s.fill idx (parseHere H file.1 file.2)

def firstLooks : ℕ → List BatchFile → Slots → Slots
  | _, [], s => s
  | idx, file :: rest, s => firstLooks (idx + 1) rest (firstLook S H s idx file)

def secondLook (freeRamMb : ℚ) (workers : ℤ) (results : List (Option ParseResult))
    (late : ℕ × BatchFile) : List (Option ParseResult) :=
  results.set late.1 <| some <|
    if S.endedSecond late.1 then
      match (S.ending late.1).outcome H late.2 with
      | .ok r => r
      | .error _ => parseHere H late.2.1 late.2.2
    else lateResult freeRamMb workers late.1 late.2

def sliceRun (batch : List BatchFile) (freeRamMb : ℚ) (workers : ℤ) :
    Except Exc (List (Option ParseResult)) :=
  if S.refusedFrom.all (batch.length ≤ ·) then
    let s := firstLooks S H 0 batch { results := List.replicate batch.length none }
    .ok (s.timedOut.foldl (secondLook S H freeRamMb workers) s.results)
  else .error brokenProcessPool

def slotOf (freeRamMb : ℚ) (workers : ℤ) (idx : ℕ) (file : BatchFile) : ParseResult :=
  if S.endedSecond idx = true ∨ S.deadlineCaught = false then parseHere H file.1 file.2
  else lateResult freeRamMb workers idx file

theorem parseHere_of_ok {file : BatchFile} {r : ParseResult}
    (h : parseSingleFile H file.1 file.2 = .ok r) : parseHere H file.1 file.2 = r := by
  rw [parseHere, h]

theorem outcome_eq_ok {file : BatchFile} {ending : Ending} {r : ParseResult}
    (h : ending.outcome H file = .ok r) : parseHere H file.1 file.2 = r := by
  cases ending with
  | completed => exact parseHere_of_ok H h
  | lost e => cases h

theorem filepath_parseText {path source : String} {r : ParseResult} (h : parseText H path source = .ok r) :
    r.filepath = path := by
  unfold parseText at h
  split at h
  · cases h
  · cases h
    rfl
  · cases h
    rfl
  · split at h
    · cases h
      rfl
    · split at h
      · cases h
        rfl
      · cases h

theorem filepath_parseHere (path : String) (source : Option String) :
    (parseHere H path source).filepath = path := by
  unfold parseHere
  split
  next r h =>
    cases source with
    | some text => exact filepath_parseText H h
    | none =>
      simp only [parseSingleFile] at h
      split at h
      · exact filepath_parseText H h
      · split at h
        · cases h
          rfl
        · cases h
  · rfl

theorem filepath_slotOf (freeRamMb : ℚ) (workers : ℤ) (idx : ℕ) (file : BatchFile) :
    (slotOf S H freeRamMb workers idx file).filepath = file.1 := by
  unfold slotOf
  split
  · exact filepath_parseHere H file.1 file.2
  · rfl

/-! ## The invariant -/

/-- Every slot below `bound` is settled or waits for the second look, and what waits is late. -/
structure Looked (freeRamMb : ℚ) (workers : ℤ) (batch : List BatchFile) (bound : ℕ)
    (results : List (Option ParseResult)) (waiting : List (ℕ × BatchFile)) : Prop where
  length : results.length = batch.length
  settled : ∀ i file, batch[i]? = some file → i < bound →
    results[i]? = some (some (slotOf S H freeRamMb workers i file)) ∨ (i, file) ∈ waiting
  late : ∀ i file, (i, file) ∈ waiting →
    batch[i]? = some file ∧ (S.endedSecond i = true ∨ S.deadlineCaught = true)

variable {S H} {freeRamMb : ℚ} {workers : ℤ} {batch : List BatchFile} {bound : ℕ}
  {results : List (Option ParseResult)} {waiting : List (ℕ × BatchFile)}

theorem Looked.fill {file : BatchFile} (h : Looked S H freeRamMb workers batch bound results waiting)
    (hfile : batch[bound]? = some file) :
    Looked S H freeRamMb workers batch (bound + 1)
      (results.set bound (some (slotOf S H freeRamMb workers bound file))) waiting where
  length := by rw [List.length_set, h.length]
  settled := by
    intro i other hother hi
    have hlt : i < results.length := by
      rw [h.length]
      exact (List.getElem?_eq_some_iff.mp hother).1
    by_cases heq : bound = i
    · subst heq
      obtain rfl : file = other := Option.some.inj (hfile.symm.trans hother)
      left
      rw [List.getElem?_set_self hlt]
    · rw [List.getElem?_set_ne heq]
      exact h.settled i other hother (by omega)
  late := h.late

theorem Looked.postpone {file : BatchFile} (h : Looked S H freeRamMb workers batch bound results waiting)
    (hfile : batch[bound]? = some file) (hlate : S.endedSecond bound = true ∨ S.deadlineCaught = true) :
    Looked S H freeRamMb workers batch (bound + 1) results (waiting ++ [(bound, file)]) where
  length := h.length
  settled := by
    intro i other hother hi
    by_cases heq : bound = i
    · subst heq
      obtain rfl : file = other := Option.some.inj (hfile.symm.trans hother)
      exact .inr (by simp)
    · exact (h.settled i other hother (by omega)).imp_right (List.mem_append_left _)
  late := by
    intro i other hmem
    rcases List.mem_append.mp hmem with hmem | hmem
    · exact h.late i other hmem
    · obtain ⟨rfl, rfl⟩ := Prod.mk.inj (List.mem_singleton.mp hmem)
      exact ⟨hfile, hlate⟩

theorem slotOf_of_ended {idx : ℕ} (file : BatchFile) (h : S.endedSecond idx = true) :
    slotOf S H freeRamMb workers idx file = parseHere H file.1 file.2 := by
  rw [slotOf, if_pos (.inl h)]

theorem Looked.firstLook {file : BatchFile} {s : Slots}
    (h : Looked S H freeRamMb workers batch bound s.results s.timedOut)
    (hfile : batch[bound]? = some file) :
    Looked S H freeRamMb workers batch (bound + 1) (firstLook S H s bound file).results
      (firstLook S H s bound file).timedOut := by
  have hfill := h.fill hfile
  unfold Parsing.firstLook
  by_cases hended : S.endedFirst bound = true
  · have hsecond := S.endedSecond_of_first bound hended
    rw [slotOf_of_ended file hsecond] at hfill
    rw [if_pos hended]
    split
    next r hr =>
      rw [outcome_eq_ok H hr] at hfill
      exact hfill
    · split
      · exact h.postpone hfile (.inl hsecond)
      · exact hfill
  · rw [if_neg hended]
    by_cases hcaught : S.deadlineCaught = true
    · rw [if_pos hcaught]
      exact h.postpone hfile (.inr hcaught)
    · rw [if_neg hcaught]
      rw [slotOf, if_pos (.inr (Bool.eq_false_of_not_eq_true hcaught))] at hfill
      exact hfill

theorem Looked.firstLooks {rest : List BatchFile} : ∀ {bound : ℕ} {s : Slots},
    Looked S H freeRamMb workers batch bound s.results s.timedOut → batch.drop bound = rest →
      Looked S H freeRamMb workers batch (bound + rest.length) (firstLooks S H bound rest s).results
        (firstLooks S H bound rest s).timedOut := by
  induction rest with
  | nil => exact fun h _ => h
  | cons file rest ih =>
    intro bound s h hrest
    have hfile : batch[bound]? = some file := by rw [← List.head?_drop, hrest, List.head?_cons]
    have htail : batch.drop (bound + 1) = rest := by rw [← List.tail_drop, hrest, List.tail_cons]
    have hlength : bound + (file :: rest).length = bound + 1 + rest.length := by
      simp only [List.length_cons]
      omega
    rw [hlength]
    exact ih (h.firstLook hfile) htail

theorem Looked.secondLook {late : ℕ × BatchFile}
    (h : Looked S H freeRamMb workers batch bound results (late :: waiting)) :
    Looked S H freeRamMb workers batch bound (secondLook S H freeRamMb workers results late) waiting := by
  obtain ⟨i, file⟩ := late
  obtain ⟨hfile, hlate⟩ := h.late i file List.mem_cons_self
  have hvalue : Parsing.secondLook S H freeRamMb workers results (i, file) =
      results.set i (some (slotOf S H freeRamMb workers i file)) := by
    unfold Parsing.secondLook
    by_cases hended : S.endedSecond i = true
    · rw [if_pos hended, slotOf_of_ended file hended]
      split
      next r hr => rw [outcome_eq_ok H hr]
      · rfl
    · have hcaught := hlate.resolve_left hended
      rw [if_neg hended, slotOf, if_neg (by simp [hended, hcaught])]
  rw [hvalue]
  have hrest := fun j other hmem => h.late j other (List.mem_cons_of_mem _ hmem)
  refine ⟨by rw [List.length_set, h.length], ?_, hrest⟩
  intro j other hother hj
  have hlt : j < results.length := by
    rw [h.length]
    exact (List.getElem?_eq_some_iff.mp hother).1
  by_cases heq : i = j
  · subst heq
    obtain rfl : file = other := Option.some.inj (hfile.symm.trans hother)
    left
    rw [List.getElem?_set_self hlt]
  · rw [List.getElem?_set_ne heq]
    apply (h.settled j other hother hj).imp_right
    intro hmem
    rcases List.mem_cons.mp hmem with hmem | hmem
    · exact absurd (congrArg Prod.fst hmem).symm heq
    · exact hmem

theorem Looked.secondLooks : ∀ {waiting : List (ℕ × BatchFile)} {results : List (Option ParseResult)},
    Looked S H freeRamMb workers batch bound results waiting →
      Looked S H freeRamMb workers batch bound
        (waiting.foldl (Parsing.secondLook S H freeRamMb workers) results) []
  | [], _, h => h
  | _ :: waiting, _, h => by
    have hrest := h.secondLook
    rw [List.foldl_cons]
    exact Looked.secondLooks hrest

theorem Looked.results_eq (h : Looked S H freeRamMb workers batch batch.length results []) :
    results = batch.mapIdx fun i file => some (slotOf S H freeRamMb workers i file) := by
  apply List.ext_getElem?
  intro i
  rw [List.getElem?_mapIdx]
  cases hfile : batch[i]? with
  | none =>
    have hlong := List.getElem?_eq_none_iff.mp hfile
    exact List.getElem?_eq_none_iff.mpr (by rw [h.length]; exact hlong)
  | some file =>
    have hlt := (List.getElem?_eq_some_iff.mp hfile).1
    exact (h.settled i file hfile hlt).resolve_right List.not_mem_nil

theorem sliceRun_eq (S : Schedule) (H : Host) (batch : List BatchFile) (freeRamMb : ℚ) (workers : ℤ) :
    sliceRun S H batch freeRamMb workers =
      if S.refusedFrom.all (batch.length ≤ ·) then
        .ok (batch.mapIdx fun i file => some (slotOf S H freeRamMb workers i file))
      else .error brokenProcessPool := by
  have hstart : Looked S H freeRamMb workers batch 0 (List.replicate batch.length none) [] :=
    ⟨List.length_replicate, fun _ _ _ hi => absurd hi (Nat.not_lt_zero _),
      fun _ _ hmem => absurd hmem List.not_mem_nil⟩
  have hlooked := (Looked.firstLooks (s := { results := List.replicate batch.length none }) hstart
    List.drop_zero).secondLooks
  rw [Nat.zero_add] at hlooked
  unfold sliceRun
  rw [← hlooked.results_eq]

/-- Every slot answers for its own file; a file whose task has ended at the second look holds what the
parent makes of it, never a timeout. -/
def AnswersEvery (S : Schedule) (H : Host) (batch : List BatchFile) (freeRamMb : ℚ) (workers : ℤ) : Prop :=
  ∃ results, sliceRun S H batch freeRamMb workers = .ok results ∧ results.length = batch.length ∧
    ∀ i file, batch[i]? = some file → ∃ r, results[i]? = some (some r) ∧ r.filepath = file.1 ∧
      (S.endedSecond i = true → r = parseHere H file.1 file.2)

/-- **A slice under any timing.** The guarantee holds exactly when the pool takes every submission. -/
theorem answersEvery_iff (S : Schedule) (H : Host) (batch : List BatchFile) (freeRamMb : ℚ)
    (workers : ℤ) : AnswersEvery S H batch freeRamMb workers ↔
      ∀ k, S.refusedFrom = some k → batch.length ≤ k := by
  unfold AnswersEvery
  rw [sliceRun_eq]
  have hall : S.refusedFrom.all (batch.length ≤ ·) = true ↔
      ∀ k, S.refusedFrom = some k → batch.length ≤ k := by
    cases S.refusedFrom <;> simp
  rw [← hall]
  constructor
  · rintro ⟨results, hresults, -⟩
    by_contra hrefused
    rw [if_neg hrefused] at hresults
    cases hresults
  · intro htaken
    refine ⟨_, if_pos htaken, List.length_mapIdx, fun i file hfile => ?_⟩
    refine ⟨slotOf S H freeRamMb workers i file, ?_, filepath_slotOf S H freeRamMb workers i file,
      slotOf_of_ended file⟩
    rw [List.getElem?_mapIdx, hfile]
    rfl

def earlyDeath : Schedule where
  refusedFrom := some 1
  ending := fun _ => .lost brokenProcessPool
  endedFirst := fun _ => true
  endedSecond := fun _ => true
  endedSecond_of_first := fun _ _ => rfl
  deadlineCaught := true

theorem early_death_loses_slice : ¬ ∀ (S : Schedule) (H : Host) (batch : List BatchFile) (freeRamMb : ℚ)
    (workers : ℤ), AnswersEvery S H batch freeRamMb workers := by
  intro h
  have hdeath := h earlyDeath ⟨fun _ _ => .ok [], fun _ => .ok ""⟩ [("a.py", some ""), ("b.py", some "")]
    0 2
  obtain ⟨results, hresults, -⟩ := hdeath
  cases hresults

def Machine.schedule (M : Machine) (refusedFrom : Option ℕ) (batch : List (String × String)) :
    Schedule where
  refusedFrom := refusedFrom
  ending := fun i =>
    match batch[i]?.map fun file => M.look file.1 with
    | some .lost | some .lateLost => .lost brokenProcessPool
    | _ => .completed
  endedFirst := fun i =>
    match batch[i]?.map fun file => M.look file.1 with
    | some .result | some .lost => true
    | _ => false
  endedSecond := fun i =>
    match batch[i]?.map fun file => M.look file.1 with
    | some .stuck => false
    | _ => true
  endedSecond_of_first := by
    intro i h
    split at h
    · simp [*]
    · simp [*]
    · cases h
  deadlineCaught := true

/-- What a run takes from a slice is what its loops leave in the slots. -/
theorem sliceRun_schedule (M : Machine) (H : Host) (refusedFrom : Option ℕ)
    (batch : List (String × String)) (freeRamMb : ℚ) (workers : ℤ) :
    sliceRun (M.schedule refusedFrom batch) H (batch.map fun file => (file.1, some file.2)) freeRamMb
        workers =
      (parseSlice M H refusedFrom batch freeRamMb workers).map (List.map some) := by
  rw [sliceRun_eq, parseSlice, List.length_map]
  show (if refusedFrom.all (batch.length ≤ ·) then _ else _) = _
  split
  · show Except.ok _ = Except.ok _
    congr 1
    apply List.ext_getElem?
    intro i
    simp only [List.getElem?_mapIdx, List.getElem?_map]
    cases hfile : batch[i]? with
    | none => rfl
    | some file =>
      simp only [Option.map_some, Option.some.injEq, slotOf, Machine.schedule, hfile]
      cases hlook : M.look file.1 <;>
        simp [firstPass, secondPass, hlook, answer_eq, fileResult, lateResult]
  · rfl

end TimeCodeSecurity.Parsing
