import Mathlib.Data.List.Basic
import Mathlib.Data.Int.Notation
import Mathlib.Data.List.Flatten

/-! # The JS/TS scanner

`scan_directory` walks a target and `scan_files` takes a list of files; both scan file by file and number
what they find. The isolated scan gives batches of files to child processes and halves a batch whose child
failed.
-/
namespace TimeCodeSecurity.JsScan
set_option autoImplicit false

/-- The parts of a path, the root of an absolute one first. -/
abbrev Path := List String

def Path.str : Path → String
  | [] => "."
  | "/" :: rest => "/" ++ "/".intercalate rest
  | parts => "/".intercalate parts

def Path.name (p : Path) : String :=
  match p.getLast? with
  | some "/" | none => ""
  | some part => part

def Path.parent (p : Path) : Path :=
  if p = ["/"] then p else p.dropLast

def suffixOf (name : List Char) : List Char :=
  let ext := name.reverse.takeWhile (· ≠ '.')
  let before := name.reverse.drop (ext.length + 1)
  if ext ≠ [] ∧ before ≠ [] then '.' :: ext.reverse else []

def Path.suffix (p : Path) : String := String.ofList (suffixOf p.name.toList)

/-- `relative_to`; nothing where Python raises `ValueError`. -/
def Path.relativeTo (p base : Path) : Option Path :=
  if p.take base.length = base then some (p.drop base.length) else none

def jsTsExtensions : List String := [".js", ".jsx", ".ts", ".tsx", ".mjs", ".cjs"]

def lower (s : String) : String := String.ofList (s.toList.map Char.toLower)

def isJsTs (p : Path) : Bool := jsTsExtensions.contains (lower p.suffix)

/-- What `_discover_js_files` returns. -/
structure Discovered where
  files : List Path
  jsTs : ∀ f ∈ files, isJsTs f = true

/-- A finding: its id and its other fields. -/
structure Finding (β : Type) where
  id : String
  fields : β
deriving DecidableEq, Repr

/-- `f"{n:03d}"`. -/
def pad3 (n : ℕ) : String :=
  let digits := Nat.toDigits 10 n
  String.ofList (List.replicate (3 - digits.length) '0' ++ digits)

def jsId (n : ℕ) : String := "TimeCodeSecurity-JS-" ++ pad3 n

variable {β : Type}

/-- `ff["id"] = ...; counter += 1` over the findings of a file. -/
def number : ℕ → List (Finding β) → List (Finding β)
  | _, [] => []
  | counter, ff :: rest => { ff with id := jsId counter } :: number (counter + 1) rest

/-- What the scanner is run on: whether the grammars were imported, what `_scan_file` finds in a file that
goes by a relative path, and whether a path is a directory. -/
structure World (β : Type) where
  available : Bool
  scanFile : Path → String → List (Finding β)
  isDir : Path → Bool

variable (w : World β)

def directoryRelPath (target base file : Path) : String :=
  match file.relativeTo (if w.isDir target then target else target.parent) with
  | some rel => rel.str
  | none =>
    match file.relativeTo base with
    | some rel => rel.str
    | none => file.name

/-- The loop of `scan_directory`. -/
def directoryLoop (target base : Path) : List Path → ℕ → List (Finding β) → List (Finding β)
  | [], _, findings => findings
  | file :: rest, counter, findings =>
    let fileFindings := number counter (w.scanFile file (directoryRelPath w target base file))
    directoryLoop target base rest (counter + fileFindings.length) (findings ++ fileFindings)

/-- `scan_directory`; `none` is Python's `None`. -/
def scanDirectory (target : Path) (baseDir : Option Path) (jsFiles : List Path) :
    Option (List (Finding β)) :=
  if !w.available then some []
  else
    let base := baseDir.getD (if w.isDir target then target else target.parent)
    let _findings := directoryLoop w target base jsFiles 1 []
    -- the body ends with the loop
    none

def runJsTsScan (target : Path) (baseDir : Option Path) (jsFiles : List Path) :
    Option (List (Finding β)) :=
  scanDirectory w target baseDir jsFiles

def relPath (base file : Path) : String :=
  match file.relativeTo base with
  | some rel => rel.str
  | none => file.name

def filesLoop (base : Path) : List Path → ℕ → List (Finding β) → List (Finding β)
  | [], _, findings => findings
  | file :: rest, counter, findings =>
    if !isJsTs file then filesLoop base rest counter findings
    else
      let fileFindings := number counter (w.scanFile file (relPath base file))
      filesLoop base rest (counter + fileFindings.length) (findings ++ fileFindings)

def scanFiles (files : List Path) (base : Path) : List (Finding β) :=
  if !w.available then [] else filesLoop w base files 1 []

/-- How a child process ends. -/
inductive Child
  | osError
  | timeoutExpired
  | exited (code : ℤ)
  -- it exits with zero and its output is not a JSON list
  | garbled
deriving DecidableEq, Repr

/-- `_scan_batch_in_child` gives `None`. -/
def Child.failed : Child → Bool
  | .exited code => code != 0
  | .osError | .timeoutExpired | .garbled => true

/-- The batches given to children with how those ended, and the files that were dropped. -/
structure Session where
  log : List (List Path × Child)
  dropped : List String

/-- How the child of the next batch ends, from the batches before it. -/
abbrev Behaviour := List (List Path × Child) → List Path → Child

variable (child : Behaviour)

def scanBatchInChild (files : List Path) (base : Path) (s : Session) :
    Option (List (Finding β)) × Session :=
  let outcome := child s.log files
  let s := { s with log := s.log ++ [(files, outcome)] }
  if outcome.failed then (none, s) else (some (scanFiles w files base), s)

def scanFilesIsolated (files : List Path) (base : Path) (s : Session) : List (Finding β) × Session :=
  if _ : files = [] then ([], s)
  else
    match scanBatchInChild w child files base s with
    | (some batch, s) => (batch, s)
    | (none, s) =>
      if _ : files.length = 1 then ([], { s with dropped := s.dropped ++ files.map Path.str })
      else
        let mid := files.length / 2
        let left := scanFilesIsolated (files.take mid) base s
        let right := scanFilesIsolated (files.drop mid) base left.2
        (left.1 ++ right.1, right.2)
  termination_by files.length
  decreasing_by
  · have hpos := List.length_pos_of_ne_nil ‹files ≠ []›
    rw [List.length_take]
    omega
  · have hpos := List.length_pos_of_ne_nil ‹files ≠ []›
    rw [List.length_drop]
    omega

/-- `run_js_ts_scan_isolated`, the files being those discovered. -/
def runJsTsScanIsolated (base : Path) (files : List Path) : List (Finding β) :=
  if !w.available then []
  else if files.isEmpty then []
  else number 1 (scanFilesIsolated w child files base { log := [], dropped := [] }).1

end TimeCodeSecurity.JsScan

/-! ## What the isolated scan loses

Every file of the list is either among the files that were scanned, with its findings once and in its
place, or it was dropped, and then a child failed on it alone. The direct scan returns nothing at all when
the grammars are there.
-/
namespace TimeCodeSecurity.JsScan

variable {β : Type} (w : World β)

@[simp] theorem map_fields_number (n : ℕ) (fs : List (Finding β)) :
    (number n fs).map Finding.fields = fs.map Finding.fields := by
  induction fs generalizing n with
  | nil => rfl
  | cons f fs ih => simp [number, ih]

@[simp] theorem length_number (n : ℕ) (fs : List (Finding β)) : (number n fs).length = fs.length := by
  induction fs generalizing n with
  | nil => rfl
  | cons f fs ih => simp [number, ih]

theorem number_append (n : ℕ) (fs gs : List (Finding β)) :
    number n (fs ++ gs) = number n fs ++ number (n + fs.length) gs := by
  induction fs generalizing n with
  | nil => simp [number]
  | cons f fs ih =>
    have hshift : n + 1 + fs.length = n + (fs.length + 1) := by omega
    simp [number, ih, hshift]

/-- What `scan_files` finds in one file, before it numbers. -/
def found (base file : Path) : List (Finding β) :=
  if w.available && isJsTs file then w.scanFile file (relPath base file) else []

theorem filesLoop_eq (havail : w.available = true) (base : Path) (files : List Path) (counter : ℕ)
    (acc : List (Finding β)) :
    filesLoop w base files counter acc = acc ++ number counter (files.flatMap (found w base)) := by
  induction files generalizing counter acc with
  | nil => simp [filesLoop, number]
  | cons file rest ih =>
    rw [filesLoop, List.flatMap_cons, number_append]
    cases hjs : isJsTs file with
    | false =>
      have hnone : found w base file = [] := by simp [found, hjs]
      rw [hnone]
      exact ih counter acc
    | true =>
      have hfound : found w base file = w.scanFile file (relPath base file) := by
        simp [found, havail, hjs]
      rw [hfound, Bool.not_true, if_neg Bool.false_ne_true, ih, length_number, List.append_assoc]

theorem scanFiles_eq (files : List Path) (base : Path) :
    scanFiles w files base = number 1 (files.flatMap (found w base)) := by
  rw [scanFiles]
  cases havail : w.available with
  | false =>
    have hnone : files.flatMap (found w base) = [] := by
      rw [List.flatMap_eq_nil_iff]
      intro file _
      simp [found, havail]
    rw [hnone]
    rfl
  | true =>
    rw [Bool.not_true, if_neg Bool.false_ne_true, filesLoop_eq w havail, List.nil_append]

theorem directoryLoop_eq (target base : Path) (files : List Path) (counter : ℕ)
    (acc : List (Finding β)) :
    directoryLoop w target base files counter acc = acc ++ number counter
      (files.flatMap fun file => w.scanFile file (directoryRelPath w target base file)) := by
  induction files generalizing counter acc with
  | nil => simp [directoryLoop, number]
  | cons file rest ih =>
    rw [directoryLoop, List.flatMap_cons, number_append, ih, length_number, List.append_assoc]

/-- Over one directory the loop of the direct scan finds what `scan_files` finds, ids included. -/
theorem directoryLoop_eq_scanFiles (havail : w.available = true) (files : Discovered) (base : Path)
    (hdir : w.isDir base = true) :
    directoryLoop w base base files.files 1 [] = scanFiles w files.files base := by
  rw [directoryLoop_eq, scanFiles_eq, List.nil_append]
  congr 1
  apply List.flatMap_congr
  intro file hfile
  have hpath : directoryRelPath w base base file = relPath base file := by
    rw [directoryRelPath, relPath, hdir, if_pos rfl]
    cases file.relativeTo base with
    | none => rfl
    | some rel => rfl
  rw [hpath, found, havail, files.jsTs file hfile]
  rfl

theorem directoryLoop_eq_scanFiles_one :
    directoryLoop (⟨true, fun _ rel => [⟨"", rel⟩], fun _ => true⟩ : World String) ["/", "app"] ["/", "app"]
        [["/", "app", "a.js"]] 1 [] =
      scanFiles ⟨true, fun _ rel => [⟨"", rel⟩], fun _ => true⟩ [["/", "app", "a.js"]] ["/", "app"] :=
  directoryLoop_eq_scanFiles _ rfl ⟨[["/", "app", "a.js"]], by decide⟩ _ rfl

/-! ## Bisection -/

variable (child : Behaviour)

structure Accounts (base : Path) (files : List Path) (s : Session) (r : List (Finding β) × Session)
    (verdicts : List (Path × Bool)) : Prop where
  files : verdicts.map Prod.fst = files
  kept : r.1.map Finding.fields =
    (verdicts.filter (·.2)).flatMap fun v => (found w base v.1).map Finding.fields
  dropped : r.2.dropped = s.dropped ++ (verdicts.filter (!·.2)).map (·.1.str)
  alone : ∀ v ∈ verdicts, v.2 = false → ∃ outcome, ([v.1], outcome) ∈ r.2.log ∧ outcome.failed = true
  log : s.log <+: r.2.log

theorem Accounts.append {base : Path} {files₁ files₂ : List Path} {s : Session}
    {r₁ r₂ : List (Finding β) × Session} {v₁ v₂ : List (Path × Bool)}
    (h₁ : Accounts w base files₁ s r₁ v₁) (h₂ : Accounts w base files₂ r₁.2 r₂ v₂) :
    Accounts w base (files₁ ++ files₂) s (r₁.1 ++ r₂.1, r₂.2) (v₁ ++ v₂) where
  files := by rw [List.map_append, h₁.files, h₂.files]
  kept := by rw [List.map_append, h₁.kept, h₂.kept, List.filter_append, List.flatMap_append]
  dropped := by rw [h₂.dropped, h₁.dropped, List.filter_append, List.map_append, List.append_assoc]
  alone := by
    intro v hv hfalse
    rcases List.mem_append.mp hv with hv | hv
    · obtain ⟨outcome, hmem, hfailed⟩ := h₁.alone v hv hfalse
      exact ⟨outcome, h₂.log.subset hmem, hfailed⟩
    · exact h₂.alone v hv hfalse
  log := h₁.log.trans h₂.log

def Session.spawn (s : Session) (files : List Path) : Session :=
  { s with log := s.log ++ [(files, child s.log files)] }

theorem scanBatchInChild_eq (files : List Path) (base : Path) (s : Session) :
    scanBatchInChild w child files base s =
      (if (child s.log files).failed then none else some (scanFiles w files base),
        s.spawn child files) := by
  rw [scanBatchInChild]
  cases hfailed : (child s.log files).failed with
  | true => simp [Session.spawn]
  | false => simp [Session.spawn]

theorem scanFilesIsolated_nil (base : Path) (s : Session) :
    scanFilesIsolated w child [] base s = ([], s) := by
  rw [scanFilesIsolated]
  rfl

theorem scanFilesIsolated_answered {files : List Path} (hne : files ≠ []) (base : Path) {s : Session}
    (h : (child s.log files).failed = false) :
    scanFilesIsolated w child files base s = (scanFiles w files base, s.spawn child files) := by
  rw [scanFilesIsolated, dif_neg hne, scanBatchInChild_eq, h]
  rfl

theorem scanFilesIsolated_alone (file base : Path) {s : Session}
    (h : (child s.log [file]).failed = true) :
    scanFilesIsolated w child [file] base s =
      ([], { s.spawn child [file] with dropped := s.dropped ++ [file.str] }) := by
  rw [scanFilesIsolated, dif_neg (List.cons_ne_nil file []), scanBatchInChild_eq, h]
  rfl

theorem scanFilesIsolated_halves {files : List Path} (hlen : 2 ≤ files.length) (base : Path)
    {s : Session} (h : (child s.log files).failed = true) :
    let left := scanFilesIsolated w child (files.take (files.length / 2)) base (s.spawn child files)
    let right := scanFilesIsolated w child (files.drop (files.length / 2)) base left.2
    scanFilesIsolated w child files base s = (left.1 ++ right.1, right.2) := by
  intro left right
  have hne : files ≠ [] := by
    intro hnil
    rw [hnil] at hlen
    exact absurd hlen (by decide)
  have hone : files.length ≠ 1 := by omega
  rw [scanFilesIsolated, dif_neg hne, scanBatchInChild_eq, h]
  show (if _ : files.length = 1 then _ else _) = _
  rw [dif_neg hone]

theorem halving {motive : List Path → Session → Prop}
    (nil : ∀ s, motive [] s)
    (answered : ∀ files s, files ≠ [] → (child s.log files).failed = false → motive files s)
    (alone : ∀ file s, (child s.log [file]).failed = true → motive [file] s)
    (halves : ∀ files s, 2 ≤ files.length → (child s.log files).failed = true →
      (∀ s, motive (files.take (files.length / 2)) s) →
      (∀ s, motive (files.drop (files.length / 2)) s) → motive files s)
    (files : List Path) (s : Session) : motive files s := by
  induction hn : files.length using Nat.strongRecOn generalizing files s with
  | ind n ih =>
    cases hfailed : (child s.log files).failed with
    | false =>
      by_cases hnil : files = []
      · rw [hnil]
        exact nil s
      · exact answered files s hnil hfailed
    | true =>
      match files, hn, hfailed with
      | [], _, _ => exact nil s
      | [file], _, hfailed => exact alone file s hfailed
      | file :: next :: rest, hn, hfailed =>
        have hlen : 2 ≤ (file :: next :: rest).length := by simp
        refine halves _ s hlen hfailed (fun s => ?_) (fun s => ?_)
        · refine ih _ ?_ _ s rfl
          rw [List.length_take]
          omega
        · refine ih _ ?_ _ s rfl
          rw [List.length_drop]
          omega

theorem found_of_answered (files : List Path) (base : Path) :
    (scanFiles w files base).map Finding.fields =
      files.flatMap fun f => (found w base f).map Finding.fields := by
  rw [scanFiles_eq, map_fields_number, List.map_flatMap]

theorem exists_accounts (base : Path) (files : List Path) (s : Session) :
    ∃ verdicts, Accounts w base files s (scanFilesIsolated w child files base s) verdicts := by
  induction files, s using halving child with
  | nil s =>
    refine ⟨[], ?_⟩
    rw [scanFilesIsolated_nil]
    exact ⟨rfl, rfl, by simp, by simp, List.prefix_rfl⟩
  | answered files s hne hfailed =>
    refine ⟨files.map (·, true), ?_⟩
    rw [scanFilesIsolated_answered w child hne base hfailed]
    constructor
    · rw [List.map_map]
      exact List.map_id files
    · rw [found_of_answered, List.filter_eq_self.mpr (by simp), List.flatMap_map]
    · have hnone : (files.map (·, true)).filter (fun v => !v.2) = [] := by
        rw [List.filter_eq_nil_iff]
        simp
      rw [hnone, List.map_nil, List.append_nil]
      rfl
    · intro v hv hfalse
      obtain ⟨file, _, rfl⟩ := List.mem_map.mp hv
      cases hfalse
    · exact List.prefix_append _ _
  | alone file s hfailed =>
    refine ⟨[(file, false)], ?_⟩
    rw [scanFilesIsolated_alone w child file base hfailed]
    refine ⟨rfl, rfl, rfl, ?_, List.prefix_append _ _⟩
    intro v hv _
    rw [List.mem_singleton.mp hv]
    exact ⟨_, List.mem_append_right _ (List.mem_singleton_self _), hfailed⟩
  | halves files s hlen hfailed left right =>
    obtain ⟨v₁, h₁⟩ := left (s.spawn child files)
    obtain ⟨v₂, h₂⟩ := right
      (scanFilesIsolated w child (files.take (files.length / 2)) base (s.spawn child files)).2
    have h := h₁.append w h₂
    rw [List.take_append_drop] at h
    refine ⟨v₁ ++ v₂, ?_⟩
    rw [scanFilesIsolated_halves w child hlen base hfailed]
    exact ⟨h.files, h.kept, h.dropped, h.alone, (List.prefix_append _ _).trans h.log⟩

theorem children_le (base : Path) (files : List Path) (s : Session) :
    (scanFilesIsolated w child files base s).2.log.length ≤ s.log.length + (2 * files.length - 1) := by
  have hspawn : ∀ (s : Session) files, (s.spawn child files).log.length = s.log.length + 1 := by
    intro s files
    simp [Session.spawn]
  induction files, s using halving child with
  | nil s => simp [scanFilesIsolated_nil]
  | answered files s hne hfailed =>
    rw [scanFilesIsolated_answered w child hne base hfailed, hspawn]
    have hpos := List.length_pos_of_ne_nil hne
    omega
  | alone file s hfailed =>
    rw [scanFilesIsolated_alone w child file base hfailed]
    show (s.spawn child [file]).log.length ≤ _
    rw [hspawn]
    exact Nat.le_refl _
  | halves files s hlen hfailed left right =>
    rw [scanFilesIsolated_halves w child hlen base hfailed]
    have h₁ := left (s.spawn child files)
    have h₂ := right
      (scanFilesIsolated w child (files.take (files.length / 2)) base (s.spawn child files)).2
    rw [hspawn, List.length_take] at h₁
    rw [List.length_drop] at h₂
    show (scanFilesIsolated w child (files.drop (files.length / 2)) base _).2.log.length ≤ _
    omega

/-! ## Against the direct scan -/

def freshSession (dropped : List String) : Session := { log := [], dropped }

/-- What is said of an isolated scan of discovered files: no file is lost unless a child failed on it
alone, and a scan without failures finds what the direct scan finds. -/
structure LosesOnlyCrashers (files : Discovered) (target base : Path) (dropped : List String) : Prop where
  accounts : ∃ verdicts, Accounts w base files.files (freshSession dropped)
    (scanFilesIsolated w child files.files base (freshSession dropped)) verdicts
  children : (scanFilesIsolated w child files.files base (freshSession dropped)).2.log.length ≤
    2 * files.files.length - 1
  direct : (∀ e ∈ (scanFilesIsolated w child files.files base (freshSession dropped)).2.log,
      e.2.failed = false) →
    runJsTsScan w target (some base) files.files =
      some (scanFilesIsolated w child files.files base (freshSession dropped)).1

theorem runJsTsScan_eq (target base : Path) (files : List Path) :
    runJsTsScan w target (some base) files = if w.available then none else some [] := by
  rw [runJsTsScan, scanDirectory]
  cases w.available with
  | false => rfl
  | true => rfl

theorem scanFilesIsolated_of_unavailable (havail : w.available = false) (base : Path)
    (files : List Path) (s : Session) : (scanFilesIsolated w child files base s).1 = [] := by
  obtain ⟨verdicts, h⟩ := exists_accounts w child base files s
  have hkept := h.kept
  have hnone : (verdicts.filter (·.2)).flatMap (fun v => (found w base v.1).map Finding.fields) = [] := by
    rw [List.flatMap_eq_nil_iff]
    intro v _
    simp [found, havail]
  rw [hnone] at hkept
  exact List.map_eq_nil_iff.mp hkept

theorem first_mem_log {files : List Path} (hne : files ≠ []) (base : Path) (s : Session) :
    (files, child s.log files) ∈ (scanFilesIsolated w child files base s).2.log := by
  have hmem : ∀ s : Session, (files, child s.log files) ∈ (s.spawn child files).log := by
    intro s
    exact List.mem_append_right _ (List.mem_singleton_self _)
  cases hfailed : (child s.log files).failed with
  | false =>
    rw [scanFilesIsolated_answered w child hne base hfailed]
    exact hmem s
  | true =>
    match files, hne with
    | [file], _ =>
      rw [scanFilesIsolated_alone w child file base hfailed]
      exact hmem s
    | file :: next :: rest, _ =>
      have hlen : 2 ≤ (file :: next :: rest).length := by simp
      rw [scanFilesIsolated_halves w child hlen base hfailed]
      obtain ⟨_, h₁⟩ := exists_accounts w child base
        ((file :: next :: rest).take ((file :: next :: rest).length / 2))
        (s.spawn child (file :: next :: rest))
      obtain ⟨_, h₂⟩ := exists_accounts w child base
        ((file :: next :: rest).drop ((file :: next :: rest).length / 2)) _
      exact h₂.log.subset (h₁.log.subset (hmem s))

/-- The isolated scan does what is said of it exactly when the grammars are missing or the child that is
given all the files fails. -/
theorem losesOnlyCrashers_iff (files : Discovered) (target base : Path) (dropped : List String) :
    LosesOnlyCrashers w child files target base dropped ↔
      w.available = false ∨ files.files ≠ [] ∧ (child [] files.files).failed = true := by
  constructor
  · intro h
    by_contra hcond
    obtain ⟨havail, hfirst⟩ := not_or.mp hcond
    have hquiet : ∀ e ∈ (scanFilesIsolated w child files.files base (freshSession dropped)).2.log,
        e.2.failed = false := by
      by_cases hnil : files.files = []
      · rw [hnil, scanFilesIsolated_nil]
        intro e he
        cases he
      · have hok : (child [] files.files).failed = false := by
          rw [← Bool.not_eq_true]
          exact fun hfailed => hfirst ⟨hnil, hfailed⟩
        have hanswered := scanFilesIsolated_answered w child hnil base
          (show (child (freshSession dropped).log files.files).failed = false from hok)
        rw [hanswered]
        intro e he
        rw [List.mem_singleton.mp he]
        exact hok
    have hdirect := h.direct hquiet
    rw [runJsTsScan_eq, if_pos (by simpa using havail)] at hdirect
    cases hdirect
  · intro hcond
    have hchildren := children_le w child base files.files (freshSession dropped)
    rw [show (freshSession dropped).log.length = 0 from rfl, Nat.zero_add] at hchildren
    refine ⟨exists_accounts w child base files.files _, hchildren, ?_⟩
    intro hquiet
    rcases hcond with havail | ⟨hne, hfailed⟩
    · rw [runJsTsScan_eq, scanFilesIsolated_of_unavailable w child havail, havail]
      rfl
    · have hok := hquiet _ (first_mem_log w child hne base (freshSession dropped))
      have hok : (child [] files.files).failed = false := hok
      rw [hfailed] at hok
      cases hok

def oneFile : Discovered where
  files := [["/", "app", "a.js"]]
  jsTs := by decide

/-- One `eval` in one file. -/
def evalWorld : World String where
  available := true
  scanFile _ rel := [{ id := "", fields := rel ++ ": eval" }]
  isDir p := p = ["/", "app"]

/-- The isolated scan reports the finding, the direct scan answers `None`. -/
theorem direct_scan_answers_none :
    (scanFilesIsolated evalWorld (fun _ _ => .exited 0) oneFile.files ["/", "app"] (freshSession [])).1 =
        [{ id := "TimeCodeSecurity-JS-001", fields := "a.js: eval" }] ∧
      runJsTsScan evalWorld ["/", "app"] (some ["/", "app"]) oneFile.files = none := by
  refine ⟨?_, rfl⟩
  rw [scanFilesIsolated_answered evalWorld _ (by decide) _ rfl]
  decide

end TimeCodeSecurity.JsScan
