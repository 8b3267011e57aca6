import TimeCodeSecurity.Ci.TableRows

/-! # The fields of the step summary

What a field of a finding must not hold for its row to stand: each kind of cell is followed from the field to the
row. The details alone are cleaned, of bars and of line feeds, but not of carriage returns.
-/
namespace TimeCodeSecurity.Ci
open BarredRows
set_option autoImplicit false

variable (again : Bool → Bool) (casing : Casing)

/-! ## Code spans and paths -/

theorem contained_between {c : Char} (hbar : c ≠ '|') (hesc : c ≠ '\\') (hone : OneLine [c]) (u v : Text) :
    Contained again (u ++ c :: v) ↔ Contained again u ∧ Contained again v := by
  have hbars := (tableRule again).bars_between hbar hesc u v false
  constructor
  · rintro ⟨hline, hzero⟩
    rw [hbars] at hzero
    rw [oneLine_append, oneLine_cons] at hline
    exact ⟨⟨hline.1, by omega⟩, hline.2.2, by omega⟩
  · rintro ⟨⟨hu, hbu⟩, hv, hbv⟩
    refine ⟨oneLine_append.mpr ⟨hu, oneLine_cons.mpr ⟨hone, hv⟩⟩, ?_⟩
    rw [hbars, hbu, hbv]

theorem contained_nil : Contained again [] := ⟨by decide, rfl⟩

theorem contained_codeSpan (text : Text) : Contained again ('`' :: (text ++ ['`'])) ↔ Contained again text := by
  have hopen := contained_between again (c := '`') (by decide) (by decide) (by decide) [] (text ++ ['`'])
  have hclose := contained_between again (c := '`') (by decide) (by decide) (by decide) text []
  rw [List.nil_append] at hopen
  rw [hopen, hclose]
  exact ⟨fun h => h.2.1, fun h => ⟨contained_nil again, h, contained_nil again⟩⟩

structure PathFits (path : Text) : Prop where
  oneLine : OneLine path
  noBar : '|' ∉ path

theorem mem_normalizePath {c : Char} (hslash : c ≠ '/') (hback : c ≠ '\\') (hdot : c ≠ '.') (path : Text) :
    c ∈ normalizePath path ↔ c ∈ path := by
  have hmap : c ∈ path.map (fun d => if d = '\\' then '/' else d) ↔ c ∈ path := by
    rw [List.mem_map]
    constructor
    · rintro ⟨d, hd, heq⟩
      split at heq
      · exact absurd heq.symm hslash
      · exact heq ▸ hd
    · exact fun h => ⟨c, h, if_neg hback⟩
  rw [normalizePath]
  split
  next rest hnorm =>
    rw [← hmap, hnorm, List.mem_cons, List.mem_cons]
    exact ⟨fun h => .inr (.inr h), fun h => (h.resolve_left hdot).resolve_left hslash⟩
  next => exact hmap

theorem back_not_mem_normalizePath (path : Text) : '\\' ∉ normalizePath path := by
  have hmap : '\\' ∉ path.map (fun d => if d = '\\' then '/' else d) := by
    intro hmem
    obtain ⟨d, -, heq⟩ := List.mem_map.mp hmem
    split at heq
    · cases heq
    next hne => exact hne heq
  rw [normalizePath]
  split
  next rest hnorm =>
    rw [hnorm, List.mem_cons, List.mem_cons, not_or, not_or] at hmap
    exact hmap.2.2
  next => exact hmap

theorem contained_normalizePath (path : Text) : Contained again (normalizePath path) ↔ PathFits path := by
  have hbar : '|' ∈ normalizePath path ↔ '|' ∈ path := mem_normalizePath (by decide) (by decide) (by decide) path
  have hcr : '\r' ∈ normalizePath path ↔ '\r' ∈ path := mem_normalizePath (by decide) (by decide) (by decide) path
  have hlf : '\n' ∈ normalizePath path ↔ '\n' ∈ path := mem_normalizePath (by decide) (by decide) (by decide) path
  have hone : OneLine (normalizePath path) ↔ OneLine path := by rw [OneLine, OneLine, hcr, hlf]
  have hzero : (tableRule again).bars false (normalizePath path) = 0 ↔ '|' ∉ normalizePath path :=
    (tableRule again).bars_eq_zero_iff (back_not_mem_normalizePath path)
  rw [hbar] at hzero
  exact ⟨fun h => ⟨hone.mp h.oneLine, hzero.mp h.noBars⟩, fun h => ⟨hone.mpr h.oneLine, hzero.mpr h.noBar⟩⟩

theorem contained_location (path : Text) : Contained again (location path []) ↔ PathFits path := by
  rw [location, List.append_nil, contained_codeSpan, contained_normalizePath]

theorem contained_location_colon (path line : Text) :
    Contained again (location path (':' :: line)) ↔ PathFits path ∧ Contained again line := by
  rw [location, contained_codeSpan, contained_between again (by decide) (by decide) (by decide),
    contained_normalizePath]

def LineFits (line : Field Number) : Prop := ∀ s, line = .value (.text s) → Contained again s

theorem contained_decimalText (n : ℤ) : Contained again (decimalText n) := by
  have hplain : ∀ c ∈ decimalText n, c = '-' ∨ c.isDigit = true := by
    intro c hc
    cases n with
    | ofNat n => exact .inr (Nat.isDigit_of_mem_toDigits (by omega) (by omega) hc)
    | negSucc n =>
      rcases List.mem_cons.mp hc with rfl | hc
      · exact .inl rfl
      · exact .inr (Nat.isDigit_of_mem_toDigits (by omega) (by omega) hc)
  have hfree : ∀ c, c ≠ '-' → c.isDigit = false → c ∉ decimalText n := by
    intro c hdash hdigit hmem
    rcases hplain c hmem with h | h
    · exact hdash h
    · rw [hdigit] at h
      cases h
  have hbar : '|' ∉ decimalText n := hfree _ (by decide) (by decide)
  exact ⟨⟨hfree _ (by decide) (by decide), hfree _ (by decide) (by decide)⟩,
    (tableRule again).bars_of_not_mem hbar false⟩

theorem contained_lineText (f : Finding) : Contained again f.lineText ↔ LineFits again f.lineNumber := by
  rw [Finding.lineText, LineFits]
  cases f.lineNumber with
  | missing => exact iff_of_true (contained_nil again) fun s h => nomatch h
  | null => exact iff_of_true ⟨by decide, rfl⟩ fun s h => nomatch h
  | value n =>
    cases n with
    | int n => exact iff_of_true (contained_decimalText again n) fun s h => nomatch h
    | text s => exact ⟨fun h t heq => by cases heq; exact h, fun h => h s rfl⟩

theorem contained_location_lineStr (path : Text) (line : Field Number) :
    Contained again (location path (lineStr line)) ↔ PathFits path ∧ LineFits again line := by
  rw [LineFits]
  cases line with
  | missing =>
    rw [show lineStr .missing = [] from rfl, contained_location]
    exact ⟨fun h => ⟨h, fun s h => nomatch h⟩, fun h => h.1⟩
  | null =>
    rw [show lineStr .null = [] from rfl, contained_location]
    exact ⟨fun h => ⟨h, fun s h => nomatch h⟩, fun h => h.1⟩
  | value n =>
    rw [show lineStr (.value n) = if n.truthy then ':' :: n.str else [] from rfl]
    by_cases htruthy : n.truthy = true
    · rw [if_pos htruthy, contained_location_colon]
      cases n with
      | int n =>
        have hdigits : Contained again (Number.int n).str := contained_decimalText again n
        exact and_congr_right fun _ => iff_of_true hdigits fun s h => nomatch h
      | text s => exact and_congr_right fun _ => ⟨fun h t heq => by cases heq; exact h, fun h => h s rfl⟩
    · rw [if_neg htruthy, contained_location]
      refine ⟨fun h => ⟨h, fun s heq => ?_⟩, fun h => h.1⟩
      obtain rfl : s = [] := by
        cases heq
        simpa [Number.truthy] using htruthy
      exact contained_nil again

/-! ## Details -/

structure DetailFits (detail : Text) : Prop where
  noReturn : '\r' ∉ Pep440.strip detail
  noSlip : (tableRule again).slips false detail = false

theorem isSpace_cleanChar {c : Char} (h : Pep440.isSpace c = true) : ∀ d ∈ cleanChar c, Pep440.isSpace d = true := by
  intro d hd
  rw [cleanChar] at hd
  split at hd
  next hbar =>
    rw [hbar] at h
    exact absurd h (by decide)
  next =>
    split at hd
    · obtain rfl : d = ' ' := by simpa using hd
      decide
    · rw [List.mem_singleton.mp hd]
      exact h

theorem cleanChar_ends {c : Char} (h : Pep440.isSpace c = false) :
    (∀ d ∈ (cleanChar c).head?, Pep440.isSpace d = false) ∧
      ∀ d ∈ (cleanChar c).getLast?, Pep440.isSpace d = false := by
  rw [cleanChar]
  split
  · exact ⟨fun d hd => Option.some.inj hd ▸ rfl, fun d hd => Option.some.inj hd ▸ rfl⟩
  · split
    next hlf =>
      rw [hlf] at h
      exact absurd h (by decide)
    next => exact ⟨fun d hd => Option.some.inj hd ▸ h, fun d hd => Option.some.inj hd ▸ h⟩

theorem cleanChar_ne_nil (c : Char) : cleanChar c ≠ [] := by
  rw [cleanChar]
  split
  · decide
  · split
    · decide
    · exact List.cons_ne_nil _ _

theorem strip_clean (detail : Text) :
    Pep440.strip (detail.flatMap cleanChar) = (Pep440.strip detail).flatMap cleanChar := by
  obtain ⟨u, w, hdetail, hu, hw⟩ := Trimming.exists_trim (p := Pep440.isSpace) detail
  have hspaces : ∀ text : Text, (∀ c ∈ text, Pep440.isSpace c = true) →
      ∀ d ∈ text.flatMap cleanChar, Pep440.isSpace d = true := by
    intro text htext d hd
    obtain ⟨c, hc, hd⟩ := List.mem_flatMap.mp hd
    exact isSpace_cleanChar (htext c hc) d hd
  show Trimming.trim Pep440.isSpace (detail.flatMap cleanChar) =
    (Trimming.trim Pep440.isSpace detail).flatMap cleanChar
  conv_lhs => rw [hdetail, List.flatMap_append, List.flatMap_append]
  rw [Trimming.trim_append_right (hspaces w hw), Trimming.trim_append_left (hspaces u hu)]
  refine Trimming.trim_of_ends (fun d hd => ?_) fun d hd => ?_
  · cases htrim : Trimming.trim Pep440.isSpace detail with
    | nil =>
      rw [htrim] at hd
      cases hd
    | cons c cs =>
      rw [htrim, List.flatMap_cons, List.head?_append_of_ne_nil _ (cleanChar_ne_nil c)] at hd
      exact (cleanChar_ends (Trimming.head_trim htrim)).1 d hd
  · by_cases hnil : Trimming.trim Pep440.isSpace detail = []
    · rw [hnil] at hd
      cases hd
    · rw [← List.dropLast_append_getLast hnil, List.flatMap_append, List.flatMap_singleton,
        List.getLast?_append_of_ne_nil _ (cleanChar_ne_nil _)] at hd
      exact (cleanChar_ends (Trimming.getLast_trim hnil)).2 d hd

theorem oneLine_clean (text : Text) : OneLine (text.flatMap cleanChar) ↔ '\r' ∉ text := by
  have hcr : ∀ c, '\r' ∈ cleanChar c ↔ c = '\r' := by
    intro c
    rw [cleanChar]
    split
    next h => simp [h]
    next =>
      split
      next h => simp [h]
      next => simp [eq_comm]
  have hlf : ∀ c, '\n' ∉ cleanChar c := by
    intro c
    rw [cleanChar]
    split
    · decide
    · split
      · decide
      next h => simpa [eq_comm] using h
  simp only [OneLine, List.mem_flatMap, hcr, not_exists, not_and]
  constructor
  · exact fun h hmem => h.1 '\r' hmem rfl
  · exact fun h => ⟨fun c hc heq => h (heq ▸ hc), fun c _ => hlf c⟩

theorem bars_strip (text : Text) :
    (tableRule again).bars false (Pep440.strip text) = (tableRule again).bars false text := by
  obtain ⟨u, w, htext, hu, hw⟩ := Trimming.exists_trim (p := Pep440.isSpace) text
  have hplain : ∀ c, Pep440.isSpace c = true → c ≠ '|' ∧ c ≠ '\\' := by
    intro c hc
    constructor <;> rintro rfl <;> exact absurd hc (by decide)
  have hbar : '|' ∉ w := fun hmem => (hplain _ (hw _ hmem)).1 rfl
  have hsplit := (tableRule again).bars_append_of_not_mem hbar (u ++ Trimming.trim Pep440.isSpace text) false
  have hlead := (tableRule again).bars_plain_append (fun c hc => hplain c (hu c hc))
    (Trimming.trim Pep440.isSpace text)
  rw [← htext, hlead] at hsplit
  exact hsplit.symm

theorem cleanChar_other {c : Char} (hbar : c ≠ '|') (hesc : c ≠ '\\') :
    ∃ d, cleanChar c = [d] ∧ d ≠ '|' ∧ d ≠ '\\' := by
  rw [cleanChar, if_neg hbar]
  split
  · exact ⟨' ', rfl, by decide, by decide⟩
  · exact ⟨c, rfl, hbar, hesc⟩

theorem contained_cleanDetail (detail : Text) : Contained again (cleanDetail detail) ↔ DetailFits again detail := by
  have hslip := (tableRule again).bars_flatMap_eq_zero rfl rfl (fun _ => cleanChar_other) detail
    false
  have hone : OneLine (cleanDetail detail) ↔ '\r' ∉ Pep440.strip detail := by
    rw [cleanDetail, strip_clean, oneLine_clean]
  have hbars : (tableRule again).bars false (cleanDetail detail) = 0 ↔
      (tableRule again).slips false detail = false := by
    rw [cleanDetail, bars_strip, hslip]
  exact ⟨fun h => ⟨hone.mp h.oneLine, hbars.mp h.noBars⟩, fun h => ⟨hone.mpr h.noReturn, hbars.mpr h.noSlip⟩⟩

/-- The printed fields of the finding stay in their cells. -/
structure Finding.Fits (f : Finding) : Prop where
  cwe : Contained again f.cweText
  severity : Contained again (f.sevText casing)
  file : PathFits (f.file.orText [])
  line : LineFits again f.lineNumber
  detail : DetailFits again f.detail

structure ScaFinding.Fits (f : ScaFinding) : Prop where
  package : Contained again (f.packageName.orText "-".toList)
  vulnerability : Contained again (f.vulnerabilityId.orText "-".toList)
  severity : Contained again (f.sevText casing)
  status : Contained again (f.statusText casing)
  fixed : Contained again (f.fixedVersion.orText "-".toList)
  manifest : PathFits (f.manifestSource.orText [])
  line : LineFits again f.lineNumber

structure SecretFinding.Fits (f : SecretFinding) : Prop where
  label : Contained again (f.label casing)
  masked : Contained again f.maskedText
  file : PathFits (f.file.orText [])
  line : LineFits again f.lineNumber
  confidence : Contained again (f.confText casing)
  detector : Contained again (f.detector.orText f.secType)

theorem Finding.fits_iff (f : Finding) : (∀ cell ∈ f.cells casing, Contained again cell) ↔ f.Fits again casing := by
  simp only [Finding.cells, List.forall_mem_cons, contained_location_colon, contained_lineText, contained_cleanDetail]
  constructor
  · rintro ⟨hcwe, hsev, ⟨hfile, hline⟩, hdetail, -⟩
    exact ⟨hcwe, hsev, hfile, hline, hdetail⟩
  · rintro ⟨hcwe, hsev, hfile, hline, hdetail⟩
    exact ⟨hcwe, hsev, ⟨hfile, hline⟩, hdetail, fun cell h => nomatch h⟩

theorem ScaFinding.fits_iff (f : ScaFinding) :
    (∀ cell ∈ f.cells casing, Contained again cell) ↔ f.Fits again casing := by
  simp only [ScaFinding.cells, List.forall_mem_cons, contained_location_lineStr]
  constructor
  · rintro ⟨hpackage, hvulnerability, hsev, hstatus, hfixed, ⟨hmanifest, hline⟩, -⟩
    exact ⟨hpackage, hvulnerability, hsev, hstatus, hfixed, hmanifest, hline⟩
  · rintro ⟨hpackage, hvulnerability, hsev, hstatus, hfixed, hmanifest, hline⟩
    exact ⟨hpackage, hvulnerability, hsev, hstatus, hfixed, ⟨hmanifest, hline⟩, fun cell h => nomatch h⟩

theorem SecretFinding.fits_iff (f : SecretFinding) :
    (∀ cell ∈ f.cells casing, Contained again cell) ↔ f.Fits again casing := by
  simp only [SecretFinding.cells, List.forall_mem_cons, contained_location_lineStr, contained_codeSpan]
  constructor
  · rintro ⟨hlabel, hmasked, ⟨hfile, hline⟩, hconf, hdetector, -⟩
    exact ⟨hlabel, hmasked, hfile, hline, hconf, hdetector⟩
  · rintro ⟨hlabel, hmasked, hfile, hline, hconf, hdetector⟩
    exact ⟨hlabel, hmasked, ⟨hfile, hline⟩, hconf, hdetector, fun cell h => nomatch h⟩

/-! ## Scans -/

/-- `int` takes the numbers the tables are sorted by. -/
structure ScanResult.Sortable (scan : ScanResult) : Prop where
  sast : ∀ f ∈ scan.activeSast, (intOrZero f.lineNumber).isSome ∧ (intOrZero f.columnStart).isSome
  sca : ∀ f ∈ scan.sca, (intOrZero f.lineNumber).isSome
  secrets : ∀ f ∈ scan.secrets, (intOrZero f.lineNumber).isSome ∧ (intOrZero f.columnStart).isSome

theorem Finding.summaryKey_isSome (f : Finding) :
    f.summaryKey.isSome ↔ (intOrZero f.lineNumber).isSome ∧ (intOrZero f.columnStart).isSome := by
  rw [Finding.summaryKey]
  cases intOrZero f.lineNumber <;> cases intOrZero f.columnStart <;> simp

theorem ScaFinding.summaryKey_isSome (f : ScaFinding) : f.summaryKey.isSome ↔ (intOrZero f.lineNumber).isSome := by
  rw [ScaFinding.summaryKey]
  cases intOrZero f.lineNumber <;> simp

theorem SecretFinding.summaryKey_isSome (f : SecretFinding) :
    f.summaryKey.isSome ↔ (intOrZero f.lineNumber).isSome ∧ (intOrZero f.columnStart).isSome := by
  rw [SecretFinding.summaryKey]
  cases intOrZero f.lineNumber <;> cases intOrZero f.columnStart <;> simp

variable {again casing} {scan : ScanResult}

theorem generateStepSummary_eq_some {doc : Text} (h : generateStepSummary casing scan = some doc) :
    ∃ sast sca secrets, sast.Perm scan.activeSast ∧ sca.Perm scan.sca ∧ secrets.Perm scan.secrets ∧
      doc = written casing scan sast sca secrets := by
  simp only [generateStepSummary, Option.bind_eq_bind, Option.bind_eq_some_iff] at h
  obtain ⟨sast, hsast, sca, hsca, secrets, hsecrets, hdoc⟩ := h
  exact ⟨sast, sca, secrets, sortedBy_perm hsast, sortedBy_perm hsca, sortedBy_perm hsecrets,
    (Option.some.inj hdoc).symm⟩

theorem generateStepSummary_isSome : (generateStepSummary casing scan).isSome ↔ scan.Sortable := by
  have hsast : (sortedBy Finding.summaryKey scan.activeSast).isSome ↔
      ∀ f ∈ scan.activeSast, (intOrZero f.lineNumber).isSome ∧ (intOrZero f.columnStart).isSome := by
    simp only [sortedBy_isSome, Finding.summaryKey_isSome]
  have hsca : (sortedBy ScaFinding.summaryKey scan.sca).isSome ↔
      ∀ f ∈ scan.sca, (intOrZero f.lineNumber).isSome := by
    simp only [sortedBy_isSome, ScaFinding.summaryKey_isSome]
  have hsecrets : (sortedBy SecretFinding.summaryKey scan.secrets).isSome ↔
      ∀ f ∈ scan.secrets, (intOrZero f.lineNumber).isSome ∧ (intOrZero f.columnStart).isSome := by
    simp only [sortedBy_isSome, SecretFinding.summaryKey_isSome]
  have hall : (generateStepSummary casing scan).isSome ↔ (sortedBy Finding.summaryKey scan.activeSast).isSome ∧
      (sortedBy ScaFinding.summaryKey scan.sca).isSome ∧
        (sortedBy SecretFinding.summaryKey scan.secrets).isSome := by
    rw [generateStepSummary]
    cases sortedBy Finding.summaryKey scan.activeSast <;> cases sortedBy ScaFinding.summaryKey scan.sca <;>
      cases sortedBy SecretFinding.summaryKey scan.secrets <;> simp
  rw [hall, hsast, hsca, hsecrets]
  exact ⟨fun h => ⟨h.1, h.2.1, h.2.2⟩, fun h => ⟨h.sast, h.sca, h.secrets⟩⟩

theorem fits_of_tabulated {doc : Text} (h : generateStepSummary casing scan = some doc)
    (htable : Tabulated again casing scan doc) :
    (∀ f ∈ scan.activeSast, f.Fits again casing) ∧ (∀ f ∈ scan.sca, f.Fits again casing) ∧
      ∀ f ∈ scan.secrets, f.Fits again casing := by
  obtain ⟨sast, sca, secrets, hsast, hsca, hsecrets, rfl⟩ := generateStepSummary_eq_some h
  obtain ⟨h1, h2, h3⟩ := contained_of_tabulated again hsast hsca hsecrets htable
  exact ⟨fun f hf => (f.fits_iff again casing).mp (h1 f (hsast.mem_iff.mpr hf)),
    fun f hf => (f.fits_iff again casing).mp (h2 f (hsca.mem_iff.mpr hf)),
    fun f hf => (f.fits_iff again casing).mp (h3 f (hsecrets.mem_iff.mpr hf))⟩

/-- Every active finding has its one row, with its fields in their cells, exactly when no printed field holds a line
end or a bar that is not escaped. -/
theorem rows_stand_iff (again : Bool → Bool) (casing : Casing) (scan : ScanResult) :
    (∃ doc, generateStepSummary casing scan = some doc ∧ Tabulated again casing scan doc) ↔
      scan.Sortable ∧ (∀ f ∈ scan.activeSast, f.Fits again casing) ∧ (∀ f ∈ scan.sca, f.Fits again casing) ∧
        ∀ f ∈ scan.secrets, f.Fits again casing := by
  constructor
  · rintro ⟨doc, hdoc, htable⟩
    have hsome : (generateStepSummary casing scan).isSome := by
      rw [hdoc]
      rfl
    exact ⟨generateStepSummary_isSome.mp hsome, fits_of_tabulated hdoc htable⟩
  · rintro ⟨hsortable, h1, h2, h3⟩
    obtain ⟨doc, hdoc⟩ := Option.isSome_iff_exists.mp (generateStepSummary_isSome.mpr hsortable)
    obtain ⟨sast, sca, secrets, hsast, hsca, hsecrets, rfl⟩ := generateStepSummary_eq_some hdoc
    refine ⟨_, hdoc, tabulated_of_contained again hsast hsca hsecrets (fun f hf => ?_) (fun f hf => ?_)
      fun f hf => ?_⟩
    · exact (f.fits_iff again casing).mpr (h1 f (hsast.mem_iff.mp hf))
    · exact (f.fits_iff again casing).mpr (h2 f (hsca.mem_iff.mp hf))
    · exact (f.fits_iff again casing).mpr (h3 f (hsecrets.mem_iff.mp hf))

def asciiCasing : Casing where
  upper := List.map Char.toUpper
  title := Sarif.titleChars false

def barredPackage : ScaFinding where
  packageName := .value ['a', '|', 'b']
  vulnerabilityId := .value ['V']
  status := .missing
  severity := .missing
  manifestSource := .value ['r']
  lineNumber := .value (.int 3)
  installedVersion := .missing
  requestedSpecifier := .missing
  fixedVersion := .missing
  summary := .missing

def barredScan : ScanResult where
  syntaxErrors := []
  findings := []
  scaFindings := some [barredPackage]
  secretFindings := none

/-- The package makes a cell of its own, whichever backslashes escape. -/
theorem package_leaves_cell : ¬ ∃ again doc, generateStepSummary asciiCasing barredScan = some doc ∧
    Tabulated again asciiCasing barredScan doc := by
  rintro ⟨again, doc, hdoc, htable⟩
  have hfits := (fits_of_tabulated hdoc htable).2.1 barredPackage (List.mem_singleton.mpr rfl)
  have hbars : (tableRule again).bars false ['a', '|', 'b'] = 1 := rfl
  have hzero := hfits.package.noBars
  rw [show barredPackage.packageName.orText "-".toList = ['a', '|', 'b'] from rfl, hbars] at hzero
  cases hzero

end TimeCodeSecurity.Ci
