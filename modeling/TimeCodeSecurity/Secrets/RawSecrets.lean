import TimeCodeSecurity.Secrets.Contexts

/-! # Raw secrets in contexts

A context masks the surviving matches of its line, or the value of one assignment, and nothing else: the rest
of a dropped match, and the literal of an assignment beside a match, stand in it as they are.
-/
namespace TimeCodeSecurity.Secrets
set_option autoImplicit false

section
variable (H : Host) (text : List Char) (filename : String)

def IsCredential (a : Assignment) (v : List Char) : Prop :=
  a.credential H = some v ∧ ∃ name ∈ a.names, namesCredential H v name = true

def IsSensitive (n p : ℕ) : Prop :=
  (∃ c ∈ lineMatches H text filename n, c.start ≤ p ∧ p < c.stop) ∨
    ∃ a ∈ (H.assignments text).getD [], ∃ v, IsCredential H a v ∧
      ∃ m, (n, m) ∈ a.literal ∧ m.start ≤ p ∧ p < m.stop

def IsSecret (n : ℕ) (s : List Char) : Prop :=
  (∃ c ∈ lineMatches H text filename n, s = slice (lineAt text n) c.start c.stop) ∨
    ∃ a ∈ (H.assignments text).getD [], IsCredential H a s ∧ ∃ m, (n, m) ∈ a.literal

structure HidesSecrets (f : SecretFinding) : Prop where
  replaced : ∀ p, IsSensitive H text filename f.lineNumber p → Stands f.context p
  unseen : ∀ s, IsSecret H text filename f.lineNumber s → 8 < s.length →
    ¬ s <:+: contextText f.context ∧ ¬ s <:+: f.maskedValue

def NoRawSecret : Prop := ∀ f ∈ scanText H text filename, HidesSecrets H text filename f

def IsScanned (n : ℕ) : Prop :=
  0 < n ∧ n ≤ (textLines text).length ∧ (lineAt text n).length ≤ maxLineLength

def kept (n : ℕ) : List Candidate := survivors (lineMatches H text filename n)

def IsTaken (n : ℕ) : Prop := IsScanned text n ∧ ∃ c ∈ kept H text filename n, c.detector ≠ hardcoded

def IsReported (a : Assignment) (v : List Char) : Prop :=
  text ≠ [] ∧ endsWithAny filename configSuffixes = false ∧ a ∈ (H.assignments text).getD [] ∧
    IsCredential H a v ∧ ¬ IsTaken H text filename a.line

/-- In a line with a match, each sensitive character lies in a match that survives; in the line of a reported
value it lies in an occurrence of the value. -/
structure Covered : Prop where
  matched : ∀ n, IsScanned text n → kept H text filename n ≠ [] → ∀ p, IsSensitive H text filename n p →
    ∃ c ∈ kept H text filename n, c.start ≤ p ∧ p < c.stop
  assigned : ∀ a v, IsReported H text filename a v → ∀ p, IsSensitive H text filename a.line p →
    Stands (maskValueFrom v 0 (lineAt text a.line)) p

/-- No long secret can be laid over such a line so that each of its characters is read; nor, where it has an
asterisk of its own, over the mask of the reported value. -/
structure Interrupted : Prop where
  matched : ∀ n, IsScanned text n → kept H text filename n ≠ [] → ∀ s, IsSecret H text filename n s →
    8 < s.length → ¬ ReadIn s (contextSegs (maskLine (lineAt text n) (kept H text filename n)))
  assigned : ∀ a v, IsReported H text filename a v → ∀ s, IsSecret H text filename a.line s →
    8 < s.length → ¬ ReadIn s (contextSegs (maskValueFrom v 0 (lineAt text a.line)))
  mask : ∀ a v, IsReported H text filename a v → ∀ s, IsSecret H text filename a.line s →
    8 < s.length → '*' ∈ s → ¬ ReadIn s (maskSegs v)

variable {H text filename}

theorem fits_lineMatches {n : ℕ} {c : Candidate} (hc : c ∈ lineMatches H text filename n) :
    c.Fits (lineAt text n) :=
  fits_candidates hc

theorem mem_regexFindings {f : SecretFinding} (h : f ∈ regexFindings H text filename) :
    IsScanned text f.lineNumber ∧ ∃ c ∈ kept H text filename f.lineNumber,
      f.detector = c.detector ∧ f.maskedValue = c.maskedValue ∧
        f.context = maskLine (lineAt text f.lineNumber) (kept H text filename f.lineNumber) := by
  obtain ⟨i, hi, hf⟩ := List.mem_flatMap.mp h
  have hi := List.mem_range.mp hi
  rw [lineFindings] at hf
  split_ifs at hf with hlong
  · cases hf
  · obtain ⟨c, hc, rfl⟩ := List.mem_map.mp hf
    exact ⟨⟨Nat.succ_pos i, hi, Nat.not_lt.mp hlong⟩, c, hc, rfl, rfl, rfl⟩

theorem exists_regexFinding {n : ℕ} (hscanned : IsScanned text n) {c : Candidate}
    (hc : c ∈ kept H text filename n) :
    ∃ f ∈ regexFindings H text filename, f.lineNumber = n ∧ f.detector = c.detector ∧
      f.context = maskLine (lineAt text n) (kept H text filename n) := by
  obtain ⟨hpos, hle, hshort⟩ := hscanned
  have hn : n - 1 + 1 = n := Nat.sub_add_cancel hpos
  refine ⟨matchFinding (lineAt text n) filename n (kept H text filename n) c,
    List.mem_flatMap.mpr ⟨n - 1, List.mem_range.mpr (by omega), ?_⟩, rfl, rfl, rfl⟩
  rw [hn, lineFindings, if_neg (Nat.not_lt.mpr hshort)]
  exact List.mem_map.mpr ⟨c, hc, rfl⟩

theorem isBlocked_iff (n : ℕ) :
    isBlocked (regexFindings H text filename) n = true ↔ IsTaken H text filename n := by
  rw [isBlocked, List.any_eq_true]
  constructor
  · intro ⟨f, hf, htest⟩
    rw [Bool.and_eq_true, decide_eq_true_iff, decide_eq_true_iff] at htest
    obtain ⟨hscanned, c, hc, hdetector, _⟩ := mem_regexFindings hf
    rw [htest.1] at hscanned hc
    exact ⟨hscanned, c, hc, hdetector ▸ htest.2⟩
  · intro ⟨hscanned, c, hc, hdetector⟩
    obtain ⟨f, hf, hline, hname, _⟩ := exists_regexFinding hscanned hc
    refine ⟨f, hf, ?_⟩
    rw [hline, hname]
    simp [hdetector]

theorem mem_astFindings {f : SecretFinding} (htext : text ≠ []) (h : f ∈ astFindings H text filename) :
    ∃ a v, IsReported H text filename a v ∧ f.lineNumber = a.line ∧ f.maskedValue = maskSecret v ∧
      f.context = maskValueFrom v 0 (lineAt text a.line) := by
  rw [astFindings] at h
  split_ifs at h with hconfig
  · cases h
  · obtain ⟨a, ha, hf⟩ := List.mem_flatMap.mp h
    rw [assignmentFindings] at hf
    cases hv : a.credential H with
    | none =>
      rw [hv] at hf
      cases hf
    | some v =>
      rw [hv] at hf
      obtain ⟨name, hname, rfl⟩ := List.mem_map.mp hf
      obtain ⟨hname, htest⟩ := List.mem_filter.mp hname
      rw [Bool.and_eq_true, Bool.not_eq_true'] at htest
      have htaken : ¬ IsTaken H text filename a.line := by
        rw [← isBlocked_iff, htest.2]
        exact Bool.false_ne_true
      exact ⟨a, v, ⟨htext, Bool.eq_false_iff.mpr hconfig, ha, ⟨hv, name, hname, htest.1⟩, htaken⟩, rfl, rfl, rfl⟩

theorem exists_astFinding {a : Assignment} {v : List Char} (h : IsReported H text filename a v) :
    ∃ f ∈ astFindings H text filename, f.lineNumber = a.line ∧ f.maskedValue = maskSecret v ∧
      f.context = maskValueFrom v 0 (lineAt text a.line) := by
  obtain ⟨_, hconfig, ha, ⟨hv, name, hname, htest⟩, htaken⟩ := h
  have hblocked : isBlocked (regexFindings H text filename) a.line = false := by
    rw [Bool.eq_false_iff, Ne, isBlocked_iff]
    exact htaken
  rw [astFindings, if_neg (by rw [hconfig]; exact Bool.false_ne_true)]
  refine ⟨valueFinding text filename a v, List.mem_flatMap.mpr ⟨a, ha, ?_⟩, rfl, rfl, rfl⟩
  rw [assignmentFindings, hv]
  exact List.mem_map.mpr ⟨name, List.mem_filter.mpr ⟨hname, by rw [htest, hblocked]; rfl⟩, rfl⟩

theorem mem_scanText {f : SecretFinding} :
    f ∈ scanText H text filename ↔
      text ≠ [] ∧ (f ∈ regexFindings H text filename ∨ f ∈ astFindings H text filename) := by
  rw [scanText]
  split_ifs with h
  · exact iff_of_false List.not_mem_nil fun hf => hf.1 h
  · rw [List.mem_insertionSort, List.mem_append]
    exact ⟨fun hf => ⟨h, hf⟩, fun hf => hf.2⟩

theorem IsScanned.text_ne_nil {n : ℕ} (h : IsScanned text n) : text ≠ [] := by
  intro hnil
  obtain ⟨hpos, hle, _⟩ := h
  rw [hnil] at hle
  have hzero : (textLines []).length = 0 := rfl
  omega

theorem NoRawSecret.exists_regex (h : NoRawSecret H text filename) {n : ℕ} (hscanned : IsScanned text n)
    (hkept : kept H text filename n ≠ []) :
    ∃ f, HidesSecrets H text filename f ∧ f.lineNumber = n ∧
      f.context = maskLine (lineAt text n) (kept H text filename n) := by
  obtain ⟨c, hc⟩ := List.exists_mem_of_ne_nil _ hkept
  obtain ⟨f, hf, hline, _, hcontext⟩ := exists_regexFinding hscanned hc
  exact ⟨f, h f (mem_scanText.mpr ⟨hscanned.text_ne_nil, .inl hf⟩), hline, hcontext⟩

theorem NoRawSecret.exists_ast (h : NoRawSecret H text filename) {a : Assignment} {v : List Char}
    (hreported : IsReported H text filename a v) :
    ∃ f, HidesSecrets H text filename f ∧ f.lineNumber = a.line ∧ f.maskedValue = maskSecret v ∧
      f.context = maskValueFrom v 0 (lineAt text a.line) := by
  obtain ⟨f, hf, hfinding⟩ := exists_astFinding hreported
  exact ⟨f, h f (mem_scanText.mpr ⟨hreported.1, .inr hf⟩), hfinding⟩

theorem covered_of_noRawSecret (h : NoRawSecret H text filename) : Covered H text filename := by
  constructor
  · intro n hscanned hkept p hp
    obtain ⟨f, hhides, rfl, hcontext⟩ := h.exists_regex hscanned hkept
    have hstands := hhides.replaced p hp
    rw [hcontext] at hstands
    exact (stands_maskLine (fun c hc => fits_lineMatches hc) p).mp hstands
  · intro a v hreported p hp
    obtain ⟨f, hhides, hline, _, hcontext⟩ := h.exists_ast hreported
    have hstands := hhides.replaced p (hline ▸ hp)
    rwa [hcontext] at hstands

theorem ne_nil_of_long {s : List Char} (h : 8 < s.length) : s ≠ [] := by
  intro hnil
  rw [hnil] at h
  exact absurd h (Nat.not_lt_zero _)

theorem interrupted_of_noRawSecret (h : NoRawSecret H text filename) : Interrupted H text filename := by
  constructor
  · intro n hscanned hkept s hs hlong hin
    obtain ⟨f, hhides, rfl, hcontext⟩ := h.exists_regex hscanned hkept
    have hunseen := (hhides.unseen s hs hlong).1
    rw [hcontext] at hunseen
    exact hunseen ((readIn_iff s _).mp hin)
  · intro a v hreported s hs hlong hin
    obtain ⟨f, hhides, hline, _, hcontext⟩ := h.exists_ast hreported
    have hunseen := (hhides.unseen s (hline ▸ hs) hlong).1
    rw [hcontext] at hunseen
    exact hunseen ((readIn_iff s _).mp hin)
  · intro a v hreported s hs hlong _ hin
    obtain ⟨f, hhides, hline, hmasked, _⟩ := h.exists_ast hreported
    have hunseen := (hhides.unseen s (hline ▸ hs) hlong).2
    rw [hmasked, ← shownText_maskSegs] at hunseen
    exact hunseen ((readIn_iff s _).mp hin)

theorem noRawSecret_of_covered (hcovered : Covered H text filename)
    (hinterrupted : Interrupted H text filename) : NoRawSecret H text filename := by
  intro f hf
  obtain ⟨htext, hf | hf⟩ := mem_scanText.mp hf
  · obtain ⟨hscanned, c, hc, _, hmasked, hcontext⟩ := mem_regexFindings hf
    have hkept : kept H text filename f.lineNumber ≠ [] := List.ne_nil_of_mem hc
    have hfits : c.Fits (lineAt text f.lineNumber) := fits_lineMatches ((survivors_spec _).2 c hc)
    constructor
    · intro p hp
      rw [hcontext]
      exact (stands_maskLine (fun c hc => fits_lineMatches hc) p).mpr
        (hcovered.matched f.lineNumber hscanned hkept p hp)
    · intro s hs hlong
      have hno := hinterrupted.matched f.lineNumber hscanned hkept s hs hlong
      rw [readIn_iff] at hno
      refine ⟨hcontext ▸ hno, ?_⟩
      -- the masked value is a piece of the context
      have hmem : c ∈ ((kept H text filename f.lineNumber).insertionSort
          fun c c' => c'.start ≤ c.start).reverse :=
        List.mem_reverse.mpr ((List.mem_insertionSort _).mpr hc)
      rw [hmasked, ← hfits.shown]
      exact fun hin => hno (hin.trans (infix_shownText (infix_contextSegs hmem 0)))
  · obtain ⟨a, v, hreported, hline, hmasked, hcontext⟩ := mem_astFindings htext hf
    constructor
    · intro p hp
      rw [hline] at hp
      rw [hcontext]
      exact hcovered.assigned a v hreported p hp
    · intro s hs hlong
      rw [hline] at hs
      have hno := hinterrupted.assigned a v hreported s hs hlong
      rw [readIn_iff] at hno
      refine ⟨hcontext ▸ hno, ?_⟩
      rw [hmasked, ← shownText_maskSegs, ← readIn_iff]
      by_cases hstar : '*' ∈ s
      · exact hinterrupted.mask a v hreported s hs hlong hstar
      · rw [readIn_iff_of_no_star hstar (ne_nil_of_long hlong)]
        exact not_infix_maskSegs hlong v

end

/-- No finding shows a raw secret exactly if each sensitive character of a reported line lies in what is masked,
and no long secret is read in what is shown. -/
theorem noRawSecret_iff (H : Host) (text : List Char) (filename : String) :
    NoRawSecret H text filename ↔ Covered H text filename ∧ Interrupted H text filename :=
  ⟨fun h => ⟨covered_of_noRawSecret h, interrupted_of_noRawSecret h⟩,
    fun h => noRawSecret_of_covered h.1 h.2⟩

/-! ## Two lines -/

def matchIn (line : List Char) (m : Span) (h : m.start < m.stop ∧ m.stop ≤ line.length) : TokenRegex where
  finditer := fun l => if l = line then [m] else []
  inLine := by
    intro l m' hm'
    split_ifs at hm' with hl
    · rw [List.mem_singleton.mp hm', hl]
      exact ⟨h.1.le, h.2⟩
    · cases hm'
  nonempty := by
    intro l m' hm'
    split_ifs at hm' with hl
    · rw [List.mem_singleton.mp hm']
      exact h.1
    · cases hm'

def noMatch : TokenRegex where
  finditer := fun _ => []
  inLine := fun _ _ hm => by cases hm
  nonempty := fun _ _ hm => by cases hm

/-- Only AWS keys and assignments to `password` are looked for. -/
def keyHost (awsAccessKey : TokenRegex) (assignments : List Char → Option (List Assignment)) : Host :=
  { privateKey := noMatch, githubToken := noMatch, slackToken := noMatch, stripeKey := noMatch, awsAccessKey
    slackWebhook := noMatch, dbUri := noMatch, jwtToken := noMatch, gitleaks := []
    docstringLines := fun _ => [], assignments, credVar := fun name => name = "password".toList
    explicitCred := fun _ => false, dummy := fun _ => false, entropyAtLeastThree := fun _ => false
    lower := fun name => name.map Char.toLower }

def keyLine : List Char := "k = 'AKIA11111111111111'".toList

def loneKeyHost : Host := keyHost (matchIn keyLine ⟨5, 23⟩ (by decide +kernel)) fun _ => some []

theorem lineMatches_loneKey {n : ℕ} {c : Candidate} (hc : c ∈ lineMatches loneKeyHost keyLine "app.py" n) :
    lineAt keyLine n = keyLine ∧ c = maskedMatch 5 "aws_access_key" keyLine ⟨5, 23⟩ := by
  have hall : ∀ isDocstring line, candidates loneKeyHost "app.py" isDocstring line =
      maskedMatches 5 "aws_access_key" loneKeyHost.awsAccessKey.toRegex line ++ [] := by
    intro isDocstring line
    rfl
  rw [lineMatches, hall, List.append_nil] at hc
  obtain ⟨m, hm, rfl⟩ := List.mem_map.mp hc
  have hm : m ∈ if lineAt keyLine n = keyLine then [(⟨5, 23⟩ : Span)] else [] := hm
  split_ifs at hm with hline
  · rw [List.mem_singleton.mp hm, hline]
    exact ⟨rfl, rfl⟩
  · cases hm

theorem lone_key_is_hidden : NoRawSecret loneKeyHost keyLine "app.py" := by
  have hone : lineAt keyLine 1 = keyLine := by decide +kernel
  have hnone : ∀ {n c}, c ∈ kept loneKeyHost keyLine "app.py" n → lineAt keyLine n = keyLine := fun hc =>
    (lineMatches_loneKey ((survivors_spec _).2 _ hc)).1
  have hcontext : ∀ {n}, lineAt keyLine n = keyLine → kept loneKeyHost keyLine "app.py" n =
      survivors (candidates loneKeyHost "app.py" false keyLine) := by
    intro n hn
    rw [kept, lineMatches, hn]
    rfl
  have hsecret : ∀ {n s}, IsSecret loneKeyHost keyLine "app.py" n s → s = slice keyLine 5 23 := by
    intro n s hs
    obtain ⟨c, hc, rfl⟩ | ⟨a, ha, _⟩ := hs
    · rw [(lineMatches_loneKey hc).1, (lineMatches_loneKey hc).2]
      rfl
    · cases ha
  refine (noRawSecret_iff loneKeyHost keyLine "app.py").mpr ⟨⟨?_, ?_⟩, ⟨?_, ?_, ?_⟩⟩
  · intro n hscanned hkept p hp
    obtain ⟨c, hc, hin⟩ | ⟨a, ha, _⟩ := hp
    · obtain ⟨hline, rfl⟩ := lineMatches_loneKey hc
      rw [hcontext hline]
      exact ⟨_, by decide +kernel, hin⟩
    · cases ha
  · intro a v hreported
    obtain ⟨_, _, ha, _⟩ := hreported
    cases ha
  · intro n hscanned hkept s hs hlong
    obtain ⟨c, hc⟩ := List.exists_mem_of_ne_nil _ hkept
    rw [readIn_iff, hsecret hs, hnone hc, hcontext (hnone hc)]
    decide +kernel
  · intro a v hreported
    obtain ⟨_, _, ha, _⟩ := hreported
    cases ha
  · intro a v hreported
    obtain ⟨_, _, ha, _⟩ := hreported
    cases ha

def passwordLine : List Char := "password = 'hunter2hunter2'; k = 'AKIA11111111111111'".toList

def passwordAssignment : Assignment :=
  { names := ["password".toList], value := some "hunter2hunter2".toList, line := 1, colOffset := 11
    endColOffset := 27, literal := [(1, ⟨12, 26⟩)] }

def passwordHost : Host :=
  keyHost (matchIn passwordLine ⟨34, 52⟩ (by decide +kernel)) fun text =>
    if text = passwordLine then some [passwordAssignment] else none

/-- The password stands in the context of the finding of the key. -/
theorem password_beside_key_is_shown : ¬ NoRawSecret passwordHost passwordLine "app.py" := by
  intro h
  have hscanned : IsScanned passwordLine 1 := by
    refine ⟨by decide, ?_, ?_⟩
    · decide +kernel
    · decide +kernel
  have hkept : kept passwordHost passwordLine "app.py" 1 ≠ [] := by decide +kernel
  have hsensitive : IsSensitive passwordHost passwordLine "app.py" 1 12 := by
    refine .inr ⟨passwordAssignment, ?_, "hunter2hunter2".toList, ⟨?_, "password".toList, ?_, ?_⟩, ⟨12, 26⟩, ?_,
      by decide, by decide⟩
    · exact List.mem_singleton.mpr rfl
    · rfl
    · exact List.mem_singleton.mpr rfl
    · decide +kernel
    · exact List.mem_singleton.mpr rfl
  obtain ⟨c, hc, hin⟩ := (covered_of_noRawSecret h).matched 1 hscanned hkept 12 hsensitive
  have houtside : ∀ c ∈ kept passwordHost passwordLine "app.py" 1, ¬ (c.start ≤ 12 ∧ 12 < c.stop) := by
    decide +kernel
  exact houtside c hc hin

end TimeCodeSecurity.Secrets
