import TimeCodeSecurity.Orchestrator.TemporaryFile

/-! # Fixes are written as a whole or not at all

Every file is to hold what it held, or the content in which each of its findings is patched and whose
re-scan is clean; through a link nothing is to be written. The link guard looks at a path that has been
resolved, so it never fires, and the write goes through. The temporary sibling is not asked for a free
name either: what stands there is written over, or removed when the write fails.
-/
namespace TimeCodeSecurity.Orchestrator
open FileTree
set_option autoImplicit false

variable {ρ κ σ : Type} (E : Engines ρ κ σ) (files : List (String × Text)) (P : Project)

/-! ## What a patched file is -/

inductive FullyPatched (relFile : String) : List (Finding ρ) → Text → Text → Prop
  | nil (content : Text) : FullyPatched relFile [] content content
  | cons {f : Finding ρ} {fs : List (Finding ρ)} {t u v : Text} {record : RemediationRecord κ}
      (line : Option ℤ) (hrecord : recordOf E files relFile { f with lineNumber := line } t = .ok record)
      (hstatus : record.patchStatus = .success) (hsource : record.patchedSource = some u)
      (hrest : FullyPatched relFile fs u v) : FullyPatched relFile (f :: fs) t v

def RoundtripClean (relFile : String) (content : Text) : Prop :=
  ∃ flaws, E.scanSourceForVerification relFile content = .ok flaws ∧ ∀ f ∈ flaws, f.suppressed = true

def ShowsPatched (relFile : String) (fnds : List (Finding ρ)) (shown : Option View) : Prop :=
  ∃ origContent content crlf inode, files.lookup relFile = some origContent ∧
    FullyPatched E files relFile (sortedBottomUp fnds) origContent content ∧
    RoundtripClean E relFile content ∧
    shown = some (.file inode) ∧ inode.text = some (normalizedContent crlf content)

variable {E files}

theorem FullyPatched.of_shifted {relFile : String} {prev cur : Text} {fs : List (Finding ρ)} {t v : Text}
    (h : FullyPatched E files relFile (fs.map (shifted E prev cur)) t v) :
    FullyPatched E files relFile fs t v := by
  induction fs generalizing t with
  | nil =>
    rw [List.map_nil] at h
    cases h
    exact .nil _
  | cons f fs ih =>
    rw [List.map_cons] at h
    cases h with
    | cons line hrecord hstatus hsource hrest => exact .cons line hrecord hstatus hsource (ih hrest)

theorem accepted_eq_some {r : RemediationRecord κ} {u : Text} (h : r.accepted = some u) :
    r.patchStatus = .success ∧ r.patchedSource = some u := by
  rw [RemediationRecord.accepted] at h
  split at h
  next hr => exact ⟨hr.1, h⟩
  next => cases h

theorem fullyPatched_of_patchFile {relFile : String} {n : ℕ} {fs : List (Finding ρ)} {t : Text}
    {p : Patching κ} (hn : fs.length = n) (h : patchFile E files relFile fs t = .ok p)
    (hsuccess : p.fileSuccess = true) : FullyPatched E files relFile fs t p.content := by
  induction n generalizing fs t p with
  | zero =>
    rw [List.length_eq_zero_iff] at hn
    rw [hn, patchFile] at h
    cases h
    rw [hn]
    exact .nil t
  | succ n ih =>
    cases fs with
    | nil => cases hn
    | cons f fs =>
      rw [patchFile] at h
      cases hrecord : recordOf E files relFile f t with
      | error e => rw [hrecord] at h; cases h
      | ok record =>
        rw [hrecord] at h
        simp only [bind, Except.bind] at h
        cases haccepted : record.accepted with
        | none =>
          rw [haccepted] at h
          cases h
          cases hsuccess
        | some u =>
          rw [haccepted] at h
          obtain ⟨hstatus, hsource⟩ := accepted_eq_some haccepted
          simp only at h
          cases hrest : patchFile E files relFile (fs.map (shifted E t u)) u with
          | error e => rw [hrest] at h; cases h
          | ok after =>
            rw [hrest] at h
            cases h
            have hlength : (fs.map (shifted E t u)).length = n := by
              rw [List.length_map]
              exact Nat.succ.inj hn
            exact .cons f.lineNumber hrecord hstatus hsource (ih hlength hrest hsuccess).of_shifted

theorem roundtripValidate_ok {flaws : List Flaw} (h : (roundtripValidate flaws).1 = true) :
    ∀ f ∈ flaws, f.suppressed = true := by
  rw [roundtripValidate] at h
  simp only at h
  split at h
  next => cases h
  next hnil =>
    intro f hf
    rw [not_not, List.filter_eq_nil_iff] at hnil
    simpa using hnil f hf

theorem fileVerdict_success {relFile : String} {origContent : Text} {fnds : List (Finding ρ)}
    {v : FileVerdict κ} (h : fileVerdict E files relFile origContent fnds = .ok v)
    (hsuccess : v.fileSuccess = true) (hchanged : v.content ≠ origContent) :
    FullyPatched E files relFile (sortedBottomUp fnds) origContent v.content ∧
      RoundtripClean E relFile v.content := by
  rw [fileVerdict] at h
  split at h
  next => cases h
  next =>
    simp only [bind, Except.bind] at h
    cases hp : patchFile E files relFile (sortedBottomUp fnds) origContent with
    | error e => simp [hp] at h
    | ok p =>
      simp only [hp] at h
      split at h
      next hwhole =>
        cases hscan : E.scanSourceForVerification relFile p.content with
        | error e => simp [hscan] at h
        | ok flaws =>
          simp only [hscan] at h
          split at h
          next hok =>
            cases h
            exact ⟨fullyPatched_of_patchFile rfl hp hwhole.1, flaws, hscan, roundtripValidate_ok hok⟩
          next =>
            cases h
            cases hsuccess
      next hwhole =>
        cases h
        exact absurd ⟨hsuccess, hchanged⟩ hwhole

variable (E files)

def ToWrite (entry : String × List (Finding ρ)) (origContent : Text) (v : FileVerdict κ) : Prop :=
  files.lookup entry.1 = some origContent ∧ fileVerdict E files entry.1 origContent entry.2 = .ok v ∧
    v.fileSuccess = true ∧ v.content ≠ origContent

def Untouched (entry : String × List (Finding ρ)) : Prop :=
  files.lookup entry.1 = none ∨ ∃ origContent v, files.lookup entry.1 = some origContent ∧
    fileVerdict E files entry.1 origContent entry.2 = .ok v ∧ v.fileSuccess = true ∧
    v.content = origContent

def Attempted (entry : String × List (Finding ρ)) (d : FileTree) (path : FilePath) : Prop :=
  ∃ origContent v, ToWrite E files entry origContent v ∧ Passes P d entry.1 origContent path

inductive Outcome (entry : String × List (Finding ρ)) (s : State κ) : State κ → Option String → Prop
  | noSource (hsource : files.lookup entry.1 = none) : Outcome entry s s none
  | raised {origContent : Text} {e : String} (hsource : files.lookup entry.1 = some origContent)
      (hverdict : fileVerdict E files entry.1 origContent entry.2 = .error e) :
      Outcome entry s s (some e)
  | rejected {origContent : Text} {v : FileVerdict κ} (hsource : files.lookup entry.1 = some origContent)
      (hverdict : fileVerdict E files entry.1 origContent entry.2 = .ok v)
      (hfailed : v.fileSuccess = false) :
      Outcome entry s ((s.recorded true entry.1 v).unwritten entry.1) none
  | unchanged {origContent : Text} {v : FileVerdict κ} (hsource : files.lookup entry.1 = some origContent)
      (hverdict : fileVerdict E files entry.1 origContent entry.2 = .ok v)
      (hsuccess : v.fileSuccess = true) (hsame : v.content = origContent) :
      Outcome entry s (s.recorded true entry.1 v) none
  | unresolved {origContent : Text} {v : FileVerdict κ} {e : String}
      (hwrite : ToWrite E files entry origContent v) (hplace : diskFile P s.tree entry.1 = none) :
      Outcome entry s (s.recorded true entry.1 v) (some e)
  | stopped {origContent : Text} {v : FileVerdict κ} {result : WriteResult}
      (hwrite : ToWrite E files entry origContent v) (hresult : result ≠ .written)
      (hstop : ∀ path, ¬Passes P s.tree entry.1 origContent path) :
      Outcome entry s ((s.recorded true entry.1 v).afterWrite entry.1 s.tree result) none
  | tried {origContent : Text} {v : FileVerdict κ} {path : FilePath} (mode : ℕ) (crlf : Bool)
      {r : FileTree × WriteResult} (hwrite : ToWrite E files entry origContent v)
      (hpasses : Passes P s.tree entry.1 origContent path)
      (hr : r = replaceFile P s.tree (P.answers entry.1) path mode (normalizedContent crlf v.content)) :
      Outcome entry s ((s.recorded true entry.1 v).afterWrite entry.1 r.1 r.2) none

theorem outcome_of_entry (entry : String × List (Finding ρ)) (s : State κ) :
    Outcome E files P entry s (remediateEntry E files P true entry s).1
      (remediateEntry E files P true entry s).2 := by
  rw [remediateEntry]
  cases hsource : files.lookup entry.1 with
  | none => exact .noSource hsource
  | some origContent =>
    cases hverdict : fileVerdict E files entry.1 origContent entry.2 with
    | error e =>
      simp only [hverdict]
      exact .raised hsource hverdict
    | ok v =>
      simp only [hverdict, not_true_eq_false, if_false]
      by_cases hsuccess : v.fileSuccess = true
      · by_cases hsame : v.content = origContent
        · simp only [hsuccess, hsame, ne_eq, not_true_eq_false, and_false, if_false]
          exact .unchanged hsource hverdict hsuccess hsame
        · have hwrite : ToWrite E files entry origContent v := ⟨hsource, hverdict, hsuccess, hsame⟩
          rw [if_pos ⟨hsuccess, hsame⟩]
          obtain ⟨hplace, hpersist⟩ | ⟨result, hresult, hpersist, hstop⟩ |
              ⟨path, mode, crlf, hpasses, hpersist⟩ :=
            persist_cases P s.tree entry.1 origContent v.content
          · rw [hpersist]
            exact .unresolved hwrite hplace
          · rw [hpersist]
            exact .stopped hwrite hresult hstop
          · rw [hpersist]
            exact .tried mode crlf hwrite hpasses rfl
      · have hfailed : v.fileSuccess = false := by simpa using hsuccess
        rw [if_neg fun h => hsuccess h.1, if_pos hsuccess]
        exact .rejected hsource hverdict hfailed

/-! ## All or nothing -/

/-- A round of a run: the file with its findings, and the states around it. -/
structure Round (ρ κ : Type) where
  entry : String × List (Finding ρ)
  before : State κ
  after : State κ
  raised : Option String

def Round.Kept (r : Round ρ κ) : Prop := ∀ q, r.after.tree.view q = r.before.tree.view q

def Round.Reported (r : Round ρ κ) : Prop :=
  r.after.unwrittenEligibleFiles = r.before.unwrittenEligibleFiles ++ [r.entry.1] ∧
    r.after.writtenFiles = r.before.writtenFiles

def Round.Replaced (r : Round ρ κ) : Prop :=
  ∃ path, (∃ i, r.before.tree.node path = some (.file i)) ∧
    ShowsPatched E files r.entry.1 r.entry.2 (r.after.tree.view path) ∧
    (∀ q, q ≠ path → r.after.tree.view q = r.before.tree.view q) ∧
    r.after.unwrittenEligibleFiles = r.before.unwrittenEligibleFiles ∧
    r.after.writtenFiles = r.before.writtenFiles ++ [r.entry.1]

/-- The file of a name is reached through a link. -/
def ThroughLink (d : FileTree) (relFile : String) : Prop :=
  ∃ path, diskFile P d relFile = some (path, true) ∧ (d.kindAt path).isSome = true

def AllOrNothing (r : Round ρ κ) : Prop :=
  (r.Kept ∨ r.Replaced E files) ∧
    (ThroughLink P r.before.tree r.entry.1 → r.Kept ∧ (r.raised = none → r.Reported))

/-- No write through a link goes through, and none is left out silently; and a write leaves the
temporary name as it was. -/
structure Careful (entry : String × List (Finding ρ)) (d : FileTree) : Prop where
  link : ThroughLink P d entry.1 → ¬Untouched E files entry ∧
    ∀ path, Attempted E files P entry d path → ¬GoesThrough P d (P.answers entry.1) path
  tmp : ∀ path, Attempted E files P entry d path → TmpCareful P d (P.answers entry.1) path

variable {E files P}

theorem verdict_unique {entry : String × List (Finding ρ)} {origContent origContent' : Text}
    {x x' : Except String (FileVerdict κ)} (hsource : files.lookup entry.1 = some origContent)
    (hverdict : fileVerdict E files entry.1 origContent entry.2 = x)
    (hsource' : files.lookup entry.1 = some origContent')
    (hverdict' : fileVerdict E files entry.1 origContent' entry.2 = x') :
    origContent' = origContent ∧ x' = x := by
  have hcontent : origContent' = origContent := Option.some.inj (hsource'.symm.trans hsource)
  rw [hcontent] at hverdict'
  exact ⟨hcontent, hverdict'.symm.trans hverdict⟩

theorem not_untouched {entry : String × List (Finding ρ)} {origContent : Text}
    {x : Except String (FileVerdict κ)} (hsource : files.lookup entry.1 = some origContent)
    (hverdict : fileVerdict E files entry.1 origContent entry.2 = x)
    (hbusy : ∀ v, x = .ok v → v.fileSuccess = true → v.content ≠ origContent) :
    ¬Untouched E files entry := by
  rintro (hnone | ⟨origContent', v, hsource', hverdict', hsuccess, hsame⟩)
  · rw [hsource] at hnone
    cases hnone
  · obtain ⟨rfl, hv⟩ := verdict_unique hsource hverdict hsource' hverdict'
    exact hbusy v hv.symm hsuccess hsame

theorem ToWrite.not_untouched {entry : String × List (Finding ρ)} {origContent : Text}
    {v : FileVerdict κ} (h : ToWrite E files entry origContent v) : ¬Untouched E files entry :=
  Orchestrator.not_untouched h.1 h.2.1 fun _ hv _ => by
    cases hv
    exact h.2.2.2

theorem ToWrite.passes {entry : String × List (Finding ρ)} {origContent : Text} {v : FileVerdict κ}
    {d : FileTree} {path : FilePath} (h : ToWrite E files entry origContent v)
    (ha : Attempted E files P entry d path) : Passes P d entry.1 origContent path := by
  obtain ⟨origContent', v', hwrite', hpasses⟩ := ha
  have hsource := h.1.symm.trans hwrite'.1
  cases hsource
  exact hpasses

theorem Passes.path_eq {d : FileTree} {relFile : String} {origContent : Text} {path path' : FilePath}
    (h : Passes P d relFile origContent path) (h' : Passes P d relFile origContent path') :
    path' = path := by
  obtain ⟨met, hplace⟩ := h.place
  obtain ⟨met', hplace'⟩ := h'.place
  rw [hplace] at hplace'
  exact congrArg Prod.fst (Option.some.inj hplace').symm

theorem careful_idle {entry : String × List (Finding ρ)} {d : FileTree}
    (h : ∀ path, ¬Attempted E files P entry d path) :
    Careful E files P entry d ↔ (ThroughLink P d entry.1 → ¬Untouched E files entry) :=
  ⟨fun hc hlink => (hc.link hlink).1,
    fun hc => ⟨fun hlink => ⟨hc hlink, fun path ha => absurd ha (h path)⟩,
      fun path ha => absurd ha (h path)⟩⟩

theorem allOrNothing_quiet {r : Round ρ κ} (htree : r.after.tree = r.before.tree) :
    AllOrNothing E files P r ↔
      (ThroughLink P r.before.tree r.entry.1 → r.raised = none → r.Reported) := by
  have hkept : r.Kept := fun q => by rw [htree]
  exact ⟨fun h hlink => (h.2 hlink).2, fun h => ⟨.inl hkept, fun hlink => ⟨hkept, h hlink⟩⟩⟩

theorem not_attempted {entry : String × List (Finding ρ)} {d : FileTree} {origContent : Text}
    {x : Except String (FileVerdict κ)} (hsource : files.lookup entry.1 = some origContent)
    (hverdict : fileVerdict E files entry.1 origContent entry.2 = x)
    (hidle : ∀ v, x = .ok v → v.fileSuccess = true → v.content = origContent) (path : FilePath) :
    ¬Attempted E files P entry d path := by
  rintro ⟨origContent', v, ⟨hsource', hverdict', hsuccess, hchanged⟩, -⟩
  obtain ⟨rfl, hv⟩ := verdict_unique hsource hverdict hsource' hverdict'
  exact hchanged (hidle v hv.symm hsuccess)

theorem careful_tried {entry : String × List (Finding ρ)} {d : FileTree} {origContent : Text}
    {v : FileVerdict κ} {path : FilePath} (hwrite : ToWrite E files entry origContent v)
    (hpasses : Passes P d entry.1 origContent path) :
    Careful E files P entry d ↔
      (ThroughLink P d entry.1 → ¬GoesThrough P d (P.answers entry.1) path) ∧
        TmpCareful P d (P.answers entry.1) path := by
  have hattempted : Attempted E files P entry d path := ⟨origContent, v, hwrite, hpasses⟩
  have honly : ∀ path', Attempted E files P entry d path' → path' = path :=
    fun path' ha => hpasses.path_eq (hwrite.passes ha)
  refine ⟨fun h => ⟨fun hlink => (h.link hlink).2 path hattempted, h.tmp path hattempted⟩,
    fun h => ⟨fun hlink => ⟨hwrite.not_untouched, fun path' ha => ?_⟩, fun path' ha => ?_⟩⟩
  · rw [honly path' ha]
    exact h.1 hlink
  · rw [honly path' ha]
    exact h.2

section Tried

variable {entry : String × List (Finding ρ)} {s : State κ} {origContent : Text} {v : FileVerdict κ}
  {path : FilePath} {mode : ℕ} {crlf : Bool} {r : FileTree × WriteResult}

theorem replaced_of_through (hwrite : ToWrite E files entry origContent v)
    (hpasses : Passes P s.tree entry.1 origContent path)
    (hr : r = replaceFile P s.tree (P.answers entry.1) path mode (normalizedContent crlf v.content))
    (hthrough : GoesThrough P s.tree (P.answers entry.1) path)
    (hfree : s.tree.node (tmpFile path) = none) :
    Round.Replaced E files
      ⟨entry, s, (s.recorded true entry.1 v).afterWrite entry.1 r.1 .written, none⟩ := by
  obtain ⟨inode, htext, hview⟩ := view_written mode (normalizedContent crlf v.content) hfree hthrough
  rw [← hr] at hview
  obtain ⟨i, hi, -⟩ := hpasses.file
  obtain ⟨hpatched, hclean⟩ := fileVerdict_success hwrite.2.1 hwrite.2.2.1 hwrite.2.2.2
  refine ⟨path, ⟨i, hi⟩, ⟨origContent, v.content, crlf, inode, hwrite.1, hpatched, hclean, ?_, htext⟩,
    fun q hq => ?_, rfl, rfl⟩
  · exact (hview path).trans (if_pos rfl)
  · exact (hview q).trans (if_neg hq)

theorem not_all_of_lost {r' : Round ρ κ} {q : FilePath} (hthere : r'.before.tree.node q ≠ none)
    (hlost : r'.after.tree.view q = none) : ¬(r'.Kept ∨ r'.Replaced E files) := by
  have hview : r'.after.tree.view q ≠ r'.before.tree.view q := by
    rw [hlost]
    exact (r'.before.tree.view_ne_none hthere).symm
  rintro (hkept | ⟨path', -, ⟨_, _, _, _, -, -, -, hshown, -⟩, hrest, -⟩)
  · exact hview (hkept q)
  · by_cases hq : q = path'
    · rw [← hq, hlost] at hshown
      cases hshown
    · exact hview (hrest q hq)

theorem allOrNothing_tried (hwrite : ToWrite E files entry origContent v)
    (hpasses : Passes P s.tree entry.1 origContent path)
    (hr : r = replaceFile P s.tree (P.answers entry.1) path mode (normalizedContent crlf v.content)) :
    AllOrNothing E files P
        ⟨entry, s, (s.recorded true entry.1 v).afterWrite entry.1 r.1 r.2, none⟩ ↔
      Careful E files P entry s.tree := by
  rw [careful_tried hwrite hpasses]
  by_cases hthrough : GoesThrough P s.tree (P.answers entry.1) path
  · have hresult : r.2 = .written := by rw [hr, replaceFile_through _ _ hthrough]
    have hnot : ¬Round.Reported (ρ := ρ)
        ⟨entry, s, (s.recorded true entry.1 v).afterWrite entry.1 r.1 .written, none⟩ := by
      rintro ⟨-, hwritten⟩
      simp [State.afterWrite, State.recorded] at hwritten
    rw [hresult]
    by_cases hfree : s.tree.node (tmpFile path) = none
    · have htmp : TmpCareful P s.tree (P.answers entry.1) path := by
        rw [TmpCareful, if_pos hfree]
        exact fun _ => .inl hthrough
      exact ⟨fun h => ⟨fun hlink => absurd ((h.2 hlink).2 rfl) hnot, htmp⟩,
        fun h => ⟨.inr (replaced_of_through hwrite hpasses hr hthrough hfree),
          fun hlink => absurd hthrough (h.1 hlink)⟩⟩
    · have hlost := tmp_lost mode (normalizedContent crlf v.content) hfree hthrough
      rw [← hr] at hlost
      refine ⟨fun h => absurd h.1 (not_all_of_lost hfree hlost), fun h => ?_⟩
      have htmp := h.2
      rw [TmpCareful, if_neg hfree] at htmp
      exact absurd hthrough.1 htmp.1
  · have hresult : r.2 = .unwritten := by
      rw [hr, replaceFile_failed _ _ hthrough]
      split_ifs <;> rfl
    have hkept := kept_iff mode (normalizedContent crlf v.content) hthrough
    rw [← hr] at hkept
    rw [hresult]
    refine ⟨fun h => ⟨fun _ => hthrough, hkept.mp ?_⟩,
      fun h => ⟨.inl (hkept.mpr h.2), fun _ => ⟨hkept.mpr h.2, fun _ => ⟨rfl, rfl⟩⟩⟩⟩
    obtain hsame | ⟨-, -, -, -, -, hwritten⟩ := h.1
    · exact hsame
    · simp [State.afterWrite, State.unwritten, State.recorded] at hwritten

end Tried

theorem allOrNothing_round {entry : String × List (Finding ρ)} {s s' : State κ} {raised : Option String}
    (h : Outcome E files P entry s s' raised) :
    AllOrNothing E files P ⟨entry, s, s', raised⟩ ↔ Careful E files P entry s.tree := by
  cases h with
  | noSource hsource =>
    have hidle : ∀ path, ¬Attempted E files P entry s.tree path := by
      rintro path ⟨origContent, v, ⟨hsource', -⟩, -⟩
      rw [hsource] at hsource'
      cases hsource'
    have huntouched : Untouched E files entry := .inl hsource
    rw [allOrNothing_quiet rfl, careful_idle hidle]
    simp [huntouched, Round.Reported]
  | raised hsource hverdict =>
    have huntouched : ¬Untouched E files entry := not_untouched hsource hverdict fun v hv => by cases hv
    rw [allOrNothing_quiet rfl, careful_idle (not_attempted hsource hverdict fun v hv => by cases hv)]
    simp [huntouched]
  | @rejected origContent v hsource hverdict hfailed =>
    have hno : ∀ w : FileVerdict κ, (.ok v : Except String (FileVerdict κ)) = .ok w →
        w.fileSuccess ≠ true := by
      intro w hw
      cases hw
      rw [hfailed]
      exact Bool.false_ne_true
    have huntouched : ¬Untouched E files entry :=
      not_untouched hsource hverdict fun w hw hsuccess => absurd hsuccess (hno w hw)
    have hidle : ∀ path, ¬Attempted E files P entry s.tree path :=
      not_attempted hsource hverdict fun w hw hsuccess => absurd hsuccess (hno w hw)
    rw [allOrNothing_quiet rfl, careful_idle hidle]
    exact ⟨fun _ _ => huntouched, fun _ _ _ => ⟨rfl, rfl⟩⟩
  | unchanged hsource hverdict hsuccess hsame =>
    have huntouched : Untouched E files entry := .inr ⟨_, _, hsource, hverdict, hsuccess, hsame⟩
    have hidle : ∀ path, ¬Attempted E files P entry s.tree path :=
      not_attempted hsource hverdict fun w hw _ => by
        cases hw
        exact hsame
    rw [allOrNothing_quiet rfl, careful_idle hidle]
    simp [huntouched, Round.Reported, State.recorded]
  | unresolved hwrite hplace =>
    have hidle : ∀ path, ¬Attempted E files P entry s.tree path := by
      intro path ha
      obtain ⟨met, hmet⟩ := (hwrite.passes ha).place
      rw [hplace] at hmet
      cases hmet
    rw [allOrNothing_quiet rfl, careful_idle hidle]
    exact ⟨fun _ _ => hwrite.not_untouched, fun _ _ hraised => by cases hraised⟩
  | @stopped origContent v result hwrite hresult hstop =>
    have hidle : ∀ path, ¬Attempted E files P entry s.tree path :=
      fun path ha => hstop path (hwrite.passes ha)
    rw [allOrNothing_quiet (by cases result <;> rfl), careful_idle hidle]
    refine ⟨fun _ _ => hwrite.not_untouched, fun _ _ _ => ?_⟩
    cases result with
    | written => exact absurd rfl hresult
    | unwritten => exact ⟨rfl, rfl⟩
    | stale => exact ⟨rfl, rfl⟩
  | tried mode crlf hwrite hpasses hr => exact allOrNothing_tried hwrite hpasses hr

/-! ## Runs -/

theorem Outcome.frame {entry : String × List (Finding ρ)} {s s' : State κ} {raised : Option String}
    (h : Outcome E files P entry s s' raised) :
    (∀ x ∈ s.unwrittenEligibleFiles, x ∈ s'.unwrittenEligibleFiles) ∧
      ∀ x ∈ s'.writtenFiles, x ∈ s.writtenFiles ∨ x = entry.1 := by
  have hafter : ∀ (v : FileVerdict κ) (tree : FileTree) (result : WriteResult),
      (∀ x ∈ s.unwrittenEligibleFiles,
        x ∈ ((s.recorded true entry.1 v).afterWrite entry.1 tree result).unwrittenEligibleFiles) ∧
      ∀ x ∈ ((s.recorded true entry.1 v).afterWrite entry.1 tree result).writtenFiles,
        x ∈ s.writtenFiles ∨ x = entry.1 := by
    intro v tree result
    cases result with
    | written =>
      exact ⟨fun x hx => hx, fun x hx => (List.mem_append.mp hx).imp_right List.mem_singleton.mp⟩
    | unwritten => exact ⟨fun x hx => List.mem_append_left _ hx, fun x hx => .inl hx⟩
    | stale => exact ⟨fun x hx => List.mem_append_left _ hx, fun x hx => .inl hx⟩
  cases h with
  | noSource => exact ⟨fun x hx => hx, fun x hx => .inl hx⟩
  | raised => exact ⟨fun x hx => hx, fun x hx => .inl hx⟩
  | rejected => exact ⟨fun x hx => List.mem_append_left _ hx, fun x hx => .inl hx⟩
  | unchanged => exact ⟨fun x hx => hx, fun x hx => .inl hx⟩
  | unresolved => exact ⟨fun x hx => hx, fun x hx => .inl hx⟩
  | stopped => exact hafter _ _ _
  | tried => exact hafter _ _ _

theorem kindAt_of_round {r : Round ρ κ} (h : r.Kept ∨ r.Replaced E files) :
    r.after.tree.kindAt = r.before.tree.kindAt := by
  funext q
  rw [kindAt_eq, kindAt_eq]
  obtain hkept | ⟨path, ⟨i, hi⟩, ⟨_, _, _, inode, -, -, -, hview, -⟩, hrest, -⟩ := h
  · rw [hkept q]
  · by_cases hq : q = path
    · rw [hq, hview, view_of_file _ hi]
      rfl
    · rw [hrest q hq]

theorem throughLink_congr {d d' : FileTree} (h : d'.kindAt = d.kindAt) (relFile : String) :
    ThroughLink P d' relFile ↔ ThroughLink P d relFile := by
  have hfile : isFile P d' P.target = isFile P d P.target := by rw [isFile, isFile, h]
  have hentry : entryAt P d' P.target = entryAt P d P.target := by
    simp only [entryAt, isSymlink, FileTree.resolve, h]
  have hplace : diskFile P d' relFile = diskFile P d relFile := by
    rw [diskFile, diskFile, hfile, hentry]
    simp only [FileTree.resolve, h]
  rw [ThroughLink, ThroughLink, hplace, h]

variable (E files P)

/-- The rounds a run gets to. -/
def rounds : List (String × List (Finding ρ)) → State κ → List (Round ρ κ)
  | [], _ => []
  | entry :: rest, s =>
    match remediateEntry E files P true entry s with
    | (s', none) => ⟨entry, s, s', none⟩ :: rounds rest s'
    | (s', some e) => [⟨entry, s, s', some e⟩]

structure RunSpec (entries : List (String × List (Finding ρ))) (s s' : State κ)
    (raised : Option String) : Prop where
  shows : ∀ q, s'.tree.view q = s.tree.view q ∨
    ∃ entry ∈ entries, ShowsPatched E files entry.1 entry.2 (s'.tree.view q)
  unwritten : ∀ x ∈ s.unwrittenEligibleFiles, x ∈ s'.unwrittenEligibleFiles
  written : ∀ x ∈ s'.writtenFiles, x ∈ s.writtenFiles ∨ x ∈ entries.map Prod.fst
  linked : raised = none → ∀ x ∈ entries.map Prod.fst, ThroughLink P s.tree x → x ∉ s.writtenFiles →
    x ∈ s'.unwrittenEligibleFiles ∧ x ∉ s'.writtenFiles

variable {E files P}

section Unfolding

variable {entry : String × List (Finding ρ)} {s s' : State κ} {e : String}
  (rest : List (String × List (Finding ρ)))

theorem rounds_of_none (h : remediateEntry E files P true entry s = (s', none)) :
    rounds E files P (entry :: rest) s = ⟨entry, s, s', none⟩ :: rounds E files P rest s' := by
  rw [rounds, h]

theorem rounds_of_some (h : remediateEntry E files P true entry s = (s', some e)) :
    rounds E files P (entry :: rest) s = [⟨entry, s, s', some e⟩] := by
  rw [rounds, h]

theorem remediateEntries_of_none {isWrite : Bool}
    (h : remediateEntry E files P isWrite entry s = (s', none)) :
    remediateEntries E files P isWrite (entry :: rest) s = remediateEntries E files P isWrite rest s' := by
  rw [remediateEntries, h]

theorem remediateEntries_of_some {isWrite : Bool}
    (h : remediateEntry E files P isWrite entry s = (s', some e)) :
    remediateEntries E files P isWrite (entry :: rest) s = (s', some e) := by
  rw [remediateEntries, h]

end Unfolding

theorem outcome_of_mem_rounds {entries : List (String × List (Finding ρ))} {s : State κ}
    {r : Round ρ κ} (h : r ∈ rounds E files P entries s) :
    Outcome E files P r.entry r.before r.after r.raised := by
  induction entries generalizing s with
  | nil => rw [rounds] at h; cases h
  | cons entry rest ih =>
    have houtcome := outcome_of_entry E files P entry s
    obtain ⟨⟨s', raised⟩, heq⟩ : ∃ out, remediateEntry E files P true entry s = out := ⟨_, rfl⟩
    rw [heq] at houtcome
    cases raised with
    | none =>
      rw [rounds_of_none rest heq] at h
      obtain rfl | hrest := List.mem_cons.mp h
      · exact houtcome
      · exact ih hrest
    | some e =>
      rw [rounds_of_some rest heq] at h
      rw [List.mem_singleton.mp h]
      exact houtcome

theorem shows_of_round {r : Round ρ κ} (h : r.Kept ∨ r.Replaced E files) (q : FilePath) :
    r.after.tree.view q = r.before.tree.view q ∨
      ShowsPatched E files r.entry.1 r.entry.2 (r.after.tree.view q) := by
  obtain hkept | ⟨path, -, hshows, hrest, -⟩ := h
  · exact .inl (hkept q)
  · by_cases hq : q = path
    · rw [hq]
      exact .inr hshows
    · exact .inl (hrest q hq)

theorem RunSpec.of_round {entry : String × List (Finding ρ)} {s s' : State κ} {raised : Option String}
    (houtcome : Outcome E files P entry s s' raised)
    (hround : AllOrNothing E files P ⟨entry, s, s', raised⟩) :
    RunSpec E files P [entry] s s' raised where
  shows q := (shows_of_round hround.1 q).imp_right fun h => ⟨entry, List.mem_singleton_self _, h⟩
  unwritten := houtcome.frame.1
  written x hx := (houtcome.frame.2 x hx).imp_right fun h => by rw [h]; exact List.mem_singleton_self _
  linked hraised x hx hlink hnot := by
    obtain rfl : x = entry.1 := by simpa using hx
    obtain ⟨hunwritten, hwritten⟩ := (hround.2 hlink).2 hraised
    refine ⟨?_, ?_⟩
    · show entry.1 ∈ s'.unwrittenEligibleFiles
      rw [show s'.unwrittenEligibleFiles = _ from hunwritten]
      exact List.mem_append_right _ (List.mem_singleton_self _)
    · show entry.1 ∉ s'.writtenFiles
      rw [show s'.writtenFiles = _ from hwritten]
      exact hnot

theorem RunSpec.after {entry : String × List (Finding ρ)} {rest : List (String × List (Finding ρ))}
    {s s' t : State κ} {raised : Option String} (hkind : s'.tree.kindAt = s.tree.kindAt)
    (hkeys : entry.1 ∉ rest.map Prod.fst) (hround : RunSpec E files P [entry] s s' none)
    (hrest : RunSpec E files P rest s' t raised) : RunSpec E files P (entry :: rest) s t raised where
  shows q := by
    obtain hsame | ⟨e, he, hshows⟩ := hrest.shows q
    · rw [hsame]
      obtain hkept | ⟨e, he, hshows⟩ := hround.shows q
      · exact .inl hkept
      · rw [List.mem_singleton] at he
        exact .inr ⟨e, by rw [he]; exact List.mem_cons_self, hshows⟩
    · exact .inr ⟨e, List.mem_cons_of_mem _ he, hshows⟩
  unwritten x hx := hrest.unwritten x (hround.unwritten x hx)
  written x hx := by
    rw [List.map_cons, List.mem_cons]
    obtain hearlier | hlater := hrest.written x hx
    · obtain hbefore | hmem := hround.written x hearlier
      · exact .inl hbefore
      · exact .inr (.inl (by simpa using hmem))
    · exact .inr (.inr hlater)
  linked hraised x hx hlink hnot := by
    rw [List.map_cons, List.mem_cons] at hx
    by_cases hhead : x = entry.1
    · obtain ⟨hunwritten, hwritten⟩ :=
        hround.linked rfl x (by simp [hhead]) hlink hnot
      refine ⟨hrest.unwritten x hunwritten, fun hx' => ?_⟩
      obtain hearlier | hlater := hrest.written x hx'
      · exact hwritten hearlier
      · rw [hhead] at hlater
        exact hkeys hlater
    · refine hrest.linked hraised x (hx.resolve_left hhead) ((throughLink_congr hkind x).mpr hlink)
        fun hx' => ?_
      obtain hbefore | hmem := hround.written x hx'
      · exact hnot hbefore
      · exact hhead (by simpa using hmem)

theorem runSpec {entries : List (String × List (Finding ρ))} {s : State κ}
    (hkeys : (entries.map Prod.fst).Nodup)
    (h : ∀ r ∈ rounds E files P entries s, AllOrNothing E files P r) :
    RunSpec E files P entries s (remediateEntries E files P true entries s).1
      (remediateEntries E files P true entries s).2 := by
  induction entries generalizing s with
  | nil =>
    exact ⟨fun q => .inl rfl, fun x hx => hx, fun x hx => .inl hx, fun _ x hx => absurd hx List.not_mem_nil⟩
  | cons entry rest ih =>
    rw [List.map_cons, List.nodup_cons] at hkeys
    have houtcome := outcome_of_entry E files P entry s
    obtain ⟨⟨s', raised⟩, heq⟩ : ∃ out, remediateEntry E files P true entry s = out := ⟨_, rfl⟩
    rw [heq] at houtcome
    cases raised with
    | none =>
      rw [rounds_of_none rest heq] at h
      rw [remediateEntries_of_none rest heq]
      have hround := h _ List.mem_cons_self
      exact (RunSpec.of_round houtcome hround).after (kindAt_of_round hround.1) hkeys.1
        (ih hkeys.2 fun r hr => h r (List.mem_cons_of_mem _ hr))
    | some e =>
      rw [rounds_of_some rest heq] at h
      rw [remediateEntries_of_some rest heq]
      have hspec := RunSpec.of_round houtcome (h _ (List.mem_singleton_self _))
      refine ⟨fun q => (hspec.shows q).imp_right ?_, hspec.unwritten, fun x hx => ?_,
        fun hraised => by cases hraised⟩
      · rintro ⟨e', he', hshows⟩
        rw [List.mem_singleton] at he'
        exact ⟨e', by rw [he']; exact List.mem_cons_self, hshows⟩
      · refine (hspec.written x hx).imp_right fun hmem => ?_
        rw [List.map_singleton, List.mem_singleton] at hmem
        rw [List.map_cons, hmem]
        exact List.mem_cons_self

theorem remediateProject_tree (isWrite : Bool) (effectiveFindings : List (Finding ρ))
    (tree : FileTree) : (remediateProject E files P isWrite effectiveFindings tree).1 =
      (remediateEntries E files P isWrite (findingsByFile (remediationCandidates effectiveFindings))
        { tree }).1.tree := by
  rw [remediateProject]
  split
  next heq => rw [heq]
  next heq => rw [heq]

theorem findingsByFile_spec (candidates : List (Finding ρ)) :
    ((findingsByFile candidates).map Prod.fst).Nodup ∧
      ∀ x fs, (x, fs) ∈ findingsByFile candidates ↔
        x ≠ "" ∧ (∃ f ∈ candidates, f.file = x) ∧ fs = candidates.filter (·.file = x) := by
  induction candidates using List.reverseRecOn with
  | nil => exact ⟨List.nodup_nil, fun x fs => by simp [findingsByFile]⟩
  | append_singleton candidates f ih =>
    obtain ⟨hnodup, hmem⟩ := ih
    have hstep : findingsByFile (candidates ++ [f]) = addFinding (findingsByFile candidates) f := by
      rw [findingsByFile, List.foldl_append]
      rfl
    have hother : ∀ x, f.file ≠ x → (candidates ++ [f]).filter (·.file = x) =
        candidates.filter (·.file = x) := by
      intro x hx
      simp [List.filter_append, hx]
    have hexists : ∀ x, f.file ≠ x → ((∃ g ∈ candidates ++ [f], g.file = x) ↔
        ∃ g ∈ candidates, g.file = x) := by
      intro x hx
      simp [hx]
    rw [hstep, addFinding]
    split
    next hempty =>
      refine ⟨hnodup, fun x fs => ?_⟩
      rw [hmem]
      refine and_congr_right fun hx => ?_
      have hne : f.file ≠ x := fun h => hx (h ▸ hempty)
      rw [hother x hne, hexists x hne]
    next hempty =>
      refine ⟨Tables.nodup_keys_setItem hnodup _ _, fun x fs => ?_⟩
      have hold : ((findingsByFile candidates).lookup f.file).getD [] =
          candidates.filter (·.file = f.file) := by
        by_cases hg : ∃ g ∈ candidates, g.file = f.file
        · have hgroup := (hmem f.file _).mpr ⟨hempty, hg, rfl⟩
          rw [Tables.lookup_of_mem hnodup hgroup]
          rfl
        · have hnone : (findingsByFile candidates).lookup f.file = none := by
            rw [List.lookup_eq_none_iff]
            intro e he
            rw [bne_iff_ne]
            rintro heq
            exact hg (heq ▸ ((hmem e.1 e.2).mp he).2.1)
          have hnil : candidates.filter (·.file = f.file) = [] := by
            rw [List.filter_eq_nil_iff]
            intro g hgmem hgfile
            exact hg ⟨g, hgmem, of_decide_eq_true hgfile⟩
          rw [hnone, hnil]
          rfl
      rw [Tables.mem_setItem_iff, hold, hmem]
      by_cases hx : x = f.file
      · rw [hx]
        simp [List.filter_append, hempty]
      · rw [hother x (Ne.symm hx), hexists x (Ne.symm hx)]
        simp [hx]

variable (E files P)

/-- After a run every path shows what it did or a file with all its findings patched and a clean re-scan,
and a file that is reached through a link is reported and not written. -/
def ProjectAllOrNothing (effectiveFindings : List (Finding ρ)) (tree : FileTree) : Prop :=
  let candidates := remediationCandidates effectiveFindings
  let out := remediateProject E files P true effectiveFindings tree
  (∀ q, out.1.view q = tree.view q ∨ ∃ f ∈ candidates,
      ShowsPatched E files f.file (candidates.filter (·.file = f.file)) (out.1.view q)) ∧
    ∀ result, out.2 = .ok result → ∀ f ∈ candidates, f.file ≠ "" → ThroughLink P tree f.file →
      f.file ∈ result.unwrittenEligibleFiles ∧ f.file ∉ result.writtenFiles

variable {E files P}

theorem projectAllOrNothing_of_rounds {effectiveFindings : List (Finding ρ)} {tree : FileTree}
    (h : ∀ r ∈ rounds E files P (findingsByFile (remediationCandidates effectiveFindings)) { tree },
      AllOrNothing E files P r) : ProjectAllOrNothing E files P effectiveFindings tree := by
  obtain ⟨hkeys, hmem⟩ := findingsByFile_spec (remediationCandidates effectiveFindings)
  have hrun := runSpec hkeys h
  refine ⟨fun q => ?_, fun result hresult f hf hname hlink => ?_⟩
  · rw [remediateProject_tree]
    refine (hrun.shows q).imp_right ?_
    rintro ⟨⟨x, fs⟩, hentry, hshows⟩
    obtain ⟨-, ⟨f, hf, rfl⟩, rfl⟩ := (hmem x fs).mp hentry
    exact ⟨f, hf, hshows⟩
  · have hkey : f.file ∈ (findingsByFile (remediationCandidates effectiveFindings)).map Prod.fst :=
      List.mem_map.mpr ⟨(f.file, _), (hmem f.file _).mpr ⟨hname, ⟨f, hf, rfl⟩, rfl⟩, rfl⟩
    rw [remediateProject] at hresult
    split at hresult
    next => cases hresult
    next s heq =>
      rw [heq] at hrun
      cases hresult
      exact hrun.linked rfl f.file hkey hlink List.not_mem_nil

/-- The rounds of a run are all or nothing exactly when they are careful, and then the run is. -/
theorem allOrNothing_iff (effectiveFindings : List (Finding ρ)) (tree : FileTree) :
    let run := rounds E files P (findingsByFile (remediationCandidates effectiveFindings)) { tree }
    ((∀ r ∈ run, AllOrNothing E files P r) ↔ ∀ r ∈ run, Careful E files P r.entry r.before.tree) ∧
      ((∀ r ∈ run, Careful E files P r.entry r.before.tree) →
        ProjectAllOrNothing E files P effectiveFindings tree) := by
  intro run
  have hiff : (∀ r ∈ run, AllOrNothing E files P r) ↔
      ∀ r ∈ run, Careful E files P r.entry r.before.tree :=
    forall₂_congr fun r hr => allOrNothing_round (outcome_of_mem_rounds hr)
  exact ⟨hiff, fun h => projectAllOrNothing_of_rounds (hiff.mpr h)⟩

/-- `/p/link.py` is a link to `/p/real.py`. -/
def linkedTree : FileTree where
  nodes := ⟨[⟨[], .dir⟩, ⟨["p"], .dir⟩, ⟨["p", "real.py"], .file 0⟩,
      ⟨["p", "link.py"], .link false ["real.py"]⟩],
    (by decide : [[], ["p"], ["p", "real.py"], ["p", "link.py"]].Nodup)⟩
  inodes _ := ⟨some ['x'], 0o644, 0⟩
  next := 1
  below p i h := by
    have hmem : (p, TreeNode.file i) ∈ [([], TreeNode.dir), (["p"], .dir), (["p", "real.py"], .file 0),
        (["p", "link.py"], .link false ["real.py"])] := DictOf.mem_items_iff.mpr h
    simp at hmem
    omega

def linkedProject : Project where
  target := ["p"]
  baseDir := ["p"]
  answers _ := {}
  steps := 10

def linkFinding : Finding Unit := { file := "link.py", lineNumber := some 1, rest := () }

def patchRecord : RemediationRecord Unit where
  originalFile := "link.py"
  patchStatus := .success
  verificationPassed := true
  limitations := []
  patchedSource := some ['y']
  rest := ()
  consistent := by decide

/-- The patch turns `x` into `y`, and no scan finds anything. -/
def patchingEngines : Engines Unit Unit Unit where
  refineFindingLineNumber _ _ := .ok 1
  remediate _ _ _ := .ok patchRecord
  resolveTargetSignature _ _ := none
  verifyFix := none
  opcodes _ _ := []
  scanSourceForVerification _ _ := .ok []

theorem linkFinding_verdict : fileVerdict patchingEngines [("link.py", ['x'])] "link.py" ['x']
    [linkFinding] = .ok ⟨[patchRecord], true, ['y'], some ⟨0, 0, 0, []⟩⟩ := by
  have hpatch : patchFile patchingEngines [("link.py", ['x'])] "link.py" [linkFinding] ['x'] =
      .ok ⟨[patchRecord], true, ['y']⟩ := by
    rw [patchFile]
    show (do
      let after ← patchFile patchingEngines [("link.py", ['x'])] "link.py" [] ['y']
      return { after with records := patchRecord :: after.records } : Except String _) = _
    rw [patchFile]
    rfl
  have hsorted : sortedBottomUp [linkFinding] = [linkFinding] := rfl
  rw [fileVerdict, hsorted, hpatch]
  rfl

/-- The write goes through the link. -/
theorem allOrNothing_fails_on_link :
    ThroughLink linkedProject linkedTree "link.py" ∧ ¬ProjectAllOrNothing patchingEngines
      [("link.py", ['x'])] linkedProject [linkFinding] linkedTree := by
  have hlink : ThroughLink linkedProject linkedTree "link.py" :=
    ⟨["p", "real.py"], by decide, by decide⟩
  refine ⟨hlink, fun h => ?_⟩
  have hrun : ∃ result, (remediateProject patchingEngines [("link.py", ['x'])] linkedProject true
      [linkFinding] linkedTree).2 = .ok result ∧ result.writtenFiles = ["link.py"] := by
    have hpersist : (persist linkedProject linkedTree "link.py" ['x'] ['y']).map Prod.snd =
        some .written := by decide
    obtain ⟨⟨tree, w⟩, htree, rfl⟩ := Option.map_eq_some_iff.mp hpersist
    have hsource : [("link.py", ['x'])].lookup "link.py" = some ['x'] := rfl
    have hgroups : findingsByFile (remediationCandidates [linkFinding]) =
        [("link.py", [linkFinding])] := rfl
    have hentry : remediateEntry patchingEngines [("link.py", ['x'])] linkedProject true
        ("link.py", [linkFinding]) { tree := linkedTree } =
        (((State.recorded { tree := linkedTree } true "link.py"
          ⟨[patchRecord], true, ['y'], some ⟨0, 0, 0, []⟩⟩).afterWrite "link.py" tree .written), none) := by
      have hchanged : ['y'] ≠ ['x'] := by decide
      simp only [remediateEntry, hsource, linkFinding_verdict, not_true_eq_false, if_false]
      rw [if_pos ⟨trivial, hchanged⟩]
      simp only [htree]
    rw [remediateProject, hgroups]
    rw [remediateEntries_of_none [] hentry]
    exact ⟨_, rfl, rfl⟩
  obtain ⟨result, hresult, hwritten⟩ := hrun
  have hnot := (h.2 result hresult linkFinding (List.mem_singleton_self _) (by decide) hlink).2
  rw [hwritten] at hnot
  exact hnot (List.mem_singleton_self _)

end TimeCodeSecurity.Orchestrator
