import TimeCodeSecurity.Foundations.Nesting
import TimeCodeSecurity.Html.Auditor

/-! # Which outputs sample code hides

The auditor counts the open elements of five tags in one number. Here each tag has its own open elements, and
an element hides an output only if its own end tag comes later.
-/
namespace TimeCodeSecurity.Html
set_option autoImplicit false

section

variable (lower : Text → Text)

def Event.opensRegion (kind : String) (e : Event) : Bool :=
  match e.markup with
  | .startTag tag _ selfClosing => decide (lower tag = kind.toList) && !selfClosing
  | _ => false

def Event.closesRegion (kind : String) (e : Event) : Bool :=
  match e.markup with
  | .endTag tag => decide (lower tag = kind.toList)
  | _ => false

def Event.outputLines (e : Event) : List ℕ :=
  match e.markup with
  | .data text => untrustedLines lower e.line text
  | _ => []

/-- The elements of the tag that are open before the `n`-th event. -/
abbrev openRegions (events : List Event) (kind : String) (n : ℕ) : List ℕ :=
  Nesting.openAt (Event.opensRegion lower kind) (Event.closesRegion lower kind) events n

/-- An element of the tag that is ended later encloses the `n`-th event. -/
def InRegion (events : List Event) (kind : String) (n : ℕ) : Prop :=
  ∃ i, Nesting.Encloses (Event.opensRegion lower kind) (Event.closesRegion lower kind) events i n

/-- There is an untrusted output at the line that no verbatim element encloses. -/
def ExposedOutputAt (events : List Event) (line : ℕ) : Prop :=
  ∃ n e, events[n]? = some e ∧ line ∈ e.outputLines lower ∧ ∀ kind ∈ verbatimTags, ¬ InRegion lower events kind n

/-- Some verbatim element is open before the `n`-th event. -/
def SomeRegionOpen (events : List Event) (n : ℕ) : Prop :=
  ∃ kind ∈ verbatimTags, openRegions lower events kind n ≠ []

/-- A verbatim end tag inside verbatim elements ends one of its own, and where an untrusted output comes inside
verbatim elements, one of them is ended later. -/
structure RegionsInPlace (events : List Event) : Prop where
  ended : ∀ n e, events[n]? = some e → ∀ kind ∈ verbatimTags, e.closesRegion lower kind = true →
    SomeRegionOpen lower events n → openRegions lower events kind n ≠ []
  closed : ∀ n e, events[n]? = some e → e.outputLines lower ≠ [] → SomeRegionOpen lower events n →
    ∃ kind ∈ verbatimTags, InRegion lower events kind n

def regionCount (events : List Event) (n : ℕ) : ℕ :=
  (verbatimTags.map fun kind => (openRegions lower events kind n).length).sum

variable {lower} {a : Auditor} {e : Event} {L : ℕ} {events : List Event} {n : ℕ}

theorem isOneOf_eq (words : List String) (text : Text) :
    isOneOf words text = words.any fun word => decide (text = word.toList) := by
  refine congrArg words.any (funext fun word => ?_)
  rw [Bool.eq_iff_iff, beq_iff_eq, decide_eq_true_iff]
  exact eq_comm

theorem handle_verbatimDepth : (a.handle lower e).verbatimDepth =
    if verbatimTags.any (e.opensRegion lower ·) then a.verbatimDepth + 1
    else if verbatimTags.any (e.closesRegion lower ·) then a.verbatimDepth - 1 else a.verbatimDepth := by
  rcases e with ⟨line, ⟨tag, attrs, selfClosing⟩ | tag | text, _⟩
  · refine (handleStarttag_verbatimDepth lower tag attrs selfClosing).trans ?_
    rw [isOneOf_eq]
    cases selfClosing <;> simp [Event.opensRegion, Event.closesRegion]
  · refine (handleEndtag_verbatimDepth lower tag).trans ?_
    rw [isOneOf_eq]
    simp [Event.opensRegion, Event.closesRegion]
  · refine (handleData_verbatimDepth lower text).trans ?_
    simp [Event.opensRegion, Event.closesRegion]

theorem outputLines_pos (h : L ∈ e.outputLines lower) : 0 < L := by
  rcases e with ⟨line, _ | _ | text, hpos⟩
  · cases h
  · cases h
  · obtain ⟨out, -, rfl⟩ := List.mem_map.mp h
    exact Nat.add_pos_left hpos _

theorem reports_handle_output : Reports (a.handle lower e).findings "CWE-79" L ↔
    Reports a.findings "CWE-79" L ∨ a.verbatimDepth = 0 ∧ L ∈ e.outputLines lower := by
  have hmax : (∃ l ∈ e.outputLines lower, L = max 1 l) ↔ L ∈ e.outputLines lower := by
    constructor
    · rintro ⟨l, hl, rfl⟩
      rw [max_eq_right (outputLines_pos hl)]
      exact hl
    · exact fun h => ⟨L, h, (max_eq_right (outputLines_pos h)).symm⟩
  rw [← hmax]
  rcases e with ⟨line, ⟨tag, attrs, selfClosing⟩ | tag | text, _⟩
  · refine (reports_handleStarttag lower (by decide) tag attrs selfClosing).trans ?_
    simp [Event.outputLines]
  · refine (reports_handleEndtag lower tag).trans ?_
    simp [Event.outputLines]
  · refine (reports_handleData lower text).trans ?_
    simp [Event.outputLines]

theorem regionCount_eq_zero : regionCount lower events n = 0 ↔ ¬ SomeRegionOpen lower events n := by
  rw [regionCount, List.sum_eq_zero_iff]
  simp [SomeRegionOpen]

theorem eq_of_opensRegion {k j : String} (hk : e.opensRegion lower k = true) (hj : e.opensRegion lower j = true) :
    j = k := by
  rcases e with ⟨_, _ | _ | _, _⟩
  · have hktag := of_decide_eq_true (Bool.and_eq_true_iff.mp hk).1
    have hjtag := of_decide_eq_true (Bool.and_eq_true_iff.mp hj).1
    exact String.toList_inj.mp (hjtag.symm.trans hktag)
  · cases hk
  · cases hk

theorem eq_of_closesRegion {k j : String} (hk : e.closesRegion lower k = true)
    (hj : e.closesRegion lower j = true) : j = k := by
  rcases e with ⟨_, _ | _ | _, _⟩
  · cases hk
  · exact String.toList_inj.mp ((of_decide_eq_true hj).symm.trans (of_decide_eq_true hk))
  · cases hk

theorem not_opensRegion_of_closesRegion {k : String} (hk : e.closesRegion lower k = true) (j : String) :
    e.opensRegion lower j = false := by
  rcases e with ⟨_, _ | _ | _, _⟩
  · cases hk
  · rfl
  · rfl

theorem regionCount_of_one {m : ℕ} {k : String} (hk : k ∈ verbatimTags)
    (h : ∀ j, j ≠ k → openRegions lower events j m = openRegions lower events j n) :
    regionCount lower events m + (openRegions lower events k n).length =
      regionCount lower events n + (openRegions lower events k m).length := by
  have hrest : (verbatimTags.erase k).map (fun kind => (openRegions lower events kind m).length) =
      (verbatimTags.erase k).map fun kind => (openRegions lower events kind n).length := by
    refine List.map_congr_left fun j hj => congrArg List.length (h j ?_)
    rintro rfl
    exact absurd hj (List.Nodup.not_mem_erase (by decide))
  rw [regionCount, regionCount, ← List.sum_map_erase _ hk, ← List.sum_map_erase _ hk, hrest]
  omega

theorem openRegions_of_opens (he : events[n]? = some e) {k : String} (h : e.opensRegion lower k = true) :
    openRegions lower events k (n + 1) = n :: openRegions lower events k n := by
  rw [openRegions, Nesting.openAt_succ he, Nesting.advance, if_pos h]

theorem openRegions_of_closes (he : events[n]? = some e) {k : String} (h : e.closesRegion lower k = true) :
    openRegions lower events k (n + 1) = (openRegions lower events k n).tail := by
  rw [openRegions, Nesting.openAt_succ he, Nesting.advance, not_opensRegion_of_closesRegion h, h]
  rfl

theorem openRegions_of_neither (he : events[n]? = some e) {k : String} (hopens : e.opensRegion lower k ≠ true)
    (hcloses : e.closesRegion lower k ≠ true) :
    openRegions lower events k (n + 1) = openRegions lower events k n := by
  rw [openRegions, Nesting.openAt_succ he, Nesting.advance, if_neg hopens, if_neg hcloses]

theorem not_closesRegion_of_opensRegion {k : String} (h : e.opensRegion lower k = true) (j : String) :
    e.closesRegion lower j ≠ true := by
  intro hcloses
  rw [not_opensRegion_of_closesRegion hcloses k] at h
  cases h

theorem regionCount_of_opens (he : events[n]? = some e) {k : String} (hk : k ∈ verbatimTags)
    (h : e.opensRegion lower k = true) :
    regionCount lower events (n + 1) = regionCount lower events n + 1 := by
  have hone := @regionCount_of_one lower events n (n + 1) k hk fun j hj =>
    openRegions_of_neither he (fun hopens => hj (eq_of_opensRegion h hopens)) (not_closesRegion_of_opensRegion h j)
  rw [openRegions_of_opens he h, List.length_cons] at hone
  omega

theorem regionCount_of_closes (he : events[n]? = some e) {k : String} (hk : k ∈ verbatimTags)
    (h : e.closesRegion lower k = true)
    (hown : SomeRegionOpen lower events n → openRegions lower events k n ≠ []) :
    regionCount lower events (n + 1) = regionCount lower events n - 1 := by
  have hone := @regionCount_of_one lower events n (n + 1) k hk fun j hj =>
    openRegions_of_neither he (Bool.eq_false_iff.mp (not_opensRegion_of_closesRegion h j))
      fun hcloses => hj (eq_of_closesRegion h hcloses)
  rw [openRegions_of_closes he h, List.length_tail] at hone
  by_cases hsome : SomeRegionOpen lower events n
  · have hpos := List.length_pos_iff.mpr (hown hsome)
    omega
  · have hzero := regionCount_eq_zero.mpr hsome
    omega

theorem regionCount_of_neither (he : events[n]? = some e)
    (hopens : ∀ k ∈ verbatimTags, e.opensRegion lower k ≠ true)
    (hcloses : ∀ k ∈ verbatimTags, e.closesRegion lower k ≠ true) :
    regionCount lower events (n + 1) = regionCount lower events n := by
  rw [regionCount, regionCount]
  exact congrArg List.sum (List.map_congr_left fun k hk =>
    congrArg List.length (openRegions_of_neither he (hopens k hk) (hcloses k hk)))

/-! ## The run -/

variable (lower events) in
/-- The auditor behind the first `n` events: the depth counts the open elements, and what was outside of all
of them is reported. -/
structure Counts (n : ℕ) (a : Auditor) : Prop where
  depth : a.verbatimDepth = regionCount lower events n
  reported : ∀ line, Reports a.findings "CWE-79" line ↔
    ∃ m < n, ∃ e, events[m]? = some e ∧ line ∈ e.outputLines lower ∧ ¬ SomeRegionOpen lower events m

theorem Counts.step (h : Counts lower events n a) (he : events[n]? = some e)
    (hended : ∀ kind ∈ verbatimTags, e.closesRegion lower kind = true →
      SomeRegionOpen lower events n → openRegions lower events kind n ≠ []) :
    Counts lower events (n + 1) (a.handle lower e) where
  depth := by
    rw [handle_verbatimDepth, h.depth]
    split
    next hopens =>
      obtain ⟨k, hk, hk'⟩ := List.any_eq_true.mp hopens
      exact (regionCount_of_opens he hk hk').symm
    next hopens =>
      split
      next hcloses =>
        obtain ⟨k, hk, hk'⟩ := List.any_eq_true.mp hcloses
        exact (regionCount_of_closes he hk hk' (hended k hk hk')).symm
      next hcloses =>
        exact (regionCount_of_neither he (fun k hk hk' => hopens (List.any_eq_true.mpr ⟨k, hk, hk'⟩))
          fun k hk hk' => hcloses (List.any_eq_true.mpr ⟨k, hk, hk'⟩)).symm
  reported := by
    intro line
    rw [reports_handle_output, h.reported line, h.depth, regionCount_eq_zero]
    constructor
    · rintro (⟨m, hm, hreported⟩ | ⟨hopen, hline⟩)
      · exact ⟨m, by omega, hreported⟩
      · exact ⟨n, by omega, e, he, hline, hopen⟩
    · rintro ⟨m, hm, e', he', hline, hopen⟩
      rcases Nat.lt_succ_iff_lt_or_eq.mp hm with hlt | rfl
      · exact .inl ⟨m, hlt, e', he', hline, hopen⟩
      · rw [he] at he'
        cases he'
        exact .inr ⟨hopen, hline⟩

theorem counts_run (filePath : String) (h : RegionsInPlace lower events) (hn : n ≤ events.length) :
    Counts lower events n (auditor lower filePath (events.take n)) := by
  induction n with
  | zero =>
    refine ⟨rfl, fun line => ?_⟩
    constructor
    · rintro ⟨_, hmem, _⟩
      cases hmem
    · rintro ⟨_, hlt, _⟩
      omega
  | succ n ih =>
    have he : events[n]? = some events[n] := List.getElem?_eq_getElem hn
    rw [auditor, List.take_add_one, he, Option.toList_some, List.foldl_append]
    exact (ih (by omega)).step he (h.ended n _ he)

/-- In every run in which the regions are in place, the outputs reported are those that no verbatim element
encloses which is ended. -/
theorem output_reported_iff_exposed (filePath : String) (h : RegionsInPlace lower events) (line : ℕ) :
    Reports (auditTemplate lower filePath events) "CWE-79" line ↔ ExposedOutputAt lower events line := by
  have hrun := counts_run filePath h (le_refl events.length)
  rw [List.take_length] at hrun
  have hclose : Reports (auditTemplate lower filePath events) "CWE-79" line ↔
      Reports (auditor lower filePath events).findings "CWE-79" line := by
    refine (reports_closeFrames _).trans ?_
    simp
  rw [hclose, hrun.reported line]
  constructor
  · rintro ⟨m, -, e, he, hline, hopen⟩
    refine ⟨m, e, he, hline, fun kind hkind ⟨i, hmem, _⟩ => hopen ⟨kind, hkind, ?_⟩⟩
    exact List.ne_nil_of_mem hmem
  · rintro ⟨m, e, he, hline, hexposed⟩
    refine ⟨m, (List.getElem?_eq_some_iff.mp he).1, e, he, hline, fun hopen => ?_⟩
    obtain ⟨kind, hkind, hregion⟩ := h.closed m e he (List.ne_nil_of_mem hline) hopen
    exact hexposed kind hkind hregion

theorem third_line_pos : 0 < 3 := by decide

theorem fourth_line_pos : 0 < 4 := by decide

/-- `<code>`, an output, `</code>` and another output, a line each. -/
def sampleThenOutput : List Event :=
  [⟨1, .startTag "code".toList [] false, Nat.one_pos⟩,
   ⟨2, .data "{{ x|safe }}".toList, Nat.two_pos⟩,
   ⟨3, .endTag "code".toList, third_line_pos⟩,
   ⟨4, .data "{{ y|safe }}".toList, fourth_line_pos⟩]

theorem output_reported_iff_exposed_sample :
    Reports (auditTemplate (List.map Char.toLower) "page.html" sampleThenOutput) "CWE-79" 4 ↔
      ExposedOutputAt (List.map Char.toLower) sampleThenOutput 4 := by
  refine output_reported_iff_exposed "page.html" ⟨?_, ?_⟩ 4
  · rintro (_ | _ | _ | _ | n) e he kind hkind hcloses -
    · cases he
      cases hcloses
    · cases he
      cases hcloses
    · cases he
      revert kind
      decide
    · cases he
      cases hcloses
    · cases he
  · rintro (_ | _ | _ | _ | n) e he houtput ⟨kind, hkind, hopen⟩
    · cases he
      exact absurd rfl houtput
    · exact ⟨"code", by decide, 0, by decide, 3, by decide, by decide⟩
    · cases he
      exact absurd rfl houtput
    · refine absurd ?_ hopen
      revert kind
      decide
    · cases he

/-- A `<pre>` that nothing ends, and an output. -/
def outputBehindUnclosed : List Event :=
  [⟨1, .startTag "pre".toList [] false, Nat.one_pos⟩, ⟨2, .data "{{ x|safe }}".toList, Nat.two_pos⟩]

/-- The unclosed element hides the output. -/
theorem output_hidden_by_unclosed :
    ¬ ∀ (filePath : String) (events : List Event) (line : ℕ),
      Reports (auditTemplate (List.map Char.toLower) filePath events) "CWE-79" line ↔
        ExposedOutputAt (List.map Char.toLower) events line := by
  intro hall
  have hexposed : ExposedOutputAt (List.map Char.toLower) outputBehindUnclosed 2 := by
    refine ⟨1, _, rfl, by decide, ?_⟩
    rintro kind hkind ⟨i, hmem, n, hlt, hended⟩
    have hsame : ∀ kind ∈ verbatimTags, openRegions (List.map Char.toLower) outputBehindUnclosed kind 1 =
        openRegions (List.map Char.toLower) outputBehindUnclosed kind outputBehindUnclosed.length := by decide
    rw [Nesting.openAt_of_length_le (show outputBehindUnclosed.length ≤ n from hlt), ← openRegions,
      ← hsame kind hkind] at hended
    exact hended hmem
  have hnone : ¬ Reports (auditTemplate (List.map Char.toLower) "page.html" outputBehindUnclosed) "CWE-79" 2 := by
    rw [Reports]
    decide
  exact hnone ((hall "page.html" _ _).mpr hexposed)

end

end TimeCodeSecurity.Html
