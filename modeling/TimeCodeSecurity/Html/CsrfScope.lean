import TimeCodeSecurity.Foundations.Nesting
import TimeCodeSecurity.Html.Auditor

/-! # Which form a token protects

The auditor keeps a frame for each open state-changing form, and the first `</form>` takes the innermost frame
whatever form it closes. Here every form is kept. The two agree as long as neither a `</form>` nor a token comes
directly inside a form of another method that stands in a state-changing one.
-/
namespace TimeCodeSecurity.Html
open Pep440 (strip)
set_option autoImplicit false

section

variable (lower : Text → Text)

def Event.opensForm (e : Event) : Bool :=
  match e.markup with
  | .startTag tag _ _ => decide (lower tag = "form".toList)
  | _ => false

def Event.closesForm (e : Event) : Bool :=
  match e.markup with
  | .endTag tag => decide (lower tag = "form".toList)
  | _ => false

def Event.opensStateChanging (e : Event) : Bool :=
  match e.markup with
  | .startTag tag attrs _ => decide (lower tag = "form".toList) && isStateChanging lower attrs
  | _ => false

def Event.isToken (e : Event) : Bool :=
  match e.markup with
  | .startTag tag attrs _ => isTokenField lower (lower tag) attrs
  | .endTag _ => false
  | .data text => decide (text ≠ []) && holdsMarker lower text

/-- The forms open before the `n`-th event, innermost first. -/
abbrev openForms (events : List Event) (n : ℕ) : List ℕ :=
  Nesting.openAt (Event.opensForm lower) (Event.closesForm lower) events n

def stateChangingAt (events : List Event) (i : ℕ) : Bool := events[i]?.any (Event.opensStateChanging lower)

/-- One of the first `n` events is a token whose innermost open form is the `i`-th. -/
def tokenWithin (events : List Event) (n i : ℕ) : Bool :=
  (List.range n).any fun j => events[j]?.any (Event.isToken lower) && (openForms lower events j).head? = some i

/-- A state-changing form at the line has no token in its own content. -/
def UnprotectedFormAt (events : List Event) (line : ℕ) : Prop :=
  ∃ i e, events[i]? = some e ∧ e.opensStateChanging lower = true ∧ e.line = line ∧
    tokenWithin lower events events.length i = false

def OtherInStateChanging (events : List Event) (n : ℕ) : Prop :=
  ∃ i rest, openForms lower events n = i :: rest ∧ stateChangingAt lower events i = false ∧
    ∃ k ∈ rest, stateChangingAt lower events k = true

variable {lower} {a : Auditor} {e : Event} {L : ℕ}

theorem opensForm_of_stateChanging (h : e.opensStateChanging lower = true) : e.opensForm lower = true := by
  rcases e with ⟨_, _ | _ | _, _⟩
  · exact (Bool.and_eq_true_iff.mp h).1
  · cases h
  · cases h

theorem not_closesForm_of_opensForm (h : e.opensForm lower = true) : e.closesForm lower = false := by
  rcases e with ⟨_, _ | _ | _, _⟩
  · rfl
  · cases h
  · cases h

theorem not_isToken_of_closesForm (h : e.closesForm lower = true) : e.isToken lower = false := by
  rcases e with ⟨_, _ | _ | _, _⟩
  · cases h
  · rfl
  · cases h

theorem not_isToken_of_opensForm (h : e.opensForm lower = true) : e.isToken lower = false := by
  rcases e with ⟨_, ⟨tag, attrs, _⟩ | _ | _, _⟩
  · have htag : lower tag = "form".toList := of_decide_eq_true h
    show isTokenField lower (lower tag) attrs = false
    rw [htag]
    rfl
  · cases h
  · cases h

theorem handle_formFrames : (a.handle lower e).formFrames =
    if e.opensStateChanging lower then (e.line, false) :: a.formFrames
    else if e.closesForm lower then a.formFrames.tail
    else if e.isToken lower then markFrame a.formFrames else a.formFrames := by
  rcases e with ⟨line, ⟨tag, attrs, selfClosing⟩ | tag | text, _⟩
  · refine (handleStarttag_formFrames lower tag attrs selfClosing).trans ?_
    simp only [Event.opensStateChanging, Event.closesForm, Event.isToken, Bool.and_eq_true, decide_eq_true_eq]
    rfl
  · refine (handleEndtag_formFrames lower tag).trans ?_
    simp [Event.opensStateChanging, Event.closesForm, Event.isToken]
  · refine (handleData_formFrames lower text).trans ?_
    simp [Event.opensStateChanging, Event.closesForm, Event.isToken]

theorem reports_handle : Reports (a.handle lower e).findings "CWE-352" L ↔
    Reports a.findings "CWE-352" L ∨
      e.closesForm lower = true ∧ ∃ frame ∈ a.formFrames.head?, frame.2 = false ∧ L = max 1 frame.1 := by
  rcases e with ⟨line, ⟨tag, attrs, selfClosing⟩ | tag | text, _⟩
  · refine (reports_handleStarttag lower (by decide) tag attrs selfClosing).trans ?_
    simp [Event.closesForm]
  · refine (reports_handleEndtag lower tag).trans ?_
    simp [Event.closesForm]
  · refine (reports_handleData lower text).trans ?_
    simp [Event.closesForm]

variable {events : List Event} {n i : ℕ}

theorem tokenWithin_succ {e : Event} (he : events[n]? = some e) : tokenWithin lower events (n + 1) i =
    (tokenWithin lower events n i || e.isToken lower && (openForms lower events n).head? = some i) := by
  rw [tokenWithin, List.range_succ, List.any_append, ← tokenWithin]
  simp [he]

theorem tokenWithin_of_not_isToken {e : Event} (he : events[n]? = some e) (h : e.isToken lower = false) :
    tokenWithin lower events (n + 1) i = tokenWithin lower events n i := by
  rw [tokenWithin_succ he, h, Bool.false_and, Bool.or_false]

theorem tokenWithin_of_head {e : Event} (he : events[n]? = some e)
    (h : (openForms lower events n).head? ≠ some i) :
    tokenWithin lower events (n + 1) i = tokenWithin lower events n i := by
  rw [tokenWithin_succ he, decide_eq_false h, Bool.and_false, Bool.or_false]

theorem tokenWithin_self (h : n ≤ i) : tokenWithin lower events n i = false := by
  rw [tokenWithin, List.any_eq_false]
  intro j hj hboth
  have hhead := of_decide_eq_true (Bool.and_eq_true_iff.mp hboth).2
  have hlt := (Nesting.started_of_mem (List.mem_of_head? hhead)).1
  have hjn := List.mem_range.mp hj
  omega

variable (lower events) in
def frameOf (n i : ℕ) : Option (ℕ × Bool) :=
  events[i]?.bind fun e => if e.opensStateChanging lower then some (e.line, tokenWithin lower events n i) else none

variable (lower events) in
/-- A state-changing form at the line was ended within the first `n` events and held no token. -/
def EndedUnprotected (n line : ℕ) : Prop :=
  ∃ i e, i < n ∧ events[i]? = some e ∧ e.opensStateChanging lower = true ∧ e.line = line ∧
    i ∉ openForms lower events n ∧ tokenWithin lower events n i = false

variable (lower events) in
/-- The auditor's state behind the first `n` events is that of all forms. -/
structure Tracks (n : ℕ) (a : Auditor) : Prop where
  frames : a.formFrames = (openForms lower events n).filterMap (frameOf lower events n)
  ended : ∀ line, Reports a.findings "CWE-352" line ↔ EndedUnprotected lower events n line

theorem frameOf_of_tokenWithin (h : tokenWithin lower events (n + 1) i = tokenWithin lower events n i) :
    frameOf lower events (n + 1) i = frameOf lower events n i := by
  rw [frameOf, frameOf, h]

theorem frameOf_eq_none (h : stateChangingAt lower events i = false) : frameOf lower events n i = none := by
  rw [stateChangingAt] at h
  rw [frameOf]
  cases hi : events[i]? with
  | none => rfl
  | some e =>
    rw [hi] at h
    have hplain : e.opensStateChanging lower = false := h
    simp [hplain]

theorem filterMap_eq_nil {stack : List ℕ} (h : ∀ k ∈ stack, stateChangingAt lower events k = false) :
    stack.filterMap (frameOf lower events n) = [] :=
  List.filterMap_eq_nil_iff.mpr fun k hk => frameOf_eq_none (h k hk)

theorem frameOf_eq_some (h : stateChangingAt lower events i = true) : ∃ e, events[i]? = some e ∧
    e.opensStateChanging lower = true ∧ frameOf lower events n i = some (e.line, tokenWithin lower events n i) := by
  rw [stateChangingAt, Option.any_eq_true] at h
  obtain ⟨e, he, hopens⟩ := h
  refine ⟨e, he, hopens, ?_⟩
  rw [frameOf, he]
  simp [hopens]

theorem filterMap_of_not_other {rest : List ℕ} (hopen : openForms lower events n = i :: rest)
    (h : ¬ OtherInStateChanging lower events n) (hplain : stateChangingAt lower events i = false) :
    ∀ m, rest.filterMap (frameOf lower events m) = [] := by
  intro m
  apply filterMap_eq_nil
  intro k hk
  by_contra hne
  exact h ⟨i, rest, hopen, hplain, k, hk, Bool.eq_true_of_not_eq_false hne⟩

/-! ## One event -/

section

variable {e : Event} {L : ℕ}

theorem openForms_of_opensForm (he : events[n]? = some e) (h : e.opensForm lower = true) :
    openForms lower events (n + 1) = n :: openForms lower events n := by
  rw [openForms, Nesting.openAt_succ he, Nesting.advance, if_pos h]

theorem openForms_of_closesForm (he : events[n]? = some e) (h : e.closesForm lower = true) :
    openForms lower events (n + 1) = (openForms lower events n).tail := by
  have hopens : e.opensForm lower ≠ true := by
    intro hopens
    rw [not_closesForm_of_opensForm hopens] at h
    cases h
  rw [openForms, Nesting.openAt_succ he, Nesting.advance, if_neg hopens, if_pos h]

theorem openForms_of_neither (he : events[n]? = some e) (hopens : e.opensForm lower = false)
    (hcloses : e.closesForm lower = false) : openForms lower events (n + 1) = openForms lower events n := by
  rw [openForms, Nesting.openAt_succ he, Nesting.advance, hopens, hcloses]
  rfl

theorem formEnds_iff (he : events[n]? = some e) (h : i ∈ openForms lower events n) :
    i ∉ openForms lower events (n + 1) ↔
      e.closesForm lower = true ∧ ∃ rest, openForms lower events n = i :: rest := by
  have hends : i ∉ openForms lower events (n + 1) ↔ e.opensForm lower = false ∧ e.closesForm lower = true ∧
      (openForms lower events n).head? = some i := Nesting.ended_iff he h
  rw [hends, List.head?_eq_some_iff]
  refine and_iff_right_of_imp fun hcloses => Bool.eq_false_iff.mpr fun hopens => ?_
  rw [not_closesForm_of_opensForm hopens] at hcloses
  cases hcloses.1

theorem endedUnprotected_succ (he : events[n]? = some e) : EndedUnprotected lower events (n + 1) L ↔
    EndedUnprotected lower events n L ∨ e.closesForm lower = true ∧ ∃ i rest start,
      openForms lower events n = i :: rest ∧ events[i]? = some start ∧ start.opensStateChanging lower = true ∧
      start.line = L ∧ tokenWithin lower events n i = false := by
  constructor
  · rintro ⟨i, start, hlt, hstart, hstate, hline, hmem, htoken⟩
    have hbefore : tokenWithin lower events n i = false := by
      rw [tokenWithin_succ he, Bool.or_eq_false_iff] at htoken
      exact htoken.1
    have hne : i ≠ n := by
      rintro rfl
      rw [he] at hstart
      cases hstart
      rw [openForms_of_opensForm he (opensForm_of_stateChanging hstate)] at hmem
      exact hmem List.mem_cons_self
    by_cases hopen : i ∈ openForms lower events n
    · obtain ⟨hcloses, rest, hstack⟩ := (formEnds_iff he hopen).mp hmem
      exact .inr ⟨hcloses, i, rest, start, hstack, hstart, hstate, hline, hbefore⟩
    · exact .inl ⟨i, start, by omega, hstart, hstate, hline, hopen, hbefore⟩
  · rintro (⟨i, start, hlt, hstart, hstate, hline, hmem, htoken⟩ |
      ⟨hcloses, i, rest, start, hstack, hstart, hstate, hline, htoken⟩)
    · refine ⟨i, start, by omega, hstart, hstate, hline, ?_, ?_⟩
      · exact fun hopen => hmem (Nesting.mem_of_le hlt (Nat.le_succ n) hopen)
      · rw [tokenWithin_of_head he fun h => hmem (List.mem_of_head? h)]
        exact htoken
    · have hopen : i ∈ openForms lower events n := hstack ▸ List.mem_cons_self
      refine ⟨i, start, ?_, hstart, hstate, hline, (formEnds_iff he hopen).mpr ⟨hcloses, rest, hstack⟩, ?_⟩
      · have hlt := (Nesting.started_of_mem hopen).1
        omega
      · rw [tokenWithin_of_not_isToken he (not_isToken_of_closesForm hcloses)]
        exact htoken

theorem Tracks.head_iff (h : Tracks lower events n a) (hother : ¬ OtherInStateChanging lower events n) :
    (∃ frame ∈ a.formFrames.head?, frame.2 = false ∧ L = max 1 frame.1) ↔ ∃ i rest start,
      openForms lower events n = i :: rest ∧ events[i]? = some start ∧ start.opensStateChanging lower = true ∧
      start.line = L ∧ tokenWithin lower events n i = false := by
  rw [h.frames]
  cases hstack : openForms lower events n with
  | nil => simp
  | cons i rest =>
    by_cases hstate : stateChangingAt lower events i = true
    · obtain ⟨start, hstart, hopens, hframe⟩ := frameOf_eq_some (n := n) hstate
      have hpos := start.positive
      rw [List.filterMap_cons_some hframe, List.head?_cons]
      constructor
      · rintro ⟨frame, hmem, htoken, hline⟩
        cases hmem
        exact ⟨i, rest, start, rfl, hstart, hopens, by omega, htoken⟩
      · rintro ⟨i', rest', start', heq, hstart', -, hline, htoken⟩
        cases heq
        rw [hstart] at hstart'
        cases hstart'
        exact ⟨_, rfl, htoken, by omega⟩
    · have hplain := Bool.eq_false_iff.mpr hstate
      rw [List.filterMap_cons_none (frameOf_eq_none hplain), filterMap_of_not_other hstack hother hplain]
      constructor
      · rintro ⟨_, hmem, _⟩
        cases hmem
      · rintro ⟨i', rest', start', heq, hstart', hopens, -⟩
        cases heq
        rw [stateChangingAt, hstart'] at hplain
        rw [show start'.opensStateChanging lower = false from hplain] at hopens
        cases hopens

theorem frames_of_closesForm (h : Tracks lower events n a) (he : events[n]? = some e)
    (hother : ¬ OtherInStateChanging lower events n) (hcloses : e.closesForm lower = true) :
    a.formFrames.tail = (openForms lower events (n + 1)).filterMap (frameOf lower events (n + 1)) := by
  have hsame : frameOf lower events (n + 1) = frameOf lower events n := funext fun k =>
    frameOf_of_tokenWithin (tokenWithin_of_not_isToken he (not_isToken_of_closesForm hcloses))
  rw [h.frames, openForms_of_closesForm he hcloses, hsame]
  cases hstack : openForms lower events n with
  | nil => rfl
  | cons i rest =>
    by_cases hstate : stateChangingAt lower events i = true
    · obtain ⟨start, -, -, hframe⟩ := frameOf_eq_some (n := n) hstate
      rw [List.filterMap_cons_some hframe]
      rfl
    · have hplain := Bool.eq_false_iff.mpr hstate
      have hnone := filterMap_of_not_other hstack hother hplain n
      rw [List.filterMap_cons_none (frameOf_eq_none hplain), List.tail_cons, hnone]
      rfl

theorem frames_of_isToken (h : Tracks lower events n a) (he : events[n]? = some e)
    (hother : ¬ OtherInStateChanging lower events n) (htoken : e.isToken lower = true) :
    markFrame a.formFrames = (openForms lower events n).filterMap (frameOf lower events (n + 1)) := by
  have hnodup : (openForms lower events n).Nodup := Nesting.nodup_openAt n
  rw [h.frames]
  cases hstack : openForms lower events n with
  | nil => rfl
  | cons i rest =>
    rw [hstack] at hnodup
    by_cases hstate : stateChangingAt lower events i = true
    · obtain ⟨start, hstart, hopens, hframe⟩ := frameOf_eq_some (n := n) hstate
      obtain ⟨start', hstart', -, hframe'⟩ := frameOf_eq_some (n := n + 1) hstate
      rw [hstart] at hstart'
      cases hstart'
      have hmarked : tokenWithin lower events (n + 1) i = true := by
        rw [tokenWithin_succ he, htoken, hstack]
        simp
      have hrest : rest.filterMap (frameOf lower events (n + 1)) = rest.filterMap (frameOf lower events n) := by
        refine List.filterMap_congr fun k hk => frameOf_of_tokenWithin (tokenWithin_of_head he ?_)
        rw [hstack]
        rintro heq
        cases heq
        exact (List.nodup_cons.mp hnodup).1 hk
      rw [List.filterMap_cons_some hframe, List.filterMap_cons_some hframe', hmarked, hrest]
      rfl
    · have hplain := Bool.eq_false_iff.mpr hstate
      have hnone := filterMap_of_not_other hstack hother hplain
      rw [List.filterMap_cons_none (frameOf_eq_none hplain), hnone,
        List.filterMap_cons_none (frameOf_eq_none hplain), hnone]
      rfl

theorem frames_of_opensForm (h : Tracks lower events n a) (he : events[n]? = some e)
    (hopens : e.opensForm lower = true) :
    (if e.opensStateChanging lower then (e.line, false) :: a.formFrames else a.formFrames) =
      (openForms lower events (n + 1)).filterMap (frameOf lower events (n + 1)) := by
  have hkeep : ∀ k, tokenWithin lower events (n + 1) k = tokenWithin lower events n k := fun k =>
    tokenWithin_of_not_isToken he (not_isToken_of_opensForm hopens)
  have hsame : frameOf lower events (n + 1) = frameOf lower events n := funext fun k =>
    frameOf_of_tokenWithin (hkeep k)
  rw [openForms_of_opensForm he hopens, hsame, h.frames]
  split
  next hstate =>
    have hframe : frameOf lower events n n = some (e.line, false) := by
      have hself : tokenWithin lower events n n = false := tokenWithin_self (le_refl n)
      rw [frameOf, he, ← hself]
      simp [hstate]
    rw [List.filterMap_cons_some hframe]
  next hstate =>
    have hplain : stateChangingAt lower events n = false := by
      rw [stateChangingAt, he]
      exact Bool.eq_false_iff.mpr hstate
    rw [List.filterMap_cons_none (frameOf_eq_none hplain)]

theorem Tracks.step (h : Tracks lower events n a) (he : events[n]? = some e)
    (hother : e.closesForm lower = true ∨ e.isToken lower = true → ¬ OtherInStateChanging lower events n) :
    Tracks lower events (n + 1) (a.handle lower e) where
  frames := by
    rw [handle_formFrames]
    by_cases hopens : e.opensForm lower = true
    · rw [not_closesForm_of_opensForm hopens, not_isToken_of_opensForm hopens]
      exact frames_of_opensForm h he hopens
    have hstate : e.opensStateChanging lower ≠ true := fun hstate => hopens (opensForm_of_stateChanging hstate)
    rw [if_neg hstate]
    by_cases hcloses : e.closesForm lower = true
    · rw [if_pos hcloses]
      exact frames_of_closesForm h he (hother (.inl hcloses)) hcloses
    rw [if_neg hcloses, openForms_of_neither he (Bool.eq_false_iff.mpr hopens) (Bool.eq_false_iff.mpr hcloses)]
    by_cases htoken : e.isToken lower = true
    · rw [if_pos htoken]
      exact frames_of_isToken h he (hother (.inr htoken)) htoken
    · rw [if_neg htoken, h.frames]
      exact List.filterMap_congr fun k _ =>
        (frameOf_of_tokenWithin (tokenWithin_of_not_isToken he (Bool.eq_false_iff.mpr htoken))).symm
  ended := by
    intro line
    rw [reports_handle, endedUnprotected_succ he, h.ended line]
    refine or_congr_right (and_congr_right fun hcloses => ?_)
    exact h.head_iff (hother (.inl hcloses))

end

/-! ## The whole run -/

/-- No `</form>` and no token comes directly inside a form of another method in a state-changing one. -/
def TokensInPlace (lower : Text → Text) (events : List Event) : Prop :=
  ∀ n e, events[n]? = some e → e.closesForm lower = true ∨ e.isToken lower = true →
    ¬ OtherInStateChanging lower events n

theorem tracks_run (filePath : String) (h : TokensInPlace lower events) (hn : n ≤ events.length) :
    Tracks lower events n (auditor lower filePath (events.take n)) := by
  induction n with
  | zero =>
    refine ⟨rfl, fun line => ?_⟩
    constructor
    · rintro ⟨_, hmem, _⟩
      cases hmem
    · rintro ⟨_, _, hlt, _⟩
      omega
  | succ n ih =>
    have he : events[n]? = some events[n] := List.getElem?_eq_getElem hn
    rw [auditor, List.take_add_one, he, Option.toList_some, List.foldl_append]
    exact (ih (by omega)).step he (h n _ he)

theorem reports_close (a : Auditor) (L : ℕ) : Reports a.close.findings "CWE-352" L ↔
    Reports a.findings "CWE-352" L ∨ ∃ frame ∈ a.formFrames, frame.2 = false ∧ L = max 1 frame.1 := by
  refine (reports_closeFrames a.formFrames).trans ?_
  simp

/-- In every run in which the tokens are in place, the auditor holds a missing token at a line just when a
state-changing form there has none in its own content. -/
theorem csrf_reported_iff_unprotected (filePath : String) (h : TokensInPlace lower events) (line : ℕ) :
    Reports (auditTemplate lower filePath events) "CWE-352" line ↔ UnprotectedFormAt lower events line := by
  have hrun := tracks_run filePath h (le_refl events.length)
  rw [List.take_length] at hrun
  rw [auditTemplate, reports_close, hrun.ended line, hrun.frames]
  constructor
  · rintro (⟨i, e, _, he, hstate, hline, _, htoken⟩ | ⟨frame, hmem, htoken, hline⟩)
    · exact ⟨i, e, he, hstate, hline, htoken⟩
    · obtain ⟨i, -, hframe⟩ := List.mem_filterMap.mp hmem
      rw [frameOf] at hframe
      obtain ⟨e, he, hsome⟩ := Option.bind_eq_some_iff.mp hframe
      split at hsome
      next hstate =>
        cases hsome
        have hpos := e.positive
        exact ⟨i, e, he, hstate, by omega, htoken⟩
      · cases hsome
  · rintro ⟨i, e, he, hstate, hline, htoken⟩
    by_cases hopen : i ∈ openForms lower events events.length
    · right
      have hpos := e.positive
      have hframe : frameOf lower events events.length i = some (e.line, false) := by
        rw [frameOf, he, ← htoken]
        simp [hstate]
      exact ⟨(e.line, false), List.mem_filterMap.mpr ⟨i, hopen, hframe⟩, rfl, by omega⟩
    · exact .inl ⟨i, e, (List.getElem?_eq_some_iff.mp he).1, he, hstate, hline, hopen, htoken⟩

/-- A form with a token around a search form without one. -/
theorem csrf_reported_iff_unprotected_inner_form :
    Reports (auditTemplate (List.map Char.toLower) "page.html"
      [⟨1, .startTag "form".toList [("method".toList, some "POST".toList)] false, by decide⟩,
       ⟨2, .startTag "input".toList [("name".toList, some "csrfmiddlewaretoken".toList)] false, by decide⟩,
       ⟨3, .startTag "form".toList [] false, by decide⟩]) "CWE-352" 1 ↔
    UnprotectedFormAt (List.map Char.toLower)
      [⟨1, .startTag "form".toList [("method".toList, some "POST".toList)] false, by decide⟩,
       ⟨2, .startTag "input".toList [("name".toList, some "csrfmiddlewaretoken".toList)] false, by decide⟩,
       ⟨3, .startTag "form".toList [] false, by decide⟩] 1 := by
  refine csrf_reported_iff_unprotected "page.html" ?_ 1
  rintro (_ | _ | _ | n) e he hplace ⟨i, rest, hopen, hplain, k, hk, -⟩
  · cases hopen
  · cases hopen
    cases hk
  · cases hopen
    cases hk
  · cases he

/-- `<form method=post> <form> </form> {% csrf_token %} </form>`, a line each. -/
def tokenBehindInnerForm : List Event :=
  [⟨1, .startTag "form".toList [("method".toList, some "post".toList)] false, by decide⟩,
   ⟨2, .startTag "form".toList [] false, by decide⟩,
   ⟨3, .endTag "form".toList, by decide⟩,
   ⟨4, .data "{% csrf_token %}".toList, by decide⟩,
   ⟨5, .endTag "form".toList, by decide⟩]

/-- The inner `</form>` takes the outer form's frame, before its token. -/
theorem csrf_reported_in_protected_form :
    ¬ ∀ (filePath : String) (events : List Event) (line : ℕ),
      Reports (auditTemplate (List.map Char.toLower) filePath events) "CWE-352" line ↔
        UnprotectedFormAt (List.map Char.toLower) events line := by
  intro hall
  have hreports : Reports (auditTemplate (List.map Char.toLower) "page.html" tokenBehindInnerForm) "CWE-352" 1 := by
    rw [Reports]
    decide
  obtain ⟨i, e, he, hstate, -, htoken⟩ := (hall _ _ _).mp hreports
  rcases i with _ | _ | _ | _ | _ | i
  · exact absurd htoken (by decide)
  · cases he
    exact absurd hstate (by decide)
  all_goals
    cases he
    try cases hstate

end

end TimeCodeSecurity.Html
