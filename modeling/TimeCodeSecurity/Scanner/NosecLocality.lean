import Mathlib.Data.List.Induction
import TimeCodeSecurity.Scanner.Nosec

/-! # What a suppression comment changes

Two scans are compared that differ by one suppression comment at the end of one physical line of one
file. Only a comment in the first file of the table that has a text is seen at all, and it acts on the
calls of every file at its line number. An `open` it silences leaves the reads of its handle without
the record they wait on, so these change as well.
-/
namespace TimeCodeSecurity.Scanner
open TextLines
set_option autoImplicit false

variable {alnum : Char → Bool}

structure NosecComment (alnum : Char → Bool) where
  text : List Char
  hash : text.head? = some '#'
  oneLine : ∀ c ∈ text, isLineBoundary c = false
  marked : nosecSearch alnum text = true

/-- One comment at the end of a physical line: the file's text is `upTo ++ rest` without it. -/
structure NosecEdit (alnum : Char → Bool) where
  earlier : Files
  file : String
  upTo : List Char
  rest : List Char
  later : Files
  comment : NosecComment alnum
  endOfLine : rest = [] ∨ rest.head? = some '\n' ∨ rest.head? = some '\r'
  meets : Meets upTo rest

namespace NosecEdit

variable (E : NosecEdit alnum)

def without : Files := E.earlier ++ (E.file, some (E.upTo ++ E.rest)) :: E.later

def commented : Files :=
  E.earlier ++ (E.file, some (E.upTo ++ E.comment.text ++ E.rest)) :: E.later

def line : ℕ := (pieces isNewline E.upTo).length

/-- The line of the comment as `splitlines` counts lines. -/
def tableLine : ℕ := (pieces isLineBoundary E.upTo).length

def Owns (file : String) (s : CallSite) : Prop := file = E.file ∧ s.node.lineno = E.line

/-- The edited file is the one `is_sink_call` reads. -/
def IsRead : Prop := ∀ f ∈ E.earlier, f.2 = none

end NosecEdit

theorem sourceLines_of_read {earlier later : Files} {file : String} {code : List Char}
    (h : ∀ f ∈ earlier, f.2 = none) :
    sourceLines (earlier ++ (file, some code) :: later) = splitLines isLineBoundary code := by
  have hskip : sourceLinesByFile earlier = [] := by
    rw [sourceLinesByFile, List.filterMap_eq_nil_iff]
    intro f hf
    rw [h f hf]
    rfl
  have happ : sourceLinesByFile (earlier ++ (file, some code) :: later) =
      sourceLinesByFile earlier ++ (file, splitLines isLineBoundary code) :: sourceLinesByFile later := by
    simp [sourceLinesByFile]
  rw [sourceLines, happ, hskip]
  rfl

theorem sourceLines_of_not_read {earlier later later' : Files} (h : ¬∀ f ∈ earlier, f.2 = none) :
    sourceLines (earlier ++ later) = sourceLines (earlier ++ later') := by
  have hne : sourceLinesByFile earlier ≠ [] := by
    intro hnil
    apply h
    intro f hf
    have hf' := List.filterMap_eq_nil_iff.mp hnil f hf
    simpa using hf'
  have happ : ∀ more : Files,
      sourceLinesByFile (earlier ++ more) = sourceLinesByFile earlier ++ sourceLinesByFile more :=
    fun more => by simp [sourceLinesByFile]
  obtain ⟨first, others, hfirst⟩ := List.exists_cons_of_ne_nil hne
  rw [sourceLines, sourceLines, happ, happ, hfirst]
  rfl

theorem nosecOn_splitLines (text : List Char) (n : ℕ) :
    nosecOn alnum (splitLines isLineBoundary text) n =
      (decide (1 ≤ n) && (pieces isLineBoundary text)[n - 1]?.any (nosecSearch alnum)) := by
  rw [nosecOn, any_getElem?_splitLines _ rfl]

theorem nosecSearch_append {text more : List Char} (h : nosecSearch alnum more = true) :
    nosecSearch alnum (text ++ more) = true := by
  induction text with
  | nil => exact h
  | cons c text ih =>
    rw [List.cons_append, nosecSearch, ih, Bool.or_true]

theorem nosecOn_commented (E : NosecEdit alnum) (hread : E.IsRead) (n : ℕ) :
    nosecOn alnum (sourceLines E.commented) n =
      (decide (n = E.tableLine) || nosecOn alnum (sourceLines E.without) n) := by
  obtain ⟨ps, last, tl, hps, hwithout, hcommented⟩ := pieces_insert (by decide : isLineBoundary '\r' = true)
    (by decide) E.endOfLine E.meets E.comment.oneLine
  have hline : E.tableLine = ps.length + 1 := by
    rw [NosecEdit.tableLine, hps, List.length_append, List.length_singleton]
  rw [NosecEdit.commented, NosecEdit.without, sourceLines_of_read hread, sourceLines_of_read hread,
    nosecOn_splitLines, nosecOn_splitLines, hwithout, hcommented, hline]
  rcases Nat.lt_trichotomy n (ps.length + 1) with hn | hn | hn
  · have hne : n ≠ ps.length + 1 := by omega
    by_cases hzero : n = 0
    · simp [hzero]
    · rw [List.getElem?_append_left (by omega), List.getElem?_append_left (by omega)]
      simp [hne]
  · subst hn
    simp [nosecSearch_append E.comment.marked]
  · have hne : n ≠ ps.length + 1 := by omega
    obtain ⟨i, hi⟩ : ∃ i, n - 1 - ps.length = i + 1 := ⟨n - 1 - ps.length - 1, by omega⟩
    rw [List.getElem?_append_right (by omega), List.getElem?_append_right (by omega), hi]
    simp [hne]

/-! ## The verdicts of a scan -/

/-- Asked about `s`, `scan_for_sinks` records the traversal `writer`. -/
def CallSite.reports (marks : ℕ → Bool) (writer : CallNode) (s : CallSite) : Bool :=
  !s.dead && s.node = writer && !marks writer.lineno && s.verdict (fun _ => false) && !s.safe &&
    s.cwe = "CWE-22"

def Event.reportsByScan (marks : ℕ → Bool) (writer : CallNode) : Event → Bool
  | .scan _ _ sites => sites.any (CallSite.reports marks writer)
  | .record _ => false

def Event.reportsByRule (writer : CallNode) : Event → Bool
  | .scan _ _ _ => false
  | .record r => r.node = some writer && r.cwe = "CWE-22"

def reported (marks : ℕ → Bool) (prior : List Event) (writer : CallNode) : Bool :=
  prior.any (Event.reportsByRule writer) || prior.any (Event.reportsByScan marks writer)

theorem recorded_append (rs rs' : List SinkRecord) (w : CallNode) :
    recorded (rs ++ rs') w = (recorded rs w || recorded rs' w) :=
  List.any_append

theorem recorded_records (scopeId file : String) (s : CallSite) (w : CallNode) :
    recorded (s.records scopeId file) w = (decide (s.node = w) && decide (s.cwe = "CWE-22")) := by
  unfold recorded CallSite.records
  split <;> simp

theorem verdict_of_not_read {s : CallSite} (h : s.node.isUnboundedRead = false)
    (known known' : CallNode → Bool) : s.verdict known = s.verdict known' := by
  simp [CallSite.verdict, h]

theorem not_read_of_opener {s : CallSite} {w : CallNode} (h : s.opener = some w) :
    w.isUnboundedRead = false := by
  unfold CallSite.opener at h
  split at h
  · split at h
    · rename_i writer hfind
      split_ifs at h
      obtain rfl := Option.some.inj h
      have hopen := List.find?_some hfind
      simp only [Bool.and_eq_true, decide_eq_true_eq] at hopen
      have hseg := hopen.2
      unfold CallNode.isUnboundedRead
      split
      · rename_i attr hcallee
        rw [hcallee] at hseg
        simp [show attr = "open" from hseg]
      · rfl
    · exact absurd h (by simp)
  · exact absurd h (by simp)

variable {lines : List (List Char)}

theorem recorded_scanCall {w : CallNode} (hw : w.isUnboundedRead = false) (scopeId file : String)
    (records : List SinkRecord) (s : CallSite) :
    recorded (scanCall alnum lines scopeId file records s) w =
      (recorded records w || s.reports (nosecOn alnum lines) w) := by
  unfold scanCall CallSite.reports isSinkCall
  by_cases hnode : s.node = w
  · subst hnode
    rw [verdict_of_not_read hw (recorded records) fun _ => false]
    cases s.dead <;> cases nosecOn alnum lines s.node.lineno <;> cases s.verdict (fun _ => false) <;>
      cases s.safe <;> simp [recorded_append, recorded_records]
  · split_ifs <;> simp [recorded_append, recorded_records, hnode]

theorem recorded_scanCalls {w : CallNode} (hw : w.isUnboundedRead = false) (scopeId file : String)
    (records : List SinkRecord) (sites : List CallSite) :
    recorded (sites.foldl (scanCall alnum lines scopeId file) records) w =
      (recorded records w || sites.any (CallSite.reports (nosecOn alnum lines) w)) := by
  induction sites generalizing records with
  | nil => simp
  | cons s sites ih =>
    rw [List.foldl_cons, ih, recorded_scanCall hw, List.any_cons, Bool.or_assoc]

theorem recorded_apply {w : CallNode} (hw : w.isUnboundedRead = false) (records : List SinkRecord)
    (e : Event) :
    recorded (e.apply alnum lines records) w =
      (recorded records w || reported (nosecOn alnum lines) [e] w) := by
  cases e with
  | scan scopeId file sites =>
    rw [Event.apply, recorded_scanCalls hw]
    simp [reported, Event.reportsByRule, Event.reportsByScan]
  | record r =>
    rw [Event.apply, recorded_append]
    simp [reported, Event.reportsByRule, Event.reportsByScan, recorded]

theorem sinkRecords_concat (prior : List Event) (e : Event) :
    sinkRecords alnum lines (prior ++ [e]) = e.apply alnum lines (sinkRecords alnum lines prior) := by
  rw [sinkRecords, List.foldl_append]
  rfl

theorem recorded_sinkRecords {w : CallNode} (hw : w.isUnboundedRead = false) (prior : List Event) :
    recorded (sinkRecords alnum lines prior) w = reported (nosecOn alnum lines) prior w := by
  induction prior using List.reverseRecOn with
  | nil => rfl
  | append_singleton prior e ih =>
    rw [sinkRecords_concat, recorded_apply hw, ih]
    simp only [reported, List.any_append, List.any_cons, List.any_nil, Bool.or_false]
    ac_rfl

theorem answerIn_eq (files : Files) (prior : List Event) (s : CallSite) :
    answerIn alnum files prior s = (!nosecOn alnum (sourceLines files) s.node.lineno &&
      s.verdict (reported (nosecOn alnum (sourceLines files)) prior)) := by
  generalize hlines : sourceLines files = lines
  have hverdict : s.verdict (recorded (sinkRecords alnum lines prior)) =
      s.verdict (reported (nosecOn alnum lines) prior) := by
    unfold CallSite.verdict readSubordinateToTraversal
    cases hopener : s.opener with
    | none => rfl
    | some w => simp only [recorded_sinkRecords (not_read_of_opener hopener)]
  rw [answerIn, hlines, isSinkCall, hverdict]
  split
  next h => rw [h]; rfl
  next h => simp [h]

theorem reported_eq (marks : ℕ → Bool) (prior : List Event) (w : CallNode) :
    reported marks prior w = (prior.any (Event.reportsByRule w) ||
      !marks w.lineno && prior.any (Event.reportsByScan (fun _ => false) w)) := by
  have hsite : ∀ s : CallSite,
      s.reports marks w = (!marks w.lineno && s.reports (fun _ => false) w) := by
    intro s
    unfold CallSite.reports
    cases marks w.lineno <;> simp
  have hevent : ∀ e : Event,
      e.reportsByScan marks w = (!marks w.lineno && e.reportsByScan (fun _ => false) w) := by
    intro e
    cases e with
    | scan scopeId file sites =>
      simp only [Event.reportsByScan, hsite, List.any_eq_not_all_not]
      cases marks w.lineno <;> simp
    | record r => simp [Event.reportsByScan]
  rw [reported, funext hevent]
  cases marks w.lineno <;> simp

theorem asked_concat {events prior : List Event} {file : String} {s : CallSite} (e : Event)
    (h : Asked events prior file s) : Asked (events ++ [e]) prior file s := by
  obtain ⟨hdead, pre, scopeId, sites, sites', post, rfl, hprior⟩ := h
  exact ⟨hdead, pre, scopeId, sites, sites', post ++ [e], by simp, hprior⟩

theorem scanCall_of_other {scopeId file file' : String} (h : file' ≠ file)
    (records : List SinkRecord) (s : CallSite) :
    (scanCall alnum lines scopeId file' records s).filter (fun r => r.file = file) =
      records.filter fun r => r.file = file := by
  have hnone : (s.records scopeId file').filter (fun r => decide (r.file = file)) = [] := by
    unfold CallSite.records
    split <;> simp [h]
  unfold scanCall
  split_ifs
  · rfl
  · rw [List.filter_append, hnone, List.append_nil]
  · rfl

theorem records_of_agree {files files' : Files} {file : String} (events : List Event)
    (h : ∀ prior s, Asked events prior file s →
      answerIn alnum files prior s = answerIn alnum files' prior s) :
    recordsIn alnum files events file = recordsIn alnum files' events file := by
  unfold recordsIn
  unfold answerIn at h
  generalize sourceLines files = lines at h ⊢
  generalize sourceLines files' = lines' at h ⊢
  induction events using List.reverseRecOn with
  | nil => rfl
  | append_singleton events e ih =>
    have ih := ih fun prior s hs => h prior s (asked_concat e hs)
    rw [sinkRecords_concat, sinkRecords_concat]
    cases e with
    | record r => rw [Event.apply, Event.apply, List.filter_append, List.filter_append, ih]
    | scan scopeId file' sites =>
      -- Along the calls of the expression, with the same invariant.
      suffices hsites : ∀ done todo, sites = done ++ todo →
          (sinkRecords alnum lines (events ++ [.scan scopeId file' done])).filter
              (fun r => r.file = file) =
            (sinkRecords alnum lines' (events ++ [.scan scopeId file' done])).filter
              fun r => r.file = file by
        have hall := hsites sites [] (List.append_nil sites).symm
        rwa [sinkRecords_concat, sinkRecords_concat] at hall
      intro done
      induction done using List.reverseRecOn with
      | nil =>
        intro _ _
        rw [sinkRecords_concat, sinkRecords_concat]
        exact ih
      | append_singleton done s ihdone =>
        intro todo htodo
        have hdone := ihdone (s :: todo) (by rw [htodo]; simp)
        have hstep : ∀ l : List (List Char),
            sinkRecords alnum l (events ++ [.scan scopeId file' (done ++ [s])]) =
              scanCall alnum l scopeId file'
                (sinkRecords alnum l (events ++ [.scan scopeId file' done])) s := by
          intro l
          rw [sinkRecords_concat, sinkRecords_concat, Event.apply, Event.apply, List.foldl_append]
          rfl
        rw [hstep, hstep]
        by_cases hfile : file' = file
        · subst hfile
          unfold scanCall
          by_cases hdead : s.dead = true
          · rw [if_pos hdead, if_pos hdead]
            exact hdone
          · have hasked : Asked (events ++ [.scan scopeId file' sites])
                (events ++ [.scan scopeId file' done]) file' s :=
              ⟨by simpa using hdead, events, scopeId, done, todo, [], by rw [htodo]; simp, rfl⟩
            rw [if_neg hdead, if_neg hdead, h _ s hasked]
            split_ifs
            · rw [List.filter_append, List.filter_append, hdone]
            · exact hdone
        · rw [scanCall_of_other hfile, scanCall_of_other hfile]
          exact hdone

/-! ## Locality -/

/-- The comment changes no verdict but those of the calls on its own line, and no record of another
file. -/
structure NosecLocal (E : NosecEdit alnum) (events : List Event) : Prop where
  verdict : ∀ prior file s, Asked events prior file s →
    answerIn alnum E.without prior s ≠
      answerIn alnum E.commented prior s →
    E.Owns file s
  records : ∀ file, file ≠ E.file →
    recordsIn alnum E.without events file =
      recordsIn alnum E.commented events file

/-- The `open` whose record decides about `s`, when that is what the verdict comes down to. -/
def CallSite.awaits (s : CallSite) : Option CallNode :=
  if s.early = none ∧ s.node.isUnboundedRead ∧ s.safeLocalRead = false then s.opener else none

/-- Every call that `is_sink_call` accepts at the comment's line number stands on the comment's line. -/
def HitsOwnLine (E : NosecEdit alnum) (events : List Event) : Prop :=
  ∀ prior file s, Asked events prior file s → s.node.lineno = E.tableLine →
    s.verdict (reported (nosecOn alnum (sourceLines E.without)) prior) = true → E.Owns file s

/-- No read elsewhere awaits an `open` at that line number that the scan alone has recorded. -/
def KeepsReads (E : NosecEdit alnum) (events : List Event) : Prop :=
  ∀ prior file s w, Asked events prior file s → s.awaits = some w → w.lineno = E.tableLine →
    s.node.lineno ≠ E.tableLine → nosecOn alnum (sourceLines E.without) s.node.lineno = false →
    prior.any (Event.reportsByRule w) = false →
    prior.any (Event.reportsByScan (fun _ => false) w) = true → E.Owns file s

theorem verdict_of_awaits {s : CallSite} {w : CallNode} (h : s.awaits = some w)
    (known : CallNode → Bool) : s.verdict known = !known w := by
  unfold CallSite.awaits at h
  split_ifs at h with hs
  simp [CallSite.verdict, readSubordinateToTraversal, hs.1, hs.2.1, hs.2.2, h]

theorem verdict_of_awaits_none {s : CallSite} (h : s.awaits = none) (known known' : CallNode → Bool) :
    s.verdict known = s.verdict known' := by
  unfold CallSite.awaits at h
  unfold CallSite.verdict readSubordinateToTraversal
  cases hearly : s.early with
  | some b => rfl
  | none =>
    cases hread : s.node.isUnboundedRead
    · rfl
    · cases hsafe : s.safeLocalRead
      · rw [if_pos ⟨hearly, hread, hsafe⟩] at h
        rw [h]
      · rfl

theorem answerIn_ne_iff (E : NosecEdit alnum) (hread : E.IsRead)
    (hmark : nosecOn alnum (sourceLines E.without) E.tableLine = false) (prior : List Event)
    (s : CallSite) :
    answerIn alnum E.without prior s ≠ answerIn alnum E.commented prior s ↔
    (s.node.lineno = E.tableLine ∧
      s.verdict (reported (nosecOn alnum (sourceLines E.without)) prior) = true) ∨
    (s.node.lineno ≠ E.tableLine ∧ nosecOn alnum (sourceLines E.without) s.node.lineno = false ∧
      ∃ w, s.awaits = some w ∧ w.lineno = E.tableLine ∧
        prior.any (Event.reportsByRule w) = false ∧
        prior.any (Event.reportsByScan (fun _ => false) w) = true) := by
  have hmarks := nosecOn_commented E hread
  rw [answerIn_eq, answerIn_eq, hmarks]
  by_cases hline : s.node.lineno = E.tableLine
  · rw [hline, hmark]
    simp
  · simp only [hline, decide_false, Bool.false_or, false_and, false_or, ne_eq, not_false_eq_true,
      true_and]
    cases hown : nosecOn alnum (sourceLines E.without) s.node.lineno
    swap
    · simp
    cases hawaits : s.awaits with
    | none =>
      rw [verdict_of_awaits_none hawaits (reported (nosecOn alnum (sourceLines E.without)) prior)
        (reported (nosecOn alnum (sourceLines E.commented)) prior)]
      simp
    | some w =>
      rw [verdict_of_awaits hawaits, verdict_of_awaits hawaits, reported_eq, reported_eq _ prior w,
        hmarks]
      by_cases hopen : w.lineno = E.tableLine
      · rw [hopen, hmark]
        simp [hopen]
      · simp [hopen]

theorem nosecLocal_of_same_marks {E : NosecEdit alnum} (events : List Event)
    (h : nosecOn alnum (sourceLines E.commented) = nosecOn alnum (sourceLines E.without)) :
    NosecLocal E events := by
  have hequal : ∀ prior s, answerIn alnum E.without prior s = answerIn alnum E.commented prior s := by
    intro prior s
    rw [answerIn_eq, answerIn_eq, h]
  exact ⟨fun prior _ s _ hne => absurd (hequal prior s) hne,
    fun _ _ => records_of_agree events fun prior s _ => hequal prior s⟩

theorem nosecLocal_iff (E : NosecEdit alnum) (events : List Event) :
    NosecLocal E events ↔
      ¬E.IsRead ∨ nosecOn alnum (sourceLines E.without) E.tableLine = true ∨
        HitsOwnLine E events ∧ KeepsReads E events := by
  by_cases hread : E.IsRead
  swap
  · have hlines : sourceLines E.without = sourceLines E.commented := sourceLines_of_not_read hread
    simp only [hread, not_false_eq_true, true_or, iff_true]
    exact nosecLocal_of_same_marks events (by rw [hlines])
  have hmarks := nosecOn_commented E hread
  cases hmark : nosecOn alnum (sourceLines E.without) E.tableLine
  · have hchanged := answerIn_ne_iff E hread hmark
    simp only [hread, not_true_eq_false, Bool.false_eq_true, false_or]
    constructor
    · intro hlocal
      constructor
      · intro prior file s hasked hline hverdict
        exact hlocal.verdict prior file s hasked
          ((hchanged prior s).mpr (Or.inl ⟨hline, hverdict⟩))
      · intro prior file s w hasked hawaits hopen hline hown hrule hscan
        exact hlocal.verdict prior file s hasked
          ((hchanged prior s).mpr (Or.inr ⟨hline, hown, w, hawaits, hopen, hrule, hscan⟩))
    · rintro ⟨hhits, hkeeps⟩
      have hverdict : ∀ prior file s, Asked events prior file s →
          answerIn alnum E.without prior s ≠ answerIn alnum E.commented prior s →
          E.Owns file s := by
        intro prior file s hasked hne
        rcases (hchanged prior s).mp hne with ⟨hline, h⟩ | ⟨hline, hown, w, hawaits, hopen, h⟩
        · exact hhits prior file s hasked hline h
        · exact hkeeps prior file s w hasked hawaits hopen hline hown h.1 h.2
      refine ⟨hverdict, fun file hfile => records_of_agree events fun prior s hasked => ?_⟩
      by_contra hne
      exact hfile (hverdict prior file s hasked hne).1
  · -- The line is marked anyway.
    simp only [true_or, or_true, iff_true]
    refine nosecLocal_of_same_marks events ?_
    funext n
    rw [hmarks]
    by_cases hn : n = E.tableLine
    · rw [hn, hmark, Bool.or_true]
    · simp [hn]

/-! ## A comment that silences another file

`a.py` is `x = 1`; `b.py` runs a command on its own line 1.
-/

def nosecText : NosecComment Char.isAlphanum where
  text := "# nosec".toList
  hash := by decide
  oneLine := by
    intro c hc
    have hall : "# nosec".toList.all (fun c => !isLineBoundary c) = true := by decide
    simpa only [Bool.not_eq_true'] using List.all_eq_true.mp hall c hc
  marked := by decide

def firstFileEdit : NosecEdit Char.isAlphanum where
  earlier := []
  file := "a.py"
  upTo := "x = 1  ".toList
  rest := []
  later := [("b.py", some "__import__('os').system(input())".toList)]
  comment := nosecText
  endOfLine := Or.inl rfl
  meets := fun h => absurd h.2 (by decide)

def systemCall : CallSite where
  node := ⟨0, 1, .attribute none "system", 1⟩
  late := true
  cwe := "CWE-78"

theorem nosecLocal_fails_across_files :
    ¬NosecLocal firstFileEdit [.scan "b:global" "b.py" [systemCall]] := by
  intro hlocal
  have hrecords := hlocal.records "b.py" (by decide)
  exact absurd hrecords (by decide)

end TimeCodeSecurity.Scanner
