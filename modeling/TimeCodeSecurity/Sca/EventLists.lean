import TimeCodeSecurity.Foundations.EventIntervals
import TimeCodeSecurity.Foundations.VersionOrder
import TimeCodeSecurity.Sca.OverlapSoundness

/-! # Event lists as OSV defines them

`OsvAffected` is the evaluation the OSV format prescribes for a list of events.
`extract_intervals_from_events` cuts the list into intervals instead, and forgets the introduction once
an interval is closed. So a second fix after one introduction leaves an interval without a start, and
a repeated introduction leaves one without an end. No affected version is missed
(`inInterval_of_affected`); which lists report nothing else is `intervals_exact_iff`.
-/
namespace TimeCodeSecurity.Sca
open Pep440 EventIntervals
set_option autoImplicit false

def eventKey : Kind → String
  | .introduced => "introduced"
  | .fixed => "fixed"
  | .lastAffected => "last_affected"
  | .limit => "limit"

/-- One event of an OSV list: its kind, the text under its key, and the version this text denotes. -/
structure OsvEvent where
  kind : Kind
  text : String
  version : Version
  reads : safeParseVersion (stripText text) = some version

namespace OsvEvent

def raw (e : OsvEvent) : RawEvent := .dict [(eventKey e.kind, e.text)]

theorem isVersion (e : OsvEvent) : IsVersion e.version := isVersion_of_safeParse e.reads

end OsvEvent

def position (v : Version) (hv : IsVersion v) : VersionKey := ⟨v.key, hv.imp fun _ h => ⟨v, h, rfl⟩⟩

def OsvEvent.event (e : OsvEvent) : Event VersionKey := ⟨e.kind, position e.version e.isVersion⟩

def OsvAffected (events : List OsvEvent) (v : Version) : Prop :=
  (∃ i after, i :: after <:+ events ∧ i.kind = .introduced ∧ i.version.key ≤ v.key ∧
    (∀ j ∈ after, j.kind = .introduced → ¬ j.version.key ≤ v.key) ∧
    (∀ e ∈ after, e.kind = .fixed → ¬ e.version.key ≤ v.key) ∧
    ∀ e ∈ after, e.kind = .lastAffected → ¬ e.version.key < v.key) ∧
  ∀ e ∈ events, e.kind = .limit → v.key < e.version.key

def InSomeInterval (events : List OsvEvent) (v : Version) : Prop :=
  (extractIntervalsFromEvents (events.map OsvEvent.raw)).any (isVersionInInterval v) = true

instance (events : List OsvEvent) (v : Version) : Decidable (InSomeInterval events v) :=
  inferInstanceAs (Decidable (_ = true))

/-- The matcher reads the list as OSV defines it. -/
def ReadAsDefined (events : List OsvEvent) : Prop :=
  ∀ v, IsVersion v → (InSomeInterval events v ↔ OsvAffected events v)

section
variable {v : Version} (hv : IsVersion v)

theorem past_event (e : OsvEvent) : e.event.Past (position v hv) ↔
    if e.kind = .lastAffected then e.version.key < v.key else e.version.key ≤ v.key := by
  unfold Event.Past OsvEvent.event
  cases e.kind <;> simp [position]

theorem affected_iff (events : List OsvEvent) :
    Affected (events.map OsvEvent.event) (position v hv) ↔ OsvAffected events v := by
  unfold Affected OsvAffected
  refine and_congr ?_ ?_
  · constructor
    · rintro ⟨i, after, hsuf, hi, hpast, hlast, hshuts⟩
      obtain ⟨tail, htail, heq⟩ := List.suffix_map_iff.mp hsuf
      obtain ⟨i, after, rfl, rfl, rfl⟩ := List.map_eq_cons_iff.mp heq.symm
      have hik : i.kind = .introduced := hi
      refine ⟨i, after, htail, hik, by simpa [past_event, hik] using hpast, ?_, ?_, ?_⟩
      · intro j hj hk
        have := hlast _ (List.mem_map_of_mem hj) hk
        simpa [past_event, hk] using this
      · intro e he hk
        have := hshuts _ (List.mem_map_of_mem he) (.inl hk)
        simpa [past_event, hk] using this
      · intro e he hk
        have := hshuts _ (List.mem_map_of_mem he) (.inr hk)
        simpa [past_event, hk] using this
    · rintro ⟨i, after, hsuf, hik, hpast, hlast, hfixed, hlastAffected⟩
      refine ⟨i.event, after.map OsvEvent.event, hsuf.map _, hik, by simpa [past_event, hik] using hpast,
        ?_, ?_⟩
      · intro j hj hk
        obtain ⟨j, hmem, rfl⟩ := List.mem_map.mp hj
        have hk' : j.kind = .introduced := hk
        simpa [past_event, hk'] using hlast j hmem hk'
      · intro e he hk
        obtain ⟨e, hmem, rfl⟩ := List.mem_map.mp he
        rcases hk with hk | hk
        · have hk' : e.kind = .fixed := hk
          simpa [past_event, hk'] using hfixed e hmem hk'
        · have hk' : e.kind = .lastAffected := hk
          simpa [past_event, hk'] using hlastAffected e hmem hk'
  · rw [List.forall_mem_map]
    refine forall₂_congr fun e _ => imp_congr_right fun hk => ?_
    have hk' : e.kind = .limit := hk
    simp [past_event, hk']

/-! ## The pass over the list -/

def closedInterval (opened : Option OsvEvent) (e : OsvEvent) : Interval :=
  let start := opened.map fun i => stripText i.text
  match e.kind with
  | .introduced => { introduced := start }
  | .fixed => { introduced := start, fixed := some (stripText e.text) }
  | .lastAffected => { introduced := start, lastAffected := some (stripText e.text) }
  | .limit => { introduced := start, limit := some (stripText e.text) }

def scanState (intervals : List Interval) (opened : Option OsvEvent) : IntervalScan :=
  { intervals := intervals, current := { introduced := opened.map fun i => stripText i.text } }

theorem event_introduced (intervals : List Interval) (opened : Option OsvEvent) {e : OsvEvent}
    (he : e.kind = .introduced) : (scanState intervals opened).event e.raw =
      scanState (intervals ++ (opened.map fun i => { introduced := some (stripText i.text) }).toList)
        (some e) := by
  cases opened <;> simp [IntervalScan.event, OsvEvent.raw, he, eventKey, scanState, IntervalScan.close]

theorem event_closing (intervals : List Interval) (opened : Option OsvEvent) {e : OsvEvent}
    (he : e.kind ≠ .introduced) : (scanState intervals opened).event e.raw =
      scanState (intervals ++ [closedInterval opened e]) none := by
  cases hk : e.kind with
  | introduced => exact absurd hk he
  | fixed => simp [IntervalScan.event, OsvEvent.raw, hk, eventKey, scanState, IntervalScan.close,
      closedInterval, List.lookup_cons]
  | lastAffected => simp [IntervalScan.event, OsvEvent.raw, hk, eventKey, scanState,
      IntervalScan.close, closedInterval, List.lookup_cons]
  | limit => simp [IntervalScan.event, OsvEvent.raw, hk, eventKey, scanState, IntervalScan.close,
      closedInterval, List.lookup_cons]

theorem boundVersion_text (e : OsvEvent) : boundVersion (some (stripText e.text)) = some e.version :=
  e.reads

theorem inOpenInterval_iff (i : OsvEvent) :
    isVersionInInterval v { introduced := some (stripText i.text) } = true ↔
      (⟨some i.event.point, none⟩ : Span VersionKey).Holds (position v hv) := by
  rw [isVersionInInterval_iff]
  simp [Interval.ends, i.reads, Span.Holds, boundVersion, OsvEvent.event, position]

theorem inClosedInterval_iff (opened : Option OsvEvent) {e : OsvEvent} (he : e.kind ≠ .introduced) :
    isVersionInInterval v (closedInterval opened e) = true ↔
      (⟨opened.map fun i => i.event.point, some e.event⟩ : Span VersionKey).Holds (position v hv) := by
  rw [isVersionInInterval_iff]
  have hstart : (∀ b ∈ boundVersion (opened.map fun i => stripText i.text), b.key ≤ v.key) ↔
      ∀ a ∈ opened.map fun i => i.event.point, a ≤ position v hv := by
    cases opened with
    | none => simp [boundVersion]
    | some i => simp [boundVersion_text, OsvEvent.event, position]
  have hpast := past_event hv e
  unfold Span.Holds
  cases hk : e.kind with
  | introduced => exact absurd hk he
  | fixed =>
    simp only [closedInterval, hk, Interval.ends, hstart, boundVersion_text]
    simp [boundVersion, hpast, hk]
  | lastAffected =>
    simp only [closedInterval, hk, Interval.ends, hstart, boundVersion_text]
    simp [boundVersion, hpast, hk]
  | limit =>
    simp only [closedInterval, hk, Interval.ends, hstart, boundVersion_text]
    simp [boundVersion, hpast, hk]

def finished (st : IntervalScan) : List Interval :=
  if st.current = {} then st.intervals else st.intervals ++ [st.current]

theorem inFinished_iff (events : List OsvEvent) (intervals : List Interval) (opened : Option OsvEvent) :
    (finished ((events.map OsvEvent.raw).foldl IntervalScan.event (scanState intervals opened))).any
        (isVersionInInterval v) = true ↔
      intervals.any (isVersionInInterval v) = true ∨
        ∃ s ∈ spansFrom (opened.map fun i => i.event.point) (events.map OsvEvent.event),
          s.Holds (position v hv) := by
  induction events generalizing intervals opened with
  | nil =>
    cases opened with
    | none => simp [finished, scanState, spansFrom]
    | some i => simp [finished, scanState, spansFrom, inOpenInterval_iff hv]
  | cons e events ih =>
    rw [List.map_cons, List.foldl_cons]
    by_cases he : e.kind = .introduced
    · have hopens : e.event.Opens := he
      rw [event_introduced intervals opened he, ih]
      cases opened with
      | none => simp [spansFrom, hopens]
      | some i => simp [spansFrom, hopens, inOpenInterval_iff hv, or_assoc]
    · have hopens : ¬ e.event.Opens := he
      rw [event_closing intervals opened he, ih]
      simp [spansFrom, hopens, inClosedInterval_iff hv opened he, or_assoc]

theorem inSomeInterval_iff (events : List OsvEvent) : InSomeInterval events v ↔
    ∃ s ∈ spans (events.map OsvEvent.event), s.Holds (position v hv) := by
  have h := inFinished_iff hv events [] none
  simp only [List.any_nil, Bool.false_eq_true, false_or, Option.map_none] at h
  exact h

end

/-- No version the evaluation calls affected is missed, whatever the order of the list. -/
theorem inInterval_of_affected {events : List OsvEvent} {v : Version} (hv : IsVersion v)
    (h : OsvAffected events v) : InSomeInterval events v :=
  (inSomeInterval_iff hv events).mpr (holds_of_affected ((affected_iff hv events).mpr h))

/-- A sorted list is read as OSV defines it exactly when it is faithful: the interval of an introduction
is empty, or no limit and no later closing event ends inside it that the list does not reopen at its own
version; and a closing event with nothing open stands only where its interval holds no version, or the
list is open from `0.dev0` on. -/
theorem intervals_exact_iff (events : List OsvEvent)
    (hsorted : events.Pairwise fun e f => e.version.key ≤ f.version.key) :
    ReadAsDefined events ↔ Faithful (events.map OsvEvent.event) := by
  rw [← spans_iff_faithful (List.pairwise_map.mpr hsorted)]
  constructor
  · rintro h ⟨k, s, v, hs, rfl⟩
    have hv : IsVersion v := ⟨s, hs⟩
    exact ((inSomeInterval_iff hv events).symm.trans (h v hv)).trans (affected_iff hv events).symm
  · intro h v hv
    exact ((inSomeInterval_iff hv events).trans (h _)).trans (affected_iff hv events)

theorem intervals_exact_of_one_fix :
    let introduced : OsvEvent := ⟨.introduced, "1.0", Version.final [1, 0], by decide⟩
    let fixed : OsvEvent := ⟨.fixed, "2.0", Version.final [2, 0], by decide⟩
    ReadAsDefined [introduced, fixed] ↔ Faithful [introduced.event, fixed.event] :=
  intervals_exact_iff _ (by decide)

/-- Two fixes after one introduction: the second leaves an interval without a start, and a version the
first fix has cleared, or one before the introduction, lies in it. -/
theorem second_fix_reports_all_below : ¬ ∀ events : List OsvEvent,
    (events.Pairwise fun e f => e.version.key ≤ f.version.key) → ReadAsDefined events := by
  intro h
  let events : List OsvEvent := [⟨.introduced, "1.0", Version.final [1, 0], by decide⟩,
    ⟨.fixed, "2.0", Version.final [2, 0], by decide⟩, ⟨.fixed, "3.0", Version.final [3, 0], by decide⟩]
  have hin : InSomeInterval events (Version.final [0, 5]) := by decide
  obtain ⟨⟨i, after, hsuf, -, hle, -⟩, -⟩ := (h events (by decide) _ ⟨"0.5", by decide⟩).mp hin
  have hmem : i ∈ events := hsuf.subset List.mem_cons_self
  have habove : ∀ e ∈ events, ¬ e.version.key ≤ (Version.final [0, 5]).key := by
    intro e he
    rcases List.mem_cons.mp he with rfl | he
    · decide
    · rcases List.mem_cons.mp he with rfl | he
      · decide
      · rw [List.mem_singleton.mp he]
        decide
  exact habove i hmem hle

end TimeCodeSecurity.Sca
