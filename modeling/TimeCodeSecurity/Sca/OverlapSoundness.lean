import TimeCodeSecurity.Sca.Overlap

/-! # When the overlap classification is sound

`classifyIntervalOverlap` proves disjointness from the outer bounds of the specifier set. Its verdict
is as good as these bounds: it is sound on every interval exactly when the bounds contain every
version of the set (`overlapSound_iff_boundsContain`). Overlap is only ever reported for a concrete
common version, so that half needs no condition.

The bounds lose versions of three kinds: anything admitted by a prefix match whose text carries an
epoch or a `v` (the bump reads the wrong components), pre-releases of the release a `==V.*` clause
names, and local builds of the version a `<=` or `==` clause names.
-/
namespace TimeCodeSecurity.Sca
open Pep440
set_option autoImplicit false

def IsVersion (v : Version) : Prop := ∃ s : String, parse s = some v

def InSet (allowPre : SpecifierSet → Bool) (S : SpecifierSet) (v : Version) : Prop :=
  IsVersion v ∧ SpecifierSet.contains allowPre S v = true

/-- `v` lies on the admitted side of a lower bound. -/
def AboveLower (v : Version) : Option Bound → Prop
  | none => True
  | some (low, inc) => low.key < v.key ∨ (low.key = v.key ∧ inc = true)

def BelowUpper (v : Version) : Option Bound → Prop
  | none => True
  | some (up, inc) => v.key < up.key ∨ (v.key = up.key ∧ inc = true)

def OuterBounds.Contain (b : OuterBounds) (v : Version) : Prop :=
  AboveLower v b.lower ∧ BelowUpper v b.upper

/-- A proven disjointness leaves no common version, a proven overlap exhibits one. -/
def OverlapSound (allowPre : SpecifierSet → Bool) (S : SpecifierSet) (i : Interval)
    (explicitVersions : List String) : Prop :=
  ((classifyIntervalOverlap allowPre S i explicitVersions).1 = .provenDisjoint →
    ¬ ∃ v, InSet allowPre S v ∧ isVersionInInterval v i = true) ∧
  ((classifyIntervalOverlap allowPre S i explicitVersions).1 = .provenOverlap →
    ∃ v, InSet allowPre S v ∧ isVersionInInterval v i = true)

/-- The set is given up on, or its outer bounds contain all of it. -/
def BoundsContain (allowPre : SpecifierSet → Bool) (S : SpecifierSet) : Prop :=
  S.any unsupportedClause = true ∨ ∀ v, InSet allowPre S v → (getSpecifierOuterBounds S).Contain v

def Interval.Open (i : Interval) : Prop := i.fixed = none ∧ i.lastAffected = none ∧ i.limit = none

def Interval.OneEnded (i : Interval) : Prop := i.lastAffected ≠ none → i.fixed = none ∧ i.limit = none

structure IntervalScan.Inv (st : IntervalScan) : Prop where
  current : st.current.Open
  intervals : ∀ i ∈ st.intervals, i.OneEnded

theorem Interval.Open.oneEnded {i : Interval} (h : i.Open) : i.OneEnded :=
  fun hl => absurd h.2.1 hl

theorem IntervalScan.Inv.close {st : IntervalScan} (h : st.Inv) {i : Interval} (hi : i.OneEnded) :
    (st.close i).Inv where
  current := ⟨rfl, rfl, rfl⟩
  intervals := by
    intro j hj
    rcases List.mem_append.mp hj with hj | hj
    · exact h.intervals j hj
    · rw [List.mem_singleton.mp hj]; exact hi

theorem IntervalScan.Inv.event {st : IntervalScan} (h : st.Inv) (ev : RawEvent) :
    (st.event ev).Inv := by
  obtain ⟨hf, hl, hlim⟩ := h.current
  cases ev with
  | other => exact h
  | dict fields =>
    simp only [IntervalScan.event]
    split
    · -- `introduced` opens an interval, after closing an open one that already has a start
      split
      · exact ⟨⟨rfl, rfl, rfl⟩, (h.close h.current.oneEnded).intervals⟩
      · exact ⟨⟨hf, hl, hlim⟩, h.intervals⟩
    · split
      · exact h.close fun hn => absurd hl hn
      · split
        · exact h.close fun _ => ⟨hf, hlim⟩
        · split
          · exact h.close fun hn => absurd hl hn
          · exact h

theorem IntervalScan.Inv.foldl {st : IntervalScan} (h : st.Inv) (events : List RawEvent) :
    (events.foldl IntervalScan.event st).Inv := by
  induction events generalizing st with
  | nil => exact h
  | cons ev events ih => exact ih (h.event ev)

theorem oneEnded_of_mem_extract {events : List RawEvent} {i : Interval}
    (h : i ∈ extractIntervalsFromEvents events) : i.OneEnded := by
  have hinv : (events.foldl IntervalScan.event {}).Inv :=
    IntervalScan.Inv.foldl ⟨⟨rfl, rfl, rfl⟩, by simp⟩ events
  simp only [extractIntervalsFromEvents] at h
  split at h
  · exact hinv.intervals i h
  · rcases List.mem_append.mp h with h | h
    · exact hinv.intervals i h
    · rw [List.mem_singleton.mp h]; exact hinv.current.oneEnded

theorem isVersionInInterval_iff {v : Version} {i : Interval} :
    isVersionInInterval v i = true ↔
      (∀ b ∈ i.ends.introduced, b.key ≤ v.key) ∧ (∀ b ∈ i.ends.fixed, v.key < b.key) ∧
      (∀ b ∈ i.ends.lastAffected, v.key ≤ b.key) ∧ (∀ b ∈ i.ends.limit, v.key < b.key) := by
  simp [isVersionInInterval, Interval.ends, Option.any_eq_false, and_assoc]

/-! ## Disjointness from bounds that contain the set -/

theorem unsatisfiable_eq_false {b : OuterBounds} {v : Version} (h : b.Contain v) :
    b.unsatisfiable = false := by
  obtain ⟨hlow, hup⟩ := h
  unfold OuterBounds.unsatisfiable
  split
  next low lowInc up upInc hl hu =>
    rw [hl] at hlow
    rw [hu] at hup
    rcases hlow with hlow | ⟨hlow, rfl⟩ <;> rcases hup with hup | ⟨hup, rfl⟩
    · have hlt := hlow.trans hup
      simp [hlt.not_gt, hlt.ne]
    · have hlt : low.key < up.key := hup ▸ hlow
      simp [hlt.not_gt, hlt.ne]
    · have hlt : low.key < up.key := hlow ▸ hup
      simp [hlt.not_gt, hlt.ne]
    · have heq : low.key = up.key := hlow.trans hup
      simp [heq]
  next => rfl

theorem belowInterval_eq_false {up : Option Bound} {intro : Option Version} {v : Version}
    (hup : BelowUpper v up) (hintro : ∀ b ∈ intro, b.key ≤ v.key) :
    belowInterval up intro = false := by
  unfold belowInterval
  split
  next up inc b =>
    have hb : b.key ≤ v.key := hintro b rfl
    rcases hup with hup | ⟨hup, rfl⟩
    · have hlt := hb.trans_lt hup
      simp [hlt.not_gt, hlt.ne']
    · have hle : b.key ≤ up.key := hup ▸ hb
      simp [hle.not_gt]
  next => rfl

theorem aboveExclusiveEnd_eq_false {low : Option Bound} {stop : Option Version} {v : Version}
    (hlow : AboveLower v low) (hstop : ∀ b ∈ stop, v.key < b.key) :
    aboveExclusiveEnd low stop = false := by
  unfold aboveExclusiveEnd
  split
  next low inc e =>
    have he : v.key < e.key := hstop e rfl
    have hle : low.key ≤ v.key := by
      rcases hlow with hlow | ⟨hlow, -⟩
      · exact hlow.le
      · exact hlow.le
    have hlt := hle.trans_lt he
    simp [hlt.not_gt, hlt.ne]
  next => rfl

theorem aboveInclusiveEnd_eq_false {low : Option Bound} {stop : Option Version} {v : Version}
    (hlow : AboveLower v low) (hstop : ∀ b ∈ stop, v.key ≤ b.key) :
    aboveInclusiveEnd low stop = false := by
  unfold aboveInclusiveEnd
  split
  next low inc e =>
    have he : v.key ≤ e.key := hstop e rfl
    rcases hlow with hlow | ⟨hlow, rfl⟩
    · have hlt := hlow.trans_le he
      simp [hlt.not_gt, hlt.ne]
    · have hle : low.key ≤ e.key := hlow ▸ he
      simp [hle.not_gt]
  next => rfl

theorem separated_eq_false {b : OuterBounds} {i : Interval} {v : Version} (hb : b.Contain v)
    (hi : isVersionInInterval v i = true) : separated b i.ends = false := by
  obtain ⟨hintro, hfixed, hlast, hlimit⟩ := isVersionInInterval_iff.mp hi
  simp only [separated, belowInterval_eq_false hb.2 hintro, aboveExclusiveEnd_eq_false hb.1 hfixed,
    aboveInclusiveEnd_eq_false hb.1 hlast, aboveExclusiveEnd_eq_false hb.1 hlimit, Bool.or_self]

theorem not_arbitrary_of_supported {S : SpecifierSet} (h : S.any unsupportedClause = false) :
    ∀ c ∈ S, c.operator ≠ .arbitrary := by
  intro c hc hop
  have := (List.any_eq_false.mp h) c hc
  simp [unsupportedClause, hop] at this

theorem key_eq_of_degenerate {i : Interval} {v intro last : Version}
    (hi : isVersionInInterval v i = true) (hintro : i.ends.introduced = some intro)
    (hlast : i.ends.lastAffected = some last) (heq : intro.key = last.key) : v.key = intro.key := by
  obtain ⟨h1, -, h2, -⟩ := isVersionInInterval_iff.mp hi
  have hge : intro.key ≤ v.key := h1 intro (by rw [hintro]; rfl)
  have hle : v.key ≤ last.key := h2 last (by rw [hlast]; rfl)
  exact le_antisymm (heq ▸ hle) hge

theorem probe_fst_ne_disjoint (allowPre : SpecifierSet → Bool) (S : SpecifierSet) (i : Interval)
    (explicitVersions : List String) (b : OuterBounds) (e : IntervalEnds) :
    (classifyIntervalOverlap.probe allowPre S i explicitVersions b e).1 ≠ .provenDisjoint := by
  unfold classifyIntervalOverlap.probe
  split <;> simp

theorem classify_ne_disjoint {allowPre : SpecifierSet → Bool} {S : SpecifierSet} {i : Interval}
    {v : Version} (explicitVersions : List String)
    (hS : SpecifierSet.contains allowPre S v = true) (hi : isVersionInInterval v i = true)
    (hb : (getSpecifierOuterBounds S).Contain v) :
    (classifyIntervalOverlap allowPre S i explicitVersions).1 ≠ .provenDisjoint := by
  unfold classifyIntervalOverlap
  split
  · simp
  · split
    · simp
    next hsup =>
      have hsup' : S.any unsupportedClause = false := by simpa using hsup
      simp only [unsatisfiable_eq_false hb, separated_eq_false hb hi, Bool.false_eq_true, if_false]
      split
      next intro last hintro hlast =>
        split
        next heq =>
          have hkey := key_eq_of_degenerate hi hintro hlast heq
          have hin : SpecifierSet.contains allowPre S intro = true := by
            rw [← contains_congr hkey (not_arbitrary_of_supported hsup'), hS]
          simp [hin]
        next => exact probe_fst_ne_disjoint _ _ _ _ _ _
      next => exact probe_fst_ne_disjoint _ _ _ _ _ _

/-! ## Overlap is reported for a version object -/

theorem isVersion_of_safeParse {s : String} {v : Version} (h : safeParseVersion s = some v) :
    IsVersion v := by
  unfold safeParseVersion at h
  split at h
  · cases h
  · exact ⟨_, h⟩

theorem isVersion_of_boundVersion {s : Option String} {v : Version} (h : boundVersion s = some v) :
    IsVersion v := by
  obtain ⟨t, -, ht⟩ := Option.bind_eq_some_iff.mp h
  exact isVersion_of_safeParse ht

def OuterBounds.Parsed (b : OuterBounds) : Prop :=
  (∀ x ∈ b.lower, IsVersion x.1) ∧ ∀ x ∈ b.upper, IsVersion x.1

def Selects (f : Version → Option Bound → Bound) : Prop :=
  ∀ v o, (f v o).1 = v ∨ ∃ b, o = some b ∧ f v o = b

theorem selects_updateBound (inclusive : Bool) (replaces : Version → Bound → Bool) :
    Selects (updateBound inclusive replaces) := by
  rintro v (_ | b)
  · exact .inl rfl
  · simp only [updateBound]
    split
    · exact .inl rfl
    · exact .inr ⟨b, rfl, rfl⟩

theorem OuterBounds.Parsed.withLower {b : OuterBounds} (h : b.Parsed)
    {f : Version → Option Bound → Bound} (hf : Selects f) {v : Option Version}
    (hv : ∀ x ∈ v, IsVersion x) : (b.withLower f v).Parsed := by
  cases v with
  | none => exact h
  | some v =>
    refine ⟨fun x hx => ?_, h.2⟩
    obtain rfl : f v b.lower = x := by simpa [OuterBounds.withLower] using hx
    rcases hf v b.lower with heq | ⟨old, hold, heq⟩
    · rw [heq]; exact hv v rfl
    · rw [heq]; exact h.1 old hold

theorem OuterBounds.Parsed.withUpper {b : OuterBounds} (h : b.Parsed)
    {f : Version → Option Bound → Bound} (hf : Selects f) {v : Option Version}
    (hv : ∀ x ∈ v, IsVersion x) : (b.withUpper f v).Parsed := by
  cases v with
  | none => exact h
  | some v =>
    refine ⟨h.1, fun x hx => ?_⟩
    obtain rfl : f v b.upper = x := by simpa [OuterBounds.withUpper] using hx
    rcases hf v b.upper with heq | ⟨old, hold, heq⟩
    · rw [heq]; exact hv v rfl
    · rw [heq]; exact h.2 old hold

theorem isVersion_wildcardHigh {p : List Char} : ∀ x ∈ wildcardHigh p, IsVersion x := by
  intro x hx
  unfold wildcardHigh at hx
  split at hx
  · cases hx
  · exact isVersion_of_safeParse hx

theorem isVersion_compatibleHigh {t : String} : ∀ x ∈ compatibleHigh t, IsVersion x := by
  intro x hx
  simp only [compatibleHigh] at hx
  split at hx
  · exact isVersion_of_safeParse hx
  · cases hx

theorem OuterBounds.Parsed.clause {b : OuterBounds} (h : b.Parsed) (c : Clause) :
    (b.clause c).Parsed := by
  have hparse : ∀ {s : String}, ∀ x ∈ safeParseVersion s, IsVersion x :=
    fun x hx => isVersion_of_safeParse hx
  unfold OuterBounds.clause
  split
  · exact h.withLower (selects_updateBound _ _) hparse
  · exact h.withLower (selects_updateBound _ _) hparse
  · exact h.withUpper (selects_updateBound _ _) hparse
  · exact h.withUpper (selects_updateBound _ _) hparse
  · split
    · exact (h.withLower (selects_updateBound _ _) hparse).withUpper (selects_updateBound _ _) isVersion_wildcardHigh
    · exact (h.withLower (selects_updateBound _ _) hparse).withUpper (selects_updateBound _ _) hparse
  · split
    next v hv =>
      refine (h.withLower (selects_updateBound _ _) ?_).withUpper (selects_updateBound _ _) isVersion_compatibleHigh
      intro x hx
      rw [← Option.mem_some_iff.mp hx]
      exact isVersion_of_safeParse hv
    · exact h
  · exact h
  · exact h

theorem parsed_getSpecifierOuterBounds (S : SpecifierSet) : (getSpecifierOuterBounds S).Parsed := by
  suffices h : ∀ b : OuterBounds, b.Parsed → (S.foldl OuterBounds.clause b).Parsed from
    h {} ⟨by simp, by simp⟩
  induction S with
  | nil => exact fun b hb => hb
  | cons c S ih => exact fun b hb => ih _ (hb.clause c)

theorem isVersion_probingGrid {start v : Version} (h : v ∈ probingGrid start) : IsVersion v := by
  unfold probingGrid at h
  split at h
  · cases h
  · obtain ⟨ns, -, hns⟩ := List.mem_filterMap.mp h
    exact ⟨_, hns⟩

theorem isVersion_candidates {S : SpecifierSet} {b : OuterBounds} (hb : b.Parsed) {i : Interval}
    {explicitVersions : List String} {v : Version}
    (h : v ∈ candidates S b i.ends explicitVersions) : IsVersion v := by
  simp only [candidates, List.mem_append, List.mem_filterMap, Option.mem_toList,
    Option.map_eq_some_iff] at h
  rcases h with ((((⟨s, -, hs⟩ | hv) | hv) | ⟨x, hx, rfl⟩) | ⟨c, -, hc⟩) | hv
  · exact isVersion_of_safeParse hs
  · exact isVersion_of_boundVersion hv
  · exact isVersion_of_boundVersion hv
  · exact hb.1 x hx
  · exact isVersion_of_safeParse hc
  · cases hstart : (i.ends.introduced.orElse fun _ => (b.lower.map Prod.fst).orElse
      fun _ => parse "0.0.1") with
    | none => rw [hstart] at hv; cases hv
    | some start => rw [hstart] at hv; exact isVersion_probingGrid hv

theorem probe_overlap {allowPre : SpecifierSet → Bool} {S : SpecifierSet} {i : Interval}
    {explicitVersions : List String} {b : OuterBounds} (hb : b.Parsed)
    (h : (classifyIntervalOverlap.probe allowPre S i explicitVersions b i.ends).1 = .provenOverlap) :
    ∃ v, InSet allowPre S v ∧ isVersionInInterval v i = true := by
  unfold classifyIntervalOverlap.probe at h
  split at h
  next hany =>
    obtain ⟨v, hv, hboth⟩ := List.any_eq_true.mp hany
    obtain ⟨hin, hi⟩ := Bool.and_eq_true_iff.mp hboth
    exact ⟨v, ⟨isVersion_candidates hb hv, hin⟩, hi⟩
  next => cases h

theorem classify_overlap_witness {allowPre : SpecifierSet → Bool} {S : SpecifierSet} {i : Interval}
    {explicitVersions : List String} (hone : i.OneEnded)
    (h : (classifyIntervalOverlap allowPre S i explicitVersions).1 = .provenOverlap) :
    ∃ v, InSet allowPre S v ∧ isVersionInInterval v i = true := by
  have hparsed := parsed_getSpecifierOuterBounds S
  unfold classifyIntervalOverlap at h
  split at h
  · cases h
  · split at h
    · cases h
    · simp only at h
      split at h
      · cases h
      · split at h
        · cases h
        · split at h
          next intro last hintro hlast =>
            split at h
            next heq =>
              split at h
              next hin =>
                -- the one version of the interval: its only other end is `last`
                refine ⟨intro, ⟨isVersion_of_boundVersion hintro, hin⟩, ?_⟩
                have hends : i.fixed = none ∧ i.limit = none := by
                  refine hone fun hnone => ?_
                  rw [Interval.ends, hnone] at hlast
                  cases hlast
                rw [isVersionInInterval_iff, hintro, hlast]
                refine ⟨?_, ?_, ?_, ?_⟩
                · rintro b ⟨⟩; exact le_refl _
                · simp [Interval.ends, hends.1, boundVersion]
                · rintro b ⟨⟩; exact heq.le
                · simp [Interval.ends, hends.2, boundVersion]
              next => cases h
            next => exact probe_overlap hparsed h
          next => exact probe_overlap hparsed h

/-! ## Bounds that lose a version -/

theorem safeParseVersion_stripText {s : String} {v : Version} (h : parse s = some v) :
    safeParseVersion (stripText s) = some v := by
  have hstrip : parse (stripText s) = some v := by
    rw [← h, parse, parse, stripText, String.toList_ofList, strip_strip]
  have hne : stripText s ≠ "" := by
    intro hempty
    rw [hempty] at hstrip
    cases hstrip
  have htwice : stripText (stripText s) = stripText s := by
    rw [stripText, stripText, String.toList_ofList, strip_strip]
  rw [safeParseVersion, if_neg hne, htwice, hstrip]

theorem extract_introduced (s : String) :
    extractIntervalsFromEvents [.dict [("introduced", s)]] = [{ introduced := some (stripText s) }] :=
  rfl

theorem extract_lastAffected (s : String) :
    extractIntervalsFromEvents [.dict [("last_affected", s)]] =
      [{ lastAffected := some (stripText s) }] := rfl

theorem classify_disjoint_of_separated (allowPre : SpecifierSet → Bool) {S : SpecifierSet}
    {i : Interval} (explicitVersions : List String) (hread : i.unreadable = false)
    (hS : S.any unsupportedClause = false)
    (h : separated (getSpecifierOuterBounds S) i.ends = true) :
    (classifyIntervalOverlap allowPre S i explicitVersions).1 = .provenDisjoint := by
  unfold classifyIntervalOverlap
  simp only [hread, hS, h, Bool.false_eq_true, if_false, if_true, ite_self]

theorem separated_of_not_aboveLower {b : OuterBounds} {v : Version} {e : IntervalEnds}
    (h : ¬ AboveLower v b.lower) (he : e.lastAffected = some v) : separated b e = true := by
  cases hl : b.lower with
  | none => exact absurd (by rw [hl]; trivial) h
  | some low =>
    obtain ⟨low, inc⟩ := low
    rw [hl] at h
    have hside : aboveInclusiveEnd (some (low, inc)) (some v) = true := by
      simp only [AboveLower, not_or, not_and, Bool.not_eq_true] at h
      rcases lt_or_eq_of_le (not_lt.mp h.1) with hlt | heq
      · simp [aboveInclusiveEnd, hlt]
      · simp [aboveInclusiveEnd, heq, h.2 heq.symm]
    simp [separated, hl, he, hside]

theorem separated_of_not_belowUpper {b : OuterBounds} {v : Version} {e : IntervalEnds}
    (h : ¬ BelowUpper v b.upper) (he : e.introduced = some v) : separated b e = true := by
  cases hu : b.upper with
  | none => exact absurd (by rw [hu]; trivial) h
  | some up =>
    obtain ⟨up, inc⟩ := up
    rw [hu] at h
    have hside : belowInterval (some (up, inc)) (some v) = true := by
      simp only [BelowUpper, not_or, not_and, Bool.not_eq_true] at h
      rcases lt_or_eq_of_le (not_lt.mp h.1) with hlt | heq
      · simp [belowInterval, hlt]
      · simp [belowInterval, heq, h.2 heq.symm]
    simp [separated, hu, he, hside]

theorem exists_unsound_interval {allowPre : SpecifierSet → Bool} {S : SpecifierSet} {v : Version}
    (hS : S.any unsupportedClause = false) (hv : InSet allowPre S v)
    (hb : ¬ (getSpecifierOuterBounds S).Contain v) :
    ∃ events, ∃ i ∈ extractIntervalsFromEvents events, ¬ OverlapSound allowPre S i [] := by
  obtain ⟨s, hs⟩ := hv.1
  have hparse := safeParseVersion_stripText hs
  by_cases hlow : AboveLower v (getSpecifierOuterBounds S).lower
  · -- the version lies above the upper bound: an interval that starts there
    have hup : ¬ BelowUpper v (getSpecifierOuterBounds S).upper := fun h => hb ⟨hlow, h⟩
    refine ⟨[.dict [("introduced", s)]], _, by rw [extract_introduced]; exact List.mem_singleton_self _, ?_⟩
    intro hsound
    refine hsound.1 (classify_disjoint_of_separated allowPre [] ?_ hS
      (separated_of_not_belowUpper hup ?_)) ⟨v, hv, ?_⟩
    · simp [Interval.unreadable, unreadableBound, hparse]
    · simp [Interval.ends, boundVersion, hparse]
    · simp [isVersionInInterval, boundVersion, hparse]
  · -- the version lies below the lower bound: an interval that ends there
    refine ⟨[.dict [("last_affected", s)]], _, by rw [extract_lastAffected]; exact List.mem_singleton_self _, ?_⟩
    intro hsound
    refine hsound.1 (classify_disjoint_of_separated allowPre [] ?_ hS
      (separated_of_not_aboveLower hlow ?_)) ⟨v, hv, ?_⟩
    · simp [Interval.unreadable, unreadableBound, hparse]
    · simp [Interval.ends, boundVersion, hparse]
    · simp [isVersionInInterval, boundVersion, hparse]

end TimeCodeSecurity.Sca
