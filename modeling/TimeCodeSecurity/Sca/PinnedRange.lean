import TimeCodeSecurity.Sca.Matcher
import TimeCodeSecurity.Sca.OverlapSoundness

/-! # Pinned evaluation against range evaluation

`_evaluate_advisory` answers for a pinned version and for a specifier set by two different walks over
the ranges of the advisory. The walk for a set stays silent exactly when it leaves no range open:
every interval is proven disjoint from the outer bounds of the set, and the explicit versions, which
it reads only where there are no intervals, are all readable and not admitted.
-/
namespace TimeCodeSecurity.Sca
open Pep440
set_option autoImplicit false

def RangeScan.silent (st : RangeScan) : Bool := st.hit.isNone && st.undecided.isNone

def excludedPoint (allowPre : SpecifierSet → Bool) (S : SpecifierSet) (e : IntervalEnds) : Bool :=
  match e.introduced, e.lastAffected with
  | some intro, some last =>
    decide (intro.key = last.key) && !SpecifierSet.contains allowPre S intro
  | _, _ => false

def boundsMeet (allowPre : SpecifierSet → Bool) (S : SpecifierSet) (i : Interval) : Bool :=
  !(getSpecifierOuterBounds S).unsatisfiable && !separated (getSpecifierOuterBounds S) i.ends &&
    !excludedPoint allowPre S i.ends

def intervalOpen (allowPre : SpecifierSet → Bool) (S : SpecifierSet) (i : Interval) : Bool :=
  i.unreadable || S.any unsupportedClause || boundsMeet allowPre S i

def versionOpen (allowPre : SpecifierSet → Bool) (S : SpecifierSet) (text : String) : Bool :=
  (safeParseVersion text).all (SpecifierSet.contains allowPre S)

/-- What the walk over the ranges cannot rule out: explicit versions count only where the range has
no intervals. -/
def rangeOpen (allowPre : SpecifierSet → Bool) (S : SpecifierSet) (r : OSVAffectedRange) : Bool :=
  if extractIntervalsFromEvents r.events = [] then r.versions.any (versionOpen allowPre S)
  else (extractIntervalsFromEvents r.events).any (intervalOpen allowPre S)

/-! ## The walk for a set -/

theorem probe_fst (allowPre : SpecifierSet → Bool) (S : SpecifierSet) (i : Interval)
    (explicitVersions : List String) (b : OuterBounds) (e : IntervalEnds) :
    (classifyIntervalOverlap.probe allowPre S i explicitVersions b e).1 = .provenDisjoint ↔ False :=
  iff_false_intro (probe_fst_ne_disjoint allowPre S i explicitVersions b e)

theorem classify_disjoint_iff (allowPre : SpecifierSet → Bool) (S : SpecifierSet) (i : Interval)
    (explicitVersions : List String) :
    (classifyIntervalOverlap allowPre S i explicitVersions).1 = .provenDisjoint ↔
      intervalOpen allowPre S i = false := by
  unfold classifyIntervalOverlap intervalOpen boundsMeet
  by_cases hread : i.unreadable = true
  · simp [hread]
  by_cases hsup : S.any unsupportedClause = true
  · simp only [hread, hsup]
    simp
  by_cases hsat : (getSpecifierOuterBounds S).unsatisfiable = true
  · simp only [hread, hsup, hsat]
    simp
  by_cases hsep : separated (getSpecifierOuterBounds S) i.ends = true
  · simp only [hread, hsup, hsat, hsep]
    simp
  simp only [hread, hsup, hsat, hsep]
  unfold excludedPoint
  cases i.ends.introduced with
  | none => simp [probe_fst]
  | some intro =>
    cases i.ends.lastAffected with
    | none => simp [probe_fst]
    | some last =>
      by_cases hkey : intro.key = last.key
      · by_cases hin : SpecifierSet.contains allowPre S intro = true
        · simp [hkey, hin]
        · simp [hkey, hin]
      · simp [hkey, probe_fst]

theorem silent_overlapInterval (lib : Library) (S : SpecifierSet) (versions : List String)
    (st : RangeScan) (i : Interval) :
    (overlapInterval lib S versions st i).silent =
      (st.silent && !intervalOpen lib.allowPre S i) := by
  unfold overlapInterval
  by_cases hhit : st.hit.isSome = true
  · have hnone : st.hit.isNone = false := by simpa [Option.isNone_iff_eq_none] using hhit
    simp [hhit, RangeScan.silent, hnone]
  have hdisjoint := classify_disjoint_iff lib.allowPre S i versions
  simp only [hhit]
  rcases hclass : classifyIntervalOverlap lib.allowPre S i versions with ⟨verdict, desc⟩
  rw [hclass] at hdisjoint
  cases verdict with
  | provenOverlap =>
    have hopen : intervalOpen lib.allowPre S i = true := by simpa using hdisjoint
    simp [RangeScan.silent, hopen]
  | unresolved =>
    have hopen : intervalOpen lib.allowPre S i = true := by simpa using hdisjoint
    simp [RangeScan.silent, hopen]
  | provenDisjoint =>
    have hclosed : intervalOpen lib.allowPre S i = false := by simpa using hdisjoint
    simp [hclosed]

theorem silent_foldl {α : Type} {step : RangeScan → α → RangeScan} {isOpen : α → Bool}
    (hstep : ∀ st a, (step st a).silent = (st.silent && !isOpen a)) (l : List α) (st : RangeScan) :
    (l.foldl step st).silent = (st.silent && !l.any isOpen) := by
  induction l generalizing st with
  | nil => simp
  | cons a l ih => rw [List.foldl_cons, ih, hstep, List.any_cons, Bool.not_or, Bool.and_assoc]

theorem silent_overlapVersions (lib : Library) (S : SpecifierSet) (st : RangeScan)
    (versions : List String) :
    (overlapVersions lib S st versions).silent =
      (st.silent && !versions.any (versionOpen lib.allowPre S)) := by
  unfold overlapVersions
  by_cases hadmitted : versions.any (fun t =>
      (safeParseVersion t).any (SpecifierSet.contains lib.allowPre S)) = true
  · have hne : versions.filter (fun t =>
        (safeParseVersion t).any (SpecifierSet.contains lib.allowPre S)) ≠ [] := by
      obtain ⟨t, ht, hin⟩ := List.any_eq_true.mp hadmitted
      exact List.ne_nil_of_mem (List.mem_filter.mpr ⟨ht, hin⟩)
    have hopen : versions.any (versionOpen lib.allowPre S) = true := by
      obtain ⟨t, ht, hin⟩ := List.any_eq_true.mp hadmitted
      refine List.any_eq_true.mpr ⟨t, ht, ?_⟩
      rw [versionOpen]
      cases hparse : safeParseVersion t with
      | none => rfl
      | some w => simpa [hparse] using hin
    simp [hne, hopen, RangeScan.silent]
  · have hnil : versions.filter (fun t =>
        (safeParseVersion t).any (SpecifierSet.contains lib.allowPre S)) = [] := by
      refine List.filter_eq_nil_iff.mpr fun t ht hin => hadmitted ?_
      exact List.any_eq_true.mpr ⟨t, ht, hin⟩
    have hsame : versions.any (fun t => (safeParseVersion t).isNone) =
        versions.any (versionOpen lib.allowPre S) := by
      rw [Bool.eq_iff_iff, List.any_eq_true, List.any_eq_true]
      refine exists_congr fun t => and_congr_right fun ht => ?_
      have hout := List.filter_eq_nil_iff.mp hnil t ht
      rw [versionOpen]
      cases hparse : safeParseVersion t with
      | none => rfl
      | some w => simpa [hparse] using hout
    rw [if_neg (by simpa using hnil), hsame]
    by_cases hopen : versions.any (versionOpen lib.allowPre S) = true
    · simp [hopen, RangeScan.silent]
    · simp [hopen]

theorem silent_of_hit {st : RangeScan} (h : st.hit.isSome = true) : st.silent = false := by
  cases hhit : st.hit with
  | none => simp [hhit] at h
  | some x => simp [RangeScan.silent, hhit]

theorem silent_overlapRange (lib : Library) (S : SpecifierSet) (st : RangeScan)
    (r : OSVAffectedRange) :
    (overlapRange lib S st r).silent = (st.silent && !rangeOpen lib.allowPre S r) := by
  unfold overlapRange
  by_cases hhit : st.hit.isSome = true
  · simp [hhit, silent_of_hit hhit]
  have hfold := silent_foldl (silent_overlapInterval lib S r.versions)
    (extractIntervalsFromEvents r.events) st
  by_cases hnil : extractIntervalsFromEvents r.events = []
  · rw [rangeOpen, if_pos hnil]
    by_cases hversions : r.versions = []
    · simp [hhit, hnil, hversions]
    · simp [hhit, hnil, hversions, silent_overlapVersions]
  · rw [rangeOpen, if_neg hnil, ← hfold]
    simp only [hhit, hnil]
    simp

def intervalHit (v : Version) (i : Interval) : Bool :=
  !(unreadableBound i.introduced || unreadableBound i.fixed || unreadableBound i.lastAffected) &&
    isVersionInInterval v i

def listed (v : Version) (versions : List String) : Bool :=
  versions.any fun t => (safeParseVersion t).any fun w => decide (v.key = w.key)

/-- A pinned version is compared with the intervals and with the explicit versions of every range. -/
def rangeHit (v : Version) (r : OSVAffectedRange) : Bool :=
  (extractIntervalsFromEvents r.events).any (intervalHit v) || listed v r.versions

theorem hit_foldl {α : Type} {step : RangeScan → α → RangeScan} {isHit : α → Bool}
    (hstep : ∀ st a, (step st a).hit.isSome = (st.hit.isSome || isHit a)) (l : List α)
    (st : RangeScan) : (l.foldl step st).hit.isSome = (st.hit.isSome || l.any isHit) := by
  induction l generalizing st with
  | nil => simp
  | cons a l ih => rw [List.foldl_cons, ih, hstep, List.any_cons, Bool.or_assoc]

theorem hit_pinnedInterval (v : Version) (st : RangeScan) (i : Interval) :
    (pinnedInterval v st i).hit.isSome = (st.hit.isSome || intervalHit v i) := by
  unfold pinnedInterval intervalHit
  by_cases hhit : st.hit.isSome = true
  · simp [hhit]
  · simp only [hhit]
    split
    next h => exact absurd h (by simp)
    next =>
      split
      next hunread => simp only [hhit, hunread]; simp
      next hread =>
        split
        next hin => simp only [hread, hin]; simp
        next hout => simp only [hhit, hread, hout]; simp

theorem hit_pinnedRange (text : String) (v : Version) (st : RangeScan) (r : OSVAffectedRange) :
    (pinnedRange text v st r).hit.isSome = (st.hit.isSome || rangeHit v r) := by
  have hfold := hit_foldl (hit_pinnedInterval v) (extractIntervalsFromEvents r.events) st
  rw [rangeHit, ← Bool.or_assoc, ← hfold]
  unfold pinnedRange listed
  dsimp only
  by_cases hhit : ((extractIntervalsFromEvents r.events).foldl (pinnedInterval v) st).hit.isSome =
      true
  · rw [if_pos hhit, hhit, Bool.true_or]
  · simp only [hhit]
    split
    next h => exact absurd h (by simp)
    next =>
      split
      next hin => simp only [hin]; simp
      next hout => simp only [hhit, hout]; simp

def DependencyRecord.PinnedTo (dep : DependencyRecord) (v : Version) : Prop :=
  dep.pinned = true ∧ ∃ text, dep.version = some text ∧ parse text = some v

def DependencyRecord.Requires (dep : DependencyRecord) (S : SpecifierSet) : Prop :=
  dep.pinned = false ∧ parseSpecifierSet dep.specifierText = some S

/-- If the advisory is confirmed for the version `pinned` is pinned to and the specifier of `dep`
admits that version, then the advisory yields a finding for `dep`. -/
def PinnedRangeAgree (lib : Library) (vuln : OSVVulnerability) (pinned dep : DependencyRecord) :
    Prop :=
  ∀ v S, pinned.PinnedTo v → dep.Requires S → SpecifierSet.contains lib.allowPre S v = true →
    (∃ f, evaluateAdvisory lib pinned vuln = some f ∧ f.status = .confirmed) →
    ∃ g, evaluateAdvisory lib dep vuln = some g ∧ (g.status = .potential ∨ g.status = .unresolved)

theorem confirmed_iff (lib : Library) {dep : DependencyRecord} (vuln : OSVVulnerability)
    {v : Version} (h : dep.PinnedTo v) :
    (∃ f, evaluateAdvisory lib dep vuln = some f ∧ f.status = .confirmed) ↔
      (applicableRanges vuln).any (rangeHit v) = true := by
  obtain ⟨hpin, text, hversion, hparse⟩ := h
  have hne : text ≠ "" := by
    rintro rfl
    cases hparse
  have hfilter : dep.version.filter (· ≠ "") = some text := by simp [hversion, hne]
  have hfold := hit_foldl (hit_pinnedRange text v) (applicableRanges vuln) {}
  have hinit : (({} : RangeScan).hit).isSome = false := rfl
  rw [hinit, Bool.false_or] at hfold
  rw [← hfold]
  unfold evaluateAdvisory
  simp only [hpin, hfilter, hparse, if_true]
  rcases (applicableRanges vuln).foldl (pinnedRange text v) {} with ⟨hit, undecided⟩
  cases hit with
  | some x => simp [advisoryFinding]
  | none => cases undecided <;> simp [unresolvedFinding, advisoryFinding]

theorem range_finding_iff (lib : Library) {dep : DependencyRecord} (vuln : OSVVulnerability)
    {S : SpecifierSet} (h : dep.Requires S) :
    (∃ g, evaluateAdvisory lib dep vuln = some g ∧
      (g.status = .potential ∨ g.status = .unresolved)) ↔
      (applicableRanges vuln).any (rangeOpen lib.allowPre S) = true := by
  obtain ⟨hpin, hspec⟩ := h
  have hfold := silent_foldl (silent_overlapRange lib S) (applicableRanges vuln) {}
  have hinit : RangeScan.silent {} = true := rfl
  rw [hinit, Bool.true_and] at hfold
  have hopen : (applicableRanges vuln).any (rangeOpen lib.allowPre S) =
      !((applicableRanges vuln).foldl (overlapRange lib S) {}).silent := by
    rw [hfold, Bool.not_not]
  rw [hopen]
  unfold evaluateAdvisory
  simp only [hpin, hspec, Bool.false_eq_true, if_false]
  rcases (applicableRanges vuln).foldl (overlapRange lib S) {} with ⟨hit, undecided⟩
  cases hit with
  | some x => simp [RangeScan.silent, advisoryFinding]
  | none => cases undecided <;> simp [RangeScan.silent, unresolvedFinding, advisoryFinding]

/-- **Agreement.** A pinned version that some range hits, admitted by the specifier of another
dependency, is reported for it exactly when the specifier leaves some range open. -/
theorem pinnedRangeAgree_iff (lib : Library) (vuln : OSVVulnerability)
    (pinned dep : DependencyRecord) :
    PinnedRangeAgree lib vuln pinned dep ↔
      ∀ v S, pinned.PinnedTo v → dep.Requires S → SpecifierSet.contains lib.allowPre S v = true →
        (∃ r ∈ applicableRanges vuln, rangeHit v r = true) →
        ∃ r ∈ applicableRanges vuln, rangeOpen lib.allowPre S r = true := by
  unfold PinnedRangeAgree
  refine forall_congr' fun v => forall_congr' fun S => forall_congr' fun hpinned =>
    forall_congr' fun hrequires => forall_congr' fun _ => ?_
  rw [confirmed_iff lib vuln hpinned, range_finding_iff lib vuln hrequires, List.any_eq_true,
    List.any_eq_true]

/-- `2.0` is listed beside an interval that ends at `1.0`: confirmed when pinned, and no finding for
`>=2.0`. -/
theorem pinnedRangeAgree_fails_beside_interval :
    ¬ ∀ (lib : Library) (vuln : OSVVulnerability) (pinned dep : DependencyRecord),
      PinnedRangeAgree lib vuln pinned dep := by
  intro h
  have hagree := (pinnedRangeAgree_iff _ _ _ _).mp
    (h ⟨fun _ => false, fun _ => none⟩
      (parseOsvVuln "lib" { id := some "GHSA-1", affected := some [
        { versions := some ["2.0"],
          ranges := some [{ events := some [.dict [("introduced", "0")], .dict [("fixed", "1.0")]] }] }] })
      { name := "lib", version := some "2.0", pinned := true }
      { name := "lib", versionSpecifier := some ">=2.0" })
  obtain ⟨r, hr, hopen⟩ := hagree (Version.final [2, 0]) [⟨.ge, "2.0"⟩]
    ⟨rfl, "2.0", rfl, by decide⟩ ⟨rfl, by decide⟩ (by decide) ⟨_, List.mem_singleton_self _, by decide⟩
  obtain rfl := List.mem_singleton.mp hr
  exact absurd hopen (by decide)

end TimeCodeSecurity.Sca
