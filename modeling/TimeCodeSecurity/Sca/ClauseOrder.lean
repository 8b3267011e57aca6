import TimeCodeSecurity.Foundations.BoundFolds
import TimeCodeSecurity.Sca.OverlapSoundness

/-! # The outer bounds and the order of the clauses

A specifier set is yielded in any order. Each clause offers at most one candidate for either bound, and
`getSpecifierOuterBounds` folds them. Three things can make the result depend on the order, or lose a
version of the set: a `closed` and an excluding clause at one decisive version, a clause whose own bound
does not admit what the clause admits, and a decisive lower version that is written with another number
of components, which changes the versions that are probed.
-/
namespace TimeCodeSecurity.Sca
open Pep440 BoundFolds
set_option autoImplicit false

/-! ## The bounds as a fold over candidates -/

def lowerCand (c : Clause) : Option (Cand Version) :=
  match c.operator with
  | .ge => (safeParseVersion c.version).map fun v => ⟨v, .closed⟩
  | .gt => (safeParseVersion c.version).map fun v => ⟨v, .strict⟩
  | .eq =>
    match wildcardPrefix c.version with
    | some p => (safeParseVersion (stripText p)).map fun v => ⟨v, .weak⟩
    | none => (safeParseVersion c.version).map fun v => ⟨v, .weak⟩
  | .compatible => (safeParseVersion c.version).map fun v => ⟨v, .weak⟩
  | .le | .lt | .ne | .arbitrary => none

def upperCand (c : Clause) : Option (Cand Version) :=
  match c.operator with
  | .le => (safeParseVersion c.version).map fun v => ⟨v, .closed⟩
  | .lt => (safeParseVersion c.version).map fun v => ⟨v, .strict⟩
  | .eq =>
    match wildcardPrefix c.version with
    | some p => (wildcardHigh (stripText p).toList).map fun v => ⟨v, .limit⟩
    | none => (safeParseVersion c.version).map fun v => ⟨v, .weak⟩
  | .compatible =>
    if (safeParseVersion c.version).isSome then
      (compatibleHigh c.version).map fun v => ⟨v, .limit⟩
    else none
  | .ge | .gt | .ne | .arbitrary => none

def upperKey (v : Version) : Keyᵒᵈ := OrderDual.toDual v.key

theorem upperKey_lt {v w : Version} : upperKey v < upperKey w ↔ w.key < v.key :=
  OrderDual.toDual_lt_toDual

theorem upperKey_le {v w : Version} : upperKey v ≤ upperKey w ↔ w.key ≤ v.key :=
  OrderDual.toDual_le_toDual

theorem upperKey_inj {v w : Version} : upperKey v = upperKey w ↔ v.key = w.key :=
  OrderDual.toDual_inj

section Rounds
variable {κ : Type} [LinearOrder κ] {key : Version → κ}

theorem some_updateBound {m : Mode} {replaces : Version → Bound → Bool}
    (h : ∀ v b, replaces v b = m.replaces (key v) (key b.1) b.2) (v : Version) (o : Option Bound) :
    some (updateBound m.admits replaces v o) = step key o ⟨v, m⟩ := by
  cases o with
  | none => rfl
  | some b =>
    simp only [updateBound, step, h]
    split <;> rfl

end Rounds

theorem some_lowerGe (v : Version) (o : Option Bound) :
    some (lowerGe v o) = step Version.key o ⟨v, .closed⟩ :=
  some_updateBound (m := .closed) (fun _ _ => rfl) v o

theorem some_lowerGt (v : Version) (o : Option Bound) :
    some (lowerGt v o) = step Version.key o ⟨v, .strict⟩ :=
  some_updateBound (m := .strict) (fun _ _ => rfl) v o

theorem some_lowerEq (v : Version) (o : Option Bound) :
    some (lowerEq v o) = step Version.key o ⟨v, .weak⟩ :=
  some_updateBound (m := .weak) (fun _ _ => rfl) v o

theorem some_upperLe (v : Version) (o : Option Bound) :
    some (upperLe v o) = step upperKey o ⟨v, .closed⟩ :=
  some_updateBound (m := .closed) (fun _ _ => by simp [Mode.replaces, upperKey_lt, upperKey_inj]) v o

theorem some_upperLt (v : Version) (o : Option Bound) :
    some (upperLt v o) = step upperKey o ⟨v, .strict⟩ :=
  some_updateBound (m := .strict) (fun _ _ => by simp [Mode.replaces, upperKey_le]) v o

theorem some_upperEq (v : Version) (o : Option Bound) :
    some (upperEq v o) = step upperKey o ⟨v, .weak⟩ :=
  some_updateBound (m := .weak) (fun _ _ => by simp [Mode.replaces, upperKey_lt]) v o

theorem some_upperBump (v : Version) (o : Option Bound) :
    some (upperBump v o) = step upperKey o ⟨v, .limit⟩ :=
  some_updateBound (m := .limit) (fun _ _ => by simp [Mode.replaces, upperKey_lt, upperKey_inj]) v o

theorem clause_eq (b : OuterBounds) (c : Clause) :
    b.clause c =
      { lower := (lowerCand c).elim b.lower (step Version.key b.lower)
        upper := (upperCand c).elim b.upper (step upperKey b.upper) } := by
  unfold OuterBounds.clause lowerCand upperCand
  cases c.operator with
  | ge => cases safeParseVersion c.version <;> simp [OuterBounds.withLower, some_lowerGe]
  | gt => cases safeParseVersion c.version <;> simp [OuterBounds.withLower, some_lowerGt]
  | le => cases safeParseVersion c.version <;> simp [OuterBounds.withUpper, some_upperLe]
  | lt => cases safeParseVersion c.version <;> simp [OuterBounds.withUpper, some_upperLt]
  | eq =>
    cases hw : wildcardPrefix c.version with
    | none =>
      cases safeParseVersion c.version <;>
        simp [OuterBounds.withLower, OuterBounds.withUpper, some_lowerEq, some_upperEq]
    | some p =>
      cases hl : safeParseVersion (stripText p) <;> cases hu : wildcardHigh (stripText p).toList <;>
        simp [OuterBounds.withLower, OuterBounds.withUpper, some_lowerEq, some_upperBump, hl, hu]
  | compatible =>
    cases safeParseVersion c.version with
    | none => simp
    | some v =>
      cases hu : compatibleHigh c.version <;>
        simp [OuterBounds.withLower, OuterBounds.withUpper, some_lowerEq, some_upperBump]
  | ne => simp
  | arbitrary => simp

theorem foldl_clause (S : SpecifierSet) (b : OuterBounds) :
    S.foldl OuterBounds.clause b =
      { lower := (S.filterMap lowerCand).foldl (step Version.key) b.lower
        upper := (S.filterMap upperCand).foldl (step upperKey) b.upper } := by
  induction S generalizing b with
  | nil => rfl
  | cons c S ih =>
    rw [List.foldl_cons, ih, clause_eq]
    cases hl : lowerCand c <;> cases hu : upperCand c <;> simp [hl, hu]

theorem bounds_eq (S : SpecifierSet) :
    getSpecifierOuterBounds S =
      { lower := tighten Version.key (S.filterMap lowerCand)
        upper := tighten upperKey (S.filterMap upperCand) } := foldl_clause S {}

theorem aboveLower_iff {v : Version} {o : Option Bound} :
    AboveLower v o ↔ ∀ b, o = some b → Inside Version.key v.key b := by
  cases o <;> simp [AboveLower, Inside]

theorem belowUpper_iff {v : Version} {o : Option Bound} :
    BelowUpper v o ↔ ∀ b, o = some b → Inside upperKey (upperKey v) b := by
  cases o with
  | none => simp [BelowUpper]
  | some b => simp [BelowUpper, Inside, upperKey_lt, upperKey_inj, eq_comm (a := v.key)]

def SameBound (a b : Option Bound) : Prop := reading Version.key a = reading Version.key b

def ofSet (allowPre : Multiset Clause → Bool) (S : SpecifierSet) : Bool := allowPre S

/-- In any two orders the bounds are the same, they admit what the set admits, and every interval is
classified alike. -/
def OrderFree (allowPre : Multiset Clause → Bool) (S : SpecifierSet) : Prop :=
  ∀ T U : SpecifierSet, T.Perm S → U.Perm S →
    (SameBound (getSpecifierOuterBounds T).lower (getSpecifierOuterBounds U).lower ∧
      SameBound (getSpecifierOuterBounds T).upper (getSpecifierOuterBounds U).upper) ∧
    (∀ v, InSet (ofSet allowPre) T v → (getSpecifierOuterBounds T).Contain v) ∧
    ∀ (i : Interval) (explicitVersions : List String),
      (classifyIntervalOverlap (ofSet allowPre) T i explicitVersions).1 =
        (classifyIntervalOverlap (ofSet allowPre) U i explicitVersions).1

/-- `v` lies outside the bounds that the clause itself offers: above the version that `<=` or `==` names,
below the version that `==V.*` names, or at or behind the end read for a prefix. -/
def spills (c : Clause) (v : Version) : Prop :=
  match c.operator with
  | .le => ∃ x ∈ safeParseVersion c.version, x.key < v.key
  | .eq =>
    match wildcardPrefix c.version with
    | some p =>
      (∃ x ∈ safeParseVersion (stripText p), v.key < x.key) ∨
        ∃ x ∈ wildcardHigh (stripText p).toList, x.key ≤ v.key
    | none => ∃ x ∈ safeParseVersion c.version, x.key < v.key
  | .compatible => ∃ x ∈ compatibleHigh c.version, x.key ≤ v.key
  | .ge | .gt | .lt | .ne | .arbitrary => False

def DecidesLower (S : SpecifierSet) (v : Version) : Prop :=
  ∃ d, Decides Version.key (S.filterMap lowerCand) d ∧ d.point = v

def namedVersions (S : SpecifierSet) : List Version :=
  S.filterMap fun c => safeParseVersion (rstripWildcard c.version)

def SameProbes (allowPre : Multiset Clause → Bool) (S : SpecifierSet) : Prop :=
  ∀ v w, DecidesLower S v → DecidesLower S w → ∀ g ∈ probingGrid v,
    SpecifierSet.contains (ofSet allowPre) S g = true →
    ∃ x ∈ w :: (namedVersions S ++ probingGrid w),
      SpecifierSet.contains (ofSet allowPre) S x = true ∧ x.key ≤ g.key

structure Orderly (allowPre : Multiset Clause → Bool) (S : SpecifierSet) : Prop where
  lower : Settled Version.key (S.filterMap lowerCand)
  upper : Settled upperKey (S.filterMap upperCand)
  covered : ∀ v, InSet (ofSet allowPre) S v → ∀ c ∈ S, ¬ spills c v
  probes : S.any unsupportedClause = false → SameProbes allowPre S

theorem publicPart_key_le (v : Version) : v.publicPart.key ≤ v.key := by
  have hlabel : (⊥ : WithBot (List SegmentKey)) ≤ v.labelKey := bot_le
  show toLex (v.epoch, toLex (dropTrailingZeros v.release, toLex (v.preKey, toLex (v.postKey,
    toLex (v.devKey, (⊥ : WithBot (List SegmentKey))))))) ≤ v.key
  simp [Version.key, Prod.Lex.toLex_le_toLex, hlabel]

theorem safeParse_eq (s : String) : safeParseVersion s = parse s := by
  unfold safeParseVersion
  split
  next hs =>
    subst hs
    rfl
  next => rw [parse, parse, stripText, String.toList_ofList, strip_strip]

theorem le_of_admitsGe {x v : Version} (h : admitsGe x v = true) : x.key ≤ v.key :=
  (of_decide_eq_true h).trans (publicPart_key_le v)

theorem le_of_admitsEq {x v : Version} (h : admitsEq x v = true) : x.key ≤ v.key := by
  unfold admitsEq at h
  split at h
  · exact (of_decide_eq_true h).ge
  · exact (of_decide_eq_true h).ge.trans (publicPart_key_le v)

theorem inside_iff_not_spills {c : Clause} {v : Version} (h : c.admits v = true) :
    ((∀ d ∈ lowerCand c, Inside Version.key v.key (d.point, d.mode.admits)) ∧
      ∀ d ∈ upperCand c, Inside upperKey (upperKey v) (d.point, d.mode.admits)) ↔ ¬ spills c v := by
  unfold Clause.admits at h
  unfold lowerCand upperCand spills
  cases hop : c.operator with
  | ge =>
    simp only [hop] at h
    obtain ⟨x, hx, hge⟩ := (Option.any_eq_true _ _).mp h
    simp [safeParse_eq, hx, Mode.admits, le_of_admitsGe hge]
  | gt =>
    simp only [hop] at h
    obtain ⟨x, hx, hgt⟩ := (Option.any_eq_true _ _).mp h
    have hlt : x.key < v.key := by
      simp only [admitsGt, Bool.and_eq_true, decide_eq_true_eq] at hgt
      exact hgt.1.1
    simp [safeParse_eq, hx, Mode.admits, hlt]
  | le => simp [Mode.admits, upperKey_le]
  | lt =>
    simp only [hop] at h
    obtain ⟨x, hx, hlt⟩ := (Option.any_eq_true _ _).mp h
    have hlt' : v.key < x.key := by
      simp only [admitsLt, Bool.and_eq_true, decide_eq_true_eq] at hlt
      exact hlt.1
    simp [safeParse_eq, hx, Mode.admits, upperKey_lt, hlt']
  | eq =>
    simp only [hop, Clause.admitsEqual] at h
    cases hw : wildcardPrefix c.version with
    | none =>
      simp only [hw] at h
      obtain ⟨x, hx, heq⟩ := (Option.any_eq_true _ _).mp h
      simp [safeParse_eq, hx, Mode.admits, upperKey_le, le_of_admitsEq heq]
    | some p => simp [Mode.admits, upperKey_lt]
  | compatible =>
    simp only [hop] at h
    obtain ⟨x, hx, hboth⟩ := (Option.any_eq_true _ _).mp h
    have hge := le_of_admitsGe (Bool.and_eq_true_iff.mp hboth).1
    simp [safeParse_eq, hx, Mode.admits, upperKey_lt, hge]
  | ne => simp
  | arbitrary => simp

theorem admits_of_inSet {allowPre : SpecifierSet → Bool} {S : SpecifierSet} {v : Version}
    (h : InSet allowPre S v) : ∀ c ∈ S, c.admits v = true :=
  List.all_eq_true.mp (Bool.and_eq_true_iff.mp h.2).2

theorem contain_of_covered {allowPre : SpecifierSet → Bool} {S : SpecifierSet} {v : Version}
    (hv : InSet allowPre S v) (h : ∀ c ∈ S, ¬ spills c v) :
    (getSpecifierOuterBounds S).Contain v := by
  have hin := fun c hc => (inside_iff_not_spills (admits_of_inSet hv c hc)).mpr (h c hc)
  rw [bounds_eq]
  refine ⟨aboveLower_iff.mpr fun b hb => ?_, belowUpper_iff.mpr fun b hb => ?_⟩
  · refine inside_tighten _ (fun d hd => ?_) hb
    obtain ⟨c, hc, hcd⟩ := List.mem_filterMap.mp hd
    exact (hin c hc).1 d hcd
  · refine inside_tighten _ (fun d hd => ?_) hb
    obtain ⟨c, hc, hcd⟩ := List.mem_filterMap.mp hd
    exact (hin c hc).2 d hcd

theorem covered_of_contain {allowPre : SpecifierSet → Bool} {S : SpecifierSet} {v : Version}
    (hlow : Settled Version.key (S.filterMap lowerCand))
    (hup : Settled upperKey (S.filterMap upperCand)) (hv : InSet allowPre S v)
    (h : (getSpecifierOuterBounds S).Contain v) : ∀ c ∈ S, ¬ spills c v := by
  rw [bounds_eq] at h
  intro c hc
  refine (inside_iff_not_spills (admits_of_inSet hv c hc)).mp ⟨fun d hd => ?_, fun d hd => ?_⟩
  · exact hlow.inside_of_tighten _ (aboveLower_iff.mp h.1) d (List.mem_filterMap.mpr ⟨c, hc, hd⟩)
  · exact hup.inside_of_tighten _ (belowUpper_iff.mp h.2) d (List.mem_filterMap.mpr ⟨c, hc, hd⟩)

/-! ## Classification in two orders -/

theorem contains_perm (allowPre : Multiset Clause → Bool) {S T : SpecifierSet} (hp : S.Perm T)
    (v : Version) :
    SpecifierSet.contains (ofSet allowPre) S v = SpecifierSet.contains (ofSet allowPre) T v := by
  have hset : ofSet allowPre S = ofSet allowPre T := congrArg allowPre (Multiset.coe_eq_coe.mpr hp)
  rw [SpecifierSet.contains, SpecifierSet.contains, hset, hp.all_eq]

theorem isVersionInInterval_congr {v w : Version} (h : v.key = w.key) (i : Interval) :
    isVersionInInterval v i = isVersionInInterval w i := by
  simp only [isVersionInInterval, h]

theorem isVersionInInterval_of_le {v w : Version} {i : Interval} (hintro : i.ends.introduced = none)
    (hle : w.key ≤ v.key) (hi : isVersionInInterval v i = true) : isVersionInInterval w i = true := by
  obtain ⟨-, hfixed, hlast, hlimit⟩ := isVersionInInterval_iff.mp hi
  refine isVersionInInterval_iff.mpr ⟨?_, ?_, ?_, ?_⟩
  · simp [hintro]
  · exact fun b hb => hle.trans_lt (hfixed b hb)
  · exact fun b hb => hle.trans (hlast b hb)
  · exact fun b hb => hle.trans_lt (hlimit b hb)

theorem SameBound.cases {a b : Option Bound} (h : SameBound a b) :
    (a = none ∧ b = none) ∨
      ∃ v w f, v.key = w.key ∧ a = some (v, f) ∧ b = some (w, f) := by
  unfold SameBound reading at h
  cases a with
  | none =>
    cases b with
    | none => simp
    | some y => simp at h
  | some x =>
    cases b with
    | none => simp at h
    | some y =>
      obtain ⟨v, f⟩ := x
      obtain ⟨w, f'⟩ := y
      simp only [Option.map_some, Option.some.injEq, Prod.mk.injEq] at h
      obtain ⟨hkey, rfl⟩ := h
      exact .inr ⟨v, w, f, hkey, rfl, rfl⟩

theorem unsatisfiable_congr {a b : OuterBounds} (hl : SameBound a.lower b.lower)
    (hu : SameBound a.upper b.upper) : a.unsatisfiable = b.unsatisfiable := by
  unfold OuterBounds.unsatisfiable
  rcases hl.cases with ⟨ha, hb⟩ | ⟨v, w, f, hkey, ha, hb⟩
  · simp [ha, hb]
  · rcases hu.cases with ⟨ha', hb'⟩ | ⟨v', w', f', hkey', ha', hb'⟩
    · simp [ha, hb, ha', hb']
    · simp [ha, hb, ha', hb', hkey, hkey']

theorem separated_congr {a b : OuterBounds} (hl : SameBound a.lower b.lower)
    (hu : SameBound a.upper b.upper) (e : IntervalEnds) : separated a e = separated b e := by
  have hbelow : belowInterval a.upper e.introduced = belowInterval b.upper e.introduced := by
    rcases hu.cases with ⟨ha, hb⟩ | ⟨v, w, f, hkey, ha, hb⟩
    · rw [ha, hb]
    · cases e.introduced <;> simp [belowInterval, ha, hb, hkey]
  have hexcl : ∀ stop, aboveExclusiveEnd a.lower stop = aboveExclusiveEnd b.lower stop := by
    intro stop
    rcases hl.cases with ⟨ha, hb⟩ | ⟨v, w, f, hkey, ha, hb⟩
    · rw [ha, hb]
    · cases stop <;> simp [aboveExclusiveEnd, ha, hb, hkey]
  have hincl : ∀ stop, aboveInclusiveEnd a.lower stop = aboveInclusiveEnd b.lower stop := by
    intro stop
    rcases hl.cases with ⟨ha, hb⟩ | ⟨v, w, f, hkey, ha, hb⟩
    · rw [ha, hb]
    · cases stop <;> simp [aboveInclusiveEnd, ha, hb, hkey]
  simp only [separated, hbelow, hexcl, hincl]

def probeStart (b : OuterBounds) (e : IntervalEnds) : Option Version :=
  e.introduced.orElse fun _ => (b.lower.map Prod.fst).orElse fun _ => parse "0.0.1"

theorem mem_candidates {S : SpecifierSet} {b : OuterBounds} {e : IntervalEnds}
    {explicitVersions : List String} {v : Version} :
    v ∈ candidates S b e explicitVersions ↔
      v ∈ explicitVersions.filterMap safeParseVersion ∨ e.introduced = some v ∨
      e.lastAffected = some v ∨ (∃ f, b.lower = some (v, f)) ∨ v ∈ namedVersions S ∨
      ∃ s, probeStart b e = some s ∧ v ∈ probingGrid s := by
  have hgrid : v ∈ (probeStart b e).elim [] probingGrid ↔
      ∃ s, probeStart b e = some s ∧ v ∈ probingGrid s := by
    cases probeStart b e <;> simp
  rw [← hgrid]
  simp [candidates, namedVersions, probeStart, or_assoc]

theorem mem_candidates_of_lower {S : SpecifierSet} {b : OuterBounds} (e : IntervalEnds)
    (explicitVersions : List String) {v : Version} {f : Bool} (h : b.lower = some (v, f)) :
    v ∈ candidates S b e explicitVersions :=
  mem_candidates.mpr (.inr (.inr (.inr (.inl ⟨f, h⟩))))

theorem mem_candidates_of_named {S : SpecifierSet} (b : OuterBounds) (e : IntervalEnds)
    (explicitVersions : List String) {v : Version} (h : v ∈ namedVersions S) :
    v ∈ candidates S b e explicitVersions :=
  mem_candidates.mpr (.inr (.inr (.inr (.inr (.inl h)))))

theorem mem_candidates_of_grid {S : SpecifierSet} {b : OuterBounds} {e : IntervalEnds}
    (explicitVersions : List String) {s v : Version} (hs : probeStart b e = some s)
    (h : v ∈ probingGrid s) : v ∈ candidates S b e explicitVersions :=
  mem_candidates.mpr (.inr (.inr (.inr (.inr (.inr ⟨s, hs, h⟩)))))

theorem mem_namedVersions_perm {S T : SpecifierSet} (hp : S.Perm T) {v : Version}
    (h : v ∈ namedVersions S) : v ∈ namedVersions T :=
  (hp.filterMap _).mem_iff.mp h

section Orders
variable {allowPre : Multiset Clause → Bool} {S T U : SpecifierSet}

theorem decidesLower_of_bounds (hlow : Settled Version.key (S.filterMap lowerCand)) (hT : T.Perm S)
    {v : Version} {f : Bool} (h : (getSpecifierOuterBounds T).lower = some (v, f)) :
    DecidesLower S v := by
  rw [bounds_eq] at h
  obtain ⟨d, hd, hvd⟩ := (hlow.perm _ (hT.symm.filterMap _)).decides _ h
  cases hvd
  exact ⟨d, hd.perm _ (hT.filterMap _), rfl⟩

theorem lowerCand_mode_ne_limit {c : Clause} {d : Cand Version} (h : lowerCand c = some d) :
    d.mode ≠ .limit := by
  unfold lowerCand at h
  split at h
  · obtain ⟨v, -, rfl⟩ := Option.map_eq_some_iff.mp h
    simp
  · obtain ⟨v, -, rfl⟩ := Option.map_eq_some_iff.mp h
    simp
  · split at h
    · obtain ⟨v, -, rfl⟩ := Option.map_eq_some_iff.mp h
      simp
    · obtain ⟨v, -, rfl⟩ := Option.map_eq_some_iff.mp h
      simp
  · obtain ⟨v, -, rfl⟩ := Option.map_eq_some_iff.mp h
    simp
  all_goals cases h

theorem exists_order {v : Version} (h : DecidesLower S v) :
    ∃ T : SpecifierSet, T.Perm S ∧ ∃ f, (getSpecifierOuterBounds T).lower = some (v, f) := by
  obtain ⟨d, hd, rfl⟩ := h
  obtain ⟨c, -, hc⟩ := List.mem_filterMap.mp hd.1.1
  obtain ⟨T, hT, hlow⟩ := exists_deciding Version.key lowerCand hd (lowerCand_mode_ne_limit hc)
  exact ⟨T, hT, d.mode.admits, by rw [bounds_eq, hlow]⟩

theorem sameBounds (hlow : Settled Version.key (S.filterMap lowerCand))
    (hup : Settled upperKey (S.filterMap upperCand)) (hT : T.Perm S) (hU : U.Perm S) :
    SameBound (getSpecifierOuterBounds T).lower (getSpecifierOuterBounds U).lower ∧
      SameBound (getSpecifierOuterBounds T).upper (getSpecifierOuterBounds U).upper := by
  have hTU : T.Perm U := hT.trans hU.symm
  rw [bounds_eq, bounds_eq]
  refine ⟨(hlow.perm _ (hT.symm.filterMap _)).reading_perm _ (hTU.filterMap _), ?_⟩
  have hread := (hup.perm _ (hT.symm.filterMap _)).reading_perm _ (hTU.filterMap upperCand)
  exact hread

theorem candidate_of_candidate (hlow : Settled Version.key (S.filterMap lowerCand))
    (hup : Settled upperKey (S.filterMap upperCand)) (hsup : S.any unsupportedClause = false)
    (hprobes : SameProbes allowPre S) (hT : T.Perm S) (hU : U.Perm S) {i : Interval}
    {explicitVersions : List String} {v : Version}
    (hv : v ∈ candidates T (getSpecifierOuterBounds T) i.ends explicitVersions)
    (hin : SpecifierSet.contains (ofSet allowPre) S v = true)
    (hi : isVersionInInterval v i = true) :
    ∃ w ∈ candidates U (getSpecifierOuterBounds U) i.ends explicitVersions,
      SpecifierSet.contains (ofSet allowPre) S w = true ∧ isVersionInInterval w i = true := by
  have hplain := not_arbitrary_of_supported hsup
  have hbounds := (sameBounds hlow hup hT hU).1
  rcases mem_candidates.mp hv with h | h | h | ⟨f, h⟩ | h | ⟨s, hs, hg⟩
  · exact ⟨v, mem_candidates.mpr (.inl h), hin, hi⟩
  · exact ⟨v, mem_candidates.mpr (.inr (.inl h)), hin, hi⟩
  · exact ⟨v, mem_candidates.mpr (.inr (.inr (.inl h))), hin, hi⟩
  · -- the lower bound itself: the other order has one at the same version
    rcases hbounds.cases with ⟨ha, -⟩ | ⟨v', w, f', hkey, ha, hb⟩
    · rw [h] at ha
      cases ha
    · rw [h] at ha
      cases ha
      refine ⟨w, mem_candidates_of_lower _ _ hb, ?_, ?_⟩
      · rw [← contains_congr hkey hplain, hin]
      · rw [← isVersionInInterval_congr hkey, hi]
  · have hnamed := mem_namedVersions_perm (hT.trans hU.symm) h
    exact ⟨v, mem_candidates_of_named _ _ _ hnamed, hin, hi⟩
  · cases hintro : i.ends.introduced with
    | some x =>
      have hs' : probeStart (getSpecifierOuterBounds U) i.ends = some s := by
        rw [← hs, probeStart, probeStart, hintro]
        rfl
      exact ⟨v, mem_candidates_of_grid _ hs' hg, hin, hi⟩
    | none =>
      rcases hbounds.cases with ⟨ha, hb⟩ | ⟨v', w, f, hkey, ha, hb⟩
      · have hs' : probeStart (getSpecifierOuterBounds U) i.ends = some s := by
          rw [← hs, probeStart, probeStart, hintro, ha, hb]
        exact ⟨v, mem_candidates_of_grid _ hs' hg, hin, hi⟩
      · -- probing from the lower bound, which the other order may write differently
        have hsv : v' = s := by
          rw [probeStart, hintro, ha] at hs
          exact Option.some.inj hs
        subst hsv
        obtain ⟨x, hx, hxin, hle⟩ := hprobes v' w (decidesLower_of_bounds hlow hT ha)
          (decidesLower_of_bounds hlow hU hb) v hg hin
        refine ⟨x, ?_, hxin, isVersionInInterval_of_le hintro hle hi⟩
        rcases List.mem_cons.mp hx with rfl | hx
        · exact mem_candidates_of_lower _ _ hb
        · rcases List.mem_append.mp hx with hx | hx
          · exact mem_candidates_of_named _ _ _ (mem_namedVersions_perm hU.symm hx)
          · apply mem_candidates_of_grid _ _ hx
            rw [probeStart, hintro, hb]
            rfl

theorem any_candidates_same (hlow : Settled Version.key (S.filterMap lowerCand))
    (hup : Settled upperKey (S.filterMap upperCand)) (hsup : S.any unsupportedClause = false)
    (hprobes : SameProbes allowPre S) (hT : T.Perm S) (hU : U.Perm S) (i : Interval)
    (explicitVersions : List String) :
    ((candidates T (getSpecifierOuterBounds T) i.ends explicitVersions).any fun v =>
      SpecifierSet.contains (ofSet allowPre) S v && isVersionInInterval v i) =
      (candidates U (getSpecifierOuterBounds U) i.ends explicitVersions).any fun v =>
        SpecifierSet.contains (ofSet allowPre) S v && isVersionInInterval v i := by
  rw [Bool.eq_iff_iff]
  simp only [List.any_eq_true, Bool.and_eq_true]
  constructor
  · rintro ⟨v, hv, hin, hi⟩
    exact candidate_of_candidate hlow hup hsup hprobes hT hU hv hin hi
  · rintro ⟨v, hv, hin, hi⟩
    exact candidate_of_candidate hlow hup hsup hprobes hU hT hv hin hi

theorem classify_same (hlow : Settled Version.key (S.filterMap lowerCand))
    (hup : Settled upperKey (S.filterMap upperCand))
    (hprobes : S.any unsupportedClause = false → SameProbes allowPre S) (hT : T.Perm S)
    (hU : U.Perm S) (i : Interval) (explicitVersions : List String) :
    (classifyIntervalOverlap (ofSet allowPre) T i explicitVersions).1 =
      (classifyIntervalOverlap (ofSet allowPre) U i explicitVersions).1 := by
  have hsupT : T.any unsupportedClause = S.any unsupportedClause := hT.any_eq
  have hsupU : U.any unsupportedClause = S.any unsupportedClause := hU.any_eq
  obtain ⟨hl, hu⟩ := sameBounds hlow hup hT hU
  unfold classifyIntervalOverlap
  rw [hsupT, hsupU]
  by_cases hread : i.unreadable = true
  · simp only [hread, if_true]
  by_cases hsup : S.any unsupportedClause = true
  · simp only [hread, hsup, if_true, Bool.false_eq_true, if_false]
  have hsup' : S.any unsupportedClause = false := by simpa using hsup
  have hprobe : (classifyIntervalOverlap.probe (ofSet allowPre) T i explicitVersions
      (getSpecifierOuterBounds T) i.ends).1 =
      (classifyIntervalOverlap.probe (ofSet allowPre) U i explicitVersions
        (getSpecifierOuterBounds U) i.ends).1 := by
    unfold classifyIntervalOverlap.probe
    simp only [contains_perm allowPre hT, contains_perm allowPre hU]
    rw [any_candidates_same hlow hup hsup' (hprobes hsup') hT hU]
  simp only [hread, hsup, Bool.false_eq_true, if_false, unsatisfiable_congr hl hu,
    separated_congr hl hu, contains_perm allowPre hT, contains_perm allowPre hU]
  -- what is left of both sides differs in the probing only
  split
  · rfl
  split
  · rfl
  split
  · split
    · split <;> rfl
    · exact hprobe
  · exact hprobe

/-! ## The verdict tells the grids apart -/

theorem classify_overlap_of_candidate {a : SpecifierSet → Bool} {i : Interval} {g : Version}
    {explicitVersions : List String} (hread : i.unreadable = false)
    (hsup : T.any unsupportedClause = false) (hintro : i.ends.introduced = none)
    (hb : (getSpecifierOuterBounds T).Contain g)
    (hg : g ∈ candidates T (getSpecifierOuterBounds T) i.ends explicitVersions)
    (hin : SpecifierSet.contains a T g = true) (hi : isVersionInInterval g i = true) :
    (classifyIntervalOverlap a T i explicitVersions).1 = .provenOverlap := by
  have hany : ((candidates T (getSpecifierOuterBounds T) i.ends explicitVersions).any fun v =>
      SpecifierSet.contains a T v && isVersionInInterval v i) = true :=
    List.any_eq_true.mpr ⟨g, hg, by rw [hin, hi]; rfl⟩
  unfold classifyIntervalOverlap
  simp only [hread, hsup, unsatisfiable_eq_false hb, separated_eq_false hb hi, hintro,
    Bool.false_eq_true, if_false, classifyIntervalOverlap.probe, hany, if_true]

theorem exists_candidate_of_overlap {a : SpecifierSet → Bool} {i : Interval}
    {explicitVersions : List String} (hintro : i.ends.introduced = none)
    (h : (classifyIntervalOverlap a T i explicitVersions).1 = .provenOverlap) :
    ∃ x ∈ candidates T (getSpecifierOuterBounds T) i.ends explicitVersions,
      SpecifierSet.contains a T x = true ∧ isVersionInInterval x i = true := by
  unfold classifyIntervalOverlap at h
  simp only [hintro, classifyIntervalOverlap.probe] at h
  split at h
  · cases h
  split at h
  · cases h
  split at h
  · cases h
  split at h
  · cases h
  split at h
  next hany =>
    obtain ⟨x, hx, hboth⟩ := List.any_eq_true.mp hany
    exact ⟨x, hx, Bool.and_eq_true_iff.mp hboth⟩
  next => cases h

theorem exists_interval_below {g : Version} {L : List Version} (hL : ∀ x ∈ L, IsVersion x)
    (h : ∀ x ∈ L, g.key < x.key) :
    ∃ i : Interval, i.unreadable = false ∧ i.ends.introduced = none ∧ i.ends.lastAffected = none ∧
      isVersionInInterval g i = true ∧ ∀ x ∈ L, isVersionInInterval x i = false := by
  by_cases hnil : L = []
  · subst hnil
    exact ⟨{}, rfl, rfl, rfl, rfl, by simp⟩
  · obtain ⟨m, hm, hleast⟩ := L.toFinset.exists_min_image Version.key
      ((List.exists_mem_of_ne_nil L hnil).imp fun x hx => List.mem_toFinset.mpr hx)
    have hm' : m ∈ L := List.mem_toFinset.mp hm
    obtain ⟨s, hs⟩ := hL m hm'
    have hparse := safeParseVersion_stripText hs
    refine ⟨{ fixed := some (stripText s) }, ?_, rfl, rfl, ?_, fun x hx => ?_⟩
    · simp [Interval.unreadable, unreadableBound, hparse]
    · simp [isVersionInInterval, boundVersion, hparse, h m hm']
    · have hle : m.key ≤ x.key := hleast x (List.mem_toFinset.mpr hx)
      simp [isVersionInInterval, boundVersion, hparse, hle]

theorem sameProbes_of_orderFree (h : OrderFree allowPre S) (hsup : S.any unsupportedClause = false) :
    SameProbes allowPre S := by
  intro v w hv hw g hg hin
  by_contra hno
  obtain ⟨T, hT, f, hTlow⟩ := exists_order hv
  obtain ⟨U, hU, f', hUlow⟩ := exists_order hw
  -- what the other order probes and the set admits lies above `g`
  obtain ⟨i, hread, hintro, hlast, hgi, hout⟩ := exists_interval_below (g := g)
    (L := (w :: (namedVersions S ++ probingGrid w)).filter
      fun x => SpecifierSet.contains (ofSet allowPre) S x)
    (by
      intro x hx
      obtain ⟨hx, -⟩ := List.mem_filter.mp hx
      rcases List.mem_cons.mp hx with rfl | hx
      · exact (parsed_getSpecifierOuterBounds U).1 _ hUlow
      · rcases List.mem_append.mp hx with hx | hx
        · obtain ⟨c, -, hc⟩ := List.mem_filterMap.mp hx
          exact isVersion_of_safeParse hc
        · exact isVersion_probingGrid hx)
    (by
      intro x hx
      obtain ⟨hx, hxin⟩ := List.mem_filter.mp hx
      exact not_le.mp fun hle => hno ⟨x, hx, hxin, hle⟩)
  have hstart : probeStart (getSpecifierOuterBounds T) i.ends = some v := by
    rw [probeStart, hintro, hTlow]
    rfl
  have hginT : SpecifierSet.contains (ofSet allowPre) T g = true := by
    rw [contains_perm allowPre hT, hin]
  have hcontain := (h T T hT hT).2.1 g ⟨isVersion_probingGrid hg, hginT⟩
  have hoverlap : (classifyIntervalOverlap (ofSet allowPre) T i []).1 = .provenOverlap :=
    classify_overlap_of_candidate hread (by rw [hT.any_eq, hsup]) hintro hcontain
      (mem_candidates_of_grid _ hstart hg) hginT hgi
  rw [(h T U hT hU).2.2 i []] at hoverlap
  obtain ⟨x, hx, hxin, hxi⟩ := exists_candidate_of_overlap hintro hoverlap
  rw [contains_perm allowPre hU] at hxin
  have hmem : x ∈ w :: (namedVersions S ++ probingGrid w) := by
    rcases mem_candidates.mp hx with hx | hx | hx | ⟨f, hx⟩ | hx | ⟨s, hs, hx⟩
    · cases hx
    · rw [hintro] at hx
      cases hx
    · rw [hlast] at hx
      cases hx
    · rw [hUlow] at hx
      cases hx
      exact List.mem_cons_self
    · exact List.mem_cons_of_mem _ (List.mem_append_left _ (mem_namedVersions_perm hU hx))
    · rw [probeStart, hintro, hUlow] at hs
      cases hs
      exact List.mem_cons_of_mem _ (List.mem_append_right _ hx)
  rw [hout x (List.mem_filter.mpr ⟨hmem, hxin⟩)] at hxi
  cases hxi

/-- **Order.** The bounds and the verdicts are those of the set exactly when no `>=` stands beside a `>`
at the greatest lower version and no `<=` beside a `<` or a prefix end at the least upper version, no
version of the set spills over a clause, and the decisive lower versions are probed alike. -/
theorem orderFree_iff (allowPre : Multiset Clause → Bool) (S : SpecifierSet) :
    OrderFree allowPre S ↔ Orderly allowPre S := by
  constructor
  · intro h
    have hlow : Settled Version.key (S.filterMap lowerCand) := by
      apply settled_of_readings
      intro T hT
      have hsame := (h T S hT (List.Perm.refl S)).1.1
      rw [bounds_eq, bounds_eq] at hsame
      exact hsame
    have hup : Settled upperKey (S.filterMap upperCand) := by
      apply settled_of_readings
      intro T hT
      have hsame := (h T S hT (List.Perm.refl S)).1.2
      rw [bounds_eq, bounds_eq] at hsame
      exact hsame
    refine ⟨hlow, hup, fun v hv => ?_, sameProbes_of_orderFree h⟩
    exact covered_of_contain hlow hup hv
      ((h S S (List.Perm.refl S) (List.Perm.refl S)).2.1 v hv)
  · intro h T U hT hU
    refine ⟨sameBounds h.lower h.upper hT hU, fun v hv => ?_,
      classify_same h.lower h.upper h.probes hT hU⟩
    apply contain_of_covered hv
    have hvS : InSet (ofSet allowPre) S v := ⟨hv.1, by rw [← contains_perm allowPre hT, hv.2]⟩
    exact fun c hc => h.covered v hvS c (hT.mem_iff.mp hc)

end Orders

/-- `>1.0,>=1.0`: the last clause says whether `1.0` is inside. -/
theorem order_decides_inclusiveness : ¬ ∀ (allowPre : Multiset Clause → Bool) (S : SpecifierSet),
    OrderFree allowPre S := by
  intro h
  have hsame := (h (fun _ => false) [⟨.gt, "1.0"⟩, ⟨.ge, "1.0"⟩] [⟨.gt, "1.0"⟩, ⟨.ge, "1.0"⟩]
    [⟨.ge, "1.0"⟩, ⟨.gt, "1.0"⟩] (List.Perm.refl _) (List.Perm.swap _ _ _)).1.1
  exact absurd hsame (by unfold SameBound; decide)

end TimeCodeSecurity.Sca
