import Mathlib.Data.List.Induction
import TimeCodeSecurity.Scanner.StaticFold

/-! # What the sweep knows at a line

The aliases in force at a line are the right-hand sides the walk over the scopes would fold there. The
literals are those of every record that has been written up to the line and was not hidden on its own
line, whether or not a later record hides it by now.
-/
namespace TimeCodeSecurity.Py.Value
set_option autoImplicit false

theorem equal_iff (a b : Value) : a.equal b = true ↔
    a.asNumber = b.asNumber ∧ (a.asNumber = Option.none → a = b) := by
  unfold equal
  cases ha : a.asNumber <;> cases hb : b.asNumber <;> simp

theorem equal_equivalence : Equivalence fun a b : Value => a.equal b = true where
  refl a := by
    rw [equal_iff]
    exact ⟨rfl, fun _ => rfl⟩
  symm {a b} h := by
    rw [equal_iff] at h ⊢
    exact ⟨h.1.symm, fun hb => (h.2 (h.1.trans hb)).symm⟩
  trans {a b c} hab hbc := by
    rw [equal_iff] at hab hbc ⊢
    exact ⟨hab.1.trans hbc.1, fun ha => (hab.2 ha).trans (hbc.2 (hab.1.symm.trans ha))⟩

end TimeCodeSecurity.Py.Value

namespace TimeCodeSecurity.Scanner
open Py

/-! ## The intervals of one scope -/

/-- A record on `lineno` counts for a question about `line`. -/
def visible (line lineno : ℕ) : Bool := line = 0 ∨ lineno ≤ line

theorem visible_of_le {line l l' : ℕ} (h : l ≤ l') (hl' : visible line l' = true) :
    visible line l = true := by
  simp only [visible, decide_eq_true_eq] at hl' ⊢
  omega

def candidateOf (addFloat : ℚ → ℚ → ℚ) (r : AssignmentRecord) : Option Candidate :=
  match literalOnlyValue addFloat r.valueNode with
  | none => if valueMayFold r.valueNode then some (.alias r) else none
  | some none => none
  | some (some v) => some (.literal v)

def Candidate.aliasRecord : Candidate → Option AssignmentRecord
  | .literal _ => none
  | .alias r => some r

def Candidate.literalValue : Candidate → Option Value
  | .literal v => some v
  | .alias _ => none

/-- In force at `line`: begun and not hidden. -/
def Interval.isLive (line : ℕ) (iv : Interval) : Bool :=
  visible line iv.lower && !iv.upper.any (visible line)

def lastVisible (line : ℕ) (recs : List AssignmentRecord) : Option AssignmentRecord :=
  (recs.filter fun r => visible line r.lineno).getLast?

section
variable {addFloat : ℚ → ℚ → ℚ}

theorem intervals_cons (r : AssignmentRecord) (later : List AssignmentRecord) :
    intervals addFloat (r :: later) =
      if (earliest later).any (· ≤ r.lineno) then intervals addFloat later
      else (candidateOf addFloat r).toList.map (⟨r.lineno, earliest later, ·⟩) ++
        intervals addFloat later := by
  rw [intervals, candidateOf]
  split
  · rfl
  · cases literalOnlyValue addFloat r.valueNode with
    | none => cases valueMayFold r.valueNode <;> rfl
    | some o => cases o <;> rfl

theorem earliest_any_iff {p : ℕ → Bool} (hp : ∀ l l', l ≤ l' → p l' = true → p l = true)
    (recs : List AssignmentRecord) :
    (earliest recs).any p = true ↔ ∃ r ∈ recs, p r.lineno = true := by
  unfold earliest
  cases hmin : (recs.map (·.lineno)).min? with
  | none =>
    have hnil : recs = [] := by simpa using hmin
    simp [hnil]
  | some m =>
    have hm := List.min?_eq_some_iff.mp hmin
    constructor
    · intro h
      obtain ⟨r, hr, hrm⟩ := List.mem_map.mp hm.1
      exact ⟨r, hr, hrm ▸ h⟩
    · rintro ⟨r, hr, hpr⟩
      exact hp m r.lineno (hm.2 _ (List.mem_map_of_mem hr)) hpr

theorem intervals_upper {recs : List AssignmentRecord} {iv : Interval}
    (h : iv ∈ intervals addFloat recs) {u : ℕ} (hu : iv.upper = some u) : iv.lower < u := by
  induction recs with
  | nil => exact absurd h List.not_mem_nil
  | cons r later ih =>
    rw [intervals_cons] at h
    split at h
    · exact ih h
    · rename_i hfirst
      rcases List.mem_append.mp h with h | h
      · obtain ⟨c, -, rfl⟩ := List.mem_map.mp h
        simp only at hu ⊢
        simp only [hu, Option.any_some, decide_eq_true_eq] at hfirst
        omega
      · exact ih h

theorem intervals_live (line : ℕ) (recs : List AssignmentRecord) :
    ((intervals addFloat recs).filter (·.isLive line)).map (·.candidate) =
      ((lastVisible line recs).bind (candidateOf addFloat)).toList := by
  induction recs with
  | nil => rfl
  | cons r later ih =>
    have hlater : (earliest later).any (visible line) = true ↔
        ∃ r' ∈ later, visible line r'.lineno = true :=
      earliest_any_iff (fun _ _ => visible_of_le) later
    by_cases hany : ∃ r' ∈ later, visible line r'.lineno = true
    · -- a later record counts, so the one in front is hidden
      have hlast : lastVisible line (r :: later) = lastVisible line later := by
        have hne : later.filter (fun r => visible line r.lineno) ≠ [] := by
          obtain ⟨r', hr', hv⟩ := hany
          exact List.ne_nil_of_mem (List.mem_filter.mpr ⟨hr', hv⟩)
        rw [lastVisible, lastVisible, List.filter_cons]
        split
        · exact List.getLast?_cons_of_ne_nil hne
        · rfl
      rw [hlast, ← ih, intervals_cons]
      split
      · rfl
      · rw [List.filter_append, List.map_append]
        have hdead : ((candidateOf addFloat r).toList.map
            (Interval.mk r.lineno (earliest later) ·)).filter (·.isLive line) = [] := by
          rw [List.filter_eq_nil_iff]
          intro iv hiv
          obtain ⟨c, -, rfl⟩ := List.mem_map.mp hiv
          simp [Interval.isLive, hlater.mpr hany]
        rw [hdead]
        rfl
    · -- no later record counts
      have hnone : later.filter (fun r => visible line r.lineno) = [] := by
        rw [List.filter_eq_nil_iff]
        intro r' hr' hv
        exact hany ⟨r', hr', hv⟩
      have hrest : ((intervals addFloat later).filter (·.isLive line)).map (·.candidate) = [] := by
        rw [ih, lastVisible, hnone]
        rfl
      have hupper : (earliest later).any (visible line) = false := by
        rw [← Bool.not_eq_true, hlater]
        exact hany
      by_cases hr : visible line r.lineno = true
      · have hlast : lastVisible line (r :: later) = some r := by
          rw [lastVisible, List.filter_cons, if_pos hr, hnone]
          rfl
        have hopen : ¬((earliest later).any (· ≤ r.lineno)) = true := by
          rw [earliest_any_iff fun l l' h h' => by
            simp only [decide_eq_true_eq] at h' ⊢
            omega]
          rintro ⟨r', hr', hle⟩
          exact hany ⟨r', hr', visible_of_le (of_decide_eq_true hle) hr⟩
        rw [hlast, intervals_cons, if_neg hopen, List.filter_append, List.map_append, hrest,
          List.append_nil, Option.bind_some]
        cases candidateOf addFloat r with
        | none => rfl
        | some c => simp [Interval.isLive, hr, hupper]
      · have hlast : lastVisible line (r :: later) = none := by
          rw [lastVisible, List.filter_cons, if_neg hr, hnone]
          rfl
        rw [hlast, intervals_cons]
        split
        · rw [hrest]
          rfl
        · rw [List.filter_append, List.map_append, hrest, List.append_nil]
          cases candidateOf addFloat r with
          | none => rfl
          | some c => simp [Interval.isLive, hr]

end

abbrev Boundary : Type := ℕ × Bool × ℕ × Candidate

theorem mem_boundaries {ivs : List Interval} {b : Boundary} :
    b ∈ boundaries ivs ↔ ∃ iv, (iv, b.2.2.1) ∈ ivs.zipIdx ∧ b.2.2.2 = iv.candidate ∧
      if b.2.1 then b.1 = iv.lower else iv.upper = some b.1 := by
  unfold boundaries
  rw [List.mem_insertionSort, List.mem_flatMap]
  constructor
  · rintro ⟨⟨iv, i⟩, hmem, hb⟩
    rcases List.mem_cons.mp hb with rfl | hb
    · exact ⟨iv, hmem, rfl, rfl⟩
    · obtain ⟨u, hu, rfl⟩ := List.mem_map.mp hb
      exact ⟨iv, hmem, rfl, Option.mem_toList.mp hu⟩
  · obtain ⟨l, opens, i, c⟩ := b
    rintro ⟨iv, hmem, hc, hline⟩
    refine ⟨(iv, i), hmem, ?_⟩
    simp only at hc hline ⊢
    subst hc
    cases opens with
    | true => rw [if_pos rfl] at hline; simp [hline]
    | false => rw [if_neg Bool.false_ne_true] at hline; simp [hline]

theorem zipIdx_unique {α : Type} {xs : List α} {x y : α} {i : ℕ} (hx : (x, i) ∈ xs.zipIdx)
    (hy : (y, i) ∈ xs.zipIdx) : x = y := by
  rw [List.mem_zipIdx_iff_getElem?] at hx hy
  exact Option.some.inj (hx.symm.trans hy)

theorem boundaries_nodup (ivs : List Interval) :
    ((boundaries ivs).map fun b => (b.2.2.1, b.2.1)).Nodup := by
  unfold boundaries
  rw [((List.perm_insertionSort _ _).map _).nodup_iff, List.map_flatMap, List.nodup_flatMap]
  constructor
  · rintro ⟨iv, i⟩ -
    cases iv.upper <;> simp
  · have hidx : (ivs.zipIdx.map Prod.snd).Nodup := by
      rw [List.zipIdx_map_snd]
      exact List.nodup_range'
    rw [List.Nodup, List.pairwise_map] at hidx
    refine hidx.imp ?_
    rintro ⟨iv, i⟩ ⟨iv', j⟩ hij b hb hb'
    have hfst : ∀ (iv : Interval) (i : ℕ), b ∈ ((iv.lower, true, i, iv.candidate) ::
        (iv.upper.toList.map fun u => (u, false, i, iv.candidate))).map
          (fun b : Boundary => (b.2.2.1, b.2.1)) → b.1 = i := by
      intro iv i h
      cases hu : iv.upper <;> simp [hu] at h <;> grind
    exact hij ((hfst iv i hb).symm.trans (hfst iv' j hb'))

theorem boundaries_sorted (ivs : List Interval) :
    (boundaries ivs).Pairwise fun a b => a.1 ≤ b.1 := by
  have htotal : Std.Total fun a b : Boundary => a.1 ≤ b.1 := ⟨fun a b => le_total a.1 b.1⟩
  have htrans : IsTrans Boundary fun a b => a.1 ≤ b.1 := ⟨fun _ _ _ => le_trans⟩
  exact List.pairwise_insertionSort _ _

def OpensFirst (bs : List Boundary) : Prop :=
  bs.Pairwise fun a b => b.2.1 = true → a.2.2.1 ≠ b.2.2.1

theorem boundaries_opensFirst {ivs : List Interval}
    (h : ∀ iv ∈ ivs, ∀ u, iv.upper = some u → iv.lower < u) : OpensFirst (boundaries ivs) := by
  have hnodup := boundaries_nodup ivs
  rw [List.Nodup, List.pairwise_map] at hnodup
  refine ((boundaries_sorted ivs).and hnodup).imp_of_mem ?_
  rintro ⟨l, opens, i, c⟩ ⟨l', opens', j, c'⟩ ha hb ⟨hle, hne⟩ hopens hij
  simp only at hle hne hopens hij
  subst hopens hij
  cases opens with
  | true => exact hne rfl
  | false =>
    obtain ⟨iv, hiv, -, hu⟩ := mem_boundaries.mp ha
    obtain ⟨iv', hiv', -, hl⟩ := mem_boundaries.mp hb
    have hsame := zipIdx_unique hiv hiv'
    subst hsame
    simp only [if_true, Bool.false_eq_true, if_false] at hu hl
    have hlt := h iv (List.fst_mem_of_mem_zipIdx hiv) l hu
    omega

/-! ## The sweep -/

def sweep (bs : List Boundary) : Triage := bs.foldl (fun s b => s.meet b.2.1 b.2.2.1 b.2.2.2) {}

theorem sweep_append (bs : List Boundary) (b : Boundary) :
    sweep (bs ++ [b]) = (sweep bs).meet b.2.1 b.2.2.1 b.2.2.2 := by
  rw [sweep, List.foldl_append]
  rfl

section
variable (s : Triage) (opens : Bool) (i : ℕ)

@[simp] theorem Triage.meet_literal_aliases (v : Value) :
    (s.meet opens i (.literal v)).aliases = s.aliases := by
  unfold Triage.meet
  split
  · split
    · rfl
    · split <;> rfl
  · rename_i h
    cases h

@[simp] theorem Triage.meet_alias_literals (r : AssignmentRecord) :
    (s.meet opens i (.alias r)).literals = s.literals := by
  cases opens <;> rfl

end

theorem sweep_aliases {bs : List Boundary} (h : OpensFirst bs) :
    ((sweep bs).aliases.map Prod.fst).Nodup ∧ ∀ i r, (i, r) ∈ (sweep bs).aliases ↔
      (∃ l, (l, true, i, .alias r) ∈ bs) ∧ ∀ l r', (l, false, i, .alias r') ∉ bs := by
  induction bs using List.reverseRecOn with
  | nil => simp [sweep]
  | append_singleton bs b ih =>
    obtain ⟨hbs, -, hlast⟩ := List.pairwise_append.mp h
    obtain ⟨hnodup, hmem⟩ := ih hbs
    obtain ⟨l, opens, j, c⟩ := b
    have hfresh : opens = true → ∀ a ∈ bs, a.2.2.1 ≠ j :=
      fun ho a ha => hlast a ha _ (List.mem_singleton_self _) ho
    rw [sweep_append]
    match c with
    | .literal v =>
      simp only [Triage.meet_literal_aliases]
      refine ⟨hnodup, fun i r => ?_⟩
      rw [hmem]
      simp
    | .alias r₀ =>
      cases opens with
      | true =>
        have hj : j ∉ (sweep bs).aliases.map Prod.fst := by
          intro hj
          obtain ⟨⟨k, r⟩, hk, rfl⟩ := List.mem_map.mp hj
          obtain ⟨⟨l', hl'⟩, -⟩ := (hmem k r).mp hk
          exact hfresh rfl _ hl' rfl
        constructor
        · simp only [Triage.meet, if_true, List.map_append, List.map_cons, List.map_nil]
          rw [List.nodup_append]
          refine ⟨hnodup, List.nodup_singleton j, ?_⟩
          intro a ha k hk hak
          rw [List.mem_singleton] at hk
          rw [hak, hk] at ha
          exact hj ha
        · intro i r
          have hclosed : i = j → ∀ l r', (l, false, i, Candidate.alias r') ∉ bs := by
            rintro rfl l r' hmem'
            exact hfresh rfl _ hmem' rfl
          have hopened : i = j → ¬∃ l, (l, true, i, Candidate.alias r) ∈ bs := by
            rintro rfl ⟨l, hmem'⟩
            exact hfresh rfl _ hmem' rfl
          simp only [Triage.meet, if_true, List.mem_append, List.mem_singleton, hmem, Prod.mk.injEq,
            Candidate.alias.injEq, Bool.false_eq_true, false_and, and_false, or_false, true_and]
          grind
      | false =>
        constructor
        · exact hnodup.sublist (List.filter_sublist.map _)
        · intro i r
          simp only [Triage.meet, Bool.false_eq_true, if_false, List.mem_filter, hmem,
            List.mem_append, List.mem_singleton, Prod.mk.injEq, true_and, decide_eq_true_eq, Candidate.alias.injEq,
            not_or]
          grind

def openedLiterals (bs : List Boundary) : List Value :=
  bs.filterMap fun b => if b.2.1 then b.2.2.2.literalValue else none

theorem openedLiterals_append (bs : List Boundary) (b : Boundary) : openedLiterals (bs ++ [b]) =
    openedLiterals bs ++ (if b.2.1 then b.2.2.2.literalValue else none).toList := by
  rw [openedLiterals, List.filterMap_append, openedLiterals, List.filterMap_cons]
  cases (if b.2.1 then b.2.2.2.literalValue else none) <;> rfl

structure Represents (kept seen : List Value) : Prop where
  covered : ∀ v ∈ seen, ∃ w ∈ kept, v.equal w = true
  seen : ∀ w ∈ kept, w ∈ seen
  distinct : kept.Pairwise fun v w => v.equal w = false

theorem Represents.meet {s : Triage} {seen : List Value} (h : Represents s.literals seen) (i : ℕ)
    (v : Value) : Represents (s.meet true i (.literal v)).literals (seen ++ [v]) := by
  have heq := Value.equal_equivalence
  by_cases hany : s.literals.any (v.equal ·) = true
  · have hmeet : (s.meet true i (.literal v)).literals =
        s.literals.map fun w => if v.equal w then v else w := by
      simp [Triage.meet, hany]
    have hsame : ∀ w : Value, w.equal (if v.equal w then v else w) = true := by
      intro w
      split
      · rename_i hvw
        exact heq.symm hvw
      · exact heq.refl w
    rw [hmeet]
    refine ⟨fun x hx => ?_, fun w hw => ?_, ?_⟩
    · rcases List.mem_append.mp hx with hx | hx
      · obtain ⟨w, hw, hxw⟩ := h.covered x hx
        exact ⟨_, List.mem_map_of_mem hw, heq.trans hxw (hsame w)⟩
      · obtain ⟨w, hw, hvw⟩ := List.any_eq_true.mp hany
        rw [List.mem_singleton.mp hx]
        exact ⟨_, List.mem_map_of_mem hw, heq.trans hvw (hsame w)⟩
    · obtain ⟨w', hw', rfl⟩ := List.mem_map.mp hw
      split
      · exact List.mem_append_right _ (List.mem_singleton_self v)
      · exact List.mem_append_left _ (h.seen w' hw')
    · rw [List.pairwise_map]
      refine h.distinct.imp fun {a b} hab => ?_
      rw [← Bool.not_eq_true] at hab ⊢
      intro hab'
      exact hab (heq.trans (hsame a) (heq.trans hab' (heq.symm (hsame b))))
  · have hmeet : (s.meet true i (.literal v)).literals = s.literals ++ [v] := by
      simp [Triage.meet, hany]
    rw [hmeet]
    refine ⟨fun x hx => ?_, fun w hw => ?_, ?_⟩
    · rcases List.mem_append.mp hx with hx | hx
      · obtain ⟨w, hw, hxw⟩ := h.covered x hx
        exact ⟨w, List.mem_append_left _ hw, hxw⟩
      · exact ⟨x, List.mem_append_right _ hx, heq.refl x⟩
    · rcases List.mem_append.mp hw with hw | hw
      · exact List.mem_append_left _ (h.seen w hw)
      · exact List.mem_append_right _ hw
    · rw [List.pairwise_append]
      refine ⟨h.distinct, List.pairwise_singleton _ _, fun a ha b hb => ?_⟩
      rw [List.mem_singleton.mp hb, ← Bool.not_eq_true]
      intro hav
      exact hany (List.any_eq_true.mpr ⟨a, ha, heq.symm hav⟩)

theorem sweep_literals (bs : List Boundary) :
    Represents (sweep bs).literals (openedLiterals bs) := by
  induction bs using List.reverseRecOn with
  | nil => exact ⟨fun _ h => absurd h List.not_mem_nil, fun _ h => absurd h List.not_mem_nil, .nil⟩
  | append_singleton bs b ih =>
    obtain ⟨l, opens, i, c⟩ := b
    rw [sweep_append, openedLiterals_append]
    match c, opens with
    | .alias r, _ => simpa [Candidate.literalValue] using ih
    | .literal v, false => simpa [Triage.meet] using ih
    | .literal v, true => exact ih.meet i v

theorem verdict_cases {s : Triage} {seen : List Value} (h : Represents s.literals seen) :
    (s.verdict = .noLiteral ∧ seen = []) ∨
    (∃ v, s.verdict = .value v ∧ v ∈ seen ∧ ∀ x ∈ seen, v.equal x = true) ∨
    s.verdict = .conflict ∧ ∃ x ∈ seen, ∃ y ∈ seen, ¬x.equal y = true := by
  unfold Triage.verdict
  match hs : s.literals with
  | [] =>
    refine .inl ⟨rfl, List.eq_nil_iff_forall_not_mem.mpr fun x hx => ?_⟩
    obtain ⟨w, hw, -⟩ := h.covered x hx
    rw [hs] at hw
    exact List.not_mem_nil hw
  | [v] =>
    refine .inr (.inl ⟨v, rfl, h.seen v (hs ▸ List.mem_singleton_self v), fun x hx => ?_⟩)
    obtain ⟨w, hw, hxw⟩ := h.covered x hx
    rw [hs, List.mem_singleton] at hw
    exact Value.equal_equivalence.symm (hw ▸ hxw)
  | v :: w :: rest =>
    have hdistinct := h.distinct
    rw [hs] at hdistinct
    have hvw := List.rel_of_pairwise_cons hdistinct List.mem_cons_self
    refine .inr (.inr ⟨rfl, v, h.seen v ?_, w, h.seen w ?_, by simp [hvw]⟩)
    · rw [hs]
      exact List.mem_cons_self
    · rw [hs]
      exact List.mem_cons_of_mem _ List.mem_cons_self

/-! ## The sweep up to a line -/

def boundariesAt (ivs : List Interval) (line : ℕ) : List Boundary :=
  (boundaries ivs).filter fun b => visible line b.1

theorem boundariesAt_opensFirst {ivs : List Interval}
    (h : ∀ iv ∈ ivs, ∀ u, iv.upper = some u → iv.lower < u) (line : ℕ) :
    OpensFirst (boundariesAt ivs line) :=
  (boundaries_opensFirst h).sublist List.filter_sublist

def numberedAliases (ivs : List Interval) (line k : ℕ) : List (ℕ × AssignmentRecord) :=
  (ivs.zipIdx k).filterMap fun p =>
    if p.1.isLive line then p.1.candidate.aliasRecord.map (p.2, ·) else none

theorem numberedAliases_snd (ivs : List Interval) (line k : ℕ) :
    (numberedAliases ivs line k).map Prod.snd =
      (ivs.filter (·.isLive line)).filterMap (·.candidate.aliasRecord) := by
  induction ivs generalizing k with
  | nil => rfl
  | cons iv ivs ih =>
    have htail := ih (k + 1)
    unfold numberedAliases at htail ⊢
    rw [List.zipIdx_cons, List.filterMap_cons, List.filter_cons]
    by_cases hlive : iv.isLive line = true
    · simp only [hlive, if_true, List.filterMap_cons]
      cases iv.candidate.aliasRecord with
      | none => exact htail
      | some r => simpa using htail
    · simp only [hlive, Bool.false_eq_true, if_false]
      exact htail

theorem numberedAliases_fst (ivs : List Interval) (line k : ℕ) :
    ((numberedAliases ivs line k).map Prod.fst).Sublist (List.range' k ivs.length) := by
  induction ivs generalizing k with
  | nil => exact List.Sublist.refl _
  | cons iv ivs ih =>
    have htail := ih (k + 1)
    unfold numberedAliases at htail ⊢
    rw [List.zipIdx_cons, List.filterMap_cons, List.length_cons, List.range'_succ]
    split
    · exact htail.cons k
    · rename_i q hq
      split at hq
      · obtain ⟨r, -, rfl⟩ := Option.map_eq_some_iff.mp hq
        exact htail.cons_cons k
      · cases hq

theorem aliases_perm {ivs : List Interval}
    (h : ∀ iv ∈ ivs, ∀ u, iv.upper = some u → iv.lower < u) (line : ℕ) :
    ((sweep (boundariesAt ivs line)).aliases.map Prod.snd).Perm
      ((ivs.filter (·.isLive line)).filterMap (·.candidate.aliasRecord)) := by
  obtain ⟨hnodup, hmem⟩ := sweep_aliases (boundariesAt_opensFirst h line)
  rw [← numberedAliases_snd ivs line 0]
  have hnumbers := List.Nodup.sublist (numberedAliases_fst ivs line 0) List.nodup_range'
  refine ((List.perm_ext_iff_of_nodup (.of_map _ hnodup) (.of_map _ hnumbers)).mpr ?_).map _
  rintro ⟨i, r⟩
  rw [hmem]
  simp only [boundariesAt, List.mem_filter, mem_boundaries, if_true, Bool.false_eq_true, if_false]
  unfold numberedAliases
  rw [List.mem_filterMap]
  constructor
  · rintro ⟨⟨l, ⟨iv, hiv, hc, hl⟩, hvisible⟩, hclosed⟩
    refine ⟨(iv, i), hiv, ?_⟩
    have hlive : iv.isLive line = true := by
      simp only [Interval.isLive, Bool.and_eq_true, Bool.not_eq_true']
      refine ⟨hl ▸ hvisible, ?_⟩
      rw [← Bool.not_eq_true, Option.any_eq_true]
      rintro ⟨u, hu, hv⟩
      exact hclosed u r ⟨⟨iv, hiv, hc, hu⟩, hv⟩
    rw [if_pos hlive, ← hc]
    rfl
  · rintro ⟨⟨iv, j⟩, hiv, h'⟩
    split at h'
    · rename_i hlive
      obtain ⟨r', hr', heq⟩ := Option.map_eq_some_iff.mp h'
      obtain ⟨rfl, rfl⟩ := Prod.mk.inj heq
      have hc : Candidate.alias r' = iv.candidate := by
        match hcand : iv.candidate with
        | .literal v => cases hcand ▸ hr'
        | .alias r =>
          rw [hcand] at hr'
          exact congrArg _ (Option.some.inj hr').symm
      simp only [Interval.isLive, Bool.and_eq_true, Bool.not_eq_true'] at hlive
      refine ⟨⟨iv.lower, ⟨iv, hiv, hc, rfl⟩, hlive.1⟩, ?_⟩
      rintro u r'' ⟨⟨iv', hiv', -, hu⟩, hv⟩
      rw [zipIdx_unique hiv' hiv] at hu
      have hnot := hlive.2
      rw [hu, Option.any_some, hv] at hnot
      cases hnot
    · cases h'

theorem mem_openedLiterals {ivs : List Interval} {line : ℕ} {v : Value} :
    v ∈ openedLiterals (boundariesAt ivs line) ↔
      ∃ iv ∈ ivs, visible line iv.lower = true ∧ iv.candidate = .literal v := by
  unfold openedLiterals boundariesAt
  rw [List.mem_filterMap]
  constructor
  · rintro ⟨⟨l, opens, i, c⟩, hb, hv⟩
    obtain ⟨hb, hvisible⟩ := List.mem_filter.mp hb
    obtain ⟨iv, hiv, hc, hl⟩ := mem_boundaries.mp hb
    cases opens with
    | false => cases hv
    | true =>
      refine ⟨iv, List.fst_mem_of_mem_zipIdx hiv, hl ▸ hvisible, ?_⟩
      simp only [if_true] at hv hc
      rw [← hc]
      match c with
      | .literal w => exact congrArg _ (Option.some.inj hv)
      | .alias r => cases hv
  · rintro ⟨iv, hiv, hvisible, hc⟩
    obtain ⟨i, hi, rfl⟩ := List.mem_iff_getElem.mp hiv
    refine ⟨(ivs[i].lower, true, i, ivs[i].candidate), List.mem_filter.mpr ⟨?_, hvisible⟩, ?_⟩
    · refine mem_boundaries.mpr ⟨ivs[i], ?_, rfl, rfl⟩
      exact List.mem_zipIdx_iff_getElem?.mpr (List.getElem?_eq_getElem hi)
    · simp [hc, Candidate.literalValue]

/-! ## The table -/

section
variable (addFloat : ℚ → ℚ → ℚ)

/-- The literals of one scope that were in force on a line up to `line` and are hidden by now. -/
def hiddenLiterals (line : ℕ) : List AssignmentRecord → List Value
  | [] => []
  | r :: later =>
    (if visible line r.lineno && later.any (fun r' => visible line r'.lineno) &&
        !later.any (fun r' => r'.lineno ≤ r.lineno) then
      (candidateOf addFloat r).bind (·.literalValue)
    else none).toList ++ hiddenLiterals line later

namespace Tracker

variable (T : Tracker)

def lastRecords (id : String) (line : ℕ) : List AssignmentRecord :=
  (T.scopesOf id).filterMap fun s => lastVisible line (T.records s id)

/-- The alias records in force at the line. -/
def liveAliases (id : String) (line : ℕ) : List AssignmentRecord :=
  (T.lastRecords id line).filter fun r =>
    (literalOnlyValue addFloat r.valueNode).isNone && valueMayFold r.valueNode

end Tracker

end

theorem mem_hiddenLiterals {addFloat : ℚ → ℚ → ℚ} {line : ℕ} {recs : List AssignmentRecord}
    {v : Value} : v ∈ hiddenLiterals addFloat line recs ↔ ∃ iv ∈ intervals addFloat recs,
      visible line iv.lower = true ∧ iv.upper.any (visible line) = true ∧
        iv.candidate = .literal v := by
  induction recs with
  | nil => simp [hiddenLiterals, intervals]
  | cons r later ih =>
    have hlater : (earliest later).any (visible line) = later.any fun r' => visible line r'.lineno := by
      rw [Bool.eq_iff_iff, earliest_any_iff fun _ _ => visible_of_le, List.any_eq_true]
    have hown : (earliest later).any (· ≤ r.lineno) = later.any fun r' => r'.lineno ≤ r.lineno := by
      rw [Bool.eq_iff_iff, List.any_eq_true]
      refine earliest_any_iff (fun l l' h h' => ?_) later
      simp only [decide_eq_true_eq] at h' ⊢
      omega
    rw [hiddenLiterals, List.mem_append, ih, intervals_cons, hown]
    cases hhid : later.any fun r' => decide (r'.lineno ≤ r.lineno) with
    | true => simp
    | false =>
      simp only [Bool.not_false, Bool.and_true, Bool.false_eq_true, if_false, List.mem_append,
        List.mem_map, Option.mem_toList, or_and_right, exists_or]
      refine or_congr_left ?_
      rw [← hlater]
      constructor
      · intro h
        split at h
        · rename_i hv
          obtain ⟨c, hc, hcv⟩ := Option.bind_eq_some_iff.mp h
          rw [Bool.and_eq_true] at hv
          refine ⟨_, ⟨c, hc, rfl⟩, hv.1, hv.2, ?_⟩
          match c with
          | .literal w => exact congrArg _ (Option.some.inj hcv)
          | .alias r => cases hcv
        · cases h
      · rintro ⟨iv, ⟨c, hc, rfl⟩, hlow, hup, hcv⟩
        simp only at hlow hup hcv
        rw [hlow, hup, Bool.and_self, if_pos rfl, hc, hcv]
        rfl

namespace Tracker

variable (addFloat : ℚ → ℚ → ℚ) (T : Tracker) (id : String) (line : ℕ)

def intervalsOf : List Interval :=
  (T.scopesOf id).flatMap fun s => intervals addFloat (T.records s id)

theorem crossScopeTriage_eq : T.crossScopeTriage addFloat id line =
    sweep (boundariesAt (T.intervalsOf addFloat id) line) := rfl

theorem intervalsOf_upper : ∀ iv ∈ T.intervalsOf addFloat id, ∀ u, iv.upper = some u → iv.lower < u := by
  intro iv hiv u hu
  obtain ⟨s, -, hs⟩ := List.mem_flatMap.mp hiv
  exact intervals_upper hs hu

theorem intervalsOf_live : ((T.intervalsOf addFloat id).filter (·.isLive line)).map (·.candidate) =
    (T.lastRecords id line).filterMap (candidateOf addFloat) := by
  unfold intervalsOf lastRecords
  induction T.scopesOf id with
  | nil => rfl
  | cons s scopes ih =>
    rw [List.flatMap_cons, List.filter_append, List.map_append, ih, intervals_live,
      List.filterMap_cons]
    cases lastVisible line (T.records s id) with
    | none => rfl
    | some r =>
      rw [Option.bind_some, List.filterMap_cons]
      cases candidateOf addFloat r <;> rfl

theorem crossScopeTriage_aliases : ((T.crossScopeTriage addFloat id line).aliases.map Prod.snd).Perm
    (T.liveAliases addFloat id line) := by
  rw [crossScopeTriage_eq]
  refine (aliases_perm (T.intervalsOf_upper addFloat id) line).trans (.of_eq ?_)
  have hlive := T.intervalsOf_live addFloat id line
  calc ((T.intervalsOf addFloat id).filter (·.isLive line)).filterMap (·.candidate.aliasRecord)
      = (((T.intervalsOf addFloat id).filter (·.isLive line)).map (·.candidate)).filterMap
          (·.aliasRecord) := by rw [List.filterMap_map]; rfl
    _ = (T.lastRecords id line).filterMap fun r =>
          (candidateOf addFloat r).bind (·.aliasRecord) := by rw [hlive, List.filterMap_filterMap]
    _ = T.liveAliases addFloat id line := by
      rw [liveAliases, ← List.filterMap_eq_filter]
      congr 1
      funext r
      unfold candidateOf
      rw [Option.guard]
      cases literalOnlyValue addFloat r.valueNode with
      | none => cases valueMayFold r.valueNode <;> simp [Candidate.aliasRecord]
      | some o => cases o <;> simp [Candidate.aliasRecord]

theorem mem_openedLiterals_iff (v : Value) :
    v ∈ openedLiterals (boundariesAt (T.intervalsOf addFloat id) line) ↔
      (∃ r ∈ T.lastRecords id line, literalOnlyValue addFloat r.valueNode = some (some v)) ∨
        v ∈ (T.scopesOf id).flatMap fun s => hiddenLiterals addFloat line (T.records s id) := by
  have hforce : (∃ r ∈ T.lastRecords id line, literalOnlyValue addFloat r.valueNode = some (some v)) ↔
      ∃ iv ∈ T.intervalsOf addFloat id, iv.isLive line = true ∧ iv.candidate = .literal v := by
    have hmem := congrArg (Candidate.literal v ∈ ·) (T.intervalsOf_live addFloat id line)
    simp only [List.mem_map, List.mem_filter, List.mem_filterMap, and_assoc, eq_iff_iff] at hmem
    rw [hmem]
    refine exists_congr fun r => and_congr_right fun _ => ?_
    unfold candidateOf
    split
    · rename_i h
      cases valueMayFold r.valueNode <;> simp [h]
    · rename_i h
      simp [h]
    · rename_i w h
      simp [h]
  rw [mem_openedLiterals, hforce, List.mem_flatMap]
  simp only [mem_hiddenLiterals]
  constructor
  · rintro ⟨iv, hiv, hlow, hc⟩
    cases hup : iv.upper.any (visible line) with
    | false => exact .inl ⟨iv, hiv, by simp [Interval.isLive, hlow, hup], hc⟩
    | true =>
      obtain ⟨s, hs, hiv⟩ := List.mem_flatMap.mp hiv
      exact .inr ⟨s, hs, iv, hiv, hlow, hup, hc⟩
  · rintro (⟨iv, hiv, hlive, hc⟩ | ⟨s, hs, iv, hiv, hlow, -, hc⟩)
    · rw [Interval.isLive, Bool.and_eq_true] at hlive
      exact ⟨iv, hiv, hlive.1, hc⟩
    · exact ⟨iv, List.mem_flatMap.mpr ⟨s, hs, hiv⟩, hlow, hc⟩

end Tracker

end TimeCodeSecurity.Scanner
