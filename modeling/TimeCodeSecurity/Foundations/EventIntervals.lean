import Mathlib.Tactic
import TimeCodeSecurity.Foundations.Tables

/-! # Event lists and the intervals they are cut into

A list of events on a line: an introduction switches a condition on from its point on, a closing event
switches it off from its point on (`fixed`), after its point (`lastAffected`), or for good (`limit`).
`Affected` is the meaning of such a list at a point. `spans` is the usual one-pass reading: an
introduction opens an interval, the next closing event ends it, and a closing event with nothing open
leaves an interval without a start.

The intervals never miss an affected point, whatever the order of the list (`holds_of_affected`). Over
a sorted list on a dense line they hold no other point exactly when the list is `Faithful`: an interval
may run past a later closing event only when the list reopens there (`spans_iff_faithful`).
-/
namespace EventIntervals
open LastWrites
set_option autoImplicit false

inductive Kind
  | introduced | fixed | lastAffected | limit
deriving DecidableEq, Repr

structure Event (α : Type) where
  kind : Kind
  point : α
deriving DecidableEq

variable {α : Type}

/-- The event has taken effect at `v`. -/
def Event.Past [LinearOrder α] (e : Event α) (v : α) : Prop :=
  match e.kind with
  | .lastAffected => e.point < v
  | _ => e.point ≤ v

def Event.Opens (e : Event α) : Prop := e.kind = .introduced

instance (e : Event α) : Decidable e.Opens := inferInstanceAs (Decidable (_ = _))

def Event.Shuts (e : Event α) : Prop := e.kind = .fixed ∨ e.kind = .lastAffected

def Affected [LinearOrder α] (events : List (Event α)) (v : α) : Prop :=
  (∃ i after, i :: after <:+ events ∧ i.Opens ∧ i.Past v ∧
    (∀ j ∈ after, j.Opens → ¬ j.Past v) ∧ ∀ e ∈ after, e.Shuts → ¬ e.Past v) ∧
  ∀ e ∈ events, e.kind = .limit → ¬ e.Past v

/-! ## Spans -/

structure Span (α : Type) where
  start : Option α
  stop : Option (Event α)

def Span.Holds [LinearOrder α] (s : Span α) (v : α) : Prop :=
  (∀ a ∈ s.start, a ≤ v) ∧ ∀ e ∈ s.stop, ¬ e.Past v

/-- The pass over the list: `opened` is the introduction that waits for its end. -/
def spansFrom (opened : Option α) : List (Event α) → List (Span α)
  | [] => (opened.map fun a => ⟨some a, none⟩).toList
  | e :: rest =>
    if e.Opens then (opened.map fun a => (⟨some a, none⟩ : Span α)).toList ++ spansFrom (some e.point) rest
    else ⟨opened, some e⟩ :: spansFrom none rest

def spans (events : List (Event α)) : List (Span α) := spansFrom none events

def stopOf : List (Event α) → Option (Event α)
  | [] => none
  | e :: _ => if e.Opens then none else some e

def Orphan (events : List (Event α)) (e : Event α) : Prop :=
  ¬ e.Opens ∧ ∃ before after, events = before ++ e :: after ∧ ∀ p ∈ before.getLast?, ¬ p.Opens

theorem last_closes_cons {c : Event α} {before : List (Event α)} :
    (∀ p ∈ (c :: before).getLast?, ¬ p.Opens) ↔
      (before = [] → ¬ c.Opens) ∧ ∀ p ∈ before.getLast?, ¬ p.Opens := by
  cases before with
  | nil => simp
  | cons d before => simp [List.getLast?_cons]

theorem orphan_cons_closing {c e : Event α} (hc : ¬ c.Opens) (L : List (Event α)) :
    Orphan (c :: L) e ↔ e = c ∨ Orphan L e := by
  constructor
  · rintro ⟨he, before, after, heq, hlast⟩
    cases before with
    | nil => exact .inl (List.cons_eq_cons.mp heq).1.symm
    | cons b before =>
      obtain ⟨rfl, rfl⟩ := List.cons_eq_cons.mp heq
      exact .inr ⟨he, before, after, rfl, (last_closes_cons.mp hlast).2⟩
  · rintro (rfl | ⟨he, before, after, rfl, hlast⟩)
    · exact ⟨hc, [], L, rfl, by simp⟩
    · exact ⟨he, c :: before, after, rfl, last_closes_cons.mpr ⟨fun _ => hc, hlast⟩⟩

theorem orphan_cons_iff_of_opens {i e : Event α} (hi : i.Opens) (L : List (Event α)) :
    Orphan (i :: L) e ↔ ¬ e.Opens ∧ ∃ before after, L = before ++ e :: after ∧
      before ≠ [] ∧ ∀ p ∈ before.getLast?, ¬ p.Opens := by
  constructor
  · rintro ⟨he, before, after, heq, hlast⟩
    refine ⟨he, ?_⟩
    cases before with
    | nil =>
      obtain ⟨rfl, -⟩ := List.cons_eq_cons.mp heq
      exact absurd hi he
    | cons b before =>
      obtain ⟨rfl, rfl⟩ := List.cons_eq_cons.mp heq
      obtain ⟨hfirst, hlast⟩ := last_closes_cons.mp hlast
      exact ⟨before, after, rfl, fun hnil => hfirst hnil hi, hlast⟩
  · rintro ⟨he, before, after, rfl, hne, hlast⟩
    exact ⟨he, i :: before, after, rfl, last_closes_cons.mpr ⟨fun hnil => absurd hnil hne, hlast⟩⟩

theorem orphan_cons_opening {i e : Event α} (hi : i.Opens) (L : List (Event α)) :
    Orphan (i :: L) e ↔ match L with
      | [] => False
      | c :: rest => if c.Opens then Orphan (c :: rest) e else Orphan rest e := by
  rw [orphan_cons_iff_of_opens hi]
  cases L with
  | nil => simp
  | cons c rest =>
    by_cases hc : c.Opens
    · simp only [hc, if_true]
      refine and_congr_right fun he => ⟨?_, ?_⟩
      · rintro ⟨before, after, heq, -, hlast⟩
        exact ⟨before, after, heq, hlast⟩
      · rintro ⟨before, after, heq, hlast⟩
        refine ⟨before, after, heq, ?_, hlast⟩
        rintro rfl
        exact he ((List.cons_eq_cons.mp heq).1 ▸ hc)
    · simp only [hc, if_false]
      refine and_congr_right fun he => ⟨?_, ?_⟩
      · rintro ⟨before, after, heq, hne, hlast⟩
        cases before with
        | nil => exact absurd rfl hne
        | cons b before =>
          obtain ⟨rfl, rfl⟩ := List.cons_eq_cons.mp heq
          exact ⟨before, after, rfl, (last_closes_cons.mp hlast).2⟩
      · rintro ⟨before, after, rfl, hlast⟩
        exact ⟨c :: before, after, rfl, by simp, last_closes_cons.mpr ⟨fun _ => hc, hlast⟩⟩

def Cut (events : List (Event α)) (s : Span α) : Prop :=
  (∃ i after, i :: after <:+ events ∧ i.Opens ∧ s = ⟨some i.point, stopOf after⟩) ∨
    ∃ e, Orphan events e ∧ s = ⟨none, some e⟩

theorem cut_cons_closing {c : Event α} (hc : ¬ c.Opens) (L : List (Event α)) (s : Span α) :
    Cut (c :: L) s ↔ s = ⟨none, some c⟩ ∨ Cut L s := by
  have hopening : (∃ i after, i :: after <:+ c :: L ∧ i.Opens ∧ s = ⟨some i.point, stopOf after⟩) ↔
      ∃ i after, i :: after <:+ L ∧ i.Opens ∧ s = ⟨some i.point, stopOf after⟩ := by
    refine exists₂_congr fun i after => and_congr_left fun ⟨hi, _⟩ => ?_
    rw [List.suffix_cons_iff, or_iff_right]
    rintro heq
    exact hc ((List.cons_eq_cons.mp heq).1 ▸ hi)
  unfold Cut
  simp only [hopening, orphan_cons_closing hc]
  constructor
  · rintro (h | ⟨e, rfl | he, hs⟩)
    · exact .inr (.inl h)
    · exact .inl hs
    · exact .inr (.inr ⟨e, he, hs⟩)
  · rintro (rfl | h | ⟨e, he, hs⟩)
    · exact .inr ⟨c, .inl rfl, rfl⟩
    · exact .inl h
    · exact .inr ⟨e, .inr he, hs⟩

theorem cut_cons_opening {i : Event α} (hi : i.Opens) (L : List (Event α)) (s : Span α) :
    Cut (i :: L) s ↔ s = ⟨some i.point, stopOf L⟩ ∨
      match L with
      | [] => False
      | c :: rest => if c.Opens then Cut (c :: rest) s else Cut rest s := by
  have hopening : (∃ j after, j :: after <:+ i :: L ∧ j.Opens ∧ s = ⟨some j.point, stopOf after⟩) ↔
      s = ⟨some i.point, stopOf L⟩ ∨
        ∃ j after, j :: after <:+ L ∧ j.Opens ∧ s = ⟨some j.point, stopOf after⟩ := by
    constructor
    · rintro ⟨j, after, hsuf, hj, hs⟩
      rcases List.suffix_cons_iff.mp hsuf with heq | hsuf
      · obtain ⟨rfl, rfl⟩ := List.cons_eq_cons.mp heq
        exact .inl hs
      · exact .inr ⟨j, after, hsuf, hj, hs⟩
    · rintro (hs | ⟨j, after, hsuf, hj, hs⟩)
      · exact ⟨i, L, List.suffix_rfl, hi, hs⟩
      · exact ⟨j, after, hsuf.trans (List.suffix_cons i L), hj, hs⟩
  have hbehind : ∀ {c : Event α} {rest : List (Event α)}, ¬ c.Opens →
      ((∃ j after, j :: after <:+ c :: rest ∧ j.Opens ∧ s = ⟨some j.point, stopOf after⟩) ↔
        ∃ j after, j :: after <:+ rest ∧ j.Opens ∧ s = ⟨some j.point, stopOf after⟩) := by
    intro c rest hc
    refine exists₂_congr fun j after => and_congr_left fun ⟨hj, _⟩ => ?_
    rw [List.suffix_cons_iff, or_iff_right]
    rintro heq
    exact hc ((List.cons_eq_cons.mp heq).1 ▸ hj)
  unfold Cut
  simp only [hopening, orphan_cons_opening hi, or_assoc]
  refine or_congr_right ?_
  cases L with
  | nil => simp
  | cons c rest =>
    by_cases hc : c.Opens
    · simp only [hc, if_true]
    · simp only [hc, if_false, hbehind hc]

theorem mem_spansFrom (opened : Option (Event α)) (hopened : ∀ i ∈ opened, i.Opens)
    (events : List (Event α)) (s : Span α) :
    s ∈ spansFrom (opened.map Event.point) events ↔ Cut (opened.toList ++ events) s := by
  induction events generalizing opened with
  | nil =>
    cases opened with
    | none => simp [spansFrom, Cut, Orphan]
    | some i => simp [spansFrom, cut_cons_opening (hopened i rfl), stopOf]
  | cons e rest ih =>
    by_cases he : e.Opens
    · have hrest := ih (some e) (by simpa using he)
      simp only [Option.map_some, Option.toList_some, List.cons_append, List.nil_append] at hrest
      cases opened with
      | none => simp [spansFrom, he, hrest]
      | some i => simp [spansFrom, he, hrest, cut_cons_opening (hopened i rfl), stopOf]
    · have hrest := ih none (by simp)
      simp only [Option.map_none, Option.toList_none, List.nil_append] at hrest
      cases opened with
      | none => simp [spansFrom, he, hrest, cut_cons_closing he]
      | some i => simp [spansFrom, he, hrest, cut_cons_opening (hopened i rfl), stopOf]

theorem mem_spans {events : List (Event α)} {s : Span α} : s ∈ spans events ↔ Cut events s := by
  have h := mem_spansFrom none (by simp) events s
  simp only [Option.map_none, Option.toList_none, List.nil_append] at h
  exact h

theorem mem_stopOf {after : List (Event α)} {e : Event α} (h : e ∈ stopOf after) :
    e ∈ after ∧ ¬ e.Opens := by
  cases after with
  | nil => cases h
  | cons c rest =>
    simp only [stopOf] at h
    split at h
    · cases h
    next hc =>
      obtain rfl : c = e := by simpa using h
      exact ⟨List.mem_cons_self, hc⟩

theorem shuts_or_limit {e : Event α} (h : ¬ e.Opens) : e.Shuts ∨ e.kind = .limit := by
  unfold Event.Opens at h
  unfold Event.Shuts
  cases hk : e.kind <;> simp_all

theorem not_opens_of_shuts {e : Event α} (h : e.Shuts) : ¬ e.Opens := by
  unfold Event.Shuts at h
  unfold Event.Opens
  rcases h with h | h <;> simp [h]

variable [LinearOrder α]

theorem opens_past {i : Event α} (hi : i.Opens) {v : α} : i.Past v ↔ i.point ≤ v := by
  unfold Event.Past
  rw [hi]

theorem le_of_past {e : Event α} {v : α} (h : e.Past v) : e.point ≤ v := by
  unfold Event.Past at h
  split at h
  · exact h.le
  · exact h

theorem past_of_lt {e : Event α} {v : α} (h : e.point < v) : e.Past v := by
  unfold Event.Past
  split
  · exact h
  · exact h.le

theorem holds_of_affected {events : List (Event α)} {v : α} (h : Affected events v) :
    ∃ s ∈ spans events, s.Holds v := by
  obtain ⟨⟨i, after, hsuf, hi, hpast, -, hshut⟩, hlimit⟩ := h
  refine ⟨_, mem_spans.mpr (.inl ⟨i, after, hsuf, hi, rfl⟩), ?_, ?_⟩
  · intro a ha
    obtain rfl : i.point = a := by simpa using ha
    exact le_of_past hpast
  · intro e he
    obtain ⟨hmem, hclosing⟩ := mem_stopOf he
    rcases shuts_or_limit hclosing with hs | hl
    · exact hshut e hmem hs
    · exact hlimit e (hsuf.subset (List.mem_cons_of_mem _ hmem)) hl

/-! ## When nothing else is in a span -/

/-- `c` takes effect at a point the span with this end still holds. -/
def Event.EndsBefore (c : Event α) : Option (Event α) → Prop
  | none => True
  | some e => c.point < e.point ∨
      (c.point = e.point ∧ c.kind ≠ .lastAffected ∧ e.kind = .lastAffected)

def Reopened (tail : List (Event α)) (stop : Option (Event α)) : Prop :=
  ∀ c later, c :: later <:+ tail → c.Shuts → c.EndsBefore stop →
    ∃ i ∈ later, i.Opens ∧ i.point ≤ c.point

def Unlimited (events : List (Event α)) (stop : Option (Event α)) : Prop :=
  ∀ c ∈ events, c.kind = .limit → ¬ c.EndsBefore stop

structure Faithful [OrderBot α] (events : List (Event α)) : Prop where
  /-- The span of an introduction is empty, or nothing cuts it short. -/
  introduced : ∀ i after, i :: after <:+ events → i.Opens →
    (∃ e ∈ stopOf after, e.Past i.point) ∨
      (Unlimited events (stopOf after) ∧ Reopened after (stopOf after))
  /-- The span of a closing event with nothing open is empty, or the list opens at the very start and
  nothing cuts the span short. -/
  orphan : ∀ e, Orphan events e → e.Past ⊥ ∨
    ((∃ i ∈ events, i.Opens ∧ i.point = ⊥) ∧ Unlimited events (some e) ∧ Reopened events (some e))

theorem endsBefore_of_past {c : Event α} {stop : Option (Event α)} {v : α} (hc : c.Past v)
    (hstop : ∀ e ∈ stop, ¬ e.Past v) : c.EndsBefore stop := by
  cases stop with
  | none => trivial
  | some e =>
    have he := hstop e rfl
    have hve : v ≤ e.point := not_lt.mp fun hlt => he (past_of_lt hlt)
    rcases lt_or_eq_of_le ((le_of_past hc).trans hve) with hlt | heq
    · exact .inl hlt
    · -- all three points agree, so only an inclusive end leaves room
      have hcv : c.point = v := le_antisymm (le_of_past hc) (heq ▸ hve)
      refine .inr ⟨heq, fun hk => ?_, ?_⟩
      · unfold Event.Past at hc
        rw [hk] at hc
        exact absurd hcv hc.ne
      · by_contra hk
        refine he ?_
        unfold Event.Past
        split
        next h => exact absurd h hk
        next => exact (heq.symm.trans hcv).le

theorem exists_above_below [DenselyOrdered α] [NoMaxOrder α] {x : α} (U : List α) (hU : ∀ y ∈ U, x < y) :
    ∃ v, x < v ∧ ∀ y ∈ U, v < y := by
  induction U with
  | nil =>
    obtain ⟨v, hv⟩ := exists_gt x
    exact ⟨v, hv, by simp⟩
  | cons y U ih =>
    obtain ⟨v, hxv, hv⟩ := ih fun z hz => hU z (List.mem_cons_of_mem _ hz)
    obtain ⟨w, hxw, hw⟩ := exists_between (lt_min hxv (hU y List.mem_cons_self))
    refine ⟨w, hxw, fun z hz => ?_⟩
    rcases List.mem_cons.mp hz with rfl | hz
    · exact hw.trans_le (min_le_right _ _)
    · exact (hw.trans_le (min_le_left _ _)).trans (hv z hz)

theorem exists_past [DenselyOrdered α] [NoMaxOrder α] {c : Event α} {stop : Option (Event α)}
    (hc : c.EndsBefore stop) {later : List (Event α)} (hlater : ∀ i ∈ later, i.Opens → c.point < i.point) :
    ∃ v, c.Past v ∧ (∀ e ∈ stop, ¬ e.Past v) ∧ ∀ i ∈ later, i.Opens → ¬ i.Past v := by
  by_cases hk : c.kind = .lastAffected
  · -- strictly behind the last affected point, and before everything that follows
    let U := (stop.map Event.point).toList ++ (later.filter fun i => decide i.Opens).map Event.point
    obtain ⟨v, hcv, hv⟩ : ∃ v, c.point < v ∧ ∀ y ∈ U, v < y := by
      refine exists_above_below U fun y hy => ?_
      rcases List.mem_append.mp hy with hy | hy
      · obtain ⟨e, rfl, rfl⟩ : ∃ e, stop = some e ∧ e.point = y := by simpa using hy
        exact hc.resolve_right fun h => h.2.1 hk
      · obtain ⟨i, hi, rfl⟩ := List.mem_map.mp hy
        obtain ⟨hmem, hopens⟩ := List.mem_filter.mp hi
        exact hlater i hmem (by simpa using hopens)
    refine ⟨v, ?_, ?_, ?_⟩
    · unfold Event.Past
      rw [hk]
      exact hcv
    · intro e he hpast
      exact absurd (hv e.point (List.mem_append_left _ (by simp_all))) (le_of_past hpast).not_gt
    · intro i hi hopens hpast
      refine absurd (hv i.point (List.mem_append_right _ ?_)) (le_of_past hpast).not_gt
      exact List.mem_map_of_mem (List.mem_filter.mpr ⟨hi, by simpa using hopens⟩)
  · refine ⟨c.point, ?_, ?_, ?_⟩
    · unfold Event.Past
      split
      next h => exact absurd h hk
      next => exact le_rfl
    · intro e he hpast
      obtain rfl : stop = some e := he
      rcases hc with hlt | ⟨heq, -, hlast⟩
      · exact absurd hlt (le_of_past hpast).not_gt
      · unfold Event.Past at hpast
        rw [hlast] at hpast
        exact absurd hpast heq.not_gt
    · intro i hi hopens hpast
      exact absurd (hlater i hi hopens) (le_of_past hpast).not_gt

theorem affected_of_reopened {events tail : List (Event α)} {stop : Option (Event α)} {v : α}
    (htail : tail <:+ events) (hopen : ∃ i ∈ tail, i.Opens ∧ i.Past v) (hre : Reopened tail stop)
    (hlimit : Unlimited events stop) (hstop : ∀ e ∈ stop, ¬ e.Past v) : Affected events v := by
  obtain ⟨i, after, hsuf, ⟨hi, hpast⟩, hlast⟩ := exists_last hopen
  refine ⟨⟨i, after, hsuf.trans htail, hi, hpast, fun j hj hjo hjp => hlast j hj ⟨hjo, hjp⟩, ?_⟩, ?_⟩
  · intro e he hshut hep
    obtain ⟨later, hlater⟩ := suffix_of_mem he
    have hin : e :: later <:+ tail := (hlater.trans (List.suffix_cons i after)).trans hsuf
    obtain ⟨j, hj, hjo, hle⟩ := hre e later hin hshut (endsBefore_of_past hep hstop)
    have hjafter : j ∈ after := hlater.subset (List.mem_cons_of_mem _ hj)
    exact hlast j hjafter ⟨hjo, (opens_past hjo).mpr (hle.trans (le_of_past hep))⟩
  · exact fun e he hl hep => hlimit e he hl (endsBefore_of_past hep hstop)

theorem reopened_cons {i : Event α} (hi : i.Opens) {after : List (Event α)} {stop : Option (Event α)}
    (h : Reopened after stop) : Reopened (i :: after) stop := by
  intro c later hsuf hshut hends
  rcases List.suffix_cons_iff.mp hsuf with heq | hsuf
  · obtain ⟨rfl, -⟩ := List.cons_eq_cons.mp heq
    exact absurd hi (not_opens_of_shuts hshut)
  · exact h c later hsuf hshut hends

theorem reopened_of_affected [DenselyOrdered α] [NoMaxOrder α] {events tail : List (Event α)}
    {stop : Option (Event α)} {a : α} (htail : tail <:+ events) (hfrom : ∀ c ∈ tail, a ≤ c.point)
    (h : ∀ v, a ≤ v → (∀ e ∈ stop, ¬ e.Past v) → Affected events v) : Reopened tail stop := by
  intro c later hsuf hshut hends
  by_contra hnone
  have hlater : ∀ i ∈ later, i.Opens → c.point < i.point := by
    intro i hi hopens
    exact not_le.mp fun hle => hnone ⟨i, hi, hopens, hle⟩
  obtain ⟨v, hcv, hv, hafter⟩ := exists_past hends hlater
  have hav : a ≤ v := (hfrom c (hsuf.subset List.mem_cons_self)).trans (le_of_past hcv)
  obtain ⟨⟨i, after, hi, hopens, hpast, -, hshuts⟩, -⟩ := h v hav hv
  -- the last introduction reached stands before `c` or behind it
  rcases List.suffix_or_suffix_of_suffix (hsuf.trans htail) hi with hbehind | hbefore
  · rcases List.suffix_cons_iff.mp hbehind with heq | hin
    · exact not_opens_of_shuts hshut ((List.cons_eq_cons.mp heq).1 ▸ hopens)
    · exact hshuts c (hin.subset List.mem_cons_self) hshut hcv
  · rcases List.suffix_cons_iff.mp hbefore with heq | hin
    · exact not_opens_of_shuts hshut ((List.cons_eq_cons.mp heq).1 ▸ hopens)
    · exact hafter i (hin.subset List.mem_cons_self) hopens hpast

theorem unlimited_of_affected [DenselyOrdered α] [NoMaxOrder α] {events : List (Event α)}
    {stop : Option (Event α)} {a : α} (hne : ∀ e ∈ stop, ¬ e.Past a)
    (h : ∀ v, a ≤ v → (∀ e ∈ stop, ¬ e.Past v) → Affected events v) : Unlimited events stop := by
  intro c hc hlimit hends
  have hpast : ∀ v, c.Past v ↔ c.point ≤ v := fun v => by simp [Event.Past, hlimit]
  rcases le_total c.point a with hle | hle
  · exact (h a le_rfl hne).2 c hc hlimit ((hpast a).mpr hle)
  · have hlater : ∀ i ∈ ([] : List (Event α)), i.Opens → c.point < i.point := by simp
    obtain ⟨v, hcv, hv, -⟩ := exists_past hends hlater
    exact (h v (hle.trans (le_of_past hcv)) hv).2 c hc hlimit hcv

theorem spans_iff_faithful [DenselyOrdered α] [NoMaxOrder α] [OrderBot α] {events : List (Event α)}
    (hsorted : events.Pairwise fun e f => e.point ≤ f.point) :
    (∀ v, (∃ s ∈ spans events, s.Holds v) ↔ Affected events v) ↔ Faithful events := by
  constructor
  · intro hexact
    refine ⟨fun i after hsuf hi => ?_, fun e he => ?_⟩
    · by_cases hempty : ∃ e ∈ stopOf after, e.Past i.point
      · exact .inl hempty
      · right
        have hspan : ∀ v, i.point ≤ v → (∀ e ∈ stopOf after, ¬ e.Past v) → Affected events v :=
          fun v hv hstop => (hexact v).mp
            ⟨_, mem_spans.mpr (.inl ⟨i, after, hsuf, hi, rfl⟩), by simpa using hv, hstop⟩
        refine ⟨unlimited_of_affected (fun e he hp => hempty ⟨e, he, hp⟩) hspan, ?_⟩
        have hafter : ∀ c ∈ after, i.point ≤ c.point :=
          (List.pairwise_cons.mp (hsorted.sublist hsuf.sublist)).1
        exact reopened_of_affected ((List.suffix_cons i after).trans hsuf) hafter hspan
    · by_cases hempty : e.Past ⊥
      · exact .inl hempty
      · right
        have hspan : ∀ v, ⊥ ≤ v → (∀ e' ∈ some e, ¬ e'.Past v) → Affected events v :=
          fun v _ hstop => (hexact v).mp ⟨_, mem_spans.mpr (.inr ⟨e, he, rfl⟩), by simp, hstop⟩
        have hne : ∀ e' ∈ some e, ¬ e'.Past (⊥ : α) := by simpa using hempty
        refine ⟨?_, unlimited_of_affected hne hspan,
          reopened_of_affected List.suffix_rfl (fun _ _ => bot_le) hspan⟩
        obtain ⟨⟨i, after, hi, hopens, hpast, -⟩, -⟩ := hspan ⊥ le_rfl hne
        exact ⟨i, hi.subset List.mem_cons_self, hopens, le_bot_iff.mp (le_of_past hpast)⟩
  · intro hf v
    refine ⟨?_, holds_of_affected⟩
    rintro ⟨s, hs, hstart, hstop⟩
    rcases mem_spans.mp hs with ⟨i, after, hsuf, hi, rfl⟩ | ⟨e, he, rfl⟩
    · have hiv : i.Past v := (opens_past hi).mpr (hstart _ rfl)
      rcases hf.introduced i after hsuf hi with ⟨e, he, hpast⟩ | ⟨hlimit, hre⟩
      · -- an empty span holds nothing
        refine absurd ?_ (hstop e he)
        have hle : i.point ≤ v := le_of_past hiv
        unfold Event.Past at hpast ⊢
        split at hpast
        · exact hpast.trans_le hle
        · exact hpast.trans hle
      · exact affected_of_reopened hsuf ⟨i, List.mem_cons_self, hi, hiv⟩ (reopened_cons hi hre) hlimit hstop
    · rcases hf.orphan e he with hpast | ⟨⟨i, hi, hopens, hbot⟩, hlimit, hre⟩
      · refine absurd ?_ (hstop e rfl)
        unfold Event.Past at hpast ⊢
        split at hpast
        · exact absurd hpast not_lt_bot
        · exact hpast.trans bot_le
      · refine affected_of_reopened List.suffix_rfl ⟨i, hi, hopens, ?_⟩ hre hlimit hstop
        exact (opens_past hopens).mpr (hbot ▸ bot_le)

end EventIntervals
