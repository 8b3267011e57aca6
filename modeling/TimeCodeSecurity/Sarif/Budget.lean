import TimeCodeSecurity.Sarif.Sizes

/-! # The byte budget

When shedding comes to an end, and what the document then has: the loop keeps one result in each run, so it
goes on for ever when the best results alone are too long; a note is written after the length was checked,
and into an invocation that may not be there.
-/
namespace TimeCodeSecurity.Sarif
open Json
set_option autoImplicit false

/-! ## The loop -/

section
variable (indent maxBytes : ℕ)

def fits (doc : Document) : Prop := sarifByteSize doc indent ≤ maxBytes

instance : DecidablePred (fits indent maxBytes) := fun doc =>
  inferInstanceAs (Decidable (sarifByteSize doc indent ≤ maxBytes))

/-- The document and the number of dropped results after `n` rounds. -/
def shedAfter : ℕ → Document → ℕ → Document × ℕ
  | 0, doc, dropped => (doc, dropped)
  | n + 1, doc, dropped =>
    shedAfter n (shedRound doc) (dropped + (mostResults doc.runs - keepOf (mostResults doc.runs)))

/-- The first document of the shedding that fits is the one after `n` rounds. -/
def FirstFit (n : ℕ) (doc : Document) : Prop :=
  fits indent maxBytes (shedAfter n doc 0).1 ∧ ∀ m < n, ¬ fits indent maxBytes (shedAfter m doc 0).1

variable {indent maxBytes}

theorem shedLoop_fits {fuel : ℕ} {doc : Document} {dropped : ℕ} (h : fits indent maxBytes doc) :
    shedLoop indent maxBytes (fuel + 1) doc dropped = some (doc, dropped) := by
  have hle : sarifByteSize doc indent ≤ maxBytes := h
  rw [shedLoop, if_pos hle]

theorem shedLoop_empty {fuel : ℕ} {doc : Document} {dropped : ℕ} (h : ¬ fits indent maxBytes doc)
    (hmost : mostResults doc.runs = 0) :
    shedLoop indent maxBytes (fuel + 1) doc dropped = some (doc, dropped) := by
  have hgt : ¬ sarifByteSize doc indent ≤ maxBytes := h
  rw [shedLoop, if_neg hgt]
  exact if_pos hmost

theorem shedLoop_round {fuel : ℕ} {doc : Document} {dropped : ℕ} (h : ¬ fits indent maxBytes doc)
    (hmost : mostResults doc.runs ≠ 0) :
    shedLoop indent maxBytes (fuel + 1) doc dropped = shedLoop indent maxBytes fuel (shedRound doc)
      (dropped + (mostResults doc.runs - keepOf (mostResults doc.runs))) := by
  have hgt : ¬ sarifByteSize doc indent ≤ maxBytes := h
  rw [shedLoop, if_neg hgt]
  exact if_neg hmost

theorem exists_shedLoop {doc : Document} (h : fits indent maxBytes (bestOnly doc)) (dropped : ℕ) :
    ∃ fuel r, shedLoop indent maxBytes fuel doc dropped = some r := by
  induction hn : totalResults doc using Nat.strongRecOn generalizing doc dropped with
  | ind n ih =>
    by_cases hfit : fits indent maxBytes doc
    · exact ⟨1, _, shedLoop_fits hfit⟩
    · by_cases hmost : mostResults doc.runs = 0
      · exact ⟨1, _, shedLoop_empty hfit hmost⟩
      · by_cases hone : mostResults doc.runs ≤ 1
        · -- one result in each run: this is the document of the best results
          rw [bestOnly_eq_self hone] at h
          exact absurd h hfit
        · have htwo : 2 ≤ mostResults doc.runs := by omega
          have hlt := totalResults_shedRound_lt htwo
          rw [← bestOnly_shedRound hmost] at h
          obtain ⟨fuel, r, hr⟩ := ih _ (hn ▸ hlt) h _ rfl
          exact ⟨fuel + 1, r, by rw [shedLoop_round hfit hmost, hr]⟩

theorem shedLoop_eq_none {doc : Document} (hmost : mostResults doc.runs ≠ 0)
    (h : ¬ fits indent maxBytes (bestOnly doc)) (fuel dropped : ℕ) :
    shedLoop indent maxBytes fuel doc dropped = none := by
  induction fuel generalizing doc dropped with
  | zero => rfl
  | succ fuel ih =>
    have hfit : ¬ fits indent maxBytes doc := fun hfit => h ((bestOnly_size_le indent doc).trans hfit)
    rw [shedLoop_round hfit hmost]
    refine ih (mostResults_shedRound hmost) ?_ _
    rw [bestOnly_shedRound hmost]
    exact h

theorem shedLoop_cases {fuel : ℕ} {doc : Document} {dropped : ℕ} {r : Document × ℕ}
    (h : shedLoop indent maxBytes fuel doc dropped = some r) :
    (mostResults doc.runs = 0 ∧ r = (doc, dropped)) ∨
      ∃ n, r = shedAfter n doc dropped ∧ fits indent maxBytes (shedAfter n doc dropped).1 ∧
        ∀ m < n, ¬ fits indent maxBytes (shedAfter m doc dropped).1 := by
  induction fuel generalizing doc dropped with
  | zero => cases h
  | succ fuel ih =>
    by_cases hfit : fits indent maxBytes doc
    · rw [shedLoop_fits hfit] at h
      refine .inr ⟨0, (Option.some.inj h).symm, hfit, fun m hm => absurd hm (Nat.not_lt_zero m)⟩
    · by_cases hmost : mostResults doc.runs = 0
      · rw [shedLoop_empty hfit hmost] at h
        exact .inl ⟨hmost, (Option.some.inj h).symm⟩
      · rw [shedLoop_round hfit hmost] at h
        rcases ih h with ⟨hzero, _⟩ | ⟨n, hr, hn, hbefore⟩
        · exact absurd hzero (mostResults_shedRound hmost)
        · refine .inr ⟨n + 1, hr, hn, fun m hm => ?_⟩
          cases m with
          | zero => exact hfit
          | succ m => exact hbefore m (by omega)

theorem FirstFit.unique {doc : Document} {n m : ℕ} (hn : FirstFit indent maxBytes n doc)
    (hm : FirstFit indent maxBytes m doc) : n = m := by
  by_contra hne
  rcases Nat.lt_or_gt_of_ne hne with hlt | hlt
  · exact hm.2 n hlt hn.1
  · exact hn.2 m hlt hm.1

end

def Invocation.Notifies (i : Invocation) : Prop := i.toolExecutionNotifications.getD [] ≠ []

def SarifRun.Complete (run : SarifRun) : Prop :=
  ∀ i ∈ run.invocations.getD [], i.Notifies → i.executionSuccessful.isSome = true

def SarifRun.CanNote (run : SarifRun) : Prop :=
  ∃ i more, run.invocations = some (i :: more) ∧ i.executionSuccessful.isSome = true

theorem notifies_notify (i : Invocation) (notice : Json) : (i.notify notice).Notifies := by
  simp [Invocation.Notifies, Invocation.notify]

theorem complete_noteTruncation {run run' : SarifRun} {facts : List (String × ℕ)}
    (h : noteTruncation run facts = .ok run') :
    (run'.Complete ↔ run.Complete ∧ run.CanNote) ∧ (run'.CanNote ↔ run.CanNote) ∧
      run'.results = run.results := by
  obtain ⟨results, properties, invocations, rest⟩ := run
  cases invocations with
  | none =>
    -- the new invocation has only the notification
    cases h
    refine ⟨iff_of_false (fun hc => ?_) (fun hc => ?_), iff_of_false (fun hc => ?_) (fun hc => ?_), rfl⟩
    · have hexec := hc (emptyInvocation.notify _) List.mem_cons_self (notifies_notify _ _)
      cases hexec
    · obtain ⟨_, _, heq, _⟩ := hc.2
      cases heq
    · obtain ⟨_, _, heq, hexec⟩ := hc
      cases heq
      cases hexec
    · obtain ⟨_, _, heq, _⟩ := hc
      cases heq
  | some is =>
    cases is with
    | nil => cases h
    | cons i more =>
      cases h
      refine ⟨⟨fun hc => ?_, fun hc => ?_⟩, ⟨fun hc => ?_, fun hc => ?_⟩, rfl⟩
      · have hexec : i.executionSuccessful.isSome = true :=
          hc (i.notify _) List.mem_cons_self (notifies_notify _ _)
        refine ⟨fun j hj hnot => ?_, i, more, rfl, hexec⟩
        rcases List.mem_cons.mp hj with rfl | hj
        · exact hexec
        · exact hc j (List.mem_cons_of_mem _ hj) hnot
      · obtain ⟨hcomplete, _, _, heq, hexec⟩ := hc
        cases heq
        intro j hj hnot
        rcases List.mem_cons.mp hj with rfl | hj
        · exact hexec
        · exact hcomplete j (List.mem_cons_of_mem _ hj) hnot
      · obtain ⟨_, _, heq, hexec⟩ := hc
        cases heq
        exact ⟨i, more, rfl, hexec⟩
      · obtain ⟨_, _, heq, hexec⟩ := hc
        cases heq
        exact ⟨_, _, rfl, hexec⟩

theorem noteTruncation_eq_error {run : SarifRun} {facts : List (String × ℕ)} {e : Error}
    (h : noteTruncation run facts = .error e) : ¬ run.CanNote := by
  intro ⟨i, more, hinv, _⟩
  rw [noteTruncation, hinv] at h
  cases h

theorem complete_strip (run : SarifRun) :
    (run.strip.Complete ↔ run.Complete) ∧ (run.strip.CanNote ↔ run.CanNote) := by
  have hexec : ∀ i : Invocation, i.strip.executionSuccessful.isSome = i.executionSuccessful.isSome := by
    intro i
    simp [Invocation.strip]
  have hnotifies : ∀ i : Invocation, i.strip.Notifies ↔ i.Notifies := by
    intro i
    cases hn : i.toolExecutionNotifications with
    | none => simp [Invocation.Notifies, Invocation.strip, hn]
    | some ns => simp [Invocation.Notifies, Invocation.strip, hn, stripItems_eq_map]
  obtain ⟨results, properties, invocations, rest⟩ := run
  cases invocations with
  | none => simp [SarifRun.Complete, SarifRun.CanNote, SarifRun.strip]
  | some is =>
    constructor
    · simp [SarifRun.Complete, SarifRun.strip, hexec, hnotifies]
    · cases is with
      | nil => simp [SarifRun.CanNote, SarifRun.strip]
      | cons i more => simp [SarifRun.CanNote, SarifRun.strip, hexec]

/-! ## Documents -/

def Document.Complete (doc : Document) : Prop := ∀ run ∈ doc.runs, run.Complete

def Document.CanNote (doc : Document) : Prop := ∀ run ∈ doc.runs.head?, run.CanNote

def Noted (maxResults : ℕ) (run : SarifRun) : Prop :=
  (dedupe [] run.resultList).length ≠ run.count ∨ maxResults < (dedupe [] run.resultList).length

instance (maxResults : ℕ) : DecidablePred (Noted maxResults) := fun run =>
  inferInstanceAs (Decidable ((dedupe [] run.resultList).length ≠ run.count ∨
    maxResults < (dedupe [] run.resultList).length))

theorem dedupe_sublist (seen : List (Option String × String × ℤ)) (rs : List Json) :
    (dedupe seen rs).Sublist rs := by
  induction rs generalizing seen with
  | nil => exact .slnil
  | cons r rs ih =>
    rw [dedupe]
    split_ifs with h
    · exact (ih seen).cons r
    · exact (ih _).cons_cons r

theorem length_capped_le (maxResults : ℕ) (rs : List Json) :
    (capped maxResults rs).length ≤ rs.length ∧ (capped maxResults rs).length ≤ maxResults ∧
      ((capped maxResults rs).length = rs.length ↔ ¬ maxResults < rs.length) := by
  rw [capped]
  split_ifs with h
  · rw [List.length_take, length_ranked]
    omega
  · omega

theorem prepareRun_eq (maxResults : ℕ) (run : SarifRun) :
    ∃ facts, (Noted maxResults run ∧ prepareRun maxResults run = noteTruncation
        (run.withResults (capped maxResults (dedupe [] run.resultList))) facts) ∨
      (¬ Noted maxResults run ∧ prepareRun maxResults run =
        .ok (run.withResults (capped maxResults (dedupe [] run.resultList)))) := by
  have hdedupe := (dedupe_sublist [] run.resultList).length_le
  have hcapped := length_capped_le maxResults (dedupe [] run.resultList)
  have hiff : (run.resultList.length - (dedupe [] run.resultList).length ≠ 0 ∨
      (dedupe [] run.resultList).length - (capped maxResults (dedupe [] run.resultList)).length ≠ 0) ↔
      Noted maxResults run := by
    rw [Noted, show run.count = run.resultList.length from rfl]
    omega
  refine ⟨[("sarif_duplicate_results_dropped", run.resultList.length - (dedupe [] run.resultList).length),
    ("sarif_results_over_display_cap", (dedupe [] run.resultList).length -
      (capped maxResults (dedupe [] run.resultList)).length)], ?_⟩
  by_cases hnoted : Noted maxResults run
  · exact .inl ⟨hnoted, by rw [prepareRun]; exact if_pos (hiff.mpr hnoted)⟩
  · exact .inr ⟨hnoted, by rw [prepareRun]; exact if_neg (mt hiff.mp hnoted)⟩

theorem complete_prepareRun {maxResults : ℕ} {run run' : SarifRun}
    (h : prepareRun maxResults run = .ok run') :
    (run'.Complete ↔ run.Complete ∧ (Noted maxResults run → run.CanNote)) ∧
      (run'.CanNote ↔ run.CanNote) ∧
      run'.results = some (capped maxResults (dedupe [] run.resultList)) := by
  obtain ⟨facts, ⟨hnoted, heq⟩ | ⟨hnoted, heq⟩⟩ := prepareRun_eq maxResults run
  · rw [heq] at h
    obtain ⟨hcomplete, hcan, hresults⟩ := complete_noteTruncation h
    refine ⟨hcomplete.trans ?_, hcan, hresults⟩
    exact ⟨fun hc => ⟨hc.1, fun _ => hc.2⟩, fun hc => ⟨hc.1, hc.2 hnoted⟩⟩
  · rw [heq] at h
    cases h
    exact ⟨⟨fun hc => ⟨hc, fun hn => absurd hn hnoted⟩, fun hc => hc.1⟩, Iff.rfl, rfl⟩

theorem prepareRuns_eq_error {maxResults : ℕ} {runs : List SarifRun} {e : Error}
    (h : prepareRuns maxResults runs = .error e) :
    ∃ run ∈ runs, prepareRun maxResults run = .error e := by
  induction runs with
  | nil => cases h
  | cons run runs ih =>
    rw [prepareRuns] at h
    cases hrun : prepareRun maxResults run with
    | error e' =>
      rw [hrun] at h
      cases h
      exact ⟨run, List.mem_cons_self, hrun⟩
    | ok run' =>
      rw [hrun] at h
      cases htail : prepareRuns maxResults runs with
      | error e' =>
        rw [htail] at h
        cases h
        obtain ⟨r, hr, he⟩ := ih htail
        exact ⟨r, List.mem_cons_of_mem _ hr, he⟩
      | ok runs' =>
        rw [htail] at h
        cases h

theorem prepareRuns_ok {maxResults : ℕ} {runs runs' : List SarifRun}
    (h : prepareRuns maxResults runs = .ok runs') :
    List.Forall₂ (fun run run' => prepareRun maxResults run = .ok run') runs runs' := by
  induction runs generalizing runs' with
  | nil =>
    cases h
    exact .nil
  | cons run runs ih =>
    rw [prepareRuns] at h
    cases hrun : prepareRun maxResults run with
    | error e =>
      rw [hrun] at h
      cases h
    | ok run' =>
      rw [hrun] at h
      cases htail : prepareRuns maxResults runs with
      | error e =>
        rw [htail] at h
        cases h
      | ok rest =>
        rw [htail] at h
        cases h
        exact .cons hrun (ih htail)

theorem prepare_ok {maxResults : ℕ} {doc d : Document} (h : prepare maxResults doc = .ok d) :
    List.Forall₂ (fun run run' => prepareRun maxResults run = .ok run') doc.runs d.runs ∧
      d.rest = doc.rest := by
  rw [prepare] at h
  cases hruns : prepareRuns maxResults doc.runs with
  | error e =>
    rw [hruns] at h
    cases h
  | ok runs =>
    rw [hruns] at h
    cases h
    exact ⟨prepareRuns_ok hruns, rfl⟩

theorem prepareRun_eq_error {maxResults : ℕ} {run : SarifRun} {e : Error}
    (h : prepareRun maxResults run = .error e) : Noted maxResults run ∧ ¬ run.CanNote := by
  obtain ⟨facts, ⟨hnoted, heq⟩ | ⟨_, heq⟩⟩ := prepareRun_eq maxResults run
  · rw [heq] at h
    have hno := noteTruncation_eq_error h
    exact ⟨hnoted, hno⟩
  · rw [heq] at h
    cases h

theorem exists_of_prepare_error {maxResults : ℕ} {doc : Document} {e : Error}
    (h : prepare maxResults doc = .error e) : ∃ run ∈ doc.runs, Noted maxResults run ∧ ¬ run.CanNote := by
  rw [prepare] at h
  cases hruns : prepareRuns maxResults doc.runs with
  | error e' =>
    obtain ⟨run, hrun, he⟩ := prepareRuns_eq_error hruns
    exact ⟨run, hrun, prepareRun_eq_error he⟩
  | ok runs' =>
    rw [hruns] at h
    cases h

theorem complete_prepare {maxResults : ℕ} {doc d : Document} (h : prepare maxResults doc = .ok d) :
    (d.Complete ↔ doc.Complete ∧ ∀ run ∈ doc.runs, Noted maxResults run → run.CanNote) ∧
      (d.CanNote ↔ doc.CanNote) := by
  have hall := (prepare_ok h).1
  rw [Document.Complete, Document.Complete, Document.CanNote, Document.CanNote]
  generalize doc.runs = runs at hall ⊢
  generalize d.runs = runs' at hall ⊢
  constructor
  · induction hall with
    | nil => simp
    | @cons run run' runs runs' hrun _ ih =>
      have hhead := (complete_prepareRun hrun).1
      rw [List.forall_mem_cons, List.forall_mem_cons, List.forall_mem_cons, hhead, ih]
      exact and_and_and_comm
  · cases hall with
    | nil => exact Iff.rfl
    | cons hrun _ =>
      simp only [List.head?_cons, Option.mem_def, Option.some.injEq, forall_eq']
      exact (complete_prepareRun hrun).2.1

theorem count_prepare_le {maxResults : ℕ} {doc d : Document} (h : prepare maxResults doc = .ok d) :
    ∀ run ∈ d.runs, run.count ≤ maxResults := by
  have hall := (prepare_ok h).1
  generalize doc.runs = runs at hall
  generalize d.runs = runs' at hall ⊢
  induction hall with
  | nil =>
    intro run hrun
    cases hrun
  | @cons run run' runs runs' hrun _ ih =>
    rw [List.forall_mem_cons]
    refine ⟨?_, ih⟩
    have hresults := (complete_prepareRun hrun).2.2
    rw [SarifRun.count, SarifRun.resultList, hresults]
    exact (length_capped_le maxResults _).2.1

theorem eq_of_no_results {maxResults : ℕ} (hmax : 0 < maxResults) {doc d : Document}
    (h : prepare maxResults doc = .ok d) (hmost : mostResults d.runs = 0) :
    d = { doc with runs := doc.runs.map (·.withResults []) } := by
  obtain ⟨hall, hrest⟩ := prepare_ok h
  have hzero : ∀ run ∈ d.runs, run.count = 0 := fun run hrun =>
    Nat.le_zero.mp (hmost ▸ count_le_mostResults hrun)
  have hruns : d.runs = doc.runs.map (·.withResults []) := by
    clear h hmost hrest
    generalize doc.runs = runs at hall ⊢
    generalize d.runs = runs' at hall hzero ⊢
    induction hall with
    | nil => rfl
    | @cons run run' runs runs' hrun _ ih =>
      rw [List.forall_mem_cons] at hzero
      rw [List.map_cons, ih hzero.2]
      congr 1
      have hcount := hzero.1
      rw [SarifRun.count, SarifRun.resultList, (complete_prepareRun hrun).2.2] at hcount
      have hcount : (capped maxResults (dedupe [] run.resultList)).length = 0 := hcount
      have hdeduped : dedupe [] run.resultList = [] := by
        rw [capped] at hcount
        split_ifs at hcount with hlt
        · rw [List.length_take, length_ranked] at hcount
          omega
        · exact List.eq_nil_of_length_eq_zero hcount
      have hnil : run.resultList = [] := by
        cases hrs : run.resultList with
        | nil => rfl
        | cons r rs =>
          rw [hrs, dedupe, if_neg List.not_mem_nil] at hdeduped
          cases hdeduped
      have hquiet : ¬ Noted maxResults run := by
        rw [Noted, SarifRun.count, hdeduped, hnil]
        simp
      obtain ⟨_, ⟨hnoted, _⟩ | ⟨_, heq⟩⟩ := prepareRun_eq maxResults run
      · exact absurd hnoted hquiet
      · rw [hrun, hdeduped] at heq
        cases heq
        rw [capped, if_neg (by simp)]
  obtain ⟨runs, rest⟩ := d
  cases hrest
  cases hruns
  rfl

/-! ### Shedding -/

theorem complete_congr {doc doc' : Document}
    (h : doc'.runs.map (·.invocations) = doc.runs.map (·.invocations)) :
    (doc'.Complete ↔ doc.Complete) ∧ (doc'.CanNote ↔ doc.CanNote) := by
  have hcomplete : ∀ d : Document, d.Complete ↔ ∀ is ∈ d.runs.map (·.invocations), ∀ i ∈ is.getD [],
      i.Notifies → i.executionSuccessful.isSome = true := by
    intro d
    rw [List.forall_mem_map]
    rfl
  have hcan : ∀ d : Document, d.CanNote ↔ ∀ is ∈ (d.runs.map (·.invocations)).head?,
      ∃ i more, is = some (i :: more) ∧ i.executionSuccessful.isSome = true := by
    intro d
    rw [List.head?_map, Document.CanNote]
    simp only [Option.mem_def, Option.map_eq_some_iff, forall_exists_index, and_imp,
      forall_apply_eq_imp_iff₂]
    rfl
  rw [hcomplete, hcomplete, hcan, hcan, h]
  exact ⟨Iff.rfl, Iff.rfl⟩

theorem invocations_shedAfter (n : ℕ) (doc : Document) (dropped : ℕ) :
    (shedAfter n doc dropped).1.runs.map (·.invocations) = doc.runs.map (·.invocations) := by
  induction n generalizing doc dropped with
  | zero => rfl
  | succ n ih =>
    rw [shedAfter, ih]
    exact map_shedFirst _ (fun _ _ => rfl) _

theorem count_shedAfter_le {m : ℕ} (n : ℕ) {doc : Document} (dropped : ℕ)
    (h : ∀ run ∈ doc.runs, run.count ≤ m) : ∀ run ∈ (shedAfter n doc dropped).1.runs, run.count ≤ m := by
  have hfirst : ∀ (k : ℕ) (runs : List SarifRun), (∀ run ∈ runs, run.count ≤ m) →
      ∀ run ∈ shedFirst k runs, run.count ≤ m := by
    intro k runs hruns
    induction runs with
    | nil => exact hruns
    | cons r runs ih =>
      rw [List.forall_mem_cons] at hruns
      rw [shedFirst]
      split_ifs with hr
      · rw [List.forall_mem_cons]
        refine ⟨?_, hruns.2⟩
        rw [count_shed]
        exact (min_le_right _ _).trans hruns.1
      · rw [List.forall_mem_cons]
        exact ⟨hruns.1, ih hruns.2⟩
  induction n generalizing doc dropped with
  | zero => exact h
  | succ n ih => exact ih _ (hfirst _ _ h)

theorem count_strip (run : SarifRun) : run.strip.count = run.count := by
  obtain ⟨results, properties, invocations, rest⟩ := run
  cases results with
  | none => rfl
  | some rs =>
    show (stripItems rs).length = rs.length
    rw [stripItems_eq_map, List.length_map]

theorem mostResults_strip (doc : Document) : mostResults doc.strip.runs = mostResults doc.runs := by
  rw [mostResults, mostResults, Document.strip, List.map_map]
  congr 2
  funext run
  exact count_strip run

theorem complete_strip_document (doc : Document) :
    (doc.strip.Complete ↔ doc.Complete) ∧ (doc.strip.CanNote ↔ doc.CanNote) := by
  constructor
  · rw [Document.Complete, Document.Complete, Document.strip, List.forall_mem_map]
    exact forall₂_congr fun run _ => (complete_strip run).1
  · rw [Document.CanNote, Document.CanNote, Document.strip, List.head?_map]
    simp only [Option.mem_def, Option.map_eq_some_iff, forall_exists_index, and_imp,
      forall_apply_eq_imp_iff₂]
    exact forall₂_congr fun run _ => (complete_strip run).2

theorem noteShedding_zero (doc : Document) : noteShedding doc 0 = .ok doc := by
  obtain ⟨runs, rest⟩ := doc
  cases runs with
  | nil => rfl
  | cons run runs => rfl

theorem noteShedding_ok {doc out : Document} {dropped : ℕ} (h : noteShedding doc dropped = .ok out) :
    (out.Complete ↔ doc.Complete ∧ (dropped ≠ 0 → doc.CanNote)) ∧
      ∀ m, (∀ run ∈ doc.runs, run.count ≤ m) → ∀ run ∈ out.runs, run.count ≤ m := by
  by_cases hzero : dropped = 0
  · rw [hzero, noteShedding_zero] at h
    cases h
    exact ⟨⟨fun hc => ⟨hc, fun hne => absurd hzero hne⟩, And.left⟩, fun m hm => hm⟩
  · obtain ⟨runs, rest⟩ := doc
    cases runs with
    | nil =>
      cases h
      refine ⟨⟨fun hc => ⟨hc, fun _ run hrun => ?_⟩, And.left⟩, fun m hm => hm⟩
      cases hrun
    | cons run runs =>
      rw [noteShedding] at h
      simp only [if_neg hzero] at h
      cases hnote : noteTruncation run [("sarif_results_dropped_for_size", dropped)] with
      | error e =>
        rw [hnote] at h
        cases h
      | ok run' =>
        rw [hnote] at h
        cases h
        obtain ⟨hcomplete, _, hresults⟩ := complete_noteTruncation hnote
        constructor
        · rw [Document.Complete, Document.Complete, List.forall_mem_cons, List.forall_mem_cons, hcomplete,
            Document.CanNote, List.head?_cons]
          simp only [Option.mem_def, Option.some.injEq, forall_eq']
          exact ⟨fun hc => ⟨⟨hc.1.1, hc.2⟩, fun _ => hc.1.2⟩, fun hc => ⟨⟨hc.1.1, hc.2 hzero⟩, hc.1.2⟩⟩
        · intro m hm
          rw [List.forall_mem_cons] at hm ⊢
          rw [SarifRun.count, SarifRun.resultList, hresults]
          exact hm

theorem exists_noteShedding {doc : Document} {dropped : ℕ} (h : dropped ≠ 0 → doc.CanNote) :
    ∃ out, noteShedding doc dropped = .ok out := by
  by_cases hzero : dropped = 0
  · exact ⟨doc, by rw [hzero, noteShedding_zero]⟩
  · obtain ⟨runs, rest⟩ := doc
    cases runs with
    | nil => exact ⟨_, rfl⟩
    | cons run runs =>
      cases hnote : noteTruncation run [("sarif_results_dropped_for_size", dropped)] with
      | error e => exact absurd (h hzero run rfl) (noteTruncation_eq_error hnote)
      | ok run' =>
        refine ⟨{ runs := run' :: runs, rest }, ?_⟩
        rw [noteShedding]
        simp only [if_neg hzero, hnote]
        rfl

/-! ## The whole function -/

/-- The document with all results and snippets removed. -/
def Document.core (doc : Document) : Document :=
  Document.strip { doc with runs := doc.runs.map (·.withResults []) }

section
variable (indent maxBytes maxResults : ℕ)

/-- What is said of `bound_sarif_document`. -/
structure KeepsBudget (doc : Document) : Prop where
  terminates : ∃ fuel r, boundSarifDocument fuel maxBytes maxResults indent doc = some r
  keeps : fits indent maxBytes doc.core →
    ∃ fuel out, boundSarifDocument fuel maxBytes maxResults indent doc = some (.ok out) ∧
      fits indent maxBytes out ∧ (∀ run ∈ out.runs, run.count ≤ maxResults) ∧ out.Complete

/-- One result in each run fits; every note has an invocation with the field to stand in; and the document
at which shedding stops leaves room for its note. -/
structure BudgetCondition (doc : Document) : Prop where
  oneEach : ∀ d, prepare maxResults doc = .ok d →
    mostResults d.runs = 0 ∨ fits indent maxBytes (bestOnly (stripped indent maxBytes d))
  notes : fits indent maxBytes doc.core →
    doc.Complete ∧ ∀ run ∈ doc.runs, Noted maxResults run → run.CanNote
  room : fits indent maxBytes doc.core → ∀ d n, prepare maxResults doc = .ok d →
    FirstFit indent maxBytes n (stripped indent maxBytes d) →
    (shedAfter n (stripped indent maxBytes d) 0).2 ≠ 0 → doc.CanNote ∧
      ∀ out, noteShedding (shedAfter n (stripped indent maxBytes d) 0).1
        (shedAfter n (stripped indent maxBytes d) 0).2 = .ok out → fits indent maxBytes out

variable {indent maxBytes maxResults}

theorem stripped_cases (d : Document) :
    (fits indent maxBytes d ∧ stripped indent maxBytes d = d) ∨
      (¬ fits indent maxBytes d ∧ stripped indent maxBytes d = d.strip) := by
  rw [stripped]
  split_ifs with h
  · exact .inr ⟨Nat.not_le.mpr h, rfl⟩
  · exact .inl ⟨Nat.not_lt.mp h, rfl⟩

theorem mostResults_stripped (d : Document) :
    mostResults (stripped indent maxBytes d).runs = mostResults d.runs := by
  rw [stripped]
  split_ifs with h
  · rw [mostResults_strip]
  · rfl

theorem complete_stripped (d : Document) :
    ((stripped indent maxBytes d).Complete ↔ d.Complete) ∧
      ((stripped indent maxBytes d).CanNote ↔ d.CanNote) := by
  rw [stripped]
  split_ifs with h
  · exact complete_strip_document d
  · exact ⟨Iff.rfl, Iff.rfl⟩

theorem count_stripped_le {m : ℕ} {d : Document} (h : ∀ run ∈ d.runs, run.count ≤ m) :
    ∀ run ∈ (stripped indent maxBytes d).runs, run.count ≤ m := by
  rw [stripped]
  split_ifs with hfit
  · rw [Document.strip, List.forall_mem_map]
    intro run hrun
    rw [count_strip]
    exact h run hrun
  · exact h

theorem fits_of_no_results (hmax : 0 < maxResults) {doc d : Document}
    (h : prepare maxResults doc = .ok d) (hmost : mostResults d.runs = 0)
    (hcore : fits indent maxBytes doc.core) : fits indent maxBytes (stripped indent maxBytes d) := by
  rcases stripped_cases d with ⟨hfit, heq⟩ | ⟨_, heq⟩
  · rw [heq]
    exact hfit
  · rw [heq, eq_of_no_results hmax h hmost]
    exact hcore

theorem exists_firstFit (hmax : 0 < maxResults) {doc d : Document} (h : prepare maxResults doc = .ok d)
    (hcore : fits indent maxBytes doc.core) {fuel : ℕ} {s : Document × ℕ}
    (hs : shedLoop indent maxBytes fuel (stripped indent maxBytes d) 0 = some s) :
    ∃ n, s = shedAfter n (stripped indent maxBytes d) 0 ∧
      FirstFit indent maxBytes n (stripped indent maxBytes d) := by
  rcases shedLoop_cases hs with ⟨hmost, heq⟩ | ⟨n, heq, hfirst⟩
  · rw [mostResults_stripped] at hmost
    exact ⟨0, heq, fits_of_no_results hmax h hmost hcore, fun m hm => absurd hm (Nat.not_lt_zero m)⟩
  · exact ⟨n, heq, hfirst⟩

theorem boundSarifDocument_ok {doc d : Document} (h : prepare maxResults doc = .ok d) (fuel : ℕ) :
    boundSarifDocument fuel maxBytes maxResults indent doc =
      (shedLoop indent maxBytes fuel (stripped indent maxBytes d) 0).map fun s => noteShedding s.1 s.2 := by
  rw [boundSarifDocument, h]

theorem complete_out {doc d out : Document} {n : ℕ} (h : prepare maxResults doc = .ok d)
    (hout : noteShedding (shedAfter n (stripped indent maxBytes d) 0).1
      (shedAfter n (stripped indent maxBytes d) 0).2 = .ok out) :
    out.Complete ↔ (doc.Complete ∧ ∀ run ∈ doc.runs, Noted maxResults run → run.CanNote) ∧
      ((shedAfter n (stripped indent maxBytes d) 0).2 ≠ 0 → doc.CanNote) := by
  have hshed := complete_congr (invocations_shedAfter n (stripped indent maxBytes d) 0)
  rw [(noteShedding_ok hout).1, hshed.1, hshed.2, (complete_stripped d).1, (complete_stripped d).2,
    (complete_prepare h).1, (complete_prepare h).2]

theorem KeepsBudget.condition (hmax : 0 < maxResults) {doc : Document}
    (h : KeepsBudget indent maxBytes maxResults doc) : BudgetCondition indent maxBytes maxResults doc := by
  -- the document that comes out, and the round at which the loop ended
  have hkept : fits indent maxBytes doc.core → ∃ d n out, prepare maxResults doc = .ok d ∧
      FirstFit indent maxBytes n (stripped indent maxBytes d) ∧
      noteShedding (shedAfter n (stripped indent maxBytes d) 0).1
        (shedAfter n (stripped indent maxBytes d) 0).2 = .ok out ∧ fits indent maxBytes out ∧
      out.Complete := by
    intro hcore
    obtain ⟨fuel, out, hbound, hfit, _, hcomplete⟩ := h.keeps hcore
    cases hprep : prepare maxResults doc with
    | error e =>
      rw [boundSarifDocument, hprep] at hbound
      cases hbound
    | ok d =>
      rw [boundSarifDocument_ok hprep] at hbound
      obtain ⟨s, hs, hout⟩ := Option.map_eq_some_iff.mp hbound
      obtain ⟨n, rfl, hfirst⟩ := exists_firstFit hmax hprep hcore hs
      exact ⟨d, n, out, rfl, hfirst, hout, hfit, hcomplete⟩
  refine ⟨fun d hprep => ?_, fun hcore => ?_, fun hcore d n hprep hfirst hdropped => ?_⟩
  · by_contra hno
    obtain ⟨hmost, hbest⟩ := not_or.mp hno
    obtain ⟨fuel, r, hr⟩ := h.terminates
    have hsame : mostResults (stripped indent maxBytes d).runs = mostResults d.runs := mostResults_stripped d
    rw [← hsame] at hmost
    rw [boundSarifDocument_ok hprep, shedLoop_eq_none hmost hbest] at hr
    cases hr
  · obtain ⟨d, n, out, hprep, _, hout, _, hcomplete⟩ := hkept hcore
    exact ((complete_out hprep hout).mp hcomplete).1
  · obtain ⟨d', n', out, hprep', hfirst', hout, hfit, hcomplete⟩ := hkept hcore
    obtain rfl : d' = d := Except.ok.inj (hprep'.symm.trans hprep)
    obtain rfl := hfirst.unique hfirst'
    refine ⟨((complete_out hprep hout).mp hcomplete).2 hdropped, fun out' hout' => ?_⟩
    obtain rfl : out = out' := Except.ok.inj (hout.symm.trans hout')
    exact hfit

theorem BudgetCondition.keepsBudget (hmax : 0 < maxResults) {doc : Document}
    (h : BudgetCondition indent maxBytes maxResults doc) : KeepsBudget indent maxBytes maxResults doc := by
  have hloop : ∀ d, prepare maxResults doc = .ok d →
      ∃ fuel s, shedLoop indent maxBytes fuel (stripped indent maxBytes d) 0 = some s := by
    intro d hprep
    rcases h.oneEach d hprep with hmost | hbest
    · by_cases hfit : fits indent maxBytes (stripped indent maxBytes d)
      · exact ⟨1, _, shedLoop_fits hfit⟩
      · exact ⟨1, _, shedLoop_empty hfit ((mostResults_stripped d).trans hmost)⟩
    · exact exists_shedLoop hbest 0
  constructor
  · cases hprep : prepare maxResults doc with
    | error e => exact ⟨0, _, by rw [boundSarifDocument, hprep]⟩
    | ok d =>
      obtain ⟨fuel, s, hs⟩ := hloop d hprep
      exact ⟨fuel, _, by rw [boundSarifDocument_ok hprep, hs]; rfl⟩
  · intro hcore
    cases hprep : prepare maxResults doc with
    | error e =>
      obtain ⟨run, hrun, hnoted, hno⟩ := exists_of_prepare_error hprep
      exact absurd ((h.notes hcore).2 run hrun hnoted) hno
    | ok d =>
      obtain ⟨fuel, s, hs⟩ := hloop d hprep
      obtain ⟨n, rfl, hfirst⟩ := exists_firstFit hmax hprep hcore hs
      have hroom := h.room hcore d n hprep hfirst
      have hcan : (shedAfter n (stripped indent maxBytes d) 0).2 ≠ 0 →
          (shedAfter n (stripped indent maxBytes d) 0).1.CanNote := by
        intro hdropped
        rw [(complete_congr (invocations_shedAfter n _ 0)).2, (complete_stripped d).2,
          (complete_prepare hprep).2]
        exact (hroom hdropped).1
      obtain ⟨out, hout⟩ := exists_noteShedding hcan
      refine ⟨fuel, out, by rw [boundSarifDocument_ok hprep, hs, Option.map_some, hout], ?_, ?_, ?_⟩
      · by_cases hdropped : (shedAfter n (stripped indent maxBytes d) 0).2 = 0
        · rw [hdropped, noteShedding_zero] at hout
          cases hout
          exact hfirst.1
        · exact (hroom hdropped).2 out hout
      · exact (noteShedding_ok hout).2 maxResults
          (count_shedAfter_le n 0 (count_stripped_le (count_prepare_le hprep)))
      · exact (complete_out hprep hout).mpr ⟨h.notes hcore, fun hdropped => (hroom hdropped).1⟩

end

/-- The trimming ends and respects its budget exactly when one result in each run fits, every note has an
invocation with the field to stand in, and the shedding leaves room for its note. -/
theorem keepsBudget_iff (indent maxBytes maxResults : ℕ) (hmax : 0 < maxResults) (doc : Document) :
    KeepsBudget indent maxBytes maxResults doc ↔ BudgetCondition indent maxBytes maxResults doc :=
  ⟨fun h => h.condition hmax, fun h => h.keepsBudget hmax⟩

def smallRun : SarifRun := { results := some [], properties := none, invocations := none, rest := [] }

def resultAt (line : ℤ) : Json :=
  .obj [("ruleId", .str "CWE-89"), ("locations", .arr [.obj [("physicalLocation", .obj [
    ("artifactLocation", .obj [("uri", .str "app.py")]), ("region", .obj [("startLine", .int line)])])]])]

def documentOf (results : List Json) : Document := { runs := [smallRun.withResults results], rest := [] }

/-- A document without results keeps every budget that its text fits. -/
theorem keepsBudget_empty : KeepsBudget 2 80 5000 (documentOf []) := by
  have hfit : fits 2 80 (documentOf []) := by decide
  have hprep : prepare 5000 (documentOf []) = .ok (documentOf []) := rfl
  have hstripped : stripped 2 80 (documentOf []) = documentOf [] := by
    rcases stripped_cases (documentOf []) with ⟨_, heq⟩ | ⟨hno, _⟩
    · exact heq
    · exact absurd hfit hno
  refine (keepsBudget_iff 2 80 5000 (by decide) (documentOf [])).mpr ⟨?_, ?_, ?_⟩
  · intro d hd
    obtain rfl := Except.ok.inj (hprep.symm.trans hd)
    exact .inl rfl
  · intro _
    refine ⟨fun run hrun i hi => ?_, fun run hrun hnoted => ?_⟩
    · rw [List.mem_singleton.mp hrun] at hi
      cases hi
    · rw [List.mem_singleton.mp hrun] at hnoted
      exact absurd hnoted (by decide)
  · intro _ d n hd hfirst hdropped
    obtain rfl := Except.ok.inj (hprep.symm.trans hd)
    rw [hstripped] at hfirst hdropped
    have hzero : FirstFit 2 80 0 (documentOf []) := ⟨hfit, fun m hm => absurd hm (Nat.not_lt_zero m)⟩
    rw [hfirst.unique hzero] at hdropped
    exact absurd rfl hdropped

/-- One result that does not fit is never shed, and the loop goes on for ever; and the note about a
repeated result stands in an invocation without `executionSuccessful`. -/
theorem one_result_sheds_for_ever :
    (fits 2 80 (documentOf [resultAt 1]).core ∧
      ∀ fuel, boundSarifDocument fuel 80 5000 2 (documentOf [resultAt 1]) = none) ∧
      fits 2 10485760 (documentOf [resultAt 1, resultAt 1]).core ∧
      ¬ KeepsBudget 2 10485760 5000 (documentOf [resultAt 1, resultAt 1]) := by
  refine ⟨⟨by decide, fun fuel => ?_⟩, by decide, fun h => ?_⟩
  · have hprep : prepare 5000 (documentOf [resultAt 1]) = .ok (documentOf [resultAt 1]) := rfl
    rw [boundSarifDocument_ok hprep, shedLoop_eq_none]
    · rfl
    · rw [mostResults_stripped]
      decide
    · decide +kernel
  · have hnote := ((h.condition (by decide)).notes (by decide)).2 _ List.mem_cons_self (by decide)
    obtain ⟨_, _, hinv, _⟩ := hnote
    cases hinv

end TimeCodeSecurity.Sarif
