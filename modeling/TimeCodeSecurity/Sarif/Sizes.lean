import TimeCodeSecurity.Sarif.Document

/-! # What makes a document shorter

Dropping results does, and the document in which each run keeps its best result is the shortest that
shedding comes to.
-/
namespace TimeCodeSecurity.Sarif
open Json
set_option autoImplicit false

variable (indent : ℕ)

theorem stripItems_eq_map (xs : List Json) : stripItems xs = xs.map stripSnippets := by
  induction xs with
  | nil => rfl
  | cons x xs ih => rw [stripItems, ih, List.map_cons]

def runCost (run : SarifRun) : ℕ := itemCost indent 2 run.toJson

theorem sarifByteSize_eq (doc : Document) :
    sarifByteSize doc indent = 2 + (fieldCost indent 1 ("runs", .arr (doc.runs.map SarifRun.toJson)) +
      fieldsCost indent 1 doc.rest) := by
  rw [sarifByteSize, Document.toJson, size_obj, if_neg (List.cons_ne_nil _ _), Nat.mul_zero, Nat.zero_add]
  rfl

theorem sarifByteSize_mono {doc doc' : Document}
    (hrest : fieldsCost indent 1 doc'.rest ≤ fieldsCost indent 1 doc.rest)
    (hlen : doc'.runs.length = doc.runs.length)
    (hruns : (doc'.runs.map (runCost indent)).sum ≤ (doc.runs.map (runCost indent)).sum) :
    sarifByteSize doc' indent ≤ sarifByteSize doc indent := by
  have hcost : ∀ runs : List SarifRun,
      itemsCost indent 2 (runs.map SarifRun.toJson) = (runs.map (runCost indent)).sum := by
    intro runs
    rw [itemsCost, List.map_map]
    rfl
  have harr : size indent 1 (.arr (doc'.runs.map SarifRun.toJson)) ≤
      size indent 1 (.arr (doc.runs.map SarifRun.toJson)) := by
    refine size_arr_mono ?_ fun h => ?_
    · rw [hcost, hcost]
      exact hruns
    · rw [List.map_eq_nil_iff] at h ⊢
      rw [h] at hlen
      exact List.eq_nil_of_length_eq_zero hlen
  rw [sarifByteSize_eq, sarifByteSize_eq, fieldCost, fieldCost]
  show 2 + (4 + indent * 1 + (quoted "runs").length + size indent 1 (.arr (doc'.runs.map SarifRun.toJson)) +
    fieldsCost indent 1 doc'.rest) ≤ 2 + (4 + indent * 1 + (quoted "runs").length +
    size indent 1 (.arr (doc.runs.map SarifRun.toJson)) + fieldsCost indent 1 doc.rest)
  omega

theorem fieldsCost_optField_mono (key : String) {d : ℕ} {v v' : Json}
    (h : size indent d v' ≤ size indent d v) :
    fieldsCost indent d (optField key (some v')) ≤ fieldsCost indent d (optField key (some v)) := by
  simp only [optField, Option.toList_some, List.map_cons, List.map_nil, fieldsCost, List.sum_cons,
    List.sum_nil, fieldCost]
  omega

def SarifRun.withResults (run : SarifRun) (results : List Json) : SarifRun :=
  { run with results := some results }

theorem runCost_withResults_mono {run : SarifRun} {rs rs' : List Json}
    (hcost : itemsCost indent 4 rs' ≤ itemsCost indent 4 rs) (hnil : rs = [] → rs' = []) :
    runCost indent (run.withResults rs') ≤ runCost indent (run.withResults rs) := by
  have harr : size indent 3 (.arr rs') ≤ size indent 3 (.arr rs) := size_arr_mono hcost hnil
  have hfield := fieldsCost_optField_mono indent "results" harr
  have hsize : size indent 2 (run.withResults rs').toJson ≤ size indent 2 (run.withResults rs).toJson := by
    refine size_obj_mono ?_ fun h => ?_
    · simp only [fieldsCost_append]
      exact Nat.add_le_add_right hfield _
    · simp [SarifRun.withResults, optField] at h
  rw [runCost, runCost, itemCost, itemCost]
  omega

theorem itemsCost_ranked_take (d k : ℕ) (rs : List Json) :
    itemsCost indent d ((ranked rs).take k) ≤ itemsCost indent d rs := by
  have hperm : itemsCost indent d (ranked rs) = itemsCost indent d rs :=
    ((List.perm_insertionSort NotAfter rs).map _).sum_eq
  rw [← hperm]
  exact itemsCost_le_of_sublist (List.take_sublist _ _)

def SarifRun.best (run : SarifRun) : SarifRun :=
  if run.count = 0 then run else run.withResults ((ranked run.resultList).take 1)

def bestOnly (doc : Document) : Document := { doc with runs := doc.runs.map SarifRun.best }

theorem ranked_pairwise (rs : List Json) : (ranked rs).Pairwise NotAfter := by
  have htotal : Std.Total NotAfter := ⟨fun a b => by
    simp only [NotAfter]
    omega⟩
  have htrans : IsTrans Json NotAfter := ⟨fun a b c hab hbc => by
    simp only [NotAfter] at hab hbc ⊢
    omega⟩
  exact List.pairwise_insertionSort NotAfter rs

theorem ranked_of_pairwise {rs : List Json} (h : rs.Pairwise NotAfter) : ranked rs = rs :=
  h.insertionSort_eq

theorem length_ranked (rs : List Json) : (ranked rs).length = rs.length :=
  List.length_insertionSort NotAfter rs

theorem count_withResults (run : SarifRun) (rs : List Json) : (run.withResults rs).count = rs.length := rfl

theorem shed_eq (run : SarifRun) :
    run.shed = run.withResults ((ranked run.resultList).take (keepOf run.count)) := rfl

theorem eq_withResults {run : SarifRun} (h : run.count ≠ 0) : run = run.withResults run.resultList := by
  obtain ⟨results, properties, invocations, rest⟩ := run
  cases results with
  | none => exact absurd rfl h
  | some rs => rfl

theorem count_shed (run : SarifRun) : run.shed.count = min (keepOf run.count) run.count := by
  rw [shed_eq, count_withResults, List.length_take, length_ranked]
  rfl

theorem best_shed {run : SarifRun} (h : run.count ≠ 0) : run.shed.best = run.best := by
  have hkeep : 1 ≤ keepOf run.count := le_max_left _ _
  have hcount : run.shed.count ≠ 0 := by
    rw [count_shed]
    omega
  rw [SarifRun.best, if_neg hcount, SarifRun.best, if_neg h]
  have hsorted : ranked run.shed.resultList = (ranked run.resultList).take (keepOf run.count) :=
    ranked_of_pairwise ((ranked_pairwise run.resultList).sublist (List.take_sublist _ _))
  rw [hsorted, List.take_take, Nat.min_eq_left hkeep]
  rfl

theorem runCost_take_mono {run : SarifRun} (h : run.count ≠ 0) (k : ℕ) :
    runCost indent (run.withResults ((ranked run.resultList).take k)) ≤ runCost indent run := by
  have hcost : runCost indent (run.withResults ((ranked run.resultList).take k)) ≤
      runCost indent (run.withResults run.resultList) :=
    runCost_withResults_mono indent (itemsCost_ranked_take indent 4 k run.resultList) fun hnil => by
      rw [hnil]
      simp [ranked]
  rwa [← eq_withResults h] at hcost

theorem runCost_best_le (run : SarifRun) : runCost indent run.best ≤ runCost indent run := by
  rw [SarifRun.best]
  split_ifs with h
  · exact le_refl _
  · exact runCost_take_mono indent h 1

theorem bestOnly_size_le (doc : Document) :
    sarifByteSize (bestOnly doc) indent ≤ sarifByteSize doc indent := by
  refine sarifByteSize_mono indent (le_refl _) (by simp [bestOnly]) ?_
  rw [bestOnly, List.map_map]
  exact List.sum_le_sum fun run _ => runCost_best_le indent run

/-! ## Rounds -/

theorem count_le_mostResults {runs : List SarifRun} {run : SarifRun} (h : run ∈ runs) :
    run.count ≤ mostResults runs := by
  induction runs with
  | nil => cases h
  | cons r runs ih =>
    simp only [mostResults, List.map_cons, List.foldr_cons] at ih ⊢
    rcases List.mem_cons.mp h with rfl | h
    · exact le_max_left _ _
    · exact (ih h).trans (le_max_right _ _)

theorem exists_count_eq {runs : List SarifRun} (h : mostResults runs ≠ 0) :
    ∃ run ∈ runs, run.count = mostResults runs := by
  induction runs with
  | nil => exact absurd rfl h
  | cons r runs ih =>
    have hmax : mostResults (r :: runs) = max r.count (mostResults runs) := rfl
    rw [hmax] at h ⊢
    by_cases hle : mostResults runs ≤ r.count
    · exact ⟨r, List.mem_cons_self, by omega⟩
    · obtain ⟨run, hrun, heq⟩ := ih (by omega)
      exact ⟨run, List.mem_cons_of_mem _ hrun, by omega⟩

theorem map_shedFirst {α : Type} (f : SarifRun → α) {n : ℕ} (hf : ∀ run, run.count = n → f run.shed = f run)
    (runs : List SarifRun) : (shedFirst n runs).map f = runs.map f := by
  induction runs with
  | nil => rfl
  | cons run runs ih =>
    rw [shedFirst]
    split_ifs with h
    · rw [List.map_cons, hf run h, List.map_cons]
    · rw [List.map_cons, ih, List.map_cons]

theorem bestOnly_shedRound {doc : Document} (h : mostResults doc.runs ≠ 0) :
    bestOnly (shedRound doc) = bestOnly doc := by
  rw [bestOnly, bestOnly, shedRound]
  congr 1
  exact map_shedFirst _ (fun run hrun => best_shed (hrun ▸ h)) _

def totalResults (doc : Document) : ℕ := (doc.runs.map SarifRun.count).sum

theorem sum_shedFirst {n : ℕ} {runs : List SarifRun} (h : ∃ run ∈ runs, run.count = n) :
    ((shedFirst n runs).map SarifRun.count).sum + n = (runs.map SarifRun.count).sum + min (keepOf n) n := by
  induction runs with
  | nil =>
    obtain ⟨_, hrun, _⟩ := h
    cases hrun
  | cons run runs ih =>
    rw [shedFirst]
    split_ifs with hn
    · rw [List.map_cons, List.sum_cons, List.map_cons, List.sum_cons, count_shed, hn]
      omega
    · have htail : ∃ r ∈ runs, r.count = n := by
        obtain ⟨r, hr, heq⟩ := h
        rcases List.mem_cons.mp hr with rfl | hr
        · exact absurd heq hn
        · exact ⟨r, hr, heq⟩
      have ih := ih htail
      rw [List.map_cons, List.sum_cons, List.map_cons, List.sum_cons]
      omega

theorem totalResults_shedRound_lt {doc : Document} (h : 2 ≤ mostResults doc.runs) :
    totalResults (shedRound doc) < totalResults doc := by
  have hne : mostResults doc.runs ≠ 0 := by omega
  have hsum := sum_shedFirst (exists_count_eq hne)
  rw [keepOf] at hsum
  show ((shedFirst (mostResults doc.runs) doc.runs).map SarifRun.count).sum < (doc.runs.map SarifRun.count).sum
  omega

theorem mostResults_shedRound {doc : Document} (h : mostResults doc.runs ≠ 0) :
    mostResults (shedRound doc).runs ≠ 0 := by
  obtain ⟨run, hrun, heq⟩ := exists_count_eq h
  have hmem : ∀ runs : List SarifRun, run ∈ runs →
      ∃ r ∈ shedFirst (mostResults doc.runs) runs, r.count ≠ 0 := by
    intro runs hin
    induction runs with
    | nil => cases hin
    | cons r runs ih =>
      rw [shedFirst]
      split_ifs with hr
      · refine ⟨r.shed, List.mem_cons_self, ?_⟩
        have hkeep : 1 ≤ keepOf r.count := le_max_left _ _
        rw [count_shed]
        omega
      · rcases List.mem_cons.mp hin with rfl | hin
        · exact absurd heq hr
        · obtain ⟨r', hr', hne⟩ := ih hin
          exact ⟨r', List.mem_cons_of_mem _ hr', hne⟩
  obtain ⟨r, hr, hne⟩ := hmem doc.runs hrun
  have hle : r.count ≤ mostResults (shedRound doc).runs := count_le_mostResults hr
  omega

theorem bestOnly_eq_self {doc : Document} (h : mostResults doc.runs ≤ 1) : bestOnly doc = doc := by
  have hbest : ∀ run ∈ doc.runs, run.best = run := by
    intro run hrun
    have hle := (count_le_mostResults hrun).trans h
    rw [SarifRun.best]
    split_ifs with hzero
    · rfl
    · have hone : run.resultList.length = 1 := by
        show run.count = 1
        omega
      obtain ⟨r, hr⟩ := List.length_eq_one_iff.mp hone
      have hself := eq_withResults hzero
      rw [hr] at hself ⊢
      exact hself.symm
  rw [bestOnly, List.map_congr_left hbest, List.map_id']

end TimeCodeSecurity.Sarif
