import TimeCodeSecurity.Ci.AnnotationOrder
import TimeCodeSecurity.Ci.TableFields

/-! # The step summary in any order of the findings

Rows that tie on the sort key of their table come in the order of the scan. The document is the same for every order
exactly when the rows read the same in either order.
-/
namespace TimeCodeSecurity.Ci
open KeyedSort
set_option autoImplicit false

def lineText (line : Text) : Text := line ++ ['\n']

def RowsCommute (r s : Text) : Prop := r ++ '\n' :: s = s ++ '\n' :: r

instance (r s : Text) : Decidable (RowsCommute r s) := inferInstanceAs (Decidable (r ++ '\n' :: s = s ++ '\n' :: r))

theorem rowsCommute_iff {r s : Text} : lineText r ++ lineText s = lineText s ++ lineText r ↔ RowsCommute r s := by
  have hline : ∀ u v : Text, lineText u ++ lineText v = (u ++ '\n' :: v) ++ ['\n'] := fun u v => by simp [lineText]
  rw [hline, hline, List.append_cancel_right_eq, RowsCommute]

section Table
variable {α κ : Type} [LinearOrder κ] (key : α → Option κ) (row : α → Text)

def keyed (xs : List α) : List (κ × α) := xs.filterMap fun x => (key x).map fun k => (k, x)

def sortedRows (xs : List α) : List Text := (sort Prod.fst (keyed key xs)).map fun p => row p.2

variable {key row} {xs ys : List α}

theorem sortedBy_eq (h : ∀ x ∈ xs, (key x).isSome) :
    sortedBy key xs = some ((sort Prod.fst (keyed key xs)).map Prod.snd) := by
  rw [sortedBy, if_pos (List.all_eq_true.mpr h)]
  rfl

omit [LinearOrder κ] in
theorem key_of_mem_keyed {p : κ × α} (h : p ∈ keyed key xs) : p.2 ∈ xs ∧ key p.2 = some p.1 := by
  obtain ⟨x, hx, hp⟩ := List.mem_filterMap.mp h
  obtain ⟨k, hk, rfl⟩ := Option.map_eq_some_iff.mp hp
  exact ⟨hx, hk⟩

theorem length_sortedRows (h : ∀ x ∈ xs, (key x).isSome) : (sortedRows key row xs).length = xs.length := by
  have hkeyed := congrArg List.length (map_snd_keyed h)
  rw [List.length_map] at hkeyed
  rw [sortedRows, List.length_map, (perm_sort _).length_eq]
  exact hkeyed

theorem rowsText_congr (hperm : xs.Perm ys)
    (hties : ∀ x ∈ xs, ∀ y ∈ xs, key x = key y → RowsCommute (row x) (row y)) :
    (sortedRows key row xs).flatMap lineText = (sortedRows key row ys).flatMap lineText := by
  refine sort_congr Prod.fst (hperm.filterMap _)
    (fun l : List (κ × α) => (l.map fun p => row p.2).flatMap lineText) ?_
  intro p hp q hq hkey l l' hswap
  obtain ⟨hp, hkp⟩ := key_of_mem_keyed hp
  obtain ⟨hq, hkq⟩ := key_of_mem_keyed hq
  refine ((hswap.map fun p : κ × α => row p.2).flatMap_eq_iff lineText).mpr (rowsCommute_iff.mpr ?_)
  refine hties p.2 hp q.2 hq ?_
  rw [hkp, hkq, hkey]

theorem rowsCommute_of_rowsText {f g : α} {rest : List α} (hkey : key f = key g) (hsome : (key f).isSome)
    (h : (sortedRows key row (f :: g :: rest)).flatMap lineText =
      (sortedRows key row (g :: f :: rest)).flatMap lineText) : RowsCommute (row f) (row g) := by
  obtain ⟨k, hk⟩ := Option.isSome_iff_exists.mp hsome
  have hkg : key g = some k := hkey ▸ hk
  have hkeyed : ∀ {x y : α}, key x = some k → key y = some k →
      keyed key (x :: y :: rest) = [] ++ (k, x) :: (k, y) :: keyed key rest := by
    intro x y hx hy
    simp [keyed, hx, hy]
  have htie : ((k, f) : κ × α).1 = ((k, g) : κ × α).1 := rfl
  have hswap : Swapped (k, f) (k, g) (sort Prod.fst ([] ++ (k, f) :: (k, g) :: keyed key rest))
      (sort Prod.fst ([] ++ (k, g) :: (k, f) :: keyed key rest)) := sort_swapped Prod.fst htie [] (keyed key rest)
  rw [← hkeyed hk hkg, ← hkeyed hkg hk] at hswap
  exact rowsCommute_iff.mp (((hswap.map fun p : κ × α => row p.2).flatMap_eq_iff lineText).mp h)

end Table

theorem intercalate_append_sep {sep : Text} {lines : List Text} (hne : lines ≠ []) :
    List.intercalate sep lines ++ sep = lines.flatMap (· ++ sep) := by
  induction lines with
  | nil => exact absurd rfl hne
  | cons l lines ih =>
    cases lines with
    | nil => rw [List.intercalate_singleton, List.flatMap_cons, List.flatMap_nil, List.append_nil]
    | cons k lines =>
      rw [List.intercalate_cons_cons, List.append_assoc, ih (List.cons_ne_nil k lines)]
      rfl

section Text
variable {a b c a' b' c' : List Text}

theorem findingsTable_text {title delimiter : Text} {header : List Text} (hlength : a.length = a'.length) :
    (findingsTable title header delimiter a).flatMap lineText =
        (findingsTable title header delimiter a').flatMap lineText ↔
      a.flatMap lineText = a'.flatMap lineText := by
  have hnil : a = [] ↔ a' = [] := by rw [← List.length_eq_zero_iff, ← List.length_eq_zero_iff, hlength]
  rw [findingsTable, findingsTable]
  by_cases ha : a = []
  · rw [ha, hnil.mp ha]
    simp
  · rw [if_neg ha, if_neg fun h => ha (hnil.mpr h)]
    simp only [List.flatMap_append, List.append_cancel_left_eq, List.append_cancel_right_eq]

theorem findingLines_text (ha : a.length = a'.length) (hb : b.length = b'.length) (hc : c.length = c'.length) :
    ((findingLines a b c).flatMap lineText = (findingLines a' b' c').flatMap lineText) ↔
      (sastTable a ++ scaTable b ++ secretTable c).flatMap lineText =
        (sastTable a' ++ scaTable b' ++ secretTable c').flatMap lineText := by
  rw [findingLines, findingLines]
  by_cases hnone : a = [] ∧ b = [] ∧ c = []
  · obtain ⟨ha', hb', hc'⟩ := (all_nil_iff ha hb hc).mp hnone
    rw [hnone.1, hnone.2.1, hnone.2.2, ha', hb', hc']
    exact iff_of_true rfl rfl
  · rw [if_neg hnone, if_neg fun h => hnone ((all_nil_iff ha hb hc).mpr h)]

theorem findingLines_text_sast (ha : a.length = a'.length) :
    (findingLines a b c).flatMap lineText = (findingLines a' b c).flatMap lineText ↔
      a.flatMap lineText = a'.flatMap lineText := by
  rw [findingLines_text ha rfl rfl]
  simp only [List.flatMap_append, List.append_cancel_right_eq]
  exact findingsTable_text ha

theorem findingLines_text_sca (hb : b.length = b'.length) :
    (findingLines a b c).flatMap lineText = (findingLines a b' c).flatMap lineText ↔
      b.flatMap lineText = b'.flatMap lineText := by
  rw [findingLines_text rfl hb rfl]
  simp only [List.flatMap_append, List.append_cancel_right_eq, List.append_cancel_left_eq]
  exact findingsTable_text hb

theorem findingLines_text_secrets (hc : c.length = c'.length) :
    (findingLines a b c).flatMap lineText = (findingLines a b c').flatMap lineText ↔
      c.flatMap lineText = c'.flatMap lineText := by
  rw [findingLines_text rfl rfl hc]
  simp only [List.flatMap_append, List.append_cancel_left_eq]
  exact findingsTable_text hc

theorem document_eq_iff {head more : List Text} (hne : head ≠ [])
    (hends : EndsPlain (head ++ findingLines a b c ++ more))
    (hends' : EndsPlain (head ++ findingLines a' b' c' ++ more)) :
    document (head ++ findingLines a b c ++ more) = document (head ++ findingLines a' b' c' ++ more) ↔
      (findingLines a b c).flatMap lineText = (findingLines a' b' c').flatMap lineText := by
  have htext : ∀ lines : List Text, EndsPlain (head ++ lines ++ more) → document (head ++ lines ++ more) ++ ['\n'] =
      head.flatMap lineText ++ lines.flatMap lineText ++ more.flatMap lineText := by
    intro lines h
    have hnil : head ++ lines ++ more ≠ [] :=
      List.append_ne_nil_of_left_ne_nil (List.append_ne_nil_of_left_ne_nil hne _) _
    rw [document_of_endsPlain h, intercalate_append_sep hnil, List.flatMap_append, List.flatMap_append]
    rfl
  have hnewline : ∀ u v : Text, u = v ↔ u ++ ['\n'] = v ++ ['\n'] := fun u v =>
    (List.append_left_inj ['\n']).symm
  rw [hnewline, htext _ hends, htext _ hends', List.append_cancel_right_eq, List.append_cancel_left_eq]

end Text

/-! ## The summary -/

section Summary
variable {casing : Casing} {scan scan' : ScanResult}

variable (casing) in
def Finding.row (f : Finding) : Text := tableRow (f.cells casing)

variable (casing) in
def ScaFinding.row (f : ScaFinding) : Text := tableRow (f.cells casing)

variable (casing) in
def SecretFinding.row (f : SecretFinding) : Text := tableRow (f.cells casing)

variable (casing) in
def ScanResult.sastRows (scan : ScanResult) : List Text :=
  sortedRows Finding.summaryKey (Finding.row casing) scan.activeSast

variable (casing) in
def ScanResult.scaRows (scan : ScanResult) : List Text :=
  sortedRows ScaFinding.summaryKey (ScaFinding.row casing) scan.sca

variable (casing) in
def ScanResult.secretRows (scan : ScanResult) : List Text :=
  sortedRows SecretFinding.summaryKey (SecretFinding.row casing) scan.secrets

variable (casing) in
def ScanResult.lines (scan : ScanResult) : List Text :=
  findingLines (scan.sastRows casing) (scan.scaRows casing) (scan.secretRows casing)

theorem endsInBar_sortedRows {α κ : Type} [LinearOrder κ] {key : α → Option κ} (cells : α → List Text)
    (xs : List α) : ∀ row ∈ sortedRows key (fun f => tableRow (cells f)) xs, EndsInBar row := by
  intro row hrow
  obtain ⟨p, -, rfl⟩ := List.mem_map.mp hrow
  exact endsInBar_tableRow _

theorem Finding.key_isSome (h : scan.Sortable) : ∀ f ∈ scan.activeSast, f.summaryKey.isSome :=
  fun f hf => f.summaryKey_isSome.mpr (h.sast f hf)

theorem ScaFinding.key_isSome (h : scan.Sortable) : ∀ f ∈ scan.sca, f.summaryKey.isSome :=
  fun f hf => f.summaryKey_isSome.mpr (h.sca f hf)

theorem SecretFinding.key_isSome (h : scan.Sortable) : ∀ f ∈ scan.secrets, f.summaryKey.isSome :=
  fun f hf => f.summaryKey_isSome.mpr (h.secrets f hf)

theorem generateStepSummary_of_sortable (h : scan.Sortable) : generateStepSummary casing scan =
    some (document (summaryHead casing scan ++ scan.lines casing ++ warningLines scan.syntaxErrors)) := by
  rw [generateStepSummary, sortedBy_eq (Finding.key_isSome h), sortedBy_eq (ScaFinding.key_isSome h),
    sortedBy_eq (SecretFinding.key_isSome h)]
  simp only [Option.bind_eq_bind, Option.bind_some, List.map_map]
  rfl

theorem Sortable.of_permuted (h : Permuted scan scan') (hsortable : scan.Sortable) : scan'.Sortable where
  sast f hf := hsortable.sast f (h.activeSast_perm.mem_iff.mp hf)
  sca f hf := hsortable.sca f (h.sca_perm.mem_iff.mp hf)
  secrets f hf := hsortable.secrets f (h.secrets_perm.mem_iff.mp hf)

theorem isNone_of_rel {α : Type} {xs ys : Option (List α)} (h : Option.Rel List.Perm xs ys) :
    xs.isNone = ys.isNone := by
  cases h <;> rfl

theorem countOrDash_of_rel {α : Type} {xs ys : Option (List α)} (h : Option.Rel List.Perm xs ys) :
    countOrDash xs = countOrDash ys := by
  cases h with
  | some h => exact congrArg countText h.length_eq
  | none => rfl

theorem summaryHead_congr (h : Permuted scan scan') : summaryHead casing scan' = summaryHead casing scan := by
  have hunresolved : scan'.unresolvedCount casing = scan.unresolvedCount casing := h.sca_perm.countP_eq _
  have hsca : scan'.scaStatus casing = scan.scaStatus casing := by
    rw [ScanResult.scaStatus, ScanResult.scaStatus, isNone_of_rel h.sca, hunresolved, h.sca_perm.length_eq]
  have hsecrets : scan'.secretStatus = scan.secretStatus := by
    rw [ScanResult.secretStatus, ScanResult.secretStatus, isNone_of_rel h.secrets, h.secrets_perm.length_eq]
  simp only [summaryHead, hunresolved, hsca, hsecrets, h.activeSast_perm.length_eq, h.sca_perm.length_eq,
    h.secrets_perm.length_eq, countOrDash_of_rel h.sca, countOrDash_of_rel h.secrets]

theorem generateStepSummary_eq_iff (h : Permuted scan scan') (hsortable : scan.Sortable) :
    generateStepSummary casing scan' = generateStepSummary casing scan ↔
      (scan'.lines casing).flatMap lineText = (scan.lines casing).flatMap lineText := by
  rw [generateStepSummary_of_sortable hsortable, generateStepSummary_of_sortable (Sortable.of_permuted h hsortable),
    summaryHead_congr h, h.errors, Option.some.injEq]
  refine document_eq_iff (List.cons_ne_nil _ _) ?_ ?_
  · exact endsPlain_lines (endsInBar_sortedRows _ _) (endsInBar_sortedRows _ _) (endsInBar_sortedRows _ _)
  · exact endsPlain_lines (endsInBar_sortedRows _ _) (endsInBar_sortedRows _ _) (endsInBar_sortedRows _ _)

theorem lines_text_of_orders (hsortable : scan.Sortable) (h : ∀ scan', Permuted scan scan' →
      generateStepSummary casing scan' = generateStepSummary casing scan)
    {first second : ScanResult} (hfirst : Permuted scan first) (hsecond : Permuted scan second) :
    (first.lines casing).flatMap lineText = (second.lines casing).flatMap lineText :=
  calc (first.lines casing).flatMap lineText
      = (scan.lines casing).flatMap lineText := (generateStepSummary_eq_iff hfirst hsortable).mp (h first hfirst)
    _ = (second.lines casing).flatMap lineText :=
        ((generateStepSummary_eq_iff hsecond hsortable).mp (h second hsecond)).symm

/-- Rows of each table that tie on its key commute. -/
structure ScanResult.RowsAlike (casing : Casing) (scan : ScanResult) : Prop where
  sast : ∀ f ∈ scan.activeSast, ∀ g ∈ scan.activeSast, f.summaryKey = g.summaryKey →
    RowsCommute (f.row casing) (g.row casing)
  sca : ∀ f ∈ scan.sca, ∀ g ∈ scan.sca, f.summaryKey = g.summaryKey → RowsCommute (f.row casing) (g.row casing)
  secrets : ∀ f ∈ scan.secrets, ∀ g ∈ scan.secrets, f.summaryKey = g.summaryKey →
    RowsCommute (f.row casing) (g.row casing)

theorem summary_congr (h : Permuted scan scan') (halike : scan.Sortable → scan.RowsAlike casing) :
    generateStepSummary casing scan' = generateStepSummary casing scan := by
  by_cases hsortable : scan.Sortable
  · have hsortable' := Sortable.of_permuted h hsortable
    have hrows := halike hsortable
    have hsast : (scan'.sastRows casing).flatMap lineText = (scan.sastRows casing).flatMap lineText :=
      (rowsText_congr h.activeSast_perm.symm hrows.sast).symm
    have hsca : (scan'.scaRows casing).flatMap lineText = (scan.scaRows casing).flatMap lineText :=
      (rowsText_congr h.sca_perm.symm hrows.sca).symm
    have hsecrets : (scan'.secretRows casing).flatMap lineText = (scan.secretRows casing).flatMap lineText :=
      (rowsText_congr h.secrets_perm.symm hrows.secrets).symm
    have ha : (scan'.sastRows casing).length = (scan.sastRows casing).length := by
      rw [ScanResult.sastRows, ScanResult.sastRows, length_sortedRows (Finding.key_isSome hsortable'),
        length_sortedRows (Finding.key_isSome hsortable), h.activeSast_perm.length_eq]
    have hb : (scan'.scaRows casing).length = (scan.scaRows casing).length := by
      rw [ScanResult.scaRows, ScanResult.scaRows, length_sortedRows (ScaFinding.key_isSome hsortable'),
        length_sortedRows (ScaFinding.key_isSome hsortable), h.sca_perm.length_eq]
    have hc : (scan'.secretRows casing).length = (scan.secretRows casing).length := by
      rw [ScanResult.secretRows, ScanResult.secretRows, length_sortedRows (SecretFinding.key_isSome hsortable'),
        length_sortedRows (SecretFinding.key_isSome hsortable), h.secrets_perm.length_eq]
    refine (generateStepSummary_eq_iff h hsortable).mpr ((findingLines_text ha hb hc).mpr ?_)
    rw [List.flatMap_append, List.flatMap_append, List.flatMap_append, List.flatMap_append, sastTable, sastTable,
      scaTable, scaTable, secretTable, secretTable, (findingsTable_text ha).mpr hsast,
      (findingsTable_text hb).mpr hsca, (findingsTable_text hc).mpr hsecrets]
  · have hnone : generateStepSummary casing scan = none := by
      rw [← Option.not_isSome_iff_eq_none, generateStepSummary_isSome]
      exact hsortable
    have hnone' : generateStepSummary casing scan' = none := by
      rw [← Option.not_isSome_iff_eq_none, generateStepSummary_isSome]
      exact fun h' => hsortable (Sortable.of_permuted h.symm h')
    rw [hnone, hnone']

end Summary

end TimeCodeSecurity.Ci
