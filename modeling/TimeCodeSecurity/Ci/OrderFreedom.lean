import TimeCodeSecurity.Ci.SummaryOrder

/-! # Output that does not depend on the order of the findings

Both outputs are the same for every order of the findings exactly when findings that tie on a sort key differ in
nothing that is written.
-/
namespace TimeCodeSecurity.Ci
open KeyedSort
set_option autoImplicit false

variable {casing : Casing} {scan : ScanResult}

/-- Annotations that tie on the sort key are written alike. -/
structure ScanResult.AnnotationsAlike (casing : Casing) (scan : ScanResult) : Prop where
  sast : ∀ f ∈ scan.activeSast, ∀ g ∈ scan.activeSast, f.sortKey = g.sortKey →
    severityLevel (f.sevText casing) = severityLevel (g.sevText casing) ∧ f.title casing = g.title casing ∧
      f.message = g.message
  sca : ∀ f ∈ scan.sca, ∀ g ∈ scan.sca, f.sortKey = g.sortKey →
    (f.annotationArgs casing).level = (g.annotationArgs casing).level ∧ f.title casing = g.title casing ∧
      f.message casing = g.message casing
  secrets : ∀ f ∈ scan.secrets, ∀ g ∈ scan.secrets, f.sortKey = g.sortKey →
    extractIntCoord f.columnEnd.get = extractIntCoord g.columnEnd.get ∧
      f.maskedValue.orText "********".toList = g.maskedValue.orText "********".toList

theorem length_swap {α κ : Type} [LinearOrder κ] {key : α → Option κ} {row : α → Text} {f g : α} {rest : List α}
    (h : ∀ x ∈ f :: g :: rest, (key x).isSome) :
    (sortedRows key row (f :: g :: rest)).length = (sortedRows key row (g :: f :: rest)).length := by
  have hswap : (g :: f :: rest).Perm (f :: g :: rest) := .swap f g rest
  rw [length_sortedRows h, length_sortedRows fun x hx => h x (hswap.mem_iff.mp hx)]
  rfl

theorem Finding.rowsCommute_of_orders (hsortable : scan.Sortable) {f g : Finding} (hf : f ∈ scan.activeSast)
    (hg : g ∈ scan.activeSast) (hkey : f.summaryKey = g.summaryKey) (h : ∀ scan', Permuted scan scan' →
      generateStepSummary casing scan' = generateStepSummary casing scan) :
    RowsCommute (f.row casing) (g.row casing) := by
  by_cases hne : f = g
  · rw [hne]
    rfl
  · have hmem : f ∈ scan.findings := List.mem_of_mem_filter hf
    obtain ⟨rest, hfirst, hsecond⟩ := exists_perm_cons_cons hmem (List.mem_of_mem_filter hg) hne
    let first : ScanResult := { scan with findings := f :: g :: rest }
    let second : ScanResult := { scan with findings := g :: f :: rest }
    have hlines := lines_text_of_orders hsortable h (permuted_findings hfirst) (permuted_findings hsecond)
    have hactive : first.activeSast = f :: g :: rest.filter fun f => !f.suppressed :=
      activeSast_cons_cons hf hg rest
    have hactive' : second.activeSast = g :: f :: rest.filter fun f => !f.suppressed :=
      activeSast_cons_cons hg hf rest
    have hsome := Finding.key_isSome (Sortable.of_permuted (permuted_findings hfirst) hsortable)
    have hlength : (first.sastRows casing).length = (second.sastRows casing).length := by
      rw [ScanResult.sastRows, ScanResult.sastRows, hactive, hactive']
      exact length_swap fun x hx => hsome x (hactive ▸ hx)
    have hrows := (findingLines_text_sast hlength).mp hlines
    rw [ScanResult.sastRows, ScanResult.sastRows, hactive, hactive'] at hrows
    exact rowsCommute_of_rowsText hkey (Finding.key_isSome hsortable f hf) hrows

theorem ScaFinding.rowsCommute_of_orders (hsortable : scan.Sortable) {f g : ScaFinding} (hf : f ∈ scan.sca)
    (hg : g ∈ scan.sca) (hkey : f.summaryKey = g.summaryKey) (h : ∀ scan', Permuted scan scan' →
      generateStepSummary casing scan' = generateStepSummary casing scan) :
    RowsCommute (f.row casing) (g.row casing) := by
  by_cases hne : f = g
  · rw [hne]
    rfl
  · have hsomeF := ScaFinding.key_isSome hsortable f hf
    obtain ⟨fs, hscan, hf⟩ := eq_some_of_mem_getD hf
    rw [ScanResult.sca, hscan] at hg
    obtain ⟨rest, hfirst, hsecond⟩ := exists_perm_cons_cons hf hg hne
    let first : ScanResult := { scan with scaFindings := some (f :: g :: rest) }
    let second : ScanResult := { scan with scaFindings := some (g :: f :: rest) }
    have hlines := lines_text_of_orders hsortable h (permuted_sca hscan hfirst) (permuted_sca hscan hsecond)
    have hsome := ScaFinding.key_isSome (Sortable.of_permuted (permuted_sca hscan hfirst) hsortable)
    have hlength : (first.scaRows casing).length = (second.scaRows casing).length := length_swap hsome
    exact rowsCommute_of_rowsText hkey hsomeF ((findingLines_text_sca hlength).mp hlines)

theorem SecretFinding.rowsCommute_of_orders (hsortable : scan.Sortable) {f g : SecretFinding}
    (hf : f ∈ scan.secrets) (hg : g ∈ scan.secrets) (hkey : f.summaryKey = g.summaryKey)
    (h : ∀ scan', Permuted scan scan' → generateStepSummary casing scan' = generateStepSummary casing scan) :
    RowsCommute (f.row casing) (g.row casing) := by
  by_cases hne : f = g
  · rw [hne]
    rfl
  · have hsomeF := SecretFinding.key_isSome hsortable f hf
    obtain ⟨fs, hscan, hf⟩ := eq_some_of_mem_getD hf
    rw [ScanResult.secrets, hscan] at hg
    obtain ⟨rest, hfirst, hsecond⟩ := exists_perm_cons_cons hf hg hne
    let first : ScanResult := { scan with secretFindings := some (f :: g :: rest) }
    let second : ScanResult := { scan with secretFindings := some (g :: f :: rest) }
    have hlines := lines_text_of_orders hsortable h (permuted_secrets hscan hfirst) (permuted_secrets hscan hsecond)
    have hsome := SecretFinding.key_isSome (Sortable.of_permuted (permuted_secrets hscan hfirst) hsortable)
    have hlength : (first.secretRows casing).length = (second.secretRows casing).length := length_swap hsome
    exact rowsCommute_of_rowsText hkey hsomeF ((findingLines_text_secrets hlength).mp hlines)

theorem annotations_order_free (h : scan.AnnotationsAlike casing) {scan' : ScanResult}
    (hperm : Permuted scan scan') : formatGithubAnnotations casing scan' = formatGithubAnnotations casing scan :=
  annotations_congr hperm <| ties_of_items
    (fun f hf g hg hkey => (Finding.text_eq_iff hkey).mpr (h.sast f hf g hg hkey))
    (fun f hf g hg hkey => (ScaFinding.text_eq_iff hkey).mpr (h.sca f hf g hg hkey))
    (fun f hf g hg hkey => (SecretFinding.text_eq_iff hkey).mpr (h.secrets f hf g hg hkey))

theorem annotationsAlike_of_order_free (h : ∀ scan', Permuted scan scan' →
    formatGithubAnnotations casing scan' = formatGithubAnnotations casing scan) : scan.AnnotationsAlike casing where
  sast _ hf _ hg hkey := (Finding.text_eq_iff hkey).mp (Finding.text_eq_of_orders hf hg hkey h)
  sca _ hf _ hg hkey := (ScaFinding.text_eq_iff hkey).mp (ScaFinding.text_eq_of_orders hf hg hkey h)
  secrets _ hf _ hg hkey := (SecretFinding.text_eq_iff hkey).mp (SecretFinding.text_eq_of_orders hf hg hkey h)

theorem rowsAlike_of_order_free (hsortable : scan.Sortable) (h : ∀ scan', Permuted scan scan' →
    generateStepSummary casing scan' = generateStepSummary casing scan) : scan.RowsAlike casing where
  sast _ hf _ hg hkey := Finding.rowsCommute_of_orders hsortable hf hg hkey h
  sca _ hf _ hg hkey := ScaFinding.rowsCommute_of_orders hsortable hf hg hkey h
  secrets _ hf _ hg hkey := SecretFinding.rowsCommute_of_orders hsortable hf hg hkey h

/-- No order of the findings changes an output exactly when ties are written alike. -/
theorem order_free_iff (casing : Casing) (scan : ScanResult) :
    (∀ scan', Permuted scan scan' →
      formatGithubAnnotations casing scan' = formatGithubAnnotations casing scan ∧
        generateStepSummary casing scan' = generateStepSummary casing scan) ↔
      scan.AnnotationsAlike casing ∧ (scan.Sortable → scan.RowsAlike casing) := by
  constructor
  · intro h
    exact ⟨annotationsAlike_of_order_free fun scan' hperm => (h scan' hperm).1,
      fun hsortable => rowsAlike_of_order_free hsortable fun scan' hperm => (h scan' hperm).2⟩
  · rintro ⟨hannotations, hrows⟩ scan' hperm
    exact ⟨annotations_order_free hannotations hperm, summary_congr hperm hrows⟩

def flowInto (sink : Text) : Finding where
  cwe := .value ['C']
  severity := .missing
  file := .value ['a']
  lineNumber := .value (.int 3)
  columnStart := .value (.int 5)
  category := .missing
  sinkSymbol := .value sink
  flowTraceSummary := .missing
  codeSnippet := .missing
  suppressed := false

def twoFlows : ScanResult where
  syntaxErrors := []
  findings := [flowInto ['f'], flowInto ['g']]
  scaFindings := none
  secretFindings := none

/-- The sinks are written in the order of the scan. -/
theorem flows_keep_order : ¬ ∀ scan', Permuted twoFlows scan' →
    formatGithubAnnotations asciiCasing scan' = formatGithubAnnotations asciiCasing twoFlows ∧
      generateStepSummary asciiCasing scan' = generateStepSummary asciiCasing twoFlows := by
  intro h
  have halike := annotationsAlike_of_order_free fun scan' hperm => (h scan' hperm).1
  have hmessage := (halike.sast (flowInto ['f']) (by simp [ScanResult.activeSast, twoFlows, flowInto])
    (flowInto ['g']) (by simp [ScanResult.activeSast, twoFlows, flowInto]) rfl).2.2
  have hcount := congrArg (List.count 'f') hmessage
  revert hcount
  decide

end TimeCodeSecurity.Ci
