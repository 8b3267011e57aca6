import TimeCodeSecurity.Ci.ScanResult
import TimeCodeSecurity.Foundations.KeyedSort

/-! # Annotations in any order of the findings

The annotations are sorted by a key that leaves out parts of what is written, so two findings that tie on it come in
the order of the scan.
-/
namespace TimeCodeSecurity.Ci
open KeyedSort
set_option autoImplicit false

variable {casing : Casing}

/-- The same scan with the findings of each engine in another order. -/
structure Permuted (scan scan' : ScanResult) : Prop where
  errors : scan'.syntaxErrors = scan.syntaxErrors
  findings : scan'.findings.Perm scan.findings
  sca : Option.Rel List.Perm scan'.scaFindings scan.scaFindings
  secrets : Option.Rel List.Perm scan'.secretFindings scan.secretFindings

theorem getD_perm {α : Type} {xs ys : Option (List α)} (h : Option.Rel List.Perm xs ys) :
    (xs.getD []).Perm (ys.getD []) := by
  cases h with
  | some h => exact h
  | none => exact .refl []

section Permuted
variable {scan scan' : ScanResult}

theorem Permuted.activeSast_perm (h : Permuted scan scan') : scan'.activeSast.Perm scan.activeSast :=
  h.findings.filter _

theorem Permuted.sca_perm (h : Permuted scan scan') : scan'.sca.Perm scan.sca := getD_perm h.sca

theorem Permuted.secrets_perm (h : Permuted scan scan') : scan'.secrets.Perm scan.secrets := getD_perm h.secrets

end Permuted

theorem rel_refl {α : Type} (xs : Option (List α)) : Option.Rel List.Perm xs xs := by
  cases xs with
  | none => exact .none
  | some xs => exact .some (.refl xs)

theorem rel_symm {α : Type} {xs ys : Option (List α)} (h : Option.Rel List.Perm xs ys) :
    Option.Rel List.Perm ys xs := by
  cases h with
  | some h => exact .some h.symm
  | none => exact .none

theorem Permuted.symm {scan scan' : ScanResult} (h : Permuted scan scan') : Permuted scan' scan :=
  ⟨h.errors.symm, h.findings.symm, rel_symm h.sca, rel_symm h.secrets⟩

variable (casing) in
def Finding.item (f : Finding) : SortKey × Text :=
  (f.sortKey, formatGithubAnnotation (f.annotationArgs casing))

variable (casing) in
def ScaFinding.item (f : ScaFinding) : SortKey × Text :=
  (f.sortKey, formatGithubAnnotation (f.annotationArgs casing))

variable (casing) in
def SecretFinding.item (f : SecretFinding) : SortKey × Text :=
  (f.sortKey, formatGithubAnnotation (f.annotationArgs casing))

def errorItem (err : Text) : SortKey × Text :=
  (errorSortKey err, formatGithubAnnotation (errorAnnotationArgs err))

variable (casing) in
def ScanResult.findingItems (scan : ScanResult) : List (SortKey × Text) :=
  scan.activeSast.map (·.item casing) ++ (scan.sca.map (·.item casing) ++ scan.secrets.map (·.item casing))

theorem formatGithubAnnotations_eq (scan : ScanResult) : formatGithubAnnotations casing scan =
    (sort Prod.fst (scan.syntaxErrors.map errorItem ++ scan.findingItems casing)).map Prod.snd := by
  simp only [formatGithubAnnotations, ScanResult.annotations, List.map_append, List.map_map, List.append_assoc]
  rfl

theorem sorted_texts_congr {before xs ys : List (SortKey × Text)} (hperm : xs.Perm ys)
    (hties : ∀ x ∈ xs, ∀ y ∈ xs, x.1 = y.1 → x.2 = y.2) :
    (sort Prod.fst (before ++ xs)).map Prod.snd = (sort Prod.fst (before ++ ys)).map Prod.snd := by
  rw [sort_append, sort_append]
  refine sort_congr Prod.fst hperm (fun l => (before.foldr (put Prod.fst) l).map Prod.snd) ?_
  intro x hx y hy hkey l l' hswap
  exact ((hswap.foldr_put hkey before).map Prod.snd).eq_iff.mpr (hties x hx y hy hkey)

theorem texts_of_orders {α : Type} (item : α → SortKey × Text) {before after : List (SortKey × Text)} {f g : α}
    {rest : List α} (hkey : (item f).1 = (item g).1)
    (h : (sort Prod.fst (before ++ ((f :: g :: rest).map item ++ after))).map Prod.snd =
      (sort Prod.fst (before ++ ((g :: f :: rest).map item ++ after))).map Prod.snd) : (item f).2 = (item g).2 :=
  ((sort_swapped Prod.fst hkey before (rest.map item ++ after)).map Prod.snd).eq_iff.mp h

theorem sortKey_inj {file file' : Text} {line line' col col' : Option ℤ} {engine engine' : ℕ} {rule rule' : Text} :
    sortKey file line col engine rule = sortKey file' line' col' engine' rule' ↔
      file = file' ∧ line.getD 0 = line'.getD 0 ∧ col.getD 0 = col'.getD 0 ∧ engine = engine' ∧ rule = rule' := by
  simp only [sortKey, EmbeddingLike.apply_eq_iff_eq, Prod.mk.injEq]

theorem engine_of_sortKey {file file' : Text} {line line' col col' : Option ℤ} {engine engine' : ℕ} {rule rule' : Text}
    (h : sortKey file line col engine rule = sortKey file' line' col' engine' rule') : engine = engine' :=
  (sortKey_inj.mp h).2.2.2.1

theorem extractIntCoord_inj {val val' : Option Number}
    (h : (extractIntCoord val).getD 0 = (extractIntCoord val').getD 0) :
    extractIntCoord val = extractIntCoord val' := by
  cases hval : extractIntCoord val with
  | none =>
    cases hval' : extractIntCoord val' with
    | none => rfl
    | some n' =>
      have hpos := extractIntCoord_pos hval'
      rw [hval, hval'] at h
      exact absurd h (ne_of_lt hpos)
  | some n =>
    cases hval' : extractIntCoord val' with
    | none =>
      have hpos := extractIntCoord_pos hval
      rw [hval, hval'] at h
      exact absurd h (ne_of_gt hpos)
    | some n' =>
      rw [hval, hval'] at h
      exact congrArg some h

theorem extractIntCoord_extract (val : Option Number) :
    extractIntCoord ((extractIntCoord val).map .int) = extractIntCoord val := by
  cases hval : extractIntCoord val with
  | none => rfl
  | some n =>
    have hpos := extractIntCoord_pos hval
    simp [extractIntCoord, Number.toInt?, hpos]

/-! ## What is written -/

theorem props_of_sent {a b : AnnotationArgs} (h : a.sent = b.sent) : a.props = b.props := by
  have hfile : normalizePath a.filePath = normalizePath b.filePath := congrArg Received.file h
  have hline : extractIntCoord a.line = extractIntCoord b.line := congrArg Received.line h
  have hcol : extractIntCoord a.col = extractIntCoord b.col := congrArg Received.col h
  have hendLine : extractIntCoord a.endLine = extractIntCoord b.endLine := congrArg Received.endLine h
  have hendCol : extractIntCoord a.endCol = extractIntCoord b.endCol := congrArg Received.endColumn h
  have htitle : a.title = b.title := congrArg Received.title h
  simp only [AnnotationArgs.props, coordProp, hfile, hline, hcol, hendLine, hendCol, htitle]

theorem format_eq_iff {a b : AnnotationArgs} :
    formatGithubAnnotation a = formatGithubAnnotation b ↔ a.sent = b.sent := by
  constructor
  · intro h
    have hreceive := receive_format a
    rw [h, receive_format b] at hreceive
    exact (Option.some.inj hreceive).symm
  · intro h
    have hlevel : commandLevel a.level = commandLevel b.level := congrArg Received.level h
    have hmessage : a.message = b.message := congrArg Received.message h
    rw [ formatGithubAnnotation, formatGithubAnnotation, hlevel, hmessage, props_of_sent h]

theorem commandLevel_severityLevel (sev : Text) : commandLevel (severityLevel sev) = severityLevel sev := by
  rw [severityLevel]
  split <;> decide

theorem Finding.text_eq_iff {f g : Finding} (h : f.sortKey = g.sortKey) :
    (f.item casing).2 = (g.item casing).2 ↔
      severityLevel (f.sevText casing) = severityLevel (g.sevText casing) ∧ f.title casing = g.title casing ∧
        f.message = g.message := by
  obtain ⟨hfile, hline, hcol, -, -⟩ := sortKey_inj.mp h
  show formatGithubAnnotation _ = formatGithubAnnotation _ ↔ _
  rw [format_eq_iff]
  simp only [AnnotationArgs.sent, Finding.annotationArgs, commandLevel_severityLevel, extractIntCoord_extract, hfile,
    extractIntCoord_inj hline, extractIntCoord_inj hcol, Received.mk.injEq, true_and]

theorem ScaFinding.level_eq (f : ScaFinding) :
    commandLevel (f.annotationArgs casing).level = (f.annotationArgs casing).level := by
  rw [ScaFinding.annotationArgs]
  show commandLevel (if _ then _ else _) = if _ then _ else _
  split
  · decide
  · exact commandLevel_severityLevel _

theorem ScaFinding.text_eq_iff {f g : ScaFinding} (h : f.sortKey = g.sortKey) :
    (f.item casing).2 = (g.item casing).2 ↔
      (f.annotationArgs casing).level = (g.annotationArgs casing).level ∧ f.title casing = g.title casing ∧
        f.message casing = g.message casing := by
  obtain ⟨hfile, hline, -, -, -⟩ := sortKey_inj.mp h
  show formatGithubAnnotation _ = formatGithubAnnotation _ ↔ _
  rw [format_eq_iff]
  simp only [AnnotationArgs.sent, ScaFinding.level_eq]
  simp only [ScaFinding.annotationArgs, extractIntCoord_extract, hfile, extractIntCoord_inj hline, Received.mk.injEq,
    true_and]

theorem SecretFinding.label_eq {f g : SecretFinding} (h : f.secType = g.secType) :
    f.label casing = g.label casing := by
  rw [SecretFinding.label, SecretFinding.label, h]

theorem SecretFinding.text_eq_iff {f g : SecretFinding} (h : f.sortKey = g.sortKey) :
    (f.item casing).2 = (g.item casing).2 ↔
      extractIntCoord f.columnEnd.get = extractIntCoord g.columnEnd.get ∧
        f.maskedValue.orText "********".toList = g.maskedValue.orText "********".toList := by
  obtain ⟨hfile, hline, hcol, -, htype⟩ := sortKey_inj.mp h
  show formatGithubAnnotation _ = formatGithubAnnotation _ ↔ _
  rw [format_eq_iff]
  simp only [AnnotationArgs.sent, SecretFinding.annotationArgs, extractIntCoord_extract, hfile,
    extractIntCoord_inj hline, extractIntCoord_inj hcol, SecretFinding.label_eq htype, Received.mk.injEq,
    List.append_cancel_left_eq, true_and]

theorem engine_of_item {scan : ScanResult} {x : SortKey × Text} (h : x ∈ scan.findingItems casing) :
    (∃ f ∈ scan.activeSast, f.item casing = x) ∨ (∃ f ∈ scan.sca, f.item casing = x) ∨
      ∃ f ∈ scan.secrets, f.item casing = x := by
  simpa [ScanResult.findingItems] using h

theorem ties_of_items {scan : ScanResult}
    (hsast : ∀ f ∈ scan.activeSast, ∀ g ∈ scan.activeSast, f.sortKey = g.sortKey →
      (f.item casing).2 = (g.item casing).2)
    (hsca : ∀ f ∈ scan.sca, ∀ g ∈ scan.sca, f.sortKey = g.sortKey → (f.item casing).2 = (g.item casing).2)
    (hsecrets : ∀ f ∈ scan.secrets, ∀ g ∈ scan.secrets, f.sortKey = g.sortKey →
      (f.item casing).2 = (g.item casing).2) :
    ∀ x ∈ scan.findingItems casing, ∀ y ∈ scan.findingItems casing, x.1 = y.1 → x.2 = y.2 := by
  intro x hx y hy hkey
  rcases engine_of_item hx with ⟨f, hf, rfl⟩ | ⟨f, hf, rfl⟩ | ⟨f, hf, rfl⟩
  · rcases engine_of_item hy with ⟨g, hg, rfl⟩ | ⟨g, -, rfl⟩ | ⟨g, -, rfl⟩
    · exact hsast f hf g hg hkey
    · exact absurd (engine_of_sortKey hkey) (by decide)
    · exact absurd (engine_of_sortKey hkey) (by decide)
  · rcases engine_of_item hy with ⟨g, -, rfl⟩ | ⟨g, hg, rfl⟩ | ⟨g, -, rfl⟩
    · exact absurd (engine_of_sortKey hkey) (by decide)
    · exact hsca f hf g hg hkey
    · exact absurd (engine_of_sortKey hkey) (by decide)
  · rcases engine_of_item hy with ⟨g, -, rfl⟩ | ⟨g, -, rfl⟩ | ⟨g, hg, rfl⟩
    · exact absurd (engine_of_sortKey hkey) (by decide)
    · exact absurd (engine_of_sortKey hkey) (by decide)
    · exact hsecrets f hf g hg hkey

theorem Permuted.findingItems_perm {scan scan' : ScanResult} (h : Permuted scan scan') :
    (scan.findingItems casing).Perm (scan'.findingItems casing) :=
  ((h.activeSast_perm.map _).append ((h.sca_perm.map _).append (h.secrets_perm.map _))).symm

theorem annotations_congr {scan scan' : ScanResult} (h : Permuted scan scan')
    (hties : ∀ x ∈ scan.findingItems casing, ∀ y ∈ scan.findingItems casing, x.1 = y.1 → x.2 = y.2) :
    formatGithubAnnotations casing scan' = formatGithubAnnotations casing scan := by
  rw [formatGithubAnnotations_eq, formatGithubAnnotations_eq, h.errors]
  exact (sorted_texts_congr h.findingItems_perm hties).symm

section Orders
variable {scan : ScanResult}

theorem permuted_findings {fs : List Finding} (h : scan.findings.Perm fs) :
    Permuted scan { scan with findings := fs } := ⟨rfl, h.symm, rel_refl _, rel_refl _⟩

theorem permuted_sca {fs gs : List ScaFinding} (hscan : scan.scaFindings = some fs) (h : fs.Perm gs) :
    Permuted scan { scan with scaFindings := some gs } := by
  refine ⟨rfl, .refl _, ?_, rel_refl _⟩
  rw [hscan]
  exact .some h.symm

theorem permuted_secrets {fs gs : List SecretFinding} (hscan : scan.secretFindings = some fs) (h : fs.Perm gs) :
    Permuted scan { scan with secretFindings := some gs } := by
  refine ⟨rfl, .refl _, rel_refl _, ?_⟩
  rw [hscan]
  exact .some h.symm

theorem activeSast_cons_cons {f g : Finding} (hf : f ∈ scan.activeSast) (hg : g ∈ scan.activeSast)
    (rest : List Finding) : ({ scan with findings := f :: g :: rest } : ScanResult).activeSast =
      f :: g :: rest.filter fun f => !f.suppressed := by
  have hkept : ∀ {f}, f ∈ scan.activeSast → (!f.suppressed) = true := fun h => (List.mem_filter.mp h).2
  show (f :: g :: rest).filter (fun f => !f.suppressed) = _
  rw [List.filter_cons, if_pos (hkept hf), List.filter_cons, if_pos (hkept hg)]

theorem eq_some_of_mem_getD {α : Type} {x : α} {xs : Option (List α)} (h : x ∈ xs.getD []) :
    ∃ fs, xs = some fs ∧ x ∈ fs := by
  cases xs with
  | none => cases h
  | some fs => exact ⟨fs, rfl, h⟩

theorem Finding.text_eq_of_orders {f g : Finding} (hf : f ∈ scan.activeSast) (hg : g ∈ scan.activeSast)
    (hkey : f.sortKey = g.sortKey) (h : ∀ scan', Permuted scan scan' →
      formatGithubAnnotations casing scan' = formatGithubAnnotations casing scan) :
    (f.item casing).2 = (g.item casing).2 := by
  by_cases hne : f = g
  · rw [hne]
  · have hmem : f ∈ scan.findings := List.mem_of_mem_filter hf
    obtain ⟨rest, hfirst, hsecond⟩ := exists_perm_cons_cons hmem (List.mem_of_mem_filter hg) hne
    have hsame := (h _ (permuted_findings hfirst)).trans (h _ (permuted_findings hsecond)).symm
    rw [formatGithubAnnotations_eq, formatGithubAnnotations_eq, ScanResult.findingItems, ScanResult.findingItems,
      activeSast_cons_cons hf hg, activeSast_cons_cons hg hf] at hsame
    exact texts_of_orders (Finding.item casing) hkey hsame

theorem annotations_of_sca (fs : List ScaFinding) :
    formatGithubAnnotations casing { scan with scaFindings := some fs } =
      (sort Prod.fst ((scan.syntaxErrors.map errorItem ++ scan.activeSast.map (·.item casing)) ++
        (fs.map (ScaFinding.item casing) ++ scan.secrets.map (·.item casing)))).map Prod.snd := by
  rw [formatGithubAnnotations_eq, List.append_assoc]
  rfl

theorem annotations_of_secrets (fs : List SecretFinding) :
    formatGithubAnnotations casing { scan with secretFindings := some fs } =
      (sort Prod.fst ((scan.syntaxErrors.map errorItem ++
        (scan.activeSast.map (·.item casing) ++ scan.sca.map (·.item casing))) ++
          (fs.map (SecretFinding.item casing) ++ []))).map Prod.snd := by
  rw [formatGithubAnnotations_eq, List.append_nil, List.append_assoc, List.append_assoc]
  rfl

theorem ScaFinding.text_eq_of_orders {f g : ScaFinding} (hf : f ∈ scan.sca) (hg : g ∈ scan.sca)
    (hkey : f.sortKey = g.sortKey) (h : ∀ scan', Permuted scan scan' →
      formatGithubAnnotations casing scan' = formatGithubAnnotations casing scan) :
    (f.item casing).2 = (g.item casing).2 := by
  by_cases hne : f = g
  · rw [hne]
  · obtain ⟨fs, hscan, hf⟩ := eq_some_of_mem_getD hf
    rw [ScanResult.sca, hscan] at hg
    obtain ⟨rest, hfirst, hsecond⟩ := exists_perm_cons_cons hf hg hne
    have hsame := (h _ (permuted_sca hscan hfirst)).trans (h _ (permuted_sca hscan hsecond)).symm
    rw [annotations_of_sca, annotations_of_sca] at hsame
    exact texts_of_orders (ScaFinding.item casing) hkey hsame

theorem SecretFinding.text_eq_of_orders {f g : SecretFinding} (hf : f ∈ scan.secrets) (hg : g ∈ scan.secrets)
    (hkey : f.sortKey = g.sortKey) (h : ∀ scan', Permuted scan scan' →
      formatGithubAnnotations casing scan' = formatGithubAnnotations casing scan) :
    (f.item casing).2 = (g.item casing).2 := by
  by_cases hne : f = g
  · rw [hne]
  · obtain ⟨fs, hscan, hf⟩ := eq_some_of_mem_getD hf
    rw [ScanResult.secrets, hscan] at hg
    obtain ⟨rest, hfirst, hsecond⟩ := exists_perm_cons_cons hf hg hne
    have hsame := (h _ (permuted_secrets hscan hfirst)).trans (h _ (permuted_secrets hscan hsecond)).symm
    rw [annotations_of_secrets, annotations_of_secrets] at hsame
    exact texts_of_orders (SecretFinding.item casing) hkey hsame

end Orders

end TimeCodeSecurity.Ci
