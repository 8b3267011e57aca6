import TimeCodeSecurity.Sarif.Budget
import TimeCodeSecurity.Sarif.Export

/-! # Each result points at its own rule

The index of the driver's rules stays right while rules are added, so the position in a result is that of
its rule in the finished list; trimming drops results and snippets and touches no rule.
-/
namespace TimeCodeSecurity.Sarif
open Json Tables
set_option autoImplicit false

def RuleTable.Good (t : RuleTable) : Prop := Indexed DriverRule.id t.rules t.index

theorem RuleTable.known_iff {t : RuleTable} (h : t.Good) (id : String) :
    t.known id = true ↔ id ∈ t.rules.map DriverRule.id := by
  rw [RuleTable.known, Option.isSome_iff_exists]
  exact h.mem_iff id

theorem RuleTable.Good.append {t : RuleTable} (h : t.Good) {rule : DriverRule}
    (hnew : t.known rule.id = false) : (t.append rule).Good := by
  have hnone : t.index.lookup rule.id = none := by
    rw [RuleTable.known] at hnew
    exact Option.not_isSome_iff_eq_none.mp (by rw [hnew]; exact Bool.false_ne_true)
  exact Indexed.append h hnone

theorem RuleTable.prefix_append (t : RuleTable) (rule : DriverRule) :
    t.rules <+: (t.append rule).rules :=
  List.prefix_append _ _

/-- `r` names the rule with number `ruleIndex`. -/
def Points (rules : List DriverRule) (r : Json) : Prop :=
  ∃ (i : ℕ) (rule : DriverRule), r.field? "ruleIndex" = some (.int i) ∧ rules[i]? = some rule ∧
    ruleId r = some rule.id

theorem Points.mono {rules rules' : List DriverRule} (hle : rules <+: rules') {r : Json}
    (h : Points rules r) : Points rules' r := by
  obtain ⟨i, rule, hindex, hrow, hid⟩ := h
  exact ⟨i, rule, hindex, Indexed.row_of_prefix hle hrow, hid⟩

theorem points_of_known {t : RuleTable} (h : t.Good) {id level message : String} {physical : Json}
    {rest : JsonFields} (hknown : t.known id = true) :
    Points t.rules (.obj (resultHead id level message physical ++ (t.indexField id ++ rest))) := by
  obtain ⟨i, hi⟩ := Option.isSome_iff_exists.mp hknown
  obtain ⟨rule, hrow, hid⟩ := Option.map_eq_some_iff.mp ((h.lookup id i).mp hi)
  refine ⟨i, rule, ?_, hrow, ?_⟩
  · simp [field?, get?, resultHead, RuleTable.indexField, optField, hi]
  · rw [hid]
    simp [ruleId, field?, get?, resultHead, strOf?]

structure OwnKeys (rules : List (String × DriverRule)) : Prop where
  nodup : (rules.map Prod.fst).Nodup
  own : ∀ e ∈ rules, e.2.id = e.1

theorem OwnKeys.nil : OwnKeys [] := ⟨List.nodup_nil, fun _ he => by cases he⟩

theorem OwnKeys.setItem {rules : List (String × DriverRule)} (h : OwnKeys rules) {key : String}
    {rule : DriverRule} (hrule : rule.id = key) : OwnKeys (setItem rules key rule) where
  nodup := nodup_keys_setItem h.nodup key rule
  own := by
    intro e he
    rcases mem_setItem_iff.mp he with ⟨hk, ha⟩ | ⟨_, he⟩
    · rw [hk, ha, hrule]
    · exact h.own e he

theorem OwnKeys.setItems {rules : List (String × DriverRule)} (h : OwnKeys rules) (metadata : List DriverRule) :
    OwnKeys (setItems rules (metadata.map fun m => (m.id, m))) := by
  induction metadata generalizing rules with
  | nil => exact h
  | cons m ms ih => exact ih (h.setItem rfl)

theorem OwnKeys.addCatalogue {rules : List (String × DriverRule)} (h : OwnKeys rules)
    (catalogue : List CatalogueEntry) : OwnKeys (addCatalogue rules catalogue) := by
  induction catalogue generalizing rules with
  | nil => exact h
  | cons e es ih =>
    rw [Sarif.addCatalogue]
    split_ifs
    · exact ih h
    · exact h
    · exact ih (h.setItem rfl)

theorem OwnKeys.ids {rules : List (String × DriverRule)} (h : OwnKeys rules) :
    (rules.map Prod.snd).map DriverRule.id = rules.map Prod.fst := by
  rw [List.map_map]
  exact List.map_congr_left h.own

theorem nodup_getSupportedRules (registry : RuleRegistry) (catalogue : List CatalogueEntry)
    (enabled : Option (List String)) :
    ((getSupportedRules registry catalogue enabled).map DriverRule.id).Nodup := by
  have hall := (OwnKeys.nil.setItems (registry.filterMap fun r => r.2.sarifMetadata)).addCatalogue catalogue
  have hnodup := hall.nodup
  rw [← hall.ids] at hnodup
  unfold getSupportedRules
  cases enabled with
  | none => exact hnodup
  | some ids =>
    cases ids with
    | nil => exact hnodup
    | cons id ids => exact hnodup.sublist (List.filter_sublist.map _)

theorem good_initialTable (s : Setup) (scan : ScanResult) : (initialTable s scan).Good :=
  indexed_enumerated (nodup_getSupportedRules _ _ _)

/-! ## The three loops -/

theorem sastLoop_points (registry : RuleRegistry) (fs : List Finding) (t : RuleTable) (results : List Json)
    (h : t.Good) (hres : ∀ r ∈ results, Points t.rules r) :
    (sastLoop registry fs t results).1.Good ∧
      ∀ r ∈ (sastLoop registry fs t results).2, Points (sastLoop registry fs t results).1.rules r := by
  induction fs generalizing t results with
  | nil => exact ⟨h, hres⟩
  | cons f fs ih =>
    rw [sastLoop]
    -- the table in which the rule of `f` is known
    have hstep : ∃ t',
        (if t.known f.ruleId then t else t.append (fallbackRule (registry.lookup f.ruleId) f.ruleId)) = t' ∧
        t'.Good ∧ t.rules <+: t'.rules ∧ t'.known f.ruleId = true := by
      by_cases hknown : t.known f.ruleId = true
      · exact ⟨t, if_pos hknown, h, List.prefix_rfl, hknown⟩
      · have hnew : t.known (fallbackRule (registry.lookup f.ruleId) f.ruleId).id = false :=
          Bool.eq_false_iff.mpr hknown
        refine ⟨_, if_neg hknown, h.append hnew, t.prefix_append _, ?_⟩
        rw [RuleTable.known_iff (h.append hnew)]
        simp [RuleTable.append, fallbackRule]
    obtain ⟨t', heq, hgood, hle, hknown⟩ := hstep
    simp only [heq]
    refine ih t' _ hgood fun r hr => ?_
    rcases List.mem_append.mp hr with hr | hr
    · exact (hres r hr).mono hle
    · rw [List.mem_singleton.mp hr]
      exact points_of_known hgood hknown

theorem RuleTable.known_append (t : RuleTable) (h : t.Good) {rule : DriverRule}
    (hnew : t.known rule.id = false) (id : String) :
    (t.append rule).known id = true ↔ t.known id = true ∨ id = rule.id := by
  rw [RuleTable.known_iff (h.append hnew), RuleTable.known_iff h]
  simp [RuleTable.append]

theorem foldl_append_good (rules : List DriverRule) (t : RuleTable) (h : t.Good)
    (hnodup : (rules.map DriverRule.id).Nodup) (hnew : ∀ rule ∈ rules, t.known rule.id = false) :
    (rules.foldl RuleTable.append t).Good ∧ t.rules <+: (rules.foldl RuleTable.append t).rules ∧
      ∀ id, (rules.foldl RuleTable.append t).known id = true ↔
        t.known id = true ∨ id ∈ rules.map DriverRule.id := by
  induction rules generalizing t with
  | nil => exact ⟨h, List.prefix_rfl, fun id => by simp⟩
  | cons rule rules ih =>
    rw [List.map_cons, List.nodup_cons] at hnodup
    rw [List.forall_mem_cons] at hnew
    have hnext : ∀ r ∈ rules, (t.append rule).known r.id = false := by
      intro r hr
      rw [Bool.eq_false_iff, Ne, t.known_append h hnew.1]
      rintro (hk | hk)
      · rw [hnew.2 r hr] at hk
        cases hk
      · exact hnodup.1 (hk ▸ List.mem_map_of_mem hr)
    obtain ⟨hgood, hle, hknown⟩ := ih (t.append rule) (h.append hnew.1) hnodup.2 hnext
    refine ⟨hgood, (t.prefix_append rule).trans hle, fun id => ?_⟩
    rw [List.foldl_cons, hknown, t.known_append h hnew.1, List.map_cons, List.mem_cons, or_assoc]

theorem scaRulesToAdd_spec (t : RuleTable) (fs : List ScaFinding) (toAdd : List (String × DriverRule))
    (h : OwnKeys toAdd) (hnew : ∀ k ∈ toAdd.map Prod.fst, t.known k = false) :
    OwnKeys (scaRulesToAdd t fs toAdd) ∧ (∀ k ∈ (scaRulesToAdd t fs toAdd).map Prod.fst, t.known k = false) ∧
      (∀ k ∈ toAdd.map Prod.fst, k ∈ (scaRulesToAdd t fs toAdd).map Prod.fst) ∧
      ∀ f ∈ fs, t.known f.ruleId = true ∨ f.ruleId ∈ (scaRulesToAdd t fs toAdd).map Prod.fst := by
  induction fs generalizing toAdd with
  | nil => exact ⟨h, hnew, fun _ hk => hk, fun f hf => by cases hf⟩
  | cons f fs ih =>
    rw [scaRulesToAdd]
    split_ifs with hadd
    · have hkeys : (setItem toAdd f.ruleId (advisoryRule f)).map Prod.fst = toAdd.map Prod.fst ++ [f.ruleId] := by
        rw [keys_setItem, if_neg hadd.2]
      have hnew' : ∀ k ∈ (setItem toAdd f.ruleId (advisoryRule f)).map Prod.fst, t.known k = false := by
        intro k hk
        rw [hkeys, List.mem_append, List.mem_singleton] at hk
        rcases hk with hk | rfl
        · exact hnew k hk
        · simpa using hadd.1
      have hnext : OwnKeys (setItem toAdd f.ruleId (advisoryRule f)) := h.setItem rfl
      obtain ⟨hown, hunknown, hkept, hall⟩ := ih _ hnext hnew'
      refine ⟨hown, hunknown, fun k hk => hkept k ?_, ?_⟩
      · rw [hkeys]
        exact List.mem_append_left _ hk
      · rw [List.forall_mem_cons]
        refine ⟨.inr (hkept _ ?_), hall⟩
        rw [hkeys]
        exact List.mem_append_right _ (List.mem_singleton_self _)
    · obtain ⟨hown, hunknown, hkept, hall⟩ := ih toAdd h hnew
      refine ⟨hown, hunknown, hkept, ?_⟩
      rw [List.forall_mem_cons]
      refine ⟨?_, hall⟩
      by_cases hk : t.known f.ruleId = true
      · exact .inl hk
      · have hmem : f.ruleId ∈ toAdd.map Prod.fst := by
          by_contra hmem
          exact hadd ⟨by simpa using hk, hmem⟩
        exact .inr (hkept _ hmem)

theorem ids_sortedRules {toAdd : List (String × DriverRule)} (h : OwnKeys toAdd) :
    (sortedRules toAdd).map DriverRule.id = (toAdd.map Prod.fst).insertionSort (· ≤ ·) := by
  have hall : ∀ ids : List String, (∀ id ∈ ids, id ∈ toAdd.map Prod.fst) →
      (ids.filterMap fun id => List.lookup id toAdd).map DriverRule.id = ids := by
    intro ids hids
    induction ids with
    | nil => rfl
    | cons id ids ih =>
      rw [List.forall_mem_cons] at hids
      obtain ⟨⟨key, rule⟩, he, hkey⟩ := List.mem_map.mp hids.1
      have hown : rule.id = key := h.own _ he
      obtain rfl : rule.id = id := hown.trans hkey
      have hlookup : List.lookup rule.id toAdd = some rule := by
        rw [hown]
        exact lookup_of_mem h.nodup he
      simp only [List.filterMap_cons, hlookup, List.map_cons, ih hids.2]
  exact hall _ fun id hid => (List.mem_insertionSort _).mp hid

theorem withAdvisories_good (t : RuleTable) (fs : List ScaFinding) (h : t.Good) :
    (withAdvisories t fs).Good ∧ t.rules <+: (withAdvisories t fs).rules ∧
      ∀ f ∈ fs, (withAdvisories t fs).known f.ruleId = true := by
  obtain ⟨hown, hnew, _, hall⟩ := scaRulesToAdd_spec t fs [] OwnKeys.nil fun k hk => by cases hk
  have hids := ids_sortedRules hown
  have hperm : ((sortedRules (scaRulesToAdd t fs [])).map DriverRule.id).Perm
      ((scaRulesToAdd t fs []).map Prod.fst) := by
    rw [hids]
    exact List.perm_insertionSort _ _
  obtain ⟨hgood, hle, hknown⟩ := foldl_append_good (sortedRules (scaRulesToAdd t fs [])) t h
    (hperm.nodup_iff.mpr hown.nodup) fun rule hrule => hnew _ (hperm.mem_iff.mp (List.mem_map_of_mem hrule))
  refine ⟨hgood, hle, fun f hf => ?_⟩
  rw [withAdvisories, hknown, hperm.mem_iff]
  exact hall f hf

theorem withSecretRule_good (t : RuleTable) (fs : List SecretFinding) (h : t.Good) :
    (withSecretRule t fs).Good ∧ t.rules <+: (withSecretRule t fs).rules ∧
      (fs ≠ [] → (withSecretRule t fs).known "CWE-798" = true) := by
  by_cases hknown : t.known "CWE-798" = true
  · have hsame : withSecretRule t fs = t := by simp [withSecretRule, hknown]
    rw [hsame]
    exact ⟨h, List.prefix_rfl, fun _ => hknown⟩
  · have hnew : t.known cwe798Rule.id = false := Bool.eq_false_iff.mpr hknown
    cases fs with
    | nil => exact ⟨h, List.prefix_rfl, fun hne => absurd rfl hne⟩
    | cons f fs =>
      have hadd : withSecretRule t (f :: fs) = t.append cwe798Rule := by simp [withSecretRule, hknown]
      rw [hadd]
      refine ⟨h.append hnew, t.prefix_append _, fun _ => ?_⟩
      rw [t.known_append h hnew]
      exact .inr rfl

theorem exported_points (s : Setup) (scan : ScanResult) :
    (exported s scan).1.Good ∧ ∀ r ∈ (exported s scan).2, Points (exported s scan).1.rules r := by
  obtain ⟨hsast, hpoints⟩ := sastLoop_points s.registry scan.findings (initialTable s scan) []
    (good_initialTable s scan) fun r hr => by cases hr
  obtain ⟨hsca, hle, hscaKnown⟩ := withAdvisories_good _ scan.scaFindings hsast
  obtain ⟨hsecret, hle', hsecretKnown⟩ := withSecretRule_good _ scan.secretFindings hsca
  refine ⟨hsecret, fun r hr => ?_⟩
  rcases List.mem_append.mp hr with hr | hr
  · exact ((hpoints r hr).mono hle).mono hle'
  · rcases List.mem_append.mp hr with hr | hr
    · obtain ⟨f, hf, rfl⟩ := List.mem_map.mp hr
      exact (points_of_known hsca (hscaKnown f hf)).mono hle'
    · obtain ⟨f, hf, rfl⟩ := List.mem_map.mp hr
      exact points_of_known hsecret (hsecretKnown (List.ne_nil_of_mem hf))

def SarifRun.driverRules (run : SarifRun) : Option (List Json) :=
  match ((get? "tool" run.rest).bind (field? "driver")).bind (field? "rules") with
  | some (.arr rules) => some rules
  | _ => none

def driverRuleId (rule : Json) : Option String := (rule.field? "id").bind strOf?

/-- The rules of the driver have different ids, and each result has the number of the rule with its id. -/
def SarifRun.PointsAtOwnRules (run : SarifRun) : Prop :=
  ∃ rules, run.driverRules = some rules ∧ (rules.map driverRuleId).Nodup ∧
    ∀ r ∈ run.resultList, ∃ (i : ℕ) (rule : Json), r.field? "ruleIndex" = some (.int i) ∧
      rules[i]? = some rule ∧ (driverRuleId rule).isSome = true ∧ driverRuleId rule = ruleId r

theorem driverRuleId_toJson (rule : DriverRule) : driverRuleId rule.toJson = some rule.id := by
  simp [driverRuleId, DriverRule.toJson, field?, get?, strOf?]

theorem pointsAtOwnRules_exported (s : Setup) (scan : ScanResult) :
    ∀ run ∈ (sarifDocument s scan).runs, run.PointsAtOwnRules := by
  obtain ⟨hgood, hpoints⟩ := exported_points s scan
  intro run hrun
  rw [List.mem_singleton.mp hrun]
  refine ⟨(exported s scan).1.rules.map DriverRule.toJson, by
    simp [SarifRun.driverRules, toolField, get?, field?], ?_, fun r hr => ?_⟩
  · rw [List.map_map]
    have hids : driverRuleId ∘ DriverRule.toJson = some ∘ DriverRule.id := funext driverRuleId_toJson
    rw [hids, ← List.map_map]
    exact hgood.nodup.map (Option.some_injective _)
  · obtain ⟨i, rule, hindex, hrow, hid⟩ := hpoints r hr
    refine ⟨i, rule.toJson, hindex, ?_, ?_, ?_⟩
    · rw [List.getElem?_map, hrow, Option.map_some]
    · rw [driverRuleId_toJson, Option.isSome_some]
    · rw [driverRuleId_toJson, hid]

theorem SarifRun.PointsAtOwnRules.of_subset {run run' : SarifRun} (h : run.PointsAtOwnRules)
    (hrest : run'.rest = run.rest) (hresults : run'.resultList ⊆ run.resultList) :
    run'.PointsAtOwnRules := by
  obtain ⟨rules, hrules, hnodup, hpoints⟩ := h
  refine ⟨rules, ?_, hnodup, fun r hr => hpoints r (hresults hr)⟩
  rw [← hrules, SarifRun.driverRules, SarifRun.driverRules, hrest]

theorem get?_stripFields {key : String} (h : key ≠ "region") (fs : JsonFields) :
    get? key (stripFields fs) = (get? key fs).map stripSnippets := by
  induction fs with
  | nil => rw [stripFields]; rfl
  | cons f fs ih =>
    obtain ⟨k, v⟩ := f
    rw [stripFields]
    by_cases hk : k = key
    · have hplain : isRegionWithSnippet k v = false := by
        cases v <;> simp [isRegionWithSnippet, hk, h]
      rw [hplain, if_neg Bool.false_ne_true, hk]
      simp [get?]
    · simpa [get?, hk] using ih

theorem field?_stripSnippets {key : String} (h : key ≠ "region") (j : Json) :
    (stripSnippets j).field? key = (j.field? key).map stripSnippets := by
  cases j with
  | obj fs =>
    rw [stripSnippets]
    exact get?_stripFields h fs
  | null | bool _ | int _ | float _ | str _ | arr _ => rw [stripSnippets]; rfl

theorem strOf?_stripSnippets (j : Json) : strOf? (stripSnippets j) = strOf? j := by
  cases j <;> rw [stripSnippets] <;> rfl

theorem text_stripSnippets {key : String} (h : key ≠ "region") (j : Json) :
    ((stripSnippets j).field? key).bind strOf? = (j.field? key).bind strOf? := by
  rw [field?_stripSnippets h, Option.bind_map]
  congr 1
  exact funext strOf?_stripSnippets

theorem bind_field?_stripSnippets {key : String} (h : key ≠ "region") (o : Option Json) :
    (o.map stripSnippets).bind (field? key) = (o.bind (field? key)).map stripSnippets := by
  cases o with
  | none => rfl
  | some j => exact field?_stripSnippets h j

theorem driverRules_strip (run : SarifRun) :
    run.strip.driverRules = run.driverRules.map (·.map stripSnippets) := by
  have hrules : ((get? "tool" run.strip.rest).bind (field? "driver")).bind (field? "rules") =
      (((get? "tool" run.rest).bind (field? "driver")).bind (field? "rules")).map stripSnippets := by
    show ((get? "tool" (stripFields run.rest)).bind (field? "driver")).bind (field? "rules") = _
    rw [get?_stripFields (by decide), bind_field?_stripSnippets (by decide),
      bind_field?_stripSnippets (by decide)]
  rw [SarifRun.driverRules, SarifRun.driverRules, hrules]
  cases ((get? "tool" run.rest).bind (field? "driver")).bind (field? "rules") with
  | none => rfl
  | some j =>
    cases j with
    | arr rules =>
      rw [Option.map_some, stripSnippets, stripItems_eq_map]
      rfl
    | null | bool _ | int _ | float _ | str _ | obj _ => rw [Option.map_some, stripSnippets]; rfl

theorem resultList_strip (run : SarifRun) : run.strip.resultList = run.resultList.map stripSnippets := by
  obtain ⟨results, properties, invocations, rest⟩ := run
  cases results with
  | none => rfl
  | some rs => exact stripItems_eq_map rs

theorem SarifRun.PointsAtOwnRules.strip {run : SarifRun} (h : run.PointsAtOwnRules) :
    run.strip.PointsAtOwnRules := by
  obtain ⟨rules, hrules, hnodup, hpoints⟩ := h
  have hid : ∀ rule, driverRuleId (stripSnippets rule) = driverRuleId rule :=
    text_stripSnippets (by decide)
  refine ⟨rules.map stripSnippets, by rw [driverRules_strip, hrules, Option.map_some], ?_, fun r hr => ?_⟩
  · rw [List.map_map]
    have hsame : driverRuleId ∘ stripSnippets = driverRuleId := funext hid
    rwa [hsame]
  · rw [resultList_strip] at hr
    obtain ⟨r, hmem, rfl⟩ := List.mem_map.mp hr
    obtain ⟨i, rule, hindex, hrow, hsome, hrule⟩ := hpoints r hmem
    refine ⟨i, stripSnippets rule, ?_, ?_, ?_, ?_⟩
    · rw [field?_stripSnippets (by decide), hindex, Option.map_some, stripSnippets]
    · rw [List.getElem?_map, hrow, Option.map_some]
    · rwa [hid]
    · rw [hid, hrule]
      exact (text_stripSnippets (by decide) r).symm

/-! ### The stages -/

theorem rest_noteTruncation {run run' : SarifRun} {facts : List (String × ℕ)}
    (h : noteTruncation run facts = .ok run') : run'.rest = run.rest := by
  rw [noteTruncation] at h
  cases hinv : run.invocations.getD [emptyInvocation] with
  | nil =>
    rw [hinv] at h
    cases h
  | cons i more =>
    rw [hinv] at h
    cases h
    rfl

theorem capped_subset (maxResults : ℕ) (rs : List Json) : capped maxResults rs ⊆ rs := by
  rw [capped]
  split_ifs with h
  · exact fun r hr => (List.mem_insertionSort _).mp (List.mem_of_mem_take hr)
  · exact fun r hr => hr

theorem SarifRun.PointsAtOwnRules.prepareRun {maxResults : ℕ} {run run' : SarifRun}
    (h : run.PointsAtOwnRules) (hrun : Sarif.prepareRun maxResults run = .ok run') :
    run'.PointsAtOwnRules := by
  have hsubset : capped maxResults (dedupe [] run.resultList) ⊆ run.resultList := fun r hr =>
    (dedupe_sublist [] _).subset (capped_subset _ _ hr)
  refine h.of_subset ?_ ?_
  · obtain ⟨facts, ⟨_, heq⟩ | ⟨_, heq⟩⟩ := prepareRun_eq maxResults run
    · rw [heq] at hrun
      have hrest := rest_noteTruncation hrun
      exact hrest
    · rw [heq] at hrun
      cases hrun
      rfl
  · rw [SarifRun.resultList, (complete_prepareRun hrun).2.2]
    exact hsubset

theorem SarifRun.PointsAtOwnRules.shed {run : SarifRun} (h : run.PointsAtOwnRules) :
    run.shed.PointsAtOwnRules :=
  h.of_subset rfl fun _ hr => (List.mem_insertionSort _).mp (List.mem_of_mem_take hr)

theorem forall_shedAfter {P : SarifRun → Prop} (hP : ∀ run, P run → P run.shed) (n : ℕ) {doc : Document}
    (dropped : ℕ) (h : ∀ run ∈ doc.runs, P run) : ∀ run ∈ (shedAfter n doc dropped).1.runs, P run := by
  have hfirst : ∀ (k : ℕ) (runs : List SarifRun), (∀ run ∈ runs, P run) →
      ∀ run ∈ shedFirst k runs, P run := by
    intro k runs hruns
    induction runs with
    | nil => exact hruns
    | cons r runs ih =>
      rw [List.forall_mem_cons] at hruns
      rw [shedFirst]
      split_ifs with hr
      · rw [List.forall_mem_cons]
        exact ⟨hP r hruns.1, hruns.2⟩
      · rw [List.forall_mem_cons]
        exact ⟨hruns.1, ih hruns.2⟩
  induction n generalizing doc dropped with
  | zero => exact h
  | succ n ih => exact ih _ (hfirst _ _ h)

theorem noteShedding_runs {doc out : Document} {dropped : ℕ} (h : noteShedding doc dropped = .ok out) :
    List.Forall₂ (fun run run' => run'.rest = run.rest ∧ run'.results = run.results) doc.runs out.runs := by
  have hsame : ∀ runs : List SarifRun,
      List.Forall₂ (fun run run' => run'.rest = run.rest ∧ run'.results = run.results) runs runs :=
    fun runs => List.forall₂_same.mpr fun _ _ => ⟨rfl, rfl⟩
  obtain ⟨runs, rest⟩ := doc
  cases runs with
  | nil =>
    cases h
    exact .nil
  | cons run runs =>
    rw [noteShedding] at h
    by_cases hzero : dropped = 0
    · simp only [if_pos hzero] at h
      cases h
      exact hsame _
    · simp only [if_neg hzero] at h
      cases hnote : noteTruncation run [("sarif_results_dropped_for_size", dropped)] with
      | error e =>
        rw [hnote] at h
        cases h
      | ok run' =>
        rw [hnote] at h
        cases h
        exact .cons ⟨rest_noteTruncation hnote, (complete_noteTruncation hnote).2.2⟩ (hsame _)

theorem forall_of_forall₂ {α : Type} {R : α → α → Prop} {P : α → Prop}
    (hP : ∀ a b, R a b → P a → P b) {as bs : List α} (h : List.Forall₂ R as bs) (has : ∀ a ∈ as, P a) :
    ∀ b ∈ bs, P b := by
  induction h with
  | nil => exact has
  | cons hab _ ih =>
    rw [List.forall_mem_cons] at has ⊢
    exact ⟨hP _ _ hab has.1, ih has.2⟩

theorem boundSarifDocument_points {fuel maxBytes maxResults indent : ℕ} {doc out : Document}
    (h : boundSarifDocument fuel maxBytes maxResults indent doc = some (.ok out))
    (hdoc : ∀ run ∈ doc.runs, run.PointsAtOwnRules) : ∀ run ∈ out.runs, run.PointsAtOwnRules := by
  cases hprep : prepare maxResults doc with
  | error e =>
    rw [boundSarifDocument, hprep] at h
    cases h
  | ok d =>
    rw [boundSarifDocument_ok hprep] at h
    obtain ⟨s, hs, hout⟩ := Option.map_eq_some_iff.mp h
    have hprepared : ∀ run ∈ d.runs, run.PointsAtOwnRules :=
      forall_of_forall₂ (fun _ _ hrun hp => hp.prepareRun hrun) (prepare_ok hprep).1 hdoc
    have hstripped : ∀ run ∈ (stripped indent maxBytes d).runs, run.PointsAtOwnRules := by
      rw [stripped]
      split_ifs with hfit
      · rw [Document.strip, List.forall_mem_map]
        exact fun run hrun => (hprepared run hrun).strip
      · exact hprepared
    have hshed : ∀ run ∈ s.1.runs, run.PointsAtOwnRules := by
      rcases shedLoop_cases hs with ⟨_, rfl⟩ | ⟨n, rfl, _⟩
      · exact hstripped
      · exact forall_shedAfter (fun _ hp => hp.shed) n 0 hstripped
    refine forall_of_forall₂ (fun run run' hsame hp => ?_) (noteShedding_runs hout) hshed
    exact hp.of_subset hsame.1 (by rw [SarifRun.resultList, hsame.2]; exact fun _ hr => hr)

/-- In every document that the export of a scan returns the rules of the driver are different, and each
result, also after trimming, has the number of the rule with its id. -/
theorem results_point_at_own_rules (fuel : ℕ) (s : Setup) (scan : ScanResult) (out : Document)
    (h : toSarif fuel s scan = some (.ok out)) : ∀ run ∈ out.runs, run.PointsAtOwnRules :=
  boundSarifDocument_points h (pointsAtOwnRules_exported s scan)

def advisory (package : String) : ScaFinding :=
  { vulnerabilityId := "X", packageName := package, severity := "LOW", status := "FIXED", summary := ""
    aliases := [], installedVersion := none, requestedSpecifier := none, fixedVersion := none
    manifestSource := "r.txt", lineNumber := none, confidence := .null, matchedRange := ""
    cvssScore := .null }

def emptySetup : Setup := { registry := [], catalogue := [], enabledRuleIds := none }

def advisoryScan (packages : List String) : ScanResult :=
  { enabledRules := none, findings := [], scaFindings := packages.map advisory, secretFindings := []
    syntaxErrors := [], skippedFiles := [] }

/-- A document comes out for a scan with one advisory. -/
theorem results_point_at_own_rules_advisory :
    ∃ out, toSarif 1 emptySetup (advisoryScan ["p"]) = some (.ok out) ∧
      ∀ run ∈ out.runs, run.PointsAtOwnRules := by
  have hok : ((toSarif 1 emptySetup (advisoryScan ["p"])).any fun r => r.isOk) = true := by decide +kernel
  cases h : toSarif 1 emptySetup (advisoryScan ["p"]) with
  | none =>
    rw [h] at hok
    cases hok
  | some r =>
    cases r with
    | error e =>
      rw [h] at hok
      cases hok
    | ok out =>
      exact ⟨out, rfl, results_point_at_own_rules 1 emptySetup (advisoryScan ["p"]) out h⟩

end TimeCodeSecurity.Sarif
