import TimeCodeSecurity.Sarif.RuleIndex

/-! # What the export loses

Two results are the same alert when they agree in rule, file, line, column, message and suppression. Repeated
results are told by rule, file and line alone, so the first of several alerts on one line stands for all of
them, and the ranking only sees the alerts that are left.
-/
namespace TimeCodeSecurity.Sarif
open Json
set_option autoImplicit false

def startColumn (r : Json) : Option ℤ :=
  (((physicalLocation r).field? "region").bind (field? "startColumn")).bind intOf?

def messageText (r : Json) : Option String := ((r.field? "message").bind (field? "text")).bind strOf?

def isSuppressed (r : Json) : Bool := (r.field? "suppressions").isSome

def alert (r : Json) : (Option String × String × ℤ) × Option ℤ × Option String × Bool :=
  (resultIdentity r, startColumn r, messageText r, isSuppressed r)

/-- Results with one rule, file and line are one alert. -/
def IdentityTellsAlert (results : List Json) : Prop :=
  ∀ r ∈ results, ∀ r' ∈ results, resultIdentity r = resultIdentity r' → alert r = alert r'

/-- Results with one rule, file and line have one level. -/
def IdentityTellsLevel (results : List Json) : Prop :=
  ∀ r ∈ results, ∀ r' ∈ results, resultIdentity r = resultIdentity r' → levelRank r = levelRank r'

def Represented (results kept : List Json) : Prop := ∀ r ∈ results, ∃ k ∈ kept, alert k = alert r

instance (results kept : List Json) : Decidable (Represented results kept) :=
  inferInstanceAs (Decidable (∀ r ∈ results, ∃ k ∈ kept, alert k = alert r))

def WorstFirst (results kept : List Json) : Prop :=
  ∀ r ∈ results, (∃ k ∈ kept, alert k = alert r) ∨ ∀ k ∈ kept, NotAfter k r

theorem exists_mem_dedupe {seen : List (Option String × String × ℤ)} {rs : List Json} {r : Json}
    (hr : r ∈ rs) (hseen : resultIdentity r ∉ seen) :
    ∃ k ∈ dedupe seen rs, resultIdentity k = resultIdentity r := by
  induction rs generalizing seen with
  | nil => cases hr
  | cons x rs ih =>
    rw [dedupe]
    split_ifs with hx
    · have hr : r ∈ rs := (List.mem_cons.mp hr).resolve_left fun heq => hseen (heq ▸ hx)
      exact ih hr hseen
    · by_cases hsame : resultIdentity x = resultIdentity r
      · exact ⟨x, List.mem_cons_self, hsame⟩
      · have hr : r ∈ rs := (List.mem_cons.mp hr).resolve_left fun heq => hsame (by rw [heq])
        have hseen : resultIdentity r ∉ resultIdentity x :: seen := by
          rw [List.mem_cons]
          exact not_or.mpr ⟨Ne.symm hsame, hseen⟩
        obtain ⟨k, hk, heq⟩ := ih hr hseen
        exact ⟨k, List.mem_cons_of_mem _ hk, heq⟩

theorem nodup_dedupe (seen : List (Option String × String × ℤ)) (rs : List Json) :
    ((dedupe seen rs).map resultIdentity).Nodup ∧ ∀ r ∈ dedupe seen rs, resultIdentity r ∉ seen := by
  induction rs generalizing seen with
  | nil => exact ⟨List.nodup_nil, fun r hr => by cases hr⟩
  | cons x rs ih =>
    rw [dedupe]
    split_ifs with hx
    · exact ih seen
    · obtain ⟨hnodup, hfresh⟩ := ih (resultIdentity x :: seen)
      rw [List.map_cons, List.nodup_cons, List.forall_mem_cons]
      refine ⟨⟨fun hmem => ?_, hnodup⟩, hx, fun r hr hseen => ?_⟩
      · obtain ⟨r, hr, heq⟩ := List.mem_map.mp hmem
        exact hfresh r hr (heq ▸ List.mem_cons_self)
      · exact hfresh r hr (List.mem_cons_of_mem _ hseen)

theorem represented_dedupe_iff (rs : List Json) :
    Represented rs (dedupe [] rs) ↔ IdentityTellsAlert rs := by
  constructor
  · intro h r hr r' hr' hsame
    obtain ⟨k, hk, heq⟩ := h r hr
    obtain ⟨k', hk', heq'⟩ := h r' hr'
    have hidentity : resultIdentity k = resultIdentity k' :=
      (congrArg Prod.fst heq).trans (hsame.trans (congrArg Prod.fst heq').symm)
    have hone : k = k' := List.inj_on_of_nodup_map (nodup_dedupe [] rs).1 hk hk' hidentity
    rw [← heq, ← heq', hone]
  · intro h r hr
    obtain ⟨k, hk, heq⟩ := exists_mem_dedupe hr List.not_mem_nil
    exact ⟨k, hk, h k ((dedupe_sublist [] rs).subset hk) r hr heq⟩

structure Sheds (results kept : List Json) : Prop where
  from_results : ∀ k ∈ kept, ∃ r ∈ results, resultPriority r = resultPriority k
  worst : ∀ r ∈ results, (∃ k ∈ kept, alert k = alert r ∧ resultPriority k = resultPriority r) ∨
    ∀ k ∈ kept, NotAfter k r

theorem notAfter_congr {a a' b b' : Json} (ha : resultPriority a = resultPriority a')
    (hb : resultPriority b = resultPriority b') (h : NotAfter a b) : NotAfter a' b' := by
  have haLevel : levelRank a = levelRank a' := congrArg Prod.fst ha
  have haTier : specificityTier a = specificityTier a' := congrArg Prod.snd ha
  have hbLevel : levelRank b = levelRank b' := congrArg Prod.fst hb
  have hbTier : specificityTier b = specificityTier b' := congrArg Prod.snd hb
  rw [NotAfter, haLevel, haTier, hbLevel, hbTier] at h
  exact h

theorem Sheds.refl (rs : List Json) : Sheds rs rs where
  from_results := fun k hk => ⟨k, hk, rfl⟩
  worst := fun r hr => .inl ⟨r, hr, rfl, rfl⟩

theorem Sheds.trans {rs ks ls : List Json} (h : Sheds rs ks) (h' : Sheds ks ls) : Sheds rs ls where
  from_results := by
    intro l hl
    obtain ⟨k, hk, hkl⟩ := h'.from_results l hl
    obtain ⟨r, hr, hrk⟩ := h.from_results k hk
    exact ⟨r, hr, hrk.trans hkl⟩
  worst := by
    intro r hr
    rcases h.worst r hr with ⟨k, hk, halert, hpriority⟩ | hafter
    · rcases h'.worst k hk with ⟨l, hl, halert', hpriority'⟩ | hafter
      · exact .inl ⟨l, hl, halert'.trans halert, hpriority'.trans hpriority⟩
      · exact .inr fun l hl => notAfter_congr rfl hpriority (hafter l hl)
    · refine .inr fun l hl => ?_
      obtain ⟨k, hk, hkl⟩ := h'.from_results l hl
      exact notAfter_congr hkl rfl (hafter k hk)

theorem Sheds.worstFirst {rs ks : List Json} (h : Sheds rs ks) : WorstFirst rs ks := by
  intro r hr
  refine (h.worst r hr).imp_left fun hkept => ?_
  obtain ⟨k, hk, halert, _⟩ := hkept
  exact ⟨k, hk, halert⟩

theorem sheds_dedupe {rs : List Json} (halert : IdentityTellsAlert rs) (hlevel : IdentityTellsLevel rs) :
    Sheds rs (dedupe [] rs) where
  from_results := fun k hk => ⟨k, (dedupe_sublist [] rs).subset hk, rfl⟩
  worst := by
    intro r hr
    obtain ⟨k, hk, heq⟩ := exists_mem_dedupe hr List.not_mem_nil
    have hmem : k ∈ rs := (dedupe_sublist [] rs).subset hk
    have hrule : ruleId k = ruleId r := congrArg Prod.fst heq
    refine .inl ⟨k, hk, halert k hmem r hr heq, ?_⟩
    rw [resultPriority, resultPriority, hlevel k hmem r hr heq, specificityTier, specificityTier, hrule]

theorem sheds_ranked_take (n : ℕ) (rs : List Json) : Sheds rs ((ranked rs).take n) where
  from_results := fun k hk => ⟨k, (List.mem_insertionSort _).mp (List.mem_of_mem_take hk), rfl⟩
  worst := by
    intro r hr
    have hmem : r ∈ (ranked rs).take n ++ (ranked rs).drop n := by
      rw [List.take_append_drop]
      exact (List.mem_insertionSort _).mpr hr
    rcases List.mem_append.mp hmem with htake | hdrop
    · exact .inl ⟨r, htake, rfl, rfl⟩
    · have hsorted := ranked_pairwise rs
      rw [← List.take_append_drop n (ranked rs), List.pairwise_append] at hsorted
      exact .inr fun k hk => hsorted.2.2 k hk r hdrop

theorem sheds_capped (maxResults : ℕ) (rs : List Json) : Sheds rs (capped maxResults rs) := by
  rw [capped]
  split_ifs with h
  · exact sheds_ranked_take maxResults rs
  · exact Sheds.refl rs

/-! ### Snippets -/

theorem intOf?_stripSnippets (j : Json) : intOf? (stripSnippets j) = intOf? j := by
  cases j <;> rw [stripSnippets] <;> rfl

theorem physicalLocation_stripSnippets (r : Json) :
    physicalLocation (stripSnippets r) = stripSnippets (physicalLocation r) := by
  have hempty : stripSnippets (.obj []) = .obj [] := by rw [stripSnippets, stripFields]
  rw [physicalLocation, physicalLocation, field?_stripSnippets (by decide)]
  cases r.field? "locations" with
  | none => exact hempty.symm
  | some j =>
    cases j with
    | arr items =>
      cases items with
      | nil => exact hempty.symm
      | cons item items =>
        rw [Option.map_some, stripSnippets, stripItems]
        cases item with
        | obj fs =>
          rw [stripSnippets]
          show (get? "physicalLocation" (stripFields fs)).getD (.obj []) =
            stripSnippets ((get? "physicalLocation" fs).getD (.obj []))
          rw [get?_stripFields (by decide)]
          cases get? "physicalLocation" fs with
          | none => exact hempty.symm
          | some j => rfl
        | null | bool _ | int _ | float _ | str _ | arr _ =>
          rw [stripSnippets]
          exact hempty.symm
    | null | bool _ | int _ | float _ | str _ | obj _ =>
      rw [Option.map_some, stripSnippets]
      exact hempty.symm

theorem get?_filter {key dropped : String} (h : key ≠ dropped) (fs : JsonFields) :
    get? key (fs.filter (·.1 ≠ dropped)) = get? key fs := by
  induction fs with
  | nil => rfl
  | cons f fs ih =>
    rw [List.filter_cons]
    by_cases hdropped : f.1 = dropped
    · have hkey : f.1 ≠ key := fun heq => h (heq ▸ hdropped)
      rw [if_neg (by simp [hdropped]), ih]
      simp [get?, hkey]
    · rw [if_pos (by simp [hdropped])]
      by_cases hkey : f.1 = key
      · simp [get?, hkey]
      · simpa [get?, hkey] using ih

theorem region_stripSnippets {key : String} (hsnippet : key ≠ "snippet") (hregion : key ≠ "region") (j : Json) :
    (((stripSnippets j).field? "region").bind (field? key)).bind intOf? =
      ((j.field? "region").bind (field? key)).bind intOf? := by
  have hvalue : ∀ v, (field? key (if isRegionWithSnippet "region" v then popSnippet v
      else stripSnippets v)).bind intOf? = (field? key v).bind intOf? := by
    intro v
    split_ifs with hpop
    · cases v with
      | obj fs =>
        show (get? key (fs.filter (·.1 ≠ "snippet"))).bind intOf? = _
        rw [get?_filter hsnippet]
        rfl
      | null | bool _ | int _ | float _ | str _ | arr _ => rfl
    · rw [field?_stripSnippets hregion, Option.bind_map]
      congr 1
      exact funext intOf?_stripSnippets
  have hfields : ∀ fs : JsonFields, get? "region" (stripFields fs) = (get? "region" fs).map fun v =>
      if isRegionWithSnippet "region" v then popSnippet v else stripSnippets v := by
    intro fs
    induction fs with
    | nil => rw [stripFields]; rfl
    | cons f fs ih =>
      obtain ⟨k, v⟩ := f
      rw [stripFields]
      by_cases hk : k = "region"
      · simp [get?, hk]
      · simpa [get?, hk] using ih
  cases j with
  | obj fs =>
    rw [stripSnippets]
    show ((get? "region" (stripFields fs)).bind (field? key)).bind intOf? =
      ((get? "region" fs).bind (field? key)).bind intOf?
    rw [hfields]
    cases get? "region" fs with
    | none => rfl
    | some v => exact hvalue v
  | arr _ => rw [stripSnippets]; rfl
  | null | bool _ | int _ | float _ | str _ => rw [stripSnippets]

theorem ruleId_stripSnippets (r : Json) : ruleId (stripSnippets r) = ruleId r :=
  text_stripSnippets (by decide) r

theorem alert_stripSnippets (r : Json) : alert (stripSnippets r) = alert r := by
  have huri : uri (stripSnippets r) = uri r := by
    rw [uri, uri, physicalLocation_stripSnippets, field?_stripSnippets (by decide),
      bind_field?_stripSnippets (by decide), Option.bind_map]
    congr 2
    exact funext strOf?_stripSnippets
  have hmessage : messageText (stripSnippets r) = messageText r := by
    rw [messageText, messageText, field?_stripSnippets (by decide), bind_field?_stripSnippets (by decide),
      Option.bind_map]
    congr 1
    exact funext strOf?_stripSnippets
  have hsuppressed : isSuppressed (stripSnippets r) = isSuppressed r := by
    rw [isSuppressed, isSuppressed, field?_stripSnippets (by decide), Option.isSome_map]
  have hline : startLine (stripSnippets r) = startLine r := by
    rw [startLine, startLine, physicalLocation_stripSnippets, region_stripSnippets (by decide) (by decide)]
  have hcolumn : startColumn (stripSnippets r) = startColumn r := by
    rw [startColumn, startColumn, physicalLocation_stripSnippets, region_stripSnippets (by decide) (by decide)]
  rw [alert, alert, resultIdentity, resultIdentity, ruleId_stripSnippets, huri, hline, hcolumn, hmessage,
    hsuppressed]

theorem levelText_stripSnippets (r : Json) : levelText (stripSnippets r) = levelText r := by
  rw [levelText, levelText, field?_stripSnippets (by decide)]
  cases r.field? "level" with
  | none => rfl
  | some j => cases j <;> rw [Option.map_some, stripSnippets]

theorem priority_stripSnippets (r : Json) : resultPriority (stripSnippets r) = resultPriority r := by
  rw [resultPriority, resultPriority, levelRank, levelRank, levelText_stripSnippets, specificityTier,
    specificityTier, ruleId_stripSnippets]

theorem sheds_strip (rs : List Json) : Sheds rs (rs.map stripSnippets) where
  from_results := by
    intro k hk
    obtain ⟨r, hr, rfl⟩ := List.mem_map.mp hk
    exact ⟨r, hr, (priority_stripSnippets r).symm⟩
  worst := fun r hr =>
    .inl ⟨_, List.mem_map_of_mem hr, alert_stripSnippets r, priority_stripSnippets r⟩

theorem forall₂_comp {α : Type} {R S T : α → α → Prop} (h : ∀ a b c, R a b → S b c → T a c)
    {as bs cs : List α} (hab : List.Forall₂ R as bs) (hbc : List.Forall₂ S bs cs) :
    List.Forall₂ T as cs := by
  induction hab generalizing cs with
  | nil =>
    cases hbc
    exact .nil
  | cons hab _ ih =>
    cases hbc with
    | cons hbc hrest => exact .cons (h _ _ _ hab hbc) (ih hrest)

def RunSheds (run run' : SarifRun) : Prop := Sheds run.resultList run'.resultList

theorem runSheds_shedFirst (n : ℕ) (runs : List SarifRun) :
    List.Forall₂ RunSheds runs (shedFirst n runs) := by
  have hrefl : ∀ runs : List SarifRun, List.Forall₂ RunSheds runs runs := fun runs =>
    List.forall₂_same.mpr fun run _ => Sheds.refl run.resultList
  induction runs with
  | nil => exact .nil
  | cons run runs ih =>
    rw [shedFirst]
    split_ifs with h
    · exact .cons (sheds_ranked_take _ _) (hrefl runs)
    · exact .cons (Sheds.refl _) ih

theorem runSheds_shedAfter (n : ℕ) (doc : Document) (dropped : ℕ) :
    List.Forall₂ RunSheds doc.runs (shedAfter n doc dropped).1.runs := by
  induction n generalizing doc dropped with
  | zero => exact List.forall₂_same.mpr fun run _ => Sheds.refl run.resultList
  | succ n ih =>
    exact forall₂_comp (fun _ _ _ h h' => h.trans h') (runSheds_shedFirst _ doc.runs) (ih (shedRound doc) _)

theorem runSheds_stripped (indent maxBytes : ℕ) (doc : Document) :
    List.Forall₂ RunSheds doc.runs (stripped indent maxBytes doc).runs := by
  rw [stripped]
  split_ifs with h
  · rw [Document.strip, List.forall₂_map_right_iff, List.forall₂_same]
    intro run _
    rw [RunSheds, resultList_strip]
    exact sheds_strip run.resultList
  · exact List.forall₂_same.mpr fun run _ => Sheds.refl run.resultList

theorem boundSarifDocument_sheds {fuel maxBytes maxResults indent : ℕ} {doc out : Document}
    (h : boundSarifDocument fuel maxBytes maxResults indent doc = some (.ok out)) :
    List.Forall₂ (fun run run' => Sheds (dedupe [] run.resultList) run'.resultList) doc.runs out.runs := by
  cases hprep : prepare maxResults doc with
  | error e =>
    rw [boundSarifDocument, hprep] at h
    cases h
  | ok d =>
    rw [boundSarifDocument_ok hprep] at h
    obtain ⟨r, hr, hout⟩ := Option.map_eq_some_iff.mp h
    have hprepared : List.Forall₂ (fun run run' => Sheds (dedupe [] run.resultList) run'.resultList)
        doc.runs d.runs := by
      refine (prepare_ok hprep).1.imp fun run run' hrun => ?_
      have hkept : run'.resultList = capped maxResults (dedupe [] run.resultList) := by
        rw [SarifRun.resultList, (complete_prepareRun hrun).2.2, Option.getD_some]
      rw [hkept]
      exact sheds_capped maxResults _
    have htrans : ∀ run run' run'' : SarifRun, Sheds (dedupe [] run.resultList) run'.resultList →
        RunSheds run' run'' → Sheds (dedupe [] run.resultList) run''.resultList :=
      fun _ _ _ h h' => h.trans h'
    have hstripped := forall₂_comp htrans hprepared (runSheds_stripped indent maxBytes d)
    have hshed : List.Forall₂ RunSheds (stripped indent maxBytes d).runs r.1.runs := by
      rcases shedLoop_cases hr with ⟨_, rfl⟩ | ⟨n, rfl, _⟩
      · exact runSheds_shedAfter 0 _ 0
      · exact runSheds_shedAfter n _ 0
    have hbefore := forall₂_comp htrans hstripped hshed
    refine forall₂_comp (fun run run' run'' h h' => ?_) hbefore (noteShedding_runs hout)
    have hsame : run''.resultList = run'.resultList := by rw [SarifRun.resultList, h'.2, SarifRun.resultList]
    rw [hsame]
    exact h

/-! ## The export -/

def Document.allResults (doc : Document) : List Json := doc.runs.flatMap SarifRun.resultList

/-- After the repeated results are gone, there are too many results or too many bytes. -/
def Exceeds (s : Setup) (scan : ScanResult) : Prop :=
  ghMaxShownResults < (dedupe [] (exported s scan).2).length ∨
    ∃ d, prepare ghMaxShownResults (sarifDocument s scan) = .ok d ∧ ¬ fits 2 ghMaxSarifBytes d

/-- What is said of the export of a scan. -/
structure KeepsAlerts (s : Setup) (scan : ScanResult) : Prop where
  within : ¬ Exceeds s scan → ∃ fuel out, toSarif fuel s scan = some (.ok out) ∧
    Represented (exported s scan).2 out.allResults
  beyond : Exceeds s scan → ∀ fuel out, toSarif fuel s scan = some (.ok out) →
    WorstFirst (exported s scan).2 out.allResults

theorem exists_noteTruncation {run : SarifRun} (h : run.invocations ≠ some []) (facts : List (String × ℕ)) :
    ∃ run', noteTruncation run facts = .ok run' := by
  rw [noteTruncation]
  cases hinv : run.invocations with
  | none => exact ⟨_, rfl⟩
  | some is =>
    cases is with
    | nil => exact absurd hinv h
    | cons i more => exact ⟨_, rfl⟩

theorem exists_prepare (s : Setup) (scan : ScanResult) :
    ∃ d, prepare ghMaxShownResults (sarifDocument s scan) = .ok d ∧
      d.allResults = capped ghMaxShownResults (dedupe [] (exported s scan).2) := by
  obtain ⟨run, hrun⟩ : ∃ run, (sarifDocument s scan).runs = [run] := ⟨_, rfl⟩
  have hresults : run.resultList = (exported s scan).2 := by
    cases hrun
    rfl
  have hinvocations : run.invocations ≠ some [] := by
    cases hrun
    show (if notifications scan = [] then none else some [_]) ≠ some []
    split_ifs
    · simp
    · simp
  have hstep : ∃ run', prepareRun ghMaxShownResults run = .ok run' := by
    obtain ⟨facts, ⟨_, heq⟩ | ⟨_, heq⟩⟩ := prepareRun_eq ghMaxShownResults run
    · have hcapped : (run.withResults (capped ghMaxShownResults (dedupe [] run.resultList))).invocations ≠
          some [] := hinvocations
      rw [heq]
      exact exists_noteTruncation hcapped facts
    · exact ⟨_, heq⟩
  obtain ⟨run', hstep⟩ := hstep
  refine ⟨{ sarifDocument s scan with runs := [run'] }, ?_, ?_⟩
  · rw [prepare, hrun, prepareRuns, hstep]
    rfl
  · rw [Document.allResults, List.flatMap_singleton, SarifRun.resultList,
      (complete_prepareRun hstep).2.2, hresults]
    rfl

theorem toSarif_within {s : Setup} {scan : ScanResult} (h : ¬ Exceeds s scan) :
    ∃ out, out.allResults = dedupe [] (exported s scan).2 ∧
      toSarif 1 s scan = some (.ok out) ∧
      ∀ fuel out', toSarif fuel s scan = some (.ok out') → out' = out := by
  obtain ⟨hcount, hsize⟩ := not_or.mp h
  obtain ⟨d, hprep, hresults⟩ := exists_prepare s scan
  have hfit : fits 2 ghMaxSarifBytes d := by
    by_contra hfit
    exact hsize ⟨d, hprep, hfit⟩
  have hstripped : stripped 2 ghMaxSarifBytes d = d := by
    rw [stripped, if_neg (Nat.not_lt.mpr hfit)]
  have hrun : ∀ fuel, toSarif (fuel + 1) s scan = some (.ok d) := by
    intro fuel
    rw [toSarif, boundSarifDocument_ok hprep, hstripped, shedLoop_fits hfit, Option.map_some, noteShedding_zero]
  refine ⟨d, by rw [hresults, capped, if_neg hcount], hrun 0, fun fuel out' hout => ?_⟩
  cases fuel with
  | zero =>
    rw [toSarif, boundSarifDocument_ok hprep] at hout
    cases hout
  | succ fuel =>
    rw [hrun fuel] at hout
    cases hout
    rfl

theorem toSarif_sheds {fuel : ℕ} {s : Setup} {scan : ScanResult} {out : Document}
    (h : toSarif fuel s scan = some (.ok out)) :
    Sheds (dedupe [] (exported s scan).2) out.allResults := by
  have hall := boundSarifDocument_sheds h
  obtain ⟨runs, rest⟩ := out
  rw [Document.allResults]
  cases hall with
  | cons hrun hrest =>
    cases hrest
    rw [List.flatMap_singleton]
    exact hrun

/-- Below the limits the export keeps each alert exactly when two results with one rule, file and line
are always the same alert; when they also have one level, a limit costs the worst alerts only. -/
theorem keepsAlerts_of_told_apart (s : Setup) (scan : ScanResult) :
    (¬ Exceeds s scan → (KeepsAlerts s scan ↔ IdentityTellsAlert (exported s scan).2)) ∧
      (IdentityTellsAlert (exported s scan).2 → IdentityTellsLevel (exported s scan).2 →
        KeepsAlerts s scan) := by
  constructor
  · intro hlimit
    obtain ⟨out, hresults, hout, hunique⟩ := toSarif_within hlimit
    rw [← represented_dedupe_iff, ← hresults]
    constructor
    · intro h
      obtain ⟨fuel, out', hout', hall⟩ := h.within hlimit
      rwa [hunique fuel out' hout'] at hall
    · intro h
      exact ⟨fun _ => ⟨1, out, hout, h⟩, fun hexceeds => absurd hexceeds hlimit⟩
  · intro halert hlevel
    constructor
    · intro hlimit
      obtain ⟨out, hresults, hout, _⟩ := toSarif_within hlimit
      refine ⟨1, out, hout, ?_⟩
      rw [hresults]
      exact (represented_dedupe_iff _).mpr halert
    · intro _ fuel out hout
      exact ((sheds_dedupe halert hlevel).trans (toSarif_sheds hout)).worstFirst

theorem one_package_is_kept : KeepsAlerts emptySetup (advisoryScan ["p"]) := by
  obtain ⟨r, hr⟩ : ∃ r, (exported emptySetup (advisoryScan ["p"])).2 = [r] := ⟨_, rfl⟩
  refine (keepsAlerts_of_told_apart emptySetup (advisoryScan ["p"])).2 ?_ ?_
  · rw [hr]
    intro a ha b hb _
    rw [List.mem_singleton.mp ha, List.mem_singleton.mp hb]
  · rw [hr]
    intro a ha b hb _
    rw [List.mem_singleton.mp ha, List.mem_singleton.mp hb]

/-- Two packages of one manifest that share an advisory are one result. -/
theorem second_package_is_lost : ¬ KeepsAlerts emptySetup (advisoryScan ["p", "q"]) := by
  have hcount : (dedupe [] (exported emptySetup (advisoryScan ["p", "q"])).2).length = 1 := by decide +kernel
  have hlost : ¬ Represented (exported emptySetup (advisoryScan ["p", "q"])).2
      (dedupe [] (exported emptySetup (advisoryScan ["p", "q"])).2) := by decide +kernel
  have hsize : ((prepare ghMaxShownResults (sarifDocument emptySetup (advisoryScan ["p", "q"]))).toOption.all
      fun d => decide (fits 2 ghMaxSarifBytes d)) = true := by decide +kernel
  have hlimit : ¬ Exceeds emptySetup (advisoryScan ["p", "q"]) := by
    rw [Exceeds, hcount]
    rintro (hmany | ⟨d, hprep, hfit⟩)
    · exact absurd hmany (by decide)
    · rw [hprep] at hsize
      exact hfit (of_decide_eq_true hsize)
  intro h
  obtain ⟨fuel, out', hout', hall⟩ := h.within hlimit
  obtain ⟨out, hresults, _, hunique⟩ := toSarif_within hlimit
  rw [hunique fuel out' hout', hresults] at hall
  exact hlost hall

end TimeCodeSecurity.Sarif
