import TimeCodeSecurity.Foundations.KeyedSort
import TimeCodeSecurity.Notifications.DomainEvents
import TimeCodeSecurity.Notifications.FindingSummaries

/-! # The notification policy

`NotificationPolicy.evaluate`: the findings of an event, bounded and in order, and the intents for the two channels.
The clock is the text `now`. An item is taken for a finding where it is a `dict`.
-/
namespace TimeCodeSecurity.Policy
open Events Notifications KeyedSort
set_option autoImplicit false

/-- The exceptions of `int`; the first two are caught. -/
inductive ConvertError
  | value | type
  | other (text : String)

/-- `str`, `int` and the hexadecimal digest of a text. -/
structure Runtime where
  unicode : Unicode
  str : Value → CodeText
  int : Value → Except ConvertError ℤ
  hexdigest : CodeText → CodeText

/-- `SEVERITY_ORDER.get(severity, 1)`. -/
def scoreOf (severity : CodeText) : ℕ := (severityOrder.lookup severity).getD 1

section
variable (R : Runtime)

def convertLine : Option Value → Except String (Option ℤ)
  | none | some (.leaf .none) => .ok none
  | some v =>
    match v.asInt, R.int v with
    | some n, _ => .ok (some n)
    | none, .ok n => .ok (some n)
    | none, .error (.other text) => .error text
    | none, .error _ => .ok none

def summaryOf (fields : List (Key × Value)) : Except String SafeFindingSummary :=
  let get (name default : String) : CodeText := ((fields.lookup (.str name)).map R.str).getD (codes default)
  (convertLine R (fields.lookup (.str "line"))).map fun line => .init R.unicode {
    ruleId := get "rule_id" "UNKNOWN"
    cwe := get "cwe" "CWE-UNKNOWN"
    severity := get "severity" "INFO"
    filePath := get "file_path" ""
    line
    message := get "message" "" }

def extract : List Value → Except String (List SafeFindingSummary)
  | [] => .ok []
  | .mapping .dict fields :: items =>
    (summaryOf R fields).bind fun s => (extract items).map (s :: ·)
  | _ :: items => extract items

def sortKey (f : SafeFindingSummary) : ℤ ×ₗ CodeText ×ₗ CodeText ×ₗ ℤ :=
  toLex (-(scoreOf (upper R.unicode f.severity) : ℤ), toLex (f.ruleId, toLex (f.filePath, f.line.getD 0)))

/-- `xs[:n]`. -/
def sliceTo {α : Type} (xs : List α) (n : ℤ) : List α :=
  xs.take (if 0 ≤ n then n else xs.length + n).toNat

/-- `metadata.get("findings", ())`. -/
def findingsOf : Value → Value
  | .mapping _ fields => (fields.lookup (.str "findings")).getD (.seq .tuple [])
  | _ => .seq .tuple []

def extractAndSortFindings (metadata : Value) (maxFindings : ℤ) :
    Except String (List SafeFindingSummary × Bool × ℤ) :=
  let bounded (items : List Value) := (extract R items).map fun extracted =>
    (sliceTo (sort (sortKey R) extracted) maxFindings, decide (maxFindings < extracted.length), (extracted.length : ℤ))
  match findingsOf metadata with
  | .seq .list items => bounded items
  | .seq .tuple items => bounded items
  | _ => .ok ([], false, 0)

end

structure IntentData where
  intentId : CodeText
  eventId : CodeText
  scanId : CodeText
  dedupeKey : CodeText
  notificationType : CodeText
  severity : CodeText
  recipientScope : RecipientScope
  organizationId : ℤ
  userId : Option ℤ := none
  title : CodeText := []
  message : CodeText := []
  link : Option CodeText := none
  channel : CodeText := codes "IN_APP"
  createdAt : CodeText := []
  safeFindings : List SafeFindingSummary := []
  findingsTruncated : Bool := false
  totalFindings : ℤ := 0

/-- An intent that `__post_init__` has accepted. -/
structure NotificationIntent extends IntentData where
  intentId_ne : intentId ≠ []
  eventId_ne : eventId ≠ []
  scanId_ne : scanId ≠ []
  dedupeKey_ne : dedupeKey ≠ []
  organization_pos : 0 < organizationId
  title_le : title.length ≤ 255
  message_le : message.length ≤ 2000

def NotificationIntent.init (d : IntentData) : Except String NotificationIntent :=
  if hintent : d.intentId = [] then .error "intent_id cannot be empty."
  else if hevent : d.eventId = [] then .error "event_id cannot be empty."
  else if hscan : d.scanId = [] then .error "scan_id cannot be empty."
  else if hdedupe : d.dedupeKey = [] then .error "dedupe_key cannot be empty."
  else if horg : 0 < d.organizationId then
    .ok {
      d with
      title := d.title.take 255
      message := d.message.take 2000
      intentId_ne := hintent
      eventId_ne := hevent
      scanId_ne := hscan
      dedupeKey_ne := hdedupe
      organization_pos := horg
      title_le := List.length_take_le 255 _
      message_le := List.length_take_le 2000 _ }
  else .error "organization_id must be a positive integer."

/-- The preferences of a tenant that `__post_init__` has accepted. -/
structure PolicyConfig (U : Unicode) where
  organizationId : ℤ
  minSeverityInApp : CodeText := codes "LOW"
  minSeverityWebhook : CodeText := codes "HIGH"
  notifyOnCleanScans : Bool := false
  maxFindingsPerWebhook : ℤ := 10
  inAppEnabled : Bool := true
  webhookEnabled : Bool := true
  organization_pos : 0 < organizationId
  inApp_mem : upper U minSeverityInApp ∈ severityOrder.map Prod.fst
  webhook_mem : upper U minSeverityWebhook ∈ severityOrder.map Prod.fst

def eventSeverity (s : EventSummary) : CodeText :=
  codes (if 0 < s.criticalCount then "CRITICAL"
    else if 0 < s.highCount then "HIGH"
    else if 0 < s.mediumCount then "MEDIUM"
    else if 0 < s.lowCount then "LOW"
    else "INFO")

section
variable (R : Runtime) (now : CodeText) (event : SecurityDomainEvent) (config : PolicyConfig R.unicode)

def intentFor (channel : String) (found : List SafeFindingSummary × Bool × ℤ) : Except String NotificationIntent :=
  let summary := event.summary
  let isCleanScan := summary.totalFindings = 0
  let repoName := if event.repository = "" then "repository" else event.repository
  NotificationIntent.init {
    intentId := (R.hexdigest (codes (event.eventId ++ ":" ++ channel ++ ":" ++ toString config.organizationId))).take 32
    eventId := codes event.eventId
    scanId := codes event.scanId
    dedupeKey := codes event.dedupeKey
    notificationType := codes (if isCleanScan then "SCAN_SUMMARY" else "SECURITY_ALERT")
    severity := eventSeverity summary
    recipientScope := .organization
    organizationId := config.organizationId
    title := codes (
      if isCleanScan then "TimeCodeSecurity Scan Passed: " ++ repoName
      else "TimeCodeSecurity Alert: " ++ toString summary.totalFindings ++ " findings in " ++ repoName)
    message := codes (
      if isCleanScan then "Security scan completed with 0 findings for " ++ repoName ++ "."
      else "Security scan detected " ++ toString summary.criticalCount ++ " critical, " ++
        toString summary.highCount ++ " high, and " ++ toString summary.mediumCount ++ " medium findings in " ++
        repoName ++ ".")
    link := some (codes (if event.scanId = "" then "/scans" else "/scans/" ++ event.scanId))
    channel := codes channel
    createdAt := now
    safeFindings := found.1
    findingsTruncated := found.2.1
    totalFindings := found.2.2 }

def channelIntents (channel : String) (enabled : Bool) (minSeverity : CodeText)
    (found : List SafeFindingSummary × Bool × ℤ) : Except String (List NotificationIntent) :=
  if enabled = true ∧ scoreOf (upper R.unicode minSeverity) ≤ scoreOf (eventSeverity event.summary) then
    (intentFor R now event config channel found).map ([·])
  else .ok []

def evaluate : Except String (List NotificationIntent) :=
  if event.summary.totalFindings = 0 ∧ config.notifyOnCleanScans = false then .ok []
  else
    (extractAndSortFindings R event.metadata config.maxFindingsPerWebhook).bind fun found =>
    (channelIntents R now event config "IN_APP" config.inAppEnabled config.minSeverityInApp found).bind fun inApp =>
    (channelIntents R now event config "WEBHOOK" config.webhookEnabled config.minSeverityWebhook found).map fun web =>
      inApp ++ web

end

def itemsOf : Value → List Value
  | .seq .list items => items
  | .seq .tuple items => items
  | _ => []

section
variable {R : Runtime}

variable (R) in
/-- The findings that the policy sees in the metadata. -/
def foundIn (metadata : Value) : Except String (List SafeFindingSummary) := extract R (itemsOf (findingsOf metadata))

theorem score_le_of_sortKey_le {f g : SafeFindingSummary} (h : sortKey R f ≤ sortKey R g) :
    scoreOf (upper R.unicode g.severity) ≤ scoreOf (upper R.unicode f.severity) := by
  have hfirst := (Prod.Lex.toLex_le_toLex'.mp h).1
  dsimp only at hfirst
  omega

theorem kept_of_extractAndSortFindings {metadata : Value} {n : ℤ} {found : List SafeFindingSummary × Bool × ℤ}
    (h : extractAndSortFindings R metadata n = .ok found) :
    ∃ items, foundIn R metadata = .ok items ∧ found.1 = sliceTo (sort (sortKey R) items) n := by
  unfold extractAndSortFindings at h
  dsimp only at h
  split at h
  next items heq =>
    obtain ⟨extracted, hextract, rfl⟩ := map_eq_ok.mp h
    exact ⟨extracted, by rw [foundIn, heq]; exact hextract, rfl⟩
  next items heq =>
    obtain ⟨extracted, hextract, rfl⟩ := map_eq_ok.mp h
    exact ⟨extracted, by rw [foundIn, heq]; exact hextract, rfl⟩
  next hlist htuple =>
    obtain rfl := Except.ok.inj h
    have hnone : itemsOf (findingsOf metadata) = [] := by
      cases hvalue : findingsOf metadata with
      | seq kind items =>
        cases kind with
        | list => exact absurd hvalue (hlist items)
        | tuple => exact absurd hvalue (htuple items)
        | set => rfl
        | frozenset => rfl
      | leaf l => rfl
      | mapping kind fields => rfl
      | unsupported typeName => rfl
    exact ⟨[], by rw [foundIn, hnone]; rfl, List.take_nil.symm⟩

theorem score_le_of_sliceTo (items : List SafeFindingSummary) (n : ℤ) : ∃ left,
    (sliceTo (sort (sortKey R) items) n ++ left).Perm items ∧ ∀ f ∈ sliceTo (sort (sortKey R) items) n, ∀ g ∈ left,
      scoreOf (upper R.unicode g.severity) ≤ scoreOf (upper R.unicode f.severity) := by
  have hsorted : (sort (sortKey R) items).Pairwise _ := pairwise_sort items
  have hsplit : sliceTo (sort (sortKey R) items) n ++ _ = sort (sortKey R) items := List.take_append_drop _ _
  rw [← hsplit] at hsorted
  refine ⟨_, hsplit ▸ perm_sort items, fun f hf g hg => ?_⟩
  exact score_le_of_sortKey_le ((List.pairwise_append.mp hsorted).2.2 f hf g hg)

end

/-! ## The findings of an event that was constructed -/

section
variable {R : Runtime}

theorem ne_dict_of_freezeData {v w : Value} (h : freezeData v = .ok w) (fields : List (Key × Value)) :
    w ≠ .mapping .dict fields := by
  intro hdict
  subst hdict
  cases v with
  | leaf l => cases h
  | seq kind items =>
    obtain ⟨ws, -, hseq⟩ := map_eq_ok.mp h
    cases hseq
  | mapping kind entries =>
    obtain ⟨frozen, -, hproxy⟩ := map_eq_ok.mp h
    cases hproxy
  | unsupported typeName => cases h

theorem exists_of_mem_freezeItems {items ws : List Value} (h : freezeItems items = .ok ws) {w : Value} (hw : w ∈ ws) :
    ∃ v, freezeData v = .ok w := by
  induction items generalizing ws with
  | nil =>
    cases h
    cases hw
  | cons v items ih =>
    obtain ⟨u, hu, h⟩ := Except.bind_eq_ok.mp h
    obtain ⟨rest, hrest, rfl⟩ := map_eq_ok.mp h
    rcases List.mem_cons.mp hw with rfl | hw
    · exact ⟨v, hu⟩
    · exact ih hrest hw

theorem exists_of_mem_freezeFields {fields : List (Key × Value)} {frozen : List (String × Value)}
    (h : freezeFields fields = .ok frozen) {e : String × Value} (he : e ∈ frozen) : ∃ v, freezeData v = .ok e.2 := by
  induction fields generalizing frozen with
  | nil =>
    cases h
    cases he
  | cons field fields ih =>
    obtain ⟨u, hu, h⟩ := Except.bind_eq_ok.mp h
    obtain ⟨rest, hrest, rfl⟩ := map_eq_ok.mp h
    rcases List.mem_cons.mp he with rfl | he
    · exact ⟨field.2, hu⟩
    · exact ih hrest he

theorem mem_of_mem_setItems {entries : List (String × Value)} {table : List (String × Value)} {e : String × Value}
    (h : e ∈ Tables.setItems table entries) : e ∈ table ∨ e ∈ entries := by
  induction entries generalizing table with
  | nil => exact .inl h
  | cons kv entries ih =>
    rcases ih h with htable | hentries
    · rcases Tables.mem_setItem_iff.mp htable with ⟨hkey, hvalue⟩ | ⟨-, hmem⟩
      · exact .inr (List.mem_cons.mpr (.inl (Prod.ext hkey hvalue)))
      · exact .inl hmem
    · exact .inr (List.mem_cons_of_mem kv hentries)

theorem findingsOf_metadataOf {v m : Value} (h : metadataOf v = .ok m) :
    findingsOf m = .seq .tuple [] ∨ ∃ w, freezeData w = .ok (findingsOf m) := by
  have hempty : findingsOf (proxyOf []) = .seq .tuple [] := rfl
  have hfrozen : ∀ {w : Value}, freezeData v = .ok w → w.isMapping = true →
      findingsOf w = .seq .tuple [] ∨ ∃ u, freezeData u = .ok (findingsOf w) := by
    intro w hw hmapping
    cases v with
    | leaf l =>
      cases hw
      cases hmapping
    | seq kind items =>
      obtain ⟨ws, -, rfl⟩ := map_eq_ok.mp hw
      cases hmapping
    | mapping kind fields =>
      obtain ⟨frozen, hfields, rfl⟩ := map_eq_ok.mp hw
      cases hlookup : ((Tables.setItems [] frozen).map fun e => (Key.str e.1, e.2)).lookup (.str "findings") with
      | none => exact .inl (by rw [proxyOf, findingsOf, hlookup]; rfl)
      | some found =>
        right
        have hmem : (Key.str "findings", found) ∈ (Tables.setItems [] frozen).map fun e => (Key.str e.1, e.2) := by
          obtain ⟨l, l', heq, -⟩ := List.lookup_eq_some_iff.mp hlookup
          rw [heq]
          simp
        obtain ⟨e, he, hpair⟩ := List.mem_map.mp hmem
        have hvalue : e.2 = found := (Prod.mk.inj hpair).2
        rcases mem_of_mem_setItems he with he | he
        · cases he
        · obtain ⟨u, hu⟩ := exists_of_mem_freezeFields hfields he
          refine ⟨u, ?_⟩
          rw [proxyOf, findingsOf, hlookup, hu, hvalue]
          rfl
    | unsupported typeName => cases hw
  unfold metadataOf at h
  split at h
  · obtain rfl := Except.ok.inj h
    exact .inl hempty
  · obtain ⟨w, hw, rfl⟩ := map_eq_ok.mp h
    split
    next hmapping => exact hfrozen hw hmapping
    · exact .inl hempty

theorem extract_of_no_dict {items : List Value} (h : ∀ v ∈ items, ∀ fields, v ≠ .mapping .dict fields) :
    extract R items = .ok [] := by
  induction items with
  | nil => rfl
  | cons v items ih =>
    have hrest := ih fun u hu => h u (List.mem_cons_of_mem v hu)
    cases v with
    | mapping kind fields =>
      cases kind with
      | dict => exact absurd rfl (h _ List.mem_cons_self fields)
      | mappingProxy => exact hrest
    | leaf l => exact hrest
    | seq kind values => exact hrest
    | unsupported typeName => exact hrest

theorem extract_of_construct {E : Events.Runtime} {input : EventInput} {event : SecurityDomainEvent}
    (h : construct E input = .ok event) : foundIn R event.metadata = .ok [] := by
  have hmetadata : metadataOf input.metadata = .ok event.metadata := by
    unfold construct at h
    obtain ⟨fields, -, h⟩ := Except.bind_eq_ok.mp h
    obtain ⟨metadata, hmetadata, h⟩ := Except.bind_eq_ok.mp h
    obtain ⟨_, -, h⟩ := Except.bind_eq_ok.mp h
    obtain ⟨_, -, h⟩ := Except.bind_eq_ok.mp h
    split at h
    · obtain rfl := Except.ok.inj h
      exact hmetadata
    · cases h
  refine extract_of_no_dict fun v hv fields => ?_
  rcases findingsOf_metadataOf hmetadata with hnone | ⟨w, hw⟩
  · rw [hnone] at hv
    cases hv
  · cases hfound : findingsOf event.metadata with
    | seq kind items =>
      rw [hfound] at hv hw
      have hmem : v ∈ items := by
        cases kind with
        | list => exact hv
        | tuple => exact hv
        | set => cases hv
        | frozenset => cases hv
      have hitems : ∃ values, freezeItems values = .ok items := by
        cases w with
        | leaf l => cases hw
        | seq kind' values =>
          obtain ⟨ws, hws, hseq⟩ := map_eq_ok.mp hw
          cases hseq
          exact ⟨values, hws⟩
        | mapping kind' entries =>
          obtain ⟨frozen, -, hproxy⟩ := map_eq_ok.mp hw
          cases hproxy
        | unsupported typeName => cases hw
      obtain ⟨values, hvalues⟩ := hitems
      obtain ⟨u, hu⟩ := exists_of_mem_freezeItems hvalues hmem
      exact ne_dict_of_freezeData hu fields
    | leaf l =>
      rw [hfound] at hv
      cases hv
    | mapping kind entries =>
      rw [hfound] at hv
      cases hv
    | unsupported typeName =>
      rw [hfound] at hv
      cases hv

end

/-! ## Order of the findings -/

/-- Two events that differ in the order of the findings in their metadata. -/
structure Permuted (event event' : SecurityDomainEvent) : Prop where
  rest : event' = { event with metadata := event'.metadata }
  findings : ∃ kind items items', items.Perm items' ∧ findingsOf event.metadata = .seq kind items ∧
    findingsOf event'.metadata = .seq kind items'

section
variable {R : Runtime} {now : CodeText} {event event' : SecurityDomainEvent} {config : PolicyConfig R.unicode}

theorem safeFindings_init {d : IntentData} {i : NotificationIntent} (h : NotificationIntent.init d = .ok i) :
    i.safeFindings = d.safeFindings := by
  unfold NotificationIntent.init at h
  split at h
  · cases h
  split at h
  · cases h
  split at h
  · cases h
  split at h
  · cases h
  split at h
  · obtain rfl := Except.ok.inj h
    rfl
  · cases h

theorem safeFindings_channelIntents {channel : String} {enabled : Bool} {minSeverity : CodeText}
    {found : List SafeFindingSummary × Bool × ℤ} {intents : List NotificationIntent}
    (h : channelIntents R now event config channel enabled minSeverity found = .ok intents) :
    ∀ i ∈ intents, i.safeFindings = found.1 := by
  unfold channelIntents at h
  split at h
  · obtain ⟨intent, hintent, rfl⟩ := map_eq_ok.mp h
    intro i hi
    obtain rfl := List.mem_singleton.mp hi
    exact safeFindings_init hintent
  · obtain rfl := Except.ok.inj h
    intro i hi
    cases hi

theorem exists_found_of_evaluate {intents : List NotificationIntent} (h : evaluate R now event config = .ok intents)
    {i : NotificationIntent} (hi : i ∈ intents) : ∃ found,
      extractAndSortFindings R event.metadata config.maxFindingsPerWebhook = .ok found ∧ i.safeFindings = found.1 := by
  unfold evaluate at h
  split at h
  · obtain rfl := Except.ok.inj h
    cases hi
  · obtain ⟨found, hfound, h⟩ := Except.bind_eq_ok.mp h
    obtain ⟨inApp, hinApp, h⟩ := Except.bind_eq_ok.mp h
    obtain ⟨web, hweb, rfl⟩ := map_eq_ok.mp h
    refine ⟨found, hfound, ?_⟩
    rcases List.mem_append.mp hi with hi | hi
    · exact safeFindings_channelIntents hinApp i hi
    · exact safeFindings_channelIntents hweb i hi

theorem extractAndSortFindings_permuted (hperm : Permuted event event') (h : foundIn R event.metadata = .ok [])
    (h' : foundIn R event'.metadata = .ok []) (n : ℤ) :
    extractAndSortFindings R event'.metadata n = extractAndSortFindings R event.metadata n := by
  obtain ⟨kind, items, items', -, hitems, hitems'⟩ := hperm.findings
  rw [foundIn, hitems] at h
  rw [foundIn, hitems'] at h'
  unfold extractAndSortFindings
  rw [hitems, hitems']
  cases kind with
  | list => exact congrArg (Except.map _) (h'.trans h.symm)
  | tuple => exact congrArg (Except.map _) (h'.trans h.symm)
  | set => rfl
  | frozenset => rfl

theorem evaluate_congr {metadata : Value} (h : ∀ n,
    extractAndSortFindings R metadata n = extractAndSortFindings R event.metadata n) :
    evaluate R now { event with metadata } config = evaluate R now event config := by
  show (if _ then _ else (extractAndSortFindings R metadata config.maxFindingsPerWebhook).bind _) = _
  rw [h]
  rfl

/-- **Order of the findings.** The order of the findings in the metadata of an event does not matter, and the findings
an intent carries are at least as severe as the others that the policy sees. -/
theorem evaluate_orderFree (now : CodeText) (config : PolicyConfig R.unicode) {E : Events.Runtime}
    {input input' : EventInput} (h : construct E input = .ok event) (h' : construct E input' = .ok event')
    (hperm : Permuted event event') :
    evaluate R now event' config = evaluate R now event config ∧
      ∀ intents, evaluate R now event config = .ok intents → ∀ i ∈ intents, ∃ items left,
        foundIn R event.metadata = .ok items ∧ (i.safeFindings ++ left).Perm items ∧
          ∀ f ∈ i.safeFindings, ∀ g ∈ left,
            scoreOf (upper R.unicode g.severity) ≤ scoreOf (upper R.unicode f.severity) := by
  constructor
  · rw [hperm.rest]
    exact evaluate_congr (extractAndSortFindings_permuted hperm (extract_of_construct h) (extract_of_construct h'))
  · intro intents hintents i hi
    obtain ⟨found, hfound, hsafe⟩ := exists_found_of_evaluate hintents hi
    obtain ⟨items, hitems, hkept⟩ := kept_of_extractAndSortFindings hfound
    obtain ⟨left, hleft, hscore⟩ := score_le_of_sliceTo (R := R) items config.maxFindingsPerWebhook
    rw [← hkept, ← hsafe] at hleft hscore
    exact ⟨items, left, hitems, hleft, hscore⟩

end

def plainPolicy : Runtime where
  unicode := asciiUnicode
  str := fun v => (v.asStr.map codes).getD []
  int := fun _ => .error .value
  hexdigest := fun t => t

def webhookConfig : PolicyConfig asciiUnicode where
  organizationId := 1
  organization_pos := Int.zero_lt_one
  inApp_mem := by decide
  webhook_mem := by decide

def findingOf (severity : String) (kind : MapKind) : Value := .mapping kind [(.str "severity", .leaf (.str severity))]

def alertInput (items : List Value) : EventInput :=
  { scanEvent (.mapping .dict [(.str "findings", .seq .list items)]) with
    summary := .inl { totalFindings := 2, criticalCount := 1 } }

def alertEvent (items : List Value) : SecurityDomainEvent where
  eventType := .scanCompleted
  eventId := "e1"
  timestamp := "2026-01-01T00:00:00Z"
  repository := "app"
  scanId := "s1"
  summary := { totalFindings := 2, criticalCount := 1 }
  highRiskCount := 0
  metadata := proxyOf [("findings", .seq .tuple items)]
  dedupeKey := "0000000000000000000000000000000000000000000000000000000000000000"

theorem evaluate_two_findings :
    evaluate plainPolicy [] (alertEvent [findingOf "LOW" .mappingProxy, findingOf "CRITICAL" .mappingProxy])
        webhookConfig =
      evaluate plainPolicy [] (alertEvent [findingOf "CRITICAL" .mappingProxy, findingOf "LOW" .mappingProxy])
        webhookConfig := by
  have hinput : construct plainRuntime (alertInput [findingOf "CRITICAL" .dict, findingOf "LOW" .dict]) =
      .ok (alertEvent [findingOf "CRITICAL" .mappingProxy, findingOf "LOW" .mappingProxy]) := rfl
  have hinput' : construct plainRuntime (alertInput [findingOf "LOW" .dict, findingOf "CRITICAL" .dict]) =
      .ok (alertEvent [findingOf "LOW" .mappingProxy, findingOf "CRITICAL" .mappingProxy]) := rfl
  exact (evaluate_orderFree (R := plainPolicy) [] webhookConfig hinput hinput'
    ⟨rfl, .tuple, _, _, .swap _ _ [], rfl, rfl⟩).1

end TimeCodeSecurity.Policy
