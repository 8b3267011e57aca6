import TimeCodeSecurity.Webhooks.IdempotencyKeys

/-! # The notification service

`NotificationService`: the two registries, and what `handle_domain_event` hands to the adapters. What an adapter
raises is caught before the next intent, so it is not part of the model; what escapes the handler the bus catches.
-/
namespace TimeCodeSecurity.Policy
open Events Notifications Webhooks.Keys
set_option autoImplicit false

structure NotificationService (U : Unicode) where
  destinations : List (ℤ × WebhookDestinationConfig) := []
  policyConfigs : List (ℤ × PolicyConfig U) := []

/-- A call of an adapter. -/
inductive Dispatch
  | inApp (intent : NotificationIntent)
  | webhook (intent : NotificationIntent) (destination : WebhookDestinationConfig)

def Dispatch.intent : Dispatch → NotificationIntent
  | inApp intent | webhook intent _ => intent

inductive Registration (U : Unicode)
  | destination (d : WebhookDestinationConfig)
  | policyConfig (c : PolicyConfig U)

def NotificationService.register {U : Unicode} (s : NotificationService U) : Registration U → NotificationService U
  | .destination d => { s with destinations := setItem s.destinations d.organizationId d }
  | .policyConfig c => { s with policyConfigs := setItem s.policyConfigs c.organizationId c }

theorem upper_defaults_mem (U : Unicode) : upper U (codes "LOW") ∈ severityOrder.map Prod.fst ∧
    upper U (codes "HIGH") ∈ severityOrder.map Prod.fst := by
  constructor
  · exact List.mem_of_getElem? (i := 3) rfl
  · exact List.mem_of_getElem? (i := 1) rfl

def defaultConfig (U : Unicode) (org : ℤ) (h : 0 < org) : PolicyConfig U where
  organizationId := org
  organization_pos := h
  inApp_mem := (upper_defaults_mem U).1
  webhook_mem := (upper_defaults_mem U).2

def organizationOf : Value → Option Value
  | .mapping _ fields => fields.lookup (.str "organization_id")
  | _ => none

section
variable (R : Runtime) (now : CodeText)

def NotificationService.dispatch (s : NotificationService R.unicode) (intent : NotificationIntent) : Option Dispatch :=
  if intent.channel = codes "IN_APP" then some (.inApp intent)
  else if intent.channel = codes "WEBHOOK" then
    (s.destinations.lookup intent.organizationId).bind fun destination =>
      -- the tenant boundary violation is logged
      if destination.organizationId ≠ intent.organizationId then none else some (.webhook intent destination)
  else none

def NotificationService.handleDomainEvent (s : NotificationService R.unicode) (event : SecurityDomainEvent) :
    Except String (List Dispatch) :=
  (convertLine R (organizationOf event.metadata)).bind fun
    | none => .ok []
    | some org =>
      -- the default is built also where a configuration is registered
      if horg : 0 < org then
        match evaluate R now event ((s.policyConfigs.lookup org).getD (defaultConfig R.unicode org horg)) with
        | .error _ => .ok []
        | .ok intents => .ok (intents.filterMap (s.dispatch R))
      else .error "organization_id must be a positive integer."

end

section
variable {U : Unicode}

def lastDestination (history : List (Registration U)) (org : ℤ) : Option WebhookDestinationConfig :=
  (history.filterMap fun
    | .destination d => if d.organizationId = org then some d else none
    | .policyConfig _ => none).getLast?

def lastPolicyConfig (history : List (Registration U)) (org : ℤ) : Option (PolicyConfig U) :=
  (history.filterMap fun
    | .policyConfig c => if c.organizationId = org then some c else none
    | .destination _ => none).getLast?

def serviceAfter (history : List (Registration U)) : NotificationService U := history.foldl .register {}

theorem lookup_serviceAfter (history : List (Registration U)) (org : ℤ) :
    (serviceAfter history).destinations.lookup org = lastDestination history org ∧
      (serviceAfter history).policyConfigs.lookup org = lastPolicyConfig history org := by
  induction history using List.reverseRecOn with
  | nil => exact ⟨rfl, rfl⟩
  | append_singleton history r ih =>
    have hafter : serviceAfter (history ++ [r]) = (serviceAfter history).register r := by
      rw [serviceAfter, List.foldl_append]
      rfl
    rw [hafter, lastDestination, lastPolicyConfig, List.filterMap_append, List.filterMap_append, List.getLast?_append,
      List.getLast?_append]
    cases r with
    | destination d =>
      refine ⟨?_, ih.2⟩
      rw [NotificationService.register, Tables.lookup_setItem, ih.1]
      by_cases h : org = d.organizationId
      · simp [h]
      · simp [h, Ne.symm h, lastDestination]
    | policyConfig c =>
      refine ⟨ih.1, ?_⟩
      rw [NotificationService.register, Tables.lookup_setItem, ih.2]
      by_cases h : org = c.organizationId
      · simp [h]
      · simp [h, Ne.symm h, lastPolicyConfig]

end

section
variable {R : Runtime} {now : CodeText} {event : SecurityDomainEvent} {config : PolicyConfig R.unicode}

/-- The channel of the intent is on, and the event is severe enough for it. -/
def Allowed (event : SecurityDomainEvent) (config : PolicyConfig R.unicode) (i : NotificationIntent) : Prop :=
  i.organizationId = config.organizationId ∧
    (i.channel = codes "IN_APP" ∧ config.inAppEnabled = true ∧
        scoreOf (upper R.unicode config.minSeverityInApp) ≤ scoreOf (eventSeverity event.summary) ∨
      i.channel = codes "WEBHOOK" ∧ config.webhookEnabled = true ∧
        scoreOf (upper R.unicode config.minSeverityWebhook) ≤ scoreOf (eventSeverity event.summary))

theorem channel_init {d : IntentData} {i : NotificationIntent} (h : NotificationIntent.init d = .ok i) :
    i.organizationId = d.organizationId ∧ i.channel = d.channel := by
  unfold NotificationIntent.init at h
  split at h
  · cases h
  split at h
  · cases h
  split at h
  · cases h
  split at h
  · cases h
  split at h
  · obtain rfl := Except.ok.inj h
    exact ⟨rfl, rfl⟩
  · cases h

theorem channelIntents_spec {channel : String} {enabled : Bool} {minSeverity : CodeText}
    {found : List SafeFindingSummary × Bool × ℤ} {intents : List NotificationIntent}
    (h : channelIntents R now event config channel enabled minSeverity found = .ok intents) :
    intents.length ≤ 1 ∧ ∀ i ∈ intents, i.organizationId = config.organizationId ∧ i.channel = codes channel ∧
      enabled = true ∧ scoreOf (upper R.unicode minSeverity) ≤ scoreOf (eventSeverity event.summary) := by
  unfold channelIntents at h
  split at h
  next hon =>
    obtain ⟨intent, hintent, rfl⟩ := map_eq_ok.mp h
    refine ⟨Nat.le_refl 1, fun i hi => ?_⟩
    obtain rfl := List.mem_singleton.mp hi
    obtain ⟨horg, hchannel⟩ := channel_init hintent
    exact ⟨horg, hchannel, hon⟩
  · obtain rfl := Except.ok.inj h
    exact ⟨Nat.zero_le 1, fun i hi => absurd hi List.not_mem_nil⟩

def inChannel (channel : String) (intents : List NotificationIntent) : ℕ :=
  intents.countP fun i => i.channel = codes channel

theorem codes_webhook_ne : codes "WEBHOOK" ≠ codes "IN_APP" := by decide

theorem evaluate_allows {intents : List NotificationIntent} (h : evaluate R now event config = .ok intents) :
    (∀ i ∈ intents, Allowed event config i) ∧ inChannel "IN_APP" intents ≤ 1 ∧ inChannel "WEBHOOK" intents ≤ 1 := by
  unfold evaluate at h
  split at h
  · obtain rfl := Except.ok.inj h
    exact ⟨fun i hi => absurd hi List.not_mem_nil, Nat.zero_le 1, Nat.zero_le 1⟩
  · obtain ⟨found, -, h⟩ := Except.bind_eq_ok.mp h
    obtain ⟨inApp, hinApp, h⟩ := Except.bind_eq_ok.mp h
    obtain ⟨web, hweb, rfl⟩ := map_eq_ok.mp h
    obtain ⟨honeApp, happ⟩ := channelIntents_spec hinApp
    obtain ⟨honeWeb, hweb⟩ := channelIntents_spec hweb
    refine ⟨fun i hi => ?_, ?_, ?_⟩
    · rcases List.mem_append.mp hi with hi | hi
      · exact ⟨(happ i hi).1, .inl (happ i hi).2⟩
      · exact ⟨(hweb i hi).1, .inr (hweb i hi).2⟩
    · have hnone : inChannel "IN_APP" web = 0 := List.countP_eq_zero.mpr fun i hi => by
        simpa [(hweb i hi).2.1] using codes_webhook_ne
      have hall : inChannel "IN_APP" inApp ≤ inApp.length := List.countP_le_length
      rw [inChannel, List.countP_append]
      exact (Nat.add_le_add hall hnone.le).trans honeApp
    · have hnone : inChannel "WEBHOOK" inApp = 0 := List.countP_eq_zero.mpr fun i hi => by
        simpa [(happ i hi).2.1] using codes_webhook_ne.symm
      have hall : inChannel "WEBHOOK" web ≤ web.length := List.countP_le_length
      rw [inChannel, List.countP_append]
      exact (Nat.add_le_add hnone.le hall).trans (by omega)

end

/-! ## Routing -/

section
variable (R : Runtime) (now : CodeText) (history : List (Registration R.unicode)) (event : SecurityDomainEvent)

/-- By the history alone. -/
def Routes : Dispatch → Prop
  | .inApp i => i.channel = codes "IN_APP"
  | .webhook i d => i.channel = codes "WEBHOOK" ∧ lastDestination history i.organizationId = some d

def lastConfigOf (org : ℤ) (horg : 0 < org) : PolicyConfig R.unicode :=
  (lastPolicyConfig history org).getD (defaultConfig R.unicode org horg)

/-- What is handed out for an event: exactly the intents of the policy that was registered last for the
organization of the event, each to that organization, and at most one for each channel. -/
structure RoutedTo (out : List Dispatch) : Prop where
  delivered : ∀ x, x ∈ out ↔ ∃ org horg intents, convertLine R (organizationOf event.metadata) = .ok (some org) ∧
    evaluate R now event (lastConfigOf R history org horg) = .ok intents ∧ x.intent ∈ intents ∧ Routes R history x
  allowed : ∀ x ∈ out, ∃ org horg, convertLine R (organizationOf event.metadata) = .ok (some org) ∧
    x.intent.organizationId = org ∧ Allowed event (lastConfigOf R history org horg) x.intent
  ownDestination : ∀ i d, Dispatch.webhook i d ∈ out → d.organizationId = i.organizationId
  once : inChannel "IN_APP" (out.map (·.intent)) ≤ 1 ∧ inChannel "WEBHOOK" (out.map (·.intent)) ≤ 1

/-- Nothing is handed out where the handler raises. -/
def Routed (result : Except String (List Dispatch)) : Prop := ∀ out, result = .ok out → RoutedTo R now history event out

variable {R history} {org : ℤ} {x : Dispatch} {i : NotificationIntent}

theorem organizationId_of_lastDestination {d : WebhookDestinationConfig} (h : lastDestination history org = some d) :
    d.organizationId = org := by
  obtain ⟨r, -, hr⟩ := List.mem_filterMap.mp (List.mem_of_getLast? h)
  cases r with
  | destination d' =>
    dsimp only at hr
    split at hr
    next horg =>
      obtain rfl := Option.some.inj hr
      exact horg
    · cases hr
  | policyConfig c => cases hr

theorem organizationId_lastConfigOf (horg : 0 < org) : (lastConfigOf R history org horg).organizationId = org := by
  rw [lastConfigOf]
  cases h : lastPolicyConfig history org with
  | none => rfl
  | some c =>
    obtain ⟨r, -, hr⟩ := List.mem_filterMap.mp (List.mem_of_getLast? h)
    cases r with
    | destination d => cases hr
    | policyConfig c' =>
      dsimp only at hr
      split at hr
      next horg =>
        obtain rfl := Option.some.inj hr
        exact horg
      · cases hr

/-- The tenant boundary is never violated by a destination that was registered. -/
theorem dispatch_eq_some_iff : (serviceAfter history).dispatch R i = some x ↔ x.intent = i ∧ Routes R history x := by
  have hlookup := (lookup_serviceAfter history i.organizationId).1
  unfold NotificationService.dispatch
  split_ifs with happ hweb
  · constructor
    · intro h
      obtain rfl := Option.some.inj h
      exact ⟨rfl, happ⟩
    · rintro ⟨rfl, hroutes⟩
      cases x with
      | inApp intent => rfl
      | webhook intent d => exact absurd (hroutes.1.symm.trans happ) codes_webhook_ne
  · rw [hlookup]
    constructor
    · intro h
      obtain ⟨d, hd, h⟩ := Option.bind_eq_some_iff.mp h
      rw [if_neg (not_not.mpr (organizationId_of_lastDestination hd))] at h
      obtain rfl := Option.some.inj h
      exact ⟨rfl, hweb, hd⟩
    · rintro ⟨rfl, hroutes⟩
      cases x with
      | inApp intent => exact absurd hroutes happ
      | webhook intent d =>
        have hd : lastDestination history (Dispatch.webhook intent d).intent.organizationId = some d := hroutes.2
        rw [hd, Option.bind_some, if_neg (not_not.mpr (organizationId_of_lastDestination hd))]
        rfl
  · refine iff_of_false (fun h => by cases h) ?_
    rintro ⟨rfl, hroutes⟩
    cases x with
    | inApp intent => exact happ hroutes
    | webhook intent d => exact hweb hroutes.1

theorem sublist_dispatched (intents : List NotificationIntent) :
    ((intents.filterMap ((serviceAfter history).dispatch R)).map (·.intent)).Sublist intents := by
  induction intents with
  | nil => exact .slnil
  | cons i intents ih =>
    cases h : (serviceAfter history).dispatch R i with
    | none =>
      rw [List.filterMap_cons_none h]
      exact ih.cons i
    | some x =>
      rw [List.filterMap_cons_some h, List.map_cons, (dispatch_eq_some_iff.mp h).1]
      exact ih.cons_cons i

theorem RoutedTo.nil {now : CodeText} {event : SecurityDomainEvent} (h : ∀ org horg intents,
    convertLine R (organizationOf event.metadata) = .ok (some org) →
      evaluate R now event (lastConfigOf R history org horg) ≠ .ok intents) : RoutedTo R now history event [] where
  delivered x := by
    refine iff_of_false List.not_mem_nil ?_
    rintro ⟨org, horg, intents, hconvert, hintents, -⟩
    exact h org horg intents hconvert hintents
  allowed x hx := absurd hx List.not_mem_nil
  ownDestination i d hx := absurd hx List.not_mem_nil
  once := ⟨Nat.zero_le 1, Nat.zero_le 1⟩

/-- **The notification service.** After any history of registrations. -/
theorem handleDomainEvent_routed (R : Runtime) (now : CodeText) (history : List (Registration R.unicode))
    (event : SecurityDomainEvent) :
    Routed R now history event ((serviceAfter history).handleDomainEvent R now event) := by
  intro out hout
  unfold NotificationService.handleDomainEvent at hout
  obtain ⟨found, hconvert, hout⟩ := Except.bind_eq_ok.mp hout
  have hsame : ∀ org, convertLine R (organizationOf event.metadata) = .ok (some org) → found = some org := fun org h =>
    Except.ok.inj (hconvert.symm.trans h)
  cases found with
  | none =>
    obtain rfl := Except.ok.inj hout
    exact .nil fun org _ _ h => by cases hsame org h
  | some org =>
    dsimp only at hout
    split at hout
    next horg =>
      have hconfig : ((serviceAfter history).policyConfigs.lookup org).getD (defaultConfig R.unicode org horg) =
          lastConfigOf R history org horg := by rw [(lookup_serviceAfter history org).2, lastConfigOf]
      rw [hconfig] at hout
      cases hintents : evaluate R now event (lastConfigOf R history org horg) with
      | error e =>
        rw [hintents] at hout
        obtain rfl := Except.ok.inj hout
        refine .nil fun org' _ intents h heq => ?_
        obtain rfl := Option.some.inj (hsame org' h)
        rw [hintents] at heq
        cases heq
      | ok intents =>
        rw [hintents] at hout
        obtain rfl := Except.ok.inj hout
        obtain ⟨hallowed, happ, hweb⟩ := evaluate_allows hintents
        have hmem : ∀ x, x ∈ intents.filterMap ((serviceAfter history).dispatch R) ↔
            x.intent ∈ intents ∧ Routes R history x := by
          intro x
          simp only [List.mem_filterMap, dispatch_eq_some_iff]
          exact ⟨fun ⟨i, hi, hx, hroutes⟩ => ⟨hx ▸ hi, hroutes⟩, fun ⟨hi, hroutes⟩ => ⟨x.intent, hi, rfl, hroutes⟩⟩
        refine ⟨fun x => (hmem x).trans ⟨fun h => ⟨org, horg, intents, hconvert, hintents, h⟩, ?_⟩, ?_, ?_, ?_⟩
        · rintro ⟨org', horg', intents', hconvert', hintents', h⟩
          obtain rfl := Option.some.inj (hsame org' hconvert')
          obtain rfl := Except.ok.inj (hintents.symm.trans hintents')
          exact h
        · intro x hx
          have hown := hallowed x.intent ((hmem x).mp hx).1
          exact ⟨org, horg, hconvert, hown.1.trans (organizationId_lastConfigOf horg), hown⟩
        · intro i d hx
          exact organizationId_of_lastDestination ((hmem _).mp hx).2.2
        · have hsub := @sublist_dispatched R history intents
          exact ⟨(hsub.countP_le).trans happ, (hsub.countP_le).trans hweb⟩
    · cases hout

end

end TimeCodeSecurity.Policy
