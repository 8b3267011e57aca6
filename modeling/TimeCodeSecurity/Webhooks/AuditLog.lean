import Mathlib.Data.List.DropRight
import TimeCodeSecurity.Webhooks.Settlement

/-! # The audit log

`DurableDeliveryResultSink`, over `SqliteDeliveryRepository.create`: every result goes to the memory, and a row
of it to the database where the write succeeds. A row is kept beside the call it is about.
-/
namespace TimeCodeSecurity.Webhooks
open Interleaving
set_option autoImplicit false

structure DeliveryAuditLog extends WebhookDeliveryTask where
  id : String
  channel : String
  status : DeliveryStatus
  statusCode : Option ℤ
  attempts : ℕ
  durationMs : ℚ
  errorMessage : Option String
  createdAt : ℤ

/-- `create`, with the id and the time that are generated. -/
def auditEntry (id : String) (now : ℤ) (r : DeliveryResult) : DeliveryAuditLog :=
  { r.toWebhookDeliveryTask with
    id
    channel := r.channel
    status := r.status
    statusCode := r.statusCode
    attempts := r.attempts
    durationMs := r.durationMs
    errorMessage := r.errorMessage.map fun m => if maxErrorMessageLength < m.length then cut m else m
    createdAt := now }

structure Sink where
  recent : List DeliveryResult := []
  rows : List (ℕ × DeliveryAuditLog) := []
  writes : ℕ := 0

section
variable (maxlen : ℕ) (db : ℕ → Option (String × ℤ))

/-- `db` says of each write whether it succeeds, and then what is generated. -/
def Sink.record (s : Sink) (t : ℕ) (result : DeliveryResult) : Sink where
  recent := (s.recent ++ [result]).rtake maxlen
  rows := s.rows ++ ((db s.writes).map fun generated => (t, auditEntry generated.1 generated.2 result)).toList
  writes := s.writes + 1

def Sink.follow (s : Sink) : List Event → Sink
  | [] => s
  | .sent _ :: log => s.follow log
  | .recorded t result :: log => (s.record maxlen db t result).follow log

end

/-! ## Whose result it is -/

section
variable (owner : ℕ → WebhookDeliveryTask → Prop)

structure Bears (t : ℕ) (r : DeliveryResult) : Prop where
  own : owner t r.toWebhookDeliveryTask
  channel : r.channel = "WEBHOOK"
  bounded : ∀ m ∈ r.errorMessage, m.length ≤ maxErrorMessageLength

def Progress.Bears (i : ℕ) : Progress → Prop
  | rejecting r => Webhooks.Bears owner i r
  | aborting (some item) | took (some item) | sending item => owner item.1 item.2
  | recording item r => Webhooks.Bears owner item.1 r
  | _ => True

structure Service.Bears (s : Service) : Prop where
  queue : ∀ item, some item ∈ s.queue → owner item.1 item.2
  log : ∀ t r, Event.recorded t r ∈ s.log → Webhooks.Bears owner t r

variable {owner}

theorem length_cut_le (text : String) : (cut text).length ≤ maxErrorMessageLength := by
  rw [cut, String.length_ofList]
  exact List.length_take_le _ _

theorem bears_resultOf {t : ℕ} {task : WebhookDeliveryTask} (h : owner t task) (res : ClientExecutionResult) :
    Bears owner t (resultOf task res) where
  own := h
  channel := rfl
  bounded m hm := by
    obtain ⟨text, -, rfl⟩ := Option.map_eq_some_iff.mp hm
    exact length_cut_le text

theorem Service.Bears.append {s : Service} (h : s.Bears owner) {t : ℕ} {r : DeliveryResult}
    (hr : Webhooks.Bears owner t r) : Service.Bears owner { s with log := s.log ++ [.recorded t r] } where
  queue := h.queue
  log t' r' hmem := by
    rcases List.mem_append.mp hmem with hmem | hmem
    · exact h.log t' r' hmem
    · obtain ⟨rfl, rfl⟩ := Event.recorded.inj (List.mem_singleton.mp hmem)
      exact hr

variable {maxQueueSize maxWorkers : ℕ}

theorem Advance.bears {i : ℕ} {op : Operation} {p p' : Progress} {s s' : Service}
    (h : Advance maxQueueSize maxWorkers i op p s p' s') (hop : ∀ task, op = .enqueue task → owner i task)
    (hs : s.Bears owner) (hp : p.Bears owner i) : s'.Bears owner ∧ p'.Bears owner i := by
  have hsame : ∀ lock accepting initiated event,
      Service.Bears owner ⟨s.queue, accepting, initiated, event, lock, s.log⟩ := fun _ _ _ _ => ⟨hs.queue, hs.log⟩
  cases h with
  | refuse _ | overflow _ => exact ⟨hs, bears_resultOf (hop _ rfl) _⟩
  | put _ =>
    refine ⟨⟨fun item hitem => ?_, hs.log⟩, trivial⟩
    rcases List.mem_append.mp hitem with hitem | hitem
    · exact hs.queue item hitem
    · obtain rfl := Option.some.inj (List.mem_singleton.mp hitem)
      exact hop _ rfl
  | recordRejection => exact ⟨hs.append hp, trivial⟩
  | @drainTake _ item rest hqueue | @take _ item rest hqueue =>
    have hmem : ∀ x ∈ item :: rest, x ∈ s.queue := fun x hx => hqueue ▸ hx
    refine ⟨⟨fun x hx => hs.queue x (hmem _ (List.mem_cons_of_mem _ hx)), hs.log⟩, ?_⟩
    cases item with
    | none => trivial
    | some item => exact hs.queue item (hmem _ List.mem_cons_self)
  | drainRecord => exact ⟨hs.append (bears_resultOf hp _), trivial⟩
  | post _ =>
    refine ⟨⟨fun item hitem => ?_, hs.log⟩, trivial⟩
    rcases List.mem_append.mp hitem with hitem | hitem
    · exact hs.queue item hitem
    · cases List.mem_singleton.mp hitem
  | send =>
    refine ⟨⟨hs.queue, fun t r hmem => ?_⟩, hp⟩
    rcases List.mem_append.mp hmem with hmem | hmem
    · exact hs.log t r hmem
    · cases List.mem_singleton.mp hmem
  | answered res => exact ⟨hs, bears_resultOf hp res⟩
  | raised exc => exact ⟨hs, bears_resultOf hp _⟩
  | record => exact ⟨hs.append hp, trivial⟩
  | _ => exact ⟨hsame _ _ _ _, trivial⟩

theorem Bears.mono {owner' : ℕ → WebhookDeliveryTask → Prop} (h : ∀ t task, owner t task → owner' t task) {t : ℕ}
    {r : DeliveryResult} (hr : Bears owner t r) : Bears owner' t r := ⟨h _ _ hr.own, hr.channel, hr.bounded⟩

theorem Progress.Bears.mono {owner' : ℕ → WebhookDeliveryTask → Prop} (h : ∀ t task, owner t task → owner' t task)
    {i : ℕ} {p : Progress} (hp : p.Bears owner i) : p.Bears owner' i := by
  cases p with
  | rejecting r | recording item r => exact Webhooks.Bears.mono h hp
  | sending item => exact h _ _ hp
  | aborting item | took item =>
    cases item with
    | none => trivial
    | some item => exact h _ _ hp
  | _ => trivial

end

/-- The task that the call `t` brought. -/
def Brought (c : System) (t : ℕ) (task : WebhookDeliveryTask) : Prop :=
  ∃ p, c.calls[t]? = some (Operation.enqueue task, p)

variable {maxQueueSize maxWorkers : ℕ}

theorem bears_of_run {c : System} (h : Run maxQueueSize maxWorkers newService c) :
    c.shared.Bears (Brought c) ∧
      ∀ (i : ℕ) (op : Operation) (p : Progress), c.calls[i]? = some (op, p) → p.Bears (Brought c) i := by
  induction h with
  | refl =>
    refine ⟨⟨fun item hitem => absurd hitem List.not_mem_nil, fun t r hmem => absurd hmem List.not_mem_nil⟩, ?_⟩
    intro i op p hcall
    cases hcall
  | @tail c c' _ hstep ih =>
    have hmono : ∀ t task, Brought c t task → Brought c' t task := fun t task ⟨p, hp⟩ =>
      call_of_steps hp (.single hstep)
    have hqueue := fun item hitem => hmono _ _ (ih.1.queue item hitem)
    have hlog := fun t r hmem => (ih.1.log t r hmem).mono hmono
    cases hstep with
    | issue op =>
      refine ⟨⟨hqueue, hlog⟩, fun i op' p hcall => ?_⟩
      have hcall : (c.calls ++ [(op, Progress.started)])[i]? = some (op', p) := hcall
      rw [List.getElem?_append] at hcall
      split at hcall
      · exact (ih.2 i op' p hcall).mono hmono
      · obtain ⟨-, rfl⟩ := Prod.mk.inj (List.mem_singleton.mp (List.mem_of_getElem? hcall))
        trivial
    | @call i op p p' s' hcall hadvance =>
      have hown : ∀ task, op = .enqueue task → Brought c i task := fun task hop => ⟨p, hop ▸ hcall⟩
      obtain ⟨hs, hp⟩ := hadvance.bears hown ih.1 (ih.2 i op p hcall)
      refine ⟨⟨fun item hitem => hmono _ _ (hs.queue item hitem), fun t r hmem => (hs.log t r hmem).mono hmono⟩, ?_⟩
      intro j opj pj hj
      by_cases hij : i = j
      · subst hij
        have hself : (c.calls.set i (op, p'))[i]? = some (op, p') :=
          List.getElem?_set_self (List.getElem?_eq_some_iff.mp hcall).1
        obtain ⟨-, rfl⟩ := Prod.mk.inj (Option.some.inj (hself.symm.trans hj))
        exact hp.mono hmono
      · exact (ih.2 j opj pj ((List.getElem?_set_ne hij).symm.trans hj)).mono hmono

section
variable {maxlen : ℕ} {db : ℕ → Option (String × ℤ)}

def resultsOf (log : List Event) : List DeliveryResult := log.filterMap fun
  | .recorded _ result => some result
  | .sent _ => none

theorem rtake_append_one {α : Type} (n : ℕ) (xs : List α) (x : α) :
    (xs.rtake n ++ [x]).rtake n = (xs ++ [x]).rtake n := by
  cases n with
  | zero => rw [List.rtake_zero, List.rtake_zero]
  | succ n =>
    rw [List.rtake_concat_succ, List.rtake_concat_succ]
    simp [List.rtake_eq_reverse_take_reverse, List.take_take]

theorem recent_follow {s : Sink} {xs : List DeliveryResult} (h : s.recent = xs.rtake maxlen) (log : List Event) :
    (s.follow maxlen db log).recent = (xs ++ resultsOf log).rtake maxlen := by
  induction log generalizing s xs with
  | nil => simpa [Sink.follow, resultsOf] using h
  | cons e log ih =>
    cases e with
    | sent t => exact ih h
    | recorded t result =>
      have hnext : (s.record maxlen db t result).recent = (xs ++ [result]).rtake maxlen := by
        rw [Sink.record, h, rtake_append_one]
      rw [Sink.follow, ih hnext, List.append_assoc]
      rfl

theorem mem_rows_follow {s : Sink} {log : List Event} {t : ℕ} {a : DeliveryAuditLog}
    (h : (t, a) ∈ (s.follow maxlen db log).rows) :
    (t, a) ∈ s.rows ∨ ∃ r id now, Event.recorded t r ∈ log ∧ a = auditEntry id now r := by
  induction log generalizing s with
  | nil => exact .inl h
  | cons e log ih =>
    cases e with
    | sent t' =>
      rcases ih h with h | ⟨r, id, now, hmem, ha⟩
      · exact .inl h
      · exact .inr ⟨r, id, now, List.mem_cons_of_mem _ hmem, ha⟩
    | recorded t' result =>
      rcases ih h with h | ⟨r, id, now, hmem, ha⟩
      · rcases List.mem_append.mp h with h | h
        · exact .inl h
        · obtain ⟨generated, -, hrow⟩ := Option.map_eq_some_iff.mp (Option.mem_toList.mp h)
          obtain ⟨rfl, rfl⟩ := Prod.mk.inj hrow
          exact .inr ⟨result, generated.1, generated.2, List.mem_cons_self, rfl⟩
      · exact .inr ⟨r, id, now, List.mem_cons_of_mem _ hmem, ha⟩

def rowsOf (t : ℕ) (s : Sink) : ℕ := s.rows.countP (·.1 = t)

theorem rowsOf_record (s : Sink) (t t' : ℕ) (result : DeliveryResult) : rowsOf t (s.record maxlen db t' result) =
    rowsOf t s + if t' = t ∧ (db s.writes).isSome then 1 else 0 := by
  cases h : db s.writes <;> simp [rowsOf, Sink.record, h, List.countP_cons]

theorem rowsOf_follow (s : Sink) (t : ℕ) (log : List Event) :
    rowsOf t (s.follow maxlen db log) ≤ rowsOf t s + recordedCount t log ∧
      ((∀ k, (db k).isSome = true) → rowsOf t (s.follow maxlen db log) = rowsOf t s + recordedCount t log) := by
  induction log generalizing s with
  | nil => exact ⟨Nat.le_refl _, fun _ => rfl⟩
  | cons e log ih =>
    cases e with
    | sent t' =>
      have hcount : recordedCount t (.sent t' :: log) = recordedCount t log := by
        simp [recordedCount, Event.isRecord]
      rw [hcount]
      exact ih s
    | recorded t' result =>
      have hcount : recordedCount t (.recorded t' result :: log) = recordedCount t log + if t' = t then 1 else 0 := by
        simp [recordedCount, List.countP_cons, Event.isRecord]
      obtain ⟨hle, heq⟩ := ih (s.record maxlen db t' result)
      rw [rowsOf_record] at hle heq
      rw [hcount, Sink.follow]
      constructor
      · refine hle.trans ?_
        split_ifs <;> omega
      · intro hdb
        rw [heq hdb, hdb]
        simp only [and_true]
        omega

end

/-- Each row is about one call of the same organization, and a write that fails loses that row alone. -/
structure Audited (maxlen : ℕ) (db : ℕ → Option (String × ℤ)) (c : System) (s : Sink) : Prop where
  own : ∀ t a, (t, a) ∈ s.rows → Brought c t a.toWebhookDeliveryTask ∧ a.channel = "WEBHOOK" ∧
    ∀ m ∈ a.errorMessage, m.length ≤ maxErrorMessageLength
  once : ∀ t, rowsOf t s ≤ 1
  complete : (∀ k, (db k).isSome = true) → Over c → ∀ (t : ℕ) (task : WebhookDeliveryTask) (admitted : Bool),
    c.calls[t]? = some (Operation.enqueue task, Progress.returned admitted) → rowsOf t s = 1
  recent : s.recent = (resultsOf c.shared.log).rtake maxlen

theorem auditEntry_spec {owner : ℕ → WebhookDeliveryTask → Prop} {t : ℕ} {r : DeliveryResult}
    (h : Bears owner t r) (id : String) (now : ℤ) : owner t (auditEntry id now r).toWebhookDeliveryTask ∧
      (auditEntry id now r).channel = "WEBHOOK" ∧
      ∀ m ∈ (auditEntry id now r).errorMessage, m.length ≤ maxErrorMessageLength := by
  refine ⟨h.own, h.channel, fun m hm => ?_⟩
  obtain ⟨text, -, rfl⟩ := Option.map_eq_some_iff.mp hm
  split_ifs with hlong
  · exact length_cut_le text
  · omega

/-- **The audit log.** In every run, and whichever writes fail. -/
theorem audited_of_run {c : System} (h : Run maxQueueSize maxWorkers newService c) (maxlen : ℕ)
    (db : ℕ → Option (String × ℤ)) : Audited maxlen db c (({} : Sink).follow maxlen db c.shared.log) := by
  have hcounts := fun t => @rowsOf_follow maxlen db {} t c.shared.log
  have hzero : ∀ t, rowsOf t {} = 0 := fun t => rfl
  have haccounted := (accounted_of_run h).1
  constructor
  · intro t a hrow
    rcases mem_rows_follow hrow with hrow | ⟨r, id, now, hmem, rfl⟩
    · exact absurd hrow List.not_mem_nil
    · exact auditEntry_spec ((bears_of_run h).1.log t r hmem) id now
  · intro t
    have hle := (hcounts t).1
    have hplaces := haccounted.places_eq t
    rw [hzero] at hle
    rw [places] at hplaces
    split_ifs at hplaces <;> omega
  · intro hdb hover t task admitted hcall
    have houtcome : outcomeAt t c = some admitted := by
      rw [outcomeAt, hcall]
      rfl
    rw [(hcounts t).2 hdb, hzero]
    cases admitted with
    | false => exact (Nat.zero_add _).trans (haccounted.refused t houtcome)
    | true =>
      have hplaces := haccounted.places_eq t
      rw [houtcome, Option.isSome_some, if_pos rfl, places] at hplaces
      have hqueued := queued_of_noTasks (noTasks_of_over h hover) t
      have hhandled := handled_of_over h hover t
      omega
  · have hnil : ({} : Sink).recent = ([] : List DeliveryResult).rtake maxlen := (List.rtake_nil maxlen).symm
    exact recent_follow hnil c.shared.log

theorem audited_of_drained_task : Audited 1000 (fun k => some (toString k, 0)) DrainedTask.closed
    (({} : Sink).follow 1000 (fun k => some (toString k, 0)) DrainedTask.closed.shared.log) :=
  audited_of_run DrainedTask.reachable 1000 _

end TimeCodeSecurity.Webhooks
