import Mathlib.Data.List.Induction
import TimeCodeSecurity.Webhooks.DeliveryService

/-! # Where a task is

A task that was admitted is in the queue, in the hands of a worker or of the drain, or recorded, and in
one of these places only once. A task that was refused is recorded. Each step moves a task from one place
to the next; what the steps of all calls keep together is the number of places of each task.
-/
namespace TimeCodeSecurity.Webhooks
open Interleaving
set_option autoImplicit false

def Progress.task : Progress → Option ℕ
  | aborting item | took item => item.map (·.1)
  | sending item | recording item _ => some item.1
  | _ => none

/-- What `enqueue` answers, once it is decided. -/
def Progress.outcome : Progress → Option Bool
  | leaving admitted | returned admitted => some admitted
  | _ => none

def Event.isRecord (t : ℕ) : Event → Bool
  | recorded task _ => task = t
  | sent _ => false

def queued (t : ℕ) (queue : List (Option Item)) : ℕ :=
  queue.countP fun item => item.map (·.1) = some t

def recordedCount (t : ℕ) (log : List Event) : ℕ := log.countP (Event.isRecord t)

def inHand (t : ℕ) (p : Progress) : ℕ := if p.task = some t then 1 else 0

def decided (t i : ℕ) (p : Progress) : ℕ := if i = t ∧ p.outcome.isSome then 1 else 0

@[simp] theorem queued_cons (t : ℕ) (item : Option Item) (queue : List (Option Item)) :
    queued t (item :: queue) = queued t queue + if item.map (·.1) = some t then 1 else 0 := by
  by_cases hitem : item.map (·.1) = some t <;> simp [queued, hitem]

@[simp] theorem queued_append_one (t : ℕ) (queue : List (Option Item)) (item : Option Item) :
    queued t (queue ++ [item]) = queued t queue + if item.map (·.1) = some t then 1 else 0 := by
  by_cases hitem : item.map (·.1) = some t <;> simp [queued, hitem]

@[simp] theorem recordedCount_append_recorded (t task : ℕ) (log : List Event)
    (result : DeliveryResult) :
    recordedCount t (log ++ [.recorded task result]) =
      recordedCount t log + if task = t then 1 else 0 := by
  simp [recordedCount, List.countP_cons, Event.isRecord]

@[simp] theorem recordedCount_append_sent (t task : ℕ) (log : List Event) :
    recordedCount t (log ++ [.sent task]) = recordedCount t log := by
  simp [recordedCount, Event.isRecord]

variable {maxQueueSize maxWorkers : ℕ}

theorem Advance.conserved {i : ℕ} {op : Operation} {p p' : Progress} {s s' : Service}
    (h : Advance maxQueueSize maxWorkers i op p s p' s') (t : ℕ) :
    queued t s'.queue + recordedCount t s'.log + inHand t p' + decided t i p =
      queued t s.queue + recordedCount t s.log + inHand t p + decided t i p' := by
  cases h with
  | put _ | recordRejection =>
    simp only [queued_append_one, recordedCount_append_recorded, inHand, decided, Progress.task,
      Progress.outcome, Option.map_some, Option.some.injEq]
    by_cases hit : i = t
    · simp [hit]
      omega
    · simp [hit]
  | @drainTake _ item _ hqueue | @take _ item _ hqueue =>
    simp only [hqueue, queued_cons, inHand, decided, Progress.task, Progress.outcome]
    by_cases hitem : item.map (·.1) = some t
    · simp [hitem]
      omega
    · simp [hitem]
  | drainRecord | record =>
    simp only [recordedCount_append_recorded, inHand, decided, Progress.task, Progress.outcome]
    simp
    omega
  | _ => simp [inHand, decided, Progress.task, Progress.outcome]

abbrev System := Config Service Operation Progress

def handled (t : ℕ) (calls : List (Operation × Progress)) : ℕ :=
  (calls.map fun call => inHand t call.2).sum

def places (t : ℕ) (c : System) : ℕ :=
  queued t c.shared.queue + recordedCount t c.shared.log + handled t c.calls

def outcomeAt (t : ℕ) (c : System) : Option Bool := c.calls[t]?.bind fun call => call.2.outcome

theorem sum_map_set {α : Type} (f : α → ℕ) {l : List α} {i : ℕ} {a : α} (h : l[i]? = some a)
    (b : α) : ((l.set i b).map f).sum + f a = (l.map f).sum + f b := by
  induction l generalizing i with
  | nil => cases h
  | cons x l ih =>
    cases i with
    | zero =>
      simp only [List.getElem?_cons_zero, Option.some.injEq] at h
      subst h
      simp
      omega
    | succ i =>
      have htail := ih (i := i) h
      simp only [List.set_cons_succ, List.map_cons, List.sum_cons]
      omega

theorem outcomeAt_set {t i : ℕ} {c : System} {op : Operation} {p p' : Progress} {s' : Service}
    (h : c.calls[i]? = some (op, p)) :
    outcomeAt t ⟨s', c.calls.set i (op, p')⟩ = if i = t then p'.outcome else outcomeAt t c := by
  have hlt := (List.getElem?_eq_some_iff.mp h).1
  by_cases hit : i = t
  · subst hit
    rw [if_pos rfl, outcomeAt, List.getElem?_set_self hlt]
    rfl
  · rw [if_neg hit, outcomeAt, outcomeAt, List.getElem?_set_ne hit]

def NoneSentAfter (log : List Event) : Prop :=
  ∀ before t after, log = before ++ .sent t :: after → recordedCount t before = 0

structure Accounted (c : System) : Prop where
  places_eq : ∀ t, places t c = if (outcomeAt t c).isSome then 1 else 0
  refused : ∀ t, outcomeAt t c = some false → recordedCount t c.shared.log = 1
  sent : ∀ t, Event.sent t ∈ c.shared.log → outcomeAt t c = some true
  order : NoneSentAfter c.shared.log

theorem inHand_le_handled {t i : ℕ} {calls : List (Operation × Progress)} {op : Operation}
    {p : Progress} (h : calls[i]? = some (op, p)) : inHand t p ≤ handled t calls := by
  have hset := sum_map_set (fun call : Operation × Progress => inHand t call.2) h (op, .started)
  have hzero : inHand t .started = 0 := rfl
  simp only [hzero] at hset
  rw [handled]
  omega

theorem Accounted.of_task {c : System} (hc : Accounted c) {t i : ℕ} {op : Operation} {p : Progress}
    (hcall : c.calls[i]? = some (op, p)) (htask : p.task = some t) :
    outcomeAt t c = some true ∧ recordedCount t c.shared.log = 0 := by
  have hle := inHand_le_handled (t := t) hcall
  have hone : inHand t p = 1 := if_pos htask
  have hplaces := hc.places_eq t
  rw [places] at hplaces
  cases houtcome : outcomeAt t c with
  | none =>
    simp only [houtcome, Option.isSome_none, Bool.false_eq_true, if_false] at hplaces
    omega
  | some admitted =>
    simp only [houtcome, Option.isSome_some, if_true] at hplaces
    have hzero : recordedCount t c.shared.log = 0 := by omega
    refine ⟨?_, hzero⟩
    cases admitted with
    | true => rfl
    | false =>
      have hrecorded := hc.refused t houtcome
      omega

/-! ## One step -/

theorem Advance.log_cases {i : ℕ} {op : Operation} {p p' : Progress} {s s' : Service}
    (h : Advance maxQueueSize maxWorkers i op p s p' s') :
    s'.log = s.log ∨ (∃ t result, s'.log = s.log ++ [.recorded t result]) ∨
      ∃ t, p.task = some t ∧ s'.log = s.log ++ [.sent t] := by
  cases h with
  | recordRejection | drainRecord | record => exact .inr (.inl ⟨_, _, rfl⟩)
  | send => exact .inr (.inr ⟨_, rfl, rfl⟩)
  | _ => exact .inl rfl

theorem Advance.recordedCount_le {i : ℕ} {op : Operation} {p p' : Progress} {s s' : Service}
    (h : Advance maxQueueSize maxWorkers i op p s p' s') (t : ℕ) :
    recordedCount t s.log ≤ recordedCount t s'.log := by
  obtain hsame | ⟨task, result, hlog⟩ | ⟨task, _, hlog⟩ := h.log_cases
  · exact Nat.le_of_eq (by rw [hsame])
  · rw [hlog, recordedCount_append_recorded]
    omega
  · exact Nat.le_of_eq (by rw [hlog, recordedCount_append_sent])

theorem Advance.outcome_kept {i : ℕ} {op : Operation} {p p' : Progress} {s s' : Service}
    (h : Advance maxQueueSize maxWorkers i op p s p' s') {admitted : Bool}
    (houtcome : p.outcome = some admitted) : p'.outcome = some admitted := by
  cases h with
  | enqueueUnlock => exact houtcome
  | _ => cases houtcome

theorem NoneSentAfter.append_recorded {log : List Event} (h : NoneSentAfter log) (task : ℕ)
    (result : DeliveryResult) : NoneSentAfter (log ++ [.recorded task result]) := by
  intro before t after hlog
  cases after using List.reverseRecOn with
  | nil =>
    have hlast := List.append_inj_right' hlog rfl
    cases hlast
  | append_singleton after last =>
    rw [← List.cons_append, ← List.append_assoc] at hlog
    exact h before t after (List.append_inj_left' hlog rfl)

theorem NoneSentAfter.append_sent {log : List Event} (h : NoneSentAfter log) {task : ℕ}
    (hrecorded : recordedCount task log = 0) : NoneSentAfter (log ++ [.sent task]) := by
  intro before t after hlog
  cases after using List.reverseRecOn with
  | nil =>
    obtain ⟨hbefore, hlast⟩ := List.append_inj' hlog rfl
    cases hlast
    rw [← hbefore, hrecorded]
  | append_singleton after last =>
    rw [← List.cons_append, ← List.append_assoc] at hlog
    exact h before t after (List.append_inj_left' hlog rfl)

theorem outcomeAt_of_call {c : System} {i : ℕ} {op : Operation} {p : Progress}
    (h : c.calls[i]? = some (op, p)) : outcomeAt i c = p.outcome := by
  rw [outcomeAt, h]
  rfl

theorem Advance.refusal {i : ℕ} {op : Operation} {p p' : Progress} {s s' : Service}
    (h : Advance maxQueueSize maxWorkers i op p s p' s') (hafter : p'.outcome = some false)
    (hbefore : p.outcome ≠ some false) :
    p.outcome = none ∧ ∃ result, s'.log = s.log ++ [.recorded i result] := by
  cases h with
  | recordRejection => exact ⟨rfl, _, rfl⟩
  | enqueueUnlock => exact absurd hafter hbefore
  | _ => cases hafter

theorem Accounted.places_call {c : System} (hc : Accounted c) {i : ℕ} {op : Operation}
    {p p' : Progress} {s' : Service} (hcall : c.calls[i]? = some (op, p))
    (h : Advance maxQueueSize maxWorkers i op p c.shared p' s') (t : ℕ) :
    places t ⟨s', c.calls.set i (op, p')⟩ =
      if (outcomeAt t ⟨s', c.calls.set i (op, p')⟩).isSome then 1 else 0 := by
  have hbefore := hc.places_eq t
  have hstep := h.conserved t
  have hset := sum_map_set (fun call : Operation × Progress => inHand t call.2) hcall (op, p')
  rw [outcomeAt_set hcall]
  simp only [places, handled, decided] at hbefore hstep hset ⊢
  by_cases hit : i = t
  · subst hit
    rw [outcomeAt_of_call hcall] at hbefore
    simp only [true_and, if_true] at hstep ⊢
    omega
  · simp only [hit, false_and, if_false] at hstep ⊢
    omega

theorem Accounted.refused_call {c : System} (hc : Accounted c) {i : ℕ} {op : Operation}
    {p p' : Progress} {s' : Service} (hcall : c.calls[i]? = some (op, p))
    (h : Advance maxQueueSize maxWorkers i op p c.shared p' s') (t : ℕ)
    (ht : outcomeAt t ⟨s', c.calls.set i (op, p')⟩ = some false) : recordedCount t s'.log = 1 := by
  have hafter := hc.places_call hcall h t
  rw [ht, Option.isSome_some, if_pos rfl, places] at hafter
  simp only at hafter
  rw [outcomeAt_set hcall] at ht
  by_cases hdecided : outcomeAt t c = some false
  · have hbefore := hc.refused t hdecided
    have hle := h.recordedCount_le t
    omega
  · -- the answer was given in this very step
    by_cases hit : i = t
    · subst hit
      rw [if_pos rfl] at ht
      rw [outcomeAt_of_call hcall] at hdecided
      obtain ⟨hnone, result, hlog⟩ := h.refusal ht hdecided
      have hbefore := hc.places_eq i
      rw [outcomeAt_of_call hcall, hnone, Option.isSome_none, if_neg Bool.false_ne_true, places] at hbefore
      rw [hlog, recordedCount_append_recorded, if_pos rfl]
      omega
    · rw [if_neg hit] at ht
      exact absurd ht hdecided

theorem Accounted.call {c : System} (hc : Accounted c) {i : ℕ} {op : Operation} {p p' : Progress}
    {s' : Service} (hcall : c.calls[i]? = some (op, p))
    (h : Advance maxQueueSize maxWorkers i op p c.shared p' s') :
    Accounted ⟨s', c.calls.set i (op, p')⟩ := by
  have hkept : ∀ t admitted, outcomeAt t c = some admitted →
      outcomeAt t ⟨s', c.calls.set i (op, p')⟩ = some admitted := by
    intro t admitted ht
    rw [outcomeAt_set hcall]
    by_cases hit : i = t
    · subst hit
      rw [outcomeAt_of_call hcall] at ht
      rw [if_pos rfl]
      exact h.outcome_kept ht
    · rw [if_neg hit, ht]
  refine ⟨hc.places_call hcall h, hc.refused_call hcall h, ?_, ?_⟩
  · intro t ht
    obtain hsame | ⟨task, result, hlog⟩ | ⟨task, htask, hlog⟩ := h.log_cases
    · simp only [hsame] at ht
      exact hkept t true (hc.sent t ht)
    · simp only [hlog, List.mem_append, List.mem_singleton, reduceCtorEq, or_false] at ht
      exact hkept t true (hc.sent t ht)
    · simp only [hlog, List.mem_append, List.mem_singleton, Event.sent.injEq] at ht
      obtain hold | rfl := ht
      · exact hkept t true (hc.sent t hold)
      · exact hkept t true (hc.of_task hcall htask).1
  · obtain hsame | ⟨task, result, hlog⟩ | ⟨task, htask, hlog⟩ := h.log_cases
    · simp only [hsame]
      exact hc.order
    · simp only [hlog]
      exact hc.order.append_recorded task result
    · simp only [hlog]
      exact hc.order.append_sent (hc.of_task hcall htask).2

theorem Accounted.issue {c : System} (hc : Accounted c) (op : Operation) :
    Accounted ⟨c.shared, c.calls ++ [(op, .started)]⟩ := by
  have hplaces : ∀ t, places t ⟨c.shared, c.calls ++ [(op, .started)]⟩ = places t c := by
    intro t
    have hzero : inHand t .started = 0 := rfl
    simp [places, handled, hzero]
  have houtcome : ∀ t, outcomeAt t ⟨c.shared, c.calls ++ [(op, .started)]⟩ = outcomeAt t c := by
    intro t
    simp only [outcomeAt, List.getElem?_append]
    split
    · rfl
    · rename_i hlast
      rw [List.getElem?_eq_none (by omega : c.calls.length ≤ t)]
      cases hget : [(op, Progress.started)][t - c.calls.length]? with
      | none => rfl
      | some call =>
        have hmem := List.mem_of_getElem? hget
        rw [List.mem_singleton.mp hmem]
        rfl
  refine ⟨fun t => ?_, fun t ht => ?_, fun t ht => ?_, hc.order⟩
  · rw [hplaces, houtcome]
    exact hc.places_eq t
  · rw [houtcome] at ht
    exact hc.refused t ht
  · rw [houtcome]
    exact hc.sent t ht

/-! ## The lock, the flags and the drained queue -/

def Progress.holdsLock : Progress → Bool
  | checking | putting | rejecting _ | leaving _ | initiating | leavingFirst | leavingAgain => true
  | _ => false

def Progress.drains : Progress → Bool
  | leavingFirst | draining | aborting _ | drained => true
  | _ => false

def Progress.shuts : Progress → Bool
  | leavingAgain | posting _ | joining | joined => true
  | p => p.drains

def NoTasks (queue : List (Option Item)) : Prop := ∀ item ∈ queue, item = none

structure FlagsHold (s : Service) : Prop where
  accepting : s.accepting = !s.shutdownInitiated
  event : s.shutdownEvent = true → s.accepting = false ∧ NoTasks s.queue

structure CallHolds (i : ℕ) (_ : Operation) (p : Progress) (s : Service) : Prop where
  lock : p.holdsLock = true → s.lock = some i
  putting : p = .putting → s.accepting = true
  shuts : p.shuts = true → s.accepting = false
  drained : p = .drained → NoTasks s.queue

theorem NoTasks.append_none {queue : List (Option Item)} (h : NoTasks queue) :
    NoTasks (queue ++ [none]) := by
  intro item hitem
  obtain hold | hnew := List.mem_append.mp hitem
  · exact h item hold
  · exact List.mem_singleton.mp hnew

theorem NoTasks.tail {queue rest : List (Option Item)} {item : Option Item} (h : NoTasks queue)
    (hqueue : queue = item :: rest) : NoTasks rest := by
  intro other hother
  exact h other (hqueue ▸ List.mem_cons_of_mem _ hother)

theorem Advance.own {i : ℕ} {op : Operation} {p p' : Progress} {s s' : Service}
    (h : Advance maxQueueSize maxWorkers i op p s p' s') (hs : FlagsHold s)
    (hp : CallHolds i op p s) : FlagsHold s' ∧ CallHolds i op p' s' := by
  have hlock := hp.lock
  have hshuts := hp.shuts
  cases h with
  | enqueueLock _ | shutdownLock _ => exact ⟨⟨hs.1, hs.2⟩, fun _ => rfl, nofun, nofun, nofun⟩
  | refuse _ | overflow _ => exact ⟨hs, fun _ => hlock rfl, nofun, nofun, nofun⟩
  | accept haccepting _ => exact ⟨hs, fun _ => hlock rfl, fun _ => haccepting, nofun, nofun⟩
  | put _ =>
    refine ⟨⟨hs.1, fun hevent => ?_⟩, fun _ => hlock rfl, nofun, nofun, nofun⟩
    have hclosed := (hs.event hevent).1
    rw [hp.putting rfl] at hclosed
    cases hclosed
  | recordRejection => exact ⟨⟨hs.1, hs.2⟩, fun _ => hlock rfl, nofun, nofun, nofun⟩
  | enqueueUnlock => exact ⟨⟨hs.1, hs.2⟩, nofun, nofun, nofun, nofun⟩
  | initiate _ =>
    exact ⟨⟨rfl, fun hevent => ⟨rfl, (hs.event hevent).2⟩⟩, fun _ => hlock rfl, nofun, fun _ => rfl,
      nofun⟩
  | again hinitiated =>
    have hclosed : s.accepting = false := by rw [hs.accepting, hinitiated]; rfl
    exact ⟨hs, fun _ => hlock rfl, nofun, fun _ => hclosed, nofun⟩
  | unlockFirst | unlockAgain => exact ⟨⟨hs.1, hs.2⟩, nofun, nofun, fun _ => hshuts rfl, nofun⟩
  | drainTake hqueue =>
    refine ⟨⟨hs.1, fun hevent => ?_⟩, nofun, nofun, fun _ => hshuts rfl, nofun⟩
    exact ⟨(hs.event hevent).1, (hs.event hevent).2.tail hqueue⟩
  | drainRecord => exact ⟨⟨hs.1, hs.2⟩, nofun, nofun, fun _ => hshuts rfl, nofun⟩
  | drainSentinel | posted | join | postFull _ =>
    exact ⟨hs, nofun, nofun, fun _ => hshuts rfl, nofun⟩
  | drainEmpty hempty =>
    refine ⟨hs, nofun, nofun, fun _ => hshuts rfl, fun _ item hitem => ?_⟩
    rw [hempty] at hitem
    cases hitem
  | signal =>
    exact ⟨⟨hs.1, fun _ => ⟨hshuts rfl, hp.drained rfl⟩⟩, nofun, nofun, fun _ => hshuts rfl, nofun⟩
  | post _ =>
    refine ⟨⟨hs.1, fun hevent => ?_⟩, nofun, nofun, fun _ => hshuts rfl, nofun⟩
    exact ⟨(hs.event hevent).1, (hs.event hevent).2.append_none⟩
  | take hqueue =>
    refine ⟨⟨hs.1, fun hevent => ?_⟩, nofun, nofun, nofun, nofun⟩
    exact ⟨(hs.event hevent).1, (hs.event hevent).2.tail hqueue⟩
  | timeout _ | goOn _ | stop _ | sentinel | answered _ | raised _ =>
    exact ⟨hs, nofun, nofun, nofun, nofun⟩
  | send | record => exact ⟨⟨hs.1, hs.2⟩, nofun, nofun, nofun, nofun⟩

theorem Advance.others {i : ℕ} {op : Operation} {p p' : Progress} {s s' : Service}
    (h : Advance maxQueueSize maxWorkers i op p s p' s')
    (hp : CallHolds i op p s) {k : ℕ} (hki : k ≠ i) {opk : Operation} {pk : Progress}
    (hk : CallHolds k opk pk s) : CallHolds k opk pk s' := by
  have hfree : s.lock = none → pk.holdsLock = true → False := by
    intro hnone hholds
    rw [hk.lock hholds] at hnone
    cases hnone
  have hmutex : p.holdsLock = true → pk.holdsLock = true → False := by
    intro hi hholds
    have hsame := (hp.lock hi).symm.trans (hk.lock hholds)
    exact hki (Option.some.inj hsame).symm
  cases h with
  | enqueueLock hnone | shutdownLock hnone =>
    exact ⟨fun hholds => (hfree hnone hholds).elim, hk.putting, hk.shuts, hk.drained⟩
  | enqueueUnlock | unlockFirst | unlockAgain =>
    exact ⟨fun hholds => (hmutex rfl hholds).elim, hk.putting, hk.shuts, hk.drained⟩
  | initiate _ =>
    refine ⟨hk.lock, fun hputting => ?_, fun _ => rfl, hk.drained⟩
    exact (hmutex rfl (by rw [hputting]; rfl)).elim
  | put _ =>
    refine ⟨hk.lock, hk.putting, hk.shuts, fun hdrained => ?_⟩
    have hclosed := hk.shuts (by rw [hdrained]; rfl)
    rw [hp.putting rfl] at hclosed
    cases hclosed
  | drainTake hqueue | take hqueue =>
    exact ⟨hk.lock, hk.putting, hk.shuts, fun hdrained => (hk.drained hdrained).tail hqueue⟩
  | post _ =>
    exact ⟨hk.lock, hk.putting, hk.shuts, fun hdrained => (hk.drained hdrained).append_none⟩
  | _ => exact ⟨hk.lock, hk.putting, hk.shuts, hk.drained⟩

theorem stable_flags (base : ℕ) :
    Stable (fun _ => Progress.started) (Advance maxQueueSize maxWorkers) base FlagsHold CallHolds where
  issue _ _ _ _ _ := ⟨nofun, nofun, nofun, nofun⟩
  own _ _ _ _ _ _ hs hp h := h.own hs hp
  others _ _ _ _ _ _ _ hp h _ _ _ hki hk := h.others hp hki hk

def Drained (c : System) : Prop :=
  c.shared.accepting = false → c.shared.shutdownEvent = true ∨
    ∃ (i : ℕ) (p : Progress), c.calls[i]? = some (Operation.shutdown, p) ∧ p.drains = true

theorem Advance.drains_kept {i : ℕ} {p p' : Progress} {s s' : Service}
    (h : Advance maxQueueSize maxWorkers i .shutdown p s p' s') (hp : p.drains = true) :
    p'.drains = true ∨ s'.shutdownEvent = true := by
  cases h with
  | unlockFirst | drainTake _ | drainRecord | drainSentinel | drainEmpty _ => exact .inl rfl
  | signal => exact .inr rfl
  | _ => cases hp

theorem Advance.flag_cases {i : ℕ} {op : Operation} {p p' : Progress} {s s' : Service}
    (h : Advance maxQueueSize maxWorkers i op p s p' s') :
    (s'.accepting = s.accepting ∨ op = .shutdown ∧ p' = .leavingFirst) ∧
      (s.shutdownEvent = true → s'.shutdownEvent = true) := by
  cases h with
  | initiate _ => exact ⟨.inr ⟨rfl, rfl⟩, id⟩
  | signal => exact ⟨.inl rfl, fun _ => rfl⟩
  | _ => exact ⟨.inl rfl, id⟩

theorem Drained.call {c : System} (hc : Drained c) {i : ℕ} {op : Operation} {p p' : Progress}
    {s' : Service} (hcall : c.calls[i]? = some (op, p))
    (h : Advance maxQueueSize maxWorkers i op p c.shared p' s') :
    Drained ⟨s', c.calls.set i (op, p')⟩ := by
  have hlt := (List.getElem?_eq_some_iff.mp hcall).1
  obtain ⟨hflag, hevent⟩ := h.flag_cases
  intro hclosed
  obtain hsame | ⟨rfl, rfl⟩ := hflag
  · rw [hsame] at hclosed
    obtain hset | ⟨j, pj, hj, hdrains⟩ := hc hclosed
    · exact .inl (hevent hset)
    · by_cases hij : i = j
      · subst hij
        rw [hcall, Option.some.injEq, Prod.mk.injEq] at hj
        obtain ⟨rfl, rfl⟩ := hj
        obtain hstill | hset := h.drains_kept hdrains
        · exact .inr ⟨i, p', List.getElem?_set_self hlt, hstill⟩
        · exact .inl hset
      · exact .inr ⟨j, pj, by rw [← hj, List.getElem?_set_ne hij], hdrains⟩
  · exact .inr ⟨i, .leavingFirst, List.getElem?_set_self hlt, rfl⟩

theorem accounted_of_run {c : System} (h : Run maxQueueSize maxWorkers newService c) :
    Accounted c ∧ Drained c := by
  induction h with
  | refl =>
    refine ⟨⟨fun t => rfl, nofun, nofun, ?_⟩, nofun⟩
    intro before t after hlog
    have hnil := congrArg List.length hlog
    simp [newService] at hnil
  | tail _ hstep ih =>
    cases hstep with
    | issue op =>
      refine ⟨ih.1.issue op, fun hclosed => ?_⟩
      obtain hset | ⟨j, pj, hj, hdrains⟩ := ih.2 hclosed
      · exact .inl hset
      · have hlt := (List.getElem?_eq_some_iff.mp hj).1
        exact .inr ⟨j, pj, by rw [← hj, List.getElem?_append_left hlt], hdrains⟩
    | call hcall hadvance => exact ⟨ih.1.call hcall hadvance, ih.2.call hcall hadvance⟩

theorem flags_of_run {c : System} (h : Run maxQueueSize maxWorkers newService c) :
    Holds FlagsHold CallHolds c := by
  have hevent : newService.shared.shutdownEvent = false := rfl
  refine (stable_flags _).steps ⟨⟨rfl, fun hset => ?_⟩, fun i op p hcall => ?_⟩ h
  · rw [hevent] at hset
    cases hset
  · cases hcall

theorem Advance.task_of_enqueue {i : ℕ} {task : WebhookDeliveryTask} {p p' : Progress}
    {s s' : Service} (h : Advance maxQueueSize maxWorkers i (.enqueue task) p s p' s') :
    p'.task = none := by
  cases h <;> rfl

theorem task_of_enqueue {c : System} (h : Run maxQueueSize maxWorkers newService c) {i : ℕ}
    {task : WebhookDeliveryTask} {p : Progress}
    (hcall : c.calls[i]? = some (Operation.enqueue task, p)) : p.task = none := by
  have hstable : Stable (fun _ => Progress.started) (Advance maxQueueSize maxWorkers)
      newService.calls.length (fun _ => True)
      (fun _ op p _ => ∀ task, op = .enqueue task → p.task = none) :=
    { issue := fun _ _ _ _ _ _ _ => rfl
      own := fun i op p s p' s' _ _ hadvance =>
        ⟨trivial, fun task hop => by subst hop; exact hadvance.task_of_enqueue⟩
      others := fun _ _ _ _ _ _ _ _ _ _ _ _ _ hk => hk }
  have hstart : Holds (fun _ => True) (fun _ op p _ => ∀ task, op = .enqueue task → p.task = none)
      newService := by
    refine ⟨trivial, fun i op p hi => ?_⟩
    cases hi
  exact (hstable.steps hstart h).2 i _ p hcall task rfl

/-! ## Settled exactly once -/

structure Over (c : System) : Prop where
  joined : ∃ i : ℕ, c.calls[i]? = some (Operation.shutdown, Progress.joined)
  shutdowns : ∀ (i : ℕ) (p : Progress), c.calls[i]? = some (Operation.shutdown, p) →
    p = .started ∨ p = .joined
  workers : ∀ (i : ℕ) (p : Progress), c.calls[i]? = some (Operation.worker, p) → p.task = none

theorem handled_of_over {c : System} (h : Run maxQueueSize maxWorkers newService c) (hover : Over c)
    (t : ℕ) : handled t c.calls = 0 := by
  rw [handled, List.sum_eq_zero_iff_forall_eq_nat]
  intro k hk
  obtain ⟨call, hmem, rfl⟩ := List.mem_map.mp hk
  obtain ⟨i, hi⟩ := List.mem_iff_getElem?.mp hmem
  have hnone : call.2.task = none := by
    obtain ⟨op, p⟩ := call
    cases op with
    | enqueue task => exact task_of_enqueue h hi
    | worker => exact hover.workers i p hi
    | shutdown =>
      obtain rfl | rfl := hover.shutdowns i p hi
      · rfl
      · rfl
  rw [inHand, hnone]
  rfl

theorem queued_of_noTasks {queue : List (Option Item)} (h : NoTasks queue) (t : ℕ) :
    queued t queue = 0 := by
  rw [queued, List.countP_eq_zero]
  intro item hitem
  rw [h item hitem]
  simp

theorem noTasks_of_over {c : System} (h : Run maxQueueSize maxWorkers newService c)
    (hover : Over c) : NoTasks c.shared.queue := by
  have hflags := flags_of_run h
  obtain ⟨i, hi⟩ := hover.joined
  have hclosed : c.shared.accepting = false := (hflags.2 i _ _ hi).shuts rfl
  obtain hevent | ⟨j, p, hj, hdrains⟩ := (accounted_of_run h).2 hclosed
  · exact (hflags.1.event hevent).2
  · obtain rfl | rfl := hover.shutdowns j p hj
    · cases hdrains
    · cases hdrains

/-- An admitted task is in one place, and at the end it is recorded. -/
structure TasksSettled (c : System) : Prop where
  admitted : ∀ (t : ℕ) (task : WebhookDeliveryTask),
    c.calls[t]? = some (Operation.enqueue task, Progress.returned true) →
      places t c = 1 ∧ (Over c → recordedCount t c.shared.log = 1)
  refused : ∀ (t : ℕ) (task : WebhookDeliveryTask),
    c.calls[t]? = some (Operation.enqueue task, Progress.returned false) →
      recordedCount t c.shared.log = 1 ∧ Event.sent t ∉ c.shared.log
  none_sent_after : NoneSentAfter c.shared.log

theorem tasksSettled_of_run {c : System} (h : Run maxQueueSize maxWorkers newService c) :
    TasksSettled c := by
  have haccounted := (accounted_of_run h).1
  refine ⟨?_, ?_, haccounted.order⟩
  · intro t task hcall
    have houtcome : outcomeAt t c = some true := outcomeAt_of_call hcall
    have hplaces := haccounted.places_eq t
    rw [houtcome, Option.isSome_some, if_pos rfl] at hplaces
    refine ⟨hplaces, fun hover => ?_⟩
    rw [places] at hplaces
    have hqueued := queued_of_noTasks (noTasks_of_over h hover) t
    have hhandled := handled_of_over h hover t
    omega
  · intro t task hcall
    have houtcome : outcomeAt t c = some false := outcomeAt_of_call hcall
    refine ⟨haccounted.refused t houtcome, fun hsent => ?_⟩
    have hadmitted := haccounted.sent t hsent
    rw [houtcome] at hadmitted
    cases hadmitted

namespace DrainedTask

def task : WebhookDeliveryTask := ⟨"key", 1, "event", none⟩

def closed : System :=
  ⟨{ queue := [], accepting := false, shutdownInitiated := true, shutdownEvent := true, lock := none
     log := [.recorded 0 (abortedByShutdown task)] },
    [(.enqueue task, .returned true), (.shutdown, .joined)]⟩

theorem reachable : Run 1 0 newService closed := by
  have hissued : Run 1 0 newService ⟨{}, [(.enqueue task, .started)]⟩ := .single (.issue newService _)
  have hadmitted := ((((hissued.tail (.call (i := 0) rfl (.enqueueLock rfl))).tail
    (.call (i := 0) rfl (.accept rfl rfl))).tail
    (.call (i := 0) rfl (.put (by simp [isFull])))).tail
    (.call (i := 0) rfl .enqueueUnlock))
  have hclosed := ((((hadmitted.tail (.issue _ .shutdown)).tail
    (.call (i := 1) rfl (.shutdownLock rfl))).tail
    (.call (i := 1) rfl (.initiate rfl))).tail
    (.call (i := 1) rfl .unlockFirst))
  have hdrained := (((hclosed.tail (.call (i := 1) rfl (.drainTake rfl))).tail
    (.call (i := 1) rfl .drainRecord)).tail
    (.call (i := 1) rfl (.drainEmpty rfl)))
  exact (((hdrained.tail (.call (i := 1) rfl .signal)).tail
    (.call (i := 1) rfl .posted)).tail
    (.call (i := 1) rfl .join))

end DrainedTask

theorem tasksSettled_of_drained_task : TasksSettled DrainedTask.closed :=
  tasksSettled_of_run DrainedTask.reachable

end TimeCodeSecurity.Webhooks
