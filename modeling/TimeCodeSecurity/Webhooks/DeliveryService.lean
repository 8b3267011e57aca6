import Mathlib.Data.Rat.Init
import TimeCodeSecurity.Foundations.Interleaving
import Mathlib.Algebra.GroupWithZero.Nat

/-! # The delivery service

`WebhookDeliveryService`: callers put tasks into a bounded queue, workers take them out and hand them to
the client, a shutdown drains what is left. Callers and the first step of a shutdown hold one lock; the
queue, the event and the result sink have steps of their own. A task is known by the call that brought
it, so that the same task brought twice counts twice.
-/
namespace TimeCodeSecurity.Webhooks
open Interleaving
set_option autoImplicit false

inductive DeliveryStatus
  | success | ssrfBlocked | dnsResolutionFailed | connectionTimeout | readTimeout | tlsError
  | connectionRefused | httpClientError | httpRateLimited | httpServerError | redirectBlocked
  | payloadTooLarge | queueOverflow | payloadInvalid | shutdownAborted | internalError
deriving DecidableEq, Repr

structure WebhookDeliveryTask where
  idempotencyKey : String
  organizationId : ℤ
  eventId : String
  scanId : Option String
deriving DecidableEq, Repr

structure ClientExecutionResult where
  success : Bool
  status : DeliveryStatus
  statusCode : Option ℤ
  errorMessage : Option String
  durationMs : ℚ
  attempts : ℕ
  targetIp : Option String := none
deriving DecidableEq, Repr

structure DeliveryResult extends ClientExecutionResult, WebhookDeliveryTask where
  channel : String
deriving DecidableEq, Repr

def maxErrorMessageLength : ℕ := 512

def cut (text : String) : String := String.ofList (text.toList.take maxErrorMessageLength)

def resultOf (task : WebhookDeliveryTask) (res : ClientExecutionResult) : DeliveryResult :=
  { res, task with errorMessage := res.errorMessage.map cut, channel := "WEBHOOK" }

def undelivered (task : WebhookDeliveryTask) (status : DeliveryStatus) (message : String) :
    DeliveryResult :=
  resultOf task
    { success := false, status, statusCode := none, errorMessage := some message, durationMs := 0
      attempts := 0 }

def submissionRejected (task : WebhookDeliveryTask) : DeliveryResult :=
  undelivered task .shutdownAborted "Submission rejected: delivery service is shutting down"

def queueFull (task : WebhookDeliveryTask) (maxQueueSize : ℕ) : DeliveryResult :=
  undelivered task .queueOverflow
    ("Webhook delivery queue full (capacity " ++ toString maxQueueSize ++ ")")

def abortedByShutdown (task : WebhookDeliveryTask) : DeliveryResult :=
  undelivered task .shutdownAborted "Aborted due to service shutdown before execution"

def workerException (task : WebhookDeliveryTask) (exc : String) : DeliveryResult :=
  undelivered task .internalError ("Internal worker exception: " ++ exc)

/-! ## The service -/

abbrev Item := ℕ × WebhookDeliveryTask

inductive Event
  | sent (task : ℕ)
  | recorded (task : ℕ) (result : DeliveryResult)
deriving DecidableEq, Repr

/-- A sentinel is an item that is missing; `log` has what was handed to the client and to the sink. -/
structure Service where
  queue : List (Option Item) := []
  accepting : Bool := true
  shutdownInitiated : Bool := false
  shutdownEvent : Bool := false
  lock : Option ℕ := none
  log : List Event := []

inductive Operation
  | enqueue (task : WebhookDeliveryTask)
  | shutdown
  | worker

inductive Progress
  | started
  -- `enqueue`, from the lock on
  | checking
  | putting
  | rejecting (result : DeliveryResult)
  | leaving (admitted : Bool)
  | returned (admitted : Bool)
  -- `shutdown`
  | initiating
  | leavingFirst
  | leavingAgain
  | draining
  | aborting (item : Option Item)
  | drained
  | posting (sentinels : ℕ)
  | joining
  | joined
  -- `_worker_loop`
  | timedOut
  | took (item : Option Item)
  | sending (item : Item)
  | recording (item : Item) (result : DeliveryResult)
  | exited
deriving DecidableEq, Repr

/-- `queue.Full`; a capacity of zero is no bound. -/
def isFull (maxQueueSize : ℕ) (queue : List (Option Item)) : Prop :=
  0 < maxQueueSize ∧ maxQueueSize ≤ queue.length

section Steps

variable (maxQueueSize maxWorkers : ℕ)

/-- The atomic steps of `enqueue`, `shutdown` and a worker. -/
inductive Advance : ℕ → Operation → Progress → Service → Progress → Service → Prop
  | enqueueLock {i task s} (h : s.lock = none) :
      Advance i (.enqueue task) .started s .checking { s with lock := some i }
  | refuse {i task s} (h : s.accepting = false ∨ s.shutdownEvent = true) :
      Advance i (.enqueue task) .checking s (.rejecting (submissionRejected task)) s
  | accept {i task s} (haccepting : s.accepting = true) (hevent : s.shutdownEvent = false) :
      Advance i (.enqueue task) .checking s .putting s
  | put {i task s} (h : ¬ isFull maxQueueSize s.queue) :
      Advance i (.enqueue task) .putting s (.leaving true)
        { s with queue := s.queue ++ [some (i, task)] }
  | overflow {i task s} (h : isFull maxQueueSize s.queue) :
      Advance i (.enqueue task) .putting s (.rejecting (queueFull task maxQueueSize)) s
  | recordRejection {i task s result} :
      Advance i (.enqueue task) (.rejecting result) s (.leaving false)
        { s with log := s.log ++ [.recorded i result] }
  | enqueueUnlock {i task s admitted} :
      Advance i (.enqueue task) (.leaving admitted) s (.returned admitted) { s with lock := none }
  | shutdownLock {i s} (h : s.lock = none) :
      Advance i .shutdown .started s .initiating { s with lock := some i }
  | initiate {i s} (h : s.shutdownInitiated = false) :
      Advance i .shutdown .initiating s .leavingFirst
        { s with shutdownInitiated := true, accepting := false }
  | again {i s} (h : s.shutdownInitiated = true) :
      Advance i .shutdown .initiating s .leavingAgain s
  | unlockFirst {i s} : Advance i .shutdown .leavingFirst s .draining { s with lock := none }
  | unlockAgain {i s} : Advance i .shutdown .leavingAgain s .joining { s with lock := none }
  | drainTake {i s item rest} (h : s.queue = item :: rest) :
      Advance i .shutdown .draining s (.aborting item) { s with queue := rest }
  | drainRecord {i s t task} :
      Advance i .shutdown (.aborting (some (t, task))) s .draining
        { s with log := s.log ++ [.recorded t (abortedByShutdown task)] }
  | drainSentinel {i s} : Advance i .shutdown (.aborting none) s .draining s
  | drainEmpty {i s} (h : s.queue = []) : Advance i .shutdown .draining s .drained s
  | signal {i s} :
      Advance i .shutdown .drained s (.posting maxWorkers) { s with shutdownEvent := true }
  | post {i s k} (h : ¬ isFull maxQueueSize s.queue) :
      Advance i .shutdown (.posting (k + 1)) s (.posting k) { s with queue := s.queue ++ [none] }
  | postFull {i s k} (h : isFull maxQueueSize s.queue) :
      Advance i .shutdown (.posting (k + 1)) s (.posting k) s
  | posted {i s} : Advance i .shutdown (.posting 0) s .joining s
  | join {i s} : Advance i .shutdown .joining s .joined s
  | take {i s item rest} (h : s.queue = item :: rest) :
      Advance i .worker .started s (.took item) { s with queue := rest }
  | timeout {i s} (h : s.queue = []) : Advance i .worker .started s .timedOut s
  | goOn {i s} (h : s.shutdownEvent = false) : Advance i .worker .timedOut s .started s
  | stop {i s} (h : s.shutdownEvent = true) : Advance i .worker .timedOut s .exited s
  | sentinel {i s} : Advance i .worker (.took none) s .exited s
  | send {i s t task} :
      Advance i .worker (.took (some (t, task))) s (.sending (t, task))
        { s with log := s.log ++ [.sent t] }
  -- whatever the client answers, or raises
  | answered {i s t task} (res : ClientExecutionResult) :
      Advance i .worker (.sending (t, task)) s (.recording (t, task) (resultOf task res)) s
  | raised {i s t task} (exc : String) :
      Advance i .worker (.sending (t, task)) s (.recording (t, task) (workerException task exc)) s
  | record {i s t task result} :
      Advance i .worker (.recording (t, task) result) s .started
        { s with log := s.log ++ [.recorded t result] }

abbrev Run : Config Service Operation Progress → Config Service Operation Progress → Prop :=
  Steps (fun _ => Progress.started) (Advance maxQueueSize maxWorkers)

end Steps

/-- The service before its workers are started; they start like any other call. -/
def newService : Config Service Operation Progress := ⟨{}, []⟩

end TimeCodeSecurity.Webhooks
