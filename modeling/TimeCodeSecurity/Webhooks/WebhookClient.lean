import TimeCodeSecurity.Webhooks.DeliveryService
import TimeCodeSecurity.Webhooks.SsrfGuard

/-! # The webhook client

`WebhookClient.send`: one validation, then at most two attempts, all of it within ten seconds. The clock is
read again and again, so it is the sequence of its readings; what an attempt comes to is up to the network.
An effect carries the reading that its time was taken from.
-/
namespace TimeCodeSecurity.Webhooks.Client
open Ssrf
set_option autoImplicit false

structure Request where
  path : String
  headers : List (String × String)
  body : List UInt8

/-- `hmac` is the hexadecimal HMAC of a body under a secret. -/
def requestOf (hmac : String → List UInt8 → String) (parsed : SplitResult) (secretToken : Option String)
    (idempotencyKey : String) (payload : List UInt8) : Request where
  path := (if parsed.path = "" then "/" else parsed.path) ++
    if parsed.query = "" then "" else "?" ++ parsed.query
  headers :=
    [("Content-Type", "application/json; charset=utf-8"),
      ("User-Agent", "TimeCodeSecurity-Webhook-Delivery/1.0"),
      ("Content-Length", toString payload.length)] ++
    (if idempotencyKey = "" then [] else [("Idempotency-Key", idempotencyKey)]) ++
    ((secretToken.filter (· ≠ "")).map fun token =>
      ("X-TIMECODESECURITY-Signature", "sha256=" ++ hmac token payload)).toList
  body := payload

/-- What is raised in an attempt, as the handlers tell it apart. -/
inductive Failure
  | timeout | tls | refused
  | other (text : String)

/-- `retryAfter` is the number that `int` reads in the header, if there is one. -/
structure Response where
  statusCode : ℤ
  retryAfter : Option ℤ

/-- What the attempts come to, counted from one. -/
structure Network where
  connect : ℕ → Except Failure Unit
  respond : ℕ → Except Failure Response

inductive Verdict
  | success
  | final (status : DeliveryStatus) (message : String)
  | retry (delay margin : ℚ) (status : DeliveryStatus) (message : String)

def Failure.verdict : Failure → Verdict
  | timeout => .retry 1 0 .connectionTimeout "connect timeout"
  | tls => .final .tlsError "TLS verification failed"
  | refused => .final .connectionRefused "connection refused"
  | other text => .final .internalError (cut ("Delivery error: " ++ text))

def Response.verdict (r : Response) : Verdict :=
  let message := "HTTP " ++ toString r.statusCode
  if r.statusCode ∈ [301, 302, 303, 307, 308] then .final .redirectBlocked "HTTP redirect blocked"
  else if 200 ≤ r.statusCode ∧ r.statusCode < 300 then .success
  else if r.statusCode = 429 then
    match r.retryAfter with
    | some val =>
      if 0 < val ∧ val ≤ 2 then .retry val (1 / 2) .httpRateLimited "HTTP 429"
      else .final .httpRateLimited "HTTP 429"
    | none => .final .httpRateLimited "HTTP 429"
  else if 400 ≤ r.statusCode ∧ r.statusCode < 500 then .final .httpClientError message
  else if 500 ≤ r.statusCode ∧ r.statusCode < 600 then .retry 1 0 .httpServerError message
  else .final .httpServerError message

/-! ## Sending -/

inductive Action
  | connect (ip hostname : String) (port : ℕ)
  | request (r : Request)
  | sleep

structure Effect where
  action : Action
  reading : ℕ
  seconds : ℚ

abbrev Outcome := ClientExecutionResult × List Effect

def after (log : List Effect) (out : Outcome) : Outcome := (out.1, log ++ out.2)

section
variable (net : Network) (clock : ℕ → ℚ) (request : Request)

/-- `remaining_deadline()`. -/
def remaining (n : ℕ) : ℚ := clock 0 + 10 - clock n

section
variable (pinned : SsrfValidationResult)

def failed (status : DeliveryStatus) (statusCode : Option ℤ) (message : String) (n attempts : ℕ) : Outcome :=
  ({ success := false, status, statusCode, errorMessage := some message
     durationMs := (clock n - clock 0) * 1000, attempts, targetIp := some pinned.targetIp }, [])

/-- The end of an attempt, or the pause before the next one. -/
def settle (again : ℕ → Outcome) (left attempts n : ℕ) (code : Option ℤ) : Verdict → Outcome
  | .success =>
    ({ success := true, status := .success, statusCode := code, errorMessage := none
       durationMs := (clock n - clock 0) * 1000, attempts, targetIp := some pinned.targetIp }, [])
  | .final status message => failed clock pinned status code message n attempts
  | .retry delay margin status message =>
    -- the clock is not read where no attempt is left
    if left = 0 then failed clock pinned status code message n attempts
    else if delay + margin < remaining clock n then after [⟨.sleep, n, delay⟩] (again (n + 1))
    else failed clock pinned status code message (n + 1) attempts

def loop : ℕ → ℕ → ℕ → Outcome
  | 0, attempts, n => failed clock pinned .httpServerError none "Maximum delivery attempts exceeded" n attempts
  | left + 1, attempts, n =>
    if remaining clock n ≤ 0 then
      failed clock pinned .connectionTimeout none "overall deadline exceeded before connect" (n + 1) (attempts + 1)
    else
      after [⟨.connect pinned.targetIp pinned.hostname pinned.port, n, min 3 (remaining clock n)⟩] <|
        match net.connect (attempts + 1) with
        | .error f => settle clock pinned (loop left (attempts + 1)) left (attempts + 1) (n + 1) none f.verdict
        | .ok () =>
          if remaining clock (n + 1) ≤ 0 then
            failed clock pinned .readTimeout none "overall deadline exceeded before read" (n + 2) (attempts + 1)
          else
            after [⟨.request request, n + 1, min 5 (remaining clock (n + 1))⟩] <|
              match net.respond (attempts + 1) with
              | .error f => settle clock pinned (loop left (attempts + 1)) left (attempts + 1) (n + 2) none f.verdict
              | .ok r =>
                settle clock pinned (loop left (attempts + 1)) left (attempts + 1) (n + 2) (some r.statusCode)
                  r.verdict

end

def maxAttempts : ℕ := 2

def undeliverable (status : DeliveryStatus) (message : String) (durationMs : ℚ) : Outcome :=
  ({ success := false, status, statusCode := none, errorMessage := some message, durationMs, attempts := 0 }, [])

def send : Except SsrfError SsrfValidationResult → Outcome := fun validated =>
  if remaining clock 1 ≤ 0 then
    undeliverable .connectionTimeout "overall deadline exceeded before DNS resolution" 0
  else
    let elapsed := (clock 2 - clock 0) * 1000
    match validated with
    | .error (.dnsResolution message) => undeliverable .dnsResolutionFailed (cut message) elapsed
    | .error (.validation message) => undeliverable .ssrfBlocked (cut message) elapsed
    | .error (.valueError text) =>
      undeliverable .ssrfBlocked (cut ("SSRF validation exception: " ++ text)) elapsed
    | .ok pinned =>
      if remaining clock 2 ≤ 0 then
        failed clock pinned .connectionTimeout none "overall deadline exceeded after DNS resolution" 3 0
      else loop net clock request pinned maxAttempts 0 3

end

def Network.verdict (net : Network) (k : ℕ) : Verdict :=
  match net.connect k with
  | .error f => f.verdict
  | .ok () =>
    match net.respond k with
    | .error f => f.verdict
    | .ok r => r.verdict

def Verdict.isRetry : Verdict → Bool
  | retry _ _ _ _ => true
  | _ => false

/-- A pause is for at most two seconds, and only a success is called one. -/
def Verdict.Sound : Verdict → Prop
  | success => True
  | final status _ => status ≠ .success
  | retry delay margin status _ => 0 < delay ∧ delay ≤ 2 ∧ 0 ≤ margin ∧ status ≠ .success

theorem Failure.sound_verdict (f : Failure) : f.verdict.Sound := by
  cases f with
  | timeout => exact ⟨by norm_num, by norm_num, le_refl 0, by decide⟩
  | _ => exact fun h => by cases h

theorem Response.sound_verdict (r : Response) : r.verdict.Sound := by
  unfold Response.verdict
  dsimp only
  split_ifs with hredirect hsuccess hlimited
  · exact fun h => by cases h
  · trivial
  · split
    next val =>
      split_ifs with hval
      · refine ⟨?_, ?_, by norm_num, by decide⟩
        · exact_mod_cast hval.1
        · exact_mod_cast hval.2
      · exact fun h => by cases h
    · exact fun h => by cases h
  · exact fun h => by cases h
  · exact ⟨by norm_num, by norm_num, le_refl 0, by decide⟩
  · exact fun h => by cases h

theorem Failure.verdict_ne_success (f : Failure) : f.verdict ≠ .success := by
  cases f <;> exact fun h => by cases h

/-! ## The order of the effects -/

def Action.isConnect : Action → Bool
  | connect _ _ _ => true
  | _ => false

/-- A request goes over a new connection, and after a pause the next thing is a connection. -/
def Action.isFollowedBy : Action → Action → Bool
  | connect _ _ _, request _ => true
  | connect _ _ _, sleep => true
  | request _, sleep => true
  | sleep, connect _ _ _ => true
  | _, _ => false

def Follows (e f : Effect) : Prop := e.reading < f.reading ∧ e.action.isFollowedBy f.action = true

def connects (log : List Effect) : ℕ := log.countP (·.action.isConnect)

section
variable (net : Network) (clock : ℕ → ℚ) (request : Request) (pinned : SsrfValidationResult)

/-- What the effect may take has room before the deadline, and it goes to the pinned address. -/
def Fits (e : Effect) : Prop :=
  0 < e.seconds ∧ clock e.reading + e.seconds ≤ clock 0 + 10 ∧
    match e.action with
    | .connect ip hostname port =>
      ip = pinned.targetIp ∧ hostname = pinned.hostname ∧ port = pinned.port ∧ e.seconds ≤ 3
    | .request r => r = request ∧ e.seconds ≤ 5
    | .sleep => e.seconds ≤ 2

theorem room_of_min (bound : ℚ) (n : ℕ) : clock n + min bound (remaining clock n) ≤ clock 0 + 10 := by
  have hmin := min_le_right bound (remaining clock n)
  rw [remaining] at hmin ⊢
  linarith

/-- What holds of what follows `prev`, with `attempts` begun and `left` more to come: the attempts from `first`
on that are not the last came to a pause. -/
structure Law (prev : Effect) (first attempts left : ℕ) (out : Outcome) : Prop where
  fits : ∀ e ∈ out.2, Fits clock request pinned e
  ordered : (prev :: out.2).IsChain Follows
  counted : attempts + connects out.2 ≤ out.1.attempts
  attempted : out.1.attempts ≤ attempts + connects out.2 + 1
  bounded : out.1.attempts ≤ attempts + left
  retried : ∀ k, first ≤ k → k < out.1.attempts → (net.verdict k).isRetry = true
  succeeded : out.1.success = true ↔
    net.verdict out.1.attempts = .success ∧ ∃ e ∈ (prev :: out.2).getLast?, e.action = .request request
  status : out.1.status = .success ↔ out.1.success = true

variable {net clock request pinned} {prev e : Effect} {first attempts left n : ℕ} {out : Outcome}

theorem Law.failed {status : DeliveryStatus} (code : Option ℤ) (message : String) (r : ℕ) {k : ℕ}
    (hlow : attempts ≤ k) (hhigh : k ≤ attempts + 1) (hleft : k ≤ attempts + left) (hfirst : k ≤ first)
    (hstatus : status ≠ .success) (hfail : net.verdict k = .success → prev.action ≠ .request request) :
    Law net clock request pinned prev first attempts left (failed clock pinned status code message r k) where
  fits e he := absurd he List.not_mem_nil
  ordered := .singleton prev
  counted := hlow
  attempted := hhigh
  bounded := hleft
  retried i hlow hi := absurd (hi.trans_le hfirst) (Nat.not_lt.mpr hlow)
  succeeded := by
    refine iff_of_false Bool.false_ne_true ?_
    rintro ⟨hsuccess, e, he, hrequest⟩
    obtain rfl := Option.mem_some.mp he
    exact hfail hsuccess hrequest
  status := iff_of_false hstatus Bool.false_ne_true

/-- One effect more in front. -/
theorem Law.after (hfits : Fits clock request pinned e) (hfollows : Follows prev e)
    (h : Law net clock request pinned e first (attempts + connects [e]) left out) :
    Law net clock request pinned prev first attempts (left + connects [e]) (after [e] out) := by
  have hconnects : connects (Client.after [e] out).2 = connects [e] + connects out.2 := List.countP_append
  have hcounted := h.counted
  have hattempted := h.attempted
  have hbounded := h.bounded
  refine ⟨List.forall_mem_cons.mpr ⟨hfits, h.fits⟩, .cons_cons hfollows h.ordered, ?_, ?_, ?_, h.retried, ?_, h.status⟩
  · rw [hconnects, ← Nat.add_assoc]
    exact hcounted
  · rw [hconnects, ← Nat.add_assoc]
    exact hattempted
  · show out.1.attempts ≤ attempts + (left + connects [e])
    omega
  · exact h.succeeded

theorem Law.settle {again : ℕ → Outcome} {v : Verdict} (code : Option ℤ) (hsound : v.Sound)
    (hverdict : net.verdict attempts = v) (hprev : prev.reading < n ∧ prev.action.isFollowedBy .sleep = true)
    (hsent : v = .success → prev.action = .request request)
    (hagain : ∀ n pause, Law net clock request pinned ⟨.sleep, n, pause⟩ (attempts + 1) attempts left (again (n + 1))) :
    Law net clock request pinned prev attempts attempts left
      (settle clock pinned again left attempts n code v) := by
  have hfailed : ∀ (status : DeliveryStatus) (message : String) (r : ℕ), status ≠ .success → v ≠ .success →
      Law net clock request pinned prev attempts attempts left
        (Client.failed clock pinned status code message r attempts) := by
    intro status message r hstatus hv
    refine .failed code message r (Nat.le_refl _) (Nat.le_succ _) (Nat.le_add_right _ _) (Nat.le_refl _) hstatus ?_
    intro hsuccess
    exact absurd (hverdict.symm.trans hsuccess) hv
  cases v with
  | success =>
    refine ⟨fun e he => absurd he List.not_mem_nil, .singleton prev, Nat.le_refl _, Nat.le_succ _, Nat.le_add_right _ _,
      fun k hlow hk => absurd hk (Nat.not_lt.mpr hlow), ?_, iff_of_true rfl rfl⟩
    exact iff_of_true rfl ⟨hverdict, prev, rfl, hsent rfl⟩
  | final status message => exact hfailed status message n hsound (fun h => by cases h)
  | retry delay margin status message =>
    obtain ⟨hpos, htwo, hmargin, hstatus⟩ := hsound
    unfold Client.settle
    dsimp only
    split_ifs with hleft hroom
    · exact hfailed status message n hstatus (fun h => by cases h)
    · have hfits : Fits clock request pinned ⟨.sleep, n, delay⟩ := by
        refine ⟨hpos, ?_, htwo⟩
        rw [remaining] at hroom
        linarith
      have hlaw : Law net clock request pinned prev (attempts + 1) attempts left _ := .after hfits hprev (hagain n delay)
      refine { hlaw with retried := fun k hlow hk => ?_ }
      rcases Nat.eq_or_lt_of_le hlow with rfl | hlow
      · rw [hverdict]
        rfl
      · exact hlaw.retried k hlow hk
    · exact hfailed status message (n + 1) hstatus (fun h => by cases h)

theorem loop_law (left attempts n : ℕ) (pause : ℚ) :
    Law net clock request pinned ⟨.sleep, n, pause⟩ (attempts + 1) attempts left
      (loop net clock request pinned left attempts (n + 1)) := by
  induction left generalizing attempts n pause with
  | zero =>
    exact .failed none _ _ (Nat.le_refl _) (Nat.le_succ _) (Nat.le_refl _) (Nat.le_succ _) (by decide)
      fun _ h => by cases h
  | succ left ih =>
    rw [loop]
    by_cases hexpired : remaining clock (n + 1) ≤ 0
    · rw [if_pos hexpired]
      exact .failed none _ _ (Nat.le_succ _) (Nat.le_refl _) (by omega) (Nat.le_refl _) (by decide) fun _ h => by cases h
    rw [if_neg hexpired]
    have hconnect : Fits clock request pinned ⟨.connect pinned.targetIp pinned.hostname pinned.port, n + 1,
        min 3 (remaining clock (n + 1))⟩ :=
      ⟨lt_min (by norm_num) (not_le.mp hexpired), room_of_min _ _ _, rfl, rfl, rfl, min_le_left _ _⟩
    refine .after hconnect ⟨Nat.lt_succ_self n, rfl⟩ ?_
    cases hconnected : net.connect (attempts + 1) with
    | error f =>
      have hverdict : net.verdict (attempts + 1) = f.verdict := by rw [Network.verdict, hconnected]
      exact .settle none f.sound_verdict hverdict ⟨Nat.lt_succ_self _, rfl⟩ (fun h => absurd h f.verdict_ne_success)
        (fun n pause => ih (attempts + 1) n pause)
    | ok connected =>
      dsimp only
      by_cases hlate : remaining clock (n + 1 + 1) ≤ 0
      · rw [if_pos hlate]
        exact .failed none _ _ (Nat.le_refl _) (Nat.le_succ _) (Nat.le_add_right _ _) (Nat.le_refl _) (by decide)
          fun _ h => by cases h
      rw [if_neg hlate]
      have hrequest : Fits clock request pinned ⟨.request request, n + 1 + 1, min 5 (remaining clock (n + 1 + 1))⟩ :=
        ⟨lt_min (by norm_num) (not_le.mp hlate), room_of_min _ _ _, rfl, min_le_left _ _⟩
      refine .after hrequest ⟨Nat.lt_succ_self _, rfl⟩ ?_
      cases hresponse : net.respond (attempts + 1) with
      | error f =>
        have hverdict : net.verdict (attempts + 1) = f.verdict := by rw [Network.verdict, hconnected, hresponse]
        exact .settle none f.sound_verdict hverdict ⟨Nat.lt_succ_self _, rfl⟩ (fun _ => rfl)
          (fun n pause => ih (attempts + 1) n pause)
      | ok r =>
        have hverdict : net.verdict (attempts + 1) = r.verdict := by rw [Network.verdict, hconnected, hresponse]
        exact .settle (some r.statusCode) r.sound_verdict hverdict ⟨Nat.lt_succ_self _, rfl⟩ (fun _ => rfl)
          (fun n pause => ih (attempts + 1) n pause)

variable (net clock request) (validated : Except SsrfError SsrfValidationResult)

theorem send_undeliverable_or_law :
    (∃ status message durationMs, status ≠ .success ∧
      send net clock request validated = undeliverable status message durationMs) ∨
    ∃ pinned, validated = .ok pinned ∧
      Law net clock request pinned ⟨.sleep, 2, 0⟩ 1 0 maxAttempts (send net clock request validated) := by
  unfold send
  by_cases hexpired : remaining clock 1 ≤ 0
  · rw [if_pos hexpired]
    exact .inl ⟨_, _, _, by decide, rfl⟩
  rw [if_neg hexpired]
  dsimp only
  cases validated with
  | error e => cases e <;> exact .inl ⟨_, _, _, by decide, rfl⟩
  | ok pinned =>
    refine .inr ⟨pinned, rfl, ?_⟩
    dsimp only
    split_ifs
    · exact .failed none _ _ (Nat.le_refl _) (Nat.le_succ _) (Nat.zero_le _) (Nat.zero_le _) (by decide) fun _ h => by cases h
    · exact loop_law maxAttempts 0 2 0

/-- What a delivery keeps to, whatever the clock reads and the network does. -/
structure Paced (out : Outcome) : Prop where
  pinned : out.2 = [] ∨ ∃ pinned, validated = .ok pinned ∧ ∀ e ∈ out.2, Fits clock request pinned e
  ordered : out.2.IsChain Follows
  first : ∀ e ∈ out.2.head?, Action.sleep.isFollowedBy e.action = true
  attempts : connects out.2 ≤ out.1.attempts ∧ out.1.attempts ≤ min maxAttempts (connects out.2 + 1)
  retried : ∀ k, 0 < k → k < out.1.attempts → (net.verdict k).isRetry = true
  succeeded : out.1.success = true ↔
    net.verdict out.1.attempts = .success ∧ ∃ e ∈ out.2.getLast?, e.action = .request request
  status : out.1.status = .success ↔ out.1.success = true

/-- **A delivery.** At most two attempts, the second one only after an answer that may pass; all of it to the
address that was validated and before the deadline. -/
theorem send_paced : Paced net clock request validated (send net clock request validated) := by
  rcases send_undeliverable_or_law net clock request validated with ⟨status, message, ms, hstatus, heq⟩ | ⟨p, hp, h⟩
  · rw [heq]
    refine ⟨.inl rfl, .nil, ?_, ⟨Nat.le_refl _, Nat.zero_le _⟩, ?_, ?_, ?_⟩
    · intro e he
      cases he
    · intro k _ hk
      exact absurd hk (Nat.not_lt_zero k)
    · exact iff_of_false Bool.false_ne_true fun ⟨_, e, he, _⟩ => by cases he
    · exact iff_of_false hstatus Bool.false_ne_true
  · obtain ⟨hfirst, hordered⟩ := List.isChain_cons.mp h.ordered
    have hcounted := h.counted
    have hattempted := h.attempted
    have hbounded := h.bounded
    refine ⟨.inr ⟨p, hp, h.fits⟩, hordered, fun e he => (hfirst e he).2, ⟨by omega, le_min (by omega) (by omega)⟩,
      h.retried, h.succeeded.trans (and_congr_right fun _ => ?_), h.status⟩
    rw [List.getLast?_cons]
    cases (send net clock request validated).2.getLast? <;> simp

/-! ## Where a delivery goes -/

variable {clock request}

theorem Fits.of_connect {p : SsrfValidationResult} {e : Effect} {ip hostname : String} {port : ℕ}
    (h : Fits clock request p e) (hact : e.action = .connect ip hostname port) :
    ip = p.targetIp ∧ hostname = p.hostname ∧ port = p.port := by
  obtain ⟨-, -, h⟩ := h
  rw [hact] at h
  exact ⟨h.1, h.2.1, h.2.2.1⟩

theorem Fits.of_request {p : SsrfValidationResult} {e : Effect} {r : Request} (h : Fits clock request p e)
    (hact : e.action = .request r) : r = request := by
  obtain ⟨-, -, h⟩ := h
  rw [hact] at h
  exact h.1

end

theorem endpoint_of_validateRecords {I : Ipaddress} {ep : Endpoint} {records : List String}
    {result : SsrfValidationResult} (h : validateRecords I ep records = .ok result) :
    result.hostname = ep.hostname ∧ result.port = ep.port := by
  unfold validateRecords at h
  split at h
  · cases h
  cases hinspect : inspect I ep.hostname [] records [] with
  | error e =>
    rw [hinspect] at h
    cases h
  | ok out =>
    rw [hinspect] at h
    simp only [Except.bind] at h
    split at h
    · cases h
    cases hselect : selectDeterministicIp I out with
    | error e =>
      rw [hselect] at h
      cases h
    | ok targetIp =>
      rw [hselect] at h
      obtain rfl := Except.ok.inj h
      exact ⟨rfl, rfl⟩

/-- The pinned address is one of the records, and none of the networks that are refused has it. -/
theorem pinned_of_validateUrl {I : Ipaddress} {U : Urllib} {dns : String → ℕ → DnsAnswer} {url : String}
    {result : SsrfValidationResult} (h : validateUrl I U dns url = .ok result) :
    ∃ ep records a, syntacticStages U url = .ok ep ∧ resolvedRecords I dns ep = .ok records ∧
      result.hostname = ep.hostname ∧ result.port = ep.port ∧ I.parse result.targetIp = .ok a ∧
      (∃ r ∈ records, I.parse r = .ok a) ∧ a.isListed = false ∧ a.isPrivate6 I = false := by
  unfold validateUrl at h
  cases hurl : syntacticStages U url with
  | error e =>
    rw [hurl] at h
    cases h
  | ok ep =>
    rw [hurl] at h
    cases hrecords : resolvedRecords I dns ep with
    | error e =>
      simp only [Except.bind, hrecords] at h
      cases h
    | ok records =>
      simp only [Except.bind, hrecords] at h
      obtain ⟨hne, hpass⟩ := (validateRecords_iff ep records).mp ⟨result, h⟩
      obtain ⟨result', a, hresult, ⟨⟨r, hr, hparse⟩, -⟩, htarget⟩ := exists_target ep hne hpass
      obtain rfl := Except.ok.inj (h.symm.trans hresult)
      obtain ⟨b, hb, hfree⟩ := hpass r hr
      obtain rfl := Except.ok.inj (hparse.symm.trans hb)
      obtain ⟨hhostname, hport⟩ := endpoint_of_validateRecords h
      refine ⟨ep, records, a, rfl, hrecords, hhostname, hport, ?_, ⟨r, hr, hparse⟩, ?_⟩
      · rw [htarget]
        exact I.parse_shown r a hparse
      · exact (isIpBlocked_eq_none_iff a).mp hfree

section
variable (I : Ipaddress) (U : Urllib) (dns : String → ℕ → DnsAnswer) (url : String)
  (hmac : String → List UInt8 → String) (secretToken : Option String) (idempotencyKey : String)
  (payload : List UInt8)

/-- Connections go to an address of the endpoint that is not refused, and what is signed is what is sent. -/
structure Hardened (out : Outcome) : Prop where
  unblocked : ∀ e ∈ out.2, ∀ ip hostname port, e.action = .connect ip hostname port →
    ∃ ep records a, syntacticStages U url = .ok ep ∧ resolvedRecords I dns ep = .ok records ∧
      hostname = ep.hostname ∧ port = ep.port ∧ I.parse ip = .ok a ∧ (∃ r ∈ records, I.parse r = .ok a) ∧
      a.isListed = false ∧ a.isPrivate6 I = false
  signed : ∀ e ∈ out.2, ∀ r, e.action = .request r → r.body = payload ∧
    (∀ value, ("X-TIMECODESECURITY-Signature", value) ∈ r.headers ↔
      ∃ token, secretToken = some token ∧ token ≠ "" ∧ value = "sha256=" ++ hmac token r.body) ∧
    ∀ value, ("Idempotency-Key", value) ∈ r.headers ↔ idempotencyKey ≠ "" ∧ value = idempotencyKey

theorem signature_mem_requestOf (parsed : SplitResult) (value : String) : ("X-TIMECODESECURITY-Signature", value) ∈
    (requestOf hmac parsed secretToken idempotencyKey payload).headers ↔
      ∃ token, secretToken = some token ∧ token ≠ "" ∧ value = "sha256=" ++ hmac token payload := by
  have hkey : ("X-TIMECODESECURITY-Signature", value) ∉
      (if idempotencyKey = "" then [] else [("Idempotency-Key", idempotencyKey)]) := by
    split_ifs <;> simp
  simp only [requestOf, List.mem_append, hkey, or_false]
  cases secretToken with
  | none => simp
  | some token => by_cases htoken : token = "" <;> simp [Option.filter, htoken]

theorem key_mem_requestOf (parsed : SplitResult) (value : String) : ("Idempotency-Key", value) ∈
    (requestOf hmac parsed secretToken idempotencyKey payload).headers ↔
      idempotencyKey ≠ "" ∧ value = idempotencyKey := by
  simp only [requestOf, List.mem_append]
  by_cases hkey : idempotencyKey = ""
  · simp [hkey]
  · simp [hkey]

/-- **Where a delivery goes.** Whatever the resolver answers, no refused address is connected to, and the
signature is over the bytes that are sent. -/
theorem send_hardened (net : Network) (clock : ℕ → ℚ) (parsed : SplitResult) :
    Hardened I U dns url hmac secretToken idempotencyKey payload
      (send net clock (requestOf hmac parsed secretToken idempotencyKey payload) (validateUrl I U dns url)) := by
  set request := requestOf hmac parsed secretToken idempotencyKey payload with hrequest
  rcases send_undeliverable_or_law net clock request (validateUrl I U dns url) with ⟨status, message, ms, -, heq⟩ | h
  · rw [heq]
    exact ⟨fun e he => absurd he List.not_mem_nil, fun e he => absurd he List.not_mem_nil⟩
  obtain ⟨p, hp, hlaw⟩ := h
  obtain ⟨ep, records, a, hurl, hrecords, hhostname, hport, hparse, hmem, hfree⟩ := pinned_of_validateUrl hp
  constructor
  · intro e he ip hostname port hact
    obtain ⟨rfl, rfl, rfl⟩ := (hlaw.fits e he).of_connect hact
    exact ⟨ep, records, a, hurl, hrecords, hhostname, hport, hparse, hmem, hfree⟩
  · intro e he r hact
    obtain rfl := (hlaw.fits e he).of_request hact
    exact ⟨rfl, signature_mem_requestOf hmac secretToken idempotencyKey payload parsed,
      key_mem_requestOf hmac secretToken idempotencyKey payload parsed⟩

end

end TimeCodeSecurity.Webhooks.Client
