import TimeCodeSecurity.Foundations.UrlSplit
import TimeCodeSecurity.Notifications.Formatters
import TimeCodeSecurity.Webhooks.SsrfGuard

/-! # Idempotency keys

`webhook_adapter.py`: the canonical form of an endpoint, and the key of a delivery, which is the digest of the
organization, the endpoint and the key of the event with colons between them.
-/
namespace TimeCodeSecurity.Webhooks.Keys
open Ssrf Policy
set_option autoImplicit false

structure Location where
  scheme : CodeText
  host : CodeText
  port : Option ℕ
  path : CodeText
  query : CodeText
deriving DecidableEq, Repr

def portText : Option ℕ → CodeText
  | none => []
  | some port => if port = 443 then [] else 58 :: intText port

def queryText (query : CodeText) : CodeText := if query = [] then [] else 63 :: query

def Location.authority (a : Location) : CodeText := a.host ++ portText a.port

def Location.tail (a : Location) : CodeText := a.authority ++ (a.path ++ queryText a.query)

def Location.text (a : Location) : CodeText := a.scheme ++ (codes "://" ++ a.tail)

section
variable (U : Urllib)

def locate (url : String) : Except String Location :=
  match U.urlsplit (String.ofList (Pep440.strip url.toList)) with
  | .error text => .error text
  | .ok parsed =>
    parsed.port.map fun port =>
      { scheme := codes (U.lower parsed.scheme)
        host := codes (withoutDot (U.lower (parsed.hostname.getD "")))
        port
        path := codes parsed.path
        query := codes parsed.query }

def canonicalizeEndpoint (url : String) : Except String CodeText := (locate U url).map Location.text

end

/-- A destination that `__post_init__` has accepted. -/
structure WebhookDestinationConfig where
  organizationId : ℤ
  url : String
  organization_pos : 0 < organizationId
  url_ne : url ≠ ""

inductive DeliveryError
  | tenantBoundary
  | value (text : String)
  | unicodeEncode
deriving DecidableEq, Repr

def rawKey (organizationId : ℤ) (canonicalEndpoint dedupeKey : CodeText) : CodeText :=
  intText organizationId ++ 58 :: (canonicalEndpoint ++ 58 :: dedupeKey)

section
variable (hexdigest : CodeText → CodeText)

def computeIdempotencyKey (organizationId : ℤ) (canonicalEndpoint dedupeKey : CodeText) :
    Except DeliveryError CodeText :=
  let raw := rawKey organizationId canonicalEndpoint dedupeKey
  if (Utf8.encode raw).isSome then .ok (hexdigest raw) else .error .unicodeEncode

variable (U : Urllib)

/-- The key with which `deliver` goes on: the tenant is checked first. -/
def deliveryKey (intent : NotificationIntent) (destination : WebhookDestinationConfig) :
    Except DeliveryError CodeText :=
  if destination.organizationId ≠ intent.organizationId then .error .tenantBoundary
  else
    match canonicalizeEndpoint U destination.url with
    | .error text => .error (.value text)
    | .ok canonicalUrl => computeIdempotencyKey hexdigest intent.organizationId canonicalUrl intent.dedupeKey

end

/-! ## The canonical form of the guard -/

theorem codes_append (s t : String) : codes (s ++ t) = codes s ++ codes t := by
  rw [codes, codes, codes, String.toList_append, List.map_append]

theorem codes_toString (n : ℕ) : codes (toString n) = intText n := by
  rw [codes, Nat.toString_eq_ofList_toDigits, String.toList_ofList]
  rfl

theorem codes_eq_nil {s : String} : codes s = [] ↔ s = "" := by
  rw [codes, List.map_eq_nil_iff, String.toList_eq_nil_iff]

section
variable {I : Ipaddress} {U : Urllib} {url : String}

theorem exists_of_map_eq_ok {ε α β : Type} {f : α → β} {x : Except ε α} {b : β} (h : x.map f = .ok b) :
    ∃ a, x = .ok a ∧ b = f a := by
  cases x with
  | error e => cases h
  | ok a => exact ⟨a, rfl, (Except.ok.inj h).symm⟩

theorem portText_of_readPort {read : Except String (Option ℕ)} {port : ℕ} (h : readPort read = .ok port) :
    ∃ p, read = .ok p ∧ portText p = portText (some port) := by
  unfold readPort at h
  split at h
  · cases h
  · cases h
    exact ⟨none, rfl, rfl⟩
  · split at h
    · cases h
      exact ⟨some _, rfl, rfl⟩
    · cases h

theorem hostname_of_readHostname {raw : Option String} {hostname : String} (h : readHostname U raw = .ok hostname) :
    hostname = withoutDot (U.lower (raw.getD "")) := by
  unfold readHostname at h
  dsimp only at h
  split_ifs at h
  split at h
  · exact (Except.ok.inj h).symm
  · cases h

theorem locate_of_syntacticStages {ep : Endpoint} (h : syntacticStages U url = .ok ep) :
    ∃ a, locate U url = .ok a ∧ a.scheme = codes ep.scheme ∧ a.host = codes ep.hostname ∧
      portText a.port = portText (some ep.port) ∧ a.path = codes ep.path ∧ a.query = codes ep.query := by
  unfold syntacticStages at h
  unfold locate
  split at h
  · cases h
  cases hparsed : U.urlsplit (String.ofList (Pep440.strip url.toList)) with
  | error e =>
    rw [hparsed] at h
    cases h
  | ok parsed =>
    rw [hparsed] at h
    dsimp only at h ⊢
    split_ifs at h
    obtain ⟨port, hport, h⟩ := Notifications.Except.bind_eq_ok.mp h
    obtain ⟨hostname, hhost, rfl⟩ := exists_of_map_eq_ok h
    obtain ⟨p, hread, htext⟩ := portText_of_readPort hport
    rw [hread]
    exact ⟨_, rfl, rfl, congrArg codes (hostname_of_readHostname hhost).symm, htext, rfl, rfl⟩

theorem canonicalEndpoint_of_validateRecords {ep : Endpoint} {records : List String} {result : SsrfValidationResult}
    (h : validateRecords I ep records = .ok result) :
    result.canonicalEndpoint = ep.scheme ++ "://" ++ ep.hostname ++
      (if ep.port ≠ 443 then ":" ++ toString ep.port else "") ++ ep.path ++
      (if ep.query = "" then "" else "?" ++ ep.query) := by
  unfold validateRecords at h
  split at h
  · cases h
  obtain ⟨parsedIps, -, h⟩ := Notifications.Except.bind_eq_ok.mp h
  split at h
  · cases h
  obtain ⟨targetIp, -, rfl⟩ := exists_of_map_eq_ok h
  rfl

theorem canonicalizeEndpoint_of_validateUrl {dns : String → ℕ → DnsAnswer} {result : SsrfValidationResult}
    (h : validateUrl I U dns url = .ok result) :
    canonicalizeEndpoint U url = .ok (codes result.canonicalEndpoint) := by
  obtain ⟨ep, hep, h⟩ := Notifications.Except.bind_eq_ok.mp h
  obtain ⟨records, -, h⟩ := Notifications.Except.bind_eq_ok.mp h
  obtain ⟨a, hlocate, hscheme, hhost, hport, hpath, hquery⟩ := locate_of_syntacticStages hep
  have hportText : codes (if ep.port ≠ 443 then ":" ++ toString ep.port else "") = portText (some ep.port) := by
    by_cases hdefault : ep.port = 443
    · rw [if_neg (not_not_intro hdefault), hdefault]
      rfl
    · rw [if_pos hdefault, codes_append, codes_toString, portText, if_neg hdefault]
      rfl
  have hqueryText : codes (if ep.query = "" then "" else "?" ++ ep.query) = queryText (codes ep.query) := by
    by_cases hnone : ep.query = ""
    · rw [if_pos hnone, hnone]
      rfl
    · rw [if_neg hnone, codes_append, queryText, if_neg (mt codes_eq_nil.mp hnone)]
      rfl
  rw [canonicalizeEndpoint, hlocate, canonicalEndpoint_of_validateRecords h]
  refine congrArg Except.ok ?_
  simp only [codes_append, hportText, hqueryText, Location.text, Location.tail, Location.authority, hscheme, hhost,
    hport, hpath, hquery, List.append_assoc]

end

def defaultPort (scheme : CodeText) : Option ℕ :=
  if scheme = codes "https" then some 443 else if scheme = codes "http" then some 80 else none

def Location.effectivePort (a : Location) : Option ℕ := a.port.or (defaultPort a.scheme)

structure Location.Same (a b : Location) : Prop where
  scheme : a.scheme = b.scheme
  host : a.host = b.host
  port : a.effectivePort = b.effectivePort
  path : a.path = b.path
  query : a.query = b.query

inductive Mistaken (a : Location) (key : CodeText) (b : Location) (key' : CodeText) : Prop
  /-- Port 443 is not shown, and the scheme is not `https`. -/
  | droppedPort (hkey : key = key') (hport : a.port = none) (hscheme : a.scheme ≠ codes "https")
      (hb : b = { a with port := some 443 })
  /-- Port 80 is shown, and it is the port of `http`. -/
  | shownPort (hkey : key = key') (hport : a.port = none) (hscheme : a.scheme = codes "http")
      (hb : b = { a with port := some 80 })
  /-- The host goes on with a colon and the port of the other URL; brackets are not shown. -/
  | bracket (hkey : key = key') (n : ℕ) (hn : n ≠ 443) (hport : b.port = some n) (hnone : portText a.port = [])
      (ha : a = { b with host := b.host ++ 58 :: intText n, port := a.port })
  /-- The path of a URL without a host spells the host of the other URL. -/
  | hostless (hkey : key = key') (hauthority : b.authority ≠ [])
      (ha : a = { b with host := [], port := none, path := b.authority ++ b.path })
  /-- The other URL goes on with a colon and what the key of the event begins with. -/
  | seam (u : CodeText) (hscheme : a.scheme = b.scheme) (htail : b.tail = a.tail ++ 58 :: u)
      (hkey : key = u ++ 58 :: key')

structure Location.Proper (a : Location) : Prop where
  scheme : 58 ∉ a.scheme
  host : 47 ∉ a.host ∧ 63 ∉ a.host
  path : 63 ∉ a.path
  rooted : (∀ c ∈ a.path.head?, c = 47) ∨ a.host = [] ∧ a.port = none

section
variable {a b : Location} {key key' : CodeText}

theorem Location.Same.symm (h : a.Same b) : b.Same a :=
  ⟨h.scheme.symm, h.host.symm, h.port.symm, h.path.symm, h.query.symm⟩

/-! ## Texts of endpoints -/

theorem portText_cases (p : Option ℕ) :
    portText p = [] ∧ (p = none ∨ p = some 443) ∨ ∃ n, p = some n ∧ n ≠ 443 ∧ portText p = 58 :: intText n := by
  cases p with
  | none => exact .inl ⟨rfl, .inl rfl⟩
  | some n =>
    by_cases hn : n = 443
    · exact .inl ⟨by rw [hn]; rfl, .inr (by rw [hn])⟩
    · exact .inr ⟨n, rfl, hn, by rw [portText, if_neg hn]⟩

theorem intText_inj {m n : ℕ} (h : intText m = intText n) : m = n := by
  have hdigits : Nat.toDigits 10 m = Nat.toDigits 10 n :=
    List.map_injective_iff.mpr (fun c d hcd => Char.toNat_inj.mp hcd) h
  rw [← Nat.ofDigitChars_ten_toDigits (n := m), hdigits, Nat.ofDigitChars_ten_toDigits]

theorem colon_not_mem_intText (n : ℤ) : 58 ∉ intText n := fun h => by have := mem_intText h; omega

theorem portText_inj {p q : Option ℕ} (h : portText p = portText q) :
    p = q ∨ (p = none ∨ p = some 443) ∧ (q = none ∨ q = some 443) := by
  rcases portText_cases p with ⟨hp, hnone⟩ | ⟨m, rfl, -, hp⟩
  · rcases portText_cases q with ⟨-, hnone'⟩ | ⟨n, rfl, -, hq⟩
    · exact .inr ⟨hnone, hnone'⟩
    · rw [hp, hq] at h
      cases h
  · rcases portText_cases q with ⟨hq, -⟩ | ⟨n, rfl, -, hq⟩
    · rw [hp, hq] at h
      cases h
    · rw [hp, hq] at h
      exact .inl (congrArg some (intText_inj (List.cons.inj h).2))

theorem not_mem_authority (h : a.Proper) {c : ℕ} (hc : c = 47 ∨ c = 63) : c ∉ a.authority := by
  have hport : c ∉ portText a.port := by
    rcases portText_cases a.port with ⟨hp, -⟩ | ⟨n, -, -, hp⟩
    · rw [hp]
      exact List.not_mem_nil
    · rw [hp]
      intro hmem
      rcases List.mem_cons.mp hmem with rfl | hmem
      · omega
      · have := mem_intText hmem
        omega
  have hhost : c ∉ a.host := by
    rcases hc with rfl | rfl
    · exact h.host.1
    · exact h.host.2
  exact fun hmem => (List.mem_append.mp hmem).elim hhost hport

theorem queryText_head (query : CodeText) : ∀ c ∈ (queryText query).head?, c = 63 := by
  unfold queryText
  split
  · exact fun c hc => by cases hc
  · exact fun c hc => (Option.some.inj hc).symm

theorem queryText_inj {q q' : CodeText} (h : queryText q = queryText q') : q = q' := by
  unfold queryText at h
  split at h
  next hq =>
    split at h
    next hq' => rw [hq, hq']
    · cases h
  · split at h
    · cases h
    · exact (List.cons.inj h).2

theorem tail_inj (ha : a.Proper) (hb : b.Proper) (h : a.tail = b.tail) :
    a.authority ++ a.path = b.authority ++ b.path ∧ a.query = b.query := by
  have hfront : ∀ {a : Location}, a.Proper → 63 ∉ a.authority ++ a.path := fun ha hmem =>
    (List.mem_append.mp hmem).elim (not_mem_authority ha (.inr rfl)) ha.path
  rw [Location.tail, Location.tail, ← List.append_assoc, ← List.append_assoc] at h
  obtain ⟨hpath, hquery⟩ :=
    Separators.append_inj_of_head (hfront ha) (hfront hb) (queryText_head _) (queryText_head _) h
  exact ⟨hpath, queryText_inj hquery⟩

theorem authority_cases (h : a.authority = b.authority) :
    a.host = b.host ∧ portText a.port = portText b.port ∨
      (∃ n, n ≠ 443 ∧ b.port = some n ∧ portText a.port = [] ∧ a.host = b.host ++ 58 :: intText n) ∨
      ∃ n, n ≠ 443 ∧ a.port = some n ∧ portText b.port = [] ∧ b.host = a.host ++ 58 :: intText n := by
  unfold Location.authority at h
  rcases portText_cases a.port with ⟨ha, -⟩ | ⟨m, ham, hm, ha⟩
  · rcases portText_cases b.port with ⟨hb, -⟩ | ⟨n, hbn, hn, hb⟩
    · rw [ha, hb, List.append_nil, List.append_nil] at h
      exact .inl ⟨h, ha.trans hb.symm⟩
    · rw [ha, hb, List.append_nil] at h
      exact .inr (.inl ⟨n, hn, hbn, ha, h⟩)
  · rcases portText_cases b.port with ⟨hb, -⟩ | ⟨n, hbn, hn, hb⟩
    · rw [ha, hb, List.append_nil] at h
      exact .inr (.inr ⟨m, hm, ham, hb, h.symm⟩)
    · rw [ha, hb] at h
      obtain ⟨hhost, hport⟩ := Separators.suffix_inj (colon_not_mem_intText m) (colon_not_mem_intText n) h
      exact .inl ⟨hhost, by rw [ha, hb, hport]⟩

theorem same_or_droppedPort (hscheme : a.scheme = b.scheme) (hhost : a.host = b.host)
    (hport : portText a.port = portText b.port) (hpath : a.path = b.path) (hquery : a.query = b.query) :
    a.Same b ∨ Mistaken a key b key ∨ Mistaken b key a key := by
  obtain ⟨scheme, host, port, path, query⟩ := a
  obtain ⟨scheme', host', port', path', query'⟩ := b
  obtain rfl : scheme = scheme' := hscheme
  obtain rfl : host = host' := hhost
  obtain rfl : path = path' := hpath
  obtain rfl : query = query' := hquery
  by_cases hhttps : scheme = codes "https"
  · have heffective : ∀ p : Option ℕ, p = none ∨ p = some 443 → p.or (defaultPort scheme) = some 443 := by
      rintro p (rfl | rfl)
      · rw [hhttps]
        rfl
      · rfl
    refine .inl ⟨rfl, rfl, ?_, rfl, rfl⟩
    rcases portText_inj hport with rfl | ⟨hp, hq⟩
    · rfl
    · exact (heffective port hp).trans (heffective port' hq).symm
  · rcases portText_inj hport with rfl | ⟨rfl | rfl, rfl | rfl⟩
    · exact .inl ⟨rfl, rfl, rfl, rfl, rfl⟩
    · exact .inl ⟨rfl, rfl, rfl, rfl, rfl⟩
    · exact .inr (.inl (.droppedPort rfl rfl hhttps rfl))
    · exact .inr (.inr (.droppedPort rfl rfl hhttps rfl))
    · exact .inl ⟨rfl, rfl, rfl, rfl, rfl⟩

theorem same_or_hostless (hscheme : a.scheme = b.scheme) (hnone : a.host = [] ∧ a.port = none)
    (hpath : a.authority ++ a.path = b.authority ++ b.path) (hquery : a.query = b.query) :
    a.Same b ∨ Mistaken a key b key ∨ Mistaken b key a key := by
  have hauthority : a.authority = [] := by
    rw [Location.authority, hnone.1, hnone.2]
    rfl
  rw [hauthority, List.nil_append] at hpath
  by_cases hb : b.authority = []
  · obtain ⟨hhost, hport⟩ := List.append_eq_nil_iff.mp hb
    rw [hb, List.nil_append] at hpath
    exact same_or_droppedPort hscheme (hnone.1.trans hhost.symm) (by rw [hnone.2, hport]; rfl) hpath hquery
  · refine .inr (.inl (.hostless rfl hb ?_))
    rw [← hpath, ← hscheme, ← hquery, ← hnone.1, ← hnone.2]

theorem same_or_mistaken (ha : a.Proper) (hb : b.Proper) (hscheme : a.scheme = b.scheme) (h : a.tail = b.tail) :
    a.Same b ∨ Mistaken a key b key ∨ Mistaken b key a key := by
  obtain ⟨hpath, hquery⟩ := tail_inj ha hb h
  rcases ha.rooted with harooted | hnone
  · rcases hb.rooted with hbrooted | hnone
    · obtain ⟨hauthority, hpath⟩ := Separators.append_inj_of_head (not_mem_authority ha (.inl rfl))
        (not_mem_authority hb (.inl rfl)) harooted hbrooted hpath
      rcases authority_cases hauthority with
        ⟨hhost, hport⟩ | ⟨n, hn, hport, hnone, hhost⟩ | ⟨n, hn, hport, hnone, hhost⟩
      · exact same_or_droppedPort hscheme hhost hport hpath hquery
      · refine .inr (.inl (.bracket rfl n hn hport hnone ?_))
        rw [← hhost, ← hscheme, ← hpath, ← hquery]
      · refine .inr (.inr (.bracket rfl n hn hport hnone ?_))
        rw [← hhost, hscheme, hpath, hquery]
    · have hswapped : b.Same a ∨ Mistaken b key a key ∨ Mistaken a key b key :=
        same_or_hostless hscheme.symm hnone hpath.symm hquery.symm
      rcases hswapped with hsame | hmistaken
      · exact .inl hsame.symm
      · exact .inr hmistaken.symm
  · exact same_or_hostless hscheme hnone hpath hquery

theorem tail_eq_or_shownPort (h : a.Same b) : a.tail = b.tail ∨ Mistaken a key b key ∨ Mistaken b key a key := by
  obtain ⟨scheme, host, port, path, query⟩ := a
  obtain ⟨scheme', host', port', path', query'⟩ := b
  obtain ⟨hscheme, hhost, hport, hpath, hquery⟩ := h
  obtain rfl : scheme = scheme' := hscheme
  obtain rfl : host = host' := hhost
  obtain rfl : path = path' := hpath
  obtain rfl : query = query' := hquery
  have hnone : ∀ n : ℕ, some n = defaultPort scheme → n = 443 ∨ scheme = codes "http" ∧ n = 80 := by
    intro n hn
    unfold defaultPort at hn
    split_ifs at hn with hhttps hhttp
    · exact .inl (Option.some.inj hn)
    · exact .inr ⟨hhttp, Option.some.inj hn⟩
  cases port with
  | none =>
    cases port' with
    | none => exact .inl rfl
    | some n =>
      rcases hnone n hport.symm with rfl | ⟨hhttp, rfl⟩
      · exact .inl rfl
      · exact .inr (.inl (.shownPort rfl rfl hhttp rfl))
  | some m =>
    cases port' with
    | none =>
      rcases hnone m hport with rfl | ⟨hhttp, rfl⟩
      · exact .inl rfl
      · exact .inr (.inr (.shownPort rfl rfl hhttp rfl))
    | some n =>
      obtain rfl : m = n := Option.some.inj hport
      exact .inl rfl

/-! ## Keys that are mistaken -/

def keyText (a : Location) (key : CodeText) : CodeText := a.text ++ 58 :: key

theorem keyText_eq_iff (ha : a.Proper) (hb : b.Proper) :
    keyText a key = keyText b key' ↔ a.scheme = b.scheme ∧ a.tail ++ 58 :: key = b.tail ++ 58 :: key' := by
  have hsplit : ∀ (a : Location) (key : CodeText),
      keyText a key = a.scheme ++ 58 :: 47 :: 47 :: (a.tail ++ 58 :: key) := by
    intro a key
    rw [keyText, Location.text, List.append_assoc, List.append_assoc]
    rfl
  rw [hsplit, hsplit]
  constructor
  · intro h
    obtain ⟨hscheme, hrest⟩ := Separators.append_inj_of_head ha.scheme hb.scheme (by simp) (by simp) h
    exact ⟨hscheme, (List.cons.inj (List.cons.inj (List.cons.inj hrest).2).2).2⟩
  · rintro ⟨hscheme, hrest⟩
    rw [hscheme, hrest]

def Separates (a : Location) (key : CodeText) (b : Location) (key' : CodeText) : Prop :=
  keyText a key = keyText b key' ↔ a.Same b ∧ key = key'

theorem Separates.symm (h : Separates a key b key') : Separates b key' a key := by
  have hsame : b.Same a ∧ key' = key ↔ a.Same b ∧ key = key' :=
    and_congr ⟨Location.Same.symm, Location.Same.symm⟩ eq_comm
  rw [Separates, hsame, eq_comm]
  exact h

theorem Mistaken.not_separates (ha : a.Proper) (hb : b.Proper) (h : Mistaken a key b key') :
    ¬ Separates a key b key' := by
  intro hseparates
  rw [Separates, keyText_eq_iff ha hb] at hseparates
  cases h with
  | droppedPort hkey hport hscheme heq =>
    have htail : a.tail = b.tail := by
      rw [heq, Location.tail, Location.authority, hport]
      rfl
    have heffective := (hseparates.mp ⟨by rw [heq], by rw [htail, hkey]⟩).1.port
    rw [heq, Location.effectivePort, Location.effectivePort, hport] at heffective
    -- only `https` has the port 443 by default
    unfold defaultPort at heffective
    split_ifs at heffective with hhttps
    · exact hscheme hhttps
    · cases heffective
    · cases heffective
  | shownPort hkey hport hscheme heq =>
    have hsame : a.Same b := by
      refine ⟨by rw [heq], by rw [heq], ?_, by rw [heq], by rw [heq]⟩
      rw [heq, Location.effectivePort, Location.effectivePort, hport, hscheme]
      rfl
    have htext := (hseparates.mpr ⟨hsame, hkey⟩).2
    rw [hkey] at htext
    have hlength := congrArg List.length (List.append_cancel_right htext)
    rw [heq, Location.tail, Location.tail, Location.authority, Location.authority, hport] at hlength
    have hshown : (portText (some 80)).length = 3 := rfl
    have hnone : (portText none).length = 0 := rfl
    simp only [List.length_append, hshown, hnone] at hlength
    omega
  | bracket hkey n hn hport hnone heq =>
    have hhost : a.host = b.host ++ 58 :: intText n := by rw [heq]
    have hscheme : a.scheme = b.scheme := by rw [heq]
    have hpath : a.path = b.path := by rw [heq]
    have hquery : a.query = b.query := by rw [heq]
    have htail : a.tail = b.tail := by
      rw [Location.tail, Location.tail, Location.authority, Location.authority, hhost, hnone, hport, hpath, hquery,
        portText, if_neg hn, List.append_nil]
    have hsame := (hseparates.mp ⟨hscheme, by rw [htail, hkey]⟩).1.host
    rw [hhost] at hsame
    exact absurd (List.append_right_eq_self.mp hsame) (List.cons_ne_nil _ _)
  | hostless hkey hauthority heq =>
    have hscheme : a.scheme = b.scheme := by rw [heq]
    have hpath : a.path = b.authority ++ b.path := by rw [heq]
    have hquery : a.query = b.query := by rw [heq]
    have hnone : a.authority = [] := by
      rw [heq]
      rfl
    have htail : a.tail = b.tail := by
      rw [Location.tail, Location.tail, hnone, hpath, hquery, List.nil_append, List.append_assoc]
    have hsame := (hseparates.mp ⟨hscheme, by rw [htail, hkey]⟩).1.path
    rw [hpath] at hsame
    exact hauthority (List.append_left_eq_self.mp hsame)
  | seam u hscheme htail hkey =>
    have htext : a.tail ++ 58 :: key = b.tail ++ 58 :: key' := by
      rw [htail, hkey, List.append_assoc, List.cons_append]
    have hlength := congrArg List.length (hseparates.mp ⟨hscheme, htext⟩).2
    rw [hkey, List.length_append, List.length_cons] at hlength
    omega

theorem separates_iff (ha : a.Proper) (hb : b.Proper) :
    Separates a key b key' ↔ ¬ (Mistaken a key b key' ∨ Mistaken b key' a key) := by
  constructor
  · rintro h (hmistaken | hmistaken)
    · exact hmistaken.not_separates ha hb h
    · exact hmistaken.not_separates hb ha h.symm
  · intro h
    rw [Separates, keyText_eq_iff ha hb]
    constructor
    · rintro ⟨hscheme, htext⟩
      rcases Separators.append_cons_cases htext with ⟨htail, rfl⟩ | ⟨u, htail, hkey⟩ | ⟨u, htail, hkey⟩
      · rcases same_or_mistaken ha hb hscheme htail with hsame | hmistaken
        · exact ⟨hsame, rfl⟩
        · exact absurd hmistaken h
      · exact absurd (.inl (.seam u hscheme htail hkey)) h
      · exact absurd (.inr (.seam u hscheme.symm htail hkey)) h
    · rintro ⟨hsame, rfl⟩
      rcases tail_eq_or_shownPort hsame with htail | hmistaken
      · exact ⟨hsame.scheme, by rw [htail]⟩
      · exact absurd hmistaken h

end

/-! ## Deliveries -/

/-- The library of the guard, with the splitting written out. -/
def urllib (L : UrlSplit.Library) (idna : String → Except String Unit) : Urllib where
  urlsplit := fun url => (UrlSplit.urlsplit L url.toList).map fun p =>
    { scheme := String.ofList p.scheme
      netloc := String.ofList p.netloc
      username := (UrlSplit.username p.netloc).map String.ofList
      password := (UrlSplit.password p.netloc).map String.ofList
      port := UrlSplit.port p.netloc
      hostname := (UrlSplit.hostname L p.netloc).map String.ofList
      path := String.ofList p.path
      query := String.ofList p.query }
  lower := fun s => String.ofList (L.lower s.toList)
  idna

def charCodes (cs : List Char) : CodeText := cs.map Char.toNat

def dropDot (cs : List Char) : List Char := if cs.getLast? = some '.' then cs.dropLast else cs

section
variable {L : UrlSplit.Library} {idna : String → Except String Unit} {url : String}

theorem codes_ofList (cs : List Char) : codes (String.ofList cs) = charCodes cs := by
  rw [codes, String.toList_ofList, charCodes]

theorem withoutDot_ofList (cs : List Char) : withoutDot (String.ofList cs) = String.ofList (dropDot cs) := by
  rw [withoutDot, String.toList_ofList, dropDot]
  split <;> rfl

def locationOf (L : UrlSplit.Library) (p : UrlSplit.Pieces) (port : Option ℕ) : Location where
  scheme := charCodes (L.lower p.scheme)
  host := charCodes (dropDot (L.lower ((UrlSplit.hostname L p.netloc).getD [])))
  port := port
  path := charCodes p.path
  query := charCodes p.query

theorem locate_urllib : locate (urllib L idna) url =
    (UrlSplit.urlsplit L (Pep440.strip url.toList)).bind fun p => (UrlSplit.port p.netloc).map (locationOf L p) := by
  have hhost : ∀ o : Option (List Char), ((o.map String.ofList).getD "").toList = o.getD [] := by
    intro o
    cases o with
    | none => rfl
    | some cs => exact String.toList_ofList
  unfold locate urllib
  dsimp only
  rw [String.toList_ofList]
  cases UrlSplit.urlsplit L (Pep440.strip url.toList) with
  | error text => rfl
  | ok p =>
    refine congrArg (Except.map · _) (funext fun port => ?_)
    simp only [codes_ofList, withoutDot_ofList, hhost, String.toList_ofList, locationOf]

theorem mem_charCodes {c : Char} {cs : List Char} : c.toNat ∈ charCodes cs ↔ c ∈ cs :=
  List.mem_map_of_injective fun _ _ h => Char.toNat_inj.mp h

theorem mem_dropDot {c : Char} {cs : List Char} (h : c ∈ dropDot cs) : c ∈ cs := by
  unfold dropDot at h
  split at h
  · exact List.mem_of_mem_dropLast h
  · exact h

theorem proper_locationOf {p : UrlSplit.Pieces} {port : Option ℕ} (h : p.Shaped)
    (hport : UrlSplit.port p.netloc = .ok port) : (locationOf L p port).Proper := by
  have hhost : ∀ c : Char, c.toNat < 128 → c.isAlpha = false →
      c.toNat ∈ (locationOf L p port).host → c ∈ p.netloc := fun c hascii halpha hmem =>
    UrlSplit.mem_of_mem_hostname hascii halpha
      (UrlSplit.mem_of_mem_lower hascii halpha (mem_dropDot (mem_charCodes.mp hmem)))
  refine ⟨fun hmem => h.scheme ?_, ⟨fun hmem => h.netloc.1 ?_, fun hmem => h.netloc.2 ?_⟩, fun hmem => h.path ?_, ?_⟩
  · exact UrlSplit.mem_of_mem_lower (by decide) (by decide) ((mem_charCodes (c := ':')).mp hmem)
  · exact hhost '/' (by decide) (by decide) hmem
  · exact hhost '?' (by decide) (by decide) hmem
  · exact (mem_charCodes (c := '?')).mp hmem
  · rcases h.rooted with hnone | hslash
    · right
      rw [hnone, UrlSplit.port_nil] at hport
      refine ⟨?_, (Except.ok.inj hport).symm⟩
      rw [locationOf, hnone, UrlSplit.hostname_nil, Option.getD_none, L.lower_nil]
      rfl
    · left
      intro c hc
      have hmap : ((p.path.map Char.toNat).head?) = some c := hc
      rw [List.head?_map] at hmap
      obtain ⟨d, hd, rfl⟩ := Option.map_eq_some_iff.mp hmap
      rw [hslash d hd]
      rfl

theorem proper_of_locate {a : Location} (h : locate (urllib L idna) url = .ok a) : a.Proper := by
  rw [locate_urllib] at h
  obtain ⟨p, hp, h⟩ := Notifications.Except.bind_eq_ok.mp h
  obtain ⟨port, hport, rfl⟩ := exists_of_map_eq_ok h
  exact proper_locationOf (UrlSplit.shaped_of_urlsplit hp) hport

end

structure Delivery where
  intent : NotificationIntent
  destination : WebhookDestinationConfig

/-- One organization, one key of the event, and one endpoint. -/
def SameDelivery (U : Urllib) (d d' : Delivery) : Prop :=
  d.intent.organizationId = d'.intent.organizationId ∧ d.intent.dedupeKey = d'.intent.dedupeKey ∧
    ∃ a b, locate U d.destination.url = .ok a ∧ locate U d'.destination.url = .ok b ∧ a.Same b

/-- Two deliveries for one organization of a kind that the keys mistake. -/
def MistakenDelivery (U : Urllib) (d d' : Delivery) : Prop :=
  d.intent.organizationId = d'.intent.organizationId ∧
    ∃ a b, locate U d.destination.url = .ok a ∧ locate U d'.destination.url = .ok b ∧
      Mistaken a d.intent.dedupeKey b d'.intent.dedupeKey

section
variable {hexdigest : CodeText → CodeText} {U : Urllib} {d d' : Delivery} {k k' : CodeText}

theorem exists_of_deliveryKey (h : deliveryKey hexdigest U d.intent d.destination = .ok k) :
    ∃ a, locate U d.destination.url = .ok a ∧
      k = hexdigest (intText d.intent.organizationId ++ 58 :: keyText a d.intent.dedupeKey) := by
  unfold deliveryKey at h
  split at h
  · cases h
  split at h
  · cases h
  next text htext =>
    obtain ⟨a, ha, rfl⟩ := exists_of_map_eq_ok htext
    unfold computeIdempotencyKey at h
    dsimp only at h
    split at h
    · exact ⟨a, ha, (Except.ok.inj h).symm⟩
    · cases h

theorem organization_inj {m n : ℤ} (hm : 0 < m) (hn : 0 < n) (h : intText m = intText n) : m = n := by
  obtain ⟨m, rfl⟩ := Int.eq_ofNat_of_zero_le hm.le
  obtain ⟨n, rfl⟩ := Int.eq_ofNat_of_zero_le hn.le
  exact congrArg Int.ofNat (intText_inj h)

/-- **Idempotency keys.** Without collisions of the digest, two keys tell two deliveries apart as they should but for
the kinds that are mistaken, and the endpoint is the one of the guard where the guard accepts the URL. -/
theorem keysSeparate_iff (L : UrlSplit.Library) (idna : String → Except String Unit)
    (hexdigest : CodeText → CodeText) (hfree : Function.Injective hexdigest) {d d' : Delivery} {k k' : CodeText}
    (hk : deliveryKey hexdigest (urllib L idna) d.intent d.destination = .ok k)
    (hk' : deliveryKey hexdigest (urllib L idna) d'.intent d'.destination = .ok k') :
    ((k = k' ↔ SameDelivery (urllib L idna) d d') ↔
        ¬ (MistakenDelivery (urllib L idna) d d' ∨ MistakenDelivery (urllib L idna) d' d)) ∧
      ∀ I dns url result, validateUrl I (urllib L idna) dns url = .ok result →
        canonicalizeEndpoint (urllib L idna) url = .ok (codes result.canonicalEndpoint) := by
  refine ⟨?_, fun I dns url result h => canonicalizeEndpoint_of_validateUrl h⟩
  obtain ⟨a, ha, rfl⟩ := exists_of_deliveryKey hk
  obtain ⟨b, hb, rfl⟩ := exists_of_deliveryKey hk'
  have hkeys : hexdigest (intText d.intent.organizationId ++ 58 :: keyText a d.intent.dedupeKey) =
      hexdigest (intText d'.intent.organizationId ++ 58 :: keyText b d'.intent.dedupeKey) ↔
      d.intent.organizationId = d'.intent.organizationId ∧
        keyText a d.intent.dedupeKey = keyText b d'.intent.dedupeKey := by
    rw [hfree.eq_iff]
    constructor
    · intro h
      obtain ⟨horg, htext⟩ := Separators.append_inj_of_head (colon_not_mem_intText _) (colon_not_mem_intText _)
        (by simp) (by simp) h
      exact ⟨organization_inj d.intent.organization_pos d'.intent.organization_pos horg, (List.cons.inj htext).2⟩
    · rintro ⟨horg, htext⟩
      rw [horg, htext]
  have hsame : SameDelivery (urllib L idna) d d' ↔ d.intent.organizationId = d'.intent.organizationId ∧
      a.Same b ∧ d.intent.dedupeKey = d'.intent.dedupeKey := by
    constructor
    · rintro ⟨horg, hkey, a', b', ha', hb', hsame⟩
      obtain rfl := Except.ok.inj (ha.symm.trans ha')
      obtain rfl := Except.ok.inj (hb.symm.trans hb')
      exact ⟨horg, hsame, hkey⟩
    · rintro ⟨horg, hsame, hkey⟩
      exact ⟨horg, hkey, a, b, ha, hb, hsame⟩
  have hmistaken : ∀ {d d' : Delivery} {a b : Location}, locate (urllib L idna) d.destination.url = .ok a →
      locate (urllib L idna) d'.destination.url = .ok b → (MistakenDelivery (urllib L idna) d d' ↔
        d.intent.organizationId = d'.intent.organizationId ∧ Mistaken a d.intent.dedupeKey b d'.intent.dedupeKey) := by
    intro d d' a b ha hb
    refine and_congr_right fun _ => ⟨?_, fun h => ⟨a, b, ha, hb, h⟩⟩
    rintro ⟨a', b', ha', hb', h⟩
    obtain rfl := Except.ok.inj (ha.symm.trans ha')
    obtain rfl := Except.ok.inj (hb.symm.trans hb')
    exact h
  rw [hkeys, hsame, hmistaken ha hb, hmistaken hb ha]
  have hseparates : Separates a d.intent.dedupeKey b d'.intent.dedupeKey ↔ _ :=
    separates_iff (proper_of_locate ha) (proper_of_locate hb)
  by_cases horg : d.intent.organizationId = d'.intent.organizationId
  · simpa [horg, Separates] using hseparates
  · simp [horg, Ne.symm horg]

end

theorem toLower_cases (c : Char) : c.toLower = c ∨ c.toLower.isAlpha = true := by
  unfold Char.toLower
  split
  next h =>
    right
    simp only [ge_iff_le, UInt32.le_iff_toNat_le] at h
    have hA : 'A'.val.toNat = 65 := rfl
    have hZ : 'Z'.val.toNat = 90 := rfl
    have hshift : (c.val + ('a'.val - 'A'.val)).toNat = c.val.toNat + 32 := by
      have h32 : ('a'.val - 'A'.val).toNat = 32 := rfl
      rw [UInt32.toNat_add, h32]
      omega
    have hlower : ∀ hvalid, Char.isLower ⟨c.val + ('a'.val - 'A'.val), hvalid⟩ = true := by
      intro hvalid
      delta Char.isLower
      simp only [ge_iff_le, UInt32.le_iff_toNat_le, hshift, Bool.and_eq_true, decide_eq_true_eq]
      have ha : 'a'.val.toNat = 97 := rfl
      have hz : 'z'.val.toNat = 122 := rfl
      omega
    delta Char.isAlpha
    rw [hlower, Bool.or_true]
  · exact .inl rfl

def asciiLibrary : UrlSplit.Library where
  lower := List.map Char.toLower
  lower_nil := rfl
  lower_mem := by
    intro t c hc
    obtain ⟨d, hd, rfl⟩ := List.mem_map.mp hc
    rcases toLower_cases d with h | h
    · exact .inl (h.symm ▸ hd)
    · exact .inr (.inr h)
  refusal := fun _ => none

def addressIntent : NotificationIntent := { everyoneIntent with severity := codes "HIGH" }

/-- A delivery to a port of one address, and one to another address. -/
def portDelivery : Delivery where
  intent := addressIntent
  destination := ⟨1, "https://[2001:db8::1]:8443/hook", Int.zero_lt_one, by decide⟩

def addressDelivery : Delivery where
  intent := addressIntent
  destination := ⟨1, "https://[2001:db8::1:8443]/hook", Int.zero_lt_one, by decide⟩

def hookUrls : Urllib := urllib asciiLibrary fun _ => .ok ()

def portLocation : Location := ⟨codes "https", codes "2001:db8::1", some 8443, codes "/hook", []⟩

def addressLocation : Location := ⟨codes "https", codes "2001:db8::1:8443", none, codes "/hook", []⟩

theorem locate_portDelivery : locate hookUrls portDelivery.destination.url = .ok portLocation := by
  rw [hookUrls, locate_urllib]
  decide +kernel

theorem locate_addressDelivery : locate hookUrls addressDelivery.destination.url = .ok addressLocation := by
  rw [hookUrls, locate_urllib]
  decide +kernel

def hookKey : CodeText := codes "1:https://2001:db8::1:8443/hook:d1"

theorem portDelivery_key : deliveryKey id hookUrls portDelivery.intent portDelivery.destination = .ok hookKey := by
  rw [deliveryKey, if_neg (by decide), canonicalizeEndpoint, locate_portDelivery]
  decide +kernel

theorem addressDelivery_key :
    deliveryKey id hookUrls addressDelivery.intent addressDelivery.destination = .ok hookKey := by
  rw [deliveryKey, if_neg (by decide), canonicalizeEndpoint, locate_addressDelivery]
  decide +kernel

theorem keysSeparate_iff_addresses : (hookKey = hookKey ↔ SameDelivery hookUrls portDelivery addressDelivery) ↔
    ¬ (MistakenDelivery hookUrls portDelivery addressDelivery ∨
      MistakenDelivery hookUrls addressDelivery portDelivery) :=
  (keysSeparate_iff asciiLibrary _ id Function.injective_id portDelivery_key addressDelivery_key).1

theorem addresses_share_a_key : ¬ ∀ (L : UrlSplit.Library) (idna : String → Except String Unit)
    (hexdigest : CodeText → CodeText), Function.Injective hexdigest → ∀ (d d' : Delivery) (k k' : CodeText),
      deliveryKey hexdigest (urllib L idna) d.intent d.destination = .ok k →
      deliveryKey hexdigest (urllib L idna) d'.intent d'.destination = .ok k' →
      (k = k' ↔ SameDelivery (urllib L idna) d d') := by
  intro h
  have hsame := (h asciiLibrary _ id Function.injective_id portDelivery addressDelivery hookKey hookKey
    portDelivery_key addressDelivery_key).mp rfl
  obtain ⟨-, -, a, b, ha, hb, hsame⟩ := hsame
  obtain rfl := Except.ok.inj (locate_portDelivery.symm.trans ha)
  obtain rfl := Except.ok.inj (locate_addressDelivery.symm.trans hb)
  exact absurd hsame.host (by decide)

end TimeCodeSecurity.Webhooks.Keys
