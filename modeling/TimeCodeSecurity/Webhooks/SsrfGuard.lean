import TimeCodeSecurity.Foundations.KeyedSort
import TimeCodeSecurity.Foundations.Pep440

/-! # The SSRF guard

`ssrf_guard.py`: the stages a webhook URL passes, the blocked networks, and the address that is pinned.
The splitting of URLs, IDNA, and the texts of addresses are parameters, and so is `is_private`, whose
tables differ between the versions of Python.
-/
namespace TimeCodeSecurity.Webhooks.Ssrf
set_option autoImplicit false

inductive Addr
  | v4 (n : ℕ)
  | v6 (n : ℕ) (scope : String)
deriving DecidableEq, Repr

structure Network where
  text : String
  base : ℕ
  hostBits : ℕ

/-- `ip in net`. -/
def Network.has (net : Network) (n : ℕ) : Bool := n / 2 ^ net.hostBits = net.base / 2 ^ net.hostBits

def quad (a b c d : ℕ) : ℕ := ((a * 256 + b) * 256 + c) * 256 + d

def groups (a b : ℕ) : ℕ := a * 2 ^ 112 + b * 2 ^ 96

def ipv4BlockedNetworks : List Network :=
  [⟨"127.0.0.0/8", quad 127 0 0 0, 24⟩,
   ⟨"10.0.0.0/8", quad 10 0 0 0, 24⟩,
   ⟨"172.16.0.0/12", quad 172 16 0 0, 20⟩,
   ⟨"192.168.0.0/16", quad 192 168 0 0, 16⟩,
   ⟨"169.254.0.0/16", quad 169 254 0 0, 16⟩,
   ⟨"0.0.0.0/8", quad 0 0 0 0, 24⟩,
   ⟨"100.64.0.0/10", quad 100 64 0 0, 22⟩,
   ⟨"192.0.0.0/24", quad 192 0 0 0, 8⟩,
   ⟨"192.0.2.0/24", quad 192 0 2 0, 8⟩,
   ⟨"198.51.100.0/24", quad 198 51 100 0, 8⟩,
   ⟨"203.0.113.0/24", quad 203 0 113 0, 8⟩,
   ⟨"198.18.0.0/15", quad 198 18 0 0, 17⟩,
   ⟨"224.0.0.0/4", quad 224 0 0 0, 28⟩,
   ⟨"240.0.0.0/4", quad 240 0 0 0, 28⟩,
   ⟨"255.255.255.255/32", quad 255 255 255 255, 0⟩]

def ipv6BlockedNetworks : List Network :=
  [⟨"::1/128", 1, 0⟩,
   ⟨"::/128", 0, 0⟩,
   ⟨"fc00::/7", groups 0xfc00 0, 121⟩,
   ⟨"fe80::/10", groups 0xfe80 0, 118⟩,
   ⟨"ff00::/8", groups 0xff00 0, 120⟩,
   ⟨"::ffff:0:0/96", 0xffff * 2 ^ 32, 32⟩,
   ⟨"::/96", 0, 32⟩,
   ⟨"2001:db8::/32", groups 0x2001 0xdb8, 96⟩,
   ⟨"100::/64", groups 0x100 0, 64⟩]

def listed4 (n : ℕ) : Bool := ipv4BlockedNetworks.any (·.has n)

def listed6 (n : ℕ) : Bool := ipv6BlockedNetworks.any (·.has n)

def isLoopback4 : ℕ → Bool := Network.has ⟨"127.0.0.0/8", quad 127 0 0 0, 24⟩
def isLinkLocal4 : ℕ → Bool := Network.has ⟨"169.254.0.0/16", quad 169 254 0 0, 16⟩
def isMulticast4 : ℕ → Bool := Network.has ⟨"224.0.0.0/4", quad 224 0 0 0, 28⟩
def isReserved4 : ℕ → Bool := Network.has ⟨"240.0.0.0/4", quad 240 0 0 0, 28⟩
def isLoopback6 : ℕ → Bool := Network.has ⟨"::1/128", 1, 0⟩
def isUnspecified6 : ℕ → Bool := Network.has ⟨"::/128", 0, 0⟩
def isLinkLocal6 : ℕ → Bool := Network.has ⟨"fe80::/10", groups 0xfe80 0, 118⟩
def isMulticast6 : ℕ → Bool := Network.has ⟨"ff00::/8", groups 0xff00 0, 120⟩

def embedded (form : Network) (shift n : ℕ) : Option ℕ :=
  if form.has n then some (n / 2 ^ shift % 2 ^ 32) else none

def ipv4Mapped : ℕ → Option ℕ := embedded ⟨"::ffff:0:0/96", 0xffff * 2 ^ 32, 32⟩ 0
def ipv4Compatible : ℕ → Option ℕ := embedded ⟨"::/96", 0, 32⟩ 0
def sixToFour : ℕ → Option ℕ := embedded ⟨"2002::/16", groups 0x2002 0, 112⟩ 80
def nat64 : ℕ → Option ℕ := embedded ⟨"64:ff9b::/96", groups 0x64 0xff9b, 32⟩ 0

def tunnels (n : ℕ) : Bool := (sixToFour n).any listed4 || (nat64 n).any listed4

/-- `ipaddress`: `ip_address`, `str`, and `is_private` for either version. -/
structure Ipaddress where
  parse : String → Except String Addr
  shown : Addr → String
  parse_shown : ∀ s a, parse s = .ok a → parse (shown a) = .ok a
  private4 : ℕ → Bool
  private6 : ℕ → Bool
  private4_listed : ∀ n, private4 n = true → listed4 n = true

structure SplitResult where
  scheme : String
  netloc : String
  username : Option String
  password : Option String
  port : Except String (Option ℕ)
  hostname : Option String
  path : String
  query : String

structure Urllib where
  urlsplit : String → Except String SplitResult
  lower : String → String
  idna : String → Except String Unit

inductive SsrfError
  | validation (message : String)
  | dnsResolution (message : String)
  | valueError (message : String)
deriving DecidableEq, Repr

section
variable (I : Ipaddress)

def blockedMapped (ip : Addr) (n : ℕ) : Option String :=
  match ipv4BlockedNetworks.find? (·.has n) with
  | some net =>
    some ("IPv4-mapped IPv6 " ++ I.shown ip ++ " unwrapped to " ++ I.shown (.v4 n) ++
      " which is in blocked subnet " ++ net.text)
  | none =>
    if isLoopback4 n || I.private4 n || isLinkLocal4 n then
      some ("IPv4-mapped IPv6 " ++ I.shown ip ++ " unwrapped to private/loopback " ++ I.shown (.v4 n))
    else none

def blockedV6 (ip : Addr) (n : ℕ) : Option String :=
  match ipv6BlockedNetworks.find? (·.has n) with
  | some net => some ("IPv6 address " ++ I.shown ip ++ " is in blocked subnet " ++ net.text)
  | none =>
    if isLoopback6 n || I.private6 n || isLinkLocal6 n || isMulticast6 n || isUnspecified6 n then
      some ("IPv6 address " ++ I.shown ip ++ " is private/loopback/unspecified")
    else none

def blockedV4 (ip : Addr) (n : ℕ) : Option String :=
  match ipv4BlockedNetworks.find? (·.has n) with
  | some net => some ("IPv4 address " ++ I.shown ip ++ " is in blocked subnet " ++ net.text)
  | none =>
    -- an unspecified address is 0
    if isLoopback4 n || I.private4 n || isLinkLocal4 n || isMulticast4 n || isReserved4 n || n = 0 then
      some ("IPv4 address " ++ I.shown ip ++ " is private/loopback/unspecified")
    else none

def isIpBlocked : Addr → Option String
  | .v6 n scope => ((ipv4Mapped n).bind (blockedMapped I (.v6 n scope))).or (blockedV6 I (.v6 n scope) n)
  | .v4 n => blockedV4 I (.v4 n) n

end

def Addr.key : Addr → ℕ ×ₗ ℕ
  | .v4 n => toLex (0, n)
  | .v6 n _ => toLex (1, n)

/-! ## The stages -/

/-- What the syntactic stages make of a URL. -/
structure Endpoint where
  scheme : String
  hostname : String
  port : ℕ
  path : String
  query : String
deriving DecidableEq, Repr

structure SsrfValidationResult where
  targetIp : String
  hostname : String
  port : ℕ
  canonicalEndpoint : String
  allResolvedIps : List String
deriving DecidableEq, Repr

def hasControl (hostname : String) : Bool := hostname.toList.any fun c => Pep440.isSpace c || c.toNat < 32

def withoutDot (hostname : String) : String :=
  if hostname.toList.getLast? = some '.' then String.ofList hostname.toList.dropLast else hostname

def readPort (port : Except String (Option ℕ)) : Except SsrfError ℕ :=
  match port with
  | .error text => .error (.valueError text)
  | .ok none => .ok 443
  | .ok (some port) =>
    if 1 ≤ port ∧ port ≤ 65535 then .ok port
    else .error (.validation ("Invalid port number: " ++ toString port ++ ". Must be 1-65535."))

def readHostname (U : Urllib) (raw : Option String) : Except SsrfError String :=
  let rawHostname := raw.getD ""
  if rawHostname = "" then .error (.validation "Missing hostname in webhook URL.")
  else if hasControl rawHostname then
    .error (.validation "Hostname contains whitespace or control characters.")
  else
    let hostname := withoutDot (U.lower rawHostname)
    if hostname = "" then .error (.validation "Invalid empty hostname after trailing dot removal.")
    else
      match U.idna hostname with
      | .ok () => .ok hostname
      | .error text => .error (.validation ("Invalid IDNA hostname: " ++ text))

/-- Stages 1 to 4. -/
def syntacticStages (U : Urllib) (url : String) : Except SsrfError Endpoint :=
  if url = "" then .error (.validation "Webhook URL must be a non-empty string.")
  else
    match U.urlsplit (String.ofList (Pep440.strip url.toList)) with
    | .error text => .error (.validation ("Malformed URL: " ++ text))
    | .ok parsed =>
      let scheme := U.lower parsed.scheme
      if scheme ≠ "https" then
        .error (.validation ("Invalid URL scheme '" ++ scheme ++ "'. Webhooks strictly require HTTPS."))
      else if '@' ∈ parsed.netloc.toList ∨ parsed.username.isSome ∨ parsed.password.isSome then
        .error (.validation
          "Embedded user credentials (user:pass@) are strictly forbidden in webhook URLs.")
      else
        (readPort parsed.port).bind fun port =>
        (readHostname U parsed.hostname).map fun hostname =>
          { scheme, hostname, port, path := parsed.path, query := parsed.query }

/-- How the resolver answers; of a record the address text is read. `gaierror` is told from the other
exceptions. -/
inductive DnsAnswer
  | records (texts : List String)
  | gaierror (text : String)
  | failed (text : String)

section
variable (I : Ipaddress)

def resolvedRecords (dns : String → ℕ → DnsAnswer) (ep : Endpoint) : Except SsrfError (List String) :=
  match I.parse ep.hostname with
  | .ok a => .ok [I.shown a]
  | .error _ =>
    match dns ep.hostname ep.port with
    | .records texts => .ok texts
    | .gaierror text =>
      .error (.dnsResolution ("DNS resolution failed for hostname '" ++ ep.hostname ++ "': " ++ text))
    | .failed text =>
      .error (.dnsResolution ("DNS resolver error for hostname '" ++ ep.hostname ++ "': " ++ text))

def inspect (hostname : String) : List String → List String → List Addr → Except SsrfError (List Addr)
  | _, [], parsed => .ok parsed
  | seen, ipStr :: rest, parsed =>
    if ipStr ∈ seen then inspect hostname seen rest parsed
    else
      match I.parse ipStr with
      | .error text =>
        .error (.validation ("Unparseable IP address '" ++ ipStr ++ "' resolved: " ++ text))
      | .ok a =>
        match isIpBlocked I a with
        | some reason =>
          .error (.validation ("SSRF violation: Hostname '" ++ hostname ++
            "' resolves to forbidden address " ++ ipStr ++ ". Reason: " ++ reason))
        | none => inspect hostname (ipStr :: seen) rest (parsed ++ [a])

def selectDeterministicIp (validated : List Addr) : Except SsrfError String :=
  match KeyedSort.sort Addr.key validated with
  | [] => .error (.valueError "Cannot select deterministic IP from empty sequence.")
  | a :: _ => .ok (I.shown a)

def validateRecords (ep : Endpoint) (records : List String) : Except SsrfError SsrfValidationResult :=
  if records = [] then
    .error (.dnsResolution ("Zero DNS records resolved for hostname '" ++ ep.hostname ++ "'."))
  else
    (inspect I ep.hostname [] records []).bind fun parsedIps =>
      if parsedIps = [] then
        .error (.dnsResolution ("No valid IP addresses extracted from DNS for '" ++ ep.hostname ++ "'."))
      else
        (selectDeterministicIp I parsedIps).map fun targetIp =>
          { targetIp
            hostname := ep.hostname
            port := ep.port
            canonicalEndpoint := ep.scheme ++ "://" ++ ep.hostname ++
              (if ep.port ≠ 443 then ":" ++ toString ep.port else "") ++ ep.path ++
              (if ep.query = "" then "" else "?" ++ ep.query)
            allResolvedIps := parsedIps.map I.shown }

def validateUrl (U : Urllib) (dns : String → ℕ → DnsAnswer) (url : String) :
    Except SsrfError SsrfValidationResult :=
  (syntacticStages U url).bind fun ep => (resolvedRecords I dns ep).bind fun records =>
    validateRecords I ep records

end

/-! ## Which addresses are blocked -/

theorem find?_eq_none_iff (nets : List Network) (n : ℕ) :
    nets.find? (·.has n) = none ↔ nets.any (·.has n) = false := by
  rw [List.find?_eq_none, List.any_eq_false]

theorem not_has {nets : List Network} {net : Network} {n : ℕ} (h : nets.any (·.has n) = false)
    (hmem : net ∈ nets) : net.has n = false :=
  Bool.eq_false_of_not_eq_true (List.any_eq_false.mp h net hmem)

section
variable {I : Ipaddress}

variable (I) in
theorem blockedV4_eq_some (ip : Addr) {n : ℕ} (h : listed4 n = true) :
    ∃ reason, blockedV4 I ip n = some reason := by
  unfold blockedV4
  cases hfind : ipv4BlockedNetworks.find? (·.has n) with
  | some net => exact ⟨_, rfl⟩
  | none =>
    have hlisted : listed4 n = false := (find?_eq_none_iff _ _).mp hfind
    rw [h] at hlisted
    cases hlisted

theorem blockedV4_eq_none {ip : Addr} {n : ℕ} (h : listed4 n = false) : blockedV4 I ip n = none := by
  have hprivate : I.private4 n = false := by
    rw [← Bool.not_eq_true]
    intro hp
    rw [I.private4_listed n hp] at h
    cases h
  have hloopback : isLoopback4 n = false := not_has h (by simp [ipv4BlockedNetworks])
  have hlinkLocal : isLinkLocal4 n = false := not_has h (by simp [ipv4BlockedNetworks])
  have hmulticast : isMulticast4 n = false := not_has h (by simp [ipv4BlockedNetworks])
  have hreserved : isReserved4 n = false := not_has h (by simp [ipv4BlockedNetworks])
  have hzero : n ≠ 0 := by
    rintro rfl
    exact absurd h (by decide)
  unfold blockedV4
  rw [(find?_eq_none_iff _ _).mpr h]
  simp [hprivate, hloopback, hlinkLocal, hmulticast, hreserved, hzero]

theorem blockedV6_eq_none_iff {ip : Addr} {n : ℕ} :
    blockedV6 I ip n = none ↔ listed6 n = false ∧ I.private6 n = false := by
  unfold blockedV6
  cases hfind : ipv6BlockedNetworks.find? (·.has n) with
  | some net =>
    have hlisted : listed6 n ≠ false := by
      rw [listed6, ne_eq, ← find?_eq_none_iff, hfind]
      exact Option.some_ne_none net
    simp [hlisted]
  | none =>
    have h : listed6 n = false := (find?_eq_none_iff _ _).mp hfind
    have hloopback : isLoopback6 n = false := not_has h (by simp [ipv6BlockedNetworks])
    have hunspecified : isUnspecified6 n = false := not_has h (by simp [ipv6BlockedNetworks])
    have hlinkLocal : isLinkLocal6 n = false := not_has h (by simp [ipv6BlockedNetworks])
    have hmulticast : isMulticast6 n = false := not_has h (by simp [ipv6BlockedNetworks])
    simp [h, hloopback, hunspecified, hlinkLocal, hmulticast]

theorem listed6_of_embedded {form : Network} {shift n m : ℕ} (h : embedded form shift n = some m)
    (hmem : form ∈ ipv6BlockedNetworks) : listed6 n = true := by
  unfold embedded at h
  split at h
  next hform => exact List.any_eq_true.mpr ⟨form, hmem, hform⟩
  · cases h

theorem listed6_of_mapped {n m : ℕ} (h : ipv4Mapped n = some m) : listed6 n = true :=
  listed6_of_embedded h (by simp [ipv6BlockedNetworks])

theorem listed6_of_compatible {n m : ℕ} (h : ipv4Compatible n = some m) : listed6 n = true :=
  listed6_of_embedded h (by simp [ipv6BlockedNetworks])

def Addr.isListed : Addr → Bool
  | .v4 n => listed4 n
  | .v6 n _ => listed6 n

def Addr.isPrivate6 (I : Ipaddress) : Addr → Bool
  | .v4 _ => false
  | .v6 n _ => I.private6 n

def Addr.isTunnel : Addr → Bool
  | .v4 _ => false
  | .v6 n _ => tunnels n

def Addr.IsPublic : Addr → Prop
  | .v4 n => listed4 n = false
  | .v6 n _ => listed6 n = false ∧
    ∀ m, ipv4Mapped n = some m ∨ ipv4Compatible n = some m ∨ sixToFour n = some m ∨ nat64 n = some m →
      listed4 m = false

theorem isIpBlocked_eq_none_iff (a : Addr) :
    isIpBlocked I a = none ↔ a.isListed = false ∧ a.isPrivate6 I = false := by
  cases a with
  | v4 n =>
    simp only [isIpBlocked, Addr.isListed, Addr.isPrivate6, and_true]
    cases h : listed4 n with
    | false => simp [blockedV4_eq_none h]
    | true =>
      obtain ⟨reason, hreason⟩ := blockedV4_eq_some I (.v4 n) h
      simp [hreason]
  | v6 n scope =>
    simp only [isIpBlocked, Addr.isListed, Addr.isPrivate6, Option.or_eq_none_iff, blockedV6_eq_none_iff]
    refine and_iff_right_of_imp fun h => ?_
    cases hmapped : ipv4Mapped n with
    | none => rfl
    | some m =>
      rw [listed6_of_mapped hmapped] at h
      cases h.1

theorem any_eq_false_iff {o : Option ℕ} {p : ℕ → Bool} :
    o.any p = false ↔ ∀ m, o = some m → p m = false := by
  cases o <;> simp

theorem isPublic_iff (a : Addr) : a.IsPublic ↔ a.isListed = false ∧ a.isTunnel = false := by
  cases a with
  | v4 n => simp [Addr.IsPublic, Addr.isListed, Addr.isTunnel]
  | v6 n scope =>
    simp only [Addr.IsPublic, Addr.isListed, Addr.isTunnel, tunnels, Bool.or_eq_false_iff, any_eq_false_iff]
    refine and_congr_right fun h => ⟨fun hall => ?_, fun ⟨hsix, hnat⟩ m hm => ?_⟩
    · exact ⟨fun m hm => hall m (.inr (.inr (.inl hm))), fun m hm => hall m (.inr (.inr (.inr hm)))⟩
    · rcases hm with hm | hm | hm | hm
      · rw [listed6_of_mapped hm] at h
        cases h
      · rw [listed6_of_compatible hm] at h
        cases h
      · exact hsix m hm
      · exact hnat m hm

def Passes (I : Ipaddress) (ipStr : String) : Prop := ∃ a, I.parse ipStr = .ok a ∧ isIpBlocked I a = none

theorem inspect_of_passes (hostname : String) : ∀ {records : List String} (seen : List String)
    (parsed : List Addr), (∀ r ∈ records, r ∉ seen → Passes I r) → ∃ out, inspect I hostname seen records parsed = .ok out ∧
      parsed <+: out ∧ ∀ a, a ∈ out ↔ a ∈ parsed ∨ ∃ r ∈ records, r ∉ seen ∧ I.parse r = .ok a
  | [], seen, parsed, _ => ⟨parsed, rfl, List.prefix_refl _, by simp⟩
  | ipStr :: rest, seen, parsed, h => by
    by_cases hseen : ipStr ∈ seen
    · obtain ⟨out, hout, hprefix, hmem⟩ :=
        inspect_of_passes hostname seen parsed fun r hr => h r (List.mem_cons_of_mem _ hr)
      refine ⟨out, by rw [inspect, if_pos hseen, hout], hprefix, fun a => (hmem a).trans ?_⟩
      simp only [List.mem_cons, exists_eq_or_imp, hseen, not_true_eq_false, false_and, false_or]
    · obtain ⟨a, ha, hfree⟩ := h ipStr List.mem_cons_self hseen
      obtain ⟨out, hout, hprefix, hmem⟩ :=
        inspect_of_passes hostname (ipStr :: seen) (parsed ++ [a])
          fun r hr hnew => h r (List.mem_cons_of_mem _ hr) fun hold => hnew (List.mem_cons_of_mem _ hold)
      refine ⟨out, ?_, (List.prefix_append _ _).trans hprefix, fun b => (hmem b).trans ?_⟩
      · rw [inspect, if_neg hseen, ha]
        simp only [hfree, hout]
      · rw [List.mem_append, List.mem_singleton, or_assoc]
        apply or_congr_right
        constructor
        · rintro (rfl | ⟨r, hr, hnew, hb⟩)
          · exact ⟨ipStr, List.mem_cons_self, hseen, ha⟩
          · exact ⟨r, List.mem_cons_of_mem _ hr, fun hold => hnew (List.mem_cons_of_mem _ hold), hb⟩
        · rintro ⟨r, hr, hnew, hb⟩
          by_cases heq : r = ipStr
          · subst heq
            exact .inl (Except.ok.inj (hb.symm.trans ha))
          · have hrest := (List.mem_cons.mp hr).resolve_left heq
            exact .inr ⟨r, hrest, by simp [heq, hnew], hb⟩

theorem passes_of_inspect {hostname : String} : ∀ {records seen : List String} {parsed out : List Addr},
    inspect I hostname seen records parsed = .ok out → ∀ r ∈ records, r ∉ seen → Passes I r
  | ipStr :: rest, seen, parsed, out, h, r, hr, hnew => by
    unfold inspect at h
    by_cases hseen : ipStr ∈ seen
    · rw [if_pos hseen] at h
      rcases List.mem_cons.mp hr with rfl | hr
      · exact absurd hseen hnew
      · exact passes_of_inspect h r hr hnew
    · rw [if_neg hseen] at h
      split at h
      · cases h
      next a ha =>
        split at h
        · cases h
        next hfree =>
          by_cases heq : r = ipStr
          · exact heq ▸ ⟨a, ha, hfree⟩
          · have hrest := (List.mem_cons.mp hr).resolve_left heq
            exact passes_of_inspect h r hrest (by simp [heq, hnew])

def Least (I : Ipaddress) (records : List String) (a : Addr) : Prop :=
  (∃ r ∈ records, I.parse r = .ok a) ∧ ∀ b, (∃ r ∈ records, I.parse r = .ok b) → a.key ≤ b.key

theorem validateRecords_eq {records : List String} {ep : Endpoint} {out : List Addr} {a : Addr}
    {rest : List Addr} (hne : records ≠ []) (hout : inspect I ep.hostname [] records [] = .ok out)
    (hsort : KeyedSort.sort Addr.key out = a :: rest) :
    ∃ result, validateRecords I ep records = .ok result ∧ result.targetIp = I.shown a := by
  have hparsed : out ≠ [] := by
    rintro rfl
    cases hsort
  unfold validateRecords selectDeterministicIp
  rw [if_neg hne, hout]
  show ∃ result, (if out = [] then _ else _) = _ ∧ _
  rw [if_neg hparsed, hsort]
  exact ⟨_, rfl, rfl⟩

theorem exists_target {records : List String} (ep : Endpoint) (hne : records ≠ [])
    (h : ∀ r ∈ records, Passes I r) : ∃ result a, validateRecords I ep records = .ok result ∧
      Least I records a ∧ result.targetIp = I.shown a := by
  obtain ⟨out, hout, -, hmem⟩ := inspect_of_passes ep.hostname [] []
    fun r hr _ => h r hr
  have hparsed : ∀ a, a ∈ out ↔ ∃ r ∈ records, I.parse r = .ok a := fun a => by simpa using hmem a
  obtain ⟨r, hr⟩ := List.exists_mem_of_ne_nil records hne
  obtain ⟨b, hb, -⟩ := h r hr
  have hout_ne : out ≠ [] := List.ne_nil_of_mem ((hparsed b).mpr ⟨r, hr, hb⟩)
  obtain ⟨a, rest, hsort, ha, hleast⟩ := KeyedSort.exists_sort_eq_cons Addr.key hout_ne
  obtain ⟨result, hresult, htarget⟩ := validateRecords_eq hne hout hsort
  exact ⟨result, a, hresult, ⟨(hparsed a).mp ha, fun c hc => hleast c ((hparsed c).mpr hc)⟩, htarget⟩

theorem exists_target_of_first {r : String} {rest : List String} {a : Addr} (ep : Endpoint)
    (h : ∀ s ∈ r :: rest, Passes I s) (ha : I.parse r = .ok a) (hleast : Least I (r :: rest) a) :
    ∃ result, validateRecords I ep (r :: rest) = .ok result ∧ result.targetIp = I.shown a := by
  obtain ⟨out, hout, ⟨tail, rfl⟩, hmem⟩ := inspect_of_passes ep.hostname [r] [a] fun s hs _ =>
    h s (List.mem_cons_of_mem _ hs)
  have hfirst : inspect I ep.hostname [] (r :: rest) [] = .ok ([a] ++ tail) := by
    obtain ⟨a', ha', hfree⟩ := h r List.mem_cons_self
    obtain rfl : a = a' := Except.ok.inj (ha.symm.trans ha')
    rw [inspect, if_neg List.not_mem_nil, ha]
    simp only [hfree, List.nil_append]
    exact hout
  refine validateRecords_eq (List.cons_ne_nil r rest) hfirst (KeyedSort.sort_cons_of_least fun b hb => ?_)
  rcases (hmem b).mp (List.mem_append_right _ hb) with hb | ⟨s, hs, -, hparse⟩
  · rw [List.mem_singleton.mp hb]
  · exact hleast.2 b ⟨s, List.mem_cons_of_mem _ hs, hparse⟩

theorem validateRecords_iff (ep : Endpoint) (records : List String) :
    (∃ result, validateRecords I ep records = .ok result) ↔ records ≠ [] ∧ ∀ r ∈ records, Passes I r := by
  constructor
  · rintro ⟨result, h⟩
    unfold validateRecords at h
    split at h
    · cases h
    next hne =>
      refine ⟨hne, fun r hr => ?_⟩
      cases hout : inspect I ep.hostname [] records [] with
      | error e =>
        rw [hout] at h
        cases h
      | ok out => exact passes_of_inspect hout r hr List.not_mem_nil
  · rintro ⟨hne, h⟩
    obtain ⟨result, a, hresult, -⟩ := exists_target ep hne h
    exact ⟨result, hresult⟩

end

/-! ## The promise -/

section
variable (I : Ipaddress) (U : Urllib) (ep : Endpoint)

/-- The records that are looked at: those of the resolver, or the literal address. -/
def recordsOf (answer : List String) : List String :=
  match I.parse ep.hostname with
  | .ok a => [I.shown a]
  | .error _ => answer

theorem validateUrl_eq {url : String} (hurl : syntacticStages U url = .ok ep) (answer : List String) :
    validateUrl I U (fun _ _ => .records answer) url = validateRecords I ep (recordsOf I ep answer) := by
  unfold validateUrl resolvedRecords recordsOf
  rw [hurl]
  cases h : I.parse ep.hostname <;> simp [Except.bind, h]

/-- What is promised of a URL and the resolver's records. -/
structure ValidatesExactly (url : String) (answer : List String) : Prop where
  accepts : (∃ result, validateUrl I U (fun _ _ => .records answer) url = .ok result) ↔
    recordsOf I ep answer ≠ [] ∧ ∀ r ∈ recordsOf I ep answer, ∃ a, I.parse r = .ok a ∧ a.IsPublic
  pins : ∀ result, validateUrl I U (fun _ _ => .records answer) url = .ok result →
    ∃ a, Least I (recordsOf I ep answer) a ∧ result.targetIp = I.shown a
  stable : ∀ answer', answer.Perm answer' → ∀ result result',
    validateUrl I U (fun _ _ => .records answer) url = .ok result →
      validateUrl I U (fun _ _ => .records answer') url = .ok result' → result.targetIp = result'.targetIp

/-- Unless a record is refused for what both sides look at, some address is private in Python's tables
exactly if some address tunnels a blocked one; and where all is accepted there is one least address. -/
structure Judged (records : List String) : Prop where
  alike : (∀ r ∈ records, ∃ a, I.parse r = .ok a ∧ a.isListed = false) →
    ((∃ r ∈ records, ∃ a, I.parse r = .ok a ∧ a.isPrivate6 I = true) ↔
      ∃ r ∈ records, ∃ a, I.parse r = .ok a ∧ a.isTunnel = true)
  single : (∀ r ∈ records, Passes I r) → ∀ a b, Least I records a → Least I records b → a = b

variable {I U ep} {records records' : List String}

theorem forall_record_iff (kind : Addr → Bool) :
    (∀ r ∈ records, ∃ a, I.parse r = .ok a ∧ a.isListed = false ∧ kind a = false) ↔
      (∀ r ∈ records, ∃ a, I.parse r = .ok a ∧ a.isListed = false) ∧
        ¬∃ r ∈ records, ∃ a, I.parse r = .ok a ∧ kind a = true := by
  constructor
  · intro h
    refine ⟨fun r hr => ?_, ?_⟩
    · obtain ⟨a, ha, hlisted, -⟩ := h r hr
      exact ⟨a, ha, hlisted⟩
    · rintro ⟨r, hr, b, hb, hkind⟩
      obtain ⟨a, ha, -, hnot⟩ := h r hr
      obtain rfl := Except.ok.inj (ha.symm.trans hb)
      rw [hkind] at hnot
      cases hnot
  · rintro ⟨hlisted, hnone⟩ r hr
    obtain ⟨a, ha, hfree⟩ := hlisted r hr
    refine ⟨a, ha, hfree, ?_⟩
    rw [← Bool.not_eq_true]
    exact fun hkind => hnone ⟨r, hr, a, ha, hkind⟩

theorem forall_passes_iff : (∀ r ∈ records, Passes I r) ↔
    (∀ r ∈ records, ∃ a, I.parse r = .ok a ∧ a.isListed = false) ∧
      ¬∃ r ∈ records, ∃ a, I.parse r = .ok a ∧ a.isPrivate6 I = true := by
  rw [← forall_record_iff]
  simp only [Passes, isIpBlocked_eq_none_iff]

theorem forall_isPublic_iff : (∀ r ∈ records, ∃ a, I.parse r = .ok a ∧ a.IsPublic) ↔
    (∀ r ∈ records, ∃ a, I.parse r = .ok a ∧ a.isListed = false) ∧
      ¬∃ r ∈ records, ∃ a, I.parse r = .ok a ∧ a.isTunnel = true := by
  rw [← forall_record_iff]
  simp only [isPublic_iff]

theorem Least.of_perm {a : Addr} (hperm : records.Perm records') (h : Least I records a) :
    Least I records' a := by
  obtain ⟨⟨r, hr, ha⟩, hleast⟩ := h
  refine ⟨⟨r, hperm.mem_iff.mp hr, ha⟩, fun b hb => hleast b ?_⟩
  obtain ⟨s, hs, hparse⟩ := hb
  exact ⟨s, hperm.mem_iff.mpr hs, hparse⟩

theorem perm_recordsOf (hperm : records.Perm records') :
    (recordsOf I ep records).Perm (recordsOf I ep records') := by
  unfold recordsOf
  split
  · exact .refl _
  · exact hperm

theorem shown_injective {a b : Addr} {r s : String} (ha : I.parse r = .ok a) (hb : I.parse s = .ok b)
    (h : I.shown a = I.shown b) : a = b := by
  have hback := I.parse_shown r a ha
  rw [h, I.parse_shown s b hb] at hback
  exact (Except.ok.inj hback).symm

theorem exists_perm_target (ep : Endpoint) (h : ∀ r ∈ records, Passes I r) {a : Addr}
    (hleast : Least I records a) : ∃ records', records.Perm records' ∧
      ∃ result, validateRecords I ep records' = .ok result ∧ result.targetIp = I.shown a := by
  classical
  obtain ⟨r, hr, ha⟩ := hleast.1
  have hperm : records.Perm (r :: records.erase r) := List.perm_cons_erase hr
  refine ⟨_, hperm, exists_target_of_first ep (fun s hs => h s (hperm.mem_iff.mpr hs)) ha ?_⟩
  exact hleast.of_perm hperm

theorem single_of_stable {url : String} {answer : List String} (hurl : syntacticStages U url = .ok ep)
    (h : ValidatesExactly I U ep url answer) (hpass : ∀ r ∈ recordsOf I ep answer, Passes I r) {a b : Addr}
    (ha : Least I (recordsOf I ep answer) a) (hb : Least I (recordsOf I ep answer) b) : a = b := by
  obtain ⟨r, hr, hra⟩ := ha.1
  obtain ⟨s, hs, hsb⟩ := hb.1
  cases hliteral : I.parse ep.hostname with
  | ok l =>
    have hone : recordsOf I ep answer = [I.shown l] := by rw [recordsOf, hliteral]
    rw [hone, List.mem_singleton] at hr hs
    rw [hr] at hra
    rw [hs, hra] at hsb
    exact Except.ok.inj hsb
  | error text =>
    have hsame : ∀ answer, recordsOf I ep answer = answer := fun answer => by rw [recordsOf, hliteral]
    rw [hsame answer] at hpass ha hb
    have htarget : ∀ c, Least I answer c → ∀ result,
        validateUrl I U (fun _ _ => .records answer) url = .ok result → result.targetIp = I.shown c := by
      intro c hc result hresult
      obtain ⟨answer', hperm, result', hresult', hshown⟩ := exists_perm_target ep hpass hc
      have hother := validateUrl_eq I U ep hurl answer'
      rw [hsame, hresult'] at hother
      rw [← hshown]
      exact h.stable answer' hperm result result' hresult hother
    obtain ⟨result, -, hresult, -⟩ := exists_target ep (List.ne_nil_of_mem (hsame answer ▸ hr)) hpass
    have hurl' := validateUrl_eq I U ep hurl answer
    rw [hsame, hresult] at hurl'
    exact shown_injective hra hsb ((htarget a ha result hurl').symm.trans (htarget b hb result hurl'))

/-- **The SSRF guard.** The promise is kept exactly where Python's private addresses and the tunnelled
ones decide alike, and no two of the least addresses differ. -/
theorem validatesExactly_iff (I : Ipaddress) (U : Urllib) (ep : Endpoint) (url : String)
    (answer : List String) (hurl : syntacticStages U url = .ok ep) :
    ValidatesExactly I U ep url answer ↔ Judged I (recordsOf I ep answer) := by
  have haccepts : ((∃ result, validateUrl I U (fun _ _ => .records answer) url = .ok result) ↔
      recordsOf I ep answer ≠ [] ∧ ∀ r ∈ recordsOf I ep answer, ∃ a, I.parse r = .ok a ∧ a.IsPublic) ↔
      ((∀ r ∈ recordsOf I ep answer, ∃ a, I.parse r = .ok a ∧ a.isListed = false) →
        ((∃ r ∈ recordsOf I ep answer, ∃ a, I.parse r = .ok a ∧ a.isPrivate6 I = true) ↔
          ∃ r ∈ recordsOf I ep answer, ∃ a, I.parse r = .ok a ∧ a.isTunnel = true)) := by
    rw [validateUrl_eq I U ep hurl, validateRecords_iff, forall_passes_iff, forall_isPublic_iff]
    by_cases hnil : recordsOf I ep answer = []
    · simp [hnil]
    · simp only [ne_eq, hnil, not_false_eq_true, true_and]
      rw [and_congr_right_iff]
      exact imp_congr_right fun _ => not_iff_not
  constructor
  · intro h
    exact ⟨haccepts.mp h.accepts, fun hpass a b ha hb => single_of_stable hurl h hpass ha hb⟩
  · intro h
    refine ⟨haccepts.mpr h.alike, ?_, ?_⟩
    · intro result hresult
      rw [validateUrl_eq I U ep hurl] at hresult
      obtain ⟨hne, hpass⟩ := (validateRecords_iff ep _).mp ⟨result, hresult⟩
      obtain ⟨result', a, hresult', hleast, hshown⟩ := exists_target ep hne hpass
      obtain rfl := Except.ok.inj (hresult.symm.trans hresult')
      exact ⟨a, hleast, hshown⟩
    · intro answer' hperm result result' hresult hresult'
      rw [validateUrl_eq I U ep hurl] at hresult hresult'
      have hrecords : (recordsOf I ep answer).Perm (recordsOf I ep answer') := perm_recordsOf hperm
      obtain ⟨hne, hpass⟩ := (validateRecords_iff ep _).mp ⟨result, hresult⟩
      obtain ⟨hne', hpass'⟩ := (validateRecords_iff ep _).mp ⟨result', hresult'⟩
      obtain ⟨first, a, hfirst, hleast, hshown⟩ := exists_target ep hne hpass
      obtain ⟨second, b, hsecond, hleast', hshown'⟩ := exists_target ep hne' hpass'
      obtain rfl := Except.ok.inj (hresult.symm.trans hfirst)
      obtain rfl := Except.ok.inj (hresult'.symm.trans hsecond)
      rw [hshown, hshown', h.single hpass a b hleast (hleast'.of_perm hrecords.symm)]

end

def privateNetworks4 : List Network :=
  ipv4BlockedNetworks.filter fun net => net.text ≠ "100.64.0.0/10" ∧ net.text ≠ "224.0.0.0/4"

/-- `192.0.0.9` and `192.0.0.10`. -/
def isPrivate4 (n : ℕ) : Bool := privateNetworks4.any (·.has n) && n ≠ quad 192 0 0 9 && n ≠ quad 192 0 0 10

def privateNetworks6 : List Network :=
  [⟨"::1/128", 1, 0⟩,
   ⟨"::/128", 0, 0⟩,
   ⟨"::ffff:0:0/96", 0xffff * 2 ^ 32, 32⟩,
   ⟨"64:ff9b:1::/48", groups 0x64 0xff9b + 2 ^ 80, 80⟩,
   ⟨"100::/64", groups 0x100 0, 64⟩,
   ⟨"2001::/23", groups 0x2001 0, 105⟩,
   ⟨"2001:db8::/32", groups 0x2001 0xdb8, 96⟩,
   ⟨"2002::/16", groups 0x2002 0, 112⟩,
   ⟨"3fff::/20", groups 0x3fff 0, 108⟩,
   ⟨"fc00::/7", groups 0xfc00 0, 121⟩,
   ⟨"fe80::/10", groups 0xfe80 0, 118⟩]

def privateExceptions6 : List Network :=
  [⟨"2001:1::1/128", groups 0x2001 1 + 1, 0⟩,
   ⟨"2001:1::2/128", groups 0x2001 1 + 2, 0⟩,
   ⟨"2001:3::/32", groups 0x2001 3, 96⟩,
   ⟨"2001:4:112::/48", groups 0x2001 4 + 0x112 * 2 ^ 80, 80⟩,
   ⟨"2001:20::/28", groups 0x2001 0x20, 100⟩,
   ⟨"2001:30::/28", groups 0x2001 0x30, 100⟩]

def isPrivate6 (n : ℕ) : Bool :=
  privateNetworks6.any (·.has n) && !(privateExceptions6.any (·.has n))

theorem listed4_of_isPrivate4 (n : ℕ) (h : isPrivate4 n = true) : listed4 n = true := by
  simp only [isPrivate4, Bool.and_eq_true, List.any_eq_true] at h
  obtain ⟨⟨⟨net, hmem, hhas⟩, -⟩, -⟩ := h
  exact List.any_eq_true.mpr ⟨net, List.mem_of_mem_filter hmem, hhas⟩

/-- `64:ff9b::a00:1`, which is `10.0.0.1` behind NAT64. -/
def tunnelled : Addr := .v6 (groups 0x64 0xff9b + quad 10 0 0 1) ""

/-- The tables above, with the texts of this one address. -/
def tunnelIpaddress : Ipaddress where
  parse := fun s =>
    if s = "64:ff9b::a00:1" then .ok tunnelled
    else .error ("'" ++ s ++ "' does not appear to be an IPv4 or IPv6 address")
  shown := fun _ => "64:ff9b::a00:1"
  parse_shown := by
    intro s a h
    split at h
    · exact h
    · cases h
  private4 := isPrivate4
  private6 := isPrivate6
  private4_listed := listed4_of_isPrivate4

def hookUrllib : Urllib where
  urlsplit := fun _ => .ok
    { scheme := "https", netloc := "hooks.test", username := none, password := none, port := .ok none
      hostname := some "hooks.test", path := "/", query := "" }
  lower := fun s => s
  idna := fun _ => .ok ()

def hookEndpoint : Endpoint := ⟨"https", "hooks.test", 443, "/", ""⟩

theorem hook_stages : syntacticStages hookUrllib "https://hooks.test/" = .ok hookEndpoint := by
  decide +kernel

theorem validatesExactly_iff_tunnel :
    ValidatesExactly tunnelIpaddress hookUrllib hookEndpoint "https://hooks.test/" ["64:ff9b::a00:1"] ↔
      Judged tunnelIpaddress (recordsOf tunnelIpaddress hookEndpoint ["64:ff9b::a00:1"]) :=
  validatesExactly_iff _ _ _ _ _ hook_stages

theorem nat64_tunnel_is_accepted : ¬ ∀ (I : Ipaddress) (U : Urllib) (ep : Endpoint) (url : String)
    (answer : List String), syntacticStages U url = .ok ep → ValidatesExactly I U ep url answer := by
  intro h
  have hexact := h tunnelIpaddress hookUrllib hookEndpoint "https://hooks.test/" ["64:ff9b::a00:1"] hook_stages
  have hparse : tunnelIpaddress.parse "64:ff9b::a00:1" = .ok tunnelled := rfl
  have hrecords : recordsOf tunnelIpaddress hookEndpoint ["64:ff9b::a00:1"] = ["64:ff9b::a00:1"] := rfl
  have hfree : isIpBlocked tunnelIpaddress tunnelled = none :=
    (isIpBlocked_eq_none_iff _).mpr ⟨by decide +kernel, by decide +kernel⟩
  have haccepted := (@validateRecords_iff tunnelIpaddress hookEndpoint ["64:ff9b::a00:1"]).mpr
    ⟨List.cons_ne_nil _ _, by simpa using ⟨tunnelled, hparse, hfree⟩⟩
  rw [← hrecords, ← validateUrl_eq _ _ _ hook_stages] at haccepted
  obtain ⟨-, hpublic⟩ := hexact.accepts.mp haccepted
  obtain ⟨a, ha, hgood⟩ := hpublic _ List.mem_cons_self
  obtain rfl := Except.ok.inj (hparse.symm.trans ha)
  exact absurd ((isPublic_iff _).mp hgood).2 (by decide +kernel)

end TimeCodeSecurity.Webhooks.Ssrf
