import TimeCodeSecurity.Foundations.Tables
import TimeCodeSecurity.Notifications.Models
import TimeCodeSecurity.Scanner.Nosec

/-! # Domain events

`event_taxonomy.py`: freezing the metadata of an event, the check for raw secrets, and the construction of
an event. What Python shows of a value, and its conversion to an integer, are parameters.
-/
namespace TimeCodeSecurity.Events
open Tables Notifications
set_option autoImplicit false

inductive Leaf
  | none
  | bool (b : Bool)
  | int (n : ℤ)
  | float (text : String)
  | str (s : String)
  | bytes (bs : List UInt8)
deriving DecidableEq, Repr

inductive SeqKind
  | list | tuple | set | frozenset
deriving DecidableEq, Repr

inductive MapKind
  | dict | mappingProxy
deriving DecidableEq, Repr

/-- A key of a mapping: a string, or any other object, with what `str` makes of it. -/
inductive Key
  | str (s : String)
  | other (id : ℕ) (text : String)
deriving DecidableEq, Repr

def Key.text : Key → String
  | .str s => s
  | .other _ text => text

inductive Value
  | leaf (l : Leaf)
  | seq (kind : SeqKind) (items : List Value)
  | mapping (kind : MapKind) (fields : List (Key × Value))
  | unsupported (typeName : String)

def SeqKind.frozen : SeqKind → SeqKind
  | .list | .tuple => .tuple
  | .set | .frozenset => .frozenset

def unsupportedText (typeName : String) : String :=
  "Unsupported metadata type '" ++ typeName ++ "'. SecurityDomainEvent metadata strictly supports " ++
    "immutable primitives (None, bool, int, float, str, bytes) and standard containers (dict, list, " ++
    "tuple, set, frozenset, MappingProxyType)."

/-- `MappingProxyType` over a dictionary with string keys. -/
def proxyOf (fields : List (String × Value)) : Value :=
  .mapping .mappingProxy (fields.map fun e => (.str e.1, e.2))

mutual

def freezeData : Value → Except String Value
  | .leaf l => .ok (.leaf l)
  | .seq kind items => (freezeItems items).map (.seq kind.frozen)
  -- the dictionary that is built takes the last value of a key
  | .mapping _ fields => (freezeFields fields).map fun frozen => proxyOf (setItems [] frozen)
  | .unsupported typeName => .error (unsupportedText typeName)

def freezeItems : List Value → Except String (List Value)
  | [] => .ok []
  | v :: items => (freezeData v).bind fun w => (freezeItems items).map (w :: ·)

def freezeFields : List (Key × Value) → Except String (List (String × Value))
  | [] => .ok []
  | (k, v) :: fields => (freezeData v).bind fun w => (freezeFields fields).map ((k.text, w) :: ·)

end

/-- `\b`, one of `heads`, then a run of `body` characters and `\b`. -/
structure TokenPattern where
  heads : List String
  body : Char → Bool
  atLeast : ℕ
  exactly : Bool

def isUpperDigit (c : Char) : Bool := c.isDigit || ('A' ≤ c && c ≤ 'Z')

def isAsciiAlnum (c : Char) : Bool := isUpperDigit c || ('a' ≤ c && c ≤ 'z')

def tokenPatterns : List TokenPattern :=
  [⟨["AKIA", "ABIA", "ACCA", "ASIA"], isUpperDigit, 16, true⟩,
   ⟨["sk_live_", "sk_test_", "rk_live_", "rk_test_"], isAsciiAlnum, 24, false⟩,
   ⟨["ghp_", "gho_", "ghu_", "ghs_", "ghr_"], isAsciiAlnum, 36, false⟩]

def privateKeyHeaders : List String :=
  ["", "RSA ", "EC ", "DSA ", "OPENSSH "].map fun kind => "-----BEGIN " ++ kind ++ "PRIVATE KEY-----"

section
variable (isWord : Char → Bool)

def isEdge : Option Char → Bool
  | none => true
  | some c => !isWord c

def TokenPattern.runAt (p : TokenPattern) (rest : List Char) : Bool :=
  let run := if p.exactly then rest.take p.atLeast else rest.takeWhile p.body
  p.atLeast ≤ run.length && run.all p.body && isEdge isWord (rest.drop run.length).head?

def TokenPattern.matchesAt (p : TokenPattern) (before : Option Char) (text : List Char) : Bool :=
  isEdge isWord before && p.heads.any fun head =>
    head.toList.isPrefixOf text && p.runAt isWord (text.drop head.length)

def secretAt (before : Option Char) (text : List Char) : Bool :=
  (tokenPatterns.any fun p => p.matchesAt isWord before text) ||
    privateKeyHeaders.any fun header => header.toList.isPrefixOf text

/-- Some pattern of `_KNOWN_SECRET_PATTERNS` is found from here on. -/
def searchSecret : Option Char → List Char → Bool
  | _, [] => false
  | before, c :: text => secretAt isWord before (c :: text) || searchSecret (some c) text

end

/-- `\w` outside ASCII is `str.isalnum`. -/
def knownSecret (alnum : Char → Bool) (s : String) : Bool :=
  searchSecret (Scanner.isWord alnum) none s.toList

/-- The patterns over a byte string, where `\w` is ASCII. -/
def knownSecretBytes (bs : List UInt8) : Bool :=
  searchSecret (Scanner.isWord fun _ => false) none (bs.map fun b => Char.ofNat b.toNat)

section
variable (alnum : Char → Bool)

def Leaf.isRawSecret : Leaf → Bool
  | .str s => knownSecret alnum s
  | _ => false

def rawSecretText (path : String) : String :=
  "Security policy violation: Known high-risk raw secret pattern detected at '" ++ path ++
    "'. Secrets must be masked (e.g. 'AKIA****************') before constructing domain events."

mutual

def assertNoRawSecrets (path : String) : Value → Except String Unit
  | .leaf l => if l.isRawSecret alnum then .error (rawSecretText path) else .ok ()
  | .mapping _ fields => assertFields path fields
  | .seq _ items => assertItems path 0 items
  | .unsupported _ => .ok ()

def assertItems (path : String) : ℕ → List Value → Except String Unit
  | _, [] => .ok ()
  | idx, v :: items =>
    (assertNoRawSecrets (path ++ "[" ++ toString idx ++ "]") v).bind fun _ => assertItems path (idx + 1) items

def assertFields (path : String) : List (Key × Value) → Except String Unit
  | [] => .ok ()
  | (k, v) :: fields =>
    (assertNoRawSecrets (path ++ "." ++ k.text) v).bind fun _ => assertFields path fields

end

end

section
variable {β : Type} (atLeaf : Leaf → List β) (atMapping : List (Key × Value) → List β)

mutual

def collect : Value → List β
  | .leaf l => atLeaf l
  | .seq _ items => collectItems items
  | .mapping _ fields => atMapping fields ++ collectFields fields
  | .unsupported _ => []

def collectItems : List Value → List β
  | [] => []
  | v :: items => collect v ++ collectItems items

def collectFields : List (Key × Value) → List β
  | [] => []
  | (_, v) :: fields => collect v ++ collectFields fields

end

end

namespace Value

def leaves : Value → List Leaf := collect (fun l => [l]) fun _ => []

def keys : Value → List Key := collect (fun _ => []) (List.map Prod.fst)

def mappings : Value → List (List (Key × Value)) := collect (fun _ => []) fun fields => [fields]

def isMapping : Value → Bool
  | .mapping .. => true
  | _ => false

def entryCount : Value → ℕ
  | .mapping _ fields => fields.length
  | _ => 0

end Value

inductive EventType
  | scanCompleted | criticalFindingDetected | secretsLeakDetected | policyViolation
deriving DecidableEq, Repr

def eventTypes : List (String × EventType) :=
  [("SCAN_COMPLETED", .scanCompleted), ("CRITICAL_FINDING_DETECTED", .criticalFindingDetected),
   ("SECRETS_LEAK_DETECTED", .secretsLeakDetected), ("POLICY_VIOLATION", .policyViolation)]

inductive ScanStatus
  | success | partialScan | failed
deriving DecidableEq, Repr

def ScanStatus.value : ScanStatus → String
  | .success => "SUCCESS"
  | .partialScan => "PARTIAL"
  | .failed => "FAILED"

structure EventSummary where
  sastFindings : ℤ := 0
  scaFindings : ℤ := 0
  secretFindings : ℤ := 0
  totalFindings : ℤ := 0
  criticalCount : ℤ := 0
  highCount : ℤ := 0
  mediumCount : ℤ := 0
  lowCount : ℤ := 0
  securityScore : ℤ := 100
  riskLevel : String := "CLEAN"
  scanStatus : ScanStatus := .success
  message : String := ""
deriving DecidableEq, Repr

def EventSummary.toDict (s : EventSummary) : Value :=
  .mapping .dict
    [(.str "sast_findings", .leaf (.int s.sastFindings)),
     (.str "sca_findings", .leaf (.int s.scaFindings)),
     (.str "secret_findings", .leaf (.int s.secretFindings)),
     (.str "total_findings", .leaf (.int s.totalFindings)),
     (.str "critical_count", .leaf (.int s.criticalCount)),
     (.str "high_count", .leaf (.int s.highCount)),
     (.str "medium_count", .leaf (.int s.mediumCount)),
     (.str "low_count", .leaf (.int s.lowCount)),
     (.str "security_score", .leaf (.int s.securityScore)),
     (.str "risk_level", .leaf (.str s.riskLevel)),
     (.str "scan_status", .leaf (.str s.scanStatus.value)),
     (.str "message", .leaf (.str s.message))]

/-- `str(v)`, `type(v).__name__`, `int(v)`, and `str.isalnum` of a character outside ASCII. -/
structure Runtime where
  str : Value → String
  typeName : Value → String
  int : Value → Except String ℤ
  alnum : Char → Bool

structure EventInput where
  schemaVersion : Value
  eventId : Value
  eventType : EventType ⊕ Value
  timestamp : Value
  repository : Value
  scanId : Value
  summary : EventSummary ⊕ Value
  highRiskCount : Value
  metadata : Value
  dedupeKey : Value

structure SecurityDomainEvent where
  eventType : EventType
  eventId : String
  timestamp : String
  repository : String
  scanId : String
  summary : EventSummary
  highRiskCount : ℤ
  metadata : Value
  dedupeKey : String

/-! ## Construction -/

/-- `isinstance(v, int)`; a truth value is an integer. -/
def Value.asInt : Value → Option ℤ
  | .leaf (.int n) => some n
  | .leaf (.bool b) => some (if b then 1 else 0)
  | _ => none

def Value.asStr : Value → Option String
  | .leaf (.str s) => some s
  | _ => none

section
variable (R : Runtime)

def readEventType : EventType ⊕ Value → Except String EventType
  | .inl t => .ok t
  | .inr v =>
    match v.asStr with
    | some s =>
      match eventTypes.lookup s with
      | some t => .ok t
      | none =>
        .error ("Invalid event_type: '" ++ s ++ "'. Must be one of ['SCAN_COMPLETED', " ++
          "'CRITICAL_FINDING_DETECTED', 'SECRETS_LEAK_DETECTED', 'POLICY_VIOLATION'].")
    | none => .error ("Invalid event_type: " ++ R.str v ++ ". Expected EventType enum.")

def readText (fieldName : String) (v : Value) : Except String String :=
  match v.asStr with
  | some s =>
    if Pep440.strip s.toList = [] then .error ("Field '" ++ fieldName ++ "' must be a non-empty string.")
    else .ok s
  | none => .error ("Field '" ++ fieldName ++ "' must be a non-empty string.")

def readStatus (v : Option Value) : Except String ScanStatus :=
  match v with
  | none => .ok .success
  | some v =>
    match [ScanStatus.success, .partialScan, .failed].find? fun s => v.asStr = some s.value with
    | some s => .ok s
    | none => .error (R.str v ++ " is not a valid ScanStatus")

def readSummaryFields (fields : List (Key × Value)) : Except String EventSummary := do
  let get (name : String) : Option Value := fields.lookup (.str name)
  let count (v : Option Value) (default : ℤ) : Except String ℤ := v.elim (.ok default) R.int
  let scanStatus ← readStatus R (get "scan_status")
  let sastFindings ← count ((get "sast_findings").or (get "sast")) 0
  let scaFindings ← count ((get "sca_findings").or (get "sca")) 0
  let secretFindings ← count ((get "secret_findings").or (get "secrets")) 0
  let totalFindings ← count (get "total_findings") 0
  let criticalCount ← count (get "critical_count") 0
  let highCount ← count (get "high_count") 0
  let mediumCount ← count (get "medium_count") 0
  let lowCount ← count (get "low_count") 0
  let securityScore ← count (get "security_score") 100
  return {
    sastFindings, scaFindings, secretFindings, totalFindings, criticalCount, highCount, mediumCount,
    lowCount, securityScore, scanStatus
    riskLevel := (get "risk_level").elim "CLEAN" R.str
    message := (get "message").elim "" R.str }

def readSummary : EventSummary ⊕ Value → Except String EventSummary
  | .inl s => .ok s
  | .inr (.mapping _ fields) => readSummaryFields R fields
  | .inr v =>
    .error ("Field 'summary' must be an EventSummary instance, got " ++ R.typeName v ++ ".")

def checkSchemaVersion (v : Value) : Except String Unit :=
  if v.asInt = some 1 then .ok ()
  else .error ("Unsupported schema_version: " ++ R.str v ++ ". Expected 1.")

def readHighRiskCount (v : Value) : Except String ℤ :=
  match v.asInt.filter (0 ≤ ·) with
  | some n => .ok n
  | none => .error ("Field 'high_risk_count' must be a non-negative integer, got " ++ R.str v ++ ".")

def checkFields (e : EventInput) : Except String SecurityDomainEvent := do
  checkSchemaVersion R e.schemaVersion
  let eventType ← readEventType R e.eventType
  let eventId ← readText "event_id" e.eventId
  let timestamp ← readText "timestamp" e.timestamp
  let repository ← readText "repository" e.repository
  let scanId ← readText "scan_id" e.scanId
  let summary ← readSummary R e.summary
  let highRiskCount ← readHighRiskCount R e.highRiskCount
  return {
    eventType, eventId, timestamp, repository, scanId, summary, highRiskCount
    metadata := proxyOf []
    dedupeKey := "" }

def metadataOf (v : Value) : Except String Value :=
  match v with
  | .leaf .none => .ok (proxyOf [])
  | v => (freezeData v).map fun frozen => if frozen.isMapping then frozen else proxyOf []

def isDigest (v : Value) : Bool := v.asStr.any fun s => s.length = 64

/-- `__post_init__`. -/
def construct (e : EventInput) : Except String SecurityDomainEvent :=
  (checkFields R e).bind fun event =>
  (metadataOf e.metadata).bind fun metadata =>
  (assertNoRawSecrets R.alnum "summary" event.summary.toDict).bind fun _ =>
  (assertNoRawSecrets R.alnum "metadata" metadata).bind fun _ =>
    if isDigest e.dedupeKey then .ok { event with metadata, dedupeKey := e.dedupeKey.asStr.getD "" }
    else
      .error ("Invalid dedupe_key: '" ++ R.str e.dedupeKey ++
        "'. Expected a 64-character SHA-256 hex digest.")

end

theorem map_eq_ok {α β : Type} {x : Except String α} {f : α → β} {b : β} :
    x.map f = .ok b ↔ ∃ a, x = .ok a ∧ f a = b := by
  cases x <;> simp [Except.map]

def DistinctKeys (fields : List (Key × Value)) : Prop := (fields.map fun e => e.1.text).Nodup

theorem keys_freezeFields : ∀ {fields : List (Key × Value)} {frozen : List (String × Value)},
    freezeFields fields = .ok frozen → frozen.map Prod.fst = fields.map fun e => e.1.text
  | [], _, h => by
    cases h
    rfl
  | (k, v) :: fields, frozen, h => by
    obtain ⟨w, -, h⟩ := Except.bind_eq_ok.mp h
    obtain ⟨rest, hrest, rfl⟩ := map_eq_ok.mp h
    rw [List.map_cons, List.map_cons, keys_freezeFields hrest]

theorem entryCount_eq_iff {kind : MapKind} {fields : List (Key × Value)} {w : Value}
    (h : freezeData (.mapping kind fields) = .ok w) :
    w.entryCount = fields.length ↔ DistinctKeys fields := by
  obtain ⟨frozen, hfrozen, rfl⟩ := map_eq_ok.mp h
  have hkeys := keys_freezeFields hfrozen
  have hlength : frozen.length = fields.length := by
    rw [← List.length_map Prod.fst, hkeys, List.length_map]
  have hcount : (setItems [] frozen).length = ([] : List (String × Value)).length + frozen.length ↔
      (([] ++ frozen).map Prod.fst).Nodup := length_setItems_eq_iff (by simp)
  rw [List.length_nil, Nat.zero_add, List.nil_append, hkeys, hlength] at hcount
  rw [DistinctKeys, ← hcount, proxyOf, Value.entryCount, List.length_map]

theorem setItems_freezeFields {fields : List (Key × Value)} {frozen : List (String × Value)}
    (h : freezeFields fields = .ok frozen) (hdistinct : DistinctKeys fields) :
    setItems [] frozen = frozen := by
  apply setItems_of_nodup
  rw [List.nil_append, keys_freezeFields h]
  exact hdistinct

theorem collectFields_proxy {β : Type} (atLeaf : Leaf → List β)
    (atMapping : List (Key × Value) → List β) (fields : List (String × Value)) :
    collectFields atLeaf atMapping (fields.map fun e => (Key.str e.1, e.2)) =
      fields.flatMap fun e => collect atLeaf atMapping e.2 := by
  induction fields with
  | nil => rfl
  | cons e fields ih => rw [List.map_cons, collectFields, ih, List.flatMap_cons]

mutual

theorem leaves_freezeData : ∀ {v w : Value}, freezeData v = .ok w →
    (∀ fields ∈ v.mappings, DistinctKeys fields) → w.leaves = v.leaves
  | .leaf l, w, h, _ => by
    cases h
    rfl
  | .seq kind items, w, h, hdistinct => by
    obtain ⟨ws, hws, rfl⟩ := map_eq_ok.mp h
    exact leaves_freezeItems hws hdistinct
  | .mapping kind fields, w, h, hdistinct => by
    obtain ⟨frozen, hfrozen, rfl⟩ := map_eq_ok.mp h
    rw [setItems_freezeFields hfrozen (hdistinct fields List.mem_cons_self)]
    have hrest := leaves_freezeFields hfrozen fun fs hfs => hdistinct fs (List.mem_cons_of_mem _ hfs)
    rw [← collectFields_proxy] at hrest
    exact hrest
  | .unsupported _, _, h, _ => nomatch h

theorem leaves_freezeItems : ∀ {items ws : List Value}, freezeItems items = .ok ws →
    (∀ fields ∈ collectItems (fun _ => []) (fun fields => [fields]) items, DistinctKeys fields) →
      collectItems (fun l => [l]) (fun _ => []) ws = collectItems (fun l => [l]) (fun _ => []) items
  | [], _, h, _ => by
    cases h
    rfl
  | v :: items, _, h, hdistinct => by
    obtain ⟨w, hw, h⟩ := Except.bind_eq_ok.mp h
    obtain ⟨rest, hrest, rfl⟩ := map_eq_ok.mp h
    have hhead := leaves_freezeData hw fun fs hfs => hdistinct fs (List.mem_append_left _ hfs)
    have htail := leaves_freezeItems hrest fun fs hfs => hdistinct fs (List.mem_append_right _ hfs)
    unfold Value.leaves at hhead
    rw [collectItems, collectItems, hhead, htail]

theorem leaves_freezeFields : ∀ {fields : List (Key × Value)} {frozen : List (String × Value)},
    freezeFields fields = .ok frozen →
    (∀ fs ∈ collectFields (fun _ => []) (fun fields => [fields]) fields, DistinctKeys fs) →
      frozen.flatMap (fun e => collect (fun l => [l]) (fun _ => []) e.2) =
        collectFields (fun l => [l]) (fun _ => []) fields
  | [], _, h, _ => by
    cases h
    rfl
  | (k, v) :: fields, _, h, hdistinct => by
    obtain ⟨w, hw, h⟩ := Except.bind_eq_ok.mp h
    obtain ⟨rest, hrest, rfl⟩ := map_eq_ok.mp h
    have hhead := leaves_freezeData hw fun fs hfs => hdistinct fs (List.mem_append_left _ hfs)
    have htail := leaves_freezeFields hrest fun fs hfs => hdistinct fs (List.mem_append_right _ hfs)
    unfold Value.leaves at hhead
    rw [List.flatMap_cons, collectFields, htail]
    exact congrArg (· ++ _) hhead

end

/-! ## Freezing twice -/

theorem freezeFields_proxy {d : List (String × Value)} (h : ∀ e ∈ d, freezeData e.2 = .ok e.2) :
    freezeFields (d.map fun e => (Key.str e.1, e.2)) = .ok d := by
  induction d with
  | nil => rfl
  | cons e d ih =>
    rw [List.map_cons, freezeFields, h e List.mem_cons_self,
      ih fun e' he' => h e' (List.mem_cons_of_mem _ he')]
    rfl

theorem forall_mem_setItems {p : String × Value → Prop} : ∀ {kvs d : List (String × Value)},
    (∀ e ∈ d, p e) → (∀ e ∈ kvs, p e) → ∀ e ∈ setItems d kvs, p e
  | [], _, hd, _ => hd
  | (k, a) :: kvs, d, hd, hkvs => by
    have hstep : ∀ e ∈ setItem d k a, p e := by
      rintro ⟨k', a'⟩ he
      rcases mem_setItem_iff.mp he with ⟨rfl, rfl⟩ | ⟨-, he⟩
      · exact hkvs _ List.mem_cons_self
      · exact hd _ he
    have hrest : ∀ e ∈ kvs, p e := fun e he => hkvs e (List.mem_cons_of_mem _ he)
    have ih := forall_mem_setItems hstep hrest
    exact ih

theorem nodup_keys_setItems : ∀ (kvs : List (String × Value)) {d : List (String × Value)},
    (d.map Prod.fst).Nodup → ((setItems d kvs).map Prod.fst).Nodup
  | [], _, hd => hd
  | e :: kvs, _, hd => by
    have ih := nodup_keys_setItems kvs (nodup_keys_setItem hd e.1 e.2)
    exact ih

mutual

theorem freezeData_frozen : ∀ {v w : Value}, freezeData v = .ok w → freezeData w = .ok w
  | .leaf l, w, h => by
    cases h
    rfl
  | .seq kind items, w, h => by
    obtain ⟨ws, hws, rfl⟩ := map_eq_ok.mp h
    rw [freezeData, freezeItems_frozen hws]
    cases kind <;> rfl
  | .mapping kind fields, w, h => by
    obtain ⟨frozen, hfrozen, rfl⟩ := map_eq_ok.mp h
    have hvalues := forall_mem_setItems (d := []) (by simp) (freezeFields_frozen hfrozen)
    have hnodup : ((setItems [] frozen).map Prod.fst).Nodup :=
      nodup_keys_setItems frozen List.nodup_nil
    rw [proxyOf, freezeData, freezeFields_proxy hvalues]
    have hagain : setItems [] (setItems [] frozen) = setItems [] frozen := setItems_of_nodup hnodup
    show Except.ok (proxyOf (setItems [] (setItems [] frozen))) = _
    rw [hagain]
    rfl
  | .unsupported _, _, h => nomatch h

theorem freezeItems_frozen : ∀ {items ws : List Value}, freezeItems items = .ok ws →
    freezeItems ws = .ok ws
  | [], _, h => by
    cases h
    rfl
  | v :: items, _, h => by
    obtain ⟨w, hw, h⟩ := Except.bind_eq_ok.mp h
    obtain ⟨rest, hrest, rfl⟩ := map_eq_ok.mp h
    rw [freezeItems, freezeData_frozen hw, freezeItems_frozen hrest]
    rfl

theorem freezeFields_frozen : ∀ {fields : List (Key × Value)} {frozen : List (String × Value)},
    freezeFields fields = .ok frozen → ∀ e ∈ frozen, freezeData e.2 = .ok e.2
  | [], _, h => by
    cases h
    simp
  | (k, v) :: fields, _, h => by
    obtain ⟨w, hw, h⟩ := Except.bind_eq_ok.mp h
    obtain ⟨rest, hrest, rfl⟩ := map_eq_ok.mp h
    intro e he
    rcases List.mem_cons.mp he with rfl | he
    · exact freezeData_frozen hw
    · exact freezeFields_frozen hrest e he

end

mutual

theorem exists_freezeFields : ∀ {v w : Value}, freezeData v = .ok w → ∀ fields ∈ v.mappings,
    ∃ frozen, freezeFields fields = .ok frozen
  | .leaf l, _, _ => by
    intro fields hfields
    cases hfields
  | .seq kind items, _, h => by
    obtain ⟨ws, hws, rfl⟩ := map_eq_ok.mp h
    exact exists_freezeFields_items hws
  | .mapping kind fields, _, h => by
    obtain ⟨frozen, hfrozen, rfl⟩ := map_eq_ok.mp h
    intro fs hfs
    rcases List.mem_cons.mp hfs with rfl | hfs
    · exact ⟨frozen, hfrozen⟩
    · exact exists_freezeFields_fields hfrozen fs hfs
  | .unsupported _, _, h => nomatch h

theorem exists_freezeFields_items : ∀ {items ws : List Value}, freezeItems items = .ok ws →
    ∀ fields ∈ collectItems (fun _ => []) (fun fields => [fields]) items,
      ∃ frozen, freezeFields fields = .ok frozen
  | [], _, _ => by
    intro fields hfields
    cases hfields
  | v :: items, _, h => by
    obtain ⟨w, hw, h⟩ := Except.bind_eq_ok.mp h
    obtain ⟨rest, hrest, rfl⟩ := map_eq_ok.mp h
    intro fs hfs
    rcases List.mem_append.mp hfs with hfs | hfs
    · exact exists_freezeFields hw fs hfs
    · exact exists_freezeFields_items hrest fs hfs

theorem exists_freezeFields_fields : ∀ {fields : List (Key × Value)} {frozen : List (String × Value)},
    freezeFields fields = .ok frozen →
      ∀ fs ∈ collectFields (fun _ => []) (fun fields => [fields]) fields,
        ∃ frozen, freezeFields fs = .ok frozen
  | [], _, _ => by
    intro fields hfields
    cases hfields
  | (k, v) :: fields, _, h => by
    obtain ⟨w, hw, h⟩ := Except.bind_eq_ok.mp h
    obtain ⟨rest, hrest, rfl⟩ := map_eq_ok.mp h
    intro fs hfs
    rcases List.mem_append.mp hfs with hfs | hfs
    · exact exists_freezeFields hw fs hfs
    · exact exists_freezeFields_fields hrest fs hfs

end

def LosesNothing (v : Value) : Prop :=
  ∀ fields ∈ v.mappings, ∀ kind w, freezeData (.mapping kind fields) = .ok w →
    w.entryCount = fields.length

theorem losesNothing_iff {v w : Value} (h : freezeData v = .ok w) :
    LosesNothing v ↔ ∀ fields ∈ v.mappings, DistinctKeys fields := by
  constructor
  · intro hloses fields hfields
    obtain ⟨frozen, hfrozen⟩ := exists_freezeFields h fields hfields
    have hmapping : freezeData (.mapping .dict fields) = .ok (proxyOf (setItems [] frozen)) := by
      rw [freezeData, hfrozen]
      rfl
    exact (entryCount_eq_iff hmapping).mp (hloses fields hfields .dict _ hmapping)
  · intro hdistinct fields hfields kind w hw
    exact (entryCount_eq_iff hw).mpr (hdistinct fields hfields)

section
variable {alnum : Char → Bool}

mutual

theorem assertNoRawSecrets_iff : ∀ {path : String} {v : Value},
    assertNoRawSecrets alnum path v = .ok () ↔ ∀ l ∈ v.leaves, l.isRawSecret alnum = false
  | path, .leaf l => by
    cases h : l.isRawSecret alnum <;> simp [assertNoRawSecrets, Value.leaves, collect, h]
  | path, .seq _ items => assertItems_iff
  | path, .mapping _ fields => assertFields_iff
  | path, .unsupported _ => by simp [assertNoRawSecrets, Value.leaves, collect]

theorem assertItems_iff : ∀ {path : String} {idx : ℕ} {items : List Value},
    assertItems alnum path idx items = .ok () ↔
      ∀ l ∈ collectItems (fun l => [l]) (fun _ => []) items, l.isRawSecret alnum = false
  | path, idx, [] => by simp [assertItems, collectItems]
  | path, idx, v :: items => by
    rw [assertItems, collectItems, List.forall_mem_append, ← @assertItems_iff path (idx + 1) items]
    refine Except.bind_eq_ok.trans ?_
    simp only [Unique.exists_iff]
    exact and_congr_left' assertNoRawSecrets_iff

theorem assertFields_iff : ∀ {path : String} {fields : List (Key × Value)},
    assertFields alnum path fields = .ok () ↔
      ∀ l ∈ collectFields (fun l => [l]) (fun _ => []) fields, l.isRawSecret alnum = false
  | path, [] => by simp [assertFields, collectFields]
  | path, (k, v) :: fields => by
    rw [assertFields, collectFields, List.forall_mem_append, ← assertFields_iff]
    refine Except.bind_eq_ok.trans ?_
    simp only [Unique.exists_iff]
    exact and_congr_left' assertNoRawSecrets_iff

end

end

/-! ## Events without secrets -/

def Leaf.isSecretBytes : Leaf → Bool
  | .bytes bs => knownSecretBytes bs
  | _ => false

section
variable (alnum : Char → Bool) (v : Value)

def TextSecret : Prop := ∃ l ∈ v.leaves, l.isRawSecret alnum = true

def HiddenSecret : Prop :=
  (∃ l ∈ v.leaves, l.isSecretBytes = true) ∨ ∃ k ∈ v.keys, knownSecret alnum k.text = true

end

section
variable (R : Runtime) (e : EventInput)

structure CarriesNoSecret (frozen : Value) : Prop where
  raises : (TextSecret R.alnum e.metadata ∨ HiddenSecret R.alnum e.metadata ∨
    ∃ s, readSummary R e.summary = .ok s ∧ TextSecret R.alnum s.toDict) →
      ∃ text, construct R e = .error text
  idempotent : freezeData frozen = .ok frozen
  complete : LosesNothing e.metadata

def RefusedAnyway : Prop :=
  ∀ event, checkFields R e = .ok event → isDigest e.dedupeKey = true →
    TextSecret R.alnum event.summary.toDict

/-- The keys of each mapping differ as texts, and beside a secret that is no string in a mapping stands
one that is, or the event is refused anyway. -/
structure Guarded : Prop where
  distinct : ∀ fields ∈ e.metadata.mappings, DistinctKeys fields
  noticed : TextSecret R.alnum e.metadata ∨ HiddenSecret R.alnum e.metadata →
    e.metadata.isMapping = true ∧ TextSecret R.alnum e.metadata ∨ RefusedAnyway R e

variable {R e}

theorem assert_eq_ok_iff {path : String} {v : Value} :
    assertNoRawSecrets R.alnum path v = .ok () ↔ ¬TextSecret R.alnum v := by
  rw [assertNoRawSecrets_iff, TextSecret]
  simp

theorem summary_of_checkFields {event : SecurityDomainEvent} (h : checkFields R e = .ok event) :
    readSummary R e.summary = .ok event.summary := by
  unfold checkFields at h
  obtain ⟨_, -, h⟩ := Except.bind_eq_ok.mp h
  obtain ⟨_, -, h⟩ := Except.bind_eq_ok.mp h
  obtain ⟨_, -, h⟩ := Except.bind_eq_ok.mp h
  obtain ⟨_, -, h⟩ := Except.bind_eq_ok.mp h
  obtain ⟨_, -, h⟩ := Except.bind_eq_ok.mp h
  obtain ⟨_, -, h⟩ := Except.bind_eq_ok.mp h
  obtain ⟨summary, hsummary, h⟩ := Except.bind_eq_ok.mp h
  obtain ⟨_, -, h⟩ := Except.bind_eq_ok.mp h
  cases h
  exact hsummary

theorem exists_metadataOf {v w : Value} (h : freezeData v = .ok w)
    (hdistinct : ∀ fields ∈ v.mappings, DistinctKeys fields) : ∃ m, metadataOf v = .ok m ∧
      ∀ alnum, TextSecret alnum m ↔ v.isMapping = true ∧ TextSecret alnum v := by
  have hnone : ∀ alnum, ¬TextSecret alnum (proxyOf []) := by
    rintro alnum ⟨l, hl, -⟩
    cases hl
  cases v with
  | leaf l =>
    refine ⟨proxyOf [], ?_, fun alnum => ?_⟩
    · cases l <;> rfl
    · simp [hnone alnum, Value.isMapping]
  | seq kind items =>
    obtain ⟨ws, hws, rfl⟩ := map_eq_ok.mp h
    refine ⟨proxyOf [], ?_, fun alnum => ?_⟩
    · rw [metadataOf, freezeData, hws]
      · rfl
      · exact nofun
    · simp [hnone alnum, Value.isMapping]
  | mapping kind fields =>
    have hleaves := leaves_freezeData h hdistinct
    refine ⟨w, ?_, fun alnum => ?_⟩
    · obtain ⟨frozen, hfrozen, rfl⟩ := map_eq_ok.mp h
      rw [metadataOf, freezeData, hfrozen]
      · rfl
      · exact nofun
    · rw [TextSecret, hleaves]
      exact (and_iff_right rfl).symm
  | unsupported typeName => cases h

theorem construct_error_iff {w : Value} (h : freezeData e.metadata = .ok w)
    (hdistinct : ∀ fields ∈ e.metadata.mappings, DistinctKeys fields) :
    (∃ text, construct R e = .error text) ↔
      e.metadata.isMapping = true ∧ TextSecret R.alnum e.metadata ∨ RefusedAnyway R e := by
  obtain ⟨m, hm, hsecret⟩ := exists_metadataOf h hdistinct
  rw [← hsecret R.alnum]
  unfold construct RefusedAnyway
  rw [hm]
  cases hfields : checkFields R e with
  | error text => simp [Except.bind]
  | ok event =>
    simp only [Except.bind, Except.ok.injEq, forall_eq']
    cases hsummary : assertNoRawSecrets R.alnum "summary" event.summary.toDict with
    | error text =>
      have hbad : TextSecret R.alnum event.summary.toDict := by
        by_contra hgood
        rw [assert_eq_ok_iff.mpr hgood] at hsummary
        cases hsummary
      simp [hbad]
    | ok _ =>
      have hgood := assert_eq_ok_iff.mp hsummary
      cases hmeta : assertNoRawSecrets R.alnum "metadata" m with
      | error text =>
        have hbad : TextSecret R.alnum m := by
          by_contra hgood'
          rw [assert_eq_ok_iff.mpr hgood'] at hmeta
          cases hmeta
        simp [hbad]
      | ok _ =>
        have hgood' := assert_eq_ok_iff.mp hmeta
        cases hdigest : isDigest e.dedupeKey <;> simp [hgood, hgood']

/-- **Secrets in events.** The promise is kept exactly where the keys of each mapping differ as texts and
the secrets of the metadata are noticed. -/
theorem carriesNoSecret_iff (R : Runtime) (e : EventInput) (frozen : Value)
    (h : freezeData e.metadata = .ok frozen) : CarriesNoSecret R e frozen ↔ Guarded R e := by
  constructor
  · intro hsafe
    have hdistinct := (losesNothing_iff h).mp hsafe.complete
    refine ⟨hdistinct, fun hsecret => (construct_error_iff h hdistinct).mp (hsafe.raises ?_)⟩
    exact hsecret.imp_right .inl
  · intro hguarded
    refine ⟨fun hsecret => ?_, freezeData_frozen h, (losesNothing_iff h).mpr hguarded.distinct⟩
    rw [construct_error_iff h hguarded.distinct]
    rcases hsecret with htext | hhidden | ⟨s, hs, hsummary⟩
    · exact hguarded.noticed (.inl htext)
    · exact hguarded.noticed (.inr hhidden)
    · right
      intro event hfields _
      have hread := (summary_of_checkFields hfields).symm.trans hs
      rwa [Except.ok.inj hread]

end

def plainRuntime : Runtime where
  str := fun _ => ""
  typeName := fun _ => ""
  int := fun _ => .ok 0
  alnum := fun _ => false

def scanEvent (metadata : Value) : EventInput where
  schemaVersion := .leaf (.int 1)
  eventId := .leaf (.str "e1")
  eventType := .inl .scanCompleted
  timestamp := .leaf (.str "2026-01-01T00:00:00Z")
  repository := .leaf (.str "app")
  scanId := .leaf (.str "s1")
  summary := .inl {}
  highRiskCount := .leaf (.int 0)
  metadata
  dedupeKey := .leaf (.str "0000000000000000000000000000000000000000000000000000000000000000")

def awsKeyBytes : List UInt8 := [65, 75, 73, 65, 49, 49, 49, 49, 49, 49, 49, 49, 49, 49, 49, 49, 49, 49, 49, 49]

/-- The metadata is `{"k": b"AKIA1111111111111111"}`. -/
def bytesEvent : EventInput := scanEvent (.mapping .dict [(.str "k", .leaf (.bytes awsKeyBytes))])

theorem carriesNoSecret_iff_bytes :
    CarriesNoSecret plainRuntime bytesEvent (proxyOf [("k", .leaf (.bytes awsKeyBytes))]) ↔
      Guarded plainRuntime bytesEvent :=
  carriesNoSecret_iff plainRuntime bytesEvent _ rfl

theorem secret_bytes_are_carried : ¬ ∀ (R : Runtime) (e : EventInput) (frozen : Value),
    freezeData e.metadata = .ok frozen → CarriesNoSecret R e frozen := by
  intro h
  have hraises := (h plainRuntime bytesEvent _ rfl).raises
  have hsecret : knownSecretBytes awsKeyBytes = true := by decide +kernel
  obtain ⟨text, htext⟩ :=
    hraises (.inr (.inl (.inl ⟨.bytes awsKeyBytes, List.mem_singleton_self _, hsecret⟩)))
  have htaken : (construct plainRuntime bytesEvent).isOk = true := by decide +kernel
  rw [htext] at htaken
  cases htaken

end TimeCodeSecurity.Events
