import TimeCodeSecurity.Sca.Overlap
import TimeCodeSecurity.Foundations.Tables

/-! # Advisory records

`osv_client.py`, the record types: the JSON record of one advisory as a batch answer, a detail
answer or the cache holds it, and the normalized advisory read off it. An absent key of the JSON
object is `none`.
-/
namespace TimeCodeSecurity.Sca
open Pep440
set_option autoImplicit false

structure RawPackage where
  name : Option String := none
  ecosystem : Option String := none
deriving DecidableEq, Repr

structure RawRange where
  type : Option String := none
  events : Option (List RawEvent) := none
deriving DecidableEq, Repr

structure RawAffected where
  package : Option RawPackage := none
  versions : Option (List String) := none
  ranges : Option (List RawRange) := none
deriving DecidableEq, Repr

/-- A score field: a number, a text, or something the matcher does not read. -/
inductive ScoreValue
  | number (q : ℚ)
  | text (s : String)
  | other
deriving DecidableEq, Repr

/-- `database_specific`. A `cvss` entry that is a mapping carries its `score`. -/
structure DatabaseSpecific where
  cvss : Option ScoreValue := none
  cvssScore : Option ScoreValue := none
  severity : Option String := none
deriving DecidableEq, Repr

structure RawVuln where
  id : Option String := none
  summary : Option String := none
  details : Option String := none
  aliases : Option (List String) := none
  severity : Option (List ScoreValue) := none
  databaseSpecific : Option DatabaseSpecific := none
  affected : Option (List RawAffected) := none
  schemaVersion : Option String := none
deriving DecidableEq, Repr

def RawVuln.idText (r : RawVuln) : Option String := r.id.filter (· ≠ "")

def isStub (r : RawVuln) : Bool := r.affected.isNone && r.schemaVersion.isNone

/-- Upper case of the letters whose capitals are ASCII; `ı` and `ſ` are the two outside ASCII. -/
def upperChar (c : Char) : Char :=
  if c = 'ı' then 'I' else if c = 'ſ' then 'S' else c.toUpper

def upperText (s : String) : List Char := s.toList.map upperChar

def isNameSeparator (c : Char) : Bool := c = '-' || c = '_' || c = '.'

/-- Runs of `[-_.]` become one `-`. -/
def collapseSeparators : List Char → List Char
  | [] => []
  | c :: cs =>
    if isNameSeparator c then
      match collapseSeparators cs with
      | '-' :: rest => '-' :: rest
      | rest => '-' :: rest
    else c.toLower :: collapseSeparators cs

def normalizePackageName (name : String) : String :=
  String.ofList (collapseSeparators name.toList)

structure OSVAffectedRange where
  type : String
  events : List RawEvent := []
  versions : List String := []
deriving DecidableEq, Repr

structure OSVVulnerability where
  vulnId : String
  packageName : String
  summary : String
  details : String
  aliases : List String
  affectedRanges : List OSVAffectedRange
  severity : List ScoreValue
  databaseSpecific : DatabaseSpecific
  raw : RawVuln
deriving DecidableEq, Repr

def RawAffected.concerns (packageName : String) (a : RawAffected) : Bool :=
  let pkg := a.package.getD {}
  let name := normalizePackageName (pkg.name.getD "")
  (pkg.ecosystem.getD "PyPI").toList.map Char.toLower = "pypi".toList &&
    (name = "" || name = packageName)

def RawAffected.toRanges (a : RawAffected) : List OSVAffectedRange :=
  let explicitVersions := a.versions.getD []
  let ranges := a.ranges.getD []
  ranges.map (fun r =>
    { type := r.type.getD "ECOSYSTEM", events := r.events.getD [], versions := explicitVersions }) ++
  if ranges = [] && explicitVersions ≠ [] then
    [{ type := "VERSIONS", events := [], versions := explicitVersions }]
  else []

def parseOsvVuln (packageName : String) (r : RawVuln) : OSVVulnerability :=
  { vulnId := r.id.getD "UNKNOWN_ID", packageName := packageName, summary := r.summary.getD "",
    details := r.details.getD "", aliases := r.aliases.getD [],
    affectedRanges :=
      ((r.affected.getD []).filter (RawAffected.concerns packageName)).flatMap RawAffected.toRanges,
    severity := r.severity.getD [], databaseSpecific := r.databaseSpecific.getD {}, raw := r }

theorem affectedRanges_of_isStub {r : RawVuln} (h : isStub r = true) (p : String) :
    (parseOsvVuln p r).affectedRanges = [] := by
  have hnone : r.affected = none := by simp_all [isStub]
  simp [parseOsvVuln, hnone]

inductive Source
  | network | cache | offlineFallback | error
deriving DecidableEq, Repr

structure OSVQueryResult where
  packageName : String
  vulnerabilities : List OSVVulnerability := []
  source : Source := .network
  error : Option String := none
deriving DecidableEq, Repr

/-! ## The advisory client

`osv_client.py`, class `OSVClient`: the batch query with its retries, the hydration of stubs by
detail requests, and the two caches. The server is a parameter that may answer every single request
differently. What a run reads from disk is in the starting state; what it writes there is left out.
-/

inductive Reply (α : Type)
  | answer (a : α)
  | httpError (status : ℕ)
  | failure (message : String)
deriving Repr

def Reply.isClientError {α : Type} : Reply α → Bool
  | .httpError status => 400 ≤ status && status < 500
  | _ => false

/-- The retry loop from attempt `k` with `left` attempts to go, and the reply it ends with: an
answer, a client error at once, or the last failure. -/
def retry {α : Type} (ask : ℕ → Reply α) : ℕ → ℕ → Option (Reply α)
  | _, 0 => none
  | k, left + 1 =>
    match ask k with
    | .answer a => some (.answer a)
    | r => if r.isClientError || left = 0 then some r else retry ask (k + 1) left

/-- Batch requests are told apart by chunk and attempt, detail requests by the round of hydration
they belong to, the id and the attempt. An entry or a detail answer that is no object is `none`; an
entry without `vulns` has the empty list. -/
structure Server where
  batch : List String → ℕ → Reply (List (Option (List RawVuln)))
  detail : ℕ → String → ℕ → Reply (Option RawVuln)

structure OSVClient where
  offlineMode : Bool := false
  maxRetries : ℕ := 3
  batchChunkSize : ℕ := 500
  batchChunkSize_pos : 0 < batchChunkSize := by decide

structure ClientState where
  memoryCache : Dict (List RawVuln) := ∅
  vulnCache : Dict RawVuln := ∅

variable (client : OSVClient) (server : Server)

def fetchVulnDetail (round : ℕ) (s : ClientState) (vulnId : String) :
    Option RawVuln × ClientState :=
  if vulnId = "" then (none, s)
  else
    match s.vulnCache.lookup vulnId with
    | some d => (some d, s)
    | none =>
      if client.offlineMode then (none, s)
      else
        match retry (server.detail round vulnId) 0 client.maxRetries with
        | some (.answer (some d)) =>
          if d.idText.isSome then (some d, { s with vulnCache := s.vulnCache.insert vulnId d })
          else (none, s)
        | _ => (none, s)

def stubIds (vulns : List RawVuln) : List String :=
  ((vulns.filter isStub).filterMap RawVuln.idText).dedup

def fetchInto (round : ℕ) (acc : Dict RawVuln × ClientState) (vulnId : String) :
    Dict RawVuln × ClientState :=
  match fetchVulnDetail client server round acc.2 vulnId with
  | (some d, s) => (acc.1.insert vulnId d, s)
  | (none, s) => (acc.1, s)

def hydrateVulns (round : ℕ) (s : ClientState) (vulns : List RawVuln) :
    List RawVuln × ClientState :=
  if stubIds vulns = [] || client.offlineMode then (vulns, s)
  else
    let (hydrated, s) := (stubIds vulns).foldl (fetchInto client server round) (∅, s)
    (vulns.map fun v => (v.idText.bind hydrated.lookup).getD v, s)

/-! ## The batch query -/

structure Listing where
  vulns : List RawVuln
  source : Source
  error : Option String

/-- `range(0, len(names), size)` and the slices from there. -/
def chunks (size : ℕ) (names : List String) : List (List String) :=
  (List.range ((names.length + size - 1) / size)).map fun k => (names.drop (k * size)).take size

def fetchBatchChunk (chunk : List String) : List (String × Listing) :=
  let all (l : Listing) := chunk.map fun name => (name, l)
  match retry (server.batch chunk) 0 client.maxRetries with
  | none => []
  | some (.answer entries) =>
    chunk.zipIdx.map fun (name, idx) => (name, ⟨((entries[idx]?).join).getD [], .network, none⟩)
  | some (.httpError status) =>
    if 400 ≤ status ∧ status < 500 then
      all ⟨[], .error, some ("HTTP " ++ Nat.repr status ++ ": Client error")⟩
    else
      all ⟨[], .error, some ("HTTP " ++ Nat.repr status ++ ": Server error after " ++
        Nat.repr client.maxRetries ++ " attempts")⟩
  | some (.failure message) => all ⟨[], .offlineFallback, some ("Network error: " ++ message)⟩

/-- The state of `query_packages` between two rounds of its loops. -/
structure QueryRun where
  state : ClientState
  round : ℕ := 0
  results : Dict OSVQueryResult := ∅
  pending : List String := []

def QueryRun.hydrate (run : QueryRun) (name : String) (vulns : List RawVuln) :
    List RawVuln × ClientState :=
  let (vulns, s) := hydrateVulns client server run.round run.state vulns
  (vulns, { s with memoryCache := s.memoryCache.insert name vulns })

def cacheRound (run : QueryRun) (rawName : String) : QueryRun :=
  let name := normalizePackageName rawName
  if name = "" then run
  else
    match run.state.memoryCache.lookup name with
    | some rawVulns =>
      let (vulns, s) :=
        if !client.offlineMode && rawVulns.any fun v => v.idText.isSome && isStub v then
          run.hydrate client server name rawVulns
        else (rawVulns, run.state)
      { run with
        state := s, round := run.round + 1
        results := run.results.insert name
          { packageName := name, vulnerabilities := vulns.map (parseOsvVuln name), source := .cache } }
    | none => if name ∈ run.pending then run else { run with pending := run.pending ++ [name] }

def chunkRound (run : QueryRun) (entry : String × Listing) : QueryRun :=
  let (name, l) := entry
  let (vulns, s) :=
    if l.source = .network then run.hydrate client server name l.vulns else (l.vulns, run.state)
  { run with
    state := s, round := run.round + 1
    results := run.results.insert name
      { packageName := name, vulnerabilities := vulns.map (parseOsvVuln name), source := l.source,
        error := l.error } }

def offlineResult (name : String) : OSVQueryResult :=
  { packageName := name, source := .offlineFallback,
    error := some "Offline mode active; package not found in local cache" }

def cachePhase (start : ClientState) (names : List String) : QueryRun :=
  names.foldl (cacheRound client server) { state := start }

def batchEntries (pending : List String) : List (String × Listing) :=
  (chunks client.batchChunkSize pending).flatMap (fetchBatchChunk client server)

def queryPackages (start : ClientState) (names : List String) : QueryRun :=
  let run := cachePhase client server start names
  if client.offlineMode then
    { run with
      results := run.pending.foldl (fun res name => res.insert name (offlineResult name)) run.results }
  else
    (chunks client.batchChunkSize run.pending).foldl
      (fun run chunk => (fetchBatchChunk client server chunk).foldl (chunkRound client server) run) run

theorem chunks_flatten {size : ℕ} (h : 0 < size) (names : List String) :
    (chunks size names).flatten = names := by
  have htake : ∀ n, ((List.range n).map fun k => (names.drop (k * size)).take size).flatten =
      names.take (n * size) := by
    intro n
    induction n with
    | zero => simp
    | succ n ih =>
      rw [List.range_succ, List.map_append, List.flatten_append, ih, Nat.succ_mul, List.take_add]
      simp
  rw [chunks, htake, List.take_of_length_le]
  have hdiv := Nat.div_add_mod (names.length + size - 1) size
  have hmod := Nat.mod_lt (names.length + size - 1) h
  rw [Nat.mul_comm]
  omega

theorem fetchBatchChunk_names (chunk : List String) :
    ((fetchBatchChunk client server chunk).map Prod.fst).Sublist chunk := by
  unfold fetchBatchChunk
  split
  next => simp
  next entries _ =>
    rw [List.map_map]
    have hfst : (Prod.fst ∘ fun x : String × ℕ =>
        (x.1, Listing.mk ((entries[x.2]?).join.getD []) .network none)) = Prod.fst := rfl
    rw [hfst, List.zipIdx_map_fst]
  next => split <;> simp [Function.comp_def]
  next => simp [Function.comp_def]

theorem batchEntries_names (pending : List String) :
    ((batchEntries client server pending).map Prod.fst).Sublist pending := by
  have hflat : ∀ cs : List (List String),
      ((cs.flatMap (fetchBatchChunk client server)).map Prod.fst).Sublist cs.flatten := by
    intro cs
    induction cs with
    | nil => simp
    | cons c cs ih =>
      rw [List.flatMap_cons, List.map_append, List.flatten_cons]
      exact (fetchBatchChunk_names client server c).append ih
  have h := hflat (chunks client.batchChunkSize pending)
  rwa [chunks_flatten client.batchChunkSize_pos] at h

end TimeCodeSecurity.Sca
