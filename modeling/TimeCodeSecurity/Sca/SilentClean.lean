import TimeCodeSecurity.Sca.Matcher

/-! # Missing intelligence through the whole pipeline

What becomes of a listed advisory between the batch answer and the matcher. A record whose detail
request fails stays a stub, a stub has no affected range, and a readable dependency is outside an
empty list of ranges. So the matcher says nothing about it, exactly as about an advisory that was
read and does not apply.
-/
namespace TimeCodeSecurity.Sca
open Pep440
set_option autoImplicit false

variable (client : OSVClient) (server : Server)

/-! ## Hydration record by record -/

section Fetch
variable (round : ℕ) {s t : ClientState}

theorem fetchVulnDetail_congr {vulnId : String}
    (h : s.vulnCache.lookup vulnId = t.vulnCache.lookup vulnId) :
    (fetchVulnDetail client server round s vulnId).1 =
      (fetchVulnDetail client server round t vulnId).1 := by
  unfold fetchVulnDetail
  rw [h]
  repeat' split
  all_goals rfl

theorem fetchVulnDetail_lookup_ne {vulnId other : String} (h : other ≠ vulnId) :
    (fetchVulnDetail client server round s vulnId).2.vulnCache.lookup other =
      s.vulnCache.lookup other := by
  unfold fetchVulnDetail
  repeat' split
  all_goals first | rfl | exact AList.lookup_insert_ne h

theorem fetchVulnDetail_memoryCache (vulnId : String) :
    (fetchVulnDetail client server round s vulnId).2.memoryCache = s.memoryCache := by
  unfold fetchVulnDetail
  repeat' split
  all_goals rfl

theorem fetchInto_fst_lookup (acc : Dict RawVuln × ClientState) (vulnId other : String) :
    (fetchInto client server round acc vulnId).1.lookup other =
      if other = vulnId then
        ((fetchVulnDetail client server round acc.2 vulnId).1).or (acc.1.lookup other)
      else acc.1.lookup other := by
  unfold fetchInto
  split
  next d _ h =>
    split
    next heq => rw [heq, AList.lookup_insert, h]; rfl
    next hne => exact AList.lookup_insert_ne hne
  next h => simp [h]

theorem fetchInto_snd (acc : Dict RawVuln × ClientState) (vulnId : String) :
    (fetchInto client server round acc vulnId).2 =
      (fetchVulnDetail client server round acc.2 vulnId).2 := by
  unfold fetchInto
  split <;> next h => rw [h]

theorem foldl_fetchInto_lookup {ids : List String} (hids : ids.Nodup)
    (acc : Dict RawVuln × ClientState) (vulnId : String) :
    (ids.foldl (fetchInto client server round) acc).1.lookup vulnId =
      if vulnId ∈ ids then
        ((fetchVulnDetail client server round acc.2 vulnId).1).or (acc.1.lookup vulnId)
      else acc.1.lookup vulnId := by
  induction ids generalizing acc with
  | nil => rfl
  | cons i ids ih =>
    obtain ⟨hi, hids⟩ := List.nodup_cons.mp hids
    rw [List.foldl_cons, ih hids, fetchInto_fst_lookup, fetchInto_snd]
    by_cases hv : vulnId = i
    · subst hv
      simp [hi]
    · have hsame := fetchVulnDetail_congr client server round
        (fetchVulnDetail_lookup_ne client server round (s := acc.2) hv)
      simp [hv, hsame]

theorem foldl_fetchInto_memoryCache (ids : List String) (acc : Dict RawVuln × ClientState) :
    (ids.foldl (fetchInto client server round) acc).2.memoryCache = acc.2.memoryCache := by
  induction ids generalizing acc with
  | nil => rfl
  | cons i ids ih =>
    rw [List.foldl_cons, ih, fetchInto_snd, fetchVulnDetail_memoryCache]

end Fetch

/-- The detail that replaces a record of `L`, when its id is the id of a stub and is obtained. -/
def obtainedDetail (round : ℕ) (s : ClientState) (L : List RawVuln) (r : RawVuln) :
    Option RawVuln :=
  if client.offlineMode then none
  else r.idText.bind fun i =>
    if i ∈ stubIds L then (fetchVulnDetail client server round s i).1 else none

def finalRecord (round : ℕ) (s : ClientState) (L : List RawVuln) (r : RawVuln) : RawVuln :=
  (obtainedDetail client server round s L r).getD r

theorem hydrateVulns_fst (round : ℕ) (s : ClientState) (L : List RawVuln) :
    (hydrateVulns client server round s L).1 = L.map (finalRecord client server round s L) := by
  unfold hydrateVulns
  split
  next h =>
    refine (List.map_id'' (fun r => ?_) L).symm
    rw [Bool.or_eq_true, decide_eq_true_eq] at h
    rcases h with hnil | hoff
    · simp [finalRecord, obtainedDetail, hnil]
    · simp [finalRecord, obtainedDetail, hoff]
  next h =>
    simp only [Bool.or_eq_true, decide_eq_true_eq, not_or] at h
    refine List.map_congr_left fun r _ => ?_
    cases hid : r.idText with
    | none => simp [finalRecord, obtainedDetail, hid]
    | some i =>
      have hnodup : (stubIds L).Nodup := List.nodup_dedup _
      have hfold := foldl_fetchInto_lookup client server round hnodup (∅, s) i
      by_cases hi : i ∈ stubIds L
      · simp [finalRecord, obtainedDetail, hid, h.2, hi, hfold]
      · simp [finalRecord, obtainedDetail, hid, h.2, hi, hfold]

theorem hydrateVulns_memoryCache (round : ℕ) (s : ClientState) (L : List RawVuln) :
    (hydrateVulns client server round s L).2.memoryCache = s.memoryCache := by
  unfold hydrateVulns
  split
  · rfl
  · exact foldl_fetchInto_memoryCache client server round _ _

theorem stubIds_eq_nil {L : List RawVuln}
    (h : (L.any fun v => v.idText.isSome && isStub v) = false) : stubIds L = [] := by
  have hmap : (L.filter isStub).filterMap RawVuln.idText = [] := by
    rw [List.filterMap_eq_nil_iff]
    intro r hr
    obtain ⟨hmem, hstub⟩ := List.mem_filter.mp hr
    have hr := List.any_eq_false.mp h r hmem
    simpa [hstub] using hr
  rw [stubIds, hmap, List.dedup_nil]

/-! ## The rounds of a run -/

section Rounds
variable {client server}

def QueryRun.PendingFresh (run : QueryRun) : Prop :=
  run.pending.Nodup ∧ ∀ q ∈ run.pending, run.state.memoryCache.lookup q = none

theorem cacheRound_length (run : QueryRun) (raw q : String) :
    ((cacheRound client server run raw).state.memoryCache.lookup q).map List.length =
      (run.state.memoryCache.lookup q).map List.length := by
  unfold cacheRound
  dsimp only
  split
  · rfl
  · split
    next L hL =>
      split
      · by_cases hq : q = normalizePackageName raw
        · subst hq
          simp [QueryRun.hydrate, hL, hydrateVulns_fst]
        · simp [QueryRun.hydrate, hq, hydrateVulns_memoryCache]
      · rfl
    next => split <;> rfl

theorem cacheRound_cached (run : QueryRun) (raw q : String) :
    ((cacheRound client server run raw).state.memoryCache.lookup q).isSome =
      (run.state.memoryCache.lookup q).isSome := by
  have hlength : ((cacheRound client server run raw).state.memoryCache.lookup q).map List.length =
      (run.state.memoryCache.lookup q).map List.length := cacheRound_length run raw q
  rw [← Option.isSome_map (f := List.length), hlength, Option.isSome_map]

theorem cacheRound_pendingFresh {run : QueryRun} (h : run.PendingFresh) (raw : String) :
    (cacheRound client server run raw).PendingFresh := by
  obtain ⟨hnodup, hfresh⟩ := h
  have hcached : ∀ q, run.state.memoryCache.lookup q = none →
      (cacheRound client server run raw).state.memoryCache.lookup q = none := by
    intro q hq
    rw [← Option.isNone_iff_eq_none, ← Option.not_isSome, cacheRound_cached, hq]
    rfl
  suffices hpend : (cacheRound client server run raw).pending = run.pending ∨
      ∃ q, q ∉ run.pending ∧ run.state.memoryCache.lookup q = none ∧
        (cacheRound client server run raw).pending = run.pending ++ [q] by
    rcases hpend with hsame | ⟨q, hq, hnone, hadd⟩
    · exact ⟨hsame ▸ hnodup, fun q hq => hcached q (hfresh q (hsame ▸ hq))⟩
    · constructor
      · rw [hadd, List.nodup_append]
        refine ⟨hnodup, List.nodup_singleton q, ?_⟩
        rintro a ha b hb rfl
        exact hq ((List.mem_singleton.mp hb) ▸ ha)
      · intro q' hq'
        rw [hadd, List.mem_append, List.mem_singleton] at hq'
        rcases hq' with hq' | rfl
        · exact hcached q' (hfresh q' hq')
        · exact hcached q' hnone
  unfold cacheRound
  dsimp only
  split
  · exact .inl rfl
  · split
    · exact .inl rfl
    next hnone =>
      split
      · exact .inl rfl
      next hmem => exact .inr ⟨_, hmem, hnone, rfl⟩

theorem cacheRound_results_ne {run : QueryRun} {raw q : String} (h : normalizePackageName raw ≠ q) :
    (cacheRound client server run raw).results.lookup q = run.results.lookup q := by
  unfold cacheRound
  dsimp only
  split
  · rfl
  · split
    · exact AList.lookup_insert_ne h.symm
    · split <;> rfl

theorem cacheRound_results_self {run : QueryRun} {raw : String} {L : List RawVuln}
    (hraw : normalizePackageName raw ≠ "")
    (hL : run.state.memoryCache.lookup (normalizePackageName raw) = some L) :
    (cacheRound client server run raw).results.lookup (normalizePackageName raw) =
      some { packageName := normalizePackageName raw, source := .cache,
             vulnerabilities := L.map fun r => parseOsvVuln (normalizePackageName raw)
               (finalRecord client server run.round run.state L r) } := by
  have hvulns : (if (!client.offlineMode && L.any fun v => v.idText.isSome && isStub v) = true then
      run.hydrate client server (normalizePackageName raw) L else (L, run.state)).1 =
        L.map (finalRecord client server run.round run.state L) := by
    split
    · exact hydrateVulns_fst client server run.round run.state L
    next hno =>
      rw [← hydrateVulns_fst, hydrateVulns]
      have hskip : (decide (stubIds L = []) || client.offlineMode) = true := by
        cases hoff : client.offlineMode with
        | true => exact Bool.or_true _
        | false =>
          rw [hoff, Bool.not_false, Bool.true_and, Bool.not_eq_true] at hno
          simp [stubIds_eq_nil hno]
      rw [if_pos hskip]
  unfold cacheRound
  simp only [hraw, if_false, hL, hvulns, List.map_map]
  exact AList.lookup_insert _

theorem chunkRound_results_self (run : QueryRun) (p : String) (L : List RawVuln)
    (error : Option String) :
    (chunkRound client server run (p, ⟨L, .network, error⟩)).results.lookup p =
      some { packageName := p, source := .network, error := error,
             vulnerabilities := L.map fun r => parseOsvVuln p
               (finalRecord client server run.round run.state L r) } := by
  have hvulns := hydrateVulns_fst client server run.round run.state L
  unfold chunkRound
  simp only [if_true, QueryRun.hydrate, hvulns, List.map_map]
  exact AList.lookup_insert _

theorem chunkRound_results_ne {run : QueryRun} {entry : String × Listing} {q : String}
    (h : entry.1 ≠ q) :
    (chunkRound client server run entry).results.lookup q = run.results.lookup q :=
  AList.lookup_insert_ne h.symm

theorem foldl_chunkRound_results {entries : List (String × Listing)} {q : String}
    (h : q ∉ entries.map Prod.fst) (run : QueryRun) :
    (entries.foldl (chunkRound client server) run).results.lookup q = run.results.lookup q := by
  induction entries generalizing run with
  | nil => rfl
  | cons e entries ih =>
    rw [List.map_cons, List.mem_cons, not_or] at h
    rw [List.foldl_cons, ih h.2, chunkRound_results_ne (Ne.symm h.1)]

theorem foldl_cacheRound_results {names : List String} {q : String}
    (h : ∀ n ∈ names, normalizePackageName n ≠ q) (run : QueryRun) :
    (names.foldl (cacheRound client server) run).results.lookup q = run.results.lookup q := by
  induction names generalizing run with
  | nil => rfl
  | cons n names ih =>
    rw [List.foldl_cons, ih fun m hm => h m (List.mem_cons_of_mem n hm),
      cacheRound_results_ne (h n List.mem_cons_self)]

theorem foldl_cacheRound_cached (names : List String) (run : QueryRun) (q : String) :
    ((names.foldl (cacheRound client server) run).state.memoryCache.lookup q).isSome =
      (run.state.memoryCache.lookup q).isSome := by
  induction names generalizing run with
  | nil => rfl
  | cons n names ih => rw [List.foldl_cons, ih, cacheRound_cached]

theorem cachePhase_pendingFresh (start : ClientState) (names : List String) :
    (cachePhase client server start names).PendingFresh := by
  suffices h : ∀ run : QueryRun, run.PendingFresh →
      (names.foldl (cacheRound client server) run).PendingFresh from
    h _ ⟨List.nodup_nil, fun q hq => absurd hq List.not_mem_nil⟩
  induction names with
  | nil => exact fun run h => h
  | cons n names ih => exact fun run h => ih _ (cacheRound_pendingFresh h n)

theorem offline_results {pending : List String} {q : String} (h : q ∉ pending)
    (res : Dict OSVQueryResult) :
    (pending.foldl (fun res name => res.insert name (offlineResult name)) res).lookup q =
      res.lookup q := by
  induction pending generalizing res with
  | nil => rfl
  | cons n pending ih =>
    rw [List.mem_cons, not_or] at h
    rw [List.foldl_cons, ih h.2, AList.lookup_insert_ne h.1]

theorem queryPackages_online (h : client.offlineMode = false) (start : ClientState)
    (names : List String) :
    queryPackages client server start names =
      (batchEntries client server (cachePhase client server start names).pending).foldl
        (chunkRound client server) (cachePhase client server start names) := by
  simp [queryPackages, batchEntries, h, List.foldl_flatMap]

theorem queryPackages_results_of_cached {start : ClientState} {names : List String} {q : String}
    (h : ((cachePhase client server start names).state.memoryCache.lookup q).isSome) :
    (queryPackages client server start names).results.lookup q =
      (cachePhase client server start names).results.lookup q := by
  have hpend : q ∉ (cachePhase client server start names).pending := by
    intro hmem
    rw [(cachePhase_pendingFresh start names).2 q hmem] at h
    exact absurd h (by simp)
  cases hoff : client.offlineMode with
  | true => simpa [queryPackages, hoff] using offline_results hpend _
  | false =>
    rw [queryPackages_online hoff]
    exact foldl_chunkRound_results
      (fun hmem => hpend ((batchEntries_names client server _).subset hmem)) _

end Rounds

/-- In a run of `query_packages`, `run` is the state of the round that handles the package `p` for
the last time, and `L` the list of advisories it then works on: the cached one, or the one of the
batch answer. -/
inductive ListedAt (start : ClientState) (names : List String) (p : String) :
    QueryRun → List RawVuln → Prop
  | cached {before after : List String} {raw : String} {L : List RawVuln} :
      names = before ++ raw :: after → normalizePackageName raw = p → p ≠ "" →
      (∀ n ∈ after, normalizePackageName n ≠ p) →
      (cachePhase client server start before).state.memoryCache.lookup p = some L →
      ListedAt start names p (cachePhase client server start before) L
  | batch {before after : List (String × Listing)} {L : List RawVuln} :
      client.offlineMode = false →
      batchEntries client server (cachePhase client server start names).pending =
        before ++ (p, ⟨L, .network, none⟩) :: after →
      ListedAt start names p
        (before.foldl (chunkRound client server) (cachePhase client server start names)) L

variable {client server}

theorem ListedAt.result {start : ClientState} {names : List String} {p : String} {run : QueryRun}
    {L : List RawVuln} (h : ListedAt client server start names p run L) :
    ∃ res, (queryPackages client server start names).results.lookup p = some res ∧
      (res.source = .cache ∨ res.source = .network) ∧
      res.vulnerabilities =
        L.map fun r => parseOsvVuln p (finalRecord client server run.round run.state L r) := by
  cases h with
  | @cached before after raw L hnames hraw hp hafter hL =>
    subst hnames
    have hround : cachePhase client server start (before ++ raw :: after) =
        after.foldl (cacheRound client server)
          (cacheRound client server (cachePhase client server start before) raw) := by
      rw [cachePhase, List.foldl_append, List.foldl_cons, ← cachePhase]
    have hcached : ((cachePhase client server start
        (before ++ raw :: after)).state.memoryCache.lookup p).isSome := by
      rw [hround, foldl_cacheRound_cached, cacheRound_cached, hL]
      rfl
    rw [queryPackages_results_of_cached hcached, hround, foldl_cacheRound_results hafter]
    subst hraw
    exact ⟨_, cacheRound_results_self hp hL, .inl rfl, rfl⟩
  | @batch before after L hoff hentries =>
    have hnodup : (before ++ (p, Listing.mk L .network none) :: after).map Prod.fst |>.Nodup := by
      rw [← hentries]
      exact (cachePhase_pendingFresh start names).1.sublist (batchEntries_names client server _)
    rw [List.map_append, List.nodup_append, List.map_cons, List.nodup_cons] at hnodup
    rw [queryPackages_online hoff, hentries, List.foldl_append, List.foldl_cons,
      foldl_chunkRound_results hnodup.2.1.1]
    exact ⟨_, chunkRound_results_self _ p L none, .inr rfl, rfl⟩

/-! ## What the matcher says about a record without ranges -/

theorem matchDependency_of_advisories {lib : Library} {dep : DependencyRecord} {res : OSVQueryResult}
    (h : res.source = .cache ∨ res.source = .network) :
    matchDependency lib dep (some res) = res.vulnerabilities.filterMap (evaluateAdvisory lib dep) := by
  rcases h with h | h <;> simp [matchDependency, h]

/-- Every record that still is a stub when the matcher gets it has an `UNRESOLVED` finding under its
id, and the list of findings is not empty when there is such a record. -/
def NoSilentClean (findings : List SCAFinding) (records : List RawVuln) : Prop :=
  (∀ r ∈ records, isStub r = true →
    ∃ f ∈ findings, f.vulnerabilityId = r.id.getD "UNKNOWN_ID" ∧ f.status = .unresolved) ∧
  ((∃ r ∈ records, isStub r = true) → findings ≠ [])

/-- The records of a list as the matcher gets them. -/
def finalRecords (client : OSVClient) (server : Server) (run : QueryRun) (L : List RawVuln) :
    List RawVuln :=
  L.map (finalRecord client server run.round run.state L)

/-- The dependency cannot be read, or each record that stays a stub shares its id with one whose
ranges are there and cannot be decided. -/
def StubsExcused (lib : Library) (dep : DependencyRecord) (p : String) (records : List RawVuln) :
    Prop :=
  dep.unreadable = true ∨
    ∀ r ∈ records, isStub r = true → ∃ r' ∈ records, isStub r' = false ∧
      r'.id.getD "UNKNOWN_ID" = r.id.getD "UNKNOWN_ID" ∧
      undecidedAdvisory lib dep (parseOsvVuln p r') = true

theorem exists_unresolved_iff {lib : Library} {dep : DependencyRecord} {p i : String}
    {records : List RawVuln} :
    (∃ f ∈ (records.map (parseOsvVuln p)).filterMap (evaluateAdvisory lib dep),
        f.vulnerabilityId = i ∧ f.status = .unresolved) ↔
      ∃ r ∈ records, r.id.getD "UNKNOWN_ID" = i ∧
        (dep.unreadable = true ∨ undecidedAdvisory lib dep (parseOsvVuln p r) = true) := by
  simp only [List.mem_filterMap, List.mem_map, exists_exists_and_eq_and]
  constructor
  · rintro ⟨f, ⟨r, hr, hf⟩, hid, hstatus⟩
    refine ⟨r, hr, ?_, (evaluateAdvisory_unresolved_iff lib dep _).mp ⟨f, hf, hstatus⟩⟩
    rw [← hid, evaluateAdvisory_vulnerabilityId hf]
    rfl
  · rintro ⟨r, hr, hid, hun⟩
    obtain ⟨f, hf, hstatus⟩ := (evaluateAdvisory_unresolved_iff lib dep _).mpr hun
    exact ⟨f, ⟨r, hr, hf⟩, (evaluateAdvisory_vulnerabilityId hf).trans hid, hstatus⟩

theorem noSilentClean_filterMap_iff (lib : Library) (dep : DependencyRecord) (p : String)
    (records : List RawVuln) :
    NoSilentClean ((records.map (parseOsvVuln p)).filterMap (evaluateAdvisory lib dep)) records ↔
      StubsExcused lib dep p records := by
  have hstub : ∀ r, isStub r = true → undecidedAdvisory lib dep (parseOsvVuln p r) = false :=
    fun r hr => undecidedAdvisory_of_no_ranges lib dep (affectedRanges_of_isStub hr p)
  unfold NoSilentClean StubsExcused
  simp only [exists_unresolved_iff]
  constructor
  · rintro ⟨hall, -⟩
    refine or_iff_not_imp_left.mpr fun hread r hr hs => ?_
    obtain ⟨r', hr', hid, hun⟩ := hall r hr hs
    have hun := hun.resolve_left hread
    refine ⟨r', hr', ?_, hid, hun⟩
    by_contra hs'
    rw [hstub r' (by simpa using hs')] at hun
    exact absurd hun (by decide)
  · intro h
    have hall : ∀ r ∈ records, isStub r = true → ∃ r' ∈ records,
        r'.id.getD "UNKNOWN_ID" = r.id.getD "UNKNOWN_ID" ∧
          (dep.unreadable = true ∨ undecidedAdvisory lib dep (parseOsvVuln p r') = true) := by
      intro r hr hs
      rcases h with hread | hshare
      · exact ⟨r, hr, rfl, .inl hread⟩
      · obtain ⟨r', hr', -, hid, hun⟩ := hshare r hr hs
        exact ⟨r', hr', hid, .inr hun⟩
    refine ⟨hall, ?_⟩
    rintro ⟨r, hr, hs⟩ hnil
    obtain ⟨f, hf, -⟩ := exists_unresolved_iff.mpr (hall r hr hs)
    rw [hnil] at hf
    exact List.not_mem_nil hf

/-- From the listing to the findings: the run is silent about a stub exactly when the dependency can
be read and no other record under that id is undecided. -/
theorem noSilentClean_iff {client : OSVClient} {server : Server} {start : ClientState}
    {names : List String} {run : QueryRun} {L : List RawVuln} (lib : Library)
    (dep : DependencyRecord)
    (h : ListedAt client server start names (normalizePackageName dep.name) run L) :
    NoSilentClean
        (matchDependency lib dep ((queryPackages client server start names).results.lookup
          (normalizePackageName dep.name)))
        (finalRecords client server run L) ↔
      StubsExcused lib dep (normalizePackageName dep.name) (finalRecords client server run L) := by
  obtain ⟨res, hres, hsource, hvulns⟩ := h.result
  have hrecords : res.vulnerabilities =
      (finalRecords client server run L).map (parseOsvVuln (normalizePackageName dep.name)) := by
    rw [hvulns, finalRecords, List.map_map]
    rfl
  rw [hres, matchDependency_of_advisories hsource, hrecords]
  exact noSilentClean_filterMap_iff lib dep _ _

/-- The batch endpoint lists one advisory for every name; the detail endpoint is down. -/
def stubServer : Server :=
  { batch := fun names _ => .answer (names.map fun _ => some [{ id := some "GHSA-x84v-xcm2-53pg" }])
    detail := fun _ _ _ => .httpError 503 }

def plainLibrary : Library := { allowPre := fun _ => false, readFloat := fun _ => none }

def pinnedRequests : DependencyRecord :=
  { name := "requests", version := some "2.25.0", versionSpecifier := some "==2.25.0",
    source := "requirements.txt", pinned := true }

theorem requests_listed :
    ListedAt {} stubServer {} ["requests"] (normalizePackageName pinnedRequests.name)
      (cachePhase {} stubServer {} ["requests"]) [{ id := some "GHSA-x84v-xcm2-53pg" }] :=
  @ListedAt.batch _ _ _ _ _ [] [] _ rfl rfl

theorem noSilentClean_iff_requests :
    NoSilentClean
        (matchDependency plainLibrary pinnedRequests
          ((queryPackages {} stubServer {} ["requests"]).results.lookup
            (normalizePackageName pinnedRequests.name)))
        (finalRecords {} stubServer (cachePhase {} stubServer {} ["requests"])
          [{ id := some "GHSA-x84v-xcm2-53pg" }]) ↔
      StubsExcused plainLibrary pinnedRequests (normalizePackageName pinnedRequests.name)
        (finalRecords {} stubServer (cachePhase {} stubServer {} ["requests"])
          [{ id := some "GHSA-x84v-xcm2-53pg" }]) :=
  noSilentClean_iff plainLibrary pinnedRequests requests_listed

/-- The advisory is listed, its details are never obtained, and the answer is the empty list. -/
theorem noSilentClean_fails_on_stub :
    ListedAt {} stubServer {} ["requests"] "requests" (cachePhase {} stubServer {} ["requests"])
        [{ id := some "GHSA-x84v-xcm2-53pg" }] ∧
      finalRecords {} stubServer (cachePhase {} stubServer {} ["requests"])
          [{ id := some "GHSA-x84v-xcm2-53pg" }] = [{ id := some "GHSA-x84v-xcm2-53pg" }] ∧
      matchDependency plainLibrary pinnedRequests
          ((queryPackages {} stubServer {} ["requests"]).results.lookup "requests") = [] ∧
      ¬NoSilentClean
        (matchDependency plainLibrary pinnedRequests
          ((queryPackages {} stubServer {} ["requests"]).results.lookup "requests"))
        (finalRecords {} stubServer (cachePhase {} stubServer {} ["requests"])
          [{ id := some "GHSA-x84v-xcm2-53pg" }]) := by
  have hfinal : finalRecords {} stubServer (cachePhase {} stubServer {} ["requests"])
      [{ id := some "GHSA-x84v-xcm2-53pg" }] = [{ id := some "GHSA-x84v-xcm2-53pg" }] := by
    decide
  have hempty : matchDependency plainLibrary pinnedRequests
      ((queryPackages {} stubServer {} ["requests"]).results.lookup "requests") = [] := by
    decide
  refine ⟨requests_listed, hfinal, hempty, ?_⟩
  rw [hfinal, hempty]
  rintro ⟨-, hne⟩
  exact hne ⟨_, List.mem_singleton_self _, rfl⟩ rfl

end TimeCodeSecurity.Sca
