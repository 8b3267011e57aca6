import TimeCodeSecurity.Sca.SilentClean

/-! # One result for every name

What `query_packages` returns for each requested name. Every name has a result, failed names are not
cached, and the size of the chunks does not matter when every query is answered. A name without an
answer of its own in an answered batch has an empty result all the same.
-/
namespace TimeCodeSecurity.Sca
set_option autoImplicit false

variable {client : OSVClient} {server : Server}

theorem retry_isSome {α : Type} (ask : ℕ → Reply α) {left : ℕ} (h : 0 < left) (k : ℕ) :
    (retry ask k left).isSome := by
  induction left generalizing k with
  | zero => omega
  | succ left ih =>
    unfold retry
    split
    · rfl
    · split
      · rfl
      · rename_i hgo
        simp only [Bool.or_eq_true, decide_eq_true_eq, not_or] at hgo
        exact ih (by omega) (k + 1)

theorem fetchBatchChunk_names_eq (h : 0 < client.maxRetries) (chunk : List String) :
    (fetchBatchChunk client server chunk).map Prod.fst = chunk := by
  have hsome := retry_isSome (server.batch chunk) h 0
  unfold fetchBatchChunk
  split
  next hnone =>
    rw [hnone] at hsome
    cases hsome
  next entries _ =>
    rw [List.map_map]
    exact List.zipIdx_map_fst 0 chunk
  next => split <;> simp [Function.comp_def]
  next => simp [Function.comp_def]

theorem batchEntries_names_eq (server : Server) (h : 0 < client.maxRetries)
    (pending : List String) :
    (batchEntries client server pending).map Prod.fst = pending := by
  rw [batchEntries, List.map_flatMap]
  simp only [fetchBatchChunk_names_eq h, List.flatMap_id']
  exact chunks_flatten client.batchChunkSize_pos pending

def listingAt (entries : List (Option (List RawVuln))) (idx : ℕ) : Listing :=
  ⟨((entries[idx]?).join).getD [], .network, none⟩

theorem mem_fetchBatchChunk {chunk : List String} {name : String} {l : Listing}
    (h : (name, l) ∈ fetchBatchChunk client server chunk) :
    (∃ entries, ∃ idx : ℕ, retry (server.batch chunk) 0 client.maxRetries = some (.answer entries) ∧
        chunk[idx]? = some name ∧ l = listingAt entries idx) ∨
      l.source = .error ∨ l.source = .offlineFallback := by
  unfold fetchBatchChunk at h
  split at h
  next => cases h
  next entries hanswer =>
    obtain ⟨⟨n, idx⟩, hmem, heq⟩ := List.mem_map.mp h
    obtain ⟨rfl, rfl⟩ := Prod.mk.inj heq
    exact .inl ⟨entries, idx, hanswer, List.mk_mem_zipIdx_iff_getElem?.mp hmem, rfl⟩
  next =>
    split at h
    all_goals
      obtain ⟨n, _, heq⟩ := List.mem_map.mp h
      rw [← (Prod.mk.inj heq).2]
      exact .inr (.inl rfl)
  next =>
    obtain ⟨n, _, heq⟩ := List.mem_map.mp h
    rw [← (Prod.mk.inj heq).2]
    exact .inr (.inr rfl)

theorem source_ne_cache {pending : List String} {name : String} {l : Listing}
    (h : (name, l) ∈ batchEntries client server pending) : l.source ≠ .cache := by
  obtain ⟨chunk, _, hl⟩ := List.mem_flatMap.mp h
  obtain ⟨entries, idx, _, _, rfl⟩ | hsource | hsource := mem_fetchBatchChunk hl
  · exact nofun
  · rw [hsource]
    exact nofun
  · rw [hsource]
    exact nofun

theorem mem_fetchBatchChunk_of_answer {chunk : List String} {entries : List (Option (List RawVuln))}
    (h : retry (server.batch chunk) 0 client.maxRetries = some (.answer entries)) {idx : ℕ}
    {name : String} (hidx : chunk[idx]? = some name) :
    (name, listingAt entries idx) ∈ fetchBatchChunk client server chunk := by
  unfold fetchBatchChunk
  rw [h]
  exact List.mem_map.mpr ⟨(name, idx), List.mk_mem_zipIdx_iff_getElem?.mpr hidx, rfl⟩

/-! ## The first loop -/

structure CacheLoop (start : ClientState) (names : List String) (run : QueryRun) : Prop where
  seen : ∀ raw ∈ names, normalizePackageName raw ≠ "" →
    normalizePackageName raw ∈ run.pending ∨ (run.results.lookup (normalizePackageName raw)).isSome
  pending : ∀ q ∈ run.pending, q ≠ "" ∧ ∃ raw ∈ names, normalizePackageName raw = q
  results : ∀ q res, run.results.lookup q = some res →
    (q ≠ "" ∧ ∃ raw ∈ names, normalizePackageName raw = q) ∧ res.packageName = q ∧
      res.source = .cache ∧
        ∃ L, start.memoryCache.lookup q = some L ∧ res.vulnerabilities.length = L.length
  cached : ∀ q, (run.state.memoryCache.lookup q).map List.length =
    (start.memoryCache.lookup q).map List.length

section Round

variable {run : QueryRun} {raw : String}

theorem cacheRound_of_empty (run : QueryRun) (h : normalizePackageName raw = "") :
    cacheRound client server run raw = run := by
  simp [cacheRound, h]

variable (client server)

theorem cacheRound_results_of_uncached (hempty : normalizePackageName raw ≠ "")
    (hnone : run.state.memoryCache.lookup (normalizePackageName raw) = none) :
    (cacheRound client server run raw).results = run.results := by
  unfold cacheRound
  simp only [hempty, if_false, hnone]
  split <;> rfl

theorem mem_cacheRound_pending (hempty : normalizePackageName raw ≠ "")
    (hnone : run.state.memoryCache.lookup (normalizePackageName raw) = none) (q : String) :
    q ∈ (cacheRound client server run raw).pending ↔ q ∈ run.pending ∨ q = normalizePackageName raw := by
  unfold cacheRound
  simp only [hempty, if_false, hnone]
  split
  next hmem =>
    constructor
    · exact .inl
    · rintro (hq | rfl)
      · exact hq
      · exact hmem
  next => simp

theorem cacheRound_pending_of_cached {L : List RawVuln} (hempty : normalizePackageName raw ≠ "")
    (hcached : run.state.memoryCache.lookup (normalizePackageName raw) = some L) :
    (cacheRound client server run raw).pending = run.pending := by
  unfold cacheRound
  simp only [hempty, if_false, hcached]

end Round

section Kept

variable {start : ClientState} {names : List String} {run : QueryRun} {raw : String}

theorem named_append {q : String} (h : q ≠ "" ∧ ∃ n ∈ names, normalizePackageName n = q) :
    q ≠ "" ∧ ∃ n ∈ names ++ [raw], normalizePackageName n = q := by
  obtain ⟨hne, n, hn, hq⟩ := h
  exact ⟨hne, n, List.mem_append_left _ hn, hq⟩

theorem CacheLoop.cached_round (h : CacheLoop start names run) (raw q : String) :
    ((cacheRound client server run raw).state.memoryCache.lookup q).map List.length =
      (start.memoryCache.lookup q).map List.length := by
  rw [cacheRound_length, h.cached]

theorem CacheLoop.round_empty (h : CacheLoop start names run) (hempty : normalizePackageName raw = "") :
    CacheLoop start (names ++ [raw]) run := by
  refine ⟨?_, fun q hq => named_append (h.pending q hq), ?_, h.cached⟩
  · intro n hn hne
    obtain hold | hnew := List.mem_append.mp hn
    · exact h.seen n hold hne
    · rw [List.mem_singleton.mp hnew] at hne
      exact absurd hempty hne
  · intro q res hq
    exact ⟨named_append (h.results q res hq).1, (h.results q res hq).2⟩

theorem CacheLoop.round_uncached (h : CacheLoop start names run) (hempty : normalizePackageName raw ≠ "")
    (hnone : run.state.memoryCache.lookup (normalizePackageName raw) = none) :
    CacheLoop start (names ++ [raw]) (cacheRound client server run raw) := by
  have hresults := cacheRound_results_of_uncached client server hempty hnone
  have hpending := mem_cacheRound_pending client server hempty hnone
  refine ⟨?_, ?_, ?_, h.cached_round raw⟩
  · intro n hn hne
    rw [hresults, hpending]
    obtain hold | hnew := List.mem_append.mp hn
    · exact (h.seen n hold hne).imp_left .inl
    · exact .inl (.inr (by rw [List.mem_singleton.mp hnew]))
  · intro q hq
    obtain hold | rfl := (hpending q).mp hq
    · exact named_append (h.pending q hold)
    · exact ⟨hempty, raw, by simp, rfl⟩
  · intro q res hq
    rw [hresults] at hq
    exact ⟨named_append (h.results q res hq).1, (h.results q res hq).2⟩

theorem CacheLoop.round_cached (h : CacheLoop start names run) (hempty : normalizePackageName raw ≠ "")
    {L : List RawVuln} (hL : run.state.memoryCache.lookup (normalizePackageName raw) = some L) :
    CacheLoop start (names ++ [raw]) (cacheRound client server run raw) := by
  have hself := @cacheRound_results_self client server run raw L hempty hL
  have hpending := cacheRound_pending_of_cached client server hempty hL
  refine ⟨?_, ?_, ?_, h.cached_round raw⟩
  · intro n hn hne
    rw [hpending]
    by_cases hsame : normalizePackageName raw = normalizePackageName n
    · exact .inr (by rw [← hsame, hself]; rfl)
    · rw [cacheRound_results_ne hsame]
      obtain hold | hnew := List.mem_append.mp hn
      · exact h.seen n hold hne
      · rw [List.mem_singleton.mp hnew] at hsame
        exact absurd rfl hsame
  · intro q hq
    rw [hpending] at hq
    exact named_append (h.pending q hq)
  · intro q res hq
    by_cases hsame : normalizePackageName raw = q
    · subst hsame
      rw [hself, Option.some.injEq] at hq
      have hstart := h.cached (normalizePackageName raw)
      rw [hL, Option.map_some] at hstart
      obtain ⟨L₀, hL₀, hlen⟩ := Option.map_eq_some_iff.mp hstart.symm
      rw [← hq]
      refine ⟨⟨hempty, raw, by simp, rfl⟩, rfl, rfl, L₀, hL₀, ?_⟩
      rw [List.length_map, hlen]
    · rw [cacheRound_results_ne hsame] at hq
      exact ⟨named_append (h.results q res hq).1, (h.results q res hq).2⟩

theorem CacheLoop.round (h : CacheLoop start names run) (raw : String) :
    CacheLoop start (names ++ [raw]) (cacheRound client server run raw) := by
  by_cases hempty : normalizePackageName raw = ""
  · rw [cacheRound_of_empty run hempty]
    exact h.round_empty hempty
  · cases hL : run.state.memoryCache.lookup (normalizePackageName raw) with
    | none => exact h.round_uncached hempty hL
    | some L => exact h.round_cached hempty hL

end Kept

theorem cachePhase_loop (client : OSVClient) (server : Server) (start : ClientState)
    (names : List String) :
    CacheLoop start names (cachePhase client server start names) := by
  induction names using List.reverseRecOn with
  | nil =>
    refine ⟨nofun, nofun, fun q res hq => ?_, fun q => rfl⟩
    cases hq
  | append_singleton names raw ih =>
    rw [cachePhase, List.foldl_append, ← cachePhase]
    exact ih.round raw

theorem chunkRound_result (run : QueryRun) (name : String) (l : Listing) :
    ∃ res, (chunkRound client server run (name, l)).results.lookup name = some res ∧
      res.packageName = name ∧ res.source = l.source ∧
        res.vulnerabilities.length = l.vulns.length := by
  by_cases hsource : l.source = .network
  · simp [chunkRound, hsource, QueryRun.hydrate, hydrateVulns_fst]
  · simp [chunkRound, hsource]

theorem foldl_chunkRound_result {entries : List (String × Listing)}
    (hnodup : (entries.map Prod.fst).Nodup) {name : String} {l : Listing}
    (h : (name, l) ∈ entries) (run : QueryRun) :
    ∃ res, (entries.foldl (chunkRound client server) run).results.lookup name = some res ∧
      res.packageName = name ∧ res.source = l.source ∧
        res.vulnerabilities.length = l.vulns.length := by
  induction entries generalizing run with
  | nil => cases h
  | cons e entries ih =>
    rw [List.map_cons, List.nodup_cons] at hnodup
    rw [List.foldl_cons]
    obtain rfl | htail := List.mem_cons.mp h
    · rw [foldl_chunkRound_results hnodup.1]
      exact chunkRound_result run name l
    · exact ih hnodup.2 htail _

theorem foldl_chunkRound_cached {entries : List (String × Listing)} {run : QueryRun} {q : String}
    (h : ((entries.foldl (chunkRound client server) run).state.memoryCache.lookup q).isSome) :
    (run.state.memoryCache.lookup q).isSome ∨ ∃ l, (q, l) ∈ entries ∧ l.source = .network := by
  induction entries generalizing run with
  | nil => exact .inl h
  | cons e entries ih =>
    obtain hround | ⟨l, hl, hsource⟩ := ih h
    · obtain ⟨name, l⟩ := e
      by_cases hsource : l.source = .network
      · by_cases hq : q = name
        · exact .inr ⟨l, by rw [hq]; exact List.mem_cons_self, hsource⟩
        · left
          simpa [chunkRound, hsource, QueryRun.hydrate, hq, hydrateVulns_memoryCache] using hround
      · left
        simpa [chunkRound, hsource] using hround
    · exact .inr ⟨l, List.mem_cons_of_mem _ hl, hsource⟩

/-! ## The names of a run -/

def addPending (cache : Dict (List RawVuln)) (pending : List String) (raw : String) : List String :=
  if normalizePackageName raw = "" ∨ (cache.lookup (normalizePackageName raw)).isSome ∨
      normalizePackageName raw ∈ pending then pending
  else pending ++ [normalizePackageName raw]

def pendingNames (start : ClientState) (names : List String) : List String :=
  names.foldl (addPending start.memoryCache) []

theorem addPending_spec {cache : Dict (List RawVuln)} {pending : List String}
    (h : pending.Nodup ∧ ∀ q ∈ pending, cache.lookup q = none) (raw : String) :
    (addPending cache pending raw).Nodup ∧
      ∀ q ∈ addPending cache pending raw, cache.lookup q = none := by
  unfold addPending
  split
  · exact h
  · rename_i hnew
    simp only [not_or, Bool.not_eq_true, Option.isSome_eq_false_iff, Option.isNone_iff_eq_none] at hnew
    constructor
    · rw [List.nodup_append]
      refine ⟨h.1, List.nodup_singleton _, ?_⟩
      rintro q hq _ hlast rfl
      exact hnew.2.2 (List.mem_singleton.mp hlast ▸ hq)
    · intro q hq
      obtain hold | hlast := List.mem_append.mp hq
      · exact h.2 q hold
      · rw [List.mem_singleton.mp hlast]
        exact hnew.2.1

theorem pendingNames_spec (start : ClientState) (names : List String) :
    (pendingNames start names).Nodup ∧
      ∀ q ∈ pendingNames start names, start.memoryCache.lookup q = none := by
  induction names using List.reverseRecOn with
  | nil => exact ⟨List.nodup_nil, nofun⟩
  | append_singleton names raw ih =>
    rw [pendingNames, List.foldl_append, ← pendingNames]
    exact addPending_spec ih raw

theorem cachePhase_pending (client : OSVClient) (server : Server) (start : ClientState)
    (names : List String) :
    (cachePhase client server start names).pending = pendingNames start names := by
  induction names using List.reverseRecOn with
  | nil => rfl
  | append_singleton names raw ih =>
    have hcached : ((cachePhase client server start names).state.memoryCache.lookup
        (normalizePackageName raw)).isSome =
          (start.memoryCache.lookup (normalizePackageName raw)).isSome :=
      foldl_cacheRound_cached names _ _
    rw [cachePhase, List.foldl_append, ← cachePhase, pendingNames, List.foldl_append,
      ← pendingNames, ← ih]
    simp only [List.foldl_cons, List.foldl_nil, addPending, cacheRound, ← hcached]
    by_cases hempty : normalizePackageName raw = ""
    · simp [hempty]
    · cases hL : (cachePhase client server start names).state.memoryCache.lookup
        (normalizePackageName raw) with
      | none =>
        by_cases hmem : normalizePackageName raw ∈ (cachePhase client server start names).pending
        · simp [hempty, hmem]
        · simp [hempty, hmem]
      | some L => simp [hempty]

section Run

variable (client server) (start : ClientState) (names : List String)

/-- In this run the server answered the query for `name` with no vulnerabilities. -/
def AnsweredClean (name : String) : Prop :=
  ∃ chunk ∈ chunks client.batchChunkSize (pendingNames start names),
    ∃ entries, ∃ idx : ℕ, retry (server.batch chunk) 0 client.maxRetries = some (.answer entries) ∧
      chunk[idx]? = some name ∧ entries[idx]? = some (some [])

def AnswersQueries : Prop :=
  ∀ chunk ∈ chunks client.batchChunkSize (pendingNames start names),
    ∀ entries, retry (server.batch chunk) 0 client.maxRetries = some (.answer entries) →
      ∀ (idx : ℕ) (name : String), chunk[idx]? = some name →
        ∃ vulns, entries[idx]? = some (some vulns)

variable {start names}

theorem chunk_unique (client : OSVClient) {chunk chunk' : List String} {idx idx' : ℕ} {name : String}
    (h : chunk ∈ chunks client.batchChunkSize (pendingNames start names))
    (h' : chunk' ∈ chunks client.batchChunkSize (pendingNames start names))
    (hidx : chunk[idx]? = some name) (hidx' : chunk'[idx']? = some name) :
    chunk = chunk' ∧ idx = idx' := by
  have hnodup : (chunks client.batchChunkSize
      (pendingNames start names)).flatten.Nodup := by
    rw [chunks_flatten client.batchChunkSize_pos]
    exact (pendingNames_spec start names).1
  rw [List.nodup_flatten] at hnodup
  have hsame : chunk = chunk' := by
    by_contra hne
    have hsymm : Std.Symm (List.Disjoint (α := String)) := ⟨fun _ _ hab => hab.symm⟩
    have hdisjoint := hnodup.2.forall h h' hne
    exact hdisjoint (List.mem_of_getElem? hidx) (List.mem_of_getElem? hidx')
  subst hsame
  refine ⟨rfl, ?_⟩
  have hlt := (List.getElem?_eq_some_iff.mp hidx).1
  exact (List.getElem?_inj hlt (hnodup.1 chunk h)).mp (hidx.trans hidx'.symm)

theorem result_of_entry (hoff : client.offlineMode = false) {name : String} {l : Listing}
    (h : (name, l) ∈ batchEntries client server (pendingNames start names)) :
    ∃ res, (queryPackages client server start names).results.lookup name = some res ∧
      res.packageName = name ∧ res.source = l.source ∧
        res.vulnerabilities.length = l.vulns.length := by
  rw [queryPackages_online hoff, cachePhase_pending]
  exact foldl_chunkRound_result
    ((pendingNames_spec start names).1.sublist (batchEntries_names client server _)) h _

theorem result_of_cached {raw : String} (hraw : raw ∈ names) (hne : normalizePackageName raw ≠ "")
    (hcached : (start.memoryCache.lookup (normalizePackageName raw)).isSome) :
    ∃ res, (queryPackages client server start names).results.lookup (normalizePackageName raw) =
        some res ∧
      (cachePhase client server start names).results.lookup (normalizePackageName raw) =
        some res := by
  have hloop := cachePhase_loop client server start names
  have hpending : normalizePackageName raw ∉ (cachePhase client server start names).pending := by
    intro hmem
    rw [cachePhase_pending] at hmem
    rw [(pendingNames_spec start names).2 _ hmem] at hcached
    cases hcached
  obtain ⟨res, hres⟩ := Option.isSome_iff_exists.mp ((hloop.seen raw hraw hne).resolve_left hpending)
  have hstill : ((cachePhase client server start names).state.memoryCache.lookup
      (normalizePackageName raw)).isSome := by
    have hlength := hloop.cached (normalizePackageName raw)
    rw [← Option.isSome_map (f := List.length), hlength, Option.isSome_map]
    exact hcached
  exact ⟨res, by rw [queryPackages_results_of_cached hstill, hres], hres⟩

theorem offline_result_of_mem {pending : List String} {q : String} (h : q ∈ pending)
    (res : Dict OSVQueryResult) :
    (pending.foldl (fun res name => res.insert name (offlineResult name)) res).lookup q =
      some (offlineResult q) := by
  induction pending generalizing res with
  | nil => cases h
  | cons n pending ih =>
    rw [List.foldl_cons]
    by_cases hq : q ∈ pending
    · exact ih hq _
    · obtain rfl | htail := List.mem_cons.mp h
      · rw [offline_results hq, AList.lookup_insert]
      · exact absurd htail hq

theorem result_of_pending (hretries : 0 < client.maxRetries) {q : String}
    (h : q ∈ pendingNames start names) :
    ∃ res, (queryPackages client server start names).results.lookup q = some res ∧
      res.packageName = q ∧ res.source ≠ .cache ∧
        (res.source = .network → client.offlineMode = false ∧
          ∃ l, (q, l) ∈ batchEntries client server (pendingNames start names) ∧
            l.source = .network ∧ res.vulnerabilities.length = l.vulns.length) := by
  cases hoff : client.offlineMode with
  | true =>
    refine ⟨offlineResult q, ?_, rfl, by simp [offlineResult], fun hsource => ?_⟩
    · rw [← cachePhase_pending client server] at h
      rw [queryPackages, if_pos hoff]
      exact offline_result_of_mem h _
    · cases hsource
  | false =>
    have hnames := batchEntries_names_eq server hretries
      (pendingNames start names)
    obtain ⟨⟨_, l⟩, hl, rfl⟩ := List.mem_map.mp (hnames.symm ▸ h)
    obtain ⟨res, hres, hname, hsource, hlength⟩ := result_of_entry client server hoff hl
    refine ⟨res, hres, hname, ?_, fun hnetwork => ⟨rfl, l, hl, hsource ▸ hnetwork, hlength⟩⟩
    rw [hsource]
    exact source_ne_cache hl

end Run

/-! ## When the results are honest -/

def OSVClient.withChunkSize (client : OSVClient) (size : ℕ) (h : 0 < size) : OSVClient :=
  { client with batchChunkSize := size, batchChunkSize_pos := h }

def Server.AnswersAll (server : Server) (maxRetries : ℕ) : Prop :=
  ∃ answer : String → List RawVuln, ∀ chunk,
    retry (server.batch chunk) 0 maxRetries = some (.answer (chunk.map fun name => some (answer name)))

/-- What is promised of a run. `before` are the names whose query the server answered with no
vulnerabilities in earlier runs; an empty entry of the cache is judged by it. -/
structure HonestResults (client : OSVClient) (server : Server) (before : String → Prop)
    (start : ClientState) (names : List String) : Prop where
  complete : ∀ raw ∈ names, normalizePackageName raw ≠ "" →
    ∃ res, (queryPackages client server start names).results.lookup (normalizePackageName raw) =
      some res ∧ res.packageName = normalizePackageName raw
  only : ∀ q, ((queryPackages client server start names).results.lookup q).isSome →
    q ≠ "" ∧ ∃ raw ∈ names, normalizePackageName raw = q
  clean_answered : ∀ q res, (queryPackages client server start names).results.lookup q = some res →
    res.vulnerabilities = [] →
      (res.source = .network → AnsweredClean client server start names q) ∧
        (res.source = .cache → before q)
  failed_not_cached : ∀ q, start.memoryCache.lookup q = none →
    ((queryPackages client server start names).state.memoryCache.lookup q).isSome →
      ∃ res, (queryPackages client server start names).results.lookup q = some res ∧
        res.source = .network
  chunk_independent : server.AnswersAll client.maxRetries → ∀ size h,
    (queryPackages (client.withChunkSize size h) server start names).results =
      (queryPackages client server start names).results

/-- The empty entries of the cache that are used come from the server, and an answered batch leaves no
query out. -/
def NothingMissing (client : OSVClient) (server : Server) (before : String → Prop)
    (start : ClientState) (names : List String) : Prop :=
  (∀ raw ∈ names, normalizePackageName raw ≠ "" →
    start.memoryCache.lookup (normalizePackageName raw) = some [] →
      before (normalizePackageName raw)) ∧
  (client.offlineMode = false → AnswersQueries client server start names)

section Honest

variable (client server) {start : ClientState} {names : List String}

theorem result_cases (hretries : 0 < client.maxRetries) {q : String} {res : OSVQueryResult}
    (h : (queryPackages client server start names).results.lookup q = some res) :
    (∃ L, (q ≠ "" ∧ ∃ raw ∈ names, normalizePackageName raw = q) ∧ res.source = .cache ∧
        start.memoryCache.lookup q = some L ∧ res.vulnerabilities.length = L.length) ∨
      (q ∈ pendingNames start names ∧ res.source ≠ .cache ∧
        (res.source = .network → client.offlineMode = false ∧
          ∃ l, (q, l) ∈ batchEntries client server (pendingNames start names) ∧
            l.source = .network ∧ res.vulnerabilities.length = l.vulns.length)) := by
  by_cases hpending : q ∈ pendingNames start names
  · obtain ⟨res', hres', _, hne, hnetwork⟩ := result_of_pending client server hretries hpending
    rw [h, Option.some.injEq] at hres'
    subst hres'
    exact .inr ⟨hpending, hne, hnetwork⟩
  · have hcache : (cachePhase client server start names).results.lookup q = some res := by
      cases hoff : client.offlineMode with
      | true =>
        rw [← cachePhase_pending client server] at hpending
        rw [queryPackages, if_pos hoff] at h
        rw [← h]
        exact (offline_results hpending _).symm
      | false =>
        have hnot : q ∉ (batchEntries client server (pendingNames start names)).map Prod.fst :=
          fun hmem => hpending ((batchEntries_names client server _).subset hmem)
        rwa [queryPackages_online hoff, cachePhase_pending, foldl_chunkRound_results hnot] at h
    obtain ⟨hin, _, hsource, L, hL, hlength⟩ :=
      (cachePhase_loop client server start names).results q res hcache
    exact .inl ⟨L, hin, hsource, hL, hlength⟩

theorem batchEntries_of_answersAll {server : Server} {answer : String → List RawVuln}
    {c : OSVClient}
    (h : ∀ chunk, retry (server.batch chunk) 0 c.maxRetries =
      some (.answer (chunk.map fun name => some (answer name)))) (pending : List String) :
    batchEntries c server pending =
      pending.map fun name => (name, ⟨answer name, .network, none⟩) := by
  have hchunk : ∀ chunk, fetchBatchChunk c server chunk =
      chunk.map fun name => (name, (⟨answer name, .network, none⟩ : Listing)) := by
    intro chunk
    unfold fetchBatchChunk
    rw [h]
    apply List.ext_getElem?
    intro idx
    cases hidx : chunk[idx]? with
    | none => simp [hidx]
    | some name => simp [hidx]
  have hfun : fetchBatchChunk c server =
      List.map fun name => (name, (⟨answer name, .network, none⟩ : Listing)) := funext hchunk
  rw [batchEntries, hfun, List.flatMap_def, ← List.map_flatten,
    chunks_flatten c.batchChunkSize_pos]

theorem chunk_independent {server : Server} {client : OSVClient}
    (h : server.AnswersAll client.maxRetries) (size : ℕ) (hsize : 0 < size) :
    queryPackages (client.withChunkSize size hsize) server start names =
      queryPackages client server start names := by
  obtain ⟨answer, hanswer⟩ := h
  cases hoff : client.offlineMode with
  | true =>
    have hoff' : (client.withChunkSize size hsize).offlineMode = true := hoff
    rw [queryPackages, queryPackages, if_pos hoff, if_pos hoff']
    rfl
  | false =>
    have hoff' : (client.withChunkSize size hsize).offlineMode = false := hoff
    rw [queryPackages_online hoff, queryPackages_online hoff', batchEntries_of_answersAll hanswer,
      batchEntries_of_answersAll (c := client.withChunkSize size hsize) hanswer]
    rfl

theorem complete_of_retries (hretries : 0 < client.maxRetries) {raw : String} (hraw : raw ∈ names)
    (hne : normalizePackageName raw ≠ "") :
    ∃ res, (queryPackages client server start names).results.lookup (normalizePackageName raw) =
      some res ∧ res.packageName = normalizePackageName raw := by
  by_cases hpending : normalizePackageName raw ∈ pendingNames start names
  · obtain ⟨res, hres, hname, _⟩ := result_of_pending client server hretries hpending
    exact ⟨res, hres, hname⟩
  · have hloop := cachePhase_loop client server start names
    rw [← cachePhase_pending client server] at hpending
    obtain ⟨res, hres⟩ :=
      Option.isSome_iff_exists.mp ((hloop.seen raw hraw hne).resolve_left hpending)
    obtain ⟨_, hname, _, L, hL, _⟩ := hloop.results _ res hres
    obtain ⟨res', hres', hcache⟩ := result_of_cached client server hraw hne (by rw [hL]; rfl)
    rw [hres, Option.some.injEq] at hcache
    exact ⟨res', hres', hcache ▸ hname⟩

theorem network_of_cached {q : String}
    (hstart : start.memoryCache.lookup q = none)
    (hcached : ((queryPackages client server start names).state.memoryCache.lookup q).isSome) :
    ∃ res, (queryPackages client server start names).results.lookup q = some res ∧
      res.source = .network := by
  have hbefore : ((cachePhase client server start names).state.memoryCache.lookup q).isSome =
      false := by
    have hsame : ((cachePhase client server start names).state.memoryCache.lookup q).isSome =
        (start.memoryCache.lookup q).isSome := foldl_cacheRound_cached names _ q
    rw [hsame, hstart]
    rfl
  cases hoff : client.offlineMode with
  | true =>
    rw [queryPackages, if_pos hoff] at hcached
    rw [hcached] at hbefore
    cases hbefore
  | false =>
    rw [queryPackages_online hoff, cachePhase_pending] at hcached
    obtain hold | ⟨l, hl, hsource⟩ := foldl_chunkRound_cached hcached
    · rw [hold] at hbefore
      cases hbefore
    · obtain ⟨res, hres, _, hresource, _⟩ := result_of_entry client server hoff hl
      exact ⟨res, hres, hresource.trans hsource⟩

theorem answeredClean_of_entry (hanswers : AnswersQueries client server start names) {q : String}
    {l : Listing}
    (hl : (q, l) ∈ batchEntries client server (pendingNames start names))
    (hsource : l.source = .network) (hclean : l.vulns = []) :
    AnsweredClean client server start names q := by
  obtain ⟨chunk, hchunk, hmem⟩ := List.mem_flatMap.mp hl
  obtain ⟨entries, idx, hanswer, hidx, rfl⟩ | herror | herror := mem_fetchBatchChunk hmem
  · obtain ⟨vulns, hentry⟩ := hanswers chunk hchunk entries hanswer idx q hidx
    have hnil : vulns = [] := by simpa [listingAt, hentry] using hclean
    exact ⟨chunk, hchunk, entries, idx, hanswer, hidx, by rw [hentry, hnil]⟩
  · rw [hsource] at herror
    cases herror
  · rw [hsource] at herror
    cases herror

theorem answersQueries_of_clean (hoff : client.offlineMode = false)
    (h : ∀ q res, (queryPackages client server start names).results.lookup q = some res →
      res.vulnerabilities = [] → res.source = .network →
        AnsweredClean client server start names q) :
    AnswersQueries client server start names := by
  intro chunk hchunk entries hanswer idx name hidx
  by_contra hmissing
  have hl : (name, listingAt entries idx) ∈
      batchEntries client server (pendingNames start names) :=
    List.mem_flatMap.mpr ⟨chunk, hchunk, mem_fetchBatchChunk_of_answer hanswer hidx⟩
  have hclean : (listingAt entries idx).vulns = [] := by
    cases hentry : entries[idx]? with
    | none => simp [listingAt, hentry]
    | some entry =>
      cases entry with
      | none => simp [listingAt, hentry]
      | some vulns => exact absurd ⟨vulns, hentry⟩ hmissing
  obtain ⟨res, hres, _, hsource, hlength⟩ := result_of_entry client server hoff hl
  have hempty : res.vulnerabilities = [] := by
    rw [← List.length_eq_zero_iff, hlength, hclean]
    rfl
  obtain ⟨chunk', hchunk', entries', idx', hanswer', hidx', hentry'⟩ :=
    h name res hres hempty hsource
  obtain ⟨rfl, rfl⟩ := chunk_unique client hchunk hchunk' hidx hidx'
  rw [hanswer, Option.some.injEq, Reply.answer.injEq] at hanswer'
  subst hanswer'
  exact hmissing ⟨[], hentry'⟩

end Honest

/-- The batch endpoint has an entry for the first name of a chunk only. -/
def shortServer : Server :=
  { batch := fun _ _ => .answer [some []]
    detail := fun _ _ _ => .httpError 404 }

theorem entries_of_shortServer {chunk : List String} {entries : List (Option (List RawVuln))}
    (h : retry (shortServer.batch chunk) 0 3 = some (.answer entries)) : entries = [some []] := by
  have hanswer : some (Reply.answer [some []]) = some (Reply.answer entries) := h
  rw [Option.some.injEq, Reply.answer.injEq] at hanswer
  exact hanswer.symm

end TimeCodeSecurity.Sca
