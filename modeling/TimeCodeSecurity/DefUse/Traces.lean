import TimeCodeSecurity.DefUse.BodyRuns
import TimeCodeSecurity.DefUse.Views
import TimeCodeSecurity.Foundations.Chase

/-! # Traces of taint

`trace_taint_path` reads the way of a value back from the map, which has one entry a name: the last
tracked assignment. So the trace is the flow of a run exactly where each hop of the flow is on record, as
the last tracked assignment of its name or one like it (`trace_real_iff`).
-/
namespace TimeCodeSecurity.DefUse
open Py Paths LocalDefUseTracker LastWrites Chase
open Execution (parameterNames)
set_option autoImplicit false

def placeholders : List String := ["<literal>", "<unknown>", "<complex_expr>"]

def AliasInfo.next (info : AliasInfo) : Option String :=
  if info.source ≠ "" ∧ info.source ∉ placeholders then some info.source else none

namespace AliasTracker

variable (S : AliasTracker)

def entry (current : String) : Option (AliasInfo × Option String) :=
  (S.aliasMap.lookup current).map fun info => (info, info.next)

def chain (varName : String) : List (String × AliasInfo) × String :=
  chase S.entry S.aliasMap.keys.length [] varName

def getAliasChain (varName : String) : List String := (S.chain varName).1.map Prod.fst

def traceTaintPath (sinkVar : String) : Option (List (String × ℕ)) :=
  if S.isVariableTainted sinkVar then
    let (entries, current) := S.chain sinkVar
    let path := entries.map fun (x, info) => (x, info.lineno)
    let path :=
      if current ∈ S.sets.taintedVars ∧ current ∉ S.aliasMap.keys then path ++ [(current, 0)] else path
    if path.isEmpty then none else some path.reverse
  else none

theorem entry_ne_none_iff (x : String) : S.entry x ≠ none ↔ x ∈ S.aliasMap.keys := by
  rw [entry, ne_eq, Option.map_eq_none_iff, ← ne_eq, Option.ne_none_iff_isSome, AList.lookup_isSome]
  rfl

theorem chain_of_leads {x last : String} {L : List (String × AliasInfo)} (h : Leads S.entry x L last) :
    S.chain x = (L, last) := by
  refine chase_of_leads h (by simp) ?_
  have hsub : L.map Prod.fst ⊆ S.aliasMap.keys :=
    fun y hy => (S.entry_ne_none_iff y).mp (h.has_entry hy)
  have hle := (List.subperm_of_subset h.nodup hsub).length_le
  rwa [List.length_map] at hle

end AliasTracker

/-- A path that a run of the body takes: it ends in the variable, starts at a parameter and goes down the
text, and at the end of the run the variable carries what came from the parameter by these assignments. -/
structure RealPath (args : Arguments Expr) (body : List Stmt) (x : String) (path : List (String × ℕ)) :
    Prop where
  ends : ∃ lineno, path.getLast? = some (x, lineno)
  starts : ∃ p ∈ parameterNames args, path.head? = some (p, 0)
  ordered : (path.map Prod.snd).Pairwise (· ≤ ·)
  executed : ∃ tr r f, blockRuns body tr r ∧ carriedAfter (parameterNames args) tr x = some f ∧
    path = (f.param, 0) :: f.hops.reverse

def sourceName (unparse : Expr → String) (value : Expr) : String :=
  if isSafeLiteral value then "<literal>"
  else if (extractSanitizerName value).isSome then getSourceName value
  else
    match value with
    | .name _ id _ => id
    | value => unparse value

/-- The last tracked assignment of `x` stands on the line and gives it a value with the source. -/
def LastTracked (unparse : Expr → String) (body : List Stmt) (x : String) (lineno : ℕ) (source : String) :
    Prop :=
  ∃ before value after, linedWalkAll body = before ++ (lineno, .track x value) :: after ∧
    (∀ e ∈ after, e.2.tracks x = false) ∧ sourceName unparse value = source

def OnRecord (unparse : Expr → String) (body : List Stmt) (param : String) : List (String × ℕ) → Prop
  | [] => True
  | [(x, lineno)] => LastTracked unparse body x lineno param ∧ param ≠ "" ∧ param ∉ placeholders
  | (x, lineno) :: (y, m) :: rest =>
    (LastTracked unparse body x lineno y ∧ y ≠ "" ∧ y ∉ placeholders) ∧
      OnRecord unparse body param ((y, m) :: rest)

/-- A run brings a parameter to `x` by assignments on record, none above the one before it. The parameter
has no tracked assignment, and is marked or tainted by an augmented assignment. -/
def FlowOnRecord (unparse : Expr → String) (args : Arguments Expr) (body : List Stmt) (x : String) : Prop :=
  ∃ tr r f, blockRuns body tr r ∧ carriedAfter (parameterNames args) tr x = some f ∧
    OnRecord unparse body f.param f.hops ∧ (f.hops.map Prod.snd).Pairwise (· ≥ ·) ∧
    (∀ e ∈ walkAll body, e.tracks f.param = false) ∧
    (f.param ∈ markedParameters args ∨ Raised (startTracker args) (walkAll body) f.param)

variable {unparse : Expr → String} {args : Arguments Expr} {body : List Stmt} {x : String}

/-! ## The map and the record -/

theorem aliasInfo_source (T : LocalDefUseTracker) (x : String) (value : Expr) (lineno : ℕ) :
    (aliasInfo unparse T x value lineno).source = sourceName unparse value := by
  unfold aliasInfo sourceName
  split_ifs with hlit hsan
  · rfl
  · obtain ⟨s, hs⟩ := Option.isSome_iff_exists.mp hsan
    simp [hs]
  · rw [Option.not_isSome_iff_eq_none.mp hsan]
    cases value <;> rfl

theorem aliasInfo_lineno (T : LocalDefUseTracker) (x : String) (value : Expr) (lineno : ℕ) :
    (aliasInfo unparse T x value lineno).lineno = lineno := by
  unfold aliasInfo
  split_ifs
  · rfl
  · split
    · rfl
    · split <;> rfl

variable (args) in
theorem lookup_iff_lastTracked (lineno : ℕ) (source : String) :
    (∃ info, (analyzeAliases unparse args body).aliasMap.lookup x = some info ∧ info.lineno = lineno ∧
      info.source = source) ↔ LastTracked unparse body x lineno source := by
  constructor
  · rintro ⟨info, hinfo, rfl, rfl⟩
    obtain ⟨before, l, value, after, hwalk, hafter⟩ := exists_last_track (tracked_of_lookup hinfo)
    rw [lookup_of_last hwalk hafter] at hinfo
    cases hinfo
    rw [aliasInfo_lineno, aliasInfo_source]
    exact ⟨before, value, after, hwalk, hafter, rfl⟩
  · rintro ⟨before, value, after, hwalk, hafter, rfl⟩
    exact ⟨_, lookup_of_last hwalk hafter, aliasInfo_lineno .., aliasInfo_source ..⟩

theorem keys_iff_tracked : x ∈ (analyzeAliases unparse args body).aliasMap.keys ↔
    ∃ e ∈ walkAll body, e.tracks x = true := by
  rw [← tracks_walk_iff]
  constructor
  · intro h
    obtain ⟨info, hinfo⟩ := Option.isSome_iff_exists.mp (AList.lookup_isSome.mpr h)
    exact tracked_of_lookup hinfo
  · intro h
    obtain ⟨before, lineno, value, after, hwalk, hafter⟩ := exists_last_track h
    exact AList.lookup_isSome.mp (Option.isSome_iff_exists.mpr ⟨_, lookup_of_last hwalk hafter⟩)

theorem next_eq_some_iff (info : AliasInfo) (y : String) :
    info.next = some y ↔ info.source = y ∧ y ≠ "" ∧ y ∉ placeholders := by
  unfold AliasInfo.next
  split_ifs with h
  · constructor
    · rintro ⟨⟩
      exact ⟨rfl, h⟩
    · rintro ⟨rfl, -⟩
      rfl
  · constructor
    · nofun
    · rintro ⟨rfl, hne⟩
      exact absurd hne h

variable (args) in
theorem entry_iff (lineno : ℕ) (y : String) :
    (∃ info, (analyzeAliases unparse args body).entry x = some (info, some y) ∧ info.lineno = lineno) ↔
      LastTracked unparse body x lineno y ∧ y ≠ "" ∧ y ∉ placeholders := by
  rw [← lookup_iff_lastTracked args]
  constructor
  · rintro ⟨info, hentry, rfl⟩
    obtain ⟨i, hi, heq⟩ := Option.map_eq_some_iff.mp hentry
    obtain ⟨rfl, hnext⟩ := Prod.mk.injEq .. ▸ heq
    obtain ⟨hsource, hne⟩ := (next_eq_some_iff i y).mp hnext
    exact ⟨⟨i, hi, rfl, hsource⟩, hne⟩
  · rintro ⟨⟨info, hinfo, rfl, hsource⟩, hne⟩
    refine ⟨info, ?_, rfl⟩
    rw [AliasTracker.entry, hinfo, Option.map_some, (next_eq_some_iff info y).mpr ⟨hsource, hne⟩]

theorem leads_iff_onRecord {param : String} (hparam : ∀ e ∈ walkAll body, e.tracks param = false)
    (hops : List (String × ℕ)) (hends : (hops = [] ∧ param = x) ∨ ∃ lineno rest, hops = (x, lineno) :: rest) :
    (∃ L, Leads (analyzeAliases unparse args body).entry x L param ∧
      L.map (fun e => (e.1, e.2.lineno)) = hops) ↔ OnRecord unparse body param hops := by
  have hfree : (analyzeAliases unparse args body).entry param = none := by
    by_contra h
    obtain ⟨e, he, hname⟩ := keys_iff_tracked.mp ((AliasTracker.entry_ne_none_iff _ _).mp h)
    rw [hparam e he] at hname
    cases hname
  induction hops generalizing x with
  | nil =>
    obtain rfl : param = x := by simpa using hends
    exact ⟨fun _ => trivial, fun _ => ⟨[], .done hfree, rfl⟩⟩
  | cons hop rest ih =>
    obtain ⟨lineno, rfl⟩ : ∃ lineno, hop = (x, lineno) := by
      obtain h | ⟨l, r, h⟩ := hends
      · cases h.1
      · exact ⟨l, (List.cons_eq_cons.mp h).1⟩
    -- the name the hop comes from
    have hstep : ∀ y, (∃ L, Leads (analyzeAliases unparse args body).entry y L param ∧
          L.map (fun e => (e.1, e.2.lineno)) = rest) → LastTracked unparse body x lineno y ∧ y ≠ "" ∧
          y ∉ placeholders → ∃ L, Leads (analyzeAliases unparse args body).entry x L param ∧
          L.map (fun e => (e.1, e.2.lineno)) = (x, lineno) :: rest := by
      rintro y ⟨L, hL, hmap⟩ hlast
      obtain ⟨info, hentry, hline⟩ := (entry_iff args lineno y).mpr hlast
      exact ⟨(x, info) :: L, .step hentry hL, by rw [List.map_cons, hmap, hline]⟩
    have hback : ∀ {L}, Leads (analyzeAliases unparse args body).entry x L param →
        L.map (fun e => (e.1, e.2.lineno)) = (x, lineno) :: rest →
        ∃ y L', Leads (analyzeAliases unparse args body).entry y L' param ∧
          L'.map (fun e => (e.1, e.2.lineno)) = rest ∧
          (LastTracked unparse body x lineno y ∧ y ≠ "" ∧ y ∉ placeholders) := by
      intro L hL hmap
      cases hL with
      | done => cases hmap
      | step hentry hrest =>
        obtain ⟨hhead, htail⟩ := List.cons_eq_cons.mp hmap
        exact ⟨_, _, hrest, htail, (entry_iff args lineno _).mp ⟨_, hentry, (Prod.mk.inj hhead).2⟩⟩
    cases rest with
    | nil =>
      constructor
      · rintro ⟨L, hL, hmap⟩
        obtain ⟨y, L', hL', hmap', hlast⟩ := hback hL hmap
        rw [List.map_eq_nil_iff.mp hmap'] at hL'
        cases hL'
        exact hlast
      · intro h
        exact hstep param ⟨[], .done hfree, rfl⟩ h
    | cons hop' rest =>
      obtain ⟨y, m⟩ := hop'
      have hrest := ih (x := y) (.inr ⟨m, rest, rfl⟩)
      constructor
      · rintro ⟨L, hL, hmap⟩
        obtain ⟨z, L', hL', hmap', hlast⟩ := hback hL hmap
        obtain rfl : z = y := by
          cases hL' with
          | done => cases hmap'
          | step => exact congrArg Prod.fst (List.cons_eq_cons.mp hmap').1
        exact ⟨hlast, hrest.mp ⟨L', hL', hmap'⟩⟩
      · rintro ⟨hlast, htail⟩
        exact hstep y (hrest.mpr htail) hlast

/-! ## The trace and the flow -/

theorem trace_of_leads {S : AliasTracker} {L : List (String × AliasInfo)} {p : String}
    (hx : S.isVariableTainted x = true) (hL : Leads S.entry x L p) (hp : p ∈ S.sets.taintedVars) :
    S.traceTaintPath x = some ((p, 0) :: (L.map fun e => (e.1, e.2.lineno)).reverse) := by
  have hfree : p ∉ S.aliasMap.keys := fun h => (S.entry_ne_none_iff p).mpr h hL.last_free
  rw [AliasTracker.traceTaintPath, if_pos hx, S.chain_of_leads hL]
  simp [hp, hfree]

theorem leads_of_trace {S : AliasTracker} (hlines : ∀ y info, S.aliasMap.lookup y = some info → 1 ≤ info.lineno)
    {p : String} {hops : List (String × ℕ)} (h : S.traceTaintPath x = some ((p, 0) :: hops.reverse)) :
    (∃ L, Leads S.entry x L p ∧ L.map (fun e => (e.1, e.2.lineno)) = hops) ∧ p ∈ S.sets.taintedVars ∧
      p ∉ S.aliasMap.keys := by
  obtain ⟨L, current, hchain⟩ : ∃ L current, S.chain x = (L, current) := ⟨_, _, rfl⟩
  have hx : S.isVariableTainted x = true := by
    by_contra hclean
    simp [AliasTracker.traceTaintPath, hclean] at h
  have hreverse : ∀ {path q : List (String × ℕ)}, (if path.isEmpty then none else some path.reverse) = some q →
      path.reverse = q := by
    intro path q hq
    split_ifs at hq
    exact Option.some.inj hq
  rw [AliasTracker.traceTaintPath, if_pos hx, hchain] at h
  by_cases hadd : current ∈ S.sets.taintedVars ∧ current ∉ S.aliasMap.keys
  · simp only [if_pos hadd] at h
    have hpath := hreverse h
    simp only [List.reverse_append, List.reverse_cons, List.reverse_nil, List.nil_append,
      List.singleton_append, List.cons.injEq, Prod.mk.injEq, and_true, List.reverse_inj] at hpath
    obtain ⟨rfl, rfl⟩ := hpath
    have hfree : S.entry current = none := by
      by_contra hsome
      exact hadd.2 ((S.entry_ne_none_iff current).mp hsome)
    have hleads := @leads_of_chase _ _ S.entry _ S.aliasMap.keys.length [] x
    rw [← AliasTracker.chain, hchain] at hleads
    exact ⟨⟨L, hleads hfree, rfl⟩, hadd⟩
  · -- an entry of line 0
    simp only [if_neg hadd] at h
    have hmem : (p, 0) ∈ L.map fun e => (e.1, e.2.lineno) := by
      rw [← List.mem_reverse, hreverse h]
      exact List.mem_cons_self
    obtain ⟨⟨y, info⟩, he, heq⟩ := List.mem_map.mp hmem
    have hin : (y, info) ∈ (chase S.entry S.aliasMap.keys.length [] x).1 := by
      rw [← AliasTracker.chain, hchain]
      exact he
    obtain ⟨next, hentry⟩ := entry_of_mem_chase hin
    obtain ⟨i, hi, hpair⟩ := Option.map_eq_some_iff.mp hentry
    have hline := hlines y i hi
    rw [(Prod.mk.inj hpair).1, (Prod.mk.inj heq).2] at hline
    cases hline

theorem pairwise_hops_iff (p : String) (hops : List (String × ℕ)) :
    (((p, 0) :: hops.reverse).map Prod.snd).Pairwise (· ≤ ·) ↔ (hops.map Prod.snd).Pairwise (· ≥ ·) := by
  simp [List.pairwise_reverse]

/-- For a tainted variable `trace_taint_path` returns a real path exactly when a flow to it is on record. -/
theorem trace_real_iff (unparse : Expr → String) (args : Arguments Expr) (body : List Stmt)
    (hlines : ∀ e ∈ linedWalkAll body, 1 ≤ e.1) (x : String)
    (hx : (analyzeAliases unparse args body).isVariableTainted x = true) :
    (∃ path, (analyzeAliases unparse args body).traceTaintPath x = some path ∧ RealPath args body x path) ↔
      FlowOnRecord unparse args body x := by
  have hdisjoint := disjoint_sets unparse args body
  constructor
  · rintro ⟨path, htrace, -, -, hordered, tr, r, f, hrun, hf, rfl⟩
    have hentries : ∀ y info, (analyzeAliases unparse args body).aliasMap.lookup y = some info →
        1 ≤ info.lineno := by
      intro y info hinfo
      obtain ⟨before, value, after, hwalk, -⟩ := (lookup_iff_lastTracked args _ _).mp ⟨info, hinfo, rfl, rfl⟩
      exact hlines (info.lineno, .track y value) (by simp [hwalk])
    obtain ⟨hleads, hp, hfree⟩ := leads_of_trace hentries htrace
    have huntracked : ∀ e ∈ walkAll body, e.tracks f.param = false := by
      intro e he
      by_contra htracks
      exact hfree (keys_iff_tracked.mpr ⟨e, he, by simpa using htracks⟩)
    refine ⟨tr, r, f, hrun, hf, ?_, (pairwise_hops_iff _ _).mp hordered, huntracked, ?_⟩
    · exact (leads_iff_onRecord huntracked f.hops (carriedAfter_ends _ tr hf).1).mp hleads
    · exact (tainted_of_untracked huntracked).mp ((isVariableTainted_iff hdisjoint).mpr hp)
  · rintro ⟨tr, r, f, hrun, hf, hrecord, hordered, huntracked, hmarked⟩
    obtain ⟨hends, hparam⟩ := carriedAfter_ends _ tr hf
    obtain ⟨L, hL, hmap⟩ := (leads_iff_onRecord huntracked f.hops hends).mpr hrecord
    have hp := (isVariableTainted_iff hdisjoint).mp ((tainted_of_untracked huntracked).mpr hmarked)
    have htrace := trace_of_leads hx hL hp
    rw [hmap] at htrace
    refine ⟨_, htrace, ?_, ⟨f.param, hparam, rfl⟩, (pairwise_hops_iff _ _).mpr hordered, tr, r, f, hrun, hf,
      rfl⟩
    rcases hends with ⟨hnil, hx⟩ | ⟨lineno, rest, hhops⟩
    · exact ⟨0, by simp [hnil, hx]⟩
    · exact ⟨lineno, by rw [hhops, List.reverse_cons, ← List.cons_append, List.getLast?_concat]⟩

theorem trace_real_of_copy : ∃ path,
    (analyzeAliases (fun _ => "") oneParameter [copyOfSrc "b"]).traceTaintPath "b" = some path ∧
      RealPath oneParameter [copyOfSrc "b"] "b" path := by
  refine (trace_real_iff _ oneParameter [copyOfSrc "b"] ?_ "b" (by decide)).mpr ?_
  · simp [linedWalkAll, linedWalk, copyOfSrc, assignEntries]
  have hline : stmtRuns (copyOfSrc "b") [⟨1, [⟨"b", some (.name {} "src" .load), none⟩]⟩] (.ok ()) :=
    ⟨[[⟨"b", some (.name {} "src" .load), none⟩]], bind_intro (evaluate_intro _) (.inl emit_intro), rfl⟩
  have hrun : blockRuns [copyOfSrc "b"] ([⟨1, [⟨"b", some (.name {} "src" .load), none⟩]⟩] ++ []) (.ok ()) :=
    bind_intro hline ret_intro
  refine ⟨_, _, ⟨"src", [("b", 1)]⟩, hrun, rfl, ?_, by simp, List.forall_mem_singleton.mpr (by decide),
    .inl (by decide)⟩
  exact ⟨⟨[], _, [], rfl, by simp, rfl⟩, by decide, by decide⟩

/-- `y = p`, `x = y` and then `y = q`: the trace goes from `q` on line 0 to `y` on line 3 and back to `x`
on line 2. -/
theorem rebound_name_splices_trace : ¬ ∀ (unparse : Expr → String) (args : Arguments Expr)
    (body : List Stmt), (∀ e ∈ linedWalkAll body, 1 ≤ e.1) → ∀ x,
      (analyzeAliases unparse args body).isVariableTainted x = true →
        ∃ path, (analyzeAliases unparse args body).traceTaintPath x = some path ∧ RealPath args body x path := by
  intro h
  let copy (lineno : ℕ) (target source : String) : Stmt :=
    .assign { lineno := lineno } [.name {} target .store] (.name {} source .load)
  let body : List Stmt := [copy 1 "y" "p", copy 2 "x" "y", copy 3 "y" "q"]
  let args : Arguments Expr := { args := [{ arg := "p" }, { arg := "q" }] }
  have hlines : ∀ e ∈ linedWalkAll body, 1 ≤ e.1 := by
    simp [body, copy, linedWalkAll, linedWalk, assignEntries]
  obtain ⟨path, htrace, hreal⟩ := h (fun _ => "") args body hlines "x" (by decide)
  have hspliced : (analyzeAliases (fun _ => "") args body).traceTaintPath "x" =
      some [("q", 0), ("y", 3), ("x", 2)] := by decide
  obtain rfl := Option.some.inj (htrace.symm.trans hspliced)
  exact absurd hreal.ordered (by decide)

end TimeCodeSecurity.DefUse
