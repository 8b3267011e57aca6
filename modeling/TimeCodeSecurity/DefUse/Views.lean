import Mathlib.Data.Finset.Disjoint
import TimeCodeSecurity.DefUse.Aliases
import TimeCodeSecurity.Scanner.Run

/-! # Three views of taint

Tainted variables, killed variables and the flags of the map are three views of one state. The sets never
overlap. The flag of a name is that of its latest tracked assignment, which an augmented assignment does
not touch, and a target the walk passes over is in no view at all. So the views agree exactly where every
assigned name is `Settled` (`coherent_iff_settled`).
-/
namespace TimeCodeSecurity.DefUse
open Py LocalDefUseTracker LastWrites
open Execution (parameterNames)
set_option autoImplicit false

/-- The views agree after the statements. -/
structure Coherent (unparse : Expr → String) (args : Arguments Expr) (body : List Stmt) : Prop where
  disjoint : Disjoint (analyzeAliases unparse args body).sets.taintedVars
    (analyzeAliases unparse args body).sets.killedVars
  assigned : ∀ x ∈ assignedAll body, x ∉ parameterNames args →
    x ∈ (analyzeAliases unparse args body).sets.taintedVars ∨
      x ∈ (analyzeAliases unparse args body).sets.killedVars
  flags : ∀ x info, (analyzeAliases unparse args body).aliasMap.lookup x = some info →
    info.isTainted = (analyzeAliases unparse args body).isVariableTainted x
  aliases : ∀ x, (∃ info, (x, info) ∈ (analyzeAliases unparse args body).getTaintedAliases) ↔
    x ∈ assignedAll body ∧ (analyzeAliases unparse args body).isVariableTainted x = true

def Entry.tracks (x : String) : Entry → Bool
  | .track name _ => name = x
  | .augment _ _ => false

/-- An augmented assignment makes `x` tainted that was not. -/
def Raised (T : LocalDefUseTracker) (W : List Entry) (x : String) : Prop :=
  ∃ before value after, W = before ++ .augment x value :: after ∧
    (before.foldl Entry.apply T).isVariableTainted x = false ∧
    (before.foldl Entry.apply T).isNodeTainted value = true

/-- No augmented assignment taints `x` after its last tracked assignment; or it has none, and is a
parameter that is not marked and that no augmented assignment taints. -/
def Settled (args : Arguments Expr) (body : List Stmt) (x : String) : Prop :=
  (∃ before value after, walkAll body = before ++ .track x value :: after ∧
    (∀ e ∈ after, e.tracks x = false) ∧
    ¬ Raised ((before ++ [.track x value]).foldl Entry.apply (startTracker args)) after x) ∨
  ((∀ e ∈ walkAll body, e.tracks x = false) ∧ x ∈ parameterNames args ∧ x ∉ markedParameters args ∧
    ¬ Raised (startTracker args) (walkAll body) x)

/-! ## The two sets -/

variable {T : LocalDefUseTracker} {W : List Entry} {x : String}

theorem trackVariable_taint_or_kill (T : LocalDefUseTracker) (name : String) (value : Expr) :
    T.trackVariable name value = T.taint name ∨ T.trackVariable name value = T.kill name := by
  unfold trackVariable
  split_ifs
  · exact .inr rfl
  · exact .inr rfl
  · split
    · split_ifs
      · exact .inl rfl
      · exact .inr rfl
    · split_ifs
      · exact .inl rfl
      · exact .inr rfl

theorem apply_cases (T : LocalDefUseTracker) (e : Entry) :
    Entry.apply T e = T ∨ Entry.apply T e = T.taint e.name ∨
      (Entry.apply T e = T.kill e.name ∧ e.tracks e.name = true) := by
  cases e with
  | track name value =>
    rcases trackVariable_taint_or_kill T name value with h | h
    · exact .inr (.inl h)
    · exact .inr (.inr ⟨h, by simp [Entry.tracks, Entry.name]⟩)
  | augment name value =>
    simp only [Entry.apply]
    split_ifs
    · exact .inl rfl
    · exact .inr (.inl rfl)
    · exact .inl rfl

theorem disjoint_apply (h : Disjoint T.taintedVars T.killedVars) (e : Entry) :
    Disjoint (Entry.apply T e).taintedVars (Entry.apply T e).killedVars := by
  rw [Finset.disjoint_left] at h ⊢
  rcases apply_cases T e with he | he | ⟨he, -⟩
  · rw [he]
    exact h
  · rw [he]
    intro y hy hk
    simp only [taint, Finset.mem_insert, Finset.mem_erase] at hy hk
    exact hy.elim hk.1 fun hy => h hy hk.2
  · rw [he]
    intro y hy hk
    simp only [kill, Finset.mem_insert, Finset.mem_erase] at hy hk
    exact hk.elim hy.1 fun hk => h hy.2 hk

theorem disjoint_foldl (h : Disjoint T.taintedVars T.killedVars) (W : List Entry) :
    Disjoint (W.foldl Entry.apply T).taintedVars (W.foldl Entry.apply T).killedVars := by
  induction W generalizing T with
  | nil => exact h
  | cons e W ih => exact ih (disjoint_apply h e)

theorem disjoint_start (args : Arguments Expr) :
    Disjoint (startTracker args).taintedVars (startTracker args).killedVars := by
  simp [startTracker]

def Placed (T : LocalDefUseTracker) (x : String) : Prop := x ∈ T.taintedVars ∨ x ∈ T.killedVars

theorem placed_apply (h : Placed T x) (e : Entry) : Placed (Entry.apply T e) x := by
  unfold Placed at h ⊢
  rcases apply_cases T e with he | he | ⟨he, -⟩
  · rwa [he]
  · rw [he]
    simp only [taint, Finset.mem_insert, Finset.mem_erase]
    tauto
  · rw [he]
    simp only [kill, Finset.mem_insert, Finset.mem_erase]
    tauto

theorem placed_foldl (h : Placed T x) (W : List Entry) : Placed (W.foldl Entry.apply T) x := by
  induction W generalizing T with
  | nil => exact h
  | cons e W ih => exact ih (placed_apply h e)

theorem placed_track (T : LocalDefUseTracker) (x : String) (value : Expr) :
    Placed (Entry.apply T (.track x value)) x := by
  show Placed (T.trackVariable x value) x
  unfold Placed
  rcases trackVariable_taint_or_kill T x value with h | h
  · simp [h, taint]
  · simp [h, kill]

theorem not_killed_foldl (h : x ∉ T.killedVars) (hW : ∀ e ∈ W, e.tracks x = false) :
    x ∉ (W.foldl Entry.apply T).killedVars := by
  induction W generalizing T with
  | nil => exact h
  | cons e W ih =>
    refine ih ?_ fun e' he' => hW e' (List.mem_cons_of_mem _ he')
    rcases apply_cases T e with he | he | ⟨he, htracks⟩
    · rwa [he]
    · rw [he]
      simp [taint, h]
    · rw [he]
      have hne : x ≠ e.name := by
        rintro rfl
        rw [hW e List.mem_cons_self] at htracks
        cases htracks
      simp [kill, h, hne]

theorem isVariableTainted_iff (hd : Disjoint T.taintedVars T.killedVars) :
    T.isVariableTainted x = true ↔ x ∈ T.taintedVars := by
  have hapart : x ∈ T.taintedVars → x ∉ T.killedVars := fun h => Finset.disjoint_left.mp hd h
  simp only [isVariableTainted, Bool.and_eq_true, decide_eq_true_eq]
  tauto

theorem raised_cons (T : LocalDefUseTracker) (e : Entry) (W : List Entry) (x : String) :
    Raised T (e :: W) x ↔ (∃ value, e = .augment x value ∧ T.isVariableTainted x = false ∧
      T.isNodeTainted value = true) ∨ Raised (Entry.apply T e) W x := by
  constructor
  · rintro ⟨before, value, after, heq, hclean, hnode⟩
    cases before with
    | nil =>
      obtain ⟨rfl, -⟩ := List.cons_eq_cons.mp heq
      exact .inl ⟨value, rfl, hclean, hnode⟩
    | cons b before =>
      obtain ⟨rfl, rfl⟩ := List.cons_eq_cons.mp heq
      exact .inr ⟨before, value, after, rfl, hclean, hnode⟩
  · rintro (⟨value, rfl, hclean, hnode⟩ | ⟨before, value, after, rfl, hclean, hnode⟩)
    · exact ⟨[], value, W, rfl, hclean, hnode⟩
    · exact ⟨e :: before, value, after, rfl, hclean, hnode⟩

theorem tainted_foldl_iff (hW : ∀ e ∈ W, e.tracks x = false) (T : LocalDefUseTracker) :
    (W.foldl Entry.apply T).isVariableTainted x = true ↔
      T.isVariableTainted x = true ∨ Raised T W x := by
  induction W generalizing T with
  | nil => simp [Raised]
  | cons e W ih =>
    rw [List.foldl_cons, ih (fun e' he' => hW e' (List.mem_cons_of_mem _ he')), raised_cons, ← or_assoc]
    refine or_congr_left ?_
    have he := hW e List.mem_cons_self
    cases e with
    | track name value =>
      have hne : x ≠ name := by
        rintro rfl
        simp [Entry.tracks] at he
      rw [isVariableTainted_apply_track hne]
      simp
    | augment name value =>
      by_cases hx : name = x
      · subst hx
        simp only [Entry.apply]
        split_ifs with htainted hnode
        · simp [htainted]
        · simp [htainted, hnode]
        · simp [htainted, hnode]
      · have hsame : (Entry.apply T (.augment name value)).isVariableTainted x = T.isVariableTainted x := by
          have hne : x ≠ name := fun h => hx h.symm
          simp only [Entry.apply]
          split_ifs
          · rfl
          · simp [hne]
          · rfl
        simp [hsame, hx]

variable {unparse : Expr → String}

theorem aliasInfo_isTainted (T : LocalDefUseTracker) (x : String) (value : Expr) (lineno : ℕ) :
    (aliasInfo unparse T x value lineno).isTainted = (T.trackVariable x value).isVariableTainted x := by
  unfold aliasInfo trackVariable
  split_ifs with hlit hsan
  · simp
  · obtain ⟨s, hs⟩ := Option.isSome_iff_exists.mp hsan
    simp [hs]
  · rw [Option.not_isSome_iff_eq_none.mp hsan]
    cases value <;> simp <;> split_ifs <;> simp_all

theorem lookup_foldl_of_untracked (L : List (ℕ × Entry)) (S : AliasTracker)
    (hL : ∀ e ∈ L, e.2.tracks x = false) :
    (L.foldl (fun S e => S.apply unparse e.1 e.2) S).aliasMap.lookup x = S.aliasMap.lookup x := by
  induction L generalizing S with
  | nil => rfl
  | cons e L ih =>
    rw [List.foldl_cons, ih _ fun e' he' => hL e' (List.mem_cons_of_mem _ he')]
    have he := hL e List.mem_cons_self
    obtain ⟨lineno, entry⟩ := e
    cases entry with
    | track name value =>
      have hne : x ≠ name := by
        rintro rfl
        simp [Entry.tracks] at he
      exact AList.lookup_insert_ne hne
    | augment name value => rfl

theorem lookup_of_last {args : Arguments Expr} {body : List Stmt} {before after : List (ℕ × Entry)}
    {lineno : ℕ} {value : Expr} (hwalk : linedWalkAll body = before ++ (lineno, .track x value) :: after)
    (hafter : ∀ e ∈ after, e.2.tracks x = false) :
    (analyzeAliases unparse args body).aliasMap.lookup x =
      some (aliasInfo unparse ((before.map Prod.snd).foldl Entry.apply (startTracker args)) x value lineno) := by
  rw [analyzeAliases, hwalk, List.foldl_append, List.foldl_cons, lookup_foldl_of_untracked _ _ hafter]
  have hbefore := @foldl_sets unparse before { sets := startTracker args }
  rw [← hbefore]
  exact AList.lookup_insert _

theorem lookup_of_untracked {args : Arguments Expr} {body : List Stmt}
    (hwalk : ∀ e ∈ linedWalkAll body, e.2.tracks x = false) :
    (analyzeAliases unparse args body).aliasMap.lookup x = none := by
  rw [analyzeAliases, lookup_foldl_of_untracked _ _ hwalk]
  rfl

theorem exists_last_track {body : List Stmt} (h : ∃ e ∈ linedWalkAll body, e.2.tracks x = true) :
    ∃ before lineno value after, linedWalkAll body = before ++ (lineno, .track x value) :: after ∧
      ∀ e ∈ after, e.2.tracks x = false := by
  obtain ⟨⟨lineno, entry⟩, after, ⟨before, hbefore⟩, htracks, hafter⟩ := exists_last h
  cases entry with
  | track name value =>
    obtain rfl : name = x := by simpa [Entry.tracks] using htracks
    exact ⟨before, lineno, value, after, hbefore.symm, fun e he => by simpa using hafter e he⟩
  | augment name value => cases htracks

/-! ## Coherence -/

section
variable {args : Arguments Expr} {body : List Stmt}

theorem tracks_walk_iff : (∃ e ∈ linedWalkAll body, e.2.tracks x = true) ↔
    ∃ e ∈ walkAll body, e.tracks x = true := by
  rw [← linedWalkAll_snd]
  constructor
  · rintro ⟨e, he, hx⟩
    exact ⟨e.2, List.mem_map_of_mem he, hx⟩
  · rintro ⟨e, he, hx⟩
    obtain ⟨e', he', rfl⟩ := List.mem_map.mp he
    exact ⟨e', he', hx⟩

theorem assigned_of_tracked (h : ∃ e ∈ linedWalkAll body, e.2.tracks x = true) : x ∈ assignedAll body := by
  obtain ⟨e, he, hname⟩ := tracks_walk_iff.mp h
  have hassigned := walkAll_name he
  cases e with
  | track name v =>
    obtain rfl : name = x := by simpa [Entry.tracks] using hname
    exact hassigned
  | augment name v => cases hname

theorem tracked_of_lookup {info : AliasInfo}
    (h : (analyzeAliases unparse args body).aliasMap.lookup x = some info) :
    ∃ e ∈ linedWalkAll body, e.2.tracks x = true := by
  by_contra hno
  rw [lookup_of_untracked (by simpa using hno)] at h
  cases h

theorem isVariableTainted_eq : (analyzeAliases unparse args body).isVariableTainted x =
    ((walkAll body).foldl Entry.apply (startTracker args)).isVariableTainted x := by
  rw [AliasTracker.isVariableTainted, analyzeAliases_sets, analyzeFunction_eq]

theorem mem_getTaintedAliases (S : AliasTracker) (x : String) (info : AliasInfo) :
    (x, info) ∈ S.getTaintedAliases ↔
      S.aliasMap.lookup x = some info ∧ info.isTainted = true ∧ x ∉ S.sets.killedVars := by
  rw [AliasTracker.getTaintedAliases, List.mem_filter, DictOf.mem_items_iff]
  simp

theorem flag_eq_iff {before after : List (ℕ × Entry)} {lineno : ℕ} {value : Expr}
    (hwalk : linedWalkAll body = before ++ (lineno, .track x value) :: after)
    (hafter : ∀ e ∈ after, e.2.tracks x = false) :
    (aliasInfo unparse ((before.map Prod.snd).foldl Entry.apply (startTracker args)) x value lineno).isTainted =
        (analyzeAliases unparse args body).isVariableTainted x ↔
      ¬ Raised ((before.map Prod.snd ++ [Entry.track x value]).foldl Entry.apply (startTracker args))
        (after.map Prod.snd) x := by
  have hsplit : walkAll body = (before.map Prod.snd ++ [Entry.track x value]) ++ after.map Prod.snd := by
    rw [← linedWalkAll_snd, hwalk]
    simp
  have huntracked : ∀ e ∈ after.map Prod.snd, e.tracks x = false := List.forall_mem_map.mpr hafter
  have hfinal := tainted_foldl_iff huntracked
    ((before.map Prod.snd ++ [Entry.track x value]).foldl Entry.apply (startTracker args))
  rw [aliasInfo_isTainted, isVariableTainted_eq, hsplit, List.foldl_append]
  have hafterTrack : (before.map Prod.snd ++ [Entry.track x value]).foldl Entry.apply (startTracker args) =
      ((before.map Prod.snd).foldl Entry.apply (startTracker args)).trackVariable x value := by
    rw [List.foldl_append]
    rfl
  rw [hafterTrack] at hfinal ⊢
  rw [Bool.eq_iff_iff, hfinal]
  constructor
  · -- a raised name was clean at its assignment
    rintro heq hraised
    have htainted := heq.mpr (.inr hraised)
    obtain ⟨mid, v, rest, hmid, hclean, -⟩ := hraised
    have hkept := (tainted_foldl_iff (W := mid) (x := x) (fun e he => huntracked e (hmid ▸ by simp [he]))
      (((before.map Prod.snd).foldl Entry.apply (startTracker args)).trackVariable x value)).mpr (.inl htainted)
    rw [hclean] at hkept
    cases hkept
  · intro hraised
    simp [hraised]

theorem tainted_of_untracked (hwalk : ∀ e ∈ walkAll body, e.tracks x = false) :
    (analyzeAliases unparse args body).isVariableTainted x = true ↔
      x ∈ markedParameters args ∨ Raised (startTracker args) (walkAll body) x := by
  rw [isVariableTainted_eq, tainted_foldl_iff hwalk]
  simp [startTracker, isVariableTainted]

theorem disjoint_sets (unparse : Expr → String) (args : Arguments Expr) (body : List Stmt) :
    Disjoint (analyzeAliases unparse args body).sets.taintedVars
      (analyzeAliases unparse args body).sets.killedVars := by
  rw [analyzeAliases_sets, analyzeFunction_eq]
  exact disjoint_foldl (disjoint_start args) _

theorem placed_of_tracked (h : ∃ e ∈ walkAll body, e.tracks x = true) :
    Placed (analyzeAliases unparse args body).sets x := by
  obtain ⟨e, he, hname⟩ := h
  obtain ⟨before, after, hwalk⟩ := List.append_of_mem he
  rw [analyzeAliases_sets, analyzeFunction_eq, hwalk, List.foldl_append, List.foldl_cons]
  refine placed_foldl ?_ after
  cases e with
  | track name v =>
    obtain rfl : name = x := by simpa [Entry.tracks] using hname
    exact placed_track _ _ v
  | augment name v => cases hname

theorem settled_of_coherent (h : Coherent unparse args body) (hx : x ∈ assignedAll body) :
    Settled args body x := by
  by_cases htracked : ∃ e ∈ linedWalkAll body, e.2.tracks x = true
  · obtain ⟨before, lineno, value, after, hwalk, hafter⟩ := exists_last_track htracked
    refine .inl ⟨before.map Prod.snd, value, after.map Prod.snd, ?_, List.forall_mem_map.mpr hafter, ?_⟩
    · rw [← linedWalkAll_snd, hwalk]
      simp
    · exact (flag_eq_iff hwalk hafter).mp (h.flags x _ (lookup_of_last hwalk hafter))
  · have huntracked : ∀ e ∈ linedWalkAll body, e.2.tracks x = false := by simpa using htracked
    have hwalk : ∀ e ∈ walkAll body, e.tracks x = false := by
      rw [← linedWalkAll_snd]
      exact List.forall_mem_map.mpr huntracked
    have hclean : ¬ (analyzeAliases unparse args body).isVariableTainted x = true := by
      intro htainted
      obtain ⟨info, hinfo⟩ := (h.aliases x).mpr ⟨hx, htainted⟩
      rw [mem_getTaintedAliases, lookup_of_untracked huntracked] at hinfo
      cases hinfo.1
    rw [tainted_of_untracked hwalk, not_or] at hclean
    refine .inr ⟨hwalk, ?_, hclean⟩
    by_contra hparam
    rcases h.assigned x hx hparam with hin | hin
    · have htainted := (isVariableTainted_iff (disjoint_sets unparse args body)).mpr hin
      exact hclean.elim fun h1 h2 => ((tainted_of_untracked hwalk).mp htainted).elim h1 h2
    · rw [analyzeAliases_sets, analyzeFunction_eq] at hin
      exact not_killed_foldl (by simp [startTracker]) hwalk hin

theorem flags_of_settled (h : ∀ x ∈ assignedAll body, Settled args body x) {info : AliasInfo}
    (hinfo : (analyzeAliases unparse args body).aliasMap.lookup x = some info) :
    info.isTainted = (analyzeAliases unparse args body).isVariableTainted x := by
  have htracked := tracked_of_lookup hinfo
  obtain ⟨before, lineno, value, after, hwalk, hafter⟩ := exists_last_track htracked
  rw [lookup_of_last hwalk hafter] at hinfo
  cases hinfo
  rw [flag_eq_iff hwalk hafter]
  obtain ⟨e, he, hname⟩ := tracks_walk_iff.mp htracked
  rcases h x (assigned_of_tracked htracked) with
    ⟨before', value', after', hwalk', hafter', hraised⟩ | ⟨huntracked, -⟩
  · -- the last tracked assignment is the same one
    have hsplit : before.map Prod.snd ++ Entry.track x value :: after.map Prod.snd =
        before' ++ .track x value' :: after' := by
      rw [← hwalk', ← linedWalkAll_snd, hwalk]
      simp
    have huntracked : ∀ e ∈ after.map Prod.snd, ¬ e.tracks x = true :=
      List.forall_mem_map.mpr fun e he => by simpa using hafter e he
    obtain ⟨hb, hv, ha⟩ := last_unique (p := fun e => Entry.tracks x e = true) hsplit (by simp [Entry.tracks])
      (by simp [Entry.tracks]) huntracked (by simpa using hafter')
    rw [hb, hv, ha]
    exact hraised
  · rw [huntracked e he] at hname
    cases hname

/-- The three views agree after a sequence of statements exactly when every assigned name is settled. -/
theorem coherent_iff_settled (unparse : Expr → String) (args : Arguments Expr) (body : List Stmt) :
    Coherent unparse args body ↔ ∀ x ∈ assignedAll body, Settled args body x := by
  have hdisjoint := disjoint_sets unparse args body
  constructor
  · intro h x hx
    exact settled_of_coherent h hx
  · intro h
    refine ⟨hdisjoint, fun x hx hparam => ?_, fun x info => flags_of_settled h, fun x => ?_⟩
    · rcases h x hx with ⟨before, value, after, hwalk, -⟩ | ⟨-, hin, -⟩
      · exact placed_of_tracked ⟨.track x value, by simp [hwalk], by simp [Entry.tracks]⟩
      · exact absurd hin hparam
    · constructor
      · rintro ⟨info, hinfo⟩
        rw [mem_getTaintedAliases] at hinfo
        obtain ⟨hlookup, hflag, -⟩ := hinfo
        exact ⟨assigned_of_tracked (tracked_of_lookup hlookup), flags_of_settled h hlookup ▸ hflag⟩
      · rintro ⟨hx, htainted⟩
        rcases h x hx with ⟨before, value, after, hwalk, -⟩ | ⟨huntracked, -, hunmarked, hraised⟩
        · have htracked : ∃ e ∈ walkAll body, e.tracks x = true :=
            ⟨.track x value, by simp [hwalk], by simp [Entry.tracks]⟩
          obtain ⟨before', lineno, value', after', hwalk', hafter'⟩ :=
            exists_last_track (tracks_walk_iff.mpr htracked)
          have hlookup := @lookup_of_last x unparse args _ _ _ _ _ hwalk' hafter'
          have hflag := (flags_of_settled h hlookup).trans htainted
          refine ⟨_, (mem_getTaintedAliases _ _ _).mpr ⟨hlookup, hflag, fun hk => ?_⟩⟩
          exact Finset.disjoint_left.mp hdisjoint ((isVariableTainted_iff hdisjoint).mp htainted) hk
        · exact absurd ((tainted_of_untracked huntracked).mp htainted) (not_or.mpr ⟨hunmarked, hraised⟩)

end

/-- `x = 1` and then `x += p`: the sets call `x` tainted, the map still calls it clean. -/
theorem augmented_assignment_leaves_flag : ¬ ∀ (unparse : Expr → String) (args : Arguments Expr)
    (body : List Stmt), Coherent unparse args body := by
  intro h
  let body : List Stmt := [.assign {} [.name {} "x" .store] (.constant {} (.int 1)),
    .augAssign {} (.name {} "x" .store) .add (.name {} "p" .load)]
  let args : Arguments Expr := { args := [{ arg := "p" }] }
  have hlookup : (analyzeAliases (fun _ => "") args body).aliasMap.lookup "x" =
      some { target := "x", source := "<literal>", lineno := 1 } := by decide
  have hflag := (h (fun _ => "") args body).flags "x" _ hlookup
  exact absurd hflag (by decide)

end TimeCodeSecurity.DefUse
