import Mathlib.Data.List.Induction
import TimeCodeSecurity.Scanner.AssignmentListing
import TimeCodeSecurity.Scanner.FoldInRuns

/-! # The records a look-up merges

`resolve_expression` at a plain name: the records above the line, in the nearest scope that has one, from
the last unconditional one on. A record that gives the name its value in a run is among them exactly when
the assignment is listed above the use, in that scope, with no unconditional one after it.
-/
namespace TimeCodeSecurity.Scanner
open Py
set_option autoImplicit false

/-- `last_uncond_idx`. -/
def lastUnconditional (rs : List AssignmentRecord) : Option ℕ :=
  rs.zipIdx.foldl (fun last r => if r.1.isConditional then last else some r.2) none

/-- `reaching`. -/
def reachingRecords (rs : List AssignmentRecord) : List AssignmentRecord :=
  match lastUnconditional rs with
  | none => rs
  | some i => (rs[i]?).toList ++ (rs.drop (i + 1)).filter (·.isConditional)

theorem lastUnconditional_concat (rs : List AssignmentRecord) (r : AssignmentRecord) :
    lastUnconditional (rs ++ [r]) =
      if r.isConditional then lastUnconditional rs else some rs.length := by
  rw [lastUnconditional, List.zipIdx_append, List.foldl_append]
  simp only [List.zipIdx_singleton, List.foldl_cons, List.foldl_nil, Nat.zero_add]
  rfl

theorem lastUnconditional_lt {rs : List AssignmentRecord} {i : ℕ}
    (h : lastUnconditional rs = some i) : i < rs.length := by
  induction rs using List.reverseRecOn with
  | nil => cases h
  | append_singleton rs r ih =>
    rw [lastUnconditional_concat] at h
    rw [List.length_append, List.length_singleton]
    split at h
    · have hlt := ih h
      omega
    · have heq := Option.some.inj h
      omega

theorem reachingRecords_concat (rs : List AssignmentRecord) (r : AssignmentRecord) :
    reachingRecords (rs ++ [r]) = if r.isConditional then reachingRecords rs ++ [r] else [r] := by
  rw [reachingRecords, lastUnconditional_concat, reachingRecords]
  by_cases hr : r.isConditional = true
  · rw [if_pos hr, if_pos hr]
    cases h : lastUnconditional rs with
    | none => rfl
    | some i =>
      have hlt := lastUnconditional_lt h
      have hdrop : (rs ++ [r]).drop (i + 1) = rs.drop (i + 1) ++ [r] :=
        List.drop_append_of_le_length (by omega)
      simp only [List.getElem?_append_left hlt, hdrop, List.filter_append, List.append_assoc]
      rw [List.filter_cons_of_pos hr, List.filter_nil]
  · rw [if_neg hr, if_neg hr]
    have hdrop : (rs ++ [r]).drop (rs.length + 1) = [] := List.drop_eq_nil_of_le (by simp)
    simp [hdrop]

theorem mem_reachingRecords_iff {rs : List AssignmentRecord} {r : AssignmentRecord} :
    r ∈ reachingRecords rs ↔
      ∃ earlier later, rs = earlier ++ r :: later ∧ ∀ r' ∈ later, r'.isConditional = true := by
  induction rs using List.reverseRecOn with
  | nil =>
    refine iff_of_false List.not_mem_nil ?_
    rintro ⟨earlier, later, h, -⟩
    exact absurd h.symm (List.append_ne_nil_of_right_ne_nil earlier (List.cons_ne_nil r later))
  | append_singleton rs last ih =>
    rw [reachingRecords_concat]
    constructor
    · intro h
      have hlast (heq : r = last) : ∃ earlier later, rs ++ [last] = earlier ++ r :: later ∧
          ∀ r' ∈ later, r'.isConditional = true := by
        exact ⟨rs, [], by rw [heq], fun _ hr' => absurd hr' List.not_mem_nil⟩
      split at h
      · rename_i hconditional
        rcases List.mem_append.mp h with h | h
        · obtain ⟨earlier, later, heq, hlater⟩ := ih.mp h
          refine ⟨earlier, later ++ [last], by rw [heq, List.append_assoc, List.cons_append], ?_⟩
          intro r' hr'
          rcases List.mem_append.mp hr' with hr' | hr'
          · exact hlater r' hr'
          · rw [List.mem_singleton.mp hr']
            exact hconditional
        · exact hlast (List.mem_singleton.mp h)
      · exact hlast (List.mem_singleton.mp h)
    · rintro ⟨earlier, later, heq, hlater⟩
      rcases List.eq_nil_or_concat later with rfl | ⟨later', last', rfl⟩
      · obtain ⟨-, hr⟩ := List.append_inj' heq rfl
        obtain rfl := (List.cons.inj hr).1
        split
        · exact List.mem_append_right _ (List.mem_singleton_self _)
        · exact List.mem_singleton_self _
      · rw [List.concat_eq_append, ← List.cons_append, ← List.append_assoc] at heq
        obtain ⟨hrs, hr⟩ := List.append_inj' heq rfl
        obtain rfl := (List.cons.inj hr).1
        rw [if_pos (hlater last (by simp))]
        refine List.mem_append_left _ (ih.mpr ⟨earlier, later', hrs, fun r' hr' => hlater r' ?_⟩)
        simp [hr']

def above (line : ℕ) (rs : List AssignmentRecord) : List AssignmentRecord :=
  rs.filter (·.lineno < line)

def nearestRecords (records : String → List AssignmentRecord) (given : Bool) (line : ℕ) :
    List String → List AssignmentRecord
  | [] => []
  | scope :: outer =>
    if above line (records scope) ≠ [] then above line (records scope)
    else if given then []
    else nearestRecords records false line outer

theorem nearestRecords_eq_iff {records : String → List AssignmentRecord} {given : Bool} {line : ℕ}
    {chain : List String} {rs : List AssignmentRecord} (hne : rs ≠ []) :
    nearestRecords records given line chain = rs ↔
      ∃ inner scope outer, chain = inner ++ scope :: outer ∧
        (∀ s ∈ inner, above line (records s) = []) ∧ (inner ≠ [] → given = false) ∧
        above line (records scope) = rs := by
  induction chain generalizing given with
  | nil =>
    refine iff_of_false (fun h => hne h.symm) ?_
    rintro ⟨inner, scope, outer, h, -⟩
    exact absurd h.symm (List.append_ne_nil_of_right_ne_nil inner (List.cons_ne_nil scope outer))
  | cons s chain ih =>
    rw [nearestRecords]
    by_cases hs : above line (records s) = []
    · rw [if_neg (not_not_intro hs)]
      -- the first scope is passed over, which a given name does not allow
      have hcons : (∃ inner scope outer, s :: chain = inner ++ scope :: outer ∧
          (∀ s ∈ inner, above line (records s) = []) ∧ (inner ≠ [] → given = false) ∧
            above line (records scope) = rs) ↔
          given = false ∧ ∃ inner scope outer, chain = inner ++ scope :: outer ∧
            (∀ s ∈ inner, above line (records s) = []) ∧ (inner ≠ [] → false = false) ∧
            above line (records scope) = rs := by
        constructor
        · rintro ⟨inner, scope, outer, hchain, hinner, hgiven, habove⟩
          cases inner with
          | nil =>
            obtain ⟨rfl, -⟩ := List.cons.inj hchain
            exact absurd (habove.symm.trans hs) hne
          | cons s' inner =>
            obtain ⟨rfl, htail⟩ := List.cons.inj hchain
            exact ⟨hgiven (List.cons_ne_nil _ _), inner, scope, outer, htail,
              fun t ht => hinner t (List.mem_cons_of_mem _ ht), fun _ => rfl, habove⟩
        · rintro ⟨hgiven, inner, scope, outer, rfl, hinner, -, habove⟩
          refine ⟨s :: inner, scope, outer, rfl, fun t ht => ?_, fun _ => hgiven, habove⟩
          rcases List.mem_cons.mp ht with rfl | ht
          · exact hs
          · exact hinner t ht
      rw [hcons]
      cases given with
      | true => exact iff_of_false (fun h => hne h.symm) fun h => nomatch h.1
      | false =>
        rw [if_neg Bool.false_ne_true, ih]
        exact (and_iff_right rfl).symm
    · rw [if_pos hs]
      constructor
      · intro h
        exact ⟨[], s, chain, rfl, fun t ht => absurd ht List.not_mem_nil, fun h => absurd rfl h, h⟩
      · rintro ⟨inner, scope, outer, hchain, hinner, -, habove⟩
        cases inner with
        | nil =>
          obtain ⟨rfl, -⟩ := List.cons.inj hchain
          exact habove
        | cons s' inner =>
          obtain ⟨rfl, -⟩ := List.cons.inj hchain
          exact absurd (hinner s List.mem_cons_self) hs

namespace Tracker

variable (T : Tracker)

/-- The records that `resolve_expression` resolves and merges for the name; `context` has the names of
`call_context`. -/
def mergedRecords (context : List String) (scope name : String) (line : ℕ) :
    List AssignmentRecord :=
  reachingRecords (nearestRecords (T.records · name) (name ∈ context) line (scopeChain scope))

end Tracker

end TimeCodeSecurity.Scanner

namespace TimeCodeSecurity.Execution
open Py Scanner

/-! ## Runs -/

structure RecordOf (r : AssignmentRecord) (o : Origin) : Prop where
  targetName : r.targetName = o.targetName
  valueNode : r.valueNode = o.valueNode
  lineno : r.lineno = o.lineno
  scopeId : r.scopeId = o.scopeId

/-- Where a name is used, the assignment that gave its value is among the merged records. -/
def SeesAssignment (T : Tracker) (context : List String) (σ : State) : Event → Prop
  | .eval (.name pos x _) _ => PlainName x → ∀ b o, σ.lookup x = some b → b.origin = some o →
      ∃ r ∈ T.mergedRecords context σ.scopeId x pos.lineno, RecordOf r o
  | _ => True

/-- Where a name is used, the assignment that gave its value is listed above the use, in the nearest
scope with such an assignment, and no unconditional one is listed after it above the use. -/
def ListedInForce (listed : List AssignmentRecord) (context : List String) (σ : State) : Event → Prop
  | .eval (.name pos x _) _ => PlainName x → ∀ b o, σ.lookup x = some b → b.origin = some o →
      ∃ inner scope outer, scopeChain σ.scopeId = inner ++ scope :: outer ∧
        (∀ s ∈ inner, above pos.lineno (recordsOf listed s x) = []) ∧ (inner ≠ [] → x ∉ context) ∧
        ∃ earlier r later, above pos.lineno (recordsOf listed scope x) = earlier ++ r :: later ∧
          RecordOf r o ∧ ∀ r' ∈ later, r'.isConditional = true
  | _ => True

theorem exists_merged_iff (H : Host) (context : List String) (mod : String) (body : Module)
    (scope : String) {x : String} (hx : PlainName x) (line : ℕ) (o : Origin) :
    (∃ r ∈ (collectModule H mod body).mergedRecords context scope x line, RecordOf r o) ↔
      ∃ inner s outer, scopeChain scope = inner ++ s :: outer ∧
        (∀ t ∈ inner, above line (recordsOf (moduleRecords H.unparse mod body) t x) = []) ∧
        (inner ≠ [] → x ∉ context) ∧
        ∃ earlier r later, above line (recordsOf (moduleRecords H.unparse mod body) s x) =
          earlier ++ r :: later ∧ RecordOf r o ∧ ∀ r' ∈ later, r'.isConditional = true := by
  have hrecords : ((collectModule H mod body).records · x) =
      (recordsOf (moduleRecords H.unparse mod body) · x) :=
    funext fun s => records_collectModule H mod body s hx
  rw [Tracker.mergedRecords, hrecords]
  constructor
  · rintro ⟨r, hr, ho⟩
    obtain ⟨earlier, later, hnearest, hlater⟩ := mem_reachingRecords_iff.mp hr
    have hne : earlier ++ r :: later ≠ [] :=
      List.append_ne_nil_of_right_ne_nil earlier (List.cons_ne_nil r later)
    obtain ⟨inner, s, outer, hchain, hinner, hgiven, habove⟩ :=
      (nearestRecords_eq_iff hne).mp hnearest
    exact ⟨inner, s, outer, hchain, hinner, fun h => of_decide_eq_false (hgiven h), earlier, r, later,
      habove, ho, hlater⟩
  · rintro ⟨inner, s, outer, hchain, hinner, hgiven, earlier, r, later, habove, ho, hlater⟩
    refine ⟨r, mem_reachingRecords_iff.mpr ⟨earlier, later, ?_, hlater⟩, ho⟩
    have hne : earlier ++ r :: later ≠ [] :=
      List.append_ne_nil_of_right_ne_nil earlier (List.cons_ne_nil r later)
    exact (nearestRecords_eq_iff hne).mpr
      ⟨inner, s, outer, hchain, hinner, fun h => decide_eq_false (hgiven h), habove⟩

theorem seesAssignment_iff (H : Host) (context : List String) (mod : String) (body : Module)
    (σ : State) (ev : Event) : SeesAssignment (collectModule H mod body) context σ ev ↔
      ListedInForce (moduleRecords H.unparse mod body) context σ ev := by
  unfold SeesAssignment ListedInForce
  split
  · refine forall_congr' fun hx => forall_congr' fun b => forall_congr' fun o =>
      forall_congr' fun _ => forall_congr' fun _ => ?_
    exact exists_merged_iff H context mod body σ.scopeId hx _ o
  · exact Iff.rfl

/-- The look-ups see every assignment of every run exactly when each one that gives a value is listed in
force at the use. -/
theorem everyUseSeen_iff (addFloat : ℚ → ℚ → ℚ) (H : Host) (context : List String) (mod : String)
    (body : Module) :
    (∀ σ ev, Reached addFloat (fun _ _ => True) mod body σ ev →
        SeesAssignment (collectModule H mod body) context σ ev) ↔
      ∀ σ ev, Reached addFloat (fun _ _ => True) mod body σ ev →
        ListedInForce (moduleRecords H.unparse mod body) context σ ev :=
  forall_congr' fun σ => forall_congr' fun ev => forall_congr' fun _ =>
    seesAssignment_iff H context mod body σ ev

/-- `mode = "r"; mode`, on one line. -/
def oneLineModule : Module :=
  [assignConstant 1 "mode" (.str "r"), .expr ⟨1, 12, 1, 16⟩ (.name ⟨1, 12, 1, 16⟩ "mode" .load)]

theorem oneLineModule_isRun :
    IsRun oneLineModule (assignTrace 1 "mode" (.str "r") ++
      [.eval (.name ⟨1, 12, 1, 16⟩ "mode" .load) (.str "r")]) := by
  have hassign := assignConstant_path (callsAt 0) none 1 "mode" (.str "r") (.str "r")
  have hmode := finish_intro (.name ⟨1, 12, 1, 16⟩ "mode" .load) (.str "r")
  have huse : stmtPath (callsAt 0) none (.expr ⟨1, 12, 1, 16⟩ (.name ⟨1, 12, 1, 16⟩ "mode" .load))
      [.eval (.name ⟨1, 12, 1, 16⟩ "mode" .load) (.str "r")] (.ok ()) :=
    Paths.bind_of_eq hmode Paths.ret_intro rfl
  exact ⟨0, [], .ok (), Paths.bind_of_eq hassign (Paths.bind_of_eq huse Paths.ret_intro rfl) rfl⟩

/-- An assignment on the line of the use is passed over. -/
theorem everyUseSeen_fails_on_one_line :
    ¬∀ (addFloat : ℚ → ℚ → ℚ) (H : Host) (context : List String) (mod : String) (body : Module)
      (σ : State) (ev : Event), Reached addFloat (fun _ _ => True) mod body σ ev →
        SeesAssignment (collectModule H mod body) context σ ev := by
  intro hall
  have hreached : Reached (· + ·) (fun _ _ => True) "m" oneLineModule (assigned 1 "mode" (.str "r"))
      (.eval (.name ⟨1, 12, 1, 16⟩ "mode" .load) (.str "r")) :=
    ⟨_, _, oneLineModule_isRun, steps_assigned 1 "mode" (.str "r") fun _ _ _ => trivial,
      .eval (evaluates_assigned _ _ 1 (.str "r")), trivial⟩
  have hplain : PlainName "mode" := by decide
  obtain ⟨r, hr, -⟩ := hall (· + ·) plainHost [] "m" oneLineModule _ _ hreached hplain _ _ rfl rfl
  have hnone : (collectModule plainHost "m" oneLineModule).mergedRecords [] "m:global" "mode" 1 = [] :=
    rfl
  exact List.not_mem_nil (hnone ▸ hr)

end TimeCodeSecurity.Execution
