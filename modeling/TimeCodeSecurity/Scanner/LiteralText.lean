import TimeCodeSecurity.Scanner.StaticFoldTotal
import TimeCodeSecurity.Scanner.FoldInRuns

/-! # Texts assembled from literals

`_literal_text`: the text of an expression that the constant folder knows, or that is put together from
such texts with `+`. A name that the folder has no constant for is replayed: what its records contribute is
put together in their order, where `name + …` behind a text contributes its right operand only. The folder
is asked with `set(seen)`, whose members are pairs and never equal to the texts it follows names under.
-/
namespace TimeCodeSecurity.Scanner
open Py
set_option autoImplicit false

namespace Tracker

variable (T : Tracker)

def assignmentRecords (id scope : String) (line : ℕ) : List AssignmentRecord :=
  (((scopeChain scope).map fun s => (T.records s id).filter fun r => line = 0 ∨ r.lineno ≤ line).find?
    fun rs => !rs.isEmpty).getD []

end Tracker

/-- The part of a record that is read: behind a text, the right operand of `id + …`. -/
def contribution (id : String) (text : Option String) (value : Expr) : Expr :=
  match text, value with
  | some _, .binOp _ (.name _ x _) .add right => if x = id then right else value
  | _, value => value

/-- The contributions of the records behind a text; `none` within the result for one that has no text. -/
def replay (read : Expr → AssignmentRecord → Option (Option String)) (id : String) :
    Option String → List AssignmentRecord → Option (Option String)
  | text, [] => some text
  | text, r :: rs =>
    match read (contribution id text r.valueNode) r with
    | none => none
    | some none => some none
    | some (some piece) => replay read id (some (text.elim piece (· ++ piece))) rs

local instance lawfulPair : LawfulBEq (String × String) := inferInstance

/-- `_literal_text`; no result at all when the fuel runs out. -/
def literalText (addFloat : ℚ → ℚ → ℚ) (T : Tracker) :
    ℕ → List (String × String) → Expr → String → ℕ → Option (Option String)
  | 0, _, _, _, _ => none
  | fuel + 1, seen, node, scope, line =>
    match T.staticConstant addFloat node scope line with
    | some (.str text) => some (some text)
    | _ =>
      match node with
      | .name _ id _ =>
        if (scope, id) ∈ seen then some none
        else
          replay (fun e r => literalText addFloat T fuel ((scope, id) :: seen) e r.scopeId r.lineno) id none
            (T.assignmentRecords id scope line)
      | .binOp _ left .add right =>
        (literalText addFloat T fuel seen left scope line).bind fun a =>
          (literalText addFloat T fuel seen right scope line).map fun b =>
            a.bind fun a => b.map (a ++ ·)
      | _ => some none

end TimeCodeSecurity.Scanner

/-! ## Straight-line programs

A sequence of assignments and augmented assignments to names in one scope: what its run leaves in the names,
and what the tables that the collection makes of it say at a line. A request at a line sees the records of the
writes done by then, as long as no later write of the name stands on the line or above it.
-/
namespace TimeCodeSecurity.Scanner
open Py

/-- `name = … = value` or `name op= value`. -/
structure Write where
  names : List String
  value : Expr
  line : ℕ

def isName : Expr → Bool
  | .name .. => true
  | _ => false

def asWrite : Stmt → Option Write
  | .assign pos targets value =>
    if targets.all isName && (namedExprsOf value).isEmpty then
      some ⟨targets.flatMap Tracker.targetNames, value, pos.lineno⟩
    else none
  | .augAssign pos (.name _ id _) op value =>
    if (namedExprsOf value).isEmpty then
      some ⟨[id], .binOp pos (.name pos id .load) op value, pos.lineno⟩
    else none
  | _ => none

/-- A body of such statements, as they stand in a source. -/
structure StraightLine (body : List Stmt) (ws : List Write) : Prop where
  writes : body.map asWrite = ws.map some
  sorted : ws.Pairwise (·.line ≤ ·.line)
  positive : ∀ w ∈ ws, 0 < w.line

/-- The values of the names. -/
abbrev Env := String → Option Value

section
variable (addFloat : ℚ → ℚ → ℚ)

/-- `e` can have the value `v`. Where other code runs on the way, it can have any. -/
def Computes (σ : Env) (e : Expr) (v : Value) : Prop :=
  quiet e = true → ∃ host, evalExpr addFloat σ host e = some v

def Env.bindNames (σ : Env) (names : List String) (v : Value) : Env :=
  fun x => if x ∈ names then some v else σ x

inductive Runs : List Write → Env → Env → Prop
  | nil {σ} : Runs [] σ σ
  | cons {w ws σ v σ'} : Computes addFloat σ w.value v → Runs ws (σ.bindNames w.names v) σ' →
      Runs (w :: ws) σ σ'

end

section
variable {addFloat : ℚ → ℚ → ℚ}

theorem runs_append {ws ws' : List Write} {σ σ' : Env} (h : Runs addFloat (ws ++ ws') σ σ') :
    ∃ σ₁, Runs addFloat ws σ σ₁ ∧ Runs addFloat ws' σ₁ σ' := by
  induction ws generalizing σ with
  | nil => exact ⟨σ, .nil, h⟩
  | cons w ws ih =>
    rw [List.cons_append] at h
    cases h with
    | cons hcomputes hrest =>
      obtain ⟨σ₁, hws, hws'⟩ := ih hrest
      exact ⟨σ₁, .cons hcomputes hws, hws'⟩

theorem Runs.concat {ws : List Write} {σ σ' : Env} (h : Runs addFloat ws σ σ') {w : Write} {v : Value}
    (hw : Computes addFloat σ' w.value v) : Runs addFloat (ws ++ [w]) σ (σ'.bindNames w.names v) := by
  induction h with
  | nil => exact .cons hw .nil
  | cons hcomputes _ ih => exact .cons hcomputes (ih hw)

theorem Runs.frame {ws : List Write} {σ σ' : Env} (h : Runs addFloat ws σ σ') {x : String}
    (hx : ∀ w ∈ ws, x ∉ w.names) : σ' x = σ x := by
  induction h with
  | nil => rfl
  | @cons w ws σ v σ' _ _ ih =>
    rw [ih fun w' hw' => hx w' (List.mem_cons_of_mem w hw'), Env.bindNames,
      if_neg (hx w List.mem_cons_self)]

end

/-! ## The records of a straight-line program -/

def Write.records (scope : String) (w : Write) : List AssignmentRecord :=
  w.names.map fun id => ⟨id, w.value, w.line, scope, false⟩

def written (scope : String) (ws : List Write) (x : String) : List AssignmentRecord :=
  (ws.flatMap (·.records scope)).filter (·.targetName = x)

theorem assignments_bindName (T : Tracker) (r : AssignmentRecord) :
    (T.bindName r).assignments = T.assignments ++ [r] := by
  unfold Tracker.bindName
  split <;> rfl

theorem assignments_visitExpr {e : Expr} (h : namedExprsOf e = []) (T : Tracker) (scope : String)
    (line : ℕ) (isConditional : Bool) :
    (T.visitExpr e scope line isConditional).assignments = T.assignments := by
  rw [Tracker.visitExpr, Tracker.collectNamedExprs, h]
  rfl

theorem assignments_foldl_assignTarget {targets : List Expr} (h : ∀ t ∈ targets, isName t = true)
    (T : Tracker) (scope : String) (line : ℕ) (value : Expr) :
    (targets.foldl (fun T t => T.assignTarget scope false line value t) T).assignments =
      T.assignments ++ (Write.records scope ⟨targets.flatMap Tracker.targetNames, value, line⟩) := by
  induction targets generalizing T with
  | nil => exact (List.append_nil _).symm
  | cons t targets ih =>
    cases t with
    | name pos id ctx =>
      rw [List.foldl_cons, ih fun t ht => h t (List.mem_cons_of_mem _ ht), Tracker.assignTarget,
        assignments_bindName, List.append_assoc]
      rfl
    | _ => exact absurd (h _ List.mem_cons_self) (by simp [isName])

theorem assignments_recordContainerMutation (T : Tracker) (e : Expr) (scope : String) (line : ℕ) :
    (T.recordContainerMutation e scope line).assignments = T.assignments := by
  unfold Tracker.recordContainerMutation
  split
  · split
    · split <;> rfl
    · rfl
  · rfl

theorem assignments_collectStmt {s : Stmt} {w : Write} (h : asWrite s = some w) (H : Host) (T : Tracker)
    (scope : String) :
    (collectStmt H none scope false T s).assignments = T.assignments ++ w.records scope := by
  unfold asWrite at h
  split at h
  · split at h
    · rename_i pos targets value hcond
      obtain rfl := Option.some.inj h
      rw [Bool.and_eq_true, List.all_eq_true, List.isEmpty_iff] at hcond
      rw [collectStmt]
      show (Tracker.visitExpr _ value scope pos.lineno false).assignments = _
      rw [assignments_visitExpr hcond.2, assignments_foldl_assignTarget hcond.1]
    · cases h
  · split at h
    · rename_i pos _ id _ op value hcond
      obtain rfl := Option.some.inj h
      rw [collectStmt, assignments_recordContainerMutation,
        assignments_visitExpr (List.isEmpty_iff.mp hcond), Tracker.augAssignTarget, assignments_bindName]
      rfl
    · cases h
  · cases h

theorem assignments_collectStatements {body : List Stmt} {ws : List Write}
    (h : body.map asWrite = ws.map some) (H : Host) (T : Tracker) (scope : String) :
    (collectStatements H none scope false T body).assignments =
      T.assignments ++ ws.flatMap (·.records scope) := by
  induction body generalizing T ws with
  | nil =>
    obtain rfl := List.map_eq_nil_iff.mp h.symm
    rw [collectStatements, List.flatMap_nil, List.append_nil]
  | cons s body ih =>
    cases ws with
    | nil => cases h
    | cons w ws =>
      obtain ⟨hs, hbody⟩ := List.cons.inj h
      rw [collectStatements, ih hbody, assignments_collectStmt hs, List.append_assoc, List.flatMap_cons]

theorem written_append (scope : String) (ws ws' : List Write) (x : String) :
    written scope (ws ++ ws') x = written scope ws x ++ written scope ws' x := by
  rw [written, List.flatMap_append, List.filter_append]
  rfl

theorem mem_written {scope : String} {ws : List Write} {x : String} {r : AssignmentRecord} :
    r ∈ written scope ws x ↔ ∃ w ∈ ws, x ∈ w.names ∧ r = ⟨x, w.value, w.line, scope, false⟩ := by
  rw [written, List.mem_filter, List.mem_flatMap]
  constructor
  · rintro ⟨⟨w, hw, hr⟩, hx⟩
    obtain ⟨id, hid, rfl⟩ := List.mem_map.mp hr
    obtain rfl := of_decide_eq_true hx
    exact ⟨w, hw, hid, rfl⟩
  · rintro ⟨w, hw, hx, rfl⟩
    exact ⟨⟨w, hw, List.mem_map.mpr ⟨x, hx, rfl⟩⟩, decide_eq_true rfl⟩

theorem written_eq_nil {scope : String} {ws : List Write} {x : String} (h : ∀ w ∈ ws, x ∉ w.names) :
    written scope ws x = [] := by
  refine List.eq_nil_iff_forall_not_mem.mpr fun r hr => ?_
  obtain ⟨w, hw, hx, -⟩ := mem_written.mp hr
  exact h w hw hx

theorem written_of_single {scope : String} {w : Write} {x : String} (h : w.names = [x]) :
    written scope [w] x = [⟨x, w.value, w.line, scope, false⟩] := by
  simp [written, Write.records, h]

theorem exists_last_write {scope : String} {ws : List Write} {x : String} {r : AssignmentRecord}
    (h : (written scope ws x).getLast? = some r) :
    ∃ done w later, ws = done ++ w :: later ∧ x ∈ w.names ∧ (∀ w' ∈ later, x ∉ w'.names) ∧
      r = ⟨x, w.value, w.line, scope, false⟩ := by
  induction ws with
  | nil => cases h
  | cons w ws ih =>
    rw [← List.singleton_append, written_append, List.getLast?_append] at h
    cases hlast : (written scope ws x).getLast? with
    | some r' =>
      rw [hlast, Option.some_or] at h
      obtain ⟨done, w', later, rfl, hx, hlater, hr⟩ := ih (hlast.trans h)
      exact ⟨w :: done, w', later, rfl, hx, hlater, hr⟩
    | none =>
      rw [hlast, Option.none_or] at h
      obtain ⟨w', hw', hx, hr⟩ := mem_written.mp (List.mem_of_getLast? h)
      obtain rfl := List.mem_singleton.mp hw'
      refine ⟨[], w', ws, rfl, hx, fun w'' hw'' hx'' => ?_, hr⟩
      have hmem : ⟨x, w''.value, w''.line, scope, false⟩ ∈ written scope ws x :=
        mem_written.mpr ⟨w'', hw'', hx'', rfl⟩
      rw [List.getLast?_eq_none_iff.mp hlast] at hmem
      exact absurd hmem List.not_mem_nil

theorem Runs.exists_value {addFloat : ℚ → ℚ → ℚ} {ws : List Write} {σ σ' : Env} (h : Runs addFloat ws σ σ')
    {scope x : String} (hx : written scope ws x ≠ []) : ∃ v, σ' x = some v := by
  cases hlast : (written scope ws x).getLast? with
  | none => exact absurd (List.getLast?_eq_none_iff.mp hlast) hx
  | some r =>
    obtain ⟨before, w, after, rfl, hmem, hafter, -⟩ := exists_last_write hlast
    obtain ⟨σ₁, -, hrest⟩ := runs_append h
    cases hrest with
    | cons _ hafterRun => exact ⟨_, by rw [hafterRun.frame hafter, Env.bindNames, if_pos hmem]⟩

theorem scopeChain_head {scope : String} (h : scope ≠ "") : ∃ rest, scopeChain scope = scope :: rest := by
  unfold scopeChain
  simp only
  rw [show ∀ a b, a + b + 10 = (a + b + 9) + 1 from fun _ _ => rfl, scopeWalk,
    if_neg (by simp [h])]
  exact ⟨_, rfl⟩

/-! ## What the tables say about a name -/

theorem exists_record_of_interval {addFloat : ℚ → ℚ → ℚ} {recs : List AssignmentRecord} {iv : Interval}
    (h : iv ∈ intervals addFloat recs) : ∃ r ∈ recs, iv.lower = r.lineno := by
  induction recs with
  | nil => exact absurd h List.not_mem_nil
  | cons r later ih =>
    rw [intervals_cons] at h
    split at h
    · obtain ⟨r', hr', heq⟩ := ih h
      exact ⟨r', List.mem_cons_of_mem r hr', heq⟩
    · rcases List.mem_append.mp h with h | h
      · obtain ⟨c, -, rfl⟩ := List.mem_map.mp h
        exact ⟨r, List.mem_cons_self, rfl⟩
      · obtain ⟨r', hr', heq⟩ := ih h
        exact ⟨r', List.mem_cons_of_mem r hr', heq⟩

section
variable {addFloat : ℚ → ℚ → ℚ} {T : Tracker} {scope : String} {ws : List Write}

def Past (later : List Write) (line : ℕ) (x : String) : Prop := ∀ w ∈ later, x ∈ w.names → line < w.line

theorem records_scope (hT : T.assignments = ws.flatMap (·.records scope)) (s x : String) :
    T.records s x = if s = scope then written scope ws x else [] := by
  rw [Tracker.records, hT]
  have hscope : ∀ r ∈ ws.flatMap (·.records scope), r.scopeId = scope := by
    intro r hr
    obtain ⟨w, -, hr⟩ := List.mem_flatMap.mp hr
    obtain ⟨id, -, rfl⟩ := List.mem_map.mp hr
    rfl
  split
  · rename_i hs
    subst hs
    refine List.filter_congr fun r hr => ?_
    rw [hscope r hr]
    simp
  · rename_i hs
    refine List.filter_eq_nil_iff.mpr fun r hr => ?_
    rw [hscope r hr]
    simp [Ne.symm hs]

variable (scope) in
theorem visible_written {done later : List Write} {line : ℕ} (hline : 0 < line)
    (hdone : ∀ w ∈ done, w.line ≤ line) {x : String} (hpast : Past later line x) :
    (written scope (done ++ later) x).filter (fun r => line = 0 ∨ r.lineno ≤ line) =
      written scope done x := by
  rw [written_append, List.filter_append]
  have hold : (written scope done x).filter (fun r => line = 0 ∨ r.lineno ≤ line) =
      written scope done x := by
    refine List.filter_eq_self.mpr fun r hr => ?_
    obtain ⟨w, hw, -, rfl⟩ := mem_written.mp hr
    exact decide_eq_true (.inr (hdone w hw))
  have hnew : (written scope later x).filter (fun r => line = 0 ∨ r.lineno ≤ line) = [] := by
    refine List.filter_eq_nil_iff.mpr fun r hr => ?_
    obtain ⟨w, hw, hx, rfl⟩ := mem_written.mp hr
    have hlt := hpast w hw hx
    simp only [decide_eq_true_eq]
    omega
  rw [hold, hnew, List.append_nil]

section
variable (hT : T.assignments = ws.flatMap (·.records scope)) (hscope : scope ≠ "")
  {done later : List Write} (hws : ws = done ++ later) {line : ℕ} (hline : 0 < line)
  (hdone : ∀ w ∈ done, w.line ≤ line) {x : String} (hpast : Past later line x)
include hT hscope hws hline hdone hpast

theorem chainRecord_written : T.chainRecord scope x line = (written scope done x).getLast? := by
  have hseen := visible_written scope hline hdone hpast
  rw [← hws] at hseen
  obtain ⟨rest, hrest⟩ := scopeChain_head hscope
  rw [Tracker.chainRecord, hrest, List.findSome?_cons, records_scope hT, if_pos rfl, hseen]
  cases hlast : (written scope done x).getLast? with
  | some r => rfl
  | none =>
    refine List.findSome?_eq_none_iff.mpr fun s _ => ?_
    rw [records_scope hT]
    split
    · rw [hseen, hlast]
    · rfl

theorem assignmentRecords_written : T.assignmentRecords x scope line = written scope done x := by
  have hseen := visible_written scope hline hdone hpast
  rw [← hws] at hseen
  obtain ⟨rest, hrest⟩ := scopeChain_head hscope
  rw [Tracker.assignmentRecords, hrest, List.map_cons, List.find?_cons, records_scope hT, if_pos rfl, hseen]
  cases hempty : written scope done x with
  | cons r rs => rfl
  | nil =>
    have hnone : (rest.map fun s => (T.records s x).filter fun r => line = 0 ∨ r.lineno ≤ line).find?
        (fun rs => !rs.isEmpty) = none := by
      refine List.find?_eq_none.mpr fun rs hrs => ?_
      obtain ⟨s, -, rfl⟩ := List.mem_map.mp hrs
      rw [records_scope hT]
      split
      · rw [hseen, hempty]
        simp
      · simp
    simp only [List.isEmpty_nil, Bool.not_true]
    rw [hnone]
    rfl

omit hscope in
theorem crossScopeTriage_written (hnone : written scope done x = []) :
    T.crossScopeTriage addFloat x line = {} := by
  have hseen := visible_written scope hline hdone hpast
  rw [← hws, hnone] at hseen
  have hlater : ∀ s, ∀ r ∈ T.records s x, visible line r.lineno = false := by
    intro s r hr
    rw [records_scope hT] at hr
    split at hr
    · have hr' := List.filter_eq_nil_iff.mp hseen r hr
      simpa [visible] using hr'
    · exact absurd hr List.not_mem_nil
  rw [Tracker.crossScopeTriage_eq]
  have hnil : boundariesAt (T.intervalsOf addFloat x) line = [] := by
    refine List.filter_eq_nil_iff.mpr fun b hb => ?_
    obtain ⟨iv, hiv, -, hb⟩ := mem_boundaries.mp hb
    have hmem : iv ∈ T.intervalsOf addFloat x := List.fst_mem_of_mem_zipIdx hiv
    obtain ⟨s, -, hs⟩ := List.mem_flatMap.mp hmem
    obtain ⟨r, hr, hlower⟩ := exists_record_of_interval hs
    have hhidden := hlater s r hr
    have hle : iv.lower ≤ b.1 := by
      split at hb
      · exact hb.ge
      · exact (T.intervalsOf_upper addFloat x iv hmem b.1 hb).le
    intro hvisible
    rw [← hlower, visible_of_le hle hvisible] at hhidden
    cases hhidden
  rw [hnil]
  rfl

theorem record_of_foldName {fold : Expr → String → ℕ → FoldM (Option Value)} {visited visited' : List String}
    {v : Value} (h : (foldName addFloat T fold scope line x).run visited = some (some v, visited')) :
    ∃ r, (written scope done x).getLast? = some r ∧ ∃ visited₁,
      (fold r.valueNode r.scopeId r.lineno).run visited₁ = some (some v, visited') := by
  obtain ⟨seen, visited₁, -, h⟩ := run_bind_eq_some h
  split at h
  · cases run_pure_eq_some h
  obtain ⟨-, visited₂, -, h⟩ := run_bind_eq_some h
  rw [chainRecord_written hT hscope hws hline hdone hpast] at h
  cases hlast : (written scope done x).getLast? with
  | none =>
    rw [hlast] at h
    have htriage : T.crossScopeTriage addFloat x line = {} :=
      crossScopeTriage_written hT hws hline hdone hpast (List.getLast?_eq_none_iff.mp hlast)
    simp only [foldCrossScope, htriage] at h
    cases run_pure_eq_some h
  | some r =>
    rw [hlast] at h
    exact ⟨r, rfl, visited₂, h⟩

theorem written_of_literalText {fuel : ℕ} {seen : List (String × String)} {pos : Pos} {ctx : Ctx} {text : String}
    (h : literalText addFloat T fuel seen (.name pos x ctx) scope line = some (some text)) :
    written scope done x ≠ [] := by
  intro hnone
  cases fuel with
  | zero => cases h
  | succ fuel =>
    unfold literalText at h
    split at h
    · rename_i found hstatic
      obtain ⟨visited, hfold⟩ := T.run_requestFuel addFloat (.name pos x ctx) scope line
      rw [hstatic] at hfold
      obtain ⟨r, hlast, -⟩ := record_of_foldName hT hscope hws hline hdone hpast hfold
      rw [hnone] at hlast
      cases hlast
    · simp only at h
      split at h
      · cases h
      · rw [assignmentRecords_written hT hscope hws hline hdone hpast, hnone] at h
        cases h

end

end

end TimeCodeSecurity.Scanner
