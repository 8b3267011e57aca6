import Mathlib.Data.Finset.Erase
import Mathlib.Data.Finset.Insert
import TimeCodeSecurity.CrossFile.Harvest

/-! # The local def-use tracker

`LocalDefUseTracker` of `analysis/def_use.py`: one walk over the body of a function that keeps the tainted
and the killed variables in one state. The map of aliases is written on the way but not read by the walk
or by `is_variable_tainted`, and is left out.
-/
namespace TimeCodeSecurity.DefUse
open Py CrossFile
set_option autoImplicit false

def knownSanitizers : List String :=
  ["int", "float", "bool", "shlex.quote", "html.escape", "urllib.parse.quote", "os.path.abspath",
    "os.path.realpath", "pathlib.Path.resolve"]

structure LocalDefUseTracker where
  taintedVars : Finset String := ∅
  killedVars : Finset String := ∅

namespace LocalDefUseTracker

variable (T : LocalDefUseTracker)

def isVariableTainted (varName : String) : Bool :=
  varName ∈ T.taintedVars && varName ∉ T.killedVars

def taint (name : String) : LocalDefUseTracker :=
  { taintedVars := insert name T.taintedVars, killedVars := T.killedVars.erase name }

def kill (name : String) : LocalDefUseTracker :=
  { taintedVars := T.taintedVars.erase name, killedVars := insert name T.killedVars }

@[simp] theorem isVariableTainted_taint (name x : String) :
    (T.taint name).isVariableTainted x = (decide (x = name) || T.isVariableTainted x) := by
  by_cases hx : x = name
  · simp [isVariableTainted, taint, hx]
  · simp [isVariableTainted, taint, hx]

@[simp] theorem isVariableTainted_kill (name x : String) :
    (T.kill name).isVariableTainted x = (decide (x ≠ name) && T.isVariableTainted x) := by
  by_cases hx : x = name
  · simp [isVariableTainted, kill, hx]
  · simp [isVariableTainted, kill, hx]

mutual

def isNodeTainted : Expr → Bool
  | .name _ id _ => T.isVariableTainted id
  | .binOp _ left _ right => isNodeTainted left || isNodeTainted right
  | .joinedStr _ values => anyTainted values
  | .call _ func args keywords =>
    isNodeTainted func || anyTainted args || anyKeywordTainted keywords
  | .attr _ value _ _ => isNodeTainted value
  | .subscript _ value slice _ => isNodeTainted value || isNodeTainted slice
  | .formattedValue _ value _ _ => isNodeTainted value
  | _ => false

def anyTainted : List Expr → Bool
  | [] => false
  | e :: es => isNodeTainted e || anyTainted es

def anyKeywordTainted : List (Keyword Expr) → Bool
  | [] => false
  | ⟨_, value⟩ :: ks => isNodeTainted value || anyKeywordTainted ks

end

def isSafeLiteral : Expr → Bool
  | .constant .. => true
  | .list _ elts _ => elts.isEmpty
  | .dict _ keys _ => keys.isEmpty
  | _ => false

def getCallFuncName (func : Expr) : Option String := (dottedParts func).map ".".intercalate

def extractSanitizerName : Expr → Option String
  | .call _ func _ _ => (getCallFuncName func).filter (· ∈ knownSanitizers)
  | _ => none

def trackVariable (targetName : String) (valueNode : Expr) : LocalDefUseTracker :=
  if isSafeLiteral valueNode then T.kill targetName
  else if (extractSanitizerName valueNode).isSome then T.kill targetName
  else
    match valueNode with
    | .name _ sourceName _ =>
      if T.isVariableTainted sourceName then T.taint targetName else T.kill targetName
    | valueNode => if T.isNodeTainted valueNode then T.taint targetName else T.kill targetName

def trackElements (T : LocalDefUseTracker) : List Expr → List Expr → LocalDefUseTracker
  | .name _ id _ :: targets, value :: values => trackElements (T.trackVariable id value) targets values
  | _ :: targets, _ :: values => trackElements T targets values
  | _, _ => T

def processAssignment (targets : List Expr) (value : Expr) : LocalDefUseTracker :=
  match targets.head? with
  | some (.tuple _ elts _) =>
    match value with
    | .tuple _ values _ => if elts.length = values.length then T.trackElements elts values else T
    | _ => T
  | some (.name _ id _) => T.trackVariable id value
  | _ => T

def processAnnotatedAssignment (target : Expr) (value : Option Expr) : LocalDefUseTracker :=
  match target, value with
  | .name _ id _, some value => T.trackVariable id value
  | _, _ => T

def processAugmentedAssignment (target value : Expr) : LocalDefUseTracker :=
  match target with
  | .name _ id _ =>
    if T.isVariableTainted id then T
    else if T.isNodeTainted value then T.taint id else T
  | _ => T

end LocalDefUseTracker

open LocalDefUseTracker

mutual

def processStatement : Stmt → LocalDefUseTracker → LocalDefUseTracker
  | .assign _ targets value, T => T.processAssignment targets value
  | .annAssign _ target _ value, T => T.processAnnotatedAssignment target value
  | .augAssign _ target _ value, T => T.processAugmentedAssignment target value
  | .forLoop _ false _ _ body _, T => processStatements body T
  | .whileLoop _ _ body _, T => processStatements body T
  | .ifStmt _ _ body orelse, T => processStatements orelse (processStatements body T)
  | .tryStmt _ false body handlers _ finalbody, T =>
    processStatements finalbody (processHandlers handlers (processStatements body T))
  | _, T => T

def processStatements : List Stmt → LocalDefUseTracker → LocalDefUseTracker
  | [], T => T
  | stmt :: rest, T => processStatements rest (processStatement stmt T)

def processHandlers : List (ExceptHandler Stmt) → LocalDefUseTracker → LocalDefUseTracker
  | [], T => T
  | ⟨_, _, _, body⟩ :: rest, T => processHandlers rest (processStatements body T)

end

/-- The parameters marked at the start: those of `args.args` but for `self`. -/
def markedParameters (args : Arguments Expr) : List String :=
  (args.args.map (·.arg)).filter (· ≠ "self")

def startTracker (args : Arguments Expr) : LocalDefUseTracker :=
  { taintedVars := (markedParameters args).toFinset }

def analyzeFunction (args : Arguments Expr) (body : List Stmt) : LocalDefUseTracker :=
  processStatements body (startTracker args)

/-! ## The walk as a list -/

/-- What the walk does with one name. -/
inductive Entry
  | track (name : String) (value : Expr)
  | augment (name : String) (value : Expr)

def Entry.apply (T : LocalDefUseTracker) : Entry → LocalDefUseTracker
  | .track name value => T.trackVariable name value
  | .augment name value =>
    if T.isVariableTainted name then T else if T.isNodeTainted value then T.taint name else T

def elementEntries : List Expr → List Expr → List Entry
  | .name _ id _ :: targets, value :: values => .track id value :: elementEntries targets values
  | _ :: targets, _ :: values => elementEntries targets values
  | _, _ => []

def assignEntries (targets : List Expr) (value : Expr) : List Entry :=
  match targets.head? with
  | some (.tuple _ elts _) =>
    match value with
    | .tuple _ values _ => if elts.length = values.length then elementEntries elts values else []
    | _ => []
  | some (.name _ id _) => [.track id value]
  | _ => []

def annEntries (target : Expr) (value : Option Expr) : List Entry :=
  match target, value with
  | .name _ id _, some value => [.track id value]
  | _, _ => []

def augEntries (target value : Expr) : List Entry :=
  match target with
  | .name _ id _ => [.augment id value]
  | _ => []

mutual

def walk : Stmt → List Entry
  | .assign _ targets value => assignEntries targets value
  | .annAssign _ target _ value => annEntries target value
  | .augAssign _ target _ value => augEntries target value
  | .forLoop _ false _ _ body _ => walkAll body
  | .whileLoop _ _ body _ => walkAll body
  | .ifStmt _ _ body orelse => walkAll body ++ walkAll orelse
  | .tryStmt _ false body handlers _ finalbody =>
    walkAll body ++ (walkHandlers handlers ++ walkAll finalbody)
  | _ => []

def walkAll : List Stmt → List Entry
  | [] => []
  | stmt :: rest => walk stmt ++ walkAll rest

def walkHandlers : List (ExceptHandler Stmt) → List Entry
  | [] => []
  | ⟨_, _, _, body⟩ :: rest => walkAll body ++ walkHandlers rest

end

theorem trackElements_eq (T : LocalDefUseTracker) (targets values : List Expr) :
    T.trackElements targets values = (elementEntries targets values).foldl Entry.apply T := by
  fun_induction elementEntries targets values generalizing T with
  | case1 _ id _ targets value values ih => rw [trackElements, List.foldl_cons, ih]; rfl
  | case2 => simp_all [trackElements]
  | case3 => simp_all [trackElements]

theorem processAssignment_eq (T : LocalDefUseTracker) (targets : List Expr) (value : Expr) :
    T.processAssignment targets value = (assignEntries targets value).foldl Entry.apply T := by
  rw [processAssignment, assignEntries]
  split
  · split
    · split_ifs
      · exact trackElements_eq T _ _
      · rfl
    · rfl
  · rfl
  · rfl

theorem processAnnotatedAssignment_eq (T : LocalDefUseTracker) (target : Expr)
    (value : Option Expr) :
    T.processAnnotatedAssignment target value = (annEntries target value).foldl Entry.apply T := by
  unfold processAnnotatedAssignment annEntries
  split <;> rfl

theorem processAugmentedAssignment_eq (T : LocalDefUseTracker) (target value : Expr) :
    T.processAugmentedAssignment target value = (augEntries target value).foldl Entry.apply T := by
  unfold processAugmentedAssignment augEntries
  split <;> rfl

mutual

theorem processStatement_eq (s : Stmt) (T : LocalDefUseTracker) :
    processStatement s T = (walk s).foldl Entry.apply T := by
  cases s with
  | assign _ targets value => exact processAssignment_eq T targets value
  | annAssign _ target _ value => exact processAnnotatedAssignment_eq T target value
  | augAssign _ target _ value => exact processAugmentedAssignment_eq T target value
  | forLoop _ isAsync _ _ body _ =>
    cases isAsync with
    | false => exact processStatements_eq body T
    | true => rfl
  | whileLoop _ _ body _ => exact processStatements_eq body T
  | ifStmt _ _ body orelse =>
    rw [processStatement, walk, List.foldl_append, processStatements_eq body,
      processStatements_eq orelse]
  | tryStmt _ isStar body handlers _ finalbody =>
    cases isStar with
    | false =>
      rw [processStatement, walk, List.foldl_append, List.foldl_append, processStatements_eq body,
        processHandlers_eq handlers, processStatements_eq finalbody]
    | true => rfl
  | _ => rfl

theorem processStatements_eq (stmts : List Stmt) (T : LocalDefUseTracker) :
    processStatements stmts T = (walkAll stmts).foldl Entry.apply T := by
  cases stmts with
  | nil => rfl
  | cons s rest =>
    rw [processStatements, walkAll, List.foldl_append, processStatement_eq s,
      processStatements_eq rest]

theorem processHandlers_eq (handlers : List (ExceptHandler Stmt)) (T : LocalDefUseTracker) :
    processHandlers handlers T = (walkHandlers handlers).foldl Entry.apply T := by
  match handlers with
  | [] => rfl
  | ⟨_, _, _, body⟩ :: rest =>
    rw [processHandlers, walkHandlers, List.foldl_append, processStatements_eq body,
      processHandlers_eq rest]

end

theorem analyzeFunction_eq (args : Arguments Expr) (body : List Stmt) :
    analyzeFunction args body = (walkAll body).foldl Entry.apply (startTracker args) :=
  processStatements_eq body (startTracker args)

theorem isVariableTainted_apply_track {T : LocalDefUseTracker} {name x : String} {value : Expr}
    (h : x ≠ name) :
    (Entry.apply T (.track name value)).isVariableTainted x = T.isVariableTainted x := by
  have htaint : (T.taint name).isVariableTainted x = T.isVariableTainted x := by simp [h]
  have hkill : (T.kill name).isVariableTainted x = T.isVariableTainted x := by simp [h]
  show (T.trackVariable name value).isVariableTainted x = T.isVariableTainted x
  unfold trackVariable
  split_ifs
  · exact hkill
  · exact hkill
  · split
    · split_ifs
      · exact htaint
      · exact hkill
    · split_ifs
      · exact htaint
      · exact hkill

theorem isVariableTainted_apply_augment {T : LocalDefUseTracker} {x : String} (name : String)
    (value : Expr) (h : T.isVariableTainted x = true) :
    (Entry.apply T (.augment name value)).isVariableTainted x = true := by
  rw [Entry.apply]
  split_ifs
  · exact h
  · simp [h]
  · exact h

theorem isVariableTainted_apply_copy {T : LocalDefUseTracker} {y : String} (x : String) (pos : Pos)
    (ctx : Ctx) (h : T.isVariableTainted y = true) :
    (Entry.apply T (.track x (.name pos y ctx))).isVariableTainted x = true := by
  simp [Entry.apply, trackVariable, isSafeLiteral, extractSanitizerName, h]

end TimeCodeSecurity.DefUse
