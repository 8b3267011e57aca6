import TimeCodeSecurity.Foundations.BoundedSearch
import TimeCodeSecurity.Reachability.Visitor

/-! # The call graph

`FunctionCallGraph`: the calls inside each function, resolved to scope paths by name, and the bounded
search from the functions invoked at module level.
-/
namespace TimeCodeSecurity.Reachability
open Py Scanner
set_option autoImplicit false

inductive ReachabilityState
  | packageImportNotFound | packageImported | apiReferenceFound
  | callReachable | callUnreachable | reachabilityUnresolved
deriving DecidableEq, Repr

inductive EdgeType
  | provenStaticEdge | possibleEdge | unresolvedEdge
deriving DecidableEq, Repr

/-- `text.split(".")`. -/
def dotParts (text : String) : List String := (text.toList.splitOn '.').map String.ofList

/-- `text.split(".")[-1]`. -/
def lastPart (text : String) : String :=
  String.ofList (text.toList.reverse.takeWhile (· ≠ '.')).reverse

namespace Visitor

variable (V : Visitor)

def isFunction (scope : String) : Bool := V.functions.any (·.1 = scope)

/-- How many different parts of `scope` are parts of `caller`. -/
def sharedParts (caller scope : String) : ℕ :=
  ((dotParts scope).dedup.filter (· ∈ dotParts caller)).length

def anyNamed (caller called : String) : Option String :=
  let matching := (V.functions.map (·.1)).filter fun s =>
    ("." ++ called).toList.isSuffixOf s.toList
  match matching with
  | [s] => some s
  | matching => matching.argmax (sharedParts caller)

def resolveCalledScope (caller called : String) : Option String :=
  let inner := caller ++ "." ++ called
  let sibling := beforeLastDot caller ++ "." ++ called
  let ofModule := V.moduleName ++ "." ++ called
  if V.isFunction inner then some inner
  else if contains "." caller ∧ V.isFunction sibling then some sibling
  else if V.isFunction ofModule then some ofModule
  else V.anyNamed caller called

def calledName : Node → Option String
  | .expr (.call _ (.name _ id _) _ _) => some id
  | .expr (.call _ (.attr _ _ attr _) _ _) => some attr
  | _ => none

/-- `adjacency`: the targets of the calls in a function, in the order of `ast.walk`. -/
def callees (scope : String) (f : Stmt) : List String :=
  ((Node.stmt f).walk.filterMap calledName).filterMap fun called =>
    if called = "" then none else V.resolveCalledScope scope called

def adjacency (scope : String) : List String :=
  match V.functions.lookup scope with
  | some f => V.callees scope f
  | none => []

/-- `root.split("(")[0].split(".")[-1]`. -/
def cleanRoot (root : String) : String :=
  lastPart (String.ofList (root.toList.takeWhile (· ≠ '(')))

def rootScope (root : String) : Option String :=
  V.resolveCalledScope V.moduleName (cleanRoot root)

def maxDepth : ℕ := 10

def pathsFromRoot (target root : String) : List (List String) :=
  match V.rootScope root with
  | none => []
  | some scope =>
    if scope = target then [[scope]]
    else BoundedSearch.pathsFrom V.adjacency target maxDepth V.functions.length scope

/-- `find_paths_to_scope`, the shortest paths first. -/
def findPathsToScope (target : String) : List (List String) :=
  (V.moduleLevelInvocations.flatMap (V.pathsFromRoot target)).insertionSort
    fun p q => p.length ≤ q.length

end Visitor

structure CallVerdict where
  state : ReachabilityState
  callPath : List String
  callDepth : ℕ
  edgeType : EdgeType
  limitation : Option String := none
deriving DecidableEq, Repr

def cleanCallee (text : String) : String :=
  if Visitor.endsWithCall text then String.ofList (text.toList.dropLast.dropLast) else text

def unreachableLimitation (caller callee : String) : String :=
  if contains "orphan" caller then
    callee ++ "() is located in " ++ caller ++
      "() which has no path from any registered entrypoint"
  else
    "Function " ++ caller ++
      " is not reachable from Phase 1 entrypoints (MODULE_LEVEL_CODE or CLI_ENTRY_POINTS)"

def Visitor.evaluateCallReachability (V : Visitor) (call : CallRecord) : CallVerdict :=
  let callee := cleanCallee call.calleeExpr
  if call.callerScope = V.moduleName then
    ⟨.callReachable, ["module_level", callee], 1, .provenStaticEdge, none⟩
  else
    let caller := lastPart call.callerScope
    match V.findPathsToScope call.callerScope with
    | [] =>
      ⟨.callUnreachable, [caller, callee], 1, .unresolvedEdge,
        some (unreachableLimitation caller callee)⟩
    | shortest :: _ =>
      let simple := shortest.map lastPart
      if simple.length ≤ 2 then
        ⟨.callReachable, simple ++ [callee], simple.length, .provenStaticEdge, none⟩
      else
        ⟨.reachabilityUnresolved, simple ++ [callee], simple.length, .unresolvedEdge,
          some "Multi-hop call path exceeds Phase 1 guaranteed semantic resolution depth"⟩

end TimeCodeSecurity.Reachability

/-! ## What `CALL_UNREACHABLE` says

The verdict is right when the call stands neither at the module level of a file nor in a function that
module-level code reaches by calls. The search stops after ten calls, and only the file visited last
counts as the module.
-/
namespace TimeCodeSecurity.Reachability
open Py BoundedSearch

/-! ## The graph -/

namespace Visitor

variable (V : Visitor)

theorem mem_of_isFunction {scope : String} (h : V.isFunction scope = true) :
    scope ∈ V.functions.map (·.1) := by
  obtain ⟨f, hf, hs⟩ := List.any_eq_true.mp h
  exact List.mem_map.mpr ⟨f, hf, of_decide_eq_true hs⟩

theorem mem_of_anyNamed {caller called scope : String} (h : V.anyNamed caller called = some scope) :
    scope ∈ V.functions.map (·.1) := by
  simp only [anyNamed] at h
  split at h
  next s hs =>
    obtain rfl := Option.some.inj h
    have hmem : s ∈ [s] := List.mem_singleton_self s
    rw [← hs] at hmem
    exact (List.mem_filter.mp hmem).1
  next => exact (List.mem_filter.mp (List.argmax_mem h)).1

theorem mem_of_resolveCalledScope {caller called scope : String}
    (h : V.resolveCalledScope caller called = some scope) : scope ∈ V.functions.map (·.1) := by
  simp only [resolveCalledScope] at h
  split at h
  next hf => exact V.mem_of_isFunction (Option.some.inj h ▸ hf)
  next =>
    split at h
    next hf => exact V.mem_of_isFunction (Option.some.inj h ▸ hf.2)
    next =>
      split at h
      next hf => exact V.mem_of_isFunction (Option.some.inj h ▸ hf)
      next => exact V.mem_of_anyNamed h

theorem mem_of_mem_adjacency {scope target : String} (h : target ∈ V.adjacency scope) :
    target ∈ V.functions.map (·.1) := by
  rw [adjacency] at h
  split at h
  next f _ =>
    obtain ⟨called, _, hc⟩ := List.mem_filterMap.mp h
    split at hc
    next => simp at hc
    next => exact V.mem_of_resolveCalledScope hc
  next => simp at h

theorem bounded_adjacency : Bounded V.adjacency V.functions.length := by
  intro l hl himages
  have hsub : l ⊆ V.functions.map (·.1) := fun y hy => by
    obtain ⟨x, hx⟩ := himages y hy
    exact V.mem_of_mem_adjacency hx
  simpa using (List.subperm_of_subset hl hsub).length_le

/-- Some function invoked at module level leads to `target` by at most `k` calls. -/
def RootedWithin (k : ℕ) (target : String) : Prop :=
  ∃ root ∈ V.moduleLevelInvocations, ∃ scope, V.rootScope root = some scope ∧
    ∃ n ≤ k, Walk V.adjacency n scope target

/-- Some function invoked at module level leads to `target`. -/
def Rooted (target : String) : Prop :=
  ∃ root ∈ V.moduleLevelInvocations, ∃ scope, V.rootScope root = some scope ∧
    Relation.ReflTransGen (fun x y => y ∈ V.adjacency x) scope target

theorem pathsFromRoot_ne_nil_iff {target root : String} :
    V.pathsFromRoot target root ≠ [] ↔
      ∃ scope, V.rootScope root = some scope ∧ ∃ n ≤ maxDepth, Walk V.adjacency n scope target := by
  rw [pathsFromRoot]
  cases hroot : V.rootScope root with
  | none => simp
  | some scope =>
    simp only [Option.some.injEq, exists_eq_left']
    by_cases hst : scope = target
    · rw [if_pos hst]
      exact ⟨fun _ => ⟨0, Nat.zero_le _, hst⟩, fun _ => List.cons_ne_nil _ _⟩
    · rw [if_neg hst, pathsFrom_ne_nil_iff V.bounded_adjacency hst]

theorem findPathsToScope_eq_nil_iff {target : String} :
    V.findPathsToScope target = [] ↔ ¬ V.RootedWithin maxDepth target := by
  have hperm := List.perm_insertionSort (fun p q : List String => p.length ≤ q.length)
    (V.moduleLevelInvocations.flatMap (V.pathsFromRoot target))
  have hnil : V.findPathsToScope target = [] ↔
      V.moduleLevelInvocations.flatMap (V.pathsFromRoot target) = [] := by
    rw [findPathsToScope]
    constructor
    · intro h
      rw [h] at hperm
      exact hperm.nil_eq.symm
    · intro h
      rw [h] at hperm ⊢
      rfl
  rw [hnil, List.flatMap_eq_nil_iff]
  constructor
  · rintro h ⟨root, hroot, hwalk⟩
    exact (V.pathsFromRoot_ne_nil_iff.mpr hwalk) (h root hroot)
  · intro h root hroot
    by_contra hne
    exact h ⟨root, hroot, V.pathsFromRoot_ne_nil_iff.mp hne⟩

theorem evaluate_unreachable_iff (call : CallRecord) :
    (V.evaluateCallReachability call).state = .callUnreachable ↔
      call.callerScope ≠ V.moduleName ∧ ¬ V.RootedWithin maxDepth call.callerScope := by
  rw [← V.findPathsToScope_eq_nil_iff]
  simp only [evaluateCallReachability]
  by_cases hmod : call.callerScope = V.moduleName
  · simp [hmod]
  · rw [if_neg hmod]
    cases hpaths : V.findPathsToScope call.callerScope with
    | nil => simp [hmod]
    | cons shortest rest =>
      simp only
      split <;> simp

end Visitor

/-- The call stands in the module-level scope of one of the files. -/
def AtModuleLevel (files : List SourceFile) (call : CallRecord) : Prop :=
  ∃ f ∈ files, ∃ pos func args keywords,
    ([(ScopeType.module, f.moduleName)], Node.expr (.call pos func args keywords)) ∈ f.nodes ∧
      call.callerScope = f.moduleName ∧ call.file = f.name ∧ call.line = pos.lineno ∧
        call.column = pos.colOffset

/-- `CALL_UNREACHABLE` is given to calls that no module-level code executes. -/
def UnreachableIsSound (files : List SourceFile) (V : Visitor) (call : CallRecord) : Prop :=
  (V.evaluateCallReachability call).state = .callUnreachable →
    ¬ AtModuleLevel files call ∧ ¬ V.Rooted call.callerScope

theorem unreachableIsSound_iff (unparse : Expr → String) (declared : List String)
    (files : List SourceFile) (call : CallRecord) :
    UnreachableIsSound files (analyzeFiles unparse declared files) call ↔
      (AtModuleLevel files call ∨ (analyzeFiles unparse declared files).Rooted call.callerScope →
        call.callerScope = (analyzeFiles unparse declared files).moduleName ∨
          (analyzeFiles unparse declared files).RootedWithin Visitor.maxDepth call.callerScope) := by
  rw [UnreachableIsSound, Visitor.evaluate_unreachable_iff]
  constructor
  · intro h hlive
    by_contra hnot
    obtain ⟨hmod, hrooted⟩ := not_or.mp hnot
    obtain ⟨hlevel, hreach⟩ := h ⟨hmod, hrooted⟩
    exact hlive.elim hlevel hreach
  · rintro h ⟨hmod, hrooted⟩
    have hnot := fun hlive => (h hlive).elim hmod hrooted
    exact ⟨fun hlevel => hnot (.inl hlevel), fun hreach => hnot (.inr hreach)⟩

namespace TwoFiles

def nameText : Expr → String
  | .name _ id _ => id
  | _ => ""

/-- `first.py` is `run()`, `second.py` is `pass`. -/
def files : List SourceFile :=
  [⟨"first.py", [.expr {} (.call {} (.name {} "run" .load) [] [])]⟩, ⟨"second.py", [.pass {}]⟩]

def visitor : Visitor := analyzeFiles nameText [] files

def call : CallRecord :=
  ⟨"first", "run()", none, "run", ["first", "run"], "first.py", 1, 0, .unresolved, false⟩

end TwoFiles

theorem unreachable_at_module_level :
    ∃ call ∈ TwoFiles.visitor.calls,
      ¬ UnreachableIsSound TwoFiles.files TwoFiles.visitor call := by
  refine ⟨TwoFiles.call, by decide +kernel, fun h => ?_⟩
  have hstate : (TwoFiles.visitor.evaluateCallReachability TwoFiles.call).state =
      .callUnreachable := by decide +kernel
  refine (h hstate).1 ⟨_, List.mem_cons_self, {}, .name {} "run" .load, [], [], ?_, ?_⟩
  · exact List.mem_cons_of_mem _ List.mem_cons_self
  · decide +kernel

end TimeCodeSecurity.Reachability
