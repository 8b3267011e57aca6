import Mathlib.Data.List.MinMax
import TimeCodeSecurity.ProofGraph.Build
import Mathlib.Algebra.Order.Ring.Unbundled.Rat

/-! # Joining taint values

`merge_taints`. The state and the confidence are those of the values in any order; the source is that of the
first value that is not clean, whatever its state.
-/
namespace TimeCodeSecurity.ProofGraph
open Scanner
set_option autoImplicit false

def mergeNodes (nodes : List ProofNode) : List ProofNode :=
  nodes.foldl (fun merged n => if merged.any (·.nodeId = n.nodeId) then merged else merged ++ [n]) []

def mergeEdges (edges : List ProofEdge) : List ProofEdge :=
  edges.foldl (fun merged e => if e ∈ merged then merged else merged ++ [e]) []

/-- `node_id.split(":")[0]`, where there is a colon. -/
def mergeFile (nodeId : String) : String :=
  if ':' ∈ nodeId.toList then String.ofList (nodeId.toList.takeWhile (· ≠ ':')) else "target.py"

/-- `node_id.split(":")[-1]`. -/
def mergeSymbol (nodeId : String) : String :=
  String.ofList (nodeId.toList.reverse.takeWhile (· ≠ ':')).reverse

def mergeNode (nodeId : String) (stepIdx : ℕ) : ProofNode :=
  let symName := mergeSymbol nodeId
  { nodeId := "assignment:" ++ mergeFile nodeId ++ ":0:" ++ symName ++ "#" ++ toString stepIdx
    stepIndex := stepIdx
    nodeType := if "return".toList.isPrefixOf symName.toList then .transform else .assignment
    filePath := mergeFile nodeId
    startLine := 1
    endLine := 1
    symbol := symName
    expressionSnippet := "merge(" ++ symName ++ ")"
    scopeId := mergeFile nodeId }

def isClean (t : TaintValue) : Bool := t.state = .clean

def isTainted (t : TaintValue) : Bool := t.state = .tainted

/-- `first_tainted`: the first value that is not clean. -/
def firstActive (taints : List TaintValue) : Option TaintValue := taints.find? (!isClean ·)

/-- `merge_taints`. The value with the most confidence among the tainted ones, `candidate`, is computed there
and not used. -/
def mergeTaints (taints : List TaintValue) (nodeId : String) : TaintValue :=
  if taints = [] then { state := .clean }
  else if taints.all isClean then
    { state := .clean, confidence := 1, lastOperation := some ("clean:" ++ nodeId) }
  else
    let active := taints.filter (!isClean ·)
    let nodes := mergeNodes (active.flatMap (·.proofNodes))
    let mergePn := mergeNode nodeId nodes.length
    let branches := active.filterMap fun t => t.proofNodes.getLast?.map fun n =>
      { fromNodeId := n.nodeId, toNodeId := mergePn.nodeId, edgeType := "BRANCH_MERGE" : ProofEdge }
    let sourceId := (firstActive taints).bind (·.sourceId)
    let path := active.flatMap (·.path) ++ [nodeId]
    let proofNodes := nodes ++ [mergePn]
    let proofEdges := mergeEdges (active.flatMap (·.proofEdges) ++ branches)
    if taints.all isTainted then
      { state := .tainted, sourceId, confidence := (taints.map (·.confidence)).min?.getD 1, path
        lastOperation := some ("merged:" ++ nodeId), proofNodes, proofEdges }
    else
      { state := .unknown, sourceId, confidence := 1 / 2, path
        lastOperation := some ("path_dependent:" ++ nodeId), proofNodes, proofEdges }

def joinedState (taints : List TaintValue) : TaintState :=
  if taints.all isClean then .clean else if taints.all isTainted then .tainted else .unknown

def joinedConfidence (taints : List TaintValue) : ℚ :=
  if taints.all isClean then 1
  else if taints.all isTainted then (taints.map (·.confidence)).min?.getD 1 else 1 / 2

theorem state_mergeTaints (taints : List TaintValue) (nodeId : String) :
    (mergeTaints taints nodeId).state = joinedState taints := by
  cases taints with
  | nil => rfl
  | cons t taints =>
    rw [mergeTaints, joinedState, if_neg (List.cons_ne_nil t taints)]
    split_ifs <;> rfl

theorem confidence_mergeTaints (taints : List TaintValue) (nodeId : String) :
    (mergeTaints taints nodeId).confidence = joinedConfidence taints := by
  cases taints with
  | nil => rfl
  | cons t taints =>
    rw [mergeTaints, joinedConfidence, if_neg (List.cons_ne_nil t taints)]
    split_ifs <;> rfl

theorem sourceId_mergeTaints (taints : List TaintValue) (nodeId : String) :
    (mergeTaints taints nodeId).sourceId = (firstActive taints).bind (·.sourceId) := by
  rw [mergeTaints]
  split_ifs with hnil hclean
  · rw [hnil]
    rfl
  · -- without an active value there is no source
    have hnone : firstActive taints = none := by
      rw [firstActive, List.find?_eq_none]
      intro t ht
      simp [List.all_eq_true.mp hclean t ht]
    rw [hnone]
    rfl
  · rfl
  · rfl

theorem perm_all {α : Type} {xs ys : List α} (h : xs.Perm ys) (p : α → Bool) : xs.all p = ys.all p := by
  rw [Bool.eq_iff_iff, List.all_eq_true, List.all_eq_true]
  exact forall_congr' fun x => imp_congr_left h.mem_iff

theorem perm_min? {xs ys : List ℚ} (h : xs.Perm ys) : xs.min? = ys.min? := by
  apply Option.ext
  intro a
  rw [List.min?_eq_some_iff, List.min?_eq_some_iff, h.mem_iff]
  exact and_congr_right fun _ => forall_congr' fun b => imp_congr_left h.mem_iff

theorem joinedState_perm {taints taints' : List TaintValue} (h : taints'.Perm taints) :
    joinedState taints' = joinedState taints := by
  rw [joinedState, joinedState, perm_all h, perm_all h]

theorem joinedConfidence_perm {taints taints' : List TaintValue} (h : taints'.Perm taints) :
    joinedConfidence taints' = joinedConfidence taints := by
  rw [joinedConfidence, joinedConfidence, perm_all h, perm_all h, perm_min? (h.map _)]

theorem all_clean_of_joinedState {taints : List TaintValue} (h : joinedState taints = .clean) :
    ∀ t ∈ taints, t.state = .clean := by
  rw [joinedState] at h
  split_ifs at h with hclean
  exact fun t ht => of_decide_eq_true (List.all_eq_true.mp hclean t ht)

theorem all_tainted_of_joinedState {taints : List TaintValue} (h : joinedState taints = .tainted) :
    ∀ t ∈ taints, t.state = .tainted := by
  rw [joinedState] at h
  split_ifs at h with _ htainted
  exact fun t ht => of_decide_eq_true (List.all_eq_true.mp htainted t ht)

def Sourced (t : TaintValue) : Prop := t.state = .tainted ∧ t.sourceId.isSome = true

/-- What is said of the join. -/
structure JoinsTaints (taints : List TaintValue) (nodeId : String) : Prop where
  state_order : ∀ taints', taints'.Perm taints →
    (mergeTaints taints' nodeId).state = (mergeTaints taints nodeId).state
  confidence_order : ∀ taints', taints'.Perm taints →
    (mergeTaints taints' nodeId).confidence = (mergeTaints taints nodeId).confidence
  clean : (mergeTaints taints nodeId).state = .clean → ∀ t ∈ taints, t.state = .clean
  tainted : (mergeTaints taints nodeId).state = .tainted → ∀ t ∈ taints, t.state = .tainted
  source : (∃ t ∈ taints, Sourced t) →
    ∃ t ∈ taints, Sourced t ∧ (mergeTaints taints nodeId).sourceId = t.sourceId

/-- Unless no tainted value has a source, the first value that is not clean has the source of one. -/
def FirstCarriesSource (taints : List TaintValue) : Prop :=
  (∃ t ∈ taints, Sourced t) →
    ∃ t ∈ taints, Sourced t ∧ (firstActive taints).bind (·.sourceId) = t.sourceId

/-- The join is as said exactly when the first value that is not clean has the source of a tainted one. -/
theorem joinsTaints_iff (taints : List TaintValue) (nodeId : String) :
    JoinsTaints taints nodeId ↔ FirstCarriesSource taints := by
  constructor
  · intro h hsourced
    obtain ⟨t, ht, hs, heq⟩ := h.source hsourced
    rw [sourceId_mergeTaints] at heq
    exact ⟨t, ht, hs, heq⟩
  · intro h
    refine ⟨fun taints' hperm => ?_, fun taints' hperm => ?_, fun hclean => ?_, fun htainted => ?_,
      fun hsourced => ?_⟩
    · rw [state_mergeTaints, state_mergeTaints, joinedState_perm hperm]
    · rw [confidence_mergeTaints, confidence_mergeTaints, joinedConfidence_perm hperm]
    · exact all_clean_of_joinedState ((state_mergeTaints taints nodeId).symm.trans hclean)
    · exact all_tainted_of_joinedState ((state_mergeTaints taints nodeId).symm.trans htainted)
    · obtain ⟨t, ht, hs, heq⟩ := h hsourced
      exact ⟨t, ht, hs, (sourceId_mergeTaints taints nodeId).trans heq⟩

/-- An unknown value without a source comes first and takes the source away. -/
theorem source_lost_behind_unknown :
    ¬ JoinsTaints [{ state := .unknown }, { state := .tainted, sourceId := some "SRC-1" }] "app.py:x" := by
  intro h
  have hlost := sourceId_mergeTaints
    [{ state := .unknown }, { state := .tainted, sourceId := some "SRC-1" }] "app.py:x"
  obtain ⟨t, ht, hs, heq⟩ := h.source ⟨{ state := .tainted, sourceId := some "SRC-1" },
    List.mem_cons_of_mem _ List.mem_cons_self, rfl, rfl⟩
  rw [hlost] at heq
  have hnone : t.sourceId = none := heq.symm
  exact absurd hs.2 (by rw [hnone]; exact Bool.false_ne_true)

end TimeCodeSecurity.ProofGraph
