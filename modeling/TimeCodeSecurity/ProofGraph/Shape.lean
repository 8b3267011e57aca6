import TimeCodeSecurity.Foundations.Separators
import TimeCodeSecurity.ProofGraph.Build

/-! # When a proof graph is a path from its source to its sink

The builders number the nodes themselves and put the sink last, so what is left is a condition on the
value they are given. For a taint value: its nodes have to start with the source or hold none, their
ids have to differ, and its edges have to lead from the first node to the last one. The values of one
flow satisfy it (`wellFormed_of_flow`); a value put together from several, as that of an f-string, has
no edge from the flow of the first source to the sink. For a provenance value the sort by lines has to
leave the source in front.
-/
namespace TimeCodeSecurity.ProofGraph
open Py Scanner Trails
set_option autoImplicit false

def ProofEdge.ends (e : ProofEdge) : String × String := (e.fromNodeId, e.toNodeId)

def nodeIds (nodes : List ProofNode) : List String := nodes.map (·.nodeId)

structure ProofGraphIR.WellFormed (g : ProofGraphIR) : Prop where
  sourceFirst : g.nodes.head?.map (·.nodeType) = some .source
  sinkLast : g.nodes.getLast?.map (·.nodeType) = some .sink
  distinctIds : (nodeIds g.nodes).Nodup
  numbered : ∀ (i : ℕ) (n : ProofNode), g.nodes[i]? = some n → n.stepIndex = i
  edgesInside : ∀ e ∈ g.edges, e.fromNodeId ∈ nodeIds g.nodes ∧ e.toNodeId ∈ nodeIds g.nodes
  connected : ∀ a b, (nodeIds g.nodes).head? = some a → (nodeIds g.nodes).getLast? = some b →
    Reaches (g.edges.map ProofEdge.ends) a b

theorem nodeIds_reindexed (nodes : List ProofNode) : nodeIds (reindexed nodes) = nodeIds nodes := by
  refine List.ext_getElem? fun i => ?_
  simp only [nodeIds, reindexed, List.getElem?_map, List.getElem?_mapIdx, Option.map_map]
  rfl

theorem nodeTypes_reindexed (nodes : List ProofNode) :
    (reindexed nodes).map (·.nodeType) = nodes.map (·.nodeType) := by
  refine List.ext_getElem? fun i => ?_
  simp only [reindexed, List.getElem?_map, List.getElem?_mapIdx, Option.map_map]
  rfl

theorem stepIndex_reindexed {nodes : List ProofNode} {i : ℕ} {n : ProofNode}
    (h : (reindexed nodes)[i]? = some n) : n.stepIndex = i := by
  rw [reindexed, List.getElem?_mapIdx] at h
  obtain ⟨m, -, rfl⟩ := Option.map_eq_some_iff.mp h
  rfl

theorem ends_chainEdges (nodes : List ProofNode) :
    (chainEdges nodes).map ProofEdge.ends = consecutive (nodeIds nodes) := by
  rw [chainEdges, List.map_map, nodeIds, consecutive_map]
  rfl

theorem inside_chainEdges {nodes : List ProofNode} {e : ProofEdge} (h : e ∈ chainEdges nodes) :
    e.fromNodeId ∈ nodeIds nodes ∧ e.toNodeId ∈ nodeIds nodes := by
  have hmem : e.ends ∈ consecutive (nodeIds nodes) := by
    rw [← ends_chainEdges]
    exact List.mem_map_of_mem h
  exact mem_of_mem_consecutive hmem

theorem connected_chainEdges {nodes : List ProofNode} {a b : String}
    (ha : (nodeIds nodes).head? = some a) (hb : (nodeIds nodes).getLast? = some b) :
    Reaches ((chainEdges nodes).map ProofEdge.ends) a b := by
  rw [ends_chainEdges]
  obtain ⟨rest, hrest⟩ := List.head?_eq_some_iff.mp ha
  rw [hrest] at hb ⊢
  exact reaches_consecutive rest a hb

theorem take_tag_append (type : ProofNodeType) (l : List Char) :
    (type.tag.toList ++ l).take 2 = type.tag.toList.take 2 := by
  have hlength : 2 ≤ type.tag.toList.length := by cases type <;> decide
  exact List.take_append_of_le_length hlength

theorem tag_take_inj {type type' : ProofNodeType}
    (h : type.tag.toList.take 2 = type'.tag.toList.take 2) : type = type' := by
  cases type <;> cases type' <;> first
    | rfl
    | exact absurd h (by decide)

theorem nodeIdOf_inj {type type' : ProofNodeType} {file file' symbol symbol' : String}
    {line line' step step' : ℕ}
    (h : nodeIdOf type file line symbol step = nodeIdOf type' file' line' symbol' step') :
    type = type' ∧ step = step' := by
  have hlist := congrArg String.toList h
  simp only [nodeIdOf, String.toList_append] at hlist
  constructor
  · have hhead := congrArg (List.take 2) hlist
    simp only [List.append_assoc, take_tag_append] at hhead
    exact tag_take_inj hhead
  · -- the digits behind the last number sign
    have hdigits : ∀ n : ℕ, '#' ∉ (Nat.repr n).toList := by
      intro n hmem
      rw [Nat.toList_repr] at hmem
      exact absurd (Nat.isDigit_of_mem_toDigits (by omega) (by omega) hmem) (by decide)
    have hsep : ∀ l r : List Char, l ++ "#".toList ++ r = l ++ '#' :: r := fun l r => by simp
    rw [hsep, hsep] at hlist
    have hrepr := (Separators.suffix_inj (hdigits step) (hdigits step') hlist).2
    rw [Nat.toList_repr, Nat.toList_repr] at hrepr
    have hvalue := congrArg (fun ds => Nat.ofDigitChars 10 ds 0) hrepr
    simpa using hvalue

/-! ## Taint values -/

def joins (edges : List ProofEdge) (last sinkId : String) : List (String × String) :=
  edges.map ProofEdge.ends ++ [(last, sinkId)]

def departure (edges : List (String × String)) (first second : String) : String :=
  if edges.any fun e => e.1 = first then first else second

def taintIds (S : Scan) (taint : TaintValue) (sink : SecurityNode) (record : SinkRecord) :
    List String :=
  nodeIds (graphNodes S taint sink record ++ [sinkNode S sink record taint.proofNodes.length])

/-- The condition on a taint value and the place it flows to. -/
structure Traceable (S : Scan) (taint : TaintValue) (sink : SecurityNode) (record : SinkRecord) :
    Prop where
  /-- The first node is the source, or the source of the value is recorded, or no node is one. -/
  rooted : taint.proofNodes.head?.any (fun n => n.nodeType = .source) = true ∨
    (recordedSource S taint.sourceId).isSome = true ∨ hasSource taint.proofNodes = false
  distinct : (taintIds S taint sink record).Nodup
  inside : ∀ e ∈ taint.proofEdges, e.fromNodeId ∈ taintIds S taint sink record ∧
    e.toNodeId ∈ taintIds S taint sink record
  /-- The edges and the hop from the last node lead to the sink. -/
  led : taint.proofEdges ≠ [] → ∀ first second rest last sinkId,
    taintIds S taint sink record = first :: second :: rest →
    (taintIds S taint sink record).dropLast.getLast? = some last →
    (taintIds S taint sink record).getLast? = some sinkId →
    Reaches (joins taint.proofEdges last sinkId)
      (departure (joins taint.proofEdges last sinkId) first second) sinkId

theorem assumedSourceNode_nodeType (S : Scan) (sink : SecurityNode) (record : SinkRecord)
    (trace : List String) : (assumedSourceNode S sink record trace).nodeType = .source := by
  unfold assumedSourceNode
  dsimp only
  split <;> rfl

theorem graphNodes_ne_nil (S : Scan) (taint : TaintValue) (sink : SecurityNode)
    (record : SinkRecord) : graphNodes S taint sink record ≠ [] := by
  have hany : ∀ nodes : List ProofNode,
      (if hasSource nodes then nodes else assumedSourceNode S sink record taint.path :: nodes) ≠
        [] := by
    intro nodes
    by_cases hsource : hasSource nodes = true
    · rw [if_pos hsource]
      rintro rfl
      cases hsource
    · rw [if_neg hsource]
      exact List.cons_ne_nil _ _
  exact hany _

theorem graphNodes_head (S : Scan) (taint : TaintValue) (sink : SecurityNode)
    (record : SinkRecord) :
    (graphNodes S taint sink record).head?.map (·.nodeType) = some .source ↔
      taint.proofNodes.head?.any (fun n => n.nodeType = .source) = true ∨
        (recordedSource S taint.sourceId).isSome = true ∨ hasSource taint.proofNodes = false := by
  have hany : taint.proofNodes.head?.any (fun n => n.nodeType = .source) = true ↔
      taint.proofNodes.head?.map (·.nodeType) = some .source := by
    cases taint.proofNodes.head? <;> simp
  have hmem : taint.proofNodes.head?.map (·.nodeType) = some .source →
      hasSource taint.proofNodes = true := by
    intro hfirst
    obtain ⟨n, hn, htype⟩ := Option.map_eq_some_iff.mp hfirst
    exact List.any_eq_true.mpr ⟨n, List.mem_of_mem_head? hn, by simpa using htype⟩
  unfold graphNodes
  by_cases hfirst : taint.proofNodes.head?.map (·.nodeType) = some .source
  · have hhead := hany.mpr hfirst
    simp only [hhead, hmem hfirst, if_true, true_or, iff_true]
    exact hfirst
  have hhead : ¬ taint.proofNodes.head?.any (fun n => n.nodeType = .source) = true :=
    fun h => hfirst (hany.mp h)
  simp only [hhead]
  cases recordedSource S taint.sourceId with
  | some src => simp [hasSource, recordedSourceNode, createProofNode]
  | none =>
    by_cases hsource : hasSource taint.proofNodes = true
    · simpa [hsource] using hfirst
    · simp [hsource, assumedSourceNode_nodeType]

theorem extendedEdges_reaches {edges : List ProofEdge} {nodes : List ProofNode}
    {first second last sinkId : String} {rest : List String}
    (hids : nodeIds nodes = first :: second :: rest)
    (hlast : (nodeIds nodes).dropLast.getLast? = some last) (hne : first ≠ sinkId) :
    Reaches ((extendedEdges edges nodes sinkId).map ProofEdge.ends) first sinkId ↔
      Reaches (joins edges last sinkId) (departure (joins edges last sinkId) first second)
        sinkId := by
  obtain ⟨n, tail, rfl, rfl, htail⟩ := List.map_eq_cons_iff.mp hids
  obtain ⟨m, tail, rfl, rfl, -⟩ := List.map_eq_cons_iff.mp htail
  rw [nodeIds, ← List.map_dropLast, List.getLast?_map] at hlast
  obtain ⟨incoming, hincoming, rfl⟩ := Option.map_eq_some_iff.mp hlast
  simp only [extendedEdges, hincoming]
  set sinkEdge : ProofEdge := ⟨incoming.nodeId, sinkId, ProofNodeType.sink.value⟩
  set all := if sinkEdge ∈ edges then edges else edges ++ [sinkEdge] with hall
  have hends : ∀ e, e ∈ all.map ProofEdge.ends ↔ e ∈ joins edges incoming.nodeId sinkId := by
    intro e
    have hsink : sinkEdge.ends = (incoming.nodeId, sinkId) := rfl
    rw [joins, hall]
    by_cases hmem : sinkEdge ∈ edges
    · rw [if_pos hmem, List.mem_append, List.mem_singleton]
      refine ⟨.inl, fun h => h.elim id fun heq => ?_⟩
      rw [heq, ← hsink]
      exact List.mem_map_of_mem hmem
    · rw [if_neg hmem, List.map_append]
      rfl
  have hleaves : all.any (fun e => e.fromNodeId = n.nodeId) =
      (joins edges incoming.nodeId sinkId).any (fun e => e.1 = n.nodeId) := by
    rw [Bool.eq_iff_iff, List.any_eq_true, List.any_eq_true]
    constructor
    · rintro ⟨e, he, hfrom⟩
      exact ⟨e.ends, (hends _).mp (List.mem_map_of_mem he), hfrom⟩
    · rintro ⟨p, hp, hfrom⟩
      obtain ⟨e, he, rfl⟩ := List.mem_map.mp ((hends p).mpr hp)
      exact ⟨e, he, hfrom⟩
  rw [departure, ← hleaves]
  by_cases hout : all.any (fun e => e.fromNodeId = n.nodeId) = true
  · rw [if_pos hout, if_pos hout]
    exact reaches_congr hends
  · rw [if_neg hout, if_neg hout, List.map_cons]
    have hnone : ∀ y, (n.nodeId, y) ∉ all.map ProofEdge.ends := by
      intro y hy
      obtain ⟨e, he, heq⟩ := List.mem_map.mp hy
      exact hout (List.any_eq_true.mpr ⟨e, he, by simpa [ProofEdge.ends] using congrArg Prod.fst heq⟩)
    exact (reaches_of_reaches_cons hnone hne).trans (reaches_congr hends)

theorem extendedEdges_inside {edges : List ProofEdge} {nodes : List ProofNode} {sinkId : String}
    (hsink : sinkId ∈ nodeIds nodes) :
    (∀ e ∈ extendedEdges edges nodes sinkId,
      e.fromNodeId ∈ nodeIds nodes ∧ e.toNodeId ∈ nodeIds nodes) ↔
      ∀ e ∈ edges, e.fromNodeId ∈ nodeIds nodes ∧ e.toNodeId ∈ nodeIds nodes := by
  unfold extendedEdges
  split
  next first second rest incoming hincoming =>
    have hin : incoming.nodeId ∈ nodeIds (first :: second :: rest) :=
      List.mem_map_of_mem (List.dropLast_subset _ (List.mem_of_mem_getLast? hincoming))
    have hfirst : first.nodeId ∈ nodeIds (first :: second :: rest) :=
      List.mem_map_of_mem List.mem_cons_self
    have hsecond : second.nodeId ∈ nodeIds (first :: second :: rest) :=
      List.mem_map_of_mem (List.mem_cons_of_mem _ List.mem_cons_self)
    constructor
    · intro h e he
      refine h e ?_
      have hmem : ∀ l : List ProofEdge, e ∈ l → e ∈ l ++ [⟨incoming.nodeId, sinkId,
        ProofNodeType.sink.value⟩] := fun l hl => List.mem_append_left _ hl
      dsimp only
      split <;> split
      · exact he
      · exact List.mem_cons_of_mem _ he
      · exact hmem edges he
      · exact List.mem_cons_of_mem _ (hmem edges he)
    · intro h
      have hsinkEdge : ∀ e ∈ edges ++ [(⟨incoming.nodeId, sinkId, ProofNodeType.sink.value⟩ :
          ProofEdge)], e.fromNodeId ∈ nodeIds (first :: second :: rest) ∧
          e.toNodeId ∈ nodeIds (first :: second :: rest) := by
        intro e he
        rcases List.mem_append.mp he with he | he
        · exact h e he
        · rw [List.mem_singleton.mp he]
          exact ⟨hin, hsink⟩
      dsimp only
      split <;> split
      · exact h
      · exact List.forall_mem_cons.mpr ⟨⟨hfirst, hsecond⟩, h⟩
      · exact hsinkEdge
      · exact List.forall_mem_cons.mpr ⟨⟨hfirst, hsecond⟩, hsinkEdge⟩
  next => exact Iff.rfl

theorem ne_last_of_nodup {α : Type} {first second last : α} {rest : List α} (hnodup : (first :: second :: rest).Nodup)
    (hlast : (first :: second :: rest).getLast? = some last) : first ≠ last := by
  have hmem : last ∈ second :: rest := List.mem_of_mem_getLast? (by simpa using hlast)
  rintro rfl
  exact (List.nodup_cons.mp hnodup).1 hmem

theorem buildProofGraph_wellFormed_iff (S : Scan) (taint : TaintValue) (sink : SecurityNode)
    (record : SinkRecord) (cwe : String) :
    (buildProofGraph S taint sink record cwe).WellFormed ↔ Traceable S taint sink record := by
  set last := sinkNode S sink record taint.proofNodes.length with hlast
  set before := graphNodes S taint sink record with hbefore
  have hnodes : (buildProofGraph S taint sink record cwe).nodes = reindexed (before ++ [last]) := rfl
  have hids : nodeIds (buildProofGraph S taint sink record cwe).nodes =
      taintIds S taint sink record := nodeIds_reindexed _
  have hedges : (buildProofGraph S taint sink record cwe).edges =
      graphEdges taint.proofEdges (reindexed (before ++ [last])) last.nodeId := rfl
  have hne : before ≠ [] := graphNodes_ne_nil S taint sink record
  have hlastId : (taintIds S taint sink record).getLast? = some last.nodeId := by
    simp [taintIds, nodeIds, ← hlast]
  have hsinkMem : last.nodeId ∈ nodeIds (reindexed (before ++ [last])) := by
    rw [nodeIds_reindexed]
    exact List.mem_map_of_mem (by simp)
  have hfirst : (buildProofGraph S taint sink record cwe).nodes.head?.map (·.nodeType) =
      before.head?.map (·.nodeType) := by
    rw [hnodes, ← List.head?_map, nodeTypes_reindexed, List.head?_map]
    cases hb : before with
    | nil => exact absurd hb hne
    | cons n rest => rfl
  have hsinkLast : (buildProofGraph S taint sink record cwe).nodes.getLast?.map (·.nodeType) =
      some .sink := by
    rw [hnodes, ← List.getLast?_map, nodeTypes_reindexed, List.getLast?_map]
    simp [hlast, sinkNode, createProofNode]
  have hinside : (∀ e ∈ (buildProofGraph S taint sink record cwe).edges,
      e.fromNodeId ∈ taintIds S taint sink record ∧ e.toNodeId ∈ taintIds S taint sink record) ↔
      ∀ e ∈ taint.proofEdges,
        e.fromNodeId ∈ taintIds S taint sink record ∧ e.toNodeId ∈ taintIds S taint sink record := by
    rw [hedges, ← hids, hnodes, graphEdges]
    split
    next hnil => simp only [hnil, List.not_mem_nil, false_implies, implies_true, iff_true]
                 exact fun e he => inside_chainEdges he
    next => exact extendedEdges_inside hsinkMem
  constructor
  · intro h
    have hnodup : (taintIds S taint sink record).Nodup := hids ▸ h.distinctIds
    refine ⟨(graphNodes_head S taint sink record).mp (hfirst ▸ h.sourceFirst), hnodup,
      hinside.mp (hids ▸ h.edgesInside), ?_⟩
    intro hsome first second rest pen sinkId hlist hpen hsinkId
    obtain rfl : last.nodeId = sinkId := Option.some.inj (hlastId.symm.trans hsinkId)
    have hconn := h.connected first last.nodeId (by rw [hids, hlist]; rfl) (by rw [hids, hlastId])
    have hdiff : first ≠ last.nodeId := ne_last_of_nodup (hlist ▸ hnodup) (hlist ▸ hlastId)
    rw [hedges, graphEdges, if_neg hsome] at hconn
    exact (extendedEdges_reaches (by rw [← hnodes, hids, hlist]) (by rw [← hnodes, hids, hpen])
      hdiff).mp hconn
  · intro h
    refine ⟨hfirst.trans ((graphNodes_head S taint sink record).mpr h.rooted), hsinkLast,
      hids ▸ h.distinct, fun i n hn => stepIndex_reindexed hn, hids ▸ hinside.mpr h.inside, ?_⟩
    intro a b ha hb
    rw [hedges, graphEdges]
    by_cases hnil : taint.proofEdges = []
    · rw [if_pos hnil]
      exact connected_chainEdges ha hb
    rw [if_neg hnil]
    rw [hids] at ha hb
    obtain rfl : last.nodeId = b := Option.some.inj (hlastId.symm.trans hb)
    -- the source and the sink are two nodes
    obtain ⟨n, tail, hcons⟩ := List.exists_cons_of_ne_nil hne
    have hcat : taintIds S taint sink record = n.nodeId :: nodeIds (tail ++ [last]) := by
      rw [taintIds, ← hlast, ← hbefore, hcons]
      rfl
    have hbehind : nodeIds (tail ++ [last]) ≠ [] := by simp [nodeIds]
    obtain ⟨second, rest, hrest⟩ := List.exists_cons_of_ne_nil hbehind
    have hlist : taintIds S taint sink record = n.nodeId :: second :: rest := by rw [hcat, hrest]
    obtain rfl : n.nodeId = a := by
      rw [hlist] at ha
      exact Option.some.inj ha
    have hpen : ∃ pen, (taintIds S taint sink record).dropLast.getLast? = some pen := by
      rw [hlist]
      cases rest with
      | nil => exact ⟨n.nodeId, rfl⟩
      | cons x rest => exact ⟨_, by rw [List.dropLast_cons_cons, List.getLast?_cons]⟩
    obtain ⟨pen, hpen⟩ := hpen
    have hdiff : n.nodeId ≠ last.nodeId := ne_last_of_nodup (hlist ▸ h.distinct) (hlist ▸ hlastId)
    exact (extendedEdges_reaches (by rw [← hnodes, hids, hlist]) (by rw [← hnodes, hids, hpen])
      hdiff).mpr (h.led hnil n.nodeId second rest pen last.nodeId hlist hpen hlastId)

/-! ## The values of one flow -/

def Labelled (n : ProofNode) : Prop :=
  ∃ file line symbol, n.nodeId = nodeIdOf n.nodeType file line symbol n.stepIndex

theorem labelled_createProofNode (S : Scan) (step : ℕ) (type : ProofNodeType) (file : String)
    (node : Option Node) (symbol scopeId : String) (lineno : ℕ) (overrideSnippet : String) :
    Labelled (createProofNode S step type file node symbol scopeId lineno overrideSnippet) :=
  ⟨file, startLineOf lineno node, symbol, rfl⟩

theorem Labelled.inj {n m : ProofNode} (hn : Labelled n) (hm : Labelled m)
    (h : n.nodeId = m.nodeId) : n.nodeType = m.nodeType ∧ n.stepIndex = m.stepIndex := by
  obtain ⟨file, line, symbol, hn⟩ := hn
  obtain ⟨file', line', symbol', hm⟩ := hm
  rw [hn, hm] at h
  exact nodeIdOf_inj h

theorem nodup_nodeIds {nodes : List ProofNode} (hlabel : ∀ n ∈ nodes, Labelled n)
    (hsteps : (nodes.map (·.stepIndex)).Nodup) : (nodeIds nodes).Nodup := by
  induction nodes with
  | nil => exact List.nodup_nil
  | cons n nodes ih =>
    rw [List.map_cons, List.nodup_cons] at hsteps
    rw [nodeIds, List.map_cons, List.nodup_cons]
    refine ⟨fun hmem => hsteps.1 ?_, ih (fun m hm => hlabel m (List.mem_cons_of_mem _ hm)) hsteps.2⟩
    obtain ⟨m, hm, heq⟩ := List.mem_map.mp hmem
    have hsame := (hlabel m (List.mem_cons_of_mem _ hm)).inj (hlabel n List.mem_cons_self) heq
    exact List.mem_map.mpr ⟨m, hm, hsame.2⟩

/-- A value that one source call gives and hops carry on. -/
inductive Flow (S : Scan) : TaintValue → Prop
  | source (sourceId file symbol scopeId : String) (node : Expr) :
    Flow S (sourceTaint S sourceId file symbol scopeId node)
  | hop {t : TaintValue} (h : Flow S t) (type : ProofNodeType) (file : String) (node : Option Node)
      (symbol scopeId : String) (lineno : ℕ) (overrideSnippet edgeType operation : String) :
    Flow S (t.hop S type file node symbol scopeId lineno overrideSnippet edgeType operation)

structure Linear (t : TaintValue) : Prop where
  source : t.proofNodes.head?.map (·.nodeType) = some .source
  labelled : ∀ n ∈ t.proofNodes, Labelled n
  steps : t.proofNodes.map (·.stepIndex) = List.range t.proofNodes.length
  edges : t.proofEdges.map ProofEdge.ends = consecutive (nodeIds t.proofNodes)

theorem Flow.linear {S : Scan} {t : TaintValue} (h : Flow S t) : Linear t := by
  induction h with
  | source sourceId file symbol scopeId node =>
    refine ⟨rfl, ?_, rfl, rfl⟩
    intro n hn
    rw [List.mem_singleton.mp hn]
    exact labelled_createProofNode S 0 .source file (some (.expr node)) symbol scopeId 0 ""
  | @hop t _ type file node symbol scopeId lineno snippet edgeType operation ih =>
    have hne : t.proofNodes ≠ [] := by
      intro hnil
      have hsource := ih.source
      rw [hnil] at hsource
      cases hsource
    obtain ⟨last, hlast⟩ := Option.isSome_iff_exists.mp
      (Option.isSome_iff_ne_none.mpr fun hnone => hne (List.getLast?_eq_none_iff.mp hnone))
    refine ⟨?_, ?_, ?_, ?_⟩
    · obtain ⟨n, tail, hcons⟩ := List.exists_cons_of_ne_nil hne
      have hsource := ih.source
      rw [hcons] at hsource
      simpa [TaintValue.hop, hcons] using hsource
    · intro n hn
      rcases List.mem_append.mp hn with hn | hn
      · exact ih.labelled n hn
      · rw [List.mem_singleton.mp hn]
        exact labelled_createProofNode S _ type file node symbol scopeId lineno snippet
    · simp [TaintValue.hop, ih.steps, List.range_succ, createProofNode]
    · have hids : (nodeIds t.proofNodes).getLast? = some last.nodeId := by
        rw [nodeIds, List.getLast?_map, hlast]
        rfl
      simp only [TaintValue.hop, hlast, Option.map_some, Option.toList_some, List.map_append, ih.edges,
        nodeIds, List.map_cons, List.map_nil]
      exact (consecutive_concat hids).symm

/-- The graph of a value of one flow is a path. -/
theorem wellFormed_of_flow {S : Scan} {taint : TaintValue} (h : Flow S taint) (sink : SecurityNode)
    (record : SinkRecord) (cwe : String) :
    (buildProofGraph S taint sink record cwe).WellFormed := by
  have hlin := h.linear
  have hhead : taint.proofNodes.head?.any (fun n => n.nodeType = .source) = true := by
    have hsource := hlin.source
    cases hfirst : taint.proofNodes.head? with
    | none => rw [hfirst] at hsource; cases hsource
    | some n => rw [hfirst] at hsource; simpa using hsource
  have hsource : hasSource taint.proofNodes = true := by
    obtain ⟨n, hn, htype⟩ := Option.map_eq_some_iff.mp hlin.source
    exact List.any_eq_true.mpr ⟨n, List.mem_of_mem_head? hn, by simpa using htype⟩
  have hnodes : graphNodes S taint sink record = taint.proofNodes := by
    unfold graphNodes
    simp only [hhead, hsource, if_true]
  set last := sinkNode S sink record taint.proofNodes.length with hlast
  have hids : taintIds S taint sink record = nodeIds taint.proofNodes ++ [last.nodeId] := by
    rw [taintIds, hnodes, ← hlast, nodeIds, List.map_append]
    rfl
  rw [buildProofGraph_wellFormed_iff]
  refine ⟨.inl hhead, ?_, ?_, ?_⟩
  · rw [taintIds, hnodes, ← hlast]
    refine nodup_nodeIds ?_ ?_
    · intro n hn
      rcases List.mem_append.mp hn with hn | hn
      · exact hlin.labelled n hn
      · rw [List.mem_singleton.mp hn]
        exact labelled_createProofNode _ _ _ _ _ _ _ _ _
    · have hstep : last.stepIndex = taint.proofNodes.length := rfl
      rw [List.map_append, hlin.steps, List.map_singleton, hstep, ← List.range_succ]
      exact List.nodup_range
  · intro e he
    have hmem : e.ends ∈ consecutive (nodeIds taint.proofNodes) := by
      rw [← hlin.edges]
      exact List.mem_map_of_mem he
    obtain ⟨h1, h2⟩ := mem_of_mem_consecutive hmem
    rw [hids]
    exact ⟨List.mem_append_left _ h1, List.mem_append_left _ h2⟩
  · intro hsome first second rest pen sinkId hlist hpen hsink
    rw [hids, List.dropLast_concat] at hpen
    rw [hids, List.getLast?_concat] at hsink
    obtain rfl : last.nodeId = sinkId := Option.some.inj hsink
    have hjoins : joins taint.proofEdges pen last.nodeId =
        consecutive (taintIds S taint sink record) := by
      rw [joins, hlin.edges, hids, consecutive_concat hpen]
    rw [hjoins, hlist, consecutive_cons]
    have hout : departure ((first, second) :: consecutive (second :: rest)) first second = first := by
      simp [departure]
    rw [hout, ← consecutive_cons]
    refine reaches_consecutive (second :: rest) first ?_
    rw [← hlist, hids, List.getLast?_concat]

/-- `a = input()` and then `os.system(a)`. -/
theorem wellFormed_of_one_hop :
    (buildProofGraph { tracker := {} }
      ((sourceTaint { tracker := {} } "SRC-1" "app.py" "input" "app:global" (.name {} "a" .load)).hop
        { tracker := {} } .assignment "app.py" none "a" "app:global" 1 "a = input()" "ASSIGNMENT" "variable:a")
      ⟨"SNK-1", "os.system", ⟨"app.py", 2⟩⟩ ⟨.name {} "a" .load, 2, "app:global"⟩ "CWE-78").WellFormed :=
  wellFormed_of_flow (.hop (.source _ _ _ _ _) _ _ _ _ _ _ _ _ _) _ _ _

/-! ## Provenance values -/

def sourceLine (S : Scan) (prov : ProvenanceValue) (sink : SecurityNode) (record : SinkRecord) : ℕ :=
  match recordedSource S prov.sourceId with
  | some src => startLineOf src.location.lineStart none
  | none => (assumedSourceNode S sink record prov.sourceTrace).startLine

def tracedBefore (S : Scan) (prov : ProvenanceValue) (record : SinkRecord) :
    List ((String × String) × AssignmentRecord) :=
  (tracedAssignments S prov.sourceTrace).filter fun a => a.2.lineno ≤ record.lineno

/-- The source stands on no later line than the sink and the traced assignments, whatever their
files. -/
def SourceFirst (S : Scan) (prov : ProvenanceValue) (sink : SecurityNode) (record : SinkRecord) :
    Prop :=
  sourceLine S prov sink record ≤ record.lineno ∧
    ∀ a ∈ tracedBefore S prov record, sourceLine S prov sink record ≤ a.2.lineno

instance (S : Scan) (prov : ProvenanceValue) (sink : SecurityNode) (record : SinkRecord) :
    Decidable (SourceFirst S prov sink record) :=
  inferInstanceAs (Decidable (sourceLine S prov sink record ≤ record.lineno ∧
    ∀ a ∈ tracedBefore S prov record, sourceLine S prov sink record ≤ a.2.lineno))

/-- What the loop over the trace puts behind the nodes `start`. -/
structure Assigned (record : SinkRecord) (start : List ProofNode)
    (seen : List ((String × String) × AssignmentRecord)) (added : List ProofNode) : Prop where
  types : ∀ n ∈ added, n.nodeType = .assignment
  labelled : ∀ n ∈ added, Labelled n
  steps : added.map (·.stepIndex) = List.range' start.length added.length
  lines : ∀ n ∈ added, ∃ a ∈ seen, a.2.lineno ≤ record.lineno ∧ n.startLine = a.2.lineno
  covers : ∀ a ∈ seen, a.2.lineno ≤ record.lineno → ∃ n ∈ start ++ added, n.startLine = a.2.lineno

theorem Assigned.add {S : Scan} {record : SinkRecord} {start added : List ProofNode}
    {seen : List ((String × String) × AssignmentRecord)} (h : Assigned record start seen added)
    {a : (String × String) × AssignmentRecord} (hline : 1 ≤ a.2.lineno) :
    ∃ added', addAssignment S record (start ++ added) a = start ++ added' ∧
      Assigned record start (seen ++ [a]) added' := by
  have hlines : ∀ n ∈ added, ∃ b ∈ seen ++ [a], b.2.lineno ≤ record.lineno ∧
      n.startLine = b.2.lineno := by
    intro n hn
    obtain ⟨b, hb, hrest⟩ := h.lines n hn
    exact ⟨b, List.mem_append_left _ hb, hrest⟩
  unfold addAssignment
  by_cases hbefore : a.2.lineno ≤ record.lineno
  · rw [if_pos hbefore]
    by_cases hthere : (start ++ added).any (fun n => n.symbol = a.1.2 ∧ n.startLine = a.2.lineno) =
        true
    · -- a node for this line is there already
      rw [if_pos hthere]
      refine ⟨added, rfl, h.types, h.labelled, h.steps, hlines, ?_⟩
      intro b hb hle
      rcases List.mem_append.mp hb with hb | hb
      · exact h.covers b hb hle
      · obtain ⟨n, hn, hsame⟩ := List.any_eq_true.mp hthere
        rw [List.mem_singleton.mp hb]
        exact ⟨n, hn, (of_decide_eq_true hsame).2⟩
    · rw [if_neg hthere, List.append_assoc]
      set n := assignmentNode S a.1.1 a.1.2 a.2 (start ++ added).length with hn
      have hstart : n.startLine = a.2.lineno := by
        have hne : a.2.lineno ≠ 0 := by omega
        simp [hn, assignmentNode, createProofNode, startLineOf, hne]
      refine ⟨added ++ [n], rfl, ?_, ?_, ?_, ?_, ?_⟩
      · intro m hm
        rcases List.mem_append.mp hm with hm | hm
        · exact h.types m hm
        · rw [List.mem_singleton.mp hm]
          rfl
      · intro m hm
        rcases List.mem_append.mp hm with hm | hm
        · exact h.labelled m hm
        · rw [List.mem_singleton.mp hm]
          exact labelled_createProofNode _ _ _ _ _ _ _ _ _
      · have hstep : n.stepIndex = start.length + added.length := by
          simp [hn, assignmentNode, createProofNode]
        rw [List.map_append, h.steps, List.map_singleton, hstep, List.length_append,
          List.length_singleton, List.range'_concat, Nat.one_mul]
      · intro m hm
        rcases List.mem_append.mp hm with hm | hm
        · exact hlines m hm
        · rw [List.mem_singleton.mp hm]
          exact ⟨a, by simp, hbefore, hstart⟩
      · intro b hb hle
        rcases List.mem_append.mp hb with hb | hb
        · obtain ⟨m, hm, hsame⟩ := h.covers b hb hle
          refine ⟨m, ?_, hsame⟩
          rw [← List.append_assoc]
          exact List.mem_append_left _ hm
        · rw [List.mem_singleton.mp hb]
          exact ⟨n, by simp, hstart⟩
  · rw [if_neg hbefore]
    refine ⟨added, rfl, h.types, h.labelled, h.steps, hlines, ?_⟩
    intro b hb hle
    rcases List.mem_append.mp hb with hb | hb
    · exact h.covers b hb hle
    · rw [List.mem_singleton.mp hb] at hle
      exact absurd hle hbefore

theorem exists_assigned (S : Scan) (record : SinkRecord) (start : List ProofNode)
    (items : List ((String × String) × AssignmentRecord)) (hlines : ∀ a ∈ items, 1 ≤ a.2.lineno) :
    ∃ added, items.foldl (addAssignment S record) start = start ++ added ∧
      Assigned record start items added := by
  induction items using List.reverseRecOn with
  | nil =>
    refine ⟨[], by simp, by simp, by simp, rfl, by simp, by simp⟩
  | append_singleton items a ih =>
    obtain ⟨added, heq, h⟩ := ih fun b hb => hlines b (List.mem_append_left _ hb)
    rw [List.foldl_append, heq]
    exact h.add (hlines a (by simp))

structure PathParts (S : Scan) (prov : ProvenanceValue) (sink : SecurityNode) (record : SinkRecord)
    (src last : ProofNode) (added : List ProofNode) : Prop where
  nodes : pathNodes S prov sink record = src :: (added ++ [last])
  srcType : src.nodeType = .source
  srcLabelled : Labelled src
  srcLine : src.startLine = sourceLine S prov sink record
  lastType : last.nodeType = .sink
  lastLabelled : Labelled last
  lastLine : record.lineno ≠ 0 → last.startLine = record.lineno
  types : ∀ n ∈ added, n.nodeType = .assignment
  labelled : ∀ n ∈ added, Labelled n
  steps : (added.map (·.stepIndex)).Nodup
  lines : ∀ n ∈ added, ∃ a ∈ tracedBefore S prov record, n.startLine = a.2.lineno
  covers : ∀ a ∈ tracedBefore S prov record, ∃ n ∈ src :: added, n.startLine = a.2.lineno

theorem assumedSourceNode_labelled (S : Scan) (sink : SecurityNode) (record : SinkRecord)
    (trace : List String) : Labelled (assumedSourceNode S sink record trace) := by
  unfold assumedSourceNode
  dsimp only
  split <;> exact labelled_createProofNode _ _ _ _ _ _ _ _ _

theorem sinkNode_startLine {S : Scan} {sink : SecurityNode} {record : SinkRecord} (step : ℕ)
    (h : record.lineno ≠ 0) : (sinkNode S sink record step).startLine = record.lineno := by
  simp [sinkNode, createProofNode, startLineOf, h]

theorem exists_pathParts (S : Scan) (prov : ProvenanceValue) (sink : SecurityNode)
    (record : SinkRecord) (hlines : ∀ r ∈ S.tracker.assignments, 1 ≤ r.lineno) :
    ∃ src last added, PathParts S prov sink record src last added := by
  have hitems : ∀ a ∈ tracedAssignments S prov.sourceTrace, 1 ≤ a.2.lineno := by
    intro a ha
    obtain ⟨item, -, ha⟩ := List.mem_flatMap.mp ha
    obtain ⟨r, hr, rfl⟩ := List.mem_map.mp ha
    obtain ⟨scope, -, hr⟩ := List.mem_flatMap.mp hr
    exact hlines r (List.mem_filter.mp hr).1
  have hparts : ∀ (src : ProofNode) (start added : List ProofNode) (step : ℕ),
      pathNodes S prov sink record = src :: (added ++ [sinkNode S sink record step]) →
      src.nodeType = .source → Labelled src → src.startLine = sourceLine S prov sink record →
      (∀ n ∈ start, n = src) →
      Assigned record start (tracedAssignments S prov.sourceTrace) added →
      PathParts S prov sink record src (sinkNode S sink record step) added := by
    intro src start added step hnodes htype hlabel hline hstart h
    refine ⟨hnodes, htype, hlabel, hline, rfl, labelled_createProofNode _ _ _ _ _ _ _ _ _,
      sinkNode_startLine step, h.types, h.labelled, ?_, ?_, ?_⟩
    · rw [h.steps]
      exact List.nodup_range'
    · intro n hn
      obtain ⟨a, ha, hle, hsame⟩ := h.lines n hn
      exact ⟨a, List.mem_filter.mpr ⟨ha, by simpa using hle⟩, hsame⟩
    · intro a ha
      obtain ⟨ha, hle⟩ := List.mem_filter.mp ha
      obtain ⟨n, hn, hsame⟩ := h.covers a ha (by simpa using hle)
      refine ⟨n, ?_, hsame⟩
      rcases List.mem_append.mp hn with hn | hn
      · rw [hstart n hn]
        exact List.mem_cons_self
      · exact List.mem_cons_of_mem _ hn
  cases hrec : recordedSource S prov.sourceId with
  | some src =>
    obtain ⟨added, hfold, h⟩ := exists_assigned S record [recordedSourceNode S src ""] _ hitems
    refine ⟨_, _, added, hparts (recordedSourceNode S src "") _ added
      ([recordedSourceNode S src ""] ++ added).length ?_ rfl
      (labelled_createProofNode _ _ _ _ _ _ _ _ _) ?_ ?_ h⟩
    · simp only [pathNodes, hrec, Option.map_some, Option.toList_some, hfold]
      rw [if_pos (by simp [hasSource, recordedSourceNode, createProofNode])]
      rfl
    · simp [sourceLine, hrec, recordedSourceNode, createProofNode]
    · intro n hn
      exact List.mem_singleton.mp hn
  | none =>
    obtain ⟨added, hfold, h⟩ := exists_assigned S record [] _ hitems
    have hnone : hasSource added = false := by
      refine List.any_eq_false.mpr fun n hn => ?_
      simp [h.types n hn]
    refine ⟨_, _, added, hparts (assumedSourceNode S sink record prov.sourceTrace) [] added
      (assumedSourceNode S sink record prov.sourceTrace :: added).length ?_
      (assumedSourceNode_nodeType _ _ _ _) (assumedSourceNode_labelled _ _ _ _) ?_ (by simp) h⟩
    · simp only [pathNodes, hrec, Option.map_none, Option.toList_none, hfold, List.nil_append,
        hnone, Bool.false_eq_true, if_false]
      rfl
    · simp [sourceLine, hrec]

theorem PathParts.nodup {S : Scan} {prov : ProvenanceValue} {sink : SecurityNode}
    {record : SinkRecord} {src last : ProofNode} {added : List ProofNode}
    (h : PathParts S prov sink record src last added) :
    (nodeIds (src :: (added ++ [last]))).Nodup := by
  have hadded : (nodeIds added).Nodup := nodup_nodeIds h.labelled h.steps
  have hlast : ∀ n ∈ added, n.nodeId ≠ last.nodeId := by
    intro n hn heq
    have hsame := ((h.labelled n hn).inj h.lastLabelled heq).1
    rw [h.types n hn, h.lastType] at hsame
    cases hsame
  have hsrc : ∀ n ∈ added, n.nodeId ≠ src.nodeId := by
    intro n hn heq
    have hsame := ((h.labelled n hn).inj h.srcLabelled heq).1
    rw [h.types n hn, h.srcType] at hsame
    cases hsame
  have hends : last.nodeId ≠ src.nodeId := by
    intro heq
    have hsame := (h.lastLabelled.inj h.srcLabelled heq).1
    rw [h.lastType, h.srcType] at hsame
    cases hsame
  rw [nodeIds, List.map_cons, List.map_append, List.nodup_cons, List.nodup_append]
  refine ⟨?_, hadded, List.nodup_singleton _, ?_⟩
  · intro hmem
    rcases List.mem_append.mp hmem with hmem | hmem
    · obtain ⟨n, hn, heq⟩ := List.mem_map.mp hmem
      exact hsrc n hn heq
    · exact hends (List.mem_singleton.mp hmem).symm
  · intro a ha b hb
    obtain ⟨n, hn, rfl⟩ := List.mem_map.mp ha
    rw [List.map_singleton] at hb
    rw [List.mem_singleton.mp hb]
    exact hlast n hn

/-! ## The sort by lines -/

instance : Std.Total lineOrder where
  total a b := by
    unfold lineOrder
    omega

instance : IsTrans ProofNode lineOrder where
  trans a b c hab hbc := by
    unfold lineOrder at *
    omega

theorem sorted_head {nodes : List ProofNode} {first : ProofNode}
    (h : (nodes.insertionSort lineOrder).head? = some first) :
    first ∈ nodes ∧ ∀ n ∈ nodes, n = first ∨ lineOrder first n := by
  obtain ⟨rest, hcons⟩ := List.head?_eq_some_iff.mp h
  have hsorted := List.pairwise_insertionSort lineOrder nodes
  rw [hcons, List.pairwise_cons] at hsorted
  refine ⟨(List.mem_insertionSort lineOrder).mp (hcons ▸ List.mem_cons_self), ?_⟩
  intro n hn
  have hmem : n ∈ first :: rest := hcons ▸ (List.mem_insertionSort lineOrder).mpr hn
  rcases List.mem_cons.mp hmem with heq | hmem
  · exact .inl heq
  · exact .inr (hsorted.1 n hmem)

theorem sorted_getLast {nodes : List ProofNode} {last : ProofNode}
    (h : (nodes.insertionSort lineOrder).getLast? = some last) :
    last ∈ nodes ∧ ∀ n ∈ nodes, n = last ∨ lineOrder n last := by
  obtain ⟨front, hcat⟩ := List.getLast?_eq_some_iff.mp h
  have hsorted := List.pairwise_insertionSort lineOrder nodes
  rw [hcat, List.pairwise_append] at hsorted
  refine ⟨(List.mem_insertionSort lineOrder).mp (hcat ▸ by simp), ?_⟩
  intro n hn
  have hmem : n ∈ front ++ [last] := hcat ▸ (List.mem_insertionSort lineOrder).mpr hn
  rcases List.mem_append.mp hmem with hmem | hmem
  · exact .inr (hsorted.2.2 n hmem last (List.mem_singleton_self _))
  · exact .inl (List.mem_singleton.mp hmem)

theorem PathParts.mem_cases {src last n : ProofNode} {added : List ProofNode}
    (hn : n ∈ src :: (added ++ [last])) : n = src ∨ n ∈ added ∨ n = last := by
  rcases List.mem_cons.mp hn with hn | hn
  · exact .inl hn
  · rcases List.mem_append.mp hn with hn | hn
    · exact .inr (.inl hn)
    · exact .inr (.inr (List.mem_singleton.mp hn))

theorem PathParts.between {S : Scan} {prov : ProvenanceValue} {sink : SecurityNode}
    {record : SinkRecord} {src last n : ProofNode} {added : List ProofNode}
    (h : PathParts S prov sink record src last added) (hlast : last.startLine = record.lineno)
    (hsource : SourceFirst S prov sink record) (hn : n ∈ src :: (added ++ [last])) :
    src.startLine ≤ n.startLine ∧ n.startLine ≤ last.startLine := by
  obtain ⟨hsink, hassigned⟩ := hsource
  rw [← h.srcLine] at hsink hassigned
  rcases PathParts.mem_cases hn with rfl | hmem | rfl
  · exact ⟨le_refl _, hlast ▸ hsink⟩
  · obtain ⟨a, ha, hline⟩ := h.lines n hmem
    have hle : a.2.lineno ≤ record.lineno := by simpa using (List.mem_filter.mp ha).2
    rw [hline, hlast]
    exact ⟨hassigned a ha, hle⟩
  · exact ⟨hlast ▸ hsink, le_refl _⟩

theorem eq_source_of_typeOrder_le {t : ProofNodeType} (h : typeOrder t ≤ typeOrder .source) : t = .source := by
  cases t <;> simp [typeOrder] at h
  rfl

theorem eq_sink_of_le_typeOrder {t : ProofNodeType} (h : typeOrder .sink ≤ typeOrder t) : t = .sink := by
  cases t <;> simp [typeOrder] at h
  rfl

theorem buildCwe22ProofGraph_wellFormed_iff (S : Scan) (prov : ProvenanceValue)
    (sink : SecurityNode) (record : SinkRecord) (hrecord : 1 ≤ record.lineno)
    (hlines : ∀ r ∈ S.tracker.assignments, 1 ≤ r.lineno) :
    (buildCwe22ProofGraph S prov sink record).WellFormed ↔ SourceFirst S prov sink record := by
  obtain ⟨src, last, added, h⟩ := exists_pathParts S prov sink record hlines
  have hlastLine : last.startLine = record.lineno := h.lastLine (by omega)
  set sorted := (src :: (added ++ [last])).insertionSort lineOrder with hsorted
  have hnodes : (buildCwe22ProofGraph S prov sink record).nodes = reindexed sorted := by
    rw [hsorted, ← h.nodes]
    rfl
  have hne : sorted ≠ [] := by
    intro hnil
    have hmem : src ∈ sorted := (List.mem_insertionSort lineOrder).mpr List.mem_cons_self
    rw [hnil] at hmem
    cases hmem
  obtain ⟨first, hfirst⟩ : ∃ first, sorted.head? = some first :=
    Option.ne_none_iff_exists'.mp fun hnone => hne (List.head?_eq_none_iff.mp hnone)
  obtain ⟨final, hfinal⟩ : ∃ final, sorted.getLast? = some final :=
    Option.ne_none_iff_exists'.mp fun hnone => hne (List.getLast?_eq_none_iff.mp hnone)
  obtain ⟨hfirstMem, hfirstLeast⟩ := sorted_head hfirst
  obtain ⟨hfinalMem, hfinalMost⟩ := sorted_getLast hfinal
  have hsrcMem : src ∈ src :: (added ++ [last]) := List.mem_cons_self
  have hlastMem : last ∈ src :: (added ++ [last]) := by simp
  have hheadType : (buildCwe22ProofGraph S prov sink record).nodes.head?.map (·.nodeType) =
      some first.nodeType := by
    rw [hnodes, ← List.head?_map, nodeTypes_reindexed, List.head?_map, hfirst]
    rfl
  have hlastType : (buildCwe22ProofGraph S prov sink record).nodes.getLast?.map (·.nodeType) =
      some final.nodeType := by
    rw [hnodes, ← List.getLast?_map, nodeTypes_reindexed, List.getLast?_map, hfinal]
    rfl
  constructor
  · intro hwf
    have htype : first.nodeType = .source :=
      Option.some.inj (hheadType.symm.trans hwf.sourceFirst)
    -- the only source among the nodes is the one put in front
    obtain rfl : first = src := by
      rcases PathParts.mem_cases hfirstMem with heq | hmem | heq
      · exact heq
      · rw [h.types first hmem] at htype
        cases htype
      · rw [heq, h.lastType] at htype
        cases htype
    have hleast : ∀ n ∈ first :: (added ++ [last]), first.startLine ≤ n.startLine := by
      intro n hn
      rcases hfirstLeast n hn with rfl | hle
      · exact le_refl _
      · unfold lineOrder at hle
        omega
    rw [SourceFirst, ← h.srcLine]
    refine ⟨hlastLine ▸ hleast last hlastMem, ?_⟩
    intro a ha
    obtain ⟨n, hn, hline⟩ := h.covers a ha
    rw [← hline]
    refine hleast n ?_
    rcases List.mem_cons.mp hn with rfl | hn
    · exact List.mem_cons_self
    · exact List.mem_cons_of_mem _ (List.mem_append_left _ hn)
  · intro hsource
    have hfirstType : first.nodeType = .source := by
      rcases hfirstLeast src hsrcMem with rfl | hle
      · exact h.srcType
      · have hge := (h.between hlastLine hsource hfirstMem).1
        have horder : typeOrder first.nodeType ≤ typeOrder src.nodeType := by
          unfold lineOrder at hle
          omega
        exact eq_source_of_typeOrder_le (h.srcType ▸ horder)
    have hfinalType : final.nodeType = .sink := by
      rcases hfinalMost last hlastMem with rfl | hle
      · exact h.lastType
      · have hge := (h.between hlastLine hsource hfinalMem).2
        have horder : typeOrder last.nodeType ≤ typeOrder final.nodeType := by
          unfold lineOrder at hle
          omega
        exact eq_sink_of_le_typeOrder (h.lastType ▸ horder)
    have hids : nodeIds (buildCwe22ProofGraph S prov sink record).nodes = nodeIds sorted := by
      rw [hnodes, nodeIds_reindexed]
    have hedges : (buildCwe22ProofGraph S prov sink record).edges =
        chainEdges (buildCwe22ProofGraph S prov sink record).nodes := rfl
    refine ⟨by rw [hheadType, hfirstType], by rw [hlastType, hfinalType], ?_, ?_, ?_, ?_⟩
    · rw [hids, nodeIds]
      exact ((List.perm_insertionSort lineOrder _).map _).nodup_iff.mpr h.nodup
    · intro i n hn
      rw [hnodes] at hn
      exact stepIndex_reindexed hn
    · intro e he
      rw [hedges] at he
      exact inside_chainEdges he
    · intro a b ha hb
      rw [hedges]
      exact connected_chainEdges ha hb

/-- **Proof graphs.** For every taint value, every provenance value and every sink: the graph is well
formed exactly under the condition of its builder. Lines count from one. -/
theorem proofGraphs_wellFormed_iff (S : Scan) (sink : SecurityNode) (record : SinkRecord)
    (hrecord : 1 ≤ record.lineno) (hlines : ∀ r ∈ S.tracker.assignments, 1 ≤ r.lineno) :
    (∀ taint cwe, (buildProofGraph S taint sink record cwe).WellFormed ↔
      Traceable S taint sink record) ∧
    ∀ prov, (buildCwe22ProofGraph S prov sink record).WellFormed ↔
      SourceFirst S prov sink record :=
  ⟨fun taint cwe => buildProofGraph_wellFormed_iff S taint sink record cwe,
    fun prov => buildCwe22ProofGraph_wellFormed_iff S prov sink record hrecord hlines⟩

/-- The theorem at a call of `open` in a handler whose path variable is assigned on line 2: the
function stands before the assignment, so the graph is a path. -/
theorem proofGraphs_wellFormed_iff_handler :
    (buildCwe22ProofGraph
      { tracker :=
          { assignments := [⟨"path", .name {} "name" .load, 2, "app:function:view", false⟩]
            functions := [("app:function:view",
              .functionDef {} false "view" { args := [{ arg := "name" }] } [] [] none)] } }
      { sourceTrace := ["app.py:path"] } ⟨"SNK-1", "open", ⟨"app.py", 3⟩⟩
      ⟨.call {} (.name {} "open" .load) [.name {} "path" .load] [], 3, "app:function:view"⟩).WellFormed :=
  ((proofGraphs_wellFormed_iff _ _ _ (by decide) (by decide)).2 _).mpr (by decide)

/-- `f"{a}{b}"` with `a` and `b` from two source calls: no edge leads from the flow of `a` to the
sink. -/
theorem wellFormed_fails_on_two_sources :
    ¬ ∀ (S : Scan) (file : String) (t u : TaintValue) (sink : SecurityNode) (record : SinkRecord)
      (cwe : String), Flow S t → Flow S u →
        (buildProofGraph S (formattedTaint file t [u]) sink record cwe).WellFormed := by
  intro h
  let S : Scan := { tracker := {} }
  let source : ℕ → Expr := fun line => .call { lineno := line, endLineno := line } (.name {} "input" .load) [] []
  let value : String → ℕ → TaintValue := fun id line =>
    (sourceTaint S "SRC-1" "app.py" "input" "app:global" (source line)).throughVariable S
      (fun _ => "input()") "app.py" id ⟨id, source line, line, "app:global", false⟩
  have hflow : ∀ id line, Flow S (value id line) := fun id line => .hop (.source _ _ _ _ _) _ _ _ _ _ _ _ _ _
  have hwf := h S "app.py" (value "a" 1) (value "b" 2) ⟨"SNK-1", "os.system", ⟨"app.py", 3⟩⟩
    ⟨.call {} (.name {} "system" .load) [] [], 3, "app:global"⟩ "CWE-78" (hflow _ _) (hflow _ _)
  have hconn := hwf.connected "source:app.py:1:input#0" "sink:app.py:3:os.system#4" (by decide) (by decide)
  -- what is reached from the first source are its own two nodes
  have hstay := mem_of_reaches
    (p := fun id => id = "source:app.py:1:input#0" ∨ id = "assignment:app.py:1:a#1")
    (by decide) hconn (.inl rfl)
  exact absurd hstay (by decide)

end TimeCodeSecurity.ProofGraph
