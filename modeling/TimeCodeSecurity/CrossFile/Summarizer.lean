import TimeCodeSecurity.CrossFile.CallerAnalysis
import TimeCodeSecurity.Contracts.ProgramOrder
import TimeCodeSecurity.DefUse.BodyPaths

/-! # Function summaries

`function_summarizer.py`, `_summarize_function`: one sweep over the statements of a body, each walked
breadth-first, with a map from names to the parameters they were derived from. Sets of indices are lists
without repetition. The name and line of the function, which nothing reads again, are left out.
-/
namespace TimeCodeSecurity.CrossFile
open Py
set_option autoImplicit false

def summarySinks : List (String × String) :=
  [("execute", "CWE-89"), ("executemany", "CWE-89"), ("raw", "CWE-89"), ("system", "CWE-78"),
    ("popen", "CWE-78"), ("check_output", "CWE-78"), ("call", "CWE-78"), ("run", "CWE-78"),
    ("eval", "CWE-95"), ("exec", "CWE-94"), ("loads", "CWE-502"), ("load", "CWE-502"), ("open", "CWE-22")]

def hasStaticDecorator (decorators : List Expr) : Bool :=
  decorators.any fun
    | .name _ id _ => id = "staticmethod"
    | .attr _ _ attr _ => attr = "staticmethod"
    | _ => false

def constStr : Expr → Option String
  | .constant _ (.str s) => some s
  | _ => none

/-- The container and the literal key of `kwargs["k"]`, `kwargs.get("k")` and `kwargs.pop("k")`. -/
def kwargSlot (container : Option String) : Node → Option (String × String)
  | .expr (.subscript _ (.name _ id _) slice _) =>
    if container = some id then (constStr slice).map (id, ·) else none
  | .expr (.call _ (.attr _ (.name _ id _) attr _) (arg :: _) _) =>
    if attr ∈ ["get", "pop"] ∧ container = some id then (constStr arg).map (id, ·) else none
  | _ => none

def slotName (slot : String × String) : String := slot.1 ++ "[" ++ slot.2 ++ "]"

/-- The `**` parameter, and the slots for the keys that the function reads from it. -/
def kwargSlots (f : FuncNode) (params : List String) : Option String × List String :=
  match f.args.kwarg with
  | none => (none, [])
  | some kwarg =>
    if kwarg.arg ∈ params then (none, [])
    else
      let read := f.node.walk.filterMap fun n => (kwargSlot (some kwarg.arg) n).map slotName
      (some kwarg.arg, read.foldl (fun slots s => if s = kwarg.arg ∨ s ∈ slots then slots else slots ++ [s]) [])

def opensWithReceiver (f : FuncNode) (isMethod : Bool) : Bool :=
  isMethod && !hasStaticDecorator f.decorators &&
    (f.args.args.head?.any fun a => a.arg ∈ ["self", "cls"])

def plainParams (f : FuncNode) (isMethod : Bool) : List String :=
  (if opensWithReceiver f isMethod then f.args.args.tail else f.args.args).map (·.arg)

def slotContainer (f : FuncNode) (isMethod : Bool) : Option String := (kwargSlots f (plainParams f isMethod)).1

def summaryParams (f : FuncNode) (isMethod : Bool) : List String :=
  plainParams f isMethod ++ (kwargSlots f (plainParams f isMethod)).2

abbrev AliasMap := Dict (List ℕ)

def heldBy (m : AliasMap) (x : String) : List ℕ := (m.lookup x).getD []

def startMap (params : List String) : AliasMap :=
  params.zipIdx.foldl (fun m p => m.insert p.1 [p.2]) ∅

def readKey (container : Option String) : Node → Option String
  | .expr (.name _ id _) => some id
  | n => (kwargSlot container n).map slotName

def refsOf (container : Option String) (e : Expr) : List String :=
  (Node.expr e).walk.filterMap (readKey container)

def resolveReferencedParams (container : Option String) (m : AliasMap) (e : Expr) : List ℕ :=
  (refsOf container e).foldl (fun found x => found ∪ heldBy m x) []

def injectable (cwe : String) (args : List Expr) : List Expr := if cwe = "CWE-89" then args.take 1 else args

def sinkEdge (params : List String) (c : CallNode) (cwe : String) (i : ℕ) : ParamSinkEdge :=
  { paramIdx := i, paramName := params.getD i "", sinkCwe := cwe, sinkName := calleeTail c.func, lineno := c.lineno }

def sinkEdges (params : List String) (container : Option String) (m : AliasMap) (c : CallNode) :
    List ParamSinkEdge :=
  match summarySinks.lookup (calleeTail c.func) with
  | none => []
  | some cwe =>
    (injectable cwe c.args).flatMap fun arg =>
      (resolveReferencedParams container m arg).map (sinkEdge params c cwe)

structure Sweep where
  aliasMap : AliasMap
  sanitized : List String := []
  returns : List Expr := []
  taintedReturns : List ℕ := []
  paramSinks : List ParamSinkEdge := []

def callsSanitizer : Expr → Bool
  | .call _ func _ _ => calleeTail func ∈ knownSanitizers
  | _ => false

def addDerived (m : AliasMap) (names : List String) (found : List ℕ) : AliasMap :=
  if found = [] then m else names.foldl (fun m x => m.insert x (heldBy m x ∪ found)) m

def sweepNode (params : List String) (container : Option String) (S : Sweep) : Node → Sweep
  | .stmt (.assign _ targets value) =>
    let names := targets.filterMap nameOf
    { S with
      sanitized := if callsSanitizer value then S.sanitized ∪ names else S.sanitized.filter (· ∉ names)
      aliasMap := addDerived S.aliasMap names (resolveReferencedParams container S.aliasMap value) }
  | .stmt (.ret _ (some value)) =>
    { S with
      returns := S.returns ++ [value]
      taintedReturns := S.taintedReturns ∪ resolveReferencedParams container S.aliasMap value }
  | .expr (.call pos func args keywords) =>
    { S with
      paramSinks := S.paramSinks ++ sinkEdges params container S.aliasMap ⟨pos.lineno, func, args, keywords⟩ }
  | _ => S

def sweep (params : List String) (container : Option String) (nodes : List Node) : Sweep :=
  nodes.foldl (sweepNode params container) { aliasMap := startMap params }

def sweptNodes (body : List Stmt) : List Node := body.flatMap fun s => (Node.stmt s).walk

def isSanitizedExpr (sanitizedLocals : List String) : Expr → Bool
  | .call _ func _ _ => calleeTail func ∈ knownSanitizers
  | .name _ id _ => id ∈ sanitizedLocals
  | _ => false

/-- `name.lower()`, of the letters a sanitizer is named with. -/
def lowerText (s : String) : String := String.ofList (s.toList.map Char.toLower)

def summarizeFunction (f : FuncNode) (filePath : String) (qualname : Option String) (isMethod : Bool) :
    FunctionSummary :=
  let params := summaryParams f isMethod
  let container := slotContainer f isMethod
  let S := sweep params container (sweptNodes f.body)
  let named := knownSanitizers.any (containsText (lowerText ((qualname.filter (· ≠ "")).getD f.name)))
  let propagating := S.returns.filter fun value => resolveReferencedParams container S.aliasMap value ≠ []
  let evident := !params.isEmpty && S.paramSinks.isEmpty && !propagating.isEmpty &&
    propagating.all (isSanitizedExpr S.sanitized)
  { filePath := filePath, params := params, taintedReturns := S.taintedReturns, paramSinks := S.paramSinks,
    isSanitizer := named || evident, takesReceiver := opensWithReceiver f isMethod }

/-! ## What the map holds -/

variable {params : List String} {container : Option String}

/-- Among the swept nodes a chain of assignments to names leads from parameter `i` to `x`. -/
inductive Derives (params : List String) (container : Option String) : List Node → String → ℕ → Prop
  | param {L x i} (h : i ∈ heldBy (startMap params) x) : Derives params container L x i
  | assign {before pos targets value after x y i} (hx : x ∈ targets.filterMap nameOf)
      (hy : y ∈ refsOf container value) (h : Derives params container before y i) :
      Derives params container (before ++ .stmt (.assign pos targets value) :: after) x i

theorem mem_resolve_iff (m : AliasMap) (e : Expr) (i : ℕ) :
    i ∈ resolveReferencedParams container m e ↔ ∃ y ∈ refsOf container e, i ∈ heldBy m y := by
  have hfold : ∀ (keys : List String) (found : List ℕ),
      i ∈ keys.foldl (fun found x => found ∪ heldBy m x) found ↔ i ∈ found ∨ ∃ y ∈ keys, i ∈ heldBy m y := by
    intro keys
    induction keys with
    | nil => simp
    | cons y keys ih =>
      intro found
      rw [List.foldl_cons, ih, List.mem_union_iff, or_assoc]
      simp
  rw [resolveReferencedParams, hfold]
  simp

theorem mem_addDerived_iff (m : AliasMap) (names : List String) (found : List ℕ) (x : String) (i : ℕ) :
    i ∈ heldBy (addDerived m names found) x ↔ i ∈ heldBy m x ∨ (x ∈ names ∧ i ∈ found) := by
  have hfold : ∀ m : AliasMap, i ∈ heldBy (names.foldl (fun m x => m.insert x (heldBy m x ∪ found)) m) x ↔
      i ∈ heldBy m x ∨ (x ∈ names ∧ i ∈ found) := by
    induction names with
    | nil => simp
    | cons y names ih =>
      intro m
      rw [List.foldl_cons, ih]
      have hinsert : i ∈ heldBy (m.insert y (heldBy m y ∪ found)) x ↔ i ∈ heldBy m x ∨ (x = y ∧ i ∈ found) := by
        by_cases hxy : x = y
        · subst hxy
          simp [heldBy]
        · simp [heldBy, AList.lookup_insert_ne hxy, hxy]
      rw [hinsert, List.mem_cons]
      tauto
  unfold addDerived
  split_ifs with hempty
  · simp [hempty]
  · exact hfold m

theorem sweep_concat (L : List Node) (n : Node) :
    sweep params container (L ++ [n]) = sweepNode params container (sweep params container L) n := by
  rw [sweep, List.foldl_append]
  rfl

theorem eq_or_before_of_concat {α : Type} {L before after : List α} {m n : α}
    (h : L ++ [n] = before ++ m :: after) :
    (L = before ∧ n = m) ∨ ∃ after', L = before ++ m :: after' := by
  rcases List.eq_nil_or_concat after with rfl | ⟨after', last, rfl⟩
  · obtain ⟨hL, hlast⟩ := List.append_inj' h rfl
    exact .inl ⟨hL, (List.cons_eq_cons.mp hlast).1⟩
  · rw [List.concat_eq_append, ← List.cons_append, ← List.append_assoc] at h
    exact .inr ⟨after', (List.append_inj' h rfl).1⟩

theorem derives_concat_iff (L : List Node) (n : Node) (x : String) (i : ℕ) :
    Derives params container (L ++ [n]) x i ↔ Derives params container L x i ∨
      ∃ pos targets value, n = .stmt (.assign pos targets value) ∧ x ∈ targets.filterMap nameOf ∧
        ∃ y ∈ refsOf container value, Derives params container L y i := by
  constructor
  · generalize hM : L ++ [n] = M
    intro h
    cases h with
    | param h => exact .inl (.param h)
    | @assign before pos targets value after _ y _ hx hy h =>
      rcases eq_or_before_of_concat hM with ⟨rfl, hn⟩ | ⟨after', rfl⟩
      · exact .inr ⟨pos, targets, value, hn, hx, y, hy, h⟩
      · exact .inl (.assign hx hy h)
  · rintro (h | ⟨pos, targets, value, rfl, hx, y, hy, h⟩)
    · cases h with
      | param h => exact .param h
      | assign hx hy h =>
        rw [List.append_assoc, List.cons_append]
        exact .assign hx hy h
    · exact .assign hx hy h

theorem mem_heldBy_sweep_iff (L : List Node) (x : String) (i : ℕ) :
    i ∈ heldBy (sweep params container L).aliasMap x ↔ Derives params container L x i := by
  induction L using List.reverseRecOn generalizing x with
  | nil =>
    constructor
    · exact fun h => .param h
    · generalize hM : ([] : List Node) = M
      intro h
      cases h with
      | param h => exact hM ▸ h
      | assign => simp at hM
  | append_singleton L n ih =>
    rw [sweep_concat, derives_concat_iff, ← ih]
    have hkept : (∀ pos targets value, n ≠ .stmt (.assign pos targets value)) →
        (sweepNode params container (sweep params container L) n).aliasMap = (sweep params container L).aliasMap := by
      intro hne
      unfold sweepNode
      split
      · exact absurd rfl (hne _ _ _)
      · rfl
      · rfl
      · rfl
    by_cases hassign : ∃ pos targets value, n = .stmt (.assign pos targets value)
    · obtain ⟨pos, targets, value, rfl⟩ := hassign
      have hstep : i ∈ heldBy (sweepNode params container (sweep params container L)
            (.stmt (.assign pos targets value))).aliasMap x ↔
          i ∈ heldBy (sweep params container L).aliasMap x ∨ (x ∈ targets.filterMap nameOf ∧
            i ∈ resolveReferencedParams container (sweep params container L).aliasMap value) :=
        mem_addDerived_iff _ _ _ x i
      rw [hstep, mem_resolve_iff]
      simp only [ih]
      constructor
      · rintro (h | ⟨hx, hy⟩)
        · exact .inl h
        · exact .inr ⟨pos, targets, value, rfl, hx, hy⟩
      · rintro (h | ⟨p, t, v, heq, hx, hy⟩)
        · exact .inl h
        · cases heq
          exact .inr ⟨hx, hy⟩
    · have hnone : ∀ pos targets value, n ≠ .stmt (.assign pos targets value) :=
        fun pos targets value heq => hassign ⟨pos, targets, value, heq⟩
      rw [hkept hnone]
      simp [hnone]

end TimeCodeSecurity.CrossFile

/-! ## Flows in program order and in the order of the sweep

A summary should have an edge for each flow from a parameter to a sink in program order. It has one for
each flow in the order of the sweep, over plain assignments to names; so it misses none exactly where every
flow of the program has a match there (`summary_complete_iff`).
-/
namespace TimeCodeSecurity.CrossFile
open Py
open Contracts (Spot Reaches Precedes)
open DefUse (targetBindings)

def assignedFrom : Node → List (String × Expr)
  | .stmt (.assign _ targets value) =>
    targets.flatMap fun t => (targetBindings (some value) t).map fun b => (b.name, b.value.getD value)
  | .stmt (.annAssign _ (.name _ id _) _ (some value)) => [(id, value)]
  | .stmt (.augAssign _ (.name _ id _) _ value) => [(id, value)]
  | .expr (.namedExpr _ (.name _ id _) value) => [(id, value)]
  | _ => []

def MadeBefore (f : FuncNode) (m spot : Spot) : Prop :=
  Precedes f m spot ∧ ¬ TreeWalk.Below Spot.parts m spot

/-- In program order `x` is assigned from parameter `i` before the spot, directly or through earlier
assignments, or is that parameter. -/
inductive Carries (f : FuncNode) (params : List String) (container : Option String) :
    Spot → String → ℕ → Prop
  | param {spot x i} (h : i ∈ heldBy (startMap params) x) : Carries f params container spot x i
  | assign {spot n inner x e y i} (hm : MadeBefore f (.visit n inner) spot) (hx : (x, e) ∈ assignedFrom n)
      (hy : y ∈ refsOf container e) (h : Carries f params container (.visit n inner) y i) :
      Carries f params container spot x i

def callNodeOf (pos : Pos) (func : Expr) (args : List Expr) (keywords : List (Keyword Expr)) : CallNode :=
  ⟨pos.lineno, func, args, keywords⟩

/-- A call of the function itself to a known sink gets parameter `i` in an injectable position. -/
def FlowsToSink (f : FuncNode) (params : List String) (container : Option String) (c : CallNode) (cwe : String)
    (i : ℕ) : Prop :=
  ∃ pos func args keywords inner, c = callNodeOf pos func args keywords ∧
    Reaches f (.visit (.expr (.call pos func args keywords)) inner) ∧
    summarySinks.lookup (calleeTail func) = some cwe ∧
    ∃ arg ∈ injectable cwe args, ∃ y ∈ refsOf container arg,
      Carries f params container (.visit (.expr (.call pos func args keywords)) inner) y i

/-- A `return` of the function itself gives back what parameter `i` reaches. -/
def FlowsToReturn (f : FuncNode) (params : List String) (container : Option String) (i : ℕ) : Prop :=
  ∃ pos value inner, Reaches f (.visit (.stmt (.ret pos (some value))) inner) ∧
    ∃ y ∈ refsOf container value, Carries f params container (.visit (.stmt (.ret pos (some value))) inner) y i

/-- The summary has an edge for each flow to a sink, and each flow to a return. -/
structure SummaryComplete (f : FuncNode) (filePath : String) (qualname : Option String) (isMethod : Bool) :
    Prop where
  sinks : ∀ c cwe i, FlowsToSink f (summaryParams f isMethod) (slotContainer f isMethod) c cwe i →
    sinkEdge (summaryParams f isMethod) c cwe i ∈ (summarizeFunction f filePath qualname isMethod).paramSinks
  returns : ∀ i, FlowsToReturn f (summaryParams f isMethod) (slotContainer f isMethod) i →
    i ∈ (summarizeFunction f filePath qualname isMethod).taintedReturns

/-! ## Flows of the sweep -/

/-- A call with the callee and the line of `c` gets parameter `i` in an injectable position, by assignments
swept before it. -/
def SweptToSink (nodes : List Node) (params : List String) (container : Option String) (c : CallNode)
    (cwe : String) (i : ℕ) : Prop :=
  ∃ before pos func args keywords after, nodes = before ++ .expr (.call pos func args keywords) :: after ∧
    calleeTail func = calleeTail c.func ∧ pos.lineno = c.lineno ∧
    summarySinks.lookup (calleeTail func) = some cwe ∧
    ∃ arg ∈ injectable cwe args, ∃ y ∈ refsOf container arg, Derives params container before y i

def SweptToReturn (nodes : List Node) (params : List String) (container : Option String) (i : ℕ) : Prop :=
  ∃ before pos value after, nodes = before ++ .stmt (.ret pos (some value)) :: after ∧
    ∃ y ∈ refsOf container value, Derives params container before y i

/-- Every flow of the program has a match in the order of the sweep. -/
structure SweptInOrder (f : FuncNode) (isMethod : Bool) : Prop where
  sinks : ∀ c cwe i, FlowsToSink f (summaryParams f isMethod) (slotContainer f isMethod) c cwe i →
    SweptToSink (sweptNodes f.body) (summaryParams f isMethod) (slotContainer f isMethod) c cwe i
  returns : ∀ i, FlowsToReturn f (summaryParams f isMethod) (slotContainer f isMethod) i →
    SweptToReturn (sweptNodes f.body) (summaryParams f isMethod) (slotContainer f isMethod) i

variable {params : List String} {container : Option String}

theorem mem_sinkEdges_iff (m : AliasMap) (c : CallNode) (e : ParamSinkEdge) :
    e ∈ sinkEdges params container m c ↔ ∃ cwe, summarySinks.lookup (calleeTail c.func) = some cwe ∧
      ∃ arg ∈ injectable cwe c.args, ∃ y ∈ refsOf container arg, ∃ i ∈ heldBy m y, e = sinkEdge params c cwe i := by
  unfold sinkEdges
  cases hsink : summarySinks.lookup (calleeTail c.func) with
  | none => simp
  | some cwe =>
    simp only [List.mem_flatMap, List.mem_map, mem_resolve_iff, Option.some.injEq, exists_eq_left']
    constructor
    · rintro ⟨arg, harg, i, ⟨y, hy, hi⟩, rfl⟩
      exact ⟨arg, harg, y, hy, i, hi, rfl⟩
    · rintro ⟨arg, harg, y, hy, i, hi, rfl⟩
      exact ⟨arg, harg, i, ⟨y, hy, hi⟩, rfl⟩

theorem mem_swept_iff {α : Type} (collected : Sweep → List α) (fresh : AliasMap → Node → List α)
    (hstart : collected { aliasMap := startMap params } = [])
    (hstep : ∀ S n a, a ∈ collected (sweepNode params container S n) ↔ a ∈ collected S ∨ a ∈ fresh S.aliasMap n)
    (L : List Node) (a : α) : a ∈ collected (sweep params container L) ↔
      ∃ before n after, L = before ++ n :: after ∧ a ∈ fresh (sweep params container before).aliasMap n := by
  induction L using List.reverseRecOn with
  | nil =>
    rw [sweep, List.foldl_nil, hstart]
    simp
  | append_singleton L n ih =>
    rw [sweep_concat, hstep, ih]
    constructor
    · rintro (⟨before, m, after, rfl, ha⟩ | ha)
      · exact ⟨before, m, after ++ [n], by simp, ha⟩
      · exact ⟨L, n, [], rfl, ha⟩
    · rintro ⟨before, m, after, hL, ha⟩
      rcases eq_or_before_of_concat hL with ⟨rfl, rfl⟩ | ⟨after', rfl⟩
      · exact .inr ha
      · exact .inl ⟨before, m, after', rfl, ha⟩

def freshEdges (params : List String) (container : Option String) (m : AliasMap) : Node → List ParamSinkEdge
  | .expr (.call pos func args keywords) => sinkEdges params container m (callNodeOf pos func args keywords)
  | _ => []

def freshReturns (container : Option String) (m : AliasMap) : Node → List ℕ
  | .stmt (.ret _ (some value)) => resolveReferencedParams container m value
  | _ => []

theorem mem_paramSinks_sweep_iff (L : List Node) (e : ParamSinkEdge) :
    e ∈ (sweep params container L).paramSinks ↔ ∃ before n after, L = before ++ n :: after ∧
      e ∈ freshEdges params container (sweep params container before).aliasMap n := by
  refine mem_swept_iff Sweep.paramSinks (freshEdges params container) rfl (fun S n a => ?_) L e
  unfold sweepNode
  split
  · simp [freshEdges]
  · simp [freshEdges]
  · simp [freshEdges, callNodeOf]
  next hassign hret hcall =>
    have hnone : freshEdges params container S.aliasMap n = [] := by
      unfold freshEdges
      split
      · exact (hcall _ _ _ _ rfl).elim
      · rfl
    simp [hnone]

theorem mem_taintedReturns_sweep_iff (L : List Node) (i : ℕ) :
    i ∈ (sweep params container L).taintedReturns ↔ ∃ before n after, L = before ++ n :: after ∧
      i ∈ freshReturns container (sweep params container before).aliasMap n := by
  refine mem_swept_iff Sweep.taintedReturns (freshReturns container) rfl (fun S n a => ?_) L i
  unfold sweepNode
  split
  · simp [freshReturns]
  · simp [freshReturns, List.mem_union_iff]
  · simp [freshReturns]
  next hassign hret hcall =>
    have hnone : freshReturns container S.aliasMap n = [] := by
      unfold freshReturns
      split
      · exact (hret _ _ rfl).elim
      · rfl
    simp [hnone]

theorem sinkEdge_mem_iff (L : List Node) (c : CallNode) (cwe : String) (i : ℕ) :
    sinkEdge params c cwe i ∈ (sweep params container L).paramSinks ↔ SweptToSink L params container c cwe i := by
  rw [mem_paramSinks_sweep_iff]
  constructor
  · rintro ⟨before, n, after, rfl, hfresh⟩
    unfold freshEdges at hfresh
    split at hfresh
    next pos func args keywords =>
      obtain ⟨cwe', hsink, arg, harg, y, hy, j, hj, heq⟩ := (mem_sinkEdges_iff _ _ _).mp hfresh
      obtain ⟨rfl, -, rfl, hname, hline⟩ := ParamSinkEdge.mk.inj heq
      exact ⟨before, pos, func, args, keywords, after, rfl, hname.symm, hline.symm, hsink, arg, harg, y, hy,
        (mem_heldBy_sweep_iff before y i).mp hj⟩
    next => cases hfresh
  · rintro ⟨before, pos, func, args, keywords, after, rfl, hname, hline, hsink, arg, harg, y, hy, hderives⟩
    refine ⟨before, _, after, rfl, (mem_sinkEdges_iff _ _ _).mpr ⟨cwe, hsink, arg, harg, y, hy, i, ?_, ?_⟩⟩
    · exact (mem_heldBy_sweep_iff before y i).mpr hderives
    · simp [sinkEdge, callNodeOf, hname, hline]

theorem taintedReturn_mem_iff (L : List Node) (i : ℕ) :
    i ∈ (sweep params container L).taintedReturns ↔ SweptToReturn L params container i := by
  rw [mem_taintedReturns_sweep_iff]
  constructor
  · rintro ⟨before, n, after, rfl, hfresh⟩
    unfold freshReturns at hfresh
    split at hfresh
    next pos value =>
      obtain ⟨y, hy, hi⟩ := (mem_resolve_iff _ _ _).mp hfresh
      exact ⟨before, pos, value, after, rfl, y, hy, (mem_heldBy_sweep_iff before y i).mp hi⟩
    next => cases hfresh
  · rintro ⟨before, pos, value, after, rfl, y, hy, hderives⟩
    exact ⟨before, _, after, rfl,
      (mem_resolve_iff _ _ _).mpr ⟨y, hy, (mem_heldBy_sweep_iff before y i).mpr hderives⟩⟩

/-- A summary has every flow of the program exactly when the sweep meets each in its order. -/
theorem summary_complete_iff (f : FuncNode) (filePath : String) (qualname : Option String) (isMethod : Bool) :
    SummaryComplete f filePath qualname isMethod ↔ SweptInOrder f isMethod := by
  constructor
  · rintro ⟨hsinks, hreturns⟩
    exact ⟨fun c cwe i h => (sinkEdge_mem_iff _ c cwe i).mp (hsinks c cwe i h),
      fun i h => (taintedReturn_mem_iff _ i).mp (hreturns i h)⟩
  · rintro ⟨hsinks, hreturns⟩
    exact ⟨fun c cwe i h => (sinkEdge_mem_iff _ c cwe i).mpr (hsinks c cwe i h),
      fun i h => (taintedReturn_mem_iff _ i).mpr (hreturns i h)⟩

def copyOfParam : Stmt := .assign { lineno := 5 } [.name {} "x" .store] (.name {} "p" .load)

def openOfCopy : Stmt :=
  .expr { lineno := 6 } (.call { lineno := 6 } (.name {} "open" .load) [.name {} "x" .load] [])

/-- `while b:` with `if c: x = p` in it. -/
def copyingLoop : Stmt :=
  .whileLoop { lineno := 3 } (.name {} "b" .load)
    [.ifStmt { lineno := 4 } (.name {} "c" .load) [copyOfParam] []] []

/-- `while a:` around that loop and then `open(x)`. -/
def deepCopy : FuncNode :=
  { pos := {}, name := "f", args := { args := [{ arg := "p" }] },
    body := [.whileLoop { lineno := 2 } (.name {} "a" .load) [copyingLoop, openOfCopy] []],
    decorators := [], returns := none, isAsync := false }

def openSpot : Spot :=
  .visit (.expr (.call { lineno := 6 } (.name {} "open" .load) [.name {} "x" .load] [])) []

theorem copy_madeBefore : MadeBefore deepCopy (.visit (.stmt copyOfParam) []) openSpot := by
  constructor
  · refine .inside (List.mem_singleton_self _) ?_
    let test : Spot := .visit (.expr (.name {} "a" .load)) []
    let sink : Spot := .visit (.stmt openOfCopy) []
    refine @TreeWalk.Before.apart _ _ [test] [sink] (.visit (.stmt copyingLoop) []) sink _ _
      (List.mem_singleton_self _) ?_ ?_
    · refine .head (b := Spot.visit (.stmt (.ifStmt { lineno := 4 } (.name {} "c" .load) [copyOfParam] [])) []) ?_
        (.single ?_)
      · exact List.mem_cons_of_mem _ (List.mem_singleton_self _)
      · exact List.mem_cons_of_mem _ (List.mem_singleton_self _)
    · exact .single (List.mem_singleton_self _)
  · intro h
    rcases TreeWalk.below_iff.mp h with heq | ⟨t, ht, h⟩
    · cases heq
    rcases List.mem_cons.mp ht with rfl | ht
    · rcases TreeWalk.below_iff.mp h with heq | ⟨t, ht, -⟩
      · cases heq
      · exact absurd ht List.not_mem_nil
    · obtain rfl := List.mem_singleton.mp ht
      rcases TreeWalk.below_iff.mp h with heq | ⟨t, ht, -⟩
      · cases heq
      · exact absurd ht List.not_mem_nil

/-- The walk meets `open(x)` at the third level and `x = p` at the fourth, and there is no edge. -/
theorem deeper_copy_missed : ¬ ∀ (f : FuncNode) (filePath : String) (qualname : Option String) (isMethod : Bool),
    SummaryComplete f filePath qualname isMethod := by
  intro h
  have hcarries : Carries deepCopy (summaryParams deepCopy false) (slotContainer deepCopy false) openSpot "x" 0 :=
    .assign (e := Expr.name {} "p" .load) (y := "p") copy_madeBefore (List.mem_singleton_self _) (by decide)
      (.param (by decide))
  have hreach : Reaches deepCopy openSpot := by
    refine ⟨_, List.mem_singleton_self _, .head (b := Spot.visit (.stmt openOfCopy) []) ?_ (.single ?_)⟩
    · exact List.mem_cons_of_mem _ (List.mem_cons_of_mem _ (List.mem_singleton_self _))
    · exact List.mem_singleton_self _
  have hnone : (summarizeFunction deepCopy "" none false).paramSinks = [] := by decide
  have hedge := (h deepCopy "" none false).sinks _ "CWE-22" 0
    ⟨_, _, _, _, [], rfl, hreach, by decide, _, List.mem_singleton_self _, "x", by decide, hcarries⟩
  rw [hnone] at hedge
  cases hedge

end TimeCodeSecurity.CrossFile
