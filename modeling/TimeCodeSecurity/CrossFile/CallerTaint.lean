import TimeCodeSecurity.CrossFile.CallerFilter
import TimeCodeSecurity.CrossFile.Summarizer
import TimeCodeSecurity.DefUse.Rebinding

/-! # Taint of a caller's variables

A variable is tainted when its most recent assignment was. The analysis of a caller keeps the names ever
given a value that looks tainted, and looks for them in the text of an argument. So what it reports is
tainted exactly where every argument that looks so is (`reports_follow_iff`).
-/
namespace TimeCodeSecurity.CrossFile
open Py
open DefUse (Taint exprReads boundNames)
open Execution (aliasName)
set_option autoImplicit false

/-- `request.GET` and the like, `self.request.GET` included. -/
def isSourceNode : Node → Bool
  | .expr (.attr _ (.name _ id _) attr _) => id = "request" && ("request." ++ attr) ∈ taintSourcePatterns
  | .expr (.attr _ (.attr _ _ inner _) attr _) =>
    inner = "request" && ("request." ++ attr) ∈ taintSourcePatterns
  | _ => false

def hasSource (e : Expr) : Bool := (Node.expr e).walk.any isSourceNode

def reallyTainted (σ : Taint) (e : Expr) : Bool := hasSource e || (exprReads e).any σ

def statementAssigns : Stmt → List (String × Option Expr)
  | .delete _ targets => (targets.flatMap boundNames).map (·, none)
  | .importStmt _ names | .importFrom _ _ names _ => names.map fun a => (aliasName a, none)
  | s =>
    ((s.children.flatMap fun n => n.walk.flatMap assignedFrom) ++ assignedFrom (.stmt s)).map fun p => (p.1, some p.2)

def isAugmented : Stmt → Bool
  | .augAssign .. => true
  | _ => false

section
variable (P : Project) (unparse : Expr → String) (st : PropState) (callerMod : String) (receivers : Receivers)

def givenTaint (σ : Taint) (value : Expr) : Bool :=
  match resolveCallContract P callerMod receivers value, callOf (.expr value) with
  | some callee, some c =>
    !((P.contracts.lookup callee).map FunctionSummary.isSanitizer).getD false &&
      (((P.contracts.lookup callee).map FunctionSummary.taintedReturns).getD []).any fun slot =>
        (((bindCallArgs c (P.params callee) (receiverOffset P callerMod c callee receivers))[slot]?).join).any
          (reallyTainted σ)
  | _, _ => reallyTainted σ value

def lastTaint (σ : Taint) (s : Stmt) : Taint := fun x =>
  match (statementAssigns s).reverse.find? (·.1 = x) with
  | none => σ x
  | some (_, none) => false
  | some (_, some e) => givenTaint P callerMod receivers σ e || (isAugmented s && σ x)

/-- The taint before statement `k`. -/
def taintBefore (f : FuncNode) (k : ℕ) : Taint :=
  (f.body.take k).foldl (lastTaint P callerMod receivers) fun x => x ∈ initialTaint f

def Hands (c : CallNode) (callee : FuncKey) (d : CallNode) (slot : ℕ) (arg : Expr) : Prop :=
  ((resolveCalleeContract P callerMod receivers c.func = some callee ∧ d = c) ∨
    (callee, d) ∈ resolveEventEmission P callerMod c) ∧
  ((bindCallArgs d (P.params callee) (receiverOffset P callerMod d callee receivers))[slot]?).join = some arg ∧
  slot ∉ decoratorSanitizedParams P callee ∧ ∃ sink ∈ st.sinks callee, sink.paramIdx = slot

/-- What is reported at statement `k`: the slot is among those the analysis takes for tainted. -/
def Reported (f : FuncNode) (k : ℕ) (c : CallNode) (callee : FuncKey) (d : CallNode) (slot : ℕ) (arg : Expr) :
    Prop :=
  ∃ tainted s, (taintedStatements P unparse callerMod receivers (initialTaint f) f.body)[k]? = some (tainted, s) ∧
    c ∈ callsIn (.stmt s) ∧ Hands P st callerMod receivers c callee d slot arg ∧
    slot ∈ taintedSlots P unparse callerMod d callee tainted receivers

/-- Every reported argument is tainted by the last assignments before its statement. -/
def ReportsFollow (f : FuncNode) : Prop :=
  ∀ k c callee d slot arg, Reported P unparse st callerMod receivers f k c callee d slot arg →
    reallyTainted (taintBefore P callerMod receivers f k) arg = true

/-- Before statement `k` the name is taken for tainted: a request parameter, or a target of some assignment
whose text mentions a source or a name taken for tainted, or whose contract returns one. -/
inductive TakenFor (f : FuncNode) : ℕ → String → Prop
  | param {k t} (h : t ∈ initialTaint f) : TakenFor f k t
  | source {j k pos targets value t} (hs : f.body[j]? = some (.assign pos targets value)) (hjk : j < k)
      (ht : t ∈ targets.filterMap nameOf) (h : mentionsSource (unparse value) = true) : TakenFor f k t
  | returned {j k pos targets value t callee c slot arg x} (hs : f.body[j]? = some (.assign pos targets value))
      (hjk : j < k) (ht : t ∈ targets.filterMap nameOf)
      (hcallee : resolveCallContract P callerMod receivers value = some callee) (hc : callOf (.expr value) = some c)
      (hsan : ((P.contracts.lookup callee).map FunctionSummary.isSanitizer).getD false = false)
      (hslot : slot ∈ ((P.contracts.lookup callee).map FunctionSummary.taintedReturns).getD [])
      (harg : ((bindCallArgs c (P.params callee) (receiverOffset P callerMod c callee receivers))[slot]?).join =
        some arg)
      (hx : x ∈ (Node.expr arg).walk.filterMap nodeName) (h : TakenFor f j x) : TakenFor f k t
  | mentioned {j k pos targets value t u} (hs : f.body[j]? = some (.assign pos targets value)) (hjk : j < k)
      (ht : t ∈ targets.filterMap nameOf)
      (hcallee : resolveCallContract P callerMod receivers value = none ∨ callOf (.expr value) = none)
      (hu : containsText (unparse value) u = true) (h : TakenFor f j u) : TakenFor f k t

def LooksTainted (f : FuncNode) (k : ℕ) (e : Expr) : Prop :=
  mentionsSource (unparse e) = true ∨
    ∃ t, TakenFor P unparse callerMod receivers f (k + 1) t ∧ containsText (unparse e) t = true

/-- Every argument handed to a sink that looks tainted is. -/
def LooksFollow (f : FuncNode) : Prop :=
  ∀ k s c callee d slot arg, f.body[k]? = some s → c ∈ callsIn (.stmt s) →
    Hands P st callerMod receivers c callee d slot arg → LooksTainted P unparse callerMod receivers f k arg →
    reallyTainted (taintBefore P callerMod receivers f k) arg = true

end

variable {P : Project} {unparse : Expr → String} {st : PropState} {callerMod : String} {receivers : Receivers}

theorem reported_finding {f : FuncNode} {file q : String} {k : ℕ} {c : CallNode} {callee : FuncKey} {d : CallNode}
    {slot : ℕ} {arg : Expr}
    (h : Reported P unparse st callerMod (instanceBindings P callerMod q f) f k c callee d slot arg) :
    ∃ sink ∈ st.sinks callee, sink.paramIdx = slot ∧
      sinkFinding P st ⟨callerMod, file, q⟩ d.lineno callee sink ∈
        analyzeFunctionBody P unparse st ⟨callerMod, file, q⟩ f := by
  obtain ⟨tainted, s, hs, hc, ⟨hcallee, -, -, sink, hsink, hidx⟩, hslot⟩ := h
  refine ⟨sink, hsink, hidx, ?_⟩
  have hemit : sinkFinding P st ⟨callerMod, file, q⟩ d.lineno callee sink ∈
      emitContractFindings P unparse st ⟨callerMod, file, q⟩ d callee tainted (instanceBindings P callerMod q f) :=
    List.mem_flatMap.mpr ⟨slot, hslot, List.mem_map_of_mem (List.mem_filter.mpr ⟨hsink, by simpa using hidx⟩)⟩
  refine List.mem_flatMap.mpr ⟨(tainted, s), List.mem_of_getElem? hs, List.mem_flatMap.mpr ⟨c, hc, ?_⟩⟩
  rw [List.mem_append]
  rcases hcallee with ⟨hcallee, rfl⟩ | hevent
  · exact .inl (by rw [checkCallAgainstContracts, hcallee]; exact hemit)
  · exact .inr (List.mem_flatMap.mpr ⟨(callee, d), hevent, hemit⟩)

/-! ## The names of the analysis -/

theorem taintedStatements_getElem (body : List Stmt) (init : List String) (k : ℕ) (tainted : List String) (s : Stmt) :
    (taintedStatements P unparse callerMod receivers init body)[k]? = some (tainted, s) ↔
      body[k]? = some s ∧ tainted = (body.take (k + 1)).foldl (taintAfter P unparse callerMod receivers) init := by
  induction body generalizing init k with
  | nil => simp [taintedStatements]
  | cons t body ih =>
    cases k with
    | zero =>
      simp only [taintedStatements, List.getElem?_cons_zero, Option.some.injEq, Prod.mk.injEq, Nat.zero_add,
        List.take_succ_cons, List.take_zero, List.foldl_cons, List.foldl_nil]
      constructor
      · rintro ⟨rfl, rfl⟩
        exact ⟨rfl, rfl⟩
      · rintro ⟨rfl, rfl⟩
        exact ⟨rfl, rfl⟩
    | succ k => simpa [taintedStatements] using ih (taintAfter P unparse callerMod receivers init t) k

theorem mentionsTainted_iff (tainted : List String) (text : String) :
    mentionsTainted tainted text = true ↔ ∃ t ∈ tainted, containsText text t = true := by
  simp [mentionsTainted]

theorem assignedTaint_iff (value : Expr) (tainted : List String) :
    assignedTaint P unparse callerMod value tainted receivers = true ↔
      mentionsSource (unparse value) = true ∨
      (∃ callee c slot arg x, resolveCallContract P callerMod receivers value = some callee ∧
        callOf (.expr value) = some c ∧
        ((P.contracts.lookup callee).map FunctionSummary.isSanitizer).getD false = false ∧
        slot ∈ ((P.contracts.lookup callee).map FunctionSummary.taintedReturns).getD [] ∧
        ((bindCallArgs c (P.params callee) (receiverOffset P callerMod c callee receivers))[slot]?).join = some arg ∧
        x ∈ (Node.expr arg).walk.filterMap nodeName ∧ x ∈ tainted) ∨
      ((resolveCallContract P callerMod receivers value = none ∨ callOf (.expr value) = none) ∧
        ∃ u ∈ tainted, containsText (unparse value) u = true) := by
  unfold assignedTaint returnsTaintedArg
  rw [Bool.or_eq_true]
  refine or_congr_right ?_
  cases hr : resolveCallContract P callerMod receivers value with
  | none => simp [mentionsTainted_iff]
  | some callee =>
    cases hc : callOf (.expr value) with
    | none => simp [mentionsTainted_iff]
    | some c =>
      simp only [Bool.and_eq_true, Bool.not_eq_true', List.any_eq_true, Option.any_eq_true, decide_eq_true_eq,
        Option.some.injEq, reduceCtorEq, or_self, false_and, or_false]
      constructor
      · rintro ⟨hsan, slot, hslot, arg, harg, x, hx, hin⟩
        exact ⟨callee, c, slot, arg, x, rfl, rfl, hsan, hslot, harg, hx, hin⟩
      · rintro ⟨_, _, slot, arg, x, rfl, rfl, hsan, hslot, harg, hx, hin⟩
        exact ⟨hsan, slot, hslot, arg, harg, x, hx, hin⟩

theorem TakenFor.mono {f : FuncNode} {k m : ℕ} {t : String} (h : TakenFor P unparse callerMod receivers f k t)
    (hkm : k ≤ m) : TakenFor P unparse callerMod receivers f m t := by
  cases h with
  | param h => exact .param h
  | source hs hjk ht h => exact .source hs (hjk.trans_le hkm) ht h
  | returned hs hjk ht hcallee hc hsan hslot harg hx h =>
    exact .returned hs (hjk.trans_le hkm) ht hcallee hc hsan hslot harg hx h
  | mentioned hs hjk ht hcallee hu h => exact .mentioned hs (hjk.trans_le hkm) ht hcallee hu h

theorem mem_taintAfter_iff (tainted : List String) (s : Stmt) (t : String) :
    t ∈ taintAfter P unparse callerMod receivers tainted s ↔ t ∈ tainted ∨
      ∃ pos targets value, s = .assign pos targets value ∧ t ∈ targets.filterMap nameOf ∧
        assignedTaint P unparse callerMod value tainted receivers = true := by
  by_cases hassign : ∃ pos targets value, s = .assign pos targets value
  · obtain ⟨pos, targets, value, rfl⟩ := hassign
    simp only [taintAfter]
    split_ifs with htaint
    · rw [List.mem_append]
      refine or_congr_right ⟨fun ht => ⟨pos, targets, value, rfl, ht, htaint⟩, ?_⟩
      rintro ⟨_, _, _, heq, ht, -⟩
      cases heq
      exact ht
    · refine ⟨.inl, fun h => h.resolve_right ?_⟩
      rintro ⟨_, _, _, heq, -, h⟩
      cases heq
      exact htaint h
  · have hkept : taintAfter P unparse callerMod receivers tainted s = tainted := by
      unfold taintAfter
      split
      · exact absurd ⟨_, _, _, rfl⟩ hassign
      · rfl
    rw [hkept]
    refine ⟨.inl, fun h => h.resolve_right ?_⟩
    rintro ⟨pos, targets, value, rfl, -⟩
    exact hassign ⟨_, _, _, rfl⟩

theorem takenFor_succ_iff (f : FuncNode) (k : ℕ) (t : String) {tainted : List String}
    (hbefore : ∀ u, u ∈ tainted ↔ TakenFor P unparse callerMod receivers f k u) :
    TakenFor P unparse callerMod receivers f (k + 1) t ↔ TakenFor P unparse callerMod receivers f k t ∨
      ∃ pos targets value, f.body[k]? = some (.assign pos targets value) ∧ t ∈ targets.filterMap nameOf ∧
        assignedTaint P unparse callerMod value tainted receivers = true := by
  simp only [assignedTaint_iff, hbefore]
  constructor
  · intro h
    cases h with
    | param h => exact .inl (.param h)
    | @source j _ pos targets value _ hs hjk ht h =>
      rcases Nat.lt_succ_iff_lt_or_eq.mp hjk with hlt | rfl
      · exact .inl (.source hs hlt ht h)
      · exact .inr ⟨pos, targets, value, hs, ht, .inl h⟩
    | @returned j _ pos targets value _ callee c slot arg x hs hjk ht hcallee hc hsan hslot harg hx h =>
      rcases Nat.lt_succ_iff_lt_or_eq.mp hjk with hlt | rfl
      · exact .inl (.returned hs hlt ht hcallee hc hsan hslot harg hx h)
      · exact .inr ⟨pos, targets, value, hs, ht,
          .inr (.inl ⟨callee, c, slot, arg, x, hcallee, hc, hsan, hslot, harg, hx, h⟩)⟩
    | @mentioned j _ pos targets value _ u hs hjk ht hcallee hu h =>
      rcases Nat.lt_succ_iff_lt_or_eq.mp hjk with hlt | rfl
      · exact .inl (.mentioned hs hlt ht hcallee hu h)
      · exact .inr ⟨pos, targets, value, hs, ht, .inr (.inr ⟨hcallee, u, h, hu⟩)⟩
  · rintro (h | ⟨pos, targets, value, hs, ht, h⟩)
    · exact h.mono (Nat.le_succ k)
    · rcases h with h | ⟨callee, c, slot, arg, x, hcallee, hc, hsan, hslot, harg, hx, h⟩ | ⟨hcallee, u, h, hu⟩
      · exact .source hs (Nat.lt_succ_self k) ht h
      · exact .returned hs (Nat.lt_succ_self k) ht hcallee hc hsan hslot harg hx h
      · exact .mentioned hs (Nat.lt_succ_self k) ht hcallee hu h

theorem mem_tainted_iff (f : FuncNode) (k : ℕ) (t : String) :
    t ∈ (f.body.take k).foldl (taintAfter P unparse callerMod receivers) (initialTaint f) ↔
      TakenFor P unparse callerMod receivers f k t := by
  induction k generalizing t with
  | zero =>
    rw [List.take_zero, List.foldl_nil]
    refine ⟨fun h => .param h, fun h => ?_⟩
    cases h with
    | param h => exact h
    | source _ hjk => exact absurd hjk (Nat.not_lt_zero _)
    | returned _ hjk => exact absurd hjk (Nat.not_lt_zero _)
    | mentioned _ hjk => exact absurd hjk (Nat.not_lt_zero _)
  | succ k ih =>
    rw [takenFor_succ_iff f k t ih, ← ih, List.take_add_one, List.foldl_append]
    cases hs : f.body[k]? with
    | none => simp
    | some s => simp [mem_taintAfter_iff]

theorem reported_iff (f : FuncNode) (k : ℕ) (c : CallNode) (callee : FuncKey) (d : CallNode) (slot : ℕ) (arg : Expr) :
    Reported P unparse st callerMod receivers f k c callee d slot arg ↔
      ∃ s, f.body[k]? = some s ∧ c ∈ callsIn (.stmt s) ∧ Hands P st callerMod receivers c callee d slot arg ∧
        LooksTainted P unparse callerMod receivers f k arg := by
  have hslot : ∀ tainted, Hands P st callerMod receivers c callee d slot arg →
      (slot ∈ taintedSlots P unparse callerMod d callee tainted receivers ↔
        (∃ t ∈ tainted, containsText (unparse arg) t = true) ∨ mentionsSource (unparse arg) = true) := by
    rintro tainted ⟨-, hbound, hfree, -⟩
    have hlt : slot < (bindCallArgs d (P.params callee) (receiverOffset P callerMod d callee receivers)).length := by
      by_contra hge
      rw [List.getElem?_eq_none (not_lt.mp hge)] at hbound
      cases hbound
    simp only [taintedSlots, List.mem_filter, List.mem_range, hlt, hbound, hfree, Option.any_some, Bool.and_eq_true,
      Bool.or_eq_true, mentionsTainted_iff, not_false_eq_true, decide_true, true_and]
  constructor
  · rintro ⟨tainted, s, hs, hc, hhands, hin⟩
    obtain ⟨hbody, rfl⟩ := (taintedStatements_getElem _ _ _ _ _).mp hs
    refine ⟨s, hbody, hc, hhands, ?_⟩
    rcases (hslot _ hhands).mp hin with ⟨t, ht, hmention⟩ | hsource
    · exact .inr ⟨t, (mem_tainted_iff f (k + 1) t).mp ht, hmention⟩
    · exact .inl hsource
  · rintro ⟨s, hs, hc, hhands, hlooks⟩
    refine ⟨_, s, (taintedStatements_getElem _ _ _ _ _).mpr ⟨hs, rfl⟩, hc, hhands, (hslot _ hhands).mpr ?_⟩
    rcases hlooks with hsource | ⟨t, ht, hmention⟩
    · exact .inr hsource
    · exact .inl ⟨t, (mem_tainted_iff f (k + 1) t).mpr ht, hmention⟩

/-- What is reported follows the last assignments exactly when every argument that looks tainted does. -/
theorem reports_follow_iff (P : Project) (unparse : Expr → String) (st : PropState) (callerMod : String)
    (receivers : Receivers) (f : FuncNode) :
    ReportsFollow P unparse st callerMod receivers f ↔ LooksFollow P unparse st callerMod receivers f := by
  constructor
  · intro h k s c callee d slot arg hs hc hhands hlooks
    exact h k c callee d slot arg ((reported_iff f k c callee d slot arg).mpr ⟨s, hs, hc, hhands, hlooks⟩)
  · intro h k c callee d slot arg hreported
    obtain ⟨s, hs, hc, hhands, hlooks⟩ := (reported_iff f k c callee d slot arg).mp hreported
    exact h k s c callee d slot arg hs hc hhands hlooks

def isSimple : Stmt → Bool
  | .functionDef .. | .classDef .. | .forLoop .. | .whileLoop .. | .ifStmt .. | .withStmt .. | .matchStmt .. => false
  | .tryStmt .. => false
  | _ => true

/-- `def view(request)` with `x = request.GET`, `x = "safe"` and `run(x)`. -/
def clearedView : FuncNode :=
  { pos := { lineno := 3 }, name := "view", args := { args := [{ arg := "request" }] },
    body :=
      [.assign { lineno := 4 } [.name {} "x" .store] (loadAttr 4 (loadName 4 "request") "GET"),
        .assign { lineno := 5 } [.name {} "x" .store] (.constant {} (.str "safe")),
        .expr { lineno := 6 } (.call { lineno := 6 } (loadName 6 "run") [loadName 6 "x"] [])],
    decorators := [], returns := none, isAsync := false }

/-- `x` stays tainted although a literal has replaced the request. -/
theorem cleared_name_reported : ¬ ∀ (P : Project) (unparse : Expr → String) (st : PropState) (callerMod q : String)
    (f : FuncNode), f.body.all isSimple = true →
      ReportsFollow P unparse st callerMod (instanceBindings P callerMod q f) f := by
  intro h
  have hfollow := h taskProject dottedPrefix (initialState taskProject) "views" "view" clearedView (by decide)
  have hlooks := (reports_follow_iff _ _ _ _ _ _).mp hfollow
  have hfree : (0 : ℕ) ∉ decoratorSanitizedParams taskProject ("tasks", "run") := by decide
  have hclean := hlooks 2 _ ⟨6, loadName 6 "run", [loadName 6 "x"], []⟩ ("tasks", "run") _ 0 (loadName 6 "x") rfl
    (List.mem_singleton_self _) ⟨.inl ⟨by decide, rfl⟩, rfl, hfree, ⟨0, "cmd", "CWE-78", "system", 6⟩, by decide, rfl⟩
    (.inr ⟨"x", .source (j := 0) rfl (by decide) (List.mem_singleton_self _) (by decide), by decide⟩)
  exact absurd hclean (by decide)

end TimeCodeSecurity.CrossFile

/-! ## Taint in nested blocks

The calls of a statement are looked at at any depth, but only the statements of the body itself change the
names taken for tainted. So a source assigned in a block reaches a call exactly where the argument looks
tainted for another reason (`nested_kept_iff`).
-/
namespace TimeCodeSecurity.CrossFile
open Py
open Contracts (Spot Reaches Precedes)

section
variable (P : Project) (unparse : Expr → String) (st : PropState)

/-- The analysis of the callers in `run`: the modules whose facts can emit, with the tree read again. -/
def runFindings (trees : String → Option Module) : List CrossFileFinding :=
  P.facts.items.flatMap fun (modName, row) =>
    if moduleEmits P st.sinks modName row then
      match P.index.modules.lookup modName, trees modName with
      | some idx, some tree => analyzeModuleCalls P unparse st modName idx.filePath tree
      | _, _ => []
    else []

/-- The caller: a contracted function of a module that has its facts, its place in the index and its tree. -/
structure RunCaller (trees : String → Option Module) where
  modName : String
  qualname : String
  func : FuncNode
  row : ModuleFacts
  idx : ModuleIndex
  tree : Module
  hasRow : P.facts.lookup modName = some row
  hasIndex : P.index.modules.lookup modName = some idx
  hasTree : trees modName = some tree
  contracted : (qualname, func) ∈ contractedFunctions tree

variable {P} {trees : String → Option Module}

def RunCaller.receivers (r : RunCaller P trees) : Receivers := instanceBindings P r.modName r.qualname r.func

variable (P)

/-- `run` reports the call: its module is analysed, and the slot is taken for tainted at its statement. -/
def RunReports (r : RunCaller P trees) (c : CallNode) (callee : FuncKey) (slot : ℕ) (arg : Expr) : Prop :=
  moduleEmits P st.sinks r.modName r.row = true ∧
    ∃ k, Reported P unparse st r.modName r.receivers r.func k c callee c slot arg

/-- A statement at any depth assigns `x` what a source taints, and a later call passes `x` to a slot of a resolved
contract with a sink that no decorator neutralises, `x` being bound by nothing in between. -/
structure NestedFlow (r : RunCaller P trees) (c : CallNode) (callee : FuncKey) (slot : ℕ) (x : String)
    (arg : Expr) : Prop where
  flow : ∃ s e inner pos inner', (x, e) ∈ assignedFrom (.stmt s) ∧
    givenTaint P r.modName r.receivers (fun _ => false) e = true ∧
    MadeBefore r.func (.visit (.stmt s) inner) (.visit (.expr (.call pos c.func c.args c.keywords)) inner') ∧
    pos.lineno = c.lineno ∧ Reaches r.func (.visit (.expr (.call pos c.func c.args c.keywords)) inner') ∧
    ∀ m, m.rebinds x → MadeBefore r.func (.visit (.stmt s) inner) m →
      ¬ Precedes r.func m (.visit (.expr (.call pos c.func c.args c.keywords)) inner')
  passes : nameOf arg = some x
  resolved : resolveCalleeContract P r.modName r.receivers c.func = some callee
  bound : ((bindCallArgs c (P.params callee)
    (receiverOffset P r.modName c callee r.receivers))[slot]?).join = some arg
  free : slot ∉ decoratorSanitizedParams P callee
  sink : ∃ sink ∈ st.sinks callee, sink.paramIdx = slot

/-- No flow from a source in a block is lost. -/
def NestedKept (r : RunCaller P trees) : Prop :=
  ∀ c callee slot x arg, NestedFlow P st r c callee slot x arg → RunReports P unparse st r c callee slot arg

/-- The module can emit, and at the statement of the body that holds the call the argument looks tainted:
by its text, the parameters and the assignments of the body itself so far. -/
def NestedSeen (r : RunCaller P trees) : Prop :=
  ∀ c callee slot x arg, NestedFlow P st r c callee slot x arg →
    moduleEmits P st.sinks r.modName r.row = true ∧
      ∃ k s, r.func.body[k]? = some s ∧ c ∈ callsIn (.stmt s) ∧
        LooksTainted P unparse r.modName r.receivers r.func k arg

end

variable {P : Project} {unparse : Expr → String} {st : PropState} {trees : String → Option Module}

theorem NestedFlow.hands {r : RunCaller P trees} {c : CallNode} {callee : FuncKey} {slot : ℕ} {x : String} {arg : Expr}
    (h : NestedFlow P st r c callee slot x arg) : Hands P st r.modName r.receivers c callee c slot arg :=
  ⟨.inl ⟨h.resolved, rfl⟩, h.bound, h.free, h.sink⟩

theorem RunReports.finding {r : RunCaller P trees} {c : CallNode} {callee : FuncKey} {slot : ℕ} {arg : Expr}
    (h : RunReports P unparse st r c callee slot arg) : ∃ sink ∈ st.sinks callee, sink.paramIdx = slot ∧
      sinkFinding P st ⟨r.modName, r.idx.filePath, r.qualname⟩ c.lineno callee sink ∈
        runFindings P unparse st trees := by
  obtain ⟨hemits, k, hreported⟩ := h
  obtain ⟨sink, hsink, hidx, hfinding⟩ := @reported_finding P unparse st r.modName r.func r.idx.filePath _ _ _ _ _ _ _
    hreported
  refine ⟨sink, hsink, hidx, List.mem_flatMap.mpr ⟨(r.modName, r.row), DictOf.mem_items_iff.mpr r.hasRow, ?_⟩⟩
  simp only [hemits, if_true, r.hasIndex, r.hasTree]
  exact List.mem_flatMap.mpr ⟨(r.qualname, r.func), r.contracted, hfinding⟩

/-- Every flow from a source in a block is reported exactly when its module can emit and its argument looks
tainted at the statement of the body that holds the call. -/
theorem nested_kept_iff (P : Project) (unparse : Expr → String) (st : PropState) (trees : String → Option Module)
    (r : RunCaller P trees) : NestedKept P unparse st r ↔ NestedSeen P unparse st r := by
  constructor
  · intro h c callee slot x arg hflow
    obtain ⟨hemits, k, hreported⟩ := h c callee slot x arg hflow
    obtain ⟨s, hs, hc, -, hlooks⟩ := (reported_iff r.func k c callee c slot arg).mp hreported
    exact ⟨hemits, k, s, hs, hc, hlooks⟩
  · intro h c callee slot x arg hflow
    obtain ⟨hemits, k, s, hs, hc, hlooks⟩ := h c callee slot x arg hflow
    exact ⟨hemits, k, (reported_iff r.func k c callee c slot arg).mpr ⟨s, hs, hc, hflow.hands, hlooks⟩⟩

/-! ## A source in a branch -/

/-- `if request:` with `x = request.GET` and `run(x)` in it. -/
def branchView : FuncNode :=
  { pos := { lineno := 3 }, name := "view", args := { args := [{ arg := "request" }] },
    body :=
      [.ifStmt { lineno := 4 } (loadName 4 "request")
        [.assign { lineno := 5 } [.name {} "x" .store] (loadAttr 5 (loadName 5 "request") "GET"),
          .expr { lineno := 6 } (.call { lineno := 6 } (loadName 6 "run") [loadName 6 "x"] [])] []],
    decorators := [], returns := none, isAsync := false }

def branchTree : Module := [.functionDef { lineno := 3 } false "view" branchView.args branchView.body [] none]

def branchProject : Project where
  index := taskProject.index
  facts := ((∅ : Dict ModuleFacts).insert "tasks" (harvestModule dottedPrefix [runSummary] tasksTree))
    |>.insert "views" (harvestModule dottedPrefix [viewSummary] branchTree)
  contracts := taskProject.contracts
  contracted := contracted_of_items (by decide)

def branchTrees (modName : String) : Option Module := if modName = "views" then some branchTree else none

def branchCaller : RunCaller branchProject branchTrees where
  modName := "views"
  qualname := "view"
  func := branchView
  row := harvestModule dottedPrefix [viewSummary] branchTree
  idx := { filePath := "views.py"
           definitions := (∅ : Dict SymbolDefinition).insert "view" ⟨"view", .function, "views.py"⟩
           imports := (∅ : Dict ImportBinding).insert "run" ⟨"tasks", "run"⟩ }
  tree := branchTree
  hasRow := rfl
  hasIndex := rfl
  hasTree := rfl
  contracted := List.mem_singleton_self _

def branchCall : CallNode := ⟨6, loadName 6 "run", [loadName 6 "x"], []⟩

def branchAssign : Stmt :=
  .assign { lineno := 5 } [.name {} "x" .store] (loadAttr 5 (loadName 5 "request") "GET")

def branchUse : Spot :=
  .visit (.stmt (.expr { lineno := 6 } (.call { lineno := 6 } (loadName 6 "run") [loadName 6 "x"] []))) []

theorem branch_bound {m : Spot} (h : ∃ t ∈ Contracts.spotsOf branchView, TreeWalk.Below Spot.parts t m)
    (hm : m.rebinds "x") : m = .bound (.stmt branchAssign) ["x"] := by
  obtain ⟨t, ht, h⟩ := h
  obtain rfl := List.mem_singleton.mp ht
  have hname : ∀ {n x inner}, TreeWalk.Below Spot.parts (.visit (.expr (loadName n x)) inner) m → False := by
    intro n x inner h
    rcases TreeWalk.below_iff.mp h with rfl | ⟨t, ht, -⟩
    · exact hm
    · exact absurd ht List.not_mem_nil
  rcases TreeWalk.below_iff.mp h with rfl | ⟨t, ht, h⟩
  · exact hm.elim
  rcases List.mem_cons.mp ht with rfl | ht
  · exact (hname h).elim
  rcases List.mem_cons.mp ht with rfl | ht
  · rcases TreeWalk.below_iff.mp h with rfl | ⟨t, ht, h⟩
    · exact hm.elim
    rcases List.mem_cons.mp ht with rfl | ht
    · rcases TreeWalk.below_iff.mp h with rfl | ⟨t, ht, h⟩
      · exact hm.elim
      · obtain rfl := List.mem_singleton.mp ht
        exact (hname h).elim
    · obtain rfl := List.mem_singleton.mp ht
      rcases TreeWalk.below_iff.mp h with rfl | ⟨t, ht, -⟩
      · rfl
      · exact absurd ht List.not_mem_nil
  · obtain rfl := List.mem_singleton.mp ht
    rcases TreeWalk.below_iff.mp h with rfl | ⟨t, ht, h⟩
    · exact hm.elim
    obtain rfl := List.mem_singleton.mp ht
    rcases TreeWalk.below_iff.mp h with rfl | ⟨t, ht, h⟩
    · exact hm.elim
    rcases List.mem_cons.mp ht with rfl | ht
    · exact (hname h).elim
    · obtain rfl := List.mem_singleton.mp ht
      exact (hname h).elim

theorem branch_flow : NestedFlow branchProject (initialState branchProject) branchCaller branchCall
    ("tasks", "run") 0 "x" (loadName 6 "x") where
  flow := by
    refine ⟨branchAssign, _, [], { lineno := 6 }, [], List.mem_singleton_self _, by decide, ⟨?_, ?_⟩, rfl, ?_, ?_⟩
    · refine .inside (List.mem_singleton_self _) ?_
      let test : Spot := .visit (.expr (loadName 4 "request")) []
      exact @TreeWalk.Before.apart _ _ [test] [branchUse] (.visit (.stmt branchAssign) []) branchUse _ _
        (List.mem_singleton_self _) .refl (.single (List.mem_singleton_self _))
    · intro h
      rcases TreeWalk.below_iff.mp h with heq | ⟨t, ht, h⟩
      · cases heq
      rcases List.mem_cons.mp ht with rfl | ht
      · rcases TreeWalk.below_iff.mp h with heq | ⟨t, ht, h⟩
        · cases heq
        obtain rfl := List.mem_singleton.mp ht
        rcases TreeWalk.below_iff.mp h with heq | ⟨t, ht, -⟩
        · cases heq
        · exact absurd ht List.not_mem_nil
      · obtain rfl := List.mem_singleton.mp ht
        rcases TreeWalk.below_iff.mp h with heq | ⟨t, ht, -⟩
        · cases heq
        · exact absurd ht List.not_mem_nil
    · refine ⟨_, List.mem_singleton_self _, .head (b := branchUse) ?_ (.single (List.mem_singleton_self _))⟩
      exact List.mem_cons_of_mem _ (List.mem_cons_of_mem _ (List.mem_singleton_self _))
    · intro m hm hmade hprecedes
      obtain rfl := branch_bound hprecedes.exists_root hm
      exact hmade.2 (.single (List.mem_cons_of_mem _ (List.mem_singleton_self _)))
  passes := rfl
  resolved := by decide
  bound := rfl
  free := by decide
  sink := ⟨⟨0, "cmd", "CWE-78", "system", 6⟩, by decide, rfl⟩

/-- Only the statements of the body itself taint a name, so the run has no finding at all. -/
theorem nested_source_lost : ¬ ∀ (P : Project) (unparse : Expr → String) (st : PropState)
    (trees : String → Option Module) (r : RunCaller P trees), NestedKept P unparse st r := by
  intro h
  have hreports := h branchProject dottedPrefix (initialState branchProject) branchTrees branchCaller _ _ _ _ _
    branch_flow
  obtain ⟨sink, -, -, hfinding⟩ := hreports.finding
  have hnone : (runFindings branchProject dottedPrefix (initialState branchProject) branchTrees).isEmpty = true := by
    decide
  rw [List.isEmpty_iff.mp hnone] at hfinding
  cases hfinding

end TimeCodeSecurity.CrossFile
