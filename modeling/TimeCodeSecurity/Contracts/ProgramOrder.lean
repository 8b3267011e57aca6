import TimeCodeSecurity.CrossFile.Harvest
import TimeCodeSecurity.Scanner.Run

/-! # Contracts of wrapper functions

`FunctionContractExtractor` of `analysis/function_contracts.py`: a function with a call of a known sink
that is passed a parameter gets a contract, unless the filter finds a guard or a kill above the call.
-/
namespace TimeCodeSecurity.Contracts
open Py CrossFile
set_option autoImplicit false

def knownSinks : List (String × String) :=
  [("execute", "CWE-89"), ("cursor.execute", "CWE-89"), ("conn.execute", "CWE-89"), ("db.execute", "CWE-89"),
    ("subprocess.run", "CWE-78"), ("subprocess.call", "CWE-78"), ("subprocess.Popen", "CWE-78"),
    ("os.system", "CWE-78"), ("os.popen", "CWE-78"), ("os.execvp", "CWE-78"), ("os.execl", "CWE-78"),
    ("open", "CWE-22"), ("os.open", "CWE-22"), ("pathlib.Path.open", "CWE-22"),
    ("eval", "CWE-95"), ("exec", "CWE-95"), ("compile", "CWE-95"),
    ("pickle.loads", "CWE-502"), ("yaml.load", "CWE-502"), ("marshal.loads", "CWE-502"),
    ("requests.get", "CWE-918"), ("requests.post", "CWE-918"), ("urllib.request.urlopen", "CWE-918"),
    ("flask.render_template_string", "CWE-79"), ("jinja2.Template.render", "CWE-79")]

def contractSanitizers : List String :=
  ["int", "float", "bool", "shlex.quote", "html.escape", "urllib.parse.quote", "os.path.abspath",
    "os.path.realpath", "pathlib.Path.resolve"]

structure FunctionSinkContract where
  funcName : String
  sinkArgIndex : ℕ
  cweId : String
  targetSink : String
  funcLineno : ℕ
  sinkLineno : ℕ
deriving DecidableEq, Repr

def getCallName (func : Expr) : Option String := (dottedParts func).map ".".intercalate

def isSafeLiteral : Expr → Bool
  | .constant .. => true
  | _ => false

def isSanitizerCall : Expr → Bool
  | .call _ func _ _ => (getCallName func).any (· ∈ contractSanitizers)
  | _ => false

def isNamed (paramName : String) : Expr → Bool
  | .name _ id _ => id = paramName
  | _ => false

def killsParam (paramName : String) : Stmt → Bool
  | .assign _ targets value => targets.any (isNamed paramName) && (isSafeLiteral value || isSanitizerCall value)
  | .annAssign _ target _ (some value) =>
    isNamed paramName target && (isSafeLiteral value || isSanitizerCall value)
  | _ => false

def isIf : Stmt → Bool
  | .ifStmt .. => true
  | _ => false

/-- No `if` and no kill of the parameter on a line above the sink, anywhere in the function. -/
def verifyCleanFlow (f : FuncNode) (paramName : String) (sinkLineno : ℕ) : Bool :=
  f.node.walk.all fun
    | .stmt s => decide (sinkLineno ≤ s.pos.lineno) || !(isIf s || killsParam paramName s)
    | _ => true

structure SinkCall where
  pos : Pos
  func : Expr
  args : List Expr
  keywords : List (Keyword Expr)

def SinkCall.toExpr (call : SinkCall) : Expr := .call call.pos call.func call.args call.keywords

def sinkCallOf : Node → Option SinkCall
  | .expr (.call pos func args keywords) => some ⟨pos, func, args, keywords⟩
  | _ => none

/-- A call of a sink that is passed a parameter untouched, as far as the filter sees. -/
structure FoundFlow where
  param : String
  call : SinkCall
  contract : FunctionSinkContract

def passedNames (call : SinkCall) : List String :=
  call.args.filterMap nameOf ++ call.keywords.filterMap fun k => nameOf k.value

def flowOfCall (f : FuncNode) (call : SinkCall) : Option FoundFlow := do
  let sinkName ← getCallName call.func
  let cweId ← knownSinks.lookup sinkName
  let paramNames := f.args.args.map (·.arg)
  let param ← (passedNames call).find? fun x => x ∈ paramNames && verifyCleanFlow f x call.pos.lineno
  pure
    { param := param, call := call,
      contract :=
        { funcName := f.name, sinkArgIndex := paramNames.idxOf param, cweId := cweId, targetSink := sinkName,
          funcLineno := f.pos.lineno, sinkLineno := call.pos.lineno } }

/-- The first flow in the order of the walk. -/
def findFlow (f : FuncNode) : Option FoundFlow :=
  (f.node.walk.filterMap sinkCallOf).findSome? (flowOfCall f)

def analyzeFunction (f : FuncNode) : Option FunctionSinkContract := (findFlow f).map (·.contract)

theorem findFlow_clean {f : FuncNode} {flow : FoundFlow} (h : findFlow f = some flow) :
    verifyCleanFlow f flow.param flow.call.pos.lineno = true := by
  obtain ⟨call, -, hflow⟩ := List.exists_of_findSome?_eq_some h
  simp only [flowOfCall, Option.bind_eq_bind, Option.bind_eq_some_iff] at hflow
  obtain ⟨sinkName, -, cweId, -, param, hparam, heq⟩ := hflow
  cases heq
  have hclean := List.find?_some hparam
  rw [Bool.and_eq_true] at hclean
  exact hclean.2

theorem verifyCleanFlow_spec {f : FuncNode} {paramName : String} {sinkLineno : ℕ}
    (h : verifyCleanFlow f paramName sinkLineno = true) {s : Stmt}
    (hs : f.node.Below (.stmt s)) (hline : s.pos.lineno < sinkLineno) :
    isIf s = false ∧ killsParam paramName s = false := by
  have hone := List.all_eq_true.mp h (.stmt s) (Node.mem_walk_iff.mpr hs)
  have hnot : ¬ sinkLineno ≤ s.pos.lineno := not_le.mpr hline
  simpa [hnot] using hone

end TimeCodeSecurity.Contracts

/-! ## Program order

What a function itself evaluates, with the parts of each node in the order of their evaluation, and what
its nodes bind. The bodies of nested functions, lambdas and classes are not part of it, only their
decorators, defaults, bases and names. A comprehension binds its targets for its own parts alone.
-/
namespace TimeCodeSecurity.Contracts
open Py TreeWalk
open CrossFile (FuncNode)
open Execution (boundBy aliasName)

inductive Spot
  | visit (n : Node) (inner : List String)
  | bound (n : Node) (names : List String)

def Spot.node : Spot → Node
  | .visit n _ => n
  | .bound n _ => n

/-! ## Parts in order -/

def visits (inner : List String) (ns : List Node) : List Spot := ns.map (.visit · inner)

def targetSpot (s : Stmt) (inner : List String) : Expr → Spot
  | .name _ id _ => .bound (.stmt s) [id]
  | target => .visit (.expr target) inner

def itemNodes : List (Option Expr) → List Expr → List Node
  | key :: keys, value :: values => optNodes key ++ .expr value :: itemNodes keys values
  | _, values => exprNodes values

def storedBy (target : Expr) : List String := (Node.expr target).walk.flatMap boundBy

def generatorSpots (inner : List String) (last : List Expr) : List (Comprehension Expr) → List Spot
  | [] => visits inner (exprNodes last)
  | c :: gens =>
    .visit (.expr c.iter) inner :: .visit (.comprehension c) inner ::
      (visits (inner ++ storedBy c.target) (exprNodes c.ifs) ++
        generatorSpots (inner ++ storedBy c.target) last gens)

def defaultNodes (args : Arguments Expr) : List Node := exprNodes args.defaults ++ someNodes args.kwDefaults

def Spot.parts : Spot → List Spot
  | .bound _ _ => []
  | .visit (.stmt s) inner =>
    match s with
    | .assign _ targets value => .visit (.expr value) inner :: targets.map (targetSpot s inner)
    | .annAssign _ target _ (some value) => [.visit (.expr value) inner, targetSpot s inner target]
    | .annAssign _ _ _ none => []
    | .augAssign _ target _ value => [.visit (.expr value) inner, targetSpot s inner target]
    | .forLoop _ _ target iter body orelse =>
      .visit (.expr iter) inner :: targetSpot s inner target :: visits inner (stmtNodes body ++ stmtNodes orelse)
    | .functionDef _ _ name args _ decorators returns =>
      visits inner (exprNodes decorators ++ (defaultNodes args ++ optNodes returns)) ++ [.bound (.stmt s) [name]]
    | .classDef _ name bases keywords _ decorators =>
      visits inner (exprNodes decorators ++ (exprNodes bases ++ keywords.map .keyword)) ++
        [.bound (.stmt s) [name]]
    | .importStmt _ names | .importFrom _ _ names _ => [.bound (.stmt s) (names.map aliasName)]
    | s => visits inner s.children
  | .visit (.expr e) inner =>
    match e with
    | .namedExpr _ target value => [.visit (.expr value) inner, .visit (.expr target) inner]
    | .lambda _ args _ => visits inner (defaultNodes args)
    | .dict _ keys values => visits inner (itemNodes keys values)
    | .listComp _ elt gens | .setComp _ elt gens | .generatorExp _ elt gens => generatorSpots inner [elt] gens
    | .dictComp _ key value gens => generatorSpots inner [key, value] gens
    | .name _ id ctx => if ctx = .load then [] else [.bound (.expr e) [id]]
    | e => visits inner e.children
  | .visit (.comprehension _) _ => []
  | .visit (.handler h) inner =>
    visits inner (optNodes h.type) ++ .bound (.handler h) h.name.toList :: visits inner (stmtNodes h.body)
  | .visit (.pattern p) inner => visits inner p.children ++ [.bound (.pattern p) (boundBy (.pattern p))]
  | .visit n inner => visits inner n.children

def spotsOf (f : FuncNode) : List Spot := visits [] (stmtNodes f.body)

def Reaches (f : FuncNode) (spot : Spot) : Prop := ∃ t ∈ spotsOf f, TreeWalk.Below Spot.parts t spot

/-- It comes to `m` before the spot, `m` standing above it or earlier in the text. -/
def Precedes (f : FuncNode) (m spot : Spot) : Prop := TreeWalk.Before Spot.parts (spotsOf f) m spot

def Spot.rebinds (x : String) : Spot → Prop
  | .bound _ names => x ∈ names
  | .visit .. => False

/-- An `if`, a `while`, a `match`, a conditional expression or a condition of a comprehension. -/
def Spot.isConditional : Spot → Prop
  | .visit (.stmt (.ifStmt ..)) _ | .visit (.stmt (.whileLoop ..)) _ | .visit (.stmt (.matchStmt ..)) _ => True
  | .visit (.expr (.ifExp ..)) _ => True
  | .visit (.comprehension c) _ => c.ifs ≠ []
  | _ => False

def callSpot (call : SinkCall) (inner : List String) : Spot := .visit (.expr call.toExpr) inner

theorem node_of_mem_visits {inner : List String} {ns : List Node} {spot : Spot} (h : spot ∈ visits inner ns) :
    spot.node ∈ ns := by
  obtain ⟨n, hn, rfl⟩ := List.mem_map.mp h
  exact hn

theorem targetSpot_below (s : Stmt) (inner : List String) {target : Expr}
    (h : .expr target ∈ (Node.stmt s).children) : (Node.stmt s).Below (targetSpot s inner target).node := by
  unfold targetSpot
  split
  · exact .refl
  · exact .single h

theorem mem_itemNodes {keys : List (Option Expr)} {values : List Expr} {n : Node}
    (h : n ∈ itemNodes keys values) : n ∈ someNodes keys ++ exprNodes values := by
  fun_induction itemNodes keys values with
  | case1 key keys value values ih =>
    rcases List.mem_append.mp h with h | h
    · exact List.mem_append_left _ (List.mem_append_left _ h)
    · rcases List.mem_cons.mp h with rfl | h
      · exact List.mem_append_right _ List.mem_cons_self
      · rcases List.mem_append.mp (ih h) with h | h
        · exact List.mem_append_left _ (List.mem_append_right _ h)
        · exact List.mem_append_right _ (List.mem_cons_of_mem _ h)
  | case2 => exact List.mem_append_right _ h

theorem node_of_mem_generatorSpots {inner : List String} {last : List Expr} {gens : List (Comprehension Expr)}
    {spot : Spot} (h : spot ∈ generatorSpots inner last gens) :
    spot.node ∈ exprNodes last ∨ ∃ c ∈ gens, (Node.comprehension c).Below spot.node := by
  induction gens generalizing inner with
  | nil => exact .inl (node_of_mem_visits h)
  | cons c gens ih =>
    rw [generatorSpots, List.mem_cons, List.mem_cons, List.mem_append] at h
    rcases h with rfl | rfl | h | h
    · exact .inr ⟨c, List.mem_cons_self, .single (by simp [Node.children, Spot.node])⟩
    · exact .inr ⟨c, List.mem_cons_self, .refl⟩
    · refine .inr ⟨c, List.mem_cons_self, .single ?_⟩
      exact List.mem_cons_of_mem _ (List.mem_cons_of_mem _ (node_of_mem_visits h))
    · rcases ih h with h | ⟨d, hd, hbelow⟩
      · exact .inl h
      · exact .inr ⟨d, List.mem_cons_of_mem _ hd, hbelow⟩

theorem mem_defaultNodes {args : Arguments Expr} {n : Node} (h : n ∈ defaultNodes args) :
    (Node.arguments args).Below n := by
  refine .single ?_
  rcases List.mem_append.mp h with h | h
  · simp [Node.children, Arguments.children, h]
  · simp [Node.children, Arguments.children, h]

theorem generator_below {e : Expr} {inner : List String} {last : List Expr} {gens : List (Comprehension Expr)}
    (hlast : ∀ n ∈ exprNodes last, n ∈ e.children) (hgens : ∀ c ∈ gens, .comprehension c ∈ e.children) {spot : Spot}
    (h : spot ∈ generatorSpots inner last gens) : (Node.expr e).Below spot.node := by
  rcases node_of_mem_generatorSpots h with h | ⟨c, hc, hbelow⟩
  · exact .single (hlast _ h)
  · exact .head (hgens c hc) hbelow

/-! ## Untouched flows

A contract promises that the parameter comes to the call as it was passed. The filter looks at lines, at
`if` statements and at two forms of assignment; so the promise is kept exactly where nothing else stands
before the call (`contract_untouched_iff`).
-/

/-- The call is the function's own and reads the parameter; nothing before it in program order rebinds the
parameter, and no conditional encloses or precedes it. -/
def Untouched (f : FuncNode) (param : String) (call : SinkCall) : Prop :=
  (∃ inner, Reaches f (callSpot call inner)) ∧
    ∀ inner, Reaches f (callSpot call inner) → param ∉ inner ∧
      ∀ m, Precedes f m (callSpot call inner) → ¬ m.rebinds param ∧ ¬ m.isConditional

def Spot.isCaughtKill (param : String) (lineno : ℕ) (m : Spot) : Prop :=
  ∃ s, m.node = .stmt s ∧ s.pos.lineno < lineno ∧ killsParam param s = true

/-- An `if` statement on a line above. -/
def Spot.isCaughtGuard (lineno : ℕ) (m : Spot) : Prop :=
  ∃ s, m.node = .stmt s ∧ s.pos.lineno < lineno ∧ isIf s = true

/-- What the filter does not know is not there. -/
def OnlyCaught (f : FuncNode) (param : String) (call : SinkCall) : Prop :=
  (∃ inner, Reaches f (callSpot call inner)) ∧
    ∀ inner, Reaches f (callSpot call inner) → param ∉ inner ∧
      ∀ m, Precedes f m (callSpot call inner) →
        (m.rebinds param → m.isCaughtKill param call.pos.lineno) ∧
          (m.isConditional → m.isCaughtGuard call.pos.lineno)

/-! ## Spots and nodes -/

theorem visits_below {n : Node} {inner : List String} {ns : List Node} (h : ∀ m ∈ ns, n.Below m) {spot : Spot}
    (hspot : spot ∈ visits inner ns) : n.Below spot.node := h _ (node_of_mem_visits hspot)

theorem children_below {n m : Node} (h : m ∈ n.children) : n.Below m := .single h

theorem stmt_parts_below (s : Stmt) (inner : List String) {spot : Spot}
    (h : spot ∈ (Spot.visit (.stmt s) inner).parts) : (Node.stmt s).Below spot.node := by
  cases s with
  | assign pos targets value =>
    rcases List.mem_cons.mp h with rfl | h
    · exact children_below (by simp [Node.children, Stmt.children, Spot.node])
    · obtain ⟨target, htarget, rfl⟩ := List.mem_map.mp h
      exact targetSpot_below _ _ (by simp [Node.children, Stmt.children, exprNodes, htarget])
  | annAssign pos target annot value =>
    cases value with
    | none => cases h
    | some value =>
      rcases List.mem_cons.mp h with rfl | h
      · exact children_below (by simp [Node.children, Stmt.children, Spot.node, optNodes])
      · obtain rfl := List.mem_singleton.mp h
        exact targetSpot_below _ _ (by simp [Node.children, Stmt.children])
  | augAssign pos target op value =>
    rcases List.mem_cons.mp h with rfl | h
    · exact children_below (by simp [Node.children, Stmt.children, Spot.node])
    · obtain rfl := List.mem_singleton.mp h
      exact targetSpot_below _ _ (by simp [Node.children, Stmt.children])
  | forLoop pos isAsync target iter body orelse =>
    rcases List.mem_cons.mp h with rfl | h
    · exact children_below (by simp [Node.children, Stmt.children, Spot.node])
    · rcases List.mem_cons.mp h with rfl | h
      · exact targetSpot_below _ _ (by simp [Node.children, Stmt.children])
      · refine visits_below (fun m hm => children_below ?_) h
        exact List.mem_cons_of_mem _ (List.mem_cons_of_mem _ hm)
  | functionDef pos isAsync name args body decorators returns =>
    rcases List.mem_append.mp h with h | h
    · refine visits_below (fun m hm => ?_) h
      rw [List.mem_append, List.mem_append] at hm
      rcases hm with hm | hm | hm
      · exact children_below (by simp [Node.children, Stmt.children, hm])
      · exact .head (by simp [Node.children, Stmt.children]) (mem_defaultNodes hm)
      · exact children_below (by simp [Node.children, Stmt.children, hm])
    · obtain rfl := List.mem_singleton.mp h
      exact .refl
  | classDef pos name bases keywords body decorators =>
    rcases List.mem_append.mp h with h | h
    · refine visits_below (fun m hm => children_below ?_) h
      rw [List.mem_append, List.mem_append] at hm
      rcases hm with hm | hm | hm <;> simp [Node.children, Stmt.children, hm]
    · obtain rfl := List.mem_singleton.mp h
      exact .refl
  | importStmt pos names =>
    obtain rfl := List.mem_singleton.mp h
    exact .refl
  | importFrom pos module names level =>
    obtain rfl := List.mem_singleton.mp h
    exact .refl
  | _ => exact visits_below (fun _ => children_below) h

theorem expr_parts_below (e : Expr) (inner : List String) {spot : Spot}
    (h : spot ∈ (Spot.visit (.expr e) inner).parts) : (Node.expr e).Below spot.node := by
  cases e with
  | namedExpr pos target value =>
    rcases List.mem_cons.mp h with rfl | h
    · exact children_below (by simp [Node.children, Expr.children, Spot.node])
    · obtain rfl := List.mem_singleton.mp h
      exact children_below (by simp [Node.children, Expr.children, Spot.node])
  | lambda pos args body =>
    exact visits_below (fun m hm => .head (by simp [Node.children, Expr.children]) (mem_defaultNodes hm)) h
  | dict pos keys values =>
    have hitems : ∀ m ∈ itemNodes keys values, m ∈ (Node.expr (.dict pos keys values)).children :=
      fun m hm => mem_itemNodes hm
    exact visits_below (fun m hm => children_below (hitems m hm)) h
  | listComp pos elt gens => exact generator_below (by simp [exprNodes, Expr.children]) (by simp [Expr.children]) h
  | setComp pos elt gens => exact generator_below (by simp [exprNodes, Expr.children]) (by simp [Expr.children]) h
  | generatorExp pos elt gens =>
    exact generator_below (by simp [exprNodes, Expr.children]) (by simp [Expr.children]) h
  | dictComp pos key value gens =>
    exact generator_below (by simp [exprNodes, Expr.children]) (by simp [Expr.children]) h
  | name pos id ctx =>
    by_cases hctx : ctx = .load
    · simp [Spot.parts, hctx] at h
    · simp only [Spot.parts, hctx, if_false] at h
      obtain rfl := List.mem_singleton.mp h
      exact .refl
  | _ => exact visits_below (fun _ => children_below) h

theorem parts_below (spot : Spot) : ∀ part ∈ spot.parts, spot.node.Below part.node := by
  intro part h
  cases spot with
  | bound n names => cases h
  | visit n inner =>
    cases n with
    | stmt s => exact stmt_parts_below s inner h
    | expr e => exact expr_parts_below e inner h
    | comprehension c => cases h
    | handler hd =>
      rcases List.mem_append.mp h with h | h
      · exact visits_below (fun m hm => children_below (List.mem_append_left _ hm)) h
      · rcases List.mem_cons.mp h with rfl | h
        · exact .refl
        · exact visits_below (fun m hm => children_below (List.mem_append_right _ hm)) h
    | pattern p =>
      rcases List.mem_append.mp h with h | h
      · exact visits_below (fun _ => children_below) h
      · obtain rfl := List.mem_singleton.mp h
        exact .refl
    | _ => exact visits_below (fun _ => children_below) h

theorem below_of_precedes {f : FuncNode} {m spot : Spot} (h : Precedes f m spot) :
    f.node.Below m.node := by
  obtain ⟨t, ht, hbelow⟩ := h.exists_root
  have hroot : t.node ∈ stmtNodes f.body := node_of_mem_visits ht
  refine .head ?_ (hbelow.map parts_below)
  simp [FuncNode.node, Node.children, Stmt.children, hroot]

/-- A contract that `_analyze_function` returns is for an untouched, unconditional flow exactly when
nothing the filter does not know stands before the call. -/
theorem contract_untouched_iff (f : FuncNode) (flow : FoundFlow) (h : findFlow f = some flow) :
    Untouched f flow.param flow.call ↔ OnlyCaught f flow.param flow.call := by
  have hclean := findFlow_clean h
  refine and_congr_right fun _ => forall_congr' fun inner => imp_congr_right fun _ => and_congr_right fun _ => ?_
  refine forall_congr' fun m => imp_congr_right fun hm => and_congr ?_ ?_
  · refine ⟨fun hno hyes => absurd hyes hno, fun hcaught hrebinds => ?_⟩
    obtain ⟨s, hs, hline, hkill⟩ := hcaught hrebinds
    have hseen := (verifyCleanFlow_spec hclean (hs ▸ below_of_precedes hm) hline).2
    rw [hkill] at hseen
    cases hseen
  · refine ⟨fun hno hyes => absurd hyes hno, fun hcaught hcond => ?_⟩
    obtain ⟨s, hs, hline, hif⟩ := hcaught hcond
    have hseen := (verifyCleanFlow_spec hclean (hs ▸ below_of_precedes hm) hline).1
    rw [hif] at hseen
    cases hseen

/-- `open(p)` from the column on. -/
def openCall (column : ℕ) : SinkCall :=
  { pos := { lineno := 2, colOffset := column }, func := .name {} "open" .load, args := [.name {} "p" .load],
    keywords := [] }

/-- `def f(p)` with the statements and then `open(p)`. -/
def wrapper (first : List Stmt) : FuncNode :=
  { pos := {}, name := "f", args := { args := [{ arg := "p" }] },
    body := first ++ [.expr { lineno := 2 } (openCall 17).toExpr],
    decorators := [], returns := none, isAsync := false }

def openFlow : FoundFlow :=
  { param := "p", call := openCall 17,
    contract :=
      { funcName := "f", sinkArgIndex := 0, cweId := "CWE-22", targetSink := "open",
        funcLineno := 1, sinkLineno := 2 } }

theorem wrapper_spots {m : Spot} (h : ∃ t ∈ spotsOf (wrapper []), TreeWalk.Below Spot.parts t m) :
    m = .visit (.stmt (.expr { lineno := 2 } (openCall 17).toExpr)) [] ∨ m = callSpot (openCall 17) [] ∨
      m = .visit (.expr (.name {} "open" .load)) [] ∨ m = .visit (.expr (.name {} "p" .load)) [] := by
  obtain ⟨t, ht, h⟩ := h
  obtain rfl := List.mem_singleton.mp ht
  rcases TreeWalk.below_iff.mp h with rfl | ⟨t, ht, h⟩
  · exact .inl rfl
  obtain rfl := List.mem_singleton.mp ht
  rcases TreeWalk.below_iff.mp h with rfl | ⟨t, ht, h⟩
  · exact .inr (.inl rfl)
  rcases List.mem_cons.mp ht with rfl | ht
  · rcases TreeWalk.below_iff.mp h with rfl | ⟨t, ht, -⟩
    · exact .inr (.inr (.inl rfl))
    · exact absurd ht List.not_mem_nil
  · obtain rfl := List.mem_singleton.mp ht
    rcases TreeWalk.below_iff.mp h with rfl | ⟨t, ht, -⟩
    · exact .inr (.inr (.inr rfl))
    · exact absurd ht List.not_mem_nil

theorem contract_untouched_of_direct_call : Untouched (wrapper []) "p" (openCall 17) := by
  refine (contract_untouched_iff (wrapper []) openFlow rfl).mpr ⟨⟨[], ?_⟩, fun inner hreach => ⟨?_, ?_⟩⟩
  · exact ⟨_, List.mem_singleton_self _, .single (List.mem_singleton_self _)⟩
  · have hinner : inner = [] := by
      rcases wrapper_spots hreach with h | h | h | h <;> cases h
      rfl
    simp [hinner]
  · intro m hm
    rcases wrapper_spots hm.exists_root with rfl | rfl | rfl | rfl <;>
      exact ⟨False.elim, False.elim⟩

/-- `p = "safe"; open(p)` on one line: the filter looks at the lines above, so the contract says that `p`
reaches the file name. -/
theorem kill_on_line_unseen : ¬ ∀ (f : FuncNode) (flow : FoundFlow), findFlow f = some flow →
    Untouched f flow.param flow.call := by
  intro h
  let kill : Stmt := .assign { lineno := 2 } [.name {} "p" .store] (.constant {} (.str "safe"))
  have hprecedes : Precedes (wrapper [kill]) (.bound (.stmt kill) ["p"]) (callSpot (openCall 17) []) := by
    refine @TreeWalk.Before.apart _ _ [] _ _ (.visit (.stmt (.expr { lineno := 2 } (openCall 17).toExpr)) []) _ _
      (List.mem_singleton_self _) (.single ?_) (.single (List.mem_singleton_self _))
    exact List.mem_cons_of_mem _ (List.mem_singleton_self _)
  have hreach : Reaches (wrapper [kill]) (callSpot (openCall 17) []) :=
    ⟨_, List.mem_cons_of_mem _ (List.mem_singleton_self _), .single (List.mem_singleton_self _)⟩
  exact (((h (wrapper [kill]) openFlow rfl).2 [] hreach).2 _ hprecedes).1 (List.mem_singleton_self _)

end TimeCodeSecurity.Contracts
