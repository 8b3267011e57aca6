import Mathlib.Data.Finset.Basic
import TimeCodeSecurity.CrossFile.CallerAnalysis
import TimeCodeSecurity.CrossFile.ModuleNames

/-! # The sanitizer scan

`cross_file_engine.py`: the call sites whose arguments a sanitizer of another file has made harmless. Modules that
assign no result of a call with the name of a sanitizer are left out, and of the others each function is walked
once.
-/
namespace TimeCodeSecurity.CrossFile.SanitizerScan
open Py TreeWalk
set_option autoImplicit false

/-- `_GATE_RECEIVER_NODES`. -/
def isAssignment : Node → Bool
  | .stmt (.assign ..) | .stmt (.annAssign ..) | .stmt (.augAssign ..) => true
  | _ => false

/-- `_GATE_SITE_NODES`. -/
def isSiteNode : Node → Bool
  | .expr (.call ..) => true
  | n => isAssignment n

def statementChildren (n : Node) : List Node :=
  n.children.filter fun c =>
    match c with
    | .expr _ | .pattern _ => false
    | _ => true

/-- `_has_assign_statement`: the loop over a stack, which takes the last child first, looks for an assignment among
the children of a node. -/
def hasAssignStatement (root : Node) : Bool :=
  (stack (fun n => (statementChildren n).reverse) root.weight [root]).any fun n =>
    (statementChildren n).any isAssignment

/-- `_record_productive`: the assignments at depth 0, and the assignments and calls at all depths. A scope below the
root makes its children deeper. -/
def recordProductive (root : Node) : List Node × List Node :=
  let walk := (root, 0) :: stack (depthChildren Node.children isScope) root.weight (root.children.map (·, 0))
  ((walk.filter fun p => p.2 = 0 && isAssignment p.1).map Prod.fst, (walk.map Prod.fst).filter isSiteNode)

structure Resolver where
  classOf : String → Option ClassRef
  summary : Receivers → Expr → Option FunctionSummary

variable (R : Resolver)

def Resolver.bind (bindings : Receivers) (n : Node) : Receivers :=
  match constructorAssign n with
  | some recv =>
    match R.classOf recv.2 with
    | some ref => recv.1.foldl (fun b target => b.insert target ref) bindings
    | none => bindings
  | none => bindings

/-- `_instance_bindings` over nodes. -/
def Resolver.bindings (start : Receivers) (nodes : List Node) : Receivers := nodes.foldl R.bind start

structure Replay where
  assigned : Finset String := ∅
  sanitized : Finset String := ∅
  sites : Finset (String × ℕ) := ∅

def Replay.assign (neutralized : Bool) (r : Replay) (id : String) : Replay :=
  { r with
    assigned := insert id r.assigned
    sanitized := if neutralized then insert id r.sanitized else r.sanitized.erase id }

def loadedName : Node → Option String
  | .expr (.name _ id .load) => some id
  | _ => none

def Replay.relevant (r : Replay) (n : Node) : List String :=
  (n.walk.filterMap loadedName).filter (· ∈ r.assigned)

def replayStep (fileKey : String) (summary : Expr → Option FunctionSummary) (r : Replay) (n : Node) : Replay :=
  match n with
  | .stmt (.assign _ targets value) =>
    (targets.filterMap nameOf).foldl (Replay.assign ((summary value).any FunctionSummary.isSanitizer)) r
  | .expr (.call pos _ _ _) =>
    if r.relevant n ≠ [] ∧ ∀ x ∈ r.relevant n, x ∈ r.sanitized then
      { r with sites := insert (fileKey, pos.lineno) r.sites }
    else r
  | _ => r

def replaySites (fileKey : String) (summary : Expr → Option FunctionSummary) (nodes : List Node) :
    Finset (String × ℕ) :=
  (nodes.foldl (replayStep fileKey summary) {}).sites

def sanitizedSites (start : Receivers) (fileKey : String) (root : Node) : Finset (String × ℕ) :=
  if hasAssignStatement root = false then ∅
  else
    let recorded := recordProductive root
    replaySites fileKey (R.summary (R.bindings start recorded.1)) recorded.2

/-- The scan without pruning: `_ordered_nodes` in one scope for the receivers, and in full for the replay. -/
def plainSites (start : Receivers) (fileKey : String) (root : Node) : Finset (String × ℕ) :=
  replaySites fileKey (R.summary (R.bindings start (ownScopeNodes root))) root.preorder

section
variable (P : Project)

def resolverOf (callerMod : String) : Resolver where
  classOf name := classOfName P.index name callerMod
  summary receivers value := (resolveCallContract P callerMod receivers value).bind P.contracts.lookup

/-- `qual.rsplit(".", 1)[-1]`. -/
def lastComponent (qual : String) : String :=
  String.ofList (qual.toList.reverse.takeWhile (· ≠ '.')).reverse

def sanitizerTailSet : List String :=
  P.contracts.items.filterMap fun c => if c.2.isSanitizer then some (lastComponent c.1.2) else none

def importedContract (localName : String) (binding : ImportBinding) : Option FunctionSummary :=
  (matchRegisteredModule P.index binding.sourceModule).bind fun target =>
    if target = "" then none else P.contracts.lookup (target, orName binding.importedName localName)

def moduleSanitizerAliases (modName : String) : List String :=
  ((P.index.modules.lookup modName).map fun idx =>
    idx.imports.items.filterMap fun i =>
      if (importedContract P i.1 i.2).any FunctionSummary.isSanitizer then some i.1 else none).getD []

def assignedCallee : Node → Option String
  | .stmt (.assign _ _ (.call _ func _ _)) => if calleeTail func = "" then none else some (calleeTail func)
  | _ => none

def assignCallees (tree : Module) : List String := (moduleWalk tree).filterMap assignedCallee

def mayHoldSanitizerSite (modName : String) (callees : List String) : Bool :=
  callees.any fun c => c ∈ sanitizerTailSet P ++ moduleSanitizerAliases P modName

end

/-! ## The index as it is built -/

structure ProjectRoot where
  resolve : String → String
  resolve_resolve : ∀ path, resolve (resolve path) = resolve path
  modname : String → String

structure ParsedFile where
  path : String
  tree : Option Module

def define (path : String) (idx : ModuleIndex) (name : String) (kind : SymbolKind) : ModuleIndex :=
  { idx with definitions := idx.definitions.insert name { name, kind, filePath := path } }

def indexMethod (path cls : String) (idx : ModuleIndex) (item : Stmt) : ModuleIndex :=
  match item with
  | .functionDef _ _ name _ _ _ _ => define path idx (cls ++ "." ++ name) .method
  | _ => idx

def indexStmt (modName path : String) (idx : ModuleIndex) (stmt : Stmt) : ModuleIndex :=
  match stmt with
  | .functionDef _ isAsync name _ _ _ _ => define path idx name (if isAsync then .asyncFunction else .function)
  | .classDef _ name _ _ body _ => body.foldl (indexMethod path name) (define path idx name .classKind)
  | .importStmt _ names =>
    names.foldl (fun idx a =>
      { idx with imports := idx.imports.insert (orName (a.asname.getD "") a.name) ⟨a.name, ""⟩ }) idx
  | .importFrom _ module names level =>
    let target := resolveFromModule modName module level
    names.foldl (fun idx a =>
      if a.name = "*" then { idx with starImports := idx.starImports ++ [target] }
      else { idx with imports := idx.imports.insert (orName (a.asname.getD "") a.name) ⟨target, a.name⟩ }) idx
  | _ => idx

section
variable (root : ProjectRoot) (files : List ParsedFile)

/-- `_file_to_modname`. -/
def ProjectRoot.fileModname (f : ParsedFile) : String := root.modname (root.resolve f.path)

def indexFile (idx : ModuleIndex) (f : ParsedFile) : ModuleIndex :=
  match f.tree with
  | some tree => tree.foldl (indexStmt (root.fileModname f) f.path) idx
  | none => idx

def moduleIndex (modName : String) : ModuleIndex :=
  let own := files.filter fun f => root.fileModname f = modName
  own.foldl (indexFile root) { filePath := (own.getLast?.map ParsedFile.path).getD "" }

/-- `build`: a module stands where its name was registered first. -/
def buildIndex : GlobalSymbolIndex where
  modules := files.foldr
    (fun f modules => modules.insert (root.fileModname f) (moduleIndex root files (root.fileModname f))) ∅
  fileToModule path :=
    if files.any fun f => f.path = root.resolve path then some (root.modname (root.resolve (root.resolve path)))
    else none

end

structure BuiltProject extends Project where
  root : ProjectRoot
  files : List ParsedFile
  built : index = buildIndex root files

def identifierOf : Node → Option String
  | .expr (.name _ id _) => some id
  | .expr (.attr _ _ attr _) => some attr
  | _ => none

structure ParsedModule where
  tree : Module
  identifiers : ∀ n ∈ moduleWalk tree, ∀ id, identifierOf n = some id → id ≠ "" ∧ '.' ∉ id.toList

/-- The pruned scan of a function finds the sites of the plain one. -/
def PrunedIsPlain : Prop :=
  ∀ (R : Resolver) (start : Receivers) (fileKey : String) (f : FuncNode),
    sanitizedSites R start fileKey f.node = plainSites R start fileKey f.node

/-- No function of a module that is left out has a site. -/
def RejectedIsBare : Prop :=
  ∀ (B : BuiltProject) (modName callerFunc fileKey : String) (m : ParsedModule),
    mayHoldSanitizerSite B.toProject modName (assignCallees m.tree) = false →
      ∀ f : FuncNode, f.node ∈ moduleWalk m.tree →
        sanitizedSites (resolverOf B.toProject modName) (initialBindings modName callerFunc) fileKey f.node = ∅

theorem walk_recorded (root : Node) :
    (root, 0) :: stack (depthChildren Node.children isScope) root.weight (root.children.map (·, 0)) =
      (root, 0) :: (root.children.map (·, 0)).flatMap
        (listing (depthChildren Node.children isScope) fun p => p.1.weight) := by
  have hlt := Node.sized root
  have hsized : Sized (depthChildren Node.children isScope) fun p => p.1.weight :=
    sized_depthChildren isScope Node.sized
  rw [stack_eq_flatMap hsized]
  rw [List.map_map]
  exact hlt.le

theorem preorder_eq (root : Node) :
    root.preorder = root :: root.children.flatMap (listing Node.children Node.weight) := listing_eq Node.sized root

theorem ownScopeNodes_eq (root : Node) :
    ownScopeNodes root = root :: root.children.flatMap (listing ownScopeChildren Node.weight) := by
  have hlt := Node.sized root
  have hsized : Sized ownScopeChildren Node.weight := sized_shallowChildren isScope Node.sized
  rw [ownScopeNodes, stack_eq_flatMap hsized hlt.le]

theorem recordProductive_eq (root : Node) :
    recordProductive root = ((ownScopeNodes root).filter isAssignment, root.preorder.filter isSiteNode) := by
  have hshallow : ∀ c : Node, ((listing (depthChildren Node.children isScope) (fun p => p.1.weight) (c, 0)).filter
      fun p => p.2 = 0).map Prod.fst = listing ownScopeChildren Node.weight c :=
    fun c => filter_listing_depth isScope Node.sized c
  have hfull : ∀ c : Node, (listing (depthChildren Node.children isScope) (fun p => p.1.weight) (c, 0)).map
      Prod.fst = listing Node.children Node.weight c :=
    fun c => map_fst_listing_depth isScope Node.sized (c, 0)
  rw [recordProductive, walk_recorded, ownScopeNodes_eq, preorder_eq]
  refine Prod.ext ?_ ?_
  · have hsplit : ∀ walk : List (Node × ℕ), (walk.filter fun p => p.2 = 0 && isAssignment p.1).map Prod.fst =
        ((walk.filter fun p => p.2 = 0).map Prod.fst).filter isAssignment := by
      intro walk
      rw [List.filter_map, List.filter_filter]
      refine congrArg _ (List.filter_congr fun p _ => ?_)
      exact Bool.and_comm _ _
    rw [hsplit]
    simp only [List.filter_cons, decide_true, if_true, List.map_cons, List.flatMap_map, List.filter_flatMap,
      List.map_flatMap, hshallow]
  · simp only [List.map_cons, List.flatMap_map, List.map_flatMap, hfull]

theorem replayStep_of_not_site {fileKey : String} {summary : Expr → Option FunctionSummary} {r : Replay} {n : Node}
    (h : isSiteNode n = false) : replayStep fileKey summary r n = r := by
  cases n with
  | stmt s => cases s <;> first | rfl | cases h
  | expr e => cases e <;> first | rfl | cases h
  | _ => rfl

theorem foldl_filter_of_skipped {α β : Type} {step : β → α → β} {keep : α → Bool}
    (h : ∀ r n, keep n = false → step r n = r) (nodes : List α) (r : β) :
    (nodes.filter keep).foldl step r = nodes.foldl step r := by
  induction nodes generalizing r with
  | nil => rfl
  | cons n nodes ih =>
    rw [List.filter_cons, List.foldl_cons]
    by_cases hn : keep n = true
    · rw [if_pos hn, List.foldl_cons, ih]
    · rw [if_neg hn, ih, h r n (by simpa using hn)]

theorem bind_of_not_assignment {R : Resolver} {b : Receivers} {n : Node} (h : isAssignment n = false) :
    R.bind b n = b := by
  have hnone : constructorAssign n = none := by
    cases n with
    | stmt s => cases s <;> first | rfl | cases h
    | _ => rfl
  rw [Resolver.bind, hnone]

theorem assign_sanitized {r : Replay} (hr : r.sanitized = ∅) (ids : List String) :
    (ids.foldl (Replay.assign false) r).sanitized = ∅ ∧ (ids.foldl (Replay.assign false) r).sites = r.sites := by
  induction ids generalizing r with
  | nil => exact ⟨hr, rfl⟩
  | cons id ids ih => exact ih (by simp [Replay.assign, hr])

theorem replaySites_eq_empty {fileKey : String} {summary : Expr → Option FunctionSummary} {nodes : List Node}
    (h : ∀ pos targets value, Node.stmt (.assign pos targets value) ∈ nodes →
      (summary value).any FunctionSummary.isSanitizer = false) :
    replaySites fileKey summary nodes = ∅ := by
  have hrun : ∀ (nodes : List Node) (r : Replay), r.sanitized = ∅ → r.sites = ∅ →
      (∀ pos targets value, Node.stmt (.assign pos targets value) ∈ nodes →
        (summary value).any FunctionSummary.isSanitizer = false) →
      (nodes.foldl (replayStep fileKey summary) r).sites = ∅ := by
    intro nodes
    induction nodes with
    | nil => exact fun r _ hsites _ => hsites
    | cons n nodes ih =>
      intro r hsanitized hsites h
      have hstep : (replayStep fileKey summary r n).sanitized = ∅ ∧ (replayStep fileKey summary r n).sites = ∅ := by
        by_cases hn : isSiteNode n = true
        · cases n with
          | stmt s =>
            cases s with
            | assign pos targets value =>
              rw [replayStep, h pos targets value List.mem_cons_self]
              obtain ⟨hempty, hsame⟩ := assign_sanitized hsanitized (targets.filterMap nameOf)
              exact ⟨hempty, hsame.trans hsites⟩
            | _ => exact ⟨hsanitized, hsites⟩
          | expr e =>
            cases e with
            | call pos func args keywords =>
              rw [replayStep, if_neg]
              · exact ⟨hsanitized, hsites⟩
              · rintro ⟨hne, hall⟩
                obtain ⟨x, hx⟩ := List.exists_mem_of_ne_nil _ hne
                have hmem := hall x hx
                rw [hsanitized] at hmem
                exact absurd hmem (Finset.notMem_empty x)
            | _ => exact ⟨hsanitized, hsites⟩
          | _ => exact ⟨hsanitized, hsites⟩
        · rw [replayStep_of_not_site (by simpa using hn)]
          exact ⟨hsanitized, hsites⟩
      exact ih _ hstep.1 hstep.2 fun pos targets value hmem => h pos targets value (List.mem_cons_of_mem n hmem)
  exact hrun nodes {} rfl rfl h

def bare (n : Node) : Bool :=
  n.isExprPart || match n with
    | .pattern _ => true
    | _ => false

theorem bare_of_child {n c : Node} (hn : bare n = true) (hc : c ∈ n.children) : bare c = true := by
  cases n with
  | pattern p =>
    have hall : p.children.all bare = true := by
      cases p <;> simp [Pattern.children, exprNodes, bare, Node.isExprPart]
    exact List.all_eq_true.mp hall c hc
  | expr e => simp [bare, Node.isExprPart_children (n := .expr e) rfl hc]
  | arguments a => simp [bare, Node.isExprPart_children (n := .arguments a) rfl hc]
  | arg a => simp [bare, Node.isExprPart_children (n := .arg a) rfl hc]
  | keyword k => simp [bare, Node.isExprPart_children (n := .keyword k) rfl hc]
  | comprehension k => simp [bare, Node.isExprPart_children (n := .comprehension k) rfl hc]
  | stmt s => cases hn
  | withItem w => cases hn
  | handler k => cases hn
  | matchCase k => cases hn

theorem mem_statementChildren {n c : Node} (hc : c ∈ n.children) (hbare : bare c = false) :
    c ∈ statementChildren n := by
  rw [statementChildren, List.mem_filter]
  refine ⟨hc, ?_⟩
  cases c <;> first | rfl | cases hbare

theorem below_statementChildren {root n : Node} (h : root.Below n) (hbare : bare n = false) :
    TreeWalk.Below (fun n => (statementChildren n).reverse) root n := by
  induction h with
  | refl => exact .refl
  | tail hbelow hc ih =>
    rename_i parent child
    have hparent : bare parent = false := by
      by_contra hp
      rw [Bool.not_eq_false] at hp
      rw [bare_of_child hp hc] at hbare
      cases hbare
    exact .tail (ih hparent) (List.mem_reverse.mpr (mem_statementChildren hc hbare))

theorem sized_statementChildren : Sized (fun n => (statementChildren n).reverse) Node.weight := by
  intro n
  have hlt := Node.sized n
  have hle : ((statementChildren n).map Node.weight).sum ≤ (n.children.map Node.weight).sum :=
    (List.filter_sublist.map Node.weight).sum_le_sum fun _ _ => Nat.zero_le _
  rw [List.map_reverse, List.sum_reverse]
  omega

theorem hasAssignStatement_of_below {root n : Node} (h : root.Below n) (hn : isAssignment n = true)
    (hroot : isAssignment root = false) : hasAssignStatement root = true := by
  have hbare : bare n = false := by
    cases n <;> first | rfl | cases hn
  rcases Relation.ReflTransGen.cases_tail h with rfl | ⟨parent, hparent, hc⟩
  · rw [hn] at hroot
    cases hroot
  · have hup : bare parent = false := by
      by_contra hp
      rw [Bool.not_eq_false] at hp
      rw [bare_of_child hp hc] at hbare
      cases hbare
    rw [hasAssignStatement, List.any_eq_true]
    refine ⟨parent, ?_, List.any_eq_true.mpr ⟨n, mem_statementChildren hc hbare, hn⟩⟩
    rw [mem_stack_iff sized_statementChildren (by simp)]
    exact ⟨root, List.mem_singleton_self root, below_statementChildren hparent hup⟩

theorem mem_preorder_iff {root n : Node} : n ∈ root.preorder ↔ root.Below n := by
  rw [Node.preorder, mem_stack_iff Node.sized (by simp)]
  simp

theorem sanitizedSites_eq {R : Resolver} {start : Receivers} {fileKey : String} {root : Node}
    (hroot : isAssignment root = false) : sanitizedSites R start fileKey root = plainSites R start fileKey root := by
  rw [sanitizedSites, plainSites]
  split_ifs with hassign
  · symm
    apply replaySites_eq_empty
    intro pos targets value hmem
    have htrue := hasAssignStatement_of_below (mem_preorder_iff.mp hmem) rfl hroot
    rw [hassign] at htrue
    cases htrue
  · have hbind : ∀ b n, isAssignment n = false → R.bind b n = b := fun b n hn => bind_of_not_assignment hn
    have hreceivers : R.bindings start ((ownScopeNodes root).filter isAssignment) =
        R.bindings start (ownScopeNodes root) := foldl_filter_of_skipped hbind _ _
    show replaySites fileKey (R.summary (R.bindings start (recordProductive root).1)) (recordProductive root).2 = _
    rw [recordProductive_eq]
    show replaySites fileKey (R.summary (R.bindings start ((ownScopeNodes root).filter isAssignment)))
      (root.preorder.filter isSiteNode) = _
    have hstep : ∀ r n, isSiteNode n = false →
        replayStep fileKey (R.summary (R.bindings start (ownScopeNodes root))) r n = r :=
      fun r n hn => replayStep_of_not_site hn
    rw [hreceivers, replaySites, foldl_filter_of_skipped hstep]
    rfl

theorem prunedIsPlain : PrunedIsPlain := fun _ _ _ _ => sanitizedSites_eq rfl

def Homed (root : ProjectRoot) (modName : String) (idx : ModuleIndex) : Prop :=
  ∀ name d, idx.definitions.lookup name = some d → d.name = name ∧ root.modname (root.resolve d.filePath) = modName

section
variable {root : ProjectRoot} {modName path : String}

theorem Homed.define {idx : ModuleIndex} (h : Homed root modName idx)
    (hpath : root.modname (root.resolve path) = modName) (name : String) (kind : SymbolKind) :
    Homed root modName (define path idx name kind) := by
  intro name' d hd
  rw [SanitizerScan.define, DictOf.lookup_insert_eq] at hd
  split at hd
  · rename_i hname
    obtain rfl := Option.some.inj hd
    exact ⟨hname.symm, hpath⟩
  · exact h name' d hd

theorem Homed.foldl {α : Type} {step : ModuleIndex → α → ModuleIndex}
    (hstep : ∀ idx a, Homed root modName idx → Homed root modName (step idx a)) {idx : ModuleIndex}
    (h : Homed root modName idx) (items : List α) : Homed root modName (items.foldl step idx) := by
  induction items generalizing idx with
  | nil => exact h
  | cons a items ih => exact ih (hstep idx a h)

theorem Homed.indexStmt {idx : ModuleIndex} (h : Homed root modName idx)
    (hpath : root.modname (root.resolve path) = modName) (stmt : Stmt) :
    Homed root modName (indexStmt modName path idx stmt) := by
  cases stmt with
  | functionDef => exact h.define hpath _ _
  | classDef =>
    apply Homed.foldl _ (h.define hpath _ _)
    intro idx item hidx
    cases item with
    | functionDef => exact hidx.define hpath _ _
    | _ => exact hidx
  | importStmt =>
    apply Homed.foldl _ h
    intro idx a hidx
    exact hidx
  | importFrom =>
    apply Homed.foldl _ h
    intro idx a hidx
    split
    · exact hidx
    · exact hidx
  | _ => exact h

theorem homed_moduleIndex (files : List ParsedFile) : Homed root modName (moduleIndex root files modName) := by
  have hrun : ∀ (own : List ParsedFile) (idx : ModuleIndex), (∀ f ∈ own, root.fileModname f = modName) →
      Homed root modName idx → Homed root modName (own.foldl (indexFile root) idx) := by
    intro own
    induction own with
    | nil => exact fun _ _ h => h
    | cons f own ih =>
      intro idx hown h
      rw [List.forall_mem_cons] at hown
      apply ih _ hown.2
      rw [indexFile]
      cases f.tree with
      | none => exact h
      | some tree =>
        rw [hown.1]
        exact Homed.foldl (fun _ stmt hidx => hidx.indexStmt hown.1 stmt) h tree
  apply hrun
  · intro f hf
    exact of_decide_eq_true (List.mem_filter.mp hf).2
  · intro name d hd
    cases hd

theorem lookup_buildIndex {files : List ParsedFile} {m : String} {idx : ModuleIndex}
    (h : (buildIndex root files).modules.lookup m = some idx) : idx = moduleIndex root files m := by
  have hrun : ∀ some' : List ParsedFile, (some'.foldr (fun f modules =>
      AList.insert (root.fileModname f) (moduleIndex root files (root.fileModname f)) modules)
      (∅ : Dict ModuleIndex)).lookup m = some idx → idx = moduleIndex root files m := by
    intro some' h
    induction some' with
    | nil => cases h
    | cons f some' ih =>
      rw [List.foldr_cons, DictOf.lookup_insert_eq] at h
      split at h
      · rename_i hm
        rw [hm]
        exact (Option.some.inj h).symm
      · exact ih h
  exact hrun files h

end

/-! ## A sanitizer is called by its last name or by an alias -/

theorem no_dot_reverse {name : String} (h : '.' ∉ name.toList) :
    ∀ c ∈ name.toList.reverse, (decide (c ≠ '.')) = true := by
  intro c hc
  rw [List.mem_reverse] at hc
  simp only [decide_eq_true_eq]
  rintro rfl
  exact h hc

theorem lastComponent_of_plain {name : String} (h : '.' ∉ name.toList) : lastComponent name = name := by
  rw [lastComponent, List.takeWhile_eq_self_iff.mpr (no_dot_reverse h), List.reverse_reverse, String.ofList_toList]

theorem lastComponent_append {pre name : String} (h : '.' ∉ name.toList) :
    lastComponent (pre ++ "." ++ name) = name := by
  have htext : (pre ++ "." ++ name).toList.reverse = name.toList.reverse ++ '.' :: pre.toList.reverse := by
    simp [String.toList_append]
  rw [lastComponent, htext, List.takeWhile_append_of_pos (no_dot_reverse h), List.takeWhile_cons, if_neg (by simp),
    List.append_nil, List.reverse_reverse, String.ofList_toList]

theorem mem_sanitizerTailSet {P : Project} {key : FuncKey} {s : FunctionSummary}
    (h : P.contracts.lookup key = some s) (hs : s.isSanitizer = true) :
    lastComponent key.2 ∈ sanitizerTailSet P := by
  rw [sanitizerTailSet, List.mem_filterMap]
  exact ⟨(key, s), DictOf.mem_items_iff.mpr h, if_pos hs⟩

theorem contractKey_eq {P : Project} {key found : FuncKey} (h : P.contractKey key = some found) : found = key := by
  rw [Project.contractKey] at h
  split at h
  · exact (Option.some.inj h).symm
  · cases h

theorem searchInherited_name {P : Project} {attr : String} {fuel : ℕ} {pending seen : List ClassRef} {key : FuncKey}
    (h : searchInherited P attr fuel pending seen = some key) : ∃ cls, key.2 = cls ++ "." ++ attr := by
  induction fuel generalizing pending seen with
  | zero => cases h
  | succ fuel ih =>
    cases pending with
    | nil => cases h
    | cons c pending =>
      rw [searchInherited] at h
      dsimp only at h
      split_ifs at h
      · exact ih h
      · obtain rfl := Option.some.inj h
        exact ⟨c.1, rfl⟩
      · exact ih h

theorem resolveMethod_name {P : Project} {callerMod attr : String} {receiver : Expr} {receivers : Receivers}
    {key : FuncKey} (h : resolveMethodContract P callerMod receiver attr receivers = some key) :
    ∃ cls, key.2 = cls ++ "." ++ attr := by
  unfold resolveMethodContract at h
  obtain ⟨c, -, h⟩ := Option.bind_eq_some_iff.mp h
  exact searchInherited_name h

theorem resolveModuleAttribute_name {P : Project} {callerMod attr : String} {receiver : Expr} {key : FuncKey}
    (h : resolveModuleAttributeContract P callerMod receiver attr = some key) : key.2 = attr := by
  cases receiver with
  | name pos id ctx =>
    rw [resolveModuleAttributeContract, resolveModuleAttribute, Option.bind_eq_some_iff] at h
    obtain ⟨m, -, h⟩ := h
    rw [contractKey_eq h]
  | _ => cases h

section
variable {B : BuiltProject}

theorem homed_of_lookup {m name : String} {idx : ModuleIndex} {d : SymbolDefinition}
    (hidx : B.index.modules.lookup m = some idx) (hd : idx.definitions.lookup name = some d) :
    d.name = name ∧ ∀ home, B.index.fileToModule d.filePath = some home → home = m := by
  rw [B.built] at hidx
  obtain rfl := lookup_buildIndex hidx
  obtain ⟨hname, hpath⟩ := homed_moduleIndex B.files name d hd
  refine ⟨hname, fun home hhome => ?_⟩
  rw [B.built, buildIndex] at hhome
  simp only [B.root.resolve_resolve, hpath] at hhome
  split at hhome
  · exact (Option.some.inj hhome).symm
  · cases hhome

theorem name_of_definitionIn {moduleName name : String} {d : SymbolDefinition}
    (h : definitionIn B.index moduleName name = some d) : d.name = name ∧
      ∃ m, matchRegisteredModule B.index moduleName = some m ∧ m ≠ "" ∧
        ∀ home, B.index.fileToModule d.filePath = some home → home = m := by
  rw [definitionIn, Option.bind_eq_some_iff] at h
  obtain ⟨m, hm, h⟩ := h
  split at h
  · cases h
  · rename_i hne
    obtain ⟨idx, hidx, hd⟩ := Option.bind_eq_some_iff.mp h
    obtain ⟨hname, hhome⟩ := homed_of_lookup hidx hd
    exact ⟨hname, m, hm, hne, hhome⟩

theorem resolveSymbol_cases {callerMod name : String} {d : SymbolDefinition}
    (h : resolveSymbol B.index callerMod name = some d) : d.name = name ∨
      ∃ idx b m, B.index.modules.lookup callerMod = some idx ∧ idx.imports.lookup name = some b ∧
        matchRegisteredModule B.index b.sourceModule = some m ∧ m ≠ "" ∧ d.name = orName b.importedName name ∧
        ∀ home, B.index.fileToModule d.filePath = some home → home = m := by
  rw [resolveSymbol, Option.bind_eq_some_iff] at h
  obtain ⟨idx, hidx, h⟩ := h
  rcases Option.or_eq_some_iff.mp h with h | ⟨-, h⟩
  · exact .inl (homed_of_lookup hidx h).1
  · rcases Option.or_eq_some_iff.mp h with h | ⟨-, h⟩
    · obtain ⟨b, hb, h⟩ := Option.bind_eq_some_iff.mp h
      obtain ⟨hname, m, hm, hne, hhome⟩ := name_of_definitionIn h
      exact .inr ⟨idx, b, m, hidx, hb, hm, hne, hname, hhome⟩
    · obtain ⟨star, -, h⟩ := List.exists_of_findSome?_eq_some h
      exact .inl (name_of_definitionIn h).1

theorem named_covered {callerMod name : String} {key : FuncKey} {s : FunctionSummary} (hplain : '.' ∉ name.toList)
    (h : resolveNamedContract B.toProject callerMod name = some key)
    (hcontract : B.contracts.lookup key = some s) (hs : s.isSanitizer = true) :
    name ∈ sanitizerTailSet B.toProject ++ moduleSanitizerAliases B.toProject callerMod := by
  rw [resolveNamedContract, Option.bind_eq_some_iff] at h
  obtain ⟨d, hd, h⟩ := h
  obtain ⟨home, hhome, h⟩ := Option.bind_eq_some_iff.mp h
  split at h
  · cases h
  · obtain rfl := contractKey_eq h
    rw [List.mem_append]
    rcases resolveSymbol_cases hd with hname | ⟨idx, b, m, hidx, hb, hm, hne, hname, hhomed⟩
    · left
      have hmem := mem_sanitizerTailSet hcontract hs
      rw [hname, lastComponent_of_plain hplain] at hmem
      exact hmem
    · right
      rw [hhomed home hhome, hname] at hcontract
      have hbound : importedContract B.toProject name b = some s := by
        rw [importedContract, hm, Option.bind_some, if_neg hne, hcontract]
      rw [moduleSanitizerAliases, hidx, Option.map_some, Option.getD_some, List.mem_filterMap]
      refine ⟨(name, b), DictOf.mem_items_iff.mpr hb, ?_⟩
      rw [hbound, if_pos (by simpa using hs)]

theorem callee_covered {callerMod : String} {receivers : Receivers} {func : Expr} {key : FuncKey}
    {s : FunctionSummary} (hplain : ∀ id, identifierOf (.expr func) = some id → id ≠ "" ∧ '.' ∉ id.toList)
    (h : resolveCalleeContract B.toProject callerMod receivers func = some key)
    (hcontract : B.contracts.lookup key = some s) (hs : s.isSanitizer = true) :
    calleeTail func ≠ "" ∧
      calleeTail func ∈ sanitizerTailSet B.toProject ++ moduleSanitizerAliases B.toProject callerMod := by
  cases func with
  | name pos id ctx =>
    obtain ⟨hne, hdot⟩ := hplain id rfl
    exact ⟨hne, named_covered hdot h hcontract hs⟩
  | attr pos value attr ctx =>
    obtain ⟨hne, hdot⟩ := hplain attr rfl
    refine ⟨hne, ?_⟩
    have htail := mem_sanitizerTailSet hcontract hs
    rw [resolveCalleeContract] at h
    rcases Option.or_eq_some_iff.mp h with h | ⟨-, h⟩
    · obtain ⟨cls, hcls⟩ := resolveMethod_name h
      rw [hcls, lastComponent_append hdot] at htail
      exact List.mem_append_left _ htail
    · rcases Option.or_eq_some_iff.mp h with h | ⟨-, h⟩
      · rw [resolveModuleAttribute_name h, lastComponent_of_plain hdot] at htail
        exact List.mem_append_left _ htail
      · exact named_covered hdot h hcontract hs
  | _ => cases h

theorem mem_moduleWalk_iff {tree : Module} {n : Node} :
    n ∈ moduleWalk tree ↔ ∃ s ∈ stmtNodes tree, Node.Below s n := by
  rw [moduleWalk, mem_queue_iff Node.sized]
  exact (nodesWeight_stmtNodes tree).le

theorem mem_moduleWalk_of_below {tree : Module} {n m : Node} (hn : n ∈ moduleWalk tree) (h : n.Below m) :
    m ∈ moduleWalk tree := by
  obtain ⟨s, hs, hbelow⟩ := mem_moduleWalk_iff.mp hn
  exact mem_moduleWalk_iff.mpr ⟨s, hs, hbelow.trans h⟩

theorem no_sanitizer_of_rejected {m : ParsedModule} {modName : String} {receivers : Receivers}
    (h : mayHoldSanitizerSite B.toProject modName (assignCallees m.tree) = false) {pos : Pos} {targets : List Expr}
    {value : Expr} (hmem : Node.stmt (.assign pos targets value) ∈ moduleWalk m.tree) :
    ((resolverOf B.toProject modName).summary receivers value).any FunctionSummary.isSanitizer = false := by
  rw [← Bool.not_eq_true, Option.any_eq_true]
  rintro ⟨s, hsummary, hs⟩
  obtain ⟨key, hkey, hcontract⟩ := Option.bind_eq_some_iff.mp hsummary
  cases value with
  | call vpos func args keywords =>
    have hcall : Node.expr (.call vpos func args keywords) ∈ moduleWalk m.tree := by
      refine mem_moduleWalk_of_below hmem (.single ?_)
      simp [Node.children, Stmt.children]
    have hfunc : Node.expr func ∈ moduleWalk m.tree :=
      mem_moduleWalk_of_below hcall (.single List.mem_cons_self)
    obtain ⟨hne, hcovered⟩ := callee_covered (m.identifiers _ hfunc) hkey hcontract hs
    have htrue : mayHoldSanitizerSite B.toProject modName (assignCallees m.tree) = true := by
      rw [mayHoldSanitizerSite, List.any_eq_true]
      refine ⟨calleeTail func, List.mem_filterMap.mpr ⟨_, hmem, ?_⟩, by simpa using hcovered⟩
      rw [assignedCallee, if_neg hne]
    rw [h] at htrue
    cases htrue
  | _ => cases hkey

end

theorem rejectedIsBare : RejectedIsBare := by
  intro B modName callerFunc fileKey m h f hf
  rw [sanitizedSites_eq rfl]
  apply replaySites_eq_empty
  intro pos targets value hmem
  exact no_sanitizer_of_rejected h (mem_moduleWalk_of_below hf (mem_preorder_iff.mp hmem))

/-- Neither the pruning of a walk nor the selection of the modules loses a site. -/
theorem scan_is_exact : PrunedIsPlain ∧ RejectedIsBare := ⟨prunedIsPlain, rejectedIsBare⟩

end TimeCodeSecurity.CrossFile.SanitizerScan
