import TimeCodeSecurity.Scanner.Collect
import Mathlib.Algebra.Order.Group.Multiset
import Mathlib.Tactic.Abel

/-! # What binding a name leaves alone

The entries for targets, fields, guards and mutated containers go into tables of their own. The calls,
the scans and the definitions stay as they are.
-/
namespace TimeCodeSecurity.Scanner
open Py
set_option autoImplicit false

structure Keeps (T T' : Tracker) : Prop where
  rawCalls : T'.rawCalls = T.rawCalls
  scans : T'.scans = T.scans
  functions : T'.functions = T.functions
  classes : T'.classes = T.classes

namespace Keeps

variable {T T' T'' : Tracker}

theorem refl (T : Tracker) : Keeps T T := ⟨rfl, rfl, rfl, rfl⟩

theorem trans (h : Keeps T T') (h' : Keeps T' T'') : Keeps T T'' :=
  ⟨h'.rawCalls.trans h.rawCalls, h'.scans.trans h.scans, h'.functions.trans h.functions,
    h'.classes.trans h.classes⟩

theorem foldl {α : Type} {f : Tracker → α → Tracker} (hf : ∀ T a, Keeps T (f T a)) (as : List α)
    (T : Tracker) : Keeps T (as.foldl f T) := by
  induction as generalizing T with
  | nil => exact refl T
  | cons a as ih => exact (hf T a).trans (ih (f T a))

end Keeps

variable (T : Tracker)

theorem keeps_record (r : AssignmentRecord) : Keeps T (T.record r) := ⟨rfl, rfl, rfl, rfl⟩

theorem keeps_addReturn (scopeId : String) (n : Node) : Keeps T (T.addReturn scopeId n) :=
  ⟨rfl, rfl, rfl, rfl⟩

theorem keeps_bindName (r : AssignmentRecord) : Keeps T (T.bindName r) := by
  unfold Tracker.bindName
  split <;> exact ⟨rfl, rfl, rfl, rfl⟩

theorem keeps_bindField (r : AssignmentRecord) : Keeps T (T.bindField r) := by
  unfold Tracker.bindField
  split <;> exact ⟨rfl, rfl, rfl, rfl⟩

theorem keeps_writeField (field : String) (value : Expr) (lineno : ℕ) (scopeId : String) :
    Keeps T (T.writeField field value lineno scopeId) := by
  unfold Tracker.writeField
  split <;> exact ⟨rfl, rfl, rfl, rfl⟩

theorem keeps_recordContainerMutation (e : Expr) (scopeId : String) (lineno : ℕ) :
    Keeps T (T.recordContainerMutation e scopeId lineno) := by
  unfold Tracker.recordContainerMutation
  split
  · split
    · split <;> exact ⟨rfl, rfl, rfl, rfl⟩
    · exact .refl T
  · exact .refl T

theorem keeps_addGuards (H : Host) (scopeId : String) (line : ℕ) (test : Expr)
    (body orelse : List Stmt) : Keeps T (T.addGuards H scopeId line test body orelse) := by
  unfold Tracker.addGuards
  split <;> exact ⟨rfl, rfl, rfl, rfl⟩

variable (scopeId : String) (isConditional : Bool) (lineno : ℕ) (value : Expr)

theorem keeps_assignSubscript (dynamic : Bool) (container index : Expr) :
    Keeps T (T.assignSubscript scopeId isConditional lineno value dynamic container index) := by
  unfold Tracker.assignSubscript
  split
  · split
    · exact keeps_record T _
    · split
      · exact keeps_bindField T _
      · exact .refl T
  · split
    · split
      · exact keeps_writeField T _ _ _ _
      · exact .refl T
    · exact .refl T

theorem keeps_assignPath (target : Expr) :
    Keeps T (T.assignPath scopeId isConditional lineno value target) := by
  unfold Tracker.assignPath
  split
  · split
    · split
      · exact keeps_record T _
      · exact keeps_bindField T _
    · exact .refl T
  · exact .refl T

theorem keeps_assignElement (element : Expr) :
    Keeps T (T.assignElement scopeId isConditional lineno value element) := by
  unfold Tracker.assignElement
  split
  · exact keeps_bindName T _
  · split
    · exact keeps_record T _
    · exact .refl T
  · split
    · exact keeps_bindField T _
    · exact .refl T

theorem keeps_assignTarget (target : Expr) :
    Keeps T (T.assignTarget scopeId isConditional lineno value target) := by
  unfold Tracker.assignTarget
  split
  · exact keeps_bindName T _
  · exact (keeps_assignSubscript T _ _ _ _ _ _ _).trans (keeps_assignPath _ _ _ _ _ _)
  · exact .foldl (fun T e => keeps_assignElement T _ _ _ _ _) _ T
  · exact .foldl (fun T e => keeps_assignElement T _ _ _ _ _) _ T
  · split
    · exact keeps_bindField T _
    · exact .refl T

theorem keeps_annAssignTarget (target : Expr) :
    Keeps T (T.annAssignTarget scopeId isConditional lineno value target) := by
  unfold Tracker.annAssignTarget
  split
  · exact keeps_bindName T _
  · exact keeps_assignSubscript T _ _ _ _ _ _ _
  · split
    · exact keeps_bindField T _
    · exact .refl T

theorem keeps_augAssignTarget (pos : Pos) (op : BinOp) (target : Expr) :
    Keeps T (T.augAssignTarget scopeId isConditional lineno value pos op target) := by
  unfold Tracker.augAssignTarget
  split
  · exact keeps_bindName T _
  · exact keeps_assignSubscript T _ _ _ _ _ _ _
  · split
    · exact keeps_bindField T _
    · exact .refl T

theorem keeps_recordTargets (target : Expr) :
    Keeps T (T.recordTargets scopeId isConditional lineno value target) :=
  .foldl (fun T _ => keeps_record T _) _ T

theorem keeps_collectNamedExprs (e : Expr) :
    Keeps T (T.collectNamedExprs e scopeId isConditional) :=
  .foldl (fun T _ => keeps_bindName T _) _ T

end TimeCodeSecurity.Scanner

/-! ## Which calls the collection reaches

The live calls of a module, by a walk over every node of its tree that leaves out the branches of an
`if` which its test rules out, are the calls the collection records and those in the parts of a
statement it skips.
-/
namespace TimeCodeSecurity.Scanner
open Py TreeWalk

/-! ## Live calls -/

structure Place where
  scopeId : String
  owner : Option (String × String) := none

namespace Place

def inner (p : Place) : Place := { p with owner := none }

/-- The body of a function `name`. -/
def function (p : Place) (name : String) : Place :=
  { scopeId := match p.owner with
      | some (mod, cls) => methodScope mod cls name
      | none => childScope p.scopeId name }

/-- The body of a class `name`. -/
def classBody (p : Place) (name : String) : Place :=
  { scopeId := childScope p.scopeId name, owner := some (scopeModule p.scopeId, name) }

end Place

abbrev Placed := Node × Place

def placed (p : Place) (ns : List Node) : List Placed := ns.map fun n => (n, p)

variable (unparse : Expr → String)

def deadBody (test : Expr) : Bool := isUnreachableTest unparse test

def deadOrelse (test : Expr) : Bool :=
  !isUnreachableTest unparse test && isTautologyTest unparse test

/-- The children of a node with their places, without the dead branches of an `if`. -/
def liveChildren : Placed → List Placed
  | (.stmt (.functionDef _ _ name args body decorators returns), p) =>
    placed p.inner [.arguments args] ++ (placed (p.function name) (stmtNodes body) ++
      (placed p.inner (exprNodes decorators) ++ placed p.inner (optNodes returns)))
  | (.stmt (.classDef _ name bases keywords body decorators), p) =>
    placed p.inner (exprNodes bases) ++ (placed p.inner (keywords.map .keyword) ++
      (placed (p.classBody name) (stmtNodes body) ++ placed p.inner (exprNodes decorators)))
  | (.stmt (.ifStmt _ test body orelse), p) =>
    placed p.inner [.expr test] ++
      ((if deadBody unparse test then [] else placed p.inner (stmtNodes body)) ++
        (if deadOrelse unparse test then [] else placed p.inner (stmtNodes orelse)))
  | (n, p) => placed p.inner n.children

def placedSize (n : Placed) : ℕ := n.1.weight

variable {unparse}

theorem placed_weight (p : Place) (ns : List Node) :
    ((placed p ns).map placedSize).sum = nodesWeight ns := by
  rw [placed, List.map_map]
  rfl

theorem liveChildren_sized : Sized (liveChildren unparse) placedSize := by
  rintro ⟨n, p⟩
  have hn := Node.sized n
  change nodesWeight n.children < n.weight at hn
  show ((liveChildren unparse (n, p)).map placedSize).sum < n.weight
  unfold liveChildren
  split
  next heq =>
    obtain ⟨rfl, rfl⟩ := Prod.mk.inj heq
    simp only [List.map_append, List.sum_append, placed_weight]
    simpa [Node.children, Stmt.children, add_assoc] using hn
  next heq =>
    obtain ⟨rfl, rfl⟩ := Prod.mk.inj heq
    simp only [List.map_append, List.sum_append, placed_weight]
    simpa [Node.children, Stmt.children, add_assoc] using hn
  next heq =>
    obtain ⟨rfl, rfl⟩ := Prod.mk.inj heq
    simp only [Node.children, Stmt.children, nodesWeight_cons, nodesWeight_append] at hn
    split_ifs <;> simp only [List.map_append, List.sum_append, placed_weight, List.map_nil,
      List.sum_nil, nodesWeight_cons, nodesWeight_nil] <;> omega
  next heq =>
    obtain ⟨rfl, rfl⟩ := Prod.mk.inj heq
    rw [placed_weight]
    exact hn

def scopedCall (n : Placed) : Option (Expr × String) := (callExpr n.1).map (·, n.2.scopeId)

variable (unparse) in
def liveCalls (n : Placed) : Multiset (Expr × String) :=
  (((listing (liveChildren unparse) placedSize n).filterMap scopedCall : List (Expr × String)) :
    Multiset (Expr × String))

variable (unparse) in
def liveAll (p : Place) (ns : List Node) : Multiset (Expr × String) :=
  ((placed p ns).map (liveCalls unparse)).sum

theorem sum_placed (p : Place) (ns : List Node) :
    ((placed p ns).map (liveCalls unparse)).sum = liveAll unparse p ns := rfl

@[simp] theorem liveAll_nil (p : Place) : liveAll unparse p [] = 0 := rfl

@[simp] theorem liveAll_cons (p : Place) (n : Node) (ns : List Node) :
    liveAll unparse p (n :: ns) = liveCalls unparse (n, p) + liveAll unparse p ns := by
  simp [liveAll, placed]

@[simp] theorem liveAll_append (p : Place) (ms ns : List Node) :
    liveAll unparse p (ms ++ ns) = liveAll unparse p ms + liveAll unparse p ns := by
  simp [liveAll, placed]

theorem liveCalls_eq (n : Placed) :
    liveCalls unparse n =
      ((scopedCall n).toList : Multiset (Expr × String)) +
        ((liveChildren unparse n).map (liveCalls unparse)).sum := by
  have hsum : ∀ ns : List Placed,
      (((ns.flatMap (listing (liveChildren unparse) placedSize)).filterMap scopedCall :
        List (Expr × String)) : Multiset (Expr × String)) = (ns.map (liveCalls unparse)).sum := by
    intro ns
    induction ns with
    | nil => rfl
    | cons m ns ih =>
      rw [List.flatMap_cons, List.filterMap_append, ← Multiset.coe_add, ih, List.map_cons,
        List.sum_cons]
      rfl
  rw [liveCalls, listing_eq liveChildren_sized, ← hsum]
  cases h : scopedCall n with
  | none => simp [h]
  | some c => simp [h]

theorem liveCalls_of_children {n : Node} {p : Place} (hn : callExpr n = none)
    (h : liveChildren unparse (n, p) = placed p.inner n.children) :
    liveCalls unparse (n, p) = liveAll unparse p.inner n.children := by
  rw [liveCalls_eq, h]
  simp [scopedCall, hn, liveAll]

theorem liveCalls_expr (e : Expr) (p : Place) :
    liveCalls unparse (.expr e, p.inner) =
      (((callsOf e).map (·, p.scopeId) : List (Expr × String)) : Multiset (Expr × String)) := by
  have hlist : listing (liveChildren unparse) placedSize (.expr e, p.inner) =
      (listing Node.children Node.weight (.expr e)).map fun n => (n, p.inner) := by
    refine listing_map (f := fun n => (n, p.inner)) (P := fun n => n.isExprPart = true) Node.sized
      liveChildren_sized (fun n hn m hm => Node.isExprPart_children hn hm) ?_ _ rfl
    intro n hn
    cases n with
    | stmt s => simp [Node.isExprPart] at hn
    | _ => rfl
  have hwalk : (callsOf e).Perm ((listing Node.children Node.weight (.expr e)).filterMap callExpr) := by
    have hperm : (queue Node.children (Node.expr e).weight [.expr e]).Perm
        ([Node.expr e].flatMap (listing Node.children Node.weight)) :=
      queue_perm Node.sized (by simp)
    rw [List.flatMap_singleton] at hperm
    exact hperm.filterMap callExpr
  rw [liveCalls, hlist, Multiset.coe_eq_coe, List.filterMap_map]
  refine List.Perm.trans ?_ (hwalk.symm.map (·, p.scopeId))
  rw [List.map_filterMap]
  exact .refl _

def skippedParts : Stmt → List Node
  | .functionDef _ _ _ args _ decorators returns =>
    .arguments args :: (exprNodes decorators ++ optNodes returns)
  | .classDef _ _ bases keywords _ decorators =>
    exprNodes bases ++ (keywords.map .keyword ++ exprNodes decorators)
  | .assign _ targets _ => exprNodes targets
  | .augAssign _ target _ _ => [.expr target]
  | .annAssign _ target annot _ => [.expr target, .expr annot]
  | .forLoop _ _ target _ _ _ => [.expr target]
  | .withStmt _ _ items _ => items.flatMap fun item => optNodes item.optionalVars
  | .tryStmt _ false _ handlers _ _ => handlers.flatMap fun h => optNodes h.type
  | .tryStmt pos true body handlers orelse finalbody =>
    (Stmt.tryStmt pos true body handlers orelse finalbody).children
  | .delete _ targets => exprNodes targets
  | .raise _ exc cause => optNodes exc ++ optNodes cause
  | .assert _ test msg => .expr test :: optNodes msg
  | .matchStmt _ subject cases => .expr subject :: cases.map .matchCase
  | _ => []

mutual

def unseenCalls (unparse : Expr → String) (p : Place) : Stmt → Multiset (Expr × String)
  | .functionDef pos isAsync name args body decorators returns =>
    liveAll unparse p.inner
        (skippedParts (.functionDef pos isAsync name args body decorators returns)) +
      unseenAll unparse (p.function name) body
  | .classDef pos name bases keywords body decorators =>
    liveAll unparse p.inner (skippedParts (.classDef pos name bases keywords body decorators)) +
      unseenAll unparse (p.classBody name) body
  | .forLoop pos isAsync target iter body orelse =>
    liveAll unparse p.inner (skippedParts (.forLoop pos isAsync target iter body orelse)) +
      (unseenAll unparse p.inner body + unseenAll unparse p.inner orelse)
  | .whileLoop _ _ body orelse => unseenAll unparse p.inner body + unseenAll unparse p.inner orelse
  | .ifStmt _ test body orelse =>
    (if deadBody unparse test then 0 else unseenAll unparse p.inner body) +
      (if deadOrelse unparse test then 0 else unseenAll unparse p.inner orelse)
  | .withStmt pos isAsync items body =>
    liveAll unparse p.inner (skippedParts (.withStmt pos isAsync items body)) +
      unseenAll unparse p.inner body
  | .tryStmt pos false body handlers orelse finalbody =>
    liveAll unparse p.inner (skippedParts (.tryStmt pos false body handlers orelse finalbody)) +
      (unseenAll unparse p.inner body + unseenHandlers unparse p.inner handlers +
        (unseenAll unparse p.inner orelse + unseenAll unparse p.inner finalbody))
  | s => liveAll unparse p.inner (skippedParts s)

def unseenAll (unparse : Expr → String) (p : Place) : List Stmt → Multiset (Expr × String)
  | [] => 0
  | s :: rest => unseenCalls unparse p s + unseenAll unparse p rest

def unseenHandlers (unparse : Expr → String) (p : Place) : List (ExceptHandler Stmt) → Multiset (Expr × String)
  | [] => 0
  | ⟨_, _, _, body⟩ :: rest => unseenAll unparse p body + unseenHandlers unparse p rest

end

def Tracker.rawPairs (T : Tracker) : List (Expr × String) := T.rawCalls.map fun c => (c.1, c.2.1)

/-- The calls `scan_for_sinks` has been asked about. -/
def Tracker.scannedPairs (T : Tracker) : List (Expr × String) :=
  T.scans.flatMap fun s => (callsOf s.1).map (·, s.2.1)

/-- `T'` has the calls `cs` more than `T`, recorded and scanned. -/
structure Adds (T T' : Tracker) (cs : List (Expr × String)) : Prop where
  raw : T'.rawPairs = T.rawPairs ++ cs
  scanned : T'.scannedPairs = T.scannedPairs ++ cs

theorem Adds.nothing {T T' : Tracker} (hraw : T'.rawCalls = T.rawCalls) (hscans : T'.scans = T.scans) :
    Adds T T' [] :=
  ⟨by simp [Tracker.rawPairs, hraw], by simp [Tracker.scannedPairs, hscans]⟩

theorem Adds.trans {T T' T'' : Tracker} {cs cs' : List (Expr × String)} (h : Adds T T' cs)
    (h' : Adds T' T'' cs') : Adds T T'' (cs ++ cs') :=
  ⟨by rw [h'.raw, h.raw, List.append_assoc], by rw [h'.scanned, h.scanned, List.append_assoc]⟩

theorem Adds.before {T T' T'' : Tracker} {cs : List (Expr × String)} (h : Adds T T' [])
    (h' : Adds T' T'' cs) : Adds T T'' cs := by
  simpa using h.trans h'

theorem Adds.after {T T' T'' : Tracker} {cs : List (Expr × String)} (h : Adds T T' cs)
    (h' : Adds T' T'' []) : Adds T T'' cs := by
  simpa using h.trans h'

theorem Keeps.adds {T T' : Tracker} (h : Keeps T T') : Adds T T' [] := .nothing h.rawCalls h.scans

theorem adds_addFunction (T : Tracker) (scope : String) (stmt : Stmt) :
    Adds T (T.addFunction scope stmt) [] := by
  unfold Tracker.addFunction
  split <;> exact .nothing rfl rfl

theorem adds_visitExpr (T : Tracker) (e : Expr) (scopeId : String) (lineno : ℕ) (isConditional : Bool) :
    Adds T (T.visitExpr e scopeId lineno isConditional) ((callsOf e).map (·, scopeId)) := by
  have hvisit : Adds T ((T.scanForSinks e scopeId lineno).collectCallsInExpr e scopeId)
      ((callsOf e).map (·, scopeId)) := by
    constructor
    · simp [Tracker.rawPairs, Tracker.scanForSinks, Tracker.collectCallsInExpr, Function.comp_def]
    · simp [Tracker.scannedPairs, Tracker.scanForSinks, Tracker.collectCallsInExpr]
  exact hvisit.after (keeps_collectNamedExprs _ scopeId isConditional e).adds

theorem liveCalls_stmt (s : Stmt) (p : Place) :
    liveCalls unparse (.stmt s, p) =
      ((liveChildren unparse (.stmt s, p)).map (liveCalls unparse)).sum := by
  rw [liveCalls_eq]
  simp [scopedCall, callExpr]

theorem liveCalls_functionDef (p : Place) (pos : Pos) (isAsync : Bool) (name : String)
    (args : Arguments Expr) (body : List Stmt) (decorators : List Expr) (returns : Option Expr) :
    liveCalls unparse (.stmt (.functionDef pos isAsync name args body decorators returns), p) =
      liveAll unparse p.inner
          (skippedParts (.functionDef pos isAsync name args body decorators returns)) +
        liveAll unparse (p.function name) (stmtNodes body) := by
  rw [liveCalls_stmt]
  simp only [liveChildren, List.map_append, List.sum_append, sum_placed, skippedParts, liveAll_cons,
    liveAll_append, liveAll_nil]
  abel

theorem liveCalls_classDef (p : Place) (pos : Pos) (name : String) (bases : List Expr)
    (keywords : List (Keyword Expr)) (body : List Stmt) (decorators : List Expr) :
    liveCalls unparse (.stmt (.classDef pos name bases keywords body decorators), p) =
      liveAll unparse p.inner (skippedParts (.classDef pos name bases keywords body decorators)) +
        liveAll unparse (p.classBody name) (stmtNodes body) := by
  rw [liveCalls_stmt]
  simp only [liveChildren, List.map_append, List.sum_append, sum_placed, skippedParts,
    liveAll_append]
  abel

theorem liveCalls_ifStmt (p : Place) (pos : Pos) (test : Expr) (body orelse : List Stmt) :
    liveCalls unparse (.stmt (.ifStmt pos test body orelse), p) =
      liveCalls unparse (.expr test, p.inner) +
        ((if deadBody unparse test then 0 else liveAll unparse p.inner (stmtNodes body)) +
          (if deadOrelse unparse test then 0 else liveAll unparse p.inner (stmtNodes orelse))) := by
  rw [liveCalls_stmt]
  simp only [liveChildren, List.map_append, List.sum_append, sum_placed, liveAll_cons, liveAll_nil,
    add_zero]
  split <;> split <;> rfl

theorem liveCalls_handler (h : ExceptHandler Stmt) (p : Place) :
    liveCalls unparse (.handler h, p.inner) =
      liveAll unparse p.inner (optNodes h.type) + liveAll unparse p.inner (stmtNodes h.body) := by
  rw [liveCalls_of_children rfl rfl]
  exact liveAll_append _ _ _

theorem liveCalls_withItem (item : WithItem) (p : Place) :
    liveCalls unparse (.withItem item, p.inner) =
      liveCalls unparse (.expr item.contextExpr, p.inner) +
        liveAll unparse p.inner (optNodes item.optionalVars) := by
  rw [liveCalls_of_children rfl rfl]
  exact liveAll_cons _ _ _

/-! ## The collection reaches the rest -/

variable (unparse) in
theorem visitWithItems_adds (p : Place) (lineno : ℕ) (isConditional : Bool) (items : List WithItem)
    (T : Tracker) :
    ∃ cs : List (Expr × String),
      Adds T (items.foldl (fun T item => T.visitWithItem p.scopeId lineno isConditional item) T) cs ∧
        (cs : Multiset (Expr × String)) +
            liveAll unparse p.inner (items.flatMap fun item => optNodes item.optionalVars) =
          liveAll unparse p.inner (items.map .withItem) := by
  induction items generalizing T with
  | nil => exact ⟨[], .nothing rfl rfl, rfl⟩
  | cons item items ih =>
    have hitem : Adds T (T.visitWithItem p.scopeId lineno isConditional item)
        ((callsOf item.contextExpr).map (·, p.scopeId)) := by
      have hvisit := adds_visitExpr T item.contextExpr p.scopeId lineno isConditional
      unfold Tracker.visitWithItem
      split
      · exact hvisit.after (keeps_recordTargets _ _ _ _ _ _).adds
      · exact hvisit
    obtain ⟨cs, hcs, heq⟩ := ih (T.visitWithItem p.scopeId lineno isConditional item)
    refine ⟨_, hitem.trans hcs, ?_⟩
    rw [List.map_cons, liveAll_cons, ← heq, liveCalls_withItem, liveCalls_expr, List.flatMap_cons,
      liveAll_append, ← Multiset.coe_add]
    abel

theorem branch_adds {T T' : Tracker} {unseen live : Multiset (Expr × String)} (cut : Bool)
    (h : ∃ cs : List (Expr × String), Adds T T' cs ∧ (cs : Multiset (Expr × String)) + unseen = live) :
    ∃ cs : List (Expr × String), Adds T (if cut then T else T') cs ∧
      (cs : Multiset (Expr × String)) + (if cut then 0 else unseen) = if cut then 0 else live := by
  cases cut with
  | true => exact ⟨[], .nothing rfl rfl, rfl⟩
  | false => exact h

mutual

theorem collectStmt_adds (H : Host) (p : Place) (isConditional : Bool) (T : Tracker) :
    ∀ s : Stmt, ∃ cs : List (Expr × String),
      Adds T (collectStmt H p.owner p.scopeId isConditional T s) cs ∧
        (cs : Multiset (Expr × String)) + unseenCalls H.unparse p s =
          liveCalls H.unparse (.stmt s, p)
  | .functionDef pos isAsync name args body decorators returns => by
    have hfunction := adds_addFunction T (p.function name).scopeId
      (.functionDef pos isAsync name args body decorators returns)
    obtain ⟨cs, hcs, heq⟩ := collectStatements_adds H (p.function name) false
      (T.addFunction (p.function name).scopeId
        (.functionDef pos isAsync name args body decorators returns)) body
    refine ⟨cs, hfunction.before hcs, ?_⟩
    rw [liveCalls_functionDef, ← heq, unseenCalls]
    abel
  | .classDef pos name bases keywords body decorators => by
    obtain ⟨cs, hcs, heq⟩ := collectStatements_adds H (p.classBody name) isConditional
      (T.addClass (childScope p.scopeId name)) body
    have hclass : Adds T (T.addClass (childScope p.scopeId name)) [] := .nothing rfl rfl
    refine ⟨cs, hclass.before hcs, ?_⟩
    rw [liveCalls_classDef, ← heq, unseenCalls]
    abel
  | .ifStmt pos test body orelse => by
    have htest := adds_visitExpr T test p.scopeId pos.lineno false
    have hguards : Adds T
        (if isUnreachableTest H.unparse test then T.visitExpr test p.scopeId pos.lineno false
          else (T.visitExpr test p.scopeId pos.lineno false).addGuards H p.scopeId pos.lineno test
            body orelse) ((callsOf test).map (·, p.scopeId)) := by
      split
      · exact htest
      · exact htest.after (keeps_addGuards _ _ _ _ _ _ _).adds
    obtain ⟨cs, hcs, heq⟩ := branch_adds (deadBody H.unparse test)
      (collectStatements_adds H p.inner true _ body)
    obtain ⟨cs', hcs', heq'⟩ := branch_adds (deadOrelse H.unparse test)
      (collectStatements_adds H p.inner true _ orelse)
    refine ⟨_, (hguards.trans hcs).trans hcs', ?_⟩
    rw [liveCalls_ifStmt, liveCalls_expr, ← heq, ← heq', unseenCalls, ← Multiset.coe_add,
      ← Multiset.coe_add]
    abel
  | .whileLoop pos test body orelse => by
    obtain ⟨cs, hcs, heq⟩ := collectStatements_adds H p.inner true
      (T.visitExpr test p.scopeId pos.lineno false) body
    obtain ⟨cs', hcs', heq'⟩ := collectStatements_adds H p.inner true
      (collectStatements H none p.scopeId true (T.visitExpr test p.scopeId pos.lineno false) body)
      orelse
    refine ⟨_, ((adds_visitExpr T test p.scopeId pos.lineno false).trans hcs).trans hcs', ?_⟩
    rw [liveCalls_of_children rfl rfl]
    simp only [Node.children, Stmt.children, liveAll_cons, liveAll_append, liveCalls_expr, ← heq,
      ← heq', unseenCalls, ← Multiset.coe_add]
    abel
  | .forLoop pos isAsync target iter body orelse => by
    have hiter := (adds_visitExpr T iter p.scopeId pos.lineno isConditional).after
      (keeps_recordTargets _ p.scopeId true pos.lineno iter target).adds
    obtain ⟨cs, hcs, heq⟩ := collectStatements_adds H p.inner true _ body
    obtain ⟨cs', hcs', heq'⟩ := collectStatements_adds H p.inner true _ orelse
    refine ⟨_, (hiter.trans hcs).trans hcs', ?_⟩
    rw [liveCalls_of_children rfl rfl]
    simp only [Node.children, Stmt.children, liveAll_cons, liveAll_append, liveCalls_expr, ← heq,
      ← heq', unseenCalls, skippedParts, liveAll_nil, ← Multiset.coe_add]
    abel
  | .tryStmt pos false body handlers orelse finalbody => by
    obtain ⟨cs, hcs, heq⟩ := collectStatements_adds H p.inner true T body
    obtain ⟨cs₁, hcs₁, heq₁⟩ := collectHandlers_adds H p _ handlers
    obtain ⟨cs₂, hcs₂, heq₂⟩ := collectStatements_adds H p.inner true _ orelse
    obtain ⟨cs₃, hcs₃, heq₃⟩ := collectStatements_adds H p.inner false _ finalbody
    refine ⟨_, ((hcs.trans hcs₁).trans hcs₂).trans hcs₃, ?_⟩
    rw [liveCalls_of_children rfl rfl]
    simp only [Node.children, Stmt.children, liveAll_append, ← heq, ← heq₁, ← heq₂, ← heq₃,
      unseenCalls, skippedParts, ← Multiset.coe_add]
    abel
  | .withStmt pos isAsync items body => by
    obtain ⟨cs, hcs, heq⟩ := visitWithItems_adds H.unparse p pos.lineno isConditional items T
    obtain ⟨cs', hcs', heq'⟩ := collectStatements_adds H p.inner isConditional _ body
    refine ⟨_, hcs.trans hcs', ?_⟩
    rw [liveCalls_of_children rfl rfl]
    simp only [Node.children, Stmt.children, liveAll_append, ← heq, ← heq', unseenCalls,
      skippedParts, ← Multiset.coe_add]
    abel
  | .assign pos targets value => by
    have htargets : Keeps T (targets.foldl
        (fun T t => T.assignTarget p.scopeId isConditional pos.lineno value t) T) :=
      .foldl (fun T t => keeps_assignTarget T _ _ _ _ _) targets T
    have hvalue := htargets.adds.before (adds_visitExpr _ value p.scopeId pos.lineno isConditional)
    refine ⟨_, hvalue.after (.nothing rfl rfl), ?_⟩
    rw [liveCalls_of_children rfl rfl]
    simp only [Node.children, Stmt.children, liveAll_append, liveAll_cons, liveAll_nil,
      liveCalls_expr, unseenCalls, skippedParts]
    abel
  | .annAssign pos target annot (some value) => by
    have htarget := keeps_annAssignTarget T p.scopeId isConditional pos.lineno value target
    refine ⟨_, htarget.adds.before (adds_visitExpr _ value p.scopeId pos.lineno isConditional), ?_⟩
    rw [liveCalls_of_children rfl rfl]
    simp only [Node.children, Stmt.children, optNodes, Option.map_some, Option.toList_some,
      liveAll_cons, liveAll_nil, liveCalls_expr, unseenCalls, skippedParts]
    abel
  | .annAssign pos target annot none => by
    refine ⟨[], .nothing rfl rfl, ?_⟩
    rw [liveCalls_of_children rfl rfl]
    rfl
  | .augAssign pos target op value => by
    have htarget := keeps_augAssignTarget T p.scopeId isConditional pos.lineno value pos op target
    have hvalue := htarget.adds.before (adds_visitExpr _ value p.scopeId pos.lineno isConditional)
    refine ⟨_, hvalue.after (keeps_recordContainerMutation _ _ _ _).adds, ?_⟩
    rw [liveCalls_of_children rfl rfl]
    simp only [Node.children, Stmt.children, liveAll_cons, liveAll_nil, liveCalls_expr, unseenCalls,
      skippedParts]
    abel
  | .ret pos none => ⟨[], .nothing rfl rfl, by rw [liveCalls_of_children rfl rfl]; rfl⟩
  | .ret pos (some value) => by
    refine ⟨_, (keeps_addReturn T _ _).adds.before
      (adds_visitExpr _ value p.scopeId pos.lineno isConditional), ?_⟩
    rw [liveCalls_of_children rfl rfl]
    simp only [Node.children, Stmt.children, optNodes, Option.map_some, Option.toList_some,
      liveAll_cons, liveAll_nil, liveCalls_expr, unseenCalls, skippedParts]
  | .expr pos value => by
    have hyield : Adds T (match value with
        | .yield .. | .yieldFrom .. => T.addReturn p.scopeId (.expr value)
        | _ => T) [] := by
      split <;> exact .nothing rfl rfl
    refine ⟨_, (hyield.before (keeps_recordContainerMutation _ _ _ _).adds).before
      (adds_visitExpr _ value p.scopeId pos.lineno isConditional), ?_⟩
    rw [liveCalls_of_children rfl rfl]
    simp only [Node.children, Stmt.children, liveAll_cons, liveAll_nil, liveCalls_expr, unseenCalls,
      skippedParts]
  | .tryStmt pos true body handlers orelse finalbody =>
    ⟨[], .nothing rfl rfl, by rw [liveCalls_of_children rfl rfl]; exact zero_add _⟩
  | .delete pos targets =>
    ⟨[], .nothing rfl rfl, by rw [liveCalls_of_children rfl rfl]; exact zero_add _⟩
  | .raise pos exc cause =>
    ⟨[], .nothing rfl rfl, by rw [liveCalls_of_children rfl rfl]; exact zero_add _⟩
  | .assert pos test msg =>
    ⟨[], .nothing rfl rfl, by rw [liveCalls_of_children rfl rfl]; exact zero_add _⟩
  | .matchStmt pos subject cases =>
    ⟨[], .nothing rfl rfl, by rw [liveCalls_of_children rfl rfl]; exact zero_add _⟩
  | .importStmt pos names =>
    ⟨[], .nothing rfl rfl, by rw [liveCalls_of_children rfl rfl]; rfl⟩
  | .importFrom pos module names level =>
    ⟨[], .nothing rfl rfl, by rw [liveCalls_of_children rfl rfl]; rfl⟩
  | .global pos names => ⟨[], .nothing rfl rfl, by rw [liveCalls_of_children rfl rfl]; rfl⟩
  | .nonlocal pos names => ⟨[], .nothing rfl rfl, by rw [liveCalls_of_children rfl rfl]; rfl⟩
  | .pass pos => ⟨[], .nothing rfl rfl, by rw [liveCalls_of_children rfl rfl]; rfl⟩
  | .breakStmt pos => ⟨[], .nothing rfl rfl, by rw [liveCalls_of_children rfl rfl]; rfl⟩
  | .continueStmt pos => ⟨[], .nothing rfl rfl, by rw [liveCalls_of_children rfl rfl]; rfl⟩

theorem collectStatements_adds (H : Host) (p : Place) (isConditional : Bool) (T : Tracker) :
    ∀ body : List Stmt, ∃ cs : List (Expr × String),
      Adds T (collectStatements H p.owner p.scopeId isConditional T body) cs ∧
        (cs : Multiset (Expr × String)) + unseenAll H.unparse p body =
          liveAll H.unparse p (stmtNodes body)
  | [] => ⟨[], .nothing rfl rfl, rfl⟩
  | s :: rest => by
    obtain ⟨cs, hcs, heq⟩ := collectStmt_adds H p isConditional T s
    obtain ⟨cs', hcs', heq'⟩ := collectStatements_adds H p isConditional
      (collectStmt H p.owner p.scopeId isConditional T s) rest
    refine ⟨cs ++ cs', hcs.trans hcs', ?_⟩
    rw [stmtNodes, List.map_cons, liveAll_cons, ← heq, ← stmtNodes, ← heq', unseenAll,
      ← Multiset.coe_add]
    abel

theorem collectHandlers_adds (H : Host) (p : Place) (T : Tracker) :
    ∀ hs : List (ExceptHandler Stmt), ∃ cs : List (Expr × String),
      Adds T (collectHandlers H p.scopeId T hs) cs ∧
        (cs : Multiset (Expr × String)) + unseenHandlers H.unparse p.inner hs +
            liveAll H.unparse p.inner (hs.flatMap fun h => optNodes h.type) =
          liveAll H.unparse p.inner (hs.map .handler)
  | [] => ⟨[], .nothing rfl rfl, rfl⟩
  | ⟨pos, type, name, body⟩ :: rest => by
    obtain ⟨cs, hcs, heq⟩ := collectStatements_adds H p.inner true T body
    obtain ⟨cs', hcs', heq'⟩ := collectHandlers_adds H p
      (collectStatements H none p.scopeId true T body) rest
    refine ⟨cs ++ cs', hcs.trans hcs', ?_⟩
    rw [List.map_cons, liveAll_cons, liveCalls_handler, ← heq, ← heq', unseenHandlers,
      List.flatMap_cons, liveAll_append, ← Multiset.coe_add]
    abel

end

def modulePlace (mod : String) : Place := { scopeId := mod ++ ":global" }

def moduleCalls (unparse : Expr → String) (mod : String) (body : Module) :
    Multiset (Expr × String) :=
  liveAll unparse (modulePlace mod) (stmtNodes body)

/-- `raw_calls` holds every live call once, under its scope, and `scan_for_sinks` was asked about it. -/
structure CollectsEveryCall (H : Host) (mod : String) (body : Module) : Prop where
  recorded : ((collectModule H mod body).rawPairs : Multiset (Expr × String)) =
    moduleCalls H.unparse mod body
  scanned : ((collectModule H mod body).scannedPairs : Multiset (Expr × String)) =
    moduleCalls H.unparse mod body

theorem rawPairs_add_unseen (H : Host) (mod : String) (body : Module) :
    ((collectModule H mod body).rawPairs : Multiset (Expr × String)) +
        unseenAll H.unparse (modulePlace mod) body =
      moduleCalls H.unparse mod body ∧
    (collectModule H mod body).scannedPairs = (collectModule H mod body).rawPairs := by
  obtain ⟨cs, hcs, heq⟩ := collectStatements_adds H (modulePlace mod) false {} body
  have hraw : (collectModule H mod body).rawPairs = cs := hcs.raw
  have hscanned : (collectModule H mod body).scannedPairs = cs := hcs.scanned
  rw [hraw, hscanned]
  exact ⟨heq, rfl⟩

theorem collectsEveryCall_iff (H : Host) (mod : String) (body : Module) :
    CollectsEveryCall H mod body ↔ unseenAll H.unparse (modulePlace mod) body = 0 := by
  obtain ⟨hadd, hscanned⟩ := rawPairs_add_unseen H mod body
  constructor
  · intro h
    rw [← h.recorded] at hadd
    exact left_eq_add.mp hadd.symm
  · intro h
    rw [h, add_zero] at hadd
    exact ⟨hadd, hscanned ▸ hadd⟩

/-- `raise fail()`. -/
def raiseCall : Module := [.raise {} (some (.call {} (.name {} "fail" .load) [] [])) none]

def plainHost : Host := { unparse := fun _ => "", canonicalName := fun _ _ => none }

theorem collectsEveryCall_fails_on_raise : ¬CollectsEveryCall plainHost "m" raiseCall := by
  intro h
  have hcard := congrArg Multiset.card h.recorded
  exact absurd hcard (by decide)

end TimeCodeSecurity.Scanner
