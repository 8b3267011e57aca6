import TimeCodeSecurity.Scanner.Keeps

/-! # The assignments to plain names

A listing of the assignments of a module as the statement walk meets them, read off the tree alone, and the
proof that the table of the collection holds these records and no others under a plain name. What is
recorded under the text of an element, such as `config["mode"]`, has a bracket in its name.
-/
namespace TimeCodeSecurity.Scanner
open Py
set_option autoImplicit false

/-! ## The listing -/

section
variable (scopeId : String) (isConditional : Bool) (lineno : ℕ)

def nameRecords (value : Expr) : Expr → List AssignmentRecord
  | .name _ id _ => [⟨id, value, lineno, scopeId, isConditional⟩]
  | _ => []

def targetRecords (value : Expr) : Expr → List AssignmentRecord
  | .tuple _ elts _ | .list _ elts _ =>
    elts.zipIdx.flatMap fun e =>
      nameRecords scopeId isConditional lineno (elementValue value e.2) e.1
  | target => nameRecords scopeId isConditional lineno value target

def augRecords (value : Expr) (pos : Pos) (op : BinOp) : Expr → List AssignmentRecord
  | .name _ id _ => [⟨id, .binOp pos (.name pos id .load) op value, lineno, scopeId, isConditional⟩]
  | _ => []

/-- The target of a loop or of a `with`. -/
def loopRecords (value target : Expr) : List AssignmentRecord :=
  (Tracker.targetNames target).map fun id => ⟨id, value, lineno, scopeId, isConditional⟩

def walrusRecords (e : Expr) : List AssignmentRecord :=
  (namedExprsOf e).map fun w => ⟨w.1, w.2.1, w.2.2, scopeId, isConditional⟩

def withRecords (item : WithItem) : List AssignmentRecord :=
  walrusRecords scopeId isConditional item.contextExpr ++
    item.optionalVars.toList.flatMap (loopRecords scopeId isConditional lineno item.contextExpr)

end

mutual

/-- The assignments of a statement. An `except*`, a `match` and what is below them have none; the block of
a `finally` counts as unconditional, wherever it stands. -/
def stmtRecords (unparse : Expr → String) (p : Place) (isConditional : Bool) :
    Stmt → List AssignmentRecord
  | .functionDef _ _ name _ body _ _ => blockRecords unparse (p.function name) false body
  | .classDef _ name _ _ body _ => blockRecords unparse (p.classBody name) isConditional body
  | .assign pos targets value =>
    targets.flatMap (targetRecords p.scopeId isConditional pos.lineno value) ++
      walrusRecords p.scopeId isConditional value
  | .annAssign pos target _ (some value) =>
    nameRecords p.scopeId isConditional pos.lineno value target ++
      walrusRecords p.scopeId isConditional value
  | .augAssign pos target op value =>
    augRecords p.scopeId isConditional pos.lineno value pos op target ++
      walrusRecords p.scopeId isConditional value
  | .ifStmt _ test body orelse =>
    walrusRecords p.scopeId false test ++
      ((if deadBody unparse test then [] else blockRecords unparse p.inner true body) ++
        (if deadOrelse unparse test then [] else blockRecords unparse p.inner true orelse))
  | .whileLoop _ test body orelse =>
    walrusRecords p.scopeId false test ++
      (blockRecords unparse p.inner true body ++ blockRecords unparse p.inner true orelse)
  | .forLoop pos _ target iter body orelse =>
    walrusRecords p.scopeId isConditional iter ++ (loopRecords p.scopeId true pos.lineno iter target ++
      (blockRecords unparse p.inner true body ++ blockRecords unparse p.inner true orelse))
  | .tryStmt _ false body handlers orelse finalbody =>
    blockRecords unparse p.inner true body ++ (handlersRecords unparse p handlers ++
      (blockRecords unparse p.inner true orelse ++ blockRecords unparse p.inner false finalbody))
  | .withStmt pos _ items body =>
    items.flatMap (withRecords p.scopeId isConditional pos.lineno) ++
      blockRecords unparse p.inner isConditional body
  | .ret _ (some value) => walrusRecords p.scopeId isConditional value
  | .expr _ value => walrusRecords p.scopeId isConditional value
  | _ => []

def blockRecords (unparse : Expr → String) (p : Place) (isConditional : Bool) :
    List Stmt → List AssignmentRecord
  | [] => []
  | s :: rest => stmtRecords unparse p isConditional s ++ blockRecords unparse p isConditional rest

def handlersRecords (unparse : Expr → String) (p : Place) :
    List (ExceptHandler Stmt) → List AssignmentRecord
  | [] => []
  | ⟨_, _, _, body⟩ :: rest => blockRecords unparse p.inner true body ++ handlersRecords unparse p rest

end

def moduleRecords (unparse : Expr → String) (mod : String) (body : Module) : List AssignmentRecord :=
  blockRecords unparse (modulePlace mod) false body

def PlainName (name : String) : Prop := '[' ∉ name.toList

instance (name : String) : Decidable (PlainName name) := inferInstanceAs (Decidable (¬_))

def plain (rs : List AssignmentRecord) : List AssignmentRecord :=
  rs.filter fun r => PlainName r.targetName

theorem plain_append (rs rs' : List AssignmentRecord) : plain (rs ++ rs') = plain rs ++ plain rs' :=
  List.filter_append rs rs'

def Lists (T T' : Tracker) (rs : List AssignmentRecord) : Prop :=
  plain T'.assignments = plain T.assignments ++ plain rs

namespace Lists

variable {T T' T'' : Tracker} {rs rs' : List AssignmentRecord}

theorem nothing (h : T'.assignments = T.assignments) : Lists T T' [] := by
  rw [Lists, h]
  exact (List.append_nil _).symm

theorem trans (h : Lists T T' rs) (h' : Lists T' T'' rs') : Lists T T'' (rs ++ rs') := by
  rw [Lists, h', h, plain_append, List.append_assoc]

theorem after (h : Lists T T' rs) (h' : Lists T' T'' []) : Lists T T'' rs := by
  have htrans := h.trans h'
  rwa [List.append_nil] at htrans

theorem foldl {α : Type} {f : Tracker → α → Tracker} {g : α → List AssignmentRecord}
    (hf : ∀ T a, Lists T (f T a) (g a)) (as : List α) (T : Tracker) :
    Lists T (as.foldl f T) (as.flatMap g) := by
  induction as generalizing T with
  | nil => exact nothing rfl
  | cons a as ih =>
    rw [List.foldl_cons, List.flatMap_cons]
    exact (hf T a).trans (ih (f T a))

theorem foldl_map {α : Type} {f : Tracker → α → Tracker} {g : α → AssignmentRecord}
    (hf : ∀ T a, Lists T (f T a) [g a]) (as : List α) (T : Tracker) :
    Lists T (as.foldl f T) (as.map g) := by
  have hmap : as.map g = as.flatMap fun a => [g a] := List.map_eq_flatMap
  rw [hmap]
  exact foldl hf as T

end Lists

theorem bracket_mem_foldl (keys : List SubscriptKey) {text : String} (h : '[' ∈ text.toList) :
    '[' ∈ (subscriptPathKey text keys).toList := by
  induction keys generalizing text with
  | nil => exact h
  | cons key keys ih =>
    refine ih ?_
    simp only [String.toList_append, List.mem_append]
    exact .inl (.inl (.inl h))

theorem not_plainName_subscriptPathKey (root : String) (key : SubscriptKey)
    (keys : List SubscriptKey) : ¬PlainName (subscriptPathKey root (key :: keys)) := by
  refine not_not_intro (bracket_mem_foldl keys ?_)
  simp only [String.toList_append, List.mem_append]
  exact .inl (.inl (.inr (by decide)))

/-! ## The operations -/

section
variable (T : Tracker)

theorem lists_record (r : AssignmentRecord) : Lists T (T.record r) [r] :=
  plain_append T.assignments [r]

theorem lists_record_element {r : AssignmentRecord} (h : ¬PlainName r.targetName) :
    Lists T (T.record r) [] := by
  have hnone : plain [r] = [] := by
    rw [plain, List.filter_cons_of_neg (by simpa using h)]
    rfl
  have hrecord := lists_record T r
  rwa [Lists, hnone] at hrecord

theorem lists_bindName (r : AssignmentRecord) : Lists T (T.bindName r) [r] := by
  unfold Tracker.bindName
  split <;> exact lists_record T r

theorem lists_bindField (r : AssignmentRecord) : Lists T (T.bindField r) [] := by
  unfold Tracker.bindField
  split <;> exact .nothing rfl

theorem lists_writeField (field : String) (value : Expr) (lineno : ℕ) (scopeId : String) :
    Lists T (T.writeField field value lineno scopeId) [] := by
  unfold Tracker.writeField
  split <;> exact .nothing rfl

theorem lists_addFunction (scope : String) (stmt : Stmt) : Lists T (T.addFunction scope stmt) [] := by
  unfold Tracker.addFunction
  split <;> exact .nothing rfl

theorem lists_recordContainerMutation (e : Expr) (scopeId : String) (lineno : ℕ) :
    Lists T (T.recordContainerMutation e scopeId lineno) [] := by
  unfold Tracker.recordContainerMutation
  split
  · split
    · split <;> exact .nothing rfl
    · exact .nothing rfl
  · exact .nothing rfl

theorem lists_addGuards (H : Host) (scopeId : String) (line : ℕ) (test : Expr)
    (body orelse : List Stmt) : Lists T (T.addGuards H scopeId line test body orelse) [] := by
  unfold Tracker.addGuards
  split <;> exact .nothing rfl

variable (scopeId : String) (isConditional : Bool) (lineno : ℕ) (value : Expr)

theorem lists_assignSubscript (dynamic : Bool) (container index : Expr) :
    Lists T (T.assignSubscript scopeId isConditional lineno value dynamic container index) [] := by
  unfold Tracker.assignSubscript
  split
  · split
    · exact lists_record_element T (not_plainName_subscriptPathKey _ _ _)
    · split
      · exact lists_bindField T _
      · exact .nothing rfl
  · split
    · split
      · exact lists_writeField T _ _ _ _
      · exact .nothing rfl
    · exact .nothing rfl

theorem lists_assignPath (target : Expr) :
    Lists T (T.assignPath scopeId isConditional lineno value target) [] := by
  unfold Tracker.assignPath
  split
  · rename_i root keys kind _
    split
    · rename_i hkeys
      split
      · match keys, hkeys with
        | key :: keys, _ => exact lists_record_element T (not_plainName_subscriptPathKey _ _ _)
      · exact lists_bindField T _
    · exact .nothing rfl
  · exact .nothing rfl

theorem lists_selfTarget (target : Expr) (r : String → AssignmentRecord) :
    Lists T (match selfField target with
      | some field => T.bindField (r field)
      | none => T) [] := by
  split
  · exact lists_bindField T _
  · exact .nothing rfl

theorem lists_assignElement (element : Expr) :
    Lists T (T.assignElement scopeId isConditional lineno value element)
      (nameRecords scopeId isConditional lineno value element) := by
  cases element with
  | name pos id ctx => exact lists_bindName T _
  | subscript pos container index ctx =>
    unfold Tracker.assignElement
    split
    · rename_i heq
      cases heq
    · split
      · exact lists_record_element T (not_plainName_subscriptPathKey _ _ _)
      · exact .nothing rfl
    · rename_i hsubscript
      exact absurd rfl (hsubscript _ _ _ _)
  | attr pos base attr ctx => exact lists_selfTarget T (.attr pos base attr ctx) _
  | _ => exact .nothing rfl

theorem lists_assignElements (elts : List Expr) :
    Lists T (elts.zipIdx.foldl (fun T e =>
        T.assignElement scopeId isConditional lineno (elementValue value e.2) e.1) T)
      (elts.zipIdx.flatMap fun e =>
        nameRecords scopeId isConditional lineno (elementValue value e.2) e.1) :=
  .foldl (fun T e => lists_assignElement T scopeId isConditional lineno (elementValue value e.2) e.1)
    _ T

theorem lists_assignTarget (target : Expr) :
    Lists T (T.assignTarget scopeId isConditional lineno value target)
      (targetRecords scopeId isConditional lineno value target) := by
  cases target with
  | name pos id ctx => exact lists_bindName T _
  | subscript pos container index ctx =>
    exact (lists_assignSubscript T _ _ _ _ _ _ _).trans (lists_assignPath _ _ _ _ _ _)
  | tuple pos elts ctx => exact lists_assignElements T _ _ _ _ elts
  | list pos elts ctx => exact lists_assignElements T _ _ _ _ elts
  | attr pos base attr ctx => exact lists_selfTarget T (.attr pos base attr ctx) _
  | _ => exact .nothing rfl

theorem lists_annAssignTarget (target : Expr) :
    Lists T (T.annAssignTarget scopeId isConditional lineno value target)
      (nameRecords scopeId isConditional lineno value target) := by
  cases target with
  | name pos id ctx => exact lists_bindName T _
  | subscript pos container index ctx => exact lists_assignSubscript T _ _ _ _ _ _ _
  | attr pos base attr ctx => exact lists_selfTarget T (.attr pos base attr ctx) _
  | _ => exact .nothing rfl

theorem lists_augAssignTarget (pos : Pos) (op : BinOp) (target : Expr) :
    Lists T (T.augAssignTarget scopeId isConditional lineno value pos op target)
      (augRecords scopeId isConditional lineno value pos op target) := by
  cases target with
  | name p id ctx => exact lists_bindName T _
  | subscript p container index ctx => exact lists_assignSubscript T _ _ _ _ _ _ _
  | attr p base attr ctx => exact lists_selfTarget T (.attr p base attr ctx) _
  | _ => exact .nothing rfl

theorem lists_recordTargets (target : Expr) :
    Lists T (T.recordTargets scopeId isConditional lineno value target)
      (loopRecords scopeId isConditional lineno value target) :=
  .foldl_map (fun T id => lists_record T ⟨id, value, lineno, scopeId, isConditional⟩) _ T

end

theorem lists_visitExpr (T : Tracker) (e : Expr) (scopeId : String) (lineno : ℕ)
    (isConditional : Bool) :
    Lists T (T.visitExpr e scopeId lineno isConditional) (walrusRecords scopeId isConditional e) := by
  have hscan : Lists T ((T.scanForSinks e scopeId lineno).collectCallsInExpr e scopeId) [] :=
    .nothing rfl
  have hnamed := Lists.foldl_map
    (fun T (w : String × Expr × ℕ) => lists_bindName T ⟨w.1, w.2.1, w.2.2, scopeId, isConditional⟩)
    (namedExprsOf e) ((T.scanForSinks e scopeId lineno).collectCallsInExpr e scopeId)
  rw [Tracker.visitExpr, Tracker.collectNamedExprs, walrusRecords]
  exact hscan.trans hnamed

theorem lists_visitWithItem (T : Tracker) (scopeId : String) (lineno : ℕ) (isConditional : Bool)
    (item : WithItem) :
    Lists T (T.visitWithItem scopeId lineno isConditional item)
      (withRecords scopeId isConditional lineno item) := by
  have hvisit := lists_visitExpr T item.contextExpr scopeId lineno isConditional
  unfold Tracker.visitWithItem withRecords
  cases item.optionalVars with
  | none =>
    have hnone : walrusRecords scopeId isConditional item.contextExpr ++
        (Option.toList none).flatMap (loopRecords scopeId isConditional lineno item.contextExpr) =
          walrusRecords scopeId isConditional item.contextExpr := List.append_nil _
    rw [hnone]
    exact hvisit
  | some vars =>
    have hsome : (some vars).toList.flatMap
        (loopRecords scopeId isConditional lineno item.contextExpr) =
          loopRecords scopeId isConditional lineno item.contextExpr vars := List.append_nil _
    rw [hsome]
    exact hvisit.trans (lists_recordTargets _ _ _ _ _ _)

theorem lists_branch {T T' : Tracker} {rs : List AssignmentRecord} (cut : Bool) (h : Lists T T' rs) :
    Lists T (if cut then T else T') (if cut then [] else rs) := by
  cases cut with
  | true => exact .nothing rfl
  | false => exact h

/-! ## The collection -/

mutual

theorem collectStmt_lists (H : Host) (p : Place) (isConditional : Bool) (T : Tracker) :
    ∀ s : Stmt, Lists T (collectStmt H p.owner p.scopeId isConditional T s)
      (stmtRecords H.unparse p isConditional s)
  | .functionDef pos isAsync name args body decorators returns =>
    (lists_addFunction T _ (.functionDef pos isAsync name args body decorators returns)).trans
      (collectStatements_lists H (p.function name) false _ body)
  | .classDef pos name bases keywords body decorators => by
    have hclass : Lists T (T.addClass (p.classBody name).scopeId) [] := .nothing rfl
    exact hclass.trans (collectStatements_lists H (p.classBody name) isConditional _ body)
  | .ifStmt pos test body orelse => by
    have htest := lists_visitExpr T test p.scopeId pos.lineno false
    have hguards : Lists T
        (if isUnreachableTest H.unparse test then T.visitExpr test p.scopeId pos.lineno false
          else (T.visitExpr test p.scopeId pos.lineno false).addGuards H p.scopeId
            pos.lineno test body orelse) (walrusRecords p.scopeId false test) := by
      split
      · exact htest
      · exact htest.after (lists_addGuards _ _ _ _ _ _ _)
    have hbody := lists_branch (deadBody H.unparse test)
      (collectStatements_lists H p.inner true
        (if isUnreachableTest H.unparse test then T.visitExpr test p.scopeId pos.lineno false
          else (T.visitExpr test p.scopeId pos.lineno false).addGuards H p.scopeId
            pos.lineno test body orelse) body)
    exact hguards.trans (hbody.trans (lists_branch (deadOrelse H.unparse test)
      (collectStatements_lists H p.inner true _ orelse)))
  | .whileLoop pos test body orelse =>
    (lists_visitExpr T test p.scopeId pos.lineno false).trans
      ((collectStatements_lists H p.inner true _ body).trans
        (collectStatements_lists H p.inner true _ orelse))
  | .forLoop pos isAsync target iter body orelse =>
    (lists_visitExpr T iter p.scopeId pos.lineno isConditional).trans
      ((lists_recordTargets _ p.scopeId true pos.lineno iter target).trans
        ((collectStatements_lists H p.inner true _ body).trans
          (collectStatements_lists H p.inner true _ orelse)))
  | .tryStmt pos false body handlers orelse finalbody =>
    (collectStatements_lists H p.inner true T body).trans
      ((collectHandlers_lists H p _ handlers).trans
        ((collectStatements_lists H p.inner true _ orelse).trans
          (collectStatements_lists H p.inner false _ finalbody)))
  | .withStmt pos isAsync items body =>
    (Lists.foldl (fun T item => lists_visitWithItem T p.scopeId pos.lineno isConditional item)
      items T).trans (collectStatements_lists H p.inner isConditional _ body)
  | .assign pos targets value => by
    have htargets : Lists T (targets.foldl
        (fun T t => T.assignTarget p.scopeId isConditional pos.lineno value t) T)
        (targets.flatMap (targetRecords p.scopeId isConditional pos.lineno value)) :=
      .foldl (fun T t => lists_assignTarget T p.scopeId isConditional pos.lineno value t) targets T
    exact (htargets.trans (lists_visitExpr _ value p.scopeId pos.lineno isConditional)).after
      (.nothing rfl)
  | .annAssign pos target annot (some value) =>
    (lists_annAssignTarget T p.scopeId isConditional pos.lineno value target).trans
      (lists_visitExpr _ value p.scopeId pos.lineno isConditional)
  | .annAssign pos target annot none => .nothing rfl
  | .augAssign pos target op value =>
    ((lists_augAssignTarget T p.scopeId isConditional pos.lineno value pos op target).trans
      (lists_visitExpr _ value p.scopeId pos.lineno isConditional)).after
      (lists_recordContainerMutation _ _ _ _)
  | .ret pos none => .nothing rfl
  | .ret pos (some value) => by
    have hret : Lists T (T.addReturn p.scopeId (.stmt (.ret pos (some value)))) [] := .nothing rfl
    exact hret.trans (lists_visitExpr _ value p.scopeId pos.lineno isConditional)
  | .expr pos value => by
    have hyield : Lists T (match value with
        | .yield .. | .yieldFrom .. => T.addReturn p.scopeId (.expr value)
        | _ => T) [] := by
      split <;> exact .nothing rfl
    exact (hyield.trans (lists_recordContainerMutation _ _ _ _)).trans
      (lists_visitExpr _ value p.scopeId pos.lineno isConditional)
  | .tryStmt pos true body handlers orelse finalbody => .nothing rfl
  | .delete pos targets => .nothing rfl
  | .raise pos exc cause => .nothing rfl
  | .assert pos test msg => .nothing rfl
  | .matchStmt pos subject cases => .nothing rfl
  | .importStmt pos names => .nothing rfl
  | .importFrom pos module names level => .nothing rfl
  | .global pos names => .nothing rfl
  | .nonlocal pos names => .nothing rfl
  | .pass pos => .nothing rfl
  | .breakStmt pos => .nothing rfl
  | .continueStmt pos => .nothing rfl

theorem collectStatements_lists (H : Host) (p : Place) (isConditional : Bool) (T : Tracker) :
    ∀ body : List Stmt,
      Lists T (collectStatements H p.owner p.scopeId isConditional T body)
        (blockRecords H.unparse p isConditional body)
  | [] => .nothing rfl
  | s :: rest => (collectStmt_lists H p isConditional T s).trans
      (collectStatements_lists H p isConditional _ rest)

theorem collectHandlers_lists (H : Host) (p : Place) (T : Tracker) :
    ∀ hs : List (ExceptHandler Stmt),
      Lists T (collectHandlers H p.scopeId T hs) (handlersRecords H.unparse p hs)
  | [] => .nothing rfl
  | ⟨_, _, _, body⟩ :: rest => (collectStatements_lists H p.inner true T body).trans
      (collectHandlers_lists H p _ rest)

end

def recordsOf (rs : List AssignmentRecord) (scope name : String) : List AssignmentRecord :=
  rs.filter fun r => r.scopeId = scope && r.targetName = name

theorem recordsOf_plain {rs : List AssignmentRecord} {scope name : String} (h : PlainName name) :
    recordsOf (plain rs) scope name = recordsOf rs scope name := by
  rw [recordsOf, plain, List.filter_filter, recordsOf]
  refine List.filter_congr fun r _ => ?_
  by_cases hname : r.targetName = name
  · rw [hname, decide_eq_true h, Bool.and_true]
  · rw [decide_eq_false hname, Bool.and_false, Bool.false_and]

theorem records_collectModule (H : Host) (mod : String) (body : Module) (scope : String)
    {name : String} (h : PlainName name) :
    (collectModule H mod body).records scope name =
      recordsOf (moduleRecords H.unparse mod body) scope name := by
  have hlists : Lists {} (collectModule H mod body) (moduleRecords H.unparse mod body) :=
    collectStatements_lists H (modulePlace mod) false {} body
  have hplain : plain (collectModule H mod body).assignments =
      plain (moduleRecords H.unparse mod body) := hlists
  rw [← recordsOf_plain h, ← hplain, recordsOf_plain h]
  rfl

end TimeCodeSecurity.Scanner
