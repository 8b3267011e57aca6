import TimeCodeSecurity.Scanner.Keeps
import TimeCodeSecurity.Scanner.ScopeIds

/-! # Whether scope ids identify scopes

The bodies the collection files records for, with the id it gives each of them, and the names and
functions around them. The ids tell the bodies apart exactly when the names of the bodies differ, and
the walk from a function visits the functions around it exactly when these names are theirs
(`scopesIdentified_iff`). Names are lost where a method is named after its class only, and below a
definition whose name starts with `global`.
-/
namespace TimeCodeSecurity.Scanner
open Py
set_option autoImplicit false

structure ScopedBody where
  isClass : Bool
  scopeId : String
  /-- The names the id is made of, innermost first. -/
  names : List String
  /-- The ids of the functions around it, innermost first, and the names they are made of. -/
  enclosing : List String
  around : List (List String)
deriving DecidableEq, Repr

structure Surroundings where
  place : Place
  names : List String := []
  enclosing : List String := []
  around : List (List String) := []

namespace Surroundings

variable (L : Surroundings)

def inner : Surroundings := { L with place := L.place.inner }

def functionNames (name : String) : List String :=
  match L.place.owner with
  | some (_, cls) => [name, cls]
  | none => childNames L.names name

def body (isClass : Bool) (place : Place) (names : List String) : ScopedBody :=
  { isClass := isClass, scopeId := place.scopeId, names := names, enclosing := L.enclosing,
    around := L.around }

def function (name : String) : Surroundings :=
  { place := L.place.function name, names := L.functionNames name,
    enclosing := (L.place.function name).scopeId :: L.enclosing,
    around := L.functionNames name :: L.around }

def classBody (name : String) : Surroundings :=
  { L with place := L.place.classBody name, names := childNames L.names name }

end Surroundings

mutual

def stmtBodies (unparse : Expr → String) (L : Surroundings) : Stmt → List ScopedBody
  | .functionDef _ _ name _ body _ _ =>
    L.body false (L.place.function name) (L.functionNames name) ::
      stmtsBodies unparse (L.function name) body
  | .classDef _ name _ _ body _ =>
    L.body true (L.place.classBody name) (childNames L.names name) ::
      stmtsBodies unparse (L.classBody name) body
  | .ifStmt _ test body orelse =>
    (if deadBody unparse test then [] else stmtsBodies unparse L.inner body) ++
      (if deadOrelse unparse test then [] else stmtsBodies unparse L.inner orelse)
  | .whileLoop _ _ body orelse | .forLoop _ _ _ _ body orelse =>
    stmtsBodies unparse L.inner body ++ stmtsBodies unparse L.inner orelse
  | .tryStmt _ false body handlers orelse finalbody =>
    stmtsBodies unparse L.inner body ++ (handlersBodies unparse L.inner handlers ++
      (stmtsBodies unparse L.inner orelse ++ stmtsBodies unparse L.inner finalbody))
  | .withStmt _ _ _ body => stmtsBodies unparse L.inner body
  | _ => []

def stmtsBodies (unparse : Expr → String) (L : Surroundings) : List Stmt → List ScopedBody
  | [] => []
  | s :: rest => stmtBodies unparse L s ++ stmtsBodies unparse L rest

def handlersBodies (unparse : Expr → String) (L : Surroundings) :
    List (ExceptHandler Stmt) → List ScopedBody
  | [] => []
  | ⟨_, _, _, body⟩ :: rest => stmtsBodies unparse L body ++ handlersBodies unparse L rest

end

def moduleBodies (unparse : Expr → String) (mod : String) (body : Module) : List ScopedBody :=
  stmtsBodies unparse { place := modulePlace mod } body

/-! ## The collection registers the bodies -/

def addKey (keys : List String) (key : String) : List String :=
  if key ∈ keys then keys else keys ++ [key]

def functionIds (bodies : List ScopedBody) : List String :=
  (bodies.filter (!·.isClass)).map (·.scopeId)

def classIds (bodies : List ScopedBody) : List String :=
  (bodies.filter (·.isClass)).map (·.scopeId)

structure Registers (T T' : Tracker) (bodies : List ScopedBody) : Prop where
  functions : T'.functions.map (·.1) = (functionIds bodies).foldl addKey (T.functions.map (·.1))
  classes : T'.classes = T.classes ++ classIds bodies

namespace Registers

variable {T T' T'' : Tracker} {bodies bodies' : List ScopedBody}

theorem nothing (hfunctions : T'.functions = T.functions) (hclasses : T'.classes = T.classes) :
    Registers T T' [] :=
  ⟨by rw [hfunctions]; rfl, by rw [hclasses]; exact (List.append_nil _).symm⟩

theorem trans (h : Registers T T' bodies) (h' : Registers T' T'' bodies') :
    Registers T T'' (bodies ++ bodies') where
  functions := by
    rw [h'.functions, h.functions, functionIds, functionIds, functionIds, List.filter_append,
      List.map_append, List.foldl_append]
  classes := by
    rw [h'.classes, h.classes, classIds, classIds, classIds, List.filter_append, List.map_append,
      List.append_assoc]

theorem before (h : Registers T T' []) (h' : Registers T' T'' bodies) : Registers T T'' bodies :=
  h.trans h'

theorem after (h : Registers T T' bodies) (h' : Registers T' T'' []) : Registers T T'' bodies := by
  have htrans := h.trans h'
  rwa [List.append_nil] at htrans

end Registers

theorem Keeps.registers {T T' : Tracker} (h : Keeps T T') : Registers T T' [] :=
  .nothing h.functions h.classes

theorem registers_visitExpr (T : Tracker) (e : Expr) (scopeId : String) (lineno : ℕ)
    (isConditional : Bool) : Registers T (T.visitExpr e scopeId lineno isConditional) [] := by
  have hnamed := keeps_collectNamedExprs ((T.scanForSinks e scopeId lineno).collectCallsInExpr e scopeId)
    scopeId isConditional e
  exact .nothing hnamed.functions hnamed.classes

theorem registers_visitWithItem (T : Tracker) (scopeId : String) (lineno : ℕ) (isConditional : Bool)
    (item : WithItem) : Registers T (T.visitWithItem scopeId lineno isConditional item) [] := by
  have hvisit := registers_visitExpr T item.contextExpr scopeId lineno isConditional
  unfold Tracker.visitWithItem
  split
  · exact hvisit.before (keeps_recordTargets _ _ _ _ _ _).registers
  · exact hvisit

theorem registers_visitWithItems (scopeId : String) (lineno : ℕ) (isConditional : Bool)
    (items : List WithItem) (T : Tracker) :
    Registers T (items.foldl (fun T item => T.visitWithItem scopeId lineno isConditional item) T)
      [] := by
  induction items generalizing T with
  | nil => exact .nothing rfl rfl
  | cons item items ih =>
    have hitem := registers_visitWithItem T scopeId lineno isConditional item
    exact hitem.before (ih (T.visitWithItem scopeId lineno isConditional item))

theorem registers_addFunction (T : Tracker) (stmt : Stmt) {b : ScopedBody} (h : b.isClass = false) :
    Registers T (T.addFunction b.scopeId stmt) [b] := by
  unfold Tracker.addFunction
  by_cases hthere : T.functions.any (·.1 = b.scopeId) = true
  · rw [if_pos hthere]
    have hmem : b.scopeId ∈ T.functions.map (·.1) := by
      obtain ⟨f, hf, heq⟩ := List.any_eq_true.mp hthere
      exact List.mem_map.mpr ⟨f, hf, by simpa using heq⟩
    refine ⟨?_, by simp [classIds, h]⟩
    have hkeys : (T.functions.map fun f => if f.1 = b.scopeId then (b.scopeId, stmt) else f).map
        (·.1) = T.functions.map (·.1) := by
      rw [List.map_map]
      refine List.map_congr_left fun f _ => ?_
      by_cases hf : f.1 = b.scopeId
      · simp [hf]
      · simp [hf]
    simp [functionIds, h, addKey, hmem, hkeys]
  · rw [if_neg hthere]
    have hmem : b.scopeId ∉ T.functions.map (·.1) := by
      intro hmem
      obtain ⟨f, hf, heq⟩ := List.mem_map.mp hmem
      exact hthere (List.any_eq_true.mpr ⟨f, hf, by simpa using heq⟩)
    refine ⟨?_, by simp [classIds, h]⟩
    simp [functionIds, h, addKey, hmem]

theorem registers_addClass (T : Tracker) {b : ScopedBody} (h : b.isClass = true) :
    Registers T (T.addClass b.scopeId) [b] :=
  ⟨by simp [functionIds, h, Tracker.addClass], by simp [classIds, h, Tracker.addClass]⟩

theorem registers_branch {T T' : Tracker} {bodies : List ScopedBody} (cut : Bool)
    (h : Registers T T' bodies) :
    Registers T (if cut then T else T') (if cut then [] else bodies) := by
  cases cut with
  | true => exact .nothing rfl rfl
  | false => exact h

mutual

theorem collectStmt_registers (H : Host) (L : Surroundings) (isConditional : Bool) (T : Tracker) :
    ∀ s : Stmt, Registers T (collectStmt H L.place.owner L.place.scopeId isConditional T s)
      (stmtBodies H.unparse L s)
  | .functionDef pos isAsync name args body decorators returns =>
    (registers_addFunction T (.functionDef pos isAsync name args body decorators returns) rfl).trans
      (collectStatements_registers H (L.function name) false _ body)
  | .classDef pos name bases keywords body decorators =>
    (registers_addClass T rfl).trans
      (collectStatements_registers H (L.classBody name) isConditional _ body)
  | .ifStmt pos test body orelse => by
    have htest := registers_visitExpr T test L.place.scopeId pos.lineno false
    have hguards : Registers T
        (if isUnreachableTest H.unparse test then T.visitExpr test L.place.scopeId pos.lineno false
          else (T.visitExpr test L.place.scopeId pos.lineno false).addGuards H L.place.scopeId
            pos.lineno test body orelse) [] := by
      split
      · exact htest
      · exact htest.before (keeps_addGuards _ _ _ _ _ _ _).registers
    have hbody := registers_branch (deadBody H.unparse test)
      (collectStatements_registers H L.inner true
        (if isUnreachableTest H.unparse test then T.visitExpr test L.place.scopeId pos.lineno false
          else (T.visitExpr test L.place.scopeId pos.lineno false).addGuards H L.place.scopeId
            pos.lineno test body orelse) body)
    exact (hguards.before hbody).trans (registers_branch (deadOrelse H.unparse test)
      (collectStatements_registers H L.inner true _ orelse))
  | .whileLoop pos test body orelse =>
    ((registers_visitExpr T test L.place.scopeId pos.lineno false).before
      (collectStatements_registers H L.inner true _ body)).trans
      (collectStatements_registers H L.inner true _ orelse)
  | .forLoop pos isAsync target iter body orelse =>
    (((registers_visitExpr T iter L.place.scopeId pos.lineno isConditional).before
      (keeps_recordTargets _ L.place.scopeId true pos.lineno iter target).registers).before
      (collectStatements_registers H L.inner true _ body)).trans
      (collectStatements_registers H L.inner true _ orelse)
  | .tryStmt pos false body handlers orelse finalbody =>
    (collectStatements_registers H L.inner true T body).trans
      ((collectHandlers_registers H L.inner _ handlers).trans
        ((collectStatements_registers H L.inner true _ orelse).trans
          (collectStatements_registers H L.inner false _ finalbody)))
  | .withStmt pos isAsync items body =>
    (registers_visitWithItems L.place.scopeId pos.lineno isConditional items T).before
      (collectStatements_registers H L.inner isConditional _ body)
  | .assign pos targets value => by
    have htargets : Keeps T (targets.foldl
        (fun T t => T.assignTarget L.place.scopeId isConditional pos.lineno value t) T) :=
      .foldl (fun T t => keeps_assignTarget T _ _ _ _ _) targets T
    have hvalue := htargets.registers.before
      (registers_visitExpr _ value L.place.scopeId pos.lineno isConditional)
    exact hvalue.after (.nothing rfl rfl)
  | .annAssign pos target annot (some value) =>
    (keeps_annAssignTarget T L.place.scopeId isConditional pos.lineno value target).registers.before
      (registers_visitExpr _ value L.place.scopeId pos.lineno isConditional)
  | .annAssign pos target annot none => .nothing rfl rfl
  | .augAssign pos target op value =>
    ((keeps_augAssignTarget T L.place.scopeId isConditional pos.lineno value pos op
      target).registers.before
      (registers_visitExpr _ value L.place.scopeId pos.lineno isConditional)).before
      (keeps_recordContainerMutation _ _ _ _).registers
  | .ret pos none => .nothing rfl rfl
  | .ret pos (some value) =>
    have hret : Registers T (T.addReturn L.place.scopeId (.stmt (.ret pos (some value)))) [] :=
      .nothing rfl rfl
    hret.before (registers_visitExpr _ value L.place.scopeId pos.lineno isConditional)
  | .expr pos value => by
    have hyield : Registers T (match value with
        | .yield .. | .yieldFrom .. => T.addReturn L.place.scopeId (.expr value)
        | _ => T) [] := by
      split <;> exact .nothing rfl rfl
    exact (hyield.before (keeps_recordContainerMutation _ _ _ _).registers).before
      (registers_visitExpr _ value L.place.scopeId pos.lineno isConditional)
  | .tryStmt pos true body handlers orelse finalbody => .nothing rfl rfl
  | .delete pos targets => .nothing rfl rfl
  | .raise pos exc cause => .nothing rfl rfl
  | .assert pos test msg => .nothing rfl rfl
  | .matchStmt pos subject cases => .nothing rfl rfl
  | .importStmt pos names => .nothing rfl rfl
  | .importFrom pos module names level => .nothing rfl rfl
  | .global pos names => .nothing rfl rfl
  | .nonlocal pos names => .nothing rfl rfl
  | .pass pos => .nothing rfl rfl
  | .breakStmt pos => .nothing rfl rfl
  | .continueStmt pos => .nothing rfl rfl

theorem collectStatements_registers (H : Host) (L : Surroundings) (isConditional : Bool)
    (T : Tracker) : ∀ body : List Stmt,
      Registers T (collectStatements H L.place.owner L.place.scopeId isConditional T body)
        (stmtsBodies H.unparse L body)
  | [] => .nothing rfl rfl
  | s :: rest => (collectStmt_registers H L isConditional T s).trans
      (collectStatements_registers H L isConditional _ rest)

theorem collectHandlers_registers (H : Host) (L : Surroundings) (T : Tracker) :
    ∀ hs : List (ExceptHandler Stmt),
      Registers T (collectHandlers H L.place.scopeId T hs) (handlersBodies H.unparse L.inner hs)
  | [] => .nothing rfl rfl
  | ⟨_, _, _, body⟩ :: rest => (collectStatements_registers H L.inner true T body).trans
      (collectHandlers_registers H L _ rest)

end

structure BodyText (mod : String) (b : ScopedBody) : Prop where
  nonempty : b.names ≠ []
  scopeId : b.scopeId = scopeText mod b.names
  enclosing : b.enclosing = b.around.map (scopeText mod)
  around : ∀ ns ∈ b.around, ns ≠ [] ∧ ∀ n ∈ ns, Identifier n

/-- The surroundings of a statement in the module `mod`. -/
structure Surroundings.Fits (mod : String) (L : Surroundings) : Prop where
  outermost : L.names = [] → L.place.scopeId = mod ++ ":global"
  nested : L.names ≠ [] → L.place.scopeId = scopeText (scopeModule (mod ++ ":global")) L.names
  identifiers : ∀ n ∈ L.names, Identifier n
  owner : ∀ m cls, L.place.owner = some (m, cls) → m = scopeModule (mod ++ ":global")
  enclosing : L.enclosing = L.around.map (scopeText (scopeModule (mod ++ ":global")))
  around : ∀ ns ∈ L.around, ns ≠ [] ∧ ∀ n ∈ ns, Identifier n

theorem childNames_ne_nil (names : List String) (name : String) : childNames names name ≠ [] := by
  unfold childNames
  split <;> exact List.cons_ne_nil _ _

theorem Surroundings.functionNames_ne_nil (L : Surroundings) (name : String) :
    L.functionNames name ≠ [] := by
  unfold functionNames
  split
  · exact List.cons_ne_nil _ _
  · exact childNames_ne_nil _ _

namespace Surroundings.Fits

variable {mod : String} {L : Surroundings} (h : L.Fits mod)

include h

theorem inner : L.inner.Fits mod :=
  ⟨h.outermost, h.nested, h.identifiers, by rintro m cls ⟨⟩, h.enclosing, h.around⟩

theorem childScope_eq (name : String) : childScope L.place.scopeId name =
    scopeText (scopeModule (mod ++ ":global")) (childNames L.names name) := by
  by_cases hnames : L.names = []
  · rw [h.outermost hnames, hnames, childScope_module]
    rfl
  · rw [h.nested hnames, childScope_scopeText (moduleText_scopeModule _) h.identifiers]

theorem scopeModule_eq : scopeModule L.place.scopeId = scopeModule (mod ++ ":global") := by
  by_cases hnames : L.names = []
  · rw [h.outermost hnames]
  · rw [h.nested hnames, scopeModule_scopeText (moduleText_scopeModule _)]

theorem functionScope_eq (name : String) : (L.place.function name).scopeId =
    scopeText (scopeModule (mod ++ ":global")) (L.functionNames name) := by
  unfold Place.function functionNames
  cases howner : L.place.owner with
  | none => exact h.childScope_eq name
  | some o =>
    obtain ⟨m, cls⟩ := o
    rw [h.owner m cls howner]
    exact methodScope_eq _ cls name

theorem function {name : String} (hids : ∀ n ∈ L.functionNames name, Identifier n) :
    (L.function name).Fits mod := by
  have hne := L.functionNames_ne_nil name
  refine ⟨fun hnil => absurd hnil hne, fun _ => h.functionScope_eq name, hids, ?_, ?_, ?_⟩
  · rintro m cls ⟨⟩
  · show (L.place.function name).scopeId :: L.enclosing = _
    rw [h.functionScope_eq, h.enclosing]
    rfl
  · exact List.forall_mem_cons.mpr ⟨⟨hne, hids⟩, h.around⟩

theorem classBody {name : String} (hids : ∀ n ∈ childNames L.names name, Identifier n) :
    (L.classBody name).Fits mod := by
  refine ⟨fun hnil => absurd hnil (childNames_ne_nil L.names name), fun _ => h.childScope_eq name, hids,
    ?_, h.enclosing, h.around⟩
  rintro m cls heq
  rw [← (Prod.mk.inj (Option.some.inj heq)).1]
  exact h.scopeModule_eq

end Surroundings.Fits

mutual

theorem stmtBodies_text (unparse : Expr → String) {mod : String} {L : Surroundings} (h : L.Fits mod) :
    ∀ s : Stmt, (∀ b ∈ stmtBodies unparse L s, ∀ n ∈ b.names, Identifier n) →
      ∀ b ∈ stmtBodies unparse L s, BodyText (scopeModule (mod ++ ":global")) b
  | .functionDef pos isAsync name args body decorators returns => fun hids => by
    rw [stmtBodies] at hids ⊢
    obtain ⟨hown, hinner⟩ := List.forall_mem_cons.mp hids
    exact List.forall_mem_cons.mpr
      ⟨⟨L.functionNames_ne_nil name, h.functionScope_eq name, h.enclosing, h.around⟩,
        stmtsBodies_text unparse (h.function hown) body hinner⟩
  | .classDef pos name bases keywords body decorators => fun hids => by
    rw [stmtBodies] at hids ⊢
    obtain ⟨hown, hinner⟩ := List.forall_mem_cons.mp hids
    exact List.forall_mem_cons.mpr
      ⟨⟨childNames_ne_nil L.names name, h.childScope_eq name, h.enclosing, h.around⟩,
        stmtsBodies_text unparse (h.classBody hown) body hinner⟩
  | .ifStmt pos test body orelse => fun hids => by
    rw [stmtBodies] at hids ⊢
    obtain ⟨hbody, horelse⟩ := List.forall_mem_append.mp hids
    refine List.forall_mem_append.mpr ⟨?_, ?_⟩
    · split at hbody
      next hdead => rw [if_pos hdead]; simp
      next hdead => rw [if_neg hdead]; exact stmtsBodies_text unparse h.inner body hbody
    · split at horelse
      next hdead => rw [if_pos hdead]; simp
      next hdead => rw [if_neg hdead]; exact stmtsBodies_text unparse h.inner orelse horelse
  | .whileLoop pos test body orelse => fun hids => by
    rw [stmtBodies] at hids ⊢
    obtain ⟨hbody, horelse⟩ := List.forall_mem_append.mp hids
    exact List.forall_mem_append.mpr ⟨stmtsBodies_text unparse h.inner body hbody,
      stmtsBodies_text unparse h.inner orelse horelse⟩
  | .forLoop pos isAsync target iter body orelse => fun hids => by
    rw [stmtBodies] at hids ⊢
    obtain ⟨hbody, horelse⟩ := List.forall_mem_append.mp hids
    exact List.forall_mem_append.mpr ⟨stmtsBodies_text unparse h.inner body hbody,
      stmtsBodies_text unparse h.inner orelse horelse⟩
  | .tryStmt pos false body handlers orelse finalbody => fun hids => by
    rw [stmtBodies] at hids ⊢
    obtain ⟨hbody, hrest⟩ := List.forall_mem_append.mp hids
    obtain ⟨hhandlers, hrest⟩ := List.forall_mem_append.mp hrest
    obtain ⟨horelse, hfinal⟩ := List.forall_mem_append.mp hrest
    exact List.forall_mem_append.mpr ⟨stmtsBodies_text unparse h.inner body hbody,
      List.forall_mem_append.mpr ⟨handlersBodies_text unparse h.inner handlers hhandlers,
        List.forall_mem_append.mpr ⟨stmtsBodies_text unparse h.inner orelse horelse,
          stmtsBodies_text unparse h.inner finalbody hfinal⟩⟩⟩
  | .withStmt pos isAsync items body => fun hids => by
    rw [stmtBodies] at hids ⊢
    exact stmtsBodies_text unparse h.inner body hids
  | .assign .. | .annAssign .. | .augAssign .. | .ret .. | .expr .. | .tryStmt _ true .. => by
    simp [stmtBodies]
  | .delete .. | .raise .. | .assert .. | .matchStmt .. | .importStmt .. | .importFrom .. => by
    simp [stmtBodies]
  | .global .. | .nonlocal .. | .pass .. | .breakStmt .. | .continueStmt .. => by
    simp [stmtBodies]

theorem stmtsBodies_text (unparse : Expr → String) {mod : String} {L : Surroundings}
    (h : L.Fits mod) : ∀ body : List Stmt,
      (∀ b ∈ stmtsBodies unparse L body, ∀ n ∈ b.names, Identifier n) →
      ∀ b ∈ stmtsBodies unparse L body, BodyText (scopeModule (mod ++ ":global")) b
  | [] => by simp [stmtsBodies]
  | s :: rest => fun hids => by
    rw [stmtsBodies] at hids ⊢
    obtain ⟨hs, hrest⟩ := List.forall_mem_append.mp hids
    exact List.forall_mem_append.mpr ⟨stmtBodies_text unparse h s hs,
      stmtsBodies_text unparse h rest hrest⟩

theorem handlersBodies_text (unparse : Expr → String) {mod : String} {L : Surroundings}
    (h : L.Fits mod) : ∀ hs : List (ExceptHandler Stmt),
      (∀ b ∈ handlersBodies unparse L hs, ∀ n ∈ b.names, Identifier n) →
      ∀ b ∈ handlersBodies unparse L hs, BodyText (scopeModule (mod ++ ":global")) b
  | [] => by simp [handlersBodies]
  | ⟨_, _, _, body⟩ :: rest => fun hids => by
    rw [handlersBodies] at hids ⊢
    obtain ⟨hbody, hrest⟩ := List.forall_mem_append.mp hids
    exact List.forall_mem_append.mpr ⟨stmtsBodies_text unparse h body hbody,
      handlersBodies_text unparse h rest hrest⟩

end

/-- The definitions of a module have the names the parser gives. -/
def IdentifierNames (unparse : Expr → String) (mod : String) (body : Module) : Prop :=
  ∀ b ∈ moduleBodies unparse mod body, ∀ n ∈ b.names, Identifier n

theorem moduleBodies_text {unparse : Expr → String} {mod : String} {body : Module}
    (hids : IdentifierNames unparse mod body) :
    ∀ b ∈ moduleBodies unparse mod body, BodyText (scopeModule (mod ++ ":global")) b := by
  refine stmtsBodies_text unparse ?_ body hids
  refine ⟨fun _ => rfl, fun hne => absurd rfl hne, by simp, ?_, rfl, by simp⟩
  rintro m cls ⟨⟩

/-- No two bodies are filed under one id, and the walk from a function visits the functions around it
and then the module. -/
structure ScopesIdentified (unparse : Expr → String) (mod : String) (body : Module) : Prop where
  distinct : ((moduleBodies unparse mod body).map (·.scopeId)).Nodup
  lexical : ∀ b ∈ moduleBodies unparse mod body, b.isClass = false →
    scopeChain b.scopeId = b.scopeId :: b.enclosing ++ [mod ++ ":global"]

/-- The same in names: no two bodies keep the same names, and the names kept for a function are those
of the functions around it. Modules with functions have neither a dot nor a colon in their name. -/
structure NamesIdentify (unparse : Expr → String) (mod : String) (body : Module) : Prop where
  distinct : ((moduleBodies unparse mod body).map (·.names)).Nodup
  lexical : ∀ b ∈ moduleBodies unparse mod body, b.isClass = false →
    PlainModule mod ∧ suffixes b.names = b.names :: b.around

/-- **Scope ids** identify the scopes of a module exactly when the names they keep do. -/
theorem scopesIdentified_iff (unparse : Expr → String) (mod : String) (body : Module)
    (hids : IdentifierNames unparse mod body) :
    ScopesIdentified unparse mod body ↔ NamesIdentify unparse mod body := by
  have htext := moduleBodies_text hids
  set M := scopeModule (mod ++ ":global") with hM
  have hids_eq : (moduleBodies unparse mod body).map (·.scopeId) =
      ((moduleBodies unparse mod body).map (·.names)).map (scopeText M) := by
    rw [List.map_map]
    exact List.map_congr_left fun b hb => (htext b hb).scopeId
  have hdistinct : ((moduleBodies unparse mod body).map (·.scopeId)).Nodup ↔
      ((moduleBodies unparse mod body).map (·.names)).Nodup := by
    rw [hids_eq]
    refine ⟨List.Nodup.of_map _, List.Nodup.map_on ?_⟩
    intro ns hns ms hms heq
    obtain ⟨b, hb, rfl⟩ := List.mem_map.mp hns
    obtain ⟨c, hc, rfl⟩ := List.mem_map.mp hms
    exact scopeText_inj (htext b hb).nonempty (htext c hc).nonempty (hids b hb) (hids c hc) heq
  have hlexical : ∀ b ∈ moduleBodies unparse mod body,
      (scopeChain b.scopeId = b.scopeId :: b.enclosing ++ [mod ++ ":global"] ↔
        PlainModule mod ∧ suffixes b.names = b.names :: b.around) := by
    intro b hb
    have h := htext b hb
    rw [h.scopeId, h.enclosing]
    exact scopeChain_eq_iff h.nonempty (hids b hb) h.around
  constructor
  · intro h
    exact ⟨hdistinct.mp h.distinct, fun b hb hfun => (hlexical b hb).mp (h.lexical b hb hfun)⟩
  · intro h
    exact ⟨hdistinct.mpr h.distinct, fun b hb hfun => (hlexical b hb).mpr (h.lexical b hb hfun)⟩

/-- The ids of nested functions identify them. -/
theorem scopesIdentified_iff_nested :
    ScopesIdentified (fun _ => "") "app"
      [.functionDef {} false "outer" {} [.functionDef {} false "inner" {} [] [] none] [] none] :=
  (scopesIdentified_iff (fun _ => "") "app" _ (by unfold IdentifierNames; decide)).mpr
    ⟨by decide, by decide⟩

/-- Two classes with an inner class `Meta`, each with a method `check`: both methods are filed under
`app:function:Meta.check`. -/
theorem scopesIdentified_fails_on_inner_classes :
    ¬ ∀ (unparse : Expr → String) (mod : String) (body : Module),
      IdentifierNames unparse mod body → ScopesIdentified unparse mod body := by
  intro h
  let check : Stmt := .functionDef {} false "check" {} [] [] none
  let withMeta : String → Stmt := fun name =>
    .classDef {} name [] [] [.classDef {} "Meta" [] [] [check] []] []
  have hid := h (fun _ => "") "app" [withMeta "A", withMeta "B"] (by unfold IdentifierNames; decide)
  exact absurd hid.distinct (by decide)

end TimeCodeSecurity.Scanner
