import TimeCodeSecurity.DefUse.BodyPaths

/-! # The map of aliases

The tracker with everything it keeps: beside the tainted and the killed variables the map from each
tracked name to its latest assignment, with the line and the flag it was given then. The walk is the one
of `Tracker`, each entry with the line of its statement.
-/
namespace TimeCodeSecurity.DefUse
open Py CrossFile LocalDefUseTracker
set_option autoImplicit false

structure AliasInfo where
  target : String
  source : String
  lineno : ℕ
  isTainted : Bool := false
  sanitizerApplied : Option String := none
deriving DecidableEq

structure AliasTracker where
  sets : LocalDefUseTracker := {}
  aliasMap : Dict AliasInfo := ∅

def getSourceName : Expr → String
  | .call _ _ (.name _ id _ :: _) _ => id
  | _ => "<unknown>"

/-- What an assignment enters into the map. `unparse` is `ast.unparse`. -/
def aliasInfo (unparse : Expr → String) (T : LocalDefUseTracker) (targetName : String) (valueNode : Expr)
    (lineno : ℕ) : AliasInfo :=
  if isSafeLiteral valueNode then { target := targetName, source := "<literal>", lineno := lineno }
  else
    match extractSanitizerName valueNode with
    | some sanitizer =>
      { target := targetName, source := getSourceName valueNode, lineno := lineno,
        sanitizerApplied := some sanitizer }
    | none =>
      match valueNode with
      | .name _ sourceName _ =>
        { target := targetName, source := sourceName, lineno := lineno,
          isTainted := T.isVariableTainted sourceName }
      | valueNode =>
        { target := targetName, source := unparse valueNode, lineno := lineno,
          isTainted := T.isNodeTainted valueNode }

namespace AliasTracker

variable (unparse : Expr → String) (S : AliasTracker)

def trackVariable (targetName : String) (valueNode : Expr) (lineno : ℕ) : AliasTracker :=
  { sets := S.sets.trackVariable targetName valueNode,
    aliasMap := S.aliasMap.insert targetName (aliasInfo unparse S.sets targetName valueNode lineno) }

def apply (lineno : ℕ) : Entry → AliasTracker
  | .track name value => S.trackVariable unparse name value lineno
  | .augment name value => { S with sets := Entry.apply S.sets (.augment name value) }

def isVariableTainted (varName : String) : Bool := S.sets.isVariableTainted varName

def getTaintedAliases : List (String × AliasInfo) :=
  S.aliasMap.items.filter fun (var, info) => info.isTainted && var ∉ S.sets.killedVars

end AliasTracker

mutual

def linedWalk : Stmt → List (ℕ × Entry)
  | .assign pos targets value => (assignEntries targets value).map (pos.lineno, ·)
  | .annAssign pos target _ value => (annEntries target value).map (pos.lineno, ·)
  | .augAssign pos target _ value => (augEntries target value).map (pos.lineno, ·)
  | .forLoop _ false _ _ body _ => linedWalkAll body
  | .whileLoop _ _ body _ => linedWalkAll body
  | .ifStmt _ _ body orelse => linedWalkAll body ++ linedWalkAll orelse
  | .tryStmt _ false body handlers _ finalbody =>
    linedWalkAll body ++ (linedWalkHandlers handlers ++ linedWalkAll finalbody)
  | _ => []

def linedWalkAll : List Stmt → List (ℕ × Entry)
  | [] => []
  | stmt :: rest => linedWalk stmt ++ linedWalkAll rest

def linedWalkHandlers : List (ExceptHandler Stmt) → List (ℕ × Entry)
  | [] => []
  | ⟨_, _, _, body⟩ :: rest => linedWalkAll body ++ linedWalkHandlers rest

end

/-- Everything the tracker has after the statements. -/
def analyzeAliases (unparse : Expr → String) (args : Arguments Expr) (body : List Stmt) : AliasTracker :=
  (linedWalkAll body).foldl (fun S e => S.apply unparse e.1 e.2) { sets := startTracker args }

mutual

theorem linedWalk_snd (s : Stmt) : (linedWalk s).map Prod.snd = walk s := by
  cases s with
  | assign pos targets value => simp [linedWalk, walk]
  | annAssign pos target annot value => simp [linedWalk, walk]
  | augAssign pos target op value => simp [linedWalk, walk]
  | forLoop pos isAsync target iter body orelse =>
    cases isAsync with
    | false => exact linedWalkAll_snd body
    | true => rfl
  | whileLoop pos test body orelse => exact linedWalkAll_snd body
  | ifStmt pos test body orelse =>
    rw [linedWalk, walk, List.map_append, linedWalkAll_snd body, linedWalkAll_snd orelse]
  | tryStmt pos isStar body handlers orelse finalbody =>
    cases isStar with
    | false =>
      rw [linedWalk, walk, List.map_append, List.map_append, linedWalkAll_snd body,
        linedWalkHandlers_snd handlers, linedWalkAll_snd finalbody]
    | true => rfl
  | _ => rfl

theorem linedWalkAll_snd (stmts : List Stmt) : (linedWalkAll stmts).map Prod.snd = walkAll stmts := by
  cases stmts with
  | nil => rfl
  | cons s rest => rw [linedWalkAll, walkAll, List.map_append, linedWalk_snd s, linedWalkAll_snd rest]

theorem linedWalkHandlers_snd (handlers : List (ExceptHandler Stmt)) :
    (linedWalkHandlers handlers).map Prod.snd = walkHandlers handlers := by
  match handlers with
  | [] => rfl
  | ⟨_, _, _, body⟩ :: rest =>
    rw [linedWalkHandlers, walkHandlers, List.map_append, linedWalkAll_snd body,
      linedWalkHandlers_snd rest]

end

variable {unparse : Expr → String}

theorem apply_sets (S : AliasTracker) (lineno : ℕ) (e : Entry) :
    (S.apply unparse lineno e).sets = Entry.apply S.sets e := by
  cases e <;> rfl

theorem foldl_sets (L : List (ℕ × Entry)) (S : AliasTracker) :
    (L.foldl (fun S e => S.apply unparse e.1 e.2) S).sets = (L.map Prod.snd).foldl Entry.apply S.sets := by
  induction L generalizing S with
  | nil => rfl
  | cons e L ih => rw [List.foldl_cons, ih, apply_sets, List.map_cons, List.foldl_cons]

theorem analyzeAliases_sets (args : Arguments Expr) (body : List Stmt) :
    (analyzeAliases unparse args body).sets = analyzeFunction args body := by
  rw [analyzeAliases, foldl_sets, linedWalkAll_snd, ← analyzeFunction_eq]

/-! ## Assigned names -/

def boundNames (target : Expr) : List String := (targetBindings none target).map (·.name)

mutual

def assignedNames : Stmt → List String
  | .assign _ targets _ => targets.flatMap boundNames
  | .annAssign _ target _ (some _) => boundNames target
  | .augAssign _ target _ _ => boundNames target
  | .forLoop _ _ _ _ body orelse => assignedAll body ++ assignedAll orelse
  | .whileLoop _ _ body orelse => assignedAll body ++ assignedAll orelse
  | .ifStmt _ _ body orelse => assignedAll body ++ assignedAll orelse
  | .withStmt _ _ _ body => assignedAll body
  | .matchStmt _ _ cases => assignedCases cases
  | .tryStmt _ _ body handlers orelse finalbody =>
    assignedAll body ++ (assignedHandlers handlers ++ (assignedAll orelse ++ assignedAll finalbody))
  | _ => []

def assignedAll : List Stmt → List String
  | [] => []
  | stmt :: rest => assignedNames stmt ++ assignedAll rest

def assignedCases : List (MatchCase Stmt) → List String
  | [] => []
  | ⟨_, _, body⟩ :: rest => assignedAll body ++ assignedCases rest

def assignedHandlers : List (ExceptHandler Stmt) → List String
  | [] => []
  | ⟨_, _, _, body⟩ :: rest => assignedAll body ++ assignedHandlers rest

end

def Entry.name : Entry → String
  | .track name _ => name
  | .augment name _ => name

theorem elementEntries_name {targets values : List Expr} {e : Entry} (h : e ∈ elementEntries targets values) :
    ∃ t ∈ targets, e.name ∈ boundNames t := by
  fun_induction elementEntries targets values with
  | case1 pos id ctx targets value values ih =>
    rcases List.mem_cons.mp h with rfl | h
    · exact ⟨_, List.mem_cons_self, by simp [boundNames, targetBindings, Entry.name]⟩
    · obtain ⟨t, ht, hname⟩ := ih h
      exact ⟨t, List.mem_cons_of_mem _ ht, hname⟩
  | case2 t targets value values hne ih =>
    obtain ⟨t, ht, hname⟩ := ih h
    exact ⟨t, List.mem_cons_of_mem _ ht, hname⟩
  | case3 => cases h

theorem mem_elementBindings {x : String} {t : Expr} (ht : x ∈ boundNames t) {elts : List Expr}
    (hmem : t ∈ elts) : x ∈ (elementBindings [] elts).map (·.name) := by
  induction elts with
  | nil => cases hmem
  | cons s elts ih =>
    rw [elementBindings, List.map_append, List.mem_append]
    rcases List.mem_cons.mp hmem with rfl | hmem
    · exact .inl ht
    · exact .inr (ih hmem)

theorem assignEntries_name {targets : List Expr} {value : Expr} {e : Entry}
    (h : e ∈ assignEntries targets value) : e.name ∈ targets.flatMap boundNames := by
  have hfirst : ∀ {t}, targets.head? = some t → ∀ {x}, x ∈ boundNames t → x ∈ targets.flatMap boundNames :=
    fun ht _ hx => List.mem_flatMap.mpr ⟨_, List.mem_of_mem_head? ht, hx⟩
  unfold assignEntries at h
  split at h
  next pos elts ctx hhead =>
    split at h
    · split_ifs at h
      · obtain ⟨t, ht, hname⟩ := elementEntries_name h
        refine hfirst hhead ?_
        rw [boundNames, targetBindings]
        exact mem_elementBindings hname ht
      · cases h
    · cases h
  next pos id ctx hhead =>
    rw [List.mem_singleton.mp h]
    exact hfirst hhead (by simp [boundNames, targetBindings, Entry.name])
  next => cases h

mutual

theorem walk_name {s : Stmt} {e : Entry} (h : e ∈ walk s) : e.name ∈ assignedNames s := by
  cases s with
  | assign pos targets value => exact assignEntries_name h
  | annAssign pos target annot value =>
    cases target <;> cases value <;> simp_all [walk, annEntries, assignedNames, boundNames, targetBindings,
      Entry.name]
  | augAssign pos target op value =>
    cases target <;> simp_all [walk, augEntries, assignedNames, boundNames, targetBindings, Entry.name]
  | forLoop pos isAsync target iter body orelse =>
    cases isAsync with
    | false => exact List.mem_append_left _ (walkAll_name h)
    | true => cases h
  | whileLoop pos test body orelse => exact List.mem_append_left _ (walkAll_name h)
  | ifStmt pos test body orelse =>
    rcases List.mem_append.mp h with h | h
    · exact List.mem_append_left _ (walkAll_name h)
    · exact List.mem_append_right _ (walkAll_name h)
  | tryStmt pos isStar body handlers orelse finalbody =>
    cases isStar with
    | true => cases h
    | false =>
      rw [assignedNames, List.mem_append, List.mem_append, List.mem_append]
      rw [walk, List.mem_append, List.mem_append] at h
      rcases h with h | h | h
      · exact .inl (walkAll_name h)
      · exact .inr (.inl (walkHandlers_name h))
      · exact .inr (.inr (.inr (walkAll_name h)))
  | _ => cases h

theorem walkAll_name {stmts : List Stmt} {e : Entry} (h : e ∈ walkAll stmts) :
    e.name ∈ assignedAll stmts := by
  match stmts with
  | [] => cases h
  | s :: rest =>
    rw [walkAll, List.mem_append] at h
    rw [assignedAll, List.mem_append]
    exact h.imp walk_name walkAll_name

theorem walkHandlers_name {handlers : List (ExceptHandler Stmt)} {e : Entry}
    (h : e ∈ walkHandlers handlers) : e.name ∈ assignedHandlers handlers := by
  match handlers with
  | [] => cases h
  | ⟨_, _, _, body⟩ :: rest =>
    rw [walkHandlers, List.mem_append] at h
    rw [assignedHandlers, List.mem_append]
    exact h.imp walkAll_name walkHandlers_name

end

end TimeCodeSecurity.DefUse
