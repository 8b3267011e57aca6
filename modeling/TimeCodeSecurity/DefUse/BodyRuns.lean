import TimeCodeSecurity.DefUse.PathSoundness

/-! # The runs of a function body

The paths of a body once more, over every statement there is, each binding with the line of its statement.
Tests go both ways and any evaluation may raise. The body of a nested function or class has names of its
own, so only the name it defines is bound.
-/
namespace TimeCodeSecurity.DefUse
open Py Paths
open Execution (boundBy aliasName)
set_option autoImplicit false

structure Assigned where
  lineno : ℕ
  bindings : List Binding

abbrev BodyRun (α : Type) : Type := Paths Assigned Exit α

def onLine {α : Type} (lineno : ℕ) (A : Path α) : BodyRun α := fun tr r =>
  ∃ events, A events r ∧ tr = events.map fun bindings => ⟨lineno, bindings⟩

def unvalued (names : List String) : List Binding := names.map fun x => ⟨x, none, none⟩

def evaluateAll : List Expr → Path Unit
  | [] => pure ()
  | e :: es => do
    evaluate e
    evaluateAll es

def loopRuns (more : BodyRun Bool) (body orelse : BodyRun Unit) : BodyRun Unit := do
  let round : BodyRun Bool := do
    if ← more then
      match ← attempt body with
      | .error .cont => pure true
      | r => do
        resume r
        pure true
    else pure false
  match ← attempt (rounds round) with
  | .error .brk => pure ()
  | .ok () => orelse
  | r => resume r

def itemRuns (lineno : ℕ) (body : BodyRun Unit) : List WithItem → BodyRun Unit
  | [] => body
  | item :: items => do
    onLine lineno (evaluate item.contextExpr)
    let r ← attempt (do
      onLine lineno (assignTo (item.optionalVars.toList.flatMap (targetBindings none)))
      itemRuns lineno body items)
    match r with
    | .error .exc => either (pure ()) (leave .exc)
    | r => do
      onLine lineno mayRaise
      resume r

def defaultValues (args : Arguments Expr) : List Expr :=
  args.defaults ++ args.kwDefaults.filterMap id

mutual

def stmtRuns : Stmt → BodyRun Unit
  | .assign pos targets value => onLine pos.lineno do
    evaluate value
    assignTo (assignBindings none value targets)
  | .annAssign pos target _ (some value) => onLine pos.lineno do
    evaluate value
    assignTo (annBindings none value target)
  | .annAssign _ _ _ none => pure ()
  | .augAssign pos _ _ value => onLine pos.lineno do
    -- the target keeps what it carries
    evaluate value
    mayRaise
  | .delete pos targets => onLine pos.lineno (assignTo (targets.flatMap (targetBindings none)))
  | .forLoop pos _ target iter body orelse => do
    onLine pos.lineno (evaluate iter)
    loopRuns (do onLine pos.lineno mayRaise; either (pure true) (pure false))
      (do
        onLine pos.lineno (assignTo (targetBindings none target))
        blockRuns body)
      (blockRuns orelse)
  | .whileLoop pos test body orelse =>
    loopRuns (do onLine pos.lineno (evaluate test); either (pure true) (pure false)) (blockRuns body)
      (blockRuns orelse)
  | .ifStmt pos test body orelse => do
    onLine pos.lineno (evaluate test)
    either (blockRuns body) (blockRuns orelse)
  | .withStmt pos _ items body => itemRuns pos.lineno (blockRuns body) items
  | .matchStmt pos subject cases => do
    onLine pos.lineno (evaluate subject)
    caseRuns pos.lineno cases
  | .tryStmt _ isStar body handlers orelse finalbody => do
    let r ← attempt (do
      match ← attempt (blockRuns body) with
      | .ok () => blockRuns orelse
      | .error .exc => if isStar then starRuns handlers else handlerRuns handlers
      | r => resume r)
    blockRuns finalbody
    resume r
  | .functionDef pos _ name args _ decorators returns => onLine pos.lineno do
    evaluateAll (decorators ++ defaultValues args ++ returns.toList)
    assignTo (unvalued [name])
  | .classDef pos name bases keywords _ decorators => onLine pos.lineno do
    evaluateAll (decorators ++ bases ++ keywords.map (·.value))
    mayRaise
    assignTo (unvalued [name])
  | .importStmt pos names | .importFrom pos _ names _ => onLine pos.lineno do
    mayRaise
    assignTo (unvalued (names.map aliasName))
  | .ret pos value => do
    onLine pos.lineno (evaluateOpt value)
    leave .ret
  | .raise pos exc cause => do
    onLine pos.lineno (evaluateOpt exc)
    onLine pos.lineno (evaluateOpt cause)
    leave .exc
  | .assert pos test msg => do
    onLine pos.lineno (evaluate test)
    either (pure ()) (do onLine pos.lineno (evaluateOpt msg); leave .exc)
  | .expr pos value => onLine pos.lineno (evaluate value)
  | .global .. | .nonlocal .. | .pass _ => pure ()
  | .breakStmt _ => leave .brk
  | .continueStmt _ => leave .cont

def blockRuns : List Stmt → BodyRun Unit
  | [] => pure ()
  | s :: rest => do
    stmtRuns s
    blockRuns rest

def handlerRuns : List (ExceptHandler Stmt) → BodyRun Unit
  | [] => leave .exc
  | ⟨pos, type, name, body⟩ :: rest => do
    onLine pos.lineno (evaluateOpt type)
    either
      (do
        onLine pos.lineno (assignTo (unvalued name.toList))
        let r ← attempt (blockRuns body)
        onLine pos.lineno (assignTo (unvalued name.toList))
        resume r)
      (handlerRuns rest)

def starRuns : List (ExceptHandler Stmt) → BodyRun Unit
  | [] => either (pure ()) (leave .exc)
  | ⟨pos, type, name, body⟩ :: rest => do
    onLine pos.lineno (evaluateOpt type)
    let r ← either (pure (.ok ()))
      (do
        onLine pos.lineno (assignTo (unvalued name.toList))
        let r ← attempt (blockRuns body)
        onLine pos.lineno (assignTo (unvalued name.toList))
        pure r)
    starRuns rest
    resume r

def caseRuns (lineno : ℕ) : List (MatchCase Stmt) → BodyRun Unit
  | [] => pure ()
  | ⟨pattern, guard, body⟩ :: rest => do
    onLine lineno mayRaise
    either (caseRuns lineno rest) do
      onLine lineno (emit (unvalued ((Node.pattern pattern).walk.flatMap boundBy)))
      match guard with
      | none => blockRuns body
      | some guard => do
        onLine lineno (evaluate guard)
        either (blockRuns body) (caseRuns lineno rest)

end

structure Flow where
  param : String
  hops : List (String × ℕ)

abbrev Carried := String → Option Flow

def Carried.bind (σ : Carried) (a : Assigned) : Carried := fun x =>
  match a.bindings.reverse.find? (·.name = x) with
  | none => σ x
  | some b => b.copied.bind fun y => (σ y).map fun f => ⟨f.param, (x, a.lineno) :: f.hops⟩

def carriedAfter (params : List String) (tr : List Assigned) : Carried :=
  tr.foldl Carried.bind fun x => if x ∈ params then some ⟨x, []⟩ else none

/-- The flow of `x` ends in `x`. -/
def Flow.EndsIn (f : Flow) (x : String) : Prop :=
  (f.hops = [] ∧ f.param = x) ∨ ∃ lineno rest, f.hops = (x, lineno) :: rest

theorem carriedAfter_ends (params : List String) (tr : List Assigned) {x : String} {f : Flow}
    (h : carriedAfter params tr x = some f) : f.EndsIn x ∧ f.param ∈ params := by
  induction tr using List.reverseRecOn generalizing x f with
  | nil =>
    simp only [carriedAfter, List.foldl_nil] at h
    split_ifs at h with hx
    cases h
    exact ⟨.inl ⟨rfl, rfl⟩, hx⟩
  | append_singleton tr a ih =>
    rw [carriedAfter, List.foldl_append, List.foldl_cons, List.foldl_nil, ← carriedAfter,
      Carried.bind] at h
    split at h
    · exact ih h
    next b hb =>
      obtain ⟨y, -, hmap⟩ := Option.bind_eq_some_iff.mp h
      obtain ⟨g, hg, rfl⟩ := Option.map_eq_some_iff.mp hmap
      exact ⟨.inr ⟨a.lineno, g.hops, rfl⟩, (ih hg).2⟩

end TimeCodeSecurity.DefUse
