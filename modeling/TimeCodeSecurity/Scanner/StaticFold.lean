import Mathlib.Data.List.Sort
import TimeCodeSecurity.Py.Value
import TimeCodeSecurity.Scanner.Tracker

/-! # Folding to a constant

`_eval_static_constant`. A name is replaced by what the last record of it says, in the nearest scope
that has one up to the line asked for; without such a record every scope of the table is asked. The
set of names already followed is shared by all parts of one request. `conversion` is a number in every
parsed `FormattedValue`, so an f-string with a hole never folds.
-/
namespace TimeCodeSecurity.Scanner
open Py
set_option autoImplicit false

/-- A result with the set of visited names; no result at all when the fuel runs out. -/
abbrev FoldM := StateT (List String) Option

def foldConstant : Constant → Option Value
  | .none | .ellipsis => none
  | c => some (.ofConstant c)

def foldUnary (op : UnaryOp) (inner : Option Value) : Option Value :=
  match op, inner with
  | .uSub, some v => v.asInt.map fun n => .int (-n)
  | .not, some (.bool b) => some (.bool !b)
  | _, _ => none

/-- `isinstance(left, type(right))` holds for equal types, and for a truth value beside a number. -/
def foldBinary (addFloat : ℚ → ℚ → ℚ) (op : BinOp) (left right : Option Value) : Option Value :=
  match left, right with
  | some a, some b =>
    match op with
    | .add =>
      match a, b with
      | .int _, .bool _ => none
      | a, b => Value.binary addFloat .add a b
    | .bitOr | .bitAnd | .sub | .mult => Value.binary addFloat op a b
    | _ => none
  | _, _ => none

/-- `_read_literal_member` with the key folded. -/
def readLiteralMember (container : Container) (key : Option Value) : Option Value :=
  match key with
  | none => none
  | some key =>
    match container with
    | .dict items => Container.entry items key
    | .seq elements =>
      match key with
      | .int i => Container.element elements i
      | _ => none

/-- What `_eval_static_constant` and `_literal_only_value` do each in its own way. -/
structure Folder (m : Type → Type) where
  constant : Constant → Option Value
  name : String → m (Option Value)
  other : m (Option Value)

section
variable {m : Type → Type} [Monad m]

def joinFolded : List (m (Option Value)) → m (Option String)
  | [] => pure (some "")
  | part :: parts => do
    match ← part with
    | some (.str s) => do
      let rest ← joinFolded parts
      pure (rest.map (s ++ ·))
    | _ => pure none

/-- The members of a list display, up to the first that does not fold; `none` is a starred one. -/
def membersFolded : List (Option (m (Option Value))) → m (Option (List Value))
  | [] => pure (some [])
  | none :: _ => pure none
  | some member :: members => do
    match ← member with
    | none => pure none
    | some v => do
      let vs ← membersFolded members
      pure (vs.map (v :: ·))

/-- The items of a dictionary display; a key `none` stands for `**`. -/
def itemsFolded : List (Option (m (Option Value))) → List (m (Option Value)) →
    m (Option (List (Value × Value)))
  | none :: _, _ :: _ => pure none
  | some key :: keys, value :: values => do
    let k ← key
    let v ← value
    match k, v with
    | some k, some v => do
      let items ← itemsFolded keys values
      pure (items.map ((k, v) :: ·))
    | _, _ => pure none
  | _, _ => pure (some [])

variable (addFloat : ℚ → ℚ → ℚ) (F : Folder m)

mutual

def foldExpr : Expr → m (Option Value)
  | .constant _ value => pure (F.constant value)
  | .unaryOp _ op operand => do
    let inner ← foldExpr operand
    pure (foldUnary op inner)
  | .joinedStr _ values => do
    let text ← joinFolded (foldEach values)
    pure (text.map .str)
  | .formattedValue .. => pure none
  | .binOp _ left op right => do
    let a ← foldExpr left
    let b ← foldExpr right
    pure (foldBinary addFloat op a b)
  | .name _ id _ => F.name id
  | .subscript _ base index _ => do
    match ← foldContainer base with
    | none => pure none
    | some container => do
      let key ← foldExpr index
      pure (readLiteralMember container key)
  | .call _ (.attr _ receiver name _) (arg :: rest) _ =>
    if name ∈ dictMethods then do
      match ← foldContainer receiver with
      | some (.dict items) => do
        let key ← foldExpr arg
        match readLiteralMember (.dict items) key with
        | some v => pure (some v)
        | none => (foldEach rest).headD (pure none)
      | _ => pure none
    else F.other
  | _ => F.other

def foldEach : List Expr → List (m (Option Value))
  | [] => []
  | e :: es => foldExpr e :: foldEach es

def foldEachMember : List Expr → List (Option (m (Option Value)))
  | [] => []
  | e :: es => (if isStarred e then none else some (foldExpr e)) :: foldEachMember es

def foldEachKey : List (Option Expr) → List (Option (m (Option Value)))
  | [] => []
  | none :: es => none :: foldEachKey es
  | some e :: es => some (foldExpr e) :: foldEachKey es

def foldContainer : Expr → m (Option Container)
  | .dict _ keys values => do
    let items ← itemsFolded (foldEachKey keys) (foldEach values)
    pure (items.map .dict)
  | .list _ elts _ => do
    let vs ← membersFolded (foldEachMember elts)
    pure (vs.map .seq)
  | .tuple _ elts _ => do
    let vs ← membersFolded (foldEachMember elts)
    pure (vs.map .seq)
  | _ => pure none

end

end

namespace Tracker

variable (T : Tracker)

/-- The last record of a name, up to `line` where that is not 0, in the nearest scope that has one. -/
def chainRecord (scope id : String) (line : ℕ) : Option AssignmentRecord :=
  (scopeChain scope).findSome? fun s =>
    ((T.records s id).filter fun r => line = 0 ∨ r.lineno ≤ line).getLast?

end Tracker

/-! ## The records of all scopes -/

def literalOnlyConstant : Constant → Option Value
  | .none | .ellipsis | .float _ => none
  | c => some (.ofConstant c)

/-- `_literal_only_value`; no result at all for what needs the table. -/
def literalOnlyValue (addFloat : ℚ → ℚ → ℚ) (e : Expr) : Option (Option Value) :=
  foldExpr addFloat
    { constant := literalOnlyConstant, name := fun _ => (none : Option (Option Value)),
      other := none } e

def isContainerDisplay : Expr → Bool
  | .dict .. | .list .. | .tuple .. => true
  | _ => false

def valueMayFold : Expr → Bool
  | .constant _ value => (literalOnlyConstant value).isSome
  | .joinedStr .. | .binOp .. | .unaryOp .. | .name .. => true
  | .subscript _ base _ _ => isContainerDisplay base
  | .call _ (.attr _ receiver name _) (_ :: _) _ =>
    decide (name ∈ dictMethods) && isContainerDisplay receiver
  | _ => false

inductive Candidate
  | literal (v : Value)
  | alias (r : AssignmentRecord)

structure Interval where
  lower : ℕ
  upper : Option ℕ
  candidate : Candidate

def earliest (recs : List AssignmentRecord) : Option ℕ := (recs.map (·.lineno)).min?

def intervals (addFloat : ℚ → ℚ → ℚ) : List AssignmentRecord → List Interval
  | [] => []
  | r :: later =>
    let rest := intervals addFloat later
    if (earliest later).any (· ≤ r.lineno) then rest
    else
      match literalOnlyValue addFloat r.valueNode with
      | none =>
        if valueMayFold r.valueNode then ⟨r.lineno, earliest later, .alias r⟩ :: rest else rest
      | some none => rest
      | some (some v) => ⟨r.lineno, earliest later, .literal v⟩ :: rest

/-- The literals seen so far and the aliases in force. A literal that a later record hides stays
among the keys of `live_literals`, with the count 0. -/
structure Triage where
  literals : List Value := []
  aliases : List (ℕ × AssignmentRecord) := []

inductive Verdict
  | noLiteral
  | value (v : Value)
  | conflict
deriving DecidableEq, Repr

namespace Triage

def verdict (s : Triage) : Verdict :=
  match s.literals with
  | [] => .noLiteral
  | [v] => .value v
  | _ => .conflict

def crossScopeAliasBudget : ℕ := 20

/-- `none` for more aliases than the budget allows. -/
def snapshot (s : Triage) : Option (List AssignmentRecord) :=
  if s.aliases.length ≤ crossScopeAliasBudget then some (s.aliases.map (·.2)) else none

/-- One boundary of the interval with number `i`. -/
def meet (s : Triage) (opens : Bool) (i : ℕ) : Candidate → Triage
  | .literal v =>
    if ¬opens then s
    else if s.literals.any (v.equal ·) then
      { s with literals := s.literals.map fun w => if v.equal w then v else w }
    else { s with literals := s.literals ++ [v] }
  | .alias r =>
    if opens then { s with aliases := s.aliases ++ [(i, r)] }
    else { s with aliases := s.aliases.filter (·.1 ≠ i) }

end Triage

def boundaries (ivs : List Interval) : List (ℕ × Bool × ℕ × Candidate) :=
  (ivs.zipIdx.flatMap fun iv =>
    (iv.1.lower, true, iv.2, iv.1.candidate) ::
      (iv.1.upper.toList.map fun u => (u, false, iv.2, iv.1.candidate))).insertionSort
    fun a b => a.1 ≤ b.1

namespace Tracker

variable (T : Tracker)

def scopesOf (id : String) : List String :=
  ((T.assignments.filter (·.targetName = id)).map (·.scopeId)).eraseDups

/-- `_build_cross_scope_triage(…).at(lineno)`. -/
def crossScopeTriage (addFloat : ℚ → ℚ → ℚ) (id : String) (line : ℕ) : Triage :=
  let ivs := (T.scopesOf id).flatMap fun s => intervals addFloat (T.records s id)
  ((boundaries ivs).filter fun b => line = 0 ∨ b.1 ≤ line).foldl
    (fun s b => s.meet b.2.1 b.2.2.1 b.2.2.2) {}

end Tracker

def foldAliases (fold : Expr → String → ℕ → FoldM (Option Value)) (first : Option Value) :
    List AssignmentRecord → FoldM (Option Value)
  | [] => pure first
  | r :: rest => do
    let visited ← get
    let val ← fold r.valueNode r.scopeId r.lineno
    set visited
    match val, first with
    | none, _ => foldAliases fold first rest
    | some v, none => foldAliases fold (some v) rest
    | some v, some w => if v.equal w then foldAliases fold first rest else pure none

/-- The value of a name without a record in its scopes. -/
def foldCrossScope (addFloat : ℚ → ℚ → ℚ) (T : Tracker)
    (fold : Expr → String → ℕ → FoldM (Option Value)) (line : ℕ) (id : String) :
    FoldM (Option Value) :=
  let triage := T.crossScopeTriage addFloat id line
  let literal := match triage.verdict with
    | .value v => some v
    | _ => none
  if triage.verdict = .conflict then pure none
  else
    match triage.snapshot with
    | none => pure literal
    | some aliases => foldAliases fold literal aliases

def foldName (addFloat : ℚ → ℚ → ℚ) (T : Tracker)
    (fold : Expr → String → ℕ → FoldM (Option Value)) (scope : String) (line : ℕ) (id : String) :
    FoldM (Option Value) := do
  let key := scope ++ ":" ++ id
  if key ∈ (← get) then pure none
  else do
    modify (key :: ·)
    match T.chainRecord scope id line with
    | some r => fold r.valueNode r.scopeId r.lineno
    | none => foldCrossScope addFloat T fold line id

/-- `_eval_static_constant`; the fuel bounds how many names are followed. -/
def evalStaticConstant (addFloat : ℚ → ℚ → ℚ) (T : Tracker) :
    ℕ → Expr → String → ℕ → FoldM (Option Value)
  | 0, _, _, _ => failure
  | fuel + 1, e, scope, line =>
    foldExpr addFloat
      { constant := foldConstant
        name := foldName addFloat T (evalStaticConstant addFloat T fuel) scope line
        other := pure none } e

end TimeCodeSecurity.Scanner
