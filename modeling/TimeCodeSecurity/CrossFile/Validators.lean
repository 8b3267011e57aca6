import TimeCodeSecurity.CrossFile.Harvest
import TimeCodeSecurity.CrossFile.Resolution
import TimeCodeSecurity.Py.Value
import TimeCodeSecurity.Scanner.Names

/-! # Decorators that validate

`_wrapper_slots` trusts a decorator for an argument slot on the first call its nested wrapper makes. What the
slot stands for: the decorator returns the wrapper, and no call of the wrapped function hands on the argument as it
came.
-/
namespace TimeCodeSecurity.CrossFile
open Py
set_option autoImplicit false

/-- The names a target binds or a `del` unbinds. -/
def storedNames (target : Expr) : List String :=
  (Node.expr target).walk.filterMap fun
    | .expr (.name _ id .store) => some id
    | .expr (.name _ id .del) => some id
    | _ => none

def capturedNames (pattern : Pattern) : List String :=
  (Node.pattern pattern).walk.filterMap fun
    | .pattern (.matchAs _ name) => name
    | .pattern (.matchStar name) => name
    | .pattern (.matchMapping _ _ rest) => rest
    | _ => none

def bindingsOf : Node → List (Pos × String)
  | .expr (.namedExpr pos target _) => (storedNames target).map (pos, ·)
  | .stmt (.assign pos targets _) => (targets.flatMap storedNames).map (pos, ·)
  | .stmt (.augAssign pos target _ _) => (storedNames target).map (pos, ·)
  | .stmt (.annAssign pos target _ (some _)) => (storedNames target).map (pos, ·)
  | .stmt (.delete pos targets) => (targets.flatMap storedNames).map (pos, ·)
  | .stmt (.forLoop _ _ target iter _ _) => (storedNames target).map (iter.pos, ·)
  | .stmt (.withStmt _ _ items _) => items.flatMap fun item =>
      (item.optionalVars.toList.flatMap storedNames).map (item.contextExpr.pos, ·)
  | .stmt (.matchStmt _ subject cases) => cases.flatMap fun c => (capturedNames c.pattern).map (subject.pos, ·)
  | .stmt (.functionDef pos _ name _ _ _ _) => [(pos, name)]
  | .stmt (.classDef pos name _ _ _ _) => [(pos, name)]
  | .stmt (.importStmt pos names) => names.map fun a => (pos, a.asname.getD (Scanner.beforeFirstDot a.name))
  | .stmt (.importFrom pos _ names _) => names.map fun a => (pos, a.asname.getD a.name)
  | .handler h => h.name.toList.map (h.pos, ·)
  | _ => []

def endsBefore (a b : Pos) : Prop :=
  a.endLineno < b.lineno ∨ a.endLineno = b.lineno ∧ a.endColOffset ≤ b.colOffset

def isLoop : Node → Bool
  | .stmt (.forLoop ..) => true
  | .stmt (.whileLoop ..) => true
  | _ => false

namespace FuncNode

variable (f w : FuncNode)

def params : List String := (f.args.posonlyargs ++ f.args.args).map Arg.arg

def wrapper : Option FuncNode := f.body.findSome? funcOf

def wrappedCalls : List CallNode :=
  (callsIn w.node).filter fun c => (nameOf c.func).any fun name => f.params.head? = some name

def seenCall : Option CallNode :=
  ((callsIn w.node).filter fun c => (nameOf c.func).any (· ∈ f.args.args.map Arg.arg)).head?

/-- The parameter may have another value when it is read at `use` in the call: it is bound before, or in a loop
around both, or the call is made by an inner function. -/
def ReboundBefore (param : String) (c : CallNode) (use : Pos) : Prop :=
  ∃ n ∈ ownScopeNodes w.node, ∃ b ∈ bindingsOf n, b.2 = param ∧
    (endsBefore b.1 use ∨ c ∉ (ownScopeNodes w.node).filterMap callOf ∨
      ∃ loop ∈ ownScopeNodes w.node, isLoop loop ∧ n ∈ loop.walk ∧ c ∈ callsIn loop)

def ReturnsOnly : Prop :=
  f.isAsync = false ∧
    (∀ n ∈ ownScopeNodes f.node, ∀ pos value, n ≠ .expr (.yield pos value)) ∧
    (∀ n ∈ ownScopeNodes f.node, ∀ pos value, n ≠ .expr (.yieldFrom pos value)) ∧
    (∃ n ∈ ownScopeNodes f.node, ∃ pos value, n = .stmt (.ret pos value)) ∧
    (∀ n ∈ ownScopeNodes f.node, ∀ pos value, n = .stmt (.ret pos value) → value.bind nameOf = some w.name) ∧
    (((ownScopeNodes f.node).flatMap bindingsOf).map Prod.snd).count w.name = 1

end FuncNode

/-- Position `i` of a call holds a call on the parameter itself, not bound again before. -/
def HoldsParam (w : FuncNode) (param : String) (i : ℕ) (c : CallNode) : Prop :=
  (∀ a ∈ c.args.take i, isStarred a = false) ∧
    ∃ pos func use ctx args keywords,
      c.args[i]? = some (.call pos func (.name use param ctx :: args) keywords) ∧ ¬w.ReboundBefore param c use

def HoldsSanitized (w : FuncNode) (param : String) (i : ℕ) (c : CallNode) : Prop :=
  HoldsParam w param i c ∧
    ∃ pos func args keywords, c.args[i]? = some (.call pos func args keywords) ∧ calleeTail func ∈ knownSanitizers

/-- The decorator returns its wrapper, and every call of the wrapped function in it has a known sanitizer of the
`i`-th parameter at position `i`. -/
def Neutralises (f : FuncNode) (i : ℕ) : Prop :=
  ∃ w param, f.wrapper = some w ∧ w.params[i]? = some param ∧ f.ReturnsOnly w ∧
    ∀ c ∈ f.wrappedCalls w, HoldsSanitized w param i c

/-- What the shape does not show: what the decorator returns, what the sanitizer of the call that was seen is applied
to, and all other calls. -/
def HoldsUnseen (f : FuncNode) (i : ℕ) : Prop :=
  ∃ w param, f.wrapper = some w ∧ w.params[i]? = some param ∧ f.ReturnsOnly w ∧
    ∀ c ∈ f.wrappedCalls w,
      (f.seenCall w = some c → HoldsParam w param i c) ∧
        (f.seenCall w ≠ some c → HoldsSanitized w param i c)

theorem wrapperShape_ok {f : FuncNode} {shape : WrapperShape} (hshape : wrapperShape f = some shape)
    (hok : shape.ok = true) :
    ∃ w c, f.wrapper = some w ∧ f.seenCall w = some c ∧ shape.fargs = c.args.map forwardedArg := by
  obtain ⟨w, hw, rfl⟩ := Option.map_eq_some_iff.mp hshape
  by_cases hargs : (w.args.vararg.isSome || w.args.kwarg.isSome || decide (w.args.kwonlyargs ≠ [])) = true
  · rw [if_pos hargs] at hok
    cases hok
  · rw [if_neg hargs] at hok ⊢
    have hseen : f.seenCall w =
        ((callsIn w.node).filter fun c => (nameOf c.func).any (· ∈ f.args.args.map Arg.arg)).head? := rfl
    cases hcalls : (callsIn w.node).filter fun c => (nameOf c.func).any (· ∈ f.args.args.map Arg.arg) with
    | nil =>
      simp only [hcalls] at hok
      cases hok
    | cons c rest =>
      simp only [hcalls] at hok ⊢
      by_cases hkeywords : c.keywords = []
      · rw [if_pos hkeywords]
        exact ⟨w, c, hw, by rw [hseen, hcalls, List.head?_cons], rfl⟩
      · rw [if_neg hkeywords] at hok
        cases hok

theorem mem_wrapperSlots {shape : WrapperShape} {decorated : List String} {i : ℕ}
    (hi : i ∈ wrapperSlots shape decorated) :
    shape.ok = true ∧ ∃ arg, shape.fargs[i]? = some arg ∧ arg.isCall = true ∧ arg.tail ∈ knownSanitizers := by
  rw [wrapperSlots] at hi
  split at hi
  next hok =>
    simp only [Bool.and_eq_true] at hok
    obtain ⟨-, hslot⟩ := List.mem_filter.mp hi
    cases harg : shape.fargs[i]? with
    | none => simp [harg] at hslot
    | some arg =>
      simp only [harg, Option.any_some, Bool.and_eq_true, decide_eq_true_eq] at hslot
      exact ⟨hok.1.1, arg, rfl, hslot.1.2, hslot.2⟩
  next => cases hi

theorem sanitizer_of_mem_wrapperSlots {f : FuncNode} {shape : WrapperShape} {decorated : List String} {i : ℕ}
    (hshape : wrapperShape f = some shape) (hi : i ∈ wrapperSlots shape decorated) :
    ∃ w c, f.wrapper = some w ∧ f.seenCall w = some c ∧
      ∃ pos func args keywords, c.args[i]? = some (.call pos func args keywords) ∧
        calleeTail func ∈ knownSanitizers := by
  obtain ⟨hok, arg, harg, hcall, htail⟩ := mem_wrapperSlots hi
  obtain ⟨w, c, hw, hc, hfargs⟩ := wrapperShape_ok hshape hok
  rw [hfargs, List.getElem?_map] at harg
  obtain ⟨e, he, rfl⟩ := Option.map_eq_some_iff.mp harg
  refine ⟨w, c, hw, hc, ?_⟩
  cases e with
  | call pos func args keywords => exact ⟨pos, func, args, keywords, he, htail⟩
  | _ => cases hcall

/-- **A reported slot is neutralised** exactly when what the shape leaves out is in order. -/
theorem neutralises_iff {f : FuncNode} {shape : WrapperShape} {decorated : List String} {i : ℕ}
    (hshape : wrapperShape f = some shape) (hi : i ∈ wrapperSlots shape decorated) :
    Neutralises f i ↔ HoldsUnseen f i := by
  obtain ⟨w, seen, hw, hseen, hsanitizer⟩ := sanitizer_of_mem_wrapperSlots hshape hi
  constructor
  · rintro ⟨w', param, hw', hparam, hreturns, hcalls⟩
    exact ⟨w', param, hw', hparam, hreturns, fun c hc => ⟨fun _ => (hcalls c hc).1, fun _ => hcalls c hc⟩⟩
  · rintro ⟨w', param, hw', hparam, hreturns, hcalls⟩
    obtain rfl : w = w' := Option.some.inj (hw.symm.trans hw')
    refine ⟨w, param, hw, hparam, hreturns, fun c hc => ?_⟩
    by_cases hfirst : f.seenCall w = some c
    · obtain rfl : seen = c := Option.some.inj (hseen.symm.trans hfirst)
      exact ⟨(hcalls seen hc).1 hfirst, hsanitizer⟩
    · exact (hcalls c hc).2 hfirst

namespace SecondCall

def x : Expr := .name {} "x" .load

def callFunc (argument : Expr) : Expr := .call {} (.name {} "func" .load) [argument] []

/-- The wrapper calls `func(int(x))` and returns `func(x)`. -/
def rawWrapper : FuncNode where
  pos := {}
  name := "wrapper"
  args := { args := [{ arg := "x" }] }
  body :=
    [.expr {} (callFunc (.call {} (.name {} "int" .load) [x] [])), .ret {} (some (callFunc x))]
  decorators := []
  returns := none
  isAsync := false

def validated : FuncNode where
  pos := {}
  name := "validated"
  args := { args := [{ arg := "func" }] }
  body :=
    [.functionDef rawWrapper.pos rawWrapper.isAsync rawWrapper.name rawWrapper.args rawWrapper.body
        rawWrapper.decorators rawWrapper.returns,
      .ret {} (some (.name {} "wrapper" .load))]
  decorators := []
  returns := none
  isAsync := false

def shape : WrapperShape := ⟨true, ["x"], [⟨["x"], true, "int"⟩]⟩

theorem wrapperShape_validated : wrapperShape validated = some shape := by decide

theorem reported : 0 ∈ wrapperSlots shape ["record"] := by decide

theorem neutralises_iff_validated : Neutralises validated 0 ↔ HoldsUnseen validated 0 :=
  neutralises_iff wrapperShape_validated reported

end SecondCall

open SecondCall in
/-- The slot is reported, and the second call passes the argument as it came. -/
theorem raw_argument_behind_validator :
    ¬∀ shape decorated i, wrapperShape validated = some shape → i ∈ wrapperSlots shape decorated →
      Neutralises validated i := by
  intro h
  obtain ⟨w, param, hw, hparam, -, hcalls⟩ := h shape ["record"] 0 wrapperShape_validated reported
  obtain rfl : rawWrapper = w := Option.some.inj hw
  have hraw : ⟨1, .name {} "func" .load, [x], []⟩ ∈ validated.wrappedCalls rawWrapper := by
    have hall : callsIn rawWrapper.node =
        [⟨1, .name {} "func" .load, [.call {} (.name {} "int" .load) [x] []], []⟩,
          ⟨1, .name {} "func" .load, [x], []⟩, ⟨1, .name {} "int" .load, [x], []⟩] := rfl
    rw [FuncNode.wrappedCalls, hall]
    exact List.mem_filter.mpr ⟨by simp, by decide⟩
  obtain ⟨-, pos, func, args, keywords, harg, -⟩ := hcalls _ hraw
  cases harg

end TimeCodeSecurity.CrossFile
