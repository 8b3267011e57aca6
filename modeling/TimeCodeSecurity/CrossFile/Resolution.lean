import TimeCodeSecurity.CrossFile.Index
import TimeCodeSecurity.Foundations.Linearization

/-! # Resolving call sites

`cross_file_engine.py`, the part that finds the contract behind a call: receivers bound in the
function, inherited methods, imported modules, and the binding of arguments to parameters. Everything
here reads the index and the rows only; the sinks of a contract play no part.
-/
namespace TimeCodeSecurity.CrossFile
set_option autoImplicit false

variable (P : Project)

/-- The names bound to an instance, with the class of each. -/
abbrev Receivers := Dict ClassRef

/-- The base classes that resolve to an indexed class, in source order. -/
def baseClasses (c : ClassRef) : List ClassRef :=
  (((P.facts.lookup c.2).bind fun row => row.bases.lookup c.1).getD []).filterMap fun spelling =>
    spelling.bind fun name => classOfName P.index name c.2

def Project.baseCount : ℕ :=
  (P.facts.items.map fun row => (row.2.bases.items.map fun b => b.2.length).sum).sum

/-- Breadth-first over the base classes; `fuel` bounds the classes popped. -/
def searchInherited (attr : String) : ℕ → List ClassRef → List ClassRef → Option FuncKey
  | 0, _, _ => none
  | _, [], _ => none
  | fuel + 1, c :: pending, seen =>
    if c ∈ seen then searchInherited attr fuel pending seen
    else
      let key : FuncKey := (c.2, c.1 ++ "." ++ attr)
      if (P.contracts.lookup key).isSome then some key
      else
        let seen := c :: seen
        searchInherited attr fuel (pending ++ (baseClasses P c).filter (· ∉ seen)) seen

def resolveInheritedMethod (c : ClassRef) (attr : String) : Option FuncKey :=
  searchInherited P attr (P.baseCount + 1) [c] []

def owningClass (callerFunc : String) : Option String :=
  if '.' ∈ callerFunc.toList then
    some (String.ofList (callerFunc.toList.takeWhile (· ≠ '.')))
  else none

def initialBindings (callerMod callerFunc : String) : Receivers :=
  match owningClass callerFunc with
  | some cls => ((∅ : Receivers).insert "self" (cls, callerMod)).insert "cls" (cls, callerMod)
  | none => ∅

/-- `targets = ctor(...)`. -/
def bindTargets (callerMod : String) (bindings : Receivers) (recv : List String × String) :
    Receivers :=
  match classOfName P.index recv.2 callerMod with
  | some ref => recv.1.foldl (fun b target => b.insert target ref) bindings
  | none => bindings

def factReceivers (callerMod callerFunc : String) (func : FuncFacts) : Receivers :=
  func.recv.foldl (bindTargets P callerMod) (initialBindings callerMod callerFunc)

def receiverClass (receivers : Receivers) (name callerMod : String) : Option ClassRef :=
  (receivers.lookup name).or (classOfName P.index name callerMod)

def resolveSiteMethod (callerMod : String) (site : CallShape) (receivers : Receivers) :
    Option FuncKey :=
  (match site.rkind with
    | .name => receiverClass P receivers site.rname callerMod
    | .ctor => classOfName P.index site.rname callerMod
    | _ => none).bind fun ref => resolveInheritedMethod P ref site.fname

def Project.contractKey (key : FuncKey) : Option FuncKey :=
  if (P.contracts.lookup key).isSome then some key else none

def resolveModuleAttribute (callerMod receiver attr : String) : Option FuncKey :=
  (importedModuleOf P.index receiver callerMod).bind fun m => P.contractKey (m, attr)

def resolveSiteModuleAttribute (callerMod : String) (site : CallShape) : Option FuncKey :=
  if site.rkind = .name then resolveModuleAttribute P callerMod site.rname site.fname else none

def resolveNamedContract (callerMod callName : String) : Option FuncKey :=
  (resolveSymbol P.index callerMod callName).bind fun d =>
    (P.index.fileToModule d.filePath).bind fun m =>
      if m = "" then none else P.contractKey (m, d.name)

def resolveSiteContract (callerMod : String) (site : CallShape) (receivers : Receivers) :
    Option FuncKey :=
  match site.fkind with
  | .name => resolveNamedContract P callerMod site.fname
  | .attr =>
    (resolveSiteMethod P callerMod site receivers).or <|
      (resolveSiteModuleAttribute P callerMod site).or <|
      resolveNamedContract P callerMod site.fname
  | .other => none

/-- The slot `<container>[<keyword>]` of a `**kwargs` parameter. -/
def kwargSlotIndex (paramNames : List String) (keyword : String) : Option ℕ :=
  paramNames.findIdx? fun name => ("[" ++ keyword ++ "]").toList.isSuffixOf name.toList

/-- `{name: idx for idx, name in enumerate(param_names)}`: of equal names the last one counts. -/
def paramToIdx (paramNames : List String) (name : String) : Option ℕ :=
  (List.range paramNames.length).reverse.find? fun i => paramNames[i]? = some name

def keywordSlot (paramNames : List String) (keyword : String) : Option ℕ :=
  (paramToIdx paramNames keyword).or (kwargSlotIndex paramNames keyword)

def bindArgs {α : Type} (args : List α) (keywords : List (String × α)) (paramNames : List String)
    (offset : ℕ) : List (Option α) :=
  keywords.foldl
    (fun bound kw =>
      match keywordSlot paramNames kw.1 with
      | some i => bound.set i (some kw.2)
      | none => bound)
    ((List.range paramNames.length).map fun i => args[i + offset]?)

def bindSiteArgs (site : CallShape) (paramNames : List String) (offset : ℕ) :
    List (Option (Option String)) :=
  bindArgs site.argn site.kwn paramNames offset

def unboundOffset (callerMod receiver attr : String) (callee : FuncKey) (receivers : Receivers) : ℕ :=
  if (receivers.lookup receiver).isSome then 0
  else
    match (classOfName P.index receiver callerMod).bind fun ref =>
        resolveInheritedMethod P ref attr with
    | some key => if key = callee then 1 else 0
    | none => 0

def receiverOffsetSite (callerMod : String) (site : CallShape) (callee : FuncKey)
    (receivers : Receivers) : ℕ :=
  if P.takesReceiver callee = true ∧ site.fkind = .attr ∧ site.rkind = .name then
    unboundOffset P callerMod site.rname site.fname callee receivers
  else 0

/-- The slots a wrapper rebuilds through a sanitizer before it calls the wrapped function. -/
def wrapperSlots (shape : WrapperShape) (decoratedParams : List String) : List ℕ :=
  if shape.ok && shape.wparams.length = decoratedParams.length &&
      shape.fargs.length = decoratedParams.length then
    (List.range shape.fargs.length).filter fun i =>
      (shape.fargs[i]?).any fun arg =>
        arg.used.all (fun name => some name = shape.wparams[i]?) && arg.isCall &&
          arg.tail ∈ knownSanitizers
  else []

def decoratorSlots (callee : FuncKey) (deco : DecoFacts) : List ℕ :=
  match deco.bare.bind (resolveSymbol P.index callee.1) with
  | some d =>
    if d.kind = .function ∨ d.kind = .asyncFunction then
      match (P.index.fileToModule d.filePath).bind fun m =>
          (P.funcFacts (m, d.name)).bind FuncFacts.wrapper with
      | some shape => wrapperSlots shape (P.params callee)
      | none => []
    else []
  | none => []

def decoratorSanitizedParams (callee : FuncKey) : List ℕ :=
  match P.funcFacts callee with
  | some func => if P.params callee = [] then [] else func.decos.flatMap (decoratorSlots P callee)
  | none => []

end TimeCodeSecurity.CrossFile

/-! ## Inherited methods

`_resolve_inherited_method` searches the base classes by levels; Python looks through the classes in the method
resolution order.
-/
namespace TimeCodeSecurity.CrossFile
open LevelSearch Linearization

variable (P : Project) (attr : String)

def methodKey (c : ClassRef) : FuncKey := (c.2, c.1 ++ "." ++ attr)

/-- The class has a contract for the attribute. -/
def declares (c : ClassRef) : Bool := (P.contracts.lookup (methodKey attr c)).isSome

theorem methodKey_injective : Function.Injective (methodKey attr) := by
  intro c d h
  obtain ⟨hmod, hname⟩ := Prod.mk.inj h
  have hcls : c.1 = d.1 := (String.append_left_inj _).mp ((String.append_left_inj _).mp hname)
  exact Prod.ext hcls hmod

theorem searchInherited_eq (fuel : ℕ) (pending seen : List ClassRef) :
    searchInherited P attr fuel pending seen =
      (search (declares P attr) (baseClasses P) fuel pending seen).map (methodKey attr) := by
  induction fuel generalizing pending seen with
  | zero => rfl
  | succ fuel ih =>
    cases pending with
    | nil => rfl
    | cons c pending =>
      rw [searchInherited, search]
      by_cases hseen : c ∈ seen
      · rw [if_pos hseen, if_pos hseen, ih]
      · rw [if_neg hseen, if_neg hseen]
        by_cases hdecl : declares P attr c = true
        · rw [if_pos hdecl]
          exact if_pos hdecl
        · have hpush := ih (pending ++ (baseClasses P c).filter (· ∉ c :: seen)) (c :: seen)
          rw [if_neg hdecl]
          refine (if_neg hdecl).trans ?_
          convert hpush

def Project.derived : List ClassRef :=
  P.facts.items.flatMap fun row => row.2.bases.items.map fun b => (b.1, row.1)

theorem mem_derived {c : ClassRef} (h : baseClasses P c ≠ []) : c ∈ P.derived := by
  cases hbases : (P.facts.lookup c.2).bind fun row => row.bases.lookup c.1 with
  | none =>
    rw [baseClasses, hbases] at h
    exact absurd rfl h
  | some bases =>
    obtain ⟨row, hrow, hlookup⟩ := Option.bind_eq_some_iff.mp hbases
    exact List.mem_flatMap.mpr ⟨(c.2, row), DictOf.mem_items_iff.mpr hrow,
      List.mem_map.mpr ⟨(c.1, bases), DictOf.mem_items_iff.mpr hlookup, rfl⟩⟩

theorem weight_derived_le : weight (baseClasses P) P.derived [] ≤ P.baseCount := by
  have hbases : ∀ row ∈ P.facts.items, ∀ b ∈ row.2.bases.items,
      (baseClasses P (b.1, row.1)).length ≤ b.2.length := by
    intro row hrow b hb
    have hlookup : (P.facts.lookup row.1).bind (fun r => r.bases.lookup b.1) = some b.2 :=
      Option.bind_eq_some_iff.mpr ⟨row.2, DictOf.mem_items_iff.mp hrow, DictOf.mem_items_iff.mp hb⟩
    rw [baseClasses, hlookup]
    exact List.length_filterMap_le _ _
  have hweight : weight (baseClasses P) P.derived [] =
      (P.derived.map fun c => (baseClasses P c).length).sum :=
    congrArg List.sum (List.map_congr_left fun c _ => if_neg List.not_mem_nil)
  rw [hweight, Project.derived, List.flatMap, List.map_flatten, List.sum_flatten, Project.baseCount, List.map_map,
    List.map_map]
  refine List.sum_le_sum fun row hrow => ?_
  rw [Function.comp_apply, Function.comp_apply, List.map_map]
  exact List.sum_le_sum fun b hb => hbases row hrow b hb

theorem exists_search (c : ClassRef) :
    ∃ found, Search (declares P attr) (baseClasses P) [c] [] found ∧
      resolveInheritedMethod P c attr = found.map (methodKey attr) := by
  refine ⟨search (declares P attr) (baseClasses P) (P.baseCount + 1) [c] [], ?_, searchInherited_eq P attr _ _ _⟩
  have hfuel : [c].length + weight (baseClasses P) P.derived [] ≤ P.baseCount + 1 := by
    have hweight := weight_derived_le P
    rw [List.length_singleton]
    omega
  exact search_spec _ _ (fun c => mem_derived P) hfuel

/-- The class that comes first in the order and declares the attribute is reached before all the others that do. -/
def FirstIsNearest (c : ClassRef) (order : List ClassRef) : Prop :=
  ∀ f, order.find? (declares P attr) = some f → ∀ e ∈ order, declares P attr e → e ≠ f →
    ReachedBefore (baseClasses P) [c] f e

/-- **Inherited methods resolve as in Python** exactly when the search by levels reaches the first class of the order
that declares the attribute before the others; it ends on every hierarchy. -/
theorem resolveInheritedMethod_eq_iff (c : ClassRef) :
    (∃ found, Search (declares P attr) (baseClasses P) [c] [] found ∧
        resolveInheritedMethod P c attr = found.map (methodKey attr)) ∧
      ∀ order, IsOrder (baseClasses P) c order →
        (resolveInheritedMethod P c attr = (order.find? (declares P attr)).map (methodKey attr) ↔
          FirstIsNearest P attr c order) := by
  refine ⟨exists_search P attr c, fun order horder => ?_⟩
  obtain ⟨fuel, horder⟩ := horder
  obtain ⟨found, hsearch, heq⟩ := exists_search P attr c
  rw [heq, (Option.map_injective (methodKey_injective attr)).eq_iff, FirstIsNearest]
  cases hfirst : order.find? (declares P attr) with
  | none =>
    refine iff_of_true (hsearch.eq_none_iff.mpr fun n e he => ?_) (by simp)
    exact List.find?_eq_none.mp hfirst e ((mem_c3_iff horder).mpr ⟨n, he⟩)
  | some f =>
    obtain ⟨n, hn⟩ := (mem_c3_iff horder).mp (List.mem_of_find?_eq_some hfirst)
    have hreached := firstAt_iff_reachedBefore (baseClasses P) hn (List.find?_some hfirst)
    rw [hsearch.eq_some_iff, hreached]
    constructor
    · rintro h g hg e he hdecl hne
      obtain rfl := Option.some.inj hg
      exact h e ((mem_c3_iff horder).mp he) hdecl hne
    · intro h e he hdecl hne
      exact h f rfl e ((mem_c3_iff horder).mpr he) hdecl hne

namespace TwoBranches

def classDefs : Dict SymbolDefinition :=
  ["Raw", "Safe", "Store", "Report"].foldl (fun d name => d.insert name ⟨name, .classKind, "store.py"⟩) ∅

/-- `class Safe(Raw)`, `class Report(Safe, Store)`; `Raw` and `Store` have a method `run`. -/
def project : Project where
  index :=
    { modules := (∅ : Dict ModuleIndex).insert "store" { filePath := "store.py", definitions := classDefs }
      fileToModule := fun path => if path = "store.py" then some "store" else none }
  facts := (∅ : Dict ModuleFacts).insert "store"
    { funcs := ((∅ : Dict FuncFacts).insert "Raw.run" {}).insert "Store.run" {}
      bases := ((∅ : Dict (List (Option String))).insert "Safe" [some "Raw"]).insert "Report"
        [some "Safe", some "Store"] }
  contracts := ((∅ : DictOf FuncKey FunctionSummary).insert ("store", "Raw.run") { filePath := "store.py" }).insert
    ("store", "Store.run") { filePath := "store.py" }
  contracted := contracted_of_items (by decide)

def report : ClassRef := ("Report", "store")

def order : List ClassRef := [report, ("Safe", "store"), ("Raw", "store"), ("Store", "store")]

theorem isOrder : IsOrder (baseClasses project) report order := ⟨3, by decide⟩

theorem resolveInheritedMethod_eq_iff_report :
    (∃ found, Search (declares project "run") (baseClasses project) [report] [] found ∧
        resolveInheritedMethod project report "run" = found.map (methodKey "run")) ∧
      (resolveInheritedMethod project report "run" =
          (order.find? (declares project "run")).map (methodKey "run") ↔
        FirstIsNearest project "run" report order) :=
  ⟨(resolveInheritedMethod_eq_iff project "run" report).1,
    (resolveInheritedMethod_eq_iff project "run" report).2 order isOrder⟩

end TwoBranches

open TwoBranches in
/-- Python runs the method of `Raw`; the search takes that of `Store`, which is one level nearer. -/
theorem nearer_branch_wins :
    ¬∀ order, IsOrder (baseClasses project) report order →
      resolveInheritedMethod project report "run" =
        (order.find? (declares project "run")).map (methodKey "run") := by
  intro h
  have hfirst : (order.find? (declares project "run")).map (methodKey "run") = some ("store", "Raw.run") := by decide
  have hfound : resolveInheritedMethod project report "run" = some ("store", "Store.run") := by decide
  have heq := h order isOrder
  rw [hfirst, hfound] at heq
  exact absurd heq (by decide)

end TimeCodeSecurity.CrossFile
