import TimeCodeSecurity.Foundations.Tables

/-! # The global symbol index

`symbol_indexer.py`, the resolver: what each module defines and imports, and the definition a name
used in a module refers to. The index is taken as `build` leaves it.
-/
namespace TimeCodeSecurity.CrossFile
set_option autoImplicit false

inductive SymbolKind
  | function | asyncFunction | classKind | method
deriving DecidableEq, Repr

structure SymbolDefinition where
  name : String
  kind : SymbolKind
  filePath : String
deriving DecidableEq, Repr

/-- `importedName` is empty for `import a.b`. -/
structure ImportBinding where
  sourceModule : String
  importedName : String
deriving DecidableEq, Repr

structure ModuleIndex where
  filePath : String
  definitions : Dict SymbolDefinition := ∅
  imports : Dict ImportBinding := ∅
  starImports : List String := []

structure GlobalSymbolIndex where
  modules : Dict ModuleIndex
  fileToModule : String → Option String

variable (index : GlobalSymbolIndex)

def properSuffixes (modName : String) : List (List Char) :=
  ((modName.toList.splitOn '.').tails.tail.filter (· ≠ [])).map fun parts =>
    List.intercalate ['.'] parts

def matchRegisteredModule (candidate : String) : Option String :=
  if (index.modules.lookup candidate).isSome then some candidate
  else index.modules.keys.find? fun m => candidate.toList ∈ properSuffixes m

/-- The definition of `name` in the module a reference to `moduleName` is matched with. -/
def definitionIn (moduleName name : String) : Option SymbolDefinition :=
  (matchRegisteredModule index moduleName).bind fun m =>
    if m = "" then none
    else (index.modules.lookup m).bind fun idx => idx.definitions.lookup name

def orName (name fallback : String) : String := if name = "" then fallback else name

def resolveSymbol (callerMod symbolName : String) : Option SymbolDefinition :=
  (index.modules.lookup callerMod).bind fun idx =>
    (idx.definitions.lookup symbolName).or <|
      ((idx.imports.lookup symbolName).bind fun b =>
        definitionIn index b.sourceModule (orName b.importedName symbolName)).or <|
      idx.starImports.findSome? fun star => definitionIn index star symbolName

/-- The module a bare name stands for when `import x [as name]` bound it. -/
def importedModuleOf (name callerMod : String) : Option String :=
  (index.modules.lookup callerMod).bind fun idx =>
    (idx.imports.lookup name).bind fun b =>
      if b.importedName = "" then matchRegisteredModule index b.sourceModule else none

/-- A class by its name and the module that defines it. -/
abbrev ClassRef := String × String

def classOfName (name callerMod : String) : Option ClassRef :=
  (resolveSymbol index callerMod name).bind fun d =>
    if d.kind = .classKind then (index.fileToModule d.filePath).map fun m => (d.name, m) else none

end TimeCodeSecurity.CrossFile

/-! ## The symbol table and the contracts

`cross_file_engine.py`, the row the engine keeps of each module, and `function_summarizer.py`, the
taint contract of each function.
-/
namespace TimeCodeSecurity.CrossFile

inductive FuncKind
  | other | name | attr
deriving DecidableEq, Repr

/-- How the receiver of an attribute call is spelled: a bare name, `ClassName(...)`, an attribute
chain, or anything else. -/
inductive RecvKind
  | other | name | ctor | attr
deriving DecidableEq, Repr

/-- What resolution reads of a call. An argument is its bare name, or `none`. -/
structure CallShape where
  fkind : FuncKind := .other
  fname : String := ""
  rkind : RecvKind := .other
  rname : String := ""
  rbase : String := ""
  rbaseBare : Bool := false
  argn : List (Option String) := []
  kwn : List (String × Option String) := []
deriving DecidableEq, Repr

def RecvKind.code : RecvKind → ℕ
  | .other => 0
  | .name => 1
  | .ctor => 2
  | .attr => 3

structure DecoFacts where
  label : Option String := none
  isCall : Bool := false
  bare : Option String := none
  arg0kind : ℕ := 2
  arg0name : String := ""
  arg0base : String := ""
  arg0bare : Bool := false
deriving DecidableEq, Repr

structure ForwardedArg where
  used : List String
  isCall : Bool
  tail : String
deriving DecidableEq, Repr

structure WrapperShape where
  ok : Bool := false
  wparams : List String := []
  fargs : List ForwardedArg := []
deriving DecidableEq, Repr

structure FuncFacts where
  recv : List (List String × String) := []
  calls : List (ℕ × CallShape) := []
  decos : List DecoFacts := []
  wrapper : Option WrapperShape := none
deriving DecidableEq, Repr

abbrev SinkLines := DictOf ℕ (String × Dict String)

/-- `bases` lists the spelling of each base class, `none` for one without a name. -/
structure ModuleFacts where
  funcs : Dict FuncFacts := ∅
  bases : Dict (List (Option String)) := ∅
  signals : List String := []
  sinkLines : SinkLines := ∅

structure ParamSinkEdge where
  paramIdx : ℕ
  paramName : String
  sinkCwe : String
  sinkName : String
  lineno : ℕ
deriving DecidableEq, Repr

structure FunctionSummary where
  filePath : String
  params : List String := []
  taintedReturns : List ℕ := []
  paramSinks : List ParamSinkEdge := []
  isSanitizer : Bool := false
  takesReceiver : Bool := false
deriving DecidableEq, Repr

/-- A contract is known by the module and the qualified name of its function. -/
abbrev FuncKey := String × String

def knownSanitizers : List String :=
  ["int", "float", "bool", "len", "escape", "quote", "sha256", "md5"]

/-- What the engine holds once all modules are indexed. Every row has its contract; a contract may be
left without a row, when a second file of the same module name replaced it. -/
structure Project where
  index : GlobalSymbolIndex
  facts : Dict ModuleFacts
  contracts : DictOf FuncKey FunctionSummary
  contracted : ∀ m row q f, facts.lookup m = some row → row.funcs.lookup q = some f →
    (contracts.lookup (m, q)).isSome

theorem contracted_of_items {facts : Dict ModuleFacts} {contracts : DictOf FuncKey FunctionSummary}
    (h : ∀ row ∈ facts.items, ∀ fn ∈ row.2.funcs.items,
      (contracts.lookup (row.1, fn.1)).isSome = true) (m : String) (row : ModuleFacts) (q : String)
    (f : FuncFacts) (hm : facts.lookup m = some row) (hq : row.funcs.lookup q = some f) :
    (contracts.lookup (m, q)).isSome = true :=
  h (m, row) (DictOf.mem_items_iff.mpr hm) (q, f) (DictOf.mem_items_iff.mpr hq)

variable (P : Project)

def Project.funcFacts (key : FuncKey) : Option FuncFacts :=
  (P.facts.lookup key.1).bind fun row => row.funcs.lookup key.2

def Project.params (key : FuncKey) : List String :=
  ((P.contracts.lookup key).map FunctionSummary.params).getD []

def Project.takesReceiver (key : FuncKey) : Bool :=
  ((P.contracts.lookup key).map FunctionSummary.takesReceiver).getD false

def Project.filePath (key : FuncKey) : String :=
  ((P.contracts.lookup key).map FunctionSummary.filePath).getD ""

def Project.ownSinks (key : FuncKey) : List ParamSinkEdge :=
  ((P.contracts.lookup key).map FunctionSummary.paramSinks).getD []

end TimeCodeSecurity.CrossFile
