import TimeCodeSecurity.Foundations.StackWalk
import TimeCodeSecurity.Foundations.Pep440

/-! # Dependency groups

`manifest_parser.py`: the records of a manifest, one requirement, and the expansion of the dependency
groups of a `pyproject.toml`. The `packaging` library is a parameter, and so is the text Python shows of a
TOML value.
-/
namespace TimeCodeSecurity.Sca.Manifest
open StackWalk
set_option autoImplicit false

structure DependencyRecord where
  name : String
  version : Option String := none
  versionSpecifier : Option String := none
  source : String := ""
  pinned : Bool := false
  environmentMarker : Option String := none
  extras : List String := []
  editable : Bool := false
  group : Option String := none
  raw : String := ""
  lineNumber : Option ℕ := none
deriving DecidableEq, Repr

structure ParseIssue where
  message : String
  lineNumber : Option ℕ := none
  raw : String := ""
  issueType : String := "malformed"
deriving DecidableEq, Repr

structure ManifestParseResult where
  sourceType : String
  sourcePath : Option String := none
  dependencies : List DependencyRecord := []
  issues : List ParseIssue := []
  ignoredDirectives : List String := []
deriving DecidableEq, Repr

structure Specifier where
  operator : String
  version : String
deriving DecidableEq, Repr

/-- `packaging.requirements.Requirement`; an empty set of specifiers and no marker count as none. -/
structure PackagingRequirement where
  name : String
  extras : List String := []
  specifiers : List Specifier := []
  specifierText : String := ""
  marker : Option String := none
deriving DecidableEq, Repr

/-- `requirement` fails with the text of the exception. -/
structure Packaging where
  requirement : String → Except String PackagingRequirement
  canonicalizeName : String → String

def stripText (s : String) : String := String.ofList (Pep440.strip s.toList)

def stripInlineComment (line : String) : String :=
  if line.toList.tails.any "#egg=".toList.isPrefixOf then stripText line
  else stripText (String.ofList (line.toList.takeWhile (· ≠ '#')))

variable (P : Packaging)

def Packaging.normalizePackageName (name : String) : String :=
  if name = "" then "" else P.canonicalizeName name

def PackagingRequirement.pinnedVersion (req : PackagingRequirement) : Option String :=
  match req.specifiers with
  | [s] =>
    if (s.operator = "==" ∨ s.operator = "===") ∧ ".*".toList.isSuffixOf s.version.toList = false ∧
        '*' ∉ s.version.toList then
      some s.version
    else none
  | _ => none

def parsePep508Requirement (cleanLine filename rawLine : String) (group : Option String)
    (lineNumber : Option ℕ) : Except ParseIssue DependencyRecord :=
  match P.requirement cleanLine with
  | .error pe =>
    .error { message := "Malformed requirement: " ++ pe, lineNumber, raw := rawLine }
  | .ok req =>
    .ok
      { name := P.normalizePackageName req.name
        version := req.pinnedVersion
        versionSpecifier := if req.specifiers = [] then none else some req.specifierText
        source := filename
        pinned := req.pinnedVersion.isSome
        environmentMarker := req.marker
        extras := (req.extras.map P.canonicalizeName).mergeSort
        group
        raw := rawLine
        lineNumber }

/-! ## The table -/

/-- A TOML value; numbers, booleans and dates are of no further use. -/
inductive Toml
  | string (s : String)
  | list (items : List Toml)
  | table (fields : List (String × Toml))
  | scalar (text : String)

variable (shown : Toml → String)

def firstHundred (s : String) : String := String.ofList (s.toList.take 100)

/-- `normalized_names`, `group_items_map` and the issues, while the groups are collected. -/
structure GroupTables where
  names : List (String × String) := []
  items : List (String × List Toml) := []
  issues : List ParseIssue := []

def collectGroup (g : GroupTables) (entry : String × Toml) : GroupTables :=
  let rawName := entry.1
  if stripText rawName = "" then
    { g with issues := g.issues ++ [
        { message := "dependency-groups key must be a non-empty string: " ++ rawName
          raw := rawName }] }
  else
    let normName := P.normalizePackageName rawName
    match g.names.lookup normName with
    | some firstRaw =>
      { g with issues := g.issues ++ [
          { message := "Duplicate or colliding dependency-group name after normalization: '" ++ rawName ++
              "' collides with '" ++ firstRaw ++ "'"
            raw := rawName }] }
    | none =>
      let g := { g with names := g.names ++ [(normName, rawName)] }
      match entry.2 with
      | .list items => { g with items := g.items ++ [(normName, items)] }
      | other =>
        { g with issues := g.issues ++ [
            { message := "dependency-groups." ++ rawName ++ " must be a list"
              raw := firstHundred (shown other) }] }

def collectGroups (fields : List (String × Toml)) : GroupTables :=
  fields.foldl (collectGroup P shown) {}

abbrev GroupItem := (String × String) ⊕ String

def includeTarget (rawGroup : String) (fields : List (String × Toml)) : Except ParseIssue String :=
  let item := Toml.table fields
  match fields.lookup "include-group" with
  | none =>
    .error
      { message := "Dictionary in dependency-groups." ++ rawGroup ++ " missing 'include-group' key: " ++
          shown item
        raw := shown item }
  | some target =>
    if 1 < fields.length then
      .error
        { message := "include-group table in dependency-groups." ++ rawGroup ++
            " contains unexpected keys (only 'include-group' is allowed): " ++ shown item
          raw := shown item }
    else
      match target with
      | .string name =>
        if stripText name = "" then
          .error
            { message := "include-group target in dependency-groups." ++ rawGroup ++
                " must be a non-empty string: " ++ name
              raw := shown item }
        else .ok name
      | other =>
        .error
          { message := "include-group target in dependency-groups." ++ rawGroup ++
              " must be a non-empty string: " ++ shown other
            raw := shown item }

def parseItem (rawGroup : String) : Toml → Except ParseIssue (Option GroupItem)
  | .string s => .ok (if stripInlineComment s = "" then none else some (.inl (stripInlineComment s, s)))
  | .table fields =>
    (includeTarget shown rawGroup fields).map fun name => some (.inr (P.normalizePackageName name))
  | item =>
    .error
      { message := "Item in dependency-groups." ++ rawGroup ++
          " must be a string or include-group table: " ++ shown item
        raw := shown item }

namespace GroupTables

variable (g : GroupTables)

def rawName (normName : String) : String := (g.names.lookup normName).getD normName

def parsedItems (normName : String) (items : List Toml) : List GroupItem :=
  items.filterMap fun item =>
    match parseItem P shown (g.rawName normName) item with
    | .ok parsed => parsed
    | .error _ => none

def itemIssues : List ParseIssue :=
  g.items.flatMap fun entry => entry.2.filterMap fun item =>
    match parseItem P shown (g.rawName entry.1) item with
    | .ok _ => none
    | .error issue => some issue

def body (normName : String) : Option (List GroupItem) :=
  (g.items.lookup normName).map (g.parsedItems P shown normName)

def circularText (stack : List String) (a : String) : String :=
  String.intercalate " -> " ((stack ++ [a]).map g.rawName)

def eventIssue : Event String (String × String) → Option ParseIssue
  | .leaf _ => none
  | .circular stack a =>
    some
      { message := "Circular dependency-group include detected: " ++ g.circularText stack a
        raw := g.circularText stack a }
  | .missing a =>
    some
      { message := "Included dependency group '" ++ a ++ "' not found in dependency-groups"
        raw := a }

end GroupTables

/-- `resolved_reqs`. -/
def eventRequirement : Event String (String × String) → Option (String × String)
  | .leaf req => some req
  | _ => none

def ManifestParseResult.addRequirement (filename : String) (group : Option String)
    (result : ManifestParseResult) (req : String × String) : ManifestParseResult :=
  match parsePep508Requirement P req.1 filename req.2 group none with
  | .ok record => { result with dependencies := result.dependencies ++ [record] }
  | .error issue => { result with issues := result.issues ++ [issue] }

/-- What one root group adds: the reports of its walk, then its requirements. -/
def addRoot (g : GroupTables) (filename : String) (result : ManifestParseResult) (root : String)
    (events : List (Event String (String × String))) : ManifestParseResult :=
  (events.filterMap eventRequirement).foldl
    (ManifestParseResult.addRequirement P filename (some (g.rawName root)))
    { result with issues := result.issues ++ events.filterMap g.eventIssue }

/-- `none` is a recursion deeper than the fuel. -/
def parsePep735DependencyGroups (fuel : ℕ) (depGroups : Toml) (filename : String)
    (result : ManifestParseResult) : Option ManifestParseResult :=
  match depGroups with
  | .table fields =>
    let g := collectGroups P shown fields
    (g.items.map Prod.fst).foldlM
      (fun result root => (walk (g.body P shown) fuel [] root).map (addRoot P g filename result root))
      { result with issues := result.issues ++ (g.issues ++ g.itemIssues P shown) }
  | other =>
    some { result with issues := result.issues ++ [
      { message := "dependency-groups must be a table", raw := firstHundred (shown other) }] }

def ParseIssue.isCircular (issue : ParseIssue) : Prop :=
  "Circular dependency-group include detected: ".toList <+: issue.message.toList

def ParseIssue.isNotFound (issue : ParseIssue) : Prop :=
  "Included dependency group '".toList <+: issue.message.toList

section
variable {P shown} {g : GroupTables} {events : List (Event String (String × String))}

theorem exists_circular_issue :
    (∃ issue ∈ events.filterMap g.eventIssue, issue.isCircular) ↔ ∃ s a, .circular s a ∈ events := by
  simp only [List.mem_filterMap]
  constructor
  · rintro ⟨issue, ⟨event, hevent, hissue⟩, hkind⟩
    cases event with
    | leaf x => cases hissue
    | circular s a => exact ⟨s, a, hevent⟩
    | missing a =>
      obtain rfl := Option.some.inj hissue
      simp [ParseIssue.isCircular, String.toList_append] at hkind
  · rintro ⟨s, a, hevent⟩
    refine ⟨_, ⟨_, hevent, rfl⟩, ?_⟩
    rw [ParseIssue.isCircular, String.toList_append]
    exact List.prefix_append _ _

theorem exists_notFound_issue :
    (∃ issue ∈ events.filterMap g.eventIssue, issue.isNotFound) ↔ ∃ a, .missing a ∈ events := by
  simp only [List.mem_filterMap]
  constructor
  · rintro ⟨issue, ⟨event, hevent, hissue⟩, hkind⟩
    cases event with
    | leaf x => cases hissue
    | circular s a =>
      obtain rfl := Option.some.inj hissue
      simp [ParseIssue.isNotFound, String.toList_append] at hkind
    | missing a => exact ⟨a, hevent⟩
  · rintro ⟨a, hevent⟩
    refine ⟨_, ⟨_, hevent, rfl⟩, ?_⟩
    simp only [ParseIssue.isNotFound, String.toList_append, List.append_assoc]
    exact List.prefix_append _ _

theorem filterMap_eventRequirement (reqs : List (String × String)) :
    (reqs.map Event.leaf).filterMap eventRequirement = reqs := by
  rw [List.filterMap_map]
  exact List.filterMap_some

theorem exists_walk (g : GroupTables) (root : String) : ∃ events,
    ∀ fuel, g.items.length < fuel → walk (g.body P shown) fuel [] root = some events := by
  have hnodes : ∀ a, g.body P shown a ≠ none → a ∈ g.items.map Prod.fst := by
    intro a ha
    unfold GroupTables.body at ha
    cases hlookup : g.items.lookup a with
    | none =>
      rw [hlookup] at ha
      exact absurd rfl ha
    | some items =>
      obtain ⟨before, after, hitems, -⟩ := List.lookup_eq_some_iff.mp hlookup
      rw [hitems]
      simp
  have hsome : (walk (g.body P shown) (g.items.length + 1) [] root).isSome :=
    walk_isSome hnodes root List.nodup_nil (fun b hb => absurd hb List.not_mem_nil) (by simp)
  obtain ⟨events, hevents⟩ := Option.isSome_iff_exists.mp hsome
  exact ⟨events, fun fuel hfuel => walk_of_le hevents hfuel⟩

end

/-- What holds of the walk from one group. -/
structure ResolvedGroup (g : GroupTables) (root : String)
    (events : List (Event String (String × String))) : Prop where
  expansion : ¬LoopsFrom (g.body P shown) root → ¬MissesFrom (g.body P shown) root →
    events.filterMap g.eventIssue = [] ∧
      ∃ items, g.body P shown root = some items ∧
        ∀ reqs, Expands (g.body P shown) items reqs ↔ events.filterMap eventRequirement = reqs
  circular : (∃ issue ∈ events.filterMap g.eventIssue, issue.isCircular) ↔ LoopsFrom (g.body P shown) root
  notFound : (∃ issue ∈ events.filterMap g.eventIssue, issue.isNotFound) ↔
    MissesFrom (g.body P shown) root

theorem resolvedGroup_of_walk {g : GroupTables} {root : String} {fuel : ℕ}
    {events : List (Event String (String × String))}
    (h : walk (g.body P shown) fuel [] root = some events) : ResolvedGroup P shown g root events where
  expansion := by
    intro hloops hmisses
    have hcirc := mt (circular_iff_loopsFrom h).mp hloops
    have hmiss := mt (missing_iff_missesFrom h).mp hmisses
    obtain ⟨items, reqs, hbody, hreqs, rfl⟩ :=
      expands_of_quiet h (fun s b hb => hcirc ⟨s, b, hb⟩) fun m hm => hmiss ⟨m, hm⟩
    refine ⟨?_, items, hbody, fun reqs' => ?_⟩
    · rw [List.filterMap_map, List.filterMap_eq_nil_iff]
      exact fun _ _ => rfl
    · rw [filterMap_eventRequirement]
      exact ⟨fun h' => hreqs.unique h', fun h' => h' ▸ hreqs⟩
  circular := exists_circular_issue.trans (circular_iff_loopsFrom h)
  notFound := exists_notFound_issue.trans (missing_iff_missesFrom h)

/-- **Dependency groups.** With fuel above the number of groups, which bounds the depth of the recursion,
there is a result; it is put together from one walk for each group, and every walk is exact. -/
theorem dependencyGroups_exact (fields : List (String × Toml)) (filename : String)
    (result : ManifestParseResult) :
    let g := collectGroups P shown fields
    ∃ events : String → List (Event String (String × String)),
      (∀ fuel, g.items.length < fuel →
        parsePep735DependencyGroups P shown fuel (.table fields) filename result =
          some ((g.items.map Prod.fst).foldl
            (fun result root => addRoot P g filename result root (events root))
            { result with issues := result.issues ++ (g.issues ++ g.itemIssues P shown) })) ∧
      ∀ root, ResolvedGroup P shown g root (events root) := by
  intro g
  choose events hevents using fun root => @exists_walk P shown g root
  refine ⟨events, fun fuel hfuel => ?_, fun root =>
    resolvedGroup_of_walk P shown (hevents root _ (Nat.lt_succ_self _))⟩
  show (g.items.map Prod.fst).foldlM _ _ = _
  generalize hstart : ({ result with issues := result.issues ++ (g.issues ++ g.itemIssues P shown) } :
    ManifestParseResult) = start
  clear hstart
  induction g.items.map Prod.fst generalizing start with
  | nil => rfl
  | cons root roots ih =>
    rw [List.foldlM_cons, hevents root fuel hfuel]
    exact ih _

end TimeCodeSecurity.Sca.Manifest
