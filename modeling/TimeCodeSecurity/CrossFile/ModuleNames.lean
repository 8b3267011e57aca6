import TimeCodeSecurity.Foundations.Separators
import TimeCodeSecurity.CrossFile.Index
import Mathlib.Algebra.GroupWithZero.Nat

/-! # Module names

`symbol_indexer.py`: the dotted name of a source file, the module a relative import stands for, and the
index of dotted suffixes that replaced a scan over the registered modules.
-/
namespace TimeCodeSecurity.CrossFile
set_option autoImplicit false

/-- A source file below the root: its folders, and the name of the file without its suffix. -/
structure SourceFile where
  folders : List String
  stem : String
deriving DecidableEq, Repr

def SourceFile.isPackage (f : SourceFile) : Bool := f.stem = "__init__"

/-- `".".join(parts)`. -/
def joinDots (parts : List (List Char)) : String := String.ofList (List.intercalate ['.'] parts)

/-- `name.split(".")`. -/
def splitDots (name : String) : List (List Char) := name.toList.splitOn '.'

def fileToModname (f : SourceFile) : String :=
  joinDots ((if f.isPackage then f.folders else f.folders ++ [f.stem]).map String.toList)

/-! ## Relative imports -/

/-- The module part of a `from` import, when there is one; the empty text counts as none. -/
def modulePart (relModule : Option String) : List (List Char) :=
  if relModule.getD "" = "" then [] else [(relModule.getD "").toList]

def resolveFromModule (currentMod : String) (relModule : Option String) (level : ℕ) : String :=
  if level = 0 then relModule.getD ""
  else
    let parts := splitDots currentMod
    let base := if level ≤ parts.length then parts.take (parts.length - level) else []
    joinDots (base ++ modulePart relModule)

/-- `text.rsplit(".", n)`. -/
def rsplitDots (n : ℕ) (text : String) : List (List Char) :=
  let parts := splitDots text
  if parts.length ≤ n + 1 then parts
  else List.intercalate ['.'] (parts.take (parts.length - n)) :: parts.drop (parts.length - n)

/-- `__package__`: the module itself for a package, else what stands before the last dot. -/
def importPackage (f : SourceFile) : String :=
  if f.isPackage then fileToModname f else joinDots (splitDots (fileToModname f)).dropLast

/-- The name that the import system makes of a relative import of this level, which is at least 1;
`none` is an `ImportError`. -/
def importedName (package : String) (relModule : Option String) (level : ℕ) : Option String :=
  if package = "" then none
  else
    let bits := rsplitDots (level - 1) package
    if bits.length < level then none
    else some (joinDots (bits.headD [] :: modulePart relModule))

@[simp] theorem toList_joinDots (parts : List (List Char)) :
    (joinDots parts).toList = List.intercalate ['.'] parts := String.toList_ofList

theorem splitDots_ne_nil (name : String) : splitDots name ≠ [] := List.splitOn_ne_nil _ _

theorem splitDots_joinDots {parts : List (List Char)} (hne : parts ≠ []) (h : ∀ p ∈ parts, '.' ∉ p) :
    splitDots (joinDots parts) = parts := by
  rw [splitDots, toList_joinDots, List.splitOn_intercalate _ h hne]

theorem not_mem_of_mem_splitDots {name : String} : ∀ p ∈ splitDots name, '.' ∉ p :=
  fun _ => Separators.not_mem_of_mem_splitOn

theorem length_joinDots_add_one {parts : List (List Char)} (hne : parts ≠ []) :
    (joinDots parts).toList.length + 1 = (parts.map fun p => p.length + 1).sum := by
  rw [toList_joinDots]
  induction parts with
  | nil => exact absurd rfl hne
  | cons p parts ih =>
    cases parts with
    | nil => simp
    | cons q parts =>
      have htail := ih (List.cons_ne_nil q parts)
      rw [List.intercalate_cons_cons]
      simp only [List.length_append, List.length_singleton, List.map_cons, List.sum_cons] at htail ⊢
      omega

theorem joinDots_insert_ne {before after : List (List Char)} (h : before ++ after ≠ []) (c : List Char) :
    joinDots (before ++ c :: after) ≠ joinDots (before ++ after) := by
  intro heq
  have hlong := @length_joinDots_add_one (before ++ c :: after) (by simp)
  have hshort := length_joinDots_add_one h
  rw [heq] at hlong
  simp only [List.map_append, List.map_cons, List.sum_append, List.sum_cons] at hlong hshort
  omega

theorem joinDots_cons_joinDots {xs : List (List Char)} (hne : xs ≠ []) (ys : List (List Char)) :
    joinDots ((joinDots xs).toList :: ys) = joinDots (xs ++ ys) := by
  unfold joinDots
  rw [String.toList_ofList]
  congr 1
  induction xs with
  | nil => exact absurd rfl hne
  | cons x xs ih =>
    cases xs with
    | nil => simp
    | cons x' xs =>
      have htail := ih (List.cons_ne_nil x' xs)
      rw [List.cons_append, List.cons_append, List.intercalate_cons_cons, List.intercalate_cons_cons,
        ← List.cons_append, ← htail]
      cases ys with
      | nil => simp
      | cons y ys => simp [List.intercalate_cons_cons]

theorem importedName_eq (package : String) (relModule : Option String) (hops : ℕ) :
    importedName package relModule (hops + 1) =
      if package = "" ∨ (splitDots package).length ≤ hops then none
      else some (joinDots ((splitDots package).take ((splitDots package).length - hops) ++
        modulePart relModule)) := by
  have hpos : 0 < (splitDots package).length := List.length_pos_of_ne_nil (splitDots_ne_nil package)
  unfold importedName rsplitDots
  by_cases hempty : package = ""
  · simp [hempty]
  simp only [hempty, if_false, false_or, Nat.add_sub_cancel]
  by_cases hlen : (splitDots package).length ≤ hops + 1
  · simp only [hlen, if_true, Nat.lt_succ_iff]
    split_ifs with hbeyond
    · rfl
    · have hone : (splitDots package).length - hops = 1 := by omega
      obtain ⟨p, rest, hparts⟩ := List.exists_cons_of_ne_nil (splitDots_ne_nil package)
      rw [hone, hparts]
      rfl
  · have hfew : ¬ (splitDots package).length ≤ hops := by omega
    have hrest : ((splitDots package).drop ((splitDots package).length - hops)).length = hops := by
      rw [List.length_drop]
      omega
    have htake : (splitDots package).take ((splitDots package).length - hops) ≠ [] := by
      apply List.ne_nil_of_length_pos
      rw [List.length_take]
      omega
    simp only [hlen, hfew, if_false, List.length_cons, hrest, Nat.lt_irrefl, List.headD_cons]
    rw [← toList_joinDots, joinDots_cons_joinDots htake]

theorem resolveFromModule_succ (currentMod : String) (relModule : Option String) (hops : ℕ) :
    resolveFromModule currentMod relModule (hops + 1) =
      joinDots ((splitDots currentMod).take ((splitDots currentMod).length - (hops + 1)) ++
        modulePart relModule) := by
  unfold resolveFromModule
  simp only [Nat.succ_ne_zero, if_false]
  split_ifs with hlen
  · rfl
  · have hzero : (splitDots currentMod).length - (hops + 1) = 0 := by omega
    rw [hzero, List.take_zero]

/-- The name is the one of the import system, wherever that has one. -/
def ResolvesAsImport (f : SourceFile) (relModule : Option String) (hops : ℕ) : Prop :=
  ∀ name, importedName (importPackage f) relModule (hops + 1) = some name →
    resolveFromModule (fileToModname f) relModule (hops + 1) = name

theorem resolvesAsImport_of_plain {f : SourceFile} (h : f.isPackage = false) (relModule : Option String)
    (hops : ℕ) : ResolvesAsImport f relModule hops := by
  intro name hname
  rw [importedName_eq, importPackage, h, if_neg Bool.false_ne_true] at hname
  split_ifs at hname with hnone
  obtain ⟨hempty, hlen⟩ := not_or.mp hnone
  have hplain := @not_mem_of_mem_splitDots (fileToModname f)
  rw [resolveFromModule_succ, ← Option.some.inj hname]
  clear hname hnone
  generalize splitDots (fileToModname f) = parts at hempty hlen hplain ⊢
  have hdrop : parts.dropLast ≠ [] := by
    intro hnil
    rw [hnil] at hempty
    exact hempty rfl
  rw [splitDots_joinDots hdrop fun p hp => hplain p (List.mem_of_mem_dropLast hp)] at hlen ⊢
  rw [List.length_dropLast] at hlen ⊢
  rw [List.dropLast_eq_take, List.take_take]
  have hcount : min (parts.length - 1 - hops) (parts.length - 1) = parts.length - (hops + 1) := by omega
  rw [hcount]

theorem resolvesAsImport_package_iff {f : SourceFile} (h : f.isPackage = true) (relModule : Option String)
    (hops : ℕ) : ResolvesAsImport f relModule hops ↔
      fileToModname f = "" ∨ (splitDots (fileToModname f)).length ≤ hops ∨
        ((splitDots (fileToModname f)).length = hops + 1 ∧
          (splitDots (fileToModname f)).head? = some [] ∧ modulePart relModule = []) := by
  unfold ResolvesAsImport
  rw [importedName_eq, importPackage, h, if_pos rfl, resolveFromModule_succ]
  by_cases hnone : fileToModname f = "" ∨ (splitDots (fileToModname f)).length ≤ hops
  · rw [if_pos hnone]
    refine iff_of_true (fun name hname => by cases hname) ?_
    rw [← or_assoc]
    exact .inl hnone
  rw [if_neg hnone, ← or_assoc, or_iff_right hnone]
  simp only [Option.some.injEq, forall_eq']
  obtain ⟨-, hlen⟩ := not_or.mp hnone
  generalize splitDots (fileToModname f) = parts at hlen ⊢
  obtain ⟨k, hk⟩ : ∃ k, parts.length = hops + (k + 1) := ⟨parts.length - hops - 1, by omega⟩
  have hlt : k < parts.length := by omega
  have hcode : parts.length - (hops + 1) = k := by omega
  have himport : parts.length - hops = k + 1 := by omega
  rw [hcode, himport, List.take_add_one, List.getElem?_eq_getElem hlt, Option.toList_some,
    List.append_assoc, List.singleton_append]
  by_cases hrest : parts.take k ++ modulePart relModule = []
  · obtain ⟨htake, hpart⟩ := List.append_eq_nil_iff.mp hrest
    have hk0 : k = 0 := by
      have hlength := congrArg List.length htake
      simp only [List.length_take, List.length_nil] at hlength
      omega
    subst hk0
    cases parts with
    | nil => cases hlt
    | cons p parts =>
      simp only [List.take_zero, List.nil_append, hpart, List.getElem_cons_zero, List.head?_cons,
        Option.some.injEq, and_true]
      constructor
      · intro heq
        have hlist := congrArg String.toList heq
        simp only [toList_joinDots] at hlist
        exact ⟨hk, by simpa using hlist.symm⟩
      · rintro ⟨-, rfl⟩
        rfl
  · refine iff_of_false (fun heq => joinDots_insert_ne hrest _ heq.symm) ?_
    rintro ⟨hone, -, hpart⟩
    have hk0 : k = 0 := by omega
    rw [hk0, hpart] at hrest
    exact hrest rfl

/-- **Relative imports.** The name is the import system's for every plain module; for a package only
where there is no such name, or where both are empty. -/
theorem resolvesAsImport_iff (f : SourceFile) (relModule : Option String) (hops : ℕ) :
    ResolvesAsImport f relModule hops ↔
      (f.isPackage = true → fileToModname f = "" ∨ (splitDots (fileToModname f)).length ≤ hops ∨
        ((splitDots (fileToModname f)).length = hops + 1 ∧
          (splitDots (fileToModname f)).head? = some [] ∧ modulePart relModule = [])) := by
  cases h : f.isPackage with
  | false => exact iff_of_true (resolvesAsImport_of_plain h relModule hops) (by simp)
  | true => simpa using resolvesAsImport_package_iff h relModule hops

/-- `from .x import y` in `pkg/__init__.py` is `pkg.x`, and is taken for `x`. -/
theorem package_init_loses_package : ¬ ∀ (f : SourceFile) (relModule : Option String) (hops : ℕ),
    ResolvesAsImport f relModule hops := by
  intro h
  exact absurd (h ⟨["pkg"], "__init__"⟩ (some "x") 0 "pkg.x" (by decide)) (by decide)

/-! ## The suffix index -/

def dottedSuffixes (mod : String) : List String :=
  let parts := splitDots mod
  (List.range' 1 (parts.length - 1)).map fun i => joinDots (parts.drop i)

def addSuffix (mod : String) (idx : Dict String) (suffix : String) : Dict String :=
  if (idx.lookup suffix).isSome then idx else idx.insert suffix mod

/-- `modules` are the keys of the table of modules, in order. -/
def buildSuffixIndex (modules : List String) : Dict String :=
  modules.foldl (fun idx mod => (dottedSuffixes mod).foldl (addSuffix mod) idx) ∅

def matchBySuffixIndex (modules : List String) (candidate : String) : Option String :=
  if candidate ∈ modules then some candidate else (buildSuffixIndex modules).lookup candidate

/-- `modules[name] = …`: a name that is there keeps its place. -/
def registerModule (modules : List String) (name : String) : List String :=
  if name ∈ modules then modules else modules ++ [name]

def registerModules (names : List String) : List String := names.foldl registerModule []

/-- `mod.endswith("." + candidate)`. -/
def endsWithDotted (candidate mod : String) : Bool := ('.' :: candidate.toList).isSuffixOf mod.toList

theorem mem_dottedSuffixes_iff (candidate mod : String) :
    candidate ∈ dottedSuffixes mod ↔ endsWithDotted candidate mod = true := by
  rw [endsWithDotted, List.isSuffixOf_iff_suffix, Separators.suffix_iff_drop_splitOn]
  simp only [dottedSuffixes, List.mem_map, List.mem_range'_1]
  constructor
  · rintro ⟨i, ⟨hpos, hlt⟩, rfl⟩
    exact ⟨i, hpos, by unfold splitDots at hlt; omega, by simp [splitDots]⟩
  · rintro ⟨i, hpos, hlt, hjoin⟩
    refine ⟨i, ⟨hpos, by unfold splitDots; omega⟩, ?_⟩
    rw [joinDots, splitDots, hjoin, String.ofList_toList]

theorem lookup_addSuffix (mod : String) (idx : Dict String) (suffix key : String) :
    (addSuffix mod idx suffix).lookup key =
      (idx.lookup key).or (if key = suffix then some mod else none) := by
  unfold addSuffix
  by_cases hkey : key = suffix
  · subst hkey
    cases h : idx.lookup key <;> simp [h]
  · split <;> simp [hkey, AList.lookup_insert_ne]

theorem lookup_addSuffixes (mod key : String) (suffixes : List String) (idx : Dict String) :
    (suffixes.foldl (addSuffix mod) idx).lookup key =
      (idx.lookup key).or (if key ∈ suffixes then some mod else none) := by
  induction suffixes generalizing idx with
  | nil => simp
  | cons suffix suffixes ih =>
    rw [List.foldl_cons, ih, lookup_addSuffix, Option.or_assoc]
    by_cases hkey : key = suffix <;> simp [hkey]

theorem lookup_foldl_addSuffixes (modules : List String) (key : String) (idx : Dict String) :
    (modules.foldl (fun idx mod => (dottedSuffixes mod).foldl (addSuffix mod) idx) idx).lookup key =
      (idx.lookup key).or (modules.find? (endsWithDotted key)) := by
  induction modules generalizing idx with
  | nil => simp
  | cons mod modules ih =>
    rw [List.foldl_cons, ih, lookup_addSuffixes, Option.or_assoc, List.find?_cons]
    simp only [mem_dottedSuffixes_iff]
    cases endsWithDotted key mod <;> simp

theorem mem_registerModules {names : List String} {name : String} : ∀ {modules : List String},
    name ∈ names.foldl registerModule modules ↔ name ∈ modules ∨ name ∈ names := by
  induction names with
  | nil => simp
  | cons n names ih =>
    intro modules
    rw [List.foldl_cons, ih, registerModule]
    by_cases h : n ∈ modules
    · simp only [h, if_true, List.mem_cons]
      constructor
      · tauto
      · rintro (hm | rfl | hm)
        · exact .inl hm
        · exact .inl h
        · exact .inr hm
    · simp only [h, if_false, List.mem_append, List.mem_cons]
      tauto

theorem find?_registerModules (p : String → Bool) (names : List String) :
    ∀ modules : List String, (names.foldl registerModule modules).find? p =
      (modules.find? p).or (names.find? p) := by
  induction names with
  | nil => simp
  | cons n names ih =>
    intro modules
    rw [List.foldl_cons, ih, List.find?_cons, registerModule]
    by_cases h : n ∈ modules
    · rw [if_pos h]
      cases hp : p n with
      | false => rfl
      | true =>
        -- the first hit is at or before the old place of `n`
        have hsome : (modules.find? p).isSome := List.find?_isSome.mpr ⟨n, h, hp⟩
        obtain ⟨m, hm⟩ := Option.isSome_iff_exists.mp hsome
        simp [hm]
    · rw [if_neg h, List.find?_append, Option.or_assoc, List.find?_cons]
      cases p n <;> simp

/-- **Suffix index.** A registered candidate is its own answer; any other is answered by the first
registered module that ends in a dot and the candidate, as by a scan over the modules. -/
theorem matchBySuffixIndex_eq_scan (names : List String) (candidate : String) :
    matchBySuffixIndex (registerModules names) candidate =
      if candidate ∈ names then some candidate else names.find? (endsWithDotted candidate) := by
  unfold matchBySuffixIndex buildSuffixIndex registerModules
  rw [lookup_foldl_addSuffixes, find?_registerModules]
  simp only [mem_registerModules, List.not_mem_nil, false_or, AList.lookup_empty, Option.none_or,
    List.find?_nil]

end TimeCodeSecurity.CrossFile
