import TimeCodeSecurity.Foundations.Tables
import TimeCodeSecurity.Scanner.Names

/-! # The table of assignments

`AssignmentNameTable`: a dictionary from scope and name to a list of records, with indexes of its keys beside
it. The lists have numbers and are looked up by them, so that a list that stands under a key and in an index
is one list; appending to it concerns no index.
-/
namespace TimeCodeSecurity.Scanner
open Tables
set_option autoImplicit false

/-- A key of the dictionary; only a pair of texts has a scope and a name. -/
inductive TableKey
  | inScope (scope name : String)
  | other (text : String)
deriving DecidableEq, Repr

def TableKey.split : TableKey → Option (String × String)
  | .inScope scope name => some (scope, name)
  | .other _ => none

/-- The module under which a scope is indexed. -/
def indexModule (scope : String) : String := if scope = "" then "" else scopeModule scope

/-- `index.get(k, ())`. -/
def namesAt (index : List (String × List String)) (k : String) : List String := (index.lookup k).getD []

/-- `index.setdefault(k, set()).add(name)`. -/
def addName (index : List (String × List String)) (k name : String) : List (String × List String) :=
  setItem index k (if name ∈ namesAt index k then namesAt index k else namesAt index k ++ [name])

def indexKey (index : List (String × List String)) (key : TableKey) : List (String × List String) :=
  match key.split with
  | none => index
  | some (scope, name) => addName index scope name

structure AssignmentNameTable (α : Type) where
  /-- The dictionary, with the numbers of the lists. -/
  items : List (TableKey × ℕ) := []
  lists : ℕ → List α := fun _ => []
  fresh : ℕ := 0
  namesByModule : List (String × List String) := []
  /-- `none` after it was released. -/
  namesByScope : Option (List (String × List String)) := some []
  recordsByName : List (String × List (TableKey × ℕ)) := []

namespace AssignmentNameTable

variable {α : Type} (t : AssignmentNameTable α)

def keys : List TableKey := t.items.map Prod.fst

/-- `records_by_name.get(name, ())`. -/
def bucket (name : String) : List (TableKey × ℕ) := (t.recordsByName.lookup name).getD []

def index (key : TableKey) : AssignmentNameTable α :=
  match key.split with
  | none => t
  | some (scope, name) =>
    { t with
      namesByModule := addName t.namesByModule (indexModule scope) name
      namesByScope := t.namesByScope.map fun index => addName index scope name }

def indexRecords (key : TableKey) (records : ℕ) : AssignmentNameTable α :=
  match key.split with
  | none => t
  | some (_, name) =>
    { t with recordsByName := setItem t.recordsByName name (t.bucket name ++ [(key, records)]) }

/-- `setdefault(key, [])`. -/
def setdefault (key : TableKey) : AssignmentNameTable α :=
  if key ∈ t.keys then t
  else
    let t := t.index key
    { t with
      items := t.items ++ [(key, t.fresh)]
      lists := Function.update t.lists t.fresh []
      fresh := t.fresh + 1 }.indexRecords key t.fresh

/-- `table[key].extend(records)` for a key of the table; no index is told. -/
def extend (key : TableKey) (records : List α) : AssignmentNameTable α :=
  match t.items.lookup key with
  | none => t
  | some ref => { t with lists := Function.update t.lists ref (t.lists ref ++ records) }

/-- `setdefault(key, []).append(record)`. -/
def append (key : TableKey) (record : α) : AssignmentNameTable α := (t.setdefault key).extend key [record]

/-- The keys with the records of their lists. -/
def contents : List (TableKey × List α) := t.items.map fun e => (e.1, t.lists e.2)

/-- `graft`; of the other table only its keys and the records of its lists are read. -/
def graft (other : List (TableKey × List α)) : AssignmentNameTable α :=
  other.foldl (fun t e => (t.setdefault e.1).extend e.1 e.2) t

def releaseScratchIndexes : AssignmentNameTable α := { t with namesByScope := none }

def rebuildScopeIndex : AssignmentNameTable α :=
  { t with namesByScope := some (t.keys.foldl indexKey []) }

/-- `names_in_scope`, with the table afterwards. -/
def namesInScope (scope : String) : List String × AssignmentNameTable α :=
  let t := if t.namesByScope = none then t.rebuildScopeIndex else t
  (namesAt (t.namesByScope.getD []) scope, t)

/-- `__init__` with the entries of a dictionary, each with a list of its own. -/
def init (d : DictOf TableKey (List α)) : AssignmentNameTable α :=
  d.items.foldl (fun t e => (t.setdefault e.1).extend e.1 e.2) {}

end AssignmentNameTable

inductive TableCall (α : Type)
  | append (key : TableKey) (record : α)
  | graft (other : List (TableKey × List α))
  | release
  | rebuild
  | namesInScope (scope : String)

def AssignmentNameTable.call {α : Type} (t : AssignmentNameTable α) : TableCall α → AssignmentNameTable α
  | .append key record => t.append key record
  | .graft other => t.graft other
  | .release => t.releaseScratchIndexes
  | .rebuild => t.rebuildScopeIndex
  | .namesInScope scope => (t.namesInScope scope).2

end TimeCodeSecurity.Scanner

/-! ## The indexes of the table of assignments

The indexes are told of each key once, when it comes in; what is appended to a list later is seen through every
index, because the list is the same.
-/
namespace TimeCodeSecurity.Scanner
open Tables

theorem namesAt_addName (index : List (String × List String)) (k k' name : String) :
    namesAt (addName index k name) k' =
      if k' = k then (if name ∈ namesAt index k then namesAt index k else namesAt index k ++ [name])
      else namesAt index k' := by
  rw [namesAt, addName, lookup_setItem]
  by_cases hk : k' = k
  · rw [if_pos hk, if_pos hk, Option.getD_some]
  · rw [if_neg hk, if_neg hk, namesAt]

theorem mem_namesAt_addName {index : List (String × List String)} {k k' name name' : String} :
    name' ∈ namesAt (addName index k name) k' ↔ name' ∈ namesAt index k' ∨ (k' = k ∧ name' = name) := by
  rw [namesAt_addName]
  by_cases hk : k' = k
  · subst hk
    by_cases hmem : name ∈ namesAt index k'
    · simp only [hmem, if_true, true_and]
      exact ⟨.inl, fun h => h.elim id fun heq => heq ▸ hmem⟩
    · simp [hmem]
  · simp [hk]

/-- The keys in which a scope and a name stand. -/
def TableKey.named (name : String) (key : TableKey) : Bool := key.split.map Prod.snd = some name

theorem mem_namesAt_foldl {keys : List TableKey} {index : List (String × List String)} {scope name : String} :
    name ∈ namesAt (keys.foldl indexKey index) scope ↔
      name ∈ namesAt index scope ∨ TableKey.inScope scope name ∈ keys := by
  induction keys generalizing index with
  | nil => simp
  | cons key keys ih =>
    rw [List.foldl_cons, ih]
    cases key with
    | inScope scope' name' =>
      simp only [indexKey, TableKey.split, mem_namesAt_addName, List.mem_cons, TableKey.inScope.injEq]
      tauto
    | other text => simp [indexKey, TableKey.split]

namespace AssignmentNameTable

variable {α : Type}

theorem fresh_index (t : AssignmentNameTable α) (key : TableKey) : (t.index key).fresh = t.fresh := by
  cases key <;> rfl

theorem setdefault_of_mem {t : AssignmentNameTable α} {key : TableKey} (h : key ∈ t.keys) :
    t.setdefault key = t := if_pos h

theorem setdefault_of_notMem {t : AssignmentNameTable α} {key : TableKey} (h : key ∉ t.keys) :
    (t.setdefault key).items = t.items ++ [(key, t.fresh)] ∧
      (t.setdefault key).lists = Function.update t.lists t.fresh [] ∧
      (t.setdefault key).fresh = t.fresh + 1 := by
  rw [setdefault, if_neg h]
  cases key <;> exact ⟨rfl, rfl, rfl⟩

theorem keys_setdefault (t : AssignmentNameTable α) (key : TableKey) :
    (t.setdefault key).keys = if key ∈ t.keys then t.keys else t.keys ++ [key] := by
  by_cases h : key ∈ t.keys
  · rw [setdefault_of_mem h, if_pos h]
  · rw [keys, (setdefault_of_notMem h).1, if_neg h, List.map_append]
    rfl

theorem mem_keys_setdefault (t : AssignmentNameTable α) (key : TableKey) : key ∈ (t.setdefault key).keys := by
  rw [keys_setdefault]
  by_cases h : key ∈ t.keys
  · rwa [if_pos h]
  · rw [if_neg h]
    exact List.mem_append_right _ (List.mem_singleton_self key)

theorem keys_subset_setdefault (t : AssignmentNameTable α) (key : TableKey) :
    t.keys ⊆ (t.setdefault key).keys := by
  rw [keys_setdefault]
  by_cases h : key ∈ t.keys
  · rw [if_pos h]
    exact List.Subset.refl _
  · rw [if_neg h]
    exact List.subset_append_left _ _

section Extend
variable (t : AssignmentNameTable α) (key : TableKey) (records : List α)

@[simp] theorem items_extend : (t.extend key records).items = t.items := by
  rw [extend]
  split <;> rfl

@[simp] theorem fresh_extend : (t.extend key records).fresh = t.fresh := by
  rw [extend]
  split <;> rfl

@[simp] theorem namesByModule_extend : (t.extend key records).namesByModule = t.namesByModule := by
  rw [extend]
  split <;> rfl

@[simp] theorem namesByScope_extend : (t.extend key records).namesByScope = t.namesByScope := by
  rw [extend]
  split <;> rfl

@[simp] theorem recordsByName_extend : (t.extend key records).recordsByName = t.recordsByName := by
  rw [extend]
  split <;> rfl

@[simp] theorem keys_extend : (t.extend key records).keys = t.keys := by
  rw [keys, items_extend, keys]

end Extend

/-! ## The invariant -/

structure Numbered (t : AssignmentNameTable α) : Prop where
  keys_nodup : t.keys.Nodup
  numbers_nodup : (t.items.map Prod.snd).Nodup
  numbers_lt : ∀ ref ∈ t.items.map Prod.snd, ref < t.fresh

structure Indexed (t : AssignmentNameTable α) : Prop where
  byName : ∀ name, t.bucket name = t.items.filter fun e => e.1.named name
  byModule : ∀ mod name, name ∈ namesAt t.namesByModule mod ↔
    ∃ scope, indexModule scope = mod ∧ TableKey.inScope scope name ∈ t.keys
  byScope : ∀ index, t.namesByScope = some index → ∀ scope name,
    name ∈ namesAt index scope ↔ TableKey.inScope scope name ∈ t.keys

theorem numbered_empty : Numbered ({} : AssignmentNameTable α) :=
  ⟨List.nodup_nil, List.nodup_nil, fun _ h => absurd h List.not_mem_nil⟩

theorem indexed_empty : Indexed ({} : AssignmentNameTable α) := by
  refine ⟨fun name => rfl, fun mod name => ?_, fun index hindex scope name => ?_⟩
  · exact iff_of_false List.not_mem_nil fun ⟨_, _, h⟩ => absurd h List.not_mem_nil
  · cases hindex
    exact iff_of_false List.not_mem_nil List.not_mem_nil

theorem Numbered.setdefault {t : AssignmentNameTable α} (h : t.Numbered) (key : TableKey) :
    (t.setdefault key).Numbered := by
  by_cases hkey : key ∈ t.keys
  · rwa [setdefault_of_mem hkey]
  · obtain ⟨hitems, -, hfresh⟩ := setdefault_of_notMem hkey
    refine ⟨?_, ?_, ?_⟩
    · rw [keys_setdefault, if_neg hkey]
      exact List.nodup_append.mpr ⟨h.keys_nodup, List.nodup_singleton key, fun k hk k' hk' heq =>
        hkey (List.mem_singleton.mp hk' ▸ heq ▸ hk)⟩
    · rw [hitems, List.map_append]
      refine List.nodup_append.mpr ⟨h.numbers_nodup, List.nodup_singleton _, fun ref href ref' href' heq => ?_⟩
      have hlt := h.numbers_lt ref href
      rw [heq, List.mem_singleton.mp href'] at hlt
      exact lt_irrefl _ hlt
    · rw [hitems, hfresh, List.map_append]
      intro ref href
      rcases List.mem_append.mp href with href | href
      · exact (h.numbers_lt ref href).trans (Nat.lt_succ_self _)
      · rw [List.mem_singleton.mp href]
        exact Nat.lt_succ_self _

theorem Numbered.extend {t : AssignmentNameTable α} (h : t.Numbered) (key : TableKey) (records : List α) :
    (t.extend key records).Numbered := by
  refine ⟨?_, ?_, ?_⟩
  · rw [keys_extend]
    exact h.keys_nodup
  · rw [items_extend]
    exact h.numbers_nodup
  · rw [items_extend, fresh_extend]
    exact h.numbers_lt

theorem bucket_indexRecords (t : AssignmentNameTable α) (key : TableKey) (ref : ℕ) (name : String) :
    (t.indexRecords key ref).bucket name = t.bucket name ++ if key.named name then [(key, ref)] else [] := by
  cases key with
  | other text =>
    rw [if_neg (by simp [TableKey.named, TableKey.split]), List.append_nil]
    rfl
  | inScope scope name' =>
    have hnamed : (TableKey.inScope scope name').named name = true ↔ name = name' := by
      simp [TableKey.named, TableKey.split, eq_comm]
    show ((setItem t.recordsByName name' _).lookup name).getD [] = _
    rw [lookup_setItem]
    by_cases heq : name = name'
    · rw [if_pos heq, if_pos (hnamed.mpr heq), heq, Option.getD_some]
    · rw [if_neg heq, if_neg (mt hnamed.mp heq), List.append_nil]
      rfl

theorem Indexed.setdefault {t : AssignmentNameTable α} (h : t.Indexed) (key : TableKey) :
    (t.setdefault key).Indexed := by
  by_cases hkey : key ∈ t.keys
  · rwa [setdefault_of_mem hkey]
  · obtain ⟨hitems, -, -⟩ := setdefault_of_notMem hkey
    have hkeys : (t.setdefault key).keys = t.keys ++ [key] := by rw [keys_setdefault, if_neg hkey]
    refine ⟨fun name => ?_, fun mod name => ?_, fun index hindex scope name => ?_⟩
    · rw [hitems, List.filter_append, ← h.byName, AssignmentNameTable.setdefault, if_neg hkey,
        bucket_indexRecords]
      congr 1
      · cases key <;> rfl
      · cases hn : key.named name <;> simp [hn, fresh_index]
    · rw [hkeys]
      cases key with
      | other text =>
        have hsame : (t.setdefault (.other text)).namesByModule = t.namesByModule := by
          rw [AssignmentNameTable.setdefault, if_neg hkey]
          rfl
        rw [hsame, h.byModule]
        simp
      | inScope scope' name' =>
        have hadd : (t.setdefault (.inScope scope' name')).namesByModule =
            addName t.namesByModule (indexModule scope') name' := by
          rw [AssignmentNameTable.setdefault, if_neg hkey]
          rfl
        rw [hadd, mem_namesAt_addName, h.byModule]
        simp only [List.mem_append, List.mem_singleton, TableKey.inScope.injEq]
        constructor
        · rintro (⟨scope, hmod, hmem⟩ | ⟨rfl, rfl⟩)
          · exact ⟨scope, hmod, .inl hmem⟩
          · exact ⟨scope', rfl, .inr ⟨rfl, rfl⟩⟩
        · rintro ⟨scope, hmod, hmem | ⟨rfl, rfl⟩⟩
          · exact .inl ⟨scope, hmod, hmem⟩
          · exact .inr ⟨hmod.symm, rfl⟩
    · rw [hkeys]
      cases key with
      | other text =>
        have hsame : (t.setdefault (.other text)).namesByScope = t.namesByScope := by
          rw [AssignmentNameTable.setdefault, if_neg hkey]
          rfl
        rw [hsame] at hindex
        rw [h.byScope index hindex]
        simp
      | inScope scope' name' =>
        have hadd : (t.setdefault (.inScope scope' name')).namesByScope =
            t.namesByScope.map fun index => addName index scope' name' := by
          rw [AssignmentNameTable.setdefault, if_neg hkey]
          rfl
        rw [hadd] at hindex
        obtain ⟨index, hold, rfl⟩ := Option.map_eq_some_iff.mp hindex
        rw [mem_namesAt_addName, h.byScope index hold]
        simp [TableKey.inScope.injEq]

theorem Indexed.extend {t : AssignmentNameTable α} (h : t.Indexed) (key : TableKey) (records : List α) :
    (t.extend key records).Indexed := by
  refine ⟨fun name => ?_, fun mod name => ?_, fun index hindex scope name => ?_⟩
  · rw [bucket, recordsByName_extend, items_extend]
    exact h.byName name
  · rw [namesByModule_extend, keys_extend]
    exact h.byModule mod name
  · rw [namesByScope_extend] at hindex
    rw [keys_extend]
    exact h.byScope index hindex scope name

structure Exact (t : AssignmentNameTable α) : Prop where
  numbered : t.Numbered
  indexed : t.Indexed

theorem exact_empty : Exact ({} : AssignmentNameTable α) := ⟨numbered_empty, indexed_empty⟩

theorem Exact.setdefault {t : AssignmentNameTable α} (h : t.Exact) (key : TableKey) : (t.setdefault key).Exact :=
  ⟨h.numbered.setdefault key, h.indexed.setdefault key⟩

theorem Exact.extend {t : AssignmentNameTable α} (h : t.Exact) (key : TableKey) (records : List α) :
    (t.extend key records).Exact :=
  ⟨h.numbered.extend key records, h.indexed.extend key records⟩

theorem Exact.graft {t : AssignmentNameTable α} (h : t.Exact) (other : List (TableKey × List α)) :
    (t.graft other).Exact := by
  induction other generalizing t with
  | nil => exact h
  | cons e other ih => exact ih ((h.setdefault e.1).extend e.1 e.2)

theorem Exact.release {t : AssignmentNameTable α} (h : t.Exact) : t.releaseScratchIndexes.Exact :=
  ⟨⟨h.numbered.keys_nodup, h.numbered.numbers_nodup, h.numbered.numbers_lt⟩,
    ⟨h.indexed.byName, h.indexed.byModule, fun _ hindex => by cases hindex⟩⟩

theorem Exact.rebuild {t : AssignmentNameTable α} (h : t.Exact) : t.rebuildScopeIndex.Exact := by
  refine ⟨⟨h.numbered.keys_nodup, h.numbered.numbers_nodup, h.numbered.numbers_lt⟩,
    ⟨h.indexed.byName, h.indexed.byModule, fun index hindex scope name => ?_⟩⟩
  cases hindex
  rw [mem_namesAt_foldl]
  simp only [namesAt, List.lookup_nil, Option.getD_none, List.not_mem_nil, false_or]
  rfl

theorem Exact.namesInScope {t : AssignmentNameTable α} (h : t.Exact) (scope : String) :
    (t.namesInScope scope).2.Exact := by
  rw [AssignmentNameTable.namesInScope]
  dsimp only
  split
  · exact h.rebuild
  · exact h

theorem Exact.call {t : AssignmentNameTable α} (h : t.Exact) (c : TableCall α) : (t.call c).Exact := by
  cases c with
  | append key record => exact (h.setdefault key).extend key [record]
  | graft other => exact h.graft other
  | release => exact h.release
  | rebuild => exact h.rebuild
  | namesInScope scope => exact h.namesInScope scope

theorem Exact.calls {t : AssignmentNameTable α} (h : t.Exact) (cs : List (TableCall α)) :
    (cs.foldl AssignmentNameTable.call t).Exact := by
  induction cs generalizing t with
  | nil => exact h
  | cons c cs ih => exact ih (h.call c)

theorem exact_init (d : DictOf TableKey (List α)) : (init d).Exact := exact_empty.graft d.items

theorem Exact.mem_namesInScope {t : AssignmentNameTable α} (h : t.Exact) (scope name : String) :
    name ∈ (t.namesInScope scope).1 ↔ TableKey.inScope scope name ∈ t.keys := by
  rw [AssignmentNameTable.namesInScope]
  cases hindex : t.namesByScope with
  | none => exact h.rebuild.indexed.byScope _ rfl scope name
  | some index =>
    rw [if_neg (Option.some_ne_none index)]
    dsimp only
    rw [hindex]
    exact h.indexed.byScope index hindex scope name

/-! ## Grafting -/

theorem lookup_items {t : AssignmentNameTable α} (h : t.Numbered) {e : TableKey × ℕ} (he : e ∈ t.items) :
    t.items.lookup e.1 = some e.2 := lookup_of_mem h.keys_nodup he

theorem exists_item {t : AssignmentNameTable α} (h : t.Numbered) {key : TableKey} (hkey : key ∈ t.keys) :
    ∃ ref, (key, ref) ∈ t.items ∧ t.items.lookup key = some ref := by
  obtain ⟨⟨key', ref⟩, he, rfl⟩ := List.mem_map.mp hkey
  exact ⟨ref, he, lookup_items h he⟩

theorem extend_eq {t : AssignmentNameTable α} {key : TableKey} {ref : ℕ} (h : t.items.lookup key = some ref)
    (records : List α) :
    t.extend key records = { t with lists := Function.update t.lists ref (t.lists ref ++ records) } := by
  rw [extend, h]

theorem extend_extend (t : AssignmentNameTable α) (key : TableKey) (xs ys : List α) :
    (t.extend key xs).extend key ys = t.extend key (xs ++ ys) := by
  cases h : t.items.lookup key with
  | none =>
    have hnone : ∀ records, t.extend key records = t := fun records => by rw [extend, h]
    rw [hnone, hnone, hnone]
  | some ref =>
    have h' : (t.extend key xs).items.lookup key = some ref := by rw [items_extend, h]
    rw [extend_eq h', extend_eq h, extend_eq h]
    simp [Function.update_idem]

theorem extend_comm {t : AssignmentNameTable α} (h : t.Numbered) {key key' : TableKey} (hne : key ≠ key')
    (xs ys : List α) : (t.extend key xs).extend key' ys = (t.extend key' ys).extend key xs := by
  cases hk : t.items.lookup key with
  | none =>
    have hnone : ∀ u : AssignmentNameTable α, u.items = t.items → u.extend key xs = u := fun u hu => by
      rw [extend, hu, hk]
    rw [hnone t rfl, hnone _ (items_extend ..)]
  | some ref =>
    cases hk' : t.items.lookup key' with
    | none =>
      have hnone : ∀ u : AssignmentNameTable α, u.items = t.items → u.extend key' ys = u := fun u hu => by
        rw [extend, hu, hk']
      rw [hnone t rfl, hnone _ (items_extend ..)]
    | some ref' =>
      have hrefs : ref ≠ ref' := by
        rintro rfl
        have hmem := List.lookup_eq_some_iff.mp hk
        have hmem' := List.lookup_eq_some_iff.mp hk'
        obtain ⟨before, after, heq, -⟩ := hmem
        obtain ⟨before', after', heq', -⟩ := hmem'
        have hin : (key, ref) ∈ t.items := by rw [heq]; simp
        have hin' : (key', ref) ∈ t.items := by rw [heq']; simp
        exact hne (congrArg Prod.fst (List.inj_on_of_nodup_map h.numbers_nodup hin hin' rfl))
      have h₁ : (t.extend key xs).items.lookup key' = some ref' := by rw [items_extend, hk']
      have h₂ : (t.extend key' ys).items.lookup key = some ref := by rw [items_extend, hk]
      rw [extend_eq h₁, extend_eq h₂, extend_eq hk, extend_eq hk']
      simp [Function.update_of_ne hrefs, Function.update_of_ne hrefs.symm, Function.update_comm hrefs]

theorem setdefault_extend {t : AssignmentNameTable α} (h : t.Numbered) {key : TableKey} (hkey : key ∈ t.keys)
    (key' : TableKey) (xs : List α) : (t.extend key xs).setdefault key' = (t.setdefault key').extend key xs := by
  by_cases hkey' : key' ∈ t.keys
  · rw [setdefault_of_mem hkey', setdefault_of_mem (by rwa [keys_extend])]
  · obtain ⟨ref, hin, hlookup⟩ := exists_item h hkey
    have href : ref ≠ t.fresh := (h.numbers_lt ref (List.mem_map.mpr ⟨_, hin, rfl⟩)).ne
    have hlookup' : (t.setdefault key').items.lookup key = some ref := by
      rw [(setdefault_of_notMem hkey').1, List.lookup_append, hlookup]
      rfl
    have hnot : key' ∉ (t.extend key xs).keys := by rwa [keys_extend]
    rw [extend_eq hlookup', setdefault, if_neg hnot, setdefault, if_neg hkey', extend_eq hlookup]
    cases key' with
    | inScope scope name =>
      simp only [index, indexRecords, TableKey.split, bucket, Function.update_of_ne href,
        Function.update_comm href]
    | other text =>
      simp only [index, indexRecords, TableKey.split, Function.update_of_ne href, Function.update_comm href]

theorem graft_extend {t : AssignmentNameTable α} (h : t.Numbered) {key : TableKey} (hkey : key ∈ t.keys)
    (xs : List α) {other : List (TableKey × List α)} (hother : key ∉ other.map Prod.fst) :
    (t.extend key xs).graft other = (t.graft other).extend key xs := by
  induction other generalizing t with
  | nil => rfl
  | cons e other ih =>
    rw [List.map_cons, List.mem_cons, not_or] at hother
    have hset := h.setdefault e.1
    show ((((t.extend key xs).setdefault e.1).extend e.1 e.2).graft other) = _
    rw [setdefault_extend h hkey, extend_comm hset hother.1]
    exact ih (hset.extend e.1 e.2) (by rw [keys_extend]; exact keys_subset_setdefault t e.1 hkey) hother.2

theorem numbered_graft {t : AssignmentNameTable α} (h : t.Numbered) (other : List (TableKey × List α)) :
    (t.graft other).Numbered := by
  induction other generalizing t with
  | nil => exact h
  | cons e other ih => exact ih ((h.setdefault e.1).extend e.1 e.2)

theorem keys_subset_graft (t : AssignmentNameTable α) (other : List (TableKey × List α)) :
    t.keys ⊆ (t.graft other).keys := by
  induction other generalizing t with
  | nil => exact List.Subset.refl _
  | cons e other ih =>
    refine List.Subset.trans ?_ (ih _)
    rw [keys_extend]
    exact keys_subset_setdefault t e.1

theorem mem_keys_graft {t : AssignmentNameTable α} {other : List (TableKey × List α)} {key : TableKey}
    (h : key ∈ other.map Prod.fst) : key ∈ (t.graft other).keys := by
  induction other generalizing t with
  | nil => exact absurd h List.not_mem_nil
  | cons e other ih =>
    rcases List.mem_cons.mp h with rfl | h
    · refine keys_subset_graft _ other ?_
      rw [keys_extend]
      exact mem_keys_setdefault t e.1
    · exact ih h

theorem graft_add {t : AssignmentNameTable α} (h : t.Numbered) {other : List (TableKey × List α)}
    (hnodup : (other.map Prod.fst).Nodup) {key : TableKey} (hkey : key ∈ other.map Prod.fst) (xs : List α) :
    t.graft (other.map fun e => if e.1 = key then (key, e.2 ++ xs) else e) = (t.graft other).extend key xs := by
  induction other generalizing t with
  | nil => exact absurd hkey List.not_mem_nil
  | cons e other ih =>
    rw [List.map_cons, List.nodup_cons] at hnodup
    rw [List.map_cons]
    by_cases he : e.1 = key
    · have hsame : (other.map fun e => if e.1 = key then (key, e.2 ++ xs) else e) = other := by
        refine (List.map_congr_left fun x hx => if_neg fun heq => hnodup.1 ?_).trans (List.map_id _)
        exact List.mem_map.mpr ⟨x, hx, heq.trans he.symm⟩
      rw [if_pos he, hsame]
      subst he
      show ((t.setdefault e.1).extend e.1 (e.2 ++ xs)).graft other = _
      rw [← extend_extend]
      exact graft_extend ((h.setdefault e.1).extend e.1 e.2)
        (by rw [keys_extend]; exact mem_keys_setdefault t e.1) xs hnodup.1
    · rw [if_neg he]
      have hrest : key ∈ other.map Prod.fst := (List.mem_cons.mp hkey).resolve_left fun heq => he heq.symm
      exact ih ((h.setdefault e.1).extend e.1 e.2) hnodup.2 hrest

theorem map_fst_contents (t : AssignmentNameTable α) : t.contents.map Prod.fst = t.keys := by
  rw [contents, List.map_map]
  rfl

theorem contents_append {t : AssignmentNameTable α} (h : t.Numbered) (key : TableKey) (record : α) :
    (t.append key record).contents =
      if key ∈ t.keys then t.contents.map fun e => if e.1 = key then (key, e.2 ++ [record]) else e
      else t.contents ++ [(key, [record])] := by
  by_cases hkey : key ∈ t.keys
  · obtain ⟨ref, hin, hlookup⟩ := exists_item h hkey
    rw [if_pos hkey, append, setdefault_of_mem hkey, extend_eq hlookup, contents, contents, List.map_map]
    refine List.map_congr_left fun e he => ?_
    by_cases heq : e.1 = key
    · have href : e.2 = ref := by
        have := lookup_items h he
        rw [heq, hlookup] at this
        exact (Option.some.inj this).symm
      simp [heq, href]
    · have href : e.2 ≠ ref := fun hr =>
        heq (congrArg Prod.fst (List.inj_on_of_nodup_map h.numbers_nodup he hin hr))
      simp [heq, Function.update_of_ne href]
  · obtain ⟨hitems, hlists, -⟩ := setdefault_of_notMem hkey
    have hlookup : (t.setdefault key).items.lookup key = some t.fresh :=
      lookup_items (h.setdefault key) (e := (key, t.fresh)) (by rw [hitems]; simp)
    rw [if_neg hkey, append, extend_eq hlookup, contents, contents, hitems, List.map_append]
    congr 1
    · refine List.map_congr_left fun e he => ?_
      have href : e.2 ≠ t.fresh := (h.numbers_lt e.2 (List.mem_map.mpr ⟨e, he, rfl⟩)).ne
      simp [hlists, Function.update_of_ne href]
    · simp [hlists]

/-- A table filled record by record. -/
def build (records : List (TableKey × α)) : AssignmentNameTable α :=
  records.foldl (fun t r => t.append r.1 r.2) {}

theorem numbered_build (records : List (TableKey × α)) : (build records).Numbered := by
  rw [build]
  induction records using List.reverseRecOn with
  | nil => exact numbered_empty
  | append_singleton records r ih =>
    rw [List.foldl_append]
    exact (ih.setdefault r.1).extend r.1 [r.2]

theorem graft_build {t : AssignmentNameTable α} (h : t.Numbered) (records : List (TableKey × α)) :
    t.graft (build records).contents = records.foldl (fun t r => t.append r.1 r.2) t := by
  induction records using List.reverseRecOn with
  | nil => rfl
  | append_singleton records r ih =>
    have hbuild : build (records ++ [r]) = (build records).append r.1 r.2 := by
      rw [build, List.foldl_append]
      rfl
    have hnumbered := numbered_build records
    rw [hbuild, contents_append hnumbered, List.foldl_append, ← ih]
    by_cases hkey : r.1 ∈ (build records).keys
    · have hfst : r.1 ∈ (build records).contents.map Prod.fst := by rwa [map_fst_contents]
      rw [if_pos hkey, graft_add h (by rw [map_fst_contents]; exact hnumbered.keys_nodup) hfst]
      show _ = ((t.graft (build records).contents).setdefault r.1).extend r.1 [r.2]
      rw [setdefault_of_mem (mem_keys_graft hfst)]
    · rw [if_neg hkey, graft, List.foldl_append]
      rfl

theorem graft_builds {t : AssignmentNameTable α} (h : t.Numbered) (modules : List (List (TableKey × α))) :
    modules.foldl (fun t records => t.graft (build records).contents) t =
      modules.flatten.foldl (fun t r => t.append r.1 r.2) t := by
  induction modules generalizing t with
  | nil => rfl
  | cons records modules ih =>
    rw [List.foldl_cons, List.flatten_cons, List.foldl_append, ← graft_build h]
    exact ih (numbered_graft h _)

end AssignmentNameTable

open AssignmentNameTable in
/-- After any calls the indexes say of each name, module and scope what the dictionary says, the bucket of a name
with the very lists and in the order of the dictionary; and grafting the tables of several modules is inserting
all their records. -/
theorem indexes_exact {α : Type} (d : DictOf TableKey (List α)) (calls : List (TableCall α)) :
    let t := calls.foldl AssignmentNameTable.call (init d)
    t.keys.Nodup ∧
    (∀ name, t.bucket name = t.items.filter fun e => e.1.named name) ∧
    (∀ mod name, name ∈ namesAt t.namesByModule mod ↔
      ∃ scope, indexModule scope = mod ∧ TableKey.inScope scope name ∈ t.keys) ∧
    (∀ scope name, name ∈ (t.namesInScope scope).1 ↔ TableKey.inScope scope name ∈ t.keys) ∧
    ∀ modules : List (List (TableKey × α)),
      modules.foldl (fun t records => t.graft (build records).contents) t =
        modules.flatten.foldl (fun t r => t.append r.1 r.2) t := by
  intro t
  have hexact : t.Exact := (exact_init d).calls calls
  exact ⟨hexact.numbered.keys_nodup, hexact.indexed.byName, hexact.indexed.byModule,
    hexact.mem_namesInScope, graft_builds hexact.numbered⟩

end TimeCodeSecurity.Scanner
