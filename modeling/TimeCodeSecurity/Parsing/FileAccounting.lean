import TimeCodeSecurity.Parsing.ModeAgreement

/-! # Every file is accounted for

A run hands every file to one of three places: the tables of the modules, the skipped files or the count
of the fast path. Files of one module name overwrite each other in the tables of the modules, so a run
accounts for its files exactly when the files it keeps have different module names.
-/
namespace TimeCodeSecurity.Parsing
open Py Tables
set_option autoImplicit false

/-- Every path is in exactly one place, and a file that is kept has its own tree under its own key. -/
structure AccountsForAll (H : Host) (files : Dict String) (run : ParseRun) : Prop where
  once : ∃ fast : List String, fast.length = run.stats.fastPathSkipped ∧
    (∀ path ∈ fast, ∃ source, (path, source) ∈ files.items ∧ ZeroRisk H (path, source)) ∧
    (run.tables.filePaths.map Prod.snd ++ (run.tables.skippedFiles.map Prod.fst ++ fast)).Perm
      (files.items.map Prod.fst)
  ownTree : ∀ name path, (name, path) ∈ run.tables.filePaths → ∃ source tree,
    (path, source) ∈ files.items ∧ H.parse source path = .ok tree ∧
      run.tables.modules.lookup name = some tree
  ownEntry : ∀ name path path', (name, path) ∈ run.tables.filePaths →
    (name, path') ∈ run.tables.filePaths → path = path'
  counts : run.stats.discovered = files.items.length ∧
    run.stats.discovered =
      run.stats.parsed + run.stats.unparseable + run.stats.fastPathSkipped

def Kept (H : Host) (givenUp : String × String → Prop) (file : String × String) : Prop :=
  (∃ tree, Substantive H file tree) ∧ ¬givenUp file

/-- No two of the files that are kept have one module name. -/
def OwnNames (H : Host) (givenUp : String × String → Prop) (items : List (String × String)) : Prop :=
  ∀ f ∈ items, ∀ g ∈ items, Kept H givenUp f → Kept H givenUp g →
    moduleName f.1 = moduleName g.1 → f = g

def keptOf : List ParseResult → List (String × String × Module)
  | [] => []
  | .parsed path name tree :: rs => (name, path, tree) :: keptOf rs
  | .failed .. :: rs | .skippedFastPath _ :: rs => keptOf rs

def failedOf : List ParseResult → List (String × String)
  | [] => []
  | .failed path error _ :: rs => (path, error) :: failedOf rs
  | .parsed .. :: rs | .skippedFastPath _ :: rs => failedOf rs

def skippedOf : List ParseResult → List String
  | [] => []
  | .skippedFastPath path :: rs => path :: skippedOf rs
  | .parsed .. :: rs | .failed .. :: rs => skippedOf rs

theorem perm_filepath (rs : List ParseResult) :
    ((keptOf rs).map (·.2.1) ++ ((failedOf rs).map Prod.fst ++ skippedOf rs)).Perm
      (rs.map ParseResult.filepath) := by
  induction rs with
  | nil => exact .refl _
  | cons r rs ih =>
    cases r with
    | parsed path name tree => exact ih.cons path
    | failed path error h => exact List.perm_middle.trans (ih.cons path)
    | skippedFastPath path =>
      rw [keptOf, failedOf, skippedOf, ← List.append_assoc]
      rw [← List.append_assoc] at ih
      exact List.perm_middle.trans (ih.cons path)

theorem foldl_merge (t : ScanTables) (rs : List ParseResult) :
    rs.foldl ScanTables.merge t =
      { modules := setItems t.modules ((keptOf rs).map fun e => (e.1, e.2.2))
        filePaths := setItems t.filePaths ((keptOf rs).map fun e => (e.1, e.2.1))
        skippedFiles := setItems t.skippedFiles (failedOf rs)
        fastPathSkipped := t.fastPathSkipped + (skippedOf rs).length } := by
  induction rs generalizing t with
  | nil => rfl
  | cons r rs ih =>
    rw [List.foldl_cons, ih]
    cases r with
    | parsed path name tree => rfl
    | failed path error h => rfl
    | skippedFastPath path =>
      simp only [ScanTables.merge, keptOf, failedOf, skippedOf, List.length_cons]
      congr 1
      omega

/-! ## What the results say of the files -/

def ResultOf (H : Host) (givenUp : String × String → Prop) (file : String × String)
    (r : ParseResult) : Prop :=
  (r = fileResult H file ∧ ¬givenUp file) ∨
    (givenUp file ∧ ∃ error h, r = .failed file.1 error h)

section Results

variable {H : Host} {givenUp : String × String → Prop} {items : List (String × String)}
  {rs : List ParseResult}

theorem ResultOf.filepath {file : String × String} {r : ParseResult} (h : ResultOf H givenUp file r) :
    r.filepath = file.1 := by
  obtain ⟨rfl, -⟩ | ⟨-, error, hne, rfl⟩ := h
  · exact filepath_fileResult H file
  · rfl

theorem map_filepath (h : List.Forall₂ (ResultOf H givenUp) items rs) :
    rs.map ParseResult.filepath = items.map Prod.fst := by
  induction h with
  | nil => rfl
  | cons hr _ ih => rw [List.map_cons, List.map_cons, hr.filepath, ih]

theorem ResultOf.kept {file : String × String} {path name : String} {tree : Module}
    (h : ResultOf H givenUp file (.parsed path name tree)) :
    Substantive H file tree ∧ ¬givenUp file ∧ path = file.1 ∧ name = moduleName file.1 := by
  obtain ⟨hr, hgiven⟩ | ⟨-, error, hne, hr⟩ := h
  · obtain ⟨htree, hpath, hname⟩ := fileResult_eq_parsed_iff.mp hr.symm
    exact ⟨htree, hgiven, hpath, hname⟩
  · cases hr

theorem ResultOf.eq_parsed {file : String × String} {r : ParseResult} (h : ResultOf H givenUp file r)
    (hkept : Kept H givenUp file) : ∃ tree, r = .parsed file.1 (moduleName file.1) tree := by
  obtain ⟨⟨tree, htree⟩, hgiven⟩ := hkept
  obtain ⟨rfl, -⟩ | ⟨hgiven', -⟩ := h
  · exact ⟨tree, fileResult_eq_parsed_iff.mpr ⟨htree, rfl, rfl⟩⟩
  · exact absurd hgiven' hgiven

theorem mem_keptOf (h : List.Forall₂ (ResultOf H givenUp) items rs) {name path : String}
    {tree : Module} (hmem : (name, path, tree) ∈ keptOf rs) : ∃ file ∈ items,
      Substantive H file tree ∧ ¬givenUp file ∧ path = file.1 ∧ name = moduleName file.1 := by
  induction h with
  | nil => exact absurd hmem List.not_mem_nil
  | @cons file r items rs hr _ ih =>
    have htail : (name, path, tree) ∈ keptOf rs → ∃ f ∈ file :: items,
        Substantive H f tree ∧ ¬givenUp f ∧ path = f.1 ∧ name = moduleName f.1 := by
      intro hmem
      obtain ⟨f, hf, hrest⟩ := ih hmem
      exact ⟨f, List.mem_cons_of_mem _ hf, hrest⟩
    cases r with
    | parsed path' name' tree' =>
      obtain heq | hmem := List.mem_cons.mp hmem
      · cases heq
        exact ⟨file, List.mem_cons_self .., hr.kept⟩
      · exact htail hmem
    | failed | skippedFastPath => exact htail hmem

theorem mem_names_iff (h : List.Forall₂ (ResultOf H givenUp) items rs) (name : String) :
    name ∈ (keptOf rs).map Prod.fst ↔ ∃ f ∈ items, Kept H givenUp f ∧ moduleName f.1 = name := by
  constructor
  · intro hmem
    obtain ⟨⟨name, path, tree⟩, hentry, rfl⟩ := List.mem_map.mp hmem
    obtain ⟨f, hf, htree, hgiven, -, hname⟩ := mem_keptOf h hentry
    exact ⟨f, hf, ⟨⟨tree, htree⟩, hgiven⟩, hname.symm⟩
  · rintro ⟨f, hf, hkept, rfl⟩
    induction h with
    | nil => exact absurd hf List.not_mem_nil
    | @cons file r items rs hr _ ih =>
      obtain rfl | hf := List.mem_cons.mp hf
      · obtain ⟨tree, rfl⟩ := hr.eq_parsed hkept
        exact List.mem_cons_self ..
      · cases r with
        | parsed => exact List.mem_cons_of_mem _ (ih hf)
        | failed | skippedFastPath => exact ih hf

theorem mem_skippedOf (h : List.Forall₂ (ResultOf H givenUp) items rs) {path : String}
    (hmem : path ∈ skippedOf rs) : ∃ source, (path, source) ∈ items ∧ ZeroRisk H (path, source) := by
  induction h with
  | nil => exact absurd hmem List.not_mem_nil
  | @cons file r items rs hr _ ih =>
    have htail : path ∈ skippedOf rs →
        ∃ source, (path, source) ∈ file :: items ∧ ZeroRisk H (path, source) := by
      intro hmem
      obtain ⟨source, hsource, hzero⟩ := ih hmem
      exact ⟨source, List.mem_cons_of_mem _ hsource, hzero⟩
    cases r with
    | skippedFastPath path' =>
      obtain rfl | hmem := List.mem_cons.mp hmem
      · have hpath : path = file.1 := hr.filepath
        obtain ⟨hresult, -⟩ | ⟨-, error, hne, hresult⟩ := hr
        · cases fileCase H file with
          | skipped hzero _ _ => exact ⟨file.2, by rw [hpath]; exact List.mem_cons_self .., hpath ▸ hzero⟩
          | kept _ _ _ hkept => rw [hkept] at hresult; cases hresult
          | failed _ _ _ hfailed => rw [hfailed] at hresult; cases hresult
        · cases hresult
      · exact htail hmem
    | parsed | failed => exact htail hmem

theorem ownNames_cons_iff {file : String × String} (hfile : file ∉ items) :
    OwnNames H givenUp (file :: items) ↔
      (Kept H givenUp file → ∀ g ∈ items, Kept H givenUp g → moduleName g.1 ≠ moduleName file.1) ∧
        OwnNames H givenUp items := by
  constructor
  · intro h
    refine ⟨fun hkept g hg hgk hname => ?_, fun f hf g hg =>
      h f (List.mem_cons_of_mem _ hf) g (List.mem_cons_of_mem _ hg)⟩
    have hsame := h g (List.mem_cons_of_mem _ hg) file (List.mem_cons_self ..) hgk hkept hname
    exact hfile (hsame ▸ hg)
  · rintro ⟨hnew, hown⟩ f hf g hg hfk hgk hname
    obtain hf' | hf' := List.mem_cons.mp hf
    · obtain hg' | hg' := List.mem_cons.mp hg
      · rw [hf', hg']
      · rw [hf'] at hfk hname
        exact absurd hname.symm (hnew hfk g hg' hgk)
    · obtain hg' | hg' := List.mem_cons.mp hg
      · rw [hg'] at hgk hname
        exact absurd hname (hnew hgk f hf' hfk)
      · exact hown f hf' g hg' hfk hgk hname

theorem nodup_names_iff (h : List.Forall₂ (ResultOf H givenUp) items rs) (hitems : items.Nodup) :
    ((keptOf rs).map Prod.fst).Nodup ↔ OwnNames H givenUp items := by
  induction h with
  | nil => exact ⟨fun _ f hf => absurd hf List.not_mem_nil, fun _ => List.nodup_nil⟩
  | @cons file r items rs hr htail ih =>
    rw [List.nodup_cons] at hitems
    rw [ownNames_cons_iff hitems.1, ← ih hitems.2]
    by_cases hkept : Kept H givenUp file
    · obtain ⟨tree, rfl⟩ := hr.eq_parsed hkept
      rw [keptOf, List.map_cons, List.nodup_cons, mem_names_iff htail]
      refine and_congr_left fun _ => ⟨fun hnew _ g hg hgk hname => hnew ⟨g, hg, hgk, hname⟩, ?_⟩
      rintro hnew ⟨g, hg, hgk, hname⟩
      exact hnew hkept g hg hgk hname
    · have hdrop : keptOf (r :: rs) = keptOf rs := by
        cases r with
        | parsed =>
          obtain ⟨htree, hgiven, -⟩ := hr.kept
          exact absurd ⟨⟨_, htree⟩, hgiven⟩ hkept
        | failed | skippedFastPath => rfl
      rw [hdrop]
      exact ⟨fun h => ⟨fun hk => absurd hk hkept, h⟩, fun h => h.2⟩

structure MergedRun (H : Host) (givenUp : String × String → Prop) (files : Dict String)
    (rs : List ParseResult) (run : ParseRun) : Prop where
  results : List.Forall₂ (ResultOf H givenUp) files.items rs
  tables : run.tables = rs.foldl ScanTables.merge {}
  discovered : run.stats.discovered = files.items.length
  parsed : run.stats.parsed = run.tables.modules.length
  unparseable : run.stats.unparseable = run.tables.skippedFiles.length
  fastPathSkipped : run.stats.fastPathSkipped = run.tables.fastPathSkipped

variable {files : Dict String} {run : ParseRun}

theorem MergedRun.perm (h : MergedRun H givenUp files rs run) :
    ((keptOf rs).map (·.2.1) ++ ((failedOf rs).map Prod.fst ++ skippedOf rs)).Perm
      (files.items.map Prod.fst) := by
  rw [← map_filepath h.results]
  exact perm_filepath rs

theorem MergedRun.skippedFiles (h : MergedRun H givenUp files rs run) :
    run.tables.skippedFiles = failedOf rs := by
  have hall := h.perm.nodup_iff.mpr (nodup_keys files)
  have hfailed : ((failedOf rs).map Prod.fst).Nodup :=
    (List.nodup_append.mp hall).2.1.sublist (List.sublist_append_left ..)
  rw [h.tables, foldl_merge]
  exact setItems_of_nodup (d := []) hfailed

theorem MergedRun.fastPath (h : MergedRun H givenUp files rs run) :
    run.stats.fastPathSkipped = (skippedOf rs).length := by
  rw [h.fastPathSkipped, h.tables, foldl_merge]
  exact Nat.zero_add _

theorem MergedRun.parsed_eq_iff (h : MergedRun H givenUp files rs run) :
    run.stats.parsed = (keptOf rs).length ↔ ((keptOf rs).map Prod.fst).Nodup := by
  have hlen : (setItems [] ((keptOf rs).map fun e => (e.1, e.2.2))).length = _ ↔ _ :=
    length_setItems_eq_iff List.nodup_nil
  rw [List.length_nil, Nat.zero_add, List.length_map, List.nil_append, List.map_map] at hlen
  rw [h.parsed, h.tables, foldl_merge]
  exact hlen

theorem MergedRun.counts_iff (h : MergedRun H givenUp files rs run) :
    run.stats.discovered =
        run.stats.parsed + run.stats.unparseable + run.stats.fastPathSkipped ↔
      run.stats.parsed = (keptOf rs).length := by
  have hlen := h.perm.length_eq
  simp only [List.length_append, List.length_map] at hlen
  rw [h.discovered, h.unparseable, h.skippedFiles, h.fastPath]
  omega

theorem MergedRun.accounts_iff (h : MergedRun H givenUp files rs run) :
    AccountsForAll H files run ↔ OwnNames H givenUp files.items := by
  rw [← nodup_names_iff h.results (nodup_keys files).of_map]
  constructor
  · intro hacc
    exact h.parsed_eq_iff.mp (h.counts_iff.mp hacc.counts.2)
  · intro hnames
    have hmodules : run.tables.modules = (keptOf rs).map fun e => (e.1, e.2.2) := by
      rw [h.tables, foldl_merge]
      apply setItems_of_nodup (d := [])
      rwa [List.nil_append, List.map_map]
    have hpaths : run.tables.filePaths = (keptOf rs).map fun e => (e.1, e.2.1) := by
      rw [h.tables, foldl_merge]
      apply setItems_of_nodup (d := [])
      rwa [List.nil_append, List.map_map]
    refine ⟨⟨skippedOf rs, h.fastPath.symm, fun path => mem_skippedOf h.results, ?_⟩, ?_, ?_,
      h.discovered, h.counts_iff.mpr (h.parsed_eq_iff.mpr hnames)⟩
    · rw [hpaths, h.skippedFiles, List.map_map]
      exact h.perm
    · intro name path hmem
      rw [hpaths] at hmem
      obtain ⟨⟨name, path, tree⟩, hentry, heq⟩ := List.mem_map.mp hmem
      cases heq
      obtain ⟨file, hfile, htree, -, rfl, -⟩ := mem_keptOf h.results hentry
      refine ⟨file.2, tree, hfile, htree.2.1, ?_⟩
      rw [hmodules]
      apply lookup_of_mem
      · rwa [List.map_map]
      · exact List.mem_map_of_mem (f := fun e => (e.1, e.2.2)) hentry
    · intro name path path' hmem hmem'
      have hkeys : (run.tables.filePaths.map Prod.fst).Nodup := by
        rw [hpaths, List.map_map]
        exact hnames
      have hlookup := lookup_of_mem hkeys hmem
      rw [lookup_of_mem hkeys hmem'] at hlookup
      exact (Option.some.inj hlookup).symm

end Results

/-! ## The results of the three forms -/

theorem forall₂_imp_of_mem {α β : Type} {R S : α → β → Prop} {as : List α} {bs : List β}
    (h : List.Forall₂ R as bs) (himp : ∀ a ∈ as, ∀ b, R a b → S a b) : List.Forall₂ S as bs := by
  induction h with
  | nil => exact .nil
  | cons hab _ ih =>
    exact .cons (himp _ (List.mem_cons_self ..) _ hab)
      (ih fun a ha => himp a (List.mem_cons_of_mem _ ha))

theorem forall₂_mapIdx {α β : Type} {R : α → β → Prop} {as : List α} {f : ℕ → α → β}
    (h : ∀ a ∈ as, ∀ i, R a (f i a)) : List.Forall₂ R as (as.mapIdx f) := by
  induction as generalizing f with
  | nil => exact .nil
  | cons a as ih =>
    rw [List.mapIdx_cons]
    exact .cons (h a (List.mem_cons_self ..) 0)
      (ih fun a ha i => h a (List.mem_cons_of_mem _ ha) (i + 1))

/-- The parent gives no file up. -/
def NeverGivenUp (_ : String × String) : Prop := False

theorem forall₂_fileResult (H : Host) (items : List (String × String)) :
    List.Forall₂ (ResultOf H NeverGivenUp) items (items.map (fileResult H)) := by
  rw [List.forall₂_map_right_iff, List.forall₂_same]
  exact fun _ _ => .inl ⟨rfl, not_false⟩

/-- Among the slices from `k` on, the file is in one that is parsed by workers, and its worker does not
end in time. -/
def GivenUpFrom (M : Machine) (maxWorkers : ℤ) (k : ℕ) (batches : List (List (String × String)))
    (file : String × String) : Prop :=
  ∃ i batch, batches[i]? = some batch ∧ file ∈ batch ∧ OnPool M maxWorkers (k + i) ∧
    M.look file.1 = .stuck

theorem givenUpFrom_head_iff (M : Machine) (maxWorkers : ℤ) (k : ℕ) {batch : List (String × String)}
    {rest : List (List (String × String))} {file : String × String} (hmem : file ∈ batch)
    (hrest : file ∉ rest.flatten) :
    GivenUpFrom M maxWorkers k (batch :: rest) file ↔
      OnPool M maxWorkers k ∧ M.look file.1 = .stuck := by
  constructor
  · rintro ⟨i, batch', hi, hfile, hpool, hstuck⟩
    cases i with
    | zero => exact ⟨hpool, hstuck⟩
    | succ i =>
      rw [List.getElem?_cons_succ] at hi
      exact absurd (List.mem_flatten.mpr ⟨batch', List.mem_of_getElem? hi, hfile⟩) hrest
  · rintro ⟨hpool, hstuck⟩
    exact ⟨0, batch, rfl, hmem, hpool, hstuck⟩

theorem givenUpFrom_tail_iff (M : Machine) (maxWorkers : ℤ) (k : ℕ) {batch : List (String × String)}
    (rest : List (List (String × String))) {file : String × String} (hmem : file ∉ batch) :
    GivenUpFrom M maxWorkers k (batch :: rest) file ↔
      GivenUpFrom M maxWorkers (k + 1) rest file := by
  constructor
  · rintro ⟨i, batch', hi, hfile, hpool, hstuck⟩
    cases i with
    | zero =>
      cases hi
      exact absurd hfile hmem
    | succ i =>
      have hshift : k + (i + 1) = k + 1 + i := by omega
      rw [hshift] at hpool
      exact ⟨i, batch', hi, hfile, hpool, hstuck⟩
  · rintro ⟨i, batch', hi, hfile, hpool, hstuck⟩
    have hshift : k + 1 + i = k + (i + 1) := by omega
    rw [hshift] at hpool
    exact ⟨i + 1, batch', hi, hfile, hpool, hstuck⟩

theorem forall₂_sliceResults (M : Machine) (H : Host) (maxWorkers : ℤ) (k : ℕ)
    (batch : List (String × String)) :
    List.Forall₂ (ResultOf H fun file => OnPool M maxWorkers k ∧ M.look file.1 = .stuck) batch
      (sliceResults M H maxWorkers k batch) := by
  rw [sliceResults]
  by_cases hparent : (fleetBefore M maxWorkers (k + 1)).inProcess = true
  · rw [if_pos hparent, List.forall₂_map_right_iff, List.forall₂_same]
    refine fun file _ => .inl ⟨rfl, fun hgiven => ?_⟩
    rw [OnPool, hparent] at hgiven
    cases hgiven.1
  · rw [if_neg hparent]
    refine forall₂_mapIdx fun file _ i => ?_
    by_cases hstuck : M.look file.1 = .stuck
    · exact .inr ⟨⟨Bool.eq_false_of_not_eq_true hparent, hstuck⟩, _, _, collected_of_stuck hstuck ..⟩
    · exact .inl ⟨collected_of_not_stuck hstuck .., fun hgiven => hstuck hgiven.2⟩

theorem forall₂_runResults (M : Machine) (H : Host) (maxWorkers : ℤ) (k : ℕ)
    {batches : List (List (String × String))} (h : batches.flatten.Nodup) :
    List.Forall₂ (ResultOf H (GivenUpFrom M maxWorkers k batches)) batches.flatten
      (runResults M H maxWorkers k batches) := by
  induction batches generalizing k with
  | nil => exact .nil
  | cons batch rest ih =>
    rw [List.flatten_cons] at h ⊢
    have hdisjoint := List.disjoint_of_nodup_append h
    refine List.rel_append (forall₂_imp_of_mem (forall₂_sliceResults M H maxWorkers k batch) ?_)
      (forall₂_imp_of_mem (ih (k + 1) (List.nodup_append.mp h).2.1) ?_)
    · intro file hfile r hr
      have hgiven := givenUpFrom_head_iff M maxWorkers k hfile fun hrest => hdisjoint hfile hrest
      rwa [ResultOf, hgiven]
    · intro file hfile r hr
      have hgiven := givenUpFrom_tail_iff M maxWorkers k rest fun hbatch => hdisjoint hbatch hfile
      rwa [ResultOf, hgiven]

/-! ## When the stage loses no file -/

/-- The run ends with tables: the sequential form filters what the parser raises, and no slice is handed
to a pool that has lost a worker. -/
def RunsThrough (M : Machine) (H : Host) (files : Dict String) (maxWorkers : ℤ) : Prop :=
  if files.items.length ≤ batchSize then ∀ file ∈ files.items, Filtered H file
  else 1 < maxWorkers → PoolsHold M maxWorkers (slices files.items)

/-- The file is handed to a worker that does not end in time. -/
def GivenUp (M : Machine) (files : Dict String) (maxWorkers : ℤ) (file : String × String) : Prop :=
  batchSize < files.items.length ∧ 1 < maxWorkers ∧
    GivenUpFrom M maxWorkers 0 (slices files.items) file

theorem mergedRun_sequential {H : Host} {files : Dict String}
    (h : ∀ file ∈ files.items, Filtered H file) : ∃ run,
      parseFilesSequential H files = .ok run ∧
        MergedRun H NeverGivenUp files (files.items.map (fileResult H)) run := by
  refine ⟨_, parseFilesSequential_eq h, ?_⟩
  exact ⟨forall₂_fileResult H files.items, rfl, rfl, rfl, rfl, rfl⟩

theorem resultOf_congr {H : Host} {p q : String × String → Prop} (h : ∀ file, p file ↔ q file) :
    ResultOf H p = ResultOf H q := by
  rw [funext fun file => propext (h file)]

theorem mergedRun_parallel {M : Machine} {H : Host} {files : Dict String} {maxWorkers : Option ℤ}
    (h : RunsThrough M H files (maxWorkers.getD (computeSafeWorkers M))) : ∃ rs run,
      parseFilesParallel M H files maxWorkers = .ok run ∧
        MergedRun H (GivenUp M files (maxWorkers.getD (computeSafeWorkers M))) files rs run := by
  rw [RunsThrough] at h
  rw [parseFilesParallel]
  by_cases hsmall : files.items.length ≤ batchSize
  · rw [if_pos hsmall] at h
    obtain ⟨run, hrun, hmerged⟩ := mergedRun_sequential h
    refine ⟨_, run, by simp only [if_pos hsmall]; exact hrun, { hmerged with results := ?_ }⟩
    rw [resultOf_congr fun file => iff_false_intro fun hgiven => absurd hgiven.1 hsmall.not_gt]
    exact forall₂_fileResult H files.items
  · rw [if_neg hsmall] at h
    by_cases hone : maxWorkers.getD (computeSafeWorkers M) ≤ 1
    · refine ⟨files.items.map (fileResult H), _, by simp only [if_neg hsmall, if_pos hone]; rfl, ?_⟩
      refine ⟨?_, inProcessBranch_eq H files, rfl, rfl, rfl, rfl⟩
      rw [resultOf_congr fun file => iff_false_intro fun hgiven => absurd hgiven.2.1 hone.not_gt]
      exact forall₂_fileResult H files.items
    · obtain ⟨s, hs⟩ := poolBranch_eq (h (lt_of_not_ge hone)) H
      refine ⟨_, _, by simp only [if_neg hsmall, if_neg hone, hs]; rfl, ?_, rfl, rfl, rfl, rfl, rfl⟩
      have hnodup : (slices files.items).flatten.Nodup := by
        rw [flatten_slices]
        exact (nodup_keys files).of_map
      have hresults := forall₂_runResults M H (maxWorkers.getD (computeSafeWorkers M)) 0 hnodup
      rw [flatten_slices] at hresults
      have hgiven : ∀ file, GivenUp M files (maxWorkers.getD (computeSafeWorkers M)) file ↔
          GivenUpFrom M (maxWorkers.getD (computeSafeWorkers M)) 0 (slices files.items) file := by
        intro file
        rw [GivenUp, and_iff_right (lt_of_not_ge hsmall), and_iff_right (lt_of_not_ge hone)]
      rwa [resultOf_congr hgiven]

theorem runsThrough_of_parseFilesParallel {M : Machine} {H : Host} {files : Dict String}
    {maxWorkers : Option ℤ} {run : ParseRun}
    (h : parseFilesParallel M H files maxWorkers = .ok run) :
    RunsThrough M H files (maxWorkers.getD (computeSafeWorkers M)) := by
  rw [RunsThrough]
  rw [parseFilesParallel] at h
  by_cases hsmall : files.items.length ≤ batchSize
  · simp only [if_pos hsmall] at h ⊢
    exact (parseFilesSequential_returns_iff H files).mp ⟨run, h⟩
  · rw [if_neg hsmall]
    intro hone
    simp only [if_neg hsmall, if_neg hone.not_ge] at h
    apply (poolBranch_returns_iff M H _ files).mp
    cases hpool : poolBranch M H files (maxWorkers.getD (computeSafeWorkers M)) with
    | error e =>
      rw [hpool] at h
      cases h
    | ok r => exact ⟨r, rfl⟩

/-- Either form ends and accounts for all its files exactly when it runs through and the files it keeps
have different module names. -/
theorem accountsForAll_iff (M : Machine) (H : Host) (files : Dict String) (maxWorkers : Option ℤ) :
    ((∃ run, parseFilesSequential H files = .ok run ∧ AccountsForAll H files run) ↔
      (∀ file ∈ files.items, Filtered H file) ∧ OwnNames H NeverGivenUp files.items) ∧
    ((∃ run, parseFilesParallel M H files maxWorkers = .ok run ∧ AccountsForAll H files run) ↔
      RunsThrough M H files (maxWorkers.getD (computeSafeWorkers M)) ∧
        OwnNames H (GivenUp M files (maxWorkers.getD (computeSafeWorkers M))) files.items) := by
  refine ⟨⟨?_, ?_⟩, ⟨?_, ?_⟩⟩
  · rintro ⟨run, hrun, hacc⟩
    have hfiltered := (parseFilesSequential_returns_iff H files).mp ⟨run, hrun⟩
    obtain ⟨run', hrun', hmerged⟩ := mergedRun_sequential hfiltered
    cases hrun.symm.trans hrun'
    exact ⟨hfiltered, hmerged.accounts_iff.mp hacc⟩
  · rintro ⟨hfiltered, hnames⟩
    obtain ⟨run, hrun, hmerged⟩ := mergedRun_sequential hfiltered
    exact ⟨run, hrun, hmerged.accounts_iff.mpr hnames⟩
  · rintro ⟨run, hrun, hacc⟩
    have hthrough := runsThrough_of_parseFilesParallel hrun
    obtain ⟨rs, run', hrun', hmerged⟩ := mergedRun_parallel hthrough
    cases hrun.symm.trans hrun'
    exact ⟨hthrough, hmerged.accounts_iff.mp hacc⟩
  · rintro ⟨hthrough, hnames⟩
    obtain ⟨rs, run, hrun, hmerged⟩ := mergedRun_parallel hthrough
    exact ⟨run, hrun, hmerged.accounts_iff.mpr hnames⟩

/-- `pkg.py` and `pkg/__init__.py` in one tree. -/
def moduleAndPackage : Dict String :=
  ⟨[⟨"pkg.py", "x = 1"⟩, ⟨"pkg/__init__.py", "x = 1"⟩],
    (by decide : ["pkg.py", "pkg/__init__.py"].Nodup)⟩

/-- Both files are parsed, one module is left, and the first path is nowhere. -/
theorem accountsForAll_fails_on_module_and_package :
    ∃ run, parseFilesSequential plainHost moduleAndPackage = .ok run ∧
      run.tables.filePaths = [("pkg", "pkg/__init__.py")] ∧ run.tables.skippedFiles = [] ∧
      run.stats.discovered = 2 ∧ run.stats.parsed = 1 ∧ run.stats.unparseable = 0 ∧
      run.stats.fastPathSkipped = 0 ∧ ¬AccountsForAll plainHost moduleAndPackage run := by
  refine ⟨_, rfl, by decide, by decide, by decide, by decide, by decide, by decide, ?_⟩
  intro hacc
  exact absurd hacc.counts.2 (by decide)

end TimeCodeSecurity.Parsing
