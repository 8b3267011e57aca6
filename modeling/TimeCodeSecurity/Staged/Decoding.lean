import TimeCodeSecurity.Staged.Changes

/-! # When the staged changes are decoded exactly

A path is exact when it is UTF-8 and has no backslash. The loop keeps in step with the records unless one is a copy,
whose second path it takes for a status, and it skips the records of changed types.
-/
namespace TimeCodeSecurity.Staged
open Pep440 (isSpace strip)
set_option autoImplicit false

def Path.exact (p : Path) : Option Text := (Utf8.decode p.octets).map (·.map Char.ofNat)

def Path.isPython (p : Path) : Bool := [46, 112, 121].isSuffixOf p.octets

def Record.presentPath : Record → Option Path
  | .single .added p | .single .modified p | .single .typeChanged p | .pair _ _ _ p => some p
  | .single .deleted _ | .single .unmerged _ | .single .unknown _ => none

def Record.pythonPath (r : Record) : Option Path := r.presentPath.filter (·.isPython)

def Record.deletedPath : Record → Option Path
  | .single .deleted p => some p
  | _ => none

def Record.renamedPaths : Record → Option (Path × Path)
  | .pair .renamed _ old new => some (old, new)
  | _ => none

def Record.isCopy : Record → Bool
  | .pair .copied _ _ _ => true
  | _ => false

def starts : ℕ → List Record → List ℕ
  | n, [] => [n]
  | n, r :: rs => n :: starts (n + r.tokens.length) rs

/-- The loop has a turn for each record and the lists are those of the records. -/
structure DecodedExactly (records : List Record) (result : Lists × List ℕ) : Prop where
  aligned : result.2 = starts 0 records
  python : (result.1.stagedPy.map some).Perm ((records.filterMap Record.pythonPath).map Path.exact)
  deleted : (result.1.stagedD.map some).Perm ((records.filterMap Record.deletedPath).map Path.exact)
  renamed : (result.1.stagedR.map fun p => (some p.1, some p.2)).Perm
    ((records.filterMap Record.renamedPaths).map fun p => (p.1.exact, p.2.exact))
  others : ∀ text ∈ result.1.nonPy,
    ∃ p ∈ records.filterMap Record.presentPath, p.isPython = false ∧ p.exact = some text

def Path.Plain (p : Path) : Prop := ∃ text, p.exact = some text ∧ '\\' ∉ text

def Record.listedPath : Record → Option Path
  | .single .added p | .single .modified p | .pair .renamed _ _ p => some p
  | _ => none

/-- No copies, no type changes of Python files, and every listed path is plain; a path that is not Python's may
also be read as the text of another such path. -/
structure Decodable (records : List Record) : Prop where
  noCopy : ∀ r ∈ records, r.isCopy = false
  noTypeChange : ∀ p, Record.single .typeChanged p ∈ records → p.isPython = false
  python : ∀ p ∈ records.filterMap Record.pythonPath, p.Plain
  deleted : ∀ p ∈ records.filterMap Record.deletedPath, p.Plain
  renamed : ∀ p ∈ records.filterMap Record.renamedPaths, p.1.Plain ∧ p.2.Plain
  others : ∀ p ∈ records.filterMap Record.listedPath, p.isPython = false →
    ∃ q ∈ records.filterMap Record.presentPath, q.isPython = false ∧ q.exact = some (reading p.octets)

theorem not_mem_slashed (text : Text) : '\\' ∉ slashed text := by
  intro h
  obtain ⟨c, -, hc⟩ := List.mem_map.mp h
  split at hc
  · exact absurd hc (by decide)
  next hne => exact hne hc

theorem slashed_of_not_mem {text : Text} (h : '\\' ∉ text) : slashed text = text := by
  refine (List.map_congr_left fun c hc => ?_).trans (List.map_id text)
  rw [if_neg]
  · rfl
  · rintro rfl
    exact h hc

theorem plain_iff {p : Path} : p.Plain ↔ p.exact = some (reading p.octets) := by
  constructor
  · rintro ⟨text, htext, hback⟩
    rw [Path.exact] at htext
    obtain ⟨points, hpoints, rfl⟩ := Option.map_eq_some_iff.mp htext
    rw [Path.exact, hpoints, reading, decoded, Utf8.decodeReplace_of_decode hpoints, slashed_of_not_mem hback]
    rfl
  · exact fun h => ⟨_, h, not_mem_slashed _⟩

theorem eq_of_ofNat {n : ℕ} {c : Char} (h : Char.ofNat n = c) (hc : c ≠ '\x00') : n = c.toNat := by
  subst h
  by_cases hvalid : n.isValidChar
  · have hchar : Char.ofNat n = Char.ofNatAux n hvalid := dif_pos hvalid
    rw [hchar]
    rfl
  · exact absurd (dif_neg hvalid) hc

theorem eq_of_slashed_ofNat {n : ℕ} {c : Char} (h : (if Char.ofNat n = '\\' then '/' else Char.ofNat n) = c)
    (hslash : c ≠ '/') (hc : c ≠ '\x00') : n = c.toNat := by
  split at h
  · exact absurd h.symm hslash
  · exact eq_of_ofNat h hc

theorem isPythonText_reading (p : Path) : isPythonText (reading p.octets) = p.isPython := by
  rw [Bool.eq_iff_iff, isPythonText, Path.isPython, List.isSuffixOf_iff_suffix, List.isSuffixOf_iff_suffix,
    ← @Utf8.suffix_decodeReplace_iff _ p.octets (by decide), reading, slashed, decoded, List.map_map,
    List.suffix_map_iff]
  constructor
  · rintro ⟨tail, htail, heq⟩
    have hlen : tail.length = 3 := by
      have h := congrArg List.length heq
      rw [List.length_map] at h
      exact h.symm
    obtain ⟨a, b, c, rfl⟩ := List.length_eq_three.mp hlen
    simp only [List.map_cons, List.map_nil, List.cons.injEq, Function.comp_apply] at heq
    rw [eq_of_slashed_ofNat heq.1.symm (by decide) (by decide),
      eq_of_slashed_ofNat heq.2.1.symm (by decide) (by decide),
      eq_of_slashed_ofNat heq.2.2.1.symm (by decide) (by decide)] at htail
    exact htail
  · exact fun h => ⟨_, h, by decide⟩

/-! ## The loop on records -/

section

variable {idx : ℕ} {lists : Lists} {rest : List Bytes}

theorem strip_decoded_letter {letter : ℕ} (hascii : letter < 0x80) (hletter : isSpace (Char.ofNat letter) = false)
    (digits : Bytes) : ∃ tail, strip (decoded (letter :: digits)) = Char.ofNat letter :: tail := by
  have hdecoded : decoded (letter :: digits) = Char.ofNat letter :: decoded digits := by
    rw [decoded, Utf8.decodeReplace, Utf8.decodeFrom_cons_ascii hascii]
    rfl
  rw [hdecoded, strip, List.dropWhile_cons_of_neg (Bool.eq_false_iff.mp hletter)]
  have hpre : (Char.ofNat letter :: decoded digits).rdropWhile isSpace <+: _ := List.rdropWhile_prefix isSpace _
  cases hdrop : (Char.ofNat letter :: decoded digits).rdropWhile isSpace with
  | nil =>
    have hall := List.rdropWhile_eq_nil_iff.mp hdrop (Char.ofNat letter) List.mem_cons_self
    rw [hall] at hletter
    cases hletter
  | cons c cs =>
    rw [hdrop] at hpre
    obtain ⟨w, hw⟩ := hpre
    rw [← (List.cons.inj hw).1]
    exact ⟨cs, rfl⟩

def Lists.addRecord (lists : Lists) : Record → Lists
  | .single .added p | .single .modified p => lists.addPresent (reading p.octets)
  | .single .deleted p => lists.addDeleted (reading p.octets)
  | .single _ _ => lists
  | .pair .renamed _ old new => lists.addRenamed (reading old.octets) (reading new.octets)
  | .pair .copied _ old _ => lists.addPresent (reading old.octets)

theorem loop_record {r : Record} (h : r.isCopy = false) :
    loop idx lists (r.tokens ++ rest) = turn idx (loop (idx + r.tokens.length) (lists.addRecord r) rest) := by
  cases r with
  | single status p =>
    obtain ⟨tail, hstatus⟩ : ∃ tail, strip (decoded [status.letter]) = Char.ofNat status.letter :: tail := by
      apply strip_decoded_letter <;> cases status <;> decide
    show loop idx lists ([status.letter] :: p.octets :: rest) = _
    rw [loop]
    simp only [hstatus]
    cases status <;> rfl
  | pair status score old new =>
    cases status with
    | copied => cases h
    | renamed =>
      obtain ⟨tail, hstatus⟩ := @strip_decoded_letter 82 (by decide) (by decide) (scoreDigits score)
      show loop idx lists ((82 :: scoreDigits score) :: old.octets :: new.octets :: rest) = _
      rw [loop]
      simp only [hstatus]
      rfl

theorem loop_copy {score : Fin 101} {old new : Path} :
    loop idx lists ((Record.pair .copied score old new).tokens ++ rest) =
      turn idx (loop (idx + 2) (lists.addPresent (reading old.octets)) (new.octets :: rest)) := by
  obtain ⟨tail, hstatus⟩ := @strip_decoded_letter 67 (by decide) (by decide) (scoreDigits score)
  show loop idx lists ((67 :: scoreDigits score) :: old.octets :: new.octets :: rest) = _
  rw [loop]
  simp only [hstatus]
  rfl

theorem turns_cons (idx : ℕ) (lists : Lists) (part : Bytes) (rest : List Bytes) :
    ∃ later, (loop idx lists (part :: rest)).2 = idx :: later := by
  rw [loop.eq_def]
  exact ⟨_, rfl⟩

theorem loop_records {records : List Record} (h : ∀ r ∈ records, r.isCopy = false) :
    loop idx lists (records.flatMap Record.tokens ++ [[]]) =
      (records.foldl Lists.addRecord lists, starts idx records) := by
  induction records generalizing idx lists with
  | nil => rfl
  | cons r rs ih =>
    rw [List.flatMap_cons, List.append_assoc, loop_record (h r List.mem_cons_self),
      ih fun r' hr' => h r' (List.mem_cons_of_mem _ hr')]
    rfl

theorem noCopy_of_aligned {records : List Record}
    (h : (loop idx lists (records.flatMap Record.tokens ++ [[]])).2 = starts idx records) :
    ∀ r ∈ records, r.isCopy = false := by
  induction records generalizing idx lists with
  | nil => exact fun r hr => by cases hr
  | cons r rs ih =>
    rw [List.flatMap_cons, List.append_assoc] at h
    cases hcopy : r.isCopy with
    | false =>
      rw [loop_record hcopy] at h
      exact List.forall_mem_cons.mpr ⟨hcopy, ih (List.cons.inj h).2⟩
    | true =>
      rcases r with _ | ⟨_ | _, score, old, new⟩
      · cases hcopy
      · cases hcopy
      · rw [loop_copy] at h
        obtain ⟨later, hlater⟩ := turns_cons (idx + 2) (lists.addPresent (reading old.octets)) new.octets
          (rs.flatMap Record.tokens ++ [[]])
        have htail : (idx + 2) :: later = starts (idx + 3) rs := hlater ▸ (List.cons.inj h).2
        cases rs with
        | nil => exact absurd (List.cons.inj htail).1 (by omega)
        | cons r' rs => exact absurd (List.cons.inj htail).1 (by omega)

end

section

def Record.listedPython (r : Record) : Option Path := r.listedPath.filter (·.isPython)

def Record.listedOther (r : Record) : Option Path := r.listedPath.filter (!·.isPython)

def readings (paths : List Path) : List Text := paths.map fun p => reading p.octets

theorem addPresent_eq (lists : Lists) (p : Path) : lists.addPresent (reading p.octets) =
    { lists with
      stagedPy := lists.stagedPy ++ readings (if p.isPython then [p] else [])
      nonPy := lists.nonPy ++ readings (if p.isPython then [] else [p]) } := by
  rw [Lists.addPresent, isPythonText_reading]
  cases p.isPython <;> simp [readings]

theorem addRecord_eq (lists : Lists) {r : Record} (h : r.isCopy = false) : lists.addRecord r =
    { stagedPy := lists.stagedPy ++ readings r.listedPython.toList
      stagedD := lists.stagedD ++ readings r.deletedPath.toList
      stagedR := lists.stagedR ++ r.renamedPaths.toList.map fun p => (reading p.1.octets, reading p.2.octets)
      nonPy := lists.nonPy ++ readings r.listedOther.toList } := by
  have hpresent : ∀ p : Path, (if p.isPython then [p] else []) = ((some p).filter (·.isPython)).toList ∧
      (if p.isPython then [] else [p]) = ((some p).filter (!·.isPython)).toList := by
    intro p
    cases hp : p.isPython <;> simp [Option.filter, hp]
  cases r with
  | single status p =>
    cases status with
    | added | modified =>
      simp [Lists.addRecord, addPresent_eq, Record.listedPython, Record.listedOther, Record.listedPath, hpresent,
        Record.deletedPath, Record.renamedPaths, readings]
    | deleted =>
      simp [Lists.addRecord, Lists.addDeleted, Record.listedPython, Record.listedOther, Record.listedPath,
        Record.deletedPath, Record.renamedPaths, readings]
    | typeChanged | unmerged | unknown =>
      simp [Lists.addRecord, Record.listedPython, Record.listedOther, Record.listedPath, Record.deletedPath,
        Record.renamedPaths, readings]
  | pair status score old new =>
    cases status with
    | renamed =>
      simp [Lists.addRecord, Lists.addRenamed, addPresent_eq, Record.listedPython, Record.listedOther,
        Record.listedPath, hpresent, Record.deletedPath, Record.renamedPaths, readings]
    | copied => cases h

theorem foldl_addRecord (lists : Lists) {records : List Record} (h : ∀ r ∈ records, r.isCopy = false) :
    records.foldl Lists.addRecord lists =
    { stagedPy := lists.stagedPy ++ readings (records.filterMap Record.listedPython)
      stagedD := lists.stagedD ++ readings (records.filterMap Record.deletedPath)
      stagedR := lists.stagedR ++
        (records.filterMap Record.renamedPaths).map fun p => (reading p.1.octets, reading p.2.octets)
      nonPy := lists.nonPy ++ readings (records.filterMap Record.listedOther) } := by
  have hcons : ∀ {α : Type} (f : Record → Option α) (r : Record) (rs : List Record),
      (r :: rs).filterMap f = (f r).toList ++ rs.filterMap f := by
    intro α f r rs
    cases hf : f r <;> simp [hf]
  induction records generalizing lists with
  | nil => simp [readings]
  | cons r rs ih =>
    rw [List.foldl_cons, ih _ fun r' hr' => h r' (List.mem_cons_of_mem _ hr'),
      addRecord_eq lists (h r List.mem_cons_self)]
    simp only [hcons, readings, List.map_append, List.append_assoc]

end

section

theorem flatMap_concat_eq_intercalate (ts : List Bytes) : ts.flatMap (· ++ [0]) = [0].intercalate (ts ++ [[]]) := by
  induction ts with
  | nil => rfl
  | cons t ts ih =>
    have hstep : [0].intercalate (t :: (ts ++ [[]])) = t ++ [0] ++ [0].intercalate (ts ++ [[]]) := by
      cases ts <;> simp [List.intercalate, List.intersperse]
    rw [List.flatMap_cons, ih, List.cons_append, hstep]

theorem not_mem_token {r : Record} {token : Bytes} (h : token ∈ r.tokens) : 0 ∉ token := by
  have hpath : ∀ p : Path, 0 ∉ p.octets := fun p hp => absurd (p.bounded 0 hp).1 (lt_irrefl 0)
  rcases r with ⟨status, p⟩ | ⟨status, score, old, new⟩
  · simp only [Record.tokens, List.mem_cons, List.not_mem_nil, or_false] at h
    rcases h with rfl | rfl
    · cases status <;> decide
    · exact hpath p
  · simp only [Record.tokens, List.mem_cons, List.not_mem_nil, or_false] at h
    rcases h with rfl | rfl | rfl
    · have hletter : 0 < status.letter := by cases status <;> decide
      simp only [scoreDigits, List.mem_cons, List.not_mem_nil, or_false]
      omega
    · exact hpath old
    · exact hpath new

theorem splitOn_emitted (records : List Record) :
    (emitted records).splitOn 0 = records.flatMap Record.tokens ++ [[]] := by
  rw [emitted, flatMap_concat_eq_intercalate]
  refine List.splitOn_intercalate 0 (fun token htoken => ?_) (by simp)
  rcases List.mem_append.mp htoken with htoken | htoken
  · obtain ⟨r, -, hr⟩ := List.mem_flatMap.mp htoken
    exact not_mem_token hr
  · rw [List.mem_singleton.mp htoken]
    exact List.not_mem_nil

end

/-! ## The lists and the records -/

section

theorem perm_map_iff {α δ : Type} (put : α → δ) {want : α → δ} (h : ∀ a b, want a = put b → want a = put a)
    {listed present : List α} (hsub : listed.Sublist present) :
    (listed.map put).Perm (present.map want) ↔ listed = present ∧ ∀ a ∈ present, want a = put a := by
  constructor
  · intro hperm
    have hlen := hperm.length_eq
    rw [List.length_map, List.length_map] at hlen
    refine ⟨hsub.eq_of_length hlen, fun a ha => ?_⟩
    obtain ⟨b, -, hb⟩ := List.mem_map.mp (hperm.mem_iff.mpr (List.mem_map_of_mem ha))
    exact h a b hb.symm
  · rintro ⟨rfl, hwant⟩
    rw [List.map_congr_left hwant]

theorem filterMap_sublist {α β : Type} {f g : α → Option β} (h : ∀ a, f a = none ∨ f a = g a) (l : List α) :
    (l.filterMap f).Sublist (l.filterMap g) := by
  induction l with
  | nil => exact List.Sublist.refl _
  | cons a l ih =>
    rcases h a with hnone | hsame
    · rw [List.filterMap_cons_none hnone]
      cases hg : g a with
      | none =>
        rw [List.filterMap_cons_none hg]
        exact ih
      | some b =>
        rw [List.filterMap_cons_some hg]
        exact ih.cons b
    · cases hg : g a with
      | none =>
        rw [List.filterMap_cons_none (hsame.trans hg), List.filterMap_cons_none hg]
        exact ih
      | some b =>
        rw [List.filterMap_cons_some (hsame.trans hg), List.filterMap_cons_some hg]
        exact ih.cons_cons b

theorem filterMap_eq_iff {α β : Type} {f g : α → Option β} (h : ∀ a, f a = none ∨ f a = g a) (l : List α) :
    l.filterMap f = l.filterMap g ↔ ∀ a ∈ l, f a = g a := by
  constructor
  · intro heq
    induction l with
    | nil => exact fun a ha => by cases ha
    | cons a l ih =>
      rcases h a with hnone | hsame
      · cases hg : g a with
        | none =>
          rw [List.filterMap_cons_none hnone, List.filterMap_cons_none hg] at heq
          exact List.forall_mem_cons.mpr ⟨hnone.trans hg.symm, ih heq⟩
        | some b =>
          rw [List.filterMap_cons_none hnone, List.filterMap_cons_some hg] at heq
          have hlen := (filterMap_sublist h l).length_le
          rw [heq, List.length_cons] at hlen
          omega
      · cases hg : g a with
        | none =>
          rw [List.filterMap_cons_none (hsame.trans hg), List.filterMap_cons_none hg] at heq
          exact List.forall_mem_cons.mpr ⟨hsame, ih heq⟩
        | some b =>
          rw [List.filterMap_cons_some (hsame.trans hg), List.filterMap_cons_some hg] at heq
          exact List.forall_mem_cons.mpr ⟨hsame, ih (List.cons.inj heq).2⟩
  · exact fun hall => List.filterMap_congr hall

theorem exact_of_reading (p q : Path) (h : p.exact = some (reading q.octets)) : p.exact = some (reading p.octets) :=
  plain_iff.mp ⟨_, h, not_mem_slashed _⟩

theorem listedPython_cases (r : Record) : r.listedPython = none ∨ r.listedPython = r.pythonPath := by
  cases r with
  | single status p =>
    cases status with
    | added | modified => exact .inr rfl
    | deleted | typeChanged | unmerged | unknown => exact .inl rfl
  | pair status score old new =>
    cases status with
    | renamed => exact .inr rfl
    | copied => exact .inl rfl

theorem listedPython_eq_iff {r : Record} (h : r.isCopy = false) :
    r.listedPython = r.pythonPath ↔ ∀ p, r = .single .typeChanged p → p.isPython = false := by
  have hother : r.listedPython = r.pythonPath → (∀ p, r ≠ .single .typeChanged p) →
      (r.listedPython = r.pythonPath ↔ ∀ p, r = .single .typeChanged p → p.isPython = false) :=
    fun heq hne => iff_of_true heq fun p hp => absurd hp (hne p)
  cases r with
  | single status p =>
    cases status with
    | typeChanged =>
      have hpython : (Record.single .typeChanged p).pythonPath = none ↔ p.isPython = false := by
        cases hp : p.isPython <;> simp [Record.pythonPath, Record.presentPath, Option.filter, hp]
      constructor
      · intro heq q hq
        cases hq
        exact hpython.mp heq.symm
      · exact fun hall => (hpython.mpr (hall p rfl)).symm
    | added | modified | deleted | unmerged | unknown => exact hother rfl fun p hp => by cases hp
  | pair status score old new =>
    cases status with
    | renamed => exact hother rfl fun p hp => by cases hp
    | copied => cases h

theorem mem_listedOther {records : List Record} {p : Path} : p ∈ records.filterMap Record.listedOther ↔
    p ∈ records.filterMap Record.listedPath ∧ p.isPython = false := by
  have hfilter := List.filter_filterMap (f := Record.listedPath) (p := (!·.isPython)) (l := records)
  rw [show records.filterMap Record.listedOther = (records.filterMap Record.listedPath).filter (!·.isPython) from
    hfilter.symm, List.mem_filter, Bool.not_eq_true']

theorem python_exact_iff (records : List Record) : ((readings (records.filterMap Record.listedPython)).map some).Perm
    ((records.filterMap Record.pythonPath).map Path.exact) ↔
    (∀ r ∈ records, r.listedPython = r.pythonPath) ∧ ∀ p ∈ records.filterMap Record.pythonPath, p.Plain := by
  rw [readings, List.map_map, perm_map_iff (some ∘ fun p : Path => reading p.octets) exact_of_reading
    (filterMap_sublist listedPython_cases records), filterMap_eq_iff listedPython_cases]
  exact and_congr_right fun _ => forall₂_congr fun p _ => plain_iff.symm

theorem deleted_exact_iff (paths : List Path) :
    ((readings paths).map some).Perm (paths.map Path.exact) ↔ ∀ p ∈ paths, p.Plain := by
  rw [readings, List.map_map, perm_map_iff (some ∘ fun p : Path => reading p.octets) exact_of_reading
    (List.Sublist.refl _)]
  exact (and_iff_right rfl).trans (forall₂_congr fun p _ => plain_iff.symm)

theorem renamed_exact_iff (pairs : List (Path × Path)) :
    ((pairs.map fun p => (reading p.1.octets, reading p.2.octets)).map fun p => (some p.1, some p.2)).Perm
      (pairs.map fun p => (p.1.exact, p.2.exact)) ↔ ∀ p ∈ pairs, p.1.Plain ∧ p.2.Plain := by
  have hput : ∀ a b : Path × Path,
      (a.1.exact, a.2.exact) = (some (reading b.1.octets), some (reading b.2.octets)) →
      (a.1.exact, a.2.exact) = (some (reading a.1.octets), some (reading a.2.octets)) := by
    intro a b h
    rw [exact_of_reading a.1 b.1 (congrArg Prod.fst h), exact_of_reading a.2 b.2 (congrArg Prod.snd h)]
  rw [List.map_map]
  refine (perm_map_iff _ hput (List.Sublist.refl _)).trans ((and_iff_right rfl).trans ?_)
  refine forall₂_congr fun p _ => ?_
  rw [plain_iff, plain_iff, Prod.mk.injEq]

theorem others_exact_iff (records : List Record) : (∀ text ∈ readings (records.filterMap Record.listedOther),
    ∃ p ∈ records.filterMap Record.presentPath, p.isPython = false ∧ p.exact = some text) ↔
    ∀ p ∈ records.filterMap Record.listedPath, p.isPython = false →
      ∃ q ∈ records.filterMap Record.presentPath, q.isPython = false ∧ q.exact = some (reading p.octets) := by
  simp only [readings, List.forall_mem_map, mem_listedOther, and_imp]

/-- The lists are those of the records just when the records can be decoded. -/
theorem decodedExactly_iff (records : List Record) :
    DecodedExactly records (getStagedGitFiles (emitted records)) ↔ Decodable records := by
  rw [getStagedGitFiles, splitOn_emitted]
  constructor
  · intro h
    have hcopy := noCopy_of_aligned h.aligned
    rw [loop_records hcopy, foldl_addRecord {} hcopy] at h
    obtain ⟨hlisted, hplain⟩ := (python_exact_iff records).mp h.python
    exact
      { noCopy := hcopy
        noTypeChange := fun p hp => (listedPython_eq_iff (hcopy _ hp)).mp (hlisted _ hp) p rfl
        python := hplain
        deleted := (deleted_exact_iff _).mp h.deleted
        renamed := (renamed_exact_iff _).mp h.renamed
        others := (others_exact_iff records).mp h.others }
  · intro h
    rw [loop_records h.noCopy, foldl_addRecord {} h.noCopy]
    have hlisted : ∀ r ∈ records, r.listedPython = r.pythonPath := fun r hr =>
      (listedPython_eq_iff (h.noCopy r hr)).mpr fun p hp => h.noTypeChange p (hp ▸ hr)
    exact
      { aligned := rfl
        python := (python_exact_iff records).mpr ⟨hlisted, h.python⟩
        deleted := (deleted_exact_iff _).mpr h.deleted
        renamed := (renamed_exact_iff _).mpr h.renamed
        others := (others_exact_iff records).mpr h.others }

/-- `M a.py`, and a copy of it to `b.py`. -/
def copyOfModified : List Record :=
  [.single .modified { octets := [97, 46, 112, 121] },
   .pair .copied 100 { octets := [97, 46, 112, 121] } { octets := [98, 46, 112, 121] }]

/-- The copy's destination is taken for a status. -/
theorem copy_is_misread : ¬ ∀ records, DecodedExactly records (getStagedGitFiles (emitted records)) := by
  intro hall
  exact absurd (hall copyOfModified).aligned (by decide)

end

end TimeCodeSecurity.Staged
