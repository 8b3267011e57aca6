import TimeCodeSecurity.Orchestrator.Remediation

/-! # The temporary sibling

A patched file is written under a temporary name beside it and then takes its place. Where that name is
free, a write that goes through replaces the file and one that fails leaves nothing behind; where
something stands there it is written over, or removed when the write fails.
-/
namespace TimeCodeSecurity.Orchestrator
open FileTree
set_option autoImplicit false

/-! ## The temporary sibling -/

variable {P : Project}

theorem length_tmpName (path : FilePath) :
    (tmpName path).length = (path.getLast?.getD "").length + 8 := by
  rw [tmpName, String.length_append]
  rfl

theorem tmpFile_ne (path : FilePath) : tmpFile path ≠ path := by
  intro h
  have hlast : path.getLast? = some (tmpName path) := by
    rw [← congrArg List.getLast? h, tmpFile, List.getLast?_concat]
  have hlength := length_tmpName path
  rw [hlast, Option.getD_some] at hlength
  omega

def Opened (P : Project) (d : FileTree) (a : Answers) (path : FilePath) : Prop :=
  a.write ≠ .notOpened ∧ ∃ place, d.reach P.steps path.dropLast (tmpName path) = some place ∧
    (d.node place = none ∨ ∃ i, d.node place = some (.file i))

def TmpExists (P : Project) (d : FileTree) (path : FilePath) : Prop :=
  d.existsAt P.steps path.dropLast (tmpName path) = true

instance (d : FileTree) (path : FilePath) : Decidable (TmpExists P d path) :=
  inferInstanceAs (Decidable (_ = true))

def GoesThrough (P : Project) (d : FileTree) (a : Answers) (path : FilePath) : Prop :=
  Opened P d a path ∧ a.write = .done ∧ a.replace = true

def TmpCareful (P : Project) (d : FileTree) (a : Answers) (path : FilePath) : Prop :=
  if d.node (tmpFile path) = none then
    Opened P d a path → GoesThrough P d a path ∨ a.unlink = true
  else ¬Opened P d a path ∧ ¬(TmpExists P d path ∧ a.unlink = true)

theorem reach_tmp {d : FileTree} {path : FilePath}
    (h : ∀ absolute dest, d.kindAt (tmpFile path) ≠ some (.link absolute dest)) :
    d.reach P.steps path.dropLast (tmpName path) = some (tmpFile path) := by
  have hlength := length_tmpName path
  apply reach_of_not_link
  · intro hup
    have htwo : "..".length = 2 := rfl
    rw [hup] at hlength
    omega
  · intro hself
    have hone : ".".length = 1 := rfl
    rw [hself] at hlength
    omega
  · exact h

theorem WriteOutcome.of_no_text {content : Text} {o : WriteOutcome} (h : o.text content = none) :
    o = .notOpened := by
  cases o with
  | notOpened => rfl
  | cut n => cases h
  | done => cases h

theorem WriteOutcome.of_text {content text : Text} {o : WriteOutcome} (h : o.text content = some text) :
    o ≠ .notOpened ∧ (o = .done → text = content) := by
  cases o with
  | notOpened => cases h
  | cut n => exact ⟨nofun, nofun⟩
  | done => exact ⟨nofun, fun _ => (Option.some.inj h).symm⟩

theorem not_opened {d : FileTree} {a : Answers} {path place : FilePath}
    (hplace : d.reach P.steps path.dropLast (tmpName path) = some place)
    (hnode : ¬(d.node place = none ∨ ∃ i, d.node place = some (.file i))) : ¬Opened P d a path := by
  rintro ⟨-, place', hreach, hplace'⟩
  rw [hplace] at hreach
  cases hreach
  exact hnode hplace'

theorem writeTmp_cases (P : Project) (d : FileTree) (a : Answers) (path : FilePath) (mode : ℕ)
    (content : Text) :
    (¬Opened P d a path ∧ writeTmp P d a path mode content = (d, false)) ∨
      (Opened P d a path ∧ (writeTmp P d a path mode content).2 = decide (a.write = .done) ∧
        ∃ place text, d.reach P.steps path.dropLast (tmpName path) = some place ∧
          (a.write = .done → text = content) ∧
          ((d.node place = none ∧
              ∃ m, (writeTmp P d a path mode content).1 = d.create place text m) ∨
            (∃ i, d.node place = some (.file i) ∧
              (writeTmp P d a path mode content).1.nodes = d.nodes ∧
              (writeTmp P d a path mode content).1.view place ≠ d.view place))) := by
  cases htext : a.write.text content with
  | none =>
    have hwrite := WriteOutcome.of_no_text htext
    exact .inl ⟨fun h => h.1 hwrite, by rw [writeTmp, htext]⟩
  | some text =>
    obtain ⟨hopen, hdone⟩ := WriteOutcome.of_text htext
    cases hplace : d.reach P.steps path.dropLast (tmpName path) with
    | none =>
      refine .inl ⟨?_, by rw [writeTmp, htext, hplace]⟩
      rintro ⟨-, place, hreach, -⟩
      rw [hplace] at hreach
      cases hreach
    | some place =>
      cases hnode : d.node place with
      | none =>
        refine .inr ⟨⟨hopen, place, hplace, .inl hnode⟩, ?_, place, text, rfl, hdone, .inl ⟨hnode, ?_⟩⟩
        · simp only [writeTmp, htext, hplace, hnode]
        · simp only [writeTmp, htext, hplace, hnode]
          exact ⟨_, rfl⟩
      | some n =>
        cases n with
        | file i =>
          refine .inr ⟨⟨hopen, place, hplace, .inr ⟨i, hnode⟩⟩, ?_, place, text, rfl, hdone,
            .inr ⟨i, hnode, ?_, ?_⟩⟩
          · simp only [writeTmp, htext, hplace, hnode]
          · simp only [writeTmp, htext, hplace, hnode]
            split
            · rfl
            · rfl
          · simp only [writeTmp, htext, hplace, hnode]
            split
            · exact view_overwrite_chmod_ne d hnode text _
            · exact view_overwrite_ne d hnode text
        | dir =>
          refine .inl ⟨?_, by simp only [writeTmp, htext, hplace, hnode]⟩
          exact not_opened hplace (by simp [hnode])
        | link absolute dest =>
          refine .inl ⟨?_, by simp only [writeTmp, htext, hplace, hnode]⟩
          exact not_opened hplace (by simp [hnode])

/-! ## What the paths show after a write -/

section Write

variable {d : FileTree} {a : Answers} {path : FilePath} (mode : ℕ) (content : Text)

theorem writeTmp_whole : (writeTmp P d a path mode content).2 = true ↔
    Opened P d a path ∧ a.write = .done := by
  obtain ⟨hopen, heq⟩ | ⟨hopen, hwhole, -⟩ := writeTmp_cases P d a path mode content
  · rw [heq]
    simp [hopen]
  · rw [hwhole]
    simp [hopen]

theorem replaceFile_through (h : GoesThrough P d a path) : replaceFile P d a path mode content =
    ((writeTmp P d a path mode content).1.rename (tmpFile path) path, .written) :=
  if_pos ⟨(writeTmp_whole mode content).mpr ⟨h.1, h.2.1⟩, h.2.2⟩

theorem replaceFile_failed (h : ¬GoesThrough P d a path) : replaceFile P d a path mode content =
    if TmpExists P (writeTmp P d a path mode content).1 path ∧ a.unlink = true then
      ((writeTmp P d a path mode content).1.unlink (tmpFile path), .unwritten)
    else ((writeTmp P d a path mode content).1, .unwritten) := by
  have hfails : ¬((writeTmp P d a path mode content).2 = true ∧ a.replace = true) :=
    fun hw => h ⟨((writeTmp_whole mode content).mp hw.1).1, ((writeTmp_whole mode content).mp hw.1).2, hw.2⟩
  exact if_neg hfails

theorem place_eq_tmpFile {place : FilePath} (hfree : d.node (tmpFile path) = none)
    (hplace : d.reach P.steps path.dropLast (tmpName path) = some place) : place = tmpFile path := by
  have hnolink : ∀ absolute dest, d.kindAt (tmpFile path) ≠ some (.link absolute dest) := by
    intro absolute dest
    rw [kindAt, hfree]
    simp
  rw [reach_tmp hnolink] at hplace
  exact (Option.some.inj hplace).symm

theorem writeTmp_of_free (hfree : d.node (tmpFile path) = none) (hopen : Opened P d a path) :
    ∃ text m, (a.write = .done → text = content) ∧
      (writeTmp P d a path mode content).1 = d.create (tmpFile path) text m := by
  obtain ⟨hclosed, -⟩ | ⟨-, -, place, text, hplace, hdone, hcases⟩ :=
    writeTmp_cases P d a path mode content
  · exact absurd hopen hclosed
  · obtain rfl := place_eq_tmpFile hfree hplace
    obtain ⟨-, m, heq⟩ | ⟨i, hnode, -⟩ := hcases
    · exact ⟨text, m, hdone, heq⟩
    · rw [hfree] at hnode
      cases hnode

theorem tmpExists_create (path : FilePath) (text : Text) (m : ℕ) :
    TmpExists P (d.create (tmpFile path) text m) path := by
  have hkind : (d.create (tmpFile path) text m).kindAt (tmpFile path) = some .file := by
    rw [kindAt_eq, view_create, if_pos rfl]
    rfl
  have hnolink : ∀ absolute dest,
      (d.create (tmpFile path) text m).kindAt (tmpFile path) ≠ some (.link absolute dest) := by
    intro absolute dest
    rw [hkind]
    simp
  rw [kindAt] at hkind
  rw [TmpExists, existsAt, reach_tmp hnolink]
  show ((d.create (tmpFile path) text m).node (tmpFile path)).isSome = true
  cases hnode : (d.create (tmpFile path) text m).node (tmpFile path) with
  | none => rw [hnode] at hkind; cases hkind
  | some n => rfl

theorem view_written (hfree : d.node (tmpFile path) = none) (h : GoesThrough P d a path) :
    ∃ inode, inode.text = some content ∧ ∀ q, (replaceFile P d a path mode content).1.view q =
      if q = path then some (.file inode) else d.view q := by
  obtain ⟨text, m, htext, hwrite⟩ := writeTmp_of_free mode content hfree h.1
  refine ⟨⟨some text, m, 0⟩, congrArg some (htext h.2.1), fun q => ?_⟩
  have hview := d.view_create (q := tmpFile path) text m
  have hsrc : (d.create (tmpFile path) text m).node (tmpFile path) ≠ none := by
    intro hnone
    have hshown := hview (tmpFile path)
    rw [view_eq_none _ hnone, if_pos rfl] at hshown
    cases hshown
  obtain ⟨n, hn⟩ := Option.ne_none_iff_exists'.mp hsrc
  rw [replaceFile_through mode content h, hwrite, view_rename _ hn, hview, if_pos rfl]
  split_ifs with hpath htmp
  · rfl
  · rw [htmp, view_eq_none _ hfree]
  · rw [hview, if_neg htmp]

theorem kept_iff_of_free (hfree : d.node (tmpFile path) = none) (h : ¬GoesThrough P d a path) :
    (∀ q, (replaceFile P d a path mode content).1.view q = d.view q) ↔
      (Opened P d a path → a.unlink = true) := by
  rw [replaceFile_failed mode content h]
  by_cases hopen : Opened P d a path
  · obtain ⟨text, m, -, hwrite⟩ := writeTmp_of_free mode content hfree hopen
    rw [hwrite]
    have hexists := tmpExists_create (P := P) (d := d) path text m
    by_cases hunlink : a.unlink = true
    · rw [if_pos ⟨hexists, hunlink⟩]
      refine ⟨fun _ _ => hunlink, fun _ q => ?_⟩
      rw [view_unlink, view_create]
      split_ifs with hq
      · rw [hq, view_eq_none _ hfree]
      · rfl
    · rw [if_neg fun hw => hunlink hw.2]
      refine ⟨fun hkept => ?_, fun hw => absurd (hw hopen) hunlink⟩
      have htmp := hkept (tmpFile path)
      rw [view_create, if_pos rfl, view_eq_none _ hfree] at htmp
      cases htmp
  · obtain ⟨-, hwrite⟩ | ⟨hopen', -⟩ := writeTmp_cases P d a path mode content
    · have hgone : ¬TmpExists P d path := by
        have hnolink : ∀ absolute dest, d.kindAt (tmpFile path) ≠ some (.link absolute dest) := by
          intro absolute dest
          rw [kindAt, hfree]
          simp
        rw [TmpExists, existsAt, reach_tmp hnolink]
        simp [hfree]
      rw [hwrite, if_neg fun hw => hgone hw.1]
      exact ⟨fun _ hw => absurd hw hopen, fun _ _ => rfl⟩
    · exact absurd hopen' hopen

theorem tmp_taken (htaken : d.node (tmpFile path) ≠ none) :
    (writeTmp P d a path mode content).1.node (tmpFile path) ≠ none := by
  obtain ⟨-, heq⟩ | ⟨-, -, place, text, -, -, ⟨hnode, m, heq⟩ | ⟨i, -, hnodes, -⟩⟩ :=
    writeTmp_cases P d a path mode content
  · rw [heq]
    exact htaken
  · rw [heq]
    intro hnone
    have hshown := d.view_create (q := place) text m (tmpFile path)
    rw [view_eq_none _ hnone] at hshown
    split at hshown
    next => cases hshown
    next => exact d.view_ne_none htaken hshown.symm
  · rw [node, hnodes]
    exact htaken

theorem tmp_lost (htaken : d.node (tmpFile path) ≠ none) (h : GoesThrough P d a path) :
    (replaceFile P d a path mode content).1.view (tmpFile path) = none := by
  obtain ⟨n, hn⟩ := Option.ne_none_iff_exists'.mp
    (tmp_taken (P := P) (a := a) mode content htaken)
  rw [replaceFile_through mode content h, view_rename _ hn, if_neg (tmpFile_ne path), if_pos rfl]

theorem opened_shows (hopen : Opened P d a path) :
    ∃ place, (writeTmp P d a path mode content).1.view place ≠ d.view place := by
  obtain ⟨hclosed, -⟩ | ⟨-, -, place, text, -, -, ⟨hnode, m, heq⟩ | ⟨i, -, -, hview⟩⟩ :=
    writeTmp_cases P d a path mode content
  · exact absurd hopen hclosed
  · refine ⟨place, ?_⟩
    rw [heq, view_create, if_pos rfl, view_eq_none _ hnode]
    simp
  · exact ⟨place, hview⟩

theorem kept_iff_of_taken (htaken : d.node (tmpFile path) ≠ none) (h : ¬GoesThrough P d a path) :
    (∀ q, (replaceFile P d a path mode content).1.view q = d.view q) ↔
      ¬Opened P d a path ∧ ¬(TmpExists P d path ∧ a.unlink = true) := by
  rw [replaceFile_failed mode content h]
  by_cases hopen : Opened P d a path
  · refine ⟨fun hkept => ?_, fun hw => absurd hopen hw.1⟩
    split at hkept
    next =>
      have htmp := hkept (tmpFile path)
      rw [view_unlink, if_pos rfl] at htmp
      exact absurd htmp.symm (d.view_ne_none htaken)
    next =>
      obtain ⟨place, hplace⟩ := opened_shows mode content hopen
      exact absurd (hkept place) hplace
  · obtain ⟨-, hwrite⟩ | ⟨hopen', -⟩ := writeTmp_cases P d a path mode content
    · rw [hwrite]
      split
      next hremoved =>
        refine ⟨fun hkept => ?_, fun hw => absurd hremoved hw.2⟩
        have htmp := hkept (tmpFile path)
        rw [view_unlink, if_pos rfl] at htmp
        exact absurd htmp.symm (d.view_ne_none htaken)
      next hremoved => exact ⟨fun _ => ⟨hopen, hremoved⟩, fun _ _ => rfl⟩
    · exact absurd hopen' hopen

theorem kept_iff (h : ¬GoesThrough P d a path) :
    (∀ q, (replaceFile P d a path mode content).1.view q = d.view q) ↔ TmpCareful P d a path := by
  rw [TmpCareful]
  split_ifs with hfree
  · rw [kept_iff_of_free mode content hfree h]
    simp [h]
  · exact kept_iff_of_taken mode content hfree h

end Write

structure Passes (P : Project) (d : FileTree) (relFile : String) (origContent : Text)
    (path : FilePath) : Prop where
  place : ∃ met, diskFile P d relFile = some (path, met)
  file : ∃ i, d.node path = some (.file i) ∧ d.nlink i ≤ 1 ∧
    (d.inodes i).text.map universalNewlines = some origContent
  stat : (P.answers relFile).stat = true
  access : (P.answers relFile).access = true
  readText : (P.answers relFile).readText = true

theorem persist_cases (P : Project) (d : FileTree) (relFile : String) (origContent content : Text) :
    (diskFile P d relFile = none ∧ persist P d relFile origContent content = none) ∨
      (∃ result, result ≠ .written ∧ persist P d relFile origContent content = some (d, result) ∧
        ∀ path, ¬Passes P d relFile origContent path) ∨
      ∃ path mode crlf, Passes P d relFile origContent path ∧
        persist P d relFile origContent content =
          some (replaceFile P d (P.answers relFile) path mode (normalizedContent crlf content)) := by
  cases hplace : diskFile P d relFile with
  | none => exact .inl ⟨rfl, by rw [persist, hplace]; rfl⟩
  | some r =>
    obtain ⟨path, met⟩ := r
    have hpath : ∀ {path'}, Passes P d relFile origContent path' → path' = path := by
      rintro path' ⟨⟨met', h⟩, -⟩
      rw [hplace] at h
      exact congrArg Prod.fst (Option.some.inj h).symm
    have hnofile : (∀ i, d.node path ≠ some (.file i)) → ∀ path', ¬Passes P d relFile origContent path' := by
      intro hno path' h
      obtain ⟨i, hi, -⟩ := h.file
      rw [hpath h] at hi
      exact hno i hi
    cases hnode : d.node path with
    | none =>
      refine .inr (.inl ⟨.unwritten, by decide, by simp [persist, hplace, hnode], hnofile ?_⟩)
      simp [hnode]
    | some n =>
      cases n with
      | dir =>
        refine .inr (.inl ⟨.unwritten, by decide, by simp [persist, hplace, hnode], hnofile ?_⟩)
        simp [hnode]
      | link absolute dest =>
        refine .inr (.inl ⟨.unwritten, by decide, by simp [persist, hplace, hnode], hnofile ?_⟩)
        simp [hnode]
      | file i =>
        have hfile : ∀ {path'}, Passes P d relFile origContent path' → d.nlink i ≤ 1 ∧
            (d.inodes i).text.map universalNewlines = some origContent := by
          intro path' h
          obtain ⟨j, hj, hrest⟩ := h.file
          rw [hpath h, hnode] at hj
          cases hj
          exact hrest
        by_cases hstat : (P.answers relFile).stat = true
        case neg =>
          refine .inr (.inl ⟨.unwritten, by decide, by simp [persist, hplace, hnode, hstat], ?_⟩)
          exact fun path' h => hstat h.stat
        by_cases hlinks : d.nlink i ≤ 1
        case neg =>
          refine .inr (.inl ⟨.unwritten, by decide, by simp [persist, hplace, hnode, hstat, hlinks], ?_⟩)
          exact fun path' h => hlinks (hfile h).1
        have hfew : ¬1 < d.nlink i := Nat.not_lt.mpr hlinks
        by_cases haccess : (P.answers relFile).access = true
        case neg =>
          refine .inr (.inl ⟨.unwritten, by decide, ?_, fun path' h => haccess h.access⟩)
          simp [persist, hplace, hnode, hstat, haccess]
        by_cases hread : (P.answers relFile).readText = true
        case neg =>
          refine .inr (.inl ⟨.stale, by decide, ?_, fun path' h => hread h.readText⟩)
          simp [persist, hplace, hnode, hstat, hfew, haccess, hread]
        by_cases htext : (d.inodes i).text.map universalNewlines = some origContent
        case neg =>
          refine .inr (.inl ⟨.stale, by decide, ?_, fun path' h => htext (hfile h).2⟩)
          simp only [persist, hplace, hnode, Option.map_some]
          simp [hstat, hfew, haccess, hread, htext]
        have htried : persist P d relFile origContent content =
            some (replaceFile P d (P.answers relFile) path (d.inodes i).mode (normalizedContent
              ((P.answers relFile).readBytes && ((d.inodes i).text.map isCrlf).getD false) content)) := by
          simp only [persist, hplace, hnode, Option.map_some]
          simp only [hstat, hfew, haccess, hread, htext, not_true_eq_false, if_false, if_true, ne_eq]
        exact .inr (.inr ⟨path, _, _,
          ⟨⟨met, hplace⟩, ⟨i, hnode, hlinks, htext⟩, hstat, haccess, hread⟩, htried⟩)

end TimeCodeSecurity.Orchestrator
