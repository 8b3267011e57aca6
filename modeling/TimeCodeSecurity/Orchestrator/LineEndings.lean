import TimeCodeSecurity.Orchestrator.TemporaryFile

/-! # Line ends of a patched file

The patch works on a text whose lines end with `\n`, and all lines are written with the one end that a single look
at the bytes chooses: `\r\n` where it occurs at all, else `\n`.
-/
namespace TimeCodeSecurity.Orchestrator
open KeptLines FileTree
set_option autoImplicit false

def endsLine (c : Char) : Bool := c = '\n' || c = '\r'

def fileLines (raw : Text) : List Text := cut endsLine raw

/-- The lines of a text that has been read. -/
def textLines (text : Text) : List Text := cut (· = '\n') text

def fileEnd (crlf : Bool) : Text := if crlf then ['\r', '\n'] else ['\n']

def lineEnd (line : Text) : Text := line.dropWhile fun c => !endsLine c

theorem cut_cons_end {ends : Char → Bool} {c : Char} {rest : Text} (hends : ends c = true)
    (hone : ¬ (c = '\r' ∧ rest.head? = some '\n')) : cut ends (c :: rest) = [c] :: cut ends rest := by
  rw [cut, if_pos ⟨hends, hone⟩]

def onFirst (c : Char) : List Text → List Text
  | [] => [[c]]
  | l :: ls => (c :: l) :: ls

theorem cut_cons_inner {ends : Char → Bool} {c : Char} {rest : Text}
    (h : ¬ (ends c = true ∧ ¬ (c = '\r' ∧ rest.head? = some '\n'))) :
    cut ends (c :: rest) = onFirst c (cut ends rest) := by
  rw [cut, if_neg h]
  cases cut ends rest <;> rfl

theorem map_onFirst {f : Text → Text} {c d : Char} {lines : List Text} (hone : f [c] = [d])
    (hcons : ∀ l ∈ lines.head?, f (c :: l) = d :: f l) :
    (onFirst c lines).map f = onFirst d (lines.map f) := by
  cases lines with
  | nil => simp [onFirst, hone]
  | cons l ls => simp [onFirst, hcons l rfl]

theorem head?_of_cut {ends : Char → Bool} {text l : Text} (h : l ∈ (cut ends text).head?) : l.head? = text.head? := by
  cases text with
  | nil => cases h
  | cons c rest =>
    rw [cut] at h
    split at h
    · rw [← Option.some.inj h]
      rfl
    · cases hrest : cut ends rest with
      | nil =>
        rw [hrest] at h
        rw [← Option.some.inj h]
        rfl
      | cons l' ls =>
        rw [hrest] at h
        rw [← Option.some.inj h]
        rfl

theorem universalNewlines_cons {c : Char} (hc : c ≠ '\r') (rest : Text) :
    universalNewlines (c :: rest) = c :: universalNewlines rest := by
  rw [universalNewlines]
  · exact fun _ h => absurd h hc
  · exact hc

theorem cut_crlf {ends : Char → Bool} (hends : ends '\n' = true) (rest : Text) :
    cut ends ('\r' :: '\n' :: rest) = ['\r', '\n'] :: cut ends rest := by
  rw [cut_cons_inner (fun h => h.2 ⟨rfl, rfl⟩), cut_cons_end hends (fun h => absurd h.1 (by decide))]
  rfl

theorem textLines_universalNewlines (raw : Text) :
    textLines (universalNewlines raw) = (fileLines raw).map universalNewlines := by
  have hnewline : ∀ rest, textLines ('\n' :: rest) = ['\n'] :: textLines rest := fun rest =>
    cut_cons_end (by decide) fun h => absurd h.1 (by decide)
  unfold fileLines
  fun_induction universalNewlines raw with
  | case1 => rfl
  | case2 rest ih =>
    rw [hnewline, ih, cut_crlf (by decide), List.map_cons]
    rfl
  | case3 rest h ih =>
    have hone : ¬ ('\r' = '\r' ∧ rest.head? = some '\n') := by
      rintro ⟨-, hhead⟩
      obtain ⟨rest', rfl⟩ := List.head?_eq_some_iff.mp hhead
      exact h rest' rfl
    rw [hnewline, ih, cut_cons_end (by decide) hone, List.map_cons]
    rfl
  | case4 c rest h hcr ih =>
    by_cases hc : c = '\n'
    · subst hc
      rw [hnewline, ih, cut_cons_end (by decide) (fun h => absurd h.1 (by decide)), List.map_cons]
      rfl
    · have hend : endsLine c = false := by
        have hne : c ≠ '\r' := hcr
        simp [endsLine, hc, hne]
      rw [cut_cons_inner (by simp [hend]), map_onFirst (by rw [universalNewlines_cons hcr]; rfl)
        (fun l _ => universalNewlines_cons hcr l), ← ih]
      exact cut_cons_inner (by simp [hc])

theorem lfText_cons {c : Char} {rest : Text} (h : ¬ (c = '\r' ∧ rest.head? = some '\n')) :
    lfText (c :: rest) = c :: lfText rest := by
  rw [lfText]
  rintro rest' rfl rfl
  exact h ⟨rfl, rfl⟩

theorem textLines_lfText (text : Text) : textLines (lfText text) = (textLines text).map lfText := by
  have hnewline : ∀ rest, textLines ('\n' :: rest) = ['\n'] :: textLines rest := fun rest =>
    cut_cons_end (by decide) fun h => absurd h.1 (by decide)
  fun_induction lfText text with
  | case1 => rfl
  | case2 rest ih =>
    have hcrlf : textLines ('\r' :: '\n' :: rest) = ['\r', '\n'] :: textLines rest := cut_crlf (by decide) rest
    rw [hnewline, ih, hcrlf, List.map_cons]
    rfl
  | case3 c rest h ih =>
    have hone : ¬ (c = '\r' ∧ rest.head? = some '\n') := by
      rintro ⟨rfl, hhead⟩
      obtain ⟨rest', rfl⟩ := List.head?_eq_some_iff.mp hhead
      exact h rest' rfl rfl
    by_cases hc : c = '\n'
    · subst hc
      rw [hnewline, hnewline, ih, List.map_cons]
      rfl
    · have hinner : ∀ rest, textLines (c :: rest) = onFirst c (textLines rest) := fun rest =>
        cut_cons_inner (by simp [hc])
      rw [hinner, hinner, ih]
      refine (map_onFirst ?_ fun l hl => ?_).symm
      · rw [lfText_cons (by simp)]
        rfl
      · refine lfText_cons ?_
        rwa [head?_of_cut hl]

def expanded (crlf : Bool) (c : Char) : Text := if c = '\n' then fileEnd crlf else [c]

theorem normalizedContent_eq (crlf : Bool) (text : Text) :
    normalizedContent crlf text = (lfText text).flatMap (expanded crlf) := by
  cases crlf with
  | true => rfl
  | false =>
    have hone : expanded false = fun c => [c] := by
      funext c
      unfold expanded
      split
      next h =>
        rw [h]
        rfl
      · rfl
    rw [hone, List.flatMap_singleton']
    rfl

theorem textLines_fileEnd (crlf : Bool) (text : Text) :
    textLines (fileEnd crlf ++ text) = fileEnd crlf :: textLines text := by
  cases crlf with
  | true => exact cut_crlf (by decide) text
  | false => exact cut_cons_end (by decide) fun h => absurd h.1 (by decide)

theorem textLines_expanded (crlf : Bool) (text : Text) :
    textLines (text.flatMap (expanded crlf)) = (textLines text).map (·.flatMap (expanded crlf)) := by
  induction text with
  | nil => rfl
  | cons c rest ih =>
    rw [List.flatMap_cons]
    by_cases hc : c = '\n'
    · have hline : textLines (c :: rest) = [c] :: textLines rest :=
        cut_cons_end (by simp [hc]) fun h => absurd (h.1.symm.trans hc) (by decide)
      rw [hline, List.map_cons, ← ih, expanded, if_pos hc, textLines_fileEnd]
      simp [expanded, hc]
    · have hinner : ∀ rest, textLines (c :: rest) = onFirst c (textLines rest) := fun rest =>
        cut_cons_inner (by simp [hc])
      rw [expanded, if_neg hc, List.singleton_append, hinner, hinner, ih]
      refine (map_onFirst ?_ fun l _ => ?_).symm
      · simp [expanded, hc]
      · simp [expanded, hc]

theorem textLines_normalizedContent (crlf : Bool) (text : Text) :
    textLines (normalizedContent crlf text) = (textLines text).map (normalizedContent crlf) := by
  rw [normalizedContent_eq, textLines_expanded, textLines_lfText, List.map_map]
  refine List.map_congr_left fun l _ => ?_
  rw [normalizedContent_eq]
  rfl

/-! ## Lines that are kept -/

structure IsLine (l : Text) : Prop where
  ending : lineEnd l ∈ [[], ['\n'], ['\r'], ['\r', '\n']]
  body : ∃ body, l = body ++ lineEnd l ∧ ∀ c ∈ body, endsLine c = false

theorem isLine_append {body ending : Text} (hbody : ∀ c ∈ body, endsLine c = false)
    (hending : ending ∈ [[], ['\n'], ['\r'], ['\r', '\n']]) : IsLine (body ++ ending) := by
  have hdrop : ∀ e ∈ [[], ['\n'], ['\r'], ['\r', '\n']], lineEnd e = e := by decide
  have hend : lineEnd (body ++ ending) = ending := by
    rw [lineEnd, List.dropWhile_append_of_pos (fun c hc => by simp [hbody c hc])]
    exact hdrop ending hending
  exact ⟨by rwa [hend], body, by rw [hend], hbody⟩

theorem isLine_ending {ending : Text} (h : ending ∈ [[], ['\n'], ['\r'], ['\r', '\n']]) : IsLine ending :=
  isLine_append (List.forall_mem_nil _) h

theorem isLine_of_mem {raw l : Text} (h : l ∈ fileLines raw) : IsLine l := by
  unfold fileLines at h
  induction raw generalizing l with
  | nil => cases h
  | cons c rest ih =>
    by_cases hcut : endsLine c = true ∧ ¬ (c = '\r' ∧ rest.head? = some '\n')
    · rw [cut_cons_end hcut.1 hcut.2] at h
      rcases List.mem_cons.mp h with rfl | h
      · have hc : c = '\n' ∨ c = '\r' := by simpa [endsLine] using hcut.1
        refine isLine_ending ?_
        rcases hc with rfl | rfl
        · simp
        · simp
      · exact ih h
    by_cases hend : endsLine c = true
    · have hcrlf : c = '\r' ∧ rest.head? = some '\n' := by
        by_contra hone
        exact hcut ⟨hend, hone⟩
      obtain ⟨rfl, hhead⟩ := hcrlf
      obtain ⟨rest, rfl⟩ := List.head?_eq_some_iff.mp hhead
      rw [cut_crlf (by decide)] at h
      rcases List.mem_cons.mp h with rfl | h
      · exact isLine_ending (by simp)
      · refine ih ?_
        rw [cut_cons_end (by decide) fun h => absurd h.1 (by decide)]
        exact List.mem_cons_of_mem _ h
    rw [cut_cons_inner hcut] at h
    rw [Bool.not_eq_true] at hend
    have hcons : ∀ l, IsLine l → IsLine (c :: l) := by
      rintro l ⟨hending, body, hl, hbody⟩
      rw [hl, ← List.cons_append]
      exact isLine_append (List.forall_mem_cons.mpr ⟨hend, hbody⟩) hending
    cases hrest : cut endsLine rest with
    | nil =>
      rw [hrest] at h
      obtain rfl := List.mem_singleton.mp h
      exact hcons [] (isLine_ending (by simp))
    | cons first lines =>
      rw [hrest] at h ih
      rcases List.mem_cons.mp h with rfl | h
      · exact hcons first (ih List.mem_cons_self)
      · exact ih (List.mem_cons_of_mem _ h)

theorem universalNewlines_body {body : Text} (h : ∀ c ∈ body, endsLine c = false) (ending : Text) :
    universalNewlines (body ++ ending) = body ++ universalNewlines ending := by
  induction body with
  | nil => rfl
  | cons c body ih =>
    have hc : c ≠ '\r' := by
      rintro rfl
      exact absurd (h _ List.mem_cons_self) (by decide)
    rw [List.cons_append, universalNewlines_cons hc, ih fun d hd => h d (List.mem_cons_of_mem c hd)]
    rfl

theorem normalizedContent_body {body : Text} (h : ∀ c ∈ body, endsLine c = false) (crlf : Bool) (ending : Text) :
    normalizedContent crlf (body ++ ending) = body ++ normalizedContent crlf ending := by
  rw [normalizedContent_eq, normalizedContent_eq]
  induction body with
  | nil => rfl
  | cons c body ih =>
    have hc : endsLine c = false := h c List.mem_cons_self
    have hcr : c ≠ '\r' := by
      rintro rfl
      exact absurd hc (by decide)
    have hnl : c ≠ '\n' := by
      rintro rfl
      exact absurd hc (by decide)
    rw [List.cons_append, lfText_cons fun hand => hcr hand.1, List.flatMap_cons,
      ih fun d hd => h d (List.mem_cons_of_mem c hd), expanded, if_neg hnl]
    rfl

theorem written_line_iff {l : Text} (h : IsLine l) (crlf : Bool) :
    normalizedContent crlf (universalNewlines l) = l ↔ lineEnd l = [] ∨ lineEnd l = fileEnd crlf := by
  obtain ⟨hending, body, hl, hbody⟩ := h
  have hends : ∀ e ∈ [[], ['\n'], ['\r'], ['\r', '\n']],
      (normalizedContent crlf (universalNewlines e) = e ↔ e = [] ∨ e = fileEnd crlf) := by
    cases crlf
    · decide
    · decide
  rw [← hends (lineEnd l) hending]
  generalize lineEnd l = ending at hl
  rw [hl, universalNewlines_body hbody, normalizedContent_body hbody]
  exact List.append_right_inj body

/-! ## Files that are written -/

/-- The lines that a patch keeps, as places in both texts. -/
structure Diff (old new : List Text) where
  kept : List (ℕ × ℕ)
  increasing : kept.Pairwise fun p q => p.1 < q.1 ∧ p.2 < q.2
  same : ∀ p ∈ kept, p.1 < old.length ∧ new[p.2]? = old[p.1]?

def writtenText (a : Answers) (raw content : Text) : Text := normalizedContent (a.readBytes && isCrlf raw) content

/-- Every line that the patch keeps has the bytes that it had. -/
def KeepsBytes (raw written content : Text) (D : Diff (textLines (universalNewlines raw)) (textLines content)) : Prop :=
  ∀ p ∈ D.kept, (textLines written)[p.2]? = (fileLines raw)[p.1]?

/-- Every line that the patch keeps ends as the file is written to end, or does not end. -/
def KeptAlike (raw content : Text) (crlf : Bool) (D : Diff (textLines (universalNewlines raw)) (textLines content)) :
    Prop :=
  ∀ p ∈ D.kept, ∀ l ∈ (fileLines raw)[p.1]?, lineEnd l = [] ∨ lineEnd l = fileEnd crlf

theorem keepsBytes_writtenText_iff (a : Answers) (raw content : Text)
    (D : Diff (textLines (universalNewlines raw)) (textLines content)) :
    KeepsBytes raw (writtenText a raw content) content D ↔ KeptAlike raw content (a.readBytes && isCrlf raw) D := by
  refine forall₂_congr fun p hp => ?_
  obtain ⟨hplace, hsame⟩ := D.same p hp
  rw [textLines_universalNewlines, List.length_map] at hplace
  have hline := List.getElem?_eq_getElem hplace
  generalize (fileLines raw)[p.1] = l at hline
  rw [textLines_universalNewlines, List.getElem?_map, hline] at hsame
  rw [writtenText, textLines_normalizedContent, List.getElem?_map, hsame, hline]
  have hwritten := written_line_iff (isLine_of_mem (List.mem_of_getElem? hline)) (a.readBytes && isCrlf raw)
  simp only [Option.map_some, Option.some.injEq, Option.mem_def, forall_eq']
  exact hwritten

theorem exists_of_persist {P : Project} {d d' : FileTree} {relFile : String} {origContent content : Text}
    (h : persist P d relFile origContent content = some (d', .written)) : ∃ path i raw,
      d.node path = some (.file i) ∧ (d.inodes i).text = some raw ∧ universalNewlines raw = origContent ∧
        GoesThrough P d (P.answers relFile) path ∧ d' = (replaceFile P d (P.answers relFile) path (d.inodes i).mode
          (writtenText (P.answers relFile) raw content)).1 := by
  unfold persist at h
  dsimp only at h
  obtain ⟨⟨path, met⟩, -, h⟩ := Option.map_eq_some_iff.mp h
  split at h
  · cases h
  · cases h
  · cases h
  next i hnode =>
    split at h
    · cases h
    split at h
    · cases h
    split at h
    · cases h
    have hread : (if (P.answers relFile).readText then (d.inodes i).text.map universalNewlines else none) =
        some origContent := by
      by_contra hstale
      rw [if_pos hstale] at h
      cases h
    rw [if_neg (not_not.mpr hread)] at h
    split at hread
    case isFalse => cases hread
    obtain ⟨raw, hraw, horig⟩ := Option.map_eq_some_iff.mp hread
    have hcrlf : ((d.inodes i).text.map isCrlf).getD false = isCrlf raw := by
      rw [hraw]
      rfl
    rw [hcrlf] at h
    have hthrough : GoesThrough P d (P.answers relFile) path := by
      by_contra hfails
      rw [replaceFile_failed _ _ hfails] at h
      split at h
      · cases h
      · cases h
    refine ⟨path, i, raw, hnode, hraw, horig, hthrough, ?_⟩
    rw [writtenText, h]

/-- **Untouched lines.** Where a patched file is written, the lines that the patch keeps have their bytes exactly
when each of them ended as all lines are written to end. -/
theorem keepsBytes_iff {P : Project} {d d' : FileTree} {relFile : String} {origContent content : Text}
    (h : persist P d relFile origContent content = some (d', .written)) : ∃ path i raw,
      d.node path = some (.file i) ∧ (d.inodes i).text = some raw ∧ universalNewlines raw = origContent ∧
        d' = (replaceFile P d (P.answers relFile) path (d.inodes i).mode
          (writtenText (P.answers relFile) raw content)).1 ∧
        (d.node (tmpFile path) = none → ∃ inode, d'.view path = some (.file inode) ∧
          inode.text = some (writtenText (P.answers relFile) raw content)) ∧
        ∀ D, KeepsBytes raw (writtenText (P.answers relFile) raw content) content D ↔
          KeptAlike raw content ((P.answers relFile).readBytes && isCrlf raw) D := by
  obtain ⟨path, i, raw, hnode, hraw, horig, hthrough, hafter⟩ := exists_of_persist h
  refine ⟨path, i, raw, hnode, hraw, horig, hafter, fun hfree => ?_, keepsBytes_writtenText_iff _ raw content⟩
  obtain ⟨inode, htext, hview⟩ := view_written (d.inodes i).mode (writtenText (P.answers relFile) raw content) hfree
    hthrough
  exact ⟨inode, by rw [hafter, hview path, if_pos rfl], htext⟩

/-- The first line ends with `\n` and the second with `\r\n`. -/
def mixedText : Text := ['a', '\n', 'b', '\r', '\n']

def longerText : Text := ['a', '\n', 'b', '\n', 'c', '\n']

def mixedTree : FileTree where
  nodes := ⟨[⟨[], .dir⟩, ⟨["p"], .dir⟩, ⟨["p", "app.py"], .file 0⟩], (by decide : [[], ["p"], ["p", "app.py"]].Nodup)⟩
  inodes _ := ⟨some mixedText, 0o644, 0⟩
  next := 1
  below p i h := by
    have hmem : (p, TreeNode.file i) ∈ [([], TreeNode.dir), (["p"], .dir), (["p", "app.py"], .file 0)] :=
      DictOf.mem_items_iff.mpr h
    simp at hmem
    omega

def mixedProject : Project where
  target := ["p"]
  baseDir := ["p"]
  answers _ := {}
  steps := 10

def mixedDiff : Diff (textLines (universalNewlines mixedText)) (textLines longerText) where
  kept := [(0, 0), (1, 1)]
  increasing := by decide
  same := by decide

theorem mixed_written : ∃ d', persist mixedProject mixedTree "app.py" (universalNewlines mixedText) longerText =
    some (d', .written) := by
  have hpersist : (persist mixedProject mixedTree "app.py" (universalNewlines mixedText) longerText).map Prod.snd =
      some .written := by decide
  obtain ⟨⟨d', result⟩, hd', rfl⟩ := Option.map_eq_some_iff.mp hpersist
  exact ⟨d', hd'⟩

theorem keepsBytes_iff_mixed : ∃ path i raw, mixedTree.node path = some (.file i) ∧
    (mixedTree.inodes i).text = some raw ∧ universalNewlines raw = universalNewlines mixedText := by
  obtain ⟨d', hd'⟩ := mixed_written
  obtain ⟨path, i, raw, hnode, hraw, horig, -⟩ := keepsBytes_iff hd'
  exact ⟨path, i, raw, hnode, hraw, horig⟩

theorem first_line_is_rewritten : ¬ ∀ (P : Project) (d d' : FileTree) (relFile : String) (origContent content : Text),
    persist P d relFile origContent content = some (d', .written) → ∀ path i raw, d.node path = some (.file i) →
      (d.inodes i).text = some raw → universalNewlines raw = origContent →
        ∀ D, KeepsBytes raw (writtenText (P.answers relFile) raw content) content D := by
  intro h
  obtain ⟨d', hd'⟩ := mixed_written
  have hkeeps := h _ _ d' _ _ _ hd' ["p", "app.py"] 0 mixedText (by decide) rfl rfl mixedDiff
  exact absurd (hkeeps (0, 0) (by decide)) (by decide)

end TimeCodeSecurity.Orchestrator
