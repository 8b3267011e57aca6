import TimeCodeSecurity.Iac.LogicalLines

/-! # Where the audit splits as Docker does

A comment or a blank line in a logical line ends the audit's instruction, a line that is a lone backslash loses it,
and the keyword is cut at a blank only. With usual line ends and white space, nothing else goes wrong.
-/
namespace TimeCodeSecurity.Iac
open Pep440 (isSpace strip)
open Scanner (isLineBoundary)
set_option autoImplicit false

/-- A logical line with text starts with text on its first line, has no text behind a comment or a blank line in
it, and only white space stands between its first word and the next blank. -/
def SplitAlike : List Block → Prop
  | [] => True
  | b :: rest => firstWord (lineText (b :: rest)) = [] ∨
      b.first.1 ≠ [] ∧ (∀ b' ∈ rest, firstWord b'.text = []) ∧
        strip ((lineText (b :: rest)).takeWhile (· ≠ ' ')) = firstWord (lineText (b :: rest))

/-! ## One logical line -/

section

variable {upper : Text → Text} {b : Block} {rest : List Block}

theorem dropWhile_lineText_of_first (hfirst : b.first.1 ≠ []) :
    (lineText (b :: rest)).dropWhile isSpace = lineText (b :: rest) := by
  obtain ⟨c, cs, htext, hc⟩ := text_of_first hfirst
  rw [lineText_cons, htext, List.cons_append, List.dropWhile_cons_of_neg (Bool.eq_false_iff.mp hc)]

theorem firstWord_of_first (hfirst : b.first.1 ≠ []) :
    firstWord (lineText (b :: rest)) = b.text.takeWhile (!isSpace ·) := by
  rw [firstWord, dropWhile_lineText_of_first hfirst, lineText_cons]
  exact takeWhile_append_blank (by decide) (startsBlank_laterText rest) b.text

theorem argumentsOf_of_first (hfirst : b.first.1 ≠ []) :
    argumentsOf (lineText (b :: rest)) = strip (b.text.dropWhile (!isSpace ·) ++ laterText rest) := by
  rw [argumentsOf, dropWhile_lineText_of_first hfirst, lineText_cons,
    dropWhile_append_blank (by decide) (startsBlank_laterText rest)]

theorem takeWhile_lineText : (lineText (b :: rest)).takeWhile (· ≠ ' ') = b.text.takeWhile (· ≠ ' ') := by
  rw [lineText_cons]
  exact takeWhile_append_blank (by decide) (startsBlank_laterText rest) b.text

def gap (t : Text) : Text := (t.dropWhile (!isSpace ·)).takeWhile (· ≠ ' ')

theorem takeWhile_eq_word_gap (t : Text) : t.takeWhile (· ≠ ' ') = t.takeWhile (!isSpace ·) ++ gap t := by
  induction t with
  | nil => rfl
  | cons c cs ih =>
    by_cases hc : isSpace c = true
    · rw [gap, List.dropWhile_cons_of_neg (by simp [hc]),
        List.takeWhile_cons_of_neg (p := (!isSpace ·)) (by simp [hc])]
      rfl
    · have hblank : c ≠ ' ' := by
        rintro rfl
        exact hc rfl
      rw [List.takeWhile_cons_of_pos (by simpa using hblank), ih, gap, gap,
        List.dropWhile_cons_of_pos (by simpa using hc),
        List.takeWhile_cons_of_pos (p := (!isSpace ·)) (by simpa using hc)]
      rfl

theorem dropWhile_eq_gap_append (t : Text) : t.dropWhile (!isSpace ·) = gap t ++ t.dropWhile (· ≠ ' ') := by
  have hwhole := List.takeWhile_append_dropWhile (p := (!isSpace ·)) (l := t)
  have hblank := List.takeWhile_append_dropWhile (p := (· ≠ ' ')) (l := t)
  rw [takeWhile_eq_word_gap, List.append_assoc] at hblank
  exact List.append_cancel_left (hwhole.trans hblank.symm)

theorem strip_drop_blank (t : Text) : strip ((t.dropWhile (· ≠ ' ')).drop 1) = strip (t.dropWhile (· ≠ ' ')) := by
  cases hdrop : t.dropWhile (· ≠ ' ') with
  | nil => rfl
  | cons c cs =>
    have hne : t.dropWhile (· ≠ ' ') ≠ [] := by rw [hdrop]; exact List.cons_ne_nil _ _
    have hc := List.head_dropWhile_not (· ≠ ' ') hne
    simp only [hdrop, List.head_cons, decide_eq_false_iff_not, not_not] at hc
    rw [hc]
    exact (strip_append_left (u := [' ']) rfl cs).symm

theorem strip_word_gap_iff (t : Text) :
    strip (t.takeWhile (· ≠ ' ')) = t.takeWhile (!isSpace ·) ↔ letters (gap t) = 0 := by
  rw [takeWhile_eq_word_gap]
  constructor
  · intro h
    have hletters := congrArg letters h
    rw [letters_strip, letters_append] at hletters
    omega
  · intro h
    rw [strip_append_right h]
    apply Trimming.trim_of_ends
    · intro c hc
      simpa using List.mem_takeWhile_imp (List.mem_of_head? hc)
    · intro c hc
      simpa using List.mem_takeWhile_imp (List.mem_of_getLast? hc)

theorem arguments_eq_iff (t later : Text) :
    strip ((t.dropWhile (· ≠ ' ')).drop 1) = strip (t.dropWhile (!isSpace ·) ++ later) ↔
      letters (gap t) = 0 ∧ letters later = 0 := by
  rw [strip_drop_blank, dropWhile_eq_gap_append]
  constructor
  · intro h
    have hletters := congrArg letters h
    rw [letters_strip, letters_strip, letters_append, letters_append] at hletters
    omega
  · rintro ⟨hgap, hlater⟩
    rw [strip_append_right hlater, strip_append_left hgap]

theorem blockInstruction_eq_iff (hfirst : b.first.1 ≠ []) :
    blockInstruction upper b =
      ⟨b.start, upper (firstWord (lineText (b :: rest))), argumentsOf (lineText (b :: rest))⟩ ↔
    letters (gap b.text) = 0 ∧ letters (laterText rest) = 0 := by
  rw [firstWord_of_first hfirst, argumentsOf_of_first hfirst, ← arguments_eq_iff]
  constructor
  · exact fun h => congrArg Instruction.arguments h
  · intro h
    have hword := (strip_word_gap_iff b.text).mpr ((arguments_eq_iff _ _).mp h).1
    rw [blockInstruction, splitInstruction, hword, h]

theorem group_agrees_iff (hupper : ∀ t, upper t = [] ↔ t = [])
    (hstarts : ∀ b' ∈ rest, b'.start ≠ b.start) :
    (b :: rest).filterMap (keptInstruction upper) = (dockerInstruction upper (b :: rest)).toList ↔
      SplitAlike (b :: rest) := by
  have hkept : ∀ b' : Block, keptInstruction upper b' =
      if b'.first.1 = [] then none else some (blockInstruction upper b') := fun b' => keptInstruction_eq hupper
  have hblank : ∀ b' : Block, letters b'.text = 0 → b'.first.1 = [] := by
    intro b' hzero
    by_contra hne
    obtain ⟨c, cs, htext, hc⟩ := text_of_first hne
    rw [letters_eq_zero.mp hzero c (by rw [htext]; exact List.mem_cons_self)] at hc
    cases hc
  have hrest : letters (laterText rest) = 0 → rest.filterMap (keptInstruction upper) = [] := by
    refine fun hzero => List.filterMap_eq_nil_iff.mpr fun b' hb' => ?_
    rw [hkept, if_pos (hblank b' (letters_laterText.mp hzero b' hb'))]
  rw [SplitAlike, dockerInstruction]
  by_cases hword : firstWord (lineText (b :: rest)) = []
  · have hzero := firstWord_eq_nil.mp hword
    rw [lineText_cons, letters_append] at hzero
    rw [List.filterMap_cons_none (by rw [hkept, if_pos (hblank b (by omega))]), hrest (by omega)]
    simp [hword]
  simp only [hword, if_false, false_or, Option.toList_some]
  by_cases hfirst : b.first.1 = []
  · rw [List.filterMap_cons_none (by rw [hkept, if_pos hfirst])]
    constructor
    · intro h
      obtain ⟨b', hb', heq⟩ := List.mem_filterMap.mp (h ▸ List.mem_singleton_self _)
      rw [hkept] at heq
      split at heq
      · cases heq
      · exact absurd (congrArg Instruction.line (Option.some.inj heq)) (hstarts b' hb')
    · exact fun h => absurd hfirst h.1
  · rw [List.filterMap_cons_some (by rw [hkept, if_neg hfirst]), List.cons.injEq, blockInstruction_eq_iff hfirst,
      takeWhile_lineText, firstWord_of_first hfirst, strip_word_gap_iff, letters_laterText]
    simp only [firstWord_eq_nil]
    constructor
    · exact fun h => ⟨hfirst, h.1.2, h.1.1⟩
    · exact fun h => ⟨⟨h.2.2, h.2.1⟩, hrest (letters_laterText.mpr h.2.1)⟩

end

section

variable {upper : Text → Text}

theorem append_inj_of_pred {α : Type} (p : α → Bool) {xs xs' ys ys' : List α} (hxs : ∀ x ∈ xs, p x = true)
    (hxs' : ∀ x ∈ xs', p x = true) (hys : ∀ y ∈ ys, p y = false) (hys' : ∀ y ∈ ys', p y = false)
    (h : xs ++ ys = xs' ++ ys') : xs = xs' ∧ ys = ys' := by
  have hfilter := congrArg (List.filter p) h
  rw [List.filter_append, List.filter_append, List.filter_eq_self.mpr hxs, List.filter_eq_self.mpr hxs',
    List.filter_eq_nil_iff.mpr fun y hy => Bool.eq_false_iff.mp (hys y hy),
    List.filter_eq_nil_iff.mpr fun y hy => Bool.eq_false_iff.mp (hys' y hy), List.append_nil,
    List.append_nil] at hfilter
  rw [hfilter] at h
  exact ⟨hfilter, List.append_cancel_left h⟩

theorem line_of_kept {blocks : List Block} {i : Instruction} (h : i ∈ blocks.filterMap (keptInstruction upper)) :
    i.line ∈ starts blocks := by
  obtain ⟨b, hb, heq⟩ := List.mem_filterMap.mp h
  rw [keptInstruction] at heq
  split at heq
  · cases heq
    exact List.mem_map_of_mem hb
  · cases heq

theorem line_of_docker {blocks : List Block} {i : Instruction} (h : i ∈ (dockerInstruction upper blocks).toList) :
    i.line ∈ starts blocks := by
  cases blocks with
  | nil => cases h
  | cons b rest =>
    rw [dockerInstruction] at h
    split at h
    · cases h
    · rw [List.mem_singleton.mp h]
      exact List.mem_cons_self

theorem groups_agree_iff (hupper : ∀ t, upper t = [] ↔ t = []) {groups : List (List Block)}
    (hstarts : (starts groups.flatten).Pairwise (· < ·)) :
    groups.flatten.filterMap (keptInstruction upper) = groups.filterMap (dockerInstruction upper) ↔
      ∀ g ∈ groups, SplitAlike g := by
  induction groups with
  | nil => simp
  | cons g gs ih =>
    rw [List.flatten_cons, starts, List.map_append, ← starts, ← starts] at hstarts
    obtain ⟨hg, hgs, hcross⟩ := List.pairwise_append.mp hstarts
    have hone : g.filterMap (keptInstruction upper) = (dockerInstruction upper g).toList ↔ SplitAlike g := by
      cases g with
      | nil => simp [SplitAlike, dockerInstruction]
      | cons b rest =>
        refine group_agrees_iff hupper fun b' hb' => ?_
        exact ((List.pairwise_cons.mp hg).1 b'.start (List.mem_map_of_mem hb')).ne'
    have hlater : ∀ s ∈ starts gs.flatten, s ∉ starts g := fun s hs hs' => absurd (hcross s hs' s hs) (lt_irrefl s)
    have hdocker : ∀ i ∈ gs.filterMap (dockerInstruction upper), i.line ∈ starts gs.flatten := by
      intro i hi
      obtain ⟨g', hg', heq⟩ := List.mem_filterMap.mp hi
      have hline := line_of_docker (Option.mem_toList.mpr heq)
      obtain ⟨b, hb, hb'⟩ := List.mem_map.mp hline
      exact List.mem_map.mpr ⟨b, List.mem_flatten.mpr ⟨g', hg', hb⟩, hb'⟩
    rw [List.flatten_cons, List.filterMap_append, List.forall_mem_cons, ← hone, ← ih hgs,
      show g :: gs = [g] ++ gs from rfl, List.filterMap_append,
      show [g].filterMap (dockerInstruction upper) = (dockerInstruction upper g).toList by
        cases h : dockerInstruction upper g <;> simp [h]]
    constructor
    · refine append_inj_of_pred (fun i => decide (i.line ∈ starts g)) ?_ ?_ ?_ ?_
      · exact fun i hi => decide_eq_true (line_of_kept hi)
      · exact fun i hi => decide_eq_true (line_of_docker hi)
      · exact fun i hi => decide_eq_false (hlater _ (line_of_kept hi))
      · exact fun i hi => decide_eq_false (hlater _ (hdocker i hi))
    · rintro ⟨hhead, htail⟩
      rw [hhead, htail]

end

/-! ## Usual lines -/

/-- The white space is blanks, tabs and line ends, and the line ends are `\n` and `\r\n`. -/
structure UsualLines (source : Text) : Prop where
  spaces : ∀ c ∈ source, isSpace c = true → c ∈ [' ', '\t', '\n', '\r']
  returns : ∀ before behind, source = before ++ '\r' :: behind → behind.head? = some '\n'

section

theorem UsualLines.tail {c : Char} {rest : Text} (h : UsualLines (c :: rest)) : UsualLines rest :=
  ⟨fun d hd => h.spaces d (List.mem_cons_of_mem _ hd),
    fun before behind heq => h.returns (c :: before) behind (by rw [heq, List.cons_append])⟩

theorem isSpace_of_isLineBoundary {c : Char} (h : isLineBoundary c = true) : isSpace c = true := by
  have hall : ['\n', '\r', '\x0b', '\x0c', '\x1c', '\x1d', '\x1e', '\u0085', '\u2028', '\u2029'].all isSpace := by
    decide
  exact List.all_eq_true.mp hall c (of_decide_eq_true h)

theorem pieces_of_usual {source : Text} (h : UsualLines source) :
    TextLines.pieces isLineBoundary source = TextLines.pieces (· = '\n') source := by
  induction source with
  | nil => rfl
  | cons c rest ih =>
    rw [TextLines.pieces, TextLines.pieces, ih h.tail]
    by_cases hcr : c = '\r' ∧ rest.head? = some '\n'
    · rw [if_pos hcr, if_pos hcr]
    rw [if_neg hcr, if_neg hcr]
    have hne : c ≠ '\r' := fun hc => hcr ⟨hc, h.returns [] rest (by rw [hc]; rfl)⟩
    have hsame : isLineBoundary c = true ↔ decide (c = '\n') = true := by
      rw [decide_eq_true_iff]
      constructor
      · intro hc
        have hmem := h.spaces c List.mem_cons_self (isSpace_of_isLineBoundary hc)
        simp only [List.mem_cons, List.not_mem_nil, or_false] at hmem
        rcases hmem with rfl | rfl | rfl | rfl
        · cases hc
        · cases hc
        · rfl
        · exact absurd rfl hne
      · rintro rfl
        rfl
    by_cases hc : isLineBoundary c = true
    · rw [if_pos hc, if_pos (hsame.mp hc)]
    · rw [if_neg hc, if_neg fun h => hc (hsame.mpr h)]

theorem mem_of_piece {ends : Char → Bool} {text p : Text} {c : Char} (hp : p ∈ TextLines.pieces ends text)
    (hc : c ∈ p) : c ∈ text ∧ ends c = false := by
  induction text generalizing p with
  | nil =>
    rw [TextLines.pieces, List.mem_singleton] at hp
    rw [hp] at hc
    cases hc
  | cons d rest ih =>
    rw [TextLines.pieces] at hp
    split at hp
    · exact (ih hp hc).imp_left (List.mem_cons_of_mem _)
    · split at hp
      · rcases List.mem_cons.mp hp with rfl | hp
        · cases hc
        · exact (ih hp hc).imp_left (List.mem_cons_of_mem _)
      next hd =>
        split at hp
        next hnil => exact absurd hnil (TextLines.pieces_ne_nil rest)
        next q qs hq =>
          rcases List.mem_cons.mp hp with rfl | hp
          · rcases List.mem_cons.mp hc with rfl | hc
            · exact ⟨List.mem_cons_self, Bool.eq_false_iff.mpr hd⟩
            · exact (ih (hq ▸ List.mem_cons_self) hc).imp_left (List.mem_cons_of_mem _)
          · exact (ih (hq ▸ List.mem_cons_of_mem _ hp) hc).imp_left (List.mem_cons_of_mem _)

theorem dropWhile_congr {p q : Char → Bool} {t : Text} (h : ∀ c ∈ t, p c = q c) : t.dropWhile p = t.dropWhile q := by
  induction t with
  | nil => rfl
  | cons c cs ih =>
    rw [List.dropWhile_cons, List.dropWhile_cons, h c List.mem_cons_self,
      ih fun d hd => h d (List.mem_cons_of_mem _ hd)]

theorem isSkipped_strip (raw : Text) : isSkipped (strip raw) = isSkipped (raw.dropWhile isSpace) := by
  cases hbody : raw.dropWhile isSpace with
  | nil =>
    rw [strip, hbody]
    rfl
  | cons c cs =>
    have hpre : strip raw <+: c :: cs := hbody ▸ List.rdropWhile_prefix isSpace _
    obtain ⟨w, hw⟩ := hpre
    cases hstrip : strip raw with
    | nil =>
      have hall := Trimming.trim_eq_nil.mp hstrip
      rw [List.dropWhile_eq_nil_iff.mpr hall] at hbody
      cases hbody
    | cons d ds =>
      rw [hstrip, List.cons_append] at hw
      rw [(List.cons.inj hw).1]
      rfl

theorem classify_eq_readLine {raw : Text} (h : ∀ c ∈ raw, isSpace c = true → c = ' ' ∨ c = '\t') :
    classify raw = readLine raw := by
  have htext : (raw.dropWhile isSpace).rdropWhile (fun c => c = ' ' || c = '\t') = strip raw := by
    rw [strip, List.rdropWhile, List.rdropWhile]
    refine congrArg List.reverse (dropWhile_congr fun c hc => ?_)
    have hmem := (List.dropWhile_sublist isSpace).subset (List.mem_reverse.mp hc)
    rw [Bool.eq_iff_iff]
    constructor
    · intro hblank
      rcases (Bool.or_eq_true _ _).mp hblank with hblank | hblank
      · rw [of_decide_eq_true hblank]
        rfl
      · rw [of_decide_eq_true hblank]
        rfl
    · intro hspace
      simpa using h c hmem hspace
  rw [classify, readLine, isSkipped_strip]
  simp only [htext]

theorem lines_of_usual {source : Text} (h : UsualLines source) :
    (TextLines.splitLines isLineBoundary source).map classify =
      (TextLines.splitLines (· = '\n') source).map readLine := by
  have hlines : TextLines.splitLines isLineBoundary source = TextLines.splitLines (· = '\n') source := by
    rw [TextLines.splitLines, TextLines.splitLines, pieces_of_usual h]
  rw [← hlines]
  refine List.map_congr_left fun raw hraw => classify_eq_readLine fun c hc hspace => ?_
  have hpiece : raw ∈ TextLines.pieces isLineBoundary source := by
    rw [TextLines.splitLines] at hraw
    split at hraw
    · exact List.mem_of_mem_dropLast hraw
    · exact hraw
  obtain ⟨hmem, hends⟩ := mem_of_piece hpiece hc
  have hone := h.spaces c hmem hspace
  simp only [List.mem_cons, List.not_mem_nil, or_false] at hone
  rcases hone with rfl | rfl | rfl | rfl
  · exact .inl rfl
  · exact .inr rfl
  · cases hends
  · cases hends

end

section

variable {upper : Text → Text}

theorem parse_eq_filterMap {source : Text} (h : UsualLines source) : parseDockerfileInstructions upper source =
    (logicalLines source).flatten.filterMap (keptInstruction upper) := by
  have hblocks := @instructionsFrom_eq upper 1 [] none (TextLines.splitLines isLineBoundary source)
  rw [lines_of_usual h, List.map_nil, List.nil_append] at hblocks
  rw [parseDockerfileInstructions, show (none : Option (ℕ × List Text)) = unfinishedOf none from rfl, ← hblocks,
    ← logicalLines]
  generalize (logicalLines source).flatten = blocks
  induction blocks with
  | nil => rfl
  | cons b rest ih =>
    rw [List.map_cons, List.filter_cons, List.filterMap_cons, ih, keptInstruction]
    by_cases hkey : (blockInstruction upper b).keyword = []
    · simp [hkey]
    · simp [hkey]

/-- A comment in a continued `RUN`. -/
def commentInContinuation : Text := "RUN a \\\n# c\nUSER root\n".toList

end

end TimeCodeSecurity.Iac
