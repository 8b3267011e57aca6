import TimeCodeSecurity.Secrets.TextScan

/-! # What a context shows

The surviving matches of a line do not overlap, so masking them from left to right gives the text that the
code builds from right to left, and exactly their characters stand masked.
-/
namespace TimeCodeSecurity.Secrets
open Replacing
set_option autoImplicit false

/-! ## Matches -/

structure Candidate.Fits (line : List Char) (c : Candidate) : Prop where
  start_le : c.start ≤ c.stop
  stop_le : c.stop ≤ line.length
  nonempty : c.start < c.stop
  old : oldText (c.segs line) = slice line c.start c.stop
  shown : shownText (c.segs line) = c.maskedValue

theorem length_slice {line : List Char} {a b : ℕ} (h : b ≤ line.length) : (slice line a b).length = b - a := by
  rw [slice, List.length_drop, List.length_take, Nat.min_eq_left h]

theorem take_slice {line : List Char} {a b k : ℕ} (h : a + k ≤ b) :
    (slice line a b).take k = slice line a (a + k) := by
  rw [slice, slice, List.take_drop, List.take_take, Nat.min_eq_left h]

theorem fits_maskedMatch {precedence : ℕ} (hprecedence : precedence ≠ 6) (name : String) {line : List Char}
    {m : Span} (hlt : m.start < m.stop) (hle : m.stop ≤ line.length) :
    (maskedMatch precedence name line m).Fits line := by
  have hsegs : (maskedMatch precedence name line m).segs line = maskSegs (slice line m.start m.stop) :=
    if_neg hprecedence
  refine ⟨hlt.le, hle, hlt, ?_, ?_⟩
  · rw [hsegs, oldText_maskSegs]
    rfl
  · rw [hsegs, shownText_maskSegs]
    rfl

theorem fits_maskedMatches {precedence : ℕ} (hprecedence : precedence ≠ 6) (name : String) (r : TokenRegex)
    {line : List Char} {c : Candidate} (hc : c ∈ maskedMatches precedence name r.toRegex line) :
    c.Fits line := by
  obtain ⟨m, hm, rfl⟩ := List.mem_map.mp hc
  exact fits_maskedMatch hprecedence name (r.nonempty line m hm) (r.inLine line m hm).2

theorem fits_dbUriMatches {H : Host} {line : List Char} {c : Candidate} (hc : c ∈ dbUriMatches H line) :
    c.Fits line := by
  obtain ⟨m, hm, hparsed⟩ := List.mem_filterMap.mp hc
  obtain ⟨parsed, hparse, rfl⟩ := Option.map_eq_some_iff.mp hparsed
  obtain ⟨segs, hsegs, rfl⟩ := Option.map_eq_some_iff.mp hparse
  have hin := H.dbUri.inLine line m hm
  obtain ⟨after, hafter⟩ := trimUri_prefix (slice line m.start m.stop)
  -- the match without its trailing delimiters, as a piece of the line
  have hlength : (trimUri (slice line m.start m.stop)).length ≤ m.stop - m.start := by
    have hle := congrArg List.length hafter
    rw [List.length_append, length_slice hin.2] at hle
    omega
  have hslice : slice line m.start (m.start + (trimUri (slice line m.start m.stop)).length) =
      trimUri (slice line m.start m.stop) := by
    have hstop : m.start + (trimUri (slice line m.start m.stop)).length ≤ m.stop := by omega
    rw [← take_slice hstop]
    nth_rewrite 2 [← hafter]
    exact List.take_left
  have hne : trimUri (slice line m.start m.stop) ≠ [] := by
    intro hnil
    rw [hnil] at hsegs
    cases hsegs
  have hpos := List.length_pos_of_ne_nil hne
  refine ⟨?_, ?_, ?_, ?_, ?_⟩
  · exact Nat.le_add_right _ _
  · show m.start + (trimUri (slice line m.start m.stop)).length ≤ line.length
    omega
  · show m.start < m.start + (trimUri (slice line m.start m.stop)).length
    omega
  · show oldText (if (6 : ℕ) = 6 then (dbUriSegs (slice line m.start _)).getD [] else _) = slice line m.start _
    rw [if_pos rfl, hslice, hsegs]
    exact oldText_dbUriSegs hsegs
  · show shownText (if (6 : ℕ) = 6 then (dbUriSegs (slice line m.start _)).getD [] else _) = _
    rw [if_pos rfl, hslice, hsegs]
    rfl

theorem fits_candidates {H : Host} {filename : String} {isDocstring : Bool} {line : List Char} {c : Candidate}
    (hc : c ∈ candidates H filename isDocstring line) : c.Fits line := by
  simp only [candidates, List.mem_append] at hc
  rcases hc with hc | hc | hc | hc | hc | hc | hc | hc | hc
  · obtain ⟨m, hm, rfl⟩ := List.mem_map.mp hc
    have hm := (List.mem_filter.mp hm).1
    exact fits_maskedMatch (by decide) _ (H.privateKey.nonempty line m hm) (H.privateKey.inLine line m hm).2
  · exact fits_maskedMatches (by decide) _ _ hc
  · exact fits_maskedMatches (by decide) _ _ hc
  · exact fits_maskedMatches (by decide) _ _ hc
  · exact fits_maskedMatches (by decide) _ _ hc
  · exact fits_maskedMatches (by decide) _ _ hc
  · exact fits_dbUriMatches hc
  · exact fits_maskedMatches (by decide) _ _ hc
  · obtain ⟨row, _, hrow⟩ := List.mem_flatMap.mp hc
    obtain ⟨m, hm, rfl⟩ := List.mem_map.mp hrow
    obtain ⟨hm, hne⟩ := List.mem_filter.mp hm
    have hin := row.2.inLine line m hm
    have hne : m.start ≠ m.stop := of_decide_eq_true hne
    exact fits_maskedMatch (by decide) _ (by omega) hin.2

def Apart (c c' : Candidate) : Prop := overlaps c c' = false

theorem accept_spec {accepted : List Candidate} (h : accepted.Pairwise Apart) (c : Candidate) :
    (accept accepted c).Pairwise Apart ∧ ∀ a ∈ accept accepted c, a ∈ accepted ∨ a = c := by
  rw [accept]
  split_ifs with hany
  · exact ⟨h, fun a ha => .inl ha⟩
  · constructor
    · refine List.pairwise_append.mpr ⟨h, List.pairwise_singleton _ _, fun a ha c' hc' => ?_⟩
      rw [List.mem_singleton.mp hc', Apart, Bool.eq_false_iff]
      intro hover
      refine hany (List.any_eq_true.mpr ⟨a, ha, ?_⟩)
      rw [overlaps, max_comm, min_comm]
      exact hover
    · intro a ha
      exact (List.mem_append.mp ha).imp_right fun h => List.mem_singleton.mp h

theorem survivors_spec (cs : List Candidate) :
    (survivors cs).Pairwise Apart ∧ ∀ c ∈ survivors cs, c ∈ cs := by
  have hfold : ∀ (rest accepted : List Candidate), accepted.Pairwise Apart →
      (rest.foldl accept accepted).Pairwise Apart ∧
        ∀ c ∈ rest.foldl accept accepted, c ∈ accepted ∨ c ∈ rest := by
    intro rest
    induction rest with
    | nil => exact fun accepted h => ⟨h, fun c hc => .inl hc⟩
    | cons c rest ih =>
      intro accepted h
      obtain ⟨hstep, hmem⟩ := accept_spec h c
      obtain ⟨hrest, hall⟩ := ih (accept accepted c) hstep
      refine ⟨hrest, fun a ha => ?_⟩
      rcases hall a ha with ha | ha
      · exact (hmem a ha).imp_right fun heq => by rw [heq]; exact List.mem_cons_self
      · exact .inr (List.mem_cons_of_mem c ha)
  obtain ⟨hpairwise, hmem⟩ := hfold (cs.insertionSort RanksFirst) [] .nil
  refine ⟨hpairwise, fun c hc => ?_⟩
  exact (List.mem_insertionSort _).mp ((hmem c hc).resolve_left List.not_mem_nil)

theorem ordered_survivors {line : List Char} {cs : List Candidate} (hfits : ∀ c ∈ cs, c.Fits line) :
    (((survivors cs).insertionSort fun c c' => c'.start ≤ c.start).reverse).Pairwise
      fun c c' => c.stop ≤ c'.start := by
  have hsorted : ((survivors cs).insertionSort fun c c' => c'.start ≤ c.start).Pairwise
      fun c c' => c'.start ≤ c.start := by
    have htotal : Std.Total fun c c' : Candidate => c'.start ≤ c.start := ⟨fun c c' => Nat.le_total _ _⟩
    have htrans : IsTrans Candidate fun c c' => c'.start ≤ c.start := ⟨fun _ _ _ h h' => h'.trans h⟩
    exact List.pairwise_insertionSort _ _
  have hapart : ((survivors cs).insertionSort fun c c' => c'.start ≤ c.start).Pairwise Apart := by
    refine (survivors_spec cs).1.perm (List.perm_insertionSort _ _).symm fun {c c'} h => ?_
    rw [Apart, overlaps, max_comm, min_comm]
    exact h
  rw [List.pairwise_reverse]
  refine (hsorted.and hapart).imp_of_mem fun {c c'} hc hc' h => ?_
  have hfit : ∀ x ∈ (survivors cs).insertionSort (fun c c' => c'.start ≤ c.start), x.start < x.stop :=
    fun x hx => (hfits x ((survivors_spec cs).2 x ((List.mem_insertionSort _).mp hx))).nonempty
  have hlt := hfit c hc
  have hlt' := hfit c' hc'
  have hno : ¬ max c.start c'.start < min c.stop c'.stop := of_decide_eq_false h.2
  have hle := h.1
  omega

/-- Matches that come one after the other from `offset` on. -/
def InOrder (line : List Char) (offset : ℕ) (cs : List Candidate) : Prop :=
  (∀ c ∈ cs, offset ≤ c.start ∧ c.Fits line) ∧ cs.Pairwise fun c c' => c.stop ≤ c'.start

theorem InOrder.tail {line : List Char} {offset : ℕ} {c : Candidate} {cs : List Candidate}
    (h : InOrder line offset (c :: cs)) : InOrder line c.stop cs := by
  obtain ⟨hall, hpairwise⟩ := h
  rw [List.forall_mem_cons] at hall
  rw [List.pairwise_cons] at hpairwise
  exact ⟨fun c' hc' => ⟨hpairwise.1 c' hc', (hall.2 c' hc').2⟩, hpairwise.2⟩

theorem contextText_append (xs ys : List Part) : contextText (xs ++ ys) = contextText xs ++ contextText ys := by
  rw [contextText, contextSegs, List.flatMap_append, shownText_append]
  rfl

theorem contextText_plain (s : List Char) : contextText (s.map .plain) = s := by
  induction s with
  | nil => rfl
  | cons c s ih => exact congrArg (c :: ·) ih

theorem contextText_masked (segs : List Seg) (parts : List Part) :
    contextText (.masked segs :: parts) = shownText segs ++ contextText parts := by
  rw [contextText, contextSegs, List.flatMap_cons, shownText_append]
  rfl

/-- Masked from right to left or from left to right, the text is the same. -/
theorem foldr_splice {line : List Char} {cs : List Candidate} {offset : ℕ} (h : InOrder line offset cs)
    (hoffset : offset ≤ line.length) :
    cs.foldr (fun c context => context.take c.start ++ (c.maskedValue ++ context.drop c.stop)) line =
      line.take offset ++ contextText (maskFrom line offset cs) := by
  induction cs generalizing offset with
  | nil => rw [List.foldr_nil, maskFrom, contextText_plain, List.take_append_drop]
  | cons c cs ih =>
    obtain ⟨hstart, hfits⟩ := h.1 c List.mem_cons_self
    have htake : (line.take c.stop).length = c.stop := by
      rw [List.length_take, Nat.min_eq_left hfits.stop_le]
    have hfirst : (line.take c.stop ++ contextText (maskFrom line c.stop cs)).take c.start =
        line.take c.start := by
      rw [List.take_append_of_le_length (by rw [htake]; exact hfits.start_le), List.take_take,
        Nat.min_eq_left hfits.start_le]
    have hlast : (line.take c.stop ++ contextText (maskFrom line c.stop cs)).drop c.stop =
        contextText (maskFrom line c.stop cs) := List.drop_left' htake
    have hjoin : line.take c.start = line.take offset ++ slice line offset c.start := by
      rw [slice, List.drop_take, ← List.take_add]
      congr 1
      omega
    rw [List.foldr_cons, ih h.tail hfits.stop_le, hfirst, hlast, hjoin, maskFrom, contextText_append,
      contextText_plain, contextText_masked, hfits.shown, List.append_assoc]

theorem inOrder_survivors {line : List Char} {cs : List Candidate} (hfits : ∀ c ∈ cs, c.Fits line) :
    InOrder line 0 ((survivors cs).insertionSort fun c c' => c'.start ≤ c.start).reverse := by
  refine ⟨fun c hc => ⟨Nat.zero_le _, hfits c ?_⟩, ordered_survivors hfits⟩
  exact (survivors_spec cs).2 c ((List.mem_insertionSort _).mp (List.mem_reverse.mp hc))

/-- The text of the context of a line is the one that the code builds. -/
theorem contextText_maskLine {line : List Char} {cs : List Candidate} (hfits : ∀ c ∈ cs, c.Fits line) :
    contextText (maskLine line (survivors cs)) = redactedContext line (survivors cs) := by
  have hsplice := foldr_splice (inOrder_survivors hfits) (Nat.zero_le _)
  rw [List.take_zero, List.nil_append, List.foldr_reverse] at hsplice
  exact hsplice.symm

theorem contextText_maskLine_two_keys :
    contextText (maskLine "key1 key2".toList (survivors
        [⟨0, 0, 4, "", "", maskSecret "key1".toList⟩, ⟨1, 5, 9, "", "", maskSecret "key2".toList⟩])) =
      redactedContext "key1 key2".toList (survivors
        [⟨0, 0, 4, "", "", maskSecret "key1".toList⟩, ⟨1, 5, 9, "", "", maskSecret "key2".toList⟩]) := by
  refine contextText_maskLine fun c hc => ?_
  rcases List.mem_pair.mp hc with rfl | rfl <;>
    exact ⟨by decide, by decide, by decide, by decide, by decide⟩

/-- The text of the context of an assignment is what `replace` gives. -/
theorem contextText_maskValueFrom {value : List Char} (skip : ℕ) (line : List Char) :
    contextText (maskValueFrom value skip line) = replaceFrom value (maskSecret value) skip line := by
  induction line generalizing skip with
  | nil =>
    cases skip <;> rfl
  | cons c rest ih =>
    cases skip with
    | succ skip => exact ih skip
    | zero =>
      rw [maskValueFrom, replaceFrom]
      split_ifs with h
      · rw [contextText_masked, shownText_maskSegs, ih]
      · rw [← ih 0]
        rfl

/-- The character with number `p` of the line stands masked. -/
def Stands (parts : List Part) (p : ℕ) : Prop := (maskedFlags parts)[p]? = some true

theorem maskedFlags_plain (s : List Char) : maskedFlags (s.map .plain) = List.replicate s.length false := by
  induction s with
  | nil => rfl
  | cons c s ih => exact congrArg (false :: ·) ih

theorem stands_maskFrom {line : List Char} {cs : List Candidate} {offset : ℕ} (h : InOrder line offset cs)
    (hoffset : offset ≤ line.length) (i : ℕ) :
    Stands (maskFrom line offset cs) i ↔ ∃ c ∈ cs, c.start ≤ offset + i ∧ offset + i < c.stop := by
  induction cs generalizing offset i with
  | nil =>
    rw [Stands, maskFrom, maskedFlags_plain, List.getElem?_replicate]
    refine iff_of_false ?_ ?_
    · split_ifs <;> simp
    · intro ⟨_, hc, _⟩
      cases hc
  | cons c cs ih =>
    obtain ⟨hstart, hfits⟩ := h.1 c List.mem_cons_self
    have hlt := hfits.nonempty
    have hle := hfits.stop_le
    have hbefore : (slice line offset c.start).length = c.start - offset := length_slice (by omega)
    have hinside : (oldText (c.segs line)).length = c.stop - c.start := by
      rw [hfits.old, length_slice hle]
    have hflags : maskedFlags (maskFrom line offset (c :: cs)) =
        List.replicate (c.start - offset) false ++ (List.replicate (c.stop - c.start) true ++
          maskedFlags (maskFrom line c.stop cs)) := by
      rw [maskFrom, maskedFlags, List.flatMap_append]
      show maskedFlags ((slice line offset c.start).map .plain) ++
        (List.replicate (oldText (c.segs line)).length true ++ maskedFlags (maskFrom line c.stop cs)) = _
      rw [maskedFlags_plain, hbefore, hinside]
    -- the later matches start where this one has stopped
    have hlater : ∀ c' ∈ cs, c.stop ≤ c'.start := fun c' hc' => (h.tail.1 c' hc').1
    rw [Stands, hflags]
    by_cases hone : i < c.start - offset
    · rw [List.getElem?_append_left (by simpa using hone), List.getElem?_replicate, if_pos hone]
      refine iff_of_false (by simp) fun ⟨c', hc', hfrom, _⟩ => ?_
      rcases List.mem_cons.mp hc' with rfl | hc'
      · omega
      · have := hlater c' hc'
        omega
    · rw [List.getElem?_append_right (by simpa using hone), List.length_replicate]
      by_cases htwo : i - (c.start - offset) < c.stop - c.start
      · rw [List.getElem?_append_left (by simpa using htwo), List.getElem?_replicate, if_pos htwo]
        have hin : c.start ≤ offset + i ∧ offset + i < c.stop := by omega
        exact iff_of_true rfl ⟨c, List.mem_cons_self, hin⟩
      · rw [List.getElem?_append_right (by simpa using htwo), List.length_replicate]
        have hindex : c.stop + (i - (c.start - offset) - (c.stop - c.start)) = offset + i := by omega
        have hrest := ih h.tail hle (i - (c.start - offset) - (c.stop - c.start))
        rw [Stands, hindex] at hrest
        rw [hrest]
        constructor
        · intro ⟨c', hc', hin⟩
          exact ⟨c', List.mem_cons_of_mem c hc', hin⟩
        · intro ⟨c', hc', hin⟩
          rcases List.mem_cons.mp hc' with rfl | hc'
          · omega
          · exact ⟨c', hc', hin⟩

theorem stands_maskLine {line : List Char} {cs : List Candidate} (hfits : ∀ c ∈ cs, c.Fits line) (p : ℕ) :
    Stands (maskLine line (survivors cs)) p ↔ ∃ c ∈ survivors cs, c.start ≤ p ∧ p < c.stop := by
  rw [maskLine, stands_maskFrom (inOrder_survivors hfits) (Nat.zero_le _), Nat.zero_add]
  simp only [List.mem_reverse, List.mem_insertionSort]

theorem infix_contextSegs {line : List Char} {cs : List Candidate} {c : Candidate} (hc : c ∈ cs) (offset : ℕ) :
    c.segs line <:+: contextSegs (maskFrom line offset cs) := by
  induction cs generalizing offset with
  | nil => cases hc
  | cons c' cs ih =>
    have hsplit : contextSegs (maskFrom line offset (c' :: cs)) =
        contextSegs ((slice line offset c'.start).map .plain) ++
          (c'.segs line ++ contextSegs (maskFrom line c'.stop cs)) := by
      rw [maskFrom, contextSegs, List.flatMap_append]
      rfl
    rw [hsplit]
    rcases List.mem_cons.mp hc with rfl | hc
    · exact (List.prefix_append _ _).isInfix.trans (List.suffix_append _ _).isInfix
    · exact (ih hc c'.stop).trans ((List.suffix_append _ _).isInfix.trans (List.suffix_append _ _).isInfix)

end TimeCodeSecurity.Secrets
