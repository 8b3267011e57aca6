import TimeCodeSecurity.Foundations.Linearization
import TimeCodeSecurity.Foundations.Pep440

/-! # Version texts

How the grammar reads a text from left to right. Every stage takes characters of the version alphabet
off the front and leaves the rest as it is, and none of them looks past a `+`. So a label can be put
behind a text, or made longer, without changing how what stands before it is read; and a release
written out with `showDotted` reads back as that release.
-/
namespace TimeCodeSecurity.Pep440
set_option autoImplicit false

variable {α : Type}

def Spelled (c : Char) : Prop := c.isAlphanum = true ∨ c ∈ ['.', '-', '_', '!']

instance (c : Char) : Decidable (Spelled c) := inferInstanceAs (Decidable (_ ∨ _))

/-- `rest` is what is left of `cs` after some characters of the alphabet. -/
def Leaves (cs rest : List Char) : Prop := ∃ taken, cs = taken ++ rest ∧ ∀ c ∈ taken, Spelled c

def AtLabel (u : List Char) : Prop := ∀ c ∈ u.head?, c = '+'

structure PartialStage (f : List Char → Option (α × List Char)) : Prop where
  leaves : ∀ {cs x rest}, f cs = some (x, rest) → Leaves cs rest
  append : ∀ cs {u}, AtLabel u → f (cs ++ u) = (f cs).map fun p => (p.1, p.2 ++ u)

structure Stage (f : List Char → α × List Char) : Prop where
  leaves : ∀ cs, Leaves cs (f cs).2
  append : ∀ cs {u}, AtLabel u → f (cs ++ u) = ((f cs).1, (f cs).2 ++ u)

theorem Leaves.refl (cs : List Char) : Leaves cs cs := ⟨[], by simp⟩

theorem Leaves.trans {a b c : List Char} (hab : Leaves a b) (hbc : Leaves b c) : Leaves a c := by
  obtain ⟨x, rfl, hx⟩ := hab
  obtain ⟨y, rfl, hy⟩ := hbc
  refine ⟨x ++ y, by simp, fun d hd => ?_⟩
  rcases List.mem_append.mp hd with hd | hd
  · exact hx d hd
  · exact hy d hd

theorem Leaves.cons {c : Char} {cs : List Char} (hc : Spelled c) : Leaves (c :: cs) cs :=
  ⟨[c], rfl, by simpa using hc⟩

theorem spelled_of_isDigit {c : Char} (hc : c.isDigit = true) : Spelled c := by
  left
  simp [Char.isAlphanum, hc]

theorem not_isDigit_plus : Char.isDigit '+' = false := by decide

/-! ## Numbers and releases -/

theorem AtLabel.takeWhile_append {p : Char → Bool} (hp : p '+' = false) {u : List Char} (hu : AtLabel u)
    (cs : List Char) : (cs ++ u).takeWhile p = cs.takeWhile p ∧ (cs ++ u).dropWhile p = cs.dropWhile p ++ u := by
  induction cs with
  | nil =>
    cases u with
    | nil => simp
    | cons c u =>
      obtain rfl : c = '+' := hu c rfl
      simp [hp]
  | cons c cs ih =>
    by_cases hc : p c = true
    · simp [hc, ih.1, ih.2]
    · simp [hc]

theorem number_eq (cs : List Char) : number cs =
    if cs.takeWhile Char.isDigit = [] then none
    else some (readNat (cs.takeWhile Char.isDigit), cs.dropWhile Char.isDigit) := by
  simp only [number, List.span_eq_takeWhile_dropWhile]
  split
  next h => simp [(Prod.mk.inj h).1]
  next hne h =>
    obtain ⟨rfl, rfl⟩ := Prod.mk.inj h
    have hds : cs.takeWhile Char.isDigit ≠ [] := fun hnil => hne hnil
    simp [hds]

theorem number_stage : PartialStage number where
  leaves := by
    intro cs n rest h
    rw [number_eq] at h
    split at h
    · cases h
    · cases h
      exact ⟨cs.takeWhile Char.isDigit, List.takeWhile_append_dropWhile.symm, fun c hc =>
        spelled_of_isDigit (List.mem_takeWhile_imp hc)⟩
  append := by
    intro cs u hu
    obtain ⟨ht, hd⟩ := hu.takeWhile_append not_isDigit_plus cs
    rw [number_eq, number_eq, ht, hd]
    split <;> rfl

theorem releaseTail_leaves (acc : ℕ) (cs : List Char) : Leaves cs (releaseTail acc cs).2 := by
  fun_induction releaseTail acc cs with
  | case1 acc c cs hc ns rest h ih =>
    rw [h] at ih
    exact ((Leaves.cons (by decide)).trans (Leaves.cons (spelled_of_isDigit hc))).trans ih
  | case2 acc c cs hc => exact Leaves.refl _
  | case3 acc c cs hne hc ih => exact (Leaves.cons (spelled_of_isDigit hc)).trans ih
  | case4 acc c cs hne hc => exact Leaves.refl _
  | case5 acc => exact Leaves.refl _

theorem releaseTail_atLabel (acc : ℕ) {u : List Char} (hu : AtLabel u) :
    releaseTail acc u = ([acc], u) := by
  cases u with
  | nil => rfl
  | cons c u =>
    obtain rfl : c = '+' := hu c rfl
    simp [releaseTail]

theorem releaseTail_stage (acc : ℕ) : Stage (releaseTail acc) where
  leaves := releaseTail_leaves acc
  append := by
    intro cs u hu
    fun_induction releaseTail acc cs with
    | case1 acc c cs hc ns rest h ih =>
      rw [h] at ih
      simp [releaseTail, hc, ih]
    | case2 acc c cs hc => simp [releaseTail, hc]
    | case3 acc c cs hne hc ih =>
      have hdot : c ≠ '.' := by
        intro heq
        rw [heq] at hc
        exact absurd hc (by decide)
      simp [releaseTail, hc, hdot, ih]
    | case4 acc c cs hne hc =>
      -- a full stop at the very end: what follows it is no digit either
      by_cases hdot : c = '.'
      · subst hdot
        cases cs with
        | cons d cs => exact absurd rfl (hne d cs rfl)
        | nil =>
          cases u with
          | nil => simp [releaseTail]
          | cons d u =>
            obtain rfl : d = '+' := hu d rfl
            simp [releaseTail]
      · simp [releaseTail, hc, hdot]
    | case5 acc => simpa using releaseTail_atLabel acc hu

theorem release_stage : PartialStage release where
  leaves := by
    intro cs r rest h
    cases cs with
    | nil => cases h
    | cons c cs =>
      simp only [release] at h
      split at h
      next hc =>
        have hrest : (releaseTail (digitValue c) cs).2 = rest := congrArg Prod.snd (Option.some.inj h)
        rw [← hrest]
        exact (Leaves.cons (spelled_of_isDigit hc)).trans (releaseTail_leaves _ _)
      next => cases h
  append := by
    intro cs u hu
    cases cs with
    | nil =>
      cases u with
      | nil => rfl
      | cons c u =>
        obtain rfl : c = '+' := hu c rfl
        simp [release]
    | cons c cs =>
      by_cases hc : c.isDigit = true
      · simp [release, hc, (releaseTail_stage _).append cs hu]
      · simp [release, hc]

/-! ## Separators and keywords -/

theorem dropSeparator_leaves (cs : List Char) : Leaves cs (dropSeparator cs) := by
  cases cs with
  | nil => exact Leaves.refl _
  | cons c cs =>
    simp only [dropSeparator]
    split
    next hc =>
      refine Leaves.cons (.inr ?_)
      revert hc
      simp only [List.mem_cons, List.not_mem_nil, or_false]
      tauto
    next => exact Leaves.refl _

theorem dropSeparator_append (cs : List Char) {u : List Char} (hu : AtLabel u) :
    dropSeparator (cs ++ u) = dropSeparator cs ++ u := by
  cases cs with
  | nil =>
    cases u with
    | nil => rfl
    | cons c u =>
      obtain rfl : c = '+' := hu c rfl
      simp [dropSeparator]
  | cons c cs =>
    simp only [dropSeparator, List.cons_append]
    split <;> rfl

theorem optionalNumber_stage : Stage optionalNumber where
  leaves := by
    intro cs
    unfold optionalNumber
    cases h : number (dropSeparator cs) with
    | none => exact dropSeparator_leaves cs
    | some p => exact (dropSeparator_leaves cs).trans (number_stage.leaves (x := p.1) h)
  append := by
    intro cs u hu
    rw [optionalNumber, optionalNumber, dropSeparator_append cs hu, number_stage.append _ hu]
    cases number (dropSeparator cs) <;> rfl

theorem leaves_of_dropPrefix? {w cs rest : List Char} (hw : ∀ c ∈ w, Spelled c)
    (h : cs.dropPrefix? w = some rest) : Leaves cs rest := by
  obtain ⟨w', hcs, heq⟩ := List.dropPrefix?_eq_some_iff.mp h
  obtain rfl : w' = w := by simpa using heq
  exact ⟨w', hcs, hw⟩

theorem dropPrefix?_atLabel {w : List Char} (hw : '+' ∉ w) (cs : List Char) {u : List Char}
    (hu : AtLabel u) : (cs ++ u).dropPrefix? w = (cs.dropPrefix? w).map (· ++ u) := by
  induction w generalizing cs with
  | nil => simp
  | cons d w ih =>
    have hd : d ≠ '+' := fun heq => hw (heq ▸ List.mem_cons_self)
    have hw' : '+' ∉ w := fun hmem => hw (List.mem_cons_of_mem _ hmem)
    cases cs with
    | nil =>
      cases u with
      | nil => rfl
      | cons c u =>
        obtain rfl : c = '+' := hu c rfl
        simp [List.dropPrefix?, hd.symm]
    | cons c cs =>
      simp only [List.cons_append, List.dropPrefix?]
      split
      · exact ih hw' cs
      · rfl

def SpelledWords {β : Type} (words : List (String × β)) : Prop :=
  ∀ w ∈ words, ∀ c ∈ w.1.toList, Spelled c

instance {β : Type} (words : List (String × β)) : Decidable (SpelledWords words) :=
  decidable_of_iff ((words.all fun w => w.1.toList.all fun c => decide (Spelled c)) = true)
    (by simp [SpelledWords])

theorem not_spelled_plus : ¬ Spelled '+' := by decide

theorem keyword_stage {words : List (String × α)} (hwords : SpelledWords words) :
    PartialStage (keyword words) where
  leaves := by
    intro cs x rest h
    obtain ⟨⟨w, a⟩, hmem, hsome⟩ := List.exists_of_findSome?_eq_some h
    obtain ⟨r, hr, heq⟩ := Option.map_eq_some_iff.mp hsome
    cases heq
    exact leaves_of_dropPrefix? (hwords _ hmem) hr
  append := by
    intro cs u hu
    unfold keyword
    induction words with
    | nil => rfl
    | cons w words ih =>
      have hw : '+' ∉ w.1.toList := fun hmem =>
        not_spelled_plus (hwords w List.mem_cons_self _ hmem)
      have ih' := ih fun v hv => hwords v (List.mem_cons_of_mem _ hv)
      simp only [List.findSome?_cons, dropPrefix?_atLabel hw cs hu]
      cases cs.dropPrefix? w.1.toList with
      | none => simpa using ih'
      | some r => rfl

theorem spelledWords_pre : SpelledWords preWords := by decide

theorem spelledWords_post : SpelledWords postWords := by decide

theorem spelledWords_dev : SpelledWords [("dev", ())] := by decide

theorem preSegment_stage : Stage preSegment where
  leaves := by
    intro cs
    unfold preSegment
    cases h : keyword preWords (dropSeparator cs) with
    | none => exact Leaves.refl _
    | some p =>
      exact ((dropSeparator_leaves cs).trans ((keyword_stage spelledWords_pre).leaves (x := p.1) h)).trans
        (optionalNumber_stage.leaves _)
  append := by
    intro cs u hu
    rw [preSegment, preSegment, dropSeparator_append cs hu, (keyword_stage spelledWords_pre).append _ hu]
    cases keyword preWords (dropSeparator cs) with
    | none => rfl
    | some p => simp [optionalNumber_stage.append _ hu]

theorem hyphen_number_stage : PartialStage fun cs => (cs.dropPrefix? ['-']).bind number where
  leaves := by
    intro cs n rest h
    obtain ⟨r, hr, hn⟩ := Option.bind_eq_some_iff.mp h
    exact (leaves_of_dropPrefix? (by simp [Spelled]) hr).trans (number_stage.leaves hn)
  append := by
    intro cs u hu
    rw [dropPrefix?_atLabel (by decide) cs hu]
    cases cs.dropPrefix? ['-'] with
    | none => rfl
    | some r => exact number_stage.append r hu

theorem postSegment_stage : Stage postSegment where
  leaves := by
    intro cs
    unfold postSegment
    split
    next n rest h => exact hyphen_number_stage.leaves h
    next =>
      cases h : keyword postWords (dropSeparator cs) with
      | none => exact Leaves.refl _
      | some p =>
        exact ((dropSeparator_leaves cs).trans
          ((keyword_stage spelledWords_post).leaves (x := p.1) h)).trans (optionalNumber_stage.leaves _)
  append := by
    intro cs u hu
    have hhyphen := hyphen_number_stage.append cs hu
    rw [postSegment, postSegment, hhyphen, dropSeparator_append cs hu,
      (keyword_stage spelledWords_post).append _ hu]
    cases (cs.dropPrefix? ['-']).bind number with
    | some p => rfl
    | none =>
      cases keyword postWords (dropSeparator cs) with
      | none => rfl
      | some p => simp [optionalNumber_stage.append _ hu]

theorem devSegment_stage : Stage devSegment where
  leaves := by
    intro cs
    unfold devSegment
    cases h : keyword [("dev", ())] (dropSeparator cs) with
    | none => exact Leaves.refl _
    | some p =>
      exact ((dropSeparator_leaves cs).trans ((keyword_stage spelledWords_dev).leaves (x := p.1) h)).trans
        (optionalNumber_stage.leaves _)
  append := by
    intro cs u hu
    rw [devSegment, devSegment, dropSeparator_append cs hu, (keyword_stage spelledWords_dev).append _ hu]
    cases keyword [("dev", ())] (dropSeparator cs) with
    | none => rfl
    | some p => simp [optionalNumber_stage.append _ hu]

/-! ## The public part -/

theorem epochRelease_stage : PartialStage fun cs => (epochRelease cs).map fun p => ((p.1, p.2.1), p.2.2) where
  leaves := by
    intro cs x rest h
    obtain ⟨⟨e, r, tail⟩, hread, heq⟩ := Option.map_eq_some_iff.mp h
    cases heq
    unfold epochRelease at hread
    split at hread
    next e' rest' hn =>
      obtain ⟨⟨r', tail'⟩, hr, heq⟩ := Option.map_eq_some_iff.mp hread
      cases heq
      exact ((number_stage.leaves hn).trans (Leaves.cons (by decide))).trans (release_stage.leaves hr)
    next =>
      obtain ⟨⟨r', tail'⟩, hr, heq⟩ := Option.map_eq_some_iff.mp hread
      cases heq
      exact release_stage.leaves hr
  append := by
    intro cs u hu
    have hn := number_stage.append cs hu
    have hr := release_stage.append cs hu
    cases hcs : number cs with
    | none =>
      rw [hcs] at hn
      simp only [epochRelease, hn, hcs, Option.map_none, hr, Option.map_map]
      rfl
    | some p =>
      obtain ⟨e, rest⟩ := p
      rw [hcs] at hn
      by_cases hbang : ∃ tail, rest = '!' :: tail
      · obtain ⟨tail, rfl⟩ := hbang
        simp only [epochRelease, hn, hcs, Option.map_some, List.cons_append, release_stage.append tail hu,
          Option.map_map]
        rfl
      · have hno : ∀ tail, rest ++ u ≠ '!' :: tail := by
          intro tail heq
          cases rest with
          | nil => exact absurd (hu '!' (by simp_all)) (by decide)
          | cons c rest => exact hbang ⟨rest, by simp_all⟩
        have hleft : epochRelease (cs ++ u) = (release (cs ++ u)).map fun p => (0, p.1, p.2) := by
          unfold epochRelease
          rw [hn]
          split
          next h => exact absurd (Prod.mk.inj (Option.some.inj h)).2 (hno _)
          next => rfl
        have hright : epochRelease cs = (release cs).map fun p => (0, p.1, p.2) := by
          unfold epochRelease
          rw [hcs]
          split
          next tail h => exact absurd ⟨tail, (Prod.mk.inj (Option.some.inj h)).2⟩ hbang
          next => rfl
        rw [hleft, hright, hr]
        simp only [Option.map_map]
        rfl

def readPublic (cs : List Char) : Option (Version × List Char) :=
  (epochRelease cs).map fun p =>
    let pre := preSegment p.2.2
    let post := postSegment pre.2
    let dev := devSegment post.2
    ({ epoch := p.1, release := p.2.1, pre := pre.1, post := post.1, dev := dev.1, label := none }, dev.2)

theorem readPublic_stage : PartialStage readPublic where
  leaves := by
    intro cs v rest h
    obtain ⟨⟨e, r, tail⟩, hread, heq⟩ := Option.map_eq_some_iff.mp h
    cases heq
    have htail : Leaves cs tail := epochRelease_stage.leaves (x := (e, r)) (by simp [hread])
    exact ((htail.trans (preSegment_stage.leaves _)).trans (postSegment_stage.leaves _)).trans
      (devSegment_stage.leaves _)
  append := by
    intro cs u hu
    have he := epochRelease_stage.append cs hu
    unfold readPublic
    cases hcs : epochRelease cs with
    | none =>
      rw [hcs] at he
      rw [Option.map_eq_none_iff.mp he]
      rfl
    | some p =>
      rw [hcs] at he
      obtain ⟨⟨e, r, tail⟩, hread, heq⟩ := Option.map_eq_some_iff.mp he
      cases heq
      simp [hread, preSegment_stage.append _ hu, postSegment_stage.append _ hu, devSegment_stage.append _ hu]

theorem parse_eq (s : String) : parse s =
    (readPublic (dropV ((strip s.toList).map Char.toLower))).bind fun p =>
      (localLabel p.2).map fun label => { p.1 with label := label } := by
  unfold parse readPublic
  cases epochRelease (dropV ((strip s.toList).map Char.toLower)) with
  | none => rfl
  | some p => rfl

theorem toLower_toLower (c : Char) : c.toLower.toLower = c.toLower := by
  unfold Char.toLower
  split
  next h =>
    have h1 : 65 ≤ c.toNat := by simpa [UInt32.le_iff_toNat_le] using h.1
    have h2 : c.toNat ≤ 90 := by simpa [UInt32.le_iff_toNat_le] using h.2
    split
    next h' =>
      have h3 := h'.2
      simp only [UInt32.le_iff_toNat_le, UInt32.toNat_add, Char.toNat_val] at h3
      change (c.toNat + 32) % 4294967296 ≤ 90 at h3
      omega
    next => rfl
  next => rfl

theorem ranges_of_isAlphanum {c : Char} (h : c.isAlphanum = true) :
    (65 ≤ c.val.toNat ∧ c.val.toNat ≤ 90 ∨ 97 ≤ c.val.toNat ∧ c.val.toNat ≤ 122) ∨
      48 ≤ c.val.toNat ∧ c.val.toNat ≤ 57 := by
  change ((decide (c.val ≥ 'A'.val ∧ c.val ≤ 'Z'.val) ||
    decide (c.val ≥ 'a'.val) && decide (c.val ≤ 'z'.val)) ||
      decide (c.val ≥ '0'.val) && decide (c.val ≤ '9'.val)) = true at h
  simp only [Bool.or_eq_true, Bool.and_eq_true, decide_eq_true_eq, UInt32.le_iff_toNat_le, ge_iff_le] at h
  exact h

theorem isSpace_of_isAlphanum {c : Char} (h : c.isAlphanum = true) : isSpace c = false := by
  have hval : c.toNat = c.val.toNat := rfl
  have hranges := ranges_of_isAlphanum h
  simp only [isSpace, hval, Bool.or_eq_false_iff, Bool.and_eq_false_iff, decide_eq_false_iff_not,
    beq_eq_false_iff_ne]
  omega

theorem isAlphanum_of_isDigit {c : Char} (h : c.isDigit = true) : c.isAlphanum = true := by
  simp [Char.isAlphanum, h]

theorem readPublic_head {cs : List Char} {p : Version × List Char} (h : readPublic cs = some p) :
    ∃ d tail, cs = d :: tail ∧ d.isDigit = true := by
  have hrelease : ∀ {q}, release cs = some q → ∃ d tail, cs = d :: tail ∧ d.isDigit = true := by
    intro q hq
    cases cs with
    | nil => cases hq
    | cons c cs =>
      simp only [release] at hq
      split at hq
      next hc => exact ⟨c, cs, rfl, hc⟩
      next => cases hq
  obtain ⟨q, hq, -⟩ := Option.map_eq_some_iff.mp h
  unfold epochRelease at hq
  split at hq
  next e rest hn =>
    rw [number_eq] at hn
    split at hn
    · cases hn
    next hne =>
      cases cs with
      | nil => exact absurd rfl hne
      | cons c cs =>
        refine ⟨c, cs, rfl, ?_⟩
        by_contra hc
        exact hne (List.takeWhile_cons_of_neg hc)
  next =>
    obtain ⟨r, hr, -⟩ := Option.map_eq_some_iff.mp hq
    exact hrelease hr

theorem strip_of_pads {pre core post : List Char} (hpre : ∀ c ∈ pre, isSpace c = true)
    (hpost : ∀ c ∈ post, isSpace c = true) (hhead : ∀ c ∈ core.head?, isSpace c = false)
    (hlast : ∀ c ∈ core.getLast?, isSpace c = false) (hne : core ≠ []) :
    strip (pre ++ (core ++ post)) = core := by
  obtain ⟨d, tail, rfl⟩ := List.exists_cons_of_ne_nil hne
  have hd : isSpace d = false := hhead d rfl
  have hdrop : (pre ++ (d :: tail ++ post)).dropWhile isSpace = d :: tail ++ post := by
    rw [List.dropWhile_append_of_pos hpre, List.cons_append,
      List.dropWhile_cons_of_neg (by simp [hd])]
  obtain ⟨last, init, hrev⟩ := List.exists_cons_of_ne_nil (List.reverse_ne_nil_iff.mpr hne)
  have hl : isSpace last = false := by
    refine hlast last ?_
    rw [Option.mem_def, ← List.head?_reverse, hrev]
    rfl
  rw [strip, hdrop, List.rdropWhile, List.reverse_append,
    List.dropWhile_append_of_pos fun c hc => hpost c (List.mem_reverse.mp hc), hrev,
    List.dropWhile_cons_of_neg (by simp [hl]), ← hrev, List.reverse_reverse]

theorem strip_eq_self {d : Char} {cs : List Char} (hd : isSpace d = false)
    (hlast : ∀ c ∈ (d :: cs).getLast?, isSpace c = false) : strip (d :: cs) = d :: cs := by
  have hpads := @strip_of_pads [] (d :: cs) [] (by simp) (by simp) (by simpa using hd) hlast (by simp)
  simpa using hpads

theorem parse_ofList {d : Char} {cs : List Char} (hd : d.isDigit = true)
    (hlast : ∀ c ∈ (d :: cs).getLast?, isSpace c = false) (hlower : (d :: cs).map Char.toLower = d :: cs) :
    parse (String.ofList (d :: cs)) = (readPublic (d :: cs)).bind fun p =>
      (localLabel p.2).map fun label => { p.1 with label := label } := by
  have hv : d ≠ 'v' := by
    intro heq
    rw [heq] at hd
    exact absurd hd (by decide)
  rw [parse_eq, String.toList_ofList, strip_eq_self (isSpace_of_isAlphanum (isAlphanum_of_isDigit hd)) hlast,
    hlower]
  simp [dropV, hv]

/-! ## Longer labels -/

def isLabelSeparator (c : Char) : Bool := c ∈ ['-', '_', '.']

theorem localLabel_plus (cs : List Char) :
    localLabel ('+' :: cs) = ((cs.splitOnP isLabelSeparator).mapM localSegmentOf).map some := rfl

theorem isLabelSeparator_of_isAlphanum {c : Char} (h : c.isAlphanum = true) : isLabelSeparator c = false := by
  simp only [isLabelSeparator, List.mem_cons, List.not_mem_nil, or_false, decide_eq_false_iff_not]
  intro hc
  obtain rfl | rfl | rfl := hc <;> exact absurd h (by decide)

structure LetterSegment (seg : List Char) : Prop where
  alphanum : ∀ c ∈ seg, c.isAlphanum = true
  lower : seg.map Char.toLower = seg
  letter : seg.all Char.isDigit = false

theorem LetterSegment.ne_nil {seg : List Char} (h : LetterSegment seg) : seg ≠ [] := by
  intro heq
  simpa [heq] using h.letter

theorem LetterSegment.localSegmentOf {seg : List Char} (h : LetterSegment seg) :
    localSegmentOf seg = some (.text seg) := by
  have hall : seg.all Char.isAlphanum = true := List.all_eq_true.mpr h.alphanum
  simp [Pep440.localSegmentOf, h.ne_nil, h.letter, hall]

theorem LetterSegment.splitOnP {seg : List Char} (h : LetterSegment seg) :
    seg.splitOnP isLabelSeparator = [seg] :=
  List.splitOnP_eq_singleton fun c hc => isLabelSeparator_of_isAlphanum (h.alphanum c hc)

theorem mapM_append_segments (xs ys : List (List Char)) :
    (xs ++ ys).mapM localSegmentOf =
      (xs.mapM localSegmentOf).bind fun a => (ys.mapM localSegmentOf).map (a ++ ·) := by
  rw [List.mapM_append]
  cases xs.mapM localSegmentOf with
  | none => rfl
  | some a => cases ys.mapM localSegmentOf <;> rfl

theorem localLabel_cases {rest : List Char} {label : Option (List LocalSegment)}
    (h : localLabel rest = some label) : (rest = [] ∧ label = none) ∨ ∃ cs, rest = '+' :: cs := by
  unfold localLabel at h
  split at h
  · exact .inl ⟨rfl, (Option.some.inj h).symm⟩
  · exact .inr ⟨_, rfl⟩
  · cases h

theorem localLabel_longer {rest seg : List Char} {label : Option (List LocalSegment)}
    (h : localLabel rest = some label) (hseg : LetterSegment seg) :
    localLabel (rest ++ (if label = none then '+' else '.') :: seg) =
      some (some (label.getD [] ++ [.text seg])) := by
  obtain ⟨rfl, rfl⟩ | ⟨cs, rfl⟩ := localLabel_cases h
  · simp [localLabel_plus, hseg.splitOnP, hseg.localSegmentOf]
  · rw [localLabel_plus] at h
    obtain ⟨segs, hsegs, heq⟩ := Option.map_eq_some_iff.mp h
    cases heq
    rw [if_neg (by simp), List.cons_append, localLabel_plus,
      List.splitOnP_append_cons _ _ (by decide), mapM_append_segments, hsegs, hseg.splitOnP]
    simp [hseg.localSegmentOf]

theorem mem_splitOnP {p : Char → Bool} {cs : List Char} {c : Char} (h : c ∈ cs) :
    p c = true ∨ ∃ piece ∈ cs.splitOnP p, c ∈ piece := by
  induction cs with
  | nil => cases h
  | cons d cs ih =>
    by_cases hd : p d = true
    · rcases List.mem_cons.mp h with rfl | h
      · exact .inl hd
      · refine (ih h).imp_right fun ⟨piece, hpiece, hc⟩ => ⟨piece, ?_, hc⟩
        rw [List.splitOnP_cons_eq_if_modifyHead, if_pos hd]
        exact List.mem_cons_of_mem _ hpiece
    · obtain ⟨first, rest, hsplit⟩ := List.exists_cons_of_ne_nil (List.splitOnP_ne_nil p cs)
      rw [List.splitOnP_cons_eq_if_modifyHead, if_neg hd, hsplit]
      rw [hsplit] at ih
      rcases List.mem_cons.mp h with rfl | h
      · exact .inr ⟨_, List.mem_cons_self, List.mem_cons_self⟩
      · refine (ih h).imp_right fun ⟨piece, hpiece, hc⟩ => ?_
        rcases List.mem_cons.mp hpiece with rfl | hpiece
        · exact ⟨_, List.mem_cons_self, List.mem_cons_of_mem _ hc⟩
        · exact ⟨piece, List.mem_cons_of_mem _ hpiece, hc⟩

theorem readPublic_longer {X rest t : List Char} {p : Version} {label : Option (List LocalSegment)}
    (h : readPublic X = some (p, rest)) (hlabel : localLabel rest = some label)
    (ht : label = none → AtLabel t) : readPublic (X ++ t) = some (p, rest ++ t) := by
  obtain ⟨rfl, hnone⟩ | ⟨cs, rfl⟩ := localLabel_cases hlabel
  · rw [readPublic_stage.append X (ht hnone), h]
    rfl
  · obtain ⟨taken, rfl, -⟩ := readPublic_stage.leaves h
    have hplus : ∀ ys : List Char, AtLabel ('+' :: ys) := fun ys c hc => by simpa using hc.symm
    rw [readPublic_stage.append taken (hplus cs)] at h
    obtain ⟨⟨p', rest'⟩, htaken, heq⟩ := Option.map_eq_some_iff.mp h
    obtain ⟨rfl, hrest⟩ := Prod.mk.inj heq
    have hnil : rest' = [] := List.append_cancel_right (hrest.trans (List.nil_append _).symm)
    rw [List.append_assoc, List.cons_append, readPublic_stage.append taken (hplus (cs ++ t)), htaken, hnil]
    rfl

theorem exists_longer {s : String} {v : Version} (h : parse s = some v) {seg : List Char}
    (hseg : LetterSegment seg) :
    ∃ s', parse s' = some { v with label := some (v.label.getD [] ++ [.text seg]) } := by
  rw [parse_eq] at h
  obtain ⟨⟨p, rest⟩, hread, hmap⟩ := Option.bind_eq_some_iff.mp h
  obtain ⟨label, hlabel, rfl⟩ := Option.map_eq_some_iff.mp hmap
  have hlower : (dropV ((strip s.toList).map Char.toLower)).map Char.toLower =
      dropV ((strip s.toList).map Char.toLower) := by
    have hid : ((strip s.toList).map Char.toLower).map Char.toLower = (strip s.toList).map Char.toLower := by
      simp [toLower_toLower]
    revert hid
    cases (strip s.toList).map Char.toLower with
    | nil => exact fun hid => hid
    | cons c cs =>
      intro hid
      unfold dropV
      split
      next heq =>
        obtain ⟨-, rfl⟩ := List.cons_eq_cons.mp heq
        exact (List.cons_eq_cons.mp hid).2
      next => exact hid
  revert hread hlower
  generalize dropV ((strip s.toList).map Char.toLower) = X
  intro hread hlower
  obtain ⟨d, tail, rfl, hd⟩ := readPublic_head hread
  -- `+` before the first segment of a label, a full stop before every other one
  have hsep : AtLabel ((if label = none then '+' else '.') :: seg) ∨ label ≠ none := by
    by_cases hnone : label = none
    · left
      intro c hc
      simpa [hnone] using hc.symm
    · exact .inr hnone
  have hlonger := readPublic_longer (t := (if label = none then '+' else '.') :: seg) hread hlabel
    fun hnone => hsep.resolve_right fun hne => hne hnone
  refine ⟨String.ofList (d :: (tail ++ (if label = none then '+' else '.') :: seg)), ?_⟩
  rw [parse_ofList hd, ← List.cons_append, hlonger]
  · simp [localLabel_longer hlabel hseg]
  · intro c hc
    obtain ⟨last, hlast⟩ : ∃ last, seg.getLast? = some last :=
      Option.ne_none_iff_exists'.mp (by simpa using hseg.ne_nil)
    rw [← List.cons_append, List.getLast?_append_cons, List.getLast?_cons, hlast] at hc
    obtain rfl : last = c := by simpa using hc
    exact isSpace_of_isAlphanum (hseg.alphanum _ (List.mem_of_getLast? hlast))
  · rw [← List.cons_append, List.map_append, hlower, List.map_cons, hseg.lower]
    split <;> rfl

/-! ## Characters of a version -/

theorem mem_strip {cs : List Char} {c : Char} (h : c ∈ cs) (hc : isSpace c = false) : c ∈ strip cs := by
  have hdrop : ∀ {xs : List Char}, c ∈ xs → c ∈ xs.dropWhile isSpace := by
    intro xs hxs
    rw [← List.takeWhile_append_dropWhile (p := isSpace) (l := xs)] at hxs
    refine (List.mem_append.mp hxs).resolve_left fun hleft => ?_
    rw [List.mem_takeWhile_imp hleft] at hc
    cases hc
  rw [strip, List.rdropWhile, List.mem_reverse]
  exact hdrop (List.mem_reverse.mpr (hdrop h))

theorem exists_pads (cs : List Char) : ∃ pre post, cs = pre ++ (strip cs ++ post) ∧
    (∀ c ∈ pre, isSpace c = true) ∧ (∀ c ∈ post, isSpace c = true) ∧
    (∀ c ∈ (strip cs).head?, isSpace c = false) ∧ ∀ c ∈ (strip cs).getLast?, isSpace c = false := by
  refine ⟨cs.takeWhile isSpace, (cs.dropWhile isSpace).rtakeWhile isSpace, ?_, ?_, ?_, ?_, ?_⟩
  · rw [strip, List.rdropWhile_append_rtakeWhile, List.takeWhile_append_dropWhile]
  · exact fun c hc => List.mem_takeWhile_imp hc
  · exact fun c hc => List.mem_rtakeWhile_imp hc
  · intro c hc
    have hpre : strip cs <+: cs.dropWhile isSpace := List.rdropWhile_prefix _ _
    obtain ⟨more, hmore⟩ := hpre
    have hhead : c ∈ (cs.dropWhile isSpace).head? := by
      rw [← hmore, List.head?_append]
      simp [Option.mem_def.mp hc]
    have hnot := List.head?_dropWhile_not isSpace cs
    rw [Option.mem_def.mp hhead] at hnot
    simpa using hnot
  · intro c hc
    have hne : strip cs ≠ [] := by
      intro hnil
      rw [hnil] at hc
      cases hc
    have hnot := List.rdropWhile_last_not isSpace (cs.dropWhile isSpace) hne
    have hlast : (strip cs).getLast hne = c := by
      rw [List.getLast?_eq_some_getLast hne] at hc
      exact Option.some.inj hc
    rw [← hlast]
    exact Bool.not_eq_true _ ▸ hnot

theorem release_ne_nil {s : String} {v : Version} (h : parse s = some v) : v.release ≠ [] := by
  have htail : ∀ acc cs, (releaseTail acc cs).1 ≠ [] := by
    intro acc cs
    fun_induction releaseTail acc cs <;> simp_all
  have hrel : ∀ {cs q}, release cs = some q → q.1 ≠ [] := by
    intro cs q hq
    cases cs with
    | nil => cases hq
    | cons c cs =>
      simp only [release] at hq
      split at hq
      · rw [← Option.some.inj hq]
        exact htail _ _
      · cases hq
  rw [parse_eq] at h
  obtain ⟨⟨p, rest⟩, hread, hmap⟩ := Option.bind_eq_some_iff.mp h
  obtain ⟨label, -, rfl⟩ := Option.map_eq_some_iff.mp hmap
  obtain ⟨⟨e, r, tail⟩, hepoch, heq⟩ := Option.map_eq_some_iff.mp hread
  cases heq
  unfold epochRelease at hepoch
  split at hepoch
  · obtain ⟨q, hq, hqe⟩ := Option.map_eq_some_iff.mp hepoch
    cases hqe
    exact hrel hq
  · obtain ⟨q, hq, hqe⟩ := Option.map_eq_some_iff.mp hepoch
    cases hqe
    exact hrel hq

theorem mem_of_parse {s : String} {v : Version} (h : parse s = some v) {c : Char} (hc : c ∈ s.toList) :
    isSpace c = true ∨ Spelled c.toLower ∨ c.toLower = '+' := by
  by_contra hno
  simp only [not_or, Bool.not_eq_true] at hno
  obtain ⟨hspace, hspelled, hplus⟩ := hno
  rw [parse_eq] at h
  obtain ⟨⟨p, rest⟩, hread, hmap⟩ := Option.bind_eq_some_iff.mp h
  obtain ⟨label, hlabel, -⟩ := Option.map_eq_some_iff.mp hmap
  have hlower : c.toLower ∈ (strip s.toList).map Char.toLower := List.mem_map_of_mem (mem_strip hc hspace)
  have hne : c.toLower ≠ 'v' := fun heq => hspelled (heq ▸ by decide)
  have hin : c.toLower ∈ dropV ((strip s.toList).map Char.toLower) := by
    unfold dropV
    split
    next cs heq => exact (List.mem_cons.mp (heq ▸ hlower)).resolve_left hne
    next => exact hlower
  obtain ⟨taken, htaken, hall⟩ := readPublic_stage.leaves hread
  rw [htaken] at hin
  rcases List.mem_append.mp hin with hin | hin
  · exact hspelled (hall _ hin)
  · obtain ⟨rfl, -⟩ | ⟨cs, rfl⟩ := localLabel_cases hlabel
    · cases hin
    · have hcs : c.toLower ∈ cs := (List.mem_cons.mp hin).resolve_left hplus
      simp only [localLabel_plus] at hlabel
      obtain ⟨segs, hsegs, -⟩ := Option.map_eq_some_iff.mp hlabel
      rcases mem_splitOnP (p := isLabelSeparator) hcs with hsep | ⟨piece, hpiece, hmem⟩
      · refine hspelled (.inr ?_)
        revert hsep
        simp only [isLabelSeparator, List.mem_cons, List.not_mem_nil, or_false, decide_eq_true_eq]
        rintro (hhyphen | hunder | hdot)
        · exact .inr (.inl hhyphen)
        · exact .inr (.inr (.inl hunder))
        · exact .inl hdot
      · obtain ⟨seg, -, hseg⟩ := Linearization.exists_of_mapM hsegs hpiece
        refine hspelled (.inl ?_)
        unfold localSegmentOf at hseg
        split at hseg
        · cases hseg
        · split at hseg
          next hdigit => exact isAlphanum_of_isDigit (List.all_eq_true.mp hdigit _ hmem)
          next =>
            split at hseg
            next halnum => exact List.all_eq_true.mp halnum _ hmem
            next => cases hseg

/-! ## Written-out releases -/

theorem readNat_showNat (n : ℕ) : readNat (showNat n) = n := by
  have hsame : readNat (showNat n) = Nat.ofDigitChars 10 (Nat.toDigits 10 n) 0 := rfl
  rw [hsame, Nat.ofDigitChars_ten_toDigits]

theorem isDigit_of_mem_showNat {n : ℕ} {c : Char} (h : c ∈ showNat n) : c.isDigit = true :=
  Nat.isDigit_of_mem_toDigits (by omega) (by omega) h

theorem showNat_cons (n : ℕ) : ∃ d ds, showNat n = d :: ds ∧ d.isDigit = true ∧
    ∀ c ∈ ds, c.isDigit = true := by
  obtain ⟨d, ds, h⟩ : ∃ d ds, showNat n = d :: ds := List.exists_cons_of_ne_nil Nat.toDigits_ne_nil
  exact ⟨d, ds, h, isDigit_of_mem_showNat (n := n) (h ▸ List.mem_cons_self), fun c hc =>
    isDigit_of_mem_showNat (n := n) (h ▸ List.mem_cons_of_mem _ hc)⟩

theorem releaseTail_digits (acc : ℕ) {ds : List Char} (hds : ∀ c ∈ ds, c.isDigit = true)
    (rest : List Char) : releaseTail acc (ds ++ rest) =
      releaseTail (ds.foldl (fun n c => 10 * n + digitValue c) acc) rest := by
  induction ds generalizing acc with
  | nil => rfl
  | cons d ds ih =>
    have hd := hds d List.mem_cons_self
    have hdot : d ≠ '.' := by
      intro heq
      rw [heq] at hd
      exact absurd hd (by decide)
    rw [List.cons_append, releaseTail.eq_2 _ _ _ (fun c cs heq => absurd heq hdot), if_pos hd,
      ih _ fun c hc => hds c (List.mem_cons_of_mem _ hc), List.foldl_cons]

theorem releaseTail_showNat (n : ℕ) {d : Char} {ds : List Char} (h : showNat n = d :: ds)
    (hds : ∀ c ∈ ds, c.isDigit = true) (rest : List Char) :
    releaseTail (digitValue d) (ds ++ rest) = releaseTail n rest := by
  have hfold : ds.foldl (fun n c => 10 * n + digitValue c) (digitValue d) = n := by
    rw [← readNat_showNat n, h, readNat, List.foldl_cons, Nat.mul_zero, Nat.zero_add]
  rw [releaseTail_digits _ hds, hfold]

def dottedTail (ns : List ℕ) : List Char := ns.flatMap fun n => '.' :: showNat n

theorem showDotted_cons (n : ℕ) (ns : List ℕ) : showDotted (n :: ns) = showNat n ++ dottedTail ns := by
  induction ns generalizing n with
  | nil => simp [showDotted, dottedTail]
  | cons m ns ih =>
    have hsplit : showDotted (n :: m :: ns) = showNat n ++ '.' :: showDotted (m :: ns) := by
      simp [showDotted, List.intercalate]
    rw [hsplit, ih m]
    rfl

theorem releaseTail_dottedTail (acc : ℕ) (ns : List ℕ) :
    releaseTail acc (dottedTail ns) = (acc :: ns, []) := by
  induction ns generalizing acc with
  | nil => rfl
  | cons n ns ih =>
    obtain ⟨d, ds, h, hd, hds⟩ := showNat_cons n
    have hcons : dottedTail (n :: ns) = '.' :: d :: (ds ++ dottedTail ns) := by
      simp [dottedTail, h]
    rw [hcons]
    simp [releaseTail, hd, releaseTail_showNat n h hds, ih]

theorem mem_dottedTail {ns : List ℕ} {c : Char} (h : c ∈ dottedTail ns) : c = '.' ∨ c.isDigit = true := by
  obtain ⟨n, -, hc⟩ := List.mem_flatMap.mp h
  exact (List.mem_cons.mp hc).imp_right isDigit_of_mem_showNat

theorem mem_showDotted {ns : List ℕ} {c : Char} (h : c ∈ showDotted ns) : c = '.' ∨ c.isDigit = true := by
  cases ns with
  | nil => simp [showDotted, List.intercalate] at h
  | cons n ns =>
    rw [showDotted_cons] at h
    exact (List.mem_append.mp h).elim (fun h => .inr (isDigit_of_mem_showNat h)) mem_dottedTail

theorem epochRelease_showDotted (n : ℕ) (ns : List ℕ) :
    epochRelease (showDotted (n :: ns)) = some (0, n :: ns, []) := by
  have hrelease : release (showDotted (n :: ns)) = some (n :: ns, []) := by
    obtain ⟨d, ds, h, hd, hds⟩ := showNat_cons n
    rw [showDotted_cons, h, List.cons_append]
    simp [release, hd, releaseTail_showNat n h hds, releaseTail_dottedTail]
  unfold epochRelease
  split
  next e rest hn =>
    -- no exclamation mark was written
    obtain ⟨taken, htaken, -⟩ := number_stage.leaves hn
    have hbang : '!' ∈ showDotted (n :: ns) := by simp [htaken]
    exact absurd (mem_showDotted hbang) (by decide)
  next => rw [hrelease]; rfl

theorem parse_showDotted (n : ℕ) (ns : List ℕ) :
    parse (String.ofList (showDotted (n :: ns))) = some (Version.final (n :: ns)) := by
  have hread : readPublic (showDotted (n :: ns)) = some (Version.final (n :: ns), []) := by
    rw [readPublic, epochRelease_showDotted]
    rfl
  obtain ⟨d, tail, hcs, hd⟩ := readPublic_head hread
  have hchar : ∀ c ∈ showDotted (n :: ns), isSpace c = false ∧ c.toLower = c := by
    intro c hc
    rcases mem_showDotted hc with rfl | hc
    · decide
    · refine ⟨isSpace_of_isAlphanum (isAlphanum_of_isDigit hc), ?_⟩
      have h9 : c.toNat ≤ 57 := by
        simp only [Char.isDigit, Bool.and_eq_true, decide_eq_true_eq, UInt32.le_iff_toNat_le, ge_iff_le] at hc
        exact hc.2
      unfold Char.toLower
      split
      next h =>
        have h65 : 65 ≤ c.toNat := by simpa [UInt32.le_iff_toNat_le] using h.1
        omega
      next => rfl
  rw [hcs] at hread hchar ⊢
  rw [parse_ofList hd, hread]
  · rfl
  · exact fun c hc => (hchar c (List.mem_of_getLast? hc)).1
  · exact (List.map_congr_left fun c hc => (hchar c hc).2).trans (List.map_id' _)

end TimeCodeSecurity.Pep440
