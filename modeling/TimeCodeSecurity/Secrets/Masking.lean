import Mathlib.Data.List.Forall2
import Mathlib.Data.List.Infix

/-! # Masked texts

A masked text shows some characters and puts asterisks for others. A text is found in it where it can be
laid over it; without an asterisk of its own, exactly where its characters stand one after the other and all
of them are shown.
-/
namespace TimeCodeSecurity.Secrets
set_option autoImplicit false

/-- A character that is shown, or characters that are hidden behind one asterisk more than `stars`. -/
inductive Seg
  | keep (c : Char)
  | hide (old : List Char) (stars : ℕ)
deriving DecidableEq

def Seg.old : Seg → List Char
  | .keep c => [c]
  | .hide old _ => old

def Seg.shown : Seg → List Char
  | .keep c => [c]
  | .hide _ stars => List.replicate (stars + 1) '*'

def oldText (segs : List Seg) : List Char := segs.flatMap Seg.old

def shownText (segs : List Seg) : List Char := segs.flatMap Seg.shown

@[simp] theorem oldText_append (xs ys : List Seg) : oldText (xs ++ ys) = oldText xs ++ oldText ys :=
  List.flatMap_append

@[simp] theorem shownText_append (xs ys : List Seg) : shownText (xs ++ ys) = shownText xs ++ shownText ys :=
  List.flatMap_append

@[simp] theorem oldText_map_keep (s : List Char) : oldText (s.map .keep) = s := by
  induction s with
  | nil => rfl
  | cons c s ih => exact congrArg (c :: ·) ih

@[simp] theorem shownText_map_keep (s : List Char) : shownText (s.map .keep) = s := by
  induction s with
  | nil => rfl
  | cons c s ih => exact congrArg (c :: ·) ih

theorem infix_shownText {xs ys : List Seg} (h : xs <:+: ys) : shownText xs <:+: shownText ys := by
  obtain ⟨before, after, rfl⟩ := h
  rw [shownText_append, shownText_append]
  exact ⟨shownText before, shownText after, rfl⟩

theorem prefix_shownText {s : List Char} (hs : '*' ∉ s) {segs : List Seg} (h : s <+: shownText segs) :
    s.map Seg.keep <+: segs := by
  induction s generalizing segs with
  | nil => exact List.nil_prefix
  | cons c s ih =>
    rw [List.mem_cons, not_or] at hs
    cases segs with
    | nil => exact absurd h (by simp [shownText])
    | cons seg segs =>
      cases seg with
      | keep c' =>
        obtain ⟨hc, htail⟩ := List.cons_prefix_cons.mp h
        rw [List.map_cons, hc]
        exact List.cons_prefix_cons.mpr ⟨rfl, ih hs.2 htail⟩
      | hide old stars =>
        have hc : c = '*' := (List.cons_prefix_cons.mp h).1
        exact absurd hc.symm hs.1

theorem infix_of_infix_replicate {s : List Char} (hs : '*' ∉ s) (hne : s ≠ []) {n : ℕ} {rest : List Char}
    (h : s <:+: List.replicate n '*' ++ rest) : s <:+: rest := by
  induction n with
  | zero => exact h
  | succ n ih =>
    rw [List.replicate_succ, List.cons_append] at h
    refine (List.infix_cons_iff.mp h).elim (fun hprefix => ?_) ih
    obtain ⟨c, s, rfl⟩ := List.exists_cons_of_ne_nil hne
    have hc : c = '*' := (List.cons_prefix_cons.mp hprefix).1
    exact absurd (hc ▸ List.mem_cons_self) hs

theorem infix_shownText_iff {s : List Char} (hs : '*' ∉ s) (hne : s ≠ []) (segs : List Seg) :
    s <:+: shownText segs ↔ s.map Seg.keep <:+: segs := by
  constructor
  · intro h
    induction segs with
    | nil =>
      have hnil : s = [] := List.eq_nil_of_infix_nil h
      exact absurd hnil hne
    | cons seg segs ih =>
      cases seg with
      | keep c =>
        rcases List.infix_cons_iff.mp h with hprefix | hinfix
        · have hsegs : s <+: shownText (.keep c :: segs) := hprefix
          exact (prefix_shownText hs hsegs).isInfix
        · exact (ih hinfix).trans (List.suffix_cons _ _).isInfix
      | hide old stars => exact (ih (infix_of_infix_replicate hs hne h)).trans (List.suffix_cons _ _).isInfix
  · intro h
    have hshown := infix_shownText h
    rwa [shownText_map_keep] at hshown

def Seg.places : Seg → List (Option Char)
  | .keep c => [some c]
  | .hide _ stars => List.replicate (stars + 1) none

def ReadAt (c : Char) (place : Option Char) : Prop := place = some c ∨ (place = none ∧ c = '*')

def ReadIn (s : List Char) (segs : List Seg) : Prop :=
  ∃ window, window <:+: segs.flatMap Seg.places ∧ List.Forall₂ ReadAt s window

theorem readAt_iff (c : Char) (place : Option Char) : ReadAt c place ↔ c = place.getD '*' := by
  cases place with
  | none => simp [ReadAt]
  | some c' => simp [ReadAt, eq_comm]

theorem shownText_eq (segs : List Seg) : shownText segs = (segs.flatMap Seg.places).map (·.getD '*') := by
  rw [shownText, List.map_flatMap]
  congr 1
  funext seg
  cases seg with
  | keep c => rfl
  | hide old stars =>
    rw [Seg.places, List.map_replicate]
    rfl

theorem readIn_iff (s : List Char) (segs : List Seg) : ReadIn s segs ↔ s <:+: shownText segs := by
  have hover : ∀ window, List.Forall₂ ReadAt s window ↔ s = window.map (·.getD '*') := by
    intro window
    have hread : ReadAt = fun c place => c = place.getD '*' := by
      funext c place
      exact propext (readAt_iff c place)
    rw [hread, ← List.forall₂_map_right_iff, List.forall₂_eq_eq_eq]
  rw [shownText_eq, List.infix_map_iff]
  exact exists_congr fun window => and_congr_right fun _ => hover window

theorem readIn_iff_of_no_star {s : List Char} (hs : '*' ∉ s) (hne : s ≠ []) (segs : List Seg) :
    ReadIn s segs ↔ s.map Seg.keep <:+: segs :=
  (readIn_iff s segs).trans (infix_shownText_iff hs hne segs)

def maskSecret (value : List Char) : List Char :=
  let length := value.length
  if length = 0 then []
  else if length ≤ 4 then List.replicate length '*'
  else if length ≤ 8 then value.take 1 ++ List.replicate (length - 2) '*' ++ value.drop (length - 1)
  else value.take 4 ++ List.replicate (length - 8) '*' ++ value.drop (length - 4)

/-- All but `edge` characters on each side is hidden. -/
def hideMiddle (value : List Char) (edge : ℕ) : List Seg :=
  (value.take edge).map .keep ++
    .hide ((value.drop edge).take (value.length - 2 * edge)) (value.length - 2 * edge - 1) ::
      (value.drop (value.length - edge)).map .keep

def maskSegs (value : List Char) : List Seg :=
  if value.length = 0 then []
  else if value.length ≤ 4 then hideMiddle value 0
  else if value.length ≤ 8 then hideMiddle value 1
  else hideMiddle value 4

theorem shownText_hideMiddle {value : List Char} {edge : ℕ} (h : 2 * edge < value.length) :
    shownText (hideMiddle value edge) =
      value.take edge ++ List.replicate (value.length - 2 * edge) '*' ++ value.drop (value.length - edge) := by
  have hstars : value.length - 2 * edge - 1 + 1 = value.length - 2 * edge := by omega
  rw [hideMiddle, shownText_append, shownText_map_keep, List.append_assoc]
  congr 1
  show List.replicate (value.length - 2 * edge - 1 + 1) '*' ++ shownText (List.map Seg.keep _) = _
  rw [hstars, shownText_map_keep]

theorem oldText_hideMiddle {value : List Char} {edge : ℕ} (h : 2 * edge < value.length) :
    oldText (hideMiddle value edge) = value := by
  have hdrop : value.drop (value.length - edge) = (value.drop edge).drop (value.length - 2 * edge) := by
    rw [List.drop_drop]
    congr 1
    omega
  rw [hideMiddle, oldText_append, oldText_map_keep]
  show value.take edge ++ ((value.drop edge).take (value.length - 2 * edge) ++ oldText (List.map Seg.keep _)) = _
  rw [oldText_map_keep, hdrop, List.take_append_drop, List.take_append_drop]

theorem shownText_maskSegs (value : List Char) : shownText (maskSegs value) = maskSecret value := by
  rw [maskSegs, maskSecret]
  by_cases hzero : value.length = 0
  · rw [if_pos hzero, if_pos hzero]
    rfl
  · rw [if_neg hzero, if_neg hzero]
    by_cases hfour : value.length ≤ 4
    · rw [if_pos hfour, if_pos hfour, shownText_hideMiddle (by omega)]
      simp
    · rw [if_neg hfour, if_neg hfour]
      by_cases height : value.length ≤ 8
      · rw [if_pos height, if_pos height, shownText_hideMiddle (by omega)]
      · rw [if_neg height, if_neg height, shownText_hideMiddle (by omega)]

theorem oldText_maskSegs (value : List Char) : oldText (maskSegs value) = value := by
  rw [maskSegs]
  split_ifs with hzero hfour height
  · rw [List.eq_nil_of_length_eq_zero hzero]
    rfl
  · exact oldText_hideMiddle (by omega)
  · exact oldText_hideMiddle (by omega)
  · exact oldText_hideMiddle (by omega)

theorem length_maskSegs_le (value : List Char) : (maskSegs value).length ≤ 9 := by
  have hlength : ∀ edge, (hideMiddle value edge).length ≤ 2 * edge + 1 := by
    intro edge
    simp only [hideMiddle, List.length_append, List.length_map, List.length_take, List.length_cons,
      List.length_drop]
    omega
  rw [maskSegs]
  split_ifs
  · exact Nat.zero_le _
  · exact (hlength 0).trans (by omega)
  · exact (hlength 1).trans (by omega)
  · exact hlength 4

theorem not_infix_maskSegs {s : List Char} (hlength : 8 < s.length) (value : List Char) :
    ¬ s.map Seg.keep <:+: maskSegs value := by
  intro h
  have hle := h.length_le
  rw [List.length_map] at hle
  have hall : s.map Seg.keep = maskSegs value :=
    h.eq_of_length (by rw [List.length_map]; exact Nat.le_antisymm hle ((length_maskSegs_le value).trans hlength))
  -- all nine are shown, but one of them is hidden
  have hhidden : ∀ edge, ∃ old stars, Seg.hide old stars ∈ hideMiddle value edge := fun edge =>
    ⟨_, _, List.mem_append_right _ List.mem_cons_self⟩
  have hexists : ∃ old stars, Seg.hide old stars ∈ maskSegs value := by
    rw [maskSegs] at hall ⊢
    split_ifs at hall ⊢
    · rw [List.map_eq_nil_iff] at hall
      rw [hall] at hlength
      exact absurd hlength (Nat.not_lt_zero _)
    · exact hhidden 0
    · exact hhidden 1
    · exact hhidden 4
  obtain ⟨old, stars, hmem⟩ := hexists
  rw [← hall] at hmem
  obtain ⟨c, _, heq⟩ := List.mem_map.mp hmem
  cases heq

/-- `text.split(sep, 1)`, when `sep` is there. -/
def splitOnce (sep : List Char) : List Char → Option (List Char × List Char)
  | [] => none
  | c :: cs =>
    if sep.isPrefixOf (c :: cs) then some ([], (c :: cs).drop sep.length)
    else (splitOnce sep cs).map fun r => (c :: r.1, r.2)

/-- `text.rsplit(c, 1)`, when `c` is there. -/
def splitLast (c : Char) (text : List Char) : Option (List Char × List Char) :=
  (splitOnce [c] text.reverse).map fun r => (r.2.reverse, r.1.reverse)

theorem splitOnce_eq {sep text head tail : List Char} (h : splitOnce sep text = some (head, tail)) :
    text = head ++ (sep ++ tail) := by
  induction text generalizing head with
  | nil => cases h
  | cons c cs ih =>
    rw [splitOnce] at h
    split_ifs at h with hprefix
    · cases h
      exact (List.prefix_iff_eq_append.mp (List.isPrefixOf_iff_prefix.mp hprefix)).symm
    · obtain ⟨⟨head', tail'⟩, hr, heq⟩ := Option.map_eq_some_iff.mp h
      cases heq
      rw [ih hr, List.cons_append]

theorem splitLast_eq {c : Char} {text head tail : List Char} (h : splitLast c text = some (head, tail)) :
    text = head ++ (c :: tail) := by
  obtain ⟨⟨tail', head'⟩, hr, heq⟩ := Option.map_eq_some_iff.mp h
  cases heq
  have hrev := congrArg List.reverse (splitOnce_eq hr)
  simpa using hrev

def trimReversed : List Char → List Char
  | [] => []
  | c :: cs =>
    if c ∈ ['\x27', ',', ';', ')', '>', ']', '\x7d'] ∨ (c = '.' ∧ cs.head? ≠ some '.') then trimReversed cs
    else c :: cs

def trimUri (rawStr : List Char) : List Char := (trimReversed rawStr.reverse).reverse

def schemeSep : List Char := [':', '/', '/']

def dbUriSegs (trimmed : List Char) : Option (List Seg) := do
  let (scheme, rest) ← splitOnce schemeSep trimmed
  let (userinfo, hostAndPath) ← splitLast '@' rest
  if hostAndPath.all fun c => c ∈ ['/', ':', ' '] then none
  else
    let (user, password) ← splitOnce [':'] userinfo
    if password.all (· = ':') then none
    else some ((scheme ++ schemeSep).map .keep ++ (maskSegs user ++ (.keep ':' :: .hide password 11 ::
      .keep '@' :: hostAndPath.map .keep)))

def parseAndMaskDbUri (rawStr : List Char) : Option (List Char × ℕ) :=
  let trimmed := trimUri rawStr
  (dbUriSegs trimmed).map fun segs => (shownText segs, trimmed.length)

theorem trimUri_prefix (rawStr : List Char) : trimUri rawStr <+: rawStr := by
  have hsuffix : ∀ cs : List Char, trimReversed cs <:+ cs := by
    intro cs
    induction cs with
    | nil => exact List.suffix_rfl
    | cons c cs ih =>
      rw [trimReversed]
      split_ifs
      · exact ih.trans (List.suffix_cons c cs)
      · exact List.suffix_rfl
  have hreverse := List.reverse_prefix.mpr (hsuffix rawStr.reverse)
  rwa [List.reverse_reverse] at hreverse

theorem oldText_dbUriSegs {trimmed : List Char} {segs : List Seg} (h : dbUriSegs trimmed = some segs) :
    oldText segs = trimmed := by
  rw [dbUriSegs] at h
  obtain ⟨⟨scheme, rest⟩, hscheme, h⟩ := Option.bind_eq_some_iff.mp h
  obtain ⟨⟨userinfo, hostAndPath⟩, hhost, h⟩ := Option.bind_eq_some_iff.mp h
  simp only at h
  split_ifs at h
  obtain ⟨⟨user, password⟩, huser, h⟩ := Option.bind_eq_some_iff.mp h
  simp only at h
  split_ifs at h
  cases h
  have hcons : ∀ seg segs, oldText (seg :: segs) = seg.old ++ oldText segs := fun _ _ => rfl
  rw [splitOnce_eq hscheme, splitLast_eq hhost, splitOnce_eq huser, oldText_append, oldText_append,
    oldText_map_keep, oldText_maskSegs, hcons, hcons, hcons, oldText_map_keep]
  simp only [Seg.old, List.append_assoc, List.cons_append, List.nil_append]

end TimeCodeSecurity.Secrets
