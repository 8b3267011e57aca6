import Mathlib.Data.List.Basic

/-! # Lines of a text

A text is cut at the characters that end a line; `\r\n` ends one line, not two. There is always one
piece more than there are line ends, so the last piece is the unfinished line.
-/
namespace TimeCodeSecurity.TextLines
set_option autoImplicit false

def pieces (ends : Char → Bool) : List Char → List (List Char)
  | [] => [[]]
  | c :: rest =>
    if c = '\r' ∧ rest.head? = some '\n' then pieces ends rest
    else if ends c then [] :: pieces ends rest
    else
      match pieces ends rest with
      | [] => [[c]]
      | p :: ps => (c :: p) :: ps

/-- `str.splitlines`: an empty unfinished line is no line. -/
def splitLines (ends : Char → Bool) (text : List Char) : List (List Char) :=
  let ps := pieces ends text
  if ps.getLast? = some [] then ps.dropLast else ps

def Meets (u v : List Char) : Prop := ¬(u.getLast? = some '\r' ∧ v.head? = some '\n')

variable {ends : Char → Bool}

theorem pieces_ne_nil (text : List Char) : pieces ends text ≠ [] := by
  induction text with
  | nil => simp [pieces]
  | cons c rest ih =>
    rw [pieces]
    split_ifs with hcr hc
    · exact ih
    · simp
    · cases h : pieces ends rest with
      | nil => simp
      | cons p ps => simp

theorem Meets.tail {c : Char} {u v : List Char} (h : Meets (c :: u) v) : Meets u v := by
  intro hm
  apply h
  cases u with
  | nil => simp at hm
  | cons d u => exact ⟨by rw [List.getLast?_cons_cons]; exact hm.1, hm.2⟩

theorem pieces_append {u v last hd : List Char} {ps tl : List (List Char)} (hmeets : Meets u v)
    (hu : pieces ends u = ps ++ [last]) (hv : pieces ends v = hd :: tl) :
    pieces ends (u ++ v) = ps ++ (last ++ hd) :: tl := by
  induction u generalizing ps last with
  | nil =>
    have hnil : ps = [] ∧ last = [] := by
      cases ps <;> simp_all [pieces]
    rw [hnil.1, hnil.2]
    exact hv
  | cons c u ih =>
    have hhead : c = '\r' → ((u ++ v).head? = some '\n' ↔ u.head? = some '\n') := by
      rintro rfl
      cases u with
      | nil => exact ⟨fun h => absurd ⟨rfl, h⟩ hmeets, fun h => by simp at h⟩
      | cons d u => simp
    rw [pieces] at hu
    rw [List.cons_append, pieces]
    by_cases hcr : c = '\r' ∧ u.head? = some '\n'
    · rw [if_pos hcr] at hu
      rw [if_pos ⟨hcr.1, (hhead hcr.1).mpr hcr.2⟩]
      exact ih hmeets.tail hu
    · rw [if_neg hcr] at hu
      rw [if_neg fun h => hcr ⟨h.1, (hhead h.1).mp h.2⟩]
      by_cases hc : ends c = true
      · rw [if_pos hc] at hu
        rw [if_pos hc]
        cases ps with
        | nil => exact absurd (List.cons.inj hu).2 (pieces_ne_nil u)
        | cons p ps =>
          obtain ⟨rfl, htail⟩ := List.cons.inj hu
          rw [ih hmeets.tail htail, List.cons_append]
      · rw [if_neg hc] at hu
        rw [if_neg hc]
        -- `c` joins the first piece of what follows, which is the last one when there is no other.
        obtain ⟨qs, q, hq⟩ : ∃ qs q, pieces ends u = qs ++ [q] :=
          ⟨_, _, (List.dropLast_append_getLast (pieces_ne_nil u)).symm⟩
        rw [ih hmeets.tail hq]
        rw [hq] at hu
        cases qs with
        | nil =>
          cases ps with
          | nil =>
            have hlast : last = c :: q := by simpa using hu.symm
            rw [hlast]
            rfl
          | cons p ps => simp at hu
        | cons r rs =>
          cases ps with
          | nil => simp at hu
          | cons p ps =>
            simp only [List.cons_append, List.cons.injEq] at hu
            obtain ⟨rfl, hrest⟩ := hu
            obtain ⟨rfl, hlast⟩ := List.append_inj' hrest rfl
            rw [List.singleton_inj.mp hlast]
            rfl

theorem pieces_of_no_end {text : List Char} (h : ∀ c ∈ text, ends c = false ∧ c ≠ '\r') :
    pieces ends text = [text] := by
  induction text with
  | nil => rfl
  | cons c rest ih =>
    have hc := h c List.mem_cons_self
    rw [pieces, if_neg fun hcr => hc.2 hcr.1, if_neg (by simp [hc.1]),
      ih fun d hd => h d (List.mem_cons_of_mem c hd)]

theorem pieces_head_nil {text : List Char} (hcr : ends '\r' = true) (hnl : ends '\n' = true)
    (h : text = [] ∨ text.head? = some '\n' ∨ text.head? = some '\r') :
    ∃ tl, pieces ends text = [] :: tl := by
  cases text with
  | nil => exact ⟨[], rfl⟩
  | cons c rest =>
    have hnewline : ∀ more : List Char, ∃ tl, pieces ends ('\n' :: more) = [] :: tl := fun more =>
      ⟨pieces ends more, by rw [pieces, if_neg (by simp), if_pos hnl]⟩
    rcases h with h | h | h
    · simp at h
    · obtain rfl : c = '\n' := by simpa using h
      exact hnewline rest
    · obtain rfl : c = '\r' := by simpa using h
      rw [pieces]
      split_ifs with hpair
      · cases rest with
        | nil => simp at hpair
        | cons d rest =>
          obtain rfl : d = '\n' := by simpa using hpair
          exact hnewline rest
      · exact ⟨_, rfl⟩

theorem pieces_insert (hcr : ends '\r' = true) (hnl : ends '\n' = true) {upTo added rest : List Char}
    (hend : rest = [] ∨ rest.head? = some '\n' ∨ rest.head? = some '\r') (hmeets : Meets upTo rest)
    (hadded : ∀ c ∈ added, ends c = false) :
    ∃ ps last tl, pieces ends upTo = ps ++ [last] ∧ pieces ends (upTo ++ rest) = ps ++ last :: tl ∧
      pieces ends (upTo ++ added ++ rest) = ps ++ (last ++ added) :: tl := by
  obtain ⟨ps, last, hps⟩ : ∃ ps last, pieces ends upTo = ps ++ [last] :=
    ⟨_, _, (List.dropLast_append_getLast (pieces_ne_nil upTo)).symm⟩
  obtain ⟨tl, htl⟩ := pieces_head_nil hcr hnl hend
  have hnocr : ∀ c ∈ added, ends c = false ∧ c ≠ '\r' := by
    intro c hc
    refine ⟨hadded c hc, ?_⟩
    rintro rfl
    rw [hadded _ hc] at hcr
    cases hcr
  have hfront : Meets upTo added := by
    rintro ⟨-, h⟩
    have hnl' := hadded '\n' (List.mem_of_mem_head? h)
    rw [hnl] at hnl'
    cases hnl'
  have hback : Meets (upTo ++ added) rest := by
    rintro ⟨h, h'⟩
    by_cases hne : added = []
    · rw [hne, List.append_nil] at h
      exact hmeets ⟨h, h'⟩
    · rw [List.getLast?_append_of_ne_nil _ hne] at h
      exact (hnocr _ (List.mem_of_getLast? h)).2 rfl
  refine ⟨ps, last, tl, hps, ?_, ?_⟩
  · rw [pieces_append hmeets hps htl, List.append_nil]
  · rw [pieces_append hback (pieces_append hfront hps (pieces_of_no_end hnocr)) htl, List.append_nil]

theorem any_getElem?_splitLines (f : List Char → Bool) (hf : f [] = false) (text : List Char) (i : ℕ) :
    (splitLines ends text)[i]?.any f = (pieces ends text)[i]?.any f := by
  unfold splitLines
  obtain ⟨ps, last, hps⟩ : ∃ ps last, pieces ends text = ps ++ [last] :=
    ⟨_, _, (List.dropLast_append_getLast (pieces_ne_nil text)).symm⟩
  rw [hps]
  by_cases hlast : last = []
  · subst hlast
    simp only [List.getLast?_append, List.getLast?_singleton, Option.some_or, if_true,
      List.dropLast_concat]
    rcases Nat.lt_trichotomy i ps.length with h | h | h
    · rw [List.getElem?_append_left h]
    · subst h
      simp [hf]
    · rw [List.getElem?_eq_none (by omega), List.getElem?_eq_none (by simp; omega)]
  · simp [hlast]

theorem pieces_append_newline {u v : List Char} (hnl : ends '\n' = true) (hu : u.getLast? ≠ some '\r') :
    pieces ends (u ++ '\n' :: v) = pieces ends u ++ pieces ends v := by
  have hnewline : pieces ends ('\n' :: v) = [] :: pieces ends v := by
    rw [pieces, if_neg (by simp), if_pos hnl]
  have hne : pieces ends u ≠ [] := pieces_ne_nil u
  have hlast := List.dropLast_append_getLast hne
  have happend := pieces_append (fun h => hu h.1) hlast.symm hnewline
  rw [List.append_nil] at happend
  rw [happend]
  conv_rhs => rw [← hlast]
  rw [List.append_assoc, List.singleton_append]

theorem pieces_intercalate (hnl : ends '\n' = true) {lines : List (List Char)} (hne : lines ≠ [])
    (h : ∀ l ∈ lines, l.getLast? ≠ some '\r') :
    pieces ends (List.intercalate ['\n'] lines) = lines.flatMap (pieces ends) := by
  induction lines with
  | nil => exact absurd rfl hne
  | cons l lines ih =>
    rw [List.forall_mem_cons] at h
    cases lines with
    | nil => rw [List.intercalate_singleton, List.flatMap_cons, List.flatMap_nil, List.append_nil]
    | cons k lines =>
      rw [List.intercalate_cons_cons, List.append_assoc, List.singleton_append, pieces_append_newline hnl h.1,
        ih (List.cons_ne_nil k lines) h.2]
      rfl

theorem length_pieces_pos (text : List Char) : 0 < (pieces ends text).length :=
  List.length_pos_iff.mpr (pieces_ne_nil text)

theorem no_end_of_length_pieces (hnl : ends '\n' = true) {text : List Char}
    (h : (pieces ends text).length = 1) : ∀ c ∈ text, ends c = false := by
  induction text with
  | nil => exact fun c hc => nomatch hc
  | cons c rest ih =>
    rw [pieces] at h
    by_cases hpair : c = '\r' ∧ rest.head? = some '\n'
    · rw [if_pos hpair] at h
      have hnewline := ih h '\n' (List.mem_of_mem_head? hpair.2)
      rw [hnl] at hnewline
      cases hnewline
    · rw [if_neg hpair] at h
      by_cases hc : ends c = true
      · rw [if_pos hc, List.length_cons] at h
        have hpos : 0 < (pieces ends rest).length := length_pieces_pos rest
        omega
      · rw [if_neg hc] at h
        rw [List.forall_mem_cons]
        refine ⟨Bool.eq_false_iff.mpr hc, ih ?_⟩
        cases hrest : pieces ends rest with
        | nil => exact absurd hrest (pieces_ne_nil rest)
        | cons p ps =>
          rw [hrest] at h
          exact h

end TimeCodeSecurity.TextLines

/-! ## Lines with their ends

A text is cut behind the characters that end a line, where `\r\n` ends one line and not two. A plain line ends
with `\n` or `\r\n` and has no other line end in it, so that everybody who counts `\n` counts the same lines.
A position is a row, counted from 1, and a column.
-/
namespace TimeCodeSecurity.KeptLines

def cut (ends : Char → Bool) : List Char → List (List Char)
  | [] => []
  | c :: rest =>
    if ends c ∧ ¬(c = '\r' ∧ rest.head? = some '\n') then [c] :: cut ends rest
    else
      match cut ends rest with
      | [] => [[c]]
      | l :: ls => (c :: l) :: ls

section
variable {ends : Char → Bool}

theorem flatten_cut (text : List Char) : (cut ends text).flatten = text := by
  induction text with
  | nil => rfl
  | cons c rest ih =>
    rw [cut]
    split
    · rw [List.flatten_cons, ih]
      rfl
    · cases hrest : cut ends rest with
      | nil =>
        rw [hrest] at ih
        rw [← ih]
        rfl
      | cons l ls =>
        rw [hrest] at ih
        rw [← ih]
        rfl

end

def Endless (ends : Char → Bool) (text : List Char) : Prop := ∀ c ∈ text, ends c = false ∧ c ≠ '\r'

/-- A line that ends with `\n` or `\r\n`, and nowhere before. -/
def Ended (ends : Char → Bool) (line : List Char) : Prop :=
  ∃ body, Endless ends body ∧ (line = body ++ ['\n'] ∨ line = body ++ ['\r', '\n'])

section
variable {ends : Char → Bool}

theorem Endless.mono {ends' : Char → Bool} {text : List Char} (h : Endless ends text)
    (hsub : ∀ c, ends' c = true → ends c = true) : Endless ends' text := by
  intro c hc
  refine ⟨?_, (h c hc).2⟩
  by_contra hends
  rw [Bool.not_eq_false] at hends
  have hfalse := (h c hc).1
  rw [hsub c hends] at hfalse
  cases hfalse

theorem Ended.mono {ends' : Char → Bool} {line : List Char} (h : Ended ends line)
    (hsub : ∀ c, ends' c = true → ends c = true) : Ended ends' line := by
  obtain ⟨body, hbody, hline⟩ := h
  exact ⟨body, hbody.mono hsub, hline⟩

theorem cut_endless {text : List Char} (h : Endless ends text) :
    cut ends text = if text = [] then [] else [text] := by
  induction text with
  | nil => rfl
  | cons c rest ih =>
    have hc := h c List.mem_cons_self
    rw [cut, if_neg fun hand => by simp [hc.1] at hand, ih fun x hx => h x (List.mem_cons_of_mem c hx)]
    cases rest <;> rfl

variable (hnl : ends '\n' = true)
include hnl

theorem cut_append {line text : List Char} (h : Ended ends line) :
    cut ends (line ++ text) = line :: cut ends text := by
  obtain ⟨body, hbody, hline⟩ := h
  have hend : ∀ e, (e = ['\n'] ∨ e = ['\r', '\n']) → cut ends (e ++ text) = e :: cut ends text := by
    have hone : cut ends ('\n' :: text) = ['\n'] :: cut ends text := by
      rw [cut, if_pos ⟨hnl, fun h => by simp at h⟩]
    rintro e (rfl | rfl)
    · exact hone
    · show cut ends ('\r' :: '\n' :: text) = _
      rw [cut, if_neg fun h => h.2 ⟨rfl, rfl⟩, hone]
  obtain ⟨e, he, rfl⟩ : ∃ e, (e = ['\n'] ∨ e = ['\r', '\n']) ∧ line = body ++ e := by
    rcases hline with rfl | rfl
    · exact ⟨_, .inl rfl, rfl⟩
    · exact ⟨_, .inr rfl, rfl⟩
  rw [List.append_assoc]
  clear hline
  induction body with
  | nil => exact hend e he
  | cons c body ih =>
    have hc := hbody c List.mem_cons_self
    rw [List.cons_append, cut, if_neg fun hand => by simp [hc.1] at hand,
      ih fun x hx => hbody x (List.mem_cons_of_mem c hx)]
    rfl

theorem cut_flatten_append {lines : List (List Char)} (h : ∀ l ∈ lines, Ended ends l) (text : List Char) :
    cut ends (lines.flatten ++ text) = lines ++ cut ends text := by
  induction lines with
  | nil => rfl
  | cons l ls ih =>
    rw [List.flatten_cons, List.append_assoc, cut_append hnl (h l List.mem_cons_self),
      ih fun x hx => h x (List.mem_cons_of_mem l hx)]
    rfl

end

/-! ## Two ways of cutting -/

section
variable {ends : Char → Bool} (hnl : ends '\n' = true)
include hnl

theorem length_cut_newline_le (text : List Char) :
    (cut (· == '\n') text).length ≤ (cut ends text).length := by
  induction text with
  | nil => simp [cut]
  | cons c rest ih =>
    rw [cut, cut]
    by_cases hc : c = '\n'
    · subst hc
      simpa [hnl] using ih
    · rw [if_neg fun h => hc (by simpa using h.1)]
      split_ifs
      · cases hrest : cut (· == '\n') rest with
        | nil => simp
        | cons l ls =>
          rw [hrest] at ih
          simp only [List.length_cons] at ih ⊢
          omega
      · cases hrest : cut (· == '\n') rest with
        | nil =>
          cases cut ends rest <;> simp
        | cons l ls =>
          rw [hrest] at ih
          cases hends : cut ends rest with
          | nil => simp [hends] at ih
          | cons k ks => simpa [hends] using ih

omit hnl in
theorem length_take_joined {c : Char} {rest : List Char} (h : ¬(ends c = true ∧ ¬(c = '\r' ∧ rest.head? = some '\n')))
    (k : ℕ) : ((cut ends (c :: rest)).take (k + 1)).flatten.length =
      1 + ((cut ends rest).take (k + 1)).flatten.length := by
  rw [cut, if_neg h]
  cases cut ends rest with
  | nil => simp
  | cons l ls =>
    simp only [List.take_succ_cons, List.flatten_cons, List.length_append, List.length_cons]
    omega

theorem length_take_cut_le (text : List Char) (k : ℕ) :
    ((cut ends text).take k).flatten.length ≤ ((cut (· == '\n') text).take k).flatten.length := by
  induction text generalizing k with
  | nil => simp [cut]
  | cons c rest ih =>
    cases k with
    | zero => simp
    | succ k =>
      by_cases hc : c = '\n'
      · subst hc
        simpa [cut, hnl] using ih k
      · have hjoined : ((cut (· == '\n') (c :: rest)).take (k + 1)).flatten.length =
            1 + ((cut (· == '\n') rest).take (k + 1)).flatten.length :=
          length_take_joined (fun h => hc (by simpa using h.1)) k
        rw [hjoined]
        by_cases hends : ends c = true ∧ ¬(c = '\r' ∧ rest.head? = some '\n')
        · have hk := ih k
          have hmono : ((cut (· == '\n') rest).take k).flatten.length ≤
              ((cut (· == '\n') rest).take (k + 1)).flatten.length := by
            rw [List.take_add_one, List.flatten_append, List.length_append]
            omega
          rw [cut, if_pos hends]
          simp only [List.take_succ_cons, List.flatten_cons, List.length_append, List.length_cons, List.length_nil]
          omega
        · have hk := ih (k + 1)
          rw [length_take_joined hends]
          omega

end

def placeOf (lines : List (List Char)) (position : ℕ × ℕ) : ℕ :=
  (lines.take (position.1 - 1)).flatten.length + position.2

def Within (lines : List (List Char)) (position : ℕ × ℕ) : Prop :=
  ∃ line, lines[position.1 - 1]? = some line ∧ position.2 ≤ line.length

instance (lines : List (List Char)) (position : ℕ × ℕ) : Decidable (Within lines position) :=
  decidable_of_iff (lines[position.1 - 1]?.any (decide <| position.2 ≤ ·.length) = true) (by
    simp [Within, Option.any_eq_true])

theorem placeOf_le {lines : List (List Char)} {position : ℕ × ℕ} (h : Within lines position) :
    placeOf lines position ≤ lines.flatten.length := by
  obtain ⟨line, hline, hcol⟩ := h
  have htake : (lines.take (position.1 - 1 + 1)).flatten.length ≤ lines.flatten.length := by
    conv_rhs => rw [← List.take_append_drop (position.1 - 1 + 1) lines]
    rw [List.flatten_append, List.length_append]
    omega
  rw [List.take_add_one, hline] at htake
  simp only [Option.toList_some, List.flatten_append, List.flatten_cons, List.flatten_nil, List.append_nil,
    List.length_append] at htake
  rw [placeOf]
  omega

theorem getElem?_scanl_length {lines : List (List Char)} {row : ℕ} (h : row ≤ lines.length) :
    (lines.scanl (fun n line => n + line.length) 0)[row]? = some (lines.take row).flatten.length := by
  rw [List.getElem?_scanl, if_pos h]
  have hsum : ∀ (ls : List (List Char)) (n : ℕ),
      ls.foldl (fun n line => n + line.length) n = n + ls.flatten.length := by
    intro ls
    induction ls with
    | nil => simp
    | cons l ls ih =>
      intro n
      rw [List.foldl_cons, ih, List.flatten_cons, List.length_append]
      omega
  rw [hsum, Nat.zero_add]

end TimeCodeSecurity.KeptLines
