import Mathlib.Data.List.Infix

/-! # Masking tokens

A token is found where one of its spellings stands, between word boundaries if the pattern asks for them. All
tokens of a text are replaced, from the left to the right, by a row of stars, which no token holds. A text without
a token of some pattern has none after the replacement either: a boundary beside the stars was one before.
-/
namespace TimeCodeSecurity.TokenMasking
set_option autoImplicit false

variable {α : Type}

structure Spelling (α : Type) where
  heads : List (List α)
  tail : α → Bool
  atLeast : ℕ
  atMost : Option ℕ

def Spelling.Reads (s : Spelling α) (m : List α) : Prop :=
  ∃ head ∈ s.heads, ∃ run, m = head ++ run ∧ run.all s.tail = true ∧ s.atLeast ≤ run.length ∧
    ∀ n ∈ s.atMost, run.length ≤ n

/-- Spellings to choose from; an edged pattern begins and ends at a word boundary. -/
structure Pattern (α : Type) where
  spellings : List (Spelling α)
  edged : Bool

def Pattern.Reads (p : Pattern α) (m : List α) : Prop := ∃ s ∈ p.spellings, s.Reads m

section
variable (isWord : α → Bool)

/-- `\b` between two neighbours; there is none beyond the ends of a text. -/
def boundary (a b : Option α) : Bool := a.any isWord != b.any isWord

def Pattern.Fits (p : Pattern α) (before : Option α) (m : List α) (after : Option α) : Prop :=
  p.Reads m ∧ (p.edged = true → boundary isWord before m.head? = true ∧ boundary isWord m.getLast? after = true)

def Pattern.Occurs (p : Pattern α) (text : List α) : Prop :=
  ∃ before m after, text = before ++ m ++ after ∧ p.Fits isWord before.getLast? m after.head?

/-- The last of the lengths from `low` on that is accepted. -/
def lastFrom (ok : ℕ → Bool) (low : ℕ) : ℕ → Option ℕ
  | 0 => if low = 0 ∧ ok 0 = true then some 0 else none
  | n + 1 => if n + 1 < low then none else if ok (n + 1) = true then some (n + 1) else lastFrom ok low n

variable [DecidableEq α]

def Spelling.lengthFrom (s : Spelling α) (edged : Bool) (text head : List α) : Option ℕ :=
  if head.isPrefixOf text then
    let run := (text.drop head.length).takeWhile s.tail
    (lastFrom (fun n => !edged || boundary isWord (text.take (head.length + n)).getLast?
      (text.drop (head.length + n)).head?) s.atLeast (s.atMost.elim run.length (min run.length))).map
        (head.length + ·)
  else none

/-- The length of the match at the beginning of `text`, which stands behind `before`. -/
def Pattern.lengthAt (p : Pattern α) (before : Option α) (text : List α) : Option ℕ :=
  if !p.edged || boundary isWord before text.head? then
    p.spellings.findSome? fun s => s.heads.findSome? (s.lengthFrom isWord p.edged text)
  else none

end

/-! ## The length of a match -/

theorem lastFrom_eq_some {ok : ℕ → Bool} {low n k : ℕ} (h : lastFrom ok low n = some k) :
    low ≤ k ∧ k ≤ n ∧ ok k = true := by
  induction n with
  | zero =>
    rw [lastFrom] at h
    split at h
    next hok =>
      obtain rfl := Option.some.inj h
      exact ⟨hok.1.le, le_refl 0, hok.2⟩
    · cases h
  | succ n ih =>
    rw [lastFrom] at h
    split at h
    · cases h
    · split at h
      next hok =>
        obtain rfl := Option.some.inj h
        exact ⟨by omega, le_refl _, hok⟩
      · have hrest := ih h
        exact ⟨hrest.1, by omega, hrest.2.2⟩

theorem lastFrom_ne_none {ok : ℕ → Bool} {low n k : ℕ} (hlow : low ≤ k) (hk : k ≤ n) (hok : ok k = true) :
    lastFrom ok low n ≠ none := by
  induction n with
  | zero =>
    obtain rfl : k = 0 := by omega
    rw [lastFrom, if_pos ⟨by omega, hok⟩]
    exact Option.some_ne_none 0
  | succ n ih =>
    rw [lastFrom, if_neg (by omega)]
    split
    · exact Option.some_ne_none _
    next hnot =>
      refine ih ?_
      by_contra hlt
      obtain rfl : k = n + 1 := by omega
      exact hnot hok

theorem take_takeWhile {q : α → Bool} {l : List α} {k : ℕ} (h : k ≤ (l.takeWhile q).length) :
    l.take k = (l.takeWhile q).take k := by
  conv_lhs => rw [← List.takeWhile_append_dropWhile (p := q) (l := l)]
  exact List.take_append_of_le_length h

section
variable {isWord : α → Bool} [DecidableEq α] {p : Pattern α} {before : Option α}

theorem lengthFrom_sound {s : Spelling α} {edged : Bool} {text head : List α} {n : ℕ} (hmem : head ∈ s.heads)
    (h : s.lengthFrom isWord edged text head = some n) :
    n ≤ text.length ∧ s.Reads (text.take n) ∧
      (edged = true → boundary isWord (text.take n).getLast? (text.drop n).head? = true) := by
  unfold Spelling.lengthFrom at h
  split at h
  next hprefix =>
    obtain ⟨k, hk, rfl⟩ := Option.map_eq_some_iff.mp h
    obtain ⟨hlow, hhigh, hok⟩ := lastFrom_eq_some hk
    obtain ⟨rest, rfl⟩ := List.isPrefixOf_iff_prefix.mp hprefix
    rw [List.drop_left] at hhigh
    have hrun : k ≤ (rest.takeWhile s.tail).length ∧ ∀ m ∈ s.atMost, k ≤ m := by
      cases hmost : s.atMost with
      | none => simpa [hmost] using hhigh
      | some most =>
        rw [hmost] at hhigh
        simpa using Nat.le_min.mp hhigh
    have hle : k ≤ rest.length := hrun.1.trans (List.takeWhile_prefix _).length_le
    refine ⟨by simpa using hle, ⟨head, hmem, rest.take k, List.take_length_add_append k, ?_, ?_, ?_⟩, ?_⟩
    · rw [take_takeWhile hrun.1, List.all_eq_true]
      exact fun c hc => List.all_eq_true.mp List.all_takeWhile c (List.mem_of_mem_take hc)
    · rwa [List.length_take_of_le hle]
    · rw [List.length_take_of_le hle]
      exact hrun.2
    · intro hedged
      simpa [hedged] using hok
  · cases h

theorem lengthFrom_complete {s : Spelling α} {edged : Bool} {head run after : List α}
    (hrun : run.all s.tail = true) (hleast : s.atLeast ≤ run.length) (hmost : ∀ n ∈ s.atMost, run.length ≤ n)
    (hedge : edged = true → boundary isWord (head ++ run).getLast? after.head? = true) :
    s.lengthFrom isWord edged (head ++ run ++ after) head ≠ none := by
  have hprefix : head.isPrefixOf (head ++ run ++ after) = true :=
    List.isPrefixOf_iff_prefix.mpr ⟨run ++ after, (List.append_assoc _ _ _).symm⟩
  have hwhile : run.length ≤ ((run ++ after).takeWhile s.tail).length := by
    rw [List.takeWhile_append_of_pos (List.all_eq_true.mp hrun), List.length_append]
    omega
  rw [Spelling.lengthFrom, if_pos hprefix, List.append_assoc, List.drop_left]
  refine fun hnone => lastFrom_ne_none (k := run.length) hleast ?_ ?_ (Option.map_eq_none_iff.mp hnone)
  · cases hs : s.atMost with
    | none => exact hwhile
    | some most => exact le_min hwhile (hmost most hs)
  · rw [← List.append_assoc, ← List.length_append, List.take_left, List.drop_left]
    cases hedged : edged with
    | false => rfl
    | true => simpa using hedge hedged

theorem lengthAt_sound {text : List α} {n : ℕ} (h : p.lengthAt isWord before text = some n) :
    n ≤ text.length ∧ p.Reads (text.take n) ∧ (p.edged = true → boundary isWord before text.head? = true ∧
      boundary isWord (text.take n).getLast? (text.drop n).head? = true) := by
  unfold Pattern.lengthAt at h
  split at h
  next hfront =>
    obtain ⟨s, hs, hlength⟩ := List.exists_of_findSome?_eq_some h
    obtain ⟨head, hhead, hlength⟩ := List.exists_of_findSome?_eq_some hlength
    obtain ⟨hle, hreads, hedge⟩ := lengthFrom_sound hhead hlength
    exact ⟨hle, ⟨s, hs, hreads⟩, fun hedged => ⟨by simpa [hedged] using hfront, hedge hedged⟩⟩
  · cases h

theorem lengthAt_complete {m after : List α} (hne : m ≠ [])
    (h : p.lengthAt isWord before (m ++ after) = none) : ¬ p.Fits isWord before m after.head? := by
  rintro ⟨⟨s, hs, head, hhead, run, rfl, hrun, hleast, hmost⟩, hedge⟩
  have hfront : (!p.edged || boundary isWord before (head ++ run ++ after).head?) = true := by
    rw [List.head?_append_of_ne_nil _ hne]
    cases hedged : p.edged with
    | false => rfl
    | true => exact (hedge hedged).1
  rw [Pattern.lengthAt, if_pos hfront, List.findSome?_eq_none_iff] at h
  exact lengthFrom_complete hrun hleast hmost (fun hedged => (hedge hedged).2)
    (List.findSome?_eq_none_iff.mp (h s hs) head hhead)

end

section
variable (isWord : α → Bool) [DecidableEq α] (p : Pattern α) (new : List α)

/-- `pattern.sub(new, text)` behind `before`, with so many characters of a match still to be left out. -/
def Pattern.subFrom : ℕ → Option α → List α → List α
  | _, _, [] => []
  | k + 1, _, c :: text => subFrom k (some c) text
  | 0, before, c :: text =>
    match p.lengthAt isWord before (c :: text) with
    | some n => new ++ subFrom (n - 1) (some c) text
    | none => c :: subFrom 0 (some c) text

def Pattern.sub (text : List α) : List α := p.subFrom isWord new 0 none text

end

inductive Seg (α : Type)
  | keep (c : α)
  | hide (token : List α)

def Seg.old : Seg α → List α
  | .keep c => [c]
  | .hide token => token

def Seg.shown (row : List α) : Seg α → List α
  | .keep c => [c]
  | .hide _ => row

def oldText (segs : List (Seg α)) : List α := segs.flatMap Seg.old

def shownText (row : List α) (segs : List (Seg α)) : List α := segs.flatMap (Seg.shown row)

section
variable {row : List α} {segs segs' : List (Seg α)}

@[simp] theorem oldText_append : oldText (segs ++ segs') = oldText segs ++ oldText segs' := List.flatMap_append

@[simp] theorem shownText_append : shownText row (segs ++ segs') = shownText row segs ++ shownText row segs' :=
  List.flatMap_append

@[simp] theorem oldText_map_keep (text : List α) : oldText (text.map Seg.keep) = text := by
  induction text with
  | nil => rfl
  | cons c text ih => exact congrArg (c :: ·) ih

@[simp] theorem shownText_map_keep (text : List α) : shownText row (text.map Seg.keep) = text := by
  induction text with
  | nil => rfl
  | cons c text ih => exact congrArg (c :: ·) ih

end

structure Row (isWord : α → Bool) (p : Pattern α) (row : List α) : Prop where
  ne_nil : row ≠ []
  notWord : ∀ c ∈ row, isWord c = false
  apart : ∀ m, p.Reads m → ∀ c ∈ row, c ∉ m

structure Pattern.Proper (isWord : α → Bool) (p : Pattern α) : Prop where
  ne_nil : ∀ m, p.Reads m → m ≠ []
  ends : p.edged = false → ∀ m, p.Reads m → ∀ c, m.head? = some c ∨ m.getLast? = some c → isWord c = false

section
variable {row : List α}

theorem prefix_shownText {m v : List α} (hm : ∀ c ∈ row, c ∉ m) (hrow : row ≠ []) {segs : List (Seg α)}
    (h : shownText row segs = m ++ v) : ∃ rest, segs = m.map .keep ++ rest ∧ shownText row rest = v := by
  induction m generalizing segs with
  | nil => exact ⟨segs, rfl, h⟩
  | cons c m ih =>
    cases segs with
    | nil => cases h
    | cons seg segs =>
      cases seg with
      | keep c' =>
        obtain ⟨hc, htail⟩ := List.cons.inj (show c' :: shownText row segs = c :: (m ++ v) from h)
        obtain ⟨rest, rfl, hrest⟩ := ih (fun x hx hmem => hm x hx (List.mem_cons_of_mem c hmem)) htail
        exact ⟨rest, by rw [hc]; rfl, hrest⟩
      | hide token =>
        obtain ⟨s, row', rfl⟩ := List.exists_cons_of_ne_nil hrow
        have hs : s = c := (List.cons.inj (show s :: (row' ++ shownText _ segs) = c :: (m ++ v) from h)).1
        exact absurd (hs ▸ List.mem_cons_self) (hm s List.mem_cons_self)

theorem exists_kept {u m v : List α} (hm : ∀ c ∈ row, c ∉ m) (hne : m ≠ []) (hrow : row ≠ [])
    {segs : List (Seg α)} (h : shownText row segs = u ++ m ++ v) :
    ∃ A B, segs = A ++ m.map .keep ++ B ∧ shownText row A = u ∧ shownText row B = v := by
  induction segs generalizing u with
  | nil =>
    have hlength := congrArg List.length h
    have hpos := List.length_pos_iff.mpr hne
    simp only [shownText, List.flatMap_nil, List.length_nil, List.length_append] at hlength
    omega
  | cons seg segs ih =>
    have hsplit : seg.shown row ++ shownText row segs = u ++ (m ++ v) := by
      rw [← List.append_assoc]
      exact h
    rcases List.append_eq_append_iff.mp hsplit with ⟨u', rfl, hrest⟩ | ⟨w, hw, hrest⟩
    · rw [← List.append_assoc] at hrest
      obtain ⟨A, B, rfl, hA, hB⟩ := ih hrest
      refine ⟨seg :: A, B, by simp, ?_, hB⟩
      rw [← hA]
      rfl
    · cases w with
      | nil =>
        obtain ⟨A, B, rfl, hA, hB⟩ := ih (u := []) (by simpa using hrest.symm)
        refine ⟨seg :: A, B, by simp, ?_, hB⟩
        show seg.shown row ++ shownText row A = u
        rw [hA, hw]
        simp
      | cons c w =>
        obtain ⟨c', m, rfl⟩ := List.exists_cons_of_ne_nil hne
        obtain rfl : c' = c := (List.cons.inj hrest).1
        cases seg with
        | keep a =>
          -- the token begins with this very character
          obtain ⟨rfl, -⟩ : u = [] ∧ w = [] := by
            have hlength := congrArg List.length hw
            simp only [Seg.shown, List.length_append, List.length_cons, List.length_nil] at hlength
            exact ⟨List.length_eq_zero_iff.mp (by omega), List.length_eq_zero_iff.mp (by omega)⟩
          obtain ⟨B, hB, hshown⟩ := prefix_shownText hm hrow h
          exact ⟨[], B, hB, rfl, hshown⟩
        | hide token =>
          have hmem : c' ∈ row := by
            rw [show row = u ++ c' :: w from hw]
            simp
          exact absurd List.mem_cons_self (hm c' hmem)

end

/-! ## Cutting a text -/

section
variable (isWord : α → Bool) (p : Pattern α)

/-- A text behind `before`, cut into tokens and characters at which no token begins. -/
inductive Cut : List α → List (Seg α) → Prop
  | nil (before : List α) : Cut before []
  | keep {before : List α} {c : α} {segs : List (Seg α)}
      (none : ∀ m after, m ≠ [] → c :: oldText segs = m ++ after →
        ¬ p.Fits isWord before.getLast? m after.head?)
      (rest : Cut (before ++ [c]) segs) : Cut before (.keep c :: segs)
  | hide {before token : List α} {segs : List (Seg α)}
      (fits : p.Fits isWord before.getLast? token (oldText segs).head?)
      (rest : Cut (before ++ token) segs) : Cut before (.hide token :: segs)

end

section
variable {isWord : α → Bool} {p q : Pattern α} {row before : List α} {segs : List (Seg α)}

theorem Cut.behind {A B : List (Seg α)} (h : Cut isWord p before (A ++ B)) :
    Cut isWord p (before ++ oldText A) B := by
  induction A generalizing before with
  | nil =>
    rw [show oldText ([] : List (Seg α)) = [] from rfl, List.append_nil]
    exact h
  | cons seg A ih =>
    cases h with
    | keep _ rest =>
      have hrest := ih rest
      rwa [List.append_assoc] at hrest
    | hide _ rest =>
      have hrest := ih rest
      rwa [List.append_assoc] at hrest

theorem boundary_comm (a b : Option α) : boundary isWord a b = boundary isWord b a := Bool.xor_comm _ _

theorem boundary_of_word {a : Option α} (ha : a.any isWord = false) (b : Option α) :
    boundary isWord a b = b.any isWord := by
  rw [boundary, ha]
  exact Bool.false_xor _

theorem any_of_mem {o : Option α} {l : List α} (hl : ∀ c ∈ l, isWord c = false) (ho : ∀ c, o = some c → c ∈ l) :
    o.any isWord = false := by
  cases o with
  | none => rfl
  | some c => exact hl c (ho c rfl)

theorem boundary_at_token (hp : p.Proper isWord) {a b : Option α} {token : List α} (h : p.Fits isWord a token b) :
    (b.any isWord = true → boundary isWord token.getLast? b = true) ∧
      (a.any isWord = true → boundary isWord a token.head? = true) := by
  cases hedged : p.edged with
  | true =>
    have hboth := h.2 hedged
    exact ⟨fun _ => hboth.2, fun _ => hboth.1⟩
  | false =>
    have hends := hp.ends hedged token h.1
    have hlast : token.getLast?.any isWord = false := by
      cases hc : token.getLast? with
      | none => rfl
      | some c => exact hends c (.inr hc)
    have hhead : token.head?.any isWord = false := by
      cases hc : token.head? with
      | none => rfl
      | some c => exact hends c (.inl hc)
    refine ⟨fun hb => (boundary_of_word hlast b).trans hb, fun ha => ?_⟩
    rw [boundary_comm]
    exact (boundary_of_word hhead a).trans ha

theorem boundary_behind (hrow : Row isWord p row) (hp : p.Proper isWord) {A B : List (Seg α)} {b : Option α}
    (hcut : Cut isWord p [] (A ++ B)) (hb : (oldText B).head? = b)
    (h : boundary isWord (shownText row A).getLast? b = true) : boundary isWord (oldText A).getLast? b = true := by
  rcases List.eq_nil_or_concat A with rfl | ⟨A, seg, rfl⟩
  · exact h
  rw [List.concat_eq_append] at hcut h ⊢
  cases seg with
  | keep c =>
    have hold : oldText [Seg.keep c] = [c] := rfl
    have hshown : shownText row [Seg.keep c] = [c] := rfl
    rw [oldText_append, hold, List.getLast?_concat]
    rwa [shownText_append, hshown, List.getLast?_concat] at h
  | hide token =>
    rw [List.append_assoc] at hcut
    cases hcut.behind with
    | hide fits rest =>
      have hne := hp.ne_nil token fits.1
      have hold : (oldText (A ++ [Seg.hide token])).getLast? = token.getLast? := by
        rw [oldText_append, show oldText [Seg.hide token] = token from List.append_nil _,
          List.getLast?_append_of_ne_nil _ hne]
      have hshown : (shownText row (A ++ [Seg.hide token])).getLast? = row.getLast? := by
        rw [shownText_append, show shownText row [Seg.hide token] = row from List.append_nil _,
          List.getLast?_append_of_ne_nil _ hrow.ne_nil]
      have hstar : row.getLast?.any isWord = false :=
        any_of_mem hrow.notWord fun c hc => List.mem_of_getLast? hc
      rw [hold]
      rw [hshown, boundary_of_word hstar] at h
      subst hb
      exact (boundary_at_token hp fits).1 h

theorem boundary_in_front (hrow : Row isWord p row) (hp : p.Proper isWord) {before : List α} {B : List (Seg α)}
    (hcut : Cut isWord p before B) (h : boundary isWord before.getLast? (shownText row B).head? = true) :
    boundary isWord before.getLast? (oldText B).head? = true := by
  cases hcut with
  | nil => exact h
  | keep _ _ => exact h
  | @hide _ token segs fits rest =>
    have hold : (oldText (Seg.hide token :: segs)).head? = token.head? :=
      List.head?_append_of_ne_nil _ (hp.ne_nil token fits.1)
    have hshown : (shownText row (Seg.hide token :: segs)).head? = row.head? :=
      List.head?_append_of_ne_nil _ hrow.ne_nil
    have hstar : row.head?.any isWord = false := any_of_mem hrow.notWord fun c hc => List.mem_of_head? hc
    rw [hold]
    rw [hshown, boundary_comm, boundary_of_word hstar] at h
    exact (boundary_at_token hp fits).2 h

theorem exists_fits (hrow : Row isWord p row) (hq : Row isWord q row) (hp : p.Proper isWord)
    (hcut : Cut isWord p [] segs) (hne : ∀ m, q.Reads m → m ≠ []) (h : q.Occurs isWord (shownText row segs)) :
    ∃ A m B, segs = A ++ m.map .keep ++ B ∧ m ≠ [] ∧
      q.Fits isWord (oldText A).getLast? m (oldText B).head? := by
  obtain ⟨u, m, v, htext, hreads, hedge⟩ := h
  have hm := hne m hreads
  obtain ⟨A, B, rfl, rfl, rfl⟩ := exists_kept (hq.apart m hreads) hm hrow.ne_nil htext
  refine ⟨A, m, B, rfl, hm, hreads, fun hedged => ?_⟩
  obtain ⟨hfront, hback⟩ := hedge hedged
  rw [List.append_assoc] at hcut
  have hbehind := hcut.behind (A := A)
  constructor
  · refine boundary_behind hrow hp hcut ?_ hfront
    rw [oldText_append, oldText_map_keep, List.head?_append_of_ne_nil _ hm]
  · have hlast : ∀ front : List α, (front ++ m).getLast? = m.getLast? := fun front =>
      List.getLast?_append_of_ne_nil _ hm
    have hrest := hbehind.behind (A := m.map .keep)
    rw [oldText_map_keep] at hrest
    have h := boundary_in_front hrow hp hrest
    rw [hlast] at h
    exact h hback

theorem occurs_of_shown (hrow : Row isWord p row) (hq : Row isWord q row) (hp : p.Proper isWord)
    (hcut : Cut isWord p [] segs) (hne : ∀ m, q.Reads m → m ≠ []) (h : q.Occurs isWord (shownText row segs)) :
    q.Occurs isWord (oldText segs) := by
  obtain ⟨A, m, B, rfl, -, hfits⟩ := exists_fits hrow hq hp hcut hne h
  exact ⟨oldText A, m, oldText B, by simp, hfits⟩

theorem not_occurs_shown (hrow : Row isWord p row) (hp : p.Proper isWord) (hcut : Cut isWord p [] segs) :
    ¬ p.Occurs isWord (shownText row segs) := by
  intro h
  obtain ⟨A, m, B, rfl, hm, hfits⟩ := exists_fits hrow hrow hp hcut hp.ne_nil h
  obtain ⟨c, m, rfl⟩ := List.exists_cons_of_ne_nil hm
  rw [List.append_assoc] at hcut
  cases hcut.behind with
  | keep none rest =>
    refine none (c :: m) (oldText B) hm ?_ hfits
    simp

end

/-! ## What replacing leaves -/

section
variable {isWord : α → Bool} [DecidableEq α] {p q : Pattern α} {row : List α}

theorem subFrom_skip {k : ℕ} {before text : List α} (h : k ≤ text.length) (new : List α) :
    p.subFrom isWord new k before.getLast? text =
      p.subFrom isWord new 0 (before ++ text.take k).getLast? (text.drop k) := by
  induction k generalizing before text with
  | zero => simp
  | succ k ih =>
    cases text with
    | nil => simp at h
    | cons c text =>
      have hrest : p.subFrom isWord new k (before ++ [c]).getLast? text =
          p.subFrom isWord new 0 (before ++ [c] ++ text.take k).getLast? (text.drop k) := ih (by simpa using h)
      rw [List.getLast?_concat, List.append_assoc] at hrest
      exact hrest

theorem exists_cut (hp : p.Proper isWord) (row : List α) (text before : List α) : ∃ segs, oldText segs = text ∧
    shownText row segs = p.subFrom isWord row 0 before.getLast? text ∧ Cut isWord p before segs := by
  match text with
  | [] => exact ⟨[], rfl, rfl, .nil before⟩
  | c :: text =>
    cases hlength : p.lengthAt isWord before.getLast? (c :: text) with
    | none =>
      obtain ⟨segs, hold, hshown, hcut⟩ := exists_cut hp row text (before ++ [c])
      rw [List.getLast?_concat] at hshown
      refine ⟨.keep c :: segs, congrArg (c :: ·) hold, ?_, .keep (fun m after hm heq => ?_) hcut⟩
      · rw [Pattern.subFrom, hlength]
        exact congrArg (c :: ·) hshown
      · rw [hold] at heq
        rw [heq] at hlength
        exact lengthAt_complete hm hlength
    | some n =>
      obtain ⟨hle, hreads, hedge⟩ := lengthAt_sound hlength
      have hpos := List.length_pos_iff.mpr (hp.ne_nil _ hreads)
      obtain ⟨n, rfl⟩ : ∃ k, n = k + 1 := ⟨n - 1, by rw [List.length_take] at hpos; omega⟩
      have hskip : p.subFrom isWord row n (before ++ [c]).getLast? text =
          p.subFrom isWord row 0 (before ++ [c] ++ text.take n).getLast? (text.drop n) :=
        subFrom_skip (by simpa using hle) row
      obtain ⟨segs, hold, hshown, hcut⟩ := exists_cut hp row (text.drop n) (before ++ (c :: text).take (n + 1))
      rw [List.getLast?_concat, List.append_assoc] at hskip
      refine ⟨.hide ((c :: text).take (n + 1)) :: segs, ?_, ?_, .hide ⟨hreads, ?_⟩ hcut⟩
      · show (c :: text).take (n + 1) ++ oldText segs = c :: text
        rw [hold, List.take_succ_cons, List.cons_append, List.take_append_drop]
      · rw [Pattern.subFrom, hlength]
        show row ++ shownText row segs = row ++ p.subFrom isWord row (n + 1 - 1) (some c) text
        rw [hshown, Nat.add_sub_cancel, hskip]
        rfl
      · rw [hold]
        exact hedge
termination_by text.length
decreasing_by all_goals simp only [List.length_drop, List.length_cons]; omega

theorem exists_cut_sub (hp : p.Proper isWord) (row text : List α) : ∃ segs, oldText segs = text ∧
    shownText row segs = p.sub isWord row text ∧ Cut isWord p [] segs := exists_cut hp row text []

theorem not_occurs_sub (hrow : Row isWord p row) (hp : p.Proper isWord) (text : List α) :
    ¬ p.Occurs isWord (p.sub isWord row text) := by
  obtain ⟨segs, -, hshown, hcut⟩ := exists_cut_sub hp row text
  rw [← hshown]
  exact not_occurs_shown hrow hp hcut

theorem occurs_of_sub (hrow : Row isWord p row) (hq : Row isWord q row) (hp : p.Proper isWord)
    (hne : ∀ m, q.Reads m → m ≠ []) {text : List α} (h : q.Occurs isWord (p.sub isWord row text)) :
    q.Occurs isWord text := by
  obtain ⟨segs, rfl, hshown, hcut⟩ := exists_cut_sub hp row text
  rw [← hshown] at h
  exact occurs_of_shown hrow hq hp hcut hne h

theorem sub_of_not_occurs {text : List α} (hp : p.Proper isWord) (h : ¬ p.Occurs isWord text) (row : List α) :
    p.sub isWord row text = text := by
  obtain ⟨segs, hold, hshown, hcut⟩ := exists_cut_sub hp row text
  have hkept : ∀ {segs : List (Seg α)} {before : List α}, Cut isWord p before segs →
      before ++ oldText segs = text → shownText row segs = oldText segs := by
    intro segs before hcut
    induction hcut with
    | nil => exact fun _ => rfl
    | keep _ _ ih =>
      intro htext
      exact congrArg (_ :: ·) (ih (by rw [List.append_assoc]; exact htext))
    | @hide before token segs fits _ _ =>
      intro htext
      refine absurd ⟨before, token, oldText segs, ?_, fits⟩ h
      rw [List.append_assoc]
      exact htext.symm
  rw [← hshown, hkept hcut hold, hold]

end

section
variable (isWord : α → Bool) [DecidableEq α] (row : List α)

def maskAll (ps : List (Pattern α)) (text : List α) : List α := ps.foldl (fun t p => p.sub isWord row t) text

structure Maskable (p : Pattern α) : Prop where
  row : Row isWord p row
  proper : p.Proper isWord

variable {isWord row}

theorem occurs_of_maskAll {ps : List (Pattern α)} (hps : ∀ p ∈ ps, Maskable isWord row p) {q : Pattern α}
    (hq : Maskable isWord row q) {text : List α} (h : q.Occurs isWord (maskAll isWord row ps text)) :
    q.Occurs isWord text := by
  induction ps generalizing text with
  | nil => exact h
  | cons p ps ih =>
    have hp := hps p List.mem_cons_self
    have hrest := ih (fun r hr => hps r (List.mem_cons_of_mem p hr)) h
    exact occurs_of_sub hp.row hq.row hp.proper hq.proper.ne_nil hrest

theorem not_occurs_maskAll {ps : List (Pattern α)} (hps : ∀ p ∈ ps, Maskable isWord row p) {p : Pattern α}
    (hp : p ∈ ps) (text : List α) : ¬ p.Occurs isWord (maskAll isWord row ps text) := by
  induction ps generalizing text with
  | nil => cases hp
  | cons q ps ih =>
    have hmask : maskAll isWord row (q :: ps) text = maskAll isWord row ps (q.sub isWord row text) := rfl
    have hrest : ∀ r ∈ ps, Maskable isWord row r := fun r hr => hps r (List.mem_cons_of_mem q hr)
    rw [hmask]
    rcases List.mem_cons.mp hp with rfl | hp
    · have hself := hps p List.mem_cons_self
      exact fun h => not_occurs_sub hself.row hself.proper text (occurs_of_maskAll hrest hself h)
    · exact ih hrest hp _

theorem maskAll_of_not_occurs {ps : List (Pattern α)} (hps : ∀ p ∈ ps, p.Proper isWord) {text : List α}
    (h : ∀ p ∈ ps, ¬ p.Occurs isWord text) : maskAll isWord row ps text = text := by
  induction ps with
  | nil => rfl
  | cons p ps ih =>
    show maskAll isWord row ps (p.sub isWord row text) = text
    rw [sub_of_not_occurs (hps p List.mem_cons_self) (h p List.mem_cons_self)]
    exact ih (fun q hq => hps q (List.mem_cons_of_mem p hq)) fun q hq => h q (List.mem_cons_of_mem p hq)

theorem maskAll_maskAll {ps : List (Pattern α)} (hps : ∀ p ∈ ps, Maskable isWord row p) (text : List α) :
    maskAll isWord row ps (maskAll isWord row ps text) = maskAll isWord row ps text :=
  maskAll_of_not_occurs (fun p hp => (hps p hp).proper) fun _ hp => not_occurs_maskAll hps hp text

end

section
variable {isWord : α → Bool} {p : Pattern α}

theorem boundary_end (a : Option α) : boundary isWord a none = a.any isWord := by
  rw [boundary_comm]
  exact boundary_of_word rfl a

theorem occurs_take_iff {text : List α} (h : ¬ p.Occurs isWord text) (n : ℕ) :
    p.Occurs isWord (text.take n) ↔ p.edged = true ∧ ∃ u m c v, text = u ++ m ++ c :: v ∧ (u ++ m).length = n ∧
      p.Reads m ∧ boundary isWord u.getLast? m.head? = true ∧ m.getLast?.any isWord = true ∧ isWord c = true := by
  constructor
  · rintro ⟨u, m, w, htake, hreads, hedge⟩
    have htext : text = u ++ m ++ (w ++ text.drop n) := by
      rw [← List.append_assoc, ← htake, List.take_append_drop]
    cases w with
    | cons c w => exact absurd ⟨u, m, _, htext, hreads, hedge⟩ h
    | nil =>
      rw [List.append_nil] at htake
      rw [List.nil_append] at htext
      cases hdrop : text.drop n with
      | nil =>
        rw [hdrop] at htext
        exact absurd ⟨u, m, [], htext, hreads, hedge⟩ h
      | cons c v =>
        rw [hdrop] at htext
        have hlength : (u ++ m).length = n := by
          have hpos := congrArg List.length hdrop
          rw [List.length_drop, List.length_cons] at hpos
          rw [← htake, List.length_take]
          omega
        cases hedged : p.edged with
        | false => exact absurd ⟨u, m, c :: v, htext, hreads, fun hp => by rw [hedged] at hp; cases hp⟩ h
        | true =>
          obtain ⟨hfront, hback⟩ := hedge hedged
          rw [List.head?_nil, boundary_end] at hback
          refine ⟨rfl, u, m, c, v, htext, hlength, hreads, hfront, hback, ?_⟩
          by_contra hc
          refine h ⟨u, m, c :: v, htext, hreads, fun _ => ⟨hfront, ?_⟩⟩
          have hnot : (some c).any isWord = false := by simpa using hc
          rw [List.head?_cons, boundary_comm, boundary_of_word hnot]
          exact hback
  · rintro ⟨-, u, m, c, v, rfl, rfl, hreads, hfront, hback, -⟩
    refine ⟨u, m, [], by rw [List.take_left, List.append_nil], hreads, fun _ => ⟨hfront, ?_⟩⟩
    rw [List.head?_nil, boundary_end]
    exact hback

end

/-! ## The parts of a text that are hidden -/

section
variable (isWord : α → Bool) [DecidableEq α] (row : List α)

def Pattern.hideFrom (p : Pattern α) : ℕ → Option α → List (Seg α) → List (Seg α)
  | _, _, [] => []
  | _, _, .hide token :: segs => .hide token :: p.hideFrom 0 row.getLast? segs
  | k + 1, _, .keep c :: segs => p.hideFrom k (some c) segs
  | 0, before, .keep c :: segs =>
    match p.lengthAt isWord before (c :: shownText row segs) with
    | some n => .hide ((c :: oldText segs).take n) :: p.hideFrom (n - 1) (some c) segs
    | none => .keep c :: p.hideFrom 0 (some c) segs

def hideAll (ps : List (Pattern α)) (text : List α) : List (Seg α) :=
  ps.foldl (fun segs p => p.hideFrom isWord row 0 none segs) (text.map .keep)

variable {isWord row} {p : Pattern α}

theorem lengthAt_of_star (hrow : Row isWord p row) (hp : p.Proper isWord) {c : α} (hc : c ∈ row)
    (before : Option α) (text : List α) : p.lengthAt isWord before (c :: text) = none := by
  cases h : p.lengthAt isWord before (c :: text) with
  | none => rfl
  | some n =>
    have hreads := (lengthAt_sound h).2.1
    have hne := hp.ne_nil _ hreads
    cases n with
    | zero => exact absurd rfl hne
    | succ n => exact absurd List.mem_cons_self (hrow.apart _ hreads c hc)

theorem subFrom_stars (hrow : Row isWord p row) (hp : p.Proper isWord) {stars : List α} (h : ∀ c ∈ stars, c ∈ row)
    (before text : List α) : p.subFrom isWord row 0 before.getLast? (stars ++ text) =
      stars ++ p.subFrom isWord row 0 (before ++ stars).getLast? text := by
  induction stars generalizing before with
  | nil => simp
  | cons c stars ih =>
    have hrest := ih (fun x hx => h x (List.mem_cons_of_mem c hx)) (before ++ [c])
    rw [List.getLast?_concat, List.append_assoc] at hrest
    rw [List.cons_append, Pattern.subFrom, lengthAt_of_star hrow hp (h c List.mem_cons_self)]
    exact congrArg (c :: ·) hrest

theorem kept_of_lengthAt (hrow : Row isWord p row) (hp : p.Proper isWord) {before : Option α} {c : α}
    {segs : List (Seg α)} {n : ℕ} (h : p.lengthAt isWord before (c :: shownText row segs) = some n) :
    ∃ (m : List α) (rest : List (Seg α)), segs = m.map .keep ++ rest ∧ n = m.length + 1 := by
  obtain ⟨hle, hreads, -⟩ := lengthAt_sound h
  have hne := List.length_pos_iff.mpr (hp.ne_nil _ hreads)
  have happart := hrow.apart _ hreads
  obtain ⟨n, rfl⟩ : ∃ k, n = k + 1 := ⟨n - 1, by rw [List.length_take] at hne; omega⟩
  have hstars : ∀ s ∈ row, s ∉ (shownText row segs).take n := fun s hs hmem =>
    happart s hs (List.mem_cons_of_mem c hmem)
  obtain ⟨rest, hsegs, -⟩ := prefix_shownText hstars hrow.ne_nil (List.take_append_drop n _).symm
  have hlength : ((shownText row segs).take n).length = n :=
    List.length_take_of_le (by simpa using hle)
  exact ⟨_, rest, hsegs, by rw [hlength]⟩

theorem shownText_hideFrom (hrow : Row isWord p row) (hp : p.Proper isWord) (m : List α) (rest : List (Seg α))
    (before : Option α) : shownText row (p.hideFrom isWord row m.length before (m.map .keep ++ rest)) =
      p.subFrom isWord row m.length before (shownText row (m.map .keep ++ rest)) := by
  match m, rest with
  | c :: m, rest => exact shownText_hideFrom hrow hp m rest (some c)
  | [], [] => rfl
  | [], .hide token :: rest =>
    have hrest := shownText_hideFrom hrow hp [] rest row.getLast?
    have hstars := subFrom_stars hrow hp (fun c hc => hc) before.toList (shownText row rest)
    rw [List.getLast?_append_of_ne_nil _ hrow.ne_nil] at hstars
    have hbefore : before.toList.getLast? = before := by cases before <;> rfl
    rw [hbefore] at hstars
    show row ++ shownText row (p.hideFrom isWord row 0 row.getLast? rest) =
      p.subFrom isWord row 0 before (row ++ shownText row rest)
    rw [hstars]
    exact congrArg (row ++ ·) hrest
  | [], .keep c :: rest =>
    show shownText row (p.hideFrom isWord row 0 before (.keep c :: rest)) =
      p.subFrom isWord row 0 before (c :: shownText row rest)
    rw [Pattern.hideFrom, Pattern.subFrom]
    cases h : p.lengthAt isWord before (c :: shownText row rest) with
    | none => exact congrArg (c :: ·) (shownText_hideFrom hrow hp [] rest (some c))
    | some n =>
      obtain ⟨m, rest, rfl, rfl⟩ := kept_of_lengthAt hrow hp h
      exact congrArg (row ++ ·) (shownText_hideFrom hrow hp m rest (some c))
termination_by m.length + rest.length
decreasing_by all_goals simp_all; try omega

theorem shownText_hideAll {ps : List (Pattern α)} (hps : ∀ p ∈ ps, Maskable isWord row p) (text : List α) :
    shownText row (hideAll isWord row ps text) = maskAll isWord row ps text := by
  have hfold : ∀ segs : List (Seg α),
      shownText row (ps.foldl (fun segs p => p.hideFrom isWord row 0 none segs) segs) =
        maskAll isWord row ps (shownText row segs) := by
    induction ps with
    | nil => exact fun segs => rfl
    | cons p ps ih =>
      intro segs
      have hp := hps p List.mem_cons_self
      have hshown : shownText row (p.hideFrom isWord row 0 none segs) = p.sub isWord row (shownText row segs) :=
        shownText_hideFrom hp.row hp.proper [] segs none
      rw [List.foldl_cons, ih (fun q hq => hps q (List.mem_cons_of_mem p hq)), hshown]
      rfl
  rw [hideAll, hfold, shownText_map_keep]

end

section
variable (isWord : α → Bool) (row : List α)

/-- The text is cut behind a word that stays, which would be a token if it did not go on. -/
def CutsInto (p : Pattern α) (n : ℕ) (segs : List (Seg α)) : Prop :=
  ∃ (A : List (Seg α)) (m : List α) (c : α) (B : List (Seg α)),
    segs = A ++ (m ++ [c]).map .keep ++ B ∧ (shownText row A).length + m.length = n ∧ p.Reads m ∧
    boundary isWord (shownText row A).getLast? m.head? = true ∧ m.getLast?.any isWord = true ∧ isWord c = true

variable {isWord row} [DecidableEq α] {p : Pattern α}

theorem occurs_take_maskAll_iff {ps : List (Pattern α)} (hps : ∀ p ∈ ps, Maskable isWord row p) (hp : p ∈ ps)
    (text : List α) (n : ℕ) : p.Occurs isWord ((maskAll isWord row ps text).take n) ↔
      p.edged = true ∧ CutsInto isWord row p n (hideAll isWord row ps text) := by
  have hrow := (hps p hp).row
  rw [occurs_take_iff (not_occurs_maskAll hps hp text), ← shownText_hideAll hps text]
  refine and_congr_right fun _ => ⟨?_, ?_⟩
  · intro ⟨u, m, c, v, htext, hlength, hreads, hfront, hback, hc⟩
    have hstars : ∀ s ∈ row, s ∉ m ++ [c] := by
      intro s hs hmem
      rcases List.mem_append.mp hmem with hmem | hmem
      · exact hrow.apart m hreads s hs hmem
      · obtain rfl := List.mem_singleton.mp hmem
        rw [hrow.notWord s hs] at hc
        cases hc
    have htoken : shownText row (hideAll isWord row ps text) = u ++ (m ++ [c]) ++ v := by
      rw [htext]
      simp
    obtain ⟨A, B, hsegs, rfl, -⟩ := exists_kept hstars (by simp) hrow.ne_nil htoken
    rw [List.length_append] at hlength
    exact ⟨A, m, c, B, hsegs, hlength, hreads, hfront, hback, hc⟩
  · intro ⟨A, m, c, B, hsegs, hlength, hreads, hfront, hback, hc⟩
    refine ⟨shownText row A, m, c, shownText row B, ?_, ?_, hreads, hfront, hback, hc⟩
    · rw [hsegs, shownText_append, shownText_append, shownText_map_keep]
      simp
    · rw [List.length_append]
      exact hlength

end

end TimeCodeSecurity.TokenMasking
