import Mathlib.Data.List.Basic
import Mathlib.Algebra.GroupWithZero.Nat

/-! # Rows of cells between bars

A row is cut at the bars that are not escaped. Cells with a blank at either side are read back exactly when none
holds such a bar.
-/
namespace TimeCodeSecurity.BarredRows
set_option autoImplicit false

variable {α : Type}

/-- `again` says whether an escape character escapes the next character, given whether it is escaped itself. -/
structure Rule (α : Type) where
  bar : α
  esc : α
  blank : α
  again : Bool → Bool
  bar_ne_esc : bar ≠ esc
  blank_ne_esc : blank ≠ esc
  blank_ne_bar : blank ≠ bar

variable [DecidableEq α] (R : Rule α)

def Rule.next (escaped : Bool) (c : α) : Bool := if c = R.esc then R.again escaped else false

def Rule.isBar (escaped : Bool) (c : α) : Bool := c = R.bar && !escaped

def Rule.bars : Bool → List α → ℕ
  | _, [] => 0
  | escaped, c :: cs => (if R.isBar escaped c then 1 else 0) + Rule.bars (R.next escaped c) cs

def Rule.cut : Bool → List α → List (List α)
  | _, [] => [[]]
  | escaped, c :: cs =>
    if R.isBar escaped c then [] :: Rule.cut (R.next escaped c) cs
    else
      match Rule.cut (R.next escaped c) cs with
      | [] => [[c]]
      | p :: ps => (c :: p) :: ps

def Rule.pad (cell : List α) : List α := R.blank :: (cell ++ [R.blank])

def Rule.row (cells : List (List α)) : List α := R.bar :: cells.flatMap fun cell => R.pad cell ++ [R.bar]

theorem Rule.next_of_ne {c : α} (h : c ≠ R.esc) (escaped : Bool) : R.next escaped c = false := if_neg h

theorem Rule.cut_ne_nil (escaped : Bool) (text : List α) : R.cut escaped text ≠ [] := by
  cases text with
  | nil => exact List.cons_ne_nil _ _
  | cons c cs =>
    rw [Rule.cut]
    split
    · exact List.cons_ne_nil _ _
    · split <;> exact List.cons_ne_nil _ _

theorem Rule.length_cut (escaped : Bool) (text : List α) :
    (R.cut escaped text).length = R.bars escaped text + 1 := by
  induction text generalizing escaped with
  | nil => rfl
  | cons c cs ih =>
    have hrest := ih (R.next escaped c)
    rw [Rule.cut, Rule.bars]
    by_cases hbar : R.isBar escaped c = true
    · rw [if_pos hbar, if_pos hbar, List.length_cons, hrest]
      omega
    · rw [if_neg hbar, if_neg hbar]
      cases hcut : R.cut (R.next escaped c) cs with
      | nil => exact absurd hcut (R.cut_ne_nil _ _)
      | cons p ps =>
        rw [hcut, List.length_cons] at hrest
        show ps.length + 1 = _
        omega

theorem Rule.bars_append {c : α} (hc : c ≠ R.esc) (u v : List α) (escaped : Bool) :
    R.bars escaped (u ++ c :: v) = R.bars escaped (u ++ [c]) + R.bars false v := by
  induction u generalizing escaped with
  | nil =>
    show _ + R.bars (R.next escaped c) v = (_ + R.bars (R.next escaped c) []) + R.bars false v
    rw [R.next_of_ne hc, Rule.bars, Nat.add_zero]
  | cons d u ih =>
    rw [List.cons_append, List.cons_append, Rule.bars, Rule.bars, ih]
    omega

theorem Rule.bars_concat {c : α} (hc : c ≠ R.bar) (u : List α) (escaped : Bool) :
    R.bars escaped (u ++ [c]) = R.bars escaped u := by
  induction u generalizing escaped with
  | nil => simp [Rule.bars, Rule.isBar, hc]
  | cons d u ih => rw [List.cons_append, Rule.bars, Rule.bars, ih]

theorem Rule.bars_cons {c : α} (hbar : c ≠ R.bar) (hesc : c ≠ R.esc) (u : List α) (escaped : Bool) :
    R.bars escaped (c :: u) = R.bars false u := by
  rw [Rule.bars, R.next_of_ne hesc]
  simp [Rule.isBar, hbar]

theorem Rule.bars_between {c : α} (hbar : c ≠ R.bar) (hesc : c ≠ R.esc) (u v : List α) (escaped : Bool) :
    R.bars escaped (u ++ c :: v) = R.bars escaped u + R.bars false v := by
  rw [R.bars_append hesc, R.bars_concat hbar]

theorem Rule.cut_at_bar {c : α} (hbar : c ≠ R.bar) (hesc : c ≠ R.esc) {u : List α} {escaped : Bool}
    (h : R.bars escaped u = 0) (v : List α) :
    R.cut escaped (u ++ c :: R.bar :: v) = (u ++ [c]) :: R.cut false v := by
  induction u generalizing escaped with
  | nil =>
    have hplain : ¬ R.isBar escaped c = true := by simp [Rule.isBar, hbar]
    have hhere : R.isBar false R.bar = true := by simp [Rule.isBar]
    rw [List.nil_append, List.nil_append, Rule.cut, if_neg hplain, R.next_of_ne hesc, Rule.cut, if_pos hhere,
      R.next_of_ne R.bar_ne_esc]
  | cons d u ih =>
    rw [Rule.bars] at h
    have hd : ¬ R.isBar escaped d = true := fun hd => by
      rw [if_pos hd] at h
      omega
    rw [List.cons_append, Rule.cut, if_neg hd, ih (by omega), List.cons_append]

theorem Rule.bars_of_not_mem {text : List α} (h : R.bar ∉ text) (escaped : Bool) : R.bars escaped text = 0 := by
  induction text generalizing escaped with
  | nil => rfl
  | cons c cs ih =>
    rw [List.mem_cons, not_or] at h
    have hbar : R.isBar escaped c = false := by simp [Rule.isBar, Ne.symm h.1]
    rw [Rule.bars, hbar, ih h.2]
    rfl

theorem Rule.bars_append_of_not_mem {v : List α} (h : R.bar ∉ v) (u : List α) (escaped : Bool) :
    R.bars escaped (u ++ v) = R.bars escaped u := by
  induction u generalizing escaped with
  | nil => exact R.bars_of_not_mem h escaped
  | cons c u ih => rw [List.cons_append, Rule.bars, Rule.bars, ih]

theorem Rule.bars_plain_append {u : List α} (h : ∀ c ∈ u, c ≠ R.bar ∧ c ≠ R.esc) (v : List α) :
    R.bars false (u ++ v) = R.bars false v := by
  induction u with
  | nil => rfl
  | cons c u ih =>
    rw [List.forall_mem_cons] at h
    rw [List.cons_append, R.bars_cons h.1.1 h.1.2, ih h.2]

theorem Rule.bars_eq_zero_iff {text : List α} (h : R.esc ∉ text) : R.bars false text = 0 ↔ R.bar ∉ text := by
  refine ⟨fun hzero => ?_, fun hmem => R.bars_of_not_mem hmem false⟩
  induction text with
  | nil => exact List.not_mem_nil
  | cons c cs ih =>
    rw [List.mem_cons, not_or] at h
    rw [Rule.bars, R.next_of_ne (Ne.symm h.1)] at hzero
    have hbar : ¬ R.isBar false c = true := fun hbar => by
      rw [if_pos hbar] at hzero
      omega
    rw [List.mem_cons, not_or]
    refine ⟨fun heq => hbar ?_, ih h.2 (by omega)⟩
    simp [Rule.isBar, heq]

def Rule.slips : Bool → List α → Bool
  | _, [] => false
  | escaped, c :: cs => (c = R.bar && !R.again escaped) || Rule.slips (R.next escaped c) cs

theorem Rule.bars_flatMap_eq_zero {write : α → List α} (hbar : write R.bar = [R.esc, R.bar])
    (hesc : write R.esc = [R.esc]) (hother : ∀ c, c ≠ R.bar → c ≠ R.esc → ∃ d, write c = [d] ∧ d ≠ R.bar ∧ d ≠ R.esc)
    (text : List α) (escaped : Bool) : R.bars escaped (text.flatMap write) = 0 ↔ R.slips escaped text = false := by
  induction text generalizing escaped with
  | nil => exact iff_of_true rfl rfl
  | cons c cs ih =>
    rw [List.flatMap_cons, Rule.slips, Bool.or_eq_false_iff]
    by_cases hc : c = R.bar
    · have hplain : R.isBar escaped R.esc = false := by simp [Rule.isBar, Ne.symm R.bar_ne_esc]
      have hnext : R.next escaped R.esc = R.again escaped := if_pos rfl
      have hrest := ih (R.next (R.again escaped) R.bar)
      rw [R.next_of_ne R.bar_ne_esc] at hrest
      rw [hc, hbar, List.cons_append, List.cons_append, List.nil_append, Rule.bars, Rule.bars, hplain, hnext,
        R.next_of_ne R.bar_ne_esc, R.next_of_ne R.bar_ne_esc, ← hrest]
      cases R.again escaped <;> simp [Rule.isBar]
    · have hhead : (decide (c = R.bar) && !R.again escaped) = false := by simp [hc]
      by_cases hc' : c = R.esc
      · have hplain : R.isBar escaped R.esc = false := by simp [Rule.isBar, Ne.symm R.bar_ne_esc]
        rw [hc', hesc, List.singleton_append, Rule.bars, hplain, ← ih]
        simp [Ne.symm R.bar_ne_esc]
      · obtain ⟨d, hd, hdbar, hdesc⟩ := hother c hc hc'
        rw [hd, List.singleton_append, R.bars_cons hdbar hdesc, ih, R.next_of_ne hc', hhead]
        exact (and_iff_right rfl).symm

theorem Rule.bars_cells (cells : List (List α)) :
    R.bars false (cells.flatMap fun cell => R.pad cell ++ [R.bar]) =
      cells.length + (cells.map (R.bars false)).sum := by
  induction cells with
  | nil => rfl
  | cons cell cells ih =>
    have hbar : R.bars false (R.pad cell ++ [R.bar]) = R.bars false cell + 1 := by
      rw [Rule.pad, List.cons_append, List.append_assoc, List.singleton_append,
        R.bars_cons R.blank_ne_bar R.blank_ne_esc, R.bars_between R.blank_ne_bar R.blank_ne_esc]
      simp [Rule.bars, Rule.isBar]
    rw [List.flatMap_cons, List.append_assoc, List.singleton_append, R.bars_append R.bar_ne_esc, hbar, ih,
      List.length_cons, List.map_cons, List.sum_cons]
    omega

theorem Rule.cut_cells {cells : List (List α)} (h : ∀ cell ∈ cells, R.bars false cell = 0) :
    R.cut false (cells.flatMap fun cell => R.pad cell ++ [R.bar]) = cells.map R.pad ++ [[]] := by
  induction cells with
  | nil => rfl
  | cons cell cells ih =>
    rw [List.forall_mem_cons] at h
    have hpadded : R.bars false (R.blank :: cell) = 0 := by
      rw [R.bars_cons R.blank_ne_bar R.blank_ne_esc, h.1]
    have htext : (cell :: cells).flatMap (fun cell => R.pad cell ++ [R.bar]) =
        (R.blank :: cell) ++ R.blank :: R.bar :: cells.flatMap (fun cell => R.pad cell ++ [R.bar]) := by
      simp [Rule.pad]
    rw [htext, R.cut_at_bar R.blank_ne_bar R.blank_ne_esc hpadded, ih h.2]
    rfl

theorem Rule.no_bars_of_cut_row {cells : List (List α)}
    (h : (R.cut false (R.row cells)).length = cells.length + 2) : ∀ cell ∈ cells, R.bars false cell = 0 := by
  have hbar : R.bars false (R.row cells) = 1 + (cells.length + (cells.map (R.bars false)).sum) := by
    rw [Rule.row, Rule.bars, R.next_of_ne R.bar_ne_esc, R.bars_cells]
    simp [Rule.isBar]
  rw [R.length_cut, hbar] at h
  have hsum : (cells.map (R.bars false)).sum = 0 := by omega
  intro cell hcell
  exact List.sum_eq_zero_iff_forall_eq_nat.mp hsum _ (List.mem_map_of_mem hcell)

theorem Rule.cut_row {cells : List (List α)} (h : ∀ cell ∈ cells, R.bars false cell = 0) :
    R.cut false (R.row cells) = [] :: (cells.map R.pad ++ [[]]) := by
  have hhere : R.isBar false R.bar = true := by simp [Rule.isBar]
  rw [Rule.row, Rule.cut, if_pos hhere, R.next_of_ne R.bar_ne_esc, R.cut_cells h]

end TimeCodeSecurity.BarredRows
