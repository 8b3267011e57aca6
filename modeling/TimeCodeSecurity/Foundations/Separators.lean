import Mathlib.Data.List.Infix
import Mathlib.Data.List.DropRight

/-! # Texts with separators

A text cut at its last separator (`suffix_inj`), and the items of a list written one behind the other
with a separator between them (`joined`, innermost item first), which can be read back when no item
holds the separator.
-/
namespace Separators
set_option autoImplicit false

variable {α : Type} {c : α}

theorem takeWhile_reverse [DecidableEq α] {before tail : List α} (htail : c ∉ tail) :
    (before ++ c :: tail).reverse.takeWhile (· ≠ c) = tail.reverse := by
  have hall : ∀ d ∈ tail.reverse, decide (d ≠ c) = true := by
    intro d hd
    have hne : d ≠ c := fun heq => htail (heq ▸ List.mem_reverse.mp hd)
    simpa using hne
  rw [List.reverse_append, List.reverse_cons, List.append_assoc, List.takeWhile_append_of_pos hall]
  simp

theorem dropWhile_reverse [DecidableEq α] {before tail : List α} (htail : c ∉ tail) :
    (before ++ c :: tail).reverse.dropWhile (· ≠ c) = c :: before.reverse := by
  have hall : ∀ d ∈ tail.reverse, decide (d ≠ c) = true := by
    intro d hd
    have hne : d ≠ c := fun heq => htail (heq ▸ List.mem_reverse.mp hd)
    simpa using hne
  rw [List.reverse_append, List.reverse_cons, List.append_assoc, List.dropWhile_append_of_pos hall]
  simp

theorem suffix_inj {a b x y : List α} (hx : c ∉ x) (hy : c ∉ y) (h : a ++ c :: x = b ++ c :: y) :
    a = b ∧ x = y := by
  classical
  have hrev : x.reverse = y.reverse := by rw [← takeWhile_reverse hx, ← takeWhile_reverse hy, h]
  have hxy : x = y := by simpa using hrev
  rw [hxy] at h
  exact ⟨List.append_cancel_right h, hxy⟩

theorem not_mem_of_mem_splitOn [BEq α] [LawfulBEq α] {text piece : List α} (h : piece ∈ text.splitOn c) :
    c ∉ piece := by
  induction text generalizing piece with
  | nil =>
    rw [List.splitOn_nil, List.mem_singleton] at h
    rw [h]
    exact List.not_mem_nil
  | cons d text ih =>
    rw [List.splitOn_cons_eq_if_modifyHead] at h
    split at h
    · rcases List.mem_cons.mp h with rfl | h
      · exact List.not_mem_nil
      · exact ih h
    next hd =>
      obtain ⟨head, rest, hpieces⟩ := List.exists_cons_of_ne_nil (List.splitOn_ne_nil c text)
      rw [hpieces] at h ih
      rcases List.mem_cons.mp h with rfl | h
      · intro hc
        rcases List.mem_cons.mp hc with rfl | hc
        · simp at hd
        · exact ih List.mem_cons_self hc
      · exact ih (List.mem_cons_of_mem _ h)

def joined (c : α) : List (List α) → List α
  | [] => []
  | [x] => x
  | x :: y :: rest => joined c (y :: rest) ++ c :: x

theorem joined_inj : ∀ {xs ys : List (List α)}, xs ≠ [] → ys ≠ [] → (∀ x ∈ xs, c ∉ x) →
    (∀ y ∈ ys, c ∉ y) → joined c xs = joined c ys → xs = ys
  | [], _, hx, _, _, _, _ => absurd rfl hx
  | _, [], _, hy, _, _, _ => absurd rfl hy
  | [x], [y], _, _, _, _, h => congrArg (fun z => [z]) h
  | [x], y :: y' :: ys, _, _, hx, _, h => by
    have hmem : c ∈ x := by
      rw [show x = joined c (y' :: ys) ++ c :: y from h]
      simp
    exact absurd hmem (hx x List.mem_cons_self)
  | x :: x' :: xs, [y], _, _, _, hy, h => by
    have hmem : c ∈ y := by
      rw [← show joined c (x' :: xs) ++ c :: x = y from h]
      simp
    exact absurd hmem (hy y List.mem_cons_self)
  | x :: x' :: xs, y :: y' :: ys, _, _, hx, hy, h => by
    obtain ⟨hrest, hxy⟩ := suffix_inj (hx x List.mem_cons_self) (hy y List.mem_cons_self) h
    have ih := joined_inj (List.cons_ne_nil x' xs) (List.cons_ne_nil y' ys)
      (fun z hz => hx z (List.mem_cons_of_mem _ hz)) (fun z hz => hy z (List.mem_cons_of_mem _ hz))
      hrest
    rw [hxy, ih]

theorem not_mem_joined {d : α} (hcd : d ≠ c) :
    ∀ {xs : List (List α)}, (∀ x ∈ xs, d ∉ x) → d ∉ joined c xs
  | [], _ => List.not_mem_nil
  | [x], hx => hx x List.mem_cons_self
  | x :: y :: rest, hx => by
    have ih := not_mem_joined hcd fun z hz => hx z (List.mem_cons_of_mem x hz)
    have hhead := hx x List.mem_cons_self
    simp only [joined, List.mem_append, List.mem_cons, not_or]
    exact ⟨ih, hcd, hhead⟩

theorem prefix_joined {p : List α} (hp : c ∉ p) : ∀ {xs : List (List α)} {x : List α},
    xs.getLast? = some x → (p <+: joined c xs ↔ p <+: x)
  | [], _, h => by cases h
  | [x], y, h => by
    obtain rfl : x = y := by simpa using h
    exact Iff.rfl
  | x :: x' :: rest, y, h => by
    have ih : p <+: joined c (x' :: rest) ↔ p <+: y := prefix_joined hp (by simpa using h)
    rw [← ih, joined]
    constructor
    · rintro ⟨t, ht⟩
      rcases List.append_eq_append_iff.mp ht with ⟨d, hd, -⟩ | ⟨d, hd, hrest⟩
      · exact ⟨d, hd.symm⟩
      · cases d with
        | nil => exact ⟨[], by simpa using hd⟩
        | cons e d =>
          have hmem : c ∈ p := by
            rw [hd, (List.cons.inj hrest).1]
            simp
          exact absurd hmem hp
    · exact fun hprefix => hprefix.trans (List.prefix_append _ _)

theorem append_cons_cases {x x' y y' : List α} (h : x ++ c :: y = x' ++ c :: y') :
    x = x' ∧ y = y' ∨ (∃ t, x' = x ++ c :: t ∧ y = t ++ c :: y') ∨ ∃ t, x = x' ++ c :: t ∧ y' = t ++ c :: y := by
  rcases List.append_eq_append_iff.mp h with ⟨a, rfl, ha⟩ | ⟨a, rfl, ha⟩
  · cases a with
    | nil => exact .inl ⟨(List.append_nil x).symm, (List.cons.inj ha).2⟩
    | cons d a =>
      obtain ⟨rfl, rfl⟩ := List.cons.inj ha
      exact .inr (.inl ⟨a, rfl, rfl⟩)
  · cases a with
    | nil => exact .inl ⟨List.append_nil x', (List.cons.inj ha).2.symm⟩
    | cons d a =>
      obtain ⟨rfl, rfl⟩ := List.cons.inj ha
      exact .inr (.inr ⟨a, rfl, rfl⟩)

theorem cut_cases {a x b y : List α} (hy : c ∉ y) (h : a ++ c :: x = b ++ c :: y) :
    a = b ∧ x = y ∨ ∃ t, b = a ++ c :: t ∧ x = t ++ c :: y := by
  rcases append_cons_cases h with heq | hcut | ⟨t, -, rfl⟩
  · exact .inl heq
  · exact .inr hcut
  · exact absurd (List.mem_append_right t List.mem_cons_self) hy

theorem append_inj_of_head {x x' y y' : List α} (hx : c ∉ x) (hx' : c ∉ x') (hy : ∀ d ∈ y.head?, d = c)
    (hy' : ∀ d ∈ y'.head?, d = c) (h : x ++ y = x' ++ y') : x = x' ∧ y = y' := by
  rcases List.append_eq_append_iff.mp h with ⟨a, rfl, rfl⟩ | ⟨a, rfl, rfl⟩
  · cases a with
    | nil => exact ⟨(List.append_nil x).symm, rfl⟩
    | cons d a =>
      obtain rfl := hy d rfl
      exact absurd (List.mem_append_right x List.mem_cons_self) hx'
  · cases a with
    | nil => exact ⟨List.append_nil x', rfl⟩
    | cons d a =>
      obtain rfl := hy' d rfl
      exact absurd (List.mem_append_right x' List.mem_cons_self) hx

theorem splitOn_cons_self [BEq α] [LawfulBEq α] (c : α) (text : List α) :
    (c :: text).splitOn c = [] :: text.splitOn c := by
  simp [List.splitOn_cons_eq_if_modifyHead]

theorem splitOn_cons_ne [BEq α] [LawfulBEq α] {d : α} (h : d ≠ c) (text : List α) :
    ∃ head rest, text.splitOn c = head :: rest ∧ (d :: text).splitOn c = (d :: head) :: rest := by
  obtain ⟨head, rest, hpieces⟩ := List.exists_cons_of_ne_nil (List.splitOn_ne_nil c text)
  refine ⟨head, rest, hpieces, ?_⟩
  simp [List.splitOn_cons_eq_if_modifyHead, h, hpieces]

theorem suffix_iff_drop_splitOn [BEq α] [LawfulBEq α] {s text : List α} :
    (c :: s) <:+ text ↔ ∃ i, 0 < i ∧ i < (text.splitOn c).length ∧
      List.intercalate [c] ((text.splitOn c).drop i) = s := by
  induction text with
  | nil =>
    simp only [List.suffix_nil, reduceCtorEq, List.splitOn_nil, List.length_singleton, false_iff]
    rintro ⟨i, hpos, hlt, -⟩
    omega
  | cons d text ih =>
    rw [List.suffix_cons_iff, ih]
    by_cases hd : d = c
    · subst hd
      rw [splitOn_cons_self]
      constructor
      · rintro (heq | ⟨i, hpos, hlt, hjoin⟩)
        · refine ⟨1, Nat.one_pos, ?_, ?_⟩
          · simpa using List.length_pos_of_ne_nil (List.splitOn_ne_nil d text)
          · rw [List.drop_one, List.tail_cons, List.intercalate_splitOn]
            exact (List.cons_eq_cons.mp heq).2.symm
        · exact ⟨i + 1, Nat.succ_pos i, by simpa using hlt, hjoin⟩
      · rintro ⟨i, hpos, hlt, hjoin⟩
        obtain ⟨j, rfl⟩ := Nat.exists_eq_succ_of_ne_zero hpos.ne'
        cases j with
        | zero =>
          left
          rw [← hjoin]
          simp [List.intercalate_splitOn]
        | succ j => exact .inr ⟨j + 1, Nat.succ_pos j, by simpa using hlt, hjoin⟩
    · obtain ⟨head, rest, hpieces, hcons⟩ := splitOn_cons_ne hd text
      rw [hpieces, hcons]
      have hne : ¬ c :: s = d :: text := fun heq => hd (List.cons_eq_cons.mp heq).1.symm
      simp only [hne, false_or, List.length_cons]
      refine exists_congr fun i => and_congr_right fun hpos => and_congr_right fun hlt => ?_
      obtain ⟨j, rfl⟩ := Nat.exists_eq_succ_of_ne_zero hpos.ne'
      rfl

theorem any_tails_iff [BEq α] [LawfulBEq α] (sub text : List α) :
    text.tails.any sub.isPrefixOf = true ↔ sub <:+: text := by
  rw [List.any_eq_true, List.infix_iff_prefix_suffix]
  constructor
  · rintro ⟨t, ht, hprefix⟩
    exact ⟨t, List.isPrefixOf_iff_prefix.mp hprefix, (List.mem_tails t text).mp ht⟩
  · rintro ⟨t, hprefix, ht⟩
    exact ⟨t, (List.mem_tails t text).mpr ht, List.isPrefixOf_iff_prefix.mpr hprefix⟩

theorem numbered_injective (before after : List Char) :
    Function.Injective fun i : ℕ => before ++ (Nat.toDigits 10 i ++ after) := by
  intro i j h
  have hdigits := List.append_cancel_right (List.append_cancel_left h)
  rw [← Nat.ofDigitChars_ten_toDigits (n := i), hdigits, Nat.ofDigitChars_ten_toDigits]

end Separators

/-! ## Trimmed lists

A list without the items at its two ends that satisfy a predicate, and what of it survives when such items are
put around it.
-/
namespace Trimming

variable {α : Type} (p : α → Bool)

def trim (l : List α) : List α := (l.dropWhile p).rdropWhile p

variable {p}

theorem trim_append_left {u : List α} (hu : ∀ c ∈ u, p c = true) (v : List α) : trim p (u ++ v) = trim p v := by
  rw [trim, List.dropWhile_append_of_pos hu, ← trim]

theorem rdropWhile_append {w : List α} (hw : ∀ c ∈ w, p c = true) (v : List α) :
    (v ++ w).rdropWhile p = v.rdropWhile p := by
  rw [List.rdropWhile, List.reverse_append, List.dropWhile_append_of_pos fun c hc => hw c (List.mem_reverse.mp hc),
    ← List.rdropWhile]

theorem trim_append_right {w : List α} (hw : ∀ c ∈ w, p c = true) (v : List α) : trim p (v ++ w) = trim p v := by
  rw [trim, List.dropWhile_append]
  split
  next h =>
    have hnil : w.dropWhile p = [] := List.dropWhile_eq_nil_iff.mpr hw
    rw [hnil, trim, List.isEmpty_iff.mp h]
  next h => rw [rdropWhile_append hw, ← trim]

theorem trim_eq_nil {l : List α} : trim p l = [] ↔ ∀ c ∈ l, p c = true := by
  rw [trim, List.rdropWhile_eq_nil_iff]
  constructor
  · intro h
    have hnil : l.dropWhile p = [] := by
      by_contra hne
      have hhead := List.head_dropWhile_not p hne
      rw [h _ (List.head_mem hne)] at hhead
      cases hhead
    exact List.dropWhile_eq_nil_iff.mp hnil
  · intro h c hc
    exact h c ((List.dropWhile_sublist p).subset hc)

theorem exists_trim (l : List α) :
    ∃ u w, l = u ++ trim p l ++ w ∧ (∀ c ∈ u, p c = true) ∧ ∀ c ∈ w, p c = true := by
  refine ⟨l.takeWhile p, (l.dropWhile p).rtakeWhile p, ?_, fun c => List.mem_takeWhile_imp,
    fun c => List.mem_rtakeWhile_imp⟩
  rw [trim, List.append_assoc, List.rdropWhile_append_rtakeWhile, List.takeWhile_append_dropWhile]

theorem head_trim {l : List α} {c : α} {cs : List α} (h : trim p l = c :: cs) : p c = false := by
  have hpre : trim p l <+: l.dropWhile p := List.rdropWhile_prefix p _
  rw [h] at hpre
  obtain ⟨rest, hrest⟩ := hpre
  have hne : l.dropWhile p ≠ [] := by
    rw [← hrest]
    exact List.cons_ne_nil _ _
  have hhead := List.head_dropWhile_not p hne
  have hc : (l.dropWhile p).head hne = c := by simp [← hrest]
  rw [hc] at hhead
  exact hhead

theorem getLast_trim {l : List α} (h : trim p l ≠ []) : p ((trim p l).getLast h) = false :=
  Bool.eq_false_iff.mpr (List.rdropWhile_last_not p (l.dropWhile p) h)

theorem trim_of_ends {l : List α} (hhead : ∀ c ∈ l.head?, p c = false) (hlast : ∀ c ∈ l.getLast?, p c = false) :
    trim p l = l := by
  cases l with
  | nil => rfl
  | cons c cs =>
    have hc := hhead c rfl
    rw [trim, List.dropWhile_cons_of_neg (Bool.eq_false_iff.mp hc), List.rdropWhile_eq_self_iff]
    intro hne
    exact Bool.eq_false_iff.mp (hlast _ (List.getLast?_eq_some_getLast hne))

theorem countP_trim (l : List α) : (trim p l).countP (!p ·) = l.countP (!p ·) := by
  obtain ⟨u, w, hl, hu, hw⟩ := exists_trim (p := p) l
  have hzero : ∀ v : List α, (∀ c ∈ v, p c = true) → v.countP (!p ·) = 0 := fun v hv =>
    List.countP_eq_zero.mpr fun c hc => by simp [hv c hc]
  have hcount := congrArg (List.countP (!p ·)) hl
  rw [List.countP_append, List.countP_append, hzero u hu, hzero w hw] at hcount
  rw [hcount]
  exact (Nat.zero_add _).symm

end Trimming
