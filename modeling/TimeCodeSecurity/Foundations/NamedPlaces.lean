import Mathlib.Data.List.Basic
import Mathlib.Logic.Nontrivial.Basic

/-! # Places given by name

A text with places is written down with a name at every place, and the names are looked for from the left to get the
places back. The text comes back just where no name is seen that was not put there.
-/
namespace TimeCodeSecurity.NamedPlaces
set_option autoImplicit false

variable {γ δ ε : Type}

/-- The text in front of the first name, and the names and texts behind it in turn, past `skip` symbols. -/
def cut (nameAt : List γ → Option (List γ)) : ℕ → List γ → List γ × List (List γ)
  | _, [] => ([], [])
  | skip + 1, _ :: t => cut nameAt skip t
  | 0, c :: t =>
    match nameAt (c :: t) with
    | none => (c :: (cut nameAt 0 t).1, (cut nameAt 0 t).2)
    | some name =>
      ([], name :: (cut nameAt (name.length - 1) t).1 :: (cut nameAt (name.length - 1) t).2)

def pieces (nameAt : List γ → Option (List γ)) (skip : ℕ) (t : List γ) : List (List γ) :=
  (cut nameAt skip t).1 :: (cut nameAt skip t).2

def readPiece (meaning : List γ → Option ε) (piece : List γ) : List (γ ⊕ ε) :=
  match meaning piece with
  | some e => [.inr e]
  | none => piece.map .inl

def read (nameAt : List γ → Option (List γ)) (meaning : List γ → Option ε) (skip : ℕ) (t : List γ) : List (γ ⊕ ε) :=
  (pieces nameAt skip t).flatMap (readPiece meaning)

structure Naming (nameAt : List γ → Option (List γ)) (meaning : List γ → Option ε) : Prop where
  isPrefix : ∀ {t name}, nameAt t = some name → name <+: t ∧ name ≠ []
  isSeen : ∀ {name e}, meaning name = some e → ∀ t, nameAt (name ++ t) = some name

variable {nameAt : List γ → Option (List γ)} {meaning : List γ → Option ε}

theorem cut_skip (skip : ℕ) (t : List γ) : cut nameAt skip t = cut nameAt 0 (t.drop skip) := by
  induction t generalizing skip with
  | nil => cases skip <;> simp [cut]
  | cons c t ih =>
    cases skip with
    | zero => rfl
    | succ skip => rw [cut, ih, List.drop_succ_cons]

theorem read_skip (skip : ℕ) (t : List γ) :
    read nameAt meaning skip t = read nameAt meaning 0 (t.drop skip) := by
  unfold read pieces
  rw [cut_skip]

theorem prefix_cut (t : List γ) : (cut nameAt 0 t).1 <+: t := by
  induction t with
  | nil => exact List.prefix_refl []
  | cons c t ih =>
    unfold cut
    split
    · exact (List.prefix_cons_inj c).mpr ih
    · exact List.nil_prefix

namespace Naming

theorem meaning_nil (N : Naming nameAt meaning) : meaning [] = none := by
  cases h : meaning [] with
  | none => rfl
  | some e =>
    have hname := N.isSeen h []
    exact absurd rfl (N.isPrefix hname).2

theorem meaning_cut (N : Naming nameAt meaning) (t : List γ) : meaning (cut nameAt 0 t).1 = none := by
  cases h : meaning (cut nameAt 0 t).1 with
  | none => rfl
  | some e =>
    obtain ⟨rest, hrest⟩ := prefix_cut t
    have hname := N.isSeen h rest
    rw [hrest] at hname
    cases t with
    | nil => exact absurd (N.isPrefix hname).1 (by simp [(N.isPrefix hname).2])
    | cons c t =>
      have hcut : (cut nameAt 0 (c :: t)).1 = [] := by rw [cut, hname]
      rw [hcut, N.meaning_nil] at h
      cases h

theorem read_of_none (N : Naming nameAt meaning) {c : γ} {t : List γ} (h : nameAt (c :: t) = none) :
    read nameAt meaning 0 (c :: t) = .inl c :: read nameAt meaning 0 t := by
  have hcut : cut nameAt 0 (c :: t) = (c :: (cut nameAt 0 t).1, (cut nameAt 0 t).2) := by rw [cut, h]
  have hhead := N.meaning_cut (c :: t)
  rw [hcut] at hhead
  unfold read pieces
  rw [hcut, List.flatMap_cons, List.flatMap_cons, readPiece, hhead, readPiece, N.meaning_cut t]
  rfl

theorem read_of_name (N : Naming nameAt meaning) {c : γ} {t name : List γ} (h : nameAt (c :: t) = some name) :
    read nameAt meaning 0 (c :: t) = readPiece meaning name ++ read nameAt meaning (name.length - 1) t := by
  have hcut : cut nameAt 0 (c :: t) = ([], name :: pieces nameAt (name.length - 1) t) := by
    rw [cut, h]
    rfl
  have hnil : readPiece meaning [] = [] := by rw [readPiece, N.meaning_nil, List.map_nil]
  unfold read
  rw [pieces, hcut, List.flatMap_cons, hnil, List.nil_append, List.flatMap_cons]

theorem read_nil (N : Naming nameAt meaning) : read nameAt meaning 0 [] = [] := by
  show readPiece meaning [] ++ [] = []
  rw [readPiece, N.meaning_nil]
  rfl

theorem read_append_of_meaning (N : Naming nameAt meaning) {s : List γ} {e : ε} (h : meaning s = some e)
    (t : List γ) : read nameAt meaning 0 (s ++ t) = .inr e :: read nameAt meaning 0 t := by
  have hseen := N.isSeen h t
  obtain ⟨c, s, rfl⟩ := List.exists_cons_of_ne_nil (N.isPrefix hseen).2
  rw [List.cons_append] at hseen ⊢
  rw [N.read_of_name hseen, readPiece, h, read_skip, List.length_cons, Nat.add_sub_cancel, List.drop_left]
  rfl

theorem read_of_meaning (N : Naming nameAt meaning) {t : List γ} {e : ε} (h : meaning t = some e) :
    read nameAt meaning 0 t = [.inr e] := by
  have hread := N.read_append_of_meaning h []
  rw [List.append_nil, N.read_nil] at hread
  exact hread

theorem flatten_pieces (N : Naming nameAt meaning) (skip : ℕ) (t : List γ) :
    (pieces nameAt skip t).flatten = t.drop skip := by
  induction t generalizing skip with
  | nil => simp [pieces, cut]
  | cons c t ih =>
    unfold pieces at ih ⊢
    cases skip with
    | succ skip =>
      rw [cut, List.drop_succ_cons]
      exact ih skip
    | zero =>
      rw [cut]
      cases hseen : nameAt (c :: t) with
      | none => exact congrArg (c :: ·) (ih 0)
      | some seen =>
        obtain ⟨⟨rest, hrest⟩, hne⟩ := N.isPrefix hseen
        obtain ⟨d, seen, rfl⟩ := List.exists_cons_of_ne_nil hne
        obtain ⟨rfl, rfl⟩ := List.cons.inj (List.cons_append ▸ hrest)
        have hdrop := ih seen.length
        rw [List.drop_left] at hdrop
        show [] ++ ((d :: seen) ++ List.flatten (_ :: _)) = _
        rw [List.length_cons, Nat.add_sub_cancel, hdrop]
        rfl

end Naming

/-! ## Texts with places -/

def spotText (name : δ → List γ) : γ ⊕ δ → List γ := Sum.elim (fun c => [c]) name

def spelled (name : δ → List γ) (w : List (γ ⊕ δ)) : List γ := w.flatMap (spotText name)

def placed (shown : δ → ε) : List (γ ⊕ δ) → List (γ ⊕ ε) := List.map (Sum.map id shown)

def Legible (nameAt : List γ → Option (List γ)) (meaning : List γ → Option ε) (name : δ → List γ) :
    ℕ → List (γ ⊕ δ) → Prop
  | _, [] => True
  | skip + 1, .inl _ :: w => Legible nameAt meaning name skip w
  | _ + 1, .inr _ :: _ => False
  | 0, .inr _ :: w => Legible nameAt meaning name 0 w
  | 0, .inl c :: w =>
    match nameAt (c :: spelled name w) with
    | none => Legible nameAt meaning name 0 w
    | some seen => meaning seen = none ∧ Legible nameAt meaning name (seen.length - 1) w

variable {name : δ → List γ}

theorem read_iff (N : Naming nameAt meaning) (shown : δ → ε) {w : List (γ ⊕ δ)}
    (hgiven : ∀ d, .inr d ∈ w → (meaning (name d)).isSome) {skip : ℕ} (hskip : skip ≤ (spelled name w).length) :
    ((spelled name w).take skip).map .inl ++ read nameAt meaning skip (spelled name w) = placed shown w ↔
      Legible nameAt meaning name skip w ∧ ∀ d, .inr d ∈ w → meaning (name d) = some (shown d) := by
  induction w generalizing skip with
  | nil =>
    obtain rfl : skip = 0 := Nat.le_zero.mp hskip
    have hread : read nameAt meaning 0 (spelled name ([] : List (γ ⊕ δ))) = [] := N.read_nil
    rw [hread]
    simp [placed, Legible, spelled]
  | cons spot w ih =>
    have ih := fun {k} (hk : k ≤ (spelled name w).length) =>
      ih (fun d hd => hgiven d (List.mem_cons_of_mem _ hd)) hk
    cases spot with
    | inl c =>
      have hline : spelled name (.inl c :: w) = c :: spelled name w := rfl
      have hplaced : placed shown (.inl c :: w) = .inl c :: placed shown w := rfl
      have hplaces : (∀ d, .inr d ∈ (.inl c :: w : List (γ ⊕ δ)) → meaning (name d) = some (shown d)) ↔
          ∀ d, .inr d ∈ w → meaning (name d) = some (shown d) := by simp
      rw [hplaces, hline, hplaced]
      cases skip with
      | succ skip =>
        have hskip' : skip ≤ (spelled name w).length := Nat.le_of_succ_le_succ hskip
        have hread : read nameAt meaning (skip + 1) (c :: spelled name w) =
            read nameAt meaning skip (spelled name w) := by
          rw [read_skip, List.drop_succ_cons, ← read_skip]
        rw [hread, List.take_succ_cons, List.map_cons, List.cons_append, List.cons_inj_right, ih hskip']
        rfl
      | zero =>
        rw [List.take_zero, List.map_nil, List.nil_append]
        unfold Legible
        cases hseen : nameAt (c :: spelled name w) with
        | none =>
          have ih0 := ih (Nat.zero_le (spelled name w).length)
          rw [List.take_zero, List.map_nil, List.nil_append] at ih0
          rw [N.read_of_none hseen, List.cons_inj_right, ih0]
        | some seen =>
          obtain ⟨⟨rest, hrest⟩, hne⟩ := N.isPrefix hseen
          obtain ⟨d, seen, rfl⟩ := List.exists_cons_of_ne_nil hne
          obtain ⟨rfl, htail⟩ := List.cons.inj (List.cons_append ▸ hrest)
          have htake : (spelled name w).take seen.length = seen := by rw [← htail, List.take_left]
          have hlen : seen.length ≤ (spelled name w).length := by
            rw [← htail, List.length_append]
            exact Nat.le_add_right _ _
          rw [N.read_of_name hseen, List.length_cons, Nat.add_sub_cancel]
          cases hmeaning : meaning (d :: seen) with
          | some e => simp [readPiece, hmeaning]
          | none =>
            have ihseen := ih hlen
            rw [htake] at ihseen
            rw [readPiece, hmeaning, List.map_cons, List.cons_append, List.cons_inj_right, ihseen]
            simp [hmeaning]
    | inr d =>
      have hline : spelled name (.inr d :: w) = name d ++ spelled name w := rfl
      have hplaced : placed shown (.inr d :: w) = (.inr (shown d) :: placed shown w : List (γ ⊕ ε)) := rfl
      obtain ⟨e, he⟩ := Option.isSome_iff_exists.mp (hgiven d List.mem_cons_self)
      rw [hline, hplaced]
      cases skip with
      | succ skip =>
        obtain ⟨c, tail, htail⟩ := List.exists_cons_of_ne_nil (N.isPrefix (N.isSeen he [])).2
        simp [Legible, htail]
      | zero =>
        have ih0 := ih (Nat.zero_le (spelled name w).length)
        rw [List.take_zero, List.map_nil, List.nil_append] at ih0
        rw [List.take_zero, List.map_nil, List.nil_append, N.read_append_of_meaning he, List.cons.injEq, ih0]
        simp only [Legible, List.mem_cons]
        constructor
        · rintro ⟨heq, hlegible, hplaces⟩
          refine ⟨hlegible, fun d' h => ?_⟩
          obtain h | h := h
          · obtain rfl := Sum.inr.inj h
            rw [he, Sum.inr.inj heq]
          · exact hplaces d' h
        · rintro ⟨hlegible, hplaces⟩
          have hmeaning := hplaces d (.inl rfl)
          rw [he] at hmeaning
          exact ⟨by rw [Option.some.inj hmeaning], hlegible, fun d' h => hplaces d' (.inr h)⟩

def filled (shown : ε → List γ) (t : List (γ ⊕ ε)) : List γ := t.flatMap (Sum.elim (fun c => [c]) shown)

theorem filled_placed (shown : δ → ε) (f : ε → List γ) (w : List (γ ⊕ δ)) :
    filled f (placed shown w) = filled (fun d => f (shown d)) w := by
  unfold filled placed
  rw [List.flatMap_map]
  congr 1
  funext spot
  cases spot <;> rfl

theorem eq_of_filled [Nontrivial γ] {t u : List (γ ⊕ ε)} (h : ∀ shown, filled shown t = filled shown u) : t = u := by
  classical
  obtain ⟨x, y, hxy⟩ := exists_pair_ne γ
  induction t generalizing u with
  | nil =>
    cases u with
    | nil => rfl
    | cons b u =>
      have h' := h fun _ => [x]
      cases b <;> cases h'
  | cons a t ih =>
    cases u with
    | nil =>
      have h' := h fun _ => [x]
      cases a <;> cases h'
    | cons b u =>
      have hhead : a = b := by
        cases a with
        | inl c =>
          cases b with
          | inl d =>
            have h' := h fun _ => []
            exact congrArg Sum.inl (List.cons.inj h').1
          | inr e =>
            -- some symbol is another than `c`
            obtain ⟨d, hd⟩ := exists_ne c
            have h' := h fun _ => [d]
            exact absurd (List.cons.inj h').1.symm hd
        | inr e =>
          cases b with
          | inl d =>
            obtain ⟨c, hc⟩ := exists_ne d
            have h' := h fun _ => [c]
            exact absurd (List.cons.inj h').1 hc
          | inr e' =>
            by_contra hne
            have hee : e' ≠ e := fun heq => hne (congrArg Sum.inr heq.symm)
            have h' := h fun e'' => if e'' = e then [x] else [y]
            simp [filled, hee, hxy] at h'
      subst hhead
      congr 1
      apply ih
      intro shown
      have h' := h shown
      unfold filled at h' ⊢
      rw [List.flatMap_cons, List.flatMap_cons] at h'
      exact List.append_cancel_left h'

end TimeCodeSecurity.NamedPlaces
