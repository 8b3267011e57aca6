import Mathlib.Data.Fintype.Fin

/-! # Sorting by a key that ties

Items are sorted by a key, ties in the order they came in. What is read off the sorted list does not depend on that
order exactly when it does not change where two tied neighbours change places. With one item kept for each key
(`merge`) there are no ties, and nothing is lost exactly when the key tells the items apart.
-/
namespace TimeCodeSecurity.KeyedSort
set_option autoImplicit false

variable {α κ γ : Type} [LinearOrder κ] (key : α → κ)

def put (x : α) (xs : List α) : List α := xs.orderedInsert (fun a b => key a ≤ key b) x

def sort (xs : List α) : List α := xs.insertionSort fun a b => key a ≤ key b

/-- The neighbours `x` and `y` have changed places. -/
def Swapped (x y : α) (l l' : List α) : Prop :=
  ∃ before after, l = before ++ x :: y :: after ∧ l' = before ++ y :: x :: after

variable {key}

theorem sort_cons (x : α) (xs : List α) : sort key (x :: xs) = put key x (sort key xs) := rfl

theorem put_cons_of_le {z a : α} (h : key z ≤ key a) (l : List α) : put key z (a :: l) = z :: a :: l :=
  List.orderedInsert_cons_of_le _ _ h

theorem put_cons_of_not_le {z a : α} (h : ¬ key z ≤ key a) (l : List α) : put key z (a :: l) = a :: put key z l :=
  List.orderedInsert_of_not_le _ _ h

theorem perm_sort (xs : List α) : (sort key xs).Perm xs := List.perm_insertionSort _ xs

variable (key) in
theorem exists_sort_eq_cons {xs : List α} (h : xs ≠ []) :
    ∃ a rest, sort key xs = a :: rest ∧ a ∈ xs ∧ ∀ b ∈ xs, key a ≤ key b := by
  induction xs with
  | nil => exact absurd rfl h
  | cons x xs ih =>
    cases xs with
    | nil => exact ⟨x, [], rfl, List.mem_cons_self, by simp⟩
    | cons y ys =>
      obtain ⟨a, rest, hsort, hmem, hleast⟩ := ih (List.cons_ne_nil y ys)
      rw [sort_cons, hsort]
      by_cases hx : key x ≤ key a
      · refine ⟨x, a :: rest, put_cons_of_le hx rest, List.mem_cons_self, fun b hb => ?_⟩
        rcases List.mem_cons.mp hb with rfl | hb
        · exact le_refl _
        · exact hx.trans (hleast b hb)
      · refine ⟨a, put key x rest, put_cons_of_not_le hx rest, List.mem_cons_of_mem _ hmem, fun b hb => ?_⟩
        rcases List.mem_cons.mp hb with rfl | hb
        · exact le_of_not_ge hx
        · exact hleast b hb

theorem sort_cons_of_least {a : α} {xs : List α} (h : ∀ b ∈ xs, key a ≤ key b) :
    sort key (a :: xs) = a :: sort key xs := List.insertionSort_cons_of_forall_rel _ h

theorem pairwise_sort (xs : List α) : (sort key xs).Pairwise fun a b => key a ≤ key b := by
  induction xs with
  | nil => exact List.Pairwise.nil
  | cons x xs ih =>
    rw [sort_cons]
    generalize sort key xs = l at ih
    induction l with
    | nil => exact List.pairwise_singleton _ x
    | cons a l ihl =>
      obtain ⟨hhead, htail⟩ := List.pairwise_cons.mp ih
      by_cases hx : key x ≤ key a
      · rw [put_cons_of_le hx]
        exact List.pairwise_cons.mpr ⟨fun b hb => by
          rcases List.mem_cons.mp hb with rfl | hb
          · exact hx
          · exact hx.trans (hhead b hb), ih⟩
      · rw [put_cons_of_not_le hx]
        refine List.pairwise_cons.mpr ⟨fun b hb => ?_, ihl htail⟩
        rcases List.mem_cons.mp ((List.perm_orderedInsert _ x l).mem_iff.mp hb) with rfl | hb
        · exact le_of_not_ge hx
        · exact hhead b hb

/-! ## One item for each key -/

variable (key) in
/-- The first item of each key that is not in `seen`. -/
def firsts : List κ → List α → List α
  | _, [] => []
  | seen, x :: xs => if key x ∈ seen then firsts seen xs else x :: firsts (key x :: seen) xs

variable (key) in
def merge (xs : List α) : List α := sort key (firsts key [] xs)

theorem mem_of_mem_firsts {a : α} : ∀ {xs : List α} {seen : List κ}, a ∈ firsts key seen xs → a ∈ xs
  | x :: xs, seen, h => by
    rw [firsts] at h
    split at h
    · exact List.mem_cons_of_mem _ (mem_of_mem_firsts h)
    · rcases List.mem_cons.mp h with rfl | h
      · exact List.mem_cons_self
      · exact List.mem_cons_of_mem _ (mem_of_mem_firsts h)

variable (key) in
theorem firsts_spec : ∀ (xs : List α) (seen : List κ),
    (firsts key seen xs).Pairwise (fun a b => key a ≠ key b) ∧
      (∀ a ∈ firsts key seen xs, key a ∉ seen) ∧
      ∀ a ∈ xs, key a ∈ seen ∨ ∃ b ∈ firsts key seen xs, key b = key a
  | [], _ => ⟨List.Pairwise.nil, by simp [firsts], by simp⟩
  | x :: xs, seen => by
    rw [firsts]
    by_cases hx : key x ∈ seen
    · rw [if_pos hx]
      obtain ⟨hpair, hnew, hcover⟩ := firsts_spec xs seen
      refine ⟨hpair, hnew, fun a ha => ?_⟩
      rcases List.mem_cons.mp ha with rfl | ha
      · exact .inl hx
      · exact hcover a ha
    · rw [if_neg hx]
      obtain ⟨hpair, hnew, hcover⟩ := firsts_spec xs (key x :: seen)
      refine ⟨List.pairwise_cons.mpr ⟨fun b hb heq => hnew b hb ?_, hpair⟩, fun a ha => ?_, fun a ha => ?_⟩
      · exact heq ▸ List.mem_cons_self
      · rcases List.mem_cons.mp ha with rfl | ha
        · exact hx
        · exact fun hseen => hnew a ha (List.mem_cons_of_mem _ hseen)
      · by_cases heq : key x = key a
        · exact .inr ⟨x, List.mem_cons_self, heq⟩
        · have hrest := (List.mem_cons.mp ha).resolve_left fun h => heq (congrArg key h.symm)
          rcases hcover a hrest with hseen | ⟨b, hb, hba⟩
          · exact .inl ((List.mem_cons.mp hseen).resolve_left (Ne.symm heq))
          · exact .inr ⟨b, List.mem_cons_of_mem _ hb, hba⟩

theorem mem_of_mem_merge {a : α} {xs : List α} (h : a ∈ merge key xs) : a ∈ xs :=
  mem_of_mem_firsts ((perm_sort _).mem_iff.mp h)

variable (key) in
theorem exists_mem_merge {a : α} {xs : List α} (h : a ∈ xs) : ∃ b ∈ merge key xs, key b = key a := by
  obtain ⟨-, -, hcover⟩ := firsts_spec key xs []
  obtain ⟨b, hb, hba⟩ := (hcover a h).resolve_left List.not_mem_nil
  exact ⟨b, (perm_sort _).mem_iff.mpr hb, hba⟩

variable (key) in
theorem merge_ascending (xs : List α) : (merge key xs).Pairwise fun a b => key a < key b := by
  obtain ⟨hne, -, -⟩ := firsts_spec key xs []
  have hne' : (merge key xs).Pairwise fun a b => key a ≠ key b :=
    (perm_sort _).symm.pairwise hne fun h => h.symm
  exact (pairwise_sort _).imp₂ (fun a b hle hlt => lt_of_le_of_ne hle hlt) hne'

theorem ascending_ext {l l' : List α} (h : l.Pairwise fun a b => key a < key b)
    (h' : l'.Pairwise fun a b => key a < key b) (hmem : ∀ a, a ∈ l ↔ a ∈ l') : l = l' := by
  have hne : ∀ {l : List α}, l.Pairwise (fun a b => key a < key b) → l.Nodup := fun hl =>
    hl.imp fun hlt heq => absurd (congrArg key heq) hlt.ne
  have hperm : l.Perm l' := (List.perm_ext_iff_of_nodup (hne h) (hne h')).mpr hmem
  exact hperm.eq_of_pairwise (fun a b _ _ hab hba => absurd hab hba.asymm) h h'

theorem eq_of_mem_merge {a b : α} {xs : List α} (ha : a ∈ merge key xs) (hb : b ∈ merge key xs)
    (hkey : key a = key b) : a = b := by
  have hnodup : ((merge key xs).map key).Nodup :=
    List.pairwise_map.mpr ((merge_ascending key xs).imp fun h => h.ne)
  exact List.inj_on_of_nodup_map hnodup ha hb hkey

theorem mem_merge_iff {xs : List α} (h : ∀ a ∈ xs, ∀ b ∈ xs, key a = key b → a = b) {a : α} :
    a ∈ merge key xs ↔ a ∈ xs := by
  refine ⟨mem_of_mem_merge, fun ha => ?_⟩
  obtain ⟨b, hb, hba⟩ := exists_mem_merge key ha
  rw [← h b (mem_of_mem_merge hb) a ha hba]
  exact hb

theorem Swapped.cons {x y : α} {l l' : List α} (h : Swapped x y l l') (a : α) : Swapped x y (a :: l) (a :: l') := by
  obtain ⟨before, after, rfl, rfl⟩ := h
  exact ⟨a :: before, after, rfl, rfl⟩

theorem Swapped.put {x y : α} {l l' : List α} (hkey : key x = key y) (h : Swapped x y l l') (z : α) :
    Swapped x y (put key z l) (put key z l') := by
  obtain ⟨before, after, rfl, rfl⟩ := h
  induction before with
  | nil =>
    rw [List.nil_append, List.nil_append]
    by_cases hz : key z ≤ key x
    · rw [put_cons_of_le hz, put_cons_of_le (hkey ▸ hz)]
      exact ⟨[z], after, rfl, rfl⟩
    · have hz' : ¬ key z ≤ key y := hkey ▸ hz
      rw [put_cons_of_not_le hz, put_cons_of_not_le hz', put_cons_of_not_le hz', put_cons_of_not_le hz]
      exact ⟨[], KeyedSort.put key z after, rfl, rfl⟩
  | cons a before ih =>
    rw [List.cons_append, List.cons_append]
    by_cases hz : key z ≤ key a
    · rw [put_cons_of_le hz, put_cons_of_le hz]
      exact ⟨z :: a :: before, after, rfl, rfl⟩
    · rw [put_cons_of_not_le hz, put_cons_of_not_le hz]
      exact ih.cons a

theorem put_put_of_tie {x y : α} (h : key x = key y) (l : List α) :
    Swapped x y (put key x (put key y l)) (put key y (put key x l)) := by
  induction l with
  | nil =>
    have hleft : put key x [y] = [x, y] := put_cons_of_le (le_of_eq h) []
    have hright : put key y [x] = [y, x] := put_cons_of_le (ge_of_eq h) []
    exact ⟨[], [], hleft, hright⟩
  | cons a l ih =>
    by_cases hy : key y ≤ key a
    · have hx : key x ≤ key a := h ▸ hy
      rw [put_cons_of_le hy, put_cons_of_le hx, put_cons_of_le (le_of_eq h), put_cons_of_le (ge_of_eq h)]
      exact ⟨[], a :: l, rfl, rfl⟩
    · have hx : ¬ key x ≤ key a := h ▸ hy
      rw [put_cons_of_not_le hy, put_cons_of_not_le hx, put_cons_of_not_le hx, put_cons_of_not_le hy]
      exact ih.cons a

theorem put_put_of_lt {x y : α} (h : key x < key y) (l : List α) :
    put key x (put key y l) = put key y (put key x l) := by
  have hnot : ¬ key y ≤ key x := not_le_of_gt h
  induction l with
  | nil =>
    have hleft : put key x [y] = [x, y] := put_cons_of_le (le_of_lt h) []
    have hright : put key y [x] = [x, y] := put_cons_of_not_le hnot []
    exact hleft.trans hright.symm
  | cons a l ih =>
    by_cases hx : key x ≤ key a
    · rw [put_cons_of_le hx, put_cons_of_not_le hnot]
      by_cases hy : key y ≤ key a
      · rw [put_cons_of_le hy, put_cons_of_le (le_of_lt h)]
      · rw [put_cons_of_not_le hy, put_cons_of_le hx]
    · have hy : ¬ key y ≤ key a := fun hle => hx (le_of_lt (lt_of_lt_of_le h hle))
      rw [put_cons_of_not_le hx, put_cons_of_not_le hy, put_cons_of_not_le hx, put_cons_of_not_le hy, ih]

theorem put_put_of_ne {x y : α} (h : key x ≠ key y) (l : List α) :
    put key x (put key y l) = put key y (put key x l) := by
  rcases lt_or_gt_of_ne h with hlt | hgt
  · exact put_put_of_lt hlt l
  · exact (put_put_of_lt hgt l).symm

theorem sort_append (xs ys : List α) : sort key (xs ++ ys) = xs.foldr (put key) (sort key ys) :=
  List.foldr_append

theorem Swapped.foldr_put {x y : α} {l l' : List α} (hkey : key x = key y) (h : Swapped x y l l') (zs : List α) :
    Swapped x y (zs.foldr (KeyedSort.put key) l) (zs.foldr (KeyedSort.put key) l') := by
  induction zs with
  | nil => exact h
  | cons z zs ih => exact ih.put hkey z

variable (key) in
theorem sort_swapped {x y : α} (h : key x = key y) (before after : List α) :
    Swapped x y (sort key (before ++ x :: y :: after)) (sort key (before ++ y :: x :: after)) := by
  induction before with
  | nil => exact put_put_of_tie h _
  | cons z before ih => exact ih.put h z

variable (key) in
theorem sort_congr {xs ys : List α} (hperm : xs.Perm ys) (read : List α → γ)
    (hread : ∀ x ∈ xs, ∀ y ∈ xs, key x = key y → ∀ l l', Swapped x y l l' → read l = read l') :
    read (sort key xs) = read (sort key ys) := by
  induction hperm generalizing read with
  | nil => rfl
  | @cons z xs ys _ ih =>
    rw [sort_cons, sort_cons]
    refine ih (fun l => read (put key z l)) fun x hx y hy hkey l l' hswap => ?_
    exact hread x (List.mem_cons_of_mem z hx) y (List.mem_cons_of_mem z hy) hkey _ _ (hswap.put hkey z)
  | swap x y l =>
    by_cases hkey : key y = key x
    · exact hread y List.mem_cons_self x (List.mem_cons_of_mem y List.mem_cons_self) hkey _ _
        (put_put_of_tie hkey _)
    · exact congrArg read (put_put_of_ne hkey _)
  | @trans xs zs ys hleft _ ih ih' =>
    rw [ih read hread]
    exact ih' read fun x hx y hy => hread x (hleft.mem_iff.mpr hx) y (hleft.mem_iff.mpr hy)

theorem Swapped.map {β : Type} (f : α → β) {x y : α} {l l' : List α} (h : Swapped x y l l') :
    Swapped (f x) (f y) (l.map f) (l'.map f) := by
  obtain ⟨before, after, rfl, rfl⟩ := h
  exact ⟨before.map f, after.map f, by simp, by simp⟩

theorem Swapped.eq_iff {x y : α} {l l' : List α} (h : Swapped x y l l') : l = l' ↔ x = y := by
  obtain ⟨before, after, rfl, rfl⟩ := h
  constructor
  · exact fun heq => (List.cons.inj (List.append_cancel_left heq)).1
  · rintro rfl
    rfl

theorem Swapped.flatMap_eq_iff {β : Type} (f : α → List β) {x y : α} {l l' : List α} (h : Swapped x y l l') :
    l.flatMap f = l'.flatMap f ↔ f x ++ f y = f y ++ f x := by
  obtain ⟨before, after, rfl, rfl⟩ := h
  simp only [List.flatMap_append, List.flatMap_cons, List.append_cancel_left_eq]
  rw [← List.append_assoc, ← List.append_assoc, List.append_cancel_right_eq]

theorem exists_perm_cons_cons {x y : α} {xs : List α} (hx : x ∈ xs) (hy : y ∈ xs) (hne : x ≠ y) :
    ∃ rest, xs.Perm (x :: y :: rest) ∧ xs.Perm (y :: x :: rest) := by
  obtain ⟨u, v, rfl⟩ := List.append_of_mem hx
  have hy' : y ∈ u ++ v := by
    rw [List.mem_append, List.mem_cons] at hy
    rw [List.mem_append]
    exact hy.imp_right fun h => h.resolve_left (Ne.symm hne)
  obtain ⟨s, t, hst⟩ := List.append_of_mem hy'
  have hfirst : (u ++ x :: v).Perm (x :: y :: (s ++ t)) := by
    refine List.perm_middle.trans (.cons x ?_)
    rw [hst]
    exact List.perm_middle
  exact ⟨s ++ t, hfirst, hfirst.trans (.swap y x _)⟩

end TimeCodeSecurity.KeyedSort

/-! ## Injections that keep keys

Two lists of things with keys: the places of the first can be mapped to places of the second, different
ones to different ones and each to one of its key, exactly when no key is rarer in the second.
-/
namespace TimeCodeSecurity

variable {κ : Type} [DecidableEq κ]

section Finite

variable {ι ι' : Type} [Fintype ι] [Fintype ι']

def KeepsKeys (a : ι → κ) (b : ι' → κ) (f : ι → ι') : Prop :=
  Function.Injective f ∧ ∀ i, b (f i) = a i

theorem KeepsKeys.card_le {a : ι → κ} {b : ι' → κ} {f : ι → ι'} (h : KeepsKeys a b f) (k : κ) :
    Fintype.card {i // a i = k} ≤ Fintype.card {j // b j = k} := by
  apply Fintype.card_le_of_injective (fun i => ⟨f i.1, (h.2 i.1).trans i.2⟩)
  intro i j hij
  exact Subtype.ext (h.1 (Subtype.ext_iff.mp hij))

theorem exists_keepsKeys {a : ι → κ} {b : ι' → κ}
    (h : ∀ k, Fintype.card {i // a i = k} ≤ Fintype.card {j // b j = k}) :
    ∃ f, KeepsKeys a b f := by
  have hfiber : ∀ k, ∃ e : {i // a i = k} → {j // b j = k}, Function.Injective e := by
    intro k
    obtain ⟨e⟩ := Function.Embedding.nonempty_of_card_le (h k)
    exact ⟨e, e.injective⟩
  choose e he using hfiber
  refine ⟨fun i => (e (a i) ⟨i, rfl⟩).1, ?_, fun i => (e (a i) ⟨i, rfl⟩).2⟩
  -- things with one value have one key, so they come from one fiber
  have hsame : ∀ k l (i : {i // a i = k}) (j : {i // a i = l}),
      (e k i).1 = (e l j).1 → i.1 = j.1 := by
    intro k l i j hij
    have hkey : k = l := by rw [← (e k i).2, hij, (e l j).2]
    subst hkey
    exact Subtype.ext_iff.mp (he k (Subtype.ext hij))
  intro i j hij
  exact hsame _ _ ⟨i, rfl⟩ ⟨j, rfl⟩ hij

end Finite

theorem card_places {α : Type} (key : α → κ) (k : κ) (l : List α) :
    Fintype.card {i : Fin l.length // key (l.get i) = k} = (l.map key).count k := by
  rw [Fintype.card_subtype]
  induction l with
  | nil => rfl
  | cons a l ih =>
    rw [List.map_cons, List.count_cons, ← ih]
    show Finset.card {i : Fin (l.length + 1) | key ((a :: l).get i) = k} = _
    rw [Fin.card_filter_univ_succ]
    by_cases hk : key a = k
    · simp [hk]
    · simp [hk]

/-- Places of `l` can be given places of `m` of the same key. -/
def MapsInto {α : Type} (key : α → κ) (l m : List α) : Prop :=
  ∃ f : Fin l.length → Fin m.length, KeepsKeys (fun i => key (l.get i)) (fun j => key (m.get j)) f

def NoKeyRarer {α : Type} (key : α → κ) (l m : List α) : Prop :=
  ∀ k, (l.map key).count k ≤ (m.map key).count k

theorem mapsInto_iff {α : Type} (key : α → κ) (l m : List α) :
    MapsInto key l m ↔ NoKeyRarer key l m := by
  constructor
  · rintro ⟨f, hf⟩ k
    rw [← card_places, ← card_places]
    exact hf.card_le k
  · intro h
    apply exists_keepsKeys
    intro k
    rw [card_places, card_places]
    exact h k

end TimeCodeSecurity
