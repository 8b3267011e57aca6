import Mathlib.Data.List.Basic

/-! # Agreement of values

Values that are the same for an equivalence `r`. A list has an answer when it is not empty and all its
members are the same. Two lists that extend a common one have the same answer exactly when what each
adds does not matter, or matters in the same way.
-/
namespace TimeCodeSecurity.Agreement
set_option autoImplicit false

section
variable {α : Type} (r : α → α → Prop)

/-- `a` is a member of `xs`, up to `r`, and every member is the same as `a`. -/
def Settled (xs : List α) (a : α) : Prop := (∃ x ∈ xs, r a x) ∧ ∀ x ∈ xs, r a x

def IsAnswer (xs : List α) : Option α → Prop
  | some a => Settled r xs a
  | none => ∀ a, ¬Settled r xs a

/-- What `ds` and `fs` add to `ks` leaves the same answer. -/
def Balanced (ks ds fs : List α) : Prop :=
  (∃ x ∈ ks, ∃ y ∈ ks, ¬r x y) ∨
  (∃ x ∈ ks, (∀ d ∈ ds, r x d) ↔ ∀ f ∈ fs, r x f) ∨
  ks = [] ∧ ((∃ a, Settled r ds a ∧ Settled r fs a) ∨ ∀ a, ¬Settled r ds a ∧ ¬Settled r fs a)

end

section
variable {α : Type} {r : α → α → Prop} (hr : Equivalence r)
include hr

theorem settled_congr {xs : List α} {a b : α} (h : r a b) (ha : Settled r xs a) : Settled r xs b := by
  obtain ⟨⟨x, hx, hax⟩, hall⟩ := ha
  refine ⟨⟨x, hx, hr.trans (hr.symm h) hax⟩, ?_⟩
  intro y hy
  exact hr.trans (hr.symm h) (hall y hy)

theorem settled_unique {xs : List α} {a b : α} (ha : Settled r xs a) (hb : Settled r xs b) :
    r a b := by
  obtain ⟨x, hx, hax⟩ := ha.1
  exact hr.trans hax (hr.symm (hb.2 x hx))

theorem rel_iff {xs ys : List α} {a b : Option α} (ha : IsAnswer r xs a) (hb : IsAnswer r ys b) :
    Option.Rel r a b ↔ ∀ c, Settled r xs c ↔ Settled r ys c := by
  constructor
  · intro h c
    cases h with
    | none => exact iff_of_false (ha c) (hb c)
    | some hab =>
      constructor
      · intro hc
        exact settled_congr hr (hr.trans (hr.symm hab) (settled_unique hr ha hc)) hb
      · intro hc
        exact settled_congr hr (hr.trans hab (settled_unique hr hb hc)) ha
  · intro h
    match a, b with
    | none, none => exact .none
    | none, some b => exact absurd ((h b).mpr hb) (ha b)
    | some a, none => exact absurd ((h a).mp ha) (hb a)
    | some a, some b => exact .some (settled_unique hr ((h a).mp ha) hb)

theorem not_settled_append {ks ds : List α} {x y : α} (hx : x ∈ ks) (hy : y ∈ ks) (hxy : ¬r x y)
    (c : α) : ¬Settled r (ks ++ ds) c := by
  intro h
  have hcx := h.2 x (List.mem_append_left _ hx)
  have hcy := h.2 y (List.mem_append_left _ hy)
  exact hxy (hr.trans (hr.symm hcx) hcy)

theorem settled_append_iff {ks ds : List α} {x : α} (hx : x ∈ ks) (hks : ∀ y ∈ ks, r x y) (c : α) :
    Settled r (ks ++ ds) c ↔ r c x ∧ ∀ d ∈ ds, r x d := by
  constructor
  · intro h
    have hcx := h.2 x (List.mem_append_left _ hx)
    refine ⟨hcx, fun d hd => ?_⟩
    exact hr.trans (hr.symm hcx) (h.2 d (List.mem_append_right _ hd))
  · rintro ⟨hcx, hds⟩
    refine ⟨⟨x, List.mem_append_left _ hx, hcx⟩, fun y hy => ?_⟩
    rcases List.mem_append.mp hy with hy | hy
    · exact hr.trans hcx (hks y hy)
    · exact hr.trans hcx (hds y hy)

theorem settled_iff_of_settled {ds fs : List α} {a : α} (hd : Settled r ds a) (hf : Settled r fs a)
    (c : α) : Settled r ds c ↔ Settled r fs c := by
  constructor
  · intro h
    exact settled_congr hr (settled_unique hr hd h) hf
  · intro h
    exact settled_congr hr (settled_unique hr hf h) hd

theorem settled_append_iff_balanced (ks ds fs : List α) :
    (∀ c, Settled r (ks ++ ds) c ↔ Settled r (ks ++ fs) c) ↔ Balanced r ks ds fs := by
  by_cases hdiffer : ∃ x ∈ ks, ∃ y ∈ ks, ¬r x y
  · obtain ⟨x, hx, y, hy, hxy⟩ := hdiffer
    refine iff_of_true (fun c => ?_) (.inl ⟨x, hx, y, hy, hxy⟩)
    exact iff_of_false (not_settled_append hr hx hy hxy c) (not_settled_append hr hx hy hxy c)
  · push Not at hdiffer
    have hfirst : ¬∃ x ∈ ks, ∃ y ∈ ks, ¬r x y := by
      rintro ⟨x, hx, y, hy, hxy⟩
      exact hxy (hdiffer x hx y hy)
    cases ks with
    | nil =>
      constructor
      · intro h
        refine .inr (.inr ⟨rfl, ?_⟩)
        by_cases hd : ∃ a, Settled r ds a
        · obtain ⟨a, ha⟩ := hd
          exact .inl ⟨a, ha, (h a).mp ha⟩
        · push Not at hd
          exact .inr fun a => ⟨hd a, fun hf => hd a ((h a).mpr hf)⟩
      · rintro (h | ⟨x, hx, -⟩ | ⟨-, ⟨a, hd, hf⟩ | hnone⟩) c
        · exact absurd h hfirst
        · exact absurd hx (List.not_mem_nil)
        · exact settled_iff_of_settled hr hd hf c
        · exact iff_of_false (hnone c).1 (hnone c).2
    | cons k ks =>
      have hbalanced : Balanced r (k :: ks) ds fs ↔ ((∀ d ∈ ds, r k d) ↔ ∀ f ∈ fs, r k f) := by
        constructor
        · rintro (h | ⟨x, hx, h⟩ | ⟨h, -⟩)
          · exact absurd h hfirst
          · have hkx := hdiffer k List.mem_cons_self x hx
            have hsame : ∀ v, r x v ↔ r k v := fun v =>
              ⟨hr.trans hkx, hr.trans (hr.symm hkx)⟩
            simpa only [hsame] using h
          · exact absurd h (List.cons_ne_nil _ _)
        · intro h
          exact .inr (.inl ⟨k, List.mem_cons_self, h⟩)
      rw [hbalanced]
      have hks := hdiffer k List.mem_cons_self
      constructor
      · intro h
        have hk := h k
        rw [settled_append_iff hr List.mem_cons_self hks,
          settled_append_iff hr List.mem_cons_self hks] at hk
        simpa only [hr.refl k, true_and] using hk
      · intro h c
        rw [settled_append_iff hr List.mem_cons_self hks,
          settled_append_iff hr List.mem_cons_self hks, h]

end

theorem settled_congr_mem {α : Type} {r : α → α → Prop} {xs ys : List α} (h : ∀ x, x ∈ xs ↔ x ∈ ys)
    (a : α) : Settled r xs a ↔ Settled r ys a := by
  simp only [Settled, h]

end TimeCodeSecurity.Agreement
