import Mathlib.Data.List.Basic
import Mathlib.Data.List.Pairwise
import Mathlib.Order.Lattice

/-! # The first scope that binds a name

Scopes are asked one after the other and the first one that binds answers. The answer is that of the
visible scopes alone exactly when every binder out of sight comes after a visible one and no visible
binder is left out before the first that is asked.
-/
namespace FirstBinding
set_option autoImplicit false

variable {α β : Type}

section Screened
variable (visible binds : α → Bool)

def Screened (asked : List α) : Prop :=
  ∀ inner s outer, asked = inner ++ s :: outer → binds s → visible s = false →
    ∃ t ∈ inner, visible t ∧ binds t

theorem screened_nil : Screened visible binds [] := by
  intro inner s outer h
  simp at h

theorem screened_cons_of_binds {s : α} (asked : List α) (hs : binds s) :
    Screened visible binds (s :: asked) ↔ visible s := by
  constructor
  · intro h
    by_contra hhidden
    obtain ⟨t, ht, -⟩ := h [] s asked rfl hs (Bool.eq_false_iff.mpr hhidden)
    exact List.not_mem_nil ht
  · intro hvisible inner t outer heq ht hhidden
    cases inner with
    | nil =>
      obtain ⟨rfl, -⟩ := List.cons.inj heq
      exact absurd hvisible (Bool.eq_false_iff.mp hhidden)
    | cons u inner =>
      obtain ⟨rfl, -⟩ := List.cons.inj heq
      exact ⟨s, List.mem_cons_self, hvisible, hs⟩

theorem screened_cons_of_not {s : α} (asked : List α) (hs : ¬binds s) :
    Screened visible binds (s :: asked) ↔ Screened visible binds asked := by
  constructor
  · intro h inner t outer heq ht hhidden
    obtain ⟨u, hu, huvis, hub⟩ := h (s :: inner) t outer (by rw [heq]; rfl) ht hhidden
    rcases List.mem_cons.mp hu with rfl | hu
    · exact absurd hub hs
    · exact ⟨u, hu, huvis, hub⟩
  · intro h inner t outer heq ht hhidden
    cases inner with
    | nil =>
      obtain ⟨rfl, -⟩ := List.cons.inj heq
      exact absurd ht hs
    | cons u inner =>
      obtain ⟨rfl, hrest⟩ := List.cons.inj heq
      obtain ⟨v, hv, hboth⟩ := h inner t outer hrest ht hhidden
      exact ⟨v, List.mem_cons_of_mem _ hv, hboth⟩

theorem find?_eq_find?_visible_iff (asked : List α) :
    asked.find? binds = (asked.filter visible).find? binds ↔ Screened visible binds asked := by
  induction asked with
  | nil => exact iff_of_true rfl (screened_nil visible binds)
  | cons s asked ih =>
    by_cases hs : binds s = true
    · rw [screened_cons_of_binds visible binds asked hs, List.find?_cons_of_pos hs]
      by_cases hvisible : visible s = true
      · rw [List.filter_cons_of_pos hvisible, List.find?_cons_of_pos hs]
        exact iff_of_true rfl hvisible
      · rw [List.filter_cons_of_neg hvisible]
        refine iff_of_false ?_ hvisible
        intro heq
        exact hvisible (List.of_mem_filter (List.mem_of_find?_eq_some heq.symm))
    · rw [screened_cons_of_not visible binds asked hs, ← ih, List.find?_cons_of_neg hs, List.filter_cons]
      split
      · rw [List.find?_cons_of_neg hs]
      · rfl

end Screened

/-! ## Scopes from the inside to the outside -/

def Falling (depth : α → ℕ) (scopes : List α) : Prop := scopes.Pairwise fun s t => depth t ≤ depth s

section Falling
variable {depth : α → ℕ} {binds : α → Bool}

theorem find?_eq_some_iff_of_falling {scopes : List α} (hfall : Falling depth scopes)
    (hinj : ∀ s ∈ scopes, ∀ t ∈ scopes, depth s = depth t → s = t) {s : α} :
    scopes.find? binds = some s ↔ s ∈ scopes ∧ binds s ∧ ∀ t ∈ scopes, binds t → depth t ≤ depth s := by
  have hfirst : ∀ u, scopes.find? binds = some u →
      u ∈ scopes ∧ binds u ∧ ∀ t ∈ scopes, binds t → depth t ≤ depth u := by
    intro u hu
    obtain ⟨hbinds, inner, outer, heq, hnone⟩ := List.find?_eq_some_iff_append.mp hu
    refine ⟨List.mem_of_find?_eq_some hu, hbinds, fun t ht htb => ?_⟩
    rw [heq, List.mem_append, List.mem_cons] at ht
    rcases ht with ht | rfl | ht
    · have hfalse := hnone t ht
      rw [htb] at hfalse
      exact absurd hfalse (by decide)
    · exact le_rfl
    · rw [heq] at hfall
      exact (List.pairwise_cons.mp (List.pairwise_append.mp hfall).2.1).1 t ht
  constructor
  · exact hfirst s
  · rintro ⟨hs, hb, hmax⟩
    obtain ⟨u, hu⟩ : ∃ u, scopes.find? binds = some u :=
      Option.isSome_iff_exists.mp (List.find?_isSome.mpr ⟨s, hs, hb⟩)
    obtain ⟨humem, hub, humax⟩ := hfirst u hu
    rw [hu, hinj s hs u humem (le_antisymm (humax s hs hb) (hmax u humem hub))]

theorem find?_eq_of_falling_iff {asked all : List α} (hasked : Falling depth asked) (hall : Falling depth all)
    (hsub : ∀ s ∈ asked, s ∈ all) (hinj : ∀ s ∈ all, ∀ t ∈ all, depth s = depth t → s = t) :
    asked.find? binds = all.find? binds ↔
      ∀ s ∈ all, binds s → s ∈ asked ∨ ∃ t ∈ asked, binds t ∧ depth s < depth t := by
  have hinj' : ∀ s ∈ asked, ∀ t ∈ asked, depth s = depth t → s = t :=
    fun s hs t ht => hinj s (hsub s hs) t (hsub t ht)
  constructor
  · intro heq s hs hb
    obtain ⟨u, hu⟩ : ∃ u, all.find? binds = some u :=
      Option.isSome_iff_exists.mp (List.find?_isSome.mpr ⟨s, hs, hb⟩)
    obtain ⟨huall, -, humax⟩ := (find?_eq_some_iff_of_falling hall hinj).mp hu
    obtain ⟨huasked, hub, -⟩ := (find?_eq_some_iff_of_falling hasked hinj').mp (heq.trans hu)
    rcases (humax s hs hb).lt_or_eq with hlt | hsame
    · exact .inr ⟨u, huasked, hub, hlt⟩
    · exact .inl (hinj s hs u huall hsame ▸ huasked)
  · intro h
    cases hfind : all.find? binds with
    | none =>
      rw [List.find?_eq_none] at hfind ⊢
      exact fun s hs => hfind s (hsub s hs)
    | some s =>
      obtain ⟨hs, hb, hmax⟩ := (find?_eq_some_iff_of_falling hall hinj).mp hfind
      rw [find?_eq_some_iff_of_falling hasked hinj']
      refine ⟨?_, hb, fun t ht => hmax t (hsub t ht)⟩
      rcases h s hs hb with hmem | ⟨t, ht, htb, hlt⟩
      · exact hmem
      · exact absurd (hmax t (hsub t ht) htb) (not_le.mpr hlt)

theorem find?_eq_iff {visible : α → Bool} {asked all : List α}
    (hasked : Falling depth (asked.filter visible)) (hall : Falling depth all)
    (hsub : ∀ s ∈ asked, visible s → s ∈ all) (hvisible : ∀ s ∈ all, visible s)
    (hinj : ∀ s ∈ all, ∀ t ∈ all, depth s = depth t → s = t) :
    asked.find? binds = all.find? binds ↔
      Screened visible binds asked ∧
        ∀ s ∈ all, binds s → s ∈ asked ∨ ∃ t ∈ asked, visible t ∧ binds t ∧ depth s < depth t := by
  have hmem : ∀ s, s ∈ asked.filter visible ↔ s ∈ asked ∧ visible s := fun s => List.mem_filter
  have hfilter : (asked.filter visible).find? binds = all.find? binds ↔ _ := find?_eq_of_falling_iff hasked hall
    (fun s hs => hsub s ((hmem s).mp hs).1 ((hmem s).mp hs).2) hinj
  have hcond : (∀ s ∈ all, binds s → s ∈ asked.filter visible ∨
        ∃ t ∈ asked.filter visible, binds t ∧ depth s < depth t) ↔
      ∀ s ∈ all, binds s → s ∈ asked ∨ ∃ t ∈ asked, visible t ∧ binds t ∧ depth s < depth t := by
    refine forall₂_congr fun s hs => imp_congr_right fun _ => or_congr ?_ ?_
    · rw [hmem]
      exact and_iff_left (hvisible s hs)
    · simp only [hmem, and_assoc]
  rw [hcond] at hfilter
  constructor
  · intro heq
    -- the first binder is one of the visible scopes
    have hscreened : Screened visible binds asked := by
      rw [← find?_eq_find?_visible_iff]
      cases hfind : asked.find? binds with
      | none =>
        rw [List.find?_eq_none] at hfind
        exact (List.find?_eq_none.mpr fun s hs => hfind s ((hmem s).mp hs).1).symm
      | some s =>
        have hs : visible s := hvisible s (List.mem_of_find?_eq_some (heq.symm.trans hfind))
        obtain ⟨hb, inner, outer, hsplit, hnone⟩ := List.find?_eq_some_iff_append.mp hfind
        rw [hsplit, List.filter_append, List.filter_cons_of_pos hs]
        refine (List.find?_eq_some_iff_append.mpr ⟨hb, _, _, rfl, fun t ht => ?_⟩).symm
        exact hnone t (List.mem_of_mem_filter ht)
    refine ⟨hscreened, hfilter.mp ?_⟩
    rw [← (find?_eq_find?_visible_iff visible binds asked).mpr hscreened, heq]
  · rintro ⟨hscreened, hrest⟩
    rw [(find?_eq_find?_visible_iff visible binds asked).mpr hscreened]
    exact hfilter.mpr hrest

end Falling

theorem findSome?_eq_bind_find? (answer : α → Option β) (scopes : List α) :
    scopes.findSome? answer = (scopes.find? fun s => (answer s).isSome).bind answer := by
  induction scopes with
  | nil => rfl
  | cons s scopes ih =>
    cases hs : answer s with
    | none => rw [List.findSome?_cons, hs, List.find?_cons_of_neg (by simp [hs]), ih]
    | some b => rw [List.findSome?_cons, hs, List.find?_cons_of_pos (by simp [hs]), Option.bind_some, hs]

theorem findSome?_eq_findSome?_iff {answer : α → Option β} {asked all : List α}
    (hinj : ∀ s ∈ asked, ∀ t ∈ all, ∀ b, answer s = some b → answer t = some b → s = t) :
    asked.findSome? answer = all.findSome? answer ↔
      (asked.find? fun s => (answer s).isSome) = all.find? fun s => (answer s).isSome := by
  rw [findSome?_eq_bind_find?, findSome?_eq_bind_find?]
  refine ⟨fun heq => ?_, fun heq => by rw [heq]⟩
  cases hs : asked.find? fun s => (answer s).isSome with
  | none =>
    cases ht : all.find? fun s => (answer s).isSome with
    | none => rfl
    | some t =>
      have hsome : (answer t).isSome = true := List.find?_some (p := fun s => (answer s).isSome) ht
      obtain ⟨b, hb⟩ := Option.isSome_iff_exists.mp hsome
      rw [hs, ht, Option.bind_none, Option.bind_some, hb] at heq
      cases heq
  | some s =>
    have hsome : (answer s).isSome = true := List.find?_some (p := fun s => (answer s).isSome) hs
    obtain ⟨b, hb⟩ := Option.isSome_iff_exists.mp hsome
    rw [hs, Option.bind_some, hb] at heq
    obtain ⟨t, ht, htb⟩ := Option.bind_eq_some_iff.mp heq.symm
    rw [ht, hinj s (List.mem_of_find?_eq_some hs) t (List.mem_of_find?_eq_some ht) b hb htb]

end FirstBinding
