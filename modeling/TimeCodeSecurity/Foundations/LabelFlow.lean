import Mathlib.Tactic.Common

/-! # What reaches a node through forwarding edges

Labels that a node owns, and edges along which a node takes over every label of its successor. The
second half is about tables that keep, for each node, the key of each label and one attribute for
each slot of that key: such a table is exact when and only when no two labels of a node disagree in
the attribute of a slot.
-/
namespace TimeCodeSecurity.LabelFlow
set_option autoImplicit false

variable {ν α : Type*}

/-- `n` has the label `l`: it owns it, or forwards to a node that has it. -/
inductive Reaches (own : ν → α → Prop) (fwd : ν → ν → Prop) : ν → α → Prop
  | own {n : ν} {l : α} : own n l → Reaches own fwd n l
  | forward {n m : ν} {l : α} : fwd n m → Reaches own fwd m l → Reaches own fwd n l

variable {own : ν → α → Prop} {fwd : ν → ν → Prop}

theorem Reaches.least {F : ν → α → Prop} (hown : ∀ n l, own n l → F n l)
    (hfwd : ∀ n m l, fwd n m → F m l → F n l) {n : ν} {l : α} (h : Reaches own fwd n l) : F n l := by
  induction h with
  | own h => exact hown _ _ h
  | forward h _ ih => exact hfwd _ _ _ h ih

variable {κ τ φ : Type*}

/-- The table `edges`, `attr` says that `n` has `l`: the key is there, and the attribute kept for its
slot is the one of `l`. -/
def Shows (key : α → κ) (slot : κ → τ) (value : α → φ) (edges : ν → κ → Prop)
    (attr : ν → τ → φ) (n : ν) (l : α) : Prop :=
  edges n (key l) ∧ attr n (slot (key l)) = value l

def Determined (key : α → κ) (slot : κ → τ) (value : α → φ) (has : ν → α → Prop) : Prop :=
  ∀ n l l', has n l → has n l' → slot (key l) = slot (key l') → value l = value l'

structure Covers (key : α → κ) (slot : κ → τ) (value : α → φ) (has : ν → α → Prop)
    (edges : ν → κ → Prop) (attr : ν → τ → φ) : Prop where
  complete : ∀ n l, has n l → edges n (key l)
  sound : ∀ n k, edges n k → ∃ l, has n l ∧ key l = k
  valued : ∀ n k, edges n k → ∃ l, has n l ∧ slot (key l) = slot k ∧ value l = attr n (slot k)

theorem shows_iff_of_determined {key : α → κ} {slot : κ → τ} {value : α → φ}
    {has : ν → α → Prop} {edges : ν → κ → Prop} {attr : ν → τ → φ}
    (hcov : Covers key slot value has edges attr)
    (hext : ∀ l l', key l = key l' → value l = value l' → l = l')
    (hdet : Determined key slot value has) (n : ν) (l : α) :
    Shows key slot value edges attr n l ↔ has n l := by
  constructor
  · rintro ⟨hedge, hattr⟩
    obtain ⟨l', hl', hkey⟩ := hcov.sound n _ hedge
    obtain ⟨m, hm, hslot, hvalue⟩ := hcov.valued n _ hedge
    have hagree : value l' = value m := hdet n l' m hl' hm (by rw [hslot, hkey])
    have hsame : value l' = value l := by rw [hagree, hvalue, hattr]
    rwa [hext l l' hkey.symm hsame.symm]
  · intro hl
    have hedge := hcov.complete n l hl
    obtain ⟨m, hm, hslot, hvalue⟩ := hcov.valued n _ hedge
    exact ⟨hedge, by rw [← hvalue]; exact hdet n m l hm hl hslot⟩

theorem determined_of_shows {key : α → κ} {slot : κ → τ} {value : α → φ}
    {has : ν → α → Prop} {edges : ν → κ → Prop} {attr : ν → τ → φ}
    (h : ∀ n l, has n l → Shows key slot value edges attr n l) : Determined key slot value has := by
  intro n l l' hl hl' hslot
  rw [← (h n l hl).2, ← (h n l' hl').2, hslot]

end TimeCodeSecurity.LabelFlow
