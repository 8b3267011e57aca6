import Mathlib.Data.Set.Insert

/-! # Keys and their holders

Each key has at most one holder, and a mark says of someone that they hold a key. Giving a key to someone
marks the new holder and takes no mark away.
-/
namespace TimeCodeSecurity.Holdings
set_option autoImplicit false

variable {κ ω : Type}

structure Book (κ ω : Type) where
  holder : κ → Option ω
  marked : Set ω

def Book.Balanced (b : Book κ ω) : Prop := ∀ w, w ∈ b.marked ↔ ∃ k, b.holder k = some w

variable [DecidableEq κ]

def Book.give (b : Book κ ω) (k : κ) (w : ω) : Book κ ω :=
  { holder := Function.update b.holder k (some w), marked := insert w b.marked }

def Book.Strips (b : Book κ ω) (k : κ) (w : ω) : Prop :=
  ∃ v, v ≠ w ∧ b.holder k = some v ∧ ∀ k', b.holder k' = some v → k' = k

@[simp] theorem Book.holder_give_self (b : Book κ ω) (k : κ) (w : ω) :
    (b.give k w).holder k = some w := by
  simp [Book.give]

theorem Book.holder_give_of_ne (b : Book κ ω) {k k' : κ} (w : ω) (h : k' ≠ k) :
    (b.give k w).holder k' = b.holder k' := by
  simp [Book.give, Function.update_of_ne h]

@[simp] theorem Book.mem_marked_give (b : Book κ ω) (k : κ) (w v : ω) :
    v ∈ (b.give k w).marked ↔ v = w ∨ v ∈ b.marked := by
  simp [Book.give]

theorem Book.Balanced.give {b : Book κ ω} (h : b.Balanced) {k : κ} {w : ω} (hs : ¬ b.Strips k w) :
    (b.give k w).Balanced := by
  intro v
  rw [Book.mem_marked_give]
  constructor
  · intro hv
    by_cases hvw : v = w
    · exact ⟨k, by rw [hvw, Book.holder_give_self]⟩
    · obtain ⟨k', hk'⟩ := (h v).mp (hv.resolve_left hvw)
      by_cases heq : k' = k
      · -- the key that moves is not the only one of its holder
        have hother : ∃ k'', b.holder k'' = some v ∧ k'' ≠ k := by
          by_contra hnone
          exact hs ⟨v, hvw, heq ▸ hk', fun k'' hk'' => by_contra fun hne => hnone ⟨k'', hk'', hne⟩⟩
        obtain ⟨k'', hk'', hne⟩ := hother
        exact ⟨k'', by rw [Book.holder_give_of_ne b w hne, hk'']⟩
      · exact ⟨k', by rw [Book.holder_give_of_ne b w heq, hk']⟩
  · intro ⟨k', hk'⟩
    by_cases heq : k' = k
    · rw [heq, Book.holder_give_self] at hk'
      exact .inl (Option.some.inj hk').symm
    · rw [Book.holder_give_of_ne b w heq] at hk'
      exact .inr ((h v).mpr ⟨k', hk'⟩)

theorem Book.not_strips_of_balanced_give {b : Book κ ω} (h : b.Balanced) {k : κ} {w : ω}
    (hg : (b.give k w).Balanced) : ¬ b.Strips k w := by
  intro ⟨v, hvw, hk, honly⟩
  have hmarked : v ∈ (b.give k w).marked := by
    rw [Book.mem_marked_give]
    exact .inr ((h v).mpr ⟨k, hk⟩)
  obtain ⟨k', hk'⟩ := (hg v).mp hmarked
  by_cases heq : k' = k
  · rw [heq, Book.holder_give_self] at hk'
    exact hvw (Option.some.inj hk').symm
  · rw [Book.holder_give_of_ne b w heq] at hk'
    exact heq (honly k' hk')

theorem Book.balanced_give_iff {b : Book κ ω} (h : b.Balanced) (k : κ) (w : ω) :
    (b.give k w).Balanced ↔ ¬ b.Strips k w :=
  ⟨Book.not_strips_of_balanced_give h, h.give⟩

end TimeCodeSecurity.Holdings
