import Mathlib.Data.Nat.Notation
import Mathlib.Data.Option.Basic
import Mathlib.Tactic.SplitIfs

/-! # Going up line by line

From a line upwards: the first line with an answer gives it, unless a line before it lets nothing pass or
the steps run out. Lines are numbered from one.
-/
namespace TimeCodeSecurity.Climb
set_option autoImplicit false

variable {α : Type} (hit : ℕ → Option α) (pass : ℕ → Bool)

def climb : ℕ → ℕ → Option α
  | 0, _ => none
  | _, 0 => none
  | n + 1, k + 1 =>
    match hit (k + 1) with
    | some a => some a
    | none => if pass (k + 1) then climb n k else none

/-- The lines from `k` up to but without `d` are come by. -/
def Clears (k d : ℕ) : Prop := ∀ j, d < j → j ≤ k → hit j = none ∧ pass j = true

/-- In `n` steps from `k` the climb ends on `d`. -/
structure Reached (n k d : ℕ) : Prop where
  line : 1 ≤ d
  above : d ≤ k
  steps : k < d + n
  clears : Clears hit pass k d

variable {hit pass}

theorem climb_zero (n : ℕ) : climb hit pass n 0 = none := by
  cases n <;> rfl

theorem climb_succ (n k : ℕ) : climb hit pass (n + 1) (k + 1) =
    match hit (k + 1) with
    | some a => some a
    | none => if pass (k + 1) then climb hit pass n k else none := rfl

theorem climb_at {s k : ℕ} (hk : 1 ≤ k) :
    climb hit pass (s + 1) k = (hit k).or (if pass k then climb hit pass s (k - 1) else none) := by
  obtain ⟨j, rfl⟩ : ∃ j, k = j + 1 := ⟨k - 1, by omega⟩
  rw [climb_succ]
  cases hit (j + 1) <;> rfl

theorem climb_step {n k : ℕ} (hhit : hit (k + 1) = none) (hpass : pass (k + 1) = true) :
    climb hit pass (n + 1) (k + 1) = climb hit pass n k := by
  rw [climb_succ, hhit, hpass]
  rfl

theorem climb_clears {k d n : ℕ} (h : Clears hit pass k d) (hd : d ≤ k) (hsteps : k ≤ d + n) :
    climb hit pass n k = climb hit pass (n - (k - d)) d := by
  induction k generalizing n with
  | zero =>
    obtain rfl := Nat.le_zero.mp hd
    rfl
  | succ k ih =>
    rcases Nat.lt_or_ge d (k + 1) with hlt | hge
    · obtain ⟨hhit, hpass⟩ := h (k + 1) hlt (Nat.le_refl _)
      obtain ⟨m, rfl⟩ : ∃ m, n = m + 1 := ⟨n - 1, by omega⟩
      rw [climb_step hhit hpass, ih (fun j hj hjk => h j hj (Nat.le_succ_of_le hjk)) (by omega) (by omega)]
      congr 1
      omega
    · obtain rfl : d = k + 1 := by omega
      rw [Nat.sub_self, Nat.sub_zero]

theorem climb_eq_some_iff {n k : ℕ} {a : α} :
    climb hit pass n k = some a ↔ ∃ d, Reached hit pass n k d ∧ hit d = some a := by
  induction k generalizing n with
  | zero =>
    rw [climb_zero]
    refine iff_of_false (fun h => nomatch h) ?_
    rintro ⟨d, ⟨hline, habove, -, -⟩, -⟩
    omega
  | succ k ih =>
    cases n with
    | zero =>
      refine iff_of_false (fun h => nomatch h) ?_
      rintro ⟨d, ⟨-, habove, hsteps, -⟩, -⟩
      omega
    | succ n =>
      rw [climb_succ]
      cases hhit : hit (k + 1) with
      | some b =>
        constructor
        · intro h
          obtain rfl := Option.some.inj h
          exact ⟨k + 1, ⟨by omega, Nat.le_refl _, by omega, fun j hj hjk => by omega⟩, hhit⟩
        · rintro ⟨d, ⟨-, habove, -, hclears⟩, hd⟩
          rcases Nat.lt_or_ge d (k + 1) with hlt | hge
          · exact absurd ((hclears (k + 1) hlt (Nat.le_refl _)).1.symm.trans hhit) (by simp)
          · obtain rfl : d = k + 1 := by omega
            exact hhit.symm.trans hd
      | none =>
        have hlow : ∀ d, Reached hit pass (n + 1) (k + 1) d → hit d = some a → d ≤ k := by
          rintro d ⟨-, habove, -, -⟩ hd
          rcases Nat.lt_or_ge d (k + 1) with hlt | hge
          · omega
          · obtain rfl : d = k + 1 := by omega
            exact absurd (hhit.symm.trans hd) (by simp)
        simp only
        split_ifs with hpass
        · rw [ih]
          constructor
          · rintro ⟨d, ⟨hline, habove, hsteps, hclears⟩, hd⟩
            refine ⟨d, ⟨hline, by omega, by omega, fun j hj hjk => ?_⟩, hd⟩
            rcases Nat.lt_or_ge k j with hlt | hge
            · obtain rfl : j = k + 1 := by omega
              exact ⟨hhit, hpass⟩
            · exact hclears j hj hge
          · rintro ⟨d, hreached, hd⟩
            have hdk := hlow d hreached hd
            obtain ⟨hline, habove, hsteps, hclears⟩ := hreached
            exact ⟨d, ⟨hline, hdk, by omega, fun j hj hjk => hclears j hj (Nat.le_succ_of_le hjk)⟩, hd⟩
        · refine iff_of_false (fun h => nomatch h) ?_
          rintro ⟨d, hreached, hd⟩
          have hdk := hlow d hreached hd
          exact hpass (hreached.clears (k + 1) (by omega) (Nat.le_refl _)).2

theorem climb_congr {hit' : ℕ → Option α} {pass' : ℕ → Bool} {n k : ℕ}
    (h : ∀ j, 1 ≤ j → j ≤ k → k < j + n → Clears hit pass k j → hit' j = hit j ∧ pass' j = pass j) :
    climb hit' pass' n k = climb hit pass n k := by
  induction k generalizing n with
  | zero => rw [climb_zero, climb_zero]
  | succ k ih =>
    cases n with
    | zero => rfl
    | succ n =>
      obtain ⟨hhit, hpass⟩ := h (k + 1) (by omega) (Nat.le_refl _) (by omega) fun j hj hjk => by omega
      rw [climb_succ, climb_succ, hhit, hpass]
      cases hk : hit (k + 1) with
      | some a => rfl
      | none =>
        simp only
        split_ifs with hp
        · refine ih fun j hj hjk hn hclears => h j hj (by omega) (by omega) fun i hi hik => ?_
          rcases Nat.lt_or_ge k i with hlt | hge
          · obtain rfl : i = k + 1 := by omega
            exact ⟨hk, hp⟩
          · exact hclears i hi hge
        · rfl

section
variable {hit' : ℕ → Option α} {pass' : ℕ → Bool} {n m k : ℕ}

theorem climb_replace_of_not (hhit : ∀ j, j ≠ k → hit' j = hit j) (hpass : ∀ j, j ≠ k → pass' j = pass j)
    (h : ¬(1 ≤ k ∧ k ≤ m ∧ m < k + n ∧ Clears hit pass m k)) :
    climb hit' pass' n m = climb hit pass n m := by
  refine climb_congr fun j hj hjm hn hclears => ?_
  have hne : j ≠ k := by
    rintro rfl
    exact h ⟨hj, hjm, hn, hclears⟩
  exact ⟨hhit j hne, hpass j hne⟩

theorem climb_replace (hhit : ∀ j, j ≠ k → hit' j = hit j) (hpass : ∀ j, j ≠ k → pass' j = pass j) (hk : 1 ≤ k)
    (hkm : k ≤ m) (hn : m < k + n) (hclears : Clears hit pass m k) :
    climb hit pass n m = (hit k).or (if pass k then climb hit pass (k + n - m - 1) (k - 1) else none) ∧
    climb hit' pass' n m = (hit' k).or (if pass' k then climb hit pass (k + n - m - 1) (k - 1) else none) := by
  have hclears' : Clears hit' pass' m k := fun j hj hjm => by
    rw [hhit j (by omega), hpass j (by omega)]
    exact hclears j hj hjm
  have hbelow : climb hit' pass' (k + n - m - 1) (k - 1) = climb hit pass (k + n - m - 1) (k - 1) :=
    climb_congr fun j hj hjk _ _ => ⟨hhit j (by omega), hpass j (by omega)⟩
  have hsteps : n - (m - k) = (k + n - m - 1) + 1 := by omega
  constructor
  · rw [climb_clears hclears hkm (by omega), hsteps, climb_at hk]
  · rw [climb_clears hclears' hkm (by omega), hsteps, climb_at hk, hbelow]

end

end TimeCodeSecurity.Climb
