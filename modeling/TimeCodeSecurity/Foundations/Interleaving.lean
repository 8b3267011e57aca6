import Mathlib.Data.List.Basic
import Mathlib.Logic.Relation

/-! # Calls that run side by side

Calls of operations on a shared state. Each call goes through steps of its own, each step atomic, and the
steps of different calls come in any order. A call is known by its place in the list of calls; new calls
are put at the end. What every call keeps for itself and no other call destroys holds in every run.
-/
namespace TimeCodeSecurity.Interleaving
set_option autoImplicit false

variable {σ ω π : Type}

structure Config (σ ω π : Type) where
  shared : σ
  calls : List (ω × π)

variable (start : ω → π) (advance : ℕ → ω → π → σ → π → σ → Prop)

inductive Step : Config σ ω π → Config σ ω π → Prop
  | issue (c : Config σ ω π) (op : ω) : Step c ⟨c.shared, c.calls ++ [(op, start op)]⟩
  | call {c : Config σ ω π} {i : ℕ} {op : ω} {p p' : π} {s' : σ}
      (hcall : c.calls[i]? = some (op, p)) (hadvance : advance i op p c.shared p' s') :
      Step c ⟨s', c.calls.set i (op, p')⟩

abbrev Steps : Config σ ω π → Config σ ω π → Prop := Relation.ReflTransGen (Step start advance)

def Holds (I : σ → Prop) (J : ℕ → ω → π → σ → Prop) (c : Config σ ω π) : Prop :=
  I c.shared ∧ ∀ i op p, c.calls[i]? = some (op, p) → J i op p c.shared

/-- Every call keeps what holds for it, and no call destroys it for another. Calls from `base` on are
new ones. -/
structure Stable (base : ℕ) (I : σ → Prop) (J : ℕ → ω → π → σ → Prop) : Prop where
  issue : ∀ i op s, base ≤ i → I s → J i op (start op) s
  own : ∀ i op p s p' s', I s → J i op p s → advance i op p s p' s' → I s' ∧ J i op p' s'
  others : ∀ i op p s p' s', I s → J i op p s → advance i op p s p' s' →
    ∀ k opk pk, k ≠ i → J k opk pk s → J k opk pk s'

variable {start advance}

theorem length_le_of_step {c c' : Config σ ω π} (h : Step start advance c c') :
    c.calls.length ≤ c'.calls.length := by
  cases h with
  | issue op => simp
  | call hcall hadvance => simp

theorem Stable.step {base : ℕ} {I : σ → Prop} {J : ℕ → ω → π → σ → Prop}
    (hstable : Stable start advance base I J) {c c' : Config σ ω π} (hbase : base ≤ c.calls.length)
    (hc : Holds I J c) (h : Step start advance c c') : Holds I J c' := by
  cases h with
  | issue op =>
    refine ⟨hc.1, fun i opi p hi => ?_⟩
    rw [List.getElem?_append] at hi
    split at hi
    · exact hc.2 i opi p hi
    · rename_i hlast
      obtain ⟨hlt, hcall⟩ := List.getElem?_eq_some_iff.mp hi
      rw [List.length_singleton] at hlt
      have hzero : i - c.calls.length = 0 := by omega
      simp only [hzero, List.getElem_cons_zero, Prod.mk.injEq] at hcall
      obtain ⟨rfl, rfl⟩ := hcall
      exact hstable.issue i op c.shared (by omega) hc.1
  | @call i op p p' s' hcall hadvance =>
    have hown := hstable.own i op p c.shared p' s' hc.1 (hc.2 i op p hcall) hadvance
    refine ⟨hown.1, fun k opk pk hk => ?_⟩
    by_cases hki : k = i
    · subst hki
      have hlt : k < c.calls.length := (List.getElem?_eq_some_iff.mp hcall).1
      rw [List.getElem?_set_self hlt, Option.some.injEq, Prod.mk.injEq] at hk
      obtain ⟨rfl, rfl⟩ := hk
      exact hown.2
    · rw [List.getElem?_set_ne (Ne.symm hki)] at hk
      exact hstable.others i op p c.shared p' s' hc.1 (hc.2 i op p hcall) hadvance k opk pk hki
        (hc.2 k opk pk hk)

theorem Stable.steps {I : σ → Prop} {J : ℕ → ω → π → σ → Prop} {c c' : Config σ ω π}
    (hstable : Stable start advance c.calls.length I J) (hc : Holds I J c)
    (h : Steps start advance c c') : Holds I J c' := by
  have hboth : c.calls.length ≤ c'.calls.length ∧ Holds I J c' := by
    induction h with
    | refl => exact ⟨Nat.le_refl _, hc⟩
    | tail _ hstep ih =>
      exact ⟨Nat.le_trans ih.1 (length_le_of_step hstep), hstable.step ih.1 ih.2 hstep⟩
  exact hboth.2

theorem call_of_steps {c c' : Config σ ω π} {i : ℕ} {op : ω} {p : π}
    (hcall : c.calls[i]? = some (op, p)) (h : Steps start advance c c') :
    ∃ p', c'.calls[i]? = some (op, p') := by
  induction h with
  | refl => exact ⟨p, hcall⟩
  | tail _ hstep ih =>
    obtain ⟨p₁, hp₁⟩ := ih
    have hlt := (List.getElem?_eq_some_iff.mp hp₁).1
    cases hstep with
    | issue op => exact ⟨p₁, by rw [List.getElem?_append_left hlt, hp₁]⟩
    | @call j opj q q' s' hj hadvance =>
      by_cases hij : j = i
      · subst hij
        rw [hp₁, Option.some.injEq, Prod.mk.injEq] at hj
        refine ⟨q', ?_⟩
        rw [List.getElem?_set_self hlt, hj.1]
      · exact ⟨p₁, by rw [List.getElem?_set_ne hij, hp₁]⟩

end TimeCodeSecurity.Interleaving
