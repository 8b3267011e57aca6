import Mathlib.Data.List.Basic

/-! # Nested elements of an event list

Some events start an element and some end the innermost open one. An element is named by the position of its
start. An end with nothing open does nothing, and an element need not be ended.
-/
namespace Nesting
set_option autoImplicit false

variable {α : Type} (opens closes : α → Bool)

def advance (n : ℕ) (stack : List ℕ) (e : α) : List ℕ :=
  if opens e then n :: stack else if closes e then stack.tail else stack

/-- The open elements before the `n`-th event. -/
def openAt (events : List α) : ℕ → List ℕ
  | 0 => []
  | n + 1 => match events[n]? with
    | none => openAt events n
    | some e => advance opens closes n (openAt events n) e

/-- The element is open before the `j`-th event and is ended later on. -/
def Encloses (events : List α) (i j : ℕ) : Prop :=
  i ∈ openAt opens closes events j ∧ ∃ n, j < n ∧ i ∉ openAt opens closes events n

variable {opens closes} {events : List α}

theorem openAt_succ {n : ℕ} {e : α} (he : events[n]? = some e) :
    openAt opens closes events (n + 1) = advance opens closes n (openAt opens closes events n) e := by
  rw [openAt, he]

theorem advance_subset {n i : ℕ} {stack : List ℕ} {e : α} (h : i ∈ advance opens closes n stack e) :
    i = n ∧ opens e = true ∨ i ∈ stack := by
  rw [advance] at h
  split at h
  next hopens =>
    rcases List.mem_cons.mp h with rfl | h
    · exact .inl ⟨rfl, hopens⟩
    · exact .inr h
  · split at h
    · exact .inr (List.mem_of_mem_tail h)
    · exact .inr h

theorem started_of_mem {n i : ℕ} (h : i ∈ openAt opens closes events n) :
    i < n ∧ ∃ e, events[i]? = some e ∧ opens e = true := by
  induction n with
  | zero => cases h
  | succ n ih =>
    rw [openAt] at h
    split at h
    · obtain ⟨hlt, he⟩ := ih h
      exact ⟨by omega, he⟩
    next e he =>
      rcases advance_subset h with ⟨rfl, hopens⟩ | h
      · exact ⟨by omega, e, he, hopens⟩
      · obtain ⟨hlt, he⟩ := ih h
        exact ⟨by omega, he⟩

theorem nodup_openAt (n : ℕ) : (openAt opens closes events n).Nodup := by
  induction n with
  | zero => exact List.nodup_nil
  | succ n ih =>
    rw [openAt]
    split
    · exact ih
    · rw [advance]
      split
      · exact List.nodup_cons.mpr ⟨fun h => absurd (started_of_mem h).1 (by omega), ih⟩
      · split
        · exact ih.tail
        · exact ih

theorem ended_iff {n i : ℕ} {e : α} (he : events[n]? = some e) (h : i ∈ openAt opens closes events n) :
    i ∉ openAt opens closes events (n + 1) ↔
      opens e = false ∧ closes e = true ∧ (openAt opens closes events n).head? = some i := by
  rw [openAt_succ he, advance]
  by_cases hopens : opens e = true
  · rw [if_pos hopens]
    refine iff_of_false (fun hne => hne (List.mem_cons_of_mem _ h)) fun hends => ?_
    exact absurd hopens (Bool.eq_false_iff.mp hends.1)
  rw [if_neg hopens]
  by_cases hcloses : closes e = true
  · rw [if_pos hcloses]
    have hnodup : (openAt opens closes events n).Nodup := nodup_openAt n
    cases hstack : openAt opens closes events n with
    | nil =>
      rw [hstack] at h
      cases h
    | cons k rest =>
      rw [hstack] at h hnodup
      rw [List.tail_cons, List.head?_cons, Option.some.injEq]
      constructor
      · exact fun hrest => ⟨Bool.eq_false_iff.mpr hopens, hcloses, ((List.mem_cons.mp h).resolve_right hrest).symm⟩
      · rintro ⟨-, -, rfl⟩
        exact (List.nodup_cons.mp hnodup).1
  · rw [if_neg hcloses]
    exact iff_of_false (fun hne => hne h) fun hends => hcloses hends.2.1

theorem mem_of_le {i m n : ℕ} (him : i < m) (hmn : m ≤ n) (h : i ∈ openAt opens closes events n) :
    i ∈ openAt opens closes events m := by
  induction hmn with
  | refl => exact h
  | @step n hmn ih =>
    have hmn' : m ≤ n := hmn
    rw [openAt] at h
    split at h
    · exact ih h
    · rcases advance_subset h with ⟨rfl, _⟩ | h
      · omega
      · exact ih h

theorem openAt_of_length_le {n : ℕ} (h : events.length ≤ n) :
    openAt opens closes events n = openAt opens closes events events.length := by
  induction h with
  | refl => rfl
  | @step n h ih => rw [openAt, List.getElem?_eq_none h, ih]

end Nesting
