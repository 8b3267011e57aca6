import Mathlib.Data.List.Basic

/-! # Paths through structured programs

The ways a piece of a program can be run: each gives the events met on the way, in order, and ends with
a value or leaves abruptly. What decides between two ways is not part of it; a state machine over the
events says which of them are possible.
-/
namespace TimeCodeSecurity
set_option autoImplicit false

/-- Paths with events `ε`, abrupt exits `ω` and results `α`. -/
def Paths (ε ω α : Type) : Type := List ε → Except ω α → Prop

namespace Paths

variable {ε ω α β : Type}

def ret (a : α) : Paths ε ω α := fun tr r => tr = [] ∧ r = .ok a

def andThen (A : Paths ε ω α) (B : α → Paths ε ω β) : Paths ε ω β := fun tr r =>
  (∃ x, A tr (.error x) ∧ r = .error x) ∨
    ∃ t₁ a t₂, A t₁ (.ok a) ∧ B a t₂ r ∧ tr = t₁ ++ t₂

instance : Monad (Paths ε ω) where
  pure := ret
  bind := andThen

def emit (ev : ε) : Paths ε ω Unit := fun tr r => tr = [ev] ∧ r = .ok ()

def leave (x : ω) : Paths ε ω α := fun tr r => tr = [] ∧ r = .error x

def either (A B : Paths ε ω α) : Paths ε ω α := fun tr r => A tr r ∨ B tr r

def anyOf (As : List (Paths ε ω α)) : Paths ε ω α := fun tr r => ∃ A ∈ As, A tr r

def oneOf (p : α → Prop) : Paths ε ω α := fun tr r => tr = [] ∧ ∃ a, p a ∧ r = .ok a

/-- Goes on in any case, with how `A` was left. -/
def attempt (A : Paths ε ω α) : Paths ε ω (Except ω α) := fun tr r => ∃ s, A tr s ∧ r = .ok s

/-- Leaves as `attempt` found it. -/
def resume : Except ω α → Paths ε ω α
  | .ok a => ret a
  | .error x => leave x

inductive Rounds (round : Paths ε ω Bool) : List ε → Except ω Unit → Prop
  | last {tr} : round tr (.ok false) → Rounds round tr (.ok ())
  | left {tr x} : round tr (.error x) → Rounds round tr (.error x)
  | more {t₁ t₂ r} : round t₁ (.ok true) → Rounds round t₂ r → Rounds round (t₁ ++ t₂) r

def rounds (round : Paths ε ω Bool) : Paths ε ω Unit := Rounds round

/-- `A` any number of times. -/
def repeated (A : Paths ε ω Unit) : Paths ε ω Unit :=
  rounds (either (ret false) (A.andThen fun _ => ret true))

def inOrder : List (Paths ε ω α) → Paths ε ω (List α)
  | [] => ret []
  | A :: rest => A.andThen fun a => (inOrder rest).andThen fun as => ret (a :: as)

theorem ret_intro {a : α} : (pure a : Paths ε ω α) [] (.ok a) := ⟨rfl, rfl⟩

theorem emit_intro {ev : ε} : (emit ev : Paths ε ω Unit) [ev] (.ok ()) := ⟨rfl, rfl⟩

theorem oneOf_intro {p : α → Prop} {a : α} (h : p a) : (oneOf p : Paths ε ω α) [] (.ok a) :=
  ⟨rfl, a, h, rfl⟩

theorem bind_intro {A : Paths ε ω α} {B : α → Paths ε ω β} {t₁ t₂ : List ε} {a : α}
    {r : Except ω β} (hA : A t₁ (.ok a)) (hB : B a t₂ r) : (A >>= B) (t₁ ++ t₂) r :=
  .inr ⟨t₁, a, t₂, hA, hB, rfl⟩

theorem bind_of_eq {A : Paths ε ω α} {B : α → Paths ε ω β} {t₁ t₂ tr : List ε} {a : α}
    {r : Except ω β} (hA : A t₁ (.ok a)) (hB : B a t₂ r) (htr : tr = t₁ ++ t₂) : (A >>= B) tr r :=
  htr ▸ bind_intro hA hB

end Paths
end TimeCodeSecurity

/-! ## The events a path can have

A property of single events that holds of all the events of the parts holds of all the events of what
is built from them.
-/
namespace TimeCodeSecurity.Paths

variable {ε ω α β : Type} {P : ε → Prop}

/-- Every event on a path of `A` has the property. -/
def Emits (P : ε → Prop) (A : Paths ε ω α) : Prop := ∀ tr r, A tr r → ∀ ev ∈ tr, P ev

theorem emits_pure (a : α) : Emits P (pure a : Paths ε ω α) := by
  rintro tr r ⟨rfl, -⟩ ev hev
  exact absurd hev List.not_mem_nil

theorem emits_leave (x : ω) : Emits P (leave x : Paths ε ω α) := by
  rintro tr r ⟨rfl, -⟩ ev hev
  exact absurd hev List.not_mem_nil

theorem emits_emit {ev : ε} (h : P ev) : Emits P (emit ev : Paths ε ω Unit) := by
  rintro tr r ⟨rfl, -⟩ ev' hev
  rw [List.mem_singleton.mp hev]
  exact h

theorem emits_bind {A : Paths ε ω α} {B : α → Paths ε ω β} (hA : Emits P A)
    (hB : ∀ a, Emits P (B a)) : Emits P (A >>= B) := by
  intro tr r h ev hev
  obtain ⟨x, hx, -⟩ | ⟨t₁, a, t₂, h₁, h₂, rfl⟩ := h
  · exact hA tr _ hx ev hev
  · obtain hev | hev := List.mem_append.mp hev
    · exact hA t₁ _ h₁ ev hev
    · exact hB a t₂ r h₂ ev hev

theorem emits_either {A B : Paths ε ω α} (hA : Emits P A) (hB : Emits P B) :
    Emits P (either A B) := by
  intro tr r h
  obtain h | h := h
  · exact hA tr r h
  · exact hB tr r h

theorem emits_anyOf {As : List (Paths ε ω α)} (h : ∀ A ∈ As, Emits P A) : Emits P (anyOf As) := by
  rintro tr r ⟨A, hA, hpath⟩
  exact h A hA tr r hpath

theorem emits_attempt {A : Paths ε ω α} (h : Emits P A) : Emits P (attempt A) := by
  rintro tr r ⟨s, hs, -⟩
  exact h tr s hs

theorem emits_resume (s : Except ω α) : Emits P (resume s : Paths ε ω α) := by
  cases s with
  | ok a => exact emits_pure a
  | error x => exact emits_leave x

theorem emits_rounds {round : Paths ε ω Bool} (h : Emits P round) : Emits P (rounds round) := by
  intro tr r hrounds
  induction hrounds with
  | last hlast => exact h _ _ hlast
  | left hleft => exact h _ _ hleft
  | more hmore _ ih =>
    intro ev hev
    obtain hev | hev := List.mem_append.mp hev
    · exact h _ _ hmore ev hev
    · exact ih ev hev

theorem emits_repeated {A : Paths ε ω Unit} (h : Emits P A) : Emits P (repeated A) :=
  emits_rounds (emits_either (emits_pure false) (emits_bind h fun _ => emits_pure true))

end TimeCodeSecurity.Paths
