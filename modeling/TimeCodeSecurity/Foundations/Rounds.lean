import Mathlib.Data.Nat.Basic
import Mathlib.Data.List.Basic

/-! # Loops that run until a round changes nothing

A step reports whether it changed its state, a round is a sequence of steps, and the loop repeats
the round while something changed. If every change lowers a measure the loop ends, and then no step
of the round has anything left to do.
-/
namespace TimeCodeSecurity.Rounds
set_option autoImplicit false

abbrev Step (σ : Type*) := σ → σ × Bool

variable {σ : Type*}

/-- The steps of `fs` one after the other. -/
def inOrder : List (Step σ) → Step σ
  | [], s => (s, false)
  | f :: fs, s =>
    let r := f s
    let rest := inOrder fs r.1
    (rest.1, r.2 || rest.2)

/-- `while True: changed = round(); if not changed: return`. -/
inductive Loop (f : Step σ) : σ → σ → Prop
  | stop {s : σ} : (f s).2 = false → Loop f s (f s).1
  | again {s t : σ} : (f s).2 = true → Loop f (f s).1 t → Loop f s t

def Honest (f : Step σ) : Prop := ∀ s, (f s).2 = false → (f s).1 = s

def Preserves (I : σ → Prop) (f : Step σ) : Prop := ∀ s, I s → I (f s).1

/-- Under `I` the measure never grows, and every reported change lowers it. -/
def Lowers (I : σ → Prop) (μ : σ → ℕ) (f : Step σ) : Prop :=
  ∀ s, I s → μ (f s).1 ≤ μ s ∧ ((f s).2 = true → μ (f s).1 < μ s)

theorem honest_inOrder {fs : List (Step σ)} (h : ∀ f ∈ fs, Honest f) : Honest (inOrder fs) := by
  induction fs with
  | nil => exact fun s _ => rfl
  | cons f fs ih =>
    intro s hs
    have hfs := ih fun g hg => h g (List.mem_cons_of_mem f hg)
    simp only [inOrder, Bool.or_eq_false_iff] at hs ⊢
    rw [hfs _ hs.2, h f List.mem_cons_self s hs.1]

theorem preserves_inOrder {I : σ → Prop} {fs : List (Step σ)} (h : ∀ f ∈ fs, Preserves I f) :
    Preserves I (inOrder fs) := by
  induction fs with
  | nil => exact fun s hs => hs
  | cons f fs ih =>
    intro s hs
    exact ih (fun g hg => h g (List.mem_cons_of_mem f hg)) _ (h f List.mem_cons_self s hs)

theorem lowers_inOrder {I : σ → Prop} {μ : σ → ℕ} {fs : List (Step σ)}
    (hI : ∀ f ∈ fs, Preserves I f) (hμ : ∀ f ∈ fs, Lowers I μ f) : Lowers I μ (inOrder fs) := by
  induction fs with
  | nil => exact fun s _ => ⟨le_rfl, fun h => absurd h Bool.false_ne_true⟩
  | cons f fs ih =>
    intro s hs
    have hhead := hμ f List.mem_cons_self s hs
    have htail := ih (fun g hg => hI g (List.mem_cons_of_mem f hg))
      (fun g hg => hμ g (List.mem_cons_of_mem f hg)) _ (hI f List.mem_cons_self s hs)
    refine ⟨le_trans htail.1 hhead.1, fun hch => ?_⟩
    rcases (Bool.or_eq_true _ _).mp hch with hch | hch
    · exact lt_of_le_of_lt htail.1 (hhead.2 hch)
    · exact lt_of_lt_of_le (htail.2 hch) hhead.1

theorem quiet_of_mem {fs : List (Step σ)} (h : ∀ f ∈ fs, Honest f) {s : σ}
    (hs : (inOrder fs s).2 = false) {f : Step σ} (hf : f ∈ fs) : (f s).2 = false := by
  induction fs with
  | nil => exact absurd hf List.not_mem_nil
  | cons g fs ih =>
    simp only [inOrder, Bool.or_eq_false_iff] at hs
    rcases List.mem_cons.mp hf with rfl | hf
    · exact hs.1
    · have hg := h g List.mem_cons_self s hs.1
      rw [hg] at hs
      exact ih (fun g' hg' => h g' (List.mem_cons_of_mem g hg')) hs.2 hf

theorem Loop.preserves {f : Step σ} {I : σ → Prop} (hI : Preserves I f) {s t : σ}
    (h : Loop f s t) (hs : I s) : I t := by
  induction h with
  | stop => exact hI _ hs
  | again _ _ ih => exact ih (hI _ hs)

theorem Loop.quiet {f : Step σ} (hf : Honest f) {s t : σ} (h : Loop f s t) : (f t).2 = false := by
  induction h with
  | stop hs => rwa [hf _ hs]
  | again _ _ ih => exact ih

theorem exists_loop {f : Step σ} {I : σ → Prop} {μ : σ → ℕ} (hI : Preserves I f)
    (hμ : Lowers I μ f) {s : σ} (hs : I s) : ∃ t, Loop f s t := by
  induction hn : μ s using Nat.strong_induction_on generalizing s with
  | _ n ih =>
    cases hch : (f s).2 with
    | false => exact ⟨_, .stop hch⟩
    | true =>
      have hlt : μ (f s).1 < n := hn ▸ (hμ s hs).2 hch
      obtain ⟨t, ht⟩ := ih _ hlt (hI s hs) rfl
      exact ⟨t, .again hch ht⟩

end TimeCodeSecurity.Rounds

/-! ## Worklists

What a worklist has seen when it runs empty: the items that are reached from the start by the steps it follows.
-/
namespace TimeCodeSecurity.Worklist

variable {α : Type} (start : α → Prop) (next : α → α → Prop)

inductive Reached : α → Prop
  | start {x : α} : start x → Reached x
  | step {x y : α} : Reached x → next x y → Reached y

structure Explored (seen queue : List α) : Prop where
  started : ∀ x, start x → x ∈ seen
  sound : ∀ x ∈ seen, Reached start next x
  queued : ∀ x ∈ queue, x ∈ seen
  followed : ∀ x ∈ seen, x ∉ queue → ∀ y, next x y → y ∈ seen

variable {start next} {seen queue fresh : List α} {x : α}

theorem Explored.init (h : ∀ x, start x ↔ x ∈ seen) : Explored start next seen seen where
  started x hx := (h x).mp hx
  sound x hx := .start ((h x).mpr hx)
  queued _ hx := hx
  followed _ hx hnot := absurd hx hnot

theorem Explored.pop (h : Explored start next seen (x :: queue)) (hfresh : ∀ y ∈ fresh, next x y)
    (hall : ∀ y, next x y → y ∈ seen ++ fresh) : Explored start next (seen ++ fresh) (queue ++ fresh) where
  started y hy := List.mem_append_left _ (h.started y hy)
  sound y hy := by
    have hx : Reached start next x := h.sound x (h.queued x List.mem_cons_self)
    rcases List.mem_append.mp hy with hy | hy
    · exact h.sound y hy
    · exact .step hx (hfresh y hy)
  queued y hy := by
    rcases List.mem_append.mp hy with hy | hy
    · exact List.mem_append_left _ (h.queued y (List.mem_cons_of_mem x hy))
    · exact List.mem_append_right _ hy
  followed y hy hnot z hz := by
    classical
    rw [List.mem_append, not_or] at hnot
    have hseen : y ∈ seen := (List.mem_append.mp hy).resolve_right hnot.2
    by_cases hyx : y = x
    · exact hall z (hyx ▸ hz)
    · have hqueue : y ∉ x :: queue := fun hmem => hnot.1 ((List.mem_cons.mp hmem).resolve_left hyx)
      exact List.mem_append_left _ (h.followed y hseen hqueue z hz)

theorem Explored.mem_iff (h : Explored start next seen []) {y : α} : y ∈ seen ↔ Reached start next y := by
  constructor
  · exact h.sound y
  · intro hy
    induction hy with
    | start hx => exact h.started _ hx
    | step _ hnext ih => exact h.followed _ ih List.not_mem_nil _ hnext

end TimeCodeSecurity.Worklist
