import Mathlib.Data.List.DropRight

/-! # Splices

A run of a list makes room for another one. A place of the list is the number of elements in front of it; places
up to the run stay, and places behind it move by what the list has grown.
-/
namespace TimeCodeSecurity.Splices
set_option autoImplicit false

structure Extent where
  start : ℕ
  stop : ℕ
deriving DecidableEq, Repr

def Extent.Splits (x : Extent) (k : ℕ) : Prop := x.start < k ∧ k < x.stop

instance (x : Extent) (k : ℕ) : Decidable (x.Splits k) := inferInstanceAs (Decidable (_ ∧ _))

/-- `xs.insert(k, x)`. -/
def insertAt {α : Type} (k : ℕ) (x : α) (xs : List α) : List α := xs.take k ++ x :: xs.drop k

/-- `xs[start:stop] = new`. -/
structure Splice (α : Type) where
  start : ℕ
  stop : ℕ
  new : List α
  start_le_stop : start ≤ stop

namespace Splice
variable {α : Type} (w : Splice α)

def apply (xs : List α) : List α := xs.take w.start ++ (w.new ++ xs.drop w.stop)

def newStop : ℕ := w.start + w.new.length

def moved (k : ℕ) : ℕ := k - w.stop + w.newStop

/-- The place that comes to stand at `k`, which is behind the new elements. -/
def origin (k : ℕ) : ℕ := k - w.newStop + w.stop

def Before (x : Extent) : Prop := x.stop ≤ w.start

def After (x : Extent) : Prop := w.stop ≤ x.start

def Within (x : Extent) : Prop := w.start ≤ x.start ∧ x.stop ≤ w.stop

def Torn (x : Extent) : Prop := ¬ w.Before x ∧ ¬ w.After x ∧ ¬ w.Within x

instance (x : Extent) : Decidable (w.Before x) := inferInstanceAs (Decidable (_ ≤ _))
instance (x : Extent) : Decidable (w.After x) := inferInstanceAs (Decidable (_ ≤ _))
instance (x : Extent) : Decidable (w.Within x) := inferInstanceAs (Decidable (_ ∧ _))
instance (x : Extent) : Decidable (w.Torn x) := inferInstanceAs (Decidable (_ ∧ _))

def grown (x : Extent) : Extent := ⟨min x.start w.start, w.moved (max x.stop w.stop)⟩

def image (replaced : Option Extent) (x : Extent) : Option Extent :=
  if w.Before x then some x
  else if w.After x then some ⟨w.moved x.start, w.moved x.stop⟩
  else if w.Within x then replaced
  else some (w.grown x)

variable {w}

theorem take_apply_of_le {xs : List α} {k : ℕ} (hk : k ≤ w.start) (hstart : w.start ≤ xs.length) :
    (w.apply xs).take k = xs.take k := by
  have hlength : k ≤ (xs.take w.start).length := by
    rw [List.length_take]
    omega
  rw [apply, List.take_append_of_le_length hlength, List.take_take, min_eq_left hk]

theorem take_apply_of_ge {xs : List α} {k : ℕ} (hk : w.newStop ≤ k) (hstart : w.start ≤ xs.length) :
    (w.apply xs).take k = xs.take w.start ++ (w.new ++ (xs.drop w.stop).take (k - w.newStop)) := by
  obtain ⟨i, rfl⟩ := Nat.exists_eq_add_of_le hk
  have hfront : (xs.take w.start).length = w.start := by
    rw [List.length_take]
    omega
  have hnew : w.newStop + i - w.start - w.new.length = i := by
    unfold newStop
    omega
  have hlong : w.new.length ≤ w.newStop + i - w.start := by
    unfold newStop
    omega
  have hle : w.start ≤ w.newStop + i := by
    unfold newStop
    omega
  rw [apply, List.take_append, hfront, List.take_append, List.take_take, hnew, List.take_of_length_le hlong,
    min_eq_right hle, Nat.add_sub_cancel_left]

theorem take_apply_of_inner {xs : List α} {j : ℕ} (hj : j ≤ w.new.length) (hstart : w.start ≤ xs.length) :
    (w.apply xs).take (w.start + j) = xs.take w.start ++ w.new.take j := by
  have hfront : (xs.take w.start).length = w.start := by
    rw [List.length_take]
    omega
  rw [apply, List.take_append, hfront, Nat.add_sub_cancel_left, List.take_append_of_le_length hj, List.take_take,
    min_eq_right (Nat.le_add_right _ _)]

/-! ## Extents under a splice -/

section
variable {replaced : Option Extent} {x : Extent} {k : ℕ}

theorem start_lt_newStop (hnew : w.new ≠ []) : w.start < w.newStop := by
  have hpos := List.length_pos_iff.mpr hnew
  unfold newStop
  omega

theorem image_splits_front (hnew : w.new ≠ []) (hreplaced : ∀ y ∈ replaced, w.start ≤ y.start)
    (hk : k ≤ w.start) : (∀ y ∈ w.image replaced x, ¬ y.Splits k) ↔ ¬ x.Splits k := by
  have hgrows := start_lt_newStop hnew
  have hle := w.start_le_stop
  unfold image
  split_ifs with hbefore hafter hwithin
  · simp
  · simp only [Option.mem_some_iff, forall_eq', Extent.Splits, After, moved] at hafter ⊢
    omega
  · simp only [Extent.Splits, Within] at hwithin ⊢
    refine iff_of_true (fun y hy hsplits => ?_) (by omega)
    have := hreplaced y hy
    omega
  · simp only [Option.mem_some_iff, forall_eq', Extent.Splits, Before, grown, moved] at hbefore ⊢
    omega

theorem image_splits_behind (hnew : w.new ≠ []) (hreplaced : ∀ y ∈ replaced, y.stop ≤ w.newStop)
    (hk : w.newStop ≤ k) : (∀ y ∈ w.image replaced x, ¬ y.Splits k) ↔ ¬ x.Splits (w.origin k) := by
  have hgrows := start_lt_newStop hnew
  have hle := w.start_le_stop
  unfold image
  split_ifs with hbefore hafter hwithin
  · simp only [Option.mem_some_iff, forall_eq', Extent.Splits, Before, origin] at hbefore ⊢
    omega
  · simp only [Option.mem_some_iff, forall_eq', Extent.Splits, After, moved, origin] at hafter ⊢
    omega
  · simp only [Extent.Splits, Within, origin] at hwithin ⊢
    refine iff_of_true (fun y hy hsplits => ?_) (by omega)
    have := hreplaced y hy
    omega
  · simp only [Option.mem_some_iff, forall_eq', Extent.Splits, After, grown, moved, origin] at hafter ⊢
    omega

theorem image_splits_inner (hreplaced : ∀ y ∈ replaced, ¬ y.Splits k) (hstart : w.start < k)
    (hstop : k < w.newStop) : (∀ y ∈ w.image replaced x, ¬ y.Splits k) ↔ ¬ w.Torn x := by
  have hle := w.start_le_stop
  unfold image Torn
  split_ifs with hbefore hafter hwithin
  · simp only [Option.mem_some_iff, forall_eq', Extent.Splits, Before] at hbefore ⊢
    refine iff_of_true (by omega) fun htorn => htorn.1 hbefore
  · simp only [Option.mem_some_iff, forall_eq', Extent.Splits, moved]
    refine iff_of_true (by omega) fun htorn => htorn.2.1 hafter
  · exact iff_of_true hreplaced fun htorn => htorn.2.2 hwithin
  · simp only [Option.mem_some_iff, forall_eq', Extent.Splits, grown, moved]
    refine iff_of_false (by omega) fun hwhole => hwhole ⟨hbefore, hafter, hwithin⟩

theorem image_stop_front (hnew : w.new ≠ []) (hx : x.start < x.stop) (hreplaced : ∀ y ∈ replaced, w.start < y.stop)
    (hk : k ≤ w.start) :
    (∀ y ∈ w.image replaced x, y.stop ≤ k) ↔ x.stop ≤ k ∨ w.Within x ∧ replaced = none := by
  have hgrows := start_lt_newStop hnew
  have hle := w.start_le_stop
  unfold image
  split_ifs with hbefore hafter hwithin
  · simp only [Option.mem_some_iff, forall_eq', Before, Within] at hbefore ⊢
    omega
  · simp only [Option.mem_some_iff, forall_eq', After, Within, moved] at hafter ⊢
    omega
  · have hstart := hwithin.1
    cases replaced with
    | none => exact iff_of_true (fun y hy => by cases hy) (.inr ⟨hwithin, rfl⟩)
    | some y =>
      have hy := hreplaced y rfl
      simp only [Option.mem_some_iff, forall_eq', reduceCtorEq, and_false, or_false]
      omega
  · simp only [Option.mem_some_iff, forall_eq', hwithin, false_and, or_false, Before, grown, moved] at hbefore ⊢
    omega

theorem image_stop_behind (hreplaced : ∀ y ∈ replaced, y.stop ≤ w.newStop) (hk : w.newStop ≤ k) :
    (∀ y ∈ w.image replaced x, y.stop ≤ k) ↔ x.stop ≤ w.origin k := by
  have hle := w.start_le_stop
  have hlength : w.start ≤ w.newStop := Nat.le_add_right _ _
  unfold image
  split_ifs with hbefore hafter hwithin
  · simp only [Option.mem_some_iff, forall_eq', Before, origin] at hbefore ⊢
    omega
  · simp only [Option.mem_some_iff, forall_eq', moved, After, origin] at hafter ⊢
    omega
  · simp only [Within, origin] at hwithin ⊢
    exact iff_of_true (fun y hy => (hreplaced y hy).trans hk) (by omega)
  · simp only [Option.mem_some_iff, forall_eq', grown, moved, origin]
    omega

theorem image_stop_inner (hx : x.start < x.stop) (hstart : w.start < k) (hstop : k < w.newStop) :
    (∀ y ∈ w.image replaced x, y.stop ≤ k) ↔ w.Before x ∨ w.Within x ∧ ∀ y ∈ replaced, y.stop ≤ k := by
  have hle := w.start_le_stop
  unfold image
  split_ifs with hbefore hafter hwithin
  · simp only [Option.mem_some_iff, forall_eq', Before] at hbefore ⊢
    omega
  · simp only [Option.mem_some_iff, forall_eq', After, Before, Within, moved] at hafter ⊢
    omega
  · exact ⟨fun h => .inr ⟨hwithin, h⟩, fun h => (h.resolve_left hbefore).2⟩
  · simp only [Option.mem_some_iff, forall_eq', hbefore, hwithin, false_and, or_self, iff_false, grown, moved]
    omega

end

end Splice

end TimeCodeSecurity.Splices
