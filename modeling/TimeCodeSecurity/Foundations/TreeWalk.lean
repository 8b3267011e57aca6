import Mathlib.Algebra.Order.BigOperators.Group.List
import Mathlib.Algebra.Order.Ring.Nat

/-! # Walks over finite trees

A type of nodes with a list of children for each, and a size that bounds the sizes of the children
together. Breadth-first and depth-first walks are loops over a queue and a stack; with enough fuel they
visit the nodes below the start and nothing else.
-/
namespace TimeCodeSecurity.TreeWalk
set_option autoImplicit false

variable {α : Type} (children : α → List α)

/-- `todo = deque([...]); while todo: node = todo.popleft(); todo.extend(children); yield node`. -/
def queue : ℕ → List α → List α
  | 0, _ => []
  | _, [] => []
  | fuel + 1, a :: todo => a :: queue fuel (todo ++ children a)

def stack : ℕ → List α → List α
  | 0, _ => []
  | _, [] => []
  | fuel + 1, a :: todo => a :: stack fuel (children a ++ todo)

/-- `b` is `a` or stands below it. -/
abbrev Below : α → α → Prop := Relation.ReflTransGen fun a b => b ∈ children a

def Sized (size : α → ℕ) : Prop := ∀ a, ((children a).map size).sum < size a

variable {children} {size : α → ℕ}

theorem Sized.lt_of_mem (h : Sized children size) {a b : α} (hb : b ∈ children a) :
    size b < size a := by
  have hle : size b ≤ ((children a).map size).sum :=
    List.single_le_sum (fun _ _ => Nat.zero_le _) _ (List.mem_map.mpr ⟨b, hb, rfl⟩)
  exact hle.trans_lt (h a)

theorem Sized.induction (h : Sized children size) {motive : α → Prop}
    (step : ∀ a, (∀ b ∈ children a, motive b) → motive a) (a : α) : motive a := by
  induction hn : size a using Nat.strong_induction_on generalizing a with
  | _ n ih => exact step a fun b hb => ih (size b) (hn ▸ h.lt_of_mem hb) b rfl

theorem below_iff {a b : α} : Below children a b ↔ b = a ∨ ∃ c ∈ children a, Below children c b := by
  constructor
  · intro h
    rcases Relation.ReflTransGen.cases_head h with rfl | ⟨c, hc, hcb⟩
    · exact .inl rfl
    · exact .inr ⟨c, hc, hcb⟩
  · rintro (rfl | ⟨c, hc, hcb⟩)
    · exact .refl
    · exact .head hc hcb

theorem mem_queue_iff (h : Sized children size) {fuel : ℕ} {todo : List α}
    (hfuel : (todo.map size).sum ≤ fuel) {b : α} :
    b ∈ queue children fuel todo ↔ ∃ a ∈ todo, Below children a b := by
  induction fuel generalizing todo with
  | zero =>
    cases todo with
    | nil => simp [queue]
    | cons a todo =>
      have hpos := (Nat.zero_le _).trans_lt (h a)
      simp only [List.map_cons, List.sum_cons] at hfuel
      omega
  | succ fuel ih =>
    cases todo with
    | nil => simp [queue]
    | cons a todo =>
      have hlt := h a
      have hrest : (((todo ++ children a)).map size).sum ≤ fuel := by
        simp only [List.map_cons, List.sum_cons, List.map_append, List.sum_append] at hfuel ⊢
        omega
      simp only [queue, List.mem_cons, ih hrest, List.mem_append, exists_eq_or_imp]
      rw [below_iff]
      constructor
      · rintro (rfl | ⟨c, hc | hc, hcb⟩)
        · exact .inl (.inl rfl)
        · exact .inr ⟨c, hc, hcb⟩
        · exact .inl (.inr ⟨c, hc, hcb⟩)
      · rintro ((rfl | ⟨c, hc, hcb⟩) | ⟨c, hc, hcb⟩)
        · exact .inl rfl
        · exact .inr ⟨c, .inr hc, hcb⟩
        · exact .inr ⟨c, .inl hc, hcb⟩

variable (children size) in
/-- The nodes below `a`, each as often as it occurs. -/
def listing (a : α) : List α := stack children (size a) [a]

theorem stack_eq_flatMap (h : Sized children size) {fuel : ℕ} {todo : List α}
    (hfuel : (todo.map size).sum ≤ fuel) :
    stack children fuel todo = todo.flatMap (listing children size) := by
  induction fuel using Nat.strong_induction_on generalizing todo with
  | _ fuel ih =>
    cases todo with
    | nil => cases fuel <;> rfl
    | cons a todo =>
      have hlt := h a
      simp only [List.map_cons, List.sum_cons] at hfuel
      obtain ⟨fuel, rfl⟩ : ∃ n, fuel = n + 1 := ⟨fuel - 1, by omega⟩
      obtain ⟨own, hown⟩ : ∃ n, size a = n + 1 := ⟨size a - 1, by omega⟩
      have hlisting : listing children size a = a :: (children a).flatMap (listing children size) := by
        rw [listing, hown, stack, List.append_nil, ih own (by omega) (by omega)]
      rw [stack, ih fuel (by omega) (by simp only [List.map_append, List.sum_append]; omega),
        List.flatMap_cons, hlisting, List.flatMap_append, List.cons_append]

theorem listing_eq (h : Sized children size) (a : α) :
    listing children size a = a :: (children a).flatMap (listing children size) := by
  have hlt := h a
  obtain ⟨own, hown⟩ : ∃ n, size a = n + 1 := ⟨size a - 1, by omega⟩
  rw [listing, hown, stack, List.append_nil, stack_eq_flatMap h (by omega)]

theorem queue_perm (h : Sized children size) {fuel : ℕ} {todo : List α}
    (hfuel : (todo.map size).sum ≤ fuel) :
    (queue children fuel todo).Perm (todo.flatMap (listing children size)) := by
  induction fuel generalizing todo with
  | zero =>
    cases todo with
    | nil => exact .refl _
    | cons a todo =>
      have hpos := (Nat.zero_le _).trans_lt (h a)
      simp only [List.map_cons, List.sum_cons] at hfuel
      omega
  | succ fuel ih =>
    cases todo with
    | nil => exact .refl _
    | cons a todo =>
      have hlt := h a
      have hrest : ((todo ++ children a).map size).sum ≤ fuel := by
        simp only [List.map_cons, List.sum_cons, List.map_append, List.sum_append] at hfuel ⊢
        omega
      rw [queue, List.flatMap_cons, listing_eq h, List.cons_append]
      refine ((ih hrest).trans ?_).cons a
      rw [List.flatMap_append]
      exact List.perm_append_comm

theorem listing_map {β : Type} {children' : β → List β} {size' : β → ℕ}
    (h : Sized children size) (h' : Sized children' size') {f : α → β} {P : α → Prop}
    (hclosed : ∀ a, P a → ∀ b ∈ children a, P b) (hf : ∀ a, P a → children' (f a) = (children a).map f)
    (a : α) (ha : P a) : listing children' size' (f a) = (listing children size a).map f := by
  induction a using h.induction with
  | step a ih =>
    rw [listing_eq h, listing_eq h', hf a ha, List.map_cons, List.flatMap_map, List.map_flatMap]
    congr 1
    exact List.flatMap_congr fun b hb => ih b hb (hclosed a ha b hb)

end TimeCodeSecurity.TreeWalk

/-! ## Depths in a tree

What the walks over a stack meet, and the walk that counts how many nodes of a kind it has gone through: at depth 0 it
meets what a walk meets that does not go through them.
-/
namespace TimeCodeSecurity.TreeWalk

variable {α : Type} {children : α → List α} {size : α → ℕ}

theorem mem_flatMap_listing_iff (h : Sized children size) {todo : List α} {b : α} :
    b ∈ todo.flatMap (listing children size) ↔ ∃ a ∈ todo, Below children a b := by
  rw [← (queue_perm h (Nat.le_refl _)).mem_iff, mem_queue_iff h (Nat.le_refl _)]

theorem mem_stack_iff (h : Sized children size) {fuel : ℕ} {todo : List α}
    (hfuel : (todo.map size).sum ≤ fuel) {b : α} :
    b ∈ stack children fuel todo ↔ ∃ a ∈ todo, Below children a b := by
  rw [stack_eq_flatMap h hfuel, mem_flatMap_listing_iff h]

section
variable (children) (deeper : α → Bool)

def depthChildren (p : α × ℕ) : List (α × ℕ) :=
  (children p.1).map fun c => (c, if deeper p.1 then p.2 + 1 else p.2)

def shallowChildren (a : α) : List α := if deeper a then [] else children a

variable {children}

theorem sized_depthChildren (h : Sized children size) :
    Sized (depthChildren children deeper) fun p => size p.1 := by
  intro p
  have hlt := h p.1
  rw [depthChildren, List.map_map]
  exact hlt

theorem sized_shallowChildren (h : Sized children size) : Sized (shallowChildren children deeper) size := by
  intro a
  have hlt := h a
  rw [shallowChildren]
  split
  · simp only [List.map_nil, List.sum_nil]
    omega
  · exact hlt

theorem map_fst_listing_depth (h : Sized children size) (p : α × ℕ) :
    (listing (depthChildren children deeper) (fun p => size p.1) p).map Prod.fst = listing children size p.1 := by
  symm
  apply listing_map (sized_depthChildren deeper h) h (P := fun _ => True) (fun _ _ _ _ => trivial)
  · intro p _
    rw [depthChildren, List.map_map]
    exact (List.map_id _).symm
  · trivial

theorem depth_le_of_mem_listing (h : Sized children size) (p : α × ℕ) :
    ∀ q ∈ listing (depthChildren children deeper) (fun p => size p.1) p, p.2 ≤ q.2 := by
  induction p using (sized_depthChildren deeper h).induction with
  | step p ih =>
    intro q hq
    rw [listing_eq (sized_depthChildren deeper h), List.mem_cons, List.mem_flatMap] at hq
    rcases hq with rfl | ⟨c, hc, hq⟩
    · exact Nat.le_refl _
    · have hstep : p.2 ≤ c.2 := by
        obtain ⟨b, -, rfl⟩ := List.mem_map.mp hc
        show p.2 ≤ if deeper p.1 then p.2 + 1 else p.2
        split <;> omega
      exact hstep.trans (ih c hc q hq)

theorem filter_listing_depth (h : Sized children size) (a : α) :
    ((listing (depthChildren children deeper) (fun p => size p.1) (a, 0)).filter fun p => p.2 = 0).map Prod.fst =
      listing (shallowChildren children deeper) size a := by
  induction a using h.induction with
  | step a ih =>
    rw [listing_eq (sized_depthChildren deeper h), listing_eq (sized_shallowChildren deeper h), depthChildren, shallowChildren]
    by_cases hdeep : deeper a = true
    · have hnone : (((children a).map fun c => (c, 0 + 1)).flatMap
          (listing (depthChildren children deeper) fun p => size p.1)).filter (fun p => p.2 = 0) = [] := by
        rw [List.filter_eq_nil_iff]
        intro q hq hzero
        obtain ⟨p, hp, hq⟩ := List.mem_flatMap.mp hq
        obtain ⟨c, -, rfl⟩ := List.mem_map.mp hp
        have hle := depth_le_of_mem_listing deeper h _ q hq
        have hzero : q.2 = 0 := of_decide_eq_true hzero
        simp only at hle
        omega
      simp only [hdeep, if_true, List.filter_cons, decide_true, hnone]
      rfl
    · simp only [hdeep, List.filter_cons, decide_true, if_true, List.map_cons, List.flatMap_map,
        List.filter_flatMap, List.map_flatMap]
      exact congrArg (a :: ·) (List.flatMap_congr fun c hc => ih c hc)

end

end TimeCodeSecurity.TreeWalk

/-! ## What comes before in a tree

The order in which a depth-first walk meets the nodes: a node before what is below it, and what is below
an earlier child before what is below a later one.
-/
namespace TimeCodeSecurity.TreeWalk

variable {α : Type} (children : α → List α)

/-- In the trees `ts`, in order, `m` is met before `c`. -/
inductive Before : List α → α → α → Prop
  | above {ts t k c} (ht : t ∈ ts) (hk : k ∈ children t) (hc : Below children k c) : Before ts t c
  | apart {left right t u m c} (hu : u ∈ right) (hm : Below children t m) (hc : Below children u c) :
      Before (left ++ t :: right) m c
  | inside {ts t m c} (ht : t ∈ ts) (h : Before (children t) m c) : Before ts m c

variable {children}

theorem Before.exists_root {ts : List α} {m c : α} (h : Before children ts m c) :
    ∃ t ∈ ts, Below children t m := by
  induction h with
  | above ht => exact ⟨_, ht, .refl⟩
  | @apart left right t u m c hu hm => exact ⟨t, by simp, hm⟩
  | inside ht _ ih =>
    obtain ⟨k, hk, hkm⟩ := ih
    exact ⟨_, ht, .head hk hkm⟩

theorem Below.map {β : Type} {children' : β → List β} {f : α → β}
    (hf : ∀ a, ∀ b ∈ children a, Below children' (f a) (f b)) {a b : α} (h : Below children a b) :
    Below children' (f a) (f b) := by
  induction h with
  | refl => exact .refl
  | tail _ hb ih => exact ih.trans (hf _ _ hb)

end TimeCodeSecurity.TreeWalk
