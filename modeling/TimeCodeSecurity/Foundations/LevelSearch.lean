import Mathlib.Algebra.Order.BigOperators.Group.List
import Mathlib.Algebra.Order.Group.Nat
import Mathlib.Data.Nat.Find
import Mathlib.Algebra.GroupWithZero.Nat

/-! # Search by levels

A breadth-first search that pops an item, passes over those it has seen and puts the successors of the others behind
the rest (`Search`). It ends over finitely many items, and what it finds is the first item of the first level that has
one.
-/
namespace LevelSearch
set_option autoImplicit false

variable {α : Type} [DecidableEq α] (found : α → Bool) (next : α → List α)

/-- The loop on the pending and the seen items, with what it returns. -/
inductive Search : List α → List α → Option α → Prop
  | done {seen : List α} : Search [] seen none
  | again {x : α} {pending seen : List α} {r : Option α} : x ∈ seen → Search pending seen r →
      Search (x :: pending) seen r
  | hit {x : α} {pending seen : List α} : x ∉ seen → found x → Search (x :: pending) seen (some x)
  | onward {x : α} {pending seen : List α} {r : Option α} : x ∉ seen → ¬found x →
      Search (pending ++ (next x).filter (· ∉ x :: seen)) (x :: seen) r → Search (x :: pending) seen r

def search : ℕ → List α → List α → Option α
  | 0, _, _ => none
  | _, [], _ => none
  | fuel + 1, x :: pending, seen =>
    if x ∈ seen then search fuel pending seen
    else if found x then some x
    else search fuel (pending ++ (next x).filter (· ∉ x :: seen)) (x :: seen)

def weight (items seen : List α) : ℕ := (items.map fun y => if y ∈ seen then 0 else (next y).length).sum

theorem weight_cons_le (items seen : List α) (x : α) : weight next items (x :: seen) ≤ weight next items seen := by
  refine List.sum_le_sum fun y _ => ?_
  by_cases hy : y ∈ seen
  · rw [if_pos (List.mem_cons_of_mem x hy)]
    exact Nat.zero_le _
  · rw [if_neg hy]
    split
    · exact Nat.zero_le _
    · exact le_rfl

theorem weight_cons {items seen : List α} {x : α} (hx : x ∉ seen) (hmem : next x ≠ [] → x ∈ items) :
    weight next items (x :: seen) + (next x).length ≤ weight next items seen := by
  by_cases hempty : next x = []
  · rw [hempty, List.length_nil, Nat.add_zero]
    exact weight_cons_le next items seen x
  · replace hmem := hmem hempty
    induction items with
    | nil => cases hmem
    | cons y items ih =>
      have hstep : ∀ seen, weight next (y :: items) seen =
          (if y ∈ seen then 0 else (next y).length) + weight next items seen := fun _ => List.sum_cons
      rw [hstep, hstep]
      by_cases hyx : y = x
      · have hle := weight_cons_le next items seen x
        rw [hyx, if_pos List.mem_cons_self, if_neg hx]
        omega
      · have hrest := ih ((List.mem_cons.mp hmem).resolve_left (Ne.symm hyx))
        by_cases hy : y ∈ seen
        · rw [if_pos (List.mem_cons_of_mem x hy), if_pos hy]
          omega
        · rw [if_neg fun h => (List.mem_cons.mp h).elim hyx hy, if_neg hy]
          omega

theorem search_spec {items : List α} (hall : ∀ x, next x ≠ [] → x ∈ items) {fuel : ℕ} {pending seen : List α}
    (hfuel : pending.length + weight next items seen ≤ fuel) :
    Search found next pending seen (search found next fuel pending seen) := by
  induction fuel generalizing pending seen with
  | zero =>
    obtain rfl : pending = [] := List.length_eq_zero_iff.mp (by omega)
    exact .done
  | succ fuel ih =>
    cases pending with
    | nil => exact .done
    | cons x pending =>
      rw [List.length_cons] at hfuel
      rw [search]
      by_cases hseen : x ∈ seen
      · rw [if_pos hseen]
        exact .again hseen (ih (by omega))
      · rw [if_neg hseen]
        by_cases hfound : found x = true
        · rw [if_pos hfound]
          exact .hit hseen hfound
        · rw [if_neg hfound]
          have hpush := List.length_filter_le (fun y => decide (y ∉ x :: seen)) (next x)
          have hweight := weight_cons next hseen (hall x)
          refine .onward hseen hfound (ih ?_)
          rw [List.length_append]
          omega

/-- The items after `n` steps from a list, with repetitions. -/
def level : List α → ℕ → List α
  | start, 0 => start
  | start, n + 1 => level (start.flatMap next) n

def FirstAt (start : List α) (g : α) : Prop :=
  ∃ n inner outer, level next start n = inner ++ g :: outer ∧ found g ∧ (∀ e ∈ inner, ¬found e) ∧
    ∀ m < n, ∀ e ∈ level next start m, ¬found e

def ReachedBefore (start : List α) (f e : α) : Prop :=
  ∀ n inner outer, level next start n = inner ++ e :: outer → f ∈ inner ∨ ∃ m < n, f ∈ level next start m

def visits : ℕ → List α → List α
  | 0, _ => []
  | _, [] => []
  | k + 1, x :: pending => x :: visits k (pending ++ next x)

omit [DecidableEq α] in
theorem visits_append (start rest : List α) (k : ℕ) :
    visits next (start.length + k) (start ++ rest) = start ++ visits next k (rest ++ start.flatMap next) := by
  induction start generalizing rest with
  | nil => rw [List.length_nil, Nat.zero_add, List.nil_append, List.flatMap_nil, List.append_nil, List.nil_append]
  | cons x start ih =>
    rw [List.length_cons, Nat.add_right_comm, List.cons_append, visits, List.append_assoc, ih, List.flatMap_cons,
      List.append_assoc, List.cons_append]

omit [DecidableEq α] in
theorem exists_visits_of_firstAt {start : List α} {g : α} (h : FirstAt found next start g) :
    ∃ k, (visits next k start).find? found = some g := by
  obtain ⟨n, inner, outer, hlevel, hg, hinner, hbefore⟩ := h
  induction n generalizing start with
  | zero =>
    refine ⟨start.length + 0, ?_⟩
    have hvisits := visits_append next start [] 0
    rw [List.append_nil, visits, List.append_nil] at hvisits
    rw [hvisits]
    refine List.find?_eq_some_iff_append.mpr ⟨hg, inner, outer, hlevel, fun e he => ?_⟩
    simpa using hinner e he
  | succ n ih =>
    obtain ⟨k, hk⟩ := ih hlevel fun m hm e he => hbefore (m + 1) (by omega) e he
    refine ⟨start.length + k, ?_⟩
    have hvisits := visits_append next start [] k
    rw [List.append_nil, List.nil_append] at hvisits
    have hnone : start.find? found = none := by
      rw [List.find?_eq_none]
      exact fun e he => hbefore 0 (by omega) e he
    rw [hvisits, List.find?_append, hnone, Option.none_or, hk]

omit [DecidableEq α] in
theorem exists_firstAt {start : List α} {n : ℕ} {e : α} (he : e ∈ level next start n) (hfound : found e) :
    ∃ g, FirstAt found next start g := by
  classical
  have hex : ∃ n, ∃ e ∈ level next start n, found e := ⟨n, e, he, hfound⟩
  obtain ⟨d, hd, hdfound⟩ := Nat.find_spec hex
  obtain ⟨g, hg⟩ : ∃ g, (level next start (Nat.find hex)).find? found = some g :=
    Option.isSome_iff_exists.mp (List.find?_isSome.mpr ⟨d, hd, hdfound⟩)
  obtain ⟨hgfound, inner, outer, hsplit, hinner⟩ := List.find?_eq_some_iff_append.mp hg
  refine ⟨g, _, inner, outer, hsplit, hgfound, fun x hx => ?_, fun m hm x hx hxfound => ?_⟩
  · simpa using hinner x hx
  · exact Nat.find_min hex hm ⟨x, hx, hxfound⟩

omit [DecidableEq α] in
variable {found} in
theorem firstAt_iff_reachedBefore {start : List α} {n : ℕ} {f : α} (hf : f ∈ level next start n) (hfound : found f) :
    FirstAt found next start f ↔
      ∀ e, (∃ n, e ∈ level next start n) → found e → e ≠ f → ReachedBefore next start f e := by
  constructor
  · rintro ⟨d, before, after, hsplit, -, hbefore, hlevels⟩ e - he hne n inner outer hlevel
    rcases lt_trichotomy d n with hlt | rfl | hlt
    · exact .inr ⟨d, hlt, hsplit ▸ List.mem_append_right _ List.mem_cons_self⟩
    · left
      rw [hsplit] at hlevel
      rcases List.append_eq_append_iff.mp hlevel with ⟨mid, hinner, hrest⟩ | ⟨mid, hmid, hrest⟩
      · cases mid with
        | nil => exact absurd (List.cons.inj hrest).1.symm hne
        | cons g mid =>
          rw [hinner, (List.cons.inj hrest).1]
          exact List.mem_append_right _ List.mem_cons_self
      · cases mid with
        | nil => exact absurd (List.cons.inj hrest).1 hne
        | cons g mid =>
          refine absurd he (hbefore e ?_)
          rw [hmid, (List.cons.inj hrest).1]
          exact List.mem_append_right _ List.mem_cons_self
    · exact absurd he (hlevels n hlt e (hlevel ▸ List.mem_append_right _ List.mem_cons_self))
  · intro h
    obtain ⟨g, hg⟩ := exists_firstAt found next hf hfound
    by_cases hgf : g = f
    · exact hgf ▸ hg
    · obtain ⟨d, before, after, hsplit, hgfound, hbefore, hlevels⟩ := hg
      have hmem : g ∈ level next start d := hsplit ▸ List.mem_append_right _ List.mem_cons_self
      rcases h g ⟨d, hmem⟩ hgfound hgf d before after hsplit with hin | ⟨m, hm, hin⟩
      · exact absurd hfound (hbefore f hin)
      · exact absurd hfound (hlevels m hm f hin)

/-! ## The search and the visits -/

inductive Thinned : List α → List α → List α → Prop
  | nil {seen : List α} : Thinned seen [] []
  | keep {seen kept all : List α} {x : α} : Thinned (x :: seen) kept all → Thinned seen (x :: kept) (x :: all)
  | drop {seen kept all : List α} {x : α} : x ∈ seen → Thinned seen kept all → Thinned seen kept (x :: all)

omit [DecidableEq α] in
theorem Thinned.mono {seen seen' kept all : List α} (h : Thinned seen kept all) (hsub : ∀ x ∈ seen, x ∈ seen') :
    Thinned seen' kept all := by
  induction h generalizing seen' with
  | nil => exact .nil
  | keep _ ih =>
    refine .keep (ih fun x hx => ?_)
    exact List.mem_cons.mpr ((List.mem_cons.mp hx).imp_right (hsub x))
  | drop hx _ ih => exact .drop (hsub _ hx) (ih hsub)

omit [DecidableEq α] in
theorem Thinned.append {seen kept all kept' all' : List α} (h : Thinned seen kept all)
    (h' : Thinned (seen ++ kept) kept' all') : Thinned seen (kept ++ kept') (all ++ all') := by
  induction h with
  | nil => simpa using h'
  | keep _ ih =>
    refine .keep (ih (h'.mono fun x hx => ?_))
    simp only [List.mem_append, List.mem_cons] at hx ⊢
    tauto
  | drop hx _ ih => exact .drop hx (ih h')

omit [DecidableEq α] in
theorem Thinned.dropAll {seen all : List α} (h : ∀ x ∈ all, x ∈ seen) : Thinned seen [] all := by
  induction all with
  | nil => exact .nil
  | cons x all ih =>
    exact .drop (h x List.mem_cons_self) (ih fun y hy => h y (List.mem_cons_of_mem _ hy))

theorem Thinned.filter (seen all : List α) : Thinned seen (all.filter (· ∉ seen)) all := by
  induction all with
  | nil => exact .nil
  | cons x all ih =>
    by_cases hx : x ∈ seen
    · rw [List.filter_cons_of_neg (by simpa using hx)]
      exact .drop hx ih
    · rw [List.filter_cons_of_pos (by simpa using hx)]
      exact .keep (ih.mono fun y hy => List.mem_cons_of_mem _ hy)

variable {found next}

theorem Search.eq_of_visits {pending seen queue : List α} {r : Option α} (h : Search found next pending seen r)
    (hthin : Thinned seen pending queue) (hclosed : ∀ s ∈ seen, ∀ y ∈ next s, y ∈ seen ∨ y ∈ pending)
    (hnone : ∀ s ∈ seen, ¬found s) {k : ℕ} {g : α} (hg : (visits next k queue).find? found = some g) :
    r = some g := by
  induction k generalizing pending seen queue r with
  | zero => cases hg
  | succ k ih =>
    cases hthin with
    | nil => cases hg
    | @drop _ _ queue x hx hthin =>
      rw [visits, List.find?_cons_of_neg (hnone x hx)] at hg
      refine ih h ?_ hclosed hnone hg
      have hstale : Thinned (seen ++ pending) [] (next x) := Thinned.dropAll fun y hy =>
        List.mem_append.mpr (hclosed x hx y hy)
      simpa using hthin.append hstale
    | @keep _ pending queue x hthin =>
      rw [visits] at hg
      cases h with
      | again hseen h =>
        have hclosed' : ∀ s ∈ seen, ∀ y ∈ next s, y ∈ seen ∨ y ∈ pending := by
          intro s hs y hy
          rcases hclosed s hs y hy with hmem | hmem
          · exact .inl hmem
          · rcases List.mem_cons.mp hmem with rfl | hmem
            · exact .inl hseen
            · exact .inr hmem
        rw [List.find?_cons_of_neg (hnone x hseen)] at hg
        refine ih h ?_ hclosed' hnone hg
        have hstale : Thinned (seen ++ pending) [] (next x) := Thinned.dropAll fun y hy =>
          List.mem_append.mpr (hclosed' x hseen y hy)
        have hkept : Thinned seen pending queue := hthin.mono fun y hy => by
          rcases List.mem_cons.mp hy with rfl | hy
          · exact hseen
          · exact hy
        simpa using hkept.append hstale
      | hit _ hfound => rwa [List.find?_cons_of_pos hfound] at hg
      | onward hseen hfound h =>
        rw [List.find?_cons_of_neg hfound] at hg
        refine ih h ?_ ?_ ?_ hg
        · refine hthin.append ((Thinned.filter (x :: seen) (next x)).mono fun y hy => ?_)
          exact List.mem_append_left _ hy
        · intro s hs y hy
          by_cases hyseen : y ∈ x :: seen
          · exact .inl hyseen
          · refine .inr (List.mem_append.mpr ?_)
            rcases List.mem_cons.mp hs with rfl | hs
            · exact .inr (List.mem_filter.mpr ⟨hy, by simpa using hyseen⟩)
            · rcases hclosed s hs y hy with hmem | hmem
              · exact absurd (List.mem_cons_of_mem _ hmem) hyseen
              · rcases List.mem_cons.mp hmem with rfl | hmem
                · exact absurd List.mem_cons_self hyseen
                · exact .inl hmem
        · intro s hs
          rcases List.mem_cons.mp hs with rfl | hs
          · exact hfound
          · exact hnone s hs

omit [DecidableEq α] in
theorem level_flatMap (start : List α) (n : ℕ) : level next start n = start.flatMap fun x => level next [x] n := by
  induction n generalizing start with
  | zero => simp [level]
  | succ n ih =>
    rw [level, ih, List.flatMap_assoc]
    refine List.flatMap_congr fun x _ => ?_
    rw [level, List.flatMap_singleton, ih (next x)]

omit [DecidableEq α] in
theorem mem_level_iff {start : List α} {n : ℕ} {y : α} :
    y ∈ level next start n ↔ ∃ x ∈ start, y ∈ level next [x] n := by
  rw [level_flatMap, List.mem_flatMap]

theorem Search.sound {pending seen : List α} {g : α} (h : Search found next pending seen (some g)) :
    found g ∧ ∃ n, g ∈ level next pending n := by
  generalize hr : some g = r at h
  induction h with
  | done => cases hr
  | again _ _ ih =>
    obtain ⟨hg, n, hn⟩ := ih hr
    obtain ⟨x, hx, hgx⟩ := mem_level_iff.mp hn
    exact ⟨hg, n, mem_level_iff.mpr ⟨x, List.mem_cons_of_mem _ hx, hgx⟩⟩
  | hit _ hfound =>
    obtain rfl := Option.some.inj hr
    exact ⟨hfound, 0, List.mem_cons_self⟩
  | @onward x pending seen r _ _ _ ih =>
    obtain ⟨hg, n, hn⟩ := ih hr
    obtain ⟨y, hy, hgy⟩ := mem_level_iff.mp hn
    refine ⟨hg, ?_⟩
    rcases List.mem_append.mp hy with hy | hy
    · exact ⟨n, mem_level_iff.mpr ⟨y, List.mem_cons_of_mem _ hy, hgy⟩⟩
    · refine ⟨n + 1, mem_level_iff.mpr ⟨x, List.mem_cons_self, ?_⟩⟩
      rw [level, List.flatMap_singleton]
      exact mem_level_iff.mpr ⟨y, List.mem_of_mem_filter hy, hgy⟩

theorem Search.eq_some_iff {start : List α} {r : Option α} (h : Search found next start [] r) {g : α} :
    r = some g ↔ FirstAt found next start g := by
  have hrefl : ∀ (seen l : List α), Thinned seen l l := by
    intro seen l
    induction l generalizing seen with
    | nil => exact .nil
    | cons x l ih => exact .keep (ih _)
  have hfirst : ∀ {g}, FirstAt found next start g → r = some g := by
    intro g hg
    obtain ⟨k, hk⟩ := exists_visits_of_firstAt found next hg
    exact h.eq_of_visits (hrefl [] start) (by simp) (by simp) hk
  constructor
  · intro hr
    subst hr
    obtain ⟨hg, n, hn⟩ := h.sound
    obtain ⟨g', hg'⟩ := exists_firstAt found next hn hg
    obtain rfl := Option.some.inj (hfirst hg')
    exact hg'
  · exact hfirst

theorem Search.eq_none_iff {start : List α} {r : Option α} (h : Search found next start [] r) :
    r = none ↔ ∀ n, ∀ e ∈ level next start n, ¬found e := by
  constructor
  · rintro rfl n e he hfound
    obtain ⟨g, hg⟩ := exists_firstAt found next he hfound
    cases h.eq_some_iff.mpr hg
  · intro hnone
    cases r with
    | none => rfl
    | some g =>
      obtain ⟨hg, n, hn⟩ := h.sound
      exact absurd hg (hnone n g hn)

end LevelSearch
