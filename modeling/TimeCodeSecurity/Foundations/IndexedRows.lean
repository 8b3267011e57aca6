import TimeCodeSecurity.Foundations.Tables

/-! # Rows with an index

A list of rows with different keys and a dictionary from each key to the position of its row. Rows are only
added at the end, so a position that was read once stays right.
-/
namespace TimeCodeSecurity
open Tables
set_option autoImplicit false

variable {κ α : Type} [DecidableEq κ]

structure Indexed (key : α → κ) (rows : List α) (index : List (κ × ℕ)) : Prop where
  nodup : (rows.map key).Nodup
  lookup : ∀ k i, index.lookup k = some i ↔ (rows[i]?).map key = some k

theorem lookup_eq_none_iff_notMem {d : List (κ × ℕ)} {k : κ} :
    d.lookup k = none ↔ k ∉ d.map Prod.fst := by
  induction d with
  | nil => simp
  | cons e d ih =>
    obtain ⟨k', a⟩ := e
    by_cases h : k = k'
    · simp [h]
    · rw [List.lookup_cons, List.map_cons, List.mem_cons]
      have hne : (k == k') = false := beq_false_of_ne h
      rw [hne, ih]
      simp [h]

namespace Indexed

variable {key : α → κ} {rows : List α} {index : List (κ × ℕ)}

theorem nil : Indexed key [] [] where
  nodup := List.nodup_nil
  lookup := by simp

theorem mem_iff (h : Indexed key rows index) (k : κ) : (∃ i, index.lookup k = some i) ↔ k ∈ rows.map key := by
  constructor
  · intro ⟨i, hi⟩
    rw [h.lookup] at hi
    obtain ⟨row, hrow, hk⟩ := Option.map_eq_some_iff.mp hi
    exact List.mem_map.mpr ⟨row, List.mem_of_getElem? hrow, hk⟩
  · intro hk
    obtain ⟨row, hrow, hkey⟩ := List.mem_map.mp hk
    obtain ⟨i, hi⟩ := List.mem_iff_getElem?.mp hrow
    exact ⟨i, (h.lookup k i).mpr (by rw [hi, Option.map_some, hkey])⟩

theorem append (h : Indexed key rows index) {a : α} (hnew : index.lookup (key a) = none) :
    Indexed key (rows ++ [a]) (setItem index (key a) rows.length) where
  nodup := by
    rw [List.map_append]
    refine List.nodup_append.mpr ⟨h.nodup, List.nodup_singleton _, fun k hk k' hk' heq => ?_⟩
    rw [List.mem_singleton.mp hk'] at heq
    obtain ⟨i, hi⟩ := (h.mem_iff k).mpr hk
    rw [heq, hnew] at hi
    cases hi
  lookup := by
    intro k i
    have hset : setItem index (key a) rows.length = index ++ [(key a, rows.length)] :=
      setItem_of_notMem _ (lookup_eq_none_iff_notMem.mp hnew)
    rw [hset, List.lookup_append]
    by_cases hlt : i < rows.length
    · -- an old position
      rw [List.getElem?_append_left hlt, ← h.lookup]
      cases hk : index.lookup k with
      | some j => simp
      | none =>
        rw [Option.none_or, List.lookup_cons]
        refine iff_of_false (fun heq => ?_) (by simp)
        split at heq
        · cases heq
          exact Nat.lt_irrefl _ hlt
        · cases heq
    · rw [List.getElem?_append_right (Nat.not_lt.mp hlt)]
      have hold : index.lookup k ≠ some i := by
        rw [Ne, h.lookup, List.getElem?_eq_none (Nat.not_lt.mp hlt)]
        simp
      cases hk : index.lookup k with
      | some j =>
        rw [hk] at hold
        refine iff_of_false hold fun hrow => ?_
        obtain ⟨row, hrow, hkey⟩ := Option.map_eq_some_iff.mp hrow
        have hrow : row = a := List.mem_singleton.mp (List.mem_of_getElem? hrow)
        rw [← hkey, hrow, hnew] at hk
        cases hk
      | none =>
        rw [Option.none_or, List.lookup_cons]
        constructor
        · intro heq
          split at heq
          next hkey =>
            cases heq
            rw [Nat.sub_self, eq_of_beq hkey]
            rfl
          next => cases heq
        · intro hrow
          obtain ⟨row, hrow, hkey⟩ := Option.map_eq_some_iff.mp hrow
          have hzero : i - rows.length = 0 := by
            have hlt' := (List.getElem?_eq_some_iff.mp hrow).1
            rw [List.length_singleton] at hlt'
            omega
          have hi : i = rows.length := by omega
          rw [hzero] at hrow
          cases hrow
          rw [← hkey, hi]
          simp

theorem row_of_prefix {rows' : List α} (hle : rows <+: rows') {i : ℕ} {row : α} (h : rows[i]? = some row) :
    rows'[i]? = some row := by
  obtain ⟨more, rfl⟩ := hle
  rw [List.getElem?_append_left (List.getElem?_eq_some_iff.mp h).1, h]

end Indexed

/-- `{key(row): i for i, row in enumerate(rows)}`. -/
def enumerated (key : α → κ) (rows : List α) : List (κ × ℕ) :=
  setItems [] (rows.zipIdx.map fun r => (key r.1, r.2))

theorem indexed_enumerated {key : α → κ} {rows : List α} (h : (rows.map key).Nodup) :
    Indexed key rows (enumerated key rows) := by
  induction rows using List.reverseRecOn with
  | nil => exact Indexed.nil
  | append_singleton rows a ih =>
    rw [List.map_append, List.nodup_append] at h
    have ih := ih h.1
    have hstep : enumerated key (rows ++ [a]) = setItem (enumerated key rows) (key a) rows.length := by
      rw [enumerated, List.zipIdx_append, List.map_append, setItems, List.foldl_append, Nat.zero_add]
      rfl
    rw [hstep]
    refine ih.append ?_
    cases hk : (enumerated key rows).lookup (key a) with
    | none => rfl
    | some i =>
      have hmem := (ih.mem_iff (key a)).mp ⟨i, hk⟩
      exact absurd rfl (h.2.2 _ hmem _ (List.mem_singleton_self _))

end TimeCodeSecurity

/-! ## Numbered items

Items with ascending numbers come in groups. Where each item gives at most one value of its number, and each group at
most one of the number of its first item, the values of the items are those of the groups exactly when they are so in
each group.
-/
namespace TimeCodeSecurity.NumberedItems

theorem append_eq_append_iff_of_split {α : Type} (p : α → Prop) {a a' b b' : List α} (ha : ∀ x ∈ a, p x)
    (hb : ∀ x ∈ b, ¬p x) (ha' : ∀ x ∈ a', p x) (hb' : ∀ x ∈ b', ¬p x) :
    a ++ b = a' ++ b' ↔ a = a' ∧ b = b' := by
  classical
  have hfront : ∀ {u v : List α}, (∀ x ∈ u, p x) → (∀ x ∈ v, ¬p x) → (u ++ v).filter (fun x => p x) = u := by
    intro u v hu hv
    rw [List.filter_append, List.filter_eq_self.mpr fun x hx => decide_eq_true (hu x hx),
      List.filter_eq_nil_iff.mpr fun x hx => by simpa using hv x hx, List.append_nil]
  constructor
  · intro h
    have hsame : a = a' := by rw [← hfront ha hb, h, hfront ha' hb']
    subst hsame
    exact ⟨rfl, List.append_cancel_left h⟩
  · rintro ⟨rfl, rfl⟩
    rfl

variable {ι δ : Type} {number : ι → ℕ} {numberOf : δ → Option ℕ} {item : ι → Option δ} {group : List ι → Option δ}

theorem filterMap_group_iff {l : ι} {more : List ι} (hascending : (l :: more).Pairwise (number · < number ·))
    (hitem : ∀ l d, item l = some d → numberOf d = some (number l))
    (hgroup : ∀ l more d, group (l :: more) = some d → numberOf d = some (number l)) :
    (l :: more).filterMap item = (group (l :: more)).toList ↔
      item l = group (l :: more) ∧ ∀ k ∈ more, item k = none := by
  rw [List.pairwise_cons] at hascending
  rw [List.filterMap_cons]
  cases hl : item l with
  | some d =>
    dsimp only
    constructor
    · intro h
      cases hg : group (l :: more) with
      | none =>
        rw [hg] at h
        cases h
      | some d' =>
        rw [hg] at h
        obtain ⟨rfl, hrest⟩ := List.cons.inj h
        exact ⟨rfl, List.filterMap_eq_nil_iff.mp hrest⟩
    · rintro ⟨h, hrest⟩
      rw [← h, List.filterMap_eq_nil_iff.mpr hrest]
      rfl
  | none =>
    dsimp only
    constructor
    · intro h
      cases hg : group (l :: more) with
      | none =>
        rw [hg] at h
        exact ⟨rfl, List.filterMap_eq_nil_iff.mp h⟩
      | some d =>
        -- The value has the number of the first item, and comes from a later one.
        rw [hg] at h
        have hmem : d ∈ more.filterMap item := by
          rw [h]
          exact List.mem_singleton_self d
        obtain ⟨k, hk, hd⟩ := List.mem_filterMap.mp hmem
        have hlt := hascending.1 k hk
        have hsame := (hitem k d hd).symm.trans (hgroup l more d hg)
        rw [Option.some.inj hsame] at hlt
        omega
    · rintro ⟨h, hrest⟩
      rw [← h, List.filterMap_eq_nil_iff.mpr hrest]
      rfl

theorem filterMap_append_eq_iff {g : List ι} {groups : List (List ι)}
    (hbefore : ∀ l ∈ g, ∀ k ∈ groups.flatten, number l < number k)
    (hitem : ∀ l d, item l = some d → numberOf d = some (number l))
    (hgroup : ∀ l more d, group (l :: more) = some d → numberOf d = some (number l)) (hnil : group [] = none) :
    (g ++ groups.flatten).filterMap item = (g :: groups).filterMap group ↔
      g.filterMap item = (group g).toList ∧ groups.flatten.filterMap item = groups.filterMap group := by
  have hcons : (g :: groups).filterMap group = (group g).toList ++ groups.filterMap group := by
    rw [List.filterMap_cons]
    cases group g <;> rfl
  have hlater : ∀ k ∈ groups.flatten, ∀ l ∈ g, some (number k) ≠ some (number l) := by
    intro k hk l hl hsame
    have hlt := hbefore l hl k hk
    rw [Option.some.inj hsame] at hlt
    omega
  rw [List.filterMap_append, hcons]
  apply append_eq_append_iff_of_split fun d => ∃ l ∈ g, numberOf d = some (number l)
  · intro d hd
    obtain ⟨l, hl, hd⟩ := List.mem_filterMap.mp hd
    exact ⟨l, hl, hitem l d hd⟩
  · rintro d hd ⟨l, hl, hnumber⟩
    obtain ⟨k, hk, hd⟩ := List.mem_filterMap.mp hd
    exact hlater k hk l hl ((hitem k d hd).symm.trans hnumber)
  · intro d hd
    cases g with
    | nil =>
      rw [hnil] at hd
      cases hd
    | cons l more => exact ⟨l, List.mem_cons_self, hgroup l more d (by simpa using hd)⟩
  · rintro d hd ⟨l, hl, hnumber⟩
    obtain ⟨g', hg', hd⟩ := List.mem_filterMap.mp hd
    cases g' with
    | nil =>
      rw [hnil] at hd
      cases hd
    | cons k more =>
      have hk : k ∈ groups.flatten := List.mem_flatten.mpr ⟨_, hg', List.mem_cons_self⟩
      exact hlater k hk l hl ((hgroup k more d hd).symm.trans hnumber)

theorem filterMap_flatten_eq_iff {groups : List (List ι)}
    (hascending : groups.flatten.Pairwise (number · < number ·))
    (hitem : ∀ l d, item l = some d → numberOf d = some (number l))
    (hgroup : ∀ l more d, group (l :: more) = some d → numberOf d = some (number l)) (hnil : group [] = none) :
    groups.flatten.filterMap item = groups.filterMap group ↔
      ∀ l more, l :: more ∈ groups → item l = group (l :: more) ∧ ∀ k ∈ more, item k = none := by
  induction groups with
  | nil => simp
  | cons g groups ih =>
    rw [List.flatten_cons, List.pairwise_append] at hascending
    obtain ⟨hown, hrest, hbefore⟩ := hascending
    rw [List.flatten_cons, filterMap_append_eq_iff hbefore hitem hgroup hnil, ih hrest]
    cases g with
    | nil => simp [hnil]
    | cons l more =>
      rw [filterMap_group_iff hown hitem hgroup]
      constructor
      · rintro ⟨hfirst, hothers⟩ k others hmem
        rcases List.mem_cons.mp hmem with h | h
        · obtain ⟨rfl, rfl⟩ := List.cons.inj h
          exact hfirst
        · exact hothers k others h
      · intro h
        exact ⟨h l more List.mem_cons_self, fun k others hmem => h k others (List.mem_cons_of_mem _ hmem)⟩

end TimeCodeSecurity.NumberedItems
