import Mathlib.Data.List.AList
import Mathlib.Data.List.Infix
import Mathlib.Data.Set.Basic

/-! # Dictionaries, and tables filled entry by entry

A dictionary is an association list with distinct keys, in the order of insertion. Where only look-ups
matter the order of the entries is of no consequence. A key that comes a second time replaces the first
entry, so the table keeps all the entries it was given exactly when their keys are different.
-/
namespace TimeCodeSecurity
set_option autoImplicit false

abbrev DictOf (κ α : Type) := AList fun _ : κ => α

/-- The usual case: string keys. -/
abbrev Dict (α : Type) := DictOf String α

namespace DictOf

variable {κ α : Type}

/-- The items in order. -/
def items (d : DictOf κ α) : List (κ × α) := d.entries.map fun e => (e.1, e.2)

theorem mem_items_iff [DecidableEq κ] {d : DictOf κ α} {k : κ} {a : α} :
    (k, a) ∈ d.items ↔ d.lookup k = some a := by
  rw [← Option.mem_def, AList.mem_lookup_iff, items, List.mem_map]
  constructor
  · rintro ⟨⟨k', a'⟩, he, h⟩
    obtain ⟨rfl, rfl⟩ := Prod.mk.inj h
    exact he
  · exact fun he => ⟨⟨k, a⟩, he, rfl⟩

theorem lookup_insert_eq [DecidableEq κ] (d : DictOf κ α) (k k' : κ) (a : α) :
    (d.insert k a).lookup k' = if k' = k then some a else d.lookup k' := by
  split
  next h => rw [h, AList.lookup_insert]
  next h => exact AList.lookup_insert_ne h

end DictOf

/-- `d[k] = a` on the items: a key keeps its place and takes the new value. -/
def setItem {κ α : Type} [DecidableEq κ] (items : List (κ × α)) (k : κ) (a : α) : List (κ × α) :=
  if items.any (·.1 = k) then items.map fun e => if e.1 = k then (k, a) else e
  else items ++ [(k, a)]

end TimeCodeSecurity

namespace TimeCodeSecurity.Tables

variable {κ α : Type} [DecidableEq κ]

def setItems (d kvs : List (κ × α)) : List (κ × α) := kvs.foldl (fun d e => setItem d e.1 e.2) d

theorem any_key_iff (d : List (κ × α)) (k : κ) : d.any (·.1 = k) = true ↔ k ∈ d.map Prod.fst := by
  simp

theorem keys_setItem (d : List (κ × α)) (k : κ) (a : α) :
    (setItem d k a).map Prod.fst =
      if k ∈ d.map Prod.fst then d.map Prod.fst else d.map Prod.fst ++ [k] := by
  by_cases hk : k ∈ d.map Prod.fst
  · rw [setItem, if_pos ((any_key_iff d k).mpr hk), if_pos hk, List.map_map]
    apply List.map_congr_left
    intro e _
    by_cases he : e.1 = k
    · simp [he]
    · simp [he]
  · rw [setItem, if_neg (mt (any_key_iff d k).mp hk), if_neg hk, List.map_append]
    rfl

theorem nodup_keys_setItem {d : List (κ × α)} (h : (d.map Prod.fst).Nodup) (k : κ) (a : α) :
    ((setItem d k a).map Prod.fst).Nodup := by
  rw [keys_setItem]
  split_ifs with hk
  · exact h
  · exact List.nodup_append.mpr ⟨h, List.nodup_singleton k, fun x hx y hy => by
      rw [List.mem_singleton.mp hy]
      exact fun heq => hk (heq ▸ hx)⟩

theorem mem_setItem_iff {d : List (κ × α)} {k k' : κ} {a a' : α} :
    (k', a') ∈ setItem d k a ↔ k' = k ∧ a' = a ∨ k' ≠ k ∧ (k', a') ∈ d := by
  rw [setItem]
  split
  next hany =>
    obtain ⟨e, he, hek⟩ := List.any_eq_true.mp hany
    rw [List.mem_map]
    constructor
    · rintro ⟨x, hx, heq⟩
      by_cases hxk : x.1 = k
      · rw [if_pos hxk] at heq
        cases heq
        exact .inl ⟨rfl, rfl⟩
      · rw [if_neg hxk] at heq
        rw [heq] at hx hxk
        exact .inr ⟨hxk, hx⟩
    · rintro (⟨rfl, rfl⟩ | ⟨hne, hmem⟩)
      · exact ⟨e, he, if_pos (of_decide_eq_true hek)⟩
      · exact ⟨(k', a'), hmem, if_neg hne⟩
  next hany =>
    rw [List.mem_append, List.mem_singleton, Prod.mk.injEq]
    constructor
    · rintro (hmem | heq)
      · refine .inr ⟨fun hk => hany (List.any_eq_true.mpr ⟨_, hmem, decide_eq_true hk⟩), hmem⟩
      · exact .inl heq
    · rintro (heq | ⟨-, hmem⟩)
      · exact .inr heq
      · exact .inl hmem

theorem mem_setItem_of_fits {f : κ → Option α} {d : List (κ × α)} {kv : κ × α} (hd : ∀ e ∈ d, f e.1 = some e.2)
    (hkv : f kv.1 = some kv.2) {e : κ × α} : e ∈ setItem d kv.1 kv.2 ↔ e ∈ d ∨ e = kv := by
  obtain ⟨k, a⟩ := e
  rw [mem_setItem_iff]
  constructor
  · rintro (⟨rfl, rfl⟩ | ⟨-, h⟩)
    · exact .inr rfl
    · exact .inl h
  · rintro (h | rfl)
    · by_cases hk : k = kv.1
      · have hsame : some a = some kv.2 := by rw [← hd _ h, ← hkv, hk]
        exact .inl ⟨hk, Option.some.inj hsame⟩
      · exact .inr ⟨hk, h⟩
    · exact .inl ⟨rfl, rfl⟩

theorem mem_setItems_of_fits {f : κ → Option α} {d kvs : List (κ × α)} (hd : ∀ e ∈ d, f e.1 = some e.2)
    (hkvs : ∀ e ∈ kvs, f e.1 = some e.2) {e : κ × α} : e ∈ setItems d kvs ↔ e ∈ d ∨ e ∈ kvs := by
  induction kvs generalizing d with
  | nil => simp [setItems]
  | cons kv kvs ih =>
    rw [List.forall_mem_cons] at hkvs
    have hstep : ∀ e ∈ setItem d kv.1 kv.2, f e.1 = some e.2 := by
      intro e he
      rcases (mem_setItem_of_fits hd hkvs.1).mp he with he | rfl
      · exact hd e he
      · exact hkvs.1
    show e ∈ setItems (setItem d kv.1 kv.2) kvs ↔ _
    rw [ih hstep hkvs.2, mem_setItem_of_fits hd hkvs.1, List.mem_cons, or_assoc]

theorem lookup_setItem [BEq κ] [LawfulBEq κ] (d : List (κ × α)) (k k' : κ) (a : α) :
    (setItem d k a).lookup k' = if k' = k then some a else d.lookup k' := by
  by_cases hany : d.any (·.1 = k) = true
  · rw [setItem, if_pos hany]
    induction d with
    | nil => exact absurd hany Bool.false_ne_true
    | cons e d ih =>
      rw [List.map_cons, List.lookup_cons, List.lookup_cons]
      by_cases he : e.1 = k
      · subst he
        rw [if_pos rfl]
        by_cases hk : k' = e.1
        · rw [if_pos hk, hk, beq_self_eq_true]
        · have hne : (k' == e.1) = false := beq_eq_false_iff_ne.mpr hk
          rw [if_neg hk, hne]
          by_cases hrest : d.any (·.1 = e.1) = true
          · simpa [hk] using ih hrest
          · have hsame : (d.map fun x => if x.1 = e.1 then (e.1, a) else x) = d := by
              refine (List.map_congr_left fun x hx => if_neg fun heq => hrest ?_).trans (List.map_id d)
              exact List.any_eq_true.mpr ⟨x, hx, decide_eq_true heq⟩
            rw [hsame]
      · have hrest : d.any (·.1 = k) = true := by simpa [he] using hany
        rw [if_neg he]
        by_cases hk : k' = e.1
        · have hkk : ¬ k' = k := hk ▸ he
          rw [hk, beq_self_eq_true, if_neg (hk ▸ hkk)]
        · have hne : (k' == e.1) = false := beq_eq_false_iff_ne.mpr hk
          rw [hne]
          exact ih hrest
  · rw [setItem, if_neg hany]
    have hnone : d.lookup k = none := by
      rw [List.lookup_eq_none_iff]
      intro e he
      simp only [bne_iff_ne, ne_eq]
      exact fun heq => hany (List.any_eq_true.mpr ⟨e, he, decide_eq_true heq.symm⟩)
    rw [List.lookup_append, List.lookup_cons, List.lookup_nil]
    by_cases hk : k' = k
    · rw [if_pos hk, hk, hnone, beq_self_eq_true]
      rfl
    · have hne : (k' == k) = false := beq_eq_false_iff_ne.mpr hk
      rw [if_neg hk, hne, Option.or_none]

theorem setItem_of_notMem {d : List (κ × α)} {k : κ} (a : α) (hk : k ∉ d.map Prod.fst) :
    setItem d k a = d ++ [(k, a)] := by
  rw [setItem, if_neg (mt (any_key_iff d k).mp hk)]

theorem length_setItem (d : List (κ × α)) (k : κ) (a : α) :
    (setItem d k a).length = if k ∈ d.map Prod.fst then d.length else d.length + 1 := by
  have hkeys := congrArg List.length (keys_setItem d k a)
  rw [List.length_map] at hkeys
  rw [hkeys]
  split_ifs
  · simp
  · simp

theorem setItems_of_nodup {d kvs : List (κ × α)} (h : ((d ++ kvs).map Prod.fst).Nodup) :
    setItems d kvs = d ++ kvs := by
  induction kvs generalizing d with
  | nil => rw [setItems, List.foldl_nil, List.append_nil]
  | cons e kvs ih =>
    have hnew : e.1 ∉ d.map Prod.fst := by
      rw [List.map_append, List.map_cons, List.nodup_append] at h
      intro hmem
      exact h.2.2 e.1 hmem e.1 (List.mem_cons_self ..) rfl
    rw [setItems, List.foldl_cons, setItem_of_notMem e.2 hnew]
    rw [List.append_cons d e kvs] at h ⊢
    exact ih h

theorem length_setItems_le (d kvs : List (κ × α)) :
    (setItems d kvs).length ≤ d.length + kvs.length := by
  induction kvs generalizing d with
  | nil => exact le_rfl
  | cons e kvs ih =>
    have htail := ih (setItem d e.1 e.2)
    have hhead := length_setItem d e.1 e.2
    rw [setItems, List.foldl_cons, List.length_cons]
    rw [setItems] at htail
    split_ifs at hhead <;> omega

theorem length_setItems_eq_iff {d kvs : List (κ × α)} (hd : (d.map Prod.fst).Nodup) :
    (setItems d kvs).length = d.length + kvs.length ↔ ((d ++ kvs).map Prod.fst).Nodup := by
  constructor
  · intro h
    induction kvs generalizing d with
    | nil => rwa [List.append_nil]
    | cons e kvs ih =>
      have hle := length_setItems_le (setItem d e.1 e.2) kvs
      have hlen := length_setItem d e.1 e.2
      rw [setItems, List.foldl_cons, List.length_cons] at h
      rw [setItems] at hle
      have hnew : e.1 ∉ d.map Prod.fst := by
        intro hmem
        rw [if_pos hmem] at hlen
        omega
      rw [if_neg hnew] at hlen
      have hset := setItem_of_notMem e.2 hnew
      have hkeys : ((setItem d e.1 e.2).map Prod.fst).Nodup := by
        rw [keys_setItem, if_neg hnew]
        exact List.nodup_append.mpr ⟨hd, List.nodup_singleton _, by
          rintro a ha b hb rfl
          exact hnew (List.mem_singleton.mp hb ▸ ha)⟩
      have htail := ih hkeys (by rw [setItems]; omega)
      rwa [hset, ← List.append_cons] at htail
  · intro h
    rw [setItems_of_nodup h, List.length_append]

omit [DecidableEq κ] in
theorem nodup_keys (d : DictOf κ α) : (d.items.map Prod.fst).Nodup := by
  have hkeys : d.items.map Prod.fst = d.keys := by
    rw [DictOf.items, List.map_map]
    rfl
  rw [hkeys]
  exact AList.keys_nodup d

omit [DecidableEq κ] in
theorem lookup_of_mem [BEq κ] [LawfulBEq κ] {d : List (κ × α)} (h : (d.map Prod.fst).Nodup) {k : κ}
    {a : α} (hmem : (k, a) ∈ d) : d.lookup k = some a := by
  induction d with
  | nil => exact absurd hmem List.not_mem_nil
  | cons e d ih =>
    rw [List.map_cons, List.nodup_cons] at h
    obtain rfl | hmem := List.mem_cons.mp hmem
    · rw [List.lookup_cons, beq_self_eq_true]
    · have hne : (k == e.1) = false := by
        rw [beq_eq_false_iff_ne]
        rintro rfl
        exact h.1 (List.mem_map.mpr ⟨_, hmem, rfl⟩)
      rw [List.lookup_cons, hne]
      exact ih h.2 hmem

end TimeCodeSecurity.Tables

/-! ## The last of a kind

A list is read from the left and a later element overrides an earlier one, so what counts for a property
is the last element that has it.
-/
namespace LastWrites

variable {β : Type}

theorem exists_last {p : β → Prop} {l : List β} (h : ∃ x ∈ l, p x) :
    ∃ x after, x :: after <:+ l ∧ p x ∧ ∀ y ∈ after, ¬ p y := by
  induction l with
  | nil => simp at h
  | cons b l ih =>
    by_cases hl : ∃ x ∈ l, p x
    · obtain ⟨x, after, hsuf, hx, hafter⟩ := ih hl
      exact ⟨x, after, hsuf.trans (List.suffix_cons b l), hx, hafter⟩
    · obtain ⟨x, hmem, hx⟩ := h
      rcases List.mem_cons.mp hmem with rfl | hmem
      · exact ⟨x, l, List.suffix_rfl, hx, fun y hy hpy => hl ⟨y, hy, hpy⟩⟩
      · exact absurd ⟨x, hmem, hx⟩ hl

theorem suffix_of_mem {x : β} {l : List β} (h : x ∈ l) : ∃ later, x :: later <:+ l := by
  obtain ⟨before, after, rfl⟩ := List.append_of_mem h
  exact ⟨after, List.suffix_append _ _⟩

theorem last_unique {p : β → Prop} {before before' after after' : List β} {x x' : β}
    (h : before ++ x :: after = before' ++ x' :: after') (hx : p x) (hx' : p x')
    (hafter : ∀ y ∈ after, ¬ p y) (hafter' : ∀ y ∈ after', ¬ p y) :
    before = before' ∧ x = x' ∧ after = after' := by
  rcases List.append_eq_append_iff.mp h with ⟨mid, hb, hrest⟩ | ⟨mid, hb, hrest⟩
  · cases mid with
    | nil =>
      obtain ⟨rfl, rfl⟩ := List.cons_eq_cons.mp hrest
      exact ⟨by simpa using hb.symm, rfl, rfl⟩
    | cons m mid =>
      obtain ⟨rfl, rfl⟩ := List.cons_eq_cons.mp hrest
      exact absurd hx' (hafter x' (by simp))
  · cases mid with
    | nil =>
      obtain ⟨rfl, rfl⟩ := List.cons_eq_cons.mp hrest
      exact ⟨by simpa using hb, rfl, rfl⟩
    | cons m mid =>
      obtain ⟨rfl, rfl⟩ := List.cons_eq_cons.mp hrest
      exact absurd hx (hafter' x (by simp))

end LastWrites
