import TimeCodeSecurity.Foundations.LevelSearch

/-! # Method resolution orders

The C3 linearisation: a class, then the orders of its bases and the list of the bases merged. The merge takes the first
head that stands in no other tail.
-/
namespace Linearization
set_option autoImplicit false

variable {α : Type} [DecidableEq α]

def nextHead (lists : List (List α)) : Option α :=
  (lists.filterMap List.head?).find? fun h => lists.all fun l => h ∉ l.tail

def without (h : α) (l : List α) : List α := if l.head? = some h then l.tail else l

/-- The merge; `none` where no head can be taken. -/
def merge : ℕ → List (List α) → Option (List α)
  | 0, lists => if lists.all (· = []) then some [] else none
  | fuel + 1, lists =>
    if lists.all (· = []) then some []
    else (nextHead lists).bind fun h => (merge fuel (lists.map (without h))).map (h :: ·)

def c3 (bases : α → List α) : ℕ → α → Option (List α)
  | 0, _ => none
  | fuel + 1, c =>
    ((bases c).mapM (c3 bases fuel)).bind fun orders =>
      let lists := orders ++ [bases c]
      (merge (lists.map List.length).sum lists).map (c :: ·)

def IsOrder (bases : α → List α) (c : α) (order : List α) : Prop := ∃ fuel, c3 bases fuel c = some order

/-! ## What an order holds -/

theorem mem_without {h x : α} {l : List α} (hx : x ∈ l) : x = h ∨ x ∈ without h l := by
  rw [without]
  split
  next hhead =>
    cases l with
    | nil => cases hx
    | cons y l =>
      obtain rfl : y = h := by simpa using hhead
      exact List.mem_cons.mp hx
  next => exact .inr hx

theorem mem_of_mem_without {h x : α} {l : List α} (hx : x ∈ without h l) : x ∈ l := by
  rw [without] at hx
  split at hx
  · exact List.mem_of_mem_tail hx
  · exact hx

theorem nextHead_mem {lists : List (List α)} {h : α} (hh : nextHead lists = some h) : ∃ l ∈ lists, h ∈ l := by
  obtain ⟨l, hl, hhead⟩ := List.mem_filterMap.mp (List.mem_of_find?_eq_some hh)
  exact ⟨l, hl, List.mem_of_mem_head? hhead⟩

theorem mem_merge_iff {fuel : ℕ} {lists : List (List α)} {order : List α} (h : merge fuel lists = some order) {x : α} :
    x ∈ order ↔ ∃ l ∈ lists, x ∈ l := by
  have hempty : ∀ {lists : List (List α)}, lists.all (· = []) = true → ∀ x, ¬∃ l ∈ lists, x ∈ l := by
    rintro lists hall x ⟨l, hl, hx⟩
    have hnil : l = [] := by simpa using List.all_eq_true.mp hall l hl
    rw [hnil] at hx
    cases hx
  induction fuel generalizing lists order with
  | zero =>
    rw [merge] at h
    split at h
    next hall =>
      cases h
      exact iff_of_false List.not_mem_nil (hempty hall x)
    next => cases h
  | succ fuel ih =>
    rw [merge] at h
    split at h
    next hall =>
      cases h
      exact iff_of_false List.not_mem_nil (hempty hall x)
    next =>
      obtain ⟨head, hhead, h⟩ := Option.bind_eq_some_iff.mp h
      obtain ⟨rest, hrest, rfl⟩ := Option.map_eq_some_iff.mp h
      have hmem : x ∈ rest ↔ ∃ l ∈ lists.map (without head), x ∈ l := ih hrest
      rw [List.mem_cons, hmem]
      constructor
      · rintro (rfl | ⟨l, hl, hx⟩)
        · exact nextHead_mem hhead
        · obtain ⟨l, hlmem, rfl⟩ := List.mem_map.mp hl
          exact ⟨l, hlmem, mem_of_mem_without hx⟩
      · rintro ⟨l, hl, hx⟩
        exact (mem_without hx).imp_right fun hx => ⟨_, List.mem_map_of_mem hl, hx⟩

omit [DecidableEq α] in
theorem mem_mapM_iff {β : Type} {f : α → Option β} {items : List α} {values : List β}
    (h : items.mapM f = some values) {b : β} : b ∈ values ↔ ∃ a ∈ items, f a = some b := by
  induction items generalizing values with
  | nil =>
    rw [List.mapM_nil] at h
    cases h
    simp
  | cons a items ih =>
    rw [List.mapM_cons] at h
    obtain ⟨first, hfirst, h⟩ := Option.bind_eq_some_iff.mp h
    obtain ⟨rest, hrest, h⟩ := Option.bind_eq_some_iff.mp h
    cases h
    rw [List.mem_cons, ih hrest, List.exists_mem_cons_iff, hfirst]
    refine or_congr_left ⟨fun h => h ▸ rfl, fun h => (Option.some.inj h).symm⟩

omit [DecidableEq α] in
theorem exists_of_mapM {β : Type} {f : α → Option β} {items : List α} {values : List β}
    (h : items.mapM f = some values) {a : α} (ha : a ∈ items) : ∃ b ∈ values, f a = some b := by
  have hsome : ∃ b, f a = some b := by
    induction items generalizing values with
    | nil => cases ha
    | cons a' items ih =>
      rw [List.mapM_cons] at h
      obtain ⟨first, hfirst, h⟩ := Option.bind_eq_some_iff.mp h
      obtain ⟨rest, hrest, -⟩ := Option.bind_eq_some_iff.mp h
      rcases List.mem_cons.mp ha with rfl | ha
      · exact ⟨first, hfirst⟩
      · exact ih hrest ha
  obtain ⟨b, hb⟩ := hsome
  exact ⟨b, (mem_mapM_iff h).mpr ⟨a, ha, hb⟩, hb⟩

theorem mem_c3_iff {bases : α → List α} {fuel : ℕ} {c x : α} {order : List α} (h : c3 bases fuel c = some order) :
    x ∈ order ↔ ∃ n, x ∈ LevelSearch.level bases [c] n := by
  induction fuel generalizing c order with
  | zero => cases h
  | succ fuel ih =>
    obtain ⟨orders, horders, h⟩ := Option.bind_eq_some_iff.mp h
    obtain ⟨rest, hrest, rfl⟩ := Option.map_eq_some_iff.mp h
    have hlevel : (∃ n, x ∈ LevelSearch.level bases [c] n) ↔
        x = c ∨ ∃ b ∈ bases c, ∃ n, x ∈ LevelSearch.level bases [b] n := by
      constructor
      · rintro ⟨n, hn⟩
        cases n with
        | zero => exact .inl (List.mem_singleton.mp hn)
        | succ n =>
          rw [LevelSearch.level, List.flatMap_singleton, LevelSearch.mem_level_iff] at hn
          obtain ⟨b, hb, hx⟩ := hn
          exact .inr ⟨b, hb, n, hx⟩
      · rintro (rfl | ⟨b, hb, n, hx⟩)
        · exact ⟨0, List.mem_singleton_self x⟩
        · refine ⟨n + 1, ?_⟩
          rw [LevelSearch.level, List.flatMap_singleton, LevelSearch.mem_level_iff]
          exact ⟨b, hb, hx⟩
    rw [hlevel, List.mem_cons, mem_merge_iff hrest]
    refine or_congr_right ⟨?_, ?_⟩
    · rintro ⟨l, hl, hx⟩
      rcases List.mem_append.mp hl with hl | hl
      · obtain ⟨b, hb, hbl⟩ := (mem_mapM_iff horders).mp hl
        exact ⟨b, hb, (ih hbl).mp hx⟩
      · rw [List.mem_singleton.mp hl] at hx
        exact ⟨x, hx, 0, List.mem_singleton_self x⟩
    · rintro ⟨b, hb, hx⟩
      obtain ⟨l, hl, hbl⟩ := exists_of_mapM horders hb
      exact ⟨l, List.mem_append_left _ hl, (ih hbl).mpr hx⟩

end Linearization
