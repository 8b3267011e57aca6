import TimeCodeSecurity.Notifications.Models

/-! # Pages of the store

`list_notifications`: a page is a slice of the rows the query selects, newest first. A limit of zero puts no
`LIMIT` into the statement, and an integer beyond 64 bits cannot be bound to it.
-/
namespace TimeCodeSecurity.Notifications
set_option autoImplicit false

section
variable {α : Type}

def slice (full : List α) (limit offset : ℕ) : List α := (full.drop offset).take limit

def pageCount (total size : ℕ) : ℕ := (total + size - 1) / size

theorem lt_pageCount {total size i : ℕ} (hsize : 0 < size) : i < pageCount total size ↔ i * size < total := by
  rw [pageCount, Nat.lt_div_iff_mul_lt hsize]
  rw [Nat.mul_comm]
  omega

theorem flatten_slices (full : List α) (size m : ℕ) :
    ((List.range m).map fun i => slice full size (i * size)).flatten = full.take (m * size) := by
  induction m with
  | zero => simp
  | succ m ih =>
    have hlast : ([m].map fun i => slice full size (i * size)).flatten = (full.drop (m * size)).take size := by
      simp [slice]
    rw [List.range_succ, List.map_append, List.flatten_append, ih, hlast, ← List.take_add,
      Nat.add_one_mul]

theorem flatten_pages (full : List α) {size : ℕ} (hsize : 0 < size) :
    ((List.range (pageCount full.length size)).map fun i => slice full size (i * size)).flatten = full := by
  have hcover : full.length ≤ pageCount full.length size * size := by
    by_contra hlt
    exact Nat.lt_irrefl _ ((lt_pageCount hsize).mpr (not_le.mp hlt))
  rw [flatten_slices, List.take_of_length_le hcover]

theorem mapM_eq_ok_iff {ε β : Type} {f : α → Except ε β} {l : List α} {g : α → β} :
    l.mapM f = .ok (l.map g) ↔ ∀ a ∈ l, f a = .ok (g a) := by
  induction l with
  | nil => simp [pure, Except.pure]
  | cons a l ih =>
    rw [List.mapM_cons, List.map_cons, List.forall_mem_cons, ← ih]
    cases hf : f a with
    | error e => simp [bind, Except.bind]
    | ok b => cases hl : l.mapM f <;> simp [bind, Except.bind, pure, Except.pure]

theorem ok_of_mapM_ok {ε β : Type} {f : α → Except ε β} {l : List α} {bs : List β} (h : l.mapM f = .ok bs)
    {a : α} (ha : a ∈ l) : ∃ b, f a = .ok b := by
  induction l generalizing bs with
  | nil => cases ha
  | cons c l ih =>
    rw [List.mapM_cons, Except.bind_eq_ok] at h
    obtain ⟨b, hb, h⟩ := h
    obtain ⟨bs', hbs, -⟩ := Except.bind_eq_ok.mp h
    rcases List.mem_cons.mp ha with rfl | ha
    · exact ⟨b, hb⟩
    · exact ih hbs ha

end

/-- The table; `id` is its primary key. -/
structure Table where
  rows : List Notification
  ids : (rows.map (·.id)).Nodup

/-- The arguments of a query that are not refused, without the page. -/
structure Query where
  org : ℤ
  user : Option ℤ
  scope : Option String
  unreadOnly : Bool
  accepted : Accepted org user scope

inductive ListError
  | raised (e : Error)
  /-- `OverflowError` of the driver. -/
  | overflow
deriving DecidableEq, Repr

/-- An `INTEGER` of SQLite. -/
def fitsInteger (n : ℤ) : Bool := -2 ^ 63 ≤ n && n < 2 ^ 63

def boundIntegers (org : ℤ) (user : Option ℤ) (scope : Option String) (limit offset : ℤ) : List ℤ :=
  org :: ((if scope = some RecipientScope.organization.value then [] else user.toList) ++
    ((if offset = 0 then [] else [offset]) ++ (if limit = 0 then [] else [limit])))

/-- `list_notifications` with the driver behind it. -/
def listPage (rows : List Notification) (org : ℤ) (user : Option ℤ) (scope : Option String)
    (unreadOnly : Bool) (limit offset : ℤ) : Except ListError (List Notification) :=
  match listNotifications rows org user scope unreadOnly limit offset with
  | .error e => .error (.raised e)
  | .ok page =>
    if (boundIntegers org user scope limit offset).all fitsInteger then .ok page else .error .overflow

section
variable (t : Table) (q : Query)

def Table.page (limit offset : ℕ) : Except ListError (List Notification) :=
  listPage t.rows q.org q.user q.scope q.unreadOnly limit offset

/-- The rows the query is about. -/
def Table.visible : List Notification := selected t.rows q.org q.user q.scope q.unreadOnly

/-- The visible rows by `(created_at, id)`, greatest first. -/
structure FullList (full : List Notification) : Prop where
  rows : full.Perm (t.visible q)
  ordered : full.Pairwise fun a b => b.createdAt < a.createdAt ∨ b.createdAt = a.createdAt ∧ b.id < a.id

/-- A page is the slice it is asked for, and page after page gives every row once. -/
structure PaginatesExactly (limit offset : ℕ) : Prop where
  exact : ∀ full, FullList t q full → t.page q limit offset = .ok (slice full limit offset)
  atMost : ∀ page, t.page q limit offset = .ok page → page.length ≤ limit
  consecutive : 0 < limit → ∀ full, FullList t q full →
    ((List.range (pageCount full.length limit)).mapM fun i => t.page q limit (i * limit)).map List.flatten =
      .ok full

/-- The integers of this page can be bound. -/
def Fits (limit offset : ℕ) : Prop :=
  (boundIntegers q.org q.user q.scope limit offset).all fitsInteger = true

end

section
variable {s t u : ℤ} {i j k : ℕ}

theorem newer_total (s t : ℤ) (i j : ℕ) : (t < s ∨ t = s ∧ j ≤ i) ∨ (s < t ∨ s = t ∧ i ≤ j) := by omega

theorem newer_trans (h : t < s ∨ t = s ∧ j ≤ i) (h' : u < t ∨ u = t ∧ k ≤ j) : u < s ∨ u = s ∧ k ≤ i := by omega

theorem newer_strict (h : t < s ∨ t = s ∧ j ≤ i) (hne : i ≠ j) : t < s ∨ t = s ∧ j < i := by omega

theorem not_newer_both (h : t < s ∨ t = s ∧ j < i) (h' : s < t ∨ s = t ∧ i < j) : False := by omega

end

instance : Std.Total newerFirst := ⟨fun _ _ => newer_total _ _ _ _⟩

instance : IsTrans Notification newerFirst := ⟨fun _ _ _ => newer_trans⟩

variable {t : Table} {q : Query}

theorem Table.nodup_visible_ids : ((t.visible q).map (·.id)).Nodup :=
  t.ids.sublist (List.filter_sublist.map _)

theorem fullList_insertionSort : FullList t q ((t.visible q).insertionSort newerFirst) := by
  refine ⟨List.perm_insertionSort _ _, ?_⟩
  have hids : (((t.visible q).insertionSort newerFirst).map (·.id)).Nodup :=
    ((List.perm_insertionSort _ _).map _).nodup_iff.mpr t.nodup_visible_ids
  have hne : ((t.visible q).insertionSort newerFirst).Pairwise fun a b => a.id ≠ b.id :=
    List.pairwise_map.mp hids
  exact (List.pairwise_insertionSort newerFirst _).imp₂ (fun _ _ => newer_strict) hne

theorem FullList.eq {full full' : List Notification} (h : FullList t q full) (h' : FullList t q full') :
    full = full' := by
  exact (h.rows.trans h'.rows.symm).eq_of_pairwise (fun _ _ _ _ hab hba => (not_newer_both hab hba).elim)
    h.ordered h'.ordered

/-! ## Pages -/

theorem Table.page_eq (limit offset : ℕ) {full : List Notification} (hfull : FullList t q full) :
    t.page q limit offset =
      if (boundIntegers q.org q.user q.scope limit offset).all fitsInteger then
        .ok (if limit = 0 then full.drop offset else slice full limit offset)
      else .error .overflow := by
  have hpage : listNotifications t.rows q.org q.user q.scope q.unreadOnly limit offset =
      .ok (if limit = 0 then full.drop offset else slice full limit offset) := by
    have hcheck : checkPage (limit : ℤ) (offset : ℤ) = .ok () := if_neg (by omega)
    rw [listNotifications, q.accepted.1, q.accepted.2.1, q.accepted.2.2, hcheck, hfull.eq fullList_insertionSort]
    simp [bind, Except.bind, pure, Except.pure, slice, Table.visible]
  rw [page, listPage, hpage]

theorem Table.page_of_fits {limit offset : ℕ} (h : Fits q limit offset) {full : List Notification}
    (hfull : FullList t q full) :
    t.page q limit offset = .ok (if limit = 0 then full.drop offset else slice full limit offset) := by
  rw [t.page_eq limit offset hfull]
  exact if_pos h

theorem fits_of_page_ok {limit offset : ℕ} {page : List Notification} (h : t.page q limit offset = .ok page) :
    Fits q limit offset := by
  by_contra hnot
  have herror := (t.page_eq limit offset fullList_insertionSort).trans (if_neg hnot)
  rw [h] at herror
  cases herror

theorem Fits.move {limit offset offset' : ℕ} (h : Fits q limit offset) (h' : fitsInteger offset' = true) :
    Fits q limit offset' := by
  unfold Fits boundIntegers at *
  simp only [List.all_cons, List.all_append, Bool.and_eq_true] at h ⊢
  refine ⟨h.1, h.2.1, ?_, h.2.2.2⟩
  split
  · rfl
  · simpa using h'

theorem Fits.offset_fits {limit offset : ℕ} (h : Fits q limit offset) : fitsInteger offset = true := by
  unfold Fits boundIntegers at h
  simp only [List.all_cons, List.all_append, Bool.and_eq_true] at h
  by_cases hzero : offset = 0
  · subst hzero
    decide
  · simpa [hzero] using h.2.2.1

theorem consecutive_of_fits {limit : ℕ} (hlimit : 0 < limit) {full : List Notification}
    (hfull : FullList t q full) (h : ∀ i, i * limit < full.length → Fits q limit (i * limit)) :
    ((List.range (pageCount full.length limit)).mapM fun i => t.page q limit (i * limit)).map List.flatten =
      .ok full := by
  have hpages : (List.range (pageCount full.length limit)).mapM (fun i => t.page q limit (i * limit)) =
      .ok ((List.range (pageCount full.length limit)).map fun i => slice full limit (i * limit)) := by
    refine mapM_eq_ok_iff.mpr fun i hi => ?_
    have hlt := (lt_pageCount hlimit).mp (List.mem_range.mp hi)
    rw [Table.page_of_fits (h i hlt) hfull, if_neg (by omega)]
  rw [hpages]
  exact congrArg Except.ok (flatten_pages full hlimit)

/-- **Pagination is exact** where every integer can be bound, unless a limit of zero leaves rows behind the
offset. -/
theorem paginatesExactly_iff (t : Table) (q : Query) (limit offset : ℕ) :
    PaginatesExactly t q limit offset ↔
      Fits q limit offset ∧ (limit = 0 → (t.visible q).length ≤ offset) ∧
        ∀ i, i * limit < (t.visible q).length → fitsInteger (i * limit : ℕ) = true := by
  have hfull : FullList t q ((t.visible q).insertionSort newerFirst) := fullList_insertionSort
  have hlength : ((t.visible q).insertionSort newerFirst).length = (t.visible q).length :=
    List.length_insertionSort _ _
  constructor
  · intro h
    have hpage := h.exact _ hfull
    have hfits := fits_of_page_ok hpage
    refine ⟨hfits, fun hzero => ?_, fun i hi => ?_⟩
    · rw [Table.page_of_fits hfits hfull, if_pos hzero, hzero] at hpage
      have hdrop := Except.ok.inj hpage
      rw [slice, List.take_zero, List.drop_eq_nil_iff, hlength] at hdrop
      exact hdrop
    · by_cases hzero : limit = 0
      · rw [hzero, Nat.mul_zero]
        decide
      · have hpos : 0 < limit := Nat.pos_of_ne_zero hzero
        have hall := h.consecutive hpos _ hfull
        cases hmap : (List.range (pageCount ((t.visible q).insertionSort newerFirst).length limit)).mapM
            fun i => t.page q limit (i * limit) with
        | error e =>
          rw [hmap] at hall
          cases hall
        | ok pages =>
          have hmem := List.mem_range.mpr ((lt_pageCount hpos).mpr (hlength ▸ hi))
          obtain ⟨page, hok⟩ := ok_of_mapM_ok hmap hmem
          exact (fits_of_page_ok hok).offset_fits
  · rintro ⟨hfits, hzero, hoffsets⟩
    have hexact : ∀ full, FullList t q full → t.page q limit offset = .ok (slice full limit offset) := by
      intro full hfull'
      rw [Table.page_of_fits hfits hfull']
      by_cases h : limit = 0
      · have hle : full.length ≤ offset := hfull'.rows.length_eq ▸ hzero h
        rw [if_pos h, slice, h, List.take_zero, List.drop_eq_nil_iff.mpr hle]
      · rw [if_neg h]
    refine ⟨hexact, fun page hpage => ?_, fun hlimit full hfull' => ?_⟩
    · rw [hexact _ hfull] at hpage
      rw [← Except.ok.inj hpage]
      exact List.length_take_le _ _
    · refine consecutive_of_fits hlimit hfull' fun i hi => hfits.move (hoffsets i ?_)
      rwa [← hfull'.rows.length_eq]

namespace LimitZero

def forAll : Notification where
  id := 1
  organizationId := 1
  recipientScope := "ORGANIZATION"
  userId := none
  scopeTarget := 0
  eventId := "e"
  scanId := "s"
  dedupeKey := "k"
  type := "scan_finished"
  severity := "INFO"
  title := "Scan finished"
  message := "No findings"
  link := none
  isRead := false
  readAt := none
  createdAt := 0

def table : Table := ⟨[forAll], by decide⟩

def query : Query := ⟨1, none, none, false, rfl, rfl, rfl⟩

end LimitZero

/-- A page of no rows has one. -/
theorem limitZero_returns_all : ¬ PaginatesExactly LimitZero.table LimitZero.query 0 0 := by
  intro h
  have hlength := h.atMost [LimitZero.forAll] (by decide)
  revert hlength
  decide

end TimeCodeSecurity.Notifications
