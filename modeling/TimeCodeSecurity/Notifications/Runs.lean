import TimeCodeSecurity.Foundations.Interleaving
import TimeCodeSecurity.Notifications.Models

/-! # Runs of the store

Calls of `create`, `mark_read` and `mark_all_read` side by side. A query is one step and a commit is one
step; between them other calls may commit. The database layer runs the hook on every record that is
written and refuses rows of one identity.
-/
namespace TimeCodeSecurity.Notifications
open Interleaving
set_option autoImplicit false

inductive Operation
  | create (payload : NotificationCreate)
  | markRead (id : ℕ) (org : ℤ) (user : Option ℤ) (readAt : Option DateTime)
  | markAllRead (org : ℤ) (user : Option ℤ) (readAt : Option DateTime)

/-- What a call returns; `raised` is an error of the code, `failed` one of the database. -/
inductive Outcome
  | row (n : Notification)
  | marked (found : Bool)
  | count (k : ℕ)
  | raised
  | failed

inductive Progress
  | started
  | absent
  | conflicted
  | inserted (id : ℕ)
  | loaded (records : List Notification) (ts : DateTime)
  | done (outcome : Outcome)

def findExisting (rows : List Notification) (identity : Identity) : Option Notification :=
  rows.find? (·.identity = identity)

inductive Advance : ℕ → Operation → Progress → List Notification →
    Progress → List Notification → Prop
  | found {i p rows n} (h : findExisting rows p.identity = some n) :
      Advance i (.create p) .started rows (.done (.row n)) rows
  | notFound {i p rows} (h : findExisting rows p.identity = none) :
      Advance i (.create p) .started rows .absent rows
  | insert {i p rows record} (id : ℕ) (now : DateTime) (hid : ∀ n ∈ rows, n.id ≠ id)
      (hhook : enforceScopeInvariants (newRecord p id now) = some record)
      (hunique : identitiesDistinct (rows ++ [record])) :
      Advance i (.create p) .absent rows (.inserted id) (rows ++ [record])
  -- the identity is taken, or a foreign key is not there
  | integrityError {i p rows} : Advance i (.create p) .absent rows .conflicted rows
  | hookRaised {i p rows} (id : ℕ) (now : DateTime)
      (hhook : enforceScopeInvariants (newRecord p id now) = none) :
      Advance i (.create p) .absent rows (.done .raised) rows
  | refresh {i p rows id n} (h : rows.find? (·.id = id) = some n) :
      Advance i (.create p) (.inserted id) rows (.done (.row n)) rows
  | winning {i p rows n} (h : findExisting rows p.identity = some n) :
      Advance i (.create p) .conflicted rows (.done (.row n)) rows
  | noWinner {i p rows} (h : findExisting rows p.identity = none) :
      Advance i (.create p) .conflicted rows (.done .raised) rows
  | markInvalid {i id org user readAt rows} (h : org ≤ 0) :
      Advance i (.markRead id org user readAt) .started rows (.done .raised) rows
  | markMissing {i id org user readAt rows} (horg : 0 < org)
      (h : recordToMark rows id org user = none) :
      Advance i (.markRead id org user readAt) .started rows (.done (.marked false)) rows
  | markAlready {i id org user readAt rows n} (horg : 0 < org)
      (h : recordToMark rows id org user = some n) (hread : n.isRead = true) :
      Advance i (.markRead id org user readAt) .started rows (.done (.marked true)) rows
  | markLoad {i id org user readAt rows n} (now : DateTime) (horg : 0 < org)
      (h : recordToMark rows id org user = some n) (hread : n.isRead = false) :
      Advance i (.markRead id org user readAt) .started rows
        (.loaded [n] (readAt.getD now)) rows
  | markCommit {i id org user readAt rows rows' records ts}
      (h : commitRead rows records ts = some rows') :
      Advance i (.markRead id org user readAt) (.loaded records ts) rows (.done (.marked true)) rows'
  | allInvalid {i org user readAt rows} (h : org ≤ 0) :
      Advance i (.markAllRead org user readAt) .started rows (.done .raised) rows
  | allNone {i org user readAt rows} (horg : 0 < org) (h : recordsToMark rows org user = []) :
      Advance i (.markAllRead org user readAt) .started rows (.done (.count 0)) rows
  | allLoad {i org user readAt rows} (now : DateTime) (horg : 0 < org)
      (h : recordsToMark rows org user ≠ []) :
      Advance i (.markAllRead org user readAt) .started rows
        (.loaded (recordsToMark rows org user) (readAt.getD now)) rows
  | allCommit {i org user readAt rows rows' records ts}
      (h : commitRead rows records ts = some rows') :
      Advance i (.markAllRead org user readAt) (.loaded records ts) rows
        (.done (.count records.length)) rows'
  | rolledBack {i op records ts rows} (h : commitRead rows records ts = none) :
      Advance i op (.loaded records ts) rows (.done .raised) rows
  | fail {i op p rows} (h : ∀ outcome, p ≠ .done outcome) :
      Advance i op p rows (.done .failed) rows

abbrev Store := Config (List Notification) Operation Progress

abbrev Runs : Store → Store → Prop := Steps (fun _ => Progress.started) Advance

def emptyStore : Store := ⟨[], []⟩

structure WellFormed (rows : List Notification) : Prop where
  ids : (rows.map (·.id)).Nodup
  distinct : identitiesDistinct rows
  target : ∀ n ∈ rows, TargetOf n.recipientScope n.userId n.scopeTarget
  read : ∀ n ∈ rows, n.isRead = true ↔ n.readAt.isSome = true

def Notification.Renews (n n' : Notification) : Prop :=
  n' = { n with isRead := n'.isRead, readAt := n'.readAt }

theorem Notification.Renews.refl (n : Notification) : n.Renews n := rfl

theorem Notification.Renews.trans {a b c : Notification} (hab : a.Renews b) (hbc : b.Renews c) :
    a.Renews c := by
  rw [Renews] at hab hbc ⊢
  rw [hab] at hbc
  exact hbc

theorem Notification.Renews.identity_eq {a b : Notification} (h : a.Renews b) :
    b.identity = a.identity := by
  rw [h]
  rfl

def Kept (rows rows' : List Notification) : Prop := ∀ n ∈ rows, ∃ n' ∈ rows', n.Renews n'

theorem Kept.refl (rows : List Notification) : Kept rows rows := fun n hn => ⟨n, hn, .refl n⟩

theorem WellFormed.eq_of_id {rows : List Notification} (h : WellFormed rows) {a b : Notification}
    (ha : a ∈ rows) (hb : b ∈ rows) (hid : a.id = b.id) : a = b :=
  List.inj_on_of_nodup_map h.ids ha hb hid

theorem WellFormed.eq_of_identity {rows : List Notification} (h : WellFormed rows)
    {a b : Notification} (ha : a ∈ rows) (hb : b ∈ rows) (hid : a.identity = b.identity) : a = b :=
  List.inj_on_of_nodup_map h.distinct ha hb hid

theorem findExisting_eq_some {rows : List Notification} {identity : Identity} {n : Notification}
    (h : findExisting rows identity = some n) : n ∈ rows ∧ n.identity = identity := by
  rw [findExisting] at h
  have hid := List.find?_some h
  exact ⟨List.mem_of_find?_eq_some h, of_decide_eq_true hid⟩

theorem findExisting_of_mem {rows : List Notification} (hrows : WellFormed rows)
    {identity : Identity} {n : Notification} (hn : n ∈ rows) (hid : n.identity = identity) :
    findExisting rows identity = some n := by
  cases hfind : findExisting rows identity with
  | none =>
    rw [findExisting] at hfind
    have hnot := List.find?_eq_none.mp hfind n hn
    exact absurd hid (by simpa using hnot)
  | some m =>
    obtain ⟨hm, hidm⟩ := findExisting_eq_some hfind
    rw [hrows.eq_of_identity hm hn (hidm.trans hid.symm)]

def Operation.org : Operation → ℤ
  | create p => p.organizationId
  | markRead _ org _ _ | markAllRead org _ _ => org

def Operation.user : Operation → Option ℤ
  | create p => p.userId
  | markRead _ _ user _ | markAllRead _ user _ => user

def Operation.foreign (op : Operation) (n : Notification) : Bool :=
  n.organizationId ≠ op.org || (n.recipientScope = "USER" && n.userId ≠ op.user)

theorem Operation.not_foreign {op : Operation} {n : Notification} (horg : n.organizationId = op.org)
    (hvisible : visibleTo op.user n = true) : op.foreign n = false := by
  obtain hscope | ⟨hscope, _, huser⟩ := visibleTo_iff.mp hvisible
  · simp [foreign, horg, hscope]
  · simp [foreign, horg, huser]

theorem Operation.foreign_renews (op : Operation) {n n' : Notification} (h : n.Renews n') :
    op.foreign n' = op.foreign n := by
  rw [h]
  rfl

def Mine (rows : List Notification) (op : Operation) (record : Notification) : Prop :=
  record.organizationId = op.org ∧ visibleTo op.user record = true ∧ ∃ n ∈ rows, record.Renews n

def CallHolds (_ : ℕ) (op : Operation) (p : Progress) (rows : List Notification) : Prop :=
  match p with
  | .loaded records _ => ∀ r ∈ records, Mine rows op r
  | .inserted id => ∀ payload, op = .create payload →
      ∃ n ∈ rows, n.id = id ∧ n.identity = payload.identity
  | .done (.row n) => ∀ payload, op = .create payload →
      n.identity = payload.identity ∧ ∃ n' ∈ rows, n.Renews n'
  | _ => True

theorem CallHolds.mono {i : ℕ} {op : Operation} {p : Progress} {rows rows' : List Notification}
    (h : CallHolds i op p rows) (hkept : Kept rows rows') : CallHolds i op p rows' := by
  cases p with
  | loaded records ts =>
    intro r hr
    obtain ⟨horg, hvisible, n, hn, hrenews⟩ := h r hr
    obtain ⟨n', hn', hrenews'⟩ := hkept n hn
    exact ⟨horg, hvisible, n', hn', hrenews.trans hrenews'⟩
  | inserted id =>
    intro payload hop
    obtain ⟨n, hn, hid, hidentity⟩ := h payload hop
    obtain ⟨n', hn', hrenews⟩ := hkept n hn
    refine ⟨n', hn', ?_, hrenews.identity_eq.trans hidentity⟩
    rw [hrenews, hid]
  | done outcome =>
    cases outcome with
    | row n =>
      intro payload hop
      obtain ⟨hidentity, m, hm, hrenews⟩ := h payload hop
      obtain ⟨m', hm', hrenews'⟩ := hkept m hm
      exact ⟨hidentity, m', hm', hrenews.trans hrenews'⟩
    | _ => trivial
  | _ => trivial

/-! ## What a step does to the rows -/

structure Effect (op : Operation) (rows rows' : List Notification) : Prop where
  wellFormed : WellFormed rows'
  kept : Kept rows rows'
  frame : rows'.filter op.foreign = rows.filter op.foreign

theorem Effect.unchanged {op : Operation} {rows : List Notification} (h : WellFormed rows) :
    Effect op rows rows := ⟨h, .refl rows, rfl⟩

theorem mine_of_recordToMark {rows : List Notification} {id : ℕ} (op : Operation) {n : Notification}
    (h : recordToMark rows id op.org op.user = some n) : Mine rows op n := by
  rw [recordToMark] at h
  have hfound := List.find?_some h
  simp only [Bool.and_eq_true, decide_eq_true_eq] at hfound
  exact ⟨hfound.1.2, hfound.2, n, List.mem_of_find?_eq_some h, .refl n⟩

theorem mine_of_recordsToMark {rows : List Notification} (op : Operation) {n : Notification}
    (h : n ∈ recordsToMark rows op.org op.user) : Mine rows op n := by
  rw [recordsToMark, List.mem_filter] at h
  have hfound := h.2
  simp only [Bool.and_eq_true, decide_eq_true_eq] at hfound
  exact ⟨hfound.1.1, hfound.2, n, h.1, .refl n⟩

theorem updateOf_eq {rows records : List Notification} {op : Operation} (ts : DateTime)
    (hrows : WellFormed rows) (hmine : ∀ r ∈ records, Mine rows op r) {row : Notification}
    (hrow : row ∈ rows) :
    updateOf records ts row = row ∨
      updateOf records ts row = { row with isRead := true, readAt := some ts } ∧
        op.foreign row = false := by
  rw [updateOf]
  cases hfind : records.find? (·.id = row.id) with
  | none => exact .inl rfl
  | some record =>
    right
    have hid : record.id = row.id := by simpa using List.find?_some hfind
    obtain ⟨horg, hvisible, n, hn, hrenews⟩ := hmine record (List.mem_of_find?_eq_some hfind)
    have hsame : n = row := hrows.eq_of_id hn hrow (by rw [hrenews, hid])
    subst hsame
    have htarget : derivedTarget record.recipientScope record.userId = some record.scopeTarget := by
      have hof := derivedTarget_eq_some_iff.mpr (hrows.target n hn)
      rw [hrenews] at hof
      exact hof
    refine ⟨?_, ?_⟩
    · simp only [htarget, Option.getD_some, if_pos]
    · rw [op.foreign_renews hrenews]
      exact Operation.not_foreign horg hvisible

theorem updateOf_renews {rows records : List Notification} {op : Operation} {ts : DateTime}
    (hrows : WellFormed rows) (hmine : ∀ r ∈ records, Mine rows op r) {row : Notification}
    (hrow : row ∈ rows) : row.Renews (updateOf records ts row) := by
  obtain hsame | ⟨hmarked, _⟩ := updateOf_eq ts hrows hmine hrow
  · rw [hsame]
    exact .refl row
  · rw [hmarked]
    rfl

theorem filter_map_of_frame {α : Type} {P : α → Bool} {f : α → α} {l : List α}
    (h : ∀ a ∈ l, f a = a ∨ P a = false ∧ P (f a) = false) :
    (l.map f).filter P = l.filter P := by
  induction l with
  | nil => rfl
  | cons a l ih =>
    have htail := ih fun b hb => h b (List.mem_cons_of_mem _ hb)
    obtain hsame | ⟨hout, hout'⟩ := h a List.mem_cons_self
    · rw [List.map_cons, List.filter_cons, List.filter_cons, htail, hsame]
    · simp [hout, hout', htail]

theorem commitRead_effect {rows rows' records : List Notification} {op : Operation} {ts : DateTime}
    (hrows : WellFormed rows) (hmine : ∀ r ∈ records, Mine rows op r)
    (h : commitRead rows records ts = some rows') : Effect op rows rows' := by
  obtain ⟨rfl, hdistinct⟩ := commitRead_eq_some h
  have hrenews : ∀ n ∈ rows, n.Renews (updateOf records ts n) := fun n hn =>
    updateOf_renews hrows hmine hn
  have hids : (rows.map (updateOf records ts)).map (·.id) = rows.map (·.id) := by
    rw [List.map_map]
    apply List.map_congr_left
    intro n hn
    rw [Function.comp_apply, hrenews n hn]
  refine ⟨⟨?_, hdistinct, ?_, ?_⟩, ?_, ?_⟩
  · rw [hids]
    exact hrows.ids
  · intro m hm
    obtain ⟨n, hn, rfl⟩ := List.mem_map.mp hm
    rw [hrenews n hn]
    exact hrows.target n hn
  · intro m hm
    obtain ⟨n, hn, rfl⟩ := List.mem_map.mp hm
    obtain hsame | ⟨hmarked, _⟩ := updateOf_eq ts hrows hmine hn
    · rw [hsame]
      exact hrows.read n hn
    · rw [hmarked]
      simp
  · intro n hn
    exact ⟨updateOf records ts n, List.mem_map_of_mem hn, hrenews n hn⟩
  · apply filter_map_of_frame
    intro n hn
    obtain hsame | ⟨_, hown⟩ := updateOf_eq ts hrows hmine hn
    · exact .inl hsame
    · exact .inr ⟨hown, by rw [op.foreign_renews (hrenews n hn), hown]⟩

theorem insert_effect {rows : List Notification} {p : NotificationCreate} {id : ℕ} {now : DateTime}
    {record : Notification} (hrows : WellFormed rows) (hid : ∀ n ∈ rows, n.id ≠ id)
    (hhook : enforceScopeInvariants (newRecord p id now) = some record)
    (hunique : identitiesDistinct (rows ++ [record])) :
    record = newRecord p id now ∧ Effect (.create p) rows (rows ++ [record]) := by
  rw [enforceScopeInvariants_newRecord, Option.some.injEq] at hhook
  subst hhook
  refine ⟨rfl, ⟨?_, hunique, ?_, ?_⟩, ?_, ?_⟩
  · rw [List.map_append, List.nodup_append]
    refine ⟨hrows.ids, by simp, ?_⟩
    intro a ha b hb
    obtain ⟨n, hn, rfl⟩ := List.mem_map.mp ha
    have hb : b = id := by simpa [newRecord] using hb
    rw [hb]
    exact hid n hn
  · intro n hn
    obtain hold | hnew := List.mem_append.mp hn
    · exact hrows.target n hold
    · rw [List.mem_singleton.mp hnew]
      exact p.target_of
  · intro n hn
    obtain hold | hnew := List.mem_append.mp hn
    · exact hrows.read n hold
    · rw [List.mem_singleton.mp hnew]
      simp [newRecord]
  · intro n hn
    exact ⟨n, List.mem_append_left _ hn, .refl n⟩
  · have hown : (Operation.create p).foreign (newRecord p id now) = false := by
      simp [Operation.foreign, Operation.org, Operation.user, newRecord]
    rw [List.filter_append, List.filter_singleton, hown]
    simp

theorem Advance.effect {i : ℕ} {op : Operation} {p p' : Progress} {rows rows' : List Notification}
    (h : Advance i op p rows p' rows') (hrows : WellFormed rows) (hcall : CallHolds i op p rows) :
    Effect op rows rows' ∧ CallHolds i op p' rows' := by
  have hsame : Effect op rows rows := .unchanged hrows
  cases h with
  | found hfind | winning hfind =>
    refine ⟨hsame, fun payload hop => ?_⟩
    cases hop
    obtain ⟨hmem, hidentity⟩ := findExisting_eq_some hfind
    exact ⟨hidentity, _, hmem, .refl _⟩
  | insert id now hid hhook hunique =>
    obtain ⟨rfl, heffect⟩ := insert_effect hrows hid hhook hunique
    refine ⟨heffect, fun payload hop => ?_⟩
    cases hop
    exact ⟨_, List.mem_append_right _ List.mem_cons_self, rfl, rfl⟩
  | refresh hfind =>
    rename_i p id n
    refine ⟨hsame, fun payload hop => ?_⟩
    cases hop
    obtain ⟨m, hm, hidm, hidentity⟩ := hcall p rfl
    have hn := List.mem_of_find?_eq_some hfind
    have hidn : n.id = id := by simpa using List.find?_some hfind
    have hmn : m = n := hrows.eq_of_id hm hn (hidm.trans hidn.symm)
    exact ⟨by rw [← hmn, hidentity], n, hn, .refl n⟩
  | markLoad now horg hfind hread =>
    rename_i id org user readAt n
    refine ⟨hsame, fun r hr => ?_⟩
    rw [List.mem_singleton.mp hr]
    exact mine_of_recordToMark (.markRead id org user readAt) hfind
  | allLoad now horg hsome =>
    rename_i org user readAt
    refine ⟨hsame, fun r hr => ?_⟩
    exact mine_of_recordsToMark (.markAllRead org user readAt) hr
  | markCommit hcommit | allCommit hcommit => exact ⟨commitRead_effect hrows hcall hcommit, trivial⟩
  | _ => exact ⟨hsame, trivial⟩

/-! ## Runs -/

theorem stable_wellFormed (base : ℕ) :
    Stable (fun _ => Progress.started) Advance base WellFormed CallHolds where
  issue _ _ _ _ _ := trivial
  own _ _ _ _ _ _ hrows hcall h :=
    ⟨(h.effect hrows hcall).1.wellFormed, (h.effect hrows hcall).2⟩
  others _ _ _ _ _ _ hrows hcall h _ _ _ _ hother := hother.mono (h.effect hrows hcall).1.kept

theorem wellFormed_nil : WellFormed [] where
  ids := List.nodup_nil
  distinct := List.nodup_nil
  target _ hn := by cases hn
  read _ hn := by cases hn

theorem holds_of_runs {s : Store} (h : Runs emptyStore s) : Holds WellFormed CallHolds s := by
  refine (stable_wellFormed _).steps ⟨wellFormed_nil, ?_⟩ h
  intro i op p hcall
  cases hcall

/-- A call of `create` whose identity is there has not begun, has returned that row, or could not ask
the database. -/
def ReturnsExisting (n : Notification) (q : Progress) : Prop :=
  q = .started ∨ q = .done .failed ∨ ∃ n', q = .done (.row n') ∧ n.Renews n'

theorem Advance.returnsExisting {i : ℕ} {p : NotificationCreate} {q q' : Progress}
    {rows rows' : List Notification} {n row : Notification}
    (h : Advance i (.create p) q rows q' rows') (hrows : WellFormed rows) (hrow : row ∈ rows)
    (hrenews : n.Renews row) (hidentity : n.identity = p.identity) (hq : ReturnsExisting n q) :
    ReturnsExisting n q' := by
  have hfind : findExisting rows p.identity = some row :=
    findExisting_of_mem hrows hrow (hrenews.identity_eq.trans hidentity)
  obtain rfl | rfl | ⟨n', rfl, hn'⟩ := hq
  · cases h with
    | found h =>
      rw [hfind, Option.some.injEq] at h
      exact .inr (.inr ⟨_, rfl, h ▸ hrenews⟩)
    | notFound h =>
      rw [hfind] at h
      cases h
    | fail _ => exact .inr (.inl rfl)
  · cases h with
    | fail h => exact absurd rfl (h _)
  · cases h with
    | fail h => exact absurd rfl (h _)

theorem stable_returnsExisting (p : NotificationCreate) (n : Notification) (j base : ℕ)
    (hj : j < base) (hidentity : n.identity = p.identity) :
    Stable (fun _ => Progress.started) Advance base
      (fun rows => WellFormed rows ∧ ∃ row ∈ rows, n.Renews row)
      (fun i op q rows => CallHolds i op q rows ∧
        (i = j → op = .create p → ReturnsExisting n q)) where
  issue i op rows hi _ := ⟨trivial, fun hij => absurd hij (by omega)⟩
  own i op q rows q' rows' hrows hcall h := by
    obtain ⟨heffect, hholds⟩ := h.effect hrows.1 hcall.1
    obtain ⟨row, hrow, hrenews⟩ := hrows.2
    obtain ⟨row', hrow', hrenews'⟩ := heffect.kept row hrow
    refine ⟨⟨heffect.wellFormed, row', hrow', hrenews.trans hrenews'⟩, hholds, ?_⟩
    intro hij hop
    subst hop
    exact h.returnsExisting hrows.1 hrow hrenews hidentity (hcall.2 hij rfl)
  others i op q rows q' rows' hrows hcall h k opk qk _ hk :=
    ⟨hk.1.mono (h.effect hrows.1 hcall.1).1.kept, hk.2⟩

theorem returnsExisting_of_runs {s s' : Store} {j : ℕ} {p : NotificationCreate} {n : Notification}
    (hs : Holds WellFormed CallHolds s) (hcall : s.calls[j]? = some (.create p, .started))
    (hn : n ∈ s.shared) (hidentity : n.identity = p.identity) (h : Runs s s') :
    ∃ q, s'.calls[j]? = some (.create p, q) ∧ ReturnsExisting n q := by
  have hj := (List.getElem?_eq_some_iff.mp hcall).1
  obtain ⟨q, hq⟩ := call_of_steps hcall h
  refine ⟨q, hq, ?_⟩
  have hstable := stable_returnsExisting p n j s.calls.length hj hidentity
  have hholds := hstable.steps ⟨⟨hs.1, n, hn, .refl n⟩, ?_⟩ h
  · exact (hholds.2 j _ q hq).2 rfl rfl
  · intro i op q hi
    refine ⟨hs.2 i op q hi, fun hij hop => ?_⟩
    rw [hij, hcall, Option.some.injEq, Prod.mk.injEq] at hi
    exact .inl hi.2.symm

theorem Advance.create_existing {i : ℕ} {p : NotificationCreate} {q q' : Progress}
    {rows rows' : List Notification} (h : Advance i (.create p) q rows q' rows') {n : Notification}
    (hn : n ∈ rows) (hidentity : n.identity = p.identity) : rows' = rows := by
  cases h with
  | insert id now hid hhook hunique =>
    rw [enforceScopeInvariants_newRecord, Option.some.injEq] at hhook
    subst hhook
    rw [identitiesDistinct, List.map_append, List.nodup_append] at hunique
    exact absurd hidentity (hunique.2.2 _ (List.mem_map_of_mem hn) _ (by simp; rfl))
  | _ => rfl

structure StoreInvariants (s : Store) : Prop where
  distinct : s.shared.Pairwise fun a b => a.identity ≠ b.identity
  target : ∀ n ∈ s.shared, TargetOf n.recipientScope n.userId n.scopeTarget
  read : ∀ n ∈ s.shared, n.isRead = true ↔ n.readAt.isSome = true
  /-- From the moment it is issued, whatever runs beside it. -/
  create_returns : ∀ (i : ℕ) (p : NotificationCreate), ∀ n ∈ s.shared,
    s.calls[i]? = some (Operation.create p, Progress.started) → n.identity = p.identity →
      ∀ s', Runs s s' → ∃ q, s'.calls[i]? = some (Operation.create p, q) ∧ ReturnsExisting n q
  create_result : ∀ (i : ℕ) (p : NotificationCreate) (n : Notification),
    s.calls[i]? = some (Operation.create p, .done (.row n)) →
      n.identity = p.identity ∧ ∃ n' ∈ s.shared, n.Renews n'
  create_changes_nothing : ∀ (i : ℕ) (p : NotificationCreate), ∀ n ∈ s.shared,
    n.identity = p.identity → ∀ q q' rows', s.calls[i]? = some (Operation.create p, q) →
      Advance i (.create p) q s.shared q' rows' → rows' = s.shared
  frame : ∀ (i : ℕ) op q q' rows', s.calls[i]? = some (op, q) →
    Advance i op q s.shared q' rows' → rows'.filter op.foreign = s.shared.filter op.foreign

theorem storeInvariants_of_runs {s : Store} (h : Runs emptyStore s) : StoreInvariants s := by
  have hs := holds_of_runs h
  refine ⟨?_, hs.1.target, hs.1.read, ?_, ?_, ?_, ?_⟩
  · exact List.pairwise_map.mp hs.1.distinct
  · intro i p n hn hcall hidentity s' hrun
    exact returnsExisting_of_runs hs hcall hn hidentity hrun
  · intro i p n hcall
    exact hs.2 i _ _ hcall p rfl
  · intro i p n hn hidentity q q' rows' _ hadvance
    exact hadvance.create_existing hn hidentity
  · intro i op q q' rows' hcall hadvance
    exact (hadvance.effect hs.1 (hs.2 i op q hcall)).1.frame

namespace OneCreated

def payload : NotificationCreate where
  organizationId := 1
  recipientScope := .user
  userId := some 7
  scopeTarget := 7
  eventId := "e"
  scanId := "s"
  dedupeKey := "k"
  type := "scan_finished"
  title := "Scan finished"
  message := "No findings"
  organization_pos := by decide
  target_of := .inl (by decide)

def created : Store := ⟨[newRecord payload 1 0], [(.create payload, .inserted 1)]⟩

theorem created_reachable : Runs emptyStore created := by
  have hissued : Runs emptyStore ⟨[], [(.create payload, .started)]⟩ :=
    .single (.issue emptyStore (.create payload))
  have habsent : Runs emptyStore ⟨[], [(.create payload, .absent)]⟩ :=
    hissued.tail (.call (i := 0) rfl (.notFound rfl))
  refine habsent.tail (.call (i := 0) rfl (.insert 1 0 ?_ ?_ ?_))
  · intro n hn
    cases hn
  · exact enforceScopeInvariants_newRecord payload 1 0
  · exact List.nodup_singleton _

end OneCreated

theorem storeInvariants_of_one_created : StoreInvariants OneCreated.created :=
  storeInvariants_of_runs OneCreated.created_reachable

/-! ## What is marked stays marked -/

/-- The reader's notification with this id is marked as read. -/
def ShownRead (op : Operation) (rows : List Notification) (id : ℕ) : Prop :=
  ∃ n ∈ rows, n.id = id ∧ n.organizationId = op.org ∧ visibleTo op.user n = true ∧ n.isRead = true

/-- What the answer of a call says about the rows. -/
def Promises (op : Operation) (rows : List Notification) : Outcome → Prop
  | .marked true => ∃ id org user readAt, op = .markRead id org user readAt ∧ ShownRead op rows id
  | .count k => ∃ ids : List ℕ, ids.Nodup ∧ ids.length = k ∧ ∀ id ∈ ids, ShownRead op rows id
  | _ => True

def Asked (op : Operation) (records : List Notification) : Prop :=
  (records.map (·.id)).Nodup ∧
    ∀ id org user readAt, op = .markRead id org user readAt → records.map (·.id) = [id]

def Acknowledges (i : ℕ) (op : Operation) (p : Progress) (rows : List Notification) : Prop :=
  CallHolds i op p rows ∧
    match p with
    | .loaded records _ => Asked op records
    | .done outcome => Promises op rows outcome
    | _ => True

def StaysRead (rows rows' : List Notification) : Prop :=
  ∀ n ∈ rows, n.isRead = true → ∃ n' ∈ rows', n.Renews n' ∧ n'.isRead = true

theorem StaysRead.refl (rows : List Notification) : StaysRead rows rows :=
  fun n hn hread => ⟨n, hn, .refl n, hread⟩

theorem StaysRead.trans {a b c : List Notification} (hab : StaysRead a b) (hbc : StaysRead b c) :
    StaysRead a c := by
  intro n hn hread
  obtain ⟨n', hn', hrenews, hread'⟩ := hab n hn hread
  obtain ⟨n'', hn'', hrenews', hread''⟩ := hbc n' hn' hread'
  exact ⟨n'', hn'', hrenews.trans hrenews', hread''⟩

section

variable {i : ℕ} {op : Operation} {p p' : Progress} {rows rows' records : List Notification}
  {ts : DateTime}

theorem Promises.mono {outcome : Outcome} (h : Promises op rows outcome)
    (hstays : StaysRead rows rows') : Promises op rows' outcome := by
  have hshown : ∀ id, ShownRead op rows id → ShownRead op rows' id := by
    rintro id ⟨n, hn, hid, horg, hvisible, hread⟩
    obtain ⟨n', hn', hrenews, hread'⟩ := hstays n hn hread
    refine ⟨n', hn', ?_, ?_, ?_, hread'⟩
    · rw [hrenews, hid]
    · rw [hrenews, horg]
    · rw [hrenews]
      exact hvisible
  cases outcome with
  | marked found =>
    cases found with
    | false => trivial
    | true =>
      obtain ⟨id, org, user, readAt, hop, hread⟩ := h
      exact ⟨id, org, user, readAt, hop, hshown id hread⟩
  | count k =>
    obtain ⟨ids, hnodup, hlength, hread⟩ := h
    exact ⟨ids, hnodup, hlength, fun id hid => hshown id (hread id hid)⟩
  | _ => trivial

theorem isRead_updateOf {row : Notification} (h : row.id ∈ records.map (·.id)) :
    (updateOf records ts row).isRead = true := by
  obtain ⟨record, hrecord, hid⟩ := List.mem_map.mp h
  rw [updateOf]
  cases hfind : records.find? (·.id = row.id) with
  | none =>
    have hnot := List.find?_eq_none.mp hfind record hrecord
    simp [hid] at hnot
  | some record => rfl

theorem commitRead_shown (hrows : WellFormed rows) (hmine : ∀ r ∈ records, Mine rows op r)
    (h : commitRead rows records ts = some rows') :
    StaysRead rows rows' ∧ ∀ id ∈ records.map (·.id), ShownRead op rows' id := by
  obtain ⟨rfl, -⟩ := commitRead_eq_some h
  have hrenews : ∀ n ∈ rows, n.Renews (updateOf records ts n) := fun n hn =>
    updateOf_renews hrows hmine hn
  constructor
  · intro n hn hread
    refine ⟨updateOf records ts n, List.mem_map_of_mem hn, hrenews n hn, ?_⟩
    obtain hsame | hmarked := updateOf_cases records ts n
    · rw [hsame, hread]
    · exact hmarked
  · intro id hid
    obtain ⟨r, hr, rfl⟩ := List.mem_map.mp hid
    obtain ⟨horg, hvisible, n, hn, hown⟩ := hmine r hr
    have hboth : r.Renews (updateOf records ts n) := hown.trans (hrenews n hn)
    refine ⟨updateOf records ts n, List.mem_map_of_mem hn, ?_, ?_, ?_, isRead_updateOf ?_⟩
    · rw [hboth]
    · rw [hboth, horg]
    · rw [hboth]
      exact hvisible
    · rw [hown]
      exact hid

theorem Advance.staysRead (h : Advance i op p rows p' rows') (hrows : WellFormed rows)
    (hcall : CallHolds i op p rows) : StaysRead rows rows' := by
  cases h with
  | insert id now hid hhook hunique =>
    exact fun n hn hread => ⟨n, List.mem_append_left _ hn, .refl n, hread⟩
  | markCommit hcommit | allCommit hcommit => exact (commitRead_shown hrows hcall hcommit).1
  | _ => exact .refl rows

theorem id_of_recordToMark {id : ℕ} {org : ℤ} {user : Option ℤ} {n : Notification}
    (h : recordToMark rows id org user = some n) : n.id = id := by
  have hfound := List.find?_some h
  simp only [Bool.and_eq_true, decide_eq_true_eq] at hfound
  exact hfound.1.1

theorem Advance.acknowledges (h : Advance i op p rows p' rows') (hrows : WellFormed rows)
    (hack : Acknowledges i op p rows) : Acknowledges i op p' rows' := by
  refine ⟨(h.effect hrows hack.1).2, ?_⟩
  cases h with
  | markAlready horg hfind hread =>
    rename_i id org user readAt n
    obtain ⟨hof, hvisible, -⟩ := mine_of_recordToMark (.markRead id org user readAt) hfind
    exact ⟨id, org, user, readAt, rfl, n, List.mem_of_find?_eq_some hfind, id_of_recordToMark hfind, hof,
      hvisible, hread⟩
  | markLoad now horg hfind hread =>
    refine ⟨List.nodup_singleton _, ?_⟩
    intro id org user readAt hop
    cases hop
    rw [List.map_singleton, id_of_recordToMark hfind]
  | markCommit hcommit =>
    rename_i id org user readAt records ts
    have hshown := (commitRead_shown hrows hack.1 hcommit).2 id
    rw [hack.2.2 id org user readAt rfl] at hshown
    exact ⟨id, org, user, readAt, rfl, hshown List.mem_cons_self⟩
  | allNone horg hnone => exact ⟨[], List.nodup_nil, rfl, fun id hid => absurd hid List.not_mem_nil⟩
  | allLoad now horg hsome =>
    exact ⟨hrows.ids.sublist (List.filter_sublist.map _), fun id org user readAt hop => by cases hop⟩
  | allCommit hcommit =>
    exact ⟨_, hack.2.1, List.length_map .., (commitRead_shown hrows hack.1 hcommit).2⟩
  | _ => trivial

end

theorem stable_acknowledges (base : ℕ) :
    Stable (fun _ => Progress.started) Advance base WellFormed Acknowledges where
  issue _ _ _ _ _ := ⟨trivial, trivial⟩
  own _ _ _ _ _ _ hrows hcall h :=
    ⟨(h.effect hrows hcall.1).1.wellFormed, h.acknowledges hrows hcall⟩
  others _ _ _ _ _ _ hrows hcall h _ _ p _ hother := by
    refine ⟨hother.1.mono (h.effect hrows hcall.1).1.kept, ?_⟩
    cases p with
    | loaded records ts => exact hother.2
    | done outcome => exact Promises.mono hother.2 (h.staysRead hrows hcall.1)
    | _ => trivial

theorem staysRead_of_runs {s s' : Store} (h : Runs emptyStore s) (h' : Runs s s') :
    StaysRead s.shared s'.shared := by
  induction h' with
  | refl => exact .refl _
  | tail hruns hstep ih =>
    have hs := holds_of_runs (h.trans hruns)
    cases hstep with
    | issue op => exact ih
    | call hcall hadvance => exact ih.trans (hadvance.staysRead hs.1 (hs.2 _ _ _ hcall))

/-- What is read in `s`, and what the calls have answered there, still holds in `s'`. -/
structure MarkedForGood (s s' : Store) : Prop where
  stays : StaysRead s.shared s'.shared
  answers : ∀ (i : ℕ) op outcome, s.calls[i]? = some (op, Progress.done outcome) → Promises op s'.shared outcome

/-- **Marked for good.** Whichever calls run beside it and after it. -/
theorem markedForGood_of_runs {s s' : Store} (h : Runs emptyStore s) (h' : Runs s s') :
    MarkedForGood s s' := by
  have hstays := staysRead_of_runs h h'
  refine ⟨hstays, fun i op outcome hcall => ?_⟩
  have hs : Holds WellFormed Acknowledges s := by
    refine (stable_acknowledges _).steps ⟨wellFormed_nil, ?_⟩ h
    intro i op p hcall
    cases hcall
  exact Promises.mono (hs.2 i op _ hcall).2 hstays

namespace OneCreated

def markCall : Operation := .markRead 1 1 (some 7) (some 5)

def marked : Store :=
  ⟨[{ newRecord payload 1 0 with isRead := true, readAt := some 5 }],
    [(.create payload, .inserted 1), (markCall, .done (.marked true))]⟩

theorem marked_reachable : Runs emptyStore marked := by
  have hissued : Runs emptyStore ⟨created.shared, [(.create payload, .inserted 1), (markCall, .started)]⟩ :=
    created_reachable.tail (.issue created markCall)
  have hloaded : Runs emptyStore ⟨created.shared,
      [(.create payload, .inserted 1), (markCall, .loaded created.shared 5)]⟩ :=
    hissued.tail (.call (i := 1) rfl (.markLoad 0 (by decide) (by decide) rfl))
  exact hloaded.tail (.call (i := 1) rfl (.markCommit (by decide)))

end OneCreated

theorem markedForGood_of_one_marked : MarkedForGood OneCreated.marked OneCreated.marked :=
  markedForGood_of_runs OneCreated.marked_reachable .refl

end TimeCodeSecurity.Notifications
