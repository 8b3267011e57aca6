import TimeCodeSecurity.Foundations.Pep440

/-! # Notifications

Rows of the store, the hook that runs before a row is written, and the payload of `create`. A notification
is for one user or for the organization; `scope_target` says which, zero being the organization.
-/
namespace TimeCodeSecurity.Notifications
set_option autoImplicit false

inductive RecipientScope
  | user | organization
deriving DecidableEq, Repr

def RecipientScope.value : RecipientScope → String
  | user => "USER"
  | organization => "ORGANIZATION"

abbrev DateTime := ℤ

/-- A row of the table. -/
structure Notification where
  id : ℕ
  organizationId : ℤ
  recipientScope : String
  userId : Option ℤ
  scopeTarget : ℤ
  eventId : String
  scanId : String
  dedupeKey : String
  type : String
  severity : String
  title : String
  message : String
  link : Option String
  isRead : Bool
  readAt : Option DateTime
  createdAt : DateTime
deriving DecidableEq, Repr

/-- What the unique constraint `uq_notification_dedupe` is about. -/
abbrev Identity := ℤ × ℤ × String × String

def Notification.identity (n : Notification) : Identity :=
  (n.organizationId, n.scopeTarget, n.dedupeKey, n.type)

def TargetOf (scope : String) (userId : Option ℤ) (target : ℤ) : Prop :=
  scope = "USER" ∧ 0 < target ∧ userId = some target ∨
    scope = "ORGANIZATION" ∧ userId = none ∧ target = 0

def derivedTarget (scope : String) (userId : Option ℤ) : Option ℤ :=
  if scope = "USER" then
    match userId with
    | some u => if u ≤ 0 then none else some u
    | none => none
  else if scope = "ORGANIZATION" then
    match userId with
    | some _ => none
    | none => some 0
  else none

theorem derivedTarget_eq_some_iff {scope : String} {userId : Option ℤ} {target : ℤ} :
    derivedTarget scope userId = some target ↔ TargetOf scope userId target := by
  unfold derivedTarget TargetOf
  by_cases huser : scope = "USER"
  · subst huser
    cases userId with
    | none => simp
    | some u =>
      by_cases hu : u ≤ 0
      · simp [hu]
        intro hpos heq
        omega
      · simp [hu]
        omega
  · by_cases horg : scope = "ORGANIZATION"
    · subst horg
      cases userId with
      | none => simp [eq_comm]
      | some u => simp
    · simp [huser, horg]

/-- `_enforce_notification_scope_invariants`, before an insert and before an update. -/
def enforceScopeInvariants (n : Notification) : Option Notification :=
  (derivedTarget n.recipientScope n.userId).map fun target => { n with scopeTarget := target }

def strip (s : String) : String := String.ofList (Pep440.strip s.toList)

/-- What the caller of `create` gives. The severity, the title, the message and the link are those that
their own validators return; a target that the caller gives is not looked at. -/
structure NotificationData where
  organizationId : ℤ
  recipientScope : RecipientScope
  userId : Option ℤ := none
  eventId : String
  scanId : String
  dedupeKey : String
  type : String
  severity : String := "INFO"
  title : String
  message : String
  link : Option String := none
  scopeTarget : ℤ := 0
deriving DecidableEq, Repr

structure NotificationCreate extends NotificationData where
  organization_pos : 0 < organizationId
  target_of : TargetOf recipientScope.value userId scopeTarget

def NotificationCreate.identity (p : NotificationCreate) : Identity :=
  (p.organizationId, p.scopeTarget, p.dedupeKey, p.type)

/-- `validate_event_id` and its siblings, with the bound of the field. -/
def validateKey (bound : ℕ) (v : String) : Option String :=
  if v = "" ∨ strip v = "" ∨ v.length > bound then none else some (strip v)

def NotificationCreate.init (data : NotificationData) : Option NotificationCreate :=
  if horg : 0 < data.organizationId then do
    let eventId ← validateKey 64 data.eventId
    let scanId ← validateKey 64 data.scanId
    let dedupeKey ← validateKey 64 data.dedupeKey
    let type ← validateKey 32 data.type
    match htarget : derivedTarget data.recipientScope.value data.userId with
    | some target =>
      return {
        data with
        eventId, scanId, dedupeKey, type, scopeTarget := target
        organization_pos := horg, target_of := derivedTarget_eq_some_iff.mp htarget }
    | none => none
  else none

/-- The record `create` adds. -/
def newRecord (p : NotificationCreate) (id : ℕ) (now : DateTime) : Notification where
  id := id
  organizationId := p.organizationId
  recipientScope := p.recipientScope.value
  userId := p.userId
  scopeTarget := p.scopeTarget
  eventId := p.eventId
  scanId := p.scanId
  dedupeKey := p.dedupeKey
  type := p.type
  severity := p.severity
  title := p.title
  message := p.message
  link := p.link
  isRead := false
  readAt := none
  createdAt := now

theorem enforceScopeInvariants_newRecord (p : NotificationCreate) (id : ℕ) (now : DateTime) :
    enforceScopeInvariants (newRecord p id now) = some (newRecord p id now) := by
  have htarget := derivedTarget_eq_some_iff.mpr p.target_of
  rw [enforceScopeInvariants]
  show (derivedTarget p.recipientScope.value p.userId).map _ = _
  rw [htarget]
  rfl

end TimeCodeSecurity.Notifications

/-! ## Queries and updates of the store

`SqliteNotificationRepository`: each query filters the rows of one organization by what the user may see.
The queries with a scope filter ask for the scope alone when no user is given, and then return the USER
rows of every user.
-/
namespace TimeCodeSecurity.Notifications

inductive Error
  | valueError (text : String)
  | rolledBack
deriving DecidableEq, Repr

theorem Except.bind_eq_ok {ε α β : Type} {x : Except ε α} {f : α → Except ε β} {b : β} :
    (x >>= f) = .ok b ↔ ∃ a, x = .ok a ∧ f a = .ok b := by
  cases x with
  | error e =>
    constructor
    · intro h
      cases h
    · rintro ⟨_, h, _⟩
      cases h
  | ok a =>
    constructor
    · intro h
      exact ⟨a, rfl, h⟩
    · rintro ⟨_, h, hf⟩
      cases h
      exact hf

def checkOrganization (org : ℤ) : Except Error Unit :=
  if org ≤ 0 then .error (.valueError "organization_id must be a positive integer.") else .ok ()

def checkUser : Option ℤ → Except Error Unit
  | some u =>
    if u ≤ 0 then .error (.valueError "user_id must be a positive integer or None.") else .ok ()
  | none => .ok ()

def checkPage (limit offset : ℤ) : Except Error Unit :=
  if limit < 0 ∨ offset < 0 then
    .error (.valueError "limit and offset must be non-negative integers.")
  else .ok ()

def checkScope : Option String → Except Error Unit
  | some s =>
    if s ∈ [RecipientScope.user.value, RecipientScope.organization.value] then .ok ()
    else .error (.valueError ("Invalid recipient_scope '" ++ s ++ "'."))
  | none => .ok ()

def visibleTo (user : Option ℤ) (n : Notification) : Bool :=
  match user with
  | some u =>
    (n.recipientScope = "USER" && n.userId = some u) || n.recipientScope = "ORGANIZATION"
  | none => n.recipientScope = "ORGANIZATION"

def inScope (user : Option ℤ) (scope : Option String) (n : Notification) : Bool :=
  match scope with
  | some s =>
    n.recipientScope = s &&
      match user with
      | some u => s ≠ "USER" || n.userId = some u
      | none => true
  | none => visibleTo user n

/-- `created_at DESC, id DESC`. -/
def newerFirst (a b : Notification) : Prop :=
  b.createdAt < a.createdAt ∨ b.createdAt = a.createdAt ∧ b.id ≤ a.id

instance : DecidableRel newerFirst := fun a b =>
  inferInstanceAs (Decidable (b.createdAt < a.createdAt ∨ b.createdAt = a.createdAt ∧ b.id ≤ a.id))

section Reading

variable (rows : List Notification) (org : ℤ) (user : Option ℤ)

def getById (id : ℕ) : Except Error (Option Notification) := do
  checkOrganization org
  checkUser user
  return rows.find? fun n => n.id = id && n.organizationId = org && visibleTo user n

variable (scope : Option String)

def selected (unreadOnly : Bool) : List Notification :=
  rows.filter fun n => n.organizationId = org && (!unreadOnly || !n.isRead) && inScope user scope n

def listNotifications (unreadOnly : Bool) (limit offset : ℤ) : Except Error (List Notification) := do
  checkOrganization org
  checkUser user
  checkPage limit offset
  checkScope scope
  let ordered := (selected rows org user scope unreadOnly).insertionSort newerFirst
  let page := ordered.drop offset.toNat
  return if limit = 0 then page else page.take limit.toNat

/-- The rows that `count_unread` counts. -/
def countedUnread : List Notification := selected rows org user scope true

def countUnread : Except Error ℕ := do
  checkOrganization org
  checkUser user
  checkScope scope
  return (countedUnread rows org user scope).length

end Reading

def updateOf (records : List Notification) (ts : DateTime) (row : Notification) : Notification :=
  match records.find? (·.id = row.id) with
  | none => row
  | some record =>
    let target := (derivedTarget record.recipientScope record.userId).getD record.scopeTarget
    { row with
      isRead := true, readAt := some ts
      scopeTarget := if target = record.scopeTarget then row.scopeTarget else target }

def identitiesDistinct (rows : List Notification) : Prop := (rows.map (·.identity)).Nodup

instance (rows : List Notification) : Decidable (identitiesDistinct rows) :=
  inferInstanceAs (Decidable (List.Nodup _))

def commitRead (rows records : List Notification) (ts : DateTime) : Option (List Notification) :=
  if records.all (fun r => (enforceScopeInvariants r).isSome) then
    let rows' := rows.map (updateOf records ts)
    if identitiesDistinct rows' then some rows' else none
  else none

/-- The row `mark_read` asks for. -/
def recordToMark (rows : List Notification) (id : ℕ) (org : ℤ) (user : Option ℤ) :
    Option Notification :=
  rows.find? fun n => n.id = id && n.organizationId = org && visibleTo user n

/-- The rows `mark_all_read` asks for. -/
def recordsToMark (rows : List Notification) (org : ℤ) (user : Option ℤ) : List Notification :=
  rows.filter fun n => n.organizationId = org && !n.isRead && visibleTo user n

def markAllRead (rows : List Notification) (org : ℤ) (user : Option ℤ) (ts : DateTime) :
    Except Error (List Notification × ℕ) := do
  checkOrganization org
  let records := recordsToMark rows org user
  if records.length > 0 then
    match commitRead rows records ts with
    | some rows' => return (rows', records.length)
    | none => .error .rolledBack
  else return (rows, 0)

def Notification.IsFor (org : ℤ) (user : Option ℤ) (n : Notification) : Prop :=
  n.organizationId = org ∧
    (n.recipientScope = "ORGANIZATION" ∨ n.recipientScope = "USER" ∧ user.isSome ∧ n.userId = user)

structure ReadsIsolated (rows : List Notification) (org : ℤ) (user : Option ℤ)
    (scope : Option String) : Prop where
  get : ∀ id n, getById rows org user id = .ok (some n) → n.IsFor org user
  listed : ∀ unreadOnly limit offset ns,
    listNotifications rows org user scope unreadOnly limit offset = .ok ns →
      ∀ n ∈ ns, n.IsFor org user
  counted : ∀ k, countUnread rows org user scope = .ok k →
    ∀ n ∈ countedUnread rows org user scope, n.IsFor org user
  count_eq : countUnread rows org user scope =
    (listNotifications rows org user scope true 0 0).map List.length
  none_left : ∀ ts rows' k, markAllRead rows org user ts = .ok (rows', k) →
    ∀ left, countUnread rows' org user none = .ok left → left = 0

theorem visibleTo_iff {user : Option ℤ} {n : Notification} :
    visibleTo user n = true ↔ n.recipientScope = "ORGANIZATION" ∨
      n.recipientScope = "USER" ∧ user.isSome ∧ n.userId = user := by
  cases user with
  | none => simp [visibleTo]
  | some u => simp [visibleTo, or_comm]

theorem isFor_of_inScope {org : ℤ} {user : Option ℤ} {scope : Option String} {n : Notification}
    (horg : n.organizationId = org) (hscope : checkScope scope = .ok ())
    (h : inScope user scope n = true)
    (hown : user = none → scope = some "USER" → n.recipientScope ≠ "USER") : n.IsFor org user := by
  refine ⟨horg, ?_⟩
  cases scope with
  | none => exact visibleTo_iff.mp h
  | some s =>
    simp only [inScope, Bool.and_eq_true, decide_eq_true_eq] at h
    have hvalid : s = "USER" ∨ s = "ORGANIZATION" := by
      by_contra hnot
      simp [checkScope, RecipientScope.value, hnot] at hscope
    obtain rfl | rfl := hvalid
    · cases user with
      | none => exact absurd h.1 (hown rfl rfl)
      | some u => exact .inr ⟨h.1, rfl, by simpa using h.2⟩
    · exact .inl h.1

theorem mem_selected {rows : List Notification} {org : ℤ} {user : Option ℤ} {scope : Option String}
    {unreadOnly : Bool} {n : Notification} :
    n ∈ selected rows org user scope unreadOnly ↔ n ∈ rows ∧ n.organizationId = org ∧
      (unreadOnly = true → n.isRead = false) ∧ inScope user scope n = true := by
  simp [selected, and_assoc]
  cases unreadOnly <;> simp

section Results

variable {rows : List Notification} {org : ℤ} {user : Option ℤ} {scope : Option String}

theorem getById_eq_ok {id : ℕ} {n : Notification} (h : getById rows org user id = .ok (some n)) :
    n.organizationId = org ∧ visibleTo user n = true := by
  simp only [getById, Except.bind_eq_ok] at h
  obtain ⟨_, _, _, _, hfind⟩ := h
  have hfound := List.find?_some (Except.ok.inj hfind)
  simp only [Bool.and_eq_true, decide_eq_true_eq] at hfound
  exact ⟨hfound.1.2, hfound.2⟩

def Accepted (org : ℤ) (user : Option ℤ) (scope : Option String) : Prop :=
  checkOrganization org = .ok () ∧ checkUser user = .ok () ∧ checkScope scope = .ok ()

theorem listNotifications_eq_ok {unreadOnly : Bool} {limit offset : ℤ} {ns : List Notification}
    (h : listNotifications rows org user scope unreadOnly limit offset = .ok ns) :
    Accepted org user scope ∧ ∀ n ∈ ns, n ∈ selected rows org user scope unreadOnly := by
  simp only [listNotifications, Except.bind_eq_ok] at h
  obtain ⟨_, horg, _, huser, _, _, _, hscope, hpage⟩ := h
  refine ⟨⟨horg, huser, hscope⟩, fun n hn => ?_⟩
  have hsub : ns.Sublist ((selected rows org user scope unreadOnly).insertionSort newerFirst) := by
    rw [← Except.ok.inj hpage]
    split
    · exact List.drop_sublist _ _
    · exact (List.take_sublist _ _).trans (List.drop_sublist _ _)
  exact (List.mem_insertionSort _).mp (hsub.subset hn)

theorem listNotifications_unbounded (h : Accepted org user scope) (unreadOnly : Bool) :
    listNotifications rows org user scope unreadOnly 0 0 =
      .ok ((selected rows org user scope unreadOnly).insertionSort newerFirst) := by
  rw [listNotifications, h.1, h.2.1, h.2.2]
  rfl

theorem countUnread_eq_ok {k : ℕ} (h : countUnread rows org user scope = .ok k) :
    Accepted org user scope ∧ k = (countedUnread rows org user scope).length := by
  simp only [countUnread, Except.bind_eq_ok] at h
  obtain ⟨_, horg, _, huser, _, hscope, hlength⟩ := h
  exact ⟨⟨horg, huser, hscope⟩, (Except.ok.inj hlength).symm⟩

theorem countUnread_eq_length_list : countUnread rows org user scope =
    (listNotifications rows org user scope true 0 0).map List.length := by
  rw [countUnread, listNotifications, countedUnread]
  cases checkOrganization org with
  | error e => rfl
  | ok _ =>
    cases checkUser user with
    | error e => rfl
    | ok _ =>
      cases checkScope scope with
      | error e => rfl
      | ok _ => simp [bind, Except.bind, pure, Except.pure, Except.map, checkPage]

end Results

/-! ## After everything is marked -/

theorem updateOf_of_mem {records : List Notification} {ts : DateTime} {row : Notification}
    (h : row ∈ records) : (updateOf records ts row).isRead = true := by
  rw [updateOf]
  cases hfind : records.find? (·.id = row.id) with
  | none =>
    have hnot := List.find?_eq_none.mp hfind row h
    simp at hnot
  | some record => rfl

theorem updateOf_cases (records : List Notification) (ts : DateTime) (row : Notification) :
    updateOf records ts row = row ∨ (updateOf records ts row).isRead = true := by
  rw [updateOf]
  cases records.find? (·.id = row.id) with
  | none => exact .inl rfl
  | some record => exact .inr rfl

theorem commitRead_eq_some {rows records rows' : List Notification} {ts : DateTime}
    (h : commitRead rows records ts = some rows') :
    rows' = rows.map (updateOf records ts) ∧ identitiesDistinct rows' := by
  rw [commitRead] at h
  split at h
  · simp only at h
    split at h
    · rename_i hdistinct
      cases h
      exact ⟨rfl, hdistinct⟩
    · cases h
  · cases h

theorem markAllRead_eq_ok {rows rows' : List Notification} {org : ℤ} {user : Option ℤ}
    {ts : DateTime} {k : ℕ} (h : markAllRead rows org user ts = .ok (rows', k)) :
    (rows' = rows ∧ recordsToMark rows org user = []) ∨
      rows' = rows.map (updateOf (recordsToMark rows org user) ts) := by
  simp only [markAllRead, Except.bind_eq_ok] at h
  obtain ⟨_, _, h⟩ := h
  split at h
  · cases hcommit : commitRead rows (recordsToMark rows org user) ts with
    | none =>
      rw [hcommit] at h
      cases h
    | some committed =>
      rw [hcommit] at h
      cases h
      exact .inr (commitRead_eq_some hcommit).1
  · rename_i hnone
    cases h
    exact .inl ⟨rfl, by simpa using hnone⟩

theorem countedUnread_after_markAllRead {rows rows' : List Notification} {org : ℤ}
    {user : Option ℤ} {ts : DateTime} {k : ℕ}
    (h : markAllRead rows org user ts = .ok (rows', k)) :
    countedUnread rows' org user none = [] := by
  have hunread : ∀ n ∈ rows, n.organizationId = org → n.isRead = false →
      visibleTo user n = true → n ∈ recordsToMark rows org user := by
    intro n hn horg hread hvisible
    simp [recordsToMark, hn, horg, hread, hvisible]
  apply List.eq_nil_iff_forall_not_mem.mpr
  intro n hn
  obtain ⟨hmem, horg, hread, hvisible⟩ := mem_selected.mp hn
  have hread := hread rfl
  obtain ⟨rfl, hnil⟩ | rfl := markAllRead_eq_ok h
  · have hrecord := hunread n hmem horg hread hvisible
    rw [hnil] at hrecord
    cases hrecord
  · obtain ⟨row, hrow, rfl⟩ := List.mem_map.mp hmem
    obtain hsame | hmarked := updateOf_cases (recordsToMark rows org user) ts row
    · rw [hsame] at horg hread hvisible
      have hmarked : (updateOf (recordsToMark rows org user) ts row).isRead = true :=
        updateOf_of_mem (hunread row hrow horg hread hvisible)
      rw [hsame, hread] at hmarked
      cases hmarked
    · rw [hread] at hmarked
      cases hmarked

theorem readsIsolated_iff (rows : List Notification) (org : ℤ) (user : Option ℤ)
    (scope : Option String) :
    ReadsIsolated rows org user scope ↔
      (0 < org → user = none → scope = some "USER" →
        ∀ n ∈ rows, n.organizationId = org → n.recipientScope ≠ "USER") := by
  constructor
  · intro h horg huser hscope n hn hof hn_user
    subst huser hscope
    have haccepted : Accepted org none (some "USER") := by
      refine ⟨?_, rfl, rfl⟩
      rw [checkOrganization, if_neg (by omega)]
    have hselected : n ∈ selected rows org none (some "USER") false :=
      mem_selected.mpr ⟨hn, hof, by simp, by simp [inScope, hn_user]⟩
    have hfor := h.listed false 0 0 _ (listNotifications_unbounded haccepted false) n
      ((List.mem_insertionSort _).mpr hselected)
    obtain horganization | ⟨_, hsome, _⟩ := hfor.2
    · rw [hn_user] at horganization
      exact absurd horganization (by decide)
    · cases hsome
  · intro h
    have hselected : ∀ unreadOnly, Accepted org user scope →
        ∀ n ∈ selected rows org user scope unreadOnly, n.IsFor org user := by
      intro unreadOnly haccepted n hn
      obtain ⟨hmem, hof, _, hin⟩ := mem_selected.mp hn
      have hpos : 0 < org := by
        have hcheck := haccepted.1
        rw [checkOrganization] at hcheck
        split at hcheck
        · cases hcheck
        · omega
      exact isFor_of_inScope hof haccepted.2.2 hin fun huser hscope =>
        h hpos huser hscope n hmem hof
    refine ⟨?_, ?_, ?_, countUnread_eq_length_list, ?_⟩
    · intro id n hget
      have hfound := getById_eq_ok hget
      exact ⟨hfound.1, visibleTo_iff.mp hfound.2⟩
    · intro unreadOnly limit offset ns hlist n hn
      have hlisted := listNotifications_eq_ok hlist
      exact hselected unreadOnly hlisted.1 n (hlisted.2 n hn)
    · intro k hcount
      exact hselected true (countUnread_eq_ok hcount).1
    · intro ts rows' k hmark left hleft
      rw [(countUnread_eq_ok hleft).2, countedUnread_after_markAllRead hmark]
      rfl

namespace FilteredByScope

/-- A row of user 7 in organization 1. -/
def ofUserSeven : Notification where
  id := 1
  organizationId := 1
  recipientScope := "USER"
  userId := some 7
  scopeTarget := 7
  eventId := "e"
  scanId := "s"
  dedupeKey := "k"
  type := "scan_finished"
  severity := "INFO"
  title := "Scan finished"
  message := "No findings"
  link := none
  isRead := false
  readAt := none
  createdAt := 0

end FilteredByScope

theorem readsIsolated_fails_without_user :
    ¬ ReadsIsolated [FilteredByScope.ofUserSeven] 1 none (some "USER") := by
  intro h
  have hcounted := h.counted 1 (by decide) FilteredByScope.ofUserSeven (by decide)
  obtain horganization | ⟨_, hsome, _⟩ := hcounted.2
  · revert horganization
    decide
  · cases hsome

end TimeCodeSecurity.Notifications
