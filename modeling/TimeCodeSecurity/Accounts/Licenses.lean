import TimeCodeSecurity.Accounts.Database
import TimeCodeSecurity.Foundations.Holdings

/-! # Who is premium

A licence key has one row and the row names one user; `is_premium` marks that a user has a key. An
activation gives the key to its user, and the user who had it before keeps the mark.
-/
namespace TimeCodeSecurity.Accounts
open Holdings
set_option autoImplicit false

/-- A user is premium exactly when some row of `licenses` is active and names that user. -/
def PremiumIffLicensed (db : Db) : Prop :=
  ∀ u ∈ db.users, u.isPremium ≠ 0 ↔ ∃ l ∈ db.licenses, l.isActive ≠ 0 ∧ l.userId = u.id

instance (db : Db) : Decidable (PremiumIffLicensed db) :=
  inferInstanceAs (Decidable (∀ u ∈ db.users, u.isPremium ≠ 0 ↔
    ∃ l ∈ db.licenses, l.isActive ≠ 0 ∧ l.userId = u.id))

def premiumUsers (db : Db) : List User := db.users.filter (·.isPremium ≠ 0)

def distinctKeys (db : Db) : List String := (db.licenses.map (·.licenseKey)).dedup

def activeRow (db : Db) (key : String) : Option License :=
  db.licenses.find? fun l => l.licenseKey = key && l.isActive ≠ 0

def book (db : Db) : Book String ℤ where
  holder key := (activeRow db key).map (·.userId)
  marked := {i | ∃ u ∈ db.users, u.id = i ∧ u.isPremium ≠ 0}

theorem holder_book {db : Db} (h : WellFormed db) (key : String) (i : ℤ) :
    (book db).holder key = some i ↔
      ∃ l ∈ db.licenses, l.licenseKey = key ∧ l.isActive ≠ 0 ∧ l.userId = i := by
  show (activeRow db key).map (·.userId) = some i ↔ _
  rw [Option.map_eq_some_iff]
  constructor
  · intro ⟨l, hl, hi⟩
    have hp := List.find?_some hl
    simp only [Bool.and_eq_true, decide_eq_true_eq] at hp
    exact ⟨l, List.mem_of_find?_eq_some hl, hp.1, hp.2, hi⟩
  · intro ⟨l, hl, hkey, hactive, hi⟩
    cases hfind : activeRow db key with
    | none =>
      have hno := List.find?_eq_none.mp hfind l hl
      simp [hkey, hactive] at hno
    | some m =>
      have hp := List.find?_some hfind
      simp only [Bool.and_eq_true, decide_eq_true_eq] at hp
      -- keys are unique, so the row found is this row
      have hml : m = l :=
        List.inj_on_of_nodup_map h.keys (List.mem_of_find?_eq_some hfind) hl (hp.1.trans hkey.symm)
      exact ⟨m, rfl, hml ▸ hi⟩

theorem user_eq_of_id {db : Db} (h : WellFormed db) {u v : User} (hu : u ∈ db.users)
    (hv : v ∈ db.users) (hid : u.id = v.id) : u = v :=
  List.inj_on_of_nodup_map h.ids hu hv hid

theorem balanced_book_iff {db : Db} (h : WellFormed db) :
    (book db).Balanced ↔ PremiumIffLicensed db := by
  constructor
  · intro hbal u hu
    have hmark : u.id ∈ (book db).marked ↔ u.isPremium ≠ 0 := by
      constructor
      · intro ⟨v, hv, hid, hp⟩
        rw [← user_eq_of_id h hv hu hid]
        exact hp
      · intro hp
        exact ⟨u, hu, rfl, hp⟩
    rw [← hmark, hbal u.id]
    constructor
    · intro ⟨key, hkey⟩
      obtain ⟨l, hl, _, hactive, hi⟩ := (holder_book h key u.id).mp hkey
      exact ⟨l, hl, hactive, hi⟩
    · intro ⟨l, hl, hactive, hi⟩
      exact ⟨l.licenseKey, (holder_book h _ _).mpr ⟨l, hl, rfl, hactive, hi⟩⟩
  · intro hpl i
    constructor
    · intro ⟨u, hu, hid, hp⟩
      obtain ⟨l, hl, hactive, hi⟩ := (hpl u hu).mp hp
      exact ⟨l.licenseKey, (holder_book h _ _).mpr ⟨l, hl, rfl, hactive, hi.trans hid⟩⟩
    · intro ⟨key, hkey⟩
      obtain ⟨l, hl, _, hactive, hi⟩ := (holder_book h key i).mp hkey
      obtain ⟨u, hu, hid⟩ := h.owners l hl
      exact ⟨u, hu, hid.trans hi, (hpl u hu).mpr ⟨l, hl, hactive, hid.symm⟩⟩

theorem book_append_user (db : Db) {user : User} (hp : user.isPremium = 0) :
    book { db with users := db.users ++ [user], userSeq := user.id } = book db := by
  have hmarked : ∀ i, (∃ u ∈ db.users ++ [user], u.id = i ∧ u.isPremium ≠ 0) ↔
      ∃ u ∈ db.users, u.id = i ∧ u.isPremium ≠ 0 := by
    intro i
    simp [or_and_right, exists_or, hp]
  rw [book, book]
  congr 1
  exact Set.ext hmarked

theorem mem_setPremium_users {db : Db} {i j : ℤ} :
    (∃ u ∈ (setPremium db i).users, u.id = j ∧ u.isPremium ≠ 0) ↔
      ∃ u ∈ db.users, u.id = j ∧ (u.id = i ∨ u.isPremium ≠ 0) := by
  simp only [setPremium, List.mem_map]
  constructor
  · rintro ⟨_, ⟨u, hu, rfl⟩, hid, hp⟩
    by_cases h : u.id = i
    · rw [if_pos h] at hid
      exact ⟨u, hu, hid, .inl h⟩
    · rw [if_neg h] at hid hp
      exact ⟨u, hu, hid, .inr hp⟩
  · rintro ⟨u, hu, hid, hp⟩
    refine ⟨_, ⟨u, hu, rfl⟩, ?_⟩
    by_cases h : u.id = i
    · rw [if_pos h]
      exact ⟨hid, one_ne_zero⟩
    · rw [if_neg h]
      exact ⟨hid, hp.resolve_left h⟩

theorem book_activated {db : Db} (h : WellFormed db) {row : License} (hrow : row.isActive = 1)
    (howner : ∃ u ∈ db.users, u.id = row.userId) :
    book (activated db row) = (book db).give row.licenseKey row.userId := by
  have hafter := h.activated hrow howner
  have hholder : (book (activated db row)).holder =
      ((book db).give row.licenseKey row.userId).holder := by
    funext key
    apply Option.ext
    intro i
    rw [holder_book hafter]
    by_cases hkey : key = row.licenseKey
    · rw [hkey, Book.holder_give_self, Option.some.injEq]
      constructor
      · intro ⟨l, hl, hlk, _, hi⟩
        rcases (mem_putLicense hrow l).mp hl with rfl | ⟨_, hne⟩
        · exact hi
        · exact absurd hlk hne
      · intro hi
        exact ⟨row, (mem_putLicense hrow row).mpr (.inl rfl), rfl, by omega, hi⟩
    · rw [Book.holder_give_of_ne _ _ hkey, holder_book h]
      constructor
      · intro ⟨l, hl, hlk, hrest⟩
        rcases (mem_putLicense hrow l).mp hl with rfl | ⟨hl, _⟩
        · exact absurd hlk.symm hkey
        · exact ⟨l, hl, hlk, hrest⟩
      · intro ⟨l, hl, hlk, hrest⟩
        exact ⟨l, (mem_putLicense hrow l).mpr (.inr ⟨hl, hlk ▸ hkey⟩), hlk, hrest⟩
  have hmarked : (book (activated db row)).marked =
      ((book db).give row.licenseKey row.userId).marked := by
    ext i
    rw [Book.mem_marked_give]
    show (∃ u ∈ (setPremium db row.userId).users, u.id = i ∧ u.isPremium ≠ 0) ↔
      i = row.userId ∨ ∃ u ∈ db.users, u.id = i ∧ u.isPremium ≠ 0
    rw [mem_setPremium_users]
    constructor
    · intro ⟨u, hu, hid, hp⟩
      rcases hp with hp | hp
      · exact .inl (hid ▸ hp)
      · exact .inr ⟨u, hu, hid, hp⟩
    · intro hi
      rcases hi with rfl | ⟨u, hu, hid, hp⟩
      · obtain ⟨u, hu, hid⟩ := howner
        exact ⟨u, hu, hid, .inl hid⟩
      · exact ⟨u, hu, hid, .inr hp⟩
  calc book (activated db row)
      = ⟨(book (activated db row)).holder, (book (activated db row)).marked⟩ := rfl
    _ = _ := by rw [hholder, hmarked]

theorem length_distinctKeys {db : Db} (h : WellFormed db) :
    (distinctKeys db).length = db.licenses.length := by
  rw [distinctKeys, h.keys.dedup, List.length_map]

theorem length_premiumUsers_le {db : Db} (h : WellFormed db) (hpl : PremiumIffLicensed db) :
    (premiumUsers db).length ≤ (distinctKeys db).length := by
  have hnodup : ((premiumUsers db).map (·.id)).Nodup :=
    h.ids.sublist (List.filter_sublist.map _)
  have hsub : (premiumUsers db).map (·.id) ⊆ db.licenses.map (·.userId) := by
    intro i hi
    obtain ⟨u, hu, rfl⟩ := List.mem_map.mp hi
    obtain ⟨hu, hp⟩ := List.mem_filter.mp hu
    obtain ⟨l, hl, _, howner⟩ := (hpl u hu).mp (of_decide_eq_true hp)
    exact List.mem_map.mpr ⟨l, hl, howner⟩
  have hle := (hnodup.subperm hsub).length_le
  rw [List.length_map, List.length_map] at hle
  rw [length_distinctKeys h]
  exact hle

/-! ## Histories -/

/-- The call goes through and takes from another user the only active key that names them. -/
def Call.LeavesUnlicensed : Call → Db → Prop
  | .createUser .., _ => False
  | .activateLicense env userId licenseKey _, db =>
    accepted env userId db = true ∧
      ∃ l ∈ db.licenses, l.licenseKey = strip licenseKey ∧ l.isActive ≠ 0 ∧ l.userId ≠ userId ∧
        ∀ l' ∈ db.licenses, l'.isActive ≠ 0 → l'.userId = l.userId → l'.licenseKey = strip licenseKey

def Call.raises (lower : String → String) : Call → Db → Bool
  | .createUser env email password, db =>
    !(Accounts.createUser lower env email password 0 db).1.isOk
  | .activateLicense env userId licenseKey tier, db =>
    !(Accounts.activateLicense env userId licenseKey tier db).1.isOk

theorem strips_book_iff {db : Db} (h : WellFormed db) (key : String) (userId : ℤ) :
    (book db).Strips key userId ↔
      ∃ l ∈ db.licenses, l.licenseKey = key ∧ l.isActive ≠ 0 ∧ l.userId ≠ userId ∧
        ∀ l' ∈ db.licenses, l'.isActive ≠ 0 → l'.userId = l.userId → l'.licenseKey = key := by
  constructor
  · intro ⟨v, hne, hkey, honly⟩
    obtain ⟨l, hl, hlk, hactive, rfl⟩ := (holder_book h key v).mp hkey
    exact ⟨l, hl, hlk, hactive, hne, fun l' hl' hactive' howner =>
      honly _ ((holder_book h _ _).mpr ⟨l', hl', rfl, hactive', howner⟩)⟩
  · intro ⟨l, hl, hlk, hactive, hne, honly⟩
    refine ⟨l.userId, hne, (holder_book h _ _).mpr ⟨l, hl, hlk, hactive, rfl⟩, ?_⟩
    intro key' hkey'
    obtain ⟨l', hl', rfl, hactive', howner⟩ := (holder_book h _ _).mp hkey'
    exact honly l' hl' hactive' howner

theorem exists_owner_of_accepted {env : Env} {userId : ℤ} {db : Db}
    (h : accepted env userId db = true) : ∃ u ∈ db.users, u.id = userId := by
  simp only [accepted, Bool.and_eq_true, List.any_eq_true] at h
  obtain ⟨⟨⟨⟨⟨_, u, hu, hid⟩, _⟩, _⟩, _⟩, _⟩ := h
  exact ⟨u, hu, of_decide_eq_true hid⟩

theorem premiumIffLicensed_after_iff {db : Db} (h : WellFormed db) (hpl : PremiumIffLicensed db)
    (lower : String → String) (call : Call) :
    PremiumIffLicensed (call.after lower db) ↔ ¬ call.LeavesUnlicensed db := by
  have hbal := (balanced_book_iff h).mpr hpl
  rw [← balanced_book_iff (h.after lower call)]
  cases call with
  | createUser env email password =>
    have hbook : book ((Call.createUser env email password).after lower db) = book db := by
      rw [Call.after]
      rcases createUser_cases lower env email password 0 db with heq | ⟨user, _, hp, heq⟩
      · rw [heq]
      · rw [heq, book_append_user db hp]
    rw [hbook]
    exact iff_of_true hbal not_false
  | activateLicense env userId licenseKey tier =>
    rcases activateLicense_cases env userId licenseKey tier db with ⟨hacc, e, heq⟩ | ⟨hacc, heq⟩
    · rw [Call.after, heq]
      refine iff_of_true hbal fun hleaves => ?_
      rw [Call.LeavesUnlicensed, hacc] at hleaves
      exact Bool.false_ne_true hleaves.1
    · have howner := exists_owner_of_accepted hacc
      rw [Call.after, heq, book_activated h rfl howner, Book.balanced_give_iff hbal, Call.LeavesUnlicensed,
        strips_book_iff h]
      exact ⟨fun hno hleaves => hno hleaves.2, fun hno hstrips => hno ⟨hacc, hstrips⟩⟩

theorem unchanged_of_raises (lower : String → String) (call : Call) (db : Db)
    (h : call.raises lower db = true) : call.after lower db = db := by
  cases call with
  | createUser env email password =>
    rcases withConnection_cases (createUserBody lower env email password 0) db with
      ⟨e, he⟩ | ⟨answer, db', _, hcall⟩
    · rw [Call.after, createUser, he]
    · rw [Call.raises, createUser, hcall] at h
      cases h
  | activateLicense env userId licenseKey tier =>
    rcases activateLicense_cases env userId licenseKey tier db with ⟨_, e, heq⟩ | ⟨_, heq⟩
    · rw [Call.after, heq]
    · rw [Call.raises, heq] at h
      cases h

section

variable (lower : String → String)

theorem history_concat (calls : List Call) (call : Call) :
    history lower (calls ++ [call]) = call.after lower (history lower calls) := by
  rw [history, List.foldl_append]
  rfl

theorem wellFormed_history (calls : List Call) : WellFormed (history lower calls) := by
  induction calls using List.reverseRecOn with
  | nil => exact wellFormed_initDb
  | append_singleton calls call ih =>
    rw [history_concat]
    exact ih.after lower call

/-- What holds of one call of a history: the tables agree after it, the premium users are no more than
the keys, and a call that raised changed nothing. -/
structure Call.Kept (call : Call) (before : Db) : Prop where
  agree : PremiumIffLicensed (call.after lower before)
  count : (premiumUsers (call.after lower before)).length ≤ (distinctKeys (call.after lower before)).length
  unchanged : call.raises lower before = true → call.after lower before = before

theorem premiumIffLicensed_history {calls : List Call}
    (h : ∀ pre call rest, calls = pre ++ call :: rest → ¬ call.LeavesUnlicensed (history lower pre)) :
    PremiumIffLicensed (history lower calls) := by
  induction calls using List.reverseRecOn with
  | nil =>
    intro u hu
    cases hu
  | append_singleton calls call ih =>
    have hbefore := ih fun pre c rest heq => h pre c (rest ++ [call]) (by rw [heq]; simp)
    rw [history_concat, premiumIffLicensed_after_iff (wellFormed_history lower calls) hbefore]
    exact h calls call [] rfl

/-- Through a whole history the tables agree after each call, with no more premium users than keys and no
change by a call that raises, exactly when no activation takes the only active key of another user. -/
theorem kept_throughout_iff (calls : List Call) :
    (∀ pre call rest, calls = pre ++ call :: rest → call.Kept lower (history lower pre)) ↔
      ∀ pre call rest, calls = pre ++ call :: rest → ¬ call.LeavesUnlicensed (history lower pre) := by
  constructor
  · intro hkept pre call rest heq
    have hbefore : PremiumIffLicensed (history lower pre) := by
      induction pre using List.reverseRecOn with
      | nil =>
        intro u hu
        cases hu
      | append_singleton pre last _ =>
        rw [history_concat]
        exact (hkept pre last (call :: rest) (by rw [heq]; simp)).agree
    exact (premiumIffLicensed_after_iff (wellFormed_history lower pre) hbefore lower call).mp
      (hkept pre call rest heq).agree
  · intro hcond pre call rest heq
    have hbefore : PremiumIffLicensed (history lower pre) :=
      premiumIffLicensed_history lower fun pre' c rest' heq' =>
        hcond pre' c (rest' ++ call :: rest) (by rw [heq, heq']; simp)
    have hwf := (wellFormed_history lower pre).after lower call
    have hagree :=
      (premiumIffLicensed_after_iff (wellFormed_history lower pre) hbefore lower call).mpr
        (hcond pre call rest heq)
    exact ⟨hagree, length_premiumUsers_le hwf hagree, unchanged_of_raises lower call _⟩

end

def quietEnv : Env :=
  { now := "2026-01-01T00:00:00+00:00", salt := "00", pbkdf2 := fun password salt => salt ++ password,
    refuses := fun _ => false }

def sharedKeyHistory : List Call :=
  [.createUser quietEnv "ann@example.com" "one", .createUser quietEnv "bob@example.com" "two",
    .activateLicense quietEnv 1 "KEY-1" "pro", .activateLicense quietEnv 2 "KEY-1" "pro"]

/-- After the second activation both users are premium, and the one row of the one key names the second. -/
theorem shared_key_leaves_two_premium :
    ¬ PremiumIffLicensed (history id sharedKeyHistory) ∧
      (premiumUsers (history id sharedKeyHistory)).map (·.id) = [1, 2] ∧
      (history id sharedKeyHistory).licenses.map (fun l => (l.licenseKey, l.userId)) = [("KEY-1", 2)] := by
  decide

end TimeCodeSecurity.Accounts
