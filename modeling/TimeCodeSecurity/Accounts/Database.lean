import TimeCodeSecurity.Foundations.Pep440

/-! # Users and licences

The two tables of the account store and the two calls that write both. A call works on a copy of the
tables that the file receives at the commit; a call that raises closes its connection before that.
-/
namespace TimeCodeSecurity.Accounts
set_option autoImplicit false

structure User where
  id : ℤ
  email : String
  passwordHash : String
  salt : String
  isPremium : ℤ
  trialStart : String
  createdAt : String
deriving DecidableEq, Repr

structure License where
  userId : ℤ
  licenseKey : String
  tier : String
  appliedAt : String
  isActive : ℤ
deriving DecidableEq, Repr

/-- `userSeq` is the last id that `AUTOINCREMENT` gave to a user. -/
structure Db where
  users : List User
  licenses : List License
  userSeq : ℤ
deriving DecidableEq, Repr

/-- The file that `init_db` leaves on its first run. -/
def initDb : Db := { users := [], licenses := [], userSeq := 0 }

inductive Error
  | overflow
  | integrity
  | full
  -- the engine refuses: locked, read-only, out of space
  | operational
deriving DecidableEq, Repr

inductive Stage
  | connect | first | second | commit
deriving DecidableEq, Repr

structure Env where
  now : String
  salt : String
  pbkdf2 : String → String → String
  refuses : Stage → Bool

def Env.pass (env : Env) (stage : Stage) : Except Error Unit :=
  if env.refuses stage then .error .operational else .ok ()

def inRange (n : ℤ) : Bool := -2 ^ 63 ≤ n && n < 2 ^ 63

def bindInt (n : ℤ) : Except Error Unit := if inRange n then .ok () else .error .overflow

/-- `get_db_connection`: what the body wrote reaches the file only if the body did not raise. -/
def withConnection {α : Type} (body : Db → Except Error (α × Db)) (db : Db) : Except Error α × Db :=
  match body db with
  | .ok (a, db') => (.ok a, db')
  | .error e => (.error e, db)

def strip (s : String) : String := String.ofList (Pep440.strip s.toList)

/-- What `COLLATE NOCASE` compares. -/
def noCase (s : String) : List Char := s.toList.map Char.toLower

def hashPassword (env : Env) (password : String) : String × String :=
  (env.pbkdf2 password env.salt, env.salt)

def insertUser (db : Db) (user : User) : Except Error Db :=
  if 2 ^ 63 ≤ user.id then .error .full
  else if db.users.any fun u => noCase u.email = noCase user.email then .error .integrity
  else .ok { db with users := db.users ++ [user], userSeq := user.id }

/-- What `create_user` answers. -/
structure CreatedUser where
  id : ℤ
  email : String
  isPremium : ℤ
  trialStart : String
  createdAt : String
deriving DecidableEq, Repr

section

variable (lower : String → String)

/-- Under the connection; `lower` is `str.lower`. -/
def createUserBody (env : Env) (email password : String) (isPremium : ℤ) (db : Db) :
    Except Error (CreatedUser × Db) := do
  let emailClean := lower (strip email)
  let hashed := hashPassword env password
  env.pass .connect
  env.pass .first
  bindInt isPremium
  let user : User :=
    { id := db.userSeq + 1, email := emailClean, passwordHash := hashed.1, salt := hashed.2, isPremium,
      trialStart := env.now, createdAt := env.now }
  let db ← insertUser db user
  env.pass .commit
  return ({ id := user.id, email := emailClean, isPremium, trialStart := env.now,
            createdAt := env.now }, db)

def createUser (env : Env) (email password : String) (isPremium : ℤ) :
    Db → Except Error CreatedUser × Db :=
  withConnection (createUserBody lower env email password isPremium)

end

/-- `UPDATE users SET is_premium = 1 WHERE id = ?`. -/
def setPremium (db : Db) (userId : ℤ) : Db :=
  { db with users := db.users.map fun u => if u.id = userId then { u with isPremium := 1 } else u }

/-- The rows after `INSERT INTO licenses ... ON CONFLICT(license_key) DO UPDATE`. -/
def putLicense (licenses : List License) (row : License) : List License :=
  if licenses.any (·.licenseKey = row.licenseKey) then
    licenses.map fun l =>
      if l.licenseKey = row.licenseKey then
        { l with userId := row.userId, tier := row.tier, appliedAt := row.appliedAt, isActive := 1 }
      else l
  else licenses ++ [row]

def upsertLicense (db : Db) (row : License) : Except Error Db :=
  if db.users.any (·.id = row.userId) then .ok { db with licenses := putLicense db.licenses row }
  else .error .integrity

def activateLicenseBody (env : Env) (userId : ℤ) (licenseKey tier : String) (db : Db) :
    Except Error (Bool × Db) := do
  let cleanKey := strip licenseKey
  env.pass .connect
  bindInt userId
  env.pass .first
  let db := setPremium db userId
  env.pass .second
  let db ← upsertLicense db
    { userId, licenseKey := cleanKey, tier, appliedAt := env.now, isActive := 1 }
  env.pass .commit
  return (true, db)

def activateLicense (env : Env) (userId : ℤ) (licenseKey tier : String) :
    Db → Except Error Bool × Db :=
  withConnection (activateLicenseBody env userId licenseKey tier)

/-- The two calls; `create_user` with its default for `is_premium`. -/
inductive Call
  | createUser (env : Env) (email password : String)
  | activateLicense (env : Env) (userId : ℤ) (licenseKey tier : String)

section

variable (lower : String → String)

def Call.after : Call → Db → Db
  | .createUser env email password, db => (Accounts.createUser lower env email password 0 db).2
  | .activateLicense env userId licenseKey tier, db =>
    (Accounts.activateLicense env userId licenseKey tier db).2

/-- The file after a history. -/
def history (calls : List Call) : Db := calls.foldl (fun db call => call.after lower db) initDb

end

end TimeCodeSecurity.Accounts

/-! ## The constraints of the account store

What a call comes to, and what the schema keeps in every file: ids and keys are unique, and each licence
names a user who is there.
-/
namespace TimeCodeSecurity.Accounts

structure WellFormed (db : Db) : Prop where
  ids : (db.users.map (·.id)).Nodup
  le_seq : ∀ u ∈ db.users, u.id ≤ db.userSeq
  keys : (db.licenses.map (·.licenseKey)).Nodup
  owners : ∀ l ∈ db.licenses, ∃ u ∈ db.users, u.id = l.userId

theorem wellFormed_initDb : WellFormed initDb where
  ids := List.nodup_nil
  le_seq := by simp [initDb]
  keys := List.nodup_nil
  owners := by simp [initDb]

/-! ## What a call does -/

theorem insertUser_cases {db db' : Db} {user : User} (h : insertUser db user = .ok db') :
    db' = { db with users := db.users ++ [user], userSeq := user.id } := by
  rw [insertUser] at h
  split_ifs at h
  exact (Except.ok.inj h).symm

theorem bind_eq_ok {α β : Type} {x : Except Error α} {f : α → Except Error β} {b : β} :
    x >>= f = .ok b ↔ ∃ a, x = .ok a ∧ f a = .ok b := by
  cases x with
  | error e => simp [bind, Except.bind]
  | ok a => simp [bind, Except.bind]

theorem withConnection_cases {α : Type} (body : Db → Except Error (α × Db)) (db : Db) :
    (∃ e, withConnection body db = (.error e, db)) ∨
      ∃ a db', body db = .ok (a, db') ∧ withConnection body db = (.ok a, db') := by
  rw [withConnection]
  cases h : body db with
  | error e => exact .inl ⟨e, rfl⟩
  | ok r => exact .inr ⟨r.1, r.2, rfl, rfl⟩

theorem createUser_cases (lower : String → String) (env : Env) (email password : String)
    (isPremium : ℤ) (db : Db) :
    (createUser lower env email password isPremium db).2 = db ∨
      ∃ user : User, user.id = db.userSeq + 1 ∧ user.isPremium = isPremium ∧
        (createUser lower env email password isPremium db).2 =
          { db with users := db.users ++ [user], userSeq := user.id } := by
  rcases withConnection_cases (createUserBody lower env email password isPremium) db with
    ⟨e, he⟩ | ⟨answer, db', hbody, hcall⟩
  · left
    rw [createUser, he]
  · right
    simp only [createUserBody, bind_eq_ok] at hbody
    obtain ⟨_, _, _, _, _, _, db₁, hins, _, _, hret⟩ := hbody
    rw [createUser, hcall]
    cases hret
    exact ⟨_, rfl, rfl, insertUser_cases hins⟩

def accepted (env : Env) (userId : ℤ) (db : Db) : Bool :=
  inRange userId && db.users.any (·.id = userId) && !env.refuses .connect && !env.refuses .first &&
    !env.refuses .second && !env.refuses .commit

def licenseRow (env : Env) (userId : ℤ) (licenseKey tier : String) : License :=
  { userId, licenseKey := strip licenseKey, tier, appliedAt := env.now, isActive := 1 }

def activated (db : Db) (row : License) : Db :=
  { setPremium db row.userId with licenses := putLicense db.licenses row }

theorem any_id_setPremium (db : Db) (i j : ℤ) :
    (setPremium db i).users.any (·.id = j) = db.users.any (·.id = j) := by
  rw [setPremium, List.any_map]
  congr 1
  funext u
  by_cases h : u.id = i
  · simp [h]
  · simp [h]

theorem pass_eq_ok {env : Env} {stage : Stage} {u : Unit} :
    env.pass stage = .ok u ↔ env.refuses stage = false := by
  rw [Env.pass]
  cases env.refuses stage with
  | true => simp
  | false => simp

theorem bindInt_eq_ok {n : ℤ} {u : Unit} : bindInt n = .ok u ↔ inRange n = true := by
  rw [bindInt]
  cases inRange n with
  | true => simp
  | false => simp

theorem upsertLicense_eq_ok {db db' : Db} {row : License} :
    upsertLicense db row = .ok db' ↔
      db.users.any (·.id = row.userId) = true ∧
        { db with licenses := putLicense db.licenses row } = db' := by
  rw [upsertLicense]
  split_ifs with h
  · simp [h]
  · simp [h]

theorem activateLicenseBody_eq_ok (env : Env) (userId : ℤ) (licenseKey tier : String) (db : Db)
    (r : Bool × Db) :
    activateLicenseBody env userId licenseKey tier db = .ok r ↔
      accepted env userId db = true ∧
        (true, activated db (licenseRow env userId licenseKey tier)) = r := by
  simp only [activateLicenseBody, bind_eq_ok, pass_eq_ok, bindInt_eq_ok, upsertLicense_eq_ok,
    any_id_setPremium, accepted, Bool.and_eq_true, Bool.not_eq_true', pure, Except.pure,
    Except.ok.injEq]
  constructor
  · intro ⟨_, h₁, _, h₂, _, h₃, _, h₄, db', ⟨h₅, h₆⟩, _, h₇, h₈⟩
    subst h₆
    exact ⟨⟨⟨⟨⟨⟨h₂, h₅⟩, h₁⟩, h₃⟩, h₄⟩, h₇⟩, h₈⟩
  · intro ⟨⟨⟨⟨⟨⟨h₂, h₅⟩, h₁⟩, h₃⟩, h₄⟩, h₇⟩, h₈⟩
    exact ⟨(), h₁, (), h₂, (), h₃, (), h₄, _, ⟨h₅, rfl⟩, (), h₇, h₈⟩

theorem activateLicense_cases (env : Env) (userId : ℤ) (licenseKey tier : String) (db : Db) :
    (accepted env userId db = false ∧
        ∃ e, activateLicense env userId licenseKey tier db = (.error e, db)) ∨
      (accepted env userId db = true ∧ activateLicense env userId licenseKey tier db =
        (.ok true, activated db (licenseRow env userId licenseKey tier))) := by
  rcases withConnection_cases (activateLicenseBody env userId licenseKey tier) db with
    ⟨e, he⟩ | ⟨answer, db', hbody, hcall⟩
  · cases hacc : accepted env userId db with
    | false => exact .inl ⟨rfl, e, he⟩
    | true =>
      have hok := (activateLicenseBody_eq_ok env userId licenseKey tier db _).mpr ⟨hacc, rfl⟩
      rw [withConnection, hok] at he
      cases he
  · obtain ⟨hacc, heq⟩ := (activateLicenseBody_eq_ok env userId licenseKey tier db _).mp hbody
    cases heq
    exact .inr ⟨hacc, hcall⟩

theorem mem_putLicense {licenses : List License} {row : License} (hrow : row.isActive = 1)
    (l : License) :
    l ∈ putLicense licenses row ↔ l = row ∨ l ∈ licenses ∧ l.licenseKey ≠ row.licenseKey := by
  rw [putLicense]
  split_ifs with hany
  · -- the row that has the key becomes the new row
    have hmerge : ∀ m : License, m.licenseKey = row.licenseKey →
        { m with userId := row.userId, tier := row.tier, appliedAt := row.appliedAt,
                 isActive := 1 } = row := by
      intro m hm
      cases m
      cases row
      simp_all
    rw [List.mem_map]
    constructor
    · intro ⟨m, hm, heq⟩
      by_cases hkey : m.licenseKey = row.licenseKey
      · rw [if_pos hkey, hmerge m hkey] at heq
        exact .inl heq.symm
      · rw [if_neg hkey] at heq
        exact .inr (heq ▸ ⟨hm, hkey⟩)
    · intro h
      rcases h with rfl | ⟨hl, hkey⟩
      · obtain ⟨m, hm, hkey⟩ := List.any_eq_true.mp hany
        have hkey := of_decide_eq_true hkey
        exact ⟨m, hm, by rw [if_pos hkey, hmerge m hkey]⟩
      · exact ⟨l, hl, if_neg hkey⟩
  · have hnone : ∀ m ∈ licenses, m.licenseKey ≠ row.licenseKey := by
      intro m hm hkey
      exact hany (List.any_eq_true.mpr ⟨m, hm, decide_eq_true hkey⟩)
    rw [List.mem_append, List.mem_singleton, or_comm]
    constructor
    · intro h
      exact h.imp_right fun hl => ⟨hl, hnone l hl⟩
    · intro h
      exact h.imp_right And.left

theorem keys_putLicense (licenses : List License) (row : License) :
    (putLicense licenses row).map (·.licenseKey) =
      if licenses.any (·.licenseKey = row.licenseKey) then licenses.map (·.licenseKey)
      else licenses.map (·.licenseKey) ++ [row.licenseKey] := by
  rw [putLicense]
  split_ifs with hany
  · rw [List.map_map]
    apply List.map_congr_left
    intro m _
    by_cases hkey : m.licenseKey = row.licenseKey
    · simp [hkey]
    · simp [hkey]
  · rw [List.map_append]
    rfl

theorem nodup_keys_putLicense {licenses : List License} (row : License)
    (h : (licenses.map (·.licenseKey)).Nodup) :
    ((putLicense licenses row).map (·.licenseKey)).Nodup := by
  rw [keys_putLicense]
  split_ifs with hany
  · exact h
  · refine List.nodup_append.mpr ⟨h, List.nodup_singleton _, ?_⟩
    intro key hkey key' hkey' heq
    obtain ⟨m, hm, hmk⟩ := List.mem_map.mp hkey
    rw [List.mem_singleton.mp hkey'] at heq
    exact hany (List.any_eq_true.mpr ⟨m, hm, decide_eq_true (hmk.trans heq)⟩)

theorem ids_setPremium (db : Db) (i : ℤ) :
    (setPremium db i).users.map (·.id) = db.users.map (·.id) := by
  rw [setPremium, List.map_map]
  apply List.map_congr_left
  intro u _
  by_cases h : u.id = i
  · simp [h]
  · simp [h]

theorem WellFormed.append_user {db : Db} (h : WellFormed db) {user : User}
    (hid : user.id = db.userSeq + 1) :
    WellFormed { db with users := db.users ++ [user], userSeq := user.id } where
  ids := by
    rw [List.map_append]
    refine List.nodup_append.mpr ⟨h.ids, List.nodup_singleton _, ?_⟩
    intro i hi j hj heq
    obtain ⟨u, hu, rfl⟩ := List.mem_map.mp hi
    have hle := h.le_seq u hu
    have hj : j = user.id := List.mem_singleton.mp hj
    have heq : u.id = j := heq
    omega
  le_seq := by
    intro u hu
    rcases List.mem_append.mp hu with hu | hu
    · have hle := h.le_seq u hu
      show u.id ≤ user.id
      omega
    · rw [List.mem_singleton.mp hu]
  keys := h.keys
  owners := by
    intro l hl
    obtain ⟨u, hu, heq⟩ := h.owners l hl
    exact ⟨u, List.mem_append_left _ hu, heq⟩

theorem exists_id_iff_mem (users : List User) (i : ℤ) :
    (∃ u ∈ users, u.id = i) ↔ i ∈ users.map (·.id) :=
  List.mem_map.symm

theorem WellFormed.activated {db : Db} (h : WellFormed db) {row : License} (hrow : row.isActive = 1)
    (howner : ∃ u ∈ db.users, u.id = row.userId) : WellFormed (activated db row) where
  ids := by
    show ((setPremium db row.userId).users.map (·.id)).Nodup
    rw [ids_setPremium]
    exact h.ids
  le_seq := by
    intro u hu
    have hmem : u.id ∈ (setPremium db row.userId).users.map (·.id) := List.mem_map_of_mem hu
    rw [ids_setPremium] at hmem
    obtain ⟨v, hv, heq⟩ := List.mem_map.mp hmem
    rw [← heq]
    exact h.le_seq v hv
  keys := nodup_keys_putLicense row h.keys
  owners := by
    intro l hl
    show ∃ u ∈ (setPremium db row.userId).users, u.id = l.userId
    rw [exists_id_iff_mem, ids_setPremium, ← exists_id_iff_mem]
    rcases (mem_putLicense hrow l).mp hl with rfl | ⟨hl, _⟩
    · exact howner
    · exact h.owners l hl

theorem WellFormed.after {db : Db} (h : WellFormed db) (lower : String → String) (call : Call) :
    WellFormed (call.after lower db) := by
  cases call with
  | createUser env email password =>
    rcases createUser_cases lower env email password 0 db with heq | ⟨user, hid, _, heq⟩
    · rw [Call.after, heq]
      exact h
    · rw [Call.after, heq]
      exact h.append_user hid
  | activateLicense env userId licenseKey tier =>
    rcases activateLicense_cases env userId licenseKey tier db with ⟨_, e, heq⟩ | ⟨hacc, heq⟩
    · rw [Call.after, heq]
      exact h
    · rw [Call.after, heq]
      refine h.activated rfl ?_
      simp only [accepted, Bool.and_eq_true, List.any_eq_true] at hacc
      obtain ⟨⟨⟨⟨⟨_, u, hu, hid⟩, _⟩, _⟩, _⟩, _⟩ := hacc
      exact ⟨u, hu, of_decide_eq_true hid⟩

end TimeCodeSecurity.Accounts
