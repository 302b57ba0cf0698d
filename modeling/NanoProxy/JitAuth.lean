import NanoProxy.JitForms
import NanoProxy.JsonWriter
import NanoProxy.Lib.Outputs
import NanoProxy.Lib.StringMap
import Mathlib.Logic.Function.Basic

/-!
# Accounts and sessions of the JIT backend (jit_backend/app.cy, api.cy)

The workers share the table of users and the map of sessions. Each statement on the database
and each access to the map is a step of its own, so that the handlers of different workers
come between one another. SHA-256 and the random bytes are given.
-/

namespace JitAuth

open CLib RequestDecoder JitForms StringMap Outputs

structure Sha256 where
  digest : Bytes → Bytes
  length : ∀ m, (digest m).length = 32

abbrev Salt := { raw : Bytes // raw.length = 16 }

abbrev Secret := { raw : Bytes // raw.length = 32 }

def hexEncode (bytes : Bytes) : Bytes :=
  bytes.flatMap fun b => [JsonWriter.hexDigit (b.toNat / 16), JsonWriter.hexDigit (b.toNat % 16)]

/-- `snprintf(combined, sizeof(combined), "%s%s", salt, password)` -/
def combined (salt password : Bytes) : Bytes := (salt ++ password).take 319

def sha256Hex (sha : Sha256) (input : Bytes) : Bytes := hexEncode (sha.digest input)

/-- `salt$hash` -/
def hashPassword (sha : Sha256) (raw : Salt) (password : Bytes) : Bytes :=
  let salt := hexEncode raw.1
  (salt ++ 36 :: sha256Hex sha (combined salt password)).take 159

def verifyPassword (sha : Sha256) (password stored : Bytes) : Bool :=
  match stored.findIdx? (· == 36) with
  | none => false
  | some saltlen =>
    if 64 ≤ saltlen then false
    else sha256Hex sha (combined (stored.take saltlen) password) == stored.drop (saltlen + 1)

inductive Field where
  | null
  | text (s : Bytes)
  | int (n : Int)

/-- A response with the members of its JSON object. -/
structure Response where
  status : Nat
  statusText : Bytes
  body : List (Bytes × Field)
  setCookie : Option Bytes

def jsonResp (status : Nat) (statusText : String) (body : List (Bytes × Field)) : Response :=
  ⟨status, ascii statusText, body, none⟩

def errResp (status : Nat) (statusText detail : String) : Response :=
  jsonResp status statusText [(ascii "detail", .text (ascii detail))]

/-- A row of `users`. -/
structure User where
  id : Nat
  username : Bytes
  displayName : Option Bytes
  passwordHash : Bytes

/-- The members of the body of a registration; a missing one is NULL. They are read as C strings. -/
structure Registration where
  username : Option Bytes
  password : Option Bytes
  displayName : Option Bytes

/-- Where a worker is in a handler. -/
inductive Job where
  | idle
  | registering (username displayName passwordHash : Bytes)
  | loggingIn (token : Bytes) (uid : Int)
  | showing (uid : Int)

/-- `NUM_WORKERS` -/
abbrev Worker := Fin 64

structure State where
  users : List User
  /-- the last id of AUTOINCREMENT -/
  lastId : Nat
  sessions : List (Bytes × Int32)
  jobs : Worker → Job

inductive Event where
  | hRegister (w : Worker) (body : Option Registration) (salt : Salt)
  | insert (w : Worker)
  | hLogin (w : Worker) (rawBody : Option Bytes) (secret : Secret)
  | put (w : Worker)
  | hMe (w : Worker) (cookie : Option Bytes)
  | row (w : Worker)
  | hLogout (w : Worker)

def State.setJob (s : State) (w : Worker) (job : Job) : State :=
  { s with jobs := Function.update s.jobs w job }

def sessionGet (s : State) (token : Bytes) : Int := ((get token s.sessions).getD 0).toInt

def sessionPut (s : State) (token : Bytes) (uid : Int) : State :=
  { s with sessions := put token (Int32.ofInt uid) s.sessions }

/-- The look-ups by name and by id. -/
def userNamed (s : State) (username : Bytes) : Option User :=
  s.users.find? (·.username = username)

def getUserRow (s : State) (id : Int) : Option User := s.users.find? fun user => user.id = id

/-- The INSERT, which fails on a name that is there. -/
def insertUser (s : State) (username displayName passwordHash : Bytes) : State :=
  match userNamed s username with
  | some _ => s
  | none =>
    { s with
      users := s.users ++ [⟨s.lastId + 1, username, some displayName, passwordHash⟩]
      lastId := s.lastId + 1 }

variable (sha : Sha256)

def hRegister (s : State) (w : Worker) (body : Option Registration) (salt : Salt) :
    State × Option Response :=
  match body with
  | none => (s, some (errResp 400 "Bad Request" "invalid JSON"))
  | some body =>
    let username := cstr (body.username.getD [])
    let password := cstr (body.password.getD [])
    if username = [] ∨ password = [] then
      (s, some (errResp 400 "Bad Request" "username and password required"))
    else
      match userNamed s username with
      | some _ => (s, some (errResp 409 "Conflict" "Username already taken"))
      | none =>
        let displayName := cstr (body.displayName.getD [])
        (s.setJob w (.registering username (if displayName = [] then username else displayName)
          (hashPassword sha salt password)), none)

/-- The name and the password of a login. -/
def credentials (rawBody : Option Bytes) : Bytes × Bytes :=
  let b := rawBody.getD []
  ((formField b (ascii "username") 128).getD [], (formField b (ascii "password") 128).getD [])

def refused : Response := errResp 401 "Unauthorized" "Invalid credentials"

def hLogin (s : State) (w : Worker) (rawBody : Option Bytes) (secret : Secret) :
    State × Option Response :=
  let (username, password) := credentials rawBody
  if username = [] ∨ password = [] then (s, some refused)
  else
    match userNamed s username with
    | none => (s, some refused)
    | some user =>
      if verifyPassword sha password user.passwordHash then
        (s.setJob w (.loggingIn (hexEncode secret.1) user.id), none)
      else (s, some refused)

def registered : Response :=
  jsonResp 201 "Created" [(ascii "message", .text (ascii "User created successfully"))]

def loggedIn (token : Bytes) : Response :=
  { jsonResp 200 "OK" [(ascii "access_token", .text token),
      (ascii "token_type", .text (ascii "bearer"))] with
    setCookie := some (ascii "access_token=" ++ token ++ ascii "; Path=/; HttpOnly; SameSite=Lax") }

def unauthenticated : Response := errResp 401 "Unauthorized" "Not authenticated"

def authUid (s : State) (cookie : Option Bytes) : Int :=
  let tok := cookie.getD []
  if tok = [] then 0 else sessionGet s tok

def hMe (s : State) (w : Worker) (cookie : Option Bytes) : State × Option Response :=
  let uid := authUid s cookie
  if uid = 0 then (s, some unauthenticated) else (s.setJob w (.showing uid), none)

def shown (uid : Int) (username : Bytes) (displayName : Option Bytes) : Response :=
  jsonResp 200 "OK" [(ascii "id", .int uid), (ascii "username", .text username),
    (ascii "display_name", displayName.elim .null .text)]

/-- `h_logout` has no more to do than to answer. -/
def loggedOut : Response := jsonResp 200 "OK" [(ascii "message", .text (ascii "Logged out"))]

/-- A handler starts at an idle worker and goes on where it is. -/
def step (s : State) : Event → State × Option Response
  | .hRegister w body salt =>
    match s.jobs w with
    | .idle => hRegister sha s w body salt
    | _ => (s, none)
  | .insert w =>
    match s.jobs w with
    | .registering username displayName passwordHash =>
      ((insertUser s username displayName passwordHash).setJob w .idle, some registered)
    | _ => (s, none)
  | .hLogin w rawBody secret =>
    match s.jobs w with
    | .idle => hLogin sha s w rawBody secret
    | _ => (s, none)
  | .put w =>
    match s.jobs w with
    | .loggingIn token uid => ((sessionPut s token uid).setJob w .idle, some (loggedIn token))
    | _ => (s, none)
  | .hMe w cookie =>
    match s.jobs w with
    | .idle => hMe s w cookie
    | _ => (s, none)
  | .row w =>
    match s.jobs w with
    | .showing uid =>
      (s.setJob w .idle, some (match getUserRow s uid with
        | none => unauthenticated
        | some user => shown uid user.username user.displayName))
    | _ => (s, none)
  | .hLogout w =>
    match s.jobs w with
    | .idle => (s, some loggedOut)
    | _ => (s, none)

/-- An account with its password as it was given. -/
structure Account where
  username : Bytes
  displayName : Option Bytes
  password : Bytes

inductive Task where
  | idle
  | registering (account : Account)
  | loggingIn (token : Bytes) (id : Nat)
  | showing (id : Nat)

/-- Accounts are numbered from 1 in the order in which they were stored, and never go. -/
structure Store where
  accounts : List Account
  sessions : List (Bytes × Nat)
  tasks : Worker → Task

namespace Store

def setTask (a : Store) (w : Worker) (task : Task) : Store :=
  { a with tasks := Function.update a.tasks w task }

def taken (a : Store) (username : Bytes) : Bool := a.accounts.any (·.username = username)

/-- The number of the account with this name and password. -/
def login (a : Store) (username password : Bytes) : Option Nat :=
  (a.accounts.findIdx? (·.username = username)).bind fun i =>
    (a.accounts[i]?).bind fun account =>
      if account.password = password then some (i + 1) else none

def register (a : Store) (w : Worker) (account : Account) : Store × Option Response :=
  if account.username = [] ∨ account.password = [] then
    (a, some (errResp 400 "Bad Request" "username and password required"))
  else if a.taken account.username then
    (a, some (errResp 409 "Conflict" "Username already taken"))
  else (a.setTask w (.registering account), none)

def step (a : Store) : Event → Store × Option Response
  | .hRegister w body _ =>
    match a.tasks w, body with
    | .idle, none => (a, some (errResp 400 "Bad Request" "invalid JSON"))
    | .idle, some body =>
      let username := cstr (body.username.getD [])
      let displayName := cstr (body.displayName.getD [])
      a.register w ⟨username, some (if displayName = [] then username else displayName),
        cstr (body.password.getD [])⟩
    | _, _ => (a, none)
  | .insert w =>
    match a.tasks w with
    | .registering account =>
      let accounts := if a.taken account.username then a.accounts else a.accounts ++ [account]
      ({ a with accounts := accounts }.setTask w .idle, some registered)
    | _ => (a, none)
  | .hLogin w rawBody secret =>
    match a.tasks w with
    | .idle =>
      let (username, password) := credentials rawBody
      match if username = [] ∨ password = [] then none else a.login username password with
      | none => (a, some refused)
      | some id => (a.setTask w (.loggingIn (hexEncode secret.1) id), none)
    | _ => (a, none)
  | .put w =>
    match a.tasks w with
    | .loggingIn token id =>
      ({ a with sessions := StringMap.put token id a.sessions }.setTask w .idle,
        some (loggedIn token))
    | _ => (a, none)
  | .hMe w cookie =>
    match a.tasks w with
    | .idle =>
      match get (cookie.getD []) a.sessions with
      | none => (a, some unauthenticated)
      | some id => (a.setTask w (.showing id), none)
    | _ => (a, none)
  | .row w =>
    match a.tasks w with
    | .showing id =>
      (a.setTask w .idle, some (match a.accounts[id - 1]? with
        | none => unauthenticated
        | some account => shown id account.username account.displayName))
    | _ => (a, none)
  | .hLogout w =>
    match a.tasks w with
    | .idle => (a, some loggedOut)
    | _ => (a, none)

end Store

theorem hexEncode_cons (b : UInt8) (bytes : Bytes) :
    hexEncode (b :: bytes) =
      JsonWriter.hexDigit (b.toNat / 16) :: JsonWriter.hexDigit (b.toNat % 16) :: hexEncode bytes :=
  rfl

theorem hexEncode_length (bytes : Bytes) : (hexEncode bytes).length = 2 * bytes.length := by
  induction bytes with
  | nil => rfl
  | cons b bytes ih =>
    rw [hexEncode_cons, List.length_cons, List.length_cons, List.length_cons, ih]
    omega

theorem hexEncode_ne_nil (secret : Secret) : hexEncode secret.1 ≠ [] := by
  rw [← List.length_pos_iff, hexEncode_length, secret.2]
  decide

theorem hexDigits_dollar (b : UInt8) :
    JsonWriter.hexDigit (b.toNat / 16) ≠ 36 ∧ JsonWriter.hexDigit (b.toNat % 16) ≠ 36 := by
  have all := forall_byte (p := fun b => JsonWriter.hexDigit (b.toNat / 16) != 36 &&
    JsonWriter.hexDigit (b.toNat % 16) != 36) (by decide +kernel) b
  simpa using all

theorem dollar_not_mem (bytes : Bytes) : 36 ∉ hexEncode bytes := by
  induction bytes with
  | nil => exact List.not_mem_nil
  | cons b bytes ih =>
    obtain ⟨high, low⟩ := hexDigits_dollar b
    rw [hexEncode_cons, List.mem_cons, List.mem_cons, not_or, not_or]
    exact ⟨high.symm, low.symm, ih⟩

theorem hexDigit_inj : ∀ m n : Fin 16,
    JsonWriter.hexDigit m = JsonWriter.hexDigit n → m = n := by decide

theorem hexEncode_inj {a b : Bytes} (same : hexEncode a = hexEncode b) : a = b := by
  induction a generalizing b with
  | nil =>
    cases b with
    | nil => rfl
    | cons c b => cases same
  | cons c a ih =>
    cases b with
    | nil => cases same
    | cons d b =>
      rw [hexEncode_cons, hexEncode_cons] at same
      obtain ⟨high, rest⟩ := List.cons.inj same
      obtain ⟨low, rest⟩ := List.cons.inj rest
      have quotient (b : UInt8) : b.toNat / 16 < 16 := Nat.div_lt_of_lt_mul b.toNat_lt
      have remainder (b : UInt8) : b.toNat % 16 < 16 := Nat.mod_lt _ (by decide)
      have high := Fin.mk.inj (hexDigit_inj ⟨_, quotient c⟩ ⟨_, quotient d⟩ high)
      have low := Fin.mk.inj (hexDigit_inj ⟨_, remainder c⟩ ⟨_, remainder d⟩ low)
      have byte : c = d := UInt8.toNat_inj.mp (by omega)
      rw [byte, ih rest]

variable {sha}

/-- What stands behind the dollar sign is compared. -/
theorem verifyPassword_iff {salt : Salt} {password given : Bytes} :
    verifyPassword sha given (hashPassword sha salt password) = true ↔
      sha.digest (combined (hexEncode salt.1) given) =
        sha.digest (combined (hexEncode salt.1) password) := by
  have length : (hexEncode salt.1).length = 32 := by rw [hexEncode_length, salt.2]
  have whole : hashPassword sha salt password =
      hexEncode salt.1 ++ 36 :: sha256Hex sha (combined (hexEncode salt.1) password) := by
    refine List.take_of_length_le ?_
    rw [List.length_append, List.length_cons, length, sha256Hex, hexEncode_length, sha.length]
    decide
  have dollar : (hashPassword sha salt password).findIdx? (· == 36) = some 32 := by
    have found : memchr (hashPassword sha salt password) 36 0 =
        some (0 + (hexEncode salt.1).length) :=
      memchr_append whole fun b listed same => dollar_not_mem salt.1 (same ▸ listed)
    rw [memchr, List.drop_zero, length] at found
    obtain ⟨k, at_k, shifted⟩ := Option.map_eq_some_iff.mp found
    rw [at_k, ← Nat.zero_add k, shifted]
  unfold verifyPassword
  rw [dollar]
  dsimp only
  rw [if_neg (by decide), whole, List.take_left' length, beq_iff_eq]
  have behind (hash : Bytes) : (hexEncode salt.1 ++ 36 :: hash).drop (32 + 1) = hash := by
    rw [← length, List.drop_length_add_append]
    rfl
  rw [behind]
  exact ⟨fun same => hexEncode_inj same, fun same => congrArg hexEncode same⟩

/-- A short password is found among all, also among those that are cut. -/
theorem combined_eq (salt : Salt) {password given : Bytes} (short : given.length ≤ 127) :
    combined (hexEncode salt.1) given = combined (hexEncode salt.1) password ↔
      given = password := by
  have length : (hexEncode salt.1).length = 32 := by rw [hexEncode_length, salt.2]
  have split (s : Bytes) : combined (hexEncode salt.1) s = hexEncode salt.1 ++ s.take 287 := by
    rw [combined, List.take_append, List.take_of_length_le (by omega), length]
  rw [split, split, List.append_cancel_left_eq, List.take_of_length_le (by omega)]
  constructor
  · intro same
    have cut := congrArg List.length same
    rw [List.length_take] at cut
    rw [same, List.take_of_length_le (by omega)]
  · intro same
    rw [← same, List.take_of_length_le (by omega)]

theorem credentials_short (rawBody : Option Bytes) : (credentials rawBody).2.length ≤ 127 := by
  change ((formField (rawBody.getD []) (ascii "password") 128).getD []).length ≤ 127
  cases read : formField (rawBody.getD []) (ascii "password") 128 with
  | none => exact Nat.zero_le 127
  | some value => exact formField_length read

def row (sha : Sha256) (i : Nat) (entry : Account × Salt) : User :=
  ⟨i + 1, entry.1.username, entry.1.displayName, hashPassword sha entry.2 entry.1.password⟩

/-- The rows of accounts with their salts. -/
def rows (sha : Sha256) (entries : List (Account × Salt)) : List User :=
  entries.mapIdx (row sha)

section Rows

variable {entries : List (Account × Salt)}

theorem rows_concat (entry : Account × Salt) :
    rows sha (entries ++ [entry]) = rows sha entries ++ [row sha entries.length entry] :=
  List.mapIdx_concat

/-- The row of a name is that of the first account with the name. -/
theorem find_named (username : Bytes) :
    (rows sha entries).find? (·.username = username) =
      ((entries.map Prod.fst).findIdx? (·.username = username)).bind
        fun i => entries[i]?.map (row sha i) := by
  induction entries using List.reverseRecOn with
  | nil => rfl
  | append_singleton entries entry ih =>
    rw [rows_concat, List.find?_append, ih, List.map_append, List.findIdx?_append]
    cases earlier : (entries.map Prod.fst).findIdx? (·.username = username) with
    | some i =>
      have inside := (List.findIdx?_eq_some_iff_getElem.mp earlier).1
      rw [List.length_map] at inside
      rw [Option.some_or, Option.bind_some, Option.bind_some, List.getElem?_append_left inside,
        List.getElem?_eq_getElem inside]
      rfl
    | none =>
      by_cases same : entry.1.username = username
      · simp [row, same]
      · simp [row, same]

theorem find_id {id : Nat} (positive : 0 < id) :
    (rows sha entries).find? (fun user => (user.id : Int) = (id : Int)) =
      entries[id - 1]?.map (row sha (id - 1)) := by
  induction entries using List.reverseRecOn with
  | nil => rfl
  | append_singleton entries entry ih =>
    rw [rows_concat, List.find?_append, ih]
    by_cases inside : id - 1 < entries.length
    · rw [List.getElem?_append_left inside, List.getElem?_eq_getElem inside]
      rfl
    · rw [List.getElem?_eq_none (Nat.le_of_not_lt inside), Option.map_none, Option.none_or,
        List.getElem?_append_right (Nat.le_of_not_lt inside)]
      by_cases last : id = entries.length + 1
      · simp [row, last]
      · have beyond : id - 1 - entries.length ≠ 0 := by omega
        have other : ((entries.length + 1 : Nat) : Int) ≠ (id : Int) := fun same =>
          last (Int.ofNat_inj.mp same).symm
        rw [List.find?_singleton, row, decide_eq_false other, List.getElem?_singleton,
          if_neg beyond]
        rfl

end Rows

def Event.salts : Event → List Salt
  | .hRegister _ _ salt => [salt]
  | _ => []

/-- The passwords of registrations and logins. -/
def Event.passwords : Event → List Bytes
  | .hRegister _ (some body) _ => [cstr (body.password.getD [])]
  | .hLogin _ rawBody _ => [(credentials rawBody).2]
  | _ => []

section Refinement

variable (sha : Sha256) (salts : List Salt) (passwords : List Bytes)

/-- None of the passwords have one hash with the same salt, unless they are cut to one text. -/
def CollisionFree : Prop :=
  ∀ salt ∈ salts, ∀ p ∈ passwords, ∀ q ∈ passwords,
    sha.digest (combined (hexEncode salt.1) p) = sha.digest (combined (hexEncode salt.1) q) →
      combined (hexEncode salt.1) p = combined (hexEncode salt.1) q

instance : Decidable (CollisionFree sha salts passwords) :=
  inferInstanceAs (Decidable (∀ salt ∈ salts, ∀ p ∈ passwords, ∀ q ∈ passwords,
    sha.digest (combined (hexEncode salt.1) p) = sha.digest (combined (hexEncode salt.1) q) →
      combined (hexEncode salt.1) p = combined (hexEncode salt.1) q))

/-- A worker is at the same place of its handler. -/
inductive Doing : Job → Task → Prop
  | idle : Doing .idle .idle
  | registering {username displayName password : Bytes} {salt : Salt} (drawn : salt ∈ salts)
    (given : password ∈ passwords) :
    Doing (.registering username displayName (hashPassword sha salt password))
      (.registering ⟨username, some displayName, password⟩)
  | loggingIn {token : Bytes} {id : Nat} (nonempty : token ≠ []) (positive : 0 < id)
    (small : id < 2 ^ 31) : Doing (.loggingIn token id) (.loggingIn token id)
  | showing {id : Nat} (positive : 0 < id) : Doing (.showing id) (.showing id)

/-- The table of users is that of the accounts, with a salt for each. -/
structure Tabled (entries : List (Account × Salt)) (s : State) (a : Store) : Prop where
  users : s.users = rows sha entries
  lastId : s.lastId = entries.length
  accounts : a.accounts = entries.map Prod.fst
  known : ∀ e ∈ entries, e.2 ∈ salts ∧ e.1.password ∈ passwords

/-- What holds before the events that are to come. -/
structure Related (es : List Event) (s : State) (a : Store) : Prop where
  table : ∃ entries, Tabled sha salts passwords entries s a ∧ entries.length + es.length < 2 ^ 31
  sessions : ∀ token,
    get token s.sessions = (get token a.sessions).map fun id : Nat => Int32.ofInt id
  numbered : ∀ token id, get token a.sessions = some id → token ≠ [] ∧ 0 < id ∧ id < 2 ^ 31
  jobs : ∀ w, Doing sha salts passwords (s.jobs w) (a.tasks w)
  drawn : ∀ e ∈ es, e.salts ⊆ salts ∧ e.passwords ⊆ passwords

/-- One answer, and states that are related again. -/
def Agree (es : List Event) (next : State × Option Response) (next' : Store × Option Response) :
    Prop :=
  next.2 = next'.2 ∧ Related sha salts passwords es next.1 next'.1

variable {sha salts passwords} {entries : List (Account × Salt)} {es : List Event} {e : Event}
  {s : State} {a : Store} {w : Worker}

theorem Related.later (h : Related sha salts passwords (e :: es) s a) :
    Related sha salts passwords es s a := by
  obtain ⟨entries, table, few⟩ := h.table
  rw [List.length_cons] at few
  exact ⟨⟨entries, table, by omega⟩, h.sessions, h.numbered, h.jobs,
    fun e' listed => h.drawn e' (List.mem_cons_of_mem e listed)⟩

theorem Doing.update {job : Job} {task : Task} {jobs : Worker → Job} {tasks : Worker → Task}
    (all : ∀ w, Doing sha salts passwords (jobs w) (tasks w))
    (doing : Doing sha salts passwords job task) (w w' : Worker) :
    Doing sha salts passwords (Function.update jobs w job w')
      (Function.update tasks w task w') := by
  by_cases same : w' = w
  · rw [same, Function.update_self, Function.update_self]
    exact doing
  · rw [Function.update_of_ne same, Function.update_of_ne same]
    exact all w'

theorem Related.moved {job : Job} {task : Task} (h : Related sha salts passwords es s a)
    (doing : Doing sha salts passwords job task) :
    Related sha salts passwords es (s.setJob w job) (a.setTask w task) := by
  obtain ⟨entries, table, few⟩ := h.table
  exact ⟨⟨entries, ⟨table.users, table.lastId, table.accounts, table.known⟩, few⟩, h.sessions,
    h.numbered, Doing.update h.jobs doing w, h.drawn⟩

theorem Tabled.named (t : Tabled sha salts passwords entries s a) (username : Bytes) :
    userNamed s username = (a.accounts.findIdx? (·.username = username)).bind
      fun i => entries[i]?.map (row sha i) := by
  rw [userNamed, t.users, t.accounts]
  exact find_named username

theorem Tabled.taken (t : Tabled sha salts passwords entries s a) (username : Bytes) :
    a.taken username = (userNamed s username).isSome := by
  rw [t.named, Store.taken, ← List.findIdx?_isSome]
  cases found : a.accounts.findIdx? (·.username = username) with
  | none => rfl
  | some i =>
    have inside := (List.findIdx?_eq_some_iff_getElem.mp found).1
    rw [t.accounts, List.length_map] at inside
    rw [Option.bind_some, List.getElem?_eq_getElem inside]
    rfl

/-- A login finds the number of the account just when the hashes agree. -/
theorem Tabled.login (free : CollisionFree sha salts passwords)
    (t : Tabled sha salts passwords entries s a) {username password : Bytes}
    (given : password ∈ passwords) (short : password.length ≤ 127) :
    a.login username password =
      (userNamed s username).bind fun user =>
        if verifyPassword sha password user.passwordHash then some user.id else none := by
  rw [t.named, Store.login, Option.bind_assoc]
  refine congrArg _ (funext fun i => ?_)
  rw [t.accounts, List.getElem?_map]
  cases at_i : entries[i]? with
  | none => rfl
  | some entry =>
    obtain ⟨drawn, known⟩ := t.known entry (List.mem_of_getElem? at_i)
    have agrees : entry.1.password = password ↔
        verifyPassword sha password (hashPassword sha entry.2 entry.1.password) = true := by
      rw [verifyPassword_iff, eq_comm, ← combined_eq entry.2 short]
      exact ⟨fun same => congrArg _ same, free _ drawn _ given _ known⟩
    rw [Option.map_some, Option.map_some, Option.bind_some, Option.bind_some]
    exact if_congr agrees rfl rfl

theorem Tabled.numbered (t : Tabled sha salts passwords entries s a) {username : Bytes}
    {user : User} (found : userNamed s username = some user) : 0 < user.id ∧ user.id ≤ entries.length := by
  rw [t.named] at found
  obtain ⟨i, _, at_i⟩ := Option.bind_eq_some_iff.mp found
  obtain ⟨entry, listed, rfl⟩ := Option.map_eq_some_iff.mp at_i
  exact ⟨Nat.succ_pos i, (List.getElem?_eq_some_iff.mp listed).1⟩

theorem Tabled.inserted (t : Tabled sha salts passwords entries s a)
    {username displayName password : Bytes} {salt : Salt} (drawn : salt ∈ salts)
    (given : password ∈ passwords) :
    ∃ entries', entries'.length ≤ entries.length + 1 ∧
      Tabled sha salts passwords entries'
        (insertUser s username displayName (hashPassword sha salt password))
        { a with accounts := if a.taken username then a.accounts
          else a.accounts ++ [⟨username, some displayName, password⟩] } := by
  have taken := t.taken username
  unfold insertUser
  cases found : userNamed s username with
  | some user =>
    rw [found, Option.isSome_some] at taken
    rw [taken, if_pos rfl]
    exact ⟨entries, Nat.le_succ _, t⟩
  | none =>
    rw [found, Option.isSome_none] at taken
    rw [taken, if_neg Bool.false_ne_true]
    refine ⟨entries ++ [(⟨username, some displayName, password⟩, salt)],
      by rw [List.length_append]; rfl, ?_, ?_, ?_, ?_⟩
    · rw [rows_concat, ← t.users, ← t.lastId]
      rfl
    · rw [List.length_append, ← t.lastId]
      rfl
    · rw [List.map_append, ← t.accounts]
      rfl
    · exact List.forall_mem_append.mpr ⟨t.known, List.forall_mem_singleton.mpr ⟨drawn, given⟩⟩

/-- An insert keeps the other tables. -/
theorem insertUser_same (s : State) (username displayName passwordHash : Bytes) :
    (insertUser s username displayName passwordHash).sessions = s.sessions ∧
      (insertUser s username displayName passwordHash).jobs = s.jobs := by
  unfold insertUser
  split <;> exact ⟨rfl, rfl⟩

theorem register_step (h : Related sha salts passwords (e :: es) s a) {body : Option Registration}
    {salt : Salt} (event : e = .hRegister w body salt) :
    Agree sha salts passwords es (step sha s e) (a.step e) := by
  subst event
  have doing := h.jobs w
  generalize at_job : s.jobs w = job at doing
  generalize at_task : a.tasks w = task at doing
  cases doing with
  | idle =>
    cases body with
    | none =>
      simp only [step, at_job, Store.step, at_task, hRegister]
      exact ⟨rfl, h.later⟩
    | some body =>
      obtain ⟨entries, table, few⟩ := h.table
      have drawn := h.drawn _ List.mem_cons_self
      simp only [step, at_job, Store.step, at_task, hRegister, Store.register]
      split
      · exact ⟨rfl, h.later⟩
      · rw [table.taken]
        cases found : userNamed s (cstr (body.username.getD [])) with
        | some user => exact ⟨rfl, h.later⟩
        | none =>
          exact ⟨rfl, h.later.moved (.registering (drawn.1 List.mem_cons_self)
            (drawn.2 List.mem_cons_self))⟩
  | registering | loggingIn | showing =>
    simp only [step, at_job, Store.step, at_task]
    exact ⟨rfl, h.later⟩

theorem insert_step (h : Related sha salts passwords (e :: es) s a) (event : e = .insert w) :
    Agree sha salts passwords es (step sha s e) (a.step e) := by
  subst event
  have doing := h.jobs w
  generalize at_job : s.jobs w = job at doing
  generalize at_task : a.tasks w = task at doing
  cases doing with
  | registering drawn given =>
    simp only [step, at_job, Store.step, at_task]
    obtain ⟨entries, table, few⟩ := h.table
    obtain ⟨entries', more, table'⟩ := table.inserted drawn given
    obtain ⟨sessions, jobs⟩ := insertUser_same s _ _ _
    rw [List.length_cons] at few
    refine ⟨rfl, Related.moved
      ⟨⟨entries', table', by omega⟩, ?_, h.numbered, ?_, h.later.drawn⟩ .idle⟩
    · rw [sessions]
      exact h.sessions
    · rw [jobs]
      exact h.jobs
  | idle | loggingIn | showing =>
    simp only [step, at_job, Store.step, at_task]
    exact ⟨rfl, h.later⟩

theorem login_step (free : CollisionFree sha salts passwords)
    (h : Related sha salts passwords (e :: es) s a) {rawBody : Option Bytes}
    {secret : Secret} (event : e = .hLogin w rawBody secret) :
    Agree sha salts passwords es (step sha s e) (a.step e) := by
  subst event
  have doing := h.jobs w
  generalize at_job : s.jobs w = job at doing
  generalize at_task : a.tasks w = task at doing
  cases doing with
  | idle =>
    obtain ⟨entries, table, few⟩ := h.table
    have given := (h.drawn _ List.mem_cons_self).2 List.mem_cons_self
    have agrees := @Tabled.login _ _ _ _ _ _ free table (credentials rawBody).1 _ given
      (credentials_short rawBody)
    simp only [step, at_job, Store.step, at_task, hLogin]
    split
    · exact ⟨rfl, h.later⟩
    · rw [agrees]
      cases found : userNamed s (credentials rawBody).1 with
      | none => exact ⟨rfl, h.later⟩
      | some user =>
        dsimp only [Option.bind_some]
        split
        · obtain ⟨positive, inside⟩ := table.numbered found
          exact ⟨rfl, h.later.moved (.loggingIn (hexEncode_ne_nil secret) positive (by omega))⟩
        · exact ⟨rfl, h.later⟩
  | registering | loggingIn | showing =>
    simp only [step, at_job, Store.step, at_task]
    exact ⟨rfl, h.later⟩

theorem put_step (h : Related sha salts passwords (e :: es) s a) (event : e = .put w) :
    Agree sha salts passwords es (step sha s e) (a.step e) := by
  subst event
  have doing := h.jobs w
  generalize at_job : s.jobs w = job at doing
  generalize at_task : a.tasks w = task at doing
  cases doing with
  | @loggingIn token id nonempty positive small =>
    simp only [step, at_job, Store.step, at_task]
    obtain ⟨entries, table, few⟩ := h.later.table
    have same : Tabled sha salts passwords entries (sessionPut s token id)
        { a with sessions := put token id a.sessions } :=
      ⟨table.users, table.lastId, table.accounts, table.known⟩
    refine ⟨rfl, Related.moved ⟨⟨entries, same, few⟩, fun token' => ?_, fun token' id' => ?_, h.jobs,
      h.later.drawn⟩ .idle⟩
    · rw [sessionPut, get_put, get_put, h.sessions]
      split <;> rfl
    · rw [get_put]
      split
      · rename_i same
        rintro ⟨⟩
        exact ⟨same ▸ nonempty, positive, small⟩
      · exact h.numbered token' id'
  | idle | registering | showing =>
    simp only [step, at_job, Store.step, at_task]
    exact ⟨rfl, h.later⟩

/-- The number fits into the `int` of the map. -/
theorem Related.uid (h : Related sha salts passwords es s a) (cookie : Option Bytes) :
    authUid s cookie = (((get (cookie.getD []) a.sessions).getD 0 : Nat) : Int) := by
  rw [authUid, sessionGet, h.sessions]
  cases found : get (cookie.getD []) a.sessions with
  | none => split <;> rfl
  | some id =>
    obtain ⟨nonempty, _, small⟩ := h.numbered _ _ found
    rw [if_neg nonempty]
    exact Int32.toInt_ofInt_of_le (by omega) (by omega)

theorem me_step (h : Related sha salts passwords (e :: es) s a) {cookie : Option Bytes}
    (event : e = .hMe w cookie) :
    Agree sha salts passwords es (step sha s e) (a.step e) := by
  subst event
  have doing := h.jobs w
  generalize at_job : s.jobs w = job at doing
  generalize at_task : a.tasks w = task at doing
  cases doing with
  | idle =>
    have uid := h.uid cookie
    simp only [step, at_job, Store.step, at_task, hMe, uid]
    cases found : get (cookie.getD []) a.sessions with
    | none => exact ⟨rfl, h.later⟩
    | some id =>
      obtain ⟨_, positive, _⟩ := h.numbered _ _ found
      rw [Option.getD_some, if_neg (by omega)]
      exact ⟨rfl, h.later.moved (.showing positive)⟩
  | registering | loggingIn | showing =>
    simp only [step, at_job, Store.step, at_task]
    exact ⟨rfl, h.later⟩

theorem row_step (h : Related sha salts passwords (e :: es) s a) (event : e = .row w) :
    Agree sha salts passwords es (step sha s e) (a.step e) := by
  subst event
  have doing := h.jobs w
  generalize at_job : s.jobs w = job at doing
  generalize at_task : a.tasks w = task at doing
  cases doing with
  | @showing id positive =>
    simp only [step, at_job, Store.step, at_task]
    refine ⟨congrArg some ?_, h.later.moved .idle⟩
    obtain ⟨entries, table, few⟩ := h.table
    have found : getUserRow s id = entries[id - 1]?.map (row sha (id - 1)) := by
      rw [getUserRow, table.users]
      exact find_id positive
    rw [found, table.accounts, List.getElem?_map]
    cases entries[id - 1]? <;> rfl
  | idle | registering | loggingIn =>
    simp only [step, at_job, Store.step, at_task]
    exact ⟨rfl, h.later⟩

theorem logout_step (h : Related sha salts passwords (e :: es) s a) (event : e = .hLogout w) :
    Agree sha salts passwords es (step sha s e) (a.step e) := by
  subst event
  have doing := h.jobs w
  generalize at_job : s.jobs w = job at doing
  generalize at_task : a.tasks w = task at doing
  cases doing with
  | idle | registering | loggingIn | showing =>
    simp only [step, at_job, Store.step, at_task]
    exact ⟨rfl, h.later⟩

theorem simulates (free : CollisionFree sha salts passwords) :
    Simulates (Related sha salts passwords) (step sha) Store.step := by
  intro e es s a h
  cases e with
  | hRegister w body salt => exact register_step h rfl
  | insert w => exact insert_step h rfl
  | hLogin w rawBody secret => exact login_step free h rfl
  | put w => exact put_step h rfl
  | hMe w cookie => exact me_step h rfl
  | row w => exact row_step h rfl
  | hLogout w => exact logout_step h rfl

end Refinement

/-- The process when it starts, with the accounts that are in the database. -/
def start (sha : Sha256) (stored : List (Account × Salt)) : State :=
  ⟨rows sha stored, stored.length, [], fun _ => .idle⟩

def Store.start (accounts : List Account) : Store := ⟨accounts, [], fun _ => .idle⟩

section Runs

variable (sha : Sha256) (stored : List (Account × Salt)) (es : List Event)

/-- The salts and the passwords of a run. -/
def drawnSalts : List Salt := stored.map Prod.snd ++ es.flatMap Event.salts

def givenPasswords : List Bytes :=
  stored.map (fun entry => entry.1.password) ++ es.flatMap Event.passwords

variable {stored es} in
theorem related_start {salts : List Salt} {passwords : List Bytes}
    (few : stored.length + es.length < 2 ^ 31) (salted : drawnSalts stored es ⊆ salts)
    (given : givenPasswords stored es ⊆ passwords) :
    Related sha salts passwords es (start sha stored) (Store.start (stored.map Prod.fst)) := by
  refine ⟨⟨stored, ⟨rfl, rfl, rfl, fun entry listed => ⟨salted ?_, given ?_⟩⟩, few⟩, fun _ => rfl,
    (by rintro _ _ ⟨⟩), fun _ => .idle, fun e listed => ⟨fun salt inside => salted ?_,
      fun password inside => given ?_⟩⟩
  · exact List.mem_append_left _ (List.mem_map_of_mem listed)
  · exact List.mem_append_left _ (List.mem_map_of_mem listed)
  · exact List.mem_append_right _ (List.mem_flatMap.mpr ⟨e, listed, inside⟩)
  · exact List.mem_append_right _ (List.mem_flatMap.mpr ⟨e, listed, inside⟩)

/-- Whatever the workers do one after the other, they answer as a store of accounts would. -/
theorem answers_refine (few : stored.length + es.length < 2 ^ 31)
    (free : CollisionFree sha (drawnSalts stored es) (givenPasswords stored es)) :
    outputs (step sha) (start sha stored) es =
      outputs Store.step (Store.start (stored.map Prod.fst)) es :=
  (simulates free).outputs_eq
    (related_start sha few (List.Subset.refl _) (List.Subset.refl _))

end Runs

def sampleSalt : Salt := ⟨List.map UInt8.ofNat (List.range 16), rfl⟩

/-- SHA-256 of the two texts that the run hashes. -/
def sampleSha : Sha256 where
  digest m :=
    if m = combined (hexEncode sampleSalt.1) (ascii "demo") then
      [127, 46, 156, 17, 176, 144, 13, 217, 133, 116, 212, 154, 201, 111, 212, 142, 154, 163,
        101, 182, 63, 111, 130, 127, 125, 21, 145, 54, 213, 109, 11, 127]
    else if m = combined (hexEncode sampleSalt.1) (ascii "dem") then
      [58, 135, 181, 125, 67, 129, 47, 202, 197, 252, 159, 122, 161, 107, 111, 254, 162, 228, 64,
        242, 182, 252, 203, 184, 71, 10, 160, 17, 240, 167, 1, 50]
    else List.replicate 32 0
  length m := by
    split
    · rfl
    split <;> rfl

def sampleStored : List (Account × Salt) :=
  [(⟨ascii "alice", some (ascii "Alice Chen"), ascii "demo"⟩, sampleSalt)]

def sampleSecret : Secret := ⟨List.map UInt8.ofNat (List.range 32), rfl⟩

def samplePage (password : String) : Option Bytes :=
  some (loginBody "alice".toList password.toList)

/-- A wrong password, the right one, and the cookie after a logout. -/
def sampleEvents : List Event :=
  [.hLogin 0 (samplePage "dem") sampleSecret, .hLogin 1 (samplePage "demo") sampleSecret,
    .put 1, .hLogout 1, .hMe 2 (some (hexEncode sampleSecret.1)), .row 2]

theorem answers_refine_sample :
    outputs (step sampleSha) (start sampleSha sampleStored) sampleEvents =
      outputs Store.step (Store.start (sampleStored.map Prod.fst)) sampleEvents :=
  answers_refine sampleSha sampleStored sampleEvents (by decide) (by decide +kernel)

/-- A name or a password as a C string that is not empty. -/
def Given (s : Bytes) : Prop := s ≠ [] ∧ 0 ∉ s

structure Proper (accounts : List Account) : Prop where
  distinct : (accounts.map Account.username).Nodup
  given : ∀ account ∈ accounts, Given account.username ∧ Given account.password

/-- The accounts are proper and will be. -/
structure Kept (a : Store) : Prop where
  proper : Proper a.accounts
  coming : ∀ w account, a.tasks w = .registering account →
    Given account.username ∧ Given account.password

theorem Kept.moved {a : Store} {task : Task} (h : Kept a)
    (coming : ∀ account, task = .registering account →
      Given account.username ∧ Given account.password) (w : Worker) : Kept (a.setTask w task) := by
  refine ⟨h.proper, fun w' account at_w' => ?_⟩
  by_cases same : w' = w
  · rw [same] at at_w'
    change Function.update a.tasks w task w = _ at at_w'
    rw [Function.update_self] at at_w'
    exact coming account at_w'
  · change Function.update a.tasks w task w' = _ at at_w'
    rw [Function.update_of_ne same] at at_w'
    exact h.coming w' account at_w'

theorem given_cstr {s : Bytes} (nonempty : cstr s ≠ []) : Given (cstr s) :=
  ⟨nonempty, fun listed => absurd (List.mem_takeWhile_imp listed) (by decide)⟩

theorem Proper.insert {a : Store} (h : Proper a.accounts) {account : Account}
    (given : Given account.username ∧ Given account.password) :
    Proper (if a.taken account.username then a.accounts else a.accounts ++ [account]) := by
  split
  · exact h
  · rename_i free
    constructor
    · rw [List.map_append, List.map_singleton, List.nodup_append]
      refine ⟨h.distinct, List.nodup_singleton _, fun name listed name' listed' same => free ?_⟩
      obtain ⟨other, inside, named⟩ := List.mem_map.mp listed
      rw [List.mem_singleton.mp listed'] at same
      exact List.any_eq_true.mpr ⟨other, inside, decide_eq_true (named.trans same)⟩
    · exact List.forall_mem_append.mpr ⟨h.given, List.forall_mem_singleton.mpr given⟩

theorem Kept.register {a : Store} (h : Kept a) (w : Worker) {account : Account}
    (named : account.username ≠ [] → Given account.username)
    (secret : account.password ≠ [] → Given account.password) : Kept (a.register w account).1 := by
  unfold Store.register
  split
  · exact h
  rename_i filled
  split
  · exact h
  · refine h.moved ?_ w
    rintro _ ⟨⟩
    exact ⟨named (not_or.mp filled).1, secret (not_or.mp filled).2⟩

theorem Kept.step {a : Store} (h : Kept a) (e : Event) : Kept (a.step e).1 := by
  cases e with
  | hRegister w body salt =>
    simp only [Store.step]
    split
    · exact h
    · exact h.register w given_cstr given_cstr
    · exact h
  | insert w =>
    simp only [Store.step]
    split
    · rename_i account at_w
      have accounts := h.proper.insert (h.coming w account at_w)
      exact @Kept.moved ⟨_, a.sessions, a.tasks⟩ .idle ⟨accounts, h.coming⟩ (by rintro _ ⟨⟩) w
    · exact h
  | hLogin w rawBody secret =>
    simp only [Store.step]
    split
    · split
      · exact h
      · exact h.moved (by rintro _ ⟨⟩) w
    · exact h
  | put w =>
    simp only [Store.step]
    split
    · rename_i token id at_w
      have stored : Kept { a with sessions := put token id a.sessions } := ⟨h.proper, h.coming⟩
      exact stored.moved (by rintro _ ⟨⟩) w
    · exact h
  | hMe w cookie =>
    simp only [Store.step]
    split
    · split
      · exact h
      · exact h.moved (by rintro _ ⟨⟩) w
    · exact h
  | row w =>
    simp only [Store.step]
    split
    · exact h.moved (by rintro _ ⟨⟩) w
    · exact h
  | hLogout w =>
    simp only [Store.step]
    split <;> exact h

theorem Kept.final {a : Store} (h : Kept a) (es : List Event) : Kept (final Store.step a es) := by
  induction es generalizing a with
  | nil => exact h
  | cons e es ih => exact ih (h.step e)

/-- The name and the password of an account find it, and no others do. -/
theorem Proper.login_iff {a : Store} (h : Proper a.accounts) {i : Nat} {account : Account}
    (at_i : a.accounts[i]? = some account) (username password : Bytes) :
    a.login username password = some (i + 1) ↔
      username = account.username ∧ password = account.password := by
  obtain ⟨inside, here⟩ := List.getElem?_eq_some_iff.mp at_i
  constructor
  · intro logged
    obtain ⟨j, first, later⟩ := Option.bind_eq_some_iff.mp logged
    obtain ⟨other, at_j, accepted⟩ := Option.bind_eq_some_iff.mp later
    split at accepted
    · rename_i secret
      cases accepted
      obtain ⟨_, named, _⟩ := List.findIdx?_eq_some_iff_getElem.mp first
      rw [at_i] at at_j
      cases at_j
      rw [here] at named
      exact ⟨(of_decide_eq_true named).symm, secret.symm⟩
    · cases accepted
  · rintro ⟨rfl, rfl⟩
    have first : a.accounts.findIdx? (·.username = account.username) = some i := by
      rw [List.findIdx?_eq_some_iff_getElem]
      refine ⟨inside, decide_eq_true (congrArg Account.username here), fun j before same => ?_⟩
      have other : j < a.accounts.length := Nat.lt_trans before inside
      have names := List.pairwise_iff_getElem.mp h.distinct j i
        (by rw [List.length_map]; exact other) (by rw [List.length_map]; exact inside) before
      rw [List.getElem_map, List.getElem_map, here] at names
      exact names (of_decide_eq_true same)
    rw [Store.login, first, Option.bind_some, at_i, Option.bind_some, if_pos rfl]

/-- A part of a C string is one. -/
theorem Given.part {s t : Bytes} (h : Given s) (part : t.Sublist s) :
    cstr (t.take 127) = t.take 127 :=
  RequestGrammar.cstr_eq_self fun listed => h.2 (part.subset (List.mem_of_mem_take listed))

section Page

variable (sha : Sha256) (stored : List (Account × Salt)) (es : List Event)

/-- Whatever was done before, the login page lets the holder of an account in, who types its
name and its password, just when the page sends both as they are and neither is longer than 127
bytes. -/
theorem page_login_iff (proper : Proper (stored.map Prod.fst)) {i : Nat} {account : Account}
    (at_i : (final Store.step (Store.start (stored.map Prod.fst)) es).accounts[i]? = some account)
    {w : Worker} (idle : (final (step sha) (start sha stored) es).jobs w = .idle)
    {username password : List Char} (named : utf8 username = account.username)
    (worded : utf8 password = account.password)
    {rawBody : Option Bytes} (page : rawBody = some (loginBody username password))
    (secret : Secret)
    (few : stored.length + (es ++ [Event.hLogin w rawBody secret]).length < 2 ^ 31)
    (free : CollisionFree sha (drawnSalts stored (es ++ [Event.hLogin w rawBody secret]))
      (givenPasswords stored (es ++ [Event.hLogin w rawBody secret]))) :
    ((step sha (final (step sha) (start sha stored) es) (.hLogin w rawBody secret)).1.jobs w =
        .loggingIn (hexEncode secret.1) (i + 1 : Nat)) ↔
      SentWhole username password ∧ account.username.length ≤ 127 ∧
        account.password.length ≤ 127 := by
  have kept : Kept (final Store.step (Store.start (stored.map Prod.fst)) es) :=
    Kept.final ⟨proper, by rintro _ _ ⟨⟩⟩ es
  have related := (simulates free).final_related
    (related_start sha few (List.Subset.refl _) (List.Subset.refl _))
  generalize final Store.step (Store.start (stored.map Prod.fst)) es = a at at_i kept related
  generalize final (step sha) (start sha stored) es = s at idle related
  have next := (login_step free related rfl).2.jobs w
  have task : a.tasks w = .idle := by
    have doing := related.jobs w
    rw [idle] at doing
    generalize a.tasks w = task at doing
    cases doing
    rfl
  obtain ⟨name, word⟩ := kept.proper.given account (List.mem_of_getElem? at_i)
  have trimmed : (trim (inputValue username)).Sublist username :=
    (trim_sublist _).trans (inputValue_sublist _)
  have typed := inputValue_sublist password
  rw [← named] at name
  rw [← worded] at word
  have read : credentials rawBody = ((utf8 (trim (inputValue username))).take 127,
      (utf8 (inputValue password)).take 127) := by
    rw [page, credentials, Option.getD_some, (loginBody_fields _ _).1, (loginBody_fields _ _).2,
      Option.getD_some, Option.getD_some, name.part (utf8_sublist trimmed),
      word.part (utf8_sublist typed)]
  have whole : (credentials rawBody).1 = account.username ∧
      (credentials rawBody).2 = account.password ↔
      SentWhole username password ∧ account.username.length ≤ 127 ∧
        account.password.length ≤ 127 := by
    rw [read, ← named, ← worded, take_utf8_iff trimmed, take_utf8_iff typed, SentWhole]
    exact and_and_and_comm
  have attempt : (if (credentials rawBody).1 = [] ∨ (credentials rawBody).2 = [] then none
      else a.login (credentials rawBody).1 (credentials rawBody).2) = some (i + 1) ↔
      SentWhole username password ∧ account.username.length ≤ 127 ∧
        account.password.length ≤ 127 := by
    split
    · rename_i missing
      refine ⟨by rintro ⟨⟩, fun sent => ?_⟩
      obtain ⟨first, second⟩ := whole.mpr sent
      rw [first, second, ← named, ← worded] at missing
      exact (missing.elim name.1 word.1).elim
    · exact (kept.proper.login_iff at_i _ _).trans whole
  have tasks : (a.step (.hLogin w rawBody secret)).1.tasks w =
      (if (credentials rawBody).1 = [] ∨ (credentials rawBody).2 = [] then none
        else a.login (credentials rawBody).1 (credentials rawBody).2).elim .idle
          (.loggingIn (hexEncode secret.1)) := by
    simp only [Store.step, task]
    split
    · rename_i refused
      rw [refused]
      exact task
    · rename_i id found
      rw [found]
      exact Function.update_self w _ _
  rw [← attempt]
  rw [tasks] at next
  generalize (step sha s (.hLogin w rawBody secret)).1.jobs w = job at next
  generalize (if (credentials rawBody).1 = [] ∨ (credentials rawBody).2 = [] then none
    else a.login (credentials rawBody).1 (credentials rawBody).2) = found at next
  cases found with
  | none =>
    cases next
    exact ⟨by rintro ⟨⟩, by rintro ⟨⟩⟩
  | some id =>
    cases next
    rw [Job.loggingIn.injEq, Option.some_inj, Int.ofNat_inj]
    exact and_iff_right rfl

end Page

theorem page_login_iff_sample :
    ((step sampleSha (final (step sampleSha) (start sampleSha sampleStored) sampleEvents)
        (.hLogin 3 (samplePage "demo") sampleSecret)).1.jobs 3 =
        .loggingIn (hexEncode sampleSecret.1) 1) ↔
      SentWhole "alice".toList "demo".toList ∧ (ascii "alice").length ≤ 127 ∧
        (ascii "demo").length ≤ 127 :=
  page_login_iff sampleSha sampleStored sampleEvents
    ⟨List.nodup_singleton _,
      List.forall_mem_singleton.mpr ⟨⟨by decide, by decide⟩, by decide, by decide⟩⟩
    (i := 0) (w := 3) rfl rfl (show utf8 "alice".toList = ascii "alice" by decide)
    (show utf8 "demo".toList = ascii "demo" by decide) rfl sampleSecret (by decide)
    (by decide +kernel)

-- `h_register` takes a name with a space in front, and the page trims it.
example : ¬ SentWhole " bob".toList "secret".toList := by decide

end JitAuth
