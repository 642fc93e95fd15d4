import QEngine.QueryRights
import QEngine.StepRuns

/-!
# Sessions of dropped users

A login copies the record of the user, checks the password without the lock and then
adds its token. A login that is between its two sections when the user is dropped
still adds a token for the record it has copied.
-/

namespace QEngine.UserSessions
open List Function QueryRights StepRuns

structure User where
  name : String
  admin : Bool
  salt : ℕ
  hash : ℕ

/-- A login between its two sections: the copied record, the password, and how often the user had
changed. -/
structure Login where
  user : User
  password : String
  age : ℕ

structure Token where
  session : Session
  age : ℕ

structure Directory where
  users : List User
  grants : List Grant
  tokens : List Token
  logins : List Login
  changes : String → ℕ

/-- `logged` says that `users.log` was written; `login` and `insert` are the two sections of a login. -/
inductive Call where
  | create (name password : String) (admin : Bool) (salt : ℕ) (logged : Bool)
  | drop (name : String) (logged : Bool)
  | setPassword (name password : String) (salt : ℕ) (logged : Bool)
  | login (name password : String)
  | insert (k : ℕ) (token : String)

def nameMax : ℕ := 64
def maxUsers : ℕ := 64
def maxTokens : ℕ := 64

def Directory.auth (d : Directory) : Auth := ⟨d.tokens.map Token.session, d.grants⟩

def Directory.known (d : Directory) (name : String) : Bool := d.users.any fun u => u.name = name

/-- `drop_user_tokens` in a call that ends the record of the user. -/
def Directory.purge (d : Directory) (name : String) : Directory :=
  { d with
      tokens := d.tokens.filter fun t => t.session.user ≠ name
      changes := update d.changes name (d.changes name+1) }

def Directory.step (derive : String → ℕ → ℕ) (d : Directory) : Call → Option Directory
  | .create name password admin salt logged =>
    if name = "" ∨ nameMax ≤ name.utf8ByteSize ∨ d.known name ∨ maxUsers ≤ d.users.length ∨ !logged then
      some d
    else some { d with users := d.users++[⟨name, admin, salt, derive password salt⟩] }
  | .drop name logged =>
    if d.known name && logged then
      some { d.purge name with
        users := d.users.filter fun u => u.name ≠ name
        grants := d.grants.filter fun g => g.user ≠ name }
    else some d
  | .setPassword name password salt logged =>
    if d.known name && logged then
      some { d.purge name with
        users := d.users.map fun u =>
          if u.name = name then { u with salt := salt, hash := derive password salt } else u }
    else some d
  | .login name password =>
    match d.users.find? fun u => u.name = name with
    | none => some d
    | some u => some { d with logins := d.logins++[⟨u, password, d.changes u.name⟩] }
  | .insert k token =>
    match d.logins[k]? with
    | none => none
    | some ⟨u, password, age⟩ =>
      let d := { d with logins := d.logins.eraseIdx k }
      if derive password u.salt ≠ u.hash then some d
      else some { d with
        -- the oldest token makes room
        tokens := (if maxTokens ≤ d.tokens.length then d.tokens.tail else d.tokens)++
          [⟨⟨token, u.name, u.admin⟩, age⟩] }

/-- A token whose login checked a record that has been ended since is not accepted. -/
def NoStale (d : Directory) : Prop :=
  ∀ t ∈ d.tokens, t.age < d.changes t.session.user →
    ∀ priv resource, authVerify d.auth t.session.token priv resource = false

/-- No drop and no new password of the user between the two sections of a login. -/
def Undisturbed (d : Directory) : Call → Prop
  | .insert k _ => ∀ l, d.logins[k]? = some l → l.age = d.changes l.user.name
  | _ => True

def Current (d : Directory) : Prop := ∀ t ∈ d.tokens, t.age = d.changes t.session.user

theorem current_purge (d : Directory) (name : String) (h : Current d) : Current (d.purge name) := by
  intro t ht
  obtain ⟨hin, hne⟩ := mem_filter.mp ht
  rw [h t hin]
  exact (update_of_ne (of_decide_eq_true hne) _ _).symm

variable (derive : String → ℕ → ℕ)

theorem current_step (d : Directory) (c : Call) (d' : Directory) (hd : Current d) (hok : Undisturbed d c)
    (h : d.step derive c = some d') : Current d' := by
  cases c with
  | create name password admin salt logged =>
    rw [Directory.step] at h
    split_ifs at h <;> cases h <;> exact hd
  | drop name logged | setPassword name password salt logged =>
    rw [Directory.step] at h
    split_ifs at h <;> cases h
    · exact current_purge d _ hd
    · exact hd
  | login name password =>
    rw [Directory.step] at h
    split at h <;> cases h <;> exact hd
  | insert k token =>
    rw [Directory.step] at h
    split at h
    · cases h
    rename_i u password age hk
    dsimp only at h
    split at h
    · cases h
      exact hd
    cases h
    intro t ht
    obtain ht | ht := mem_append.mp ht
    · apply hd t
      split_ifs at ht
      · exact mem_of_mem_tail ht
      · exact ht
    · cases mem_singleton.mp ht
      exact hok _ hk

/-- In every run where no drop and no new password falls between the two sections of a login of
that user, no token of a record that has been ended since is accepted. -/
theorem no_stale_session (d d' : Directory) (cs : List Call) (hd : Current d)
    (ha : Along (Directory.step derive) Undisturbed d cs) (hr : run (Directory.step derive) d cs = some d') :
    NoStale d' := fun t ht hlt =>
  absurd (run_invariant _ (current_step _) cs d d' hd ha hr t ht) (Nat.ne_of_lt hlt)

def oneAdmin : Directory := ⟨[⟨"u", true, 5, 6⟩], [], [], [], fun _ => 0⟩

def mix (password : String) (salt : ℕ) : ℕ := password.length+salt

/-- A session, a new password for its user, and a login with the new password. -/
def passwordChanged : List Call :=
  [.login "u" "p", .insert 0 "k", .setPassword "u" "pq" 7 true, .login "u" "pq", .insert 0 "m"]

theorem no_stale_session_login : ∃ d, run (Directory.step mix) oneAdmin passwordChanged = some d ∧
    d.changes "u" = 1 ∧ authVerify d.auth "k" 1 "t" = false ∧ authVerify d.auth "m" 1 "t" = true ∧
    NoStale d := by
  refine ⟨_, rfl, by decide, by decide, by decide,
    no_stale_session mix oneAdmin _ passwordChanged (fun _ h => by cases h)
      ⟨trivial, fun l h => ?_, trivial, trivial, fun l h => ?_, trivial⟩ rfl⟩
  · cases h
    rfl
  · cases h
    rfl

/-- The user is dropped between the copy of the record and the new token. -/
theorem dropped_user_verified :
    ∃ d, run (Directory.step mix) oneAdmin [.login "u" "p", .drop "u" true, .insert 0 "k"] = some d ∧
      d.users = [] ∧ authVerify d.auth "k" 1 "t" = true ∧ ¬ NoStale d :=
  ⟨_, rfl, rfl, by decide, fun h => absurd (h _ mem_cons_self (by decide) 1 "t") (by decide)⟩

end QEngine.UserSessions
