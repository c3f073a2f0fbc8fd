import Verdandi.Star.Almanac

/-! The login table and the logical sessions. Accounts and groups are shared objects whose
`active` flag is cleared when they are withdrawn; the model keeps their identities and the
lists of those withdrawn. Stop notifications run outside the lock and carry no authority.
-/

namespace Astra

open Support

namespace Access

inductive Error where
  | denied
  | capacity
  | random
  deriving DecidableEq, Repr

/-- A session token: 32 raw random bytes. -/
abbrev Token := { bytes : Bytes // bytes.length = 32 }

/-- One parsed credential. Identities are given when the object becomes shared; objects
that become shared together differ in their key.
-/
structure Account where
  id : Nat × Bytes
  secret : Bytes
  deriving DecidableEq, Repr

/-- A login holds the account and the group that were current when it was opened. -/
structure Session where
  id : Nat
  token : Token
  account : Account
  group : Nat
  deriving DecidableEq, Repr

structure Draft where
  accounts : Assoc Bytes Bytes := ∅

def valid (key secret : Bytes) : Bool :=
  Scope.text key 128 && !secret.isEmpty && secret.length ≤ 4096

def Draft.set (draft : Draft) (key secret : Bytes) : Option Draft :=
  if !valid key secret || draft.accounts.size ≥ 65536 || draft.accounts.contains key then
    none
  else
    some { draft with accounts := draft.accounts.set key secret }

end Access

/-- The login table. `retired` and `revoked` are the accounts and groups whose `active` flag
is cleared; `next` hands out object identities.
-/
structure Access where
  maximum : Nat := 4096
  group : Nat := 0
  accounts : Assoc Bytes Access.Account := ∅
  sessions : Assoc Access.Token Access.Session := ∅
  retired : List (Nat × Bytes) := []
  revoked : List Nat := []
  next : Nat := 1

namespace Access

-- Operations

/-- Replace the whole table if `commit` reports a new installation. The callback runs inside
the lock; its result carries what it committed, and `none` is the source's `false`.
-/
def reset {Committed : Type} (access : Access) (draft : Draft)
    (commit : Except Almanac.Error (Option Committed))
    : Except Almanac.Error (Option (Access × Committed)) :=
  match commit with
  | .error error => .error error
  | .ok none => .ok none
  | .ok (some committed) =>
      .ok (some (
        { access with
          revoked := access.group :: access.revoked
          group := access.next
          accounts := draft.accounts.mapValues fun key secret =>
            { id := (access.next, key), secret }
          next := access.next + 1 },
        committed))

/-- Set or delete one credential together with `commit`. A Set of the secret the key has
already keeps the account object, and with it the open sessions.
-/
def apply {Committed : Type} (access : Access) (key : Bytes) (secret : Option Bytes)
    (commit : Except Almanac.Error (Option Committed))
    : Except Almanac.Error (Option (Access × Committed)) :=
  if !Scope.text key 128 || !secret.all (valid key) then
    .error .input
  else
    let previous := access.accounts.get? key
    let unchanged := secret.isSome && previous.map (·.secret) == secret
    if secret.isSome && previous.isNone && access.accounts.size ≥ 65536 then
      .error .capacity
    else
      match commit with
      | .error error => .error error
      | .ok none => .ok none
      | .ok (some committed) =>
          if unchanged then
            .ok (some (access, committed))
          else
            .ok (some (
              { access with
                retired := previous.elim access.retired fun account =>
                  account.id :: access.retired
                accounts := secret.elim (access.accounts.remove key) fun fresh =>
                  (access.accounts.remove key).set key
                    { id := (access.next, key), secret := fresh }
                next := access.next + 1 },
              committed))

/-- The attempts of a login, each with its own random token. A token that is in use costs an
attempt and changes nothing.
-/
def attempt (access : Access) (key secret : Bytes) (random : Nat → Option Token)
    : Nat → Except Error (Access × Session)
  | 0 => .error .random
  | left + 1 =>
      match random left with
      | none => .error .random
      | some token =>
          match access.accounts.get? key with
          | none => .error .denied
          | some account =>
              if account.secret ≠ secret then
                .error .denied
              else if access.sessions.size ≥ access.maximum then
                .error .capacity
              else if access.sessions.contains token then
                attempt access key secret random left
              else
                let session : Session :=
                  { id := access.next, token, account, group := access.group }
                .ok (
                  { access with
                    sessions := access.sessions.set token session
                    next := access.next + 1 },
                  session)

/-- `Access::open`: log in with a key and its secret. `random` is the system's random source;
`none` is its failure.
-/
def «open» (access : Access) (key secret : Bytes) (random : Nat → Option Token)
    : Except Error (Access × Session) :=
  if !valid key secret then .error .denied else attempt access key secret random 4

/-- Admit a token whose session is open and whose account and group are both active. -/
def enter (access : Access) (token : Bytes) : Except Error Session :=
  if length : token.length = 32 then
    match access.sessions.get? ⟨token, length⟩ with
    | none => .error .denied
    | some session =>
        if session.account.id ∈ access.retired ∨ session.group ∈ access.revoked then
          .error .denied
        else
          .ok session
  else
    .error .denied

/-- Close a session; one that is closed already, or whose token belongs to another session
by now, changes nothing.
-/
def close (access : Access) (session : Option Session) : Access :=
  match session with
  | none => access
  | some session =>
      match access.sessions.get? session.token with
      | none => access
      | some existing =>
          if existing.id = session.id then
            { access with sessions := access.sessions.remove session.token }
          else
            access

-- What a successful operation does

def secret? (access : Access) (key : Bytes) : Option Bytes :=
  (access.accounts.get? key).map (·.secret)

variable {draft : Draft} {key secret : Bytes}

/-- A new draft entry is for a key the draft did not have. -/
theorem Draft.set_some {next : Draft} (accepted : draft.set key secret = some next)
    : next.accounts = draft.accounts.set key secret := by
  unfold Draft.set at accepted
  split at accepted <;> cases accepted
  rfl

variable {next access : Access}

/-- A replacement commits exactly what the callback committed, under a group that has not
existed before.
-/
theorem reset_some {Committed : Type} {commit : Except Almanac.Error (Option Committed)}
    {committed : Committed} (installed : access.reset draft commit = .ok (some (next, committed)))
    : commit = .ok (some committed) ∧ next =
        { access with
          revoked := access.group :: access.revoked
          group := access.next
          accounts := draft.accounts.mapValues fun key secret =>
            { id := (access.next, key), secret }
          next := access.next + 1 } := by
  unfold reset at installed
  split at installed
  · cases installed
  · cases installed
  · cases installed
    exact ⟨rfl, rfl⟩

/-- A committed credential patch, in full: the table takes the patch's secret, and either
nothing else changes or the previous account of the key is retired.
-/
structure Applied (access next : Access) (key : Bytes) (secret : Option Bytes) : Prop where
  secrets : ∀ other, next.secret? other = if other = key then secret else access.secret? other
  kept
    : ∀ other account, access.accounts.get? other = some account → account.id ∉ next.retired
      → next.accounts.get? other = some account
  sessions : next.sessions = access.sessions
  group : next.group = access.group
  revoked : next.revoked = access.revoked
  retired : ∀ id ∈ access.retired, id ∈ next.retired
  next : access.next ≤ next.next

/-- A committed credential patch meets `Applied`. Witness: an equal secret leaves the table
as it is; otherwise the key's old account is both retired and replaced.
-/
theorem apply_some {Committed : Type} {secret : Option Bytes}
    {commit : Except Almanac.Error (Option Committed)} {committed : Committed}
    (applied : access.apply key secret commit = .ok (some (next, committed)))
    : commit = .ok (some committed) ∧ Applied access next key secret := by
  unfold apply at applied
  split at applied
  · cases applied
  dsimp only at applied
  split at applied
  · cases applied
  split at applied
  · cases applied
  · cases applied
  split at applied
  next unchanged =>
    cases applied
    simp only [Bool.and_eq_true, beq_iff_eq] at unchanged
    refine ⟨rfl, ?_, fun _ _ found _ => found, rfl, rfl, rfl, fun _ member => member, le_rfl⟩
    intro other
    by_cases same : other = key
    · simpa [secret?, same] using unchanged.2
    · simp [same]
  rename_i changed
  cases applied
  refine ⟨rfl, ?_, ?_, rfl, rfl, rfl, ?_, Nat.le_succ _⟩
  · intro other
    by_cases same : other = key
    · cases secret <;> simp [secret?, same]
    · cases secret <;> simp [secret?, same]
  · intro other account found active
    have different : other ≠ key := by
      rintro rfl
      simp [found] at active
    cases secret <;> simp [different, found]
  · intro id member
    cases access.accounts.get? key with
    | none => exact member
    | some account => exact List.mem_cons_of_mem _ member

variable {session : Session}

/-- A login adds one session for a token that was free, bound to the account and the group
that are current. Witness: induction over the attempts that are left.
-/
theorem attempt_ok {random : Nat → Option Token} {left : Nat}
    (opened : access.attempt key secret random left = .ok (next, session))
    : access.accounts.get? key = some session.account ∧ session.account.secret = secret
      ∧ session.group = access.group
      ∧ next =
        { access with
          sessions := access.sessions.set session.token session
          next := access.next + 1 } := by
  induction left with
  | zero => cases opened
  | succ left ih =>
      unfold attempt at opened
      split at opened
      · cases opened
      split at opened
      · cases opened
      rename_i account found
      split at opened
      · cases opened
      rename_i matching
      split at opened
      · cases opened
      split at opened
      · exact ih opened
      · cases opened
        exact ⟨found, not_not.mp matching, rfl, rfl⟩

/-- An admitted token names an open session whose account and group are active. -/
theorem enter_ok {token : Bytes} (admitted : access.enter token = .ok session)
    : ∃ length, access.sessions.get? ⟨token, length⟩ = some session
        ∧ session.account.id ∉ access.retired
        ∧ session.group ∉ access.revoked := by
  unfold enter at admitted
  split at admitted
  next length =>
    split at admitted
    · cases admitted
    rename_i found
    split at admitted
    · cases admitted
    rename_i active
    cases admitted
    exact ⟨length, found, not_or.mp active⟩
  · cases admitted

/-- Closing removes at most one session and changes nothing else. -/
theorem close_sessions (access : Access) (session : Option Session)
    : (access.close session = access) ∨ ∃ token,
          access.close session = { access with sessions := access.sessions.remove token } := by
  unfold close
  split
  · exact .inl rfl
  split
  · exact .inl rfl
  split
  · exact .inr ⟨_, rfl⟩
  · exact .inl rfl

end Access

end Astra
