import Verdandi.Comet.Watching.Model

/-! How the core of a client picks its endpoint: it dials a channel, logs in on it and shares
the binding with all objects of the client until the login or the binding fails. What the source
does under one lock is one step.
-/

namespace Comet

open Support

-- The state of the core

/-- A `Binding`: objects compare it by its identity `id`. A channel under construction is one
too, and so is what an anonymous client publishes. -/
structure Target where
  id : Nat
  endpoint : Nat
  deriving DecidableEq, Repr

/-- One Session call. `available` is a reply that was not consumed yet, and whether it names a
session and an instance. -/
structure Login where
  target : Target
  secret : Nat
  deadline : Nat
  confirmed : Bool := false
  available : Option Bool := none
  done : Option (StatusCode × Option Reason) := none
  deriving DecidableEq, Repr

namespace Dialer

/-- What the configuration says about dialing; `hash` is the hash of the text of an endpoint. -/
structure Options where
  endpoints : Nat
  timeout : Nat
  auth : Bool := true
  hash : Nat → Nat := fun _ => 0

/-- Where the control round stands between two sections under the lock, with its local
variables: inside `session` from `reading` to `settling`, inside `dial` from `connecting` on. -/
inductive Stage where
  | idle
  | reading (now secret : Nat) (closing : Bool) (binding : Option Target)
  | settling (now : Nat) (detached : Bool)
  | connecting (now : Nat)
  | probing (now : Nat) (connecting : Target)
  | joining (now : Nat) (connecting : Target)
  deriving DecidableEq, Repr

end Dialer

/-- The part of the core that dials. Secrets are compared by identity; `objects` hands out the
identities. Times are nanoseconds of the steady clock. -/
structure Dialer where
  options : Dialer.Options
  endpoint : Nat := 0
  failures : Nat := 0
  retry : Nat := 0
  connecting : Option Target := none
  connectingUntil : Nat := 0
  binding : Option Target := none
  login : Option Login := none
  secret : Nat := 0
  blocked : Option Error := none
  closing : Bool := false
  objects : Nat := 1
  stage : Dialer.Stage := .idle

namespace Dialer

def millisecond : Nat := 1000000

def delay (options : Options) (failures endpoint : Nat) : Nat :=
  let base := min 5000 (100 <<< min failures 6)
  let jitter := options.hash endpoint % (base / 4 + 1)
  min 5000 (base + jitter)

inductive Cause where
  | login (target : Target) (confirmed : Bool) (status : StatusCode) (error : Error)
  | lost (target : Target) (error : Error)
  | unready
  deriving DecidableEq, Repr

structure Failure where
  cause : Cause
  moved : Bool
  now : Nat
  retry : Nat
  deriving DecidableEq, Repr

/-- What a step leaves in the records: `dial` passed its checks, a new channel, a login or an
anonymous binding on a channel, a failure, or the end of a row of failures. -/
inductive Entry where
  | dialed (now : Nat)
  | connected (now : Nat)
  | started (target : Target)
  | failed (failure : Failure)
  | recovered
  deriving DecidableEq, Repr

-- Operations

/-- Count a failure: the endpoint moves first if it has to, then the pause begins. -/
def fail (core : Dialer) (moves : Bool) (now : Nat) : Dialer :=
  let endpoint :=
    if moves then (core.endpoint + 1) % core.options.endpoints else core.endpoint
  let failures := min (core.failures + 1) 32
  { core with
    connecting := if moves then none else core.connecting
    endpoint
    failures
    retry := now + delay core.options failures endpoint * millisecond }

def failed (core : Dialer) (cause : Cause) (moved : Bool) (now : Nat) : Entry :=
  .failed { cause, moved, now, retry := core.retry }

/-- `session` up to its first unlock. `cleaned` says that all objects are finished. -/
def sessionRead (core : Dialer) (now : Nat) (cleaned : Bool) : Dialer :=
  match core.login with
  | none => core
  | some _ =>
      { core with stage := .reading now core.secret (core.closing && cleaned) core.binding }

/-- `session` consumes a reply: a first one that is in order publishes the binding. -/
def sessionConfirm (core : Dialer) (login : Login) (now secret : Nat) (closing : Bool)
    (binding : Option Target)
    : Dialer :=
  let obsolete := !login.confirmed && login.secret != secret
  let detached := login.confirmed && binding != some login.target
  let settled := { core with stage := .settling now detached }
  match login.available with
  | none => settled
  | some proper =>
      if !closing && !obsolete && !detached && (login.confirmed || now < login.deadline) then
        let read := { login with available := none }
        if !core.closing && core.secret == login.secret then
          if !login.confirmed && proper then
            { settled with
              login := some { read with confirmed := true }
              binding := some login.target
              blocked := none }
          else
            { settled with login := some read, binding := none, blocked := some .protocol }
        else
          { settled with login := some read }
      else
        settled

/-- Whether a login that ended with this status moves the endpoint: a transport failure, a
timeout or a cancelled first login, but not a session that the server took back. -/
def Login.moves (login : Login) (status : StatusCode) (error : Error) : Bool :=
  (error == .transport || error == .timeout || status == .cancelled)
    && !(login.confirmed && status == .cancelled)

/-- `session` gives up a login whose call is over. -/
def sessionFinish (core : Dialer) (login : Login) (now : Nat) (detached : Bool)
    : Dialer × Option Entry :=
  match login.done with
  | none => ({ core with stage := .idle }, none)
  | some (status, reason) =>
      let error := failure status reason
      let ended : Dialer :=
        { core with
          stage := .idle
          login := none
          binding := if core.binding = some login.target then none else core.binding }
      if core.closing || core.secret != login.secret || detached || core.blocked.isSome then
        (ended, none)
      else if !login.confirmed && (error == .session || error == .input) then
        ({ ended with blocked := some error }, none)
      else
        let moves := Login.moves login status error
        let counted := ended.fail moves now
        (counted,
          some (counted.failed (.login login.target login.confirmed status error) moves now))

def busy (core : Dialer) : Bool :=
  core.closing || core.blocked.isSome || core.login.isSome || core.binding.isSome

/-- `dial` up to its first unlock. -/
def dialRead (core : Dialer) (now : Nat) : Dialer × Option Entry :=
  if core.busy || now < core.retry then
    (core, none)
  else
    match core.connecting with
    | none => ({ core with stage := .connecting now }, some (.dialed now))
    | some connecting => ({ core with stage := .probing now connecting }, some (.dialed now))

/-- `dial` keeps a new channel to the current endpoint. -/
def dialConnect (core : Dialer) (now : Nat) : Dialer × Option Entry :=
  if core.closing then
    ({ core with stage := .idle }, none)
  else
    let connecting : Target := { id := core.objects, endpoint := core.endpoint }
    ({ core with
        objects := core.objects + 1
        connecting := some connecting
        connectingUntil := now + core.options.timeout
        stage := .probing now connecting },
      some (.connected now))

/-- `dial` asks the channel whether it is ready, and gives it up after its deadline. -/
def dialProbe (core : Dialer) (now : Nat) (connecting : Target) (ready : Bool)
    : Dialer × Option Entry :=
  if ready then
    ({ core with stage := .joining now connecting }, none)
  else if core.connectingUntil ≤ now then
    let counted := { core with stage := .idle }.fail true now
    (counted, some (counted.failed .unready true now))
  else
    ({ core with stage := .idle }, none)

/-- `dial` starts the login on a channel that is ready, or publishes it if there is none. -/
def dialJoin (core : Dialer) (now : Nat) (connecting : Target) : Dialer × Option Entry :=
  if core.busy then
    ({ core with stage := .idle }, none)
  else if !core.options.auth then
    ({ core with stage := .idle, binding := some connecting }, some (.started connecting))
  else
    let target : Target := { id := core.objects, endpoint := connecting.endpoint }
    let login : Login :=
      { target, secret := core.secret, deadline := now + core.options.timeout }
    ({ core with objects := core.objects + 1, login := some login, stage := .idle },
      some (.started target))

def lost (core : Dialer) (target : Target) (error : Error) (now : Nat)
    : Dialer × Option Entry :=
  if core.binding ≠ some target || core.closing then
    (core, none)
  else
    let blocked :=
      if core.options.auth = false ∧ error = .session then some error else core.blocked
    let dropped : Dialer := { core with binding := none, blocked }
    let moves := error == .transport
    let counted := dropped.fail moves now
    (counted, some (counted.failed (.lost target error) moves now))

def recovered (core : Dialer) (target : Target) : Dialer × Option Entry :=
  if core.binding = some target && !core.closing then
    ({ core with failures := 0 }, some .recovered)
  else
    (core, none)

def replaceSecret (core : Dialer) : Dialer :=
  if !core.options.auth || core.closing then
    core
  else
    { core with secret := core.objects, objects := core.objects + 1, blocked := none, retry := 0 }

def report (core : Dialer) (change : Login → Login) : Dialer :=
  { core with login := core.login.map change }

-- Steps

inductive Loss where
  | session
  | transport
  deriving DecidableEq, Repr

def Loss.error : Loss → Error
  | .session => .session
  | .transport => .transport

/-- The sections of a control round, what objects report in it, and what other threads do at any
time. `interrupted` is an exception inside the round. -/
inductive Label where
  | session (now : Nat) (cleaned : Bool)
  | confirm
  | finish
  | dial (now : Nat)
  | connect
  | probe (ready : Bool)
  | join
  | lost (target : Target) (loss : Loss) (now : Nat)
  | recovered (target : Target)
  | complete
  | interrupted
  | secret
  | close
  | reply (proper : Bool)
  | done (status : StatusCode) (reason : Option Reason)

/-- One step, where it can be taken. The login's own lock is held inside `session`, so nothing
is reported to it there. -/
def step (core : Dialer) : Label → Option (Dialer × Option Entry)
  | .session now cleaned =>
      if core.stage = .idle then some (core.sessionRead now cleaned, none) else none
  | .confirm =>
      match core.stage, core.login with
      | .reading now secret closing binding, some login =>
          some (core.sessionConfirm login now secret closing binding, none)
      | _, _ => none
  | .finish =>
      match core.stage, core.login with
      | .settling now detached, some login => some (core.sessionFinish login now detached)
      | _, _ => none
  | .dial now => if core.stage = .idle then some (core.dialRead now) else none
  | .connect =>
      match core.stage with
      | .connecting now => some (core.dialConnect now)
      | _ => none
  | .probe ready =>
      match core.stage with
      | .probing now connecting => some (core.dialProbe now connecting ready)
      | _ => none
  | .join =>
      match core.stage with
      | .joining now connecting => some (core.dialJoin now connecting)
      | _ => none
  | .lost target loss now =>
      if core.stage = .idle then some (core.lost target loss.error now) else none
  | .recovered target => if core.stage = .idle then some (core.recovered target) else none
  | .complete =>
      if core.stage = .idle ∧ core.closing = true ∧ core.login = none then
        some ({ core with connecting := none, binding := none }, none)
      else
        none
  | .interrupted => some ({ core with stage := .idle, closing := true }, none)
  | .secret => some (core.replaceSecret, none)
  | .close => some ({ core with closing := true }, none)
  | .reply proper =>
      match core.stage with
      | .reading _ _ _ _ => none
      | .settling _ _ => none
      | _ => some (core.report fun login => { login with available := some proper }, none)
  | .done status reason =>
      match core.stage with
      | .reading _ _ _ _ => none
      | .settling _ _ => none
      | _ => some (core.report fun login => { login with done := some (status, reason) }, none)

-- What the records say. The newest entry comes first.

def Cause.target? : Cause → Option Target
  | .login target _ _ _ => some target
  | .lost target _ => some target
  | .unready => none

/-- A session that the server took back: a confirmed login that ended with a session error or was
cancelled, or a binding that lost its session. -/
def Cause.Revoked : Cause → Prop
  | .login _ confirmed status error => confirmed = true ∧ (error = .session ∨ status = .cancelled)
  | .lost _ error => error = .session
  | .unready => False

instance : DecidablePred Cause.Revoked
  | .login _ _ _ _ => inferInstanceAs (Decidable (_ ∧ _))
  | .lost _ _ => inferInstanceAs (Decidable (_ = _))
  | .unready => inferInstanceAs (Decidable False)

/-- When dialing started last, if it did since the last login or failure. -/
def since : List Entry → Option Nat
  | [] => none
  | .dialed now :: before => some ((since before).getD now)
  | .connected now :: _ => some now
  | .started _ :: _ => none
  | .failed _ :: _ => none
  | .recovered :: before => since before

/-- Whether a login was started on the channel that was made last. -/
def carried : List Entry → Bool
  | [] => false
  | .connected _ :: _ => false
  | .started _ :: _ => true
  | _ :: before => carried before

def moves : List Entry → Nat
  | [] => 0
  | .failed failure :: before => moves before + if failure.moved then 1 else 0
  | _ :: before => moves before

def streak : List Entry → Nat
  | [] => 0
  | .failed _ :: before => streak before + 1
  | .recovered :: _ => 0
  | _ :: before => streak before

def charged : List Entry → List Nat
  | [] => []
  | .failed failure :: before => (failure.cause.target?.map Target.id).toList ++ charged before
  | _ :: before => charged before

/-- The endpoint of a session that was taken back and not logged in again since, unless its
channel was given up in the meantime. -/
def owed : List Entry → Option Nat
  | [] => none
  | .failed failure :: _ =>
      if failure.cause.Revoked then failure.cause.target?.map Target.endpoint else none
  | .started _ :: _ => none
  | _ :: before => owed before

/-- The reasons for which the endpoint may move: a login or binding that failed with a transport
error or a timeout, a first login that was cancelled, or a channel that was not ready for the
whole timeout since dialing started. -/
def Failure.Warranted (options : Options) (before : List Entry) (failure : Failure) : Prop :=
  match failure.cause with
  | .login _ confirmed status error =>
      if status = .cancelled then confirmed = false else error = .transport ∨ error = .timeout
  | .lost _ error => error = .transport ∨ error = .timeout
  | .unready => ∃ start, since before = some start ∧ start + options.timeout ≤ failure.now

def Entry.Lawful (options : Options) (before : List Entry) : Entry → Prop
  | .failed failure =>
      (failure.moved = true → failure.Warranted options before)
        ∧ (∀ target, failure.cause.target? = some target → target.id ∉ charged before)
        ∧ (∀ endpoint, owed before = some endpoint → failure.cause = .unready)
        ∧ failure.now + 100 * millisecond ≤ failure.retry
        ∧ failure.retry ≤ failure.now + 5000 * millisecond
  | .started target => ∀ endpoint, owed before = some endpoint → target.endpoint = endpoint
  | _ => True

/-- The endpoint moves for good reasons only; every binding or login fails once; a session that
was taken back is logged in again where it was; every pause is between 100 ms and 5 s. -/
def Lawful (options : Options) : List Entry → Prop
  | [] => True
  | entry :: before => entry.Lawful options before ∧ Lawful options before

structure World where
  core : Dialer
  history : List Entry := []

def World.new (options : Options) : World where
  core := { options }

def World.step (world : World) (label : Label) : Option World :=
  (world.core.step label).map fun after =>
    { core := after.1, history := after.2.toList ++ world.history }

/-- A channel that carried a login before is not ready at once when it is dialed again: its
deadline still counts from when it was made. -/
def World.Stale (world : World) : Label → Prop
  | .probe false =>
      match world.core.stage with
      | .probing now _ =>
          carried world.history = true ∧ world.core.connectingUntil ≤ now
            ∧ ∀ start, since world.history = some start → now < start + world.core.options.timeout
      | _ => False
  | _ => False

-- What the core keeps in step with its records

def resting : List Entry → Bool
  | [] => true
  | .started _ :: _ => false
  | .failed _ :: _ => true
  | _ :: before => resting before

/-- What the local variables of the control round still say about the core. -/
def Stage.Tracked (core : Dialer) (history : List Entry) : Stage → Prop
  | .idle => True
  | .reading _ _ _ binding => binding = core.binding
  | .settling _ detached =>
      ∀ login, core.login = some login → (login.target.id ∈ charged history → detached = true)
          ∧ (detached = false → login.confirmed = true
            → core.binding = some login.target ∨ core.secret ≠ login.secret
              ∨ core.blocked.isSome = true)
  | .connecting _ =>
      (since history).isSome = true ∧ core.login = none ∧ core.binding = none
  | .probing _ channel | .joining _ channel =>
      core.connecting = some channel ∧ (since history).isSome = true
        ∧ core.login = none ∧ core.binding = none

/-- The counters are those of the records, everything that is current stands on the current
endpoint, and what failed is not used again. -/
structure Tracked (core : Dialer) (history : List Entry) : Prop where
  endpoint : core.endpoint = moves history % core.options.endpoints
  failures : core.failures = min 32 (streak history)
  secret_lt : core.secret < core.objects
  login_lt
    : ∀ login, core.login = some login
      → login.secret < core.objects ∧ login.target.id < core.objects
  charged_lt : ∀ id ∈ charged history, id < core.objects
  connecting_here
    : ∀ target, core.connecting = some target
      → target.endpoint = core.endpoint ∧ target.id < core.objects
  binding_here
    : ∀ target, core.binding = some target
      → target.endpoint = core.endpoint ∧ target.id < core.objects ∧ target.id ∉ charged history
  login_here
    : ∀ login, core.login = some login → login.target.id ∉ charged history
      → login.target.endpoint = core.endpoint
  spent
    : ∀ login, core.login = some login → login.target.id ∈ charged history
      → login.confirmed = true ∧ core.binding ≠ some login.target
  anonymous
    : core.options.auth = false → core.login = none
      ∧ ∀ target, core.connecting = some target → target.id ∈ charged history
        → core.blocked.isSome = true
  bound
    : core.options.auth = true → ∀ target, core.binding = some target
      → ∃ login, core.login = some login ∧ login.target = target ∧ login.confirmed = true
  rest
    : resting history = true → core.binding = none
      ∧ ∀ login, core.login = some login → login.target.id ∈ charged history
  carries : core.login.isSome = true ∨ core.binding.isSome = true → carried history = true
  owes : ∀ endpoint, owed history = some endpoint → core.endpoint = endpoint
  deadline
    : ∀ target, core.connecting = some target → carried history = false
      → ∃ start, since history = some start ∧ core.connectingUntil = start + core.options.timeout
  stage : core.stage.Tracked core history

variable {history : List Entry}

theorem resting_of_owed {endpoint : Nat} (isOwed : owed history = some endpoint) : resting history = true := by
  induction history with
  | nil => rfl
  | cons entry before ih =>
      cases entry with
      | started target => simp [owed] at isOwed
      | failed failure => rfl
      | dialed now => exact ih isOwed
      | connected now => exact ih isOwed
      | recovered => exact ih isOwed

/-- A pause is never shorter than 100 ms nor longer than 5 s. -/
theorem delay_between (options : Options) (failures endpoint : Nat)
    : 100 ≤ delay options failures endpoint ∧ delay options failures endpoint ≤ 5000 := by
  have shifted : 100 ≤ 100 <<< min failures 6 := by
    rw [Nat.shiftLeft_eq]
    exact Nat.le_mul_of_pos_right 100 (Nat.two_pow_pos _)
  simp only [delay]
  omega

/-- The pause that a counted failure begins. -/
theorem retry_between (core : Dialer) (moves : Bool) (now : Nat)
    : now + 100 * millisecond ≤ (core.fail moves now).retry
      ∧ (core.fail moves now).retry ≤ now + 5000 * millisecond := by
  obtain ⟨low, high⟩ := delay_between core.options (core.fail moves now).failures
    (core.fail moves now).endpoint
  have isRetry : (core.fail moves now).retry = now
      + delay core.options (core.fail moves now).failures (core.fail moves now).endpoint
        * millisecond := rfl
  have least := Nat.mul_le_mul_right millisecond low
  have most := Nat.mul_le_mul_right millisecond high
  omega

variable {core : Dialer} {now : Nat}

/-- A failure is counted while nothing current is left: the counters follow, and the failed
target counts as used up. -/
theorem Tracked.fail (tracked : Tracked core history)
    {cause : Cause} {moving : Bool} {entry : Entry}
    (isEntry : entry = (core.fail moving now).failed cause moving now)
    (idle : core.stage = .idle) (unbound : core.binding = none)
    (known : ∀ target, cause.target? = some target → target.id < core.objects)
    (done : ∀ login, core.login = some login
      → login.confirmed = true ∧ login.target.id ∈ charged (entry :: history))
    (revoked : cause.Revoked → moving = false
      ∧ ∀ target, cause.target? = some target → target.endpoint = core.endpoint)
    (stuck : core.options.auth = false → moving = false → ∀ target, cause.target? = some target
      → core.blocked.isSome = true)
    (kept : moving = false → carried history = true)
    : Tracked (core.fail moving now) (entry :: history) := by
  subst isEntry
  have grown : ∀ id, id ∈ charged ((core.fail moving now).failed cause moving now :: history)
      ↔ (∃ target, cause.target? = some target ∧ target.id = id) ∨ id ∈ charged history := by
    intro id
    simp [charged, failed]
  refine
    { endpoint := ?_, failures := ?_, secret_lt := tracked.secret_lt, login_lt := tracked.login_lt
      charged_lt := ?_, connecting_here := ?_, binding_here := ?_, login_here := ?_, spent := ?_
      anonymous := ?_, bound := ?_, rest := ?_, carries := ?_, owes := ?_, deadline := ?_
      stage := ?_ }
  · cases moving with
    | true => simp [Dialer.fail, failed, moves, tracked.endpoint]
    | false => simp [Dialer.fail, failed, moves, tracked.endpoint]
  · simp only [Dialer.fail, failed, streak, tracked.failures]
    omega
  · intro id listed
    rcases (grown id).mp listed with ⟨target, isTarget, rfl⟩ | earlier
    · exact known target isTarget
    · exact tracked.charged_lt id earlier
  · intro target isTarget
    cases moving with
    | true => simp [Dialer.fail] at isTarget
    | false => exact tracked.connecting_here target isTarget
  · intro target isTarget
    simp [Dialer.fail, unbound] at isTarget
  · intro login isLogin fresh
    exact absurd (done login isLogin).2 fresh
  · intro login isLogin _
    exact ⟨(done login isLogin).1, by simp [Dialer.fail, unbound]⟩
  · intro plain
    refine ⟨(tracked.anonymous plain).1, fun target isTarget listed => ?_⟩
    cases moving with
    | true => simp [Dialer.fail] at isTarget
    | false =>
        rcases (grown target.id).mp listed with ⟨other, isOther, _⟩ | earlier
        · exact stuck plain rfl other isOther
        · exact (tracked.anonymous plain).2 target isTarget earlier
  · intro _ target isTarget
    simp [Dialer.fail, unbound] at isTarget
  · intro _
    exact ⟨unbound, fun login isLogin => (done login isLogin).2⟩
  · intro current
    refine tracked.carries ?_
    simpa [Dialer.fail, unbound] using current
  · intro endpoint isOwed
    simp only [failed, owed] at isOwed
    split at isOwed
    next taken =>
      obtain ⟨rfl, standing⟩ := revoked taken
      simp only [Option.map_eq_some_iff] at isOwed
      obtain ⟨target, isTarget, rfl⟩ := isOwed
      exact (standing target isTarget).symm
    · cases isOwed
  · intro target isTarget anew
    cases moving with
    | true => simp [Dialer.fail] at isTarget
    | false =>
        have old : carried history = false := anew
        rw [kept rfl] at old
        cases old
  · show core.stage.Tracked _ _
    rw [idle]
    exact True.intro

variable {login : Login}

/-- Give up the login: nothing current is left. -/
theorem Tracked.unbound_of_login (tracked : Tracked core history)
    (isLogin : core.login = some login)
    : (if core.binding = some login.target then none else core.binding) = none := by
  cases auth : core.options.auth with
  | false =>
      have anonymous := (tracked.anonymous auth).1
      rw [isLogin] at anonymous
      cases anonymous
  | true =>
      cases isBinding : core.binding with
      | none => simp
      | some target =>
          obtain ⟨other, isOther, same, _⟩ := tracked.bound auth target isBinding
          rw [isLogin] at isOther
          cases isOther
          simp [same]

/-- Only the stage moves on. -/
theorem Tracked.turn {core : Dialer} {history : List Entry} (tracked : Tracked core history)
    {stage : Stage} (sound : stage.Tracked { core with stage } history)
    : Tracked { core with stage } history :=
  { tracked with stage := sound }

theorem Tracked.sessionRead (tracked : Tracked core history) (now : Nat) (cleaned : Bool)
    : Tracked (core.sessionRead now cleaned) history := by
  unfold Dialer.sessionRead
  split
  · exact tracked
  · exact tracked.turn rfl

/-- The login moved in what the network reports only. -/
theorem Tracked.relogin (tracked : Tracked core history) (change : Login → Login)
    (same : ∀ login, (change login).target = login.target ∧ (change login).secret = login.secret
      ∧ (change login).confirmed = login.confirmed)
    : Tracked (core.report change) history := by
  have back : ∀ login, (core.report change).login = some login
      → ∃ old, core.login = some old ∧ login.target = old.target ∧ login.secret = old.secret
        ∧ login.confirmed = old.confirmed := by
    intro login isLogin
    simp only [report, Option.map_eq_some_iff] at isLogin
    obtain ⟨old, isOld, rfl⟩ := isLogin
    exact ⟨old, isOld, same old⟩
  refine
    { tracked with
      login_lt := ?_, login_here := ?_, spent := ?_, anonymous := ?_, bound := ?_, rest := ?_
      carries := ?_, stage := ?_ }
  · intro login isLogin
    obtain ⟨old, isOld, sameTarget, sameSecret, _⟩ := back login isLogin
    rw [sameTarget, sameSecret]
    exact tracked.login_lt old isOld
  · intro login isLogin
    obtain ⟨old, isOld, sameTarget, _, _⟩ := back login isLogin
    rw [sameTarget]
    exact tracked.login_here old isOld
  · intro login isLogin
    obtain ⟨old, isOld, sameTarget, _, sameState⟩ := back login isLogin
    rw [sameTarget, sameState]
    exact tracked.spent old isOld
  · intro plain
    obtain ⟨free, stuck⟩ := tracked.anonymous plain
    exact ⟨by simp [report, free], stuck⟩
  · intro auth target isTarget
    obtain ⟨old, isOld, sameTarget, confirmed⟩ := tracked.bound auth target isTarget
    exact ⟨change old, by simp [report, isOld], (same old).1.trans sameTarget,
      (same old).2.2.trans confirmed⟩
  · intro still
    obtain ⟨unbound, used⟩ := tracked.rest still
    refine ⟨unbound, fun login isLogin => ?_⟩
    obtain ⟨old, isOld, sameTarget, _, _⟩ := back login isLogin
    rw [sameTarget]
    exact used old isOld
  · intro current
    refine tracked.carries ?_
    simpa [report] using current
  · have sound := tracked.stage
    show core.stage.Tracked _ _
    cases isStage : core.stage with
    | idle => exact True.intro
    | reading now secret closing binding =>
        rw [isStage] at sound
        exact sound
    | settling now detached =>
        rw [isStage] at sound
        intro login isLogin
        obtain ⟨old, isOld, sameTarget, sameSecret, sameState⟩ := back login isLogin
        rw [sameTarget, sameSecret, sameState]
        exact sound old isOld
    | connecting now =>
        rw [isStage] at sound
        exact ⟨sound.1, by simp [report, sound.2.1], sound.2.2⟩
    | probing now channel =>
        rw [isStage] at sound
        exact ⟨sound.1, sound.2.1, by simp [report, sound.2.2.1], sound.2.2.2⟩
    | joining now channel =>
        rw [isStage] at sound
        exact ⟨sound.1, sound.2.1, by simp [report, sound.2.2.1], sound.2.2.2⟩

/-- A login that is still current, as the control round saw it. -/
theorem Tracked.fresh (tracked : Tracked core history) (isLogin : core.login = some login)
    (attached : (login.confirmed && core.binding != some login.target) = false)
    : login.target.id ∉ charged history := by
  intro listed
  obtain ⟨confirmed, apart⟩ := tracked.spent login isLogin listed
  simp [confirmed, apart] at attached

theorem Tracked.sessionConfirm (tracked : Tracked core history) (isLogin : core.login = some login)
    {secret : Nat} {closing : Bool} {binding : Option Target} (isBinding : binding = core.binding)
    : Tracked (core.sessionConfirm login now secret closing binding) history := by
  subst isBinding
  have auth : core.options.auth = true := by
    cases auth : core.options.auth with
    | true => rfl
    | false =>
        have free := (tracked.anonymous auth).1
        rw [isLogin] at free
        cases free
  have settled : Tracked { core with
      stage := .settling now (login.confirmed && core.binding != some login.target) } history := by
    refine tracked.turn fun other isOther => ?_
    cases isLogin.symm.trans isOther
    refine ⟨fun listed => ?_, fun attached confirmed => .inl ?_⟩
    · obtain ⟨confirmed, apart⟩ := tracked.spent login isLogin listed
      simp [confirmed, apart]
    · simpa [confirmed] using attached
  simp only [Dialer.sessionConfirm]
  split
  · exact settled
  rename_i proper unread
  split
  next admitted =>
    have attached : (login.confirmed && core.binding != some login.target) = false := by
      simp only [Bool.and_eq_true, Bool.not_eq_true'] at admitted
      exact admitted.1.2
    have fresh := tracked.fresh isLogin attached
    have moving : ¬ resting history = true := fun still =>
      fresh ((tracked.rest still).2 login isLogin)
    obtain ⟨secretBound, idBound⟩ := tracked.login_lt login isLogin
    have onSpot := tracked.login_here login isLogin fresh
    have carried := tracked.carries (.inl (by simp [isLogin]))
    split
    next kept =>
      split
      next valid =>
        -- The first reply is in order: the login's own target becomes the binding.
        refine
          { settled with
            login_lt := ?_, binding_here := ?_, login_here := ?_, spent := ?_, anonymous := ?_
            bound := ?_, rest := ?_, carries := fun _ => carried, stage := ?_ }
        · intro other isOther
          cases isOther
          exact ⟨secretBound, idBound⟩
        · intro target isTarget
          cases isTarget
          exact ⟨onSpot, idBound, fresh⟩
        · intro other isOther _
          cases isOther
          exact onSpot
        · intro other isOther listed
          cases isOther
          exact absurd listed fresh
        · intro plain
          exact absurd (auth.symm.trans plain) (by decide)
        · intro _ target isTarget
          cases isTarget
          exact ⟨_, rfl, rfl, rfl⟩
        · intro still
          exact absurd still moving
        · intro other isOther
          cases isOther
          exact ⟨fun listed => absurd listed fresh, fun _ _ => .inl rfl⟩
      rename_i invalid
      refine
        { settled with
          login_lt := ?_, binding_here := ?_, login_here := ?_, spent := ?_, anonymous := ?_
          bound := ?_, rest := ?_, carries := fun _ => carried, stage := ?_ }
      · intro other isOther
        cases isOther
        exact ⟨secretBound, idBound⟩
      · intro target isTarget
        cases isTarget
      · intro other isOther _
        cases isOther
        exact onSpot
      · intro other isOther listed
        cases isOther
        exact absurd listed fresh
      · intro plain
        exact absurd (auth.symm.trans plain) (by decide)
      · intro _ target isTarget
        cases isTarget
      · intro still
        exact absurd still moving
      · intro other isOther
        cases isOther
        exact ⟨fun listed => absurd listed fresh, fun _ _ => .inr (.inr rfl)⟩
    · have consumed := settled.relogin (fun login => { login with available := none })
        fun _ => ⟨rfl, rfl, rfl⟩
      simpa only [report, isLogin, Option.map_some] using consumed
  · exact settled

variable {status : StatusCode} {error : Error}

/-- A login that moved the endpoint had a good reason to. -/
theorem warranted_of_moves {options : Options} {before : List Entry} {moved : Bool} {retry : Nat}
    (moves : Login.moves login status error = true)
    : Failure.Warranted options before
      { cause := .login login.target login.confirmed status error, moved, now, retry } := by
  simp only [Login.moves, Bool.and_eq_true, Bool.or_eq_true, beq_iff_eq, Bool.not_eq_true',
    Bool.and_eq_false_iff, beq_eq_false_iff_ne] at moves
  obtain ⟨failed, first⟩ := moves
  simp only [Failure.Warranted]
  split
  next cancelled =>
    rcases first with unconfirmed | other
    · exact unconfirmed
    · exact absurd cancelled other
  rename_i other
  rcases failed with transport | cancelled
  · exact transport
  · exact absurd cancelled other

theorem not_moves_of_revoked (confirmed : login.confirmed = true)
    (revoked : error = .session ∨ status = .cancelled)
    : Login.moves login status error = false := by
  cases status with
  | cancelled => simp [Login.moves, confirmed]
  | _ =>
      rcases revoked with rfl | cancelled
      · simp [Login.moves]
      · cases cancelled

variable {next : Dialer} {note : Option Entry}

/-- The end of a login: a failure, if it is one, is the first of its target. -/
theorem Tracked.sessionFinish (tracked : Tracked core history) (isLogin : core.login = some login)
    {detached : Bool} (settling : core.stage = .settling now detached)
    (finished : core.sessionFinish login now detached = (next, note))
    : Tracked next (note.toList ++ history)
      ∧ ∀ entry ∈ note, entry.Lawful core.options history := by
  have sound := tracked.stage
  rw [settling] at sound
  obtain ⟨used, current⟩ := sound login isLogin
  have unbound := tracked.unbound_of_login isLogin
  have carried := tracked.carries (.inl (by simp [isLogin]))
  -- Without its login the core has nothing current left.
  have ended (blocked : Option Error) (more : core.blocked.isSome = true → blocked.isSome = true)
      : Tracked { core with stage := .idle, login := none, binding := none, blocked } history :=
    { tracked with
      login_lt := fun _ none_ => (nomatch none_)
      binding_here := fun _ none_ => (nomatch none_)
      login_here := fun _ none_ => (nomatch none_)
      spent := fun _ none_ => (nomatch none_)
      anonymous := fun plain =>
        ⟨rfl, fun target isTarget listed => more ((tracked.anonymous plain).2 target isTarget listed)⟩
      bound := fun _ _ none_ => (nomatch none_)
      rest := fun _ => ⟨rfl, fun _ none_ => (nomatch none_)⟩
      carries := fun _ => carried
      stage := True.intro }
  simp only [Dialer.sessionFinish, unbound] at finished
  split at finished
  · cases finished
    exact ⟨tracked.turn True.intro, fun _ none_ => (nomatch none_)⟩
  rename_i status reason isDone
  split at finished
  · cases finished
    exact ⟨ended core.blocked id, fun _ none_ => (nomatch none_)⟩
  rename_i live
  split at finished
  · cases finished
    exact ⟨ended _ fun _ => rfl, fun _ none_ => (nomatch none_)⟩
  · simp only [Prod.mk.injEq] at finished
    obtain ⟨rfl, rfl⟩ := finished
    simp only [Bool.or_eq_true, bne_iff_ne, not_or, Bool.not_eq_true, not_not] at live
    obtain ⟨⟨⟨_, _⟩, attached⟩, _⟩ := live
    have fresh : login.target.id ∉ charged history := fun listed => by
      rw [used listed] at attached
      cases attached
    have onSpot := tracked.login_here login isLogin fresh
    have auth : core.options.auth ≠ false := fun plain => by
      have free := (tracked.anonymous plain).1
      rw [isLogin] at free
      cases free
    refine ⟨(ended core.blocked id).fail rfl rfl rfl ?_ ?_ ?_ ?_ fun _ => carried, ?_⟩
    · intro target isTarget
      cases isTarget
      exact (tracked.login_lt login isLogin).2
    · intro other isOther
      cases isOther
    · rintro ⟨confirmed, revoked⟩
      refine ⟨not_moves_of_revoked confirmed revoked, fun target isTarget => ?_⟩
      cases isTarget
      exact onSpot
    · intro plain
      exact absurd plain auth
    · intro entry isEntry
      cases isEntry
      refine ⟨fun moved => warranted_of_moves moved, ?_, ?_, retry_between _ _ _⟩
      · intro target isTarget
        cases isTarget
        exact fresh
      · intro endpoint isOwed
        exact absurd ((tracked.rest (resting_of_owed isOwed)).2 login isLogin) fresh

/-- What a core without login and binding keeps when only the records of dialing grow. -/
theorem Tracked.dialRead (tracked : Tracked core history)
    (dialed : core.dialRead now = (next, note))
    : Tracked next (note.toList ++ history)
      ∧ ∀ entry ∈ note, entry.Lawful core.options history := by
  have grown (stage : Stage) (sound : stage.Tracked { core with stage } (.dialed now :: history))
      : Tracked { core with stage } (.dialed now :: history) :=
    { tracked with
      deadline := fun target isTarget anew => by
        obtain ⟨start, isStart, isDeadline⟩ := tracked.deadline target isTarget anew
        exact ⟨start, by simp [since, isStart], isDeadline⟩
      stage := sound }
  simp only [Dialer.dialRead] at dialed
  split at dialed
  · cases dialed
    exact ⟨tracked, fun _ none_ => (nomatch none_)⟩
  rename_i free
  simp only [busy, Bool.or_eq_true, not_or, Bool.not_eq_true, Option.isSome_eq_false_iff,
    Option.isNone_iff_eq_none] at free
  obtain ⟨⟨⟨_, noLogin⟩, noBinding⟩, _⟩ := free
  split at dialed
  · cases dialed
    refine ⟨grown _ ⟨rfl, noLogin, noBinding⟩, fun entry isEntry => ?_⟩
    cases isEntry
    exact True.intro
  rename_i channel isChannel
  cases dialed
  refine ⟨grown _ ⟨isChannel, rfl, noLogin, noBinding⟩, fun entry isEntry => ?_⟩
  cases isEntry
  exact True.intro

/-- A new channel stands on the current endpoint, and its deadline counts from now. -/
theorem Tracked.dialConnect (tracked : Tracked core history)
    (connecting : core.stage = .connecting now) (connected : core.dialConnect now = (next, note))
    : Tracked next (note.toList ++ history)
      ∧ ∀ entry ∈ note, entry.Lawful core.options history := by
  have sound := tracked.stage
  rw [connecting] at sound
  obtain ⟨_, noLogin, noBinding⟩ := sound
  simp only [Dialer.dialConnect] at connected
  split at connected
  · cases connected
    exact ⟨tracked.turn True.intro, fun _ none_ => (nomatch none_)⟩
  · cases connected
    refine ⟨{ tracked with
      secret_lt := Nat.lt_succ_of_lt tracked.secret_lt
      login_lt := ?_, charged_lt := fun id listed => Nat.lt_succ_of_lt (tracked.charged_lt id listed)
      connecting_here := ?_, binding_here := ?_, anonymous := ?_, carries := ?_, deadline := ?_
      stage := ⟨rfl, rfl, noLogin, noBinding⟩ }, fun entry isEntry => ?_⟩
    · intro login isLogin
      simp [noLogin] at isLogin
    · intro target isTarget
      cases isTarget
      exact ⟨rfl, Nat.lt_succ_self _⟩
    · intro target isTarget
      simp [noBinding] at isTarget
    · intro plain
      refine ⟨noLogin, fun target isTarget listed => ?_⟩
      cases isTarget
      exact absurd (tracked.charged_lt _ listed) (Nat.lt_irrefl _)
    · intro current
      simp [noLogin, noBinding] at current
    · intro target isTarget _
      exact ⟨now, rfl, rfl⟩
    · cases isEntry
      exact True.intro

variable {channel : Target}

/-- A channel is given up after its timeout, unless it was a stale one. -/
theorem Tracked.dialProbe (tracked : Tracked core history) {ready : Bool}
    (probing : core.stage = .probing now channel)
    (prompt : ¬ World.Stale { core, history } (.probe ready))
    (probed : core.dialProbe now channel ready = (next, note))
    : Tracked next (note.toList ++ history)
      ∧ ∀ entry ∈ note, entry.Lawful core.options history := by
  have sound := tracked.stage
  rw [probing] at sound
  obtain ⟨isChannel, started, noLogin, noBinding⟩ := sound
  have idle : Tracked { core with stage := .idle } history := tracked.turn True.intro
  simp only [Dialer.dialProbe] at probed
  split at probed
  · cases probed
    exact ⟨tracked.turn ⟨isChannel, started, noLogin, noBinding⟩, fun _ none_ => (nomatch none_)⟩
  rename_i unready
  split at probed
  next late =>
    simp only [Prod.mk.injEq] at probed
    obtain ⟨rfl, rfl⟩ := probed
    refine ⟨idle.fail rfl rfl noBinding (fun _ none_ => (nomatch none_)) ?_ (fun no => no.elim)
      (fun _ none_ => (nomatch none_)) (fun none_ => (nomatch none_)), fun entry isEntry => ?_⟩
    · intro login isLogin
      simp [noLogin] at isLogin
    · cases isEntry
      refine ⟨fun _ => ?_, fun _ none_ => (nomatch none_), fun _ _ => rfl, retry_between _ _ _⟩
      simp only [Failure.Warranted]
      obtain ⟨start, isStart⟩ := Option.isSome_iff_exists.mp started
      refine ⟨start, isStart, ?_⟩
      cases used : carried history with
      | false =>
          obtain ⟨other, isOther, isDeadline⟩ := tracked.deadline channel isChannel used
          cases isStart.symm.trans isOther
          omega
      | true =>
          have waited : ¬ now < start + core.options.timeout := by
            intro early
            simp only [Bool.not_eq_true] at unready
            apply prompt
            simp only [World.Stale, unready, probing]
            refine ⟨used, late, fun other isOther => ?_⟩
            cases isStart.symm.trans isOther
            exact early
          omega
  · cases probed
    exact ⟨idle, fun _ none_ => (nomatch none_)⟩

/-- A login, or an anonymous binding, starts where the channel stands. -/
theorem Tracked.dialJoin (tracked : Tracked core history)
    (joining : core.stage = .joining now channel)
    (joined : core.dialJoin now channel = (next, note))
    : Tracked next (note.toList ++ history)
      ∧ ∀ entry ∈ note, entry.Lawful core.options history := by
  have sound := tracked.stage
  rw [joining] at sound
  obtain ⟨isChannel, _, noLogin, noBinding⟩ := sound
  obtain ⟨onSpot, known⟩ := tracked.connecting_here channel isChannel
  have owing : ∀ endpoint, owed history = some endpoint → channel.endpoint = endpoint :=
    fun endpoint isOwed => onSpot.trans (tracked.owes endpoint isOwed)
  simp only [Dialer.dialJoin] at joined
  split at joined
  · cases joined
    exact ⟨tracked.turn True.intro, fun _ none_ => (nomatch none_)⟩
  rename_i free
  simp only [busy, Bool.or_eq_true, not_or, Bool.not_eq_true, Option.isSome_eq_false_iff,
    Option.isNone_iff_eq_none] at free
  obtain ⟨⟨⟨_, unblocked⟩, _⟩, _⟩ := free
  split at joined
  next plain =>
    simp only [Bool.not_eq_true'] at plain
    cases joined
    refine ⟨{ tracked with
      binding_here := ?_, spent := ?_, bound := ?_, rest := fun no => (nomatch no)
      carries := fun _ => rfl, owes := fun _ no => (nomatch no)
      deadline := fun _ _ no => (nomatch no), stage := True.intro }, fun entry isEntry => ?_⟩
    · intro target isTarget
      cases isTarget
      refine ⟨onSpot, known, fun listed => ?_⟩
      have stuck := (tracked.anonymous plain).2 channel isChannel listed
      simp [unblocked] at stuck
    · intro login isLogin
      simp [noLogin] at isLogin
    · intro auth
      exact absurd (auth.symm.trans plain) (by decide)
    · cases isEntry
      exact owing
  rename_i auth
  simp only [Bool.not_eq_true', Bool.not_eq_false] at auth
  cases joined
  refine ⟨{ tracked with
    secret_lt := Nat.lt_succ_of_lt tracked.secret_lt
    login_lt := ?_
    charged_lt := fun id listed => Nat.lt_succ_of_lt (tracked.charged_lt id listed)
    connecting_here := ?_, binding_here := ?_, login_here := ?_, spent := ?_, anonymous := ?_
    bound := ?_, rest := fun no => (nomatch no), carries := fun _ => rfl
    owes := fun _ no => (nomatch no), deadline := fun _ _ no => (nomatch no)
    stage := True.intro }, fun entry isEntry => ?_⟩
  · intro login isLogin
    cases isLogin
    exact ⟨Nat.lt_succ_of_lt tracked.secret_lt, Nat.lt_succ_self _⟩
  · intro target isTarget
    obtain ⟨here, bound⟩ := tracked.connecting_here target isTarget
    exact ⟨here, Nat.lt_succ_of_lt bound⟩
  · intro target isTarget
    simp [noBinding] at isTarget
  · intro login isLogin _
    cases isLogin
    exact onSpot
  · intro login isLogin listed
    cases isLogin
    exact absurd (tracked.charged_lt _ listed) (Nat.lt_irrefl _)
  · intro plain
    exact absurd (auth.symm.trans plain) (by decide)
  · intro _ target isTarget
    simp [noBinding] at isTarget
  · cases isEntry
    exact owing

variable {target : Target}

/-- The first report about the current binding is counted, every later one comes to nothing. -/
theorem Tracked.lost (tracked : Tracked core history) (idle : core.stage = .idle) {loss : Loss}
    (dropped : core.lost target loss.error now = (next, note))
    : Tracked next (note.toList ++ history)
      ∧ ∀ entry ∈ note, entry.Lawful core.options history := by
  simp only [Dialer.lost] at dropped
  split at dropped
  · cases dropped
    exact ⟨tracked, fun _ none_ => (nomatch none_)⟩
  rename_i current
  simp only [Prod.mk.injEq] at dropped
  obtain ⟨rfl, rfl⟩ := dropped
  simp only [ne_eq, decide_not, Bool.or_eq_true, Bool.not_eq_true', decide_eq_false_iff_not,
    not_or, not_not] at current
  obtain ⟨isBinding, _⟩ := current
  obtain ⟨onSpot, known, fresh⟩ := tracked.binding_here target isBinding
  have carried := tracked.carries (.inr (by simp [isBinding]))
  have free : Tracked
      { core with
        binding := none
        blocked :=
          if core.options.auth = false ∧ loss.error = .session then some loss.error
          else core.blocked } history := by
    refine { tracked with
      binding_here := fun _ no => (nomatch no), spent := ?_, anonymous := ?_
      bound := fun _ _ no => (nomatch no), rest := ?_, carries := fun _ => carried, stage := ?_ }
    · intro login isLogin listed
      exact ⟨(tracked.spent login isLogin listed).1, fun no => (nomatch no)⟩
    · intro plain
      refine ⟨(tracked.anonymous plain).1, fun channel isChannel listed => ?_⟩
      have stuck := (tracked.anonymous plain).2 channel isChannel listed
      dsimp only
      split
      · rfl
      · exact stuck
    · intro still
      exact ⟨rfl, (tracked.rest still).2⟩
    · show core.stage.Tracked _ _
      rw [idle]
      exact True.intro
  refine ⟨free.fail rfl idle rfl ?_ ?_ ?_ ?_ fun _ => carried, fun entry isEntry => ?_⟩
  · intro other isOther
    cases isOther
    exact known
  · intro login isLogin
    cases auth : core.options.auth with
    | false =>
        have noLogin := (tracked.anonymous auth).1
        exact absurd (noLogin.symm.trans isLogin) (fun no => (nomatch no))
    | true =>
        obtain ⟨holder, isHolder, sameTarget, confirmed⟩ := tracked.bound auth target isBinding
        cases isHolder.symm.trans isLogin
        exact ⟨confirmed, by simp [charged, failed, Cause.target?, sameTarget]⟩
  · intro revoked
    refine ⟨?_, fun other isOther => ?_⟩
    · have taken : loss.error = .session := revoked
      simp [taken]
    · cases isOther
      exact onSpot
  · intro plain standing other _
    cases loss with
    | transport => simp [Loss.error] at standing
    | session =>
        have anon : core.options.auth = false := plain
        simp [anon, Loss.error]
  · cases isEntry
    refine ⟨fun moved => ?_, ?_, ?_, retry_between _ _ _⟩
    · simp only [Failure.Warranted]
      exact .inl (by simpa using moved)
    · intro other isOther
      cases isOther
      exact fresh
    · intro endpoint isOwed
      have unbound := (tracked.rest (resting_of_owed isOwed)).1
      exact absurd (unbound.symm.trans isBinding) (fun no => (nomatch no))

theorem Tracked.recovered (tracked : Tracked core history)
    (resumed : core.recovered target = (next, note))
    : Tracked next (note.toList ++ history)
      ∧ ∀ entry ∈ note, entry.Lawful core.options history := by
  simp only [Dialer.recovered] at resumed
  split at resumed
  · cases resumed
    refine ⟨{ tracked with failures := rfl }, fun entry isEntry => ?_⟩
    cases isEntry
    exact True.intro
  · cases resumed
    exact ⟨tracked, fun _ none_ => (nomatch none_)⟩

/-- A new secret is unlike that of any login before. -/
theorem Tracked.replaceSecret (tracked : Tracked core history) : Tracked core.replaceSecret history := by
  unfold Dialer.replaceSecret
  split
  · exact tracked
  rename_i admitted
  simp only [Bool.or_eq_true, Bool.not_eq_true', not_or, Bool.not_eq_true,
    Bool.not_eq_false] at admitted
  refine { tracked with
    secret_lt := Nat.lt_succ_self _
    login_lt := fun login isLogin => ?_
    charged_lt := fun id listed => Nat.lt_succ_of_lt (tracked.charged_lt id listed)
    connecting_here := fun target isTarget => ?_, binding_here := fun target isTarget => ?_
    anonymous := fun plain => absurd (admitted.1.symm.trans plain) (by decide), stage := ?_ }
  · obtain ⟨secretBound, idBound⟩ := tracked.login_lt login isLogin
    exact ⟨Nat.lt_succ_of_lt secretBound, Nat.lt_succ_of_lt idBound⟩
  · obtain ⟨here, bound⟩ := tracked.connecting_here target isTarget
    exact ⟨here, Nat.lt_succ_of_lt bound⟩
  · obtain ⟨here, bound, fresh⟩ := tracked.binding_here target isTarget
    exact ⟨here, Nat.lt_succ_of_lt bound, fresh⟩
  · have sound := tracked.stage
    show core.stage.Tracked _ _
    cases isStage : core.stage with
    | settling now detached =>
        rw [isStage] at sound
        intro login isLogin
        refine ⟨(sound login isLogin).1, fun _ _ => .inr (.inl ?_)⟩
        exact Nat.ne_of_gt (tracked.login_lt login isLogin).1
    | idle => exact True.intro
    | reading now secret closing binding =>
        rw [isStage] at sound
        exact sound
    | connecting now =>
        rw [isStage] at sound
        exact sound
    | probing now channel =>
        rw [isStage] at sound
        exact sound
    | joining now channel =>
        rw [isStage] at sound
        exact sound

theorem Tracked.close (tracked : Tracked core history)
    : Tracked { core with closing := true } history := by
  refine { tracked with stage := ?_ }
  have sound := tracked.stage
  show core.stage.Tracked _ _
  cases isStage : core.stage with
  | idle => exact True.intro
  | reading now secret closing binding =>
      rw [isStage] at sound
      exact sound
  | settling now detached =>
      rw [isStage] at sound
      exact sound
  | connecting now =>
      rw [isStage] at sound
      exact sound
  | probing now channel =>
      rw [isStage] at sound
      exact sound
  | joining now channel =>
      rw [isStage] at sound
      exact sound

theorem Tracked.complete {core : Dialer} {history : List Entry} (tracked : Tracked core history)
    (idle : core.stage = .idle) (noLogin : core.login = none)
    : Tracked { core with connecting := none, binding := none } history := by
  refine { tracked with
    connecting_here := fun _ no => (nomatch no), binding_here := fun _ no => (nomatch no)
    spent := ?_, anonymous := fun _ => ⟨noLogin, fun _ no => (nomatch no)⟩
    bound := fun _ _ no => (nomatch no)
    rest := fun still => ⟨rfl, (tracked.rest still).2⟩, carries := ?_
    deadline := fun _ no => (nomatch no), stage := ?_ }
  · intro login isLogin listed
    exact ⟨(tracked.spent login isLogin listed).1, fun no => (nomatch no)⟩
  · intro current
    simp [noLogin] at current
  · show core.stage.Tracked _ _
    rw [idle]
    exact True.intro

/-- One step keeps the core in step with its records, and what it adds to them is lawful. -/
theorem Tracked.step {core next : Dialer} {history : List Entry} (tracked : Tracked core history)
    {label : Label} (prompt : ¬ World.Stale { core, history } label) {note : Option Entry}
    (stepped : core.step label = some (next, note))
    : Tracked next (note.toList ++ history)
      ∧ ∀ entry ∈ note, entry.Lawful core.options history := by
  have quiet {after : Dialer} (kept : Tracked after history)
      (same : some (after, (none : Option Entry)) = some (next, note))
      : Tracked next (note.toList ++ history)
        ∧ ∀ entry ∈ note, entry.Lawful core.options history := by
    cases same
    exact ⟨kept, fun _ no => (nomatch no)⟩
  cases label with
  | session now cleaned =>
      simp only [Dialer.step] at stepped
      split at stepped
      · exact quiet (tracked.sessionRead now cleaned) stepped
      · cases stepped
  | confirm =>
      simp only [Dialer.step] at stepped
      split at stepped
      next now secret closing binding login isStage isLogin =>
        have sound := tracked.stage
        rw [isStage] at sound
        exact quiet (tracked.sessionConfirm isLogin sound) stepped
      · cases stepped
  | finish =>
      simp only [Dialer.step] at stepped
      split at stepped
      next now detached login isStage isLogin =>
        exact tracked.sessionFinish isLogin isStage (Option.some.inj stepped)
      · cases stepped
  | dial now =>
      simp only [Dialer.step] at stepped
      split at stepped
      · exact tracked.dialRead (Option.some.inj stepped)
      · cases stepped
  | connect =>
      simp only [Dialer.step] at stepped
      split at stepped
      next now isStage => exact tracked.dialConnect isStage (Option.some.inj stepped)
      · cases stepped
  | probe ready =>
      simp only [Dialer.step] at stepped
      split at stepped
      next now channel isStage =>
        exact tracked.dialProbe isStage prompt (Option.some.inj stepped)
      · cases stepped
  | join =>
      simp only [Dialer.step] at stepped
      split at stepped
      next now channel isStage => exact tracked.dialJoin isStage (Option.some.inj stepped)
      · cases stepped
  | lost target loss now =>
      simp only [Dialer.step] at stepped
      split at stepped
      next isStage => exact tracked.lost isStage (Option.some.inj stepped)
      · cases stepped
  | recovered target =>
      simp only [Dialer.step] at stepped
      split at stepped
      · exact tracked.recovered (Option.some.inj stepped)
      · cases stepped
  | complete =>
      simp only [Dialer.step] at stepped
      split at stepped
      next cleaned => exact quiet (tracked.complete cleaned.1 cleaned.2.2) stepped
      · cases stepped
  | interrupted =>
      have idle : Tracked { core with stage := .idle } history := tracked.turn True.intro
      exact quiet idle.close stepped
  | secret => exact quiet tracked.replaceSecret stepped
  | close => exact quiet tracked.close stepped
  | reply proper =>
      simp only [Dialer.step] at stepped
      split at stepped
      · cases stepped
      · cases stepped
      · refine quiet (tracked.relogin
          (fun login => { login with available := some proper }) fun _ => ⟨rfl, rfl, rfl⟩) stepped
  | done status reason =>
      simp only [Dialer.step] at stepped
      split at stepped
      · cases stepped
      · cases stepped
      · refine quiet (tracked.relogin
          (fun login => { login with done := some (status, reason) }) fun _ => ⟨rfl, rfl, rfl⟩) stepped

theorem options_sessionConfirm (core : Dialer) (login : Login) (now secret : Nat) (closing : Bool)
    (binding : Option Target)
    : (core.sessionConfirm login now secret closing binding).options = core.options := by
  simp only [Dialer.sessionConfirm]
  split
  · rfl
  · repeat' split
    all_goals rfl

/-- The configuration stays as it is. -/
theorem options_step {label : Label} (stepped : core.step label = some (next, note)) : next.options = core.options := by
  have same : ((core.step label).map fun after => after.1.options)
      = (core.step label).map fun _ => core.options := by
    cases label with
    | session now cleaned =>
        simp only [Dialer.step, Dialer.sessionRead]
        repeat' split
        all_goals rfl
    | confirm =>
        simp only [Dialer.step]
        split
        · simp [options_sessionConfirm]
        · rfl
    | finish =>
        simp only [Dialer.step, Dialer.sessionFinish]
        split
        · repeat' split
          all_goals rfl
        · rfl
    | dial now =>
        simp only [Dialer.step, Dialer.dialRead]
        repeat' split
        all_goals rfl
    | connect =>
        simp only [Dialer.step, Dialer.dialConnect]
        repeat' split
        all_goals rfl
    | probe ready =>
        simp only [Dialer.step, Dialer.dialProbe]
        repeat' split
        all_goals rfl
    | join =>
        simp only [Dialer.step, Dialer.dialJoin]
        repeat' split
        all_goals rfl
    | lost target loss now =>
        simp only [Dialer.step, Dialer.lost]
        repeat' split
        all_goals rfl
    | recovered target =>
        simp only [Dialer.step, Dialer.recovered]
        repeat' split
        all_goals rfl
    | complete =>
        simp only [Dialer.step]
        split
        all_goals rfl
    | interrupted => rfl
    | secret =>
        simp only [Dialer.step, Dialer.replaceSecret]
        split
        all_goals rfl
    | close => rfl
    | reply proper =>
        simp only [Dialer.step]
        split
        all_goals rfl
    | done status reason =>
        simp only [Dialer.step]
        split
        all_goals rfl
  simpa [stepped] using same

theorem Tracked.new (options : Options) : Tracked (World.new options).core [] where
  endpoint := (Nat.zero_mod _).symm
  failures := rfl
  secret_lt := Nat.one_pos
  login_lt _ no := nomatch no
  charged_lt _ no := nomatch no
  connecting_here _ no := nomatch no
  binding_here _ no := nomatch no
  login_here _ no := nomatch no
  spent _ no := nomatch no
  anonymous _ := ⟨rfl, fun _ no => nomatch no⟩
  bound _ _ no := nomatch no
  rest _ := ⟨rfl, fun _ no => nomatch no⟩
  carries no := by simp [World.new] at no
  owes _ no := nomatch no
  deadline _ no := nomatch no
  stage := True.intro

/-- A run without a stale probe keeps the core in step with lawful records, by induction on its
steps. -/
theorem tracked_of_run {world finish : World} {labels : List Label}
    (tracked : Tracked world.core world.history)
    (lawful : Lawful world.core.options world.history)
    (prompt : Along World.step (fun world label => ¬ world.Stale label) world labels)
    (reached : run World.step world labels = some finish)
    : Tracked finish.core finish.history ∧ Lawful world.core.options finish.history
      ∧ finish.core.options = world.core.options := by
  induction labels generalizing world with
  | nil =>
      cases reached
      exact ⟨tracked, lawful, rfl⟩
  | cons label rest ih =>
      obtain ⟨middle, stepped, continued⟩ := Option.bind_eq_some_iff.mp reached
      obtain ⟨fresh, later⟩ := prompt
      have along := later middle stepped
      simp only [World.step, Option.map_eq_some_iff] at stepped
      obtain ⟨⟨core, note⟩, moved, rfl⟩ := stepped
      obtain ⟨kept, entries⟩ := tracked.step fresh moved
      have same := options_step moved
      have onward : Lawful core.options (note.toList ++ world.history) := by
        rw [same]
        cases note with
        | none => exact lawful
        | some entry => exact ⟨entries entry rfl, lawful⟩
      obtain ⟨ended, law, options⟩ := ih kept onward along continued
      dsimp only at law options
      rw [same] at law options
      exact ⟨ended, law, options⟩

/-- In a run in which no channel that carried a login before is given up on its old deadline,
the records are lawful, the endpoint moved exactly with the failures that say so, and the
failures count one for each of them since the last recovery. -/
theorem rotation_law (options : Options) (labels : List Label) (world : World)
    (prompt
      : Along World.step (fun world label => ¬ world.Stale label) (World.new options) labels)
    (reached : run World.step (World.new options) labels = some world)
    : Lawful options world.history ∧ world.core.endpoint = moves world.history % options.endpoints
      ∧ world.core.failures = min 32 (streak world.history) := by
  obtain ⟨tracked, lawful, same⟩ := tracked_of_run (Tracked.new options) True.intro prompt reached
  have endpoint := tracked.endpoint
  rw [same] at endpoint
  exact ⟨lawful, endpoint, tracked.failures⟩

/-- A client with two endpoints, a login that is confirmed, and a session that is taken back
after ten seconds. -/
def takenBack : List Label :=
  [.session 0 false, .dial 0, .connect, .probe true, .join, .reply true,
    .session 1000000 false, .confirm, .finish,
    .lost { id := 2, endpoint := 0 } .session 10000000000,
    .done .cancelled none, .session 10010000000 false, .confirm, .finish]

/-- The retry of `takenBack` finds its channel ready and logs in where it was. -/
theorem rotation_law_takenBack
    : ∃ world, run World.step (World.new { endpoints := 2, timeout := 5000000000 })
          (takenBack ++ [.dial 10200000000, .probe true, .join]) = some world
        ∧ Lawful { endpoints := 2, timeout := 5000000000 } world.history
        ∧ world.core.endpoint = 0 := by
  have reached : (run World.step (World.new { endpoints := 2, timeout := 5000000000 })
      (takenBack ++ [.dial 10200000000, .probe true, .join])).isSome = true := by
    decide
  obtain ⟨world, isWorld⟩ := Option.isSome_iff_exists.mp reached
  have prompt : Along World.step (fun world label => ¬ world.Stale label)
      (World.new { endpoints := 2, timeout := 5000000000 })
      (takenBack ++ [.dial 10200000000, .probe true, .join]) := by
    simp [takenBack, Along, World.Stale]
  refine ⟨world, isWorld, (rotation_law _ _ world prompt isWorld).1, ?_⟩
  have stands : (run World.step (World.new { endpoints := 2, timeout := 5000000000 })
      (takenBack ++ [.dial 10200000000, .probe true, .join])).map (fun world => world.core.endpoint)
      = some 0 := by
    decide
  simpa [isWorld] using stands

/-- The same retry with a channel that is not ready at once: it is dialed for no time at all and
still given up, so the endpoint moves and the one loss counts twice. -/
theorem kept_channel_is_given_up
    : ¬ ∀ (options : Options) (labels : List Label) (world : World),
        run World.step (World.new options) labels = some world → Lawful options world.history := by
  intro law
  have reached : (run World.step (World.new { endpoints := 2, timeout := 5000000000 })
      (takenBack ++ [.dial 10200000000, .probe false])).map World.history
      = some [
        .failed { cause := .unready, moved := true, now := 10200000000, retry := 10600000000 },
        .dialed 10200000000,
        .failed
          { cause := .lost { id := 2, endpoint := 0 } .session, moved := false
            now := 10000000000, retry := 10200000000 },
        .started { id := 2, endpoint := 0 }, .connected 0, .dialed 0] := by
    decide
  obtain ⟨world, isWorld, isHistory⟩ := Option.map_eq_some_iff.mp reached
  have lawful := law _ _ world isWorld
  rw [isHistory] at lawful
  obtain ⟨start, isStart, waited⟩ := lawful.1.1 rfl
  cases isStart
  simp [since] at waited

end Dialer

end Comet
