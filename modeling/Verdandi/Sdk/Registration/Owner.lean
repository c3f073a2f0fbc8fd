import Verdandi.Sdk.Registration.Leases

/-! The owner of one registration: a mailbox in which updates are merged, and a worker that turns what
it takes from there into calls of the scripts. A call can be lost on its way, run late, or lose its
reply.
-/

namespace Sdk.Registration

open Support
open Support.Redis (Text)
open Support.Redis.Database (setAll)
open Sdk.Catalog (Time)

-- Replies

structure RegistrationReply where
  revision : Nat := 0
  timestamp : Nat := 0
  deriving DecidableEq, Repr

def replyMalformed (number : Option Nat) : Bool :=
  number.any fun value => decide (value = 0 ∨ maxSafeInteger < value)

def Status.code : Status → Code
  | .corrupt => .corrupt
  | .stale => .stale
  | .invalid => .invalid
  | .missing => .missing
  | .transition => .transition

def parseRegistrationReply : Reply → Except Failure RegistrationReply
  | .ok revision timestamp =>
      if replyMalformed revision then
        .error { code := .corrupt, field := ascii "@revision" }
      else if replyMalformed timestamp then
        .error { code := .corrupt, field := ascii "@timestamp" }
      else
        .ok { revision := revision.getD 0, timestamp := timestamp.getD 0 }
  | .error status field revision =>
      if replyMalformed revision then
        .error { code := .corrupt, field := ascii "@revision" }
      else
        .error { code := status.code, field := field.getD [], revision := revision.getD 0 }

def validateRegistrationSuccess (result : RegistrationReply) (revision : Nat) : Option Failure :=
  if result.revision ≠ revision ∨ result.timestamp = 0 then
    some { code := .corrupt, field := ascii "reply", revision := result.revision }
  else
    none

def uncertainRegistrationOutcome (failure : Failure) : Bool :=
  failure.code = .ambiguous || failure.code = .corrupt

-- The worker

structure RegistrationState where
  revision : Nat
  timestamp : Nat := 0
  ttl : Nat
  version : Nat
  attr : Assoc Text Text
  data : Assoc Text Text
  uncertain : Bool := false
  healthy : Bool := false

def RegistrationState.content (state : RegistrationState) : Content where
  version := state.version
  attr := state.attr
  data := state.data

structure Update where
  version : Option Nat := none
  data : Assoc Text Text := ∅

/-- Work that is taken from the mailbox, with the callers that wait for it. -/
structure Batch where
  update : Update := {}
  updates : List Nat := []
  renews : List Nat := []

/-- What the worker does until it waits for work again. A call goes on with its result. -/
inductive Program where
  | done
  | finish
  | ready (next : Program)
  | assign (state : RegistrationState) (next : Program)
  | call (request : Request) (next : Except Failure RegistrationReply → Program)
  | reportUpdates (result : Option Failure) (next : Program)
  | reportRenews (result : Option Failure) (next : Program)

def succeeded (result : Except Failure RegistrationReply) (revision : Nat)
    : Except Failure RegistrationReply :=
  match result with
  | .error failure => .error failure
  | .ok reply =>
      match validateRegistrationSuccess reply revision with
      | some failure => .error failure
      | none => .ok reply

def needsRegister (result : Except Failure RegistrationReply) : Bool :=
  match result with
  | .error failure => failure.code = .missing || failure.code = .transition
  | .ok _ => false

def changedFields (state : RegistrationState) (update : Update) : Assoc Text Text :=
  update.data.filter fun name value => decide (state.data.get? name ≠ some value)

/-- The end of an update: the next state is taken over if it was written, or may have been. -/
def settleUpdate (state : RegistrationState) (content : Content)
    (next : RegistrationState → Option Failure → Program)
    (result : Except Failure RegistrationReply)
    : Program :=
  let nextRevision := state.revision + 1
  match succeeded result nextRevision with
  | .ok reply =>
      let written := {
        state with
        revision := nextRevision
        timestamp := reply.timestamp
        version := content.version
        data := content.data
        uncertain := false
        healthy := true }
      .assign written (next written none)
  | .error failure =>
      if uncertainRegistrationOutcome failure then
        let expected := {
          state with
          revision := nextRevision
          version := content.version
          data := content.data
          uncertain := true
          healthy := false }
        .assign expected (next expected (some failure))
      else
        next state (some failure)

def updateState (uuid : Text) (limits : ZoneConfig) (state : RegistrationState) (update : Update)
    (next : RegistrationState → Option Failure → Program)
    : Program :=
  let version := update.version.getD state.version
  if update.version.isSome ∧ (version = 0 ∨ maxSafeInteger < version) then
    next state (some { code := .invalid, field := ascii "@version" })
  else
    match update.data.toPairs.find? fun field => (state.data.get? field.1).isNone with
    | some field => next state (some { code := .contract, field := field.1 })
    | none =>
        let changed := changedFields state update
        if version = state.version ∧ changed.size = 0 then
          next state none
        else if maxSafeInteger ≤ state.revision then
          next state
            (some { code := .capacity, field := ascii "@revision", revision := state.revision })
        else
          let nextRevision := state.revision + 1
          let content : Content :=
            { version, attr := state.attr, data := setAll state.data changed.toPairs }
          match validateRecord uuid nextRevision state.ttl content limits with
          | some failure => next state (some failure)
          | none =>
              let register : Program :=
                .call (.register nextRevision state.ttl content) (settleUpdate state content next)
              if state.uncertain then
                register
              else
                .call
                  (.update nextRevision (if version = state.version then none else some version)
                    changed)
                  fun result =>
                    if needsRegister result then register
                    else settleUpdate state content next result

def settleRenew (state : RegistrationState) (next : RegistrationState → Option Failure → Program)
    (result : Except Failure RegistrationReply)
    : Program :=
  match succeeded result state.revision with
  | .ok reply =>
      let renewed :=
        { state with timestamp := reply.timestamp, uncertain := false, healthy := true }
      .assign renewed (next renewed none)
  | .error failure =>
      if uncertainRegistrationOutcome failure then
        let doubtful := { state with uncertain := true, healthy := false }
        .assign doubtful (next doubtful (some failure))
      else
        next state (some failure)

def renewState (state : RegistrationState) (next : RegistrationState → Option Failure → Program)
    : Program :=
  let register : Program :=
    .call (.register state.revision state.ttl state.content) (settleRenew state next)
  if state.uncertain then
    register
  else
    .call (.renew state.revision) fun result =>
      if needsRegister result then register else settleRenew state next result

/-- The renewals of a batch, unless its update has refreshed the lease. -/
def handleRenews (state : RegistrationState) (batch : Batch) (wrote : Bool) : Program :=
  if batch.renews = [] then
    .done
  else if wrote then
    .reportRenews none .done
  else
    renewState state fun _ failure => .reportRenews failure .done

def handleBatch (uuid : Text) (limits : ZoneConfig) (state : RegistrationState) (batch : Batch)
    : Program :=
  if batch.updates = [] then
    handleRenews state batch false
  else
    updateState uuid limits state batch.update fun next failure =>
      .reportUpdates failure
        (handleRenews next batch (failure.isNone && decide (next.revision ≠ state.revision)))

/-- The renewal by the timer; its failure goes to the diagnostics. -/
def automaticRenew (state : RegistrationState) : Program := renewState state fun _ _ => .done

def finishState (state : RegistrationState) : Program :=
  if state.healthy = false ∨ state.uncertain then
    .finish
  else
    .call .unregister fun _ => .finish

def start (state : RegistrationState) : Program :=
  .call (.register state.revision state.ttl state.content) fun result =>
    match succeeded result state.revision with
    | .error _ => .call .unregister fun _ => .finish
    | .ok reply =>
        .assign { state with timestamp := reply.timestamp, healthy := true } (.ready .done)

-- The mailbox

def Update.merge (pending update : Update) : Update where
  version := update.version.or pending.version
  data := setAll pending.data update.data.toPairs

def validateBufferedUpdate (limits : ZoneConfig) (dataShape : Assoc Text Text) (update : Update)
    : Option Failure :=
  if update.version.any fun version => decide (version = 0 ∨ maxSafeInteger < version) then
    some { code := .invalid, field := ascii "@version" }
  else
    update.data.toPairs.findSome? fun field =>
      if (dataShape.get? field.1).isNone then
        some { code := .contract, field := field.1 }
      else
        validateApplicationField field.1 field.2 limits.fieldNameMaxBytes limits.dataValueMaxBytes

-- The owner, the network and Redis

inductive Phase where
  | idle
  | busy (batch : Batch) (request : Request)
      (next : Except Failure RegistrationReply → Program) (sent : Option Nat)
  | finished

structure Sent where
  call : Nat
  revision : Nat
  content : Content

/-- A caller that was let into the mailbox, with the update it brought if it is not a renewal. -/
structure Admission where
  caller : Nat
  update : Option Update

structure Link where
  uuid : Text
  store : Store := {}
  /-- Calls that have been sent and have not run, with their numbers. -/
  flight : List (Nat × Request) := []
  replies : List (Nat × Reply) := []
  calls : Nat := 0
  /-- All contents that were ever sent. -/
  sent : List Sent := []
  /-- All records that were ever written. -/
  stored : List (Assoc Text Text) := []

structure Mailbox where
  /-- Nobody is let in any more. -/
  closed : Bool := false
  closing : Bool := false
  pendingUpdate : Update := {}
  pendingUpdates : List Nat := []
  pendingRenews : List Nat := []
  wake : Bool := false
  /-- Callers that have left something and have not yet woken the worker. -/
  signals : Nat := 0
  /-- All who were ever let in. -/
  admitted : List Admission := []

structure World where
  link : Link
  mailbox : Mailbox := {}
  phase : Phase
  state : RegistrationState
  /-- All states that the worker was ever in. -/
  held : List RegistrationState := []
  dataShape : Assoc Text Text
  opened : Bool := false
  /-- The worker only empties the mailbox. -/
  draining : Bool := false
  results : List (Nat × Option Failure) := []
  /-- All updates that were ever answered. -/
  reported : List (Batch × Option Failure) := []

inductive Label where
  | update (caller : Nat) (update : Update) (limits : ZoneConfig)
  | renew (caller : Nat)
  | signal
  | close
  | wake (limits : ZoneConfig)
  | timer
  | drain
  | leave (limits : ZoneConfig)
  | shutdown
  | send
  | unsent (failure : Failure)
  | answer
  | lose
  | execute (call : Nat) (now : Time)
  | drop (call : Nat)
  | pass (now : Nat)

def Request.content (request : Request) (state : RegistrationState) : Option (Nat × Content) :=
  match request with
  | .register revision _ content => some (revision, content)
  | .update revision version data => some (revision, {
      version := version.getD state.version
      attr := state.attr
      data := setAll state.data data.toPairs })
  | .renew _ | .unregister => none

namespace Link

def send (link : Link) (request : Request) (state : RegistrationState) : Link :=
  {
    link with
    flight := link.flight ++ [(link.calls, request)]
    calls := link.calls + 1
    sent := link.sent ++ ((request.content state).map fun content =>
      { call := link.calls, revision := content.1, content := content.2 }).toList }

def drop (link : Link) (call : Nat) : Link :=
  { link with flight := link.flight.filter fun other => other.1 ≠ call }

def execute (link : Link) (call : Nat) (request : Request) (now : Time) : Link :=
  let outcome := request.run (link.store.expire now.milliseconds) now link.uuid
  {
    link.drop call with
    store := outcome.store
    replies := link.replies ++ [(call, outcome.reply)]
    stored := link.stored
      ++ (if outcome.event.isSome then
          ((outcome.store.records.get? link.uuid).map Leased.value).toList
        else []) }

end Link

namespace Mailbox

def takeBatch (mailbox : Mailbox) : Batch where
  update := mailbox.pendingUpdate
  updates := mailbox.pendingUpdates
  renews := mailbox.pendingRenews

def emptied (mailbox : Mailbox) : Mailbox :=
  { mailbox with pendingUpdate := {}, pendingUpdates := [], pendingRenews := [] }

def waiting (mailbox : Mailbox) : Bool :=
  mailbox.pendingUpdates ≠ [] || mailbox.pendingRenews ≠ []

def update (mailbox : Mailbox) (caller : Nat) (update : Update) : Mailbox :=
  {
    mailbox with
    pendingUpdate := mailbox.pendingUpdate.merge update
    pendingUpdates := mailbox.pendingUpdates ++ [caller]
    signals := mailbox.signals + 1
    admitted := mailbox.admitted ++ [{ caller, update := some update }] }

def renew (mailbox : Mailbox) (caller : Nat) : Mailbox :=
  {
    mailbox with
    pendingRenews := mailbox.pendingRenews ++ [caller]
    signals := mailbox.signals + 1
    admitted := mailbox.admitted ++ [{ caller, update := none }] }

def signal (mailbox : Mailbox) : Mailbox :=
  if mailbox.signals = 0 then mailbox
  else { mailbox with signals := mailbox.signals - 1, wake := true }

end Mailbox

namespace World

def proceed (world : World) (batch : Batch) : Program → World
  | .done => { world with phase := .idle }
  | .finish => { world with phase := .finished }
  | .ready next => proceed { world with opened := true } batch next
  | .assign state next => proceed { world with state, held := world.held ++ [state] } batch next
  | .call request next => { world with phase := .busy batch request next none }
  | .reportUpdates result next =>
      proceed {
        world with
        results := world.results ++ batch.updates.map fun caller => (caller, result)
        reported := world.reported ++ [(batch, result)] } batch next
  | .reportRenews result next =>
      proceed {
        world with
        results := world.results ++ batch.renews.map fun caller => (caller, result) } batch next

/-- Nobody is let in who is known already, before the first registration or after the last. -/
def admits (world : World) (caller : Nat) : Bool :=
  world.opened && !world.mailbox.closed
    && decide (caller ∉ world.mailbox.admitted.map Admission.caller)

def handle (world : World) (limits : ZoneConfig) : World :=
  let batch := world.mailbox.takeBatch
  proceed { world with mailbox := world.mailbox.emptied } batch
    (handleBatch world.link.uuid limits world.state batch)

def finish (world : World) : World :=
  proceed { world with mailbox := { world.mailbox with closed := true } } {}
    (finishState world.state)

def shutdown (world : World) : World :=
  let failure : Option Failure := some { code := .closed }
  let batch := world.mailbox.takeBatch
  finish {
    world with
    mailbox := world.mailbox.emptied
    results := world.results ++ (batch.updates ++ batch.renews).map fun caller => (caller, failure)
    reported := world.reported ++ [(batch, failure)] }

def step (world : World) (label : Label) : World :=
  match label with
  | .update caller update limits =>
      if world.admits caller ∧ validateBufferedUpdate limits world.dataShape update = none then
        { world with mailbox := world.mailbox.update caller update }
      else world
  | .renew caller =>
      if world.admits caller then { world with mailbox := world.mailbox.renew caller } else world
  | .signal => { world with mailbox := world.mailbox.signal }
  | .close => { world with mailbox := { world.mailbox with closed := true, closing := true } }
  | .wake limits =>
      match world.phase with
      | .idle =>
          if world.draining ∨ world.mailbox.wake = false then world
          else
            let woken := { world with mailbox := { world.mailbox with wake := false } }
            if world.mailbox.waiting then woken.handle limits else woken
      | _ => world
  | .timer =>
      match world.phase with
      | .idle => if world.draining then world else world.proceed {} (automaticRenew world.state)
      | _ => world
  | .drain =>
      match world.phase with
      | .idle => if world.mailbox.closing then { world with draining := true } else world
      | _ => world
  | .leave limits =>
      match world.phase with
      | .idle =>
          if world.draining = false then world
          else if world.mailbox.waiting then world.handle limits
          else world.finish
      | _ => world
  | .shutdown =>
      match world.phase with
      | .idle => if world.draining then world else world.shutdown
      | _ => world
  | .send =>
      match world.phase with
      | .busy batch request next none => {
          world with
          link := world.link.send request world.state
          phase := .busy batch request next (some world.link.calls) }
      | _ => world
  | .unsent failure =>
      match world.phase with
      | .busy batch _ next none =>
          if failure.code = .closed ∨ failure.code = .deadline ∨ failure.code = .unavailable then
            world.proceed batch (next (.error failure))
          else world
      | _ => world
  | .answer =>
      match world.phase with
      | .busy batch _ next (some call) =>
          match world.link.replies.find? fun reply => reply.1 = call with
          | some reply => world.proceed batch (next (parseRegistrationReply reply.2))
          | none => world
      | _ => world
  | .lose =>
      match world.phase with
      | .busy batch _ next (some _) =>
          world.proceed batch (next (.error { code := .ambiguous }))
      | _ => world
  | .execute call now =>
      match world.link.flight.find? fun other => other.1 = call with
      | some (_, request) => { world with link := world.link.execute call request now }
      | none => world
  | .drop call => { world with link := world.link.drop call }
  | .pass now =>
      { world with link := { world.link with store := world.link.store.expire now } }

def run (world : World) (labels : List Label) : World := labels.foldl step world

end World

def registerWithUUID (uuid : Text) (ttl : Nat) (content : Content) : World :=
  let state : RegistrationState :=
    { revision := 1, ttl, version := content.version, attr := content.attr, data := content.data }
  World.proceed
    { link := { uuid }, state, held := [state], dataShape := content.data, phase := .idle } {}
    (start state)

end Sdk.Registration
