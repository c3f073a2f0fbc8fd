import Verdandi.Comet.Installer
import Verdandi.Support.Run

/-! One watched view of a client: a control round starts the only RPC, takes the pages that its
callbacks have left, and cancels it; `OnReadDone`, `OnDone` and `close` come in between. A
round gives up its lock while the observer runs, so it is two steps here.
-/

namespace Comet

open Astra Support Proto

inductive Error where
  | input
  | session
  | closed
  | version
  | conflict
  | ended
  | obsolete
  | history
  | limit
  | busy
  | «instance»
  | clock
  | timeout
  | transport
  | protocol
  | internal
  deriving DecidableEq, Repr

def Code.error : Code → Error
  | .history => .history
  | .limit => .limit
  | .protocol => .protocol

inductive StatusCode where
  | cancelled
  | unauthenticated
  | invalidArgument
  | resourceExhausted
  | deadlineExceeded
  | other
  deriving DecidableEq, Repr

/-- The reasons of a `Failure` in the trailing metadata that `Core::failure` knows. -/
inductive Reason where
  | denied
  | input
  | session
  | version
  | ended
  | obsolete
  | history
  | limit
  | busy
  | «instance»
  | clock
  deriving DecidableEq, Repr

/-- `Core::failure`: a known reason counts more than the status. -/
def failure (status : StatusCode) : Option Reason → Error
  | some .denied => .input
  | some .input => .input
  | some .session => .session
  | some .version => .version
  | some .ended => .ended
  | some .obsolete => .obsolete
  | some .history => .history
  | some .limit => .limit
  | some .busy => .busy
  | some .instance => .instance
  | some .clock => .clock
  | none =>
      match status with
      | .unauthenticated => .session
      | .invalidArgument => .input
      | .resourceExhausted => .busy
      | .deadlineExceeded => .timeout
      | .cancelled => .transport
      | .other => .transport

/-- A target that the Core has logged in to. Bindings are compared by identity, which is `id`.
-/
structure Binding where
  id : Nat
  «instance» : Bytes
  session : Bytes
  deriving DecidableEq, Repr

structure Sending (Change : Type) where
  mode : Mode
  version : Nat
  «instance» : Bytes
  changes : List Change
  pages : List (WatchReply Change)
  batched : Batched mode version «instance» changes pages

namespace Watching

inductive State where
  | waiting
  | ready
  | stale
  | failed
  | closed
  deriving DecidableEq, Repr

/-- What `load` returns: the last complete installation, and the local state. -/
structure View (Record : Type) where
  contents : Option (Contents Record) := none
  state : State := .waiting
  error : Option Error := none

/-- Who owns the page buffer: the read under way, the control round, or nobody. -/
inductive Stage (Change : Type) where
  | reading
  | ready (page : WatchReply Change)
  | consumed
  | ended
  | overflow

/-- One RPC. `batches` is everything its server sends, of which `coming` has not arrived yet.
-/
structure Stream (Change : Type) where
  request : Option (Bytes × Nat)
  batches : List (Sending Change)
  coming : List (WatchReply Change)
  stage : Stage Change := .reading
  deadline : Option Nat
  timed : Bool := false
  repair : Bool := false
  recovered : Bool := false
  held : Bool := true
  done : Bool := false
  status : StatusCode := .other
  reason : Option Reason := none

/-- Cancel the call, which gives back the hold: `OnDone` may come. A read that has been started
may still end with a page.
-/
def Stream.cancel {Change : Type} (stream : Stream Change) : Stream Change :=
  { stream with held := false }

/-- What the shared Core contributes: the progress timeout and the backoff. -/
structure Core where
  timeout : Nat
  delay : Nat → Nat
  observed : Bool

/-- What a control round is called with, and what the Core answers during it. -/
structure Round (Record : Type) where
  now : Nat
  binding : Option Binding
  error : Option Error := none
  closing : Bool := false
  room : Room Record
  thrown : Bool := false
  notify : Bool := true

/-- What the Core answers after the observer has returned; `batches` is what the server of a
new stream sends.
-/
structure Rest (Change : Type) where
  clock : Nat
  stopped : Bool := false
  claimed : Bool := true
  batches : List (Sending Change)

end Watching

open Watching

/-- `Watching`: the state of one view. `phase` holds the time and the binding of a control
round that waits for the observer.
-/
structure Watching (Change Record : Type) where
  projection : Option (Installer Record)
  view : View Record := {}
  stream : Option (Stream Change) := none
  binding : Option Binding := none
  closed : Bool := false
  cleaned : Bool := false
  finished : Bool := false
  failed : Bool := false
  notifying : Bool := false
  dirty : Bool := false
  failures : Nat := 0
  retry : Nat := 0
  phase : Option (Nat × Option Binding) := none

namespace Watching

variable {Change Record : Type}

def create (target : Bytes) (bytes records : Nat) : Watching Change Record where
  projection := some { target, bytes, records }

/-- Show the installed content in a state, and note whether the state is news. -/
def publish (watching : Watching Change Record) (state : State) (error : Option Error)
    : Watching Change Record :=
  match watching.projection with
  | none => watching
  | some projection =>
      { watching with
        view := { contents := projection.current, state, error }
        dirty := watching.dirty || watching.view.state != state || watching.view.error != error }

def idle (watching : Watching Change Record) : State :=
  if watching.view.contents.isSome then .stale else .waiting

def discard (watching : Watching Change Record) : Watching Change Record :=
  { watching with projection := watching.projection.map Installer.discard }

def cancel (watching : Watching Change Record) : Watching Change Record :=
  { watching with stream := watching.stream.map Stream.cancel }

-- The first half of a control round

def clean (watching : Watching Change Record) (closing : Bool) : Watching Change Record :=
  if (watching.closed || closing) && !watching.cleaned then
    { watching.cancel with
      closed := true
      cleaned := true
      view := { watching.view with state := .closed, error := none }
      dirty := false
      projection := none }
  else
    { watching with closed := watching.closed || closing }

/-- A stream of another target is given up; a view without a target says so. -/
def rebind (watching : Watching Change Record) (round : Round Record) : Watching Change Record :=
  if watching.closed then
    watching
  else if watching.stream.isSome then
    if watching.binding = round.binding then
      watching
    else
      watching.discard.cancel.publish watching.idle round.error
  else if round.binding.isNone && !watching.failed then
    watching.publish (if round.error.isSome then .failed else watching.idle) round.error
  else
    watching

/-- What the end of a stream means. Cancelled by the server and not by a timeout, a stream of a
session tells that the session was revoked.
-/
def Stream.outcome (stream : Stream Change) (binding : Option Binding) : Error :=
  let error := failure stream.status stream.reason
  if error = .transport ∧ stream.status = .cancelled ∧ stream.timed = false
      ∧ binding.any (!·.session.isEmpty) = true then
    .session
  else
    error

def permanent (error : Error) : Bool :=
  error == .input || error == .limit || error == .protocol

def report (core : Core) (watching : Watching Change Record) (now : Nat) (error : Error)
    : Watching Change Record :=
  { watching.discard with
    failed := permanent error
    failures := min (watching.failures + 1) 32
    retry := now + core.delay (min (watching.failures + 1) 32) }.publish
      (if permanent error then .failed else watching.idle) (some error)

/-- The RPC is over. A failure of the current target is reported. -/
def conclude (core : Core) (watching : Watching Change Record) (round : Round Record)
    (stream : Stream Change)
    : Watching Change Record :=
  let gone := { watching with stream := none }
  if watching.closed || watching.binding != round.binding || watching.failed
      || stream.repair then
    gone
  else
    gone.report core round.now (stream.outcome watching.binding)

def expire (watching : Watching Change Record) (stream : Stream Change)
    : Watching Change Record :=
  ({ watching with stream := some { stream with timed := true } }.discard.publish watching.idle
    (some .timeout)).cancel

def abandon (watching : Watching Change Record) (error : Error) : Watching Change Record :=
  ({ watching with failed := true }.discard.publish .failed (some error)).cancel

def refuse (core : Core) (policy : Policy Change Record) (watching : Watching Change Record)
    (round : Round Record) (stream : Stream Change) (projection : Installer Record) (code : Code)
    : Watching Change Record :=
  match projection.repair policy code with
  | (repaired, true) =>
      ({ watching with
        projection := some repaired
        stream := some { stream with repair := true }
        failures := watching.failures + 1
        retry := round.now + core.delay (watching.failures + 1) }.publish watching.idle
          (some code.error)).cancel
  | (kept, false) =>
      ({ watching with projection := some kept, stream := some stream, failed := true }.publish
        .failed (some (if code = Code.history then Error.protocol else code.error))).cancel

def consume (core : Core) (policy : Policy Change Record) (watching : Watching Change Record)
    (round : Round Record) (stream : Stream Change) (page : WatchReply Change)
    : Watching Change Record :=
  let stream := { stream with stage := .consumed }
  let watching := { watching with stream := some stream }
  match watching.projection with
  | none => watching
  | some projection =>
      if round.thrown then
        watching.abandon .internal
      else
        match projection.accept policy round.room page with
        | (next, .error code) => watching.refuse core policy round stream next code
        | (next, .ok ()) =>
            if page.complete then
              { watching with
                projection := some next
                stream := some { stream with deadline := none, recovered := true }
                view := { contents := next.current, state := .ready, error := none }
                dirty := true
                failures := 0 }
            else
              { watching with
                projection := some next
                stream := some { stream with deadline := some (round.now + core.timeout) } }

/-- Whether the control round takes the page of this stream, if one is ready. -/
def taking (watching : Watching Change Record) (round : Round Record) : Bool :=
  !watching.closed && watching.binding == round.binding && !watching.failed

def expired (watching : Watching Change Record) (round : Round Record) (stream : Stream Change)
    : Bool :=
  !watching.closed && !stream.timed && stream.deadline.any (· ≤ round.now)

def serve (core : Core) (policy : Policy Change Record) (watching : Watching Change Record)
    (round : Round Record)
    : Watching Change Record :=
  match watching.stream with
  | none => watching
  | some stream =>
      if stream.done then
        watching.conclude core round stream
      else
        match stream.stage with
        | .reading => if watching.expired round stream then watching.expire stream else watching
        | .overflow =>
            if watching.closed || watching.failed then watching else watching.abandon .limit
        | .ended => watching.cancel
        | .ready page =>
            if watching.taking round then watching.consume core policy round stream page
            else watching
        | .consumed => watching

def announce (core : Core) (watching : Watching Change Record) (notify : Bool)
    : Watching Change Record :=
  if watching.dirty && !watching.closed && core.observed && notify then
    { watching with notifying := true, dirty := false }
  else
    watching

/-- `poll` until the observer runs. -/
def front (core : Core) (policy : Policy Change Record) (watching : Watching Change Record)
    (round : Round Record)
    : Watching Change Record :=
  let served := ((watching.clean round.closing).rebind round).serve core policy round
  { served.announce core round.notify with phase := some (round.now, round.binding) }

-- The second half of a control round

/-- Start the next read, if the page before was taken and the call was not cancelled. -/
def read (watching : Watching Change Record) (binding : Option Binding) (stopped : Bool)
    : Watching Change Record :=
  match watching.stream with
  | none => watching
  | some stream =>
      match stream.stage with
      | .consumed =>
          if !watching.closed && !watching.failed && watching.binding == binding && !stopped
              && !stream.done && stream.held then
            { watching with stream := some { stream with stage := .reading } }
          else
            watching
      | _ => watching

/-- `start`: the request resumes from the installed content, if it may. -/
def start (core : Core) (watching : Watching Change Record) (binding : Binding) (rest : Rest Change)
    : Watching Change Record :=
  match watching.projection with
  | none => watching
  | some projection =>
      let request := (watching.view.contents.filter fun _ => projection.resume).map fun held =>
        (held.instance, held.version)
      let begun := { watching with projection := some (projection.begin binding.instance) }
      if rest.claimed then
        { begun with
          binding := some binding
          stream := some
            { request
              batches := rest.batches
              coming := rest.batches.flatMap Sending.pages
              deadline := some (rest.clock + core.timeout) } }
      else
        { begun with retry := rest.clock + 100 * 1000 * 1000 }

def connect (core : Core) (watching : Watching Change Record) (now : Nat)
    (binding : Option Binding) (rest : Rest Change)
    : Watching Change Record :=
  match watching.stream, binding with
  | none, some target =>
      if !watching.closed && !watching.failed && watching.retry ≤ now && !rest.stopped then
        watching.start core target rest
      else
        watching
  | _, _ => watching

/-- `poll` after the observer has returned. -/
def back (core : Core) (watching : Watching Change Record) (now : Nat)
    (binding : Option Binding) (rest : Rest Change)
    : Watching Change Record :=
  let returned :=
    { watching with
      notifying := false
      dirty := watching.dirty && core.observed
      phase := none }
  let started := (returned.read binding rest.stopped).connect core now binding rest
  { started with finished := started.finished || (started.cleaned && started.stream.isNone) }

-- Steps

/-- What may happen to a view. `arrive` and `eof` are `OnReadDone`; `fits` says whether the
decoded page is within the budget of the Core.
-/
inductive Action (Change Record : Type) where
  | arrive (fits : Bool)
  | eof
  | done (status : StatusCode) (reason : Option Reason)
  | close
  | front (round : Round Record)
  | back (rest : Rest Change)

/-- One step. A read ends only if it was started, and `OnDone` comes last: after the hold was
given back and the read has ended.
-/
def step (core : Core) (policy : Policy Change Record) (watching : Watching Change Record)
    : Action Change Record → Option (Watching Change Record)
  | .arrive fits =>
      match watching.stream with
      | some stream =>
          match stream.stage, stream.coming with
          | .reading, page :: coming =>
              let stage := if fits then .ready page else .overflow
              some { watching with stream := some { stream with stage, coming } }
          | _, _ => none
      | none => none
  | .eof =>
      match watching.stream with
      | some stream =>
          match stream.stage with
          | .reading => some { watching with stream := some { stream with stage := .ended } }
          | _ => none
      | none => none
  | .done status reason =>
      match watching.stream with
      | some stream =>
          match stream.stage with
          | .reading => none
          | _ =>
              if stream.held || stream.done then none
              else
                some
                  { watching with
                    stream := some { stream with done := true, status, reason } }
      | none => none
  | .close => some { watching with closed := true }
  | .front round =>
      if watching.phase.isSome then none else some (watching.front core policy round)
  | .back rest => watching.phase.map fun (now, binding) => watching.back core now binding rest

end Watching

end Comet
