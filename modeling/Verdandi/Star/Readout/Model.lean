import Verdandi.Star.AlmanacTimeline
import Verdandi.Star.Watch.Service
import Verdandi.Support.Run

/-! The Almanac downlink over the routing table. A commit is readable before it is announced;
both happen under the writer lock, so at most one commit is not announced at any time.
-/

namespace Astra.Readout

open Support Proto Watch

inductive Stage where
  | locating
  | checking
  | replaying
  | reading
  deriving DecidableEq, Repr

def kind : Kind Almanac.Change Edition where
  label := "Almanac"
  name := Almanac.Change.key
  version := Almanac.Change.version
  bytes := Almanac.Change.bytes
  merge _ new := new
  through := Edition.version
  complete := Edition.complete
  weight := Edition.bytes

abbrev Stream := Watch.Stream Almanac.Change Edition Stage AlmanacWatchReply

abbrev Hub := Watch.Hub Almanac.Change Edition Stage AlmanacWatchReply

def admits (request : Request) : Bool :=
  Scope.text request.scope.sector 128 && Scope.text request.scope.spectrum 128
    && !request.scope.internal
    && (request.target.isEmpty || Scope.text request.target 1024)
    && !(request.version.isSome && request.instance.isEmpty)
    && (request.instance.isEmpty || Scope.text request.instance 128)

/-- `Watch`: reject the call or register a stream for it. -/
def watch (limits : Limits) (hub : Hub) (id : Nat) (request : Request) (permit : Except Finish Unit)
    : Except Finish Hub :=
  match permit with
  | .error status => .error status
  | .ok () =>
      if admits request then
        hub.register kind limits id request
      else
        .error
          { code := .invalidArgument
            reason := .input
            message := "Invalid Almanac watch request" }

-- The first batch

inductive Outcome where
  | next (stage : Stage)
  | captured (edition : Edition) (since : Option Nat)
  | failed (status : Finish)

def behind (version : Option Nat) : Finish where
  code := .unavailable
  reason := .version
  message := "Almanac authority version is behind"
  version := version

def unavailable : Finish where
  code := .unavailable
  reason := .busy
  message := "Almanac baseline is unavailable"

/-- The steps of `initial`. Without a book nothing is read any more and the batch is empty. A
book that was found stays, so a later read without one does not happen. `capacity` is that of
the vector that holds the replay.
-/
def initial (library : Library) (own : Bytes) (stream : Stream) (capacity : Nat) (stage : Stage)
    : Option Outcome :=
  match stage, library.books.get? stream.scope with
  | .locating, none =>
      if stream.requested.any (0 < ·) then
        some (.failed (behind (some 0)))
      else
        some (.captured {} none)
  | .locating, some _ => some (.next .checking)
  | .checking, some book =>
      match book.almanac.usage.version with
      | none => some (.failed (behind none))
      | some version =>
          if stream.requested.any (version < ·) then
            some (.failed (behind (some version)))
          else
            some (.next .replaying)
  | .replaying, some book =>
      match stream.requested.filter fun _ => stream.instance = own with
      | none => some (.next .reading)
      | some since =>
          match book.almanac.replay since with
          | .error _ => some (.next .reading)
          | .ok (version, changes) =>
              some (.captured (Edition.ofReplay version changes stream.target capacity)
                (some since))
  | .reading, some book =>
      if stream.target ≠ [] then
        match book.almanac.find stream.target with
        | .error _ => some (.failed unavailable)
        | .ok (version, value) =>
            some (.captured (Edition.ofPoint stream.target version value) none)
      else
        match book.almanac.view with
        | .error _ => some (.failed unavailable)
        | .ok view => some (.captured (Edition.ofView view) none)
  | _, none => none

-- Rounds

/-- The identity of this Star, the budgets, and the wire size of a message. -/
structure Config where
  own : Bytes
  limits : Limits := {}
  size : AlmanacWatchReply → Nat

/-- What a phase finds outside the downlink: whether the stream waits in the ready queue, the
answer of the login gate, and the capacity of a vector of changes.
-/
structure Input where
  queued : Bool := false
  permit : Except Finish Unit := .ok ()
  capacity : Nat := 0

def replayed (stream : Stream) (pending : Assoc Bytes Almanac.Change) (version capacity : Nat)
    : Edition :=
  Edition.ofReplay version
    ((pending.toPairs.map Prod.snd).filter (stream.cursor < ·.version)) stream.target capacity

/-- One phase of `advance` for the stream `id`. -/
def advance (config : Config) (library : Library) (hub : Hub) (id : Nat) (input : Input)
    : Option Hub :=
  match hub.streams.get? id with
  | none => none
  | some stream =>
      match stream.phase, hub.groups.get? stream.scope with
      | .idle, _ => some (hub.enter kind .locating id stream input.queued input.permit)
      | .capturing stage, _ =>
          (initial library config.own stream input.capacity stage).map fun
            | .next stage => hub.update id ({ stream with phase := .capturing stage }, hub.bytes)
            | .captured edition since => hub.update id (stream.captured edition since, hub.bytes)
            | .failed status => hub.update id (stream.finish status, hub.bytes)
      | .pruning, _ => some (hub.update id (stream.prune kind config.limits hub.bytes))
      | .selecting, some group => some (hub.update id (stream.select kind group, hub.bytes))
      | .building pending version, _ =>
          some (hub.update id
            (stream.built (replayed stream pending version input.capacity), hub.bytes))
      | .charging, _ => some (hub.update id (stream.recharge kind config.limits hub.bytes))
      | .encoding, _ =>
          stream.edition.map fun edition =>
            match edition.next config.own, input.permit with
            | .error _, _ =>
                hub.update id
                  (stream.finish
                    { code := .resourceExhausted
                      reason := .busy
                      message := "Almanac page preparation failed" },
                    hub.bytes)
            | .ok (after, page), .error status =>
                hub.update id ((stream.paged after page).finish status, hub.bytes)
            | .ok (after, page), .ok () => hub.update id (stream.paged after page, hub.bytes)
      | .accepting page, some group =>
          some (hub.update id
            (stream.accept kind config.limits group hub.stopped page (config.size page) hub.bytes))
      | _, none => none

-- The system

/-- The routing table with the candidates that are being filled, the commit that is readable
but not announced yet, and the downlink. `timeline` is not in the source and no step reads it:
it lists the commits of every Scope, newest first.
-/
structure World where
  library : Library
  drafts : List Library.Draft := []
  announcing : Option (Scope × Almanac.Change) := none
  hub : Hub := {}
  timeline : Scope → List (Commit Bytes Bytes) := fun _ => []

def World.commit (world : World) (library : Library) (scope : Scope) (change : Almanac.Change)
    : World :=
  { world with
    library
    announcing := some (scope, change)
    timeline :=
      match library.installed scope with
      | none => world.timeline
      | some state =>
          Function.update world.timeline scope
            (Almanac.commitOf change state :: world.timeline scope) }

def World.callback (world : World) (id : Nat) (change : Stream → Option Stream) : Option World :=
  match world.hub.streams.get? id with
  | none => none
  | some stream =>
      match stream.phase with
      | .idle =>
          (change stream).map fun next =>
            { world with hub := world.hub.update id (next, world.hub.bytes) }
      | _ => none

inductive Action where
  | prepare (scope : Scope) (version : Nat)
  | set (draft : Nat) (key value : Bytes)
  | reset (draft : Nat)
  | apply (scope : Scope) (version : Nat) (key : Bytes) (value : Option Bytes)
  | announce
  | watch (id : Nat) (request : Request) (permit : Except Finish Unit)
  | written (id : Nat) (ok : Bool)
  | cancel (id : Nat)
  | done (id : Nat)
  | stop
  | advance (id : Nat) (input : Input)

/-- One step of the system; `none` where it cannot happen. Operations of the routing table
wait for the writer lock, which is held until the last commit is announced. A refused
operation or call changes nothing.
-/
def step (config : Config) (world : World) : Action → Option World
  | .prepare scope version =>
      match world.library.prepare scope version with
      | .error _ => some world
      | .ok (library, draft) =>
          some { world with library, drafts := world.drafts ++ [draft] }
  | .set index key value =>
      (world.drafts[index]?).map fun draft =>
        match draft.set key value with
        | .error _ => world
        | .ok next => { world with drafts := world.drafts.set index next }
  | .reset index =>
      if world.announcing.isSome then
        none
      else
        (world.drafts[index]?).map fun draft =>
          match world.library.reset draft with
          | .error _ | .ok none => world
          | .ok (some (library, change)) => world.commit library draft.scope change
  | .apply scope version key value =>
      if world.announcing.isSome then
        none
      else
        match world.library.apply scope version key value with
        | .error _ | .ok none => some world
        | .ok (some (library, change)) => some (world.commit library scope change)
  | .announce =>
      world.announcing.map fun (scope, change) =>
        { world with
          announcing := none
          hub := world.hub.changed kind config.limits scope change }
  | .watch id request permit =>
      if world.hub.streams.contains id then
        none
      else
        match Readout.watch config.limits world.hub id request permit with
        | .error _ => some world
        | .ok hub => some { world with hub }
  | .written id ok =>
      world.callback id fun stream =>
        if stream.writing then some (stream.onWriteDone ok) else none
  | .cancel id => world.callback id fun stream => some stream.onCancel
  | .done id => world.callback id fun stream => some stream.onDone
  | .stop => some { world with hub := { world.hub with stopped := true } }
  | .advance id input =>
      (advance config world.library world.hub id input).map fun hub => { world with hub }

end Astra.Readout
