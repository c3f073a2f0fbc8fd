import Verdandi.Common.Proto
import Verdandi.Star.Progress
import Verdandi.Support.Assoc
import Verdandi.Support.Copy

/-! The part of the public downlink that the Almanac and the dynamic domains share: streams
registered by Scope, the merged suffix each stream collects, and the rounds in which a single
control thread takes a stream from one page to the next.

The ready queue only decides which stream is advanced next, so it is left out: a run may
advance any stream at any time. A round releases the index lock several times; each phase is
what happens between two releases, and commits, other streams and callbacks may come between
phases.
-/

namespace Astra.Watch

open Support Progress

-- Streams

inductive Code where
  | cancelled
  | invalidArgument
  | permissionDenied
  | resourceExhausted
  | failedPrecondition
  | outOfRange
  | unavailable
  | unauthenticated
  deriving DecidableEq, Repr

inductive Reason where
  | input
  | denied
  | session
  | busy
  | version
  | history
  | clock
  deriving DecidableEq, Repr

structure Finish where
  code : Code
  reason : Reason
  message : String
  version : Option Nat := none
  deriving DecidableEq, Repr

structure Limits where
  streams : Nat := 4096
  bytes : Nat := 256 * 1024 * 1024
  pending : Nat := 8 * 1024 * 1024
  deriving DecidableEq, Repr

def exceeds (used cost hard : Nat) : Bool :=
  decide (used > hard ∨ cost > hard - used)

structure Request where
  scope : Scope
  target : Bytes := []
  «instance» : Bytes := []
  version : Option Nat := none
  deriving DecidableEq, Repr

/-- What differs between the services: the word their messages start with, the events they
collect and how two events of one key are merged, and the batches they freeze.
-/
structure Kind (Item Edition : Type) where
  label : String
  name : Item → Option Bytes
  version : Item → Nat
  bytes : Item → Nat
  merge : Item → Item → Item
  through : Edition → Nat
  complete : Edition → Bool
  weight : Edition → Nat

inductive Phase (Item Stage Reply : Type) where
  | idle
  | capturing (stage : Stage)
  | pruning
  | selecting
  | building (pending : Assoc Bytes Item) (version : Nat)
  | charging
  | encoding
  | accepting (page : Reply)

/-- One watch stream. `ended` is the status `Finish` was called with. Two fields are not in
the source and no step reads them: `since` is the version from which the first batch
continues, if it continues one, and `sent` lists the pages handed to gRPC.
-/
structure Stream (Item Edition Stage Reply : Type) where
  scope : Scope
  target : Bytes := []
  «instance» : Bytes := []
  requested : Option Nat := none
  writing : Bool := false
  written : Bool := false
  failed : Bool := false
  ended : Option Finish := none
  done : Bool := false
  edition : Option Edition := none
  started : Bool := false
  cursor : Nat := 0
  held : Nat := 0
  pending : Assoc Bytes Item := ∅
  bytes : Nat := 0
  overflow : Bool := false
  encoded : Nat := 0
  phase : Phase Item Stage Reply := .idle
  since : Option Nat := none
  sent : List (Sent Reply) := []

variable {Item Edition Stage Reply : Type}

namespace Stream

def onWriteDone (stream : Stream Item Edition Stage Reply) (ok : Bool)
    : Stream Item Edition Stage Reply :=
  { stream with writing := false, written := ok, failed := stream.failed || !ok }

def onCancel (stream : Stream Item Edition Stage Reply) : Stream Item Edition Stage Reply :=
  { stream with failed := true }

def onDone (stream : Stream Item Edition Stage Reply) : Stream Item Edition Stage Reply :=
  { stream with done := true }

def finish (stream : Stream Item Edition Stage Reply) (status : Finish)
    : Stream Item Edition Stage Reply :=
  { stream with ended := some status, phase := .idle }

/-- Whether a stream is concerned with a key; the empty target is the whole Scope. -/
def concerns (stream : Stream Item Edition Stage Reply) (key : Bytes) : Bool :=
  stream.target.isEmpty || stream.target == key

/-- The cost of one collected event with its node and its second key. -/
def weigh (kind : Kind Item Edition) (key : Bytes) (item : Item) : Nat :=
  kind.bytes item + key.length + 64

/-- Merge one event into the suffix of a stream, within the budgets of the stream and of the
service. A suffix that cannot take it overflows and the stream will end.
-/
def collect (kind : Kind Item Edition) (limits : Limits) (key : Bytes) (item : Item)
    (stream : Stream Item Edition Stage Reply) (total : Nat)
    : Stream Item Edition Stage Reply × Nat :=
  if stream.overflow then
    (stream, total)
  else
    let cost := weigh kind key item
    let old := stream.pending.get? key
    let previous := old.elim 0 (weigh kind key)
    if previous > stream.bytes ∨ previous > total then
      ({ stream with overflow := true }, total)
    else
      let held := stream.bytes - previous
      let rest := total - previous
      if held > limits.pending ∨ stream.encoded > limits.pending - held
          ∨ cost > limits.pending - held - stream.encoded
          ∨ rest > limits.bytes
          ∨ cost > limits.bytes - rest then
        ({ stream with overflow := true }, total)
      else
        ({ stream with
            pending := stream.pending.set key (old.elim item (kind.merge · item))
            bytes := held + cost },
          rest + cost)

/-- Consume a successful write: the last page of a batch moves the cursor. -/
def consume (kind : Kind Item Edition) (stream : Stream Item Edition Stage Reply) (total : Nat)
    : Stream Item Edition Stage Reply × Nat :=
  if stream.written then
    match stream.edition.filter kind.complete with
    | some edition =>
        ({ stream with
            written := false
            cursor := kind.through edition
            held := 0
            edition := none
            encoded := 0 },
          total - stream.held - stream.encoded)
    | none => ({ stream with written := false, encoded := 0 }, total - stream.encoded)
  else
    (stream, total)

def charge (limits : Limits) (weight : Nat) (stream : Stream Item Edition Stage Reply) (total : Nat)
    : Stream Item Edition Stage Reply × Nat :=
  if weight > limits.bytes ∨ total > limits.bytes - weight then
    ({ stream with overflow := true }, total)
  else
    ({ stream with held := weight }, total + weight)

def baseline (kind : Kind Item Edition) (stream : Stream Item Edition Stage Reply) : Nat :=
  stream.edition.elim stream.cursor kind.through

def captured (stream : Stream Item Edition Stage Reply) (edition : Edition) (since : Option Nat)
    : Stream Item Edition Stage Reply :=
  { stream with edition := some edition, started := true, since, phase := .pruning }

/-- Drop the events that the captured batch has already, and charge the batch. -/
def prune (kind : Kind Item Edition) (limits : Limits)
    (stream : Stream Item Edition Stage Reply) (total : Nat)
    : Stream Item Edition Stage Reply × Nat :=
  let baseline := stream.baseline kind
  let dropped := (stream.pending.filter fun _ item => kind.version item ≤ baseline).toPairs
  let cost := (dropped.map fun entry => weigh kind entry.1 entry.2).sum
  charge limits (stream.edition.elim 0 kind.weight)
    { stream with
      pending := stream.pending.filter fun _ item => baseline < kind.version item
      bytes := stream.bytes - cost
      phase := .selecting }
    (total - cost)

/-- Check continuity; without a batch under way, hand over the suffix for the next one. -/
def select (kind : Kind Item Edition) (group : Group) (stream : Stream Item Edition Stage Reply)
    : Stream Item Edition Stage Reply :=
  if stream.overflow || !group.covers (stream.baseline kind) then
    stream.finish
      { code := .outOfRange
        reason := .history
        message := kind.label ++ " watch requires a new baseline" }
  else if stream.edition.isSome then
    { stream with phase := .encoding }
  else if group.version ≤ stream.cursor then
    { stream with phase := .idle }
  else
    { stream with
      phase := .building stream.pending group.version
      pending := ∅
      held := stream.bytes
      bytes := 0 }

def built (stream : Stream Item Edition Stage Reply) (edition : Edition)
    : Stream Item Edition Stage Reply :=
  { stream with edition := some edition, phase := .charging }

/-- Replace the charge of the suffix by that of the batch made from it. -/
def recharge (kind : Kind Item Edition) (limits : Limits)
    (stream : Stream Item Edition Stage Reply) (total : Nat)
    : Stream Item Edition Stage Reply × Nat :=
  charge limits (stream.edition.elim 0 kind.weight) { stream with held := 0, phase := .encoding }
    (total - stream.held)

/-- Take the next page of the batch, which is then at `after`. -/
def paged (stream : Stream Item Edition Stage Reply) (after : Edition) (page : Reply)
    : Stream Item Edition Stage Reply :=
  { stream with edition := some after, phase := .accepting page }

/-- Hand a page to gRPC, or end the stream if it may not be sent any more. -/
def accept (kind : Kind Item Edition) (limits : Limits) (group : Group) (stopped : Bool)
    (page : Reply) (encoded : Nat) (stream : Stream Item Edition Stage Reply) (total : Nat)
    : Stream Item Edition Stage Reply × Nat :=
  if stream.overflow || stopped || !group.covers (stream.baseline kind)
      || exceeds total encoded limits.bytes || exceeds stream.bytes encoded limits.pending then
    (stream.finish
      { code := .resourceExhausted
        reason := .busy
        message := kind.label ++ " send budget unavailable" },
      total)
  else
    ({ stream with
        encoded
        writing := true
        phase := .idle
        sent := stream.sent ++ [{ reply := page, through := stream.baseline kind }] },
      total + encoded)

section

variable (kind : Kind Item Edition) (limits : Limits) (group : Group)
  (stream : Stream Item Edition Stage Reply) (total : Nat)

@[simp]
theorem scope_consume : (stream.consume kind total).1.scope = stream.scope := by
  unfold consume
  split
  · split <;> rfl
  · rfl

@[simp]
theorem scope_charge (weight : Nat)
    : (stream.charge limits weight total).1.scope = stream.scope := by
  unfold charge
  split <;> rfl

@[simp]
theorem scope_prune : (stream.prune kind limits total).1.scope = stream.scope := by
  simp [prune]

@[simp]
theorem scope_select : (stream.select kind group).scope = stream.scope := by
  unfold select
  split
  · rfl
  split
  · rfl
  split <;> rfl

@[simp]
theorem scope_recharge : (stream.recharge kind limits total).1.scope = stream.scope := by
  simp [recharge]

@[simp]
theorem scope_accept (stopped : Bool) (page : Reply) (encoded : Nat)
    : (stream.accept kind limits group stopped page encoded total).1.scope = stream.scope := by
  unfold accept
  split <;> rfl

end

end Stream

-- The service

/-- The streams of one service by the address of their object, and the group of every Scope
that has one.
-/
structure Hub (Item Edition Stage Reply : Type) where
  groups : Assoc Scope Group := ∅
  streams : Assoc Nat (Stream Item Edition Stage Reply) := ∅
  count : Nat := 0
  bytes : Nat := 0
  stopped : Bool := false

namespace Hub

/-- Streams of a Scope that meet a test of their target, in the order of their index. -/
def watching (hub : Hub Item Edition Stage Reply) (scope : Scope) (test : Bytes → Bool)
    : List Nat :=
  hub.streams.keys.filter fun id =>
    (hub.streams.get? id).any fun stream => stream.scope == scope && test stream.target

/-- Store what a step made of one stream and of the shared total. -/
def update (hub : Hub Item Edition Stage Reply) (id : Nat)
    (result : Stream Item Edition Stage Reply × Nat)
    : Hub Item Edition Stage Reply :=
  { hub with streams := hub.streams.set id result.1, bytes := result.2 }

theorem get?_update_self (hub : Hub Item Edition Stage Reply) (id : Nat)
    (result : Stream Item Edition Stage Reply × Nat)
    : (hub.update id result).streams.get? id = some result.1 := by
  simp [update]

def visit (kind : Kind Item Edition) (limits : Limits) (key : Bytes) (item : Item)
    (hub : Hub Item Edition Stage Reply) (id : Nat)
    : Hub Item Edition Stage Reply :=
  match hub.streams.get? id with
  | none => hub
  | some stream => hub.update id (stream.collect kind limits key item hub.bytes)

/-- `changed`: take note of a commit and let the streams of the whole Scope, and those of the
changed key, collect it.
-/
def changed (kind : Kind Item Edition) (limits : Limits) (hub : Hub Item Edition Stage Reply)
    (scope : Scope) (item : Item)
    : Hub Item Edition Stage Reply :=
  match hub.groups.get? scope with
  | none => hub
  | some group =>
      let noted :=
        { hub with
          groups := hub.groups.set scope
            (publish group (kind.version item) (kind.name item).isNone) }
      match kind.name item with
      | none => noted
      | some key =>
          (noted.watching scope (·.isEmpty)
            ++ noted.watching scope fun target => !target.isEmpty && target == key).foldl
            (visit kind limits key item) noted

def register (kind : Kind Item Edition) (limits : Limits) (hub : Hub Item Edition Stage Reply)
    (id : Nat) (request : Request)
    : Except Finish (Hub Item Edition Stage Reply) :=
  if hub.stopped ∨ hub.count = limits.streams then
    .error
      { code := .resourceExhausted
        reason := .busy
        message := kind.label ++ " watch capacity unavailable" }
  else
    .ok
      { hub with
        groups := hub.groups.set request.scope ((hub.groups.get? request.scope).getD {})
        streams := hub.streams.set id
          { scope := request.scope
            target := request.target
            «instance» := request.instance
            requested := request.version }
        count := hub.count + 1 }

/-- Forget a finished stream, and its group with the last of its Scope. -/
def retire (hub : Hub Item Edition Stage Reply) (id : Nat)
    (stream : Stream Item Edition Stage Reply)
    : Hub Item Edition Stage Reply :=
  let streams := hub.streams.remove id
  let alone := streams.keys.all fun other =>
    (streams.get? other).all fun remaining => remaining.scope != stream.scope
  { hub with
    streams
    groups := if alone then hub.groups.remove stream.scope else hub.groups
    bytes := hub.bytes - (stream.bytes + stream.held + stream.encoded)
    count := hub.count - 1 }

/-- The start of a round. `queued` says that the stream waits in the ready queue again, which
leaves its removal to that later round. `first` is where the capture of a baseline starts.
-/
def enter (kind : Kind Item Edition) (first : Stage) (hub : Hub Item Edition Stage Reply)
    (id : Nat) (stream : Stream Item Edition Stage Reply) (queued : Bool)
    (permit : Except Finish Unit)
    : Hub Item Edition Stage Reply :=
  if stream.done then
    if queued then hub else hub.retire id stream
  else if stream.ended.isSome || stream.writing then
    hub
  else
    match permit with
    | .error status => hub.update id (stream.finish status, hub.bytes)
    | .ok () =>
        if stream.failed || hub.stopped || stream.overflow then
          hub.update id
            (stream.finish
              { code := if stream.overflow then .resourceExhausted else .cancelled
                reason := if stream.overflow then .busy else .session
                message := kind.label ++ " watch cannot continue" },
              hub.bytes)
        else
          let (settled, total) := stream.consume kind hub.bytes
          hub.update id
            ({ settled with phase := if settled.started then .selecting else .capturing first },
              total)

end Hub

end Astra.Watch
