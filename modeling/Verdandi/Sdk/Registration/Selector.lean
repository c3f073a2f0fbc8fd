import Verdandi.Sdk.Failure
import Verdandi.Sdk.Registration.Deadlines
import Verdandi.Sdk.Registration.Record

/-! The registrations that a selector keeps: those it may select and, for one lease longer,
those whose lease has ended.
-/

namespace Sdk.Registration

open Support
open Support.Redis (Text)

def word : Nat := 2 ^ 64

inductive EventKind where
  | register
  | update
  | renew
  | unregister
  | repair
  deriving DecidableEq, Repr

def EventKind.text : EventKind → Text
  | .register => ascii "register"
  | .update => ascii "update"
  | .renew => ascii "renew"
  | .unregister => ascii "unregister"
  | .repair => ascii "repair"

structure RegistrationEvent where
  kind : EventKind
  uuid : Text
  revision : Nat := 0
  timestamp : Nat := 0
  ttl : Nat := 0
  version : Nat := 0
  hasVersion : Bool := false
  attr : Assoc Text Text := ∅
  data : Assoc Text Text := ∅

structure Meta where
  uuid : Text
  revision : Nat
  timestamp : Nat
  ttl : Nat
  version : Nat
  deriving DecidableEq

/-- A record with its projections, made once. A size of zero is not computed yet. -/
structure SelectorRecord (P : Type) where
  info : Meta
  attr : Assoc Text Text
  data : Assoc Text Text
  deadline : Nat
  size : Int := 0
  projectedAttr : Option P := none
  projectedData : Option P := none

structure RetainedSelectorRecord (P : Type) where
  record : SelectorRecord P
  until' : Nat

structure SelectorState (P : Type) where
  records : Assoc Text (SelectorRecord P) := ∅
  deadlines : DeadlineQueue := {}
  bytes : Int := 0
  retained : Assoc Text (RetainedSelectorRecord P) := ∅
  retainedDeadlines : DeadlineQueue := {}
  retainedBytes : Int := 0

structure SelectorCore (P : Type) where
  selectorMaxBytes : Nat
  selectorRetainedBytes : Nat
  projectAttr : Option (Assoc Text Text → Except Failure P) := none
  projectData : Option (Assoc Text Text → Except Failure P) := none

structure RedisClock where
  upperNow : Nat
  again : Nat

variable {P : Type}

namespace SelectorRecord

def content (record : SelectorRecord P) : Content where
  version := record.info.version
  attr := record.attr
  data := record.data

def measured (record : SelectorRecord P) : Nat :=
  registrationSize record.info.uuid record.info.revision record.info.ttl record.content

/-- `selectorRecordSize`: the size as it was stored, if it was. -/
def recordSize (record : SelectorRecord P) : Int :=
  if record.size ≠ 0 then record.size else record.measured

def clone (record : SelectorRecord P) : SelectorRecord P :=
  { record with size := record.recordSize }

def renewed (record : SelectorRecord P) (timestamp : Nat) : SelectorRecord P where
  info := { record.info with timestamp }
  attr := record.attr
  data := record.data
  deadline := (timestamp + record.info.ttl) % word
  size := record.clone.size
  projectedAttr := record.projectedAttr
  projectedData := record.projectedData

def patched (record : SelectorRecord P) (event : RegistrationEvent) (data : Assoc Text Text)
    (size : Int) : SelectorRecord P where
  info :=
    { record.info with
      revision := event.revision
      timestamp := event.timestamp
      version := if event.hasVersion then event.version else record.info.version }
  attr := record.attr
  data
  deadline := (event.timestamp + record.info.ttl) % word
  size
  projectedAttr := record.projectedAttr
  projectedData := if event.data.size = 0 then record.projectedData else none

end SelectorRecord

def fieldsEqual (left right : Assoc Text Text) : Bool :=
  left.size == right.size && left.toPairs.all fun field => right.get? field.1 == some field.2

/-- The values of a patch over the fields there are, and the size that follows. -/
def patchData : List (Text × Text) → Assoc Text Text → Int → Option (Assoc Text Text × Int)
  | [], data, size => some (data, size)
  | (name, value) :: rest, data, size =>
      match data.get? name with
      | none => none
      | some previous =>
          patchData rest (data.set name value) (size + (value.length - previous.length))

def stateRecord (state : SelectorState P) (uuid : Text) : Option (SelectorRecord P × Bool) :=
  match state.records.get? uuid with
  | some record => some (record, true)
  | none => (state.retained.get? uuid).map fun kept => (kept.record, false)

namespace SelectorCore

variable (core : SelectorCore P)

def project (projection : Option (Assoc Text Text → Except Failure P))
    (fields : Assoc Text Text) (made : Option P)
    : Except Failure (Option P) :=
  match projection, made with
  | some projection, none => (projection fields).map some
  | _, _ => .ok made

def projectRecord (record : SelectorRecord P) : Except Failure (SelectorRecord P) :=
  match project core.projectAttr record.attr record.projectedAttr with
  | .error failure => .error failure
  | .ok attr =>
      match project core.projectData record.data record.projectedData with
      | .error failure => .error failure
      | .ok data => .ok { record with projectedAttr := attr, projectedData := data }

def removeRetained (state : SelectorState P) (uuid : Text) : SelectorState P × Bool :=
  match state.retained.get? uuid with
  | some previous =>
      ({ state with
          retainedBytes := state.retainedBytes - previous.record.recordSize
          retained := state.retained.remove uuid
          retainedDeadlines := (state.retainedDeadlines.remove uuid).1 }, true)
  | none =>
      ({ state with retainedDeadlines := (state.retainedDeadlines.remove uuid).1 }, false)

def removeActive (state : SelectorState P) (uuid : Text) : SelectorState P :=
  match state.records.get? uuid with
  | some previous =>
      { state with
          bytes := state.bytes - previous.recordSize
          records := state.records.remove uuid
          deadlines := (state.deadlines.remove uuid).1 }
  | none => state

def setRecord (state : SelectorState P) (record : SelectorRecord P)
    : SelectorState P × Option Failure :=
  let record := { record with size := record.recordSize }
  let previousSize := (state.records.get? record.info.uuid).elim 0 (·.recordSize)
  let nextBytes := state.bytes - previousSize + record.recordSize
  if nextBytes > core.selectorMaxBytes then
    (state, some { code := .capacity, field := ascii "selector_view" })
  else
    match core.projectRecord record with
    | .error failure => (state, some failure)
    | .ok record =>
        let state := (removeRetained state record.info.uuid).1
        ({ state with
            records := state.records.set record.info.uuid record
            deadlines := state.deadlines.set record.info.uuid record.deadline
            bytes := nextBytes }, none)

def removeRecord (state : SelectorState P) (uuid : Text) : SelectorState P :=
  let state :=
    match state.records.get? uuid with
    | some previous => { state with bytes := state.bytes - previous.recordSize }
    | none => state
  let state :=
    { state with
      records := state.records.remove uuid
      deadlines := (state.deadlines.remove uuid).1 }
  (removeRetained state uuid).1

/-- The retained records of the earliest ends go until the others fit. -/
def evict : Nat → SelectorState P → SelectorState P
  | 0, state => state
  | rounds + 1, state =>
      if state.retainedBytes > core.selectorRetainedBytes then
        match state.retainedDeadlines.pop with
        | none => state
        | some (evicted, rest) =>
            let state := { state with retainedDeadlines := rest }
            evict rounds <|
              match state.retained.get? evicted with
              | some previous =>
                  { state with
                    retainedBytes := state.retainedBytes - previous.record.recordSize
                    retained := state.retained.remove evicted }
              | none => state
      else
        state

def setRetained (state : SelectorState P) (record : SelectorRecord P) (until' now : Nat)
    : SelectorState P × Bool :=
  let uuid := record.info.uuid
  let wasActive := (state.records.get? uuid).isSome
  let (state, wasRetained) := removeRetained (removeActive state uuid) uuid
  if core.selectorRetainedBytes = 0 ∨ until' ≤ now then
    (state, wasActive || wasRetained)
  else
    let state :=
      { state with
        retained := state.retained.set uuid { record, until' }
        retainedDeadlines := state.retainedDeadlines.set uuid until'
        retainedBytes := state.retainedBytes + record.recordSize }
    -- Every round takes one item.
    (core.evict state.retainedDeadlines.items.length state, true)

/-- The end of a retained record, one lease after the end of its own. -/
def retention (record : SelectorRecord P) : Nat :=
  let until' := (record.deadline + record.info.ttl) % word
  if until' < record.deadline then word - 1 else until'

def retainRecord (state : SelectorState P) (record : SelectorRecord P) (now : Nat)
    : SelectorState P × Bool :=
  core.setRetained state record (retention record) now

def retainUUID (state : SelectorState P) (uuid : Text) (now : Nat) : SelectorState P × Bool :=
  match state.records.get? uuid with
  | none => (state, false)
  | some record => core.retainRecord state record now

def expireActive (now : Nat) : Nat → SelectorState P → Nat → SelectorState P × Nat
  | 0, state, changed => (state, changed)
  | rounds + 1, state, changed =>
      match state.deadlines.expire now with
      | none => (state, changed)
      | some (uuid, rest) =>
          let state := { state with deadlines := rest }
          match state.records.get? uuid with
          | none => expireActive now rounds state changed
          | some record =>
              let (state, kept) := core.retainRecord state record now
              expireActive now rounds state (if kept then changed + 1 else changed)

def expireRetained (now : Nat) : Nat → SelectorState P → Nat → SelectorState P × Nat
  | 0, state, changed => (state, changed)
  | rounds + 1, state, changed =>
      match state.retainedDeadlines.expire now with
      | none => (state, changed)
      | some (uuid, rest) =>
          let state := { state with retainedDeadlines := rest }
          match state.retained.get? uuid with
          | none => expireRetained now rounds state changed
          | some previous =>
              expireRetained now rounds
                { state with
                  retainedBytes := state.retainedBytes - previous.record.recordSize
                  retained := state.retained.remove uuid } (changed + 1)

def expire (state : SelectorState P) (now : Nat) : SelectorState P × Nat :=
  let (state, changed) := core.expireActive now state.deadlines.items.length state 0
  expireRetained now state.retainedDeadlines.items.length state changed

/-- Where the lease of a changed record ends, a record goes to the retained ones, projected
before if its contents are new.
-/
def applyUpdate (state : SelectorState P) (current : SelectorRecord P)
    (event : RegistrationEvent) (limits : ZoneConfig) (clock : RedisClock)
    : SelectorState P × Except Failure (Bool × Bool) :=
  let version := if event.hasVersion then event.version else current.info.version
  let size :=
    current.clone.size + (decimalDigits event.revision - decimalDigits current.info.revision)
      + (decimalDigits version - decimalDigits current.info.version)
  match patchData event.data.toPairs current.data size with
  | none => (state, .ok (false, true))
  | some (data, size) =>
      if size > limits.recordMaxBytes then
        (state, .error { code := .capacity, field := ascii "registration" })
      else if event.timestamp
          > (maxHashFieldExpireAtMilliseconds + word - current.info.ttl % word) % word then
        (state, .error { code := .corrupt, field := ascii "@timestamp" })
      else
        let next := current.patched event data size
        if next.deadline ≤ clock.upperNow then
          match core.projectRecord next with
          | .error failure => (state, .error failure)
          | .ok next =>
              let (state, changed) := core.retainRecord state next clock.again
              (state, .ok (changed, false))
        else
          match core.setRecord state next with
          | (state, some failure) => (state, .error failure)
          | (state, none) => (state, .ok (true, false))

def arrived (event : RegistrationEvent) : SelectorRecord P where
  info :=
    { uuid := event.uuid
      revision := event.revision
      timestamp := event.timestamp
      ttl := event.ttl
      version := event.version }
  attr := event.attr
  data := event.data
  deadline := (event.timestamp + event.ttl) % word
  size :=
    registrationSize event.uuid event.revision event.ttl
      { version := event.version, attr := event.attr, data := event.data }

def latest (current : Option (SelectorRecord P × Bool)) (next : SelectorRecord P)
    : SelectorRecord P :=
  match current with
  | none => next
  | some (found, _) =>
      if next.info.revision = found.info.revision ∧ found.info.timestamp > next.info.timestamp then
        { next with
          info := { next.info with timestamp := found.info.timestamp }
          deadline := found.deadline }
      else
        next

def applyRegister (state : SelectorState P) (event : RegistrationEvent) (clock : RedisClock)
    : SelectorState P × Except Failure (Bool × Bool) :=
  let current := stateRecord state event.uuid
  if current.any fun found => event.revision < found.1.info.revision then
    (state, .ok (false, false))
  else if event.timestamp > (maxHashFieldExpireAtMilliseconds + word - event.ttl % word) % word then
    (state, .error { code := .corrupt, field := ascii "@timestamp" })
  else if current.any fun found =>
      event.revision = found.1.info.revision
        && (found.1.info.version != event.version || found.1.info.ttl != event.ttl
          || !fieldsEqual found.1.attr event.attr || !fieldsEqual found.1.data event.data) then
    (state, .ok (false, true))
  else
    let next := latest current (arrived event)
    if next.deadline ≤ clock.upperNow then
      match core.projectRecord next with
      | .error failure => (state, .error failure)
      | .ok next =>
          let (state, changed) := core.retainRecord state next clock.again
          (state, .ok (changed, false))
    else
      match core.setRecord state next with
      | (state, some failure) => (state, .error failure)
      | (state, none) =>
          (state, .ok (current.all (fun found =>
            !found.2 || found.1.info.revision != next.info.revision
              || found.1.info.version != next.info.version
              || !fieldsEqual found.1.attr next.attr
              || !fieldsEqual found.1.data next.data), false))

def applyRenew (state : SelectorState P) (event : RegistrationEvent) (clock : RedisClock)
    : SelectorState P × Except Failure (Bool × Bool) :=
  match stateRecord state event.uuid with
  | none => (state, .ok (false, true))
  | some (current, active) =>
      if event.revision < current.info.revision then
        (state, .ok (false, false))
      else if event.revision > current.info.revision then
        (state, .ok (false, true))
      else if event.timestamp ≤ current.info.timestamp then
        (state, .ok (false, false))
      else if event.timestamp
          > (maxHashFieldExpireAtMilliseconds + word - current.info.ttl % word) % word then
        (state, .error { code := .corrupt, field := ascii "@timestamp" })
      else
        let next := current.renewed event.timestamp
        if next.deadline ≤ clock.upperNow then
          let (state, changed) := core.retainRecord state next clock.again
          (state, .ok (changed, false))
        else
          match core.setRecord state next with
          | (state, some failure) => (state, .error failure)
          | (state, none) => (state, .ok (!active, false))

def applyEvent (state : SelectorState P) (event : RegistrationEvent) (limits : ZoneConfig)
    (clock : RedisClock)
    : SelectorState P × Except Failure (Bool × Bool) :=
  match event.kind with
  | .unregister =>
      match stateRecord state event.uuid with
      | none => (state, .ok (false, false))
      | some _ => (removeRecord state event.uuid, .ok (true, false))
  | .register => core.applyRegister state event clock
  | .update =>
      match stateRecord state event.uuid with
      | none => (state, .ok (false, true))
      | some (current, _) =>
          if event.revision ≤ current.info.revision then
            (state, .ok (false, false))
          else if event.revision ≠ current.info.revision + 1 then
            (state, .ok (false, true))
          else
            core.applyUpdate state current event limits clock
  | .renew => core.applyRenew state event clock
  | .repair => (state, .error { code := .invalid, field := ascii "&kind" })

/-- A copy with queues of its own, filled in the order of the two enumerations. -/
def cloneSelectorState (previous : SelectorState P)
    (active : List (Text × SelectorRecord P)) (kept : List (Text × RetainedSelectorRecord P))
    : SelectorState P :=
  let state : SelectorState P :=
    { bytes := previous.bytes, retainedBytes := previous.retainedBytes }
  let state := active.foldl (fun state row =>
    { state with
      records := state.records.set row.1 row.2
      deadlines := state.deadlines.set row.1 row.2.deadline }) state
  kept.foldl (fun state row =>
    { state with
      retained := state.retained.set row.1 row.2
      retainedDeadlines := state.retainedDeadlines.set row.1 row.2.until' }) state

/-- No record is active until it is read again; the enumerations are those of the maps. -/
def recoveryState (active : List (SelectorRecord P)) (kept : List (RetainedSelectorRecord P))
    (now : Nat) : SelectorState P :=
  let state := kept.foldl (fun state (retained : RetainedSelectorRecord P) =>
    (core.setRetained state retained.record retained.until' now).1) {}
  active.foldl (fun state record => (core.retainRecord state record now).1) state

end SelectorCore

end Sdk.Registration
