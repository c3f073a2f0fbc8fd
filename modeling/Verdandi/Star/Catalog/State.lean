import Verdandi.Star.Catalog.Record
import Verdandi.Star.Replica

/-! The Catalog of one Star: its own source, copies of the others, and their merge, which is what
subscribers see. Every function is what happens under the lock of the domain; an installation
gives it up once, while it prepares.
-/

namespace Astra.Catalog

open Support
open Origin (Name)

def Record.content (record : Record) : Option Content :=
  record.value.map fun value => { version := record.version, value }

structure Layout where
  record : Nat
  content : Nat
  name : Nat
  fact : Nat
  event : Nat

def measure (record : Record) : Nat := record.value.elim 0 List.length

def Layout.traits (layout : Layout) : Origin.Traits Record where
  payload := Catalog.measure
  item := layout.record
  name := layout.name
  event := layout.fact
  binary := false

def Layout.measure (layout : Layout) : Scene.Measure Content where
  payload content := content.value.length
  item := layout.content
  name := layout.name
  event := layout.event

namespace State

inductive Error where
  | input
  | clock
  | ended
  | version
  | conflict
  | exhausted
  | capacity
  | history
  deriving DecidableEq, Repr

def Error.ofRule : Catalog.Error → Error
  | .input => .input
  | .clock => .clock
  | .ended => .ended
  | .version => .version
  | .conflict => .conflict
  | .exhausted => .exhausted

def Error.ofOrigin : Origin.Error → Error
  | .input => .input
  | .duplicate => .conflict
  | .capacity => .capacity
  | .version => .exhausted
  | .history => .history

def Error.ofScene : Scene.Error → Error
  | .input => .input
  | .capacity => .capacity
  | .version => .exhausted
  | .history => .history

structure Limits where
  source : Origin.Limits := {}
  projection : Scene.Limits := {}
  scopes : Nat := 4096
  history : Nat := 8 * 1024 * 1024
  replicas : Nat := 63
  replicaBytes : Nat := 128 * 1024 * 1024

/-- How an operation ends. -/
abbrev Reply := Answer Error Unit

end State

structure State where
  limits : State.Limits
  source : Origin Record
  merged : Origin Record
  agenda : Option Agenda := none
  outlook : Option Agenda := none
  stage : Stage Content
  replicas : Assoc Bytes (Replica Record State.Error) := ∅
  replicaBytes : Nat := 0
  observed : Option Int := none
  due : Int := 0

namespace State

def start (limits : Limits) : State where
  limits
  source := { owned := true, limits := limits.source }
  merged := { owned := false, limits := limits.source }
  stage := { scopes := limits.scopes, budget := limits.history, limits := limits.projection }

/-- `reading`: sample the clock; a time that may not be used is not remembered. -/
def reading (state : State) (sample : Option Clock.Reading) : Option (Clock.Reading × State) :=
  (sample.filter (·.follows state.observed)).map fun stamp =>
    (stamp, { state with observed := some stamp.time })

def amendReplica (state : State) (id : Bytes) (f : Replica Record Error → Replica Record Error)
    : State :=
  match state.replicas.get? id with
  | none => state
  | some replica => { state with replicas := state.replicas.set id (f replica) }

def openAgenda (state : State) (time : Int) : State :=
  if state.agenda.isSome then
    state
  else
    { state with
      agenda := some { time }
      due := min state.due (Agenda.next { time }) }

def openOutlook (state : State) (time : Int) : State :=
  if state.outlook.isSome then
    state
  else
    { state with
      outlook := some { time }
      due := min state.due (Agenda.next { time }) }

def openReplica (state : State) (id : Bytes) (time : Int) : State :=
  match state.replicas.get? id with
  | none => state
  | some replica =>
      if replica.agenda.isSome then
        state
      else
        { state with
          replicas := state.replicas.set id { replica with agenda := some { time } }
          due := min state.due (Agenda.next { time }) }

-- The end of leases

/-- `expire`: keep only the version of a record, of the own source or of the merge, and of the
latter erase what is shown. The Scope stays opened after a failure.
-/
def expire (layout : Layout) (steady : Int) (projected : Bool) (origin : Origin Record)
    (stage : Stage Content) (agenda : Agenda) (name : Name) (time : Int)
    : Answer Error (Origin Record) × Stage Content :=
  match origin.find name with
  | none => (.error .ended, stage)
  | some old =>
      if old.value.isNone ∨ old.deadline.any (time < ·) then
        (.error .ended, stage)
      else
        match if projected then stage.obtain' name.scope else .ok stage with
        | .error refused => (.error (.ofScene refused), stage)
        | .ok stage =>
            match origin.prepare layout.traits name (some (old.expire time)) none steady with
            | .error refused => (.error (.ofOrigin refused), stage)
            | .ok edit =>
                match if projected then stage.change layout.measure name none steady
                  else .ok stage with
                | .error refused => (.error (.ofScene refused), stage)
                | .ok shown =>
                    if agenda.hooks.contains name then
                      (.ok (edit.commit origin), shown)
                    else
                      (.thrown (.logicError "Active Catalog lacks its timer"), stage)

def fire (layout : Layout) (steady : Int) (projected : Bool)
    (pair : Origin Record × Stage Content) (agenda : Agenda) (name : Name)
    : Agenda.Fired (Origin Record × Stage Content) :=
  match (pair.1.find name).filter (·.value.isSome) with
  | none => .failed (.logicError "Scheduled Catalog lacks an active native record") pair
  | some record =>
      match record.deadline.filter (agenda.time < ·) with
      | some deadline => .later deadline
      | none =>
          match expire layout steady projected pair.1 pair.2 agenda name agenda.time with
          | (.ok origin, stage) => .ended (origin, stage)
          | (.error _, stage) =>
              .failed (.runtimeError "Catalog expiry could not commit") (pair.1, stage)
          | (.thrown fault, stage) => .failed fault (pair.1, stage)

/-- Handle a due hook of a copy. What is charged for all copies goes along. -/
def fireReplica (layout : Layout) (steady : Int) (pair : Origin Record × Nat) (agenda : Agenda)
    (name : Name)
    : Agenda.Fired (Origin Record × Nat) :=
  match (pair.1.find name).filter (·.value.isSome) with
  | none => .failed (.logicError "Catalog replica timer has no active record") pair
  | some record =>
      match record.deadline.filter (agenda.time < ·) with
      | some deadline => .later deadline
      | none =>
          match pair.1.prepare layout.traits name (some (record.expire agenda.time)) none
            steady with
          | .error _ =>
              .failed (.runtimeError "Catalog replica expiry could not prepare watermark") pair
          | .ok edit =>
              let origin := edit.commit pair.1
              .ended (origin, pair.2 - pair.1.charged + origin.charged)

def advanceSource (layout : Layout) (state : State) (moment : Moment) (now : Int)
    : State × Option Fault :=
  match state.agenda with
  | none => (state, none)
  | some agenda =>
      let ((source, stage), agenda, fault) :=
        agenda.advance (fire layout moment.steady false) moment.source now
          (state.source, state.stage)
      ({ state with source, stage, agenda := some agenda }, fault)

def advanceMerged (layout : Layout) (state : State) (moment : Moment) (now : Int)
    : State × Option Fault :=
  match state.outlook with
  | none => (state, none)
  | some outlook =>
      let ((merged, stage), outlook, fault) :=
        outlook.advance (fire layout moment.steady true) moment.merged now
          (state.merged, state.stage)
      ({ state with merged, stage, outlook := some outlook }, fault)

def advanceReplica (layout : Layout) (state : State) (moment : Moment) (now : Int) (id : Bytes)
    : State × Option Fault :=
  match state.replicas.get? id with
  | none => (state, none)
  | some replica =>
      match replica.agenda with
      | none => (state, none)
      | some agenda =>
          let ((source, replicaBytes), agenda, fault) :=
            agenda.advance (fireReplica layout moment.steady) (moment.replica id) now
              (replica.source, state.replicaBytes)
          ({ state with
              replicas := state.replicas.set id { replica with source, agenda := some agenda }
              replicaBytes },
            fault)

/-- Give up a retired copy that has nothing left that ends; what it taught stays in the merge. -/
def forget (state : State) (id : Bytes) : State :=
  match state.replicas.get? id with
  | none => state
  | some replica =>
      if replica.spent then
        { state with
          replicas := state.replicas.remove id
          replicaBytes := state.replicaBytes - replica.source.charged }
      else
        state

/-- Advance the copies but the one that is held; one that is busy is left alone. The last
component says whether such a one has something to do.
-/
def advanceReplicas (layout : Layout) (moment : Moment) (now : Int) (held : Option Bytes)
    : List Bytes → State → State × Option Fault × Bool
  | [], state => (state, none, false)
  | id :: rest, state =>
      match state.replicas.get? id with
      | none => advanceReplicas layout moment now held rest state
      | some replica =>
          if held = some id then
            advanceReplicas layout moment now held rest state
          else if replica.busy then
            let blocked := replica.retired || replica.agenda.any (·.next ≤ now)
            let (last, fault, others) := advanceReplicas layout moment now held rest state
            (last, fault, blocked || others)
          else
            match advanceReplica layout state moment now id with
            | (next, some fault) => (next, some fault, false)
            | (next, none) => advanceReplicas layout moment now held rest (next.forget id)

def identities (state : State) : List Bytes :=
  state.replicas.keys.insertionSort fun left right => left.rank ≤ right.rank

def nextDue (state : State) : Int :=
  ((state.agenda.toList ++ state.outlook.toList
    ++ state.replicas.toPairs.flatMap (·.2.agenda.toList)).map Agenda.next).foldl min Clock.maximum

/-- `advance`: end what is due, of the own source, of the merge and of the copies. -/
def advance (layout : Layout) (state : State) (moment : Moment) (now : Int) (held : Option Bytes)
    : State × Option Fault :=
  if now < state.due then
    (state, none)
  else
    match state.advanceSource layout moment now with
    | (state, some fault) => (state, some fault)
    | (state, none) =>
        match state.advanceMerged layout moment now with
        | (state, some fault) => (state, some fault)
        | (state, none) =>
            match advanceReplicas layout moment now held state.identities state with
            | (state, some fault, _) => (state, some fault)
            | (state, none, blocked) =>
                ({ state with due := if blocked then min state.nextDue now else state.nextDue },
                  none)

/-- `tick`, one round of it. -/
def tick (layout : Layout) (state : State) (moment : Moment) : Reply × State :=
  if state.agenda.isNone ∧ state.outlook.isNone ∧ state.replicas.keys.isEmpty then
    (.ok (), state)
  else
    match state.reading (moment.sample 0) with
    | none => (.thrown (.runtimeError "Catalog clock is unavailable"), state)
    | some (stamp, state) =>
        match state.advance layout moment stamp.time none with
        | (state, some fault) => (.thrown fault, state)
        | (state, none) => (.ok (), state)

/-- `execute` of a read, one round of it. -/
def read (layout : Layout) (state : State) (moment : Moment) : Reply × State :=
  match state.reading (moment.sample 0) with
  | none => (.error .clock, state)
  | some (stamp, state) =>
      if stamp.time < state.due then
        (.ok (), state)
      else
        match state.reading (moment.sample 1) with
        | none => (.error .clock, state)
        | some (stamp, state) =>
            match state.advance layout moment stamp.time none with
            | (state, some fault) => (.thrown fault, state)
            | (state, none) => (.ok (), state)

-- Writing to the own source

inductive Request where
  | publish (value : Bytes) (version ttl : Nat)
  | renew (version ttl : Nat)
  deriving DecidableEq, Repr

def Request.form : Request → Origin.Form
  | .publish .. => .record
  | .renew .. => .renew

def Request.candidate (request : Request) (source merged : Option Record) (stamp : Clock.Reading)
    : Except Catalog.Error Record :=
  match request with
  | .publish value version ttl => Catalog.publish source merged value version ttl stamp
  | .renew version ttl => Catalog.renew source merged version ttl stamp

/-- The request as it is checked again, with the value of its first candidate. -/
def Request.again (request : Request) (candidate : Record) : Request :=
  match request with
  | .publish value version ttl => .publish (candidate.value.getD value) version ttl
  | .renew version ttl => .renew version ttl

structure Prepared where
  source : Origin.Edit Record
  merged : Origin.Edit Record
  stage : Stage Content

def prepareChange (layout : Layout) (state : State) (name : Name) (form : Origin.Form)
    (candidate : Record) (combined : Change) (steady : Int)
    : Except Error Prepared :=
  match state.stage.obtain' name.scope with
  | .error refused => .error (.ofScene refused)
  | .ok stage =>
      match state.source.next with
      | .error refused => .error (.ofOrigin refused)
      | .ok position =>
          match state.source.prepare layout.traits name (some candidate) (some position) steady
            form with
          | .error refused => .error (.ofOrigin refused)
          | .ok source =>
              match state.merged.prepare layout.traits name (some combined.record) none steady with
              | .error refused => .error (.ofOrigin refused)
              | .ok merged =>
                  match if combined.visible then
                      stage.change layout.measure name combined.record.content steady
                    else .ok stage with
                  | .error refused => .error (.ofScene refused)
                  | .ok stage => .ok { source, merged, stage }

def altered : Fault := .logicError "Catalog final check changed prepared payload"

def commitChange (layout : Layout) (state : State) (name : Name) (request : Request)
    (prepared : Prepared) (stamp : Clock.Reading)
    : Reply × State :=
  match request.candidate (state.source.find name) (state.merged.find name) stamp with
  | .error refused => (.error (.ofRule refused), state)
  | .ok candidate =>
      match Record.merge (state.merged.find name) candidate stamp.time with
      | .error _ => (.thrown altered, state)
      | .ok combined =>
          match prepared.source.revise layout.traits candidate,
            prepared.merged.revise layout.traits combined.record with
          | some source, some merged =>
              (.ok (),
                { state with
                  source := source.commit state.source
                  merged := merged.commit state.merged
                  stage := prepared.stage
                  agenda := Agenda.hold state.agenda name candidate.deadline
                  outlook := Agenda.hold state.outlook name combined.record.deadline })
          | _, _ => (.thrown altered, state)

/-- `change` after what has ended is gone. -/
def changeAt (layout : Layout) (state : State) (name : Name) (request : Request)
    (stamp : Clock.Reading) (moment : Moment)
    : Reply × State :=
  match request.candidate (state.source.find name) (state.merged.find name) stamp with
  | .error refused => (.error (.ofRule refused), state)
  | .ok candidate =>
      match Record.merge (state.merged.find name) candidate stamp.time with
      | .error refused => (.error (.ofRule refused), state)
      | .ok combined =>
          match state.prepareChange layout name request.form candidate combined moment.steady with
          | .error refused => (.error refused, state)
          | .ok prepared =>
              let opened := (state.openAgenda stamp.time).openOutlook stamp.time
              match opened.reading (moment.sample 1) with
              | none => (.error .clock, opened)
              | some (stamp, final) =>
                  final.commitChange layout name (request.again candidate) prepared stamp

/-- `change`, the common part of `publish` and `renew`. -/
def change (layout : Layout) (state : State) (name : Name) (request : Request) (moment : Moment)
    : Reply × State :=
  if !name.scope.valid ∨ !Scope.text name.key 1024 then
    (.error .input, state)
  else
    match state.reading (moment.sample 0) with
    | none => (.error .clock, state)
    | some (stamp, state) =>
        match state.advance layout moment stamp.time none with
        | (state, some fault) => (.thrown fault, state)
        | (state, none) => state.changeAt layout name request stamp moment

end State

end Astra.Catalog
