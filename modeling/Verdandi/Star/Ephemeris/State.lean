import Verdandi.Star.Ephemeris.Record
import Verdandi.Star.Replica

/-! The Ephemeris of one Star: its own registrations, copies of those of the others, and what
subscribers see of both. A registration is shown for one source only, which owns it. Every function
is what happens under the lock of the domain.
-/

namespace Astra.Ephemeris

open Support
open Origin (Name)

structure Layout where
  record : Nat
  content : Nat
  name : Nat
  fact : Nat
  event : Nat

def Layout.traits (layout : Layout) : Origin.Traits Record where
  payload record := record.attr.length + record.data.length
  item := layout.record
  name := layout.name
  event := layout.fact
  binary := true

def Layout.measure (layout : Layout) : Scene.Measure Content where
  payload content := content.attr.length + content.data.length
  item := layout.content
  name := layout.name
  event := layout.event

namespace State

inductive Error where
  | input
  | clock
  | ended
  | obsolete
  | conflict
  | exhausted
  | capacity
  | history
  deriving DecidableEq, Repr

def Error.ofRule : Ephemeris.Error → Error
  | .input => .input
  | .clock => .clock
  | .ended => .ended
  | .obsolete => .obsolete
  | .conflict => .conflict
  | .exhausted => .exhausted

def Error.ofOrigin : Origin.Error → Error
  | .input => .input
  | .duplicate => .conflict
  | .capacity => .capacity
  | .version => .exhausted
  | .history => .history

def Error.ofScene : Scene.Error → Error
  | .input => .input
  | .capacity => .capacity
  | .version => .exhausted
  | .history => .history

structure Limits where
  source : Origin.Limits := {}
  projection : Scene.Limits := {}
  scopes : Nat := 4096
  history : Nat := 8 * 1024 * 1024
  replicas : Nat := 63
  replicaBytes : Nat := 128 * 1024 * 1024

/-- How an operation ends. -/
abbrev Reply := Answer Error Unit

structure Receipt where
  uuid : Bytes
  ttl : Nat
  deriving DecidableEq, Repr

end State

/-- The state under the lock. `owners` names the copy that a visible registration belongs to; those of
this Star are not in it. The hooks of a source stand in its agenda.
-/
structure State where
  limits : State.Limits
  source : Origin Record
  agenda : Option Agenda := none
  stage : Stage Content
  replicas : Assoc Bytes (Replica Record State.Error) := ∅
  owners : Assoc Name Bytes := ∅
  replicaBytes : Nat := 0
  observed : Option Int := none
  due : Int := 0

namespace State

def start (limits : Limits) : State where
  limits
  source := { owned := true, limits := limits.source }
  stage := { scopes := limits.scopes, budget := limits.history, limits := limits.projection }

/-- `reading`: sample the clock; a time that may not be used is not remembered. -/
def reading (state : State) (sample : Option Clock.Reading) : Option (Clock.Reading × State) :=
  (sample.filter (·.follows state.observed)).map fun stamp =>
    (stamp, { state with observed := some stamp.time })

def amendReplica (state : State) (id : Bytes) (f : Replica Record Error → Replica Record Error)
    : State :=
  match state.replicas.get? id with
  | none => state
  | some replica => { state with replicas := state.replicas.set id (f replica) }

def openAgenda (state : State) (time : Int) : State :=
  if state.agenda.isSome then
    state
  else
    { state with
      agenda := some { time }
      due := min state.due (Agenda.next { time }) }

def openReplica (state : State) (id : Bytes) (time : Int) : State :=
  match state.replicas.get? id with
  | none => state
  | some replica =>
      if replica.agenda.isSome then
        state
      else
        { state with
          replicas := state.replicas.set id { replica with agenda := some { time } }
          due := min state.due (Agenda.next { time }) }

-- The end of leases

/-- A registration of this Star that can be taken out: it, and what is left. -/
structure Erasure where
  old : Record
  source : Origin Record
  stage : Stage Content

/-- `erase` until it commits. The Scope stays opened after a failure. -/
def erase (layout : Layout) (steady : Int) (source : Origin Record) (stage : Stage Content)
    (agenda : Option Agenda) (name : Name)
    : Answer Error Erasure × Stage Content :=
  match source.find name with
  | none => (.error .ended, stage)
  | some old =>
      match stage.obtain' name.scope with
      | .error refused => (.error (.ofScene refused), stage)
      | .ok stage =>
          match source.next with
          | .error refused => (.error (.ofOrigin refused), stage)
          | .ok position =>
              match source.prepare layout.traits name none (some position) steady .erase with
              | .error refused => (.error (.ofOrigin refused), stage)
              | .ok edit =>
                  match stage.change layout.measure name none steady with
                  | .error refused => (.error (.ofScene refused), stage)
                  | .ok shown =>
                      if agenda.any (·.hooks.contains name) then
                        (.ok { old, source := edit.commit source, stage := shown }, stage)
                      else
                        (.thrown (.logicError "Active Ephemeris lacks its timer"), stage)

def fire (layout : Layout) (steady : Int) (pair : Origin Record × Stage Content) (agenda : Agenda)
    (name : Name)
    : Agenda.Fired (Origin Record × Stage Content) :=
  match pair.1.find name with
  | none => .failed (.logicError "Scheduled Ephemeris lacks its native record") pair
  | some record =>
      if agenda.time < record.deadline then
        .later record.deadline
      else
        match erase layout steady pair.1 pair.2 (some agenda) name with
        | (.ok erasure, _) => .ended (erasure.source, erasure.stage)
        | (.error _, stage) =>
            .failed (.runtimeError "Ephemeris expiry could not commit") (pair.1, stage)
        | (.thrown fault, stage) => .failed fault (pair.1, stage)

/-- What a hook of a copy may change: the copy, what is shown, who owns it, and what is charged for
all copies.
-/
structure Holding where
  source : Origin Record
  stage : Stage Content
  owners : Assoc Name Bytes
  charged : Nat

/-- Handle a due hook of a copy. What it does not own it does not hide. -/
def fireReplica (layout : Layout) (steady : Int) (id : Bytes) (holding : Holding)
    (agenda : Agenda) (name : Name)
    : Agenda.Fired Holding :=
  match holding.source.find name with
  | none => .failed (.logicError "Replica timer has no native record") holding
  | some old =>
      if agenda.time < old.deadline then
        .later old.deadline
      else
        let visible := (holding.stage.find name).isSome && holding.owners.get? name == some id
        match holding.source.prepare layout.traits name none none steady with
        | .error _ =>
            .failed (.runtimeError "Replica expiry could not prepare native state") holding
        | .ok edit =>
            match if visible then holding.stage.change layout.measure name none steady
              else .ok holding.stage with
            | .error _ =>
                .failed (.runtimeError "Replica expiry could not prepare projection") holding
            | .ok stage =>
                let source := edit.commit holding.source
                .ended
                  { source
                    stage
                    owners := if visible then holding.owners.remove name else holding.owners
                    charged := holding.charged - holding.source.charged + source.charged }

def advanceSource (layout : Layout) (state : State) (moment : Moment) (now : Int)
    : State × Option Fault :=
  match state.agenda with
  | none => (state, none)
  | some agenda =>
      let ((source, stage), agenda, fault) :=
        agenda.advance (fire layout moment.steady) moment.source now (state.source, state.stage)
      ({ state with source, stage, agenda := some agenda }, fault)

def advanceReplica (layout : Layout) (state : State) (moment : Moment) (now : Int) (id : Bytes)
    : State × Option Fault :=
  match state.replicas.get? id with
  | none => (state, none)
  | some replica =>
      match replica.agenda with
      | none => (state, none)
      | some agenda =>
          let (holding, agenda, fault) :=
            agenda.advance (fireReplica layout moment.steady id) (moment.replica id) now
              { source := replica.source, stage := state.stage, owners := state.owners
                charged := state.replicaBytes }
          ({ state with
              replicas :=
                state.replicas.set id
                  { replica with source := holding.source, agenda := some agenda }
              stage := holding.stage
              owners := holding.owners
              replicaBytes := holding.charged },
            fault)

def forget (state : State) (id : Bytes) : State :=
  match state.replicas.get? id with
  | none => state
  | some replica =>
      if replica.spent then
        { state with replicas := state.replicas.remove id }
      else
        state

/-- Advance the copies but the one that is held; one that is busy is left alone. The last
component says whether such a one has something to do.
-/
def advanceReplicas (layout : Layout) (moment : Moment) (now : Int) (held : Option Bytes)
    : List Bytes → State → State × Option Fault × Bool
  | [], state => (state, none, false)
  | id :: rest, state =>
      match state.replicas.get? id with
      | none => advanceReplicas layout moment now held rest state
      | some replica =>
          if held = some id then
            advanceReplicas layout moment now held rest state
          else if replica.busy then
            let blocked := replica.retired || replica.agenda.any (·.next ≤ now)
            let (last, fault, others) := advanceReplicas layout moment now held rest state
            (last, fault, blocked || others)
          else
            match advanceReplica layout state moment now id with
            | (next, some fault) => (next, some fault, false)
            | (next, none) => advanceReplicas layout moment now held rest (next.forget id)

def identities (state : State) : List Bytes :=
  state.replicas.keys.insertionSort fun left right => left.rank ≤ right.rank

def nextDue (state : State) : Int :=
  ((state.agenda.toList ++ state.replicas.toPairs.flatMap (·.2.agenda.toList)).map
    Agenda.next).foldl min Clock.maximum

/-- The work of `advance`: end what is due, of the copies and then of the own source. -/
def sweep (layout : Layout) (state : State) (moment : Moment) (now : Int) (held : Option Bytes)
    : State × Option Fault :=
  match advanceReplicas layout moment now held state.identities state with
  | (state, some fault, _) => (state, some fault)
  | (state, none, blocked) =>
      match state.advanceSource layout moment now with
      | (state, some fault) => (state, some fault)
      | (state, none) =>
          ({ state with due := if blocked then min state.nextDue now else state.nextDue }, none)

/-- `advance`: before the cached time there is nothing to do. -/
def advance (layout : Layout) (state : State) (moment : Moment) (now : Int) (held : Option Bytes)
    : State × Option Fault :=
  if now < state.due then (state, none) else state.sweep layout moment now held

/-- `tick`, one round of it. -/
def tick (layout : Layout) (state : State) (moment : Moment) : Reply × State :=
  if state.agenda.isNone ∧ state.replicas.keys.isEmpty then
    (.ok (), state)
  else
    match state.reading (moment.sample 0) with
    | none => (.thrown (.runtimeError "Ephemeris clock is unavailable"), state)
    | some (stamp, state) =>
        match state.advance layout moment stamp.time none with
        | (state, some fault) => (.thrown fault, state)
        | (state, none) => (.ok (), state)

/-- `execute` of a read, one round of it. -/
def read (layout : Layout) (state : State) (moment : Moment) : Reply × State :=
  match state.reading (moment.sample 0) with
  | none => (.error .clock, state)
  | some (stamp, state) =>
      if stamp.time < state.due then
        (.ok (), state)
      else
        match state.reading (moment.sample 1) with
        | none => (.error .clock, state)
        | some (stamp, state) =>
            match state.advance layout moment stamp.time none with
            | (state, some fault) => (.thrown fault, state)
            | (state, none) => (.ok (), state)

-- Writing to the own source

/-- `create` after what has ended is gone. -/
def createAt (layout : Layout) (state : State) (name : Name) (attr data : Bytes) (ttl : Nat)
    (record : Record) (time : Int) (moment : Moment)
    : Answer Error Receipt × State :=
  if (state.source.find name).isSome then
    (.error .conflict, state)
  else
    match state.stage.obtain' name.scope with
    | .error refused => (.error (.ofScene refused), state)
    | .ok stage =>
        if (stage.find name).isSome then
          (.error .conflict, state)
        else
          match state.source.next with
          | .error refused => (.error (.ofOrigin refused), state)
          | .ok position =>
              match state.source.prepare layout.traits name (some record) (some position)
                moment.steady with
              | .error refused => (.error (.ofOrigin refused), state)
              | .ok edit =>
                  match stage.change layout.measure name (some { attr, data }) moment.steady with
                  | .error refused => (.error (.ofScene refused), state)
                  | .ok shown =>
                      let opened := state.openAgenda time
                      match opened.reading (moment.sample 1) with
                      | none => (.error .clock, opened)
                      | some (stamp, final) =>
                          match Ephemeris.create attr data ttl stamp with
                          | .error refused => (.error (.ofRule refused), final)
                          | .ok record =>
                              match edit.revise layout.traits record with
                              | none =>
                                  (.thrown (.logicError
                                    "Ephemeris deadline changed prepared payload cost"), final)
                              | some edit =>
                                  (.ok { uuid := name.key, ttl },
                                    { final with
                                      source := edit.commit final.source
                                      stage := shown
                                      agenda :=
                                        Agenda.hold final.agenda name (some record.deadline) })

/-- `create`, with the UUID that is drawn. -/
def create (layout : Layout) (state : State) (name : Name) (attr data : Bytes) (ttl : Nat)
    (moment : Moment)
    : Answer Error Receipt × State :=
  if !name.scope.valid then
    (.error .input, state)
  else
    match state.reading (moment.sample 0) with
    | none => (.error .clock, state)
    | some (stamp, state) =>
        match Ephemeris.create attr data ttl stamp with
        | .error refused => (.error (.ofRule refused), state)
        | .ok record =>
            match state.advance layout moment stamp.time none with
            | (state, some fault) => (.thrown fault, state)
            | (state, none) => state.createAt layout name attr data ttl record stamp.time moment

/-- A change of a registration of this Star: other data, or a longer lease. -/
inductive Request where
  | update (data : Bytes) (order : Nat)
  | renew (order : Nat)
  deriving DecidableEq, Repr

def Request.form : Request → Origin.Form
  | .update .. => .data
  | .renew .. => .renew

def Request.candidate (request : Request) (current : Record) (stamp : Clock.Reading)
    : Except Ephemeris.Error Change :=
  match request with
  | .update data order => Ephemeris.update current data order stamp
  | .renew order => Ephemeris.renew current order stamp

/-- The candidate at the final time: only a renewal is made again. -/
def Request.again (request : Request) (current : Record) (change : Change) (stamp : Clock.Reading)
    : Except Ephemeris.Error Change :=
  match request with
  | .renew order => Ephemeris.renew current order stamp
  | .update .. => (active current stamp).map fun _ => change

def confirm (state : State) (old : Record) (moment : Moment) : Reply × State :=
  match state.reading (moment.sample 1) with
  | none => (.error .clock, state)
  | some (stamp, state) =>
      match active old stamp with
      | .error refused => (.error (.ofRule refused), state)
      | .ok () => (.ok (), state)

def commitChange (layout : Layout) (state : State) (name : Name) (request : Request)
    (old : Record) (change : Change) (edit : Origin.Edit Record) (shown : Stage Content)
    (moment : Moment)
    : Reply × State :=
  match state.reading (moment.sample 1) with
  | none => (.error .clock, state)
  | some (stamp, state) =>
      match request.again old change stamp with
      | .error refused => (.error (.ofRule refused), state)
      | .ok change =>
          match edit.revise layout.traits change.record with
          | none =>
              (.thrown (.logicError "Ephemeris final check changed prepared payload cost"), state)
          | some edit =>
              (.ok (),
                { state with
                  source := edit.commit state.source
                  stage := shown
                  agenda := Agenda.hold state.agenda name (some change.record.deadline) })

/-- `change` after what has ended is gone. The Scope stays opened after a failure. -/
def changeAt (layout : Layout) (state : State) (name : Name) (request : Request)
    (stamp : Clock.Reading) (moment : Moment)
    : Reply × State :=
  match state.source.find name with
  | none => (.error .ended, state)
  | some old =>
      match request.candidate old stamp with
      | .error refused => (.error (.ofRule refused), state)
      | .ok change =>
          if !change.changed then
            state.confirm old moment
          else
            match state.stage.obtain' name.scope with
            | .error refused => (.error (.ofScene refused), state)
            | .ok stage =>
                let state := { state with stage }
                match state.source.next with
                | .error refused => (.error (.ofOrigin refused), state)
                | .ok position =>
                    match state.source.prepare layout.traits name (some change.record)
                      (some position) moment.steady request.form with
                    | .error refused => (.error (.ofOrigin refused), state)
                    | .ok edit =>
                        match if change.visible then
                            stage.change layout.measure name (some change.record.content)
                              moment.steady true
                          else .ok stage with
                        | .error refused => (.error (.ofScene refused), state)
                        | .ok shown =>
                            if state.agenda.any (·.hooks.contains name) then
                              state.commitChange layout name request old change edit shown moment
                            else
                              (.thrown (.logicError "Active Ephemeris lacks its timer"), state)

/-- `change`, the common part of `update` and `renew`. -/
def change (layout : Layout) (state : State) (name : Name) (request : Request) (moment : Moment)
    : Reply × State :=
  if !name.scope.valid ∨ !valid name.key then
    (.error .input, state)
  else
    match state.reading (moment.sample 0) with
    | none => (.error .clock, state)
    | some (stamp, state) =>
        match state.advance layout moment stamp.time none with
        | (state, some fault) => (.thrown fault, state)
        | (state, none) => state.changeAt layout name request stamp moment

/-- `remove` after what has ended is gone: the lease has to last still. -/
def removeAt (layout : Layout) (state : State) (name : Name) (moment : Moment)
    : Reply × State :=
  match erase layout moment.steady state.source state.stage state.agenda name with
  | (.error refused, stage) => (.error refused, { state with stage })
  | (.thrown fault, stage) => (.thrown fault, { state with stage })
  | (.ok erasure, stage) =>
      let state := { state with stage }
      match state.reading (moment.sample 1) with
      | none => (.error .clock, state)
      | some (stamp, state) =>
          match active erasure.old stamp with
          | .error refused => (.error (.ofRule refused), state)
          | .ok () =>
              (.ok (),
                { state with
                  source := erasure.source
                  stage := erasure.stage
                  agenda := Agenda.hold state.agenda name none })

def remove (layout : Layout) (state : State) (name : Name) (moment : Moment) : Reply × State :=
  if !name.scope.valid ∨ !valid name.key then
    (.error .input, state)
  else
    match state.reading (moment.sample 0) with
    | none => (.error .clock, state)
    | some (stamp, state) =>
        match state.advance layout moment stamp.time none with
        | (state, some fault) => (.thrown fault, state)
        | (state, none) => state.removeAt layout name moment

end State

end Astra.Ephemeris
