import Verdandi.Star.Catalog.State
import Verdandi.Support.Run

/-! What a Catalog learns from other Stars: single facts in order, precise repairs, and complete
states that are installed Scope by Scope.
-/

namespace Astra.Catalog

open Support
open Origin (Name)

namespace State

/-- `admit`: an identity that was retired does not come back. -/
def admitReplica (state : State) (id : Bytes) : Reply × State :=
  if !Scope.text id 1024 then
    (.error .input, state)
  else
    match state.replicas.get? id with
    | some replica => (if replica.retired then .error .version else .ok (), state)
    | none =>
        if state.replicas.size = state.limits.replicas then
          (.error .capacity, state)
        else
          (.ok (),
            { state with
              replicas :=
                state.replicas.set id
                  { source := { owned := false, limits := state.limits.source } } })

/-- `retire`: no new facts are taken, the known ones end as they would. -/
def retire (state : State) (id : Bytes) : State :=
  match state.replicas.get? id with
  | none => state
  | some replica =>
      { state with
        replicas := state.replicas.set id { replica with retired := true, coverage := [] }
        due := 0 }

/-- Pass over a position whose target is known to be further: the record stays. -/
def skip (layout : Layout) (replica : Replica Record Error) (name : Name) (position : Nat)
    (steady : Int)
    : Except Error (Replica Record Error) :=
  match replica.source.prepare layout.traits name (replica.source.find name) (some position)
    steady with
  | .error refused => .error (.ofOrigin refused)
  | .ok edit =>
      .ok
        { replica with
          source := edit.commit replica.source
          coverage := Replica.pass replica.coverage position }

def covered (layout : Layout) (state : State) (id : Bytes) (position : Nat) (name : Name)
    (steady : Int)
    : Answer Error Bool × State :=
  if !name.scope.valid ∨ !Scope.text name.key 1024 ∨ position = 0 then
    (.error .input, state)
  else
    match state.replicas.get? id with
    | none => (.error .input, state)
    | some replica =>
        if replica.retired then
          (.error .version, state)
        else if position ≤ replica.source.position then
          (.ok true, state)
        else if replica.source.position = maxWord ∨ position ≠ replica.source.position + 1 then
          (.error .history, state)
        else if replica.coverage.any fun value =>
            (value.name = Replica.whole name.scope || value.name = name)
              && value.position ≥ position then
          match skip layout replica name position steady with
          | .error refused => (.error refused, state)
          | .ok passed =>
              (.ok true, { state with replicas := state.replicas.set id passed })
        else
          (.ok false, state)

-- Single facts

/-- A fact as it is received: the next one of the source, or a repair as of a position. -/
structure Fact where
  position : Nat
  name : Name
  record : Option Record
  form : Origin.Form := .record
  repair : Bool := false

def Fact.valid (fact : Fact) : Bool :=
  fact.name.scope.valid && Scope.text fact.name.key 1024 && fact.position != 0
    && fact.record.all Record.valid && (fact.repair || fact.record.isSome)
    && (fact.form == .record || fact.form == .renew)

/-- Whether a known fact and a new one cannot be of one source in order. -/
def conflicts (old incoming : Record) : Bool :=
  incoming.version < old.version
    || (incoming.version == old.version && old.value.isSome && incoming.value.isSome
      && (old.value != incoming.value || incoming.deadline.getD 0 < old.deadline.getD 0))

def refusal (replica : Replica Record Error) (fact : Fact) : Option Error :=
  let old := replica.source.find fact.name
  if fact.form = .renew ∧ (old.bind Record.value).isNone
      ∨ fact.form = .renew ∧ ((fact.record.bind Record.value).isNone
        ∨ old.map Record.version ≠ fact.record.map Record.version) then
    some .ended
  else if old.any fun old => fact.record.any (conflicts old) then
    some .conflict
  else
    none

structure Arrival where
  record : Option Record
  source : Origin.Edit Record
  combined : Option (Change × Origin.Edit Record)
  stage : Stage Content

def prepareFact (layout : Layout) (state : State) (replica : Replica Record Error) (fact : Fact)
    (time steady : Int)
    : Except Error Arrival :=
  let record := fact.record.map (·.expire time)
  match record.mapM fun record => Record.merge (state.merged.find fact.name) record time with
  | .error refused => .error (.ofRule refused)
  | .ok combined =>
      match replica.source.prepare layout.traits fact.name record
        (if fact.repair then none else some fact.position) steady with
      | .error refused => .error (.ofOrigin refused)
      | .ok source =>
          if source.charged replica.source > state.limits.replicaBytes
              ∨ state.replicaBytes - replica.source.charged
                > state.limits.replicaBytes - source.charged replica.source then
            .error .capacity
          else
            match combined.mapM fun change =>
              (state.merged.prepare layout.traits fact.name (some change.record) none
                steady).map fun edit => (change, edit) with
            | .error refused => .error (.ofOrigin refused)
            | .ok merged =>
                match combined.filter Change.visible with
                | none => .ok { record, source, combined := merged, stage := state.stage }
                | some change =>
                    match (if (state.stage.locate fact.name.scope).isSome then .ok state.stage
                        else state.stage.obtain' fact.name.scope).bind fun stage =>
                      stage.change layout.measure fact.name change.record.content steady with
                    | .error refused => .error (.ofScene refused)
                    | .ok stage => .ok { record, source, combined := merged, stage }

def Arrival.ended (arrival : Arrival) (time : Int) : Bool :=
  arrival.record.any (fun record => record.value.isSome && record.deadline.any (· ≤ time))
    || arrival.combined.any fun pair =>
      pair.1.record.value.isSome && pair.1.record.deadline.any (· ≤ time)

def commitFact (state : State) (id : Bytes) (replica : Replica Record Error) (fact : Fact)
    (arrival : Arrival)
    : State :=
  let source := arrival.source.commit replica.source
  { state with
    replicas :=
      state.replicas.set id
        { replica with
          source
          agenda := Agenda.hold replica.agenda fact.name (arrival.record.bind Record.deadline)
          coverage :=
            if fact.repair then Replica.note fact.name fact.position replica.coverage
            else Replica.pass replica.coverage fact.position }
    replicaBytes := state.replicaBytes - replica.source.charged + source.charged
    merged := arrival.combined.elim state.merged fun pair => pair.2.commit state.merged
    outlook :=
      arrival.combined.elim state.outlook fun pair =>
        Agenda.hold state.outlook fact.name pair.1.record.deadline
    stage := arrival.stage }

def openFact (state : State) (id : Bytes) (arrival : Arrival) (time : Int) : State :=
  let state :=
    if arrival.record.any (·.value.isSome) then state.openReplica id time else state
  if arrival.combined.any (·.1.record.value.isSome) then state.openOutlook time else state

/-- `receive` after what has ended is gone. -/
def receiveAt (layout : Layout) (state : State) (id : Bytes) (fact : Fact) (time : Int)
    (moment : Moment)
    : Reply × State :=
  match state.replicas.get? id with
  | none => (.error .input, state)
  | some replica =>
      match refusal replica fact with
      | some refused => (.error refused, state)
      | none =>
          match state.prepareFact layout replica fact time moment.steady with
          | .error refused => (.error refused, state)
          | .ok arrival =>
              let opened := state.openFact id arrival time
              match opened.reading (moment.sample 1) with
              | none => (.error .clock, opened)
              | some (stamp, final) =>
                  if arrival.ended stamp.time then
                    (.error .ended, final)
                  else
                    match final.replicas.get? id with
                    | none => (.error .input, final)
                    | some replica => (.ok (), final.commitFact id replica fact arrival)

/-- `receive`, the common part of `apply` and `repair`. -/
def receive (layout : Layout) (state : State) (id : Bytes) (fact : Fact) (moment : Moment)
    : Reply × State :=
  if !fact.valid then
    (.error .input, state)
  else
    match state.replicas.get? id with
    | none => (.error .input, state)
    | some replica =>
        if replica.retired then
          (.error .version, state)
        else if fact.position ≤ replica.source.position then
          (.ok (), state)
        else if fact.repair = false ∧ (replica.source.position = maxWord
            ∨ fact.position ≠ replica.source.position + 1) then
          (.error .history, state)
        else if fact.position ≤ Replica.covered replica.coverage fact.name then
          if fact.repair then
            (.ok (), state)
          else
            match skip layout replica fact.name fact.position moment.steady with
            | .error refused => (.error refused, state)
            | .ok passed => (.ok (), { state with replicas := state.replicas.set id passed })
        else if fact.repair ∧ (Replica.precise replica.coverage fact.name).isNone
            ∧ replica.coverage.countP (fun value => !value.name.key.isEmpty) ≥ 128 then
          (.error .capacity, state)
        else
          match state.reading (moment.sample 0) with
          | none => (.error .clock, state)
          | some (stamp, state) =>
              match state.advanceReplica layout moment stamp.time id with
              | (state, some fault) => (.thrown fault, state)
              | (state, none) =>
                  match state.advance layout moment stamp.time (some id) with
                  | (state, some fault) => (.thrown fault, state)
                  | (state, none) => state.receiveAt layout id fact stamp.time moment

-- Complete states

/-- `restore`: the Scopes that have to be installed, those that are known as well as those of
the complete state.
-/
def restore (state : State) (id : Bytes) (draft : Origin.Draft Record)
    : Except Error (List Scope) :=
  match state.replicas.get? id with
  | none => .error .input
  | some replica =>
      if replica.retired ∨ Replica.ahead replica.coverage draft.position then
        .error .version
      else
        match replica.source.validate draft with
        | .error refused => .error (.ofOrigin refused)
        | .ok () =>
            .ok ((replica.source.scopes ++ draft.candidate.scopes).mergeSort Scope.before).dedup

/-- `finish`: the source is known completely up to a position. -/
def finish (state : State) (id : Bytes) (position : Nat) : Reply × State :=
  match state.replicas.get? id with
  | none => (.error .input, state)
  | some replica =>
      if replica.retired ∨ Replica.ahead replica.coverage position then
        (.error .version, state)
      else
        match replica.source.confirm position with
        | none => (.error .version, state)
        | some source =>
            (.ok (),
              { state with
                replicas := state.replicas.set id { replica with source, coverage := [] } })

def nativeRows (layout : Layout)
    : List (Name × Record) → Origin.Batch Record → List (Name × Record)
      → Except Reply (Origin.Batch Record × List (Name × Record))
  | [], batch, rows => .ok (batch, rows)
  | (name, incoming) :: rest, batch, rows =>
      if !incoming.valid then
        .error (.error .input)
      else if (batch.find name).any (conflicts · incoming) then
        .error (.error .conflict)
      else
        match batch.set layout.traits name incoming with
        | .error refused => .error (.error (.ofOrigin refused))
        | .ok next => nativeRows layout rest next (rows ++ [(name, incoming)])

/-- The private candidate of one Scope: what the complete state lacks is erased, its records are
set.
-/
def native (layout : Layout) (source : Origin Record) (draft : Origin.Draft Record) (scope : Scope)
    : Except Reply (Origin.Batch Record × List (Name × Record)) :=
  match Origin.Batch.prepare source with
  | none => .error (.thrown (.logicError "Local source cannot bypass ordered commits"))
  | some batch =>
      let missing := ((source.each scope).map Prod.fst).filter fun name =>
        (draft.candidate.find name).isNone
      match missing.foldlM (Origin.Batch.erase layout.traits) batch with
      | .error refused => .error (.error (.ofOrigin refused))
      | .ok batch => nativeRows layout (draft.candidate.each scope) batch []

/-- `install` until it gives up the lock: from then on the copy is held. `none` means that it
goes on.
-/
def begin (layout : Layout) (state : State) (id : Bytes) (draft : Origin.Draft Record)
    (scope : Scope) (moment : Moment)
    : Option Reply × State :=
  match state.replicas.get? id with
  | none => (some (.error .input), state)
  | some replica =>
      if replica.retired ∨ draft.position < replica.source.position
          ∨ Replica.ahead replica.coverage draft.position then
        (some (.error .version), state)
      else
        match state.reading (moment.sample 0) with
        | none => (some (.error .clock), state)
        | some (stamp, state) =>
            match state.advanceReplica layout moment stamp.time id with
            | (state, some fault) => (some (.thrown fault), state)
            | (state, none) =>
                match state.advance layout moment stamp.time (some id) with
                | (state, some fault) => (some (.thrown fault), state)
                | (state, none) =>
                    (none,
                      state.amendReplica id fun replica =>
                        { replica with
                          task := some
                            { draft
                              scope
                              bytes := replica.source.charged
                              previous := (replica.source.each scope).map Prod.fst
                              prepared := native layout replica.source draft scope } })

/-- The merge in preparation: its candidate, the changes, whether one of them has a value, and
the first deadline.
-/
structure Merging where
  batch : Origin.Batch Record
  changes : List (Name × Change) := []
  opened : Bool := false
  earliest : Option Int := none

def mergeRows (layout : Layout) (time : Int)
    : List (Name × Record) → Merging → Merging × Option Error
  | [], merging => (merging, none)
  | (name, incoming) :: rest, merging =>
      match Record.merge (merging.batch.find name) incoming time with
      | .error refused => (merging, some (.ofRule refused))
      | .ok combined =>
          match merging.batch.set layout.traits name combined.record with
          | .error refused => (merging, some (.ofOrigin refused))
          | .ok batch =>
              mergeRows layout time rest
                { batch
                  changes := merging.changes ++ [(name, combined)]
                  opened := merging.opened || combined.record.value.isSome
                  earliest :=
                    if combined.record.value.isSome then
                      (merging.earliest.map fun earliest =>
                        min earliest (combined.record.deadline.getD earliest))
                        <|> combined.record.deadline
                    else merging.earliest }

def showRows (layout : Layout) (stage : Stage Content) (scope : Scope)
    (changes : List (Name × Change)) (steady : Int)
    : Except Error (Stage Content) :=
  if changes.any (·.2.visible) then
    match stage.obtain' scope with
    | .error refused => .error (.ofScene refused)
    | .ok stage =>
        match stage.changes layout.measure scope
          ((changes.filter (·.2.visible)).map fun entry =>
            { key := entry.1.key, record := entry.2.record.content }) steady with
        | .error refused => .error (.ofScene refused)
        | .ok stage => .ok stage
  else
    .ok stage

def commitTask (state : State) (id : Bytes) (replica : Replica Record Error)
    (task : Replica.Task Record Error) (batch : Origin.Batch Record)
    (rows : List (Name × Record)) (merging : Merging) (stage : Stage Content)
    : State :=
  let source := batch.commit
  let released := task.previous.foldl (fun agenda name => Agenda.hold agenda name none)
    replica.agenda
  { state with
    replicas :=
      state.replicas.set id
        { replica with
          source
          agenda :=
            rows.foldl (fun agenda row => Agenda.hold agenda row.1 row.2.deadline) released
          coverage := Replica.noteWhole task.scope task.draft.position replica.coverage }
    replicaBytes := state.replicaBytes - task.bytes + source.charged
    merged := merging.batch.commit
    outlook :=
      merging.changes.foldl (fun agenda entry => Agenda.hold agenda entry.1 entry.2.record.deadline)
        state.outlook
    stage }

/-- `install` from its final time on. -/
def installAt (layout : Layout) (state : State) (id : Bytes)
    (task : Replica.Task Record Error) (batch : Origin.Batch Record)
    (rows : List (Name × Record)) (time : Int) (moment : Moment)
    : Reply × State :=
  let state := if rows.any (·.2.value.isSome) then state.openReplica id time else state
  match state.replicas.get? id with
  | none => (.error .input, state)
  | some replica =>
      if replica.coverage.all (·.name ≠ Replica.whole task.scope)
          ∧ replica.coverage.countP (·.name.key.isEmpty) ≥ state.limits.source.scopes * 2 then
        (.error .capacity, state)
      else
        match Origin.Batch.prepare state.merged with
        | none => (.thrown (.logicError "Local source cannot bypass ordered commits"), state)
        | some candidate =>
            let (merging, refused) := mergeRows layout time rows { batch := candidate }
            let state := if merging.opened then state.openOutlook time else state
            match refused with
            | some refused => (.error refused, state)
            | none =>
                match showRows layout state.stage task.scope merging.changes moment.steady with
                | .error refused => (.error refused, state)
                | .ok stage =>
                    if batch.charged > state.limits.replicaBytes ∨ state.replicaBytes - task.bytes
                          > state.limits.replicaBytes - batch.charged then
                      (.error .capacity, state)
                    else
                      match state.reading (moment.sample 1) with
                      | none => (.error .clock, state)
                      | some (stamp, state) =>
                          if merging.earliest.any (· ≤ stamp.time) then
                            (.error .ended, state)
                          else
                            (.ok (), state.commitTask id replica task batch rows merging stage)

/-- `install` after it has the lock again. The copy is given up in any case. -/
def complete (layout : Layout) (state : State) (id : Bytes) (moment : Moment)
    : Reply × State :=
  match state.replicas.get? id with
  | none => (.error .input, state)
  | some replica =>
      match replica.task with
      | none => (.error .input, state)
      | some task =>
          let state := state.amendReplica id fun replica => { replica with task := none }
          match task.prepared with
          | .error reply => (reply, state)
          | .ok (batch, rows) =>
              if replica.retired then
                (.error .version, state)
              else
                match state.reading (moment.sample 0) with
                | none => (.error .clock, state)
                | some (stamp, state) =>
                    match state.advance layout moment stamp.time (some id) with
                    | (state, some fault) => (.thrown fault, state)
                    | (state, none) =>
                        state.installAt layout id task batch rows stamp.time moment

-- Steps

inductive Action where
  | change (name : Name) (request : Request) (moment : Moment)
  | tick (moment : Moment)
  | read (moment : Moment)
  | admitReplica (id : Bytes)
  | retire (id : Bytes)
  | covered (id : Bytes) (position : Nat) (name : Name) (steady : Int)
  | receive (id : Bytes) (fact : Fact) (moment : Moment)
  | begin (id : Bytes) (draft : Origin.Draft Record) (scope : Scope) (moment : Moment)
  | complete (id : Bytes) (moment : Moment)
  | finish (id : Bytes) (position : Nat)

/-- Whether nobody holds a copy; others wait for it outside the lock. -/
def free (state : State) (id : Bytes) : Bool :=
  (state.replicas.get? id).all (!·.busy)

def prepares (state : State) (id : Bytes) : Bool :=
  (state.replicas.get? id).any (·.busy)

def step (layout : Layout) (state : State) : Action → Option State
  | .change name request moment => some (state.change layout name request moment).2
  | .tick moment => some (state.tick layout moment).2
  | .read moment => some (state.read layout moment).2
  | .admitReplica id => some (state.admitReplica id).2
  | .retire id => some (state.retire id)
  | .covered id position name steady =>
      if state.free id then some (state.covered layout id position name steady).2 else none
  | .receive id fact moment =>
      if state.free id then some (state.receive layout id fact moment).2 else none
  | .begin id draft scope moment =>
      if state.free id then some (state.begin layout id draft scope moment).2 else none
  | .complete id moment =>
      if state.prepares id then some (state.complete layout id moment).2 else none
  | .finish id position =>
      if state.free id then some (state.finish id position).2 else none

end State

end Astra.Catalog
