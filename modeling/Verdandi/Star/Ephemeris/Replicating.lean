import Verdandi.Star.Ephemeris.State
import Verdandi.Support.Run

/-! What an Ephemeris learns from other Stars: single facts in order, precise repairs, and complete
states that are installed Scope by Scope.
-/

namespace Astra.Ephemeris

open Support
open Origin (Name)

namespace State

/-- `admit`: an identity that was retired does not come back. -/
def admitReplica (state : State) (id : Bytes) : Reply × State :=
  if !Scope.text id 1024 then
    (.error .input, state)
  else
    match state.replicas.get? id with
    | some replica => (if replica.retired then .error .obsolete else .ok (), state)
    | none =>
        if state.replicas.size = state.limits.replicas then
          (.error .capacity, state)
        else
          (.ok (),
            { state with
              replicas :=
                state.replicas.set id
                  { source := { owned := false, limits := state.limits.source } } })

/-- `retire`: no new facts are taken, the known ones end as they would. -/
def retire (state : State) (id : Bytes) : State :=
  match state.replicas.get? id with
  | none => state
  | some replica =>
      { state with
        replicas := state.replicas.set id { replica with retired := true, coverage := [] }
        due := 0 }

/-- Pass over a position whose target is known to be further: the record stays. -/
def skip (layout : Layout) (replica : Replica Record Error) (name : Name) (position : Nat)
    (steady : Int)
    : Except Error (Replica Record Error) :=
  match replica.source.prepare layout.traits name (replica.source.find name) (some position)
    steady with
  | .error refused => .error (.ofOrigin refused)
  | .ok edit =>
      .ok
        { replica with
          source := edit.commit replica.source
          coverage := Replica.pass replica.coverage position }

def covered (layout : Layout) (state : State) (id : Bytes) (position : Nat) (name : Name)
    (steady : Int)
    : Answer Error Bool × State :=
  if !name.scope.valid ∨ !valid name.key ∨ position = 0 then
    (.error .input, state)
  else
    match state.replicas.get? id with
    | none => (.error .input, state)
    | some replica =>
        if replica.retired then
          (.error .obsolete, state)
        else if position ≤ replica.source.position then
          (.ok true, state)
        else if replica.source.position = maxWord ∨ position ≠ replica.source.position + 1 then
          (.error .history, state)
        else if replica.coverage.any fun value =>
            (value.name = Replica.whole name.scope || value.name = name)
              && value.position ≥ position then
          match skip layout replica name position steady with
          | .error refused => (.error refused, state)
          | .ok passed =>
              (.ok true, { state with replicas := state.replicas.set id passed })
        else
          (.ok false, state)

-- Single facts

/-- A fact as it is received: the next one of the source, or a repair as of a position. -/
structure Fact where
  position : Nat
  name : Name
  record : Option Record
  form : Origin.Form := .record
  repair : Bool := false

def Fact.valid (fact : Fact) : Bool :=
  fact.name.scope.valid && Ephemeris.valid fact.name.key && fact.position != 0
    && fact.record.all (fun record => record.valid && record.deadline != 0)
    && (fact.form == .erase) == fact.record.isNone

/-- Whether a known fact and a new one cannot be of one source in order. -/
def conflicts (old incoming : Record) : Bool :=
  old.attr != incoming.attr || old.ttl != incoming.ttl || incoming.update < old.update
    || incoming.renewal < old.renewal || incoming.deadline < old.deadline
    || (incoming.renewal == old.renewal && incoming.deadline != old.deadline)
    || (incoming.update == old.update && incoming.data != old.data)

/-- Whether a partial fact changes what its form does not name, or nothing. -/
def outdated (form : Origin.Form) (old incoming : Record) : Bool :=
  (form == .data && (incoming.update ≤ old.update || incoming.renewal != old.renewal
      || incoming.deadline != old.deadline))
    || (form == .renew && (incoming.renewal ≤ old.renewal || incoming.update != old.update
      || incoming.data != old.data || incoming.deadline < old.deadline))

def refusal (replica : Replica Record Error) (fact : Fact) : Option Error :=
  match replica.source.find fact.name, fact.record with
  | none, _ => if fact.form = .data ∨ fact.form = .renew then some .ended else none
  | some old, some incoming =>
      if conflicts old incoming then
        some .conflict
      else if outdated fact.form old incoming then
        some .obsolete
      else
        none
  | some _, none => none

/-- What is ready to be committed to a copy: the record that is left of the fact, whether its name was
visible before, and whether that is different now.
-/
structure Arrival where
  record : Option Record
  source : Origin.Edit Record
  visible : Bool
  stage : Stage Content

/-- Prepare a fact in all places. Of a registration that belongs to another source nothing is taken. -/
def prepareFact (layout : Layout) (state : State) (id : Bytes) (replica : Replica Record Error)
    (fact : Fact) (time steady : Int)
    : Except Error Arrival :=
  let record := fact.record.filter (time < ·.deadline)
  let visible := state.stage.find fact.name
  if visible.isSome ∧ state.owners.get? fact.name ≠ some id then
    .error .conflict
  else
    let changed : Bool :=
      match record with
      | some record => visible.all (·.data ≠ record.data)
      | none => visible.isSome
    match if record.isSome ∧ (state.stage.locate fact.name.scope).isNone then
        state.stage.obtain' fact.name.scope
      else .ok state.stage with
    | .error refused => .error (.ofScene refused)
    | .ok stage =>
        match replica.source.prepare layout.traits fact.name record
          (if fact.repair then none else some fact.position) steady with
        | .error refused => .error (.ofOrigin refused)
        | .ok source =>
            if source.charged replica.source > state.limits.replicaBytes
                ∨ state.replicaBytes - replica.source.charged
                  > state.limits.replicaBytes - source.charged replica.source then
              .error .capacity
            else
              match if changed then
                  stage.change layout.measure fact.name (record.map Record.content) steady
                    (record.isSome && visible.isSome)
                else .ok stage with
              | .error refused => .error (.ofScene refused)
              | .ok stage => .ok { record, source, visible := visible.isSome, stage }

def commitFact (state : State) (id : Bytes) (replica : Replica Record Error) (fact : Fact)
    (arrival : Arrival)
    : State :=
  let source := arrival.source.commit replica.source
  { state with
    replicas :=
      state.replicas.set id
        { replica with
          source
          agenda := Agenda.hold replica.agenda fact.name (arrival.record.map Record.deadline)
          coverage :=
            if fact.repair then Replica.note fact.name fact.position replica.coverage
            else Replica.pass replica.coverage fact.position }
    replicaBytes := state.replicaBytes - replica.source.charged + source.charged
    owners :=
      if arrival.record.isSome ∧ arrival.visible = false then state.owners.set fact.name id
      else if arrival.record.isNone ∧ arrival.visible then state.owners.remove fact.name
      else state.owners
    stage := arrival.stage }

/-- `receive` after what has ended is gone. -/
def receiveAt (layout : Layout) (state : State) (id : Bytes) (fact : Fact) (time : Int)
    (moment : Moment)
    : Reply × State :=
  match state.replicas.get? id with
  | none => (.error .input, state)
  | some replica =>
      match refusal replica fact with
      | some refused => (.error refused, state)
      | none =>
          match state.prepareFact layout id replica fact time moment.steady with
          | .error refused => (.error refused, state)
          | .ok arrival =>
              let opened := if arrival.record.isSome then state.openReplica id time else state
              match opened.reading (moment.sample 1) with
              | none => (.error .clock, opened)
              | some (stamp, final) =>
                  if arrival.record.any (·.deadline ≤ stamp.time) then
                    (.error .ended, final)
                  else
                    match final.replicas.get? id with
                    | none => (.error .input, final)
                    | some replica => (.ok (), final.commitFact id replica fact arrival)

/-- `receive`, the common part of `apply` and `repair`. -/
def receive (layout : Layout) (state : State) (id : Bytes) (fact : Fact) (moment : Moment)
    : Reply × State :=
  if !fact.valid then
    (.error .input, state)
  else
    match state.replicas.get? id with
    | none => (.error .input, state)
    | some replica =>
        if replica.retired then
          (.error .obsolete, state)
        else if fact.position ≤ replica.source.position then
          (.ok (), state)
        else if fact.repair = false ∧ (replica.source.position = maxWord
            ∨ fact.position ≠ replica.source.position + 1) then
          (.error .history, state)
        else if fact.position ≤ Replica.covered replica.coverage fact.name then
          if fact.repair then
            (.ok (), state)
          else
            match skip layout replica fact.name fact.position moment.steady with
            | .error refused => (.error refused, state)
            | .ok passed => (.ok (), { state with replicas := state.replicas.set id passed })
        else if fact.repair ∧ (Replica.precise replica.coverage fact.name).isNone
            ∧ replica.coverage.countP (fun value => !value.name.key.isEmpty) ≥ 128 then
          (.error .capacity, state)
        else
          match state.reading (moment.sample 0) with
          | none => (.error .clock, state)
          | some (stamp, state) =>
              match state.advanceReplica layout moment stamp.time id with
              | (state, some fault) => (.thrown fault, state)
              | (state, none) =>
                  match state.advance layout moment stamp.time (some id) with
                  | (state, some fault) => (.thrown fault, state)
                  | (state, none) => state.receiveAt layout id fact stamp.time moment

-- Complete states

/-- `restore`: the Scopes that have to be installed, those that are known as well as those of
the complete state.
-/
def restore (state : State) (id : Bytes) (draft : Origin.Draft Record)
    : Except Error (List Scope) :=
  match state.replicas.get? id with
  | none => .error .input
  | some replica =>
      if replica.retired ∨ Replica.ahead replica.coverage draft.position then
        .error .obsolete
      else
        match replica.source.validate draft with
        | .error refused => .error (.ofOrigin refused)
        | .ok () =>
            .ok ((replica.source.scopes ++ draft.candidate.scopes).mergeSort Scope.before).dedup

/-- `finish`: the source is known completely up to a position. -/
def finish (state : State) (id : Bytes) (position : Nat) : Reply × State :=
  match state.replicas.get? id with
  | none => (.error .input, state)
  | some replica =>
      if replica.retired ∨ Replica.ahead replica.coverage position then
        (.error .obsolete, state)
      else
        match replica.source.confirm position with
        | none => (.error .obsolete, state)
        | some source =>
            (.ok (),
              { state with
                replicas := state.replicas.set id { replica with source, coverage := [] } })

def nativeRows (layout : Layout)
    : List (Name × Record) → Origin.Batch Record → List (Name × Record)
      → Except Reply (Origin.Batch Record × List (Name × Record))
  | [], batch, rows => .ok (batch, rows)
  | (name, incoming) :: rest, batch, rows =>
      if !valid name.key ∨ !incoming.valid ∨ incoming.deadline = 0 then
        .error (.error .input)
      else if (batch.find name).any (conflicts · incoming) then
        .error (.error .conflict)
      else
        match batch.set layout.traits name incoming with
        | .error refused => .error (.error (.ofOrigin refused))
        | .ok next => nativeRows layout rest next (rows ++ [(name, incoming)])

/-- The private candidate of one Scope: what the complete state lacks is erased, its records are
set.
-/
def native (layout : Layout) (source : Origin Record) (draft : Origin.Draft Record) (scope : Scope)
    : Except Reply (Origin.Batch Record × List (Name × Record)) :=
  match Origin.Batch.prepare source with
  | none => .error (.thrown (.logicError "Local source cannot bypass ordered commits"))
  | some batch =>
      let missing := ((source.each scope).map Prod.fst).filter fun name =>
        (draft.candidate.find name).isNone
      match missing.foldlM (Origin.Batch.erase layout.traits) batch with
      | .error refused => .error (.error (.ofOrigin refused))
      | .ok batch => nativeRows layout (draft.candidate.each scope) batch []

/-- `install` until it gives up the lock: from then on the copy is held. `none` means that it
goes on.
-/
def begin (layout : Layout) (state : State) (id : Bytes) (draft : Origin.Draft Record)
    (scope : Scope) (moment : Moment)
    : Option Reply × State :=
  match state.replicas.get? id with
  | none => (some (.error .input), state)
  | some replica =>
      if replica.retired ∨ draft.position < replica.source.position
          ∨ Replica.ahead replica.coverage draft.position then
        (some (.error .obsolete), state)
      else
        match state.reading (moment.sample 0) with
        | none => (some (.error .clock), state)
        | some (stamp, state) =>
            match state.advanceReplica layout moment stamp.time id with
            | (state, some fault) => (some (.thrown fault), state)
            | (state, none) =>
                match state.advance layout moment stamp.time (some id) with
                | (state, some fault) => (some (.thrown fault), state)
                | (state, none) =>
                    (none,
                      state.amendReplica id fun replica =>
                        { replica with
                          task := some
                            { draft
                              scope
                              bytes := replica.source.charged
                              previous := (replica.source.each scope).map Prod.fst
                              prepared := native layout replica.source draft scope } })

/-- What an installation shows: the changes of the Scope, the names that come to belong to the copy or
cease to, and the first deadline.
-/
structure Showing where
  changes : List (Stage.Row Content) := []
  added : List Name := []
  removed : List Name := []
  earliest : Option Int := none

/-- The former names that are not in the complete state any more, or have ended in it, are hidden. -/
def hideRows (state : State) (id : Bytes) (draft : Origin.Draft Record) (time : Int)
    (previous : List Name)
    : List Name :=
  previous.filter fun name =>
    !((draft.candidate.find name).any (time < ·.deadline))
      && (state.stage.find name).isSome && state.owners.get? name == some id

/-- Show the rows one after the other; a name that another source shows is a conflict. -/
def showRows (state : State) (id : Bytes) (time : Int)
    : List (Name × Record) → Showing → Except Error Showing
  | [], showing => .ok showing
  | (name, incoming) :: rest, showing =>
      if incoming.deadline ≤ time then
        showRows state id time rest showing
      else
        let showing :=
          { showing with
            earliest :=
              some (showing.earliest.elim incoming.deadline fun held =>
                min held incoming.deadline) }
        match state.stage.find name with
        | some current =>
            if state.owners.get? name ≠ some id ∨ current.attr ≠ incoming.attr then
              .error .conflict
            else if current.data = incoming.data then
              showRows state id time rest showing
            else
              showRows state id time rest
                { showing with
                  changes := showing.changes
                    ++ [{ key := name.key, record := some incoming.content, data := true }] }
        | none =>
            showRows state id time rest
              { showing with
                changes := showing.changes ++ [{ key := name.key, record := some incoming.content }]
                added := showing.added ++ [name] }

def commitTask (state : State) (id : Bytes) (replica : Replica Record Error)
    (task : Replica.Task Record Error) (batch : Origin.Batch Record)
    (rows : List (Name × Record)) (showing : Showing) (stage : Stage Content)
    : State :=
  let source := batch.commit
  let released := task.previous.foldl (fun agenda name => Agenda.hold agenda name none)
    replica.agenda
  { state with
    replicas :=
      state.replicas.set id
        { replica with
          source
          agenda :=
            rows.foldl (fun agenda row => Agenda.hold agenda row.1 (some row.2.deadline)) released
          coverage := Replica.noteWhole task.scope task.draft.position replica.coverage }
    replicaBytes := state.replicaBytes - task.bytes + source.charged
    owners :=
      showing.removed.foldl (fun owners name => owners.remove name)
        (showing.added.foldl (fun owners name => owners.set name id) state.owners)
    stage }

/-- `install` from its final time on. -/
def installAt (layout : Layout) (state : State) (id : Bytes)
    (task : Replica.Task Record Error) (batch : Origin.Batch Record)
    (rows : List (Name × Record)) (time : Int) (moment : Moment)
    : Reply × State :=
  let state := if rows.isEmpty then state else state.openReplica id time
  match state.replicas.get? id with
  | none => (.error .input, state)
  | some replica =>
      if replica.coverage.all (·.name ≠ Replica.whole task.scope)
          ∧ replica.coverage.countP (·.name.key.isEmpty) ≥ state.limits.source.scopes * 2 then
        (.error .capacity, state)
      else
        let hidden := state.hideRows id task.draft time task.previous
        match state.showRows id time rows
          { changes := hidden.map fun name => { key := name.key, record := none }
            removed := hidden } with
        | .error refused => (.error refused, state)
        | .ok showing =>
            match if showing.changes.isEmpty then .ok state.stage
              else (state.stage.obtain' task.scope).bind fun stage =>
                stage.changes layout.measure task.scope showing.changes moment.steady with
            | .error refused => (.error (.ofScene refused), state)
            | .ok stage =>
                if batch.charged > state.limits.replicaBytes ∨ state.replicaBytes - task.bytes
                      > state.limits.replicaBytes - batch.charged then
                  (.error .capacity, state)
                else
                  match state.reading (moment.sample 1) with
                  | none => (.error .clock, state)
                  | some (stamp, state) =>
                      if showing.earliest.any (· ≤ stamp.time) then
                        (.error .ended, state)
                      else
                        (.ok (), state.commitTask id replica task batch rows showing stage)

/-- `install` after it has the lock again. The copy is given up in any case. -/
def complete (layout : Layout) (state : State) (id : Bytes) (moment : Moment)
    : Reply × State :=
  match state.replicas.get? id with
  | none => (.error .input, state)
  | some replica =>
      match replica.task with
      | none => (.error .input, state)
      | some task =>
          let state := state.amendReplica id fun replica => { replica with task := none }
          match task.prepared with
          | .error reply => (reply, state)
          | .ok (batch, rows) =>
              if replica.retired then
                (.error .obsolete, state)
              else
                match state.reading (moment.sample 0) with
                | none => (.error .clock, state)
                | some (stamp, state) =>
                    match state.advance layout moment stamp.time (some id) with
                    | (state, some fault) => (.thrown fault, state)
                    | (state, none) =>
                        state.installAt layout id task batch rows stamp.time moment

-- Steps

inductive Action where
  | create (name : Name) (attr data : Bytes) (ttl : Nat) (moment : Moment)
  | change (name : Name) (request : Request) (moment : Moment)
  | remove (name : Name) (moment : Moment)
  | tick (moment : Moment)
  | read (moment : Moment)
  | admitReplica (id : Bytes)
  | retire (id : Bytes)
  | covered (id : Bytes) (position : Nat) (name : Name) (steady : Int)
  | receive (id : Bytes) (fact : Fact) (moment : Moment)
  | begin (id : Bytes) (draft : Origin.Draft Record) (scope : Scope) (moment : Moment)
  | complete (id : Bytes) (moment : Moment)
  | finish (id : Bytes) (position : Nat)

/-- Whether nobody holds a copy; others wait for it outside the lock. -/
def free (state : State) (id : Bytes) : Bool :=
  (state.replicas.get? id).all (!·.busy)

def prepares (state : State) (id : Bytes) : Bool :=
  (state.replicas.get? id).any (·.busy)

def step (layout : Layout) (state : State) : Action → Option State
  | .create name attr data ttl moment => some (state.create layout name attr data ttl moment).2
  | .change name request moment => some (state.change layout name request moment).2
  | .remove name moment => some (state.remove layout name moment).2
  | .tick moment => some (state.tick layout moment).2
  | .read moment => some (state.read layout moment).2
  | .admitReplica id => some (state.admitReplica id).2
  | .retire id => some (state.retire id)
  | .covered id position name steady =>
      if state.free id then some (state.covered layout id position name steady).2 else none
  | .receive id fact moment =>
      if state.free id then some (state.receive layout id fact moment).2 else none
  | .begin id draft scope moment =>
      if state.free id then some (state.begin layout id draft scope moment).2 else none
  | .complete id moment =>
      if state.prepares id then some (state.complete layout id moment).2 else none
  | .finish id position =>
      if state.free id then some (state.finish id position).2 else none

end State

end Astra.Ephemeris
