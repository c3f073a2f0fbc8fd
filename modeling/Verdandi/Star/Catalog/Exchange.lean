import Verdandi.Star.Catalog.Correctness
import Verdandi.Star.OriginLog
import Verdandi.Star.Restore
import Verdandi.Support.Mirror

/-! One Star that sends its own facts and one that keeps a copy of them. What is sent is taken from
the source at any time and arrives at any time: events, complete states, and single records that
were asked for.
-/

namespace Astra.Catalog

open Support
open Origin (Name)

structure Point where
  position : Nat
  name : Name
  record : Option Record

/-- Both Stars, what was sent, what a receiver has read to complete a renewal, and the tasks that
restore the copy. The log is not there in the code; it says what the source has committed.
-/
structure Exchange where
  sender : State
  receiver : State
  log : List (Entry Name Record) := []
  sent : List (Origin.Event Record) := []
  views : List (Origin.View Record) := []
  points : List Point := []
  read : List (Name × Record) := []
  restores : Assoc Nat (Restore Record State.Error) := ∅
  installing : Option Nat := none

namespace Exchange

def committed (before after : State) : State.Action → List (Entry Name Record)
  | .change name _ _ =>
      if after.source.position = before.source.position then
        []
      else
        [{ key := name, value := after.source.find name }]
  | _ => []

/-- The fact that `Pipe::apply` makes of an event. A renewal carries no value, and is completed by a
record of the same version that was read before.
-/
def complete (event : Origin.Event Record) (previous : Option Record) : Option State.Fact :=
  match event.form, event.record with
  | .record, some record =>
      some { position := event.position, name := event.name, record := some record }
  | .renew, some lease =>
      (previous.filter fun record => record.value.isSome && record.version = lease.version).map
        fun record =>
          { position := event.position
            name := event.name
            record := some { record with deadline := lease.deadline }
            form := .renew }
  | _, _ => none

inductive Action where
  | send (action : State.Action)
  | deliver (since count bytes : Nat)
  | resolve (name : Name)
  | other (action : State.Action)
  | covered (event : Nat) (steady : Int)
  | read (name : Name)
  | apply (event : Nat) (previous : Option Nat) (moment : Moment)
  | repair (point : Nat) (moment : Moment)
  | restore (key view : Nat) (now : Int)
  | begin (key : Nat) (moment : Moment)
  | complete (key : Nat) (moment : Moment)
  | again (key : Nat)
  | finish (key : Nat)
  | drop (key : Nat)

/-- Whether an action of the receiver is one on its copy of the sender. -/
def concerns (id : Bytes) : State.Action → Bool
  | .retire other | .covered other .. | .receive other .. | .begin other .. | .complete other _
  | .finish other _ => other = id
  | _ => false

variable (layout : Layout) (id : Bytes)

/-- `deliver`: the events after a position, or a complete state. -/
def deliver (exchange : Exchange) (since count bytes : Nat) : Exchange :=
  match exchange.sender.source.deliver since count bytes with
  | .error _ => exchange
  | .ok delivery =>
      { exchange with
        sent := exchange.sent ++ delivery.events
        views := exchange.views ++ delivery.baseline.toList }

/-- `restore`: the rows of a complete state are collected, and a task is made of them. -/
def restore (exchange : Exchange) (key view : Nat) (now : Int) : Option Exchange :=
  match exchange.views[view]?, exchange.receiver.replicas.get? id with
  | some view, some replica =>
      match (replica.source.draft view.position).sets layout.traits view.root.toPairs now with
      | .error _ => none
      | .ok draft =>
          match exchange.receiver.restore id draft with
          | .error _ => none
          | .ok scopes =>
              if (exchange.restores.get? key).isSome then
                none
              else
                some { exchange with restores := exchange.restores.set key { draft, scopes } }
  | _, _ => none

/-- `Restore::step` up to where the installation gives up the lock. -/
def begin (exchange : Exchange) (key : Nat) (moment : Moment) : Option Exchange :=
  match exchange.restores.get? key with
  | none => none
  | some restore =>
      match restore.scopes with
      | [] => none
      | scope :: _ =>
          if restore.active && exchange.receiver.free id then
            match exchange.receiver.begin layout id restore.draft scope moment with
            | (some reply, receiver) =>
                some
                  { exchange with
                    receiver
                    restores := exchange.restores.set key (restore.installed .capacity reply) }
            | (none, receiver) => some { exchange with receiver, installing := some key }
          else
            none

/-- The rest of `Restore::step`. -/
def finishScope (exchange : Exchange) (key : Nat) (moment : Moment) : Option Exchange :=
  match exchange.restores.get? key with
  | none => none
  | some restore =>
      if exchange.installing = some key then
        match exchange.receiver.complete layout id moment with
        | (reply, receiver) =>
            some
              { exchange with
                receiver
                restores := exchange.restores.set key (restore.installed .capacity reply)
                installing := none }
      else
        none

/-- `Restore::step` where a round is over. -/
def again (exchange : Exchange) (key : Nat) : Option Exchange :=
  match exchange.restores.get? key with
  | none => none
  | some restore =>
      if restore.active ∧ restore.scopes = [] ∧ restore.deferred ≠ [] then
        some { exchange with restores := exchange.restores.set key restore.again }
      else
        none

/-- `Restore::step` where no Scope is left. -/
def finish (exchange : Exchange) (key : Nat) : Option Exchange :=
  match exchange.restores.get? key with
  | none => none
  | some restore =>
      if restore.active ∧ restore.left = [] ∧ exchange.receiver.free id then
        match exchange.receiver.finish id restore.draft.position with
        | (reply, receiver) =>
            some
              { exchange with
                receiver
                restores := exchange.restores.set key (restore.finished reply) }
      else
        none

def step (exchange : Exchange) : Action → Option Exchange
  | .send action =>
      (exchange.sender.step layout action).map fun sender =>
        { exchange with
          sender
          log := exchange.log ++ committed exchange.sender sender action }
  | .deliver since count bytes => some (exchange.deliver since count bytes)
  | .resolve name =>
      some
        { exchange with
          points := exchange.points ++
            [{ position := exchange.sender.source.position
               name
               record := exchange.sender.source.find name }] }
  | .other action =>
      if concerns id action then
        none
      else
        (exchange.receiver.step layout action).map fun receiver => { exchange with receiver }
  | .covered event steady =>
      exchange.sent[event]?.bind fun event =>
        (exchange.receiver.step layout (.covered id event.position event.name steady)).map
          fun receiver => { exchange with receiver }
  | .read name =>
      if exchange.receiver.free id then
        some
          { exchange with
            read := exchange.read ++
              (((exchange.receiver.replicas.get? id).bind (·.source.find name)).map
                (name, ·)).toList }
      else
        none
  | .apply event previous moment =>
      exchange.sent[event]?.bind fun event =>
        let record := (previous.bind (exchange.read[·]?)).filter (·.1 = event.name)
        (Exchange.complete event (record.map Prod.snd)).bind fun fact =>
          (exchange.receiver.step layout (.receive id fact moment)).map
            fun receiver => { exchange with receiver }
  | .repair point moment =>
      exchange.points[point]?.bind fun point =>
        (exchange.receiver.step layout
          (.receive id
            { position := point.position, name := point.name, record := point.record
              repair := true }
            moment)).map
          fun receiver => { exchange with receiver }
  | .restore key view now => exchange.restore layout id key view now
  | .begin key moment => exchange.begin layout id key moment
  | .complete key moment => exchange.finishScope layout id key moment
  | .again key => exchange.again key
  | .finish key => exchange.finish id key
  | .drop key =>
      if exchange.installing = some key then
        none
      else
        some { exchange with restores := exchange.restores.remove key }

def start (sender receiver : State.Limits) : Exchange where
  sender := State.start sender
  receiver := State.start receiver

end Exchange

end Astra.Catalog
