import Verdandi.Common.Wire
import Verdandi.Star.Pagination
import Verdandi.Support.Assoc

/-! The client side of a watch stream: pages are collected in a private candidate, and only the
last page of a batch replaces the installed content. `Projection`, `Subscription` and
`Selection` differ in their keys, records and rows, so one installer stands for the three.
-/

namespace Comet

open Astra Support Proto

inductive Code where
  | history
  | limit
  | protocol
  deriving DecidableEq, Repr

/-- What differs between the three kinds of views. `install` is what a row does to the
candidate: set a record, erase the key, or refuse; it sees the record that is installed now.
`crossing` says that the version order holds across instances.
-/
structure Policy (Change Record : Type) where
  key : Change → Bytes
  valid : Bytes → Bool
  size : WatchReply Change → Nat
  measure : Record → Nat
  install : Mode → Option Record → Change → Except Code (Option Record)
  crossing : Bool := false
  repairs : Bool := false

structure Contents (Record : Type) where
  data : Assoc Bytes Record
  «instance» : Bytes
  version : Nat

/-- The state of a view between pages. The byte counter of the deduplication set only serves
its footprint and is left out.
-/
structure Installer (Record : Type) where
  target : Bytes := []
  bytes : Nat
  records : Nat
  current : Option (Contents Record) := none
  draft : Option (Assoc Bytes Record) := none
  seen : List Bytes := []
  expected : Bytes := []
  mode : Mode := .unspecified
  first : Bool := true
  repaired : Bool := false
  fresh : Bool := false
  valid : Bool := false

/-- The checks that depend on the allocator and on the budget that all views of a client share:
whether a candidate with its deduplication set may be held, and whether a finished table is
within the footprint of the view.
-/
structure Room (Record : Type) where
  prepared : Assoc Bytes Record → List Bytes → Bool
  published : Assoc Bytes Record → Bool

structure Work (Record : Type) where
  draft : Assoc Bytes Record
  seen : List Bytes

variable {Change Record : Type}

/-- The logical bytes of a table: every key with the payload of its record. -/
def weigh (policy : Policy Change Record) (data : Assoc Bytes Record) : Nat :=
  data.weight fun key record => key.length + policy.measure record

namespace Installer

-- Operations

def discard (installer : Installer Record) : Installer Record :=
  { installer with draft := none, seen := [], mode := .unspecified }

def begin (installer : Installer Record) (expected : Bytes) : Installer Record :=
  { installer.discard with expected, first := true, valid := true }

def fail (installer : Installer Record) : Installer Record :=
  { installer.discard with valid := false }

/-- One single recovery from a missing base, with a whole new batch. -/
def repair (policy : Policy Change Record) (installer : Installer Record) (code : Code)
    : Installer Record × Bool :=
  if !policy.repairs || code != .history || installer.repaired then
    (installer, false)
  else
    ({ installer with repaired := true, fresh := true }, true)

/-- Whether the next stream may continue from the installed version. -/
def resume (installer : Installer Record) : Bool :=
  !installer.fresh

/-- Start a candidate with the first page of a batch, or continue the one under way. -/
def open' (installer : Installer Record) (mode : Mode) : Except Code (Installer Record) :=
  match installer.draft with
  | none =>
      if (mode = .reset ∧ installer.first = false)
          ∨ (mode = .apply ∧ (installer.current.isNone ∨ installer.fresh = true)) then
        .error .protocol
      else
        .ok
          { installer with
            mode
            draft := some <|
              if mode = .reset then ∅ else installer.current.elim ∅ Contents.data }
  | some _ => if installer.mode ≠ mode then .error .protocol else .ok installer

/-- Take one row into the candidate. A set may come before the erase of another key, so the
candidate may be twice as large as the view. -/
def row (policy : Policy Change Record) (installer : Installer Record) (track : Bool)
    (work : Work Record) (change : Change)
    : Except Code (Work Record) :=
  let key := policy.key change
  if !policy.valid key || (!installer.target.isEmpty && installer.target != key) then
    .error .protocol
  else if track && work.seen.length == installer.records * 2 then
    .error (if work.seen.contains key then .protocol else .limit)
  else if track && work.seen.contains key then
    .error .protocol
  else
    match policy.install installer.mode (installer.current.bind (·.data.get? key)) change with
    | .error code => .error code
    | .ok record =>
        let draft := work.draft.amend key record
        if draft.size > installer.records * 2 ∨ weigh policy draft > installer.bytes * 2 then
          .error .limit
        else
          .ok { draft, seen := if track then key :: work.seen else work.seen }

def wellFormed (policy : Policy Change Record) (installer : Installer Record)
    (page : WatchReply Change)
    : Bool :=
  installer.valid && (page.mode == .reset || page.mode == .apply)
    && page.complete == page.version.isSome
    && page.complete == !page.instance.isEmpty
    && (page.complete || !page.changes.isEmpty)
    && policy.size page ≤ 8 * 1024 * 1024

def continues (policy : Policy Change Record) (installer : Installer Record)
    (page : WatchReply Change)
    : Bool :=
  Scope.text page.instance 128
    && (installer.expected.isEmpty || installer.expected == page.instance)
    && installer.current.all fun held =>
        (!policy.crossing && held.instance != page.instance)
          || held.version ≤ page.version.getD 0

/-- Changes end at the instance that they started from; at the installed version only an empty
first batch does.
-/
def advances (installer : Installer Record) (page : WatchReply Change) : Bool :=
  installer.current.all fun held =>
    held.instance == page.instance
      && (page.version.getD 0 != held.version
        || (installer.first && installer.seen.isEmpty && page.changes.isEmpty))

def attempt (policy : Policy Change Record) (room : Room Record) (installer : Installer Record)
    (page : WatchReply Change)
    : Except Code (Installer Record) :=
  if !installer.wellFormed policy page then
    .error .protocol
  else if page.complete && !installer.continues policy page then
    .error .protocol
  else
    match installer.open' page.mode with
    | .error code => .error code
    | .ok opened =>
        if page.complete && opened.mode == .apply && !opened.advances page then
          .error .protocol
        else
          let track := !page.complete || page.changes.length != 1 || !opened.seen.isEmpty
          match page.changes.foldlM (opened.row policy track)
              { draft := opened.draft.getD ∅, seen := opened.seen } with
          | .error code => .error code
          | .ok work =>
              if !room.prepared work.draft work.seen then
                .error .limit
              else if !page.complete then
                .ok { opened with draft := some work.draft, seen := work.seen }
              else if work.draft.size > installer.records
                  ∨ weigh policy work.draft > installer.bytes then
                .error .limit
              else if page.version.getD 0 = 0 ∧ work.draft.size ≠ 0 then
                .error .protocol
              else if !room.published work.draft then
                .error .limit
              else
                .ok
                  (discard
                    { opened with
                      current := some
                        { data := work.draft
                          «instance» := page.instance
                          version := page.version.getD 0 }
                      expected := page.instance
                      first := false
                      fresh := false })

/-- `accept`: an accepted page may install a content; a refused one ends the stream. -/
def accept (policy : Policy Change Record) (room : Room Record) (installer : Installer Record)
    (page : WatchReply Change)
    : Installer Record × Except Code Unit :=
  match installer.attempt policy room page with
  | .error code => (installer.fail, .error code)
  | .ok next => (next, .ok ())

/-- Feed the pages of a batch in order, up to the first one that is refused. -/
def feed (policy : Policy Change Record) (room : Room Record) (installer : Installer Record)
    : List (WatchReply Change) → Installer Record × Except Code Unit
  | [] => (installer, .ok ())
  | page :: rest =>
      match installer.accept policy room page with
      | (next, .ok ()) => next.feed policy room rest
      | refused => refused

end Installer

-- The three kinds of views

def payload : Nat := 1024 * 1024

namespace Projection

def install (mode : Mode) (_ : Option Bytes) (change : AlmanacChange)
    : Except Code (Option Bytes) :=
  match change.action with
  | .value value => if value.length > payload then .error .limit else .ok (some value)
  | .erase => if mode ≠ .apply then .error .protocol else .ok none
  | .unset => .error .protocol

end Projection

/-- `Projection`: the view of a `Reader`. The authority is one for all instances, so its
versions are ordered across them.
-/
def projection : Policy AlmanacChange Bytes where
  key := AlmanacChange.key
  valid key := Scope.text key 1024
  size := Wire.page Wire.almanacChange
  measure := List.length
  install := Projection.install
  crossing := true

namespace Subscription

def install (mode : Mode) (_ : Option Catalog.Content) (change : CatalogChange)
    : Except Code (Option Catalog.Content) :=
  match change.action with
  | .value value =>
      if change.version = 0 then
        .error .protocol
      else if value.length > payload then
        .error .limit
      else
        .ok (some { version := change.version, value })
  | .erase => if mode ≠ .apply ∨ change.version ≠ 0 then .error .protocol else .ok none
  | .unset => .error .protocol

end Subscription

/-- `Subscription`: the view of a `Subscriber`. -/
def subscription : Policy CatalogChange Catalog.Content where
  key := CatalogChange.key
  valid key := Scope.text key 1024
  size := Wire.page Wire.catalogChange
  measure record := record.value.length
  install := Subscription.install

namespace Selection

/-- What a row of an Ephemeris does. A known UUID keeps its attribute, and data alone needs
the installed one.
-/
def install (mode : Mode) (old : Option Ephemeris.Content) (change : EphemerisChange)
    : Except Code (Option Ephemeris.Content) :=
  match change.action with
  | .record attr data =>
      if attr.length > payload ∨ data.length > payload then
        .error .limit
      else if mode = .apply ∧ old.any (·.attr != attr) then
        .error .protocol
      else
        .ok (some { attr, data })
  | .data data =>
      if mode ≠ .apply then
        .error .protocol
      else if data.length > payload then
        .error .limit
      else
        match old with
        | none => .error .history
        | some held => .ok (some { held with data })
  | .erase => if mode ≠ .apply then .error .protocol else .ok none
  | .unset => .error .protocol

end Selection

/-- `Selection`: the view of an `Observer`. -/
def selection : Policy EphemerisChange Ephemeris.Content where
  key := EphemerisChange.uuid
  valid := Ephemeris.valid
  size := Wire.page Wire.ephemerisChange
  measure record := record.attr.length + record.data.length
  install := Selection.install
  repairs := true

end Comet
