import Verdandi.Common.Scope
import Verdandi.Support.Assoc
import Verdandi.Support.Pages
import Verdandi.Support.Protobuf
import Verdandi.Support.Run

/-! The stream from Polaris to a Star: what may be in flight until the Star has installed it, and the
pages in which positions, snapshots and patches are sent.
-/

namespace Polaris.Window

open Support
open Support.Protobuf (writeField write)
open Support.Pages (andThen)
open Astra (Bytes Scope)

-- Messages

structure Entry where
  key : Bytes
  value : Option Bytes
  deriving DecidableEq

structure Position where
  scope : Scope
  version : UInt64
  deriving DecidableEq

structure Patch where
  version : UInt64
  change : Entry
  deriving DecidableEq

inductive Packet where
  | plan (positions : List Position) (complete : Bool)
  | snapshot (scope : Scope) (version : UInt64) (entries : List Entry) (complete : Bool)
  | updates (scope : Scope) (patches : List Patch)
  | probe
  deriving DecidableEq

inductive Frame where
  | acknowledged (scope : Option Scope) (version : UInt64)
  | inventory (positions : List (Option Scope × UInt64)) (complete : Bool)
  | other

def nested (number : Nat) (message : Bytes) : Bytes := writeField (number, .bytes message)

def encodeScope (scope : Scope) : Bytes :=
  write [(1, .bytes scope.sector), (2, .bytes scope.spectrum)]

def Entry.encode (entry : Entry) : Bytes :=
  write [(1, .bytes entry.key)] ++ match entry.value with
      | some value => nested 2 value
      | none => nested 3 []

def Position.encode (position : Position) : Bytes :=
  nested 1 (encodeScope position.scope) ++ write [(2, .number position.version.toNat)]

def Patch.encode (patch : Patch) : Bytes :=
  write [(1, .number patch.version.toNat)] ++ nested 2 patch.change.encode

/-- An inventory, a snapshot, updates and the empty message, each under its own number. The version of
a snapshot is there even if it is zero.
-/
def Packet.encode : Packet → Bytes
  | .plan positions complete =>
      nested 3
        (positions.flatMap (fun position => nested 1 position.encode)
          ++ write [(2, .number complete.toNat)])
  | .snapshot scope version entries complete =>
      nested 4
        (nested 1 (encodeScope scope) ++ entries.flatMap (fun entry => nested 2 entry.encode)
          ++ write [(3, .number complete.toNat)] ++ writeField (4, .number version.toNat))
  | .updates scope patches =>
      nested 5
        (nested 1 (encodeScope scope) ++ patches.flatMap (fun patch => nested 2 patch.encode))
  | .probe => nested 7 []

def Packet.size (packet : Packet) : Nat := packet.encode.length

-- The window

inductive Failure where
  | closed
  | capacity
  | record
  | frame
  | exceeded
  | inventory
  | overflow
  | lost
  | ahead
  | unexpected
  | overlap
  deriving DecidableEq

structure Credit where
  scope : Scope
  version : UInt64
  bytes : Nat
  deriving DecidableEq

def Credit.covered (item : Credit) (scope : Scope) (version : UInt64) : Bool :=
  item.scope = scope ∧ item.version ≤ version

/-- A stream. Of the frames to come, `none` is an error, or one of a Star that was replaced; `arrived`
tells how many are there whenever they are looked for without waiting, and `links` how many sends get
through yet. `wire` is what was sent.
-/
structure Transfer where
  maximum : Nat
  scopes : Nat
  installed : Assoc Scope UInt64 := ∅
  sent : Assoc Scope UInt64 := ∅
  probe : Option (Assoc Scope UInt64) := none
  floor : Assoc Scope UInt64 := ∅
  actual : Option (Assoc Scope UInt64) := none
  credits : List Credit := []
  bytes : Int := 0
  input : List (Option Frame) := []
  arrived : List Nat := []
  links : Nat := 0
  wire : List Packet := []
  failed : Bool := false

/-- The result of an operation: a failure ends the stream. -/
abbrev Result := Option Failure × Transfer

def raise (versions : Assoc Scope UInt64) (scope : Scope) (version : UInt64) : Assoc Scope UInt64 :=
  versions.set scope (max ((versions.get? scope).getD 0) version)

def released (scope : Scope) (version : UInt64) : List Credit → Int → List Credit × Int
  | [], bytes => ([], bytes)
  | item :: rest, bytes =>
      if item.covered scope version then
        released scope version rest (bytes - item.bytes)
      else
        let (kept, left) := released scope version rest bytes
        (item :: kept, left)

/-- `positions`: an inventory names every scope once. -/
def collect (scopes : Nat)
    : List (Option Scope × UInt64) → Assoc Scope UInt64 → Except Failure (Assoc Scope UInt64)
  | [], target => .ok target
  | (none, _) :: _, _ => .error .inventory
  | (some scope, version) :: rest, target =>
      if (target.get? scope).isSome ∨ !scope.valid then
        .error .inventory
      else if target.size ≥ scopes then
        .error .overflow
      else
        collect scopes rest (target.set scope version)

namespace Transfer

def release (transfer : Transfer) (scope : Scope) (version : UInt64) : Transfer :=
  let (credits, bytes) := released scope version transfer.credits transfer.bytes
  { transfer with credits, bytes }

def install (transfer : Transfer) (scope : Scope) (version : UInt64) : Transfer :=
  { transfer with installed := raise transfer.installed scope version }.release scope version

def reached (transfer : Transfer) (scope : Scope) (version : UInt64) : Bool :=
  (transfer.sent.get? scope).any (version ≤ ·)

/-- The positions of a whole inventory. The order of the map is any; a failure ends the stream. -/
def confirm : List (Scope × UInt64) → Transfer → Result
  | [], transfer => (none, transfer)
  | (scope, version) :: rest, transfer =>
      if !transfer.reached scope version then
        (some .ahead, transfer)
      else
        confirm rest (transfer.install scope version)

def control (transfer : Transfer) : Frame → Result
  | .acknowledged (some scope) version =>
      if !scope.valid ∨ !transfer.reached scope version then
        (some .exceeded, transfer)
      else
        (none, transfer.install scope version)
  | .inventory positions complete =>
      match transfer.probe with
      | none => (some .unexpected, transfer)
      | some probe =>
          match collect transfer.scopes positions probe with
          | .error failure => (some failure, transfer)
          | .ok probe =>
              let transfer := { transfer with probe := some probe }
              if !complete then
                (none, transfer)
              else if transfer.floor.toPairs.any
                  (fun (scope, minimum) => (probe.get? scope).all (· < minimum)) then
                (some .lost, transfer)
              else
                andThen (confirm probe.toPairs transfer) fun transfer =>
                  (none, { transfer with actual := some probe, probe := none })
  | _ => (some .unexpected, transfer)

def full (transfer : Transfer) (cost : Nat) : Bool :=
  !transfer.credits.isEmpty && (128 ≤ transfer.credits.length || 8 * 2 ^ 20 - transfer.bytes < cost)

/-- The loop of `budget`: as long as there is no room only frames are taken. -/
def await (cost : Nat) : List (Option Frame) → Transfer → Result
  | [], transfer =>
      (if transfer.full cost then some .closed else none, { transfer with input := [] })
  | item :: rest, transfer =>
      if transfer.full cost then
        match item with
        | none => (some .closed, transfer)
        | some frame => andThen (transfer.control frame) (await cost rest)
      else
        (none, { transfer with input := item :: rest })

def budget (transfer : Transfer) (cost : Nat) : Result := await cost transfer.input transfer

def take : Nat → Transfer → Result
  | 0, transfer => (none, transfer)
  | count + 1, transfer =>
      match transfer.input with
      | [] => (none, transfer)
      | none :: _ => (some .closed, transfer)
      | some frame :: rest =>
          andThen ({ transfer with input := rest }.control frame) (take count)

def drain (transfer : Transfer) : Result :=
  take (min 16 (transfer.arrived.headD 0)) { transfer with arrived := transfer.arrived.tail }

def send (transfer : Transfer) (packet : Packet) : Result :=
  if transfer.links = 0 then
    (some .closed, transfer)
  else if packet.size > transfer.maximum then
    (some .frame, transfer)
  else
    (none, { transfer with links := transfer.links - 1, wire := transfer.wire ++ [packet] })

def charge (transfer : Transfer) (scope : Scope) (version : UInt64) (cost : Nat) : Transfer :=
  { transfer with
    sent := raise transfer.sent scope version
    credits := transfer.credits ++ [{ scope, version, bytes := cost }]
    bytes := transfer.bytes + cost }

-- Pages

def target (maximum : Nat) : Nat := min maximum (256 * 2 ^ 10)

def planPages (maximum : Nat) : Pages Position Failure where
  base := 16
  limit := target maximum
  cost position := position.encode.length + 6
  refuse _ := none

def manifest (transfer : Transfer) (positions : List Position) : Result :=
  Pages.pack (planPages transfer.maximum)
    (fun page complete transfer => transfer.send (.plan page complete)) positions []
    (planPages transfer.maximum).base transfer

def updates (transfer : Transfer) (scope : Scope) (patches : List Patch) : Result :=
  let packet := Packet.updates scope patches
  andThen (transfer.budget packet.size) fun transfer =>
    andThen (transfer.send packet) fun transfer =>
      (none, transfer.charge scope ((patches.getLast?.map Patch.version).getD 0) packet.size)

/-- Unlike those of a snapshot, single patches are not compared with the maximum before they are sent. -/
def updatePages (maximum : Nat) (scope : Scope) : Pages Patch Failure where
  base := (nested 1 (encodeScope scope)).length + 16
  limit := target maximum
  cost patch := patch.encode.length + 6
  refuse _ := none

def update (transfer : Transfer) (scope : Scope) (changes : List Patch) : Result :=
  Pages.pack (updatePages transfer.maximum scope)
    (fun page complete transfer =>
      if page.isEmpty then
        (none, transfer)
      else
        andThen (transfer.updates scope page) fun transfer =>
          if complete then (none, transfer) else transfer.drain)
    changes [] (updatePages transfer.maximum scope).base transfer

end Transfer

structure Snapshot where
  scope : Scope
  version : UInt64
  records : List (Bytes × Bytes)

def Snapshot.entries (snapshot : Snapshot) : List Entry :=
  snapshot.records.map fun (key, value) => { key, value := some value }

def Snapshot.cost (snapshot : Snapshot) : Nat :=
  64 + snapshot.scope.sector.length + snapshot.scope.spectrum.length
    + (snapshot.records.map fun (key, value) => 32 + key.length + value.length).sum

def Snapshot.pages (snapshot : Snapshot) (maximum : Nat) : Pages Entry Failure where
  base := (encodeScope snapshot.scope).length + 32
  limit := Transfer.target maximum
  cost entry := entry.encode.length + 6
  refuse entry :=
    if (encodeScope snapshot.scope).length + 32 + (entry.encode.length + 6) > maximum then
      some .record
    else
      none

/-- `pages`, for any way to send a page. -/
def pages {State : Type} (snapshot : Snapshot) (maximum : Nat)
    (send : List Entry → Bool → State → Option Failure × State) (state : State)
    : Option Failure × State :=
  if maximum < 1024 ∨ maximum > 8 * 2 ^ 20 then
    (some .capacity, state)
  else
    Pages.pack (snapshot.pages maximum) send snapshot.entries [] (snapshot.pages maximum).base state

namespace Transfer

/-- Frames are taken between the pages, but not after the last one, whose credit is not there yet. -/
def page (snapshot : Snapshot) (entries : List Entry) (complete : Bool) (transfer : Transfer)
    : Result :=
  andThen (transfer.send (.snapshot snapshot.scope snapshot.version entries complete))
    fun transfer => if complete then (none, transfer) else transfer.drain

def snapshot (transfer : Transfer) (snapshot : Snapshot) : Result :=
  andThen (transfer.budget snapshot.cost) fun transfer =>
    andThen (pages snapshot transfer.maximum (page snapshot) transfer) fun transfer =>
      (none, transfer.charge snapshot.scope snapshot.version snapshot.cost)

def assess (transfer : Transfer) : Result :=
  if transfer.probe.isSome ∨ transfer.actual.isSome then
    (some .overlap, transfer)
  else
    { transfer with probe := some ∅, floor := transfer.installed }.send .probe

/-- How `reconcile` begins: what a Star has is compared with the authority. -/
def examine (transfer : Transfer) (authoritative : Assoc Scope UInt64) : Result :=
  match transfer.actual with
  | none => (none, transfer)
  | some actual =>
      if actual.toPairs.any fun (scope, version) =>
          (authoritative.get? scope).all (· < version)
            || (transfer.sent.get? scope).getD 0 < version then
        (some .ahead, transfer)
      else
        (none,
          { transfer with
            actual := none
            installed :=
              actual.toPairs.foldl (fun installed (scope, version) => raise installed scope version)
                transfer.installed })

/-- What happens to a stream, in any order. Of `reconcile` the updates and snapshots between `examine`
and `settle` are steps of their own.
-/
inductive Step where
  | manifest (positions : List Position)
  | update (scope : Scope) (changes : List Patch)
  | snapshot (snapshot : Snapshot)
  | drain
  | next
  | assess
  | examine (authoritative : Assoc Scope UInt64)
  | settle

def perform (transfer : Transfer) : Step → Result
  | .manifest positions => transfer.manifest positions
  | .update scope changes => transfer.update scope changes
  | .snapshot snapshot => transfer.snapshot snapshot
  | .drain => transfer.drain
  | .next => transfer.take 1
  | .assess => transfer.assess
  | .examine authoritative => transfer.examine authoritative
  | .settle => (none, { transfer with floor := ∅ })

def act (transfer : Transfer) (step : Step) : Option Transfer :=
  if transfer.failed then
    none
  else
    let (failure, next) := transfer.perform step
    some { next with failed := failure.isSome }

/-- A stream that begins: the maximum that the Star declares has been checked. -/
structure Fresh (transfer : Transfer) : Prop where
  credits : transfer.credits = []
  bytes : transfer.bytes = 0
  wire : transfer.wire = []
  capacity : 1024 ≤ transfer.maximum ∧ transfer.maximum ≤ 8 * 2 ^ 20

def total (credits : List Credit) : Int := ((credits.map Credit.bytes).sum : Nat)

/-- What holds of the window, and what is sent is not too large for the Star. -/
structure Within (transfer : Transfer) : Prop where
  bytes : transfer.bytes = total transfer.credits
  count : transfer.credits.length ≤ 128
  room : transfer.bytes ≤ 8 * 2 ^ 20 ∨ transfer.credits.length = 1
  small : ∀ packet ∈ transfer.wire, packet.size ≤ transfer.maximum

end Transfer

end Polaris.Window
