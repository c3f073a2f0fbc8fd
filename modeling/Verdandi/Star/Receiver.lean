import Verdandi.Common.Proto
import Verdandi.Common.Status
import Verdandi.Star.Access
import Verdandi.Star.Library

/-! The receiving end of one authority stream: it checks each frame, fills a private
candidate from snapshot pages, commits patches one by one, and closes at the first failure.
Messages are taken after Protobuf decoding; the decoder of a credential is a parameter.
-/

namespace Astra

open Support

namespace Polaris

open Proto

structure Inventory where
  positions : List Library.Position
  complete : Bool

structure Snapshot where
  scope : Scope
  entries : List AlmanacChange
  complete : Bool
  version : Option Nat

structure Patch where
  version : Nat
  change : Option AlmanacChange

structure Updates where
  scope : Scope
  patches : List Patch

inductive Body where
  | unset
  | hello
  | inventory (page : Inventory)
  | plan (page : Inventory)
  | snapshot (page : Snapshot)
  | updates (page : Updates)
  | acknowledged (position : Library.Position)
  | probe
  | ready

structure Packet where
  body : Body
  size : Nat

end Polaris

open Polaris Proto

/-- What the receivers of all streams share: the routing table and its login table. -/
structure Shared where
  library : Library := {}
  access : Access := {}

structure Receiver where
  plan : Assoc Scope Nat := ∅
  acknowledgements : Assoc Scope Nat := ∅
  inventory : Option (List Library.Position) := none
  position : Nat := 0
  draft : Option Library.Draft := none
  credentials : Option Access.Draft := none
  planned : Bool := false
  ready : Bool := false
  failed : Bool := false

namespace Receiver

-- Checks

section

-- `ParseFromString` on a `Credential`, then `secret()`: `none` for bytes that do not parse.
variable (parse : Bytes → Option Bytes)

def create (library : Library) : Receiver where
  inventory := some library.positions

/-- A stream is ready once it saw `ready` and has not failed since. -/
def isReady (receiver : Receiver) : Bool :=
  receiver.ready && !receiver.failed

/-- Check one key's modification; a snapshot takes no Delete, and the records of the
credential Scope must parse to an acceptable secret.
-/
def valid (scope : Scope) (change : AlmanacChange) (snapshot : Bool) : Bool :=
  if !Scope.text change.key 1024 || change.action = .unset
      || (snapshot && change.payload.isNone) || change.value.length > 1024 * 1024 then
    false
  else if scope ≠ Scope.auth then
    true
  else if change.key.length > 128 || change.value.length > 8192 then
    false
  else if change.action = .erase then
    true
  else
    (parse change.value).any fun secret => !secret.isEmpty && secret.length ≤ 4096

def failure : Almanac.Error → Status
  | .capacity => .capacity "Almanac installation capacity exceeded"
  | .version | .history | .unready => .conflict "Almanac installation is not continuous"
  | .input | .duplicate => .protocol "Invalid Almanac installation data"

-- Frames

def planPositions (library : Library)
    : Assoc Scope Nat → List Library.Position → Result (Assoc Scope Nat)
  | plan, [] => .ok plan
  | plan, position :: rest =>
      if !position.scope.valid || plan.contains position.scope || plan.size ≥ 4096 then
        .error (.protocol "Invalid or duplicate Almanac plan scope")
      else if (library.find position.scope).any fun book =>
          book.usage.version.any (· > position.version) then
        .error (.conflict "Authority is behind installed Almanac")
      else
        planPositions library (plan.set position.scope position.version) rest

def takePlan (library : Library) (receiver : Receiver) (page : Inventory) : Result Receiver :=
  if receiver.planned then
    .error (.protocol "Repeated initial Almanac plan")
  else
    match planPositions library receiver.plan page.positions with
    | .error status => .error status
    | .ok plan => .ok { receiver with plan, planned := page.complete }

/-- Remember the newest installed position of a Scope for the next acknowledgement. -/
def acknowledge (receiver : Receiver) (scope : Scope) (version : Nat) : Receiver :=
  { receiver with
    acknowledgements :=
      receiver.acknowledgements.set scope
        (max ((receiver.acknowledgements.get? scope).getD 0) version) }

/-- The records of a snapshot page, added to the credential index, if there is one, and to
the candidate.
-/
def fill
    : Option Access.Draft → Library.Draft → List AlmanacChange
      → Result (Option Access.Draft × Library.Draft)
  | credentials, draft, [] => .ok (credentials, draft)
  | none, draft, entry :: rest =>
      match draft.set entry.key entry.value with
      | .error error => .error (failure error)
      | .ok draft => fill none draft rest
  | some credentials, draft, entry :: rest =>
      match (parse entry.value).bind (credentials.set entry.key) with
      | none => .error (.protocol "Invalid credential snapshot index")
      | some credentials =>
          match draft.set entry.key entry.value with
          | .error error => .error (failure error)
          | .ok draft => fill (some credentials) draft rest

/-- The candidate a snapshot page belongs to: the open one, or a new one with a credential
index where the Scope is the credential Scope.
-/
def candidate (store : Shared) (receiver : Receiver) (scope : Scope) (version : Nat)
    : Result (Shared × Option Access.Draft × Library.Draft) :=
  match receiver.draft with
  | some draft => .ok (store, receiver.credentials, draft)
  | none =>
      match store.library.prepare scope version with
      | .error error => .error (failure error)
      | .ok (library, draft) =>
          .ok ({ store with library },
            if scope = Scope.auth then some {} else receiver.credentials, draft)

/-- Install a filled candidate, and with it the credential index if there is one. -/
def install (store : Shared) (credentials : Option Access.Draft) (draft : Library.Draft)
    : Except Almanac.Error (Option Shared) :=
  match credentials with
  | none =>
      match store.library.reset draft with
      | .error error => .error error
      | .ok none => .ok none
      | .ok (some (library, _)) => .ok (some { store with library })
  | some credentials =>
      match store.access.reset credentials (store.library.reset draft) with
      | .error error => .error error
      | .ok none => .ok none
      | .ok (some (access, library, _)) => .ok (some { library, access })

/-- Take one snapshot page. A failure discards the stream's candidate, so only the store and
the receiver of a page that is accepted are returned.
-/
def snapshot (store : Shared) (receiver : Receiver) (page : Snapshot)
    : Result (Shared × Receiver) :=
  match page.version with
  | none => .error (.protocol "Invalid Almanac snapshot page")
  | some version =>
      if !page.scope.valid || page.entries.length > 65536
          || (!page.complete && page.entries.isEmpty) then
        .error (.protocol "Invalid Almanac snapshot page")
      else if !page.entries.all (valid parse page.scope · true) then
        .error (.protocol "Invalid Almanac snapshot record")
      else
        match candidate store receiver page.scope version with
        | .error status => .error status
        | .ok (store, credentials, draft) =>
            if draft.scope ≠ page.scope ∨ draft.version ≠ version then
              .error (.protocol "Almanac snapshot scope or version changed")
            else
              match fill parse credentials draft page.entries with
              | .error status => .error status
              | .ok (credentials, draft) =>
                  if page.complete then
                    match install store credentials draft with
                    | .error error => .error (failure error)
                    | .ok installed =>
                        .ok (installed.getD store,
                          { receiver with draft := none, credentials := none }.acknowledge
                            page.scope version)
                  else
                    .ok (store, { receiver with draft := some draft, credentials })

/-- The numbering check of an update batch: versions are positive and consecutive. -/
def contiguous (scope : Scope) : Nat → List Patch → Bool
  | _, [] => true
  | previous, patch :: rest =>
      match patch.change with
      | none => false
      | some change =>
          if patch.version = 0
              || (previous ≠ 0 && (previous = maxWord || patch.version ≠ previous + 1))
              || !valid parse scope change false then
            false
          else
            contiguous scope patch.version rest

/-- The checks of a whole update batch, made before its first commit. -/
def admits (receiver : Receiver) (page : Updates) : Result Unit :=
  if !page.scope.valid || page.patches.isEmpty || page.patches.length > 65536
      || receiver.draft.isSome then
    .error (.protocol "Invalid Almanac update batch")
  else if !contiguous parse page.scope 0 page.patches then
    .error (.protocol "Invalid or noncontiguous Almanac patches")
  else
    .ok ()

/-- Commit one checked patch, in the credential Scope together with the login table. -/
def commit (store : Shared) (scope : Scope) (version : Nat) (change : AlmanacChange)
    : Result (Option Shared) :=
  let committed := store.library.apply scope version change.key change.payload
  if scope = Scope.auth then
    match change.payload.map parse with
    | some none => .error (.protocol "Invalid credential patch index")
    | secret =>
        match store.access.apply change.key (secret.bind id) committed with
        | .error error => .error (failure error)
        | .ok none => .ok none
        | .ok (some (access, library, _)) => .ok (some { library, access })
  else
    match committed with
    | .error error => .error (failure error)
    | .ok none => .ok none
    | .ok (some (library, _)) => .ok (some { store with library })

/-- One round of the update loop. A patch without a change does not pass the batch's checks.
-/
def patch (store : Shared) (receiver : Receiver) (scope : Scope) (patch : Patch)
    : Result (Shared × Receiver) :=
  match patch.change with
  | none => .error (.protocol "Invalid or noncontiguous Almanac patches")
  | some change =>
      match commit parse store scope patch.version change with
      | .error status => .error status
      | .ok committed =>
          let store := committed.getD store
          .ok (store,
            receiver.acknowledge scope
              (((store.library.find scope).bind (·.usage.version)).getD 0))

/-- The update loop: every patch before the first failure stays committed. -/
def patches (scope : Scope)
    : Shared → Receiver → List Patch → Shared × Receiver × Result Unit
  | store, receiver, [] => (store, receiver, .ok ())
  | store, receiver, next :: rest =>
      match patch parse store receiver scope next with
      | .error status => (store, receiver, .error status)
      | .ok (store, receiver) => patches scope store receiver rest

def updates (store : Shared) (receiver : Receiver) (page : Updates)
    : Shared × Receiver × Result Unit :=
  match admits parse receiver page with
  | .error status => (store, receiver, .error status)
  | .ok () => patches parse page.scope store receiver page.patches

/-- `ready` is accepted when every planned Scope is installed at its minimum at least. -/
def satisfied (library : Library) (plan : Assoc Scope Nat) : Bool :=
  plan.toPairs.all fun (scope, minimum) =>
    (library.find scope).any fun book => book.usage.version.any (minimum ≤ ·)

/-- Keep the store and the receiver of a frame that fails before it changes either. -/
def settle (store : Shared) (receiver : Receiver) : Result (Shared × Receiver)
    → Shared × Receiver × Result Unit
  | .error status => (store, receiver, .error status)
  | .ok (store, receiver) => (store, receiver, .ok ())

def process (store : Shared) (receiver : Receiver) (packet : Packet)
    : Shared × Receiver × Result Unit :=
  if packet.size > 8 * 1024 * 1024 then
    (store, receiver, .error (.capacity "Almanac packet exceeds receive budget"))
  else
    match packet.body with
    | .plan page =>
        settle store receiver ((takePlan store.library receiver page).map (store, ·))
    | body =>
        if !receiver.planned then
          (store, receiver, .error (.protocol "Almanac initial plan is incomplete"))
        else
          match body with
          | .snapshot page => settle store receiver (snapshot parse store receiver page)
          | .updates page => updates parse store receiver page
          | .probe =>
              if receiver.inventory.isSome then
                (store, receiver, .error (.protocol "Overlapping Almanac inventory probes"))
              else
                (store,
                  { receiver with inventory := some store.library.positions, position := 0 },
                  .ok ())
          | .ready =>
              if receiver.ready || receiver.draft.isSome then
                (store, receiver, .error (.protocol "Unexpected Almanac control frame"))
              else if satisfied store.library receiver.plan then
                (store, { receiver with ready := true }, .ok ())
              else
                (store, receiver, .error (.protocol "Premature Almanac readiness"))
          | _ => (store, receiver, .error (.protocol "Unexpected Almanac control frame"))

/-- Close a stream: its candidate is dropped and no later frame is taken. -/
def fail (receiver : Receiver) : Receiver :=
  { receiver with failed := true, draft := none }

/-- Take one frame of an open stream; the first failure closes it. -/
def receive (store : Shared) (receiver : Receiver) (packet : Packet)
    : Shared × Receiver × Result Unit :=
  if receiver.failed then
    (store, receiver, .error (.protocol "Almanac receiver is closed"))
  else
    match process parse store receiver packet with
    | (store, receiver, .ok ()) => (store, receiver, .ok ())
    | (store, receiver, .error status) => (store, receiver.fail, .error status)

/-- The part of `receive` before the loop of an update batch: the gates of the stream and the
checks of the whole batch. The commits of the loop are steps of their own, since the locks
are free between them.
-/
def start (receiver : Receiver) (page : Updates) (size : Nat) : Receiver × Result Unit :=
  if receiver.failed then
    (receiver, .error (.protocol "Almanac receiver is closed"))
  else if size > 8 * 1024 * 1024 then
    (receiver.fail, .error (.capacity "Almanac packet exceeds receive budget"))
  else if !receiver.planned then
    (receiver.fail, .error (.protocol "Almanac initial plan is incomplete"))
  else
    match admits parse receiver page with
    | .error status => (receiver.fail, .error status)
    | .ok () => (receiver, .ok ())

end

-- Outgoing frames

/-- The inventory positions that fit a page of `budget` bytes, of which `bytes` are used. -/
def pagePositions (budget : Nat)
    : Nat → List Library.Position → List Library.Position
  | _, [] => []
  | bytes, position :: rest =>
      let cost := position.scope.sector.length + position.scope.spectrum.length + 32
      if bytes + cost > budget then
        []
      else
        position :: pagePositions budget (bytes + cost) rest

/-- The next control frame: inventory pages first, then acknowledgements. The sizes of the
frames sent are not read by anyone here.
-/
def next (receiver : Receiver) (maximum : Nat) : Except String (Receiver × Option Body) :=
  if maximum < 1024 ∨ maximum > 8 * 1024 * 1024 then
    .error "Invalid Almanac negotiated send capacity"
  else if receiver.failed then
    .ok (receiver, none)
  else
    match receiver.inventory with
    | some inventory =>
        let page :=
          pagePositions (min maximum (256 * 1024)) 32 (inventory.drop receiver.position)
        let position := receiver.position + page.length
        if position = inventory.length then
          .ok ({ receiver with position, inventory := none },
            some (.inventory { positions := page, complete := true }))
        else
          .ok ({ receiver with position },
            some (.inventory { positions := page, complete := false }))
    | none =>
        -- The map of the source is ordered, so its first entry is the least address.
        match receiver.acknowledgements.toPairs.insertionSort
            fun left right => left.1.before right.1 with
        | [] => .ok (receiver, none)
        | (scope, version) :: _ =>
            .ok (
              { receiver with acknowledgements := receiver.acknowledgements.remove scope },
              some (.acknowledged { scope, version }))

end Receiver

end Astra
