import Verdandi.Common.Member
import Verdandi.Support.Assoc

/-! The admission ledger: which start of a deployment is the current one. It lives in memory and
in a database, from which it is restored after a restart.
-/

namespace Astra

open Support

namespace Ledger

/-- The `Member` message as it is stored: the deployment is written as text. -/
structure Encoded where
  galaxy : Bytes
  id : Bytes
  principal : Bytes
  advertise : Bytes
  epoch : Nat
  role : Nat
  group : Bytes
  deriving DecidableEq

/-- What is used of other libraries: the address conversions and the Protobuf coding. -/
structure Library where
  net : Net
  serialize : Encoded → Bytes
  parse : Bytes → Option Encoded

def encodeRole : Member.Role → Nat
  | .star => 1
  | .planet => 2
  | .polaris => 3
  | .astrolabe => 4

def decodeRole : Nat → Result Member.Role
  | 1 => .ok .star
  | 2 => .ok .planet
  | 3 => .ok .polaris
  | 4 => .ok .astrolabe
  | _ => .error (.identity "Unknown infrastructure role")

/-- `Identity::encode`, with the deployment as text. -/
def encode (member : Member) : Encoded where
  galaxy := member.galaxy
  id := member.id
  principal := member.principal.text
  advertise := member.address.text
  epoch := member.epoch
  role := encodeRole member.role
  group := member.group

/-- `decode_member`, for a message whose deployment is 32 raw bytes. -/
def decodeMember (net : Net) (value : Encoded) : Result Member :=
  if length : value.principal.length = 32 then
    match Endpoint.parse net value.advertise, decodeRole value.role with
    | .ok address, .ok role =>
        if !Member.validId value.id ∨ address.text ≠ value.advertise then
          .error (.identity "Invalid encoded member")
        else
          let member : Member :=
            { galaxy := value.galaxy
              id := value.id
              principal := { bytes := value.principal, length }
              address
              epoch := value.epoch
              role
              group := value.group }
          match member.validate net with
          | .error failure => .error failure
          | .ok () => .ok member
    | _, _ => .error (.identity "Invalid encoded member")
  else
    .error (.identity "Invalid encoded member")

-- The database

/-- The lowest `width` bytes of a number, the highest first. -/
def bigEndian : Nat → Nat → Bytes
  | 0, _ => []
  | width + 1, value => UInt8.ofNat (value / 256 ^ width) :: bigEndian width value

/-- The two tables: the current member of a deployment, and the deployment and epoch of a start
request.
-/
structure Database where
  members : Assoc Bytes Bytes := ∅
  starts : Assoc Bytes (Bytes × Bytes) := ∅

namespace Database

def epoch (value : Nat) : Bytes := bigEndian 8 value

def number (value : Bytes) : Option Nat :=
  let result := value.foldl (fun result byte => result * 256 + byte.toNat) 0
  if value.length = 8 ∧ result ≠ 0 then some result else none

/-- Both statements of a registration, under the constraints of the schema. -/
def insert (database : Database) (principal body request epoch : Bytes) : Option Database :=
  if principal.length ≠ 64 ∨ body.isEmpty ∨ body.length > 1024 ∨ request.length ≠ 32
      ∨ epoch.length ≠ 8
      ∨ database.starts.contains request
      ∨ database.starts.toPairs.any (·.2 = (principal, epoch)) then
    none
  else
    some
      { members := database.members.set principal body
        starts := database.starts.set request (principal, epoch) }

/-- The rows of `SELECT principal,body FROM members ORDER BY principal`. -/
def memberRows (database : Database) : List (Bytes × Bytes) :=
  database.members.toPairs.mergeSort fun left right => left.1.rank ≤ right.1.rank

/-- The place of a row of `starts` by deployment and epoch, byte by byte. -/
def place (row : Bytes × Bytes × Bytes) : List ℕ ×ₗ List ℕ :=
  toLex (row.2.1.rank, row.2.2.rank)

/-- The rows of `SELECT request,principal,epoch FROM starts ORDER BY principal,epoch`. -/
def startRows (database : Database) : List (Bytes × Bytes × Bytes) :=
  database.starts.toPairs.mergeSort fun left right => place left ≤ place right

end Database

-- Restoring

structure Config where
  galaxy : Bytes
  maximum : Nat
  maximumStarts : Nat

structure Start where
  principal : Bytes
  epoch : Nat
  deriving DecidableEq

structure Roll where
  members : Assoc Bytes Member := ∅
  ids : List Bytes := []
  addresses : List Endpoint := []
  counts : Member.Role → Nat := fun _ => 0

def restoreMember (library : Library) (config : Config) (roll : Roll) (row : Bytes × Bytes)
    : Option Roll :=
  let (principal, body) := row
  if principal.length ≠ 64 ∨ body.isEmpty ∨ body.length > 1024 then
    none
  else
    match library.parse body with
    | none => none
    | some record =>
        match Principal.parse record.principal with
        | .error _ => none
        | .ok digest =>
            if record.principal ≠ principal then
              none
            else
              match decodeMember library.net { record with principal := digest.bytes } with
              | .error _ => none
              | .ok member =>
                  if member.galaxy ≠ config.galaxy ∨ member.principal.text ≠ principal
                      ∨ roll.counts member.role + 1 > config.maximum
                      ∨ roll.ids.contains member.id
                      ∨ roll.addresses.contains member.address
                      ∨ roll.members.contains principal then
                    none
                  else
                    some
                      { members := roll.members.set principal member
                        ids := member.id :: roll.ids
                        addresses := member.address :: roll.addresses
                        counts :=
                          Function.update roll.counts member.role (roll.counts member.role + 1) }

structure Tally where
  starts : Assoc Bytes Start := ∅
  previous : Bytes := []
  sequence : Nat := 0
  deployments : Nat := 0

def current (members : Assoc Bytes Member) (principal : Bytes) : Option Nat :=
  (members.get? principal).map Member.epoch

def complete (members : Assoc Bytes Member) (tally : Tally) : Prop :=
  tally.previous = [] ∨ current members tally.previous = some tally.sequence

instance (members : Assoc Bytes Member) (tally : Tally) : Decidable (complete members tally) := by
  unfold complete
  infer_instance

/-- One row of `starts`: the epochs of a deployment are counted without a gap. -/
def restoreStart (config : Config) (members : Assoc Bytes Member) (tally : Tally)
    (row : Bytes × Bytes × Bytes)
    : Option Tally :=
  let (request, principal, blob) := row
  match Database.number blob, current members principal with
  | some epoch, some last =>
      if request.length ≠ 32 ∨ tally.starts.size ≥ config.maximumStarts
          ∨ (tally.previous ≠ principal ∧ ¬ complete members tally) then
        none
      else
        let sequence := if tally.previous = principal then tally.sequence else 0
        if sequence = maxWord ∨ epoch ≠ sequence + 1 ∨ epoch > last
            ∨ tally.starts.contains request then
          none
        else
          some
            { starts := tally.starts.set request { principal, epoch }
              previous := principal
              sequence := epoch
              deployments :=
                if tally.previous = principal then tally.deployments
                else tally.deployments + 1 }
  | _, _ => none

/-- Read the whole database; whatever is not as the ledger writes it refuses the start. -/
def restore (library : Library) (config : Config) (database : Database)
    : Option (Assoc Bytes Member × Assoc Bytes Start) :=
  match database.memberRows.foldlM (restoreMember library config) {} with
  | none => none
  | some roll =>
      match database.startRows.foldlM (restoreStart config roll.members) {} with
      | none => none
      | some tally =>
          if tally.deployments = roll.members.size ∧ complete roll.members tally then
            some (roll.members, tally.starts)
          else
            none

end Ledger

structure Ledger where
  members : Assoc Bytes Member := ∅
  starts : Assoc Bytes Ledger.Start := ∅
  writable : Bool := true
  database : Ledger.Database := {}

namespace Ledger

-- Registration

def roleCount (members : Assoc Bytes Member) (role : Member.Role) : Nat :=
  (members.filter fun _ member => member.role == role).size

def validate (library : Library) (config : Config) (ledger : Ledger) (member : Member)
    (request : Bytes)
    : Result Unit :=
  let principal := member.principal.text
  let old := ledger.members.get? principal
  if (member.validate library.net).toOption.isNone ∨ member.galaxy ≠ config.galaxy
      ∨ request.length ≠ 32 then
    .error (.configuration "Invalid registration record")
  else if ledger.starts.contains request then
    .error (.conflict "Startup request already committed")
  else if ledger.starts.size ≥ config.maximumStarts then
    .error (.capacity "Startup history capacity reached")
  else if old.elim 0 Member.epoch = maxWord ∨ member.epoch ≠ old.elim 0 Member.epoch + 1
      ∨ (old.any fun old =>
          old.role ≠ member.role ∨ old.address ≠ member.address ∨ old.id = member.id) then
    .error (.conflict "Invalid deployment replacement")
  else if ledger.members.toPairs.any fun entry =>
      entry.1 ≠ principal ∧ (entry.2.id = member.id ∨ entry.2.address = member.address) then
    .error (.conflict "Member identity or endpoint already used")
  else if old.isNone ∧ roleCount ledger.members member.role ≥ config.maximum then
    .error (.capacity "Member capacity reached")
  else
    .ok ()

/-- What becomes of a transaction: it is committed, it is undone, or it is committed while the
ledger is told that it failed.
-/
inductive Fate where
  | done
  | undone
  | uncertain
  deriving DecidableEq, Repr

/-- What a caller learns: the member that its answer was prepared for, a failure, or an
exception.
-/
inductive Answer where
  | accepted (member : Member)
  | refused (failure : Status)
  | thrown
  deriving DecidableEq

/-- Write a member and its start at once. Any failure ends writing until a restart. -/
def commit (ledger : Ledger) (fate : Fate) (member : Member) (request payload : Bytes)
    : Bool × Ledger :=
  match ledger.database.insert member.principal.text payload request
      (Database.epoch member.epoch) with
  | none => (false, { ledger with writable := false })
  | some database =>
      match fate with
      | .done => (true, { ledger with database })
      | .undone => (false, { ledger with writable := false })
      | .uncertain => (false, { ledger with writable := false, database })

/-- Register a start. `throws` says that the answer cannot be prepared. -/
def registerMember (library : Library) (config : Config) (ledger : Ledger) (candidate : Member)
    (request : Bytes) (throws : Bool) (fate : Fate)
    : Answer × Ledger :=
  if ledger.writable = false then
    (.refused (.transport "Registration database requires recovery"), ledger)
  else if request.length ≠ 32 ∨ candidate.epoch ≠ 0 ∨ candidate.galaxy ≠ config.galaxy then
    (.refused (.configuration "Invalid registration input"), ledger)
  else
    let principal := candidate.principal.text
    let old := ledger.members.get? principal
    match ledger.starts.get? request with
    | some start =>
        match old with
        | none =>
            (.refused (.conflict "Startup request no longer matches current deployment"), ledger)
        | some old =>
            if start.principal ≠ principal ∨ start.epoch ≠ old.epoch ∨ old.role ≠ candidate.role
                ∨ old.group ≠ candidate.group ∨ old.address ≠ candidate.address then
              (.refused (.conflict "Startup request no longer matches current deployment"), ledger)
            else if throws then
              (.thrown, ledger)
            else
              (.accepted old, ledger)
    | none =>
        if old.any (·.epoch = maxWord) then
          (.refused (.conflict "Member epoch exhausted"), ledger)
        else
          let member := { candidate with epoch := old.elim 1 (·.epoch + 1) }
          match ledger.validate library config member request with
          | .error failure => (.refused failure, ledger)
          | .ok () =>
              let payload := library.serialize (encode member)
              if throws ∨ payload.isEmpty ∨ payload.length > 1024 then
                (.thrown, ledger)
              else
                match ledger.commit fate member request payload with
                | (false, stopped) =>
                    (.refused (.transport "Registration durability is uncertain; restart required"),
                      stopped)
                | (true, stored) =>
                    (.accepted member,
                      { stored with
                        members := ledger.members.set principal member
                        starts := ledger.starts.set request { principal, epoch := member.epoch } })

def restart (library : Library) (config : Config) (ledger : Ledger) : Option Ledger :=
  (restore library config ledger.database).map fun (members, starts) =>
    { members, starts, database := ledger.database }

end Ledger

end Astra
