import Verdandi.Common.Policy
import Verdandi.Support.Assoc

/-! The directory of a Star: the known members, the one stream that is active with each of them,
and when to dial a member again.
-/

namespace Astra

open Support Policy

/-- What is known of a member. The two slots name the active stream of each direction. -/
structure Topology.Entry where
  member : Member
  outbound : Option Nat := none
  inbound : Option Nat := none
  pending : Bool := false
  failures : Nat := 0
  next : Int := 0
  connected : Int := 0
  deriving DecidableEq

/-- `Star`: the own identity, once it is known, and the members by their deployments. -/
structure Topology where
  self : Option Member := none
  members : Assoc Principal Topology.Entry := ∅

namespace Topology

def Entry.session (entry : Entry) : Direction → Option Nat
  | .outbound => entry.outbound
  | .inbound => entry.inbound

def Entry.put (entry : Entry) (direction : Direction) (session : Option Nat) : Entry :=
  match direction with
  | .outbound => { entry with outbound := session }
  | .inbound => { entry with inbound := session }

def Entry.sessions (entry : Entry) : List Nat :=
  entry.outbound.toList ++ entry.inbound.toList

def nanoseconds (duration : Nat) : Int := (duration : Int) * 1000000

def entries (members : Assoc Principal Entry) : List (Principal × Entry) :=
  members.toPairs.insertionSort fun left right => left.1.bytes.rank ≤ right.1.bytes.rank

-- Complete lists

structure Scan where
  prepared : Assoc Principal Entry := ∅
  previous : Option Bytes := none
  found : Bool := false

/-- The checks of one member of a complete list, which is ordered by ids. -/
def scan (net : Net) (config : Config) (self : Member) : List Member → Scan → Result Scan
  | [], state => .ok state
  | member :: rest, state =>
      if (member.validate net).toOption.isNone ∨ member.galaxy ≠ config.galaxy
          ∨ member.role ≠ .star ∨ state.previous.any fun previous => ¬ previous < member.id then
        .error (.identity "Invalid complete Star list")
      else if member.principal = self.principal then
        if member ≠ self then
          .error (.identity "Complete list conflicts with local identity")
        else
          scan net config self rest { state with previous := some member.id, found := true }
      else if (state.prepared.get? member.principal).isSome then
        .error (.identity "Duplicate principal in complete Star list")
      else
        scan net config self rest
          { state with
            prepared := state.prepared.set member.principal { member }
            previous := some member.id }

def complete (net : Net) (config : Config) (self : Member) (members : List Member)
    : Result (Assoc Principal Entry) :=
  if members.isEmpty ∨ members.length > config.maxMembers then
    .error (.capacity "Invalid complete Star list size")
  else
    match scan net config self members {} with
    | .error failure => .error failure
    | .ok state =>
        if !state.found then
          .error (.identity "Complete list omits local identity")
        else if ¬ (members.map (·.address.text)).Nodup then
          .error (.identity "Duplicate address in complete Star list")
        else
          .ok state.prepared

def initialise (net : Net) (config : Config) (topology : Topology) (self : Member)
    (members : List Member)
    : Result Unit × Topology :=
  match complete net config self members with
  | .error failure => (.error failure, topology)
  | .ok prepared =>
      if topology.self.isSome then
        (.error (.conflict "Star topology already initialized"), topology)
      else
        (.ok (), { self := some self, members := prepared })

/-- Merge the members of a complete list: what is older is passed over, what is newer replaces an
entry with its streams.
-/
def merge : List (Principal × Entry) → Assoc Principal Entry × List Nat
    → Result (Assoc Principal Entry × List Nat)
  | [], state => .ok state
  | (principal, incoming) :: rest, (prepared, cancelled) =>
      match prepared.get? principal with
      | none => merge rest (prepared.set principal incoming, cancelled)
      | some old =>
          if incoming.member.epoch < old.member.epoch then
            merge rest (prepared, cancelled)
          else
            match supersedes incoming.member old.member with
            | .error failure => .error failure
            | .ok false => merge rest (prepared, cancelled)
            | .ok true =>
                merge rest (prepared.set principal incoming, cancelled ++ old.sessions)

/-- Whether a member of a merged directory is another one or this process under another name. -/
def aliases (self : Member) (members : Assoc Principal Entry) : Bool :=
  let known := members.toPairs.map (·.2.member)
  known.any (fun member => member.id = self.id || member.address = self.address)
    || !decide (known.map Member.id).Nodup || !decide (known.map Member.address).Nodup

def count (members : Assoc Principal Entry) (role : Member.Role) : Nat :=
  (members.toPairs.filter (·.2.member.role = role)).length

/-- `refresh`: merge a complete list into the directory; nothing that is missing is removed. -/
def refresh (net : Net) (config : Config) (topology : Topology) (self : Member)
    (members : List Member)
    : Result (List Nat) × Topology :=
  match initialise net config {} self members with
  | (.error failure, _) => (.error failure, topology)
  | (.ok (), candidate) =>
      if topology.self ≠ some self then
        (.error (.identity "Directory replaced local process"), topology)
      else
        match merge (entries candidate.members) (topology.members, []) with
        | .error failure => (.error failure, topology)
        | .ok (prepared, cancelled) =>
            if aliases self prepared then
              (.error (.identity "Merged directory aliases existing member"), topology)
            else if count prepared .star + 1 > config.maxMembers then
              (.error (.capacity "Merged Star directory exceeds capacity"), topology)
            else
              (.ok cancelled, { topology with members := prepared })

-- Streams

/-- Whether a remote end cannot be a peer of this process. A Planet only dials. -/
def foreign (self remote : Member) (direction : Direction) : Bool :=
  (remote.role ≠ .star && remote.role ≠ .planet) || remote.galaxy ≠ self.galaxy
    || remote.id = self.id || remote.principal = self.principal
    || remote.address = self.address || (remote.role = .planet && direction ≠ .inbound)

/-- Whether another deployment is known under the id or the address. -/
def aliased (topology : Topology) (remote : Member) : Bool :=
  topology.members.toPairs.any fun pair =>
    pair.1 ≠ remote.principal
      && (pair.2.member.id = remote.id || pair.2.member.address = remote.address)

/-- The entry of a remote end: a new one, that of its current start, or the one of an older start
that is replaced, with the streams that this cancels.
-/
def admitted (config : Config) (topology : Topology) (remote : Member)
    : Result (Entry × List Nat) × Topology :=
  match topology.members.get? remote.principal with
  | none =>
      if count topology.members remote.role
          ≥ config.maxMembers - (if remote.role = .star then 1 else 0) then
        (.error (.capacity "Member capacity reached"), topology)
      else
        (.ok ({ member := remote }, []),
          { topology with members := topology.members.set remote.principal { member := remote } })
  | some existing =>
      match supersedes remote existing.member with
      | .error failure => (.error failure, topology)
      | .ok false => (.ok (existing, []), topology)
      | .ok true =>
          (.ok ({ member := remote }, existing.sessions),
            { topology with
              members := topology.members.set remote.principal { member := remote } })

/-- Whether the initiator of a new stream is preferred to that of the opposite one: the lower id
wins.
-/
def preferred (self remote : Member) : Direction → Bool
  | .outbound => self.id < remote.id
  | .inbound => remote.id < self.id

def seat (topology : Topology) (remote : Member) (entry : Entry) (direction : Direction)
    (generation : Nat) (moment : Int)
    : Topology :=
  let entry := entry.put direction (some generation)
  { topology with
    members :=
      topology.members.set remote.principal
        { entry with
          pending := if direction = .outbound then false else entry.pending
          connected := moment } }

/-- `accept`: of a verified remote end. In one direction the first stream stays, of two opposite
ones that of the preferred initiator does.
-/
def accept (config : Config) (topology : Topology) (remote : Member) (direction : Direction)
    (generation : Nat) (expected : Option Member) (moment : Int)
    : Result (List Nat) × Topology :=
  match topology.self.filter (!foreign · remote direction) with
  | none => (.error (.identity "Invalid star relationship"), topology)
  | some self =>
      if expected.any fun target => remote ≠ target ∨ direction ≠ .outbound then
        (.error (.identity "Dial target identity changed"), topology)
      else if topology.aliased remote then
        (.error (.conflict "Member aliases an existing identity"), topology)
      else
        match topology.admitted config remote with
        | (.error failure, topology) => (.error failure, topology)
        | (.ok (entry, cancelled), topology) =>
            if (entry.session direction).isSome then
              (.error (.conflict "Star session initiator is already active"), topology)
            else
              match (entry.session direction.opposite).filter fun _ => remote.role = .star with
              | none => (.ok cancelled, topology.seat remote entry direction generation moment)
              | some opposite =>
                  if !preferred self remote direction then
                    (.error (.conflict "Opposite Star session has the preferred initiator"),
                      topology)
                  else
                    (.ok (cancelled ++ [opposite]),
                      topology.seat remote (entry.put direction.opposite none) direction
                        generation moment)

def salt (hash : Bytes → Nat) (topology : Topology) (principal : Principal) : Nat :=
  (principal.bytes.getD 0 0).toNat + topology.self.elim 0 fun self => hash self.id

def Entry.holding (entry : Entry) (generation : Nat) : Option Direction :=
  if entry.outbound = some generation then
    some .outbound
  else if entry.inbound = some generation then
    some .inbound
  else
    none

def closed (hash : Bytes → Nat) (config : Config) (topology : Topology) (generation : Nat)
    (now : Int)
    : Topology :=
  match (entries topology.members).findSome? fun pair =>
      (pair.2.holding generation).map fun direction => (pair.1, pair.2, direction) with
  | none => topology
  | some (principal, entry, direction) =>
      let failures :=
        if now - entry.connected ≥ nanoseconds config.stableConnection then 1
        else min (entry.failures + 1) 100
      { topology with
        members :=
          topology.members.set principal
            { entry.put direction none with
              failures
              next :=
                now + nanoseconds (retryDelay failures config (salt hash topology principal)) } }

def Entry.eligible (now : Int) (entry : Entry) : Bool :=
  entry.member.role = .star && !entry.pending && entry.outbound.isNone && entry.inbound.isNone
    && entry.next ≤ now

/-- `due`: the first member to be dialed, which is pending from then on. -/
def due (topology : Topology) (now : Int) : Option Member × Topology :=
  if topology.self.isNone then
    (none, topology)
  else
    match (entries topology.members).find? (·.2.eligible now) with
    | none => (none, topology)
    | some (principal, entry) =>
        (some entry.member,
          { topology with
            members := topology.members.set principal { entry with pending := true } })

def failed (hash : Bytes → Nat) (config : Config) (topology : Topology) (target : Member)
    (now : Int)
    : Topology :=
  match (topology.members.get? target.principal).filter (·.member = target) with
  | none => topology
  | some entry =>
      let entry := { entry with pending := false }
      { topology with
        members :=
          topology.members.set target.principal
            (if entry.outbound.isSome ∨ entry.inbound.isSome then
              entry
            else
              let failures := min (entry.failures + 1) 100
              { entry with
                failures
                next :=
                  now + nanoseconds
                    (retryDelay failures config (salt hash topology target.principal)) }) }

-- Steps

inductive Action where
  | initialise (self : Member) (members : List Member)
  | refresh (self : Member) (members : List Member)
  | accept (remote : Member) (direction : Direction) (generation : Nat)
    (expected : Option Member) (moment : Int)
  | closed (generation : Nat) (now : Int)
  | due (now : Int)
  | failed (target : Member) (now : Int)

def step (net : Net) (hash : Bytes → Nat) (config : Config) (topology : Topology)
    : Action → Topology
  | .initialise self members => (topology.initialise net config self members).2
  | .refresh self members => (topology.refresh net config self members).2
  | .accept remote direction generation expected moment =>
      (topology.accept config remote direction generation expected moment).2
  | .closed generation now => topology.closed hash config generation now
  | .due now => (topology.due now).2
  | .failed target now => topology.failed hash config target now

end Topology

end Astra
