import Verdandi.Sdk.Catalog.Scripts
import Verdandi.Sdk.Registration.Record
import Verdandi.Support.Expiring

/-! The Redis scripts of the registrations of one zone and type. A record and its field in the registry
have deadlines of their own, which each script sets again.
-/

namespace Sdk.Registration

open Support
open Support.Redis (Text)
open Support.Redis.Database (setAll)
open Sdk.Catalog (Time pairs)

structure Store where
  records : Expiring Text (Assoc Text Text) := ∅
  registry : Expiring Text Text := ∅

inductive Status where
  | corrupt
  | stale
  | invalid
  | missing
  | transition
  deriving DecidableEq, Repr

inductive Reply where
  | ok (revision timestamp : Option Nat := none)
  | error (status : Status) (field : Option Text := none) (revision : Option Nat := none)
  deriving DecidableEq, Repr

inductive Event where
  | register (uuid : Text) (revision timestamp ttl version : Nat) (fields : List (Text × Text))
  | update (uuid : Text) (revision timestamp : Nat) (version : Option Nat)
      (fields : List (Text × Text))
  | renew (uuid : Text) (revision timestamp : Nat)
  | unregister (uuid : Text)
  deriving DecidableEq, Repr

structure Outcome where
  store : Store
  reply : Reply
  event : Option Event := none

def refuse (store : Store) (reply : Reply) : Outcome := { store, reply }

def maximumDeadline : Nat := 70368744177663

/-- A number as `tonumber` reads it. No other texts of numbers are passed or stored. -/
def toNumber (text : Text) : Option Nat :=
  if text = [] ∨ text.all Decimal.isDigit = false then none else some (Decimal.value text)

def argument (argv : List Text) (index : Nat) : Nat := (toNumber (argv.getD index [])).getD 0

namespace Store

def hget (store : Store) (uuid field : Text) : Option Text :=
  (store.records.get? uuid).bind fun record => record.value.get? field

def hset (store : Store) (uuid : Text) (fields : List (Text × Text)) : Store :=
  let record := ((store.records.get? uuid).map Leased.value).getD ∅
  { store with records := store.records.write uuid (setAll record fields) }

def del (store : Store) (uuid : Text) : Store :=
  { store with records := store.records.remove uuid }

def hdel (store : Store) (uuid : Text) : Store :=
  { store with registry := store.registry.remove uuid }

def extend (store : Store) (now : Time) (uuid revisionValue : Text) (deadline : Nat) : Store where
  records := store.records.expireAt now.milliseconds uuid deadline
  registry := store.registry.lease now.milliseconds uuid revisionValue deadline

def expire (store : Store) (now : Nat) : Store where
  records := store.records.expire now
  registry := store.registry.expire now

end Store

-- The scripts

/-- The time of a change: that of the server, but never before that of the record. -/
def changeTime (now : Time) (currentTimestamp : Nat) : Nat :=
  if now.milliseconds < currentTimestamp then currentTimestamp else now.milliseconds

def register (store : Store) (now : Time) (uuid : Text) (argv : List Text) : Outcome :=
  let revisionValue := argv.getD 1 []
  let revision := argument argv 1
  let ttl := argument argv 2
  let previousRevision := store.hget uuid (ascii "@revision")
  let previousTimestamp := store.hget uuid (ascii "@timestamp")
  let currentRevision := previousRevision.bind toNumber
  let currentTimestamp := previousTimestamp.bind toNumber
  if (previousRevision.isSome ∧ currentRevision = none)
      ∨ (previousTimestamp.isSome ∧ currentTimestamp = none) then
    refuse store (.error .corrupt)
  else if currentRevision.any (fun current => decide (revision < current)) then
    refuse store (.error .stale (some (ascii "@revision")) currentRevision)
  else
    let timestamp := changeTime now (currentTimestamp.getD 0)
    let deadline := timestamp + ttl
    if maximumDeadline < deadline then
      refuse store (.error .invalid (some (ascii "@ttl")))
    else
      let fields := pairs (argv.drop 4)
      let cleared :=
        if previousRevision.isSome ∨ previousTimestamp.isSome then store.del uuid else store
      let written := cleared.hset uuid
        ([(ascii "@uuid", argv.getD 0 []), (ascii "@revision", revisionValue),
          (ascii "@timestamp", Decimal.text timestamp), (ascii "@ttl", argv.getD 2 []),
          (ascii "@version", argv.getD 3 [])] ++ fields)
      {
        store := written.extend now (argv.getD 0 []) revisionValue deadline
        reply := .ok revision timestamp
        event := some (.register (argv.getD 0 []) revision timestamp ttl (argument argv 3) fields) }

/-- The revision, time and lease of a record, as update and renew read them. -/
def current (store : Store) (uuid : Text) : Except Reply (Nat × Nat × Nat) :=
  match store.hget uuid (ascii "@revision") with
  | none => .error (.error .missing)
  | some storedRevision =>
      match toNumber storedRevision, (store.hget uuid (ascii "@timestamp")).bind toNumber,
          (store.hget uuid (ascii "@ttl")).bind toNumber with
      | some currentRevision, some currentTimestamp, some currentTtl =>
          .ok (currentRevision, currentTimestamp, currentTtl)
      | _, _, _ => .error (.error .corrupt)

def update (store : Store) (now : Time) (uuid : Text) (argv : List Text) : Outcome :=
  let revisionValue := argv.getD 1 []
  let versionValue := argv.getD 2 []
  let revision := argument argv 1
  match current store uuid with
  | .error reply => refuse store reply
  | .ok (currentRevision, currentTimestamp, currentTtl) =>
      if revision ≠ currentRevision + 1 then
        if revision = currentRevision then
          refuse store (.ok currentRevision currentTimestamp)
        else if revision < currentRevision then
          refuse store (.error .stale (some (ascii "@revision")) currentRevision)
        else
          refuse store (.error .transition (some (ascii "@revision")) currentRevision)
      else
        let timestamp := changeTime now currentTimestamp
        let deadline := timestamp + currentTtl
        if maximumDeadline < deadline then
          refuse store (.error .invalid (some (ascii "@ttl")))
        else
          let fields := pairs (argv.drop 3)
          let written := store.hset uuid
            ([(ascii "@revision", revisionValue), (ascii "@timestamp", Decimal.text timestamp)]
              ++ (if versionValue = [] then [] else [(ascii "@version", versionValue)])
              ++ fields)
          {
            store := written.extend now (argv.getD 0 []) revisionValue deadline
            reply := .ok revision timestamp
            event := some
              (.update (argv.getD 0 []) revision timestamp
                (if versionValue = [] then none else some (argument argv 2)) fields) }

def renew (store : Store) (now : Time) (uuid : Text) (argv : List Text) : Outcome :=
  let revisionValue := argv.getD 1 []
  let revision := argument argv 1
  match current store uuid with
  | .error reply => refuse store reply
  | .ok (currentRevision, currentTimestamp, currentTtl) =>
      if revision ≠ currentRevision then
        refuse store
          (.error (if revision < currentRevision then .stale else .transition)
            (some (ascii "@revision")) currentRevision)
      else
        let timestamp := changeTime now currentTimestamp
        let deadline := timestamp + currentTtl
        if maximumDeadline < deadline then
          refuse store (.error .invalid (some (ascii "@ttl")))
        else
          let written := store.hset uuid [(ascii "@timestamp", Decimal.text timestamp)]
          {
            store := written.extend now (argv.getD 0 []) revisionValue deadline
            reply := .ok currentRevision timestamp
            event := some (.renew (argv.getD 0 []) currentRevision timestamp) }

def unregister (store : Store) (uuid : Text) (argv : List Text) : Outcome where
  store := (store.del uuid).hdel (argv.getD 0 [])
  reply := .ok
  event :=
    if (store.records.get? uuid).isSome then some (.unregister (argv.getD 0 [])) else none

-- The calls

inductive Request where
  | register (revision ttl : Nat) (content : Content)
  | update (revision : Nat) (version : Option Nat) (data : Assoc Text Text)
  | renew (revision : Nat)
  | unregister

def flatten (fields : List (Text × Text)) : List Text :=
  fields.flatMap fun field => [field.1, field.2]

def registerArguments (uuid : Text) (revision ttl : Nat) (content : Content) : List Text :=
  [uuid, Decimal.text revision, Decimal.text ttl, Decimal.text content.version]
    ++ flatten (sortedFields (ascii ".") content.attr) ++ flatten (sortedFields [] content.data)

def updateArguments (uuid : Text) (revision : Nat) (version : Option Nat) (data : Assoc Text Text)
    : List Text :=
  [uuid, Decimal.text revision, (version.map Decimal.text).getD []]
    ++ flatten (sortedFields [] data)

def renewArguments (uuid : Text) (revision : Nat) : List Text := [uuid, Decimal.text revision]

def unregisterArguments (uuid : Text) : List Text := [uuid]

def Request.run (request : Request) (store : Store) (now : Time) (uuid : Text) : Outcome :=
  match request with
  | .register revision ttl content =>
      Registration.register store now uuid (registerArguments uuid revision ttl content)
  | .update revision version data =>
      Registration.update store now uuid (updateArguments uuid revision version data)
  | .renew revision => Registration.renew store now uuid (renewArguments uuid revision)
  | .unregister => Registration.unregister store uuid (unregisterArguments uuid)

def Request.Valid : Request → Prop
  | .register revision ttl content => Admitted revision ttl content
  | .update revision version data =>
      (1 ≤ revision ∧ revision ≤ maxSafeInteger)
        ∧ (∀ number ∈ version, 1 ≤ number ∧ number ≤ maxSafeInteger) ∧ AllPlain data
  | .renew revision => 1 ≤ revision ∧ revision ≤ maxSafeInteger
  | .unregister => True

end Sdk.Registration
