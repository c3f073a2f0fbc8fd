import Verdandi.Support.Decimal
import Verdandi.Support.Redis

/-! The Redis scripts of the Catalog. Each takes the keys of one path and its arguments, checks what it
finds, and changes all keys of the zone at once or none. Revisions are kept as decimal text.
-/

namespace Sdk.Catalog

open Support
open Support.Redis (Text Database)

-- Paths and keys

def asciiLetter (value : UInt8) : Bool :=
  (97 ≤ value && value ≤ 122) || (65 ≤ value && value ≤ 90)

def validPathSegment (value : Text) (maximum : Nat) : Bool :=
  value.length ≠ 0 && decide (value.length ≤ maximum) && value.all fun character =>
      asciiLetter character || (48 ≤ character && character ≤ 57) || character == 95
        || character == 45 || character == 46

structure Path where
  part : Text
  id : Text
  valid : (validPathSegment part 64 && validPathSegment id 128) = true
  deriving DecidableEq

def Path.member (path : Path) : Text := path.part ++ [58] ++ path.id

inductive Key where
  | metadata
  | live
  | deleted
  | deletedTime
  | catalog (path : Path)
  | fieldRevisions (path : Path)
  deriving DecidableEq

def Key.name (zone : Text) : Key → Text
  | .metadata => ascii "verdandi:catalog:" ++ zone ++ ascii ":@meta"
  | .live => ascii "verdandi:catalog:" ++ zone ++ ascii ":@live"
  | .deleted => ascii "verdandi:catalog:" ++ zone ++ ascii ":@deleted"
  | .deletedTime => ascii "verdandi:catalog:" ++ zone ++ ascii ":@deleted_time"
  | .catalog path => ascii "verdandi:catalog:" ++ zone ++ [58] ++ path.member
  | .fieldRevisions path =>
      ascii "verdandi:catalog:" ++ zone ++ [58] ++ path.member ++ ascii ":@field_revisions"

def Key.shape : Key → Support.Redis.Kind
  | .metadata | .catalog _ => .hash
  | .live | .deleted | .deletedTime | .fieldRevisions _ => .zset

/-- The data of one zone. -/
abbrev Store := Database Key

-- Numbers

def maximumRevision : Text := ascii "9007199254740991"

def maximumEncodedBytes : Nat := 4194304

def maximumFields : Nat := 65536

/-- The pattern `^[1-9][0-9]*$`. -/
def startsPositive : Text → Bool
  | [] => false
  | first :: rest => (49 ≤ first && first ≤ 57) && rest.all Decimal.isDigit

def canonicalNonnegative : Option Text → Bool
  | none => false
  | some value =>
      value == ascii "0"
        || (startsPositive value
          && (decide (value.length < maximumRevision.length)
            || (value.length == maximumRevision.length && decide (value ≤ maximumRevision))))

def canonicalPositive (value : Option Text) : Bool :=
  value != some (ascii "0") && canonicalNonnegative value

def decimalLess (left right : Text) : Bool := Decimal.less left right

def incrementDecimal (value : Text) : Text := Decimal.increment value

def canonicalCount (value : Option Text) (maximum : Nat) : Option Nat :=
  match value with
  | none => none
  | some value =>
      if value ≠ ascii "0" ∧ startsPositive value = false then
        none
      else if maximum < Decimal.value value then
        none
      else
        some (Decimal.value value)

-- Answers and events

inductive Kind where
  | value
  | array
  | map
  deriving DecidableEq, Repr

def Kind.text : Kind → Text
  | .value => ascii "value"
  | .array => ascii "array"
  | .map => ascii "map"

def Kind.parse (text : Text) : Option Kind :=
  if text = ascii "value" then some .value
  else if text = ascii "array" then some .array
  else if text = ascii "map" then some .map
  else none

inductive Status where
  | contract
  | corrupt
  | stale
  | transition
  | capacity
  deriving DecidableEq, Repr

def Status.text : Status → Text
  | .contract => ascii "contract"
  | .corrupt => ascii "corrupt"
  | .stale => ascii "stale"
  | .transition => ascii "transition"
  | .capacity => ascii "capacity"

inductive Answer where
  | error (status : Status) (field revision : Option Text := none)
  | ok (revision floor : Text) (pruned : Option Text := none)
  deriving DecidableEq, Repr

inductive Event where
  | replace (member revision : Text) (kind : Kind) (encodedBytes : Text)
      (fields : List (Text × Text))
  | patch (member baseRevision revision : Text) (kind : Kind) (encodedBytes : Text)
      (sets : List (Text × Text))
  | delete (member revision : Text)
  deriving DecidableEq, Repr

structure Outcome where
  store : Store
  answer : Answer
  event : Option Event := none

def refuse (store : Store) (answer : Answer) : Outcome := { store, answer }

/-- A call names as many keys as it says, those of its path, and its arguments. -/
structure Call where
  path : Path
  keys : Nat
  argv : List Text

def Call.member (call : Call) : Text := call.argv.headD []

def Call.Names (call : Call) : Prop := call.member = call.path.member ∨ call.member = []

-- The state before a mutation

structure State where
  globalRevision : Text
  floorRevision : Text
  liveRevision : Option Text
  currentRevision : Text
  currentKind : Option Kind := none
  currentEncodedBytes : Text := ascii "0"

def corrupt : Answer := .error .corrupt

/-- Whether every key of a path is missing or has the type it should have. -/
def typesMatch (store : Store) (keys : List Key) : Bool :=
  keys.all fun key =>
    store.type key = Support.Redis.Kind.none || store.type key = Key.shape key

/-- A score as `ZSCORE` answers it. -/
def score (store : Store) (key : Key) (member : Text) : Option Text :=
  (store.zscore key member).map Decimal.text

def zoneRevisions (store : Store) : Except Answer (Text × Text) :=
  match store.hget .metadata (ascii "@revision"), store.hget .metadata (ascii "@floor_revision") with
  | none, floor =>
      if floor.isSome ∨ store.hlen .metadata ≠ 0 ∨ store.zcard .live ≠ 0 ∨ store.zcard .deleted ≠ 0
          ∨ store.zcard .deletedTime ≠ 0 then
        .error corrupt
      else
        .ok (ascii "0", ascii "0")
  | some revision, floor =>
      if canonicalPositive (some revision) = false ∨ canonicalNonnegative floor = false
          ∨ decimalLess revision (floor.getD []) = true then
        .error corrupt
      else
        .ok (revision, floor.getD [])

def indexRevisions (store : Store) (member : Text) : Except Answer (Option Text × Option Text) :=
  let liveRevision := score store .live member
  let deletedRevision := score store .deleted member
  let deletedTime := score store .deletedTime member
  if (liveRevision.isSome ∧ deletedRevision.isSome) ∨ (deletedRevision.isSome ∧ deletedTime = none)
      ∨ (deletedTime.isSome ∧ deletedRevision = none)
      ∨ (liveRevision.isSome ∧ canonicalPositive liveRevision = false)
      ∨ (deletedRevision.isSome ∧ canonicalPositive deletedRevision = false)
      ∨ (deletedTime.isSome ∧ canonicalNonnegative deletedTime = false) then
    .error corrupt
  else
    .ok (liveRevision, deletedRevision)

structure Header where
  revision : Text
  replaceRevision : Text
  kind : Kind
  encodedBytes : Text

/-- Read and check the header of a record that the live index has at a revision. -/
def header (store : Store) (path : Path) (liveRevision : Option Text) : Option Header :=
  match store.hget (.catalog path) (ascii "@revision"),
      store.hget (.catalog path) (ascii "@replace_revision"),
      (store.hget (.catalog path) (ascii "@kind")).bind Kind.parse,
      store.hget (.catalog path) (ascii "@encoded_bytes") with
  | some revision, some replaceRevision, some kind, some encodedBytes =>
      if canonicalPositive (some revision) = false ∨ canonicalPositive (some replaceRevision) = false
          ∨ decimalLess revision replaceRevision = true
          ∨ canonicalNonnegative (some encodedBytes) = false
          ∨ maximumEncodedBytes < Decimal.value encodedBytes
          ∨ liveRevision ≠ some revision then
        none
      else
        some { revision, replaceRevision, kind, encodedBytes }
  | _, _, _, _ => none

def findState (store : Store) (call : Call) : Except Answer State :=
  if call.keys ≠ 6 ∨ call.member = [] then
    .error (.error .contract)
  else if typesMatch store
      [.metadata, .live, .deleted, .deletedTime, .catalog call.path, .fieldRevisions call.path]
      = false then
    .error corrupt
  else
    match zoneRevisions store, indexRevisions store call.member with
    | .error answer, _ => .error answer
    | .ok _, .error answer => .error answer
    | .ok (globalRevision, floorRevision), .ok (liveRevision, deletedRevision) =>
        let indexed := store.type (.fieldRevisions call.path)
        let current : Except Answer State :=
          if store.type (.catalog call.path) = .hash then
            if liveRevision = none ∨ deletedRevision.isSome then
              .error corrupt
            else
              match header store call.path liveRevision with
              | none => .error corrupt
              | some header =>
                  if indexed = .none ∧ store.hlen (.catalog call.path) ≠ 4 then
                    .error corrupt
                  else
                    .ok {
                      globalRevision, floorRevision, liveRevision
                      currentRevision := header.revision
                      currentKind := some header.kind
                      currentEncodedBytes := header.encodedBytes }
          else if liveRevision.isSome ∨ indexed = .zset then
            .error corrupt
          else
            .ok {
              globalRevision, floorRevision, liveRevision
              currentRevision := deletedRevision.getD (ascii "0") }
        match current with
        | .error answer => .error answer
        | .ok state =>
            if decimalLess globalRevision state.currentRevision then
              .error corrupt
            else
              .ok state

-- Replace

def pairs : List Text → List (Text × Text)
  | name :: value :: rest => (name, value) :: pairs rest
  | _ => []

def userField (name : Text) : Bool := name ≠ [] && name.head? != some 64

/-- Whether a name may stand at an index, after the one before it. -/
def Kind.places (kind : Kind) (index : Nat) (previousName : Option Text) (name : Text) : Bool :=
  match kind with
  | .value => decide (name = ascii "value")
  | .array => decide (name = Decimal.text index)
  | .map => previousName.all fun previous => decide (previous < name)

/-- The loop over the fields of a new value: its encoded size, unless a field breaks the contract. -/
def calculate (kind : Kind) : Nat → Option Text → Nat → List (Text × Text) → Option Nat
  | _, _, calculatedBytes, [] => some calculatedBytes
  | index, previousName, calculatedBytes, (name, value) :: rest =>
      if userField name = false then
        none
      else if kind.places index previousName name = false then
        none
      else
        calculate kind (index + 1) (some name) (calculatedBytes + name.length + value.length) rest

def chunks {Item : Type} (width : Nat) (items : List Item) : List (List Item) :=
  (List.range ((items.length + width - 1) / width)).map fun round =>
    (items.drop (round * width)).take width

def writeFields (store : Store) (path : Path) (revision : Text) (fields : List (Text × Text))
    : Store :=
  (chunks 1024 fields).foldl
    (fun store chunk =>
      (store.hset (.catalog path) chunk).zadd (.fieldRevisions path)
        (chunk.map fun field => (field.1, Decimal.value revision)))
    store

def writeReplacement (store : Store) (path : Path) (member : Text) (state : State) (kind : Kind)
    (encodedBytes : Text) (fields : List (Text × Text))
    : Store :=
  let nextRevision := incrementDecimal state.globalRevision
  let cleared := (store.unlink (.catalog path)).unlink (.fieldRevisions path)
  let headed := cleared.hset (.catalog path)
    [(ascii "@revision", nextRevision), (ascii "@replace_revision", nextRevision),
      (ascii "@kind", kind.text), (ascii "@encoded_bytes", encodedBytes)]
  let written := writeFields headed path nextRevision fields
  let counted := written.hset .metadata
    [(ascii "@revision", nextRevision), (ascii "@floor_revision", state.floorRevision)]
  let listed := counted.zadd .live [(member, Decimal.value nextRevision)]
  (listed.zrem .deleted [member]).zrem .deletedTime [member]

def replace (store : Store) (call : Call) : Outcome :=
  match findState store call with
  | .error answer => refuse store answer
  | .ok state =>
      let encodedBytesText := call.argv.getD 2 []
      let fields := pairs (call.argv.drop 4)
      match (call.argv[1]?).bind Kind.parse, canonicalCount call.argv[3]? maximumFields,
          canonicalCount call.argv[2]? maximumEncodedBytes with
      | some kind, some fieldCount, some encodedBytes =>
          if call.argv.length ≠ 4 + fieldCount * 2 ∨ (kind = .value ∧ fieldCount ≠ 1) then
            refuse store (.error .contract)
          else
            match calculate kind 0 none 0 fields with
            | none => refuse store (.error .contract)
            | some calculatedBytes =>
                if calculatedBytes ≠ encodedBytes then
                  refuse store (.error .contract (some (ascii "@encoded_bytes")))
                else if state.globalRevision = maximumRevision then
                  refuse store (.error .capacity (some (ascii "@revision")))
                else
                  let nextRevision := incrementDecimal state.globalRevision
                  {
                    store :=
                      writeReplacement store call.path call.member state kind encodedBytesText
                        fields
                    answer := .ok nextRevision state.floorRevision
                    event := some (.replace call.member nextRevision kind encodedBytesText fields) }
      | _, _, _ => refuse store (.error .contract)

-- Patch

/-- The loop over the fields of a patch: the projected size and number of fields, unless a field is
refused. The projection counts what is written against what it overwrites.
-/
def project (store : Store) (path : Path) (kind : Kind) (currentRevision : Text)
    : Option Text → Int → Nat → List (Text × Text) → Except Answer (Int × Nat)
  | _, projectedBytes, projectedFields, [] => .ok (projectedBytes, projectedFields)
  | previousName, projectedBytes, projectedFields, (name, value) :: rest =>
      if userField name = false then
        .error (.error .contract)
      else if kind = .array ∧ name ≠ ascii "0" ∧ startsPositive name = false then
        .error (.error .transition (some name) (some currentRevision))
      else if (previousName.all fun previous => decide (previous < name)) = false then
        .error (.error .contract)
      else
        match store.hget (.catalog path) name with
        | none =>
            if kind = .array then
              .error (.error .transition (some name) (some currentRevision))
            else
              project store path kind currentRevision (some name)
                (projectedBytes + name.length + value.length) (projectedFields + 1) rest
        | some old =>
            project store path kind currentRevision (some name)
              (projectedBytes + value.length - old.length) projectedFields rest

def writePatch (store : Store) (path : Path) (member : Text) (state : State) (encodedBytes : Text)
    (sets : List (Text × Text))
    : Store :=
  let nextRevision := incrementDecimal state.globalRevision
  let headed := store.hset (.catalog path)
    [(ascii "@revision", nextRevision), (ascii "@encoded_bytes", encodedBytes)]
  let written := writeFields headed path nextRevision sets
  let counted := written.hset .metadata
    [(ascii "@revision", nextRevision), (ascii "@floor_revision", state.floorRevision)]
  counted.zadd .live [(member, Decimal.value nextRevision)]

def patch (store : Store) (call : Call) : Outcome :=
  match findState store call with
  | .error answer => refuse store answer
  | .ok state =>
      let encodedBytesText := call.argv.getD 2 []
      let sets := pairs (call.argv.drop 4)
      match call.argv[1]?, canonicalCount call.argv[3]? maximumFields,
          canonicalCount call.argv[2]? maximumEncodedBytes with
      | some baseRevision, some setCount, some encodedBytes =>
          if canonicalPositive (some baseRevision) = false ∨ setCount = 0
              ∨ call.argv.length ≠ 4 + setCount * 2 then
            refuse store (.error .contract)
          else if state.currentRevision ≠ baseRevision ∨ state.liveRevision = none then
            refuse store
              (.error .stale (some (ascii "@base_revision")) (some state.currentRevision))
          else
            -- A record in the live index has a kind.
            let kind := state.currentKind.getD .map
            if kind = .value then
              refuse store (.error .transition (some (ascii "@kind")) (some state.currentRevision))
            else if state.globalRevision = maximumRevision then
              refuse store (.error .capacity (some (ascii "@revision")))
            else
              match project store call.path kind state.currentRevision none
                  (Decimal.value state.currentEncodedBytes)
                  (store.hlen (.catalog call.path) - 4) sets with
              | .error answer => refuse store answer
              | .ok (projectedBytes, projectedFields) =>
                  if maximumFields < projectedFields then
                    refuse store
                      (.error .capacity (some (ascii "fields")) (some state.currentRevision))
                  else if projectedBytes ≠ encodedBytes then
                    refuse store
                      (.error .contract (some (ascii "@encoded_bytes"))
                        (some state.currentRevision))
                  else
                    let nextRevision := incrementDecimal state.globalRevision
                    {
                      store :=
                        writePatch store call.path call.member state encodedBytesText sets
                      answer := .ok nextRevision state.floorRevision
                      event := some
                        (.patch call.member baseRevision nextRevision kind encodedBytesText sets) }
      | _, _, _ => refuse store (.error .contract)

-- Delete

def retentionMilliseconds : Nat := 86400000

def retentionCount : Nat := 1000000

def pruneBatch : Nat := 256

structure Time where
  seconds : Nat
  microseconds : Nat

def Time.milliseconds (time : Time) : Nat := time.seconds * 1000 + time.microseconds / 1000

/-- Select candidates other than a member, each once, until as many as required are found. -/
def select (member : Text) : Nat → List Text → List Text → List Text
  | 0, evicted, _ => evicted
  | _ + 1, evicted, [] => evicted
  | required + 1, evicted, candidate :: rest =>
      if candidate ≠ member ∧ candidate ∉ evicted then
        select member required (evicted ++ [candidate]) rest
      else
        select member (required + 1) evicted rest

/-- The tombstones that are given up: the expired ones, and the oldest as far as there are too many;
one script never prunes more than a batch.
-/
def selectEvicted (store : Store) (member : Text) (now : Nat) : List Text :=
  let expired := ((Support.Redis.range (store.zset .deletedTime) fun score =>
    decide ((score : Int) ≤ (now : Int) - retentionMilliseconds)).take pruneBatch).map Prod.fst
  let evicted := select member expired.length [] expired
  let excess : Int := (store.zcard .deleted : Int) - retentionCount
  let required := min (excess - evicted.length).toNat (pruneBatch - evicted.length)
  select member required evicted
    (((Support.Redis.ordered (store.zset .deleted)).take (pruneBatch * 2)).map Prod.fst)

def raiseFloor (store : Store) (floor : Text) (evicted : List Text) : Text :=
  evicted.foldl
    (fun floor candidate =>
      match score store .deleted candidate with
      | some revision => if decimalLess floor revision then revision else floor
      | none => floor)
    floor

def writeTombstone (store : Store) (path : Path) (member : Text) (state : State) (now : Nat)
    : Store :=
  let nextRevision := incrementDecimal state.globalRevision
  let cleared := (store.unlink (.catalog path)).unlink (.fieldRevisions path)
  ((cleared.zrem .live [member]).zadd .deleted
    [(member, Decimal.value nextRevision)]).zadd .deletedTime [(member, now)]

def pruneTombstones (store : Store) (state : State) (evicted : List Text) : Store :=
  let pruned :=
    if evicted = [] then store else (store.zrem .deleted evicted).zrem .deletedTime evicted
  pruned.hset .metadata
    [(ascii "@revision", incrementDecimal state.globalRevision),
      (ascii "@floor_revision", raiseFloor store state.floorRevision evicted)]

def delete (store : Store) (call : Call) (time : Time) : Outcome :=
  match findState store call with
  | .error answer => refuse store answer
  | .ok state =>
      if call.argv.length ≠ 1 then
        refuse store (.error .contract)
      else if state.globalRevision = maximumRevision then
        refuse store (.error .capacity (some (ascii "@revision")))
      else
        let nextRevision := incrementDecimal state.globalRevision
        let marked := writeTombstone store call.path call.member state time.milliseconds
        let evicted := selectEvicted marked call.member time.milliseconds
        {
          store := pruneTombstones marked state evicted
          answer := .ok nextRevision (raiseFloor marked state.floorRevision evicted)
            (some (Decimal.text evicted.length))
          event := some (.delete call.member nextRevision) }

-- Read

inductive Mode where
  | unchanged
  | patch
  | replace
  deriving DecidableEq, Repr

def Mode.text : Mode → Text
  | .unchanged => ascii "unchanged"
  | .patch => ascii "patch"
  | .replace => ascii "replace"

inductive Reading where
  | error (status : Status)
  | absent
  | deleted (revision : Text)
  | present (mode : Mode) (header : Header) (fields : List (Text × Text))

def changedFields (store : Store) (path : Path) (since revision : Text)
    : Option (List (Text × Text)) :=
  let names := Support.Redis.range (store.zset (.fieldRevisions path)) fun score =>
    decide (Decimal.value since < score) && decide (score ≤ Decimal.value revision)
  if maximumFields < names.length then
    none
  else
    names.mapM fun name =>
      match store.hget (.catalog path) name.1 with
      | some value => if userField name.1 then some (name.1, value) else none
      | none => none

def reserved : List Text :=
  [ascii "@revision", ascii "@replace_revision", ascii "@kind", ascii "@encoded_bytes"]

def allFields (store : Store) (path : Path) : Option (List (Text × Text)) :=
  let all := (store.hash (.catalog path)).toPairs
  let user := all.filter fun field => field.1.head? != some 64
  if (all.any fun field => field.1.head? == some 64 && !reserved.contains field.1)
      ∨ (user.any fun field => field.1.isEmpty) ∨ maximumFields < user.length then
    none
  else
    some (user.insertionSort fun left right => left.1 ≤ right.1)

def read (store : Store) (call : Call) : Reading :=
  let path := call.path
  let localRevision := call.argv.getD 1 []
  if call.keys ≠ 5 ∨ call.argv.length ≠ 2 then
    .error .contract
  else if call.member = [] ∨ canonicalNonnegative (some localRevision) = false then
    .error .contract
  else if typesMatch store
      [.live, .deleted, .deletedTime, .catalog path, .fieldRevisions path] = false then
    .error .corrupt
  else
    match indexRevisions store call.member with
    | .error _ => .error .corrupt
    | .ok (liveRevision, deletedRevision) =>
        if store.type (.catalog path) = .none then
          if liveRevision.isSome ∨ store.type (.fieldRevisions path) ≠ .none then
            .error .corrupt
          else
            match deletedRevision with
            | some revision => .deleted revision
            | none => .absent
        else if liveRevision = none ∨ deletedRevision.isSome
            ∨ (store.type (.fieldRevisions path) = .none ∧ store.hlen (.catalog path) ≠ 4) then
          .error .corrupt
        else
          match header store path liveRevision with
          | none => .error .corrupt
          | some header =>
              if localRevision = header.revision then
                .present .unchanged header []
              else if decimalLess localRevision header.replaceRevision = false
                  ∧ decimalLess localRevision header.revision = true then
                match changedFields store path localRevision header.revision with
                | some fields => .present .patch header fields
                | none => .error .corrupt
              else
                match allFields store path with
                | some fields => .present .replace header fields
                | none => .error .corrupt

end Sdk.Catalog
