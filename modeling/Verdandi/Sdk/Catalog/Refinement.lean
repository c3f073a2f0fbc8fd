import Verdandi.Sdk.Catalog.Contents

/-! The keys of a zone hold what the zone is, and each script does to them what its mutation does to
the zone. A script that finds a zone never takes it for a corrupt one.
-/

namespace Sdk.Catalog

open Support
open Support.Redis (Text Database)

def Record.header (record : Record) : List (Text × Text) :=
  [(ascii "@revision", Decimal.text record.revision),
    (ascii "@replace_revision", Decimal.text record.replaceRevision),
    (ascii "@kind", record.kind.text),
    (ascii "@encoded_bytes", Decimal.text record.encodedBytes)]

def Record.hash (record : Record) : Assoc Text Text :=
  Database.setAll record.fields record.header

def Item.hash : Item → Assoc Text Text
  | .present record => record.hash
  | _ => ∅

def Item.written : Item → Assoc Text Nat
  | .present record => record.written
  | _ => ∅

def Zone.counters (zone : Zone) : List (Text × Text) :=
  [(ascii "@revision", Decimal.text zone.revision),
    (ascii "@floor_revision", Decimal.text zone.floor)]

def Zone.metadata (zone : Zone) : Assoc Text Text :=
  if zone.revision = 0 then ∅ else Database.setAll ∅ zone.counters

structure Represents (store : Store) (zone : Zone) : Prop where
  shaped : Database.Shaped Key.shape store
  valid : zone.Valid
  metadata : (store.hash .metadata).get? = zone.metadata.get?
  live : ∀ path, store.zscore .live path.member = (zone.items path).liveRevision
  deleted : ∀ path, store.zscore .deleted path.member = (zone.items path).deletedRevision
  deletedTime : ∀ path, store.zscore .deletedTime path.member = (zone.items path).deletedTime
  members : ∀ key ∈ [Key.live, .deleted, .deletedTime], ∀ member,
    (store.zscore key member).isSome → ∃ path, Path.member path = member
  hash : ∀ path, (store.hash (.catalog path)).get? = (zone.items path).hash.get?
  written : ∀ path, (store.zset (.fieldRevisions path)).get? = (zone.items path).written.get?

-- Members and names

theorem Path.notMem_part (path : Path) : (58 : UInt8) ∉ path.part := by
  intro listed
  have valid := path.valid
  simp only [validPathSegment, Bool.and_eq_true, List.all_eq_true] at valid
  exact absurd (valid.1.2 58 listed) (by decide)

theorem Path.member_injective : Function.Injective Path.member := by
  intro left right same
  rw [Path.member, Path.member, List.append_assoc, List.append_assoc] at same
  have lengths : left.part.length = right.part.length := by
    have index := congrArg (List.idxOf 58) same
    rw [List.idxOf_append_of_notMem left.notMem_part,
      List.idxOf_append_of_notMem right.notMem_part] at index
    simpa using index
  obtain ⟨parts, rest⟩ := List.append_inj same lengths
  have ids : left.id = right.id := by simpa using rest
  cases left
  cases right
  simp_all

theorem Path.member_ne_nil (path : Path) : path.member ≠ [] := by
  simp [Path.member]

variable {name : Text}

/-- A user names no field of the header. -/
theorem notMem_reserved (user : userField name = true) : name ∉ reserved := by
  intro listed
  simp only [reserved, List.mem_cons, List.not_mem_nil, or_false] at listed
  rcases listed with rfl | rfl | rfl | rfl <;> exact absurd user (by decide)

theorem Record.header_names (record : Record) : record.header.map Prod.fst = reserved := rfl

theorem nodup_reserved : reserved.Nodup := by
  decide

theorem Record.get?_hash_of_mem (record : Record) {pair : Text × Text}
    (listed : pair ∈ record.header)
    : record.hash.get? pair.1 = some pair.2 :=
  Redis.get?_setAll_of_mem (record.header_names ▸ nodup_reserved) listed

@[simp]
theorem Record.get?_hash_revision (record : Record)
    : record.hash.get? (ascii "@revision") = some (Decimal.text record.revision) :=
  record.get?_hash_of_mem
    (show (ascii "@revision", Decimal.text record.revision) ∈ record.header by
      simp [Record.header])

@[simp]
theorem Record.get?_hash_replaceRevision (record : Record)
    : record.hash.get? (ascii "@replace_revision") = some (Decimal.text record.replaceRevision) :=
  record.get?_hash_of_mem
    (show (ascii "@replace_revision", Decimal.text record.replaceRevision) ∈ record.header by
      simp [Record.header])

@[simp]
theorem Record.get?_hash_kind (record : Record)
    : record.hash.get? (ascii "@kind") = some record.kind.text :=
  record.get?_hash_of_mem
    (show (ascii "@kind", record.kind.text) ∈ record.header by
      simp [Record.header])

@[simp]
theorem Record.get?_hash_encodedBytes (record : Record)
    : record.hash.get? (ascii "@encoded_bytes") = some (Decimal.text record.encodedBytes) :=
  record.get?_hash_of_mem
    (show (ascii "@encoded_bytes", Decimal.text record.encodedBytes) ∈ record.header by
      simp [Record.header])

variable {record : Record}

theorem Record.get?_hash (user : name ∉ reserved)
    : record.hash.get? name = record.fields.get? name :=
  Redis.get?_setAll_of_notMem (by rwa [Record.header_names])

/-- A header may be written before the fields. -/
theorem Record.get?_header_first {record : Record} {old : Assoc Text Text}
    {sets : List (Text × Text)} (users : ∀ set ∈ sets, userField set.1 = true)
    (fields : record.fields = Database.setAll old sets)
    : (Database.setAll (Database.setAll old record.header) sets).get? = record.hash.get? := by
  rw [Record.hash, fields]
  refine Redis.get?_eq_setAll (record.header_names ▸ nodup_reserved) ?_ ?_
  · intro pair listed
    have free : pair.1 ∉ sets.map Prod.fst := by
      intro written
      obtain ⟨set, member, same⟩ := List.mem_map.mp written
      apply notMem_reserved (users set member)
      rw [same, ← record.header_names]
      exact List.mem_map_of_mem listed
    rw [Redis.get?_setAll_of_notMem free,
      Redis.get?_setAll_of_mem (record.header_names ▸ nodup_reserved) listed]
  · intro name free
    rw [Redis.get?_setAll, Redis.get?_setAll_of_notMem free, ← Redis.get?_setAll]

/-- A patch writes what is new in the header. -/
theorem Record.get?_header_anew {map : Assoc Text Text} {revision : Nat} {sets : List (Text × Text)}
    (same : map.get? = record.hash.get?)
    : (Database.setAll map
        [(ascii "@revision", Decimal.text revision),
          (ascii "@encoded_bytes", Decimal.text (record.write revision sets).encodedBytes)]).get?
      = (Database.setAll record.fields (record.write revision sets).header).get? := by
  have distinct : [ascii "@revision", ascii "@encoded_bytes"].Nodup := by
    decide
  refine Redis.get?_eq_setAll (Record.header_names _ ▸ nodup_reserved) ?_ ?_
  · intro pair listed
    simp only [Record.header, List.mem_cons, List.not_mem_nil, or_false] at listed
    rcases listed with rfl | rfl | rfl | rfl
    · exact @Redis.get?_setAll_of_mem _ _ _ (ascii "@revision", _) distinct List.mem_cons_self
    · rw [Redis.get?_setAll_of_notMem
        (by decide : ascii "@replace_revision" ∉ [ascii "@revision", ascii "@encoded_bytes"]),
        same, record.get?_hash_replaceRevision]
      rfl
    · rw [Redis.get?_setAll_of_notMem
        (by decide : ascii "@kind" ∉ [ascii "@revision", ascii "@encoded_bytes"]),
        same, record.get?_hash_kind]
      rfl
    · exact @Redis.get?_setAll_of_mem _ _ _ (ascii "@encoded_bytes", _) distinct
        (List.mem_cons_of_mem _ List.mem_cons_self)
  · intro name free
    rw [Record.header_names] at free
    have unset : name ∉ [ascii "@revision", ascii "@encoded_bytes"] := by
      intro listed
      apply free
      simp only [List.mem_cons, List.not_mem_nil, or_false] at listed
      rcases listed with rfl | rfl <;> decide
    rw [Redis.get?_setAll_of_notMem unset, same, Record.get?_hash free]

theorem Record.Valid.reserved_free (valid : record.Valid) (listed : name ∈ reserved)
    : record.fields.get? name = none := by
  by_contra found
  exact notMem_reserved (valid.names name (Option.isSome_iff_ne_none.mpr found)) listed

theorem Record.Valid.size_hash (valid : record.Valid)
    : record.hash.size = record.fields.size + 4 := by
  refine Redis.size_setAll (record.header_names ▸ nodup_reserved) fun pair listed => ?_
  apply valid.reserved_free
  rw [← record.header_names]
  exact List.mem_map_of_mem listed

-- What a script finds

def Zone.state (zone : Zone) (path : Path) : State where
  globalRevision := Decimal.text zone.revision
  floorRevision := Decimal.text zone.floor
  liveRevision := (zone.items path).liveRevision.map Decimal.text
  currentRevision := Decimal.text ((zone.items path).revision.getD 0)
  currentKind :=
    match zone.items path with
    | .present record => some record.kind
    | _ => none
  currentEncodedBytes :=
    match zone.items path with
    | .present record => Decimal.text record.encodedBytes
    | _ => ascii "0"

theorem Zone.nodup_counters (zone : Zone) : (zone.counters.map Prod.fst).Nodup :=
  (by decide : [ascii "@revision", ascii "@floor_revision"].Nodup)

variable {zone : Zone}

theorem Zone.Valid.absent (valid : zone.Valid) (fresh : zone.revision = 0) (path : Path)
    : zone.items path = .absent := by
  cases isItem : zone.items path with
  | absent => rfl
  | deleted revision time =>
      have counted := valid.counted path revision (by rw [isItem, Item.revision])
      omega
  | present record =>
      have counted := valid.counted path record.revision (by rw [isItem, Item.revision])
      omega

namespace Represents

variable {store : Store} {zone : Zone} {path : Path} {record : Record}

theorem typesMatch (represents : Represents store zone) (keys : List Key)
    : typesMatch store keys = true := by
  simp only [Catalog.typesMatch, List.all_eq_true]
  intro key _
  simpa using represents.shaped.kinds key

theorem hash_present (represents : Represents store zone)
    (present : zone.items path = .present record)
    : (store.hash (.catalog path)).get? = record.hash.get? := by
  rw [represents.hash, present, Item.hash]

theorem type_present (represents : Represents store zone)
    (present : zone.items path = .present record)
    : store.type (.catalog path) = .hash := by
  rcases represents.shaped.kinds (.catalog path) with none | isHash
  · have empty := (represents.shaped.hashes (.catalog path) rfl).mp none
    have found := record.get?_hash_revision
    rw [← represents.hash_present present, empty, Assoc.get?_empty] at found
    cases found
  · exact isHash

theorem type_missing (represents : Represents store zone)
    (missing : (zone.items path).liveRevision = none)
    : store.type (.catalog path) = .none := by
  refine (represents.shaped.hashes (.catalog path) rfl).mpr ?_
  have nothing : (zone.items path).hash = ∅ := by
    cases isItem : zone.items path with
    | present record =>
        rw [isItem] at missing
        cases missing
    | _ => rfl
  have same := represents.hash path
  rw [nothing] at same
  exact Redis.eq_empty_of_size (Assoc.size_congr same)

theorem type_index (represents : Represents store zone)
    : store.type (.fieldRevisions path) = .none ↔ (zone.items path).written.size = 0 := by
  rw [represents.shaped.zsets (.fieldRevisions path) rfl,
    ← Assoc.size_congr (represents.written path)]
  constructor
  · intro empty
    rw [empty]
    rfl
  · exact Redis.eq_empty_of_size

theorem zcard_eq_zero (represents : Represents store zone) {key : Key}
    (index : key ∈ [Key.live, .deleted, .deletedTime])
    (nothing : ∀ path, store.zscore key (Path.member path) = none)
    : store.zcard key = 0 := by
  have empty : (store.zset key).get? = (∅ : Assoc Text Nat).get? := by
    funext member
    rw [Assoc.get?_empty]
    by_contra found
    obtain ⟨path, rfl⟩ :=
      represents.members key index member (Option.isSome_iff_ne_none.mpr found)
    exact found (nothing path)
  exact Assoc.size_congr empty

theorem zoneRevisions (represents : Represents store zone)
    : zoneRevisions store = .ok (Decimal.text zone.revision, Decimal.text zone.floor) := by
  have valid := represents.valid
  have names := represents.metadata
  by_cases fresh : zone.revision = 0
  · have empty : (store.hash .metadata).get? = (∅ : Assoc Text Text).get? := by
      rw [names, Zone.metadata, if_pos fresh]
    have noFloor : zone.floor = 0 := Nat.le_zero.mp (fresh ▸ valid.floor)
    have live : store.zcard .live = 0 :=
      represents.zcard_eq_zero (by simp) fun path => by
        rw [represents.live, valid.absent fresh]
        rfl
    have deleted : store.zcard .deleted = 0 :=
      represents.zcard_eq_zero (by simp) fun path => by
        rw [represents.deleted, valid.absent fresh]
        rfl
    have deletedTime : store.zcard .deletedTime = 0 :=
      represents.zcard_eq_zero (by simp) fun path => by
        rw [represents.deletedTime, valid.absent fresh]
        rfl
    have length : store.hlen .metadata = 0 := Assoc.size_congr empty
    have missing (name : Text) : store.hget .metadata name = none := by
      rw [Database.hget, empty, Assoc.get?_empty]
    rw [Catalog.zoneRevisions, missing, missing]
    simp [length, live, deleted, deletedTime, fresh, noFloor]
  · have counter {pair : Text × Text} (listed : pair ∈ zone.counters)
        : store.hget .metadata pair.1 = some pair.2 := by
      rw [Database.hget, names, Zone.metadata, if_neg fresh]
      exact Redis.get?_setAll_of_mem zone.nodup_counters listed
    have revision : store.hget .metadata (ascii "@revision") = some (Decimal.text zone.revision) :=
      counter (show (ascii "@revision", Decimal.text zone.revision) ∈ zone.counters by
        simp [Zone.counters])
    have floor : store.hget .metadata (ascii "@floor_revision") = some (Decimal.text zone.floor) :=
      counter (show (ascii "@floor_revision", Decimal.text zone.floor) ∈ zone.counters by
        simp [Zone.counters])
    have small := valid.small
    have below := valid.floor
    rw [Catalog.zoneRevisions, revision, floor]
    have positive : 1 ≤ zone.revision := Nat.one_le_iff_ne_zero.mpr fresh
    simp [decimalLess, positive, small, below.trans small, Nat.not_lt.mpr below]

theorem score_live (represents : Represents store zone)
    : score store .live path.member = (zone.items path).liveRevision.map Decimal.text := by
  rw [score, represents.live]

theorem score_deleted (represents : Represents store zone)
    : score store .deleted path.member = (zone.items path).deletedRevision.map Decimal.text := by
  rw [score, represents.deleted]

theorem score_deletedTime (represents : Represents store zone)
    : score store .deletedTime path.member = (zone.items path).deletedTime.map Decimal.text := by
  rw [score, represents.deletedTime]

/-- The indexes of a zone agree on every path. -/
theorem indexRevisions (represents : Represents store zone) (path : Path)
    : indexRevisions store path.member
      = .ok ((zone.items path).liveRevision.map Decimal.text,
          (zone.items path).deletedRevision.map Decimal.text) := by
  have valid := represents.valid
  rw [Catalog.indexRevisions, represents.score_live, represents.score_deleted,
    represents.score_deletedTime]
  cases isItem : zone.items path with
  | absent => rfl
  | deleted revision time =>
      have counted := valid.counted path revision (by rw [isItem, Item.revision])
      have small := counted.2.trans valid.small
      have timely := valid.times path revision time isItem
      simp [Item.liveRevision, Item.deletedRevision, Item.deletedTime, counted.1, small, timely]
  | present record =>
      have counted := valid.counted path record.revision (by rw [isItem, Item.revision])
      have small := counted.2.trans valid.small
      simp [Item.liveRevision, Item.deletedRevision, Item.deletedTime, counted.1, small]

theorem header (represents : Represents store zone) (present : zone.items path = .present record)
    : header store path (some (Decimal.text record.revision))
      = some {
          revision := Decimal.text record.revision
          replaceRevision := Decimal.text record.replaceRevision
          kind := record.kind
          encodedBytes := Decimal.text record.encodedBytes } := by
  have valid := represents.valid.records path record present
  have counted := represents.valid.counted path record.revision (by rw [present, Item.revision])
  have small := counted.2.trans represents.valid.small
  have ordered := valid.ordered
  have bytes := valid.small
  have bounded : record.encodedBytes ≤ lastRevision := bytes.trans (by decide)
  rw [Catalog.header, Database.hget, Database.hget, Database.hget, Database.hget,
    represents.hash_present present]
  simp [decimalLess, counted.1, small, valid.positive, ordered.trans small,
    Nat.not_lt.mpr ordered, bounded, Nat.not_lt.mpr bytes]

/-- A record without an index has no fields. -/
theorem indexed (represents : Represents store zone) (present : zone.items path = .present record)
    : ¬(store.type (.fieldRevisions path) = .none ∧ store.hlen (.catalog path) ≠ 4) := by
  rintro ⟨unindexed, several⟩
  have nothing := represents.type_index.mp unindexed
  have isValid := represents.valid.records path record present
  rw [present, Item.written] at nothing
  apply several
  rw [Database.hlen, Assoc.size_congr (represents.hash_present present), isValid.size_hash,
    isValid.unwritten nothing]

/-- What a mutation finds is the state of its path. -/
theorem findState (represents : Represents store zone) {call : Call} (names : call.Names)
    : findState store call = if call.keys ≠ 6 ∨ call.member = [] then
          .error (.error .contract)
        else
          .ok (zone.state call.path) := by
  have valid := represents.valid
  rw [Catalog.findState]
  by_cases wrong : call.keys ≠ 6 ∨ call.member = []
  · rw [if_pos wrong, if_pos wrong]
  rw [if_neg wrong, if_neg wrong, represents.typesMatch, represents.zoneRevisions]
  have member : call.member = call.path.member := by
    rcases names with named | nameless
    · exact named
    · exact absurd (.inr nameless) wrong
  rw [member, represents.indexRevisions]
  cases isItem : zone.items call.path with
  | absent =>
      have type := represents.type_missing
        (show (zone.items call.path).liveRevision = none by rw [isItem]; rfl)
      have index : store.type (.fieldRevisions call.path) = .none :=
        represents.type_index.mpr (by rw [isItem]; rfl)
      simp [type, index, Item.liveRevision, Item.deletedRevision, Zone.state, isItem,
        Item.revision, decimalLess]
  | deleted revision time =>
      have type := represents.type_missing
        (show (zone.items call.path).liveRevision = none by rw [isItem]; rfl)
      have index : store.type (.fieldRevisions call.path) = .none :=
        represents.type_index.mpr (by rw [isItem]; rfl)
      have counted := valid.counted call.path revision (by rw [isItem, Item.revision])
      simp [type, index, Item.liveRevision, Item.deletedRevision, Zone.state, isItem,
        Item.revision, decimalLess, Nat.not_lt.mpr counted.2]
  | present record =>
      have type := represents.type_present isItem
      have counted := valid.counted call.path record.revision (by rw [isItem, Item.revision])
      have header := represents.header isItem
      have indexed := represents.indexed isItem
      simp [type, header, Item.liveRevision, Item.deletedRevision, Zone.state, isItem,
        Item.revision, decimalLess, indexed, Nat.not_lt.mpr counted.2]

end Represents

-- Fields are written by several commands

/-- The first rounds have the first items. Witness: induction over the rounds. -/
theorem flatten_rounds {Item : Type} (width : Nat) (items : List Item) (rounds : Nat)
    : ((List.range rounds).map fun round => (items.drop (round * width)).take width).flatten
      = items.take (rounds * width) := by
  induction rounds with
  | zero => simp
  | succ rounds ih =>
      rw [List.range_succ, List.map_append, List.flatten_append, ih, Nat.add_mul, Nat.one_mul,
        List.take_add]
      simp

theorem flatten_chunks {Item : Type} {width : Nat} (positive : 0 < width) (items : List Item)
    : (chunks width items).flatten = items := by
  rw [chunks, flatten_rounds]
  apply List.take_of_length_le
  have rounds := Nat.div_add_mod (items.length + width - 1) width
  have rest := Nat.mod_lt (items.length + width - 1) positive
  rw [Nat.mul_comm] at rounds
  omega

section Fields

variable {store : Store} {path : Path} {revision : Text} {fields : List (Text × Text)}

/-- What the commands for some parts leave. Witness: induction over the parts. -/
theorem write_parts (parts : List (List (Text × Text))) (store : Store)
    : let after := parts.foldl
        (fun store part =>
          (store.hset (.catalog path) part).zadd (.fieldRevisions path)
            (part.map fun field => (field.1, Decimal.value revision)))
        store
      (Database.Shaped Key.shape store → Database.Shaped Key.shape after)
        ∧ after.hash (.catalog path) = Database.setAll (store.hash (.catalog path)) parts.flatten
        ∧ after.zset (.fieldRevisions path) = Database.setAll (store.zset (.fieldRevisions path))
              (parts.flatten.map fun field => (field.1, Decimal.value revision))
        ∧ ∀ key, key ≠ .catalog path → key ≠ .fieldRevisions path
          → after.hash key = store.hash key ∧ after.zset key = store.zset key := by
  induction parts generalizing store with
  | nil => exact ⟨id, rfl, rfl, fun _ _ _ => ⟨rfl, rfl⟩⟩
  | cons part rest ih =>
      obtain ⟨shaped, fields, index, others⟩ := ih
        ((store.hset (.catalog path) part).zadd (.fieldRevisions path)
          (part.map fun field => (field.1, Decimal.value revision)))
      refine ⟨fun before => shaped ((before.hset rfl part).zadd rfl _), ?_, ?_, ?_⟩
      · rw [List.foldl_cons, fields, List.flatten_cons, Redis.setAll_append]
        simp
      · rw [List.foldl_cons, index, List.flatten_cons, List.map_append, Redis.setAll_append]
        simp
      · intro key notCatalog notIndex
        rw [List.foldl_cons, (others key notCatalog notIndex).1, (others key notCatalog notIndex).2]
        simp [notCatalog, notIndex]

theorem shaped_writeFields (shaped : Database.Shaped Key.shape store)
    : Database.Shaped Key.shape (writeFields store path revision fields) :=
  (write_parts _ store).1 shaped

theorem hash_writeFields
    : (writeFields store path revision fields).hash (.catalog path)
      = Database.setAll (store.hash (.catalog path)) fields := by
  rw [writeFields, (write_parts _ store).2.1, flatten_chunks (by decide)]

theorem zset_writeFields
    : (writeFields store path revision fields).zset (.fieldRevisions path)
      = Database.setAll (store.zset (.fieldRevisions path))
          (fields.map fun field => (field.1, Decimal.value revision)) := by
  rw [writeFields, (write_parts _ store).2.2.1, flatten_chunks (by decide)]

variable {key : Key}

theorem hash_writeFields_of_ne (notCatalog : key ≠ .catalog path)
    (notIndex : key ≠ .fieldRevisions path)
    : (writeFields store path revision fields).hash key = store.hash key :=
  ((write_parts _ store).2.2.2 key notCatalog notIndex).1

theorem zset_writeFields_of_ne (notCatalog : key ≠ .catalog path)
    (notIndex : key ≠ .fieldRevisions path)
    : (writeFields store path revision fields).zset key = store.zset key :=
  ((write_parts _ store).2.2.2 key notCatalog notIndex).2

end Fields

-- What the scripts write

namespace Represents

variable {store : Store} {zone : Zone} {path : Path} {record : Record}

theorem counters (represents : Represents store zone) {next : Zone} (positive : next.revision ≠ 0)
    : (Database.setAll (store.hash .metadata) next.counters).get? = next.metadata.get? := by
  funext name
  rw [Zone.metadata, if_neg positive]
  by_cases listed : name ∈ next.counters.map Prod.fst
  · obtain ⟨counter, member, rfl⟩ := List.mem_map.mp listed
    rw [Redis.get?_setAll_of_mem next.nodup_counters member,
      Redis.get?_setAll_of_mem next.nodup_counters member]
  · rw [Redis.get?_setAll_of_notMem listed, Redis.get?_setAll_of_notMem listed,
      represents.metadata, Zone.metadata]
    split
    · rfl
    · exact Redis.get?_setAll_of_notMem (show name ∉ zone.counters.map Prod.fst from listed)

end Represents

variable {store : Store} {path : Path}

/-- An accepted replacement leaves the store of the replaced zone. -/
theorem Represents.replace (represents : Represents store zone) {kind : Kind}
    {fields : List (Text × Text)} (lists : kind.Lists fields) (room : zone.revision < lastRevision)
    : Represents
        (writeReplacement store path path.member (zone.state path) kind
          (Decimal.text (listBytes fields)) fields)
        (zone.replace path kind fields) := by
  have valid : (zone.replace path kind fields).Valid :=
    (Mutates.replaced kind fields room lists : Mutates zone path _ _ _).valid represents.valid
  have next : incrementDecimal (zone.state path).globalRevision
      = Decimal.text (zone.revision + 1) := Decimal.increment_text zone.revision
  have member (other : Path) : other.member = path.member ↔ other = path :=
    Path.member_injective.eq_iff
  simp only [writeReplacement, next]
  refine ⟨?_, valid, ?_, ?_, ?_, ?_, ?_, ?_, ?_⟩
  · apply Database.Shaped.zrem _ rfl
    apply Database.Shaped.zrem _ rfl
    apply Database.Shaped.zadd _ rfl
    apply Database.Shaped.hset _ rfl
    apply shaped_writeFields
    apply Database.Shaped.hset _ rfl
    exact represents.shaped.unlink.unlink
  · simp [hash_writeFields_of_ne]
    exact @Represents.counters _ _ represents (zone.replace path kind fields) (Nat.succ_ne_zero _)
  · intro other
    have before := represents.live other
    rw [Database.zscore] at before ⊢
    by_cases same : other = path
    · simp [Database.setAll, same, Item.liveRevision, Record.whole]
    · simp [zset_writeFields_of_ne, Database.setAll, member, same, Zone.items_replace_of_ne, before]
  · intro other
    have before := represents.deleted other
    rw [Database.zscore] at before ⊢
    by_cases same : other = path
    · simp [same, Item.deletedRevision]
    · simp [zset_writeFields_of_ne, member, same, Zone.items_replace_of_ne, before]
  · intro other
    have before := represents.deletedTime other
    rw [Database.zscore] at before ⊢
    by_cases same : other = path
    · simp [same, Item.deletedTime]
    · simp [zset_writeFields_of_ne, member, same, Zone.items_replace_of_ne, before]
  · intro key index name found
    have before := represents.members key index name
    simp only [List.mem_cons, List.not_mem_nil, or_false] at index
    by_cases same : name = path.member
    · exact ⟨path, same.symm⟩
    · apply before
      rw [Database.zscore] at found ⊢
      rcases index with rfl | rfl | rfl
        <;> simpa [zset_writeFields_of_ne, Database.setAll, same] using found
  · intro other
    by_cases same : other = path
    · subst same
      rw [Zone.items_replace, Item.hash]
      have header := @Record.get?_header_first (.whole (zone.revision + 1) kind fields) ∅ fields
        lists.users rfl
      rw [Record.header, lists.encodedBytes_whole] at header
      simp [hash_writeFields]
      exact header
    · have kept := represents.hash other
      simp [hash_writeFields_of_ne, same, Zone.items_replace_of_ne, kept]
  · intro other
    by_cases same : other = path
    · simp [zset_writeFields, same, Item.written, Record.whole]
    · have kept := represents.written other
      simp [zset_writeFields_of_ne, same, Zone.items_replace_of_ne, kept]

/-- An accepted patch leaves the store of the patched zone. -/
theorem Represents.patch (represents : Represents store zone) {sets : List (Text × Text)}
    (takes : record.Takes sets) (present : zone.items path = .present record)
    (room : zone.revision < lastRevision)
    : Represents
        (writePatch store path path.member (zone.state path)
          (Decimal.text (record.write (zone.revision + 1) sets).encodedBytes) sets)
        (zone.patch path record sets) := by
  have valid : (zone.patch path record sets).Valid :=
    (Mutates.patched record sets room present takes : Mutates zone path _ _ _).valid
      represents.valid
  have next : incrementDecimal (zone.state path).globalRevision
      = Decimal.text (zone.revision + 1) := Decimal.increment_text zone.revision
  have member (other : Path) : other.member = path.member ↔ other = path :=
    Path.member_injective.eq_iff
  simp only [writePatch, next]
  refine ⟨?_, valid, ?_, ?_, ?_, ?_, ?_, ?_, ?_⟩
  · apply Database.Shaped.zadd _ rfl
    apply Database.Shaped.hset _ rfl
    apply shaped_writeFields
    exact represents.shaped.hset rfl _
  · simp [hash_writeFields_of_ne]
    exact @Represents.counters _ _ represents (zone.patch path record sets) (Nat.succ_ne_zero _)
  · intro other
    have before := represents.live other
    rw [Database.zscore] at before ⊢
    by_cases same : other = path
    · simp [Database.setAll, same, Item.liveRevision, Record.write]
    · simp [zset_writeFields_of_ne, Database.setAll, member, same, Zone.items_patch_of_ne, before]
  · intro other
    have before := represents.deleted other
    rw [Database.zscore] at before ⊢
    by_cases same : other = path
    · rw [same, present] at before
      simp [zset_writeFields_of_ne, same, before, Item.deletedRevision]
    · simp [zset_writeFields_of_ne, same, Zone.items_patch_of_ne, before]
  · intro other
    have before := represents.deletedTime other
    rw [Database.zscore] at before ⊢
    by_cases same : other = path
    · rw [same, present] at before
      simp [zset_writeFields_of_ne, same, before, Item.deletedTime]
    · simp [zset_writeFields_of_ne, same, Zone.items_patch_of_ne, before]
  · intro key index name found
    have before := represents.members key index name
    simp only [List.mem_cons, List.not_mem_nil, or_false] at index
    by_cases same : name = path.member
    · exact ⟨path, same.symm⟩
    · apply before
      rw [Database.zscore] at found ⊢
      rcases index with rfl | rfl | rfl
        <;> simpa [zset_writeFields_of_ne, Database.setAll, same] using found
  · intro other
    by_cases same : other = path
    · subst same
      rw [Zone.items_patch, Item.hash]
      have header := @Record.get?_header_first (record.write (zone.revision + 1) sets)
        record.fields sets takes.users rfl
      rw [← header]
      simp [hash_writeFields]
      exact Redis.setAll_congr (Record.get?_header_anew (represents.hash_present present))
    · have kept := represents.hash other
      simp [hash_writeFields_of_ne, same, Zone.items_patch_of_ne, kept]
  · intro other
    by_cases same : other = path
    · have kept := represents.written other
      rw [same, present] at kept
      simp [zset_writeFields, same, Item.written, Record.write]
      exact Redis.setAll_congr kept
    · have kept := represents.written other
      simp [zset_writeFields_of_ne, same, Zone.items_patch_of_ne, kept]

-- Tombstones that are given up

/-- What is selected is a candidate other than the member. Witness: induction over the candidates. -/
theorem mem_select {member : Text} {required : Nat} {evicted candidates : List Text}
    (listed : name ∈ select member required evicted candidates)
    : name ∈ evicted ∨ (name ∈ candidates ∧ name ≠ member) := by
  induction candidates generalizing required evicted with
  | nil => cases required <;> exact .inl listed
  | cons candidate rest ih =>
      cases required with
      | zero => exact .inl listed
      | succ required =>
          rw [select] at listed
          split at listed
          next fresh =>
            rcases ih listed with known | ⟨later, other⟩
            · rcases List.mem_append.mp known with before | last
              · exact .inl before
              · rw [List.mem_singleton.mp last]
                exact .inr ⟨List.mem_cons_self, fresh.1⟩
            · exact .inr ⟨List.mem_cons_of_mem _ later, other⟩
          · rcases ih listed with known | ⟨later, other⟩
            · exact .inl known
            · exact .inr ⟨List.mem_cons_of_mem _ later, other⟩

/-- Only other members of the two indexes are given up. -/
theorem mem_selectEvicted {member : Text} {now : Nat}
    (listed : name ∈ selectEvicted store member now)
    : name ≠ member
      ∧ ((store.zscore .deleted name).isSome ∨ (store.zscore .deletedTime name).isSome) := by
  rcases mem_select listed with expired | ⟨old, other⟩
  · rcases mem_select expired with none | ⟨candidate, other⟩
    · cases none
    · obtain ⟨pair, found, rfl⟩ := List.mem_map.mp candidate
      have stored := (Redis.mem_range.mp (List.mem_of_mem_take found)).1
      exact ⟨other, .inr (Option.isSome_iff_exists.mpr ⟨_, stored⟩)⟩
  · obtain ⟨pair, found, rfl⟩ := List.mem_map.mp old
    have stored := Redis.mem_ordered.mp (List.mem_of_mem_take found)
    exact ⟨other, .inl (Option.isSome_iff_exists.mpr ⟨_, stored⟩)⟩

/-- The floor rises over all that is given up, and no higher. Witness: induction over what is given
up.
-/
theorem raiseFloor_eq (store : Store) (floor : Nat) (evicted : List Text)
    : ∃ raised, raiseFloor store (Decimal.text floor) evicted = Decimal.text raised ∧ floor ≤ raised
      ∧ (∀ name ∈ evicted, ∀ revision, store.zscore .deleted name = some revision
        → revision ≤ raised)
      ∧ (raised = floor ∨ ∃ name ∈ evicted, store.zscore .deleted name = some raised) := by
  induction evicted generalizing floor with
  | nil => exact ⟨floor, rfl, Nat.le_refl _, nofun, .inl rfl⟩
  | cons first rest ih =>
      cases found : store.zscore .deleted first with
      | none =>
          obtain ⟨raised, same, above, every, reached⟩ := ih floor
          refine ⟨raised, ?_, above, ?_, ?_⟩
          · rw [← same, raiseFloor, List.foldl_cons, score, found]
            rfl
          · intro name listed revision has
            rcases List.mem_cons.mp listed with rfl | later
            · rw [found] at has
              cases has
            · exact every name later revision has
          · exact reached.imp_right fun ⟨name, later, has⟩ =>
              ⟨name, List.mem_cons_of_mem _ later, has⟩
      | some revision =>
          obtain ⟨raised, same, above, every, reached⟩ := ih (max floor revision)
          refine ⟨raised, ?_, (Nat.le_max_left _ _).trans above, ?_, ?_⟩
          · rw [← same, raiseFloor, List.foldl_cons, score, found, Option.map_some]
            have step : (if decimalLess (Decimal.text floor) (Decimal.text revision) = true then
                Decimal.text revision else Decimal.text floor)
                = Decimal.text (max floor revision) := by
              simp only [decimalLess, Decimal.less_text, decide_eq_true_iff]
              split
              next less => rw [Nat.max_eq_right less.le]
              next more => rw [Nat.max_eq_left (Nat.not_lt.mp more)]
            simp only [step]
            rfl
          · intro name listed other has
            rcases List.mem_cons.mp listed with rfl | later
            · rw [found] at has
              cases has
              exact (Nat.le_max_right _ _).trans above
            · exact every name later other has
          · rcases reached with isMax | ⟨name, later, has⟩
            · rcases Nat.le_total floor revision with less | more
              · refine .inr ⟨first, List.mem_cons_self, ?_⟩
                rw [found, isMax, Nat.max_eq_right less]
              · exact .inl (isMax.trans (Nat.max_eq_left more))
            · exact .inr ⟨name, List.mem_cons_of_mem _ later, has⟩

def Zone.delete (zone : Zone) (path : Path) (time : Nat) (evicted : List Text) (floor : Nat)
    : Zone where
  revision := zone.revision + 1
  floor
  items other :=
    if other = path then
      .deleted (zone.revision + 1) time
    else if other.member ∈ evicted then
      .absent
    else
      zone.items other

section Deletion

variable {store : Store} {zone : Zone} {path : Path} {time : Nat}

/-- What a deletion has marked when it starts to prune. -/
theorem Represents.marked (represents : Represents store zone) (path : Path) (time : Nat)
    : let marked := writeTombstone store path path.member (zone.state path) time
      Database.Shaped Key.shape marked
        ∧ (∀ other, marked.zscore .deleted (Path.member other)
          = if other = path then some (zone.revision + 1)
            else (zone.items other).deletedRevision)
        ∧ (∀ other, marked.zscore .deletedTime (Path.member other)
          = if other = path then some time else (zone.items other).deletedTime)
        ∧ ∀ key ∈ [Key.live, .deleted, .deletedTime], ∀ name,
          (marked.zscore key name).isSome → ∃ path, Path.member path = name := by
  have next : incrementDecimal (zone.state path).globalRevision
      = Decimal.text (zone.revision + 1) := Decimal.increment_text zone.revision
  have member (other : Path) : other.member = path.member ↔ other = path :=
    Path.member_injective.eq_iff
  simp only [writeTombstone, next]
  refine ⟨?_, ?_, ?_, ?_⟩
  · apply Database.Shaped.zadd _ rfl
    apply Database.Shaped.zadd _ rfl
    apply Database.Shaped.zrem _ rfl
    exact represents.shaped.unlink.unlink
  · intro other
    have before := represents.deleted other
    rw [Database.zscore] at before ⊢
    simp [Database.setAll, member, before]
  · intro other
    have before := represents.deletedTime other
    rw [Database.zscore] at before ⊢
    simp [Database.setAll, member, before]
  · intro key index name found
    have before := represents.members key index name
    simp only [List.mem_cons, List.not_mem_nil, or_false] at index
    by_cases same : name = path.member
    · exact ⟨path, same.symm⟩
    · apply before
      rw [Database.zscore] at found ⊢
      rcases index with rfl | rfl | rfl <;> simpa [Database.setAll, same] using found

/-- Pruning takes the given up members out of both indexes and counts the mutation. -/
theorem prune_views (store : Store) (state : State) (evicted : List Text)
    : let after := pruneTombstones store state evicted
      (Database.Shaped Key.shape store → Database.Shaped Key.shape after)
        ∧ (∀ key ∈ [Key.deleted, .deletedTime], ∀ name, after.zscore key name
          = if name ∈ evicted then none else store.zscore key name)
        ∧ after.hash .metadata = Database.setAll (store.hash .metadata)
              [(ascii "@revision", incrementDecimal state.globalRevision),
                (ascii "@floor_revision", raiseFloor store state.floorRevision evicted)]
        ∧ (∀ key, key ≠ .deleted → key ≠ .deletedTime → key ≠ .metadata
          → after.hash key = store.hash key ∧ after.zset key = store.zset key) := by
  by_cases nothing : evicted = []
  · simp only [pruneTombstones, if_pos nothing]
    refine ⟨fun shaped => shaped.hset rfl _, ?_, ?_, ?_⟩
    · intro key index name
      simp only [List.mem_cons, List.not_mem_nil, or_false] at index
      rcases index with rfl | rfl <;> simp [Database.zscore, nothing]
    · simp
    · intro key notDeleted notTime notMetadata
      simp [notMetadata]
  · simp only [pruneTombstones, if_neg nothing]
    refine ⟨fun shaped => ((shaped.zrem rfl _).zrem rfl _).hset rfl _, ?_, ?_, ?_⟩
    · intro key index name
      simp only [List.mem_cons, List.not_mem_nil, or_false] at index
      rcases index with rfl | rfl <;> simp [Database.zscore, Assoc.get?_removes]
    · simp
    · intro key notDeleted notTime notMetadata
      simp [notDeleted, notTime, notMetadata]

/-- An accepted deletion leaves the store of the zone without the path. -/
theorem Represents.delete (represents : Represents store zone) (room : zone.revision < lastRevision)
    (timely : time ≤ lastRevision)
    : let marked := writeTombstone store path path.member (zone.state path) time
      let evicted := selectEvicted marked path.member time
      ∃ next : Zone, zone.Deletes path time next
        ∧ raiseFloor marked (zone.state path).floorRevision evicted = Decimal.text next.floor
        ∧ Represents (pruneTombstones marked (zone.state path) evicted) next := by
  intro marked evicted
  obtain ⟨shaped, deleted, deletedTime, members⟩ := represents.marked path time
  obtain ⟨floor, isFloor, above, every, reached⟩ := raiseFloor_eq marked zone.floor evicted
  have next : incrementDecimal (zone.state path).globalRevision
      = Decimal.text (zone.revision + 1) := Decimal.increment_text zone.revision
  -- A member that is given up is that of another deleted path.
  have given {name : Text} (listed : name ∈ evicted)
      : ∃ other revision time, Path.member other = name ∧ other ≠ path
        ∧ zone.items other = .deleted revision time := by
    obtain ⟨different, found⟩ := mem_selectEvicted listed
    have known : ∃ other, Path.member other = name := by
      rcases found with inDeleted | inTime
      · exact members .deleted (by simp) name inDeleted
      · exact members .deletedTime (by simp) name inTime
    obtain ⟨other, rfl⟩ := known
    have apart : other ≠ path := fun same => different (congrArg Path.member same)
    rw [deleted, deletedTime, if_neg apart, if_neg apart] at found
    cases isItem : zone.items other with
    | deleted revision time => exact ⟨other, revision, time, rfl, apart, isItem⟩
    | absent => simp [isItem, Item.deletedRevision, Item.deletedTime] at found
    | present record => simp [isItem, Item.deletedRevision, Item.deletedTime] at found
  have covered {other : Path} {revision time : Nat} (listed : other.member ∈ evicted)
      (apart : other ≠ path) (isItem : zone.items other = .deleted revision time)
      : revision ≤ floor := by
    refine every _ listed revision ?_
    rw [deleted, if_neg apart, isItem, Item.deletedRevision]
  have within : floor ≤ zone.revision := by
    rcases reached with isFloor | ⟨name, listed, has⟩
    · exact isFloor ▸ represents.valid.floor
    · obtain ⟨other, revision, time, rfl, apart, isItem⟩ := given listed
      rw [deleted, if_neg apart, isItem, Item.deletedRevision] at has
      cases has
      exact (represents.valid.counted other floor (by rw [isItem, Item.revision])).2
  have unlisted : path.member ∉ evicted := fun listed => (mem_selectEvicted listed).1 rfl
  have deletes : zone.Deletes path time (zone.delete path time evicted floor) := by
    refine ⟨rfl, if_pos rfl, ?_, above, within⟩
    intro other apart
    simp only [Zone.delete, if_neg apart]
    by_cases listed : other.member ∈ evicted
    · obtain ⟨same, revision, time, isSame, _, isItem⟩ := given listed
      cases Path.member_injective isSame
      rw [if_pos listed]
      exact .inr ⟨revision, time, isItem, rfl, covered listed apart isItem⟩
    · rw [if_neg listed]
      exact .inl rfl
  refine ⟨zone.delete path time evicted floor, deletes, isFloor, ?_⟩
  obtain ⟨keeps, indexes, metadata, others⟩ := prune_views marked (zone.state path) evicted
  refine ⟨keeps shaped, deletes.valid represents.valid room timely, ?_, ?_, ?_, ?_, ?_, ?_, ?_⟩
  · rw [metadata, next, show (zone.state path).floorRevision = Decimal.text zone.floor from rfl,
      isFloor]
    have kept : marked.hash .metadata = store.hash .metadata := by
      simp [marked, writeTombstone]
    rw [kept]
    exact @Represents.counters _ _ represents (zone.delete path time evicted floor)
      (Nat.succ_ne_zero _)
  · intro other
    have kept : (pruneTombstones marked (zone.state path) evicted).zset .live
        = (store.zset .live).remove path.member := by
      rw [(others .live (by decide) (by decide) (by decide)).2]
      simp [marked, writeTombstone]
    have before := represents.live other
    rw [Database.zscore] at before ⊢
    rw [kept, Assoc.get?_remove, before]
    by_cases same : other = path
    · simp [Zone.delete, same, Item.liveRevision]
    · rw [if_neg (Path.member_injective.ne same)]
      by_cases listed : other.member ∈ evicted
      · obtain ⟨_, _, _, isSame, _, isItem⟩ := given listed
        cases Path.member_injective isSame
        simp [Zone.delete, same, listed, isItem, Item.liveRevision]
      · simp [Zone.delete, same, listed]
  · intro other
    rw [indexes .deleted (by simp), deleted]
    by_cases same : other = path
    · simp [Zone.delete, same, unlisted, Item.deletedRevision]
    · by_cases listed : other.member ∈ evicted
        <;> simp [Zone.delete, same, listed, Item.deletedRevision]
  · intro other
    rw [indexes .deletedTime (by simp), deletedTime]
    by_cases same : other = path
    · simp [Zone.delete, same, unlisted, Item.deletedTime]
    · by_cases listed : other.member ∈ evicted
        <;> simp [Zone.delete, same, listed, Item.deletedTime]
  · intro key index name found
    refine members key index name ?_
    simp only [List.mem_cons, List.not_mem_nil, or_false] at index
    rcases index with rfl | isDeleted
    · rwa [Database.zscore, (others .live (by decide) (by decide) (by decide)).2] at found
    · rw [indexes key (by simpa using isDeleted)] at found
      split at found
      · cases found
      · exact found
  · intro other
    have kept : (pruneTombstones marked (zone.state path) evicted).hash (.catalog other)
        = if other = path then ∅ else store.hash (.catalog other) := by
      rw [(others (.catalog other) (by rintro ⟨⟩) (by rintro ⟨⟩) (by rintro ⟨⟩)).1]
      simp [marked, writeTombstone]
    rw [kept]
    by_cases same : other = path
    · simp [Zone.delete, same, Item.hash]
    · rw [if_neg same, represents.hash other]
      by_cases listed : other.member ∈ evicted
      · obtain ⟨_, _, _, isSame, _, isItem⟩ := given listed
        cases Path.member_injective isSame
        simp [Zone.delete, same, listed, isItem, Item.hash]
      · simp [Zone.delete, same, listed]
  · intro other
    have kept : (pruneTombstones marked (zone.state path) evicted).zset (.fieldRevisions other)
        = if other = path then ∅ else store.zset (.fieldRevisions other) := by
      rw [(others (.fieldRevisions other) (by rintro ⟨⟩) (by rintro ⟨⟩) (by rintro ⟨⟩)).2]
      simp [marked, writeTombstone]
    rw [kept]
    by_cases same : other = path
    · simp [Zone.delete, same, Item.written]
    · rw [if_neg same, represents.written other]
      by_cases listed : other.member ∈ evicted
      · obtain ⟨_, _, _, isSame, _, isItem⟩ := given listed
        cases Path.member_injective isSame
        simp [Zone.delete, same, listed, isItem, Item.written]
      · simp [Zone.delete, same, listed]

end Deletion

-- Every script is a mutation

theorem length_pairs (arguments : List Text) : (pairs arguments).length = arguments.length / 2 := by
  fun_induction pairs arguments with
  | case1 name value rest ih =>
      rw [List.length_cons, ih, List.length_cons, List.length_cons]
      omega
  | case2 arguments few =>
      match arguments, few with
      | [], _ => rfl
      | [single], _ => simp
      | first :: second :: rest, few => exact absurd rfl (few first second rest)

/-- An outcome as a mutation of the zone; without an event, nothing is written. -/
def Outcome.Mutates (outcome : Outcome) (store : Store) (zone : Zone) (path : Path) : Prop :=
  ∃ next, Catalog.Mutates zone path outcome.answer outcome.event next
    ∧ Represents outcome.store next
    ∧ (outcome.event = none → outcome.store = store)

section Mutations

variable {store : Store} {zone : Zone} {call : Call}

/-- A mutation that gets past its checks is about its path. -/
theorem Call.Names.member (names : call.Names) (right : ¬(call.keys ≠ 6 ∨ call.member = []))
    : call.member = call.path.member := by
  rcases names with named | nameless
  · exact named
  · exact absurd (.inr nameless) right

variable {path : Path}

/-- A zone that has not used up its revisions has room. -/
theorem Represents.room (represents : Represents store zone)
    (room : (zone.state path).globalRevision ≠ maximumRevision)
    : zone.revision < lastRevision := by
  apply Nat.lt_of_le_of_ne represents.valid.small
  intro last
  apply room
  rw [maximumRevision_eq, ← last]
  rfl

theorem Zone.next_revision (zone : Zone) (path : Path)
    : incrementDecimal (zone.state path).globalRevision = Decimal.text (zone.revision + 1) :=
  Decimal.increment_text zone.revision

theorem Represents.refused (represents : Represents store zone) {status : Status}
    {field revision : Option Text} (sound : status ≠ .corrupt)
    : (refuse store (.error status field revision)).Mutates store zone path :=
  ⟨zone, .refused status field revision sound, represents, fun _ => rfl⟩

theorem Represents.replace_mutates (represents : Represents store zone) (names : call.Names)
    : (Catalog.replace store call).Mutates store zone call.path := by
  rw [Catalog.replace, represents.findState names]
  by_cases wrong : call.keys ≠ 6 ∨ call.member = []
  · rw [if_pos wrong]
    exact represents.refused nofun
  rw [if_neg wrong]
  simp only
  split
  next kind fieldCount encodedBytes isKind isCount isBytes =>
    by_cases malformed : call.argv.length ≠ 4 + fieldCount * 2 ∨ (kind = .value ∧ fieldCount ≠ 1)
    · rw [if_pos malformed]
      exact represents.refused nofun
    rw [if_neg malformed]
    obtain ⟨length, single⟩ := not_or.mp malformed
    obtain ⟨few, _⟩ := canonicalCount_iff.mp isCount
    obtain ⟨small, isText⟩ := canonicalCount_iff.mp isBytes
    have isFields : (pairs (call.argv.drop 4)).length = fieldCount := by
      rw [length_pairs, List.length_drop]
      omega
    split
    next => exact represents.refused nofun
    rename_i calculatedBytes accepted
    obtain ⟨isTotal, users, follows⟩ := calculate_some accepted
    split
    next => exact represents.refused nofun
    rename_i isEncoded
    split
    next => exact represents.refused nofun
    rename_i room
    rw [not_not] at isEncoded
    have total : listBytes (pairs (call.argv.drop 4)) = encodedBytes := by omega
    have lists : kind.Lists (pairs (call.argv.drop 4)) := by
      refine ⟨users, follows.orders ?_, isFields.trans_le few, total.trans_le small⟩
      intro isValue
      rw [List.length_map, isFields]
      by_contra several
      exact single ⟨isValue, several⟩
    have text : call.argv.getD 2 [] = Decimal.text (listBytes (pairs (call.argv.drop 4))) := by
      rw [List.getD_eq_getElem?_getD, isText, total, Option.getD_some]
    refine ⟨zone.replace call.path kind (pairs (call.argv.drop 4)), ?_, ?_, nofun⟩
    · simp only [zone.next_revision, text, names.member wrong]
      exact .replaced kind _ (represents.room room) lists
    · simp only [text, names.member wrong]
      exact represents.replace lists (represents.room room)
  next => exact represents.refused nofun

theorem Represents.patch_mutates (represents : Represents store zone) (names : call.Names)
    : (Catalog.patch store call).Mutates store zone call.path := by
  rw [Catalog.patch, represents.findState names]
  by_cases wrong : call.keys ≠ 6 ∨ call.member = []
  · rw [if_pos wrong]
    exact represents.refused (by rintro ⟨⟩)
  rw [if_neg wrong]
  simp only
  split
  next baseRevision setCount encodedBytes isBase isCount isBytes =>
    by_cases malformed : canonicalPositive (some baseRevision) = false ∨ setCount = 0
        ∨ call.argv.length ≠ 4 + setCount * 2
    · rw [if_pos malformed]
      exact represents.refused (by rintro ⟨⟩)
    rw [if_neg malformed]
    by_cases stale : (zone.state call.path).currentRevision ≠ baseRevision
        ∨ (zone.state call.path).liveRevision = none
    · rw [if_pos stale]
      exact represents.refused (by rintro ⟨⟩)
    rw [if_neg stale]
    obtain ⟨isCurrent, isLive⟩ := not_or.mp stale
    obtain ⟨_, wellFormed⟩ := not_or.mp malformed
    obtain ⟨several, length⟩ := not_or.mp wellFormed
    obtain ⟨listed, _⟩ := canonicalCount_iff.mp isCount
    obtain ⟨small, isText⟩ := canonicalCount_iff.mp isBytes
    have isSets : (pairs (call.argv.drop 4)).length = setCount := by
      rw [length_pairs, List.length_drop]
      omega
    obtain ⟨record, present⟩ : ∃ record, zone.items call.path = .present record := by
      cases isItem : zone.items call.path with
      | present record => exact ⟨record, rfl⟩
      | absent => simp [Zone.state, isItem, Item.liveRevision] at isLive
      | deleted revision time => simp [Zone.state, isItem, Item.liveRevision] at isLive
    have isKind : (zone.state call.path).currentKind.getD .map = record.kind := by
      simp [Zone.state, present]
    have isRevision : baseRevision = Decimal.text record.revision := by
      rw [not_not] at isCurrent
      simp [← isCurrent, Zone.state, present, Item.revision]
    have isOld : Decimal.value (zone.state call.path).currentEncodedBytes
        = record.encodedBytes := by
      simp [Zone.state, present]
    have valid := represents.valid.records call.path record present
    have isLength : store.hlen (.catalog call.path) - 4 = record.fields.size := by
      rw [Database.hlen, Assoc.size_congr (represents.hash_present present), valid.size_hash]
      omega
    rw [isKind]
    split
    next => exact represents.refused (by rintro ⟨⟩)
    rename_i isSeveral
    split
    next => exact represents.refused (by rintro ⟨⟩)
    rename_i room
    split
    next answer isError =>
      obtain ⟨status, field, revision, rfl, sound⟩ := project_error isError
      exact represents.refused sound
    rename_i projectedBytes projectedFields accepted
    split
    next => exact represents.refused (by rintro ⟨⟩)
    rename_i few
    split
    next => exact represents.refused (by rintro ⟨⟩)
    rename_i isEncoded
    obtain ⟨users, orders, known⟩ := project_listed accepted
    have found : ∀ set ∈ pairs (call.argv.drop 4),
        store.hget (.catalog call.path) set.1 = record.fields.get? set.1 := by
      intro set listed
      rw [Database.hget, represents.hash_present present,
        Record.get?_hash (notMem_reserved (users set listed))]
    obtain ⟨weights, sizes⟩ := project_counts accepted found
    have total
        : (record.write (zone.revision + 1) (pairs (call.argv.drop 4))).encodedBytes
          = encodedBytes := by
      rw [isOld, Record.encodedBytes] at weights
      change (Database.setAll record.fields _).weight fieldBytes = encodedBytes
      omega
    have takes : record.Takes (pairs (call.argv.drop 4)) := by
      refine ⟨isSeveral, ?_, users, orders, ?_, isSets.trans_le listed, ?_, total.trans_le small⟩
      · intro nothing
        rw [nothing] at isSets
        exact several isSets.symm
      · intro isArray set member
        rw [← found set member]
        exact known isArray set member
      · omega
    have text : call.argv.getD 2 []
        = Decimal.text
            (record.write (zone.revision + 1)
              (pairs (call.argv.drop 4))).encodedBytes := by
      rw [List.getD_eq_getElem?_getD, isText, total, Option.getD_some]
    refine ⟨zone.patch call.path record (pairs (call.argv.drop 4)), ?_, ?_,
      (by intros; contradiction)⟩
    · simp only [zone.next_revision, text, names.member wrong, isRevision]
      exact .patched record _ (represents.room room) present takes
    · simp only [text, names.member wrong]
      exact represents.patch takes present (represents.room room)
  next => exact represents.refused (by rintro ⟨⟩)

/-- A deletion at a time that a score can hold. -/
theorem Represents.delete_mutates (represents : Represents store zone) (names : call.Names)
    {time : Time} (timely : time.milliseconds ≤ lastRevision)
    : (Catalog.delete store call time).Mutates store zone call.path := by
  rw [Catalog.delete, represents.findState names]
  by_cases wrong : call.keys ≠ 6 ∨ call.member = []
  · rw [if_pos wrong]
    exact represents.refused nofun
  rw [if_neg wrong]
  simp only
  split
  next => exact represents.refused nofun
  split
  next => exact represents.refused nofun
  rename_i room
  obtain ⟨next, deletes, isFloor, after⟩ :=
    @Represents.delete store zone call.path time.milliseconds represents
      (represents.room room) timely
  refine ⟨next, ?_, ?_, nofun⟩
  · simp only [zone.next_revision, names.member wrong, isFloor]
    exact .deleted _ next _ (represents.room room) timely deletes
  · simp only [names.member wrong]
    exact after

end Mutations

end Sdk.Catalog
