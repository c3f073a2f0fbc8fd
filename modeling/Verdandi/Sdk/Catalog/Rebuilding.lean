import Verdandi.Sdk.Catalog.Consistency
import Verdandi.Sdk.Catalog.Events

/-! A client rebuilds what the authority has, from a read against what it held before as well as from
the events of the path.
-/

namespace Sdk.Catalog

open Support
open Support.Redis (Text Database)

structure RawState.Holds (state content : RawState) : Prop where
  revision : state.revision = content.revision
  replaceRevision : state.replaceRevision = content.replaceRevision
  kind : state.kind = content.kind
  encodedBytes : state.encodedBytes = content.encodedBytes
  fields : state.fields.get? = content.fields.get?

structure RawState.Same (state content : RawState) : Prop extends state.Holds content where
  status : state.status = content.status

def Store.state (store : Store) (path : Path) : RawState :=
  match store.hget (.catalog path) (ascii "@revision") with
  | some revision => {
      revision := Decimal.value revision
      replaceRevision :=
        Decimal.value ((store.hget (.catalog path) (ascii "@replace_revision")).getD [])
      status := .present
      kind := (store.hget (.catalog path) (ascii "@kind")).bind Kind.parse
      encodedBytes := Decimal.value ((store.hget (.catalog path) (ascii "@encoded_bytes")).getD [])
      fields := store.userFields path }
  | none => deletedState ((store.zscore .deleted path.member).getD 0)

def Record.state (record : Record) : RawState where
  revision := record.revision
  replaceRevision := record.replaceRevision
  status := .present
  kind := some record.kind
  encodedBytes := record.encodedBytes
  fields := record.fields

def Item.state : Item → RawState
  | .absent => deletedState 0
  | .deleted revision _ => deletedState revision
  | .present record => record.state

theorem RawState.Same.refl (state : RawState) : state.Same state :=
  ⟨⟨rfl, rfl, rfl, rfl, rfl⟩, rfl⟩

theorem RawState.Same.trans {first second third : RawState} (left : first.Same second)
    (right : second.Same third)
    : first.Same third :=
  ⟨⟨left.revision.trans right.revision, left.replaceRevision.trans right.replaceRevision,
    left.kind.trans right.kind, left.encodedBytes.trans right.encodedBytes,
    left.fields.trans right.fields⟩, left.status.trans right.status⟩

theorem RawState.Same.symm {first second : RawState} (same : first.Same second)
    : second.Same first :=
  ⟨⟨same.revision.symm, same.replaceRevision.symm, same.kind.symm, same.encodedBytes.symm,
    same.fields.symm⟩, same.status.symm⟩

variable {zone : Zone}

/-- The store has what the zone has. -/
theorem Represents.state {store : Store} (represents : Represents store zone) (path : Path)
    : (store.state path).Same (zone.items path).state := by
  have fields := represents.get?_userFields path
  cases isItem : zone.items path with
  | present record =>
      rw [isItem] at fields
      have hash := represents.hash_present isItem
      simp only [Store.state, Database.hget, hash, record.get?_hash_revision,
        record.get?_hash_replaceRevision, record.get?_hash_kind, record.get?_hash_encodedBytes,
        Option.getD_some, Option.bind_some, Kind.parse_text, Decimal.value_text]
      exact ⟨⟨rfl, rfl, rfl, rfl, fields⟩, rfl⟩
  | absent =>
      have hash := represents.hash path
      have deleted := represents.deleted path
      rw [isItem] at hash deleted
      simp only [Store.state, Database.hget, hash, deleted, Item.hash, Assoc.get?_empty,
        Item.deletedRevision]
      exact .refl _
  | deleted revision time =>
      have hash := represents.hash path
      have deleted := represents.deleted path
      rw [isItem] at hash deleted
      simp only [Store.state, Database.hget, hash, deleted, Item.hash, Assoc.get?_empty,
        Item.deletedRevision]
      exact .refl _

-- What becomes of a record

structure Record.Grows (old new : Record) : Prop where
  kind : new.kind = old.kind
  replaced : new.replaceRevision = old.replaceRevision
  later : old.revision ≤ new.revision
  same : new.revision = old.revision → new.fields.get? = old.fields.get?
  rewritten : old.revision < new.revision
    → ∃ name revision, new.written.get? name = some revision ∧ old.revision < revision
  kept : ∀ name, (∃ revision, new.written.get? name = some revision ∧ old.revision < revision)
    ∨ new.fields.get? name = old.fields.get? name

/-- What a path has later than a record: the record with patches, a newer one, or none. -/
def Item.Since (old : Record) : Item → Prop
  | .present new => old.revision < new.replaceRevision ∨ old.Grows new
  | _ => True

theorem Record.Grows.refl (record : Record) : record.Grows record where
  kind := rfl
  replaced := rfl
  later := Nat.le_refl _
  same _ := rfl
  rewritten less := absurd less (Nat.lt_irrefl _)
  kept _ := .inr rfl

theorem Record.Grows.write {old new : Record} (grows : old.Grows new)
    {sets : List (Text × Text)} (some : sets ≠ []) {revision : Nat} (later : old.revision < revision)
    : old.Grows (new.write revision sets) := by
  refine ⟨grows.kind, grows.replaced, later.le, fun same => absurd same (Nat.ne_of_gt later), ?_, ?_⟩
  · intro _
    obtain ⟨set, rest, rfl⟩ := List.exists_cons_of_ne_nil some
    refine ⟨set.1, revision, ?_, later⟩
    rw [Record.written_write, if_pos]
    exact List.mem_map_of_mem List.mem_cons_self
  · intro name
    rw [Record.written_write]
    by_cases listed : name ∈ sets.map Prod.fst
    · exact .inl ⟨revision, if_pos listed, later⟩
    · rw [if_neg listed]
      rcases grows.kept name with newer | same
      · exact .inl newer
      · refine .inr ?_
        rw [← same]
        exact Redis.get?_setAll_of_notMem listed

variable {next : Zone} {path : Path} {answer : Answer} {event : Option Event}

theorem Mutates.since {other : Path} (mutates : Mutates zone path answer event next) {old : Record}
    (before : old.revision ≤ zone.revision) (since : (zone.items other).Since old)
    : (next.items other).Since old ∧ old.revision ≤ next.revision := by
  cases mutates with
  | refused => exact ⟨since, before⟩
  | replaced kind fields room lists =>
      refine ⟨?_, before.trans (Nat.le_succ _)⟩
      by_cases same : other = path
      · subst same
        rw [Zone.items_replace]
        exact .inl (Nat.lt_succ_of_le before)
      · rwa [Zone.items_replace_of_ne same]
  | patched record sets room found takes =>
      refine ⟨?_, before.trans (Nat.le_succ _)⟩
      by_cases same : other = path
      · subst same
        rw [found] at since
        rw [Zone.items_patch]
        rcases since with newer | grows
        · exact .inl newer
        · exact .inr (grows.write takes.some (Nat.lt_succ_of_le before))
      · rwa [Zone.items_patch_of_ne same]
  | deleted time next pruned room timely deletes =>
      refine ⟨?_, before.trans ((Nat.le_succ _).trans_eq deletes.revision.symm)⟩
      by_cases same : other = path
      · subst same
        rw [deletes.item]
        trivial
      · rcases deletes.others other same with kept | ⟨_, _, _, gone, _⟩
        · rwa [kept]
        · rw [gone]
          trivial

def Zone.Readable (zone : Zone) : Prop :=
  ∀ path record name, zone.items path = .present record → (record.fields.get? name).isSome
    → validString name = true

theorem Mutates.readable (mutates : Mutates zone path answer event next) (readable : zone.Readable)
    (isReadable : ∀ published ∈ event, published.Readable)
    : next.Readable := by
  intro other record name present found
  cases mutates with
  | refused => exact readable other record name present found
  | replaced kind fields room lists =>
      by_cases same : other = path
      · subst same
        rw [Zone.items_replace] at present
        cases present
        obtain ⟨field, listed, rfl⟩ := List.mem_map.mp (Record.isSome_whole.mp found)
        exact isReadable _ rfl field listed
      · rw [Zone.items_replace_of_ne same] at present
        exact readable other record name present found
  | patched old sets room isOld takes =>
      by_cases same : other = path
      · subst same
        rw [Zone.items_patch] at present
        cases present
        rcases Record.isSome_write.mp found with written | before
        · obtain ⟨set, listed, rfl⟩ := List.mem_map.mp written
          exact isReadable _ rfl set listed
        · exact readable other old name isOld before
      · rw [Zone.items_patch_of_ne same] at present
        exact readable other record name present found
  | deleted time next pruned room timely deletes =>
      by_cases same : other = path
      · subst same
        rw [deletes.item] at present
        cases present
      · rcases deletes.others other same with kept | ⟨_, _, _, gone, _⟩
        · exact readable other record name (kept ▸ present) found
        · rw [gone] at present
          cases present

-- Reads

theorem Kind.Shapes.congr {kind : Kind} {left right : Assoc Text Text} (shapes : kind.Shapes left)
    (same : right.get? = left.get?)
    : kind.Shapes right := by
  have size := Assoc.size_congr same
  cases kind with
  | value =>
      intro name
      rw [same]
      exact shapes name
  | array =>
      intro name
      rw [same, size]
      exact shapes name
  | map => trivial

variable {fields : Assoc Text Text}

/-- A single value is one field. -/
theorem Kind.Shapes.size_value (shapes : Kind.value.Shapes fields)
    : fields.size = 1 := by
  have mem (name : Text) : name ∈ fields.keys ↔ name = ascii "value" := by
    rw [Assoc.mem_keys, ← Option.isSome_iff_exists]
    exact shapes name
  have below : fields.size ≤ 1 :=
    @Assoc.size_le_length _ _ fields [ascii "value"] fun name listed =>
      List.mem_singleton.mpr ((mem name).mp listed)
  have above := List.length_pos_of_mem ((mem (ascii "value")).mpr rfl)
  have length : fields.keys.length = fields.size := by simp [Assoc.keys, Assoc.size]
  omega

variable {maximumBytes : Nat}

/-- What is rebuilt of a record is accepted with its size. -/
theorem Record.Valid.validate {record : Record} (valid : record.Valid)
    (same : fields.get? = record.fields.get?)
    (readable : ∀ name, (record.fields.get? name).isSome → validString name = true)
    (fits : record.encodedBytes ≤ maximumBytes)
    : ∃ names, validateValue (some record.kind) fields maximumBytes
      = .ok (names, record.encodedBytes) := by
  have shape := valid.shape.congr same
  have size := Assoc.size_congr same
  have weight : fields.weight fieldBytes = record.encodedBytes :=
    Assoc.weight_congr fieldBytes same
  rw [← weight]
  refine validateValue_ok shape (size.trans_le valid.few) ?_ (weight.trans_le fits) ?_
  · intro name found
    rw [same] at found
    exact validFieldName_of (valid.names name found) (readable name found)
  · intro isValue
    rw [isValue] at shape
    exact shape.size_value

section Reads

variable {store : Store} {zone : Zone} {call : Call} {known : RawState} {old : Record}
  {maximumBytes : Nat}

theorem completePresent_of (valid : old.Valid) (holds : known.Holds old.state)
    : completePresent (some known) = true := by
  have ordered := valid.ordered
  have positive := valid.positive
  have revision : known.revision ≠ 0 := by
    rw [holds.revision]
    change old.revision ≠ 0
    omega
  have replaceRevision : known.replaceRevision ≠ 0 := by
    rw [holds.replaceRevision]
    change old.replaceRevision ≠ 0
    omega
  have kind : known.kind = some old.kind := holds.kind
  simp [completePresent, revision, replaceRevision, kind]

variable {fields : List (Text × Text)}

/-- A list of distinct names says what is in the map that is made of it. -/
theorem get?_made (distinct : (fields.map Prod.fst).Nodup) {name value : Text}
    : (Database.setAll (∅ : Assoc Text Text) fields).get? name = some value
      ↔ (name, value) ∈ fields := by
  constructor
  · intro found
    have listed := Redis.isSome_setAll.mp (Option.isSome_iff_exists.mpr ⟨_, found⟩)
    rw [Assoc.get?_empty, Option.isSome_none, Bool.false_eq_true, or_false] at listed
    obtain ⟨field, member, rfl⟩ := List.mem_map.mp listed
    rw [Redis.get?_setAll_of_mem distinct member, Option.some.injEq] at found
    rw [← found]
    exact member
  · exact Redis.get?_setAll_of_mem distinct

/-- What changed since an older record turns it into the newer one. -/
theorem Record.Grows.join {new : Record} (grows : old.Grows new) (valid : new.Valid)
    (changed : new.Changed old.revision fields) {known : Assoc Text Text}
    (same : known.get? = old.fields.get?)
    : (Database.setAll known (Database.setAll (∅ : Assoc Text Text) fields).toPairs).get?
      = new.fields.get? := by
  funext name
  have distinct : ((Database.setAll (∅ : Assoc Text Text) fields).toPairs.map Prod.fst).Nodup := by
    rw [← Assoc.keys_eq_toPairs]
    exact Assoc.nodup_keys _
  cases found : (Database.setAll (∅ : Assoc Text Text) fields).get? name with
  | some value =>
      have listed := (Assoc.mem_toPairs _ name value).mpr found
      rw [Redis.get?_setAll_of_mem distinct listed]
      exact ((changed.mem name value).mp ((get?_made changed.nodup).mp found)).1.symm
  | none =>
      have absent : name ∉ (Database.setAll (∅ : Assoc Text Text) fields).toPairs.map Prod.fst := by
        rw [← Assoc.keys_eq_toPairs, Assoc.mem_keys, found]
        nofun
      rw [Redis.get?_setAll_of_notMem absent, same]
      rcases grows.kept name with ⟨revision, written, newer⟩ | kept
      · have stored : (new.fields.get? name).isSome := by
          rw [← valid.indexed, written, Option.isSome_some]
        obtain ⟨value, isValue⟩ := Option.isSome_iff_exists.mp stored
        have listed := (changed.mem name value).mpr ⟨isValue, revision, written, newer⟩
        rw [(get?_made changed.nodup).mpr listed] at found
        cases found
      · exact kept.symm

/-- What is read against an older record is the item of the path. -/
theorem Represents.read_rebuilds (represents : Represents store zone) (readable : zone.Readable)
    (valid : old.Valid) (holds : known.Holds old.state)
    (since : (zone.items call.path).Since old) (asks : call.Asks known.revision)
    (fits : (zone.items call.path).state.encodedBytes ≤ maximumBytes)
    : ∃ state, parseReadReply (Catalog.read store call).reply (some known) maximumBytes = .ok state
      ∧ state.Same (zone.items call.path).state := by
  have reads := represents.read asks
  have complete := completePresent_of valid holds
  have isRevision : known.revision = old.revision := holds.revision
  have isReplace : known.replaceRevision = old.replaceRevision := holds.replaceRevision
  have isKind : known.kind = some old.kind := holds.kind
  have isFields : known.fields.get? = old.fields.get? := holds.fields
  cases isItem : zone.items call.path with
  | absent =>
      rw [isItem] at reads
      generalize Catalog.read store call = reading at reads
      cases reads
      exact ⟨_, parseReadReply_absent, .refl _⟩
  | deleted revision time =>
      have counted := represents.valid.counted call.path revision (by rw [isItem, Item.revision])
      rw [isItem] at reads
      generalize Catalog.read store call = reading at reads
      cases reads
      exact ⟨_, parseReadReply_deleted counted.1 (counted.2.trans represents.valid.small), .refl _⟩
  | present record =>
      have isValid := represents.valid.records call.path record isItem
      have counted := represents.valid.counted call.path record.revision
        (by rw [isItem, Item.revision])
      have small := counted.2.trans represents.valid.small
      have names := readable call.path record
      have bounded : record.encodedBytes ≤ 2 ^ 31 - 1 := isValid.small.trans (by decide)
      rw [isItem] at reads since fits
      change record.encodedBytes ≤ maximumBytes at fits
      -- What is joined to the contents of the record is parsed to the record.
      have parse {mode : Mode} {fields : List (Text × Text)} {joined : Assoc Text Text}
          (distinct : (fields.map Prod.fst).Nodup)
          (stored : ∀ field ∈ fields, (record.fields.get? field.1).isSome)
          (joins
            : joinFields mode.text (some known)
                { revision := record.revision, replaceRevision := record.replaceRevision,
                  status := .present, kind := some record.kind,
                  encodedBytes := record.encodedBytes }
                (Database.setAll ∅ fields)
              = some joined)
          (same : joined.get? = record.fields.get?)
          : ∃ state, parseReadReply (Reading.present mode record.heading fields).reply (some known)
                maximumBytes = .ok state
              ∧ state.Same (Item.present record).state := by
        have few : fields.length ≤ maximumFields := by
          have inside : fields.map Prod.fst ⊆ record.fields.keys := by
            intro name listed
            obtain ⟨field, member, rfl⟩ := List.mem_map.mp listed
            rw [Assoc.mem_keys, ← Option.isSome_iff_exists]
            exact stored field member
          have shorter := (List.subperm_of_subset distinct inside).length_le
          rw [List.length_map] at shorter
          refine (shorter.trans_eq ?_).trans isValid.few
          simp [Assoc.keys, Assoc.size]
        refine ⟨_, parseReadReply_present isValid.positive isValid.ordered small fits bounded
          distinct ?_ few joins (isValid.validate same (fun name => names name isItem) fits), ?_⟩
        · intro field listed
          have found := stored field listed
          exact validFieldName_of (isValid.names field.1 found) (names field.1 isItem found)
        · exact ⟨⟨rfl, rfl, rfl, rfl, same⟩, rfl⟩
      generalize Catalog.read store call = reading at reads
      cases reads with
      | unchanged _ same =>
          have grows : old.Grows record := by
            rcases since with newer | grows
            · have ordered := isValid.ordered
              omega
            · exact grows
          have fields := grows.same (by omega)
          have bytes : known.encodedBytes = record.encodedBytes :=
            holds.encodedBytes.trans (Assoc.weight_congr fieldBytes fields).symm
          refine parse List.nodup_nil (by intros; contradiction) ?_ (isFields.trans fields.symm)
          rw [joinFields, if_neg (by decide), if_neg (by decide), if_pos (by decide)]
          simp only
          rw [if_neg]
          rintro (partly | some | other | other | other | other)
          · rw [complete] at partly
            cases partly
          · exact some rfl
          · exact other same
          · exact other (isReplace.trans grows.replaced.symm)
          · exact other (isKind.trans (congrArg _ grows.kind.symm))
          · exact other bytes
      | patch _ fields isKnown older changed =>
          have grows : old.Grows record := by
            rcases since with newer | grows
            · omega
            · exact grows
          rw [isRevision] at changed
          have some : (Database.setAll (∅ : Assoc Text Text) fields).size ≠ 0 := by
            obtain ⟨name, revision, written, newer⟩ := grows.rewritten (by omega)
            have stored : (record.fields.get? name).isSome := by
              rw [← isValid.indexed, written, Option.isSome_some]
            obtain ⟨value, isValue⟩ := Option.isSome_iff_exists.mp stored
            have listed := (changed.mem name value).mpr ⟨isValue, revision, written, newer⟩
            exact Redis.size_ne_zero ((get?_made changed.nodup).mpr listed)
          refine parse changed.nodup ?_ ?_ (grows.join isValid changed isFields)
          · intro field listed
            exact Option.isSome_iff_exists.mpr ⟨_, ((changed.mem field.1 field.2).mp listed).1⟩
          · rw [joinFields, if_neg (by decide), if_pos (by decide)]
            simp only
            rw [if_neg]
            rintro (partly | none | newer | unknown | other | other)
            · rw [complete] at partly
              cases partly
            · exact some none
            · omega
            · omega
            · exact other (isReplace.trans grows.replaced.symm)
            · exact other (isKind.trans (congrArg _ grows.kind.symm))
      | replace _ fields different unknown whole =>
          have distinct : (fields.map Prod.fst).Nodup :=
            @Kind.Orders.nodup .map _ whole.orders
          have same : (Database.setAll (∅ : Assoc Text Text) fields).get? = record.fields.get? := by
            funext name
            apply Option.ext
            intro value
            rw [get?_made distinct]
            exact whole.mem name value
          refine parse distinct ?_ ?_ same
          · intro field listed
            exact Option.isSome_iff_exists.mpr ⟨_, (whole.mem field.1 field.2).mp listed⟩
          · rw [joinFields, if_pos (by decide)]

end Reads

-- Events

def Event.member : Event → Text
  | .replace member _ _ _ _ | .patch member _ _ _ _ _ | .delete member _ => member

def Event.size : Event → Nat
  | .replace _ _ _ encodedBytes _ | .patch _ _ _ _ encodedBytes _ => Decimal.value encodedBytes
  | .delete _ _ => 0

variable {sets : List (Text × Text)}

/-- What is written is part of what is left. -/
theorem listBytes_le (distinct : (sets.map Prod.fst).Nodup)
    : listBytes sets ≤ (Database.setAll fields sets).weight fieldBytes := by
  have whole : (Database.setAll (∅ : Assoc Text Text) sets).weight fieldBytes = listBytes sets :=
    (Redis.weight_setAll _ distinct fun _ _ => Assoc.get?_empty _).trans (Nat.zero_add _)
  have nothing : (∅ : Assoc Text Text).weight fieldBytes = 0 := rfl
  have part := @Assoc.weight_le_add _ _ _ (Database.setAll (∅ : Assoc Text Text) sets)
    (Database.setAll fields sets) ∅ fieldBytes fun name value found =>
      .inl (Redis.get?_setAll_of_mem distinct ((get?_made distinct).mp found))
  omega

theorem get?_setAll_made (distinct : (sets.map Prod.fst).Nodup)
    : (Database.setAll fields (Database.setAll (∅ : Assoc Text Text) sets).toPairs).get?
      = (Database.setAll fields sets).get? := by
  funext name
  have keys : ((Database.setAll (∅ : Assoc Text Text) sets).toPairs.map Prod.fst).Nodup := by
    rw [← Assoc.keys_eq_toPairs]
    exact Assoc.nodup_keys _
  cases found : (Database.setAll (∅ : Assoc Text Text) sets).get? name with
  | some value =>
      rw [Redis.get?_setAll_of_mem keys ((Assoc.mem_toPairs _ name value).mpr found),
        Redis.get?_setAll_of_mem distinct ((get?_made distinct).mp found)]
  | none =>
      have absent : name ∉ (Database.setAll (∅ : Assoc Text Text) sets).toPairs.map Prod.fst := by
        rw [← Assoc.keys_eq_toPairs, Assoc.mem_keys, found]
        nofun
      have unset : name ∉ sets.map Prod.fst := by
        intro listed
        have isSome := (@Redis.isSome_setAll _ ∅ sets name).mpr (.inl listed)
        rw [found] at isSome
        cases isSome
      rw [Redis.get?_setAll_of_notMem absent, Redis.get?_setAll_of_notMem unset]

section Events

variable {zone next : Zone} {path : Path} {answer : Answer} {event : Event} {maximumBytes : Nat}

/-- A published event is decoded to what was packed. -/
theorem Mutates.decodes (mutates : Mutates zone path answer (some event) next) (valid : zone.Valid)
    (readable : event.Readable) (fits : event.size ≤ maximumBytes)
    : event.member = path.member
      ∧ decodeEvent event.pack path maximumBytes = .ok (event.decoded path) := by
  cases mutates with
  | replaced kind fields room lists =>
      rw [Event.size, Decimal.value_text] at fits
      refine ⟨rfl, ?_⟩
      rw [decodeEvent_replace (Nat.le_add_left 1 _) room lists readable fits]
      simp [Event.decoded]
  | patched record sets room found takes =>
      have counted := valid.counted path record.revision (by rw [found, Item.revision])
      rw [Event.size, Decimal.value_text] at fits
      refine ⟨rfl, ?_⟩
      rw [@decodeEvent_patch path record.revision (zone.revision + 1) maximumBytes
        (record.write (zone.revision + 1) sets).encodedBytes record sets counted.1
        (Nat.lt_succ_of_le counted.2) room takes readable (listBytes_le takes.nodup) takes.small
        fits]
      simp [Event.decoded]
  | deleted time next pruned room timely deletes =>
      refine ⟨rfl, ?_⟩
      rw [decodeEvent_delete (Nat.le_add_left 1 _) room]
      simp [Event.decoded]

theorem Mutates.unchanged (mutates : Mutates zone path answer none next) : next = zone := by
  cases mutates
  rfl

theorem Mutates.numbered (mutates : Mutates zone path answer (some event) next)
    : (next.items path).state.revision = zone.revision + 1 := by
  cases mutates with
  | replaced => rw [Zone.items_replace]; rfl
  | patched => rw [Zone.items_patch]; rfl
  | deleted time next pruned room timely deletes =>
      rw [deletes.item]
      rfl

theorem Mutates.decodes_member (mutates : Mutates zone path answer (some event) next)
    : event.member = path.member := by
  cases mutates <;> rfl

/-- Other paths are left alone, or lose their tombstone. -/
theorem Mutates.others {published : Option Event} {other : Path}
    (mutates : Mutates zone path answer published next) (different : other ≠ path)
    : next.items other = zone.items other ∨ next.items other = .absent := by
  cases mutates with
  | refused => exact .inl rfl
  | replaced => exact .inl (Zone.items_replace_of_ne different)
  | patched => exact .inl (Zone.items_patch_of_ne different)
  | deleted time next pruned room timely deletes =>
      rcases deletes.others other different with kept | ⟨_, _, _, gone, _⟩
      · exact .inl kept
      · exact .inr gone

/-- A published event turns the state before the mutation into the state after it. -/
theorem Mutates.applies (mutates : Mutates zone path answer (some event) next) (valid : zone.Valid)
    (readable : next.Readable) (fits : event.size ≤ maximumBytes) {current : RawState}
    (same : ∀ record, zone.items path = .present record → current.Same record.state)
    : ∃ state, applyEvent maximumBytes current (event.decoded path) = some state
      ∧ state.Same (next.items path).state := by
  have isValid := mutates.valid valid
  cases mutates with
  | replaced kind fields room lists =>
      refine ⟨_, rfl, ?_⟩
      rw [Zone.items_replace]
      simp only [Event.decoded, Decimal.value_text]
      exact ⟨⟨rfl, rfl, rfl, (lists.encodedBytes_whole _).symm, rfl⟩, rfl⟩
  | patched record sets room found takes =>
      have holds := (same record found).toHolds
      have isRevision : current.revision = record.revision := holds.revision
      have isKind : current.kind = some record.kind := holds.kind
      have isFields : current.fields.get? = record.fields.get? := holds.fields
      have complete := completePresent_of (valid.records path record found) holds
      have written := isValid.records path (record.write (zone.revision + 1) sets) Zone.items_patch
      have fields : (Database.setAll current.fields
          (Database.setAll (∅ : Assoc Text Text) sets).toPairs).get?
            = (record.write (zone.revision + 1) sets).fields.get? := by
        rw [get?_setAll_made takes.nodup]
        exact Redis.setAll_congr isFields
      rw [Event.size, Decimal.value_text] at fits
      obtain ⟨names, accepted⟩ := written.validate fields
        (fun name => readable path _ name Zone.items_patch) fits
      rw [show (record.write (zone.revision + 1) sets).kind = record.kind from rfl] at accepted
      refine ⟨{
        revision := zone.revision + 1
        replaceRevision := current.replaceRevision
        status := .present
        kind := current.kind
        encodedBytes := (record.write (zone.revision + 1) sets).encodedBytes
        fields := Database.setAll current.fields (Database.setAll ∅ sets).toPairs }, ?_, ?_⟩
      · simp only [Event.decoded, applyEvent, Decimal.value_text]
        rw [if_neg]
        · simp only [isKind, accepted]
          rw [if_neg (not_not.mpr rfl)]
        · rintro (partly | other | other)
          · rw [complete] at partly
            cases partly
          · exact other isRevision
          · exact other isKind
      · rw [Zone.items_patch]
        exact ⟨⟨rfl, holds.replaceRevision, isKind, rfl, fields⟩, rfl⟩
  | deleted time next pruned room timely deletes =>
      refine ⟨_, rfl, ?_⟩
      rw [deletes.item]
      simp only [Event.decoded, Decimal.value_text]
      exact .refl _

end Events

-- Histories

/-- What a client makes of an event of any path, as far as it follows one path. -/
def followEvent (maximumBytes : Nat) (path : Path) (state : Option RawState) (event : Event)
    : Option RawState :=
  if event.member = path.member then
    state.bind fun current =>
      match decodeEvent event.pack path maximumBytes with
      | .error _ => none
      | .ok decoded => applyEvent maximumBytes current decoded
  else
    state

def follow (maximumBytes : Nat) (path : Path) (events : List Event) : Option RawState :=
  events.foldl (followEvent maximumBytes path) (some { status := .synchronizing })

theorem Ledger.run_append (before after : List Mutation)
    : Ledger.run (before ++ after) = after.foldl Ledger.step (Ledger.run before) :=
  List.foldl_append

theorem Ledger.run_append_singleton (before : List Mutation) (last : Mutation)
    : Ledger.run (before ++ [last]) = (Ledger.run before).step last := by
  rw [Ledger.run_append]
  rfl

variable {before after : List Mutation}

/-- Events are never taken back. Witness: induction over the later calls, from the last. -/
theorem Ledger.mem_events {event : Event} (listed : event ∈ (Ledger.run before).events)
    : event ∈ (Ledger.run (before ++ after)).events := by
  induction after using List.reverseRecOn with
  | nil => rwa [List.append_nil]
  | append_singleton rest last ih =>
      rw [← List.append_assoc, Ledger.run_append_singleton]
      exact List.mem_append_left _ ih

/-- A run of readable events leaves a readable zone, which an older record leads to. Witness: induction
over the later calls, from the last.
-/
theorem Ledger.run_since (sound : ∀ mutation ∈ before ++ after, mutation.Sound)
    (readable : ∀ event ∈ (Ledger.run (before ++ after)).events, event.Readable)
    (represents : Represents (Ledger.run before).store zone) (isReadable : zone.Readable)
    : ∃ next, Represents (Ledger.run (before ++ after)).store next ∧ next.Readable
      ∧ ∀ old, zone.items path = .present old
        → (next.items path).Since old ∧ old.revision ≤ next.revision := by
  induction after using List.reverseRecOn with
  | nil =>
      refine ⟨zone, by rwa [List.append_nil], isReadable, fun old present => ?_⟩
      have counted := represents.valid.counted path old.revision (by rw [present, Item.revision])
      rw [present]
      exact ⟨.inr (.refl old), counted.2⟩
  | append_singleton rest last ih =>
      rw [← List.append_assoc] at sound readable ⊢
      obtain ⟨middle, isMiddle, middleReadable, since⟩ :=
        ih (fun mutation listed => sound mutation (List.mem_append_left _ listed))
          fun event listed => readable event (Ledger.mem_events listed)
      have isSound := sound last (List.mem_append_right _ (List.mem_singleton_self _))
      obtain ⟨next, step, isNext, _⟩ := isSound.mutates isMiddle
      rw [Ledger.run_append_singleton] at readable ⊢
      refine ⟨next, isNext, step.readable middleReadable ?_, fun old present => ?_⟩
      · intro published isPublished
        exact readable published (List.mem_append_right _ (Option.mem_toList.mpr isPublished))
      · obtain ⟨isSince, later⟩ := since old present
        exact step.since later isSince

theorem zone_readable_empty : ({} : Zone).Readable := nofun

/-- Every event of a run is decoded to what was packed. Witness: induction over the calls, from the
last.
-/
theorem Ledger.run_decodes {mutations : List Mutation}
    (sound : ∀ mutation ∈ mutations, mutation.Sound) {event : Event}
    (listed : event ∈ (Ledger.run mutations).events) (readable : event.Readable)
    (isPath : event.member = path.member) (fits : event.size ≤ maximumBytes)
    : decodeEvent event.pack path maximumBytes = .ok (event.decoded path) := by
  induction mutations using List.reverseRecOn with
  | nil => cases listed
  | append_singleton before last ih =>
      have earlier := fun mutation listed => sound mutation (List.mem_append_left [last] listed)
      rw [Ledger.run_append_singleton] at listed
      rcases List.mem_append.mp listed with known | new
      · exact ih earlier known
      · obtain ⟨zone, represents, _⟩ := Ledger.run_represents earlier
        have isSound := sound last (List.mem_append_right _ (List.mem_singleton_self _))
        obtain ⟨next, step, _, _⟩ := isSound.mutates represents
        rw [Option.mem_toList.mp new] at step
        obtain ⟨isMember, decoded⟩ := step.decodes represents.valid readable fits
        cases Path.member_injective (isPath.symm.trans isMember)
        exact decoded

/-- A client that applies the events of a path has what the authority has after each of them. Witness:
induction over the calls, from the last.
-/
theorem Ledger.run_follow {mutations : List Mutation} {path : Path} {maximumBytes : Nat}
    (sound : ∀ mutation ∈ mutations, mutation.Sound)
    (readable : ∀ event ∈ (Ledger.run mutations).events, event.Readable)
    (fits : ∀ event ∈ (Ledger.run mutations).events, event.member = path.member
      → event.size ≤ maximumBytes)
    : ∃ zone state, Represents (Ledger.run mutations).store zone ∧ zone.Readable
      ∧ follow maximumBytes path (Ledger.run mutations).events = some state
      ∧ ((zone.items path).revision.isSome → state.Same (zone.items path).state) := by
  induction mutations using List.reverseRecOn with
  | nil => exact ⟨{}, _, represents_empty, zone_readable_empty, rfl, nofun⟩
  | append_singleton before last ih =>
      have kept {event : Event} (listed : event ∈ (Ledger.run before).events)
          : event ∈ (Ledger.run (before ++ [last])).events := Ledger.mem_events listed
      obtain ⟨zone, state, represents, isReadable, followed, same⟩ :=
        ih (fun mutation listed => sound mutation (List.mem_append_left _ listed))
          (fun event listed => readable event (kept listed))
          fun event listed => fits event (kept listed)
      have isSound := sound last (List.mem_append_right _ (List.mem_singleton_self _))
      obtain ⟨next, step, isNext, _⟩ := isSound.mutates represents
      rw [Ledger.run_append_singleton] at readable fits ⊢
      have nextReadable := step.readable isReadable fun published isPublished =>
        readable published (List.mem_append_right _ (Option.mem_toList.mpr isPublished))
      have fold : follow maximumBytes path ((Ledger.run before).step last).events
          = (last.outcome (Ledger.run before).store).event.toList.foldl
              (followEvent maximumBytes path) (some state) := by
        rw [← followed]
        exact List.foldl_append
      cases published : (last.outcome (Ledger.run before).store).event with
      | none =>
          rw [published] at step
          rw [step.unchanged] at isNext
          refine ⟨zone, state, isNext, isReadable, ?_, same⟩
          rw [fold, published]
          rfl
      | some event =>
          rw [published] at step
          have listed : event ∈ ((Ledger.run before).step last).events :=
            List.mem_append_right _ (Option.mem_toList.mpr published)
          by_cases isPath : event.member = path.member
          · have small := fits event listed isPath
            obtain ⟨isMember, decoded⟩ :=
              step.decodes represents.valid (readable event listed) small
            cases Path.member_injective (isPath.symm.trans isMember)
            obtain ⟨applied, isApplied, isSame⟩ :=
              step.applies represents.valid nextReadable small fun record present => by
                have known := same (by rw [present]; rfl)
                rwa [present] at known
            refine ⟨next, applied, isNext, nextReadable, ?_, fun _ => isSame⟩
            rw [fold, published]
            simp [followEvent, isPath, decoded, isApplied]
          · refine ⟨next, state, isNext, nextReadable, ?_, ?_⟩
            · rw [fold, published]
              simp [followEvent, isPath]
            · have different : path ≠ last.call.path := by
                rintro rfl
                exact isPath (step.decodes_member)
              rcases step.others different with kept | gone
              · rwa [kept]
              · rw [gone]
                nofun

def sampleField (name : Text) : Call where
  path := samplePath
  keys := 6
  argv := [samplePath.member, ascii "map", Decimal.text (name.length + 1), ascii "1", name,
    ascii "x"]

def sampleRead : Call where
  path := samplePath
  keys := 5
  argv := [samplePath.member, ascii "1"]

/-- A name that is not UTF-8 is stored and published, but neither a read nor the event gives it to the
client.
-/
theorem raw_name_is_not_rebuilt
    : ((Mutation.replace (sampleField [255])).outcome (Ledger.run []).store).answer
        = .ok (ascii "1") (ascii "0")
      ∧ ((Mutation.replace (sampleField [255])).outcome (Ledger.run []).store).event.map
          (fun event => (decodeEvent event.pack samplePath maximumEncodedBytes).isOk) = some false
      ∧ (parseReadReply
          (read (Ledger.run [.replace (sampleField (ascii "a")),
            .replace (sampleField [255])]).store sampleRead).reply
          (some ((Ledger.run [.replace (sampleField (ascii "a"))]).store.state samplePath))
          maximumEncodedBytes).isOk = false := by
  decide

/-- In every history of readable names, what a client reads later against a complete value it held is what
the authority has then, every event is decoded to what was packed, and the events of a path lead a client
through the values of the path.
-/
theorem content_is_rebuilt {before after : List Mutation} {path : Path} {maximumBytes : Nat}
    (sound : ∀ mutation ∈ before ++ after, mutation.Sound)
    (readable : ∀ event ∈ (Ledger.run (before ++ after)).events, event.Readable)
    : (∀ known : RawState, ∀ call : Call,
        ((Ledger.run before).store.state path).status = .present
          → known.Holds ((Ledger.run before).store.state path)
          → call.path = path → call.Asks known.revision
          → ((Ledger.run (before ++ after)).store.state path).encodedBytes ≤ maximumBytes
          → ∃ state,
              parseReadReply (read (Ledger.run (before ++ after)).store call).reply (some known)
                maximumBytes = .ok state
              ∧ state.Same ((Ledger.run (before ++ after)).store.state path))
      ∧ (∀ event ∈ (Ledger.run (before ++ after)).events, event.member = path.member
        → event.size ≤ maximumBytes
        → decodeEvent event.pack path maximumBytes = .ok (event.decoded path))
      ∧ ((∀ event ∈ (Ledger.run (before ++ after)).events, event.member = path.member
          → event.size ≤ maximumBytes)
        → ∀ earlier last later, before ++ after = earlier ++ last :: later → last.call.path = path
          → (last.outcome (Ledger.run earlier).store).event.isSome
          → ∃ state, follow maximumBytes path (Ledger.run (earlier ++ [last])).events = some state
              ∧ state.Same ((Ledger.run (earlier ++ [last])).store.state path)) := by
  refine ⟨?_, ?_, ?_⟩
  · intro known call present holds isPath asks fits
    obtain ⟨zone, represents, isReadable⟩ : ∃ zone, Represents (Ledger.run before).store zone
        ∧ zone.Readable := by
      obtain ⟨zone, state, represents, isReadable, _⟩ := @Ledger.run_follow before path
        ((((Ledger.run before).events.map Event.size).sum))
        (fun mutation listed => sound mutation (List.mem_append_left _ listed))
        (fun event listed => readable event (Ledger.mem_events listed))
        (fun event listed _ => List.single_le_sum (fun _ _ => Nat.zero_le _) _
          (List.mem_map_of_mem listed))
      exact ⟨zone, represents, isReadable⟩
    have same := represents.state path
    obtain ⟨old, isOld⟩ : ∃ old, zone.items path = .present old := by
      cases isItem : zone.items path with
      | present old => exact ⟨old, rfl⟩
      | absent =>
          rw [isItem] at same
          rw [same.status] at present
          cases present
      | deleted revision time =>
          rw [isItem] at same
          rw [same.status] at present
          simp only [Item.state, deletedState] at present
          split at present <;> cases present
    obtain ⟨next, isNext, nextReadable, since⟩ :=
      Ledger.run_since sound readable represents isReadable
    have valid := represents.valid.records path old isOld
    rw [isOld] at same
    have isKnown : known.Holds old.state :=
      ⟨holds.revision.trans same.revision, holds.replaceRevision.trans same.replaceRevision,
        holds.kind.trans same.kind, holds.encodedBytes.trans same.encodedBytes,
        holds.fields.trans same.fields⟩
    have isSame := isNext.state path
    subst isPath
    obtain ⟨state, parsed, rebuilt⟩ := isNext.read_rebuilds nextReadable valid isKnown
      (since old isOld).1 asks (isSame.encodedBytes ▸ fits)
    exact ⟨state, parsed, rebuilt.trans isSame.symm⟩
  · intro event listed isPath fits
    exact Ledger.run_decodes sound listed (readable event listed) isPath fits
  · intro fits earlier last later whole isPath published
    have split : before ++ after = (earlier ++ [last]) ++ later := by
      rw [whole, List.append_assoc, List.singleton_append]
    rw [split] at sound readable fits
    have isSound := fun mutation listed => sound mutation (List.mem_append_left later listed)
    obtain ⟨zone, state, represents, _, followed, same⟩ :=
      @Ledger.run_follow (earlier ++ [last]) path maximumBytes isSound
        (fun event listed => readable event (Ledger.mem_events listed))
        fun event listed => fits event (Ledger.mem_events listed)
    refine ⟨state, followed, ?_⟩
    have isSame := represents.state path
    obtain ⟨old, isOld, _⟩ := Ledger.run_represents fun mutation listed =>
      isSound mutation (List.mem_append_left [last] listed)
    obtain ⟨next, step, isNext, _⟩ :=
      (isSound last (List.mem_append_right _ (List.mem_singleton_self _))).mutates isOld
    obtain ⟨event, isEvent⟩ := Option.isSome_iff_exists.mp published
    rw [isEvent] at step
    have number := step.numbered
    rw [isPath] at number
    have both := isNext.state path
    rw [← show (Ledger.run (earlier ++ [last])).store
      = (last.outcome (Ledger.run earlier).store).store by
        rw [Ledger.run_append_singleton]; rfl] at both
    have revision : (zone.items path).state.revision = old.revision + 1 := by
      rw [← isSame.revision, both.revision, number]
    have numbered : (zone.items path).revision.isSome := by
      cases isItem : zone.items path with
      | absent =>
          rw [isItem] at revision
          cases revision
      | deleted => rfl
      | present => rfl
    exact (same numbered).trans isSame.symm

/-- A map is replaced. -/
theorem content_is_rebuilt_sample
    : ∃ state, follow maximumEncodedBytes samplePath
          (Ledger.run ([.replace (sampleField (ascii "a"))]
            ++ [.replace (sampleField (ascii "b"))])).events = some state
        ∧ state.Same ((Ledger.run ([.replace (sampleField (ascii "a"))]
            ++ [.replace (sampleField (ascii "b"))])).store.state samplePath) := by
  have events : (Ledger.run ([.replace (sampleField (ascii "a"))]
      ++ [.replace (sampleField (ascii "b"))])).events
      = [.replace samplePath.member (ascii "1") .map (ascii "2") [(ascii "a", ascii "x")],
        .replace samplePath.member (ascii "2") .map (ascii "2") [(ascii "b", ascii "x")]] := by
    decide
  have rebuilt := @content_is_rebuilt [.replace (sampleField (ascii "a"))]
    [.replace (sampleField (ascii "b"))] samplePath maximumEncodedBytes
    (by
      intro mutation listed
      simp only [List.cons_append, List.nil_append, List.mem_cons, List.not_mem_nil,
        or_false] at listed
      rcases listed with rfl | rfl <;> exact .inl rfl)
    (by
      intro event listed
      rw [events] at listed
      simp only [List.mem_cons, List.not_mem_nil, or_false] at listed
      rcases listed with rfl | rfl <;> simp only [Event.Readable] <;> decide)
  refine rebuilt.2.2 ?_ [.replace (sampleField (ascii "a"))] (.replace (sampleField (ascii "b"))) []
    rfl rfl (by decide)
  intro event listed _
  rw [events] at listed
  simp only [List.mem_cons, List.not_mem_nil, or_false] at listed
  rcases listed with rfl | rfl <;> decide

-- A first read

section First

variable {store : Store} {zone : Zone} {call : Call} {maximumBytes : Nat}

/-- What a client reads that has nothing is the item of the path. -/
theorem Represents.read_first (represents : Represents store zone) (readable : zone.Readable)
    (asks : call.Asks 0) (fits : (zone.items call.path).state.encodedBytes ≤ maximumBytes)
    : ∃ state, parseReadReply (Catalog.read store call).reply none maximumBytes = .ok state
      ∧ state.Same (zone.items call.path).state := by
  have reads := represents.read asks
  cases isItem : zone.items call.path with
  | absent =>
      rw [isItem] at reads
      generalize Catalog.read store call = reading at reads
      cases reads
      exact ⟨_, parseReadReply_absent, .refl _⟩
  | deleted revision time =>
      have counted := represents.valid.counted call.path revision (by rw [isItem, Item.revision])
      rw [isItem] at reads
      generalize Catalog.read store call = reading at reads
      cases reads
      exact ⟨_, parseReadReply_deleted counted.1 (counted.2.trans represents.valid.small), .refl _⟩
  | present record =>
      have isValid := represents.valid.records call.path record isItem
      have counted := represents.valid.counted call.path record.revision
        (by rw [isItem, Item.revision])
      have names := readable call.path record
      have positive := isValid.positive
      rw [isItem] at reads fits
      change record.encodedBytes ≤ maximumBytes at fits
      generalize Catalog.read store call = reading at reads
      cases reads with
      | unchanged _ same => omega
      | patch _ fields known => omega
      | replace _ fields _ _ whole =>
          have distinct : (fields.map Prod.fst).Nodup := @Kind.Orders.nodup .map _ whole.orders
          have stored {name value : Text} (listed : (name, value) ∈ fields)
              : (record.fields.get? name).isSome :=
            Option.isSome_iff_exists.mpr ⟨value, (whole.mem name value).mp listed⟩
          have few : fields.length ≤ maximumFields := by
            have inside : fields.map Prod.fst ⊆ record.fields.keys := by
              intro name listed
              obtain ⟨field, member, rfl⟩ := List.mem_map.mp listed
              rw [Assoc.mem_keys, ← Option.isSome_iff_exists]
              exact stored member
            have shorter := (List.subperm_of_subset distinct inside).length_le
            rw [List.length_map] at shorter
            refine (shorter.trans_eq ?_).trans isValid.few
            simp [Assoc.keys, Assoc.size]
          have same : (Database.setAll (∅ : Assoc Text Text) fields).get? = record.fields.get? :=
            funext fun name => Option.ext fun value =>
              (get?_made distinct).trans (whole.mem name value)
          refine ⟨_, parseReadReply_present positive isValid.ordered
            (counted.2.trans represents.valid.small) fits (isValid.small.trans (by decide)) distinct
            (fun field listed => ?_) few (if_pos (by decide))
            (isValid.validate same (fun name => names name isItem) fits),
            ⟨⟨rfl, rfl, rfl, rfl, same⟩, rfl⟩⟩
          have found := stored listed
          exact validFieldName_of (isValid.names field.1 found) (names field.1 isItem found)

/-- In every history of readable names a client that has nothing reads what the authority has. -/
theorem first_read_law {mutations : List Mutation} (sound : ∀ mutation ∈ mutations, mutation.Sound)
    (readable : ∀ event ∈ (Ledger.run mutations).events, event.Readable) (asks : call.Asks 0)
    (fits : ((Ledger.run mutations).store.state call.path).encodedBytes ≤ maximumBytes)
    : ∃ state,
        parseReadReply (read (Ledger.run mutations).store call).reply none maximumBytes = .ok state
        ∧ state.Same ((Ledger.run mutations).store.state call.path) := by
  obtain ⟨zone, _, represents, isReadable, _⟩ := @Ledger.run_follow mutations call.path
    (((Ledger.run mutations).events.map Event.size).sum) sound readable
    fun event listed _ => List.single_le_sum (fun _ _ => Nat.zero_le _) _
      (List.mem_map_of_mem listed)
  have same := represents.state call.path
  obtain ⟨state, parsed, isState⟩ :=
    represents.read_first isReadable asks (same.encodedBytes.symm.trans_le fits)
  exact ⟨state, parsed, isState.trans same.symm⟩

/-- A first read after a replacement. -/
theorem first_read_law_sample
    : let run := Ledger.run [.replace (sampleField (ascii "a"))]
      let call := { sampleRead with argv := [samplePath.member, ascii "0"] }
      ∃ state, parseReadReply (read run.store call).reply none maximumEncodedBytes = .ok state
        ∧ state.Same (run.store.state samplePath) := by
  have events : (Ledger.run [.replace (sampleField (ascii "a"))]).events
      = [.replace samplePath.member (ascii "1") .map (ascii "2") [(ascii "a", ascii "x")]] := by
    decide
  refine @first_read_law { sampleRead with argv := [samplePath.member, ascii "0"] } _
    [.replace (sampleField (ascii "a"))] ?_ ?_ ⟨rfl, by decide, by decide⟩ (by decide)
  · intro mutation listed
    rw [List.mem_singleton.mp listed]
    exact .inl rfl
  · intro event listed
    rw [events] at listed
    rw [List.mem_singleton.mp listed]
    simp only [Event.Readable]
    decide

end First

end Sdk.Catalog
