import Verdandi.Sdk.Catalog.Scripts

/-! What the Catalog of a zone is: a record, a tombstone or nothing for each path, all numbered by one
revision, with a floor below which tombstones may be gone.
-/

namespace Sdk.Catalog

open Support
open Support.Redis (Text Database)

/-- A present value, with the revisions that wrote it as a whole and field by field. -/
structure Record where
  revision : Nat
  replaceRevision : Nat
  kind : Kind
  fields : Assoc Text Text
  written : Assoc Text Nat

inductive Item where
  | absent
  | deleted (revision time : Nat)
  | present (record : Record)

structure Zone where
  revision : Nat := 0
  floor : Nat := 0
  items : Path → Item := fun _ => .absent

def Item.liveRevision : Item → Option Nat
  | .present record => some record.revision
  | _ => none

def Item.deletedRevision : Item → Option Nat
  | .deleted revision _ => some revision
  | _ => none

def Item.deletedTime : Item → Option Nat
  | .deleted _ time => some time
  | _ => none

def Item.revision : Item → Option Nat
  | .absent => none
  | .deleted revision _ => some revision
  | .present record => some record.revision

def fieldBytes (name value : Text) : Nat := name.length + value.length

def Record.encodedBytes (record : Record) : Nat := record.fields.weight fieldBytes

def listBytes (fields : List (Text × Text)) : Nat :=
  (fields.map fun field => fieldBytes field.1 field.2).sum

def Record.whole (revision : Nat) (kind : Kind) (fields : List (Text × Text)) : Record where
  revision
  replaceRevision := revision
  kind
  fields := Database.setAll ∅ fields
  written := Database.setAll ∅ (fields.map fun field => (field.1, revision))

def Record.write (record : Record) (revision : Nat) (sets : List (Text × Text)) : Record :=
  { record with
    revision
    fields := Database.setAll record.fields sets
    written := Database.setAll record.written (sets.map fun field => (field.1, revision)) }

def lastRevision : Nat := 9007199254740991

namespace Zone

def replace (zone : Zone) (path : Path) (kind : Kind) (fields : List (Text × Text)) : Zone :=
  { zone with
    revision := zone.revision + 1
    items := Function.update zone.items path (.present (.whole (zone.revision + 1) kind fields)) }

def patch (zone : Zone) (path : Path) (record : Record) (sets : List (Text × Text)) : Zone :=
  { zone with
    revision := zone.revision + 1
    items := Function.update zone.items path (.present (record.write (zone.revision + 1) sets)) }

/-- A path is deleted; other tombstones may be given up, below a floor that rises with them. -/
structure Deletes (zone : Zone) (path : Path) (time : Nat) (next : Zone) : Prop where
  revision : next.revision = zone.revision + 1
  item : next.items path = .deleted (zone.revision + 1) time
  others : ∀ other, other ≠ path → next.items other = zone.items other
    ∨ ∃ revision time, zone.items other = .deleted revision time ∧ next.items other = .absent
      ∧ revision ≤ next.floor
  rises : zone.floor ≤ next.floor
  within : next.floor ≤ zone.revision

end Zone

/-- The names of a whole value are listed in the order of its kind. -/
def Kind.Orders (kind : Kind) (names : List Text) : Prop :=
  match kind with
  | .value => names = [ascii "value"]
  | .array => names = (List.range names.length).map Decimal.text
  | .map => names.Pairwise (· < ·)

structure Kind.Lists (kind : Kind) (fields : List (Text × Text)) : Prop where
  users : ∀ field ∈ fields, userField field.1 = true
  orders : kind.Orders (fields.map Prod.fst)
  few : fields.length ≤ maximumFields
  small : listBytes fields ≤ maximumEncodedBytes

def Kind.Shapes (kind : Kind) (fields : Assoc Text Text) : Prop :=
  match kind with
  | .value => ∀ name, (fields.get? name).isSome ↔ name = ascii "value"
  | .array => ∀ name, (fields.get? name).isSome ↔ ∃ index < fields.size, name = Decimal.text index
  | .map => True

structure Record.Valid (record : Record) : Prop where
  positive : 1 ≤ record.replaceRevision
  ordered : record.replaceRevision ≤ record.revision
  names : ∀ name, (record.fields.get? name).isSome → userField name = true
  few : record.fields.size ≤ maximumFields
  small : record.encodedBytes ≤ maximumEncodedBytes
  shape : record.kind.Shapes record.fields
  indexed : ∀ name, (record.written.get? name).isSome = (record.fields.get? name).isSome
  since : ∀ name revision, record.written.get? name = some revision
    → record.replaceRevision ≤ revision ∧ revision ≤ record.revision

structure Record.Takes (record : Record) (sets : List (Text × Text)) : Prop where
  several : record.kind ≠ .value
  some : sets ≠ []
  users : ∀ set ∈ sets, userField set.1 = true
  orders : (sets.map Prod.fst).Pairwise (· < ·)
  known : record.kind = .array → ∀ set ∈ sets, (record.fields.get? set.1).isSome
  listed : sets.length ≤ maximumFields
  few : (Database.setAll record.fields sets).size ≤ maximumFields
  small : (Database.setAll record.fields sets).weight fieldBytes ≤ maximumEncodedBytes

structure Zone.Valid (zone : Zone) : Prop where
  small : zone.revision ≤ lastRevision
  floor : zone.floor ≤ zone.revision
  records : ∀ path record, zone.items path = .present record → record.Valid
  counted : ∀ path revision, (zone.items path).revision = some revision
    → 1 ≤ revision ∧ revision ≤ zone.revision
  distinct : ∀ path other revision, (zone.items path).revision = some revision
    → (zone.items other).revision = some revision → path = other
  times : ∀ path revision time, zone.items path = .deleted revision time → time ≤ lastRevision

namespace Zone

variable {zone next : Zone} {path other : Path} {item : Item}

theorem valid_empty : ({} : Zone).Valid where
  small := Nat.zero_le _
  floor := Nat.le_refl _
  records := nofun
  counted := nofun
  distinct := nofun
  times := nofun

/-- A new item with the next revision keeps revisions distinct, whatever tombstones are given up. -/
theorem Valid.put (valid : zone.Valid) (room : zone.revision < lastRevision)
    (revision : next.revision = zone.revision + 1) (floor : next.floor ≤ zone.revision)
    (isItem : next.items path = item) (numbered : item.revision = some (zone.revision + 1))
    (others : ∀ other, other ≠ path
      → next.items other = zone.items other ∨ next.items other = .absent)
    (records : ∀ record, item = .present record → record.Valid)
    (times : ∀ revision time, item = .deleted revision time → time ≤ lastRevision)
    : next.Valid := by
  have kept {other : Path} {found : Nat} (different : other ≠ path)
      (has : (next.items other).revision = some found)
      : (zone.items other).revision = some found := by
    rcases others other different with same | gone
    · rwa [same] at has
    · rw [gone] at has
      cases has
  refine ⟨?_, ?_, ?_, ?_, ?_, ?_⟩
  · rw [revision]
    exact room
  · rw [revision]
    exact floor.trans (Nat.le_succ _)
  · intro other record present
    by_cases same : other = path
    · subst same
      exact records record (isItem ▸ present)
    · rcases others other same with kept | gone
      · exact valid.records other record (kept ▸ present)
      · rw [gone] at present
        cases present
  · intro other found has
    by_cases same : other = path
    · subst same
      rw [isItem, numbered] at has
      cases has
      rw [revision]
      omega
    · have before := valid.counted other found (kept same has)
      rw [revision]
      omega
  · intro one other found has hasToo
    by_cases first : one = path <;> by_cases second : other = path
    · exact first.trans second.symm
    · subst first
      rw [isItem, numbered] at has
      cases has
      have before := valid.counted other _ (kept second hasToo)
      omega
    · subst second
      rw [isItem, numbered] at hasToo
      cases hasToo
      have before := valid.counted one _ (kept first has)
      omega
    · exact valid.distinct one other found (kept first has) (kept second hasToo)
  · intro other found time deleted
    by_cases same : other = path
    · subst same
      exact times found time (isItem ▸ deleted)
    · rcases others other same with kept | gone
      · exact valid.times other found time (kept ▸ deleted)
      · rw [gone] at deleted
        cases deleted

variable {kind : Kind} {fields : List (Text × Text)}

@[simp]
theorem items_replace
    : (zone.replace path kind fields).items path
      = .present (.whole (zone.revision + 1) kind fields) :=
  Function.update_self ..

theorem items_replace_of_ne (different : other ≠ path)
    : (zone.replace path kind fields).items other = zone.items other :=
  Function.update_of_ne different ..

variable {record : Record} {sets : List (Text × Text)}

@[simp]
theorem items_patch
    : (zone.patch path record sets).items path = .present (record.write (zone.revision + 1) sets) :=
  Function.update_self ..

theorem items_patch_of_ne (different : other ≠ path)
    : (zone.patch path record sets).items other = zone.items other :=
  Function.update_of_ne different ..

theorem Valid.replace (valid : zone.Valid) (room : zone.revision < lastRevision)
    (stored : (Record.whole (zone.revision + 1) kind fields).Valid)
    : (zone.replace path kind fields).Valid := by
  refine valid.put room rfl valid.floor items_replace rfl
    (fun other different => .inl (items_replace_of_ne different)) ?_ nofun
  intro record isRecord
  cases isRecord
  exact stored

theorem Valid.patch (valid : zone.Valid) (room : zone.revision < lastRevision)
    (stored : (record.write (zone.revision + 1) sets).Valid)
    : (zone.patch path record sets).Valid := by
  refine valid.put room rfl valid.floor items_patch rfl
    (fun other different => .inl (items_patch_of_ne different)) ?_ nofun
  intro next isRecord
  cases isRecord
  exact stored

theorem Deletes.valid {time : Nat} (deletes : zone.Deletes path time next) (valid : zone.Valid)
    (room : zone.revision < lastRevision) (timely : time ≤ lastRevision)
    : next.Valid := by
  refine valid.put room deletes.revision deletes.within deletes.item rfl ?_ nofun ?_
  · intro other different
    rcases deletes.others other different with same | ⟨_, _, _, gone, _⟩
    · exact .inl same
    · exact .inr gone
  · intro revision found same
    cases same
    exact timely

end Zone

/-- What a mutation of a path does to a zone, what it answers and what it publishes. -/
inductive Mutates (zone : Zone) (path : Path) : Answer → Option Event → Zone → Prop
  | refused (status : Status) (field revision : Option Text) (sound : status ≠ .corrupt)
    : Mutates zone path (.error status field revision) none zone
  | replaced (kind : Kind) (fields : List (Text × Text)) (room : zone.revision < lastRevision)
    (lists : kind.Lists fields)
    : Mutates zone path (.ok (Decimal.text (zone.revision + 1)) (Decimal.text zone.floor))
        (some (.replace path.member (Decimal.text (zone.revision + 1)) kind
          (Decimal.text (listBytes fields)) fields))
        (zone.replace path kind fields)
  | patched (record : Record) (sets : List (Text × Text)) (room : zone.revision < lastRevision)
    (found : zone.items path = .present record) (takes : record.Takes sets)
    : Mutates zone path (.ok (Decimal.text (zone.revision + 1)) (Decimal.text zone.floor))
        (some (.patch path.member (Decimal.text record.revision)
          (Decimal.text (zone.revision + 1)) record.kind
          (Decimal.text (record.write (zone.revision + 1) sets).encodedBytes) sets))
        (zone.patch path record sets)
  | deleted (time : Nat) (next : Zone) (pruned : Nat) (room : zone.revision < lastRevision)
    (timely : time ≤ lastRevision) (deletes : zone.Deletes path time next)
    : Mutates zone path
        (.ok (Decimal.text (zone.revision + 1)) (Decimal.text next.floor)
          (some (Decimal.text pruned)))
        (some (.delete path.member (Decimal.text (zone.revision + 1)))) next

end Sdk.Catalog
