import Verdandi.Star.Catalog.Record
import Verdandi.Star.Ephemeris.Record
import Verdandi.Star.Paging
import Verdandi.Star.SceneTimeline

/-! The frozen batches that the dynamic domains share: a whole view of a Scene, one point, or
its changes up to a version, merged to one row for each key. A domain says how its records are
checked, charged and encoded and how two changes of one key are merged.
-/

namespace Astra

open Support Proto Paging

structure Row (Item : Type) where
  record : Option Item
  data : Bool := false
  deriving DecidableEq, Repr

def Row.whole {Item : Type} (record : Item) : Row Item where
  record := some record

def Scene.Event.row {Item : Type} (event : Scene.Event Item) : Row Item where
  record := event.record
  data := event.data

structure Encoding (Item Change : Type) where
  measure : Item → Nat
  merge : Scene.Event Item → Scene.Event Item → Scene.Event Item
  refusal : Bytes → Option Item → Option String
  payload : Row Item → Nat
  encode : Bytes → Row Item → Change

namespace Pagination

inductive Data (Item : Type) where
  | view (entries : List (Bytes × Item))
  | point (key : Bytes) (record : Option Item)
  | changes (events : List (Scene.Event Item))

def Data.rows {Item : Type} : Data Item → List (Bytes × Row Item)
  | .view entries => entries.map fun entry => (entry.1, .whole entry.2)
  | .point key record => record.toList.map fun held => (key, .whole held)
  | .changes events => events.map fun event => (event.key, event.row)

end Pagination

structure Pagination (Item : Type) where
  data : Pagination.Data Item
  mode : Mode := .reset
  version : Nat
  bytes : Nat
  offset : Nat := 0
  complete : Bool := false

namespace Pagination

variable {Item Change : Type}

def ofView (scene : Scene Item) : Pagination Item where
  data := .view scene.entries.toPairs
  version := scene.version
  bytes := scene.bytes

/-- `sizeof(Point)`: a string and an optional record of two words. -/
def overhead : Nat := 56

def ofPoint (encoding : Encoding Item Change) (key : Bytes) (version : Nat) (record : Option Item)
    : Pagination Item where
  data := .point key record
  version := version
  bytes := overhead + key.length + record.elim 0 encoding.measure

def baseline (encoding : Encoding Item Change) (scene : Scene Item) (target : Bytes)
    : Pagination Item :=
  if target.isEmpty then
    ofView scene
  else
    ofPoint encoding target scene.version (scene.entries.get? target)

def broken (version : Nat) (event : Scene.Event Item) : Bool :=
  event.version == 0 || decide (event.version > version) || (event.data && event.record.isNone)

def compress (encoding : Encoding Item Change) (events : List (Scene.Event Item))
    : List (Scene.Event Item) :=
  Support.compress Bytes.rank Scene.Event.key Scene.Event.version encoding.merge events

/-- Freeze the changes up to `version` that concern `target`. All of them are checked before
any is left out. `capacity` is that of the vector, whose unused tail is charged as well, and
`size` that of an event.
-/
def ofChanges (encoding : Encoding Item Change) (version : Nat)
    (events : List (Scene.Event Item)) (target : Bytes) (capacity size : Nat)
    : Except String (Pagination Item) :=
  if events.any (broken version) then
    .error "Invalid projection change batch"
  else
    let relevant := if target.isEmpty then events else events.filter (·.key == target)
    let kept := compress encoding relevant
    .ok
      { data := .changes kept
        mode := .apply
        version
        bytes := (kept.map Scene.Event.bytes).sum + (capacity - kept.length) * size }

def format (encoding : Encoding Item Change) : Format (Bytes × Row Item) Change where
  key := Prod.fst
  payload row := encoding.payload row.2
  refusal row := encoding.refusal row.1 row.2.record
  overhead := 48
  encode row := encoding.encode row.1 row.2
  excess := "Projection record exceeds page budget"
  completed := "Projection edition already completed"
  unserved := "Invalid serving instance"

/-- The batch as its pages see it; a page visits at most 256 rows of a view. -/
def batch (pagination : Pagination Item) : Batch (Bytes × Row Item) where
  rows := pagination.data.rows
  window := match pagination.data with
    | .view _ => some 256
    | _ => none
  mode := pagination.mode
  version := pagination.version
  offset := pagination.offset
  complete := pagination.complete

def next (encoding : Encoding Item Change) (pagination : Pagination Item) (serving : Bytes)
    : Except String (Pagination Item × WatchReply Change) :=
  match pagination.batch.next (format encoding) serving with
  | .error message => .error message
  | .ok (after, page) =>
      .ok ({ pagination with offset := after.offset, complete := after.complete }, page)

-- The rows of a batch

/-- A whole view has one row for each record. -/
theorem ofView_listed (scene : Scene Item)
    : Listed (ofView scene).data.rows
        fun key => (restrict (concerns []) scene.entries.get? key).map Row.whole :=
  scene.entries.listed Row.whole

variable {encoding : Encoding Item Change} {target : Bytes}

/-- A point has the row of its record. -/
theorem ofPoint_listed (precise : target ≠ []) (version : Nat) (content : Bytes → Option Item)
    : Listed (ofPoint encoding target version (content target)).data.rows
        fun key => (restrict (concerns target) content key).map Row.whole :=
  .point (fun _ => concerns_iff precise) content Row.whole

theorem baseline_listed (encoding : Encoding Item Change) (scene : Scene Item) (target : Bytes)
    : Listed (baseline encoding scene target).data.rows
        fun key => (restrict (concerns target) scene.entries.get? key).map Row.whole := by
  unfold baseline
  split
  next whole =>
    rw [List.isEmpty_iff.mp whole]
    exact ofView_listed scene
  rename_i precise
  exact ofPoint_listed (by simpa using precise) scene.version scene.entries.get?

def mergedRow (encoding : Encoding Item Change) (events : List (Scene.Event Item))
    (target key : Bytes)
    : Option (Row Item) :=
  if concerns target key then
    (merged Scene.Event.key encoding.merge events key).map Scene.Event.row
  else
    none

variable {events : List (Scene.Event Item)} {key : Bytes}

theorem mergedRow_some {row : Row Item} (found : mergedRow encoding events target key = some row)
    : concerns target key = true ∧ ∃ event,
          merged Scene.Event.key encoding.merge events key = some event ∧ event.row = row := by
  unfold mergedRow at found
  split at found
  next relevant => exact ⟨relevant, Option.map_eq_some_iff.mp found⟩
  · cases found

/-- A batch has a row for the keys of the events that concern the target. -/
theorem mem_mergedRow
    : key ∈ (events.map Scene.Event.key).filter (concerns target)
      ↔ ∃ row, mergedRow encoding events target key = some row := by
  rw [List.mem_filter, ← merged_isSome Scene.Event.key encoding.merge, Option.isSome_iff_exists]
  constructor
  · rintro ⟨⟨event, last⟩, relevant⟩
    exact ⟨event.row, by rw [mergedRow, if_pos relevant, last, Option.map_some]⟩
  · rintro ⟨row, found⟩
    obtain ⟨relevant, event, last, _⟩ := mergedRow_some found
    exact ⟨⟨event, last⟩, relevant⟩

variable {version capacity size : Nat} {pagination : Pagination Item}

theorem frozen_ofChanges
    (frozen : ofChanges encoding version events target capacity size = .ok pagination)
    : pagination.batch.Frozen .apply version := by
  unfold ofChanges at frozen
  split at frozen
  · cases frozen
  · cases frozen
    exact ⟨rfl, rfl, ⟨rfl, rfl⟩, nofun⟩

theorem frozen_baseline (encoding : Encoding Item Change) (scene : Scene Item) (target : Bytes)
    : (baseline encoding scene target).batch.Frozen .reset scene.version := by
  unfold baseline
  split
  · refine ⟨rfl, rfl, ⟨rfl, rfl⟩, fun bound same => ?_⟩
    cases same
    decide
  · exact ⟨rfl, rfl, ⟨rfl, rfl⟩, (by intros; contradiction)⟩

/-- Restricting the events to the target leaves those of the keys it concerns. -/
private theorem filter_relevant
    : (if target.isEmpty then events else events.filter (·.key == target)).filter (·.key = key)
      = if concerns target key then events.filter (·.key = key) else [] := by
  by_cases whole : target = []
  · simp [whole, concerns]
  · have precise : target.isEmpty = false := by simpa using whole
    rw [precise, if_neg Bool.false_ne_true, List.filter_filter]
    split
    next relevant =>
      rw [(concerns_iff whole).mp relevant]
      exact List.filter_congr fun event _ => by simp
    rename_i irrelevant
    rw [concerns_iff whole] at irrelevant
    refine List.filter_eq_nil_iff.mpr fun event _ => ?_
    simp only [Bool.and_eq_true, decide_eq_true_eq, beq_iff_eq, not_and]
    rintro rfl same
    exact irrelevant same

/-- A batch of ordered changes has exactly the merged rows. -/
theorem ofChanges_listed (keeps : KeepsKey Scene.Event.key encoding.merge)
    (ascending : events.Pairwise fun left right => left.version < right.version)
    (frozen : ofChanges encoding version events target capacity size = .ok pagination)
    : Listed pagination.data.rows (mergedRow encoding events target) := by
  unfold ofChanges at frozen
  split at frozen
  · cases frozen
  cases frozen
  generalize chosen : (if target.isEmpty then events else events.filter (·.key == target))
    = relevant
  have grouped (key : Bytes) : relevant.filter (·.key = key)
      = if concerns target key then events.filter (·.key = key) else [] := by
    rw [← chosen]
    exact filter_relevant
  have ordered (key : Bytes) : (relevant.filter (·.key = key)).Pairwise
      fun left right => left.version < right.version := by
    rw [grouped]
    split
    · exact ascending.filter _
    · exact List.Pairwise.nil
  have mergedRelevant (key : Bytes) : merged Scene.Event.key encoding.merge relevant key
      = if concerns target key then merged Scene.Event.key encoding.merge events key
        else none := by
    unfold merged
    rw [grouped]
    cases concerns target key <;> rfl
  constructor
  · have apart : ((compress encoding relevant).map Scene.Event.key).Nodup :=
      nodup_compress Bytes.rank_injective keeps relevant
    simpa [Data.rows, Function.comp_def] using apart
  · intro key row
    have found : mergedRow encoding events target key
        = (merged Scene.Event.key encoding.merge relevant key).map Scene.Event.row := by
      rw [mergedRelevant, mergedRow]
      split <;> rfl
    rw [found, Option.map_eq_some_iff]
    simp only [Data.rows, List.mem_map, Prod.mk.injEq]
    constructor
    · rintro ⟨event, kept, rfl, rfl⟩
      exact ⟨event, (mem_compress Bytes.rank_injective keeps ordered event).mp kept, rfl⟩
    · rintro ⟨event, last, rfl⟩
      have named : event.key = key := name_merged keeps last
      subst named
      exact ⟨event, (mem_compress Bytes.rank_injective keeps ordered event).mpr last, rfl, rfl⟩

end Pagination

-- The domains

namespace Catalog

/-- Every change carries the whole record, so the newest one stays. -/
def merge (_ current : Scene.Event Content) : Scene.Event Content := current

/-- The message of a row; `data` means nothing here. -/
def encode (key : Bytes) (row : Row Content) : CatalogChange :=
  match row.record with
  | none => { key, action := .erase }
  | some record => { key, action := .value record.value, version := record.version }

def encoding : Encoding Content CatalogChange where
  measure record := record.value.length
  merge := merge
  refusal key record :=
    if !Scope.text key 1024 || record.any (·.version == 0) then
      some "Invalid Catalog projection record"
    else
      none
  payload row := row.record.elim 0 fun record => record.value.length
  encode := encode

def act (row : Row Content) (_ : Option Content) : Option Content :=
  row.record

end Catalog

namespace Ephemeris

/-- Data alone is enough only after data alone: the subscriber may not have the attribute
after an erase or before a whole record.
-/
def merge (previous current : Scene.Event Content) : Scene.Event Content :=
  if current.record.isSome && (previous.record.isNone || !previous.data) then
    { current with data := false }
  else
    current

def encode (uuid : Bytes) (row : Row Content) : EphemerisChange :=
  match row.record with
  | none => { uuid, action := .erase }
  | some record =>
      if row.data then
        { uuid, action := .data record.data }
      else
        { uuid, action := .record record.attr record.data }

def encoding : Encoding Content EphemerisChange where
  measure record := record.attr.length + record.data.length
  merge := merge
  refusal uuid _ := if valid uuid then none else some "Invalid Ephemeris projection record"
  payload row :=
    row.record.elim 0 fun record =>
      record.data.length + if row.data then 0 else record.attr.length
  encode := encode

/-- What a row does to a subscriber's record: data alone keeps the attribute, and gives
nothing where there is none.
-/
def act (row : Row Content) (old : Option Content) : Option Content :=
  match row.record with
  | none => none
  | some record => if row.data then old.map ({ · with data := record.data }) else some record

end Ephemeris

-- Merged changes act as the changes they were merged from

/-- What the proofs need of a domain: merging keeps the key, and merged changes lead where the
changes lead one after the other; a whole record needs nothing before it.
-/
structure Encoding.Lawful {Item Change : Type} (encoding : Encoding Item Change)
    (act : Row Item → Option Item → Option Item)
    : Prop where
  keeps : KeepsKey Scene.Event.key encoding.merge
  mergeable
    : Mergeable (fun event => act event.row) Scene.Event.record Scene.Event.version encoding.merge
  whole : ∀ record old, act (.whole record) old = some record
  erase : ∀ data old, act { record := none, data } old = none

theorem Catalog.lawful : Catalog.encoding.Lawful Catalog.act where
  keeps _ _ same := same
  mergeable :=
    ⟨fun _ _ _ => rfl, fun _ _ _ _ => rfl, fun _ _ _ _ => rfl, fun _ _ => rfl, fun _ _ => rfl⟩
  whole _ _ := rfl
  erase _ _ := rfl

namespace Ephemeris

variable (previous current : Scene.Event Content)

@[simp]
theorem key_merge : (merge previous current).key = current.key := by
  unfold merge
  split <;> rfl

@[simp]
theorem version_merge : (merge previous current).version = current.version := by
  unfold merge
  split <;> rfl

@[simp]
theorem record_merge : (merge previous current).record = current.record := by
  unfold merge
  split <;> rfl

/-- A merged change is the newer one, or the newer one with its whole record. -/
theorem row_merge
    : (merge previous current).row = current.row
      ∨ (merge previous current).row = { record := current.record } := by
  unfold merge
  split
  · exact .inr rfl
  · exact .inl rfl

/-- A row with the whole record needs nothing. -/
theorem act_record (record old : Option Content) : act { record } old = record := by
  cases record <;> rfl

theorem lawful : encoding.Lawful act where
  keeps left right same := (key_merge left right).trans same
  mergeable := by
    refine ⟨?_, ?_, ?_, version_merge, record_merge⟩
    · rintro ⟨key, record, version, data, bytes, stored⟩ value acts
      cases record with
      | none => rfl
      | some record =>
          cases data with
          | false => rfl
          | true => rfl
    · intro old new value acts
      change act (merge old new).row value = new.record
      rcases row_merge old new with same | whole
      · rw [same]
        exact acts
      · rw [whole]
        exact act_record _ _
    · intro old new value acts
      change act (merge old new).row value = new.record
      unfold merge
      split
      · exact act_record _ _
      rename_i kept
      -- Only data after data is merged to data, and the first one keeps the attribute.
      cases new with
      | mk key record version data bytes stored =>
        cases record with
        | none => rfl
        | some record =>
            cases data with
            | false => rfl
            | true =>
                simp only [Option.isSome_some, Bool.true_and, Bool.or_eq_true,
                  Option.isNone_iff_eq_none, Bool.not_eq_true', not_or] at kept
                obtain ⟨held, present⟩ := Option.ne_none_iff_exists'.mp kept.1
                have only : old.data = true := by simpa using kept.2
                simpa [act, Scene.Event.row, present, only, Function.comp_def] using acts
  whole _ _ := rfl
  erase _ _ := rfl

end Ephemeris

end Astra
