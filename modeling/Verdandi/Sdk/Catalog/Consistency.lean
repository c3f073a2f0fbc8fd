import Verdandi.Sdk.Catalog.Reading

/-! The keys of a zone stay in step over any sequence of mutations, so that no script ever finds a
corrupt zone.
-/

namespace Sdk.Catalog

open Support
open Support.Redis (Text Database)

inductive Mutation where
  | replace (call : Call)
  | patch (call : Call)
  | delete (call : Call) (time : Time)

namespace Mutation

def call : Mutation → Call
  | .replace call | .patch call | .delete call _ => call

def outcome (mutation : Mutation) (store : Store) : Outcome :=
  match mutation with
  | .replace call => Catalog.replace store call
  | .patch call => Catalog.patch store call
  | .delete call time => Catalog.delete store call time

def Sound : Mutation → Prop
  | .replace call | .patch call => call.Names
  | .delete call time => call.Names ∧ time.milliseconds ≤ lastRevision

end Mutation

structure Ledger where
  store : Store := ∅
  events : List Event := []

def Ledger.step (ledger : Ledger) (mutation : Mutation) : Ledger where
  store := (mutation.outcome ledger.store).store
  events := ledger.events ++ (mutation.outcome ledger.store).event.toList

def Ledger.run (mutations : List Mutation) : Ledger := mutations.foldl Ledger.step {}

/-- The revision that wrote a field of a member last, after an event. -/
def Event.writer (member name : Text) (before : Option Text) : Event → Option Text
  | .replace target revision _ _ fields =>
      if target ≠ member then before
      else if name ∈ fields.map Prod.fst then some revision
      else none
  | .patch target _ revision _ _ sets =>
      if target = member ∧ name ∈ sets.map Prod.fst then some revision else before
  | .delete target _ => if target = member then none else before

def lastWriter (events : List Event) (member name : Text) : Option Text :=
  events.foldl (fun before event => event.writer member name before) none

namespace Store

def revision (store : Store) : Nat :=
  ((store.hget .metadata (ascii "@revision")).map Decimal.value).getD 0

def floor (store : Store) : Nat :=
  ((store.hget .metadata (ascii "@floor_revision")).map Decimal.value).getD 0

def userFields (store : Store) (path : Path) : Assoc Text Text :=
  (store.hash (.catalog path)).filter fun name _ => name.head? != some 64

end Store

structure Consistent (store : Store) (events : List Event) : Prop where
  named : ∀ key ∈ [Key.live, .deleted, .deletedTime], ∀ member,
    (store.zscore key member).isSome → ∃ path, Path.member path = member
  listed : ∀ path, (store.zscore .live (Path.member path)).isSome
    ↔ store.type (.catalog path) ≠ .none
  scored : ∀ path revision, store.zscore .live (Path.member path) = some revision
    → store.hget (.catalog path) (ascii "@revision") = some (Decimal.text revision)
  ordered : ∀ path, store.type (.catalog path) ≠ .none → ∃ replaceRevision revision,
      store.hget (.catalog path) (ascii "@replace_revision") = some (Decimal.text replaceRevision)
        ∧ store.hget (.catalog path) (ascii "@revision") = some (Decimal.text revision)
        ∧ replaceRevision ≤ revision ∧ revision ≤ store.revision
  bounded : store.revision ≤ 2 ^ 53 - 1
  weighed : ∀ path, store.type (.catalog path) ≠ .none
    → store.hget (.catalog path) (ascii "@encoded_bytes")
      = some (Decimal.text ((store.userFields path).weight fieldBytes))
  indexed : ∀ path name, (store.zscore (.fieldRevisions path) name).isSome
    ↔ ((store.userFields path).get? name).isSome
  written : ∀ path name, (store.zscore (.fieldRevisions path) name).map Decimal.text
    = lastWriter events path.member name
  tombstones : ∀ member,
    (store.zscore .deleted member).isSome ↔ (store.zscore .deletedTime member).isSome
  disjoint : ∀ member, (store.zscore .live member).isSome → store.zscore .deleted member = none
  distinct : ∀ key ∈ [Key.live, .deleted], ∀ other ∈ [Key.live, .deleted],
    ∀ member another revision, store.zscore key member = some revision
      → store.zscore other another = some revision → key = other ∧ member = another
  floored : store.floor ≤ store.revision

/-- What one call does to a zone: it counts the zone up by one, or leaves it as it is. -/
structure Counts (store : Store) (outcome : Outcome) : Prop where
  sound : ∀ field revision, outcome.answer ≠ .error .corrupt field revision
  refused : ∀ status field revision, outcome.answer = .error status field revision
    → outcome.store = store ∧ outcome.event = none
  accepted : ∀ revision floor pruned, outcome.answer = .ok revision floor pruned
    → outcome.store.revision = store.revision + 1 ∧ revision = Decimal.text (store.revision + 1)

-- A represented zone is consistent

/-- The fields of a zone were written last by the events of the zone. -/
def Zone.Traces (zone : Zone) (events : List Event) : Prop :=
  ∀ path name, ((zone.items path).written.get? name).map Decimal.text
    = lastWriter events path.member name

variable {events : List Event} {event : Option Event}

theorem lastWriter_append {member name : Text}
    : lastWriter (events ++ event.toList) member name = match event with
        | none => lastWriter events member name
        | some event => event.writer member name (lastWriter events member name) := by
  cases event <;> simp [lastWriter]

variable {zone next : Zone} {path : Path}

theorem Mutates.traces {answer : Answer} (mutates : Mutates zone path answer event next)
    (traces : zone.Traces events)
    : next.Traces (events ++ event.toList) := by
  intro other name
  have before := traces other name
  have member : path.member = other.member ↔ path = other := Path.member_injective.eq_iff
  rw [lastWriter_append]
  cases mutates with
  | refused => exact before
  | replaced kind fields room lists =>
      simp only [Event.writer, ne_eq, member]
      by_cases same : path = other
      · subst same
        simp only [not_true, if_false, Zone.items_replace, Item.written, Record.written_whole]
        split <;> rfl
      · rw [if_pos same, ← before, Zone.items_replace_of_ne (Ne.symm same)]
  | patched record sets room found takes =>
      simp only [Event.writer, member]
      by_cases same : path = other
      · subst same
        rw [found, Item.written] at before
        simp only [true_and, Zone.items_patch, Item.written, Record.written_write]
        split
        · rfl
        · exact before
      · rw [if_neg fun both => same both.1, ← before, Zone.items_patch_of_ne (Ne.symm same)]
  | deleted time next pruned room timely deletes =>
      simp only [Event.writer, member]
      by_cases same : path = other
      · subst same
        rw [if_pos rfl, deletes.item]
        rfl
      · rw [if_neg same, ← before]
        rcases deletes.others other (Ne.symm same) with kept | ⟨_, _, isDeleted, gone, _⟩
        · rw [kept]
        · rw [isDeleted, gone]
          rfl

namespace Represents

variable {store : Store} {zone : Zone}

theorem get?_metadata (represents : Represents store zone) {pair : Text × Text}
    (listed : pair ∈ zone.counters) (positive : zone.revision ≠ 0)
    : store.hget .metadata pair.1 = some pair.2 := by
  rw [Database.hget, represents.metadata, Zone.metadata, if_neg positive]
  exact Redis.get?_setAll_of_mem zone.nodup_counters listed

theorem store_revision (represents : Represents store zone) : store.revision = zone.revision := by
  by_cases fresh : zone.revision = 0
  · rw [Store.revision, Database.hget, represents.metadata, Zone.metadata, if_pos fresh, fresh]
    rfl
  · have found := represents.get?_metadata
      (show (ascii "@revision", Decimal.text zone.revision) ∈ zone.counters by
        simp [Zone.counters]) fresh
    simp [Store.revision, found]

theorem store_floor (represents : Represents store zone) : store.floor = zone.floor := by
  by_cases fresh : zone.revision = 0
  · have noFloor : zone.floor = 0 := Nat.le_zero.mp (fresh ▸ represents.valid.floor)
    rw [Store.floor, Database.hget, represents.metadata, Zone.metadata, if_pos fresh, noFloor]
    rfl
  · have found := represents.get?_metadata
      (show (ascii "@floor_revision", Decimal.text zone.floor) ∈ zone.counters by
        simp [Zone.counters]) fresh
    simp [Store.floor, found]

theorem present (represents : Represents store zone) {path : Path}
    (exists_ : store.type (.catalog path) ≠ .none)
    : ∃ record, zone.items path = .present record := by
  cases isItem : zone.items path with
  | present record => exact ⟨record, rfl⟩
  | absent =>
      exact absurd (represents.type_missing (by rw [isItem]; rfl)) exists_
  | deleted revision time =>
      exact absurd (represents.type_missing (by rw [isItem]; rfl)) exists_

theorem get?_userFields (represents : Represents store zone) (path : Path)
    : (store.userFields path).get? = match zone.items path with
        | .present record => record.fields.get?
        | _ => (∅ : Assoc Text Text).get? := by
  funext name
  rw [Store.userFields, Assoc.get?_filter, represents.hash]
  cases isItem : zone.items path with
  | present record =>
      have valid := represents.valid.records path record isItem
      simp only [Item.hash]
      by_cases listed : name ∈ reserved
      · rw [valid.reserved_free listed]
        have marked : name.head? = some 64 := by
          simp only [reserved, List.mem_cons, List.not_mem_nil, or_false] at listed
          rcases listed with rfl | rfl | rfl | rfl <;> decide
        cases record.hash.get? name <;> simp [marked]
      · rw [Record.get?_hash listed]
        cases found : record.fields.get? name with
        | none => rfl
        | some value =>
            have user := valid.names name (by rw [found, Option.isSome_some])
            have unmarked : name.head? ≠ some 64 := by
              simp only [userField, Bool.and_eq_true, bne_iff_ne] at user
              exact user.2
            simp [unmarked]
  | absent => simp [Item.hash]
  | deleted revision time => simp [Item.hash]

/-- A score is the revision of the item of a path. -/
theorem scored (represents : Represents store zone) {key : Key} (index : key ∈ [Key.live, .deleted])
    {member : Text} {revision : Nat} (found : store.zscore key member = some revision)
    : ∃ path, Path.member path = member ∧ (zone.items path).revision = some revision
      ∧ (key = .live ↔ (zone.items path).liveRevision.isSome) := by
  obtain ⟨path, rfl⟩ := represents.members key
    (by
      simp only [List.mem_cons, List.not_mem_nil, or_false] at index ⊢
      rcases index with isLive | isDeleted
      · exact .inl isLive
      · exact .inr (.inl isDeleted))
    member (Option.isSome_iff_exists.mpr ⟨_, found⟩)
  refine ⟨path, rfl, ?_⟩
  simp only [List.mem_cons, List.not_mem_nil, or_false] at index
  rcases index with rfl | rfl
  · rw [represents.live] at found
    cases isItem : zone.items path <;> simp_all [Item.liveRevision, Item.revision]
  · rw [represents.deleted] at found
    cases isItem : zone.items path
      <;> simp_all [Item.deletedRevision, Item.liveRevision, Item.revision]

theorem consistent (represents : Represents store zone) {events : List Event}
    (traces : zone.Traces events)
    : Consistent store events := by
  have valid := represents.valid
  have items (member : Text) (key : Key) (index : key ∈ [Key.live, .deleted, .deletedTime])
      (found : (store.zscore key member).isSome) := represents.members key index member found
  refine ⟨represents.members, ?_, ?_, ?_, ?_, ?_, ?_, ?_, ?_, ?_, ?_, ?_⟩
  · intro path
    rw [represents.live]
    constructor
    · intro isLive
      cases isItem : zone.items path with
      | present record =>
          rw [represents.type_present isItem]
          nofun
      | absent => simp [isItem, Item.liveRevision] at isLive
      | deleted revision time => simp [isItem, Item.liveRevision] at isLive
    · intro exists_
      obtain ⟨record, isPresent⟩ := represents.present exists_
      rw [isPresent]
      rfl
  · intro path revision found
    rw [represents.live] at found
    cases isItem : zone.items path with
    | present record =>
        rw [isItem, Item.liveRevision] at found
        cases found
        rw [Database.hget, represents.hash_present isItem, record.get?_hash_revision]
    | absent => simp [isItem, Item.liveRevision] at found
    | deleted revision time => simp [isItem, Item.liveRevision] at found
  · intro path exists_
    obtain ⟨record, isPresent⟩ := represents.present exists_
    have counted := valid.counted path record.revision (by rw [isPresent, Item.revision])
    refine ⟨record.replaceRevision, record.revision, ?_, ?_,
      (valid.records path record isPresent).ordered, ?_⟩
    · rw [Database.hget, represents.hash_present isPresent, record.get?_hash_replaceRevision]
    · rw [Database.hget, represents.hash_present isPresent, record.get?_hash_revision]
    · rw [represents.store_revision]
      exact counted.2
  · rw [represents.store_revision]
    exact valid.small
  · intro path exists_
    obtain ⟨record, isPresent⟩ := represents.present exists_
    have fields := represents.get?_userFields path
    rw [isPresent] at fields
    rw [Database.hget, represents.hash_present isPresent, record.get?_hash_encodedBytes,
      Record.encodedBytes, Assoc.weight_congr fieldBytes fields]
  · intro path name
    rw [Database.zscore, represents.written, represents.get?_userFields]
    cases isItem : zone.items path with
    | present record =>
        simp only [Item.written]
        rw [(valid.records path record isItem).indexed]
    | absent => simp [Item.written]
    | deleted revision time => simp [Item.written]
  · intro path name
    rw [Database.zscore, represents.written]
    exact traces path name
  · intro member
    constructor
    · intro found
      obtain ⟨path, rfl⟩ := items member .deleted (by simp) found
      rw [represents.deleted] at found
      rw [represents.deletedTime]
      cases isItem : zone.items path <;> simp_all [Item.deletedRevision, Item.deletedTime]
    · intro found
      obtain ⟨path, rfl⟩ := items member .deletedTime (by simp) found
      rw [represents.deletedTime] at found
      rw [represents.deleted]
      cases isItem : zone.items path <;> simp_all [Item.deletedRevision, Item.deletedTime]
  · intro member found
    obtain ⟨path, rfl⟩ := items member .live (by simp) found
    rw [represents.live] at found
    rw [represents.deleted]
    cases isItem : zone.items path <;> simp_all [Item.deletedRevision, Item.liveRevision]
  · intro key index other otherIndex member another revision first second
    obtain ⟨path, rfl, isFirst, isLive⟩ := represents.scored index first
    obtain ⟨path', rfl, isSecond, isLive'⟩ := represents.scored otherIndex second
    have same := valid.distinct path path' revision isFirst isSecond
    subst same
    refine ⟨?_, rfl⟩
    have both := isLive.trans isLive'.symm
    simp only [List.mem_cons, List.not_mem_nil, or_false] at index otherIndex
    rcases index with rfl | rfl <;> rcases otherIndex with rfl | rfl <;> simp_all
  · rw [represents.store_floor, represents.store_revision]
    exact valid.floor

end Represents

-- Runs

variable {store : Store}

/-- Every call of a run is a mutation of the zone that is stored. -/
theorem Mutation.Sound.mutates {mutation : Mutation} (sound : mutation.Sound)
    (represents : Represents store zone)
    : (mutation.outcome store).Mutates store zone mutation.call.path := by
  cases mutation with
  | replace call => exact represents.replace_mutates sound
  | patch call => exact represents.patch_mutates sound
  | delete call time => exact represents.delete_mutates sound.1 sound.2

variable {status : Status}

theorem Mutates.silent {field revision : Option Text}
    (mutates : Mutates zone path (.error status field revision) event next)
    : event = none ∧ status ≠ .corrupt := by
  cases mutates with
  | refused _ _ _ sound => exact ⟨rfl, sound⟩

theorem Mutates.revision {zone next : Zone} {path : Path} {revision floor : Text}
    {pruned : Option Text} {event : Option Event}
    (mutates : Mutates zone path (.ok revision floor pruned) event next)
    : next.revision = zone.revision + 1 ∧ revision = Decimal.text (zone.revision + 1) := by
  cases mutates with
  | replaced => exact ⟨rfl, rfl⟩
  | patched => exact ⟨rfl, rfl⟩
  | deleted time next pruned room timely deletes => exact ⟨deletes.revision, rfl⟩

theorem Item.Reads.sound {since : Nat} {item : Item} {reading : Reading}
    (reads : item.Reads since reading)
    : reading ≠ .error status := by
  rintro rfl
  cases reads

theorem Outcome.Mutates.counts {outcome : Outcome} (mutates : outcome.Mutates store zone path)
    (represents : Represents store zone)
    : Counts store outcome := by
  obtain ⟨next, step, after, unchanged⟩ := mutates
  refine ⟨?_, ?_, ?_⟩
  · intro field revision isCorrupt
    rw [isCorrupt] at step
    exact step.silent.2 rfl
  · intro status field revision isError
    rw [isError] at step
    exact ⟨unchanged step.silent.1, step.silent.1⟩
  · intro revision floor pruned isOk
    rw [isOk] at step
    rw [after.store_revision, represents.store_revision]
    exact step.revision

theorem represents_empty : Represents ∅ {} where
  shaped := .empty
  valid := Zone.valid_empty
  metadata := rfl
  live _ := rfl
  deleted _ := rfl
  deletedTime _ := rfl
  members _ _ _ := nofun
  hash _ := rfl
  written _ := rfl

variable {mutations : List Mutation}

/-- A run leaves the store of a zone whose fields its events have written. Witness: induction over the
calls, from the last.
-/
theorem Ledger.run_represents (sound : ∀ mutation ∈ mutations, mutation.Sound)
    : ∃ zone, Represents (Ledger.run mutations).store zone
      ∧ zone.Traces (Ledger.run mutations).events := by
  induction mutations using List.reverseRecOn with
  | nil => exact ⟨{}, represents_empty, fun _ _ => rfl⟩
  | append_singleton before last ih =>
      obtain ⟨zone, represents, traces⟩ :=
        ih fun mutation listed => sound mutation (List.mem_append_left _ listed)
      have isSound := sound last (List.mem_append_right _ (List.mem_singleton_self _))
      obtain ⟨next, step, after, _⟩ := isSound.mutates represents
      rw [Ledger.run, List.foldl_append]
      exact ⟨next, after, step.traces traces⟩

def samplePath : Path := ⟨ascii "part", ascii "a", by decide⟩

def otherPath : Path := ⟨ascii "part", ascii "b", by decide⟩

def sampleReplace : Call where
  path := samplePath
  keys := 6
  argv := [samplePath.member, ascii "map", ascii "0", ascii "0"]

def sampleDelete : Call where
  path := samplePath
  keys := 6
  argv := [samplePath.member]

/-- After any calls on any paths, the keys of the zone belong together; the next call counts the zone up
by one or leaves it as it is, and no call and no read is answered as corrupt.
-/
theorem zone_stays_consistent (sound : ∀ mutation ∈ mutations, mutation.Sound)
    : Consistent (Ledger.run mutations).store (Ledger.run mutations).events
      ∧ (∀ mutation : Mutation, mutation.Sound
        → Counts (Ledger.run mutations).store (mutation.outcome (Ledger.run mutations).store))
      ∧ ∀ call : Call, call.Names → read (Ledger.run mutations).store call ≠ .error .corrupt := by
  obtain ⟨zone, represents, traces⟩ := Ledger.run_represents sound
  refine ⟨represents.consistent traces, ?_, ?_⟩
  · intro mutation isSound
    exact (isSound.mutates represents).counts represents
  · intro call names isCorrupt
    rcases read_refused names with refused | ⟨since, asks⟩
    · rw [refused] at isCorrupt
      cases isCorrupt
    · exact (represents.read asks).sound isCorrupt

/-- An empty map is written and deleted again. -/
theorem zone_stays_consistent_sample
    : Consistent (Ledger.run [.replace sampleReplace, .delete sampleDelete ⟨1, 0⟩]).store
          (Ledger.run [.replace sampleReplace, .delete sampleDelete ⟨1, 0⟩]).events
        ∧ (∀ mutation : Mutation, mutation.Sound
          → Counts (Ledger.run [.replace sampleReplace, .delete sampleDelete ⟨1, 0⟩]).store
              (mutation.outcome
                (Ledger.run [.replace sampleReplace, .delete sampleDelete ⟨1, 0⟩]).store))
        ∧ ∀ call : Call, call.Names
          → read (Ledger.run [.replace sampleReplace, .delete sampleDelete ⟨1, 0⟩]).store call
            ≠ .error .corrupt := by
  apply zone_stays_consistent
  intro mutation listed
  simp only [List.mem_cons, List.not_mem_nil, or_false] at listed
  rcases listed with rfl | rfl
  · exact .inl rfl
  · exact ⟨.inl rfl, by decide⟩

/-- A time that no score holds exactly makes the next call on the path find a corrupt zone, and so does a
member that is not the one of the keys.
-/
theorem unsound_calls_corrupt
    : ((Mutation.replace sampleReplace).outcome
          (Ledger.run [.delete sampleDelete ⟨9007199254740, 992000⟩]).store).answer
        = .error .corrupt
      ∧ ((Mutation.delete sampleDelete ⟨0, 0⟩).outcome
          (Ledger.run [.replace { sampleReplace with path := otherPath }]).store).answer
        = .error .corrupt := by
  decide

end Sdk.Catalog
