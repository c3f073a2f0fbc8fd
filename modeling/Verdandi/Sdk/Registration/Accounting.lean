import Verdandi.Sdk.Registration.Selector

/-! The counters and queues of a selector agree with what it keeps. -/

namespace Sdk.Registration

open Support
open Support.Redis (Text)

-- Counted maps

section Booked

variable {α : Type} {size due : α → Nat} {map : Assoc Text α} {queue : DeadlineQueue} {bytes : Int}

/-- The bytes of a map are counted, and a queue holds when its values are due. -/
structure Booked (size due : α → Nat) (map : Assoc Text α) (queue : DeadlineQueue) (bytes : Int)
    : Prop where
  bytes : bytes = map.weight fun _ value => size value
  queue : queue.Holds fun uuid => (map.get? uuid).map due

theorem booked_empty : Booked size due (∅ : Assoc Text α) {} 0 where
  bytes := rfl
  queue := DeadlineQueue.holds_empty

theorem Booked.set (booked : Booked size due map queue bytes) (uuid : Text) (value : α)
    : Booked size due (map.set uuid value) (queue.set uuid (due value))
      (bytes - ((map.get? uuid).elim 0 fun old => (size old : Int)) + size value) where
  bytes := by
    rw [booked.bytes]
    cases found : map.get? uuid with
    | none =>
        have added := Assoc.weight_set_of_none found (fun _ value => size value) value
        simp only [Option.elim_none]
        omega
    | some old =>
        have changed := Assoc.weight_set_of_some found (fun _ value => size value) value
        simp only [Option.elim_some]
        omega
  queue := by
    have held := booked.queue.set uuid (due value)
    convert held using 1
    funext other
    by_cases same : other = uuid
    · subst same
      simp
    · simp [same]

variable {old : α}

/-- Where a queue holds the others, the bytes of a value are taken off with it. -/
theorem Booked.drop {content : Text → Option Nat}
    (counted : bytes = map.weight fun _ value => size value) (holds : queue.Holds content)
    (others : ∀ other, other ≠ uuid → content other = (map.get? other).map due)
    (found : map.get? uuid = some old)
    : Booked size due (map.remove uuid) (queue.remove uuid).1 (bytes - size old) where
  bytes := by
    have less := Assoc.weight_remove_of_some found fun _ value => size value
    omega
  queue := by
    have held := (holds.remove uuid).1
    convert held using 1
    funext other
    by_cases same : other = uuid
    · subst same
      simp
    · simp [same, others other same]

theorem Booked.remove (booked : Booked size due map queue bytes) (found : map.get? uuid = some old)
    : Booked size due (map.remove uuid) (queue.remove uuid).1 (bytes - size old) :=
  .drop booked.bytes booked.queue (fun _ _ => rfl) found

theorem Booked.absent (booked : Booked size due map queue bytes) (free : map.get? uuid = none)
    : Booked size due map (queue.remove uuid).1 bytes where
  bytes := booked.bytes
  queue := by
    have held := (booked.queue.remove uuid).1
    rwa [Function.update_eq_self_iff.mpr (by simp [free])] at held

/-- A value leaves with the item that was taken from the queue. -/
theorem Booked.take (booked : Booked size due map queue bytes) {rest : DeadlineQueue} {old : α}
    (taken : rest.Holds (Function.update (fun uuid => (map.get? uuid).map due) uuid none))
    (found : map.get? uuid = some old)
    : Booked size due (map.remove uuid) rest (bytes - size old) where
  bytes := by
    rw [booked.bytes]
    have less := Assoc.weight_remove_of_some found fun _ value => size value
    omega
  queue := by
    convert taken using 1
    funext other
    by_cases same : other = uuid
    · subst same
      simp
    · simp [same]

/-- A queue has as many items as its map has entries. -/
theorem Booked.length (booked : Booked size due map queue bytes)
    : queue.items.length = map.size := by
  have distinct : (queue.items.map DeadlineItem.uuid).Nodup := by
    rw [List.nodup_iff_getElem?_ne_getElem?]
    intro left right before inside same
    rw [List.length_map] at inside
    rw [List.getElem?_map, List.getElem?_map, List.getElem?_eq_getElem (by omega),
      List.getElem?_eq_getElem inside] at same
    have place := booked.queue.exact'.unique
      (List.getElem?_eq_getElem (l := queue.items) (i := left) (by omega))
      (List.getElem?_eq_getElem inside) (by simpa using same)
    omega
  have same : (queue.items.map DeadlineItem.uuid).Perm map.keys := by
    rw [List.perm_ext_iff_of_nodup distinct map.nodup_keys]
    intro uuid
    rw [Assoc.mem_keys, List.mem_map]
    constructor
    · rintro ⟨item, listed, rfl⟩
      have held := (booked.queue.content item.uuid item.deadline).mpr listed
      obtain ⟨value, found, _⟩ := Option.map_eq_some_iff.mp held
      exact ⟨value, found⟩
    · rintro ⟨value, found⟩
      exact ⟨⟨uuid, due value⟩, (booked.queue.content _ _).mp (by rw [found]; rfl), rfl⟩
  have long := same.length_eq
  rw [List.length_map] at long
  rw [long]
  simp [Assoc.keys, Assoc.size]

end Booked

-- Sizes

variable {P : Type}

/-- The size of a record was not stored, or it is what its fields take. -/
def SelectorRecord.Sized (record : SelectorRecord P) : Prop :=
  record.size = 0 ∨ record.size = record.measured

variable {record : SelectorRecord P}

theorem SelectorRecord.Sized.recordSize (sized : record.Sized)
    : record.recordSize = record.measured := by
  unfold SelectorRecord.recordSize
  split
  next stored =>
    rcases sized with zero | exact'
    · exact absurd zero stored
    · exact exact'
  · rfl

/-- The size of a clone is stored. -/
theorem SelectorRecord.Sized.clone (sized : record.Sized)
    : record.clone.size = record.measured :=
  sized.recordSize

def dataSize (data : Assoc Text Text) : Nat :=
  data.weight fun name value => name.length + value.length

/-- A patch adds what its values are longer. -/
theorem patchData_size {rows : List (Text × Text)} {data data' : Assoc Text Text}
    {size size' : Int} (patched : patchData rows data size = some (data', size'))
    : size' = size + (dataSize data' - dataSize data) := by
  induction rows generalizing data size with
  | nil =>
      cases patched
      omega
  | cons row rows ih =>
      rw [patchData] at patched
      split at patched
      · cases patched
      rename_i previous found
      have rest := ih patched
      have changed :=
        Assoc.weight_set_of_some found (fun name value => name.length + value.length) row.2
      unfold dataSize at rest ⊢
      omega

/-- How the size follows the numbers and the data of a record. -/
theorem registrationSize_patched (uuid : Text) (ttl revision revision' version version' : Nat)
    (attr data data' : Assoc Text Text)
    : (registrationSize uuid revision' ttl { version := version', attr, data := data' } : Int)
      = registrationSize uuid revision ttl { version, attr, data }
        + (decimalDigits revision' - decimalDigits revision)
        + (decimalDigits version' - decimalDigits version)
        + (dataSize data' - dataSize data) := by
  unfold registrationSize dataSize
  push_cast
  omega

-- States

namespace SelectorCore

variable {core : SelectorCore P} {state : SelectorState P}

/-- What holds also while retained records leave: every part but the limit of their bytes. -/
structure Books (core : SelectorCore P) (state : SelectorState P) : Prop where
  active
    : Booked SelectorRecord.measured SelectorRecord.deadline state.records state.deadlines
        state.bytes
  kept
    : Booked (fun kept : RetainedSelectorRecord P => kept.record.measured)
        RetainedSelectorRecord.until' state.retained state.retainedDeadlines
        state.retainedBytes
  within : state.bytes ≤ core.selectorMaxBytes
  apart : ∀ uuid record, state.records.get? uuid = some record → state.retained.get? uuid = none
  named
    : ∀ uuid record, state.records.get? uuid = some record → record.info.uuid = uuid ∧ record.Sized
  keptNamed
    : ∀ uuid (kept : RetainedSelectorRecord P),
        state.retained.get? uuid = some kept → kept.record.info.uuid = uuid ∧ kept.record.Sized

structure Accounted (core : SelectorCore P) (state : SelectorState P) : Prop
    extends Books core state where
  keptWithin : state.retainedBytes ≤ core.selectorRetainedBytes

theorem accounted_empty : Accounted core {} where
  active := booked_empty
  kept := booked_empty
  within := Int.natCast_nonneg _
  apart := by simp
  named := by simp
  keptNamed := by simp
  keptWithin := Int.natCast_nonneg _

variable {uuid : Text} {rest : DeadlineQueue}

/-- A retained record leaves. -/
theorem Books.loseKept (books : Books core state)
    {kept : RetainedSelectorRecord P}
    (found : state.retained.get? uuid = some kept)
    (booked
      : Booked (fun kept : RetainedSelectorRecord P => kept.record.measured)
          RetainedSelectorRecord.until' (state.retained.remove uuid) rest
          (state.retainedBytes - kept.record.measured))
    : Books core
        { state with
          retainedBytes := state.retainedBytes - kept.record.recordSize
          retained := state.retained.remove uuid
          retainedDeadlines := rest } where
  active := books.active
  kept := by
    rw [(books.keptNamed uuid kept found).2.recordSize]
    exact booked
  within := books.within
  apart other record active := by
    have free := books.apart other record active
    simp only [Assoc.get?_remove]
    split
    · rfl
    · exact free
  named := books.named
  keptNamed other kept listed := by
    simp only [Assoc.get?_remove] at listed
    split at listed
    · cases listed
    · exact books.keptNamed other kept listed

theorem Books.removeRetained (books : Books core state) (uuid : Text)
    : Books core (removeRetained state uuid).1 := by
  unfold SelectorCore.removeRetained
  split
  next kept found => exact books.loseKept found (books.kept.remove found)
  next free => exact { books with kept := books.kept.absent free }

theorem removeRetained_get? (state : SelectorState P) (uuid other : Text)
    : (removeRetained state uuid).1.retained.get? other
      = if other = uuid then none else state.retained.get? other := by
  unfold removeRetained
  split
  · simp
  rename_i free
  split
  next same => rw [same, free]
  · rfl

theorem removeRetained_records (state : SelectorState P) (uuid : Text)
    : (removeRetained state uuid).1.records = state.records
      ∧ (removeRetained state uuid).1.deadlines = state.deadlines
      ∧ (removeRetained state uuid).1.bytes = state.bytes := by
  unfold removeRetained
  split
  · exact ⟨rfl, rfl, rfl⟩
  · exact ⟨rfl, rfl, rfl⟩

theorem removeRetained_less (books : Books core state) (uuid : Text)
    : (removeRetained state uuid).1.retainedBytes ≤ state.retainedBytes := by
  unfold removeRetained
  split
  next kept found =>
    have size := (books.keptNamed uuid kept found).2.recordSize
    show state.retainedBytes - kept.record.recordSize ≤ state.retainedBytes
    omega
  · exact le_rfl

theorem Accounted.removeRetained (accounted : Accounted core state) (uuid : Text)
    : Accounted core (removeRetained state uuid).1 :=
  ⟨accounted.toBooks.removeRetained uuid,
    (removeRetained_less accounted.toBooks uuid).trans accounted.keptWithin⟩

variable {record : SelectorRecord P}

/-- An active record leaves. -/
theorem Books.loseActive (books : Books core state) (found : state.records.get? uuid = some record)
    (booked
      : Booked SelectorRecord.measured SelectorRecord.deadline (state.records.remove uuid) rest
          (state.bytes - record.measured))
    : Books core
        { state with
          bytes := state.bytes - record.recordSize
          records := state.records.remove uuid
          deadlines := rest } where
  active := by
    rw [(books.named uuid record found).2.recordSize]
    exact booked
  kept := books.kept
  within := by
    have size := (books.named uuid record found).2.recordSize
    have within := books.within
    show state.bytes - record.recordSize ≤ _
    omega
  apart other record active := by
    simp only [Assoc.get?_remove] at active
    split at active
    · cases active
    · exact books.apart other record active
  named other record listed := by
    simp only [Assoc.get?_remove] at listed
    split at listed
    · cases listed
    · exact books.named other record listed
  keptNamed := books.keptNamed

theorem Accounted.removeActive (accounted : Accounted core state) (uuid : Text)
    : Accounted core (removeActive state uuid) := by
  unfold SelectorCore.removeActive
  split
  next record found =>
    exact ⟨accounted.toBooks.loseActive found (accounted.active.remove found), accounted.keptWithin⟩
  · exact accounted

/-- The record whose item was taken from the queue leaves. -/
theorem Accounted.removeExpired (accounted : Accounted core state)
    (taken
      : rest.Holds (Function.update
          (fun uuid => (state.records.get? uuid).map SelectorRecord.deadline) uuid none))
    (found : state.records.get? uuid = some record)
    : Accounted core (SelectorCore.removeActive { state with deadlines := rest } uuid) := by
  unfold SelectorCore.removeActive
  simp only [found]
  refine ⟨accounted.toBooks.loseActive found ?_, accounted.keptWithin⟩
  refine .drop accounted.active.bytes taken ?_ found
  intro other apart
  rw [Function.update_of_ne apart]

theorem removeActive_get? (state : SelectorState P) (uuid other : Text)
    : (removeActive state uuid).records.get? other
      = if other = uuid then none else state.records.get? other := by
  unfold removeActive
  split
  · simp
  rename_i free
  split
  next same => rw [same, free]
  · rfl

variable {next : SelectorRecord P}

theorem project_sized (projected : core.projectRecord record = .ok next)
    : next.info = record.info ∧ next.attr = record.attr ∧ next.data = record.data
      ∧ next.deadline = record.deadline
      ∧ next.size = record.size := by
  unfold projectRecord at projected
  split at projected
  · cases projected
  split at projected
  · cases projected
  · cases projected
    exact ⟨rfl, rfl, rfl, rfl, rfl⟩

theorem project_same (projected : core.projectRecord record = .ok next)
    : next.measured = record.measured ∧ (record.Sized → next.Sized) := by
  obtain ⟨info, attr, data, _, size⟩ := project_sized projected
  have measured : next.measured = record.measured := by
    simp only [SelectorRecord.measured, SelectorRecord.content, info, attr, data]
  refine ⟨measured, fun sized => ?_⟩
  unfold SelectorRecord.Sized
  rwa [measured, size]

/-- `setRecord` changes nothing or stores the record with its size. -/
theorem Accounted.setRecord (accounted : Accounted core state) (sized : record.Sized)
    : Accounted core (core.setRecord state record).1 := by
  have cached := sized.recordSize
  unfold SelectorCore.setRecord
  simp only
  split
  · exact accounted
  rename_i fits
  split
  · exact accounted
  rename_i next projected
  obtain ⟨info, _, _, deadline, size⟩ := project_sized projected
  obtain ⟨measured, _⟩ := project_same projected
  have isSize : next.size = record.measured := size.trans cached
  have isMeasured : next.measured = record.measured := measured
  obtain ⟨records, deadlines, _⟩ := removeRetained_records state next.info.uuid
  have before := accounted.removeRetained next.info.uuid
  have names : next.info.uuid = record.info.uuid := by rw [info]
  have previous
      : ((state.records.get? record.info.uuid).elim 0 fun old => old.recordSize)
        = (state.records.get? record.info.uuid).elim 0 fun old => (old.measured : Int) := by
    cases found : state.records.get? record.info.uuid with
    | none => rfl
    | some old => exact (accounted.named _ _ found).2.recordSize
  have again
      : ({ record with size := record.recordSize } : SelectorRecord P).recordSize
        = record.measured :=
    SelectorRecord.Sized.recordSize (.inr cached)
  rw [previous, again] at fits ⊢
  refine ⟨⟨?_, before.kept, by simpa using fits, ?_, ?_, before.keptNamed⟩, before.keptWithin⟩
  · have booked := accounted.active.set next.info.uuid next
    rw [isMeasured, names] at booked
    simp only [records, deadlines]
    rw [names]
    exact booked
  · intro uuid other active
    simp only [records, Assoc.get?_set] at active
    rw [removeRetained_get?]
    split at active
    next same => simp [same]
    · split
      · rfl
      · exact accounted.apart uuid other active
  · intro uuid other active
    simp only [records, Assoc.get?_set] at active
    split at active
    next same =>
      cases active
      exact ⟨same.symm, .inr (isSize.trans (congrArg Nat.cast isMeasured.symm))⟩
    · exact accounted.named uuid other active

theorem Accounted.removeRecord (accounted : Accounted core state) (uuid : Text)
    : Accounted core (SelectorCore.removeRecord state uuid) := by
  unfold SelectorCore.removeRecord
  refine Accounted.removeRetained ?_ uuid
  cases found : state.records.get? uuid with
  | some record =>
      exact ⟨accounted.toBooks.loseActive found (accounted.active.remove found),
        accounted.keptWithin⟩
  | none =>
      rw [Assoc.remove_of_none found]
      exact { accounted with active := accounted.active.absent found }

-- Retained records

/-- Where there is no retained record there are no bytes. -/
theorem Books.keptBytes_of_empty (books : Books core state)
    (empty : ∀ uuid, state.retained.get? uuid = none)
    : state.retainedBytes = 0 := by
  have same : state.retained.get? = (∅ : Assoc Text (RetainedSelectorRecord P)).get? :=
    funext fun uuid => empty uuid
  have nothing := Assoc.weight_congr (fun _ kept => kept.record.measured) same
  rw [books.kept.bytes, nothing]
  rfl

/-- One round of an eviction takes the record of the earliest end. -/
theorem Books.evicted (books : Books core state)
    (popped : state.retainedDeadlines.pop = some (uuid, rest))
    : ∃ kept, state.retained.get? uuid = some kept ∧ Books core
            { state with
              retainedDeadlines := rest
              retainedBytes := state.retainedBytes - kept.record.recordSize
              retained := state.retained.remove uuid } := by
  obtain ⟨⟨until', least⟩, taken⟩ := books.kept.queue.pop popped
  obtain ⟨kept, found, _⟩ := Option.map_eq_some_iff.mp least.1
  exact ⟨kept, found, books.loseKept found (books.kept.take taken found)⟩

variable {rounds : Nat}

theorem Books.evict (books : Books core state)
    (enough : state.retainedDeadlines.items.length ≤ rounds)
    : Accounted core (core.evict rounds state) := by
  induction rounds generalizing state with
  | zero =>
      refine ⟨books, ?_⟩
      have none' : ∀ uuid, state.retained.get? uuid = none := by
        intro uuid
        have empty := List.length_eq_zero_iff.mp (Nat.le_zero.mp enough)
        have free := books.kept.queue.head.2.mp (by rw [empty]; rfl) uuid
        exact Option.map_eq_none_iff.mp free
      rw [SelectorCore.evict, books.keptBytes_of_empty none']
      exact Int.natCast_nonneg _
  | succ rounds ih =>
      rw [SelectorCore.evict]
      split
      next many =>
        split
        next none' =>
          have free := books.kept.queue.pop_none.mp none'
          have nothing := books.keptBytes_of_empty fun uuid => Option.map_eq_none_iff.mp (free uuid)
          omega
        rename_i uuid rest popped
        obtain ⟨kept, found, after⟩ := books.evicted popped
        simp only [found]
        apply ih after
        have fewer := Assoc.size_remove_of_some found
        have length := books.kept.length
        have less : rest.items.length = (state.retained.remove uuid).size := after.kept.length
        show rest.items.length ≤ rounds
        omega
      next few => exact ⟨books, Int.not_lt.mp few⟩

/-- A record that was neither active nor retained is retained. -/
theorem Books.addKept (books : Books core state) (idle : state.records.get? record.info.uuid = none)
    (free : state.retained.get? record.info.uuid = none) (sized : record.Sized) (until' : Nat)
    : Books core
        { state with
          retained := state.retained.set record.info.uuid { record, until' }
          retainedDeadlines := state.retainedDeadlines.set record.info.uuid until'
          retainedBytes := state.retainedBytes + record.recordSize } where
  active := books.active
  kept := by
    have booked := books.kept.set record.info.uuid { record, until' }
    simp only [free, Option.elim_none, sub_zero] at booked
    rw [sized.recordSize]
    exact booked
  within := books.within
  apart uuid other active := by
    simp only [Assoc.get?_set]
    split
    next same =>
      rw [same, idle] at active
      cases active
    · exact books.apart uuid other active
  named := books.named
  keptNamed uuid kept listed := by
    simp only [Assoc.get?_set] at listed
    split at listed
    next same =>
      cases listed
      exact ⟨same.symm, sized⟩
    · exact books.keptNamed uuid kept listed

/-- A record becomes retained, or it is forgotten. -/
theorem Accounted.setRetained_of
    (accounted : Accounted core (SelectorCore.removeActive state record.info.uuid))
    (sized : record.Sized) (until' now : Nat)
    : Accounted core (core.setRetained state record until' now).1 := by
  have apart := accounted.removeRetained record.info.uuid
  unfold SelectorCore.setRetained
  simp only
  split
  · exact apart
  · refine Books.evict (apart.addKept ?_ ?_ sized until') le_rfl
    · obtain ⟨records, _, _⟩ :=
        removeRetained_records (SelectorCore.removeActive state record.info.uuid) record.info.uuid
      rw [records, removeActive_get?, if_pos rfl]
    · rw [removeRetained_get?, if_pos rfl]

theorem Accounted.setRetained (accounted : Accounted core state) (sized : record.Sized)
    (until' now : Nat)
    : Accounted core (core.setRetained state record until' now).1 :=
  .setRetained_of (accounted.removeActive _) sized until' now

theorem Accounted.retainRecord (accounted : Accounted core state) (sized : record.Sized) (now : Nat)
    : Accounted core (core.retainRecord state record now).1 :=
  accounted.setRetained sized _ now

theorem Accounted.retainUUID (accounted : Accounted core state) (uuid : Text) (now : Nat)
    : Accounted core (core.retainUUID state uuid now).1 := by
  unfold SelectorCore.retainUUID
  split
  · exact accounted
  next record found => exact accounted.retainRecord (accounted.named uuid record found).2 now

theorem evict_records (rounds : Nat) (state : SelectorState P)
    : (core.evict rounds state).records = state.records := by
  induction rounds generalizing state with
  | zero => rfl
  | succ rounds ih =>
      rw [evict]
      split
      · split
        · rfl
        · rw [ih]
          split
          · rfl
          · rfl
      · rfl

theorem setRetained_records (state : SelectorState P) (record : SelectorRecord P) (until' now : Nat)
    : (core.setRetained state record until' now).1.records
      = (removeActive state record.info.uuid).records := by
  obtain ⟨records, _, _⟩ :=
    removeRetained_records (removeActive state record.info.uuid) record.info.uuid
  unfold setRetained
  simp only
  split
  · exact records
  · rw [evict_records]
    exact records

-- Expiry

/-- One round retains the record of the least deadline. -/
theorem Accounted.expired (accounted : Accounted core state) {now : Nat}
    (expired : state.deadlines.expire now = some (uuid, rest))
    : ∃ record, state.records.get? uuid = some record
        ∧ Accounted core (core.retainRecord { state with deadlines := rest } record now).1
        ∧ (core.retainRecord { state with deadlines := rest } record now).1.records
          = state.records.remove uuid := by
  obtain ⟨⟨deadline, _, least⟩, taken⟩ := accounted.active.queue.expire expired
  obtain ⟨record, found, _⟩ := Option.map_eq_some_iff.mp least.1
  obtain ⟨names, sized⟩ := accounted.named uuid record found
  refine ⟨record, found, ?_, ?_⟩
  · refine Accounted.setRetained_of ?_ sized _ now
    rw [names]
    exact accounted.removeExpired taken found
  · unfold SelectorCore.retainRecord
    rw [setRetained_records, names, SelectorCore.removeActive]
    simp only [found]

/-- Every active record that is left has time. -/
theorem Accounted.expireActive (accounted : Accounted core state) (now : Nat) (changed : Nat)
    (enough : state.deadlines.items.length ≤ rounds)
    : Accounted core (core.expireActive now rounds state changed).1 ∧ ∀ uuid record,
          (core.expireActive now rounds state changed).1.records.get? uuid = some record →
            now < record.deadline := by
  induction rounds generalizing state changed with
  | zero =>
      refine ⟨accounted, fun uuid record (found : state.records.get? uuid = some record) => ?_⟩
      have empty := List.length_eq_zero_iff.mp (Nat.le_zero.mp enough)
      have free := accounted.active.queue.head.2.mp (by rw [empty]; rfl) uuid
      simp [found] at free
  | succ rounds ih =>
      rw [SelectorCore.expireActive]
      split
      next none' =>
        refine ⟨accounted, fun uuid record found => ?_⟩
        exact accounted.active.queue.expire_none none' (by rw [found]; rfl)
      rename_i uuid rest expired
      obtain ⟨record, found, after, records⟩ := accounted.expired expired
      simp only [found]
      apply ih after
      have fewer := Assoc.size_remove_of_some found
      have length := accounted.active.length
      have less := after.active.length
      rw [records] at less
      omega

/-- Every retained record that is left has time, and the active records are the same. -/
theorem Accounted.expireRetained (accounted : Accounted core state) (now changed : Nat)
    (enough : state.retainedDeadlines.items.length ≤ rounds)
    : Accounted core (expireRetained now rounds state changed).1
      ∧ (SelectorCore.expireRetained now rounds state changed).1.records = state.records
      ∧ ∀ uuid kept, (SelectorCore.expireRetained now rounds state changed).1.retained.get? uuid
            = some kept →
            now < kept.until' := by
  induction rounds generalizing state changed with
  | zero =>
      refine ⟨accounted, rfl, fun uuid kept (found : state.retained.get? uuid = some kept) => ?_⟩
      have empty := List.length_eq_zero_iff.mp (Nat.le_zero.mp enough)
      have free := accounted.kept.queue.head.2.mp (by rw [empty]; rfl) uuid
      simp [found] at free
  | succ rounds ih =>
      rw [SelectorCore.expireRetained]
      split
      next none' =>
        refine ⟨accounted, rfl, fun uuid kept found => ?_⟩
        exact accounted.kept.queue.expire_none none' (by rw [found]; rfl)
      rename_i uuid rest expired
      obtain ⟨⟨until', _, least⟩, taken⟩ := accounted.kept.queue.expire expired
      obtain ⟨kept, found, _⟩ := Option.map_eq_some_iff.mp least.1
      have size := (accounted.keptNamed uuid kept found).2.recordSize
      have within := accounted.keptWithin
      have after : Accounted core
          { state with
            retainedDeadlines := rest
            retainedBytes := state.retainedBytes - kept.record.recordSize
            retained := state.retained.remove uuid } := by
        refine ⟨accounted.toBooks.loseKept found (accounted.kept.take taken found), ?_⟩
        show state.retainedBytes - kept.record.recordSize ≤ _
        omega
      simp only [found]
      have fewer := Assoc.size_remove_of_some found
      have length := accounted.kept.length
      have less : rest.items.length = (state.retained.remove uuid).size := after.kept.length
      apply ih after
      show rest.items.length ≤ rounds
      omega

theorem Accounted.expire (accounted : Accounted core state) (now : Nat)
    : Accounted core (core.expire state now).1
      ∧ (∀ uuid record,
          (core.expire state now).1.records.get? uuid = some record → now < record.deadline)
      ∧ ∀ uuid kept,
          (core.expire state now).1.retained.get? uuid = some kept → now < kept.until' := by
  obtain ⟨active, timely⟩ := accounted.expireActive now 0 le_rfl
  unfold SelectorCore.expire
  simp only
  obtain ⟨whole, same, later⟩ :=
    active.expireRetained now (core.expireActive now state.deadlines.items.length state 0).2 le_rfl
  refine ⟨whole, fun uuid record found => ?_, later⟩
  rw [same] at found
  exact timely uuid record found

-- Events

theorem Accounted.stateRecord (accounted : Accounted core state) {active : Bool}
    (found : stateRecord state uuid = some (record, active))
    : record.info.uuid = uuid ∧ record.Sized := by
  unfold Registration.stateRecord at found
  split at found
  next record' listed =>
    cases found
    exact accounted.named uuid _ listed
  · obtain ⟨kept, listed, same⟩ := Option.map_eq_some_iff.mp found
    cases same
    exact accounted.keptNamed uuid kept listed

/-- A patched record carries its size. -/
theorem Accounted.applyUpdate (accounted : Accounted core state) {current : SelectorRecord P}
    (sized : current.Sized) (event : RegistrationEvent) (limits : ZoneConfig)
    (clock : RedisClock)
    : Accounted core (core.applyUpdate state current event limits clock).1 := by
  unfold SelectorCore.applyUpdate
  simp only
  split
  · exact accounted
  rename_i data size patched
  have grown := patchData_size patched
  rw [sized.clone] at grown
  have exact' :=
    registrationSize_patched current.info.uuid current.info.ttl current.info.revision
      event.revision current.info.version
      (if event.hasVersion then event.version else current.info.version) current.attr
      current.data data
  have patched : (current.patched event data size).Sized := by
    refine .inr ?_
    exact grown.trans exact'.symm
  split
  · exact accounted
  split
  · exact accounted
  split
  · split
    · exact accounted
    next next projected => exact accounted.retainRecord ((project_same projected).2 patched) _
  · have stored := accounted.setRecord patched
    split
    next same =>
      rw [same] at stored
      exact stored
    rename_i same
    rw [same] at stored
    exact stored

theorem arrived_sized (event : RegistrationEvent) : (arrived event : SelectorRecord P).Sized :=
  .inr rfl

/-- The times do not count for the size. -/
theorem latest_sized (current : Option (SelectorRecord P × Bool)) (sized : next.Sized)
    : (latest current next).Sized := by
  unfold latest
  split
  · exact sized
  · split
    · exact sized
    · exact sized

theorem Accounted.applyRegister (accounted : Accounted core state) (event : RegistrationEvent)
    (clock : RedisClock)
    : Accounted core (core.applyRegister state event clock).1 := by
  unfold SelectorCore.applyRegister
  simp only
  split
  · exact accounted
  split
  · exact accounted
  split
  · exact accounted
  have sized := latest_sized (Registration.stateRecord state event.uuid) (arrived_sized (P := P) event)
  split
  · split
    · exact accounted
    next projected => exact accounted.retainRecord ((project_same projected).2 sized) _
  · have stored := accounted.setRecord sized
    split
    next same =>
      rw [same] at stored
      exact stored
    rename_i same
    rw [same] at stored
    exact stored

theorem Accounted.applyRenew (accounted : Accounted core state) (event : RegistrationEvent)
    (clock : RedisClock)
    : Accounted core (core.applyRenew state event clock).1 := by
  unfold SelectorCore.applyRenew
  split
  · exact accounted
  rename_i current active found
  obtain ⟨_, sized⟩ := accounted.stateRecord found
  split
  · exact accounted
  split
  · exact accounted
  split
  · exact accounted
  split
  · exact accounted
  have renewed : (current.renewed event.timestamp).Sized := .inr sized.clone
  simp only
  split
  · exact accounted.retainRecord renewed _
  · have stored := accounted.setRecord renewed
    split
    next same =>
      rw [same] at stored
      exact stored
    rename_i same
    rw [same] at stored
    exact stored

theorem Accounted.applyEvent (accounted : Accounted core state) (event : RegistrationEvent)
    (limits : ZoneConfig) (clock : RedisClock)
    : Accounted core (core.applyEvent state event limits clock).1 := by
  unfold SelectorCore.applyEvent
  cases event.kind with
  | unregister =>
      simp only
      split
      · exact accounted
      · exact accounted.removeRecord _
  | register => exact accounted.applyRegister event clock
  | update =>
      simp only
      split
      · exact accounted
      rename_i current active found
      split
      · exact accounted
      split
      · exact accounted
      · exact accounted.applyUpdate (accounted.stateRecord found).2 event limits clock
  | renew => exact accounted.applyRenew event clock
  | repair => exact accounted

-- Copies

variable {queue : DeadlineQueue}

/-- A map and a queue are filled in one order. -/
theorem booked_fill {α : Type} {due : α → Nat} {rows : List (Text × α)} {map : Assoc Text α}
    (holds : queue.Holds fun uuid => (map.get? uuid).map due)
    : (rows.foldl (fun queue row => queue.set row.1 (due row.2)) queue).Holds fun uuid =>
        ((rows.foldl (fun map row => map.set row.1 row.2) map).get? uuid).map due := by
  induction rows generalizing map queue with
  | nil => exact holds
  | cons row rest ih =>
      rw [List.foldl_cons, List.foldl_cons]
      have booked : Booked (fun _ => 0) due map queue (map.weight fun _ _ => 0) := ⟨rfl, holds⟩
      exact ih (booked.set row.1 row.2).queue

theorem booked_copy {α : Type} {size due : α → Nat} {rows : List (Text × α)} {source : Assoc Text α}
    {bytes : Int} (booked : Booked size due source queue bytes) (same : rows.Perm source.toPairs)
    : Booked size due (rows.foldl (fun map row => map.set row.1 row.2) ∅)
        (rows.foldl (fun queue row => queue.set row.1 (due row.2)) {}) bytes where
  bytes := by
    rw [booked.bytes]
    exact congrArg Nat.cast (Assoc.weight_congr _ (Assoc.get?_copy same).symm)
  queue := booked_fill DeadlineQueue.holds_empty

/-- What a copy is made of. -/
theorem cloneSelectorState_eq (previous : SelectorState P)
    (active : List (Text × SelectorRecord P)) (kept : List (Text × RetainedSelectorRecord P))
    : cloneSelectorState previous active kept
      = { records := active.foldl (fun map row => map.set row.1 row.2) ∅
          deadlines := active.foldl (fun queue row => queue.set row.1 row.2.deadline) {}
          bytes := previous.bytes
          retained := kept.foldl (fun map row => map.set row.1 row.2) ∅
          retainedDeadlines := kept.foldl (fun queue row => queue.set row.1 row.2.until') {}
          retainedBytes := previous.retainedBytes } := by
  have active_fold (rows : List (Text × SelectorRecord P)) (state : SelectorState P)
      : rows.foldl (fun state row =>
          { state with
            records := state.records.set row.1 row.2
            deadlines := state.deadlines.set row.1 row.2.deadline }) state
        = { state with
            records := rows.foldl (fun map row => map.set row.1 row.2) state.records
            deadlines :=
              rows.foldl (fun queue row => queue.set row.1 row.2.deadline) state.deadlines } := by
    induction rows generalizing state with
    | nil => rfl
    | cons row rest ih => rw [List.foldl_cons, ih]; rfl
  have kept_fold (rows : List (Text × RetainedSelectorRecord P)) (state : SelectorState P)
      : rows.foldl (fun state row =>
          { state with
            retained := state.retained.set row.1 row.2
            retainedDeadlines := state.retainedDeadlines.set row.1 row.2.until' }) state
        = { state with
            retained := rows.foldl (fun map row => map.set row.1 row.2) state.retained
            retainedDeadlines :=
              rows.foldl (fun queue row => queue.set row.1 row.2.until')
                state.retainedDeadlines } := by
    induction rows generalizing state with
    | nil => rfl
    | cons row rest ih => rw [List.foldl_cons, ih]; rfl
  unfold cloneSelectorState
  simp only
  rw [active_fold, kept_fold]

theorem Accounted.cloneSelectorState (accounted : Accounted core state)
    {active : List (Text × SelectorRecord P)} {kept : List (Text × RetainedSelectorRecord P)}
    (isActive : active.Perm state.records.toPairs) (isKept : kept.Perm state.retained.toPairs)
    : Accounted core (cloneSelectorState state active kept) := by
  rw [cloneSelectorState_eq]
  have records := congrFun (Assoc.get?_copy isActive)
  have retained := congrFun (Assoc.get?_copy isKept)
  constructor
  · constructor
    · exact booked_copy accounted.active isActive
    · exact booked_copy accounted.kept isKept
    · exact accounted.within
    · intro uuid record found
      rw [retained]
      rw [records] at found
      exact accounted.apart uuid record found
    · intro uuid record found
      rw [records] at found
      exact accounted.named uuid record found
    · intro uuid kept found
      rw [retained] at found
      exact accounted.keptNamed uuid kept found
  · exact accounted.keptWithin

variable {kept : List (RetainedSelectorRecord P)} {active : List (SelectorRecord P)}

/-- A state whose records are all retained, and sized. -/
theorem accounted_recovery (now : Nat) (activeSized : ∀ record ∈ active, record.Sized)
    (keptSized : ∀ retained ∈ kept, retained.record.Sized)
    : Accounted core (core.recoveryState active kept now) := by
  have kept_fold (rows : List (RetainedSelectorRecord P)) (state : SelectorState P)
      (accounted : Accounted core state) (sized : ∀ retained ∈ rows, retained.record.Sized)
      : Accounted core (rows.foldl (fun state retained =>
          (core.setRetained state retained.record retained.until' now).1) state) := by
    induction rows generalizing state with
    | nil => exact accounted
    | cons row rest ih =>
        refine ih _ (accounted.setRetained (sized row List.mem_cons_self) _ now) ?_
        exact fun other listed => sized other (List.mem_cons_of_mem _ listed)
  have active_fold (rows : List (SelectorRecord P)) (state : SelectorState P)
      (accounted : Accounted core state) (sized : ∀ record ∈ rows, record.Sized)
      : Accounted core (rows.foldl (fun state record =>
          (core.retainRecord state record now).1) state) := by
    induction rows generalizing state with
    | nil => exact accounted
    | cons row rest ih =>
        refine ih _ (accounted.retainRecord (sized row List.mem_cons_self) now) ?_
        exact fun other listed => sized other (List.mem_cons_of_mem _ listed)
  exact active_fold active _ (kept_fold kept {} accounted_empty keptSized) activeSized

/-- The values of the maps carry their sizes. -/
theorem Accounted.active_sized (accounted : Accounted core state)
    (same : active.Perm (state.records.toPairs.map Prod.snd))
    : ∀ record ∈ active, record.Sized := by
  intro record listed
  obtain ⟨⟨uuid, _⟩, member, rfl⟩ := List.mem_map.mp (same.mem_iff.mp listed)
  exact (accounted.named uuid _ ((Assoc.mem_toPairs _ _ _).mp member)).2

theorem Accounted.kept_sized (accounted : Accounted core state)
    (same : kept.Perm (state.retained.toPairs.map Prod.snd))
    : ∀ retained ∈ kept, retained.record.Sized := by
  intro retained listed
  obtain ⟨⟨uuid, _⟩, member, rfl⟩ := List.mem_map.mp (same.mem_iff.mp listed)
  exact (accounted.keptNamed uuid _ ((Assoc.mem_toPairs _ _ _).mp member)).2

-- Runs

/-- The changes of a state. Records come with their size or without one, and the maps are
enumerated in any order.
-/
inductive Step (core : SelectorCore P) (state : SelectorState P) : SelectorState P → Prop where
  | setRecord (record : SelectorRecord P) (sized : record.Sized)
    : Step core state (core.setRecord state record).1
  | applyUpdate (current : SelectorRecord P) (sized : current.Sized) (event : RegistrationEvent)
      (limits : ZoneConfig) (clock : RedisClock)
    : Step core state (core.applyUpdate state current event limits clock).1
  | applyEvent (event : RegistrationEvent) (limits : ZoneConfig) (clock : RedisClock)
    : Step core state (core.applyEvent state event limits clock).1
  | retainRecord (record : SelectorRecord P) (sized : record.Sized) (now : Nat)
    : Step core state (core.retainRecord state record now).1
  | retainUUID (uuid : Text) (now : Nat)
    : Step core state (core.retainUUID state uuid now).1
  | setRetained (record : SelectorRecord P) (sized : record.Sized) (until' now : Nat)
    : Step core state (core.setRetained state record until' now).1
  | removeRecord (uuid : Text)
    : Step core state (SelectorCore.removeRecord state uuid)
  | expire (now : Nat)
    : Step core state (core.expire state now).1
  | clone (active : List (Text × SelectorRecord P)) (kept : List (Text × RetainedSelectorRecord P))
      (isActive : active.Perm state.records.toPairs) (isKept : kept.Perm state.retained.toPairs)
    : Step core state (cloneSelectorState state active kept)
  | recover (active : List (SelectorRecord P)) (kept : List (RetainedSelectorRecord P))
      (now : Nat) (isActive : active.Perm (state.records.toPairs.map Prod.snd))
      (isKept : kept.Perm (state.retained.toPairs.map Prod.snd))
    : Step core state (core.recoveryState active kept now)

inductive Reachable (core : SelectorCore P) : SelectorState P → Prop where
  | empty : Reachable core {}
  | step {state next : SelectorState P} (reached : Reachable core state)
      (step : Step core state next) : Reachable core next

theorem Accounted.step {next : SelectorState P} (accounted : Accounted core state)
    (step : Step core state next)
    : Accounted core next := by
  cases step with
  | setRecord _ sized => exact accounted.setRecord sized
  | applyUpdate _ sized event limits clock => exact accounted.applyUpdate sized event limits clock
  | applyEvent event limits clock => exact accounted.applyEvent event limits clock
  | retainRecord _ sized now => exact accounted.retainRecord sized now
  | retainUUID uuid now => exact accounted.retainUUID uuid now
  | setRetained _ sized until' now => exact accounted.setRetained sized until' now
  | removeRecord uuid => exact accounted.removeRecord uuid
  | expire now => exact (accounted.expire now).1
  | clone _ _ isActive isKept => exact accounted.cloneSelectorState isActive isKept
  | recover _ _ now isActive isKept =>
      exact accounted_recovery now (accounted.active_sized isActive) (accounted.kept_sized isKept)

theorem Reachable.accounted (reached : Reachable core state) : Accounted core state := by
  induction reached with
  | empty => exact accounted_empty
  | step _ step ih => exact ih.step step

/-- A queue deals with the least deadline, and of equal deadlines with the least UUID. -/
structure DealsLeast (queue : DeadlineQueue) (content : Text → Option Nat) : Prop where
  next : ∀ deadline, queue.next = some deadline → ∃ uuid, DeadlineQueue.Least content uuid deadline
  pop
    : ∀ uuid rest, queue.pop = some (uuid, rest) →
          (∃ deadline, DeadlineQueue.Least content uuid deadline)
          ∧ rest.Holds (Function.update content uuid none)
  expire
    : ∀ now uuid rest, queue.expire now = some (uuid, rest) →
          (∃ deadline, deadline ≤ now ∧ DeadlineQueue.Least content uuid deadline)
          ∧ rest.Holds (Function.update content uuid none)
  quiet
    : ∀ now,
        queue.expire now = none → ∀ uuid deadline, content uuid = some deadline → now < deadline
  empty
    : (queue.next = none ↔ ∀ uuid, content uuid = none)
      ∧ (queue.pop = none ↔ ∀ uuid, content uuid = none)

theorem dealsLeast {content : Text → Option Nat} (holds : queue.Holds content)
    : DealsLeast queue content where
  next := holds.next.1
  pop _ _ popped := holds.pop popped
  expire _ _ _ expired := holds.expire expired
  quiet _ none' _ _ held := holds.expire_none none' held
  empty := ⟨holds.next.2, holds.pop_none⟩

/-- In every state that a selector comes to, the bytes are those of its records, within their
limits, no UUID is both active and retained, and the two heaps hold the deadlines of the active
records and the ends of the retained ones, and deal with the least of them.
-/
theorem accounting_law (core : SelectorCore P) (state : SelectorState P)
    (reached : Reachable core state)
    : state.bytes = state.records.weight (fun _ record => record.measured)
      ∧ state.retainedBytes = state.retained.weight (fun _ kept => kept.record.measured)
      ∧ (∀ uuid record,
          stateRecord state uuid = some record →
            record.1.recordSize = record.1.measured ∧ record.1.info.uuid = uuid)
      ∧ state.bytes ≤ core.selectorMaxBytes
      ∧ state.retainedBytes ≤ core.selectorRetainedBytes
      ∧ (∀ uuid, state.records.get? uuid = none ∨ state.retained.get? uuid = none)
      ∧ (state.deadlines.Holds fun uuid => (state.records.get? uuid).map (·.deadline))
      ∧ (state.retainedDeadlines.Holds fun uuid => (state.retained.get? uuid).map (·.until'))
      ∧ DealsLeast state.deadlines (fun uuid => (state.records.get? uuid).map (·.deadline))
      ∧ DealsLeast state.retainedDeadlines
          (fun uuid => (state.retained.get? uuid).map (·.until')) := by
  have accounted := reached.accounted
  refine ⟨accounted.active.bytes, accounted.kept.bytes, ?_, accounted.within,
    accounted.keptWithin, ?_, accounted.active.queue, accounted.kept.queue,
    dealsLeast accounted.active.queue, dealsLeast accounted.kept.queue⟩
  · intro uuid record found
    obtain ⟨names, sized⟩ := accounted.stateRecord found
    exact ⟨sized.recordSize, names⟩
  · intro uuid
    cases found : state.records.get? uuid with
    | none => exact .inl rfl
    | some record => exact .inr (accounted.apart uuid record found)

def bareRecord : SelectorRecord Unit where
  info := { uuid := [1], revision := 1, timestamp := 1, ttl := 10, version := 1 }
  attr := ∅
  data := ∅
  deadline := 11

def smallCore : SelectorCore Unit where
  selectorMaxBytes := 100
  selectorRetainedBytes := 0

theorem accounting_law_stored
    : (smallCore.setRecord {} bareRecord).1.records.size = 1
      ∧ (smallCore.setRecord {} bareRecord).1.bytes
        = (smallCore.setRecord {} bareRecord).1.records.weight (fun _ record => record.measured) :=
  ⟨by decide, (accounting_law _ _ (.step .empty (.setRecord bareRecord (.inl rfl)))).1⟩

end SelectorCore

end Sdk.Registration
