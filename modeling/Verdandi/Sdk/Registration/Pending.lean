import Verdandi.Sdk.Registration.Selector

/-! The changes that wait for a selector: one for each UUID, merged as events arrive. -/

namespace Sdk.Registration

open Support
open Support.Redis (Text)

structure PendingChange where
  event : RegistrationEvent
  baseRevision : Nat := 0
  latestRevision : Nat
  repair : Bool := false

structure PendingChanges where
  entries : Assoc Text PendingChange := ∅
  bytes : Int := 0
  maxEntries : Nat
  maxBytes : Nat

def newPendingChanges (maxEntries maxBytes : Nat) : PendingChanges where
  maxEntries
  maxBytes

def registrationEventSize (event : RegistrationEvent) : Nat :=
  128 + event.uuid.length + event.kind.text.length
    + event.attr.weight (fun name value => 16 + name.length + value.length)
    + event.data.weight (fun name value => 16 + name.length + value.length)

def pendingChangeSize (change : PendingChange) : Nat := registrationEventSize change.event

def initialPendingChange (event : RegistrationEvent) : PendingChange where
  event
  baseRevision :=
    match event.kind with
    | .update => if event.revision = 0 then word - 1 else event.revision - 1
    | .renew => event.revision
    | _ => 0
  latestRevision := event.revision

def sameRegistrationContent (left right : RegistrationEvent) : Bool :=
  left.ttl == right.ttl && left.version == right.version && fieldsEqual left.attr right.attr
    && fieldsEqual left.data right.data

def sameOptionalVersion (left right : RegistrationEvent) : Bool :=
  left.hasVersion == right.hasVersion && (!left.hasVersion || left.version == right.version)

def repairPendingChange (current : PendingChange) (incoming : RegistrationEvent)
    : PendingChange where
  event :=
    { kind := .repair
      uuid := incoming.uuid
      revision := max current.latestRevision incoming.revision
      timestamp := max current.event.timestamp incoming.timestamp }
  latestRevision := max current.latestRevision incoming.revision
  repair := true

/-- The values of a patch over fields that are all there. Where one is missing, those before it
were stored.
-/
def patchInto : List (Text × Text) → Assoc Text Text → Assoc Text Text × Bool
  | [], data => (data, true)
  | (name, value) :: rest, data =>
      match data.get? name with
      | none => (data, false)
      | some _ => patchInto rest (data.set name value)

def overwrite (rows : List (Text × Text)) (data : Assoc Text Text) : Assoc Text Text :=
  rows.foldl (fun data row => data.set row.1 row.2) data

/-- A merged change, and what the data of the stored one is afterwards: a merge works on it in
place unless it was told to copy. Data that was never made counts as empty.
-/
structure Merged where
  change : PendingChange
  held : Assoc Text Text

def RegistrationEvent.follow (event incoming : RegistrationEvent) (data : Assoc Text Text)
    : RegistrationEvent :=
  { event with
    revision := incoming.revision
    timestamp := max event.timestamp incoming.timestamp
    version := if incoming.hasVersion then incoming.version else event.version
    hasVersion := event.hasVersion || incoming.hasVersion
    data }

def mergePendingUpdate (current : PendingChange) (incoming : RegistrationEvent) (copyCurrent : Bool)
    : Merged :=
  let stored := current.event.data
  if incoming.revision ≤ current.latestRevision then
    if incoming.revision = current.latestRevision ∧ current.event.kind = .update
        ∧ (sameOptionalVersion current.event incoming = false
          ∨ fieldsEqual current.event.data incoming.data = false) then
      { change := repairPendingChange current incoming, held := stored }
    else
      { change := current, held := stored }
  else if incoming.revision ≠ current.latestRevision + 1 then
    { change := repairPendingChange current incoming, held := stored }
  else
    match current.event.kind with
    | .register =>
        match patchInto incoming.data.toPairs stored with
        | (data, false) =>
            { change := repairPendingChange current incoming
              held := if copyCurrent then stored else data }
        | (data, true) =>
            { change :=
                { current with
                  event := current.event.follow incoming data
                  latestRevision := incoming.revision }
              held := if copyCurrent then stored else data }
    | .renew =>
        { change :=
            { current with
              event :=
                { incoming with
                  timestamp := max current.event.timestamp incoming.timestamp }
              latestRevision := incoming.revision }
          held := stored }
    | _ =>
        let data := overwrite incoming.data.toPairs stored
        { change :=
            { current with
              event := current.event.follow incoming data
              latestRevision := incoming.revision }
          held := if copyCurrent then stored else data }

def mergePendingRenew (current : PendingChange) (incoming : RegistrationEvent) : PendingChange :=
  if incoming.revision < current.latestRevision then
    current
  else if incoming.revision > current.latestRevision then
    repairPendingChange current incoming
  else
    { current with
      event :=
        { current.event with
          timestamp := max current.event.timestamp incoming.timestamp } }

/-- A change that has to be read again takes note of later numbers. -/
def noteRepair (current : PendingChange) (incoming : RegistrationEvent) : PendingChange :=
  { current with
    event :=
      { current.event with
        revision :=
          if incoming.revision > current.latestRevision then incoming.revision
          else current.event.revision
        timestamp := max current.event.timestamp incoming.timestamp }
    latestRevision := max current.latestRevision incoming.revision }

def mergePendingRegister (current : PendingChange) (incoming : RegistrationEvent)
    : PendingChange :=
  if incoming.revision < current.latestRevision then
    current
  else if incoming.revision = current.latestRevision then
    if current.event.kind = .register ∧ sameRegistrationContent current.event incoming = false then
      repairPendingChange current incoming
    else
      let next := initialPendingChange incoming
      { next with
        event :=
          { next.event with
            timestamp := max current.event.timestamp next.event.timestamp } }
  else
    initialPendingChange incoming

def mergePendingChange (current : PendingChange) (incoming : RegistrationEvent) (copyCurrent : Bool)
    : Except Failure Merged :=
  let keep (change : PendingChange) : Except Failure Merged :=
    .ok { change, held := current.event.data }
  if incoming.kind = .unregister then
    keep (initialPendingChange incoming)
  else if current.event.kind = .unregister then
    .error { code := .transition, field := ascii "@uuid" }
  else if current.repair then
    if incoming.kind = .register ∧ incoming.revision ≥ current.latestRevision then
      keep (initialPendingChange incoming)
    else
      keep (noteRepair current incoming)
  else
    match incoming.kind with
    | .register => keep (mergePendingRegister current incoming)
    | .update => .ok (mergePendingUpdate current incoming copyCurrent)
    | .renew => keep (mergePendingRenew current incoming)
    | _ => .error { code := .invalid, field := ascii "&kind" }

namespace PendingChanges

/-- The stored entry after a merge that may have worked in place. -/
def touch (pending : PendingChanges) (uuid : Text) (current : PendingChange)
    (held : Assoc Text Text)
    : PendingChanges :=
  { pending with
    entries :=
      pending.entries.set uuid { current with event := { current.event with data := held } } }

def add (pending : PendingChanges) (event : RegistrationEvent)
    : PendingChanges × Option Failure :=
  match pending.entries.get? event.uuid with
  | none =>
      let next := initialPendingChange event
      let nextBytes := pending.bytes + pendingChangeSize next
      if pending.entries.size ≥ pending.maxEntries then
        (pending, some { code := .capacity, field := ascii "selector_event_entries" })
      else if nextBytes > pending.maxBytes then
        (pending, some { code := .capacity, field := ascii "selector_event_bytes" })
      else
        ({ pending with
            entries := pending.entries.set event.uuid next
            bytes := nextBytes }, none)
  | some current =>
      let incomingBytes : Int := registrationEventSize event
      let copyCurrent := decide (pending.bytes > pending.maxBytes - incomingBytes)
      match mergePendingChange current event copyCurrent with
      | .error failure => (pending, some failure)
      | .ok { change := next, held } =>
          let nextBytes := pending.bytes - pendingChangeSize current + pendingChangeSize next
          let pending := pending.touch event.uuid current held
          if nextBytes > pending.maxBytes then
            (pending, some { code := .capacity, field := ascii "selector_event_bytes" })
          else
            ({ pending with
                entries := pending.entries.set event.uuid next
                bytes := nextBytes }, none)

def drain (pending : PendingChanges) : List PendingChange × PendingChanges :=
  if pending.entries.size = 0 then
    ([], pending)
  else
    ((pending.entries.keys.insertionSort (· ≤ ·)).filterMap pending.entries.get?,
      { pending with entries := ∅, bytes := 0 })

inductive Label where
  | add (event : RegistrationEvent)
  | drain

def step (pending : PendingChanges) : Label → PendingChanges
  | .add event => (pending.add event).1
  | .drain => pending.drain.2

def run (pending : PendingChanges) (labels : List Label) : PendingChanges :=
  labels.foldl step pending

-- Sizes

def fieldsSize (fields : Assoc Text Text) : Nat :=
  fields.weight fun name value => 16 + name.length + value.length

def rowsSize (rows : List (Text × Text)) : Nat :=
  (rows.map fun row => 16 + row.1.length + row.2.length).sum

theorem rowsSize_toPairs (fields : Assoc Text Text) : rowsSize fields.toPairs = fieldsSize fields :=
  (Assoc.weight_eq_toPairs fields fun name value => 16 + name.length + value.length).symm

/-- One stored value adds at most itself. -/
theorem fieldsSize_set (data : Assoc Text Text) (name value : Text)
    : fieldsSize (data.set name value) ≤ fieldsSize data + (16 + name.length + value.length) := by
  unfold fieldsSize
  cases found : data.get? name with
  | none =>
      have added := Assoc.weight_set_of_none found
        (fun name value => 16 + name.length + value.length) value
      omega
  | some old =>
      have changed := Assoc.weight_set_of_some found
        (fun name value => 16 + name.length + value.length) value
      omega

theorem fieldsSize_patchInto (rows : List (Text × Text)) (data : Assoc Text Text)
    : fieldsSize (patchInto rows data).1 ≤ fieldsSize data + rowsSize rows := by
  induction rows generalizing data with
  | nil => exact Nat.le_add_right _ _
  | cons row rest ih =>
      have added := fieldsSize_set data row.1 row.2
      have later := ih (data.set row.1 row.2)
      rw [patchInto]
      split
      · exact Nat.le_add_right _ _
      · simp only [rowsSize, List.map_cons, List.sum_cons] at later ⊢
        omega

theorem fieldsSize_overwrite (rows : List (Text × Text)) (data : Assoc Text Text)
    : fieldsSize (overwrite rows data) ≤ fieldsSize data + rowsSize rows := by
  induction rows generalizing data with
  | nil => exact Nat.le_add_right _ _
  | cons row rest ih =>
      have added := fieldsSize_set data row.1 row.2
      have later := ih (data.set row.1 row.2)
      simp only [rowsSize, List.map_cons, List.sum_cons] at later ⊢
      exact later.trans (by omega)

theorem registrationEventSize_eq (event : RegistrationEvent)
    : registrationEventSize event
      = 128 + event.uuid.length + event.kind.text.length + fieldsSize event.attr
        + fieldsSize event.data :=
  rfl

theorem five_le_text (kind : EventKind) : 5 ≤ kind.text.length := by
  cases kind <;> decide

/-- A request to read a registration again takes less than an event that asks for it and any
other.
-/
theorem size_repair (current : PendingChange) (incoming : RegistrationEvent)
    : pendingChangeSize (repairPendingChange current incoming)
      ≤ pendingChangeSize current + registrationEventSize incoming := by
  have kind : EventKind.text .repair = ascii "repair" := rfl
  have six : (ascii "repair").length = 6 := by decide
  have five := five_le_text incoming.kind
  have nothing : fieldsSize ∅ = 0 := rfl
  simp only [pendingChangeSize, registrationEventSize_eq, repairPendingChange, kind, six, nothing]
  omega

variable {event incoming : RegistrationEvent}

/-- An event that follows another takes what its data takes. -/
theorem size_follow {data : Assoc Text Text}
    (grown : fieldsSize data ≤ fieldsSize event.data + fieldsSize incoming.data)
    : registrationEventSize (event.follow incoming data)
      ≤ registrationEventSize event + registrationEventSize incoming := by
  have same
      : registrationEventSize (event.follow incoming data)
        = 128 + event.uuid.length + event.kind.text.length + fieldsSize event.attr
          + fieldsSize data :=
    rfl
  rw [same, registrationEventSize_eq, registrationEventSize_eq]
  omega

theorem size_update (current : PendingChange) (incoming : RegistrationEvent) (copy : Bool)
    : pendingChangeSize (mergePendingUpdate current incoming copy).change
      ≤ pendingChangeSize current + registrationEventSize incoming := by
  unfold mergePendingUpdate
  simp only
  split
  · split
    · exact size_repair current incoming
    · exact Nat.le_add_right _ _
  split
  · exact size_repair current incoming
  split
  · have grown := fieldsSize_patchInto incoming.data.toPairs current.event.data
    rw [rowsSize_toPairs] at grown
    split
    · exact size_repair current incoming
    rename_i data patched
    rw [patched] at grown
    exact size_follow grown
  · exact Nat.le_add_left _ _
  · have grown := fieldsSize_overwrite incoming.data.toPairs current.event.data
    rw [rowsSize_toPairs] at grown
    exact size_follow grown

theorem size_register (current : PendingChange) (incoming : RegistrationEvent)
    : pendingChangeSize (mergePendingRegister current incoming)
      ≤ pendingChangeSize current + registrationEventSize incoming := by
  unfold mergePendingRegister
  split
  · exact Nat.le_add_right _ _
  split
  · split
    · exact size_repair current incoming
    · exact Nat.le_add_left _ _
  · exact Nat.le_add_left _ _

theorem size_renew (current : PendingChange) (incoming : RegistrationEvent)
    : pendingChangeSize (mergePendingRenew current incoming)
      ≤ pendingChangeSize current + registrationEventSize incoming := by
  unfold mergePendingRenew
  split
  · exact Nat.le_add_right _ _
  split
  · exact size_repair current incoming
  · exact Nat.le_add_right _ _

variable {current : PendingChange} {copy : Bool} {merged : Merged}

/-- A merge adds at most the size of its event. -/
theorem size_merge (accepted : mergePendingChange current incoming copy = .ok merged)
    : pendingChangeSize merged.change
      ≤ pendingChangeSize current + registrationEventSize incoming := by
  unfold mergePendingChange at accepted
  simp only at accepted
  split at accepted
  · cases accepted
    exact Nat.le_add_left _ _
  split at accepted
  · cases accepted
  split at accepted
  · split at accepted
    · cases accepted
      exact Nat.le_add_left _ _
    · cases accepted
      exact Nat.le_add_right _ _
  split at accepted
  · cases accepted
    exact size_register current incoming
  · cases accepted
    exact size_update current incoming copy
  · cases accepted
    exact size_renew current incoming
  · cases accepted

variable {failure : Failure}

/-- A merge is not refused for want of room. -/
theorem code_of_failed (failed : mergePendingChange current incoming copy = .error failure)
    : failure.code ≠ .capacity := by
  unfold mergePendingChange at failed
  simp only at failed
  split at failed
  · cases failed
  split at failed
  · cases failed
    simp
  split at failed
  · split at failed
    · cases failed
    · cases failed
  split at failed
  · cases failed
  · cases failed
  · cases failed
  · cases failed
    simp

/-- A merge that copies leaves the stored data. -/
theorem held_of_copy (accepted : mergePendingChange current incoming true = .ok merged)
    : merged.held = current.event.data := by
  unfold mergePendingChange at accepted
  simp only at accepted
  split at accepted
  · cases accepted
    rfl
  split at accepted
  · cases accepted
  split at accepted
  · split at accepted
    · cases accepted
      rfl
    · cases accepted
      rfl
  split at accepted
  · cases accepted
    rfl
  · cases accepted
    unfold mergePendingUpdate
    simp only
    split
    · split
      · rfl
      · rfl
    split
    · rfl
    split
    · split
      · rfl
      · rfl
    · rfl
    · rfl
  · cases accepted
    rfl
  · cases accepted

/-- A merged change belongs to the registration of its event. -/
theorem uuid_merge (same : current.event.uuid = incoming.uuid)
    (accepted : mergePendingChange current incoming copy = .ok merged)
    : merged.change.event.uuid = incoming.uuid := by
  unfold mergePendingChange at accepted
  simp only at accepted
  split at accepted
  · cases accepted
    rfl
  split at accepted
  · cases accepted
  split at accepted
  · split at accepted
    · cases accepted
      rfl
    · cases accepted
      exact same
  split at accepted
  · cases accepted
    unfold mergePendingRegister
    split
    · exact same
    split
    · split
      · rfl
      · rfl
    · rfl
  · cases accepted
    unfold mergePendingUpdate
    simp only
    split
    · split
      · rfl
      · exact same
    split
    · rfl
    split
    · split
      · rfl
      · exact same
    · rfl
    · exact same
  · cases accepted
    unfold mergePendingRenew
    split
    · exact same
    split
    · rfl
    · exact same
  · cases accepted

-- Runs

/-- The bytes are those of the entries, within the limits, and an entry is under its name. -/
structure Exact (pending : PendingChanges) : Prop where
  bytes : pending.bytes = pending.entries.weight fun _ change => pendingChangeSize change
  entries : pending.entries.size ≤ pending.maxEntries
  within : pending.bytes ≤ pending.maxBytes
  named
    : ∀ uuid (change : PendingChange),
        pending.entries.get? uuid = some change → change.event.uuid = uuid

theorem exact_new (maxEntries maxBytes : Nat) : Exact (newPendingChanges maxEntries maxBytes) where
  bytes := rfl
  entries := Nat.zero_le _
  within := Int.natCast_nonneg _
  named := by simp [newPendingChanges]

variable {pending : PendingChanges}

/-- A merge that has room is not refused for its bytes. -/
theorem fits_of_room
    (room : ¬ pending.bytes > pending.maxBytes - (registrationEventSize event : Int))
    (accepted : mergePendingChange current event copy = .ok merged)
    : pending.bytes - pendingChangeSize current + pendingChangeSize merged.change
      ≤ pending.maxBytes := by
  have grown := size_merge accepted
  omega

/-- A refused event leaves the entries as they were, the data of the stored one too. -/
theorem add_refused (refused : (pending.add event).2 = some failure)
    : (∀ uuid, (pending.add event).1.entries.get? uuid = pending.entries.get? uuid)
      ∧ (pending.add event).1.bytes = pending.bytes
      ∧ (pending.add event).1.maxEntries = pending.maxEntries
      ∧ (pending.add event).1.maxBytes = pending.maxBytes := by
  unfold add at refused ⊢
  cases found : pending.entries.get? event.uuid with
  | none =>
      simp only [found] at refused ⊢
      split at refused
      next full =>
        rw [if_pos full]
        exact ⟨fun _ => rfl, rfl, rfl, rfl⟩
      rename_i few
      rw [if_neg few]
      split at refused
      next many =>
        rw [if_pos many]
        exact ⟨fun _ => rfl, rfl, rfl, rfl⟩
      · cases refused
  | some current =>
      simp only [found] at refused ⊢
      split at refused
      · exact ⟨fun _ => rfl, rfl, rfl, rfl⟩
      rename_i next held accepted
      split at refused
      next many =>
        have copies
            : decide (pending.bytes > pending.maxBytes - (registrationEventSize event : Int))
              = true := by
          by_contra room
          rw [decide_eq_true_eq] at room
          exact absurd (fits_of_room room accepted) (Int.not_le.mpr many)
        rw [copies] at accepted
        have same : held = current.event.data := held_of_copy accepted
        rw [if_pos many, same]
        refine ⟨fun uuid => ?_, rfl, rfl, rfl⟩
        simp only [touch, Assoc.get?_set]
        split
        next isEvent => rw [isEvent, found]
        · rfl
      · cases refused

theorem Exact.congr {next : PendingChanges} (exact' : Exact pending)
    (entries : ∀ uuid, next.entries.get? uuid = pending.entries.get? uuid)
    (bytes : next.bytes = pending.bytes) (maxEntries : next.maxEntries = pending.maxEntries)
    (maxBytes : next.maxBytes = pending.maxBytes)
    : Exact next where
  bytes := by
    rw [bytes, exact'.bytes]
    exact congrArg Nat.cast (Assoc.weight_congr _ (funext entries)).symm
  entries := by
    rw [Assoc.size_congr (funext entries), maxEntries]
    exact exact'.entries
  within := by
    rw [bytes, maxBytes]
    exact exact'.within
  named uuid change found := exact'.named uuid change (by rw [← entries, found])

theorem Exact.add (exact' : Exact pending) (event : RegistrationEvent)
    : Exact (pending.add event).1 := by
  cases refused : (pending.add event).2 with
  | some failure =>
      obtain ⟨entries, bytes, maxEntries, maxBytes⟩ := add_refused refused
      exact exact'.congr entries bytes maxEntries maxBytes
  | none =>
      unfold PendingChanges.add at refused ⊢
      cases found : pending.entries.get? event.uuid with
      | none =>
          simp only [found] at refused ⊢
          split at refused
          · cases refused
          rename_i few
          rw [if_neg few]
          split at refused
          · cases refused
          rename_i fits
          rw [if_neg fits]
          have added := Assoc.weight_set_of_none found
            (fun _ change => pendingChangeSize change) (initialPendingChange event)
          have bytes := exact'.bytes
          constructor
          · simp only
            omega
          · simp only
            rw [Assoc.size_set_of_none found]
            omega
          · exact Int.not_lt.mp fits
          · intro uuid change listed
            simp only [Assoc.get?_set] at listed
            split at listed
            next same =>
              cases listed
              exact same.symm
            · exact exact'.named uuid change listed
      | some current =>
          simp only [found] at refused ⊢
          split at refused
          · cases refused
          rename_i next held accepted
          split at refused
          · cases refused
          rename_i fits
          rw [if_neg fits]
          have twice (other : Text)
              : ((pending.touch event.uuid current held).entries.set event.uuid next).get? other
                = (pending.entries.set event.uuid next).get? other := by
            simp only [touch, Assoc.get?_set]
            split
            · rfl
            · rfl
          have changed := Assoc.weight_set_of_some found
            (fun _ change => pendingChangeSize change) next
          have bytes := exact'.bytes
          constructor
          · simp only
            rw [Assoc.weight_congr _ (funext twice)]
            omega
          · simp only
            rw [Assoc.size_congr (funext twice), Assoc.size_set_of_some found]
            exact exact'.entries
          · exact Int.not_lt.mp fits
          · intro uuid change listed
            rw [twice, Assoc.get?_set] at listed
            split at listed
            next same =>
              cases listed
              rw [same]
              exact uuid_merge (exact'.named _ _ found) accepted
            · exact exact'.named uuid change listed

theorem Exact.drain {pending : PendingChanges} (exact' : Exact pending)
    : Exact pending.drain.2 := by
  unfold PendingChanges.drain
  split
  · exact exact'
  · exact exact_new pending.maxEntries pending.maxBytes

theorem Exact.run (exact' : Exact pending) (labels : List Label)
    : Exact (pending.run labels) := by
  induction labels generalizing pending with
  | nil => exact exact'
  | cons label rest ih =>
      apply ih
      cases label with
      | add event => exact exact'.add event
      | drain => exact exact'.drain

theorem limits_run (pending : PendingChanges) (labels : List Label)
    : (pending.run labels).maxEntries = pending.maxEntries
      ∧ (pending.run labels).maxBytes = pending.maxBytes := by
  induction labels generalizing pending with
  | nil => exact ⟨rfl, rfl⟩
  | cons label rest ih =>
      obtain ⟨entries, bytes⟩ := ih (pending.step label)
      have same
          : (pending.step label).maxEntries = pending.maxEntries
            ∧ (pending.step label).maxBytes = pending.maxBytes := by
        cases label with
        | add event =>
            simp only [step, add]
            split
            · split
              · exact ⟨rfl, rfl⟩
              · split
                · exact ⟨rfl, rfl⟩
                · exact ⟨rfl, rfl⟩
            · split
              · exact ⟨rfl, rfl⟩
              · split
                · exact ⟨rfl, rfl⟩
                · exact ⟨rfl, rfl⟩
        | drain =>
            simp only [step, drain]
            split
            · exact ⟨rfl, rfl⟩
            · exact ⟨rfl, rfl⟩
      exact ⟨entries.trans same.1, bytes.trans same.2⟩

/-- After any events and drains, the bytes are the sizes of the entries, the limits hold and an
entry is under its own name; an event that is refused then leaves every entry as it was, and one
that is merged adds at most its size, so that it is not refused where there is room for it.
-/
theorem pending_law (maxEntries maxBytes : Nat) (labels : List Label) (pending : PendingChanges)
    (reached : pending = (newPendingChanges maxEntries maxBytes).run labels)
    : pending.bytes = pending.entries.weight (fun _ change => pendingChangeSize change)
      ∧ pending.entries.size ≤ maxEntries
      ∧ pending.bytes ≤ maxBytes
      ∧ (∀ uuid (change : PendingChange),
          pending.entries.get? uuid = some change → change.event.uuid = uuid)
      ∧ (∀ event failure,
          (pending.add event).2 = some failure →
            (∀ uuid, (pending.add event).1.entries.get? uuid = pending.entries.get? uuid)
            ∧ (pending.add event).1.bytes = pending.bytes)
      ∧ (∀ (event : RegistrationEvent) current copy merged,
          pending.entries.get? event.uuid = some current →
          mergePendingChange current event copy = .ok merged → pendingChangeSize merged.change
              ≤ pendingChangeSize current + registrationEventSize event)
      ∧ ∀ (event : RegistrationEvent) current, pending.entries.get? event.uuid = some current →
          ¬ pending.bytes > pending.maxBytes - (registrationEventSize event : Int) →
            (pending.add event).2
              ≠ some { code := .capacity, field := ascii "selector_event_bytes" } := by
  have exact' : Exact pending := by
    rw [reached]
    exact (exact_new maxEntries maxBytes).run labels
  obtain ⟨entries, bytes⟩ := limits_run (newPendingChanges maxEntries maxBytes) labels
  rw [← reached] at entries bytes
  refine ⟨exact'.bytes, ?_, ?_, exact'.named, ?_, ?_, ?_⟩
  · rw [← show pending.maxEntries = maxEntries from entries]
    exact exact'.entries
  · rw [← show pending.maxBytes = maxBytes from bytes]
    exact exact'.within
  · intro event failure refused
    obtain ⟨same, total, _⟩ := add_refused refused
    exact ⟨same, total⟩
  · intro event current copy merged _ accepted
    exact size_merge accepted
  · intro event current found room refused
    unfold add at refused
    simp only [found] at refused
    split at refused
    next failure failed =>
      cases refused
      exact code_of_failed failed rfl
    rename_i accepted
    split at refused
    next many => exact absurd (fits_of_room room accepted) (Int.not_le.mpr many)
    · cases refused

def renewal : RegistrationEvent where
  kind := .renew
  uuid := [1]
  revision := 2
  timestamp := 5

theorem pending_law_renewal
    : ((newPendingChanges 1 200).run [.add renewal]).entries.size = 1
      ∧ ((newPendingChanges 1 200).run [.add renewal]).bytes ≤ 200 :=
  ⟨by decide, (pending_law 1 200 [.add renewal] _ rfl).2.2.1⟩

end PendingChanges

end Sdk.Registration
