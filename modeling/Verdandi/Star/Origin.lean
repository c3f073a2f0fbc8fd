import Verdandi.Star.Scene

/-! The facts of one source: its records under all Scopes, numbered by one position, with a
bounded history of what was sent. Of a remote source only the records and the confirmed position
are kept.
-/

namespace Astra

open Support

namespace Origin

structure Name where
  scope : Scope
  key : Bytes
  deriving DecidableEq, Repr

inductive Error where
  | input
  | duplicate
  | capacity
  | version
  | history
  deriving DecidableEq, Repr

structure Limits where
  records : Nat := 65536
  scopes : Nat := 4096
  bytes : Nat := 64 * 1024 * 1024
  history : Nat := 4096
  backlog : Nat := 8 * 1024 * 1024
  retention : Int := 600 * 1000 * 1000 * 1000
  deriving DecidableEq, Repr

inductive Form where
  | record
  | data
  | renew
  | erase
  deriving DecidableEq, Repr

structure Event (Item : Type) where
  name : Name
  record : Option Item
  position : Nat
  form : Form := .record
  bytes : Nat
  stored : Int
  deriving DecidableEq, Repr

/-- What a source is made for: how its records are charged, as those of a projection are, and
whether its keys are UUIDs.
-/
structure Traits (Item : Type) extends Scene.Measure Item where
  binary : Bool

def validKey (binary : Bool) (key : Bytes) : Bool :=
  if binary then
    key.length == 16 && key.getD 6 0 &&& 0xf0 == 0x40 && key.getD 8 0 &&& 0xc0 == 0x80
  else
    Scope.text key 1024

def directoryOf (scope : Scope) : Nat :=
  512 + 2 * (scope.sector.length + scope.spectrum.length)

end Origin

/-- One source. A Scope has a group of keys as long as it has a record, so the records stand for
the lookup tables as well as for the page tree; their number is that of the entries.
-/
structure Origin (Item : Type) where
  owned : Bool
  limits : Origin.Limits := {}
  entries : Assoc Origin.Name Item := ∅
  history : List (Origin.Event Item) := []
  position : Nat := 0
  scopeCount : Nat := 0
  bytes : Nat := 0
  directory : Nat := 0
  backlog : Nat := 0

namespace Origin

variable {Item : Type}

def find (origin : Origin Item) (name : Name) : Option Item :=
  origin.entries.get? name

def locate (origin : Origin Item) (scope : Scope) : Bool :=
  origin.entries.keys.any (·.scope == scope)

def scopes (origin : Origin Item) : List Scope :=
  (origin.entries.keys.map Name.scope).dedup.mergeSort Scope.before

def each (origin : Origin Item) (scope : Scope) : List (Name × Item) :=
  origin.entries.toPairs.filter (·.1.scope = scope)

def charged (origin : Origin Item) : Nat := origin.bytes + origin.directory

def next (origin : Origin Item) : Except Error Nat :=
  if origin.position = maxWord then
    .error .version
  else
    .ok (origin.position + 1)

def obtain' (origin : Origin Item) (scope : Scope) : Origin Item :=
  { origin with
    scopeCount := origin.scopeCount + 1
    directory := origin.directory + directoryOf scope }

def prune (origin : Origin Item) (scope : Scope) : Origin Item :=
  if origin.locate scope then
    origin
  else
    { origin with
      scopeCount := origin.scopeCount - 1
      directory := origin.directory - directoryOf scope }

/-- Only a remote source is told how far its records are complete. -/
def confirm (origin : Origin Item) (position : Nat) : Option (Origin Item) :=
  if origin.owned ∨ position < origin.position then
    none
  else
    some { origin with position }

-- Single changes

/-- A prepared change. `extra` is the charge of a new Scope, `queued` the event that enters the
history and `evicted` how many of the oldest leave it.
-/
structure Edit (Item : Type) where
  name : Name
  record : Option Item
  position : Nat
  bytes : Nat
  extra : Nat
  queued : Option (Event Item)
  evicted : Nat

/-- How many of the oldest events leave until the bounds on count, bytes and age hold. -/
def evicted (limits : Limits) (now : Int) : List (Event Item) → Nat → Nat
  | [], _ => 0
  | oldest :: rest, backlog =>
      if rest.length + 1 > limits.history ∨ backlog > limits.backlog
          ∨ (now ≥ oldest.stored ∧ now - oldest.stored ≥ limits.retention) then
        evicted limits now rest (backlog - oldest.bytes) + 1
      else
        0

def queue (traits : Traits Item) (origin : Origin Item) (name : Name) (record : Option Item)
    (position : Option Nat) (now : Int) (form : Form)
    : Except Error (Option (Event Item)) :=
  match position with
  | none => .ok none
  | some position =>
      if origin.owned then
        let metadata := traits.event + traits.name + name.key.length
        let payload := record.elim 0 traits.payload
        if payload > maxWord - metadata ∨ metadata + payload > maxWord - origin.backlog then
          .error .capacity
        else
          .ok (some
            { name
              record
              position
              form := if record.isSome then form else .erase
              bytes := metadata + payload
              stored := now })
      else
        .ok none

/-- Prepare a change. A position is the next one; without one the change is local maintenance
and not sent.
-/
def prepare (traits : Traits Item) (origin : Origin Item) (name : Name) (record : Option Item)
    (position : Option Nat) (now : Int) (form : Form := .record)
    : Except Error (Edit Item) :=
  if !name.scope.valid ∨ !validKey traits.binary name.key then
    .error .input
  else if (record.isSome ∧ form = .erase) ∨ (record.isNone ∧ (form = .data ∨ form = .renew)) then
    .error .input
  else if position.any fun next => origin.position = maxWord ∨ next ≠ origin.position + 1 then
    .error .version
  else
    let old := origin.find name
    let opens := record.isSome && !origin.locate name.scope
    match old.elim (some 0) (Scene.weight traits.toMeasure name.key),
        record.elim (some 0) (Scene.weight traits.toMeasure name.key) with
    | some before, some after =>
        let bytes := origin.bytes - before + after
        let extra := if opens then directoryOf name.scope else 0
        if after > origin.limits.bytes ∨ origin.bytes - before > origin.limits.bytes - after
            ∨ (record.isSome ∧ old.isNone ∧ origin.entries.size = origin.limits.records) then
          .error .capacity
        else if origin.directory > origin.limits.bytes
            ∨ extra > origin.limits.bytes - origin.directory
            ∨ bytes > origin.limits.bytes - origin.directory - extra then
          .error .capacity
        else if opens ∧ origin.scopeCount = origin.limits.scopes then
          .error .capacity
        else
          match origin.queue traits name record position now form with
          | .error refused => .error refused
          | .ok queued =>
              .ok
                { name
                  record
                  position := position.getD origin.position
                  bytes
                  extra
                  queued
                  evicted :=
                    evicted origin.limits now (origin.history ++ queued.toList)
                      (origin.backlog + queued.elim 0 Event.bytes) }
    | _, _ => .error .capacity

def Edit.charged (origin : Origin Item) (edit : Edit Item) : Nat :=
  edit.bytes + origin.directory + edit.extra

def Edit.revise (traits : Traits Item) (edit : Edit Item) (record : Item)
    : Option (Edit Item) :=
  match edit.record with
  | none => none
  | some held =>
      if traits.payload record ≠ traits.payload held then
        none
      else
        some
          { edit with
            record := some record
            queued := edit.queued.map fun event => { event with record := some record } }

def Edit.commit (origin : Origin Item) (edit : Edit Item) : Origin Item :=
  let located := origin.locate edit.name.scope
  let owner :=
    if edit.record.isSome ∧ !located then origin.obtain' edit.name.scope else origin
  let staged := origin.history ++ edit.queued.toList
  let published :=
    { owner with
      entries := origin.entries.amend edit.name edit.record
      bytes := edit.bytes
      position := edit.position
      history := staged.drop edit.evicted
      backlog :=
        origin.backlog + edit.queued.elim 0 Event.bytes
          - ((staged.take edit.evicted).map Event.bytes).sum }
  if located then published.prune edit.name.scope else published

-- Batches

/-- A private candidate of many changes without positions. Groups that it opens are counted at
its owner at once; every name is changed at most once. A failed change ends the batch.
-/
structure Batch (Item : Type) where
  owner : Origin Item
  entries : Assoc Name Item
  bytes : Nat
  seen : List Name := []
  created : List Scope := []
  removed : List Name := []

/-- `prepare` of a batch: an own source has to number every change. -/
def Batch.prepare (origin : Origin Item) : Option (Batch Item) :=
  if origin.owned then
    none
  else
    some { owner := origin, entries := origin.entries, bytes := origin.bytes }

def Batch.find (batch : Batch Item) (name : Name) : Option Item :=
  batch.entries.get? name

def Batch.set (traits : Traits Item) (batch : Batch Item) (name : Name) (record : Item)
    : Except Error (Batch Item) :=
  if !name.scope.valid ∨ !validKey traits.binary name.key then
    .error .input
  else if batch.seen.contains name then
    .error .duplicate
  else
    let owner := batch.owner
    let old := owner.find name
    let located := owner.locate name.scope || batch.created.contains name.scope
    match old.elim (some 0) (Scene.weight traits.toMeasure name.key),
        Scene.weight traits.toMeasure name.key record with
    | some before, some after =>
        let extra := if located then 0 else directoryOf name.scope
        if after > owner.limits.bytes ∨ batch.bytes - before > owner.limits.bytes - after
            ∨ (old.isNone ∧ batch.entries.size = owner.limits.records)
            ∨ owner.directory > owner.limits.bytes
            ∨ extra > owner.limits.bytes - owner.directory
            ∨ batch.bytes - before + after > owner.limits.bytes - owner.directory - extra then
          .error .capacity
        else if !located ∧ owner.scopeCount = owner.limits.scopes then
          .error .capacity
        else
          .ok
            { batch with
              owner := if located then owner else owner.obtain' name.scope
              entries := batch.entries.set name record
              bytes := batch.bytes - before + after
              seen := name :: batch.seen
              created := if located then batch.created else name.scope :: batch.created }
    | _, _ => .error .capacity

def Batch.erase (traits : Traits Item) (batch : Batch Item) (name : Name)
    : Except Error (Batch Item) :=
  if batch.seen.contains name then
    .error .duplicate
  else
    match batch.owner.find name with
    | none => .error .input
    | some record =>
        .ok
          { batch with
            entries := batch.entries.remove name
            bytes :=
              batch.bytes - (Scene.weight traits.toMeasure name.key record).getD 0
            seen := name :: batch.seen
            removed := name :: batch.removed }

def Batch.charged (batch : Batch Item) : Nat := batch.bytes + batch.owner.directory

def Batch.commit (batch : Batch Item) : Origin Item :=
  (batch.removed.map Name.scope).dedup.foldl prune
    { batch.owner with entries := batch.entries, bytes := batch.bytes }

-- Complete states

structure Draft (Item : Type) where
  candidate : Origin Item
  position : Nat

def draft (origin : Origin Item) (position : Nat) : Draft Item where
  candidate := { owned := false, limits := origin.limits }
  position

def Draft.set (traits : Traits Item) (draft : Draft Item) (name : Name) (record : Item) (now : Int)
    : Except Error (Draft Item) :=
  if (draft.candidate.find name).isSome then
    .error .duplicate
  else
    match draft.candidate.prepare traits name (some record) none now with
    | .error refused => .error refused
    | .ok edit => .ok { draft with candidate := edit.commit draft.candidate }

def validate (origin : Origin Item) (draft : Draft Item) : Except Error Unit :=
  let candidate := draft.candidate
  if origin.owned then
    .error .input
  else if draft.position < origin.position ∨ (draft.position = 0 ∧ candidate.entries.size ≠ 0) then
    .error .version
  else if candidate.entries.size > origin.limits.records
      ∨ candidate.scopeCount > origin.limits.scopes
      ∨ candidate.directory > origin.limits.bytes
      ∨ candidate.bytes > origin.limits.bytes - candidate.directory then
    .error .capacity
  else
    .ok ()

def reset (origin : Origin Item) (draft : Draft Item) : Except Error (Origin Item) :=
  match origin.validate draft with
  | .error refused => .error refused
  | .ok () =>
      let candidate := draft.candidate
      .ok
        { origin with
          entries := candidate.entries
          history := candidate.history
          position := draft.position
          scopeCount := candidate.scopeCount
          bytes := candidate.bytes
          directory := candidate.directory
          backlog := candidate.backlog }

-- Reading

structure View (Item : Type) where
  root : Assoc Name Item
  position : Nat
  bytes : Nat

def capture (origin : Origin Item) : View Item where
  root := origin.entries
  position := origin.position
  bytes := origin.charged

/-- The complete history after `since`. It is ordered by position, so the binary search of the
source keeps the events above `since`.
-/
def replay (origin : Origin Item) (since : Nat) : Except Error (List (Event Item)) :=
  if since > origin.position then
    .error .version
  else if since = origin.position then
    .ok []
  else
    match origin.history with
    | [] => .error .history
    | oldest :: rest =>
        if oldest.position - 1 > since then
          .error .history
        else
          match (oldest :: rest).dropWhile (·.position ≤ since) with
          | [] => .error .history
          | first :: later => .ok (first :: later)

/-- What a receiver is sent next: all records at the head, or the events that follow. -/
structure Delivery (Item : Type) where
  head : Nat
  baseline : Option (View Item) := none
  events : List (Event Item) := []

/-- The first events, at most `count` of them and as long as they fit into `room`. -/
def fitting : Nat → Nat → List (Event Item) → List (Event Item)
  | 0, _, _ => []
  | _ + 1, _, [] => []
  | count + 1, room, event :: rest =>
      if event.bytes > room then
        []
      else
        event :: fitting count (room - event.bytes) rest

def deliver (origin : Origin Item) (since count bytes : Nat)
    : Except Error (Delivery Item) :=
  if !origin.owned ∨ count = 0 ∨ bytes = 0 then
    .error .input
  else if since > origin.position then
    .error .version
  else if since = origin.position then
    .ok { head := origin.position }
  else
    match origin.history.dropWhile (·.position ≤ since) with
    | [] => .ok { head := origin.position, baseline := some origin.capture }
    | first :: later =>
        if first.position - 1 ≠ since then
          .ok { head := origin.position, baseline := some origin.capture }
        else
          match fitting count bytes (first :: later) with
          | [] => .error .capacity
          | next :: rest => .ok { head := origin.position, events := next :: rest }

-- What a change does

variable {traits : Traits Item} {origin : Origin Item} {edit : Edit Item}

/-- What is known of a change that was prepared for a source, whatever was revised since. -/
structure Edit.Fits (origin : Origin Item) (edit : Edit Item) : Prop where
  sent : ∀ event, edit.queued = some event
    → origin.owned = true ∧ event.name = edit.name ∧ event.record = edit.record
      ∧ event.position = edit.position ∧ edit.position = origin.position + 1
  kept : edit.queued = none → origin.owned = true → edit.position = origin.position

variable {name : Name}

/-- A refused preparation has no edit; an accepted one fits. Witness: the checks in order. -/
theorem fits_of_prepare {record : Option Item} {position : Option Nat} {now : Int} {form : Form}
    (prepared : origin.prepare traits name record position now form = .ok edit)
    : edit.Fits origin ∧ edit.name = name ∧ edit.record = record
      ∧ edit.position = position.getD origin.position
      ∧ (∀ next, position = some next → next = origin.position + 1 ∧ origin.position ≠ maxWord)
      ∧ name.scope.valid = true ∧ validKey traits.binary name.key = true := by
  unfold prepare at prepared
  split at prepared
  · cases prepared
  next shaped =>
  split at prepared
  · cases prepared
  split at prepared
  · cases prepared
  next follows =>
  dsimp only at prepared
  generalize (if record.isSome && !origin.locate name.scope then _ else _) = extra at prepared
  split at prepared
  · split at prepared
    · cases prepared
    split at prepared
    · cases prepared
    split at prepared
    · cases prepared
    split at prepared
    · cases prepared
    rename_i queued isQueued
    cases prepared
    have next : ∀ next, position = some next
        → next = origin.position + 1 ∧ origin.position ≠ maxWord := by
      rintro next rfl
      simpa [not_or, and_comm] using follows
    refine ⟨⟨?_, ?_⟩, rfl, rfl, rfl, next, ?_⟩
    · intro event isEvent
      dsimp only at isEvent
      subst isEvent
      cases position with
      | none => cases isQueued
      | some target =>
          simp only [queue] at isQueued
          split at isQueued
          next owned =>
            split at isQueued
            · cases isQueued
            · cases isQueued
              exact ⟨owned, rfl, rfl, rfl, (next target rfl).1⟩
          · cases isQueued
    · intro isNone owned
      dsimp only at isNone
      subst isNone
      cases position with
      | none => rfl
      | some target =>
          simp only [queue, owned, if_true] at isQueued
          split at isQueued
          · cases isQueued
          · cases isQueued
    · simpa [not_or] using shaped
  · cases prepared

variable {record : Item}

theorem Edit.Fits.revise {revised : Edit Item} (fits : edit.Fits origin)
    (isRevised : edit.revise traits record = some revised)
    : revised.Fits origin := by
  unfold Edit.revise at isRevised
  split at isRevised
  · cases isRevised
  split at isRevised
  · cases isRevised
  cases isRevised
  refine ⟨?_, ?_⟩
  · intro event isEvent
    obtain ⟨first, isFirst, rfl⟩ := Option.map_eq_some_iff.mp isEvent
    obtain ⟨owned, name, _, position, next⟩ := fits.sent first isFirst
    exact ⟨owned, name, rfl, position, next⟩
  · intro isNone owned
    exact fits.kept (Option.map_eq_none_iff.mp isNone) owned

@[simp]
theorem entries_prune (scope : Scope) : (origin.prune scope).entries = origin.entries := by
  unfold prune
  split <;> rfl

@[simp]
theorem history_prune (scope : Scope) : (origin.prune scope).history = origin.history := by
  unfold prune
  split <;> rfl

@[simp]
theorem position_prune (scope : Scope) : (origin.prune scope).position = origin.position := by
  unfold prune
  split <;> rfl

@[simp]
theorem owned_prune (scope : Scope) : (origin.prune scope).owned = origin.owned := by
  unfold prune
  split <;> rfl

@[simp]
theorem limits_prune (scope : Scope) : (origin.prune scope).limits = origin.limits := by
  unfold prune
  split <;> rfl

/-- A published change is that of one record; only the counts of Scopes are left out. -/
structure Edit.Published (origin : Origin Item) (edit : Edit Item) (next : Origin Item)
    : Prop where
  entries : next.entries = origin.entries.amend edit.name edit.record
  position : next.position = edit.position
  history : next.history = (origin.history ++ edit.queued.toList).drop edit.evicted
  owned : next.owned = origin.owned
  limits : next.limits = origin.limits

theorem Edit.published (origin : Origin Item) (edit : Edit Item)
    : edit.Published origin (edit.commit origin) := by
  unfold Edit.commit
  dsimp only
  constructor <;> (repeat' split) <;> simp [obtain']

/-- What a batch changes at its owner before it is published: only the counts of Scopes. -/
structure Batch.Of (origin : Origin Item) (batch : Batch Item) : Prop where
  entries : batch.owner.entries = origin.entries
  position : batch.owner.position = origin.position
  history : batch.owner.history = origin.history
  owned : batch.owner.owned = origin.owned
  limits : batch.owner.limits = origin.limits

variable {batch : Batch Item}

theorem Batch.of_prepare (prepared : Batch.prepare origin = some batch)
    : batch.Of origin ∧ origin.owned = false ∧ batch.entries = origin.entries
      ∧ batch.seen = [] := by
  unfold Batch.prepare at prepared
  split at prepared
  · cases prepared
  rename_i remote
  cases prepared
  exact ⟨⟨rfl, rfl, rfl, rfl, rfl⟩, by simpa using remote, rfl, rfl⟩

/-- A record that enters a batch is new to it. -/
theorem Batch.Of.set {batch next : Batch Item} {name : Name} {record : Item}
    (of : batch.Of origin) (isSet : batch.set traits name record = .ok next)
    : next.Of origin ∧ next.entries = batch.entries.set name record
      ∧ next.seen = name :: batch.seen ∧ name ∉ batch.seen
      ∧ name.scope.valid = true ∧ validKey traits.binary name.key = true := by
  unfold Batch.set at isSet
  split at isSet
  · cases isSet
  next shaped =>
  split at isSet
  · cases isSet
  next fresh =>
  dsimp only at isSet
  generalize (if batch.owner.locate name.scope || batch.created.contains name.scope then 0 else _) = extra
    at isSet
  split at isSet
  · split at isSet
    · cases isSet
    split at isSet
    · cases isSet
    cases isSet
    refine ⟨?_, rfl, rfl, by simpa using fresh, by simpa [not_or] using shaped⟩
    constructor <;> dsimp only <;> split <;> simp [obtain', of.entries, of.position, of.history,
      of.owned, of.limits]
  · cases isSet

variable {next : Batch Item}

theorem Batch.Of.erase (of : batch.Of origin) (erased : batch.erase traits name = .ok next)
    : next.Of origin ∧ next.entries = batch.entries.remove name
      ∧ next.seen = name :: batch.seen ∧ name ∉ batch.seen := by
  unfold Batch.erase at erased
  split at erased
  · cases erased
  rename_i fresh
  split at erased
  · cases erased
  cases erased
  exact ⟨⟨of.entries, of.position, of.history, of.owned, of.limits⟩, rfl, rfl,
    by simpa using fresh⟩

/-- Erased names are gone from a batch. -/
theorem Batch.Of.erases {names : List Name} (of : batch.Of origin)
    (erased : names.foldlM (Batch.erase traits) batch = .ok next)
    : next.Of origin ∧ ∀ name, next.find name = if name ∈ names then none else batch.find name := by
  induction names generalizing batch with
  | nil =>
      cases erased
      exact ⟨of, fun _ => by simp⟩
  | cons first rest ih =>
      rw [List.foldlM_cons] at erased
      cases isErased : Batch.erase traits batch first with
      | error refused =>
          rw [isErased] at erased
          cases erased
      | ok middle =>
          rw [isErased] at erased
          obtain ⟨ofMiddle, entries, _⟩ := of.erase isErased
          obtain ⟨ofNext, find⟩ := ih ofMiddle erased
          refine ⟨ofNext, ?_⟩
          intro name
          rw [find, Batch.find, Batch.find, entries, Assoc.get?_remove]
          by_cases same : name = first <;> simp [same]

variable {scope : Scope}

/-- The records of a Scope. -/
theorem mem_each
    : (name, record) ∈ origin.each scope ↔ origin.find name = some record ∧ name.scope = scope := by
  rw [each, List.mem_filter, Assoc.mem_toPairs]
  simp [find]

theorem mem_names
    : name ∈ (origin.each scope).map Prod.fst
      ↔ name.scope = scope ∧ (origin.find name).isSome = true := by
  constructor
  · intro listed
    obtain ⟨⟨_, record⟩, isPair, rfl⟩ := List.mem_map.mp listed
    obtain ⟨found, same⟩ := mem_each.mp isPair
    exact ⟨same, by rw [found]; rfl⟩
  · rintro ⟨same, isSome⟩
    obtain ⟨record, found⟩ := Option.isSome_iff_exists.mp isSome
    exact List.mem_map_of_mem (mem_each.mpr ⟨found, same⟩)

theorem mem_scopes (present : (origin.find name).isSome = true)
    : name.scope ∈ origin.scopes := by
  rw [scopes, List.mem_mergeSort, List.mem_dedup]
  exact List.mem_map_of_mem ((Assoc.mem_keys _ _).mpr (Option.isSome_iff_exists.mp present))

theorem nodup_each (scope : Scope) : ((origin.each scope).map Prod.fst).Nodup := by
  have keys : (origin.entries.toPairs.map Prod.fst).Nodup := by
    have same : origin.entries.toPairs.map Prod.fst = origin.entries.keys := by
      simp [Assoc.toPairs, Assoc.keys]
    rw [same]
    exact origin.entries.nodup_keys
  exact keys.sublist (List.filter_sublist.map _)

/-- A published batch is that of its records. -/
theorem Batch.Of.commit {batch : Batch Item} (of : batch.Of origin)
    : batch.commit.entries = batch.entries ∧ batch.commit.position = origin.position
      ∧ batch.commit.history = origin.history
      ∧ batch.commit.owned = origin.owned
      ∧ batch.commit.limits = origin.limits := by
  unfold Batch.commit
  generalize isStart : ({ batch.owner with entries := batch.entries, bytes := batch.bytes }
    : Origin Item) = start
  have same : start.entries = batch.entries ∧ start.position = origin.position
      ∧ start.history = origin.history ∧ start.owned = origin.owned
      ∧ start.limits = origin.limits := by
    subst isStart
    exact ⟨rfl, of.position, of.history, of.owned, of.limits⟩
  clear isStart
  induction (batch.removed.map Name.scope).dedup generalizing start with
  | nil => exact same
  | cons scope rest ih => exact ih (start.prune scope) (by simpa using same)

theorem Batch.Of.find_commit (of : batch.Of origin)
    : batch.commit.find = batch.find := by
  funext name
  rw [Origin.find, of.commit.1]
  rfl

end Origin

end Astra
