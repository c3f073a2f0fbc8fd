import Verdandi.Common.Scope
import Verdandi.Support.Copy
import Verdandi.Support.History

/-! The public projection of one dynamic Scope: single changes that advance the view cursor by
one, whole replacements prepared as a batch of such changes, and a bounded history of them.
-/

namespace Astra

open Support

namespace Scene

inductive Error where
  | input
  | capacity
  | version
  | history
  deriving DecidableEq, Repr

structure Limits where
  records : Nat := 65536
  bytes : Nat := 64 * 1024 * 1024
  history : Nat := 4096
  backlog : Nat := 8 * 1024 * 1024
  retention : Int := 600 * 1000 * 1000 * 1000
  deriving DecidableEq, Repr

/-- How records are charged: the payload of a record, and `sizeof` of a record, of a name and
of an event.
-/
structure Measure (Item : Type) where
  payload : Item → Nat
  item : Nat
  name : Nat
  event : Nat

/-- One visible change: the whole record or, without one, an erase. `data` says that only the
data of an existing record changed. A name is never missing here.
-/
structure Event (Item : Type) where
  key : Bytes
  record : Option Item
  version : Nat
  data : Bool := false
  bytes : Nat
  stored : Int
  deriving DecidableEq, Repr

structure Edit (Item : Type) where
  key : Bytes
  record : Option Item
  now : Int := 0
  data : Bool := false
  retention : Nat := maxWord

end Scene

/-- The content of one Scope with its cursor and history. The lookup table and the page tree
hold the same records, so one map stands for both.
-/
structure Scene (Item : Type) where
  limits : Scene.Limits := {}
  entries : Assoc Bytes Item := ∅
  version : Nat := 0
  bytes : Nat := 0
  history : List (Scene.Event Item) := []
  backlog : Nat := 0

namespace Scene

variable {Item : Type}

def weight (measure : Measure Item) (key : Bytes) (record : Item) : Option Nat :=
  let metadata := measure.item + measure.name + key.length + 128
  if measure.payload record > maxWord - metadata then
    none
  else
    some (metadata + measure.payload record)

/-- Drop the oldest events until the bounds on count, bytes and age hold. -/
def evict (limits : Limits) (retention : Nat) (now : Int)
    : List (Event Item) → Nat → List (Event Item) × Nat
  | [], backlog => ([], backlog)
  | oldest :: rest, backlog =>
      if rest.length + 1 > limits.history ∨ backlog > min limits.backlog retention
          ∨ (now ≥ oldest.stored ∧ now - oldest.stored ≥ limits.retention) then
        evict limits retention now rest (backlog - oldest.bytes)
      else
        (oldest :: rest, backlog)

/-- One change of a projection, or of the candidate of a batch. `old` is the record that the
key has in public, and `seen` whether the batch has changed the key already.
-/
def advance (measure : Measure Item) (scene : Scene Item) (old : Option Item) (seen : Bool)
    (edit : Edit Item)
    : Except Error (Scene Item × Event Item) :=
  if edit.key.isEmpty ∨ edit.key.length > 1024 then
    .error .input
  else if scene.version = maxWord then
    .error .version
  else if (edit.record.isNone ∧ old.isNone) ∨ (edit.data = true ∧ (edit.record.isNone ∨ old.isNone))
      ∨ seen = true then
    .error .input
  else
    match old.elim (some 0) (weight measure edit.key),
        edit.record.elim (some 0) (weight measure edit.key) with
    | some before, some after =>
        if after > scene.limits.bytes ∨ scene.bytes - before > scene.limits.bytes - after
            ∨ (old.isNone ∧ scene.entries.size = scene.limits.records) then
          .error .capacity
        else
          let metadata := measure.event + measure.name + edit.key.length
          let payload := edit.record.elim 0 measure.payload
          if payload > maxWord - metadata ∨ metadata + payload > maxWord - scene.backlog then
            .error .capacity
          else
            let event : Event Item :=
              { key := edit.key
                record := edit.record
                version := scene.version + 1
                data := edit.data
                bytes := metadata + payload
                stored := edit.now }
            let (history, backlog) :=
              evict scene.limits edit.retention edit.now (scene.history ++ [event])
                (scene.backlog + event.bytes)
            .ok (
              { scene with
                entries := scene.entries.amend edit.key edit.record
                version := scene.version + 1
                bytes := scene.bytes - before + after
                history
                backlog },
              event)
    | _, _ => .error .capacity

/-- `prepare` of a single change and its `commit`, which follow each other under one lock. -/
def commit (measure : Measure Item) (scene : Scene Item) (edit : Edit Item)
    : Except Error (Scene Item × Event Item) :=
  scene.advance measure (scene.entries.get? edit.key) false edit

def commits (measure : Measure Item) (scene : Scene Item)
    : List (Edit Item) → Except Error (Scene Item × List (Event Item))
  | [] => .ok (scene, [])
  | edit :: rest =>
      match scene.commit measure edit with
      | .error error => .error error
      | .ok (next, event) =>
          match next.commits measure rest with
          | .error error => .error error
          | .ok (last, events) => .ok (last, event :: events)

/-- The private candidate of a whole replacement. It reads the public records of its owner, to
which every key is compared once. A failed change ends the batch.
-/
structure Batch (Item : Type) where
  owner : Scene Item
  candidate : Scene Item
  events : List (Event Item) := []
  seen : List Bytes := []

def Batch.prepare (scene : Scene Item) : Batch Item where
  owner := scene
  candidate := scene

def Batch.set (measure : Measure Item) (batch : Batch Item) (edit : Edit Item)
    : Except Error (Batch Item) :=
  match batch.candidate.advance measure (batch.owner.entries.get? edit.key)
      (batch.seen.contains edit.key) edit with
  | .error error => .error error
  | .ok (candidate, event) =>
      .ok
        { batch with
          candidate
          events := batch.events ++ [event]
          seen := edit.key :: batch.seen }

def Batch.sets (measure : Measure Item) (batch : Batch Item) (edits : List (Edit Item))
    : Except Error (Batch Item) :=
  edits.foldlM (Batch.set measure) batch

def Batch.commit (batch : Batch Item) : Scene Item × List (Event Item) :=
  (batch.candidate, batch.events)

/-- What a domain does to a Scene at once: a single change, or a batch of them. -/
inductive Task (Item : Type) where
  | single (edit : Edit Item)
  | batch (edits : List (Edit Item))

def Task.edits : Task Item → List (Edit Item)
  | .single edit => [edit]
  | .batch edits => edits

/-- Perform a task, with the events to announce. A refused one leaves the Scene as it was. -/
def perform (measure : Measure Item) (scene : Scene Item)
    : Task Item → Except Error (Scene Item × List (Event Item))
  | .single edit =>
      match scene.commit measure edit with
      | .error error => .error error
      | .ok (next, event) => .ok (next, [event])
  | .batch edits =>
      match (Batch.prepare scene).sets measure edits with
      | .error error => .error error
      | .ok batch => .ok batch.commit

def performs (measure : Measure Item) (scene : Scene Item) (tasks : List (Task Item))
    : Except Error (Scene Item) :=
  tasks.foldlM (fun scene task => (scene.perform measure task).map Prod.fst) scene

/-- The complete history after `since`. It is ordered by version, so the binary search of the
source keeps the events above `since`.
-/
def replay (scene : Scene Item) (since : Nat) : Except Error (List (Event Item)) :=
  if since > scene.version then
    .error .version
  else if since = scene.version then
    .ok []
  else
    match scene.history with
    | [] => .error .history
    | oldest :: rest =>
        if oldest.version - 1 > since then
          .error .history
        else
          match (oldest :: rest).dropWhile (·.version ≤ since) with
          | [] => .error .history
          | first :: later => .ok (first :: later)

-- What a change does

/-- Everything a change does: the cursor advances by one, one key takes the record of the
change, and the history is the old one with the event appended, less an evicted prefix.
-/
structure Advanced (scene next : Scene Item) (edit : Edit Item) (event : Event Item) : Prop where
  key : event.key = edit.key
  record : event.record = edit.record
  data : event.data = edit.data
  shaped : event.data = true → event.record.isSome = true
  stamped : event.version = next.version
  follows : next.version = scene.version + 1
  unexhausted : scene.version ≠ maxWord
  entries : next.entries = scene.entries.amend edit.key edit.record
  history : next.history <:+ scene.history ++ [event]
  limits : next.limits = scene.limits

/-- Eviction keeps a suffix. Witness: induction over the list. -/
theorem evict_suffix (limits : Limits) (retention : Nat) (now : Int)
    (events : List (Event Item)) (backlog : Nat)
    : (evict limits retention now events backlog).1 <:+ events := by
  induction events generalizing backlog with
  | nil => exact List.suffix_rfl
  | cons oldest rest ih =>
      unfold evict
      split
      · exact (ih _).trans (List.suffix_cons _ _)
      · exact List.suffix_rfl

section

variable {measure : Measure Item} {scene next : Scene Item} {old : Option Item} {seen : Bool}
  {edit : Edit Item} {event : Event Item}

/-- Data alone changes only where there is a record. -/
theorem old_of_advance (advanced : scene.advance measure old seen edit = .ok (next, event))
    (only : edit.data = true)
    : edit.record.isSome = true ∧ old.isSome = true := by
  unfold advance at advanced
  split at advanced
  · cases advanced
  split at advanced
  · cases advanced
  split at advanced
  · cases advanced
  rename_i shaped
  simp only [only, true_and, not_or, Option.isNone_iff_eq_none] at shaped
  exact ⟨Option.isSome_iff_ne_none.mpr shaped.2.1.1, Option.isSome_iff_ne_none.mpr shaped.2.1.2⟩

theorem unseen_of_advance (advanced : scene.advance measure old seen edit = .ok (next, event))
    : seen = false := by
  unfold advance at advanced
  split at advanced
  · cases advanced
  split at advanced
  · cases advanced
  split at advanced
  · cases advanced
  next shaped => simpa using fun isSeen => shaped (.inr (.inr isSeen))

/-- A successful change meets `Advanced`. Witness: the single branch that returns. -/
theorem advanced_of_advance (advanced : scene.advance measure old seen edit = .ok (next, event))
    : Advanced scene next edit event := by
  have whole := old_of_advance advanced
  unfold advance at advanced
  split at advanced
  · cases advanced
  split at advanced
  · cases advanced
  rename_i unexhausted
  split at advanced
  · cases advanced
  split at advanced
  · split at advanced
    · cases advanced
    dsimp only at advanced
    split at advanced
    · cases advanced
    · cases advanced
      exact {
        key := rfl
        record := rfl
        data := rfl
        shaped := fun only => (whole only).1
        stamped := rfl
        follows := rfl
        unexhausted := unexhausted
        entries := rfl
        history := evict_suffix _ _ _ _ _
        limits := rfl
      }
  · cases advanced

end

/-- What a batch keeps while it is prepared: it has done the changes one after the other, and
keys it has not seen are those of its owner.
-/
structure Batch.Keeps (measure : Measure Item) (batch : Batch Item) (edits : List (Edit Item))
    : Prop where
  done : batch.owner.commits measure edits = .ok (batch.candidate, batch.events)
  unseen
    : ∀ key, key ∉ batch.seen → batch.candidate.entries.get? key = batch.owner.entries.get? key

variable {measure : Measure Item} {scene : Scene Item} {edits : List (Edit Item)}
variable {events : List (Event Item)}

/-- Changes done one after the other continue. -/
theorem commits_append_singleton {middle last : Scene Item} {edit : Edit Item} {event : Event Item}
    (first : scene.commits measure edits = .ok (middle, events))
    (next : middle.commit measure edit = .ok (last, event))
    : scene.commits measure (edits ++ [edit]) = .ok (last, events ++ [event]) := by
  induction edits generalizing scene events with
  | nil =>
      cases first
      simp [commits, next]
  | cons edit' rest ih =>
      unfold commits at first
      split at first
      · cases first
      rename_i after early committed
      split at first
      · cases first
      rename_i finish later continued
      cases first
      simp only [List.cons_append, commits, committed, ih continued]

theorem Batch.Keeps.set {measure : Measure Item} {batch next : Batch Item}
    {edits : List (Edit Item)} {edit : Edit Item} (keeps : batch.Keeps measure edits)
    (prepared : batch.set measure edit = .ok next)
    : next.Keeps measure (edits ++ [edit]) ∧ next.owner = batch.owner := by
  unfold Batch.set at prepared
  split at prepared
  · cases prepared
  rename_i candidate event advanced
  cases prepared
  have fresh : edit.key ∉ batch.seen := by simpa using unseen_of_advance advanced
  have changed := advanced_of_advance advanced
  have committed : batch.candidate.commit measure edit = .ok (candidate, event) := by
    rw [Scene.commit, keeps.unseen edit.key fresh, ← advanced, unseen_of_advance advanced]
  refine ⟨⟨commits_append_singleton keeps.done committed, fun key absent => ?_⟩, rfl⟩
  simp only [List.mem_cons, not_or] at absent
  rw [changed.entries, Assoc.get?_amend, if_neg absent.1, keeps.unseen key absent.2]

/-- A batch does its changes one after the other, and publishes them at once. -/
theorem Batch.commits_of_sets {batch : Batch Item}
    (prepared : (Batch.prepare scene).sets measure edits = .ok batch)
    : scene.commits measure edits = .ok batch.commit := by
  have induct : ∀ (rest done : List (Edit Item)) (start : Batch Item),
      start.owner = scene → start.Keeps measure done → start.sets measure rest = .ok batch
      → scene.commits measure (done ++ rest) = .ok batch.commit := by
    intro rest
    induction rest with
    | nil =>
        intro done start owned keeps finished
        cases finished
        rw [List.append_nil, ← owned]
        exact keeps.done
    | cons edit rest ih =>
        intro done start owned keeps continued
        simp only [Batch.sets, List.foldlM_cons] at continued
        cases prepared : start.set measure edit with
        | error error =>
            rw [prepared] at continued
            cases continued
        | ok next =>
            rw [prepared] at continued
            obtain ⟨kept, same⟩ := keeps.set prepared
            have whole := ih (done ++ [edit]) next (same.trans owned) kept continued
            rwa [List.append_assoc] at whole
  exact induct edits [] (Batch.prepare scene) rfl ⟨rfl, fun _ _ => rfl⟩ prepared

/-- A task does its changes one after the other. -/
theorem commits_of_perform {next : Scene Item} {task : Task Item}
    (performed : scene.perform measure task = .ok (next, events))
    : scene.commits measure task.edits = .ok (next, events) := by
  unfold perform at performed
  cases task with
  | single edit =>
      dsimp only at performed
      split at performed
      · cases performed
      rename_i after event committed
      cases performed
      simp [Task.edits, commits, committed]
  | batch edits =>
      dsimp only at performed
      split at performed
      · cases performed
      rename_i batch prepared
      rw [← performed]
      exact Batch.commits_of_sets prepared

end Scene

end Astra
