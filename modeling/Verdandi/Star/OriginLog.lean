import Verdandi.Star.Origin
import Verdandi.Support.Journal
import Verdandi.Support.Run

/-! A source sends what its log says: the events after a position without a gap, or all of its
records.
-/

namespace Astra.Origin

open Support

variable {Item : Type}

/-- What happens to a source at once. A prepared change may be revised before it is published;
a batch sets or erases, and a complete state is collected row by row.
-/
inductive Task (Item : Type) where
  | edit (name : Name) (record : Option Item) (position : Option Nat) (now : Int) (form : Form)
      (revisions : List Item)
  | batch (changes : List (Name × Option Item))
  | confirm (position : Nat)
  | reset (position : Nat) (rows : List (Name × Item)) (now : Int)

/-- Revise a prepared change; a refused revision changes nothing. -/
def Edit.revises (traits : Traits Item) (edit : Edit Item) (records : List Item) : Edit Item :=
  records.foldl (fun edit record => (edit.revise traits record).getD edit) edit

def Batch.changes (traits : Traits Item) (batch : Batch Item) (changes : List (Name × Option Item))
    : Except Error (Batch Item) :=
  changes.foldlM
    (fun batch change =>
      match change.2 with
      | some record => batch.set traits change.1 record
      | none => batch.erase traits change.1)
    batch

def Draft.sets (traits : Traits Item) (draft : Draft Item) (rows : List (Name × Item)) (now : Int)
    : Except Error (Draft Item) :=
  rows.foldlM (fun draft row => draft.set traits row.1 row.2 now) draft

/-- Perform a task, with the event it commits to the log. A refused one leaves the source as it
was.
-/
def perform (traits : Traits Item) (origin : Origin Item)
    : Task Item → Origin Item × Option (Event Item)
  | .edit name record position now form revisions =>
      match origin.prepare traits name record position now form with
      | .error _ => (origin, none)
      | .ok edit =>
          let revised := edit.revises traits revisions
          (revised.commit origin, revised.queued)
  | .batch changes =>
      match Batch.prepare origin with
      | none => (origin, none)
      | some batch =>
          match batch.changes traits changes with
          | .error _ => (origin, none)
          | .ok batch => (batch.commit, none)
  | .confirm position => ((origin.confirm position).getD origin, none)
  | .reset position rows now =>
      match (origin.draft position).sets traits rows now with
      | .error _ => (origin, none)
      | .ok draft =>
          match origin.reset draft with
          | .error _ => (origin, none)
          | .ok next => (next, none)

/-- Tasks one after the other, with the log of what they committed. -/
def performs (traits : Traits Item) (origin : Origin Item) (tasks : List (Task Item))
    : Origin Item × List (Event Item) :=
  tasks.foldl
    (fun reached task =>
      let performed := reached.1.perform traits task
      (performed.1, reached.2 ++ performed.2.toList))
    (origin, [])

/-- An own source has numbered its log, of which it retains the newest part; a remote one has no
log.
-/
structure Logs (origin : Origin Item) (log : List (Event Item)) : Prop where
  journal : Journal Event.position log origin.history
  counted : origin.owned = true → origin.position = log.length
  remote : origin.owned = false → log = []

variable {traits : Traits Item} {origin : Origin Item} {log : List (Event Item)}

theorem Logs.empty (owned : Bool) (limits : Limits)
    : Logs ({ owned, limits } : Origin Item) [] :=
  ⟨.empty, fun _ => rfl, fun _ => rfl⟩

/-- A remote source retains nothing. -/
theorem Logs.history_remote (logs : Logs origin log) (remote : origin.owned = false)
    : origin.history = [] := by
  have suffix := logs.journal.suffix
  rw [logs.remote remote] at suffix
  exact List.suffix_nil.mp suffix

theorem Edit.Fits.revises {edit : Edit Item} (fits : edit.Fits origin) (records : List Item)
    : (edit.revises traits records).Fits origin := by
  induction records generalizing edit with
  | nil => exact fits
  | cons record rest ih =>
      have next : ((edit.revise traits record).getD edit).Fits origin := by
        cases isRevised : edit.revise traits record with
        | none => exact fits
        | some revised => exact fits.revise isRevised
      exact ih next

/-- A published change enters the log if it is one to be sent. -/
theorem Logs.edit {edit : Edit Item} (logs : Logs origin log) (fits : edit.Fits origin)
    : Logs (edit.commit origin) (log ++ edit.queued.toList) := by
  have published := edit.published origin
  cases isQueued : edit.queued with
  | none =>
      rw [Option.toList_none, List.append_nil]
      refine ⟨logs.journal.evict ?_, ?_, ?_⟩
      · rw [published.history, isQueued, Option.toList_none, List.append_nil]
        exact List.drop_suffix _ _
      · intro owned
        rw [published.owned] at owned
        rw [published.position, fits.kept isQueued owned, logs.counted owned]
      · intro remote
        exact logs.remote (published.owned ▸ remote)
  | some event =>
      obtain ⟨owned, _, _, position, next⟩ := fits.sent event isQueued
      rw [Option.toList_some]
      refine ⟨logs.journal.push ?_ ?_, ?_, ?_⟩
      · rw [position, next, logs.counted owned]
      · rw [published.history, isQueued, Option.toList_some]
        exact List.drop_suffix _ _
      · intro _
        rw [published.position, next, logs.counted owned, List.length_append, List.length_singleton]
      · intro remote
        rw [published.owned, owned] at remote
        cases remote

/-- A remote source whose history stays empty has no log. -/
theorem Logs.remotely {next : Origin Item} (logs : Logs origin log)
    (remote : origin.owned = false) (owned : next.owned = origin.owned)
    (history : next.history = [])
    : Logs next log := by
  have nothing := logs.remote remote
  subst nothing
  refine ⟨?_, ?_, fun _ => rfl⟩
  · rw [history]
    exact .empty
  · intro isOwned
    rw [owned, remote] at isOwned
    cases isOwned

theorem Batch.Of.changes {batch next : Batch Item} {changes : List (Name × Option Item)}
    (of : batch.Of origin) (changed : batch.changes traits changes = .ok next)
    : next.Of origin := by
  induction changes generalizing batch with
  | nil =>
      cases changed
      exact of
  | cons change rest ih =>
      rw [Batch.changes, List.foldlM_cons] at changed
      obtain ⟨name, record⟩ := change
      cases record with
      | some record =>
          cases isSet : batch.set traits name record with
          | error refused =>
              simp only [isSet] at changed
              cases changed
          | ok middle =>
              simp only [isSet] at changed
              exact ih (of.set isSet).1 changed
      | none =>
          cases erased : batch.erase traits name with
          | error refused =>
              simp only [erased] at changed
              cases changed
          | ok middle =>
              simp only [erased] at changed
              exact ih (of.erase erased).1 changed

variable {next draft : Draft Item} {rows : List (Name × Item)} {now : Int}

/-- A draft is a remote source, so it has no history. -/
theorem history_draft (empty : Logs draft.candidate [] ∧ draft.candidate.owned = false)
    (collected : draft.sets traits rows now = .ok next)
    : next.candidate.history = [] := by
  induction rows generalizing draft with
  | nil =>
      cases collected
      exact empty.1.history_remote empty.2
  | cons row rest ih =>
      rw [Draft.sets, List.foldlM_cons] at collected
      cases isSet : draft.set traits row.1 row.2 now with
      | error refused =>
          rw [isSet] at collected
          cases collected
      | ok middle =>
          rw [isSet] at collected
          refine ih ?_ collected
          unfold Draft.set at isSet
          split at isSet
          · cases isSet
          split at isSet
          · cases isSet
          rename_i edit prepared
          cases isSet
          have fits := (fits_of_prepare prepared).1
          have logged := empty.1.edit fits
          have remote : (edit.commit draft.candidate).owned = false :=
            (edit.published draft.candidate).owned.trans empty.2
          exact ⟨(logged.remote remote) ▸ logged, remote⟩

/-- A collected draft has the rows it was given, and otherwise what it had. Witness: induction over
the rows; none is set twice.
-/
theorem find_draft (collected : draft.sets traits rows now = .ok next)
    : next.position = draft.position
      ∧ (∀ name, (draft.candidate.find name).isSome = true
        → next.candidate.find name = draft.candidate.find name)
      ∧ ∀ name record, next.candidate.find name = some record
        ↔ draft.candidate.find name = some record ∨ (name, record) ∈ rows := by
  induction rows generalizing draft with
  | nil =>
      cases collected
      exact ⟨rfl, fun _ _ => rfl, by simp⟩
  | cons row rest ih =>
      obtain ⟨added, item⟩ := row
      rw [Draft.sets, List.foldlM_cons] at collected
      cases isSet : draft.set traits added item now with
      | error refused =>
          rw [isSet] at collected
          cases collected
      | ok middle =>
          rw [isSet] at collected
          obtain ⟨position, kept, known⟩ := ih collected
          unfold Draft.set at isSet
          split at isSet
          · cases isSet
          next fresh =>
          split at isSet
          · cases isSet
          rename_i edit prepared
          cases isSet
          obtain ⟨_, isName, isRecord, _⟩ := fits_of_prepare prepared
          have absent : draft.candidate.find added = none := by simpa using fresh
          have find (name : Name) : (edit.commit draft.candidate).find name
              = if name = added then some item else draft.candidate.find name := by
            rw [Origin.find, (edit.published draft.candidate).entries, Assoc.get?_amend, isName,
              isRecord]
            rfl
          refine ⟨position, ?_, ?_⟩
          · intro name present
            have differs : name ≠ added := by
              rintro rfl
              rw [absent] at present
              cases present
            have same := kept name
            dsimp only at same
            rw [find, if_neg differs] at same
            exact same present
          · intro name record
            rw [known]
            dsimp only
            rw [find]
            by_cases same : name = added
            · rw [if_pos same, same, absent]
              simp [eq_comm]
            · rw [if_neg same, List.mem_cons]
              simp [same]

/-- A task adds to the log what it commits. -/
theorem Logs.perform (logs : Logs origin log) (task : Task Item)
    : Logs (origin.perform traits task).1 (log ++ (origin.perform traits task).2.toList) := by
  have same : Logs origin (log ++ (none : Option (Event Item)).toList) := by simpa using logs
  cases task with
  | edit name record position now form revisions =>
      unfold Origin.perform
      dsimp only
      split
      · exact same
      rename_i edit prepared
      exact logs.edit ((fits_of_prepare prepared).1.revises revisions)
  | batch changes =>
      unfold Origin.perform
      dsimp only
      split
      · exact same
      rename_i first prepared
      obtain ⟨of, remote, _⟩ := Batch.of_prepare prepared
      split
      · exact same
      rename_i last changed
      obtain ⟨_, _, history, owned, _⟩ := (of.changes changed).commit
      rw [Option.toList_none, List.append_nil]
      exact logs.remotely remote owned (history.trans (logs.history_remote remote))
  | confirm position =>
      unfold Origin.perform
      dsimp only
      cases confirmed : origin.confirm position with
      | none => exact same
      | some next =>
          unfold Origin.confirm at confirmed
          split at confirmed
          · cases confirmed
          rename_i remote
          cases confirmed
          rw [Option.toList_none, List.append_nil, Option.getD_some]
          have isRemote : origin.owned = false := by
            simp only [not_or, Bool.not_eq_true] at remote
            exact remote.1
          exact logs.remotely isRemote rfl (logs.history_remote isRemote)
  | reset position rows now =>
      unfold Origin.perform
      dsimp only
      split
      · exact same
      rename_i draft collected
      have history := history_draft ⟨Logs.empty false origin.limits, rfl⟩ collected
      split
      · exact same
      rename_i next isReset
      unfold Origin.reset at isReset
      split at isReset
      · cases isReset
      rename_i valid
      cases isReset
      rw [Option.toList_none, List.append_nil]
      have isRemote : origin.owned = false := by
        unfold validate at valid
        dsimp only at valid
        split at valid
        · cases valid
        next remote => simpa using remote
      exact logs.remotely isRemote rfl history

/-- Whole runs. Witness: induction over the tasks. -/
theorem Logs.performs (logs : Logs origin []) (tasks : List (Task Item))
    : Logs (origin.performs traits tasks).1 (origin.performs traits tasks).2 := by
  unfold Origin.performs
  generalize [] = log at logs ⊢
  induction tasks generalizing origin log with
  | nil => exact logs
  | cons task rest ih => exact ih _ (logs.perform task)

-- What is delivered

/-- A part of the log that may be sent at once: it starts the events, keeps the bounds, and stops
only at the end or where the next event breaks one.
-/
structure Fitted (count bytes : Nat) (events sent : List (Event Item)) : Prop where
  starts : sent <+: events
  few : sent.length ≤ count
  small : (sent.map Event.bytes).sum ≤ bytes
  stops : sent.length = count ∨ sent = events ∨ ∃ event, events[sent.length]? = some event
      ∧ bytes < (sent.map Event.bytes).sum + event.bytes

/-- Witness: induction over the events. -/
theorem fitted_fitting (count room : Nat) (events : List (Event Item))
    : Fitted count room events (fitting count room events) := by
  induction events generalizing count room with
  | nil => cases count <;> exact ⟨List.prefix_rfl, Nat.zero_le _, Nat.zero_le _, .inr (.inl rfl)⟩
  | cons event rest ih =>
      cases count with
      | zero => exact ⟨List.nil_prefix, le_rfl, Nat.zero_le _, .inl rfl⟩
      | succ count =>
          unfold fitting
          split
          next large =>
            refine ⟨List.nil_prefix, Nat.zero_le _, Nat.zero_le _, .inr (.inr ⟨event, rfl, ?_⟩)⟩
            simpa using large
          rename_i fits
          have later := ih count (room - event.bytes)
          have total := later.small
          refine ⟨List.prefix_cons_inj event |>.mpr later.starts, ?_, ?_, ?_⟩
          · exact Nat.succ_le_succ later.few
          · rw [List.map_cons, List.sum_cons]
            omega
          · rw [List.length_cons, List.map_cons, List.sum_cons]
            rcases later.stops with full | whole | ⟨next, isNext, breaks⟩
            · exact .inl (congrArg (· + 1) full)
            · exact .inr (.inl (congrArg (event :: ·) whole))
            · refine .inr (.inr ⟨next, by simpa using isNext, ?_⟩)
              omega

variable {count : Nat}

variable {since bytes : Nat} {delivery : Delivery Item}

/-- Whatever is delivered was retained, or is the whole source. -/
theorem mem_of_deliver (delivered : origin.deliver since count bytes = .ok delivery)
    : (∀ event ∈ delivery.events, event ∈ origin.history)
      ∧ ∀ view, delivery.baseline = some view → view = origin.capture := by
  unfold deliver at delivered
  split at delivered
  · cases delivered
  split at delivered
  · cases delivered
  split at delivered
  · cases delivered
    exact ⟨nofun, nofun⟩
  split at delivered
  · cases delivered
    exact ⟨nofun, fun _ same => (Option.some.inj same).symm⟩
  rename_i first later found
  split at delivered
  · cases delivered
    exact ⟨nofun, fun _ same => (Option.some.inj same).symm⟩
  split at delivered
  · cases delivered
  rename_i next rest isEvents
  cases delivered
  refine ⟨?_, nofun⟩
  intro event listed
  have starts := (fitted_fitting count bytes (first :: later)).starts
  rw [isEvents, ← found] at starts
  exact (List.dropWhile_sublist _).subset (starts.subset listed)

variable {error : Error}

/-- A replay is everything since a position. -/
theorem Logs.replay_ok {events : List (Event Item)} (logs : Logs origin log)
    (replayed : origin.replay since = .ok events)
    : events = log.drop since := by
  unfold replay at replayed
  split at replayed
  · cases replayed
  rename_i within
  split at replayed
  next current =>
    cases replayed
    cases owned : origin.owned with
    | true => rw [current, logs.counted owned, List.drop_length]
    | false => rw [logs.remote owned, List.drop_nil]
  · split at replayed
    · cases replayed
    rename_i oldest rest stored
    have journal := logs.journal
    rw [stored] at journal
    have first := journal.oldest
    split at replayed
    · cases replayed
    rename_i retained
    have whole := journal.since (show log.length - (oldest :: rest).length ≤ since by omega)
    rw [whole] at replayed
    split at replayed
    · cases replayed
    rename_i first later some
    cases replayed
    exact some.symm

/-- A replay that fails is one of events that are not retained any more. -/
theorem Logs.replay_error (logs : Logs origin log) (within : since ≤ origin.position)
    (refused : origin.replay since = .error error)
    : error = .history ∧ since < origin.position
      ∧ (origin.owned = true → ¬ log.drop since <:+ origin.history) := by
  unfold replay at refused
  split at refused
  · omega
  split at refused
  · cases refused
  rename_i level
  have behind : since < origin.position := by omega
  have lost (missed : ¬ ∃ first later,
      origin.history.dropWhile (·.position ≤ since) = first :: later
      ∧ first.position = since + 1)
      (owned : origin.owned = true)
      : ¬ log.drop since <:+ origin.history := by
    intro kept
    have counted := logs.counted owned
    exact missed (logs.journal.next_of_suffix kept (by omega))
  split at refused
  next nothing =>
    cases refused
    refine ⟨rfl, behind, lost ?_⟩
    rintro ⟨first, later, found, _⟩
    rw [nothing] at found
    cases found
  rename_i oldest rest stored
  split at refused
  next short =>
    cases refused
    refine ⟨rfl, behind, lost ?_⟩
    rintro ⟨first, later, found, next⟩
    rw [stored, List.dropWhile_cons_of_neg (by simpa using by omega)] at found
    cases found
    omega
  · split at refused
    next nothing =>
      cases refused
      refine ⟨rfl, behind, lost ?_⟩
      rintro ⟨first, later, found, _⟩
      rw [stored, nothing] at found
      cases found
    · cases refused

def plain : Traits Bytes where
  payload := List.length
  item := 16
  name := 32
  event := 64
  binary := false

/-- A record that is published and renewed, with room for one event only. -/
def renewed : List (Task Bytes) :=
  [ .edit ⟨⟨[97], [98]⟩, [99]⟩ (some [1]) (some 1) 0 .record [],
    .edit ⟨⟨[97], [98]⟩, [99]⟩ (some [2]) (some 2) 5 .renew [[3]] ]

end Astra.Origin
