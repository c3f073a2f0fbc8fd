import Verdandi.Star.Scene

/-! A projection follows a timeline of commits that starts with the empty content at cursor
zero. What an event does to a subscriber's record is a parameter here; the events of a Scene
must act so that a subscriber with the previous record gets the new one.
-/

namespace Astra.Scene

open Support

variable {Item : Type}

def commitOf (event : Event Item) (scene : Scene Item) : Commit Bytes Item where
  version := scene.version
  change := some (event.key, event.record)
  content := scene.entries.get?

def root : Commit Bytes Item where
  version := 0
  change := none
  content := fun _ => none

variable {act : Event Item → Option Item → Option Item} {measure : Measure Item}
  {scene next : Scene Item} {timeline : List (Commit Bytes Item)}

/-- The Scene is what its timeline says. -/
abbrev Records (act : Event Item → Option Item → Option Item) (scene : Scene Item)
    (timeline : List (Commit Bytes Item))
    : Prop :=
  Recorded act Event.record Event.key Event.version scene.version scene.entries.get?
    scene.history timeline

/-- The events name the patches since a cursor. -/
abbrev Replays (act : Event Item → Option Item → Option Item) (events : List (Event Item))
    (timeline : List (Commit Bytes Item)) (since : Nat)
    : Prop :=
  Replayed act Event.record Event.key Event.version events timeline since

/-- An empty Scene records the root alone. -/
theorem Records.root (limits : Limits) : Records act { limits } [Scene.root] := by
  refine ⟨⟨by simp, nofun, trivial⟩, ⟨_, _, rfl, rfl, ?_⟩, ⟨_, .nil⟩, ?_⟩
  · funext key
    exact (Assoc.get?_empty key).symm
  · intro commit member _
    rw [List.mem_singleton.mp member]
    rfl

variable {edit : Edit Item} {event : Event Item}

/-- A change is the next commit of the timeline. -/
theorem Records.advanced (records : Records act scene timeline)
    (advanced : Advanced scene next edit event)
    (acts : act event (scene.entries.get? edit.key) = edit.record)
    : Records act next (commitOf event next :: timeline) := by
  have updated : (commitOf event next).content
      = Function.update scene.entries.get? event.key event.record := by
    funext other
    simp only [commitOf, advanced.entries, Assoc.get?_amend, Function.update_apply, advanced.key,
      advanced.record]
  have continued := records.patch (show (commitOf event next).version = _ from advanced.follows)
    advanced.stamped rfl (by rw [advanced.key, advanced.record]; exact acts) updated
    advanced.history
  rw [← advanced.follows] at continued
  exact continued

variable {since : Nat} {events : List (Event Item)}

theorem Records.replay (records : Records act scene timeline)
    (replayed : scene.replay since = .ok events)
    : Replays act events timeline since := by
  unfold Scene.replay at replayed
  split at replayed
  · cases replayed
  rename_i notAhead
  split at replayed
  next current =>
    cases replayed
    rw [current]
    exact records.replay_current
  rename_i behind
  split at replayed
  · cases replayed
  rename_i oldest rest stored
  split at replayed
  · cases replayed
  rename_i retained
  have kept := Recorded.replay records stored (show oldest.version - 1 ≤ since by omega) (by omega)
  rw [stored] at kept
  split at replayed
  · cases replayed
  rename_i first later found
  cases replayed
  rw [← found]
  exact kept

/-- A replay takes its events from the history. -/
theorem mem_history_of_replay (replayed : scene.replay since = .ok events) (member : event ∈ events)
    : event ∈ scene.history := by
  unfold Scene.replay at replayed
  split at replayed
  · cases replayed
  split at replayed
  · cases replayed
    cases member
  split at replayed
  · cases replayed
  rename_i oldest rest stored
  split at replayed
  · cases replayed
  split at replayed
  · cases replayed
  rename_i first later found
  cases replayed
  rw [← found] at member
  rw [stored]
  exact List.dropWhile_subset _ member

-- Runs of changes

/-- Everything in a Scene is good: its records, and the events of its history. -/
structure Stocked (good : Bytes → Option Item → Prop) (scene : Scene Item) : Prop where
  entries : ∀ key record, scene.entries.get? key = some record → good key (some record)
  history
    : ∀ event ∈ scene.history,
        good event.key event.record ∧ (event.data = true → event.record.isSome = true)
  word : scene.version ≤ maxWord

theorem Stocked.empty (good : Bytes → Option Item → Prop) (limits : Limits)
    : Stocked good { limits } := by
  refine ⟨fun key record found => ?_, by simp, Nat.zero_le _⟩
  rw [Assoc.get?_empty] at found
  cases found

variable {good : Bytes → Option Item → Prop}

/-- A good change keeps a Scene good. -/
theorem Stocked.advanced (stocked : Stocked good scene) (advanced : Advanced scene next edit event)
    (fit : good edit.key edit.record)
    : Stocked good next := by
  refine ⟨fun key record found => ?_, fun other member => ?_, ?_⟩
  · rw [advanced.entries, Assoc.get?_amend] at found
    split at found
    next same =>
      rw [same, ← found]
      exact fit
    · exact stocked.entries key record found
  · rcases List.mem_append.mp (advanced.history.subset member) with old | new
    · exact stocked.history other old
    · rw [List.mem_singleton.mp new]
      refine ⟨?_, advanced.shaped⟩
      rw [advanced.key, advanced.record]
      exact fit
  · have below := stocked.word
    have open' := advanced.unexhausted
    rw [advanced.follows]
    omega

/-- What the events of good changes do to a subscriber with the previous record. -/
def Acting (act : Event Item → Option Item → Option Item) (good : Bytes → Option Item → Prop)
    : Prop :=
  ∀ event old, good event.key event.record → (∀ held, old = some held → good event.key (some held))
    → (event.data = true → event.record.isSome = true ∧ old.isSome = true)
    → act event old = event.record

/-- A run of good changes extends the timeline, one commit for each. Witness: induction over
the changes.
-/
theorem Records.commits (acting : Acting act good) {edits : List (Edit Item)}
    (records : Records act scene timeline) (stocked : Stocked good scene)
    (fit : ∀ edit ∈ edits, good edit.key edit.record)
    (committed : scene.commits measure edits = .ok (next, events))
    : Stocked good next ∧ ∃ newer, Records act next (newer ++ timeline) ∧ newer.map Commit.change
            = (edits.map fun edit => some (edit.key, edit.record)).reverse := by
  induction edits generalizing scene timeline events with
  | nil =>
      cases committed
      exact ⟨stocked, [], records, rfl⟩
  | cons edit rest ih =>
      unfold Scene.commits at committed
      split at committed
      · cases committed
      rename_i middle event first
      split at committed
      · cases committed
      rename_i last later continued
      cases committed
      have advanced := advanced_of_advance first
      have fitFirst := fit edit List.mem_cons_self
      have acts : act event (scene.entries.get? edit.key) = edit.record := by
        rw [← advanced.record]
        refine acting event _ ?_ ?_ fun only => ?_
        · rw [advanced.key, advanced.record]
          exact fitFirst
        · intro held found
          rw [advanced.key]
          exact stocked.entries edit.key held found
        · rw [advanced.record]
          exact old_of_advance first (advanced.data ▸ only)
      obtain ⟨stockedLast, newer, recorded, changes⟩ :=
        ih (records.advanced advanced acts) (stocked.advanced advanced fitFirst)
          (fun other member => fit other (List.mem_cons_of_mem _ member)) continued
      refine ⟨stockedLast, newer ++ [commitOf event middle], ?_, ?_⟩
      · rw [List.append_assoc]
        exact recorded
      · simp [changes, commitOf, advanced.key, advanced.record]

/-- A run of tasks with good changes extends the timeline. Witness: induction over the tasks.
-/
theorem Records.performs (acting : Acting act good) {tasks : List (Task Item)}
    (records : Records act scene timeline) (stocked : Stocked good scene)
    (fit : ∀ task ∈ tasks, ∀ edit ∈ task.edits, good edit.key edit.record)
    (performed : scene.performs measure tasks = .ok next)
    : Stocked good next ∧ ∃ newer, Records act next (newer ++ timeline) := by
  induction tasks generalizing scene timeline with
  | nil =>
      cases performed
      exact ⟨stocked, [], records⟩
  | cons task rest ih =>
      simp only [Scene.performs, List.foldlM_cons] at performed
      cases first : scene.perform measure task with
      | error error =>
          rw [first] at performed
          cases performed
      | ok result =>
          obtain ⟨middle, events⟩ := result
          rw [first] at performed
          obtain ⟨stockedMiddle, newer, recorded, _⟩ := records.commits acting stocked
            (fit task List.mem_cons_self) (commits_of_perform first)
          obtain ⟨stockedLast, newest, recordedLast⟩ := ih recorded stockedMiddle
            (fun other member => fit other (List.mem_cons_of_mem _ member)) performed
          rw [← List.append_assoc] at recordedLast
          exact ⟨stockedLast, _, recordedLast⟩

end Astra.Scene
