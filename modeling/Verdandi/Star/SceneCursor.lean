import Verdandi.Star.Scene
import Verdandi.Support.Journal
import Verdandi.Support.Run

/-! The cursor of a Scene counts its changes, and a replay from a cursor returns all changes
since then or none.
-/

namespace Astra.Scene

open Support

variable {Item : Type}

def Event.apply (content : Bytes → Option Item) (event : Event Item) : Bytes → Option Item :=
  Function.update content event.key event.record

def contentOf (edits : List (Edit Item)) : Bytes → Option Item :=
  edits.foldl (fun content edit => Function.update content edit.key edit.record) fun _ => none

/-- A Scene that has done these changes: its log has one event for each, numbered from one, and
its content is what they lead to.
-/
structure Logs (scene : Scene Item) (edits : List (Edit Item)) (log : List (Event Item))
    : Prop where
  journal : Journal Event.version log scene.history
  events
    : log.map (fun event => (event.key, event.record))
      = edits.map fun edit => (edit.key, edit.record)
  version : scene.version = log.length
  content : scene.entries.get? = contentOf edits

variable {measure : Measure Item} {scene next : Scene Item} {edits : List (Edit Item)}
  {log : List (Event Item)}

theorem Logs.empty (limits : Limits) : Logs ({ limits } : Scene Item) [] [] := by
  refine ⟨.empty, rfl, rfl, ?_⟩
  funext key
  exact Assoc.get?_empty key

/-- A change is the next item of the log. -/
theorem Logs.advanced {edit : Edit Item} {event : Event Item} (logs : Logs scene edits log)
    (advanced : Advanced scene next edit event)
    : Logs next (edits ++ [edit]) (log ++ [event]) := by
  constructor
  · refine logs.journal.push ?_ advanced.history
    rw [advanced.stamped, advanced.follows, logs.version]
  · simp [logs.events, advanced.key, advanced.record]
  · rw [advanced.follows, logs.version, List.length_append, List.length_singleton]
  · funext other
    rw [advanced.entries, Assoc.get?_amend, logs.content, contentOf, contentOf,
      List.foldl_append, List.foldl_cons, List.foldl_nil, Function.update_apply]

variable {events : List (Event Item)}

/-- Changes one after the other are logged in order. Witness: induction over the changes. -/
theorem Logs.commits {more : List (Edit Item)} (logs : Logs scene edits log)
    (committed : scene.commits measure more = .ok (next, events))
    : Logs next (edits ++ more) (log ++ events) := by
  induction more generalizing scene edits log events with
  | nil =>
      cases committed
      rw [List.append_nil, List.append_nil]
      exact logs
  | cons edit rest ih =>
      unfold Scene.commits at committed
      split at committed
      · cases committed
      rename_i middle event first
      split at committed
      · cases committed
      rename_i last later continued
      cases committed
      have logged := ih (logs.advanced (advanced_of_advance first)) continued
      rwa [List.append_assoc, List.append_assoc] at logged

variable {tasks : List (Task Item)}

/-- Tasks are logged in order. Witness: induction over the tasks. -/
theorem Logs.performs (logs : Logs scene edits log)
    (performed : scene.performs measure tasks = .ok next)
    : ∃ events, Logs next (edits ++ tasks.flatMap Task.edits) (log ++ events) := by
  induction tasks generalizing scene edits log with
  | nil =>
      cases performed
      exact ⟨[], by simpa using logs⟩
  | cons task rest ih =>
      simp only [Scene.performs, List.foldlM_cons] at performed
      cases first : scene.perform measure task with
      | error error =>
          rw [first] at performed
          cases performed
      | ok result =>
          rw [first] at performed
          obtain ⟨events, logged⟩ := ih (logs.commits (commits_of_perform first)) performed
          refine ⟨result.2 ++ events, ?_⟩
          simpa using logged

/-- Applying the events from a cursor leads to the content of all changes. -/
theorem Logs.apply_drop (logs : Logs scene edits log) (since : Nat)
    : (log.drop since).foldl Event.apply (contentOf (edits.take since)) = scene.entries.get? := by
  have events := congrArg (List.drop since) logs.events
  rw [← List.map_drop, ← List.map_drop] at events
  have folded (list : List (Event Item)) (content : Bytes → Option Item)
      : list.foldl Event.apply content = (list.map fun event => (event.key, event.record)).foldl
            (fun content pair => Function.update content pair.1 pair.2) content := by
    rw [List.foldl_map]
    rfl
  rw [folded, events, List.foldl_map, logs.content, contentOf, contentOf, ← List.foldl_append,
    List.take_append_drop]

variable {since : Nat}

/-- A replay is everything since its cursor. -/
theorem Logs.replay_ok (logs : Logs scene edits log) (replayed : scene.replay since = .ok events)
    : since ≤ scene.version ∧ events = log.drop since := by
  unfold Scene.replay at replayed
  split at replayed
  · cases replayed
  rename_i within
  refine ⟨by omega, ?_⟩
  split at replayed
  next current =>
    cases replayed
    rw [current, logs.version, List.drop_length]
  · split at replayed
    · cases replayed
    rename_i oldest rest stored
    have journal := logs.journal
    rw [stored] at journal
    have first := journal.oldest
    split at replayed
    · cases replayed
    rename_i retained
    have whole := journal.since (show log.length - (oldest :: rest).length ≤ since by omega)
    rw [whole] at replayed
    split at replayed
    · cases replayed
    rename_i first later some
    cases replayed
    exact some.symm

/-- A replay that fails is asked for what is ahead, or what is not retained any more. -/
theorem replay_error {error : Error} (refused : scene.replay since = .error error)
    : (error = .version ∧ scene.version < since) ∨ (error = .history ∧ since < scene.version) := by
  unfold Scene.replay at refused
  split at refused
  next ahead =>
    cases refused
    exact .inl ⟨rfl, ahead⟩
  rename_i within
  split at refused
  · cases refused
  rename_i behind
  have history : since < scene.version := by omega
  split at refused
  · cases refused
    exact .inr ⟨rfl, history⟩
  · split at refused
    · cases refused
      exact .inr ⟨rfl, history⟩
    · split at refused
      · cases refused
        exact .inr ⟨rfl, history⟩
      · cases refused

/-- For every run of single changes and batches, the cursor has counted every change, and a
replay returns the changes since a cursor, numbered on from it, which lead from the content at
that cursor to the current one; otherwise it fails, ahead of the cursor with `version`, and with
`history` where the changes are not retained any more.
-/
theorem cursor_law {limits : Limits}
    (performed : ({ limits } : Scene Item).performs measure tasks = .ok scene) (since : Nat)
    : scene.version = (tasks.flatMap Task.edits).length
      ∧ scene.entries.get? = contentOf (tasks.flatMap Task.edits)
      ∧ match scene.replay since with
        | .ok events =>
            since ≤ scene.version
            ∧ events.map Event.version = List.range' (since + 1) (scene.version - since)
            ∧ events.foldl Event.apply (contentOf ((tasks.flatMap Task.edits).take since))
              = scene.entries.get?
        | .error error =>
            (error = .version ∧ scene.version < since)
            ∨ (error = .history ∧ since < scene.version) := by
  obtain ⟨log, logs⟩ := (Logs.empty limits).performs performed
  rw [List.nil_append, List.nil_append] at logs
  have length := congrArg List.length logs.events
  rw [List.length_map, List.length_map] at length
  refine ⟨logs.version.trans length, logs.content, ?_⟩
  split
  next events replayed =>
    obtain ⟨within, rfl⟩ := logs.replay_ok replayed
    refine ⟨within, ?_, logs.apply_drop since⟩
    rw [logs.journal.drop_numbered, logs.version]
  next error refused => exact replay_error refused

def charge : Measure Bytes where
  payload := List.length
  item := 16
  name := 32
  event := 64

def again : List (Task Bytes) :=
  [.single { key := [97], record := some [1] }, .batch [{ key := [97], record := some [1] }]]

theorem cursor_law_again
    : ∃ scene : Scene Bytes, ({} : Scene Bytes).performs charge again = .ok scene
        ∧ scene.version = 2
        ∧ scene.entries.get? = contentOf (again.flatMap Task.edits) := by
  have done : (({} : Scene Bytes).performs charge again).toOption.isSome = true := by decide
  cases performed : ({} : Scene Bytes).performs charge again with
  | error error =>
      rw [performed] at done
      cases done
  | ok scene =>
      obtain ⟨version, content, _⟩ := cursor_law performed 0
      exact ⟨scene, rfl, version, content⟩

/-- A change to the same record advances the cursor, though the content stays. -/
theorem cursor_of_same_content
    : ∃ before after : Scene Bytes, ({} : Scene Bytes).performs charge (again.take 1) = .ok before
        ∧ before.performs charge (again.drop 1) = .ok after
        ∧ after.entries.get? = before.entries.get?
        ∧ after.version ≠ before.version := by
  have done : ((({} : Scene Bytes).performs charge (again.take 1)).toOption.bind fun before =>
      (before.performs charge (again.drop 1)).toOption).isSome = true := by decide
  obtain ⟨after, found⟩ := Option.isSome_iff_exists.mp done
  obtain ⟨before, first, second⟩ := Option.bind_eq_some_iff.mp found
  have created := ok_of_toOption first
  have changed := ok_of_toOption second
  obtain ⟨log, logs⟩ := (Logs.empty {}).performs created
  obtain ⟨more, logged⟩ := logs.performs changed
  have once := congrArg List.length logs.events
  have twice := congrArg List.length logged.events
  simp only [List.length_map] at once twice
  refine ⟨before, after, created, changed, ?_, ?_⟩
  · rw [logs.content, logged.content]
    simp [again, Task.edits, contentOf]
  · rw [logs.version, logged.version, twice, once]
    decide

end Astra.Scene
