import Verdandi.Star.AlmanacTimeline

/-! Runs of one book from its creation: whole replacements and patches, as a `Receiver` makes
them of admitted records.
-/

namespace Astra.Almanac

open Support

inductive Task where
  | reset (version : Nat) (records : List (Bytes × Bytes))
  | apply (version : Nat) (key : Bytes) (value : Option Bytes) (retention : Nat)

def Draft.sets (draft : Draft) (records : List (Bytes × Bytes)) : Except Error Draft :=
  records.foldlM (fun draft record => draft.set record.1 record.2) draft

/-- Perform a task; one at or below the installed version changes nothing. -/
def perform (book : Almanac) : Task → Except Error Almanac
  | .reset version records =>
      match (book.prepare version).sets records with
      | .error error => .error error
      | .ok draft =>
          match book.reset draft with
          | .error error => .error error
          | .ok none => .ok book
          | .ok (some next) => .ok next
  | .apply version key value retention =>
      match book.apply version key value retention with
      | .error error => .error error
      | .ok none => .ok book
      | .ok (some (next, _)) => .ok next

def performs (book : Almanac) (tasks : List Task) : Except Error Almanac :=
  tasks.foldlM perform book

variable {good : Bytes → Option Bytes → Prop}

/-- The records of a task are good, and its version is a machine word. -/
def Task.Good (good : Bytes → Option Bytes → Prop) : Task → Prop
  | .reset version records =>
      version ≤ maxWord ∧ ∀ record ∈ records, good record.1 (some record.2)
  | .apply version key value _ => version ≤ maxWord ∧ good key value

structure Stocked (good : Bytes → Option Bytes → Prop) (book : Almanac) : Prop where
  entries : ∀ key value, book.state.entries.get? key = some value → good key (some value)
  history : ∀ change ∈ book.history, good change.name change.value
  word : book.state.version ≤ maxWord

structure Standing (book : Almanac) (timeline : List (Commit Bytes Bytes)) : Prop where
  installed : book.ready = true → Records book timeline
  created : book.ready = false → timeline = [] ∧ book.history = []

variable {draft : Draft}

/-- A filled candidate has good records, and none at version zero. Witness: induction over the
records.
-/
theorem Draft.sets_ok {next : Draft} {records : List (Bytes × Bytes)}
    (fit : ∀ record ∈ records, good record.1 (some record.2))
    (entries : ∀ key value, draft.state.entries.get? key = some value → good key (some value))
    (rooted : draft.state.version = 0 → draft.state.entries = ∅)
    (filled : draft.sets records = .ok next)
    : next.state.version = draft.state.version
      ∧ (∀ key value, next.state.entries.get? key = some value → good key (some value))
      ∧ (next.state.version = 0 → next.state.entries = ∅) := by
  induction records generalizing draft with
  | nil =>
      cases filled
      exact ⟨rfl, entries, rooted⟩
  | cons record rest ih =>
      simp only [Draft.sets, List.foldlM_cons] at filled
      cases first : draft.set record.1 record.2 with
      | error error =>
          rw [first] at filled
          cases filled
      | ok middle =>
          rw [first] at filled
          obtain ⟨version, _, set', _⟩ := Draft.set_ok first
          have positive := Draft.version_of_set first
          obtain ⟨same, kept, empty⟩ := ih
            (fun other member => fit other (List.mem_cons_of_mem _ member))
            (fun key value found => by
              rw [set', Assoc.get?_set] at found
              split at found
              next isKey =>
                cases found
                rw [isKey]
                exact fit record List.mem_cons_self
              · exact entries key value found)
            (fun zero => absurd (version.symm.trans zero) positive) filled
          exact ⟨same.trans version, kept, empty⟩

variable {book next : Almanac} {timeline : List (Commit Bytes Bytes)}

theorem Standing.created_book (limits : Limits) : Standing { limits } [] :=
  ⟨nofun, fun _ => ⟨rfl, rfl⟩⟩

theorem Stocked.created_book (good : Bytes → Option Bytes → Prop) (limits : Limits)
    : Stocked good { limits } := by
  refine ⟨fun key value found => ?_, by simp, Nat.zero_le _⟩
  rw [Assoc.get?_empty] at found
  cases found

/-- A replacement starts anew on top of the timeline. -/
theorem Standing.replaced (standing : Standing book timeline)
    (rooted : draft.state.version = 0 → draft.state.entries = ∅)
    (installed : book.reset draft = .ok (some next))
    : Standing next (commitOf ⟨none, none, next.state.version⟩ next.state :: timeline) := by
  obtain ⟨state, ready, history, _, _, newer⟩ := reset_some installed
  have empty : next.state.version = 0 → next.state.entries = ∅ := by
    rw [state]
    exact rooted
  refine ⟨fun _ => ?_, fun unready => absurd (ready.symm.trans unready) (by decide)⟩
  cases isReady : book.ready with
  | false =>
      rw [(standing.created isReady).1]
      exact records_reset rfl ready history trivial (by simp [Timeline.Rooted]) (by simp) empty
  | true =>
      have records := standing.installed isReady
      refine records_reset rfl ready history records.valid records.rooted ?_ empty
      intro commit member
      have bounded := Timeline.le_version records.valid member
      have above := newer isReady
      rw [records.version] at bounded
      rw [state]
      omega

theorem Stocked.patched {version : Nat} {key : Bytes} {value : Option Bytes} {change : Change}
    (stocked : Stocked good book) (patched : Patched book next version key value change)
    (word : version ≤ maxWord) (fit : good key value)
    : Stocked good next := by
  refine ⟨fun other held found => ?_, fun other member => ?_, ?_⟩
  · rw [patched.entries, Assoc.get?_amend] at found
    split at found
    next same =>
      rw [same, ← found]
      exact fit
    · exact stocked.entries other held found
  · rcases List.mem_append.mp (patched.history.subset member) with old | new
    · exact stocked.history other old
    · rw [List.mem_singleton.mp new, patched.committed]
      exact fit
  · rw [patched.advanced]
    exact word

/-- A task of good records keeps a book good and extends its timeline. -/
theorem Standing.perform {task : Task} (standing : Standing book timeline)
    (stocked : Stocked good book) (fit : task.Good good)
    (performed : book.perform task = .ok next)
    : Stocked good next ∧ ∃ newer, Standing next (newer ++ timeline) := by
  cases task with
  | reset version records =>
      simp only [Almanac.perform] at performed
      split at performed
      · cases performed
      rename_i draft filled
      split at performed
      · cases performed
      · cases performed
        exact ⟨stocked, [], standing⟩
      rename_i installed
      cases performed
      obtain ⟨same, entries, rooted⟩ := Draft.sets_ok fit.2 (by simp [prepare])
        (fun _ => rfl) filled
      obtain ⟨state, _, history, _⟩ := reset_some installed
      refine ⟨⟨?_, by simp [history], ?_⟩, [_], standing.replaced rooted installed⟩
      · rw [state]
        exact entries
      · rw [state, same]
        exact fit.1
  | apply version key value retention =>
      simp only [Almanac.perform] at performed
      split at performed
      · cases performed
      · cases performed
        exact ⟨stocked, [], standing⟩
      rename_i change committed
      cases performed
      have patched := apply_some committed
      have recorded := (standing.installed patched.wasReady).patched patched
      exact ⟨stocked.patched patched fit.1 fit.2, [_], fun _ => recorded,
        fun unready => absurd (patched.isReady.symm.trans unready) (by decide)⟩

/-- A run of tasks keeps a book good and extends its timeline. Witness: induction over the
tasks.
-/
theorem Standing.performs {tasks : List Task} (standing : Standing book timeline)
    (stocked : Stocked good book) (fit : ∀ task ∈ tasks, task.Good good)
    (performed : book.performs tasks = .ok next)
    : Stocked good next ∧ ∃ newer, Standing next (newer ++ timeline) := by
  induction tasks generalizing book timeline with
  | nil =>
      cases performed
      exact ⟨stocked, [], standing⟩
  | cons task rest ih =>
      simp only [Almanac.performs, List.foldlM_cons] at performed
      cases first : book.perform task with
      | error error =>
          rw [first] at performed
          cases performed
      | ok middle =>
          rw [first] at performed
          obtain ⟨stockedMiddle, newer, standingMiddle⟩ := standing.perform stocked
            (fit task List.mem_cons_self) first
          obtain ⟨stockedLast, newest, standingLast⟩ := ih standingMiddle stockedMiddle
            (fun other member => fit other (List.mem_cons_of_mem _ member)) performed
          rw [← List.append_assoc] at standingLast
          exact ⟨stockedLast, _, standingLast⟩

end Astra.Almanac
