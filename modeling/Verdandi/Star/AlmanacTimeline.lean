import Verdandi.Star.Edition
import Verdandi.Star.Library
import Verdandi.Support.Copy
import Verdandi.Support.History

/-! An Almanac follows a timeline of commits: its content is the newest one, and its history
names the newest patches without a gap, so a successful replay covers everything since the
requested version.
-/

namespace Astra

open Support

namespace Almanac

def commitOf (change : Change) (state : State) : Commit Bytes Bytes where
  version := state.version
  change := change.key.map fun key => (key, change.value)
  content := state.entries.get?

def Change.act (change : Change) (_ : Option Bytes) : Option Bytes :=
  change.value

structure Records (book : Almanac) (timeline : List (Commit Bytes Bytes)) : Prop where
  ready : book.ready = true
  recorded
    : Recorded Change.act Change.value Change.name Change.version book.state.version
        book.state.entries.get? book.history timeline

section

variable {book next : Almanac} {timeline : List (Commit Bytes Bytes)}

theorem Records.valid (records : Records book timeline) : Timeline.Valid timeline :=
  records.recorded.valid

theorem Records.rooted (records : Records book timeline) : Timeline.Rooted timeline :=
  records.recorded.rooted

theorem Records.version (records : Records book timeline)
    : Timeline.version timeline = book.state.version :=
  records.recorded.version_eq

theorem Records.content (records : Records book timeline)
    : Timeline.contentAt timeline book.state.version = book.state.entries.get? :=
  records.recorded.contentAt_eq

variable {change : Change}

/-- A committed patch is the next commit of the timeline. -/
theorem Records.patched {version : Nat} {key : Bytes} {value : Option Bytes}
    (records : Records book timeline) (patched : Patched book next version key value change)
    : Records next (commitOf change next.state :: timeline) := by
  have newer : next.state.version = book.state.version + 1 :=
    patched.advanced.trans patched.follows
  have noted : change.name = key ∧ change.value = value ∧ change.version = version := by
    rw [patched.committed]
    exact ⟨rfl, rfl, rfl⟩
  have named : (commitOf change next.state).change = some (change.name, change.value) := by
    simp [commitOf, Change.name, patched.committed]
  have updated : (commitOf change next.state).content
      = Function.update book.state.entries.get? change.name change.value := by
    funext other
    simp only [commitOf, patched.entries, Assoc.get?_amend, Function.update_apply, noted.1, noted.2.1]
  have continued := records.recorded.patch (show (commitOf change next.state).version = _ from newer)
    (noted.2.2.trans patched.advanced.symm) named rfl updated patched.history
  rw [← newer] at continued
  exact ⟨patched.isReady, continued⟩

/-- An installed candidate starts the history anew on top of the timeline. -/
theorem records_reset (whole : change.key = none) (ready : next.ready = true)
    (history : next.history = []) (valid : Timeline.Valid timeline)
    (rooted : Timeline.Rooted timeline)
    (newer : ∀ commit ∈ timeline, commit.version < next.state.version)
    (empty : next.state.version = 0 → next.state.entries = ∅)
    : Records next (commitOf change next.state :: timeline) := by
  refine ⟨ready, ?_⟩
  rw [history]
  refine Recorded.replace valid rooted ?_ (show ∀ commit ∈ timeline,
    commit.version < (commitOf change next.state).version from newer) fun isZero => ?_
  · simp [commitOf, whole]
  · funext key
    simp [commitOf, empty isZero]

variable {since version : Nat} {changes : List Change}

/-- Only an installed book is replayed. -/
theorem ready_of_replay (replayed : book.replay since = .ok (version, changes))
    : book.ready = true := by
  unfold Almanac.replay at replayed
  split at replayed
  · cases replayed
  next ready => simpa using ready

/-- A replay takes its changes from the history. -/
theorem mem_history_of_replay (replayed : book.replay since = .ok (version, changes))
    (member : change ∈ changes)
    : change ∈ book.history := by
  unfold Almanac.replay at replayed
  split at replayed
  · cases replayed
  split at replayed
  · cases replayed
  split at replayed
  · cases replayed
    cases member
  split at replayed
  · cases replayed
  rename_i oldest rest stored
  split at replayed
  · cases replayed
  · cases replayed
    rw [stored]
    exact List.dropWhile_subset _ member

/-- A successful replay reaches the installed version and names the patches on the way. -/
theorem Records.replay (records : Records book timeline)
    (replayed : book.replay since = .ok (version, changes))
    : version = book.state.version
      ∧ Replayed Change.act Change.value Change.name Change.version changes timeline since := by
  unfold Almanac.replay at replayed
  split at replayed
  · cases replayed
  split at replayed
  · cases replayed
  rename_i notAhead
  split at replayed
  next current =>
    cases replayed
    rw [current]
    exact ⟨rfl, records.recorded.replay_current⟩
  rename_i behind
  split at replayed
  · cases replayed
  rename_i oldest rest stored
  split at replayed
  · cases replayed
  rename_i retained
  cases replayed
  rw [← stored]
  exact ⟨rfl, records.recorded.replay stored (show oldest.version - 1 ≤ since by omega) (by omega)⟩

/-- The last change of a key is the only one that matters. -/
theorem mergeable_latest
    : Mergeable Change.act Change.value Change.version fun _ latest => latest :=
  ⟨fun _ _ _ => rfl, fun _ _ _ _ => rfl, fun _ _ _ _ => rfl, fun _ _ => rfl, fun _ _ => rfl⟩

/-- The content after a replay, key by key: the final change of the key, or what it had. -/
theorem Records.settled (records : Records book timeline)
    (replayed : Replayed Change.act Change.value Change.name Change.version changes timeline since)
    (key : Bytes)
    : book.state.entries.get? key
      = (Edition.final changes key).elim (Timeline.contentAt timeline since key) Change.value := by
  have settled := replayed.settled mergeable_latest records.valid records.rooted key
  rw [records.version, records.content] at settled
  exact settled

/-- A replayed batch leads from the requested version to the installed one. -/
theorem Records.leads (records : Records book timeline)
    (replayed : Replayed Change.act Change.value Change.name Change.version changes timeline since)
    (target : Bytes) (capacity : Nat)
    : overlay Edition.act (Edition.ofReplay book.state.version changes target capacity).data.rows
        (restrict (Paging.concerns target) (Timeline.contentAt timeline since))
      = restrict (Paging.concerns target) (Timeline.contentAt timeline book.state.version) := by
  have ordered : Edition.Ordered changes :=
    fun key => (replayed.ascending records.valid).filter _
  refine (Edition.ofReplay_listed ordered).leads ?_ ?_
  · intro key row found
    unfold Edition.finalRow at found
    split at found
    next relevant => exact relevant
    · cases found
  · intro key relevant
    rw [records.content, records.settled replayed, Edition.finalRow, if_pos relevant]
    cases Edition.final changes key <;> rfl

/-- A whole view is the content at its version. -/
theorem overlay_ofView (records : Records book timeline)
    : overlay Edition.act (Edition.ofView book.state).data.rows (fun _ => none)
      = restrict (Paging.concerns []) (Timeline.contentAt timeline book.state.version) := by
  rw [records.content]
  exact (Edition.ofView_listed book.state).whole fun _ => rfl

/-- A point is the content of its key at its version. -/
theorem overlay_ofPoint (records : Records book timeline) {target : Bytes} (precise : target ≠ [])
    : overlay Edition.act
        (Edition.ofPoint target book.state.version (book.state.entries.get? target)).data.rows
        (fun _ => none)
      = restrict (Paging.concerns target) (Timeline.contentAt timeline book.state.version) := by
  rw [records.content]
  exact (Edition.ofPoint_listed precise _ book.state.entries.get?).whole fun _ => rfl

end

end Almanac

end Astra
