import Verdandi.Star.Readout.Model

/-! What the routing table and the downlink keep together: every book is what its timeline
says, and every stream follows the timeline of its Scope.
-/

namespace Astra.Readout

open Support Proto Watch

-- Meaning

/-- A client that applies a page: the mode, the rows and the end of the batch. -/
def format : Format AlmanacWatchReply Bytes (Option Bytes) where
  page reply :=
    { reset := reply.mode == .reset
      rows := reply.changes.map fun change => (change.key, change.payload)
      complete := reply.complete }
  stamp := WatchReply.version

def meaning : Meaning Almanac.Change Edition AlmanacWatchReply (Option Bytes) Bytes where
  act := Edition.act
  row := Almanac.Change.value
  final := Almanac.Change.value
  format := format
  reset edition := edition.mode == .reset
  remaining := Edition.remaining

theorem mergeable : Mergeable meaning.effect meaning.final kind.version kind.merge :=
  Almanac.mergeable_latest

theorem concerns_eq (stream : Stream) : stream.concerns = Paging.concerns stream.target := rfl

variable {edition : Edition} {own : Bytes}

theorem taken_of_next {after : Edition} {page : AlmanacWatchReply}
    (produced : edition.next own = .ok (after, page))
    : Taken kind meaning edition after page := by
  have paged := Edition.next_paged produced
  refine ⟨paged.open', paged.rows, paged.version, ?_, ?_, paged.finished, paged.exhausted,
    paged.named⟩
  · simp [meaning, paged.mode.1]
  · simp [meaning, format, paged.mode.2]

/-- A batch of changes that has not been paged yet. -/
theorem ofReplay_fields (version : Nat) (changes : List Almanac.Change) (target : Bytes)
    (capacity : Nat)
    : let edition := Edition.ofReplay version changes target capacity
      edition.version = version ∧ edition.complete = false ∧ edition.mode = .apply
        ∧ edition.offset = 0 := by
  unfold Edition.ofReplay
  split
  · split <;> exact ⟨rfl, rfl, rfl, rfl⟩
  · exact ⟨rfl, rfl, rfl, rfl⟩

-- The batch made from a suffix

variable {stream : Stream}

/-- A handed over suffix leads from the cursor to its version. Witness: the suffix has one
event for each key, so the final event of a key is the one it has.
-/
theorem leads_replayed {full : List (Commit Bytes Bytes)} {pending : Assoc Bytes Almanac.Change}
    {version : Nat} (capacity : Nat) (built : Built kind meaning full stream pending version)
    : overlay meaning.act (meaning.remaining (replayed stream pending version capacity))
        (restrict stream.concerns (Timeline.contentAt full stream.cursor))
      = restrict stream.concerns (Timeline.contentAt full version) := by
  have named : ∀ key change, pending.get? key = some change → change.name = key := by
    intro key change found
    have name : change.key = some key := built.named key change found
    simp [Almanac.Change.name, name]
  have byKey (key : Bytes) := pending.filter_values (stream.cursor < ·.version) named key
  have ordered : Edition.Ordered
      ((pending.toPairs.map Prod.snd).filter (stream.cursor < ·.version)) := by
    intro key
    rw [byKey]
    cases (pending.get? key).filter (stream.cursor < ·.version) <;> simp
  have listed : Listed (replayed stream pending version capacity).data.rows _ :=
    Edition.ofReplay_listed ordered
  have rows : meaning.remaining (replayed stream pending version capacity)
      = (replayed stream pending version capacity).data.rows := by
    change (replayed stream pending version capacity).data.rows.drop _ = _
    rw [replayed, (ofReplay_fields version _ stream.target capacity).2.2.2, List.drop_zero]
  rw [rows]
  refine built.leads ⟨listed.distinct, fun key row => ?_⟩
  rw [listed.exact, Edition.finalRow, Edition.final, merged_of_filter (byKey key)]
  split
  · rfl
  rename_i irrelevant
  cases found : (pending.get? key).filter (stream.cursor < ·.version) with
  | none =>
      rw [show (pending.get? key).filter (stream.cursor < kind.version ·) = none from found]
      simp
  | some change =>
      exact absurd (built.relevant key change (Option.filter_eq_some_iff.mp found).1) irrelevant

-- The first batch

/-- A routed book is what its timeline says; an unrouted Scope has no commits. -/
def Recorded (routed : Option Library.Book) (timeline : List (Commit Bytes Bytes)) : Prop :=
  match routed with
  | none => timeline = []
  | some book => Almanac.Records book.almanac timeline

/-- A captured batch is what the timeline was at some version at or above all announced ones:
the whole content, or the changes since the requested version.
-/
structure Captured (own : Bytes) (timeline told : List (Commit Bytes Bytes)) (stream : Stream)
    (edition : Edition) (since : Option Nat)
    : Prop where
  incomplete : kind.complete edition = false
  ahead : Timeline.version told ≤ kind.through edition
  underway
    : Underway meaning.act meaning.format timeline stream.concerns since []
        (meaning.reset edition) (meaning.remaining edition) (kind.through edition)
  known
    : ∀ version, since = some version → version ≤ Timeline.version timeline
        ∧ stream.requested = some version
        ∧ stream.instance = own

theorem captured_of_initial {library : Library} {capacity : Nat} {stage : Stage}
    {timeline told : List (Commit Bytes Bytes)} {since : Option Nat}
    (recorded : Recorded (library.books.get? stream.scope) timeline) (suffix : told <:+ timeline)
    (read : initial library own stream capacity stage = some (.captured edition since))
    : Captured own timeline told stream edition since := by
  unfold initial at read
  cases routed : library.books.get? stream.scope with
  | none =>
      rw [routed] at read recorded
      subst recorded
      cases stage with
      | locating =>
          dsimp only at read
          split at read
          · cases read
          · cases read
            rw [List.suffix_nil.mp suffix]
            refine ⟨rfl, Nat.le_refl _, .fresh (Nat.le_refl _) ?_, nofun⟩
            funext key
            simp [meaning, Edition.remaining, Edition.Data.rows, restrict, Timeline.contentAt]
      | _ => cases read
  | some book =>
      rw [routed] at read recorded
      have records : Almanac.Records book.almanac timeline := recorded
      have ahead : Timeline.version told ≤ book.almanac.state.version := by
        rw [← records.version]
        exact Timeline.version_le_of_suffix records.valid suffix
      cases stage with
      | locating => cases read
      | checking =>
          dsimp only at read
          split at read
          · cases read
          · split at read <;> cases read
      | replaying =>
          dsimp only at read
          split at read
          · cases read
          rename_i base resumable
          split at read
          · cases read
          rename_i version changes replayed
          cases read
          obtain ⟨reached, kept⟩ := records.replay replayed
          subst reached
          obtain ⟨requested, same⟩ := Option.filter_eq_some_iff.mp resumable
          obtain ⟨through, incomplete, mode, offset⟩ :=
            ofReplay_fields book.almanac.state.version changes stream.target capacity
          have within : book.almanac.state.version ≤ Timeline.version timeline := by
            rw [records.version]
          refine ⟨incomplete, ?_, ?_, ?_⟩
          · change _ ≤ (Edition.ofReplay _ changes stream.target capacity).version
            rw [through]
            exact ahead
          · have leads := records.leads kept stream.target capacity
            have ordered : base ≤ book.almanac.state.version := by
              rw [← records.version]
              exact kept.within
            have underway : Underway meaning.act meaning.format timeline stream.concerns
                (some base) [] false
                (Edition.ofReplay _ changes stream.target capacity).data.rows
                book.almanac.state.version :=
              .resumed rfl ordered within (kept.patched records.valid) leads
            simp only [meaning, kind, Edition.remaining, through, mode, offset, List.drop_zero]
            exact underway
          · intro came equal
            cases equal
            exact ⟨kept.within, requested, by simpa using same⟩
      | reading =>
          dsimp only at read
          have current : book.almanac.state.version ≤ Timeline.version timeline := by
            rw [records.version]
          split at read
          next precise =>
            split at read
            · cases read
            rename_i version value found
            cases read
            unfold Almanac.find at found
            split at found
            · cases found
            split at found
            · cases found
            · cases found
              refine ⟨rfl, ahead, .fresh current ?_, nofun⟩
              rw [concerns_eq]
              exact Almanac.overlay_ofPoint records precise
          rename_i whole
          split at read
          · cases read
          rename_i view found
          cases read
          unfold Almanac.view at found
          split at found
          · cases found
            refine ⟨rfl, ahead, .fresh current ?_, nofun⟩
            have whole : stream.target = [] := by simpa using whole
            rw [concerns_eq, whole]
            exact Almanac.overlay_ofView records
          · cases found

end Astra.Readout
