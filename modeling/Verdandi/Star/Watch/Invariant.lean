import Verdandi.Star.Watch.Model
import Verdandi.Support.Collected

/-! What every stream keeps while commits are announced: its suffix covers all that was
announced since its baseline, and the pages it has sent lead to the content at the version of
its batch.
-/

namespace Astra.Watch

open Support Progress

structure Meaning (Item Edition Reply Row V : Type) where
  act : Row → Option V → Option V
  row : Item → Row
  final : Item → Option V
  format : Format Reply Bytes Row
  reset : Edition → Bool
  remaining : Edition → List (Bytes × Row)

variable {Item Edition Stage Reply Row V : Type}

def Meaning.effect (meaning : Meaning Item Edition Reply Row V) (item : Item)
    : Option V → Option V :=
  meaning.act (meaning.row item)

section

variable (kind : Kind Item Edition) (meaning : Meaning Item Edition Reply Row V)
  (own : Bytes) (group : Group) (full told : List (Commit Bytes V))
  (stream : Stream Item Edition Stage Reply)

def shown : List (Sent Reply) :=
  match stream.phase with
  | .accepting page => stream.sent ++ [{ reply := page, through := stream.baseline kind }]
  | _ => stream.sent

def Low (low : Nat) : Prop :=
  match stream.phase with
  | .building _ version => low = version
  | .pruning => low ≤ stream.baseline kind
  | _ => if stream.started then low = stream.baseline kind else low ≤ Timeline.version told

def Position : Prop :=
  match stream.edition with
  | none =>
      if stream.started then
        Reached meaning.act meaning.format full stream.concerns stream.since
          (shown kind stream) stream.cursor
      else
        shown kind stream = []
  | some edition =>
      if kind.complete edition then
        Reached meaning.act meaning.format full stream.concerns stream.since
          (shown kind stream) (kind.through edition)
      else
        Underway meaning.act meaning.format full stream.concerns stream.since
          (shown kind stream) (meaning.reset edition) (meaning.remaining edition)
          (kind.through edition)

structure Built (pending : Assoc Bytes Item) (version : Nat) : Prop where
  ordered : stream.cursor ≤ version
  within : version ≤ Timeline.version full
  patched : Timeline.Patched full stream.cursor version
  named : ∀ key item, pending.get? key = some item → kind.name item = some key
  relevant : ∀ key item, pending.get? key = some item → stream.concerns key = true
  settled
    : ∀ key, stream.concerns key = true → Timeline.contentAt full version key
        = match (pending.get? key).filter (stream.cursor < kind.version ·) with
          | none => Timeline.contentAt full stream.cursor key
          | some item => meaning.effect item (Timeline.contentAt full stream.cursor key)

structure Live : Prop where
  named : ∀ key item, stream.pending.get? key = some item → kind.name item = some key
  suffix
    : stream.overflow = false → ∃ low,
          Collected meaning.effect kind.version stream.pending.get? told
            (stream.concerns · = true) low
          ∧ Heard group told low
          ∧ Low kind told stream low
  position : Position kind meaning full stream
  follows
    : Follows meaning.act meaning.format full stream.concerns stream.since (shown kind stream)
  begun
    : stream.started = false → stream.phase = .idle ∨ ∃ stage, stream.phase = .capturing stage
  capturing : ∀ stage, stream.phase = .capturing stage → stream.started = false
  building
    : ∀ pending version, stream.phase = .building pending version
      → stream.edition = none ∧ Built kind meaning full stream pending version

structure Sound : Prop where
  follows
    : Follows meaning.act meaning.format full stream.concerns stream.since stream.sent
  known
    : ∀ version, stream.since = some version → version ≤ Timeline.version full
        ∧ stream.requested = some version
        ∧ stream.instance = own
  unstarted
    : stream.started = false → stream.edition = none ∧ stream.sent = [] ∧ stream.since = none
  active : stream.phase ≠ .idle → stream.ended = none
  live : stream.ended = none → Live kind meaning group full told stream

end

variable {kind : Kind Item Edition} {meaning : Meaning Item Edition Reply Row V}
  {own : Bytes} {group : Group} {full told : List (Commit Bytes V)}
  {stream : Stream Item Edition Stage Reply}

-- Steps that leave the subscriber where it is

/-- An idle stream shows what it has sent. -/
theorem shown_of_not_accepting (other : ∀ page, stream.phase ≠ .accepting page)
    : shown kind stream = stream.sent := by
  unfold shown
  split
  next page phase => exact absurd phase (other page)
  · rfl

/-- Flags of the transport and charges are not part of what is kept. -/
theorem Sound.flags (sound : Sound kind meaning own group full told stream)
    (writing written failed done : Bool) (held bytes encoded : Nat)
    : Sound kind meaning own group full told
        { stream with writing, written, failed, done, held, bytes, encoded } where
  follows := sound.follows
  known := sound.known
  unstarted := sound.unstarted
  active := sound.active
  live alive :=
    have live := sound.live alive
    { named := live.named
      suffix := live.suffix
      position := live.position
      follows := live.follows
      begun := live.begun
      capturing := live.capturing
      building := fun pending version phase =>
        have ⟨edition, built⟩ := live.building pending version phase
        ⟨edition, built.ordered, built.within, built.patched, built.named,
          built.relevant, built.settled⟩ }

/-- An overflowed suffix promises nothing. -/
theorem Sound.overflowed (sound : Sound kind meaning own group full told stream)
    : Sound kind meaning own group full told { stream with overflow := true } where
  follows := sound.follows
  known := sound.known
  unstarted := sound.unstarted
  active := sound.active
  live alive :=
    have live := sound.live alive
    { named := live.named
      suffix := nofun
      position := live.position
      follows := live.follows
      begun := live.begun
      capturing := live.capturing
      building := fun pending version phase =>
        have ⟨edition, built⟩ := live.building pending version phase
        ⟨edition, built.ordered, built.within, built.patched, built.named,
          built.relevant, built.settled⟩ }

/-- An ended stream keeps what it has sent. -/
theorem Sound.finish (sound : Sound kind meaning own group full told stream) (status : Finish)
    : Sound kind meaning own group full told (stream.finish status) where
  follows := sound.follows
  known := sound.known
  unstarted := sound.unstarted
  active := fun busy => absurd rfl busy
  live := nofun

/-- Charging a batch changes charges, or overflows. -/
theorem Sound.charge (sound : Sound kind meaning own group full told stream) (limits : Limits)
    (weight total : Nat)
    : Sound kind meaning own group full told (stream.charge limits weight total).1 := by
  unfold Stream.charge
  split
  · exact sound.overflowed
  · exact sound.flags _ _ _ _ weight _ _

-- Commits

/-- A new commit leaves everything that was sent as it was. -/
theorem Sound.grow {past : List (Commit Bytes V)}
    (sound : Sound kind meaning own group past told stream)
    (valid : Timeline.Valid full) (rooted : Timeline.Rooted full) (suffix : past <:+ full)
    (longer : Timeline.version past ≤ Timeline.version full)
    : Sound kind meaning own group full told stream := by
  have known : ∀ version, stream.since = some version → version ≤ Timeline.version past :=
    fun version came => (sound.known version came).1
  refine ⟨sound.follows.grow valid rooted suffix longer fun _ => known, ?_, sound.unstarted,
    sound.active, ?_⟩
  · intro version came
    obtain ⟨within, rest⟩ := sound.known version came
    exact ⟨Nat.le_trans within longer, rest⟩
  · intro alive
    have live := sound.live alive
    refine ⟨live.named, live.suffix, ?_,
      live.follows.grow valid rooted suffix longer fun _ => known, live.begun, live.capturing, ?_⟩
    · have position := live.position
      unfold Position at position ⊢
      split at position
      · split at position
        next started =>
          rw [if_pos started]
          exact position.grow valid rooted suffix longer known
        rename_i unstarted
        rw [if_neg unstarted]
        exact position
      · split at position
        next complete =>
          rw [if_pos complete]
          exact position.grow valid rooted suffix longer known
        rename_i incomplete
        rw [if_neg incomplete]
        exact position.grow valid rooted suffix longer known
    · intro pending version phase
      obtain ⟨none, built⟩ := live.building pending version phase
      refine ⟨none, built.ordered, Nat.le_trans built.within longer,
        Timeline.patched_of_suffix valid suffix built.within built.patched, built.named,
        built.relevant, ?_⟩
      intro key relevant
      rw [Timeline.contentAt_of_suffix valid rooted suffix built.within,
        Timeline.contentAt_of_suffix valid rooted suffix (Nat.le_trans built.ordered built.within)]
      exact built.settled key relevant

section

variable {commit : Commit Bytes V}

theorem Low.announced {low : Nat} (bound : Low kind told stream low)
    (valid : Timeline.Valid (commit :: told))
    : Low kind (commit :: told) stream low := by
  revert bound
  unfold Low
  split
  · exact id
  · exact id
  · split
    · exact id
    · intro bound
      exact Nat.le_trans bound (Timeline.version_le_cons valid)

/-- A commit that the stream is not concerned with, or a replacement, is announced. -/
theorem Sound.skip (sound : Sound kind meaning own group full told stream)
    (valid : Timeline.Valid (commit :: told)) (rooted : Timeline.Rooted (commit :: told))
    (unnoticed : ∀ key value, commit.change = some (key, value) → stream.concerns key = false)
    : Sound kind meaning own (publish group commit.version commit.change.isNone) full
        (commit :: told) stream := by
  refine ⟨sound.follows, sound.known, sound.unstarted, sound.active, fun alive => ?_⟩
  have live := sound.live alive
  refine ⟨live.named, fun room => ?_, live.position, live.follows, live.begun, live.capturing,
    live.building⟩
  obtain ⟨low, collected, heard, bound⟩ := live.suffix room
  refine ⟨low, collected.skip valid rooted ?_, heard.publish valid, bound.announced valid⟩
  intro key value change
  simp [unnoticed key value change]

/-- What `collect` makes of a stream. -/
theorem collect_cases (kind : Kind Item Edition) (limits : Limits) (key : Bytes) (item : Item)
    (stream : Stream Item Edition Stage Reply) (total : Nat)
    : (stream.collect kind limits key item total).1 = { stream with overflow := true } ∨ ∃ bytes,
          (stream.collect kind limits key item total).1
          = { stream with
              pending :=
                stream.pending.set key ((stream.pending.get? key).elim item (kind.merge · item))
              bytes } := by
  unfold Stream.collect
  split
  next overflowed =>
    left
    obtain ⟨⟩ := stream
    simp_all
  · dsimp only
    split
    · exact .inl rfl
    · split
      · exact .inl rfl
      · exact .inr ⟨_, rfl⟩

/-- A commit that the stream is concerned with is announced and collected. -/
theorem Sound.collect (sound : Sound kind meaning own group full told stream)
    (lawful : Mergeable meaning.effect meaning.final kind.version kind.merge)
    (keeps : ∀ old new, kind.name (kind.merge old new) = kind.name new)
    (valid : Timeline.Valid (commit :: told)) (rooted : Timeline.Rooted (commit :: told))
    {key : Bytes} {item : Item} (name : kind.name item = some key)
    (change : commit.change = some (key, meaning.final item))
    (stamped : kind.version item = commit.version) (relevant : stream.concerns key = true)
    (acts : meaning.effect item (Timeline.contentAt told (Timeline.version told) key)
      = meaning.final item)
    (limits : Limits) (total : Nat)
    : Sound kind meaning own (publish group commit.version commit.change.isNone) full
        (commit :: told) (stream.collect kind limits key item total).1 := by
  rcases collect_cases kind limits key item stream total with overflowed | ⟨bytes, merged⟩
  · rw [overflowed]
    refine ⟨sound.follows, sound.known, sound.unstarted, sound.active, fun alive => ?_⟩
    have live := sound.overflowed.live alive
    exact ⟨live.named, nofun, live.position, live.follows, live.begun, live.capturing, live.building⟩
  · rw [merged]
    refine ⟨sound.follows, sound.known, sound.unstarted, sound.active, fun alive => ?_⟩
    have live := sound.live alive
    refine ⟨?_, fun room => ?_, live.position, live.follows, live.begun, live.capturing, ?_⟩
    · intro other stored found
      rw [Assoc.get?_set] at found
      split at found
      next same =>
        rw [Option.some.injEq] at found
        rw [← found, same, ← name]
        cases stream.pending.get? key with
        | none => rfl
        | some old => exact keeps old item
      · exact live.named other stored found
    · obtain ⟨low, collected, heard, bound⟩ := live.suffix room
      refine ⟨low, ?_, heard.publish valid, bound.announced valid⟩
      have inserted := collected.insert lawful valid rooted change relevant stamped acts
      refine (congrArg (Collected meaning.effect kind.version · (commit :: told)
        (stream.concerns · = true) low) ?_).mp inserted
      funext other
      rw [Assoc.get?_set, Function.update_apply]
      cases stream.pending.get? key <;> rfl
    · intro pending version phase
      obtain ⟨none, built⟩ := live.building pending version phase
      exact ⟨none, built.ordered, built.within, built.patched, built.named,
        built.relevant, built.settled⟩

end

end Astra.Watch
