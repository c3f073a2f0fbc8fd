import Verdandi.Star.Watch.Invariant

/-! Each phase of a round keeps what a stream keeps. -/

namespace Astra.Watch

open Support Progress

variable {Item Edition Stage Reply Row V : Type} {kind : Kind Item Edition}
  {meaning : Meaning Item Edition Reply Row V} {own : Bytes} {group : Group}
  {full told : List (Commit Bytes V)} {stream : Stream Item Edition Stage Reply}

def Quiet : Phase Item Stage Reply → Prop
  | .idle | .capturing _ | .selecting | .charging | .encoding => True
  | .pruning | .building _ _ | .accepting _ => False

theorem shown_of_quiet (quiet : Quiet stream.phase) : shown kind stream = stream.sent := by
  refine shown_of_not_accepting fun page phase => ?_
  rw [phase] at quiet
  exact quiet

theorem low_of_quiet (quiet : Quiet stream.phase) (low : Nat)
    : Low kind told stream low
      ↔ if stream.started then low = stream.baseline kind else low ≤ Timeline.version told := by
  unfold Low
  split
  next phase => rw [phase] at quiet; exact quiet.elim
  next phase => rw [phase] at quiet; exact quiet.elim
  · exact Iff.rfl

theorem not_building_of_quiet (quiet : Quiet stream.phase) (pending : Assoc Bytes Item)
    (version : Nat)
    : stream.phase ≠ .building pending version := by
  intro phase
  rw [phase] at quiet
  exact quiet

/-- Going from one quiet phase to another. -/
theorem Sound.rephase (sound : Sound kind meaning own group full told stream)
    (quiet : Quiet stream.phase) (phase : Phase Item Stage Reply) (next : Quiet phase)
    (begun : stream.started = false → phase = .idle ∨ ∃ stage, phase = .capturing stage)
    (capturing : ∀ stage, phase = .capturing stage → stream.started = false)
    (active : phase ≠ .idle → stream.ended = none)
    : Sound kind meaning own group full told { stream with phase } := by
  refine ⟨sound.follows, sound.known, sound.unstarted, active, fun alive => ?_⟩
  have live := sound.live alive
  have same : shown kind { stream with phase } = shown kind stream := by
    rw [shown_of_quiet quiet, shown_of_quiet next]
  refine ⟨live.named, fun room => ?_, ?_, ?_, begun, capturing, ?_⟩
  · obtain ⟨low, collected, heard, bound⟩ := live.suffix room
    refine ⟨low, collected, heard, ?_⟩
    rw [low_of_quiet next]
    exact (low_of_quiet quiet low).mp bound
  · have position := live.position
    unfold Position at position ⊢
    rw [same]
    exact position
  · rw [same]
    exact live.follows
  · intro pending version isBuilding
    exact absurd isBuilding (not_building_of_quiet next pending version)

/-- A stream past its first capture has started. -/
theorem Live.started (live : Live kind meaning group full told stream)
    (notIdle : stream.phase ≠ .idle) (notCapturing : ∀ stage, stream.phase ≠ .capturing stage)
    : stream.started = true := by
  cases begun : stream.started with
  | true => rfl
  | false =>
      rcases live.begun begun with idle | ⟨stage, capturing⟩
      · exact absurd idle notIdle
      · exact absurd capturing (notCapturing stage)

variable {edition : Edition}

/-- A stream with a batch has started. -/
theorem Sound.started_of_edition (sound : Sound kind meaning own group full told stream)
    (present : stream.edition = some edition)
    : stream.started = true := by
  cases started : stream.started with
  | true => rfl
  | false =>
      rw [(sound.unstarted started).1] at present
      cases present

/-- The cursor moves when the last page of a batch was written. -/
theorem Sound.settle (sound : Sound kind meaning own group full told stream)
    (quiet : Quiet stream.phase) (present : stream.edition = some edition)
    (complete : kind.complete edition = true)
    : Sound kind meaning own group full told
        { stream with cursor := kind.through edition, edition := none } := by
  have started := sound.started_of_edition present
  refine ⟨sound.follows, sound.known, ?_, sound.active, fun alive => ?_⟩
  · intro unstarted
    exact ⟨rfl, (sound.unstarted unstarted).2⟩
  have live := sound.live alive
  have same : shown kind { stream with cursor := kind.through edition, edition := none }
      = stream.sent := shown_of_quiet quiet
  have whole : shown kind stream = stream.sent := shown_of_quiet quiet
  refine ⟨live.named, fun room => ?_, ?_, ?_, live.begun, live.capturing, ?_⟩
  · obtain ⟨low, collected, heard, bound⟩ := live.suffix room
    refine ⟨low, collected, heard, ?_⟩
    rw [low_of_quiet quiet, if_pos started] at bound
    refine (low_of_quiet (by exact quiet) low).mpr ?_
    rw [if_pos started, bound]
    simp [Stream.baseline, present]
  · have position := live.position
    unfold Position at position ⊢
    rw [present] at position
    dsimp only at position ⊢
    rw [if_pos complete, whole] at position
    rw [if_pos started, same]
    exact position
  · rw [same]
    exact sound.follows
  · intro pending version isBuilding
    exact absurd isBuilding (not_building_of_quiet quiet pending version)

/-- The first phase after the checks at the start of a round. -/
theorem Sound.proceed (sound : Sound kind meaning own group full told stream)
    (idle : stream.phase = .idle) (alive : stream.ended = none) (first : Stage) (total : Nat)
    : Sound kind meaning own group full told
        { (stream.consume kind total).1 with
          phase :=
            if (stream.consume kind total).1.started then .selecting else .capturing first } := by
  have quiet : Quiet stream.phase := by rw [idle]; trivial
  have onward {next : Stream Item Edition Stage Reply} (isIdle : next.phase = .idle)
      (isAlive : next.ended = none) (kept : Sound kind meaning own group full told next)
      : Sound kind meaning own group full told
          { next with phase := if next.started then .selecting else .capturing first } := by
    refine kept.rephase (by rw [isIdle]; trivial) _ ?_ ?_ ?_ fun _ => isAlive
    · cases next.started <;> trivial
    · intro unstarted
      exact .inr ⟨first, by simp [unstarted]⟩
    · intro stage
      cases next.started <;> simp
  unfold Stream.consume
  split
  · split
    next edition found =>
      obtain ⟨present, complete⟩ := Option.filter_eq_some_iff.mp found
      exact onward idle alive ((sound.settle quiet present complete).flags _ _ _ _ _ _ _)
    · exact onward idle alive (sound.flags _ _ _ _ _ _ _)
  · exact onward idle alive sound

/-- A baseline was captured: it is at or above everything announced, and its rows are the
whole content or continue the requested version.
-/
theorem Sound.capture (sound : Sound kind meaning own group full told stream)
    {stage : Stage} (capturing : stream.phase = .capturing stage)
    {since : Option Nat} (incomplete : kind.complete edition = false)
    (ahead : Timeline.version told ≤ kind.through edition)
    (underway : Underway meaning.act meaning.format full stream.concerns since []
      (meaning.reset edition) (meaning.remaining edition) (kind.through edition))
    (known : ∀ version, since = some version
      → version ≤ Timeline.version full
        ∧ stream.requested = some version
        ∧ stream.instance = own)
    : Sound kind meaning own group full told (stream.captured edition since) := by
  have alive := sound.active (by rw [capturing]; nofun)
  have live := sound.live alive
  have unstarted := live.capturing stage capturing
  have quiet : Quiet stream.phase := by rw [capturing]; trivial
  obtain ⟨_, nothing, _⟩ := sound.unstarted unstarted
  have follows : Follows meaning.act meaning.format full stream.concerns since stream.sent := by
    rw [nothing]
    exact .nil
  refine ⟨follows, known, nofun, fun _ => alive, fun _ => ?_⟩
  refine ⟨live.named, fun room => ?_, ?_, follows, nofun, nofun, nofun⟩
  · obtain ⟨low, collected, heard, bound⟩ := live.suffix room
    rw [low_of_quiet quiet, unstarted] at bound
    exact ⟨low, collected, heard, Nat.le_trans bound ahead⟩
  · simp only [Position, Stream.captured, shown, incomplete, nothing, Bool.false_eq_true, if_false]
    exact underway

/-- Events that the captured batch has already are dropped. -/
theorem Sound.prune (sound : Sound kind meaning own group full told stream)
    (pruning : stream.phase = .pruning) (limits : Limits) (total : Nat)
    : Sound kind meaning own group full told (stream.prune kind limits total).1 := by
  have alive := sound.active (by rw [pruning]; nofun)
  have live := sound.live alive
  have started := live.started (by rw [pruning]; nofun) (by rw [pruning]; nofun)
  refine Sound.charge ?_ limits _ _
  refine ⟨sound.follows, sound.known, sound.unstarted, fun _ => alive, fun _ => ?_⟩
  have same : shown kind stream = stream.sent :=
    shown_of_not_accepting fun page accepting => by rw [pruning] at accepting; cases accepting
  refine ⟨?_, fun room => ?_, ?_, sound.follows, ?_, nofun, nofun⟩
  · intro key item found
    rw [Assoc.get?_filter, Option.filter_eq_some_iff] at found
    exact live.named key item found.1
  · obtain ⟨low, collected, heard, bound⟩ := live.suffix room
    unfold Low at bound
    rw [pruning] at bound
    refine ⟨stream.baseline kind, ?_, heard.later bound, ?_⟩
    · refine (congrArg (Collected meaning.effect kind.version · told
        (stream.concerns · = true) (stream.baseline kind)) ?_).mp (collected.prune bound)
      funext key
      rw [Assoc.get?_filter]
    · unfold Low
      dsimp only
      rw [if_pos started]
      rfl
  · have position := live.position
    unfold Position at position ⊢
    rw [same] at position
    exact position
  · intro unstarted
    rw [started] at unstarted
    cases unstarted

-- The next batch

/-- A suffix that is handed over under a covered cursor leads to the announced version. -/
theorem Live.hand_over (live : Live kind meaning group full told stream)
    (valid : Timeline.Valid full) (rooted : Timeline.Rooted full) (suffix : told <:+ full)
    (quiet : Quiet stream.phase) (started : stream.started = true)
    (none : stream.edition = none) (room : stream.overflow = false)
    (covers : group.covers stream.cursor = true)
    (behind : stream.cursor ≤ Timeline.version told)
    : Built kind meaning full stream stream.pending (Timeline.version told) := by
  obtain ⟨low, collected, heard, bound⟩ := live.suffix room
  rw [low_of_quiet quiet, if_pos started] at bound
  have atCursor : low = stream.cursor := by
    rw [bound, Stream.baseline, none]
    rfl
  subst atCursor
  have patched := heard.patched (Nat.le_refl _) covers (Timeline.version told)
  have validTold := Timeline.valid_of_suffix valid suffix
  have position := live.position
  unfold Position at position
  rw [none] at position
  dsimp only at position
  rw [if_pos started] at position
  refine ⟨behind, ?_, Timeline.patched_of_suffix valid suffix (Nat.le_refl _) patched,
    live.named, collected.relevant, ?_⟩
  · exact Timeline.version_le_of_suffix valid suffix
  · intro key relevant
    rw [Timeline.contentAt_of_suffix valid rooted suffix (Nat.le_refl _),
      Timeline.contentAt_of_suffix valid rooted suffix behind]
    exact collected.settled validTold (Nat.le_refl _) behind patched relevant

/-- The outcomes of `select`. -/
theorem Sound.select (sound : Sound kind meaning own group full told stream)
    (valid : Timeline.Valid full) (rooted : Timeline.Rooted full) (suffix : told <:+ full)
    (current : Current group told) (selecting : stream.phase = .selecting)
    : Sound kind meaning own group full told (stream.select kind group) := by
  have quiet : Quiet stream.phase := by rw [selecting]; trivial
  have alive := sound.active (by rw [selecting]; nofun)
  unfold Stream.select
  split
  · exact sound.finish _
  rename_i continuous
  simp only [Bool.or_eq_true, Bool.not_eq_true', not_or, Bool.not_eq_true, Bool.not_eq_false]
    at continuous
  split
  next present =>
    have begun : stream.started = true := by
      obtain ⟨edition, present⟩ := Option.isSome_iff_exists.mp present
      exact sound.started_of_edition present
    exact sound.rephase quiet .encoding trivial (by rw [begun]; nofun) nofun fun _ => alive
  rename_i absent
  have none : stream.edition = none := by simpa using absent
  split
  · exact sound.rephase quiet .idle trivial (fun _ => .inl rfl) nofun fun _ => alive
  rename_i ahead
  refine ⟨sound.follows, sound.known, sound.unstarted, fun _ => alive, fun _ => ?_⟩
  have live := sound.live alive
  have started := live.started (by rw [selecting]; nofun) (by rw [selecting]; nofun)
  have atTold : group.version = Timeline.version told := by
    rcases current with fresh | same
    · omega
    · exact same
  have covers : group.covers stream.cursor = true := by
    have covered := continuous.2
    rwa [Stream.baseline, none] at covered
  have built := live.hand_over valid rooted suffix quiet started none continuous.1 covers (by omega)
  have same : shown kind stream = stream.sent := shown_of_quiet quiet
  refine ⟨by simp, fun _ => ⟨group.version, ?_, ?_, rfl⟩, ?_, sound.follows, ?_, nofun, ?_⟩
  · refine (congrArg (Collected meaning.effect kind.version · told
      (stream.concerns · = true) group.version) ?_).mp
      (Collected.empty (Timeline.valid_of_suffix valid suffix) (by omega))
    funext key
    simp
  · exact .newest (Timeline.valid_of_suffix valid suffix) (by omega)
  · have position := live.position
    unfold Position at position ⊢
    rw [same] at position
    exact position
  · intro unstarted
    rw [started] at unstarted
    cases unstarted
  · intro pending version phase
    injection phase with samePending sameVersion
    subst samePending sameVersion
    rw [atTold]
    exact ⟨none, built.ordered, built.within, built.patched, built.named,
      built.relevant, built.settled⟩

variable {pending : Assoc Bytes Item} {version : Nat}

/-- Rows with the effect of the newer events of the suffix lead to its version. -/
theorem Built.leads
    (built : Built kind meaning full stream pending version) {rows : List (Bytes × Row)}
    (listed : Listed rows fun key =>
      ((pending.get? key).filter (stream.cursor < kind.version ·)).map meaning.row)
    : overlay meaning.act rows (restrict stream.concerns (Timeline.contentAt full stream.cursor))
      = restrict stream.concerns (Timeline.contentAt full version) := by
  refine listed.leads ?_ ?_
  · intro key row found
    obtain ⟨item, present, _⟩ := Option.map_eq_some_iff.mp found
    exact built.relevant key item (Option.filter_eq_some_iff.mp present).1
  · intro key relevant
    rw [built.settled key relevant]
    cases (pending.get? key).filter (stream.cursor < kind.version ·) <;> rfl

/-- The batch made from a suffix is the next one. -/
theorem Sound.built (sound : Sound kind meaning own group full told stream)
    (building : stream.phase = .building pending version)
    (incomplete : kind.complete edition = false) (mode : meaning.reset edition = false)
    (reaches : kind.through edition = version)
    (leads : Built kind meaning full stream pending version
      → overlay meaning.act (meaning.remaining edition)
          (restrict stream.concerns (Timeline.contentAt full stream.cursor))
        = restrict stream.concerns (Timeline.contentAt full version))
    : Sound kind meaning own group full told (stream.built edition) := by
  have alive := sound.active (by rw [building]; nofun)
  have live := sound.live alive
  have begun := live.started (by rw [building]; nofun) (by rw [building]; nofun)
  refine ⟨sound.follows, sound.known, ?_, fun _ => alive, fun _ => ?_⟩
  · change stream.started = false → _
    rw [begun]
    nofun
  obtain ⟨none, built⟩ := live.building pending version building
  have same : shown kind stream = stream.sent :=
    shown_of_not_accepting fun page accepting => by rw [building] at accepting; cases accepting
  have reached := live.position
  unfold Position at reached
  rw [none] at reached
  dsimp only at reached
  rw [if_pos begun, same] at reached
  refine ⟨live.named, fun room => ?_, ?_, sound.follows, ?_, nofun, nofun⟩
  · obtain ⟨low, collected, heard, bound⟩ := live.suffix room
    unfold Low at bound
    rw [building] at bound
    refine ⟨low, collected, heard, ?_⟩
    change if stream.started then low = kind.through edition else _
    rw [if_pos begun, bound, reaches]
  · have underway := reached.continued built.ordered built.within built.patched (leads built)
    simp only [Position, Stream.built, shown, incomplete, mode, reaches, Bool.false_eq_true,
      if_false]
    exact underway
  · change stream.started = false → _
    rw [begun]
    nofun

theorem Sound.recharge (sound : Sound kind meaning own group full told stream)
    (charging : stream.phase = .charging) (limits : Limits) (total : Nat)
    : Sound kind meaning own group full told (stream.recharge kind limits total).1 := by
  have alive := sound.active (by rw [charging]; nofun)
  have begun := (sound.live alive).started (by rw [charging]; nofun) (by rw [charging]; nofun)
  have moved := sound.rephase (by rw [charging]; trivial) .encoding trivial
    (by rw [begun]; nofun) nofun fun _ => alive
  exact (moved.flags _ _ _ _ 0 _ _).charge limits _ _

-- Pages

/-- A page takes the first rows of what remains of its batch; the last page takes all and
names the version.
-/
structure Taken (kind : Kind Item Edition) (meaning : Meaning Item Edition Reply Row V)
    (edition after : Edition) (page : Reply)
    : Prop where
  isOpen : kind.complete edition = false
  rows
    : meaning.remaining edition = (meaning.format.page page).rows ++ meaning.remaining after
  through : kind.through after = kind.through edition
  reset : meaning.reset after = meaning.reset edition
  mode : (meaning.format.page page).reset = meaning.reset edition
  finished : kind.complete after = (meaning.format.page page).complete
  exhausted : (meaning.format.page page).complete = true → meaning.remaining after = []
  named
    : meaning.format.stamp page
      = if (meaning.format.page page).complete then some (kind.through edition) else none

/-- A page was taken from the batch and is about to be sent. -/
theorem Sound.paged (sound : Sound kind meaning own group full told stream)
    (encoding : stream.phase = .encoding) {after : Edition} {page : Reply}
    (present : stream.edition = some edition) (taken : Taken kind meaning edition after page)
    : Sound kind meaning own group full told (stream.paged after page) := by
  have begun := sound.started_of_edition present
  have quiet : Quiet stream.phase := by rw [encoding]; trivial
  have alive := sound.active (by rw [encoding]; (rintro ⟨⟩))
  have live := sound.live alive
  refine ⟨sound.follows, sound.known, ?_, fun _ => alive, fun _ => ?_⟩
  · change stream.started = false → _
    rw [begun]
    intros; contradiction
  have underway := live.position
  unfold Position at underway
  rw [present] at underway
  dsimp only at underway
  rw [taken.isOpen, shown_of_quiet quiet] at underway
  simp only [Bool.false_eq_true, if_false] at underway
  have shows : shown kind (stream.paged after page)
      = stream.sent ++ [{ reply := page, through := kind.through after }] := rfl
  refine ⟨live.named, fun room => ?_, ?_, ?_, ?_, (by intros; contradiction),
    (by intros; contradiction)⟩
  · obtain ⟨low, collected, heard, bound⟩ := live.suffix room
    rw [low_of_quiet quiet, if_pos begun, Stream.baseline, present] at bound
    refine ⟨low, collected, heard, ?_⟩
    change if stream.started then low = kind.through after else _
    rw [if_pos begun, taken.through]
    exact bound
  · unfold Position
    rw [shows]
    change if kind.complete after then _ else _
    split
    next complete =>
      have isLast := taken.finished ▸ complete
      have named := taken.named
      rw [if_pos isLast] at named
      have rows := taken.rows
      rw [taken.exhausted isLast, List.append_nil] at rows
      rw [taken.through]
      exact underway.last taken.mode rfl rows isLast named
    rename_i incomplete
    have isOpen : (meaning.format.page page).complete = false := by
      rw [← taken.finished]
      simpa using incomplete
    have named := taken.named
    rw [isOpen] at named
    rw [taken.through, taken.reset]
    exact underway.page taken.mode rfl taken.rows isOpen (by simpa using named)
  · rw [shows, taken.through]
    exact sound.follows.page underway taken.mode rfl taken.rows taken.exhausted taken.named
  · change stream.started = false → _
    rw [begun]
    intros; contradiction

/-- A page that gRPC takes is sent; otherwise the stream ends. -/
theorem Sound.accept (sound : Sound kind meaning own group full told stream)
    {page : Reply} (accepting : stream.phase = .accepting page) (limits : Limits)
    (stopped : Bool) (encoded total : Nat)
    : Sound kind meaning own group full told
        (stream.accept kind limits group stopped page encoded total).1 := by
  have alive := sound.active (by rw [accepting]; nofun)
  have live := sound.live alive
  have begun := live.started (by rw [accepting]; nofun) (by rw [accepting]; nofun)
  unfold Stream.accept
  split
  · exact sound.finish _
  · have shows : shown kind stream
        = stream.sent ++ [{ reply := page, through := stream.baseline kind }] := by
      unfold shown
      rw [accepting]
    have follows := live.follows
    rw [shows] at follows
    refine ⟨follows, sound.known, ?_, fun _ => alive, fun _ => ?_⟩
    · change stream.started = false → _
      rw [begun]
      nofun
    refine ⟨live.named, fun room => ?_, ?_, follows, fun _ => .inl rfl, nofun, nofun⟩
    · obtain ⟨low, collected, heard, bound⟩ := live.suffix room
      unfold Low at bound
      rw [accepting] at bound
      exact ⟨low, collected, heard, bound⟩
    · have position := live.position
      unfold Position at position ⊢
      rw [shows] at position
      exact position

end Astra.Watch
