import Verdandi.Comet.Watching.Batches

/-! The content of a view changes only to the outcome of one whole batch, as long as no control
round takes a page from a stream that has been cancelled.
-/

namespace Comet.Watching

open Astra Support Proto

variable {Change Record : Type}

/-- The content of the view stays, or becomes what a whole batch of its stream leads to. -/
def Whole (policy : Policy Change Record) (before after : Watching Change Record) : Prop :=
  after.view.contents = before.view.contents
  ∨ ∃ stream batch data, before.stream = some stream ∧ batch ∈ stream.batches
      ∧ policy.applied batch.mode before.view.contents
          (baseOf batch.mode before.view.contents) batch.changes
        = .ok data
      ∧ after.view.contents = some
          { data, «instance» := batch.instance, version := batch.version }

/-- Whether a control round leaves a page alone that a cancelled stream still delivered. -/
def punctual (watching : Watching Change Record) : Action Change Record → Bool
  | .front round =>
      watching.stream.all fun stream =>
        match stream.stage with
        | .ready _ =>
            stream.held || stream.done || watching.closed || round.closing || watching.failed
              || watching.binding != round.binding
        | _ => true
  | _ => true

/-- A control round takes no page from a stream that has been cancelled. -/
def Punctual (watching : Watching Change Record) (action : Action Change Record) : Prop :=
  watching.punctual action = true

instance (watching : Watching Change Record) (action : Action Change Record)
    : Decidable (Punctual watching action) :=
  inferInstanceAs (Decidable (_ = _))

def Shown (watching : Watching Change Record) : Prop :=
  ∀ projection, watching.projection = some projection → watching.view.contents = projection.current

def Released (watching : Watching Change Record) : Prop :=
  ∀ stream, watching.stream = some stream → stream.held = false

structure Synced (policy : Policy Change Record) (watching : Watching Change Record) : Prop where
  shown : Shown watching
  follows
    : ∀ projection stream, watching.projection = some projection → watching.stream = some stream
      → stream.held = true
      → Between policy projection stream

/-- A change that leaves the content alone: it concerns neither the candidate nor the pages, or
the stream has been cancelled.
-/
structure Quiet (before after : Watching Change Record) : Prop where
  contents : after.view.contents = before.view.contents
  shown : Shown after
  sent
    : ∀ stream, after.stream = some stream
      → ∃ earlier, before.stream = some earlier ∧ stream.batches = earlier.batches
  kept
    : Released after ∨ after.projection = before.projection ∧ after.stream = before.stream

variable {policy : Policy Change Record} {core : Core} {watching before middle after next
  : Watching Change Record}

theorem Quiet.trans (first : Quiet before middle) (second : Quiet middle after)
    : Quiet before after := by
  refine ⟨second.contents.trans first.contents, second.shown, fun stream present => ?_, ?_⟩
  · obtain ⟨earlier, found, same⟩ := second.sent stream present
    obtain ⟨earliest, foundFirst, sameFirst⟩ := first.sent earlier found
    exact ⟨earliest, foundFirst, same.trans sameFirst⟩
  · rcases second.kept with released | ⟨projection, stream⟩
    · exact .inl released
    · rcases first.kept with released | ⟨projectionFirst, streamFirst⟩
      · exact .inl fun held present => released held (stream ▸ present)
      · exact .inr ⟨projection.trans projectionFirst, stream.trans streamFirst⟩

/-- A change of neither the view's content, nor the projection, nor the stream. -/
theorem Quiet.of_eq (shown : Shown before) (contents : after.view.contents = before.view.contents)
    (projection : after.projection = before.projection) (stream : after.stream = before.stream)
    : Quiet before after := by
  refine ⟨contents, fun held present => ?_, fun held present => ⟨held, ?_, rfl⟩,
    .inr ⟨projection, stream⟩⟩
  · rw [contents]
    exact shown held (projection ▸ present)
  · rw [← stream, present]

theorem Quiet.refl (shown : Shown before) : Quiet before before :=
  .of_eq shown rfl rfl rfl

theorem Quiet.synced (quiet : Quiet before after) (synced : Synced policy before)
    : Synced policy after := by
  refine ⟨quiet.shown, fun projection stream installed present held => ?_⟩
  rcases quiet.kept with released | ⟨sameProjection, sameStream⟩
  · rw [released stream present] at held
    cases held
  · exact synced.follows projection stream (sameProjection ▸ installed) (sameStream ▸ present) held

-- Small steps of a control round

@[simp]
theorem publish_projection (state : State) (error : Option Error)
    : (watching.publish state error).projection = watching.projection := by
  unfold publish
  split <;> simp_all

@[simp]
theorem publish_stream (state : State) (error : Option Error)
    : (watching.publish state error).stream = watching.stream := by
  unfold publish
  split <;> rfl

theorem publish_contents (shown : Shown watching) (state : State) (error : Option Error)
    : (watching.publish state error).view.contents = watching.view.contents := by
  unfold publish
  split
  · rfl
  next projection present => exact (shown projection present).symm

theorem Shown.publish (shown : Shown watching) (state : State) (error : Option Error)
    : Shown (watching.publish state error) := by
  intro projection present
  rw [publish_projection] at present
  rw [publish_contents shown]
  exact shown projection present

theorem Shown.discard (shown : Shown watching) : Shown watching.discard := by
  intro projection present
  obtain ⟨earlier, found, rfl⟩ := Option.map_eq_some_iff.mp present
  exact shown earlier found

theorem released_cancel (watching : Watching Change Record) : Released watching.cancel := by
  intro stream present
  obtain ⟨earlier, _, rfl⟩ := Option.map_eq_some_iff.mp present
  rfl

/-- A round that ends with a cancelled stream of the same batches is quiet. -/
theorem Quiet.cancel (shown : Shown middle) (contents : middle.view.contents = before.view.contents)
    (sent : ∀ stream, middle.stream = some stream
      → ∃ earlier, before.stream = some earlier ∧ stream.batches = earlier.batches)
    : Quiet before middle.cancel := by
  refine ⟨contents, shown, fun stream present => ?_, .inl (released_cancel middle)⟩
  obtain ⟨earlier, found, rfl⟩ := Option.map_eq_some_iff.mp present
  exact sent earlier found

theorem quiet_clean (shown : Shown watching) (closing : Bool)
    : Quiet watching (watching.clean closing) := by
  unfold clean
  split
  · refine ⟨rfl, nofun, fun stream present => ?_, .inl (released_cancel watching)⟩
    obtain ⟨earlier, found, rfl⟩ := Option.map_eq_some_iff.mp present
    exact ⟨earlier, found, rfl⟩
  · exact .of_eq shown rfl rfl rfl

theorem quiet_publish (shown : Shown watching) (state : State) (error : Option Error)
    : Quiet watching (watching.publish state error) :=
  .of_eq shown (publish_contents shown state error) (publish_projection state error)
    (publish_stream state error)

theorem quiet_rebind (shown : Shown watching) (round : Round Record)
    : Quiet watching (watching.rebind round) := by
  unfold rebind
  split
  · exact .refl shown
  split
  · split
    · exact .refl shown
    · have given : Quiet watching watching.discard.cancel :=
        .cancel shown.discard rfl fun stream present => ⟨stream, present, rfl⟩
      exact given.trans (quiet_publish given.shown _ _)
  · split
    · exact quiet_publish shown _ _
    · exact .refl shown

/-- A round that reports something and cancels its stream is quiet. -/
theorem Quiet.report (shown : Shown middle) (contents : middle.view.contents = before.view.contents)
    (sent : ∀ stream, middle.stream = some stream
      → ∃ earlier, before.stream = some earlier ∧ stream.batches = earlier.batches)
    (state : State) (error : Option Error)
    : Quiet before (middle.publish state error).cancel := by
  refine .cancel (shown.publish state error)
    ((publish_contents shown state error).trans contents) fun stream present => ?_
  rw [publish_stream] at present
  exact sent stream present

theorem quiet_report (shown : Shown watching) (gone : watching.stream = none) (now : Nat)
    (error : Error)
    : Quiet watching (watching.report core now error) := by
  have nothing : ∀ stream, (watching.report core now error).stream = some stream → False := by
    intro stream present
    rw [report, publish_stream] at present
    cases gone.symm.trans present
  have dropped : Shown { watching.discard with
      failed := permanent error
      failures := min (watching.failures + 1) 32
      retry := now + core.delay (min (watching.failures + 1) 32) } :=
    fun held present => shown.discard held present
  exact ⟨publish_contents dropped _ _, dropped.publish _ _,
    fun stream present => (nothing stream present).elim,
    .inl fun stream present => (nothing stream present).elim⟩

/-- A stream that is over is gone. -/
theorem quiet_conclude (shown : Shown watching) (round : Round Record) (stream : Stream Change)
    : Quiet watching (watching.conclude core round stream) := by
  have gone : Quiet watching { watching with stream := none } := by
    refine ⟨rfl, fun held present => shown held present, fun held present => ?_,
      .inl fun held present => ?_⟩
    · cases present
    · cases present
  unfold conclude
  dsimp only
  split
  · exact gone
  · exact gone.trans (quiet_report gone.shown rfl _ _)

variable {stream : Stream Change}

theorem quiet_expire (shown : Shown watching) (present : watching.stream = some stream)
    : Quiet watching (watching.expire stream) := by
  refine .report ?_ ?_ ?_ watching.idle (some .timeout)
  · exact fun held found => shown.discard held found
  · rfl
  · rintro held ⟨⟩
    exact ⟨stream, present, rfl⟩

theorem quiet_abandon (shown : Shown watching) (error : Error)
    : Quiet watching (watching.abandon error) := by
  refine .report ?_ ?_ ?_ .failed (some error)
  · exact fun held found => shown.discard held found
  · rfl
  · exact fun held found => ⟨held, found, rfl⟩

/-- A refused page leaves the installed content. -/
theorem quiet_refuse (present : watching.stream = some stream) {projection : Installer Record}
    (same : watching.view.contents = projection.current) (round : Round Record) (code : Code)
    : Quiet watching (watching.refuse core policy round stream projection code) := by
  have current : (projection.repair policy code).1.current = projection.current := by
    unfold Installer.repair
    split <;> rfl
  unfold refuse
  split
  next repaired result =>
    rw [result] at current
    refine .report ?_ ?_ ?_ watching.idle (some code.error)
    · rintro held ⟨⟩
      exact same.trans current.symm
    · rfl
    · rintro held ⟨⟩
      exact ⟨stream, present, rfl⟩
  rename_i kept result
  rw [result] at current
  refine .report ?_ ?_ ?_ .failed
    (some (if code = Code.history then Error.protocol else code.error))
  · rintro held ⟨⟩
    exact same.trans current.symm
  · rfl
  · rintro held ⟨⟩
    exact ⟨stream, present, rfl⟩

-- Pages

theorem released_refuse (round : Round Record) (stream : Stream Change)
    (projection : Installer Record) (code : Code)
    : Released (watching.refuse core policy round stream projection code) := by
  unfold refuse
  split
  · exact released_cancel _
  · exact released_cancel _

/-- A page from a stream that has not been cancelled is taken as part of its batch. -/
theorem consume_whole (synced : Synced policy watching) (round : Round Record)
    {page : WatchReply Change} (present : watching.stream = some stream)
    (ready : stream.stage = .ready page) (held : stream.held = true)
    : Synced policy (watching.consume core policy round stream page)
      ∧ Whole policy watching (watching.consume core policy round stream page) := by
  generalize isMiddle : { watching with stream := some { stream with stage := .consumed } } = middle
  have shown : Shown middle := by
    rw [← isMiddle]
    exact fun projection found => synced.shown projection found
  have contents : middle.view.contents = watching.view.contents := by rw [← isMiddle]
  have calm {next : Watching Change Record} (quiet : Quiet middle next) (released : Released next)
      : Synced policy next ∧ Whole policy watching next := by
    refine ⟨⟨quiet.shown, fun _ other _ found kept => ?_⟩, .inl (quiet.contents.trans contents)⟩
    rw [released other found] at kept
    cases kept
  unfold consume
  dsimp only
  rw [isMiddle]
  split
  next none =>
    refine ⟨⟨shown, fun projection other found _ _ => ?_⟩, .inl contents⟩
    rw [← isMiddle] at found
    cases none.symm.trans found
  rename_i projection installed
  have same : middle.view.contents = projection.current :=
    contents.trans (synced.shown projection installed)
  split
  · exact calm (quiet_abandon shown .internal) (released_cancel _)
  · split
    next next code refused =>
      have kept : next.current = projection.current := by
        unfold Installer.accept at refused
        split at refused
        · cases refused
          rfl
        · cases refused
      exact calm (quiet_refuse (by rw [← isMiddle]) (same.trans kept.symm) round code)
        (released_refuse _ _ _ _)
    rename_i next accepted
    have taken : Taken policy projection next page := by
      unfold Installer.accept at accepted
      split at accepted
      · cases accepted
      rename_i result attempted
      cases accepted
      exact taken_of_attempt attempted
    have between := synced.follows projection stream installed present held
    obtain ⟨batch, midway⟩ := midway_of_ready between ready
    have outcome (rest : Stream Change)
        (follows : rest.batches = stream.batches ∧ rest.pending = stream.coming) :=
      midway.taken ready taken follows
    split
    next complete =>
      simp only [complete, if_true] at outcome
      refine ⟨⟨?_, ?_⟩, .inr ?_⟩
      · rintro shownNext ⟨⟩
        rfl
      · rintro kept other ⟨⟩ ⟨⟩ _
        refine (outcome _ ?_).1
        exact ⟨rfl, rfl⟩
      · obtain ⟨_, data, applied, current⟩ :=
          outcome { stream with stage := .consumed } ⟨rfl, rfl⟩
        rw [← synced.shown projection installed] at applied
        exact ⟨stream, batch, data, present, midway.sent, applied, current⟩
    rename_i more
    have unfinished : page.complete = false := by simpa using more
    simp only [unfinished, Bool.false_eq_true, if_false] at outcome
    have current : next.current = projection.current :=
      (outcome { stream with stage := .consumed } ⟨rfl, rfl⟩).2
    refine ⟨⟨?_, ?_⟩, .inl rfl⟩
    · rintro shownNext ⟨⟩
      exact (synced.shown projection installed).trans current.symm
    · rintro kept other ⟨⟩ ⟨⟩ _
      refine (outcome _ ?_).1
      exact ⟨rfl, rfl⟩

/-- What the callbacks left is taken as part of its batch. -/
theorem serve_whole (synced : Synced policy watching) {round : Round Record}
    (punctual : ∀ stream page, watching.stream = some stream
      → stream.stage = .ready page
      → stream.done = false
      → watching.taking round = true
      → stream.held = true)
    : Synced policy (watching.serve core policy round)
      ∧ Whole policy watching (watching.serve core policy round) := by
  have calm {next : Watching Change Record} (quiet : Quiet watching next)
      : Synced policy next ∧ Whole policy watching next :=
    ⟨quiet.synced synced, .inl quiet.contents⟩
  unfold serve
  split
  · exact calm (.refl synced.shown)
  rename_i stream present
  split
  · exact calm (quiet_conclude synced.shown round stream)
  rename_i open'
  split
  · split
    · exact calm (quiet_expire synced.shown present)
    · exact calm (.refl synced.shown)
  · split
    · exact calm (.refl synced.shown)
    · exact calm (quiet_abandon synced.shown .limit)
  · exact calm (.cancel synced.shown rfl fun held found => ⟨held, found, rfl⟩)
  next page ready =>
    split
    next takes =>
      exact consume_whole synced round present ready
        (punctual stream page present ready (by simpa using open') takes)
    · exact calm (.refl synced.shown)
  · exact calm (.refl synced.shown)

-- Steps

/-- Neither whether the object is closed nor its target changes with what it shows. -/
theorem publish_frame (state : State) (error : Option Error)
    : (watching.publish state error).closed = watching.closed
      ∧ (watching.publish state error).binding = watching.binding := by
  unfold publish
  split <;> exact ⟨rfl, rfl⟩

theorem rebind_frame (round : Round Record)
    : (watching.rebind round).closed = watching.closed
      ∧ (watching.rebind round).binding = watching.binding
      ∧ (watching.rebind round).stream.isSome = watching.stream.isSome := by
  unfold rebind
  split
  · exact ⟨rfl, rfl, rfl⟩
  split
  · split
    · exact ⟨rfl, rfl, rfl⟩
    · obtain ⟨closed, binding⟩ := @publish_frame _ _ watching.discard.cancel watching.idle round.error
      refine ⟨closed, binding, ?_⟩
      rw [publish_stream]
      exact Option.isSome_map
  · split
    · obtain ⟨closed, binding⟩ := @publish_frame _ _ watching
        (if round.error.isSome then .failed else watching.idle) round.error
      exact ⟨closed, binding, by rw [publish_stream]⟩
    · exact ⟨rfl, rfl, rfl⟩

/-- A round of an open object has nothing to clean. -/
theorem clean_of_open {closing : Bool} (running : (watching.clean closing).closed = false)
    : watching.clean closing = watching ∧ (watching.closed || closing) = false := by
  unfold clean at running ⊢
  split at running
  · cases running
  rename_i idle
  rw [if_neg idle]
  have neither : (watching.closed || closing) = false := running
  refine ⟨?_, neither⟩
  have isOpen : watching.closed = false := (Bool.or_eq_false_iff.mp neither).1
  rw [neither, ← isOpen]

variable {round : Round Record}

/-- A round that takes a page has changed nothing before. -/
theorem rebind_clean_of_taking
    (present : ((watching.clean round.closing).rebind round).stream = some stream)
    (taking : ((watching.clean round.closing).rebind round).taking round = true)
    : (watching.clean round.closing).rebind round = watching
      ∧ (watching.closed || round.closing) = false := by
  simp only [Watching.taking, Bool.and_eq_true, beq_iff_eq, Bool.not_eq_true'] at taking
  obtain ⟨⟨running, bound⟩, _⟩ := taking
  obtain ⟨sameClosed, sameBinding, sameStream⟩ := @rebind_frame _ _ (watching.clean round.closing) round
  rw [sameClosed] at running
  rw [sameBinding] at bound
  rw [present, Option.isSome_some] at sameStream
  obtain ⟨same, neither⟩ := clean_of_open running
  rw [same] at sameStream bound running ⊢
  refine ⟨?_, neither⟩
  rw [rebind, if_neg (by simp [running]), if_pos sameStream.symm, if_pos bound]

theorem front_whole (synced : Synced policy watching)
    (punctual : Punctual watching (.front round : Action Change Record))
    : Synced policy (watching.front core policy round)
      ∧ Whole policy watching (watching.front core policy round) := by
  have cleaned := quiet_clean synced.shown round.closing
  have rebound := cleaned.trans (quiet_rebind cleaned.shown round)
  obtain ⟨served, whole⟩ := @serve_whole _ _ policy core _ (rebound.synced synced) round
    fun stream page present ready open' taking => by
      obtain ⟨same, running⟩ := rebind_clean_of_taking present taking
      rw [same] at present taking
      simp only [Watching.taking, Bool.and_eq_true, beq_iff_eq, Bool.not_eq_true'] at taking
      rw [Bool.or_eq_false_iff] at running
      simpa [Punctual, Watching.punctual, present, ready, open', running, taking] using punctual
  have announced : Quiet (((watching.clean round.closing).rebind round).serve core policy round)
      (watching.front core policy round) := by
    unfold front announce
    dsimp only
    split
    · exact .of_eq served.shown rfl rfl rfl
    · exact .of_eq served.shown rfl rfl rfl
  refine ⟨announced.synced served, ?_⟩
  rcases whole with kept | ⟨stream, batch, data, present, sent, applied, installed⟩
  · exact .inl (announced.contents.trans (kept.trans rebound.contents))
  · obtain ⟨earlier, found, same⟩ := rebound.sent stream present
    rw [rebound.contents] at applied
    exact .inr ⟨earlier, batch, data, found, same ▸ sent, applied,
      announced.contents.trans installed⟩

theorem read_synced (synced : Synced policy watching) (binding : Option Binding) (stopped : Bool)
    : Synced policy (watching.read binding stopped)
      ∧ (watching.read binding stopped).view.contents = watching.view.contents := by
  unfold read
  split
  · exact ⟨synced, rfl⟩
  rename_i stream present
  split
  next consumed =>
    split
    · refine ⟨⟨synced.shown, ?_⟩, rfl⟩
      rintro projection other installed ⟨⟩ held
      have between := synced.follows projection stream installed present held
      have pending : ({ stream with stage := .reading } : Stream Change).pending
          = stream.pending := by simp [Stream.pending, consumed]
      exact between.of_pending (by rw [consumed]; (rintro ⟨⟩)) rfl pending
    · exact ⟨synced, rfl⟩
  · exact ⟨synced, rfl⟩

/-- A new stream finds a clean candidate. -/
theorem start_synced (synced : Synced policy watching) (gone : watching.stream = none)
    (binding : Binding) (rest : Rest Change)
    : Synced policy (watching.start core binding rest)
      ∧ (watching.start core binding rest).view.contents = watching.view.contents := by
  unfold start
  split
  · exact ⟨synced, rfl⟩
  rename_i projection installed
  dsimp only
  split
  · refine ⟨⟨?_, ?_⟩, rfl⟩
    · rintro begun ⟨⟩
      exact synced.shown projection installed
    · rintro begun stream ⟨⟩ ⟨⟩ _
      exact .fresh rest.batches rfl (fun _ member => member) rfl
  · refine ⟨⟨?_, ?_⟩, rfl⟩
    · rintro begun ⟨⟩
      exact synced.shown projection installed
    · intro begun stream _ present _
      cases gone.symm.trans present

theorem connect_synced (synced : Synced policy watching) (now : Nat)
    (binding : Option Binding) (rest : Rest Change)
    : Synced policy (watching.connect core now binding rest)
      ∧ (watching.connect core now binding rest).view.contents = watching.view.contents := by
  unfold connect
  split
  next gone =>
    split
    · exact start_synced synced gone _ rest
    · exact ⟨synced, rfl⟩
  · exact ⟨synced, rfl⟩

/-- The second half of a round installs nothing. -/
theorem back_synced (synced : Synced policy watching) (now : Nat) (binding : Option Binding)
    (rest : Rest Change)
    : Synced policy (watching.back core now binding rest)
      ∧ (watching.back core now binding rest).view.contents = watching.view.contents := by
  have returned : Synced policy { watching with
      notifying := false
      dirty := watching.dirty && core.observed
      phase := none } :=
    ⟨fun projection installed => synced.shown projection installed,
      fun projection stream installed present held =>
        synced.follows projection stream installed present held⟩
  obtain ⟨reading, sameRead⟩ := read_synced returned binding rest.stopped
  obtain ⟨connected, sameConnect⟩ :=
    @connect_synced _ _ policy core _ reading now binding rest
  refine ⟨⟨fun projection installed => connected.shown projection installed,
    fun projection stream installed present held =>
      connected.follows projection stream installed present held⟩, ?_⟩
  exact sameConnect.trans sameRead

/-- A callback changes the pages at most so far that one of them is ready. -/
theorem callback_synced (synced : Synced policy watching) {changed : Stream Change}
    (present : watching.stream = some stream)
    (follows : changed.held = true
      → stream.held = true
        ∧ ∀ projection, Between policy projection stream → Between policy projection changed)
    : Synced policy { watching with stream := some changed } := by
  refine ⟨fun projection installed => synced.shown projection installed, ?_⟩
  rintro projection other installed ⟨⟩ held
  obtain ⟨wasHeld, moves⟩ := follows held
  exact moves projection (synced.follows projection stream installed present wasHeld)

variable {action : Action Change Record}

/-- Every step keeps the candidate fitting, and installs a whole batch or nothing. -/
theorem step_whole (synced : Synced policy before) (punctual : Punctual before action)
    (stepped : before.step core policy action = some after)
    : Synced policy after ∧ Whole policy before after := by
  cases action with
  | arrive fits =>
      simp only [step] at stepped
      split at stepped
      next stream present =>
        split at stepped
        next page coming reading arriving =>
          cases stepped
          refine ⟨callback_synced synced present fun held => ⟨held, fun projection between => ?_⟩,
            .inl rfl⟩
          cases fits with
          | false => exact .dropped rfl
          | true =>
              refine between.of_pending (by rw [reading]; nofun) rfl ?_
              simp [Stream.pending, reading, arriving]
        · cases stepped
      · cases stepped
  | eof =>
      simp only [step] at stepped
      split at stepped
      next stream present =>
        split at stepped
        next reading =>
          cases stepped
          refine ⟨callback_synced synced present fun held => ⟨held, fun projection between => ?_⟩,
            .inl rfl⟩
          refine between.of_pending (by rw [reading]; nofun) rfl ?_
          simp [Stream.pending, reading]
        · cases stepped
      · cases stepped
  | done status reason =>
      simp only [step] at stepped
      split at stepped
      next stream present =>
        split at stepped
        · cases stepped
        · split at stepped
          · cases stepped
          rename_i free
          cases stepped
          refine ⟨callback_synced synced present fun held => ?_, .inl rfl⟩
          simp only [Bool.or_eq_true, not_or] at free
          exact absurd held free.1
      · cases stepped
  | close =>
      cases stepped
      exact ⟨⟨fun projection installed => synced.shown projection installed,
        fun projection stream installed present held =>
          synced.follows projection stream installed present held⟩, .inl rfl⟩
  | front round =>
      simp only [step] at stepped
      split at stepped
      · cases stepped
      · cases stepped
        exact front_whole synced punctual
  | back rest =>
      simp only [step, Option.map_eq_some_iff] at stepped
      obtain ⟨⟨now, binding⟩, _, rfl⟩ := stepped
      obtain ⟨kept, same⟩ := back_synced synced now binding rest
      exact ⟨kept, .inl same⟩

/-- A view is only ever a whole batch: in a run in which no round takes a page from a cancelled
stream, every step leaves the content of the view or installs the outcome of one whole batch.
-/
theorem views_are_whole_batches (core : Core) (policy : Policy Change Record) (target : Bytes)
    (bytes records : Nat) {actions : List (Action Change Record)}
    (punctual : Along (step core policy) Punctual (create target bytes records)
      (actions ++ [action]))
    (reached : run (step core policy) (create target bytes records) actions = some before)
    (stepped : before.step core policy action = some after)
    : Whole policy before after := by
  have created : Synced policy (create target bytes records : Watching Change Record) := by
    refine ⟨?_, ?_⟩
    · rintro projection ⟨⟩
      rfl
    · intro projection stream _ present _
      cases present
  obtain ⟨synced, timely⟩ := along_invariant
    (fun _ _ _ holds meets done => (step_whole holds meets done).1) created punctual reached
  exact (step_whole synced timely stepped).2

-- A late page

def entry (key value : UInt8) : AlmanacChange where
  key := [key]
  action := .value [value]

def twoPages : Sending AlmanacChange where
  mode := .reset
  version := 1
  «instance» := [115]
  changes := [entry 97 1] ++ [entry 98 2]
  pages :=
    [{ mode := .reset, changes := [entry 97 1] },
      { mode := .reset
        changes := [entry 98 2]
        complete := true
        version := some 1
        «instance» := [115] }]
  batched := .more (List.cons_ne_nil _ _) (.last [entry 98 2])

/-- A control round at some time, with the same target throughout. -/
def tick (now : Nat) : Action AlmanacChange Bytes :=
  .front
    { now
      binding := some { id := 0, «instance» := [115], session := [] }
      room := { prepared := fun _ _ => true, published := fun _ => true } }

def goOn : Action AlmanacChange Bytes :=
  .back { clock := 0, batches := [twoPages] }

def patient : Core where
  timeout := 10
  delay _ := 1
  observed := false

def halfway : List (Action AlmanacChange Bytes) :=
  [tick 0, goOn, .arrive true, tick 1, goOn]

/-- The content that a step installed, unless it is what a whole batch leads to. -/
def torn (before after : Watching AlmanacChange Bytes) : Bool :=
  match after.view.contents, before.view.contents, before.stream with
  | some held, none, some stream =>
      stream.batches.all fun batch =>
        match Comet.projection.applied batch.mode none (baseOf batch.mode none) batch.changes with
        | .ok data => data.toPairs != held.data.toPairs
        | .error _ => true
  | _, _, _ => false

theorem not_whole_of_torn {before after : Watching AlmanacChange Bytes}
    (isTorn : torn before after = true)
    : ¬ Whole Comet.projection before after := by
  unfold torn at isTorn
  split at isTorn
  next held stream installed empty present =>
    rintro (kept | ⟨other, batch, data, found, sent, applied, contents⟩)
    · rw [installed, empty] at kept
      cases kept
    · rw [present, Option.some.injEq] at found
      rw [installed, Option.some.injEq] at contents
      rw [empty] at applied
      subst found contents
      have differs := List.all_eq_true.mp isTorn batch sent
      rw [applied] at differs
      simp at differs
  · cases isTorn

/-- The second page comes in time and completes the batch. -/
theorem views_are_whole_batches_twoPages
    : ∃ before after,
        run (step patient Comet.projection) (create [] 16384 4) (halfway ++ [.arrive true])
          = some before
        ∧ before.step patient Comet.projection (tick 2) = some after
        ∧ (before.view.contents.isNone && after.view.contents.isSome) = true
        ∧ Whole Comet.projection before after := by
  have done : ((run (step patient Comet.projection) (create [] 16384 4)
      (halfway ++ [.arrive true])).bind fun before =>
        (before.step patient Comet.projection (tick 2)).map fun after =>
          before.view.contents.isNone && after.view.contents.isSome) = some true := by
    decide
  obtain ⟨before, reached, done⟩ := Option.bind_eq_some_iff.mp done
  obtain ⟨after, stepped, installed⟩ := Option.map_eq_some_iff.mp done
  exact ⟨before, after, reached, stepped, installed,
    views_are_whole_batches patient Comet.projection [] 16384 4 (by decide) reached stepped⟩

/-- The second page comes after the timeout has dropped the first, and is taken for a whole
batch.
-/
theorem late_page_installed
    : ∃ before after, run (step patient Comet.projection) (create [] 16384 4)
            (halfway ++ [tick 20, goOn, .arrive true])
          = some before
        ∧ before.step patient Comet.projection (tick 21) = some after
        ∧ ¬ Whole Comet.projection before after := by
  have done : ((run (step patient Comet.projection) (create [] 16384 4)
      (halfway ++ [tick 20, goOn, .arrive true])).bind fun before =>
        (before.step patient Comet.projection (tick 21)).map (torn before)) = some true := by
    decide
  obtain ⟨before, reached, done⟩ := Option.bind_eq_some_iff.mp done
  obtain ⟨after, stepped, isTorn⟩ := Option.map_eq_some_iff.mp done
  exact ⟨before, after, reached, stepped, not_whole_of_torn isTorn⟩

end Comet.Watching
