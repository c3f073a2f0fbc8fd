import Verdandi.Star.Readout.Invariant

/-! Almanac watch streams follow the routing table, in every order of commits, announcements,
calls, rounds and callbacks.
-/

namespace Astra.Readout

open Support Proto Watch

def World.told (world : World) : Scope → List (Commit Bytes Bytes) :=
  match world.announcing with
  | none => world.timeline
  | some (scope, _) => Function.update world.timeline scope (world.timeline scope).tail

structure Holds (own : Bytes) (world : World) : Prop where
  recorded : ∀ scope, Recorded (world.library.books.get? scope) (world.timeline scope)
  drafts
    : ∀ draft ∈ world.drafts, draft.draft.state.version = draft.version
        ∧ (draft.draft.state.version = 0 → draft.draft.state.entries = ∅)
  announced
    : ∀ scope change, world.announcing = some (scope, change) → ∃ commit past,
          world.timeline scope = commit :: past ∧ Announces kind meaning change commit past
  serving : Serving kind meaning own world.timeline world.told world.hub

theorem Recorded.valid {routed : Option Library.Book} {timeline : List (Commit Bytes Bytes)}
    (recorded : Recorded routed timeline)
    : Timeline.Valid timeline ∧ Timeline.Rooted timeline := by
  cases routed with
  | none =>
      cases (show timeline = [] from recorded)
      exact ⟨trivial, by simp [Timeline.Rooted]⟩
  | some book =>
      have records : Almanac.Records book.almanac timeline := recorded
      exact ⟨records.valid, records.rooted⟩

theorem told_suffix (world : World) (scope : Scope)
    : world.told scope <:+ world.timeline scope := by
  unfold World.told
  cases world.announcing with
  | none => exact List.suffix_rfl
  | some announcing =>
      obtain ⟨routed, change⟩ := announcing
      dsimp only
      by_cases same : scope = routed
      · rw [same, Function.update_self]
        exact List.tail_suffix _
      · rw [Function.update_of_ne same]

section

variable {own : Bytes} {world : World}

theorem Holds.valid (holds : Holds own world) (scope : Scope)
    : Timeline.Valid (world.timeline scope) ∧ Timeline.Rooted (world.timeline scope) :=
  (holds.recorded scope).valid

/-- Only the downlink changed. -/
theorem Holds.served (holds : Holds own world) {hub : Hub}
    (serving : Serving kind meaning own world.timeline world.told hub)
    : Holds own { world with hub } :=
  ⟨holds.recorded, holds.drafts, holds.announced, serving⟩

-- Commits

/-- A commit that a book recorded is readable and waits for its announcement. -/
theorem Holds.commit (holds : Holds own world) (quiet : world.announcing = none)
    {library : Library} {scope : Scope} {change : Almanac.Change} {identity : Nat}
    {almanac : Almanac}
    (books : library.books = world.library.books.set scope { id := identity, almanac })
    (version : change.version = almanac.state.version)
    (records : Almanac.Records almanac
      (Almanac.commitOf change almanac.state :: world.timeline scope))
    : Holds own (world.commit library scope change) := by
  have installed : library.installed scope = some almanac.state := by
    simp [Library.installed, books, records.ready]
  have timeline : (world.commit library scope change).timeline
      = Function.update world.timeline scope
          (Almanac.commitOf change almanac.state :: world.timeline scope) := by
    simp [World.commit, installed]
  have recorded (other : Scope)
      : Recorded (library.books.get? other)
          ((world.commit library scope change).timeline other) := by
    rw [timeline, books, Assoc.get?_set]
    by_cases same : other = scope
    · rw [same, if_pos rfl, Function.update_self]
      exact records
    · rw [if_neg same, Function.update_of_ne same]
      exact holds.recorded other
  have told : (world.commit library scope change).told = world.told := by
    change Function.update _ _ _ = _
    rw [timeline, Function.update_self, List.tail_cons, Function.update_idem,
      Function.update_eq_self]
    simp [World.told, quiet]
  refine ⟨recorded, holds.drafts, ?_, ?_⟩
  · intro other announced announcing
    cases announcing
    exact ⟨Almanac.commitOf change almanac.state, world.timeline scope,
      by rw [timeline, Function.update_self], ⟨version, rfl, fun _ _ => rfl⟩⟩
  · rw [told]
    refine holds.serving.grow (fun other => (recorded other).valid.1)
      (fun other => (recorded other).valid.2) fun other => ?_
    rw [timeline]
    by_cases same : other = scope
    · rw [same, Function.update_self]
      exact List.suffix_cons _ _
    · rw [Function.update_of_ne same]

variable {library : Library} {change : Almanac.Change}

theorem Holds.reset (holds : Holds own world) (quiet : world.announcing = none)
    {draft : Library.Draft} (member : draft ∈ world.drafts)
    (installed : world.library.reset draft = .ok (some (library, change)))
    : Holds own (world.commit library draft.scope change) := by
  obtain ⟨announced, almanac, replaced⟩ := Library.reset_some installed
  obtain ⟨version, empty⟩ := holds.drafts draft member
  obtain ⟨valid, rooted⟩ := holds.valid draft.scope
  refine holds.commit quiet replaced.books ?_ ?_
  · rw [announced, replaced.state, version]
  · refine Almanac.records_reset (by rw [announced]) replaced.ready replaced.history valid rooted
      ?_ (by rw [replaced.state]; exact empty)
    intro commit inside
    have recorded := holds.recorded draft.scope
    cases routed : world.library.books.get? draft.scope with
    | none =>
        rw [routed] at recorded
        rw [show world.timeline draft.scope = [] from recorded] at inside
        cases inside
    | some book =>
        rw [routed] at recorded
        have records : Almanac.Records book.almanac (world.timeline draft.scope) := recorded
        have bounded := Timeline.le_version records.valid inside
        rw [records.version] at bounded
        rw [replaced.state]
        exact Nat.lt_of_le_of_lt bounded (replaced.newer book routed records.ready)

variable {scope : Scope}

theorem Holds.apply (holds : Holds own world) (quiet : world.announcing = none) {version : Nat}
    {key : Bytes} {value : Option Bytes}
    (applied : world.library.apply scope version key value = .ok (some (library, change)))
    : Holds own (world.commit library scope change) := by
  obtain ⟨book, almanac, amended⟩ := Library.apply_some applied
  have recorded := holds.recorded scope
  rw [amended.routed] at recorded
  have records : Almanac.Records book.almanac (world.timeline scope) := recorded
  refine holds.commit quiet amended.books ?_ (records.patched amended.patched)
  rw [amended.patched.committed, amended.patched.advanced]

theorem Holds.announce (holds : Holds own world)
    (announcing : world.announcing = some (scope, change)) (limits : Limits)
    : Holds own
        { world with
          announcing := none
          hub := world.hub.changed kind limits scope change } := by
  obtain ⟨commit, past, split, announces⟩ := holds.announced scope change announcing
  obtain ⟨valid, rooted⟩ := holds.valid scope
  rw [split] at valid rooted
  have before : world.told scope = past := by
    simp [World.told, announcing, split]
  have after : Function.update world.told scope (commit :: past) = world.timeline := by
    rw [World.told, announcing]
    dsimp only
    rw [Function.update_idem, ← split, Function.update_eq_self]
  have changed := holds.serving.changed mergeable (fun _ _ => rfl) before valid rooted announces
    limits
  rw [after] at changed
  exact ⟨holds.recorded, holds.drafts, nofun, changed⟩

-- Rounds

theorem Holds.advance (holds : Holds own world) {config : Config} (same : config.own = own)
    {id : Nat} {input : Input} {hub : Hub}
    (advanced : Readout.advance config world.library world.hub id input = some hub)
    : Serving kind meaning own world.timeline world.told hub := by
  have serving := holds.serving
  unfold Readout.advance at advanced
  split at advanced
  · cases advanced
  rename_i stream found
  obtain ⟨valid, rooted⟩ := holds.valid stream.scope
  have suffix := told_suffix world stream.scope
  cases phase : stream.phase with
  | idle =>
      rw [phase] at advanced
      cases advanced
      exact serving.enter found phase _ _ _
  | capturing stage =>
      rw [phase] at advanced
      obtain ⟨outcome, read, result⟩ := Option.map_eq_some_iff.mp advanced
      subst result
      cases outcome with
      | next later =>
          refine serving.update found rfl fun group _ _ sound => ?_
          have alive := sound.active (by rw [phase]; nofun)
          have unstarted := (sound.live alive).capturing stage phase
          exact sound.rephase (by rw [phase]; trivial) _ trivial
            (fun _ => .inr ⟨later, rfl⟩) (fun _ _ => unstarted) fun _ => alive
      | captured edition since =>
          have captured := captured_of_initial (holds.recorded stream.scope) suffix read
          refine serving.update found rfl fun group _ _ sound => ?_
          exact sound.capture phase captured.incomplete captured.ahead captured.underway
            (same ▸ captured.known)
      | failed status => exact serving.update found rfl fun group _ _ sound => sound.finish _
  | pruning =>
      rw [phase] at advanced
      cases advanced
      exact serving.update found (stream.scope_prune _ _ _)
        fun group _ _ sound => sound.prune phase _ _
  | selecting =>
      rw [phase] at advanced
      cases routed : world.hub.groups.get? stream.scope with
      | none =>
          rw [routed] at advanced
          cases advanced
      | some group =>
          rw [routed] at advanced
          cases advanced
          refine serving.update found (stream.scope_select _ _) fun other present current sound => ?_
          rw [routed] at present
          cases present
          exact sound.select valid rooted suffix current phase
  | building pending version =>
      rw [phase] at advanced
      cases advanced
      obtain ⟨through, incomplete, mode, _⟩ := ofReplay_fields version
        ((pending.toPairs.map Prod.snd).filter (stream.cursor < ·.version)) stream.target
        input.capacity
      refine serving.update found rfl fun group _ _ sound => ?_
      exact sound.built phase incomplete (by simp [meaning, replayed, mode]) through
        (leads_replayed input.capacity)
  | charging =>
      rw [phase] at advanced
      cases advanced
      exact serving.update found (stream.scope_recharge _ _ _)
        fun group _ _ sound => sound.recharge phase _ _
  | encoding =>
      rw [phase] at advanced
      obtain ⟨edition, present, result⟩ := Option.map_eq_some_iff.mp advanced
      subst result
      split
      · exact serving.update found rfl fun group _ _ sound => sound.finish _
      next produced _ =>
        exact serving.update found rfl fun group _ _ sound =>
          (sound.paged phase present (taken_of_next produced)).finish _
      rename_i produced _
      exact serving.update found rfl fun group _ _ sound =>
        sound.paged phase present (taken_of_next produced)
  | accepting page =>
      rw [phase] at advanced
      cases routed : world.hub.groups.get? stream.scope with
      | none =>
          rw [routed] at advanced
          cases advanced
      | some group =>
          rw [routed] at advanced
          cases advanced
          refine serving.update found (stream.scope_accept _ _ _ _ _ _ _)
            fun other present _ sound => ?_
          rw [routed] at present
          cases present
          exact sound.accept phase _ _ _ _

/-- A callback changes flags of the transport alone. -/
theorem Holds.callback (holds : Holds own world) {id : Nat} {next : World}
    {change : Stream → Option Stream}
    (flags : ∀ stream later, change stream = some later
      → ∃ writing written failed done,
          later = { stream with writing, written, failed, done })
    (called : world.callback id change = some next)
    : Holds own next := by
  unfold World.callback at called
  split at called
  · cases called
  rename_i stream found
  split at called
  · obtain ⟨later, changed, result⟩ := Option.map_eq_some_iff.mp called
    subst result
    obtain ⟨writing, written, failed, done, same⟩ := flags stream later changed
    subst same
    exact holds.served (holds.serving.update found rfl
      fun group _ _ sound => sound.flags writing written failed done _ _ _)
  · cases called

end

variable {config : Config} {world next : World}

/-- Every step keeps what the system keeps. Witness: one case for each action. -/
theorem step_holds {action : Action} (holds : Holds config.own world)
    (stepped : step config world action = some next)
    : Holds config.own next := by
  cases action with
  | prepare scope version =>
      simp only [step] at stepped
      split at stepped
      · cases stepped
        exact holds
      rename_i library draft prepared
      cases stepped
      obtain ⟨books, _, version, state⟩ := Library.prepare_ok prepared
      refine ⟨fun scope => by rw [books]; exact holds.recorded scope, ?_, holds.announced,
        holds.serving⟩
      intro other member
      rcases List.mem_append.mp member with old | new
      · exact holds.drafts other old
      · rw [List.mem_singleton.mp new, version, state]
        exact ⟨rfl, fun _ => rfl⟩
  | set index key value =>
      obtain ⟨draft, found, result⟩ := Option.map_eq_some_iff.mp stepped
      subst result
      split
      · exact holds
      rename_i filled accepted
      refine ⟨holds.recorded, ?_, holds.announced, holds.serving⟩
      intro other member
      rcases List.mem_or_eq_of_mem_set member with old | new
      · exact holds.drafts other old
      · subst new
        have kept := (holds.drafts draft (List.mem_of_getElem? found)).1
        obtain ⟨_, version, _, added⟩ := Library.Draft.set_ok accepted
        obtain ⟨sameVersion, _⟩ := Almanac.Draft.set_ok added
        refine ⟨by rw [sameVersion, version, kept], fun isZero => ?_⟩
        have positive := Almanac.Draft.version_of_set added
        rw [sameVersion] at isZero
        exact absurd isZero positive
  | reset index =>
      simp only [step] at stepped
      split at stepped
      · cases stepped
      rename_i quiet
      obtain ⟨draft, found, result⟩ := Option.map_eq_some_iff.mp stepped
      subst result
      split
      · exact holds
      · exact holds
      rename_i installed
      exact holds.reset (by simpa using quiet) (List.mem_of_getElem? found) installed
  | apply scope version key value =>
      simp only [step] at stepped
      split at stepped
      · cases stepped
      rename_i quiet
      split at stepped
      · cases stepped
        exact holds
      · cases stepped
        exact holds
      rename_i applied
      cases stepped
      exact holds.apply (by simpa using quiet) applied
  | announce =>
      obtain ⟨⟨scope, change⟩, announcing, result⟩ := Option.map_eq_some_iff.mp stepped
      subst result
      exact holds.announce announcing config.limits
  | watch id request permit =>
      simp only [step] at stepped
      split at stepped
      · cases stepped
      · split at stepped
        · cases stepped
          exact holds
        rename_i hub watched
        cases stepped
        unfold Readout.watch at watched
        split at watched
        · cases watched
        · split at watched
          · refine holds.served (holds.serving.register (fun scope => ?_) watched)
            exact Timeline.valid_of_suffix (holds.valid scope).1 (told_suffix world scope)
          · cases watched
  | written id ok =>
      refine holds.callback (fun stream later changed => ?_) stepped
      split at changed
      · cases changed
        exact ⟨_, _, _, _, rfl⟩
      · cases changed
  | cancel id =>
      refine holds.callback (fun stream later changed => ?_) stepped
      cases changed
      exact ⟨_, _, _, _, rfl⟩
  | done id =>
      refine holds.callback (fun stream later changed => ?_) stepped
      cases changed
      exact ⟨_, _, _, _, rfl⟩
  | stop =>
      cases stepped
      exact holds.served ⟨holds.serving.current, holds.serving.streams⟩
  | advance id input =>
      obtain ⟨hub, advanced, result⟩ := Option.map_eq_some_iff.mp stepped
      subst result
      exact holds.served (holds.advance rfl advanced)

def start (limits : Library.Limits) : World where
  library := { limits }

theorem start_holds (own : Bytes) (limits : Library.Limits) : Holds own (start limits) := by
  refine ⟨fun scope => ?_, by simp [start], nofun, ?_⟩
  · simp [start, Recorded]
  · exact ⟨by simp [start], by simp [start]⟩

variable {actions : List Action}

theorem run_holds {limits : Library.Limits}
    (reached : run (step config) (start limits) actions = some world)
    : Holds config.own world :=
  run_invariant (fun _ _ _ holds stepped => step_holds holds stepped)
    (start_holds config.own limits) reached

-- Main result

/-- Behind an announced replacement, a stream only moves to its end. -/
theorem Holds.ending (holds : Holds config.own world) {id : Nat} {stream : Stream}
    (found : world.hub.streams.get? id = some stream) (started : stream.started = true)
    (isOpen : stream.done = false) {replacement : Commit Bytes Bytes}
    (announced : replacement ∈ world.told stream.scope) (whole : replacement.change = none)
    (above : stream.baseline kind < replacement.version) {input : Input}
    (stepped : step config world (.advance id input) = some next)
    : ∃ after, next.hub.streams.get? id = some after ∧ Ending stream after := by
  obtain ⟨group, routed, sound⟩ := holds.serving.streams id stream found
  obtain ⟨hub, advanced, result⟩ := Option.map_eq_some_iff.mp stepped
  subst result
  have stored := world.hub.get?_update_self id
  have uncovered (alive : stream.ended = none)
      (settled : stream.phase.rank ≠ 2 ∧ stream.phase.rank ≠ 4) :=
    sound.uncovered alive started settled announced whole above
  simp only [Readout.advance, found] at advanced
  cases phase : stream.phase with
  | idle =>
      rw [phase] at advanced
      cases advanced
      exact ending_enter found phase isOpen started _ _ _
  | capturing stage =>
      have alive := sound.active (by rw [phase]; (rintro ⟨⟩))
      have unstarted := (sound.live alive).capturing stage phase
      rw [started] at unstarted
      cases unstarted
  | pruning =>
      rw [phase] at advanced
      cases advanced
      exact ⟨_, stored _, ending_prune phase _ _⟩
  | selecting =>
      rw [phase, routed] at advanced
      cases advanced
      have alive := sound.active (by rw [phase]; (rintro ⟨⟩))
      exact ⟨_, stored _, ending_select (uncovered alive (by simp [phase, Phase.rank]))⟩
  | building pending version =>
      rw [phase] at advanced
      cases advanced
      exact ⟨_, stored _, .of_rank rfl (by rw [phase]; exact Nat.lt_succ_self 4)⟩
  | charging =>
      rw [phase] at advanced
      cases advanced
      exact ⟨_, stored _, ending_recharge phase _ _⟩
  | encoding =>
      rw [phase] at advanced
      obtain ⟨edition, _, result⟩ := Option.map_eq_some_iff.mp advanced
      subst result
      split
      · exact ⟨_, stored _, .finish stream _⟩
      · exact ⟨_, stored _, rfl, fun busy => absurd rfl busy, fun _ _ => rfl⟩
      · exact ⟨_, stored _, .of_rank rfl (by rw [phase]; exact Nat.lt_succ_self 6)⟩
  | accepting page =>
      rw [phase, routed] at advanced
      cases advanced
      have alive := sound.active (by rw [phase]; (rintro ⟨⟩))
      exact ⟨_, stored _, ending_accept (uncovered alive (by simp [phase, Phase.rank])) _ _ _ _ _⟩

/-- The installed content of a Scope is the newest one of its timeline. -/
theorem Holds.installed {own : Bytes} {world : World} (holds : Holds own world) {scope : Scope}
    {state : Almanac.State} (present : world.library.installed scope = some state)
    : Timeline.version (world.timeline scope) = state.version
      ∧ Timeline.contentAt (world.timeline scope) state.version = state.entries.get? := by
  have recorded := holds.recorded scope
  unfold Library.installed at present
  cases routed : world.library.books.get? scope with
  | none => simp [routed] at present
  | some book =>
      rw [routed] at recorded
      have records : Almanac.Records book.almanac (world.timeline scope) := recorded
      simp only [routed, Option.bind_some, records.ready, if_true, Option.some.injEq] at present
      subst present
      exact ⟨records.version, records.content⟩

/-- Watch streams follow the authority. In every reachable state, for every stream:

- the pages it has sent follow the commits of its Scope: applied in order, from the content at
  the requested version where the first batch continues it and from any content otherwise,
  every complete page leaves exactly the content at the version it names, restricted to the
  target; versions do not decrease; and no batch of changes leads across a replacement;
- only the version requested from this Star is continued;
- once a replacement above its baseline is announced, it sends nothing any more, and a round
  that returns while no write is in flight has ended it.

The commits are those of the routing table: its installed content is the newest of them.
-/
theorem watch_streams_follow_library (config : Config) (limits : Library.Limits)
    (reached : run (step config) (start limits) actions = some world)
    : (∀ scope state, world.library.installed scope = some state
        → Timeline.version (world.timeline scope) = state.version
          ∧ Timeline.contentAt (world.timeline scope) state.version = state.entries.get?)
      ∧ ∀ id stream, world.hub.streams.get? id = some stream
        → Follows Edition.act format (world.timeline stream.scope) stream.concerns stream.since
            stream.sent
          ∧ (∀ version, stream.since = some version
              → stream.requested = some version ∧ stream.instance = config.own)
          ∧ (∀ replacement ∈ world.told stream.scope, replacement.change = none
              → stream.started = true
              → stream.done = false
              → stream.baseline kind < replacement.version
              → ∀ input next, step config world (.advance id input) = some next
              → ∃ after, next.hub.streams.get? id = some after ∧ Ending stream after) := by
  have holds := run_holds reached
  refine ⟨fun scope state present => holds.installed present, fun id stream found => ?_⟩
  obtain ⟨group, _, sound⟩ := holds.serving.streams id stream found
  refine ⟨sound.follows, fun version came => (sound.known version came).2, ?_⟩
  intro replacement announced whole started isOpen above input next stepped
  exact holds.ending found started isOpen announced whole above stepped

/-- A run that installs a Scope with one record and sends it to a new stream. -/
def firstPage : List Action :=
  let scope : Scope := { sector := [0x61], spectrum := [0x62] }
  [.prepare scope 1, .set 0 [0x6b] [0x76], .reset 0, .announce, .watch 7 { scope } (.ok ())]
    ++ List.replicate 9 (.advance 7 {})

theorem watch_streams_follow_library_firstPage
    : ∃ world stream,
        run (step { own := [0x73], size := fun _ => 16 }) (start {}) firstPage = some world
        ∧ world.hub.streams.get? 7 = some stream
        ∧ stream.sent.length = 1
        ∧ Follows Edition.act format (world.timeline stream.scope) stream.concerns stream.since
            stream.sent := by
  have ran
      : ((run (step { own := [0x73], size := fun _ => 16 }) (start {}) firstPage).bind
          fun world => (world.hub.streams.get? 7).map fun stream => stream.sent.length)
        = some 1 := by
    decide
  obtain ⟨world, reached, rest⟩ := Option.bind_eq_some_iff.mp ran
  obtain ⟨stream, found, count⟩ := Option.map_eq_some_iff.mp rest
  exact ⟨world, stream, reached, found, count,
    ((watch_streams_follow_library _ _ reached).2 7 stream found).1⟩

end Astra.Readout
