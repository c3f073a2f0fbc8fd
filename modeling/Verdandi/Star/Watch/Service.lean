import Verdandi.Star.Watch.Rounds

/-! What a service keeps for all its streams, whatever order commits, announcements, calls and
rounds come in.
-/

namespace Astra.Watch

open Support Progress

variable {Item Edition Stage Reply Row V : Type}

/-- Every group is current and every stream keeps what it has to, for the commits of its
Scope and those of them that were announced.
-/
structure Serving (kind : Kind Item Edition) (meaning : Meaning Item Edition Reply Row V)
    (own : Bytes) (full told : Scope → List (Commit Bytes V))
    (hub : Hub Item Edition Stage Reply)
    : Prop where
  current : ∀ scope group, hub.groups.get? scope = some group → Current group (told scope)
  streams
    : ∀ id stream, hub.streams.get? id = some stream → ∃ group,
          hub.groups.get? stream.scope = some group
          ∧ Sound kind meaning own group (full stream.scope) (told stream.scope) stream

variable {kind : Kind Item Edition} {meaning : Meaning Item Edition Reply Row V}
  {own : Bytes} {full told : Scope → List (Commit Bytes V)}
  {hub : Hub Item Edition Stage Reply}

/-- A step of one stream. -/
theorem Serving.update (serving : Serving kind meaning own full told hub) {id : Nat}
    {stream : Stream Item Edition Stage Reply} (found : hub.streams.get? id = some stream)
    {result : Stream Item Edition Stage Reply × Nat} (scope : result.1.scope = stream.scope)
    (kept : ∀ group, hub.groups.get? stream.scope = some group
      → Current group (told stream.scope)
      → Sound kind meaning own group (full stream.scope) (told stream.scope) stream
      → Sound kind meaning own group (full stream.scope) (told stream.scope) result.1)
    : Serving kind meaning own full told (hub.update id result) := by
  refine ⟨serving.current, fun other next present => ?_⟩
  simp only [Hub.update, Assoc.get?_set] at present
  split at present
  · cases present
    obtain ⟨group, routed, sound⟩ := serving.streams id stream found
    rw [scope]
    exact ⟨group, routed, kept group routed (serving.current _ group routed) sound⟩
  · exact serving.streams other next present

/-- Commits that are not announced yet. -/
theorem Serving.grow {past : Scope → List (Commit Bytes V)}
    (serving : Serving kind meaning own past told hub)
    (valid : ∀ scope, Timeline.Valid (full scope))
    (rooted : ∀ scope, Timeline.Rooted (full scope))
    (suffix : ∀ scope, past scope <:+ full scope)
    : Serving kind meaning own full told hub := by
  refine ⟨serving.current, fun id stream found => ?_⟩
  obtain ⟨group, routed, sound⟩ := serving.streams id stream found
  exact ⟨group, routed, sound.grow (valid _) (rooted _) (suffix _)
    (Timeline.version_le_of_suffix (valid _) (suffix _))⟩

/-- A new stream has nothing to catch up with. -/
theorem Serving.register (serving : Serving kind meaning own full told hub)
    (valid : ∀ scope, Timeline.Valid (told scope)) {limits : Limits} {id : Nat}
    {request : Request} {next : Hub Item Edition Stage Reply}
    (registered : hub.register kind limits id request = .ok next)
    : Serving kind meaning own full told next := by
  unfold Hub.register at registered
  split at registered
  · cases registered
  · cases registered
    refine ⟨fun scope group routed => ?_, fun other stream found => ?_⟩
    · simp only [Assoc.get?_set] at routed
      split at routed
      next same =>
        cases existing : hub.groups.get? request.scope with
        | none =>
            rw [existing] at routed
            cases routed
            exact .inl ⟨rfl, rfl⟩
        | some group =>
            rw [existing] at routed
            cases routed
            rw [same]
            exact serving.current _ _ existing
      · exact serving.current scope group routed
    · simp only [Assoc.get?_set] at found ⊢
      split at found
      · cases found
        refine ⟨_, if_pos rfl, .nil, (by intros; contradiction), fun _ => ⟨rfl, rfl, rfl⟩,
          fun _ => rfl, fun _ => ?_⟩
        refine ⟨by simp, fun _ => ⟨_, ?_, .newest (valid _) (Nat.le_refl _), ?_⟩, rfl, .nil,
          fun _ => .inl rfl, (by intros; contradiction), (by intros; contradiction)⟩
        · refine (congrArg (Collected meaning.effect kind.version · (told request.scope) _ _)
            ?_).mp (Collected.empty (valid request.scope) (Nat.le_refl _))
          funext key
          simp
        · exact Nat.le_refl _
      · obtain ⟨group, routed, sound⟩ := serving.streams other stream found
        refine ⟨group, ?_, sound⟩
        split
        next same =>
          rw [same] at routed
          rw [routed]
          rfl
        · exact routed

/-- A forgotten stream takes its group along only if nobody else needs it. -/
theorem Serving.retire (serving : Serving kind meaning own full told hub) (id : Nat)
    (stream : Stream Item Edition Stage Reply)
    : Serving kind meaning own full told (hub.retire id stream) := by
  unfold Hub.retire
  refine ⟨fun scope group routed => ?_, fun other remaining found => ?_⟩
  · dsimp only at routed
    split at routed
    · rw [Assoc.get?_remove] at routed
      split at routed
      · cases routed
      · exact serving.current scope group routed
    · exact serving.current scope group routed
  · dsimp only at found ⊢
    have present := found
    rw [Assoc.get?_remove] at present
    split at present
    · cases present
    · obtain ⟨group, routed, sound⟩ := serving.streams other remaining present
      refine ⟨group, ?_, sound⟩
      split
      next alone =>
        rw [Assoc.get?_remove]
        have inside : other ∈ (hub.streams.remove id).keys :=
          (Assoc.mem_keys _ _).mpr ⟨remaining, found⟩
        have different := List.all_eq_true.mp alone other inside
        rw [found, Option.all_some] at different
        rw [if_neg (by simpa using different)]
        exact routed
      · exact routed

variable {id : Nat} {stream : Stream Item Edition Stage Reply}

/-- The start of a round. -/
theorem Serving.enter (serving : Serving kind meaning own full told hub)
    (found : hub.streams.get? id = some stream) (idle : stream.phase = .idle) (first : Stage)
    (queued : Bool) (permit : Except Finish Unit)
    : Serving kind meaning own full told (hub.enter kind first id stream queued permit) := by
  unfold Hub.enter
  split
  · split
    · exact serving
    · exact serving.retire id stream
  · split
    · exact serving
    rename_i active
    have alive : stream.ended = none := by
      simp only [Bool.or_eq_true, not_or, Option.isSome_iff_ne_none, ne_eq, not_not] at active
      exact active.1
    split
    · exact serving.update found rfl fun group _ _ sound => sound.finish _
    · split
      · exact serving.update found rfl fun group _ _ sound => sound.finish _
      · exact serving.update found (stream.scope_consume kind hub.bytes)
          fun group _ _ sound => sound.proceed idle alive first hub.bytes

-- Announcements

/-- What visiting some streams makes of each of them. -/
theorem foldl_visit (kind : Kind Item Edition) (limits : Limits) (key : Bytes) (item : Item)
    {ids : List Nat} (distinct : ids.Nodup) (hub : Hub Item Edition Stage Reply)
    : (ids.foldl (Hub.visit kind limits key item) hub).groups = hub.groups ∧ ∀ id next,
          (ids.foldl (Hub.visit kind limits key item) hub).streams.get? id = some next
          → ∃ stream total, hub.streams.get? id = some stream ∧ next
                = if id ∈ ids then (stream.collect kind limits key item total).1 else stream := by
  induction ids generalizing hub with
  | nil => exact ⟨rfl, fun id next found => ⟨next, 0, found, rfl⟩⟩
  | cons first rest ih =>
      obtain ⟨notLater, distinctRest⟩ := List.nodup_cons.mp distinct
      obtain ⟨groups, streams⟩ := ih distinctRest (hub.visit kind limits key item first)
      rw [List.foldl_cons]
      have kept : (hub.visit kind limits key item first).groups = hub.groups := by
        unfold Hub.visit
        split <;> rfl
      refine ⟨groups.trans kept, fun id next found => ?_⟩
      obtain ⟨stream, total, present, result⟩ := streams id next found
      unfold Hub.visit at present
      split at present
      next absent =>
        have different : id ≠ first := by
          rintro rfl
          rw [absent] at present
          cases present
        exact ⟨stream, total, present, by simpa [different] using result⟩
      rename_i visited existing
      simp only [Hub.update, Assoc.get?_set] at present
      split at present
      next same =>
        subst same
        rw [if_neg notLater] at result
        refine ⟨visited, hub.bytes, existing, ?_⟩
        rw [if_pos List.mem_cons_self, result]
        exact (Option.some.injEq _ _ ▸ present).symm
      next different => exact ⟨stream, total, present, by simpa [different] using result⟩

theorem mem_watching (hub : Hub Item Edition Stage Reply) (scope : Scope) (test : Bytes → Bool)
    (found : hub.streams.get? id = some stream)
    : id ∈ hub.watching scope test ↔ stream.scope = scope ∧ test stream.target = true := by
  simp [Hub.watching, Assoc.mem_keys, found]

theorem nodup_watching (hub : Hub Item Edition Stage Reply) (scope : Scope) (key : Bytes)
    : (hub.watching scope (·.isEmpty)
        ++ hub.watching scope fun target => !target.isEmpty && target == key).Nodup := by
  refine List.nodup_append.mpr ⟨(Assoc.nodup_keys _).filter _, (Assoc.nodup_keys _).filter _, ?_⟩
  rintro id inFirst _ inSecond rfl
  obtain ⟨stream, found⟩ := (Assoc.mem_keys _ _).mp (List.mem_filter.mp inFirst).1
  have whole := ((mem_watching hub scope _ found).mp inFirst).2
  have precise := ((mem_watching hub scope _ found).mp inSecond).2
  rw [whole] at precise
  cases precise

structure Announces (kind : Kind Item Edition) (meaning : Meaning Item Edition Reply Row V)
    (item : Item) (commit : Commit Bytes V) (told : List (Commit Bytes V))
    : Prop where
  stamped : kind.version item = commit.version
  change : commit.change = (kind.name item).map fun key => (key, meaning.final item)
  acts
    : ∀ key, kind.name item = some key
      → meaning.effect item (Timeline.contentAt told (Timeline.version told) key)
        = meaning.final item

/-- A commit is announced to every stream of its Scope. Witness: a visited stream collects
the event, and one that is not visited is not concerned with it.
-/
theorem Serving.changed (serving : Serving kind meaning own full told hub)
    (lawful : Mergeable meaning.effect meaning.final kind.version kind.merge)
    (keeps : ∀ old new, kind.name (kind.merge old new) = kind.name new)
    {scope : Scope} {item : Item} {commit : Commit Bytes V} {past : List (Commit Bytes V)}
    (before : told scope = past) (valid : Timeline.Valid (commit :: past))
    (rooted : Timeline.Rooted (commit :: past))
    (announces : Announces kind meaning item commit past) (limits : Limits)
    : Serving kind meaning own full (Function.update told scope (commit :: past))
        (hub.changed kind limits scope item) := by
  have elsewhere {other : Scope} (different : other ≠ scope)
      : Function.update told scope (commit :: past) other = told other :=
    Function.update_of_ne different _ _
  have isNone : (kind.name item).isNone = commit.change.isNone := by
    rw [announces.change, Option.isNone_map]
  unfold Hub.changed
  cases routed : hub.groups.get? scope with
  | none =>
      -- Nobody watches the Scope, so every stream is elsewhere.
      refine ⟨fun other group found => ?_, fun id stream found => ?_⟩
      · have different : other ≠ scope := by
          rintro rfl
          rw [routed] at found
          cases found
        rw [elsewhere different]
        exact serving.current other group found
      · obtain ⟨group, present, sound⟩ := serving.streams id stream found
        have different : stream.scope ≠ scope := by
          intro same
          rw [same, routed] at present
          cases present
        refine ⟨group, present, ?_⟩
        rw [elsewhere different]
        exact sound
  | some group =>
      dsimp only
      rw [announces.stamped, isNone]
      generalize published : publish group commit.version commit.change.isNone = next
      have groups (other : Scope)
          : (hub.groups.set scope next).get? other
            = if other = scope then some next else hub.groups.get? other :=
        Assoc.get?_set _ _ _ _
      have currentNext (other : Scope) (found' : Group)
          (found : (hub.groups.set scope next).get? other = some found')
          : Current found' (Function.update told scope (commit :: past) other) := by
        rw [groups] at found
        split at found
        next same =>
          cases found
          rw [same, Function.update_self, ← published]
          exact current_publish _ _ _
        rename_i different
        rw [elsewhere different]
        exact serving.current other found' found
      -- A stream whose Scope is elsewhere, or that is not concerned, only sees the group move.
      have untouched (id : Nat) (stream : Stream Item Edition Stage Reply)
          (found : hub.streams.get? id = some stream)
          (unnoticed : stream.scope = scope
            → ∀ key value, commit.change = some (key, value) → stream.concerns key = false)
          : ∃ found', (hub.groups.set scope next).get? stream.scope = some found'
            ∧ Sound kind meaning own found' (full stream.scope)
                (Function.update told scope (commit :: past) stream.scope) stream := by
        obtain ⟨current, present, sound⟩ := serving.streams id stream found
        rw [groups]
        by_cases same : stream.scope = scope
        · rw [same, routed] at present
          cases present
          refine ⟨next, if_pos same, ?_⟩
          rw [same, Function.update_self, ← published]
          rw [same, before] at sound
          exact sound.skip valid rooted (unnoticed same)
        · refine ⟨current, (if_neg same).trans present, ?_⟩
          rw [elsewhere same]
          exact sound
      cases name : kind.name item with
      | none =>
          refine ⟨currentNext, fun id stream found => untouched id stream found fun _ => ?_⟩
          intro key value change
          rw [announces.change, name] at change
          cases change
      | some key =>
          dsimp only
          have change : commit.change = some (key, meaning.final item) := by
            rw [announces.change, name, Option.map_some]
          generalize moved : ({ hub with groups := hub.groups.set scope next }
            : Hub Item Edition Stage Reply) = noted
          have sameStreams : noted.streams = hub.streams := by rw [← moved]
          have sameGroups : noted.groups = hub.groups.set scope next := by rw [← moved]
          obtain ⟨keptGroups, visited⟩ :=
            foldl_visit kind limits key item (nodup_watching noted scope key) noted
          refine ⟨fun other found' found => ?_, fun id result found => ?_⟩
          · rw [keptGroups, sameGroups] at found
            exact currentNext other found' found
          · obtain ⟨stream, total, present, outcome⟩ := visited id result found
            have inWatching : id ∈ noted.watching scope (·.isEmpty)
                  ++ noted.watching scope (fun target => !target.isEmpty && target == key)
                ↔ stream.scope = scope ∧ stream.concerns key = true := by
              rw [List.mem_append, mem_watching noted scope _ present,
                mem_watching noted scope _ present, Stream.concerns]
              cases stream.target.isEmpty <;> simp
            rw [sameStreams] at present
            rw [keptGroups, sameGroups]
            by_cases concerned : stream.scope = scope ∧ stream.concerns key = true
            · rw [if_pos (inWatching.mpr concerned)] at outcome
              have sameScope : result.scope = stream.scope := by
                rcases collect_cases kind limits key item stream total with made | ⟨_, made⟩
                  <;> rw [outcome, made]
              obtain ⟨current, reachable, sound⟩ := serving.streams id stream present
              rw [concerned.1, routed] at reachable
              cases reachable
              rw [sameScope, groups, if_pos concerned.1]
              refine ⟨next, rfl, ?_⟩
              rw [concerned.1, before] at sound
              rw [concerned.1, Function.update_self, outcome, ← published]
              exact sound.collect lawful keeps valid rooted name change announces.stamped
                concerned.2 (announces.acts key name) limits total
            · rw [if_neg (fun member => concerned (inWatching.mp member))] at outcome
              subst outcome
              refine untouched id result present fun same other value changed => ?_
              rw [change, Option.some.injEq, Prod.mk.injEq] at changed
              rw [← changed.1]
              simpa [same] using concerned

-- Streams behind a replacement

def Phase.rank : Phase Item Stage Reply → Nat
  | .idle => 0
  | .capturing _ => 1
  | .pruning => 2
  | .selecting => 3
  | .building _ _ => 4
  | .charging => 5
  | .encoding => 6
  | .accepting _ => 7

/-- A step towards the end of a stream: nothing is sent, the round gets on, and a round that
returns while no write is in flight has ended the stream.
-/
structure Ending (before after : Stream Item Edition Stage Reply) : Prop where
  sent : after.sent = before.sent
  onward : after.phase ≠ .idle → before.phase.rank < after.phase.rank
  ends : after.phase = .idle → after.writing = false → after.ended.isSome = true

theorem Ending.finish (stream : Stream Item Edition Stage Reply) (status : Finish)
    : Ending stream (stream.finish status) :=
  ⟨rfl, fun busy => absurd rfl busy, fun _ _ => rfl⟩

/-- A round that gets on. -/
theorem Ending.of_rank {before after : Stream Item Edition Stage Reply}
    (sent : after.sent = before.sent) (onward : before.phase.rank < after.phase.rank)
    : Ending before after := by
  refine ⟨sent, fun _ => onward, fun returned => ?_⟩
  rw [returned] at onward
  exact absurd onward (Nat.not_lt_zero _)

section

variable {group : Group} {timeline announced : List (Commit Bytes V)}
  {stream : Stream Item Edition Stage Reply} {replacement : Commit Bytes V}

/-- The group does not cover a baseline below an announced replacement. -/
theorem Sound.uncovered (sound : Sound kind meaning own group timeline announced stream)
    (alive : stream.ended = none) (started : stream.started = true)
    (settled : stream.phase.rank ≠ 2 ∧ stream.phase.rank ≠ 4)
    (member : replacement ∈ announced) (whole : replacement.change = none)
    (above : stream.baseline kind < replacement.version)
    : stream.overflow = true ∨ group.covers (stream.baseline kind) = false := by
  cases room : stream.overflow with
  | true => exact .inl rfl
  | false =>
      right
      obtain ⟨low, _, heard, bound⟩ := (sound.live alive).suffix room
      have atBaseline : low = stream.baseline kind := by
        unfold Low at bound
        split at bound
        next phase => rw [phase] at settled; exact absurd rfl settled.2
        next phase => rw [phase] at settled; exact absurd rfl settled.1
        · rwa [if_pos started] at bound
      subst atBaseline
      obtain ⟨reset, stored, newer⟩ := heard replacement member above whole
      have behind : ¬ reset ≤ stream.baseline kind := by omega
      simp [Group.covers, stored, behind]

theorem ending_prune (pruning : stream.phase = .pruning) (limits : Limits) (total : Nat)
    : Ending stream (stream.prune kind limits total).1 := by
  unfold Stream.prune Stream.charge
  dsimp only
  split <;> exact .of_rank rfl (by rw [pruning]; exact Nat.lt_succ_self 2)

theorem ending_recharge (charging : stream.phase = .charging) (limits : Limits) (total : Nat)
    : Ending stream (stream.recharge kind limits total).1 := by
  unfold Stream.recharge Stream.charge
  split <;> exact .of_rank rfl (by rw [charging]; exact Nat.lt_succ_self 5)

theorem ending_select (uncovered : stream.overflow = true
      ∨ group.covers (stream.baseline kind) = false)
    : Ending stream (stream.select kind group) := by
  have refused : (stream.overflow || !group.covers (stream.baseline kind)) = true := by
    rcases uncovered with overflow | behind
    · simp [overflow]
    · simp [behind]
  rw [Stream.select, if_pos refused]
  exact .finish stream _

theorem ending_accept (uncovered : stream.overflow = true
      ∨ group.covers (stream.baseline kind) = false)
    (limits : Limits) (stopped : Bool) (page : Reply) (encoded total : Nat)
    : Ending stream (stream.accept kind limits group stopped page encoded total).1 := by
  have refused : (stream.overflow || stopped || !group.covers (stream.baseline kind)
      || exceeds total encoded limits.bytes || exceeds stream.bytes encoded limits.pending)
        = true := by
    rcases uncovered with overflow | behind
    · simp [overflow]
    · simp [behind]
  rw [Stream.accept, if_pos refused]
  exact .finish stream _

/-- The start of a round of a started stream. -/
theorem ending_enter {id : Nat} (found : hub.streams.get? id = some stream) (idle : stream.phase = .idle)
    (isOpen : stream.done = false) (started : stream.started = true) (first : Stage)
    (queued : Bool) (permit : Except Finish Unit)
    : ∃ after, (hub.enter kind first id stream queued permit).streams.get? id = some after
        ∧ Ending stream after := by
  unfold Hub.enter
  rw [isOpen]
  simp only [Bool.false_eq_true, if_false]
  split
  next resting =>
    refine ⟨stream, found, rfl, fun busy => absurd idle busy, fun _ quiet => ?_⟩
    simpa [quiet] using resting
  · split
    · exact ⟨_, hub.get?_update_self id _, .finish stream _⟩
    · split
      · exact ⟨_, hub.get?_update_self id _, .finish stream _⟩
      · have same : (stream.consume kind hub.bytes).1.sent = stream.sent
            ∧ (stream.consume kind hub.bytes).1.started = stream.started := by
          unfold Stream.consume
          split
          · split <;> exact ⟨rfl, rfl⟩
          · exact ⟨rfl, rfl⟩
        refine ⟨_, hub.get?_update_self id _, same.1, ?_, ?_⟩
        · intro _
          simp [idle, same.2, started, Phase.rank]
        · intro returned
          simp only [same.2, started, if_true] at returned
          cases returned

end

end Astra.Watch
