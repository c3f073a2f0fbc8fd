import Verdandi.Star.Catalog.Merging
import Verdandi.Star.Catalog.Replicating

/-! What holds of a Catalog at every step: hooks and deadlines agree, what is shown is the merge,
and no source knows a version that the merge does not.
-/

namespace Astra.Catalog

open Support
open Origin (Name)

-- Records and their hooks

def deadlines (records : Name → Option Record) (name : Name) : Option Int :=
  (records name).bind Record.deadline

def contents (records : Name → Option Record) (name : Name) : Option Content :=
  (records name).bind Record.content

structure Held (records : Name → Option Record) (agenda : Option Agenda) : Prop where
  valid : ∀ name record, records name = some record → record.valid = true
  tied : Tied agenda (deadlines records)

theorem deadlines_update (records : Name → Option Record) (name : Name) (record : Option Record)
    : deadlines (Function.update records name record)
      = Function.update (deadlines records) name (record.bind Record.deadline) := by
  funext other
  rw [deadlines, Function.update_apply, Function.update_apply]
  split <;> rfl

theorem contents_update (records : Name → Option Record) (name : Name) (record : Option Record)
    : contents (Function.update records name record)
      = Function.update (contents records) name (record.bind Record.content) := by
  funext other
  rw [contents, Function.update_apply, Function.update_apply]
  split <;> rfl

/-- A record and its hook change together. -/
theorem Held.set {records : Name → Option Record} {agenda : Option Agenda}
    (held : Held records agenda) {name : Name} {record : Option Record}
    (valid : record.all Record.valid = true)
    (opened : (record.bind Record.deadline).isSome = true → agenda.isSome = true)
    : Held (Function.update records name record)
        (Agenda.hold agenda name (record.bind Record.deadline)) := by
  refine ⟨?_, ?_⟩
  · intro other current isCurrent
    rw [Function.update_apply] at isCurrent
    split at isCurrent
    · rw [isCurrent, Option.all_some] at valid
      exact valid
    · exact held.valid other current isCurrent
  · rw [deadlines_update]
    exact held.tied.hold opened

theorem Held.opened {records : Name → Option Record} {agenda : Option Agenda}
    (held : Held records agenda) (time : Int)
    : Held records (some (agenda.getD { time })) :=
  ⟨held.valid, held.tied.opened time⟩

def Outlives (now : Int) (before after : Name → Option Record) : Prop :=
  ∀ name, after name = before name ∨ after name = (before name).map (·.expire now)

theorem Outlives.refl (now : Int) (records : Name → Option Record)
    : Outlives now records records :=
  fun _ => .inl rfl

theorem Outlives.trans {now : Int} {first second third : Name → Option Record}
    (one : Outlives now first second) (other : Outlives now second third)
    : Outlives now first third := by
  intro name
  rcases one name with same | ended
  · rw [← same]
    exact other name
  · rcases other name with same | again
    · exact .inr (same.trans ended)
    · refine .inr ?_
      rw [again, ended, Option.map_map]
      congr 1
      funext record
      exact Record.expire_expire le_rfl

theorem Outlives.version {now : Int} {before after : Name → Option Record}
    (outlives : Outlives now before after) (name : Name)
    : Catalog.version (after name) = Catalog.version (before name) := by
  rcases outlives name with same | ended
  · rw [same]
  · rw [ended]
    cases before name with
    | none => rfl
    | some record => exact Record.version_expire

structure Stays (before after : Origin Record) : Prop where
  position : after.position = before.position
  history : after.history <:+ before.history
  owned : after.owned = before.owned
  limits : after.limits = before.limits

theorem Stays.refl (origin : Origin Record) : Stays origin origin :=
  ⟨rfl, List.suffix_rfl, rfl, rfl⟩

theorem Stays.trans {first second third : Origin Record} (one : Stays first second)
    (other : Stays second third)
    : Stays first third :=
  ⟨other.position.trans one.position, other.history.trans one.history,
    other.owned.trans one.owned, other.limits.trans one.limits⟩

variable {now : Int}

/-- A change without a position is not sent. -/
theorem stays_of_prepare {traits : Origin.Traits Record} {origin : Origin Record}
    {edit : Origin.Edit Record} {name : Name} {record : Option Record}
    (prepared : origin.prepare traits name record none now = .ok edit)
    : Stays origin (edit.commit origin)
      ∧ (edit.commit origin).find = Function.update origin.find name record := by
  obtain ⟨fits, isName, isRecord, position, _⟩ := Origin.fits_of_prepare prepared
  have published := Origin.Edit.published origin edit
  have unsent : edit.queued = none := by
    cases queued : edit.queued with
    | none => rfl
    | some event =>
        obtain ⟨_, _, _, _, next⟩ := fits.sent event queued
        rw [position] at next
        exact absurd next (Nat.succ_ne_self _).symm
  refine ⟨⟨published.position.trans position, ?_, published.owned, published.limits⟩, ?_⟩
  · rw [published.history, unsent]
    simpa using List.drop_suffix _ _
  · funext other
    rw [Origin.find, published.entries, Assoc.get?_amend, isName, isRecord, Function.update_apply]
    rfl

variable {record : Record}

/-- A record whose lease has ended by its boundary has ended now. -/
theorem Record.expire_of_ended {boundary : Int}
    (ended : record.deadline.filter (boundary < ·) = none) (within : boundary ≤ now)
    : record.expire boundary = record.expire now := by
  cases held : record.deadline with
  | none => rw [Record.expire_of_none held, Record.expire_of_none held]
  | some deadline =>
      have passed : deadline ≤ boundary := by simpa [held] using ended
      rw [Record.expire_of_le held passed, Record.expire_of_le held (passed.trans within)]

theorem Record.deadline_expire_of_ended (ended : record.deadline.filter (now < ·) = none)
    : (record.expire now).deadline = none := by
  cases held : record.deadline with
  | none => rw [Record.expire_of_none held, held]
  | some deadline =>
      have passed : deadline ≤ now := by simpa [held] using ended
      rw [Record.expire_of_le held passed]

theorem Record.content_of_ended (valid : record.valid = true)
    (ended : record.deadline.filter (now < ·) = none)
    : (record.expire now).content = none := by
  have gone := Record.deadline_expire_of_ended ended
  rcases Record.valid_cases (@Record.valid_expire record now valid)
    with ⟨value, _⟩ | ⟨_, _, _, lease⟩
  · rw [Record.content, value, Option.map_none]
  · rw [gone] at lease
    cases lease

namespace State

variable {layout : Layout} {steady now : Int}

/-- The exceptions that the code expects: a maintenance that cannot be committed now. -/
def Expected (fault : Fault) : Prop := ∃ what, fault = .runtimeError what

-- The end of a lease

/-- What an end of a lease can lead to. Witness: the branches in order. -/
theorem expire_cases {projected : Bool} {origin : Origin Record} {stage : Stage Content}
    {agenda : Agenda} {name : Name} {time : Int} {record : Record}
    (found : origin.find name = some record)
    {answer : Answer Error (Origin Record)} {shown : Stage Content}
    (expired : expire layout steady projected origin stage agenda name time = (answer, shown))
    : (∃ refused, answer = .error refused ∧ shown.find = stage.find)
      ∨ (∃ next, answer = .ok next ∧ Stays origin next
        ∧ next.find = Function.update origin.find name (some (record.expire time))
        ∧ shown.find = if projected then Function.update stage.find name none else stage.find)
      ∨ (agenda.hooks.contains name = false ∧ shown.find = stage.find
        ∧ answer = .thrown (.logicError "Active Catalog lacks its timer")) := by
  unfold expire at expired
  rw [found] at expired
  dsimp only at expired
  split at expired
  · cases expired
    exact .inl ⟨_, rfl, rfl⟩
  have opened (opened : Stage Content)
      (isOpened : (if projected = true then stage.obtain' name.scope else .ok stage) = .ok opened)
      : opened.find = stage.find := by
    cases projected with
    | false =>
        cases isOpened
        rfl
    | true => exact Stage.find_obtain isOpened
  split at expired
  · cases expired
    exact .inl ⟨_, rfl, rfl⟩
  rename_i middle isMiddle
  have same := opened middle isMiddle
  split at expired
  · cases expired
    exact .inl ⟨_, rfl, same⟩
  rename_i edit prepared
  obtain ⟨stays, find⟩ := stays_of_prepare prepared
  split at expired
  · cases expired
    exact .inl ⟨_, rfl, same⟩
  rename_i last isLast
  split at expired
  next hooked =>
    cases expired
    refine .inr (.inl ⟨_, rfl, stays, find, ?_⟩)
    cases projected with
    | false =>
        cases isLast
        exact same
    | true =>
        rw [Stage.find_change isLast, same]
        rfl
  rename_i unhooked
  cases expired
  exact .inr (.inr ⟨by simpa using unhooked, same, rfl⟩)

structure Fading (now : Int) (projected : Bool) (origin : Origin Record) (stage : Stage Content)
    (pair : Origin Record × Stage Content)
    : Prop where
  outlives : Outlives now origin.find pair.1.find
  stays : Stays origin pair.1
  valid : ∀ name record, pair.1.find name = some record → record.valid = true
  shown : pair.2.find = if projected then contents pair.1.find else stage.find

/-- An own source and a merge keep what is asked of the owner of an agenda. -/
theorem sound_fire {projected : Bool} (origin : Origin Record) (stage : Stage Content)
    : Agenda.Sound (fire layout steady projected) (fun pair => deadlines pair.1.find)
        (Fading now projected origin stage) Expected now where
  later := by
    intro pair agenda name deadline reported _ isDeadline fired
    unfold fire at fired
    split at fired
    · cases fired
    rename_i record isRecord
    obtain ⟨found, _⟩ := Option.filter_eq_some_iff.mp isRecord
    split at fired
    next held isHeld =>
      cases fired
      rw [deadlines, found, Option.bind_some] at isDeadline
      rw [isDeadline] at isHeld
      exact (Option.some.inj (Option.filter_eq_some_iff.mp isHeld).1).symm
    · split at fired <;> cases fired
  ended := by
    intro pair agenda name deadline next fading isDeadline within fired
    unfold fire at fired
    split at fired
    · cases fired
    rename_i record isRecord
    obtain ⟨found, _⟩ := Option.filter_eq_some_iff.mp isRecord
    split at fired
    · cases fired
    rename_i ended
    have valid := fading.valid name record found
    split at fired
    next last shown expired =>
      cases fired
      rcases expire_cases found expired with ⟨_, refused, _⟩ | accepted | ⟨_, _, thrown⟩
      · cases refused
      · obtain ⟨_, same, stays, find, isShown⟩ := accepted
        cases same
        refine ⟨⟨fading.outlives.trans ?_, fading.stays.trans stays, ?_, ?_⟩, ?_⟩
        · intro other
          dsimp only
          rw [find, Function.update_apply]
          split
          next same =>
            rw [same, found, Option.map_some, ← Record.expire_of_ended ended within]
            exact .inr rfl
          · exact .inl rfl
        · intro other current isCurrent
          dsimp only at isCurrent
          rw [find, Function.update_apply] at isCurrent
          split at isCurrent
          · cases isCurrent
            exact Record.valid_expire valid
          · exact fading.valid other current isCurrent
        · dsimp only
          rw [isShown, fading.shown]
          split
          · rw [find, contents_update, Option.bind_some, Record.content_of_ended valid ended]
          · rfl
        · dsimp only
          rw [find, deadlines_update, Option.bind_some, Record.deadline_expire_of_ended ended]
      · cases thrown
    · cases fired
    · cases fired
  failed := by
    intro pair agenda name deadline fault next fading hooked isDeadline fired
    unfold fire at fired
    split at fired
    next missing =>
      exfalso
      -- A record with a deadline has a value.
      rw [deadlines, Option.bind_eq_some_iff] at isDeadline
      obtain ⟨record, found, lease⟩ := isDeadline
      rcases Record.valid_cases (fading.valid name record found) with ⟨_, none⟩ | ⟨_, _, value, _⟩
      · rw [none] at lease
        cases lease
      · simp [found, value] at missing
    rename_i record isRecord
    obtain ⟨found, _⟩ := Option.filter_eq_some_iff.mp isRecord
    have lease : record.deadline = some deadline := by
      rw [deadlines, found, Option.bind_some] at isDeadline
      exact isDeadline
    split at fired
    · cases fired
    rename_i ended
    have passed : deadline ≤ agenda.time := by simpa [lease] using ended
    split at fired
    · cases fired
    next refused shown expired =>
      cases fired
      rcases expire_cases found expired with ⟨_, _, same⟩ | accepted | ⟨_, _, thrown⟩
      · exact ⟨⟨fading.outlives, fading.stays, fading.valid, same.trans fading.shown⟩, rfl,
          passed, _, rfl⟩
      · obtain ⟨_, accepted, _⟩ := accepted
        cases accepted
      · cases thrown
    rename_i thrown shown expired
    cases fired
    rcases expire_cases found expired with ⟨_, refused, _⟩ | accepted | ⟨unhooked, _⟩
    · cases refused
    · obtain ⟨_, accepted, _⟩ := accepted
      cases accepted
    · rw [hooked] at unhooked
      cases unhooked

structure Wearing (now : Int) (origin : Origin Record) (pair : Origin Record × Nat) : Prop where
  outlives : Outlives now origin.find pair.1.find
  stays : Stays origin pair.1
  valid : ∀ name record, pair.1.find name = some record → record.valid = true

/-- A copy keeps what is asked of the owner of an agenda. -/
theorem sound_fireReplica (origin : Origin Record)
    : Agenda.Sound (fireReplica layout steady) (fun pair => deadlines pair.1.find)
        (Wearing now origin) Expected now where
  later := by
    intro pair agenda name deadline reported _ isDeadline fired
    unfold fireReplica at fired
    split at fired
    · cases fired
    rename_i record isRecord
    obtain ⟨found, _⟩ := Option.filter_eq_some_iff.mp isRecord
    split at fired
    next held isHeld =>
      cases fired
      rw [deadlines, found, Option.bind_some] at isDeadline
      rw [isDeadline] at isHeld
      exact (Option.some.inj (Option.filter_eq_some_iff.mp isHeld).1).symm
    · split at fired <;> cases fired
  ended := by
    intro pair agenda name deadline next wearing isDeadline within fired
    unfold fireReplica at fired
    split at fired
    · cases fired
    rename_i record isRecord
    obtain ⟨found, _⟩ := Option.filter_eq_some_iff.mp isRecord
    split at fired
    · cases fired
    rename_i ended
    split at fired
    · cases fired
    rename_i edit prepared
    cases fired
    obtain ⟨stays, find⟩ := stays_of_prepare prepared
    have valid := wearing.valid name record found
    refine ⟨⟨wearing.outlives.trans ?_, wearing.stays.trans stays, ?_⟩, ?_⟩
    · intro other
      dsimp only
      rw [find, Function.update_apply]
      split
      next same =>
        rw [same, found, Option.map_some, ← Record.expire_of_ended ended within]
        exact .inr rfl
      · exact .inl rfl
    · intro other current isCurrent
      dsimp only at isCurrent
      rw [find, Function.update_apply] at isCurrent
      split at isCurrent
      · cases isCurrent
        exact Record.valid_expire valid
      · exact wearing.valid other current isCurrent
    · dsimp only
      rw [find, deadlines_update, Option.bind_some, Record.deadline_expire_of_ended ended]
  failed := by
    intro pair agenda name deadline fault next wearing _ isDeadline fired
    rw [deadlines, Option.bind_eq_some_iff] at isDeadline
    obtain ⟨record, found, lease⟩ := isDeadline
    unfold fireReplica at fired
    split at fired
    next missing =>
      exfalso
      rcases Record.valid_cases (wearing.valid name record found) with ⟨_, none⟩ | ⟨_, _, value, _⟩
      · rw [none] at lease
        cases lease
      · simp [found, value] at missing
    rename_i current isCurrent
    rw [found] at isCurrent
    obtain ⟨same, _⟩ := Option.filter_eq_some_iff.mp isCurrent
    cases same
    split at fired
    · cases fired
    rename_i ended
    split at fired
    · cases fired
      exact ⟨wearing, rfl, by simpa [lease] using ended, _, rfl⟩
    · cases fired

-- The invariant

def Since (observed : Option Int) (agenda : Option Agenda) : Prop :=
  ∀ held, agenda = some held → ∃ time, observed = some time ∧ held.time ≤ time

/-- What an installation has prepared: the copy with one Scope replaced by that of the complete
state.
-/
structure Fits (source : Origin Record) (task : Replica.Task Record Error)
    (batch : Origin.Batch Record) (rows : List (Name × Record))
    : Prop where
  previous : ∀ name, name ∈ task.previous
    ↔ name.scope = task.scope ∧ (source.find name).isSome = true
  of : batch.Of source
  find : ∀ name, batch.find name
    = if name.scope = task.scope then task.draft.candidate.find name else source.find name
  listed : ∀ name record, (name, record) ∈ rows
    ↔ name.scope = task.scope ∧ task.draft.candidate.find name = some record
  distinct : (rows.map Prod.fst).Nodup
  valid : ∀ row ∈ rows, row.2.valid = true

structure Copied (merged : Name → Option Record) (observed : Option Int)
    (replica : Replica Record Error)
    : Prop where
  held : Held replica.source.find replica.agenda
  remote : replica.source.owned = false
  below : ∀ name, Catalog.version (replica.source.find name) ≤ Catalog.version (merged name)
  since : Since observed replica.agenda
  distinct : (replica.coverage.map Replica.Coverage.name).Nodup
  task : ∀ task batch rows, replica.task = some task → task.prepared = .ok (batch, rows)
    → Fits replica.source task batch rows
  refused : ∀ task reply, replica.task = some task → task.prepared = .error reply
    → ∃ failure, reply = .error failure
  ready : ∀ task, replica.task = some task → replica.retired = false
    → replica.source.position ≤ task.draft.position
      ∧ Replica.ahead replica.coverage task.draft.position = false

structure Coherent (state : State) : Prop where
  source : Held state.source.find state.agenda
  merged : Held state.merged.find state.outlook
  copies : ∀ id replica, state.replicas.get? id = some replica
    → Copied state.merged.find state.observed replica
  shown : state.stage.find = contents state.merged.find
  below : ∀ name, Catalog.version (state.source.find name)
    ≤ Catalog.version (state.merged.find name)
  owned : state.source.owned = true
  unowned : state.merged.owned = false
  since : Since state.observed state.agenda
  sinceMerged : Since state.observed state.outlook

theorem coherent_start (limits : Limits) : Coherent (start limits) where
  source := ⟨nofun, fun _ => rfl⟩
  merged := ⟨nofun, fun _ => rfl⟩
  copies id replica isReplica := by
    have none : (start limits).replicas.get? id = none := Assoc.get?_empty id
    rw [none] at isReplica
    cases isReplica
  shown := rfl
  below := fun _ => le_rfl
  owned := rfl
  unowned := rfl
  since := nofun
  sinceMerged := nofun

inductive Fades (now : Int)
    : Option (Replica Record Error) → Option (Replica Record Error) → Prop where
  | absent : Fades now none none
  | spent {replica : Replica Record Error} (retired : replica.retired = true)
      (idle : replica.task = none) : Fades now (some replica) none
  | kept {before after : Replica Record Error}
      (outlives : Outlives now before.source.find after.source.find)
      (stays : Stays before.source after.source) (coverage : after.coverage = before.coverage)
      (retired : after.retired = before.retired) (task : after.task = before.task)
      (busy : before.task.isSome = true → after = before)
      : Fades now (some before) (some after)

theorem Fades.refl (now : Int) (replica : Option (Replica Record Error))
    : Fades now replica replica := by
  cases replica with
  | none => exact .absent
  | some replica => exact .kept (.refl _ _) (.refl _) rfl rfl rfl fun _ => rfl

theorem Fades.trans {first second third : Option (Replica Record Error)}
    (one : Fades now first second) (other : Fades now second third)
    : Fades now first third := by
  cases one with
  | absent => exact other
  | spent retired idle =>
      cases other
      exact .spent retired idle
  | kept outlives stays coverage retired task busy =>
      cases other with
      | spent isRetired idle => exact .spent (retired ▸ isRetired) (task ▸ idle)
      | kept outlivesNext staysNext coverageNext retiredNext taskNext busyNext =>
          refine .kept (outlives.trans outlivesNext) (stays.trans staysNext)
            (coverageNext.trans coverage) (retiredNext.trans retired) (taskNext.trans task) ?_
          intro isBusy
          exact (busyNext (task ▸ isBusy)).trans (busy isBusy)

structure Aged (now : Int) (before after : State) : Prop where
  source : Outlives now before.source.find after.source.find
  stays : Stays before.source after.source
  merged : Outlives now before.merged.find after.merged.find
  copies : ∀ id, Fades now (before.replicas.get? id) (after.replicas.get? id)
  limits : after.limits = before.limits

theorem Aged.refl (now : Int) (state : State) : Aged now state state :=
  ⟨.refl _ _, .refl _, .refl _ _, fun _ => .refl _ _, rfl⟩

theorem Aged.trans {first second third : State} (one : Aged now first second)
    (other : Aged now second third)
    : Aged now first third :=
  ⟨one.source.trans other.source, one.stays.trans other.stays, one.merged.trans other.merged,
    fun id => (one.copies id).trans (other.copies id), other.limits.trans one.limits⟩

structure Advances (now : Int) (before : State) (result : State × Option Fault) : Prop where
  coherent : Coherent result.1
  aged : Aged now before result.1
  observed : result.1.observed = before.observed
  expected : ∀ fault, result.2 = some fault → Expected fault

variable {state : State} {moment : Moment}

/-- Copies stay below a merge that has only aged. -/
theorem Copied.faded {records after : Name → Option Record} {observed : Option Int}
    {replica : Replica Record Error} (copied : Copied records observed replica)
    (outlives : Outlives now records after)
    : Copied after observed replica :=
  { copied with below := fun name => (outlives.version name).symm ▸ copied.below name }

theorem Coherent.advanceSource (coherent : Coherent state) (time : state.observed = some now)
    : Advances now state (state.advanceSource layout moment now) := by
  unfold State.advanceSource
  cases isAgenda : state.agenda with
  | none => exact ⟨coherent, .refl _ _, rfl, nofun⟩
  | some agenda =>
      obtain ⟨observed, isObserved, onwards⟩ := coherent.since agenda isAgenda
      rw [time] at isObserved
      cases isObserved
      have held := coherent.source
      rw [isAgenda] at held
      obtain ⟨kept, _, within⟩ :=
        @Agenda.Sound.advance _ _ _ _ _ now (state.source, state.stage) agenda moment.source
          (@sound_fire layout moment.steady now false state.source state.stage)
          ⟨.refl _ _, .refl _, held.valid, rfl⟩ held.tied onwards
      dsimp only
      generalize agenda.advance (fire layout moment.steady false) moment.source now
        (state.source, state.stage) = result at kept within
      obtain ⟨⟨source, stage⟩, later, fault⟩ := result
      obtain ⟨ties, good, expected⟩ := kept
      refine ⟨?_, ⟨good.outlives, good.stays, .refl _ _, fun _ => .refl _ _, rfl⟩, rfl, expected⟩
      exact
        { coherent with
          source := ⟨good.valid, ties⟩
          shown := good.shown.trans coherent.shown
          below := fun name => (good.outlives.version name).symm ▸ coherent.below name
          owned := good.stays.owned.trans coherent.owned
          since := by
            rintro _ ⟨⟩
            exact ⟨now, time, within⟩ }

theorem Coherent.advanceMerged (coherent : Coherent state) (time : state.observed = some now)
    : Advances now state (state.advanceMerged layout moment now) := by
  unfold State.advanceMerged
  cases isOutlook : state.outlook with
  | none => exact ⟨coherent, .refl _ _, rfl, nofun⟩
  | some outlook =>
      obtain ⟨observed, isObserved, onwards⟩ := coherent.sinceMerged outlook isOutlook
      rw [time] at isObserved
      cases isObserved
      have held := coherent.merged
      rw [isOutlook] at held
      obtain ⟨kept, _, within⟩ :=
        @Agenda.Sound.advance _ _ _ _ _ now (state.merged, state.stage) outlook moment.merged
          (@sound_fire layout moment.steady now true state.merged state.stage)
          ⟨.refl _ _, .refl _, held.valid, coherent.shown⟩ held.tied onwards
      dsimp only
      generalize outlook.advance (fire layout moment.steady true) moment.merged now
        (state.merged, state.stage) = result at kept within
      obtain ⟨⟨merged, stage⟩, later, fault⟩ := result
      obtain ⟨ties, good, expected⟩ := kept
      refine ⟨?_, ⟨.refl _ _, .refl _, good.outlives, fun _ => .refl _ _, rfl⟩, rfl, expected⟩
      exact
        { coherent with
          merged := ⟨good.valid, ties⟩
          copies := fun id replica isReplica =>
            (coherent.copies id replica isReplica).faded good.outlives
          shown := good.shown
          below := fun name => (good.outlives.version name).symm ▸ coherent.below name
          unowned := good.stays.owned.trans coherent.unowned
          sinceMerged := by
            rintro _ ⟨⟩
            exact ⟨now, time, within⟩ }

/-- A copy is exchanged for one of which the same holds. -/
theorem Coherent.exchange (coherent : Coherent state) {id : Bytes}
    {replica : Replica Record Error}
    (copied : Copied state.merged.find state.observed replica) (replicaBytes : Nat)
    : Coherent { state with replicas := state.replicas.set id replica, replicaBytes } :=
  { coherent with
    copies := by
      intro other current isCurrent
      dsimp only at isCurrent
      rw [Assoc.get?_set] at isCurrent
      split at isCurrent
      · cases isCurrent
        exact copied
      · exact coherent.copies other current isCurrent }

variable {id : Bytes}

theorem aged_exchange {before after : Replica Record Error}
    (isBefore : state.replicas.get? id = some before) (fades : Fades now (some before) (some after))
    (replicaBytes : Nat)
    : Aged now state { state with replicas := state.replicas.set id after, replicaBytes } := by
  refine ⟨.refl _ _, .refl _, .refl _ _, ?_, rfl⟩
  intro other
  dsimp only
  rw [Assoc.get?_set]
  split
  next same =>
    rw [same, isBefore]
    exact fades
  · exact .refl _ _

theorem Coherent.advanceReplica (coherent : Coherent state) (time : state.observed = some now)
    {id : Bytes} (idle : state.free id = true)
    : Advances now state (state.advanceReplica layout moment now id) := by
  unfold State.advanceReplica
  cases isReplica : state.replicas.get? id with
  | none => exact ⟨coherent, .refl _ _, rfl, (by intros; contradiction)⟩
  | some replica =>
      have copied := coherent.copies id replica isReplica
      have isIdle : replica.task = none := by
        simpa [free, isReplica, Replica.busy] using idle
      dsimp only
      cases isAgenda : replica.agenda with
      | none => exact ⟨coherent, .refl _ _, rfl, (by intros; contradiction)⟩
      | some agenda =>
          obtain ⟨observed, isObserved, onwards⟩ := copied.since agenda isAgenda
          rw [time] at isObserved
          cases isObserved
          have held := copied.held
          rw [isAgenda] at held
          obtain ⟨kept, _, within⟩ :=
            @Agenda.Sound.advance _ _ _ _ _ now (replica.source, state.replicaBytes) agenda
              (moment.replica id)
              (@sound_fireReplica layout moment.steady now replica.source)
              ⟨.refl _ _, .refl _, held.valid⟩ held.tied onwards
          dsimp only
          generalize agenda.advance (fireReplica layout moment.steady) (moment.replica id) now
            (replica.source, state.replicaBytes) = result at kept within
          obtain ⟨⟨source, bytes⟩, later, fault⟩ := result
          obtain ⟨ties, good, expected⟩ := kept
          refine ⟨coherent.exchange ?_ _, aged_exchange isReplica ?_ _, rfl, expected⟩
          · exact
              { held := ⟨good.valid, ties⟩
                remote := good.stays.owned.trans copied.remote
                below := fun name => (good.outlives.version name).symm ▸ copied.below name
                since := by
                  rintro _ ⟨⟩
                  exact ⟨now, time, within⟩
                distinct := copied.distinct
                task := by
                  intro task _ _ isTask
                  rw [isIdle] at isTask
                  cases isTask
                refused := by
                  intro task _ isTask
                  rw [isIdle] at isTask
                  cases isTask
                ready := by
                  intro task isTask
                  rw [isIdle] at isTask
                  cases isTask }
          · refine .kept good.outlives good.stays rfl rfl rfl fun isBusy => ?_
            rw [isIdle] at isBusy
            cases isBusy

theorem Coherent.forget (coherent : Coherent state) {id : Bytes} (idle : state.free id = true)
    : Coherent (state.forget id) ∧ Aged now state (state.forget id)
      ∧ (state.forget id).observed = state.observed := by
  unfold State.forget
  cases isReplica : state.replicas.get? id with
  | none => exact ⟨coherent, .refl _ _, rfl⟩
  | some replica =>
      dsimp only
      split
      next spent =>
        refine ⟨?_, ⟨.refl _ _, .refl _, .refl _ _, ?_, rfl⟩, rfl⟩
        · exact
            { coherent with
              copies := by
                intro other current isCurrent
                dsimp only at isCurrent
                rw [Assoc.get?_remove] at isCurrent
                split at isCurrent
                · cases isCurrent
                · exact coherent.copies other current isCurrent }
        · intro other
          dsimp only
          rw [Assoc.get?_remove]
          split
          next same =>
            rw [same, isReplica]
            simp only [Replica.spent, Bool.and_eq_true] at spent
            exact .spent spent.1 (by simpa [free, isReplica, Replica.busy] using idle)
          · exact .refl _ _
      · exact ⟨coherent, .refl _ _, rfl⟩

/-- What ages does not become busy. -/
theorem Aged.free {after : State} (aged : Aged now state after) (idle : state.free id = true)
    : after.free id = true := by
  unfold State.free at idle ⊢
  have fades := aged.copies id
  generalize state.replicas.get? id = before at idle fades
  generalize after.replicas.get? id = later at fades ⊢
  cases fades with
  | absent => rfl
  | spent => rfl
  | kept _ _ _ _ task _ => simpa [Replica.busy, task] using idle

/-- The copies are advanced one after the other. Witness: induction over their identities. -/
theorem Coherent.advanceReplicas (coherent : Coherent state) (time : state.observed = some now)
    (held : Option Bytes) (ids : List Bytes)
    : Coherent (advanceReplicas layout moment now held ids state).1
      ∧ Aged now state (advanceReplicas layout moment now held ids state).1
      ∧ (advanceReplicas layout moment now held ids state).1.observed = state.observed
      ∧ ∀ fault, (advanceReplicas layout moment now held ids state).2.1 = some fault
        → Expected fault := by
  induction ids generalizing state with
  | nil => exact ⟨coherent, .refl _ _, rfl, nofun⟩
  | cons id rest ih =>
      unfold State.advanceReplicas
      split
      · exact ih coherent time
      rename_i replica isReplica
      split
      · exact ih coherent time
      · split
        · exact ih coherent time
        rename_i idle
        have isFree : state.free id = true := by
          simpa [free, isReplica] using idle
        have advances :=
          @Coherent.advanceReplica layout now state moment coherent time id isFree
        generalize state.advanceReplica layout moment now id = result at advances
        obtain ⟨next, fault⟩ := result
        obtain ⟨coherentNext, agedNext, sameNext, expected⟩ := advances
        cases fault with
        | some fault => exact ⟨coherentNext, agedNext, sameNext, expected⟩
        | none =>
            dsimp only at coherentNext agedNext sameNext ⊢
            obtain ⟨coherentLast, agedLast, sameLast⟩ :=
              @Coherent.forget now next coherentNext id (agedNext.free isFree)
            have same := sameLast.trans sameNext
            obtain ⟨whole, aged, sameRest, expectedRest⟩ := ih coherentLast (same.trans time)
            exact ⟨whole, agedNext.trans (agedLast.trans aged), sameRest.trans same, expectedRest⟩

/-- What is due ends, and everything else stays. -/
theorem Coherent.advance (coherent : Coherent state) (time : state.observed = some now)
    (held : Option Bytes)
    : Advances now state (state.advance layout moment now held) := by
  unfold State.advance
  split
  · exact ⟨coherent, .refl _ _, rfl, nofun⟩
  have first := @Coherent.advanceSource layout now state moment coherent time
  generalize state.advanceSource layout moment now = result at first
  obtain ⟨next, fault⟩ := result
  cases fault with
  | some fault => exact first
  | none =>
      dsimp only at first ⊢
      have second := @Coherent.advanceMerged layout now next moment first.coherent
        (first.observed.trans time)
      generalize next.advanceMerged layout moment now = result at second
      obtain ⟨later, fault⟩ := result
      cases fault with
      | some fault =>
          exact ⟨second.coherent, first.aged.trans second.aged,
            second.observed.trans first.observed, second.expected⟩
      | none =>
          dsimp only at second ⊢
          have both := first.aged.trans second.aged
          have same := second.observed.trans first.observed
          obtain ⟨coherentLast, agedLast, sameLast, expected⟩ :=
            @Coherent.advanceReplicas layout now later moment second.coherent
              (same.trans time) held later.identities
          generalize State.advanceReplicas layout moment now held later.identities later = result
            at coherentLast agedLast sameLast expected
          obtain ⟨last, fault, blocked⟩ := result
          cases fault with
          | some fault =>
              exact ⟨coherentLast, both.trans agedLast, sameLast.trans same, expected⟩
          | none =>
              refine ⟨{ coherentLast with }, ?_, sameLast.trans same, nofun⟩
              have aged := both.trans agedLast
              exact { aged with }

end State

end Astra.Catalog
