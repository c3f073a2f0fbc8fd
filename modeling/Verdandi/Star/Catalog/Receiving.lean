import Verdandi.Star.Catalog.Writing

/-! Facts of other Stars. Every operation lets time pass, and then does one thing to one copy.
-/

namespace Astra.Catalog

open Support
open Origin (Name)

namespace State

variable {layout : Layout} {state : State} {moment : Moment}

/-- A copy as it can be there. -/
abbrev Copy := Replica Record Error

-- What becomes of one copy

structure Turned (id : Bytes) (turn : Option Copy → Option Copy → Prop) (before after : State)
    : Prop where
  others : ∀ other, other ≠ id → after.replicas.get? other = before.replicas.get? other
  own : turn (before.replicas.get? id) (after.replicas.get? id)
  source : after.source = before.source
  observed : after.observed = before.observed
  limits : after.limits = before.limits
  rises : Rises before after

def Until (state : State) (now : Int) : Prop := ∀ time, state.observed = some time → time ≤ now

/-- What may become of a copy, up to the time that was observed. -/
abbrev Turn := (Int → Prop) → Option Copy → Option Copy → Prop

/-- What an operation on one copy leads to: time passes, and once something may be done to the
copy, which is certain where it is accepted.
-/
structure Learned (id : Bytes) (turn : Turn) (before : State)
    (fault : Option Fault) (after : State) (accepted : Prop := False)
    : Prop where
  coherent : Coherent after
  outcome : (¬ accepted ∧ Passes before after)
    ∨ ∃ middle, Passes before middle ∧ Turned id (turn after.Until) middle after
  expected : ∀ thrown, fault = some thrown → Expected thrown

variable {id : Bytes} {before : State} {fault : Option Fault} {accepted : Prop}

theorem Learned.after {turn : Turn} {first last : State} (passes : Passes before first)
    (learned : Learned id turn first fault last accepted)
    : Learned id turn before fault last accepted := by
  refine ⟨learned.coherent, ?_, learned.expected⟩
  rcases learned.outcome with ⟨refused, passed⟩ | ⟨middle, passed, turned⟩
  · exact .inl ⟨refused, passes.trans passed⟩
  · exact .inr ⟨middle, passes.trans passed, turned⟩

theorem Learned.mono {id : Bytes} {turn other : Turn}
    {before after : State} {fault : Option Fault} (learned : Learned id turn before fault after)
    (wider : ∀ reached first last, turn reached first last → other reached first last)
    : Learned id other before fault after := by
  refine ⟨learned.coherent, ?_, learned.expected⟩
  rcases learned.outcome with ⟨refused, passed⟩ | ⟨middle, passed, turned⟩
  · exact .inl ⟨refused, passed⟩
  · exact .inr ⟨middle, passed, { turned with own := wider _ _ _ turned.own }⟩

variable {after : State}

theorem Learned.rises {turn : Turn} (learned : Learned id turn before fault after accepted)
    : Rises before after := by
  rcases learned.outcome with ⟨_, passed⟩ | ⟨middle, passed, turned⟩
  · exact passed.rises
  · exact passed.rises.trans turned.rises

variable {replica : Copy}

/-- A copy that nobody prepares. -/
theorem Copied.idle {records : Name → Option Record} {observed : Option Int}
    (idle : replica.task = none) (held : Held replica.source.find replica.agenda)
    (remote : replica.source.owned = false)
    (below : ∀ name, Catalog.version (replica.source.find name) ≤ Catalog.version (records name))
    (since : Since observed replica.agenda)
    (distinct : (replica.coverage.map Replica.Coverage.name).Nodup)
    : Copied records observed replica where
  held := held
  remote := remote
  below := below
  since := since
  distinct := distinct
  task := by
    intro task _ _ isTask
    rw [idle] at isTask
    cases isTask
  refused := by
    intro task _ isTask
    rw [idle] at isTask
    cases isTask
  ready := by
    intro task isTask
    rw [idle] at isTask
    cases isTask

theorem idle_of_free (isReplica : state.replicas.get? id = some replica)
    (free : state.free id = true)
    : replica.task = none := by
  simpa [State.free, isReplica, Replica.busy] using free

/-- A copy is exchanged and nothing else. -/
theorem turned_exchange {id : Bytes} {turn : Option Copy → Option Copy → Prop} {after : Copy}
    {replicaBytes : Nat} (own : turn (state.replicas.get? id) (some after))
    : Turned id turn state
        { state with replicas := state.replicas.set id after, replicaBytes } where
  others := by
    intro other differs
    dsimp only
    rw [Assoc.get?_set, if_neg differs]
  own := by
    dsimp only
    rw [Assoc.get?_set, if_pos rfl]
    exact own
  source := rfl
  observed := rfl
  limits := rfl
  rises := fun _ => le_rfl

/-- A copy that was exchanged at once. -/
theorem Coherent.turn (coherent : Coherent state) {id : Bytes}
    {turn : Turn} {after : Copy}
    (copied : Copied state.merged.find state.observed after)
    (own : ∀ reached, turn reached (state.replicas.get? id) (some after)) {accepted : Prop}
    : Learned id turn state none { state with replicas := state.replicas.set id after }
        accepted := by
  refine ⟨@Coherent.exchange state coherent id after copied state.replicaBytes, .inr ?_, nofun⟩
  exact ⟨state, .refl _, @turned_exchange state id _ after state.replicaBytes (own _)⟩

theorem Coherent.rest (coherent : Coherent state) {turn : Turn}
    : Learned id turn state none state :=
  ⟨coherent, .inl ⟨not_false, .refl _⟩, nofun⟩

theorem Coherent.refuse (coherent : Coherent state) {id : Bytes}
    {turn : Turn} {accepted : Prop} (refused : ¬ accepted)
    : Learned id turn state none state accepted :=
  ⟨coherent, .inl ⟨refused, .refl _⟩, nofun⟩

-- Identities

def Admitted (_ : Int → Prop) (before after : Option Copy) : Prop :=
  before = none ∧ ∃ replica, after = some replica ∧ replica.source.find = (fun _ => none)
    ∧ replica.source.position = 0 ∧ replica.coverage = [] ∧ replica.task = none
    ∧ replica.retired = false

def Retired (_ : Int → Prop) (before after : Option Copy) : Prop :=
  ∃ replica, before = some replica ∧ after = some { replica with retired := true, coverage := [] }

def thrown {Value : Type} : Answer Error Value → Option Fault
  | .thrown fault => some fault
  | _ => none

theorem Coherent.admitReplica (coherent : Coherent state) (id : Bytes)
    : Learned id Admitted state (thrown (state.admitReplica id).1) (state.admitReplica id).2 := by
  unfold State.admitReplica
  split
  · exact coherent.rest
  split
  · split <;> exact coherent.rest
  rename_i missing
  split
  · exact coherent.rest
  refine coherent.turn ?_ fun _ => ⟨missing, _, rfl, rfl, rfl, rfl, rfl, rfl⟩
  exact .idle rfl ⟨(by intros; contradiction), fun _ => rfl⟩ rfl (fun _ => Nat.zero_le _)
    (by intro _ scheduled; cases scheduled) List.nodup_nil

theorem Coherent.retire (coherent : Coherent state) (id : Bytes)
    : Learned id Retired state none (state.retire id) := by
  unfold State.retire
  cases isReplica : state.replicas.get? id with
  | none => exact coherent.rest
  | some replica =>
      have copied := coherent.copies id replica isReplica
      have exchanged := @Coherent.exchange state coherent id
        { replica with retired := true, coverage := [] }
        { copied with distinct := List.nodup_nil, ready := nofun } state.replicaBytes
      have turned := @turned_exchange state id (Retired state.Until)
        { replica with retired := true, coverage := [] } state.replicaBytes ⟨replica, isReplica, rfl⟩
      exact ⟨{ exchanged with }, .inr ⟨state, .refl _, { turned with }⟩, nofun⟩

-- Positions

structure Skips (name : Name) (target : Nat) (before after : Copy) : Prop where
  lively : before.retired = false
  next : target = before.source.position + 1
  known : target ≤ Replica.covered before.coverage name
  find : after.source.find = before.source.find
  position : after.source.position = target
  coverage : after.coverage = Replica.pass before.coverage target
  retired : after.retired = false
  idle : after.task = none

def Skipped (name : Name) (position : Nat) (_ : Int → Prop) (before after : Option Copy) : Prop :=
  ∃ replica passed, before = some replica ∧ after = some passed ∧ Skips name position replica passed

theorem Copied.skip {records : Name → Option Record} {observed : Option Int}
    {replica passed : Copy} (copied : Copied records observed replica)
    (idle : replica.task = none) {name : Name} {position : Nat} {steady : Int}
    (skipped : State.skip layout replica name position steady = .ok passed)
    : Copied records observed passed ∧ passed.source.find = replica.source.find
      ∧ passed.source.position = position
      ∧ passed.coverage = Replica.pass replica.coverage position
      ∧ passed.retired = replica.retired ∧ passed.task = none := by
  unfold State.skip at skipped
  split at skipped
  · cases skipped
  rename_i edit isEdit
  cases skipped
  obtain ⟨_, isName, isRecord, isPosition, _⟩ := Origin.fits_of_prepare isEdit
  have same : (edit.commit replica.source).find = replica.source.find := by
    rw [find_commit, isName, isRecord, Function.update_eq_self]
  have published := Origin.Edit.published replica.source edit
  refine ⟨.idle idle ?_ (published.owned.trans copied.remote) ?_ copied.since ?_, same,
    published.position.trans isPosition, rfl, rfl, idle⟩
  · dsimp only
    rw [same]
    exact copied.held
  · dsimp only
    rw [same]
    exact copied.below
  · exact copied.distinct.sublist (List.filter_sublist.map _)

theorem Coherent.covered (coherent : Coherent state) (free : state.free id = true) (position : Nat)
    (name : Name) (steady : Int)
    : Learned id (Skipped name position) state
        (thrown (state.covered layout id position name steady).1)
        (state.covered layout id position name steady).2 := by
  unfold State.covered
  split
  · exact coherent.rest
  rename_i shaped
  cases isReplica : state.replicas.get? id with
  | none => exact coherent.rest
  | some replica =>
      dsimp only
      split
      · exact coherent.rest
      rename_i lively
      split
      · exact coherent.rest
      split
      · exact coherent.rest
      rename_i follows
      split
      next known =>
        cases skipped : State.skip layout replica name position steady with
        | error refused => exact coherent.rest
        | ok passed =>
            have copied := coherent.copies id replica isReplica
            obtain ⟨copiedNext, find, isPosition, coverage, retired, idle⟩ :=
              copied.skip (idle_of_free isReplica free) skipped
            refine coherent.turn copiedNext fun _ => ⟨replica, passed, isReplica, rfl, ?_⟩
            simp only [not_or, not_not] at shaped follows
            exact
              { lively := by simpa using lively
                next := follows.2
                known := by
                  rw [Replica.le_covered_iff copied.distinct (Nat.pos_of_ne_zero shaped.2.2)]
                  simpa [and_assoc] using known
                find
                position := isPosition
                coverage
                retired := retired.trans (by simpa using lively)
                idle }
      · exact coherent.rest

structure Confirms (position : Nat) (before after : Copy) : Prop where
  lively : before.retired = false
  reached : before.source.position ≤ position
  whole : Replica.ahead before.coverage position = false
  find : after.source.find = before.source.find
  isPosition : after.source.position = position
  coverage : after.coverage = []
  retired : after.retired = false
  idle : after.task = none

def Confirmed (position : Nat) (_ : Int → Prop) (before after : Option Copy) : Prop :=
  ∃ replica last, before = some replica ∧ after = some last ∧ Confirms position replica last

theorem Coherent.finish (coherent : Coherent state) {id : Bytes} (free : state.free id = true)
    (position : Nat)
    : Learned id (Confirmed position) state (thrown (state.finish id position).1)
        (state.finish id position).2 := by
  unfold State.finish
  cases isReplica : state.replicas.get? id with
  | none => exact coherent.rest
  | some replica =>
      dsimp only
      split
      · exact coherent.rest
      rename_i lively
      cases confirmed : replica.source.confirm position with
      | none => exact coherent.rest
      | some source =>
          have copied := coherent.copies id replica isReplica
          have idle := idle_of_free isReplica free
          unfold Origin.confirm at confirmed
          split at confirmed
          · cases confirmed
          rename_i reached
          cases confirmed
          simp only [not_or, Bool.not_eq_true, Nat.not_lt] at lively reached
          refine coherent.turn ?_ fun _ => ⟨replica, _, isReplica, rfl, ?_⟩
          · exact .idle idle copied.held copied.remote copied.below copied.since List.nodup_nil
          · exact
              { lively := lively.1
                reached := reached.2
                whole := lively.2
                find := rfl
                isPosition := rfl
                coverage := rfl
                retired := lively.1
                idle }

-- Single facts

def Fact.left (fact : Fact) (time : Int) : Option Record := fact.record.map (·.expire time)

structure Arrived (state : State) (replica : Copy) (fact : Fact) (time : Int) (arrival : Arrival)
    : Prop where
  record : arrival.record = fact.left time
  sourceName : arrival.source.name = fact.name
  sourceRecord : arrival.source.record = arrival.record
  sourcePosition : arrival.source.position
    = if fact.repair then replica.source.position else fact.position
  merged : ∀ record, arrival.record = some record
    → ∃ change edit, arrival.combined = some (change, edit)
      ∧ Combined (state.merged.find fact.name) record time change
      ∧ edit.name = fact.name ∧ edit.record = some change.record
  unmerged : arrival.record = none → arrival.combined = none
  shown : arrival.stage.find = match arrival.combined with
      | some (change, _) =>
          if change.visible then
            Function.update state.stage.find fact.name change.record.content
          else state.stage.find
      | none => state.stage.find

/-- What is computed of a value that may be missing. -/
theorem ok_of_mapM {Failure First Second : Type} {compute : First → Except Failure Second}
    {value : Option First} {result : Option Second} (mapped : value.mapM compute = .ok result)
    : (value = none ∧ result = none) ∨ ∃ first second, value = some first ∧ result = some second
        ∧ compute first = .ok second := by
  cases value with
  | none =>
      cases mapped
      exact .inl ⟨rfl, rfl⟩
  | some first =>
      cases computed : compute first with
      | error refused => simp [computed, Functor.map, Except.map] at mapped
      | ok second =>
          refine .inr ⟨first, second, rfl, ?_, computed⟩
          simpa [computed, Bind.bind, Except.bind, Functor.map, Except.map, pure, Except.pure,
            eq_comm] using mapped

variable {steady : Int}

/-- A change of the merge is shown if it is visible. Witness: a Scope is opened if it has to be. -/
theorem find_show {name : Name} {change : Change} {last : Stage Content}
    (shown : ((if (state.stage.locate name.scope).isSome then .ok state.stage
        else state.stage.obtain' name.scope).bind fun stage =>
      stage.change layout.measure name change.record.content steady) = .ok last)
    : last.find = Function.update state.stage.find name change.record.content := by
  split at shown
  · exact Stage.find_change shown
  · cases opened : state.stage.obtain' name.scope with
    | error refused =>
        rw [opened] at shown
        cases shown
    | ok stage =>
        rw [opened] at shown
        rw [Stage.find_change shown, Stage.find_obtain opened]

variable {fact : Fact} {time : Int} {arrival : Arrival}

theorem arrived_of_prepareFact
    (prepared : state.prepareFact layout replica fact time steady = .ok arrival)
    : Arrived state replica fact time arrival := by
  unfold State.prepareFact at prepared
  dsimp only at prepared
  split at prepared
  · cases prepared
  next combined isCombined =>
  split at prepared
  · cases prepared
  next source isSource =>
  split at prepared
  · cases prepared
  split at prepared
  · cases prepared
  next merged isMerged =>
  obtain ⟨_, sourceName, sourceRecord, sourcePosition, _⟩ := Origin.fits_of_prepare isSource
  have position : source.position
      = if fact.repair then replica.source.position else fact.position := by
    rw [sourcePosition]
    split <;> rfl
  rcases ok_of_mapM isCombined with ⟨isRecord, rfl⟩ | ⟨record, change, isRecord, rfl, isChange⟩
  · cases isMerged
    cases prepared
    exact
      { record := rfl
        sourceName
        sourceRecord
        sourcePosition := position
        merged := by
          intro record equal
          rw [isRecord] at equal
          cases equal
        unmerged := fun _ => rfl
        shown := rfl }
  · rcases ok_of_mapM isMerged with ⟨missing, _⟩ | ⟨_, pair, equal, rfl, isPair⟩
    · cases missing
    cases equal
    cases isEdit : state.merged.prepare layout.traits fact.name (some change.record) none
        steady with
    | error refused =>
        rw [isEdit] at isPair
        cases isPair
    | ok edit =>
        rw [isEdit] at isPair
        cases isPair
        obtain ⟨_, editName, editRecord, _⟩ := Origin.fits_of_prepare isEdit
        have whole (stage : Stage Content)
            (shown : stage.find
              = if change.visible then
                  Function.update state.stage.find fact.name change.record.content
                else state.stage.find)
            : Arrived state replica fact time
                { record := fact.left time, source, combined := some (change, edit), stage } :=
          { record := rfl
            sourceName
            sourceRecord
            sourcePosition := position
            merged := by
              intro other equal
              change fact.record.map (·.expire time) = some other at equal
              rw [isRecord] at equal
              cases equal
              exact ⟨change, edit, rfl, combined_of_merge isChange, editName, editRecord⟩
            unmerged := by
              intro equal
              change fact.record.map (·.expire time) = none at equal
              rw [isRecord] at equal
              cases equal
            shown }
        split at prepared
        next unseen =>
          cases prepared
          refine whole _ ?_
          have invisible : ¬ change.visible = true := by simpa using unseen
          rw [if_neg invisible]
        rename_i seen isSeen
        obtain ⟨same, visible⟩ := Option.filter_eq_some_iff.mp isSeen
        cases same
        split at prepared
        · cases prepared
        rename_i last isLast
        cases prepared
        refine whole _ ?_
        rw [if_pos visible, find_show isLast]

structure Opens (id : Bytes) (before after : State) : Prop where
  coherent : Coherent after
  passes : Passes before after
  merged : after.merged = before.merged
  stage : after.stage = before.stage
  observed : after.observed = before.observed
  copy : ∀ replica, before.replicas.get? id = some replica
    → ∃ agenda, after.replicas.get? id = some { replica with agenda }
      ∧ (replica.agenda.isSome = true → agenda.isSome = true)

theorem Opens.refl (coherent : Coherent state) (id : Bytes) : Opens id state state :=
  ⟨coherent, .refl _, rfl, rfl, rfl,
    fun _ isReplica => ⟨_, isReplica, fun opened => opened⟩⟩

theorem Opens.trans {id : Bytes} {first second third : State} (one : Opens id first second)
    (other : Opens id second third)
    : Opens id first third := by
  refine ⟨other.coherent, one.passes.trans other.passes, other.merged.trans one.merged,
    other.stage.trans one.stage, other.observed.trans one.observed, ?_⟩
  intro replica isReplica
  obtain ⟨middle, isMiddle, kept⟩ := one.copy replica isReplica
  obtain ⟨last, isLast, keptLast⟩ := other.copy _ isMiddle
  exact ⟨last, isLast, fun opened => keptLast (kept opened)⟩

theorem Coherent.opensReplica (coherent : Coherent state) (observed : state.observed = some time)
    (free : state.free id = true)
    : Opens id state (state.openReplica id time)
      ∧ ∀ replica, (state.openReplica id time).replicas.get? id = some replica
        → replica.agenda.isSome = true := by
  unfold State.openReplica
  cases isReplica : state.replicas.get? id with
  | none =>
      refine ⟨.refl coherent id, ?_⟩
      intro replica equal
      dsimp only at equal
      rw [isReplica] at equal
      cases equal
  | some replica =>
      dsimp only
      split
      next opened =>
        refine ⟨.refl coherent id, ?_⟩
        intro other equal
        rw [isReplica] at equal
        cases equal
        exact opened
      rename_i missing
      have copied := coherent.copies id replica isReplica
      have idle := idle_of_free isReplica free
      have held := copied.held.opened time
      have none : replica.agenda = none := by simpa using missing
      rw [none] at held
      have after : Copied state.merged.find state.observed
          { replica with agenda := some { time } } := by
        refine .idle idle held copied.remote copied.below ?_ copied.distinct
        rintro _ ⟨⟩
        exact ⟨time, observed, le_rfl⟩
      have fades (now : Int)
          : Fades now (some replica) (some { replica with agenda := some { time } }) := by
        refine .kept (.refl _ _) (.refl _) rfl rfl rfl ?_
        intro busy
        rw [idle] at busy
        cases busy
      have exchanged := @Coherent.exchange state coherent id _ after state.replicaBytes
      refine ⟨⟨{ exchanged with }, ⟨fun other isOther => ⟨other, isOther, le_rfl⟩, ?_⟩, rfl, rfl,
        rfl, ?_⟩, ?_⟩
      · intro now _
        exact { aged_exchange isReplica (fades now) state.replicaBytes with }
      · intro other equal
        rw [isReplica] at equal
        cases equal
        refine ⟨some { time }, ?_, fun _ => rfl⟩
        dsimp only
        rw [Assoc.get?_set, if_pos rfl]
      · intro other equal
        dsimp only at equal
        rw [Assoc.get?_set, if_pos rfl] at equal
        cases equal
        rfl

theorem Coherent.opensOutlook (coherent : Coherent state) (id : Bytes)
    (observed : state.observed = some time)
    : Opens id state (state.openOutlook time) ∧ (state.openOutlook time).outlook.isSome = true := by
  obtain ⟨whole, passes, opened⟩ := coherent.openOutlook observed
  refine ⟨⟨whole, passes, ?_, ?_, ?_, ?_⟩, opened⟩
  all_goals unfold State.openOutlook
  · split <;> rfl
  · split <;> rfl
  · split <;> rfl
  · intro replica isReplica
    refine ⟨replica.agenda, ?_, fun opened => opened⟩
    split <;> exact isReplica

/-- A fact opens what its records need. -/
theorem Coherent.opensFact (coherent : Coherent state) {id : Bytes} {arrival : Arrival}
    {time : Int} (observed : state.observed = some time) (free : state.free id = true)
    : Opens id state (state.openFact id arrival time)
      ∧ (arrival.record.any (·.value.isSome) = true
        → ∀ replica, (state.openFact id arrival time).replicas.get? id = some replica
          → replica.agenda.isSome = true)
      ∧ (arrival.combined.any (·.1.record.value.isSome) = true
        → (state.openFact id arrival time).outlook.isSome = true) := by
  have first : Opens id state
        (if arrival.record.any (·.value.isSome) then state.openReplica id time else state)
      ∧ (arrival.record.any (·.value.isSome) = true
        → ∀ replica, (if arrival.record.any (·.value.isSome) then state.openReplica id time
            else state).replicas.get? id = some replica
          → replica.agenda.isSome = true) := by
    split
    next needed =>
      obtain ⟨opens, opened⟩ := coherent.opensReplica observed free
      exact ⟨opens, fun _ => opened⟩
    next spare => exact ⟨.refl coherent id, fun needed => absurd needed spare⟩
  unfold State.openFact
  dsimp only
  generalize (if arrival.record.any (·.value.isSome) then state.openReplica id time else state)
    = middle at first
  obtain ⟨opens, opened⟩ := first
  split
  next needed =>
    obtain ⟨opensLast, isOpen⟩ :=
      opens.coherent.opensOutlook id (opens.observed.trans observed)
    refine ⟨opens.trans opensLast, ?_, fun _ => isOpen⟩
    intro isSome replica isReplica
    refine opened isSome replica ?_
    unfold State.openOutlook at isReplica
    split at isReplica <;> exact isReplica
  next spare => exact ⟨opens, opened, fun needed => absurd needed spare⟩

structure Takes (fact : Fact) (replica : Copy) : Prop where
  valid : fact.valid = true
  lively : replica.retired = false
  idle : replica.task = none
  beyond : replica.source.position < fact.position
  next : fact.repair = false → fact.position = replica.source.position + 1
  unknown : Replica.covered replica.coverage fact.name < fact.position

structure Tells (fact : Fact) (time : Int) (before after : Copy) : Prop where
  takes : Takes fact before
  find : after.source.find = Function.update before.source.find fact.name (fact.left time)
  position : after.source.position = if fact.repair then before.source.position else fact.position
  coverage : after.coverage
    = if fact.repair then Replica.note fact.name fact.position before.coverage
      else Replica.pass before.coverage fact.position
  retired : after.retired = false
  idle : after.task = none

def Told (fact : Fact) (reached : Int → Prop) (before after : Option Copy) : Prop :=
  ∃ replica last time, before = some replica ∧ after = some last
    ∧ (∀ now, reached now → time ≤ now) ∧ Tells fact time replica last

theorem value_of_lease {record : Option Record} (valid : record.all Record.valid = true)
    (lease : (record.bind Record.deadline).isSome = true)
    : record.any (·.value.isSome) = true := by
  cases record with
  | none => cases lease
  | some record =>
      rw [Option.any_some, (Record.valid_iff.mp valid).2.1]
      exact lease

/-- The merge takes what is left of a fact. -/
theorem Coherent.absorbFact (coherent : Coherent state)
    (arrived : Arrived state replica fact time arrival)
    (opened : arrival.combined.any (·.1.record.value.isSome) = true → state.outlook.isSome = true)
    : Coherent
        { state with
          merged := arrival.combined.elim state.merged fun pair => pair.2.commit state.merged
          outlook :=
            arrival.combined.elim state.outlook fun pair =>
              Agenda.hold state.outlook fact.name pair.1.record.deadline
          stage := arrival.stage }
      ∧ (∀ name, Catalog.version (state.merged.find name)
        ≤ Catalog.version
          ((arrival.combined.elim state.merged fun pair => pair.2.commit state.merged).find name))
      ∧ Catalog.version (fact.left time)
        ≤ Catalog.version ((arrival.combined.elim state.merged fun pair =>
          pair.2.commit state.merged).find fact.name) := by
  have shown := arrived.shown
  cases isLeft : fact.left time with
  | none =>
      rw [arrived.unmerged (arrived.record.trans isLeft)] at shown ⊢
      refine ⟨?_, fun _ => le_rfl, Nat.zero_le _⟩
      exact coherent.absorb coherent.merged (shown.trans coherent.shown) coherent.unowned
        (fun _ => le_rfl) coherent.sinceMerged
  | some record =>
      obtain ⟨change, edit, isCombined, combined, editName, editRecord⟩ :=
        arrived.merged record (arrived.record.trans isLeft)
      rw [isCombined] at shown opened ⊢
      have find : (edit.commit state.merged).find
          = Function.update state.merged.find fact.name (some change.record) := by
        rw [find_commit, editName, editRecord]
      have rises : ∀ name, Catalog.version (state.merged.find name)
          ≤ Catalog.version ((edit.commit state.merged).find name) := by
        intro name
        rw [find]
        exact rises_update combined name
      refine ⟨?_, rises, ?_⟩
      · refine coherent.absorb ?_ ?_ ((Origin.Edit.published _ _).owned.trans coherent.unowned)
          rises (coherent.sinceMerged.hold _ _)
        · rw [Option.elim_some, find]
          refine @Held.set _ _ coherent.merged fact.name (some change.record) ?_ ?_
          · simpa using combined.valid
          · intro lease
            refine opened (value_of_lease ?_ lease)
            simpa using combined.valid
        · dsimp only at shown
          rw [Option.elim_some, find, shown, coherent.shown, shown_update combined]
      · rw [Option.elim_some, find, Function.update_self]
        change record.version ≤ change.record.version
        rw [combined.version]
        exact le_max_right _ _

theorem Coherent.commitFact (coherent : Coherent state) {id : Bytes} {replica : Copy}
    (isReplica : state.replicas.get? id = some replica) {fact : Fact} (takes : Takes fact replica)
    {time : Int} {arrival : Arrival} (arrived : Arrived state replica fact time arrival)
    (valid : fact.record.all Record.valid = true)
    (opened : arrival.record.any (·.value.isSome) = true → replica.agenda.isSome = true)
    (openedMerged : arrival.combined.any (·.1.record.value.isSome) = true
      → state.outlook.isSome = true)
    {reached : Int → Prop} (within : ∀ now, reached now → time ≤ now)
    : Coherent (state.commitFact id replica fact arrival)
      ∧ Turned id (Told fact reached) state (state.commitFact id replica fact arrival) := by
  have copied := coherent.copies id replica isReplica
  have findSource : (arrival.source.commit replica.source).find
      = Function.update replica.source.find fact.name (fact.left time) := by
    rw [find_commit, arrived.sourceName, arrived.sourceRecord, arrived.record]
  have validLeft : (fact.left time).all Record.valid = true := by
    unfold Fact.left
    cases isRecord : fact.record with
    | none => rfl
    | some record =>
        rw [isRecord, Option.all_some] at valid
        simpa using Record.valid_expire valid
  have isCopied := coherent.absorbFact arrived openedMerged
  obtain ⟨absorbed, rises, above⟩ := isCopied
  let last : Copy :=
    { replica with
      source := arrival.source.commit replica.source
      agenda := Agenda.hold replica.agenda fact.name (arrival.record.bind Record.deadline)
      coverage :=
        if fact.repair then Replica.note fact.name fact.position replica.coverage
        else Replica.pass replica.coverage fact.position }
  have after : Copied
      (arrival.combined.elim state.merged fun pair => pair.2.commit state.merged).find
      state.observed last := by
    refine .idle takes.idle ?_ ((Origin.Edit.published _ _).owned.trans copied.remote) ?_
      (copied.since.hold _ _) ?_
    · dsimp only [last]
      rw [findSource, arrived.record]
      refine copied.held.set validLeft fun needed => opened ?_
      rw [arrived.record]
      exact value_of_lease validLeft needed
    · intro other
      dsimp only [last]
      rw [findSource, Function.update_apply]
      split
      next same =>
        rw [same]
        exact above
      · exact (copied.below other).trans (rises other)
    · dsimp only [last]
      split
      · exact Replica.distinct_note copied.distinct
      · exact copied.distinct.sublist (List.filter_sublist.map _)
  refine ⟨@Coherent.exchange _ absorbed id last after _, ?_⟩
  have turned := @turned_exchange state id (Told fact reached) last
    (state.replicaBytes - replica.source.charged + (arrival.source.commit replica.source).charged)
    ⟨replica, _, time, isReplica, rfl, within,
      { takes
        find := findSource
        position := (Origin.Edit.published _ _).position.trans arrived.sourcePosition
        coverage := rfl
        retired := takes.lively
        idle := takes.idle }⟩
  exact { turned with rises }

/-- A copy that fades takes the same facts. -/
theorem Fades.takes {now : Int} {before after : Copy} (fades : Fades now (some before) (some after))
    (takes : Takes fact before)
    : Takes fact after := by
  cases fades with
  | kept outlives stays coverage retired task busy =>
      exact
        { valid := takes.valid
          lively := retired.trans takes.lively
          idle := task.trans takes.idle
          beyond := stays.position ▸ takes.beyond
          next := fun ordered => stays.position ▸ takes.next ordered
          unknown := coverage ▸ takes.unknown }

theorem Passes.fades (passes : Passes before after) (id : Bytes)
    : ∃ now, Fades now (before.replicas.get? id) (after.replicas.get? id) := by
  obtain ⟨now, _, aged⟩ := passes.exists_aged
  exact ⟨now, aged.copies id⟩

theorem Passes.takes (passes : Passes before after) {last : Copy}
    (isReplica : before.replicas.get? id = some replica)
    (isLast : after.replicas.get? id = some last) (takes : Takes fact replica)
    : Takes fact last := by
  obtain ⟨now, fades⟩ := passes.fades id
  rw [isReplica, isLast] at fades
  exact fades.takes takes

theorem free_of_takes (isReplica : state.replicas.get? id = some replica)
    (takes : Takes fact replica)
    : state.free id = true := by
  simp [State.free, isReplica, Replica.busy, takes.idle]

/-- A fact is prepared, and committed at its final time. -/
theorem Coherent.receiveAt (coherent : Coherent state) {id : Bytes} {fact : Fact} {time : Int}
    (observed : state.observed = some time) (valid : fact.record.all Record.valid = true)
    (takes : ∀ replica, state.replicas.get? id = some replica → Takes fact replica)
    : Learned id (Told fact) state (thrown (state.receiveAt layout id fact time moment).1)
        (state.receiveAt layout id fact time moment).2 := by
  unfold State.receiveAt
  cases isReplica : state.replicas.get? id with
  | none => exact coherent.rest
  | some replica =>
      dsimp only
      cases refusal replica fact with
      | some refused => exact coherent.rest
      | none =>
          dsimp only
          cases prepared : state.prepareFact layout replica fact time moment.steady with
          | error refused => exact coherent.rest
          | ok arrival =>
              have arrived := arrived_of_prepareFact prepared
              obtain ⟨opens, opened, openedMerged⟩ := @Coherent.opensFact state coherent id arrival
                time observed (free_of_takes isReplica (takes replica isReplica))
              dsimp only
              cases isRead : (state.openFact id arrival time).reading (moment.sample 1) with
              | none => exact .after opens.passes opens.coherent.rest
              | some pair =>
                  obtain ⟨stamp, final⟩ := pair
                  obtain ⟨coherentFinal, passes, isFinal, _⟩ := opens.coherent.reading isRead
                  have passed := opens.passes.trans passes
                  dsimp only
                  split
                  · exact .after passed coherentFinal.rest
                  obtain ⟨agenda, isOpened, _⟩ := opens.copy replica isReplica
                  have isLast : final.replicas.get? id = some { replica with agenda } := by
                    rw [isFinal]
                    exact isOpened
                  rw [isLast]
                  have isArrived : Arrived final { replica with agenda } fact time arrival := by
                    refine ⟨arrived.record, arrived.sourceName, arrived.sourceRecord,
                      arrived.sourcePosition, ?_, arrived.unmerged, ?_⟩
                    · rw [isFinal]
                      dsimp only
                      rw [opens.merged]
                      exact arrived.merged
                    · rw [isFinal]
                      dsimp only
                      rw [opens.stage]
                      exact arrived.shown
                  have within (now : Int) (reached : final.Until now) : time ≤ now := by
                    obtain ⟨later, isLater, onwards⟩ := passes.time time
                      (opens.observed.trans observed)
                    exact onwards.trans (reached later isLater)
                  obtain ⟨whole, turned⟩ := @Coherent.commitFact final coherentFinal id _ isLast fact
                    (passed.takes isReplica isLast (takes replica isReplica)) time arrival
                    isArrived valid (fun needed => opened needed _ isOpened)
                    (fun needed => by
                      rw [isFinal]
                      exact openedMerged needed)
                    final.Until within
                  exact ⟨whole, .inr ⟨final, passed, turned⟩, (by intros; contradiction)⟩

def Received (fact : Fact) (reached : Int → Prop) (before after : Option Copy) : Prop :=
  Told fact reached before after
    ∨ fact.repair = false ∧ Skipped fact.name fact.position reached before after

theorem Coherent.receive (coherent : Coherent state) (free : state.free id = true) (fact : Fact)
    : Learned id (Received fact) state (thrown (state.receive layout id fact moment).1)
        (state.receive layout id fact moment).2 := by
  unfold State.receive
  split
  · exact coherent.rest
  next shaped =>
  simp only [Bool.not_eq_true', Bool.not_eq_false] at shaped
  have isValid := shaped
  simp only [Fact.valid, Bool.and_eq_true] at isValid
  obtain ⟨⟨⟨⟨_, positive⟩, valid⟩, _⟩, _⟩ := isValid
  cases isReplica : state.replicas.get? id with
  | none => exact coherent.rest
  | some replica =>
      dsimp only
      split
      · exact coherent.rest
      next lively =>
      split
      · exact coherent.rest
      next beyond =>
      split
      · exact coherent.rest
      next follows =>
      have isLively : replica.retired = false := by simpa using lively
      have idle := idle_of_free isReplica free
      have next : fact.repair = false → fact.position = replica.source.position + 1 := by
        intro ordered
        by_contra differs
        exact follows ⟨ordered, .inr differs⟩
      split
      next known =>
        split
        · exact coherent.rest
        rename_i repair
        have ordered : fact.repair = false := by simpa using repair
        cases skipped : State.skip layout replica fact.name fact.position moment.steady with
        | error refused => exact coherent.rest
        | ok passed =>
            have copied := coherent.copies id replica isReplica
            obtain ⟨copiedNext, find, isPosition, coverage, retired, isIdle⟩ :=
              copied.skip idle skipped
            refine coherent.turn copiedNext fun _ =>
              .inr ⟨ordered, replica, passed, isReplica, rfl, ?_⟩
            exact
              { lively := isLively
                next := next ordered
                known
                find
                position := isPosition
                coverage
                retired := retired.trans isLively
                idle := isIdle }
      rename_i unknown
      have takes : Takes fact replica :=
        ⟨shaped, isLively, idle, Nat.lt_of_not_le beyond, next, Nat.lt_of_not_le unknown⟩
      refine .mono ?_ fun _ _ _ told => .inl told
      split
      · exact coherent.rest
      cases isRead : state.reading (moment.sample 0) with
      | none => exact coherent.rest
      | some pair =>
          obtain ⟨stamp, first⟩ := pair
          obtain ⟨coherentFirst, passes, isFirst, _⟩ := coherent.reading isRead
          have observed : first.observed = some stamp.time := by rw [isFirst]
          have isFree : first.free id = true := by
            rw [isFirst]
            exact free
          have own := @Coherent.advanceReplica layout stamp.time first moment coherentFirst
            observed id isFree
          dsimp only
          generalize first.advanceReplica layout moment stamp.time id = result at own
          obtain ⟨second, fault⟩ := result
          have passedOwn := passes.trans (own.passes observed)
          cases fault with
          | some fault => exact ⟨own.coherent, .inl ⟨not_false, passedOwn⟩, by rintro _ ⟨⟩; exact own.expected _ rfl⟩
          | none =>
              dsimp only at own ⊢
              have observedSecond := own.observed.trans observed
              have others := @Coherent.advance layout stamp.time second moment own.coherent
                observedSecond (some id)
              generalize second.advance layout moment stamp.time (some id) = result at others
              obtain ⟨third, fault⟩ := result
              have passed := passedOwn.trans (others.passes observedSecond)
              cases fault with
              | some fault =>
                  exact ⟨others.coherent, .inl ⟨not_false, passed⟩, by rintro _ ⟨⟩; exact others.expected _ rfl⟩
              | none =>
                  refine .after passed ?_
                  refine others.coherent.receiveAt (others.observed.trans observedSecond) valid ?_
                  intro last isLast
                  exact passed.takes isReplica isLast takes

end State

end Astra.Catalog
