import Verdandi.Star.Catalog.Replicating
import Verdandi.Star.Schedule

/-! When a Catalog has something to do. The cached time is kept by everything that happens to it,
so that before this time a whole advance changes nothing.
-/

namespace Astra.Catalog.State

open Support
open Origin (Name)

def schedule (state : State) : Schedule :=
  .of state.due state.observed [state.agenda, state.outlook] state.replicas

structure Timed (now : Int) (state : State) : Prop where
  prompt : state.schedule.Prompt
  observed : state.observed = some now
  positive : 0 ≤ now

def Active (state : State) (id : Bytes) : Prop :=
  ∀ replica, state.replicas.get? id = some replica → replica.retired = false

structure Same (before after : State) : Prop where
  rest : { after with replicas := before.replicas } = before
  replicas : ∀ id, after.replicas.get? id = before.replicas.get? id

def sweep (layout : Layout) (state : State) (moment : Moment) (now : Int) (held : Option Bytes)
    : State × Option Fault :=
  match state.advanceSource layout moment now with
  | (state, some fault) => (state, some fault)
  | (state, none) =>
      match state.advanceMerged layout moment now with
      | (state, some fault) => (state, some fault)
      | (state, none) =>
          match advanceReplicas layout moment now held state.identities state with
          | (state, some fault, _) => (state, some fault)
          | (state, none, blocked) =>
              ({ state with due := if blocked then min state.nextDue now else state.nextDue }, none)

/-- Before the cached time `advance` does nothing, and then the whole work. -/
theorem advance_eq (layout : Layout) (state : State) (moment : Moment) (now : Int)
    (held : Option Bytes)
    : state.advance layout moment now held
      = if now < state.due then (state, none) else state.sweep layout moment now held := rfl

variable {layout : Layout} {state next : State} {moment : Moment} {now : Int} {id : Bytes}
  {held : Option Bytes} {sample : Option Clock.Reading} {stamp : Clock.Reading}

-- Reading the clock and making agendas

/-- What an accepted reading is, and what it leaves. -/
theorem reading_some (accepted : state.reading sample = some (stamp, next))
    : stamp.follows state.observed = true ∧ next = { state with observed := some stamp.time } := by
  obtain ⟨found, isFound, same⟩ := Option.map_eq_some_iff.mp accepted
  obtain ⟨_, follows⟩ := Option.filter_eq_some_iff.mp isFound
  cases same
  exact ⟨follows, rfl⟩

theorem timed_of_reading (prompt : state.schedule.Prompt)
    (accepted : state.reading sample = some (stamp, next))
    : Timed stamp.time next := by
  obtain ⟨follows, rfl⟩ := reading_some accepted
  simp only [Clock.Reading.follows, Bool.and_eq_true, decide_eq_true_eq] at follows
  refine ⟨prompt.observe fun old isOld => ?_, rfl, follows.1.2⟩
  have least := follows.2
  rw [show state.observed = some old from isOld] at least
  simpa using least

theorem Timed.openAgenda (timed : Timed now state) : Timed now (state.openAgenda now) := by
  unfold State.openAgenda
  split
  · exact timed
  rename_i missing
  refine ⟨?_, timed.observed, timed.positive⟩
  have prompt := timed.prompt
  rw [schedule, Option.not_isSome_iff_eq_none.mp missing] at prompt
  exact @Schedule.Prompt.openedAgenda _ _ _ _ _ [] [state.outlook] prompt _ timed.positive
    timed.observed

theorem Timed.openOutlook (timed : Timed now state) : Timed now (state.openOutlook now) := by
  unfold State.openOutlook
  split
  · exact timed
  rename_i missing
  refine ⟨?_, timed.observed, timed.positive⟩
  have prompt := timed.prompt
  rw [schedule, Option.not_isSome_iff_eq_none.mp missing] at prompt
  exact @Schedule.Prompt.openedAgenda _ _ _ _ _ [state.agenda] [] prompt _ timed.positive
    timed.observed

theorem Timed.openReplica (timed : Timed now state) : Timed now (state.openReplica id now) := by
  unfold State.openReplica
  split
  · exact timed
  rename_i replica isReplica
  split
  · exact timed
  rename_i missing
  exact ⟨timed.prompt.openedReplica timed.positive timed.observed isReplica
    (Option.not_isSome_iff_eq_none.mp missing), timed.observed, timed.positive⟩

theorem Active.openReplica (active : state.Active id) : (state.openReplica id now).Active id := by
  unfold State.openReplica
  split
  · exact active
  rename_i replica isReplica
  split
  · exact active
  · intro other isOther
    rw [Assoc.get?_set, if_pos rfl] at isOther
    cases isOther
    exact active replica isReplica

-- Advancing

variable {replica : Replica Record Error}

/-- What an advance of a copy does. -/
theorem advanceReplica_eq (layout : Layout) (moment : Moment) (now : Int) {agenda : Agenda}
    (isReplica : state.replicas.get? id = some replica) (isAgenda : replica.agenda = some agenda)
    : ∃ source charged later fault,
      agenda.advance (fireReplica layout moment.steady) (moment.replica id) now
          (replica.source, state.replicaBytes)
        = ((source, charged), later, fault)
      ∧ state.advanceReplica layout moment now id
        = ({ state with
              replicas := state.replicas.set id { replica with source, agenda := some later }
              replicaBytes := charged },
            fault) := by
  generalize advanced : agenda.advance (fireReplica layout moment.steady) (moment.replica id) now
    (replica.source, state.replicaBytes) = result
  obtain ⟨⟨source, charged⟩, later, fault⟩ := result
  refine ⟨source, charged, later, fault, rfl, ?_⟩
  simp only [advanceReplica, isReplica, isAgenda, advanced]

/-- A copy without an agenda has nothing to do. -/
theorem advanceReplica_of_none
    (missing : ∀ replica, state.replicas.get? id = some replica → replica.agenda = none)
    : state.advanceReplica layout moment now id = (state, none) := by
  unfold advanceReplica
  split
  · rfl
  next replica isReplica => rw [missing replica isReplica]

/-- Either a copy has an agenda or there is nothing to advance. -/
theorem agenda_or_none (state : State) (id : Bytes)
    : (∃ replica agenda, state.replicas.get? id = some replica ∧ replica.agenda = some agenda)
      ∨ ∀ replica, state.replicas.get? id = some replica → replica.agenda = none := by
  by_cases missing : ∀ replica, state.replicas.get? id = some replica → replica.agenda = none
  · exact .inr missing
  · push Not at missing
    obtain ⟨replica, isReplica, there⟩ := missing
    obtain ⟨agenda, isAgenda⟩ := Option.ne_none_iff_exists'.mp there
    exact .inl ⟨replica, agenda, isReplica, isAgenda⟩

theorem advanceReplica_moves (reached : ∀ time ∈ state.schedule.times, time ≤ now)
    : Schedule.Moves now state.schedule (state.advanceReplica layout moment now id).1.schedule := by
  rcases agenda_or_none state id with ⟨replica, agenda, isReplica, isAgenda⟩ | missing
  · obtain ⟨source, charged, later, fault, advanced, result⟩ :=
      advanceReplica_eq layout moment now isReplica isAgenda
    have moved := @Agenda.time_advance _ (fireReplica layout moment.steady) (moment.replica id)
      (replica.source, state.replicaBytes) _ _ (reached agenda.time (.inr ⟨id, replica, agenda, isReplica, isAgenda, rfl⟩))
    rw [advanced] at moved
    rw [result]
    exact Schedule.moves_exchange isReplica isAgenda rfl moved.1 moved.2
  · rw [advanceReplica_of_none missing]
    exact .refl _ _

/-- Other copies stay. -/
theorem get?_advanceReplica_of_ne {other : Bytes} (differs : other ≠ id)
    : (state.advanceReplica layout moment now id).1.replicas.get? other
      = state.replicas.get? other := by
  rcases agenda_or_none state id with ⟨replica, agenda, isReplica, isAgenda⟩ | missing
  · obtain ⟨source, charged, later, fault, _, result⟩ :=
      advanceReplica_eq layout moment now isReplica isAgenda
    rw [result]
    dsimp only
    rw [Assoc.get?_set, if_neg differs]
  · rw [advanceReplica_of_none missing]

/-- Whether a copy is retired or busy stays. -/
theorem get?_advanceReplica
    (isReplica : (state.advanceReplica layout moment now id).1.replicas.get? id = some replica)
    : ∃ old, state.replicas.get? id = some old ∧ replica.busy = old.busy
      ∧ replica.retired = old.retired := by
  rcases agenda_or_none state id with ⟨old, agenda, isOld, isAgenda⟩ | missing
  · obtain ⟨source, charged, later, fault, _, result⟩ :=
      advanceReplica_eq layout moment now isOld isAgenda
    rw [result] at isReplica
    dsimp only at isReplica
    rw [Assoc.get?_set, if_pos rfl] at isReplica
    cases isReplica
    exact ⟨old, isOld, rfl, rfl⟩
  · rw [advanceReplica_of_none missing] at isReplica
    exact ⟨replica, isReplica, rfl, rfl⟩

theorem advanceSource_moves (reached : ∀ time ∈ state.schedule.times, time ≤ now)
    : Schedule.Moves now state.schedule (state.advanceSource layout moment now).1.schedule := by
  unfold advanceSource
  split
  · exact .refl _ _
  rename_i agenda isAgenda
  have moved := @Agenda.time_advance _ (fire layout moment.steady false) moment.source
    (state.source, state.stage) _ _
    (reached agenda.time (.inl ⟨agenda, by simp [isAgenda], rfl⟩))
  rw [schedule, isAgenda]
  exact @Schedule.moves_agenda _ _ _ _ _ _ [] [state.outlook] _ _ moved.1 moved.2

theorem advanceMerged_moves (reached : ∀ time ∈ state.schedule.times, time ≤ now)
    : Schedule.Moves now state.schedule (state.advanceMerged layout moment now).1.schedule := by
  unfold advanceMerged
  split
  · exact .refl _ _
  rename_i outlook isOutlook
  have moved := @Agenda.time_advance _ (fire layout moment.steady true) moment.merged
    (state.merged, state.stage) _ _
    (reached outlook.time (.inl ⟨outlook, by simp [isOutlook], rfl⟩))
  rw [schedule, isOutlook]
  exact @Schedule.moves_agenda _ _ _ _ _ _ [state.agenda] [] _ _ moved.1 moved.2

theorem replicas_advanceSource
    : (state.advanceSource layout moment now).1.replicas = state.replicas := by
  unfold advanceSource
  split <;> rfl

theorem replicas_advanceMerged
    : (state.advanceMerged layout moment now).1.replicas = state.replicas := by
  unfold advanceMerged
  split <;> rfl

theorem get?_forget (state : State) (id other : Bytes)
    : (state.forget id).replicas.get? other = state.replicas.get? other
      ∨ other = id ∧ (state.forget id).replicas.get? other = none := by
  unfold forget
  split
  · exact .inl rfl
  split
  · by_cases same : other = id
    · exact .inr ⟨same, by rw [Assoc.get?_remove, if_pos same]⟩
    · exact .inl (by rw [Assoc.get?_remove, if_neg same])
  · exact .inl rfl

theorem unspent_of_forget (isReplica : (state.forget id).replicas.get? id = some replica)
    : state.replicas.get? id = some replica ∧ replica.spent = false := by
  unfold forget at isReplica
  split at isReplica
  next missing =>
    rw [missing] at isReplica
    cases isReplica
  rename_i current isCurrent
  split at isReplica
  · rw [Assoc.get?_remove, if_pos rfl] at isReplica
    cases isReplica
  rename_i unspent
  rw [isCurrent] at isReplica
  cases isReplica
  exact ⟨isCurrent, Bool.not_eq_true _ |>.mp unspent⟩

theorem forget_moves (state : State) (id : Bytes)
    : Schedule.Moves now state.schedule (state.forget id).schedule := by
  unfold forget
  split
  · exact .refl _ _
  split
  · exact Schedule.moves_remove
  · exact .refl _ _

theorem sweeps (layout : Layout) (moment : Moment) (now : Int)
    : Schedule.Sweeps now schedule State.replicas
        (fun state id => state.advanceReplica layout moment now id) forget where
  moves _ _ reached := advanceReplica_moves reached
  others _ _ _ differs := get?_advanceReplica_of_ne differs
  busy _ _ _ isReplica := by
    obtain ⟨old, isOld, busy, _⟩ := get?_advanceReplica isReplica
    exact ⟨old, isOld, busy⟩
  forgets state id := forget_moves state id
  othersForget state id other differs := (get?_forget state id other).resolve_right fun gone =>
    differs gone.1
  forgotten _ _ _ isReplica := unspent_of_forget isReplica

theorem advanceReplicas_eq (ids : List Bytes)
    : advanceReplicas layout moment now held ids state
      = Schedule.sweep State.replicas (fun state id => state.advanceReplica layout moment now id)
          forget now held ids state := by
  induction ids generalizing state with
  | nil => rfl
  | cons id rest ih =>
      rw [advanceReplicas, Schedule.sweep]
      cases state.replicas.get? id with
      | none => exact ih
      | some replica =>
          dsimp only
          rw [ih]
          split
          · rfl
          split
          · rfl
          generalize state.advanceReplica layout moment now id = result
          obtain ⟨next, fault⟩ := result
          cases fault with
          | some fault => rfl
          | none => exact ih

/-- What moves once something is due leaves the schedule right. -/
theorem Timed.moved (timed : Timed now state) (due : state.due ≤ now)
    (moves : Schedule.Moves now state.schedule next.schedule)
    : Timed now next where
  prompt := timed.prompt.moved moves timed.observed due
  observed := moves.observed.trans timed.observed
  positive := timed.positive

theorem Timed.reached (timed : Timed now state) : ∀ time ∈ state.schedule.times, time ≤ now := by
  intro time listed
  obtain ⟨known, isKnown, least⟩ := timed.prompt.since time listed
  rw [show state.schedule.observed = some now from timed.observed] at isKnown
  cases isKnown
  exact least

theorem le_nextDue {bound : Int}
    : bound ≤ state.nextDue
      ↔ bound ≤ Clock.maximum ∧ ∀ time ∈ state.schedule.times, bound ≤ Agenda.next { time } := by
  have first := @Schedule.le_first _ _ state.due state.observed [state.agenda, state.outlook] state.replicas bound
  rw [List.flatMap_cons, List.flatMap_cons, List.flatMap_nil, List.append_nil] at first
  exact first

theorem advanceReplicas_moves (reached : ∀ time ∈ state.schedule.times, time ≤ now)
    (ids : List Bytes)
    : Schedule.Moves now state.schedule
        (advanceReplicas layout moment now held ids state).1.schedule := by
  rw [advanceReplicas_eq]
  exact (sweeps layout moment now).moved reached

/-- The copy that is held stays. -/
theorem get?_advanceReplicas_held (ids : List Bytes)
    : (advanceReplicas layout moment now (some id) ids state).1.replicas.get? id
      = state.replicas.get? id := by
  rw [advanceReplicas_eq]
  exact (sweeps layout moment now).get?_held

/-- After all copies were advanced, one that waits was held, or is reported. -/
theorem held_or_blocked
    (whole : (advanceReplicas layout moment now held state.identities state).2.1 = none)
    (isReplica : (advanceReplicas layout moment now held state.identities state).1.replicas.get? id
      = some replica)
    (waiting : replica.waits = true)
    : held = some id
      ∨ (advanceReplicas layout moment now held state.identities state).2.2 = true := by
  rw [advanceReplicas_eq] at whole isReplica ⊢
  have listed : id ∈ state.identities := by
    by_contra outside
    rw [(sweeps layout moment now).get?_of_notMem outside] at isReplica
    exact outside ((List.mem_insertionSort _).mpr ((Assoc.mem_keys _ _).mpr ⟨replica, isReplica⟩))
  exact (sweeps layout moment now).waits whole listed isReplica waiting

/-- The copies are advanced last, and then the time is cached. -/
theorem Timed.copies (timed : Timed now state) (due : state.due ≤ now)
    (active : ∀ id, held = some id → state.Active id)
    : Timed now (advanceReplicas layout moment now held state.identities state).1 ∧ ∀ blocked,
        (advanceReplicas layout moment now held state.identities state).2 = (none, blocked)
        → Timed now
            { (advanceReplicas layout moment now held state.identities state).1 with
              due :=
                if blocked then
                  min (advanceReplicas layout moment now held state.identities state).1.nextDue now
                else
                  (advanceReplicas layout moment now held state.identities state).1.nextDue } := by
  have moves := @advanceReplicas_moves layout state moment now held timed.reached state.identities
  have timedLast := timed.moved due moves
  refine ⟨timedLast, fun blocked isBlocked => ?_⟩
  refine ⟨timedLast.prompt.recomputed (fun _ => le_nextDue) timedLast.observed ?_,
    timedLast.observed, timed.positive⟩
  rintro rfl ⟨id, replica, isReplica, waiting⟩
  rcases held_or_blocked (congrArg Prod.fst isBlocked) isReplica waiting with isHeld | blocked
  · subst isHeld
    have stays := isReplica
    change (State.advanceReplicas layout moment now (some id) state.identities state).1.replicas.get? id
      = some replica at stays
    rw [get?_advanceReplicas_held] at stays
    simp [Replica.waits, active id rfl replica stays] at waiting
  · rw [isBlocked] at blocked
    cases blocked

/-- A whole advance caches the time again. -/
theorem Timed.sweep (timed : Timed now state) (due : state.due ≤ now)
    (active : ∀ id, held = some id → state.Active id)
    : Timed now (state.sweep layout moment now held).1 := by
  have moved := @advanceSource_moves layout state moment now timed.reached
  have same := @replicas_advanceSource layout state moment now
  have timedSource := timed.moved due moved
  have dueSource := moved.due.le.trans due
  unfold State.sweep
  generalize state.advanceSource layout moment now = result at same timedSource dueSource
  obtain ⟨native, fault⟩ := result
  cases fault with
  | some fault => exact timedSource
  | none =>
      have further := @advanceMerged_moves layout native moment now timedSource.reached
      have still := @replicas_advanceMerged layout native moment now
      have timedMerged := timedSource.moved dueSource further
      have dueMerged := further.due.le.trans dueSource
      dsimp only
      generalize native.advanceMerged layout moment now = result at still timedMerged dueMerged
      obtain ⟨merged, fault⟩ := result
      cases fault with
      | some fault => exact timedMerged
      | none =>
          have activeMerged : ∀ id, held = some id → merged.Active id := by
            intro id isHeld replica isReplica
            rw [show merged.replicas = state.replicas from still.trans same] at isReplica
            exact active id isHeld replica isReplica
          obtain ⟨whole, cached⟩ := @Timed.copies layout merged moment now held timedMerged
            dueMerged activeMerged
          dsimp only
          generalize advanceReplicas layout moment now held merged.identities merged = result
            at whole cached
          obtain ⟨last, fault, blocked⟩ := result
          cases fault with
          | some fault => exact whole
          | none => exact cached blocked rfl

theorem Timed.advance (timed : Timed now state) (active : ∀ id, held = some id → state.Active id)
    : Timed now (state.advance layout moment now held).1 := by
  rw [advance_eq]
  split
  · exact timed
  next due => exact timed.sweep (Int.not_lt.mp due) active

theorem get?_advance_held
    : (state.advance layout moment now (some id)).1.replicas.get? id = state.replicas.get? id := by
  rw [advance_eq]
  split
  · rfl
  have same := @replicas_advanceSource layout state moment now
  unfold State.sweep
  generalize state.advanceSource layout moment now = result at same
  obtain ⟨native, fault⟩ := result
  cases fault with
  | some fault => exact congrArg (·.get? id) same
  | none =>
      have still := @replicas_advanceMerged layout native moment now
      dsimp only
      generalize native.advanceMerged layout moment now = result at still
      obtain ⟨merged, fault⟩ := result
      cases fault with
      | some fault => exact congrArg (·.get? id) (still.trans same)
      | none =>
          have kept := @get?_advanceReplicas_held layout merged moment now id merged.identities
          rw [show merged.replicas = state.replicas from still.trans same] at kept
          dsimp only
          generalize advanceReplicas layout moment now (some id) merged.identities merged = result
            at kept
          obtain ⟨last, fault, blocked⟩ := result
          cases fault <;> exact kept

-- Before the cached time

theorem Same.refl (state : State) : Same state state := ⟨rfl, fun _ => rfl⟩

theorem Same.trans {middle : State} (one : Same state middle) (other : Same middle next)
    : Same state next where
  rest := by
    have same := congrArg (fun some => { some with replicas := state.replicas }) other.rest
    exact same.trans one.rest
  replicas id := (other.replicas id).trans (one.replicas id)

theorem Same.schedule (same : Same state next) : next.schedule = state.schedule := by
  have copies : next.replicas.get? = state.replicas.get? := funext same.replicas
  have due := congrArg State.due same.rest
  have observed := congrArg State.observed same.rest
  have agenda := congrArg State.agenda same.rest
  have outlook := congrArg State.outlook same.rest
  dsimp only at due observed agenda outlook
  simp only [State.schedule, Schedule.of, copies, due, observed, agenda, outlook]

theorem Timed.same (timed : Timed now state) (same : Same state next) : Timed now next where
  prompt := same.schedule ▸ timed.prompt
  observed := by
    have observed := congrArg Schedule.observed same.schedule
    exact observed.trans timed.observed
  positive := timed.positive

/-- A copy whose agenda completes no tick stays. -/
theorem Timed.advanceReplica_early (timed : Timed now state) (early : now < state.due)
    : Same state (state.advanceReplica layout moment now id).1
      ∧ (state.advanceReplica layout moment now id).2 = none := by
  rcases agenda_or_none state id with ⟨replica, agenda, isReplica, isAgenda⟩ | missing
  · obtain ⟨source, charged, later, fault, advanced, result⟩ :=
      advanceReplica_eq layout moment now isReplica isAgenda
    have listed : some agenda ∈ [state.agenda, state.outlook]
        ∨ ∃ id replica, state.replicas.get? id = some replica ∧ replica.agenda = some agenda :=
      .inr ⟨id, replica, isReplica, isAgenda⟩
    have before := timed.prompt.lt_next early listed
    have reached := timed.reached agenda.time (.inr ⟨id, replica, agenda, isReplica, isAgenda, rfl⟩)
    rw [Agenda.advance_of_lt_next reached before] at advanced
    cases advanced
    rw [result]
    refine ⟨⟨rfl, fun other => ?_⟩, rfl⟩
    dsimp only
    rw [Assoc.get?_set]
    split
    next same =>
      rw [same, isReplica, ← isAgenda]
    · rfl
  · rw [advanceReplica_of_none missing]
    exact ⟨.refl state, rfl⟩

theorem Timed.advanceSource_early (timed : Timed now state) (early : now < state.due)
    : state.advanceSource layout moment now = (state, none) := by
  unfold advanceSource
  split
  · rfl
  rename_i agenda isAgenda
  have own : some agenda ∈ [state.agenda, state.outlook] := by simp [isAgenda]
  have before := timed.prompt.lt_next early (.inl own)
  have reached := timed.reached agenda.time (.inl ⟨agenda, own, rfl⟩)
  rw [Agenda.advance_of_lt_next reached before]
  dsimp only
  rw [← isAgenda]

theorem Timed.advanceMerged_early (timed : Timed now state) (early : now < state.due)
    : state.advanceMerged layout moment now = (state, none) := by
  unfold advanceMerged
  split
  · rfl
  rename_i outlook isOutlook
  have own : some outlook ∈ [state.agenda, state.outlook] := by simp [isOutlook]
  have before := timed.prompt.lt_next early (.inl own)
  have reached := timed.reached outlook.time (.inl ⟨outlook, own, rfl⟩)
  rw [Agenda.advance_of_lt_next reached before]
  dsimp only
  rw [← isOutlook]

/-- Before the cached time nothing waits, and it is the first time of all agendas. -/
theorem Timed.settled (timed : Timed now state) (early : now < state.due)
    (accepted : ∃ reading : Clock.Reading, reading.follows state.observed = true
      ∧ reading.time = now)
    : ¬ state.schedule.waits ∧ state.nextDue = state.due := by
  obtain ⟨reading, follows, rfl⟩ := accepted
  rcases timed.prompt.settled with past | ⟨settled, exact'⟩
  · exact absurd (past reading follows) (Int.not_le.mpr early)
  · refine ⟨settled, le_antisymm ?_ (le_nextDue.mpr ⟨timed.prompt.bounded, timed.prompt.within⟩)⟩
    obtain ⟨most, least⟩ := le_nextDue.mp (le_refl state.nextDue)
    exact exact' _ most least

/-- Where no copy waits none is given up. -/
theorem forget_of_settled (settled : ¬ state.schedule.waits) : state.forget id = state := by
  unfold forget
  split
  · rfl
  rename_i replica isReplica
  refine if_neg fun isSpent => settled ⟨id, replica, isReplica, ?_⟩
  simp only [Replica.spent, Replica.waits, Bool.and_eq_true] at isSpent ⊢
  simp [isSpent]

/-- Before the cached time a whole advance would change nothing. -/
theorem Timed.sweep_early (timed : Timed now state) (early : now < state.due)
    (accepted : ∃ reading : Clock.Reading, reading.follows state.observed = true
      ∧ reading.time = now)
    : Same state (state.sweep layout moment now held).1
      ∧ (state.sweep layout moment now held).2 = none := by
  obtain ⟨settled, first⟩ := timed.settled early accepted
  have idle : Same state (advanceReplicas layout moment now held state.identities state).1
      ∧ (advanceReplicas layout moment now held state.identities state).2 = (none, false) := by
    rw [advanceReplicas_eq]
    refine Schedule.sweep_of_idle (Same.refl state) ?_ ?_ ?_
    · intro other id same
      have due := congrArg Schedule.due same.schedule
      obtain ⟨still, whole⟩ := @Timed.advanceReplica_early layout other moment now id
        (timed.same same) (early.trans_eq due.symm)
      exact ⟨whole, same.trans still⟩
    · intro other id same
      rw [forget_of_settled (same.schedule ▸ settled)]
      exact same
    · intro other id replica same isReplica isBusy
      rw [same.replicas] at isReplica
      constructor
      · by_contra isRetired
        refine settled ⟨id, replica, isReplica, ?_⟩
        simp [Replica.waits, isBusy, Bool.not_eq_false _ |>.mp isRetired]
      · rw [Option.any_eq_false]
        intro agenda isAgenda
        have listed : some agenda ∈ [state.agenda, state.outlook]
            ∨ ∃ id replica, state.replicas.get? id = some replica ∧ replica.agenda = some agenda :=
          .inr ⟨id, replica, isReplica, isAgenda⟩
        simpa using timed.prompt.lt_next early listed
  unfold State.sweep
  rw [timed.advanceSource_early early]
  dsimp only
  rw [timed.advanceMerged_early early]
  dsimp only
  generalize advanceReplicas layout moment now held state.identities state = result at idle
  obtain ⟨last, fault, blocked⟩ := result
  obtain ⟨same, rest⟩ := idle
  cases rest
  dsimp only at same ⊢
  have due := congrArg Schedule.due same.schedule
  refine ⟨⟨?_, same.replicas⟩, rfl⟩
  have again : last.nextDue = last.due := by
    refine (timed.same same).settled (early.trans_eq due.symm) ?_ |>.2
    rw [show last.observed = state.observed from congrArg Schedule.observed same.schedule]
    exact accepted
  rw [if_neg Bool.false_ne_true, again]
  exact same.rest

-- What happens to a Catalog

theorem prompt_start (limits : Limits) : (start limits).schedule.Prompt := by
  have never : ∀ time, time ∉ (start limits).schedule.times := by
    rintro time (⟨agenda, listed, _⟩ | ⟨id, replica, _, isReplica, _⟩)
    · simp [start] at listed
    · simp [start, Assoc.get?_empty] at isReplica
  refine ⟨fun time listed => absurd listed (never time),
    fun time listed => absurd listed (never time), ?_, fun time listed => absurd listed (never time),
    .inl fun reading follows => ?_⟩
  · change (0 : Int) ≤ Clock.maximum
    decide
  · simp only [Clock.Reading.follows, Bool.and_eq_true, decide_eq_true_eq] at follows
    exact follows.1.2

/-- The hooks of a record move. -/
theorem prompt_hold (prompt : state.schedule.Prompt) {agenda outlook : Option Agenda}
    (own : agenda.map Agenda.time = state.agenda.map Agenda.time)
    (merge : outlook.map Agenda.time = state.outlook.map Agenda.time)
    : (Schedule.of state.due state.observed [agenda, outlook] state.replicas).Prompt :=
  prompt.retimed (by simp [own, merge])

-- What comes from other Stars

theorem Timed.advanceReplica (timed : Timed now state)
    : Timed now (state.advanceReplica layout moment now id).1 := by
  rcases Int.lt_or_le now state.due with early | due
  · exact timed.same (timed.advanceReplica_early early).1
  · exact timed.moved due (advanceReplica_moves timed.reached)

theorem Active.advanceReplica (active : state.Active id)
    : (state.advanceReplica layout moment now id).1.Active id := by
  intro replica isReplica
  obtain ⟨old, isOld, _, retired⟩ := get?_advanceReplica isReplica
  rw [retired]
  exact active old isOld

theorem Active.advance (active : state.Active id)
    : (state.advance layout moment now (some id)).1.Active id := by
  intro replica isReplica
  rw [get?_advance_held] at isReplica
  exact active replica isReplica

theorem Active.reading (active : state.Active id)
    (accepted : state.reading sample = some (stamp, next))
    : next.Active id := by
  obtain ⟨_, rfl⟩ := reading_some accepted
  exact active

/-- A copy that is not retired waits for nobody. -/
theorem not_waits (retired : replica.retired = false)
    : ¬ replica.waits = true := by
  simp [Replica.waits, retired]

/-- A copy is advanced, and then all the others while it is held. -/
theorem Timed.advanceBoth {middle : State} {fault : Option Fault} (timed : Timed now state)
    (active : state.Active id)
    (own : state.advanceReplica layout moment now id = (middle, fault))
    : Timed now middle ∧ Timed now (middle.advance layout moment now (some id)).1
      ∧ (middle.advance layout moment now (some id)).1.Active id := by
  have timedMiddle := @Timed.advanceReplica layout state moment now id timed
  have activeMiddle := @Active.advanceReplica layout state moment now id active
  rw [own] at timedMiddle activeMiddle
  refine ⟨timedMiddle, timedMiddle.advance ?_, activeMiddle.advance⟩
  rintro _ ⟨⟩
  exact activeMiddle

theorem active_of_get? (isReplica : state.replicas.get? id = some replica)
    (retired : ¬ replica.retired = true)
    : state.Active id := by
  intro other isOther
  rw [isReplica] at isOther
  cases isOther
  exact Bool.not_eq_true _ |>.mp retired

end Astra.Catalog.State
