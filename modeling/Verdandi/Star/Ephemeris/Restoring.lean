import Verdandi.Star.Ephemeris.Timing
import Verdandi.Star.Tending

/-! How far the copies of an Ephemeris are confirmed and covered, and the tasks that restore them; and
what there is to do next, whatever happens.
-/

namespace Astra.Ephemeris.State

open Support
open Origin (Name)
open Replica (Mark Turn)
open Domain (Still Ages Tends Begins Fills Completes Finishes Steps)

def mark (state : State) (id : Bytes) : Option Mark := (state.replicas.get? id).map Replica.mark

def domain (state : State) : Domain Record Error where
  due := state.due
  observed := state.observed
  agendas := [state.agenda]
  replicas := state.replicas

variable {layout : Layout} {state next : State} {moment : Moment} {now : Int} {id other : Bytes}
  {held : Option Bytes} {sample : Option Clock.Reading} {stamp : Clock.Reading}

-- What ages

theorem mark_of_replicas (same : next.replicas = state.replicas) (id : Bytes)
    : next.mark id = state.mark id := by
  unfold mark
  rw [same]

theorem mark_set (state : State) (id other : Bytes) (replica : Replica Record Error)
    : ((state.replicas.set id replica).get? other).map Replica.mark
      = if other = id then some replica.mark else state.mark other :=
  @Domain.mark_set _ _ state.domain id other replica 0 none []

theorem mark_amend {old : Replica Record Error} (isOld : state.replicas.get? id = some old)
    (f : Replica Record Error → Replica Record Error) (other : Bytes)
    : (state.amendReplica id f).mark other
      = if other = id then some (f old).mark else state.mark other := by
  rw [amendReplica, isOld, mark, mark_set]

theorem mark_exchange {old new : Replica Record Error} (isOld : state.replicas.get? id = some old)
    (same : new.mark = old.mark)
    : ((state.replicas.set id new).get? other).map Replica.mark = state.mark other :=
  @Domain.mark_exchange _ _ state.domain id other old new isOld same

theorem mark_reading (accepted : state.reading sample = some (stamp, next)) (id : Bytes)
    : next.mark id = state.mark id := by
  obtain ⟨_, rfl⟩ := reading_some accepted
  rfl

theorem still_of_reading (prompt : state.schedule.Prompt)
    (accepted : state.reading sample = some (stamp, next))
    : Still state.domain next.domain :=
  ⟨(timed_of_reading prompt accepted).prompt, mark_reading accepted⟩

theorem still_openReplica (timed : Timed now state)
    : Still state.domain (state.openReplica id now).domain := by
  refine ⟨timed.openReplica.prompt, fun other => ?_⟩
  unfold openReplica
  split
  · rfl
  rename_i replica isReplica
  split
  · rfl
  · exact mark_exchange isReplica rfl

variable {steady : Int} {name : Name}

/-- A record of a copy that ends has no position of its own. -/
theorem position_fireReplica {holding next : Holding} {agenda : Agenda}
    (fired : fireReplica layout steady id holding agenda name = .ended next
      ∨ ∃ fault, fireReplica layout steady id holding agenda name = .failed fault next)
    : next.source.position = holding.source.position := by
  unfold fireReplica at fired
  split at fired
  · rcases fired with impossible | ⟨fault, failed⟩
    · cases impossible
    · cases failed
      rfl
  split at fired
  · rcases fired with impossible | ⟨fault, impossible⟩ <;> cases impossible
  dsimp only at fired
  split at fired
  · rcases fired with impossible | ⟨fault, failed⟩
    · cases impossible
    · cases failed
      rfl
  rename_i edit prepared
  split at fired
  · rcases fired with impossible | ⟨fault, failed⟩
    · cases impossible
    · cases failed
      rfl
  · rcases fired with ended | ⟨fault, impossible⟩
    · cases ended
      obtain ⟨_, _, _, position, _⟩ := Origin.fits_of_prepare prepared
      exact (Origin.Edit.published holding.source edit).position.trans position
    · cases impossible

theorem mark_advanceReplica
    : (state.advanceReplica layout moment now id).1.mark other = state.mark other := by
  rcases agenda_or_none state id with ⟨replica, agenda, isReplica, isAgenda⟩ | missing
  · obtain ⟨holding, later, fault, advanced, result⟩ :=
      advanceReplica_eq layout moment now isReplica isAgenda
    have position : holding.source.position = replica.source.position := by
      have kept := @Agenda.advance_keeps _ (fireReplica layout moment.steady id) (moment.replica id)
        { source := replica.source, stage := state.stage, owners := state.owners
          charged := state.replicaBytes }
        agenda now (fun holding => holding.source.position = replica.source.position)
        (fun _ _ _ _ same ended => (position_fireReplica (.inl ended)).trans same)
        (fun _ _ _ fault _ same failed => (position_fireReplica (.inr ⟨fault, failed⟩)).trans same)
        rfl
      rw [advanced] at kept
      exact kept
    rw [result]
    exact mark_exchange isReplica (by simp only [Replica.mark, position])
  · rw [advanceReplica_of_none missing]

theorem keeps_forget (idle : ∀ mark, state.mark other = some mark → mark.task = none)
    : Replica.Keeps (state.mark id) ((state.forget other).mark id) := by
  unfold forget
  split
  · exact .same _
  rename_i replica isReplica
  split
  next spent =>
    unfold mark
    dsimp only
    rw [Assoc.get?_remove]
    split
    next same =>
      subst same
      rw [isReplica]
      simp only [Replica.spent, Bool.and_eq_true] at spent
      exact .forgotten spent.1 (idle _ (by rw [mark, isReplica]; rfl))
    · exact .same _
  · exact .same _

theorem keeps_advance (held : Option Bytes)
    : Replica.Keeps (state.mark id) ((state.advance layout moment now held).1.mark id) := by
  have copies := @Replica.keeps_sweep _ _ _ State.replicas
    (fun state id => state.advanceReplica layout moment now id) State.forget now held state
    (fun _ _ _ => mark_advanceReplica) (fun _ _ _ idle => keeps_forget idle) state.identities id
  rw [← advanceReplicas_eq] at copies
  unfold State.advance
  split
  · exact .same _
  unfold State.sweep
  generalize advanceReplicas layout moment now held state.identities state = result at copies
  obtain ⟨middle, fault, blocked⟩ := result
  cases fault with
  | some fault => exact copies
  | none =>
      have same := @replicas_advanceSource layout middle moment now
      dsimp only at copies ⊢
      generalize middle.advanceSource layout moment now = result at same
      obtain ⟨last, fault⟩ := result
      have ends : last.mark id = middle.mark id := mark_of_replicas same id
      cases fault with
      | some fault => exact ends ▸ copies
      | none => exact ends ▸ copies

theorem mark_advance_held
    : (state.advance layout moment now (some id)).1.mark id = state.mark id := by
  unfold mark
  rw [get?_advance_held]

/-- What ages after a reading of the clock. -/
theorem aged_of_reading (prompt : state.schedule.Prompt)
    (accepted : state.reading sample = some (stamp, next))
    : Timed stamp.time (next.advance layout moment stamp.time none).1
      ∧ Ages state.domain (next.advance layout moment stamp.time none).1.domain := by
  have timed := @Timed.advance layout next moment stamp.time none (timed_of_reading prompt accepted) nofun
  have aged : Ages next.domain (next.advance layout moment stamp.time none).1.domain :=
    ⟨timed.prompt, fun _ => keeps_advance none⟩
  exact ⟨timed, aged.after (still_of_reading prompt accepted)⟩

-- Own registrations

theorem still_openAgenda (timed : Timed now state)
    : Still state.domain (state.openAgenda now).domain := by
  refine ⟨timed.openAgenda.prompt, fun other => ?_⟩
  unfold openAgenda
  split <;> rfl

theorem still_createAt (timed : Timed now state) (name : Name) (attr data : Bytes) (ttl : Nat)
    (record : Record)
    : Still state.domain (state.createAt layout name attr data ttl record now moment).2.domain := by
  unfold createAt
  split
  · exact .refl timed.prompt
  split
  · exact .refl timed.prompt
  split
  · exact .refl timed.prompt
  split
  · exact .refl timed.prompt
  split
  · exact .refl timed.prompt
  split
  · exact .refl timed.prompt
  have opened := still_openAgenda timed
  dsimp only
  split
  · exact opened
  rename_i accepted
  have still := opened.trans (still_of_reading opened.prompt accepted)
  split
  · exact still
  split
  · exact still
  · exact ⟨prompt_hold still.prompt name _ _ _, still.same⟩

theorem ages_create (prompt : state.schedule.Prompt) (name : Name) (attr data : Bytes) (ttl : Nat)
    : Ages state.domain (state.create layout name attr data ttl moment).2.domain := by
  unfold create
  split
  · exact .refl prompt
  split
  · exact .refl prompt
  rename_i stamp next accepted
  split
  · exact (still_of_reading prompt accepted).ages
  rename_i record _
  obtain ⟨timed, aged⟩ := @aged_of_reading layout state next moment _ stamp prompt accepted
  generalize next.advance layout moment stamp.time none = result at timed aged
  obtain ⟨later, fault⟩ := result
  cases fault with
  | some fault => exact aged
  | none => exact aged.still (still_createAt timed name attr data ttl record)

theorem still_confirm (prompt : state.schedule.Prompt) (old : Record)
    : Still state.domain (state.confirm old moment).2.domain := by
  unfold confirm
  split
  · exact .refl prompt
  rename_i accepted
  split <;> exact still_of_reading prompt accepted

theorem still_commitChange (prompt : state.schedule.Prompt) (name : Name) (request : Request)
    (old : Record) (change : Change) (edit : Origin.Edit Record) (shown : Stage Content)
    : Still state.domain
        (state.commitChange layout name request old change edit shown moment).2.domain := by
  unfold commitChange
  split
  · exact .refl prompt
  rename_i accepted
  have still := still_of_reading prompt accepted
  split
  · exact still
  split
  · exact still
  · exact ⟨prompt_hold still.prompt name _ _ _, still.same⟩

theorem still_changeAt (prompt : state.schedule.Prompt) (name : Name) (request : Request)
    (stamp : Clock.Reading)
    : Still state.domain (state.changeAt layout name request stamp moment).2.domain := by
  unfold changeAt
  split
  · exact .refl prompt
  split
  · exact .refl prompt
  split
  · exact still_confirm prompt _
  split
  · exact .refl prompt
  rename_i stage _
  have opened : Still state.domain ({ state with stage } : State).domain := .refl prompt
  dsimp only
  split
  · exact opened
  split
  · exact opened
  split
  · exact opened
  split
  · exact opened.trans (@still_commitChange layout { state with stage } moment opened.prompt name request _ _ _ _)
  · exact opened

theorem ages_change (prompt : state.schedule.Prompt) (name : Name) (request : Request)
    : Ages state.domain (state.change layout name request moment).2.domain := by
  unfold change
  split
  · exact .refl prompt
  split
  · exact .refl prompt
  rename_i stamp next accepted
  obtain ⟨timed, aged⟩ := @aged_of_reading layout state next moment _ stamp prompt accepted
  generalize next.advance layout moment stamp.time none = result at timed aged
  obtain ⟨later, fault⟩ := result
  cases fault with
  | some fault => exact aged
  | none => exact aged.still (still_changeAt timed.prompt name request stamp)

theorem still_removeAt (prompt : state.schedule.Prompt) (name : Name)
    : Still state.domain (state.removeAt layout name moment).2.domain := by
  unfold removeAt
  split
  · exact .refl prompt
  · exact .refl prompt
  rename_i erasure stage _
  have opened : Still state.domain ({ state with stage } : State).domain := .refl prompt
  dsimp only
  split
  · exact opened
  rename_i accepted
  have still := opened.trans (still_of_reading opened.prompt accepted)
  split
  · exact still
  · exact ⟨prompt_hold still.prompt name none _ _, still.same⟩

theorem ages_remove (prompt : state.schedule.Prompt) (name : Name)
    : Ages state.domain (state.remove layout name moment).2.domain := by
  unfold remove
  split
  · exact .refl prompt
  split
  · exact .refl prompt
  rename_i stamp next accepted
  obtain ⟨timed, aged⟩ := @aged_of_reading layout state next moment _ stamp prompt accepted
  generalize next.advance layout moment stamp.time none = result at timed aged
  obtain ⟨later, fault⟩ := result
  cases fault with
  | some fault => exact aged
  | none => exact aged.still (still_removeAt timed.prompt name)

theorem ages_tick (prompt : state.schedule.Prompt)
    : Ages state.domain (state.tick layout moment).2.domain := by
  unfold tick
  split
  · exact .refl prompt
  split
  · exact .refl prompt
  rename_i stamp next accepted
  have aged := (@aged_of_reading layout state next moment _ stamp prompt accepted).2
  generalize next.advance layout moment stamp.time none = result at aged
  obtain ⟨later, fault⟩ := result
  cases fault <;> exact aged

theorem ages_read (prompt : state.schedule.Prompt)
    : Ages state.domain (state.read layout moment).2.domain := by
  unfold read
  split
  · exact .refl prompt
  rename_i first next accepted
  have still := still_of_reading prompt accepted
  split
  · exact still.ages
  split
  · exact still.ages
  rename_i stamp later again
  have aged := (@aged_of_reading layout next later moment _ stamp still.prompt again).2.after still
  generalize later.advance layout moment stamp.time none = result at aged
  obtain ⟨last, fault⟩ := result
  cases fault <;> exact aged

-- What comes from other Stars

theorem tends_admitReplica (prompt : state.schedule.Prompt)
    : Tends id state.domain (state.admitReplica id).2.domain := by
  unfold admitReplica
  split
  · exact .refl prompt
  split
  · exact .refl prompt
  rename_i missing
  split
  · exact .refl prompt
  · exact .admitted prompt missing rfl rfl

theorem tends_retire (prompt : state.schedule.Prompt)
    : Tends id state.domain (state.retire id).domain := by
  unfold retire
  split
  · exact .refl prompt
  rename_i replica isReplica
  exact .retired prompt isReplica

variable {replica : Replica Record Error}

/-- A position is passed over. -/
theorem tends_skip {passed : Replica Record Error} {position : Nat} (prompt : state.schedule.Prompt)
    (isReplica : state.replicas.get? id = some replica) (idle : replica.task = none)
    (isPassed : skip layout replica name position steady = .ok passed)
    : Tends id state.domain
        ({ state with replicas := state.replicas.set id passed } : State).domain := by
  unfold skip at isPassed
  split at isPassed
  · cases isPassed
  rename_i edit prepared
  cases isPassed
  refine .exchange prompt isReplica rfl (fun waits => waits) ?_
  obtain ⟨_, _, _, isPosition, isNext, _⟩ := Origin.fits_of_prepare prepared
  have far : (edit.commit replica.source).position = replica.source.position + 1 :=
    (Origin.Edit.published replica.source edit).position.trans
      (isPosition.trans (isNext position rfl).1)
  have turn := @Turn.passed false replica.mark (by simp [Replica.mark, idle])
  rw [(isNext position rfl).1]
  simp only [Replica.mark, far] at turn ⊢
  exact turn

theorem task_of_free (free : state.free id = true)
    (isReplica : state.replicas.get? id = some replica)
    : replica.task = none := by
  simpa [State.free, isReplica, Replica.busy] using free

theorem tends_covered (prompt : state.schedule.Prompt) (free : state.free id = true) (position : Nat)
    (name : Name) (steady : Int)
    : Tends id state.domain (state.covered layout id position name steady).2.domain := by
  unfold covered
  split
  · exact .refl prompt
  split
  · exact .refl prompt
  rename_i replica isReplica
  split
  · exact .refl prompt
  split
  · exact .refl prompt
  split
  · exact .refl prompt
  split
  · split
    · exact .refl prompt
    rename_i passed isPassed
    exact tends_skip prompt isReplica (task_of_free free isReplica) isPassed
  · exact .refl prompt

variable {fact : Fact} {arrival : Arrival}

/-- A fact is noted at the position that its copy comes to, or of its own. -/
theorem tends_commitFact (prompt : state.schedule.Prompt) (active : state.Active id)
    {prepared : Replica Record Error}
    {record : Option Record}
    (isPrepared : prepared.source.prepare layout.traits fact.name record
      (if fact.repair then none else some fact.position) steady = .ok arrival.source)
    (same : replica.mark = prepared.mark) (idle : replica.mark.task = none)
    (further : fact.repair = true → Replica.covered replica.coverage fact.name < fact.position)
    (keyed : fact.name.key ≠ [])
    (isReplica : state.replicas.get? id = some replica)
    : Tends id state.domain (state.commitFact id replica fact arrival).domain := by
  obtain ⟨_, _, _, isPosition, isNext, _⟩ := Origin.fits_of_prepare isPrepared
  have far := (Origin.Edit.published replica.source arrival.source).position.trans isPosition
  have positions : prepared.source.position = replica.source.position :=
    (congrArg Mark.position same).symm
  refine .exchange prompt isReplica (Agenda.time_hold _ _ _)
    (fun waits => absurd waits (not_waits (active replica isReplica))) ?_
  cases isRepair : fact.repair with
  | true =>
      simp only [isRepair, if_true, Option.getD_none, positions] at far
      have turn := @Turn.noted false replica.mark idle fact.name fact.position keyed (further isRepair)
      simp only [Replica.mark, far] at turn ⊢
      exact turn
  | false =>
      simp only [isRepair, Bool.false_eq_true, if_false, Option.getD_some] at far
      have next := (isNext fact.position (by simp [isRepair])).1
      rw [positions] at next
      have turn := @Turn.passed false replica.mark idle
      simp only [Replica.mark, far, next, Bool.false_eq_true, if_false] at turn ⊢
      exact turn

theorem prepared_of_prepareFact {time : Int}
    (prepared : state.prepareFact layout id replica fact time steady = .ok arrival)
    : ∃ record, replica.source.prepare layout.traits fact.name record
      (if fact.repair then none else some fact.position) steady = .ok arrival.source := by
  unfold prepareFact at prepared
  dsimp only at prepared
  split at prepared
  · cases prepared
  split at prepared
  · cases prepared
  split at prepared
  · cases prepared
  rename_i source isSource
  split at prepared
  · cases prepared
  split at prepared
  · cases prepared
  · cases prepared
    exact ⟨_, isSource⟩

theorem tends_receiveAt (timed : Timed now state) (active : state.Active id)
    (idle : ∀ mark, state.mark id = some mark → mark.task = none)
    (further : fact.repair = true → ∀ mark, state.mark id = some mark
      → Replica.covered mark.coverage fact.name < fact.position)
    (keyed : fact.name.key ≠ [])
    : Tends id state.domain (state.receiveAt layout id fact now moment).2.domain := by
  unfold receiveAt
  split
  · exact .refl timed.prompt
  rename_i replica isReplica
  split
  · exact .refl timed.prompt
  split
  · exact .refl timed.prompt
  rename_i arrival prepared
  have opened : Still state.domain
        (if arrival.record.isSome then state.openReplica id now else state).domain
      ∧ (if arrival.record.isSome then state.openReplica id now else state).Active id := by
    split
    · exact ⟨still_openReplica timed, active.openReplica⟩
    · exact ⟨.refl timed.prompt, active⟩
  dsimp only
  generalize (if arrival.record.isSome then state.openReplica id now else state) = middle at opened
  split
  · exact opened.1.tends
  rename_i accepted
  have still := opened.1.trans (still_of_reading opened.1.prompt accepted)
  split
  · exact still.tends
  split
  · exact still.tends
  rename_i current isCurrent
  obtain ⟨record, isPrepared⟩ := prepared_of_prepareFact prepared
  have isMark : state.mark id = some replica.mark := by rw [mark, isReplica]; rfl
  have alike : current.mark = replica.mark := by
    have both := still.same id
    rw [Domain.mark, domain, isCurrent] at both
    exact Option.some.inj (both.trans isMark)
  have coverage : current.coverage = replica.coverage := congrArg Mark.coverage alike
  exact (tends_commitFact still.prompt (opened.2.reading accepted) isPrepared alike
    (alike ▸ idle _ isMark) (fun isRepair => coverage ▸ further isRepair _ isMark) keyed
    isCurrent).after still.ages (still.same id)

/-- Before a copy is worked on everything ages, but the copy itself stays. -/
theorem aged_both {middle : State} {fault : Option Fault} (prompt : state.schedule.Prompt)
    (active : state.Active other) (accepted : state.reading sample = some (stamp, next))
    (own : next.advanceReplica layout moment stamp.time other = (middle, fault))
    : Still state.domain middle.domain
      ∧ Timed stamp.time (middle.advance layout moment stamp.time (some other)).1
      ∧ (middle.advance layout moment stamp.time (some other)).1.Active other
      ∧ Ages state.domain (middle.advance layout moment stamp.time (some other)).1.domain
      ∧ (middle.advance layout moment stamp.time (some other)).1.mark other = state.mark other := by
  obtain ⟨timed, timedLast, activeLast⟩ :=
    (timed_of_reading prompt accepted).advanceBoth (active.reading accepted) own
  have same (id : Bytes) : middle.mark id = state.mark id := by
    have stays := @mark_advanceReplica layout next moment stamp.time other id
    rw [own] at stays
    exact stays.trans (mark_reading accepted id)
  have still : Still state.domain middle.domain := ⟨timed.prompt, same⟩
  have aged : Ages middle.domain (middle.advance layout moment stamp.time (some other)).1.domain :=
    ⟨timedLast.prompt, fun _ => keeps_advance (some other)⟩
  exact ⟨still, timedLast, activeLast, aged.after still, mark_advance_held.trans (same other)⟩

theorem keyed_of_valid (shaped : fact.valid = true) : fact.name.key ≠ [] := by
  intro empty
  simp [Fact.valid, Ephemeris.valid, empty] at shaped

theorem tends_receive (prompt : state.schedule.Prompt) (free : state.free id = true) (fact : Fact)
    : Tends id state.domain (state.receive layout id fact moment).2.domain := by
  unfold receive
  split
  · exact .refl prompt
  rename_i shaped
  split
  · exact .refl prompt
  rename_i replica isReplica
  have isMark : state.mark id = some replica.mark := by rw [mark, isReplica]; rfl
  have idle := task_of_free free isReplica
  split
  · exact .refl prompt
  rename_i lively
  split
  · exact .refl prompt
  split
  · exact .refl prompt
  split
  · split
    · exact .refl prompt
    split
    · exact .refl prompt
    next passed isPassed => exact tends_skip prompt isReplica idle isPassed
  rename_i further
  split
  · exact .refl prompt
  split
  · exact .refl prompt
  rename_i stamp next accepted
  generalize own : next.advanceReplica layout moment stamp.time id = result
  obtain ⟨middle, fault⟩ := result
  obtain ⟨still, timed, active, aged, stays⟩ :=
    aged_both prompt (active_of_get? isReplica lively) accepted own
  cases fault with
  | some fault => exact still.tends
  | none =>
      dsimp only
      generalize middle.advance layout moment stamp.time (some id) = result
        at timed active aged stays
      obtain ⟨last, fault⟩ := result
      cases fault with
      | some fault => exact aged.tends
      | none =>
          dsimp only at stays ⊢
          refine (tends_receiveAt timed active (fun held isHeld => ?_) (fun _ held isHeld => ?_)
            (keyed_of_valid (by simpa using shaped))).after aged stays
          · rw [stays, isMark] at isHeld
            cases isHeld
            simp [Replica.mark, idle]
          · rw [stays, isMark] at isHeld
            cases isHeld
            exact Nat.not_le.mp further

-- Complete states

variable {pairs rows : List (Name × Record)} {batch : Origin.Batch Record}

theorem of_nativeRows {origin : Origin Record} {last : Origin.Batch Record}
    {out : List (Name × Record)} (of : batch.Of origin)
    (prepared : nativeRows layout pairs batch rows = .ok (last, out))
    : last.Of origin := by
  induction pairs generalizing batch rows with
  | nil =>
      cases prepared
      exact of
  | cons pair rest ih =>
      obtain ⟨name, incoming⟩ := pair
      unfold nativeRows at prepared
      split at prepared
      · cases prepared
      split at prepared
      · cases prepared
      split at prepared
      · cases prepared
      next further isSet => exact ih (of.set isSet).1 prepared

theorem loud_of_nativeRows {reply : Reply}
    (refused : nativeRows layout pairs batch rows = .error reply)
    : reply ≠ .ok () := by
  induction pairs generalizing batch rows with
  | nil => cases refused
  | cons pair rest ih =>
      obtain ⟨name, incoming⟩ := pair
      unfold nativeRows at refused
      split at refused
      · cases refused
        nofun
      split at refused
      · cases refused
        nofun
      split at refused
      · cases refused
        nofun
      · exact ih refused

/-- The private candidate of a Scope is where its source is; and if there is none there is a reason. -/
theorem native_spec (source : Origin Record) (draft : Origin.Draft Record) (scope : Scope)
    : (∀ batch rows, native layout source draft scope = .ok (batch, rows)
        → batch.commit.position = source.position)
      ∧ ∀ reply, native layout source draft scope = .error reply → reply ≠ .ok () := by
  unfold native
  split
  · exact ⟨nofun, by rintro _ ⟨⟩; nofun⟩
  rename_i batch isBatch
  dsimp only
  split
  · exact ⟨nofun, by rintro _ ⟨⟩; nofun⟩
  rename_i erased isErased
  refine ⟨fun last rows prepared => ?_, fun reply refused => loud_of_nativeRows refused⟩
  have of := ((Origin.Batch.of_prepare isBatch).1.erases isErased).1
  exact (of_nativeRows of prepared).commit.2.1

/-- An installation that begins holds the copy as it is. -/
theorem turn_task {replica : Replica Record Error} {draft : Origin.Draft Record} {scope : Scope}
    (idle : replica.task = none)
    (accepted : ¬ (replica.retired = true ∨ draft.position < replica.source.position
      ∨ Replica.ahead replica.coverage draft.position = true))
    (bytes : Nat) (previous : List Name)
    : Turn false (some replica.mark)
        (some { replica.mark with
          task :=
            some (Replica.Task.hold
              { draft, scope, bytes, previous
                prepared := native layout replica.source draft scope }) }) := by
  obtain ⟨candidate, loud⟩ := @native_spec layout replica.source draft scope
  simp only [not_or, Nat.not_lt, Bool.not_eq_true] at accepted
  refine .begun (by simp [Replica.mark, idle]) accepted.2.1 accepted.2.2 ?_ ?_
  · intro position isPosition
    obtain ⟨⟨batch, rows⟩, isNative, rfl⟩ := Option.map_eq_some_iff.mp isPosition
    exact candidate batch rows (ok_of_toOption isNative)
  · dsimp only [Replica.Task.hold]
    split
    next isNative => exact absurd rfl (loud _ isNative)
    · rfl

theorem prompt_amend (prompt : state.schedule.Prompt)
    {f : Replica Record Error → Replica Record Error} (agenda : ∀ replica, (f replica).agenda = replica.agenda)
    (waits : ∀ replica, state.replicas.get? id = some replica → (f replica).waits = true
      → replica.waits = true)
    : (state.amendReplica id f).schedule.Prompt := by
  unfold amendReplica
  split
  · exact prompt
  rename_i replica isReplica
  exact prompt.exchange isReplica (congrArg _ (agenda replica)) (waits replica isReplica)

theorem begins (prompt : state.schedule.Prompt) (free : state.free id = true)
    (draft : Origin.Draft Record) (scope : Scope)
    : Begins id draft scope (state.begin layout id draft scope moment).1 state.domain
        (state.begin layout id draft scope moment).2.domain := by
  have unmoved : Still state.domain state.domain := .refl prompt
  unfold begin
  split
  · exact unmoved.begins (by rintro ⟨⟩)
  rename_i replica isReplica
  split
  · exact unmoved.begins (by rintro ⟨⟩)
  rename_i accepted
  split
  · exact unmoved.begins (by rintro ⟨⟩)
  rename_i stamp next isReading
  generalize own : next.advanceReplica layout moment stamp.time id = result
  obtain ⟨middle, fault⟩ := result
  obtain ⟨still, _, active, aged, stays⟩ :=
    aged_both prompt (active_of_get? isReplica fun retired => accepted (.inl retired)) isReading own
  cases fault with
  | some fault => exact still.begins (by rintro ⟨⟩)
  | none =>
      dsimp only
      generalize middle.advance layout moment stamp.time (some id) = result at active aged stays
      obtain ⟨last, fault⟩ := result
      cases fault with
      | some fault => exact aged.begins stays (by rintro ⟨⟩)
      | none =>
          have isMark : state.mark id = some replica.mark := by rw [mark, isReplica]; rfl
          dsimp only at active aged stays ⊢
          rw [isMark, mark] at stays
          obtain ⟨current, isCurrent, alike⟩ := Option.map_eq_some_iff.mp stays
          have stillIdle : current.task = none := by
            have none := congrArg Mark.task alike
            simpa [Replica.mark, task_of_free free isReplica] using none
          have accepted : ¬ (current.retired = true ∨ draft.position < current.source.position
              ∨ Replica.ahead current.coverage draft.position = true) := by
            rw [show current.retired = replica.retired from congrArg Mark.retired alike,
              show current.source.position = replica.source.position from
                congrArg Mark.position alike,
              show current.coverage = replica.coverage from congrArg Mark.coverage alike]
            exact accepted
          have turn := @turn_task layout current draft scope stillIdle accepted
            current.source.charged ((current.source.each scope).map Prod.fst)
          rw [alike] at turn
          refine ⟨prompt_amend aged.prompt (fun _ => rfl) fun replica isLast waits =>
              absurd waits (not_waits (active replica isLast)),
            fun other differs => ?_, (by intros; contradiction), fun _ => ⟨_, _, isMark, ?_, ?_,
            ?_, turn⟩⟩
          · change Replica.Keeps _ (State.mark _ other)
            rw [mark_amend isCurrent, if_neg differs]
            exact aged.keeps other
          · rfl
          · rfl
          · rw [← alike]
            exact (mark_amend isCurrent _ id).trans (if_pos rfl)

theorem fills (timed : Timed now state) (active : state.Active id)
    (task : Replica.Task Record Error) (batch : Origin.Batch Record) (rows : List (Name × Record))
    : Fills id task batch (state.installAt layout id task batch rows now moment).1 state.domain
        (state.installAt layout id task batch rows now moment).2.domain := by
  unfold installAt
  have opened : Still state.domain (if rows.isEmpty then state else state.openReplica id now).domain
      ∧ (if rows.isEmpty then state else state.openReplica id now).Active id := by
    split
    · exact ⟨.refl timed.prompt, active⟩
    · exact ⟨still_openReplica timed, active.openReplica⟩
  dsimp only
  generalize (if rows.isEmpty then state else state.openReplica id now) = middle at opened
  obtain ⟨still, active⟩ := opened
  split
  · exact still.fills nofun
  rename_i replica isReplica
  split
  · exact still.fills nofun
  split
  · exact still.fills nofun
  split
  · exact still.fills nofun
  split
  · exact still.fills nofun
  split
  · exact still.fills nofun
  rename_i stamp final accepted
  have last := still.trans (still_of_reading still.prompt accepted)
  split
  · exact last.fills nofun
  · have isMark : state.mark id = some replica.mark := by
      rw [← show middle.mark id = state.mark id from still.same id, mark, isReplica]
      rfl
    have stays : final.replicas.get? id = some replica := by
      obtain ⟨_, rfl⟩ := reading_some accepted
      exact isReplica
    refine ⟨last.prompt.exchange stays ?_ fun waits => absurd waits (not_waits (active replica isReplica)),
      fun other differs => ?_, fun _ => ⟨_, isMark, ?_⟩, fun loud => absurd rfl loud⟩
    · exact (Agenda.map_time_foldl rows Prod.fst (fun row => some row.2.deadline) _).trans
        (Agenda.map_time_foldl task.previous (fun name => name) (fun _ => none) _)
    · exact ((mark_set final id other _).trans (if_neg differs)).trans (last.same other)
    · exact (mark_set final id id _).trans (if_pos rfl)

/-- A copy is given back. -/
theorem prompt_release (prompt : state.schedule.Prompt)
    : (state.amendReplica id fun replica => { replica with task := none }).schedule.Prompt := by
  refine prompt_amend prompt (fun _ => rfl) fun other _ waits => ?_
  simp only [Replica.waits, Replica.busy, Option.isSome_none, Bool.false_or,
    Bool.and_eq_true, Bool.or_eq_true] at waits ⊢
  exact ⟨waits.1, .inr waits.2⟩

theorem completes (prompt : state.schedule.Prompt) {held : Mark} {hold : Replica.Hold}
    (isMark : state.mark id = some held) (isTask : held.task = some hold)
    : Completes id held hold (state.complete layout id moment).1 state.domain
        (state.complete layout id moment).2.domain := by
  obtain ⟨replica, isReplica, rfl⟩ := Option.map_eq_some_iff.mp isMark
  obtain ⟨task, isTask', rfl⟩ := Option.map_eq_some_iff.mp isTask
  unfold complete
  simp only [isReplica, isTask']
  have prompt := @prompt_release state id prompt
  have released : (state.amendReplica id fun replica => { replica with task := none }).replicas.get? id
      = some { replica with task := none } := by
    rw [amendReplica, isReplica]
    dsimp only
    rw [Assoc.get?_set, if_pos rfl]
  have others (other : Bytes) (differs : other ≠ id)
      : (state.amendReplica id fun replica => { replica with task := none }).domain.mark other
        = state.domain.mark other :=
    (mark_amend isReplica _ other).trans (if_neg differs)
  generalize (state.amendReplica id fun replica => { replica with task := none }) = middle
    at prompt released others
  have isMiddle : middle.mark id = some { replica.mark with task := none } := by
    rw [mark, released]
    rfl
  have refused {reply : Reply} (loud : replica.mark.Sound → reply ≠ .ok ())
      : Completes id replica.mark task.hold reply state.domain middle.domain :=
    ⟨prompt, fun other differs => others other differs ▸ .same _,
      fun sound done => absurd done (loud sound), fun _ _ => isMiddle⟩
  split
  next reply isPrepared =>
    refine refused fun sound => ?_
    have heard := (sound.held _ isTask).2
    rintro rfl
    simp [Replica.Task.hold, isPrepared] at heard
  rename_i batch rows isPrepared
  split
  · exact refused fun _ => (by rintro ⟨⟩)
  rename_i lively
  have active := active_of_get? released lively
  split
  · exact refused fun _ => (by rintro ⟨⟩)
  rename_i stamp next accepted
  have activeNext := active.reading accepted
  have timed := @Timed.advance layout next moment stamp.time (some id)
    (timed_of_reading prompt accepted) (by rintro _ ⟨⟩; exact activeNext)
  have activeLast := @Active.advance layout next moment stamp.time id activeNext
  have aged (other : Bytes) := @keeps_advance layout next moment stamp.time other (some id)
  have stays := @mark_advance_held layout next moment stamp.time id
  generalize next.advance layout moment stamp.time (some id) = result at timed activeLast aged stays
  obtain ⟨last, fault⟩ := result
  have own : last.domain.mark id = some { replica.mark with task := none } :=
    stays.trans ((mark_reading accepted id).trans isMiddle)
  have ages (other : Bytes) (differs : other ≠ id)
      : Replica.Keeps (state.domain.mark other) (last.domain.mark other) := by
    rw [← others other differs, ← (still_of_reading prompt accepted).same other]
    exact aged other
  cases fault with
  | some fault => exact ⟨timed.prompt, ages, (by intros; contradiction), fun _ _ => own⟩
  | none =>
      have fills := @fills layout last moment stamp.time id timed activeLast task batch rows
      dsimp only
      refine ⟨fills.prompt, fun other differs => ?_, fun sound done => ?_, fun _ loud => ?_⟩
      · rw [fills.others other differs]
        exact ages other differs
      · obtain ⟨mark, isLast, isNext⟩ := fills.taken done
        rw [own] at isLast
        cases isLast
        have position : batch.commit.position = replica.mark.position :=
          (sound.held _ isTask).1 _ (by rw [Replica.Task.hold, isPrepared]; rfl)
        rw [position] at isNext
        exact ⟨Bool.not_eq_true _ |>.mp lively, isNext⟩
      · exact (fills.refused loud).trans own

theorem finishes (prompt : state.schedule.Prompt) (position : Nat)
    : Finishes id position (state.finish id position).1 state.domain
        (state.finish id position).2.domain := by
  unfold finish
  split
  · exact ⟨prompt, nofun, fun _ => rfl⟩
  rename_i replica isReplica
  split
  · exact ⟨prompt, nofun, fun _ => rfl⟩
  rename_i accepted
  split
  · exact ⟨prompt, nofun, fun _ => rfl⟩
  rename_i source confirmed
  simp only [not_or, Bool.not_eq_true] at accepted
  unfold Origin.confirm at confirmed
  split at confirmed
  · cases confirmed
  rename_i reached
  cases confirmed
  simp only [not_or, Nat.not_lt] at reached
  have isMark : state.domain.mark id = some replica.mark := congrArg (Option.map _) isReplica
  refine ⟨prompt.exchange isReplica rfl fun waits => waits, fun _ =>
    ⟨replica.mark, isMark, reached.2, accepted.2, fun other differs => ?_, ?_⟩,
    fun loud => absurd rfl loud⟩
  · exact (mark_set state id other _).trans (if_neg differs)
  · exact (mark_set state id id _).trans (if_pos rfl)

-- Steps and tasks

theorem idle_of_mark (free : state.free id = true)
    : ∀ mark, state.mark id = some mark → mark.task = none := by
  intro mark isMark
  obtain ⟨replica, isReplica, rfl⟩ := Option.map_eq_some_iff.mp isMark
  simp [Replica.mark, task_of_free free isReplica]

theorem free_of_mark (idle : ∀ mark, state.mark id = some mark → mark.task = none)
    : state.free id = true := by
  unfold State.free
  cases isReplica : state.replicas.get? id with
  | none => rfl
  | some replica =>
      have none := idle replica.mark (by rw [mark, isReplica]; rfl)
      simpa [Replica.mark, Replica.busy] using none

theorem hold_of_prepares (held : state.prepares id = true)
    : ∃ mark hold, state.mark id = some mark ∧ mark.task = some hold := by
  cases isReplica : state.replicas.get? id with
  | none => simp [State.prepares, isReplica] at held
  | some replica =>
      have busy : replica.task.isSome = true := by
        simpa [State.prepares, isReplica, Replica.busy] using held
      obtain ⟨task, isTask⟩ := Option.isSome_iff_exists.mp busy
      exact ⟨replica.mark, task.hold, by rw [mark, isReplica]; rfl, by simp [Replica.mark, isTask]⟩

def Action.ends (id : Bytes) : Action → Bool
  | .complete other _ => other = id
  | _ => false

/-- What one step does. -/
theorem steps {action : Action} (prompt : state.schedule.Prompt)
    (stepped : state.step layout action = some next)
    : Steps (Action.ends · action) state.domain next.domain := by
  cases action with
  | create name attr data ttl moment =>
      cases stepped
      exact (ages_create prompt name attr data ttl).steps
  | change name request moment =>
      cases stepped
      exact (ages_change prompt name request).steps
  | remove name moment =>
      cases stepped
      exact (ages_remove prompt name).steps
  | tick moment =>
      cases stepped
      exact (ages_tick prompt).steps
  | read moment =>
      cases stepped
      exact (ages_read prompt).steps
  | admitReplica other =>
      cases stepped
      exact (tends_admitReplica prompt).steps
  | retire other =>
      cases stepped
      exact (tends_retire prompt).steps
  | covered other position name steady =>
      obtain ⟨free, taken⟩ := Option.ite_none_right_eq_some.mp stepped
      cases taken
      exact (tends_covered prompt free position name steady).steps
  | receive other fact moment =>
      obtain ⟨free, taken⟩ := Option.ite_none_right_eq_some.mp stepped
      cases taken
      exact (tends_receive prompt free fact).steps
  | begin other draft scope moment =>
      obtain ⟨free, taken⟩ := Option.ite_none_right_eq_some.mp stepped
      cases taken
      exact (begins prompt free draft scope).steps
  | complete other moment =>
      obtain ⟨held, taken⟩ := Option.ite_none_right_eq_some.mp stepped
      cases taken
      obtain ⟨mark, hold, isMark, isTask⟩ := hold_of_prepares held
      exact (completes prompt isMark isTask).steps isMark isTask
  | finish other position =>
      obtain ⟨free, taken⟩ := Option.ite_none_right_eq_some.mp stepped
      cases taken
      exact (finishes prompt position).steps (idle_of_mark free)

variable {limits : Limits} {actions : List Action}

/-- The cached time is right and every copy is sound in every state. Witness: induction over the
steps. -/
theorem sound_of_run (reached : run (step layout) (start limits) actions = some state)
    : state.schedule.Prompt ∧ ∀ id mark, state.mark id = some mark → mark.Sound := by
  refine @run_invariant _ _ (step layout)
    (fun state => state.schedule.Prompt ∧ ∀ id mark, state.mark id = some mark → mark.Sound)
    ?_ _ _ actions ⟨prompt_start limits, ?_⟩ reached
  · intro state action next ⟨prompt, sound⟩ stepped
    have steps := steps prompt stepped
    refine ⟨steps.prompt, fun id mark isMark => ?_⟩
    have turn : Turn _ (state.mark id) (next.mark id) := steps.turn sound id
    rw [isMark] at turn
    exact turn.sound (sound id)
  · intro id mark isMark
    have none : (start limits).mark id = none := congrArg (Option.map _) (Assoc.get?_empty id)
    rw [none] at isMark
    cases isMark

def host (layout : Layout) (id : Bytes) : Restore.Host State Action Record Error where
  mark state := state.mark id
  act := step layout
  completes := Action.ends id
  begin state := state.begin layout id
  complete state := state.complete layout id
  finish state := state.finish id

def Reached (layout : Layout) (state : State) : Prop :=
  ∃ limits actions, run (step layout) (start limits) actions = some state

theorem Reached.step (reached : Reached layout state) {action : Action}
    (stepped : state.step layout action = some next)
    : Reached layout next := by
  obtain ⟨limits, actions, isRun⟩ := reached
  refine ⟨limits, actions ++ [action], ?_⟩
  rw [run_append, isRun]
  simp [stepped]

theorem Reached.sound (reached : Reached layout state)
    : state.schedule.Prompt ∧ ∀ id mark, state.mark id = some mark → mark.Sound := by
  obtain ⟨limits, actions, isRun⟩ := reached
  exact sound_of_run isRun

theorem prepares_of_hold {held : Mark} {hold : Replica.Hold} (isMark : state.mark id = some held)
    (isTask : held.task = some hold)
    : state.prepares id = true := by
  obtain ⟨replica, isReplica, rfl⟩ := Option.map_eq_some_iff.mp isMark
  obtain ⟨task, isTask', _⟩ := Option.map_eq_some_iff.mp isTask
  simp [State.prepares, isReplica, Replica.busy, isTask']

/-- An Ephemeris promises what a task needs. -/
theorem lawful (layout : Layout) (id : Bytes) : (host layout id).Lawful (Reached layout) where
  act {state action next} reached acted :=
    ⟨reached.step acted, (steps reached.sound.1 acted).turn reached.sound.2 id⟩
  sound reached isMark := reached.sound.2 id _ isMark
  refused {state draft scope moment reply next} reached idle begun := by
    have free := free_of_mark idle
    have begins := @begins layout state moment id reached.sound.1 free draft scope
    rw [show state.begin layout id draft scope moment = (some reply, next) from begun] at begins
    refine ⟨@Reached.step layout state next reached (.begin id draft scope moment) ?_, (begins.refused reply rfl).2,
      (begins.refused reply rfl).1⟩
    rw [State.step, if_pos free]
    exact congrArg (fun result => some result.2) begun
  begun {state draft scope moment next} reached idle begun := by
    have free := free_of_mark idle
    have begins := @begins layout state moment id reached.sound.1 free draft scope
    rw [show state.begin layout id draft scope moment = (none, next) from begun] at begins
    obtain ⟨mark, hold, isMark, position, isScope, isNext, _⟩ := begins.begun rfl
    refine ⟨@Reached.step layout state next reached (.begin id draft scope moment) ?_, mark, hold, isMark, position,
      isScope, isNext⟩
    rw [State.step, if_pos free]
    exact congrArg (fun result => some result.2) begun
  completed {state moment reply next mark hold} reached isMark isTask completed := by
    obtain ⟨prompt, sound⟩ := reached.sound
    have completes := @completes layout state moment id prompt mark hold isMark isTask
    rw [show state.complete layout id moment = (reply, next) from completed] at completes
    refine ⟨@Reached.step layout state next reached (.complete id moment) ?_,
      completes.taken (sound id mark isMark), completes.refused (sound id mark isMark)⟩
    rw [State.step, if_pos (prepares_of_hold isMark isTask)]
    exact congrArg (fun result => some result.2) completed
  finished {state position reply next} reached idle finished := by
    have free := free_of_mark idle
    have finishes := @finishes state id reached.sound.1 position
    rw [show state.finish id position = (reply, next) from finished] at finishes
    refine ⟨@Reached.step layout state next reached (.finish id position) ?_, fun done => ?_,
      fun loud => congrFun (finishes.refused loud) id⟩
    · rw [State.step, if_pos free]
      exact congrArg (fun result => some result.2) finished
    · obtain ⟨mark, isMark, _, _, _, isNext⟩ := finishes.confirmed done
      exact ⟨mark, isMark, isNext⟩

/-- A read that takes the exclusive lock at once, and advances whatever is cached. -/
def readExclusive (layout : Layout) (state : State) (moment : Moment) : Reply × State :=
  match state.reading (moment.sample 0) with
  | none => (.error .clock, state)
  | some (stamp, state) =>
      match state.sweep layout moment stamp.time none with
      | (state, some fault) => (.thrown fault, state)
      | (state, none) => (.ok (), state)

/-- Before the cached time of a state that is reached a whole advance changes nothing. -/
theorem sweep_of_run (reached : run (step layout) (start limits) actions = some state)
    (accepted : state.reading sample = some (stamp, next)) (early : stamp.time < next.due)
    (moment : Moment) (held : Option Bytes)
    : Same next (next.sweep layout moment stamp.time held).1
      ∧ (next.sweep layout moment stamp.time held).2 = none := by
  have timed := timed_of_reading ((sound_of_run reached).1) accepted
  obtain ⟨follows, rfl⟩ := reading_some accepted
  refine timed.sweep_early early ⟨stamp, ?_, rfl⟩
  simp only [Clock.Reading.follows, Bool.and_eq_true, decide_eq_true_eq] at follows ⊢
  exact ⟨follows.1, by simp⟩

/-- A read before the cached time sees what one with the exclusive lock sees. -/
theorem read_of_run (reached : run (step layout) (start limits) actions = some state)
    (accepted : state.reading (moment.sample 0) = some (stamp, next))
    (early : stamp.time < next.due)
    : state.read layout moment = (.ok (), next) ∧ (state.readExclusive layout moment).1 = .ok ()
      ∧ Same next (state.readExclusive layout moment).2 := by
  obtain ⟨same, whole⟩ := sweep_of_run reached accepted early moment none
  unfold State.read readExclusive
  simp only [accepted, if_pos early]
  generalize next.sweep layout moment stamp.time none = result at same whole
  obtain ⟨last, fault⟩ := result
  cases whole
  exact ⟨trivial, rfl, same⟩

end Astra.Ephemeris.State
