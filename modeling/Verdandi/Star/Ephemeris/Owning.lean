import Verdandi.Star.Ephemeris.Writing

/-! What every operation of an Ephemeris does to the names: leases that are over end, and then the one
for whom it happens changes what it holds, without touching what is shown for others.
-/

namespace Astra.Ephemeris.State

open Support
open Origin (Name)

variable {layout : Layout} {state next middle last : State} {moment : Moment} {now : Int} {id : Bytes}
  {held : Option Bytes} {name : Name} {sample : Option Clock.Reading} {stamp : Clock.Reading}
  {driver : Option Owner} {actor : Owner}

def Does (driver : Option Owner) (spent : Record → Prop) (before after : Title Owner Record Content)
    : Prop :=
  match driver with
  | none => after = before
  | some actor => Title.Changes .own actor Record.content spent before after

/-- A step: spent records are given up, and then somebody changes what it holds. -/
structure Acts (driver : Option Owner) (before after : State) : Prop where
  titles : ∀ name, ∃ middle,
    Title.Fades .own (Record.Spent after.observed) (before.title name) middle
      ∧ Does driver (Record.Spent after.observed) middle (after.title name)
  observed : Onwards before.observed after.observed

theorem does_refl (driver : Option Owner) (spent : Record → Prop)
    (title : Title Owner Record Content)
    : Does driver spent title title := by
  cases driver with
  | none => rfl
  | some actor => exact .same

theorem Record.Spent.later {before after : Option Int} (onwards : Onwards before after)
    {record : Record} (spent : record.Spent before)
    : record.Spent after := by
  obtain ⟨now, isNow, passed⟩ := spent
  obtain ⟨later, isLater, least⟩ := onwards now isNow
  exact ⟨later, isLater, passed.trans least⟩

/-- The clock was read, or less. -/
theorem acts_of_titles (driver : Option Owner) (same : ∀ name, next.title name = state.title name)
    (observed : Onwards state.observed next.observed)
    : Acts driver state next :=
  ⟨fun name => ⟨state.title name, .refl, same name ▸ does_refl driver _ _⟩, observed⟩

theorem Acts.refl (driver : Option Owner) (state : State) : Acts driver state state :=
  acts_of_titles driver (fun _ => rfl) (.refl _)

/-- First the leases end, for nobody in particular. -/
theorem Acts.after (acts : Acts driver middle last) (aged : Acts none state middle)
    : Acts driver state last := by
  refine ⟨fun name => ?_, aged.observed.trans acts.observed⟩
  obtain ⟨faded, fades, same⟩ := aged.titles name
  obtain ⟨ended, ends, does⟩ := acts.titles name
  have isFaded : middle.title name = faded := same
  rw [isFaded] at ends
  exact ⟨ended, (fades.later fun _ => Record.Spent.later acts.observed).trans ends, does⟩

theorem Aged.acts (aged : Aged now state next) (time : state.observed = some now)
    : Acts none state next := by
  have observed := aged.observed
  refine ⟨fun name => ⟨next.title name, ?_, rfl⟩, by rw [observed]; exact .refl _⟩
  rw [observed, time]
  exact aged.titles name

/-- The names stay sound. -/
theorem Acts.sound (acts : Acts driver state next) (sole : Sole state) (name : Name)
    : (next.title name).Sound .own Record.content (Record.Spent next.observed) := by
  obtain ⟨middle, fades, does⟩ := acts.titles name
  have sound := fades.sound ((sole.titles name).later fun _ => Record.Spent.later acts.observed)
  cases driver with
  | none => exact (show next.title name = middle from does) ▸ sound
  | some actor => exact Title.Changes.sound does sound

/-- A change by somebody of what it holds. -/
theorem acts_of_changes
    (changes : ∀ name, Title.Changes .own actor Record.content (Record.Spent next.observed)
      (state.title name) (next.title name))
    (observed : Onwards state.observed next.observed)
    : Acts (some actor) state next :=
  ⟨fun name => ⟨state.title name, .refl, changes name⟩, observed⟩

/-- Whatever a step has kept of hooks, with the names it keeps the state sound. -/
theorem Acts.sole (acts : Acts driver state next) (sole : Sole state)
    (tied : Tied next.agenda (deadlines next.source.find))
    (copies : ∀ id replica, next.replicas.get? id = some replica → Copied replica)
    : Sole next :=
  ⟨tied, copies, acts.sound sole⟩

/-- The clock is read. -/
theorem Sole.read (sole : Sole state) (accepted : state.reading sample = some (stamp, next))
    : Sole next ∧ Acts none state next := by
  have onwards := onwards_of_reading accepted
  obtain ⟨_, rfl⟩ := reading_some accepted
  have acts : Acts none state { state with observed := some stamp.time } :=
    acts_of_titles none (fun _ => rfl) onwards
  exact ⟨acts.sole sole sole.tied sole.copies, acts⟩

/-- The clock is read and what is over ends. -/
theorem Sole.expires (sole : Sole state) (prompt : state.schedule.Prompt)
    (expires : Expires layout moment state next)
    : Sole next ∧ Acts none state next := by
  rcases expires with rfl | ⟨stamp, read, isRead, rfl | rfl⟩
  · exact ⟨sole, .refl _ _⟩
  · exact sole.read isRead
  · obtain ⟨soleRead, actsRead⟩ := sole.read isRead
    have timed := timed_of_reading prompt isRead
    have advanced := @Sole.advance layout read moment stamp.time none soleRead timed
    exact ⟨advanced.sole, (advanced.aged.acts timed.observed).after actsRead⟩

-- The own source

/-- An agenda that may have been made is tied as it was. -/
theorem Opened.tied {before after : Option Agenda} (opened : Opened before after)
    {deadlines : Name → Option Int} (tied : Tied before deadlines)
    : Tied after deadlines := by
  rcases opened with rfl | ⟨time, rfl⟩
  · exact tied
  · exact tied.opened time

theorem Leaves.sole (leaves : Leaves name state next) (sole : Sole state)
    : Sole next ∧ Acts (some .own) state next := by
  have acts : Acts (some .own) state next := by
    refine acts_of_titles _ (fun place => title_congr (fun party => ?_) ?_ ?_) leaves.observed
    · rw [record_source leaves.replicas, leaves.source]
      split
      next isOwn => rw [isOwn, State.record]
      · rfl
    · rw [owner, owner, leaves.owners]
    · exact congrFun (find_opened leaves.stage) place
  refine ⟨acts.sole sole ?_ ?_, acts⟩
  · rw [leaves.source]
    exact leaves.agenda.tied sole.tied
  · rw [leaves.replicas]
    exact sole.copies

theorem Sets.sole {record : Option Record} (sets : Sets name record state next) (sole : Sole state)
    (free : state.owner name = .own)
    : Sole next ∧ Acts (some .own) state next := by
  have acts : Acts (some .own) state next := by
    refine acts_of_changes (fun place => ?_) sets.observed
    by_cases same : place = name
    · subst same
      have put : next.title place = (state.title place).put .own .own Record.content record := by
        unfold title Title.put
        congr
        · funext party
          rw [record_source sets.replicas, sets.source, Function.update_self, Function.update_apply]
        · rw [owner, sets.owners]
          rw [owner] at free
          rw [free]
          split <;> rfl
        · rw [sets.stage, Function.update_self]
      rw [put]
      exact .put record (.inl free)
    · have unchanged : next.title place = state.title place := by
        refine title_congr (fun party => ?_) ?_ ?_
        · rw [record_source sets.replicas, sets.source, Function.update_of_ne same]
          split
          next isOwn => rw [isOwn, State.record]
          · rfl
        · rw [owner, owner, sets.owners]
        · rw [sets.stage, Function.update_of_ne same]
      rw [unchanged]
      exact .same
  refine ⟨acts.sole sole ?_ ?_, acts⟩
  · obtain ⟨opened, isOpened, active, agenda⟩ := sets.agenda
    rw [agenda, sets.source, deadlines_update]
    refine (isOpened.tied sole.tied).hold fun lasting => active ?_
    rwa [Option.isSome_map] at lasting
  · rw [sets.replicas]
    exact sole.copies

/-- What is not shown is nobody's. -/
theorem Sole.unseen (sole : Sole state) (hidden : state.stage.find name = none)
    : state.owner name = .own :=
  ((sole.titles name).unseen hidden).1

theorem Sole.create (sole : Sole state) (prompt : state.schedule.Prompt) (name : Name)
    (attr data : Bytes) (ttl : Nat)
    : Sole (state.create layout name attr data ttl moment).2
      ∧ Acts (some .own) state (state.create layout name attr data ttl moment).2 := by
  generalize created : state.create layout name attr data ttl moment = result
  obtain ⟨reply, next⟩ := result
  obtain ⟨swept, expires, outcome⟩ := create_cases created
  obtain ⟨soleSwept, aged⟩ := sole.expires prompt expires
  rcases outcome with ⟨_, leaves⟩ | ⟨_, hidden, record, _, sets⟩
  · obtain ⟨soleNext, acts⟩ := leaves.sole soleSwept
    exact ⟨soleNext, acts.after aged⟩
  · obtain ⟨soleNext, acts⟩ := sets.sole soleSwept (soleSwept.unseen hidden)
    exact ⟨soleNext, acts.after aged⟩

/-- A change that is written concerns an own registration. -/
theorem Sole.change_cases (sole : Sole state) (prompt : state.schedule.Prompt) {request : Request}
    {reply : Reply} (changed : state.change layout name request moment = (reply, next))
    : ∃ swept, Expires layout moment state swept
      ∧ ((Leaves name swept next ∧ (reply = .ok () → swept.Lasts moment name))
        ∨ reply = .ok () ∧ swept.Lasts moment name
          ∧ ∃ record, Sets name (some record) swept next) := by
  refine State.change_cases (fun swept expires old found => ?_) changed
  exact ((sole.expires prompt expires).1.owner_own found).2

theorem Sole.change (sole : Sole state) (prompt : state.schedule.Prompt) (name : Name)
    (request : Request)
    : Sole (state.change layout name request moment).2
      ∧ Acts (some .own) state (state.change layout name request moment).2 := by
  generalize changed : state.change layout name request moment = result
  obtain ⟨reply, next⟩ := result
  obtain ⟨swept, expires, outcome⟩ := sole.change_cases prompt changed
  obtain ⟨soleSwept, aged⟩ := sole.expires prompt expires
  rcases outcome with ⟨leaves, _⟩ | ⟨_, ⟨old, _, found, _⟩, record, sets⟩
  · obtain ⟨soleNext, acts⟩ := leaves.sole soleSwept
    exact ⟨soleNext, acts.after aged⟩
  · obtain ⟨soleNext, acts⟩ := sets.sole soleSwept (soleSwept.owner_own found).1
    exact ⟨soleNext, acts.after aged⟩

theorem Sole.remove (sole : Sole state) (prompt : state.schedule.Prompt) (name : Name)
    : Sole (state.remove layout name moment).2
      ∧ Acts (some .own) state (state.remove layout name moment).2 := by
  generalize removed : state.remove layout name moment = result
  obtain ⟨reply, next⟩ := result
  obtain ⟨swept, expires, outcome⟩ := remove_cases removed
  obtain ⟨soleSwept, aged⟩ := sole.expires prompt expires
  rcases outcome with ⟨_, leaves⟩ | ⟨_, ⟨old, _, found, _⟩, sets⟩
  · obtain ⟨soleNext, acts⟩ := leaves.sole soleSwept
    exact ⟨soleNext, acts.after aged⟩
  · obtain ⟨soleNext, acts⟩ := sets.sole soleSwept (soleSwept.owner_own found).1
    exact ⟨soleNext, acts.after aged⟩

-- Nobody in particular

theorem Sole.tick (sole : Sole state) (prompt : state.schedule.Prompt)
    : Sole (state.tick layout moment).2 ∧ Acts none state (state.tick layout moment).2 := by
  unfold State.tick
  split
  · exact ⟨sole, .refl _ _⟩
  split
  · exact ⟨sole, .refl _ _⟩
  rename_i stamp read isRead
  have whole := @Sole.expires layout state _ moment sole prompt (.inr ⟨stamp, _, isRead, .inr rfl⟩)
  generalize State.advance layout read moment stamp.time none = result at whole
  obtain ⟨last, fault⟩ := result
  cases fault <;> exact whole

theorem Sole.readSecond (sole : Sole state) (prompt : state.schedule.Prompt)
    : Sole (state.read layout moment).2 ∧ Acts none state (state.read layout moment).2 := by
  unfold State.read
  split
  · exact ⟨sole, .refl _ _⟩
  rename_i stamp read isRead
  obtain ⟨soleRead, acts⟩ := sole.read isRead
  split
  · exact ⟨soleRead, acts⟩
  split
  · exact ⟨soleRead, acts⟩
  rename_i later final isFinal
  obtain ⟨soleFinal, actsFinal⟩ := soleRead.read isFinal
  have timed := timed_of_reading (timed_of_reading prompt isRead).prompt isFinal
  have advanced := @Sole.advance layout final moment later.time none soleFinal timed
  have whole := ((advanced.aged.acts timed.observed).after actsFinal).after acts
  have soleLast := advanced.sole
  generalize State.advance layout final moment later.time none = result at whole soleLast
  obtain ⟨last, fault⟩ := result
  cases fault <;> exact ⟨soleLast, whole⟩

theorem Sole.admitReplica (sole : Sole state)
    : Sole (state.admitReplica id).2 ∧ Acts none state (state.admitReplica id).2 := by
  unfold State.admitReplica
  split
  · exact ⟨sole, .refl _ _⟩
  split
  · exact ⟨sole, .refl _ _⟩
  rename_i missing
  split
  · exact ⟨sole, .refl _ _⟩
  dsimp only
  generalize isFresh : ({ source := { owned := false, limits := state.limits.source } }
    : Replica Record Error) = fresh
  have empty (name : Name) : fresh.source.find name = none := by
    rw [← isFresh]
    exact Assoc.get?_empty name
  have acts : Acts none state { state with replicas := state.replicas.set id fresh } := by
    refine acts_of_titles _ (fun place => title_congr (fun party => ?_) rfl rfl) (.refl _)
    rw [@record_replicas state { state with replicas := state.replicas.set id fresh } id fresh rfl rfl]
    split
    next isCopy => rw [empty, isCopy, State.record, missing, Option.bind_none]
    · rfl
  refine ⟨acts.sole sole sole.tied ?_, acts⟩
  intro other current isCurrent
  dsimp only at isCurrent
  rw [Assoc.get?_set] at isCurrent
  split at isCurrent
  · cases isCurrent
    refine ⟨?_, ?_⟩
    · rw [← isFresh]
      exact fun name => congrArg (Option.map _) (Assoc.get?_empty name)
    · rw [← isFresh]
      intros; contradiction
  · exact sole.copies other current isCurrent

-- Copies

/-- A copy is exchanged for one with the same records. -/
theorem Sole.exchange (sole : Sole state) {old new : Replica Record Error} (copied : Copied new)
    (isOld : state.replicas.get? id = some old) (find : new.source.find = old.source.find)
    (due : Int) (driver : Option Owner)
    : Sole { state with replicas := state.replicas.set id new, due }
      ∧ Acts driver state { state with replicas := state.replicas.set id new, due } := by
  have acts : Acts driver state { state with replicas := state.replicas.set id new, due } := by
    refine acts_of_titles _ (fun place => title_congr (fun party => ?_) rfl rfl) (.refl _)
    rw [@record_replicas state { state with replicas := state.replicas.set id new, due } id new rfl rfl]
    split
    next isCopy => rw [find, isCopy, State.record, isOld, Option.bind_some]
    · rfl
  refine ⟨acts.sole sole sole.tied ?_, acts⟩
  intro other current isCurrent
  dsimp only at isCurrent
  rw [Assoc.get?_set] at isCurrent
  split at isCurrent
  · cases isCurrent
    exact copied
  · exact sole.copies other current isCurrent

theorem Sole.retire (sole : Sole state) (driver : Option Owner)
    : Sole (state.retire id) ∧ Acts driver state (state.retire id) := by
  unfold State.retire
  split
  · exact ⟨sole, .refl _ _⟩
  rename_i replica isReplica
  have copied := sole.copies id replica isReplica
  have retired : Copied { replica with retired := true, coverage := [] } :=
    ⟨copied.tied, copied.task⟩
  exact sole.exchange retired isReplica rfl 0 driver

variable {replica : Replica Record Error}

theorem idle_of_free (free : state.free id = true)
    (isReplica : state.replicas.get? id = some replica)
    : replica.task = none := by
  simpa [State.free, isReplica, Replica.busy] using free

/-- A copy that nobody holds may be anything with its hooks. -/
theorem copied_of_idle (idle : replica.task = none)
    (tied : Tied replica.agenda (deadlines replica.source.find))
    : Copied replica := by
  refine ⟨tied, fun task _ _ isTask => ?_⟩
  rw [idle] at isTask
  cases isTask

theorem Sole.skip (sole : Sole state) (free : state.free id = true)
    {replica passed : Replica Record Error} (isReplica : state.replicas.get? id = some replica)
    {position : Nat} {steady : Int}
    (isPassed : State.skip layout replica name position steady = .ok passed)
    (driver : Option Owner)
    : Sole { state with replicas := state.replicas.set id passed }
      ∧ Acts driver state { state with replicas := state.replicas.set id passed } := by
  unfold State.skip at isPassed
  split at isPassed
  · cases isPassed
  rename_i edit prepared
  cases isPassed
  have find : (edit.commit replica.source).find = replica.source.find := by
    rw [find_commit prepared, Function.update_eq_self]
  have idle := idle_of_free free isReplica
  have copied : Copied
      { replica with
        source := edit.commit replica.source
        coverage := Replica.pass replica.coverage position } := by
    refine copied_of_idle idle ?_
    dsimp only
    rw [find]
    exact (sole.copies id replica isReplica).tied
  exact sole.exchange copied isReplica find state.due driver

theorem Sole.covered (sole : Sole state) (free : state.free id = true) (position : Nat)
    (name : Name) (steady : Int) (driver : Option Owner)
    : Sole (state.covered layout id position name steady).2
      ∧ Acts driver state (state.covered layout id position name steady).2 := by
  unfold State.covered
  split
  · exact ⟨sole, .refl _ _⟩
  split
  · exact ⟨sole, .refl _ _⟩
  rename_i replica isReplica
  split
  · exact ⟨sole, .refl _ _⟩
  split
  · exact ⟨sole, .refl _ _⟩
  split
  · exact ⟨sole, .refl _ _⟩
  split
  · split
    · exact ⟨sole, .refl _ _⟩
    next passed isPassed => exact sole.skip free isReplica isPassed driver
  · exact ⟨sole, .refl _ _⟩

theorem Sole.finish (sole : Sole state) (free : state.free id = true) (position : Nat)
    (driver : Option Owner)
    : Sole (state.finish id position).2 ∧ Acts driver state (state.finish id position).2 := by
  unfold State.finish
  split
  · exact ⟨sole, .refl _ _⟩
  rename_i replica isReplica
  split
  · exact ⟨sole, .refl _ _⟩
  split
  · exact ⟨sole, .refl _ _⟩
  rename_i source confirmed
  have find : source.find = replica.source.find := by
    unfold Origin.confirm at confirmed
    split at confirmed
    · cases confirmed
    · cases confirmed
      rfl
  have idle := idle_of_free free isReplica
  have copied : Copied { replica with source, coverage := [] } := by
    refine copied_of_idle idle ?_
    dsimp only
    rw [find]
    exact (sole.copies id replica isReplica).tied
  exact sole.exchange copied isReplica find state.due driver

-- Single facts

/-- An agenda that a copy needs is made. -/
theorem Sole.openReplica (sole : Sole state) (time : Int) (driver : Option Owner)
    : Sole (state.openReplica id time) ∧ Acts driver state (state.openReplica id time) := by
  unfold State.openReplica
  split
  · exact ⟨sole, .refl _ _⟩
  rename_i replica isReplica
  split
  · exact ⟨sole, .refl _ _⟩
  rename_i missing
  have copied := sole.copies id replica isReplica
  have opened : Copied { replica with agenda := some { time } } := by
    refine ⟨?_, copied.task⟩
    have tied := copied.tied
    rw [Option.not_isSome_iff_eq_none.mp missing] at tied
    exact tied.opened time
  exact sole.exchange opened isReplica rfl _ driver

theorem get?_openReplica (isReplica : state.replicas.get? id = some replica) (time : Int)
    : (state.openReplica id time).replicas.get? id
      = some { replica with agenda := some (replica.agenda.getD { time }) } := by
  unfold State.openReplica
  rw [isReplica]
  dsimp only
  split
  next there =>
    obtain ⟨agenda, isAgenda⟩ := Option.isSome_iff_exists.mp there
    rw [isReplica, isAgenda, Option.getD_some, ← isAgenda]
  rename_i missing
  rw [Assoc.get?_set, if_pos rfl, Option.not_isSome_iff_eq_none.mp missing]
  rfl

/-- An agenda is made where one is needed. -/
theorem Sole.openWhere (sole : Sole state) {replica : Replica Record Error}
    (isReplica : state.replicas.get? id = some replica) (needed : Bool) (time : Int)
    (driver : Option Owner)
    : ∃ agenda, Sole (if needed then state.openReplica id time else state)
      ∧ Acts driver state (if needed then state.openReplica id time else state)
      ∧ (if needed then state.openReplica id time else state).replicas.get? id
        = some { replica with agenda }
      ∧ (if needed then state.openReplica id time else state).stage = state.stage
      ∧ (if needed then state.openReplica id time else state).owners = state.owners
      ∧ (needed = true → agenda.isSome = true) := by
  cases needed with
  | false => exact ⟨replica.agenda, sole, .refl _ _, isReplica, rfl, rfl, nofun⟩
  | true =>
      obtain ⟨soleOpened, acts⟩ := @Sole.openReplica state id sole time driver
      have isOpened := get?_openReplica isReplica time
      refine ⟨some (replica.agenda.getD { time }), soleOpened, acts, isOpened, ?_, ?_, fun _ => rfl⟩
      · simp only [if_true]
        unfold State.openReplica
        rw [isReplica]
        dsimp only
        split <;> rfl
      · simp only [if_true]
        unfold State.openReplica
        rw [isReplica]
        dsimp only
        split <;> rfl

variable {fact : Fact}

/-- What a copy takes for a name that it has is of the same registration. -/
theorem attr_of_accepted {old incoming : Record} (accepted : State.refusal replica fact = none)
    (found : replica.source.find fact.name = some old) (isIncoming : fact.record = some incoming)
    : old.attr = incoming.attr := by
  unfold State.refusal at accepted
  rw [found, isIncoming] at accepted
  dsimp only at accepted
  split at accepted
  · cases accepted
  rename_i alike
  by_contra differs
  exact alike (by simp [conflicts, differs])

structure Prepares (id : Bytes) (replica : Replica Record Error) (fact : Fact) (time : Int)
    (state : State) (arrival : Arrival)
    : Prop where
  record : arrival.record = fact.record.filter (time < ·.deadline)
  visible : arrival.visible = (state.stage.find fact.name).isSome
  owned : arrival.visible = true → state.owners.get? fact.name = some id
  source : (arrival.source.commit replica.source).find
    = Function.update replica.source.find fact.name arrival.record
  stage : arrival.stage.find
    = Function.update state.stage.find fact.name (arrival.record.map Record.content)

theorem prepares_of_prepareFact {time steady : Int} {arrival : Arrival} (sole : Sole state)
    (isReplica : state.replicas.get? id = some replica)
    (accepted : State.refusal replica fact = none)
    (prepared : state.prepareFact layout id replica fact time steady = .ok arrival)
    : Prepares id replica fact time state arrival := by
  unfold State.prepareFact at prepared
  dsimp only at prepared
  split at prepared
  · cases prepared
  rename_i within
  have mine : (state.stage.find fact.name).isSome = true → state.owners.get? fact.name = some id := by
    intro visible
    by_contra other
    exact within ⟨visible, other⟩
  split at prepared
  · cases prepared
  rename_i opened isOpened
  have same : opened.find = state.stage.find := by
    split at isOpened
    · exact Stage.find_obtain isOpened
    · cases isOpened
      rfl
  split at prepared
  · cases prepared
  rename_i edit isEdit
  split at prepared
  · cases prepared
  split at prepared
  · cases prepared
  rename_i shown isShown
  cases prepared
  refine ⟨rfl, rfl, mine, find_commit isEdit, ?_⟩
  dsimp only
  cases isRecord : fact.record.filter (time < ·.deadline) with
  | none =>
      rw [isRecord] at isShown
      dsimp only at isShown
      split at isShown
      · rw [Stage.find_change isShown, same]
      rename_i hidden
      cases isShown
      rw [same, eq_comm, Function.update_eq_self_iff]
      exact (Option.not_isSome_iff_eq_none.mp hidden).symm
  | some record =>
      rw [isRecord] at isShown
      dsimp only at isShown
      split at isShown
      · rw [Stage.find_change isShown, same]
      rename_i unchanged
      cases isShown
      rw [same, eq_comm, Function.update_eq_self_iff]
      cases isCurrent : state.stage.find fact.name with
      | none => simp [isCurrent] at unchanged
      | some current =>
          have data : current.data = record.data := by simpa [isCurrent] using unchanged
          obtain ⟨old, isOld, shown⟩ := sole.owner_copy (mine (by simp [isCurrent]))
          rw [State.record, isReplica, Option.bind_some] at isOld
          have attr := attr_of_accepted accepted isOld (Option.filter_eq_some_iff.mp isRecord).1
          rw [isCurrent] at shown
          cases shown
          rw [Option.map_some, Record.content, Record.content, ← attr, ← data]
          rfl

theorem Sole.commitFact (sole : Sole state) {replica : Replica Record Error} {fact : Fact}
    {time : Int} {arrival : Arrival} (isReplica : state.replicas.get? id = some replica)
    (idle : replica.task = none) (prepares : Prepares id replica fact time state arrival)
    (opened : arrival.record.isSome = true → replica.agenda.isSome = true)
    : Sole (state.commitFact id replica fact arrival)
      ∧ Acts (some (.copy id)) state (state.commitFact id replica fact arrival) := by
  have records (party : Owner) (place : Name)
      : (state.commitFact id replica fact arrival).record party place
        = if party = .copy id then (arrival.source.commit replica.source).find place
          else state.record party place :=
    @record_replicas state (state.commitFact id replica fact arrival) id _ rfl rfl party place
  have shown : (state.commitFact id replica fact arrival).stage.find
      = Function.update state.stage.find fact.name (arrival.record.map Record.content) :=
    prepares.stage
  have owners (place : Name) : (state.commitFact id replica fact arrival).owner place
      = if place = fact.name then (if arrival.record.isSome then .copy id else .own)
        else state.owner place := by
    have own : (state.commitFact id replica fact arrival).owner place
        = ((if arrival.record.isSome ∧ arrival.visible = false then state.owners.set fact.name id
            else if arrival.record.isNone ∧ arrival.visible then state.owners.remove fact.name
            else state.owners).get? place).elim .own .copy := rfl
    rw [own]
    by_cases same : place = fact.name
    · subst same
      rw [if_pos rfl]
      cases isVisible : arrival.visible with
      | true =>
          have isOwner := prepares.owned isVisible
          cases arrival.record <;> simp [Assoc.get?_remove, isOwner]
      | false =>
          have hidden : state.stage.find fact.name = none := by
            have visible := prepares.visible
            rw [isVisible] at visible
            simpa using visible.symm
          have isOwn := owner_eq_own.mp (sole.unseen hidden)
          cases arrival.record <;> simp [Assoc.get?_set, isOwn]
    · rw [if_neg same, State.owner]
      split
      · rw [Assoc.get?_set, if_neg same]
      split
      · rw [Assoc.get?_remove, if_neg same]
      · rfl
  have acts : Acts (some (.copy id)) state (state.commitFact id replica fact arrival) := by
    refine acts_of_changes (fun place => ?_) (.refl _)
    by_cases same : place = fact.name
    · subst same
      have put : (state.commitFact id replica fact arrival).title fact.name
          = (state.title fact.name).put .own (.copy id) Record.content arrival.record := by
        unfold title Title.put
        congr
        · funext party
          rw [records, prepares.source, Function.update_self, Function.update_apply]
        · rw [owners, if_pos rfl]
        · rw [shown, Function.update_self]
      rw [put]
      refine .put _ ?_
      cases isVisible : arrival.visible with
      | true => exact .inl (owner_eq_copy.mpr (prepares.owned isVisible))
      | false =>
          right
          have visible := prepares.visible
          rw [isVisible] at visible
          exact Option.not_isSome_iff_eq_none.mp (Bool.not_eq_true _ |>.mpr visible.symm)
    · have unchanged : (state.commitFact id replica fact arrival).title place = state.title place := by
        refine title_congr (fun party => ?_) ?_ ?_
        · rw [records, prepares.source, Function.update_of_ne same]
          split
          next isCopy => rw [isCopy, State.record, isReplica, Option.bind_some]
          · rfl
        · rw [owners, if_neg same]
        · rw [shown, Function.update_of_ne same]
      rw [unchanged]
      exact .same
  refine ⟨acts.sole sole sole.tied ?_, acts⟩
  intro other current isCurrent
  change (state.replicas.set id _).get? other = some current at isCurrent
  rw [Assoc.get?_set] at isCurrent
  split at isCurrent
  · cases isCurrent
    refine copied_of_idle idle ?_
    dsimp only
    rw [prepares.source, deadlines_update]
    refine (sole.copies id replica isReplica).tied.hold fun lasting => opened ?_
    rwa [Option.isSome_map] at lasting
  · exact sole.copies other current isCurrent

theorem Sole.receiveAt (sole : Sole state) (free : state.free id = true) (fact : Fact) (time : Int)
    : Sole (state.receiveAt layout id fact time moment).2
      ∧ Acts (some (.copy id)) state (state.receiveAt layout id fact time moment).2 := by
  unfold State.receiveAt
  split
  · exact ⟨sole, .refl _ _⟩
  rename_i replica isReplica
  split
  · exact ⟨sole, .refl _ _⟩
  rename_i accepted
  split
  · exact ⟨sole, .refl _ _⟩
  rename_i arrival prepared
  have prepares := prepares_of_prepareFact sole isReplica accepted prepared
  have idle := idle_of_free free isReplica
  obtain ⟨agenda, soleOpened, acts, isOpened, stage, owners, active⟩ :=
    @Sole.openWhere state id sole replica isReplica arrival.record.isSome time none
  dsimp only
  generalize (if arrival.record.isSome then state.openReplica id time else state) = opened
    at soleOpened acts isOpened stage owners
  split
  · exact ⟨soleOpened, .after (.refl _ _) acts⟩
  rename_i stamp final isRead
  obtain ⟨soleFinal, actsRead⟩ := soleOpened.read isRead
  have actsFinal := actsRead.after acts
  have isFinal := (reading_some isRead).2
  split
  · exact ⟨soleFinal, .after (.refl _ _) actsFinal⟩
  · split
    · exact ⟨soleFinal, .after (.refl _ _) actsFinal⟩
    rename_i current isCurrent
    have same : current = { replica with agenda } := by
      rw [isFinal] at isCurrent
      exact Option.some.inj (isCurrent.symm.trans isOpened)
    subst same
    have preparesFinal : Prepares id { replica with agenda } fact time final arrival := by
      rw [isFinal]
      exact
        { record := prepares.record
          visible := by rw [prepares.visible, ← stage]
          owned := fun visible => by rw [← prepares.owned visible, ← owners]
          source := prepares.source
          stage := by rw [prepares.stage, ← stage] }
    obtain ⟨soleLast, actsLast⟩ :=
      soleFinal.commitFact isCurrent idle preparesFinal active
    exact ⟨soleLast, actsLast.after actsFinal⟩

/-- A copy is advanced for itself, and then all others are. -/
theorem Sole.advanceBoth (sole : Sole state) (timed : Timed now state) (free : state.free id = true)
    {fault : Option Fault} (own : state.advanceReplica layout moment now id = (middle, fault))
    : (Sole middle ∧ Acts none state middle) ∧ Sole (middle.advance layout moment now (some id)).1
      ∧ Acts none state (middle.advance layout moment now (some id)).1
      ∧ (middle.advance layout moment now (some id)).1.free id = true := by
  have first := @Sole.advanced_replica layout state moment now id sole timed.observed timed.reached free
  have freeMiddle := @free_advanceReplica layout state moment now id free
  have timedMiddle := @Timed.advanceReplica layout state moment now id timed
  rw [own] at first freeMiddle timedMiddle
  have second := @Sole.advance layout middle moment now (some id) first.sole timedMiddle
  have acts := first.aged.acts timed.observed
  refine ⟨⟨first.sole, acts⟩, second.sole, (second.aged.acts timedMiddle.observed).after acts, ?_⟩
  rw [State.free, get?_advance_held]
  exact freeMiddle

theorem Sole.receive (sole : Sole state) (prompt : state.schedule.Prompt)
    (free : state.free id = true) (fact : Fact)
    : Sole (state.receive layout id fact moment).2
      ∧ Acts (some (.copy id)) state (state.receive layout id fact moment).2 := by
  unfold State.receive
  split
  · exact ⟨sole, .refl _ _⟩
  split
  · exact ⟨sole, .refl _ _⟩
  rename_i replica isReplica
  split
  · exact ⟨sole, .refl _ _⟩
  split
  · exact ⟨sole, .refl _ _⟩
  split
  · exact ⟨sole, .refl _ _⟩
  split
  · split
    · exact ⟨sole, .refl _ _⟩
    split
    · exact ⟨sole, .refl _ _⟩
    next passed isPassed => exact sole.skip free isReplica isPassed _
  split
  · exact ⟨sole, .refl _ _⟩
  split
  · exact ⟨sole, .refl _ _⟩
  rename_i stamp read isRead
  obtain ⟨soleRead, actsRead⟩ := sole.read isRead
  have timed := timed_of_reading prompt isRead
  have freeRead : read.free id = true := by rw [(reading_some isRead).2]; exact free
  generalize own : read.advanceReplica layout moment stamp.time id = result
  obtain ⟨middle, fault⟩ := result
  obtain ⟨first, soleLast, actsLast, freeLast⟩ := soleRead.advanceBoth timed freeRead own
  cases fault with
  | some fault => exact ⟨first.1, .after (.after (.refl _ _) first.2) actsRead⟩
  | none =>
      dsimp only
      generalize middle.advance layout moment stamp.time (some id) = result
        at soleLast actsLast freeLast
      obtain ⟨last, fault⟩ := result
      have before := actsLast.after actsRead
      cases fault with
      | some fault => exact ⟨soleLast, .after (.refl _ _) before⟩
      | none =>
          have received := @Sole.receiveAt layout last moment id soleLast freeLast fact stamp.time
          exact ⟨received.1, received.2.after before⟩

end Astra.Ephemeris.State
