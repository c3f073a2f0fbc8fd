import Verdandi.Star.Ephemeris.Ownership

/-! What a write to the own source does once its leases that are over have ended: it leaves everything
as it is, but that a Scope may be opened, or it sets one record and shows it.
-/

namespace Astra.Ephemeris.State

open Support
open Origin (Name)

variable {layout : Layout} {state next : State} {moment : Moment} {now : Int} {name : Name}
  {sample : Option Clock.Reading} {stamp : Clock.Reading}

def Onwards (before after : Option Int) : Prop :=
  ∀ time, before = some time → ∃ later, after = some later ∧ time ≤ later

def Opened (before after : Option Agenda) : Prop :=
  after = before ∨ ∃ time, after = some (before.getD { time })

/-- Nothing is written. The Scope may be opened and the agenda made, and the clock was read. -/
structure Leaves (name : Name) (before after : State) : Prop where
  source : after.source = before.source
  stage : after.stage = before.stage ∨ before.stage.obtain' name.scope = .ok after.stage
  replicas : after.replicas = before.replicas
  owners : after.owners = before.owners
  agenda : Opened before.agenda after.agenda
  observed : Onwards before.observed after.observed

/-- One record of the own source is set, or taken out, and so is what is shown of it. -/
structure Sets (name : Name) (record : Option Record) (before after : State) : Prop where
  source : after.source.find = Function.update before.source.find name record
  stage : after.stage.find = Function.update before.stage.find name (record.map Record.content)
  replicas : after.replicas = before.replicas
  owners : after.owners = before.owners
  agenda : ∃ opened, Opened before.agenda opened ∧ (record.isSome = true → opened.isSome = true)
    ∧ after.agenda = Agenda.hold opened name (record.map Record.deadline)
  observed : Onwards before.observed after.observed

theorem Onwards.refl (observed : Option Int) : Onwards observed observed :=
  fun time isTime => ⟨time, isTime, le_rfl⟩

theorem Onwards.trans {first second third : Option Int} (one : Onwards first second)
    (other : Onwards second third)
    : Onwards first third := by
  intro time isTime
  obtain ⟨middle, isMiddle, least⟩ := one time isTime
  obtain ⟨last, isLast, further⟩ := other middle isMiddle
  exact ⟨last, isLast, least.trans further⟩

/-- An accepted reading is not behind. -/
theorem onwards_of_reading (accepted : state.reading sample = some (stamp, next))
    : Onwards state.observed next.observed := by
  obtain ⟨follows, rfl⟩ := reading_some accepted
  intro time isTime
  refine ⟨stamp.time, rfl, ?_⟩
  simp only [Clock.Reading.follows, Bool.and_eq_true, decide_eq_true_eq] at follows
  have least := follows.2
  rw [isTime] at least
  simpa using least

theorem Leaves.refl (name : Name) (state : State) : Leaves name state state :=
  ⟨rfl, .inl rfl, rfl, rfl, .inl rfl, .refl _⟩

/-- The Scope of a name was opened, and nothing else. -/
theorem leaves_of_opened {stage : Stage Content}
    (opened : stage = state.stage ∨ state.stage.obtain' name.scope = .ok stage)
    : Leaves name state { state with stage } :=
  ⟨rfl, opened, rfl, rfl, .inl rfl, .refl _⟩

theorem Leaves.read (leaves : Leaves name state next) {last : State}
    (accepted : next.reading sample = some (stamp, last))
    : Leaves name state last := by
  have onwards := onwards_of_reading accepted
  obtain ⟨_, rfl⟩ := reading_some accepted
  exact ⟨leaves.source, leaves.stage, leaves.replicas, leaves.owners, leaves.agenda,
    leaves.observed.trans onwards⟩

theorem agenda_openAgenda (state : State) (time : Int)
    : (state.openAgenda time).agenda = some (state.agenda.getD { time }) := by
  unfold openAgenda
  cases isAgenda : state.agenda with
  | none => rfl
  | some agenda => simp [isAgenda]

theorem leaves_openAgenda (name : Name) (state : State) (time : Int)
    : Leaves name state (state.openAgenda time) := by
  unfold openAgenda
  split
  · exact .refl _ _
  rename_i missing
  have none := Option.not_isSome_iff_eq_none.mp missing
  exact ⟨rfl, .inl rfl, rfl, rfl, .inr ⟨time, by simp [none]⟩, .refl _⟩

variable {record : Record}

/-- The committed record is the revised one. -/
theorem find_revise {origin : Origin Record} {traits : Origin.Traits Record}
    {edit revised : Origin.Edit Record} {prepared : Option Record} {position : Option Nat}
    {time : Int} {form : Origin.Form}
    (isPrepared : origin.prepare traits name prepared position time form = .ok edit)
    (isRevised : edit.revise traits record = some revised)
    : (revised.commit origin).find = Function.update origin.find name (some record) := by
  obtain ⟨_, isName, _⟩ := Origin.fits_of_prepare isPrepared
  unfold Origin.Edit.revise at isRevised
  split at isRevised
  · cases isRevised
  split at isRevised
  · cases isRevised
  cases isRevised
  funext other
  rw [Origin.find, (Origin.Edit.published origin _).entries, Assoc.get?_amend, isName,
    Function.update_apply]
  rfl

variable {attr data : Bytes} {ttl : Nat}

/-- How a registration begins. Witness: the branches in order. -/
theorem createAt_cases (time : Int) {reply : Answer Error Receipt}
    (created : state.createAt layout name attr data ttl record time moment = (reply, next))
    : ((∀ receipt, reply ≠ .ok receipt) ∧ Leaves name state next)
      ∨ reply = .ok { uuid := name.key, ttl } ∧ state.stage.find name = none
        ∧ ∃ record, record.content = { attr, data } ∧ Sets name (some record) state next := by
  unfold createAt at created
  split at created
  · cases created
    exact .inl ⟨nofun, .refl _ _⟩
  split at created
  · cases created
    exact .inl ⟨nofun, .refl _ _⟩
  rename_i stage opened
  split at created
  · cases created
    exact .inl ⟨nofun, .refl _ _⟩
  rename_i hidden
  have unseen : state.stage.find name = none := by
    rw [← Stage.find_obtain opened]
    exact Option.not_isSome_iff_eq_none.mp hidden
  split at created
  · cases created
    exact .inl ⟨nofun, .refl _ _⟩
  split at created
  · cases created
    exact .inl ⟨nofun, .refl _ _⟩
  rename_i edit isPrepared
  split at created
  · cases created
    exact .inl ⟨nofun, .refl _ _⟩
  rename_i shown isShown
  have isAgenda := agenda_openAgenda state time
  have leaves := leaves_openAgenda name state time
  dsimp only at created
  generalize state.openAgenda time = opened' at created isAgenda leaves
  split at created
  · cases created
    exact .inl ⟨nofun, leaves⟩
  rename_i stamp final accepted
  have leavesFinal := leaves.read accepted
  have isFinal := (reading_some accepted).2
  split at created
  · cases created
    exact .inl ⟨nofun, leavesFinal⟩
  rename_i record isRecord
  split at created
  · cases created
    exact .inl ⟨nofun, leavesFinal⟩
  rename_i revised isRevised
  cases created
  have content := (create_ok isRecord).2.1
  refine .inr ⟨rfl, unseen, record, content, ?_⟩
  exact
    { source := by
        dsimp only
        rw [leavesFinal.source]
        exact find_revise isPrepared isRevised
      stage := by
        dsimp only
        rw [Stage.find_change isShown, Stage.find_obtain opened, Option.map_some, content]
      replicas := leavesFinal.replicas
      owners := leavesFinal.owners
      agenda := by
        refine ⟨opened'.agenda, .inr ⟨time, isAgenda⟩, fun _ => by simp [isAgenda], ?_⟩
        rw [isFinal]
        rfl
      observed := leavesFinal.observed }

variable {request : Request}

/-- A candidate is made again at the final time from the same record. -/
theorem again_ok {old : Record} {first second : Clock.Reading} {change last : Change}
    (accepted : request.candidate old first = .ok change)
    (again : request.again old change second = .ok last)
    : second.time < old.deadline ∧ last.record.content = change.record.content
      ∧ (change.visible = false → change.record.content = old.content) := by
  cases request with
  | update data order =>
      obtain ⟨follows, _⟩ := update_ok accepted
      simp only [Request.again] at again
      cases isActive : active old second with
      | error refused =>
          rw [isActive] at again
          cases again
      | ok =>
          rw [isActive] at again
          cases again
          refine ⟨(before_of_active isActive).1, rfl, fun hidden => ?_⟩
          rw [Record.content, Record.content, follows.attr, follows.hidden hidden]
  | renew order =>
      obtain ⟨follows, data, _⟩ := renew_ok accepted
      obtain ⟨followsLast, dataLast, _⟩ := renew_ok again
      have content : change.record.content = old.content := by
        rw [Record.content, Record.content, follows.attr, data]
      refine ⟨followsLast.before, ?_, fun _ => content⟩
      rw [content, Record.content, Record.content, followsLast.attr, dataLast]

structure Final (state : State) (moment : Moment) (stamp : Clock.Reading) : Prop where
  sample : moment.sample 1 = some stamp
  follows : stamp.follows state.observed = true

theorem final_of_reading (accepted : state.reading (moment.sample 1) = some (stamp, next))
    : Final state moment stamp := by
  refine ⟨?_, (reading_some accepted).1⟩
  obtain ⟨found, isFound, same⟩ := Option.map_eq_some_iff.mp accepted
  cases same
  exact (Option.filter_eq_some_iff.mp isFound).1

/-- How an order is confirmed again. -/
theorem confirm_cases {old : Record} {reply : Reply}
    (confirmed : state.confirm old moment = (reply, next))
    : Leaves name state next
      ∧ (reply = .ok () → ∃ stamp, Final state moment stamp ∧ stamp.time < old.deadline) := by
  unfold confirm at confirmed
  split at confirmed
  · cases confirmed
    exact ⟨.refl _ _, nofun⟩
  rename_i stamp final accepted
  have leaves := (Leaves.refl name state).read accepted
  split at confirmed
  · cases confirmed
    exact ⟨leaves, nofun⟩
  rename_i isActive
  cases confirmed
  exact ⟨leaves, fun _ => ⟨stamp, final_of_reading accepted, (before_of_active isActive).1⟩⟩

def Lasts (state : State) (moment : Moment) (name : Name) : Prop :=
  ∃ old stamp, state.source.find name = some old ∧ Final state moment stamp
    ∧ stamp.time < old.deadline

/-- How a change ends that was prepared. -/
theorem commitChange_cases {request : Request} {old : Record} {change : Change} {position : Nat}
    {edit : Origin.Edit Record} {shown : Stage Content} {form : Origin.Form}
    (isPrepared : state.source.prepare layout.traits name (some change.record) (some position)
      moment.steady form = .ok edit)
    (accepted : request.candidate old stamp = .ok change) {reply : Reply}
    (committed : state.commitChange layout name request old change edit shown moment
      = (reply, next))
    : (reply ≠ .ok () ∧ Leaves name state next ∧ next.stage = state.stage)
      ∨ reply = .ok () ∧ ∃ final record, Final state moment final ∧ final.time < old.deadline
        ∧ record.content = change.record.content
        ∧ (change.visible = false → change.record.content = old.content)
        ∧ next.source.find = Function.update state.source.find name (some record)
        ∧ next.stage = shown ∧ next.replicas = state.replicas ∧ next.owners = state.owners
        ∧ next.agenda = Agenda.hold state.agenda name (some record.deadline)
        ∧ Onwards state.observed next.observed := by
  unfold commitChange at committed
  split at committed
  · cases committed
    exact .inl ⟨nofun, .refl _ _, rfl⟩
  rename_i final read isRead
  have leaves := (Leaves.refl name state).read isRead
  have isFinal := (reading_some isRead).2
  have stage : read.stage = state.stage := by rw [isFinal]
  split at committed
  · cases committed
    exact .inl ⟨nofun, leaves, stage⟩
  rename_i last isLast
  obtain ⟨before, content, hidden⟩ := again_ok accepted isLast
  split at committed
  · cases committed
    exact .inl ⟨nofun, leaves, stage⟩
  rename_i revised isRevised
  cases committed
  refine .inr ⟨rfl, final, last.record, final_of_reading isRead, before, content, hidden, ?_, rfl,
    leaves.replicas, leaves.owners, ?_, leaves.observed⟩
  · dsimp only
    rw [leaves.source]
    exact find_revise isPrepared isRevised
  · rw [isFinal]

variable {reply : Reply}

/-- How a change ends. What it does not show stays. Witness: the branches in order. -/
theorem changeAt_cases
    (whole : ∀ old, state.source.find name = some old → state.stage.find name = some old.content)
    (changed : state.changeAt layout name request stamp moment = (reply, next))
    : (Leaves name state next ∧ (reply = .ok () → state.Lasts moment name))
      ∨ reply = .ok () ∧ state.Lasts moment name
        ∧ ∃ record, Sets name (some record) state next := by
  unfold changeAt at changed
  split at changed
  · cases changed
    exact .inl ⟨.refl _ _, (by intros; contradiction)⟩
  rename_i old found
  split at changed
  · cases changed
    exact .inl ⟨.refl _ _, (by intros; contradiction)⟩
  rename_i change accepted
  split at changed
  · obtain ⟨leaves, lasting⟩ := @confirm_cases state next moment name old reply changed
    refine .inl ⟨leaves, fun done => ?_⟩
    obtain ⟨final, isFinal, before⟩ := lasting done
    exact ⟨old, final, found, isFinal, before⟩
  split at changed
  · cases changed
    exact .inl ⟨.refl _ _, (by intros; contradiction)⟩
  rename_i stage opened
  have leaves := leaves_of_opened (.inr opened)
  dsimp only at changed
  split at changed
  · cases changed
    exact .inl ⟨leaves, (by intros; contradiction)⟩
  split at changed
  · cases changed
    exact .inl ⟨leaves, (by intros; contradiction)⟩
  rename_i position _ _ edit isPrepared
  split at changed
  · cases changed
    exact .inl ⟨leaves, (by intros; contradiction)⟩
  rename_i shown isShown
  split at changed
  next hooked =>
    rcases @commitChange_cases layout { state with stage } next moment name stamp request old
      change position edit shown request.form isPrepared accepted reply changed
      with ⟨refused, last, same⟩ | committed
    · refine .inl ⟨?_, fun done => absurd done refused⟩
      exact ⟨last.source, .inr (same ▸ opened), last.replicas, last.owners, last.agenda,
        last.observed⟩
    · obtain ⟨done, final, record, isFinal, before, content, hidden, source, stage', replicas,
        owners, agenda, onwards⟩ := committed
      refine .inr ⟨done, ⟨old, final, found, ⟨isFinal.sample, isFinal.follows⟩, before⟩, record, source, ?_, replicas,
        owners, ⟨state.agenda, .inl rfl, fun _ => ?_, agenda⟩, onwards⟩
      · rw [stage', Option.map_some, content]
        split at isShown
        · rw [Stage.find_change isShown, Stage.find_obtain opened]
        rename_i isHidden
        cases isShown
        rw [Stage.find_obtain opened, hidden (Bool.not_eq_true _ |>.mp isHidden),
          ← whole old found, Function.update_eq_self]
      · cases isAgenda : state.agenda with
        | none => simp [isAgenda] at hooked
        | some agenda => rfl
  · cases changed
    exact .inl ⟨leaves, (by intros; contradiction)⟩

/-- How a removal ends. -/
theorem removeAt_cases (removed : state.removeAt layout name moment = (reply, next))
    : (reply ≠ .ok () ∧ Leaves name state next)
      ∨ reply = .ok () ∧ state.Lasts moment name ∧ Sets name none state next := by
  unfold removeAt at removed
  split at removed
  next refused stage erased =>
    cases removed
    exact .inl ⟨nofun, leaves_of_opened (erase_spec erased).1⟩
  next fault stage erased =>
    cases removed
    exact .inl ⟨nofun, leaves_of_opened (erase_spec erased).1⟩
  rename_i erasure stage erased
  obtain ⟨opened, taken⟩ := erase_spec erased
  obtain ⟨found, source, hidden⟩ := taken erasure rfl
  have leaves := leaves_of_opened opened
  dsimp only at removed
  split at removed
  · cases removed
    exact .inl ⟨nofun, leaves⟩
  rename_i final read isRead
  have leavesRead := leaves.read isRead
  have isFinal := (reading_some isRead).2
  split at removed
  · cases removed
    exact .inl ⟨nofun, leavesRead⟩
  rename_i isActive
  cases removed
  have isLast := final_of_reading isRead
  refine .inr ⟨rfl, ⟨erasure.old, final, found, ⟨isLast.sample, isLast.follows⟩,
    (before_of_active isActive).1⟩, ?_⟩
  exact
    { source
      stage := hidden
      replicas := leavesRead.replicas
      owners := leavesRead.owners
      agenda := ⟨state.agenda, .inl rfl, nofun, by rw [isFinal]; rfl⟩
      observed := leavesRead.observed }

-- Whole writes

/-- What is over has been ended, as far as that came, before anything was written. -/
def Expires (layout : Layout) (moment : Moment) (before after : State) : Prop :=
  after = before ∨ ∃ stamp read, before.reading (moment.sample 0) = some (stamp, read)
    ∧ (after = read ∨ after = (read.advance layout moment stamp.time none).1)

theorem create_cases {reply : Answer Error Receipt}
    (created : state.create layout name attr data ttl moment = (reply, next))
    : ∃ swept, Expires layout moment state swept
      ∧ (((∀ receipt, reply ≠ .ok receipt) ∧ Leaves name swept next)
        ∨ reply = .ok { uuid := name.key, ttl } ∧ swept.stage.find name = none
          ∧ ∃ record, record.content = { attr, data } ∧ Sets name (some record) swept next) := by
  unfold create at created
  split at created
  · cases created
    exact ⟨state, .inl rfl, .inl ⟨nofun, .refl _ _⟩⟩
  split at created
  · cases created
    exact ⟨state, .inl rfl, .inl ⟨nofun, .refl _ _⟩⟩
  rename_i stamp read isRead
  split at created
  · cases created
    exact ⟨_, .inr ⟨stamp, _, isRead, .inl rfl⟩, .inl ⟨nofun, .refl _ _⟩⟩
  rename_i record _
  split at created
  next swept fault advanced =>
    cases created
    exact ⟨next, .inr ⟨stamp, read, isRead, .inr (by rw [advanced])⟩, .inl ⟨nofun, .refl _ _⟩⟩
  rename_i swept advanced
  exact ⟨swept, .inr ⟨stamp, read, isRead, .inr (by rw [advanced])⟩,
    createAt_cases stamp.time created⟩

theorem change_cases
    (whole : ∀ swept, Expires layout moment state swept
      → ∀ old, swept.source.find name = some old → swept.stage.find name = some old.content)
    (changed : state.change layout name request moment = (reply, next))
    : ∃ swept, Expires layout moment state swept
      ∧ ((Leaves name swept next ∧ (reply = .ok () → swept.Lasts moment name))
        ∨ reply = .ok () ∧ swept.Lasts moment name
          ∧ ∃ record, Sets name (some record) swept next) := by
  unfold change at changed
  split at changed
  · cases changed
    exact ⟨state, .inl rfl, .inl ⟨.refl _ _, nofun⟩⟩
  split at changed
  · cases changed
    exact ⟨state, .inl rfl, .inl ⟨.refl _ _, nofun⟩⟩
  rename_i stamp read isRead
  split at changed
  next swept fault advanced =>
    cases changed
    exact ⟨next, .inr ⟨stamp, read, isRead, .inr (by rw [advanced])⟩, .inl ⟨.refl _ _, nofun⟩⟩
  rename_i swept advanced
  have expires : Expires layout moment state swept :=
    .inr ⟨stamp, read, isRead, .inr (by rw [advanced])⟩
  exact ⟨swept, expires, changeAt_cases (whole swept expires) changed⟩

theorem remove_cases (removed : state.remove layout name moment = (reply, next))
    : ∃ swept, Expires layout moment state swept
      ∧ ((reply ≠ .ok () ∧ Leaves name swept next)
        ∨ reply = .ok () ∧ swept.Lasts moment name ∧ Sets name none swept next) := by
  unfold remove at removed
  split at removed
  · cases removed
    exact ⟨state, .inl rfl, .inl ⟨nofun, .refl _ _⟩⟩
  split at removed
  · cases removed
    exact ⟨state, .inl rfl, .inl ⟨nofun, .refl _ _⟩⟩
  rename_i stamp read isRead
  split at removed
  next swept fault advanced =>
    cases removed
    exact ⟨next, .inr ⟨stamp, read, isRead, .inr (by rw [advanced])⟩, .inl ⟨nofun, .refl _ _⟩⟩
  rename_i swept advanced
  exact ⟨swept, .inr ⟨stamp, read, isRead, .inr (by rw [advanced])⟩, removeAt_cases removed⟩

end Astra.Ephemeris.State
