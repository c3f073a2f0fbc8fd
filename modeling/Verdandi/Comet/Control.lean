import Verdandi.Support.Run

/-! The control loop of a client core: one alarm, a directory of all objects, a queue of those
that are ready, and rounds that poll them. What the source does under one lock is one step, and
other threads step in between.
-/

namespace Comet

open Support

namespace Control

-- The state of the loop

/-- A point of the steady clock; `⊤` is `Time::max()`. -/
abbrev Time := WithTop Nat

/-- An `Activity` as the core sees it. `registered` says that `self_` is set, and `dead` that
nobody holds the object any more. -/
structure Activity where
  streaming : Bool := false
  closed : Bool := false
  finished : Bool := false
  dead : Bool := false
  registered : Bool := false
  ready : Bool := false
  next : Time := (0 : Nat)
  deriving DecidableEq

def Activity.live (activity : Activity) : Bool :=
  !activity.dead && !activity.finished

structure Alarm where
  time : Time
  cancelled : Bool := false
  deriving DecidableEq

structure Counters where
  calls : Nat := 0
  unary : Nat := 0
  maintenance : Nat := 0
  recovery : Nat := 0
  admitted : Nat := 0
  deriving DecidableEq

structure Options where
  readers : Nat
  beacons : Nat

/-- Where `tick` stands between two sections under the lock, with its local variables. In
`polling` the objects of the round are `todo` or `done`; `claims` are those that were ready or
due when the round collected them, which only the records know. -/
inductive Stage where
  | idle
  | starting
  | opening (round : Nat)
  | timing (round now : Nat)
  | collecting (round now : Nat) (next : Time)
  | polling (round now : Nat) (next : Time) (claims todo done : List Nat)
  | turning (round : Nat) (next : Time) (finished : Bool) (claims done : List Nat)
  | failing
  | settling (next : Time) (finished : Bool)
  deriving DecidableEq

end Control

/-- The part of the core that the rounds are about. Objects are named by the order in which they
were accepted. -/
structure Control where
  options : Control.Options
  objects : Nat → Control.Activity := fun _ => {}
  accepted : Nat := 0
  readers : List Nat := []
  ready : List Nat := []
  capacity : Nat := 0
  due : Control.Time := ⊤
  alarm : Option Control.Alarm := some { time := (0 : Nat) }
  scheduled : Bool := true
  running : Bool := false
  awakened : Bool := false
  refresh : Bool := true
  closing : Bool := false
  complete : Bool := false
  owners : Nat := 1
  login : Bool := false
  counters : Control.Counters := {}
  clock : Nat := 0
  stage : Control.Stage := .idle

namespace Control

def second : Nat := 1000000000

-- Operations of other threads

/-- The end of every notification: the loop is told, and a waiting alarm fires at once. -/
def alert (core : Control) : Control :=
  { core with
    awakened := true
    alarm :=
      if core.scheduled then core.alarm.map ({ · with cancelled := true }) else core.alarm }

/-- `wake` for one object, or for all of them. -/
def wake (core : Control) : Option Nat → Control
  | none => alert { core with refresh := true }
  | some id =>
      let activity := core.objects id
      if !activity.ready && activity.registered && !activity.dead then
        alert
          { core with
            ready := core.ready ++ [id]
            objects := Function.update core.objects id { activity with ready := true } }
      else
        alert core

def release (core : Control) : Control :=
  if core.owners = 1 then
    alert { core with owners := 0, closing := true, refresh := true }
  else
    alert { core with owners := core.owners - 1 }

def close (core : Control) : Control :=
  alert { core with closing := true, refresh := true }

def amend (core : Control) (id : Nat) (change : Activity → Activity) : Control :=
  { core with objects := Function.update core.objects id (change (core.objects id)) }

/-- What `accept` does to objects of a list that are finished: late notifications find them
unregistered. -/
def retire (objects : Nat → Activity) (ids : List Nat) (id : Nat) : Activity :=
  if id ∈ ids ∧ (objects id).dead = false ∧ (objects id).finished = true then
    { objects id with registered := false, ready := false }
  else
    objects id

/-- The directory is cleaned first and the queue afterwards; the objects of `late` finish in
between. -/
def cleaned (core : Control) (late : List Nat) : Control :=
  let listed := retire core.objects core.readers
  let moved := fun id => if id ∈ late then { listed id with finished := true } else listed id
  { core with
    readers := core.readers.filter fun id => (core.objects id).live
    ready := core.ready.filter fun id => (moved id).live
    objects := retire moved core.ready }

/-- The core with one more object, flagged and queued. There is room in the queue for all
objects of the directory. -/
def taken (core : Control) (streaming : Bool) : Control :=
  alert
    { core with
      capacity :=
        if core.capacity < core.readers.length + 1 then
          max (core.readers.length + 1) (core.capacity * 2)
        else
          core.capacity
      readers := core.readers ++ [core.accepted]
      ready := core.ready ++ [core.accepted]
      objects :=
        Function.update core.objects core.accepted
          { streaming, registered := true, ready := true }
      accepted := core.accepted + 1
      owners := core.owners + 1 }

/-- Take a new object, unless the application has too many. The result says whether it was
taken. -/
def accept (core : Control) (streaming : Bool) (late : List Nat) : Control × Bool :=
  if core.closing then
    (core, false)
  else
    let cleaned := core.cleaned late
    let owned := cleaned.readers.filter fun id =>
      !(cleaned.objects id).dead && (cleaned.objects id).streaming == streaming
    let count := (owned.filter fun id => !(cleaned.objects id).closed).length
    let limit := if streaming then core.options.readers else core.options.beacons
    if count ≥ limit ∨ owned.length ≥ 2 * limit then
      (cleaned, false)
    else
      (cleaned.taken streaming, true)

-- Sections of a tick

def earliest (objects : Nat → Activity) : List Nat → Time
  | [] => ⊤
  | id :: rest => min (objects id).next (earliest objects rest)

/-- The objects of a list are taken out of the queue; those that are finished are forgotten. -/
def consume (objects : Nat → Activity) (ids : List Nat) (forget : Bool) (id : Nat) : Activity :=
  if id ∈ ids ∧ (objects id).dead = false then
    { objects id with
      ready := false
      registered := (objects id).registered && !(forget && (objects id).finished) }
  else
    objects id

def wanted (core : Control) (now : Nat) (id : Nat) : Bool :=
  (core.objects id).live
    && (core.refresh || (core.objects id).ready || decide ((core.objects id).next ≤ (now : Time)))

def claims (core : Control) (now : Nat) : List Nat :=
  (List.range core.accepted).filter fun id =>
    (core.objects id).live
      && ((core.objects id).ready || decide ((core.objects id).next ≤ (now : Time)))

/-- A round takes its objects: from the whole directory after a shared change or when something
is due, and from the queue otherwise. -/
def collect (core : Control) (round now : Nat) (next : Time) : Control :=
  let claims := core.claims now
  if core.refresh || decide (core.due ≤ (now : Time)) then
    let readers := core.readers.filter fun id => (core.objects id).live
    let todo := readers.filter (core.wanted now)
    { core with
      refresh := false
      ready := []
      due := earliest core.objects (readers.filter fun id => !core.wanted now id)
      readers
      objects := consume core.objects core.readers true
      stage := .polling round now next claims todo [] }
  else
    let todo := core.ready.filter fun id => (core.objects id).live
    { core with
      refresh := false
      ready := []
      objects := consume core.objects core.ready false
      stage := .polling round now next claims todo [] }

def polled (core : Control) (round now : Nat) (next : Time) (claims todo done : List Nat)
    (id : Nat) (result : Time)
    : Control :=
  { core.amend id ({ · with next := result }) with
    due := min core.due result
    stage := .polling round now next claims (todo.erase id) (done ++ [id]) }

def isOver (core : Control) : Bool :=
  core.closing && !core.login && decide (core.counters = {})
    && core.readers.all fun id => (core.objects id).dead || (core.objects id).finished

def check (core : Control) (round : Nat) (next : Time) (claims done : List Nat) : Control :=
  let next := min next core.due
  if core.isOver then
    { core with
      readers := [], ready := [], complete := true
      stage := .turning round next true claims done }
  else
    { core with stage := .turning round next false claims done }

/-- The last section of a tick sets the alarm, unless the loop is over. -/
def settle (core : Control) (now : Nat) (next : Time) (finished : Bool) : Control :=
  if finished then
    { core with running := false, clock := now, stage := .idle }
  else
    { core with
      running := false
      clock := now
      alarm := some { time := if core.awakened then now else next }
      scheduled := true
      stage := .idle }

-- Steps

def Stage.held : Stage → List Nat
  | .polling _ _ _ _ todo done => todo ++ done
  | _ => []

/-- Steps of the loop, from `fire` to `settle`, and what other threads and the polled objects do
in between. `secret`, `lost` and the end of a call are a `wake none`; `dialed` is `session` and
`dial` with what they did to the shared state; `throw` is an exception inside a round. -/
inductive Label where
  | fire
  | begin
  | opened (now : Nat)
  | dialed (session dial : Time) (login refresh : Bool)
  | collect
  | poll (id : Nat) (result : Time)
  | check
  | turn
  | throw
  | caught (now : Nat)
  | settle (now : Nat)
  | wake (target : Option Nat)
  | accept (streaming : Bool) (late : List Nat)
  | release
  | close
  | closed (id : Nat)
  | finished (id : Nat)
  | dropped (id : Nat)
  | counted (counters : Counters)
  | passed (now : Nat)

def step (core : Control) : Label → Option Control
  | .fire =>
      match core.stage, core.alarm with
      | .idle, some alarm =>
          if alarm.cancelled ∨ alarm.time ≤ (core.clock : Time) then
            some { core with alarm := none, stage := .starting }
          else
            none
      | _, _ => none
  | .begin =>
      if core.stage = .starting then
        some
          { core with
            scheduled := false, running := true, awakened := false, stage := .opening 0 }
      else
        none
  | .opened now =>
      match core.stage with
      | .opening round =>
          if core.clock ≤ now then
            some { core with awakened := false, clock := now, stage := .timing round now }
          else
            none
      | _ => none
  | .dialed session dial login refresh =>
      match core.stage with
      | .timing round now =>
          let next := min ((now + second : Nat) : Time) (min session dial)
          some
            { core with
              login, refresh := core.refresh || refresh, stage := .collecting round now next }
      | _ => none
  | .collect =>
      match core.stage with
      | .collecting round now next => some (core.collect round now next)
      | _ => none
  | .poll id result =>
      match core.stage with
      | .polling round now next claims todo done =>
          if id ∈ todo ∧ ((core.objects id).streaming = false
              ∨ ∀ other ∈ todo, (core.objects other).streaming = true) then
            some (core.polled round now next claims todo done id result)
          else
            none
      | _ => none
  | .check =>
      match core.stage with
      | .polling round _ next claims [] done => some (core.check round next claims done)
      | _ => none
  | .turn =>
      match core.stage with
      | .turning round next finished _ _ =>
          if finished ∨ core.awakened = false ∨ round + 1 = 8 then
            some { core with stage := .settling next finished }
          else
            some { core with stage := .opening (round + 1) }
      | _ => none
  | .throw =>
      match core.stage with
      | .opening _ | .timing _ _ | .collecting _ _ _ | .polling _ _ _ _ _ _ =>
          some { core with stage := .failing }
      | _ => none
  | .caught now =>
      if core.stage = .failing ∧ core.clock ≤ now then
        some { core.close with clock := now, stage := .settling (now + second / 10 : Nat) false }
      else
        none
  | .settle now =>
      match core.stage with
      | .settling next finished =>
          if core.clock ≤ now then some (core.settle now next finished) else none
      | _ => none
  | .wake target => some (core.wake target)
  | .accept streaming late => some (core.accept streaming late).1
  | .release => some core.release
  | .close => some core.close
  | .closed id => some (core.amend id ({ · with closed := true }))
  | .finished id => some (core.amend id ({ · with finished := true }))
  | .dropped id =>
      if id ∈ core.stage.held then none else some (core.amend id ({ · with dead := true }))
  | .counted counters => some { core with counters }
  | .passed now => if core.clock ≤ now then some { core with clock := now } else none

-- What holds between steps

/-- Whether an object was handed to the core and is still to be polled. -/
def Owned (core : Control) (id : Nat) : Prop :=
  id < core.accepted ∧ (core.objects id).live = true

def Stage.Holds (id : Nat) : Stage → Prop
  | .polling _ _ _ _ todo _ => id ∈ todo
  | .failing => True
  | _ => False

/-- The queue and the directory: the queue holds what is flagged, once, and is part of the
directory, for which there is room. -/
structure Queued (core : Control) : Prop where
  nodup : core.ready.Nodup
  inside : ∀ id ∈ core.ready, id ∈ core.readers
  distinct : core.readers.Nodup
  known : ∀ id ∈ core.readers, id < core.accepted
  flagged : ∀ id, (core.objects id).dead = false
    → ((core.objects id).ready = true ↔ id ∈ core.ready)
  listed : ∀ id, (core.objects id).dead = false → (core.objects id).registered = true
    → id ∈ core.readers
  owned : ∀ id, core.Owned id → (core.objects id).registered = true
  room : core.readers.length ≤ core.capacity

/-- No object is forgotten: it is queued, a round over all of them is due, its time is kept, or
the round has it. -/
def Covered (core : Control) : Prop :=
  ∀ id, core.Owned id → (core.objects id).ready = true ∨ core.refresh = true
    ∨ core.due ≤ (core.objects id).next ∨ core.stage.Holds id

def Quiet (core : Control) : Prop :=
  core.ready = [] ∧ core.refresh = false

/-- What the stage says about alarm and notifications. Between rounds the alarm is set; a
notification since the last round began makes it fire at once. -/
def Stage.Timed (core : Control) : Stage → Prop
  | .idle =>
      core.scheduled = true ∧ ∃ alarm, core.alarm = some alarm
          ∧ (alarm.cancelled = true ∨ alarm.time ≤ (core.clock : Time)
            ∨ (core.Quiet ∧ alarm.time ≤ core.due))
  | .starting | .opening _ | .timing _ _ | .collecting _ _ _ | .failing => True
  | .polling _ _ _ claims todo done =>
      (core.awakened = false → core.Quiet) ∧ ∀ id ∈ claims, id ∈ todo ∨ id ∈ done
  | .turning _ next _ claims done =>
      (core.awakened = false → core.Quiet ∧ next ≤ core.due) ∧ ∀ id ∈ claims, id ∈ done
  | .settling next _ => core.awakened = false → core.Quiet ∧ next ≤ core.due

def Stage.finished : Stage → Bool
  | .turning _ _ finished _ _ => finished
  | .settling _ finished => finished
  | _ => false

structure Sound (core : Control) : Prop where
  queued : core.Queued
  covered : core.Covered
  timed : core.stage.Timed core
  going : core.stage.finished = false

variable {ids : List Nat} {id : Nat}

/-- The time of an object that was left out of a round is no earlier than the minimum. -/
theorem earliest_le {objects : Nat → Activity} (listed : id ∈ ids)
    : earliest objects ids ≤ (objects id).next := by
  induction ids with
  | nil => cases listed
  | cons first rest ih =>
      simp only [earliest]
      rcases List.mem_cons.mp listed with rfl | later
      · exact min_le_left _ _
      · exact le_trans (min_le_right _ _) (ih later)

-- Notifications

variable {core next : Control}

/-- A notification reaches the loop wherever it stands. -/
theorem timed_alert (timed : core.stage.Timed core) (stage : next.stage = core.stage)
    (scheduled : next.scheduled = core.scheduled) (alarm : next.alarm = core.alarm) : next.alert.stage.Timed next.alert := by
  show next.stage.Timed next.alert
  rw [stage]
  cases isStage : core.stage with
  | idle =>
      rw [isStage] at timed
      obtain ⟨isScheduled, held, isAlarm, _⟩ := timed
      refine ⟨scheduled.trans isScheduled, { held with cancelled := true }, ?_, .inl rfl⟩
      simp [alert, scheduled, isScheduled, alarm, isAlarm]
  | starting => exact True.intro
  | opening round => exact True.intro
  | timing round now => exact True.intro
  | collecting round now next => exact True.intro
  | failing => exact True.intro
  | polling round now next claims todo done =>
      rw [isStage] at timed
      exact ⟨fun quiet => (nomatch quiet), timed.2⟩
  | turning round next finished claims done =>
      rw [isStage] at timed
      exact ⟨fun quiet => (nomatch quiet), timed.2⟩
  | settling next finished => exact fun quiet => (nomatch quiet)

theorem Sound.wake (sound : Sound core) (target : Option Nat)
    : Sound (core.wake target) := by
  cases target with
  | none =>
      exact
        { queued := { sound.queued with }
          covered := fun id owned => .inr (.inl rfl)
          timed := timed_alert sound.timed rfl rfl rfl
          going := sound.going }
  | some id =>
      simp only [Control.wake]
      split
      next fresh =>
        simp only [Bool.and_eq_true, Bool.not_eq_true'] at fresh
        obtain ⟨⟨unflagged, registered⟩, living⟩ := fresh
        have queued := sound.queued
        have outside : id ∉ core.ready := fun listed => by
          have flag := (queued.flagged id living).mpr listed
          simp [unflagged] at flag
        refine
          { queued :=
              { queued with
                nodup := ?_, inside := ?_, flagged := ?_, listed := ?_, owned := ?_ }
            covered := ?_, timed := timed_alert sound.timed rfl rfl rfl, going := sound.going }
        · exact List.nodup_append.mpr ⟨queued.nodup, List.nodup_singleton id, by
            intro first isFirst second isSecond
            cases List.mem_singleton.mp isSecond
            exact fun same => outside (same ▸ isFirst)⟩
        · intro other listed
          rcases List.mem_append.mp listed with earlier | last
          · exact queued.inside other earlier
          · cases List.mem_singleton.mp last
            exact queued.listed id living registered
        · intro other alive
          by_cases same : other = id
          · subst same
            simp [alert]
          · simp only [alert, Function.update_of_ne same, List.mem_append, List.mem_singleton,
              same, or_false] at alive ⊢
            exact queued.flagged other alive
        · intro other alive isRegistered
          by_cases same : other = id
          · subst same
            exact queued.listed other living registered
          · simp only [alert, Function.update_of_ne same] at alive isRegistered
            exact queued.listed other alive isRegistered
        · rintro other ⟨known, living⟩
          by_cases same : other = id
          · subst same
            simpa [alert] using registered
          · simp only [alert, Function.update_of_ne same] at living ⊢
            exact queued.owned other ⟨known, living⟩
        · rintro other ⟨known, living⟩
          by_cases same : other = id
          · subst same
            exact .inl (by simp [alert])
          · simp only [alert, Function.update_of_ne same] at living ⊢
            exact sound.covered other ⟨known, living⟩
      · exact
          { queued := { sound.queued with }
            covered := sound.covered
            timed := timed_alert sound.timed rfl rfl rfl
            going := sound.going }

theorem Sound.close (sound : Sound core) : Sound core.close where
  queued := { sound.queued with }
  covered _ _ := .inr (.inl rfl)
  timed := timed_alert sound.timed rfl rfl rfl
  going := sound.going

theorem Sound.release {core : Control} (sound : Sound core) : Sound core.release := by
  unfold Control.release
  split
  · exact
      { queued := { sound.queued with }
        covered := fun _ _ => .inr (.inl rfl)
        timed := timed_alert sound.timed rfl rfl rfl
        going := sound.going }
  · exact
      { queued := { sound.queued with }
        covered := sound.covered
        timed := timed_alert sound.timed rfl rfl rfl
        going := sound.going }

/-- What is said about alarm and notifications does not depend on the objects. -/
theorem timed_congr (timed : core.stage.Timed core) (stage : next.stage = core.stage)
    (scheduled : next.scheduled = core.scheduled) (alarm : next.alarm = core.alarm)
    (clock : core.clock ≤ next.clock) (awakened : next.awakened = core.awakened)
    (due : next.due = core.due) (quiet : core.Quiet → next.Quiet) : next.stage.Timed next := by
  rw [stage]
  cases isStage : core.stage with
  | idle =>
      rw [isStage] at timed
      obtain ⟨isScheduled, held, isAlarm, reason⟩ := timed
      refine ⟨scheduled.trans isScheduled, held, alarm.trans isAlarm, ?_⟩
      rcases reason with cancelled | passed | ⟨still, early⟩
      · exact .inl cancelled
      · exact .inr (.inl (passed.trans (WithTop.coe_le_coe.mpr clock)))
      · exact .inr (.inr ⟨quiet still, due ▸ early⟩)
  | starting => exact True.intro
  | opening round => exact True.intro
  | timing round now => exact True.intro
  | collecting round now next => exact True.intro
  | failing => exact True.intro
  | polling round now next claims todo done =>
      rw [isStage] at timed
      exact ⟨fun calm => quiet (timed.1 (awakened ▸ calm)), timed.2⟩
  | turning round next finished claims done =>
      rw [isStage] at timed
      refine ⟨fun calm => ?_, timed.2⟩
      obtain ⟨still, early⟩ := timed.1 (awakened ▸ calm)
      exact ⟨quiet still, due ▸ early⟩
  | settling next finished =>
      rw [isStage] at timed
      intro calm
      obtain ⟨still, early⟩ := timed (awakened ▸ calm)
      exact ⟨quiet still, due ▸ early⟩

/-- An object changed in what the loop does not keep about it, or ended. -/
theorem Sound.amend (sound : Sound core) (id : Nat) {change : Activity → Activity}
    (kept : ∀ activity, (change activity).ready = activity.ready
      ∧ (change activity).registered = activity.registered
      ∧ (change activity).next = activity.next
      ∧ ((change activity).live = true → activity.live = true)
      ∧ ((change activity).dead = false → activity.dead = false))
    : Sound (core.amend id change) := by
  have pointwise : ∀ other, ((core.amend id change).objects other).ready = (core.objects other).ready
      ∧ ((core.amend id change).objects other).registered = (core.objects other).registered
      ∧ ((core.amend id change).objects other).next = (core.objects other).next
      ∧ (((core.amend id change).objects other).live = true → (core.objects other).live = true)
      ∧ (((core.amend id change).objects other).dead = false → (core.objects other).dead = false) := by
    intro other
    by_cases same : other = id
    · subst same
      simpa [Control.amend] using kept (core.objects other)
    · simp [Control.amend, Function.update_of_ne same]
  have before : ∀ other, (core.amend id change).Owned other → core.Owned other := fun other owned =>
    ⟨owned.1, (pointwise other).2.2.2.1 owned.2⟩
  refine
    { queued := { sound.queued with flagged := ?_, listed := ?_, owned := ?_ }
      covered := ?_, timed := ?_, going := sound.going }
  · intro other alive
    rw [(pointwise other).1]
    exact sound.queued.flagged other ((pointwise other).2.2.2.2 alive)
  · intro other alive registered
    rw [(pointwise other).2.1] at registered
    exact sound.queued.listed other ((pointwise other).2.2.2.2 alive) registered
  · intro other owned
    rw [(pointwise other).2.1]
    exact sound.queued.owned other (before other owned)
  · intro other owned
    rw [(pointwise other).1, (pointwise other).2.2.1]
    exact sound.covered other (before other owned)
  · exact timed_congr sound.timed rfl rfl rfl le_rfl rfl rfl fun quiet => quiet

-- Acceptance

theorem live_iff (activity : Activity)
    : activity.live = true ↔ activity.dead = false ∧ activity.finished = false := by
  simp [Activity.live]

/-- What cleaning does to one object: it may finish, and then loses its flag where it has one in
the queue or stood finished in the directory. -/
structure Cleaned (core next : Control) (id : Nat) : Prop where
  dead : (next.objects id).dead = (core.objects id).dead
  time : (next.objects id).next = (core.objects id).next
  live : (next.objects id).live = true → (core.objects id).live = true
  kept : (next.objects id).live = true → (next.objects id).ready = (core.objects id).ready
      ∧ (next.objects id).registered = (core.objects id).registered
  ended : (next.objects id).live = false → (core.objects id).dead = false
    → (next.objects id).ready = true → (core.objects id).ready = true ∧ id ∉ core.ready
  registered : (next.objects id).registered = true → (core.objects id).registered = true
    ∧ (id ∈ core.readers → (core.objects id).dead = false → (core.objects id).finished = false)
  queued : id ∈ next.ready ↔ id ∈ core.ready ∧ (next.objects id).live = true

theorem cleaned_spec (core : Control) (late : List Nat) (id : Nat)
    : Cleaned core (core.cleaned late) id := by
  refine ⟨?_, ?_, ?_, ?_, ?_, ?_, ?_⟩ <;>
    simp only [cleaned, retire, Activity.live, List.mem_filter] <;> grind

theorem Queued.cleaned (queued : Queued core) (late : List Nat)
    : Queued (core.cleaned late) := by
  have spec := cleaned_spec core late
  have inside : ∀ id, id ∈ (core.cleaned late).readers
      ↔ id ∈ core.readers ∧ (core.objects id).live = true := by
    intro id
    simp [Control.cleaned]
  refine
    { nodup := queued.nodup.filter _, inside := ?_, distinct := queued.distinct.filter _
      known := ?_, flagged := ?_, listed := ?_, owned := ?_, room := ?_ }
  · intro id listed
    obtain ⟨earlier, living⟩ := (spec id).queued.mp listed
    exact (inside id).mpr ⟨queued.inside id earlier, (spec id).live living⟩
  · intro id listed
    exact queued.known id ((inside id).mp listed).1
  · intro id alive
    have wasAlive := (spec id).dead.symm.trans alive
    have flag := queued.flagged id wasAlive
    rw [(spec id).queued]
    cases living : ((core.cleaned late).objects id).live with
    | true => simp [((spec id).kept living).1, flag]
    | false =>
        simp only [Bool.false_eq_true, and_false, iff_false]
        intro flagged
        obtain ⟨earlier, outside⟩ := (spec id).ended living wasAlive flagged
        exact outside (flag.mp earlier)
  · intro id alive registered
    have wasAlive := (spec id).dead.symm.trans alive
    obtain ⟨earlier, unfinished⟩ := (spec id).registered registered
    have listed := queued.listed id wasAlive earlier
    exact (inside id).mpr ⟨listed, (live_iff _).mpr ⟨wasAlive, unfinished listed wasAlive⟩⟩
  · intro id owned
    rw [((spec id).kept owned.2).2]
    exact queued.owned id ⟨owned.1, (spec id).live owned.2⟩
  · exact le_trans (List.length_filter_le _ _) queued.room

/-- Cleaning forgets no object that is still to be polled. -/
theorem Sound.cleaned (sound : Sound core) (late : List Nat)
    : Sound (core.cleaned late) := by
  have spec := cleaned_spec core late
  refine
    { queued := sound.queued.cleaned late, covered := ?_, timed := ?_, going := sound.going }
  · intro id owned
    rw [((spec id).kept owned.2).1, (spec id).time]
    exact sound.covered id ⟨owned.1, (spec id).live owned.2⟩
  · refine timed_congr sound.timed rfl rfl rfl le_rfl rfl rfl fun quiet => ?_
    exact ⟨by simp [Control.cleaned, quiet.1], quiet.2⟩

theorem nodup_snoc (distinct : ids.Nodup) (fresh : id ∉ ids)
    : (ids ++ [id]).Nodup := by
  refine List.nodup_append.mpr ⟨distinct, List.nodup_singleton id, ?_⟩
  intro first isFirst second isSecond
  cases List.mem_singleton.mp isSecond
  exact fun same => fresh (same ▸ isFirst)

theorem Sound.taken (sound : Sound core) (streaming : Bool)
    : Sound (core.taken streaming) := by
  have queued := sound.queued
  have fresh : core.accepted ∉ core.readers := fun listed =>
    Nat.lt_irrefl _ (queued.known _ listed)
  have unqueued : core.accepted ∉ core.ready := fun listed => fresh (queued.inside _ listed)
  refine
    { queued :=
        { nodup := nodup_snoc queued.nodup unqueued
          inside := ?_, distinct := nodup_snoc queued.distinct fresh, known := ?_, flagged := ?_
          listed := ?_, owned := ?_, room := ?_ }
      covered := ?_, timed := timed_alert sound.timed rfl rfl rfl, going := sound.going }
  · intro id listed
    rcases List.mem_append.mp listed with earlier | last
    · exact List.mem_append_left _ (queued.inside id earlier)
    · exact List.mem_append_right _ last
  · intro id listed
    rcases List.mem_append.mp listed with earlier | last
    · exact Nat.lt_succ_of_lt (queued.known id earlier)
    · cases List.mem_singleton.mp last
      exact Nat.lt_succ_self _
  · intro id alive
    by_cases same : id = core.accepted
    · subst same
      simp [Control.taken, alert]
    · simp only [Control.taken, alert, Function.update_of_ne same, List.mem_append,
        List.mem_singleton, same, or_false] at alive ⊢
      exact queued.flagged id alive
  · intro id alive registered
    by_cases same : id = core.accepted
    · subst same
      exact List.mem_append_right _ (List.mem_singleton_self _)
    · simp only [Control.taken, alert, Function.update_of_ne same] at alive registered
      exact List.mem_append_left _ (queued.listed id alive registered)
  · rintro id ⟨known, living⟩
    by_cases same : id = core.accepted
    · subst same
      simp [Control.taken, alert]
    · simp only [Control.taken, alert, Function.update_of_ne same] at living ⊢
      exact queued.owned id ⟨Nat.lt_of_le_of_ne (Nat.le_of_lt_succ known) same, living⟩
  · have room := queued.room
    simp only [Control.taken, alert, List.length_append, List.length_singleton]
    split <;> omega
  · rintro id ⟨known, living⟩
    by_cases same : id = core.accepted
    · subst same
      exact .inl (by simp [Control.taken, alert])
    · simp only [Control.taken, alert, Function.update_of_ne same] at living ⊢
      exact sound.covered id ⟨Nat.lt_of_le_of_ne (Nat.le_of_lt_succ known) same, living⟩

/-- A new object is refused outright after `close`, refused for its number, or taken. -/
theorem accept_cases (core : Control) (streaming : Bool) (late : List Nat)
    : (core.closing = true ∧ core.accept streaming late = (core, false)) ∨ core.closing = false
        ∧ (core.accept streaming late = (core.cleaned late, false)
          ∨ core.accept streaming late = ((core.cleaned late).taken streaming, true)) := by
  unfold Control.accept
  split
  next closed => exact .inl ⟨closed, rfl⟩
  next going => exact .inr ⟨by simpa using going, ite_eq_or_eq _ _ _⟩

theorem Sound.accept {core : Control} (sound : Sound core) (streaming : Bool) (late : List Nat)
    : Sound (core.accept streaming late).1 := by
  rcases core.accept_cases streaming late with ⟨_, refused⟩ | ⟨_, refused | accepted⟩
  · rw [refused]
    exact sound
  · rw [refused]
    exact sound.cleaned late
  · rw [accepted]
    exact (sound.cleaned late).taken streaming

-- Rounds

structure Consumed (core : Control) (objects : Nat → Activity) (ids : List Nat) (id : Nat) : Prop where
  dead : (objects id).dead = (core.objects id).dead
  live : (objects id).live = (core.objects id).live
  time : (objects id).next = (core.objects id).next
  ready : (objects id).dead = false → (objects id).ready = true
    → (core.objects id).ready = true ∧ id ∉ ids
  registered : (objects id).registered = true → (core.objects id).registered = true
  kept : (objects id).live = true → (objects id).registered = (core.objects id).registered

theorem consume_spec (core : Control) (ids : List Nat) (forget : Bool) (id : Nat)
    : Consumed core (consume core.objects ids forget) ids id := by
  refine ⟨?_, ?_, ?_, ?_, ?_, ?_⟩ <;> simp only [consume, Activity.live] <;> grind

/-- After a round took its objects the queue is empty, and no object is flagged. -/
theorem Queued.consumed (queued : Queued core)
    {forget : Bool} (all : ∀ id ∈ core.ready, id ∈ ids)
    (objects : next.objects = consume core.objects ids forget)
    (ready : next.ready = []) (accepted : next.accepted = core.accepted)
    (capacity : next.capacity = core.capacity) (sub : next.readers.Sublist core.readers)
    (listed : ∀ id, (next.objects id).dead = false → (next.objects id).registered = true
      → id ∈ next.readers)
    : Queued next := by
  have spec := consume_spec core ids forget
  refine
    { nodup := ?_, inside := ?_, distinct := sub.nodup queued.distinct, known := ?_
      flagged := ?_, listed, owned := ?_, room := ?_ }
  · rw [ready]
    exact List.nodup_nil
  · rw [ready]
    intro id no
    cases no
  · intro id isListed
    rw [accepted]
    exact queued.known id (sub.subset isListed)
  · intro id alive
    rw [objects] at alive
    rw [objects, ready]
    refine ⟨fun flagged => ?_, fun no => (nomatch no)⟩
    obtain ⟨earlier, outside⟩ := (spec id).ready alive flagged
    have wasAlive := (spec id).dead.symm.trans alive
    exact absurd (all id ((queued.flagged id wasAlive).mp earlier)) outside
  · rintro id ⟨known, living⟩
    rw [objects] at living ⊢
    rw [(spec id).kept living]
    exact queued.owned id ⟨accepted ▸ known, (spec id).live ▸ living⟩
  · rw [capacity]
    exact le_trans sub.length_le queued.room

variable {now : Nat}

theorem mem_claims (claimed : id ∈ core.claims now)
    : core.Owned id ∧ ((core.objects id).ready = true ∨ (core.objects id).next ≤ (now : Time)) := by
  simp only [claims, List.mem_filter, List.mem_range, Bool.and_eq_true, Bool.or_eq_true,
    decide_eq_true_eq] at claimed
  exact ⟨⟨claimed.1, claimed.2.1⟩, claimed.2.2⟩

variable {round : Nat}

/-- A round has every object that is ready or due, and forgets none of the others. -/
theorem Sound.collect (sound : Sound core) {next : Time}
    (isStage : core.stage = .collecting round now next) : Sound (core.collect round now next) := by
  have queued := sound.queued
  have member : ∀ id, core.Owned id → id ∈ core.readers := fun id owned =>
    queued.listed id ((live_iff _).mp owned.2).1 (queued.owned id owned)
  have covered : ∀ id, core.Owned id → (core.objects id).ready = true ∨ core.refresh = true
      ∨ core.due ≤ (core.objects id).next := by
    intro id owned
    have cover := sound.covered id owned
    rw [isStage] at cover
    rcases cover with ready | refresh | time | no
    · exact .inl ready
    · exact .inr (.inl refresh)
    · exact .inr (.inr time)
    · exact no.elim
  simp only [Control.collect]
  split
  next whole =>
    have spec := consume_spec core core.readers true
    have filtered : ∀ id, id ∈ core.readers.filter (fun id => (core.objects id).live)
        ↔ id ∈ core.readers ∧ (core.objects id).live = true := by
      intro id
      simp
    refine
      { queued := queued.consumed queued.inside rfl rfl rfl rfl List.filter_sublist ?_
        covered := ?_, timed := ⟨fun _ => ⟨rfl, rfl⟩, ?_⟩, going := rfl }
    · intro id alive registered
      have wasAlive := (spec id).dead.symm.trans alive
      have listed := queued.listed id wasAlive ((spec id).registered registered)
      refine (filtered id).mpr ⟨listed, (live_iff _).mpr ⟨wasAlive, ?_⟩⟩
      simp only [consume, listed, wasAlive, and_self, if_true, Bool.true_and, Bool.and_eq_true,
        Bool.not_eq_true'] at registered
      exact registered.2
    · rintro id ⟨known, living⟩
      have owned : core.Owned id := ⟨known, (spec id).live ▸ living⟩
      have listed := (filtered id).mpr ⟨member id owned, owned.2⟩
      cases taken : core.wanted now id with
      | true => exact .inr (.inr (.inr (List.mem_filter.mpr ⟨listed, taken⟩)))
      | false =>
          refine .inr (.inr (.inl ?_))
          show earliest core.objects _ ≤ _
          rw [(spec id).time]
          exact earliest_le (List.mem_filter.mpr ⟨listed, by simp [taken]⟩)
    · intro id claimed
      obtain ⟨owned, reason⟩ := mem_claims claimed
      refine .inl (List.mem_filter.mpr ⟨(filtered id).mpr ⟨member id owned, owned.2⟩, ?_⟩)
      simp only [wanted, owned.2, Bool.true_and, Bool.or_eq_true, decide_eq_true_eq]
      rcases reason with ready | due
      · exact .inl (.inr ready)
      · exact .inr due
  rename_i targeted
  simp only [Bool.or_eq_true, decide_eq_true_eq, not_or, Bool.not_eq_true] at targeted
  obtain ⟨unshared, early⟩ := targeted
  have spec := consume_spec core core.ready false
  have waiting : ∀ id, core.Owned id → (core.objects id).ready = true
      → id ∈ core.ready.filter fun id => (core.objects id).live := by
    intro id owned ready
    have alive := ((live_iff _).mp owned.2).1
    exact List.mem_filter.mpr ⟨(queued.flagged id alive).mp ready, owned.2⟩
  refine
    { queued := queued.consumed (fun _ listed => listed) rfl rfl rfl rfl (List.Sublist.refl _) ?_
      covered := ?_, timed := ⟨fun _ => ⟨rfl, rfl⟩, ?_⟩, going := rfl }
  · intro id alive registered
    exact queued.listed id ((spec id).dead.symm.trans alive) ((spec id).registered registered)
  · rintro id ⟨known, living⟩
    have owned : core.Owned id := ⟨known, (spec id).live ▸ living⟩
    rcases covered id owned with ready | refresh | time
    · exact .inr (.inr (.inr (waiting id owned ready)))
    · simp [unshared] at refresh
    · refine .inr (.inr (.inl ?_))
      show core.due ≤ _
      rw [(spec id).time]
      exact time
  · intro id claimed
    obtain ⟨owned, reason⟩ := mem_claims claimed
    refine .inl (waiting id owned ?_)
    rcases covered id owned with ready | refresh | time
    · exact ready
    · simp [unshared] at refresh
    · rcases reason with ready | due
      · exact ready
      · exact absurd (le_trans time due) early

theorem Sound.polled (sound : Sound core) {next : Time} {claims todo done : List Nat}
    (isStage : core.stage = .polling round now next claims todo done) (id : Nat) (result : Time) : Sound (core.polled round now next claims todo done id result) := by
  have pointwise : ∀ other, ((core.polled round now next claims todo done id result).objects other)
      = { core.objects other with
          next := if other = id then result else (core.objects other).next } := by
    intro other
    by_cases same : other = id
    · subst same
      simp [Control.polled, Control.amend]
    · simp [Control.polled, Control.amend, same]
  have queued := sound.queued
  have timed := sound.timed
  rw [isStage] at timed
  refine
    { queued := { queued with flagged := ?_, listed := ?_, owned := ?_ }
      covered := ?_, timed := ⟨timed.1, ?_⟩, going := rfl }
  · intro other alive
    rw [pointwise] at alive ⊢
    exact queued.flagged other alive
  · intro other alive registered
    rw [pointwise] at alive registered
    exact queued.listed other alive registered
  · rintro other ⟨known, living⟩
    rw [pointwise] at living ⊢
    exact queued.owned other ⟨known, living⟩
  · rintro other ⟨known, living⟩
    rw [pointwise] at living ⊢
    have cover := sound.covered other ⟨known, living⟩
    rw [isStage] at cover
    by_cases same : other = id
    · refine .inr (.inr (.inl ?_))
      simp only [same, if_true]
      exact min_le_right _ _
    · simp only [same, if_false]
      rcases cover with ready | refresh | time | before
      · exact .inl ready
      · exact .inr (.inl refresh)
      · exact .inr (.inr (.inl (le_trans (min_le_left _ _) time)))
      · exact .inr (.inr (.inr ((List.mem_erase_of_ne same).mpr before)))
  · intro other claimed
    by_cases same : other = id
    · exact .inr (List.mem_append_right _ (List.mem_singleton.mpr same))
    · rcases timed.2 other claimed with before | after
      · exact .inl ((List.mem_erase_of_ne same).mpr before)
      · exact .inr (List.mem_append_left _ after)

/-- The objects did not change, nor does the stage hold one: what covers them is still there. -/
theorem covered_of_stage (covered : core.Covered) (objects : next.objects = core.objects)
    (accepted : next.accepted = core.accepted) (refresh : core.refresh = true → next.refresh = true)
    (due : next.due = core.due) (stage : ∀ id, core.stage.Holds id → next.stage.Holds id) : next.Covered := by
  rintro id ⟨known, living⟩
  rw [objects] at living ⊢
  rw [due]
  rcases covered id ⟨accepted ▸ known, living⟩ with ready | shared | time | held
  · exact .inl ready
  · exact .inr (.inl (refresh shared))
  · exact .inr (.inr (.inl time))
  · exact .inr (.inr (.inr (stage id held)))

/-- A step before completion keeps what holds until then. -/
theorem Sound.step {core next : Control} (sound : Sound core) {label : Label}
    (stepped : core.step label = some next) (going : next.complete = false) : Sound next := by
  have timed := sound.timed
  have covered := sound.covered
  cases label with
  | fire =>
      simp only [Control.step] at stepped
      split at stepped
      next alarm isStage isAlarm =>
        split at stepped
        · cases stepped
          exact
            { queued := { sound.queued with }
              covered := covered_of_stage covered rfl rfl id rfl fun id no => by
                rw [isStage] at no
                exact no
              timed := True.intro, going := rfl }
        · cases stepped
      · cases stepped
  | begin =>
      simp only [Control.step] at stepped
      split at stepped
      next isStage =>
        cases stepped
        exact
          { queued := { sound.queued with }
            covered := covered_of_stage covered rfl rfl id rfl fun id no => by
              rw [isStage] at no
              exact no
            timed := True.intro, going := rfl }
      · cases stepped
  | opened now =>
      simp only [Control.step] at stepped
      split at stepped
      next round isStage =>
        split at stepped
        · cases stepped
          exact
            { queued := { sound.queued with }
              covered := covered_of_stage covered rfl rfl id rfl fun id no => by
                rw [isStage] at no
                exact no
              timed := True.intro, going := rfl }
        · cases stepped
      · cases stepped
  | dialed session dial login refresh =>
      simp only [Control.step] at stepped
      split at stepped
      next round now isStage =>
        cases stepped
        exact
          { queued := { sound.queued with }
            covered := covered_of_stage covered rfl rfl (fun shared => by simp [shared]) rfl
              fun id no => by
                rw [isStage] at no
                exact no
            timed := True.intro, going := rfl }
      · cases stepped
  | collect =>
      simp only [Control.step] at stepped
      split at stepped
      next round now next isStage =>
        cases stepped
        exact sound.collect isStage
      · cases stepped
  | poll id result =>
      simp only [Control.step] at stepped
      split at stepped
      next round now next claims todo done isStage =>
        split at stepped
        · cases stepped
          exact sound.polled isStage id result
        · cases stepped
      · cases stepped
  | check =>
      simp only [Control.step] at stepped
      split at stepped
      next round now next claims done isStage =>
        rw [isStage] at timed
        simp only [Control.check] at stepped
        split at stepped
        · cases stepped
          cases going
        · cases stepped
          refine
            { queued := { sound.queued with }
              covered := covered_of_stage covered rfl rfl id rfl fun id no => ?_
              timed := ⟨fun calm => ⟨timed.1 calm, min_le_right _ _⟩, fun id claimed => ?_⟩
              going := rfl }
          · rw [isStage] at no
            cases no
          · rcases timed.2 id claimed with no | polled
            · cases no
            · exact polled
      · cases stepped
  | turn =>
      have standing := sound.going
      simp only [Control.step] at stepped
      split at stepped
      next round next finished claims done isStage =>
        rw [isStage] at timed standing
        split at stepped
        · cases stepped
          exact
            { queued := { sound.queued with }
              covered := covered_of_stage covered rfl rfl id rfl fun id no => by
                rw [isStage] at no
                exact no
              timed := timed.1, going := standing }
        · cases stepped
          exact
            { queued := { sound.queued with }
              covered := covered_of_stage covered rfl rfl id rfl fun id no => by
                rw [isStage] at no
                exact no
              timed := True.intro, going := rfl }
      · cases stepped
  | throw =>
      have failing : Sound { core with stage := .failing } :=
        { queued := { sound.queued with }
          covered := covered_of_stage covered rfl rfl id rfl fun _ _ => True.intro
          timed := True.intro, going := rfl }
      simp only [Control.step] at stepped
      split at stepped
      · cases stepped
        exact failing
      · cases stepped
        exact failing
      · cases stepped
        exact failing
      · cases stepped
        exact failing
      · cases stepped
  | caught now =>
      simp only [Control.step] at stepped
      split at stepped
      · cases stepped
        exact
          { queued := { sound.queued with }
            covered := fun _ _ => .inr (.inl rfl)
            timed := fun calm => (nomatch calm), going := rfl }
      · cases stepped
  | settle now =>
      have standing := sound.going
      simp only [Control.step] at stepped
      split at stepped
      next next finished isStage =>
        split at stepped
        · rw [isStage] at timed standing
          cases standing
          cases stepped
          refine
            { queued := { sound.queued with }
              covered := covered_of_stage covered rfl rfl id rfl fun id no => ?_
              timed := ⟨rfl, _, rfl, ?_⟩, going := rfl }
          · rw [isStage] at no
            exact no
          · cases calm : core.awakened with
            | true => exact .inr (.inl le_rfl)
            | false => exact .inr (.inr ⟨(timed calm).1, (timed calm).2⟩)
        · cases stepped
      · cases stepped
  | wake target =>
      cases stepped
      exact sound.wake target
  | accept streaming late =>
      cases stepped
      exact sound.accept streaming late
  | release =>
      cases stepped
      exact sound.release
  | close =>
      cases stepped
      exact sound.close
  | closed id =>
      cases stepped
      exact sound.amend id fun _ => ⟨rfl, rfl, rfl, fun living => living, fun alive => alive⟩
  | finished id =>
      cases stepped
      exact sound.amend id fun _ =>
        ⟨rfl, rfl, rfl, fun living => by simp [Activity.live] at living, fun alive => alive⟩
  | dropped id =>
      simp only [Control.step] at stepped
      split at stepped
      · cases stepped
      · cases stepped
        exact sound.amend id fun _ =>
          ⟨rfl, rfl, rfl, fun living => by simp [Activity.live] at living, fun alive => by cases alive⟩
  | counted counters =>
      cases stepped
      exact
        { queued := { sound.queued with }, covered
          timed := timed_congr timed rfl rfl rfl le_rfl rfl rfl fun quiet => quiet
          going := sound.going }
  | passed now =>
      simp only [Control.step] at stepped
      split at stepped
      next later =>
        cases stepped
        exact
          { queued := { sound.queued with }, covered
            timed := timed_congr timed rfl rfl rfl later rfl rfl fun quiet => quiet
            going := sound.going }
      · cases stepped

-- Completion

/-- What a step does to the end of the loop: it never goes back, and it comes in `check` only,
when everything is over. -/
structure Ending (core next : Control) : Prop where
  closing : core.closing = true → next.closing = true
  complete : core.complete = true → next.complete = true
  ended : next.complete = true → core.complete = false → core.isOver = true ∧ next.closing = true

theorem ending_of_same (closing : core.closing = true → next.closing = true)
    (complete : next.complete = core.complete) : Ending core next where
  closing
  complete := complete.trans
  ended done going := by
    rw [complete, going] at done
    cases done

variable {label : Label}

theorem ending_of_step (stepped : core.step label = some next) : Ending core next := by
  cases label with
  | fire =>
      simp only [step] at stepped
      split at stepped
      · split at stepped
        · cases stepped
          exact ending_of_same id rfl
        · cases stepped
      · cases stepped
  | begin =>
      simp only [step] at stepped
      split at stepped
      · cases stepped
        exact ending_of_same id rfl
      · cases stepped
  | opened now =>
      simp only [step] at stepped
      split at stepped
      · split at stepped
        · cases stepped
          exact ending_of_same id rfl
        · cases stepped
      · cases stepped
  | dialed session dial login refresh =>
      simp only [step] at stepped
      split at stepped
      · cases stepped
        exact ending_of_same id rfl
      · cases stepped
  | collect =>
      simp only [step] at stepped
      split at stepped
      · cases stepped
        unfold Control.collect
        dsimp only
        split
        · exact ending_of_same id rfl
        · exact ending_of_same id rfl
      · cases stepped
  | poll id result =>
      simp only [step] at stepped
      split at stepped
      · split at stepped
        · cases stepped
          exact ending_of_same (fun closing => closing) rfl
        · cases stepped
      · cases stepped
  | check =>
      simp only [step] at stepped
      split at stepped
      · cases stepped
        unfold Control.check
        dsimp only
        split
        next ended =>
          refine ⟨fun closing => closing, fun _ => rfl, fun _ _ => ⟨ended, ?_⟩⟩
          simp only [isOver, Bool.and_eq_true] at ended
          exact ended.1.1.1
        · exact ending_of_same id rfl
      · cases stepped
  | turn =>
      simp only [step] at stepped
      split at stepped
      · split at stepped
        · cases stepped
          exact ending_of_same id rfl
        · cases stepped
          exact ending_of_same id rfl
      · cases stepped
  | throw =>
      simp only [step] at stepped
      split at stepped
      · cases stepped
        exact ending_of_same id rfl
      · cases stepped
        exact ending_of_same id rfl
      · cases stepped
        exact ending_of_same id rfl
      · cases stepped
        exact ending_of_same id rfl
      · cases stepped
  | caught now =>
      simp only [step] at stepped
      split at stepped
      · cases stepped
        exact ending_of_same (fun _ => rfl) rfl
      · cases stepped
  | settle now =>
      simp only [step] at stepped
      split at stepped
      · split at stepped
        · cases stepped
          unfold Control.settle
          split
          · exact ending_of_same id rfl
          · exact ending_of_same id rfl
        · cases stepped
      · cases stepped
  | wake target =>
      cases stepped
      cases target with
      | none => exact ending_of_same id rfl
      | some id =>
          unfold Control.wake
          dsimp only
          split
          · exact ending_of_same (fun closing => closing) rfl
          · exact ending_of_same (fun closing => closing) rfl
  | accept streaming late =>
      cases stepped
      rcases core.accept_cases streaming late with ⟨_, refused⟩ | ⟨_, refused | accepted⟩
      · rw [refused]
        exact ending_of_same id rfl
      · rw [refused]
        exact ending_of_same id rfl
      · rw [accepted]
        exact ending_of_same id rfl
  | release =>
      cases stepped
      unfold Control.release
      split
      · exact ending_of_same (fun _ => rfl) rfl
      · exact ending_of_same id rfl
  | close =>
      cases stepped
      exact ending_of_same (fun _ => rfl) rfl
  | closed id =>
      cases stepped
      exact ending_of_same (fun closing => closing) rfl
  | finished id =>
      cases stepped
      exact ending_of_same (fun closing => closing) rfl
  | dropped id =>
      simp only [step] at stepped
      split at stepped
      · cases stepped
      · cases stepped
        exact ending_of_same (fun closing => closing) rfl
  | counted counters =>
      cases stepped
      exact ending_of_same id rfl
  | passed now =>
      simp only [step] at stepped
      split at stepped
      · cases stepped
        exact ending_of_same id rfl
      · cases stepped

/-- A new loop. -/
theorem sound_start (options : Options) : Sound { options } where
  queued :=
    { nodup := List.nodup_nil
      inside := fun _ no => nomatch no
      distinct := List.nodup_nil
      known := fun _ no => nomatch no
      flagged := fun _ _ => ⟨fun no => (nomatch no), fun no => (nomatch no)⟩
      listed := fun _ _ no => nomatch no
      owned := fun id owned => absurd owned.1 (Nat.not_lt_zero id)
      room := le_rfl }
  covered id owned := absurd owned.1 (Nat.not_lt_zero id)
  timed := ⟨rfl, _, rfl, .inr (.inl le_rfl)⟩
  going := rfl

structure Standing (core : Control) : Prop where
  sound : core.complete = false → Sound core
  closing : core.complete = true → core.closing = true

theorem Standing.step {core next : Control} (standing : Standing core) {label : Label}
    (stepped : core.step label = some next) : Standing next := by
  have ending := ending_of_step stepped
  refine ⟨fun going => ?_, fun done => ?_⟩
  · cases before : core.complete with
    | false => exact (standing.sound before).step stepped going
    | true =>
        rw [ending.complete before] at going
        cases going
  · cases before : core.complete with
    | false => exact (ending.ended done before).2
    | true => exact ending.closing (standing.closing before)

/-- The queue is no longer than the directory. -/
theorem Queued.length_le (queued : Queued core)
    : core.ready.length ≤ core.readers.length :=
  (List.subperm_of_subset queued.nodup queued.inside).length_le

end Control

end Comet
