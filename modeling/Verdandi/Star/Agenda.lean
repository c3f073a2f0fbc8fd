import Verdandi.Common.Clock
import Verdandi.Star.Origin

/-! The deadlines of the records of one source. A wheel counts ticks of ten milliseconds and has
a hook for each record with a deadline; a hook that falls due is handled by its owner, who looks
at the real deadline again.
-/

namespace Astra

open Support

inductive Fault where
  | invalidArgument (what : String)
  | logicError (what : String)
  | runtimeError (what : String)
  deriving DecidableEq, Repr

/-- An agenda with the hooks that it schedules: for each the tick at which it falls due. A hook
whose tick has passed waits because one before it failed.
-/
structure Agenda where
  time : Int
  clock : Nat := 0
  hooks : Assoc Origin.Name Nat := ∅

namespace Agenda

open Origin (Name)

def interval : Int := 10000000

def limit : Nat := 2 ^ 32 - 1

def next (agenda : Agenda) : Int :=
  if Clock.maximum - agenda.time < interval then Clock.maximum else agenda.time + interval

/-- How many ticks a deadline is away, rounded up. What has passed is handled at the next tick,
and what is too far away is looked at again at the end of the wheel.
-/
def delay (agenda : Agenda) (deadline : Int) : Nat :=
  let remaining := (deadline - agenda.time).toNat
  let ticks := remaining / interval.toNat + if remaining % interval.toNat = 0 then 0 else 1
  max (min ticks limit) 1

def set (agenda : Agenda) (name : Name) (deadline : Int) : Agenda :=
  { agenda with hooks := agenda.hooks.set name (agenda.clock + agenda.delay deadline) }

def erase (agenda : Agenda) (name : Name) : Agenda :=
  { agenda with hooks := agenda.hooks.remove name }

/-- What handling a due hook led to: its record lasts longer, its record has ended, or an
exception, after which it is looked at again.
-/
inductive Fired (State : Type) where
  | later (deadline : Int)
  | ended (state : State)
  | failed (fault : Fault) (state : State)

variable {State : Type}

def handle (fire : State → Agenda → Name → Fired State) (state : State) (agenda : Agenda)
    (name : Name)
    : State × Agenda × Option Fault :=
  match fire state agenda name with
  | .later deadline => (state, agenda.set name deadline, none)
  | .ended next => (next, agenda.erase name, none)
  | .failed fault next =>
      (next, { agenda with hooks := agenda.hooks.set name (agenda.clock + 1) }, some fault)

def drain (fire : State → Agenda → Name → Fired State)
    : List Name → State → Agenda → State × Agenda × Option Fault
  | [], state, agenda => (state, agenda, none)
  | name :: rest, state, agenda =>
      match handle fire state agenda name with
      | (next, later, none) => drain fire rest next later
      | (next, later, some fault) => (next, later, some fault)

/-- The due hooks. Nothing is said about their order, so it is taken from a ranking. -/
def waiting (agenda : Agenda) (rank : Nat → Name → Nat) : List Name :=
  ((agenda.hooks.toPairs.filter (·.2 ≤ agenda.clock)).map Prod.fst).insertionSort
    fun left right => rank agenda.clock left ≤ rank agenda.clock right

/-- One tick: first what an exception has left, then what falls due. -/
def tick (fire : State → Agenda → Name → Fired State) (rank : Nat → Name → Nat) (state : State)
    (agenda : Agenda)
    : State × Agenda × Option Fault :=
  match drain fire (agenda.waiting rank) state agenda with
  | (next, later, some fault) => (next, later, some fault)
  | (next, later, none) =>
      let begun := { later with time := later.time + interval, clock := later.clock + 1 }
      drain fire (begun.waiting rank) next begun

def ticks (fire : State → Agenda → Name → Fired State) (rank : Nat → Name → Nat)
    : Nat → State → Agenda → State × Agenda × Option Fault
  | 0, state, agenda => (state, agenda, none)
  | count + 1, state, agenda =>
      match tick fire rank state agenda with
      | (next, later, none) => ticks fire rank count next later
      | (next, later, some fault) => (next, later, some fault)

def advance (fire : State → Agenda → Name → Fired State) (rank : Nat → Name → Nat) (now : Int)
    (state : State) (agenda : Agenda)
    : State × Agenda × Option Fault :=
  if now < agenda.time then
    (state, agenda, some (.invalidArgument "Agenda time cannot move backwards"))
  else
    ticks fire rank ((now - agenda.time) / interval).toNat state agenda

-- Hooks and deadlines

def boundary (agenda : Agenda) (tick : Nat) : Int :=
  agenda.time + ((tick : Int) - agenda.clock) * interval

/-- A hook is scheduled for a deadline: for the first tick at or after it, or the end of the
wheel as it was when the hook was set, or if the deadline has passed the next tick.
-/
structure Timely (agenda : Agenda) (tick : Nat) (deadline : Int) : Prop where
  late : deadline ≤ agenda.boundary tick ∨ ∃ since ≤ agenda.clock, tick = since + limit
  prompt : agenda.boundary tick < deadline + interval ∨ tick ≤ agenda.clock + 1

/-- Every record with a deadline has its hook, and there is no other hook. -/
def Ties (agenda : Agenda) (deadlines : Name → Option Int) : Prop :=
  ∀ name, Option.Rel agenda.Timely (agenda.hooks.get? name) (deadlines name)

theorem timely_delay (agenda : Agenda) (deadline : Int)
    : agenda.Timely (agenda.clock + agenda.delay deadline) deadline := by
  generalize isDelay : agenda.delay deadline = delay
  simp only [Agenda.delay, show interval.toNat = 10000000 from rfl, limit] at isDelay
  have place : agenda.boundary (agenda.clock + delay) = agenda.time + (delay : Int) * 10000000 := by
    rw [boundary, interval]
    push_cast
    ring
  constructor
  · rw [place]
    by_cases far : delay = limit
    · exact .inr ⟨agenda.clock, le_rfl, by rw [far]⟩
    · unfold limit at far
      exact .inl (by split at isDelay <;> omega)
  · rw [place, interval]
    split at isDelay <;> omega

variable {agenda : Agenda} {deadline : Int}

/-- A hook whose deadline has passed may be handled at the next tick. -/
theorem timely_next (passed : deadline ≤ agenda.time)
    : agenda.Timely (agenda.clock + 1) deadline := by
  refine ⟨.inl ?_, .inr le_rfl⟩
  simp only [boundary, interval]
  push_cast
  omega

/-- Time goes on. -/
theorem Timely.begun {tick : Nat} (timely : agenda.Timely tick deadline)
    : ({ agenda with time := agenda.time + interval, clock := agenda.clock + 1 } : Agenda).Timely
        tick deadline := by
  have same : ({ agenda with time := agenda.time + interval, clock := agenda.clock + 1 }
      : Agenda).boundary tick = agenda.boundary tick := by
    simp only [boundary]
    push_cast
    ring
  constructor
  · rw [same]
    rcases timely.late with reached | ⟨since, known, far⟩
    · exact .inl reached
    · exact .inr ⟨since, Nat.le_succ_of_le known, far⟩
  · rw [same]
    exact timely.prompt.imp id Nat.le_succ_of_le

variable {other : Agenda}

/-- Hooks are timely by time and clock alone. -/
theorem Timely.congr {tick : Nat} (timely : agenda.Timely tick deadline)
    (time : other.time = agenda.time) (clock : other.clock = agenda.clock)
    : other.Timely tick deadline := by
  have same : other.boundary tick = agenda.boundary tick := by
    rw [boundary, boundary, time, clock]
  exact ⟨by rw [same, clock]; exact timely.late, by rw [same, clock]; exact timely.prompt⟩

theorem rel_of_timely {hook : Option Nat} {deadline : Option Int}
    (related : Option.Rel agenda.Timely hook deadline)
    (keeps : ∀ tick deadline, agenda.Timely tick deadline → other.Timely tick deadline)
    : Option.Rel other.Timely hook deadline := by
  cases related with
  | none => exact .none
  | some timely => exact .some (keeps _ _ timely)

variable {deadlines : Name → Option Int}

theorem ties_empty (time : Int) (absent : ∀ name, deadlines name = none)
    : Ties { time } deadlines := by
  intro name
  rw [absent]
  exact .none

theorem Ties.set {agenda : Agenda} {deadlines : Name → Option Int}
    (ties : agenda.Ties deadlines) (name : Name) (deadline : Int)
    : (agenda.set name deadline).Ties (Function.update deadlines name (some deadline)) := by
  intro other
  by_cases same : other = name
  · subst same
    rw [Function.update_self, Agenda.set, Assoc.get?_set, if_pos rfl]
    exact .some ((timely_delay agenda deadline).congr rfl rfl)
  · rw [Function.update_of_ne same, Agenda.set, Assoc.get?_set, if_neg same]
    exact rel_of_timely (ties other) fun _ _ timely => timely.congr rfl rfl

theorem Ties.erase (ties : agenda.Ties deadlines) (name : Name)
    : (agenda.erase name).Ties (Function.update deadlines name none) := by
  intro other
  by_cases same : other = name
  · subst same
    rw [Function.update_self, Agenda.erase, Assoc.get?_remove, if_pos rfl]
    exact .none
  · rw [Function.update_of_ne same, Agenda.erase, Assoc.get?_remove, if_neg same]
    exact rel_of_timely (ties other) fun _ _ timely => timely.congr rfl rfl

/-- A hook that could not be handled stays, for the next tick. -/
theorem Ties.again {name : Name} (ties : agenda.Ties deadlines)
    (active : deadlines name = some deadline) (passed : deadline ≤ agenda.time)
    : ({ agenda with hooks := agenda.hooks.set name (agenda.clock + 1) } : Agenda).Ties
        deadlines := by
  intro other
  dsimp only
  by_cases same : other = name
  · subst same
    rw [active, Assoc.get?_set, if_pos rfl]
    exact .some ((timely_next passed).congr rfl rfl)
  · rw [Assoc.get?_set, if_neg same]
    exact rel_of_timely (ties other) fun _ _ timely => timely.congr rfl rfl

theorem Ties.begun (ties : agenda.Ties deadlines)
    : ({ agenda with time := agenda.time + interval, clock := agenda.clock + 1 } : Agenda).Ties
        deadlines :=
  fun name => rel_of_timely (ties name) fun _ _ timely => timely.begun

-- Handling what is due

/-- What is asked of the owner of an agenda, up to a time: it reports the real deadline of a
record that lasts, it ends no other record, and when it fails it leaves the deadlines alone.
-/
structure Sound (fire : State → Agenda → Name → Fired State)
    (deadlines : State → Name → Option Int) (Good : State → Prop) (Allowed : Fault → Prop)
    (now : Int)
    : Prop where
  later : ∀ {state agenda name deadline reported}, Good state
    → deadlines state name = some deadline → fire state agenda name = .later reported
    → reported = deadline
  ended : ∀ {state agenda name deadline next}, Good state
    → deadlines state name = some deadline → agenda.time ≤ now
    → fire state agenda name = .ended next
    → Good next ∧ deadlines next = Function.update (deadlines state) name none
  failed : ∀ {state agenda name deadline fault next}, Good state
    → agenda.hooks.contains name = true → deadlines state name = some deadline
    → fire state agenda name = .failed fault next
    → Good next ∧ deadlines next = deadlines state ∧ deadline ≤ agenda.time ∧ Allowed fault

section

variable {fire : State → Agenda → Name → Fired State} {deadlines : State → Name → Option Int}
  {Good : State → Prop} {Allowed : Fault → Prop} {now : Int} {state : State} {agenda : Agenda}
  {rank : Nat → Name → Nat}

structure Kept (deadlines : State → Name → Option Int) (Good : State → Prop)
    (Allowed : Fault → Prop) (result : State × Agenda × Option Fault)
    : Prop where
  ties : result.2.1.Ties (deadlines result.1)
  good : Good result.1
  fault : ∀ fault, result.2.2 = some fault → Allowed fault

theorem Sound.handle (sound : Sound fire deadlines Good Allowed now) (good : Good state)
    (ties : agenda.Ties (deadlines state)) (reached : agenda.time ≤ now) {name : Name}
    (active : (deadlines state name).isSome = true)
    : Kept deadlines Good Allowed (handle fire state agenda name)
      ∧ (handle fire state agenda name).2.1.time = agenda.time
      ∧ (handle fire state agenda name).2.1.clock = agenda.clock
      ∧ ∀ other, other ≠ name
        → deadlines (handle fire state agenda name).1 other = deadlines state other := by
  obtain ⟨deadline, isDeadline⟩ := Option.isSome_iff_exists.mp active
  have hooked : agenda.hooks.contains name = true := by
    have related := ties name
    rw [isDeadline] at related
    unfold Assoc.contains
    generalize agenda.hooks.get? name = hook at related
    cases related
    rfl
  unfold Agenda.handle
  cases fired : fire state agenda name with
  | later reported =>
      have same := sound.later good isDeadline fired
      subst same
      have unchanged : Function.update (deadlines state) name (some reported) = deadlines state := by
        rw [← isDeadline, Function.update_eq_self]
      refine ⟨⟨unchanged ▸ ties.set name reported, good, nofun⟩, rfl, rfl, fun _ _ => rfl⟩
  | ended next =>
      obtain ⟨goodNext, without⟩ := sound.ended good isDeadline reached fired
      refine ⟨⟨without ▸ ties.erase name, goodNext, nofun⟩, rfl, rfl, ?_⟩
      intro other different
      rw [without, Function.update_of_ne different]
  | failed fault next =>
      obtain ⟨goodNext, same, passed, allowed⟩ := sound.failed good hooked isDeadline fired
      refine ⟨⟨?_, goodNext, ?_⟩, rfl, rfl, fun other _ => congrFun same other⟩
      · exact same ▸ ties.again isDeadline passed
      · rintro _ ⟨⟩
        exact allowed

/-- Due hooks are handled one after the other. Witness: induction over them; each handles its
own record only.
-/
theorem Sound.drain (sound : Sound fire deadlines Good Allowed now) {names : List Name}
    (distinct : names.Nodup) (active : ∀ name ∈ names, (deadlines state name).isSome = true)
    (good : Good state) (ties : agenda.Ties (deadlines state)) (reached : agenda.time ≤ now)
    : Kept deadlines Good Allowed (drain fire names state agenda)
      ∧ (drain fire names state agenda).2.1.time = agenda.time := by
  induction names generalizing state agenda with
  | nil => exact ⟨⟨ties, good, nofun⟩, rfl⟩
  | cons name rest ih =>
      obtain ⟨kept, time, _, others⟩ :=
        sound.handle good ties reached (active name List.mem_cons_self)
      unfold Agenda.drain
      generalize Agenda.handle fire state agenda name = result at kept time others
      obtain ⟨next, later, fault⟩ := result
      cases fault with
      | some fault => exact ⟨kept, time⟩
      | none =>
          rw [List.nodup_cons] at distinct
          have still : ∀ other ∈ rest, (deadlines next other).isSome = true := by
            intro other listed
            have different : other ≠ name := fun same => distinct.1 (same ▸ listed)
            rw [others other different]
            exact active other (List.mem_cons_of_mem _ listed)
          dsimp only at time
          obtain ⟨keptRest, timeRest⟩ :=
            ih distinct.2 still kept.good kept.ties (time ▸ reached)
          exact ⟨keptRest, timeRest.trans time⟩

theorem nodup_waiting (agenda : Agenda) (rank : Nat → Name → Nat)
    : (agenda.waiting rank).Nodup := by
  rw [waiting, (List.perm_insertionSort _ _).nodup_iff]
  have keys : (agenda.hooks.toPairs.map Prod.fst).Nodup := by
    have same : agenda.hooks.toPairs.map Prod.fst = agenda.hooks.keys := by
      simp [Assoc.toPairs, Assoc.keys]
    rw [same]
    exact agenda.hooks.nodup_keys
  exact keys.sublist (List.filter_sublist.map _)

/-- What is due has a record. -/
theorem Ties.waiting {deadlines : Name → Option Int} (ties : agenda.Ties deadlines)
    : ∀ name ∈ agenda.waiting rank, (deadlines name).isSome = true := by
  intro name listed
  rw [Agenda.waiting, List.mem_insertionSort] at listed
  obtain ⟨⟨stored, due⟩, member, rfl⟩ := List.mem_map.mp listed
  have hook := (Assoc.mem_toPairs _ _ _).mp (List.mem_filter.mp member).1
  have related := ties stored
  rw [hook] at related
  dsimp only
  generalize deadlines stored = deadline at related ⊢
  cases related
  rfl

theorem Sound.tick (sound : Sound fire deadlines Good Allowed now) (good : Good state)
    (ties : agenda.Ties (deadlines state)) (reached : agenda.time + interval ≤ now)
    : Kept deadlines Good Allowed (tick fire rank state agenda)
      ∧ agenda.time ≤ (tick fire rank state agenda).2.1.time
      ∧ (tick fire rank state agenda).2.1.time ≤ agenda.time + interval := by
  have positive : (0 : Int) ≤ interval := by decide
  obtain ⟨kept, time⟩ :=
    sound.drain (agenda.nodup_waiting rank) ties.waiting good ties (by omega)
  unfold Agenda.tick
  generalize Agenda.drain fire (agenda.waiting rank) state agenda = result at kept time
  obtain ⟨next, later, fault⟩ := result
  dsimp only at time
  cases fault with
  | some fault => exact ⟨kept, by simp [time], by simp [time, positive]⟩
  | none =>
      dsimp only
      generalize isBegun
        : ({ later with time := later.time + interval, clock := later.clock + 1 } : Agenda) = begun
      have tiesBegun : begun.Ties (deadlines next) := isBegun ▸ kept.ties.begun
      have timeBegun : begun.time = agenda.time + interval := by rw [← isBegun, ← time]
      obtain ⟨keptLast, timeLast⟩ :=
        sound.drain (begun.nodup_waiting rank) tiesBegun.waiting kept.good tiesBegun (by omega)
      exact ⟨keptLast, by omega, by omega⟩

/-- All ticks keep what each keeps. Witness: induction over their number. -/
theorem Sound.ticks (sound : Sound fire deadlines Good Allowed now) {count : Nat}
    (good : Good state) (ties : agenda.Ties (deadlines state))
    (reached : agenda.time + count * interval ≤ now)
    : Kept deadlines Good Allowed (ticks fire rank count state agenda)
      ∧ agenda.time ≤ (ticks fire rank count state agenda).2.1.time
      ∧ (ticks fire rank count state agenda).2.1.time ≤ agenda.time + count * interval := by
  have positive : (0 : Int) ≤ interval := by decide
  induction count generalizing state agenda with
  | zero => exact ⟨⟨ties, good, nofun⟩, le_rfl, by simp [Agenda.ticks]⟩
  | succ count ih =>
      have spread : ((count + 1 : Nat) : Int) * interval = count * interval + interval := by
        push_cast
        ring
      have covered : (0 : Int) ≤ count * interval := Int.mul_nonneg (Int.natCast_nonneg _) positive
      rw [spread] at reached ⊢
      obtain ⟨kept, least, most⟩ := @Sound.tick _ _ _ _ _ _ _ _ rank sound good ties (by omega)
      unfold Agenda.ticks
      generalize Agenda.tick fire rank state agenda = result at kept least most
      obtain ⟨next, later, fault⟩ := result
      dsimp only at least most
      cases fault with
      | some fault => exact ⟨kept, least, by dsimp only; omega⟩
      | none =>
          obtain ⟨keptRest, leastRest, mostRest⟩ :=
            ih kept.good kept.ties (by dsimp only; omega)
          dsimp only at leastRest mostRest ⊢
          exact ⟨keptRest, by omega, by omega⟩

/-- Advancing keeps hooks and deadlines in step, and never passes the time it is given. -/
theorem Sound.advance (sound : Sound fire deadlines Good Allowed now) (good : Good state)
    (ties : agenda.Ties (deadlines state)) (onwards : agenda.time ≤ now)
    : Kept deadlines Good Allowed (advance fire rank now state agenda)
      ∧ agenda.time ≤ (advance fire rank now state agenda).2.1.time
      ∧ (advance fire rank now state agenda).2.1.time ≤ now := by
  have positive : (0 : Int) < interval := by decide
  have whole : (0 : Int) ≤ (now - agenda.time) / interval :=
    Int.ediv_nonneg (by omega) positive.le
  have within : ((now - agenda.time) / interval) * interval ≤ now - agenda.time :=
    Int.ediv_mul_le _ positive.ne'
  unfold Agenda.advance
  rw [if_neg (by omega)]
  obtain ⟨kept, least, most⟩ := @Sound.ticks _ _ _ _ _ now state agenda rank sound
    ((now - agenda.time) / interval).toNat good ties (by rw [Int.toNat_of_nonneg whole]; omega)
  rw [Int.toNat_of_nonneg whole] at most
  exact ⟨kept, least, by omega⟩

end

end Agenda

end Astra
