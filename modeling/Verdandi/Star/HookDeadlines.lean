import Verdandi.Star.Hooks

/-! Hooks are called at the boundaries that their deadlines ask for. What happened to the wheel tells at which
boundary it happened, by the ticks before it, and for which deadline each hook was set.
-/

namespace Astra.Hooks

open Support
open Agenda (interval)

variable {World Node : Type} [DecidableEq Node]

-- Boundaries

def boundaryAt (initial : Int) (history : List (Happening Node Note)) : Int :=
  initial + Timers.ticks history * interval

structure First (boundary deadline first : Int) : Prop where
  reached : deadline ≤ first
  later : ∃ count : Nat, first = boundary + (count + 1) * interval
  least : ∀ count : Nat, deadline ≤ boundary + (count + 1) * interval
    → first ≤ boundary + (count + 1) * interval

variable {boundary deadline first : Int}

theorem First.unique {other : Int} (is : First boundary deadline first)
    (isOther : First boundary deadline other)
    : first = other := by
  obtain ⟨count, rfl⟩ := is.later
  obtain ⟨more, rfl⟩ := isOther.later
  have := is.least more isOther.reached
  have := isOther.least count is.reached
  omega

/-- Waking early does not change the boundary that is waited for. -/
theorem First.shift {count : Nat} (is : First (boundary + count * interval) deadline first)
    (early : boundary + count * interval < deadline)
    : First boundary deadline first := by
  obtain ⟨more, rfl⟩ := is.later
  refine ⟨is.reached, ⟨count + more, by push_cast; ring⟩, fun other reached => ?_⟩
  have ahead : count < other + 1 := by
    simp only [interval] at *
    omega
  have least := is.least (other - count)
  rw [show (((other - count : Nat) : Int)) = other - count by omega] at least
  simp only [interval] at *
  omega

-- Plans

def delayFor (boundary : Int) : Note → Nat
  | some deadline => delay boundary deadline
  | none => 1

def Suits (boundary : Int) : Happening Node Note → Prop
  | .set _ count note => count = delayFor boundary note
  | _ => True

/-- Every hook was set for its deadline, as it was seen from the boundary at that time. -/
def Planned (initial : Int) (history : List (Happening Node Note)) : Prop :=
  ∀ before happening after, history = before ++ happening :: after
    → Suits (boundaryAt initial before) happening

/-- The last call threw, and its hook is set again for the next tick. -/
def Fails (history : List (Happening Node Note)) : Prop :=
  ∃ before node calls, history = before ++ .fire node :: calls ++ [.set node 1 none]
    ∧ Timers.ticks calls = 0 ∧ ∀ other, Happening.fire other ∉ calls

/-- An agenda within a tick, at a boundary: what happened goes on from a history, and its hooks are planned. -/
structure During (initial : Int) (base : List (Happening Node Note)) (clock : Nat) (boundary : Int)
    (use : Wheel.Use World Node Note) : Prop where
  clock : use.wheel.clock = clock
  boundary : boundary = boundaryAt initial use.history
  planned : Planned initial use.history
  grows : base <+: use.history
  failed : use.thrown = true → Fails use.history

def Plans (boundary : Int) : Wheel.Command Node Note → Prop
  | .schedule _ count note => count = delayFor boundary note ∧ count ≤ shape.limit
  | .cancel _ => True

section Ticks

variable {initial boundary : Int} {base : List (Happening Node Note)} {clock : Nat}
  {use : Wheel.Use World Node Note} {fire : Callback World Node}

omit [DecidableEq Node] in
theorem plans_onWheel (boundary : Int) (command : Command Node)
    : Plans boundary (command.onWheel boundary) := by
  cases command with
  | set node deadline => exact ⟨rfl, Nat.min_le_right _ _⟩
  | erase node => trivial

def Silent (calls : List (Happening Node Note)) : Prop :=
  Timers.ticks calls = 0 ∧ ∀ node, Happening.fire node ∉ calls

/-- A planned command is carried out. -/
theorem perform_planned {command : Wheel.Command Node Note} (plans : Plans boundary command)
    : (use.perform shape command).wheel.clock = use.wheel.clock
      ∧ (use.perform shape command).thrown = use.thrown
      ∧ ∃ happening, (use.perform shape command).history = use.history ++ [happening]
        ∧ Suits boundary happening ∧ Silent [happening]
        ∧ ∀ node count note, command = .schedule node count note → happening = .set node count note := by
  cases command with
  | cancel node => exact ⟨rfl, rfl, _, rfl, trivial, ⟨rfl, by simp⟩, nofun⟩
  | schedule node count note =>
      rw [Wheel.Use.perform, Wheel.schedule, if_neg (not_lt.mpr plans.2)]
      refine ⟨rfl, rfl, _, rfl, plans.1, ⟨rfl, by simp⟩, ?_⟩
      intro _ _ _ same
      cases same
      rfl

omit [DecidableEq Node] in
theorem boundaryAt_append (initial : Int) (history calls : List (Happening Node Note))
    : boundaryAt initial (history ++ calls) = boundaryAt initial history + Timers.ticks calls * interval := by
  simp only [boundaryAt, Timers.ticks_append]
  push_cast
  ring

theorem During.perform {command : Wheel.Command Node Note}
    (during : During initial base clock boundary use) (calm : use.thrown = false)
    (plans : Plans boundary command)
    : During initial base clock boundary (use.perform shape command) := by
  obtain ⟨sameClock, sameThrown, happening, isHistory, suits, silent, -⟩ :=
    @perform_planned _ _ _ _ use command plans
  refine ⟨sameClock.trans during.clock, ?_, ?_, ?_, fun thrown => ?_⟩
  · rw [isHistory, boundaryAt_append, silent.1, ← during.boundary]
    simp
  · rw [isHistory]
    refine splits_snoc during.planned ?_
    rw [← during.boundary]
    exact suits
  · rw [isHistory]
    exact during.grows.trans (List.prefix_append _ _)
  · rw [sameThrown, calm] at thrown
    cases thrown

/-- Planned commands are carried out one after the other. Witness: induction over the commands. -/
theorem During.performs {commands : List (Wheel.Command Node Note)}
    (during : During initial base clock boundary use) (calm : use.thrown = false)
    (plans : ∀ command ∈ commands, Plans boundary command)
    : (∃ calls, (commands.foldl (Wheel.Use.perform shape) use).history = use.history ++ calls
        ∧ Silent calls)
      ∧ (commands.foldl (Wheel.Use.perform shape) use).thrown = false
      ∧ During initial base clock boundary (commands.foldl (Wheel.Use.perform shape) use) := by
  induction commands generalizing use with
  | nil => exact ⟨⟨[], by simp, ⟨rfl, by simp⟩⟩, calm, during⟩
  | cons command rest ih =>
      have plan := plans command List.mem_cons_self
      obtain ⟨-, sameThrown, happening, isHistory, -, silent, -⟩ :=
        @perform_planned _ _ _ _ use command plan
      obtain ⟨⟨calls, isCalls, silentCalls⟩, after⟩ := ih (during.perform calm plan)
        (sameThrown.trans calm) fun other listed => plans other (List.mem_cons_of_mem _ listed)
      refine ⟨⟨happening :: calls, ?_, ⟨?_, ?_⟩⟩, after⟩
      · rw [List.foldl_cons, isCalls, isHistory]
        simp
      · have one := silent.1
        rw [Timers.ticks_cons] at one ⊢
        rw [silentCalls.1]
        simpa [Timers.ticks] using one
      · intro node listed
        rcases List.mem_cons.mp listed with rfl | later
        · exact silent.2 node List.mem_cons_self
        · exact silentCalls.2 node later

/-- A hook that is due is called at the boundary; one whose call throws is set for the next tick. -/
theorem During.fires {time : Int} {tick : Nat} {node : Node} {rest : List Node}
    (during : During initial base clock boundary use)
    (isBoundary : boundary = time + if clock = tick then 0 else interval)
    : During initial base clock boundary (use.fire shape (onFire time tick fire) node rest) := by
  rw [Wheel.Use.fire, onFire]
  have isNow : ({ time, tick, timer := { use.wheel with ready := rest } } : Hooks Node).boundary = boundary := by
    rw [Hooks.boundary, isBoundary, during.clock]
  dsimp only
  rw [isNow]
  generalize fire use.world _ node boundary = reply
  obtain ⟨world, commands, thrown⟩ := reply
  have begun : During initial base clock boundary
      { world, wheel := { use.wheel with ready := rest }, history := use.history ++ [.fire node] } := by
    refine ⟨during.clock, ?_, splits_snoc during.planned trivial, ?_, (by intros; contradiction)⟩
    · rw [boundaryAt_append, ← during.boundary]
      simp [Timers.ticks, Happening.isTick]
    · exact during.grows.trans (List.prefix_append _ _)
  have plans : ∀ command ∈ commands.map (Command.onWheel boundary), Plans boundary command := by
    intro command listed
    obtain ⟨other, -, rfl⟩ := List.mem_map.mp listed
    exact plans_onWheel boundary other
  obtain ⟨⟨calls, isCalls, silent⟩, calm, after⟩ := begun.performs rfl plans
  cases thrown with
  | false =>
      dsimp only
      simp only [Bool.false_eq_true, if_false, List.append_nil]
      exact ⟨after.clock, after.boundary, after.planned, after.grows, (by intros; contradiction)⟩
  | true =>
      dsimp only
      rw [if_pos rfl, List.foldl_append]
      have again : Plans boundary (.schedule node 1 none : Wheel.Command Node Note) := ⟨rfl, by decide⟩
      have last := after.perform calm again
      obtain ⟨-, -, happening, isHistory, -, -, isSet⟩ :=
        @perform_planned _ _ _ _ (List.foldl (Wheel.Use.perform shape)
          ({ world, wheel := { use.wheel with ready := rest }, history := use.history ++ [.fire node] }
            : Wheel.Use World Node Note) (commands.map (Command.onWheel boundary))) _ again
      rw [isSet node 1 none rfl, isCalls] at isHistory
      refine ⟨last.clock, last.boundary, last.planned, last.grows, fun _ => ?_⟩
      exact ⟨use.history, node, calls, by simpa using isHistory, silent⟩

end Ticks

-- Advances

structure Use.Sound (initial : Int) (use : Use World Node) : Prop where
  wheel : use.toUse.Sound shape 0
  tick : use.tick = use.wheel.clock
  time : use.time = boundaryAt initial use.history
  planned : Planned initial use.history

section Advances

variable {initial now : Int} {use : Use World Node} {fire : Callback World Node}

structure Use.Goes (initial : Int) (use next : Use World Node) : Prop where
  sound : next.Sound initial
  grows : use.history <+: next.history
  failed : next.thrown = true → Fails next.history

theorem Use.Sound.hooks (sound : use.Sound initial) : use.hooks.boundary = use.time := by
  have same : use.hooks.timer.clock = use.hooks.tick := sound.tick.symm
  rw [Hooks.boundary, if_pos same]
  exact Int.add_zero _

/-- A tick takes the time to the next boundary, and leaves nothing that is due; only if a callback throws
that was due before, the time may stay.
-/
theorem Use.Sound.turn (sound : use.Sound initial)
    : Use.Goes initial use (use.turn fire)
      ∧ ((use.turn fire).time = use.time + interval
        ∨ (use.turn fire).time = use.time ∧ (use.turn fire).thrown = true)
      ∧ ((use.turn fire).thrown = false → (use.turn fire).wheel.ready = []) := by
  have ticked := @Wheel.Use.Sound.tick _ _ _ _ _ _ _ (onFire use.time use.tick fire) sound.wheel
  have moves : (use.tick + 1) % word ≠ use.tick := by
    have isWord : use.tick < word := by
      rw [sound.tick, sound.wheel.keeps.lies.clock]
      exact Nat.mod_lt _ (by decide)
    simp only [word] at *
    omega
  have keeps := @Wheel.Use.Sound.tick_keeps _ _ _ _ _ _ _ (onFire use.time use.tick fire)
    (During initial use.history use.tick use.time)
    (During initial use.history ((use.tick + 1) % word) (use.time + interval)) sound.wheel
    ⟨sound.tick.symm, sound.time, sound.planned, List.prefix_rfl, (by intros; contradiction)⟩
    (fun before node rest _ during _ => during.fires (by simp))
    (by
      intro before soundBefore during calm empty
      have later := (soundBefore.turn empty).keeps.lies.clock
      refine ⟨?_, ?_, splits_snoc during.planned trivial, ?_, fun thrown => ?_⟩
      · rw [later, ← during.clock, soundBefore.keeps.lies.clock, Timers.now_run, Timers.now_run,
          Timers.ticks_append, Nat.mod_add_mod]
        rfl
      · rw [boundaryAt_append, ← during.boundary]
        simp [Timers.ticks, Happening.isTick]
      · exact during.grows.trans (List.prefix_append _ _)
      · cases calm.symm.trans thrown)
    (fun before node rest _ during _ => during.fires (by rw [if_neg moves]))
  rw [Use.turn]
  dsimp only
  generalize use.toUse.tick shape (onFire use.time use.tick fire) = next at ticked keeps ⊢
  rcases keeps with ⟨isThrown, during⟩ | during
  · have isNow : ({ time := use.time, tick := use.tick, timer := next.wheel } : Hooks Node).boundary
        = use.time := by
      rw [Hooks.boundary, if_pos during.clock]
      exact Int.add_zero _
    rw [isNow]
    exact ⟨⟨⟨ticked.1, rfl, during.boundary, during.planned⟩, during.grows, during.failed⟩,
      .inr ⟨rfl, isThrown⟩, ticked.2⟩
  · have isNow : ({ time := use.time, tick := use.tick, timer := next.wheel } : Hooks Node).boundary
        = use.time + interval := by
      rw [Hooks.boundary, if_neg (by rw [during.clock]; exact moves)]
    rw [isNow]
    exact ⟨⟨⟨ticked.1, rfl, during.boundary, during.planned⟩, during.grows, during.failed⟩, .inl rfl,
      ticked.2⟩

/-- Ticks that do not throw take the time that far, and leave nothing that is due. Witness: induction over the
ticks.
-/
theorem Use.Sound.turns {count : Nat} (sound : use.Sound initial) (calm : use.thrown = false)
    : Use.Goes initial use (use.turns fire count) ∧ use.time ≤ (use.turns fire count).time
      ∧ (use.turns fire count).time ≤ use.time + count * interval
      ∧ ((use.turns fire count).thrown = false → (use.turns fire count).time = use.time + count * interval
        ∧ (count ≠ 0 ∨ use.wheel.ready = [] → (use.turns fire count).wheel.ready = [])) := by
  induction count generalizing use with
  | zero =>
      refine ⟨⟨sound, List.prefix_rfl, fun thrown => ?_⟩, le_rfl, by simp [Use.turns], fun _ =>
        ⟨by simp [Use.turns], fun empty => ?_⟩⟩
      · cases calm.symm.trans thrown
      · exact empty.resolve_left fun some_ => some_ rfl
  | succ count ih =>
      obtain ⟨goes, times, empties⟩ := @Use.Sound.turn _ _ _ _ _ fire sound
      have positive : (0 : Int) < interval := by decide
      have more : ((count + 1 : Nat) : Int) * interval = count * interval + interval := by
        push_cast
        ring
      have some_ : 0 ≤ (count : Int) * interval := Int.mul_nonneg (Int.natCast_nonneg _) positive.le
      rw [Use.turns, more]
      split
      next isThrown =>
        refine ⟨goes, ?_, ?_, fun quiet => ?_⟩
        · rcases times with later | ⟨same, -⟩ <;> omega
        · rcases times with later | ⟨same, -⟩ <;> omega
        · rw [quiet] at isThrown
          cases isThrown
      rename_i quiet
      have isCalm : (use.turn fire).thrown = false := by simpa using quiet
      have isLater : (use.turn fire).time = use.time + interval := by
        rcases times with later | ⟨-, thrown⟩
        · exact later
        · cases isCalm.symm.trans thrown
      obtain ⟨rest, after, before, ends⟩ := ih goes.sound isCalm
      refine ⟨⟨rest.sound, goes.grows.trans rest.grows, rest.failed⟩, by omega, by omega, fun last => ?_⟩
      obtain ⟨reached, empty⟩ := ends last
      exact ⟨by omega, fun _ => empty (.inr (empties isCalm))⟩

/-- An advance that does not throw takes the time to the last boundary up to what is asked for. -/
theorem Use.Sound.advance (sound : use.Sound initial) (forward : use.time ≤ now)
    : Use.Goes initial use (use.advance now fire)
      ∧ (use.time ≤ (use.advance now fire).time ∧ (use.advance now fire).time ≤ now)
      ∧ ((use.advance now fire).thrown = false → now < (use.advance now fire).time + interval
        ∧ (use.wheel.ready = [] ∨ use.time + interval ≤ now → (use.advance now fire).wheel.ready = [])) := by
  have quiet : Use.Sound initial { use with thrown := false } :=
    ⟨⟨sound.wheel.keeps, sound.wheel.lawful⟩, sound.tick, sound.time, sound.planned⟩
  rw [Use.advance, if_neg (by omega)]
  have positive : (0 : Int) < interval := by decide
  have width : interval = 10000000 := rfl
  obtain ⟨goes, after, before, ends⟩ :=
    @Use.Sound.turns _ _ _ _ _ fire ((now - use.time) / interval).toNat quiet rfl
  have count : (((now - use.time) / interval).toNat : Int) = (now - use.time) / interval :=
    Int.toNat_of_nonneg (Int.ediv_nonneg (by omega) positive.le)
  rw [count] at before ends
  have below := Int.ediv_mul_le (now - use.time) positive.ne'
  have above := Int.lt_ediv_add_one_mul_self (now - use.time) positive
  dsimp only at before after ends
  refine ⟨⟨goes.sound, goes.grows, goes.failed⟩, ⟨after, by omega⟩, fun calm => ?_⟩
  obtain ⟨reached, empty⟩ := ends calm
  refine ⟨?_, fun cause => empty ?_⟩
  · rw [reached]
    rw [Int.add_mul] at above
    omega
  · rcases cause with isEmpty | far
    · exact .inr isEmpty
    · refine .inl fun none_ => ?_
      rw [none_] at count
      rw [← count] at above
      simp only [width] at *
      omega

/-- Setting and erasing take no time. -/
theorem Use.Sound.perform (sound : use.Sound initial) (command : Command Node)
    : (use.perform command).Sound initial := by
  have isNow := sound.hooks
  obtain ⟨sameClock, -, happening, isHistory, suits, silent, -⟩ :=
    @perform_planned _ _ _ use.hooks.boundary use.toUse _ (plans_onWheel use.hooks.boundary command)
  refine ⟨sound.wheel.perform _, sound.tick.trans sameClock.symm, ?_, ?_⟩
  · change use.time = boundaryAt initial (use.toUse.perform shape _).history
    rw [isHistory, boundaryAt_append, silent.1, ← sound.time]
    simp
  · change Planned initial (use.toUse.perform shape _).history
    rw [isHistory]
    refine splits_snoc sound.planned ?_
    rw [← sound.time, ← isNow]
    exact suits

/-- Every agenda is sound. Witness: induction over what is done with it. -/
theorem Use.sound_run {world : World} (begun : Use.start world initial = some use)
    (actions : List (Action World Node))
    : (use.run actions).Sound initial := by
  induction actions using List.reverseRecOn with
  | nil =>
      rw [Use.start] at begun
      split at begun
      · cases begun
      · cases begun
        refine ⟨Wheel.Use.sound_run 0 world [], rfl, ?_, ?_⟩
        · simp [boundaryAt, Timers.ticks, Use.run]
        · intro before happening after split
          cases before <;> cases split
  | append_singleton before action ih =>
      rw [Use.run, List.foldl_append]
      cases action with
      | command command =>
          have after := ih.perform command
          exact ⟨⟨after.wheel.keeps, after.wheel.lawful⟩, after.tick, after.time, after.planned⟩
      | advance now fire =>
          by_cases forward : (use.run before).time ≤ now
          · exact (ih.advance forward).1.sound
          · change (Use.advance now fire (use.run before)).Sound initial
            rw [Use.advance, if_pos (by omega)]
            exact ⟨⟨ih.wheel.keeps, ih.wheel.lawful⟩, ih.tick, ih.time, ih.planned⟩

end Advances

-- Deadlines

section Pursuit

variable {initial deadline : Int} {node : Node} {base after : List (Happening Node Note)}

end Pursuit

def calm : Callback Unit Nat := fun world _ _ _ => (world, [], false)

def throws : Callback Unit Nat := fun world _ _ _ => (world, [], true)

end Astra.Hooks
