import Verdandi.Common.WheelLifecycle
import Verdandi.Star.Agenda

/-! The agenda of a source over its timing wheel. A hook is set for the tick at or after its deadline; one
that is too far away is called at the end of the wheel, and its owner looks at the real deadline then.
-/

namespace Astra

open Support

/-- `Wheel<4, 8>`. -/
def Hooks.shape : Wheel.Shape where
  levels := 4
  bits := 8
  some_levels := by decide
  some_bits := by decide
  narrow := by decide
  whole := by decide

/-- The agenda with its wheel; `tick` is the clock of the wheel at the time. -/
structure Hooks (Node : Type) where
  time : Int
  tick : Nat := 0
  timer : Wheel Node := {}

namespace Hooks

open Agenda (interval)

variable {World Node : Type} [DecidableEq Node]

/-- `time`: the boundary that has been reached, also while hooks are called. -/
def boundary (hooks : Hooks Node) : Int :=
  hooks.time + if hooks.timer.clock = hooks.tick then 0 else interval

/-- How many ticks a deadline is away from a boundary, rounded up. -/
def ticksUntil (boundary deadline : Int) : Nat :=
  let remaining := if deadline > boundary then (deadline - boundary).toNat else 0
  remaining / interval.toNat + if remaining % interval.toNat ≠ 0 then 1 else 0

def delay (boundary deadline : Int) : Nat := min (ticksUntil boundary deadline) shape.limit

-- Callbacks

inductive Command (Node : Type) where
  | set (node : Node) (deadline : Int)
  | erase (node : Node)

/-- `fire`: it is given the boundary, and says what it makes of its world, what it does with the hooks, and
whether it throws then.
-/
def Callback (World Node : Type) : Type :=
  World → Hooks Node → Node → Int → World × List (Command Node) × Bool

/-- What a node is scheduled for: a deadline, or none when it is looked at again because a callback threw. -/
abbrev Note : Type := Option Int

def Command.onWheel (boundary : Int) : Command Node → Wheel.Command Node Note
  | .set node deadline => .schedule node (delay boundary deadline) (some deadline)
  | .erase node => .cancel node

def onFire (time : Int) (tick : Nat) (fire : Callback World Node) : Wheel.Callback World Node Note :=
  fun world timer node =>
    let hooks : Hooks Node := { time, tick, timer }
    let (next, commands, thrown) := fire world hooks node hooks.boundary
    (next,
      commands.map (Command.onWheel hooks.boundary) ++ if thrown then [.schedule node 1 none] else [],
      thrown)

-- Use

structure Use (World Node : Type) extends Wheel.Use World Node Note where
  time : Int
  tick : Nat := 0

def Use.hooks (use : Use World Node) : Hooks Node := { time := use.time, tick := use.tick, timer := use.wheel }

def Use.start (world : World) (initial : Int) : Option (Use World Node) :=
  if initial < 0 then none else some { world, wheel := {}, time := initial }

def Use.perform (use : Use World Node) (command : Command Node) : Use World Node :=
  { use with toUse := use.toUse.perform shape (command.onWheel use.hooks.boundary) }

/-- One tick; the time goes with the wheel, also when a callback throws. -/
def Use.turn (fire : Callback World Node) (use : Use World Node) : Use World Node :=
  let next := use.toUse.tick shape (onFire use.time use.tick fire)
  let hooks : Hooks Node := { time := use.time, tick := use.tick, timer := next.wheel }
  { next with time := hooks.boundary, tick := next.wheel.clock }

def Use.turns (fire : Callback World Node) : Nat → Use World Node → Use World Node
  | 0, use => use
  | count + 1, use =>
      let next := use.turn fire
      if next.thrown then next else Use.turns fire count next

def Use.advance (now : Int) (fire : Callback World Node) (use : Use World Node) : Use World Node :=
  if now < use.time then
    { use with thrown := true }
  else
    Use.turns fire ((now - use.time) / interval).toNat { use with thrown := false }

inductive Action (World Node : Type) where
  | command (command : Command Node)
  | advance (now : Int) (fire : Callback World Node)

def Use.step (use : Use World Node) : Action World Node → Use World Node
  | .command command => { use.perform command with thrown := false }
  | .advance now fire => use.advance now fire

def Use.run (use : Use World Node) (actions : List (Action World Node)) : Use World Node :=
  actions.foldl Use.step use

end Hooks

end Astra
