import Verdandi.Support.Timers

/-! The timing wheel: `levels` levels of `2 ^ bits` buckets each, over a clock of 64 bits. A node is in a
bucket of the level that its remaining time asks for, and goes down when the clock comes to its bucket. A
list of a bucket stands for the chain of its hooks, and unlinking a hook for taking it out of its list.
-/

namespace Astra

open Support

def word : Nat := 2 ^ 64

/-- `std::countr_zero` of a word. -/
def countrZero (value : Nat) : Nat := ((List.range 64).find? fun bit => value.testBit bit).getD 64

structure Wheel.Shape where
  levels : Nat
  bits : Nat
  some_levels : 0 < levels
  some_bits : 0 < bits
  narrow : bits ≤ 10
  whole : levels ≤ 64 / bits

structure Wheel (Node : Type) where
  clock : Nat := 0
  wheels : Nat → Nat → List Node := fun _ _ => []
  ready : List Node := []
  deadline : Node → Nat := fun _ => 0

namespace Wheel

def Shape.slots (shape : Shape) : Nat := 2 ^ shape.bits

def Shape.mask (shape : Shape) : Nat := shape.slots - 1

def Shape.limit (shape : Shape) : Nat := (word - 1) >>> (64 - shape.levels * shape.bits)

variable {Node : Type} [DecidableEq Node]

def cancel (wheel : Wheel Node) (node : Node) : Wheel Node :=
  { wheel with
    wheels := fun level slot => (wheel.wheels level slot).erase node
    ready := wheel.ready.erase node }

def put (wheel : Wheel Node) (level slot : Nat) (bucket : List Node) : Wheel Node :=
  { wheel with
    wheels := Function.update wheel.wheels level (Function.update (wheel.wheels level) slot bucket) }

def insert (shape : Shape) (wheel : Wheel Node) (node : Node) : Wheel Node :=
  let remaining := (wheel.deadline node + word - wheel.clock) % word
  let level := Nat.log2 (remaining ||| 1) / shape.bits
  let slot := wheel.deadline node >>> (level * shape.bits) &&& shape.mask
  wheel.put level slot (node :: wheel.wheels level slot)

def schedule (shape : Shape) (wheel : Wheel Node) (node : Node) (delay : Nat) : Bool × Wheel Node :=
  if delay > shape.limit then
    (false, wheel)
  else
    let idle := wheel.cancel node
    let deadline := (idle.clock + max delay 1) % word
    (true, insert shape { idle with deadline := Function.update idle.deadline node deadline } node)

def spill (shape : Shape) (wheel : Wheel Node) (level : Nat) : Wheel Node :=
  let slot := wheel.clock >>> (level * shape.bits) &&& shape.mask
  (wheel.wheels level slot).foldl (insert shape) (wheel.put level slot [])

/-- Distribute the buckets that the clock has come to, from a level down to the second. -/
def cascade (shape : Shape) (wheel : Wheel Node) : Nat → Wheel Node
  | 0 => wheel
  | level + 1 => cascade shape (wheel.spill shape (level + 1)) level

def turn (shape : Shape) (wheel : Wheel Node) : Wheel Node :=
  let later := { wheel with clock := (wheel.clock + 1) % word }
  let level := min (shape.levels - 1) (countrZero later.clock / shape.bits)
  let spread := later.cascade shape level
  let slot := spread.clock &&& shape.mask
  { spread.put 0 slot [] with ready := spread.wheels 0 slot }

-- Callbacks

/-- What a callback does with the wheel. The note says what a node is scheduled for; nothing depends on it. -/
inductive Command (Node Note : Type) where
  | schedule (node : Node) (delay : Nat) (note : Note)
  | cancel (node : Node)

/-- What a callback makes of its world, what it does with the wheel, and whether it throws then. -/
def Callback (World Node Note : Type) : Type :=
  World → Wheel Node → Node → World × List (Command Node Note) × Bool

/-- A wheel in use: what has happened to its nodes, and whether the last operation threw. -/
structure Use (World Node Note : Type) where
  world : World
  wheel : Wheel Node
  history : List (Happening Node Note) := []
  thrown : Bool := false

variable {World Note : Type}

def Use.perform (shape : Shape) (use : Use World Node Note) : Command Node Note → Use World Node Note
  | .schedule node delay note =>
      match use.wheel.schedule shape node delay with
      | (true, wheel) => { use with wheel, history := use.history ++ [.set node delay note] }
      | (false, wheel) => { use with wheel }
  | .cancel node =>
      { use with wheel := use.wheel.cancel node, history := use.history ++ [.drop node] }

def Use.fire (shape : Shape) (callback : Callback World Node Note) (use : Use World Node Note) (node : Node)
    (rest : List Node)
    : Use World Node Note :=
  let popped := { use.wheel with ready := rest }
  let (world, commands, thrown) := callback use.world popped node
  let begun : Use World Node Note :=
    { world, wheel := popped, history := use.history ++ [.fire node] }
  { commands.foldl (Use.perform shape) begun with thrown }

/-- Take nodes from the ready ones as long as there are some and no callback throws. Callbacks only take
nodes out of them, so there are at most as many rounds as nodes.
-/
def Use.drain (shape : Shape) (callback : Callback World Node Note) : Nat → Use World Node Note → Use World Node Note
  | 0, use => use
  | rounds + 1, use =>
      match use.wheel.ready with
      | [] => use
      | node :: rest =>
          let next := use.fire shape callback node rest
          if next.thrown then next else Use.drain shape callback rounds next

/-- One tick: first what an exception has left, then what falls due. -/
def Use.tick (shape : Shape) (callback : Callback World Node Note) (use : Use World Node Note) : Use World Node Note :=
  let first := Use.drain shape callback use.wheel.ready.length { use with thrown := false }
  if first.thrown then
    first
  else
    let turned : Use World Node Note :=
      { first with wheel := first.wheel.turn shape, history := first.history ++ [.tick] }
    Use.drain shape callback turned.wheel.ready.length turned

inductive Action (World Node Note : Type) where
  | command (command : Command Node Note)
  | tick (callback : Callback World Node Note)

def Use.step (shape : Shape) (use : Use World Node Note) : Action World Node Note → Use World Node Note
  | .command command => { use.perform shape command with thrown := false }
  | .tick callback => use.tick shape callback

def Use.run (shape : Shape) (use : Use World Node Note) (actions : List (Action World Node Note))
    : Use World Node Note :=
  actions.foldl (Use.step shape) use

end Wheel

end Astra
