import Verdandi.Common.Scope

/-! Readings of the business clock. Times are Unix nanoseconds, as signed 64 bit integers. -/

namespace Astra

namespace Clock

def maximum : Int := 2 ^ 63 - 1

inductive Error where
  | clockUnready
  | invalidTime
  | exhausted
  deriving DecidableEq, Repr

structure Reading where
  time : Int := 0
  uncertainty : Nat := 0
  rtt : Nat := 0
  sampled : Int := 0
  ready : Bool := false
  synchronized : Bool := false
  deriving DecidableEq, Repr

/-- The absolute deadline after `ttl` nanoseconds. -/
def Reading.deadlineAfter (reading : Reading) (ttl : Int) : Except Error Int :=
  if !reading.ready then
    .error .clockUnready
  else if reading.time < 0 ∨ ttl < 0 then
    .error .invalidTime
  else if ttl > maximum - reading.time then
    .error .exhausted
  else
    .ok (reading.time + ttl)

end Clock

end Astra
