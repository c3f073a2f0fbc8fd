import Verdandi.Star.Catalog.Restoring
import Verdandi.Star.Ephemeris.Restoring

/-! Complete states of both domains: a source is confirmed only when all Scopes are installed, the old
ones as well as the new ones.
-/

namespace Astra

open Support

/-- The Scopes that a task begins with are those of the copy and those of the complete state. -/
theorem mem_union {old new : List Scope} {scope : Scope} (listed : scope ∈ old ++ new)
    : scope ∈ ((old ++ new).mergeSort Scope.before).dedup := by
  rw [List.mem_dedup, List.mem_mergeSort]
  exact listed

variable {state : State} {id : Bytes} {draft : Origin.Draft Record} {scopes : List Scope}
variable {replica : Replica Record Error}

private def plainLayout : Ephemeris.Layout where
  record := 1
  content := 1
  name := 1
  fact := 1
  event := 1

end Astra
