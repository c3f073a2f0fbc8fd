import Verdandi.Common.Member

/-! Rules that do not depend on a role: which start of a deployment replaces another one, and how
long to wait before the next attempt.
-/

namespace Astra

structure Config where
  galaxy : Bytes
  maxMembers : Nat := 64
  maxInbound : Nat := 128
  maxDials : Nat := 4
  reconnectMin : Nat := 100
  reconnectMax : Nat := 5000
  stableConnection : Nat := 5000

namespace Policy

inductive Direction where
  | outbound
  | inbound
  deriving DecidableEq, Repr

def Direction.opposite : Direction → Direction
  | .outbound => .inbound
  | .inbound => .outbound

/-- Whether a start of a deployment replaces the current one. The deployment itself is bound for
good, and of one start there is only one description.
-/
def supersedes (candidate current : Member) : Result Bool :=
  if candidate.principal ≠ current.principal ∨ candidate.role ≠ current.role
      ∨ candidate.address ≠ current.address ∨ candidate.galaxy ≠ current.galaxy
      ∨ candidate.epoch < current.epoch
      ∨ (candidate.epoch = current.epoch ∧ candidate ≠ current) then
    .error (.conflict "Conflicting or stale member incarnation")
  else
    .ok (current.epoch < candidate.epoch)

/-- The wait after some failures in milliseconds: it doubles up to a bound and is spread around it
by a salt.
-/
def retryDelay (failures : Nat) (config : Config) (salt : Nat) : Nat :=
  let shift := min (failures - 1) 16
  let base := min (config.reconnectMin * 2 ^ shift) config.reconnectMax
  let lower := max (base - base / 4) config.reconnectMin
  let upper := min (base + base / 4) config.reconnectMax
  lower + (salt + failures) % 2 ^ 64 % (upper - lower + 1)

/-- A start that is accepted keeps the deployment, and replaces exactly an older one. -/
theorem supersedes_ok {candidate current : Member} {replace : Bool}
    (accepted : supersedes candidate current = .ok replace)
    : candidate.principal = current.principal ∧ candidate.role = current.role
      ∧ candidate.address = current.address ∧ candidate.galaxy = current.galaxy
      ∧ if replace then current.epoch < candidate.epoch else candidate = current := by
  unfold supersedes at accepted
  split at accepted
  · cases accepted
  rename_i bound
  simp only [not_or, not_and, not_not, Nat.not_lt] at bound
  obtain ⟨principal, role, address, galaxy, onwards, only⟩ := bound
  refine ⟨principal, role, address, galaxy, ?_⟩
  cases accepted
  by_cases later : current.epoch < candidate.epoch
  · simp [later]
  · simpa [later] using only (Nat.le_antisymm (Nat.le_of_not_lt later) onwards)

@[simp]
theorem supersedes_self (member : Member) : supersedes member member = .ok false := by
  simp [supersedes]

end Policy

end Astra
