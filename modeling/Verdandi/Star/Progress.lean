import Verdandi.Support.Timeline
import Verdandi.Common.Scope

/-! The progress of one Scope as its watch streams see it: which commits were announced
while the group existed, and the newest boundary that no batch of changes may cross.
-/

namespace Astra.Progress

open Support

structure Group where
  first : Option Nat := none
  version : Nat := 0
  reset : Option Nat := none
  deriving DecidableEq, Repr

/-- Whether everything announced since `baseline` was a gapless sequence of changes. -/
def Group.covers (group : Group) (baseline : Nat) : Bool :=
  group.reset.all (· ≤ baseline)
    && group.first.all fun first => decide (baseline = maxWord ∨ first ≤ baseline + 1)

def publish (group : Group) (version : Nat) (replacement : Bool) : Group where
  first := group.first.or (some version)
  version := version
  reset :=
    if replacement
        ∨ (group.first.isSome ∧ (group.version = maxWord ∨ version ≠ group.version + 1)) then
      some version
    else
      group.reset

-- What a group knows of the announced commits

variable {K V : Type}

/-- A group is at the newest announced version, or nothing was announced to it. -/
def Current (group : Group) (told : List (Commit K V)) : Prop :=
  (group.first = none ∧ group.version = 0) ∨ group.version = Timeline.version told

/-- The group remembers every replacement since `low`. -/
def Heard (group : Group) (told : List (Commit K V)) (low : Nat) : Prop :=
  ∀ commit ∈ told, low < commit.version → commit.change = none
    → ∃ reset, group.reset = some reset ∧ commit.version ≤ reset

theorem Heard.later {group : Group} {told : List (Commit K V)} {low later : Nat}
    (heard : Heard group told low) (above : low ≤ later)
    : Heard group told later :=
  fun commit member beyond => heard commit member (by omega)

variable {group : Group} {told : List (Commit K V)} {low : Nat}

/-- Nothing has to be remembered at the newest version. -/
theorem Heard.newest [DecidableEq K] (valid : Timeline.Valid told)
    (within : Timeline.version told ≤ low)
    : Heard group told low := by
  intro commit member above
  have := Timeline.le_version valid member
  omega

/-- A covered baseline has seen changes alone since then. -/
theorem Heard.patched {baseline : Nat} (heard : Heard group told low) (above : low ≤ baseline)
    (covers : group.covers baseline = true) (high : Nat)
    : Timeline.Patched told baseline high := by
  intro commit member beyond _ replaced
  obtain ⟨reset, stored, newer⟩ := heard commit member (by omega) replaced
  simp only [Group.covers, stored, Option.all_some, Bool.and_eq_true, decide_eq_true_eq] at covers
  omega

/-- Announcing keeps what the group remembers. Witness: the boundary only moves to the newest
version, which is above all older ones.
-/
theorem Heard.publish [DecidableEq K] {commit : Commit K V} (heard : Heard group told low)
    (valid : Timeline.Valid (commit :: told))
    : Heard (Progress.publish group commit.version commit.change.isNone) (commit :: told) low := by
  intro other member above replaced
  unfold Progress.publish
  dsimp only
  split
  · exact ⟨_, rfl, Timeline.le_version valid member⟩
  rename_i quiet
  rcases List.mem_cons.mp member with same | old
  · subst same
    exact absurd (Or.inl (by simp [replaced])) quiet
  · exact heard other old above replaced

theorem current_publish (group : Group) (told : List (Commit K V)) (commit : Commit K V)
    : Current (publish group commit.version commit.change.isNone) (commit :: told) :=
  .inr rfl

end Astra.Progress
