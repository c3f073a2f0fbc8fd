import Verdandi.Star.Replica

/-! The private task that restores a source from a complete state: it installs one Scope after
the other, defers a Scope that found no room once, and confirms the source at the end. Giving it
up takes back nothing.
-/

namespace Astra

open Support

/-- A task with the Scopes that are left of its round and those that were deferred. -/
structure Restore (Item Failure : Type) where
  draft : Origin.Draft Item
  scopes : List Scope
  deferred : List Scope := []
  retried : Bool := false
  failure : Option Failure := none
  done : Bool := false

namespace Restore

variable {Item Failure : Type}

def active (restore : Restore Item Failure) : Bool := restore.failure.isNone && !restore.done

/-- A Scope was installed, or was not: for want of room it is deferred, but once only. What an
exception leaves is tried again.
-/
def installed [DecidableEq Failure] (capacity : Failure) (restore : Restore Item Failure)
    (reply : Answer Failure Unit)
    : Restore Item Failure :=
  match restore.scopes with
  | [] => restore
  | scope :: rest =>
      match reply with
      | .ok () => { restore with scopes := rest }
      | .error failure =>
          if failure ≠ capacity ∨ restore.retried then
            { restore with failure := some failure }
          else
            { restore with scopes := rest, deferred := restore.deferred ++ [scope] }
      | .thrown _ => restore

def again (restore : Restore Item Failure) : Restore Item Failure :=
  { restore with scopes := restore.deferred, deferred := [], retried := true }

def finished (restore : Restore Item Failure) (reply : Answer Failure Unit)
    : Restore Item Failure :=
  match reply with
  | .ok () => { restore with done := true }
  | .error failure => { restore with failure := some failure }
  | .thrown _ => restore

def left (restore : Restore Item Failure) : List Scope := restore.scopes ++ restore.deferred

variable {restore : Restore Item Failure}

@[simp]
theorem draft_finished (reply : Answer Failure Unit)
    : (restore.finished reply).draft = restore.draft := by
  cases reply <;> rfl

@[simp]
theorem left_finished (reply : Answer Failure Unit)
    : (restore.finished reply).left = restore.left := by
  cases reply <;> rfl

@[simp]
theorem left_again (done : restore.scopes = []) : restore.again.left = restore.left := by
  simp [again, left, done]

variable [DecidableEq Failure] {capacity : Failure}

@[simp]
theorem draft_installed (reply : Answer Failure Unit)
    : (restore.installed capacity reply).draft = restore.draft := by
  unfold installed
  split
  · rfl
  · split
    · rfl
    · split <;> rfl
    · rfl

/-- Only a Scope that was installed is left no more. -/
theorem mem_left_installed {reply : Answer Failure Unit} {scope : Scope}
    (listed : scope ∈ restore.left)
    : scope ∈ (restore.installed capacity reply).left
      ∨ (reply = .ok () ∧ restore.scopes.head? = some scope) := by
  unfold installed
  unfold left at listed
  split
  · exact .inl listed
  rename_i first rest isScopes
  rw [isScopes] at listed
  split
  · rcases List.mem_cons.mp listed with rfl | later
    · exact .inr ⟨rfl, by rw [isScopes]; rfl⟩
    · exact .inl later
  · split
    · left
      change scope ∈ restore.scopes ++ restore.deferred
      rw [isScopes]
      exact listed
    · left
      change scope ∈ rest ++ (restore.deferred ++ [first])
      rcases List.mem_cons.mp listed with rfl | later
      · simp
      · rcases List.mem_append.mp later with inRest | inDeferred
        · simp [inRest]
        · simp [inDeferred]
  · left
    change scope ∈ restore.scopes ++ restore.deferred
    rw [isScopes]
    exact listed

end Restore

end Astra
