import Verdandi.Common.Scope
import Verdandi.Support.Assoc

/-! The Almanac of one Scope: whole replacements at an authoritative version, and single
key patches that advance the version by exactly one.
-/

namespace Astra

open Support

namespace Almanac

/-- Why an Almanac refuses an operation; a refused operation changes nothing. -/
inductive Error where
  | input
  | capacity
  | duplicate
  | version
  | unready
  | history
  deriving DecidableEq, Repr

structure Limits where
  records : Nat := 65536
  bytes : Nat := 64 * 1024 * 1024
  history : Nat := 1000
  backlog : Nat := 8 * 1024 * 1024
  deriving DecidableEq, Repr

/-- One authoritative commit. A present key without a value is a Delete; an absent key
announces the replacement of the whole Scope.
-/
structure Change where
  key : Option Bytes
  value : Option Bytes
  version : Nat
  deriving DecidableEq, Repr

def Change.name (change : Change) : Bytes :=
  change.key.getD []

/-- `sizeof(Change)`: two shared pointers and one word. -/
def Change.overhead : Nat := 40

def Change.bytes (change : Change) : Nat :=
  Change.overhead + change.name.length + (change.value.getD []).length

/-- The content of one Scope: the lookup table and the shared page index hold the same
records, so one map stands for both.
-/
structure State where
  entries : Assoc Bytes Bytes := ∅
  version : Nat := 0
  bytes : Nat := 0

structure Draft where
  state : State
  limits : Limits

structure Usage where
  bytes : Nat
  history : Nat
  version : Option Nat

def valid (key : Bytes) (value : Option Bytes) : Bool :=
  !key.isEmpty && key.length ≤ 1024 && !key.contains 0 && (value.getD []).length ≤ 1024 * 1024

end Almanac

/-- The replica of one Scope; `ready` only after a first whole installation. -/
structure Almanac where
  limits : Almanac.Limits
  state : Almanac.State := {}
  ready : Bool := false
  history : List Almanac.Change := []
  historyBytes : Nat := 0

namespace Almanac

-- Operations

def usage (book : Almanac) : Usage where
  bytes := book.state.bytes
  history := book.historyBytes
  version := if book.ready then some book.state.version else none

/-- An empty candidate at `version`, with the limits of the book it is meant for. -/
def prepare (book : Almanac) (version : Nat) : Draft where
  state := { version }
  limits := book.limits

def Draft.set (draft : Draft) (key value : Bytes) : Except Error Draft :=
  if !valid key (some value) then
    .error .input
  else if draft.state.version = 0 then
    .error .version
  else if draft.state.entries.contains key then
    .error .duplicate
  else
    let bytes := key.length + value.length
    if draft.state.entries.size ≥ draft.limits.records
        ∨ bytes > draft.limits.bytes - draft.state.bytes then
      .error .capacity
    else
      .ok { draft with
        state :=
          { draft.state with
            entries := draft.state.entries.set key value
            bytes := draft.state.bytes + bytes } }

/-- Install a complete candidate. `none` is the source's `false`: the version is installed
already and nothing changes.
-/
def reset (book : Almanac) (draft : Draft) : Except Error (Option Almanac) :=
  if draft.state.entries.size > book.limits.records ∨ draft.state.bytes > book.limits.bytes then
    .error .capacity
  else if book.ready ∧ draft.state.version < book.state.version then
    .error .version
  else if book.ready ∧ draft.state.version = book.state.version then
    .ok none
  else
    .ok (some
      { book with state := draft.state, ready := true, history := [], historyBytes := 0 })

/-- Drop the oldest items until both history budgets hold. `backlog` is the cost of the
whole list.
-/
def evict (count budget : Nat) : List Change → Nat → List Change × Nat
  | [], backlog => ([], backlog)
  | oldest :: rest, backlog =>
      if rest.length + 1 > count ∨ backlog > budget then
        evict count budget rest (backlog - oldest.bytes)
      else
        (oldest :: rest, backlog)

/-- Commit the patch of the next version. `none` is the source's `false` for a version at
or below the installed one; otherwise the committed change is returned with the book.
-/
def apply (book : Almanac) (version : Nat) (key : Bytes) (value : Option Bytes) (retention : Nat)
    : Except Error (Option (Almanac × Change)) :=
  if !valid key value then
    .error .input
  else if version = 0 then
    .error .version
  else if !book.ready then
    .error .unready
  else if version ≤ book.state.version then
    .ok none
  else if book.state.version = maxWord ∨ version ≠ book.state.version + 1 then
    .error .version
  else
    let old := book.state.entries.get? key
    let base := book.state.bytes - (old.elim 0 fun previous => key.length + previous.length)
    let added := value.elim 0 fun fresh => key.length + fresh.length
    if value.isSome
        ∧ ((old.isNone ∧ book.state.entries.size ≥ book.limits.records)
          ∨ added > book.limits.bytes - base) then
      .error .capacity
    else
      let change : Change := { key := some key, value, version }
      if change.bytes > maxWord - book.historyBytes ∨ book.history.length = maxWord then
        .error .capacity
      else
        let (history, backlog) :=
          evict book.limits.history (min book.limits.backlog retention)
            (book.history ++ [change]) (book.historyBytes + change.bytes)
        .ok (some (
          { book with
            state :=
              { entries := book.state.entries.amend key value
                version
                bytes := base + added }
            history
            historyBytes := backlog },
          change))

def view (book : Almanac) : Except Error State :=
  if book.ready then .ok book.state else .error .unready

def find (book : Almanac) (key : Bytes) : Except Error (Nat × Option Bytes) :=
  if !valid key none then
    .error .input
  else if !book.ready then
    .error .unready
  else
    .ok (book.state.version, book.state.entries.get? key)

/-- The complete history after `since`. The history is ordered by version, so the binary
search of the source keeps the items above `since`.
-/
def replay (book : Almanac) (since : Nat) : Except Error (Nat × List Change) :=
  if !book.ready then
    .error .unready
  else if since > book.state.version then
    .error .version
  else if since = book.state.version then
    .ok (book.state.version, [])
  else
    match book.history with
    | [] => .error .history
    | oldest :: rest =>
        if since < oldest.version - 1 then
          .error .history
        else
          .ok (book.state.version, (oldest :: rest).dropWhile (·.version ≤ since))

-- What a successful operation does

variable {draft next : Draft} {key value : Bytes}

/-- A candidate that took a record holds exactly one more entry, for a key it did not have.
-/
theorem Draft.set_ok (accepted : draft.set key value = .ok next)
    : next.state.version = draft.state.version ∧ draft.state.entries.get? key = none
      ∧ next.state.entries = draft.state.entries.set key value
      ∧ next.limits = draft.limits := by
  unfold Draft.set at accepted
  split at accepted
  · cases accepted
  split at accepted
  · cases accepted
  split at accepted
  · cases accepted
  rename_i absent
  have fresh : draft.state.entries.get? key = none := by
    rw [← Assoc.contains_eq_false_iff]
    simpa using absent
  dsimp only at accepted
  split at accepted
  · cases accepted
  · cases accepted
    exact ⟨rfl, fresh, rfl, rfl⟩

/-- A candidate at version zero takes no record. -/
theorem Draft.version_of_set (accepted : draft.set key value = .ok next)
    : draft.state.version ≠ 0 := by
  unfold Draft.set at accepted
  split at accepted
  · cases accepted
  split at accepted
  · cases accepted
  next nonzero => exact nonzero

variable {book : Almanac}

/-- An installed candidate becomes the whole content and empties the history; it was newer
than what the book held, if the book held anything.
-/
theorem reset_some {next : Almanac} (installed : book.reset draft = .ok (some next))
    : next.state = draft.state ∧ next.ready = true ∧ next.history = [] ∧ next.historyBytes = 0
      ∧ next.limits = book.limits
      ∧ (book.ready = true → book.state.version < draft.state.version) := by
  unfold reset at installed
  split at installed
  · cases installed
  split at installed
  · cases installed
  rename_i notOlder
  split at installed
  · cases installed
  rename_i notSame
  cases installed
  refine ⟨rfl, rfl, rfl, rfl, rfl, fun ready => ?_⟩
  simp only [ready, true_and] at notOlder notSame
  omega

/-- Everything a committed patch does to a book: the version advances by one, one key takes
the value of the patch, and the history is the old one with the change appended, less an
evicted prefix.
-/
structure Patched (book next : Almanac) (version : Nat) (key : Bytes)
    (value : Option Bytes) (change : Change)
    : Prop where
  wasReady : book.ready = true
  isReady : next.ready = true
  follows : version = book.state.version + 1
  advanced : next.state.version = version
  unexhausted : book.state.version ≠ maxWord
  entries : next.state.entries = book.state.entries.amend key value
  committed : change = { key := some key, value, version }
  history : next.history <:+ book.history ++ [change]
  limits : next.limits = book.limits

/-- Eviction keeps a suffix. Witness: induction over the list. -/
theorem evict_suffix (count budget : Nat) (items : List Change) (backlog : Nat)
    : (evict count budget items backlog).1 <:+ items := by
  induction items generalizing backlog with
  | nil => exact List.suffix_rfl
  | cons oldest rest ih =>
      unfold evict
      split
      · exact (ih _).trans (List.suffix_cons _ _)
      · exact List.suffix_rfl

variable {version retention : Nat}

/-- A committed patch meets `Patched`. Witness: the single branch of `apply` that commits.
-/
theorem apply_some {next : Almanac} {value : Option Bytes} {change : Change}
    (applied : book.apply version key value retention = .ok (some (next, change)))
    : Patched book next version key value change := by
  unfold apply at applied
  split at applied
  · cases applied
  split at applied
  · cases applied
  split at applied
  · cases applied
  rename_i ready
  split at applied
  · cases applied
  split at applied
  · cases applied
  rename_i expected
  dsimp only at applied
  split at applied
  · cases applied
  split at applied
  · cases applied
  · cases applied
    simp only [Bool.not_eq_true', Bool.not_eq_false] at ready
    simp only [not_or, not_not] at expected
    exact {
      wasReady := ready
      isReady := ready
      follows := expected.2
      advanced := rfl
      unexhausted := expected.1
      entries := rfl
      committed := rfl
      history := evict_suffix _ _ _ _
      limits := rfl
    }

/-- A replayed patch is at or below the installed version. -/
theorem apply_none {value : Option Bytes}
    (replayed : book.apply version key value retention = .ok none)
    : book.ready = true ∧ version ≤ book.state.version := by
  unfold apply at replayed
  split at replayed
  · cases replayed
  split at replayed
  · cases replayed
  split at replayed
  · cases replayed
  rename_i ready
  split at replayed
  next old =>
    simp only [Bool.not_eq_true', Bool.not_eq_false] at ready
    exact ⟨ready, old⟩
  split at replayed
  · cases replayed
  dsimp only at replayed
  split at replayed
  · cases replayed
  split at replayed <;> cases replayed

end Almanac

end Astra
