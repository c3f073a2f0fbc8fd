import Verdandi.Star.Library

/-! Runs of the Almanac table: candidates are prepared, filled and installed and patches are
applied in any order. Every book follows its own log, and the totals are those of the books.
-/

namespace Astra

open Support

namespace Almanac

-- What a patch does to the totals of a book

def cost (key value : Bytes) : Nat :=
  key.length + value.length

def backlog (history : List Change) : Nat :=
  (history.map Change.bytes).sum

/-- The counters of a book are those of its content and of its history, within its limits. -/
structure Counted (book : Almanac) : Prop where
  bytes : book.state.bytes = book.state.entries.weight cost
  history : book.historyBytes = backlog book.history
  records_le : book.state.entries.size ≤ book.limits.records
  bytes_le : book.state.bytes ≤ book.limits.bytes
  history_le : book.history.length ≤ book.limits.history
  backlog_le : book.historyBytes ≤ book.limits.backlog

/-- Eviction keeps the cost of what it keeps, and both budgets hold afterwards, by induction on
the history. -/
theorem evict_counted (count budget : Nat) (items : List Change)
    : (evict count budget items (backlog items)).2
        = backlog (evict count budget items (backlog items)).1
      ∧ (evict count budget items (backlog items)).1.length ≤ count
      ∧ (evict count budget items (backlog items)).2 ≤ budget := by
  induction items with
  | nil => simp [evict, backlog]
  | cons oldest rest ih =>
      have less : backlog (oldest :: rest) - oldest.bytes = backlog rest := by
        simp [backlog]
      by_cases exceeds : rest.length + 1 > count ∨ backlog (oldest :: rest) > budget
      · simpa only [evict, exceeds, if_true, less] using ih
      · simp only [evict, exceeds, if_false, List.length_cons, true_and]
        omega

/-- What the content weighs after one key was set or dropped. -/
theorem weight_amend (entries : Assoc Bytes Bytes) (key : Bytes) (value : Option Bytes)
    : (entries.amend key value).weight cost + ((entries.get? key).elim 0 (cost key))
      = entries.weight cost + value.elim 0 (cost key) := by
  cases held : entries.get? key with
  | none =>
      cases value with
      | none => simp [Assoc.amend, Assoc.remove_of_none held]
      | some fresh =>
          have added := Assoc.weight_set_of_none held cost fresh
          simp only [Assoc.amend, Option.elim_none, Option.elim_some]
          omega
  | some old =>
      cases value with
      | none => simpa [Assoc.amend] using Assoc.weight_remove_of_some held cost
      | some fresh => simpa [Assoc.amend] using Assoc.weight_set_of_some held cost fresh

theorem size_amend_le (entries : Assoc Bytes Bytes) (key : Bytes) (value : Option Bytes)
    : (entries.amend key value).size
      ≤ entries.size + if value.isSome ∧ entries.get? key = none then 1 else 0 := by
  cases value with
  | none =>
      cases held : entries.get? key with
      | none => simp [Assoc.amend, Assoc.remove_of_none held]
      | some old =>
          have less := Assoc.size_remove_of_some held
          simp only [Assoc.amend]
          omega
  | some fresh =>
      cases held : entries.get? key with
      | none => simp [Assoc.amend, Assoc.size_set_of_none held fresh]
      | some old => simp [Assoc.amend, Assoc.size_set_of_some held fresh]

/-- The totals after a patch. No record weighs more than the content it is taken from. -/
structure Charged (book next : Almanac) (key : Bytes) (value : Option Bytes) (retention : Nat)
    : Prop where
  counted : next.Counted
  retained : next.historyBytes ≤ retention
  removed_le : (book.state.entries.get? key).elim 0 (cost key) ≤ book.state.bytes
  bytes : next.state.bytes = book.state.bytes - (book.state.entries.get? key).elim 0 (cost key)
      + value.elim 0 (cost key)

variable {book next : Almanac} {key : Bytes} {value : Option Bytes} {change : Change}

/-- A committed patch meets `Charged`. Witness: the branch of `apply` that commits. -/
theorem apply_charged {version : Nat} {retention : Nat} (counted : book.Counted)
    (applied : book.apply version key value retention = .ok (some (next, change)))
    : Charged book next key value retention := by
  have removed : (book.state.entries.get? key).elim 0 (cost key) ≤ book.state.bytes := by
    have bytes := counted.bytes
    cases held : book.state.entries.get? key with
    | none => simp
    | some old =>
        have light := Assoc.le_weight held cost
        simp only [Option.elim_some]
        omega
  simp only [apply] at applied
  split at applied
  · cases applied
  split at applied
  · cases applied
  split at applied
  · cases applied
  split at applied
  · cases applied
  split at applied
  · cases applied
  split at applied
  · cases applied
  rename_i roomy
  split at applied
  · cases applied
  · simp only [Except.ok.injEq, Option.some.injEq, Prod.mk.injEq] at applied
    obtain ⟨rfl, rfl⟩ := applied
    have weighed := weight_amend book.state.entries key value
    have sized := size_amend_le book.state.entries key value
    have bytes := counted.bytes
    have records := counted.records_le
    have bytesBound := counted.bytes_le
    have total : book.historyBytes + ({ key := some key, value, version : Change } : Change).bytes
        = backlog (book.history ++ [{ key := some key, value, version }]) := by
      simp [backlog, counted.history]
    simp only [total]
    obtain ⟨summed, few, light⟩ := evict_counted book.limits.history
      (min book.limits.backlog retention)
      (book.history ++ [{ key := some key, value, version }])
    have within : value.isSome
        → (book.state.entries.get? key = none → book.state.entries.size < book.limits.records)
          ∧ value.elim 0 (cost key) ≤ book.limits.bytes
            - (book.state.bytes - (book.state.entries.get? key).elim 0 (cost key)) := by
      intro isSet
      simp only [isSet, true_and, not_or, not_and, Option.isNone_iff_eq_none, not_le,
        not_lt] at roomy
      exact roomy
    refine ⟨⟨?_, summed, ?_, ?_, few, ?_⟩, ?_, removed, rfl⟩
    · show book.state.bytes - (book.state.entries.get? key).elim 0 (cost key)
          + value.elim 0 (cost key) = (book.state.entries.amend key value).weight cost
      omega
    · show (book.state.entries.amend key value).size ≤ book.limits.records
      by_cases new : value.isSome ∧ book.state.entries.get? key = none
      · have free := (within new.1).1 new.2
        simp only [new, and_self, if_true] at sized
        omega
      · simp only [new, if_false] at sized
        omega
    · show book.state.bytes - (book.state.entries.get? key).elim 0 (cost key)
          + value.elim 0 (cost key) ≤ book.limits.bytes
      cases value with
      | none =>
          simp only [Option.elim_none]
          omega
      | some fresh =>
          have fits := (within rfl).2
          omega
    · show (evict _ _ _ _).2 ≤ book.limits.backlog
      omega
    · show (evict _ _ _ _).2 ≤ retention
      omega

/-- A candidate's bytes are those of its content, within the limits it was made for. -/
structure Draft.Counted (draft : Draft) : Prop where
  bytes : draft.state.bytes = draft.state.entries.weight cost
  records_le : draft.state.entries.size ≤ draft.limits.records
  bytes_le : draft.state.bytes ≤ draft.limits.bytes

theorem Draft.Counted.set {draft next : Draft} {key value : Bytes} (counted : draft.Counted)
    (accepted : draft.set key value = .ok next)
    : next.Counted ∧ next.state.bytes = draft.state.bytes + cost key value := by
  simp only [Draft.set] at accepted
  split at accepted
  · cases accepted
  split at accepted
  · cases accepted
  split at accepted
  · cases accepted
  rename_i absent
  split at accepted
  · cases accepted
  rename_i roomy
  simp only [Except.ok.injEq] at accepted
  subst accepted
  have fresh : draft.state.entries.get? key = none := by
    simpa [Assoc.contains_eq_false_iff] using absent
  have weighed := Assoc.weight_set_of_none fresh cost value
  have sized := Assoc.size_set_of_none fresh value
  have bytes := counted.bytes
  have bytesBound := counted.bytes_le
  simp only [not_or, not_le, not_lt] at roomy
  have costEq : cost key value = key.length + value.length := rfl
  refine ⟨⟨?_, ?_, ?_⟩, rfl⟩
  · simp only [weighed]
    omega
  · simp only [sized]
    omega
  · simp only
    omega

/-- An installed candidate brings its counters with it. -/
theorem reset_counted {draft : Draft} (counted : draft.Counted)
    (installed : book.reset draft = .ok (some next)) : next.Counted := by
  have fits : draft.state.entries.size ≤ book.limits.records
      ∧ draft.state.bytes ≤ book.limits.bytes := by
    simp only [reset] at installed
    split at installed
    · cases installed
    rename_i fits
    simp only [not_or, not_lt] at fits
    exact fits
  obtain ⟨state, _, history, historyBytes, limits, _⟩ := reset_some installed
  refine ⟨?_, ?_, ?_, ?_, ?_, ?_⟩
  · simpa only [state] using counted.bytes
  · simp [historyBytes, history, backlog]
  · simpa only [state, limits] using fits.1
  · simpa only [state, limits] using fits.2
  · simp [history]
  · simp [historyBytes]

-- The log of a book

structure Kept where
  base : Bytes → Option Bytes
  start : Nat
  patches : List (Bytes × Option Bytes) := []

def Kept.content (kept : Kept) : Bytes → Option Bytes :=
  kept.patches.foldl (fun content patch => Function.update content patch.1 patch.2) kept.base

def Kept.version (kept : Kept) : Nat :=
  kept.start + kept.patches.length

def Kept.changes (kept : Kept) : List Change :=
  kept.patches.mapIdx fun place patch =>
    { key := some patch.1, value := patch.2, version := kept.start + place + 1 }

def Kept.patch (kept : Kept) (key : Bytes) (value : Option Bytes) : Kept :=
  { kept with patches := kept.patches ++ [(key, value)] }

@[simp]
theorem Kept.content_patch (kept : Kept) (key : Bytes) (value : Option Bytes)
    : (kept.patch key value).content = Function.update kept.content key value := by
  simp [Kept.content, Kept.patch]

@[simp]
theorem Kept.version_patch (kept : Kept) (key : Bytes) (value : Option Bytes)
    : (kept.patch key value).version = kept.version + 1 := by
  simp [Kept.version, Kept.patch]
  omega

@[simp]
theorem Kept.changes_patch (kept : Kept) (key : Bytes) (value : Option Bytes)
    : (kept.patch key value).changes
      = kept.changes ++ [{ key := some key, value, version := kept.version + 1 }] := by
  simp [Kept.changes, Kept.patch, Kept.version, List.mapIdx_append]

/-- The content, the version and the history of a book are those of its log; only a prefix of
the history may be gone. -/
structure Logged (book : Almanac) (kept : Kept) : Prop where
  ready : book.ready = true
  content : book.state.entries.get? = kept.content
  version : book.state.version = kept.version
  history : book.history <:+ kept.changes

variable {since : Nat} {changes : List Change}

/-- Versions that count up from `base`: what is above a version is a suffix. -/
theorem dropWhile_versions {base : Nat}
    (counting : ∀ place change, changes[place]? = some change → change.version = base + place + 1)
    (above : base ≤ since)
    : changes.dropWhile (fun change => decide (change.version ≤ since))
      = changes.drop (since - base) := by
  induction changes generalizing base with
  | nil => simp
  | cons first rest ih =>
      have isFirst := counting 0 first rfl
      by_cases covered : first.version ≤ since
      · obtain ⟨more, isMore⟩ : ∃ more, since - base = more + 1 := ⟨since - base - 1, by omega⟩
        have onward := @ih (base + 1) (fun place change found => by
          have next := counting (place + 1) change (by simpa using found)
          omega) (by omega)
        have fewer : since - (base + 1) = more := by omega
        simp only [List.dropWhile_cons, covered, decide_true, if_true, onward, isMore,
          List.drop_succ_cons, fewer]
      · have none_ : since - base = 0 := by omega
        simp [covered, none_]

theorem Kept.length_changes (kept : Kept) : kept.changes.length = kept.patches.length := by
  simp [Kept.changes]

variable {kept : Kept}

/-- The change at a place has the version of this place. -/
theorem Kept.version_of_change {place : Nat} (found : kept.changes[place]? = some change) : change.version = kept.start + place + 1 := by
  simp only [Kept.changes, List.getElem?_mapIdx, Option.map_eq_some_iff] at found
  obtain ⟨patch, _, rfl⟩ := found
  rfl

/-- A replay gives the installed version and exactly the patches above the requested one: they
all belong to what was installed last as a whole. -/
theorem Logged.replay (logged : Logged book kept) {version : Nat}
    (replayed : book.replay since = .ok (version, changes))
    : version = kept.version ∧ kept.start ≤ since ∧ since ≤ kept.version
      ∧ changes = kept.changes.drop (since - kept.start) := by
  have isVersion := logged.version
  have long := kept.length_changes
  have whole : kept.version = kept.start + kept.patches.length := rfl
  simp only [Almanac.replay] at replayed
  split at replayed
  · cases replayed
  split at replayed
  · cases replayed
  split at replayed
  next current =>
    simp only [Except.ok.injEq, Prod.mk.injEq] at replayed
    obtain ⟨rfl, rfl⟩ := replayed
    refine ⟨isVersion, by omega, by omega, ?_⟩
    simp [List.drop_eq_nil_of_le (by omega : kept.changes.length ≤ since - kept.start)]
  rename_i behind
  split at replayed
  · cases replayed
  rename_i oldest rest stored
  split at replayed
  · cases replayed
  rename_i retained
  simp only [Except.ok.injEq, Prod.mk.injEq] at replayed
  obtain ⟨rfl, rfl⟩ := replayed
  obtain ⟨evicted, isSuffix⟩ := logged.history
  have counting (place : Nat) (change : Change) (found : (oldest :: rest)[place]? = some change)
      : change.version = kept.start + evicted.length + place + 1 := by
    have inside : kept.changes[evicted.length + place]? = some change := by
      simp only [← isSuffix, stored, List.getElem?_append_right (Nat.le_add_right _ _),
        Nat.add_sub_cancel_left, found]
    have isPlace := Kept.version_of_change inside
    omega
  have isOldest := counting 0 oldest rfl
  have dropped := dropWhile_versions counting (by omega : _ ≤ since)
  refine ⟨isVersion, by omega, by omega, ?_⟩
  have split : since - kept.start = evicted.length + (since - (kept.start + evicted.length)) := by
    omega
  simp only [dropped, ← isSuffix, stored, split, List.drop_append, Nat.add_sub_cancel_left]
  simp [List.drop_eq_nil_of_le (Nat.le_add_right evicted.length _)]

/-- A committed patch is logged. -/
theorem Logged.patched (logged : Logged book kept) {version : Nat}
    (patched : Patched book next version key value change)
    : Logged next (kept.patch key value) := by
  have isVersion : version = kept.version + 1 := by
    have follows := patched.follows
    simpa only [logged.version] using follows
  refine ⟨patched.isReady, ?_, ?_, ?_⟩
  · funext other
    simp only [patched.entries, Assoc.get?_amend, Kept.content_patch, Function.update_apply,
      logged.content]
  · simp only [patched.advanced, Kept.version_patch, isVersion]
  · simp only [Kept.changes_patch]
    have grown := logged.history
    have committed : change = { key := some key, value, version := kept.version + 1 } := by
      simpa only [isVersion] using patched.committed
    obtain ⟨evicted, isSuffix⟩ := grown
    have joined : book.history ++ [change]
        <:+ kept.changes ++ [{ key := some key, value, version := kept.version + 1 }] :=
      ⟨evicted, by simp only [← List.append_assoc, isSuffix, committed]⟩
    exact patched.history.trans joined

/-- A patch that is done is the next version; one that is not newer than the log does nothing,
any other version fails. -/
theorem Logged.apply (logged : Logged book kept) (version : Nat) (key : Bytes)
    (value : Option Bytes) (retention : Nat)
    : (∀ next change, book.apply version key value retention = .ok (some (next, change))
        → version = kept.version + 1)
      ∧ (book.apply version key value retention = .ok none → version ≤ kept.version) := by
  refine ⟨fun next change applied => ?_, fun replayed => ?_⟩
  · simpa only [logged.version] using (apply_some applied).follows
  · simpa only [logged.version] using (apply_none replayed).2

end Almanac

namespace Library

-- Calls

/-- A call on the table. Candidates are named by the order of their creation. The last three
are calls whose allocation fails half way, after the new entry was made. -/
inductive Call where
  | prepare (scope : Scope) (version : Nat)
  | set (candidate : Nat) (key value : Bytes)
  | reset (candidate : Nat)
  | apply (scope : Scope) (version : Nat) (key : Bytes) (value : Option Bytes)
  | interruptSet (candidate : Nat) (key : Bytes)
  | interruptReset (candidate : Nat)
  | interruptApply (scope : Scope) (key : Bytes)

inductive Outcome where
  | done
  | already
  | refused (error : Almanac.Error)
  | thrown
  deriving DecidableEq

structure World where
  library : Library
  candidates : Nat → Option Draft := fun _ => none
  opened : Nat := 0

end Library

def Almanac.State.undone (state : Almanac.State) (key : Bytes) : Almanac.State :=
  if state.entries.contains key then state
  else { state with entries := (state.entries.set key []).remove key }

namespace Library

def interruptApply (library : Library) (scope : Scope) (key : Bytes) : Library :=
  match library.books.get? scope with
  | none => library
  | some book =>
      let almanac := { book.almanac with state := book.almanac.state.undone key }
      { library with books := library.books.set scope { book with almanac } }

def interruptReset (library : Library) (draft : Draft) : Library :=
  match library.books.get? draft.scope with
  | some _ => library
  | none =>
      let book : Book := { id := draft.book, almanac := library.blank }
      { library with books := (library.books.set draft.scope book).remove draft.scope }

def World.step (world : World) : Call → World × Outcome
  | .prepare scope version =>
      match world.library.prepare scope version with
      | .error error => (world, .refused error)
      | .ok (library, draft) =>
          ({ library
             candidates := Function.update world.candidates world.opened (some draft)
             opened := world.opened + 1 }, .done)
  | .set candidate key value =>
      match world.candidates candidate with
      | none => (world, .refused .input)
      | some draft =>
          match draft.set key value with
          | .error error => (world, .refused error)
          | .ok next =>
              ({ world with
                  candidates := Function.update world.candidates candidate (some next) }, .done)
  | .reset candidate =>
      match world.candidates candidate with
      | none => (world, .refused .input)
      | some draft =>
          match world.library.reset draft with
          | .error error => (world, .refused error)
          | .ok none => (world, .already)
          | .ok (some (library, _)) =>
              ({ world with
                  library
                  candidates := Function.update world.candidates candidate none }, .done)
  | .apply scope version key value =>
      match world.library.apply scope version key value with
      | .error error => (world, .refused error)
      | .ok none => (world, .already)
      | .ok (some (library, _)) => ({ world with library }, .done)
  | .interruptSet candidate key =>
      match world.candidates candidate with
      | none => (world, .refused .input)
      | some draft =>
          let state := draft.draft.state.undone key
          let next : Draft := { draft with draft := { draft.draft with state } }
          ({ world with
              candidates := Function.update world.candidates candidate (some next) }, .thrown)
  | .interruptReset candidate =>
      match world.candidates candidate with
      | none => (world, .refused .input)
      | some draft => ({ world with library := world.library.interruptReset draft }, .thrown)
  | .interruptApply scope key =>
      ({ world with library := world.library.interruptApply scope key }, .thrown)

-- The log of all Scopes

structure Candidate where
  scope : Scope
  version : Nat
  records : List (Bytes × Bytes) := []

def Candidate.content (candidate : Candidate) (key : Bytes) : Option Bytes :=
  (candidate.records.find? fun record => record.1 == key).map Prod.snd

structure Log where
  candidates : Nat → Option Candidate := fun _ => none
  opened : Nat := 0
  scopes : Scope → Option Almanac.Kept := fun _ => none

def Log.note (log : Log) : Call → Log
  | .prepare scope version =>
      { log with
        candidates := Function.update log.candidates log.opened (some { scope, version })
        opened := log.opened + 1 }
  | .set candidate key value =>
      { log with
        candidates :=
          Function.update log.candidates candidate
            ((log.candidates candidate).map fun filled =>
              { filled with records := filled.records ++ [(key, value)] }) }
  | .reset candidate =>
      match log.candidates candidate with
      | none => log
      | some filled =>
          { log with
            candidates := Function.update log.candidates candidate none
            scopes :=
              Function.update log.scopes filled.scope
                (some { base := filled.content, start := filled.version }) }
  | .apply scope _ key value =>
      { log with
        scopes :=
          Function.update log.scopes scope
            ((log.scopes scope).map fun kept => kept.patch key value) }
  | _ => log

def Log.follow (log : Log) (call : Call) : Outcome → Log
  | .done => log.note call
  | _ => log

def advance (state : World × Log) (call : Call) : World × Log :=
  ((state.1.step call).1, state.2.follow call (state.1.step call).2)

def run (limits : Limits) (calls : List Call) : World × Log :=
  calls.foldl advance ({ library := { limits } }, {})

-- What holds between calls

structure Draft.Matches (draft : Draft) (filled : Candidate) : Prop where
  scope : draft.scope = filled.scope
  version : draft.version = filled.version
  isVersion : draft.draft.state.version = filled.version
  content : draft.draft.state.entries.get? = filled.content
  counted : draft.draft.Counted
  bytes : draft.bytes = draft.draft.state.bytes

structure Shelved (library : Library) (scopes : Scope → Option Almanac.Kept) : Prop where
  missing : ∀ scope, library.books.get? scope = none → scopes scope = none
  routed : ∀ scope book, library.books.get? scope = some book
    → ∃ kept, scopes scope = some kept ∧ Almanac.Logged book.almanac kept ∧ book.almanac.Counted

structure Totalled (library : Library) : Prop where
  bytes : library.bytes = library.books.weight fun _ book => book.almanac.state.bytes
  history : library.history = library.books.weight fun _ book => book.almanac.historyBytes
  scopes : library.scopes = library.books.size
  bytes_le : library.bytes ≤ library.limits.bytes
  history_le : library.history ≤ library.limits.history
  scopes_le : library.scopes ≤ library.limits.scopes

structure Sound (limits : Limits) (world : World) (log : Log) : Prop where
  bounds : world.library.limits = limits
  opened : world.opened = log.opened
  candidates : ∀ name, (world.candidates name = none ∧ log.candidates name = none)
    ∨ ∃ draft filled, world.candidates name = some draft ∧ log.candidates name = some filled
      ∧ draft.Matches filled
  shelved : Shelved world.library log.scopes
  totalled : Totalled world.library

-- What one call keeps

/-- An entry that was made and taken back leaves the content as it was. -/
theorem undone_eq (state : Almanac.State) (key : Bytes) : state.undone key = state := by
  unfold Almanac.State.undone
  split
  · rfl
  rename_i absent
  have missing : state.entries.get? key = none := by
    simpa [Assoc.contains_eq_false_iff] using absent
  simp [Assoc.remove_set_of_none missing]

theorem interruptReset_eq (library : Library) (draft : Draft)
    : library.interruptReset draft = library := by
  unfold interruptReset
  split
  · rfl
  next absent => simp [Assoc.remove_set_of_none absent]

/-- A patch that failed half way leaves every book as it was. -/
theorem interruptApply_eq (library : Library) (scope : Scope) (key : Bytes)
    : (library.interruptApply scope key).books.get? = library.books.get?
      ∧ { library.interruptApply scope key with books := library.books } = library := by
  unfold interruptApply
  split
  · exact ⟨rfl, rfl⟩
  rename_i book routed
  refine ⟨?_, rfl⟩
  funext other
  simp only [undone_eq, Assoc.get?_set]
  split
  next same => exact (same ▸ routed).symm
  · rfl

variable {library next : Library} {scopes : Scope → Option Almanac.Kept}

theorem Shelved.congr (shelved : Shelved library scopes)
    (same : next.books.get? = library.books.get?)
    : Shelved next scopes := by
  refine ⟨fun scope => ?_, fun scope book => ?_⟩
  · rw [same]
    exact shelved.missing scope
  · rw [same]
    exact shelved.routed scope book

/-- One book moves together with its log. -/
theorem Shelved.set {library next : Library} {scopes : Scope → Option Almanac.Kept}
    (shelved : Shelved library scopes) {scope : Scope} {book : Book} {kept : Almanac.Kept}
    (books : next.books = library.books.set scope book)
    (logged : Almanac.Logged book.almanac kept) (counted : book.almanac.Counted)
    : Shelved next (Function.update scopes scope (some kept)) := by
  refine ⟨fun other absent => ?_, fun other found routed => ?_⟩
  · simp only [books, Assoc.get?_set] at absent
    split at absent
    · cases absent
    rename_i apart
    simp only [Function.update_of_ne apart]
    exact shelved.missing other absent
  · simp only [books, Assoc.get?_set] at routed
    split at routed
    next same =>
      cases routed
      exact ⟨kept, by simp [same], logged, counted⟩
    rename_i apart
    simp only [Function.update_of_ne apart]
    exact shelved.routed other found routed

theorem Totalled.congr (totalled : Totalled library) (same : next.books.get? = library.books.get?)
    (bytes : next.bytes = library.bytes) (history : next.history = library.history)
    (scopes : next.scopes = library.scopes) (limits : next.limits = library.limits) : Totalled next := by
  refine ⟨?_, ?_, ?_, ?_, ?_, ?_⟩
  · rw [bytes, totalled.bytes, Assoc.weight_congr _ same]
  · rw [history, totalled.history, Assoc.weight_congr _ same]
  · rw [scopes, totalled.scopes, Assoc.size_congr same]
  · rw [bytes, limits]
    exact totalled.bytes_le
  · rw [history, limits]
    exact totalled.history_le
  · rw [scopes, limits]
    exact totalled.scopes_le

variable {scope : Scope}

/-- No book counts for more than the totals. -/
theorem Totalled.book_le (totalled : Totalled library) {book : Book}
    (routed : library.books.get? scope = some book)
    : book.almanac.state.bytes ≤ library.bytes ∧ book.almanac.historyBytes ≤ library.history := by
  constructor
  · rw [totalled.bytes]
    exact Assoc.le_weight routed fun _ book => book.almanac.state.bytes
  · rw [totalled.history]
    exact Assoc.le_weight routed fun _ book => book.almanac.historyBytes

/-- A candidate that took a record is what its caller filled it with. -/
theorem Draft.Matches.set {draft next : Draft} {filled : Candidate} (fits : draft.Matches filled)
    {key value : Bytes} (accepted : draft.set key value = .ok next)
    : next.Matches { filled with records := filled.records ++ [(key, value)] } := by
  simp only [Draft.set] at accepted
  split at accepted
  · cases accepted
  split at accepted
  · cases accepted
  rename_i inner added
  cases accepted
  obtain ⟨sameVersion, absent, entries, _⟩ := Almanac.Draft.set_ok added
  obtain ⟨counted, bytes⟩ := fits.counted.set added
  refine ⟨fits.scope, fits.version, sameVersion.trans fits.isVersion, ?_, counted, ?_⟩
  · funext other
    have missing : filled.content key = none := by
      rw [← fits.content]
      exact absent
    simp only [entries, Assoc.get?_set, fits.content]
    simp only [Candidate.content, Option.map_eq_none_iff, List.find?_append,
      List.find?_singleton] at missing ⊢
    by_cases same : other = key
    · subst same
      simp [missing]
    · have apart : (key == other) = false := by
        simpa using Ne.symm same
      simp [same, apart]
  · simp only [bytes, fits.bytes]
    rfl

variable {draft : Draft} {change : Almanac.Change}

/-- An installed candidate moves the totals by the difference to what its Scope held. -/
theorem reset_totalled {filled : Candidate} (totalled : Totalled library)
    (fits : draft.Matches filled) (installed : library.reset draft = .ok (some (next, change)))
    : Totalled next ∧ next.limits = library.limits
      ∧ ∃ almanac, next.books = library.books.set draft.scope { id := draft.book, almanac }
        ∧ almanac.Counted := by
  simp only [reset] at installed
  split at installed
  · cases installed
  split at installed
  · cases installed
  rename_i roomy
  split at installed
  · cases installed
  · cases installed
  rename_i almanac reset
  simp only [Except.ok.injEq, Option.some.injEq, Prod.mk.injEq] at installed
  obtain ⟨rfl, rfl⟩ := installed
  have counted := Almanac.reset_counted fits.counted reset
  obtain ⟨state, _, _, noBacklog, _, _⟩ := Almanac.reset_some reset
  have isBytes : almanac.state.bytes = draft.bytes := by
    rw [state, fits.bytes]
  have bytes := totalled.bytes
  have history := totalled.history
  have scopesEq := totalled.scopes
  have bytesBound := totalled.bytes_le
  have historyBound := totalled.history_le
  have scopesBound := totalled.scopes_le
  refine ⟨?_, rfl, almanac, rfl, counted⟩
  cases routed : library.books.get? draft.scope with
  | none =>
      have weighed := Assoc.weight_set_of_none routed
        (fun _ book => book.almanac.state.bytes) { id := draft.book, almanac }
      have stored := Assoc.weight_set_of_none routed
        (fun _ book => book.almanac.historyBytes) { id := draft.book, almanac }
      have sized := Assoc.size_set_of_none routed { id := draft.book, almanac }
      dsimp only at weighed stored
      simp only [routed, Option.elim_none, blank, Almanac.usage, Option.isNone_none,
        true_and, not_or, not_lt] at roomy
      refine ⟨?_, ?_, ?_, ?_, ?_, ?_⟩ <;>
        simp only [Option.elim_none, blank, Almanac.usage, Option.isNone_none, if_true] <;> omega
  | some book =>
      have weighed := Assoc.weight_set_of_some routed
        (fun _ book => book.almanac.state.bytes) { id := draft.book, almanac }
      have stored := Assoc.weight_set_of_some routed
        (fun _ book => book.almanac.historyBytes) { id := draft.book, almanac }
      have sized := Assoc.size_set_of_some routed { id := draft.book, almanac }
      dsimp only at weighed stored
      obtain ⟨lightBytes, lightHistory⟩ := totalled.book_le routed
      simp only [routed, Option.elim_some, Almanac.usage, Option.isNone_some,
        Bool.false_eq_true, false_and, or_false, not_lt] at roomy
      refine ⟨?_, ?_, ?_, ?_, ?_, ?_⟩ <;>
        simp only [Option.elim_some, Almanac.usage, Option.isNone_some,
          Bool.false_eq_true, if_false] <;> omega

/-- A committed patch moves the totals by what its book gained and lost. -/
theorem apply_totalled {version : Nat} {key : Bytes} {value : Option Bytes}
    (shelved : Shelved library scopes) (totalled : Totalled library)
    (applied : library.apply scope version key value = .ok (some (next, change)))
    : Totalled next ∧ next.limits = library.limits
      ∧ ∃ book almanac, library.books.get? scope = some book
        ∧ next.books = library.books.set scope { book with almanac } ∧ almanac.Counted
        ∧ Almanac.Patched book.almanac almanac version key value change := by
  simp only [apply] at applied
  split at applied
  · cases applied
  split at applied
  · cases applied
  rename_i book routed
  split at applied
  · cases applied
  split at applied
  · cases applied
  rename_i current old found
  split at applied
  · cases applied
  rename_i roomy
  split at applied
  · cases applied
  · cases applied
  rename_i almanac committed patched
  simp only [Except.ok.injEq, Option.some.injEq, Prod.mk.injEq] at applied
  obtain ⟨rfl, rfl⟩ := applied
  obtain ⟨kept, _, _, counted⟩ := shelved.routed scope book routed
  have charged := Almanac.apply_charged counted patched
  have isOld : old = book.almanac.state.entries.get? key := by
    simp only [Almanac.find] at found
    split at found
    · cases found
    split at found
    · cases found
    · cases found
      rfl
  obtain ⟨lightBytes, lightHistory⟩ := totalled.book_le routed
  have weighed := Assoc.weight_set_of_some routed
    (fun _ book => book.almanac.state.bytes) { book with almanac }
  have stored := Assoc.weight_set_of_some routed
    (fun _ book => book.almanac.historyBytes) { book with almanac }
  have sized := Assoc.size_set_of_some routed { book with almanac }
  dsimp only at weighed stored
  have bytes := totalled.bytes
  have history := totalled.history
  have scopesEq := totalled.scopes
  have bytesBound := totalled.bytes_le
  have historyBound := totalled.history_le
  have scopesBound := totalled.scopes_le
  have gained := charged.bytes
  have lost := charged.removed_le
  have retained := charged.retained
  have costs : Almanac.cost key = fun value => key.length + value.length := rfl
  simp only [costs] at gained lost
  simp only [isOld, not_lt] at roomy
  simp only [Almanac.usage] at retained
  refine ⟨⟨?_, ?_, ?_, ?_, ?_, ?_⟩, rfl, book, almanac, routed, rfl, charged.counted,
    Almanac.apply_some patched⟩ <;> simp only [Almanac.usage] <;> omega

/-- Opening a candidate moves no book and no total, and the candidate is empty. -/
theorem prepare_spec {version : Nat} (prepared : library.prepare scope version = .ok (next, draft))
    : { next with next := library.next } = library ∧ draft.Matches { scope, version } := by
  have empty (book : Almanac) : (book.prepare version).Counted := by
    refine ⟨rfl, ?_, ?_⟩ <;> exact Nat.zero_le _
  simp only [prepare] at prepared
  split at prepared
  · cases prepared
  split at prepared
  · split at prepared
    · cases prepared
    · cases prepared
      exact ⟨rfl, rfl, rfl, rfl, funext fun key => rfl, empty _, rfl⟩
  · split at prepared
    · cases prepared
    · cases prepared
      exact ⟨rfl, rfl, rfl, rfl, funext fun key => rfl, empty _, rfl⟩

/-- The candidates after one of them moved together with what its caller knows of it. -/
theorem candidates_update {drafts : Nat → Option Draft} {filled : Nat → Option Candidate}
    (agree : ∀ name, (drafts name = none ∧ filled name = none)
      ∨ ∃ draft candidate, drafts name = some draft ∧ filled name = some candidate
        ∧ draft.Matches candidate)
    {moved : Nat} {draft : Option Draft} {candidate : Option Candidate}
    (fits : (draft = none ∧ candidate = none)
      ∨ ∃ held known, draft = some held ∧ candidate = some known ∧ held.Matches known)
    (name : Nat)
    : (Function.update drafts moved draft name = none
        ∧ Function.update filled moved candidate name = none)
      ∨ ∃ held known, Function.update drafts moved draft name = some held
        ∧ Function.update filled moved candidate name = some known ∧ held.Matches known := by
  by_cases same : name = moved
  · subst same
    simpa using fits
  · simpa [Function.update_of_ne same] using agree name

/-- A call that is not done leaves every book, the totals and the candidates as they were. -/
structure Unchanged (world next : World) : Prop where
  books : next.library.books.get? = world.library.books.get?
  rest : { next.library with books := world.library.books } = world.library
  candidates : next.candidates = world.candidates
  opened : next.opened = world.opened

theorem Unchanged.refl (world : World) : Unchanged world world :=
  ⟨rfl, rfl, rfl, rfl⟩

variable {world : World}

theorem World.step_unchanged {call : Call} (failed : (world.step call).2 ≠ .done)
    : Unchanged world (world.step call).1 := by
  cases call with
  | prepare scope version =>
      simp only [World.step] at failed ⊢
      split
      · exact .refl world
      next prepared => simp [prepared] at failed
  | set candidate key value =>
      simp only [World.step] at failed ⊢
      split
      · exact .refl world
      rename_i held
      split
      · exact .refl world
      next accepted => simp [held, accepted] at failed
  | reset candidate =>
      simp only [World.step] at failed ⊢
      split
      · exact .refl world
      rename_i held
      split
      · exact .refl world
      · exact .refl world
      next installed => simp [held, installed] at failed
  | apply scope version key value =>
      simp only [World.step] at failed ⊢
      split
      · exact .refl world
      · exact .refl world
      next applied => simp [applied] at failed
  | interruptSet candidate key =>
      simp only [World.step]
      split
      · exact .refl world
      rename_i draft held
      refine ⟨rfl, rfl, ?_, rfl⟩
      simp only [undone_eq, ← held, Function.update_eq_self]
  | interruptReset candidate =>
      simp only [World.step]
      split
      · exact .refl world
      next draft held => simpa only [interruptReset_eq] using Unchanged.refl world
  | interruptApply scope key =>
      obtain ⟨books, rest⟩ := interruptApply_eq world.library scope key
      exact ⟨books, rest, rfl, rfl⟩

/-- The log only moves with calls that are done. -/
theorem Log.follow_of_ne_done (log : Log) (call : Call) {outcome : Outcome}
    (failed : outcome ≠ .done) : log.follow call outcome = log := by
  cases outcome with
  | done => exact absurd rfl failed
  | already => rfl
  | refused error => rfl
  | thrown => rfl

variable {limits : Limits} {log : Log}

theorem Sound.unchanged {next : World} (sound : Sound limits world log)
    (same : Unchanged world next) : Sound limits next log := by
  have fields := congrArg (fun library : Library =>
    (library.limits, library.scopes, library.bytes, library.history)) same.rest
  simp only [Prod.mk.injEq] at fields
  obtain ⟨bounds, scopes, bytes, history⟩ := fields
  refine ⟨bounds.trans sound.bounds, same.opened.trans sound.opened, ?_,
    sound.shelved.congr same.books, sound.totalled.congr same.books bytes history scopes bounds⟩
  rw [same.candidates]
  exact sound.candidates

/-- One call keeps what holds between calls. -/
theorem Sound.advance {limits : Limits} {world : World} {log : Log}
    (sound : Sound limits world log) (call : Call)
    : Sound limits (advance (world, log) call).1 (advance (world, log) call).2 := by
  by_cases failed : (world.step call).2 ≠ .done
  · have same := sound.unchanged (World.step_unchanged failed)
    simpa only [Library.advance, log.follow_of_ne_done call failed] using same
  simp only [ne_eq, not_not] at failed
  simp only [Library.advance, failed, Log.follow]
  cases call with
  | prepare scope version =>
      simp only [World.step] at failed ⊢
      split
      next refused => simp [refused] at failed
      rename_i library draft prepared
      obtain ⟨same, fits⟩ := prepare_spec prepared
      have fields := congrArg (fun library : Library =>
        (library.limits, library.books, library.scopes, library.bytes, library.history)) same
      simp only [Prod.mk.injEq] at fields
      obtain ⟨bounds, books, scopes, bytes, history⟩ := fields
      have lookup := congrArg Assoc.get? books
      refine ⟨bounds.trans sound.bounds, congrArg Nat.succ sound.opened, ?_,
        sound.shelved.congr lookup, sound.totalled.congr lookup bytes history scopes bounds⟩
      simp only [Log.note, ← sound.opened]
      exact candidates_update sound.candidates (.inr ⟨_, _, rfl, rfl, fits⟩)
  | set candidate key value =>
      simp only [World.step] at failed ⊢
      split
      next missing => simp [missing] at failed
      rename_i draft held
      split
      next refused => simp [held, refused] at failed
      rename_i next accepted
      refine ⟨sound.bounds, sound.opened, ?_, sound.shelved, sound.totalled⟩
      rcases sound.candidates candidate with ⟨missing, _⟩ | ⟨_, filled, found, known, fits⟩
      · simp [missing] at held
      · cases held.symm.trans found
        simp only [Log.note, known, Option.map_some]
        exact candidates_update sound.candidates (.inr ⟨_, _, rfl, rfl, fits.set accepted⟩)
  | reset candidate =>
      simp only [World.step] at failed ⊢
      split
      next missing => simp [missing] at failed
      rename_i draft held
      split
      next refused => simp [held, refused] at failed
      next installed => simp [held, installed] at failed
      rename_i library change installed
      rcases sound.candidates candidate with ⟨missing, _⟩ | ⟨_, filled, found, known, fits⟩
      · simp [missing] at held
      · cases held.symm.trans found
        obtain ⟨totalled, bounds, almanac, books, counted⟩ :=
          reset_totalled sound.totalled fits installed
        obtain ⟨_, other, replaced⟩ := reset_some installed
        have sameBook : almanac = other := by
          have stored := congrArg (Assoc.get? · draft.scope) (books.symm.trans replaced.books)
          simpa using stored
        simp only [Log.note, known]
        refine ⟨bounds.trans sound.bounds, sound.opened,
          candidates_update sound.candidates (.inl ⟨rfl, rfl⟩), ?_, totalled⟩
        have logged : Almanac.Logged almanac
            { base := filled.content, start := filled.version } := by
          refine ⟨?_, ?_, ?_, ?_⟩
          · rw [sameBook, replaced.ready]
          · rw [sameBook, replaced.state, fits.content]
            rfl
          · rw [sameBook, replaced.state, fits.isVersion]
            rfl
          · rw [sameBook, replaced.history]
            exact List.nil_suffix
        rw [← fits.scope]
        exact sound.shelved.set books logged counted
  | apply scope version key value =>
      simp only [World.step] at failed ⊢
      split
      next refused => simp [refused] at failed
      next applied => simp [applied] at failed
      rename_i library change applied
      obtain ⟨totalled, bounds, book, almanac, routed, books, counted, patched⟩ :=
        apply_totalled sound.shelved sound.totalled applied
      obtain ⟨kept, found, logged, _⟩ := sound.shelved.routed scope book routed
      refine ⟨bounds.trans sound.bounds, sound.opened, sound.candidates, ?_, totalled⟩
      simp only [Log.note, found, Option.map_some]
      exact sound.shelved.set books (logged.patched patched) counted
  | interruptSet candidate key =>
      simp only [World.step] at failed
      split at failed <;> cases failed
  | interruptReset candidate =>
      simp only [World.step] at failed
      split at failed <;> cases failed
  | interruptApply scope key => cases failed

/-- What holds after any calls, by induction on them. -/
theorem Sound.run (calls : List Call)
    : Sound limits (run limits calls).1 (run limits calls).2 := by
  induction calls using List.reverseRecOn with
  | nil =>
      refine ⟨rfl, rfl, fun _ => .inl ⟨rfl, rfl⟩, ⟨fun _ _ => rfl, ?_⟩, ⟨rfl, rfl, rfl, ?_, ?_, ?_⟩⟩
      · intro scope book routed
        cases routed
      all_goals exact Nat.zero_le _
  | append_singleton calls call ih =>
      simp only [Library.run, List.foldl_append, List.foldl_cons, List.foldl_nil]
      exact ih.advance call

-- The law of the table

/-- A patch that is done is the next version of its log; one that does nothing is installed
already. -/
structure Ordered (world : World) (log : Log) (scope : Scope) (version : Nat) (outcome : Outcome)
    : Prop where
  done : outcome = .done → ∃ kept, log.scopes scope = some kept ∧ version = kept.version + 1
  already : outcome = .already → ∃ kept, log.scopes scope = some kept ∧ version ≤ kept.version

theorem Sound.ordered (sound : Sound limits world log) (scope : Scope) (version : Nat) (key : Bytes)
    (value : Option Bytes)
    : Ordered world log scope version (world.step (.apply scope version key value)).2 := by
  constructor
  · intro done
    simp only [World.step] at done
    split at done
    · cases done
    · cases done
    rename_i library change applied
    obtain ⟨book, almanac, amended⟩ := apply_some applied
    obtain ⟨kept, found, logged, _⟩ := sound.shelved.routed scope book amended.routed
    refine ⟨kept, found, ?_⟩
    simpa only [logged.version] using amended.patched.follows
  · intro already
    simp only [World.step] at already
    split at already
    · cases already
    next applied =>
      simp only [apply] at applied
      split at applied
      · cases applied
      split at applied
      · cases applied
      rename_i book routed
      obtain ⟨kept, found, logged, _⟩ := sound.shelved.routed scope book routed
      refine ⟨kept, found, ?_⟩
      split at applied
      next covered =>
        simp only [Almanac.usage, logged.ready, if_true, Option.any_some, logged.version,
          decide_eq_true_eq] at covered
        exact covered.2
      split at applied
      · cases applied
      split at applied
      · cases applied
      split at applied
      · cases applied
      next replayed => exact (logged.apply version key value _).2 replayed
      · cases applied
    · cases already

/-- Whatever was called in whatever order, every book is the last whole replacement of its Scope
with the patches of the versions after it. The next patch is the next version, is installed
already or fails; a replay gives exactly the patches above the requested version; a call that is
not done changes nothing; and the totals are the sums over the books, each counted in full and
none above its limit. -/
theorem library_law (limits : Limits) (calls : List Call)
    : let world := (run limits calls).1
      let log := (run limits calls).2
      Shelved world.library log.scopes
        ∧ (∀ scope version key value,
            Ordered world log scope version (world.step (.apply scope version key value)).2)
        ∧ (∀ scope book, world.library.find scope = some book
            → ∃ kept, log.scopes scope = some kept
              ∧ ∀ since version changes, book.replay since = .ok (version, changes)
                → version = kept.version ∧ kept.start ≤ since ∧ since ≤ kept.version
                  ∧ changes = kept.changes.drop (since - kept.start))
        ∧ (∀ call, (world.step call).2 ≠ .done → Unchanged world (world.step call).1)
        ∧ world.library.limits = limits ∧ Totalled world.library
        ∧ (∀ scope book, world.library.books.get? scope = some book
            → book.almanac.state.bytes ≤ world.library.bytes
              ∧ book.almanac.historyBytes ≤ world.library.history
              ∧ ∀ key value, book.almanac.state.entries.get? key = some value
                → Almanac.cost key value ≤ book.almanac.state.bytes) := by
  intro world log
  have sound : Sound limits world log := Sound.run calls
  refine ⟨sound.shelved, sound.ordered, fun scope book found => ?_,
    fun call failed => World.step_unchanged failed, sound.bounds, sound.totalled,
    fun scope book routed => ?_⟩
  · simp only [find] at found
    split at found
    next named =>
      simp only [Option.map_eq_some_iff] at found
      obtain ⟨shelf, routed, rfl⟩ := found
      obtain ⟨kept, isKept, logged, _⟩ := sound.shelved.routed scope shelf routed
      exact ⟨kept, isKept, fun since version changes replayed => logged.replay replayed⟩
    · cases found
  · obtain ⟨bytes, history⟩ := sound.totalled.book_le routed
    obtain ⟨kept, _, _, counted⟩ := sound.shelved.routed scope book routed
    refine ⟨bytes, history, fun key value held => ?_⟩
    rw [counted.bytes]
    exact Assoc.le_weight held Almanac.cost

/-- A replacement at version 3 that takes one patch: the next one is version 5. -/
theorem library_law_patch
    : let scope : Scope := { sector := [115], spectrum := [112] }
      let calls : List Call :=
        [.prepare scope 3, .set 0 [107] [1], .reset 0, .apply scope 4 [107] none]
      ∃ kept, (run {} calls).2.scopes scope = some kept ∧ 5 = kept.version + 1 :=
  ((library_law {} [.prepare ⟨[115], [112]⟩ 3, .set 0 [107] [1], .reset 0,
    .apply ⟨[115], [112]⟩ 4 [107] none]).2.1 ⟨[115], [112]⟩ 5 [108] (some [2])).done
    (by decide)

end Library

end Astra
