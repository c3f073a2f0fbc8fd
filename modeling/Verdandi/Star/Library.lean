import Verdandi.Star.Almanac

/-! The Almanac routing table: one book for each Scope, with the accounting shared by all
books. Every operation runs under the writer lock and is one step.
-/

namespace Astra

open Support

namespace Library

structure Limits where
  scopes : Nat := 4096
  bytes : Nat := 256 * 1024 * 1024
  history : Nat := 64 * 1024 * 1024
  scope : Almanac.Limits := {}
  deriving DecidableEq, Repr

/-- The installed version of one Scope; version zero is an installed empty baseline. -/
structure Position where
  scope : Scope
  version : Nat
  deriving DecidableEq, Repr

/-- A routed book. `id` is the identity of the shared object, which a candidate compares
before it is installed.
-/
structure Book where
  id : Nat
  almanac : Almanac

/-- The private candidate of one recovery: its address, its version and the book it was
prepared for are fixed when it is created.
-/
structure Draft where
  scope : Scope
  version : Nat
  book : Nat
  draft : Almanac.Draft
  bytes : Nat := 0

end Library

structure Library where
  limits : Library.Limits := {}
  books : Assoc Scope Library.Book := ∅
  scopes : Nat := 0
  bytes : Nat := 0
  history : Nat := 0
  next : Nat := 0

namespace Library

-- Operations

def Draft.set (draft : Draft) (key value : Bytes) : Except Almanac.Error Draft :=
  if !Scope.text key 1024 then
    .error .input
  else
    match draft.draft.set key value with
    | .error error => .error error
    | .ok next =>
        .ok { draft with draft := next, bytes := draft.bytes + (key.length + value.length) }

def find (library : Library) (scope : Scope) : Option Almanac :=
  if scope.valid then (library.books.get? scope).map (·.almanac) else none

/-- A book that is prepared but not routed yet: no content and not ready. -/
def blank (library : Library) : Almanac where
  limits := library.limits.scope

/-- Open a candidate outside the routing table. A Scope without a book gets a new one,
which stays private to the candidate until it is installed.
-/
def prepare (library : Library) (scope : Scope) (version : Nat)
    : Except Almanac.Error (Library × Draft) :=
  if !scope.valid then
    .error .input
  else
    match library.books.get? scope with
    | some book =>
        if book.almanac.usage.version.any (version < ·) then
          .error .version
        else
          .ok (library,
            { scope, version, book := book.id, draft := book.almanac.prepare version })
    | none =>
        if library.scopes ≥ library.limits.scopes then
          .error .capacity
        else
          .ok ({ library with next := library.next + 1 },
            { scope, version, book := library.next
              draft := library.blank.prepare version })

/-- Install a complete candidate. `none` is the source's `false`; otherwise the
notification raised inside the writer lock is returned with the table. A candidate's own
unrouted book is never ready, so a new Scope is always installed as a new commit.
-/
def reset (library : Library) (draft : Draft)
    : Except Almanac.Error (Option (Library × Almanac.Change)) :=
  let existing := library.books.get? draft.scope
  if existing.any (·.id ≠ draft.book) then
    .error .version
  else
    let target := existing.elim library.blank (·.almanac)
    let before := target.usage
    if draft.bytes > library.limits.bytes - (library.bytes - before.bytes)
        ∨ (existing.isNone ∧ library.scopes = library.limits.scopes) then
      .error .capacity
    else
      match target.reset draft.draft with
      | .error error => .error error
      | .ok none => .ok none
      | .ok (some almanac) =>
          .ok (some (
            { library with
              books := library.books.set draft.scope { id := draft.book, almanac }
              scopes := if existing.isNone then library.scopes + 1 else library.scopes
              bytes := library.bytes - before.bytes + draft.bytes
              history := library.history - before.history },
            { key := none, value := none, version := draft.version }))

/-- Commit one patch of a routed Scope. `none` is the source's `false`; otherwise the
notification raised inside the writer lock is returned with the table.
-/
def apply (library : Library) (scope : Scope) (version : Nat) (key : Bytes) (value : Option Bytes)
    : Except Almanac.Error (Option (Library × Almanac.Change)) :=
  if !scope.valid || !Scope.text key 1024 then
    .error .input
  else
    match library.books.get? scope with
    | none => .error .unready
    | some book =>
        let before := book.almanac.usage
        if before.version.any fun current => version ≠ 0 ∧ version ≤ current then
          .ok none
        else
          match book.almanac.find key with
          | .error error => .error error
          | .ok (_, old) =>
              let removed := old.elim 0 fun previous => key.length + previous.length
              let added := value.elim 0 fun fresh => key.length + fresh.length
              if added > library.limits.bytes - (library.bytes - removed) then
                .error .capacity
              else
                let retention := library.limits.history - (library.history - before.history)
                match book.almanac.apply version key value retention with
                | .error error => .error error
                | .ok none => .ok none
                | .ok (some (almanac, committed)) =>
                    .ok (some (
                      { library with
                        books := library.books.set scope { book with almanac }
                        bytes := library.bytes - before.bytes + almanac.usage.bytes
                        history := library.history - before.history + almanac.usage.history },
                      committed))

def positions (library : Library) : List Position :=
  (library.books.toPairs.filterMap fun entry =>
    entry.2.almanac.usage.version.map fun version => { scope := entry.1, version })
    |>.insertionSort fun left right => left.scope.before right.scope

/-- The installed content of a Scope; an unrouted or unready Scope has none. -/
def installed (library : Library) (scope : Scope) : Option Almanac.State :=
  (library.books.get? scope).bind fun book =>
    if book.almanac.ready then some book.almanac.state else none

-- What a successful operation does

variable {library next : Library} {scope : Scope} {version : Nat} {draft : Draft}

/-- Preparing a candidate changes no book, and the candidate starts empty. -/
theorem prepare_ok (prepared : library.prepare scope version = .ok (next, draft))
    : next.books = library.books ∧ draft.scope = scope ∧ draft.version = version
      ∧ draft.draft.state = { version } := by
  unfold prepare at prepared
  split at prepared
  · cases prepared
  split at prepared
  · split at prepared <;> cases prepared
    exact ⟨rfl, rfl, rfl, rfl⟩
  · split at prepared <;> cases prepared
    exact ⟨rfl, rfl, rfl, rfl⟩

variable {key : Bytes}

/-- A candidate that took a record keeps its address and version. -/
theorem Draft.set_ok {next : Draft} {value : Bytes} (accepted : draft.set key value = .ok next)
    : next.scope = draft.scope ∧ next.version = draft.version ∧ next.book = draft.book
      ∧ draft.draft.set key value = .ok next.draft := by
  unfold Draft.set at accepted
  split at accepted
  · cases accepted
  split at accepted
  · cases accepted
  rename_i added
  cases accepted
  exact ⟨rfl, rfl, rfl, added⟩

/-- Everything an installed candidate does: its Scope takes the candidate's content with an
empty history and no other book changes. The candidate was prepared for the routed book,
if there is one, and is newer than what that book held.
-/
structure Replaced (library next : Library) (draft : Draft) (almanac : Almanac) : Prop where
  books : next.books = library.books.set draft.scope { id := draft.book, almanac }
  state : almanac.state = draft.draft.state
  ready : almanac.ready = true
  history : almanac.history = []
  same : ∀ book, library.books.get? draft.scope = some book → book.id = draft.book
  newer
    : ∀ book, library.books.get? draft.scope = some book → book.almanac.ready = true
      → book.almanac.state.version < draft.draft.state.version

variable {change : Almanac.Change}

/-- A new installation meets `Replaced` and announces the whole Scope. Witness: the branch
of `reset` that commits, with the book it resets.
-/
theorem reset_some (installed : library.reset draft = .ok (some (next, change)))
    : change = { key := none, value := none, version := draft.version }
      ∧ ∃ almanac, Replaced library next draft almanac := by
  unfold reset at installed
  dsimp only at installed
  split at installed
  · cases installed
  rename_i identity
  split at installed
  · cases installed
  split at installed
  · cases installed
  · cases installed
  rename_i almanac committed
  cases installed
  obtain ⟨state, ready, history, _, _, newer⟩ := Almanac.reset_some committed
  refine ⟨rfl, almanac, rfl, state, ready, history, ?_, ?_⟩
  · intro book routed
    simpa [routed] using identity
  · intro book routed
    simpa [routed] using newer

/-- Everything a committed patch does: the routed book of its Scope is patched and no other
book changes.
-/
structure Amended (library next : Library) (scope : Scope) (version : Nat) (key : Bytes)
    (value : Option Bytes) (change : Almanac.Change) (book : Book) (almanac : Almanac)
    : Prop where
  routed : library.books.get? scope = some book
  books : next.books = library.books.set scope { book with almanac }
  patched : Almanac.Patched book.almanac almanac version key value change
  text : Scope.text key 1024 = true

variable {value : Option Bytes}

/-- A committed patch meets `Amended`. Witness: the branch of `apply` that commits. -/
theorem apply_some (applied : library.apply scope version key value = .ok (some (next, change)))
    : ∃ book almanac, Amended library next scope version key value change book almanac := by
  unfold apply at applied
  split at applied
  · cases applied
  rename_i admitted
  split at applied
  · cases applied
  rename_i book routed
  dsimp only at applied
  split at applied
  · cases applied
  split at applied
  · cases applied
  split at applied
  · cases applied
  split at applied
  · cases applied
  · cases applied
  rename_i almanac committed patched
  cases applied
  simp only [Bool.or_eq_true, Bool.not_eq_true', not_or, Bool.not_eq_false] at admitted
  exact ⟨book, almanac, routed, rfl, Almanac.apply_some patched, admitted.2⟩

/-- The content of every Scope after a replacement: only the candidate's Scope moved. -/
theorem Replaced.installed {library next : Library} {draft : Draft} {almanac : Almanac}
    (replaced : Replaced library next draft almanac) (scope : Scope)
    : next.installed scope
      = if scope = draft.scope then some draft.draft.state else library.installed scope := by
  by_cases same : scope = draft.scope
  · simp [Library.installed, replaced.books, replaced.ready, replaced.state, same]
  · simp [Library.installed, replaced.books, same]

/-- The content of every Scope after a patch: only the patched Scope moved, from a complete
content to the next version of it.
-/
theorem Amended.installed {library next : Library} {scope : Scope} {version : Nat}
    {key : Bytes} {value : Option Bytes} {change : Almanac.Change} {book : Book}
    {almanac : Almanac}
    (amended : Amended library next scope version key value change book almanac)
    (other : Scope)
    : next.installed other
      = if other = scope then some almanac.state else library.installed other := by
  by_cases same : other = scope
  · simp [Library.installed, amended.books, amended.patched.isReady, same]
  · simp [Library.installed, amended.books, same]

/-- What was installed before a patch. -/
theorem Amended.previous {book : Book} {almanac : Almanac}
    (amended : Amended library next scope version key value change book almanac)
    : library.installed scope = some book.almanac.state := by
  simp [Library.installed, amended.routed, amended.patched.wasReady]

end Library

end Astra
