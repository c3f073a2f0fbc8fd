import Verdandi.Star.Receiver
import Verdandi.Support.Run

/-! The login table follows the installed credential Scope. Any number of streams commit
snapshots and patches while sessions are opened, admitted and closed; the locks are free
between two patches of a batch, so a batch is also taken patch by patch.
-/

namespace Astra.Credentials

open Support Polaris Proto

-- The system of streams and sessions

/-- What an observer of the login table remembers: successful logins, and replacements of
the whole credential Scope.
-/
inductive Event where
  | opened (token key secret : Bytes)
  | replaced
  deriving DecidableEq, Repr

/-- A stream and the patches of its current batch that are still to be committed. -/
structure Link where
  receiver : Receiver
  work : Option (Scope × List Patch) := none

/-- The shared store, the streams, and the observer's log with the newest event first. The
log is written and never read by a step.
-/
structure World where
  store : Shared
  links : List Link := []
  log : List Event := []

/-- Everything that may happen next. `receive` takes a whole frame; `start` and `advance`
take an update batch apart.
-/
inductive Step where
  | connect
  | receive (link : Nat) (packet : Packet)
  | start (link : Nat) (page : Updates) (size : Nat)
  | advance (link : Nat)
  | next (link : Nat) (maximum : Nat)
  | login (key secret : Bytes) (random : Nat → Option Access.Token)
  | enter (token : Bytes)
  | close (session : Option Access.Session)

def version? (library : Library) : Option Nat :=
  (library.installed Scope.auth).map (·.version)

/-- A snapshot frame that moved the credential Scope replaced the whole table. -/
def record (packet : Packet) (before after : Library) (log : List Event) : List Event :=
  match packet.body with
  | .snapshot _ => if version? before = version? after then log else .replaced :: log
  | _ => log

/-- Before the first frame: nothing is installed and nobody can log in. -/
def initial (limits : Library.Limits) (maximum : Nat) : World where
  store := { library := { limits }, access := { maximum } }

section

variable (parse : Bytes → Option Bytes)

/-- One step; `none` where it is not enabled, such as a frame of a stream that is still
busy with its last one.
-/
def step (world : World) : Step → Option World
  | .connect =>
      some
        { world with
          links := world.links ++ [{ receiver := .create world.store.library }] }
  | .receive index packet =>
      (world.links[index]?).bind fun link =>
        match link.work with
        | some _ => none
        | none =>
            let (store, receiver, _) :=
              Receiver.receive parse world.store link.receiver packet
            some
              { store
                links := world.links.set index { link with receiver }
                log := record packet world.store.library store.library world.log }
  | .start index page size =>
      (world.links[index]?).bind fun link =>
        match link.work with
        | some _ => none
        | none =>
            match Receiver.start parse link.receiver page size with
            | (receiver, .error _) =>
                some { world with links := world.links.set index { link with receiver } }
            | (receiver, .ok ()) =>
                let work := some (page.scope, page.patches)
                some { world with links := world.links.set index { receiver, work } }
  | .advance index =>
      (world.links[index]?).bind fun link =>
        match link.work with
        | none => none
        | some (_, []) =>
            some { world with links := world.links.set index { link with work := none } }
        | some (scope, patch :: rest) =>
            match Receiver.patch parse world.store link.receiver scope patch with
            | .error _ =>
                let receiver := link.receiver.fail
                some { world with links := world.links.set index { receiver, work := none } }
            | .ok (store, receiver) =>
                let work := some (scope, rest)
                some { world with store, links := world.links.set index { receiver, work } }
  | .next index maximum =>
      (world.links[index]?).bind fun link =>
        match link.receiver.next maximum with
        | .error _ => none
        | .ok (receiver, _) =>
            some { world with links := world.links.set index { link with receiver } }
  | .login key secret random =>
      match world.store.access.open key secret random with
      | .error _ => some world
      | .ok (access, session) =>
          some
            { world with
              store := { world.store with access }
              log := .opened session.token.1 key secret :: world.log }
  | .enter _ => some world
  | .close session =>
      some
        { world with
          store := { world.store with access := world.store.access.close session } }

def Reachable (limits : Library.Limits) (maximum : Nat) (world : World) : Prop :=
  ∃ steps, run (step parse) (initial limits maximum) steps = some world

-- The login table and the installed content

/-- The secret that the installed credential Scope holds for a key. -/
def stored (library : Library) (key : Bytes) : Option Bytes :=
  (library.installed Scope.auth).bind fun state => (state.entries.get? key).bind parse

/-- The login table is the parsed content of the installed credential Scope. -/
def Agrees (store : Shared) : Prop :=
  ∀ key, store.access.secret? key = stored parse store.library key

/-- A candidate for the credential Scope has an index of exactly its parsed records; a
candidate for any other Scope has none.
-/
def Indexed (credentials : Option Access.Draft) (draft : Library.Draft) : Prop :=
  match credentials with
  | none => draft.scope ≠ Scope.auth
  | some credentials =>
      draft.scope = Scope.auth
      ∧ ∀ key, credentials.accounts.get? key = (draft.draft.state.entries.get? key).bind parse

/-- An open stream has an index exactly while it fills a credential candidate. -/
def Coherent (receiver : Receiver) : Prop :=
  receiver.failed = false → match receiver.draft with
      | none => receiver.credentials = none
      | some draft => Indexed parse receiver.credentials draft

end

end Astra.Credentials
