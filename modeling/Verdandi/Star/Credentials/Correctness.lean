import Verdandi.Star.Credentials.Sessions

/-! The invariant of all runs of streams and sessions, and what it says about logins,
revocation and failing frames.
-/

namespace Astra.Credentials

open Support Polaris Proto

section

variable {parse : Bytes → Option Bytes}

-- Whole runs

variable (parse)

structure Invariant (world : World) : Prop where
  agrees : Agrees parse world.store
  accounted : Accounted world.store.access world.log
  coherent : ∀ link ∈ world.links, Coherent parse link.receiver

variable {parse}

variable {world : World}

/-- Exchanging one stream for a coherent one keeps all streams coherent. -/
theorem Invariant.replaceLink (invariant : Invariant parse world) (index : Nat) {link : Link}
    (coherent : Coherent parse link.receiver)
    : ∀ other ∈ world.links.set index link, Coherent parse other.receiver := by
  intro other member
  rcases List.mem_or_eq_of_mem_set member with old | new
  · exact invariant.coherent other old
  · exact new ▸ coherent

theorem initial_invariant (limits : Library.Limits) (maximum : Nat)
    : Invariant parse (initial limits maximum) where
  agrees := by
    intro key
    simp [initial, Access.secret?, stored, Library.installed]
  accounted := ⟨Nat.one_pos, by simp [initial]⟩
  coherent := by simp [initial]

variable {receiver : Receiver} {maximum : Nat}

/-- Outgoing frames touch neither the candidate nor its index. -/
theorem next_coherent {after : Receiver} {body : Option Body} (coherent : Coherent parse receiver)
    (taken : receiver.next maximum = .ok (after, body))
    : Coherent parse after := by
  unfold Receiver.next at taken
  split at taken
  · cases taken
  split at taken
  · cases taken
    exact coherent
  split at taken
  · dsimp only at taken
    split at taken <;> cases taken <;> exact coherent
  · split at taken <;> cases taken <;> exact coherent

/-- The start of an update batch touches neither the candidate nor its index, unless it
closes the stream.
-/
theorem start_coherent (coherent : Coherent parse receiver) (page : Updates) (size : Nat)
    : Coherent parse (Receiver.start parse receiver page size).1 := by
  unfold Receiver.start
  split
  · exact coherent
  split
  · exact coherent_fail parse receiver
  split
  · exact coherent_fail parse receiver
  split
  · exact coherent_fail parse receiver
  · exact coherent

/-- Every step keeps the invariant. Witness: one case for each kind of step; frames and
patches through their moves, sessions through the log.
-/
theorem step_invariant (world : World) (action : Step) (next : World)
    (invariant : Invariant parse world) (stepped : step parse world action = some next)
    : Invariant parse next := by
  cases action with
  | connect =>
      cases stepped
      refine ⟨invariant.agrees, invariant.accounted, ?_⟩
      intro link member
      rcases List.mem_append.mp member with old | new
      · exact invariant.coherent link old
      · rw [List.mem_singleton.mp new]
        exact fun _ => rfl
  | receive index packet =>
      obtain ⟨link, found, continued⟩ := Option.bind_eq_some_iff.mp stepped
      have member := List.mem_of_getElem? found
      split at continued
      · cases continued
      · obtain ⟨moves, coherent⟩ :=
          receive_moves parse world.store link.receiver packet (invariant.coherent link member)
        cases continued
        exact ⟨moves.agrees parse invariant.agrees, moves.accounted invariant.accounted,
          invariant.replaceLink index coherent⟩
  | start index page size =>
      obtain ⟨link, found, continued⟩ := Option.bind_eq_some_iff.mp stepped
      have member := List.mem_of_getElem? found
      have coherent := start_coherent (invariant.coherent link member) page size
      split at continued
      · cases continued
      split at continued
      next receiver status started =>
        cases continued
        rw [started] at coherent
        exact ⟨invariant.agrees, invariant.accounted, invariant.replaceLink index coherent⟩
      rename_i receiver started
      cases continued
      rw [started] at coherent
      exact ⟨invariant.agrees, invariant.accounted, invariant.replaceLink index coherent⟩
  | advance index =>
      obtain ⟨link, found, continued⟩ := Option.bind_eq_some_iff.mp stepped
      have coherent := invariant.coherent link (List.mem_of_getElem? found)
      split at continued
      · cases continued
      · cases continued
        exact ⟨invariant.agrees, invariant.accounted, invariant.replaceLink index coherent⟩
      rename_i scope patch rest _
      split at continued
      · cases continued
        exact ⟨invariant.agrees, invariant.accounted,
          invariant.replaceLink index (coherent_fail parse link.receiver)⟩
      rename_i store receiver taken
      cases continued
      obtain ⟨moved, version, acknowledged⟩ := patch_moves parse taken
      have patching : Patching parse world.store store := .single moved
      exact ⟨patching.agrees parse invariant.agrees, patching.accounted invariant.accounted,
        invariant.replaceLink index (acknowledged ▸ coherent.acknowledge parse scope version)⟩
  | next index maximum =>
      obtain ⟨link, found, continued⟩ := Option.bind_eq_some_iff.mp stepped
      have coherent := invariant.coherent link (List.mem_of_getElem? found)
      split at continued
      · cases continued
      rename_i receiver body taken
      cases continued
      exact ⟨invariant.agrees, invariant.accounted,
        invariant.replaceLink index (next_coherent coherent taken)⟩
  | login key secret random =>
      simp only [step] at stepped
      split at stepped
      · cases stepped
        exact invariant
      rename_i access session opened
      cases stepped
      refine ⟨?_, invariant.accounted.opened opened, invariant.coherent⟩
      intro name
      unfold Access.open at opened
      split at opened
      · cases opened
      obtain ⟨_, _, _, equal⟩ := Access.attempt_ok opened
      subst equal
      exact invariant.agrees name
  | enter token =>
      cases stepped
      exact invariant
  | close session =>
      cases stepped
      refine ⟨?_, invariant.accounted.closed session, invariant.coherent⟩
      intro name
      have same : (world.store.access.close session).secret? name
          = world.store.access.secret? name := by
        rcases Access.close_sessions world.store.access session with same | ⟨token, removed⟩
        · rw [same]
        · rw [removed, Access.secret?, Access.secret?]
      exact same.trans (invariant.agrees name)

theorem reachable_invariant {limits : Library.Limits}
    (reached : Reachable parse limits maximum world)
    : Invariant parse world := by
  obtain ⟨steps, ran⟩ := reached
  exact run_invariant step_invariant (initial_invariant limits maximum) ran

-- Failing frames

/-- The Scope and the patches a frame carries; only update frames carry any. -/
def payload (packet : Packet) : Scope × List Patch :=
  match packet.body with
  | .updates page => (page.scope, page.patches)
  | _ => (default, [])

variable (parse)

/-- `after` is the store as the patches of a prefix of the frame leave it, each of them fully
committed.
-/
def PrefixCommitted (before : Shared) (receiver : Receiver) (packet : Packet) (after : Shared)
    : Prop :=
  ∃ done rest acknowledged, (payload packet).2 = done ++ rest
    ∧ Receiver.patches parse (payload packet).1 before receiver done = (after, acknowledged, .ok ())

variable {parse}

/-- A frame that changes nothing committed the empty prefix. -/
theorem prefixCommitted_refl (store : Shared) (receiver : Receiver) (packet : Packet)
    : PrefixCommitted parse store receiver packet store :=
  ⟨[], (payload packet).2, receiver, rfl, rfl⟩

variable {store : Shared} {status : Status}

/-- A failing update loop stops right after its last committed patch. Witness: induction
over the patches.
-/
theorem patches_error {scope : Scope} {items : List Patch} {after : Shared} {final : Receiver}
    (failed : Receiver.patches parse scope store receiver items = (after, final, .error status))
    : ∃ done rest acknowledged, items = done ++ rest
        ∧ Receiver.patches parse scope store receiver done = (after, acknowledged, .ok ()) := by
  induction items generalizing store receiver with
  | nil => cases failed
  | cons patch rest ih =>
      unfold Receiver.patches at failed
      split at failed
      · cases failed
        exact ⟨[], patch :: rest, _, rfl, rfl⟩
      rename_i middle next taken
      obtain ⟨done, remaining, acknowledged, split, committed⟩ := ih failed
      refine ⟨patch :: done, remaining, acknowledged, by rw [split, List.cons_append], ?_⟩
      rw [Receiver.patches, taken]
      exact committed

variable {packet : Packet}

/-- A frame that fails leaves the store at the last commit it made. -/
theorem process_error {after : Shared} {final : Receiver}
    (failed : Receiver.process parse store receiver packet = (after, final, .error status))
    : PrefixCommitted parse store receiver packet after := by
  obtain ⟨body, size⟩ := packet
  by_cases large : size > 8 * 1024 * 1024
  · simp only [Receiver.process, large, if_true] at failed
    cases failed
    exact prefixCommitted_refl store receiver _
  cases body with
  | plan page =>
      simp only [Receiver.process, large, if_false] at failed
      cases taken : Receiver.takePlan store.library receiver page with
      | error status =>
          rw [taken] at failed
          cases failed
          exact prefixCommitted_refl store receiver _
      | ok planned =>
          rw [taken] at failed
          cases failed
  | snapshot page =>
      simp only [Receiver.process, large, if_false] at failed
      split at failed
      · cases failed
        exact prefixCommitted_refl store receiver _
      cases taken : Receiver.snapshot parse store receiver page with
      | error status =>
          rw [taken] at failed
          cases failed
          exact prefixCommitted_refl store receiver _
      | ok result =>
          rw [taken] at failed
          cases failed
  | updates page =>
      simp only [Receiver.process, large, if_false] at failed
      split at failed
      · cases failed
        exact prefixCommitted_refl store receiver _
      unfold Receiver.updates at failed
      split at failed
      · cases failed
        exact prefixCommitted_refl store receiver _
      · exact patches_error failed
  | probe =>
      simp only [Receiver.process, large, if_false] at failed
      split at failed
      · cases failed
        exact prefixCommitted_refl store receiver _
      split at failed <;> cases failed
      exact prefixCommitted_refl store receiver _
  | ready =>
      simp only [Receiver.process, large, if_false] at failed
      split at failed
      · cases failed
        exact prefixCommitted_refl store receiver _
      split at failed
      · cases failed
        exact prefixCommitted_refl store receiver _
      split at failed <;> cases failed
      exact prefixCommitted_refl store receiver _
  | unset | hello | inventory | acknowledged =>
      simp only [Receiver.process, large, if_false] at failed
      split at failed <;> cases failed <;> exact prefixCommitted_refl store receiver _

theorem receive_error {after : Shared} {final : Receiver}
    (failed : Receiver.receive parse store receiver packet = (after, final, .error status))
    : PrefixCommitted parse store receiver packet after := by
  unfold Receiver.receive at failed
  split at failed
  · cases failed
    exact prefixCommitted_refl store receiver packet
  split at failed
  · cases failed
  rename_i taken
  cases failed
  exact process_error taken

/-- An admitted token was opened with the current secret of its key, and the table was not
replaced since.
-/
theorem Invariant.admitted (invariant : Invariant parse world) {token : Bytes}
    {session : Access.Session} (entered : world.store.access.enter token = .ok session)
    : ∃ newer older key secret, world.log = newer ++ .opened token key secret :: older
        ∧ Event.replaced ∉ newer
        ∧ world.store.access.secret? key = some secret := by
  obtain ⟨length, found, active, granted⟩ := Access.enter_ok entered
  obtain ⟨newer, older, key, explained⟩ := invariant.accounted.sessions _ session found
  have current : session.group = world.store.access.group := by
    by_contra moved
    exact granted (explained.revoked moved)
  refine ⟨newer, older, key, session.account.secret, explained.opened,
    explained.unreplaced current, ?_⟩
  rw [Access.secret?, explained.current current active, Option.map_some]

/-- In every reachable world the login table is the parsed credential Scope as installed, a
token is admitted only while its login's secret is current and the table was not replaced,
and a frame that fails leaves the store at its last committed patch, also when the batch is
taken patch by patch.
-/
theorem credential_table_and_revocation (parse : Bytes → Option Bytes)
    (limits : Library.Limits) (maximum : Nat) (world : World)
    (reached : Reachable parse limits maximum world)
    : (∀ key, world.store.access.secret? key = stored parse world.store.library key)
      ∧ (∀ token session, world.store.access.enter token = .ok session
          → ∃ newer older key secret,
              world.log = newer ++ .opened token key secret :: older
              ∧ Event.replaced ∉ newer
              ∧ world.store.access.secret? key = some secret)
      ∧ (∀ receiver packet after final status,
          Receiver.receive parse world.store receiver packet = (after, final, .error status)
          → PrefixCommitted parse world.store receiver packet after)
      ∧ (∀ index link scope patch rest status,
          world.links[index]? = some link
          → link.work = some (scope, patch :: rest)
          → Receiver.patch parse world.store link.receiver scope patch = .error status
          → ∃ next, step parse world (.advance index) = some next ∧ next.store = world.store) := by
  have invariant := reachable_invariant reached
  refine ⟨invariant.agrees, fun _ _ entered => invariant.admitted entered,
    fun _ _ _ _ _ failed => receive_error failed, ?_⟩
  intro index link scope patch rest status found busy failed
  let closed : Link := { receiver := link.receiver.fail, work := none }
  refine ⟨{ world with links := world.links.set index closed }, ?_, rfl⟩
  simp only [step, found, Option.bind_some, busy, failed, closed]

/-- A snapshot installs one credential, and its holder logs in and is admitted. -/
theorem credential_table_and_revocation_login
    : ∃ world session newer older key secret, Reachable some {} 4096 world
        ∧ world.store.access.enter (List.replicate 32 7) = .ok session
        ∧ world.log = newer ++ .opened (List.replicate 32 7) key secret :: older
        ∧ world.store.access.secret? key = some secret := by
  let page : Snapshot :=
    { scope := Scope.auth, entries := [⟨[97], .value [1]⟩], complete := true, version := some 1 }
  let steps : List Step :=
    [.connect, .receive 0 ⟨.plan ⟨[], true⟩, 0⟩, .receive 0 ⟨.snapshot page, 0⟩,
      .login [97] [1] fun _ => some ⟨List.replicate 32 7, rfl⟩]
  obtain ⟨world, ran⟩ : ∃ world, run (step some) (initial {} 4096) steps = some world := ⟨_, rfl⟩
  have entered : ∃ session, world.store.access.enter (List.replicate 32 7) = .ok session := by
    cases ran
    exact ⟨_, rfl⟩
  obtain ⟨session, admitted⟩ := entered
  obtain ⟨_, opened, _⟩ := credential_table_and_revocation some {} 4096 world ⟨steps, ran⟩
  obtain ⟨newer, older, key, secret, logged, _, current⟩ := opened _ _ admitted
  exact ⟨world, session, newer, older, key, secret, ⟨steps, ran⟩, admitted, logged, current⟩

end

end Astra.Credentials
