import Verdandi.Pulsar.Restoring
import Verdandi.Support.Run
import Verdandi.Support.Protobuf

/-! Runs of a ledger: registrations, of which some fail at any point, and restarts. -/

namespace Astra.Ledger

open Support

-- One registration

def successor (ledger : Ledger) (candidate : Member) : Member :=
  { candidate with
    epoch := (ledger.members.get? candidate.principal.text).elim 1 (·.epoch + 1) }

structure Checked (library : Library) (config : Config) (ledger : Ledger) (request : Bytes)
    (member : Member)
    : Prop where
  valid : member.validate library.net = .ok ()
  galaxy : member.galaxy = config.galaxy
  length : request.length = 32
  fresh : ledger.starts.get? request = none
  room : ledger.starts.size < config.maximumStarts
  follows : member.epoch = (ledger.members.get? member.principal.text).elim 0 Member.epoch + 1
  unexhausted : (ledger.members.get? member.principal.text).elim 0 Member.epoch ≠ maxWord
  same : ∀ old, ledger.members.get? member.principal.text = some old
    → old.role = member.role ∧ old.address = member.address ∧ old.id ≠ member.id
  other : ∀ principal current, ledger.members.get? principal = some current
    → principal ≠ member.principal.text
    → current.id ≠ member.id ∧ current.address ≠ member.address
  capacity : ledger.members.get? member.principal.text = none
    → roleCount ledger.members member.role < config.maximum
  written
    : (payload library member).isEmpty = false ∧ (payload library member).length ≤ 1024

inductive Outcome (library : Library) (config : Config) (ledger : Ledger) (candidate : Member)
    (request : Bytes)
    : Answer → Ledger → Prop where
  | refused (failure : Status) : Outcome library config ledger candidate request (.refused failure)
      ledger
  | thrown : Outcome library config ledger candidate request .thrown ledger
  | repeated {start : Start} {old : Member} (known : ledger.starts.get? request = some start)
      (current : ledger.members.get? candidate.principal.text = some old)
      : Outcome library config ledger candidate request (.accepted old) ledger
  | stopped (failure : Status)
      : Outcome library config ledger candidate request (.refused failure)
          { ledger with writable := false }
  | done {database : Database} (writable : ledger.writable = true)
      (checked : Checked library config ledger request (successor ledger candidate))
      (inserted : ledger.database.insert candidate.principal.text
        (payload library (successor ledger candidate)) request
        (Database.epoch (successor ledger candidate).epoch) = some database)
      : Outcome library config ledger candidate request (.accepted (successor ledger candidate))
          { ledger with
            database
            members :=
              ledger.members.set candidate.principal.text (successor ledger candidate)
            starts :=
              ledger.starts.set request
                { principal := candidate.principal.text
                  epoch := (successor ledger candidate).epoch } }
  | uncertain {database : Database} (failure : Status) (writable : ledger.writable = true)
      (checked : Checked library config ledger request (successor ledger candidate))
      (inserted : ledger.database.insert candidate.principal.text
        (payload library (successor ledger candidate)) request
        (Database.epoch (successor ledger candidate).epoch) = some database)
      : Outcome library config ledger candidate request (.refused failure)
          { ledger with writable := false, database }

variable {library : Library} {config : Config} {ledger : Ledger} {candidate : Member}
  {request : Bytes}

variable {member : Member}

theorem checked_of_validate (valid : ledger.validate library config member request = .ok ())
    (written : (payload library member).isEmpty = false ∧ (payload library member).length ≤ 1024)
    : Checked library config ledger request member := by
  unfold Ledger.validate at valid
  dsimp only at valid
  split at valid
  · cases valid
  next shaped =>
  split at valid
  · cases valid
  next fresh =>
  split at valid
  · cases valid
  next room =>
  split at valid
  · cases valid
  next follows =>
  split at valid
  · cases valid
  next other =>
  split at valid
  · cases valid
  rename_i capacity
  simp only [not_or, not_not, Option.isNone_iff_eq_none] at shaped
  simp only [not_or, not_not] at follows
  refine
    { valid := ?_
      galaxy := shaped.2.1
      length := shaped.2.2
      fresh := (Assoc.contains_eq_false_iff _ _).mp (by simpa using fresh)
      room := by omega
      follows := follows.2.1
      unexhausted := follows.1
      same := ?_
      other := ?_
      capacity := ?_
      written }
  · cases checked : member.validate library.net with
    | error failure =>
        rw [checked] at shaped
        exact absurd rfl shaped.1
    | ok _ => rfl
  · intro old known
    have kept := follows.2.2
    rw [known] at kept
    simpa [not_or] using kept
  · intro principal current known different
    have apart := other
    simp only [List.any_eq_true, not_exists, not_and, decide_eq_true_eq] at apart
    have listed := (Assoc.mem_toPairs ledger.members principal current).mpr known
    have neither := apart (principal, current) listed different
    rw [not_or] at neither
    exact neither
  · intro absent
    rw [absent] at capacity
    simpa using capacity

/-- A registration has one of the outcomes. Witness: its branches in order. -/
theorem outcome (throws : Bool) (fate : Fate)
    : Outcome library config ledger candidate request
        (ledger.registerMember library config candidate request throws fate).1
        (ledger.registerMember library config candidate request throws fate).2 := by
  unfold registerMember
  split
  · exact .refused _
  next writable =>
  have isWritable : ledger.writable = true := by simpa using writable
  split
  · exact .refused _
  dsimp only
  split
  next start known =>
    split
    · exact .refused _
    rename_i old current
    split
    · exact .refused _
    · split
      · exact .thrown
      · exact .repeated known current
  rename_i unknown
  split
  · exact .refused _
  have isSuccessor : ({ candidate with
      epoch := (ledger.members.get? candidate.principal.text).elim 1 (·.epoch + 1) } : Member)
      = successor ledger candidate := rfl
  rw [isSuccessor]
  split
  · exact .refused _
  rename_i valid
  split
  · exact .thrown
  rename_i written
  have bounds : (payload library (successor ledger candidate)).isEmpty = false
      ∧ (payload library (successor ledger candidate)).length ≤ 1024 := by
    simp only [not_or, Bool.not_eq_true] at written
    exact ⟨written.2.1, Nat.le_of_not_gt written.2.2⟩
  have checked := checked_of_validate valid bounds
  cases inserted : ledger.database.insert candidate.principal.text
      (payload library (successor ledger candidate)) request
      (Database.epoch (successor ledger candidate).epoch) with
  | none =>
      simp only [commit, successor, payload] at inserted ⊢
      rw [inserted]
      exact .stopped _
  | some database =>
      cases fate with
      | done =>
          have result := Outcome.done isWritable checked inserted
          simp only [commit, successor, payload] at inserted ⊢
          rw [inserted]
          exact result
      | undone =>
          simp only [commit, successor, payload] at inserted ⊢
          rw [inserted]
          exact .stopped _
      | uncertain =>
          have result := Outcome.uncertain
            (.transport "Registration durability is uncertain; restart required") isWritable
            checked inserted
          simp only [commit, successor, payload] at inserted ⊢
          rw [inserted]
          exact result

-- Runs

/-- A ledger, and as a history variable the starts that were made durable, the newest first. -/
structure World where
  ledger : Ledger := {}
  commits : List Commit := []

/-- A registration, whose answer may fail to be prepared and whose transaction may end in any
way, or a restart under the same bounds.
-/
inductive Action where
  | register (candidate : Member) (request : Bytes) (throws : Bool) (fate : Fate)
  | restart

def learned (ledger next : Ledger) (candidate : Member) (request : Bytes) : List Commit :=
  if next.database.starts.contains request && !ledger.database.starts.contains request then
    [{ request, member := successor ledger candidate }]
  else
    []

def step (library : Library) (config : Config) (world : World) : Action → Option World
  | .register candidate request throws fate =>
      let next := (world.ledger.registerMember library config candidate request throws fate).2
      some
        { ledger := next
          commits := learned world.ledger next candidate request ++ world.commits }
  | .restart =>
      (world.ledger.restart library config).map fun ledger => { world with ledger }

/-- What is in memory is what was committed up to some start; all of it while the ledger may be
written.
-/
structure Knows (library : Library) (config : Config) (world : World) (known : List Commit)
    : Prop where
  past : known <:+ world.commits
  history : History library config known
  members : world.ledger.members.get? = (book known).get?
  starts : world.ledger.starts.get? = (requests known).get?
  current : world.ledger.writable = true → known = world.commits

structure Agrees (library : Library) (config : Config) (world : World) : Prop where
  history : History library config world.commits
  stored : Stored library world.commits world.ledger.database
  knows : ∃ known, Knows library config world known

theorem agrees_empty : Agrees library config ({} : World) := by
  refine ⟨.empty, ⟨fun _ => by simp [book], fun _ => by simp [requests]⟩, [], ?_⟩
  exact ⟨List.suffix_rfl, .empty, rfl, rfl, fun _ => rfl⟩

variable {world : World}

variable {commits : List Commit}

theorem History.nodup_requests (history : History library config commits)
    : (commits.map Commit.request).Nodup := by
  induction history with
  | empty => exact List.nodup_nil
  | @commit earlier request member before admits ih =>
      rw [List.map_cons, List.nodup_cons]
      refine ⟨?_, ih⟩
      intro listed
      obtain ⟨commit, isCommit, same⟩ := List.mem_map.mp listed
      have known := before.request_iff.mpr ⟨commit, isCommit, same, rfl⟩
      dsimp only at known
      rw [admits.fresh] at known
      cases known

/-- As many requests are known as were committed. -/
theorem History.length_le_size (history : History library config commits)
    : commits.length ≤ (requests commits).size := by
  have inside : commits.map Commit.request ⊆ (requests commits).keys := by
    intro request listed
    obtain ⟨commit, isCommit, same⟩ := List.mem_map.mp listed
    exact (Assoc.mem_keys _ _).mpr ⟨_, history.request_iff.mpr ⟨commit, isCommit, same, rfl⟩⟩
  have fewer := (List.subperm_of_subset history.nodup_requests inside).length_le
  simpa [Assoc.keys, Assoc.size] using fewer

/-- What a ledger that knows everything has checked is admitted. -/
theorem Checked.admits (checked : Checked library config ledger request member)
    (history : History library config commits) (members : ledger.members.get? = (book commits).get?)
    (starts : ledger.starts.get? = (requests commits).get?)
    : Admits library config commits request member := by
  have small := history.reached_le member.principal.text
  have unexhausted := checked.unexhausted
  have follows := checked.follows
  rw [members] at unexhausted follows
  rw [reached] at small
  refine
    { valid := checked.valid
      galaxy := checked.galaxy
      length := checked.length
      fresh := starts ▸ checked.fresh
      room := ?_
      follows
      small := by omega
      same := members ▸ checked.same
      other := members ▸ checked.other
      capacity := ?_
      written := checked.written }
  · have room := checked.room
    rw [Assoc.size_congr starts] at room
    exact history.length_le_size.trans_lt room
  · intro absent
    rw [← roleCount_congr members]
    exact checked.capacity (members ▸ absent)

variable {database : Database}

/-- The database accepts what is admitted, and says so. -/
theorem Stored.insert {next : Database} (stored : Stored library commits database)
    (inserted : database.insert member.principal.text (payload library member) request
      (Database.epoch member.epoch) = some next)
    : Stored library ({ request, member } :: commits) next := by
  unfold Database.insert at inserted
  split at inserted
  · cases inserted
  cases inserted
  constructor
  · intro principal
    rw [book, Assoc.get?_set, Assoc.get?_set, stored.members]
    split <;> rfl
  · intro other
    rw [requests, Assoc.get?_set, Assoc.get?_set, stored.starts]
    split <;> rfl

theorem Stored.unknown (stored : Stored library commits database)
    (fresh : (requests commits).get? request = none)
    : database.starts.contains request = false := by
  rw [Assoc.contains_eq_false_iff, stored.starts, fresh, Option.map_none]

variable {next : Ledger}

/-- A start that was learned stands in the database now and did not before. -/
theorem learned_of_insert (stored : Stored library commits ledger.database)
    (fresh : (requests commits).get? request = none)
    (inserted : ledger.database.insert candidate.principal.text
      (payload library (successor ledger candidate)) request
      (Database.epoch (successor ledger candidate).epoch) = some database)
    (isNext : next.database = database)
    : learned ledger next candidate request
      = [{ request, member := successor ledger candidate }] := by
  have now : next.database.starts.contains request = true := by
    rw [isNext, Assoc.contains_iff]
    unfold Database.insert at inserted
    split at inserted
    · cases inserted
    cases inserted
    exact ⟨_, by rw [Assoc.get?_set, if_pos rfl]⟩
  unfold learned
  rw [now, stored.unknown fresh]
  rfl

theorem learned_same (same : next.database = ledger.database)
    : learned ledger next candidate request = [] := by
  unfold learned
  rw [same]
  simp

/-- Every registration keeps memory, database and history in step. -/
theorem Agrees.register (agrees : Agrees library config world) (candidate : Member)
    (request : Bytes) (throws : Bool) (fate : Fate)
    {next : World} (stepped : step library config world
      (.register candidate request throws fate) = some next)
    : Agrees library config next := by
  obtain ⟨known, knows⟩ := agrees.knows
  cases stepped
  have happened := @outcome library config world.ledger candidate request throws fate
  generalize world.ledger.registerMember library config candidate request throws fate = result
    at happened ⊢
  obtain ⟨answer, ledger⟩ := result
  dsimp only at happened ⊢
  -- Whatever changes neither the database nor what is known keeps everything.
  have unchanged (ledger : Ledger) (database : ledger.database = world.ledger.database)
      (members : ledger.members = world.ledger.members)
      (starts : ledger.starts = world.ledger.starts)
      (writable : ledger.writable = true → world.ledger.writable = true)
      : Agrees library config
          { ledger, commits := learned world.ledger ledger candidate request ++ world.commits } := by
    rw [learned_same database, List.nil_append]
    refine ⟨agrees.history, database ▸ agrees.stored, known, knows.past, knows.history, ?_, ?_, ?_⟩
    · exact members ▸ knows.members
    · exact starts ▸ knows.starts
    · exact fun isWritable => knows.current (writable isWritable)
  cases happened with
  | refused failure => exact unchanged _ rfl rfl rfl id
  | thrown => exact unchanged _ rfl rfl rfl id
  | repeated isKnown current => exact unchanged _ rfl rfl rfl id
  | stopped failure => exact unchanged _ rfl rfl rfl (by intros; contradiction)
  | done writable checked inserted =>
      have all := knows.current writable
      subst all
      have admits := checked.admits agrees.history knows.members knows.starts
      rw [learned_of_insert agrees.stored admits.fresh inserted rfl, List.singleton_append]
      have history := agrees.history.commit admits
      refine ⟨history, agrees.stored.insert inserted, _, List.suffix_rfl, history, ?_, ?_,
        fun _ => rfl⟩
      · funext principal
        rw [book, Assoc.get?_set, Assoc.get?_set, knows.members]
        rfl
      · funext other
        rw [requests, Assoc.get?_set, Assoc.get?_set, knows.starts]
        rfl
  | uncertain failure writable checked inserted =>
      have all := knows.current writable
      subst all
      have admits := checked.admits agrees.history knows.members knows.starts
      rw [learned_of_insert agrees.stored admits.fresh inserted rfl, List.singleton_append]
      exact ⟨agrees.history.commit admits, agrees.stored.insert inserted, _,
        List.suffix_cons _ _, knows.history, knows.members, knows.starts,
        (by intros; contradiction)⟩

/-- A restart finds what was committed. -/
theorem Agrees.restart (sound : library.Sound) (agrees : Agrees library config world)
    : ∃ next, step library config world .restart = some next ∧ Agrees library config next
        ∧ next.ledger.writable = true
        ∧ next.commits = world.commits := by
  obtain ⟨members, starts, restored, sameMembers, sameStarts⟩ :=
    agrees.stored.restore sound agrees.history
  refine ⟨{ world with ledger := { members, starts, database := world.ledger.database } }, ?_,
    ⟨agrees.history, agrees.stored, _, List.suffix_rfl, agrees.history, sameMembers, sameStarts,
      fun _ => rfl⟩, rfl, rfl⟩
  simp only [step, Ledger.restart, restored, Option.map_some]

variable {actions : List Action}

theorem agrees_of_run (sound : library.Sound)
    (reached : run (step library config) {} actions = some world)
    : Agrees library config world := by
  refine run_invariant ?_ agrees_empty reached
  intro before action after agrees stepped
  cases action with
  | register candidate request throws fate =>
      exact agrees.register candidate request throws fate stepped
  | restart =>
      obtain ⟨next, isNext, agreesNext, _⟩ := agrees.restart sound
      rw [stepped] at isNext
      exact Option.some.inj isNext ▸ agreesNext

-- The law

def Repeats (candidate member : Member) : Prop :=
  candidate.principal = member.principal ∧ candidate.role = member.role
  ∧ candidate.group = member.group ∧ candidate.address = member.address

/-- A committed request that is made again changes nothing: it gets the member it was committed
for while that is the current one, and a conflict otherwise.
-/
theorem Agrees.again (agrees : Agrees library config world) {commit : Commit}
    (listed : commit ∈ world.commits) (writable : world.ledger.writable = true)
    (unstarted : candidate.epoch = 0) (galaxy : candidate.galaxy = config.galaxy) (throws : Bool)
    (fate : Fate)
    : (world.ledger.registerMember library config candidate commit.request throws fate).2
        = world.ledger
      ∧ (world.ledger.members.get? candidate.principal.text = some commit.member
          → Repeats candidate commit.member
          → (world.ledger.registerMember library config candidate commit.request throws fate).1
            = if throws then .thrown else .accepted commit.member)
      ∧ (¬ (world.ledger.members.get? candidate.principal.text = some commit.member
            ∧ Repeats candidate commit.member)
          → ∃ text,
            (world.ledger.registerMember library config candidate commit.request throws fate).1
              = .refused (.conflict text)) := by
  obtain ⟨known, knows⟩ := agrees.knows
  have all := knows.current writable
  subst all
  have start := agrees.history.request_iff.mpr ⟨commit, listed, rfl, rfl⟩
  rw [← knows.starts] at start
  have length := agrees.history.request_length listed
  have accepted : ¬ (commit.request.length ≠ 32 ∨ candidate.epoch ≠ 0
      ∨ candidate.galaxy ≠ config.galaxy) := by
    simp [length, unstarted, galaxy]
  unfold registerMember
  rw [if_neg (by simp [writable]), if_neg accepted, start]
  dsimp only
  cases isCurrent : world.ledger.members.get? candidate.principal.text with
  | none => exact ⟨rfl, nofun, fun _ => ⟨_, rfl⟩⟩
  | some old =>
      dsimp only
      split
      next differs =>
        refine ⟨rfl, ?_, fun _ => ⟨_, rfl⟩⟩
        rintro ⟨⟩ ⟨principal, role, group, address⟩
        simp [principal, role, group, address] at differs
      rename_i agreeing
      simp only [not_or, not_not] at agreeing
      obtain ⟨principal, epoch, role, group, address⟩ := agreeing
      -- The current member has the deployment and the epoch of the committed one.
      rw [knows.members] at isCurrent
      obtain ⟨latest, isLatest, rfl⟩ := mem_of_book isCurrent
      have named := (agrees.history.sitting isCurrent).named
      have same := agrees.history.epoch_unique listed isLatest (principal.trans named.symm) epoch
      subst same
      have repeats : Repeats candidate commit.member :=
        ⟨Principal.text_injective named.symm, role.symm, group.symm, address.symm⟩
      refine ⟨by split <;> rfl, fun _ _ => by split <;> rfl, ?_⟩
      intro neither
      exact absurd ⟨rfl, repeats⟩ neither

/-- For every run of registrations and restarts: a restart always succeeds and finds the members
and starts that were committed; the epochs of a deployment are counted from one without a gap; a
request is committed at most once, and made again it gets its member or a conflict and changes
nothing; current members share neither id nor address; and a deployment keeps its role and
address.
-/
theorem admission_law (sound : library.Sound)
    (reached : run (step library config) {} actions = some world)
    : (∀ action, ∃ next, step library config world action = some next)
      ∧ (∃ members starts, restore library config world.ledger.database = some (members, starts)
        ∧ members.get? = (book world.commits).get?
        ∧ starts.get? = (requests world.commits).get?
        ∧ (world.ledger.writable = true
          → members.get? = world.ledger.members.get? ∧ starts.get? = world.ledger.starts.get?))
      ∧ (∀ principal : Principal,
        ((world.commits.reverse.filter (·.member.principal = principal)).map (·.member.epoch))
          = List.range' 1 ((world.commits.reverse.filter (·.member.principal = principal)).length))
      ∧ (world.commits.map Commit.request).Nodup
      ∧ (∀ commit ∈ world.commits, world.ledger.writable = true
        → ∀ candidate : Member, candidate.epoch = 0 → candidate.galaxy = config.galaxy
        → ∀ throws fate,
          (world.ledger.registerMember library config candidate commit.request throws fate).2
            = world.ledger
          ∧ (world.ledger.members.get? candidate.principal.text = some commit.member
            → Repeats candidate commit.member
            → (world.ledger.registerMember library config candidate commit.request throws fate).1
              = if throws then .thrown else .accepted commit.member)
          ∧ (¬ (world.ledger.members.get? candidate.principal.text = some commit.member
              ∧ Repeats candidate commit.member)
            → ∃ text,
              (world.ledger.registerMember library config candidate commit.request throws fate).1
                = .refused (.conflict text)))
      ∧ (∀ one two first second, world.ledger.members.get? one = some first
        → world.ledger.members.get? two = some second → one ≠ two
        → first.id ≠ second.id ∧ first.address ≠ second.address)
      ∧ ∀ one ∈ world.commits, ∀ other ∈ world.commits,
        one.member.principal = other.member.principal
        → one.member.role = other.member.role ∧ one.member.address = other.member.address := by
  have agrees := agrees_of_run sound reached
  obtain ⟨known, knows⟩ := agrees.knows
  have history := agrees.history
  refine ⟨?_, ?_, ?_, history.nodup_requests, ?_, ?_, ?_⟩
  · intro action
    cases action with
    | register candidate request throws fate => exact ⟨_, rfl⟩
    | restart =>
        obtain ⟨next, isNext, _⟩ := agrees.restart sound
        exact ⟨next, isNext⟩
  · obtain ⟨members, starts, restored, sameMembers, sameStarts⟩ :=
      agrees.stored.restore sound history
    refine ⟨members, starts, restored, sameMembers, sameStarts, ?_⟩
    intro writable
    have all := knows.current writable
    subst all
    exact ⟨sameMembers.trans knows.members.symm, sameStarts.trans knows.starts.symm⟩
  · intro principal
    have epochs := history.epochs principal.text
    have same : world.commits.filter (fun commit => decide (commit.member.principal.text
        = principal.text))
        = world.commits.filter fun commit => decide (commit.member.principal = principal) := by
      refine List.filter_congr fun commit _ => ?_
      simp [Principal.text_injective.eq_iff]
    rw [same] at epochs
    have lengths := congrArg List.length epochs
    rw [List.length_map, List.length_reverse, List.length_range'] at lengths
    rw [List.filter_reverse, List.map_reverse, epochs, List.reverse_reverse, List.length_reverse,
      lengths]
  · intro commit listed writable candidate unstarted galaxy throws fate
    exact agrees.again listed writable unstarted galaxy throws fate
  · intro one two first second isFirst isSecond different
    rw [knows.members] at isFirst isSecond
    exact knows.history.distinct isFirst isSecond different
  · intro one isOne other isOther deployment
    obtain ⟨current, isCurrent, role, address⟩ := history.fixed isOne
    obtain ⟨same, isSame, roleOther, addressOther⟩ := history.fixed isOther
    rw [deployment, isSame] at isCurrent
    cases isCurrent
    exact ⟨role.symm.trans roleOther, address.symm.trans addressOther⟩

-- A first start

/-- The fields of the `Member` message. -/
def fields (record : Encoded) : List Protobuf.Field :=
  [(1, .bytes record.galaxy), (2, .bytes record.id), (3, .bytes record.principal),
    (4, .bytes record.advertise), (5, .number record.epoch), (7, .number record.role),
    (8, .bytes record.group)]

def ofFields (fields : List Protobuf.Field) : Encoded where
  galaxy := Protobuf.bytesOf fields 1
  id := Protobuf.bytesOf fields 2
  principal := Protobuf.bytesOf fields 3
  advertise := Protobuf.bytesOf fields 4
  epoch := Protobuf.numberOf fields 5
  role := Protobuf.numberOf fields 7
  group := Protobuf.bytesOf fields 8

def plainLibrary : Library where
  net :=
    { pton := fun ipv6 host =>
        if ipv6 = false ∧ host = [49, 48, 46, 48, 46, 48, 46, 49] then some [10, 0, 0, 1] else none
      ntop := fun ipv6 bytes =>
        if ipv6 = false ∧ bytes = [10, 0, 0, 1] then some [49, 48, 46, 48, 46, 48, 46, 49]
        else none }
  serialize := fun record => Protobuf.write (fields record)
  parse := fun input => (Protobuf.read input).map ofFields

theorem plainLibrary_sound : plainLibrary.Sound where
  coded := by
    intro record _ _ _ _
    have distinct : ((fields record).map Prod.fst).Nodup := by
      simp [fields]
    simp only [plainLibrary, Protobuf.read_write, Option.map_some, ofFields,
      Protobuf.bytesOf_filter distinct, Protobuf.numberOf_filter distinct]
    rfl
  plain := by
    intro ipv6 bytes host printed
    simp only [plainLibrary] at printed
    split at printed
    · cases printed
      simp [Ascii]
    · cases printed

def newcomer : Member where
  galaxy := [103]
  id := [105]
  principal := { bytes := List.replicate 32 1, length := rfl }
  address := { host := [49, 48, 46, 48, 46, 48, 46, 49], port := 9000 }
  group := [97]

def started : Option World :=
  run (step plainLibrary { galaxy := [103], maximum := 1, maximumStarts := 1 }) {}
    [.register newcomer (List.replicate 32 7) false .done]

/-- The first start is committed with the epoch one and found again by a restart. -/
theorem admission_law_started
    : ∃ world, started = some world
      ∧ world.commits.map (fun commit => (commit.request, commit.member.epoch))
        = [(List.replicate 32 7, 1)]
      ∧ ∃ members starts, restore plainLibrary { galaxy := [103], maximum := 1, maximumStarts := 1 }
          world.ledger.database = some (members, starts)
        ∧ members.get? = (book world.commits).get? := by
  have reached : ∃ world, started = some world := ⟨_, rfl⟩
  obtain ⟨world, isWorld⟩ := reached
  have committed : (started.map fun world =>
      world.commits.map fun commit => (commit.request, commit.member.epoch))
      = some [(List.replicate 32 7, 1)] := by
    decide
  rw [isWorld, Option.map_some, Option.some.injEq] at committed
  obtain ⟨_, ⟨members, starts, restored, same, _⟩, _⟩ := admission_law plainLibrary_sound isWorld
  exact ⟨world, isWorld, committed, members, starts, restored, same⟩

end Astra.Ledger
