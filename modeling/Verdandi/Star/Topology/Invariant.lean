import Verdandi.Star.Topology.Model
import Verdandi.Support.Run

/-! What holds of a directory after any calls: one active stream for each member, unique ids and
addresses, and starts that only go up.
-/

namespace Astra.Topology

open Support Policy

variable {net : Net} {hash : Bytes → Nat} {config : Config} {topology next : Topology}

-- One entry

@[simp]
theorem Entry.member_put (entry : Entry) (direction : Direction) (session : Option Nat)
    : (entry.put direction session).member = entry.member := by
  cases direction <;> rfl

@[simp]
theorem Entry.pending_put (entry : Entry) (direction : Direction) (session : Option Nat)
    : (entry.put direction session).pending = entry.pending := by
  cases direction <;> rfl

@[simp]
theorem Entry.session_put (entry : Entry) (direction other : Direction) (session : Option Nat)
    : (entry.put direction session).session other
      = if other = direction then session else entry.session other := by
  cases direction <;> cases other <;> rfl

theorem ne_opposite (direction : Direction) : direction.opposite ≠ direction := by
  cases direction <;> decide

variable {entry : Entry} {generation : Nat} {direction : Direction}

theorem Entry.holding_some (holding : entry.holding generation = some direction)
    : entry.session direction = some generation := by
  unfold Entry.holding at holding
  split at holding
  next held =>
    cases holding
    exact held
  split at holding
  next held =>
    cases holding
    exact held
  · cases holding

theorem Entry.holding_none (free : entry.holding generation = none) (direction : Direction)
    : entry.session direction ≠ some generation := by
  unfold Entry.holding at free
  split at free
  · cases free
  rename_i outbound
  split at free
  · cases free
  next inbound => cases direction <;> assumption

variable {principal : Principal}

theorem mem_entries {members : Assoc Principal Entry}
    : (principal, entry) ∈ entries members ↔ members.get? principal = some entry := by
  rw [entries, List.mem_insertionSort, Assoc.mem_toPairs]

-- What the calls do

structure Puts (principal : Principal) (entry : Entry) (before after : Topology) : Prop where
  self : after.self = before.self
  members : ∀ other, after.members.get? other
    = if other = principal then some entry else before.members.get? other

theorem puts_set (principal : Principal) (entry : Entry)
    : Puts principal entry topology
        { topology with members := topology.members.set principal entry } :=
  ⟨rfl, fun _ => Assoc.get?_set ..⟩

theorem Puts.again {first second : Entry} {middle last : Topology}
    (one : Puts principal first topology middle) (other : Puts principal second middle last)
    : Puts principal second topology last where
  self := other.self.trans one.self
  members name := by
    rw [other.members, one.members]
    split <;> rfl

structure Closes (config : Config) (generation : Nat) (principal : Principal) (entry : Entry)
    (before after : Topology)
    : Prop where
  known : before.members.get? principal = some entry
  puts : ∃ direction failures time, entry.session direction = some generation
    ∧ Puts principal { entry.put direction none with failures, next := time } before after

theorem closed_cases (hash : Bytes → Nat) (config : Config) (topology : Topology)
    (generation : Nat) (now : Int)
    : (topology.closed hash config generation now = topology
        ∧ ∀ principal entry direction, topology.members.get? principal = some entry
          → entry.session direction ≠ some generation)
      ∨ ∃ principal entry, Closes config generation principal entry topology
        (topology.closed hash config generation now) := by
  unfold closed
  split
  next missing =>
    refine .inl ⟨rfl, fun principal entry direction isEntry => ?_⟩
    have free := List.findSome?_eq_none_iff.mp missing _ (mem_entries.mpr isEntry)
    exact Entry.holding_none (Option.map_eq_none_iff.mp free) direction
  rename_i principal entry direction found
  obtain ⟨⟨name, held⟩, listed, isHolding⟩ := List.exists_of_findSome?_eq_some found
  obtain ⟨_, holding, same⟩ := Option.map_eq_some_iff.mp isHolding
  cases same
  exact .inr ⟨name, held, mem_entries.mp listed, direction, _, _,
    Entry.holding_some holding, puts_set _ _⟩

structure Dials (now : Int) (principal : Principal) (entry : Entry) (before after : Topology)
    : Prop where
  known : before.members.get? principal = some entry
  eligible : entry.eligible now = true
  puts : Puts principal { entry with pending := true } before after

theorem due_cases (topology : Topology) (now : Int)
    : ((topology.due now).1 = none ∧ (topology.due now).2 = topology)
      ∨ ∃ principal entry, (topology.due now).1 = some entry.member
        ∧ Dials now principal entry topology (topology.due now).2 := by
  unfold due
  split
  · exact .inl ⟨rfl, rfl⟩
  split
  · exact .inl ⟨rfl, rfl⟩
  rename_i principal entry found
  have listed := mem_entries.mp (List.mem_of_find?_eq_some found)
  have eligible : entry.eligible now = true := by simpa using List.find?_some found
  exact .inr ⟨principal, entry, rfl, listed, eligible, puts_set _ _⟩

structure Fails (target : Member) (entry : Entry) (before after : Topology) : Prop where
  known : before.members.get? target.principal = some entry
  same : entry.member = target
  puts : ∃ failures time, Puts target.principal { entry with pending := false, failures, next := time }
    before after

theorem failed_cases (hash : Bytes → Nat) (config : Config) (topology : Topology)
    (target : Member) (now : Int)
    : (topology.failed hash config target now = topology
        ∧ ∀ entry, topology.members.get? target.principal = some entry → entry.member ≠ target)
      ∨ ∃ entry, Fails target entry topology (topology.failed hash config target now) := by
  unfold failed
  split
  next missing =>
    refine .inl ⟨rfl, fun entry isEntry same => ?_⟩
    rw [isEntry, Option.filter_some, if_pos (by simpa using same)] at missing
    cases missing
  rename_i entry found
  obtain ⟨known, same⟩ := Option.filter_eq_some_iff.mp found
  refine .inr ⟨entry, known, by simpa using same, ?_⟩
  dsimp only
  split
  · exact ⟨entry.failures, entry.next, puts_set _ _⟩
  · exact ⟨_, _, puts_set _ _⟩

-- Complete lists

/-- What a pass leaves. Witness: induction over the list; the ids go up from the one before. -/
structure Scanned (galaxy : Bytes) (own : Member) (members : List Member) (before after : Scan)
    : Prop where
  fresh : ∀ principal entry, after.prepared.get? principal = some entry
    → before.prepared.get? principal = some entry
      ∨ ∃ member ∈ members, member.principal = principal ∧ principal ≠ own.principal
        ∧ member.role = .star ∧ entry = { member }
  found : after.found = true → before.found = true ∨ own ∈ members
  alike : ∀ member ∈ members, member.galaxy = galaxy ∧ member.role = .star
  ordered : members.Pairwise (·.id < ·.id)
  above : ∀ previous, before.previous = some previous → ∀ member ∈ members, previous < member.id

variable {members : List Member} {self : Member}

theorem scanned_of_scan {before after : Scan}
    (passed : scan net config self members before = .ok after)
    : Scanned config.galaxy self members before after := by
  induction members generalizing before with
  | nil =>
      cases passed
      exact ⟨fun _ _ found => .inl found, .inl, nofun, .nil, nofun⟩
  | cons first rest ih =>
      unfold scan at passed
      split at passed
      · cases passed
      next valid =>
      simp only [not_or, not_not] at valid
      obtain ⟨_, galaxy, role, above⟩ := valid
      have above (previous : Bytes) (isPrevious : before.previous = some previous)
          : previous < first.id := by
        simpa [isPrevious] using above
      -- Whatever follows the first member is above it.
      have onwards {middle : Scan} (scanned : Scanned config.galaxy self rest middle after)
          (isFirst : middle.previous = some first.id)
          : (∀ member ∈ first :: rest, member.galaxy = config.galaxy ∧ member.role = .star)
            ∧ (first :: rest).Pairwise (·.id < ·.id)
            ∧ ∀ previous, before.previous = some previous
              → ∀ member ∈ first :: rest, previous < member.id := by
        have least := scanned.above first.id isFirst
        refine ⟨?_, .cons least scanned.ordered, fun previous isPrevious member listed => ?_⟩
        · intro member listed
          rcases List.mem_cons.mp listed with rfl | later
          · exact ⟨galaxy, role⟩
          · exact scanned.alike member later
        rcases List.mem_cons.mp listed with rfl | later
        · exact above previous isPrevious
        · exact List.lt_trans (above previous isPrevious) (least member later)
      split at passed
      next own =>
        split at passed
        · cases passed
        rename_i same
        have scanned := ih passed
        obtain ⟨alike, ordered, whole⟩ := onwards scanned rfl
        have isSelf : first = self := by simpa using same
        refine ⟨?_, fun _ => .inr (by simp [isSelf]), alike, ordered, whole⟩
        intro principal entry isEntry
        rcases scanned.fresh principal entry isEntry with old | ⟨member, listed, rest'⟩
        · exact .inl old
        · exact .inr ⟨member, List.mem_cons_of_mem _ listed, rest'⟩
      rename_i other
      split at passed
      · cases passed
      · have scanned := ih passed
        obtain ⟨alike, ordered, whole⟩ := onwards scanned rfl
        refine ⟨?_, fun isFound => (scanned.found isFound).imp_right (List.mem_cons_of_mem _),
          alike, ordered, whole⟩
        intro principal entry isEntry
        rcases scanned.fresh principal entry isEntry with old | ⟨member, listed, rest'⟩
        · dsimp only at old
          rw [Assoc.get?_set] at old
          split at old
          next same =>
            cases old
            exact .inr ⟨first, List.mem_cons_self, same.symm, same ▸ other, role, rfl⟩
          · exact .inl old
        · exact .inr ⟨member, List.mem_cons_of_mem _ listed, rest'⟩

structure Complete (own : Member) (members : List Member) (prepared : Assoc Principal Entry)
    : Prop where
  fresh : ∀ principal entry, prepared.get? principal = some entry
    → ∃ member ∈ members, member.principal = principal ∧ principal ≠ own.principal
      ∧ member.role = .star ∧ entry = { member }
  listed : own ∈ members
  alike : ∀ member ∈ members, member.galaxy = own.galaxy ∧ member.role = .star
  ids : ∀ one ∈ members, ∀ other ∈ members, one.id = other.id → one = other
  addresses : ∀ one ∈ members, ∀ other ∈ members, one.address = other.address → one = other

variable {prepared : Assoc Principal Entry}

theorem complete_ok (accepted : complete net config self members = .ok prepared)
    : Complete self members prepared := by
  unfold complete at accepted
  split at accepted
  · cases accepted
  split at accepted
  · cases accepted
  next state passed =>
  have scanned := scanned_of_scan passed
  split at accepted
  · cases accepted
  next isFound =>
  split at accepted
  · cases accepted
  rename_i distinct
  cases accepted
  have listed : self ∈ members := by
    rcases scanned.found (by simpa using isFound) with old | listed
    · cases old
    · exact listed
  refine ⟨?_, listed, ?_, ?_, ?_⟩
  · intro principal entry isEntry
    rcases scanned.fresh principal entry isEntry with old | fresh
    · rw [Assoc.get?_empty] at old
      cases old
    · exact fresh
  · intro member isMember
    have alike := scanned.alike member isMember
    exact ⟨alike.1.trans (scanned.alike self listed).1.symm, alike.2⟩
  · have ids : (members.map Member.id).Nodup := by
      refine List.pairwise_map.mpr (scanned.ordered.imp fun {one other} below => ?_)
      intro same
      rw [same] at below
      exact List.lt_irrefl _ below
    intro one isOne other isOther same
    exact List.inj_on_of_nodup_map ids isOne isOther same
  · intro one isOne other isOther same
    exact List.inj_on_of_nodup_map (not_not.mp distinct) isOne isOther (congrArg Endpoint.text same)

/-- What merging leaves: every entry is an old one or one of the list, and an old one gives way to a
later start only.
-/
structure Merged (list : List (Principal × Entry)) (before after : Assoc Principal Entry)
    : Prop where
  source : ∀ principal entry, after.get? principal = some entry
    → before.get? principal = some entry ∨ (principal, entry) ∈ list
  later : ∀ principal entry, before.get? principal = some entry
    → ∃ last, after.get? principal = some last
      ∧ (last = entry ∨ entry.member.epoch < last.member.epoch)

theorem Merged.set {list : List (Principal × Entry)} {before after : Assoc Principal Entry}
    {principal : Principal} {incoming : Entry}
    (merged : Merged list (before.set principal incoming) after)
    (newer : ∀ entry, before.get? principal = some entry
      → entry.member.epoch < incoming.member.epoch)
    : Merged ((principal, incoming) :: list) before after where
  source name entry isEntry := by
    rcases merged.source name entry isEntry with old | listed
    · rw [Assoc.get?_set] at old
      split at old
      next same =>
        cases old
        exact .inr (same ▸ List.mem_cons_self)
      · exact .inl old
    · exact .inr (List.mem_cons_of_mem _ listed)
  later name entry isEntry := by
    by_cases same : name = principal
    · subst same
      obtain ⟨last, isLast, onwards⟩ := merged.later name incoming (by simp [Assoc.get?_set])
      refine ⟨last, isLast, .inr ?_⟩
      rcases onwards with rfl | beyond
      · exact newer entry isEntry
      · exact (newer entry isEntry).trans beyond
    · exact merged.later name entry (by rw [Assoc.get?_set, if_neg same]; exact isEntry)

theorem Merged.skip {list : List (Principal × Entry)} {before after : Assoc Principal Entry}
    (merged : Merged list before after) (first : Principal × Entry)
    : Merged (first :: list) before after where
  source name entry isEntry :=
    (merged.source name entry isEntry).imp_right (List.mem_cons_of_mem _)
  later := merged.later

/-- Witness: induction over the list. -/
theorem merged_of_merge {list : List (Principal × Entry)} {before after : Assoc Principal Entry}
    {given cancelled : List Nat} (accepted : merge list (before, given) = .ok (after, cancelled))
    : Merged list before after := by
  induction list generalizing before given with
  | nil =>
      cases accepted
      exact ⟨fun _ _ found => .inl found, fun _ entry found => ⟨entry, found, .inl rfl⟩⟩
  | cons first rest ih =>
      obtain ⟨principal, incoming⟩ := first
      unfold merge at accepted
      split at accepted
      next missing =>
        refine (ih accepted).set fun entry isEntry => ?_
        rw [missing] at isEntry
        cases isEntry
      rename_i old isOld
      split at accepted
      · exact (ih accepted).skip _
      split at accepted
      · cases accepted
      · exact (ih accepted).skip _
      rename_i replaced
      refine (ih accepted).set fun entry isEntry => ?_
      rw [isOld] at isEntry
      cases isEntry
      simpa using (supersedes_ok replaced).2.2.2.2

variable {own : Member}

/-- No two deployments are known under one id or address. -/
theorem distinct_of_aliases {members : Assoc Principal Entry}
    (distinct : aliases own members = false) (one other : Principal) (first second : Entry)
    (isFirst : members.get? one = some first) (isSecond : members.get? other = some second)
    (differs : one ≠ other)
    : first.member.id ≠ second.member.id ∧ first.member.address ≠ second.member.address := by
  simp only [aliases, Bool.or_eq_false_iff, Bool.not_eq_false', decide_eq_true_eq,
    List.any_eq_false] at distinct
  obtain ⟨⟨_, ids⟩, addresses⟩ := distinct
  rw [List.map_map] at ids addresses
  have listed {principal : Principal} {entry : Entry}
      (isEntry : members.get? principal = some entry) : (principal, entry) ∈ members.toPairs :=
    (Assoc.mem_toPairs ..).mpr isEntry
  refine ⟨fun same => differs ?_, fun same => differs ?_⟩
  · exact congrArg Prod.fst (List.inj_on_of_nodup_map ids (listed isFirst) (listed isSecond) same)
  · exact congrArg Prod.fst
      (List.inj_on_of_nodup_map addresses (listed isFirst) (listed isSecond) same)

-- The invariant

variable {member : Member}

/-- Whether a member may dial this process. -/
theorem native_iff
    : foreign own member .inbound = false
      ↔ (member.role = .star ∨ member.role = .planet) ∧ member.galaxy = own.galaxy
        ∧ member.id ≠ own.id ∧ member.principal ≠ own.principal
        ∧ member.address ≠ own.address := by
  simp only [foreign, Bool.or_eq_false_iff, Bool.and_eq_false_iff, decide_eq_false_iff_not, not_not]
  tauto

/-- Only a Planet minds the direction. -/
theorem foreign_eq
    : foreign own member direction
      = (foreign own member .inbound || (member.role = .planet && direction ≠ .inbound)) := by
  simp [foreign]

structure Sound (topology : Topology) : Prop where
  named : ∀ principal entry, topology.members.get? principal = some entry
    → entry.member.principal = principal
  single : ∀ principal entry, topology.members.get? principal = some entry
    → entry.outbound = none ∨ entry.inbound = none
  dialed : ∀ principal entry, topology.members.get? principal = some entry
    → entry.member.role ≠ .star → entry.outbound = none
  distinct : ∀ one other first second, topology.members.get? one = some first
    → topology.members.get? other = some second → one ≠ other
    → first.member.id ≠ second.member.id ∧ first.member.address ≠ second.member.address
  native : ∀ own, topology.self = some own → ∀ principal entry,
    topology.members.get? principal = some entry → foreign own entry.member .inbound = false

/-- No start of a deployment is forgotten, and it gives way to later ones only. -/
def Onwards (before after : Topology) : Prop :=
  ∀ principal entry, before.members.get? principal = some entry
    → ∃ last, after.members.get? principal = some last
      ∧ (last.member = entry.member ∨ entry.member.epoch < last.member.epoch)

theorem Onwards.refl (topology : Topology) : Onwards topology topology :=
  fun _ entry isEntry => ⟨entry, isEntry, .inl rfl⟩

theorem Onwards.trans {first second third : Topology} (one : Onwards first second)
    (other : Onwards second third)
    : Onwards first third := by
  intro principal entry isEntry
  obtain ⟨middle, isMiddle, before⟩ := one principal entry isEntry
  obtain ⟨last, isLast, after⟩ := other principal middle isMiddle
  refine ⟨last, isLast, ?_⟩
  rcases before with same | older
  · rw [← same]
    exact after
  · rcases after with same | beyond
    · exact .inr (same ▸ older)
    · exact .inr (older.trans beyond)

theorem sound_start : Sound {} where
  named principal entry isEntry := by cases isEntry
  single principal entry isEntry := by cases isEntry
  dialed principal entry isEntry := by cases isEntry
  distinct one other first second isFirst := by cases isFirst
  native own isOwn := by cases isOwn

/-- An entry is put into the directory that fits to the others. -/
theorem Sound.put (sound : Sound topology)
    (puts : Puts principal entry topology next) (named : entry.member.principal = principal)
    (single : entry.outbound = none ∨ entry.inbound = none)
    (dialed : entry.member.role ≠ .star → entry.outbound = none)
    (distinct : ∀ other second, topology.members.get? other = some second → other ≠ principal
      → entry.member.id ≠ second.member.id ∧ entry.member.address ≠ second.member.address)
    (native : ∀ own, topology.self = some own → foreign own entry.member .inbound = false)
    (onwards : ∀ old, topology.members.get? principal = some old
      → entry.member = old.member ∨ old.member.epoch < entry.member.epoch)
    : Sound next ∧ Onwards topology next := by
  -- Every entry is the one that is put, or was there.
  have cases' {name : Principal} {held : Entry} (isHeld : next.members.get? name = some held)
      : (name = principal ∧ held = entry)
        ∨ (name ≠ principal ∧ topology.members.get? name = some held) := by
    rw [puts.members] at isHeld
    split at isHeld
    next same =>
      cases isHeld
      exact .inl ⟨same, rfl⟩
    next differs => exact .inr ⟨differs, isHeld⟩
  refine ⟨⟨?_, ?_, ?_, ?_, ?_⟩, ?_⟩
  · intro name held isHeld
    rcases cases' isHeld with ⟨rfl, rfl⟩ | ⟨_, was⟩
    · exact named
    · exact sound.named name held was
  · intro name held isHeld
    rcases cases' isHeld with ⟨rfl, rfl⟩ | ⟨_, was⟩
    · exact single
    · exact sound.single name held was
  · intro name held isHeld
    rcases cases' isHeld with ⟨rfl, rfl⟩ | ⟨_, was⟩
    · exact dialed
    · exact sound.dialed name held was
  · intro one other first second isFirst isSecond differs
    rcases cases' isFirst with ⟨rfl, rfl⟩ | ⟨notOne, wasOne⟩
    · rcases cases' isSecond with ⟨rfl, rfl⟩ | ⟨notOther, wasOther⟩
      · exact absurd rfl differs
      · exact distinct other second wasOther notOther
    · rcases cases' isSecond with ⟨rfl, rfl⟩ | ⟨_, wasOther⟩
      · have apart := distinct one first wasOne notOne
        exact ⟨apart.1.symm, apart.2.symm⟩
      · exact sound.distinct one other first second wasOne wasOther differs
  · intro own isOwn name held isHeld
    rw [puts.self] at isOwn
    rcases cases' isHeld with ⟨rfl, rfl⟩ | ⟨_, was⟩
    · exact native own isOwn
    · exact sound.native own isOwn name held was
  · intro name first isFirst
    by_cases same : name = principal
    · subst same
      exact ⟨entry, by rw [puts.members, if_pos rfl], onwards first isFirst⟩
    · exact ⟨first, by rw [puts.members, if_neg same]; exact isFirst, .inl rfl⟩

/-- An entry of the same member is exchanged. -/
theorem Sound.revise (sound : Sound topology) {old : Entry}
    (isOld : topology.members.get? principal = some old) (puts : Puts principal entry topology next)
    (same : entry.member = old.member) (single : entry.outbound = none ∨ entry.inbound = none)
    (dialed : entry.member.role ≠ .star → entry.outbound = none)
    : Sound next ∧ Onwards topology next := by
  refine sound.put puts ?_ single dialed ?_ ?_ ?_
  · rw [same]
    exact sound.named principal old isOld
  · intro other second isSecond differs
    rw [same]
    exact sound.distinct principal other old second isOld isSecond (Ne.symm differs)
  · intro own isOwn
    rw [same]
    exact sound.native own isOwn principal old isOld
  · intro first isFirst
    rw [isOld] at isFirst
    cases isFirst
    exact .inl same

theorem Sound.closed (sound : Sound topology) (generation : Nat) (now : Int)
    : Sound (topology.closed hash config generation now)
      ∧ Onwards topology (topology.closed hash config generation now) := by
  rcases closed_cases hash config topology generation now
    with ⟨same, _⟩ | ⟨principal, entry, known, direction, failures, time, held, puts⟩
  · rw [same]
    exact ⟨sound, .refl _⟩
  · refine sound.revise known puts (by simp) ?_ ?_
    · have single := sound.single principal entry known
      cases direction
      · exact .inl rfl
      · exact .inr rfl
    · intro role
      have silent := sound.dialed principal entry known (by simpa using role)
      cases direction
      · rfl
      · exact silent

theorem Sound.due (sound : Sound topology) (now : Int)
    : Sound (topology.due now).2 ∧ Onwards topology (topology.due now).2 := by
  rcases due_cases topology now with ⟨_, same⟩ | ⟨principal, entry, _, known, _, puts⟩
  · rw [same]
    exact ⟨sound, .refl _⟩
  · refine sound.revise known puts rfl ?_ ?_
    · exact sound.single principal entry known
    · exact sound.dialed principal entry known

theorem Sound.failed (sound : Sound topology) (target : Member) (now : Int)
    : Sound (topology.failed hash config target now)
      ∧ Onwards topology (topology.failed hash config target now) := by
  rcases failed_cases hash config topology target now
    with ⟨same, _⟩ | ⟨entry, known, _, failures, time, puts⟩
  · rw [same]
    exact ⟨sound, .refl _⟩
  · refine sound.revise known puts rfl ?_ ?_
    · exact sound.single _ entry known
    · exact sound.dialed _ entry known

-- Lists that are installed

theorem sound_of_complete (whole : Complete own members prepared)
    : Sound { self := some own, members := prepared } where
  named principal entry isEntry := by
    obtain ⟨member, _, same, _, _, rfl⟩ := whole.fresh principal entry isEntry
    exact same
  single principal entry isEntry := by
    obtain ⟨member, _, _, _, _, rfl⟩ := whole.fresh principal entry isEntry
    exact .inl rfl
  dialed principal entry isEntry _ := by
    obtain ⟨member, _, _, _, _, rfl⟩ := whole.fresh principal entry isEntry
    rfl
  distinct one other first second isFirst isSecond differs := by
    obtain ⟨left, isLeft, rfl, _, _, rfl⟩ := whole.fresh one first isFirst
    obtain ⟨right, isRight, rfl, _, _, rfl⟩ := whole.fresh other second isSecond
    refine ⟨fun same => differs ?_, fun same => differs ?_⟩
    · exact congrArg Member.principal (whole.ids left isLeft right isRight same)
    · exact congrArg Member.principal (whole.addresses left isLeft right isRight same)
  native own' isOwn principal entry isEntry := by
    cases isOwn
    obtain ⟨member, isMember, rfl, differs, role, rfl⟩ := whole.fresh principal entry isEntry
    refine native_iff.mpr ⟨.inl role, (whole.alike member isMember).1, fun same => differs ?_,
      differs, fun same => differs ?_⟩
    · exact congrArg Member.principal (whole.ids member isMember own whole.listed same)
    · exact congrArg Member.principal (whole.addresses member isMember own whole.listed same)

theorem initialise_cases (net : Net) (config : Config) (topology : Topology) (own : Member)
    (members : List Member)
    : ((∃ failure, (topology.initialise net config own members).1 = .error failure)
        ∧ (topology.initialise net config own members).2 = topology)
      ∨ ∃ prepared, topology.self = none ∧ Complete own members prepared
        ∧ topology.initialise net config own members
          = (.ok (), { self := some own, members := prepared }) := by
  unfold initialise
  cases accepted : complete net config own members with
  | error failure => exact .inl ⟨⟨failure, rfl⟩, rfl⟩
  | ok prepared =>
      dsimp only
      split
      · exact .inl ⟨⟨_, rfl⟩, rfl⟩
      rename_i fresh
      exact .inr ⟨prepared, by simpa using fresh, complete_ok accepted, rfl⟩

structure Refreshes (own : Member) (members : List Member) (before after : Topology) : Prop where
  self : before.self = some own ∧ after.self = some own
  merged : ∃ prepared, Complete own members prepared
    ∧ Merged (entries prepared) before.members after.members
  distinct : aliases own after.members = false

theorem refresh_cases (net : Net) (config : Config) (topology : Topology) (own : Member)
    (members : List Member)
    : ((∃ failure, (topology.refresh net config own members).1 = .error failure)
        ∧ (topology.refresh net config own members).2 = topology)
      ∨ (∃ cancelled, (topology.refresh net config own members).1 = .ok cancelled)
        ∧ Refreshes own members topology (topology.refresh net config own members).2 := by
  unfold refresh
  rcases initialise_cases net config {} own members
    with ⟨⟨failure, refused⟩, _⟩ | ⟨prepared, _, whole, accepted⟩
  · left
    generalize initialise net config {} own members = result at refused
    obtain ⟨reply, candidate⟩ := result
    cases refused
    exact ⟨⟨failure, rfl⟩, rfl⟩
  · rw [accepted]
    dsimp only
    split
    · exact .inl ⟨⟨_, rfl⟩, rfl⟩
    next same =>
    split
    · exact .inl ⟨⟨_, rfl⟩, rfl⟩
    next merged cancelled isMerged =>
    split
    · exact .inl ⟨⟨_, rfl⟩, rfl⟩
    next distinct =>
    split
    · exact .inl ⟨⟨_, rfl⟩, rfl⟩
    · have isSelf : topology.self = some own := not_not.mp same
      exact .inr ⟨⟨cancelled, rfl⟩, ⟨isSelf, isSelf⟩, ⟨prepared, whole, merged_of_merge isMerged⟩,
        by simpa using distinct⟩

theorem Sound.initialise (sound : Sound topology) (own : Member) (members : List Member)
    (empty : topology.self = none → ∀ principal, topology.members.get? principal = none)
    : Sound (topology.initialise net config own members).2
      ∧ Onwards topology (topology.initialise net config own members).2 := by
  rcases initialise_cases net config topology own members
    with ⟨_, same⟩ | ⟨prepared, fresh, whole, accepted⟩
  · rw [same]
    exact ⟨sound, .refl _⟩
  · rw [accepted]
    refine ⟨sound_of_complete whole, fun principal entry isEntry => ?_⟩
    rw [empty fresh] at isEntry
    cases isEntry

theorem Sound.refresh (sound : Sound topology) (own : Member) (members : List Member)
    : Sound (topology.refresh net config own members).2
      ∧ Onwards topology (topology.refresh net config own members).2 := by
  rcases refresh_cases net config topology own members with ⟨_, same⟩ | ⟨_, refreshes⟩
  · rw [same]
    exact ⟨sound, .refl _⟩
  · obtain ⟨prepared, whole, merged⟩ := refreshes.merged
    have distinct := distinct_of_aliases refreshes.distinct
    have fresh := sound_of_complete whole
    have source {principal : Principal} {entry : Entry} := merged.source principal entry
    refine ⟨⟨?_, ?_, ?_, distinct, ?_⟩, ?_⟩
    · intro principal entry isEntry
      rcases source isEntry with old | listed
      · exact sound.named principal entry old
      · exact fresh.named principal entry (mem_entries.mp listed)
    · intro principal entry isEntry
      rcases source isEntry with old | listed
      · exact sound.single principal entry old
      · exact fresh.single principal entry (mem_entries.mp listed)
    · intro principal entry isEntry
      rcases source isEntry with old | listed
      · exact sound.dialed principal entry old
      · exact fresh.dialed principal entry (mem_entries.mp listed)
    · intro self isSelf principal entry isEntry
      rw [refreshes.self.2] at isSelf
      cases isSelf
      rcases source isEntry with old | listed
      · exact sound.native own refreshes.self.1 principal entry old
      · exact fresh.native own rfl principal entry (mem_entries.mp listed)
    · intro principal entry isEntry
      obtain ⟨last, isLast, onwards⟩ := merged.later principal entry isEntry
      exact ⟨last, isLast, onwards.imp_left fun same => by rw [same]⟩

-- Streams that are accepted

/-- The entry of a remote end is that of the same start, or a new one. -/
theorem admitted_cases (config : Config) (topology : Topology) (remote : Member)
    : (∃ failure, topology.admitted config remote = (.error failure, topology))
      ∨ (∃ existing, topology.members.get? remote.principal = some existing
        ∧ existing.member = remote
        ∧ topology.admitted config remote = (.ok (existing, []), topology))
      ∨ ∃ cancelled next, topology.admitted config remote
          = (.ok ({ member := remote }, cancelled), next)
        ∧ Puts remote.principal { member := remote } topology next
        ∧ ∀ existing, topology.members.get? remote.principal = some existing
          → existing.member.epoch < remote.epoch := by
  unfold admitted
  cases isExisting : topology.members.get? remote.principal with
  | none =>
      dsimp only
      generalize config.maxMembers - (if remote.role = .star then 1 else 0) = maximum
      split
      · exact .inl ⟨_, rfl⟩
      · exact .inr (.inr ⟨[], _, rfl, puts_set _ _, nofun⟩)
  | some existing =>
      dsimp only
      cases replaces : supersedes remote existing.member with
      | error failure => exact .inl ⟨failure, rfl⟩
      | ok replace =>
          have bound := (supersedes_ok replaces).2.2.2.2
          cases replace with
          | false => exact .inr (.inl ⟨existing, rfl, by simpa using bound.symm, rfl⟩)
          | true =>
              refine .inr (.inr ⟨_, _, rfl, puts_set _ _, ?_⟩)
              rintro _ ⟨⟩
              simpa using bound

/-- The streams of two directions: the given one, and the opposite one where both may be there. -/
structure Seated (remote : Member) (direction : Direction) (generation : Nat) (old entry : Entry)
    : Prop where
  member : entry.member = old.member
  active : entry.session direction = some generation
  only : entry.session direction.opposite = none
    ∨ remote.role ≠ .star ∧ entry.session direction.opposite = old.session direction.opposite
  pending : entry.pending = true → direction = .inbound ∧ old.pending = true

theorem seats (topology : Topology) (remote : Member) (entry : Entry) (direction : Direction)
    (generation : Nat) (moment : Int)
    : ∃ last, Puts remote.principal last topology
        (topology.seat remote entry direction generation moment)
      ∧ last.member = entry.member ∧ last.session direction = some generation
      ∧ last.session direction.opposite = entry.session direction.opposite
      ∧ (last.pending = true → direction = .inbound ∧ entry.pending = true) := by
  refine ⟨_, puts_set _ _, ?_⟩
  cases direction
  · exact ⟨rfl, rfl, rfl, nofun⟩
  · exact ⟨rfl, rfl, rfl, fun pending => ⟨rfl, pending⟩⟩

structure Accepts (remote : Member) (direction : Direction) (generation : Nat)
    (expected : Option Member) (before after : Topology)
    : Prop where
  own : ∃ own, before.self = some own ∧ foreign own remote direction = false
  matched : ∀ target, expected = some target → target = remote ∧ direction = .outbound
  unaliased : before.aliased remote = false
  onwards : ∀ existing, before.members.get? remote.principal = some existing
    → existing.member = remote ∨ existing.member.epoch < remote.epoch
  puts : ∃ old entry, Puts remote.principal entry before after
    ∧ Seated remote direction generation old entry
    ∧ (old = { member := remote }
      ∨ before.members.get? remote.principal = some old ∧ old.member = remote)

theorem accept_cases (config : Config) (topology : Topology) (remote : Member)
    (direction : Direction) (generation : Nat) (expected : Option Member) (moment : Int)
    : ((∃ failure, (topology.accept config remote direction generation expected moment).1
          = .error failure)
        ∧ (topology.accept config remote direction generation expected moment).2 = topology)
      ∨ (∃ cancelled, (topology.accept config remote direction generation expected moment).1
          = .ok cancelled)
        ∧ Accepts remote direction generation expected topology
          (topology.accept config remote direction generation expected moment).2 := by
  unfold accept
  split
  · exact .inl ⟨⟨_, rfl⟩, rfl⟩
  next own isOwn =>
  split
  · exact .inl ⟨⟨_, rfl⟩, rfl⟩
  next matches' =>
  split
  · exact .inl ⟨⟨_, rfl⟩, rfl⟩
  next unaliased =>
  obtain ⟨isSelf, native⟩ := Option.filter_eq_some_iff.mp isOwn
  have accepts {after : Topology}
      (onwards : ∀ existing, topology.members.get? remote.principal = some existing
        → existing.member = remote ∨ existing.member.epoch < remote.epoch)
      (puts : ∃ old entry, Puts remote.principal entry topology after
        ∧ Seated remote direction generation old entry
        ∧ (old = { member := remote }
          ∨ topology.members.get? remote.principal = some old ∧ old.member = remote))
      : Accepts remote direction generation expected topology after := by
    refine ⟨⟨own, isSelf, by simpa using native⟩, ?_, by simpa using unaliased, onwards, puts⟩
    intro target isTarget
    rw [isTarget] at matches'
    simp only [Option.any_some, decide_eq_true_eq, not_or, not_not] at matches'
    exact ⟨matches'.1.symm, matches'.2⟩
  rcases admitted_cases config topology remote
    with ⟨failure, refused⟩ | ⟨existing, known, same, found⟩ | ⟨cancelled, next, fresh, puts, older⟩
  · rw [refused]
    exact .inl ⟨⟨failure, rfl⟩, rfl⟩
  · rw [found]
    dsimp only
    have onwards (other : Entry) (isOther : topology.members.get? remote.principal = some other)
        : other.member = remote ∨ other.member.epoch < remote.epoch := by
      rw [known] at isOther
      cases isOther
      exact .inl same
    split
    · exact .inl ⟨⟨_, rfl⟩, rfl⟩
    split
    next single =>
      refine .inr ⟨⟨_, rfl⟩, accepts onwards ?_⟩
      obtain ⟨last, puts, member, active, other, pending⟩ :=
        seats topology remote existing direction generation moment
      refine ⟨existing, last, puts, ⟨member, active, ?_, pending⟩, .inr ⟨known, same⟩⟩
      by_cases star : remote.role = .star
      · left
        rw [other]
        cases isOther : existing.session direction.opposite with
        | none => rfl
        | some held => simp [isOther, star] at single
      · exact .inr ⟨star, other⟩
    rename_i opposite _
    split
    · exact .inl ⟨⟨_, rfl⟩, rfl⟩
    · refine .inr ⟨⟨_, rfl⟩, accepts onwards ?_⟩
      obtain ⟨last, puts, member, active, other, pending⟩ :=
        seats topology remote (existing.put direction.opposite none) direction generation moment
      rw [Entry.session_put, if_pos rfl] at other
      rw [Entry.member_put] at member
      rw [Entry.pending_put] at pending
      exact ⟨existing, last, puts, ⟨member, active, .inl other, pending⟩, .inr ⟨known, same⟩⟩
  · rw [fresh]
    dsimp only
    have empty (other : Direction) : ({ member := remote } : Entry).session other = none := by
      cases other <;> rfl
    rw [empty, empty]
    refine .inr ⟨⟨_, rfl⟩, accepts (fun existing known => .inr (older existing known)) ?_⟩
    obtain ⟨last, again, member, active, other, pending⟩ :=
      seats next remote { member := remote } direction generation moment
    exact ⟨_, last, puts.again again, ⟨member, active, .inl (other.trans (empty _)), pending⟩,
      .inl rfl⟩

theorem Sound.accept (sound : Sound topology) (remote : Member) (direction : Direction)
    (generation : Nat) (expected : Option Member) (moment : Int)
    : Sound (topology.accept config remote direction generation expected moment).2
      ∧ Onwards topology
        (topology.accept config remote direction generation expected moment).2 := by
  rcases accept_cases config topology remote direction generation expected moment
    with ⟨_, same⟩ | ⟨_, accepts⟩
  · rw [same]
    exact ⟨sound, .refl _⟩
  obtain ⟨own, isOwn, native⟩ := accepts.own
  obtain ⟨old, entry, puts, seated, origin⟩ := accepts.puts
  rw [foreign_eq, Bool.or_eq_false_iff] at native
  obtain ⟨native, dials⟩ := native
  have isRemote : entry.member = remote := by
    rw [seated.member]
    rcases origin with rfl | ⟨_, same⟩
    · rfl
    · exact same
  -- A member that is no Star has only dialed.
  have dialed (plain : remote.role ≠ .star) : entry.outbound = none := by
    have isPlanet : remote.role = .planet := (native_iff.mp native).1.resolve_left plain
    have isInbound : direction = .inbound := by simpa [isPlanet] using dials
    subst isInbound
    rcases seated.only with free | ⟨_, same⟩
    · exact free
    · refine Eq.trans same ?_
      rcases origin with rfl | ⟨known, isOld⟩
      · rfl
      · exact sound.dialed _ old known (isOld ▸ plain)
  refine sound.put puts (by rw [isRemote]) ?_ (isRemote ▸ dialed) ?_ ?_ ?_
  · by_cases star : remote.role = .star
    · have free : entry.session direction.opposite = none := by
        rcases seated.only with free | ⟨plain, _⟩
        · exact free
        · exact absurd star plain
      cases direction
      · exact .inr free
      · exact .inl free
    · exact .inl (dialed star)
  · intro other second isSecond differs
    have apart := List.any_eq_false.mp accepts.unaliased _ ((Assoc.mem_toPairs ..).mpr isSecond)
    simp only [Bool.and_eq_true, Bool.or_eq_true, decide_eq_true_eq, not_and, not_or] at apart
    obtain ⟨otherId, otherAddress⟩ := apart differs
    rw [isRemote]
    exact ⟨Ne.symm otherId, Ne.symm otherAddress⟩
  · intro self isSelf
    rw [isOwn] at isSelf
    cases isSelf
    rw [isRemote]
    exact native
  · intro existing known
    rw [isRemote]
    exact (accepts.onwards existing known).imp_left Eq.symm

structure Known (topology : Topology) : Prop where
  sound : Sound topology
  empty : topology.self = none → ∀ principal, topology.members.get? principal = none

theorem known_start : Known {} where
  sound := sound_start
  empty _ principal := Assoc.get?_empty principal

theorem Known.accept (known : Known topology) (remote : Member) (direction : Direction)
    (generation : Nat) (expected : Option Member) (moment : Int)
    : Known (topology.accept config remote direction generation expected moment).2 := by
  refine ⟨(known.sound.accept remote direction generation expected moment).1, fun unknown => ?_⟩
  rcases accept_cases config topology remote direction generation expected moment
    with ⟨_, same⟩ | ⟨_, accepts⟩
  · rw [same] at unknown ⊢
    exact known.empty unknown
  · obtain ⟨own, isOwn, _⟩ := accepts.own
    obtain ⟨_, _, puts, _⟩ := accepts.puts
    rw [puts.self, isOwn] at unknown
    cases unknown

/-- Every call keeps what holds. Witness: one lemma per call. -/
theorem Known.step (known : Known topology) (action : Action)
    : Known (topology.step net hash config action)
      ∧ Onwards topology (topology.step net hash config action) := by
  have puts {principal : Principal} {old entry : Entry} {after : Topology}
      (isOld : topology.members.get? principal = some old)
      (puts : Puts principal entry topology after) (unknown : after.self = none)
      : ∀ principal, after.members.get? principal = none := by
    rw [puts.self] at unknown
    rw [known.empty unknown] at isOld
    cases isOld
  cases action with
  | initialise own members =>
      have sound := @Sound.initialise net config topology known.sound own members known.empty
      refine ⟨⟨sound.1, fun unknown => ?_⟩, sound.2⟩
      rcases initialise_cases net config topology own members with ⟨_, same⟩ | ⟨_, _, _, accepted⟩
      · rw [Topology.step, same] at unknown ⊢
        exact known.empty unknown
      · rw [Topology.step, accepted] at unknown
        cases unknown
  | refresh own members =>
      have sound := @Sound.refresh net config topology known.sound own members
      refine ⟨⟨sound.1, fun unknown => ?_⟩, sound.2⟩
      rcases refresh_cases net config topology own members with ⟨_, same⟩ | ⟨_, refreshes⟩
      · rw [Topology.step, same] at unknown ⊢
        exact known.empty unknown
      · rw [Topology.step, refreshes.self.2] at unknown
        cases unknown
  | accept remote direction generation expected moment =>
      exact ⟨known.accept remote direction generation expected moment,
        (known.sound.accept remote direction generation expected moment).2⟩
  | closed generation now =>
      have sound := @Sound.closed hash config topology known.sound generation now
      refine ⟨⟨sound.1, fun unknown => ?_⟩, sound.2⟩
      rcases closed_cases hash config topology generation now
        with ⟨same, _⟩ | ⟨principal, entry, isEntry, _, _, _, _, put⟩
      · rw [Topology.step, same] at unknown ⊢
        exact known.empty unknown
      · exact puts isEntry put unknown
  | due now =>
      have sound := known.sound.due now
      refine ⟨⟨sound.1, fun unknown => ?_⟩, sound.2⟩
      rcases due_cases topology now with ⟨_, same⟩ | ⟨principal, entry, _, isEntry, _, put⟩
      · rw [Topology.step, same] at unknown ⊢
        exact known.empty unknown
      · exact puts isEntry put unknown
  | failed target now =>
      have sound := @Sound.failed hash config topology known.sound target now
      refine ⟨⟨sound.1, fun unknown => ?_⟩, sound.2⟩
      rcases failed_cases hash config topology target now
        with ⟨same, _⟩ | ⟨entry, isEntry, _, _, _, put⟩
      · rw [Topology.step, same] at unknown ⊢
        exact known.empty unknown
      · exact puts isEntry put unknown

def calls (net : Net) (hash : Bytes → Nat) (config : Config) (topology : Topology)
    (actions : List Action)
    : Topology :=
  actions.foldl (step net hash config) topology

theorem Known.calls (known : Known topology) (actions : List Action)
    : Known (topology.calls net hash config actions)
      ∧ Onwards topology (topology.calls net hash config actions) := by
  induction actions generalizing topology with
  | nil => exact ⟨known, .refl _⟩
  | cons action rest ih =>
      have one := @Known.step net hash config topology known action
      obtain ⟨last, onwards⟩ := ih one.1
      exact ⟨last, one.2.trans onwards⟩

-- The law

/-- After any calls, in any order: of each member at most one stream is active; ids and addresses are
those of one deployment only; the start of a deployment that is known later is the same or a later
one; a stream that is reported as closed clears no other one; and what is refused changes nothing.
-/
theorem topology_law (net : Net) (hash : Bytes → Nat) (config : Config) (first later : List Action)
    : (∀ principal entry,
        (calls net hash config {} first).members.get? principal = some entry
        → entry.sessions.length ≤ 1)
      ∧ (∀ one other left right,
        (calls net hash config {} first).members.get? one = some left
        → (calls net hash config {} first).members.get? other = some right → one ≠ other
        → left.member.id ≠ right.member.id ∧ left.member.address ≠ right.member.address)
      ∧ (∀ own principal entry, (calls net hash config {} first).self = some own
        → (calls net hash config {} first).members.get? principal = some entry
        → entry.member.id ≠ own.id ∧ entry.member.address ≠ own.address)
      ∧ (∀ principal entry,
        (calls net hash config {} first).members.get? principal = some entry
        → ∃ last, (calls net hash config {} (first ++ later)).members.get? principal = some last
          ∧ entry.member.epoch ≤ last.member.epoch)
      ∧ (∀ generation now principal entry direction held,
        (calls net hash config {} first).members.get? principal = some entry
        → entry.session direction = some held → held ≠ generation
        → ∃ last, ((calls net hash config {} first).closed hash config generation now).members.get?
            principal = some last
          ∧ last.session direction = some held)
      ∧ (∀ remote direction generation expected moment failure,
        ((calls net hash config {} first).accept config remote direction generation expected
          moment).1 = .error failure
        → ((calls net hash config {} first).accept config remote direction generation expected
          moment).2 = calls net hash config {} first)
      ∧ ∀ own members failure,
        ((calls net hash config {} first).refresh net config own members).1 = .error failure
        → ((calls net hash config {} first).refresh net config own members).2
          = calls net hash config {} first := by
  have known := (@Known.calls net hash config {} known_start first).1
  have sound := known.sound
  refine ⟨?_, sound.distinct, ?_, ?_, ?_, ?_, ?_⟩
  · intro principal entry isEntry
    unfold Entry.sessions
    rcases sound.single principal entry isEntry with free | free
    · rw [free]
      cases entry.inbound <;> simp
    · rw [free]
      cases entry.outbound <;> simp
  · intro own principal entry isOwn isEntry
    have native := native_iff.mp (sound.native own isOwn principal entry isEntry)
    exact ⟨native.2.2.1, native.2.2.2.2⟩
  · intro principal entry isEntry
    have onwards := (@Known.calls net hash config _ known later).2
    obtain ⟨last, isLast, same | beyond⟩ := onwards principal entry isEntry
    · exact ⟨last, by rw [calls, List.foldl_append]; exact isLast, by rw [same]⟩
    · exact ⟨last, by rw [calls, List.foldl_append]; exact isLast, beyond.le⟩
  · intro generation now principal entry direction held isEntry isHeld differs
    rcases closed_cases hash config (calls net hash config {} first) generation now
      with ⟨same, _⟩ | ⟨name, old, isOld, other, failures, time, isOther, puts⟩
    · rw [same]
      exact ⟨entry, isEntry, isHeld⟩
    · rw [puts.members]
      split
      next same =>
        subst same
        rw [isOld] at isEntry
        cases isEntry
        refine ⟨_, rfl, ?_⟩
        have kept : (entry.put other none).session direction = some held := by
          rw [Entry.session_put, if_neg]
          · exact isHeld
          · rintro rfl
            rw [isOther] at isHeld
            exact differs (Option.some.inj isHeld).symm
        cases direction <;> exact kept
      · exact ⟨entry, isEntry, isHeld⟩
  · intro remote direction generation expected moment failure refused
    rcases accept_cases config (calls net hash config {} first) remote direction generation expected
      moment with ⟨_, same⟩ | ⟨⟨cancelled, accepted⟩, _⟩
    · exact same
    · rw [accepted] at refused
      cases refused
  · intro own members failure refused
    rcases refresh_cases net config (calls net hash config {} first) own members
      with ⟨_, same⟩ | ⟨⟨cancelled, accepted⟩, _⟩
    · exact same
    · rw [accepted] at refused
      cases refused

end Astra.Topology
