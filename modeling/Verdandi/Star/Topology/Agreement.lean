import Verdandi.Star.Topology.Invariant

/-! Two Stars that dial each other keep the same stream. Each of them decides alone, in the order in
which the two streams arrive at it, and whatever else happens in between.
-/

namespace Astra.Topology

open Support Policy

variable {net : Net} {hash : Bytes → Nat} {config : Config} {topology next : Topology}
  {own peer : Member} {sessions : Direction → Option Nat}

-- What is known of a peer

structure Faces (own peer : Member) (sessions : Direction → Option Nat) (topology : Topology)
    : Prop where
  known : Known topology
  identity : topology.self = some own
  entry : ∃ entry, topology.members.get? peer.principal = some entry ∧ entry.member = peer
    ∧ ∀ direction, entry.session direction = sessions direction

/-- A call that neither concerns the peer nor one of some streams. -/
def Aside (peer : Member) (streams : List Nat) : Action → Prop
  | .accept remote .. => remote.principal ≠ peer.principal
  | .closed generation _ => generation ∉ streams
  | .refresh _ members =>
      ∀ member ∈ members, member.principal = peer.principal → member.epoch ≤ peer.epoch
  | _ => True

/-- Another entry is exchanged, or the streams stay. -/
theorem Faces.put (faces : Faces own peer sessions topology) (known : Known next)
    {principal : Principal} {entry : Entry} (puts : Puts principal entry topology next)
    (same : principal = peer.principal
      → entry.member = peer ∧ ∀ direction, entry.session direction = sessions direction)
    : Faces own peer sessions next where
  known := known
  identity := puts.self.trans faces.identity
  entry := by
    rw [puts.members]
    split
    next named => exact ⟨entry, rfl, same named.symm⟩
    · exact faces.entry

/-- What does not concern the peer leaves its streams alone. -/
theorem Faces.aside (faces : Faces own peer sessions topology) {streams : List Nat}
    (held : ∀ direction generation, sessions direction = some generation → generation ∈ streams)
    {action : Action} (aside : Aside peer streams action)
    : Faces own peer sessions (topology.step net hash config action) := by
  have known := (@Known.step net hash config topology faces.known action).1
  obtain ⟨entry, isEntry, isPeer, slots⟩ := faces.entry
  have unchanged (same : topology.step net hash config action = topology)
      : Faces own peer sessions (topology.step net hash config action) := by
    rw [same]
    exact faces
  cases action with
  | initialise self members =>
      rcases initialise_cases net config topology self members with ⟨_, same⟩ | ⟨_, fresh, _, _⟩
      · exact unchanged same
      · rw [faces.identity] at fresh
        cases fresh
  | refresh self members =>
      rcases refresh_cases net config topology self members with ⟨_, same⟩ | ⟨_, refreshes⟩
      · exact unchanged same
      · obtain ⟨prepared, whole, merged⟩ := refreshes.merged
        refine ⟨known, ?_, ?_⟩
        · exact refreshes.self.2.trans (refreshes.self.1.symm.trans faces.identity)
        · obtain ⟨last, isLast, rfl | beyond⟩ := merged.later peer.principal entry isEntry
          · exact ⟨last, isLast, isPeer, slots⟩
          · exfalso
            rcases merged.source peer.principal last isLast with old | listed
            · rw [isEntry] at old
              cases old
              exact lt_irrefl _ beyond
            · obtain ⟨member, isMember, named, _, _, rfl⟩ :=
                whole.fresh peer.principal last (mem_entries.mp listed)
              rw [isPeer] at beyond
              exact Nat.not_lt.mpr (aside member isMember named) beyond
  | accept remote direction generation expected moment =>
      rcases accept_cases config topology remote direction generation expected moment
        with ⟨_, same⟩ | ⟨_, accepts⟩
      · exact unchanged same
      · obtain ⟨_, _, puts, _⟩ := accepts.puts
        exact faces.put known puts fun named => absurd named aside
  | closed generation now =>
      rcases closed_cases hash config topology generation now
        with ⟨same, _⟩ | ⟨principal, old, isOld, direction, _, _, isStream, puts⟩
      · exact unchanged same
      · refine faces.put known puts ?_
        rintro rfl
        rw [isEntry] at isOld
        cases isOld
        rw [slots] at isStream
        exact absurd (held direction generation isStream) aside
  | due now =>
      rcases due_cases topology now with ⟨_, same⟩ | ⟨principal, old, _, isOld, _, puts⟩
      · exact unchanged same
      · refine faces.put known puts ?_
        rintro rfl
        rw [isEntry] at isOld
        cases isOld
        exact ⟨isPeer, fun direction => (by cases direction <;> rfl : _ = _).trans (slots direction)⟩
  | failed target now =>
      rcases failed_cases hash config topology target now
        with ⟨same, _⟩ | ⟨old, isOld, _, _, _, puts⟩
      · exact unchanged same
      · refine faces.put known puts ?_
        intro named
        rw [named, isEntry] at isOld
        cases isOld
        exact ⟨isPeer, fun direction => (by cases direction <;> rfl : _ = _).trans (slots direction)⟩

theorem Faces.asides (faces : Faces own peer sessions topology) {streams : List Nat}
    (held : ∀ direction generation, sessions direction = some generation → generation ∈ streams)
    {actions : List Action} (aside : ∀ action ∈ actions, Aside peer streams action)
    : Faces own peer sessions (topology.calls net hash config actions) := by
  induction actions generalizing topology with
  | nil => exact faces
  | cons action rest ih =>
      have one := @Faces.aside net hash config topology own peer sessions faces streams held action
        (aside action List.mem_cons_self)
      exact ih one fun other listed => aside other (List.mem_cons_of_mem _ listed)

-- The streams of a peer

def wanted (peer : Member) : Direction → Option Member
  | .outbound => some peer
  | .inbound => none

/-- A stream of a known peer is the first one, is preferred to the opposite one, or is refused. -/
theorem Faces.accept (faces : Faces own peer sessions topology) (star : peer.role = .star)
    {direction : Direction} (free : sessions direction = none) {generation : Nat} {moment : Int}
    {result : Result (List Nat) × Topology}
    (taken : topology.accept config peer direction generation (wanted peer direction) moment
      = result)
    : (sessions direction.opposite = none ∧ result.1 = .ok []
        ∧ Faces own peer (Function.update sessions direction (some generation)) result.2)
      ∨ ∃ other, sessions direction.opposite = some other ∧ if preferred own peer direction then
            result.1 = .ok [other] ∧ Faces own peer
                (Function.update (Function.update sessions direction.opposite none) direction
                  (some generation))
                result.2
          else
            (∃ failure, result.1 = .error failure) ∧ result.2 = topology := by
  obtain ⟨entry, isEntry, isPeer, slots⟩ := faces.entry
  have sound := faces.known.sound
  have native : foreign own peer direction = false := by
    have native := sound.native own faces.identity peer.principal entry isEntry
    rw [isPeer] at native
    rw [foreign_eq, native, star]
    rfl
  have unaliased : topology.aliased peer = false := by
    refine List.any_eq_false.mpr fun pair listed => ?_
    have isPair := (Assoc.mem_toPairs ..).mp listed
    by_cases same : pair.1 = peer.principal
    · simp [same]
    · have apart := sound.distinct pair.1 peer.principal pair.2 entry isPair isEntry same
      rw [isPeer] at apart
      simp [same, apart.1, apart.2]
  have admits : topology.admitted config peer = (.ok (entry, []), topology) := by
    unfold admitted
    rw [isEntry]
    dsimp only
    rw [isPeer, supersedes_self]
  have leads : (wanted peer direction).any (fun target => peer ≠ target ∨ direction ≠ .outbound)
      = false := by
    cases direction
    · simp [wanted]
    · rfl
  have known := @Known.accept config topology faces.known peer direction generation
    (wanted peer direction) moment
  rw [taken] at known
  -- The entry that is seated has the given streams.
  have seated {base : Entry} (member : base.member = peer)
      (taken' : result.2 = topology.seat peer base direction generation moment)
      : Faces own peer (Function.update base.session direction (some generation)) result.2 := by
    obtain ⟨last, puts, isLast, active, other, _⟩ :=
      seats topology peer base direction generation moment
    rw [taken'] at known ⊢
    refine ⟨known, puts.self.trans faces.identity, last, ?_, isLast.trans member, ?_⟩
    · rw [puts.members, if_pos rfl]
    · intro slot
      by_cases same : slot = direction
      · subst same
        rw [Function.update_self]
        exact active
      · have isOther : slot = direction.opposite := by
          cases slot <;> cases direction <;> first | rfl | exact absurd rfl same
        rw [Function.update_of_ne same, isOther]
        exact other
  unfold Topology.accept at taken
  rw [faces.identity, Option.filter_some, native, Bool.not_false, if_pos rfl] at taken
  dsimp only at taken
  rw [leads, unaliased, admits] at taken
  dsimp only at taken
  rw [if_neg Bool.false_ne_true, if_neg Bool.false_ne_true, slots, slots, free,
    Option.isSome_none, if_neg Bool.false_ne_true] at taken
  cases isOther : sessions direction.opposite with
  | none =>
      rw [isOther, Option.filter_none] at taken
      subst taken
      refine .inl ⟨rfl, rfl, ?_⟩
      have faced := seated isPeer rfl
      rwa [funext slots] at faced
  | some other =>
      rw [isOther, Option.filter_some, if_pos (by simpa using star)] at taken
      dsimp only at taken
      refine .inr ⟨other, rfl, ?_⟩
      split
      next wins =>
        rw [wins] at taken
        subst taken
        refine ⟨rfl, ?_⟩
        have faced := @seated (entry.put direction.opposite none) (by simpa using isPeer) rfl
        have same : (entry.put direction.opposite none).session
            = Function.update sessions direction.opposite none := by
          funext slot
          rw [Entry.session_put, Function.update_apply, slots]
        rwa [same] at faced
      rename_i loses
      rw [Bool.not_eq_true] at loses
      rw [loses] at taken
      subst taken
      exact ⟨⟨_, rfl⟩, rfl⟩

-- One end

/-- One of two Stars that dial each other: the member that it has dialed, who the other one is, its
two streams, which of them arrives first, and what happens after each of them.
-/
structure End where
  config : Config
  own : Member
  target : Member
  peer : Member
  before : List Action
  generation : Direction → Nat
  first : Direction
  moment : Direction → Int
  middle : List Action := []
  last : List Action := []

namespace End

variable (net : Net) (hash : Bytes → Nat) (here : End)

def start : Topology := calls net hash here.config {} here.before

def arrive (topology : Topology) (direction : Direction) : Result (List Nat) × Topology :=
  topology.accept here.config here.peer direction (here.generation direction)
    (wanted here.target direction) (here.moment direction)

def between : Topology :=
  calls net hash here.config (here.arrive (here.start net hash) here.first).2 here.middle

def reply (direction : Direction) : Result (List Nat) :=
  if direction = here.first then
    (here.arrive (here.start net hash) here.first).1
  else
    (here.arrive (here.between net hash) here.first.opposite).1

def finish : Topology :=
  calls net hash here.config (here.arrive (here.between net hash) here.first.opposite).2 here.last

def Keeps (direction : Direction) : Prop :=
  ∃ entry, (here.finish net hash).members.get? here.peer.principal = some entry
    ∧ entry.session direction = some (here.generation direction)
    ∧ entry.session direction.opposite = none

def Discards (direction : Direction) : Prop :=
  (∃ failure, here.reply net hash direction = .error failure)
    ∨ ∃ cancelled, here.reply net hash direction.opposite = .ok cancelled
      ∧ here.generation direction ∈ cancelled

def kept : Direction :=
  if here.own.id < here.peer.id then .outbound else .inbound

/-- The peer is a Star that is known without a stream, under the identity that is dialed; and what
happens besides concerns neither it nor the streams that count.
-/
structure Dials : Prop where
  star : here.peer.role = .star
  deployment : here.target.principal = here.peer.principal
  identity : (here.start net hash).self = some here.own
  idle : ∃ entry, (here.start net hash).members.get? here.target.principal = some entry
    ∧ entry.member = here.target ∧ ∀ direction, entry.session direction = none
  middle : ∀ action ∈ here.middle, Aside here.peer [here.generation here.first] action
  last : ∀ action ∈ here.last, Aside here.peer [here.generation here.kept] action

variable {net hash here}

theorem known_start : Known (here.start net hash) :=
  (@Known.calls net hash here.config {} Topology.known_start here.before).1

theorem Dials.faces (dials : here.Dials net hash) (current : here.target = here.peer)
    : Faces here.own here.peer (fun _ => none) (here.start net hash) where
  known := known_start
  identity := dials.identity
  entry := current ▸ dials.idle

theorem Dials.id_ne (dials : here.Dials net hash) (current : here.target = here.peer)
    : here.peer.id ≠ here.own.id := by
  obtain ⟨entry, isEntry, isTarget, _⟩ := dials.idle
  have native := (@known_start net hash here).sound.native here.own dials.identity _ entry isEntry
  rw [isTarget, current] at native
  exact (native_iff.mp native).2.2.1

/-- Of two ids one is the lower one. -/
theorem not_lt_iff {one other : Bytes} (differs : one ≠ other) : ¬ other < one ↔ one < other := by
  constructor
  · intro above
    by_contra below
    exact differs (List.le_antisymm (List.not_lt.mp above) (List.not_lt.mp below))
  · exact fun below => List.lt_asymm below

/-- The preferred stream is the one that is kept. -/
theorem preferred_iff (differs : here.peer.id ≠ here.own.id) {direction : Direction}
    : preferred here.own here.peer direction = true ↔ direction = here.kept := by
  unfold preferred kept
  cases direction with
  | outbound => by_cases lower : here.own.id < here.peer.id <;> simp [lower]
  | inbound =>
      by_cases lower : here.own.id < here.peer.id
      · simp [lower, (not_lt_iff differs.symm).mpr lower]
      · simp [lower, (not_lt_iff differs).mp lower]

/-- Whatever comes first, an end keeps the preferred stream and discards the other one. -/
theorem Dials.decides (dials : here.Dials net hash) (current : here.target = here.peer)
    : here.Keeps net hash here.kept ∧ here.Discards net hash here.kept.opposite := by
  have differs := dials.id_ne current
  have apart := ne_opposite here.first
  have twice : here.first.opposite.opposite = here.first := by cases here.first <;> rfl
  -- The first stream finds no other one.
  have faces := dials.faces current
  rcases @Faces.accept here.config _ _ _ _ faces dials.star here.first rfl
    (here.generation here.first) (here.moment here.first) _ rfl with ⟨_, accepted, faced⟩ | ⟨_, two, _⟩
  swap
  · cases two
  have isArrival (topology : Topology) (direction : Direction)
      : here.arrive topology direction
        = topology.accept here.config here.peer direction (here.generation direction)
          (wanted here.peer direction) (here.moment direction) := by
    rw [arrive, current]
  rw [← isArrival] at accepted faced
  have single (direction : Direction) (generation : Nat)
      (held : Function.update (fun _ => none) here.first (some (here.generation here.first))
        direction = some generation)
      : generation ∈ [here.generation here.first] := by
    rw [Function.update_apply] at held
    split at held
    · cases held
      exact List.mem_singleton_self _
    · cases held
  have between : Faces here.own here.peer _ (here.between net hash) :=
    @Faces.asides net hash here.config _ _ _ _ faced _ single _ dials.middle
  -- The second one is compared with it.
  have free : Function.update (fun _ : Direction => none) here.first
      (some (here.generation here.first)) here.first.opposite = none :=
    Function.update_of_ne apart _ _
  rcases @Faces.accept here.config _ _ _ _ between dials.star here.first.opposite free
    (here.generation here.first.opposite) (here.moment here.first.opposite) _ rfl
    with ⟨none', _⟩ | ⟨other, isOther, decided⟩
  · rw [twice, Function.update_self] at none'
    cases none'
  rw [twice, Function.update_self] at isOther
  cases isOther
  rw [← isArrival] at decided
  have firstReply : here.reply net hash here.first = .ok [] := by
    rw [reply, if_pos rfl]
    exact accepted
  have secondReply : here.reply net hash here.first.opposite
      = (here.arrive (here.between net hash) here.first.opposite).1 := by
    rw [reply, if_neg apart]
  split at decided
  next wins =>
    have isKept := (preferred_iff differs).mp wins
    obtain ⟨replied, faced⟩ := decided
    rw [twice] at faced
    have only (direction : Direction) (generation : Nat)
        (held : Function.update (Function.update
          (Function.update (fun _ => none) here.first (some (here.generation here.first)))
          here.first none) here.first.opposite (some (here.generation here.first.opposite))
          direction = some generation)
        : generation ∈ [here.generation here.kept] := by
      rw [Function.update_idem, Function.update_apply, Function.update_apply] at held
      split at held
      · cases held
        rw [isKept]
        exact List.mem_singleton_self _
      · split at held <;> cases held
    have final := @Faces.asides net hash here.config _ _ _ _ faced _ only _ dials.last
    obtain ⟨entry, isEntry, _, slots⟩ := final.entry
    rw [← isKept, twice]
    refine ⟨⟨entry, isEntry, ?_, ?_⟩, .inr ⟨_, secondReply.trans replied, ?_⟩⟩
    · rw [slots, Function.update_self]
    · rw [slots, twice, Function.update_of_ne apart.symm, Function.update_self]
    · exact List.mem_singleton_self _
  rename_i loses
  obtain ⟨⟨failure, refused⟩, same⟩ := decided
  have isKept : here.kept = here.first := by
    by_contra other
    refine loses ((preferred_iff differs).mpr ?_)
    cases isFirst : here.first <;> cases isKept : here.kept <;> simp_all [Direction.opposite]
  have only (direction : Direction) (generation : Nat)
      (held : Function.update (fun _ => none) here.first (some (here.generation here.first))
        direction = some generation)
      : generation ∈ [here.generation here.kept] := by
    rw [isKept]
    exact single direction generation held
  have final := @Faces.asides net hash here.config _ _ _ _ between _ only _ dials.last
  rw [← same] at final
  obtain ⟨entry, isEntry, _, slots⟩ := final.entry
  rw [isKept]
  refine ⟨⟨entry, isEntry, ?_, ?_⟩, .inl ⟨failure, secondReply.trans refused⟩⟩
  · rw [slots, Function.update_self]
  · rw [slots, Function.update_of_ne apart]

end End

-- Both ends

/-- Two Stars that dial each other under the identities that they have keep the same stream, the one
whose initiator has the lower id, and both discard the other one. A stream that is outbound at one
end is inbound at the other.
-/
theorem agreement_law {left right : End} (leftDials : left.Dials net hash)
    (rightDials : right.Dials net hash) (leftPeer : left.peer = right.own)
    (rightPeer : right.peer = left.own) (leftCurrent : left.target = right.own)
    (rightCurrent : right.target = left.own)
    : left.Keeps net hash left.kept ∧ right.Keeps net hash left.kept.opposite
      ∧ left.Discards net hash left.kept.opposite ∧ right.Discards net hash left.kept := by
  obtain ⟨leftKeeps, leftDiscards⟩ := leftDials.decides (leftCurrent.trans leftPeer.symm)
  obtain ⟨rightKeeps, rightDiscards⟩ := rightDials.decides (rightCurrent.trans rightPeer.symm)
  have differs := leftDials.id_ne (leftCurrent.trans leftPeer.symm)
  have same : right.kept = left.kept.opposite := by
    unfold End.kept
    rw [leftPeer, rightPeer]
    rw [leftPeer] at differs
    by_cases lower : left.own.id < right.own.id
    · rw [if_pos lower, if_neg ((End.not_lt_iff differs.symm).mpr lower)]
      rfl
    · rw [if_neg lower, if_pos ((End.not_lt_iff differs).mp lower)]
      rfl
  have back : right.kept.opposite = left.kept := by
    rw [same]
    cases left.kept <;> rfl
  rw [same] at rightKeeps
  rw [back] at rightDiscards
  exact ⟨leftKeeps, rightKeeps, leftDiscards, rightDiscards⟩

def plainNet : Net where
  pton ipv6 host :=
    match ipv6, host with
    | false, [49, 48, 46, 48, 46, 48, 46, digit] => some [10, 0, 0, digit - 48]
    | _, _ => none
  ntop ipv6 bytes :=
    match ipv6, bytes with
    | false, [10, 0, 0, last] => some [49, 48, 46, 48, 46, 48, 46, last + 48]
    | _, _ => none

def plainStar (id digit : UInt8) (epoch : Nat) : Member where
  galaxy := [103]
  id := [id]
  principal := { bytes := List.replicate 32 digit, length := List.length_replicate }
  address := { host := [49, 48, 46, 48, 46, 48, 46, digit + 48], port := 7000 }
  epoch := epoch
  group := [112]

/-- An end that has learned the member that it dials from its complete list. -/
def plainEnd (own target peer : Member) (members : List Member) (first : Direction) : End where
  config := { galaxy := [103] }
  own := own
  target := target
  peer := peer
  before := [.initialise own members]
  generation
    | .outbound => 1
    | .inbound => 2
  first := first
  moment _ := 0

/-- Two Stars whose streams arrive in opposite orders. -/
theorem agreement_law_plain
    : let left :=
        plainEnd (plainStar 97 1 1) (plainStar 98 2 1) (plainStar 98 2 1)
          [plainStar 97 1 1, plainStar 98 2 1] .outbound
      let right :=
        plainEnd (plainStar 98 2 1) (plainStar 97 1 1) (plainStar 97 1 1)
          [plainStar 97 1 1, plainStar 98 2 1] .outbound
      left.Keeps plainNet List.length .outbound ∧ right.Keeps plainNet List.length .inbound
        ∧ left.Discards plainNet List.length .inbound
        ∧ right.Discards plainNet List.length .outbound :=
  agreement_law
    { star := rfl
      deployment := rfl
      identity := by decide
      idle := ⟨{ member := plainStar 98 2 1 }, by decide, rfl,
          fun direction => by cases direction <;> rfl⟩
      middle := List.forall_mem_nil _
      last := List.forall_mem_nil _ }
    { star := rfl
      deployment := rfl
      identity := by decide
      idle := ⟨{ member := plainStar 97 1 1 }, by decide, rfl,
          fun direction => by cases direction <;> rfl⟩
      middle := List.forall_mem_nil _
      last := List.forall_mem_nil _ }
    rfl rfl rfl rfl

/-- A stream that is kept is in its slot. -/
theorem End.Keeps.slot {net : Net} {hash : Bytes → Nat} {here : End} {direction : Direction}
    (keeps : here.Keeps net hash direction)
    : ((here.finish net hash).members.get? here.peer.principal).bind (·.session direction)
      = some (here.generation direction) := by
  obtain ⟨entry, isEntry, held, _⟩ := keeps
  rw [isEntry]
  exact held

/-- A Star dials the former start of a deployment that it is dialed by: it refuses its own stream,
which leads to another start, and the other end refuses the stream that is left.
-/
theorem stale_dials_disagree
    : let left :=
        plainEnd (plainStar 97 1 1) (plainStar 98 2 1) (plainStar 99 2 2)
          [plainStar 97 1 1, plainStar 98 2 1] .outbound
      let right :=
        plainEnd (plainStar 99 2 2) (plainStar 97 1 1) (plainStar 97 1 1)
          [plainStar 97 1 1, plainStar 99 2 2] .outbound
      left.Dials plainNet List.length ∧ right.Dials plainNet List.length
        ∧ left.peer = right.own ∧ right.peer = left.own
        ∧ left.Keeps plainNet List.length .inbound ∧ right.Keeps plainNet List.length .inbound
        ∧ ¬ ∃ direction : Direction, left.Keeps plainNet List.length direction
          ∧ right.Keeps plainNet List.length direction.opposite := by
  refine ⟨?_, ?_, rfl, rfl, ?_, ?_, ?_⟩
  · exact
      { star := rfl
        deployment := rfl
        identity := by decide
        idle := ⟨{ member := plainStar 98 2 1 }, by decide, rfl,
          fun direction => by cases direction <;> rfl⟩
        middle := List.forall_mem_nil _
        last := List.forall_mem_nil _ }
  · exact
      { star := rfl
        deployment := rfl
        identity := by decide
        idle := ⟨{ member := plainStar 97 1 1 }, by decide, rfl,
          fun direction => by cases direction <;> rfl⟩
        middle := List.forall_mem_nil _
        last := List.forall_mem_nil _ }
  · exact ⟨{ member := plainStar 99 2 2, inbound := some 2 }, by decide, rfl, rfl⟩
  · exact ⟨{ member := plainStar 97 1 1, inbound := some 2 }, by decide, rfl, rfl⟩
  · rintro ⟨direction, leftKeeps, rightKeeps⟩
    cases direction with
    | outbound => exact absurd leftKeeps.slot (by decide)
    | inbound => exact absurd rightKeeps.slot (by decide)

end Astra.Topology
