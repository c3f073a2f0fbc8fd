import Verdandi.Star.Runtime.Model
import Verdandi.Star.Topology.Agreement

/-! A member that is marked as being dialed has a stream that will clear the mark: the stream is
accepted, or the directory learns of its end when it is reaped.
-/

namespace Astra

open Support Policy Topology

variable {net : Net} {hash : Bytes → Nat} {config : Config}

-- Marks

namespace Topology

variable {topology next : Topology}

def Marks (before after : Topology) : Prop :=
  ∀ principal entry, after.members.get? principal = some entry → entry.pending = true
    → ∃ old, before.members.get? principal = some old ∧ old.pending = true
      ∧ old.member = entry.member

theorem Marks.refl (topology : Topology) : Marks topology topology :=
  fun _ entry isEntry pending => ⟨entry, isEntry, pending, rfl⟩

/-- An entry that is put keeps the mark of the same member, or has none. -/
theorem Marks.put {principal : Principal} {entry : Entry} (puts : Puts principal entry topology next)
    (kept : entry.pending = true → ∃ old, topology.members.get? principal = some old
      ∧ old.pending = true ∧ old.member = entry.member)
    : Marks topology next := by
  intro name held isHeld pending
  rw [puts.members] at isHeld
  split at isHeld
  next same =>
    cases isHeld
    rw [same]
    exact kept pending
  · exact ⟨held, isHeld, pending, rfl⟩

theorem marks_closed (generation : Nat) (now : Int)
    : Marks topology (topology.closed hash config generation now) := by
  rcases closed_cases hash config topology generation now
    with ⟨same, _⟩ | ⟨principal, entry, known, direction, failures, time, _, puts⟩
  · rw [same]
    exact .refl _
  · exact .put puts fun pending => ⟨entry, known, by simpa using pending, by simp⟩

/-- A member whose dial is over is not marked. -/
theorem marks_failed (known : Known topology) (target : Member) (now : Int)
    : Marks topology (topology.failed hash config target now)
      ∧ ∀ principal entry, (topology.failed hash config target now).members.get? principal
          = some entry → entry.pending = true → entry.member ≠ target := by
  have named := known.sound.named
  rcases failed_cases hash config topology target now
    with ⟨same, other⟩ | ⟨entry, isEntry, same, failures, time, puts⟩
  · rw [same]
    refine ⟨.refl _, fun principal entry isEntry _ isTarget => ?_⟩
    have isPrincipal := named principal entry isEntry
    rw [isTarget] at isPrincipal
    exact other entry (isPrincipal ▸ isEntry) isTarget
  · refine ⟨.put puts nofun, fun principal held isHeld pending isTarget => ?_⟩
    rw [puts.members] at isHeld
    split at isHeld
    · cases isHeld
      cases pending
    rename_i differs
    have isPrincipal := named principal held isHeld
    rw [isTarget] at isPrincipal
    exact differs isPrincipal.symm

/-- A stream that is accepted clears the mark that it was opened with. -/
theorem marks_accept {remote : Member} {direction : Direction} {generation : Nat}
    {expected : Option Member} (accepts : Accepts remote direction generation expected topology next)
    : Marks topology next
      ∧ (direction = .outbound → ∀ entry, next.members.get? remote.principal = some entry
        → entry.pending = false) := by
  obtain ⟨old, entry, puts, seated, source⟩ := accepts.puts
  refine ⟨.put puts fun pending => ?_, fun outbound held isHeld => ?_⟩
  · have was := (seated.pending pending).2
    rcases source with rfl | ⟨isOld, _⟩
    · cases was
    · exact ⟨old, isOld, was, seated.member.symm⟩
  · rw [puts.members, if_pos rfl] at isHeld
    cases isHeld
    by_contra pending
    have inbound := (seated.pending (by simpa using pending)).1
    rw [outbound] at inbound
    cases inbound

theorem marks_refresh (own : Member) (members : List Member)
    : Marks topology (topology.refresh net config own members).2 := by
  rcases refresh_cases net config topology own members with ⟨_, same⟩ | ⟨_, refreshes⟩
  · rw [same]
    exact .refl _
  · obtain ⟨prepared, whole, merged⟩ := refreshes.merged
    intro principal entry isEntry pending
    rcases merged.source principal entry isEntry with old | listed
    · exact ⟨entry, old, pending, rfl⟩
    · obtain ⟨member, _, _, _, _, rfl⟩ := whole.fresh principal entry (mem_entries.mp listed)
      cases pending

theorem marks_initialise (own : Member) (members : List Member)
    : Marks topology (topology.initialise net config own members).2 := by
  rcases initialise_cases net config topology own members with ⟨_, same⟩ | ⟨_, _, whole, accepted⟩
  · rw [same]
    exact .refl _
  · rw [accepted]
    intro principal entry isEntry pending
    obtain ⟨member, _, _, _, _, rfl⟩ := whole.fresh principal entry isEntry
    cases pending

/-- Only the member that is dialed gets a mark. -/
theorem marks_due (topology : Topology) (now : Int) {principal : Principal} {entry : Entry}
    (isEntry : (topology.due now).2.members.get? principal = some entry)
    (pending : entry.pending = true)
    : (topology.due now).1 = some entry.member
      ∨ ∃ old, topology.members.get? principal = some old ∧ old.pending = true
        ∧ old.member = entry.member := by
  rcases due_cases topology now with ⟨_, same⟩ | ⟨name, dialed, isTarget, _, _, puts⟩
  · rw [same] at isEntry
    exact .inr ⟨entry, isEntry, pending, rfl⟩
  · rw [puts.members] at isEntry
    split at isEntry
    · cases isEntry
      exact .inl isTarget
    · exact .inr ⟨entry, isEntry, pending, rfl⟩

end Topology

-- Streams that owe

/-- A stream was opened to dial a member, and nobody has answered for this member yet. -/
def Session.Owes (session : Session) (member : Member) : Prop :=
  session.direction = .outbound ∧ session.installed = false ∧ session.expected = some member

@[simp]
theorem Session.owes_cancel {session : Session} {code : Status.Code} {member : Member}
    : (session.cancel code).Owes member ↔ session.Owes member := by
  unfold cancel
  split <;> rfl

def Owed (sessions : List Session) (topology : Topology) : Prop :=
  ∀ principal entry, topology.members.get? principal = some entry → entry.pending = true
    → ∃ session ∈ sessions, session.Owes entry.member

def Retains (before after : List Session) : Prop :=
  ∀ session ∈ before, ∀ member, session.Owes member → ∃ other ∈ after, other.Owes member

variable {before after sessions : List Session} {topology next : Topology}

theorem Owed.marks (owed : Owed sessions topology) (marks : Marks topology next)
    : Owed sessions next := by
  intro principal entry isEntry pending
  obtain ⟨old, isOld, was, same⟩ := marks principal entry isEntry pending
  rw [← same]
  exact owed principal old isOld was

theorem Owed.keeps (owed : Owed before topology) (keeps : Retains before after)
    : Owed after topology := by
  intro principal entry isEntry pending
  obtain ⟨session, listed, owes⟩ := owed principal entry isEntry pending
  exact keeps session listed entry.member owes

theorem Retains.trans {middle : List Session} (one : Retains before middle)
    (other : Retains middle after)
    : Retains before after := by
  intro session listed member owes
  obtain ⟨next, isNext, still⟩ := one session listed member owes
  exact other next isNext member still

theorem keeps_append (sessions more : List Session) : Retains sessions (sessions ++ more) :=
  fun session listed _ owes => ⟨session, List.mem_append_left _ listed, owes⟩

variable {change : Session → Session}

theorem keeps_map (same : ∀ session member, session.Owes member → (change session).Owes member)
    : Retains sessions (sessions.map change) :=
  fun session listed member owes =>
    ⟨change session, List.mem_map_of_mem listed, same session member owes⟩

theorem keeps_modify (index : Nat)
    (same : ∀ session member, session.Owes member → (change session).Owes member)
    : Retains sessions (sessions.modify index change) := by
  intro session listed member owes
  obtain ⟨place, bound, rfl⟩ := List.mem_iff_getElem.mp listed
  have inside : place < (sessions.modify index change).length := by simpa using bound
  have isNew : (sessions.modify index change)[place] ∈ sessions.modify index change :=
    List.getElem_mem _
  rw [List.getElem_modify] at isNew
  refine ⟨_, isNew, ?_⟩
  split
  · exact same _ member owes
  · exact owes

theorem keeps_stop (generation : Nat) : Retains sessions (Runtime.stop generation sessions) := by
  induction sessions with
  | nil => exact fun _ listed => absurd listed List.not_mem_nil
  | cons first rest ih =>
      unfold Runtime.stop
      intro session listed member owes
      split
      · rcases List.mem_cons.mp listed with rfl | later
        · exact ⟨_, List.mem_cons_self, Session.owes_cancel.mpr owes⟩
        · exact ⟨session, List.mem_cons_of_mem _ later, owes⟩
      · rcases List.mem_cons.mp listed with rfl | later
        · exact ⟨session, List.mem_cons_self, owes⟩
        · obtain ⟨other, isOther, still⟩ := ih session later member owes
          exact ⟨other, List.mem_cons_of_mem _ isOther, still⟩

theorem keeps_stops (generations : List Nat)
    : Retains sessions
        (generations.foldl (fun sessions generation => Runtime.stop generation sessions)
          sessions) := by
  induction generations generalizing sessions with
  | nil => exact fun session listed _ owes => ⟨session, listed, owes⟩
  | cons generation rest ih => exact (keeps_stop generation).trans ih

/-- A stream is the one that is exchanged, or stays. -/
theorem mem_set_of_mem {session old new : Session} {index : Nat} (listed : session ∈ sessions)
    (isOld : sessions[index]? = some old)
    : session = old ∨ session ∈ sessions.set index new := by
  obtain ⟨place, bound, rfl⟩ := List.mem_iff_getElem.mp listed
  by_cases same : index = place
  · subst same
    rw [List.getElem?_eq_getElem bound] at isOld
    exact .inl (Option.some.inj isOld)
  · right
    have kept := @List.getElem_set_ne _ sessions index place same new (by simpa using bound)
    rw [← kept]
    exact List.getElem_mem _

-- Steps

/-- A turn of a stream: a mark is cleared together with what the stream owes. -/
theorem Owed.pump (owed : Owed sessions topology) (known : Known topology) {session : Session}
    {index : Nat} (isSession : sessions[index]? = some session) (event : Session.Event)
    : Known (session.pump config topology event).2.1
      ∧ Owed (sessions.set index (session.pump config topology event).2.2)
        (session.pump config topology event).2.1 := by
  -- The directory stays, and the stream owes what it did.
  have same (next : Session) (still : ∀ member, session.Owes member → next.Owes member)
      : Owed (sessions.set index next) topology := by
    refine owed.keeps fun other listed member owes => ?_
    rcases @mem_set_of_mem _ _ _ next _ listed isSession with rfl | stays
    · have bound := (List.getElem?_eq_some_iff.mp isSession).1
      exact ⟨next, List.mem_set bound next, still member owes⟩
    · exact ⟨other, stays, owes⟩
  cases event with
  | broken code => exact ⟨known, same _ fun _ => Session.owes_cancel.mpr⟩
  | hello remote moment =>
      rw [Session.pump]
      split
      · exact ⟨known, same _ fun _ owes => owes⟩
      split
      · exact ⟨known, same _ fun _ => Session.owes_cancel.mpr⟩
      next fresh =>
      have stays := @Known.accept config _ known remote session.direction session.generation
        session.expected moment
      have answer := accept_cases config topology remote session.direction session.generation
        session.expected moment
      generalize topology.accept config remote session.direction session.generation
        session.expected moment = reply at stays answer
      obtain ⟨result, next⟩ := reply
      rcases answer with ⟨⟨failure, refused⟩, unchanged⟩ | ⟨⟨cancelled, accepted⟩, accepts⟩
      · cases refused
        cases unchanged
        exact ⟨known, same _ fun _ => Session.owes_cancel.mpr⟩
      · cases accepted
        refine ⟨stays, ?_⟩
        obtain ⟨marks, cleared⟩ := marks_accept accepts
        intro principal entry isEntry pending
        obtain ⟨other, listed, owes⟩ := (owed.marks marks) principal entry isEntry pending
        rcases @mem_set_of_mem _ _ _ { session with peer := some remote, installed := true } _
          listed isSession with rfl | kept
        · -- The stream was opened for exactly this member, whose mark is gone.
          have isRemote := (accepts.matched entry.member owes.2.2).1
          have isPrincipal := stays.sound.named principal entry isEntry
          rw [isRemote] at isPrincipal
          have unmarked := cleared owes.1 entry (isPrincipal ▸ isEntry)
          rw [pending] at unmarked
          cases unmarked
        · exact ⟨other, kept, owes⟩

/-- The end of a stream clears the mark that it owes. -/
theorem Owed.ended (known : Known topology) {session : Session} {rest : List Session}
    (owed : Owed (session :: rest) topology) (now : Int)
    : Known (session.ended hash config topology now)
      ∧ Owed rest (session.ended hash config topology now) := by
  -- A stream that does not owe is not missed.
  have without {next : Topology} (marks : Marks topology next)
      (free : ∀ principal entry, next.members.get? principal = some entry → entry.pending = true
        → ¬ session.Owes entry.member)
      : Owed rest next := by
    intro principal entry isEntry pending
    obtain ⟨other, listed, owes⟩ := (owed.marks marks) principal entry isEntry pending
    rcases List.mem_cons.mp listed with rfl | kept
    · exact absurd owes (free principal entry isEntry pending)
    · exact ⟨other, kept, owes⟩
  let nowhere : Net := { pton := fun _ _ => none, ntop := fun _ _ => none }
  unfold Session.ended
  split
  next installed =>
    refine ⟨(@Known.step nowhere hash config _ known (.closed session.generation now)).1,
      without (marks_closed _ _) fun _ _ _ _ owes => ?_⟩
    exact Bool.false_ne_true (owes.2.1.symm.trans installed)
  split
  next unexpected =>
    refine ⟨known, without (.refl _) fun _ _ _ _ owes => ?_⟩
    cases unexpected.symm.trans owes.2.2
  rename_i target isTarget
  obtain ⟨marks, cleared⟩ := @marks_failed hash config _ known target now
  refine ⟨(@Known.step nowhere hash config _ known (.failed target now)).1,
    without marks fun principal entry isEntry pending owes => ?_⟩
  exact cleared principal entry isEntry pending
    (Option.some.inj (isTarget.symm.trans owes.2.2)).symm

/-- Reaping keeps that all marks are owed. Witness: induction over the streams, among others that
stay.
-/
theorem Owed.reaped (known : Known topology) {others : List Session}
    (owed : Owed (sessions ++ others) topology) (now : Int)
    : Known (Runtime.reaped hash config now sessions topology).2
      ∧ Owed ((Runtime.reaped hash config now sessions topology).1 ++ others)
        (Runtime.reaped hash config now sessions topology).2 := by
  induction sessions generalizing topology others with
  | nil => exact ⟨known, owed⟩
  | cons session rest ih =>
      unfold Runtime.reaped
      split
      · obtain ⟨stays, less⟩ := @Owed.ended hash config _ known session _ owed now
        exact ih stays less
      · have moved : Owed (rest ++ session :: others) topology :=
          owed.keeps fun other listed _ owes =>
            ⟨other, List.perm_middle.symm.mem_iff.mp listed, owes⟩
        obtain ⟨stays, less⟩ := ih known moved
        refine ⟨stays, less.keeps fun other listed _ owes => ⟨other, ?_, owes⟩⟩
        exact List.perm_middle.mem_iff.mp listed

structure Runtime.Tracked (runtime : Runtime) : Prop where
  known : Known runtime.topology
  owed : Owed runtime.sessions runtime.topology

namespace Runtime

theorem tracked_start : Tracked {} where
  known := known_start
  owed principal entry isEntry := by
    rw [Assoc.get?_empty] at isEntry
    cases isEntry

theorem Tracked.pump {runtime : Runtime} (tracked : Tracked runtime) (index : Nat)
    (event : Session.Event)
    : Tracked (runtime.pump config index event) := by
  unfold Runtime.pump
  split
  · exact tracked
  rename_i session isSession
  obtain ⟨known, owed⟩ := @Owed.pump config _ _ tracked.owed tracked.known _ _ isSession event
  exact ⟨known, owed.keeps (keeps_stops _)⟩

variable {runtime : Runtime}

theorem Tracked.advanceAdmission (tracked : Tracked runtime) (own : Member) (members : List Member)
    : Tracked (runtime.advanceAdmission net config own members) := by
  unfold Runtime.advanceAdmission
  split
  · have known := (@Known.step net (fun _ => 0) config _ tracked.known (.refresh own members)).1
    have owed := tracked.owed.marks (@marks_refresh net config _ own members)
    rw [Topology.step] at known
    generalize refresh net config runtime.topology own members = reply at known owed
    obtain ⟨failure | cancelled, topology⟩ := reply
    · exact ⟨known, owed⟩
    · refine ⟨known, owed.keeps (keeps_map fun session member owes => ?_)⟩
      split
      · exact Session.owes_cancel.mpr owes
      · exact owes
  · have known := (@Known.step net (fun _ => 0) config _ tracked.known (.initialise own members)).1
    have owed := tracked.owed.marks (@marks_initialise net config _ own members)
    rw [Topology.step] at known
    generalize initialise net config runtime.topology own members = reply at known owed
    obtain ⟨failure | _, topology⟩ := reply <;> exact ⟨known, owed⟩

theorem Tracked.dial {next : Runtime} (tracked : Tracked runtime) {now : Int}
    (dialed : runtime.dial config now = some next)
    : Tracked next := by
  unfold Runtime.dial at dialed
  dsimp only at dialed
  split at dialed
  swap
  · cases dialed
    exact tracked
  have known := (@Known.step { pton := fun _ _ => none, ntop := fun _ _ => none } (fun _ => 0)
    config _ tracked.known (.due now)).1
  have marks {principal : Principal} {entry : Entry} := @marks_due runtime.topology now principal entry
  rw [Topology.step] at known
  generalize runtime.topology.due now = reply at known marks dialed
  obtain ⟨target | target, topology⟩ := reply
  · cases dialed
    refine ⟨known, tracked.owed.marks fun principal entry isEntry pending => ?_⟩
    rcases marks isEntry pending with isTarget | old
    · cases isTarget
    · exact old
  · dsimp only at dialed
    split at dialed
    · cases dialed
    rename_i generation numbered isNumber
    have same : numbered.sessions = runtime.sessions := by
      unfold generate at isNumber
      split at isNumber
      · cases isNumber
      · cases isNumber
        rfl
    cases dialed
    refine ⟨known, fun principal entry isEntry pending => ?_⟩
    dsimp only
    rw [same]
    rcases marks isEntry pending with isTarget | ⟨old, isOld, was, alike⟩
    · exact ⟨_, List.mem_append_right _ List.mem_cons_self, rfl, rfl, isTarget⟩
    · obtain ⟨session, listed, owes⟩ := tracked.owed principal old isOld was
      exact ⟨session, List.mem_append_left _ listed, alike ▸ owes⟩

/-- Every step keeps that marks are owed. -/
theorem Tracked.step {runtime next : Runtime} (tracked : Tracked runtime) {action : Action}
    (stepped : runtime.step net hash config action = some next)
    : Tracked next := by
  cases action with
  | openSession =>
      cases stepped
      unfold openSession
      split
      · exact tracked
      split
      · exact tracked
      rename_i generation numbered isNumber
      unfold generate at isNumber
      split at isNumber
      · cases isNumber
      · cases isNumber
        exact ⟨tracked.known, tracked.owed⟩
  | collect =>
      cases stepped
      exact ⟨tracked.known, tracked.owed.keeps (keeps_append _ _)⟩
  | pump index event =>
      cases stepped
      exact tracked.pump index event
  | cancel index code =>
      cases stepped
      exact ⟨tracked.known,
        tracked.owed.keeps (keeps_modify index fun _ _ => Session.owes_cancel.mpr)⟩
  | completed index =>
      cases stepped
      exact ⟨tracked.known, tracked.owed.keeps (keeps_modify index fun _ _ owes => owes)⟩
  | reap now =>
      cases stepped
      have owed : Owed (runtime.sessions ++ []) runtime.topology := by
        rw [List.append_nil]
        exact tracked.owed
      obtain ⟨known, less⟩ := @Owed.reaped hash config _ _ tracked.known [] owed now
      rw [List.append_nil] at less
      exact ⟨known, less⟩
  | admission own members =>
      rw [Runtime.step] at stepped
      split at stepped
      · cases stepped
      · cases stepped
        exact tracked.advanceAdmission own members
  | almanac clock =>
      rw [Runtime.step] at stepped
      split at stepped
      · cases stepped
      · cases stepped
        exact ⟨tracked.known, tracked.owed⟩
  | dial now =>
      rw [Runtime.step] at stepped
      split at stepped
      · cases stepped
      · exact tracked.dial stepped
  | shutdown =>
      cases stepped
      refine ⟨tracked.known, tracked.owed.keeps ?_⟩
      exact (keeps_append _ _).trans (keeps_map fun _ _ => Session.owes_cancel.mpr)

-- The law

/-- In every run of the control loop, a marked member has a stream that was opened to dial exactly
it and that has not been reaped; and a Star without a stream that nobody is dialing can be dialed
again once its time has come.
-/
theorem dialing_law {actions : List Action}
    (reached : run (Runtime.step net hash config) {} actions = some runtime)
    : (∀ principal entry, runtime.topology.members.get? principal = some entry
        → entry.pending = true → ∃ session ∈ runtime.sessions, session.Owes entry.member)
      ∧ ∀ principal entry now, runtime.topology.members.get? principal = some entry
        → entry.member.role = .star → (∀ direction, entry.session direction = none)
        → (∀ session ∈ runtime.sessions, ¬ session.Owes entry.member) → entry.next ≤ now
        → entry.eligible now = true ∧ ∃ target, (runtime.topology.due now).1 = some target := by
  have tracked : Tracked runtime :=
    run_invariant (fun _ _ _ tracked stepped => tracked.step stepped) tracked_start reached
  refine ⟨tracked.owed, fun principal entry now isEntry star idle free reached => ?_⟩
  have unmarked : entry.pending = false := by
    by_contra pending
    obtain ⟨session, listed, owes⟩ := tracked.owed principal entry isEntry (by simpa using pending)
    exact free session listed owes
  have eligible : entry.eligible now = true := by
    have outbound : entry.outbound = none := idle .outbound
    have inbound : entry.inbound = none := idle .inbound
    simp [Entry.eligible, star, unmarked, outbound, inbound, reached]
  refine ⟨eligible, ?_⟩
  cases isSelf : runtime.topology.self with
  | none =>
      rw [tracked.known.empty isSelf] at isEntry
      cases isEntry
  | some own =>
      unfold due
      rw [isSelf]
      dsimp only [Option.isNone_some]
      rw [if_neg Bool.false_ne_true]
      split
      next missing =>
        have absent := List.find?_eq_none.mp missing _ (mem_entries.mpr isEntry)
        exact absurd eligible absent
      · exact ⟨_, rfl⟩

def plainTurns : List Action :=
  [.admission (plainStar 97 1 1) [plainStar 97 1 1, plainStar 98 2 1], .almanac true, .dial 0]

/-- The other Star is marked, and the stream that was opened owes it. -/
theorem dialing_law_plain
    : ∃ runtime, run (Runtime.step plainNet List.length { galaxy := [103] }) {} plainTurns
        = some runtime
      ∧ ∃ session ∈ runtime.sessions, session.Owes (plainStar 98 2 1) := by
  have marked : (run (Runtime.step plainNet List.length { galaxy := [103] }) {} plainTurns).bind
      (·.topology.members.get? (plainStar 98 2 1).principal)
        = some { member := plainStar 98 2 1, pending := true } := by
    decide
  obtain ⟨runtime, reached, isEntry⟩ := Option.bind_eq_some_iff.mp marked
  exact ⟨runtime, reached, (dialing_law reached).1 _ _ isEntry rfl⟩

end Runtime

end Astra
