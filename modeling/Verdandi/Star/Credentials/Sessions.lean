import Verdandi.Star.Credentials.Frames

/-! Every open session is explained by the login that opened it, through patches and
replacements of the table.
-/

namespace Astra.Credentials

open Support Polaris Proto

/-- Where a session comes from, and what holds of it as long as its group and its account
are active: its login is in the log with no replacement after it, and its account is still
the one of its key.
-/
structure Explained (access : Access) (log : List Event) (token : Access.Token)
    (session : Access.Session) (newer older : List Event) (key : Bytes)
    : Prop where
  opened : log = newer ++ .opened token.1 key session.account.secret :: older
  allocated : session.group < access.next
  revoked : session.group ≠ access.group → session.group ∈ access.revoked
  unreplaced : session.group = access.group → Event.replaced ∉ newer
  current
    : session.group = access.group → session.account.id ∉ access.retired
      → access.accounts.get? key = some session.account

structure Accounted (access : Access) (log : List Event) : Prop where
  allocated : access.group < access.next
  sessions
    : ∀ token session, access.sessions.get? token = some session
      → ∃ newer older key, Explained access log token session newer older key

variable {access : Access} {log : List Event} {session : Access.Session} {key : Bytes}

/-- An entry of the log that is no replacement only pushes the explanations back. -/
theorem Explained.push {token : Access.Token} {newer older : List Event}
    (explained : Explained access log token session newer older key) (event : Event)
    (harmless : event ≠ .replaced)
    : Explained access (event :: log) token session (event :: newer) older key where
  opened := by rw [explained.opened, List.cons_append]
  allocated := explained.allocated
  revoked := explained.revoked
  unreplaced := by
    intro current member
    rcases List.mem_cons.mp member with same | later
    · exact harmless same.symm
    · exact explained.unreplaced current later
  current := explained.current

variable {next : Access}

/-- A credential patch keeps every explanation: a session whose account was replaced lost
its account to the retired ones.
-/
theorem Accounted.applied {secret : Option Bytes} (accounted : Accounted access log)
    (applied : Access.Applied access next key secret)
    : Accounted next log := by
  refine ⟨?_, ?_⟩
  · rw [applied.group]
    exact Nat.lt_of_lt_of_le accounted.allocated applied.next
  · intro token session found
    rw [applied.sessions] at found
    obtain ⟨newer, older, name, explained⟩ := accounted.sessions token session found
    refine ⟨newer, older, name, explained.opened,
      Nat.lt_of_lt_of_le explained.allocated applied.next, ?_, ?_, ?_⟩
    · rw [applied.group, applied.revoked]
      exact explained.revoked
    · rw [applied.group]
      exact explained.unreplaced
    · rw [applied.group]
      intro current active
      have before := explained.current current fun member =>
        active (applied.retired _ member)
      exact applied.kept name session.account before active

/-- A replacement revokes the group of every open session, since the new group's identity is
above all those in use.
-/
theorem Accounted.replaced {credentials : Access.Draft} (accounted : Accounted access log)
    (replaced : access.reset credentials (.ok (some ())) = .ok (some (next, ())))
    : Accounted next (.replaced :: log) := by
  obtain ⟨_, equal⟩ := Access.reset_some replaced
  subst equal
  refine ⟨Nat.lt_succ_self _, ?_⟩
  intro token session found
  obtain ⟨newer, older, key, explained⟩ := accounted.sessions token session found
  have outdated : session.group ≠ access.next := Nat.ne_of_lt explained.allocated
  refine ⟨.replaced :: newer, older, key, ?_, Nat.lt_succ_of_lt explained.allocated, ?_, ?_, ?_⟩
  · rw [explained.opened, List.cons_append]
  · intro _
    by_cases last : session.group = access.group
    · exact List.mem_cons.mpr (.inl last)
    · exact List.mem_cons_of_mem _ (explained.revoked last)
  · exact fun current => absurd current outdated
  · exact fun current => absurd current outdated

/-- A login is explained by its own entry; the others are pushed back. -/
theorem Accounted.opened {secret : Bytes} {random : Nat → Option Access.Token}
    (accounted : Accounted access log)
    (opened : access.open key secret random = .ok (next, session))
    : Accounted next (.opened session.token.1 key secret :: log) := by
  unfold Access.open at opened
  split at opened
  · cases opened
  obtain ⟨current, matching, group, equal⟩ := Access.attempt_ok opened
  subst equal
  refine ⟨Nat.lt_succ_of_lt accounted.allocated, ?_⟩
  intro token other found
  simp only [Assoc.get?_set] at found
  split at found
  next same =>
    cases found
    refine ⟨[], log, key, ?_, ?_, fun moved => absurd group moved,
      fun _ => List.not_mem_nil, fun _ _ => current⟩
    · rw [matching, same, List.nil_append]
    · rw [group]
      exact Nat.lt_succ_of_lt accounted.allocated
  obtain ⟨newer, older, name, explained⟩ := accounted.sessions token other found
  have pushed := explained.push (.opened session.token.1 key secret) (by simp)
  exact ⟨_, older, name, pushed.opened, Nat.lt_succ_of_lt pushed.allocated, pushed.revoked,
    pushed.unreplaced, pushed.current⟩

/-- Closing a session only forgets an explanation. -/
theorem Accounted.closed {access : Access} {log : List Event}
    (accounted : Accounted access log) (session : Option Access.Session)
    : Accounted (access.close session) log := by
  rcases Access.close_sessions access session with same | ⟨token, removed⟩
  · rw [same]
    exact accounted
  · rw [removed]
    refine ⟨accounted.allocated, ?_⟩
    intro other open' found
    simp only [Assoc.get?_remove] at found
    split at found
    · cases found
    · obtain ⟨newer, older, key, explained⟩ := accounted.sessions other open' found
      exact ⟨newer, older, key, explained.opened, explained.allocated, explained.revoked,
        explained.unreplaced, explained.current⟩

section

variable {parse : Bytes → Option Bytes}

variable {before after : Shared} {log : List Event}

theorem Patching.accounted (patching : Patching parse before after)
    (accounted : Accounted before.access log)
    : Accounted after.access log := by
  induction patching with
  | refl => exact accounted
  | tail _ moved ih =>
      rcases moved with unmoved | ⟨key, secret, amended⟩
      · rw [unmoved.access]
        exact ih
      · exact ih.applied amended.access

/-- One frame keeps the sessions explained under the log it writes. -/
theorem Moves.accounted {packet : Packet} (moves : Moves parse packet before after)
    (accounted : Accounted before.access log)
    : Accounted after.access (record packet before.library after.library log) := by
  obtain ⟨body, size⟩ := packet
  cases body with
  | snapshot page =>
      simp only [record]
      rcases moves with unmoved | ⟨credentials, draft, replaced⟩
      · have still : version? before.library = version? after.library := by
          rw [version?, version?, unmoved.installed]
        rw [if_pos still, unmoved.access]
        exact accounted
      · rw [if_neg replaced.moved]
        exact accounted.replaced replaced.access
  | unset | hello | inventory | plan | updates | acknowledged | probe | ready =>
      exact Patching.accounted moves accounted

end

end Astra.Credentials
