import Verdandi.Sdk.Registration.Sending

/-! One revision of a registration names one content, whatever becomes of the calls. -/

namespace Sdk.Registration

open Support
open Support.Redis (Text get?_setAll_toPairs get?_setAll_of_mem get?_setAll_of_notMem
  setAll_append get?_setAll)
open Support.Redis.Database (setAll)
open Sdk.Catalog (Time)

-- Contents and leases

structure Lease.Of (lease : Lease) (content : Content) : Prop where
  version : lease.version = content.version
  fields : lease.fields.get? = (setAll ∅ content.fields).get?

theorem get?_setAll_sortedFields (map values : Assoc Text Text) (name : Text)
    : (setAll map (sortedFields [] values)).get? name = (values.get? name).or (map.get? name) := by
  cases found : values.get? name with
  | some value =>
      have listed : (name, value) ∈ sortedFields [] values :=
        mem_sortedFields.mpr ⟨name, rfl, found⟩
      rw [get?_setAll_of_mem nodup_sortedFields listed]
      rfl
  | none =>
      rw [get?_setAll_of_notMem]
      · rfl
      · intro listed
        obtain ⟨field, member, isName⟩ := List.mem_map.mp listed
        obtain ⟨other, isOther, isSome⟩ := mem_sortedFields.mp member
        rw [List.nil_append] at isOther
        rw [← isOther, isName, found] at isSome
        cases isSome

theorem Lease.Of.registered (revision timestamp ttl : Nat) (content : Content)
    : Lease.Of
        { revision, timestamp, ttl, version := content.version,
          fields := setAll ∅ content.fields } content :=
  ⟨rfl, rfl⟩

variable {lease : Lease}

theorem Lease.Of.updated {content : Content} (is : lease.Of content) (revision timestamp : Nat)
    (version : Option Nat) (data : Assoc Text Text)
    : Lease.Of
        { lease with
          revision
          timestamp
          version := version.getD lease.version
          fields := setAll lease.fields (sortedFields [] data) }
        (content.patch version data) where
  version := by simp [Content.patch, is.version]
  fields := by
    funext name
    simp only [get?_setAll_sortedFields, is.fields, Content.fields, Content.patch, setAll_append,
      get?_setAll_toPairs, Option.or_assoc]

theorem Lease.Of.renewed {content : Content} (is : lease.Of content) (timestamp : Nat)
    : Lease.Of { lease with timestamp } content :=
  ⟨is.version, is.fields⟩

structure Content.In (content : Content) (hash : Assoc Text Text) : Prop where
  version : hash.get? (ascii "@version") = some (Decimal.text content.version)
  fields : ∀ name, name ∉ marks → hash.get? name = (setAll ∅ content.fields).get? name

theorem Shows.content {uuid : Text} {record : Leased (Assoc Text Text)}
    (shows_ : Shows uuid lease record) {content : Content} (is : lease.Of content)
    : content.In record.value where
  version := by
    rw [shows_.hash, ← is.version]
    exact @Lease.get?_hash_mark lease uuid (ascii "@version", Decimal.text lease.version)
      (by simp [Lease.header])
  fields name unmarked := by
    rw [shows_.hash, Lease.get?_hash_field unmarked, is.fields]

-- Calls on their way

/-- A request that leads to no other content than that of its revision, up to a revision. -/
inductive Request.Within (ttl : Nat) (contents : Nat → Content) (level : Nat) : Request → Prop where
  | register (revision) (low : revision ≤ level) (admitted : Admitted revision ttl (contents revision))
    : Within ttl contents level (.register revision ttl (contents revision))
  | update (revision version data) (low : revision + 1 ≤ level)
    (small : revision + 1 ≤ maxSafeInteger)
    (next : contents (revision + 1) = (contents revision).patch version data)
    (numbered : ∀ number ∈ version, 1 ≤ number ∧ number ≤ maxSafeInteger) (plain : AllPlain data)
    : Within ttl contents level (.update (revision + 1) version data)
  | renew (revision) (valid : 1 ≤ revision ∧ revision ≤ maxSafeInteger)
    : Within ttl contents level (.renew revision)
  | unregister : Within ttl contents level .unregister

def Request.writes : Request → Option Nat
  | .register revision _ _ | .update revision _ _ => some revision
  | .renew _ | .unregister => none

def Link.Refused (link : Link) (call : Nat) : Prop :=
  ∃ status field revision, (call, Reply.error status field revision) ∈ link.replies

def Link.Accepted (link : Link) (call : Nat) : Prop :=
  ∃ revision timestamp, (call, Reply.ok revision timestamp) ∈ link.replies

structure Link.Numbered (link : Link) : Prop where
  flight : ∀ entry ∈ link.flight, entry.1 < link.calls
  distinct : (link.flight.map Prod.fst).Nodup
  replies : ∀ reply ∈ link.replies, reply.1 < link.calls
  answered : ∀ reply ∈ link.replies, reply.1 ∉ link.flight.map Prod.fst
  once : (link.replies.map Prod.fst).Nodup
  sent : ∀ sent ∈ link.sent, sent.call < link.calls

def Link.Stores (link : Link) (content : Content) : Prop :=
  ∃ hash ∈ link.stored, content.In hash

/-- What holds of the calls whatever the worker does: every content that was sent under a revision is the
content of the revision or was refused, and so is what is stored.
-/
structure Link.Kept (link : Link) (leases : Text → Option Lease) : Prop where
  represents : Represents link.store leases
  numbered : link.Numbered
  valid : ∀ entry ∈ link.flight, entry.2.Valid
  listed : ∀ entry ∈ link.flight, ∀ revision ∈ entry.2.writes,
    ∃ sent ∈ link.sent, sent.call = entry.1 ∧ sent.revision = revision
  agreed : link.sent.Pairwise fun first second =>
    first.revision = second.revision → first.content = second.content ∨ link.Refused first.call
  accepted : ∀ lease, leases link.uuid = some lease
    → ∃ sent ∈ link.sent, sent.revision = lease.revision ∧ link.Accepted sent.call
  held : ∀ lease, leases link.uuid = some lease → ∃ hash ∈ link.stored, ∀ content,
    lease.Of content → content.In hash

/-- Up to a revision, everything that was sent or stored is of the contents of the revisions; one call is
set aside.
-/
structure Link.Settled (link : Link) (leases : Text → Option Lease) (ttl : Nat)
    (contents : Nat → Content) (level : Nat) (aside : Option Nat) : Prop where
  flight : ∀ entry ∈ link.flight, some entry.1 ≠ aside → entry.2.Within ttl contents level
  record : ∀ lease, leases link.uuid = some lease
    → lease.revision ≤ level ∧ lease.Of (contents lease.revision)
  sent : ∀ sent ∈ link.sent, some sent.call ≠ aside
    → (sent.revision ≤ level ∧ sent.content = contents sent.revision) ∨ link.Refused sent.call

theorem Request.Within.valid {ttl level : Nat} {contents : Nat → Content} {request : Request}
    (within : request.Within ttl contents level)
    : request.Valid := by
  cases within with
  | register revision low admitted => exact admitted
  | update revision version data low small next numbered plain =>
      exact ⟨⟨Nat.le_add_left 1 revision, small⟩, numbered, plain⟩
  | renew revision valid => exact valid
  | unregister => trivial

theorem Request.Within.mono {ttl low high : Nat} {contents contents' : Nat → Content}
    {request : Request} (within : request.Within ttl contents low) (le : low ≤ high)
    (same : ∀ revision, revision ≤ low → contents' revision = contents revision)
    : request.Within ttl contents' high := by
  cases within with
  | register revision isLow admitted =>
      rw [← same revision isLow] at admitted ⊢
      exact .register revision (isLow.trans le) admitted
  | update revision version data isLow small next numbered plain =>
      rw [← same _ isLow, ← same revision (by omega)] at next
      exact .update revision version data (isLow.trans le) small next numbered plain
  | renew revision valid => exact .renew revision valid
  | unregister => exact .unregister

section Calls

variable {link : Link} {leases : Text → Option Lease} {ttl level : Nat}
  {contents : Nat → Content} {aside : Option Nat} {call : Nat} {request : Request} {now : Time}

theorem Link.Refused.mono {next : Link} (refused : link.Refused call)
    (grows : ∀ reply ∈ link.replies, reply ∈ next.replies)
    : next.Refused call := by
  obtain ⟨status, field, revision, listed⟩ := refused
  exact ⟨status, field, revision, grows _ listed⟩

theorem Link.Accepted.mono {next : Link} (accepted : link.Accepted call)
    (grows : ∀ reply ∈ link.replies, reply ∈ next.replies)
    : next.Accepted call := by
  obtain ⟨revision, timestamp, listed⟩ := accepted
  exact ⟨revision, timestamp, grows _ listed⟩

/-- A call has one answer. -/
theorem Link.Numbered.unique (numbered : link.Numbered) {first second : Nat × Reply}
    (isFirst : first ∈ link.replies) (isSecond : second ∈ link.replies) (same : first.1 = second.1)
    : first = second :=
  List.inj_on_of_nodup_map numbered.once isFirst isSecond same

theorem Link.Numbered.not_refused (numbered : link.Numbered) (accepted : link.Accepted call)
    : ¬link.Refused call := by
  rintro ⟨status, field, revision, refused⟩
  obtain ⟨revision', timestamp, isAccepted⟩ := accepted
  have same := numbered.unique isAccepted refused rfl
  cases same

theorem mem_drop {entry : Nat × Request}
    : entry ∈ (link.drop call).flight ↔ entry ∈ link.flight ∧ entry.1 ≠ call := by
  simp [Link.drop]

theorem Link.Numbered.drop (numbered : link.Numbered) (call : Nat) : (link.drop call).Numbered where
  flight entry listed := numbered.flight entry (mem_drop.mp listed).1
  distinct := numbered.distinct.sublist (List.filter_sublist.map _)
  replies := numbered.replies
  answered reply listed inFlight := by
    obtain ⟨entry, member, same⟩ := List.mem_map.mp inFlight
    refine numbered.answered reply listed ?_
    rw [← same]
    exact List.mem_map_of_mem (mem_drop.mp member).1
  once := numbered.once
  sent := numbered.sent

/-- A call that is lost changes nothing else. -/
theorem Link.Kept.drop (kept : link.Kept leases) (call : Nat) : (link.drop call).Kept leases where
  represents := kept.represents
  numbered := kept.numbered.drop call
  valid entry listed := kept.valid entry (mem_drop.mp listed).1
  listed entry listed := kept.listed entry (mem_drop.mp listed).1
  agreed := kept.agreed
  accepted := kept.accepted
  held := kept.held

theorem Link.Settled.drop (settled : link.Settled leases ttl contents level aside) (call : Nat)
    : (link.drop call).Settled leases ttl contents level aside where
  flight entry listed := settled.flight entry (mem_drop.mp listed).1
  record := settled.record
  sent := settled.sent

def leasesAt (leases : Text → Option Lease) (now : Nat) (uuid : Text) : Option Lease :=
  (leases uuid).filter fun lease => decide (now < lease.deadline)

variable {uuid : Text} {lease : Lease}

theorem leasesAt_some {now : Nat} (left : leasesAt leases now uuid = some lease)
    : leases uuid = some lease :=
  Option.eq_some_of_filter_eq_some left

theorem Link.Kept.pass (kept : link.Kept leases) (now : Nat)
    : Link.Kept { link with store := link.store.expire now } (leasesAt leases now) where
  represents := kept.represents.expire now
  numbered := ⟨kept.numbered.flight, kept.numbered.distinct, kept.numbered.replies,
    kept.numbered.answered, kept.numbered.once, kept.numbered.sent⟩
  valid := kept.valid
  listed := kept.listed
  agreed := kept.agreed
  accepted lease left := kept.accepted lease (leasesAt_some left)
  held lease left := kept.held lease (leasesAt_some left)

theorem Link.Settled.pass (settled : link.Settled leases ttl contents level aside) (now : Nat)
    : Link.Settled { link with store := link.store.expire now } (leasesAt leases now) ttl contents
        level aside where
  flight := settled.flight
  record lease left := settled.record lease (leasesAt_some left)
  sent := settled.sent

variable {before : Option Lease} {change : Change}

/-- What a change leaves is what was there, or is of the revision that the request writes. -/
theorem Changes.written (changes : Changes uuid request before change)
    (left : change.lease = some lease)
    : (∃ old, before = some old ∧ lease.revision = old.revision
        ∧ ∀ content, lease.Of content → old.Of content)
      ∨ (request.writes = some lease.revision
        ∧ change.reply = .ok lease.revision lease.timestamp ∧ change.event.isSome) := by
  cases changes with
  | refused => exact .inl ⟨lease, left, rfl, fun _ is => is⟩
  | known => exact .inl ⟨lease, left, rfl, fun _ is => is⟩
  | registered revision ttl content timestamp newer later =>
      cases left
      exact .inr ⟨rfl, rfl, rfl⟩
  | updated version data timestamp later =>
      cases left
      exact .inr ⟨rfl, rfl, rfl⟩
  | renewed timestamp later =>
      cases left
      exact .inl ⟨_, rfl, rfl, fun _ is => ⟨is.version, is.fields⟩⟩
  | unregistered => cases left
  | vacant => cases left

/-- What a change leaves is of the content of its revision. -/
theorem Changes.of_within
    (changes : Changes uuid request before change) (within : request.Within ttl contents level)
    (record : ∀ lease, before = some lease
      → lease.revision ≤ level ∧ lease.Of (contents lease.revision))
    (left : change.lease = some lease)
    : lease.revision ≤ level ∧ lease.Of (contents lease.revision) := by
  cases changes with
  | refused => exact record lease left
  | known => exact record lease left
  | registered revision ttl content timestamp newer later =>
      cases left
      cases within with
      | register _ low admitted => exact ⟨low, .registered _ _ _ _⟩
  | updated version data timestamp later =>
      cases left
      cases within with
      | update revision version data low small next numbered plain =>
          refine ⟨low, ?_⟩
          simp only
          rw [next]
          exact (record _ rfl).2.updated _ _ version data
  | renewed timestamp later =>
      cases left
      obtain ⟨low, is⟩ := record _ rfl
      exact ⟨low, is.renewed timestamp⟩
  | unregistered => cases left
  | vacant => cases left

/-- A refused request leaves what was there. -/
theorem Changes.refused_lease (changes : Changes uuid request before change) {status : Status}
    {field revision} (refused : change.reply = .error status field revision)
    : change.lease = before := by
  cases changes with
  | refused => rfl
  | known => rfl
  | vacant => rfl
  | _ => cases refused

def Request.about : Request → Option Nat
  | .register revision _ _ | .update revision _ _ | .renew revision => some revision
  | .unregister => none

variable {about : Nat}

/-- After an accepted request there is a lease of its revision. -/
theorem Changes.accepted_lease (changes : Changes uuid request before change) {revision timestamp}
    (accepted : change.reply = .ok revision timestamp) (isAbout : request.about = some about)
    : ∃ lease, change.lease = some lease ∧ lease.revision = about := by
  cases changes with
  | refused => cases accepted
  | known =>
      cases isAbout
      exact ⟨_, rfl, rfl⟩
  | registered =>
      cases isAbout
      exact ⟨_, rfl, rfl⟩
  | updated =>
      cases isAbout
      exact ⟨_, rfl, rfl⟩
  | renewed =>
      cases isAbout
      exact ⟨_, rfl, rfl⟩
  | unregistered => cases isAbout
  | vacant => cases isAbout

structure Link.Ran (link : Link) (leases : Text → Option Lease) (call : Nat) (request : Request)
    (now : Time) (change : Change) (after : Text → Option Lease) : Prop where
  changes : Changes link.uuid request (leasesAt leases now.milliseconds link.uuid) change
  lease : after link.uuid = change.lease
  replies : (link.execute call request now).replies = link.replies ++ [(call, change.reply)]
  kept : (link.execute call request now).Kept after

theorem Link.Kept.execute (kept : link.Kept leases) (listed : (call, request) ∈ link.flight)
    (now : Time)
    : ∃ change after, link.Ran leases call request now change after := by
  have expired := kept.represents.expire now.milliseconds
  have refines := expired.refines (kept.valid _ listed) now link.uuid
  have changes := request.changes now link.uuid (leasesAt leases now.milliseconds link.uuid)
  generalize isChange : request.change now link.uuid
    (leasesAt leases now.milliseconds link.uuid) = change at changes
  rw [show ((leases link.uuid).filter fun lease => decide (now.milliseconds < lease.deadline))
    = leasesAt leases now.milliseconds link.uuid from rfl, isChange] at refines
  have replies : (link.execute call request now).replies
      = link.replies ++ [(call, change.reply)] := by
    rw [← refines.reply]
    rfl
  have grows (reply : Nat × Reply) (known : reply ∈ link.replies)
      : reply ∈ (link.execute call request now).replies := by
    rw [replies]
    exact List.mem_append_left _ known
  have new : call ∉ link.replies.map Prod.fst := by
    intro answered
    obtain ⟨reply, member, same⟩ := List.mem_map.mp answered
    exact kept.numbered.answered reply member (same ▸ List.mem_map_of_mem listed)
  have numbered := kept.numbered.drop call
  have left : (Function.update (fun uuid => (leases uuid).filter fun lease =>
      decide (now.milliseconds < lease.deadline)) link.uuid change.lease) link.uuid
        = change.lease := Function.update_self ..
  refine ⟨change, _, changes, left, replies, ?_⟩
  refine ⟨refines.represents, ⟨numbered.flight, numbered.distinct, ?_, ?_, ?_, numbered.sent⟩,
    fun entry inFlight => kept.valid entry (mem_drop.mp inFlight).1,
    fun entry inFlight => kept.listed entry (mem_drop.mp inFlight).1, ?_, ?_, ?_⟩
  · intro reply isReply
    rw [replies] at isReply
    rcases List.mem_append.mp isReply with known | isNew
    · exact kept.numbered.replies reply known
    · rw [List.mem_singleton.mp isNew]
      exact kept.numbered.flight _ listed
  · intro reply isReply inFlight
    rw [replies] at isReply
    rcases List.mem_append.mp isReply with known | isNew
    · exact numbered.answered reply known inFlight
    · rw [List.mem_singleton.mp isNew] at inFlight
      obtain ⟨entry, member, same⟩ := List.mem_map.mp inFlight
      exact (mem_drop.mp member).2 same
  · rw [replies, List.map_append, List.nodup_append]
    refine ⟨kept.numbered.once, by simp, ?_⟩
    rintro first isFirst second isSecond rfl
    rw [List.map_cons, List.map_nil, List.mem_singleton] at isSecond
    rw [isSecond] at isFirst
    exact new isFirst
  · exact kept.agreed.imp fun agreed same => (agreed same).imp_right fun refused =>
      refused.mono grows
  · intro lease isLease
    have isLease := left.symm.trans isLease
    rcases changes.written isLease with ⟨old, isOld, sameRevision, _⟩ | ⟨writes, reply, _⟩
    · obtain ⟨sent, isSent, revision, accepted⟩ := kept.accepted old (leasesAt_some isOld)
      exact ⟨sent, isSent, revision.trans sameRevision.symm, accepted.mono grows⟩
    · obtain ⟨sent, isSent, isCall, revision⟩ := kept.listed _ listed lease.revision writes
      refine ⟨sent, isSent, revision, some lease.revision, some lease.timestamp, ?_⟩
      rw [isCall, replies, reply]
      exact List.mem_append_right _ (List.mem_singleton_self _)
  · intro lease isLease
    have isLease := left.symm.trans isLease
    rcases changes.written isLease with ⟨old, isOld, _, same⟩ | ⟨_, _, event⟩
    · obtain ⟨hash, stored, holds⟩ := kept.held old (leasesAt_some isOld)
      exact ⟨hash, List.mem_append_left _ stored, fun content is => holds content (same content is)⟩
    · have shown := refines.represents.found (left.trans isLease)
      obtain ⟨record, found, shows_⟩ := shown
      have found : (request.run (link.store.expire now.milliseconds) now
          link.uuid).store.records.get? link.uuid = some record := found
      refine ⟨record.value, ?_, fun content is => shows_.content is⟩
      refine List.mem_append_right _ ?_
      rw [← refines.event] at event
      rw [if_pos event, found]
      exact List.mem_singleton_self _

variable {after : Text → Option Lease}

theorem Link.Ran.grows (ran : link.Ran leases call request now change after) {reply : Nat × Reply}
    (known : reply ∈ link.replies)
    : reply ∈ (link.execute call request now).replies := by
  rw [ran.replies]
  exact List.mem_append_left _ known

theorem Link.Settled.execute (settled : link.Settled leases ttl contents level aside)
    (ran : link.Ran leases call request now change after)
    (within : request.Within ttl contents level)
    : (link.execute call request now).Settled after ttl contents level aside where
  flight entry listed := settled.flight entry (mem_drop.mp listed).1
  record lease left := by
    have left : change.lease = some lease := ran.lease.symm.trans left
    exact ran.changes.of_within within
      (fun old isOld => settled.record old (leasesAt_some isOld)) left
  sent sent isSent different :=
    (settled.sent sent isSent different).imp_right fun refused => refused.mono fun _ => ran.grows

/-- Once a call is refused, nothing of it is left. -/
theorem Link.Settled.refuse {change : Change} {after : Text → Option Lease}
    (settled : link.Settled leases ttl contents level (some call))
    (ran : link.Ran leases call request now change after) {status : Status} {field revision}
    (refused : change.reply = .error status field revision)
    : (link.execute call request now).Settled after ttl contents level none where
  flight entry listed _ := by
    obtain ⟨inFlight, different⟩ := mem_drop.mp listed
    exact settled.flight entry inFlight fun same => different (Option.some.inj same)
  record lease left := by
    have left : change.lease = some lease := ran.lease.symm.trans left
    rw [ran.changes.refused_lease refused] at left
    exact settled.record lease (leasesAt_some left)
  sent sent isSent _ := by
    by_cases same : sent.call = call
    · refine .inr ⟨status, field, revision, ?_⟩
      rw [same, ran.replies, refused]
      exact List.mem_append_right _ (List.mem_singleton_self _)
    · exact (settled.sent sent isSent fun isSame => same (Option.some.inj isSame)).imp_right
        fun refused => refused.mono fun _ => ran.grows

/-- An accepted call has stored the content of its revision. -/
theorem Link.Ran.stores (ran : link.Ran leases call request now change after)
    (settled : (link.execute call request now).Settled after ttl contents level aside)
    {revision timestamp} (accepted : change.reply = .ok revision timestamp)
    (isAbout : request.about = some about)
    : (link.execute call request now).Stores (contents about) := by
  obtain ⟨lease, left, isRevision⟩ := ran.changes.accepted_lease accepted isAbout
  have left : after (link.execute call request now).uuid = some lease := ran.lease.trans left
  obtain ⟨hash, stored, holds⟩ := ran.kept.held lease left
  have is := (settled.record lease left).2
  rw [isRevision] at is
  exact ⟨hash, stored, holds _ is⟩

theorem Link.Stores.execute {content : Content} (stores : link.Stores content) (call : Nat)
    (request : Request) (now : Time)
    : (link.execute call request now).Stores content := by
  obtain ⟨hash, stored, holds⟩ := stores
  exact ⟨hash, List.mem_append_left _ stored, holds⟩

theorem Link.Settled.mono {contents' : Nat → Content} {high : Nat}
    (settled : link.Settled leases ttl contents level aside) (le : level ≤ high)
    (same : ∀ revision, revision ≤ level → contents' revision = contents revision)
    : link.Settled leases ttl contents' high aside where
  flight entry listed different := (settled.flight entry listed different).mono le same
  record lease left := by
    obtain ⟨low, is⟩ := settled.record lease left
    rw [← same _ low] at is
    exact ⟨low.trans le, is⟩
  sent sent isSent different := by
    refine (settled.sent sent isSent different).imp_left fun ⟨low, isContent⟩ => ?_
    rw [← same _ low] at isContent
    exact ⟨low.trans le, isContent⟩

-- Sending

variable {state : RegistrationState}

theorem Request.content_writes (request : Request) (state : RegistrationState)
    : (request.content state).map Prod.fst = request.writes := by
  cases request <;> rfl

theorem mem_sent_send {sent : Sent}
    : sent ∈ (link.send request state).sent ↔ sent ∈ link.sent ∨ (sent.call = link.calls
        ∧ (sent.revision, sent.content) ∈ request.content state) := by
  rw [Link.send, List.mem_append, Option.mem_toList]
  refine or_congr_right ?_
  cases request.content state with
  | none => simp
  | some content =>
      simp only [Option.map_some, Option.mem_def, Option.some.injEq]
      constructor
      · rintro rfl
        exact ⟨rfl, rfl⟩
      · rintro ⟨isCall, rfl⟩
        rw [← isCall]

theorem Link.Kept.send (kept : link.Kept leases) (valid : request.Valid)
    (agrees : ∀ content ∈ request.content state, ∀ sent ∈ link.sent,
      sent.revision = content.1 → sent.content = content.2 ∨ link.Refused sent.call)
    : (link.send request state).Kept leases := by
  have numbered := kept.numbered
  refine ⟨kept.represents, ⟨?_, ?_, ?_, ?_, numbered.once, ?_⟩, ?_, ?_, ?_, ?_, kept.held⟩
  · intro entry listed
    rcases List.mem_append.mp listed with known | isNew
    · exact Nat.lt_succ_of_lt (numbered.flight entry known)
    · rw [List.mem_singleton.mp isNew]
      exact Nat.lt_succ_self _
  · rw [Link.send, List.map_append, List.nodup_append]
    refine ⟨numbered.distinct, by simp, ?_⟩
    rintro first isFirst second isSecond rfl
    rw [List.map_cons, List.map_nil, List.mem_singleton] at isSecond
    obtain ⟨entry, listed, same⟩ := List.mem_map.mp isFirst
    have := numbered.flight entry listed
    omega
  · intro reply listed
    exact Nat.lt_succ_of_lt (numbered.replies reply listed)
  · intro reply listed inFlight
    rw [Link.send, List.map_append] at inFlight
    rcases List.mem_append.mp inFlight with known | isNew
    · exact numbered.answered reply listed known
    · rw [List.map_cons, List.map_nil, List.mem_singleton] at isNew
      have := numbered.replies reply listed
      omega
  · intro sent isSent
    rcases mem_sent_send.mp isSent with known | ⟨isCall, _⟩
    · exact Nat.lt_succ_of_lt (numbered.sent sent known)
    · rw [isCall]
      exact Nat.lt_succ_self _
  · intro entry listed
    rcases List.mem_append.mp listed with known | isNew
    · exact kept.valid entry known
    · rw [List.mem_singleton.mp isNew]
      exact valid
  · intro entry listed revision writes
    rcases List.mem_append.mp listed with known | isNew
    · obtain ⟨sent, isSent, same⟩ := kept.listed entry known revision writes
      exact ⟨sent, mem_sent_send.mpr (.inl isSent), same⟩
    · rw [List.mem_singleton.mp isNew] at writes ⊢
      rw [← request.content_writes state] at writes
      obtain ⟨content, isContent, isRevision⟩ := Option.map_eq_some_iff.mp writes
      refine ⟨⟨link.calls, revision, content.2⟩, mem_sent_send.mpr (.inr ⟨rfl, ?_⟩), rfl, rfl⟩
      rw [← isRevision]
      exact isContent
  · rw [Link.send, List.pairwise_append]
    refine ⟨kept.agreed, ?_, ?_⟩
    · cases request.content state <;> simp
    · intro first isFirst second isSecond same
      rw [Option.mem_toList] at isSecond
      obtain ⟨content, isContent, rfl⟩ := Option.map_eq_some_iff.mp isSecond
      exact agrees content isContent first isFirst same
  · intro lease left
    obtain ⟨sent, isSent, same⟩ := kept.accepted lease left
    exact ⟨sent, mem_sent_send.mpr (.inl isSent), same⟩

/-- What is sent is settled too if it is of the contents, or set aside. -/
theorem Link.Settled.send (settled : link.Settled leases ttl contents level none)
    (fits : aside = some link.calls ∨ (request.Within ttl contents level
      ∧ ∀ content ∈ request.content state, content.1 ≤ level ∧ content.2 = contents content.1))
    : (link.send request state).Settled leases ttl contents level aside where
  flight entry listed different := by
    rcases List.mem_append.mp listed with known | isNew
    · exact settled.flight entry known nofun
    · rw [List.mem_singleton.mp isNew] at different ⊢
      rcases fits with isAside | ⟨within, _⟩
      · exact absurd isAside.symm different
      · exact within
  record := settled.record
  sent sent isSent different := by
    rcases mem_sent_send.mp isSent with known | ⟨isCall, isContent⟩
    · exact settled.sent sent known nofun
    · rcases fits with isAside | ⟨_, agrees⟩
      · rw [isCall] at different
        exact absurd isAside.symm different
      · exact .inl (agrees _ isContent)

end Calls

-- The worker and its calls

/-- Where a worker is, with what the calls have done so far. A worker that waits for a call to the next
revision may find it written; unless the call was accepted, nothing of it is left but the call.
-/
inductive Phase.Sound (honest : Prop) (ttl : Nat) (link : Link) (leases : Text → Option Lease)
    (state : RegistrationState) (revision : Nat) (contents : Nat → Content) (known : Bool)
    : Phase → Prop where
  | idle (isAt : state.At ttl revision (contents revision))
    (sure : state.uncertain = false → known = true)
    (settled : link.Settled leases ttl contents revision none)
    : Phase.Sound honest ttl link leases state revision contents known .idle
  | finished (isAt : state.At ttl revision (contents revision))
    (settled : link.Settled leases ttl contents revision none)
    : Phase.Sound honest ttl link leases state revision contents known .finished
  | sending (batch request next)
    (safe : (Program.call request next).Safe honest batch ttl state revision (contents revision)
      known)
    (settled : link.Settled leases ttl contents revision none)
    : Phase.Sound honest ttl link leases state revision contents known
        (.busy batch request next none)
  | leaving (batch next call) (isAt : state.At ttl revision (contents revision))
    (safe : ∀ result,
      (next result).Safe honest batch ttl state revision (contents revision) known)
    (settled : link.Settled leases ttl contents revision none)
    : Phase.Sound honest ttl link leases state revision contents known
        (.busy batch .unregister next (some call))
  | keeping (batch request next call) (isAt : state.At ttl revision (contents revision))
    (keeps : request.Keeps ttl revision (contents revision))
    (safe : ∀ result, (next result).Safe honest batch ttl state revision (contents revision)
      (known || result.isOk))
    (settled : link.Settled leases ttl contents revision none)
    (own : ∀ entry ∈ link.flight, entry.1 = call → entry.2 = request)
    (stores : link.Accepted call → link.Stores (contents revision))
    : Phase.Sound honest ttl link leases state revision contents known
        (.busy batch request next (some call))
  | moving (batch request next call) (isAt : state.At ttl revision (contents revision))
    (admitted : Admitted (revision + 1) ttl (contents (revision + 1)))
    (about : request.about = some (revision + 1))
    (safe : ∀ result,
      if certain result then
        (next result).Safe honest batch ttl state revision (contents revision) known
      else
        (next result).Safe honest batch ttl state (revision + 1) (contents (revision + 1))
          result.isOk)
    (settled : link.Settled leases ttl contents (revision + 1) none)
    (own : ∀ entry ∈ link.flight, entry.1 = call → entry.2 = request)
    (stores : link.Accepted call → link.Stores (contents (revision + 1)))
    (behind : ¬link.Accepted call → link.Settled leases ttl contents revision (some call))
    : Phase.Sound honest ttl link leases state revision contents known
        (.busy batch request next (some call))

/-- Every update that was reported as done is in a record that was stored. -/
def World.Told (world : World) : Prop :=
  ∀ entry ∈ world.reported, entry.2 = none
    → ∃ content : Content, content.Contains entry.1.update ∧ world.link.Stores content

/-- The states that the worker was in had the contents of their revisions. -/
def World.Held (world : World) (revision : Nat) (contents : Nat → Content) : Prop :=
  ∀ state ∈ world.held, state.revision ≤ revision ∧ state.content = contents state.revision

structure World.Sound (honest : Prop) (ttl : Nat) (world : World) (leases : Text → Option Lease)
    (revision : Nat) (contents : Nat → Content) (known : Bool) : Prop where
  kept : world.link.Kept leases
  admitted : Admitted revision ttl (contents revision)
  knows : known = true → world.link.Stores (contents revision)
  told : honest → world.Told
  held : world.Held revision contents
  phase : world.phase.Sound honest ttl world.link leases world.state revision contents known

section World

variable {honest : Prop} {ttl revision : Nat} {world : World} {leases : Text → Option Lease}
  {contents : Nat → Content} {known : Bool} {batch : Batch}

variable {program : Program}

/-- A worker goes on with a program that is safe. Witness: induction over the program. -/
theorem World.Sound.proceed (kept : world.link.Kept leases)
    (admitted : Admitted revision ttl (contents revision))
    (knows : known = true → world.link.Stores (contents revision)) (told : honest → world.Told)
    (held : world.Held revision contents)
    (settled : world.link.Settled leases ttl contents revision none)
    (safe : program.Safe honest batch ttl world.state revision (contents revision) known)
    : (world.proceed batch program).Sound honest ttl leases revision contents known := by
  induction program generalizing world with
  | done => exact ⟨kept, admitted, knows, told, held, .idle safe.1 safe.2 settled⟩
  | finish => exact ⟨kept, admitted, knows, told, held, .finished safe settled⟩
  | ready next ih => exact @ih { world with opened := true } kept knows told held settled safe
  | assign state next ih =>
      refine @ih { world with state, held := world.held ++ [state] } kept knows told ?_ settled
        safe.2
      intro other listed
      rcases List.mem_append.mp listed with before | isNew
      · exact held other before
      · rw [List.mem_singleton.mp isNew]
        obtain ⟨rfl, isContent, _⟩ := safe.1
        exact ⟨le_rfl, isContent⟩
  | call request next =>
      exact ⟨kept, admitted, knows, told, held, .sending batch request next safe settled⟩
  | reportUpdates result next ih =>
      obtain ⟨reports, safe⟩ := safe
      refine @ih { world with
        results := world.results ++ batch.updates.map fun caller => (caller, result)
        reported := world.reported ++ [(batch, result)] } kept knows ?_ held settled safe
      intro isHonest entry listed done
      rcases List.mem_append.mp listed with before | isNew
      · exact told isHonest entry before done
      · rw [List.mem_singleton.mp isNew] at done ⊢
        obtain ⟨isKnown, contains⟩ := reports isHonest done
        exact ⟨_, contains, knows isKnown⟩
  | reportRenews result next ih =>
      exact @ih { world with
        results := world.results ++ batch.renews.map fun caller => (caller, result) } kept knows
        told held settled safe

variable {state : RegistrationState} {phase : Phase}

/-- What happens between the calls and the server leaves the worker where it is. -/
theorem Phase.Sound.link {link next : Link} {leases' : Text → Option Lease}
    (sound : phase.Sound honest ttl link leases state revision contents known)
    (settles : ∀ {level aside}, link.Settled leases ttl contents level aside
      → next.Settled leases' ttl contents level aside)
    (flight : ∀ entry ∈ next.flight, entry ∈ link.flight)
    (accepted : ∀ call, next.Accepted call ↔ link.Accepted call)
    (stores : ∀ content, link.Stores content → next.Stores content)
    : phase.Sound honest ttl next leases' state revision contents known := by
  cases sound with
  | idle isAt sure settled => exact .idle isAt sure (settles settled)
  | finished isAt settled => exact .finished isAt (settles settled)
  | sending batch request next safe settled => exact .sending batch request next safe (settles settled)
  | leaving batch next call isAt safe settled =>
      exact .leaving batch next call isAt safe (settles settled)
  | keeping batch request next call isAt keeps safe settled own stored =>
      exact .keeping batch request next call isAt keeps safe (settles settled)
        (fun entry listed => own entry (flight entry listed))
        (fun isAccepted => stores _ (stored ((accepted call).mp isAccepted)))
  | moving batch request next call isAt admitted about safe settled own stored behind =>
      exact .moving batch request next call isAt admitted about safe (settles settled)
        (fun entry listed => own entry (flight entry listed))
        (fun isAccepted => stores _ (stored ((accepted call).mp isAccepted)))
        (fun open_ => settles (behind fun isAccepted => open_ ((accepted call).mpr isAccepted)))

variable {call : Nat} {request : Request} {now : Time} {change : Change}

theorem Link.Ran.accepted_iff {link : Link} {other : Nat} {after : Text → Option Lease}
    (ran : link.Ran leases call request now change after)
    : (link.execute call request now).Accepted other
      ↔ link.Accepted other ∨ (other = call ∧ ∃ revision timestamp,
        change.reply = .ok revision timestamp) := by
  simp only [Link.Accepted, ran.replies, List.mem_append, List.mem_singleton, Prod.mk.injEq]
  constructor
  · rintro ⟨revision, timestamp, known | ⟨isCall, isReply⟩⟩
    · exact .inl ⟨revision, timestamp, known⟩
    · exact .inr ⟨isCall, revision, timestamp, isReply.symm⟩
  · rintro (⟨revision, timestamp, known⟩ | ⟨isCall, revision, timestamp, isReply⟩)
    · exact ⟨revision, timestamp, .inl known⟩
    · exact ⟨revision, timestamp, .inr ⟨isCall, isReply.symm⟩⟩

/-- The server may run a call at any time, also one that the worker has given up. -/
theorem Phase.Sound.execute {link : Link}
    (sound : phase.Sound honest ttl link leases state revision contents known)
    (listed : (call, request) ∈ link.flight) {after : Text → Option Lease}
    (ran : link.Ran leases call request now change after)
    : phase.Sound honest ttl (link.execute call request now) after state revision contents
        known := by
  have left (entry : Nat × Request) (inFlight : entry ∈ (link.execute call request now).flight)
      : entry ∈ link.flight := (mem_drop.mp inFlight).1
  have settles {level : Nat} (settled : link.Settled leases ttl contents level none)
      : (link.execute call request now).Settled after ttl contents level none :=
    settled.execute ran (settled.flight _ listed nofun)
  cases sound with
  | idle isAt sure settled => exact .idle isAt sure (settles settled)
  | finished isAt settled => exact .finished isAt (settles settled)
  | sending batch request next safe settled => exact .sending batch request next safe (settles settled)
  | leaving batch next call isAt safe settled =>
      exact .leaving batch next call isAt safe (settles settled)
  | keeping batch asked next awaited isAt keeps safe settled own stores =>
      refine .keeping batch asked next awaited isAt keeps safe (settles settled)
        (fun entry inFlight => own entry (left entry inFlight)) fun accepted => ?_
      rcases ran.accepted_iff.mp accepted with before | ⟨rfl, number, time, isOk⟩
      · exact (stores before).execute call request now
      · have isAsked : request = asked := own _ listed rfl
        refine ran.stores (settles settled) isOk ?_
        rw [isAsked]
        cases keeps <;> rfl
  | moving batch asked next awaited isAt admitted about safe settled own stores behind =>
      refine .moving batch asked next awaited isAt admitted about safe (settles settled)
        (fun entry inFlight => own entry (left entry inFlight)) (fun accepted => ?_)
        fun open_ => ?_
      · rcases ran.accepted_iff.mp accepted with before | ⟨rfl, number, time, isOk⟩
        · exact (stores before).execute call request now
        · have isAsked : request = asked := own _ listed rfl
          exact ran.stores (settles settled) isOk (isAsked ▸ about)
      · have back := behind fun before => open_ (ran.accepted_iff.mpr (.inl before))
        by_cases same : call = awaited
        · subst same
          cases isReply : change.reply with
          | ok number time =>
              exact absurd (ran.accepted_iff.mpr (.inr ⟨rfl, number, time, isReply⟩)) open_
          | error status field number =>
              have refused := back.refuse ran isReply
              exact ⟨fun entry inFlight _ => refused.flight entry inFlight nofun, refused.record,
                fun sent isSent _ => refused.sent sent isSent nofun⟩
        · exact back.execute ran (back.flight _ listed fun isSome => same (Option.some.inj isSome))

theorem World.Told.mono {next : World} (told : world.Told) (reported : next.reported = world.reported)
    (stores : ∀ content, world.link.Stores content → next.link.Stores content)
    : next.Told := by
  intro entry listed done
  rw [reported] at listed
  obtain ⟨content, contains, stored⟩ := told entry listed done
  exact ⟨content, contains, stores content stored⟩

/-- A refused call leaves nothing of itself. -/
theorem Link.Settled.unset {link : Link} {level : Nat}
    (settled : link.Settled leases ttl contents level (some call)) (numbered : link.Numbered)
    (refused : link.Refused call)
    : link.Settled leases ttl contents level none where
  flight entry listed _ := by
    refine settled.flight entry listed fun same => ?_
    obtain ⟨status, field, number, isRefused⟩ := refused
    exact numbered.answered _ isRefused (Option.some.inj same ▸ List.mem_map_of_mem listed)
  record := settled.record
  sent sent isSent _ := by
    by_cases same : sent.call = call
    · exact .inr (same ▸ refused)
    · exact settled.sent sent isSent fun isSome => same (Option.some.inj isSome)

variable {reply : Reply}

/-- A reply that is parsed to a success is one. -/
theorem isOk_parseRegistrationReply (isOk : (parseRegistrationReply reply).isOk = true)
    : ∃ number time, reply = .ok number time := by
  cases reply with
  | ok number time => exact ⟨number, time, rfl⟩
  | error status field number =>
      rw [parseRegistrationReply] at isOk
      split at isOk <;> cases isOk

/-- What is certain to have failed was refused. -/
theorem certain_parseRegistrationReply (isCertain : certain (parseRegistrationReply reply) = true)
    : ∃ status field number, reply = .error status field number := by
  cases reply with
  | error status field number => exact ⟨status, field, number, rfl⟩
  | ok number time =>
      rw [parseRegistrationReply] at isCertain
      split at isCertain
      · cases isCertain
      split at isCertain
      · cases isCertain
      · cases isCertain

def World.Owned (honest : Prop) (ttl : Nat) (world : World) : Prop :=
  ∃ leases revision contents known, world.Sound honest ttl leases revision contents known

variable {after before : Content}

/-- A request of the next revision has its content. -/
theorem Request.Moves.content (isAt : state.At ttl revision before)
    (moves : request.Moves ttl revision before after)
    : request.content state = some (revision + 1, after) := by
  obtain ⟨_, rfl, _⟩ := isAt
  cases moves with
  | register => rfl
  | update version data => rfl

theorem Request.Moves.about (moves : request.Moves ttl revision before after)
    : request.about = some (revision + 1) := by
  cases moves <;> rfl

theorem Request.Moves.within (admitted : Admitted (revision + 1) ttl after)
    (moves : request.Moves ttl revision (contents revision) after)
    : request.Within ttl (Function.update contents (revision + 1) after) (revision + 1) := by
  have same : Function.update contents (revision + 1) after (revision + 1) = after :=
    Function.update_self ..
  have old : Function.update contents (revision + 1) after revision = contents revision :=
    Function.update_of_ne (Nat.ne_of_lt (Nat.lt_succ_self _)) ..
  cases moves with
  | register =>
      have within := @Request.Within.register ttl
        (Function.update contents (revision + 1) after) (revision + 1) (revision + 1) le_rfl
        (by rwa [same])
      rwa [same] at within
  | update version data numbered plain =>
      exact .update revision version data le_rfl admitted.revision.2 (by rw [same, old]) numbered
        plain

theorem Request.Keeps.within (admitted : Admitted revision ttl (contents revision))
    (keeps : request.Keeps ttl revision (contents revision))
    : request.Within ttl contents revision := by
  cases keeps with
  | register => exact .register revision le_rfl admitted
  | renew => exact .renew revision admitted.revision

variable {next : Except Failure RegistrationReply → Program}

theorem World.Sound.send (sound : world.Sound honest ttl leases revision contents known)
    (busy : world.phase = .busy batch request next none)
    : World.Owned honest ttl {
        world with
        link := world.link.send request world.state
        phase := .busy batch request next (some world.link.calls) } := by
  obtain ⟨kept, admitted, knows, told, held, phase⟩ := sound
  have fresh : ¬(world.link.send request world.state).Accepted world.link.calls := by
    rintro ⟨number, time, listed⟩
    exact Nat.lt_irrefl _ (kept.numbered.replies _ listed)
  have own (entry : Nat × Request) (listed : entry ∈ (world.link.send request world.state).flight)
      (same : entry.1 = world.link.calls) : entry.2 = request := by
    rcases List.mem_append.mp listed with known | isNew
    · exact absurd same (Nat.ne_of_lt (kept.numbered.flight entry known))
    · rw [List.mem_singleton.mp isNew]
  rw [busy] at phase
  cases phase with
  | sending _ _ _ safe settled =>
      obtain ⟨isAt, ⟨rfl, goes⟩ | ⟨keeps, goes⟩ | ⟨after, isAdmitted, moves, goes⟩⟩ := safe
      · refine ⟨leases, revision, contents, known, kept.send trivial nofun, admitted, knows, ?_,
          held, .leaving batch next _ isAt goes (settled.send (.inr ⟨.unregister, nofun⟩))⟩
        exact fun isHonest => (told isHonest).mono rfl fun _ stores => stores
      · have within := keeps.within admitted
        have agrees : ∀ content ∈ request.content world.state,
            content = (revision, contents revision) := by
          intro content isContent
          cases keeps with
          | register => exact (Option.some.inj isContent).symm
          | renew => cases isContent
        refine ⟨leases, revision, contents, known, kept.send within.valid ?_, admitted, knows, ?_,
          held, .keeping batch request next _ isAt keeps goes (settled.send (.inr ⟨within, ?_⟩)) own
            fun accepted => absurd accepted fresh⟩
        · intro content isContent sent isSent same
          rw [agrees content isContent] at same ⊢
          refine (settled.sent sent isSent nofun).imp_left fun isSettled => ?_
          rw [isSettled.2, same]
        · exact fun isHonest => (told isHonest).mono rfl fun _ stores => stores
        · intro content isContent
          rw [agrees content isContent]
          exact ⟨le_rfl, rfl⟩
      · have within := moves.within isAdmitted
        have content := moves.content isAt
        have new : Function.update contents (revision + 1) after (revision + 1) = after :=
          Function.update_self ..
        have old (number : Nat) (low : number ≤ revision)
            : Function.update contents (revision + 1) after number = contents number :=
          Function.update_of_ne (by omega) ..
        refine ⟨leases, revision, Function.update contents (revision + 1) after, known,
          kept.send within.valid ?_, by rwa [old revision le_rfl], by rwa [old revision le_rfl], ?_, ?_,
          .moving batch request next _ (by rwa [old revision le_rfl]) (by rwa [new]) moves.about
            (by rwa [old revision le_rfl, new])
            ((settled.mono (Nat.le_succ _) old).send (.inr ⟨within, ?_⟩)) own
            (fun accepted => absurd accepted fresh)
            fun _ => (settled.mono le_rfl old).send (.inl rfl)⟩
        · intro sentContent isContent sent isSent same
          rw [content] at isContent
          cases isContent
          refine (settled.sent sent isSent nofun).imp_left fun isSettled => ?_
          have := isSettled.1
          omega
        · exact fun isHonest => (told isHonest).mono rfl fun _ stores => stores
        · intro state listed
          obtain ⟨low, isContent⟩ := held state listed
          exact ⟨low, isContent.trans (old _ low).symm⟩
        · intro sentContent isContent
          rw [content] at isContent
          cases isContent
          exact ⟨le_rfl, new.symm⟩

/-- A call that could not be sent has certainly failed. -/
theorem World.Sound.unsent (sound : world.Sound honest ttl leases revision contents known)
    (busy : world.phase = .busy batch request next none) {failure : Failure}
    (isCertain : uncertainRegistrationOutcome failure = false)
    : World.Owned honest ttl (world.proceed batch (next (.error failure))) := by
  obtain ⟨kept, admitted, knows, told, held, phase⟩ := sound
  rw [busy] at phase
  cases phase with
  | sending _ _ _ safe settled =>
      refine ⟨leases, revision, contents, known, .proceed kept admitted knows told held settled ?_⟩
      obtain ⟨isAt, ⟨rfl, goes⟩ | ⟨keeps, goes⟩ | ⟨after, isAdmitted, moves, goes⟩⟩ := safe
      · exact goes _
      · have safe := goes (.error failure)
        rwa [show (Except.error failure : Except Failure RegistrationReply).isOk = false from rfl,
          Bool.or_false] at safe
      · have safe := goes (.error failure)
        rwa [if_pos (show certain (.error failure) = true by simp [certain, isCertain])] at safe

/-- The worker goes on with the result of its call. -/
theorem World.Sound.resume (sound : world.Sound honest ttl leases revision contents known)
    (busy : world.phase = .busy batch request next (some call))
    {result : Except Failure RegistrationReply}
    (accepted : result.isOk = true → world.link.Accepted call)
    (refused : certain result = true → world.link.Refused call)
    : World.Owned honest ttl (world.proceed batch (next result)) := by
  obtain ⟨kept, admitted, knows, told, held, phase⟩ := sound
  rw [busy] at phase
  cases phase with
  | leaving _ _ _ isAt safe settled =>
      exact ⟨leases, revision, contents, known, .proceed kept admitted knows told held settled
        (safe result)⟩
  | keeping _ _ _ _ isAt keeps safe settled own stores =>
      refine ⟨leases, revision, contents, known || result.isOk,
        .proceed kept admitted (fun isKnown => ?_) told held settled (safe result)⟩
      rcases Bool.or_eq_true_iff.mp isKnown with before | isOk
      · exact knows before
      · exact stores (accepted isOk)
  | moving _ _ _ _ isAt isAdmitted about safe settled own stores behind =>
      have goes := safe result
      by_cases failed : certain result = true
      · rw [if_pos failed] at goes
        have isRefused := refused failed
        have open_ : ¬world.link.Accepted call := fun isAccepted =>
          kept.numbered.not_refused isAccepted isRefused
        exact ⟨leases, revision, contents, known,
          .proceed kept admitted knows told held ((behind open_).unset kept.numbered isRefused)
            goes⟩
      · rw [if_neg failed] at goes
        exact ⟨leases, revision + 1, contents, result.isOk,
          .proceed kept isAdmitted (fun isOk => stores (accepted isOk)) told
            (fun state listed => (held state listed).imp_left Nat.le_succ_of_le) settled goes⟩

/-- What the worker and the calls do not read may change. -/
theorem World.Owned.congr {next : World} (owned : world.Owned honest ttl)
    (link : next.link = world.link) (phase : next.phase = world.phase)
    (state : next.state = world.state) (held : next.held = world.held)
    (reported : next.reported = world.reported)
    : next.Owned honest ttl := by
  obtain ⟨leases, revision, contents, known, sound⟩ := owned
  refine ⟨leases, revision, contents, known, link ▸ sound.kept, sound.admitted, link ▸ sound.knows,
    fun isHonest => (sound.told isHonest).mono reported fun _ stores => link ▸ stores, ?_, ?_⟩
  · rw [World.Held, held]
    exact sound.held
  rw [link, phase, state]
  exact sound.phase

/-- An idle worker starts a program. -/
theorem World.Owned.start (owned : world.Owned honest ttl) (idle : world.phase = .idle)
    (safe : ∀ revision content known, world.state.At ttl revision content
      → (world.state.uncertain = false → known = true)
      → program.Safe honest batch ttl world.state revision content known)
    : (world.proceed batch program).Owned honest ttl := by
  obtain ⟨leases, revision, contents, known, kept, admitted, knows, told, held, phase⟩ := owned
  rw [idle] at phase
  cases phase with
  | idle isAt sure settled =>
      exact ⟨leases, revision, contents, known,
        .proceed kept admitted knows told held settled (safe _ _ _ isAt sure)⟩

theorem World.Owned.handle (owned : world.Owned honest ttl) (idle : world.phase = .idle)
    (limits : ZoneConfig)
    (clear : honest → world.mailbox.pendingUpdates ≠ []
      → world.state.Has world.mailbox.pendingUpdate → world.state.uncertain = false)
    : (world.handle limits).Owned honest ttl := by
  have emptied : World.Owned honest ttl { world with mailbox := world.mailbox.emptied } :=
    owned.congr rfl rfl rfl rfl rfl
  refine emptied.start idle fun revision content known isAt sure => ?_
  exact handleBatch_safe isAt sure clear

theorem World.Owned.finish (owned : world.Owned honest ttl) (idle : world.phase = .idle)
    : world.finish.Owned honest ttl := by
  have closed : World.Owned honest ttl
      { world with mailbox := { world.mailbox with closed := true } } := owned.congr rfl rfl rfl rfl rfl
  exact closed.start idle fun _ _ _ isAt _ => finishState_safe isAt

theorem World.Owned.shutdown (owned : world.Owned honest ttl) (idle : world.phase = .idle)
    : world.shutdown.Owned honest ttl := by
  refine World.Owned.finish ?_ idle
  obtain ⟨leases, revision, contents, known, kept, admitted, knows, told, held, phase⟩ := owned
  refine ⟨leases, revision, contents, known, kept, admitted, knows, ?_, held, phase⟩
  intro isHonest entry listed done
  rcases List.mem_append.mp listed with before | isNew
  · exact told isHonest entry before done
  · rw [List.mem_singleton.mp isNew] at done
    cases done

/-- The worker would report a batch as done that it only believes to be stored. -/
structure World.Forgets (world : World) (label : Label) : Prop where
  idle : world.phase = .idle
  takes : ∃ limits, (label = .wake limits ∧ world.draining = false ∧ world.mailbox.wake = true)
    ∨ (label = .leave limits ∧ world.draining = true)
  updates : world.mailbox.pendingUpdates ≠ []
  uncertain : world.state.uncertain = true
  has : world.state.Has world.mailbox.pendingUpdate

theorem World.Owned.step (owned : world.Owned honest ttl) (label : Label)
    (clear : honest → ¬world.Forgets label)
    : (world.step label).Owned honest ttl := by
  cases label with
  | update caller update limits =>
      rw [World.step]
      split
      · exact owned.congr rfl rfl rfl rfl rfl
      · exact owned
  | renew caller =>
      rw [World.step]
      split
      · exact owned.congr rfl rfl rfl rfl rfl
      · exact owned
  | signal => exact owned.congr rfl rfl rfl rfl rfl
  | close => exact owned.congr rfl rfl rfl rfl rfl
  | wake limits =>
      rw [World.step]
      split
      next idle =>
        split
        · exact owned
        rename_i awake
        simp only [not_or, Bool.not_eq_true, Bool.not_eq_false] at awake
        have woken : World.Owned honest ttl
            { world with mailbox := { world.mailbox with wake := false } } :=
          owned.congr rfl rfl rfl rfl rfl
        split
        · refine woken.handle idle limits fun isHonest updates has => ?_
          cases doubt : world.state.uncertain with
          | false => rfl
          | true =>
              exact absurd ⟨idle, ⟨limits, .inl ⟨rfl, awake.1, awake.2⟩⟩, updates, doubt, has⟩
                (clear isHonest)
        · exact woken
      · exact owned
  | timer =>
      rw [World.step]
      split
      next idle =>
        split
        · exact owned
        · exact owned.start idle fun _ _ _ isAt sure => automaticRenew_safe isAt sure
      · exact owned
  | drain =>
      rw [World.step]
      split
      next idle =>
        split
        · exact owned.congr rfl rfl rfl rfl rfl
        · exact owned
      · exact owned
  | leave limits =>
      rw [World.step]
      split
      next idle =>
        split
        · exact owned
        rename_i draining
        split
        · refine owned.handle idle limits fun isHonest updates has => ?_
          cases doubt : world.state.uncertain with
          | false => rfl
          | true =>
              exact absurd ⟨idle, ⟨limits, .inr ⟨rfl, by simpa using draining⟩⟩, updates, doubt,
                has⟩ (clear isHonest)
        · exact owned.finish idle
      · exact owned
  | shutdown =>
      rw [World.step]
      split
      next idle =>
        split
        · exact owned
        · exact owned.shutdown idle
      · exact owned
  | send =>
      rw [World.step]
      split
      next batch request next busy =>
        obtain ⟨leases, revision, contents, known, sound⟩ := owned
        exact sound.send busy
      · exact owned
  | unsent failure =>
      rw [World.step]
      split
      next batch request next busy =>
        split
        next code =>
          obtain ⟨leases, revision, contents, known, sound⟩ := owned
          refine sound.unsent busy ?_
          rcases code with isClosed | isDeadline | isUnavailable
          · simp [uncertainRegistrationOutcome, isClosed]
          · simp [uncertainRegistrationOutcome, isDeadline]
          · simp [uncertainRegistrationOutcome, isUnavailable]
        · exact owned
      · exact owned
  | answer =>
      rw [World.step]
      split
      next batch request next call busy =>
        split
        next reply found =>
          obtain ⟨leases, revision, contents, known, sound⟩ := owned
          have isCall : reply.1 = call := by simpa using List.find?_some found
          have listed : (call, reply.2) ∈ world.link.replies := by
            rw [← isCall]
            exact List.mem_of_find?_eq_some found
          refine sound.resume busy (fun isOk => ?_) fun failed => ?_
          · obtain ⟨number, time, isReply⟩ := isOk_parseRegistrationReply isOk
            exact ⟨number, time, isReply ▸ listed⟩
          · obtain ⟨status, field, number, isReply⟩ := certain_parseRegistrationReply failed
            exact ⟨status, field, number, isReply ▸ listed⟩
        · exact owned
      · exact owned
  | lose =>
      rw [World.step]
      split
      next batch request next call busy =>
        obtain ⟨leases, revision, contents, known, sound⟩ := owned
        exact sound.resume busy (by intros; contradiction) (by intros; contradiction)
      · exact owned
  | execute call now =>
      rw [World.step]
      split
      next request found =>
        obtain ⟨leases, revision, contents, known, sound⟩ := owned
        have isCall := List.find?_some found
        simp only [decide_eq_true_eq] at isCall
        subst isCall
        have listed := List.mem_of_find?_eq_some found
        obtain ⟨change, after, ran⟩ := sound.kept.execute listed now
        exact ⟨after, revision, contents, known, ran.kept, sound.admitted,
          fun isKnown => (sound.knows isKnown).execute _ request now,
          fun isHonest => (sound.told isHonest).mono rfl fun _ stores => stores.execute _ request now,
          sound.held, sound.phase.execute listed ran⟩
      · exact owned
  | drop call =>
      obtain ⟨leases, revision, contents, known, sound⟩ := owned
      exact ⟨leases, revision, contents, known, sound.kept.drop call, sound.admitted, sound.knows,
        fun isHonest => (sound.told isHonest).mono rfl fun _ stores => stores,
        sound.held, sound.phase.link (fun settled => settled.drop call) (fun entry listed => (mem_drop.mp listed).1)
          (fun _ => Iff.rfl) fun _ stores => stores⟩
  | pass now =>
      obtain ⟨leases, revision, contents, known, sound⟩ := owned
      exact ⟨_, revision, contents, known, sound.kept.pass now, sound.admitted, sound.knows,
        fun isHonest => (sound.told isHonest).mono rfl fun _ stores => stores,
        sound.held, sound.phase.link (fun settled => settled.pass now) (fun _ listed => listed)
          (fun _ => Iff.rfl) fun _ stores => stores⟩

end World

end Sdk.Registration
