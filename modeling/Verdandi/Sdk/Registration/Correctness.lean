import Verdandi.Sdk.Registration.Revisions

/-! What can be relied on in every run of an owner. -/

namespace Sdk.Registration

open Support
open Support.Redis (Text)
open Sdk.Catalog (Time)

-- Runs

section Runs

variable {uuid : Text} {ttl : Nat} {content : Content} {limits : ZoneConfig}

theorem registerWithUUID_owned (honest : Prop)
    (valid : validateRecord uuid 1 ttl content limits = none)
    : (registerWithUUID uuid ttl content).Owned honest ttl := by
  refine ⟨fun _ => none, 1, fun _ => content, false, ?_⟩
  refine .proceed ?_ (validateRecord_admitted valid) nofun (fun _ _ => nofun) ?_ ?_ ?_
  · exact ⟨represents_empty, ⟨nofun, .nil, nofun, nofun, .nil, nofun⟩, nofun, nofun, .nil, nofun, nofun⟩
  · intro state listed
    rw [List.mem_singleton.mp listed]
    exact ⟨le_rfl, rfl⟩
  · exact ⟨nofun, nofun, nofun⟩
  · exact start_safe ⟨rfl, rfl, rfl⟩

theorem World.Owned.run {honest : Prop} {world : World} (owned : world.Owned honest ttl)
    {labels : List Label}
    (clear : honest → ∀ before label after, labels = before ++ label :: after
      → ¬(world.run before).Forgets label)
    : (world.run labels).Owned honest ttl := by
  induction labels using List.reverseRecOn with
  | nil => exact owned
  | append_singleton before last ih =>
      rw [World.run, List.foldl_append]
      refine (ih fun isHonest first label after isSplit => ?_).step last fun isHonest => ?_
      · exact clear isHonest first label (after ++ [last]) (by simp [isSplit])
      · exact clear isHonest before last [] rfl

end Runs

-- Revisions

structure World.Names (world : World) : Prop where
  sent : world.link.sent.Pairwise fun first second =>
    first.revision = second.revision → first.content = second.content ∨ world.link.Refused first.call
  stored : ∀ record, world.link.store.records.get? world.link.uuid = some record
    → ∃ sent ∈ world.link.sent, world.link.Accepted sent.call
      ∧ world.link.store.revision world.link.uuid = some sent.revision
      ∧ sent.content.In record.value
      ∧ ∀ state ∈ world.held, state.revision = sent.revision → state.content = sent.content
  late : ∀ call now revision revision',
    (world.link.store.expire now.milliseconds).revision world.link.uuid = some revision
    → (world.step (.execute call now)).link.store.revision world.link.uuid = some revision'
    → revision ≤ revision'

variable {honest : Prop} {ttl revision : Nat} {link : Link} {leases : Text → Option Lease}
variable {contents : Nat → Content} {known : Bool}

theorem Phase.Sound.settled {state : RegistrationState} {phase : Phase}
    (sound : phase.Sound honest ttl link leases state revision contents known)
    : ∃ level, link.Settled leases ttl contents level none := by
  cases sound with
  | idle isAt sure settled => exact ⟨_, settled⟩
  | finished isAt settled => exact ⟨_, settled⟩
  | sending batch request next safe settled => exact ⟨_, settled⟩
  | leaving batch next call isAt safe settled => exact ⟨_, settled⟩
  | keeping batch request next call isAt keeps safe settled own stores => exact ⟨_, settled⟩
  | moving batch request next call isAt admitted about safe settled own stores behind =>
      exact ⟨_, settled⟩

variable {world : World}

/-- The record has the content that was sent under its revision. -/
theorem World.Sound.stored (sound : world.Sound honest ttl leases revision contents known)
    {record : Leased (Assoc Text Text)}
    (found : world.link.store.records.get? world.link.uuid = some record)
    : ∃ sent ∈ world.link.sent, world.link.Accepted sent.call
      ∧ world.link.store.revision world.link.uuid = some sent.revision
      ∧ sent.content.In record.value
      ∧ ∀ state ∈ world.held, state.revision = sent.revision → state.content = sent.content := by
  have related := sound.kept.represents.record world.link.uuid
  have isRevision := sound.kept.represents.revision world.link.uuid
  cases isLease : leases world.link.uuid with
  | none =>
      rw [isLease, found] at related
      cases related
  | some lease =>
      rw [isLease, found] at related
      obtain ⟨level, settled⟩ := sound.phase.settled
      obtain ⟨sent, listed, sameRevision, accepted⟩ := sound.kept.accepted lease isLease
      have isContent : sent.content = contents sent.revision := by
        rcases settled.sent sent listed nofun with ⟨_, is⟩ | refused
        · exact is
        · exact absurd refused (sound.kept.numbered.not_refused accepted)
      have is := (settled.record lease isLease).2
      rw [← sameRevision, ← isContent] at is
      rw [isLease, Option.map_some, ← sameRevision] at isRevision
      cases related with
      | some shows_ =>
          refine ⟨sent, listed, accepted, isRevision, shows_.content is, ?_⟩
          intro state isHeld same
          rw [(sound.held state isHeld).2, same, isContent]

/-- A call never puts an older revision in the place of a newer one. -/
theorem Link.Kept.late (kept : link.Kept leases) {call : Nat} {request : Request}
    (listed : (call, request) ∈ link.flight) (now : Time) {revision' : Nat}
    (before : (link.store.expire now.milliseconds).revision link.uuid = some revision)
    (after : (link.execute call request now).store.revision link.uuid = some revision')
    : revision ≤ revision' := by
  have expired := kept.represents.expire now.milliseconds
  have refines := expired.refines (kept.valid _ listed) now link.uuid
  have left := refines.represents
  have follows := refines.follows expired (kept.valid _ listed) (request.changes now link.uuid _)
  have isAfter : (request.run (link.store.expire now.milliseconds) now link.uuid).store.revision
      link.uuid = some revision' := after
  have time {store : Store} {leases : Text → Option Lease} (represents : Represents store leases)
      {number : Nat} (isSome : store.revision link.uuid = some number)
      : ∃ time, store.timestamp link.uuid = some time := by
    rw [represents.revision, Option.map_eq_some_iff] at isSome
    obtain ⟨lease, isLease, _⟩ := isSome
    exact ⟨lease.timestamp, by rw [represents.timestamp, isLease]; rfl⟩
  obtain ⟨timestamp, isTimestamp⟩ := time expired before
  obtain ⟨timestamp', isTimestamp'⟩ := time left isAfter
  exact (follows.later link.uuid _ _ _ _ before isTimestamp isAfter isTimestamp').1

theorem World.Owned.names (owned : world.Owned honest ttl)
    : world.Names := by
  obtain ⟨leases, revision, contents, known, sound⟩ := owned
  refine ⟨sound.kept.agreed, fun record found => sound.stored found, ?_⟩
  intro call now old new before after
  rw [World.step] at after
  split at after
  next request found =>
    have isCall := List.find?_some found
    simp only [decide_eq_true_eq] at isCall
    subst isCall
    exact sound.kept.late (List.mem_of_find?_eq_some found) now before after
  rename_i missing
  have expired := sound.kept.represents.expire now.milliseconds
  rw [expired.revision] at before
  rw [sound.kept.represents.revision] at after
  obtain ⟨lease, isLease, rfl⟩ := Option.map_eq_some_iff.mp before
  rw [leasesAt_some isLease, Option.map_some, Option.some.injEq] at after
  exact after.le

/-- In every run of an owner whose calls are lost, late or unanswered, contents of one revision are the
same unless Redis has refused the first of them.
-/
theorem revision_names_content {uuid : Text} {ttl : Nat} {content : Content} {limits : ZoneConfig}
    (valid : validateRecord uuid 1 ttl content limits = none) (labels : List Label)
    : ((registerWithUUID uuid ttl content).run labels).Names :=
  ((registerWithUUID_owned False valid).run nofun).names

/-- A registration, and an update that reaches Redis when the record has expired. -/
def sampleRefusal : List Label :=
  [.send, .execute 0 ⟨5, 0⟩, .answer,
    .update 1 { data := (sampleContent (ascii "2")).data } protocolZoneConfig, .signal, .wake protocolZoneConfig,
    .send, .execute 1 ⟨100000, 0⟩, .answer, .unsent { code := .deadline },
    .update 2 { data := (sampleContent (ascii "3")).data } protocolZoneConfig, .signal, .wake protocolZoneConfig,
    .send]

theorem revision_names_content_sample
    : ((registerWithUUID (ascii "a") 9000 (sampleContent (ascii "1"))).run sampleRefusal).Names :=
  @revision_names_content (ascii "a") 9000 (sampleContent (ascii "1")) protocolZoneConfig
    (by decide) sampleRefusal

/-- The next update is sent under the revision of an update that was refused. -/
theorem refused_revision_is_used_again
    : ¬((registerWithUUID (ascii "a") 9000 (sampleContent (ascii "1"))).run
          sampleRefusal).link.sent.Pairwise
        fun first second => first.revision = second.revision → first.content = second.content := by
  intro agreed
  have loads : (((registerWithUUID (ascii "a") 9000 (sampleContent (ascii "1"))).run
      sampleRefusal).link.sent.map fun sent =>
        (sent.revision, sent.content.data.get? (ascii "load")))
      = [(1, some (ascii "1")), (2, some (ascii "2")), (2, some (ascii "3"))] := by
    decide
  have alike : (((registerWithUUID (ascii "a") 9000 (sampleContent (ascii "1"))).run
      sampleRefusal).link.sent.map fun sent =>
        (sent.revision, sent.content.data.get? (ascii "load"))).Pairwise
      fun first second => first.1 = second.1 → first.2 = second.2 :=
    List.pairwise_map.mpr <| agreed.imp fun agree same => by rw [agree same]
  rw [loads] at alike
  exact absurd alike (by decide)

end Sdk.Registration
