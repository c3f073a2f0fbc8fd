import Verdandi.Sdk.Registration.Lease

/-! Records and the registry stay in step over any requests and any passing of time. -/

namespace Sdk.Registration

open Support
open Support.Redis (Text)
open Support.Redis.Database (setAll)
open Sdk.Catalog (Time)

/-- What happens to a store: time comes to where entries are dropped, or a script runs. -/
inductive Step where
  | pass (now : Nat)
  | call (uuid : Text) (request : Request) (now : Time)

def Step.Valid : Step → Prop
  | .pass _ => True
  | .call _ request _ => request.Valid

namespace Store

def step (store : Store) : Step → Store
  | .pass now => store.expire now
  | .call uuid request now => (request.run (store.expire now.milliseconds) now uuid).store

def run (steps : List Step) : Store := steps.foldl step {}

def number (store : Store) (uuid field : Text) : Option Nat :=
  (store.hget uuid field).map Decimal.value

def revision (store : Store) (uuid : Text) : Option Nat := store.number uuid (ascii "@revision")

def timestamp (store : Store) (uuid : Text) : Option Nat := store.number uuid (ascii "@timestamp")

end Store

structure Consistent (store : Store) : Prop where
  listed : ∀ uuid, (store.records.get? uuid).isSome ↔ (store.registry.get? uuid).isSome
  leased : ∀ uuid record, store.records.get? uuid = some record → ∃ revision timestamp ttl,
      record.value.get? (ascii "@revision") = some (Decimal.text revision)
        ∧ record.value.get? (ascii "@timestamp") = some (Decimal.text timestamp)
        ∧ record.value.get? (ascii "@ttl") = some (Decimal.text ttl)
        ∧ timestamp + ttl ≤ 2 ^ 46 - 1
        ∧ record.deadline = some (timestamp + ttl)
        ∧ store.registry.get? uuid
          = some { value := Decimal.text revision, deadline := some (timestamp + ttl) }

def Event.fields : Event → List (Text × Text)
  | .register uuid revision timestamp ttl version fields =>
      [(ascii "@uuid", uuid), (ascii "@revision", Decimal.text revision),
        (ascii "@timestamp", Decimal.text timestamp), (ascii "@ttl", Decimal.text ttl),
        (ascii "@version", Decimal.text version)] ++ fields
  | .update _ revision timestamp version fields =>
      [(ascii "@revision", Decimal.text revision), (ascii "@timestamp", Decimal.text timestamp)]
        ++ (version.map fun number => (ascii "@version", Decimal.text number)).toList ++ fields
  | .renew _ revision timestamp =>
      [(ascii "@revision", Decimal.text revision), (ascii "@timestamp", Decimal.text timestamp)]
  | .unregister _ => []

def Event.uuid : Event → Text
  | .register uuid _ _ _ _ _ | .update uuid _ _ _ _ | .renew uuid _ _ | .unregister uuid => uuid

/-- What an event says is what was stored over the record before. -/
def Event.Carries (event : Event) (before after : Store) : Prop :=
  match event with
  | .register uuid _ _ _ _ _ => ∃ record, after.records.get? uuid = some record
      ∧ record.value.get? = (setAll ∅ event.fields).get?
  | .update uuid _ _ _ _ | .renew uuid _ _ => ∃ old record,
      before.records.get? uuid = some old ∧ after.records.get? uuid = some record
        ∧ record.value.get? = (setAll old.value event.fields).get?
  | .unregister uuid => after.records.get? uuid = none

def Request.Writes (request : Request) (store : Store) (uuid : Text) : Prop :=
  match request with
  | .register _ _ _ | .renew _ => True
  | .update revision _ _ => store.revision uuid ≠ some revision
  | .unregister => (store.records.get? uuid).isSome

structure Follows (uuid : Text) (request : Request) (before : Store) (outcome : Outcome)
    : Prop where
  sound : ∀ field revision, outcome.reply ≠ .error .corrupt field revision
  refused : ∀ status field revision, outcome.reply = .error status field revision
    → outcome.store = before ∧ outcome.event = none
  later : ∀ other revision timestamp revision' timestamp',
    before.revision other = some revision → before.timestamp other = some timestamp
      → outcome.store.revision other = some revision'
      → outcome.store.timestamp other = some timestamp'
      → revision ≤ revision' ∧ timestamp ≤ timestamp'
  updated : ∀ revision version data old, request = .update revision version data
    → before.revision uuid = some old
    → outcome.store.revision uuid = some (old + 1) ∨ outcome.store = before
  published : outcome.event.isSome
    ↔ request.Writes before uuid ∧ ∃ revision timestamp, outcome.reply = .ok revision timestamp
  silent : outcome.event = none → outcome.store = before
  carries : ∀ event, outcome.event = some event
    → event.uuid = uuid ∧ event.Carries before outcome.store

-- What requests do to a lease

inductive Changes (uuid : Text) : Request → Option Lease → Change → Prop where
  | refused {request before} (status field revision) (sound : status ≠ Status.corrupt)
    : Changes uuid request before
        { lease := before, reply := .error status field revision }
  | known {lease} (version data)
    : Changes uuid (.update lease.revision version data) (some lease)
        { lease := some lease, reply := .ok lease.revision lease.timestamp }
  | registered {before} (revision ttl content) (timestamp : Nat)
    (newer : ∀ lease ∈ before, Lease.revision lease ≤ revision)
    (later : ∀ lease ∈ before, Lease.timestamp lease ≤ timestamp)
    : Changes uuid (.register revision ttl content) before {
        lease := some {
          revision, timestamp, ttl
          version := content.version
          fields := setAll ∅ content.fields }
        reply := .ok revision timestamp
        event := some (.register uuid revision timestamp ttl content.version content.fields) }
  | updated {lease : Lease} (version data) (timestamp : Nat) (later : lease.timestamp ≤ timestamp)
    : Changes uuid (.update (lease.revision + 1) version data) (some lease) {
        lease := some {
          lease with
          revision := lease.revision + 1
          timestamp
          version := version.getD lease.version
          fields := setAll lease.fields (sortedFields [] data) }
        reply := .ok (some (lease.revision + 1)) timestamp
        event := some (.update uuid (lease.revision + 1) timestamp version (sortedFields [] data)) }
  | renewed {lease : Lease} (timestamp : Nat) (later : lease.timestamp ≤ timestamp)
    : Changes uuid (.renew lease.revision) (some lease) {
        lease := some { lease with timestamp }
        reply := .ok lease.revision timestamp
        event := some (.renew uuid lease.revision timestamp) }
  | unregistered (lease)
    : Changes uuid .unregister (some lease)
        { lease := none, reply := .ok, event := some (.unregister uuid) }
  | vacant : Changes uuid .unregister none { lease := none, reply := .ok }

theorem Lease.take_cases (lease : Lease) (event : Event) (before : Option Lease)
    : lease.take event before = { lease := before, reply := .error .invalid (some (ascii "@ttl")) }
      ∨ lease.take event before
        = { lease := some lease, reply := .ok lease.revision lease.timestamp, event := some event } := by
  rw [Lease.take]
  split
  · exact .inl rfl
  · exact .inr rfl

theorem Request.changes (request : Request) (now : Time) (uuid : Text) (before : Option Lease)
    : Changes uuid request before (request.change now uuid before) := by
  have mismatched {request before} (revision current : Nat)
      : Changes uuid request before { lease := before, reply := mismatch revision current } := by
    rw [mismatch]
    split
    · exact .refused _ _ _ (by rintro ⟨⟩)
    · exact .refused _ _ _ (by rintro ⟨⟩)
  cases request with
  | register revision ttl content =>
      rw [Request.change]
      split
      · exact mismatched _ _
      rename_i fits
      rcases Lease.take_cases
        { revision, ttl, timestamp := changeTime now ((before.map Lease.timestamp).getD 0),
          version := content.version, fields := setAll ∅ content.fields }
        (.register uuid revision (changeTime now ((before.map Lease.timestamp).getD 0)) ttl
          content.version content.fields) before with refused | taken
      · rw [refused]
        exact .refused _ _ _ (by rintro ⟨⟩)
      · rw [taken]
        refine .registered revision ttl content _ ?_ ?_
        · intro lease held
          rw [Option.mem_def.mp held, Option.filter_some] at fits
          simpa using fits
        · intro lease held
          rw [Option.mem_def.mp held]
          exact le_changeTime now lease.timestamp
  | update revision version data =>
      cases before with
      | none => exact .refused _ _ _ (by rintro ⟨⟩)
      | some lease =>
          simp only [Request.change]
          by_cases next : revision = lease.revision + 1
          · subst next
            rw [if_pos rfl]
            rcases Lease.take_cases
              { lease with
                revision := lease.revision + 1
                timestamp := changeTime now lease.timestamp
                version := version.getD lease.version
                fields := setAll lease.fields (sortedFields [] data) }
              (.update uuid (lease.revision + 1) (changeTime now lease.timestamp) version
                (sortedFields [] data)) (some lease) with refused | taken
            · rw [refused]
              exact .refused _ _ _ (by rintro ⟨⟩)
            · rw [taken]
              exact .updated version data _ (le_changeTime now lease.timestamp)
          · rw [if_neg next]
            by_cases same : revision = lease.revision
            · subst same
              rw [if_pos rfl]
              exact .known version data
            · rw [if_neg same]
              exact mismatched _ _
  | renew revision =>
      cases before with
      | none => exact .refused _ _ _ (by rintro ⟨⟩)
      | some lease =>
          simp only [Request.change]
          by_cases same : revision = lease.revision
          · subst same
            rw [if_pos rfl]
            rcases Lease.take_cases { lease with timestamp := changeTime now lease.timestamp }
              (.renew uuid lease.revision (changeTime now lease.timestamp)) (some lease)
              with refused | taken
            · rw [refused]
              exact .refused _ _ _ (by rintro ⟨⟩)
            · rw [taken]
              exact .renewed _ (le_changeTime now lease.timestamp)
          · rw [if_neg same]
            exact mismatched _ _
  | unregister =>
      cases before with
      | none => exact .vacant
      | some lease => exact .unregistered lease

section Changes

variable {uuid : Text} {request : Request} {before : Option Lease} {change : Change}

theorem Changes.sound (changes : Changes uuid request before change) (field revision)
    : change.reply ≠ .error .corrupt field revision := by
  intro corrupt
  cases changes with
  | refused status field revision sound =>
      cases corrupt
      exact sound rfl
  | _ => cases corrupt

theorem Changes.silent {status : Status} {field revision} (changes : Changes uuid request before change)
    (isError : change.reply = .error status field revision)
    : change.event = none := by
  cases changes with
  | refused => rfl
  | known => rfl
  | vacant => rfl
  | _ => cases isError

/-- A lease that goes on never goes back. -/
theorem Changes.later (changes : Changes uuid request before change) {old next : Lease}
    (isOld : before = some old) (isNext : change.lease = some next)
    : old.revision ≤ next.revision ∧ old.timestamp ≤ next.timestamp := by
  subst isOld
  cases changes with
  | refused =>
      cases isNext
      exact ⟨Nat.le_refl _, Nat.le_refl _⟩
  | known =>
      cases isNext
      exact ⟨Nat.le_refl _, Nat.le_refl _⟩
  | registered revision ttl content timestamp newer later =>
      cases isNext
      exact ⟨newer old rfl, later old rfl⟩
  | updated version data timestamp later =>
      cases isNext
      exact ⟨Nat.le_succ _, later⟩
  | renewed timestamp later =>
      cases isNext
      exact ⟨Nat.le_refl _, later⟩
  | unregistered => cases isNext

end Changes

-- What is stored

section Stored

variable {store : Store} {leases : Text → Option Lease} {uuid : Text}

theorem Represents.revision (represents : Represents store leases) (uuid : Text)
    : store.revision uuid = (leases uuid).map Lease.revision := by
  rw [Store.revision, Store.number]
  cases held : leases uuid with
  | none => rw [represents.hget_none held]; rfl
  | some lease =>
      have found := represents.hget_mark held (lease.mem_header uuid).1
      simp only at found
      simp [found]

theorem Represents.timestamp (represents : Represents store leases) (uuid : Text)
    : store.timestamp uuid = (leases uuid).map Lease.timestamp := by
  rw [Store.timestamp, Store.number]
  cases held : leases uuid with
  | none => rw [represents.hget_none held]; rfl
  | some lease =>
      have found := represents.hget_mark held (lease.mem_header uuid).2.1
      simp only at found
      simp [found]

theorem Represents.isSome_record (represents : Represents store leases) (uuid : Text)
    : (store.records.get? uuid).isSome = (leases uuid).isSome := by
  have record := represents.record uuid
  generalize store.records.get? uuid = found at record ⊢
  generalize leases uuid = held at record ⊢
  cases record <;> rfl

theorem Represents.consistent (represents : Represents store leases) : Consistent store := by
  refine ⟨fun uuid => ?_, fun uuid record found => ?_⟩
  · rw [represents.isSome_record, represents.field, Option.isSome_map]
  · have isSome := represents.isSome_record uuid
    rw [found, Option.isSome_some] at isSome
    obtain ⟨lease, held⟩ := Option.isSome_iff_exists.mp isSome.symm
    obtain ⟨stored, isStored, shown⟩ := represents.found held
    rw [found, Option.some.injEq] at isStored
    subst isStored
    have mark {field : Text × Text} (listed : field ∈ lease.header uuid)
        : record.value.get? field.1 = some field.2 := by
      rw [shown.hash, Lease.get?_hash_mark listed]
    refine ⟨lease.revision, lease.timestamp, lease.ttl,
      mark (lease.mem_header uuid).1, mark (lease.mem_header uuid).2.1,
      mark (lease.mem_header uuid).2.2, (represents.sound uuid lease held).deadline, shown.deadline, ?_⟩
    rw [represents.field, held]
    rfl

/-- Leases end at their deadlines. -/
theorem Represents.expire (represents : Represents store leases) (now : Nat)
    : Represents (store.expire now) fun uuid =>
        (leases uuid).filter fun lease => decide (now < lease.deadline) := by
  refine ⟨fun uuid => ?_, fun uuid => ?_, fun uuid lease held => ?_⟩
  · rw [Store.expire, Expiring.get?_expire]
    cases held : leases uuid with
    | none =>
        have vacant := represents.isSome_record uuid
        rw [held, Option.isSome_none, Option.isSome_eq_false_iff, Option.isNone_iff_eq_none] at vacant
        rw [vacant]
        exact .none
    | some lease =>
        obtain ⟨record, found, shown⟩ := represents.found held
        rw [found, Option.filter_some, Option.filter_some, Leased.lasts, shown.deadline,
          Option.all_some]
        by_cases lasts : now < lease.deadline
        · rw [if_pos (decide_eq_true lasts), if_pos (decide_eq_true lasts)]
          exact .some shown
        · rw [if_neg (by simpa using lasts), if_neg (by simpa using lasts)]
          exact .none
  · rw [Store.expire, Expiring.get?_expire, represents.field]
    cases leases uuid with
    | none => rfl
    | some lease =>
        simp only [Option.map_some, Option.filter_some, Leased.lasts, Option.all_some]
        by_cases lasts : now < lease.deadline <;> simp [lasts]
  · exact represents.sound uuid lease (Option.eq_some_of_filter_eq_some held)

variable {request : Request}

/-- What a request does to the keys of a UUID. -/
theorem Represents.refines (represents : Represents store leases) (valid : request.Valid)
    (now : Time) (uuid : Text)
    : Refines store leases uuid (request.run store now uuid)
        (request.change now uuid (leases uuid)) := by
  cases request with
  | register revision ttl content => exact represents.register revision ttl content valid
  | update revision version data => exact represents.update revision version data valid
  | renew revision => exact represents.renew revision
  | unregister => exact represents.unregister

variable {outcome : Outcome} {change : Change}

/-- What is published is what was stored. -/
theorem Refines.carries (refines : Refines store leases uuid outcome change)
    (represents : Represents store leases) (valid : request.Valid)
    (changes : Changes uuid request (leases uuid) change) {event : Event}
    (published : outcome.event = some event)
    : event.uuid = uuid ∧ event.Carries store outcome.store := by
  have after := refines.represents
  rw [refines.event] at published
  generalize held : leases uuid = before at changes
  cases changes with
  | refused => cases published
  | known => cases published
  | vacant => cases published
  | registered revision ttl content timestamp newer later =>
      cases published
      obtain ⟨record, found, shown⟩ := after.found (Function.update_self ..)
      refine ⟨rfl, record, found, shown.hash.trans ?_⟩
      exact (@Lease.get?_written uuid
        { revision, ttl, timestamp, version := content.version, fields := setAll ∅ content.fields }
        content.fields (fun field => Admitted.unmarked valid) rfl).symm
  | updated version data timestamp later =>
      cases published
      obtain ⟨old, isOld, isShown⟩ := represents.found held
      obtain ⟨record, found, shown⟩ := after.found (Function.update_self ..)
      refine ⟨rfl, old, record, isOld, found, shown.hash.trans ?_⟩
      exact (Lease.get?_updated isShown.hash
        (fun field => Plain.unmarked_fields valid.2.2) _ timestamp version).symm
  | renewed timestamp later =>
      cases published
      obtain ⟨old, isOld, isShown⟩ := represents.found held
      obtain ⟨record, found, shown⟩ := after.found (Function.update_self ..)
      refine ⟨rfl, old, record, isOld, found, shown.hash.trans ?_⟩
      exact (@Lease.get?_updated uuid old.value _ isShown.hash [] nofun _ timestamp none).symm
  | unregistered lease =>
      cases published
      have vacant := after.isSome_record uuid
      rw [Function.update_self, Option.isSome_none, Option.isSome_eq_false_iff,
        Option.isNone_iff_eq_none] at vacant
      exact ⟨rfl, vacant⟩

theorem Refines.follows (refines : Refines store leases uuid outcome change)
    (represents : Represents store leases) (valid : request.Valid)
    (changes : Changes uuid request (leases uuid) change)
    : Follows uuid request store outcome := by
  have after := refines.represents
  refine ⟨?_, ?_, ?_, ?_, ?_, refines.silent,
    fun event published => refines.carries represents valid changes published⟩
  · intro field revision corrupt
    rw [refines.reply] at corrupt
    exact changes.sound field revision corrupt
  · intro status field revision isError
    rw [refines.reply] at isError
    have silent : outcome.event = none := refines.event.trans (changes.silent isError)
    exact ⟨refines.silent silent, silent⟩
  · intro other revision timestamp revision' timestamp'
    rw [represents.revision, represents.timestamp, after.revision, after.timestamp]
    simp only [Option.map_eq_some_iff]
    rintro ⟨old, isOld, rfl⟩ ⟨old', isOld', rfl⟩ ⟨next, isNext, rfl⟩ ⟨next', isNext', rfl⟩
    rw [isOld, Option.some.injEq] at isOld'
    rw [isNext, Option.some.injEq] at isNext'
    subst isOld' isNext'
    by_cases same : other = uuid
    · subst same
      rw [Function.update_self] at isNext
      exact changes.later isOld isNext
    · rw [Function.update_of_ne same, isOld, Option.some.injEq] at isNext
      subst isNext
      exact ⟨Nat.le_refl _, Nat.le_refl _⟩
  · intro revision version data old isUpdate isOld
    rw [represents.revision] at isOld
    rw [after.revision, Function.update_self]
    have silent : change.event = none → outcome.store = store := by
      rw [← refines.event]
      exact refines.silent
    generalize leases uuid = before at changes isOld
    subst isUpdate
    cases changes with
    | refused => exact .inr (silent rfl)
    | known => exact .inr (silent rfl)
    | updated version data timestamp later =>
        cases isOld
        exact .inl rfl
  · rw [refines.event, refines.reply]
    have revision := represents.revision uuid
    have isSome := represents.isSome_record uuid
    generalize leases uuid = before at changes revision isSome
    cases changes <;> simp_all [Request.Writes]

end Stored

-- Runs

theorem represents_empty : Represents {} fun _ => none where
  record _ := .none
  field _ := rfl
  sound _ _ := nofun

theorem Represents.step {store : Store} {leases : Text → Option Lease}
    (represents : Represents store leases) {step : Step} (valid : step.Valid)
    : ∃ next, Represents (store.step step) next := by
  cases step with
  | pass now => exact ⟨_, represents.expire now⟩
  | call uuid request now => exact ⟨_, ((represents.expire _).refines valid now uuid).represents⟩

variable {steps : List Step}

/-- A run leaves a store of leases. Witness: induction over the steps, from the last. -/
theorem Store.run_represents (valid : ∀ step ∈ steps, step.Valid)
    : ∃ leases, Represents (Store.run steps) leases := by
  induction steps using List.reverseRecOn with
  | nil => exact ⟨_, represents_empty⟩
  | append_singleton before last ih =>
      obtain ⟨leases, represents⟩ := ih fun step listed => valid step (List.mem_append_left _ listed)
      rw [Store.run, List.foldl_append]
      exact represents.step (valid last (List.mem_append_right _ (List.mem_singleton_self _)))

theorem plain_set {fields : Assoc Text Text} {name value : Text} (plain : AllPlain fields)
    (isPlain : Plain name)
    : AllPlain (fields.set name value) := by
  intro other found
  rw [Assoc.get?_set] at found
  split at found
  next same =>
    rw [same]
    exact isPlain
  · exact plain other found

def sampleContent (load : Text) : Content where
  version := 1
  attr := ∅
  data := Assoc.set ∅ (ascii "load") load

theorem sampleContent_admitted (load : Text) : Admitted 1 9000 (sampleContent load) where
  revision := by decide
  ttl := by decide
  version := show 1 ≤ 1 ∧ 1 ≤ maxSafeInteger by decide
  attr _ := nofun
  data := plain_set (fun _ => nofun) ⟨by decide, by decide, by decide⟩

/-- After any requests at any times, the records and the registry belong together; time only drops
entries, and the next request does what it should to what is left.
-/
theorem leases_stay_consistent (valid : ∀ step ∈ steps, step.Valid)
    : Consistent (Store.run steps)
      ∧ (∀ now uuid record, ((Store.run steps).expire now).records.get? uuid = some record
        → (Store.run steps).records.get? uuid = some record)
      ∧ ∀ uuid request now, Request.Valid request
        → Follows uuid request ((Store.run steps).expire now.milliseconds)
            (request.run ((Store.run steps).expire now.milliseconds) now uuid) := by
  obtain ⟨leases, represents⟩ := Store.run_represents valid
  refine ⟨represents.consistent, ?_, ?_⟩
  · intro now uuid record found
    rw [Store.expire, Expiring.get?_expire] at found
    exact Option.eq_some_of_filter_eq_some found
  · intro uuid request now isValid
    have expired := represents.expire now.milliseconds
    exact (expired.refines isValid now uuid).follows expired isValid (request.changes now uuid _)

/-- A registration is updated with a clock that goes back, and expires. -/
theorem leases_stay_consistent_sample
    : Consistent (Store.run [.call (ascii "a") (.register 1 9000 (sampleContent (ascii "1"))) ⟨5, 0⟩,
          .call (ascii "a") (.update 2 none (sampleContent (ascii "2")).data) ⟨4, 0⟩,
          .pass 14000]) :=
  (leases_stay_consistent fun step listed => by
    simp only [List.mem_cons, List.not_mem_nil, or_false] at listed
    rcases listed with rfl | rfl | rfl
    · exact sampleContent_admitted _
    · exact ⟨by decide, nofun, (sampleContent_admitted _).data⟩
    · trivial).1

end Sdk.Registration
