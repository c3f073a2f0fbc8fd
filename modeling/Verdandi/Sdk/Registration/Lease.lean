import Verdandi.Sdk.Registration.Scripts

/-! Leases, apart from how they are stored. A request of the client library does to the keys of a UUID
what it does to its lease.
-/

namespace Sdk.Registration

open Support
open Support.Redis (Text get?_setAll get?_setAll_of_mem get?_setAll_of_notMem setAll_append)
open Support.Redis.Database (setAll)
open Sdk.Catalog (Time pairs)

structure Lease where
  revision : Nat
  timestamp : Nat
  ttl : Nat
  version : Nat
  fields : Assoc Text Text

def Lease.deadline (lease : Lease) : Nat := lease.timestamp + lease.ttl

def Content.fields (content : Content) : List (Text × Text) :=
  sortedFields (ascii ".") content.attr ++ sortedFields [] content.data

-- What requests do to a lease

structure Change where
  lease : Option Lease
  reply : Reply
  event : Option Event := none

def mismatch (revision current : Nat) : Reply :=
  .error (if revision < current then .stale else .transition) (some (ascii "@revision")) current

def Lease.take (lease : Lease) (event : Event) (before : Option Lease) : Change :=
  if maximumDeadline < lease.deadline then {
    lease := before
    reply := .error .invalid (some (ascii "@ttl")) }
  else {
    lease := some lease
    reply := .ok lease.revision lease.timestamp
    event := some event }

def Request.change (request : Request) (now : Time) (uuid : Text) (before : Option Lease) : Change :=
  match request, before with
  | .register revision ttl content, before =>
      match before.filter fun lease => decide (revision < lease.revision) with
      | some lease => { lease := before, reply := mismatch revision lease.revision }
      | none =>
          let lease : Lease := {
            revision, ttl
            timestamp := changeTime now ((before.map Lease.timestamp).getD 0)
            version := content.version
            fields := setAll ∅ content.fields }
          lease.take
            (.register uuid revision lease.timestamp ttl content.version content.fields) before
  | .unregister, some _ => { lease := none, reply := .ok, event := some (.unregister uuid) }
  | .unregister, none => { lease := none, reply := .ok }
  | .update _ _ _, none | .renew _, none => { lease := none, reply := .error .missing }
  | .update revision version data, some lease =>
      if revision = lease.revision + 1 then
        let fields := sortedFields [] data
        let lease' : Lease := {
          lease with
          revision
          timestamp := changeTime now lease.timestamp
          version := version.getD lease.version
          fields := setAll lease.fields fields }
        lease'.take (.update uuid revision lease'.timestamp version fields) before
      else if revision = lease.revision then {
        lease := before
        reply := .ok lease.revision lease.timestamp }
      else { lease := before, reply := mismatch revision lease.revision }
  | .renew revision, some lease =>
      if revision = lease.revision then
        let lease' := { lease with timestamp := changeTime now lease.timestamp }
        lease'.take (.renew uuid revision lease'.timestamp) before
      else { lease := before, reply := mismatch revision lease.revision }

-- How leases are stored

def marks : List Text :=
  [ascii "@uuid", ascii "@revision", ascii "@timestamp", ascii "@ttl", ascii "@version"]

def Lease.header (lease : Lease) (uuid : Text) : List (Text × Text) :=
  [(ascii "@uuid", uuid), (ascii "@revision", Decimal.text lease.revision),
    (ascii "@timestamp", Decimal.text lease.timestamp), (ascii "@ttl", Decimal.text lease.ttl),
    (ascii "@version", Decimal.text lease.version)]

def Lease.hash (lease : Lease) (uuid : Text) : Assoc Text Text :=
  setAll lease.fields (lease.header uuid)

structure Lease.Sound (lease : Lease) : Prop where
  revision : 1 ≤ lease.revision ∧ lease.revision ≤ maxSafeInteger
  ttl : 1 ≤ lease.ttl
  deadline : lease.deadline ≤ maximumDeadline
  unmarked : ∀ name, (lease.fields.get? name).isSome → name.head? ≠ some 64

structure Shows (uuid : Text) (lease : Lease) (record : Leased (Assoc Text Text)) : Prop where
  deadline : record.deadline = some lease.deadline
  hash : record.value.get? = (lease.hash uuid).get?

structure Represents (store : Store) (leases : Text → Option Lease) : Prop where
  record : ∀ uuid, Option.Rel (Shows uuid) (leases uuid) (store.records.get? uuid)
  field : ∀ uuid, store.registry.get? uuid = (leases uuid).map fun lease =>
    { value := Decimal.text lease.revision, deadline := some lease.deadline }
  sound : ∀ uuid lease, leases uuid = some lease → lease.Sound

-- Arguments

@[simp]
theorem toNumber_text (number : Nat) : toNumber (Decimal.text number) = some number := by
  rw [toNumber, if_neg, Decimal.value_text]
  simp only [not_or, Decimal.text_ne_nil, not_false_eq_true, true_and, Bool.not_eq_false,
    List.all_eq_true]
  intro byte listed
  exact Decimal.isDigit_of_mem_text listed

@[simp]
theorem pairs_flatten (fields : List (Text × Text)) : pairs (flatten fields) = fields := by
  induction fields with
  | nil => rfl
  | cons field rest ih =>
      change field :: pairs (flatten rest) = field :: rest
      rw [ih]

theorem flatten_append (first second : List (Text × Text))
    : flatten first ++ flatten second = flatten (first ++ second) := by
  simp [flatten]

@[simp]
theorem argument_text {argv : List Text} {index number : Nat}
    (found : argv.getD index [] = Decimal.text number)
    : argument argv index = number := by
  rw [argument, found, toNumber_text, Option.getD_some]

section Arguments

variable {uuid : Text} {revision ttl : Nat} {content : Content} {version : Option Nat}
  {data : Assoc Text Text}

@[simp]
theorem pairs_registerArguments
    : pairs ((registerArguments uuid revision ttl content).drop 4) = content.fields := by
  change pairs (flatten _ ++ flatten _) = _
  rw [flatten_append, pairs_flatten]
  rfl

@[simp]
theorem pairs_updateArguments
    : pairs ((updateArguments uuid revision version data).drop 3) = sortedFields [] data :=
  pairs_flatten _

end Arguments

variable {field : Text × Text}

theorem Plain.unmarked_fields {fields : Assoc Text Text} (plain : AllPlain fields)
    (listed : field ∈ sortedFields [] fields)
    : field.1.head? ≠ some 64 := by
  obtain ⟨name, isName, found⟩ := mem_sortedFields.mp listed
  rw [isName, List.nil_append]
  exact (plain name (by rw [found]; rfl)).2.1

theorem Admitted.unmarked {revision ttl : Nat} {content : Content}
    (admitted : Admitted revision ttl content) (listed : field ∈ content.fields)
    : field.1.head? ≠ some 64 := by
  rcases List.mem_append.mp listed with inAttr | inData
  · obtain ⟨name, isName, _⟩ := mem_sortedFields.mp inAttr
    rw [isName]
    change some (46 : UInt8) ≠ some 64
    decide
  · exact Plain.unmarked_fields admitted.data inData

-- Records

variable {name : Text}

theorem marked (listed : name ∈ marks) : name.head? = some 64 := by
  simp only [marks, List.mem_cons, List.not_mem_nil, or_false] at listed
  rcases listed with rfl | rfl | rfl | rfl | rfl <;> rfl

theorem Lease.names_header (lease : Lease) (uuid : Text) : (lease.header uuid).map Prod.fst = marks :=
  rfl

theorem Lease.mem_header (lease : Lease) (uuid : Text)
    : (ascii "@revision", Decimal.text lease.revision) ∈ lease.header uuid
      ∧ (ascii "@timestamp", Decimal.text lease.timestamp) ∈ lease.header uuid
      ∧ (ascii "@ttl", Decimal.text lease.ttl) ∈ lease.header uuid := by
  simp [Lease.header]

theorem Lease.get?_hash_mark {lease : Lease} {uuid : Text} {field : Text × Text}
    (listed : field ∈ lease.header uuid)
    : (lease.hash uuid).get? field.1 = some field.2 :=
  get?_setAll_of_mem (by rw [Lease.names_header]; decide) listed

theorem Lease.get?_hash_field {lease : Lease} {uuid : Text} (unmarked : name ∉ marks)
    : (lease.hash uuid).get? name = lease.fields.get? name :=
  get?_setAll_of_notMem (by rwa [Lease.names_header])

section Records

variable {store : Store} {uuid : Text} {lease : Lease}

variable {leases : Text → Option Lease}

theorem Represents.hget_none (represents : Represents store leases) (vacant : leases uuid = none)
    (name : Text)
    : store.hget uuid name = none := by
  have record := represents.record uuid
  rw [vacant] at record
  rw [Store.hget]
  generalize store.records.get? uuid = found at record
  cases record
  rfl

theorem Represents.found {leases : Text → Option Lease} (represents : Represents store leases)
    (held : leases uuid = some lease)
    : ∃ record, store.records.get? uuid = some record ∧ Shows uuid lease record := by
  have record := represents.record uuid
  rw [held] at record
  generalize store.records.get? uuid = found at record
  cases record with
  | some shows_ => exact ⟨_, rfl, shows_⟩

theorem Represents.hget_mark (represents : Represents store leases)
    (held : leases uuid = some lease) {field : Text × Text} (listed : field ∈ lease.header uuid)
    : store.hget uuid field.1 = some field.2 := by
  obtain ⟨record, found, shows_⟩ := represents.found held
  rw [Store.hget, found, Option.bind_some, shows_.hash, Lease.get?_hash_mark listed]

theorem Represents.current_none (represents : Represents store leases) (vacant : leases uuid = none)
    : current store uuid = .error (.error .missing) := by
  rw [current, represents.hget_none vacant]

theorem Represents.current_some (represents : Represents store leases)
    (held : leases uuid = some lease)
    : current store uuid = .ok (lease.revision, lease.timestamp, lease.ttl) := by
  have revision := represents.hget_mark held (lease.mem_header uuid).1
  have timestamp := represents.hget_mark held (lease.mem_header uuid).2.1
  have ttl := represents.hget_mark held (lease.mem_header uuid).2.2
  simp only at revision timestamp ttl
  simp [current, revision, timestamp, ttl]

end Records

-- Writes

theorem le_changeTime (now : Time) (timestamp : Nat) : timestamp ≤ changeTime now timestamp := by
  rw [changeTime]
  split <;> omega

theorem now_le_changeTime (now : Time) (timestamp : Nat)
    : now.milliseconds ≤ changeTime now timestamp := by
  rw [changeTime]
  split <;> omega

/-- A script has done to the keys of a UUID what the request does to the lease. -/
structure Refines (store : Store) (leases : Text → Option Lease) (uuid : Text) (outcome : Outcome)
    (change : Change) : Prop where
  reply : outcome.reply = change.reply
  event : outcome.event = change.event
  represents : Represents outcome.store (Function.update leases uuid change.lease)
  silent : outcome.event = none → outcome.store = store

section Writes

variable {store : Store} {leases : Text → Option Lease} {uuid : Text}

/-- A script that refuses leaves the lease. -/
theorem Represents.refuse (represents : Represents store leases) (reply : Reply)
    : Refines store leases uuid (refuse store reply) { lease := leases uuid, reply } where
  reply := rfl
  event := rfl
  represents := by
    rw [Function.update_eq_self]
    exact represents
  silent _ := rfl

/-- A record is written and both deadlines are set. -/
theorem Represents.extend (represents : Represents store leases) {written : Store} {now : Time}
    {next : Lease} {record : Leased (Assoc Text Text)}
    (others : ∀ other, other ≠ uuid → written.records.get? other = store.records.get? other)
    (registry : written.registry = store.registry)
    (found : written.records.get? uuid = some record)
    (hash : record.value.get? = (next.hash uuid).get?) (sound : next.Sound)
    (later : now.milliseconds < next.deadline)
    : Represents (written.extend now uuid (Decimal.text next.revision) next.deadline)
        (Function.update leases uuid (some next)) := by
  refine ⟨fun other => ?_, fun other => ?_, fun other lease held => ?_⟩
  · rw [Store.extend, Expiring.get?_expireAt found later]
    by_cases same : other = uuid
    · subst same
      rw [if_pos rfl, Function.update_self]
      exact .some ⟨rfl, hash⟩
    · rw [if_neg same, Function.update_of_ne same, others other same]
      exact represents.record other
  · rw [Store.extend, registry, Expiring.get?_lease later]
    by_cases same : other = uuid
    · subst same
      rw [if_pos rfl, Function.update_self]
      rfl
    · rw [if_neg same, Function.update_of_ne same]
      exact represents.field other
  · by_cases same : other = uuid
    · subst same
      rw [Function.update_self] at held
      cases held
      exact sound
    · rw [Function.update_of_ne same] at held
      exact represents.sound other lease held

/-- A change whose deadline can be stored is written, any other is refused. -/
theorem Represents.take (represents : Represents store leases) {written : Store} {now : Time}
    {next : Lease} {record : Leased (Assoc Text Text)} {event : Event} {revisionValue : Text}
    (others : ∀ other, other ≠ uuid → written.records.get? other = store.records.get? other)
    (registry : written.registry = store.registry)
    (found : written.records.get? uuid = some record)
    (hash : record.value.get? = (next.hash uuid).get?)
    (sound : next.deadline ≤ maximumDeadline → next.Sound)
    (later : now.milliseconds < next.deadline) (isRevision : revisionValue = Decimal.text next.revision)
    : Refines store leases uuid
        (if maximumDeadline < next.deadline then
          Registration.refuse store (.error .invalid (some (ascii "@ttl")))
        else {
          store := written.extend now uuid revisionValue next.deadline
          reply := .ok next.revision next.timestamp
          event := some event })
        (next.take event (leases uuid)) := by
  rw [Lease.take]
  by_cases above : maximumDeadline < next.deadline
  · rw [if_pos above, if_pos above]
    exact represents.refuse _
  · rw [if_neg above, if_neg above, isRevision]
    exact ⟨rfl, rfl,
      represents.extend others registry found hash (sound (Nat.not_lt.mp above)) later, nofun⟩

theorem get?_hset (other : Text) (fields : List (Text × Text))
    : (store.hset uuid fields).records.get? other = if other = uuid then
          some {
            value := setAll (((store.records.get? uuid).map Leased.value).getD ∅) fields
            deadline := (store.records.get? uuid).bind Leased.deadline }
        else
          store.records.get? other := by
  rw [Store.hset, Expiring.get?_write]

/-- A whole record is written. -/
theorem Lease.get?_written {lease : Lease} {fields : List (Text × Text)}
    (unmarked : ∀ field ∈ fields, field.1.head? ≠ some 64)
    (isFields : lease.fields = setAll ∅ fields)
    : (setAll ∅ (lease.header uuid ++ fields)).get? = (lease.hash uuid).get? := by
  funext name
  rw [setAll_append]
  by_cases mark : name ∈ marks
  · have unset : name ∉ fields.map Prod.fst := by
      intro listed
      obtain ⟨field, member, rfl⟩ := List.mem_map.mp listed
      exact unmarked field member (marked mark)
    rw [← lease.names_header uuid] at mark
    obtain ⟨field, listed, rfl⟩ := List.mem_map.mp mark
    rw [get?_setAll_of_notMem unset, Lease.get?_hash_mark listed,
      get?_setAll_of_mem (by rw [Lease.names_header]; decide) listed]
  · rw [get?_setAll, get?_setAll_of_notMem (by rwa [Lease.names_header]), Lease.get?_hash_field mark,
      isFields, get?_setAll]

/-- What is written over a record, its marks first, leaves the record of the next lease. -/
theorem get?_rewritten {hash : Assoc Text Text} {header fields : List (Text × Text)}
    {names : List Text} {old next : Lease} (shown : hash.get? = (old.hash uuid).get?)
    (unmarked : ∀ field ∈ fields, field.1.head? ≠ some 64)
    (isNames : header.map Prod.fst = names) (named : names.Sublist marks)
    (rewrites : ∀ field ∈ next.header uuid,
      field ∈ header ∨ (field ∈ old.header uuid ∧ field.1 ∉ names))
    (isFields : next.fields = setAll old.fields fields)
    : (setAll hash (header ++ fields)).get? = (next.hash uuid).get? := by
  subst isNames
  funext name
  have congr : (setAll hash (header ++ fields)).get? name
      = (setAll (setAll (old.hash uuid) header) fields).get? name := by
    rw [← setAll_append, get?_setAll, get?_setAll, shown]
  rw [congr]
  by_cases mark : name ∈ marks
  · have unset : name ∉ fields.map Prod.fst := by
      intro listed
      obtain ⟨field, member, rfl⟩ := List.mem_map.mp listed
      exact unmarked field member (marked mark)
    rw [← next.names_header uuid] at mark
    obtain ⟨field, listed, rfl⟩ := List.mem_map.mp mark
    rw [get?_setAll_of_notMem unset, Lease.get?_hash_mark listed]
    rcases rewrites field listed with written | ⟨kept, unwritten⟩
    · exact get?_setAll_of_mem (named.nodup (by decide)) written
    · rw [get?_setAll_of_notMem unwritten, Lease.get?_hash_mark kept]
  · rw [get?_setAll, get?_setAll_of_notMem fun listed => mark (named.subset listed),
      Lease.get?_hash_field mark, Lease.get?_hash_field mark, isFields, get?_setAll]

/-- An update writes its revision, its time and what it carries. -/
theorem Lease.get?_updated {hash : Assoc Text Text} {lease : Lease}
    (shown : hash.get? = (lease.hash uuid).get?) {fields : List (Text × Text)}
    (unmarked : ∀ field ∈ fields, field.1.head? ≠ some 64) (revision timestamp : Nat)
    (version : Option Nat)
    : (setAll hash
          ([(ascii "@revision", Decimal.text revision), (ascii "@timestamp", Decimal.text timestamp)]
            ++ (version.map fun number => (ascii "@version", Decimal.text number)).toList
            ++ fields)).get?
      = (Lease.hash
          { lease with
            revision
            timestamp
            version := version.getD lease.version
            fields := setAll lease.fields fields } uuid).get? := by
  cases version with
  | none =>
      refine @get?_rewritten uuid hash _ _ [ascii "@revision", ascii "@timestamp"] lease _ shown
        unmarked rfl (by decide) ?_ rfl
      intro field listed
      simp only [Lease.header, List.mem_cons, List.not_mem_nil, or_false] at listed ⊢
      rcases listed with rfl | rfl | rfl | rfl | rfl
      · exact .inr ⟨.inl rfl, by simp +decide⟩
      · exact .inl List.mem_cons_self
      · exact .inl (List.mem_cons_of_mem _ List.mem_cons_self)
      · exact .inr ⟨.inr (.inr (.inr (.inl rfl))), by simp +decide⟩
      · exact .inr ⟨.inr (.inr (.inr (.inr rfl))), by simp +decide⟩
  | some number =>
      refine @get?_rewritten uuid hash _ _
        [ascii "@revision", ascii "@timestamp", ascii "@version"] lease _ shown
        unmarked rfl (by decide) ?_ rfl
      intro field listed
      simp only [Lease.header, List.mem_cons, List.not_mem_nil, or_false] at listed ⊢
      rcases listed with rfl | rfl | rfl | rfl | rfl
      · exact .inr ⟨.inl rfl, by simp +decide⟩
      · exact .inl List.mem_cons_self
      · exact .inl (List.mem_cons_of_mem _ List.mem_cons_self)
      · exact .inr ⟨.inr (.inr (.inr (.inl rfl))), by simp +decide⟩
      · exact .inl (List.mem_append_right _ List.mem_cons_self)

end Writes

-- Scripts

section Scripts

variable {store : Store} {leases : Text → Option Lease} {uuid : Text} {now : Time}

theorem Represents.sound_fields (represents : Represents store leases) {lease : Lease}
    (held : leases uuid = some lease) {fields : List (Text × Text)}
    (unmarked : ∀ field ∈ fields, field.1.head? ≠ some 64) {name : Text}
    (found : ((setAll lease.fields fields).get? name).isSome)
    : name.head? ≠ some 64 := by
  rcases Redis.isSome_setAll.mp found with listed | old
  · obtain ⟨field, member, rfl⟩ := List.mem_map.mp listed
    exact unmarked field member
  · exact (represents.sound uuid lease held).unmarked name old

theorem Represents.renew (represents : Represents store leases) (revision : Nat)
    : Refines store leases uuid ((Request.renew revision).run store now uuid)
        ((Request.renew revision).change now uuid (leases uuid)) := by
  cases held : leases uuid with
  | none =>
      simp only [Request.run, Registration.renew, represents.current_none held, Request.change]
      rw [← held]
      exact represents.refuse _
  | some lease =>
      have sound := represents.sound uuid lease held
      obtain ⟨record, found, shown⟩ := represents.found held
      simp only [Request.run, Registration.renew, represents.current_some held, Request.change]
      rw [argument_text (show (renewArguments uuid revision).getD 1 [] = Decimal.text revision from rfl)]
      by_cases same : revision = lease.revision
      · subst same
        rw [if_neg (not_not.mpr rfl), if_pos rfl, ← held]
        refine @Represents.take store leases uuid represents _ now
          { lease with timestamp := changeTime now lease.timestamp } _ _ _ ?_ ?_
          ((get?_hset _ _).trans (if_pos rfl)) ?_ ?_ ?_ ?_
        · intro other different
          rw [get?_hset, if_neg different]
        · rfl
        · rw [found]
          refine @get?_rewritten uuid record.value [(ascii "@timestamp", _)] []
            [ascii "@timestamp"] lease _ shown.hash nofun rfl (by decide) ?_ rfl
          intro field listed
          simp only [Lease.header, List.mem_cons, List.not_mem_nil, or_false] at listed ⊢
          rcases listed with rfl | rfl | rfl | rfl | rfl
          · exact .inr ⟨.inl rfl, by simp +decide⟩
          · exact .inr ⟨.inr (.inl rfl), by simp +decide⟩
          · exact .inl rfl
          · exact .inr ⟨.inr (.inr (.inr (.inl rfl))), by simp +decide⟩
          · exact .inr ⟨.inr (.inr (.inr (.inr rfl))), by simp +decide⟩
        · intro small
          exact ⟨sound.revision, sound.ttl, small, sound.unmarked⟩
        · have := now_le_changeTime now lease.timestamp
          have := sound.ttl
          simp only [Lease.deadline]
          omega
        · rfl
      · rw [if_pos same, if_neg same, ← held]
        exact represents.refuse _

theorem Represents.update (represents : Represents store leases) (revision : Nat)
    (version : Option Nat) (data : Assoc Text Text)
    (valid : (Request.update revision version data).Valid)
    : Refines store leases uuid ((Request.update revision version data).run store now uuid)
        ((Request.update revision version data).change now uuid (leases uuid)) := by
  have arguments : argument (updateArguments uuid revision version data) 1 = revision :=
    argument_text rfl
  cases held : leases uuid with
  | none =>
      simp only [Request.run, Registration.update, represents.current_none held, Request.change]
      rw [← held]
      exact represents.refuse _
  | some lease =>
      have sound := represents.sound uuid lease held
      have unmarked (field : Text × Text) (listed : field ∈ sortedFields [] data) :=
        Plain.unmarked_fields valid.2.2 listed
      obtain ⟨record, found, shown⟩ := represents.found held
      simp only [Request.run, Registration.update, represents.current_some held, Request.change,
        arguments, pairs_updateArguments]
      by_cases next : revision = lease.revision + 1
      · rw [if_neg (not_not.mpr next), if_pos next, ← held]
        have isVersion : (updateArguments uuid revision version data).getD 2 []
            = (version.map Decimal.text).getD [] := rfl
        have none : (updateArguments uuid revision version data).getD 2 [] = [] ↔ version = none := by
          rw [isVersion]
          cases version <;> simp [Decimal.text_ne_nil]
        have event : (if (updateArguments uuid revision version data).getD 2 [] = [] then Option.none
            else some (argument (updateArguments uuid revision version data) 2)) = version := by
          cases version with
          | none => rw [if_pos (none.mpr rfl)]
          | some number =>
              rw [if_neg fun empty => nomatch none.mp empty]
              exact congrArg some (argument_text rfl)
        rw [event]
        refine @Represents.take store leases uuid represents _ now
          { lease with
            revision
            timestamp := changeTime now lease.timestamp
            version := version.getD lease.version
            fields := setAll lease.fields (sortedFields [] data) } _ _ _ ?_ rfl
          ((get?_hset _ _).trans (if_pos rfl)) ?_ ?_ ?_ rfl
        · intro other different
          rw [get?_hset, if_neg different]
        · rw [found]
          have written : (if (updateArguments uuid revision version data).getD 2 [] = [] then []
              else [(ascii "@version", (updateArguments uuid revision version data).getD 2 [])])
                = (version.map fun number => (ascii "@version", Decimal.text number)).toList := by
            cases version with
            | none => rw [if_pos (none.mpr rfl)]; rfl
            | some number =>
                rw [if_neg fun empty => nomatch none.mp empty]
                rfl
          rw [written]
          exact Lease.get?_updated shown.hash unmarked revision _ version
        · intro small
          exact ⟨valid.1, sound.ttl, small, fun name => represents.sound_fields held unmarked⟩
        · have := now_le_changeTime now lease.timestamp
          have := sound.ttl
          simp only [Lease.deadline]
          omega
      · rw [if_pos next, if_neg next, ← held]
        by_cases same : revision = lease.revision
        · rw [if_pos same, if_pos same]
          exact represents.refuse _
        · rw [if_neg same, if_neg same, mismatch]
          by_cases less : revision < lease.revision
          · rw [if_pos less, if_pos less]
            exact represents.refuse _
          · rw [if_neg less, if_neg less]
            exact represents.refuse _

theorem Represents.register (represents : Represents store leases) (revision ttl : Nat)
    (content : Content) (admitted : Admitted revision ttl content)
    : Refines store leases uuid ((Request.register revision ttl content).run store now uuid)
        ((Request.register revision ttl content).change now uuid (leases uuid)) := by
  have isRevision : argument (registerArguments uuid revision ttl content) 1 = revision :=
    argument_text rfl
  have isTtl : argument (registerArguments uuid revision ttl content) 2 = ttl := argument_text rfl
  have isVersion : argument (registerArguments uuid revision ttl content) 3 = content.version :=
    argument_text rfl
  have texts : (registerArguments uuid revision ttl content)[0]?.getD [] = uuid
      ∧ (registerArguments uuid revision ttl content)[1]?.getD [] = Decimal.text revision
      ∧ (registerArguments uuid revision ttl content)[2]?.getD [] = Decimal.text ttl
      ∧ (registerArguments uuid revision ttl content)[3]?.getD [] = Decimal.text content.version :=
    ⟨rfl, rfl, rfl, rfl⟩
  -- What is written does not depend on what was there, except for its time.
  have write (cleared : Store) (timestamp : Nat) (now_le : now.milliseconds ≤ timestamp)
      (others : ∀ other, other ≠ uuid → cleared.records.get? other = store.records.get? other)
      (registry : cleared.registry = store.registry) (vacant : cleared.records.get? uuid = none)
      : Refines store leases uuid
          (if maximumDeadline < timestamp + ttl then
            Registration.refuse store (.error .invalid (some (ascii "@ttl")))
          else {
            store := (cleared.hset uuid
              ([(ascii "@uuid", uuid), (ascii "@revision", Decimal.text revision),
                (ascii "@timestamp", Decimal.text timestamp), (ascii "@ttl", Decimal.text ttl),
                (ascii "@version", Decimal.text content.version)] ++ content.fields)).extend now
              uuid (Decimal.text revision) (timestamp + ttl)
            reply := .ok revision timestamp
            event := some (.register uuid revision timestamp ttl content.version content.fields) })
          (Lease.take
            { revision, timestamp, ttl, version := content.version,
              fields := setAll ∅ content.fields }
            (.register uuid revision timestamp ttl content.version content.fields)
            (leases uuid)) := by
    let next : Lease :=
      { revision, timestamp, ttl, version := content.version, fields := setAll ∅ content.fields }
    refine @Represents.take store leases uuid represents _ now next _ _ _ ?_ ?_
      ((get?_hset _ _).trans (if_pos rfl)) ?_ ?_ ?_ rfl
    · intro other different
      rw [get?_hset, if_neg different, others other different]
    · exact registry
    · rw [vacant]
      exact @Lease.get?_written uuid next content.fields (fun field => admitted.unmarked) rfl
    · intro small
      refine ⟨admitted.revision, admitted.ttl.1, small, fun name found => ?_⟩
      rcases Redis.isSome_setAll.mp found with listed | nothing
      · obtain ⟨field, member, rfl⟩ := List.mem_map.mp listed
        exact admitted.unmarked member
      · rw [Assoc.get?_empty] at nothing
        cases nothing
    · have := admitted.ttl.1
      simp only [Lease.deadline, next]
      omega
  cases held : leases uuid with
  | none =>
      have vacant : store.records.get? uuid = none := by
        have record := represents.record uuid
        rw [held] at record
        generalize store.records.get? uuid = found at record ⊢
        cases record
        rfl
      have later := now_le_changeTime now 0
      have written := write store (changeTime now 0) later (fun _ _ => rfl) rfl vacant
      rw [held] at written
      simpa [Request.run, Registration.register, represents.hget_none held, isRevision, isTtl,
        isVersion, texts, Request.change] using written
  | some lease =>
      have oldRevision := represents.hget_mark held (lease.mem_header uuid).1
      have oldTimestamp := represents.hget_mark held (lease.mem_header uuid).2.1
      simp only at oldRevision oldTimestamp
      have later := now_le_changeTime now lease.timestamp
      have written := write (store.del uuid) (changeTime now lease.timestamp) later
        (fun other different => by rw [Store.del, Assoc.get?_remove, if_neg different]) rfl
        (by rw [Store.del, Assoc.get?_remove, if_pos rfl])
      rw [held] at written
      by_cases stale : revision < lease.revision
      · have refused := @Represents.refuse store leases uuid represents
          (mismatch revision lease.revision)
        rw [held] at refused
        simpa [Request.run, Registration.register, oldRevision, oldTimestamp, isRevision, stale,
          Request.change, mismatch, Option.filter_some] using refused
      · simpa [Request.run, Registration.register, oldRevision, oldTimestamp, isRevision, isTtl,
          isVersion, texts, stale, Request.change, Option.filter_some] using written

theorem Represents.unregister (represents : Represents store leases)
    : Refines store leases uuid (Request.unregister.run store now uuid)
        (Request.unregister.change now uuid (leases uuid)) := by
  have record := represents.record uuid
  have field := represents.field uuid
  have next : Represents ((store.del uuid).hdel uuid) (Function.update leases uuid none) := by
    refine ⟨fun other => ?_, fun other => ?_, fun other lease held => ?_⟩
    · rw [Store.hdel, Store.del, Assoc.get?_remove]
      by_cases same : other = uuid
      · subst same
        rw [if_pos rfl, Function.update_self]
        exact .none
      · rw [if_neg same, Function.update_of_ne same]
        exact represents.record other
    · rw [Store.hdel, Store.del, Assoc.get?_remove]
      by_cases same : other = uuid
      · subst same
        rw [if_pos rfl, Function.update_self]
        rfl
      · rw [if_neg same, Function.update_of_ne same]
        exact represents.field other
    · by_cases same : other = uuid
      · subst same
        rw [Function.update_self] at held
        cases held
      · rw [Function.update_of_ne same] at held
        exact represents.sound other lease held
  cases held : leases uuid with
  | none =>
      rw [held] at record field
      generalize isRecord : store.records.get? uuid = found at record
      cases record
      refine ⟨rfl, ?_, next, fun _ => ?_⟩
      · simp [Request.run, Registration.unregister, isRecord, Request.change]
      · change Store.mk (store.records.remove uuid) (store.registry.remove uuid) = store
        rw [Assoc.remove_of_none isRecord, Assoc.remove_of_none field]
  | some lease =>
      rw [held] at record
      generalize isRecord : store.records.get? uuid = found at record
      cases record
      have event : (Request.unregister.run store now uuid).event = some (.unregister uuid) := by
        simp [Request.run, Registration.unregister, isRecord, unregisterArguments]
      refine ⟨rfl, event, next, fun silent => ?_⟩
      rw [event] at silent
      cases silent

end Scripts

end Sdk.Registration
