import Verdandi.Star.Catalog.Coherence

/-! Writes to the own source. A write is checked twice, at the time it is prepared and at its
final time; both checks agree on everything but the deadline.
-/

namespace Astra.Catalog

open Support
open Origin (Name)

-- Time

theorem Record.expire_or {record : Record} {now later : Int} (before : now ≤ later)
    : record.expire now = record ∨ record.expire now = record.expire later := by
  cases held : record.deadline with
  | none => exact .inl (Record.expire_of_none held)
  | some deadline =>
      rcases Int.lt_or_le now deadline with lasts | ended
      · exact .inl (Record.expire_of_lt held lasts)
      · rw [Record.expire_of_le held ended, Record.expire_of_le held (ended.trans before)]
        exact .inr rfl

theorem Outlives.mono {now later : Int} {before after : Name → Option Record}
    (outlives : Outlives now before after) (passed : now ≤ later)
    : Outlives later before after := by
  intro name
  rcases outlives name with same | ended
  · exact .inl same
  · rw [ended]
    cases before name with
    | none => exact .inl rfl
    | some record =>
        rcases @Record.expire_or record _ _ passed with same | again
        · exact .inl (congrArg some same)
        · exact .inr (congrArg some again)

namespace State

theorem Fades.mono {now later : Int} {before after : Option (Replica Record Error)}
    (fades : Fades now before after) (passed : now ≤ later)
    : Fades later before after := by
  cases fades with
  | absent => exact .absent
  | spent retired idle => exact .spent retired idle
  | kept outlives stays coverage retired task busy =>
      exact .kept (outlives.mono passed) stays coverage retired task busy

theorem Aged.mono {now later : Int} {before after : State} (aged : Aged now before after)
    (passed : now ≤ later)
    : Aged later before after :=
  { aged with
    source := aged.source.mono passed
    merged := aged.merged.mono passed
    copies := fun id => (aged.copies id).mono passed }

structure Passes (before after : State) : Prop where
  time : ∀ time, before.observed = some time → ∃ now, after.observed = some now ∧ time ≤ now
  aged : ∀ now, (∀ time, after.observed = some time → time ≤ now) → Aged now before after

theorem Passes.refl (state : State) : Passes state state :=
  ⟨fun time isTime => ⟨time, isTime, le_rfl⟩, fun now _ => .refl now state⟩

theorem Passes.trans {first second third : State} (one : Passes first second)
    (other : Passes second third)
    : Passes first third := by
  refine ⟨?_, ?_⟩
  · intro time isTime
    obtain ⟨middle, isMiddle, before⟩ := one.time time isTime
    obtain ⟨now, isNow, after⟩ := other.time middle isMiddle
    exact ⟨now, isNow, before.trans after⟩
  · intro now reached
    refine (one.aged now ?_).trans (other.aged now reached)
    intro time isTime
    obtain ⟨later, isLater, before⟩ := other.time time isTime
    exact before.trans (reached later isLater)

theorem Advances.passes {now : Int} {before : State} {result : State × Option Fault}
    (advances : Advances now before result) (time : before.observed = some now)
    : Passes before result.1 := by
  have same := advances.observed
  refine ⟨?_, ?_⟩
  · intro other isOther
    exact ⟨other, same.trans isOther, le_rfl⟩
  · intro later reached
    exact advances.aged.mono (reached now (same.trans time))

variable {layout : Layout} {state : State} {moment : Moment}

variable {stamp : Clock.Reading}

/-- A reading that is accepted is the observed time from then on. -/
theorem Coherent.reading (coherent : Coherent state) {sample : Option Clock.Reading} {next : State}
    (read : state.reading sample = some (stamp, next))
    : Coherent next ∧ Passes state next ∧ next = { state with observed := some stamp.time }
      ∧ 0 ≤ stamp.time := by
  unfold State.reading at read
  obtain ⟨reading, accepted, same⟩ := Option.map_eq_some_iff.mp read
  cases same
  have follows := (Option.filter_eq_some_iff.mp accepted).2
  simp only [Clock.Reading.follows, Bool.and_eq_true, decide_eq_true_eq, Option.all_eq_true]
    at follows
  obtain ⟨⟨_, positive⟩, onwards⟩ := follows
  have raise {agenda : Option Agenda} (since : Since state.observed agenda)
      : Since (some stamp.time) agenda := by
    intro held isHeld
    obtain ⟨time, isTime, before⟩ := since held isHeld
    exact ⟨_, rfl, before.trans (onwards time isTime)⟩
  refine ⟨?_, ⟨?_, ?_⟩, rfl, positive⟩
  · exact
      { coherent with
        copies := fun id replica isReplica =>
          { coherent.copies id replica isReplica with
            since := raise (coherent.copies id replica isReplica).since }
        since := raise coherent.since
        sinceMerged := raise coherent.sinceMerged }
  · exact fun time isTime => ⟨_, rfl, onwards time isTime⟩
  · exact fun now _ => { Aged.refl now state with }

variable {time : Int}

/-- A state whose facts are the same, with the agendas that are needed opened. -/
theorem Coherent.openAgenda (coherent : Coherent state) (observed : state.observed = some time)
    : Coherent (state.openAgenda time) ∧ Passes state (state.openAgenda time)
      ∧ (state.openAgenda time).agenda.isSome = true := by
  unfold State.openAgenda
  split
  next isOpen => exact ⟨coherent, .refl _, isOpen⟩
  rename_i missing
  have none : state.agenda = none := by simpa using missing
  refine ⟨?_, ⟨fun other isOther => ⟨other, isOther, le_rfl⟩, ?_⟩, rfl⟩
  · have held := coherent.source.opened time
    rw [none] at held
    exact
      { coherent with
        source := held
        since := by
          rintro _ ⟨⟩
          exact ⟨time, observed, le_rfl⟩ }
  · exact fun now _ => { Aged.refl now state with }

theorem Coherent.openOutlook (coherent : Coherent state) (observed : state.observed = some time)
    : Coherent (state.openOutlook time) ∧ Passes state (state.openOutlook time)
      ∧ (state.openOutlook time).outlook.isSome = true := by
  unfold State.openOutlook
  split
  next isOpen => exact ⟨coherent, .refl _, isOpen⟩
  rename_i missing
  have none : state.outlook = none := by simpa using missing
  refine ⟨?_, ⟨fun other isOther => ⟨other, isOther, le_rfl⟩, ?_⟩, rfl⟩
  · have held := coherent.merged.opened time
    rw [none] at held
    exact
      { coherent with
        merged := held
        sinceMerged := by
          rintro _ ⟨⟩
          exact ⟨time, observed, le_rfl⟩ }
  · exact fun now _ => { Aged.refl now state with }

-- Candidates

def Request.version : Request → Nat
  | .publish _ version _ => version
  | .renew version _ => version

def Request.value (request : Request) (source : Option Record) : Option Bytes :=
  match request with
  | .publish value _ _ => some value
  | .renew .. => source.bind Record.value

structure Candidate (request : Request) (source merged : Option Record) (stamp : Clock.Reading)
    (candidate : Record)
    : Prop where
  version : candidate.version = request.version
  value : candidate.value = request.value source
  lasts : ∃ deadline, candidate.deadline = some deadline ∧ stamp.time < deadline
  valid : candidate.valid = true
  above : Catalog.version source ≤ candidate.version
  aboveMerged : Catalog.version merged ≤ candidate.version

theorem ready_of_deadlineAfter {ttl deadline : Int}
    (isDeadline : stamp.deadlineAfter ttl = .ok deadline)
    : deadline = stamp.time + ttl ∧ 0 ≤ stamp.time ∧ 0 ≤ ttl := by
  unfold Clock.Reading.deadlineAfter at isDeadline
  split at isDeadline
  · cases isDeadline
  split at isDeadline
  · cases isDeadline
  split at isDeadline
  · cases isDeadline
  cases isDeadline
  exact ⟨rfl, by omega, by omega⟩

variable {version : Nat} {value : Bytes}

/-- A version that is checked is not behind, and says the same at the same version. -/
theorem above_of_check {current : Option Record} (checked : check current version value = .ok ())
    : Catalog.version current ≤ version
      ∧ ∀ record held, current = some record → record.version = version
        → record.value = some held → held = value := by
  unfold check at checked
  split at checked
  · exact ⟨Nat.zero_le _, nofun⟩
  rename_i record
  split at checked
  · cases checked
  rename_i above
  split at checked
  · cases checked
  rename_i agrees
  refine ⟨Nat.le_of_not_lt above, ?_⟩
  rintro _ held ⟨⟩ same isHeld
  simpa [same, isHeld] using agrees

variable {ttl : Nat} {source merged : Option Record} {candidate : Record}

theorem candidate_of_publish
    (published : Catalog.publish source merged value version ttl stamp = .ok candidate)
    : Candidate (.publish value version ttl) source merged stamp candidate := by
  unfold Catalog.publish at published
  split at published
  · cases published
  next shaped =>
  simp only [not_or, Bool.not_eq_true', Bool.not_eq_false, Nat.not_lt] at shaped
  obtain ⟨isValid, size, positive, least, _⟩ := shaped
  split at published
  · cases published
  · cases published
  rename_i checkedSource checkedMerged
  obtain ⟨above, agrees⟩ := above_of_check checkedSource
  obtain ⟨aboveMerged, _⟩ := above_of_check checkedMerged
  split at published
  · cases published
  rename_i deadline isDeadline
  obtain ⟨sum, now, _⟩ := ready_of_deadlineAfter isDeadline
  have later : stamp.time < deadline := by
    unfold milliseconds at sum
    omega
  split at published
  next known isKnown =>
    cases published
    obtain ⟨isSource, same⟩ := Option.filter_eq_some_iff.mp isKnown
    simp only [Bool.decide_and, Bool.and_eq_true, decide_eq_true_eq] at same
    obtain ⟨held, isHeld⟩ := Option.isSome_iff_exists.mp same.2
    have isValue : known.value = some value := by
      rw [isHeld, agrees known held isSource same.1 isHeld]
    refine ⟨rfl, isValue, ⟨_, rfl, lt_max_of_lt_right later⟩, ?_, above, aboveMerged⟩
    refine Record.valid_iff.mpr ⟨positive, by simp [isValue], ?_, ?_⟩
    · rintro _ equal
      rw [isValue] at equal
      cases equal
      exact size
    · rintro _ ⟨⟩
      exact le_max_of_le_right (now.trans later.le)
  · cases published
    refine ⟨rfl, rfl, ⟨_, rfl, later⟩, ?_, above, aboveMerged⟩
    refine Record.valid_iff.mpr ⟨positive, rfl, ?_, ?_⟩
    · rintro _ ⟨⟩
      exact size
    · rintro _ ⟨⟩
      exact now.trans later.le

theorem candidate_of_renew (renewed : Catalog.renew source merged version ttl stamp = .ok candidate)
    : Candidate (.renew version ttl) source merged stamp candidate := by
  unfold Catalog.renew at renewed
  split at renewed
  · cases renewed
  next shaped =>
  simp only [not_or, Bool.not_eq_true', Bool.not_eq_false, Nat.not_lt] at shaped
  obtain ⟨isValid, _, least, _⟩ := shaped
  split at renewed
  · cases renewed
  split at renewed
  · cases renewed
  next agrees =>
  split at renewed
  · cases renewed
  rename_i record
  split at renewed
  · cases renewed
  rename_i active
  split at renewed
  · cases renewed
  rename_i deadline isDeadline
  cases renewed
  obtain ⟨sum, now, _⟩ := ready_of_deadlineAfter isDeadline
  have later : stamp.time < deadline := by
    unfold milliseconds at sum
    omega
  simp only [not_or, Option.any_some, bne_iff_ne, ne_eq, not_not] at agrees
  simp only [Catalog.valid, Option.all_some, Bool.and_eq_true] at isValid
  simp only [not_or] at active
  rcases Record.valid_cases isValid.1 with ⟨none, _⟩ | ⟨value, held, isValue, isHeld⟩
  · simp [none] at active
  · have lease : ({ record with deadline := record.deadline.map (max · deadline) }
        : Record).deadline = some (max held deadline) := by
      rw [isHeld]
      rfl
    refine ⟨agrees.2, rfl, ⟨_, lease, lt_max_of_lt_right later⟩, ?_, le_rfl, ?_⟩
    · obtain ⟨positive, _, sizes, _⟩ := Record.valid_iff.mp isValid.1
      refine Record.valid_iff.mpr ⟨positive, by simp [isValue, isHeld], sizes, ?_⟩
      intro _ equal
      rw [lease] at equal
      cases equal
      exact le_max_of_le_right (now.trans later.le)
    · have behind := agrees.1
      cases merged with
      | none => exact Nat.zero_le _
      | some known =>
          change known.version ≤ record.version
          simp only [Option.any_some, decide_eq_true_eq, not_lt] at behind
          rw [agrees.2]
          exact behind

variable {request : Request}

/-- Whatever is asked for, its candidate is known. -/
theorem candidate_of_request (isCandidate : request.candidate source merged stamp = .ok candidate)
    : Candidate request source merged stamp candidate := by
  cases request with
  | publish value version ttl => exact candidate_of_publish isCandidate
  | renew version ttl => exact candidate_of_renew isCandidate

/-- The second check asks for the same. -/
theorem again_same (known : Candidate request source merged stamp candidate)
    : (request.again candidate).version = request.version
      ∧ (request.again candidate).value source = request.value source := by
  cases request with
  | publish value version ttl =>
      have isValue := known.value
      refine ⟨rfl, ?_⟩
      simp only [Request.again, Request.value] at isValue ⊢
      rw [isValue, Option.getD_some]
  | renew version ttl => exact ⟨rfl, rfl⟩

end State

-- Merging

structure Combined (current : Option Record) (incoming : Record) (now : Int) (change : Change)
    : Prop where
  valid : change.record.valid = true
  version : change.record.version = max (version current) incoming.version
  visible : change.visible = visible current change.record
  lasting : change.record.expire now = change.record

variable {current : Option Record} {incoming : Record} {now : Int}

theorem combined_of_merge {change : Change}
    (merged : Record.merge current incoming now = .ok change)
    : Combined current incoming now change := by
  obtain ⟨validCurrent, validIncoming, _⟩ := valid_of_merge merged
  cases current with
  | none =>
      unfold Record.merge at merged
      split at merged
      · cases merged
      cases merged
      exact ⟨Record.valid_expire validIncoming, by simp [version], rfl, Record.expire_expire le_rfl⟩
  | some known =>
      obtain ⟨isMerged, isVisible⟩ := merged_of_merge merged
      exact ⟨isMerged.valid (by simpa using validCurrent) validIncoming, isMerged.version_eq,
        isVisible, isMerged.expire_eq⟩

/-- What subscribers do not see does not change the content. -/
theorem content_of_invisible {record : Record} (unseen : visible current record = false)
    : record.content = current.bind Record.content := by
  unfold visible at unseen
  unfold Record.content
  split at unseen
  next value isNone =>
    have gone : record.value = none := by simpa using unseen
    rw [gone, Option.map_none]
    cases current with
    | none => rfl
    | some known =>
        have missing : known.value = none := isNone
        rw [Option.bind_some, missing, Option.map_none]
  · cases unseen
  rename_i shown value isShown isValue
  obtain ⟨known, rfl, isKnown⟩ := Option.bind_eq_some_iff.mp isShown
  simp only [Option.any_some, Bool.or_eq_false_iff, bne_eq_false_iff_eq] at unseen
  obtain ⟨sameVersion, sameValue⟩ := unseen
  rw [isValue, Option.bind_some, isKnown, ← sameVersion, ← sameValue]

/-- A fact that lasts and is not behind is what a merge keeps of value and version. -/
theorem merge_of_fresh {deadline : Int}
    (validCurrent : current.all Record.valid = true) (validIncoming : incoming.valid = true)
    (positive : 0 ≤ now) (lease : incoming.deadline = some deadline) (lasts : now < deadline)
    (above : version current ≤ incoming.version)
    (agrees : ∀ known, current = some known → known.version = incoming.version
      → known.value.isSome = true → known.value = incoming.value)
    : ∃ change, Record.merge current incoming now = .ok change
      ∧ change.record.version = incoming.version
      ∧ change.record.value = incoming.value
      ∧ change.record.deadline.isSome = true := by
  have whole := Record.expire_of_lt lease lasts
  unfold Record.merge
  rw [if_neg (by simp [Catalog.valid, validCurrent, validIncoming, positive])]
  cases current with
  | none =>
      refine ⟨_, rfl, ?_⟩
      dsimp only
      rw [whole, lease]
      exact ⟨rfl, rfl, rfl⟩
  | some known =>
      have present : incoming.value.isSome = true := by
        rw [(Record.valid_iff.mp validIncoming).2.1, lease]
        rfl
      have consistent : ¬ (known.version = incoming.version ∧ known.value.isSome = true
          ∧ incoming.value.isSome = true ∧ known.value ≠ incoming.value) := by
        rintro ⟨same, isSome, _, differs⟩
        exact differs (agrees known rfl same isSome)
      dsimp only
      rw [if_neg consistent]
      refine ⟨_, rfl, ?_⟩
      dsimp only
      rw [whole]
      split
      · rw [lease]
        exact ⟨rfl, rfl, rfl⟩
      rename_i notNewer
      have same : incoming.version = known.version :=
        Nat.le_antisymm (Nat.le_of_not_lt notNewer) above
      rw [if_pos ⟨same, present⟩]
      split
      · rw [lease]
        exact ⟨rfl, rfl, rfl⟩
      rename_i kept
      obtain ⟨held, isHeld⟩ : ∃ held, (known.expire now).value = some held :=
        Option.ne_none_iff_exists'.mp (by simpa using kept)
      obtain ⟨limit, isValue, isLimit, unchanged⟩ :=
        lease_of_expire (by simpa using validCurrent) isHeld
      rw [unchanged]
      refine ⟨same.symm, agrees known rfl same.symm (by rw [isValue]; rfl), ?_⟩
      rw [isLimit, lease]
      rfl

namespace State

-- Putting changes together

variable {layout : Layout} {state : State} {moment : Moment}

def Rises (before after : State) : Prop :=
  ∀ name, Catalog.version (before.merged.find name) ≤ Catalog.version (after.merged.find name)

theorem Rises.trans {first second third : State} (one : Rises first second)
    (other : Rises second third)
    : Rises first third :=
  fun name => (one name).trans (other name)

variable {before : State}

/-- Some time is late enough. -/
theorem Passes.exists_aged {after : State} (passes : Passes before after)
    : ∃ now, (∀ time, after.observed = some time → time = now) ∧ Aged now before after := by
  cases observed : after.observed with
  | none => exact ⟨0, nofun, passes.aged 0 (by rw [observed]; nofun)⟩
  | some now =>
      refine ⟨now, fun _ isTime => (Option.some.inj isTime).symm, passes.aged now ?_⟩
      rw [observed]
      rintro _ ⟨⟩
      exact le_rfl

theorem Passes.rises {after : State} (passes : Passes before after)
    : Rises before after := by
  obtain ⟨now, _, aged⟩ := passes.exists_aged
  exact fun name => (aged.merged.version name).ge

theorem Since.hold {observed : Option Int} {agenda : Option Agenda}
    (since : Since observed agenda) (name : Name) (deadline : Option Int)
    : Since observed (Agenda.hold agenda name deadline) := by
  cases agenda with
  | none => cases deadline <;> exact nofun
  | some agenda =>
      obtain ⟨time, isTime, before⟩ := since agenda rfl
      cases deadline <;>
      · rintro _ ⟨⟩
        exact ⟨time, isTime, before⟩

/-- The merge, what is shown and the hooks of the merge change together. -/
theorem Coherent.absorb (coherent : Coherent state) {merged : Origin Record}
    {outlook : Option Agenda} {stage : Stage Content} (held : Held merged.find outlook)
    (shown : stage.find = contents merged.find) (unowned : merged.owned = false)
    (rises : ∀ name, Catalog.version (state.merged.find name) ≤ Catalog.version (merged.find name))
    (since : Since state.observed outlook)
    : Coherent { state with merged, outlook, stage } :=
  { coherent with
    merged := held
    copies := fun id replica isReplica =>
      { coherent.copies id replica isReplica with
        below := fun name =>
          ((coherent.copies id replica isReplica).below name).trans (rises name) }
    shown
    below := fun name => (coherent.below name).trans (rises name)
    unowned
    sinceMerged := since }

/-- The own source and its hooks change together. -/
theorem Coherent.write (coherent : Coherent state) {source : Origin Record}
    {agenda : Option Agenda} (held : Held source.find agenda) (owned : source.owned = true)
    (below : ∀ name, Catalog.version (source.find name) ≤ Catalog.version (state.merged.find name))
    (since : Since state.observed agenda)
    : Coherent { state with source, agenda } :=
  { coherent with source := held, below, owned, since }

variable {records : Name → Option Record} {name : Name} {incoming : Record} {now : Int}

/-- What a single change shows is what it merges. -/
theorem shown_update {change : Change} (combined : Combined (records name) incoming now change)
    : (if change.visible then Function.update (contents records) name change.record.content
        else contents records)
      = contents (Function.update records name (some change.record)) := by
  rw [contents_update, Option.bind_some]
  split
  · rfl
  rename_i unseen
  have same : change.record.content = contents records name := by
    have invisible : visible (records name) change.record = false := by
      rw [← combined.visible]
      simpa using unseen
    exact content_of_invisible invisible
  rw [same, Function.update_eq_self]

theorem rises_update {change : Change} (combined : Combined (records name) incoming now change)
    (other : Name)
    : Catalog.version (records other)
      ≤ Catalog.version (Function.update records name (some change.record) other) := by
  rw [Function.update_apply]
  split
  next same =>
    rw [same]
    change _ ≤ change.record.version
    rw [combined.version]
    exact le_max_left _ _
  · exact le_rfl

-- Edits

theorem find_commit (origin : Origin Record) (edit : Origin.Edit Record)
    : (edit.commit origin).find = Function.update origin.find edit.name edit.record := by
  funext other
  rw [Origin.find, (Origin.Edit.published origin edit).entries, Assoc.get?_amend,
    Function.update_apply]
  rfl

/-- An edit is revised by a record that is charged the same. -/
theorem revise_some {traits : Origin.Traits Record} {edit : Origin.Edit Record}
    {held record : Record} (isRecord : edit.record = some held)
    (same : traits.payload record = traits.payload held)
    : ∃ revised, edit.revise traits record = some revised
      ∧ revised.name = edit.name ∧ revised.record = some record
      ∧ revised.position = edit.position := by
  unfold Origin.Edit.revise
  rw [isRecord]
  dsimp only
  rw [if_neg (not_not.mpr same)]
  exact ⟨_, rfl, rfl, rfl, rfl⟩

structure Ready (state : State) (name : Name) (candidate : Record) (combined : Change)
    (prepared : Prepared)
    : Prop where
  source : prepared.source.Fits state.source
  sourceName : prepared.source.name = name
  sourceRecord : prepared.source.record = some candidate
  sourcePosition : prepared.source.position = state.source.position + 1
  merged : prepared.merged.Fits state.merged
  mergedName : prepared.merged.name = name
  mergedRecord : prepared.merged.record = some combined.record
  mergedPosition : prepared.merged.position = state.merged.position
  shown : prepared.stage.find
    = if combined.visible then Function.update state.stage.find name combined.record.content
      else state.stage.find

theorem ready_of_prepareChange {form : Origin.Form} {candidate : Record} {combined : Change}
    {steady : Int} {prepared : Prepared}
    (isPrepared : state.prepareChange layout name form candidate combined steady = .ok prepared)
    : Ready state name candidate combined prepared := by
  unfold prepareChange at isPrepared
  split at isPrepared
  · cases isPrepared
  next stage opened =>
  split at isPrepared
  · cases isPrepared
  next position isNext =>
  split at isPrepared
  · cases isPrepared
  next source isSource =>
  split at isPrepared
  · cases isPrepared
  next merged isMerged =>
  split at isPrepared
  · cases isPrepared
  rename_i last isLast
  cases isPrepared
  have next : position = state.source.position + 1 := by
    unfold Origin.next at isNext
    split at isNext
    · cases isNext
    · cases isNext
      rfl
  obtain ⟨fits, isName, isRecord, isPosition, _⟩ := Origin.fits_of_prepare isSource
  obtain ⟨fitsMerged, nameMerged, recordMerged, positionMerged, _⟩ :=
    Origin.fits_of_prepare isMerged
  refine ⟨fits, isName, isRecord, isPosition.trans next, fitsMerged, nameMerged, recordMerged,
    positionMerged, ?_⟩
  split at isLast
  next seen => rw [if_pos seen, Stage.find_change isLast, Stage.find_obtain opened]
  rename_i unseen
  cases isLast
  rw [if_neg unseen]
  exact Stage.find_obtain opened

/-- What a write does: the source takes the candidate at its next position. -/
structure Wrote (middle after : State) (name : Name) (request : Request) (edit : Origin.Edit Record)
    : Prop where
  fits : edit.Fits middle.source
  isName : edit.name = name
  record : ∃ candidate, edit.record = some candidate ∧ candidate.version = request.version
    ∧ candidate.valid = true
  position : edit.position = middle.source.position + 1
  source : after.source = edit.commit middle.source
  above : Catalog.version (middle.merged.find name) ≤ request.version
    ∧ Catalog.version (middle.source.find name) ≤ request.version
  rises : Rises middle after
  copies : after.replicas = middle.replicas
  observed : after.observed = middle.observed
  limits : after.limits = middle.limits

structure Written (before : State) (name : Name) (request : Request) (result : Reply × State)
    : Prop where
  coherent : Coherent result.2
  outcome : (Passes before result.2 ∧ result.1 ≠ .ok ())
    ∨ result.1 = .ok () ∧ ∃ middle edit, Passes before middle
      ∧ Wrote middle result.2 name request edit
  expected : ∀ fault, result.1 = .thrown fault → Expected fault

/-- The second check finds what the first one found, at a later time. -/
theorem Coherent.commitChange (coherent : Coherent state) {name : Name} {request : Request}
    {first : Clock.Reading} {candidate : Record} {combined : Change} {prepared : Prepared}
    {stamp : Clock.Reading}
    (known : Candidate request (state.source.find name) (state.merged.find name) first candidate)
    (merged : Record.merge (state.merged.find name) candidate first.time = .ok combined)
    (ready : Ready state name candidate combined prepared) (positive : 0 ≤ stamp.time)
    (opened : state.agenda.isSome = true) (openedMerged : state.outlook.isSome = true)
    : Written state name request
        (state.commitChange layout name (request.again candidate) prepared stamp) := by
  unfold State.commitChange
  cases isAgain : (request.again candidate).candidate (state.source.find name)
      (state.merged.find name) stamp with
  | error refused => exact ⟨coherent, .inl ⟨.refl _, (by rintro ⟨⟩)⟩, (by intros; contradiction)⟩
  | ok last =>
      have knownLast := candidate_of_request isAgain
      obtain ⟨sameVersion, sameValue⟩ := again_same known
      have version : last.version = candidate.version := by
        rw [knownLast.version, known.version, sameVersion]
      have value : last.value = candidate.value := by
        rw [knownLast.value, known.value, sameValue]
      obtain ⟨firstDeadline, firstLease, firstLasts⟩ := known.lasts
      obtain ⟨deadline, lease, lasts⟩ := knownLast.lasts
      obtain ⟨validCurrent, _, positiveFirst⟩ := valid_of_merge merged
      -- What the first merge found consistent is so at the second.
      have agrees : ∀ current, state.merged.find name = some current
          → current.version = candidate.version → current.value.isSome = true
          → current.value = candidate.value := by
        intro current isCurrent same isSome
        by_contra differs
        have present : candidate.value.isSome = true := by
          rw [(Record.valid_iff.mp known.valid).2.1, firstLease]
          rfl
        unfold Record.merge at merged
        rw [isCurrent] at merged
        split at merged
        · cases merged
        dsimp only at merged
        rw [if_pos ⟨same, isSome, present, differs⟩] at merged
        cases merged
      obtain ⟨initial, isInitial, initialVersion, initialValue, _⟩ :=
        merge_of_fresh validCurrent known.valid positiveFirst firstLease firstLasts
          known.aboveMerged agrees
      rw [merged] at isInitial
      cases isInitial
      obtain ⟨final, isFinal, finalVersion, finalValue, finalLease⟩ :=
        merge_of_fresh validCurrent knownLast.valid positive lease lasts knownLast.aboveMerged
          fun current isCurrent same isSome =>
            (agrees current isCurrent (same.trans version) isSome).trans value.symm
      dsimp only
      rw [isFinal]
      dsimp only
      obtain ⟨source, isSource, sourceName, sourceRecord, sourcePosition⟩ :=
        @revise_some layout.traits _ _ last ready.sourceRecord
          (by simp only [Layout.traits, Catalog.measure, value])
      obtain ⟨revised, isRevised, revisedName, revisedRecord, revisedPosition⟩ :=
        @revise_some layout.traits _ _ final.record ready.mergedRecord
          (by simp only [Layout.traits, Catalog.measure, finalValue, initialValue, value])
      rw [isSource, isRevised]
      dsimp only
      have findMerged : (revised.commit state.merged).find
          = Function.update state.merged.find name (some final.record) := by
        rw [find_commit, revisedName, revisedRecord, ready.mergedName]
      have findSource : (source.commit state.source).find
          = Function.update state.source.find name (some last) := by
        rw [find_commit, sourceName, sourceRecord, ready.sourceName]
      have isCombined := combined_of_merge isFinal
      have content : final.record.content = combined.record.content := by
        simp only [Record.content, finalVersion, finalValue, initialVersion, initialValue, version,
          value]
      have shown : prepared.stage.find = contents (revised.commit state.merged).find := by
        rw [ready.shown, findMerged, coherent.shown, shown_update (combined_of_merge merged),
          contents_update, contents_update, Option.bind_some, Option.bind_some, content]
      have rises : ∀ other, Catalog.version (state.merged.find other)
          ≤ Catalog.version ((revised.commit state.merged).find other) := by
        intro other
        rw [findMerged]
        exact rises_update isCombined other
      have absorbed := @Coherent.absorb state coherent (revised.commit state.merged)
        (Agenda.hold state.outlook name final.record.deadline) prepared.stage
        (by
          rw [findMerged]
          exact coherent.merged.set (by simpa using isCombined.valid) fun _ => openedMerged)
        shown ((Origin.Edit.published _ _).owned.trans coherent.unowned) rises
        (coherent.sinceMerged.hold _ _)
      have whole := @Coherent.write _ absorbed (source.commit state.source)
        (Agenda.hold state.agenda name last.deadline)
        (by
          rw [findSource]
          exact coherent.source.set (by simpa using knownLast.valid) fun _ => opened)
        ((Origin.Edit.published _ _).owned.trans coherent.owned)
        (by
          intro other
          dsimp only
          rw [findSource, findMerged, Function.update_apply, Function.update_apply]
          split
          · change last.version ≤ final.record.version
            rw [finalVersion]
          · exact coherent.below other)
        (coherent.since.hold _ _)
      refine ⟨whole, .inr ⟨rfl, state, source, .refl _, ?_⟩, (by intros; contradiction)⟩
      exact
        { fits := ready.source.revise isSource
          isName := sourceName.trans ready.sourceName
          record := ⟨last, sourceRecord, version.trans known.version, knownLast.valid⟩
          position := sourcePosition.trans ready.sourcePosition
          source := rfl
          above := ⟨known.version ▸ known.aboveMerged, known.version ▸ known.above⟩
          rises
          copies := rfl
          observed := rfl
          limits := rfl }

/-- What happened before a write is part of the time that passed. -/
theorem Written.after {first : State} {request : Request} {result : Reply × State}
    (passes : Passes before first) (written : Written first name request result)
    : Written before name request result := by
  refine ⟨written.coherent, ?_, written.expected⟩
  rcases written.outcome with ⟨passed, refused⟩ | ⟨accepted, middle, edit, passed, wrote⟩
  · exact .inl ⟨passes.trans passed, refused⟩
  · exact .inr ⟨accepted, middle, edit, passes.trans passed, wrote⟩

/-- A reading keeps everything but the observed time. -/
theorem Coherent.changeAt (coherent : Coherent state) {stamp : Clock.Reading}
    (observed : state.observed = some stamp.time) (name : Name) (request : Request)
    : Written state name request (state.changeAt layout name request stamp moment) := by
  unfold State.changeAt
  cases isCandidate : request.candidate (state.source.find name) (state.merged.find name) stamp with
  | error refused => exact ⟨coherent, .inl ⟨.refl _, nofun⟩, nofun⟩
  | ok candidate =>
      have known := candidate_of_request isCandidate
      dsimp only
      cases merged : Record.merge (state.merged.find name) candidate stamp.time with
      | error refused => exact ⟨coherent, .inl ⟨.refl _, nofun⟩, nofun⟩
      | ok combined =>
          dsimp only
          cases isPrepared : state.prepareChange layout name request.form candidate combined
              moment.steady with
          | error refused => exact ⟨coherent, .inl ⟨.refl _, nofun⟩, nofun⟩
          | ok prepared =>
              have ready := ready_of_prepareChange isPrepared
              obtain ⟨coherentSource, passesSource, isOpen⟩ := coherent.openAgenda observed
              have observedSource : (state.openAgenda stamp.time).observed = some stamp.time := by
                unfold State.openAgenda
                split <;> exact observed
              obtain ⟨coherentBoth, passesBoth, isOpenMerged⟩ :=
                coherentSource.openOutlook observedSource
              have passes := passesSource.trans passesBoth
              dsimp only
              cases isRead : ((state.openAgenda stamp.time).openOutlook stamp.time).reading
                  (moment.sample 1) with
              | none => exact ⟨coherentBoth, .inl ⟨passes, nofun⟩, nofun⟩
              | some pair =>
                  obtain ⟨final, last⟩ := pair
                  obtain ⟨coherentLast, passesLast, isLast, positive⟩ :=
                    coherentBoth.reading isRead
                  refine .after (passes.trans passesLast) ?_
                  have sameSource : last.source = state.source ∧ last.agenda.isSome = true := by
                    rw [isLast]
                    unfold State.openOutlook
                    split <;> exact ⟨by unfold State.openAgenda; split <;> rfl, isOpen⟩
                  have sameMerged : last.merged = state.merged ∧ last.stage = state.stage := by
                    rw [isLast]
                    unfold State.openOutlook State.openAgenda
                    split <;> split <;> exact ⟨rfl, rfl⟩
                  have isReady : Ready last name candidate combined prepared := by
                    refine ⟨?_, ready.sourceName, ready.sourceRecord, ?_, ?_,
                      ready.mergedName, ready.mergedRecord, ?_, ?_⟩
                    · exact sameSource.1 ▸ ready.source
                    · rw [sameSource.1, ready.sourcePosition]
                    · exact sameMerged.1 ▸ ready.merged
                    · rw [sameMerged.1, ready.mergedPosition]
                    · rw [sameMerged.2, ready.shown]
                  refine @Coherent.commitChange layout last coherentLast name request stamp
                    candidate combined prepared final ?_ ?_ isReady positive sameSource.2 ?_
                  · rw [sameSource.1, sameMerged.1]
                    exact known
                  · rw [sameMerged.1]
                    exact merged
                  · rw [isLast]
                    exact isOpenMerged

/-- A write reads the clock, ends what is due, and is checked twice. -/
theorem Coherent.change (coherent : Coherent state) (name : Name) (request : Request)
    : Written state name request (state.change layout name request moment) := by
  unfold State.change
  split
  · exact ⟨coherent, .inl ⟨.refl _, nofun⟩, nofun⟩
  cases isRead : state.reading (moment.sample 0) with
  | none => exact ⟨coherent, .inl ⟨.refl _, nofun⟩, nofun⟩
  | some pair =>
      obtain ⟨stamp, next⟩ := pair
      obtain ⟨coherentNext, passes, isNext, _⟩ := coherent.reading isRead
      have observed : next.observed = some stamp.time := by rw [isNext]
      have advances := @Coherent.advance layout stamp.time next moment coherentNext observed none
      dsimp only
      generalize next.advance layout moment stamp.time none = result at advances
      obtain ⟨later, fault⟩ := result
      have passed := passes.trans (advances.passes observed)
      cases fault with
      | some fault =>
          refine ⟨advances.coherent, .inl ⟨passed, nofun⟩, ?_⟩
          rintro _ ⟨⟩
          exact advances.expected fault rfl
      | none =>
          refine .after passed ?_
          exact advances.coherent.changeAt (advances.observed.trans observed) name request

structure Rests (before : State) (result : Reply × State) : Prop where
  coherent : Coherent result.2
  passes : Passes before result.2
  expected : ∀ fault, result.1 = .thrown fault → Expected fault

/-- An operation that only reads the clock and ends what is due. -/
theorem Coherent.elapse (coherent : Coherent state) {sample : Option Clock.Reading}
    {stamp : Clock.Reading} {next : State} (isRead : state.reading sample = some (stamp, next))
    : Rests state
        (match next.advance layout moment stamp.time none with
        | (later, some fault) => (.thrown fault, later)
        | (later, none) => (.ok (), later)) := by
  obtain ⟨coherentNext, passes, isNext, _⟩ := coherent.reading isRead
  have observed : next.observed = some stamp.time := by rw [isNext]
  have advances := @Coherent.advance layout stamp.time next moment coherentNext observed none
  generalize next.advance layout moment stamp.time none = result at advances
  obtain ⟨later, fault⟩ := result
  have passed := passes.trans (advances.passes observed)
  cases fault with
  | some fault =>
      refine ⟨advances.coherent, passed, ?_⟩
      rintro _ ⟨⟩
      exact advances.expected fault rfl
  | none => exact ⟨advances.coherent, passed, nofun⟩

theorem Coherent.tick (coherent : Coherent state)
    : Rests state (state.tick layout moment) := by
  unfold State.tick
  split
  · exact ⟨coherent, .refl _, nofun⟩
  cases isRead : state.reading (moment.sample 0) with
  | none =>
      refine ⟨coherent, .refl _, ?_⟩
      rintro _ ⟨⟩
      exact ⟨_, rfl⟩
  | some pair =>
      obtain ⟨stamp, next⟩ := pair
      exact coherent.elapse isRead

theorem Coherent.read (coherent : Coherent state)
    : Rests state (state.read layout moment) := by
  unfold State.read
  cases isRead : state.reading (moment.sample 0) with
  | none => exact ⟨coherent, .refl _, nofun⟩
  | some pair =>
      obtain ⟨stamp, next⟩ := pair
      obtain ⟨coherentNext, passes, _⟩ := coherent.reading isRead
      dsimp only
      split
      · exact ⟨coherentNext, passes, nofun⟩
      cases isAgain : next.reading (moment.sample 1) with
      | none => exact ⟨coherentNext, passes, nofun⟩
      | some pair =>
          obtain ⟨again, later⟩ := pair
          have rests := @Coherent.elapse layout next moment coherentNext _ _ _ isAgain
          exact ⟨rests.coherent, passes.trans rests.passes, rests.expected⟩

end State

end Astra.Catalog
