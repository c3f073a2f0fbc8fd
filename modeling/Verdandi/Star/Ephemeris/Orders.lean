import Verdandi.Star.Ephemeris.Correctness

/-! The orders of updates and renewals. Whatever a client repeats, and in whatever order it arrives, the
data are those of the highest update, and each renewal prolongs the lease once.
-/

namespace Astra.Ephemeris.State

open Support
open Origin (Name)

variable {layout : Layout} {state next : State} {moment : Moment} {now : Int} {name : Name}
  {stamp : Clock.Reading} {request : Request} {reply : Reply} {first last old : Record}

-- One request

/-- Only the end of leases takes records out of the own source. -/
theorem find_advanceSource (state : State) (moment : Moment) (now : Int) (name : Name)
    : (state.advanceSource layout moment now).1.source.find name = state.source.find name
      ∨ (state.advanceSource layout moment now).1.source.find name = none := by
  rw [advanceSource]
  split
  · exact .inl rfl
  rename_i agenda isAgenda
  refine @Agenda.advance_keeps _ (fire layout moment.steady) moment.source (state.source, state.stage)
    agenda now
    (fun pair => pair.1.find name = state.source.find name ∨ pair.1.find name = none) ?_ ?_ (.inl rfl)
  · intro pair agenda place after kept ended
    rw [fire] at ended
    split at ended
    · cases ended
    split at ended
    · cases ended
    split at ended
    next erasure stage erased =>
      cases ended
      have without := ((erase_spec erased).2 erasure rfl).2.1
      dsimp only
      rw [without, Function.update_apply]
      split
      · exact .inr rfl
      · exact kept
    · cases ended
    · cases ended
  · intro pair agenda place fault after kept failed
    rw [fire] at failed
    split at failed
    · cases failed
      exact kept
    split at failed
    · cases failed
    split at failed
    · cases failed
    · cases failed
      exact kept
    · cases failed
      exact kept

theorem source_advanceReplica (state : State) (moment : Moment) (now : Int) (id : Bytes)
    : (state.advanceReplica layout moment now id).1.source = state.source := by
  rw [advanceReplica]
  split
  · rfl
  split <;> rfl

theorem source_forget (state : State) (id : Bytes) : (state.forget id).source = state.source := by
  rw [forget]
  split
  · rfl
  split <;> rfl

/-- Copies have sources of their own. Witness: induction over the copies. -/
theorem source_advanceReplicas (state : State) (moment : Moment) (now : Int) (held : Option Bytes)
    (ids : List Bytes)
    : (advanceReplicas layout moment now held ids state).1.source = state.source := by
  induction ids generalizing state with
  | nil => rfl
  | cons id rest ih =>
      rw [advanceReplicas]
      split
      · exact ih state
      split
      · exact ih state
      split
      · exact ih state
      have first := @source_advanceReplica layout state moment now id
      split
      next advanced =>
        rw [advanced] at first
        exact first
      rename_i advanced
      rw [advanced] at first
      rw [ih, source_forget]
      exact first

theorem find_advance (state : State) (moment : Moment) (now : Int) (held : Option Bytes) (name : Name)
    : (state.advance layout moment now held).1.source.find name = state.source.find name
      ∨ (state.advance layout moment now held).1.source.find name = none := by
  rw [advance]
  split
  · exact .inl rfl
  rw [sweep]
  have copies := @source_advanceReplicas layout state moment now held state.identities
  split
  next swept fault blocked advanced =>
    rw [advanced] at copies
    exact .inl (by rw [← copies])
  rename_i swept blocked advanced
  rw [advanced] at copies
  have own := @find_advanceSource layout swept moment now name
  rw [show swept.source = state.source from copies] at own
  split
  next isLast =>
    rw [isLast] at own
    exact own
  rename_i isLast
  rw [isLast] at own
  exact own

/-- What a request leads to from a record: a refusal leaves it, and what is accepted is a candidate. -/
structure Leads (request : Request) (reply : Reply) (before after : Record) : Prop where
  refused : reply ≠ .ok () → after = before
  accepted : reply = .ok ()
    → ∃ stamp change, request.candidate before stamp = .ok change ∧ after = change.record

/-- A change ends with a candidate of the record. Witness: the branches in order. -/
theorem changeAt_leads (found : state.source.find name = some old)
    (changed : state.changeAt layout name request stamp moment = (reply, next))
    : ∃ record, next.source.find name = some record ∧ Leads request reply old record := by
  have refuse {failed : Reply} (bad : failed ≠ .ok ()) {after : State}
      (same : after.source = state.source)
      : ∃ record, after.source.find name = some record ∧ Leads request failed old record :=
    ⟨old, same ▸ found, fun _ => rfl, fun good => absurd good bad⟩
  rw [changeAt, found] at changed
  dsimp only at changed
  split at changed
  · cases changed
    exact refuse (by rintro ⟨⟩) rfl
  rename_i change accepted
  split at changed
  next unchanged =>
    have same : change.record = old := by
      simp only [Bool.not_eq_true'] at unchanged
      cases request with
      | update data order => exact (update_ok accepted).1.same unchanged
      | renew order => exact (renew_ok accepted).1.same unchanged
    have leaves := (@confirm_cases state next moment name old reply changed).1
    refine ⟨old, by rw [leaves.source, found], fun _ => rfl, fun _ => ?_⟩
    exact ⟨stamp, change, accepted, same.symm⟩
  split at changed
  · cases changed
    exact refuse (by rintro ⟨⟩) rfl
  split at changed
  · cases changed
    exact refuse (by rintro ⟨⟩) rfl
  split at changed
  · cases changed
    exact refuse (by rintro ⟨⟩) rfl
  rename_i edit isPrepared
  split at changed
  · cases changed
    exact refuse (by rintro ⟨⟩) rfl
  split at changed
  next shown _ _ =>
    rw [commitChange] at changed
    split at changed
    · cases changed
      exact refuse (by rintro ⟨⟩) rfl
    rename_i final read isRead
    have isFinal := (reading_some isRead).2
    split at changed
    · cases changed
      exact refuse (by rintro ⟨⟩) (by rw [isFinal])
    rename_i again isAgain
    split at changed
    · cases changed
      exact refuse (by rintro ⟨⟩) (by rw [isFinal])
    rename_i revised isRevised
    cases changed
    have source : read.source = state.source := by rw [isFinal]
    refine ⟨again.record, ?_, (by intros; contradiction), fun _ => ?_⟩
    · dsimp only
      rw [source, find_revise isPrepared isRevised, Function.update_self]
    · cases request with
      | renew order => exact ⟨final, again, isAgain, rfl⟩
      | update data order =>
          rw [Request.again] at isAgain
          cases isActive : active old final with
          | error refused =>
              rw [isActive] at isAgain
              cases isAgain
          | ok lasting =>
              rw [isActive] at isAgain
              cases isAgain
              exact ⟨stamp, change, accepted, rfl⟩
  · cases changed
    exact refuse (by rintro ⟨⟩) rfl

theorem changeAt_ended (missing : state.source.find name = none)
    : state.changeAt layout name request stamp moment = (.error .ended, state) := by
  rw [changeAt, missing]

/-- A request that finds a registration alive leaves it alive or has ended it, and one that does not find
it brings none. Witness: the end of leases, and then the change.
-/
theorem change_leads
    (changed : state.change layout name request moment = (reply, next)) {after : Record}
    (lives : next.source.find name = some after)
    : ∃ before, state.source.find name = some before ∧ Leads request reply before after := by
  rw [change] at changed
  split at changed
  · cases changed
    exact ⟨after, lives, fun _ => rfl, nofun⟩
  split at changed
  · cases changed
    exact ⟨after, lives, fun _ => rfl, nofun⟩
  rename_i stamp read isRead
  have source : read.source = state.source := by rw [(reading_some isRead).2]
  have swept := @find_advance layout read moment stamp.time none name
  rw [source] at swept
  have live {record : Record} {other : State} (found : other.source.find name = some record)
      (cases_ : other.source.find name = state.source.find name ∨ other.source.find name = none)
      : state.source.find name = some record := by
    rcases cases_ with same | gone
    · rw [← same, found]
    · rw [found] at gone
      cases gone
  split at changed
  next advanced fault isAdvanced =>
    rw [isAdvanced] at swept
    cases changed
    exact ⟨after, live lives swept, fun _ => rfl, nofun⟩
  rename_i advanced isAdvanced
  rw [isAdvanced] at swept
  cases found : advanced.source.find name with
  | none =>
      rw [changeAt_ended found] at changed
      cases changed
      rw [found] at lives
      cases lives
  | some old =>
      obtain ⟨record, isRecord, leads⟩ := changeAt_leads found changed
      rw [isRecord] at lives
      cases lives
      exact ⟨old, live found swept, leads⟩

-- What a request may change

variable {data : Bytes} {order : Nat}

/-- What an accepted update does to a registration. -/
theorem update_record {change : Change}
    (accepted : Ephemeris.update old data order stamp = .ok change)
    : old.update ≤ order ∧ change.record = { old with update := order, data }
      ∧ (order = old.update → data = old.data) := by
  rw [Ephemeris.update] at accepted
  split at accepted
  · cases accepted
  split at accepted
  · cases accepted
  split at accepted
  · cases accepted
  rename_i onwards
  split at accepted
  next again =>
    split at accepted
    next same =>
      cases accepted
      exact ⟨again.ge, by rw [again, same], fun _ => same⟩
    · cases accepted
  rename_i other
  cases accepted
  exact ⟨Nat.le_of_not_lt onwards, rfl, fun again => absurd again other⟩

/-- What an accepted renewal does to a registration: the same order again does nothing. -/
theorem renew_record {change : Change} (accepted : Ephemeris.renew old order stamp = .ok change)
    : old.renewal ≤ order ∧ (order = old.renewal → change.record = old)
      ∧ ∃ deadline, old.deadline ≤ deadline
        ∧ change.record = { old with renewal := order, deadline } := by
  rw [Ephemeris.renew] at accepted
  split at accepted
  · cases accepted
  split at accepted
  · cases accepted
  split at accepted
  · cases accepted
  rename_i onwards
  split at accepted
  next again =>
    cases accepted
    exact ⟨again.ge, fun _ => rfl, old.deadline, le_rfl, by rw [again]⟩
  rename_i other
  split at accepted
  · cases accepted
  rename_i deadline isDeadline
  cases accepted
  exact ⟨Nat.le_of_not_lt onwards, fun again => absurd again other, _, le_max_left _ _, rfl⟩

-- Runs of requests

def serve (layout : Layout) (name : Name) (state : State) (calls : List (Request × Moment)) : State :=
  calls.foldl (fun state call => (state.change layout name call.1 call.2).2) state

def Takes (layout : Layout) (name : Name) (state : State) (calls before : List (Request × Moment))
    (request : Request)
    : Prop :=
  ∃ moment after, calls = before ++ (request, moment) :: after
    ∧ ((state.serve layout name before).change layout name request moment).1 = .ok ()

def Prolongs (layout : Layout) (name : Name) (state : State) (calls before : List (Request × Moment))
    (order : Nat)
    : Prop :=
  ∃ moment after old new, calls = before ++ (.renew order, moment) :: after
    ∧ (state.serve layout name before).source.find name = some old
    ∧ (state.serve layout name (before ++ [(.renew order, moment)])).source.find name = some new
    ∧ new.deadline ≠ old.deadline

structure Finds (layout : Layout) (name : Name) (state : State) (moment : Moment) (old : Record)
    : Prop where
  valid : name.scope.valid = true ∧ valid name.key = true
  reaches : ∃ stamp read swept, state.reading (moment.sample 0) = some (stamp, read)
    ∧ read.advance layout moment stamp.time none = (swept, none)
    ∧ swept.source.find name = some old ∧ active old stamp = .ok ()
    ∧ ∃ final ended, swept.reading (moment.sample 1) = some (final, ended) ∧ active old final = .ok ()

variable {calls before after : List (Request × Moment)}

theorem serve_append (calls more : List (Request × Moment))
    : state.serve layout name (calls ++ more)
      = (state.serve layout name calls).serve layout name more :=
  List.foldl_append

/-- The requests of a longer run are those of the shorter, and the last. -/
theorem takes_append {call : Request × Moment}
    : Takes layout name state (calls ++ [call]) before request
      ↔ Takes layout name state calls before request
        ∨ (before = calls ∧ call.1 = request
          ∧ ((state.serve layout name calls).change layout name call.1 call.2).1 = .ok ()) := by
  constructor
  · rintro ⟨moment, after, isSplit, accepted⟩
    rcases List.eq_nil_or_concat after with rfl | ⟨rest, last, rfl⟩
    · obtain ⟨rfl, isCall⟩ := List.append_inj' isSplit rfl
      cases isCall
      exact .inr ⟨rfl, rfl, accepted⟩
    · rw [List.concat_eq_append, ← List.cons_append, ← List.append_assoc] at isSplit
      obtain ⟨rfl, _⟩ := List.append_inj' isSplit rfl
      exact .inl ⟨moment, rest, rfl, accepted⟩
  · rintro (⟨moment, after, rfl, accepted⟩ | ⟨rfl, rfl, accepted⟩)
    · exact ⟨moment, after ++ [call], by simp, accepted⟩
    · exact ⟨call.2, [], rfl, accepted⟩

structure Grows (before after : Record) : Prop where
  deadline : before.deadline ≤ after.deadline
  update : before.update ≤ after.update
  renewal : before.renewal ≤ after.renewal

theorem Leads.grows (leads : Leads request reply first last) : Grows first last := by
  by_cases done : reply = .ok ()
  · obtain ⟨stamp, change, accepted, rfl⟩ := leads.accepted done
    cases request with
    | update data order =>
        obtain ⟨least, isRecord, _⟩ := update_record accepted
        rw [isRecord]
        exact ⟨le_rfl, least, le_rfl⟩
    | renew order =>
        obtain ⟨least, _, deadline, later, isRecord⟩ := renew_record accepted
        rw [isRecord]
        exact ⟨later, le_rfl, least⟩
  · rw [leads.refused done]
    exact ⟨le_rfl, le_rfl, le_rfl⟩

/-- A registration that is alive after a run was alive before it. Witness: induction over the requests. -/
theorem grows_of_serve (ends : (state.serve layout name calls).source.find name = some last)
    : ∃ first, state.source.find name = some first ∧ Grows first last := by
  induction calls using List.reverseRecOn generalizing last with
  | nil => exact ⟨last, ends, le_rfl, le_rfl, le_rfl⟩
  | append_singleton calls call ih =>
      rw [serve_append] at ends
      obtain ⟨middle, isMiddle, leads⟩ := change_leads rfl ends
      obtain ⟨first, begins, grows⟩ := ih isMiddle
      have step := leads.grows
      exact ⟨first, begins, grows.deadline.trans step.deadline, grows.update.trans step.update,
        grows.renewal.trans step.renewal⟩

/-- The data are those of an accepted update, the highest one, or those of the beginning. -/
structure Latest (layout : Layout) (name : Name) (state : State) (calls : List (Request × Moment))
    (first last : Record)
    : Prop where
  highest : ∀ before data order, Takes layout name state calls before (.update data order)
    → first.update ≤ order ∧ order ≤ last.update ∧ (order = last.update → data = last.data)
  taken : (∃ before, Takes layout name state calls before (.update last.data last.update))
    ∨ (last.update = first.update ∧ last.data = first.data)

/-- Witness: induction over the requests. -/
theorem latest_of_serve (begins : state.source.find name = some first)
    (ends : (state.serve layout name calls).source.find name = some last)
    : Latest layout name state calls first last := by
  induction calls using List.reverseRecOn generalizing last with
  | nil =>
      have same : first = last := Option.some.inj (begins.symm.trans ends)
      refine ⟨?_, .inr ⟨by rw [same], by rw [same]⟩⟩
      rintro before data order ⟨moment, after, isSplit, _⟩
      cases before <;> cases isSplit
  | append_singleton calls call ih =>
      have run := ends
      rw [serve_append] at run
      obtain ⟨middle, isMiddle, leads⟩ := change_leads rfl run
      have latest := ih isMiddle
      obtain ⟨first', begins', grows⟩ := grows_of_serve isMiddle
      obtain rfl : first = first' := Option.some.inj (begins.symm.trans begins')
      have step := leads.grows
      by_cases done : ((state.serve layout name calls).change layout name call.1 call.2).1 = .ok ()
      · obtain ⟨stamp, change, accepted, rfl⟩ := leads.accepted done
        obtain ⟨request, moment⟩ := call
        cases request with
        | update data order =>
            obtain ⟨least, isRecord, again⟩ := update_record accepted
            constructor
            · intro before data' order' takes
              rw [isRecord]
              rcases takes_append.mp takes with earlier | ⟨_, isRequest, _⟩
              · obtain ⟨from_, most, same⟩ := latest.highest before data' order' earlier
                refine ⟨from_, most.trans least, fun equal => ?_⟩
                have isOrder : order = middle.update := by
                  dsimp only at equal
                  omega
                rw [same (equal.trans isOrder)]
                exact (again isOrder).symm
              · cases isRequest
                exact ⟨grows.update.trans least, le_rfl, fun _ => rfl⟩
            · refine .inl ⟨calls, takes_append.mpr (.inr ⟨rfl, ?_, done⟩)⟩
              rw [isRecord]
        | renew order =>
            obtain ⟨_, _, deadline, _, isRecord⟩ := renew_record accepted
            constructor
            · intro before data' order' takes
              rw [isRecord]
              rcases takes_append.mp takes with earlier | ⟨_, isRequest, _⟩
              · exact latest.highest before data' order' earlier
              · cases isRequest
            · rw [isRecord]
              refine latest.taken.imp (fun taken => ?_) id
              obtain ⟨before, takes⟩ := taken
              exact ⟨before, takes_append.mpr (.inl takes)⟩
      · rw [leads.refused done]
        constructor
        · intro before data' order' takes
          rcases takes_append.mp takes with earlier | ⟨_, _, accepted⟩
          · exact latest.highest before data' order' earlier
          · exact absurd accepted done
        · refine latest.taken.imp (fun taken => ?_) id
          obtain ⟨before, takes⟩ := taken
          exact ⟨before, takes_append.mpr (.inl takes)⟩

/-- A renewal moves the deadline to a higher order than all before it. -/
theorem renewal_of_prolongs {moment : Moment} {new : Record}
    (isOld : (state.serve layout name before).source.find name = some old)
    (isNew : (state.serve layout name (before ++ [(.renew order, moment)])).source.find name = some new)
    (moved : new.deadline ≠ old.deadline)
    : old.renewal < order ∧ new.renewal = order := by
  rw [serve_append] at isNew
  obtain ⟨middle, isMiddle, leads⟩ := change_leads rfl isNew
  obtain rfl : old = middle := Option.some.inj (isOld.symm.trans isMiddle)
  by_cases done
      : ((state.serve layout name before).change layout name (.renew order) moment).1 = .ok ()
  · obtain ⟨stamp, change, accepted, rfl⟩ := leads.accepted done
    obtain ⟨least, again, deadline, _, isRecord⟩ := renew_record accepted
    refine ⟨lt_of_le_of_ne least fun same => moved ?_, by rw [isRecord]⟩
    rw [again same.symm]
  · rw [leads.refused done] at moved
    exact absurd rfl moved

/-- A renewal that has moved the deadline moves it no more. -/
theorem prolongs_earlier {before' : List (Request × Moment)}
    (one : Prolongs layout name state calls before order)
    (other : Prolongs layout name state calls before' order)
    : before'.length ≤ before.length := by
  by_contra longer
  obtain ⟨moment, after, old, new, isSplit, isOld, isNew, moved⟩ := one
  obtain ⟨moment', after', old', new', isSplit', isOld', isNew', moved'⟩ := other
  have isPrefix : before ++ [(.renew order, moment)] <+: before' := by
    refine @List.prefix_of_prefix_length_le _ _ _ calls ⟨after, by simp [isSplit]⟩ ⟨_, isSplit'.symm⟩ ?_
    simp only [List.length_append, List.length_singleton]
    omega
  obtain ⟨rest, rfl⟩ := isPrefix
  have run := isOld'
  rw [serve_append] at run
  obtain ⟨middle, isMiddle, grows⟩ := grows_of_serve run
  obtain rfl : new = middle := Option.some.inj (isNew.symm.trans isMiddle)
  have first := renewal_of_prolongs isOld isNew moved
  have second := renewal_of_prolongs isOld' isNew' moved'
  have between := grows.renewal
  omega

def Request.Spares (request : Request) (before after : Record) : Prop :=
  match request with
  | .update _ _ => after.renewal = before.renewal ∧ after.deadline = before.deadline
  | .renew _ => after.update = before.update ∧ after.data = before.data

theorem Leads.spares (leads : Leads request reply first last) : request.Spares first last := by
  by_cases done : reply = .ok ()
  · obtain ⟨stamp, change, accepted, rfl⟩ := leads.accepted done
    cases request with
    | update data order => simp [Request.Spares, (update_record accepted).2.1]
    | renew order =>
        obtain ⟨_, _, deadline, _, isRecord⟩ := renew_record accepted
        simp [Request.Spares, isRecord]
  · rw [leads.refused done]
    cases request <;> exact ⟨rfl, rfl⟩

-- Requests that come again

/-- A call that finds a registration does what `changeAt` does. -/
theorem Finds.change (finds : Finds layout name state moment old) (request : Request)
    : ∃ (swept : State) (stamp final : Clock.Reading) (ended : State),
      swept.source.find name = some old ∧ active old stamp = .ok ()
      ∧ swept.reading (moment.sample 1) = some (final, ended) ∧ active old final = .ok ()
      ∧ state.change layout name request moment = swept.changeAt layout name request stamp moment := by
  obtain ⟨⟨isScope, isKey⟩, stamp, read, swept, isRead, advanced, found, isActive, final, ended, isFinal,
    lasts⟩ := finds
  refine ⟨swept, stamp, final, ended, found, isActive, isFinal, lasts, ?_⟩
  rw [State.change, if_neg (by simp [isScope, isKey]), isRead]
  dsimp only
  rw [advanced]

/-- A candidate that changes nothing is confirmed. -/
theorem Finds.confirms (finds : Finds layout name state moment old)
    (same : ∀ stamp, active old stamp = .ok ()
      → request.candidate old stamp = .ok { record := old, changed := false, visible := false })
    : (state.change layout name request moment).1 = .ok ()
      ∧ (state.change layout name request moment).2.source.find name = some old := by
  obtain ⟨swept, stamp, final, ended, found, isActive, isFinal, lasts, does⟩ := finds.change request
  have source : ended.source = swept.source := by rw [(reading_some isFinal).2]
  have confirmed : swept.changeAt layout name request stamp moment = swept.confirm old moment := by
    simp [changeAt, found, same stamp isActive]
  have ends : swept.confirm old moment = (.ok (), ended) := by
    simp [confirm, isFinal, lasts]
  rw [does, confirmed, ends]
  exact ⟨rfl, by rw [source, found]⟩

/-- A candidate that is refused leaves the registration. -/
theorem Finds.refuses (finds : Finds layout name state moment old) {refused : Ephemeris.Error}
    (fails : ∀ stamp, active old stamp = .ok () → request.candidate old stamp = .error refused)
    : (state.change layout name request moment).1 = .error (.ofRule refused)
      ∧ (state.change layout name request moment).2.source.find name = some old := by
  obtain ⟨swept, stamp, final, ended, found, isActive, _, _, does⟩ := finds.change request
  have ends : swept.changeAt layout name request stamp moment = (.error (.ofRule refused), swept) := by
    simp [changeAt, found, fails stamp isActive]
  rw [does, ends]
  exact ⟨rfl, found⟩

-- The law

/-- What holds of a run of requests for one registration that lives through it. -/
structure OrderLaw (layout : Layout) (name : Name) (state : State) (calls : List (Request × Moment))
    (first last : Record) : Prop where
  /-- The data are those of the highest accepted update. -/
  highest : ∀ before data order, Takes layout name state calls before (.update data order)
    → (∀ before' data' order', Takes layout name state calls before' (.update data' order')
      → order' ≤ order)
    → last.data = data ∧ last.update = order
  /-- Without an accepted update the data stay. -/
  untouched : (∀ before data order, ¬Takes layout name state calls before (.update data order))
    → last.data = first.data ∧ last.update = first.update
  /-- The last order again is confirmed for the same data, and refused for other data. -/
  again : ∀ before old data order moment, before <+: calls
    → Finds layout name (state.serve layout name before) moment old
    → order = old.update → 0 < order
    → ((state.serve layout name before).change layout name (.update data order) moment).2.source.find
        name = some old
      ∧ (data = old.data
        → ((state.serve layout name before).change layout name (.update data order) moment).1
          = .ok ())
      ∧ (data ≠ old.data → ∃ refused,
        ((state.serve layout name before).change layout name (.update data order) moment).1
          = .error refused)
  /-- An order that is behind is refused. -/
  behind : ∀ before old data order moment, before <+: calls
    → Finds layout name (state.serve layout name before) moment old
    → order < old.update
    → ((state.serve layout name before).change layout name (.update data order) moment).2.source.find
        name = some old
      ∧ ∃ refused,
        ((state.serve layout name before).change layout name (.update data order) moment).1
          = .error refused
  /-- Each renewal moves the deadline at most once. -/
  once : ∀ before before' order, Prolongs layout name state calls before order
    → Prolongs layout name state calls before' order → before = before'
  /-- Updates and renewals leave each other alone. -/
  spares : ∀ before request moment after, calls = before ++ (request, moment) :: after
    → ∃ old new, (state.serve layout name before).source.find name = some old
      ∧ (state.serve layout name (before ++ [(request, moment)])).source.find name = some new
      ∧ request.Spares old new
  /-- Whether an update is accepted, and what it makes, does not depend on the order of renewals. -/
  update_blind : ∀ (old : Record) renewal data order stamp,
    Ephemeris.update { old with renewal } data order stamp
      = (Ephemeris.update old data order stamp).map fun change =>
        { change with record := { change.record with renewal } }
  /-- Nor a renewal on the order of updates. -/
  renew_blind : ∀ (old : Record) update order stamp, Ephemeris.renew { old with update } order stamp
      = (Ephemeris.renew old order stamp).map fun change =>
        { change with record := { change.record with update } }
  /-- The deadline never goes back. -/
  grows : ∀ before middle, before ++ middle <+: calls
    → ∃ old new, (state.serve layout name before).source.find name = some old
      ∧ (state.serve layout name (before ++ middle)).source.find name = some new
      ∧ old.deadline ≤ new.deadline

theorem update_blind (old : Record) (renewal : Nat) (data : Bytes) (order : Nat)
    (stamp : Clock.Reading)
    : Ephemeris.update { old with renewal } data order stamp
      = (Ephemeris.update old data order stamp).map fun change =>
        { change with record := { change.record with renewal } } := by
  have isActive : active { old with renewal } stamp = active old stamp := rfl
  simp only [Ephemeris.update, isActive]
  repeat' split
  all_goals rfl

theorem renew_blind (old : Record) (update order : Nat) (stamp : Clock.Reading)
    : Ephemeris.renew { old with update } order stamp
      = (Ephemeris.renew old order stamp).map fun change =>
        { change with record := { change.record with update } } := by
  have isActive : active { old with update } stamp = active old stamp := rfl
  simp only [Ephemeris.renew, isActive]
  repeat' split
  all_goals rfl

/-- A registration that is alive at the end was alive all the time. -/
theorem lives_of_prefix (ends : (state.serve layout name calls).source.find name = some last)
    (isPrefix : before <+: calls)
    : ∃ middle, (state.serve layout name before).source.find name = some middle := by
  obtain ⟨rest, rfl⟩ := isPrefix
  rw [serve_append] at ends
  obtain ⟨middle, isMiddle, _⟩ := grows_of_serve ends
  exact ⟨middle, isMiddle⟩

theorem Finds.again (finds : Finds layout name state moment old) (isLast : order = old.update)
    (positive : 0 < order)
    : (state.change layout name (.update data order) moment).2.source.find name = some old
      ∧ (data = old.data → (state.change layout name (.update data order) moment).1 = .ok ())
      ∧ (data ≠ old.data → ∃ refused,
        (state.change layout name (.update data order) moment).1 = .error refused) := by
  by_cases same : data = old.data
  · have confirms : ∀ stamp, active old stamp = .ok ()
        → (Request.update data order).candidate old stamp
          = .ok { record := old, changed := false, visible := false } := by
      intro stamp isActive
      have fitting := (before_of_active isActive).2
      simp only [Record.valid, Bool.and_eq_true] at fitting
      simp [Request.candidate, Ephemeris.update, isActive, same, fitting.1.1.1.2, isLast,
        (isLast ▸ positive).ne']
    obtain ⟨accepted, stays⟩ := finds.confirms confirms
    exact ⟨stays, fun _ => accepted, fun other => absurd same other⟩
  · have fails : ∀ stamp, active old stamp = .ok ()
        → (Request.update data order).candidate old stamp
          = .error (if fits data then .conflict else .input) := by
      intro stamp isActive
      cases fitting : fits data <;>
        simp [Request.candidate, Ephemeris.update, isActive, same, fitting, isLast,
          (isLast ▸ positive).ne']
    obtain ⟨refused, stays⟩ := finds.refuses fails
    exact ⟨stays, fun is => absurd is same, fun _ => ⟨_, refused⟩⟩

theorem Finds.behind (finds : Finds layout name state moment old) (isBehind : order < old.update)
    : (state.change layout name (.update data order) moment).2.source.find name = some old
      ∧ ∃ refused, (state.change layout name (.update data order) moment).1 = .error refused := by
  have fails : ∀ stamp, active old stamp = .ok () → (Request.update data order).candidate old stamp
        = .error (if fits data = false ∨ order = 0 then .input else .obsolete) := by
    intro stamp isActive
    by_cases malformed : fits data = false ∨ order = 0 <;>
      simp [Request.candidate, Ephemeris.update, isActive, malformed, isBehind]
  obtain ⟨refused, stays⟩ := finds.refuses fails
  exact ⟨stays, _, refused⟩

/-- Requests for one registration obey the law of orders, in whatever order they come and however often
they are repeated.
-/
theorem order_law (begins : state.source.find name = some first)
    (ends : (state.serve layout name calls).source.find name = some last)
    : OrderLaw layout name state calls first last where
  highest before data order takes most := by
    have latest := latest_of_serve begins ends
    obtain ⟨least, below, same⟩ := latest.highest before data order takes
    have isOrder : order = last.update := by
      rcases latest.taken with ⟨before', taken⟩ | ⟨start, _⟩
      · have := most _ _ _ taken
        omega
      · omega
    exact ⟨(same isOrder).symm, isOrder.symm⟩
  untouched none_ := by
    rcases (latest_of_serve begins ends).taken with ⟨before, taken⟩ | ⟨update, data⟩
    · exact absurd taken (none_ _ _ _)
    · exact ⟨data, update⟩
  again before old data order moment _ finds isLast positive := finds.again isLast positive
  behind before old data order moment _ finds isBehind := finds.behind isBehind
  once before before' order one other := by
    have same := Nat.le_antisymm (prolongs_earlier other one) (prolongs_earlier one other)
    obtain ⟨_, _, _, _, isSplit, _⟩ := one
    obtain ⟨_, _, _, _, isSplit', _⟩ := other
    exact (List.append_inj (isSplit.symm.trans isSplit') same).1
  spares before request moment after isSplit := by
    have isPrefix : before ++ [(request, moment)] <+: calls := ⟨after, by simp [isSplit]⟩
    obtain ⟨new, isNew⟩ := lives_of_prefix ends isPrefix
    have run := isNew
    rw [serve_append] at run
    obtain ⟨old, isOld, leads⟩ := change_leads rfl run
    exact ⟨old, new, isOld, isNew, leads.spares⟩
  update_blind := update_blind
  renew_blind := renew_blind
  grows before middle isPrefix := by
    obtain ⟨new, isNew⟩ := lives_of_prefix ends isPrefix
    have run := isNew
    rw [serve_append] at run
    obtain ⟨old, isOld, grows⟩ := grows_of_serve run
    exact ⟨old, new, isOld, isNew, grows.deadline⟩

private def clockAt (time : Int) : Moment where
  sample _ := some { time, ready := true, synchronized := true }

private def beamName : Name where
  scope := { sector := [115], spectrum := [112] }
  key := [0, 0, 0, 0, 0, 0, 64, 0, 128, 0, 0, 0, 0, 0, 0, 0]

private def unitLayout : Layout where
  record := 1
  content := 1
  name := 1
  fact := 1
  event := 1

private def madeState : State := ((start {}).create unitLayout beamName [1] [2] 1000 (clockAt 1)).2

private def repeatedCalls : List (Request × Moment) :=
  [(.update [3] 17, clockAt 2), (.renew 4, clockAt 3), (.update [4] 18, clockAt 4),
    (.renew 4, clockAt 5)]

private def lastRecord : Record where
  attr := [1]
  data := [4]
  deadline := 1000000003
  update := 18
  renewal := 4
  ttl := 1000

theorem order_law_repeatedCalls
    : OrderLaw unitLayout beamName madeState repeatedCalls
        { attr := [1], data := [2], deadline := 1000000001, ttl := 1000 } lastRecord :=
  order_law (by decide) (by decide)

private theorem finds_repeatedCalls
    : Finds unitLayout beamName (madeState.serve unitLayout beamName repeatedCalls) (clockAt 6)
        lastRecord := by
  have facts : (((madeState.serve unitLayout beamName repeatedCalls).reading
      ((clockAt 6).sample 0)).map fun pair =>
        ((pair.2.advance unitLayout (clockAt 6) pair.1.time none).2,
          (pair.2.advance unitLayout (clockAt 6) pair.1.time none).1.source.find beamName,
          (active lastRecord pair.1).toBool,
          ((pair.2.advance unitLayout (clockAt 6) pair.1.time none).1.reading
            ((clockAt 6).sample 1)).map fun final => (active lastRecord final.1).toBool))
      = some (none, some lastRecord, true, some true) := by
    decide
  have lasts {stamp : Clock.Reading} (isOk : (active lastRecord stamp).toBool = true)
      : active lastRecord stamp = .ok () := by
    cases isActive : active lastRecord stamp with
    | ok => rfl
    | error refused =>
        rw [isActive] at isOk
        cases isOk
  obtain ⟨⟨stamp, read⟩, isRead, facts⟩ := Option.map_eq_some_iff.mp facts
  simp only [Prod.mk.injEq] at facts
  obtain ⟨advanced, found, isActive, last⟩ := facts
  obtain ⟨⟨final, ended⟩, isFinal, isLast⟩ := Option.map_eq_some_iff.mp last
  exact ⟨by decide, stamp, read, _, isRead, Prod.ext rfl advanced, found, lasts isActive, final,
    ended, isFinal, lasts isLast⟩

/-- An update that was accepted is refused when it comes again after a later one. -/
theorem superseded_update_is_refused
    : ¬∀ layout name state calls before data order moment old,
        Takes layout name state calls before (.update data order)
        → Finds layout name (state.serve layout name calls) moment old
        → ((state.serve layout name calls).change layout name (.update data order) moment).1
          = .ok () := by
  intro confirms
  have confirmed := confirms unitLayout beamName madeState repeatedCalls [] [3] 17 (clockAt 6)
    lastRecord ⟨clockAt 2, _, rfl, by decide +kernel⟩ finds_repeatedCalls
  have refused
      : ((madeState.serve unitLayout beamName repeatedCalls).change unitLayout beamName
          (.update [3] 17) (clockAt 6)).1 = .error .obsolete := by
    decide
  rw [refused] at confirmed
  cases confirmed

end Astra.Ephemeris.State
