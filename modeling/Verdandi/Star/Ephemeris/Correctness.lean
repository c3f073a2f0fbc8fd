import Verdandi.Star.Ephemeris.Installing

/-! What holds of an Ephemeris over whole runs: a name is shown for one owner, whom nobody else can take it
from, and a registration that has ended does not come back.
-/

namespace Astra.Ephemeris.State

open Support
open Origin (Name)

variable {layout : Layout} {state next middle last : State} {moment : Moment} {now : Int} {id : Bytes}
  {name : Name}

-- Single ownership

/-- What is shown is the record of the one owner of the name, and what lives is shown. Others may only
hold a record that has ended.
-/
structure Single (state : State) : Prop where
  shown : ∀ name content, state.stage.find name = some content
    → ∃ record, state.record (state.owner name) name = some record ∧ record.content = content
  others : ∀ owner name record, state.record owner name = some record
    → state.owner name = owner ∨ record.Spent state.observed
  live : ∀ owner name record, state.record owner name = some record → ¬ record.Spent state.observed
    → state.owner name = owner ∧ state.stage.find name = some record.content

/-- What is shown for others than the driver of a step stays, as long as their records last. -/
def Respects (driver : Option Owner) (before after : State) : Prop :=
  ∀ name content, before.stage.find name = some content → driver ≠ some (before.owner name)
    → (after.stage.find name = some content ∧ after.owner name = before.owner name)
      ∨ ∃ record, before.record (before.owner name) name = some record ∧ record.Spent after.observed

/-- What is shown for others than the one that ends its records stays. -/
def Spares (owner : Owner) (before after : State) : Prop :=
  ∀ name, before.owner name ≠ owner
    → after.stage.find name = before.stage.find name ∧ after.owner name = before.owner name

theorem Sole.single (sole : Sole state) : Single state where
  shown name content shows := by
    have sound := sole.titles name
    have isShown : state.stage.find name
        = (state.record (state.owner name) name).map Record.content := sound.shown
    rw [shows] at isShown
    obtain ⟨record, found, same⟩ := Option.map_eq_some_iff.mp isShown.symm
    exact ⟨record, found, same⟩
  others owner name record found := (sole.titles name).others owner record found
  live _ name _ found living := (sole.titles name).live found living

variable {driver : Option Owner}

theorem Acts.respects (acts : Acts driver state next) : Respects driver state next := by
  intro name content shows other
  obtain ⟨faded, fades, does⟩ := acts.titles name
  rcases Title.Fades.frame fades with ⟨shown, isOwner⟩ | ⟨_, spent⟩
  · left
    have isShown : faded.shown = some content := shown.trans shows
    cases driver with
    | none =>
        have same : next.title name = faded := does
        exact ⟨(congrArg Title.shown same).trans isShown, (congrArg Title.owner same).trans isOwner⟩
    | some actor =>
        have differs : faded.owner ≠ actor := by
          intro isActor
          exact other (congrArg some (isActor.symm.trans isOwner))
        obtain ⟨shownNext, ownerNext⟩ := Title.Changes.frame does differs (by rw [isShown]; rfl)
        exact ⟨shownNext.trans isShown, ownerNext.trans isOwner⟩
  · exact .inr spent

/-- The end of leases of a copy. -/
theorem spares_advanceReplica (state : State) (moment : Moment) (now : Int) (id : Bytes)
    : Spares (.copy id) state (state.advanceReplica layout moment now id).1 := by
  intro name other
  rcases agenda_or_none state id with ⟨replica, agenda, isReplica, isAgenda⟩ | missing
  · obtain ⟨holding, later, fault, advanced, result⟩ :=
      advanceReplica_eq layout moment now isReplica isAgenda
    rw [result]
    have kept := @Agenda.advance_keeps _ (fireReplica layout moment.steady id) (moment.replica id)
      { source := replica.source, stage := state.stage, owners := state.owners
        charged := state.replicaBytes }
      agenda now
      (fun holding => holding.stage.find name = state.stage.find name
        ∧ holding.owners.get? name = state.owners.get? name)
      ?_ ?_ ⟨rfl, rfl⟩
    · rw [advanced] at kept
      refine ⟨kept.1, ?_⟩
      unfold owner
      rw [kept.2]
    · intro before agenda place after kept ended
      have apart : before.owners.get? name ≠ some id := by
        rw [kept.2]
        exact fun isCopy => other (owner_eq_copy.mpr isCopy)
      unfold fireReplica at ended
      split at ended
      · cases ended
      split at ended
      · cases ended
      dsimp only at ended
      split at ended
      · cases ended
      split at ended
      · cases ended
      rename_i stage shows
      cases ended
      dsimp only
      split at shows
      next visible =>
        have differs : name ≠ place := by
          rintro rfl
          simp only [Bool.and_eq_true, beq_iff_eq] at visible
          exact apart visible.2
        rw [Stage.find_change shows, Function.update_of_ne differs, if_pos visible,
          Assoc.get?_remove, if_neg differs]
        exact kept
      rename_i hidden
      cases shows
      rw [if_neg hidden]
      exact kept
    · intro before agenda place fault after kept failed
      unfold fireReplica at failed
      split at failed
      · cases failed
        exact kept
      split at failed
      · cases failed
      dsimp only at failed
      split at failed
      · cases failed
        exact kept
      split at failed
      · cases failed
        exact kept
      · cases failed
  · rw [advanceReplica_of_none missing]
    exact ⟨rfl, rfl⟩

/-- The end of leases of this Star. -/
theorem Sole.spares_advanceSource (sole : Sole state) (moment : Moment) (now : Int)
    : Spares .own state (state.advanceSource layout moment now).1 := by
  intro name other
  have absent : state.source.find name = none := ((sole.titles name).away other).2
  unfold State.advanceSource
  split
  · exact ⟨rfl, rfl⟩
  rename_i agenda isAgenda
  have kept := @Agenda.advance_keeps _ (fire layout moment.steady) moment.source
    (state.source, state.stage) agenda now
    (fun pair => pair.1.find name = none ∧ pair.2.find name = state.stage.find name) ?_ ?_
    ⟨absent, rfl⟩
  · exact ⟨kept.2, rfl⟩
  · intro before agenda place after kept ended
    unfold fire at ended
    split at ended
    · cases ended
    split at ended
    · cases ended
    split at ended
    next erasure shown erased =>
      cases ended
      obtain ⟨found, without, hidden⟩ := (erase_spec erased).2 erasure rfl
      have differs : name ≠ place := by
        rintro rfl
        rw [kept.1] at found
        cases found
      dsimp only
      rw [without, hidden, Function.update_of_ne differs, Function.update_of_ne differs]
      exact kept
    · cases ended
    · cases ended
  · intro before agenda place fault after kept failed
    unfold fire at failed
    split at failed
    · cases failed
      exact kept
    split at failed
    · cases failed
    split at failed
    · cases failed
    next refused shown erased =>
      cases failed
      exact ⟨kept.1, by rw [find_opened (erase_spec erased).1]; exact kept.2⟩
    rename_i thrown shown erased
    cases failed
    exact ⟨kept.1, by rw [find_opened (erase_spec erased).1]; exact kept.2⟩

variable {limits : Limits} {actions : List Action}

/-- In every state that is reached a name that is shown has one owner, whose record is shown, and what
lives is shown; and no step of somebody, nor the end of its leases, touches what is shown for others.
-/
theorem ownership_law (reached : run (step layout) (start limits) actions = some state)
    : Single state
      ∧ (∀ action next, state.step layout action = some next → Respects action.driver state next)
      ∧ (∀ moment now id, Spares (.copy id) state (state.advanceReplica layout moment now id).1)
      ∧ ∀ moment now, Spares .own state (state.advanceSource layout moment now).1 := by
  obtain ⟨sole, prompt⟩ := sole_of_run reached
  refine ⟨sole.single, fun action next stepped => (sole.step prompt stepped).2.respects, ?_, ?_⟩
  · exact fun moment now id => spares_advanceReplica state moment now id
  · exact fun moment now => sole.spares_advanceSource moment now

private def plainLayout : Layout where
  record := 1
  content := 1
  name := 1
  fact := 1
  event := 1

private def momentAt (time : Int) : Moment where
  sample _ := some { time, ready := true, synchronized := true }

private def plainName : Name where
  scope := { sector := [115], spectrum := [112] }
  key := [0, 0, 0, 0, 0, 0, 64, 0, 128, 0, 0, 0, 0, 0, 0, 0]

private def leased (deadline : Int) : Record where
  attr := [1]
  data := [2]
  deadline := deadline
  ttl := 1000

/-- A complete state with a registration that has ended when it is installed. -/
private def lateDraft : Origin.Draft Record where
  candidate :=
    { owned := false, entries := (∅ : Assoc Name Record).set plainName (leased 5), scopeCount := 1 }
  position := 1

/-- One Star sends a registration that has ended, and another one that lasts. -/
private def claimedTwice : List Action :=
  [.admitReplica [65], .admitReplica [66], .begin [65] lateDraft plainName.scope (momentAt 10),
    .complete [65] (momentAt 10),
    .receive [66] { position := 1, name := plainName, record := some (leased 1000) } (momentAt 10)]

private theorem claimedTwice_runs
    : ((run (step plainLayout) (start {}) claimedTwice).map fun state =>
        (state.record (.copy [65]) plainName, state.record (.copy [66]) plainName,
          state.stage.find plainName))
      = some (some (leased 5), some (leased 1000), some (leased 1000).content) := by
  decide

theorem ownership_law_claimedTwice
    : ∃ state, run (step plainLayout) (start {}) claimedTwice = some state ∧ Single state := by
  obtain ⟨state, reached, _⟩ := Option.map_eq_some_iff.mp claimedTwice_runs
  exact ⟨state, reached, (ownership_law reached).1⟩

/-- A name that is shown may be held twice: a record that has ended on its way is kept, for its hook. -/
theorem shown_and_held_twice
    : ¬ ∀ layout limits actions state name content,
        run (step layout) (start limits) actions = some state
        → state.stage.find name = some content
        → ∃ holder, ∀ owner, (state.record owner name).isSome = true ↔ owner = holder := by
  intro sole
  obtain ⟨state, reached, facts⟩ := Option.map_eq_some_iff.mp claimedTwice_runs
  simp only [Prod.mk.injEq] at facts
  obtain ⟨first, second, shown⟩ := facts
  obtain ⟨holder, only⟩ := sole _ _ _ state plainName _ reached shown
  have one := (only (.copy [65])).mp (by rw [first]; rfl)
  have other := (only (.copy [66])).mp (by rw [second]; rfl)
  have same := one.trans other.symm
  simp at same

-- The end of a registration

def Ended (state : State) (name : Name) : Prop :=
  ∀ record, state.source.find name = some record → record.Spent state.observed

def Action.creates (name : Name) : Action → Bool
  | .create other .. => other == name
  | _ => false

/-- What only ends keeps the records that it keeps. -/
theorem Acts.own (acts : Acts driver state next) (other : driver ≠ some .own) (name : Name)
    : next.source.find name = state.source.find name ∨ next.source.find name = none := by
  obtain ⟨faded, fades, does⟩ := acts.titles name
  have same : (next.title name).held .own = faded.held .own := by
    cases driver with
    | none => exact congrFun (congrArg Title.held (show next.title name = faded from does)) .own
    | some actor => exact Title.Changes.others does fun isActor => other (congrArg some isActor.symm)
  rcases Title.Fades.held fades .own with kept | ⟨gone, _⟩
  · exact .inl (same.trans kept)
  · exact .inr (same.trans gone)

variable {swept : State}

/-- A lease that lasts at a final reading had lasted before. -/
theorem Lasts.before (lasts : swept.Lasts moment name) (aged : Acts none state swept)
    : ∃ old stamp, state.source.find name = some old ∧ moment.sample 1 = some stamp
      ∧ stamp.time < old.deadline ∧ ¬ old.Spent state.observed := by
  obtain ⟨old, stamp, found, final, before⟩ := lasts
  have isOld : state.source.find name = some old := by
    rcases aged.own nofun name with same | gone
    · rw [← same, found]
    · rw [gone] at found
      cases found
  refine ⟨old, stamp, isOld, final.sample, before, ?_⟩
  rintro ⟨now, isNow, passed⟩
  obtain ⟨later, isLater, least⟩ := aged.observed now isNow
  have follows := final.follows
  rw [isLater] at follows
  simp only [Clock.Reading.follows, Bool.and_eq_true, Option.all_some, decide_eq_true_eq] at follows
  have reached := follows.2
  omega

variable {action : Action}

/-- A step that makes no new registration keeps a record, gives it up, or changes one whose lease
lasts.
-/
theorem Sole.own_step (sole : Sole state) (prompt : state.schedule.Prompt)
    (stepped : state.step layout action = some next) (old : action.creates name = false)
    : (next.source.find name = state.source.find name ∨ next.source.find name = none)
      ∨ ∃ record, state.source.find name = some record ∧ ¬ record.Spent state.observed := by
  by_cases other : action.driver = some .own
  · cases action with
    | create place attr data ttl moment =>
        cases stepped
        generalize created : state.create layout place attr data ttl moment = result
        obtain ⟨reply, next⟩ := result
        obtain ⟨swept, expires, outcome⟩ := create_cases created
        have aged := (sole.expires prompt expires).2.own nofun name
        left
        rcases outcome with ⟨_, leaves⟩ | ⟨_, _, record, _, sets⟩
        · rw [leaves.source]
          exact aged
        · have differs : name ≠ place := by
            rintro rfl
            simp [Action.creates] at old
          dsimp only
          rw [sets.source, Function.update_of_ne differs]
          exact aged
    | change place request moment =>
        cases stepped
        generalize changed : state.change layout place request moment = result
        obtain ⟨reply, next⟩ := result
        obtain ⟨swept, expires, outcome⟩ := sole.change_cases prompt changed
        have acts := (sole.expires prompt expires).2
        rcases outcome with ⟨leaves, _⟩ | ⟨_, lasts, record, sets⟩
        · left
          rw [leaves.source]
          exact acts.own nofun name
        · by_cases same : name = place
          · subst same
            obtain ⟨record, _, found, _, _, living⟩ := lasts.before acts
            exact .inr ⟨record, found, living⟩
          · left
            dsimp only
            rw [sets.source, Function.update_of_ne same]
            exact acts.own nofun name
    | remove place moment =>
        cases stepped
        generalize removed : state.remove layout place moment = result
        obtain ⟨reply, next⟩ := result
        obtain ⟨swept, expires, outcome⟩ := remove_cases removed
        have aged := (sole.expires prompt expires).2.own nofun name
        left
        rcases outcome with ⟨_, leaves⟩ | ⟨_, _, sets⟩
        · rw [leaves.source]
          exact aged
        · dsimp only
          rw [sets.source, Function.update_apply]
          split
          · exact .inr rfl
          · exact aged
    | _ => cases other
  · exact .inl ((sole.step prompt stepped).2.own other name)

theorem Ended.step (ended : state.Ended name) (sole : Sole state) (prompt : state.schedule.Prompt)
    {action : Action} (stepped : state.step layout action = some next)
    (old : action.creates name = false)
    : next.Ended name := by
  intro record found
  rcases sole.own_step prompt stepped old with (same | gone) | ⟨held, isHeld, living⟩
  · exact Record.Spent.later (sole.step prompt stepped).2.observed (ended record (same ▸ found))
  · rw [gone] at found
    cases found
  · exact absurd (ended held isHeld) living

theorem gone_step (gone : state.source.find name = none) (sole : Sole state)
    (prompt : state.schedule.Prompt) (stepped : state.step layout action = some next)
    (old : action.creates name = false)
    : next.source.find name = none := by
  rcases sole.own_step prompt stepped old with (same | gone) | ⟨held, isHeld, _⟩
  · rw [same, gone]
  · exact gone
  · rw [gone] at isHeld
    cases isHeld

/-- What was given up stays so. Witness: induction over the steps that follow. -/
theorem ended_of_run (sole : Sole state) (prompt : state.schedule.Prompt) {later : List Action}
    (continued : run (step layout) state later = some last)
    (old : ∀ action ∈ later, action.creates name = false)
    : (state.Ended name → last.Ended name)
      ∧ (state.source.find name = none → last.source.find name = none) := by
  induction later generalizing state with
  | nil =>
      cases continued
      exact ⟨id, id⟩
  | cons action rest ih =>
      rw [run_cons] at continued
      obtain ⟨next, stepped, continued⟩ := Option.bind_eq_some_iff.mp continued
      have isOld := old action List.mem_cons_self
      obtain ⟨ended, gone⟩ := ih (sole.step prompt stepped).1 (steps prompt stepped).prompt
        continued fun other listed => old other (List.mem_cons_of_mem _ listed)
      exact ⟨fun isEnded => ended (isEnded.step sole prompt stepped isOld),
        fun isGone => gone (gone_step isGone sole prompt stepped isOld)⟩

/-- What a write that fails leaves: leases that are over have ended, and where none is due nothing has
happened; a Scope may have been opened, with nothing in it.
-/
structure Untouched (layout : Layout) (moment : Moment) (name : Name) (before after swept : State)
    : Prop where
  expires : Expires layout moment before swept
  source : after.source = swept.source
  stage : after.stage = swept.stage ∨ swept.stage.obtain' name.scope = .ok after.stage
  shown : after.stage.find = swept.stage.find
  replicas : after.replicas = swept.replicas
  owners : after.owners = swept.owners
  ended : ∀ owner place, swept.record owner place = before.record owner place
    ∨ ∃ record, before.record owner place = some record ∧ record.Spent swept.observed
  idle : (∀ stamp, moment.sample 0 = some stamp → stamp.time < before.due)
    → swept.source = before.source ∧ swept.stage = before.stage

theorem Leaves.untouched (leaves : Leaves name swept next) (sole : Sole state)
    (prompt : state.schedule.Prompt) (expires : Expires layout moment state swept)
    : Untouched layout moment name state next swept where
  expires := expires
  source := leaves.source
  stage := leaves.stage
  shown := find_opened leaves.stage
  replicas := leaves.replicas
  owners := leaves.owners
  ended owner place := by
    obtain ⟨faded, fades, same⟩ := (sole.expires prompt expires).2.titles place
    have held : swept.record owner place = faded.held owner :=
      congrFun (congrArg Title.held (show swept.title place = faded from same)) owner
    rcases Title.Fades.held fades owner with kept | ⟨_, spent⟩
    · exact .inl (held.trans kept)
    · exact .inr spent
  idle early := by
    rcases expires with rfl | ⟨stamp, read, isRead, rfl | rfl⟩
    · exact ⟨rfl, rfl⟩
    · rw [(reading_some isRead).2]
      exact ⟨rfl, rfl⟩
    · obtain ⟨found, isFound, same⟩ := Option.map_eq_some_iff.mp isRead
      cases same
      have before := early _ (Option.filter_eq_some_iff.mp isFound).1
      unfold advance
      rw [if_pos before]
      exact ⟨rfl, rfl⟩

/-- A registration that has ended is not changed any more, and one that is gone is never shown again
for this Star, unless it is made again; whatever is changed lasts at the final reading; and a write
that fails leaves what the end of leases has left.
-/
theorem lease_end_law (reached : run (step layout) (start limits) actions = some state)
    : (∀ name later last, run (step layout) state later = some last
        → (∀ action ∈ later, action.creates name = false)
        → (state.Ended name → ∀ request moment, (last.change layout name request moment).1 ≠ .ok ())
          ∧ (state.source.find name = none → last.source.find name = none
            ∧ ∀ content, last.stage.find name = some content → last.owner name ≠ .own))
      ∧ (∀ name request moment, (state.change layout name request moment).1 = .ok ()
        → ∃ old stamp, state.source.find name = some old ∧ moment.sample 1 = some stamp
          ∧ stamp.time < old.deadline)
      ∧ (∀ name request moment, (state.change layout name request moment).1 ≠ .ok ()
        → ∃ swept, Untouched layout moment name state
          (state.change layout name request moment).2 swept)
      ∧ (∀ name moment, (state.remove layout name moment).1 ≠ .ok ()
        → ∃ swept, Untouched layout moment name state (state.remove layout name moment).2 swept)
      ∧ ∀ name attr data ttl moment,
        (∀ receipt, (state.create layout name attr data ttl moment).1 ≠ .ok receipt)
        → ∃ swept, Untouched layout moment name state
          (state.create layout name attr data ttl moment).2 swept := by
  obtain ⟨sole, prompt⟩ := sole_of_run reached
  have changes {current : State} (soleCurrent : Sole current) (promptCurrent : current.schedule.Prompt)
      {name : Name} {request : Request} {moment : Moment}
      (done : (current.change layout name request moment).1 = .ok ())
      : ∃ old stamp, current.source.find name = some old ∧ moment.sample 1 = some stamp
        ∧ stamp.time < old.deadline ∧ ¬ old.Spent current.observed := by
    generalize changed : current.change layout name request moment = result at done
    obtain ⟨reply, next⟩ := result
    obtain ⟨swept, expires, outcome⟩ := soleCurrent.change_cases promptCurrent changed
    have aged := (soleCurrent.expires promptCurrent expires).2
    rcases outcome with ⟨_, lasts⟩ | ⟨_, lasts, _⟩
    · exact (lasts done).before aged
    · exact lasts.before aged
  refine ⟨?_, ?_, ?_, ?_, ?_⟩
  · intro name later last continued old
    obtain ⟨ended, gone⟩ := @ended_of_run layout state last name sole prompt later continued old
    have whole : run (step layout) (start limits) (actions ++ later) = some last := by
      rw [run_append, reached]
      exact continued
    obtain ⟨soleLast, promptLast⟩ := sole_of_run whole
    refine ⟨fun isEnded request moment done => ?_, fun isGone => ⟨gone isGone, ?_⟩⟩
    · obtain ⟨record, _, found, _, _, living⟩ := changes soleLast promptLast done
      exact living (ended isEnded record found)
    · intro content shown isOwn
      obtain ⟨record, found, _⟩ := soleLast.single.shown name content shown
      rw [isOwn] at found
      have none : last.source.find name = none := gone isGone
      rw [State.record, none] at found
      cases found
  · intro name request moment done
    obtain ⟨old, stamp, found, sample, before, _⟩ := changes sole prompt done
    exact ⟨old, stamp, found, sample, before⟩
  · intro name request moment failed
    generalize changed : state.change layout name request moment = result at failed
    obtain ⟨reply, next⟩ := result
    obtain ⟨swept, expires, outcome⟩ := sole.change_cases prompt changed
    rcases outcome with ⟨leaves, _⟩ | ⟨done, _⟩
    · exact ⟨swept, leaves.untouched sole prompt expires⟩
    · exact absurd done failed
  · intro name moment failed
    generalize removed : state.remove layout name moment = result at failed
    obtain ⟨reply, next⟩ := result
    obtain ⟨swept, expires, outcome⟩ := remove_cases removed
    rcases outcome with ⟨_, leaves⟩ | ⟨done, _⟩
    · exact ⟨swept, leaves.untouched sole prompt expires⟩
    · exact absurd done failed
  · intro name attr data ttl moment failed
    generalize created : state.create layout name attr data ttl moment = result at failed
    obtain ⟨reply, next⟩ := result
    obtain ⟨swept, expires, outcome⟩ := create_cases created
    rcases outcome with ⟨_, leaves⟩ | ⟨done, _⟩
    · exact ⟨swept, leaves.untouched sole prompt expires⟩
    · exact absurd done (failed _)

private def madeOnce : List Action := [.create plainName [1] [2] 1000 (momentAt 1)]

private theorem madeOnce_runs
    : ((run (step plainLayout) (start {}) madeOnce).map fun state =>
        (state.source.find plainName, state.source.position,
          state.change plainLayout plainName (.update [3] 1) (momentAt 2000000001)
            |>.1,
          (state.change plainLayout plainName (.update [3] 1) (momentAt 2000000001)).2.source.position,
          (state.change plainLayout plainName (.update [3] 1) (momentAt 2000000001)).2.stage.find
            plainName))
      = some (some (leased 1000000001), 1, .error .ended, 2, none) := by
  decide +kernel

theorem lease_end_law_madeOnce
    : ∃ state, run (step plainLayout) (start {}) madeOnce = some state
      ∧ ∃ swept, Untouched plainLayout (momentAt 2000000001) plainName state
        (state.change plainLayout plainName (.update [3] 1) (momentAt 2000000001)).2 swept := by
  obtain ⟨state, reached, facts⟩ := Option.map_eq_some_iff.mp madeOnce_runs
  refine ⟨state, reached, (lease_end_law reached).2.2.1 plainName (.update [3] 1) _ ?_⟩
  simp only [Prod.mk.injEq] at facts
  rw [facts.2.2.1]
  nofun

/-- A write that fails since the lease is over has ended it: its record, the position and the row that
is shown are not what they were.
-/
theorem failed_write_ends
    : ¬ ∀ layout limits actions state name request moment,
        run (step layout) (start limits) actions = some state
        → (state.change layout name request moment).1 ≠ .ok ()
        → (state.change layout name request moment).2.source.position = state.source.position
          ∧ (state.change layout name request moment).2.stage.find name = state.stage.find name := by
  intro unchanged
  obtain ⟨state, reached, facts⟩ := Option.map_eq_some_iff.mp madeOnce_runs
  simp only [Prod.mk.injEq] at facts
  obtain ⟨_, before, refused, after, _⟩ := facts
  obtain ⟨position, _⟩ := unchanged _ _ _ state plainName (.update [3] 1) (momentAt 2000000001) reached
    (by rw [refused]; nofun)
  rw [before, after] at position
  cases position

end Astra.Ephemeris.State
