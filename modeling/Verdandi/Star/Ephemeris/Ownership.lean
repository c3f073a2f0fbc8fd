import Verdandi.Star.Ephemeris.Timing
import Verdandi.Support.Title

/-! Whose a registration is. This Star and its copies of the others may each hold a record of a name;
the projections show it for one of them, and a lease that ends takes away nothing else.
-/

namespace Astra.Ephemeris

open Support
open Origin (Name)

inductive Owner where
  | own
  | copy (id : Bytes)
  deriving DecidableEq, Repr

def deadlines (records : Name → Option Record) (name : Name) : Option Int :=
  (records name).map Record.deadline

def Record.Spent (observed : Option Int) (record : Record) : Prop :=
  ∃ now, observed = some now ∧ record.deadline ≤ now

theorem deadlines_update (records : Name → Option Record) (name : Name) (record : Option Record)
    : deadlines (Function.update records name record)
      = Function.update (deadlines records) name (record.map Record.deadline) := by
  funext other
  rw [deadlines, Function.update_apply, Function.update_apply]
  split <;> rfl

theorem spent_some {record : Record} {now : Int}
    : record.Spent (some now) ↔ record.deadline ≤ now := by
  simp [Record.Spent]

namespace State

def record (state : State) (owner : Owner) (name : Name) : Option Record :=
  match owner with
  | .own => state.source.find name
  | .copy id => (state.replicas.get? id).bind (·.source.find name)

def owner (state : State) (name : Name) : Owner :=
  (state.owners.get? name).elim .own .copy

def title (state : State) (name : Name) : Title Owner Record Content where
  held owner := state.record owner name
  owner := state.owner name
  shown := state.stage.find name

/-- What an installation has prepared: the copy with one Scope replaced by that of the complete
state.
-/
structure Fits (source : Origin Record) (task : Replica.Task Record Error)
    (batch : Origin.Batch Record) (rows : List (Name × Record))
    : Prop where
  previous : ∀ name, name ∈ task.previous
    ↔ name.scope = task.scope ∧ (source.find name).isSome = true
  former : task.previous.Nodup
  find : ∀ name, batch.commit.find name
    = if name.scope = task.scope then task.draft.candidate.find name else source.find name
  listed : ∀ name record, (name, record) ∈ rows
    ↔ name.scope = task.scope ∧ task.draft.candidate.find name = some record
  distinct : (rows.map Prod.fst).Nodup

structure Copied (replica : Replica Record Error) : Prop where
  tied : Tied replica.agenda (deadlines replica.source.find)
  task : ∀ task batch rows, replica.task = some task → task.prepared = .ok (batch, rows)
    → Fits replica.source task batch rows

structure Sole (state : State) : Prop where
  tied : Tied state.agenda (deadlines state.source.find)
  copies : ∀ id replica, state.replicas.get? id = some replica → Copied replica
  titles : ∀ name, (state.title name).Sound .own Record.content (Record.Spent state.observed)

structure Aged (now : Int) (before after : State) : Prop where
  titles : ∀ name, Title.Fades .own (Record.Spent (some now)) (before.title name) (after.title name)
  busy : ∀ id replica, before.replicas.get? id = some replica → replica.busy = true
    → after.replicas.get? id = some replica
  observed : after.observed = before.observed

variable {layout : Layout} {state next middle last : State} {moment : Moment} {now : Int} {id : Bytes}
  {held : Option Bytes} {name : Name} {steady : Int}

theorem Aged.refl (now : Int) (state : State) : Aged now state state :=
  ⟨fun _ => .refl, fun _ _ isReplica _ => isReplica, rfl⟩

theorem Aged.trans (one : Aged now state middle) (other : Aged now middle last)
    : Aged now state last :=
  ⟨fun name => (one.titles name).trans (other.titles name),
    fun id replica isReplica busy => other.busy id replica (one.busy id replica isReplica busy) busy,
    other.observed.trans one.observed⟩

/-- Where neither records nor owners nor rows differ, nothing has happened. -/
theorem title_congr (records : ∀ owner, next.record owner name = state.record owner name)
    (owners : next.owner name = state.owner name)
    (shown : next.stage.find name = state.stage.find name)
    : next.title name = state.title name := by
  unfold title
  rw [owners, shown]
  congr
  funext owner
  exact records owner

theorem record_replicas {replica : Replica Record Error} (source : next.source = state.source)
    (replicas : next.replicas = state.replicas.set id replica) (owner : Owner) (name : Name)
    : next.record owner name
      = if owner = .copy id then replica.source.find name else state.record owner name := by
  unfold record
  cases owner with
  | own => simp [source]
  | copy other =>
      dsimp only
      rw [replicas, Assoc.get?_set]
      simp only [Owner.copy.injEq]
      split <;> rfl

theorem record_source (replicas : next.replicas = state.replicas) (owner : Owner) (name : Name)
    : next.record owner name
      = if owner = .own then next.source.find name else state.record owner name := by
  unfold record
  cases owner with
  | own => rfl
  | copy other => simp [replicas]

theorem owner_eq_own : state.owner name = .own ↔ state.owners.get? name = none := by
  unfold owner
  cases state.owners.get? name <;> simp

theorem owner_eq_copy : state.owner name = .copy id ↔ state.owners.get? name = some id := by
  unfold owner
  cases state.owners.get? name <;> simp

variable {record : Record}

/-- What this Star holds is shown for it. -/
theorem Sole.owner_own (sole : Sole state) (found : state.source.find name = some record)
    : state.owner name = .own ∧ state.stage.find name = some record.content := by
  have sound := sole.titles name
  have isOwner : state.owner name = .own := by
    by_contra away
    have none : state.source.find name = none := (sound.away away).2
    rw [none] at found
    cases found
  refine ⟨isOwner, ?_⟩
  have shown : state.stage.find name = (state.record (state.owner name) name).map Record.content :=
    sound.shown
  rw [shown, isOwner]
  exact congrArg (Option.map _) found

/-- What is shown for a copy is its record. -/
theorem Sole.owner_copy (sole : Sole state) (isOwner : state.owners.get? name = some id)
    : ∃ record, state.record (.copy id) name = some record
      ∧ state.stage.find name = some record.content := by
  have isCopy : state.owner name = .copy id := owner_eq_copy.mpr isOwner
  have sound := sole.titles name
  have away : (state.title name).owner ≠ .own := by
    change state.owner name ≠ .own
    rw [isCopy]
    nofun
  obtain ⟨record, found⟩ := Option.isSome_iff_exists.mp (sound.away away).1
  change state.record (state.owner name) name = some record at found
  have shown : state.stage.find name = (state.record (state.owner name) name).map Record.content :=
    sound.shown
  refine ⟨record, isCopy ▸ found, ?_⟩
  rw [shown, found, Option.map_some]

-- The end of leases

/-- A change without a position is not sent. -/
theorem find_commit {origin : Origin Record} {traits : Origin.Traits Record}
    {edit : Origin.Edit Record} {record : Option Record} {position : Option Nat} {time : Int}
    {form : Origin.Form}
    (prepared : origin.prepare traits name record position time form = .ok edit)
    : (edit.commit origin).find = Function.update origin.find name record := by
  obtain ⟨_, isName, isRecord, _⟩ := Origin.fits_of_prepare prepared
  funext other
  rw [Origin.find, (Origin.Edit.published origin edit).entries, Assoc.get?_amend, isName, isRecord,
    Function.update_apply]
  rfl

variable {stage shown : Stage Content}

/-- A registration of this Star is taken out everywhere or nowhere; its Scope may be opened. -/
theorem erase_spec {source : Origin Record} {agenda : Option Agenda} {answer : Answer Error Erasure}
    (erased : erase layout steady source stage agenda name = (answer, shown))
    : (shown = stage ∨ stage.obtain' name.scope = .ok shown)
      ∧ ∀ erasure, answer = .ok erasure → source.find name = some erasure.old
        ∧ erasure.source.find = Function.update source.find name none
        ∧ erasure.stage.find = Function.update stage.find name none := by
  unfold erase at erased
  split at erased
  · cases erased
    exact ⟨.inl rfl, (by intros; contradiction)⟩
  rename_i old found
  split at erased
  · cases erased
    exact ⟨.inl rfl, (by intros; contradiction)⟩
  rename_i opened isOpened
  split at erased
  · cases erased
    exact ⟨.inr isOpened, (by intros; contradiction)⟩
  split at erased
  · cases erased
    exact ⟨.inr isOpened, (by intros; contradiction)⟩
  rename_i edit prepared
  split at erased
  · cases erased
    exact ⟨.inr isOpened, (by intros; contradiction)⟩
  rename_i last isLast
  split at erased
  · cases erased
    refine ⟨.inr isOpened, ?_⟩
    rintro _ ⟨⟩
    refine ⟨found, find_commit prepared, ?_⟩
    rw [Stage.find_change isLast, Stage.find_obtain isOpened]
  · cases erased
    exact ⟨.inr isOpened, (by intros; contradiction)⟩

/-- Opening a Scope, or not, shows nothing. -/
theorem find_opened {scope : Scope} (opened : shown = stage ∨ stage.obtain' scope = .ok shown)
    : shown.find = stage.find := by
  rcases opened with rfl | opened
  · rfl
  · exact Stage.find_obtain opened

/-- A record that is spent is given up, and hidden if it was shown. -/
theorem fades_of_end {actor : Owner} (holds : state.record actor name = some record)
    (passed : record.deadline ≤ now)
    (records : ∀ party place, next.record party place
      = if place = name ∧ party = actor then none else state.record party place)
    (owners : ∀ place, next.owner place
      = if place = name ∧ state.owner place = actor then .own else state.owner place)
    (shown : ∀ place, next.stage.find place
      = if place = name ∧ state.owner place = actor then none else state.stage.find place)
    (place : Name)
    : Title.Fades .own (Record.Spent (some now)) (state.title place) (next.title place) := by
  by_cases same : place = name
  · subst same
    refine .single ⟨actor, record, holds, spent_some.mpr passed, ?_⟩
    unfold title Title.lay
    congr
    · funext party
      rw [Function.update_apply, records]
      simp only [true_and]
    · rw [owners]
      simp only [true_and]
    · rw [shown]
      simp only [true_and]
  · have unchanged : next.title place = state.title place := by
      refine title_congr (fun party => ?_) ?_ ?_
      · rw [records, if_neg fun both => same both.1]
      · rw [owners, if_neg fun both => same both.1]
      · rw [shown, if_neg fun both => same both.1]
    rw [unchanged]

theorem Aged.sound (aged : Aged now state next) (sole : Sole state)
    (time : state.observed = some now) (name : Name)
    : (next.title name).Sound .own Record.content (Record.Spent (some now)) :=
  (aged.titles name).sound (time ▸ sole.titles name)

/-- The state with what an advance of the own source has made of it. -/
def stored (state : State) (pair : Origin Record × Stage Content) : State :=
  { state with source := pair.1, stage := pair.2 }

theorem record_stored (state : State) (pair : Origin Record × Stage Content) (party : Owner)
    (name : Name)
    : (state.stored pair).record party name
      = if party = .own then pair.1.find name else state.record party name :=
  @record_source state (state.stored pair) rfl party name

theorem owner_stored (state : State) (pair : Origin Record × Stage Content) (name : Name)
    : (state.stored pair).owner name = state.owner name :=
  rfl

theorem find_stored (state : State) (pair : Origin Record × Stage Content) (name : Name)
    : (state.stored pair).stage.find name = pair.2.find name :=
  rfl

def storedReplica (state : State) (id : Bytes) (replica : Replica Record Error)
    (agenda : Option Agenda) (holding : Holding)
    : State :=
  { state with
    replicas := state.replicas.set id { replica with source := holding.source, agenda }
    stage := holding.stage
    owners := holding.owners
    replicaBytes := holding.charged }

section

variable (state : State) (id : Bytes) (replica : Replica Record Error) (agenda : Option Agenda)
  (holding : Holding) (name : Name)

theorem record_storedReplica (party : Owner)
    : (state.storedReplica id replica agenda holding).record party name
      = if party = .copy id then holding.source.find name else state.record party name :=
  @record_replicas state (state.storedReplica id replica agenda holding) id _ rfl rfl party name

theorem owner_storedReplica
    : (state.storedReplica id replica agenda holding).owner name
      = (holding.owners.get? name).elim .own .copy :=
  rfl

theorem find_storedReplica
    : (state.storedReplica id replica agenda holding).stage.find name = holding.stage.find name :=
  rfl

end

/-- A copy that nobody holds is stored with whatever agenda. -/
theorem Aged.store {replica : Replica Record Error} (idle : replica.busy = false)
    {agenda : Option Agenda} {holding : Holding}
    (titles : ∀ name, Title.Fades .own (Record.Spent (some now)) (state.title name)
      ((state.storedReplica id replica agenda holding).title name))
    (isReplica : state.replicas.get? id = some replica) (later : Option Agenda)
    : Aged now state (state.storedReplica id replica later holding) := by
  refine ⟨fun name => ?_, ?_, rfl⟩
  · have unchanged : (state.storedReplica id replica later holding).title name
        = (state.storedReplica id replica agenda holding).title name := by
      refine title_congr (fun party => ?_) rfl rfl
      rw [record_storedReplica, record_storedReplica]
    rw [unchanged]
    exact titles name
  · intro other current isCurrent busy
    change (state.replicas.set id _).get? other = some current
    rw [Assoc.get?_set]
    split
    next same =>
      rw [same, isReplica] at isCurrent
      cases isCurrent
      exact absurd (busy.symm.trans idle) (by rintro ⟨⟩)
    · exact isCurrent

variable {replica : Replica Record Error}

/-- A copy as it is. -/
theorem title_store (isReplica : state.replicas.get? id = some replica) (agenda : Option Agenda)
    (name : Name)
    : (state.storedReplica id replica agenda
        { source := replica.source, stage := state.stage, owners := state.owners
          charged := state.replicaBytes }).title name
      = state.title name := by
  refine title_congr (fun party => ?_) rfl rfl
  rw [record_storedReplica]
  split
  next isCopy =>
    rw [isCopy, State.record, isReplica]
    rfl
  · rfl

/-- The own source keeps what is asked of the owner of an agenda. -/
theorem sound_fire (sole : Sole state) (time : state.observed = some now)
    : Agenda.Sound (fire layout steady) (fun pair => deadlines pair.1.find)
        (fun pair => Aged now state (state.stored pair))
        (fun _ => True) now where
  later := by
    intro pair agenda name deadline reported _ isDeadline fired
    unfold fire at fired
    split at fired
    · cases fired
    rename_i record found
    split at fired
    · cases fired
      rw [deadlines, found] at isDeadline
      exact Option.some.inj isDeadline
    · split at fired <;> cases fired
  ended := by
    intro pair agenda name deadline next aged _ within fired
    unfold fire at fired
    split at fired
    · cases fired
    rename_i record found
    split at fired
    · cases fired
    rename_i lasting
    split at fired
    next erasure shown erased =>
      cases fired
      obtain ⟨_, without, hidden⟩ := (erase_spec erased).2 erasure rfl
      have isOwner : state.owner name = .own := by
        by_contra away
        have none : pair.1.find name = none := ((aged.sound sole time name).away away).2
        rw [none] at found
        cases found
      refine ⟨aged.trans ⟨?_, fun _ _ isReplica _ => isReplica, rfl⟩, ?_⟩
      · have holds : (state.stored pair).record .own name = some record := found
        refine fades_of_end holds (by omega) ?_ ?_ ?_
        · intro party place
          rw [record_stored, record_stored, without, Function.update_apply]
          by_cases isOwn : party = .own <;> simp [isOwn]
        · intro place
          rw [owner_stored, owner_stored, eq_comm, ite_eq_right_iff]
          exact fun both => both.2.symm
        · intro place
          rw [find_stored, find_stored, owner_stored, hidden, Function.update_apply]
          by_cases same : place = name
          · rw [if_pos same, if_pos ⟨same, same ▸ isOwner⟩]
          · rw [if_neg same, if_neg fun both => same both.1]
      · dsimp only
        rw [without, deadlines_update, Option.map_none]
    · cases fired
    · cases fired
  failed := by
    intro pair agenda name deadline fault next aged _ isDeadline fired
    obtain ⟨record, found, rfl⟩ := Option.map_eq_some_iff.mp isDeadline
    have stays {shown : Stage Content} (same : shown.find = pair.2.find)
        : Aged now state (state.stored (pair.1, shown)) := by
      refine aged.trans ⟨fun other => ?_, fun _ _ isReplica _ => isReplica, rfl⟩
      have unchanged : (state.stored (pair.1, shown)).title other = (state.stored pair).title other :=
        title_congr (fun _ => rfl) rfl (congrFun same other)
      rw [unchanged]
    unfold fire at fired
    rw [found] at fired
    dsimp only at fired
    split at fired
    · cases fired
    rename_i lasting
    have reached : record.deadline ≤ agenda.time := by omega
    split at fired
    · cases fired
    next refused shown erased =>
      cases fired
      exact ⟨stays (find_opened (erase_spec erased).1), rfl, reached, trivial⟩
    rename_i thrown shown erased
    cases fired
    exact ⟨stays (find_opened (erase_spec erased).1), rfl, reached, trivial⟩

/-- A name is shown for a copy if it is shown and belongs to it. -/
theorem visible_iff {spent : Record → Prop}
    (sound : (state.title name).Sound .own Record.content spent)
    : ((state.stage.find name).isSome && state.owners.get? name == some id) = true
      ↔ state.owner name = .copy id := by
  rw [Bool.and_eq_true, beq_iff_eq, ← owner_eq_copy]
  refine ⟨And.right, fun isCopy => ⟨?_, isCopy⟩⟩
  have away : (title state name).owner ≠ .own := by
    change state.owner name ≠ .own
    rw [isCopy]
    nofun
  have shown : state.stage.find name
      = ((state.title name).held (state.title name).owner).map Record.content := sound.shown
  rw [shown, Option.isSome_map]
  exact (sound.away away).1

/-- A copy keeps what is asked of the owner of an agenda. -/
theorem sound_fireReplica (sole : Sole state) (time : state.observed = some now)
    {replica : Replica Record Error} (isReplica : state.replicas.get? id = some replica)
    (idle : replica.busy = false) (last : Option Agenda)
    : Agenda.Sound (fireReplica layout steady id) (fun holding => deadlines holding.source.find)
        (fun holding => Aged now state (state.storedReplica id replica last holding))
        (fun _ => True) now where
  later := by
    intro holding agenda name deadline reported _ isDeadline fired
    unfold fireReplica at fired
    split at fired
    · cases fired
    rename_i record found
    split at fired
    · cases fired
      rw [deadlines, found] at isDeadline
      exact Option.some.inj isDeadline
    · dsimp only at fired
      split at fired
      · cases fired
      split at fired <;> cases fired
  ended := by
    intro holding agenda name deadline next aged _ within fired
    unfold fireReplica at fired
    split at fired
    · cases fired
    rename_i record found
    split at fired
    · cases fired
    rename_i lasting
    dsimp only at fired
    split at fired
    · cases fired
    rename_i edit prepared
    split at fired
    · cases fired
    rename_i stage shows
    cases fired
    have without := find_commit prepared
    have holds : (state.storedReplica id replica last holding).record (.copy id) name
        = some record := by
      rw [record_storedReplica, if_pos rfl, found]
    have seen : _ ↔ (state.storedReplica id replica last holding).owner name = .copy id :=
      visible_iff (aged.sound sole time name)
    change ((holding.stage.find name).isSome && holding.owners.get? name == some id) = true ↔ _
      at seen
    generalize ((holding.stage.find name).isSome && holding.owners.get? name == some id)
      = visible at shows seen
    have isShown : stage.find = if visible then Function.update holding.stage.find name none
        else holding.stage.find := by
      split at shows
      next isVisible => rw [if_pos isVisible, Stage.find_change shows]
      rename_i isHidden
      cases shows
      rw [if_neg isHidden]
    refine ⟨@Aged.store _ _ _ _ idle last _ (fun other => (aged.titles other).trans ?_) isReplica
      last, by rw [without, deadlines_update, Option.map_none]⟩
    · refine fades_of_end holds (by omega) ?_ ?_ ?_ other
      · intro party place
        rw [record_storedReplica, record_storedReplica, without, Function.update_apply]
        by_cases isCopy : party = .copy id <;> simp [isCopy]
      · intro place
        rw [owner_storedReplica]
        by_cases same : place = name
        · subst same
          simp only [true_and, ← seen]
          split
          · rw [Assoc.get?_remove, if_pos rfl]
            rfl
          · rfl
        · simp only [same, false_and, if_false, owner_storedReplica]
          split
          · rw [Assoc.get?_remove, if_neg same]
          · rfl
      · intro place
        rw [find_storedReplica, find_storedReplica, isShown]
        by_cases same : place = name
        · subst same
          simp only [true_and, ← seen]
          split
          · rw [Function.update_self]
          · rfl
        · simp only [same, false_and, if_false]
          split
          · rw [Function.update_of_ne same]
          · rfl
  failed := by
    intro holding agenda name deadline fault next aged _ isDeadline fired
    obtain ⟨record, found, rfl⟩ := Option.map_eq_some_iff.mp isDeadline
    unfold fireReplica at fired
    rw [found] at fired
    dsimp only at fired
    split at fired
    · cases fired
    rename_i lasting
    have reached : record.deadline ≤ agenda.time := by omega
    split at fired
    · cases fired
      exact ⟨aged, rfl, reached, trivial⟩
    · split at fired
      · cases fired
        exact ⟨aged, rfl, reached, trivial⟩
      · cases fired

-- Advancing

/-- What has only aged is still sound, if its hooks are. -/
theorem Aged.sole (aged : Aged now state next) (sole : Sole state) (time : state.observed = some now)
    (tied : Tied next.agenda (deadlines next.source.find))
    (copies : ∀ id replica, next.replicas.get? id = some replica → Copied replica)
    : Sole next where
  tied := tied
  copies := copies
  titles name := by
    rw [aged.observed, time]
    exact aged.sound sole time name

theorem Sole.advanceSource (sole : Sole state) (time : state.observed = some now)
    (reached : ∀ time ∈ state.schedule.times, time ≤ now)
    : Sole (state.advanceSource layout moment now).1
      ∧ Aged now state (state.advanceSource layout moment now).1 := by
  unfold State.advanceSource
  cases isAgenda : state.agenda with
  | none => exact ⟨sole, .refl _ _⟩
  | some agenda =>
      have tied := sole.tied
      rw [isAgenda] at tied
      obtain ⟨kept, _⟩ :=
        @Agenda.Sound.advance _ _ _ _ _ now (state.source, state.stage) agenda moment.source
          (@sound_fire layout state now moment.steady sole time) (.refl _ _) tied
          (reached agenda.time (.inl ⟨agenda, by simp [isAgenda], rfl⟩))
      dsimp only
      generalize agenda.advance (fire layout moment.steady) moment.source now
        (state.source, state.stage) = result at kept
      obtain ⟨⟨source, stage⟩, later, fault⟩ := result
      obtain ⟨ties, aged, _⟩ := kept
      have whole : Aged now state { state with source, stage, agenda := some later } :=
        ⟨aged.titles, aged.busy, aged.observed⟩
      exact ⟨whole.sole sole time ties sole.copies, whole⟩

theorem Sole.advanceReplica (sole : Sole state) (time : state.observed = some now)
    (reached : ∀ time ∈ state.schedule.times, time ≤ now) (free : state.free id = true)
    : Sole (state.advanceReplica layout moment now id).1
      ∧ Aged now state (state.advanceReplica layout moment now id).1 := by
  rcases agenda_or_none state id with ⟨replica, agenda, isReplica, isAgenda⟩ | missing
  · have idle : replica.busy = false := by simpa [State.free, isReplica] using free
    have copied := sole.copies id replica isReplica
    have tied := copied.tied
    rw [isAgenda] at tied
    have start := @Aged.store state now id replica idle none
      { source := replica.source, stage := state.stage, owners := state.owners
        charged := state.replicaBytes }
      (fun name => by rw [title_store isReplica]) isReplica none
    obtain ⟨kept, _⟩ :=
      @Agenda.Sound.advance _ _ _ _ _ now _ agenda (moment.replica id)
        (@sound_fireReplica layout state now id moment.steady sole time replica isReplica idle none)
        start tied (reached agenda.time (.inr ⟨id, replica, agenda, isReplica, isAgenda, rfl⟩))
    obtain ⟨holding, later, fault, advanced, result⟩ :=
      advanceReplica_eq layout moment now isReplica isAgenda
    rw [advanced] at kept
    rw [result]
    obtain ⟨ties, aged, _⟩ := kept
    have whole : Aged now state (state.storedReplica id replica (some later) holding) :=
      .store idle aged.titles isReplica (some later)
    refine ⟨whole.sole sole time sole.tied ?_, whole⟩
    intro other current isCurrent
    change (state.replicas.set id _).get? other = some current at isCurrent
    rw [Assoc.get?_set] at isCurrent
    split at isCurrent
    · cases isCurrent
      refine ⟨ties, fun task _ _ isTask => ?_⟩
      rw [Replica.busy, isTask] at idle
      cases idle
    · exact sole.copies other current isCurrent
  · rw [advanceReplica_of_none missing]
    exact ⟨sole, .refl _ _⟩

/-- A copy that has nothing left that ends has no record. -/
theorem Copied.none_of_spent (copied : Copied replica) (spent : replica.spent = true) (name : Name)
    : replica.source.find name = none := by
  have tied := copied.tied
  simp only [Replica.spent, Bool.and_eq_true] at spent
  have absent : deadlines replica.source.find name = none := by
    cases isAgenda : replica.agenda with
    | none =>
        rw [isAgenda] at tied
        exact tied name
    | some agenda =>
        rw [isAgenda] at tied spent
        have related := tied name
        have unhooked : agenda.hooks.get? name = none := by
          by_contra hooked
          have empty : agenda.hooks.keys.isEmpty = true := spent.2
          have listed := (Assoc.mem_keys agenda.hooks name).mpr (Option.ne_none_iff_exists'.mp hooked)
          rw [List.isEmpty_iff.mp empty] at listed
          cases listed
        rw [unhooked] at related
        generalize deadlines replica.source.find name = deadline at related
        cases related
        rfl
  exact Option.map_eq_none_iff.mp absent

theorem Sole.forget (sole : Sole state) (time : state.observed = some now)
    (free : state.free id = true)
    : Sole (state.forget id) ∧ Aged now state (state.forget id) := by
  unfold State.forget
  cases isReplica : state.replicas.get? id with
  | none => exact ⟨sole, .refl _ _⟩
  | some replica =>
      dsimp only
      split
      next spent =>
        have whole : Aged now state { state with replicas := state.replicas.remove id } := by
          refine ⟨fun name => ?_, ?_, rfl⟩
          · have unchanged : ({ state with replicas := state.replicas.remove id } : State).title name
                = state.title name := by
              refine title_congr (fun party => ?_) rfl rfl
              cases party with
              | own => rfl
              | copy other =>
                  unfold State.record
                  dsimp only
                  rw [Assoc.get?_remove]
                  split
                  next same =>
                    rw [same, isReplica, Option.bind_some, Option.bind_none]
                    exact ((sole.copies id replica isReplica).none_of_spent spent name).symm
                  · rfl
            rw [unchanged]
          · intro other current isCurrent busy
            dsimp only
            rw [Assoc.get?_remove]
            split
            next same =>
              rw [same, isReplica] at isCurrent
              cases isCurrent
              simp [State.free, isReplica, busy] at free
            · exact isCurrent
        refine ⟨whole.sole sole time sole.tied ?_, whole⟩
        intro other current isCurrent
        dsimp only at isCurrent
        rw [Assoc.get?_remove] at isCurrent
        split at isCurrent
        · cases isCurrent
        · exact sole.copies other current isCurrent
      · exact ⟨sole, .refl _ _⟩

structure Advanced (now : Int) (before after : State) : Prop where
  sole : Sole after
  aged : Aged now before after
  reached : ∀ time ∈ after.schedule.times, time ≤ now

theorem Advanced.time (advanced : Advanced now state next) (time : state.observed = some now)
    : next.observed = some now :=
  advanced.aged.observed.trans time

theorem Advanced.trans (one : Advanced now state middle) (other : Advanced now middle last)
    : Advanced now state last :=
  ⟨other.sole, one.aged.trans other.aged, other.reached⟩

theorem Sole.advanced_source (sole : Sole state) (time : state.observed = some now)
    (reached : ∀ time ∈ state.schedule.times, time ≤ now)
    : Advanced now state (state.advanceSource layout moment now).1 :=
  ⟨(sole.advanceSource time reached).1, (sole.advanceSource time reached).2,
    (advanceSource_moves reached).reached reached⟩

theorem Sole.advanced_replica (sole : Sole state) (time : state.observed = some now)
    (reached : ∀ time ∈ state.schedule.times, time ≤ now) (free : state.free id = true)
    : Advanced now state (state.advanceReplica layout moment now id).1 :=
  ⟨(sole.advanceReplica time reached free).1, (sole.advanceReplica time reached free).2,
    (advanceReplica_moves reached).reached reached⟩

theorem Sole.advanced_forget (sole : Sole state) (time : state.observed = some now)
    (reached : ∀ time ∈ state.schedule.times, time ≤ now) (free : state.free id = true)
    : Advanced now state (state.forget id) :=
  ⟨(sole.forget time free).1, (sole.forget time free).2, (forget_moves state id).reached reached⟩

theorem free_advanceReplica (free : state.free id = true)
    : (state.advanceReplica layout moment now id).1.free id = true := by
  unfold State.free
  rw [Option.all_eq_true]
  intro replica isReplica
  obtain ⟨old, isOld, busy, _⟩ := get?_advanceReplica isReplica
  rw [State.free, isOld] at free
  rw [busy]
  simpa using free

/-- The copies are advanced one after the other. Witness: induction over their identities. -/
theorem Sole.advanceReplicas (sole : Sole state) (time : state.observed = some now)
    (reached : ∀ time ∈ state.schedule.times, time ≤ now) (ids : List Bytes)
    : Advanced now state (advanceReplicas layout moment now held ids state).1 := by
  induction ids generalizing state with
  | nil => exact ⟨sole, .refl _ _, reached⟩
  | cons id rest ih =>
      unfold State.advanceReplicas
      split
      · exact ih sole time reached
      rename_i replica isReplica
      split
      · exact ih sole time reached
      split
      · exact ih sole time reached
      rename_i idle
      have free : state.free id = true := by simpa [State.free, isReplica] using idle
      have first := @Sole.advanced_replica layout state moment now id sole time reached free
      have freeNext := @free_advanceReplica layout state moment now id free
      generalize state.advanceReplica layout moment now id = result at first freeNext
      obtain ⟨next, fault⟩ := result
      cases fault with
      | some fault => exact first
      | none =>
          have second := first.sole.advanced_forget (first.time time) first.reached freeNext
          have both := first.trans second
          exact both.trans (ih both.sole (both.time time) both.reached)

/-- What is due ends, and everything else stays. -/
theorem Sole.advance (sole : Sole state) (timed : Timed now state)
    : Advanced now state (state.advance layout moment now held).1 := by
  unfold State.advance
  split
  · exact ⟨sole, .refl _ _, timed.reached⟩
  unfold State.sweep
  have first := @Sole.advanceReplicas layout state moment now held sole timed.observed timed.reached
    state.identities
  generalize State.advanceReplicas layout moment now held state.identities state = result at first
  obtain ⟨middle, fault, blocked⟩ := result
  cases fault with
  | some fault => exact first
  | none =>
      dsimp only at first ⊢
      have second := @Sole.advanced_source layout middle moment now first.sole
        (first.time timed.observed) first.reached
      generalize middle.advanceSource layout moment now = result at second
      obtain ⟨last, fault⟩ := result
      have both := first.trans second
      cases fault with
      | some fault => exact both
      | none => exact ⟨{ both.sole with }, ⟨both.aged.titles, both.aged.busy, both.aged.observed⟩,
          both.reached⟩

end State

end Astra.Ephemeris
