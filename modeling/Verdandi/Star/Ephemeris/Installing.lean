import Verdandi.Star.Ephemeris.Owning
import Verdandi.Star.Ephemeris.Restoring

/-! The installation of a complete state, Scope by Scope. A name that others show is a conflict; what has
ended on its way is held but not shown.
-/

namespace Astra.Ephemeris.State

open Support
open Origin (Name)

variable {layout : Layout} {state next middle last : State} {moment : Moment} {now : Int} {id : Bytes}
  {name : Name}

-- The private candidate

variable {batch : Origin.Batch Record} {rows : List (Name × Record)}

/-- Rows are set one after the other. Witness: induction over them. -/
theorem find_nativeRows {origin : Origin Record} {pairs : List (Name × Record)}
    {final : Origin.Batch Record} {out : List (Name × Record)} (of : batch.Of origin)
    (prepared : nativeRows layout pairs batch rows = .ok (final, out))
    : out = rows ++ pairs ∧ final.Of origin ∧ final.find = pairs.foldl
          (fun (records : Name → Option Record) pair => Function.update records pair.1 (some pair.2))
          batch.find := by
  induction pairs generalizing batch rows with
  | nil =>
      cases prepared
      exact ⟨by simp, of, rfl⟩
  | cons first rest ih =>
      obtain ⟨name, incoming⟩ := first
      unfold nativeRows at prepared
      split at prepared
      · cases prepared
      split at prepared
      · cases prepared
      split at prepared
      · cases prepared
      rename_i middle isSet
      obtain ⟨ofMiddle, entries, _⟩ := of.set isSet
      obtain ⟨same, ofFinal, find⟩ := ih ofMiddle prepared
      refine ⟨by simpa using same, ofFinal, ?_⟩
      have isMiddle : middle.find = Function.update batch.find name (some incoming) := by
        funext other
        rw [Origin.Batch.find, entries, Assoc.get?_set, Function.update_apply]
        rfl
      rw [find, isMiddle]
      rfl

/-- The candidate of a Scope has the records of the complete state there, and all others as they
were.
-/
theorem fits_of_native {source : Origin Record} {draft : Origin.Draft Record} {scope : Scope}
    {task : Replica.Task Record Error} (isDraft : task.draft = draft) (isScope : task.scope = scope)
    (isPrevious : task.previous = (source.each scope).map Prod.fst)
    {batch : Origin.Batch Record} {rows : List (Name × Record)}
    (prepared : native layout source draft scope = .ok (batch, rows))
    : Fits source task batch rows := by
  unfold native at prepared
  split at prepared
  · cases prepared
  rename_i first isFirst
  obtain ⟨of, _, entries, _⟩ := Origin.Batch.of_prepare isFirst
  dsimp only at prepared
  split at prepared
  · cases prepared
  rename_i middle erased
  obtain ⟨ofMiddle, find⟩ := of.erases erased
  obtain ⟨same, ofFinal, sets⟩ := find_nativeRows ofMiddle prepared
  rw [List.nil_append] at same
  subst isDraft isScope
  have isSource (name : Name) : first.find name = source.find name := by
    rw [Origin.Batch.find, entries]
    rfl
  have listed (name : Name) (record : Record) : (name, record) ∈ rows
      ↔ name.scope = task.scope ∧ task.draft.candidate.find name = some record := by
    rw [same, Origin.mem_each, and_comm]
  have distinct : (rows.map Prod.fst).Nodup := same ▸ Origin.nodup_each _
  refine ⟨fun name => isPrevious ▸ Origin.mem_names, isPrevious ▸ Origin.nodup_each _, ?_, listed,
    distinct⟩
  intro name
  rw [ofFinal.find_commit, sets, ← same]
  cases isIncoming : task.draft.candidate.find name with
  | none =>
      -- The complete state lacks the name: erased in this Scope, kept in others.
      have unset : name ∉ rows.map Prod.fst := by
        intro isRow
        obtain ⟨row, inside, rfl⟩ := List.mem_map.mp isRow
        have found := ((listed row.1 row.2).mp inside).2
        rw [isIncoming] at found
        cases found
      rw [foldl_update_of_notMem unset, find, isSource]
      simp only [List.mem_filter, Origin.mem_names, isIncoming]
      by_cases inside : name.scope = task.scope <;> cases source.find name <;> simp [inside]
  | some record =>
      by_cases inside : name.scope = task.scope
      · rw [if_pos inside]
        exact @foldl_update_of_mem _ _ _ _ _ Prod.fst (fun row => some row.2) _ (name, record)
          distinct ((listed name record).mpr ⟨inside, isIncoming⟩)
      · have unset : name ∉ rows.map Prod.fst := by
          intro isRow
          obtain ⟨row, isInside, rfl⟩ := List.mem_map.mp isRow
          exact inside ((listed row.1 row.2).mp isInside).1
        rw [foldl_update_of_notMem unset, find, isSource, if_neg inside]
        simp [isIncoming]

/-- The hooks of the candidate. -/
theorem Fits.tied {source : Origin Record} {task : Replica.Task Record Error}
    (fits : Fits source task batch rows) {agenda : Option Agenda}
    (tied : Tied agenda (deadlines source.find))
    (opened : rows.isEmpty = false → agenda.isSome = true)
    : Tied
        (rows.foldl (fun agenda row => Agenda.hold agenda row.1 (some row.2.deadline))
          (task.previous.foldl (fun agenda name => Agenda.hold agenda name none) agenda))
        (deadlines batch.commit.find) := by
  have released := @Tied.holds _ _ _ task.previous (fun name => name) (fun _ => none) tied nofun
  have filled := @Tied.holds _ _ _ rows Prod.fst (fun row => some row.2.deadline) released
    (fun row listed _ => by
      rw [Agenda.isSome_holds]
      exact opened (List.isEmpty_eq_false_iff.mpr (List.ne_nil_of_mem listed)))
  have same : rows.foldl
        (fun (held : Name → Option Int) row => Function.update held row.1 (some row.2.deadline))
        (task.previous.foldl (fun held name => Function.update held name none)
          (deadlines source.find))
      = deadlines batch.commit.find := by
    funext name
    rw [deadlines, fits.find]
    by_cases listed : name ∈ rows.map Prod.fst
    · obtain ⟨row, isRow, rfl⟩ := List.mem_map.mp listed
      obtain ⟨inside, found⟩ := (fits.listed row.1 row.2).mp isRow
      rw [if_pos inside, found]
      exact @foldl_update_of_mem _ _ _ _ _ Prod.fst (fun row => some row.2.deadline) _ row
        fits.distinct isRow
    · rw [foldl_update_of_notMem listed, foldl_update_const]
      simp only [fits.previous]
      by_cases inside : name.scope = task.scope
      · have absent : task.draft.candidate.find name = none := by
          by_contra found
          obtain ⟨record, isRecord⟩ := Option.ne_none_iff_exists'.mp found
          exact listed (List.mem_map_of_mem ((fits.listed name record).mpr ⟨inside, isRecord⟩))
        rw [if_pos inside, absent, deadlines]
        cases source.find name <;> simp [inside]
      · rw [if_neg inside, if_neg fun both => inside both.1]
        rfl
  rw [← same]
  exact filled

-- What is shown of a Scope

def lasting (time : Int) (rows : List (Name × Record)) : List (Name × Record) :=
  rows.filter (time < ·.2.deadline)

/-- The rows that last and are not shown yet, or with other data. -/
def differing (state : State) (time : Int) (rows : List (Name × Record)) : List (Name × Record) :=
  (lasting time rows).filter fun row => (state.stage.find row.1).all (·.data ≠ row.2.data)

def showing (state : State) (row : Name × Record) : Stage.Row Content where
  key := row.1.key
  record := some row.2.content
  data := (state.stage.find row.1).isSome

structure Shows (id : Bytes) (time : Int) (state : State) (rows : List (Name × Record))
    (before after : Showing)
    : Prop where
  removed : after.removed = before.removed
  added : after.added = before.added
      ++ ((lasting time rows).filter fun row => (state.stage.find row.1).isNone).map Prod.fst
  changes : after.changes = before.changes ++ (differing state time rows).map state.showing
  mine : ∀ row ∈ lasting time rows, ∀ current, state.stage.find row.1 = some current
    → state.owners.get? row.1 = some id ∧ current.attr = row.2.attr

/-- Witness: induction over the rows. -/
theorem shows_of_showRows {time : Int} {before after : Showing}
    (shown : state.showRows id time rows before = .ok after)
    : Shows id time state rows before after := by
  induction rows generalizing before with
  | nil =>
      cases shown
      exact ⟨rfl, by simp [lasting], by simp [differing, lasting], nofun⟩
  | cons first rest ih =>
      obtain ⟨name, incoming⟩ := first
      unfold showRows at shown
      split at shown
      next ended =>
        obtain ⟨removed, added, changes, mine⟩ := ih shown
        have skipped : lasting time ((name, incoming) :: rest) = lasting time rest := by
          simp [lasting, ended]
        exact ⟨removed, by rw [skipped, added], by rw [differing, skipped, changes, differing],
          by rw [skipped]; exact mine⟩
      rename_i lasts
      have taken : lasting time ((name, incoming) :: rest)
          = (name, incoming) :: lasting time rest := by
        simp [lasting, Int.not_le.mp lasts]
      dsimp only at shown
      split at shown
      next current isCurrent =>
        split at shown
        · cases shown
        rename_i owned
        simp only [not_or, not_not] at owned
        have mineFirst : ∀ found, state.stage.find name = some found
            → state.owners.get? name = some id ∧ found.attr = incoming.attr := by
          intro found isFound
          rw [isCurrent] at isFound
          cases isFound
          exact owned
        split at shown
        next same =>
          obtain ⟨removed, added, changes, mine⟩ := ih shown
          refine ⟨removed, ?_, ?_, ?_⟩
          · rw [taken, added]
            simp [isCurrent]
          · rw [changes, differing, differing, taken]
            simp [isCurrent, same]
          · rw [taken]
            intro row listed
            rcases List.mem_cons.mp listed with rfl | later
            · exact mineFirst
            · exact mine row later
        rename_i other
        obtain ⟨removed, added, changes, mine⟩ := ih shown
        refine ⟨removed, ?_, ?_, ?_⟩
        · rw [taken, added]
          simp [isCurrent]
        · rw [changes, differing, differing, taken]
          simp [isCurrent, other, State.showing]
        · rw [taken]
          intro row listed
          rcases List.mem_cons.mp listed with rfl | later
          · exact mineFirst
          · exact mine row later
      rename_i isHidden
      obtain ⟨removed, added, changes, mine⟩ := ih shown
      refine ⟨removed, ?_, ?_, ?_⟩
      · rw [taken, added]
        simp [isHidden]
      · rw [changes, differing, differing, taken]
        simp [isHidden, State.showing]
      · rw [taken]
        intro row listed
        rcases List.mem_cons.mp listed with rfl | later
        · intro current isCurrent
          rw [isHidden] at isCurrent
          cases isCurrent
        · exact mine row later

/-- What an installation has to be committed: its candidate, and what is hidden and shown for it. -/
structure Ready (id : Bytes) (time : Int) (task : Replica.Task Record Error)
    (batch : Origin.Batch Record) (rows : List (Name × Record)) (state : State)
    (replica : Replica Record Error) (showing : Showing) (stage : Stage Content)
    : Prop where
  isReplica : state.replicas.get? id = some replica
  fits : Fits replica.source task batch rows
  shows : Shows id time state rows
    { changes := (state.hideRows id task.draft time task.previous).map fun name =>
        { key := name.key, record := none }
      removed := state.hideRows id task.draft time task.previous } showing
  find : ∀ name : Name, stage.find name = if name.scope = task.scope then
        showing.changes.foldl (fun content row => Function.update content row.key row.record)
          (fun key => state.stage.find ⟨task.scope, key⟩) name.key
      else state.stage.find name

section

variable {time : Int} {task : Replica.Task Record Error} {batch : Origin.Batch Record}
  {rows : List (Name × Record)} {replica : Replica Record Error} {shown : Showing}
  {stage : Stage Content}

def touched (state : State) (id : Bytes) (time : Int) (task : Replica.Task Record Error)
    (rows : List (Name × Record))
    : List Name :=
  state.hideRows id task.draft time task.previous ++ (state.differing time rows).map Prod.fst

variable {record : Record}

theorem Fits.mem_lasting (fits : Fits replica.source task batch rows)
    : (name, record) ∈ lasting time rows
      ↔ name.scope = task.scope ∧ task.draft.candidate.find name = some record
        ∧ time < record.deadline := by
  rw [lasting, List.mem_filter, fits.listed, decide_eq_true_iff, and_assoc]

/-- What is hidden belongs to the copy and does not last. -/
theorem Ready.mem_hidden (ready : Ready id time task batch rows state replica shown stage)
    (sole : Sole state) (inside : name.scope = task.scope)
    : name ∈ state.hideRows id task.draft time task.previous ↔ state.owner name = .copy id
        ∧ ∀ record, task.draft.candidate.find name = some record → record.deadline ≤ time := by
  rw [hideRows, List.mem_filter, Bool.and_assoc, Bool.and_eq_true, visible_iff (sole.titles name),
    ready.fits.previous]
  constructor
  · rintro ⟨_, ended, isOwner⟩
    refine ⟨isOwner, fun record isRecord => ?_⟩
    simpa [isRecord] using ended
  · rintro ⟨isOwner, ended⟩
    obtain ⟨old, found, _⟩ := sole.owner_copy (owner_eq_copy.mp isOwner)
    rw [State.record, ready.isReplica, Option.bind_some] at found
    refine ⟨⟨inside, by rw [found]; rfl⟩, ?_, isOwner⟩
    cases isRecord : task.draft.candidate.find name with
    | none => rfl
    | some record => simpa using ended record isRecord

theorem Ready.inside (ready : Ready id time task batch rows state replica shown stage)
    (listed : name ∈ state.touched id time task rows)
    : name.scope = task.scope := by
  rcases List.mem_append.mp listed with hidden | isRow
  · exact ((ready.fits.previous name).mp (List.mem_filter.mp hidden).1).1
  · obtain ⟨row, differs, rfl⟩ := List.mem_map.mp isRow
    exact (ready.fits.mem_lasting.mp (List.mem_filter.mp differs).1).1

theorem Ready.keys (ready : Ready id time task batch rows state replica shown stage)
    : shown.changes.map Stage.Row.key = (state.touched id time task rows).map Name.key := by
  rw [ready.shows.changes, touched, List.map_append, List.map_append, List.map_map, List.map_map,
    List.map_map]
  rfl

/-- Names of one Scope differ by their keys. -/
theorem eq_of_key {one other : Name} (scope : one.scope = other.scope) (key : one.key = other.key)
    : one = other := by
  cases one
  cases other
  exact (Name.mk.injEq _ _ _ _).mpr ⟨scope, key⟩

/-- Every name is changed once. -/
theorem Ready.distinct (ready : Ready id time task batch rows state replica shown stage)
    (sole : Sole state)
    : (shown.changes.map Stage.Row.key).Nodup := by
  have names : (state.touched id time task rows).Nodup := by
    refine List.nodup_append.mpr ⟨ready.fits.former.sublist List.filter_sublist, ?_, ?_⟩
    · exact ready.fits.distinct.sublist ((List.filter_sublist.trans List.filter_sublist).map _)
    · intro name hidden other isRow same
      subst same
      obtain ⟨row, differs, rfl⟩ := List.mem_map.mp isRow
      obtain ⟨inside, found, lasts⟩ := ready.fits.mem_lasting.mp (List.mem_filter.mp differs).1
      have ended := ((ready.mem_hidden sole inside).mp hidden).2 row.2 found
      exact absurd lasts (Int.not_lt.mpr ended)
  rw [ready.keys]
  exact names.map_on fun one isOne other isOther same =>
    eq_of_key ((ready.inside isOne).trans (ready.inside isOther).symm) same

/-- What is not touched is shown as before. -/
theorem Ready.find_of_notMem (ready : Ready id time task batch rows state replica shown stage)
    (inside : name.scope = task.scope) (untouched : name ∉ state.touched id time task rows)
    : stage.find name = state.stage.find name := by
  have absent : name.key ∉ shown.changes.map Stage.Row.key := by
    rw [ready.keys]
    intro listed
    obtain ⟨other, isOther, same⟩ := List.mem_map.mp listed
    exact untouched (eq_of_key ((ready.inside isOther).trans inside.symm) same ▸ isOther)
  rw [ready.find, if_pos inside, foldl_update_of_notMem absent, ← inside]

/-- A name whose record lasts is shown, for the copy. -/
theorem Ready.find_of_lasting (ready : Ready id time task batch rows state replica shown stage)
    (sole : Sole state) (isRow : (name, record) ∈ lasting time rows)
    : stage.find name = some record.content := by
  obtain ⟨inside, found, lasts⟩ := ready.fits.mem_lasting.mp isRow
  by_cases differs : (name, record) ∈ state.differing time rows
  · have listed : state.showing (name, record) ∈ shown.changes := by
      rw [ready.shows.changes]
      exact List.mem_append_right _ (List.mem_map_of_mem differs)
    rw [ready.find, if_pos inside]
    exact @foldl_update_of_mem _ _ _ _ _ Stage.Row.key Stage.Row.record _ _ (ready.distinct sole) listed
  · have untouched : name ∉ state.touched id time task rows := by
      rw [touched, List.mem_append, not_or]
      constructor
      · intro hidden
        exact absurd lasts (Int.not_lt.mpr (((ready.mem_hidden sole inside).mp hidden).2 record found))
      · intro isName
        obtain ⟨⟨_, other⟩, isOther, rfl⟩ := List.mem_map.mp isName
        have same := (ready.fits.mem_lasting.mp (List.mem_filter.mp isOther).1).2.1
        rw [found] at same
        cases same
        exact differs isOther
    rw [ready.find_of_notMem inside untouched]
    have same : ¬ (state.stage.find name).all (·.data ≠ record.data) = true := fun differing =>
      differs (List.mem_filter.mpr ⟨isRow, differing⟩)
    cases isCurrent : state.stage.find name with
    | none => simp [isCurrent] at same
    | some current =>
        have data : current.data = record.data := by simpa [isCurrent] using same
        have attr := (ready.shows.mine (name, record) isRow current isCurrent).2
        obtain ⟨attr', data'⟩ := current
        dsimp only at data attr
        rw [data, attr, Record.content]

/-- A name whose record does not last is hidden, if it was shown for the copy. -/
theorem Ready.find_of_ended (ready : Ready id time task batch rows state replica shown stage)
    (sole : Sole state) (inside : name.scope = task.scope)
    (ended : ∀ record, task.draft.candidate.find name = some record → record.deadline ≤ time)
    : stage.find name = if state.owner name = .copy id then none else state.stage.find name := by
  split
  next isOwner =>
    have hidden := (ready.mem_hidden sole inside).mpr ⟨isOwner, ended⟩
    have listed : ({ key := name.key, record := none } : Stage.Row Content) ∈ shown.changes := by
      rw [ready.shows.changes]
      exact List.mem_append_left _ (List.mem_map_of_mem hidden)
    rw [ready.find, if_pos inside]
    exact @foldl_update_of_mem _ _ _ _ _ Stage.Row.key Stage.Row.record _ _ (ready.distinct sole) listed
  rename_i isOther
  refine ready.find_of_notMem inside ?_
  rw [touched, List.mem_append, not_or]
  constructor
  · exact fun hidden => isOther ((ready.mem_hidden sole inside).mp hidden).1
  · intro isName
    obtain ⟨⟨_, record⟩, isRow, rfl⟩ := List.mem_map.mp isName
    obtain ⟨_, found, lasts⟩ := ready.fits.mem_lasting.mp (List.mem_filter.mp isRow).1
    exact absurd lasts (Int.not_lt.mpr (ended record found))

/-- The names that come to belong to a copy, or cease to. -/
theorem Ready.owner (ready : Ready id time task batch rows state replica shown stage) (name : Name)
    : (state.commitTask id replica task batch rows shown stage).owner name
      = if name ∈ state.hideRows id task.draft time task.previous then .own
        else if name ∈ shown.added then .copy id
        else state.owner name := by
  have own : (state.commitTask id replica task batch rows shown stage).owner name
      = ((shown.removed.foldl (fun owners name => owners.remove name)
          (shown.added.foldl (fun owners name => owners.set name id) state.owners)).get? name).elim
          .own .copy := rfl
  rw [own, Assoc.get?_removes, Assoc.get?_sets, ready.shows.removed]
  split
  · rfl
  split <;> rfl

theorem Ready.mem_added (ready : Ready id time task batch rows state replica shown stage)
    : name ∈ shown.added
      ↔ (∃ record, (name, record) ∈ lasting time rows) ∧ state.stage.find name = none := by
  rw [ready.shows.added, List.nil_append]
  simp only [List.mem_map, List.mem_filter, Option.isNone_iff_eq_none, Prod.exists,
    exists_and_right, exists_eq_right]

theorem Ready.owner_of_lasting (ready : Ready id time task batch rows state replica shown stage)
    (sole : Sole state) (isRow : (name, record) ∈ lasting time rows)
    : (state.commitTask id replica task batch rows shown stage).owner name = .copy id := by
  obtain ⟨inside, found, lasts⟩ := ready.fits.mem_lasting.mp isRow
  rw [ready.owner, if_neg fun hidden => absurd lasts
    (Int.not_lt.mpr (((ready.mem_hidden sole inside).mp hidden).2 record found))]
  split
  · rfl
  rename_i known
  obtain ⟨current, isCurrent⟩ := Option.ne_none_iff_exists'.mp fun hidden =>
    known (ready.mem_added.mpr ⟨⟨record, isRow⟩, hidden⟩)
  exact owner_eq_copy.mpr (ready.shows.mine (name, record) isRow current isCurrent).1

theorem Ready.owner_of_ended (ready : Ready id time task batch rows state replica shown stage)
    (sole : Sole state) (inside : name.scope = task.scope)
    (ended : ∀ record, task.draft.candidate.find name = some record → record.deadline ≤ time)
    : (state.commitTask id replica task batch rows shown stage).owner name
      = if state.owner name = .copy id then .own else state.owner name := by
  have unadded : name ∉ shown.added := by
    intro listed
    obtain ⟨⟨record, isRow⟩, _⟩ := ready.mem_added.mp listed
    obtain ⟨_, found, lasts⟩ := ready.fits.mem_lasting.mp isRow
    exact absurd lasts (Int.not_lt.mpr (ended record found))
  rw [ready.owner, if_neg unadded]
  by_cases isOwner : state.owner name = .copy id
  · rw [if_pos isOwner, if_pos ((ready.mem_hidden sole inside).mpr ⟨isOwner, ended⟩)]
  · rw [if_neg isOwner, if_neg fun hidden => isOwner ((ready.mem_hidden sole inside).mp hidden).1]

theorem Ready.owner_outside (ready : Ready id time task batch rows state replica shown stage)
    (outside : name.scope ≠ task.scope)
    : (state.commitTask id replica task batch rows shown stage).owner name = state.owner name := by
  rw [ready.owner, if_neg fun hidden => outside (ready.inside (List.mem_append_left _ hidden)),
    if_neg fun listed => ?_]
  obtain ⟨⟨record, isRow⟩, _⟩ := ready.mem_added.mp listed
  exact outside (ready.fits.mem_lasting.mp isRow).1

/-- An installation commits for its copy only. -/
theorem Sole.commitTask (sole : Sole state) (idle : replica.task = none)
    (ready : Ready id time task batch rows state replica shown stage)
    (observed : ∃ now, state.observed = some now ∧ time ≤ now)
    (opened : rows.isEmpty = false → replica.agenda.isSome = true)
    : Sole (state.commitTask id replica task batch rows shown stage)
      ∧ Acts (some (.copy id)) state (state.commitTask id replica task batch rows shown stage) := by
  have records (party : Owner) (place : Name)
      : (state.commitTask id replica task batch rows shown stage).record party place
        = if party = .copy id then batch.commit.find place else state.record party place :=
    @record_replicas state (state.commitTask id replica task batch rows shown stage) id _ rfl rfl party
      place
  have find (place : Name)
      : (state.commitTask id replica task batch rows shown stage).stage.find place = stage.find place :=
    rfl
  have acts : Acts (some (.copy id)) state
      (state.commitTask id replica task batch rows shown stage) := by
    refine acts_of_changes (fun place => ?_) (.refl _)
    by_cases inside : place.scope = task.scope
    · by_cases lasts : ∃ record, (place, record) ∈ lasting time rows
      · obtain ⟨record, isRow⟩ := lasts
        have put : (state.commitTask id replica task batch rows shown stage).title place
            = (state.title place).put .own (.copy id) Record.content (some record) := by
          unfold title Title.put
          congr
          · funext party
            rw [records, ready.fits.find, if_pos inside,
              (ready.fits.mem_lasting.mp isRow).2.1, Function.update_apply]
          · exact ready.owner_of_lasting sole isRow
          · exact ready.find_of_lasting sole isRow
        rw [put]
        refine .put _ ?_
        cases isCurrent : state.stage.find place with
        | none => exact .inr isCurrent
        | some current =>
            exact .inl (owner_eq_copy.mpr (ready.shows.mine (place, record) isRow current isCurrent).1)
      · have ended : ∀ record, task.draft.candidate.find place = some record
            → record.deadline ≤ time := by
          intro record found
          by_contra late
          exact lasts ⟨record, ready.fits.mem_lasting.mpr ⟨inside, found, Int.not_le.mp late⟩⟩
        have lay : (state.commitTask id replica task batch rows shown stage).title place
            = (state.title place).lay .own (.copy id) (task.draft.candidate.find place) := by
          unfold title Title.lay
          congr
          · funext party
            rw [records, ready.fits.find, if_pos inside, Function.update_apply]
          · exact ready.owner_of_ended sole inside ended
          · exact ready.find_of_ended sole inside ended
        rw [lay]
        refine .lay _ nofun fun record found => ?_
        obtain ⟨now, isNow, reached⟩ := observed
        exact ⟨now, isNow, (ended record found).trans reached⟩
    · have unchanged : (state.commitTask id replica task batch rows shown stage).title place
          = state.title place := by
        refine title_congr (fun party => ?_) (ready.owner_outside inside) ?_
        · rw [records, ready.fits.find, if_neg inside]
          split
          next isCopy => rw [isCopy, State.record, ready.isReplica, Option.bind_some]
          · rfl
        · rw [find, ready.find, if_neg inside]
      rw [unchanged]
      exact .same
  refine ⟨acts.sole sole sole.tied ?_, acts⟩
  intro other current isCurrent
  change (state.replicas.set id _).get? other = some current at isCurrent
  rw [Assoc.get?_set] at isCurrent
  split at isCurrent
  · cases isCurrent
    exact copied_of_idle idle (ready.fits.tied (sole.copies id replica ready.isReplica).tied opened)
  · exact sole.copies other current isCurrent

end

/-- The changes of an installation are shown, if there are any. -/
theorem find_of_changes {scope : Scope} {changes : List (Stage.Row Content)} {steady : Int}
    {stage last : Stage Content}
    (changed : (if changes.isEmpty then .ok stage
      else (stage.obtain' scope).bind fun stage => stage.changes layout.measure scope changes steady)
        = .ok last)
    (name : Name)
    : last.find name = if name.scope = scope then
          changes.foldl (fun content row => Function.update content row.key row.record)
            (fun key => stage.find ⟨scope, key⟩) name.key
        else stage.find name := by
  split at changed
  next none =>
    cases changed
    rw [List.isEmpty_iff.mp none, List.foldl_nil]
    split
    next inside => rw [← inside]
    · rfl
  · cases isOpened : stage.obtain' scope with
    | error refused =>
        rw [isOpened] at changed
        cases changed
    | ok opened =>
        rw [isOpened] at changed
        rw [Stage.find_changes changed, Stage.find_obtain isOpened]

theorem Sole.installAt (sole : Sole state) (free : state.free id = true)
    {task : Replica.Task Record Error} {batch : Origin.Batch Record}
    {rows : List (Name × Record)} {time : Int} (isTime : state.observed = some time)
    (fits : ∀ replica, state.replicas.get? id = some replica → Fits replica.source task batch rows)
    : Sole (state.installAt layout id task batch rows time moment).2
      ∧ Acts (some (.copy id)) state (state.installAt layout id task batch rows time moment).2 := by
  unfold State.installAt
  cases isReplica : state.replicas.get? id with
  | none =>
      have unopened : (if rows.isEmpty then state else state.openReplica id time) = state := by
        unfold State.openReplica
        rw [isReplica]
        split <;> rfl
      dsimp only
      rw [unopened, isReplica]
      exact ⟨sole, .refl _ _⟩
  | some replica =>
      have idle := idle_of_free free isReplica
      have opening := @Sole.openWhere state id sole replica isReplica (!rows.isEmpty) time none
      rw [show (if (!rows.isEmpty) = true then state.openReplica id time else state)
          = if rows.isEmpty then state else state.openReplica id time by cases rows <;> rfl] at opening
      obtain ⟨agenda, soleOpened, acts, isOpened, stage, owners, active⟩ := opening
      have observed : Onwards state.observed
          (if rows.isEmpty then state else state.openReplica id time).observed := acts.observed
      dsimp only
      generalize (if rows.isEmpty then state else state.openReplica id time) = opened
        at soleOpened acts isOpened stage owners observed
      have given : Acts (some (.copy id)) state opened := .after (.refl _ _) acts
      rw [isOpened]
      dsimp only
      split
      · exact ⟨soleOpened, given⟩
      split
      · exact ⟨soleOpened, given⟩
      rename_i shown isShown
      split
      · exact ⟨soleOpened, given⟩
      rename_i last isLast
      split
      · exact ⟨soleOpened, given⟩
      split
      · exact ⟨soleOpened, given⟩
      rename_i stamp final isRead
      obtain ⟨soleFinal, actsRead⟩ := soleOpened.read isRead
      have actsFinal := actsRead.after acts
      have isFinal := (reading_some isRead).2
      split
      · exact ⟨soleFinal, .after (.refl _ _) actsFinal⟩
      · have ready : Ready id time task batch rows final { replica with agenda } shown last := by
          rw [isFinal]
          exact
            { isReplica := isOpened
              fits := fits replica isReplica
              shows := by
                obtain ⟨removed, added, changes, mine⟩ := shows_of_showRows isShown
                exact ⟨removed, added, changes, mine⟩
              find := find_of_changes isLast }
        have reached := (observed.trans actsRead.observed) time isTime
        have idleOpened : ({ replica with agenda } : Replica Record Error).task = none := idle
        obtain ⟨soleLast, actsLast⟩ := soleFinal.commitTask idleOpened ready reached
          (fun filled => active (by rw [filled]; rfl))
        exact ⟨soleLast, actsLast.after actsFinal⟩

theorem Sole.complete (sole : Sole state) (prompt : state.schedule.Prompt)
    : Sole (state.complete layout id moment).2
      ∧ Acts (some (.copy id)) state (state.complete layout id moment).2 := by
  unfold State.complete
  split
  · exact ⟨sole, .refl _ _⟩
  rename_i replica isReplica
  split
  · exact ⟨sole, .refl _ _⟩
  rename_i task isTask
  have copied := sole.copies id replica isReplica
  have released : Copied { replica with task := none } := ⟨copied.tied, nofun⟩
  have fits := copied.task task
  have prompt := @prompt_release state id prompt
  have amended : state.amendReplica id (fun replica => { replica with task := none })
      = { state with replicas := state.replicas.set id { replica with task := none } } := by
    rw [amendReplica, isReplica]
  have whole := sole.exchange released isReplica rfl state.due none
  rw [← amended] at whole
  obtain ⟨soleIdle, actsIdle⟩ := whole
  have isReleased : (state.amendReplica id fun replica => { replica with task := none }).replicas.get? id
      = some { replica with task := none } := by
    rw [amended, Assoc.get?_set, if_pos rfl]
  dsimp only
  generalize (state.amendReplica id fun replica => { replica with task := none }) = idle
    at prompt soleIdle actsIdle isReleased
  have given : Acts (some (.copy id)) state idle := .after (.refl _ _) actsIdle
  split
  · exact ⟨soleIdle, given⟩
  rename_i batch rows isPrepared
  split
  · exact ⟨soleIdle, given⟩
  split
  · exact ⟨soleIdle, given⟩
  rename_i stamp read isRead
  obtain ⟨soleRead, actsRead⟩ := soleIdle.read isRead
  have timed := timed_of_reading prompt isRead
  have advanced := @Sole.advance layout read moment stamp.time (some id) soleRead timed
  have stays := @get?_advance_held layout read moment stamp.time id
  rw [(reading_some isRead).2, isReleased, ← (reading_some isRead).2] at stays
  generalize read.advance layout moment stamp.time (some id) = result at advanced stays
  obtain ⟨last, fault⟩ := result
  dsimp only at advanced stays
  have before := ((advanced.aged.acts timed.observed).after actsRead).after actsIdle
  cases fault with
  | some fault => exact ⟨advanced.sole, .after (.refl _ _) before⟩
  | none =>
      have free : last.free id = true := by
        rw [State.free, stays]
        rfl
      obtain ⟨soleLast, actsLast⟩ := @Sole.installAt layout last moment id advanced.sole free
        task batch rows stamp.time (advanced.time timed.observed) (by
          intro current isCurrent
          rw [stays] at isCurrent
          cases isCurrent
          exact fits batch rows isTask isPrepared)
      exact ⟨soleLast, actsLast.after before⟩

theorem Sole.begin (sole : Sole state) (prompt : state.schedule.Prompt)
    (free : state.free id = true) (draft : Origin.Draft Record) (scope : Scope)
    : Sole (state.begin layout id draft scope moment).2
      ∧ Acts (some (.copy id)) state (state.begin layout id draft scope moment).2 := by
  unfold State.begin
  split
  · exact ⟨sole, .refl _ _⟩
  split
  · exact ⟨sole, .refl _ _⟩
  split
  · exact ⟨sole, .refl _ _⟩
  rename_i stamp read isRead
  obtain ⟨soleRead, actsRead⟩ := sole.read isRead
  have timed := timed_of_reading prompt isRead
  have freeRead : read.free id = true := by rw [(reading_some isRead).2]; exact free
  generalize own : read.advanceReplica layout moment stamp.time id = result
  obtain ⟨middle, fault⟩ := result
  obtain ⟨first, soleLast, actsLast, freeLast⟩ := soleRead.advanceBoth timed freeRead own
  cases fault with
  | some fault => exact ⟨first.1, .after (.after (.refl _ _) first.2) actsRead⟩
  | none =>
      dsimp only
      generalize middle.advance layout moment stamp.time (some id) = result
        at soleLast actsLast freeLast
      obtain ⟨last, fault⟩ := result
      have before := actsLast.after actsRead
      cases fault with
      | some fault => exact ⟨soleLast, .after (.refl _ _) before⟩
      | none =>
          dsimp only at soleLast before ⊢
          unfold State.amendReplica
          split
          · exact ⟨soleLast, .after (.refl _ _) before⟩
          rename_i replica isReplica
          have busy : Copied
              { replica with
                task := some
                  { draft
                    scope
                    bytes := replica.source.charged
                    previous := (replica.source.each scope).map Prod.fst
                    prepared := native layout replica.source draft scope } } := by
            refine ⟨(soleLast.copies id replica isReplica).tied, ?_⟩
            rintro _ batch rows ⟨⟩ isPrepared
            exact fits_of_native rfl rfl rfl isPrepared
          obtain ⟨soleBusy, acts⟩ := soleLast.exchange busy isReplica rfl last.due (some (.copy id))
          exact ⟨soleBusy, acts.after before⟩

-- Runs

def Action.driver : Action → Option Owner
  | .create .. => some .own
  | .change .. => some .own
  | .remove .. => some .own
  | .tick _ => none
  | .read _ => none
  | .admitReplica _ => none
  | .retire id => some (.copy id)
  | .covered id .. => some (.copy id)
  | .receive id .. => some (.copy id)
  | .begin id .. => some (.copy id)
  | .complete id _ => some (.copy id)
  | .finish id _ => some (.copy id)

theorem Sole.step (sole : Sole state) (prompt : state.schedule.Prompt) {action : Action}
    (stepped : state.step layout action = some next)
    : Sole next ∧ Acts action.driver state next := by
  cases action with
  | create name attr data ttl moment =>
      cases stepped
      exact sole.create prompt name attr data ttl
  | change name request moment =>
      cases stepped
      exact sole.change prompt name request
  | remove name moment =>
      cases stepped
      exact sole.remove prompt name
  | tick moment =>
      cases stepped
      exact sole.tick prompt
  | read moment =>
      cases stepped
      exact sole.readSecond prompt
  | admitReplica id =>
      cases stepped
      exact sole.admitReplica
  | retire id =>
      cases stepped
      exact sole.retire _
  | covered id position name steady =>
      obtain ⟨free, taken⟩ := Option.ite_none_right_eq_some.mp stepped
      cases taken
      exact sole.covered free position name steady _
  | receive id fact moment =>
      obtain ⟨free, taken⟩ := Option.ite_none_right_eq_some.mp stepped
      cases taken
      exact sole.receive prompt free fact
  | begin id draft scope moment =>
      obtain ⟨free, taken⟩ := Option.ite_none_right_eq_some.mp stepped
      cases taken
      exact sole.begin prompt free draft scope
  | complete id moment =>
      obtain ⟨_, taken⟩ := Option.ite_none_right_eq_some.mp stepped
      cases taken
      exact sole.complete prompt
  | finish id position =>
      obtain ⟨free, taken⟩ := Option.ite_none_right_eq_some.mp stepped
      cases taken
      exact sole.finish free position _

theorem sole_start (limits : Limits) : Sole (start limits) where
  tied := fun _ => rfl
  copies id replica isReplica := by
    have none : (start limits).replicas.get? id = none := Assoc.get?_empty id
    rw [none] at isReplica
    cases isReplica
  titles name := by
    refine ⟨rfl, fun away => absurd rfl away, fun party record found => ?_⟩
    cases party with
    | own => cases found
    | copy id => cases found

/-- Every state that is reached is sound. -/
theorem sole_of_run {limits : Limits} {actions : List Action}
    (reached : run (step layout) (start limits) actions = some state)
    : Sole state ∧ state.schedule.Prompt := by
  refine @run_invariant _ _ (step layout) (fun state => Sole state ∧ state.schedule.Prompt) ?_ _ _
    actions ⟨sole_start limits, prompt_start limits⟩ reached
  intro state action next sound stepped
  exact ⟨(sound.1.step sound.2 stepped).1, (steps sound.2 stepped).prompt⟩

end Astra.Ephemeris.State
