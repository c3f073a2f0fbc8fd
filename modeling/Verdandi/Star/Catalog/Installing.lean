import Verdandi.Star.Catalog.Receiving

/-! The installation of a complete state, Scope by Scope. What is prepared without the lock is
what is committed, since the copy is held in the meantime.
-/

namespace Astra.Catalog

open Support
open Origin (Name)

namespace State

variable {layout : Layout} {state : State} {moment : Moment}

-- The private candidate

structure Sets (origin : Origin Record) (before after : Origin.Batch Record)
    (pairs : List (Name × Record))
    : Prop where
  of : after.Of origin
  set : ∀ pair ∈ pairs, after.find pair.1 = some pair.2
  kept : ∀ name, name ∉ pairs.map Prod.fst → after.find name = before.find name
  valid : ∀ pair ∈ pairs, pair.2.valid = true

variable {origin : Origin Record} {pairs rows : List (Name × Record)} {batch : Origin.Batch Record}

theorem sets_of_nativeRows {next : Origin.Batch Record} {out : List (Name × Record)}
    (of : batch.Of origin) (distinct : (pairs.map Prod.fst).Nodup)
    (prepared : nativeRows layout pairs batch rows = .ok (next, out))
    : out = rows ++ pairs ∧ Sets origin batch next pairs := by
  induction pairs generalizing batch rows with
  | nil =>
      cases prepared
      exact ⟨by simp, of, by simp, fun _ _ => rfl, by simp⟩
  | cons first rest ih =>
      obtain ⟨name, incoming⟩ := first
      rw [List.map_cons, List.nodup_cons] at distinct
      unfold nativeRows at prepared
      split at prepared
      · cases prepared
      next valid =>
      split at prepared
      · cases prepared
      split at prepared
      · cases prepared
      rename_i middle isSet
      obtain ⟨ofMiddle, entries, _⟩ := of.set isSet
      obtain ⟨same, sets⟩ := ih ofMiddle distinct.2 prepared
      have find (other : Name) : middle.find other
          = if other = name then some incoming else batch.find other := by
        rw [Origin.Batch.find, entries, Assoc.get?_set]
        rfl
      refine ⟨by simpa using same, sets.of, ?_, ?_, ?_⟩
      · intro pair listed
        rcases List.mem_cons.mp listed with rfl | later
        · rw [sets.kept _ distinct.1, find, if_pos rfl]
        · exact sets.set pair later
      · intro other absent
        rw [List.map_cons, List.mem_cons, not_or] at absent
        rw [sets.kept other absent.2, find, if_neg absent.1]
      · intro pair listed
        rcases List.mem_cons.mp listed with rfl | later
        · simpa using valid
        · exact sets.valid pair later

variable {reply : Reply}

theorem nativeRows_error (refused : nativeRows layout pairs batch rows = .error reply)
    : ∃ failure, reply = .error failure := by
  induction pairs generalizing batch rows with
  | nil => cases refused
  | cons first rest ih =>
      unfold nativeRows at refused
      split at refused
      · cases refused
        exact ⟨_, rfl⟩
      split at refused
      · cases refused
        exact ⟨_, rfl⟩
      split at refused
      · cases refused
        exact ⟨_, rfl⟩
      · exact ih refused

/-- The candidate of a Scope has the records of the complete state there, and all others as they
were.
-/
theorem fits_of_native {source : Origin Record} {draft : Origin.Draft Record} {scope : Scope}
    {bytes : Nat} {batch : Origin.Batch Record} {rows : List (Name × Record)}
    (prepared : native layout source draft scope = .ok (batch, rows))
    : Fits source
        { draft, scope, bytes
          previous := (source.each scope).map Prod.fst
          prepared := .ok (batch, rows) } batch rows := by
  unfold native at prepared
  split at prepared
  · cases prepared
  rename_i first isFirst
  obtain ⟨of, _, entries, _⟩ := Origin.Batch.of_prepare isFirst
  dsimp only at prepared
  split at prepared
  · cases prepared
  rename_i middle erased
  obtain ⟨ofMiddle, find⟩ := of.erases erased
  obtain ⟨same, sets⟩ := sets_of_nativeRows ofMiddle (Origin.nodup_each scope) prepared
  rw [List.nil_append] at same
  have isFirst (name : Name) : first.find name = source.find name := by
    rw [Origin.Batch.find, entries]
    rfl
  refine ⟨fun _ => Origin.mem_names, sets.of, ?_, ?_, ?_, ?_⟩
  · intro name
    dsimp only
    cases isDraft : draft.candidate.find name with
    | none =>
        -- The complete state lacks the name: erased in this Scope, kept in others.
        have unset : name ∉ (draft.candidate.each scope).map Prod.fst := by
          rw [Origin.mem_names, isDraft]
          simp
        rw [sets.kept name unset, find, isFirst]
        simp only [List.mem_filter, Origin.mem_names, isDraft]
        by_cases inside : name.scope = scope <;> cases source.find name <;> simp [inside]
    | some record =>
        by_cases inside : name.scope = scope
        · rw [if_pos inside]
          exact sets.set (name, record) (Origin.mem_each.mpr ⟨isDraft, inside⟩)
        · have unset : name ∉ (draft.candidate.each scope).map Prod.fst := by
            rw [Origin.mem_names]
            exact fun listed => inside listed.1
          rw [sets.kept name unset, find, isFirst, if_neg inside]
          simp [isDraft]
  · intro name record
    rw [same, Origin.mem_each, and_comm]
  · rw [same]
    exact Origin.nodup_each scope
  · rw [same]
    exact sets.valid

variable {source : Origin Record} {draft : Origin.Draft Record} {scope : Scope}

/-- A refused candidate is no exception: a copy is never an own source. -/
theorem native_error (remote : source.owned = false)
    (refused : native layout source draft scope = .error reply)
    : ∃ failure, reply = .error failure := by
  unfold native at refused
  split at refused
  next missing =>
    unfold Origin.Batch.prepare at missing
    rw [if_neg (by simp [remote])] at missing
    cases missing
  · dsimp only at refused
    split at refused
    · cases refused
      exact ⟨_, rfl⟩
    · exact nativeRows_error refused

-- Before the lock is given up

structure Accepts (draft : Origin.Draft Record) (replica : Copy) : Prop where
  lively : replica.retired = false
  reached : replica.source.position ≤ draft.position
  whole : Replica.ahead replica.coverage draft.position = false

def Begun (draft : Origin.Draft Record) (scope : Scope) (_ : Int → Prop) (before after : Option Copy)
    : Prop :=
  ∃ replica task, before = some replica ∧ after = some { replica with task := some task }
    ∧ replica.task = none ∧ Accepts draft replica ∧ task.draft = draft ∧ task.scope = scope

theorem Fades.accepts {now : Int} {before after : Copy}
    (fades : Fades now (some before) (some after)) (accepts : Accepts draft before)
    : Accepts draft after := by
  cases fades with
  | kept outlives stays coverage retired task busy =>
      exact
        { lively := retired.trans accepts.lively
          reached := stays.position ▸ accepts.reached
          whole := coverage ▸ accepts.whole }

theorem Coherent.hold (coherent : Coherent state) {id : Bytes} (free : state.free id = true)
    {draft : Origin.Draft Record} (scope : Scope) {replica : Copy}
    (isReplica : state.replicas.get? id = some replica) (accepts : Accepts draft replica)
    {accepted : Prop}
    : Learned id (Begun draft scope) state none
        (state.amendReplica id fun replica =>
          { replica with
            task := some
              { draft
                scope
                bytes := replica.source.charged
                previous := (replica.source.each scope).map Prod.fst
                prepared := native layout replica.source draft scope } })
        accepted := by
  unfold State.amendReplica
  rw [isReplica]
  have copied := coherent.copies id replica isReplica
  refine coherent.turn ?_ fun _ =>
    ⟨replica, _, isReplica, rfl, idle_of_free isReplica free, accepts, rfl, rfl⟩
  exact
    { copied with
      task := by
        rintro _ batch rows ⟨⟩ prepared
        have fits := @fits_of_native layout replica.source draft scope
          replica.source.charged batch rows prepared
        exact ⟨fits.previous, fits.of, fits.find, fits.listed, fits.distinct, fits.valid⟩
      refused := by
        rintro _ reply ⟨⟩ refused
        exact native_error copied.remote refused
      ready := by
        rintro _ ⟨⟩ _
        exact ⟨accepts.reached, accepts.whole⟩ }

theorem Coherent.begin (coherent : Coherent state) {id : Bytes} (free : state.free id = true)
    (draft : Origin.Draft Record) (scope : Scope)
    : Learned id (Begun draft scope) state
        ((state.begin layout id draft scope moment).1.bind thrown)
        (state.begin layout id draft scope moment).2
        ((state.begin layout id draft scope moment).1 = none) := by
  unfold State.begin
  cases isReplica : state.replicas.get? id with
  | none => exact coherent.refuse nofun
  | some replica =>
      dsimp only
      split
      · exact coherent.refuse nofun
      next open' =>
      simp only [not_or, Bool.not_eq_true, Nat.not_lt] at open'
      have accepts : Accepts draft replica := ⟨open'.1, open'.2.1, open'.2.2⟩
      cases isRead : state.reading (moment.sample 0) with
      | none => exact coherent.refuse nofun
      | some pair =>
          obtain ⟨stamp, first⟩ := pair
          obtain ⟨coherentFirst, passes, isFirst, _⟩ := coherent.reading isRead
          have observed : first.observed = some stamp.time := by rw [isFirst]
          have isFree : first.free id = true := by
            rw [isFirst]
            exact free
          have own := @Coherent.advanceReplica layout stamp.time first moment coherentFirst
            observed id isFree
          dsimp only
          generalize first.advanceReplica layout moment stamp.time id = result at own
          obtain ⟨second, fault⟩ := result
          have passedOwn := passes.trans (own.passes observed)
          cases fault with
          | some fault =>
              refine ⟨own.coherent, .inl ⟨nofun, passedOwn⟩, ?_⟩
              rintro _ ⟨⟩
              exact own.expected _ rfl
          | none =>
              dsimp only at own ⊢
              have observedSecond := own.observed.trans observed
              have others := @Coherent.advance layout stamp.time second moment own.coherent
                observedSecond (some id)
              have freeThird := others.aged.free (own.aged.free isFree)
              generalize second.advance layout moment stamp.time (some id) = result
                at others freeThird
              obtain ⟨third, fault⟩ := result
              have passed := passedOwn.trans (others.passes observedSecond)
              cases fault with
              | some fault =>
                  refine ⟨others.coherent, .inl ⟨nofun, passed⟩, ?_⟩
                  rintro _ ⟨⟩
                  exact others.expected _ rfl
              | none =>
                  obtain ⟨now, fades⟩ := passed.fades id
                  rw [isReplica] at fades
                  generalize isLast : third.replicas.get? id = last at fades
                  cases last with
                  | none =>
                      cases fades with
                      | spent retired _ =>
                          rw [accepts.lively] at retired
                          cases retired
                  | some last =>
                      exact .after passed
                        (others.coherent.hold freeThird scope isLast (fades.accepts accepts))

-- The merge of a Scope

def Merges (origin : Origin Record) (time : Int) (row : Name × Record) (entry : Name × Change)
    : Prop :=
  row.1 = entry.1 ∧ Combined (origin.find row.1) row.2 time entry.2

structure Absorbs (origin : Origin Record) (time : Int) (rows : List (Name × Record))
    (merging : Merging)
    : Prop where
  of : merging.batch.Of origin
  rows : List.Forall₂ (Merges origin time) rows merging.changes
  distinct : (merging.changes.map Prod.fst).Nodup
  seen : ∀ name ∈ merging.changes.map Prod.fst, name ∈ merging.batch.seen
  find : merging.batch.find
    = merging.changes.foldl
        (fun (records : Name → Option Record) entry =>
          Function.update records entry.1 (some entry.2.record)) origin.find
  opened : ∀ entry ∈ merging.changes, entry.2.record.value.isSome = true → merging.opened = true

variable {time : Int} {merging : Merging} {name : Name}

/-- One more row. Witness: its name is new to the batch. -/
theorem Absorbs.append (merged : Absorbs origin time rows merging) {incoming : Record}
    {combined : Change}
    (isMerged : Record.merge (merging.batch.find name) incoming time = .ok combined)
    (isSet : merging.batch.set layout.traits name combined.record = .ok batch)
    (earliest : Option Int)
    : Absorbs origin time (rows ++ [(name, incoming)])
        { batch
          changes := merging.changes ++ [(name, combined)]
          opened := merging.opened || combined.record.value.isSome
          earliest } := by
  obtain ⟨of, entries, seen, fresh, _⟩ := merged.of.set isSet
  have absent : name ∉ merging.changes.map Prod.fst := fun listed =>
    fresh (merged.seen name listed)
  have same : merging.batch.find name = origin.find name := by
    rw [merged.find]
    exact foldl_update_of_notMem absent
  refine ⟨of, ?_, ?_, ?_, ?_, ?_⟩
  · refine List.rel_append merged.rows (.cons ⟨rfl, ?_⟩ .nil)
    rw [← same]
    exact combined_of_merge isMerged
  · dsimp only
    rw [List.map_append, List.nodup_append]
    refine ⟨merged.distinct, List.nodup_singleton _, ?_⟩
    intro other listed last isLast equal
    rw [List.map_cons, List.map_nil, List.mem_singleton] at isLast
    rw [equal, isLast] at listed
    exact absent listed
  · intro other listed
    dsimp only at listed ⊢
    rw [seen]
    rw [List.map_append, List.mem_append] at listed
    rcases listed with earlier | last
    · exact List.mem_cons_of_mem _ (merged.seen other earlier)
    · rw [List.map_cons, List.map_nil, List.mem_singleton] at last
      exact last ▸ List.mem_cons_self
  · dsimp only
    rw [List.foldl_append, ← merged.find]
    funext other
    rw [List.foldl_cons, List.foldl_nil, Origin.Batch.find, entries, Assoc.get?_set,
      Function.update_apply]
    rfl
  · intro entry listed isSome
    rw [List.mem_append, List.mem_singleton] at listed
    rcases listed with earlier | rfl
    · rw [merged.opened entry earlier isSome, Bool.true_or]
    · rw [Bool.or_eq_true]
      exact .inr isSome

/-- The rows are merged one after the other. Witness: induction over those that are left. -/
theorem Absorbs.mergeRows {rest : List (Name × Record)} {last : Merging} {refused : Option Error}
    (merged : Absorbs origin time rows merging)
    (isMerged : State.mergeRows layout time rest merging = (last, refused))
    : (refused = none → Absorbs origin time (rows ++ rest) last) := by
  induction rest generalizing rows merging with
  | nil =>
      cases isMerged
      intro _
      simpa using merged
  | cons first rest ih =>
      obtain ⟨name, incoming⟩ := first
      unfold State.mergeRows at isMerged
      split at isMerged
      · cases isMerged
        exact nofun
      rename_i combined isCombined
      split at isMerged
      · cases isMerged
        exact nofun
      rename_i batch isSet
      have step := ih (merged.append isCombined isSet _) isMerged
      rw [List.append_assoc] at step
      exact step

theorem merged_start (prepared : Origin.Batch.prepare origin = some batch)
    : Absorbs origin time [] { batch } := by
  obtain ⟨of, _, entries, _⟩ := Origin.Batch.of_prepare prepared
  refine ⟨of, .nil, List.nodup_nil, by simp, ?_, by simp⟩
  funext name
  rw [Origin.Batch.find, entries]
  rfl

variable {agenda : Option Agenda}

theorem isSome_hold (opened : agenda.isSome = true) {deadline : Option Int}
    : (Agenda.hold agenda name deadline).isSome = true := by
  cases deadline <;> simpa [Agenda.hold] using opened

/-- Records and their hooks change together, one after the other. -/
theorem Held.sets {records : Name → Option Record} {agenda : Option Agenda} {Row : Type}
    {rows : List Row} {name : Row → Name} {record : Row → Option Record}
    (held : Held records agenda) (valid : ∀ row ∈ rows, (record row).all Record.valid = true)
    (opened : ∀ row ∈ rows, ((record row).bind Record.deadline).isSome = true
      → agenda.isSome = true)
    : Held (rows.foldl (fun records row => Function.update records (name row) (record row)) records)
        (rows.foldl (fun agenda row =>
          Agenda.hold agenda (name row) ((record row).bind Record.deadline)) agenda) := by
  induction rows generalizing records agenda with
  | nil => exact held
  | cons first rest ih =>
      refine ih (held.set (valid first List.mem_cons_self) (opened first List.mem_cons_self))
        (fun row listed => valid row (List.mem_cons_of_mem _ listed)) ?_
      intro row listed lease
      exact isSome_hold (opened row (List.mem_cons_of_mem _ listed) lease)

theorem Absorbs.names (absorbs : Absorbs origin time rows merging)
    : merging.changes.map Prod.fst = rows.map Prod.fst := by
  have paired := absorbs.rows
  generalize merging.changes = changes at paired
  clear absorbs
  induction paired with
  | nil => rfl
  | cons same _ ih => rw [List.map_cons, List.map_cons, ih, same.1]

/-- What is known of a change. -/
theorem Absorbs.change (absorbs : Absorbs origin time rows merging) {entry : Name × Change}
    (listed : entry ∈ merging.changes)
    : merging.batch.find entry.1 = some entry.2.record
      ∧ ∃ incoming, Combined (origin.find entry.1) incoming time entry.2 := by
  refine ⟨?_, ?_⟩
  · rw [absorbs.find]
    exact @foldl_update_of_mem _ _ _ _ _ Prod.fst (fun entry => some entry.2.record) _ entry
      absorbs.distinct listed
  · have paired := absorbs.rows
    generalize merging.changes = changes at paired listed
    clear absorbs
    induction paired with
    | nil => cases listed
    | cons same _ ih =>
        rcases List.mem_cons.mp listed with rfl | later
        · exact ⟨_, same.1 ▸ same.2⟩
        · exact ih later

/-- What becomes of a row. -/
theorem Absorbs.row (absorbs : Absorbs origin time rows merging) {row : Name × Record}
    (listed : row ∈ rows)
    : row.2.version ≤ Catalog.version (merging.batch.find row.1) := by
  obtain ⟨entry, isEntry, same, combined⟩
      : ∃ entry ∈ merging.changes, Merges origin time row entry := by
    have paired := absorbs.rows
    generalize merging.changes = changes at paired
    clear absorbs
    induction paired with
    | nil => cases listed
    | cons same _ ih =>
        rcases List.mem_cons.mp listed with rfl | later
        · exact ⟨_, List.mem_cons_self, same⟩
        · obtain ⟨entry, isEntry, merges⟩ := ih later
          exact ⟨entry, List.mem_cons_of_mem _ isEntry, merges⟩
  rw [same, (absorbs.change isEntry).1]
  change row.2.version ≤ entry.2.record.version
  rw [combined.version]
  exact le_max_right _ _

theorem Absorbs.rises (absorbs : Absorbs origin time rows merging) (name : Name)
    : Catalog.version (origin.find name) ≤ Catalog.version (merging.batch.find name) := by
  by_cases listed : name ∈ merging.changes.map Prod.fst
  · obtain ⟨entry, isEntry, rfl⟩ := List.mem_map.mp listed
    obtain ⟨found, incoming, combined⟩ := absorbs.change isEntry
    rw [found]
    change _ ≤ entry.2.record.version
    rw [combined.version]
    exact le_max_left _ _
  · rw [absorbs.find, foldl_update_of_notMem listed]

/-- What is shown of a batch of changes is the merge. Witness: only visible changes change the
content of their name.
-/
theorem Absorbs.shown (absorbs : Absorbs origin time rows merging)
    (inside : ∀ entry ∈ merging.changes, entry.1.scope = scope) {stage last : Stage Content}
    (shown : stage.find = contents origin.find) {steady : Int}
    (isShown : showRows layout stage scope merging.changes steady = .ok last)
    : last.find = contents merging.batch.find := by
  have kept {name : Name} (absent : name ∉ merging.changes.map Prod.fst)
      : contents merging.batch.find name = contents origin.find name := by
    rw [contents, absorbs.find, foldl_update_of_notMem absent, contents]
  have content {entry : Name × Change} (listed : entry ∈ merging.changes)
      : contents merging.batch.find entry.1 = entry.2.record.content := by
    rw [contents, (absorbs.change listed).1, Option.bind_some]
  have unseen {entry : Name × Change} (listed : entry ∈ merging.changes)
      (invisible : entry.2.visible = false)
      : contents merging.batch.find entry.1 = contents origin.find entry.1 := by
    obtain ⟨_, incoming, combined⟩ := absorbs.change listed
    rw [content listed]
    exact content_of_invisible (combined.visible ▸ invisible)
  unfold showRows at isShown
  split at isShown
  next visible =>
    split at isShown
    · cases isShown
    rename_i opened isOpened
    split at isShown
    · cases isShown
    rename_i final changed
    cases isShown
    have same := Stage.find_obtain isOpened
    -- Keys of one Scope are as distinct as names.
    have apart : ∀ entry ∈ merging.changes, ∀ other ∈ merging.changes,
        entry.1.key = other.1.key → entry = other := by
      intro entry listed other isOther equal
      refine List.inj_on_of_nodup_map absorbs.distinct listed isOther ?_
      have scopes := (inside entry listed).trans (inside other isOther).symm
      obtain ⟨⟨_, _⟩, _⟩ := entry
      obtain ⟨⟨_, _⟩, _⟩ := other
      dsimp only at equal scopes ⊢
      rw [equal, scopes]
    have distinct : (((merging.changes.filter (·.2.visible)).map fun entry =>
        ({ key := entry.1.key, record := entry.2.record.content } : Stage.Row Content)).map
          Stage.Row.key).Nodup := by
      rw [List.map_map]
      refine List.Nodup.map_on ?_ ((List.Nodup.of_map _ absorbs.distinct).filter _)
      intro entry listed other isOther equal
      exact apart entry (List.mem_filter.mp listed).1 other (List.mem_filter.mp isOther).1 equal
    funext name
    by_cases listed : name ∈ merging.changes.map Prod.fst
    · obtain ⟨entry, isEntry, rfl⟩ := List.mem_map.mp listed
      have isInside := inside entry isEntry
      cases isVisible : entry.2.visible with
      | true =>
          have isKept : entry ∈ merging.changes.filter (·.2.visible) :=
            List.mem_filter.mpr ⟨isEntry, isVisible⟩
          have isRow := List.mem_map_of_mem (f := fun entry : Name × Change =>
            ({ key := entry.1.key, record := entry.2.record.content } : Stage.Row Content))
            isKept
          have found := Stage.find_changes_of_mem changed distinct isRow
          rw [← isInside] at found
          exact found.trans (content isEntry).symm
      | false =>
          rw [unseen isEntry isVisible, ← shown, ← same]
          refine Stage.find_changes_of_notMem changed ?_
          intro _ isKey
          obtain ⟨row, isRow, equal⟩ := List.mem_map.mp isKey
          obtain ⟨other, kept, rfl⟩ := List.mem_map.mp isRow
          obtain ⟨isOther, otherVisible⟩ := List.mem_filter.mp kept
          cases apart other isOther entry isEntry equal
          rw [isVisible] at otherVisible
          cases otherVisible
    · rw [kept listed, ← shown, ← same]
      refine Stage.find_changes_of_notMem changed ?_
      intro sameScope isKey
      obtain ⟨row, isRow, equal⟩ := List.mem_map.mp isKey
      obtain ⟨other, isKept, rfl⟩ := List.mem_map.mp isRow
      obtain ⟨isOther, _⟩ := List.mem_filter.mp isKept
      refine listed (List.mem_map.mpr ⟨other, isOther, ?_⟩)
      have scopes := (inside other isOther).trans sameScope.symm
      obtain ⟨⟨_, _⟩, _⟩ := other
      obtain ⟨_, _⟩ := name
      dsimp only at equal scopes ⊢
      rw [equal, scopes]
  rename_i hidden
  cases isShown
  rw [shown]
  funext name
  by_cases listed : name ∈ merging.changes.map Prod.fst
  · obtain ⟨entry, isEntry, rfl⟩ := List.mem_map.mp listed
    refine (unseen isEntry ?_).symm
    simp only [List.any_eq_true, not_exists, not_and, Bool.not_eq_true] at hidden
    exact hidden entry isEntry
  · exact (kept listed).symm

-- After the lock was taken again

structure Installs (draft : Origin.Draft Record) (scope : Scope) (before after : Copy)
    : Prop where
  accepts : Accepts draft before
  find : ∀ name, after.source.find name
    = if name.scope = scope then draft.candidate.find name else before.source.find name
  position : after.source.position = before.source.position
  coverage : after.coverage = Replica.noteWhole scope draft.position before.coverage
  retired : after.retired = false
  idle : after.task = none

def Installed (draft : Origin.Draft Record) (scope : Scope) (_ : Int → Prop)
    (before after : Option Copy)
    : Prop :=
  ∃ replica last, before = some replica ∧ after = some last ∧ Installs draft scope replica last

/-- The hooks of a Scope are exchanged with its records. Witness: what was there goes first, and
then come the rows.
-/
theorem Fits.held {task : Replica.Task Record Error} (fits : Fits source task batch rows)
    (held : Held source.find agenda)
    (opened : rows.any (·.2.value.isSome) = true → agenda.isSome = true)
    : Held batch.find
        (rows.foldl (fun agenda row => Agenda.hold agenda row.1 row.2.deadline)
          (task.previous.foldl (fun agenda name => Agenda.hold agenda name none) agenda)) := by
  have released := @Held.sets _ _ _ task.previous (fun name => name) (fun _ => none) held
    (fun _ _ => rfl) (fun _ _ lease => absurd lease Bool.false_ne_true)
  have filled := @Held.sets _ _ _ rows Prod.fst (fun row => some row.2) released
    (fun row listed => by simpa using fits.valid row listed)
    (fun row listed lease => by
      have value := value_of_lease (by simpa using fits.valid row listed) lease
      have isOpen := opened (List.any_eq_true.mpr ⟨row, listed, value⟩)
      clear released lease value opened held fits
      induction task.previous generalizing agenda with
      | nil => exact isOpen
      | cons first rest ih => exact ih (isSome_hold isOpen))
  have same : rows.foldl
      (fun (records : Name → Option Record) row => Function.update records row.1 (some row.2))
        (task.previous.foldl (fun records name => Function.update records name none) source.find)
      = batch.find := by
    funext name
    rw [fits.find]
    by_cases listed : name ∈ rows.map Prod.fst
    · obtain ⟨row, isRow, rfl⟩ := List.mem_map.mp listed
      obtain ⟨inside, found⟩ := (fits.listed row.1 row.2).mp isRow
      rw [if_pos inside, found]
      exact @foldl_update_of_mem _ _ _ _ _ Prod.fst (fun row => some row.2) _ row fits.distinct
        isRow
    · rw [foldl_update_of_notMem listed, foldl_update_const]
      simp only [fits.previous]
      by_cases inside : name.scope = task.scope
      · have absent : task.draft.candidate.find name = none := by
          by_contra found
          obtain ⟨record, isRecord⟩ := Option.ne_none_iff_exists'.mp found
          exact listed (List.mem_map_of_mem ((fits.listed name record).mpr ⟨inside, isRecord⟩))
        rw [if_pos inside, absent]
        cases source.find name <;> simp [inside]
      · rw [if_neg inside, if_neg fun both => inside both.1]
  rw [← same]
  exact filled

theorem Coherent.commitTask (coherent : Coherent state) {id : Bytes} {replica : Copy}
    (isReplica : state.replicas.get? id = some replica) (idle : replica.task = none)
    {task : Replica.Task Record Error} (accepts : Accepts task.draft replica)
    {batch : Origin.Batch Record} {rows : List (Name × Record)}
    (fits : Fits replica.source task batch rows) {time : Int} {merging : Merging}
    (absorbs : Absorbs state.merged time rows merging)
    (opened : rows.any (·.2.value.isSome) = true → replica.agenda.isSome = true)
    (openedMerged : merging.opened = true → state.outlook.isSome = true)
    {stage : Stage Content} (shown : stage.find = contents merging.batch.find)
    (reached : Int → Prop)
    : Coherent (state.commitTask id replica task batch rows merging stage)
      ∧ Turned id (Installed task.draft task.scope reached) state
        (state.commitTask id replica task batch rows merging stage) := by
  have copied := coherent.copies id replica isReplica
  have findMerged := absorbs.of.find_commit
  have findSource := fits.of.find_commit
  have validChange : ∀ entry ∈ merging.changes, (some entry.2.record).all Record.valid = true := by
    intro entry listed
    obtain ⟨_, incoming, combined⟩ := absorbs.change listed
    simpa using combined.valid
  have heldMerged := @Held.sets _ _ _ merging.changes Prod.fst (fun entry => some entry.2.record)
    coherent.merged validChange
    (fun entry listed lease => by
      have value := value_of_lease (validChange entry listed) lease
      exact openedMerged (absorbs.opened entry listed (by simpa using value)))
  rw [← absorbs.find, ← findMerged] at heldMerged
  have since (agenda : Option Agenda) (isSince : Since state.observed agenda) {Row : Type}
      (rows : List Row) (name : Row → Name) (deadline : Row → Option Int)
      : Since state.observed
          (rows.foldl (fun agenda row => Agenda.hold agenda (name row) (deadline row)) agenda) := by
    induction rows generalizing agenda with
    | nil => exact isSince
    | cons first rest ih => exact ih _ (isSince.hold _ _)
  have rises : ∀ name, Catalog.version (state.merged.find name)
      ≤ Catalog.version (merging.batch.commit.find name) := by
    intro name
    rw [findMerged]
    exact absorbs.rises name
  have absorbed := @Coherent.absorb state coherent merging.batch.commit _ stage heldMerged
    (shown.trans (by rw [findMerged])) (absorbs.of.commit.2.2.2.1.trans coherent.unowned) rises
    (since _ coherent.sinceMerged merging.changes Prod.fst (·.2.record.deadline))
  let last : Copy :=
    { replica with
      source := batch.commit
      agenda :=
        rows.foldl (fun agenda row => Agenda.hold agenda row.1 row.2.deadline)
          (task.previous.foldl (fun agenda name => Agenda.hold agenda name none) replica.agenda)
      coverage := Replica.noteWhole task.scope task.draft.position replica.coverage }
  have after : Copied merging.batch.commit.find state.observed last := by
    refine .idle idle ?_ (fits.of.commit.2.2.2.1.trans copied.remote) ?_ ?_
      (Replica.distinct_noteWhole copied.distinct)
    · dsimp only [last]
      rw [findSource]
      exact fits.held copied.held opened
    · intro name
      dsimp only [last]
      rw [findSource, fits.find]
      split
      next inside =>
        cases found : task.draft.candidate.find name with
        | none => exact Nat.zero_le _
        | some record =>
            rw [findMerged]
            exact absorbs.row ((fits.listed name record).mpr ⟨inside, found⟩)
      · exact (copied.below name).trans (rises name)
    · exact since _ (since _ copied.since task.previous (fun name => name) fun _ => none) rows
        Prod.fst (·.2.deadline)
  refine ⟨@Coherent.exchange _ absorbed id last after _, ?_⟩
  have turned := @turned_exchange state id (Installed task.draft task.scope reached) last
    (state.replicaBytes - task.bytes + batch.commit.charged)
    ⟨replica, last, isReplica, rfl,
      { accepts
        find := fun name => by
          dsimp only [last]
          rw [findSource, fits.find]
        position := fits.of.commit.2.1
        coverage := rfl
        retired := accepts.lively
        idle }⟩
  exact { turned with rises }

theorem replicas_openOutlook
    : (state.openOutlook time).replicas = state.replicas := by
  unfold State.openOutlook
  split <;> rfl

-- What is held is not advanced.

theorem advanceReplica_other {now : Int} {id other : Bytes} (differs : other ≠ id)
    : (state.advanceReplica layout moment now id).1.replicas.get? other
      = state.replicas.get? other := by
  unfold State.advanceReplica
  split
  · rfl
  split
  · rfl
  · dsimp only
    rw [Assoc.get?_set, if_neg differs]

theorem forget_other {id other : Bytes} (differs : other ≠ id)
    : (state.forget id).replicas.get? other = state.replicas.get? other := by
  unfold State.forget
  split
  · rfl
  split
  · dsimp only
    rw [Assoc.get?_remove, if_neg differs]
  · rfl

theorem advanceReplicas_held {now : Int} {id : Bytes} {ids : List Bytes}
    : (advanceReplicas layout moment now (some id) ids state).1.replicas.get? id
      = state.replicas.get? id := by
  induction ids generalizing state with
  | nil => rfl
  | cons first rest ih =>
      unfold State.advanceReplicas
      split
      · exact ih
      split
      · exact ih
      rename_i other
      have differs : id ≠ first := fun same => other (congrArg some same)
      split
      · exact ih
      · have same := @advanceReplica_other layout state moment now first id differs
        generalize state.advanceReplica layout moment now first = result at same
        obtain ⟨next, fault⟩ := result
        cases fault with
        | some fault => exact same
        | none => exact ih.trans ((forget_other differs).trans same)

theorem advance_held {now : Int} {id : Bytes}
    : (state.advance layout moment now (some id)).1.replicas.get? id = state.replicas.get? id := by
  have own (state : State) : (state.advanceSource layout moment now).1.replicas
      = state.replicas := by
    unfold State.advanceSource
    split <;> rfl
  have merged (state : State) : (state.advanceMerged layout moment now).1.replicas
      = state.replicas := by
    unfold State.advanceMerged
    split <;> rfl
  unfold State.advance
  split
  · rfl
  have first := own state
  generalize state.advanceSource layout moment now = result at first
  obtain ⟨next, fault⟩ := result
  cases fault with
  | some fault => exact congrArg (Assoc.get? · id) first
  | none =>
      dsimp only at first ⊢
      have second := merged next
      generalize next.advanceMerged layout moment now = result at second
      obtain ⟨later, fault⟩ := result
      cases fault with
      | some fault => exact congrArg (Assoc.get? · id) (second.trans first)
      | none =>
          dsimp only at second ⊢
          have third := @advanceReplicas_held layout later moment now id later.identities
          rw [second.trans first] at third
          generalize State.advanceReplicas layout moment now (some id) later.identities later
            = result at third
          obtain ⟨last, fault, blocked⟩ := result
          cases fault <;> exact third

def Released (task : Replica.Task Record Error) (before after : Option Copy) : Prop :=
  ∃ replica, before = some replica ∧ replica.task = some task
    ∧ after = some { replica with task := none }

def Completed (id : Bytes) (task : Replica.Task Record Error) (before : State)
    (result : Reply × State)
    : Prop :=
  ∃ released, Turned id (Released task) before released
    ∧ Learned id (Installed task.draft task.scope) released (thrown result.1) result.2
      (result.1 = .ok ())

/-- The merge is prepared and committed with the copy, at the final time. -/
theorem Coherent.installAt (coherent : Coherent state) {id : Bytes} {replica : Copy}
    (isReplica : state.replicas.get? id = some replica) (idle : replica.task = none)
    {task : Replica.Task Record Error} (accepts : Accepts task.draft replica)
    {batch : Origin.Batch Record} {rows : List (Name × Record)}
    (fits : Fits replica.source task batch rows) {time : Int}
    (observed : state.observed = some time)
    : Learned id (Installed task.draft task.scope) state
        (thrown (state.installAt layout id task batch rows time moment).1)
        (state.installAt layout id task batch rows time moment).2
        ((state.installAt layout id task batch rows time moment).1 = .ok ()) := by
  have free : state.free id = true := by simp [State.free, isReplica, Replica.busy, idle]
  have first : Opens id state
        (if rows.any (·.2.value.isSome) then state.openReplica id time else state)
      ∧ (rows.any (·.2.value.isSome) = true
        → ∀ replica, (if rows.any (·.2.value.isSome) then state.openReplica id time
            else state).replicas.get? id = some replica
          → replica.agenda.isSome = true) := by
    split
    next needed =>
      obtain ⟨opens, opened⟩ := coherent.opensReplica observed free
      exact ⟨opens, fun _ => opened⟩
    next spare => exact ⟨.refl coherent id, fun needed => absurd needed spare⟩
  unfold State.installAt
  dsimp only
  generalize (if rows.any (·.2.value.isSome) then state.openReplica id time else state)
    = middle at first
  obtain ⟨opens, opened⟩ := first
  obtain ⟨agenda, isMiddle, _⟩ := opens.copy replica isReplica
  rw [isMiddle]
  dsimp only
  refine .after opens.passes ?_
  split
  · exact opens.coherent.refuse (by rintro ⟨⟩)
  cases prepared : Origin.Batch.prepare middle.merged with
  | none =>
      unfold Origin.Batch.prepare at prepared
      rw [if_neg (by simp [opens.coherent.unowned])] at prepared
      cases prepared
  | some candidate =>
      dsimp only
      generalize isMerged : State.mergeRows layout time rows { batch := candidate } = result
      obtain ⟨merging, refused⟩ := result
      dsimp only
      have second : Opens id middle (if merging.opened then middle.openOutlook time else middle)
          ∧ (merging.opened = true
            → (if merging.opened then middle.openOutlook time else middle).outlook.isSome = true)
          ∧ (if merging.opened then middle.openOutlook time else middle).replicas
            = middle.replicas := by
        split
        next needed =>
          obtain ⟨opensLast, isOpen⟩ :=
            opens.coherent.opensOutlook id (opens.observed.trans observed)
          exact ⟨opensLast, fun _ => isOpen, replicas_openOutlook⟩
        next spare => exact ⟨.refl opens.coherent id, fun needed => absurd needed spare, rfl⟩
      generalize (if merging.opened then middle.openOutlook time else middle) = ready at second
      obtain ⟨opensLast, isOpen, sameCopies⟩ := second
      refine .after opensLast.passes ?_
      cases refused with
      | some refused => exact opensLast.coherent.refuse (by rintro ⟨⟩)
      | none =>
          have absorbs := (merged_start prepared).mergeRows isMerged rfl
          rw [List.nil_append] at absorbs
          dsimp only
          cases isShown : showRows layout ready.stage task.scope merging.changes moment.steady with
          | error refused => exact opensLast.coherent.refuse (by rintro ⟨⟩)
          | ok stage =>
              dsimp only
              split
              · exact opensLast.coherent.refuse (by rintro ⟨⟩)
              cases isRead : ready.reading (moment.sample 1) with
              | none => exact opensLast.coherent.refuse (by rintro ⟨⟩)
              | some pair =>
                  obtain ⟨stamp, final⟩ := pair
                  obtain ⟨coherentFinal, passes, isFinal, _⟩ := opensLast.coherent.reading isRead
                  dsimp only
                  refine .after passes ?_
                  split
                  · exact coherentFinal.refuse (by rintro ⟨⟩)
                  have isLast : final.replicas.get? id = some { replica with agenda } := by
                    rw [isFinal]
                    exact sameCopies ▸ isMiddle
                  have sameMerged : final.merged = middle.merged := by
                    rw [isFinal]
                    exact opensLast.merged
                  have sameStage : ready.stage.find = contents middle.merged.find := by
                    rw [opensLast.stage]
                    exact opens.coherent.shown
                  have inside : ∀ entry ∈ merging.changes, entry.1.scope = task.scope := by
                    intro entry listed
                    have isName := List.mem_map_of_mem (f := Prod.fst) listed
                    rw [absorbs.names] at isName
                    obtain ⟨row, isRow, same⟩ := List.mem_map.mp isName
                    rw [← same]
                    exact ((fits.listed row.1 row.2).mp isRow).1
                  have shown := absorbs.shown inside sameStage isShown
                  rw [← sameMerged] at absorbs
                  obtain ⟨whole, turned⟩ := @Coherent.commitTask final coherentFinal id _ isLast
                    idle task ⟨accepts.lively, accepts.reached, accepts.whole⟩ batch rows
                    ⟨fits.previous, fits.of, fits.find, fits.listed, fits.distinct, fits.valid⟩
                    time merging absorbs (fun needed => opened needed _ isMiddle)
                    (fun needed => by
                      rw [isFinal]
                      exact isOpen needed)
                    stage shown final.Until
                  exact ⟨whole, .inr ⟨final, .refl _, turned⟩, (by intros; contradiction)⟩

/-- An installation that was prepared comes to its end. -/
theorem Coherent.complete (coherent : Coherent state) {id : Bytes} {replica : Copy}
    (isReplica : state.replicas.get? id = some replica) {task : Replica.Task Record Error}
    (isTask : replica.task = some task)
    : Completed id task state (state.complete layout id moment) := by
  have copied := coherent.copies id replica isReplica
  let given : Copy := { replica with task := none }
  have isGiven : state.amendReplica id (fun replica => { replica with task := none })
      = { state with replicas := state.replicas.set id given } := by
    unfold State.amendReplica
    rw [isReplica]
  have copiedGiven : Copied state.merged.find state.observed given :=
    .idle rfl copied.held copied.remote copied.below copied.since copied.distinct
  have turned := @turned_exchange state id (Released task) given state.replicaBytes
    ⟨replica, isReplica, isTask, rfl⟩
  have whole := @Coherent.exchange state coherent id given copiedGiven state.replicaBytes
  have isCopy : ({ state with replicas := state.replicas.set id given } : State).replicas.get? id
      = some given := by
    dsimp only
    rw [Assoc.get?_set, if_pos rfl]
  refine ⟨_, turned, ?_⟩
  unfold State.complete
  rw [isReplica]
  dsimp only
  rw [isTask]
  dsimp only
  rw [isGiven]
  generalize ({ state with replicas := state.replicas.set id given } : State) = first
    at whole isCopy
  cases prepared : task.prepared with
  | error reply =>
      obtain ⟨failure, rfl⟩ := copied.refused task reply isTask prepared
      exact whole.refuse nofun
  | ok pair =>
      obtain ⟨batch, rows⟩ := pair
      have fits := copied.task task batch rows isTask prepared
      dsimp only
      split
      · exact whole.refuse nofun
      rename_i lively
      have isLively : replica.retired = false := by simpa using lively
      obtain ⟨reached, known⟩ := copied.ready task isTask isLively
      cases isRead : first.reading (moment.sample 0) with
      | none => exact whole.refuse nofun
      | some pair =>
          obtain ⟨stamp, second⟩ := pair
          obtain ⟨coherentSecond, passes, isSecond, _⟩ := whole.reading isRead
          have observed : second.observed = some stamp.time := by rw [isSecond]
          have advances := @Coherent.advance layout stamp.time second moment coherentSecond
            observed (some id)
          have held := @advance_held layout second moment stamp.time id
          dsimp only
          generalize second.advance layout moment stamp.time (some id) = result at advances held
          obtain ⟨third, fault⟩ := result
          have passed := passes.trans (advances.passes observed)
          cases fault with
          | some fault =>
              refine ⟨advances.coherent, .inl ⟨nofun, passed⟩, ?_⟩
              rintro _ ⟨⟩
              exact advances.expected _ rfl
          | none =>
              refine .after passed ?_
              have isThird : third.replicas.get? id = some given := by
                refine Eq.trans held ?_
                rw [isSecond]
                exact isCopy
              exact @Coherent.installAt layout third moment advances.coherent id given isThird
                rfl task ⟨isLively, reached, known⟩ batch rows
                ⟨fits.previous, fits.of, fits.find, fits.listed, fits.distinct, fits.valid⟩
                stamp.time (advances.observed.trans observed)

end State

end Astra.Catalog
