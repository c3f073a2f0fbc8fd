import Verdandi.Sdk.Catalog.Consistency

/-! Tombstones above the floor of a zone are all there, so that a reader misses no deletion. -/

namespace Sdk.Catalog

open Support
open Support.Redis (Text Database)

-- Mutations that were published

def Event.target : Event → Text
  | .replace member _ _ _ _ | .patch member _ _ _ _ _ | .delete member _ => member

def Event.number : Event → Nat
  | .replace _ revision _ _ _ | .patch _ _ revision _ _ _ | .delete _ revision =>
      Decimal.value revision

def Event.deletes : Event → Bool
  | .delete _ _ => true
  | _ => false

/-- The revision of the last mutation of a member, and whether it was a deletion. -/
def lastMutation (events : List Event) (member : Text) : Option (Nat × Bool) :=
  events.foldl
    (fun before event => if event.target = member then some (event.number, event.deletes) else before)
    none

def MutatedAfter (events : List Event) (member : Text) (cursor : Nat) : Prop :=
  ∃ event ∈ events, event.target = member ∧ cursor < event.number

theorem lastMutation_snoc (events : List Event) (event : Event) (member : Text)
    : lastMutation (events ++ [event]) member
      = if event.target = member then some (event.number, event.deletes)
        else lastMutation events member := by
  rw [lastMutation, List.foldl_append]
  rfl

variable {events : List Event}

theorem exists_of_lastMutation {member : Text} {revision : Nat} {deleted : Bool}
    (isLast : lastMutation events member = some (revision, deleted))
    : ∃ event ∈ events, event.target = member ∧ event.number = revision := by
  induction events using List.reverseRecOn with
  | nil => cases isLast
  | append_singleton before last ih =>
      rw [lastMutation_snoc] at isLast
      split at isLast
      next same =>
        cases isLast
        exact ⟨last, by simp, same, rfl⟩
      · obtain ⟨event, listed, found⟩ := ih isLast
        exact ⟨event, List.mem_append_left _ listed, found⟩

variable {event : Event}

theorem lastMutation_isSome (listed : event ∈ events)
    : (lastMutation events event.target).isSome := by
  induction events using List.reverseRecOn with
  | nil => cases listed
  | append_singleton before last ih =>
      rw [lastMutation_snoc]
      split
      · rfl
      rename_i apart
      rcases List.mem_append.mp listed with old | new
      · exact ih old
      · exact absurd (congrArg Event.target (List.mem_singleton.mp new)).symm apart

structure Zone.Recalls (zone : Zone) (events : List Event) : Prop where
  items
    : ∀ path,
        match lastMutation events path.member with
        | none => zone.items path = .absent
        | some (revision, false) => (zone.items path).liveRevision = some revision
        | some (revision, true) =>
            (zone.items path).deletedRevision = some revision
            ∨ (zone.items path = .absent ∧ revision ≤ zone.floor)
  numbered : ∀ event ∈ events, event.number ≤ zone.revision
  named : ∀ event ∈ events, ∃ path, Path.member path = event.target
  last
    : ∀ member revision deleted, lastMutation events member = some (revision, deleted) →
          ∀ event ∈ events, event.target = member → event.number ≤ revision

theorem recalls_empty : ({} : Zone).Recalls [] where
  items _ := rfl
  numbered := by simp
  named := by simp
  last := by simp

variable {zone next : Zone} {path : Path}

/-- An event that counts the zone up is the last mutation of its member. -/
theorem Zone.Recalls.snoc (recalls : zone.Recalls events) (target : event.target = path.member)
    (number : event.number = zone.revision + 1) (revision : next.revision = zone.revision + 1)
    (own
      : match event.deletes with
        | false => (next.items path).liveRevision = some (zone.revision + 1)
        | true => (next.items path).deletedRevision = some (zone.revision + 1))
    (others
      : ∀ other, other ≠ path → next.items other = zone.items other
          ∨ ∃ revision, (zone.items other).deletedRevision = some revision
            ∧ next.items other = .absent ∧ revision ≤ next.floor)
    (rises : zone.floor ≤ next.floor)
    : next.Recalls (events ++ [event]) where
  items other := by
    rw [lastMutation_snoc, target]
    by_cases same : path = other
    · subst same
      rw [if_pos rfl, number]
      cases deletes : event.deletes with
      | false =>
          rw [deletes] at own
          exact own
      | true =>
          rw [deletes] at own
          exact .inl own
    · rw [if_neg (Path.member_injective.ne same)]
      have before := recalls.items other
      rcases others other (Ne.symm same) with kept | ⟨deleted, isDeleted, gone, below⟩
      · rw [kept]
        split at before
        · exact before
        · exact before
        · exact before.imp_right fun missing => ⟨missing.1, missing.2.trans rises⟩
      · split at before
        · rw [before] at isDeleted
          cases isDeleted
        · cases isItem : zone.items other <;> rw [isItem] at before isDeleted
            <;> simp [Item.liveRevision, Item.deletedRevision] at before isDeleted
        · rcases before with tombstone | ⟨missing, _⟩
          · rw [isDeleted] at tombstone
            cases tombstone
            exact .inr ⟨gone, below⟩
          · rw [missing] at isDeleted
            cases isDeleted
  numbered other listed := by
    rcases List.mem_append.mp listed with old | new
    · rw [revision]
      exact (recalls.numbered other old).trans (Nat.le_succ _)
    · rw [List.mem_singleton.mp new, number, revision]
  named other listed := by
    rcases List.mem_append.mp listed with old | new
    · exact recalls.named other old
    · rw [List.mem_singleton.mp new]
      exact ⟨path, target.symm⟩
  last member found deleted isLast other listed isTarget := by
    rw [lastMutation_snoc] at isLast
    rcases List.mem_append.mp listed with old | new
    · split at isLast
      · cases isLast
        rw [number]
        exact (recalls.numbered other old).trans (Nat.le_succ _)
      · exact recalls.last member found deleted isLast other old isTarget
    · rw [List.mem_singleton.mp new] at isTarget ⊢
      rw [if_pos isTarget] at isLast
      cases isLast
      exact le_rfl

variable {answer : Answer}

/-- Every mutation is recalled. -/
theorem Mutates.recalls {event : Option Event} (mutates : Mutates zone path answer event next)
    (recalls : zone.Recalls events)
    : next.Recalls (events ++ event.toList) := by
  cases mutates with
  | refused =>
      rw [Option.toList_none, List.append_nil]
      exact recalls
  | replaced kind fields room lists =>
      refine recalls.snoc rfl (Decimal.value_text _) rfl ?_ ?_ le_rfl
      · show ((zone.replace path kind fields).items path).liveRevision = _
        rw [Zone.items_replace]
        rfl
      · exact fun other apart => .inl (Zone.items_replace_of_ne apart)
  | patched record sets room found takes =>
      refine recalls.snoc rfl (Decimal.value_text _) rfl ?_ ?_ le_rfl
      · show ((zone.patch path record sets).items path).liveRevision = _
        rw [Zone.items_patch]
        rfl
      · exact fun other apart => .inl (Zone.items_patch_of_ne apart)
  | deleted time next pruned room timely deletes =>
      refine recalls.snoc rfl (Decimal.value_text _) deletes.revision ?_ ?_ deletes.rises
      · show (next.items path).deletedRevision = _
        rw [deletes.item]
        rfl
      · intro other apart
        rcases deletes.others other apart with same | ⟨revision, _, isDeleted, gone, below⟩
        · exact .inl same
        · exact .inr ⟨revision, by rw [isDeleted]; rfl, gone, below⟩

theorem Mutates.floor {event : Option Event} (mutates : Mutates zone path answer event next)
    : zone.floor ≤ next.floor := by
  cases mutates with
  | refused => exact le_rfl
  | replaced => exact le_rfl
  | patched => exact le_rfl
  | deleted _ _ _ _ _ deletes => exact deletes.rises

-- The number of tombstones

theorem subset_select {member : Text} {required : Nat} {evicted candidates : List Text}
    : ∀ name ∈ evicted, name ∈ select member required evicted candidates := by
  induction candidates generalizing required evicted with
  | nil =>
      intro name listed
      cases required <;> exact listed
  | cons candidate rest ih =>
      intro name listed
      cases required with
      | zero => exact listed
      | succ required =>
          rw [select]
          split
          · exact ih name (List.mem_append_left _ listed)
          · exact ih name listed

/-- Where one is required, one is selected. -/
theorem select_ne_nil {member : Text} {required : Nat} {candidates : List Text} {name : Text}
    (listed : name ∈ candidates) (other : name ≠ member)
    : select member (required + 1) [] candidates ≠ [] := by
  induction candidates with
  | nil => cases listed
  | cons candidate rest ih =>
      rw [select]
      split
      next fresh =>
        intro nothing
        have kept := @subset_select member required [candidate] rest candidate
          (List.mem_singleton_self _)
        rw [List.nil_append] at nothing
        rw [nothing] at kept
        cases kept
      rename_i old
      rcases List.mem_cons.mp listed with rfl | later
      · exact absurd ⟨other, List.not_mem_nil⟩ old
      · exact ih later

/-- Where there are too many tombstones, one that is stored is given up. -/
theorem exists_evicted {store : Store} {member : Text} {now : Nat}
    (tombstones
      : ∀ name, (store.zscore .deletedTime name).isSome → (store.zscore .deleted name).isSome)
    (many : retentionCount < store.zcard .deleted)
    : ∃ name ∈ selectEvicted store member now, (store.zscore .deleted name).isSome := by
  have stored {name : Text} (listed : name ∈ selectEvicted store member now)
      : (store.zscore .deleted name).isSome :=
    (mem_selectEvicted listed).2.elim id (tombstones name)
  suffices some' : selectEvicted store member now ≠ [] by
    obtain ⟨name, listed⟩ := List.exists_mem_of_ne_nil _ some'
    exact ⟨name, listed, stored listed⟩
  intro nothing
  unfold selectEvicted at nothing
  simp only at nothing
  -- Nothing has expired, so that one of the oldest is required.
  generalize isExpired
      : ((Support.Redis.range (store.zset .deletedTime) fun score =>
        decide ((score : Int) ≤ (now : Int) - retentionMilliseconds)).take pruneBatch).map Prod.fst
        = expired at nothing
  have noneExpired : select member expired.length [] expired = [] := by
    rw [List.eq_nil_iff_forall_not_mem]
    intro name listed
    have kept := @subset_select member
      (min (((store.zcard .deleted : Int) - retentionCount)
        - (select member expired.length [] expired).length).toNat
        (pruneBatch - (select member expired.length [] expired).length))
      (select member expired.length [] expired)
      (((Support.Redis.ordered (store.zset .deleted)).take (pruneBatch * 2)).map Prod.fst) name
      listed
    rw [nothing] at kept
    cases kept
  rw [noneExpired] at nothing
  obtain ⟨required, isRequired⟩
      : ∃ required,
          min (((store.zcard .deleted : Int) - retentionCount) - ([] : List Text).length).toNat
            (pruneBatch - ([] : List Text).length) = required + 1 := by
    refine ⟨_, (Nat.succ_pred_eq_of_pos ?_).symm⟩
    simp only [List.length_nil, pruneBatch]
    omega
  rw [isRequired] at nothing
  -- Of the two oldest, one is not the member.
  have distinct := Redis.nodup_ordered (store.zset .deleted)
  have long : (Redis.ordered (store.zset .deleted)).length = store.zcard .deleted := by
    rw [Redis.ordered, List.length_insertionSort]
    simp [Assoc.toPairs, Database.zcard, Assoc.size]
  rcases isOrdered : Redis.ordered (store.zset .deleted) with _ | ⟨first, _ | ⟨second, rest⟩⟩
  · rw [isOrdered] at long
    simp only [List.length_nil] at long
    omega
  · rw [isOrdered] at long
    simp only [List.length_cons, List.length_nil, retentionCount] at long many
    omega
  · rw [isOrdered] at nothing distinct
    have both : first.1 ≠ second.1 := by
      simp only [List.map_cons, List.nodup_cons, List.mem_cons, not_or] at distinct
      exact distinct.1.1
    by_cases isMember : first.1 = member
    · refine @select_ne_nil member required _ second.1 ?_ ?_ nothing
      · simp [pruneBatch]
      · rw [← isMember]
        exact both.symm
    · refine @select_ne_nil member required _ first.1 ?_ isMember nothing
      simp [pruneBatch]

variable {store : Store} {call : Call}

theorem replace_event (isEvent : (replace store call).event = some event)
    : event.deletes = false := by
  unfold replace at isEvent
  split at isEvent
  · cases isEvent
  simp only at isEvent
  split at isEvent
  · split at isEvent
    · cases isEvent
    split at isEvent
    · cases isEvent
    split at isEvent
    · cases isEvent
    split at isEvent
    · cases isEvent
    · cases isEvent
      rfl
  · cases isEvent

theorem patch_event (isEvent : (patch store call).event = some event)
    : event.deletes = false := by
  unfold patch at isEvent
  split at isEvent
  · cases isEvent
  simp only at isEvent
  split at isEvent
  · split at isEvent
    · cases isEvent
    split at isEvent
    · cases isEvent
    split at isEvent
    · cases isEvent
    split at isEvent
    · cases isEvent
    split at isEvent
    · cases isEvent
    split at isEvent
    · cases isEvent
    split at isEvent
    · cases isEvent
    · cases isEvent
      rfl
  · cases isEvent

/-- A sorted set with fewer members is no larger. -/
theorem size_le_of_isSome {left right : Assoc Text Nat}
    (inside : ∀ name, (left.get? name).isSome → (right.get? name).isSome)
    : left.size ≤ right.size := by
  have names : ∀ name ∈ left.keys, name ∈ right.keys := by
    intro name listed
    rw [Assoc.mem_keys] at listed ⊢
    exact Option.isSome_iff_exists.mp (inside name (Option.isSome_iff_exists.mpr listed))
  have shorter := Assoc.size_le_length names
  simpa [Assoc.keys, Assoc.size] using shorter

namespace Represents

variable {store : Store} {zone : Zone}

/-- A deletion leaves at most as many tombstones as are retained. -/
theorem zcard_delete (represents : Represents store zone) {path : Path} {time : Nat}
    (few : store.zcard .deleted ≤ retentionCount)
    : let marked := writeTombstone store path path.member (zone.state path) time
      (pruneTombstones marked (zone.state path) (selectEvicted marked path.member time)).zcard
          .deleted
        ≤ retentionCount := by
  intro marked
  obtain ⟨_, deleted, deletedTime, members⟩ := represents.marked path time
  obtain ⟨_, indexes, _, _⟩ :=
    prune_views marked (zone.state path) (selectEvicted marked path.member time)
  have pruned := indexes .deleted (by simp)
  have less
      : (pruneTombstones marked (zone.state path) (selectEvicted marked path.member time)).zcard
          .deleted
        ≤ marked.zcard .deleted := by
    refine size_le_of_isSome fun name found => ?_
    have isName := pruned name
    rw [Database.zscore] at isName
    rw [isName] at found
    split at found
    · cases found
    · exact found
  by_cases fits : marked.zcard .deleted ≤ retentionCount
  · exact less.trans fits
  -- One tombstone too many is marked, and one is given up.
  have tombstones
      : ∀ name, (marked.zscore .deletedTime name).isSome → (marked.zscore .deleted name).isSome := by
    intro name found
    obtain ⟨other, rfl⟩ := members .deletedTime (by simp) name found
    rw [deletedTime] at found
    rw [deleted]
    split
    · rfl
    rename_i apart
    rw [if_neg apart] at found
    cases isItem : zone.items other <;> rw [isItem] at found
      <;> simp_all [Item.deletedTime, Item.deletedRevision]
  obtain ⟨name, listed, stored⟩ :=
    @exists_evicted marked path.member time tombstones (not_le.mp fits)
  have more : marked.zcard .deleted ≤ store.zcard .deleted + 1 := by
    have names : ∀ other ∈ (marked.zset .deleted).keys,
        other ∈ path.member :: (store.zset .deleted).keys := by
      intro other isOther
      obtain ⟨score, found⟩ := (Assoc.mem_keys _ _).mp isOther
      obtain ⟨owner, rfl⟩ := members .deleted (by simp) other (Option.isSome_iff_exists.mpr ⟨_, found⟩)
      have isScore := deleted owner
      rw [Database.zscore, found] at isScore
      by_cases same : owner = path
      · rw [same]
        exact List.mem_cons_self
      · rw [if_neg same, ← represents.deleted] at isScore
        exact List.mem_cons_of_mem _ ((Assoc.mem_keys _ _).mpr ⟨score, isScore.symm⟩)
    have shorter := Assoc.size_le_length names
    simpa [Assoc.keys, Assoc.size, Database.zcard] using shorter
  have fewer
      : (pruneTombstones marked (zone.state path) (selectEvicted marked path.member time)).zcard
          .deleted + 1
        ≤ marked.zcard .deleted := by
    obtain ⟨score, isScore⟩ := Option.isSome_iff_exists.mp stored
    have removed := Assoc.size_remove_of_some isScore
    have inside
        : (pruneTombstones marked (zone.state path) (selectEvicted marked path.member time)).zcard
            .deleted
          ≤ ((marked.zset .deleted).remove name).size := by
      refine size_le_of_isSome fun other found => ?_
      have isOther := pruned other
      rw [Database.zscore] at isOther
      rw [isOther] at found
      rw [Assoc.get?_remove]
      split at found
      · cases found
      rename_i kept
      split
      next same =>
        rw [same] at kept
        exact absurd listed kept
      · exact found
    have whole : (marked.zset .deleted).size = marked.zcard .deleted := rfl
    omega
  omega

/-- Tombstones come only with deletions. -/
theorem zcard_le (represents : Represents store zone) {next : Zone} {after : Store}
    (represents' : Represents after next)
    (kept
      : ∀ path, (next.items path).deletedRevision.isSome → (zone.items path).deletedRevision.isSome)
    : after.zcard .deleted ≤ store.zcard .deleted := by
  refine size_le_of_isSome fun name found => ?_
  obtain ⟨path, rfl⟩ := represents'.members .deleted (by simp) name found
  have isDeleted := represents'.deleted path
  rw [Database.zscore] at isDeleted
  rw [isDeleted] at found
  have before := represents.deleted path
  rw [Database.zscore] at before
  rw [before]
  exact kept path found

/-- An accepted deletion leaves a tombstone of its own, and not too many of them. -/
theorem delete_accepted (represents : Represents store zone) {call : Call} (names : call.Names)
    {time : Time} (timely : time.milliseconds ≤ lastRevision)
    : (Catalog.delete store call time).store = store
        ∧ (∀ revision floor pruned,
            (Catalog.delete store call time).answer ≠ .ok revision floor pruned)
      ∨ ((Catalog.delete store call time).store.zscore .deleted call.path.member
          = some (zone.revision + 1)
        ∧ (store.zcard .deleted ≤ retentionCount →
            (Catalog.delete store call time).store.zcard .deleted ≤ retentionCount)) := by
  rw [Catalog.delete, represents.findState names]
  by_cases wrong : call.keys ≠ 6 ∨ call.member = []
  · rw [if_pos wrong]
    exact .inl ⟨rfl, (by rintro _ _ _ ⟨⟩)⟩
  rw [if_neg wrong]
  simp only
  split
  next => exact .inl ⟨rfl, (by rintro _ _ _ ⟨⟩)⟩
  split
  next => exact .inl ⟨rfl, (by rintro _ _ _ ⟨⟩)⟩
  rename_i room
  right
  simp only [names.member wrong]
  obtain ⟨next, deletes, _, after⟩ :=
    @Represents.delete store zone call.path time.milliseconds represents
      (represents.room room) timely
  refine ⟨?_, represents.zcard_delete⟩
  rw [after.deleted, deletes.item]
  rfl

/-- No call leaves too many tombstones. -/
theorem zcard_mutation (represents : Represents store zone) {mutation : Mutation}
    (sound : mutation.Sound) (few : store.zcard .deleted ≤ retentionCount)
    : (mutation.outcome store).store.zcard .deleted ≤ retentionCount := by
  have quiet {call : Call} {outcome : Outcome} (mutates : outcome.Mutates store zone call.path)
      (lasting : ∀ event ∈ outcome.event, event.deletes = false)
      : outcome.store.zcard .deleted ≤ retentionCount := by
    obtain ⟨next, step, after, _⟩ := mutates
    refine le_trans (represents.zcard_le after fun path known => ?_) few
    generalize outcome.answer = answer at step
    generalize isEvent : outcome.event = event at step lasting
    cases step with
    | refused => exact known
    | replaced =>
        by_cases same : path = call.path
        · subst same
          rw [Zone.items_replace] at known
          cases known
        · rwa [Zone.items_replace_of_ne same] at known
    | patched =>
        by_cases same : path = call.path
        · subst same
          rw [Zone.items_patch] at known
          cases known
        · rwa [Zone.items_patch_of_ne same] at known
    | deleted => cases lasting _ rfl
  cases mutation with
  | replace call =>
      exact quiet (represents.replace_mutates sound) fun event isEvent => replace_event isEvent
  | patch call =>
      exact quiet (represents.patch_mutates sound) fun event isEvent => patch_event isEvent
  | delete call time =>
      rcases represents.delete_accepted sound.1 sound.2 with ⟨same, _⟩ | ⟨_, fits⟩
      · show (Catalog.delete store call time).store.zcard .deleted ≤ _
        rw [same]
        exact few
      · exact fits few

end Represents

-- Runs

variable {mutations : List Mutation}

/-- A run leaves a zone that recalls its events and has few tombstones. -/
theorem Ledger.run_recalls (sound : ∀ mutation ∈ mutations, mutation.Sound)
    : ∃ zone, Represents (Ledger.run mutations).store zone
      ∧ zone.Recalls (Ledger.run mutations).events
      ∧ (Ledger.run mutations).store.zcard .deleted ≤ retentionCount := by
  induction mutations using List.reverseRecOn with
  | nil => exact ⟨{}, represents_empty, recalls_empty, Nat.zero_le _⟩
  | append_singleton before last ih =>
      obtain ⟨zone, represents, recalls, few⟩ :=
        ih fun mutation listed => sound mutation (List.mem_append_left _ listed)
      have isSound := sound last (List.mem_append_right _ (List.mem_singleton_self _))
      obtain ⟨next, step, after, _⟩ := isSound.mutates represents
      rw [Ledger.run, List.foldl_append]
      exact ⟨next, after, step.recalls recalls, represents.zcard_mutation isSound few⟩

/-- The members of the two indexes above the floor are those that were mutated. -/
theorem Zone.Recalls.exact (recalls : zone.Recalls events) (represents : Represents store zone)
    {cursor : Nat} (above : zone.floor ≤ cursor) (member : Text)
    : (∃ revision,
        (store.zscore .live member = some revision ∨ store.zscore .deleted member = some revision)
        ∧ cursor < revision ∧ revision ≤ zone.revision)
      ↔ MutatedAfter events member cursor := by
  constructor
  · rintro ⟨revision, listed, later, _⟩
    have isLast : ∃ deleted, lastMutation events member = some (revision, deleted) := by
      rcases listed with isLive | isDeleted
      · obtain ⟨path, rfl⟩ :=
          represents.members .live (by simp) member (Option.isSome_iff_exists.mpr ⟨_, isLive⟩)
        rw [represents.live] at isLive
        have before := recalls.items path
        split at before
        · rw [before] at isLive
          cases isLive
        next found isLast =>
          rw [isLive] at before
          cases before
          exact ⟨_, isLast⟩
        · rcases before with tombstone | ⟨missing, _⟩
          · cases isItem : zone.items path <;> rw [isItem] at tombstone isLive
              <;> simp [Item.liveRevision, Item.deletedRevision] at tombstone isLive
          · rw [missing] at isLive
            cases isLive
      · obtain ⟨path, rfl⟩ :=
          represents.members .deleted (by simp) member (Option.isSome_iff_exists.mpr ⟨_, isDeleted⟩)
        rw [represents.deleted] at isDeleted
        have before := recalls.items path
        split at before
        · rw [before] at isDeleted
          cases isDeleted
        · cases isItem : zone.items path <;> rw [isItem] at before isDeleted
            <;> simp [Item.liveRevision, Item.deletedRevision] at before isDeleted
        rename_i found isLast
        rcases before with tombstone | ⟨missing, _⟩
        · rw [isDeleted] at tombstone
          cases tombstone
          exact ⟨_, isLast⟩
        · rw [missing] at isDeleted
          cases isDeleted
    obtain ⟨deleted, isLast⟩ := isLast
    obtain ⟨event, isEvent, target, number⟩ := exists_of_lastMutation isLast
    exact ⟨event, isEvent, target, by omega⟩
  · rintro ⟨event, listed, rfl, later⟩
    obtain ⟨⟨revision, deleted⟩, isLast⟩ :=
      Option.isSome_iff_exists.mp (lastMutation_isSome listed)
    have highest := recalls.last _ revision deleted isLast event listed rfl
    obtain ⟨final, isFinal, _, number⟩ := exists_of_lastMutation isLast
    have numbered := recalls.numbered final isFinal
    obtain ⟨path, isPath⟩ := recalls.named event listed
    rw [← isPath] at isLast ⊢
    have item := recalls.items path
    rw [isLast] at item
    refine ⟨revision, ?_, by omega, by omega⟩
    cases deleted with
    | false => exact .inl ((represents.live path).trans item)
    | true =>
        rcases item with tombstone | ⟨_, below⟩
        · exact .inr ((represents.deleted path).trans tombstone)
        · omega

/-- After any calls on any paths at any times, the floor is no higher than the zone; a path whose
last mutation is a deletion above the floor has its tombstone; above any cursor from the floor on
the two indexes list just the paths that were mutated after it; and there are no more tombstones
than are retained. The next call lets the floor fall in no case, and a deletion that is accepted
keeps its own tombstone.
-/
theorem floor_law (sound : ∀ mutation ∈ mutations, mutation.Sound)
    : (Ledger.run mutations).store.floor ≤ (Ledger.run mutations).store.revision
      ∧ (∀ (path : Path) (revision : Nat),
          lastMutation (Ledger.run mutations).events path.member = some (revision, true) →
          (Ledger.run mutations).store.floor < revision →
            (Ledger.run mutations).store.zscore .deleted path.member = some revision)
      ∧ (∀ (cursor : Nat) (member : Text),
          (Ledger.run mutations).store.floor ≤ cursor →
            ((∃ revision,
              ((Ledger.run mutations).store.zscore .live member = some revision
                ∨ (Ledger.run mutations).store.zscore .deleted member = some revision)
              ∧ cursor < revision ∧ revision ≤ (Ledger.run mutations).store.revision)
            ↔ MutatedAfter (Ledger.run mutations).events member cursor))
      ∧ (Ledger.run mutations).store.zcard .deleted ≤ retentionCount
      ∧ (∀ mutation : Mutation,
          mutation.Sound →
            (Ledger.run mutations).store.floor
              ≤ (mutation.outcome (Ledger.run mutations).store).store.floor)
      ∧ ∀ (call : Call) (time : Time) (revision floor : Text) (pruned : Option Text),
          (Mutation.delete call time).Sound →
          (delete (Ledger.run mutations).store call time).answer = .ok revision floor pruned →
            (delete (Ledger.run mutations).store call time).store.zscore .deleted call.path.member
              = some ((Ledger.run mutations).store.revision + 1) := by
  obtain ⟨zone, represents, recalls, few⟩ := Ledger.run_recalls sound
  rw [represents.store_floor, represents.store_revision]
  refine ⟨represents.valid.floor, ?_, ?_, few, ?_, ?_⟩
  · intro path revision isLast above
    have item := recalls.items path
    rw [isLast] at item
    rcases item with tombstone | ⟨_, below⟩
    · rw [represents.deleted, tombstone]
    · omega
  · intro cursor member above
    exact recalls.exact represents above member
  · intro mutation isSound
    obtain ⟨next, step, after, _⟩ := isSound.mutates represents
    rw [after.store_floor]
    exact step.floor
  · intro call time revision floor pruned isSound accepted
    rcases represents.delete_accepted isSound.1 isSound.2 with ⟨_, refused⟩ | ⟨own, _⟩
    · exact absurd accepted (refused revision floor pruned)
    · exact own

/-- A value is written and deleted, and its tombstone is above the floor. -/
theorem floor_law_sample
    : (Ledger.run [.replace sampleReplace, .delete sampleDelete ⟨1, 0⟩]).store.floor = 0
      ∧ (Ledger.run [.replace sampleReplace, .delete sampleDelete ⟨1, 0⟩]).store.zcard .deleted
        ≤ retentionCount := by
  refine ⟨by decide, (floor_law ?_).2.2.2.1⟩
  intro mutation listed
  simp only [List.mem_cons, List.not_mem_nil, or_false] at listed
  rcases listed with rfl | rfl
  · exact .inl rfl
  · exact ⟨.inl rfl, by decide⟩

end Sdk.Catalog
