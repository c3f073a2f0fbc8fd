import Verdandi.Sdk.Registration.Accounting
import Verdandi.Support.Eviction

/-! What a selector keeps of its records when it connects again, and when that does not hang on
the order in which maps are enumerated.
-/

namespace Sdk.Registration

open Support
open Support.Redis (Text)

namespace SelectorCore

variable {P : Type} {core : SelectorCore P} {state : SelectorState P}

/-- What may become retained, by UUID. -/
abbrev Candidates (P : Type) := Text → Option (RetainedSelectorRecord P)

def endKey (candidates : Candidates P) (uuid : Text) : Nat ×ₗ List Nat :=
  toLex ((candidates uuid).elim 0 RetainedSelectorRecord.until', Astra.Bytes.rank uuid)

def candidateSize (candidates : Candidates P) (uuid : Text) : Nat :=
  (candidates uuid).elim 0 fun kept => kept.record.measured

variable {candidates : Candidates P} {kept : Finset Text}

theorem endKey_injective : Function.Injective (endKey candidates) := by
  intro left right same
  have both := congrArg ofLex same
  simp only [endKey, ofLex_toLex, Prod.mk.injEq] at both
  exact Astra.Bytes.rank_injective both.2

theorem SelectorRecord.measured_pos (record : SelectorRecord P) : 0 < record.measured := by
  unfold SelectorRecord.measured registrationSize
  omega

-- States of retained candidates

structure Shows (candidates : Candidates P) (state : SelectorState P) (kept : Finset Text)
    : Prop where
  retained : ∀ uuid, state.retained.get? uuid = if uuid ∈ kept then candidates uuid else none
  known : ∀ uuid ∈ kept, (candidates uuid).isSome
  idle : ∀ uuid, state.records.get? uuid = none

theorem shows_empty : Shows candidates {} ∅ where
  retained := by simp
  known := by simp
  idle := by simp

theorem Shows.found (shows' : Shows candidates state kept) {uuid : Text}
    {record : RetainedSelectorRecord P} (found : state.retained.get? uuid = some record)
    : uuid ∈ kept ∧ candidates uuid = some record := by
  rw [shows'.retained] at found
  split at found
  next listed => exact ⟨listed, found⟩
  · cases found

theorem Shows.bytes (books : Books core state) (shows' : Shows candidates state kept)
    : state.retainedBytes = ∑ uuid ∈ kept, candidateSize candidates uuid := by
  have names : kept = state.retained.keys.toFinset := by
    ext uuid
    rw [List.mem_toFinset, Assoc.mem_keys]
    constructor
    · intro listed
      obtain ⟨record, found⟩ := Option.isSome_iff_exists.mp (shows'.known uuid listed)
      exact ⟨record, by rw [shows'.retained, if_pos listed, found]⟩
    · rintro ⟨record, found⟩
      exact (shows'.found found).1
  rw [books.kept.bytes, names, List.sum_toFinset _ state.retained.nodup_keys,
    Assoc.weight_eq_toPairs, Assoc.keys_eq_toPairs, List.map_map]
  congr 2
  refine List.map_congr_left fun pair listed => ?_
  have found := (shows'.found ((Assoc.mem_toPairs _ _ _).mp listed)).2
  simp [candidateSize, found]

theorem Shows.fits (books : Books core state) (shows' : Shows candidates state kept)
    (few : state.retainedBytes ≤ core.selectorRetainedBytes)
    : ∑ uuid ∈ kept, candidateSize candidates uuid ≤ core.selectorRetainedBytes := by
  rw [shows'.bytes books] at few
  exact_mod_cast few

/-- What a state keeps of these candidates. -/
abbrev trimmed (core : SelectorCore P) (candidates : Candidates P) (kept : Finset Text)
    : Finset Text :=
  Eviction.trim (endKey candidates) (candidateSize candidates) core.selectorRetainedBytes kept

/-- Evictions leave the longest upper part. -/
theorem Shows.evict (books : Books core state) (shows' : Shows candidates state kept)
    {rounds : Nat} (enough : state.retainedDeadlines.items.length ≤ rounds)
    : Shows candidates (core.evict rounds state) (core.trimmed candidates kept) := by
  have stays (few : state.retainedBytes ≤ core.selectorRetainedBytes)
      : core.trimmed candidates kept = kept :=
    Eviction.trim_of_fits (shows'.fits books few)
  induction rounds generalizing state kept with
  | zero =>
      have none' : ∀ uuid, state.retained.get? uuid = none := by
        intro uuid
        have empty := List.length_eq_zero_iff.mp (Nat.le_zero.mp enough)
        have free := books.kept.queue.head.2.mp (by rw [empty]; rfl) uuid
        exact Option.map_eq_none_iff.mp free
      rw [stays (by rw [books.keptBytes_of_empty none']; exact Int.natCast_nonneg _)]
      exact shows'
  | succ rounds ih =>
      rw [SelectorCore.evict]
      split
      next many =>
        split
        next none' =>
          have free := books.kept.queue.pop_none.mp none'
          have nothing := books.keptBytes_of_empty fun uuid => Option.map_eq_none_iff.mp (free uuid)
          omega
        rename_i uuid rest popped
        obtain ⟨record, found, after⟩ := books.evicted popped
        obtain ⟨⟨until', least⟩, _⟩ := books.kept.queue.pop popped
        obtain ⟨listed, isRecord⟩ := shows'.found found
        have isUntil : record.until' = until' := by simpa [found] using least.1
        have fewer := Assoc.size_remove_of_some found
        have length := books.kept.length
        have less : rest.items.length = (state.retained.remove uuid).size := after.kept.length
        have erased
            : Shows candidates
                { state with
                  retainedDeadlines := rest
                  retainedBytes := state.retainedBytes - record.record.recordSize
                  retained := state.retained.remove uuid } (kept.erase uuid) := by
          refine ⟨fun other => ?_, fun other among => ?_, shows'.idle⟩
          · simp only [Assoc.get?_remove, Finset.mem_erase, shows'.retained]
            by_cases same : other = uuid
            · simp [same]
            · simp [same]
          · exact shows'.known other (Finset.mem_of_mem_erase among)
        have same : core.trimmed candidates (kept.erase uuid) = core.trimmed candidates kept := by
          apply Eviction.trim_erase_least listed
          · intro other among apart
            obtain ⟨held, isHeld⟩ := Option.isSome_iff_exists.mp (shows'.known other among)
            have there : state.retained.get? other = some held := by
              rw [shows'.retained, if_pos among, isHeld]
            have later := least.2 other held.until' (by simp [there])
            unfold endKey
            rw [isRecord, isHeld, Prod.Lex.toLex_lt_toLex]
            simp only [Option.elim_some, isUntil]
            rcases later with less' | ⟨same, equal | before⟩
            · exact .inl less'
            · exact absurd equal.symm apart
            · exact .inr ⟨same, (DeadlineQueue.rank_lt_iff _ _).mpr before⟩
          · rw [shows'.bytes books] at many
            exact_mod_cast many
        simp only [found]
        rw [← same]
        exact ih after erased (show rest.items.length ≤ rounds by omega) fun few =>
          Eviction.trim_of_fits (erased.fits after few)
      rename_i few
      rw [stays (Int.not_lt.mp few)]
      exact shows'

-- Arrivals

/-- Without a limit for retained bytes, nothing is retained. -/
theorem trimmed_of_zero (zero : core.selectorRetainedBytes = 0)
    (known : ∀ uuid ∈ kept, (candidates uuid).isSome)
    : core.trimmed candidates kept = ∅ := by
  rw [Finset.eq_empty_iff_forall_notMem]
  intro uuid listed
  obtain ⟨inside, within⟩ := Eviction.mem_trim.mp listed
  obtain ⟨record, isRecord⟩ := Option.isSome_iff_exists.mp (known uuid inside)
  have positive : 0 < candidateSize candidates uuid := by
    simp only [candidateSize, isRecord, Option.elim_some]
    exact SelectorRecord.measured_pos _
  have some' : candidateSize candidates uuid
      ≤ Eviction.reach (endKey candidates) (candidateSize candidates) kept uuid :=
    Finset.single_le_sum (f := candidateSize candidates) (fun _ _ => Nat.zero_le _)
      (Finset.mem_filter.mpr ⟨inside, le_rfl⟩)
  omega

/-- A record that is not among the candidates leaves nothing. -/
theorem Shows.removed (shows' : Shows candidates state kept) (uuid : Text)
    : Shows candidates (removeRetained state uuid).1 (kept.erase uuid) where
  retained other := by
    rw [removeRetained_get?, shows'.retained]
    by_cases same : other = uuid
    · simp [same]
    · simp [same]
  known other listed := shows'.known other (Finset.mem_of_mem_erase listed)
  idle other := by
    rw [(removeRetained_records state uuid).1]
    exact shows'.idle other

/-- A row comes, unless its time is over. -/
theorem Shows.setRetained (accounted : Accounted core state)
    (shows' : Shows candidates state kept) (row : RetainedSelectorRecord P) (now : Nat)
    (sized : row.record.Sized)
    (isRow : candidates row.record.info.uuid = if now < row.until' then some row else none)
    : Shows candidates (core.setRetained state row.record row.until' now).1
        (if now < row.until' then
          core.trimmed candidates (insert row.record.info.uuid kept)
        else
          kept) := by
  have idle := shows'.idle row.record.info.uuid
  have same : SelectorCore.removeActive state row.record.info.uuid = state := by
    unfold SelectorCore.removeActive
    simp only [idle]
  have before := shows'.removed row.record.info.uuid
  have whole := accounted.removeRetained row.record.info.uuid
  unfold SelectorCore.setRetained
  simp only [same]
  split
  next gone =>
    split
    next early =>
      rw [if_pos early] at isRow
      have zero : core.selectorRetainedBytes = 0 := by omega
      have nothing : kept = ∅ := by
        rw [← trimmed_of_zero zero shows'.known]
        exact (Eviction.trim_of_fits (shows'.fits accounted.toBooks accounted.keptWithin)).symm
      rw [nothing] at before
      rw [trimmed_of_zero zero]
      · exact before
      · intro other listed
        rw [nothing] at listed
        rw [Finset.mem_insert] at listed
        rcases listed with rfl | none'
        · rw [isRow]
          rfl
        · exact absurd none' (Finset.notMem_empty _)
    rename_i late
    rw [if_neg late] at isRow
    rw [Finset.erase_eq_of_notMem] at before
    · exact before
    · intro listed
      have known := shows'.known _ listed
      rw [isRow] at known
      cases known
  rename_i stays
  rw [not_or, not_le] at stays
  rw [if_pos stays.2] at isRow ⊢
  have idle' := before.idle row.record.info.uuid
  have free
      : (SelectorCore.removeRetained state row.record.info.uuid).1.retained.get?
          row.record.info.uuid = none := by
    rw [removeRetained_get?, if_pos rfl]
  have books := whole.addKept idle' free sized row.until'
  refine Shows.evict books ⟨fun other => ?_, fun other listed => ?_, before.idle⟩ le_rfl
  · simp only [Assoc.get?_set, Finset.mem_insert, before.retained, Finset.mem_erase]
    by_cases isOther : other = row.record.info.uuid
    · simp [isOther, isRow]
    · simp [isOther]
  · rcases Finset.mem_insert.mp listed with rfl | old
    · rw [isRow]
      rfl
    · exact shows'.known other old

/-- Rows come one by one. -/
theorem Shows.setAll (accounted : Accounted core state) (shows' : Shows candidates state kept)
    (rows : List (RetainedSelectorRecord P)) (now : Nat) (sized : ∀ row ∈ rows, row.record.Sized)
    (isRow
      : ∀ row ∈ rows, candidates row.record.info.uuid = if now < row.until' then some row else none)
    : Shows candidates
        (rows.foldl (fun state row => (core.setRetained state row.record row.until' now).1) state)
        (Eviction.fill (endKey candidates) (candidateSize candidates) core.selectorRetainedBytes
          kept
          ((rows.filter fun row => decide (now < row.until')).map (·.record.info.uuid))) := by
  induction rows generalizing state kept with
  | nil => exact shows'
  | cons row rest ih =>
      have first := shows'.setRetained accounted row now (sized row List.mem_cons_self)
        (isRow row List.mem_cons_self)
      have after := accounted.setRetained (sized row List.mem_cons_self) row.until' now
      have later := ih after first (fun other listed => sized other (List.mem_cons_of_mem _ listed))
        fun other listed => isRow other (List.mem_cons_of_mem _ listed)
      rw [List.foldl_cons]
      by_cases early : now < row.until'
      · rw [if_pos early] at later
        rw [List.filter_cons_of_pos (by simpa using early), List.map_cons]
        exact later
      · rw [if_neg early] at later
        rw [List.filter_cons_of_neg (by simpa using early)]
        exact later

-- Recovery

def retire (record : SelectorRecord P) : RetainedSelectorRecord P where
  record
  until' := retention record

/-- What may be retained of a state: its retained and active records that have time. -/
def successors (previous : SelectorState P) (now : Nat) : Candidates P := fun uuid =>
  (match previous.retained.get? uuid with
    | some kept => some kept
    | none => (previous.records.get? uuid).map retire).filter fun kept => decide (now < kept.until')

def stayed (previous : SelectorState P) (now : Nat) : Finset Text :=
  previous.retained.keys.toFinset.filter fun uuid => (successors previous now uuid).isSome

def leaving (previous : SelectorState P) (now : Nat) : Finset Text :=
  previous.records.keys.toFinset.filter fun uuid => (successors previous now uuid).isSome

def secure (core : SelectorCore P) (previous : SelectorState P) (now : Nat) : Finset Text :=
  core.trimmed (successors previous now) (stayed previous now ∪ leaving previous now)

structure Enumerates (previous : SelectorState P) (active : List (SelectorRecord P))
    (kept : List (RetainedSelectorRecord P)) : Prop where
  active : active.Perm (previous.records.toPairs.map Prod.snd)
  kept : kept.Perm (previous.retained.toPairs.map Prod.snd)

/-- No active record fits beside the records of the latest ends that fit together. -/
def Steady (core : SelectorCore P) (previous : SelectorState P) (now : Nat) : Prop :=
  ∀ uuid ∈ leaving previous now, uuid ∉ core.secure previous now → core.selectorRetainedBytes
        < candidateSize (successors previous now) uuid
          + ∑ other ∈ core.secure previous now, candidateSize (successors previous now) other

variable {previous : SelectorState P} {now : Nat} {active : List (SelectorRecord P)}
variable {keptRows : List (RetainedSelectorRecord P)}

theorem recoveryState_eq (active : List (SelectorRecord P))
    (keptRows : List (RetainedSelectorRecord P)) (now : Nat)
    : core.recoveryState active keptRows now = (keptRows ++ active.map retire).foldl
          (fun state row => (core.setRetained state row.record row.until' now).1) {} := by
  rw [List.foldl_append, List.foldl_map]
  rfl

variable {record : SelectorRecord P}

theorem Enumerates.mem_active (accounted : Accounted core previous)
    (enumerates : Enumerates previous active keptRows)
    : record ∈ active ↔ previous.records.get? record.info.uuid = some record := by
  rw [enumerates.active.mem_iff, List.mem_map]
  constructor
  · rintro ⟨⟨uuid, _⟩, listed, rfl⟩
    have found := (Assoc.mem_toPairs _ _ _).mp listed
    rw [(accounted.named uuid _ found).1]
    exact found
  · intro found
    exact ⟨⟨record.info.uuid, record⟩, (Assoc.mem_toPairs _ _ _).mpr found, rfl⟩

variable {row : RetainedSelectorRecord P}

theorem Enumerates.mem_kept (accounted : Accounted core previous)
    (enumerates : Enumerates previous active keptRows)
    : row ∈ keptRows ↔ previous.retained.get? row.record.info.uuid = some row := by
  rw [enumerates.kept.mem_iff, List.mem_map]
  constructor
  · rintro ⟨⟨uuid, _⟩, listed, rfl⟩
    have found := (Assoc.mem_toPairs _ _ _).mp listed
    rw [(accounted.keptNamed uuid _ found).1]
    exact found
  · intro found
    exact ⟨⟨row.record.info.uuid, row⟩, (Assoc.mem_toPairs _ _ _).mpr found, rfl⟩

variable {uuid : Text}

theorem successors_of_kept (found : previous.retained.get? uuid = some row)
    : successors previous now uuid = if now < row.until' then some row else none := by
  unfold successors
  rw [found]
  simp [Option.filter]

theorem successors_of_active (accounted : Accounted core previous)
    (found : previous.records.get? uuid = some record)
    : successors previous now uuid
      = if now < (retire record).until' then some (retire record) else none := by
  unfold successors
  rw [accounted.apart uuid record found, found]
  simp [Option.filter]

def arrivals (now : Nat) (rows : List (RetainedSelectorRecord P)) : List Text :=
  (rows.filter fun row => decide (now < row.until')).map (·.record.info.uuid)

theorem mem_arrivals {rows : List (RetainedSelectorRecord P)}
    : uuid ∈ arrivals now rows ↔ ∃ row ∈ rows, now < row.until' ∧ row.record.info.uuid = uuid := by
  simp only [arrivals, List.mem_map, List.mem_filter, decide_eq_true_eq, and_assoc]

theorem stayed_eq (accounted : Accounted core previous)
    (enumerates : Enumerates previous active keptRows)
    : (arrivals now keptRows).toFinset = stayed previous now := by
  ext uuid
  rw [List.mem_toFinset, mem_arrivals, stayed, Finset.mem_filter, List.mem_toFinset, Assoc.mem_keys]
  constructor
  · rintro ⟨row, listed, early, rfl⟩
    have found := (enumerates.mem_kept accounted).mp listed
    rw [successors_of_kept found, if_pos early]
    exact ⟨⟨row, found⟩, rfl⟩
  · rintro ⟨⟨row, found⟩, known⟩
    rw [successors_of_kept found] at known
    split at known
    next early =>
      have names := (accounted.keptNamed uuid row found).1
      refine ⟨row, (enumerates.mem_kept accounted).mpr ?_, early, names⟩
      rw [names]
      exact found
    · cases known

theorem leaving_eq (accounted : Accounted core previous)
    (enumerates : Enumerates previous active keptRows)
    : (arrivals now (active.map retire)).toFinset = leaving previous now := by
  ext uuid
  rw [List.mem_toFinset, mem_arrivals, leaving, Finset.mem_filter, List.mem_toFinset,
    Assoc.mem_keys]
  constructor
  · rintro ⟨_, listed, early, rfl⟩
    obtain ⟨record, member, rfl⟩ := List.mem_map.mp listed
    have found := (enumerates.mem_active accounted).mp member
    have isSuccessor : successors previous now record.info.uuid = _ :=
      successors_of_active accounted found
    rw [if_pos early] at isSuccessor
    exact ⟨⟨record, found⟩, by
      show (successors previous now record.info.uuid).isSome
      rw [isSuccessor]
      rfl⟩
  · rintro ⟨⟨record, found⟩, known⟩
    rw [successors_of_active accounted found] at known
    split at known
    next early =>
      have names := (accounted.named uuid record found).1
      refine ⟨retire record, List.mem_map_of_mem ((enumerates.mem_active accounted).mpr ?_), early,
        names⟩
      rw [names]
      exact found
    · cases known

/-- The retained records fitted before. -/
theorem stayed_fits (accounted : Accounted core previous) (now : Nat)
    : ∑ uuid ∈ stayed previous now, candidateSize (successors previous now) uuid
      ≤ core.selectorRetainedBytes := by
  have whole
      : ∑ uuid ∈ previous.retained.keys.toFinset,
          ((previous.retained.get? uuid).elim 0 fun row => row.record.measured)
        = previous.retained.weight fun _ row => row.record.measured := by
    rw [List.sum_toFinset _ previous.retained.nodup_keys, Assoc.weight_eq_toPairs,
      Assoc.keys_eq_toPairs, List.map_map]
    congr 1
    refine List.map_congr_left fun pair listed => ?_
    simp [(Assoc.mem_toPairs _ _ _).mp listed]
  have within := accounted.keptWithin
  rw [accounted.kept.bytes, ← whole] at within
  have fewer
      : ∑ uuid ∈ stayed previous now,
          ((previous.retained.get? uuid).elim 0 fun row => row.record.measured)
        ≤ ∑ uuid ∈ previous.retained.keys.toFinset,
            ((previous.retained.get? uuid).elim 0 fun row => row.record.measured) :=
    Finset.sum_le_sum_of_subset (Finset.filter_subset _ _)
  refine le_trans ?_ (fewer.trans (Int.ofNat_le.mp within))
  refine Finset.sum_le_sum fun uuid listed => ?_
  obtain ⟨member, known⟩ := Finset.mem_filter.mp listed
  obtain ⟨row, found⟩ := (Assoc.mem_keys _ _).mp (List.mem_toFinset.mp member)
  unfold candidateSize
  rw [successors_of_kept found] at known ⊢
  rw [found]
  split
  · exact le_rfl
  · exact Nat.zero_le _

/-- What is retained comes from the records that stayed, with those that leave one by one. -/
theorem recovery_shows (accounted : Accounted core previous)
    (enumerates : Enumerates previous active keptRows) (now : Nat)
    : Shows (successors previous now) (core.recoveryState active keptRows now)
        (Eviction.fill (endKey (successors previous now))
          (candidateSize (successors previous now)) core.selectorRetainedBytes
          (stayed previous now) (arrivals now (active.map retire))) := by
  have shown :=
    Shows.setAll (accounted_empty : Accounted core {}) (@shows_empty P (successors previous now))
      (keptRows ++ active.map retire) now ?_ ?_
  · rw [recoveryState_eq]
    have split' : (((keptRows ++ active.map retire).filter fun row => decide (now < row.until')).map
        (·.record.info.uuid)) = arrivals now keptRows ++ arrivals now (active.map retire) := by
      rw [List.filter_append, List.map_append]
      rfl
    have started
        : Eviction.fill (endKey (successors previous now))
            (candidateSize (successors previous now)) core.selectorRetainedBytes ∅
            (arrivals now keptRows) = stayed previous now := by
      rw [Eviction.fill_of_fits, Finset.empty_union, stayed_eq accounted enumerates]
      rw [Finset.empty_union, stayed_eq accounted enumerates]
      exact stayed_fits accounted now
    rw [split', Eviction.fill_append, started] at shown
    exact shown
  · intro row listed
    rcases List.mem_append.mp listed with isKept | isActive
    · exact accounted.kept_sized enumerates.kept row isKept
    · obtain ⟨record, member, rfl⟩ := List.mem_map.mp isActive
      exact accounted.active_sized enumerates.active record member
  · intro row listed
    rcases List.mem_append.mp listed with isKept | isActive
    · exact successors_of_kept ((enumerates.mem_kept accounted).mp isKept)
    · obtain ⟨record, member, rfl⟩ := List.mem_map.mp isActive
      exact successors_of_active accounted ((enumerates.mem_active accounted).mp member)

theorem leaving_apart (accounted : Accounted core previous) (listed : uuid ∈ leaving previous now)
    : uuid ∉ stayed previous now := by
  intro both
  rw [leaving, Finset.mem_filter, List.mem_toFinset, Assoc.mem_keys] at listed
  rw [stayed, Finset.mem_filter, List.mem_toFinset, Assoc.mem_keys] at both
  obtain ⟨⟨record, found⟩, _⟩ := listed
  obtain ⟨⟨row, held⟩, _⟩ := both
  rw [accounted.apart uuid record found] at held
  cases held

/-- In a steady state, every order keeps the records of the latest ends. -/
theorem Steady.shows (steady : Steady core previous now) (accounted : Accounted core previous)
    (enumerates : Enumerates previous active keptRows)
    : Shows (successors previous now) (core.recoveryState active keptRows now)
        (core.secure previous now) := by
  have shown := recovery_shows accounted enumerates now
  have leave : (arrivals now (active.map retire)).toFinset = leaving previous now :=
    leaving_eq accounted enumerates
  rw [Eviction.fill_eq endKey_injective (stayed_fits accounted now), leave] at shown
  · exact shown
  · intro uuid listed
    rw [← List.mem_toFinset, leave] at listed
    exact leaving_apart accounted listed
  · intro uuid listed left
    rw [← List.mem_toFinset, leave] at listed
    rw [leave] at left ⊢
    exact steady uuid listed left

theorem arrivals_sublist (now : Nat) (active : List (SelectorRecord P))
    : (arrivals now (active.map retire)).Sublist (active.map (·.info.uuid)) := by
  have same
      : arrivals now (active.map retire)
        = (active.filter fun record => decide (now < (retire record).until')).map
            (·.info.uuid) := by
    rw [arrivals, List.filter_map, List.map_map]
    rfl
  rw [same]
  exact List.filter_sublist.map _

theorem Enumerates.nodup (accounted : Accounted core previous)
    (enumerates : Enumerates previous active keptRows)
    : (active.map (·.info.uuid)).Nodup := by
  have names : (previous.records.toPairs.map Prod.snd).map (·.info.uuid) = previous.records.keys := by
    rw [List.map_map, Assoc.keys_eq_toPairs]
    refine List.map_congr_left fun pair listed => ?_
    exact (accounted.named pair.1 pair.2 ((Assoc.mem_toPairs _ _ _).mp listed)).1
  rw [(enumerates.active.map _).nodup_iff, names]
  exact previous.records.nodup_keys

/-- The active records in the order of their ends. -/
theorem exists_sorted (accounted : Accounted core previous) (now : Nat)
    : ∃ active, Enumerates previous active (previous.retained.toPairs.map Prod.snd)
        ∧ (arrivals now (active.map retire)).Pairwise fun left right =>
            endKey (successors previous now) left < endKey (successors previous now) right := by
  let before (left right : SelectorRecord P) : Bool :=
    decide (endKey (successors previous now) left.info.uuid
      ≤ endKey (successors previous now) right.info.uuid)
  let sorted := (previous.records.toPairs.map Prod.snd).mergeSort before
  have enumerates : Enumerates previous sorted (previous.retained.toPairs.map Prod.snd) :=
    ⟨List.mergeSort_perm _ _, List.Perm.refl _⟩
  refine ⟨sorted, enumerates, ?_⟩
  have ordered : sorted.Pairwise fun left right => before left right = true := by
    apply List.pairwise_mergeSort
    · intro left middle right first second
      simp only [before, decide_eq_true_eq] at first second ⊢
      exact first.trans second
    · intro left right
      simp only [before, Bool.or_eq_true, decide_eq_true_eq]
      exact le_total _ _
  have named
      : (sorted.map (·.info.uuid)).Pairwise fun left right =>
          endKey (successors previous now) left ≤ endKey (successors previous now) right := by
    rw [List.pairwise_map]
    exact ordered.imp fun before' => of_decide_eq_true before'
  have distinct := (enumerates.nodup accounted).sublist (arrivals_sublist now sorted)
  refine ((named.sublist (arrivals_sublist now sorted)).and distinct).imp ?_
  rintro left right ⟨less, apart⟩
  exact lt_of_le_of_ne less fun same => apart (endKey_injective same)

/-- The active records with one that has time at the end. -/
theorem exists_last (accounted : Accounted core previous) (listed : uuid ∈ leaving previous now)
    : ∃ active before, Enumerates previous active (previous.retained.toPairs.map Prod.snd)
        ∧ arrivals now (active.map retire) = before ++ [uuid] := by
  rw [leaving, Finset.mem_filter, List.mem_toFinset, Assoc.mem_keys] at listed
  obtain ⟨⟨record, found⟩, known⟩ := listed
  rw [successors_of_active accounted found] at known
  split at known
  next early =>
    have member : record ∈ previous.records.toPairs.map Prod.snd :=
      List.mem_map.mpr ⟨(uuid, record), (Assoc.mem_toPairs _ _ _).mpr found, rfl⟩
    obtain ⟨left, right, whole⟩ := List.append_of_mem member
    refine ⟨(left ++ right) ++ [record], arrivals now ((left ++ right).map retire), ⟨?_, .refl _⟩,
      ?_⟩
    · rw [whole]
      exact (List.perm_append_singleton _ _).trans List.perm_middle.symm
    · rw [arrivals, List.map_append, List.filter_append, List.map_append]
      simp only [List.map_cons, List.map_nil]
      rw [List.filter_cons_of_pos (by simpa using early), List.filter_nil]
      simp only [List.map_cons, List.map_nil]
      rw [show (retire record).record.info.uuid = uuid from (accounted.named uuid record found).1]
      rfl
  · cases known

structure Recovers (core : SelectorCore P) (previous : SelectorState P) (now : Nat) : Prop where
  alike
    : ∀ active kept active' kept', Enumerates previous active kept →
        Enumerates previous active' kept' →
          (∀ uuid,
            (core.recoveryState active kept now).retained.get? uuid
              = (core.recoveryState active' kept' now).retained.get? uuid)
          ∧ (core.recoveryState active kept now).retainedBytes
            = (core.recoveryState active' kept' now).retainedBytes
  ends
    : ∀ active kept uuid before after, Enumerates previous active kept →
        previous.retained.get? uuid = some before →
        (core.recoveryState active kept now).retained.get? uuid = some after →
          after.until' = before.until'
  idle
    : ∀ active kept uuid, Enumerates previous active kept →
          (core.recoveryState active kept now).records.get? uuid = none
  within
    : ∀ active kept, Enumerates previous active kept →
          (core.recoveryState active kept now).retainedBytes ≤ core.selectorRetainedBytes

/-- The survivors of a set are the records that are found. -/
theorem Shows.same {one other : SelectorState P} {kept' : Finset Text}
    (shown : Shows candidates one kept) (shown' : Shows candidates other kept')
    (same : ∀ uuid, one.retained.get? uuid = other.retained.get? uuid)
    : kept = kept' := by
  ext uuid
  have both := same uuid
  rw [shown.retained, shown'.retained] at both
  constructor
  · intro listed
    by_contra missing
    rw [if_pos listed, if_neg missing] at both
    have known := shown.known uuid listed
    rw [both] at known
    cases known
  · intro listed
    by_contra missing
    rw [if_pos listed, if_neg missing] at both
    have known := shown'.known uuid listed
    rw [← both] at known
    cases known

/-- A recovery does not hang on the order of the maps if and only if no active record fits
beside the records of the latest ends that fit together.
-/
theorem recovery_law (core : SelectorCore P) (previous : SelectorState P) (now : Nat)
    (reached : Reachable core previous)
    : Recovers core previous now ↔ Steady core previous now := by
  have accounted := reached.accounted
  have sound {active kept} (enumerates : Enumerates previous active kept)
      : Accounted core (core.recoveryState active kept now) :=
    accounted_recovery now (accounted.active_sized enumerates.active)
      (accounted.kept_sized enumerates.kept)
  constructor
  · intro recovers uuid listed left
    by_contra small
    -- One order leaves the upper part, another one the record too.
    obtain ⟨sorted, enumerates, ordered⟩ := exists_sorted accounted now
    obtain ⟨ending, before, enumerates', last⟩ := exists_last accounted listed
    have shown := recovery_shows accounted enumerates now
    have shown' := recovery_shows accounted enumerates' now
    rw [Eviction.fill_sorted (stayed_fits accounted now) ordered,
      leaving_eq accounted enumerates] at shown
    rw [last] at shown'
    refine Eviction.fill_last_ne endKey_injective (stayed_fits accounted now) left
      (not_lt.mp small) (shown'.same shown fun other => ?_)
    exact (recovers.alike _ _ _ _ enumerates' enumerates).1 other
  · intro steady
    constructor
    · intro active kept active' kept' enumerates enumerates'
      have shown := steady.shows accounted enumerates
      have shown' := steady.shows accounted enumerates'
      refine ⟨fun uuid => by rw [shown.retained, shown'.retained], ?_⟩
      rw [shown.bytes (sound enumerates).toBooks, shown'.bytes (sound enumerates').toBooks]
    · intro active kept uuid before after enumerates isBefore isAfter
      have isSuccessor := ((recovery_shows accounted enumerates now).found isAfter).2
      rw [successors_of_kept isBefore] at isSuccessor
      split at isSuccessor
      · cases isSuccessor
        rfl
      · cases isSuccessor
    · intro active kept uuid enumerates
      exact (recovery_shows accounted enumerates now).idle uuid
    · intro active kept enumerates
      exact (sound enumerates).keptWithin

def leased (name : UInt8) (deadline : Nat) (data : Assoc Text Text) (size : Nat)
    : SelectorRecord Unit where
  info := { uuid := [name], revision := 1, timestamp := 1, ttl := 1, version := 1 }
  attr := ∅
  data
  deadline
  size

def early : SelectorRecord Unit := leased 1 10 ∅ 56

def middle : SelectorRecord Unit := leased 2 20 (Assoc.set ∅ [7] []) 57

def late : SelectorRecord Unit := leased 3 30 ∅ 56

def narrowCore : SelectorCore Unit where
  selectorMaxBytes := 1000
  selectorRetainedBytes := 112

def threeRecords : SelectorState Unit :=
  (narrowCore.setRecord (narrowCore.setRecord (narrowCore.setRecord {} early).1 middle).1 late).1

theorem reachable_threeRecords : Reachable narrowCore threeRecords :=
  .step (.step (.step .empty (.setRecord early (.inr rfl))) (.setRecord middle (.inr rfl)))
    (.setRecord late (.inr rfl))

theorem recovery_law_threeRecords
    : Recovers narrowCore threeRecords 5 ↔ Steady narrowCore threeRecords 5 :=
  recovery_law narrowCore threeRecords 5 reachable_threeRecords

/-- The middle record pushes the early one out, or it leaves before that one comes. -/
theorem order_matters
    : ¬ ∀ (core : SelectorCore Unit) (previous : SelectorState Unit) (now : Nat),
        Reachable core previous → Recovers core previous now := by
  intro all
  have recovers := all narrowCore threeRecords 5 reachable_threeRecords
  have downwards : Enumerates threeRecords [late, middle, early] [] := ⟨.refl _, .refl _⟩
  have upwards : Enumerates threeRecords [early, middle, late] [] :=
    ⟨List.reverse_perm [late, middle, early], .refl _⟩
  have same := congrArg Option.isSome ((recovers.alike _ _ _ _ downwards upwards).1 [1])
  exact absurd same (by decide)

end SelectorCore

end Sdk.Registration
