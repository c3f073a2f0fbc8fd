import Verdandi.Star.Origin

/-! The totals of a source: what its records, Scopes and events are charged. Every change keeps them,
and none exceeds a bound of the source.
-/

namespace Astra.Origin

open Support

variable {Item : Type} {traits : Traits Item} {origin next : Origin Item} {edit : Edit Item}
  {name : Name} {record : Option Item} {position : Option Nat} {now : Int} {form : Form}
  {scope : Scope}

def charge (traits : Traits Item) (name : Name) (item : Item) : Nat :=
  (Scene.weight traits.toMeasure name.key item).getD 0

def occupied (origin : Origin Item) : Finset Scope :=
  (origin.entries.keys.map Name.scope).toFinset

structure Accounts (traits : Traits Item) (origin : Origin Item) : Prop where
  whole : ∀ name item, origin.find name = some item
    → (Scene.weight traits.toMeasure name.key item).isSome = true
  bytes : origin.bytes = origin.entries.weight (charge traits)
  scopes : origin.scopeCount = origin.occupied.card
  directory : origin.directory = ∑ scope ∈ origin.occupied, directoryOf scope
  backlog : origin.backlog = (origin.history.map Event.bytes).sum

structure Bounded (origin : Origin Item) : Prop where
  records : origin.entries.size ≤ origin.limits.records
  scopes : origin.scopeCount ≤ origin.limits.scopes
  bytes : origin.bytes + origin.directory ≤ origin.limits.bytes
  history : origin.history.length ≤ origin.limits.history
  backlog : origin.backlog ≤ origin.limits.backlog

-- Scopes

theorem mem_occupied
    : scope ∈ origin.occupied ↔ ∃ name, name.scope = scope ∧ (origin.find name).isSome = true := by
  rw [occupied, List.mem_toFinset, List.mem_map]
  constructor
  · rintro ⟨name, listed, same⟩
    exact ⟨name, same, Option.isSome_iff_exists.mpr ((Assoc.mem_keys _ _).mp listed)⟩
  · rintro ⟨name, same, found⟩
    exact ⟨name, (Assoc.mem_keys _ _).mpr (Option.isSome_iff_exists.mp found), same⟩

theorem locate_iff : origin.locate scope = true ↔ scope ∈ origin.occupied := by
  simp [locate, occupied]

theorem occupied_some {item : Item} (finds : next.find = Function.update origin.find name (some item))
    : next.occupied = insert name.scope origin.occupied := by
  ext scope
  simp only [mem_occupied, Finset.mem_insert, finds]
  constructor
  · rintro ⟨other, rfl, found⟩
    by_cases same : other = name
    · exact .inl (same ▸ rfl)
    · rw [Function.update_of_ne same] at found
      exact .inr ⟨other, rfl, found⟩
  · rintro (rfl | ⟨other, rfl, found⟩)
    · exact ⟨name, rfl, by rw [Function.update_self]; rfl⟩
    · by_cases same : other = name
      · exact ⟨name, same ▸ rfl, by rw [Function.update_self]; rfl⟩
      · exact ⟨other, rfl, by rwa [Function.update_of_ne same]⟩

/-- Without a record, a Scope is still there if another record is. -/
theorem occupied_none (finds : next.find = Function.update origin.find name none)
    : next.occupied
      = if next.locate name.scope then origin.occupied else origin.occupied.erase name.scope := by
  ext scope
  have stays {other : Name} (different : other.scope ≠ name.scope) : next.find other = origin.find other := by
    rw [finds, Function.update_of_ne fun same => different (congrArg Name.scope same)]
  have grows {other : Name} (found : (next.find other).isSome = true)
      : (origin.find other).isSome = true := by
    rw [finds] at found
    by_cases same : other = name
    · rw [same, Function.update_self] at found
      cases found
    · rwa [Function.update_of_ne same] at found
  have elsewhere (different : scope ≠ name.scope) : scope ∈ next.occupied ↔ scope ∈ origin.occupied := by
    rw [mem_occupied, mem_occupied]
    constructor
    · rintro ⟨other, rfl, found⟩
      exact ⟨other, rfl, grows found⟩
    · rintro ⟨other, rfl, found⟩
      exact ⟨other, rfl, by rwa [stays different]⟩
  by_cases located : next.locate name.scope = true
  · rw [if_pos located]
    by_cases same : scope = name.scope
    · subst same
      rw [locate_iff] at located
      refine ⟨fun _ => ?_, fun _ => located⟩
      obtain ⟨other, isScope, found⟩ := mem_occupied.mp located
      exact mem_occupied.mpr ⟨other, isScope, grows found⟩
    · exact elsewhere same
  · rw [if_neg located, Finset.mem_erase]
    by_cases same : scope = name.scope
    · rw [same]
      exact ⟨fun is => absurd (locate_iff.mpr is) located, fun is => absurd rfl is.1⟩
    · rw [elsewhere same]
      exact ⟨fun is => ⟨same, is⟩, And.right⟩

-- Events

/-- What is left after an eviction is within the bounds. Witness: induction over the events. -/
theorem evicted_spec (limits : Limits) (now : Int) (events : List (Event Item)) {backlog : Nat}
    (total : backlog = (events.map Event.bytes).sum)
    : ((events.take (evicted limits now events backlog)).map Event.bytes).sum ≤ backlog
      ∧ (events.drop (evicted limits now events backlog)).length ≤ limits.history
      ∧ ((events.drop (evicted limits now events backlog)).map Event.bytes).sum ≤ limits.backlog
      ∧ backlog - ((events.take (evicted limits now events backlog)).map Event.bytes).sum
        = ((events.drop (evicted limits now events backlog)).map Event.bytes).sum := by
  induction events generalizing backlog with
  | nil => simp [evicted, total]
  | cons oldest rest ih =>
      rw [List.map_cons, List.sum_cons] at total
      rw [evicted]
      split
      · have left := @ih (backlog - oldest.bytes) (by omega)
        simp only [List.take_succ_cons, List.drop_succ_cons, List.map_cons, List.sum_cons]
        omega
      rename_i within
      simp only [not_or, Nat.not_lt, List.take_zero, List.drop_zero, List.map_nil, List.sum_nil,
        List.length_cons, List.map_cons, List.sum_cons] at within ⊢
      omega

-- Single changes

/-- The charge that a record that may be missing has, unless it overflows. -/
def weightOf (traits : Traits Item) (name : Name) (record : Option Item) : Option Nat :=
  record.elim (some 0) (Scene.weight traits.toMeasure name.key)

def extraOf (origin : Origin Item) (name : Name) (record : Option Item) : Nat :=
  if record.isSome && !origin.locate name.scope then directoryOf name.scope else 0

/-- What was checked when a change was prepared, and what it has from that. -/
structure Prepared (traits : Traits Item) (origin : Origin Item) (name : Name)
    (record : Option Item) (now : Int) (edit : Edit Item) (before after : Nat) : Prop where
  isName : edit.name = name
  isRecord : edit.record = record
  isBefore : weightOf traits name (origin.find name) = some before
  isAfter : weightOf traits name record = some after
  bytes : edit.bytes = origin.bytes - before + after
  fits : after ≤ origin.limits.bytes ∧ origin.bytes - before ≤ origin.limits.bytes - after
  room : record.isSome = true → origin.find name = none → origin.entries.size ≠ origin.limits.records
  directory : origin.directory ≤ origin.limits.bytes
    ∧ origin.extraOf name record ≤ origin.limits.bytes - origin.directory
    ∧ edit.bytes ≤ origin.limits.bytes - origin.directory - origin.extraOf name record
  opens : record.isSome = true → origin.locate name.scope = false
    → origin.scopeCount ≠ origin.limits.scopes
  evicted : edit.evicted = evicted origin.limits now (origin.history ++ edit.queued.toList)
    (origin.backlog + edit.queued.elim 0 Event.bytes)

theorem prepared_of_prepare
    (isPrepared : origin.prepare traits name record position now form = .ok edit)
    : ∃ before after, Prepared traits origin name record now edit before after := by
  rw [prepare] at isPrepared
  split at isPrepared
  · cases isPrepared
  split at isPrepared
  · cases isPrepared
  split at isPrepared
  · cases isPrepared
  dsimp only at isPrepared
  rw [show (if (record.isSome && !origin.locate name.scope) = true then directoryOf name.scope else 0)
    = origin.extraOf name record from rfl] at isPrepared
  generalize isExtra : origin.extraOf name record = extra at isPrepared
  split at isPrepared
  next before after isBefore isAfter =>
    split at isPrepared
    · cases isPrepared
    rename_i fits
    split at isPrepared
    · cases isPrepared
    rename_i directory
    split at isPrepared
    · cases isPrepared
    rename_i opens
    split at isPrepared
    · cases isPrepared
    rename_i queued isQueued
    cases isPrepared
    simp only [not_or, Nat.not_lt, not_and] at fits directory opens
    refine ⟨before, after, rfl, rfl, isBefore, isAfter, rfl, ⟨fits.1, fits.2.1⟩, ?_,
      isExtra ▸ directory, ?_, rfl⟩
    · intro isSome missing full
      exact fits.2.2 isSome (Option.isNone_iff_eq_none.mpr missing) full
    · intro isSome vacant
      exact opens (by simp [isSome, vacant])
  · cases isPrepared

/-- What remains of the charges when a record is replaced. -/
theorem weight_amend {entries : Assoc Name Item} {before after : Nat} {total : Nat}
    (isBefore : weightOf traits name (entries.get? name) = some before)
    (isAfter : weightOf traits name record = some after)
    (isTotal : total = entries.weight (charge traits))
    : before ≤ total ∧ (entries.amend name record).weight (charge traits) = total - before + after := by
  have charged {item : Item} {cost : Nat} (is : weightOf traits name (some item) = some cost)
      : charge traits name item = cost := by
    rw [weightOf, Option.elim_some] at is
    rw [charge, is, Option.getD_some]
  have removed : (entries.remove name).weight (charge traits) + before = total := by
    cases found : entries.get? name with
    | none =>
        rw [found] at isBefore
        cases isBefore
        rw [Assoc.remove_of_none found, isTotal, Nat.add_zero]
    | some old =>
        rw [found] at isBefore
        have absent : (entries.remove name).get? name = none := by rw [Assoc.get?_remove, if_pos rfl]
        have added := Assoc.weight_set_of_none absent (charge traits) old
        have same : ((entries.remove name).set name old).get? = entries.get? := by
          funext other
          rw [Assoc.get?_set, Assoc.get?_remove]
          by_cases is : other = name <;> simp [is, found]
        rw [Assoc.weight_congr _ same, charged isBefore] at added
        omega
  refine ⟨by omega, ?_⟩
  cases record with
  | none =>
      cases isAfter
      rw [Assoc.amend]
      omega
  | some item =>
      have absent : (entries.remove name).get? name = none := by rw [Assoc.get?_remove, if_pos rfl]
      have added := Assoc.weight_set_of_none absent (charge traits) item
      have same : ((entries.remove name).set name item).get? = (entries.amend name (some item)).get? := by
        funext other
        rw [Assoc.get?_set, Assoc.get?_remove, Assoc.get?_amend]
        by_cases is : other = name <;> simp [is]
      rw [Assoc.weight_congr _ same, charged isAfter] at added
      omega

/-- The counts of Scopes after a change. Witness: whether its Scope was there, and whether it is still
there.
-/
theorem scopes_commit (accounts : origin.Accounts traits)
    (finds : (edit.commit origin).find = Function.update origin.find edit.name edit.record)
    : (edit.commit origin).scopeCount = (edit.commit origin).occupied.card
      ∧ (edit.commit origin).directory = ∑ scope ∈ (edit.commit origin).occupied, directoryOf scope := by
  have published (other : Origin Item) (same : other.entries = origin.entries.amend edit.name edit.record)
      : other.occupied = (edit.commit origin).occupied
        ∧ ∀ scope, other.locate scope = (edit.commit origin).locate scope := by
    have entries := (edit.published origin).entries
    refine ⟨?_, fun scope => ?_⟩
    · rw [occupied, occupied, same, entries]
    · rw [locate, locate, same, entries]
  cases isRecord : edit.record with
  | some item =>
      have occupied := occupied_some (isRecord ▸ finds)
      by_cases located : origin.locate edit.name.scope = true
      · have stays : (edit.commit origin).locate edit.name.scope = true := by
          rw [locate_iff, occupied]
          exact Finset.mem_insert_self _ _
        have same : (edit.commit origin).scopeCount = origin.scopeCount
            ∧ (edit.commit origin).directory = origin.directory := by
          rw [Edit.commit]
          simp only [located, Bool.not_true, Bool.false_eq_true, and_false, if_false, if_true]
          rw [prune, if_pos]
          · exact ⟨rfl, rfl⟩
          · rw [(published _ rfl).2]
            exact stays
        rw [occupied, Finset.insert_eq_of_mem (locate_iff.mp located), same.1, same.2]
        exact ⟨accounts.scopes, accounts.directory⟩
      · have same : (edit.commit origin).scopeCount = origin.scopeCount + 1
            ∧ (edit.commit origin).directory = origin.directory + directoryOf edit.name.scope := by
          rw [Edit.commit]
          simp [located, isRecord, obtain']
        have new : edit.name.scope ∉ origin.occupied := fun is => located (locate_iff.mpr is)
        rw [occupied, Finset.card_insert_of_notMem new, Finset.sum_insert new, same.1, same.2,
          accounts.scopes, accounts.directory]
        exact ⟨rfl, Nat.add_comm _ _⟩
  | none =>
      have occupied := occupied_none (isRecord ▸ finds)
      by_cases located : origin.locate edit.name.scope = true
      · have isMember := locate_iff.mp located
        by_cases stays : (edit.commit origin).locate edit.name.scope = true
        · rw [if_pos stays] at occupied
          have same : (edit.commit origin).scopeCount = origin.scopeCount
              ∧ (edit.commit origin).directory = origin.directory := by
            rw [Edit.commit]
            simp only [located, Bool.not_true, Bool.false_eq_true, and_false, if_false, if_true]
            rw [prune, if_pos]
            · exact ⟨rfl, rfl⟩
            · rw [(published _ rfl).2]
              exact stays
          rw [occupied, same.1, same.2]
          exact ⟨accounts.scopes, accounts.directory⟩
        · rw [if_neg stays] at occupied
          have same : (edit.commit origin).scopeCount = origin.scopeCount - 1
              ∧ (edit.commit origin).directory = origin.directory - directoryOf edit.name.scope := by
            rw [Edit.commit]
            simp only [located, Bool.not_true, Bool.false_eq_true, and_false, if_false, if_true]
            rw [prune, if_neg]
            · exact ⟨rfl, rfl⟩
            · rw [(published _ rfl).2]
              exact stays
          have sum := Finset.add_sum_erase origin.occupied directoryOf isMember
          rw [occupied, Finset.card_erase_of_mem isMember, same.1, same.2, accounts.scopes,
            accounts.directory]
          omega
      · have same : (edit.commit origin).scopeCount = origin.scopeCount
            ∧ (edit.commit origin).directory = origin.directory := by
          rw [Edit.commit]
          simp [located, isRecord]
        have absent : edit.name.scope ∉ origin.occupied := fun is => located (locate_iff.mpr is)
        have stays : (edit.commit origin).occupied = origin.occupied := by
          rw [occupied]
          split
          · rfl
          · exact Finset.erase_eq_of_notMem absent
        rw [stays, same.1, same.2]
        exact ⟨accounts.scopes, accounts.directory⟩

theorem find_commit (origin : Origin Item) (edit : Edit Item)
    : (edit.commit origin).find = Function.update origin.find edit.name edit.record := by
  funext other
  rw [find, (edit.published origin).entries, Assoc.get?_amend, Function.update_apply]
  rfl

theorem bytes_commit (origin : Origin Item) (edit : Edit Item)
    : (edit.commit origin).bytes = edit.bytes := by
  simp only [Edit.commit, prune]
  repeat' split
  all_goals rfl

theorem backlog_commit (origin : Origin Item) (edit : Edit Item)
    : (edit.commit origin).backlog = origin.backlog + edit.queued.elim 0 Event.bytes
        - (((origin.history ++ edit.queued.toList).take edit.evicted).map Event.bytes).sum := by
  simp only [Edit.commit, prune]
  repeat' split
  all_goals rfl

/-- A committed change keeps the totals. -/
theorem Accounts.commit {before after : Nat} (accounts : origin.Accounts traits)
    (prepared : Prepared traits origin name record now edit before after)
    : (edit.commit origin).Accounts traits := by
  have finds := find_commit origin edit
  have published := edit.published origin
  obtain ⟨scopes, directory⟩ := scopes_commit accounts finds
  have staged : origin.backlog + edit.queued.elim 0 Event.bytes
      = ((origin.history ++ edit.queued.toList).map Event.bytes).sum := by
    rw [List.map_append, List.sum_append, accounts.backlog]
    cases edit.queued <;> simp
  refine ⟨?_, ?_, scopes, directory, ?_⟩
  · intro other item found
    rw [finds, Function.update_apply, prepared.isName, prepared.isRecord] at found
    split at found
    next same =>
      have isAfter := prepared.isAfter
      rw [found] at isAfter
      rw [same, show Scene.weight traits.toMeasure name.key item = some after from isAfter]
      rfl
    · exact accounts.whole other item found
  · rw [bytes_commit, published.entries, prepared.isName, prepared.isRecord, prepared.bytes]
    exact (weight_amend prepared.isBefore prepared.isAfter accounts.bytes).2.symm
  · rw [backlog_commit, published.history, prepared.evicted]
    exact (evicted_spec origin.limits now _ staged).2.2.2

/-- A committed change exceeds no bound. -/
theorem Bounded.commit {before after : Nat} (bounded : origin.Bounded)
    (accounts : origin.Accounts traits)
    (prepared : Prepared traits origin name record now edit before after)
    : (edit.commit origin).Bounded := by
  have published := edit.published origin
  have next := accounts.commit prepared
  have finds := find_commit origin edit
  have staged : origin.backlog + edit.queued.elim 0 Event.bytes
      = ((origin.history ++ edit.queued.toList).map Event.bytes).sum := by
    rw [List.map_append, List.sum_append, accounts.backlog]
    cases edit.queued <;> simp
  have eviction := evicted_spec origin.limits now _ staged
  rw [← prepared.evicted] at eviction
  have directory := prepared.directory
  have counts : (edit.commit origin).scopeCount ≤ origin.limits.scopes
      ∧ (edit.commit origin).directory ≤ origin.directory + origin.extraOf name record := by
    rw [next.scopes, next.directory]
    cases isRecord : record with
    | none =>
        have occupied := occupied_none (prepared.isRecord.trans isRecord ▸ finds)
        have inside : (edit.commit origin).occupied ⊆ origin.occupied := by
          rw [occupied]
          split
          · exact Finset.Subset.refl _
          · exact Finset.erase_subset _ _
        have count := Finset.card_le_card inside
        have sum := Finset.sum_le_sum_of_subset (f := directoryOf) inside
        rw [← accounts.scopes] at count
        rw [← accounts.directory] at sum
        exact ⟨count.trans bounded.scopes, sum.trans (Nat.le_add_right _ _)⟩
    | some item =>
        have occupied := occupied_some (prepared.isRecord.trans isRecord ▸ finds)
        rw [prepared.isName] at occupied
        by_cases located : origin.locate name.scope = true
        · rw [occupied, Finset.insert_eq_of_mem (locate_iff.mp located), ← accounts.scopes,
            ← accounts.directory]
          exact ⟨bounded.scopes, Nat.le_add_right _ _⟩
        · have new : name.scope ∉ origin.occupied := fun is => located (locate_iff.mpr is)
          have room := prepared.opens (isRecord ▸ rfl) (by simpa using located)
          rw [occupied, Finset.card_insert_of_notMem new, Finset.sum_insert new, ← accounts.scopes,
            ← accounts.directory]
          have within := bounded.scopes
          refine ⟨by omega, ?_⟩
          simp [extraOf, located, Nat.add_comm]
  refine ⟨?_, published.limits ▸ counts.1, ?_, ?_, ?_⟩
  · rw [published.entries, published.limits, prepared.isName, prepared.isRecord]
    cases isRecord : record with
    | none =>
        have inside : ∀ other ∈ (origin.entries.remove name).keys, other ∈ origin.entries.keys := by
          intro other listed
          rw [Assoc.mem_keys] at listed ⊢
          obtain ⟨item, found⟩ := listed
          rw [Assoc.get?_remove] at found
          split at found
          · cases found
          · exact ⟨item, found⟩
        have fewer := Assoc.size_le_length inside
        rw [show origin.entries.keys.length = origin.entries.size by simp [Assoc.keys, Assoc.size]]
          at fewer
        exact fewer.trans bounded.records
    | some item =>
        rw [Assoc.amend]
        cases found : origin.entries.get? name with
        | none =>
            have room := prepared.room (isRecord ▸ rfl) found
            have within := bounded.records
            rw [Assoc.size_set_of_none found]
            omega
        | some old =>
            rw [Assoc.size_set_of_some found]
            exact bounded.records
  · rw [bytes_commit, published.limits]
    omega
  · rw [published.history, published.limits]
    exact eviction.2.1
  · rw [next.backlog, published.history, published.limits]
    exact eviction.2.2.1

end Astra.Origin
