import Verdandi.Star.OriginAccounts
import Verdandi.Star.Parcel
import Verdandi.Star.Catalog.State
import Verdandi.Star.Ephemeris.State

/-! The reception of one complete state, page by page. What has come is kept privately until the last
page is there; whatever is wrong with a page, all of it is given up.
-/

namespace Astra

open Support
open Origin (Name)

/-- What is particular to a domain: how its records are charged and how they are read. -/
structure Landing.Domain (Item Message : Type) where
  traits : Origin.Traits Item
  /-- `Parcel::record`. -/
  record : Message → Option Item

def Landing.catalog (layout : Catalog.Layout)
    : Landing.Domain Catalog.Record Parcel.CatalogRecord where
  traits := layout.traits
  record := Parcel.CatalogRecord.decode

def Landing.ephemeris (layout : Ephemeris.Layout)
    : Landing.Domain Ephemeris.Record Parcel.EphemerisRecord where
  traits := layout.traits
  record := Parcel.EphemerisRecord.decode

structure Landing.Entry (Message : Type) where
  scope : Scope
  key : Bytes
  record : Option Message

structure Landing.Page (Message : Type) where
  position : Nat
  entries : List (Landing.Entry Message)
  complete : Bool
  bytes : Nat

structure Landing (Item : Type) where
  source : Option (Origin Item) := none
  maximum : Nat := 64 * 1024 * 1024
  draft : Option (Origin.Draft Item) := none
  position : Nat := 0
  received : Nat := 0
  complete : Bool := false

namespace Landing

variable {Item Message : Type}

def forSource (source : Origin Item) (maximum : Nat := 64 * 1024 * 1024) : Option (Landing Item) :=
  if maximum = 0 then none else some { source := some source, maximum }

def ofDraft (draft : Origin.Draft Item) (maximum : Nat := 64 * 1024 * 1024)
    : Option (Landing Item) :=
  if maximum = 0 then none else some { maximum, draft := some draft, position := draft.position }

def clear (landing : Landing Item) : Landing Item :=
  { landing with draft := none, position := 0, received := 0, complete := false }

def reject (landing : Landing Item) (error : Origin.Error)
    : Except Origin.Error Unit × Landing Item :=
  (.error error, landing.clear)

def add (domain : Domain Item Message) (now : Int) (draft : Origin.Draft Item) (entry : Entry Message)
    : Except Origin.Error (Origin.Draft Item) :=
  match Parcel.scope entry.scope, entry.record with
  | some scope, some message =>
      if !Origin.validKey domain.traits.binary entry.key then
        .error .input
      else
        match domain.record message with
        | none => .error .input
        | some record => draft.set domain.traits { scope, key := entry.key } record now
  | _, _ => .error .input

def open_ (landing : Landing Item) (position : Nat) : Option (Origin.Draft Item) :=
  match landing.draft with
  | some draft => some draft
  | none => landing.source.map fun source => source.draft position

def append (domain : Domain Item Message) (landing : Landing Item) (page : Page Message)
    (minimum : Nat) (now : Int)
    : Except Origin.Error Unit × Landing Item :=
  if landing.complete ∨ page.position < minimum
      ∨ (landing.draft.isSome ∧ page.position ≠ landing.position) then
    landing.reject .version
  else if page.entries.length > 256 ∨ page.bytes > 8 * 1024 * 1024
      ∨ page.bytes > landing.maximum - landing.received then
    landing.reject .capacity
  else if (page.complete = false ∧ page.entries = []) ∨ (page.position = 0 ∧ page.entries ≠ []) then
    landing.reject .input
  else
    match landing.open_ page.position with
    | none => landing.reject .input
    | some draft =>
        match page.entries.foldlM (add domain now) draft with
        | .error error => landing.reject error
        | .ok next =>
            (.ok (),
              { landing with
                draft := some next
                position := page.position
                received := landing.received + page.bytes
                complete := page.complete })

def take (landing : Landing Item) (minimum : Nat)
    : Except Origin.Error (Origin.Draft Item) × Landing Item :=
  match landing.draft with
  | some draft =>
      if !landing.complete ∨ landing.position < minimum then
        (.error (if landing.position < minimum then .version else .input), landing.clear)
      else
        (.ok draft, landing.clear)
  | none => (.error (if landing.position < minimum then .version else .input), landing.clear)

-- Complete states

def Entry.row (domain : Domain Item Message) (entry : Entry Message) : Option (Name × Item) :=
  match Parcel.scope entry.scope, entry.record.bind domain.record with
  | some scope, some record =>
      if Origin.validKey domain.traits.binary entry.key then
        some ({ scope, key := entry.key }, record)
      else
        none
  | _, _ => none

def rowsOf (domain : Domain Item Message) (entries : List (Entry Message)) : List (Name × Item) :=
  entries.filterMap (Entry.row domain)

def scopesOf (rows : List (Name × Item)) : Finset Scope := (rows.map (·.1.scope)).toFinset

structure Fits (traits : Origin.Traits Item) (limits : Origin.Limits) (rows : List (Name × Item))
    : Prop where
  distinct : (rows.map Prod.fst).Nodup
  whole : ∀ row ∈ rows, (Scene.weight traits.toMeasure row.1.key row.2).isSome = true
  records : rows.length ≤ limits.records
  scopes : (scopesOf rows).card ≤ limits.scopes
  bytes : (rows.map fun row => Origin.charge traits row.1 row.2).sum
      + ∑ scope ∈ scopesOf rows, Origin.directoryOf scope ≤ limits.bytes

structure Holds (traits : Origin.Traits Item) (limits : Origin.Limits) (draft : Origin.Draft Item)
    (rows : List (Name × Item)) : Prop where
  finds : ∀ name item, draft.candidate.find name = some item ↔ (name, item) ∈ rows
  size : draft.candidate.entries.size = rows.length
  weight : draft.candidate.entries.weight (Origin.charge traits)
    = (rows.map fun row => Origin.charge traits row.1 row.2).sum
  accounts : draft.candidate.Accounts traits
  bounded : draft.candidate.Bounded
  limits : draft.candidate.limits = limits
  distinct : (rows.map Prod.fst).Nodup

section Rows

variable {domain : Domain Item Message} {limits : Origin.Limits} {draft next : Origin.Draft Item}
  {rows : List (Name × Item)} {name : Name} {record : Item} {now : Int}

theorem holds_draft (source : Origin Item) (position : Nat)
    : Holds domain.traits source.limits (source.draft position) [] where
  finds name item := by simp [Origin.draft, Origin.find]
  size := rfl
  weight := rfl
  accounts := ⟨nofun, rfl, rfl, rfl, rfl⟩
  bounded := ⟨Nat.zero_le _, Nat.zero_le _, Nat.zero_le _, Nat.zero_le _, Nat.zero_le _⟩
  limits := rfl
  distinct := .nil

theorem Holds.occupied (holds : Holds domain.traits limits draft rows)
    : draft.candidate.occupied = scopesOf rows := by
  ext scope
  rw [Origin.mem_occupied, scopesOf, List.mem_toFinset, List.mem_map]
  constructor
  · rintro ⟨name, rfl, found⟩
    obtain ⟨item, isItem⟩ := Option.isSome_iff_exists.mp found
    exact ⟨(name, item), (holds.finds _ _).mp isItem, rfl⟩
  · rintro ⟨⟨name, item⟩, listed, rfl⟩
    exact ⟨name, rfl, by rw [(holds.finds _ _).mpr listed]; rfl⟩

/-- What a draft holds is within its bounds. -/
theorem Holds.fits (holds : Holds domain.traits limits draft rows) : Fits domain.traits limits rows where
  distinct := holds.distinct
  whole row listed := holds.accounts.whole row.1 row.2 ((holds.finds _ _).mpr listed)
  records := by
    rw [← holds.size, ← holds.limits]
    exact holds.bounded.records
  scopes := by
    rw [← holds.occupied, ← holds.accounts.scopes, ← holds.limits]
    exact holds.bounded.scopes
  bytes := by
    rw [← holds.weight, ← holds.occupied, ← holds.accounts.bytes, ← holds.accounts.directory,
      ← holds.limits]
    exact holds.bounded.bytes

/-- A name that is not there can be added if the rows are within the bounds with it. -/
theorem Holds.prepare (holds : Holds domain.traits limits draft rows)
    (valid : name.scope.valid = true ∧ Origin.validKey domain.traits.binary name.key = true)
    (fits : Fits domain.traits limits (rows ++ [(name, record)]))
    : draft.candidate.find name = none
      ∧ ∃ edit, draft.candidate.prepare domain.traits name (some record) none now = .ok edit := by
  have missing : draft.candidate.find name = none := by
    rw [Option.eq_none_iff_forall_not_mem]
    intro item found
    have distinct := fits.distinct
    rw [List.map_append, List.nodup_append] at distinct
    exact distinct.2.2 name (List.mem_map_of_mem ((holds.finds _ _).mp found)) name
      (List.mem_singleton_self _) rfl
  obtain ⟨cost, isCost⟩ := Option.isSome_iff_exists.mp
    (fits.whole (name, record) (List.mem_append_right _ (List.mem_singleton_self _)))
  have charged : Origin.charge domain.traits name record = cost := by
    rw [Origin.charge, isCost, Option.getD_some]
  have records := fits.records
  have bytes := fits.bytes
  have scopes := fits.scopes
  have whole : scopesOf (rows ++ [(name, record)]) = insert name.scope (scopesOf rows) := by
    ext scope
    simp [scopesOf]
  simp only [List.length_append, List.length_singleton, List.map_append, List.map_cons, List.map_nil,
    List.sum_append, List.sum_cons, List.sum_nil, charged, whole] at records bytes scopes
  rw [← holds.size] at records
  rw [← holds.weight, ← holds.accounts.bytes] at bytes
  rw [← holds.occupied] at bytes scopes
  rw [← holds.limits] at records bytes scopes
  refine ⟨missing, ?_⟩
  have directory : draft.candidate.directory
      + (if !draft.candidate.locate name.scope then Origin.directoryOf name.scope else 0)
      = ∑ scope ∈ insert name.scope draft.candidate.occupied, Origin.directoryOf scope := by
    by_cases located : draft.candidate.locate name.scope = true
    · rw [Finset.insert_eq_of_mem (Origin.locate_iff.mp located), ← holds.accounts.directory]
      simp [located]
    · have new : name.scope ∉ draft.candidate.occupied :=
        fun is => located (Origin.locate_iff.mpr is)
      rw [Finset.sum_insert new, ← holds.accounts.directory]
      simp [located, Nat.add_comm]
  have count : draft.candidate.locate name.scope = false
      → draft.candidate.scopeCount + 1 ≤ draft.candidate.limits.scopes := by
    intro vacant
    have new : name.scope ∉ draft.candidate.occupied := fun is => by
      rw [Origin.locate_iff.mpr is] at vacant
      cases vacant
    rw [Finset.card_insert_of_notMem new, ← holds.accounts.scopes] at scopes
    exact scopes
  rw [← directory] at bytes
  rw [Origin.prepare, if_neg (by simp [valid]), if_neg (by simp), if_neg (by simp)]
  simp only [missing, Option.elim_none, Option.elim_some, isCost, Option.isSome_some, Bool.true_and,
    Option.isNone_none, true_and, Origin.queue]
  generalize (if (!draft.candidate.locate name.scope) = true then Origin.directoryOf name.scope else 0)
    = extra at bytes ⊢
  rw [if_neg (by omega), if_neg (by omega), if_neg]
  · exact ⟨_, rfl⟩
  · rintro ⟨vacant, full⟩
    have := count (by simpa using vacant)
    omega

/-- A row is added if and only if the rows are within the bounds with it. -/
theorem Holds.set (holds : Holds domain.traits limits draft rows)
    (valid : name.scope.valid = true ∧ Origin.validKey domain.traits.binary name.key = true)
    : ((∃ next, draft.set domain.traits name record now = .ok next)
        ↔ Fits domain.traits limits (rows ++ [(name, record)]))
      ∧ ∀ next, draft.set domain.traits name record now = .ok next
        → Holds domain.traits limits next (rows ++ [(name, record)])
          ∧ next.position = draft.position := by
  have after (next : Origin.Draft Item) (isSet : draft.set domain.traits name record now = .ok next)
      : Holds domain.traits limits next (rows ++ [(name, record)]) ∧ next.position = draft.position := by
    rw [Origin.Draft.set] at isSet
    split at isSet
    · cases isSet
    rename_i missing
    have absent : draft.candidate.find name = none := by simpa using missing
    split at isSet
    · cases isSet
    rename_i edit isPrepared
    cases isSet
    obtain ⟨before, after, prepared⟩ := Origin.prepared_of_prepare isPrepared
    have finds := Origin.find_commit draft.candidate edit
    rw [prepared.isName, prepared.isRecord] at finds
    have entries := (edit.published draft.candidate).entries
    rw [prepared.isName, prepared.isRecord] at entries
    refine ⟨⟨?_, ?_, ?_, holds.accounts.commit prepared, holds.bounded.commit holds.accounts prepared,
      (edit.published _).limits.trans holds.limits, ?_⟩, rfl⟩
    · intro other item
      rw [finds, Function.update_apply, List.mem_append, List.mem_singleton, Prod.mk.injEq]
      split
      next same =>
        subst same
        rw [Option.some.injEq, ← holds.finds, absent]
        simp [eq_comm]
      next different => simp [holds.finds, different]
    · dsimp only
      rw [entries, Assoc.amend, Assoc.size_set_of_none absent, holds.size, List.length_append]
      rfl
    · dsimp only
      rw [entries, Assoc.amend, Assoc.weight_set_of_none absent, holds.weight]
      simp [Nat.add_comm]
    · rw [List.map_append, List.nodup_append]
      refine ⟨holds.distinct, by simp, ?_⟩
      intro other listed last isLast same
      rw [List.map_cons, List.map_nil, List.mem_singleton] at isLast
      obtain ⟨⟨stored, item⟩, isListed, rfl⟩ := List.mem_map.mp listed
      have found := (holds.finds _ _).mpr isListed
      rw [show stored = name from same.trans isLast, absent] at found
      cases found
  refine ⟨⟨?_, ?_⟩, after⟩
  · rintro ⟨next, isSet⟩
    exact (after next isSet).1.fits
  · intro fits
    obtain ⟨missing, edit, prepared⟩ := @Holds.prepare _ _ _ _ _ _ _ _ now holds valid fits
    exact ⟨_, by rw [Origin.Draft.set, if_neg (by simp [missing]), prepared]⟩

theorem Fits.left {traits : Origin.Traits Item} {more : List (Name × Item)}
    (fits : Fits traits limits (rows ++ more))
    : Fits traits limits rows := by
  have inside : scopesOf rows ⊆ scopesOf (rows ++ more) := by
    intro scope
    simp only [scopesOf, List.map_append, List.toFinset_append, Finset.mem_union]
    exact .inl
  have count := Finset.card_le_card inside
  have sum := Finset.sum_le_sum_of_subset (f := Origin.directoryOf) inside
  have records := fits.records
  have scopes := fits.scopes
  have bytes := fits.bytes
  have distinct := fits.distinct
  rw [List.length_append] at records
  rw [List.map_append, List.sum_append] at bytes
  rw [List.map_append, List.nodup_append] at distinct
  exact ⟨distinct.1, fun row listed => fits.whole row (List.mem_append_left _ listed), by omega,
    by omega, by omega⟩

/-- A row that is not well formed is refused, and another is added as its record. -/
theorem add_cases (domain : Domain Item Message) (now : Int) (draft : Origin.Draft Item)
    (entry : Entry Message)
    : (entry.row domain = none ∧ ∃ error, add domain now draft entry = .error error)
      ∨ ∃ name record, entry.row domain = some (name, record)
        ∧ (name.scope.valid = true ∧ Origin.validKey domain.traits.binary name.key = true)
        ∧ add domain now draft entry = draft.set domain.traits name record now := by
  rw [Entry.row, add]
  cases isScope : Parcel.scope entry.scope with
  | none => exact .inl ⟨rfl, _, rfl⟩
  | some scope =>
      have valid : scope.valid = true := by
        rw [Parcel.scope] at isScope
        split at isScope
        next valid =>
          cases isScope
          exact valid
        · cases isScope
      cases entry.record with
      | none => exact .inl ⟨rfl, _, rfl⟩
      | some message =>
          simp only [Option.bind_some]
          cases isKey : Origin.validKey domain.traits.binary entry.key with
          | false =>
              refine .inl ⟨?_, _, rfl⟩
              split <;> simp_all
          | true =>
              cases isRecord : domain.record message with
              | none => exact .inl ⟨rfl, _, rfl⟩
              | some record => exact .inr ⟨_, record, rfl, ⟨valid, isKey⟩, rfl⟩

/-- Rows are added one after the other. Witness: induction over the rows. -/
theorem Holds.adds {entries : List (Entry Message)} (holds : Holds domain.traits limits draft rows)
    : ((∃ next, entries.foldlM (add domain now) draft = .ok next)
        ↔ (∀ entry ∈ entries, (entry.row domain).isSome = true)
          ∧ Fits domain.traits limits (rows ++ rowsOf domain entries))
      ∧ ∀ next, entries.foldlM (add domain now) draft = .ok next
        → Holds domain.traits limits next (rows ++ rowsOf domain entries)
          ∧ next.position = draft.position := by
  induction entries generalizing draft rows with
  | nil =>
      simp only [List.foldlM_nil, rowsOf, List.filterMap_nil, List.append_nil]
      refine ⟨⟨fun _ => ⟨nofun, holds.fits⟩, fun _ => ⟨draft, rfl⟩⟩, ?_⟩
      intro next same
      cases same
      exact ⟨holds, rfl⟩
  | cons entry rest ih =>
      rw [List.foldlM_cons]
      rcases add_cases domain now draft entry with ⟨isRow, error, isAdd⟩ | ⟨name, record, isRow, valid, isAdd⟩
      · rw [isAdd]
        refine ⟨⟨nofun, fun formed => ?_⟩, nofun⟩
        have isSome := formed.1 entry List.mem_cons_self
        rw [isRow] at isSome
        cases isSome
      · have isRows : rows ++ rowsOf domain (entry :: rest)
            = (rows ++ [(name, record)]) ++ rowsOf domain rest := by
          simp [rowsOf, isRow]
        obtain ⟨accepted, after⟩ := @Holds.set _ _ _ _ _ _ _ record now holds valid
        rw [isAdd, isRows]
        cases isSet : draft.set domain.traits name record now with
        | error error =>
            refine ⟨⟨nofun, fun formed => ?_⟩, nofun⟩
            obtain ⟨next, isNext⟩ := accepted.mpr formed.2.left
            rw [isSet] at isNext
            cases isNext
        | ok middle =>
            obtain ⟨holdsMiddle, position⟩ := after middle isSet
            obtain ⟨whole, ends⟩ := ih holdsMiddle
            refine ⟨?_, fun next isNext => ?_⟩
            · refine Iff.trans whole (and_congr_left fun _ => ?_)
              simp [isRow]
            · obtain ⟨holdsNext, positionNext⟩ := ends next isNext
              exact ⟨holdsNext, positionNext.trans position⟩

end Rows

end Landing

end Astra
