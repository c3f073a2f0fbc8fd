import Verdandi.Star.OriginAccounts
import Verdandi.Star.OriginLog

/-! The totals of a source through all its runs but those with batches, which an own source refuses. -/

namespace Astra.Origin

open Support

variable {Item : Type} {traits : Traits Item} {origin : Origin Item} {edit : Edit Item} {owned : Bool}
  {name : Name} {record : Option Item} {position : Option Nat} {now : Int} {form : Form}
  {before after : Nat}

/-- The events that leave do not depend on their records. -/
theorem evicted_record {limits : Limits} (history : List (Event Item)) (event : Event Item)
    (backlog : Nat)
    : evicted limits now (history ++ [{ event with record }]) backlog
      = evicted limits now (history ++ [event]) backlog := by
  induction history generalizing backlog with
  | nil => rfl
  | cons oldest rest ih => simp [evicted, ih]

theorem Prepared.revise {revised : Edit Item} {item : Item}
    (prepared : Prepared traits origin name record now edit before after)
    (isRevised : edit.revise traits item = some revised)
    : Prepared traits origin name (some item) now revised before after := by
  unfold Edit.revise at isRevised
  split at isRevised
  · cases isRevised
  rename_i held isHeld
  split at isRevised
  · cases isRevised
  rename_i same
  cases isRevised
  obtain rfl : record = some held := prepared.isRecord.symm.trans isHeld
  have weight : Scene.weight traits.toMeasure name.key item
      = Scene.weight traits.toMeasure name.key held := by
    rw [Scene.weight, Scene.weight, not_not.mp same]
  refine { prepared with
    isRecord := rfl, isAfter := weight.trans prepared.isAfter, evicted := prepared.evicted.trans ?_ }
  cases edit.queued with
  | none => rfl
  | some event => exact (evicted_record _ event _).symm

/-- Revisions keep what was checked. -/
theorem Prepared.revises (prepared : Prepared traits origin name record now edit before after)
    (items : List Item)
    : ∃ record, Prepared traits origin name record now (edit.revises traits items) before after := by
  induction items generalizing edit record with
  | nil => exact ⟨record, prepared⟩
  | cons item rest ih =>
      rw [Edit.revises, List.foldl_cons]
      cases isRevised : edit.revise traits item with
      | none => exact ih prepared
      | some revised => exact ih (prepared.revise isRevised)

structure Totals (traits : Traits Item) (owned : Bool) (origin : Origin Item) : Prop where
  accounts : origin.Accounts traits
  bounded : origin.Bounded
  owned : origin.owned = owned

theorem Totals.empty (owned : Bool) (limits : Limits)
    : Totals traits owned ({ owned, limits } : Origin Item) :=
  ⟨⟨by rintro _ _ ⟨⟩, rfl, rfl, rfl, rfl⟩, ⟨Nat.zero_le _, Nat.zero_le _, Nat.zero_le _,
    Nat.zero_le _, Nat.zero_le _⟩, rfl⟩

theorem Totals.commit (totals : Totals traits owned origin)
    (prepared : Prepared traits origin name record now edit before after)
    : Totals traits owned (edit.commit origin) :=
  ⟨totals.accounts.commit prepared, totals.bounded.commit totals.accounts prepared,
    (edit.published origin).owned.trans totals.owned⟩

/-- A complete state is collected within the bounds. Witness: induction over the rows. -/
theorem Totals.sets {draft last : Draft Item} {rows : List (Name × Item)}
    (totals : Totals traits owned draft.candidate) (collected : draft.sets traits rows now = .ok last)
    : Totals traits owned last.candidate ∧ last.candidate.limits = draft.candidate.limits := by
  induction rows generalizing draft with
  | nil =>
      cases collected
      exact ⟨totals, rfl⟩
  | cons row rest ih =>
      rw [Draft.sets, List.foldlM_cons, Draft.set] at collected
      split at collected
      · cases collected
      split at collected
      · cases collected
      rename_i edit isPrepared
      obtain ⟨_, _, prepared⟩ := prepared_of_prepare isPrepared
      obtain ⟨kept, limits⟩ := ih (totals.commit prepared) collected
      exact ⟨kept, limits.trans (edit.published _).limits⟩

theorem Totals.perform {task : Task Item} (totals : Totals traits owned origin)
    (single : ∀ changes, task = .batch changes → owned = true)
    : Totals traits owned (origin.perform traits task).1 := by
  cases task with
  | edit name record position now form revisions =>
      unfold Origin.perform
      dsimp only
      split
      · exact totals
      rename_i isPrepared
      obtain ⟨_, _, prepared⟩ := prepared_of_prepare isPrepared
      obtain ⟨_, prepared⟩ := prepared.revises revisions
      exact totals.commit prepared
  | batch changes =>
      have refused : Batch.prepare origin = none := if_pos (totals.owned.trans (single changes rfl))
      simpa only [Origin.perform, refused] using totals
  | confirm position =>
      unfold Origin.perform Origin.confirm
      dsimp only
      split
      · exact totals
      · exact { totals with accounts := { totals.accounts with }, bounded := { totals.bounded with } }
  | reset position rows now =>
      unfold Origin.perform
      dsimp only
      split
      · exact totals
      rename_i draft collected
      obtain ⟨⟨accounts, bounded, _⟩, limits⟩ := Totals.sets (.empty _ _) collected
      unfold Origin.reset
      cases origin.validate draft with
      | error => exact totals
      | ok => exact ⟨{ accounts with }, ⟨limits ▸ bounded.records, limits ▸ bounded.scopes,
          limits ▸ bounded.bytes, limits ▸ bounded.history, limits ▸ bounded.backlog⟩, totals.owned⟩

/-- In every run of revised changes, confirmations and complete states, also refused ones, the totals
of a source are those of its records, Scopes and events, and no bound is exceeded. An own source may
also be given batches.
-/
theorem totals_law {tasks : List (Task Item)} {limits : Limits}
    (single : ∀ changes, .batch changes ∈ tasks → owned = true)
    : ((({ owned, limits } : Origin Item).performs traits tasks).1).Accounts traits
      ∧ ((({ owned, limits } : Origin Item).performs traits tasks).1).Bounded := by
  suffices Totals traits owned (({ owned, limits } : Origin Item).performs traits tasks).1 from
    ⟨this.accounts, this.bounded⟩
  induction tasks using List.reverseRecOn with
  | nil => exact .empty owned limits
  | append_singleton before last ih =>
      rw [performs, List.foldl_append]
      refine (ih fun changes listed => single changes (List.mem_append_left _ listed)).perform
        fun changes isBatch => single changes ?_
      exact List.mem_append_right _ (List.mem_singleton.mpr isBatch.symm)

/-- A record is published, and a batch is refused. -/
theorem totals_law_published
    : (({ owned := true, limits := {} } : Origin Bytes).performs plain
        [.edit ⟨⟨[97], [98]⟩, [99]⟩ (some [1]) (some 1) 0 .record [[1]], .batch []]).1.Bounded :=
  (totals_law fun _ _ => rfl).2

end Astra.Origin
