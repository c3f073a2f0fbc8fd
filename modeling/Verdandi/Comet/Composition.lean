import Verdandi.Comet.Feeding

/-! The pages that a Star makes of a batch, fed to the view of a client. -/

namespace Comet

open Astra Support Proto Paging

variable {E Change Record : Type}

/-- Feeding the pages installs this content, as served by this instance at this version. -/
def Installs (policy : Policy Change Record) (room : Room Record) (start : Installer Record)
    (pages : List (WatchReply Change)) (serving : Bytes) (version : Nat)
    (content : Bytes → Option Record)
    : Prop :=
  ∃ after held, start.feed policy room pages = (after, .ok ()) ∧ after.current = some held
    ∧ held.data.get? = content
    ∧ held.instance = serving
    ∧ held.version = version

/-- The encoder of a Star and the view of a client agree on the good rows of a domain: on
their keys, and on what a page of them weighs.
-/
structure Agree (format : Format (Bytes × E) Change) (policy : Policy Change Record)
    (size : Change → Nat) (good : Bytes × E → Prop)
    : Prop where
  measured : policy.size = Wire.page size
  key : ∀ row, policy.key (format.encode row) = row.1
  valid : ∀ row, good row → policy.valid row.1 = true
  light : ∀ row, good row → format.Light row
  wire : ∀ row, good row → Wire.field (size (format.encode row)) ≤ format.cost row

section

variable {format : Format (Bytes × E) Change} {policy : Policy Change Record}
  {size : Change → Nat} {good : Bytes × E → Prop} {room : Room Record}
  {start : Installer Record} {batch : Batch (Bytes × E)} {serving : Bytes}
  {base goal : Assoc Bytes Record}

variable {rows : List (Bytes × E)}

/-- A page within the budget of the encoder is within that of the client. -/
theorem Agree.size_le (agree : Agree format policy size good)
    (all : ∀ row ∈ rows, good row) {page : WatchReply Change}
    (bounded : format.Bounded serving rows page) (short : serving.length ≤ 128) {version : Nat}
    (word : version ≤ maxWord)
    (named : (page.version = none ∧ page.instance = [])
      ∨ (page.version = some version ∧ page.instance = serving))
    : policy.size page ≤ 8 * 1024 * 1024 := by
  obtain ⟨taken, inside, changes, budget⟩ := bounded
  have rows : (page.changes.map fun change => Wire.field (size change)).sum
      ≤ (taken.map format.cost).sum := by
    rw [changes, List.map_map]
    exact List.sum_le_sum fun row member => agree.wire row (all row (inside row member))
  have known : ∀ value, page.version = some value → value ≤ maxWord := by
    rintro value found
    rcases named with ⟨none, _⟩ | ⟨same, _⟩
    · rw [none] at found
      cases found
    · rw [same] at found
      cases found
      exact word
  have shorter : page.instance.length ≤ serving.length := by
    rcases named with ⟨_, none⟩ | ⟨_, same⟩
    · simp [none]
    · rw [same]
  have weighed : Wire.page size page ≤ _ := Wire.page_le known (by omega)
  rw [agree.measured]
  simp only [hard] at budget
  omega

/-- The pages of a batch of good rows can be made, and the client installs the content they
lead to exactly if it can remember as many keys as the batch has rows.
-/
theorem composed (agree : Agree format policy size good)
    (fresh : batch.offset = 0 ∧ batch.complete = false)
    (window : ∀ bound, batch.window = some bound → 0 < bound)
    (all : ∀ row ∈ batch.rows, good row) (word : batch.version ≤ maxWord)
    (leading : Leading policy start batch.mode (start.base batch.mode) goal
      (batch.rows.map format.encode))
    (admits : Admits policy start batch.mode batch.version serving (batch.rows.map format.encode))
    (clean : start.draft = none ∧ start.seen = [])
    (roomy : Roomy room (start.base batch.mode) goal (batch.rows.map Prod.fst))
    (empty : batch.version = 0 → goal.size = 0) (positive : 0 < start.records)
    : ∃ pages, batch.pages format serving (batch.rows.length + 1) = .ok pages
        ∧ (Installs policy room start pages serving batch.version goal.get?
          ↔ batch.rows.length ≤ start.records * 2) := by
  have served := Scope.text_bounds admits.served.1
  have remaining : batch.remaining = batch.rows := by
    rw [Batch.remaining, fresh.1, List.drop_zero]
  obtain ⟨pages, made, batched, bounded⟩ := Batch.pages_light
    (fun row member => agree.light row (all row (remaining ▸ member))) fresh.2 served window
    (by rw [fresh.1]; exact Nat.zero_le _)
    (show batch.remaining.length < batch.rows.length + 1 by rw [remaining]; omega)
  rw [remaining] at batched
  have sizes : ∀ page ∈ pages, policy.size page ≤ 8 * 1024 * 1024 := fun page member =>
    agree.size_le all (bounded page member) served.2 word (batched.named member)
  have keys : (batch.rows.map format.encode).map policy.key = batch.rows.map Prod.fst := by
    rw [List.map_map]
    exact List.map_congr_left fun row _ => agree.key row
  rw [← keys] at roomy
  have stands := stands_start admits clean
  have nothing : Progress policy (start.base batch.mode) goal []
      { draft := start.base batch.mode, seen := [] } :=
    ⟨.nil _ _, rfl⟩
  refine ⟨pages, made, ?_, fun few => ?_⟩
  · rintro ⟨after, held, fed, _⟩
    by_cases several : 2 ≤ batch.rows.length
    · have tracked := feed_tracked batched fed stands (Nat.zero_le _)
        (by rw [List.length_nil, List.length_map]; omega)
      rw [List.length_nil, List.length_map] at tracked
      omega
    · omega
  · obtain ⟨data, fed, reached⟩ := feed_pages batched
      (show Leading policy start batch.mode _ goal ([] ++ batch.rows.map format.encode)
        from leading)
      admits roomy stands nothing sizes
      (by rw [List.nil_append, List.length_map]; exact few) empty
    exact ⟨_, _, fed, rfl, reached, rfl, rfl⟩

/-- A list of rows that gives every key it names the record of `goal` leads there. -/
theorem leading_of_listed (agree : Agree format policy size good)
    {row? : Bytes → Option E} (listed : Listed rows row?) (all : ∀ row ∈ rows, good row)
    {mode : Mode}
    (relevant : ∀ key row, row? key = some row → concerns start.target key = true)
    (installs : ∀ key row, row? key = some row
      → policy.install mode (start.current.bind (·.data.get? key)) (format.encode (key, row))
        = .ok (goal.get? key))
    (rest : ∀ key, row? key = none → goal.get? key = base.get? key)
    (records : base.size ≤ start.records ∧ goal.size ≤ start.records)
    (bytes : weigh policy base ≤ start.bytes ∧ weigh policy goal ≤ start.bytes)
    : Leading policy start mode base goal (rows.map format.encode) := by
  have keys : (rows.map format.encode).map policy.key = rows.map Prod.fst := by
    rw [List.map_map]
    exact List.map_congr_left fun row _ => agree.key row
  have found {row : Bytes × E} (member : row ∈ rows) : row? row.1 = some row.2 :=
    (listed.exact row.1 row.2).mp member
  constructor
  · rw [keys]
    exact listed.distinct
  · intro change member
    obtain ⟨row, inside, rfl⟩ := List.mem_map.mp member
    rw [agree.key]
    exact agree.valid row (all row inside)
  · intro change member
    obtain ⟨row, inside, rfl⟩ := List.mem_map.mp member
    have concerned := relevant row.1 row.2 (found inside)
    rw [agree.key]
    simp only [concerns, Bool.or_eq_true, beq_iff_eq] at concerned
    rcases concerned with whole | same
    · simp [whole]
    · simp [same]
  · intro change member
    obtain ⟨row, inside, rfl⟩ := List.mem_map.mp member
    rw [agree.key]
    exact installs row.1 row.2 (found inside)
  · intro key absent
    rw [keys, listed.mem_keys] at absent
    exact rest key (Option.eq_none_iff_forall_ne_some.mpr fun row same => absent ⟨row, same⟩)
  · exact records
  · exact bytes

end

/-- There are as many rows as names that have one. -/
theorem length_of_listed {rows : List (Bytes × E)} {row? : Bytes → Option E}
    (listed : Listed rows row?) {names : List Bytes}
    (named : ∀ key, key ∈ names ↔ ∃ row, row? key = some row)
    : rows.length = names.dedup.length := by
  have permuted : (rows.map Prod.fst).Perm names.dedup := by
    rw [List.perm_ext_iff_of_nodup listed.distinct names.nodup_dedup]
    intro key
    rw [List.mem_dedup, named, listed.mem_keys]
  simpa using permuted.length_eq

end Comet
