import Verdandi.Comet.Composition

/-! A view that follows a Star: what it holds before a batch, the limits it needs, and that a
batch whose rows lead to a content installs it.
-/

namespace Comet

open Astra Support Proto Paging

variable {E Change Record : Type}

/-- A view between two batches of a stream that continues where the view stands. -/
structure Holds (start : Installer Record) (serving : Bytes) (version : Nat)
    (base : Assoc Bytes Record)
    : Prop where
  valid : start.valid = true
  clean : start.draft = none ∧ start.seen = []
  resumed : start.fresh = false
  served : Scope.text serving 128 = true ∧ (start.expected = [] ∨ start.expected = serving)
  current : start.current = some { data := base, «instance» := serving, version }

structure Opens (policy : Policy Change Record) (start : Installer Record) (serving : Bytes)
    (version : Nat)
    : Prop where
  valid : start.valid = true
  clean : start.draft = none ∧ start.seen = []
  first : start.first = true
  served : Scope.text serving 128 = true ∧ (start.expected = [] ∨ start.expected = serving)
  order
    : ∀ held, start.current = some held → policy.crossing = true ∨ held.instance = serving
      → held.version ≤ version

/-- The limits of a view are large enough for both contents, and its byte budgets for a
candidate between them together with the keys of a batch.
-/
structure Fits (policy : Policy Change Record) (room : Room Record) (start : Installer Record)
    (base goal : Assoc Bytes Record) (names : List Bytes)
    : Prop where
  positive : 0 < start.records
  records : base.size ≤ start.records ∧ goal.size ≤ start.records
  bytes : weigh policy base ≤ start.bytes ∧ weigh policy goal ≤ start.bytes
  roomy : Roomy room base goal names

theorem Roomy.mono {room : Room Record} {base goal : Assoc Bytes Record}
    {names fewer : List Bytes} (roomy : Roomy room base goal names)
    (inside : ∀ key ∈ fewer, key ∈ names)
    : Roomy room base goal fewer :=
  ⟨fun draft done seen mixed distinct known => roomy.prepared draft done seen mixed distinct
    fun key member => inside key (known key member), roomy.published⟩

section

variable {format : Format (Bytes × E) Change} {policy : Policy Change Record}
  {size : Change → Nat} {good : Bytes × E → Prop} {room : Room Record}
  {start : Installer Record} {batch : Batch (Bytes × E)} {serving : Bytes}
  {version : Nat} {base goal : Assoc Bytes Record} {row? : Bytes → Option E}
  {names : List Bytes}

/-- The changes since what a view holds are installed exactly if the view can remember their
keys.
-/
theorem changes_installed (agree : Agree format policy size good)
    (frozen : batch.Frozen .apply version) (listed : Listed batch.rows row?)
    (all : ∀ row ∈ batch.rows, good row) (word : version ≤ maxWord)
    (empty : version = 0 → goal.size = 0) {since : Nat} (holds : Holds start serving since base)
    (behind : since ≤ version)
    (unmoved : version = since → start.first = true ∧ batch.rows = [])
    (fits : Fits policy room start base goal names)
    (named : ∀ key, key ∈ names.filter (concerns start.target) ↔ ∃ row, row? key = some row)
    (installs : ∀ key row, row? key = some row
      → policy.install .apply (base.get? key) (format.encode (key, row)) = .ok (goal.get? key))
    (rest : ∀ key, row? key = none → goal.get? key = base.get? key)
    : ∃ pages, batch.pages format serving (batch.rows.length + 1) = .ok pages
        ∧ (Installs policy room start pages serving version goal.get?
          ↔ (names.filter (concerns start.target)).dedup.length ≤ start.records * 2) := by
  obtain ⟨apply, rfl, fresh, window⟩ := frozen
  rw [← length_of_listed listed named]
  have relevant : ∀ key row, row? key = some row → concerns start.target key = true :=
    fun key row found => (List.mem_filter.mp ((named key).mpr ⟨row, found⟩)).2
  have base' : start.base batch.mode = base := by
    simp [Installer.base, apply, holds.current]
  have leading : Leading policy start batch.mode base goal (batch.rows.map format.encode) := by
    refine leading_of_listed agree listed all relevant ?_ rest fits.records fits.bytes
    rw [holds.current, apply]
    exact installs
  have admits : Admits policy start batch.mode batch.version serving
      (batch.rows.map format.encode) := by
    refine ⟨holds.valid, .inr ⟨apply, holds.resumed, by rw [holds.current]; rfl⟩, holds.served,
      ?_, ?_⟩
    · intro held current _
      rw [holds.current] at current
      cases current
      exact behind
    · intro _ held current
      rw [holds.current] at current
      cases current
      refine ⟨rfl, fun same => ?_⟩
      obtain ⟨first, none⟩ := unmoved same
      exact ⟨first, by rw [none]; rfl⟩
  have inside : ∀ key ∈ batch.rows.map Prod.fst, key ∈ names := fun key member =>
    (List.mem_filter.mp ((named key).mpr (listed.mem_keys.mp member))).1
  have roomy := fits.roomy.mono inside
  rw [← base'] at leading roomy
  exact composed agree fresh window all word leading admits holds.clean roomy empty fits.positive

/-- A baseline is always installed: it has a row for each record. -/
theorem baseline_installed (agree : Agree format policy size good)
    (frozen : batch.Frozen .reset version) {row : Record → E}
    (listed : Listed batch.rows fun key => (goal.get? key).map row)
    (all : ∀ key record, goal.get? key = some record → good (key, row record))
    (word : version ≤ maxWord) (empty : version = 0 → goal.size = 0)
    (opens : Opens policy start serving version)
    (fits : Fits policy room start ∅ goal goal.keys)
    (relevant : ∀ key record, goal.get? key = some record → concerns start.target key = true)
    (installs : ∀ key record old, goal.get? key = some record
      → policy.install .reset old (format.encode (key, row record)) = .ok (some record))
    : ∃ pages, batch.pages format serving (batch.rows.length + 1) = .ok pages
        ∧ Installs policy room start pages serving version goal.get? := by
  obtain ⟨reset, rfl, fresh, window⟩ := frozen
  have fit : ∀ entry ∈ batch.rows, good entry := by
    rintro ⟨key, e⟩ member
    obtain ⟨record, held, rfl⟩ := Option.map_eq_some_iff.mp ((listed.exact key e).mp member)
    exact all key record held
  have named (key : Bytes) : key ∈ goal.keys ↔ ∃ e, (goal.get? key).map row = some e := by
    rw [Assoc.mem_keys]
    cases goal.get? key <;> simp
  have count : batch.rows.length = goal.size := by
    rw [length_of_listed listed named, goal.nodup_keys.dedup]
    exact List.length_map _
  have base' : start.base batch.mode = ∅ := by simp [Installer.base, reset]
  have leading : Leading policy start batch.mode ∅ goal (batch.rows.map format.encode) := by
    refine leading_of_listed agree listed fit ?_ ?_ ?_ fits.records fits.bytes
    · intro key e found
      obtain ⟨record, held, _⟩ := Option.map_eq_some_iff.mp found
      exact relevant key record held
    · intro key e found
      obtain ⟨record, held, rfl⟩ := Option.map_eq_some_iff.mp found
      rw [reset, held]
      exact installs key record _ held
    · intro key none
      rw [Option.map_eq_none_iff.mp none, Assoc.get?_empty]
  have admits : Admits policy start batch.mode batch.version serving
      (batch.rows.map format.encode) := by
    refine ⟨opens.valid, .inl ⟨reset, opens.first⟩, opens.served, opens.order, ?_⟩
    rw [reset]
    intros; contradiction
  have inside : ∀ key ∈ batch.rows.map Prod.fst, key ∈ goal.keys := fun key member =>
    (named key).mpr (listed.mem_keys.mp member)
  have roomy := fits.roomy.mono inside
  rw [← base'] at leading roomy
  obtain ⟨pages, made, installed⟩ :=
    composed agree fresh window fit word leading admits opens.clean roomy empty fits.positive
  have limit := fits.records.2
  exact ⟨pages, made, installed.mpr (by omega)⟩

end

end Comet
