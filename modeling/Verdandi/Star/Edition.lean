import Verdandi.Star.Almanac
import Verdandi.Star.Paging
import Verdandi.Support.Copy
import Verdandi.Support.Runs

/-! A frozen Almanac batch and its pages: a whole view, one point, or the changes up to a
version with one final row for each key.
-/

namespace Astra

open Support Proto Paging

namespace Edition

inductive Data where
  | none
  | view (entries : List (Bytes × Bytes))
  | point (key : Bytes) (value : Option Bytes)
  | changes (items : List Almanac.Change)

/-- The rows of a batch: a missing value is an erase. A point without a value has no row. -/
def Data.rows : Data → List (Bytes × Option Bytes)
  | .none => []
  | .view entries => entries.map fun entry => (entry.1, some entry.2)
  | .point _ .none => []
  | .point key (some value) => [(key, some value)]
  | .changes items => items.map fun change => (change.name, change.value)

end Edition

structure Edition where
  data : Edition.Data := .none
  mode : Mode := .reset
  version : Nat := 0
  offset : Nat := 0
  bytes : Nat := 0
  complete : Bool := false

namespace Edition

-- Construction and paging

def ofView (view : Almanac.State) : Edition where
  data := .view view.entries.toPairs
  version := view.version
  bytes := view.bytes

def ofPoint (key : Bytes) (version : Nat) (value : Option Bytes) : Edition where
  data := .point key value
  version := version
  bytes := value.elim 0 fun present => key.length + present.length

def baseline (view : Almanac.State) (target : Bytes) : Edition :=
  if target.isEmpty then
    ofView view
  else
    ofPoint target view.version (view.entries.get? target)

/-- One change for each key: of equal keys the last one in version order stays. -/
def compress (changes : List Almanac.Change) : List Almanac.Change :=
  Support.compress Bytes.rank Almanac.Change.name Almanac.Change.version
    (fun _ latest => latest) changes

/-- Freeze the changes up to `version`, restricted to a target if there is one. `capacity` is
that of the vector of changes, whose unused tail is charged as well.
-/
def ofReplay (version : Nat) (changes : List Almanac.Change) (target : Bytes) (capacity : Nat)
    : Edition :=
  if target ≠ [] then
    match changes.reverse.find? (·.name = target) with
    | none => { mode := .apply, version }
    | some last => { mode := .apply, version, data := .changes [last], bytes := last.bytes }
  else
    let kept := compress changes
    { mode := .apply, version, data := .changes kept
      bytes := (kept.map Almanac.Change.bytes).sum
        + (capacity - kept.length) * Almanac.Change.overhead }

def encode (row : Bytes × Option Bytes) : AlmanacChange where
  key := row.1
  action := row.2.elim .erase .value

def format : Format (Bytes × Option Bytes) AlmanacChange where
  key := Prod.fst
  payload row := (row.2.getD []).length
  refusal _ := none
  overhead := 32
  encode := encode
  excess := "Almanac record exceeds message budget"
  completed := "Almanac edition already completed"
  unserved := "Invalid Almanac serving instance"

/-- The batch as its pages see it; a page visits at most 256 rows of a view. -/
def batch (edition : Edition) : Batch (Bytes × Option Bytes) where
  rows := edition.data.rows
  window := match edition.data with
    | .view _ => some 256
    | _ => none
  mode := edition.mode
  version := edition.version
  offset := edition.offset
  complete := edition.complete

def next (edition : Edition) (serving : Bytes) : Except String (Edition × AlmanacWatchReply) :=
  match edition.batch.next format serving with
  | .error message => .error message
  | .ok (after, page) =>
      .ok ({ edition with offset := after.offset, complete := after.complete }, page)

-- Rows

/-- The effect of an Almanac row: its value, whatever the key had. -/
def act (row : Option Bytes) (_ : Option Bytes) : Option Bytes := row

def remaining (edition : Edition) : List (Bytes × Option Bytes) :=
  edition.data.rows.drop edition.offset

/-- A page's rows are the first of those that remained; the batch is complete exactly when
none is left, and only then the page names the version.
-/
structure Paged (edition after : Edition) (page : AlmanacWatchReply) : Prop where
  open' : edition.complete = false
  rows
    : edition.remaining
      = page.changes.map (fun change => (change.key, change.payload)) ++ after.remaining
  data : after.data = edition.data
  mode : after.mode = edition.mode ∧ page.mode = edition.mode
  version : after.version = edition.version
  finished : after.complete = page.complete
  exhausted : page.complete = true → after.remaining = []
  named : page.version = if page.complete then some edition.version else none

@[simp]
theorem decode_encode (row : Bytes × Option Bytes)
    : ((encode row).key, (encode row).payload) = row := by
  obtain ⟨key, value⟩ := row
  cases value <;> rfl

theorem next_paged {edition after : Edition} {serving : Bytes} {page : AlmanacWatchReply}
    (produced : edition.next serving = .ok (after, page))
    : Paged edition after page := by
  unfold next at produced
  split at produced
  · cases produced
  rename_i batch reply made
  cases produced
  have paged := Batch.next_paged made
  obtain ⟨taken, rows, changes, _⟩ := paged.rows
  have decoded : page.changes.map (fun change => (change.key, change.payload)) = taken := by
    rw [changes, List.map_map]
    exact (List.map_congr_left fun row _ => decode_encode row).trans (List.map_id taken)
  have same : batch.remaining = edition.data.rows.drop batch.offset := by
    rw [Batch.remaining, paged.frozen.1]
    rfl
  exact {
    open' := paged.open'
    rows := by
      rw [decoded]
      exact rows.trans (congrArg (taken ++ ·) same)
    data := rfl
    mode := ⟨rfl, paged.mode⟩
    version := rfl
    finished := paged.finished
    exhausted := fun last => same.symm.trans (paged.exhausted last)
    named := paged.version
  }

-- The rows of a replay

/-- A whole view has one row for each record. -/
theorem ofView_listed (view : Almanac.State)
    : Listed (ofView view).data.rows
        fun key => (restrict (concerns []) view.entries.get? key).map some :=
  view.entries.listed some

variable {target : Bytes}

/-- A point has the row of its record. -/
theorem ofPoint_listed (precise : target ≠ []) (version : Nat) (content : Bytes → Option Bytes)
    : Listed (ofPoint target version (content target)).data.rows
        fun key => (restrict (concerns target) content key).map some := by
  have rows : (ofPoint target version (content target)).data.rows
      = (content target).toList.map fun value => (target, some value) := by
    unfold ofPoint
    cases content target <;> rfl
  rw [rows]
  exact .point (fun _ => concerns_iff precise) content some

theorem baseline_listed (view : Almanac.State) (target : Bytes)
    : Listed (baseline view target).data.rows
        fun key => (restrict (concerns target) view.entries.get? key).map some := by
  unfold baseline
  split
  next whole =>
    rw [List.isEmpty_iff.mp whole]
    exact ofView_listed view
  next precise => exact ofPoint_listed (by simpa using precise) view.version view.entries.get?

theorem frozen_baseline (view : Almanac.State) (target : Bytes)
    : (baseline view target).batch.Frozen .reset view.version := by
  unfold baseline
  split
  · refine ⟨rfl, rfl, ⟨rfl, rfl⟩, fun bound same => ?_⟩
    cases same
    decide
  · exact ⟨rfl, rfl, ⟨rfl, rfl⟩, (by intros; contradiction)⟩

theorem frozen_ofReplay (version : Nat) (changes : List Almanac.Change) (target : Bytes)
    (capacity : Nat)
    : (ofReplay version changes target capacity).batch.Frozen .apply version := by
  unfold ofReplay
  split
  · split
    · exact ⟨rfl, rfl, ⟨rfl, rfl⟩, nofun⟩
    · exact ⟨rfl, rfl, ⟨rfl, rfl⟩, nofun⟩
  · exact ⟨rfl, rfl, ⟨rfl, rfl⟩, nofun⟩

def Ordered (changes : List Almanac.Change) : Prop :=
  ∀ key, (changes.filter (·.name = key)).Pairwise fun left right => left.version < right.version

def final (changes : List Almanac.Change) : Bytes → Option Almanac.Change :=
  merged Almanac.Change.name (fun _ latest => latest) changes

private theorem foldl_latest (first : Almanac.Change) (rest : List Almanac.Change)
    : some (rest.foldl (fun _ latest => latest) first) = (first :: rest).getLast? := by
  induction rest generalizing first with
  | nil => rfl
  | cons next rest ih => rw [List.foldl_cons, ih next, List.getLast?_cons_cons]

/-- The final change of a key is the last one of its own. -/
theorem final_eq_find? (changes : List Almanac.Change) (key : Bytes)
    : final changes key = changes.reverse.find? (·.name = key) := by
  rw [← List.head?_filter, List.filter_reverse, List.head?_reverse, final, merged]
  cases changes.filter (·.name = key) with
  | nil => rfl
  | cons first rest => exact foldl_latest first rest

private theorem keepsKey_latest : KeepsKey Almanac.Change.name fun _ latest => latest :=
  fun _ _ same => same

/-- The rows that a replay of `changes` has for `target`: the final value of each key that it
concerns.
-/
def finalRow (changes : List Almanac.Change) (target key : Bytes) : Option (Option Bytes) :=
  if concerns target key then (final changes key).map Almanac.Change.value else none

variable {changes : List Almanac.Change} {key : Bytes}

theorem finalRow_some {value : Option Bytes} (found : finalRow changes target key = some value)
    : concerns target key = true ∧ ∃ change ∈ changes,
          final changes key = some change ∧ change.name = key ∧ change.value = value := by
  unfold finalRow at found
  split at found
  next relevant =>
    obtain ⟨change, last, rfl⟩ := Option.map_eq_some_iff.mp found
    have source := final_eq_find? changes key ▸ last
    exact ⟨relevant, change, List.mem_reverse.mp (List.mem_of_find?_eq_some source), last,
      by simpa using List.find?_some source, rfl⟩
  · cases found

/-- A replay has a row for the keys of the changes that concern the target. -/
theorem mem_finalRow
    : key ∈ (changes.map Almanac.Change.name).filter (concerns target)
      ↔ ∃ value, finalRow changes target key = some value := by
  rw [List.mem_filter, ← merged_isSome Almanac.Change.name fun _ latest => latest,
    Option.isSome_iff_exists]
  constructor
  · rintro ⟨⟨change, last⟩, relevant⟩
    exact ⟨change.value, by rw [finalRow, if_pos relevant, final, last, Option.map_some]⟩
  · rintro ⟨value, found⟩
    obtain ⟨relevant, change, _, last, _⟩ := finalRow_some found
    exact ⟨⟨change, last⟩, relevant⟩

/-- A replay of ordered changes has exactly the final rows. Witness: a single target takes
its last change; the whole Scope takes what compression keeps.
-/
theorem ofReplay_listed {version capacity : Nat} (ordered : Ordered changes)
    : Listed (ofReplay version changes target capacity).data.rows (finalRow changes target) := by
  unfold ofReplay
  split
  next precise =>
    split
    next absent =>
      refine ⟨List.nodup_nil, fun key value => ?_⟩
      simp only [Data.rows, List.not_mem_nil, false_iff, finalRow, concerns_iff precise]
      split
      next same => simp [final_eq_find?, same, absent]
      · simp
    rename_i last found
    have present : last.name = target := by simpa using List.find?_some found
    refine ⟨List.nodup_singleton _, fun key value => ?_⟩
    simp only [Data.rows, present, List.map_cons, List.map_nil, List.mem_singleton,
      Prod.mk.injEq, finalRow, concerns_iff precise]
    constructor
    · rintro ⟨rfl, rfl⟩
      rw [if_pos rfl, final_eq_find?, found, Option.map_some]
    · split
      next same =>
        rw [final_eq_find?, same, found, Option.map_some, Option.some.injEq]
        exact fun equal => ⟨rfl, equal.symm⟩
      · nofun
  rename_i precise
  have whole : target = [] := by simpa using precise
  refine ⟨?_, fun key value => ?_⟩
  · have apart : ((compress changes).map Almanac.Change.name).Nodup :=
      nodup_compress Bytes.rank_injective keepsKey_latest changes
    simpa [Data.rows, Function.comp_def] using apart
  · simp only [Data.rows, List.mem_map, Prod.mk.injEq, finalRow, concerns, whole,
      List.isEmpty_nil, Bool.true_or, if_true, Option.map_eq_some_iff]
    constructor
    · rintro ⟨change, kept, rfl, equal⟩
      exact ⟨change, (mem_compress Bytes.rank_injective keepsKey_latest ordered change).mp kept,
        equal⟩
    · rintro ⟨change, last, equal⟩
      have named : change.name = key := name_merged keepsKey_latest last
      subst named
      exact ⟨change, (mem_compress Bytes.rank_injective keepsKey_latest ordered change).mpr last,
        rfl, equal⟩

end Edition

end Astra
