import Verdandi.Common.Proto

/-! How a frozen batch is cut into pages: a soft target that closes a page before the next
row, and a hard bound that refuses a row outright.
-/

namespace Astra.Paging

open Proto

def hard : Nat := 8 * 1024 * 1024

def soft : Nat := 256 * 1024

/-- Whether a batch for this target is concerned with a key; the empty target is the whole
Scope.
-/
def concerns (target key : Bytes) : Bool :=
  target.isEmpty || target == key

theorem concerns_iff {target key : Bytes} (precise : target ≠ [])
    : concerns target key = true ↔ key = target := by
  simp only [concerns, Bool.or_eq_true, List.isEmpty_iff, precise, false_or, beq_iff_eq]
  exact eq_comm

/-- What differs between the domains: the key and the payload length of a row, the reason why
a row may not be sent at all, the flat charge beside key and payload, the message of a row,
and the texts of the failures.
-/
structure Format (Row Change : Type) where
  key : Row → Bytes
  payload : Row → Nat
  refusal : Row → Option String
  overhead : Nat
  encode : Row → Change
  excess : String
  completed : String
  unserved : String

/-- A frozen batch and the position of its next page. A page looks at no more than `window`
rows, if there is such a bound.
-/
structure Batch (Row : Type) where
  rows : List Row
  window : Option Nat := none
  mode : Mode
  version : Nat
  offset : Nat := 0
  complete : Bool := false

variable {Row Change : Type}

structure Batch.Frozen (batch : Batch Row) (mode : Mode) (version : Nat) : Prop where
  mode : batch.mode = mode
  version : batch.version = version
  fresh : batch.offset = 0 ∧ batch.complete = false
  window : ∀ bound, batch.window = some bound → 0 < bound

def Format.cost (format : Format Row Change) (row : Row) : Nat :=
  (format.key row).length + format.payload row + format.overhead

/-- Price one row on a page that holds `count` rows in `bytes` bytes. A row that can never be
sent is an error; `none` closes the page before the row; otherwise the page grows to the size
returned.
-/
def Format.append (format : Format Row Change) (count bytes : Nat) (row : Row)
    : Except String (Option Nat) :=
  match format.refusal row with
  | some message => .error message
  | none =>
      let cost := format.cost row
      if (format.key row).length > hard ∨ format.payload row > hard then
        .error format.excess
      else if bytes ≥ hard ∨ cost > hard - bytes then
        .error format.excess
      else if count ≠ 0 ∧ (count ≥ 256 ∨ cost > soft - min bytes soft) then
        .ok none
      else
        .ok (some (bytes + cost))

def Format.fill (format : Format Row Change) : Nat → Nat → List Row → Except String (List Row)
  | _, _, [] => .ok []
  | count, bytes, row :: rest =>
      match format.append count bytes row with
      | .error message => .error message
      | .ok none => .ok []
      | .ok (some grown) =>
          match format.fill (count + 1) grown rest with
          | .error message => .error message
          | .ok taken => .ok (row :: taken)

def Batch.remaining (batch : Batch Row) : List Row :=
  batch.rows.drop batch.offset

def Batch.visible (batch : Batch Row) : List Row :=
  batch.window.elim batch.remaining batch.remaining.take

def Batch.next (format : Format Row Change) (batch : Batch Row) (serving : Bytes)
    : Except String (Batch Row × WatchReply Change) :=
  if batch.complete then
    .error format.completed
  else if serving.isEmpty || serving.length > 128 then
    .error format.unserved
  else
    match format.fill 0 (serving.length + 64) batch.visible with
    | .error message => .error message
    | .ok taken =>
        let offset := batch.offset + taken.length
        let finished := decide (offset = batch.rows.length)
        .ok ({ batch with offset, complete := finished },
          { mode := batch.mode
            changes := taken.map format.encode
            complete := finished
            version := if finished then some batch.version else none
            «instance» := if finished then serving else [] })

/-- All pages that remain, in at most `rounds` of them. -/
def Batch.pages (format : Format Row Change) (serving : Bytes)
    : Nat → Batch Row → Except String (List (WatchReply Change))
  | 0, _ => .ok []
  | rounds + 1, batch =>
      if batch.complete then
        .ok []
      else
        match batch.next format serving with
        | .error message => .error message
        | .ok (after, page) =>
            match after.pages format serving rounds with
            | .error message => .error message
            | .ok rest => .ok (page :: rest)

-- One page

variable {format : Format Row Change} {count bytes : Nat} {rows : List Row}

/-- A page takes the first of the rows it is offered. Witness: induction over the rows. -/
theorem Format.fill_prefix {taken : List Row} (filled : format.fill count bytes rows = .ok taken)
    : taken <+: rows := by
  induction rows generalizing count bytes taken with
  | nil =>
      cases filled
      exact List.prefix_rfl
  | cons row rest ih =>
      unfold fill at filled
      split at filled
      · cases filled
      · cases filled
        exact List.nil_prefix
      split at filled
      · cases filled
      rename_i continued
      cases filled
      obtain ⟨tail, split⟩ := ih continued
      exact ⟨tail, by rw [List.cons_append, split]⟩

theorem Batch.visible_prefix (batch : Batch Row) : batch.visible <+: batch.remaining := by
  unfold visible
  cases batch.window with
  | none => exact List.prefix_rfl
  | some bound => exact List.take_prefix _ _

/-- A page's rows are the first of those that remained; the batch is complete exactly when
none is left, and only then the page names the version and the serving instance.
-/
structure Paged (format : Format Row Change) (batch after : Batch Row) (serving : Bytes)
    (page : WatchReply Change)
    : Prop where
  open' : batch.complete = false
  rows
    : ∃ taken, batch.remaining = taken ++ after.remaining ∧ page.changes = taken.map format.encode
        ∧ after.offset = batch.offset + taken.length
  frozen
    : after.rows = batch.rows ∧ after.window = batch.window ∧ after.mode = batch.mode
      ∧ after.version = batch.version
  mode : page.mode = batch.mode
  finished : after.complete = page.complete
  ends : page.complete = decide (after.offset = batch.rows.length)
  version : page.version = if page.complete then some batch.version else none
  «instance» : page.instance = if page.complete then serving else []

variable {batch after : Batch Row} {serving : Bytes} {page : WatchReply Change}

theorem Batch.next_paged (produced : batch.next format serving = .ok (after, page))
    : Paged format batch after serving page := by
  unfold next at produced
  split at produced
  · cases produced
  rename_i isOpen
  split at produced
  · cases produced
  split at produced
  · cases produced
  rename_i taken filled
  cases produced
  obtain ⟨rest, split⟩ := (format.fill_prefix filled).trans batch.visible_prefix
  have skipped : batch.rows.drop (batch.offset + taken.length) = rest := by
    rw [← List.drop_drop, ← remaining, ← split, List.drop_left]
  exact {
    open' := by simpa using isOpen
    rows := by
      refine ⟨taken, ?_, rfl, rfl⟩
      change batch.remaining = taken ++ batch.rows.drop (batch.offset + taken.length)
      rw [skipped, split]
    frozen := ⟨rfl, rfl, rfl, rfl⟩
    mode := rfl
    finished := rfl
    ends := rfl
    version := by simp
    «instance» := by simp
  }

/-- Nothing remains after the last page. -/
theorem Paged.exhausted (paged : Paged format batch after serving page)
    (last : page.complete = true)
    : after.remaining = [] := by
  have all : after.offset = batch.rows.length := by simpa [paged.ends] using last
  rw [Batch.remaining, paged.frozen.1, all, List.drop_length]

-- All pages

/-- Rows up to this charge never meet the hard bound: a page is closed once it is over the
soft target, so it holds at most one of them beyond that.
-/
def light : Nat := 3 * 1024 * 1024

structure Format.Light (format : Format Row Change) (row : Row) : Prop where
  sendable : format.refusal row = none
  small : format.cost row ≤ light

/-- A page over light rows is filled without a failure and within the hard bound, and takes
at least one row. Witness: induction over the rows; the size so far is at most one row beyond
the start, or within the soft target.
-/
theorem Format.fill_light (all : ∀ row ∈ rows, format.Light row) (start : count = 0 → bytes ≤ 192)
    (within : bytes ≤ light + 192)
    : ∃ taken, format.fill count bytes rows = .ok taken ∧ bytes + (taken.map format.cost).sum ≤ hard
        ∧ (count = 0 → rows ≠ [] → taken ≠ []) := by
  induction rows generalizing count bytes with
  | nil =>
      refine ⟨[], rfl, ?_, fun _ nonempty => absurd rfl nonempty⟩
      simp only [List.map_nil, List.sum_nil, hard]
      simp only [light] at within
      omega
  | cons row rest ih =>
      obtain ⟨sendable, small⟩ := all row List.mem_cons_self
      have parts : format.cost row
          = (format.key row).length + format.payload row + format.overhead := rfl
      simp only [light] at within small
      have short : ¬ ((format.key row).length > hard ∨ format.payload row > hard) := by
        simp only [hard]
        omega
      have fits : ¬ (bytes ≥ hard ∨ format.cost row > hard - bytes) := by
        simp only [hard]
        omega
      by_cases closes : count ≠ 0 ∧ (count ≥ 256 ∨ format.cost row > soft - min bytes soft)
      · refine ⟨[], ?_, ?_, fun isFirst => absurd isFirst closes.1⟩
        · simp [fill, append, sendable, short, fits, closes]
        · simp only [List.map_nil, List.sum_nil, hard]
          omega
      · have priced : format.append count bytes row = .ok (some (bytes + format.cost row)) := by
          unfold append
          rw [sendable]
          simp only [if_neg short, if_neg fits, if_neg closes]
        have grown : bytes + format.cost row ≤ light + 192 := by
          simp only [soft] at closes
          simp only [light]
          omega
        obtain ⟨taken, filled, bounded, _⟩ :=
          ih (fun other member => all other (List.mem_cons_of_mem _ member))
            (show count + 1 = 0 → _ by omega) grown
        refine ⟨row :: taken, ?_, ?_, fun _ _ => List.cons_ne_nil _ _⟩
        · simp only [fill, priced, filled]
        · rw [List.map_cons, List.sum_cons]
          omega

/-- What a page weighs: the rows it was made from, within the hard bound. -/
def Format.Bounded (format : Format Row Change) (serving : Bytes) (rows : List Row)
    (page : WatchReply Change)
    : Prop :=
  ∃ taken : List Row, (∀ row ∈ taken, row ∈ rows) ∧ page.changes = taken.map format.encode
    ∧ serving.length + 64 + (taken.map format.cost).sum ≤ hard

/-- A page of light rows can always be made, and takes a row if one is left. -/
theorem Batch.next_light (all : ∀ row ∈ batch.remaining, format.Light row)
    (isOpen : batch.complete = false) (served : 0 < serving.length ∧ serving.length ≤ 128)
    (window : ∀ bound, batch.window = some bound → 0 < bound)
    : ∃ after page, batch.next format serving = .ok (after, page)
        ∧ format.Bounded serving batch.rows page
        ∧ (batch.remaining ≠ [] → page.changes ≠ []) := by
  have allVisible : ∀ row ∈ batch.visible, format.Light row :=
    fun row member => all row (batch.visible_prefix.subset member)
  obtain ⟨taken, filled, bounded, progress⟩ :=
    format.fill_light allVisible (show 0 = 0 → serving.length + 64 ≤ 192 by omega)
      (show serving.length + 64 ≤ light + 192 by simp only [light]; omega)
  have named : (serving.isEmpty || decide (serving.length > 128)) = false := by
    have nonempty : serving ≠ [] := List.length_pos_iff.mp served.1
    simp [nonempty, served.2]
  have produced : ∃ after page, batch.next format serving = .ok (after, page)
      ∧ page.changes = taken.map format.encode := by
    simp only [next, isOpen, named, filled, Bool.false_eq_true, if_false]
    exact ⟨_, _, rfl, rfl⟩
  obtain ⟨after, page, next, changes⟩ := produced
  have inside : ∀ row ∈ taken, row ∈ batch.rows := fun row member =>
    List.mem_of_mem_drop (batch.visible_prefix.subset ((format.fill_prefix filled).subset member))
  refine ⟨after, page, next, ⟨taken, inside, changes, bounded⟩, fun left => ?_⟩
  have shown : batch.visible ≠ [] := by
    unfold visible
    cases bound : batch.window with
    | none => exact left
    | some count =>
        have positive := window count bound
        simp only [Option.elim_some, ne_eq, List.take_eq_nil_iff, not_or]
        exact ⟨by omega, left⟩
  simpa [changes] using progress rfl shown

/-- All pages of a batch of light rows: every row once and in order, each page within the hard
bound. Witness: induction over the rounds; every page but the last takes a row.
-/
theorem Batch.pages_light {rounds : Nat} (all : ∀ row ∈ batch.remaining, format.Light row)
    (isOpen : batch.complete = false) (served : 0 < serving.length ∧ serving.length ≤ 128)
    (window : ∀ bound, batch.window = some bound → 0 < bound)
    (position : batch.offset ≤ batch.rows.length) (enough : batch.remaining.length < rounds)
    : ∃ pages, batch.pages format serving rounds = .ok pages
        ∧ Batched batch.mode batch.version serving (batch.remaining.map format.encode) pages
        ∧ ∀ page ∈ pages, format.Bounded serving batch.rows page := by
  induction rounds generalizing batch with
  | zero => omega
  | succ rounds ih =>
      obtain ⟨after, page, produced, bounded, progress⟩ :=
        batch.next_light all isOpen served window
      have paged := next_paged produced
      obtain ⟨taken, split, changes, advanced⟩ := paged.rows
      obtain ⟨sameRows, sameWindow, sameMode, sameVersion⟩ := paged.frozen
      have unfolded : batch.pages format serving (rounds + 1)
          = match after.pages format serving rounds with
            | .error message => .error message
            | .ok rest => .ok (page :: rest) := by
        rw [pages, isOpen, produced]
        rfl
      cases last : page.complete with
      | true =>
          have alone : after.pages format serving rounds = .ok [] := by
            cases rounds with
            | zero => rfl
            | succ rounds => rw [pages, if_pos (paged.finished.trans last)]
          have whole : page
              = { mode := batch.mode
                  changes := batch.remaining.map format.encode
                  complete := true
                  version := some batch.version
                  «instance» := serving } := by
            rw [split, paged.exhausted last, List.append_nil, ← changes, ← paged.mode]
            have version := paged.version
            have named := paged.instance
            rw [last, if_pos rfl] at version named
            rw [← version, ← named, ← last]
          refine ⟨[page], by rw [unfolded, alone], ?_, ?_⟩
          · rw [whole]
            exact .last _
          · intro other member
            rw [List.mem_singleton.mp member]
            exact bounded
      | false =>
          have unfinished : after.offset ≠ batch.rows.length := by
            simpa [last] using paged.ends
          have size : batch.remaining.length = batch.rows.length - batch.offset :=
            List.length_drop
          have counted : batch.remaining.length = taken.length + after.remaining.length := by
            rw [split, List.length_append]
          have left : batch.remaining ≠ [] := by
            intro none
            rw [none, List.length_nil] at size counted
            omega
          have taken_pos : 0 < taken.length := by
            have some := progress left
            rw [changes, ne_eq, List.map_eq_nil_iff] at some
            exact List.length_pos_iff.mpr some
          have more : page = { mode := batch.mode, changes := taken.map format.encode } := by
            rw [← changes, ← paged.mode]
            have version := paged.version
            have named := paged.instance
            rw [last] at version named
            simp only [Bool.false_eq_true, if_false] at version named
            rw [← version, ← named, ← last]
          obtain ⟨rest, continued, batched, others⟩ := ih
            (fun row member => all row (by rw [split]; exact List.mem_append_right _ member))
            (paged.finished.trans last) (fun bound => sameWindow ▸ window bound)
            (by rw [sameRows, advanced]; omega) (by omega)
          refine ⟨page :: rest, by rw [unfolded, continued], ?_, ?_⟩
          · rw [split, List.map_append, more]
            rw [sameMode, sameVersion] at batched
            exact .more (changes ▸ progress left) batched
          · intro other member
            rcases List.mem_cons.mp member with same | later
            · rw [same]
              exact bounded
            · rw [← sameRows]
              exact others other later

end Astra.Paging
