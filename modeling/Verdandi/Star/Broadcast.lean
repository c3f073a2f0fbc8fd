import Verdandi.Common.Wire
import Verdandi.Star.Edition
import Verdandi.Star.Pagination

/-! The pages of a frozen edition, however `next` is called, and the cache that shares them
among streams: a page is kept under its number for as long as a stream uses it, and a stream
that finds it there takes over the position after it.
-/

namespace Astra

open Support Proto

namespace Paging

variable {Row Change : Type}

-- Calls

/-- What is asked of an edition: whether its last page was made, the next page, and the encoded
size of a page.
-/
structure Pager (Edition Reply : Type) where
  complete : Edition → Bool
  next : Edition → Bytes → Except String (Edition × Reply)
  byteSizeLong : Reply → Nat

variable {Edition Reply : Type}

/-- One call of `next`. An exception leaves the edition as it was. -/
def Pager.call (pager : Pager Edition Reply) (edition : Edition) (serving : Bytes)
    : Edition × Except String Reply :=
  match pager.next edition serving with
  | .error message => (edition, .error message)
  | .ok (after, page) => (after, .ok page)

/-- Repeated calls, each with the instance it is given: the edition after them, and what each
of them gave.
-/
def Pager.calls (pager : Pager Edition Reply)
    : Edition → List Bytes → Edition × List (Except String Reply)
  | edition, [] => (edition, [])
  | edition, serving :: rest =>
      let (after, reply) := pager.call edition serving
      let (last, replies) := pager.calls after rest
      (last, reply :: replies)

def received (replies : List (Except String Reply)) : List Reply :=
  replies.filterMap Except.toOption

def Batch.pager (format : Format Row Change) (size : Change → Nat)
    : Pager (Batch Row) (WatchReply Change) where
  complete := Batch.complete
  next batch serving := batch.next format serving
  byteSizeLong := Wire.page size

structure Pager.Follows (pager : Pager Edition (WatchReply Change)) (format : Format Row Change)
    (size : Change → Nat) (batch : Edition → Batch Row)
    : Prop where
  complete (edition : Edition) : pager.complete edition = (batch edition).complete
  next (edition : Edition) (serving : Bytes)
    : (batch edition).next format serving
      = (pager.next edition serving).map fun made => (batch made.1, made.2)
  size : pager.byteSizeLong = Wire.page size

variable {format : Format Row Change} {size : Change → Nat}

theorem Pager.Follows.call {pager : Pager Edition (WatchReply Change)} {batch : Edition → Batch Row}
    (follows : pager.Follows format size batch) (edition : Edition) (serving : Bytes)
    : (Batch.pager format size).call (batch edition) serving
      = (batch (pager.call edition serving).1, (pager.call edition serving).2) := by
  simp only [Pager.call, Batch.pager, follows.next]
  cases pager.next edition serving with
  | error message => rfl
  | ok made => rfl

/-- The calls on an edition are those on its batch, by induction on the calls. -/
theorem Pager.Follows.calls {pager : Pager Edition (WatchReply Change)}
    {format : Format Row Change} {size : Change → Nat} {batch : Edition → Batch Row}
    (follows : pager.Follows format size batch) (edition : Edition) (servings : List Bytes)
    : (Batch.pager format size).calls (batch edition) servings
      = (batch (pager.calls edition servings).1, (pager.calls edition servings).2) := by
  induction servings generalizing edition with
  | nil => rfl
  | cons serving rest ih => simp only [Pager.calls, follows.call, ih]

-- One page

/-- The encoding of a row that fits on a page is no larger than its charge. -/
def Format.Measured (format : Format Row Change) (size : Change → Nat) (row : Row) : Prop :=
  format.cost row ≤ hard → Wire.field (size (format.encode row)) ≤ format.cost row

/-- A page takes no more than 256 rows and stays within the hard bound, and an empty page takes
the first row it is offered. Witness: induction over the rows.
-/
theorem Format.fill_bounded {count bytes : Nat} {rows taken : List Row}
    (filled : format.fill count bytes rows = .ok taken) (short : count ≤ 256)
    (within : bytes ≤ hard)
    : count + taken.length ≤ 256 ∧ bytes + (taken.map format.cost).sum ≤ hard
      ∧ (count = 0 → rows ≠ [] → taken ≠ []) := by
  induction rows generalizing count bytes taken with
  | nil =>
      cases filled
      exact ⟨by simpa using short, by simpa using within, fun _ some => absurd rfl some⟩
  | cons row rest ih =>
      simp only [fill] at filled
      split at filled
      · cases filled
      next closed =>
        cases filled
        refine ⟨by simpa using short, by simpa using within, fun first => ?_⟩
        -- The soft target closes a page only behind its first row.
        subst first
        simp only [append] at closed
        split at closed
        · cases closed
        · split at closed
          · cases closed
          split at closed
          · cases closed
          simp at closed
      rename_i grown priced
      split at filled
      · cases filled
      rename_i others continued
      cases filled
      have fits : bytes + format.cost row ≤ hard ∧ grown = bytes + format.cost row
          ∧ count + 1 ≤ 256 := by
        simp only [append] at priced
        split at priced
        · cases priced
        · split at priced
          · cases priced
          split at priced
          · cases priced
          split at priced
          · cases priced
          rename_i roomy _ soft
          cases priced
          exact ⟨by omega, rfl, by omega⟩
      obtain ⟨room, rfl, one⟩ := fits
      obtain ⟨few, bounded, _⟩ := ih continued one room
      refine ⟨?_, ?_, fun _ _ => List.cons_ne_nil _ _⟩
      · rw [List.length_cons]
        omega
      · rw [List.map_cons, List.sum_cons]
        omega

variable {batch after : Batch Row} {serving : Bytes} {page : WatchReply Change}

/-- What every page that was made has: at most 256 rows within the hard bound, and a row if one
remained.
-/
theorem Batch.next_bounded (produced : batch.next format serving = .ok (after, page))
    (window : ∀ bound, batch.window = some bound → 0 < bound)
    : ∃ taken, batch.remaining = taken ++ after.remaining ∧ page.changes = taken.map format.encode
        ∧ taken.length ≤ 256
        ∧ serving.length + 64 + (taken.map format.cost).sum ≤ hard
        ∧ (batch.remaining ≠ [] → taken ≠ [])
        ∧ serving.length ≤ 128 := by
  obtain ⟨taken, split, changes, _⟩ := (next_paged produced).rows
  refine ⟨taken, split, changes, ?_⟩
  simp only [next] at produced
  split at produced
  · cases produced
  split at produced
  · cases produced
  rename_i named
  split at produced
  · cases produced
  rename_i filling filled
  cases produced
  have served : serving.length ≤ 128 := by
    simp only [Bool.or_eq_true, decide_eq_true_eq, not_or] at named
    omega
  have same : filling = taken := by
    have front := (format.fill_prefix filled).trans batch.visible_prefix
    obtain ⟨rest, whole⟩ := front
    have lengths : filling.length = taken.length := by
      simpa using congrArg List.length changes
    exact (List.append_inj (whole.trans split) lengths).1
  subst same
  obtain ⟨few, bounded, progress⟩ := format.fill_bounded filled (by decide)
    (show serving.length + 64 ≤ hard by simp only [hard]; omega)
  refine ⟨by omega, bounded, fun left => progress rfl ?_, served⟩
  simp only [visible]
  cases bound : batch.window with
  | none => exact left
  | some count =>
      have positive := window count bound
      simp only [Option.elim_some, ne_eq, List.take_eq_nil_iff, not_or]
      exact ⟨by omega, left⟩

/-- A page is encoded in no more bytes than it was charged. -/
theorem Batch.next_encoded (produced : batch.next format serving = .ok (after, page))
    (window : ∀ bound, batch.window = some bound → 0 < bound)
    (measured : ∀ row ∈ batch.rows, format.Measured size row) (word : batch.version ≤ maxWord)
    : page.changes.length ≤ 256 ∧ Wire.page size page ≤ hard := by
  obtain ⟨taken, split, changes, few, bounded, _, served⟩ := next_bounded produced window
  have paged := next_paged produced
  refine ⟨by simpa [changes] using few, ?_⟩
  have inside : ∀ row ∈ taken, row ∈ batch.rows := fun row member =>
    List.mem_of_mem_drop (split ▸ List.mem_append_left _ member)
  have heavy (row : Row) (member : row ∈ taken) : format.cost row ≤ (taken.map format.cost).sum :=
    List.single_le_sum (by simp) _ (List.mem_map_of_mem member)
  have rows : ((taken.map format.encode).map fun change => Wire.field (size change)).sum
      ≤ (taken.map format.cost).sum := by
    rw [List.map_map]
    apply List.sum_le_sum
    intro row member
    have := heavy row member
    exact measured row (inside row member) (by omega)
  have named : page.instance.length ≤ serving.length := by
    rw [paged.instance]
    split
    · exact Nat.le_refl _
    · exact Nat.zero_le _
  have whole : Wire.page size page ≤ page.instance.length + 64
        + (page.changes.map fun change => Wire.field (size change)).sum := by
    apply Wire.page_le
    · intro version present
      rw [paged.version] at present
      split at present
      · cases present
        exact word
      · cases present
    · omega
  rw [changes] at whole
  omega

-- All calls

/-- The pages that the calls on a frozen batch made, and where it stands after them. -/
structure Exact (format : Format Row Change) (size : Change → Nat) (batch after : Batch Row)
    (pages : List (WatchReply Change))
    : Prop where
  /-- Every page but the last has a row and names nothing. -/
  continued
    : after.complete = false → batch.remaining.map format.encode
            = pages.flatMap WatchReply.changes ++ after.remaining.map format.encode
          ∧ ∀ page ∈ pages,
              page = { mode := batch.mode, changes := page.changes } ∧ page.changes ≠ []
  /-- Together they are the rows, in order. -/
  finished
    : after.complete = true → ∃ serving,
          Batched batch.mode batch.version serving (batch.remaining.map format.encode) pages
  bounded : ∀ page ∈ pages, page.changes.length ≤ 256 ∧ Wire.page size page ≤ hard
  finite : pages.length ≤ batch.remaining.length + 1
  ends : batch.remaining.length < pages.length → after.complete = true

/-- No call on a complete edition makes a page, by induction on the calls. -/
theorem Batch.calls_complete (format : Format Row Change) (size : Change → Nat)
    (done : batch.complete = true) (servings : List Bytes)
    : ((Batch.pager format size).calls batch servings).1 = batch
      ∧ received ((Batch.pager format size).calls batch servings).2 = [] := by
  have refused (serving : Bytes)
      : (Batch.pager format size).call batch serving = (batch, .error format.completed) := by
    simp [Pager.call, Batch.pager, next, done]
  induction servings with
  | nil => exact ⟨rfl, rfl⟩
  | cons serving rest ih =>
      simp only [Pager.calls, refused]
      exact ⟨ih.1, ih.2⟩

/-- A batch that made no page stands where it stood. -/
theorem Exact.refl (isOpen : batch.complete = false)
    : Exact format size batch batch [] where
  continued _ := ⟨rfl, nofun⟩
  finished done := by simp [isOpen] at done
  bounded := nofun
  finite := Nat.zero_le _
  ends more := absurd more (Nat.not_lt_zero _)

/-- The last page of a batch ends it. -/
theorem Exact.last (paged : Paged format batch after serving page) (done : page.complete = true)
    (bounded : page.changes.length ≤ 256 ∧ Wire.page size page ≤ hard)
    : Exact format size batch after [page] := by
  obtain ⟨taken, split, changes, _⟩ := paged.rows
  rw [paged.exhausted done, List.append_nil] at split
  have whole : page
      = { mode := batch.mode, changes := batch.remaining.map format.encode
          complete := true, version := some batch.version, «instance» := serving } := by
    obtain ⟨mode, rows, complete, version, served⟩ := page
    have named := paged.version
    have sent := paged.instance
    simp only at done changes named sent
    rw [done, if_pos rfl] at named sent
    simp only [WatchReply.mk.injEq]
    exact ⟨paged.mode, by rw [changes, split], done, named, sent⟩
  exact {
    continued := fun opened => by
      rw [paged.finished, done] at opened
      cases opened
    finished := fun _ => ⟨serving, whole ▸ .last _⟩
    bounded := fun other member => List.mem_singleton.mp member ▸ bounded
    finite := by simp
    ends := fun _ => paged.finished.trans done
  }

/-- A page in front of what follows it. -/
theorem Exact.cons {format : Format Row Change} {size : Change → Nat}
    {batch next after : Batch Row} {serving : Bytes} {page : WatchReply Change}
    {rest : List (WatchReply Change)} (paged : Paged format batch next serving page)
    (more : page.complete = false) (some : page.changes ≠ [])
    (bounded : page.changes.length ≤ 256 ∧ Wire.page size page ≤ hard)
    (exact' : Exact format size next after rest)
    : Exact format size batch after (page :: rest) := by
  obtain ⟨taken, split, changes, _⟩ := paged.rows
  obtain ⟨_, _, sameMode, sameVersion⟩ := paged.frozen
  have whole : page = { mode := batch.mode, changes := page.changes } := by
    obtain ⟨mode, rows, complete, version, served⟩ := page
    have named := paged.version
    have sent := paged.instance
    simp only at more named sent
    rw [more, if_neg Bool.false_ne_true] at named sent
    simp only [WatchReply.mk.injEq, true_and]
    exact ⟨paged.mode, more, named, sent⟩
  have progress : 0 < taken.length := by
    have := List.length_pos_iff.mpr some
    simpa [changes] using this
  have shorter : batch.remaining.length = taken.length + next.remaining.length := by
    rw [split, List.length_append]
  have finite := exact'.finite
  exact {
    continued := fun opened => by
      obtain ⟨rows, plain⟩ := exact'.continued opened
      refine ⟨?_, ?_⟩
      · rw [split, List.map_append, ← changes, rows, List.flatMap_cons, List.append_assoc]
      · intro other member
        rcases List.mem_cons.mp member with rfl | later
        · exact ⟨whole, some⟩
        · exact sameMode ▸ plain other later
    finished := fun done => by
      obtain ⟨last, batched⟩ := exact'.finished done
      rw [sameMode, sameVersion] at batched
      refine ⟨last, ?_⟩
      rw [split, List.map_append, ← changes, whole]
      exact .more some batched
    bounded := fun other member => by
      rcases List.mem_cons.mp member with rfl | later
      · exact bounded
      · exact exact'.bounded other later
    finite := by
      rw [List.length_cons]
      omega
    ends := fun longer => by
      rw [List.length_cons] at longer
      exact exact'.ends (by omega)
  }

/-- Whatever calls are made on a batch, its pages are exact. Witness: induction on the calls; a
call that throws changes nothing, and behind the last page every call throws.
-/
theorem Batch.calls_exact (format : Format Row Change) (isOpen : batch.complete = false)
    (position : batch.offset ≤ batch.rows.length)
    (window : ∀ bound, batch.window = some bound → 0 < bound)
    (measured : ∀ row ∈ batch.rows, format.Measured size row) (word : batch.version ≤ maxWord)
    (servings : List Bytes)
    : Exact format size batch ((Batch.pager format size).calls batch servings).1
        (received ((Batch.pager format size).calls batch servings).2) := by
  induction servings generalizing batch with
  | nil => exact .refl isOpen
  | cons serving rest ih =>
      cases produced : batch.next format serving with
      | error message =>
          have called : (Batch.pager format size).call batch serving = (batch, .error message) := by
            simp [Pager.call, Batch.pager, produced]
          simp only [Pager.calls, called]
          exact ih isOpen position window measured word
      | ok made =>
          obtain ⟨after, page⟩ := made
          have called : (Batch.pager format size).call batch serving = (after, .ok page) := by
            simp [Pager.call, Batch.pager, produced]
          have paged := next_paged produced
          have bounded := next_encoded produced window measured word
          obtain ⟨sameRows, sameWindow, _, sameVersion⟩ := paged.frozen
          simp only [Pager.calls, called, received, List.filterMap_cons, Except.toOption]
          cases last : page.complete with
          | true =>
              obtain ⟨same, none⟩ := calls_complete format size (paged.finished.trans last) rest
              rw [same]
              rw [received] at none
              rw [none]
              exact .last paged last bounded
          | false =>
              obtain ⟨taken, split, changes, _, _, progress, _⟩ := next_bounded produced window
              obtain ⟨same, _, sameChanges, advanced⟩ := paged.rows
              have lengths : same.length = taken.length := by
                simpa using congrArg List.length (sameChanges.symm.trans changes)
              have remains : batch.remaining.length = batch.rows.length - batch.offset := by
                rw [remaining, List.length_drop]
              have covers := congrArg List.length split
              rw [List.length_append, remains] at covers
              have unfinished : after.offset ≠ batch.rows.length := by
                simpa [paged.ends] using last
              have some : page.changes ≠ [] := by
                intro empty
                rw [changes, List.map_eq_nil_iff] at empty
                by_cases left : batch.remaining = []
                · rw [left, List.length_nil] at remains
                  rw [empty, List.length_nil] at lengths
                  omega
                · exact progress left empty
              apply Exact.cons paged last some bounded
              apply ih
              · exact paged.finished.trans last
              · rw [sameRows]
                omega
              · exact sameWindow ▸ window
              · exact sameRows ▸ measured
              · exact sameVersion ▸ word

/-- What was frozen stays, by induction on the calls. -/
theorem Batch.calls_frozen (format : Format Row Change) (size : Change → Nat)
    (batch : Batch Row) (servings : List Bytes)
    : ((Batch.pager format size).calls batch servings).1.rows = batch.rows
      ∧ ((Batch.pager format size).calls batch servings).1.window = batch.window := by
  induction servings generalizing batch with
  | nil => exact ⟨rfl, rfl⟩
  | cons serving rest ih =>
      simp only [Pager.calls]
      have kept : ((Batch.pager format size).call batch serving).1.rows = batch.rows
          ∧ ((Batch.pager format size).call batch serving).1.window = batch.window := by
        simp only [Pager.call, Batch.pager]
        split
        · exact ⟨rfl, rfl⟩
        rename_i after page produced
        obtain ⟨rows, window, _⟩ := (next_paged produced).frozen
        exact ⟨rows, window⟩
      obtain ⟨rows, window⟩ := ih ((Batch.pager format size).call batch serving).1
      exact ⟨rows.trans kept.1, window.trans kept.2⟩

/-- The calls up to some point and those after it. -/
theorem Pager.calls_append (pager : Pager Edition Reply) (edition : Edition)
    (first second : List Bytes)
    : pager.calls edition (first ++ second)
      = ((pager.calls (pager.calls edition first).1 second).1,
          (pager.calls edition first).2
            ++ (pager.calls (pager.calls edition first).1 second).2) := by
  induction first generalizing edition with
  | nil => rfl
  | cons serving rest ih => simp only [List.cons_append, calls, ih]

end Paging

-- The cache

open Paging

section Cache

variable {Edition Reply : Type}

structure Page (Edition Reply : Type) where
  message : Reply
  after : Edition
  bytes : Nat

/-- The cache of one frozen edition. A slot without a page was not made yet, or its page is not
in use any more.
-/
structure Broadcast (Edition Reply : Type) where
  seed : Edition
  pages : List (Option (Page Edition Reply)) := []
  hits : Nat := 0
  misses : Nat := 0

namespace Broadcast

/-- The slot for a page, which is made before the cursor is moved. -/
def prepare (broadcast : Broadcast Edition Reply) (offset : Nat) : Broadcast Edition Reply :=
  if offset = broadcast.pages.length then
    { broadcast with pages := broadcast.pages ++ [none] }
  else
    broadcast

/-- The next page of a cursor: from its slot, or made by the cursor itself. -/
def next (pager : Pager Edition Reply) (broadcast : Broadcast Edition Reply)
    (cursor : Edition) (offset : Nat) (serving : Bytes)
    : Broadcast Edition Reply × Except String (Edition × Page Edition Reply) :=
  if pager.complete cursor then
    (broadcast, .error "Publication cursor already completed")
  else if offset > broadcast.pages.length then
    (broadcast, .error "Publication page skipped")
  else
    let prepared := broadcast.prepare offset
    match prepared.pages[offset]?.join with
    | some cached => ({ prepared with hits := prepared.hits + 1 }, .ok (cached.after, cached))
    | none =>
        match pager.next cursor serving with
        | .error message => (prepared, .error message)
        | .ok (after, message) =>
            let page := { message, after, bytes := pager.byteSizeLong message }
            ({ prepared with
                pages := prepared.pages.set offset (some page)
                misses := prepared.misses + 1 },
              .ok (after, page))

def expire (broadcast : Broadcast Edition Reply) (offset : Nat) : Broadcast Edition Reply :=
  { broadcast with pages := broadcast.pages.set offset none }

end Broadcast

/-- A stream on a broadcast: its own cursor, the number of its next page, and the pages it was
served. An exception ends it.
-/
structure Listener (Edition Reply : Type) where
  cursor : Edition
  offset : Nat := 0
  served : List (Page Edition Reply) := []
  ended : Bool := false

structure Audience (Edition Reply : Type) where
  broadcast : Broadcast Edition Reply
  streams : List (Listener Edition Reply) := []

namespace Audience

/-- What happens to a broadcast, in any order: a stream begins, a stream wants its next page, a
page is not in use any more.
-/
inductive Act where
  | begin
  | advance (stream : Nat)
  | expire (offset : Nat)

/-- The stream after its next page, or after the exception in place of it. -/
def Listener.take (listener : Listener Edition Reply)
    : Except String (Edition × Page Edition Reply) → Listener Edition Reply
  | .error _ => { listener with offset := listener.offset + 1, ended := true }
  | .ok (cursor, page) =>
      { listener with
        cursor
        offset := listener.offset + 1
        served := listener.served ++ [page] }

def step (pager : Pager Edition Reply) (serving : Bytes) (audience : Audience Edition Reply)
    : Act → Audience Edition Reply
  | .begin =>
      { audience with
        streams := audience.streams ++ [{ cursor := audience.broadcast.seed }] }
  | .advance stream =>
      match audience.streams[stream]? with
      | none => audience
      | some listener =>
          if listener.ended then
            audience
          else
            let (broadcast, reply) :=
              audience.broadcast.next pager listener.cursor listener.offset serving
            { broadcast
              streams := audience.streams.set stream (Listener.take listener reply) }
  | .expire offset => { audience with broadcast := audience.broadcast.expire offset }

/-- The broadcast of an edition, before it has streams, after these acts. -/
def run (pager : Pager Edition Reply) (serving : Bytes) (seed : Edition) (acts : List Act)
    : Audience Edition Reply :=
  acts.foldl (step pager serving) { broadcast := { seed } }

/-- The position that an edition reaches on its own in so many pages, and what they are. -/
def Alone (pager : Pager Edition Reply) (serving : Bytes) (seed cursor : Edition)
    (messages : List Reply)
    : Prop :=
  pager.calls seed (List.replicate messages.length serving) = (cursor, messages.map Except.ok)

variable {pager : Pager Edition Reply} {serving : Bytes} {seed : Edition}

/-- One more page of its own. -/
theorem Alone.snoc {cursor after : Edition} {messages : List Reply} {message : Reply}
    (alone : Alone pager serving seed cursor messages)
    (next : pager.next cursor serving = .ok (after, message))
    : Alone pager serving seed after (messages ++ [message]) := by
  unfold Alone at alone ⊢
  rw [List.length_append, List.replicate_add, pager.calls_append, alone]
  simp [Pager.calls, Pager.call, next]

/-- An edition on its own is in one place after so many pages. -/
theorem Alone.unique {first second : Edition} {left right : List Reply}
    (one : Alone pager serving seed first left) (other : Alone pager serving seed second right)
    (same : left.length = right.length)
    : first = second := by
  unfold Alone at one other
  rw [same, other] at one
  exact (congrArg Prod.fst one).symm

/-- Every page in a slot is the one that the edition makes there on its own. -/
structure Kept (pager : Pager Edition Reply) (serving : Bytes) (origin : Edition)
    (broadcast : Broadcast Edition Reply)
    : Prop where
  seed : broadcast.seed = origin
  slots
    : ∀ offset page, broadcast.pages[offset]? = some (some page) → ∃ cursor messages,
          Alone pager serving origin cursor messages
          ∧ messages.length = offset
          ∧ pager.next cursor serving = .ok (page.after, page.message)
          ∧ page.bytes = pager.byteSizeLong page.message

theorem Kept.prepare {pager : Pager Edition Reply} {serving : Bytes} {origin : Edition}
    {broadcast : Broadcast Edition Reply} (kept : Kept pager serving origin broadcast)
    (offset : Nat)
    : Kept pager serving origin (broadcast.prepare offset) := by
  unfold Broadcast.prepare
  split
  · refine ⟨kept.seed, fun slot page found => ?_⟩
    rw [List.getElem?_append] at found
    split at found
    · exact kept.slots slot page found
    · cases List.mem_singleton.mp (List.mem_of_getElem? found)
  · exact kept

theorem Kept.set {pager : Pager Edition Reply} {serving : Bytes} {origin : Edition}
    {broadcast : Broadcast Edition Reply} (kept : Kept pager serving origin broadcast)
    (offset : Nat) (page : Option (Page Edition Reply))
    (fresh
      : ∀ made, page = some made → ∃ cursor messages, Alone pager serving origin cursor messages
            ∧ messages.length = offset
            ∧ pager.next cursor serving = .ok (made.after, made.message)
            ∧ made.bytes = pager.byteSizeLong made.message)
    : Kept pager serving origin { broadcast with pages := broadcast.pages.set offset page } where
  seed := kept.seed
  slots slot made found := by
    rw [List.getElem?_set] at found
    split at found
    next same =>
      split at found
      · exact same ▸ fresh made (Option.some.inj found)
      · cases found
    · exact kept.slots slot made found

/-- What a cursor gets from the cache is what it would have made itself. -/
theorem Kept.next {pager : Pager Edition Reply} {serving : Bytes} {origin cursor : Edition}
    {broadcast : Broadcast Edition Reply} (kept : Kept pager serving origin broadcast)
    {messages : List Reply} (alone : Alone pager serving origin cursor messages)
    (reach : messages.length ≤ broadcast.pages.length) (isOpen : pager.complete cursor = false)
    : (broadcast.next pager cursor messages.length serving).2.map
          (fun made => (made.1, made.2.message))
        = pager.next cursor serving
      ∧ Kept pager serving origin (broadcast.next pager cursor messages.length serving).1
      ∧ broadcast.pages.length
          ≤ (broadcast.next pager cursor messages.length serving).1.pages.length
      ∧ ∀ made, (broadcast.next pager cursor messages.length serving).2 = .ok made →
          made.2.bytes = pager.byteSizeLong made.2.message ∧ messages.length
              < (broadcast.next pager cursor messages.length serving).1.pages.length := by
  have prepared := kept.prepare messages.length
  have slot : messages.length < (broadcast.prepare messages.length).pages.length := by
    unfold Broadcast.prepare
    split
    · simp only [List.length_append, List.length_singleton]
      omega
    · omega
  have longer : broadcast.pages.length ≤ (broadcast.prepare messages.length).pages.length := by
    unfold Broadcast.prepare
    split <;> simp
  have inside : ¬ messages.length > broadcast.pages.length := Nat.not_lt.mpr reach
  cases held : (broadcast.prepare messages.length).pages[messages.length]?.join with
  | some page =>
      obtain ⟨other, others, same, count, made, size⟩ :=
        prepared.slots _ page (by simpa [Option.join_eq_some_iff] using held)
      rw [same.unique alone count] at made
      simp only [Broadcast.next, isOpen, inside, held, Bool.false_eq_true, if_false]
      refine ⟨made.symm, ⟨prepared.seed, prepared.slots⟩, longer, ?_⟩
      intro taken equal
      cases equal
      exact ⟨size, slot⟩
  | none =>
      cases produced : pager.next cursor serving with
      | error message =>
          simp only [Broadcast.next, isOpen, inside, held, produced, Bool.false_eq_true, if_false]
          exact ⟨rfl, prepared, longer, nofun⟩
      | ok made =>
          obtain ⟨after, message⟩ := made
          simp only [Broadcast.next, isOpen, inside, held, produced, Bool.false_eq_true, if_false,
            List.length_set]
          refine ⟨rfl, ?_, longer, ?_⟩
          · obtain ⟨seed, slots⟩ := prepared.set messages.length
              (some { message, after, bytes := pager.byteSizeLong message })
              fun made equal => by
                cases equal
                exact ⟨cursor, messages, alone, rfl, produced, rfl⟩
            exact ⟨seed, slots⟩
          · intro taken equal
            cases equal
            exact ⟨rfl, slot⟩

structure Served (pager : Pager Edition Reply) (serving : Bytes) (origin : Edition)
    (audience : Audience Edition Reply) (listener : Listener Edition Reply)
    : Prop where
  alone : Alone pager serving origin listener.cursor (listener.served.map Page.message)
  offset : listener.ended = false → listener.offset = listener.served.length
  bytes : ∀ page ∈ listener.served, page.bytes = pager.byteSizeLong page.message
  reach : listener.served.length ≤ audience.broadcast.pages.length

structure Shared (pager : Pager Edition Reply) (serving : Bytes) (origin : Edition)
    (audience : Audience Edition Reply)
    : Prop where
  kept : Kept pager serving origin audience.broadcast
  streams : ∀ listener ∈ audience.streams, Served pager serving origin audience listener

theorem Shared.step {pager : Pager Edition Reply} {serving : Bytes} {origin : Edition}
    {audience : Audience Edition Reply} (shared : Shared pager serving origin audience)
    (act : Act)
    : Shared pager serving origin (audience.step pager serving act) := by
  cases act with
  | begin =>
      refine ⟨shared.kept, fun listener member => ?_⟩
      rcases List.mem_append.mp member with old | new
      · obtain ⟨alone, offset, bytes, reach⟩ := shared.streams listener old
        exact ⟨alone, offset, bytes, reach⟩
      · rw [List.mem_singleton.mp new]
        exact ⟨by simp [Alone, Pager.calls, shared.kept.seed], fun _ => rfl, nofun, Nat.zero_le _⟩
  | expire offset =>
      obtain ⟨seed, slots⟩ := shared.kept.set offset none nofun
      refine ⟨⟨seed, slots⟩, fun listener member => ?_⟩
      obtain ⟨alone, offset, bytes, reach⟩ := shared.streams listener member
      exact ⟨alone, offset, bytes, by simpa [Audience.step, Broadcast.expire] using reach⟩
  | advance stream =>
      simp only [Audience.step]
      cases here : audience.streams[stream]? with
      | none => exact shared
      | some listener =>
          have own := shared.streams listener (List.mem_of_getElem? here)
          cases ended : listener.ended with
          | true => simpa [ended] using shared
          | false =>
              dsimp only
              rw [if_neg (by simp [ended])]
              have position : listener.offset = (listener.served.map Page.message).length := by
                rw [List.length_map, own.offset ended]
              have reach : (listener.served.map Page.message).length
                  ≤ audience.broadcast.pages.length := by
                simpa using own.reach
              have spec : Kept pager serving origin
                    (audience.broadcast.next pager listener.cursor listener.offset serving).1
                  ∧ audience.broadcast.pages.length
                    ≤ (audience.broadcast.next pager listener.cursor listener.offset
                      serving).1.pages.length
                  ∧ ∀ made,
                      (audience.broadcast.next pager listener.cursor listener.offset serving).2
                          = .ok made →
                        pager.next listener.cursor serving = .ok (made.1, made.2.message)
                        ∧ made.2.bytes = pager.byteSizeLong made.2.message
                        ∧ listener.offset
                          < (audience.broadcast.next pager listener.cursor listener.offset
                            serving).1.pages.length := by
                cases done : pager.complete listener.cursor with
                | true =>
                    simp only [Broadcast.next, done, if_true]
                    exact ⟨shared.kept, Nat.le_refl _, nofun⟩
                | false =>
                    rw [position]
                    obtain ⟨same, kept, longer, last⟩ := shared.kept.next own.alone reach done
                    refine ⟨kept, longer, fun made taken => ⟨?_, last made taken⟩⟩
                    rw [← same, taken]
                    rfl
              obtain ⟨kept, longer, last⟩ := spec
              refine ⟨kept, fun other member => ?_⟩
              rcases List.mem_or_eq_of_mem_set member with old | rfl
              · obtain ⟨alone, offset, bytes, within⟩ := shared.streams other old
                exact ⟨alone, offset, bytes, within.trans longer⟩
              · cases reply : (audience.broadcast.next pager listener.cursor listener.offset
                    serving).2 with
                | error message =>
                    exact ⟨own.alone, nofun, own.bytes, own.reach.trans longer⟩
                | ok made =>
                    obtain ⟨produced, size, slot⟩ := last made reply
                    refine ⟨?_, fun _ => ?_, fun page served => ?_, ?_⟩
                    · simpa [Listener.take] using own.alone.snoc produced
                    · simp [Listener.take, own.offset ended]
                    · rcases List.mem_append.mp served with old | new
                      · exact own.bytes page old
                      · rw [List.mem_singleton.mp new]
                        exact size
                    · simp only [Listener.take, List.length_append, List.length_singleton]
                      rw [← own.offset ended]
                      exact slot

/-- In every run of the streams on a broadcast, by induction on the acts. -/
theorem run_shared (pager : Pager Edition Reply) (serving : Bytes) (origin : Edition)
    (acts : List Act)
    : Shared pager serving origin (run pager serving origin acts) := by
  have start : Shared pager serving origin { broadcast := { seed := origin } } :=
    ⟨⟨rfl, nofun⟩, nofun⟩
  unfold run
  generalize { broadcast := { seed := origin } : Audience Edition Reply } = audience at start ⊢
  induction acts generalizing audience with
  | nil => exact start
  | cons act rest ih => exact ih _ (start.step act)

end Audience

end Cache

-- The domains

namespace Paging

variable {Edition Row Change : Type}

/-- The paging of a frozen edition is exact, on its own and from the cache. -/
structure Law (pager : Pager Edition (WatchReply Change)) (format : Format Row Change)
    (size : Change → Nat) (batch : Edition → Batch Row) (edition : Edition)
    : Prop where
  /-- Whatever calls are made. -/
  alone
    : ∀ servings : List Bytes,
        Exact format size (batch edition) (batch (pager.calls edition servings).1)
          (received (pager.calls edition servings).2)
  /-- A call that throws consumes nothing. -/
  thrown
    : ∀ (servings : List Bytes) serving message,
        (pager.call (pager.calls edition servings).1 serving).2 = .error message →
          (pager.call (pager.calls edition servings).1 serving).1 = (pager.calls edition servings).1
  /-- Rows of admitted sizes are never refused before the end. -/
  light
    : (∀ row ∈ (batch edition).rows, format.Light row) →
        ∀ (servings : List Bytes) (serving : Bytes),
          (batch (pager.calls edition servings).1).complete = false →
          0 < serving.length ∧ serving.length ≤ 128 →
          ∃ page, (pager.call (pager.calls edition servings).1 serving).2 = .ok page
  /-- A stream on a shared edition has the pages of its own. -/
  shared
    : ∀ serving acts, ∀ listener ∈ (Audience.run pager serving edition acts).streams,
          pager.calls edition (List.replicate listener.served.length serving)
              = (listener.cursor, listener.served.map fun page => .ok page.message)
            ∧ ∀ page ∈ listener.served, page.bytes = Wire.page size page.message
  /-- And gets the next page of its own, or the exception. -/
  next
    : ∀ serving acts, ∀ listener ∈ (Audience.run pager serving edition acts).streams,
          listener.ended = false →
          pager.complete listener.cursor = false →
          ((Audience.run pager serving edition acts).broadcast.next pager listener.cursor
                listener.offset serving).2.map (fun made => (made.1, made.2.message))
            = pager.next listener.cursor serving

theorem Pager.Follows.law {pager : Pager Edition (WatchReply Change)}
    {format : Format Row Change} {size : Change → Nat} {batch : Edition → Batch Row}
    (follows : pager.Follows format size batch) {edition : Edition} {mode : Mode}
    {version : Nat} (frozen : (batch edition).Frozen mode version)
    (measured : ∀ row ∈ (batch edition).rows, format.Measured size row)
    (word : version ≤ maxWord)
    : Law pager format size batch edition := by
  obtain ⟨offset, isOpen⟩ := frozen.fresh
  have start : (batch edition).offset ≤ (batch edition).rows.length := by
    rw [offset]
    exact Nat.zero_le _
  constructor
  · intro servings
    have exact' := Batch.calls_exact format isOpen start frozen.window measured
      (frozen.version ▸ word) servings
    rw [follows.calls] at exact'
    exact exact'
  · intro servings serving message thrown
    simp only [Pager.call] at thrown ⊢
    split
    · rfl
    rename_i after page produced
    rw [produced] at thrown
    cases thrown
  · intro light servings serving opened served
    obtain ⟨rows, window⟩ := Batch.calls_frozen format size (batch edition) servings
    rw [follows.calls] at rows window
    simp only at rows window
    obtain ⟨after, page, produced, _⟩ := Batch.next_light
      (fun row member => light row (rows ▸ List.mem_of_mem_drop member)) opened served
      (window ▸ frozen.window)
    refine ⟨page, ?_⟩
    rw [follows.next] at produced
    simp only [Pager.call]
    cases own : pager.next (pager.calls edition servings).1 serving with
    | error message =>
        rw [own] at produced
        cases produced
    | ok made =>
        rw [own] at produced
        cases produced
        rfl
  · intro serving acts listener member
    have served := (Audience.run_shared pager serving edition acts).streams listener member
    refine ⟨?_, fun page found => follows.size ▸ served.bytes page found⟩
    have alone := served.alone
    rw [Audience.Alone, List.length_map, List.map_map] at alone
    exact alone
  · intro serving acts listener member running opened
    have shared := Audience.run_shared pager serving edition acts
    have served := shared.streams listener member
    have position : listener.offset = (listener.served.map Page.message).length := by
      rw [List.length_map, served.offset running]
    rw [position]
    exact (shared.kept.next served.alone (by simpa using served.reach) opened).1

end Paging

namespace Edition

inductive Frozen : Edition → Prop where
  | view (view : Almanac.State) : Frozen (ofView view)
  | point (key : Bytes) (version : Nat) (value : Option Bytes)
      : Frozen (ofPoint key version value)
  | changes (version : Nat) (changes : List Almanac.Change) (target : Bytes) (capacity : Nat)
      : Frozen (ofReplay version changes target capacity)

def pager : Pager Edition AlmanacWatchReply where
  complete := Edition.complete
  next := Edition.next
  byteSizeLong := Wire.page Wire.almanacChange

theorem follows : pager.Follows format Wire.almanacChange batch where
  complete _ := rfl
  size := rfl
  next edition serving := by
    simp only [pager, next]
    cases produced : edition.batch.next format serving with
    | error message => rfl
    | ok made =>
        obtain ⟨after, page⟩ := made
        obtain ⟨rows, window, mode, version⟩ := (Batch.next_paged produced).frozen
        obtain ⟨_, _, _, _, offset, complete⟩ := after
        simp only at rows window mode version
        subst rows window mode version
        rfl

theorem Frozen.batch {edition : Edition} (frozen : edition.Frozen)
    : ∃ mode, edition.batch.Frozen mode edition.version := by
  cases frozen with
  | view view => exact ⟨.reset, rfl, rfl, ⟨rfl, rfl⟩, fun bound same => by cases same; decide⟩
  | point key version value => exact ⟨.reset, rfl, rfl, ⟨rfl, rfl⟩, nofun⟩
  | changes version changes target capacity =>
      have frozen := frozen_ofReplay version changes target capacity
      exact ⟨.apply, frozen.mode, rfl, frozen.fresh, frozen.window⟩

theorem measured (row : Bytes × Option Bytes) : format.Measured Wire.almanacChange row := by
  intro small
  obtain ⟨key, value⟩ := row
  change key.length + (value.getD []).length + 32 ≤ hard at small
  change Wire.field (Wire.bytes key + Wire.action (value.elim .erase .value))
    ≤ key.length + (value.getD []).length + 32
  simp only [hard] at small
  have name := Wire.bytes_le (show key.length < 2 ^ 28 by omega)
  have action : Wire.action (value.elim .erase .value) ≤ (value.getD []).length + 5 := by
    cases value with
    | none => decide
    | some value => exact Wire.field_le (show value.length < 2 ^ 28 from by
        simp only [Option.getD_some] at small
        omega)
  have whole := Wire.field_le
    (show Wire.bytes key + Wire.action (value.elim .erase .value) < 2 ^ 28 by omega)
  omega

end Edition

namespace Pagination

variable {Item Change : Type}

inductive Frozen (encoding : Encoding Item Change) : Pagination Item → Prop where
  | view (scene : Scene Item) : Frozen encoding (ofView scene)
  | point (key : Bytes) (version : Nat) (record : Option Item)
      : Frozen encoding (ofPoint encoding key version record)
  | changes {version capacity size : Nat} {events : List (Scene.Event Item)} {target : Bytes}
      {pagination : Pagination Item}
      (frozen : ofChanges encoding version events target capacity size = .ok pagination)
      : Frozen encoding pagination

def pager (encoding : Encoding Item Change) (size : Change → Nat)
    : Pager (Pagination Item) (WatchReply Change) where
  complete := Pagination.complete
  next pagination serving := pagination.next encoding serving
  byteSizeLong := Wire.page size

theorem follows (encoding : Encoding Item Change) (size : Change → Nat)
    : (pager encoding size).Follows (format encoding) size batch where
  complete _ := rfl
  size := rfl
  next pagination serving := by
    simp only [pager, next]
    cases produced : pagination.batch.next (format encoding) serving with
    | error message => rfl
    | ok made =>
        obtain ⟨after, page⟩ := made
        obtain ⟨rows, window, mode, version⟩ := (Batch.next_paged produced).frozen
        obtain ⟨_, _, _, _, offset, complete⟩ := after
        simp only at rows window mode version
        subst rows window mode version
        rfl

theorem Frozen.batch {encoding : Encoding Item Change} {pagination : Pagination Item}
    (frozen : Frozen encoding pagination)
    : ∃ mode, pagination.batch.Frozen mode pagination.version := by
  cases frozen with
  | view scene => exact ⟨.reset, rfl, rfl, ⟨rfl, rfl⟩, fun bound same => by cases same; decide⟩
  | point key version record => exact ⟨.reset, rfl, rfl, ⟨rfl, rfl⟩, nofun⟩
  | changes made =>
      have frozen := frozen_ofChanges made
      exact ⟨.apply, frozen.mode, rfl, frozen.fresh, frozen.window⟩

end Pagination

/-- The version of a record is a machine word. -/
theorem Catalog.measured {row : Bytes × Row Catalog.Content}
    (word : ∀ held, row.2.record = some held → held.version ≤ maxWord)
    : (Pagination.format Catalog.encoding).Measured Wire.catalogChange row := by
  obtain ⟨key, record, data⟩ := row
  intro small
  change key.length + (record.elim 0 fun held => held.value.length) + 48 ≤ hard at small
  change Wire.field (Wire.catalogChange (Catalog.encode key { record, data }))
    ≤ key.length + (record.elim 0 fun held => held.value.length) + 48
  simp only [hard] at small
  have name := Wire.bytes_le (show key.length < 2 ^ 28 by omega)
  have inner : Wire.catalogChange (Catalog.encode key { record, data })
      ≤ key.length + (record.elim 0 fun held => held.value.length) + 21 := by
    cases record with
    | none =>
        have erased : Wire.action .erase = 2 := by decide
        simp only [Catalog.encode, Wire.catalogChange, erased, if_true, Option.elim_none]
        omega
    | some held =>
        have bounded := word held rfl
        simp only [Option.elim_some] at small ⊢
        have value := Wire.field_le (show held.value.length < 2 ^ 28 by omega)
        have version := Wire.varint_le
          (show held.version < 2 ^ (7 * 10) by simp only [maxWord] at bounded; omega)
          (by decide) (by decide)
        have named : (if held.version = 0 then 0 else 1 + Wire.varint held.version) ≤ 11 := by
          split <;> omega
        change Wire.bytes key + Wire.field held.value.length
            + (if held.version = 0 then 0 else 1 + Wire.varint held.version)
          ≤ _
        omega
  have whole := Wire.field_le
    (show Wire.catalogChange (Catalog.encode key { record, data }) < 2 ^ 28 by omega)
  omega

theorem Ephemeris.measured (row : Bytes × Row Ephemeris.Content)
    : (Pagination.format Ephemeris.encoding).Measured Wire.ephemerisChange row := by
  obtain ⟨key, record, data⟩ := row
  intro small
  change key.length
      + (record.elim 0 fun held => held.data.length + if data then 0 else held.attr.length) + 48
    ≤ hard at small
  change Wire.field (Wire.ephemerisChange (Ephemeris.encode key { record, data })) ≤ key.length
      + (record.elim 0 fun held => held.data.length + if data then 0 else held.attr.length) + 48
  simp only [hard] at small
  have name := Wire.bytes_le (show key.length < 2 ^ 28 by omega)
  have inner : Wire.ephemerisChange (Ephemeris.encode key { record, data }) ≤ key.length
        + (record.elim 0 fun held => held.data.length + if data then 0 else held.attr.length)
        + 21 := by
    cases record with
    | none =>
        have erased : Wire.registering .erase = 2 := by decide
        simp only [Ephemeris.encode, Wire.ephemerisChange, erased, Option.elim_none]
        omega
    | some held =>
        simp only [Option.elim_some] at small ⊢
        cases data with
        | true =>
            simp only [if_true] at small ⊢
            have value := Wire.field_le (show held.data.length < 2 ^ 28 by omega)
            change Wire.bytes key + Wire.field held.data.length ≤ _
            omega
        | false =>
            simp only [Bool.false_eq_true, if_false] at small ⊢
            have attr := Wire.bytes_le (show held.attr.length < 2 ^ 28 by omega)
            have value := Wire.bytes_le (show held.data.length < 2 ^ 28 by omega)
            have both := Wire.field_le
              (show Wire.bytes held.attr + Wire.bytes held.data < 2 ^ 28 by omega)
            change Wire.bytes key + Wire.field (Wire.bytes held.attr + Wire.bytes held.data) ≤ _
            omega
  have whole := Wire.field_le
    (show Wire.ephemerisChange (Ephemeris.encode key { record, data }) < 2 ^ 28 by omega)
  omega

end Astra
