import Verdandi.Comet.Feeding
import Verdandi.Comet.Table

/-! What a view installs over any sequence of streams and pages, and the bytes that it reserves
for it in the budget that all objects of a client share.
-/

namespace Comet

open Astra Support Proto

variable {Change Record : Type}

-- How large tables are

section Sizes

variable {Layout Held : Type}

/-- `sizeof(Table)` and `sizeof(Draft)`: 256 shared pointers, once or twice, the bitmap of a
draft, and three counters. -/
def Table.space : Nat := 4120
def Draft.space : Nat := 8248

/-- `footprint()`, where an entry takes `each` bytes besides its key and payload. -/
def Table.footprint (each : Nat) (table : Table) : Nat :=
  table.bytes + Table.space + table.size * each + table.overhead

def Draft.footprint (each : Nat) (draft : Draft) : Nat :=
  draft.bytes + Draft.space + draft.size * each + draft.overhead

variable {storage : Storage Layout Held} {heap : Heap Layout Held} {draft : Draft}

/-- Empty pages are only given back. -/
theorem Draft.release_le {result next : Links × Nat} {slot : Fin 256}
    (released : draft.release storage heap result slot = .ok next) : next.2 ≤ result.2 := by
  unfold Draft.release at released
  split at released
  · cases released
  rename_i link _
  cases fetched : fetch heap link with
  | error fault => simp [fetched, bind, Except.bind] at released
  | ok page =>
      simp only [fetched, bind, Except.bind] at released
      split at released
      · cases taken : subtract result.2 (storage.measure page.layout) with
        | error fault => simp [taken] at released
        | ok overhead =>
            simp only [taken, pure, Except.pure, Except.ok.injEq] at released
            subst released
            simp only [subtract] at taken
            split at taken
            · cases taken
              exact Nat.sub_le _ _
            · cases taken
      · simp only [pure, Except.pure, Except.ok.injEq] at released
        subst released
        exact le_rfl

/-- A fold of steps that never raise a measure does not raise it. -/
theorem foldlM_le {S A E : Type} (measure : S → Nat) {act : S → A → Except E S} {items : List A}
    (lowers : ∀ state item next, act state item = .ok next → measure next ≤ measure state)
    {start last : S} (folded : items.foldlM act start = .ok last) : measure last ≤ measure start := by
  induction items generalizing start with
  | nil =>
      cases folded
      exact le_rfl
  | cons item rest ih =>
      rw [List.foldlM_cons] at folded
      cases first : act start item with
      | error fault =>
          rw [first] at folded
          cases folded
      | ok next =>
          rw [first] at folded
          exact le_trans (ih folded) (lowers start item next first)

/-- A published table is no larger than its draft was. -/
theorem Draft.footprint_finish {table : Table} (finished : draft.finish storage heap = .ok table)
    (each : Nat)
    : table.footprint each ≤ draft.footprint each := by
  unfold Draft.finish at finished
  cases folded : (List.finRange 4).foldlM (fun result group =>
      (Bits.scan (draft.changed group)).foldlM
        (fun result bit =>
          draft.release storage heap result (Fin.ofNat 256 (group * 64 + bit))) result)
      (draft.pages, draft.overhead) with
  | error fault =>
      simp only [folded, bind, Except.bind] at finished
      cases finished
  | ok result =>
      simp only [folded, bind, Except.bind, pure, Except.pure, Except.ok.injEq] at finished
      subst finished
      have less : result.2 ≤ draft.overhead :=
        foldlM_le Prod.snd (fun _ _ _ inner =>
          foldlM_le Prod.snd (fun _ _ _ released => Draft.release_le released) inner) folded
      simp only [Table.footprint, Draft.footprint, Table.space, Draft.space]
      omega

/-- What `accept` measures of a page: the draft, the keys it remembers, and the table that the
draft becomes. -/
structure Sizes where
  draft : Nat
  seen : Nat
  table : Nat
  shrinks : table ≤ draft

def Sizes.of (storage : Storage Layout Held) (heap : Heap Layout Held) (draft : Draft)
    (table : Table) (finished : draft.finish storage heap = .ok table) (each seen : Nat)
    : Sizes where
  draft := draft.footprint each
  seen := seen
  table := table.footprint each
  shrinks := draft.footprint_finish finished each

end Sizes

-- The shared budget

/-- `Core::resize`: the total after one reservation became another, if the limit allows it. -/
def Budget.resize (limit total previous requested : Nat) : Option Nat :=
  if total < previous ∨ requested > limit - (total - previous) then none
  else some (total - previous + requested)

variable {limit total previous requested others : Nat}

/-- A reservation that does not grow is always granted. -/
theorem Budget.resize_shrink (accounted : total = previous + others) (within : total ≤ limit)
    (less : requested ≤ previous)
    : Budget.resize limit total previous requested = some (requested + others) := by
  unfold Budget.resize
  rw [if_neg (by omega)]
  congr 1
  omega

theorem Budget.resize_some {next : Nat} (accounted : total = previous + others)
    (within : total ≤ limit) (granted : Budget.resize limit total previous requested = some next)
    : next = requested + others ∧ next ≤ limit := by
  unfold Budget.resize at granted
  split at granted
  · cases granted
  rename_i fits
  cases granted
  omega

-- A view with its reservation

/-- A view, the footprint of what it has installed, what it has reserved, what all other objects
have reserved, and the shared total. -/
structure Holder (Record : Type) where
  installer : Installer Record
  footprint : Nat := 0
  reserved : Nat := 0
  others : Nat := 0
  limit : Nat
  total : Nat := 0

namespace Holder

/-- `reserve`: ask for another reservation. -/
def reserve (holder : Holder Record) (requested : Nat) : Holder Record × Bool :=
  match Budget.resize holder.limit holder.total holder.reserved requested with
  | none => (holder, false)
  | some total => ({ holder with reserved := requested, total }, true)

/-- What `discard` does to the reservation: only the installed content is left. -/
def settle (holder : Holder Record) : Holder Record :=
  (holder.reserve holder.footprint).1

def other (holder : Holder Record) (previous requested : Nat) : Holder Record :=
  if previous ≤ holder.others then
    match Budget.resize holder.limit holder.total previous requested with
    | none => holder
    | some total => { holder with others := holder.others - previous + requested, total }
  else
    holder

def interleave (holder : Holder Record) (changes : List (Nat × Nat)) : Holder Record :=
  changes.foldl (fun holder change => holder.other change.1 change.2) holder

def begin (holder : Holder Record) (expected : Bytes) : Holder Record :=
  { holder with installer := holder.installer.begin expected }.settle

/-- A page with the sizes it has here. Other objects change their reservations between the two
calls of `reserve`. A refused page may have been refused before the first of them, which
`refusedLate` denies. -/
structure Arrival (Change : Type) where
  page : WatchReply Change
  sizes : Sizes
  between : List (Nat × Nat) := []
  refusedLate : Bool := false

/-- `accept`: the first reservation is for the installed content together with the candidate, the
second, in `discard`, for what is installed afterwards. -/
def accept (policy : Policy Change Record) (holder : Holder Record) (arrival : Arrival Change)
    : Holder Record × Except Code Unit :=
  let prepared := arrival.sizes.draft + arrival.sizes.seen
  let (asked, granted) :=
    if prepared ≤ holder.installer.bytes * 2 then holder.reserve (prepared + holder.footprint)
    else (holder, false)
  let room : Room Record :=
    { prepared := fun _ _ => granted
      published := fun _ => decide (arrival.sizes.table ≤ holder.installer.bytes) }
  match holder.installer.attempt policy room arrival.page with
  | .error code =>
      let stopped := (if arrival.refusedLate then asked else holder).interleave arrival.between
      ({ stopped with installer := holder.installer.fail }.settle, .error code)
  | .ok next =>
      if arrival.page.complete then
        ({ asked.interleave arrival.between with
            installer := next, footprint := arrival.sizes.table }.settle, .ok ())
      else
        ({ asked with installer := next }, .ok ())

end Holder

-- What a batch amounts to

/-- The rows of a batch one after the other, without any check of their number or size. -/
def Policy.replay (policy : Policy Change Record) (mode : Mode) (old : Bytes → Option Record)
    (base : Assoc Bytes Record) (rows : List Change)
    : Except Code (Assoc Bytes Record) :=
  rows.foldlM (fun data change =>
    (policy.install mode (old (policy.key change)) change).map (data.amend (policy.key change)))
    base

namespace Installer

def old (installer : Installer Record) (key : Bytes) : Option Record :=
  installer.current.bind (·.data.get? key)

/-- The candidate is the rows of the batch so far, and remembers the key of each. -/
def Collected (policy : Policy Change Record) (installer : Installer Record) (rows : List Change)
    : Prop :=
  match installer.draft with
  | none => rows = [] ∧ installer.seen = []
  | some draft =>
      rows ≠ []
        ∧ policy.replay installer.mode installer.old (installer.base installer.mode) rows = .ok draft
        ∧ installer.seen = (rows.map policy.key).reverse
        ∧ (rows.map policy.key).Nodup

/-- What a row that was taken does: its record is amended, and its key is remembered where keys
are. -/
structure Taken (policy : Policy Change Record) (installer : Installer Record) (track : Bool)
    (change : Change) (work next : Work Record)
    : Prop where
  installs : (policy.install installer.mode (installer.old (policy.key change)) change).map
    (work.draft.amend (policy.key change)) = .ok next.draft
  seen : next.seen = if track then policy.key change :: work.seen else work.seen
  fresh : track = true → policy.key change ∉ work.seen

variable {policy : Policy Change Record} {installer : Installer Record} {track : Bool}
variable {work : Work Record}

theorem row_taken_spec {change : Change} {next : Work Record}
    (taken : installer.row policy track work change = .ok next)
    : Taken policy installer track change work next := by
  simp only [Installer.row] at taken
  split at taken
  · cases taken
  split at taken
  · cases taken
  split at taken
  · cases taken
  rename_i unseen
  split at taken
  · cases taken
  rename_i record installed
  split at taken
  · cases taken
  · cases taken
    refine ⟨?_, rfl, fun tracked => ?_⟩
    · have same : policy.install installer.mode (installer.old (policy.key change)) change
          = .ok record := installed
      rw [same]
      rfl
    · simpa [tracked] using unseen

/-- Rows that were taken one after the other, by induction on them. -/
theorem rows_taken_spec {changes : List Change} {last : Work Record}
    (filled : changes.foldlM (installer.row policy track) work = .ok last)
    : policy.replay installer.mode installer.old work.draft changes = .ok last.draft
      ∧ (track = true → last.seen = (changes.map policy.key).reverse ++ work.seen
        ∧ (work.seen.Nodup → last.seen.Nodup))
      ∧ (track = false → last.seen = work.seen) := by
  induction changes generalizing work with
  | nil =>
      cases filled
      exact ⟨rfl, fun _ => ⟨rfl, fun distinct => distinct⟩, fun _ => rfl⟩
  | cons change rest ih =>
      rw [List.foldlM_cons] at filled
      cases first : installer.row policy track work change with
      | error code =>
          rw [first] at filled
          cases filled
      | ok next =>
          rw [first] at filled
          have taken := row_taken_spec first
          obtain ⟨replayed, remembered, ignored⟩ := ih filled
          refine ⟨?_, fun tracked => ?_, fun untracked => ?_⟩
          · have installs := taken.installs
            unfold Policy.replay at replayed ⊢
            rw [List.foldlM_cons, installs]
            exact replayed
          · obtain ⟨listed, distinct⟩ := remembered tracked
            have seen := taken.seen
            simp only [tracked, if_true] at seen
            rw [seen] at listed distinct
            refine ⟨by simp [listed], fun before => distinct ?_⟩
            exact List.nodup_cons.mpr ⟨taken.fresh tracked, before⟩
          · have seen := taken.seen
            simp only [untracked, Bool.false_eq_true, if_false] at seen
            rw [ignored untracked, seen]

variable {mode : Mode} {rows : List Change}

theorem replay_append {old : Bytes → Option Record} {base draft : Assoc Bytes Record}
    {more : List Change} (before : policy.replay mode old base rows = .ok draft)
    : policy.replay mode old base (rows ++ more) = policy.replay mode old draft more := by
  unfold Policy.replay at before ⊢
  rw [List.foldlM_append, before]
  rfl

/-- What an accepted page does. Only the last page of a batch installs something: the rows of
all its pages, with no key twice, within the limits of the view, and not behind the version that
is installed for the same instance, or for any of them where versions cross. -/
structure Accepted (policy : Policy Change Record) (before next : Installer Record)
    (page : WatchReply Change) (rows : List Change)
    : Prop where
  valid : before.valid = true
  bytes : next.bytes = before.bytes
  records : next.records = before.records
  partial_ : page.complete = false → page.changes ≠ [] ∧ next.current = before.current
      ∧ Collected policy next (rows ++ page.changes)
  whole : page.complete = true → ∃ data, next.current
        = some { data, «instance» := page.instance, version := page.version.getD 0 }
      ∧ policy.replay page.mode before.old (before.base page.mode) (rows ++ page.changes) = .ok data
      ∧ ((rows ++ page.changes).map policy.key).Nodup
      ∧ data.size ≤ before.records ∧ weigh policy data ≤ before.bytes
      ∧ (∀ held, before.current = some held
        → policy.crossing = true ∨ held.instance = page.instance
        → held.version ≤ page.version.getD 0)
      ∧ Collected policy next []

variable {before : Installer Record}

/-- The candidate that a page finds. -/
theorem collected_open {opened : Installer Record} (collected : Collected policy before rows)
    (isOpen : before.open' mode = .ok opened)
    : opened = { before with mode, draft := opened.draft }
      ∧ policy.replay mode before.old (before.base mode) rows = .ok (opened.draft.getD ∅)
      ∧ before.seen = (rows.map policy.key).reverse ∧ (rows.map policy.key).Nodup
      ∧ opened.draft.isSome = true := by
  unfold Collected at collected
  unfold Installer.open' at isOpen
  split at isOpen
  next noDraft =>
    rw [noDraft] at collected
    obtain ⟨rfl, unseen⟩ := collected
    split at isOpen
    · cases isOpen
    · cases isOpen
      exact ⟨rfl, rfl, unseen, List.nodup_nil, rfl⟩
  rename_i draft isDraft
  rw [isDraft] at collected
  obtain ⟨_, replayed, seen, distinct⟩ := collected
  split at isOpen
  · cases isOpen
  rename_i same
  cases isOpen
  simp only [ne_eq, not_not] at same
  subst same
  refine ⟨rfl, ?_, seen, distinct, by simp [isDraft]⟩
  rw [isDraft]
  exact replayed

variable {next : Installer Record} {room : Room Record} {page : WatchReply Change}

/-- An accepted page meets `Accepted`. -/
theorem attempt_accepted (collected : Collected policy before rows)
    (taken : before.attempt policy room page = .ok next)
    : Accepted policy before next page rows := by
  simp only [Installer.attempt] at taken
  split at taken
  · cases taken
  rename_i shaped
  split at taken
  · cases taken
  rename_i continuing
  cases isOpen : before.open' page.mode with
  | error code =>
      rw [isOpen] at taken
      cases taken
  | ok opened =>
      rw [isOpen] at taken
      dsimp only at taken
      obtain ⟨same, replayed, seen, distinct, _⟩ := collected_open collected isOpen
      have current : opened.current = before.current := by rw [same]
      have bytes : opened.bytes = before.bytes := by rw [same]
      have records : opened.records = before.records := by rw [same]
      have isMode : opened.mode = page.mode := by rw [same]
      have isSeen : opened.seen = before.seen := by rw [same]
      have isOld : opened.old = before.old := by
        funext key
        simp only [old, current]
      simp only [wellFormed, Bool.not_eq_true', Bool.not_eq_false, Bool.and_eq_true,
        Bool.or_eq_true] at shaped
      split at taken
      · cases taken
      · split at taken
        · cases taken
        rename_i work filled
        obtain ⟨filledRows, remembered, ignored⟩ := rows_taken_spec filled
        rw [isMode, isOld] at filledRows
        have whole := (replay_append replayed).trans filledRows
        split at taken
        · cases taken
        split at taken
        next partly =>
          -- More pages follow, so the page was tracked and has a row.
          cases taken
          simp only [Bool.not_eq_true'] at partly
          have rowful : page.changes ≠ [] := by
            have last := shaped.1.2
            simpa [partly, List.isEmpty_iff] using last
          obtain ⟨listed, fresh⟩ := remembered (by simp [partly])
          refine
            { valid := shaped.1.1.1.1.1, bytes, records
              partial_ := fun _ => ⟨rowful, current, ?_⟩
              whole := fun full => absurd (full.symm.trans partly) (by decide) }
          refine ⟨by simp [rowful], ?_, ?_, ?_⟩
          · show policy.replay opened.mode opened.old (opened.base opened.mode) _ = _
            rw [isMode, isOld]
            have isBase : opened.base page.mode = before.base page.mode := by
              simp only [Installer.base, current]
            rw [isBase]
            exact whole
          · rw [listed, isSeen, seen]
            simp
          · have keys : work.seen = ((rows ++ page.changes).map policy.key).reverse := by
              rw [listed, isSeen, seen]
              simp
            have all := fresh (by rw [isSeen, seen]; exact List.nodup_reverse.mpr distinct)
            rw [keys] at all
            exact List.nodup_reverse.mp all
        rename_i full
        simp only [Bool.not_eq_true', Bool.not_eq_false] at full
        split at taken
        · cases taken
        rename_i fits
        split at taken
        · cases taken
        split at taken
        · cases taken
        cases taken
        simp only [not_or, not_lt] at fits
        refine
          { valid := shaped.1.1.1.1.1, bytes, records
            partial_ := fun partly => absurd (full.symm.trans partly) (by decide)
            whole := fun _ => ⟨work.draft, rfl, whole, ?_, ?_, ?_, ?_, ⟨rfl, rfl⟩⟩ }
        · -- One row without tracking is the whole batch.
          cases track : !page.complete || page.changes.length != 1
              || !opened.seen.isEmpty with
          | true =>
              obtain ⟨listed, fresh⟩ := remembered track
              have keys : work.seen = ((rows ++ page.changes).map policy.key).reverse := by
                rw [listed, isSeen, seen]
                simp
              have all := fresh (by
                rw [isSeen, seen]
                exact List.nodup_reverse.mpr distinct)
              rw [keys] at all
              exact List.nodup_reverse.mp all
          | false =>
              simp only [Bool.or_eq_false_iff, bne_eq_false_iff_eq, Bool.not_eq_false',
                List.isEmpty_iff] at track
              obtain ⟨⟨_, single⟩, unseen⟩ := track
              have noRows : rows = [] := by
                rw [isSeen, seen] at unseen
                simpa using unseen
              obtain ⟨change, isChange⟩ := List.length_eq_one_iff.mp single
              simp [noRows, isChange]
        · exact records ▸ fits.1
        · exact bytes ▸ fits.2
        · intro held isHeld cross
          simp only [full, Bool.true_and, Bool.not_eq_true', Bool.not_eq_false,
            continues, Bool.and_eq_true, isHeld, Option.all_some, Bool.or_eq_true,
            decide_eq_true_eq, bne_iff_ne] at continuing
          rcases continuing.2 with ⟨ordered, apart⟩ | newer
          · rcases cross with crossing | sameInstance
            · simp [crossing] at ordered
            · exact absurd sameInstance apart
          · exact newer

theorem attempt_of_invalid (invalid : before.valid = false) (page : WatchReply Change)
    : before.attempt policy room page = .error .protocol := by
  simp [Installer.attempt, wellFormed, invalid]

/-- A page is only accepted where there was room for its candidate. -/
theorem prepared_of_attempt (taken : before.attempt policy room page = .ok next)
    : ∃ draft seen, room.prepared draft seen = true := by
  simp only [Installer.attempt] at taken
  split at taken
  · cases taken
  split at taken
  · cases taken
  split at taken
  · cases taken
  split at taken
  · cases taken
  split at taken
  · cases taken
  rename_i work _
  split at taken
  · cases taken
  rename_i granted
  refine ⟨work.draft, work.seen, ?_⟩
  simpa using granted

end Installer

-- What is reserved

namespace Holder

/-- The shared total is what all objects have reserved, and this one has reserved what it has
installed. -/
structure Accounted (holder : Holder Record) : Prop where
  total : holder.total = holder.reserved + holder.others
  within : holder.total ≤ holder.limit
  covers : holder.footprint ≤ holder.reserved

structure Alike (holder next : Holder Record) : Prop where
  installer : next.installer = holder.installer
  footprint : next.footprint = holder.footprint

variable {holder : Holder Record}

/-- Giving back what is not installed never fails. -/
theorem Accounted.settle (accounted : Accounted holder)
    : Accounted holder.settle ∧ Alike holder holder.settle
      ∧ holder.settle.reserved = holder.footprint := by
  have granted := Budget.resize_shrink accounted.total accounted.within accounted.covers
  have settled : holder.settle = { holder with
          reserved := holder.footprint, total := holder.footprint + holder.others } := by
    simp [Holder.settle, reserve, granted]
  rw [settled]
  refine ⟨⟨rfl, ?_, le_rfl⟩, ⟨rfl, rfl⟩, rfl⟩
  have total := accounted.total
  have within := accounted.within
  have covers := accounted.covers
  show holder.footprint + holder.others ≤ holder.limit
  omega

theorem Accounted.other (accounted : Accounted holder) (previous requested : Nat)
    : Accounted (holder.other previous requested) ∧ Alike holder (holder.other previous requested)
      ∧ (holder.other previous requested).reserved = holder.reserved := by
  unfold Holder.other
  split
  next owned =>
    split
    · exact ⟨accounted, ⟨rfl, rfl⟩, rfl⟩
    rename_i total granted
    have isTotal := accounted.total
    have split : holder.total = previous + (holder.reserved + (holder.others - previous)) := by
      omega
    obtain ⟨grown, within⟩ := Budget.resize_some split accounted.within granted
    refine ⟨⟨?_, within, accounted.covers⟩, ⟨rfl, rfl⟩, rfl⟩
    show total = holder.reserved + (holder.others - previous + requested)
    omega
  · exact ⟨accounted, ⟨rfl, rfl⟩, rfl⟩

theorem Accounted.interleave (accounted : Accounted holder) (changes : List (Nat × Nat))
    : Accounted (holder.interleave changes) ∧ Alike holder (holder.interleave changes)
      ∧ (holder.interleave changes).reserved = holder.reserved := by
  induction changes generalizing holder with
  | nil => exact ⟨accounted, ⟨rfl, rfl⟩, rfl⟩
  | cons change rest ih =>
      obtain ⟨kept, alike, same⟩ := accounted.other change.1 change.2
      obtain ⟨last, after, still⟩ := ih kept
      exact ⟨last, ⟨after.installer.trans alike.installer, after.footprint.trans alike.footprint⟩,
        still.trans same⟩

/-- A larger reservation that is granted. -/
theorem Accounted.reserve (accounted : Accounted holder) {requested : Nat}
    (larger : holder.footprint ≤ requested)
    : Accounted (holder.reserve requested).1 ∧ Alike holder (holder.reserve requested).1
      ∧ ((holder.reserve requested).2 = true
        → (holder.reserve requested).1.reserved = requested) := by
  unfold Holder.reserve
  split
  · exact ⟨accounted, ⟨rfl, rfl⟩, fun no => (nomatch no)⟩
  rename_i total granted
  obtain ⟨grown, within⟩ := Budget.resize_some accounted.total accounted.within granted
  exact ⟨⟨grown, within, larger⟩, ⟨rfl, rfl⟩, fun _ => rfl⟩

/-- What one page does to a view: it is refused and changes nothing but the stream, or it is
accepted. The reservation covers what is installed afterwards; without a candidate it is just
that. -/
structure Outcome (policy : Policy Change Record) (before next : Holder Record)
    (page : WatchReply Change) (rows : List Change) (result : Except Code Unit)
    : Prop where
  accounted : Accounted next
  refused : ∀ code, result = .error code → next.installer.current = before.installer.current
    ∧ next.footprint = before.footprint ∧ next.installer.valid = false
    ∧ next.reserved = next.footprint ∧ Installer.Collected policy next.installer []
    ∧ next.installer.bytes = before.installer.bytes
    ∧ next.installer.records = before.installer.records
  accepted : result = .ok () → Installer.Accepted policy before.installer next.installer page rows
    ∧ (page.complete = true → next.reserved = next.footprint)
    ∧ (page.complete = false → next.footprint = before.footprint)

theorem accept_outcome {policy : Policy Change Record} {rows : List Change}
    (accounted : Accounted holder) (collected : Installer.Collected policy holder.installer rows)
    (arrival : Arrival Change)
    : Outcome policy holder (holder.accept policy arrival).1 arrival.page rows
        (holder.accept policy arrival).2 := by
  simp only [Holder.accept]
  -- Whether or not the first reservation was granted, it covers what is installed.
  generalize isAsked : (if arrival.sizes.draft + arrival.sizes.seen ≤ holder.installer.bytes * 2 then
    holder.reserve (arrival.sizes.draft + arrival.sizes.seen + holder.footprint)
    else (holder, false)) = asked
  obtain ⟨asked, granted⟩ := asked
  have asks : Accounted asked ∧ Alike holder asked
      ∧ (granted = true
        → asked.reserved = arrival.sizes.draft + arrival.sizes.seen + holder.footprint) := by
    split at isAsked
    · have reserved := accounted.reserve
        (by omega : holder.footprint
          ≤ arrival.sizes.draft + arrival.sizes.seen + holder.footprint)
      rw [isAsked] at reserved
      exact reserved
    · cases isAsked
      exact ⟨accounted, ⟨rfl, rfl⟩, fun no => (nomatch no)⟩
  obtain ⟨reserved, alike, exactly⟩ := asks
  dsimp only
  split
  next code refused =>
    have stopped : Accounted (if arrival.refusedLate then asked else holder)
        ∧ Alike holder (if arrival.refusedLate then asked else holder) := by
      split
      · exact ⟨reserved, alike⟩
      · exact ⟨accounted, ⟨rfl, rfl⟩⟩
    obtain ⟨kept, same, _⟩ := stopped.1.interleave arrival.between
    have footprint := same.footprint.trans stopped.2.footprint
    have stops : Accounted
        { (if arrival.refusedLate then asked else holder).interleave arrival.between with
          installer := holder.installer.fail } :=
      ⟨kept.total, kept.within, kept.covers⟩
    obtain ⟨settled, after, exact_⟩ := stops.settle
    refine ⟨settled, fun _ _ => ?_, fun no => (nomatch no)⟩
    rw [after.installer, after.footprint]
    exact ⟨rfl, footprint, rfl, exact_, ⟨rfl, rfl⟩, rfl, rfl⟩
  rename_i next taken
  have accepted := Installer.attempt_accepted collected taken
  obtain ⟨_, _, isGranted⟩ := Installer.prepared_of_attempt taken
  have held := exactly isGranted
  split
  next full =>
    obtain ⟨kept, same, still⟩ := reserved.interleave arrival.between
    have shrinks := arrival.sizes.shrinks
    have installs : Accounted
        { asked.interleave arrival.between with
          installer := next, footprint := arrival.sizes.table } := by
      refine ⟨kept.total, kept.within, ?_⟩
      show arrival.sizes.table ≤ (asked.interleave arrival.between).reserved
      omega
    obtain ⟨settled, after, exact_⟩ := installs.settle
    refine ⟨settled, fun _ no => (nomatch no), fun _ => ⟨?_, fun _ => ?_, fun partly => ?_⟩⟩
    · rw [after.installer]
      exact accepted
    · rw [after.footprint]
      exact exact_
    · simp [full] at partly
  rename_i partly
  refine ⟨⟨reserved.total, reserved.within, reserved.covers⟩, fun _ no => (nomatch no),
    fun _ => ⟨accepted, fun full => absurd full partly, fun _ => alike.footprint⟩⟩

-- Runs

/-- What happens to a view: a new stream, a page of it, or another object changes what it has
reserved. -/
inductive Label (Change : Type) where
  | begin (expected : Bytes)
  | page (arrival : Arrival Change)
  | other (previous requested : Nat)

def step (policy : Policy Change Record) (holder : Holder Record) : Label Change → Holder Record
  | .begin expected => holder.begin expected
  | .page arrival => (holder.accept policy arrival).1
  | .other previous requested => holder.other previous requested

/-- The rows of the batch under way: those of the accepted pages since it began. -/
def collect (policy : Policy Change Record) (holder : Holder Record) (rows : List Change)
    : Label Change → List Change
  | .begin _ => []
  | .page arrival =>
      match (holder.accept policy arrival).2 with
      | .error _ => []
      | .ok () => if arrival.page.complete then [] else rows ++ arrival.page.changes
  | .other _ _ => rows

def advance (policy : Policy Change Record) (state : Holder Record × List Change)
    (label : Label Change) : Holder Record × List Change :=
  (state.1.step policy label, state.1.collect policy state.2 label)

/-- A new view of a client with this budget, and all that happens to it. -/
def run (policy : Policy Change Record) (target : Bytes) (bytes records limit : Nat)
    (labels : List (Label Change)) : Holder Record × List Change :=
  labels.foldl (advance policy) ({ installer := { target, bytes, records }, limit }, [])

/-- What holds between steps: the candidate is the rows of its batch, the reservation covers what
is installed and is just that without a candidate, and what is installed is within the limits. -/
structure Sound (policy : Policy Change Record) (bytes records : Nat) (holder : Holder Record)
    (rows : List Change)
    : Prop where
  collected : Installer.Collected policy holder.installer rows
  accounted : Accounted holder
  settled : holder.installer.draft = none → holder.reserved = holder.footprint
  bytes_eq : holder.installer.bytes = bytes
  records_eq : holder.installer.records = records
  fits : ∀ held, holder.installer.current = some held
    → held.data.size ≤ records ∧ weigh policy held.data ≤ bytes

theorem begin_spec (accounted : Accounted holder) (expected : Bytes)
    : Accounted (holder.begin expected)
      ∧ (holder.begin expected).installer = holder.installer.begin expected
      ∧ (holder.begin expected).footprint = holder.footprint
      ∧ (holder.begin expected).reserved = holder.footprint := by
  have begins : Accounted { holder with installer := holder.installer.begin expected } :=
    ⟨accounted.total, accounted.within, accounted.covers⟩
  obtain ⟨kept, alike, exact_⟩ := begins.settle
  exact ⟨kept, alike.installer, alike.footprint, exact_⟩

theorem Sound.advance {policy : Policy Change Record} {bytes records : Nat}
    {state : Holder Record × List Change} (sound : Sound policy bytes records state.1 state.2)
    (label : Label Change)
    : Sound policy bytes records (advance policy state label).1 (advance policy state label).2 := by
  obtain ⟨holder, rows⟩ := state
  cases label with
  | begin expected =>
      obtain ⟨kept, installer, footprint, reserved⟩ := begin_spec sound.accounted expected
      refine ⟨?_, kept, fun _ => reserved.trans footprint.symm, ?_, ?_, ?_⟩ <;>
        simp only [Holder.advance, step, installer]
      · exact ⟨rfl, rfl⟩
      · exact sound.bytes_eq
      · exact sound.records_eq
      · exact sound.fits
  | other previous requested =>
      obtain ⟨kept, alike, reserved⟩ := sound.accounted.other previous requested
      refine ⟨?_, kept, fun noDraft => ?_, ?_, ?_, ?_⟩ <;>
        simp only [Holder.advance, step, collect, alike.installer, alike.footprint, reserved] at *
      · exact sound.collected
      · exact sound.settled noDraft
      · exact sound.bytes_eq
      · exact sound.records_eq
      · exact sound.fits
  | page arrival =>
      have outcome := accept_outcome sound.accounted sound.collected arrival
      simp only [Holder.advance, step, collect]
      cases result : (holder.accept policy arrival).2 with
      | error code =>
          obtain ⟨current, footprint, _, settled, collected, bytes, records⟩ :=
            outcome.refused code result
          exact ⟨collected, outcome.accounted, fun _ => settled, bytes.trans sound.bytes_eq,
            records.trans sound.records_eq, current ▸ sound.fits⟩
      | ok done =>
          obtain ⟨accepted, settled, _⟩ := outcome.accepted result
          cases full : arrival.page.complete with
          | false =>
              obtain ⟨rowful, current, collected⟩ := accepted.partial_ full
              refine ⟨collected, outcome.accounted, fun noDraft => ?_,
                accepted.bytes.trans sound.bytes_eq, accepted.records.trans sound.records_eq,
                current ▸ sound.fits⟩
              simp only [Installer.Collected, noDraft, List.append_eq_nil_iff] at collected
              exact absurd collected.1.2 rowful
          | true =>
              obtain ⟨data, current, _, _, few, light, _, collected⟩ := accepted.whole full
              refine ⟨collected, outcome.accounted, fun _ => settled full,
                accepted.bytes.trans sound.bytes_eq, accepted.records.trans sound.records_eq,
                fun held isHeld => ?_⟩
              cases current.symm.trans isHeld
              exact ⟨sound.records_eq ▸ few, sound.bytes_eq ▸ light⟩

theorem Sound.run (policy : Policy Change Record) (target : Bytes) (bytes records limit : Nat)
    (labels : List (Label Change))
    : Sound policy bytes records (run policy target bytes records limit labels).1
        (run policy target bytes records limit labels).2 := by
  induction labels using List.reverseRecOn with
  | nil =>
      exact ⟨⟨rfl, rfl⟩, ⟨rfl, Nat.zero_le _, le_rfl⟩, fun _ => rfl, rfl, rfl,
        fun _ no => (nomatch no)⟩
  | append_singleton labels label ih =>
      simp only [Holder.run, List.foldl_append, List.foldl_cons, List.foldl_nil]
      exact ih.advance label

/-- After any streams and pages, what is installed is within the limits of the view and covered
by its reservation, which is just that when no batch is under way. A page that is refused changes
neither content, instance and version nor what later pages meet until the next stream: they are
refused too. A page that is accepted installs something only as the last one of its batch, and
then all rows of the batch, with no key twice, at a version that is not behind the installed one
of the same instance (or of any, for a projection). -/
theorem holding_law (policy : Policy Change Record) (target : Bytes) (bytes records limit : Nat)
    (labels : List (Label Change))
    : let state := run policy target bytes records limit labels
      let holder := state.1
      (∀ held, holder.installer.current = some held
          → held.data.size ≤ records ∧ weigh policy held.data ≤ bytes)
        ∧ Accounted holder
        ∧ (holder.installer.draft = none → holder.reserved = holder.footprint)
        ∧ (∀ arrival, Outcome policy holder (holder.accept policy arrival).1 arrival.page state.2
            (holder.accept policy arrival).2)
        ∧ (holder.installer.valid = false → ∀ arrival,
            (holder.accept policy arrival).2 = .error .protocol)
        ∧ (∀ expected, (holder.begin expected).installer = holder.installer.begin expected
            ∧ (holder.begin expected).footprint = holder.footprint
            ∧ (holder.begin expected).reserved = holder.footprint)
        ∧ (∀ previous requested, Alike holder (holder.other previous requested)) := by
  intro state holder
  have sound : Sound policy bytes records holder state.2 :=
    Sound.run policy target bytes records limit labels
  refine ⟨sound.fits, sound.accounted, sound.settled,
    fun arrival => accept_outcome sound.accounted sound.collected arrival,
    fun invalid arrival => ?_, fun expected => ?_,
    fun previous requested => (sound.accounted.other previous requested).2.1⟩
  · simp only [Holder.accept, Installer.attempt_of_invalid invalid]
  · exact (begin_spec sound.accounted expected).2

def bare («instance» : Bytes) (version : Nat) : Arrival CatalogChange where
  page := { mode := .reset, changes := [], complete := true, version := some version, «instance» }
  sizes := { draft := 8248, seen := 0, table := 4120, shrinks := by decide }

theorem holding_law_bare
    : (run subscription [] 16384 16 65536 [.begin [], .page (bare [65] 5)]).1.reserved
      = (run subscription [] 16384 16 65536 [.begin [], .page (bare [65] 5)]).1.footprint :=
  (holding_law subscription [] 16384 16 65536 [.begin [], .page (bare [65] 5)]).2.2.1
    (Option.isNone_iff_eq_none.mp (by decide))

/-- A subscription only compares with what it has installed: an instance that comes back after
another one may be behind its own earlier version. -/
theorem version_of_instance_falls
    : ¬ ∀ (labels more : List (Label CatalogChange)) (held later : Contents Catalog.Content),
        (run subscription [] 16384 16 65536 labels).1.installer.current = some held
        → (run subscription [] 16384 16 65536 (labels ++ more)).1.installer.current = some later
        → held.instance = later.instance → held.version ≤ later.version := by
  intro never
  have first : ((run subscription [] 16384 16 65536
      [.begin [], .page (bare [65] 5)]).1.installer.current.map
      fun held => (held.instance, held.version)) = some ([65], 5) := by
    decide
  have second : ((run subscription [] 16384 16 65536 ([.begin [], .page (bare [65] 5)]
      ++ [.begin [], .page (bare [66] 3), .begin [], .page (bare [65] 2)])
      ).1.installer.current.map
      fun held => (held.instance, held.version)) = some ([65], 2) := by
    decide
  obtain ⟨held, isHeld, sameHeld⟩ := Option.map_eq_some_iff.mp first
  obtain ⟨later, isLater, sameLater⟩ := Option.map_eq_some_iff.mp second
  simp only [Prod.mk.injEq] at sameHeld sameLater
  have ordered := never _ _ held later isHeld isLater (sameHeld.1.trans sameLater.1.symm)
  omega

end Holder

end Comet
