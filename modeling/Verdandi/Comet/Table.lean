import Verdandi.Common.Scope
import Verdandi.Support.Assoc
import Verdandi.Support.Bits
import Verdandi.Support.Slots

/-! The paged dictionary of the client. A table shares immutable pages; a draft copies a page
before its first change and publishes the pages it changed, so the tables that were published
before keep theirs.
-/

namespace Comet

open Astra Support

-- Pages, tables and drafts

/-- One hash table: its entries, and the layout of its buckets that the standard library
chooses. -/
structure Page (Layout Record : Type) where
  entries : Assoc Bytes Record
  layout : Layout

/-- What hash tables and records decide: the hash of a key, the layout of an empty page, of a
copy and of a page that a key was inserted into, the space of a layout, and the payload of a
record. Erasing a key and replacing a record leave the layout. -/
structure Storage (Layout Record : Type) where
  hash : Bytes → Nat
  fresh : Layout
  copied : Page Layout Record → Layout
  grown : Page Layout Record → Bytes → Layout
  measure : Layout → Nat
  payload : Record → Nat

/-- The pages that have been allocated, found by their place. -/
abbrev Heap (Layout Record : Type) := List (Page Layout Record)

/-- The links of a root, one for each value of the lower eight bits of a hash. -/
abbrev Links := Fin 256 → Option Nat

structure Table where
  pages : Links := fun _ => none
  size : Nat := 0
  bytes : Nat := 0
  overhead : Nat := 0

/-- The private candidate of one batch: the pages it started from, its own copies, and a bitmap
of the latter. -/
structure Draft where
  pages : Links
  dirty : Links := fun _ => none
  changed : Fin 4 → BitVec 64 := fun _ => 0
  size : Nat
  bytes : Nat
  overhead : Nat

/-- The two refusals of `set`, and what must never happen: a difference below zero and a link
to no page. -/
inductive Fault where
  | record
  | bytes
  | underflow
  | missing
  deriving DecidableEq, Repr

/-- The largest value of `std::size_t`. -/
def sizeMax : Nat := 2 ^ 64 - 1

def subtract (left right : Nat) : Except Fault Nat :=
  if right ≤ left then .ok (left - right) else .error .underflow

def fetch {Layout Record : Type} (heap : Heap Layout Record) (link : Nat)
    : Except Fault (Page Layout Record) :=
  match heap[link]? with
  | some page => .ok page
  | none => .error .missing

inductive Change (Record : Type) where
  | set (key : Bytes) (record : Record)
  | erase (key : Bytes)

section Operations

variable {Layout Record : Type} (storage : Storage Layout Record)

/-- `Hash{}(key) & 255`. -/
def Storage.slot (key : Bytes) : Fin 256 :=
  ⟨storage.hash key &&& 255, Nat.lt_of_le_of_lt Nat.and_le_right (by simp)⟩

def Storage.cost (key : Bytes) (record : Record) : Nat :=
  key.length + storage.payload record

def Storage.copy : Option (Page Layout Record) → Page Layout Record
  | some page => { entries := page.entries, layout := storage.copied page }
  | none => { entries := ∅, layout := storage.fresh }

namespace Table

def find (heap : Heap Layout Record) (table : Table) (key : Bytes) : Option Record :=
  (table.pages (storage.slot key)).bind fun link =>
    heap[link]?.bind fun page => page.entries.get? key

def each (heap : Heap Layout Record) (table : Table) : List (Bytes × Record) :=
  (List.finRange 256).flatMap fun slot =>
    ((table.pages slot).bind fun link => heap[link]?).elim [] fun page => page.entries.toPairs

def draft (table : Table) : Draft :=
  { pages := table.pages, size := table.size, bytes := table.bytes, overhead := table.overhead }

end Table

namespace Draft

def edit (heap : Heap Layout Record) (draft : Draft) (slot : Fin 256)
    : Except Fault (Heap Layout Record × Draft × Nat) :=
  match draft.dirty slot with
  | some link => .ok (heap, draft, link)
  | none => do
      let old ← (draft.pages slot).mapM (fetch heap)
      let page := storage.copy old
      let overhead ← subtract draft.overhead (old.elim 0 fun page => storage.measure page.layout)
      let group : Fin 4 := Fin.ofNat 4 (slot / 64)
      return (heap ++ [page],
        { draft with
          dirty := Function.update draft.dirty slot (some heap.length)
          changed :=
            Function.update draft.changed group (Bits.insert (draft.changed group) (slot % 64))
          overhead := overhead + storage.measure page.layout },
        heap.length)

/-- Adds or replaces a record. A throw leaves the batch to be dropped as a whole. -/
def set (heap : Heap Layout Record) (draft : Draft) (key : Bytes) (record : Record)
    : Except Fault (Heap Layout Record × Draft) :=
  if storage.payload record > sizeMax - key.length then
    .error .record
  else do
    let cost := storage.cost key record
    let (heap, draft, link) ← draft.edit storage heap (storage.slot key)
    let page ← fetch heap link
    let entries := page.entries.set key record
    let others ← subtract draft.bytes ((page.entries.get? key).elim 0 (storage.cost key))
    if cost > sizeMax - others then
      .error .bytes
    else
      match page.entries.get? key with
      | some _ =>
          .ok (heap.set link { page with entries }, { draft with bytes := others + cost })
      | none => do
          let grown : Page Layout Record := { entries, layout := storage.grown page key }
          let rest ← subtract draft.overhead (storage.measure page.layout)
          .ok (heap.set link grown,
            { draft with
              bytes := others + cost
              size := draft.size + 1
              overhead := rest + storage.measure grown.layout })

def erase (heap : Heap Layout Record) (draft : Draft) (key : Bytes)
    : Except Fault (Heap Layout Record × Draft) := do
  let slot := storage.slot key
  let held ← (draft.pages slot).mapM (fetch heap)
  if (draft.dirty slot).isNone && !held.any (fun page => page.entries.contains key) then
    .ok (heap, draft)
  else do
    let (heap, draft, link) ← draft.edit storage heap slot
    let page ← fetch heap link
    match page.entries.get? key with
    | none => .ok (heap, draft)
    | some found => do
        let bytes ← subtract draft.bytes (storage.cost key found)
        let size ← subtract draft.size 1
        .ok (heap.set link { page with entries := page.entries.remove key },
          { draft with bytes, size })

def step (heap : Heap Layout Record) (draft : Draft)
    : Change Record → Except Fault (Heap Layout Record × Draft)
  | .set key record => draft.set storage heap key record
  | .erase key => draft.erase storage heap key

/-- Applies the changes of a batch in order, up to the first that throws. -/
def run (heap : Heap Layout Record) (draft : Draft)
    : List (Change Record) → Heap Layout Record × Except Fault Draft
  | [] => (heap, .ok draft)
  | change :: changes =>
      match draft.step storage heap change with
      | .error fault => (heap, .error fault)
      | .ok (heap, draft) => draft.run heap changes

def release (heap : Heap Layout Record) (draft : Draft) (result : Links × Nat) (slot : Fin 256)
    : Except Fault (Links × Nat) :=
  match draft.dirty slot with
  | none => .error .missing
  | some link => do
      let page ← fetch heap link
      if page.entries.size = 0 then
        let overhead ← subtract result.2 (storage.measure page.layout)
        return (Function.update result.1 slot none, overhead)
      else
        return (Function.update result.1 slot (some link), result.2)

def finish (heap : Heap Layout Record) (draft : Draft) : Except Fault Table := do
  let (pages, overhead) ← (List.finRange 4).foldlM (fun result group =>
      (Bits.scan (draft.changed group)).foldlM
        (fun result bit =>
          draft.release storage heap result (Fin.ofNat 256 (group * 64 + bit))) result)
    (draft.pages, draft.overhead)
  return { pages, size := draft.size, bytes := draft.bytes, overhead }

end Draft

def Table.revise (heap : Heap Layout Record) (base : Table) (changes : List (Change Record))
    : Heap Layout Record × Except Fault Table :=
  match base.draft.run storage heap changes with
  | (heap, .error fault) => (heap, .error fault)
  | (heap, .ok draft) => (heap, draft.finish storage heap)

/-- The tables a client can hold: the default one, the result of a batch on one of them, and
each of them while other batches go on. -/
inductive Table.Built : Heap Layout Record → Table → Prop
  | empty {heap : Heap Layout Record} : Built heap {}
  | revised {heap next : Heap Layout Record} {base table : Table}
    {changes : List (Change Record)} (built : Built heap base)
    (revised : base.revise storage heap changes = (next, .ok table)) : Built next table
  | later {heap next : Heap Layout Record} {base table : Table} {outcome : Except Fault Table}
    {changes : List (Change Record)} (other : Built heap base) (built : Built heap table)
    (revised : base.revise storage heap changes = (next, outcome)) : Built next table

end Operations

-- What the pages of a root hold

/-- The pages of a root by their slots, wherever they are allocated. -/
abbrev Content (Layout Record : Type) := Fin 256 → Option (Page Layout Record)

section Contents

variable {Layout Record : Type} (storage : Storage Layout Record)

def lookup (content : Content Layout Record) (key : Bytes) : Option Record :=
  (content (storage.slot key)).bind fun page => page.entries.get? key

def rows (content : Content Layout Record) : List (Bytes × Record) :=
  (List.finRange 256).flatMap fun slot =>
    (content slot).elim [] fun page => page.entries.toPairs

/-- Every key is in the page of its hash, and the three counters are those of the pages. -/
structure Counted (content : Content Layout Record) (size bytes overhead : Nat) : Prop where
  placed : ∀ slot page key, content slot = some page → (page.entries.get? key).isSome
    → storage.slot key = slot
  size : size = ∑ slot, (content slot).elim 0 fun page => page.entries.size
  bytes : bytes = ∑ slot, (content slot).elim 0 fun page => page.entries.weight storage.cost
  overhead : overhead = ∑ slot, (content slot).elim 0 fun page => storage.measure page.layout

variable {storage} {content : Content Layout Record} {size bytes overhead : Nat}

variable {slot : Fin 256} {page : Page Layout Record}

/-- One page replaced, with each counter corrected by the difference. -/
theorem Counted.replace (counted : Counted storage content size bytes overhead)
    {size' bytes' overhead' : Nat}
    (placed : ∀ key, (page.entries.get? key).isSome → storage.slot key = slot)
    (sized : size' + (content slot).elim 0 (fun page => page.entries.size)
      = size + page.entries.size)
    (weighed : bytes' + (content slot).elim 0 (fun page => page.entries.weight storage.cost)
      = bytes + page.entries.weight storage.cost)
    (measured : overhead' + (content slot).elim 0 (fun page => storage.measure page.layout)
      = overhead + storage.measure page.layout)
    : Counted storage (Function.update content slot (some page)) size' bytes' overhead' := by
  have sums (weigh : Page Layout Record → Nat) :=
    sum_update_add (fun held : Option (Page Layout Record) => held.elim 0 weigh) content slot
      (some page)
  refine ⟨?_, ?_, ?_, ?_⟩
  · intro other held key found listed
    by_cases same : other = slot
    · subst same
      simp only [Function.update_self, Option.some.injEq] at found
      subst found
      exact placed key listed
    · simp only [Function.update_of_ne same] at found
      exact counted.placed other held key found listed
  · have sum := sums fun page => page.entries.size
    have before := counted.size
    simp only [Option.elim_some] at sum
    omega
  · have sum := sums fun page => page.entries.weight storage.cost
    have before := counted.bytes
    simp only [Option.elim_some] at sum
    omega
  · have sum := sums fun page => storage.measure page.layout
    have before := counted.overhead
    simp only [Option.elim_some] at sum
    omega

/-- No page counts for more than the counters. -/
theorem Counted.within (counted : Counted storage content size bytes overhead)
    (found : content slot = some page)
    : page.entries.size ≤ size ∧ page.entries.weight storage.cost ≤ bytes
      ∧ storage.measure page.layout ≤ overhead := by
  have bound (weigh : Page Layout Record → Nat) :=
    le_sum_slots (fun held : Option (Page Layout Record) => held.elim 0 weigh) content slot
  simp only [found, Option.elim_some] at bound
  simp only [counted.size, counted.bytes, counted.overhead]
  exact ⟨bound fun page => page.entries.size, bound fun page => page.entries.weight storage.cost,
    bound fun page => storage.measure page.layout⟩

/-- What is found after a page was replaced. -/
theorem lookup_update (content : Content Layout Record) (slot : Fin 256)
    (page : Page Layout Record) (key : Bytes)
    : lookup storage (Function.update content slot (some page)) key
      = if storage.slot key = slot then page.entries.get? key
        else lookup storage content key := by
  by_cases same : storage.slot key = slot
  · simp [lookup, same]
  · simp [lookup, same]

/-- The entries are those that are found. -/
theorem Counted.mem_rows (counted : Counted storage content size bytes overhead)
    {key : Bytes} {record : Record}
    : (key, record) ∈ rows content ↔ lookup storage content key = some record := by
  simp only [rows, List.mem_flatMap, List.mem_finRange, true_and, lookup]
  constructor
  · rintro ⟨slot, listed⟩
    cases found : content slot with
    | none => simp [found] at listed
    | some page =>
        have held : page.entries.get? key = some record := by
          simpa [found, Assoc.mem_toPairs] using listed
        have isSlot := counted.placed slot page key found (by simp [held])
        simp [isSlot, found, held]
  · intro found
    obtain ⟨page, isPage, held⟩ := Option.bind_eq_some_iff.mp found
    refine ⟨storage.slot key, ?_⟩
    simpa [isPage, Assoc.mem_toPairs] using held

/-- No key is listed twice: a key is in one page only, and there once. -/
theorem Counted.nodup_rows (counted : Counted storage content size bytes overhead)
    : ((rows content).map Prod.fst).Nodup := by
  have slotOf {slot : Fin 256} {key : Bytes}
      (listed : key ∈ ((content slot).elim [] fun page => page.entries.toPairs).map Prod.fst)
      : storage.slot key = slot := by
    cases found : content slot with
    | none => simp [found] at listed
    | some page =>
        obtain ⟨row, held, rfl⟩ := List.mem_map.mp listed
        have isHeld : page.entries.get? row.1 = some row.2 := by
          simpa [found, ← Assoc.mem_toPairs] using held
        exact counted.placed slot page row.1 found (by simp [isHeld])
  simp only [rows, List.map_flatMap]
  apply List.nodup_flatMap.mpr
  refine ⟨fun slot _ => ?_, (List.nodup_finRange 256).imp fun apart key one two => ?_⟩
  · cases content slot with
    | none => simp
    | some page => simpa [← Assoc.keys_eq_toPairs] using page.entries.nodup_keys
  · exact apart ((slotOf one).symm.trans (slotOf two))

/-- The counters of keys and bytes are those of the entries. -/
theorem Counted.totals (counted : Counted storage content size bytes overhead)
    : size = (rows content).length
      ∧ bytes = ((rows content).map fun row => storage.cost row.1 row.2).sum := by
  constructor
  · simp only [counted.size, rows, List.length_flatMap, Fin.sum_univ_def]
    congr 1
    apply List.map_congr_left
    intro slot _
    cases content slot with
    | none => rfl
    | some page => simp [Assoc.size, Assoc.toPairs]
  · simp only [counted.bytes, rows, Fin.sum_univ_def, List.flatMap_def, List.map_flatten,
      List.sum_flatten, List.map_map]
    congr 1
    apply List.map_congr_left
    intro slot _
    cases found : content slot with
    | none => simp [found]
    | some page => simp [found, Assoc.weight_eq_toPairs]

end Contents

-- A draft and the pages it may write to

section Drafts

variable {Layout Record : Type}

/-- The pages of a root: its own copies, and where it has none those it started from. -/
def resolve (heap : Heap Layout Record) (pages dirty : Links) : Content Layout Record :=
  fun slot => ((dirty slot).or (pages slot)).bind fun link => heap[link]?

/-- The pages that a draft started from lie below `bound`, its own copies above it, one for each
slot of the bitmap. -/
structure Linked (bound : Nat) (heap : Heap Layout Record) (pages dirty : Links)
    (changed : Fin 4 → BitVec 64) : Prop where
  fits : bound ≤ heap.length
  based : ∀ slot link, pages slot = some link → link < bound
  owned : ∀ slot link, dirty slot = some link → bound ≤ link ∧ link < heap.length
  apart : ∀ slot other link, dirty slot = some link → dirty other = some link → slot = other
  mapped : ∀ slot : Fin 256,
    (changed (Fin.ofNat 4 (slot / 64))).getLsbD (slot % 64) = (dirty slot).isSome
  filled : ∀ slot page, dirty slot = none → resolve heap pages dirty slot = some page
    → page.entries.size ≠ 0

structure Draft.Sound (storage : Storage Layout Record) (bound : Nat)
    (heap : Heap Layout Record) (draft : Draft) : Prop where
  linked : Linked bound heap draft.pages draft.dirty draft.changed
  counted : Counted storage (resolve heap draft.pages draft.dirty) draft.size draft.bytes
    draft.overhead

def Heap.Keeps (bound : Nat) (before after : Heap Layout Record) : Prop :=
  ∀ link < bound, after[link]? = before[link]?

variable {storage : Storage Layout Record} {bound : Nat} {heap : Heap Layout Record}
variable {pages dirty : Links} {changed : Fin 4 → BitVec 64} {slot : Fin 256} {link : Nat}

theorem Heap.Keeps.refl : Heap.Keeps bound heap heap :=
  fun _ _ => rfl

theorem Heap.Keeps.trans {middle after : Heap Layout Record} (first : Heap.Keeps bound heap middle)
    (second : Heap.Keeps bound middle after) : Heap.Keeps bound heap after :=
  fun link below => (second link below).trans (first link below)

theorem fetch_ok (inside : link < heap.length)
    : ∃ page, heap[link]? = some page ∧ fetch heap link = .ok page := by
  refine ⟨heap[link], List.getElem?_eq_getElem inside, ?_⟩
  simp [fetch, List.getElem?_eq_getElem inside]

/-- The page a draft started from can be read, if there is one. -/
theorem Linked.fetches (linked : Linked bound heap pages dirty changed) (slot : Fin 256)
    : (pages slot).mapM (fetch heap)
      = (Except.ok ((pages slot).bind fun link => heap[link]?) : Except Fault _) := by
  cases isPage : pages slot with
  | none => rfl
  | some link =>
      have below := linked.based slot link isPage
      have fits := linked.fits
      have inside : link < heap.length := by omega
      obtain ⟨page, found, fetched⟩ := fetch_ok inside
      simp [found, fetched, Option.mapM, Functor.map, Except.map]

/-- A new copy of a page: only its slot has changed, to this copy. -/
theorem Linked.copy (linked : Linked bound heap pages dirty changed)
    (clean : dirty slot = none) (page : Page Layout Record)
    : let group : Fin 4 := Fin.ofNat 4 (slot / 64)
      let copied := Function.update dirty slot (some heap.length)
      Linked bound (heap ++ [page]) pages copied
          (Function.update changed group (Bits.insert (changed group) (slot % 64)))
        ∧ resolve (heap ++ [page]) pages copied
          = Function.update (resolve heap pages dirty) slot (some page) := by
  intro group copied
  have fits := linked.fits
  have resolved : resolve (heap ++ [page]) pages copied
      = Function.update (resolve heap pages dirty) slot (some page) := by
    funext other
    by_cases same : other = slot
    · subst same
      simp [resolve, copied]
    · have unchanged : (dirty other).or (pages other) = none
          ∨ ∃ link, (dirty other).or (pages other) = some link ∧ link < heap.length := by
        cases isDirty : dirty other with
        | some own => exact .inr ⟨own, rfl, (linked.owned other own isDirty).2⟩
        | none =>
            cases isPage : pages other with
            | none => exact .inl rfl
            | some old =>
                have below := linked.based other old isPage
                exact .inr ⟨old, rfl, by omega⟩
      simp only [resolve, copied, Function.update_of_ne same]
      rcases unchanged with nothing | ⟨link, isLink, inside⟩
      · simp [nothing]
      · simp [isLink, List.getElem?_append_left inside]
  refine ⟨⟨?_, linked.based, ?_, ?_, ?_, ?_⟩, resolved⟩
  · simp only [List.length_append, List.length_singleton]
    omega
  · intro other link isDirty
    by_cases same : other = slot
    · subst same
      simp only [copied, Function.update_self, Option.some.injEq] at isDirty
      simp only [List.length_append, List.length_singleton]
      omega
    · simp only [copied, Function.update_of_ne same] at isDirty
      have owned := linked.owned other link isDirty
      simp only [List.length_append, List.length_singleton]
      omega
  · intro one two link isOne isTwo
    by_cases first : one = slot <;> by_cases second : two = slot
    · exact first.trans second.symm
    · simp only [copied, first, Function.update_self, Option.some.injEq,
        Function.update_of_ne second] at isOne isTwo
      have owned := linked.owned two link isTwo
      omega
    · simp only [copied, second, Function.update_self, Option.some.injEq,
        Function.update_of_ne first] at isOne isTwo
      have owned := linked.owned one link isOne
      omega
    · simp only [copied, Function.update_of_ne first, Function.update_of_ne second] at isOne isTwo
      exact linked.apart one two link isOne isTwo
  · intro other
    have bits := linked.mapped other
    by_cases sameGroup : (Fin.ofNat 4 (other / 64) : Fin 4) = group
    · have bit := @Bits.getLsbD_insert 64 (changed group) (slot % 64) (other % 64) (by omega)
      simp only [sameGroup] at bits
      simp only [sameGroup, Function.update_self, bit, bits]
      by_cases same : other = slot
      · simp [same, copied]
      · have apart : ¬ (slot : Nat) % 64 = other % 64 := by
          have groups := congrArg Fin.val sameGroup
          simp only [group, Fin.ofNat] at groups
          omega
        simp [apart, copied, Function.update_of_ne same]
    · have same : other ≠ slot := fun same => sameGroup (by simp [same, group])
      simp only [Function.update_of_ne sameGroup, copied, Function.update_of_ne same, bits]
  · intro other held isClean found
    have same : other ≠ slot := by
      rintro rfl
      simp [copied] at isClean
    simp only [copied, Function.update_of_ne same] at isClean
    simp only [resolved, Function.update_of_ne same] at found
    exact linked.filled other held isClean found

/-- Writing to an own copy changes the page of its slot and no other. -/
theorem Linked.write (linked : Linked bound heap pages dirty changed)
    (isDirty : dirty slot = some link) (page : Page Layout Record)
    : Linked bound (heap.set link page) pages dirty changed
      ∧ resolve (heap.set link page) pages dirty
        = Function.update (resolve heap pages dirty) slot (some page)
      ∧ Heap.Keeps bound heap (heap.set link page) := by
  have own := linked.owned slot link isDirty
  have resolved : resolve (heap.set link page) pages dirty
      = Function.update (resolve heap pages dirty) slot (some page) := by
    funext other
    by_cases same : other = slot
    · subst same
      simp [resolve, isDirty, List.getElem?_set_self own.2]
    · have apart : (dirty other).or (pages other) ≠ some link := by
        cases isOther : dirty other with
        | some mine =>
            intro isLink
            have isMine : mine = link := by simpa using isLink
            exact same (linked.apart other slot link (isMine ▸ isOther) isDirty)
        | none =>
            intro isLink
            have below := linked.based other link (by simpa using isLink)
            omega
      simp only [resolve, Function.update_of_ne same]
      cases isLink : (dirty other).or (pages other) with
      | none => rfl
      | some mine =>
          have distinct : link ≠ mine := fun same => apart (same ▸ isLink)
          simp [List.getElem?_set_ne distinct]
  refine ⟨⟨?_, linked.based, ?_, linked.apart, linked.mapped, ?_⟩, resolved, ?_⟩
  · simpa using linked.fits
  · simpa using linked.owned
  · intro other held isClean found
    have same : other ≠ slot := by
      rintro rfl
      simp [isDirty] at isClean
    simp only [resolved, Function.update_of_ne same] at found
    exact linked.filled other held isClean found
  · intro below isBelow
    have distinct : link ≠ below := by omega
    simp [List.getElem?_set_ne distinct]

-- One operation

variable {draft : Draft}

theorem ok_bind {A B : Type} (value : A) (onward : A → Except Fault B)
    : (Except.ok value >>= onward) = onward value :=
  rfl

theorem subtract_ok {left right : Nat} (within : right ≤ left)
    : subtract left right = .ok (left - right) := by
  simp [subtract, within]

/-- The page of an own copy is the page of its slot. -/
theorem resolve_dirty (isDirty : dirty slot = some link)
    : resolve heap pages dirty slot = heap[link]? := by
  simp [resolve, isDirty]

/-- An own page written, with the counters corrected by what it changed. -/
theorem Draft.Sound.write (sound : draft.Sound storage bound heap) {page : Page Layout Record}
    (new : Page Layout Record) (size bytes overhead : Nat)
    (isDirty : draft.dirty slot = some link)
    (isPage : heap[link]? = some page)
    (placed : ∀ key, (new.entries.get? key).isSome → storage.slot key = slot)
    (sized : size + page.entries.size = draft.size + new.entries.size)
    (weighed : bytes + page.entries.weight storage.cost
      = draft.bytes + new.entries.weight storage.cost)
    (measured : overhead + storage.measure page.layout
      = draft.overhead + storage.measure new.layout)
    : Draft.Sound storage bound (heap.set link new) { draft with size, bytes, overhead }
      ∧ (∀ key, lookup storage (resolve (heap.set link new) draft.pages draft.dirty) key
        = if storage.slot key = slot then new.entries.get? key
          else lookup storage (resolve heap draft.pages draft.dirty) key)
      ∧ Heap.Keeps bound heap (heap.set link new) := by
  obtain ⟨linked, resolved, keeps⟩ := sound.linked.write isDirty new
  have held : resolve heap draft.pages draft.dirty slot = some page :=
    (resolve_dirty isDirty).trans isPage
  refine ⟨⟨linked, ?_⟩, fun key => ?_, keeps⟩
  · simp only [resolved]
    apply sound.counted.replace placed
    · simpa only [held, Option.elim_some] using sized
    · simpa only [held, Option.elim_some] using weighed
    · simpa only [held, Option.elim_some] using measured
  · simp only [resolved, lookup_update]

/-- A draft gets its own copy of a page; what is found stays the same. -/
theorem Draft.Sound.edit (sound : draft.Sound storage bound heap) (slot : Fin 256)
    : ∃ (next : Heap Layout Record) (own : Draft) (link : Nat) (page : Page Layout Record),
      draft.edit storage heap slot = .ok (next, own, link)
        ∧ own.Sound storage bound next ∧ own.dirty slot = some link ∧ next[link]? = some page
        ∧ (∀ key, lookup storage (resolve next own.pages own.dirty) key
          = lookup storage (resolve heap draft.pages draft.dirty) key)
        ∧ Heap.Keeps bound heap next := by
  cases isDirty : draft.dirty slot with
  | some link =>
      obtain ⟨page, found, _⟩ := fetch_ok (sound.linked.owned slot link isDirty).2
      exact ⟨heap, draft, link, page, by simp [Draft.edit, isDirty], sound, isDirty, found,
        fun _ => rfl, .refl⟩
  | none =>
      have fetched := sound.linked.fetches slot
      have isOld : resolve heap draft.pages draft.dirty slot
          = (draft.pages slot).bind fun link => heap[link]? := by
        simp [resolve, isDirty]
      simp only [← isOld] at fetched
      generalize isHeld : resolve heap draft.pages draft.dirty slot = old at fetched
      have measured : (old.elim 0 fun page => storage.measure page.layout) ≤ draft.overhead := by
        cases old with
        | none => simp
        | some page => simpa using (sound.counted.within isHeld).2.2
      have sameEntries : (storage.copy old).entries = old.elim ∅ Page.entries := by
        cases old <;> rfl
      obtain ⟨linked, resolved⟩ := sound.linked.copy isDirty (storage.copy old)
      have found (key : Bytes) (listed : ((storage.copy old).entries.get? key).isSome)
          : ∃ page, old = some page ∧ (page.entries.get? key).isSome := by
        cases old with
        | none => simp [sameEntries] at listed
        | some page => exact ⟨page, rfl, by simpa [sameEntries] using listed⟩
      let group : Fin 4 := Fin.ofNat 4 (slot / 64)
      let own : Draft :=
        { draft with
          dirty := Function.update draft.dirty slot (some heap.length)
          changed :=
            Function.update draft.changed group (Bits.insert (draft.changed group) (slot % 64))
          overhead :=
            draft.overhead - (old.elim 0 fun page => storage.measure page.layout)
              + storage.measure (storage.copy old).layout }
      refine ⟨heap ++ [storage.copy old], own, heap.length, storage.copy old, ?_, ⟨linked, ?_⟩, ?_, ?_, ?_, ?_⟩
      · simp only [Draft.edit, isDirty, fetched, ok_bind, subtract_ok measured]
        rfl
      · simp only [own, resolved]
        apply sound.counted.replace
        · intro key listed
          obtain ⟨page, rfl, inside⟩ := found key listed
          exact sound.counted.placed slot page key isHeld inside
        · simp only [isHeld, sameEntries]
          cases old <;> rfl
        · simp only [isHeld, sameEntries]
          cases old <;> rfl
        · simp only [isHeld]
          omega
      · simp [own]
      · simp
      · intro key
        simp only [own, resolved, lookup_update]
        split
        next same =>
          subst same
          simp only [lookup, isHeld, sameEntries]
          cases old <;> simp
        · rfl
      · intro link below
        have fits := sound.linked.fits
        simp [List.getElem?_append_left (by omega : link < heap.length)]

/-- The page of a key: what the draft finds for the key is what this page holds. -/
theorem lookup_of_page {page : Page Layout Record} {key : Bytes}
    (isDirty : dirty (storage.slot key) = some link) (isPage : heap[link]? = some page)
    : lookup storage (resolve heap pages dirty) key = page.entries.get? key := by
  simp [lookup, resolve_dirty isDirty, isPage]

/-- `set` refuses what a `std::size_t` cannot count, or adds the record. -/
theorem Draft.Sound.set (sound : draft.Sound storage bound heap) (key : Bytes) (record : Record)
    : draft.set storage heap key record = .error .record
      ∨ draft.set storage heap key record = .error .bytes
      ∨ ∃ next after, draft.set storage heap key record = .ok (next, after)
        ∧ after.Sound storage bound next
        ∧ (∀ other, lookup storage (resolve next after.pages after.dirty) other
          = if other = key then some record
            else lookup storage (resolve heap draft.pages draft.dirty) other)
        ∧ Heap.Keeps bound heap next := by
  by_cases large : storage.payload record > sizeMax - key.length
  · exact .inl (by simp [Draft.set, large])
  obtain ⟨next, own, link, page, edited, sound', isDirty, isPage, same, keeps⟩ :=
    sound.edit (storage.slot key)
  have fetched : fetch next link = .ok page := by simp [fetch, isPage]
  have held : resolve next own.pages own.dirty (storage.slot key) = some page :=
    (resolve_dirty isDirty).trans isPage
  have within := sound'.counted.within held
  have previous : (page.entries.get? key).elim 0 (storage.cost key) ≤ own.bytes := by
    cases isHeld : page.entries.get? key with
    | none => simp
    | some old => exact (Assoc.le_weight isHeld storage.cost).trans within.2.1
  have placed (other : Bytes) (listed : ((page.entries.set key record).get? other).isSome)
      : storage.slot other = storage.slot key := by
    by_cases isKey : other = key
    · simp [isKey]
    · exact sound'.counted.placed _ page other held (by simpa [isKey] using listed)
  have found (other : Bytes)
      : (if storage.slot other = storage.slot key then (page.entries.set key record).get? other
          else lookup storage (resolve next own.pages own.dirty) other)
        = if other = key then some record
          else lookup storage (resolve heap draft.pages draft.dirty) other := by
    by_cases isKey : other = key
    · simp [isKey]
    · simp only [isKey, if_false, ← same other, Assoc.get?_set]
      split
      next sameSlot => exact (lookup_of_page (sameSlot ▸ isDirty) isPage).symm
      · rfl
  by_cases full : storage.cost key record
      > sizeMax - (own.bytes - (page.entries.get? key).elim 0 (storage.cost key))
  · refine .inr (.inl ?_)
    simp only [Draft.set, large, edited, fetched, ok_bind, subtract_ok previous, full, if_true,
      if_false]
  refine .inr (.inr ?_)
  cases isHeld : page.entries.get? key with
  | some old =>
      have weighed := Assoc.weight_set_of_some isHeld storage.cost record
      have sized := Assoc.size_set_of_some isHeld record
      simp only [isHeld, Option.elim_some] at previous full
      obtain ⟨written, isFound, kept⟩ := sound'.write
        { page with entries := page.entries.set key record } own.size
        (own.bytes - storage.cost key old + storage.cost key record) own.overhead
        isDirty isPage placed (by simp only [sized]) (by simp only; omega) rfl
      refine ⟨_, _, ?_, written, fun other => (isFound other).trans (found other), keeps.trans kept⟩
      simp only [Draft.set, large, edited, fetched, ok_bind, isHeld, Option.elim_some,
        subtract_ok previous, full, if_false]
  | none =>
      have weighed := Assoc.weight_set_of_none isHeld storage.cost record
      have sized := Assoc.size_set_of_none isHeld record
      simp only [isHeld, Option.elim_none] at previous full
      obtain ⟨written, isFound, kept⟩ := sound'.write
        ⟨page.entries.set key record, storage.grown page key⟩ (own.size + 1)
        (own.bytes - 0 + storage.cost key record)
        (own.overhead - storage.measure page.layout
          + storage.measure (storage.grown page key)) isDirty isPage placed
        (by simp only [sized]; omega) (by simp only; omega)
        (by have bounded := within.2.2; simp only; omega)
      refine ⟨_, _, ?_, written, fun other => (isFound other).trans (found other), keeps.trans kept⟩
      simp only [Draft.set, large, edited, fetched, ok_bind, isHeld, Option.elim_none,
        subtract_ok previous, subtract_ok within.2.2, full, if_false]

/-- `erase` drops the record and fails never. -/
theorem Draft.Sound.erase (sound : draft.Sound storage bound heap) (key : Bytes)
    : ∃ next after, draft.erase storage heap key = .ok (next, after)
      ∧ after.Sound storage bound next
      ∧ (∀ other, lookup storage (resolve next after.pages after.dirty) other
        = if other = key then none
          else lookup storage (resolve heap draft.pages draft.dirty) other)
      ∧ Heap.Keeps bound heap next := by
  have fetchedOld := sound.linked.fetches (storage.slot key)
  by_cases idle : ((draft.dirty (storage.slot key)).isNone
      && !((draft.pages (storage.slot key)).bind fun link => heap[link]?).any
        fun page => page.entries.contains key) = true
  · refine ⟨heap, draft, ?_, sound, ?_, .refl⟩
    · simp only [Draft.erase, fetchedOld, ok_bind, idle, if_true]
    · intro other
      by_cases isKey : other = key
      · subst isKey
        simp only [Bool.and_eq_true, Option.isNone_iff_eq_none, Bool.not_eq_true'] at idle
        simp only [lookup, resolve, idle.1, Option.none_or, if_true]
        cases isPage : (draft.pages (storage.slot other)).bind fun link => heap[link]? with
        | none => rfl
        | some page => simpa [isPage, Assoc.contains] using idle.2
      · simp [isKey]
  obtain ⟨next, own, link, page, edited, sound', isDirty, isPage, same, keeps⟩ :=
    sound.edit (storage.slot key)
  have fetched : fetch next link = .ok page := by simp [fetch, isPage]
  have held : resolve next own.pages own.dirty (storage.slot key) = some page :=
    (resolve_dirty isDirty).trans isPage
  have within := sound'.counted.within held
  cases isHeld : page.entries.get? key with
  | none =>
      refine ⟨next, own, ?_, sound', ?_, keeps⟩
      · simp only [Draft.erase, fetchedOld, ok_bind, idle, edited, fetched, isHeld, if_false,
          Bool.false_eq_true]
      · intro other
        by_cases isKey : other = key
        · subst isKey
          simp [lookup_of_page isDirty isPage, isHeld]
        · simp [isKey, same other]
  | some found =>
      have light := Assoc.le_weight isHeld storage.cost
      have weighed := Assoc.weight_remove_of_some isHeld storage.cost
      have sized := Assoc.size_remove_of_some isHeld
      have placed (other : Bytes) (listed : ((page.entries.remove key).get? other).isSome)
          : storage.slot other = storage.slot key := by
        by_cases isKey : other = key
        · simp [isKey]
        · exact sound'.counted.placed _ page other held (by simpa [isKey] using listed)
      obtain ⟨written, isFound, kept⟩ := sound'.write
        { page with entries := page.entries.remove key } (own.size - 1)
        (own.bytes - storage.cost key found) own.overhead isDirty isPage placed
        (by simp only; omega) (by simp only; omega) rfl
      refine ⟨_, _, ?_, written, fun other => (isFound other).trans ?_, keeps.trans kept⟩
      · simp only [Draft.erase, fetchedOld, ok_bind, idle, edited, fetched, isHeld, if_false,
          Bool.false_eq_true, subtract_ok (light.trans within.2.1),
          subtract_ok (by omega : 1 ≤ own.size)]
      · by_cases isKey : other = key
        · simp [isKey]
        · simp only [isKey, if_false, ← same other, Assoc.get?_remove]
          split
          next sameSlot => exact (lookup_of_page (sameSlot ▸ isDirty) isPage).symm
          · rfl

-- A batch

def Change.on (map : Bytes → Option Record) : Change Record → Bytes → Option Record
  | .set key record => fun other => if other = key then some record else map other
  | .erase key => fun other => if other = key then none else map other

/-- One change makes of a draft what it makes of a map, or the record is too large to be
counted. -/
theorem Draft.Sound.step (sound : draft.Sound storage bound heap) (change : Change Record)
    : draft.step storage heap change = .error .record
      ∨ draft.step storage heap change = .error .bytes
      ∨ ∃ next after, draft.step storage heap change = .ok (next, after)
        ∧ after.Sound storage bound next
        ∧ lookup storage (resolve next after.pages after.dirty)
          = change.on (lookup storage (resolve heap draft.pages draft.dirty))
        ∧ Heap.Keeps bound heap next := by
  cases change with
  | set key record =>
      rcases sound.set key record with large | full | ⟨next, after, done, sound', found, keeps⟩
      · exact .inl large
      · exact .inr (.inl full)
      · exact .inr (.inr ⟨next, after, done, sound', funext found, keeps⟩)
  | erase key =>
      obtain ⟨next, after, done, sound', found, keeps⟩ := sound.erase key
      exact .inr (.inr ⟨next, after, done, sound', funext found, keeps⟩)

/-- A batch makes of a draft what it makes of a map, by induction on the changes. -/
theorem Draft.Sound.run (sound : draft.Sound storage bound heap) (changes : List (Change Record))
    : Heap.Keeps bound heap (draft.run storage heap changes).1
      ∧ ((draft.run storage heap changes).2 = .error .record
        ∨ (draft.run storage heap changes).2 = .error .bytes
        ∨ ∃ after, (draft.run storage heap changes).2 = .ok after
          ∧ after.Sound storage bound (draft.run storage heap changes).1
          ∧ lookup storage (resolve (draft.run storage heap changes).1 after.pages after.dirty)
            = changes.foldl Change.on (lookup storage (resolve heap draft.pages draft.dirty))) := by
  induction changes generalizing heap draft with
  | nil => exact ⟨.refl, .inr (.inr ⟨draft, rfl, sound, rfl⟩)⟩
  | cons change changes ih =>
      rcases sound.step change with large | full | ⟨next, after, done, sound', found, keeps⟩
      · simp [Draft.run, large, Heap.Keeps.refl]
      · simp [Draft.run, full, Heap.Keeps.refl]
      · have onward := ih sound'
        simp only [Draft.run, done, List.foldl_cons, ← found]
        exact ⟨keeps.trans onward.1, onward.2⟩

-- Publishing

/-- The slots of a bitmap in the order in which `finish` visits them. -/
def order (changed : Fin 4 → BitVec 64) : List (Fin 256) :=
  (List.finRange 4).flatMap fun group =>
    (Bits.members (changed group)).map fun bit => Fin.ofNat 256 (group * 64 + bit)

theorem val_slot (group : Fin 4) {bit : Nat} (inside : bit < 64)
    : (Fin.ofNat 256 (group * 64 + bit) : Fin 256).val = group * 64 + bit := by
  simp only [Fin.ofNat]
  omega

/-- A slot is visited when its bit is set. -/
theorem mem_order
    : slot ∈ order changed ↔ (changed (Fin.ofNat 4 (slot / 64))).getLsbD (slot % 64) = true := by
  simp only [order, List.mem_flatMap, List.mem_finRange, true_and, List.mem_map, Bits.mem_members]
  constructor
  · rintro ⟨group, bit, isSet, rfl⟩
    have inside := BitVec.lt_of_getLsbD isSet
    have value := val_slot group inside
    have isGroup : (Fin.ofNat 4 ((group * 64 + bit) / 64) : Fin 4) = group := by
      apply Fin.ext
      simp only [Fin.ofNat]
      omega
    have isBit : (group * 64 + bit) % 64 = bit := by omega
    simpa only [value, isGroup, isBit] using isSet
  · intro isSet
    refine ⟨Fin.ofNat 4 (slot / 64), slot % 64, isSet, Fin.ext ?_⟩
    simp only [Fin.ofNat]
    omega

/-- No slot is visited twice. -/
theorem nodup_order (changed : Fin 4 → BitVec 64) : (order changed).Nodup := by
  have inside {group : Fin 4} {bit : Nat} (listed : bit ∈ Bits.members (changed group))
      : bit < 64 :=
    BitVec.lt_of_getLsbD (Bits.mem_members.mp listed)
  apply List.nodup_flatMap.mpr
  refine ⟨fun group _ => ?_, (List.nodup_finRange 4).imp fun {group other} apart => ?_⟩
  · apply List.Nodup.map_on
    · intro one isOne two isTwo same
      have values := congrArg Fin.val same
      simp only [val_slot group (inside isOne), val_slot group (inside isTwo)] at values
      omega
    · exact (Bits.members_sorted _).imp Nat.ne_of_lt
  · intro slot one two
    obtain ⟨first, isFirst, rfl⟩ := List.mem_map.mp one
    obtain ⟨second, isSecond, same⟩ := List.mem_map.mp two
    have values := congrArg Fin.val same
    simp only [val_slot other (inside isSecond), val_slot group (inside isFirst)] at values
    have firstInside := inside isFirst
    have secondInside := inside isSecond
    exact apart (Fin.ext (by omega))

/-- The two loops of `finish` are one loop over the changed slots. -/
theorem finish_loops {S : Type} (act : S → Fin 256 → Except Fault S) (groups : List (Fin 4))
    (start : S)
    : groups.foldlM (fun state group =>
        (Bits.scan (changed group)).foldlM
          (fun state bit => act state (Fin.ofNat 256 (group * 64 + bit))) state) start
      = (groups.flatMap fun group =>
          (Bits.members (changed group)).map fun bit => Fin.ofNat 256 (group * 64 + bit)).foldlM
        act start := by
  simp only [Bits.scan_eq]
  induction groups generalizing start with
  | nil => rfl
  | cons group groups ih =>
      simp only [List.foldlM_cons, List.flatMap_cons, List.foldlM_append, List.foldlM_map, ih]

/-- What the root keeps of a changed slot: its own page, unless that is empty. -/
def keptLink (heap : Heap Layout Record) (dirty : Links) : Links :=
  fun slot => (dirty slot).filter fun link =>
    heap[link]?.any fun page => decide (page.entries.size ≠ 0)

/-- The root when the slots in `visited` are published. -/
def published (heap : Heap Layout Record) (pages dirty : Links) (visited : List (Fin 256))
    : Links :=
  fun slot => if slot ∈ visited then keptLink heap dirty slot else pages slot

/-- The pages that count for the overhead then: a changed slot that is not visited yet counts
with its own page. -/
def partly (heap : Heap Layout Record) (pages dirty : Links) (visited : List (Fin 256))
    : Content Layout Record :=
  fun slot =>
    if slot ∈ visited then (keptLink heap dirty slot).bind fun link => heap[link]?
    else resolve heap pages dirty slot

/-- Publishing one more slot. -/
theorem Draft.Sound.release (sound : draft.Sound storage bound heap) {visited : List (Fin 256)}
    (fresh : slot ∉ visited) (isDirty : (draft.dirty slot).isSome)
    : draft.release storage heap (published heap draft.pages draft.dirty visited,
        ∑ each, (partly heap draft.pages draft.dirty visited each).elim 0
          fun page => storage.measure page.layout) slot
      = .ok (published heap draft.pages draft.dirty (slot :: visited),
        ∑ each, (partly heap draft.pages draft.dirty (slot :: visited) each).elim 0
          fun page => storage.measure page.layout) := by
  obtain ⟨link, isLink⟩ := Option.isSome_iff_exists.mp isDirty
  obtain ⟨page, found, fetched⟩ := fetch_ok (sound.linked.owned slot link isLink).2
  have held : partly heap draft.pages draft.dirty visited slot = some page := by
    simp [partly, fresh, resolve_dirty isLink, found]
  have nextLinks : published heap draft.pages draft.dirty (slot :: visited)
      = Function.update (published heap draft.pages draft.dirty visited) slot
        (keptLink heap draft.dirty slot) := by
    funext other
    by_cases same : other = slot
    · simp [published, same]
    · simp [published, same]
  have nextPages : partly heap draft.pages draft.dirty (slot :: visited)
      = Function.update (partly heap draft.pages draft.dirty visited) slot
        ((keptLink heap draft.dirty slot).bind fun link => heap[link]?) := by
    funext other
    by_cases same : other = slot
    · simp [partly, same]
    · simp [partly, same]
  have sum := sum_update_add
    (fun held : Option (Page Layout Record) =>
      held.elim 0 fun page => storage.measure page.layout)
    (partly heap draft.pages draft.dirty visited) slot
    ((keptLink heap draft.dirty slot).bind fun link => heap[link]?)
  simp only [held, Option.elim_some] at sum
  simp only [nextLinks, nextPages]
  by_cases empty : page.entries.size = 0
  · have gone : keptLink heap draft.dirty slot = none := by
      simp [keptLink, isLink, found, empty, Option.filter]
    simp only [gone, Option.bind_none, Option.elim_none] at sum ⊢
    have within : storage.measure page.layout
        ≤ ∑ each, (partly heap draft.pages draft.dirty visited each).elim 0
          fun page => storage.measure page.layout := by
      omega
    simp only [Draft.release, isLink, fetched, ok_bind, empty, if_true, subtract_ok within]
    refine congrArg Except.ok (Prod.ext rfl ?_)
    simp only
    omega
  · have stays : keptLink heap draft.dirty slot = some link := by
      simp [keptLink, isLink, found, empty, Option.filter]
    simp only [stays, Option.bind_some, found, Option.elim_some] at sum ⊢
    simp only [Draft.release, isLink, fetched, ok_bind, empty, if_false]
    refine congrArg Except.ok (Prod.ext rfl ?_)
    simp only
    omega

/-- Publishing the slots of a list, by induction on it. -/
theorem Draft.Sound.releases (sound : draft.Sound storage bound heap)
    (visited : List (Fin 256)) {slots : List (Fin 256)} (distinct : slots.Nodup)
    (fresh : ∀ slot ∈ slots, slot ∉ visited) (own : ∀ slot ∈ slots, (draft.dirty slot).isSome)
    : slots.foldlM (draft.release storage heap) (published heap draft.pages draft.dirty visited,
        ∑ each, (partly heap draft.pages draft.dirty visited each).elim 0
          fun page => storage.measure page.layout)
      = .ok (published heap draft.pages draft.dirty (slots.reverse ++ visited),
        ∑ each, (partly heap draft.pages draft.dirty (slots.reverse ++ visited) each).elim 0
          fun page => storage.measure page.layout) := by
  induction slots generalizing visited with
  | nil => rfl
  | cons slot slots ih =>
      have parts := List.nodup_cons.mp distinct
      have one := sound.release (fresh slot List.mem_cons_self) (own slot List.mem_cons_self)
      have rest := ih (slot :: visited) parts.2 (fun other listed => by
        have outside := fresh other (List.mem_cons_of_mem _ listed)
        have apart : other ≠ slot := fun same => parts.1 (same ▸ listed)
        simp [outside, apart]) fun other listed => own other (List.mem_cons_of_mem _ listed)
      simp only [List.foldlM_cons, one, ok_bind, rest, List.reverse_cons, List.append_assoc,
        List.singleton_append]

structure Table.Sound (storage : Storage Layout Record) (heap : Heap Layout Record)
    (table : Table) : Prop where
  linked : Linked heap.length heap table.pages (fun _ => none) fun _ => 0
  counted : Counted storage (resolve heap table.pages fun _ => none) table.size table.bytes
    table.overhead

/-- A draft becomes a table with the same contents, without the pages that are empty. -/
theorem Draft.Sound.finish (sound : draft.Sound storage bound heap)
    : ∃ table, draft.finish storage heap = .ok table ∧ table.Sound storage heap
      ∧ lookup storage (resolve heap table.pages fun _ => none)
        = lookup storage (resolve heap draft.pages draft.dirty) := by
  have fits := sound.linked.fits
  have visits (slot : Fin 256) : slot ∈ order draft.changed ↔ (draft.dirty slot).isSome := by
    simp only [mem_order, sound.linked.mapped]
  have all := sound.releases [] (nodup_order draft.changed) (by simp)
    fun slot listed => (visits slot).mp listed
  simp only [List.append_nil] at all
  let visited := (order draft.changed).reverse
  have isVisited (slot : Fin 256) : slot ∈ visited ↔ (draft.dirty slot).isSome := by
    simp only [visited, List.mem_reverse, visits]
  -- the root published at the end resolves to the pages that counted
  have resolved : resolve heap (published heap draft.pages draft.dirty visited) (fun _ => none)
      = partly heap draft.pages draft.dirty visited := by
    funext slot
    by_cases listed : slot ∈ visited
    · simp [resolve, published, partly, listed]
    · have clean : draft.dirty slot = none := by simpa [isVisited] using listed
      simp [resolve, published, partly, listed, clean]
  have partlyEq (slot : Fin 256) : partly heap draft.pages draft.dirty visited slot
      = (resolve heap draft.pages draft.dirty slot).filter
        fun page => decide (page.entries.size ≠ 0) := by
    cases isDirty : draft.dirty slot with
    | none =>
        have unlisted : slot ∉ visited := by simp [isVisited, isDirty]
        simp only [partly, unlisted, if_false]
        cases held : resolve heap draft.pages draft.dirty slot with
        | none => rfl
        | some page =>
            have filled := sound.linked.filled slot page isDirty held
            simp [Option.filter, filled]
    | some link =>
        have listed : slot ∈ visited := by simp [isVisited, isDirty]
        obtain ⟨page, found, _⟩ := fetch_ok (sound.linked.owned slot link isDirty).2
        simp only [partly, listed, if_true, resolve_dirty isDirty, keptLink, isDirty, found]
        by_cases empty : page.entries.size = 0
        · simp [Option.filter, found, empty]
        · simp [Option.filter, found, empty]
  have counts (weigh : Page Layout Record → Nat)
      (nothing : ∀ page, page.entries.size = 0 → weigh page = 0)
      : ∑ slot, (resolve heap draft.pages draft.dirty slot).elim 0 weigh
        = ∑ slot, (partly heap draft.pages draft.dirty visited slot).elim 0 weigh := by
    apply Finset.sum_congr rfl
    intro slot _
    simp only [partlyEq]
    cases resolve heap draft.pages draft.dirty slot with
    | none => rfl
    | some page =>
        by_cases empty : page.entries.size = 0
        · simp [Option.filter, empty, nothing page empty]
        · simp [Option.filter, empty]
  have weightless (page : Page Layout Record) (empty : page.entries.size = 0)
      : page.entries.weight storage.cost = 0 := by
    have nothing : page.entries.entries = [] := List.length_eq_zero_iff.mp empty
    simp [Assoc.weight, nothing]
  refine ⟨{ pages := published heap draft.pages draft.dirty visited
            size := draft.size
            bytes := draft.bytes
            overhead := ∑ each, (partly heap draft.pages draft.dirty visited each).elim 0
              fun page => storage.measure page.layout }, ?_, ⟨⟨le_rfl, ?_, ?_, ?_, ?_, ?_⟩, ?_⟩,
    ?_⟩
  · have start : (draft.pages, draft.overhead)
        = (published heap draft.pages draft.dirty [],
          ∑ each, (partly heap draft.pages draft.dirty [] each).elim 0
            fun page => storage.measure page.layout) := by
      have atFirst : published heap draft.pages draft.dirty [] = draft.pages := by
        funext slot
        simp [published]
      simp [atFirst, partly, sound.counted.overhead]
    simp only [Draft.finish, finish_loops, start]
    have whole : (List.flatMap (fun group =>
          (Bits.members (draft.changed group)).map fun bit => Fin.ofNat 256 (group * 64 + bit))
        (List.finRange 4)) = order draft.changed := rfl
    simp only [whole, all, ok_bind]
    rfl
  · intro slot link isLink
    by_cases listed : slot ∈ visited
    · simp only [published, listed, if_true, keptLink, Option.filter_eq_some_iff] at isLink
      exact (sound.linked.owned slot link isLink.1).2
    · simp only [published, listed, if_false] at isLink
      have below := sound.linked.based slot link isLink
      omega
  · simp
  · simp
  · simp
  · intro slot page _ held
    simp only [resolved, partlyEq, Option.filter_eq_some_iff, decide_eq_true_eq] at held
    exact held.2
  · simp only [resolved]
    refine ⟨fun slot page key held listed => ?_, ?_, ?_, rfl⟩
    · simp only [partlyEq, Option.filter_eq_some_iff] at held
      exact sound.counted.placed slot page key held.1 listed
    · simp only [← counts (fun page => page.entries.size) fun _ empty => empty]
      exact sound.counted.size
    · simp only [← counts (fun page => page.entries.weight storage.cost) weightless]
      exact sound.counted.bytes
  · funext key
    simp only [lookup, resolved, partlyEq]
    cases resolve heap draft.pages draft.dirty (storage.slot key) with
    | none => rfl
    | some page =>
        by_cases empty : page.entries.size = 0
        · have nothing : page.entries.entries = [] := List.length_eq_zero_iff.mp empty
          have absent : page.entries.get? key = none := by
            simp [Assoc.get?, AList.lookup, nothing]
          simp [Option.filter, empty, absent]
        · simp [Option.filter, empty]

-- Tables as finite maps

variable {base table : Table} {next : Heap Layout Record}

theorem Table.find_eq (heap : Heap Layout Record) (table : Table) (key : Bytes)
    : table.find storage heap key
      = lookup storage (resolve heap table.pages fun _ => none) key := by
  simp [Table.find, lookup, resolve, Option.bind_assoc]

theorem Table.each_eq (heap : Heap Layout Record) (table : Table)
    : table.each heap = rows (resolve heap table.pages fun _ => none) := by
  simp [Table.each, rows, resolve]

/-- A published table only reads pages that were there when it was published. -/
theorem Table.Sound.keeps (sound : base.Sound storage heap)
    (kept : Heap.Keeps heap.length heap next)
    : resolve next base.pages (fun _ => none) = resolve heap base.pages fun _ => none := by
  funext slot
  cases isLink : base.pages slot with
  | none => simp [resolve, isLink]
  | some link => simp [resolve, isLink, kept link (sound.linked.based slot link isLink)]

/-- Later batches leave a table sound. -/
theorem Table.Sound.later (sound : table.Sound storage heap)
    (kept : Heap.Keeps heap.length heap next) (longer : heap.length ≤ next.length)
    : table.Sound storage next := by
  have same := sound.keeps kept
  refine ⟨⟨le_rfl, fun slot link isLink => ?_, by simp, by simp, by simp, ?_⟩, ?_⟩
  · exact Nat.lt_of_lt_of_le (sound.linked.based slot link isLink) longer
  · intro slot page isClean held
    exact sound.linked.filled slot page isClean (same ▸ held)
  · simpa only [same] using sound.counted

/-- A draft on a sound table is sound. -/
theorem Table.Sound.drafted (sound : base.Sound storage heap)
    : base.draft.Sound storage heap.length heap :=
  ⟨sound.linked, sound.counted⟩

/-- Everything a batch can do to the pages and to its table. -/
theorem Table.Sound.revise (sound : base.Sound storage heap) (changes : List (Change Record))
    : Heap.Keeps heap.length heap (base.revise storage heap changes).1
      ∧ heap.length ≤ (base.revise storage heap changes).1.length
      ∧ ((base.revise storage heap changes).2 = .error .record
        ∨ (base.revise storage heap changes).2 = .error .bytes
        ∨ ∃ table, (base.revise storage heap changes).2 = .ok table
          ∧ table.Sound storage (base.revise storage heap changes).1
          ∧ lookup storage (resolve (base.revise storage heap changes).1 table.pages fun _ => none)
            = changes.foldl Change.on
              (lookup storage (resolve heap base.pages fun _ => none))) := by
  obtain ⟨kept, outcome⟩ := sound.drafted.run changes
  have longer (after : Heap Layout Record) (kept : Heap.Keeps heap.length heap after)
      : heap.length ≤ after.length := by
    by_contra shorter
    have last := kept after.length (by omega)
    simp only [List.getElem?_eq_none (le_refl after.length)] at last
    have inside := List.getElem?_eq_getElem (by omega : after.length < heap.length)
    simp [inside] at last
  cases ran : base.draft.run storage heap changes with
  | mk after result =>
      simp only [ran] at kept outcome
      have long := longer after kept
      rcases outcome with large | full | ⟨draft, done, sound', found⟩
      · subst large
        simp only [Table.revise, ran]
        exact ⟨kept, long, .inl trivial⟩
      · subst full
        simp only [Table.revise, ran]
        exact ⟨kept, long, .inr (.inl trivial)⟩
      · subst done
        obtain ⟨table, finished, published, same⟩ := sound'.finish
        simp only [Table.revise, ran]
        exact ⟨kept, long, .inr (.inr ⟨table, finished, published, same.trans found⟩)⟩

/-- Every table a client can hold is sound, by induction on how it came about. -/
theorem Table.Built.sound (built : Table.Built storage heap table) : table.Sound storage heap := by
  induction built with
  | empty =>
      have nothing (heap : Heap Layout Record)
          : resolve heap (fun _ => none) (fun _ => none) = fun _ => none := by
        funext slot
        simp [resolve]
      refine ⟨⟨le_rfl, by simp, by simp, by simp, by simp, ?_⟩, ?_⟩
      · simp [resolve]
      · simp only [nothing]
        exact ⟨by simp, by simp, by simp, by simp⟩
  | @revised heap next base table changes _ revised ih =>
      obtain ⟨_, _, outcome⟩ := ih.revise changes
      simp only [revised] at outcome
      rcases outcome with large | full | ⟨published, done, sound, _⟩
      · simp at large
      · simp at full
      · exact Except.ok.inj done ▸ sound
  | @later heap next base table outcome changes _ _ revised ihBase ihTable =>
      obtain ⟨kept, longer, _⟩ := ihBase.revise changes
      simp only [revised] at kept longer
      exact ihTable.later kept longer

/-- A batch on any table a client can hold makes of it the map that the same changes make of
the map it was, with every key once, the exact number of records and bytes, and the overhead
of the pages that are left, none of them empty. The base stays as it was. The only failures
are the two refusals of records that cannot be counted: no difference goes below zero. -/
theorem Table.revise_law {Layout Record : Type} {storage : Storage Layout Record}
    {heap : Heap Layout Record} (built : Table.Built storage heap base)
    (changes : List (Change Record))
    : let next := (base.revise storage heap changes).1
      let outcome := (base.revise storage heap changes).2
      (base.find storage next = base.find storage heap ∧ base.each next = base.each heap)
        ∧ (∀ fault, outcome = .error fault → fault = .record ∨ fault = .bytes)
        ∧ ∀ table, outcome = .ok table →
          table.find storage next = changes.foldl Change.on (base.find storage heap)
            ∧ (∀ key record,
                (key, record) ∈ table.each next ↔ table.find storage next key = some record)
            ∧ ((table.each next).map Prod.fst).Nodup
            ∧ table.size = (table.each next).length
            ∧ table.bytes = ((table.each next).map fun row => storage.cost row.1 row.2).sum
            ∧ table.overhead
              = ∑ slot, (((table.pages slot).bind fun link => next[link]?).elim 0
                fun page => storage.measure page.layout)
            ∧ ∀ slot link, table.pages slot = some link
              → ∃ page, next[link]? = some page ∧ page.entries.size ≠ 0 := by
  intro next outcome
  have sound := built.sound
  obtain ⟨kept, _, cases_⟩ := sound.revise changes
  have findEq (heap : Heap Layout Record) (table : Table) : table.find storage heap
      = lookup storage (resolve heap table.pages fun _ => none) :=
    funext (Table.find_eq heap table)
  refine ⟨⟨?_, ?_⟩, fun fault failed => ?_, fun table done => ?_⟩
  · simp only [findEq, sound.keeps kept, next]
  · simp only [Table.each_eq, sound.keeps kept, next]
  · rcases cases_ with large | full | ⟨published, done, _⟩
    · exact .inl (Except.error.inj (failed.symm.trans large))
    · exact .inr (Except.error.inj (failed.symm.trans full))
    · exact nomatch failed.symm.trans done
  · rcases cases_ with large | full | ⟨published, isPublished, sound', found⟩
    · exact nomatch done.symm.trans large
    · exact nomatch done.symm.trans full
    · obtain rfl := Except.ok.inj (done.symm.trans isPublished)
      simp only [findEq, Table.each_eq]
      refine ⟨found, fun key record => sound'.counted.mem_rows, sound'.counted.nodup_rows,
        sound'.counted.totals.1, sound'.counted.totals.2, ?_, fun slot link isLink => ?_⟩
      · simpa [resolve] using sound'.counted.overhead
      · obtain ⟨page, isPage, _⟩ := fetch_ok (sound'.linked.based slot link isLink)
        exact ⟨page, isPage, sound'.linked.filled slot page rfl (by
          simp [resolve, isLink, isPage])⟩

end Drafts

/-- Hash tables that double their buckets when a key comes in and lose the spare ones in a copy. -/
def doubling : Storage Nat Bytes where
  hash key := key.length
  fresh := 1
  copied page := max 1 page.entries.size
  grown page _ := page.layout * 2
  measure buckets := 88 + buckets * 8
  payload := List.length

def filled : Heap Nat Bytes × Except Fault Table :=
  Table.revise doubling [] {} [.set [1] [7, 7], .set [2] [], .set [3, 4] [9]]

def filledTable : Table :=
  filled.2.toOption.getD {}

def thinned : Heap Nat Bytes × Except Fault Table :=
  filledTable.revise doubling filled.1 [.erase [3, 4], .erase [5], .set [2] [6]]

theorem revise_law_doubling
    : filledTable.find doubling thinned.1 = filledTable.find doubling filled.1
      ∧ ∃ table, thinned.2 = .ok table ∧ (table.size, table.bytes, table.overhead) = (2, 5, 104)
        ∧ table.find doubling thinned.1
          = [Change.erase [3, 4], .erase [5], .set [2] [6]].foldl Change.on
            (filledTable.find doubling filled.1) := by
  have isTable : filled = (filled.1, .ok filledTable) := by
    have succeeded : filled.2.isOk = true := by decide +kernel
    refine Prod.ext rfl ?_
    simp only [filledTable]
    cases outcome : filled.2 with
    | ok table => rfl
    | error fault => simp [outcome, Except.isOk, Except.toBool] at succeeded
  have law := Table.revise_law (.revised .empty isTable : Table.Built doubling filled.1 filledTable)
    [.erase [3, 4], .erase [5], .set [2] [6]]
  have counters : thinned.2.toOption.map (fun table => (table.size, table.bytes, table.overhead))
      = some (2, 5, 104) := by
    decide +kernel
  refine ⟨law.1.1, ?_⟩
  cases outcome : thinned.2 with
  | error fault => simp [outcome, Except.toOption] at counters
  | ok table =>
      have isCounted : (table.size, table.bytes, table.overhead) = (2, 5, 104) := by
        simpa only [outcome, Except.toOption, Option.map_some, Option.some.injEq] using counters
      exact ⟨table, rfl, isCounted, (law.2.2 table outcome).1⟩

end Comet
