import Verdandi.Common.Scope
import Verdandi.Support.Heap
import Verdandi.Support.Redis
import Verdandi.Support.Slots

/-! The deadlines of a selector: a heap of UUIDs, with the place of each of them. Equal deadlines are
ordered by their UUIDs.
-/

namespace Sdk.Registration

open Support
open Support.Redis (Text)
open Support.Heap (rank parent lesser)

structure DeadlineItem where
  uuid : Text
  deadline : Nat
  deriving DecidableEq

structure DeadlineQueue where
  items : List DeadlineItem := []
  indices : Assoc Text Nat := ∅

namespace DeadlineQueue

-- The queue

def DeadlineItem.less (left right : DeadlineItem) : Bool :=
  if left.deadline = right.deadline then
    decide (left.uuid < right.uuid)
  else
    decide (left.deadline < right.deadline)

def less (queue : DeadlineQueue) (left right : Nat) : Bool :=
  match queue.items[left]?, queue.items[right]? with
  | some one, some other => DeadlineItem.less one other
  | _, _ => false

def swap (queue : DeadlineQueue) (left right : Nat) : DeadlineQueue :=
  match queue.items[left]?, queue.items[right]? with
  | some one, some other =>
      { items := (queue.items.set left other).set right one
        indices := (queue.indices.set other.uuid left).set one.uuid right }
  | _, _ => queue

def up : Nat → DeadlineQueue → Nat → DeadlineQueue
  | 0, queue, _ => queue
  | rounds + 1, queue, index =>
      if 0 < index then
        if queue.less index ((index - 1) / 2) then
          up rounds (queue.swap index ((index - 1) / 2)) ((index - 1) / 2)
        else
          queue
      else
        queue

def child (queue : DeadlineQueue) (index : Nat) : Nat :=
  if index * 2 + 2 < queue.items.length ∧ queue.less (index * 2 + 2) (index * 2 + 1) then
    index * 2 + 2
  else
    index * 2 + 1

/-- Let an item sink, and say whether it moved. The length bounds the number of rounds. -/
def down (start : Nat) : Nat → DeadlineQueue → Nat → DeadlineQueue × Bool
  | 0, queue, index => (queue, index != start)
  | rounds + 1, queue, index =>
      if index * 2 + 1 ≥ queue.items.length then
        (queue, index != start)
      else if !queue.less (queue.child index) index then
        (queue, index != start)
      else
        down start rounds (queue.swap (queue.child index) index) (queue.child index)

def set (queue : DeadlineQueue) (uuid : Text) (deadline : Nat) : DeadlineQueue :=
  match queue.indices.get? uuid with
  | some index =>
      match queue.items[index]? with
      | none => queue
      | some previous =>
          let changed :=
            { queue with items := queue.items.set index { previous with deadline } }
          if deadline < previous.deadline then
            up index changed index
          else if deadline > previous.deadline then
            (down index changed.items.length changed index).1
          else
            changed
  | none =>
      let index := queue.items.length
      up index
        { items := queue.items ++ [{ uuid, deadline }]
          indices := queue.indices.set uuid index }
        index

def remove (queue : DeadlineQueue) (uuid : Text) : DeadlineQueue × Bool :=
  match queue.indices.get? uuid with
  | none => (queue, false)
  | some index =>
      let last := queue.items.length - 1
      if index = last then
        ({ items := queue.items.take last, indices := queue.indices.remove uuid }, true)
      else
        match queue.items[last]? with
        | none => (queue, false)
        | some filler =>
            let filled : DeadlineQueue :=
              { items := (queue.items.set index filler).take last
                indices := (queue.indices.remove uuid).set filler.uuid index }
            let (sunk, moved) := down index filled.items.length filled index
            (if moved then sunk else up index sunk index, true)

def expire (queue : DeadlineQueue) (now : Nat) : Option (Text × DeadlineQueue) :=
  match queue.items.head? with
  | none => none
  | some first =>
      if first.deadline > now then none else some (first.uuid, (queue.remove first.uuid).1)

def pop (queue : DeadlineQueue) : Option (Text × DeadlineQueue) :=
  match queue.items.head? with
  | none => none
  | some first => some (first.uuid, (queue.remove first.uuid).1)

def next (queue : DeadlineQueue) : Option Nat :=
  queue.items.head?.map DeadlineItem.deadline

-- As a heap

def key (item : DeadlineItem) : Nat ×ₗ List Nat :=
  toLex (item.deadline, Astra.Bytes.rank item.uuid)

theorem rank_lt_iff (left right : Text)
    : Astra.Bytes.rank left < Astra.Bytes.rank right ↔ left < right := by
  induction left generalizing right with
  | nil =>
      cases right with
      | nil => simp [Astra.Bytes.rank]
      | cons => simp [Astra.Bytes.rank]
  | cons first rest ih =>
      cases right with
      | nil => simp [Astra.Bytes.rank]
      | cons other more =>
          simp only [Astra.Bytes.rank, List.map_cons, List.cons_lt_cons_iff] at ih ⊢
          rw [← UInt8.lt_iff_toNat_lt, UInt8.toNat_inj, ih]

theorem less_item_iff (left right : DeadlineItem)
    : DeadlineItem.less left right = true ↔ key left < key right := by
  unfold DeadlineItem.less key
  rw [Prod.Lex.toLex_lt_toLex, rank_lt_iff]
  split
  next same => simp [same]
  next differ => simp [differ]

variable {queue : DeadlineQueue} {uuid : Text}

theorem less_iff {left right : Nat} (inside : right < queue.items.length)
    : queue.less left right = true ↔ rank key queue.items left < rank key queue.items right := by
  unfold less rank
  rw [List.getElem?_eq_getElem inside]
  cases queue.items[left]? with
  | none => simp
  | some one => simp [less_item_iff]

theorem items_swap (queue : DeadlineQueue) (left right : Nat)
    : (queue.swap left right).items = Heap.swap queue.items left right := by
  unfold swap Heap.swap
  cases queue.items[left]? with
  | none => rfl
  | some one =>
      cases queue.items[right]? with
      | none => rfl
      | some other => rfl

variable {index : Nat}

theorem child_eq (inside : index * 2 + 1 < queue.items.length)
    : queue.child index = lesser key queue.items index := by
  unfold child lesser
  rw [Nat.mul_comm index 2] at *
  by_cases right : 2 * index + 2 < queue.items.length
  · simp only [right, true_and, less_iff inside]
  · have last : ¬ rank key queue.items (2 * index + 2) < rank key queue.items (2 * index + 1) := by
      rw [Heap.rank_of_le (Nat.le_of_not_lt right)]
      exact not_top_lt
    rw [if_neg fun both => right both.1, if_neg last]

theorem items_up (rounds : Nat) (queue : DeadlineQueue) (inside : index < queue.items.length)
    : (up rounds queue index).items = Heap.siftUp key rounds queue.items index := by
  induction rounds generalizing queue index with
  | zero => rfl
  | succ rounds ih =>
      unfold up Heap.siftUp
      by_cases positive : 0 < index
      · have lower := Heap.parent_lt positive
        have compared := @less_iff queue index _ (lower.trans inside)
        simp only [positive, if_true, true_and]
        unfold parent at compared lower ⊢
        split
        next rises =>
          rw [if_pos (compared.mp rises), ← items_swap]
          exact ih _ (by rw [items_swap, Heap.length_swap]; omega)
        next stays => rw [if_neg fun less => stays (compared.mpr less)]
      · simp [positive]

/-- Whether an item would sink. -/
abbrev Sinks (queue : DeadlineQueue) (index : Nat) : Prop :=
  rank key queue.items (lesser key queue.items index) < rank key queue.items index

theorem down_round {index : Nat} (inside : index < queue.items.length)
    : (index * 2 + 1 ≥ queue.items.length ∨ queue.less (queue.child index) index = false)
      ↔ ¬ queue.Sinks index := by
  unfold Sinks
  by_cases left : index * 2 + 1 < queue.items.length
  · rw [child_eq left, ← less_iff inside]
    simp [Nat.not_le.mpr left]
  · have none' : rank key queue.items (lesser key queue.items index) = ⊤ := by
      apply Heap.rank_of_le
      have := Heap.parent_lesser key queue.items index
      unfold parent at this
      omega
    rw [none']
    simp [Nat.le_of_not_lt left]

theorem items_down (start rounds : Nat) (queue : DeadlineQueue)
    (inside : index < queue.items.length)
    : (down start rounds queue index).1.items = Heap.siftDown key rounds queue.items index := by
  induction rounds generalizing queue index with
  | zero => rfl
  | succ rounds ih =>
      have round := down_round inside
      unfold down Heap.siftDown
      split
      next alone => rw [if_neg (round.mp (.inl alone))]
      rename_i left
      split
      next stays => rw [if_neg (round.mp (.inr (by simpa using stays)))]
      rename_i sinks
      have moves : queue.Sinks index := by
        by_contra stays
        rcases round.mpr stays with alone | last
        · exact left alone
        · simp [last] at sinks
      have same := child_eq (Nat.lt_of_not_le left)
      rw [if_pos moves, ← same, ← items_swap]
      refine ih _ ?_
      rw [items_swap, Heap.length_swap, same]
      exact Heap.lt_length_of_rank_lt moves

/-- An item has moved if it would sink. -/
theorem moved_down (start rounds : Nat) (queue : DeadlineQueue)
    (inside : start < queue.items.length) (enough : 0 < rounds)
    : (down start rounds queue start).2 = true ↔ queue.Sinks start := by
  have later (rounds : Nat) (queue : DeadlineQueue) (index : Nat) (past : start < index)
      : (down start rounds queue index).2 = true := by
    induction rounds generalizing queue index with
    | zero =>
        simp only [down, bne_iff_ne]
        omega
    | succ rounds ih =>
        unfold down
        split
        · simp only [bne_iff_ne]
          omega
        · split
          · simp only [bne_iff_ne]
            omega
          · apply ih
            unfold child
            split <;> omega
  have round := down_round inside
  obtain ⟨rounds, rfl⟩ : ∃ less, rounds = less + 1 := ⟨rounds - 1, by omega⟩
  unfold down
  split
  next alone => simpa using round.mp (.inl alone)
  rename_i left
  split
  next stays => simpa using round.mp (.inr (by simpa using stays))
  rename_i sinks
  have moves : queue.Sinks start := by
    by_contra stays
    rcases round.mpr stays with alone | last
    · exact left alone
    · simp [last] at sinks
  simp only [moves, iff_true]
  apply later
  unfold child
  split <;> omega

-- Places

def Exact (queue : DeadlineQueue) : Prop :=
  ∀ uuid place, queue.indices.get? uuid = some place
      ↔ ∃ item, queue.items[place]? = some item ∧ item.uuid = uuid

variable {left right : Nat}

theorem Exact.unique (exact' : queue.Exact) {one other : DeadlineItem}
    (here : queue.items[left]? = some one) (there : queue.items[right]? = some other)
    (same : one.uuid = other.uuid)
    : left = right := by
  have first := (exact' one.uuid left).mpr ⟨one, here, rfl⟩
  have second := (exact' one.uuid right).mpr ⟨other, there, same.symm⟩
  rw [first] at second
  exact Option.some.inj second

theorem Exact.swap (exact' : queue.Exact) (inside : left < queue.items.length)
    (within : right < queue.items.length)
    : (queue.swap left right).Exact := by
  have here := List.getElem?_eq_getElem inside
  have there := List.getElem?_eq_getElem within
  intro uuid place
  rw [items_swap, Heap.getElem?_swap inside within, here, there]
  have places : (queue.swap left right).indices.get? uuid
      = if uuid = queue.items[left].uuid then some right
        else if uuid = queue.items[right].uuid then some left
        else queue.indices.get? uuid := by
    unfold DeadlineQueue.swap
    rw [here, there]
    simp
  rw [places]
  by_cases one : uuid = queue.items[left].uuid
  · subst one
    rw [if_pos rfl]
    constructor
    · rintro ⟨⟩
      exact ⟨_, by rw [if_pos rfl], rfl⟩
    · rintro ⟨item, found, named⟩
      split at found
      next last => rw [last]
      · split at found
        next apart first =>
          cases found
          exact absurd (first.trans (exact'.unique here there named.symm)) apart
        rename_i apart
        exact absurd (exact'.unique found here named) apart
  · rw [if_neg one]
    by_cases other : uuid = queue.items[right].uuid
    · subst other
      rw [if_pos rfl]
      have apart : left ≠ right := by
        rintro rfl
        exact one rfl
      constructor
      · rintro ⟨⟩
        exact ⟨_, by rw [if_neg apart, if_pos rfl], rfl⟩
      · rintro ⟨item, found, named⟩
        split at found
        · cases found
          exact absurd named.symm one
        · split at found
          next first => rw [first]
          rename_i last _
          exact absurd (exact'.unique found there named) last
    · rw [if_neg other, exact' uuid place]
      constructor
      · rintro ⟨item, found, named⟩
        have first : place ≠ left := by
          rintro rfl
          rw [here] at found
          cases found
          exact one named.symm
        have last : place ≠ right := by
          rintro rfl
          rw [there] at found
          cases found
          exact other named.symm
        exact ⟨item, by rw [if_neg last, if_neg first, found], named⟩
      · rintro ⟨item, found, named⟩
        split at found
        · cases found
          exact absurd named.symm one
        · split at found
          · cases found
            exact absurd named.symm other
          · exact ⟨item, found, named⟩

theorem Exact.up (exact' : queue.Exact) (rounds : Nat) (inside : index < queue.items.length)
    : (DeadlineQueue.up rounds queue index).Exact := by
  induction rounds generalizing queue index with
  | zero => exact exact'
  | succ rounds ih =>
      unfold DeadlineQueue.up
      split
      next positive =>
        split
        · have lower := Heap.parent_lt positive
          unfold parent at lower
          refine ih (exact'.swap inside (by omega)) ?_
          rw [items_swap, Heap.length_swap]
          omega
        · exact exact'
      · exact exact'

theorem Exact.down (exact' : queue.Exact) (start rounds : Nat) (inside : index < queue.items.length)
    : (DeadlineQueue.down start rounds queue index).1.Exact := by
  induction rounds generalizing queue index with
  | zero => exact exact'
  | succ rounds ih =>
      unfold DeadlineQueue.down
      split
      · exact exact'
      rename_i left
      split
      · exact exact'
      · have within : queue.child index < queue.items.length := by
          unfold child
          split <;> omega
        refine ih (exact'.swap within inside) ?_
        rw [items_swap, Heap.length_swap]
        exact within

-- What a queue holds

structure Holds (queue : DeadlineQueue) (content : Text → Option Nat) : Prop where
  ordered : Heap.Ordered key queue.items
  exact' : queue.Exact
  content
    : ∀ uuid deadline,
        content uuid = some deadline ↔ ({ uuid, deadline } : DeadlineItem) ∈ queue.items

variable {content : Text → Option Nat}

theorem holds_empty : Holds {} fun _ => none where
  ordered place _ := by simp [rank]
  exact' := by simp [Exact]
  content := by simp

variable {deadline : Nat}

theorem Holds.place (holds : queue.Holds content) (held : content uuid = some deadline)
    : ∃ index, queue.indices.get? uuid = some index
        ∧ queue.items[index]? = some { uuid, deadline } := by
  obtain ⟨index, found⟩ := List.mem_iff_getElem?.mp ((holds.content uuid deadline).mp held)
  exact ⟨index, (holds.exact' uuid index).mpr ⟨_, found, rfl⟩, found⟩

theorem Holds.none_iff (holds : queue.Holds content)
    : content uuid = none ↔ queue.indices.get? uuid = none := by
  constructor
  · intro free
    cases placed : queue.indices.get? uuid with
    | none => rfl
    | some index =>
        obtain ⟨item, found, rfl⟩ := (holds.exact' uuid index).mp placed
        rw [(holds.content item.uuid item.deadline).mpr (List.mem_of_getElem? found)] at free
        cases free
  · intro free
    cases held : content uuid with
    | none => rfl
    | some deadline =>
        obtain ⟨index, placed, _⟩ := holds.place held
        rw [free] at placed
        cases placed

/-- Sifting keeps what is held. -/
theorem Holds.of_perm {other : DeadlineQueue} {base : List DeadlineItem}
    (ordered : Heap.Ordered key other.items) (exact' : other.Exact)
    (same : other.items.Perm base)
    (listed
      : ∀ uuid deadline, content uuid = some deadline ↔ ({ uuid, deadline } : DeadlineItem) ∈ base)
    : other.Holds content :=
  ⟨ordered, exact', fun uuid deadline => (listed uuid deadline).trans same.mem_iff.symm⟩

theorem Holds.set (holds : queue.Holds content) (uuid : Text) (deadline : Nat)
    : (queue.set uuid deadline).Holds (Function.update content uuid (some deadline)) := by
  have updated (other : Text) (time : Nat)
      : Function.update content uuid (some deadline) other = some time
        ↔ (other = uuid ∧ time = deadline) ∨ (other ≠ uuid ∧ content other = some time) := by
    by_cases same : other = uuid
    · subst same
      simp [eq_comm]
    · simp [same]
  unfold DeadlineQueue.set
  split
  next index placed =>
    obtain ⟨previous, found, rfl⟩ := (holds.exact' uuid index).mp placed
    obtain ⟨inside, stored⟩ := List.getElem?_eq_some_iff.mp found
    rw [found]
    dsimp only
    have keys : (∀ {time : Nat}, time ≤ previous.deadline →
          key { previous with deadline := time } ≤ key queue.items[index])
        ∧ ∀ {time : Nat}, previous.deadline ≤ time →
          key queue.items[index] ≤ key { previous with deadline := time } := by
      rw [stored]
      refine ⟨fun less => ?_, fun more => ?_⟩
      · exact Prod.Lex.toLex_mono ⟨less, le_rfl⟩
      · exact Prod.Lex.toLex_mono ⟨more, le_rfl⟩
    have exact'
        : Exact { queue with items := queue.items.set index { previous with deadline } } := by
      intro other place
      rw [holds.exact' other place]
      constructor
      · rintro ⟨item, there, named⟩
        by_cases same : place = index
        · subst same
          rw [found] at there
          cases there
          exact ⟨{ previous with deadline }, by simp [inside], named⟩
        · exact ⟨item, by rw [List.getElem?_set, if_neg fun equal => same equal.symm, there], named⟩
      · rintro ⟨item, there, named⟩
        rcases getElem?_set_or there with ⟨rfl, rfl⟩ | ⟨_, old⟩
        · exact ⟨previous, found, named⟩
        · exact ⟨item, old, named⟩
    have listed (other : Text) (time : Nat)
        : Function.update content previous.uuid (some deadline) other = some time
          ↔ ({ uuid := other, deadline := time } : DeadlineItem)
            ∈ queue.items.set index { previous with deadline } := by
      rw [updated, List.mem_iff_getElem?]
      constructor
      · rintro (⟨rfl, rfl⟩ | ⟨differ, held⟩)
        · exact ⟨index, by simp [inside]⟩
        · obtain ⟨place, there⟩ := List.mem_iff_getElem?.mp ((holds.content other time).mp held)
          refine ⟨place, ?_⟩
          rw [List.getElem?_set, if_neg, there]
          rintro rfl
          rw [found] at there
          cases there
          exact differ rfl
      · rintro ⟨place, there⟩
        rcases getElem?_set_or there with ⟨_, same⟩ | ⟨apart, old⟩
        · cases same
          exact .inl ⟨rfl, rfl⟩
        · refine .inr ⟨?_, (holds.content other time).mpr (List.mem_of_getElem? old)⟩
          rintro rfl
          exact apart (holds.exact'.unique old found rfl)
    have around := holds.ordered.set inside { previous with deadline }
    have within : index < (queue.items.set index { previous with deadline }).length := by
      simpa using inside
    split
    next less =>
      refine .of_perm ?_ (exact'.up index within) ?_ listed
      · rw [items_up index _ within]
        exact Heap.siftUp_ordered around
          (holds.ordered.below_set inside (keys.1 (Nat.le_of_lt less))) within le_rfl
      · rw [items_up index _ within]
        exact Heap.siftUp_perm _ _ _
    · split
      next more =>
        refine .of_perm ?_ (exact'.down index _ within) ?_ listed
        · rw [items_down index _ _ within]
          exact Heap.siftDown_ordered around
            (holds.ordered.above_set inside (keys.2 (Nat.le_of_lt more))) within
            (Nat.le_add_right _ _)
        · rw [items_down index _ _ within]
          exact Heap.siftDown_perm _ _ _
      · have same : previous.deadline = deadline := by omega
        exact ⟨around.ordered (holds.ordered.below_set inside (keys.1 (by omega)))
          (holds.ordered.above_set inside (keys.2 (by omega))), exact', listed⟩
  rename_i free
  have missing := holds.none_iff.mpr free
  have inside : queue.items.length < (queue.items ++ [({ uuid, deadline } : DeadlineItem)]).length := by
    simp
  have exact'
      : Exact
          { items := queue.items ++ [{ uuid, deadline }]
            indices := queue.indices.set uuid queue.items.length } := by
    intro other place
    rw [Assoc.get?_set, List.getElem?_append]
    by_cases same : other = uuid
    · subst same
      rw [if_pos rfl]
      constructor
      · rintro ⟨⟩
        exact ⟨_, by simp; rfl, rfl⟩
      · rintro ⟨item, there, named⟩
        split at there
        · rw [(holds.exact' other place).mpr ⟨item, there, named⟩] at free
          cases free
        rename_i behind
        have last : place - queue.items.length = 0 := by
          simpa using (List.getElem?_eq_some_iff.mp there).1
        rw [show place = queue.items.length by omega]
    · rw [if_neg same, holds.exact' other place]
      constructor
      · rintro ⟨item, there, named⟩
        have before := (List.getElem?_eq_some_iff.mp there).1
        exact ⟨item, by rw [if_pos before, there], named⟩
      · rintro ⟨item, there, named⟩
        split at there
        · exact ⟨item, there, named⟩
        · have fresh := List.mem_singleton.mp (List.mem_of_getElem? there)
          subst fresh
          exact absurd named.symm same
  have listed (other : Text) (time : Nat)
      : Function.update content uuid (some deadline) other = some time
        ↔ ({ uuid := other, deadline := time } : DeadlineItem)
          ∈ queue.items ++ [({ uuid := uuid, deadline := deadline } : DeadlineItem)] := by
    rw [updated, List.mem_append, List.mem_singleton, DeadlineItem.mk.injEq]
    constructor
    · rintro (new | ⟨_, held⟩)
      · exact .inr new
      · exact .inl ((holds.content other time).mp held)
    · rintro (old | new)
      · have held := (holds.content other time).mpr old
        refine .inr ⟨?_, held⟩
        rintro rfl
        rw [missing] at held
        cases held
      · exact .inl new
  obtain ⟨around, below⟩ := holds.ordered.push { uuid, deadline }
  refine .of_perm ?_ (exact'.up queue.items.length inside) ?_ listed
  · rw [items_up _ _ inside]
    exact Heap.siftUp_ordered around below inside le_rfl
  · rw [items_up _ _ inside]
    exact Heap.siftUp_perm _ _ _

/-- What is left in a list whose place is filled by the last item. -/
theorem mem_fill_iff {items : List DeadlineItem} {filler item : DeadlineItem}
    (inside : index < items.length - 1) (last : items[items.length - 1]? = some filler)
    : item ∈ (items.set index filler).take (items.length - 1)
      ↔ ∃ place, place ≠ index ∧ items[place]? = some item := by
  rw [List.mem_iff_getElem?]
  constructor
  · rintro ⟨place, there⟩
    rw [List.getElem?_take] at there
    split at there
    next before =>
      rcases getElem?_set_or there with ⟨_, rfl⟩ | ⟨apart, old⟩
      · exact ⟨items.length - 1, by omega, last⟩
      · exact ⟨place, apart, old⟩
    · cases there
  · rintro ⟨place, apart, there⟩
    have within := (List.getElem?_eq_some_iff.mp there).1
    by_cases final : place = items.length - 1
    · rw [final, last] at there
      cases there
      refine ⟨index, ?_⟩
      rw [List.getElem?_take, if_pos inside, List.getElem?_set_self (by omega)]
    · refine ⟨place, ?_⟩
      rw [List.getElem?_take, if_pos (by omega), List.getElem?_set, if_neg fun same => apart same.symm,
        there]

theorem Holds.remove (holds : queue.Holds content) (uuid : Text)
    : (queue.remove uuid).1.Holds (Function.update content uuid none)
      ∧ (queue.remove uuid).2 = (content uuid).isSome := by
  have updated (other : Text) (time : Nat)
      : Function.update content uuid none other = some time
        ↔ other ≠ uuid ∧ content other = some time := by
    by_cases same : other = uuid
    · subst same
      simp
    · simp [same]
  unfold DeadlineQueue.remove
  split
  next free =>
    have missing := holds.none_iff.mpr free
    refine ⟨⟨holds.ordered, holds.exact', fun other time => ?_⟩, by simp [missing]⟩
    rw [updated, holds.content]
    refine ⟨And.right, fun listed => ⟨?_, listed⟩⟩
    rintro rfl
    rw [(holds.content other time).mpr listed] at missing
    cases missing
  rename_i index placed
  obtain ⟨item, found, rfl⟩ := (holds.exact' uuid index).mp placed
  obtain ⟨inside, stored⟩ := List.getElem?_eq_some_iff.mp found
  have present : content item.uuid = some item.deadline :=
    (holds.content _ _).mpr (List.mem_of_getElem? found)
  -- Of the removed UUID there was only the removed item.
  have others (other : DeadlineItem)
      : (∃ place, place ≠ index ∧ queue.items[place]? = some other)
        ↔ other.uuid ≠ item.uuid ∧ other ∈ queue.items := by
    constructor
    · rintro ⟨place, apart, there⟩
      exact ⟨fun same => apart (holds.exact'.unique there found same), List.mem_of_getElem? there⟩
    · rintro ⟨differ, listed⟩
      obtain ⟨place, there⟩ := List.mem_iff_getElem?.mp listed
      refine ⟨place, ?_, there⟩
      rintro rfl
      rw [found] at there
      cases there
      exact differ rfl
  have placedOther {other : Text} (differ : other ≠ item.uuid) {place : Nat}
      (there : queue.indices.get? other = some place)
      : place ≠ index := by
    rintro rfl
    rw [holds.exact'] at there
    obtain ⟨second, again, named⟩ := there
    rw [found] at again
    cases again
    exact differ named.symm
  dsimp only
  split
  next last =>
    refine ⟨⟨holds.ordered.take _, ?_, ?_⟩, by simp [present]⟩
    · intro other place
      rw [Assoc.get?_remove, List.getElem?_take]
      split
      next same =>
        subst same
        refine ⟨(by intros; contradiction), ?_⟩
        rintro ⟨second, there, named⟩
        split at there
        next before => exact absurd (holds.exact'.unique there found named) (by omega)
        · cases there
      rename_i differ
      constructor
      · intro there
        have apart := placedOther differ there
        rw [holds.exact'] at there
        obtain ⟨second, again, named⟩ := there
        have within := (List.getElem?_eq_some_iff.mp again).1
        exact ⟨second, by rw [if_pos (by omega), again], named⟩
      · rintro ⟨second, there, named⟩
        split at there
        · exact (holds.exact' other place).mpr ⟨second, there, named⟩
        · cases there
    · intro other time
      rw [updated, holds.content, ← others { uuid := other, deadline := time },
        List.mem_iff_getElem?]
      constructor
      · rintro ⟨place, apart, there⟩
        have within := (List.getElem?_eq_some_iff.mp there).1
        exact ⟨place, by rw [List.getElem?_take, if_pos (by omega), there]⟩
      · rintro ⟨place, there⟩
        rw [List.getElem?_take] at there
        split at there
        next before => exact ⟨place, by omega, there⟩
        · cases there
  rename_i middle
  have before : index < queue.items.length - 1 := by omega
  obtain ⟨filler, last⟩ : ∃ filler, queue.items[queue.items.length - 1]? = some filler :=
    ⟨_, List.getElem?_eq_getElem (by omega)⟩
  rw [last]
  dsimp only
  have listed (other : Text) (time : Nat)
      : Function.update content item.uuid none other = some time
        ↔ ({ uuid := other, deadline := time } : DeadlineItem)
          ∈ (queue.items.set index filler).take (queue.items.length - 1) := by
    rw [updated, holds.content, mem_fill_iff before last, others]
  have fillerApart : filler.uuid ≠ item.uuid := fun same =>
    absurd (holds.exact'.unique last found same) (by omega)
  have exact'
      : Exact
          { items := (queue.items.set index filler).take (queue.items.length - 1)
            indices := (queue.indices.remove item.uuid).set filler.uuid index } := by
    intro other place
    rw [Assoc.get?_set, Assoc.get?_remove, List.getElem?_take]
    by_cases filled : other = filler.uuid
    · subst filled
      rw [if_pos rfl]
      constructor
      · rintro ⟨⟩
        exact ⟨filler, by rw [if_pos before]; simp [inside], rfl⟩
      · rintro ⟨second, there, named⟩
        split at there
        next within =>
          rcases getElem?_set_or there with ⟨same, _⟩ | ⟨_, old⟩
          · rw [same]
          · exact absurd (holds.exact'.unique old last named) (by omega)
        · cases there
    · rw [if_neg filled]
      by_cases removed : other = item.uuid
      · rw [if_pos removed]
        refine ⟨(by intros; contradiction), ?_⟩
        rintro ⟨second, there, named⟩
        split at there
        · rcases getElem?_set_or there with ⟨_, rfl⟩ | ⟨apart, old⟩
          · exact absurd named.symm filled
          · exact absurd (holds.exact'.unique old found (named.trans removed)) apart
        · cases there
      · rw [if_neg removed]
        constructor
        · intro there
          have apart := placedOther removed there
          obtain ⟨second, again, named⟩ := (holds.exact' other place).mp there
          have within := (List.getElem?_eq_some_iff.mp again).1
          have notLast : place ≠ queue.items.length - 1 := by
            rintro rfl
            rw [last] at again
            cases again
            exact filled named.symm
          exact ⟨second, by
            rw [if_pos (by omega), List.getElem?_set, if_neg fun same => apart same.symm, again],
            named⟩
        · rintro ⟨second, there, named⟩
          split at there
          · rcases getElem?_set_or there with ⟨_, rfl⟩ | ⟨_, old⟩
            · exact absurd named.symm filled
            · exact (holds.exact' other place).mpr ⟨second, old, named⟩
          · cases there
  have around : Heap.Around key
      ((queue.items.set index filler).take (queue.items.length - 1)) index :=
    (holds.ordered.set inside filler).take _
  have within : index < ((queue.items.set index filler).take (queue.items.length - 1)).length := by
    simp
    omega
  refine ⟨?_, by simp [present]⟩
  generalize (queue.items.set index filler).take (queue.items.length - 1) = base at *
  generalize (queue.indices.remove item.uuid).set filler.uuid index = places at *
  have moved := moved_down index base.length { items := base, indices := places } within (by omega)
  have sunk := items_down index base.length { items := base, indices := places } within
  split
  next moves =>
    refine .of_perm ?_ (exact'.down index _ within) ?_ listed
    · rw [sunk]
      exact Heap.siftDown_ordered around (around.above (moved.mp moves)) within
        (Nat.le_add_right _ _)
    · rw [sunk]
      exact Heap.siftDown_perm _ _ _
  rename_i stays
  -- Nothing sank, so the item may only have to rise.
  have still : ¬ Sinks { items := base, indices := places } index :=
    fun sinks => stays (moved.mpr sinks)
  have same : (DeadlineQueue.down index base.length
      { items := base, indices := places } index).1 = { items := base, indices := places } := by
    obtain ⟨rounds, equal⟩ : ∃ less, base.length = less + 1 := ⟨base.length - 1, by omega⟩
    have round := (@down_round { items := base, indices := places } _ within).mpr still
    rw [equal]
    unfold DeadlineQueue.down
    split
    · rfl
    rename_i left
    split
    · rfl
    rename_i sinks
    rcases round with alone | stays
    · exact absurd alone left
    · simp [stays] at sinks
  rw [same]
  refine .of_perm ?_ (exact'.up index within) ?_ listed
  · rw [items_up _ _ within]
    exact Heap.siftUp_ordered around (Heap.below_of_lesser still) within le_rfl
  · rw [items_up _ _ within]
    exact Heap.siftUp_perm _ _ _

-- The first item

/-- No other deadline comes before this one, nor the same deadline with a lesser UUID. -/
def Least (content : Text → Option Nat) (uuid : Text) (deadline : Nat) : Prop :=
  content uuid = some deadline ∧ ∀ other time, content other = some time →
          deadline < time ∨ (deadline = time ∧ (uuid = other ∨ uuid < other))

theorem Holds.head (holds : queue.Holds content)
    : (∀ first, queue.items.head? = some first → Least content first.uuid first.deadline)
      ∧ (queue.items.head? = none ↔ ∀ uuid, content uuid = none) := by
  constructor
  · intro first head
    have found : queue.items[0]? = some first := by rw [← List.head?_eq_getElem?, head]
    refine ⟨(holds.content _ _).mpr (List.mem_of_getElem? found), fun other time held => ?_⟩
    obtain ⟨place, there⟩ := List.mem_iff_getElem?.mp ((holds.content other time).mp held)
    have least := holds.ordered.root_le place
    simp only [rank, found, there, Option.elim_some, WithTop.coe_le_coe] at least
    unfold key at least
    rw [Prod.Lex.toLex_le_toLex] at least
    rcases least with less | ⟨same, order⟩
    · exact .inl less
    · refine .inr ⟨same, ?_⟩
      rcases order.lt_or_eq with less | equal
      · exact .inr ((rank_lt_iff _ _).mp less)
      · exact .inl (Astra.Bytes.rank_injective equal)
  · rw [List.head?_eq_none_iff]
    constructor
    · intro empty uuid
      cases held : content uuid with
      | none => rfl
      | some deadline =>
          have listed := (holds.content uuid deadline).mp held
          rw [empty] at listed
          cases listed
    · intro none'
      by_contra some'
      obtain ⟨item, listed⟩ := List.exists_mem_of_ne_nil _ some'
      have held := (holds.content item.uuid item.deadline).mpr listed
      rw [none'] at held
      cases held

variable {rest : DeadlineQueue}

/-- `pop` takes the least deadline. -/
theorem Holds.pop (holds : queue.Holds content) (popped : queue.pop = some (uuid, rest))
    : (∃ deadline, Least content uuid deadline)
      ∧ rest.Holds (Function.update content uuid none) := by
  unfold DeadlineQueue.pop at popped
  split at popped
  · cases popped
  rename_i first head
  cases popped
  exact ⟨⟨first.deadline, holds.head.1 first head⟩, (holds.remove first.uuid).1⟩

theorem Holds.pop_none (holds : queue.Holds content)
    : queue.pop = none ↔ ∀ uuid, content uuid = none := by
  rw [← holds.head.2]
  unfold DeadlineQueue.pop
  cases queue.items.head? with
  | none => simp
  | some first => simp

variable {now : Nat}

/-- `expire` takes the least deadline if it is not later than `now`. -/
theorem Holds.expire (holds : queue.Holds content) (expired : queue.expire now = some (uuid, rest))
    : (∃ deadline, deadline ≤ now ∧ Least content uuid deadline)
      ∧ rest.Holds (Function.update content uuid none) := by
  unfold DeadlineQueue.expire at expired
  split at expired
  · cases expired
  rename_i first head
  split at expired
  · cases expired
  rename_i due
  cases expired
  exact ⟨⟨first.deadline, Nat.le_of_not_lt due, holds.head.1 first head⟩,
    (holds.remove first.uuid).1⟩

/-- Where nothing expires, every deadline is later than `now`. -/
theorem Holds.expire_none (holds : queue.Holds content) (none' : queue.expire now = none)
    (held : content uuid = some deadline)
    : now < deadline := by
  unfold DeadlineQueue.expire at none'
  split at none'
  next empty =>
    rw [holds.head.2.mp empty uuid] at held
    cases held
  rename_i first head
  split at none'
  next later =>
    rcases (holds.head.1 first head).2 uuid deadline held with less | ⟨same, _⟩
    · omega
    · omega
  · cases none'

/-- `next` is the least deadline. -/
theorem Holds.next (holds : queue.Holds content)
    : (∀ deadline, queue.next = some deadline → ∃ uuid, Least content uuid deadline)
      ∧ (queue.next = none ↔ ∀ uuid, content uuid = none) := by
  unfold DeadlineQueue.next
  constructor
  · intro deadline found
    obtain ⟨first, head, rfl⟩ := Option.map_eq_some_iff.mp found
    exact ⟨first.uuid, holds.head.1 first head⟩
  · rw [Option.map_eq_none_iff]
    exact holds.head.2

end DeadlineQueue

end Sdk.Registration
